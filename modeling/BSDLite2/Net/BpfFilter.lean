import BSDLite2.Lib.Loop

/-!
# The packet filter machine (`net/bpf.h`, `net/bpf_filter.c`)

`bpf_filter` interprets a program of `struct bpf_insn` over one packet.  The
interpreter is a `while (1)` around a `switch`; here it is the loop body `step`
of `BSDLite2.Loop`, on the state the C function keeps in registers: the program
counter, the accumulator `A`, the index register `X` and the scratch memory
`mem`.

## What the model commits to

* `int`, `long`, `u_int` and `u_long` are 32 bits wide.  `A`, `X` and `k` are
  bit vectors; `k` is read as signed exactly where the C code uses it as an
  `int` index.
* The program counter is an integer index into the program, so a jump that
  leaves the program is visible as an index outside `[0, len)`.
* `A`, `X` and `mem` are not initialised by the C code: the initial state is a
  parameter.
* A packet is either a contiguous buffer or an mbuf chain.  The C function is
  told which by `buflen = 0`, and so is the model.  Bytes outside the valid part
  of a buffer or an mbuf are ordinary memory: they have a value, which the model
  keeps as a function on all offsets.
* A shift by 32 or more is left undefined by C; the model takes it to give 0.
-/

namespace BSDLite2.Bpf

open Loop

/-! ## Instruction encodings -/

def BPF_LD : BitVec 16 := 0x00
def BPF_LDX : BitVec 16 := 0x01
def BPF_ST : BitVec 16 := 0x02
def BPF_STX : BitVec 16 := 0x03
def BPF_ALU : BitVec 16 := 0x04
def BPF_JMP : BitVec 16 := 0x05
def BPF_RET : BitVec 16 := 0x06
def BPF_MISC : BitVec 16 := 0x07

def BPF_W : BitVec 16 := 0x00
def BPF_H : BitVec 16 := 0x08
def BPF_B : BitVec 16 := 0x10
def BPF_IMM : BitVec 16 := 0x00
def BPF_ABS : BitVec 16 := 0x20
def BPF_IND : BitVec 16 := 0x40
def BPF_MEM : BitVec 16 := 0x60
def BPF_LEN : BitVec 16 := 0x80
def BPF_MSH : BitVec 16 := 0xa0

def BPF_ADD : BitVec 16 := 0x00
def BPF_SUB : BitVec 16 := 0x10
def BPF_MUL : BitVec 16 := 0x20
def BPF_DIV : BitVec 16 := 0x30
def BPF_OR : BitVec 16 := 0x40
def BPF_AND : BitVec 16 := 0x50
def BPF_LSH : BitVec 16 := 0x60
def BPF_RSH : BitVec 16 := 0x70
def BPF_NEG : BitVec 16 := 0x80
def BPF_JA : BitVec 16 := 0x00
def BPF_JEQ : BitVec 16 := 0x10
def BPF_JGT : BitVec 16 := 0x20
def BPF_JGE : BitVec 16 := 0x30
def BPF_JSET : BitVec 16 := 0x40
def BPF_K : BitVec 16 := 0x00
def BPF_X : BitVec 16 := 0x08
def BPF_A : BitVec 16 := 0x10
def BPF_TAX : BitVec 16 := 0x00
def BPF_TXA : BitVec 16 := 0x80

/-- Number of scratch memory words. -/
def BPF_MEMWORDS : ℕ := 16

def bpfClass (code : BitVec 16) : BitVec 16 := code &&& 0x07

def bpfOp (code : BitVec 16) : BitVec 16 := code &&& 0xf0

/-- Width of a packet load. -/
inductive Size where
  | W | H | B
  deriving DecidableEq

/-- Second operand of an arithmetic or conditional jump instruction. -/
inductive Src where
  | K | X
  deriving DecidableEq

inductive AluOp where
  | add | sub | mul | div | or | and | lsh | rsh
  deriving DecidableEq

inductive JmpOp where
  | jeq | jgt | jge | jset
  deriving DecidableEq

/-- The cases of the interpreter's `switch`.  `illegal` is its `default`. -/
inductive Opcode where
  | retK | retA
  | ldAbs (size : Size) | ldInd (size : Size)
  | ldLen | ldxLen | ldxMsh
  | ldImm | ldxImm | ldMem | ldxMem | st | stx
  | ja | jmp (op : JmpOp) (src : Src)
  | alu (op : AluOp) (src : Src) | neg
  | tax | txa
  | illegal
  deriving DecidableEq

/-- The `case` labels of `bpf_filter`, in the source's order. -/
def opTable : List (BitVec 16 × Opcode) :=
  [(BPF_RET ||| BPF_K, .retK),
   (BPF_RET ||| BPF_A, .retA),
   (BPF_LD ||| BPF_W ||| BPF_ABS, .ldAbs .W),
   (BPF_LD ||| BPF_H ||| BPF_ABS, .ldAbs .H),
   (BPF_LD ||| BPF_B ||| BPF_ABS, .ldAbs .B),
   (BPF_LD ||| BPF_W ||| BPF_LEN, .ldLen),
   (BPF_LDX ||| BPF_W ||| BPF_LEN, .ldxLen),
   (BPF_LD ||| BPF_W ||| BPF_IND, .ldInd .W),
   (BPF_LD ||| BPF_H ||| BPF_IND, .ldInd .H),
   (BPF_LD ||| BPF_B ||| BPF_IND, .ldInd .B),
   (BPF_LDX ||| BPF_MSH ||| BPF_B, .ldxMsh),
   (BPF_LD ||| BPF_IMM, .ldImm),
   (BPF_LDX ||| BPF_IMM, .ldxImm),
   (BPF_LD ||| BPF_MEM, .ldMem),
   (BPF_LDX ||| BPF_MEM, .ldxMem),
   (BPF_ST, .st),
   (BPF_STX, .stx),
   (BPF_JMP ||| BPF_JA, .ja),
   (BPF_JMP ||| BPF_JGT ||| BPF_K, .jmp .jgt .K),
   (BPF_JMP ||| BPF_JGE ||| BPF_K, .jmp .jge .K),
   (BPF_JMP ||| BPF_JEQ ||| BPF_K, .jmp .jeq .K),
   (BPF_JMP ||| BPF_JSET ||| BPF_K, .jmp .jset .K),
   (BPF_JMP ||| BPF_JGT ||| BPF_X, .jmp .jgt .X),
   (BPF_JMP ||| BPF_JGE ||| BPF_X, .jmp .jge .X),
   (BPF_JMP ||| BPF_JEQ ||| BPF_X, .jmp .jeq .X),
   (BPF_JMP ||| BPF_JSET ||| BPF_X, .jmp .jset .X),
   (BPF_ALU ||| BPF_ADD ||| BPF_X, .alu .add .X),
   (BPF_ALU ||| BPF_SUB ||| BPF_X, .alu .sub .X),
   (BPF_ALU ||| BPF_MUL ||| BPF_X, .alu .mul .X),
   (BPF_ALU ||| BPF_DIV ||| BPF_X, .alu .div .X),
   (BPF_ALU ||| BPF_AND ||| BPF_X, .alu .and .X),
   (BPF_ALU ||| BPF_OR ||| BPF_X, .alu .or .X),
   (BPF_ALU ||| BPF_LSH ||| BPF_X, .alu .lsh .X),
   (BPF_ALU ||| BPF_RSH ||| BPF_X, .alu .rsh .X),
   (BPF_ALU ||| BPF_ADD ||| BPF_K, .alu .add .K),
   (BPF_ALU ||| BPF_SUB ||| BPF_K, .alu .sub .K),
   (BPF_ALU ||| BPF_MUL ||| BPF_K, .alu .mul .K),
   (BPF_ALU ||| BPF_DIV ||| BPF_K, .alu .div .K),
   (BPF_ALU ||| BPF_AND ||| BPF_K, .alu .and .K),
   (BPF_ALU ||| BPF_OR ||| BPF_K, .alu .or .K),
   (BPF_ALU ||| BPF_LSH ||| BPF_K, .alu .lsh .K),
   (BPF_ALU ||| BPF_RSH ||| BPF_K, .alu .rsh .K),
   (BPF_ALU ||| BPF_NEG, .neg),
   (BPF_MISC ||| BPF_TAX, .tax),
   (BPF_MISC ||| BPF_TXA, .txa)]

/-- The arm of the `switch` an instruction code selects. -/
def decode (code : BitVec 16) : Opcode :=
  (opTable.lookup code).getD .illegal

/-- A code that selects an arm other than `default` is that arm's label. -/
theorem mem_opTable_of_decode {code : BitVec 16} {op : Opcode}
    (h : decode code = op) (hne : op ≠ .illegal) : (code, op) ∈ opTable := by
  unfold decode at h
  cases hl : opTable.lookup code with
  | none => rw [hl] at h; exact absurd h.symm hne
  | some op' =>
    rw [hl] at h
    obtain rfl : op' = op := h
    obtain ⟨l₁, l₂, hsplit, -⟩ := List.lookup_eq_some_iff.mp hl
    rw [hsplit]
    simp

/-- `struct bpf_insn`. -/
structure BpfInsn where
  code : BitVec 16
  jt : BitVec 8
  jf : BitVec 8
  k : BitVec 32
  deriving DecidableEq

variable (i : BpfInsn)

/-! ## Packets -/

/-- One mbuf, as far as `bpf_filter` reads it: its length and the memory from
`mtod(m)` on.  Only offsets below `mLen` hold packet data; the others are
whatever surrounds the data area. -/
structure Mb where
  mLen : ℕ
  mtod : ℤ → BitVec 8

/-- The packet argument `p`, with the `buflen` it is passed with: a buffer of
`buflen` bytes, or an mbuf chain, which is passed with `buflen = 0`. -/
inductive Packet where
  | buf (p : ℤ → BitVec 8) (buflen : BitVec 32)
  | chain (m : Mb) (mNext : List Mb)

def Packet.buflen : Packet → BitVec 32
  | .buf _ n => n
  | .chain _ _ => 0

/-- `EXTRACT_SHORT`. -/
def extractShort (p : ℤ → BitVec 8) (i : ℤ) : BitVec 32 :=
  (p i ++ p (i + 1)).setWidth 32

/-- `EXTRACT_LONG`. -/
def extractLong (p : ℤ → BitVec 8) (i : ℤ) : BitVec 32 :=
  p i ++ p (i + 1) ++ p (i + 2) ++ p (i + 3)

/-- The walk of `MINDEX`, `m_xword` and `m_xhalf`: follow `m_next` until the
offset falls inside an mbuf.  `none` is the end of the chain. -/
def mindex (m : Mb) (mNext : List Mb) (k : ℤ) : Option (Mb × List Mb × ℤ) :=
  if k ≥ m.mLen then
    match mNext with
    | [] => none
    | m' :: rest => mindex m' rest (k - m.mLen)
  else some (m, mNext, k)

/-- `m_xword`; `none` is `*err = 1`.  In the two-mbuf case the C code has
already added `k` to `cp` when it indexes `cp` with `k` again. -/
def mXword (m : Mb) (mNext : List Mb) (k : ℤ) : Option (BitVec 32) :=
  match mindex m mNext k with
  | none => none
  | some (m, rest, k) =>
    let cp := fun i => m.mtod (k + i)
    if m.mLen - k ≥ 4 then some (extractLong cp 0)
    else match rest with
      | [] => none
      | m0 :: _ =>
        if m0.mLen + m.mLen - k < 4 then none
        else
          let np := m0.mtod
          if m.mLen - k = 1 then some (cp k ++ np 0 ++ np 1 ++ np 2)
          else if m.mLen - k = 2 then some (cp k ++ cp (k + 1) ++ np 0 ++ np 1)
          else some (cp k ++ cp (k + 1) ++ cp (k + 2) ++ np 0)

/-- `m_xhalf`; `none` is `*err = 1`.  The second mbuf is read without a look at
its length. -/
def mXhalf (m : Mb) (mNext : List Mb) (k : ℤ) : Option (BitVec 32) :=
  match mindex m mNext k with
  | none => none
  | some (m, rest, k) =>
    let cp := fun i => m.mtod (k + i)
    if m.mLen - k ≥ 2 then some (extractShort cp 0)
    else match rest with
      | [] => none
      | m0 :: _ => some ((cp k ++ m0.mtod 0).setWidth 32)

/-- What a packet load does: it yields a word, it makes the filter return 0, or
it follows a pointer that is not what the code takes it for. -/
inductive Load where
  | value (v : BitVec 32)
  | reject
  | wild
  deriving DecidableEq

/-- The two-way branch all packet loads share.  `past` is the bounds test
against `buflen`; past it, `buflen != 0` returns 0 and `buflen == 0` takes the
packet for an mbuf chain. -/
def loadFrom (pkt : Packet) (past : Bool) (flat : (ℤ → BitVec 8) → BitVec 32)
    (inChain : Mb → List Mb → Load) : Load :=
  if past then
    if pkt.buflen ≠ 0 then .reject
    else match pkt with
      | .chain m rest => inChain m rest
      | .buf _ _ => .wild
  else match pkt with
    | .buf p _ => .value (flat p)
    | .chain _ _ => .wild

/-- `BPF_LD|BPF_W|BPF_ABS` and `BPF_LD|BPF_W|BPF_IND`. -/
def loadWord (pkt : Packet) (k : BitVec 32) : Load :=
  loadFrom pkt (k + 4 > pkt.buflen) (extractLong · k.toInt) fun m rest =>
    match mXword m rest k.toInt with
    | some v => .value v
    | none => .reject

/-- The half-word loads.  `onErr` is what follows `merr != 0`. -/
def loadHalf (onErr : Load) (pkt : Packet) (k : BitVec 32) : Load :=
  loadFrom pkt (k + 2 > pkt.buflen) (extractShort · k.toInt) fun m rest =>
    match mXhalf m rest k.toInt with
    | some v => .value v
    | none => onErr

/-- The byte loads.  `uChar` is what becomes of a byte read from a buffer and
`char` what becomes of one read from an mbuf. -/
def loadByte (uChar char : BitVec 8 → BitVec 32) (pkt : Packet) (k : BitVec 32) : Load :=
  loadFrom pkt (k ≥ pkt.buflen) (fun p => uChar (p k.toInt)) fun m rest =>
    match mindex m rest k.toInt with
    | some (m, _, k) => .value (char (m.mtod k))
    | none => .reject

/-- `BPF_LD|BPF_H|BPF_ABS`: `m_xhalf` returns 0 on an error that is not looked
at. -/
def loadHalfAbs : Packet → BitVec 32 → Load := loadHalf (.value 0)

/-- `BPF_LD|BPF_H|BPF_IND`. -/
def loadHalfInd : Packet → BitVec 32 → Load := loadHalf .reject

/-- `BPF_LD|BPF_B|BPF_ABS`: the mbuf byte is read as `u_char`. -/
def loadByteAbs : Packet → BitVec 32 → Load :=
  loadByte (·.setWidth 32) (·.setWidth 32)

/-- `BPF_LD|BPF_B|BPF_IND`: the mbuf byte is read as `char`, which is signed. -/
def loadByteInd : Packet → BitVec 32 → Load :=
  loadByte (·.setWidth 32) (·.signExtend 32)

/-- `(b & 0xf) << 2`, the IP header length idiom. -/
def msh (b : BitVec 32) : BitVec 32 := (b &&& 0xf) <<< 2

/-- `BPF_LDX|BPF_MSH|BPF_B`: read as `char` too, which `& 0xf` undoes. -/
def loadByteMsh : Packet → BitVec 32 → Load :=
  loadByte (fun b => msh (b.setWidth 32)) (fun b => msh (b.signExtend 32))

/-! ## The interpreter -/

/-- The registers of `bpf_filter`.  `pc` is the index of the instruction about
to be executed. -/
structure BpfState where
  pc : ℤ
  A : BitVec 32
  X : BitVec 32
  mem : Fin BPF_MEMWORDS → BitVec 32

variable (s : BpfState)

/-- Where the interpreter leaves the defined behaviour of C. -/
inductive Fault where
  /-- fetched an instruction outside the program -/
  | pc
  /-- indexed `mem` outside `[0, BPF_MEMWORDS)` -/
  | mem
  /-- divided by zero -/
  | div
  /-- took a buffer for an mbuf, or an mbuf for a buffer -/
  | packet
  deriving DecidableEq

/-- Outcome of one instruction; a result is the `u_int` the filter returns. -/
abbrev BpfTurn := Turn BpfState (BitVec 32) Fault

def JmpOp.test : JmpOp → BitVec 32 → BitVec 32 → Bool
  | .jeq, a, b => a == b
  | .jgt, a, b => decide (b < a)
  | .jge, a, b => decide (b ≤ a)
  | .jset, a, b => a &&& b != 0

/-- The result of `A op= b`.  Division is on unsigned words. -/
def AluOp.eval : AluOp → BitVec 32 → BitVec 32 → BitVec 32
  | .add, a, b => a + b
  | .sub, a, b => a - b
  | .mul, a, b => a * b
  | .div, a, b => a / b
  | .or, a, b => a ||| b
  | .and, a, b => a &&& b
  | .lsh, a, b => a <<< b.toNat
  | .rsh, a, b => a >>> b.toNat

/-- The word `mem[k]` names, if it is one of the array's. -/
def memSlot (k : BitVec 32) : Option (Fin BPF_MEMWORDS) :=
  if h : 0 ≤ k.toInt ∧ k.toInt < BPF_MEMWORDS then
    some ⟨k.toInt.toNat, by omega⟩
  else none

/-- The instruction at index `pc`, when there is one. -/
def fetch (f : List BpfInsn) (pc : ℤ) : Option BpfInsn :=
  if 0 ≤ pc then f[pc.toNat]? else none

namespace BpfState

/-- `continue`: the next instruction is the following one. -/
def advance : BpfState := { s with pc := s.pc + 1 }

/-- `pc += d; continue`. -/
def jump (d : ℤ) : BpfState := { s with pc := s.pc + 1 + d }

def setA (v : BitVec 32) : BpfState := { s with A := v }

def setX (v : BitVec 32) : BpfState := { s with X := v }

def setMem (i : Fin BPF_MEMWORDS) (v : BitVec 32) : BpfState :=
  { s with mem := Function.update s.mem i v }

variable (s : BpfState)

@[simp] theorem advance_pc : s.advance.pc = s.pc + 1 := rfl
@[simp] theorem jump_pc (d : ℤ) : (s.jump d).pc = s.pc + 1 + d := rfl
@[simp] theorem setA_pc (v : BitVec 32) : (s.setA v).pc = s.pc := rfl
@[simp] theorem setX_pc (v : BitVec 32) : (s.setX v).pc = s.pc := rfl
@[simp] theorem setMem_pc (i : Fin BPF_MEMWORDS) (v : BitVec 32) : (s.setMem i v).pc = s.pc := rfl

end BpfState

/-- Finish a packet load: `set` stores the word, then `continue`. -/
def afterLoad (l : Load) (set : BitVec 32 → BpfState) : BpfTurn :=
  match l with
  | .value v => .next (set v).advance
  | .reject => .done 0
  | .wild => .fault .packet

/-- Finish an access to `mem[k]`. -/
def withMem (k : BitVec 32) (go : Fin BPF_MEMWORDS → BpfState) : BpfTurn :=
  match memSlot k with
  | some i => .next (go i).advance
  | none => .fault .mem

/-- The second operand `pc->k` or `X`. -/
def Src.operand (src : Src) (i : BpfInsn) (s : BpfState) : BitVec 32 :=
  match src with
  | .K => i.k
  | .X => s.X

/-- One arm of the `switch`. -/
def exec (pkt : Packet) (wirelen : BitVec 32) (i : BpfInsn) (s : BpfState) : BpfTurn :=
  match decode i.code with
  | .illegal => .done 0
  | .retK => .done i.k
  | .retA => .done s.A
  | .ldAbs .W => afterLoad (loadWord pkt i.k) s.setA
  | .ldAbs .H => afterLoad (loadHalfAbs pkt i.k) s.setA
  | .ldAbs .B => afterLoad (loadByteAbs pkt i.k) s.setA
  | .ldLen => .next (s.setA wirelen).advance
  | .ldxLen => .next (s.setX wirelen).advance
  | .ldInd .W => afterLoad (loadWord pkt (s.X + i.k)) s.setA
  | .ldInd .H => afterLoad (loadHalfInd pkt (s.X + i.k)) s.setA
  | .ldInd .B => afterLoad (loadByteInd pkt (s.X + i.k)) s.setA
  | .ldxMsh => afterLoad (loadByteMsh pkt i.k) s.setX
  | .ldImm => .next (s.setA i.k).advance
  | .ldxImm => .next (s.setX i.k).advance
  | .ldMem => withMem i.k fun j => s.setA (s.mem j)
  | .ldxMem => withMem i.k fun j => s.setX (s.mem j)
  | .st => withMem i.k fun j => s.setMem j s.A
  | .stx => withMem i.k fun j => s.setMem j s.X
  | .ja => .next (s.jump i.k.toInt)
  | .jmp op src =>
    .next (s.jump (if op.test s.A (src.operand i s) then i.jt.toNat else i.jf.toNat))
  -- division by `X` returns 0 when `X` is 0; division by `k` has no such test
  | .alu .div .X => if s.X = 0 then .done 0 else .next (s.setA (s.A / s.X)).advance
  | .alu .div .K =>
    if i.k = 0 then .fault .div else .next (s.setA (s.A / i.k)).advance
  | .alu op src => .next (s.setA (op.eval s.A (src.operand i s))).advance
  | .neg => .next (s.setA (-s.A)).advance
  | .tax => .next (s.setX s.A).advance
  | .txa => .next (s.setA s.X).advance

/-- One turn of the interpreter's loop. -/
def step (f : List BpfInsn) (pkt : Packet) (wirelen : BitVec 32) (s : BpfState) :
    BpfTurn :=
  match fetch f s.pc with
  | none => .fault .pc
  | some i => exec pkt wirelen i s

/-- The state in which the first instruction is executed; `A`, `X` and `mem`
hold whatever the stack held. -/
def start (A X : BitVec 32) (mem : Fin BPF_MEMWORDS → BitVec 32) : BpfState :=
  { pc := 0, A := A, X := X, mem := mem }

/-- `bpf_filter`, cut off after `fuel` instructions.  No filter means accept
all. -/
def bpfFilter (fuel : ℕ) (pc : Option (List BpfInsn)) (pkt : Packet)
    (wirelen : BitVec 32) (s : BpfState) : BpfTurn :=
  match pc with
  | none => .done (-1)
  | some f => runFor (step f pkt wirelen) fuel s

/-! ## What one instruction can do -/

variable {go : Fin BPF_MEMWORDS → BpfState} {k : BitVec 32} {t : BpfState}

theorem fetch_eq_some {f : List BpfInsn} {pc : ℤ} {i : BpfInsn}
    (h : fetch f pc = some i) : 0 ≤ pc ∧ pc < f.length ∧ i ∈ f := by
  unfold fetch at h
  split at h
  · rename_i h0
    obtain ⟨hlt, hget⟩ := List.getElem?_eq_some_iff.mp h
    exact ⟨h0, by omega, hget ▸ List.getElem_mem hlt⟩
  · cases h

theorem fetch_isSome {f : List BpfInsn} {pc : ℤ} (h0 : 0 ≤ pc) (h1 : pc < f.length) :
    ∃ i, fetch f pc = some i ∧ f[pc.toNat]? = some i := by
  have hlt : pc.toNat < f.length := by omega
  exact ⟨f[pc.toNat], by simp [fetch, h0, hlt], by simp [hlt]⟩

theorem memSlot_eq_none_iff : memSlot k = none ↔ ¬ (0 ≤ k.toInt ∧ k.toInt < BPF_MEMWORDS) := by
  unfold memSlot
  split <;> simp_all

theorem afterLoad_eq_next {l : Load} {set : BitVec 32 → BpfState}
    (h : afterLoad l set = .next t) : ∃ v, l = .value v ∧ t = (set v).advance := by
  cases l with
  | value v => exact ⟨v, rfl, by simpa [afterLoad] using h.symm⟩
  | reject => cases h
  | wild => cases h

theorem afterLoad_eq_fault_iff {l : Load} {set : BitVec 32 → BpfState} :
    (∃ e, afterLoad l set = .fault e) ↔ l = .wild := by
  cases l <;> simp [afterLoad]

theorem withMem_eq_next (h : withMem k go = .next t) : ∃ j, t = (go j).advance := by
  unfold withMem at h
  cases hk : memSlot k with
  | none => rw [hk] at h; cases h
  | some j => rw [hk] at h; exact ⟨j, by simpa using h.symm⟩

theorem withMem_eq_fault_iff :
    (∃ e, withMem k go = .fault e) ↔ ¬ (0 ≤ k.toInt ∧ k.toInt < BPF_MEMWORDS) := by
  rw [← memSlot_eq_none_iff]
  unfold withMem
  cases memSlot k <;> simp

/-- The displacement an instruction adds to the program counter, when it is
executed in state `s` and the loop goes on. -/
def displacement : ℤ :=
  match decode i.code with
  | .ja => i.k.toInt
  | .jmp op src => if op.test s.A (src.operand i s) then i.jt.toNat else i.jf.toNat
  | _ => 0

/-- The index an instruction uses into `mem[]`, if it uses one. -/
def memIndex : Option ℤ :=
  match decode i.code with
  | .ldMem | .ldxMem | .st | .stx => some i.k.toInt
  | _ => none

/-- The divisor of the division an instruction carries out, if it carries one
out. -/
def divisor : Option (BitVec 32) :=
  match decode i.code with
  | .alu .div .K => some i.k
  | .alu .div .X => if s.X = 0 then none else some s.X
  | _ => none

/-- The packet load an instruction makes, if it makes one. -/
def packetLoad (pkt : Packet) (i : BpfInsn) (s : BpfState) : Option Load :=
  match decode i.code with
  | .ldAbs .W => some (loadWord pkt i.k)
  | .ldAbs .H => some (loadHalfAbs pkt i.k)
  | .ldAbs .B => some (loadByteAbs pkt i.k)
  | .ldInd .W => some (loadWord pkt (s.X + i.k))
  | .ldInd .H => some (loadHalfInd pkt (s.X + i.k))
  | .ldInd .B => some (loadByteInd pkt (s.X + i.k))
  | .ldxMsh => some (loadByteMsh pkt i.k)
  | _ => none

/-- **Where the program counter goes.**  Every arm that continues moves it to
the following instruction, plus the displacement of the jump it is. -/
theorem exec_next_pc {pkt : Packet} {wirelen : BitVec 32} {i : BpfInsn} {s t : BpfState}
    (h : exec pkt wirelen i s = .next t) : t.pc = s.pc + 1 + displacement i s := by
  cases hop : decode i.code with
  | ja => simp only [exec, hop] at h; cases h; simp [displacement, hop]
  | jmp op src => simp only [exec, hop] at h; cases h; simp [displacement, hop]
  | ldAbs size | ldInd size =>
    cases size <;> simp only [exec, hop] at h <;>
      obtain ⟨v, -, rfl⟩ := afterLoad_eq_next h <;> simp [displacement, hop]
  | ldxMsh =>
    simp only [exec, hop] at h
    obtain ⟨v, -, rfl⟩ := afterLoad_eq_next h
    simp [displacement, hop]
  | ldMem | ldxMem | st | stx =>
    simp only [exec, hop] at h
    obtain ⟨j, rfl⟩ := withMem_eq_next h
    simp [displacement, hop]
  | alu op src =>
    -- only the two divisions have a branch that does not continue
    have ht : ∃ v, t = (s.setA v).advance := by
      cases op <;> cases src <;> simp only [exec, hop] at h
      case div.X | div.K => split at h <;> cases h; exact ⟨_, rfl⟩
      all_goals cases h; exact ⟨_, rfl⟩
    obtain ⟨v, rfl⟩ := ht
    simp [displacement, hop]
  | retK | retA | illegal => simp [exec, hop] at h
  | _ => simp only [exec, hop] at h; cases h; simp [displacement, hop]

/-- **When an instruction faults**: exactly when it misreads the packet
argument, indexes `mem[]` outside its bounds, or divides by zero. -/
theorem exec_fault_iff {pkt : Packet} {wirelen : BitVec 32} {i : BpfInsn} {s : BpfState} :
    (∃ e, exec pkt wirelen i s = .fault e) ↔
      packetLoad pkt i s = some .wild ∨
      (∃ k, memIndex i = some k ∧ ¬ (0 ≤ k ∧ k < BPF_MEMWORDS)) ∨
      divisor i s = some 0 := by
  cases hop : decode i.code with
  | ldAbs size | ldInd size =>
    cases size <;>
      simp [exec, hop, packetLoad, memIndex, divisor, afterLoad_eq_fault_iff]
  | ldxMsh => simp [exec, hop, packetLoad, memIndex, divisor, afterLoad_eq_fault_iff]
  | ldMem | ldxMem | st | stx =>
    simp only [exec, hop, packetLoad, memIndex, divisor, withMem_eq_fault_iff]
    simp
  | alu op src =>
    cases op <;> cases src <;>
      simp only [exec, hop, packetLoad, memIndex, divisor] <;> try simp
    case div.K | div.X => split <;> simp_all
  | _ => simp [exec, hop, packetLoad, memIndex, divisor]

end BSDLite2.Bpf
