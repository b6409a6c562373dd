import BSDLite2.Net.BpfFilter

/-!
# The filter validator (`bpf_validate`) and what it guarantees

The kernel runs a user's filter only after `bpf_validate` has accepted it.  The
validator is meant to make every run safe: jumps forward and inside the program,
scratch memory indexed inside `mem[]`, no division by zero, a return at the end.

Three of its tests fall short of that.

* A jump `BPF_JA` is tested only with `from + p->k >= len`, in 32-bit signed
  arithmetic.  A negative `k` passes, and so does a `k` large enough for the sum
  to wrap.
* `BPF_STX` is a class of its own (`0x03`), and the test for stores is
  `BPF_CLASS(p->code) == BPF_ST`.
* `BPF_LDX|BPF_MEM` is in class `BPF_LDX`, and the test for loads from `mem[]`
  asks for class `BPF_LD`.

`runs_safe_iff` and `runs_forward_iff` say what is left: on an accepted program
a run is safe, and is bounded by the program's length, exactly when it executes
none of the instructions those tests miss.  `reads_inside_iff` is about the bytes
of the packet, where the machine's own tests wrap around.
-/

namespace BSDLite2.Bpf

open Loop

variable {pkt : Packet}

/-! ## The validator -/

/-- A value of the sum of an `int` and a 32-bit displacement, as C computes it. -/
def addInt (a : ℤ) (d : BitVec 32) : ℤ := (BitVec.ofInt 32 a + d).toInt

/-- The tests on instruction `p` at index `i` of a program of `len`
instructions. -/
def insnOk (len i : ℤ) (p : BpfInsn) : Bool :=
  let fr := i + 1
  -- jumps are forward and within the code block
  (if bpfClass p.code = BPF_JMP then
    if bpfOp p.code = BPF_JA then decide (addInt fr p.k < len)
    else decide (addInt fr (p.jt.setWidth 32) < len) &&
      decide (addInt fr (p.jf.setWidth 32) < len)
  else true) &&
  -- memory operations use valid addresses
  (if bpfClass p.code = BPF_ST ∨
      (bpfClass p.code = BPF_LD ∧ p.code &&& 0xe0 = BPF_MEM) then
    decide (p.k.toInt < BPF_MEMWORDS) && decide (0 ≤ p.k.toInt)
  else true) &&
  -- no constant division by 0
  !(decide (p.code = BPF_ALU ||| BPF_DIV ||| BPF_K) && decide (p.k = 0))

/-- The validator's loop, from index `i` on. -/
def validateFrom (len : ℤ) : ℤ → List BpfInsn → Bool
  | _, [] => true
  | i, p :: rest => insnOk len i p && validateFrom len (i + 1) rest

/-- `bpf_validate(f, len)`, with `len` the number of instructions at `f`. -/
def bpfValidate (f : List BpfInsn) : Bool :=
  validateFrom f.length 0 f &&
    match f.getLast? with
    | some p => decide (bpfClass p.code = BPF_RET)
    | none => false

/-- A filter program as the kernel holds it: at least one instruction, and small
enough for its 8-byte instructions to lie in the address space. -/
structure Program where
  insns : List BpfInsn
  nonempty : insns ≠ []
  fits : insns.length < 2 ^ 29

variable {len : ℤ} {f : List BpfInsn}

theorem insnOk_of_validateFrom :
    ∀ {i : ℤ}, validateFrom len i f = true →
      ∀ {n : ℕ} {p : BpfInsn}, f[n]? = some p → insnOk len (i + n) p = true := by
  induction f with
  | nil => intro i _ n p hp; simp at hp
  | cons q rest ih =>
    intro i h n p hp
    rw [validateFrom, Bool.and_eq_true] at h
    cases n with
    | zero =>
      obtain rfl : q = p := by simpa using hp
      simpa using h.1
    | succ n =>
      have := ih h.2 (by simpa using hp)
      rwa [show i + ((n + 1 : ℕ) : ℤ) = i + 1 + n by push_cast; ring]

variable {i : BpfInsn} {pc : ℤ}

theorem insnOk_of_validate (hv : bpfValidate f = true) (hi : fetch f pc = some i) :
    insnOk f.length pc i = true := by
  obtain ⟨h0, h1, -⟩ := fetch_eq_some hi
  obtain ⟨j, hj, hget⟩ := fetch_isSome h0 h1
  obtain rfl : j = i := by simpa [hi] using hj.symm
  rw [bpfValidate, Bool.and_eq_true] at hv
  have := insnOk_of_validateFrom hv.1 hget
  rwa [show (0 : ℤ) + (pc.toNat : ℤ) = pc by omega] at this

/-! ## What acceptance says about each kind of instruction -/

/-- Where 32-bit addition does not wrap. -/
theorem addInt_eq {a : ℤ} {d : BitVec 32} (ha : 0 ≤ a) (ha' : a < 2 ^ 31)
    (h : a + d.toInt < 2 ^ 31) : addInt a d = a + d.toInt := by
  have hd := d.le_toInt
  have h2 : (BitVec.ofInt 32 a).toInt = a := by
    rw [BitVec.toInt_ofInt, Int.bmod_eq_of_le] <;> omega
  rw [addInt, BitVec.toInt_add, h2, Int.bmod_eq_of_le] <;> simp at ⊢ <;> omega

theorem toInt_setWidth_byte (b : BitVec 8) : (b.setWidth 32).toInt = b.toNat := by
  rw [BitVec.toInt_eq_toNat_of_lt] <;> simp <;> omega

variable {code : BitVec 16}

/-- Codes of conditional jumps: class `BPF_JMP`, operation not `BPF_JA`. -/
theorem class_of_jmp {op : JmpOp} {src : Src} (h : decode code = .jmp op src) :
    bpfClass code = BPF_JMP ∧ bpfOp code ≠ BPF_JA := by
  have htab : ∀ e ∈ opTable, (∃ op src, e.2 = .jmp op src) →
      bpfClass e.1 = BPF_JMP ∧ bpfOp e.1 ≠ BPF_JA := by
    intro e he
    fin_cases he <;> simp <;> decide
  exact htab _ (mem_opTable_of_decode h (by simp)) ⟨op, src, rfl⟩

/-- The single code of an arm that has one label. -/
theorem code_of_decode {c : BitVec 16} {op : Opcode} (h : decode code = op) (hne : op ≠ .illegal)
    (htab : ∀ e ∈ opTable, e.2 = op → e.1 = c) : code = c :=
  htab _ (mem_opTable_of_decode h hne) rfl

theorem code_of_ja (h : decode code = .ja) : code = BPF_JMP ||| BPF_JA :=
  code_of_decode h (by simp) (by decide)

theorem code_of_st (h : decode code = .st) : code = BPF_ST :=
  code_of_decode h (by simp) (by decide)

theorem code_of_ldMem (h : decode code = .ldMem) : code = BPF_LD ||| BPF_MEM :=
  code_of_decode h (by simp) (by decide)

theorem code_of_divK (h : decode code = .alu .div .K) : code = BPF_ALU ||| BPF_DIV ||| BPF_K :=
  code_of_decode h (by simp) (by decide)

section

variable (h : insnOk len pc i = true)

include h

/-- The tests that concern jumps. -/
theorem jump_test (hc : bpfClass i.code = BPF_JMP) :
    if bpfOp i.code = BPF_JA then addInt (pc + 1) i.k < len
    else addInt (pc + 1) (i.jt.setWidth 32) < len ∧
      addInt (pc + 1) (i.jf.setWidth 32) < len := by
  simp only [insnOk, hc, if_true, Bool.and_eq_true] at h
  have h := h.1.1
  split at h <;> rename_i hop <;> simpa [hop] using h

/-- An accepted conditional jump lands inside the program. -/
theorem cond_target {op : JmpOp} {src : Src} (hop : decode i.code = .jmp op src) (h0 : 0 ≤ pc)
    (h1 : pc < 2 ^ 29) : pc + 1 + i.jt.toNat < len ∧ pc + 1 + i.jf.toNat < len := by
  obtain ⟨hc, hja⟩ := class_of_jmp hop
  have ht := jump_test h hc
  rw [if_neg hja] at ht
  have e1 := toInt_setWidth_byte i.jt
  have e2 := toInt_setWidth_byte i.jf
  rw [addInt_eq (by omega) (by omega) (by omega),
    addInt_eq (by omega) (by omega) (by omega), e1, e2] at ht
  exact ht

/-- An accepted `BPF_JA` lands before the program's end, provided that the sum
the validator computed did not wrap. -/
theorem ja_target (hop : decode i.code = .ja) (h0 : 0 ≤ pc) (h1 : pc < 2 ^ 29)
    (hw : pc + 1 + i.k.toInt < 2 ^ 31) : pc + 1 + i.k.toInt < len := by
  have hcode := code_of_ja hop
  have ht := jump_test h (by rw [hcode]; decide)
  rw [if_pos (by rw [hcode]; decide), addInt_eq (by omega) (by omega) hw] at ht
  exact ht

/-- An accepted `BPF_ST` or `BPF_LD|BPF_MEM` indexes `mem[]` inside its bounds. -/
theorem mem_test (hop : decode i.code = .st ∨ decode i.code = .ldMem) :
    0 ≤ i.k.toInt ∧ i.k.toInt < BPF_MEMWORDS := by
  have hcls : bpfClass i.code = BPF_ST ∨
      (bpfClass i.code = BPF_LD ∧ i.code &&& 0xe0 = BPF_MEM) := by
    rcases hop with hop | hop
    · left; rw [code_of_st hop]; decide
    · right; rw [code_of_ldMem hop]; decide
  simp only [insnOk, if_pos hcls, Bool.and_eq_true, decide_eq_true_eq] at h
  exact ⟨h.1.2.2, h.1.2.1⟩

/-- An accepted program carries out no division by the constant 0. -/
theorem div_test (hop : decode i.code = .alu .div .K) : i.k ≠ 0 := by
  intro hk
  simp [insnOk, code_of_divK hop, hk] at h

end

variable {s : BpfState}

/-- Instructions of class `BPF_RET` never continue. -/
theorem exec_ne_next_of_class_ret {wirelen : BitVec 32} {t : BpfState}
    (hc : bpfClass i.code = BPF_RET) : exec pkt wirelen i s ≠ .next t := by
  have htab : ∀ e ∈ opTable, bpfClass e.1 = BPF_RET → e.2 = .retK ∨ e.2 = .retA := by
    decide
  have hop : decode i.code = .illegal ∨ decode i.code = .retK ∨
      decode i.code = .retA := by
    by_cases hill : decode i.code = .illegal
    · exact .inl hill
    · exact .inr (htab _ (mem_opTable_of_decode rfl hill) hc)
  rcases hop with hop | hop | hop <;> simp [exec, hop]

/-- The last instruction of an accepted program never continues. -/
theorem not_last_of_next (hv : bpfValidate f = true) {wirelen : BitVec 32} {t : BpfState}
    (hi : fetch f s.pc = some i) (h : exec pkt wirelen i s = .next t) : s.pc + 1 < f.length := by
  obtain ⟨h0, h1, -⟩ := fetch_eq_some hi
  by_contra hlast
  rw [bpfValidate, Bool.and_eq_true] at hv
  have hget : f.getLast? = some i := by
    rw [List.getLast?_eq_getElem?]
    obtain ⟨j, hj, hget⟩ := fetch_isSome h0 h1
    obtain rfl : j = i := by simpa [hi] using hj.symm
    rwa [show f.length - 1 = s.pc.toNat by omega]
  have hc := hv.2
  rw [hget] at hc
  exact exec_ne_next_of_class_ret (of_decide_eq_true hc) h

/-! ## Safety of runs -/

/-- **Safety of one state**: the program counter is inside the program, and the
instruction there indexes `mem[]` inside its bounds and does not divide by
zero. -/
structure Safe (f : List BpfInsn) (s : BpfState) : Prop where
  pc : 0 ≤ s.pc ∧ s.pc < f.length
  mem : ∀ i, fetch f s.pc = some i → ∀ k, memIndex i = some k →
    0 ≤ k ∧ k < BPF_MEMWORDS
  div : ∀ i, fetch f s.pc = some i → divisor i s ≠ some 0

/-- **What the validator misses**, for the instruction `i` at index `pc`: a
`BPF_JA` whose target is before the program or past what an `int` holds, and a
`BPF_LDX|BPF_MEM` or `BPF_STX` outside `mem[]`. -/
structure WithinBounds (pc : ℤ) (i : BpfInsn) : Prop where
  ja : decode i.code = .ja → 0 ≤ pc + 1 + i.k.toInt ∧ pc + 1 + i.k.toInt < 2 ^ 31
  mem : decode i.code = .ldxMem ∨ decode i.code = .stx →
    0 ≤ i.k.toInt ∧ i.k.toInt < BPF_MEMWORDS

section Runs

variable {f : Program} (hv : bpfValidate f.insns = true) {pkt : Packet}
  {wirelen : BitVec 32}

include hv

/-- Scratch accesses of an accepted program, with what the validator misses
supplied. -/
theorem memIndex_ok (hi : fetch f.insns pc = some i)
    (hmem : decode i.code = .ldxMem ∨ decode i.code = .stx →
      0 ≤ i.k.toInt ∧ i.k.toInt < BPF_MEMWORDS) {k : ℤ} (hk : memIndex i = some k) :
    0 ≤ k ∧ k < BPF_MEMWORDS := by
  have hok := insnOk_of_validate hv hi
  cases hop : decode i.code <;>
    simp only [memIndex, hop, Option.some.injEq, reduceCtorEq] at hk <;> subst hk
  case ldMem => exact mem_test hok (.inr hop)
  case ldxMem => exact hmem (.inl hop)
  case st => exact mem_test hok (.inl hop)
  case stx => exact hmem (.inr hop)

/-- No instruction of an accepted program divides by zero. -/
theorem divisor_ne_zero (hi : fetch f.insns s.pc = some i) : divisor i s ≠ some 0 := by
  have hok := insnOk_of_validate hv hi
  intro hd
  cases hop : decode i.code with
  | alu op src =>
    cases op <;> cases src <;> simp only [divisor, hop, reduceCtorEq] at hd
    case div.K => exact div_test hok hop (by simpa using hd)
    case div.X => split at hd <;> simp_all
  | _ => simp [divisor, hop] at hd

/-- **The step lemma.**  From inside an accepted program, an instruction that is
not one of those the validator misses leads inside the program. -/
theorem next_pc_inside {s t : BpfState} (hi : fetch f.insns s.pc = some i)
    (hja : decode i.code = .ja →
      0 ≤ s.pc + 1 + i.k.toInt ∧ s.pc + 1 + i.k.toInt < 2 ^ 31)
    (h : exec pkt wirelen i s = .next t) : 0 ≤ t.pc ∧ t.pc < f.insns.length := by
  obtain ⟨h0, h1, -⟩ := fetch_eq_some hi
  have hok := insnOk_of_validate hv hi
  have hfits := f.fits
  have hlast := not_last_of_next hv hi h
  rw [exec_next_pc h]
  cases hop : decode i.code with
  | ja =>
    simp only [displacement, hop]
    exact ⟨(hja hop).1, ja_target hok hop h0 (by omega) (hja hop).2⟩
  | jmp op src =>
    obtain ⟨ht, hf⟩ := cond_target hok hop h0 (by omega)
    simp only [displacement, hop]
    split <;> constructor <;> omega
  | _ =>
    simp only [displacement, hop]
    exact ⟨by omega, by omega⟩

/-- **The run lemma**: a run whose instructions are not those stays inside the program. -/
theorem reaches_inside {A X : BitVec 32} {mem : Fin BPF_MEMWORDS → BitVec 32}
    (hja : ∀ s i, Reaches (step f.insns pkt wirelen) (start A X mem) s →
      fetch f.insns s.pc = some i → 0 ≤ s.pc → decode i.code = .ja →
        0 ≤ s.pc + 1 + i.k.toInt ∧ s.pc + 1 + i.k.toInt < 2 ^ 31) :
    ∀ s, Reaches (step f.insns pkt wirelen) (start A X mem) s →
      0 ≤ s.pc ∧ s.pc < f.insns.length := by
  have hpos : 0 < f.insns.length := List.length_pos_of_ne_nil f.nonempty
  refine Reaches.invariant ⟨le_rfl, by simpa [start] using hpos⟩ ?_
  intro s t hs hin hst
  obtain ⟨i, hi, -⟩ := fetch_isSome hin.1 hin.2
  simp only [step, hi] at hst
  exact next_pc_inside hv hi (hja s i hs hi hin.1) hst

theorem safe_of_withinBounds (hpc : 0 ≤ s.pc ∧ s.pc < f.insns.length)
    (hw : ∀ i, fetch f.insns s.pc = some i → WithinBounds s.pc i) : Safe f.insns s where
  pc := hpc
  mem := fun i hi _ hk => memIndex_ok hv hi (hw i hi).mem hk
  div := fun _ hi => divisor_ne_zero hv hi

end Runs

/-- `BPF_RET|BPF_K` with value `k`. -/
def retInsn (k : BitVec 32) : BpfInsn := ⟨BPF_RET ||| BPF_K, 0, 0, k⟩

/-- A two-instruction program: one instruction of the given code and operand,
then `ret #0`. -/
def thenRet (code : BitVec 16) (k : BitVec 32) : List BpfInsn :=
  [⟨code, 0, 0, k⟩, retInsn 0]

/-- `ldi #7; st M[3]; ldx #1; ret A`: accepted, and safe by the theorem. -/
def storeProgram : Program where
  insns := [⟨BPF_LD ||| BPF_IMM, 0, 0, 7⟩, ⟨BPF_ST, 0, 0, 3⟩,
    ⟨BPF_LDX ||| BPF_IMM, 0, 0, 1⟩, ⟨BPF_RET ||| BPF_A, 0, 0, 0⟩]
  nonempty := by simp
  fits := by decide

/-- The packet load of an instruction: its width, and the offset it loads from. -/
def loadAt (i : BpfInsn) (s : BpfState) : Option (Size × BitVec 32) :=
  match decode i.code with
  | .ldAbs size => some (size, i.k)
  | .ldInd size => some (size, s.X + i.k)
  | .ldxMsh => some (.B, i.k)
  | _ => none

/-- The number of bytes of a load. -/
def Size.bytes : Size → ℕ
  | .W => 4
  | .H => 2
  | .B => 1

/-- The test that a load makes against `buflen`. -/
def Size.past (size : Size) (buflen k : BitVec 32) : Bool :=
  match size with
  | .W => k + 4 > buflen
  | .H => k + 2 > buflen
  | .B => k ≥ buflen

/-- The indices of the bytes that an instruction reads from a buffer. -/
def bytesRead (buflen : BitVec 32) (i : BpfInsn) (s : BpfState) : List ℤ :=
  match loadAt i s with
  | some (size, k) =>
    if size.past buflen k then [] else (List.range size.bytes).map fun j : ℕ => k.toInt + j
  | none => []

/-- **A load stays inside the buffer**: it does not take the buffer for an mbuf, and the bytes it
reads are bytes of the buffer. -/
def Inside (p : ℤ → BitVec 8) (buflen : BitVec 32) (i : BpfInsn) (s : BpfState) : Prop :=
  packetLoad (.buf p buflen) i s ≠ some .wild ∧
    ∀ j ∈ bytesRead buflen i s, 0 ≤ j ∧ j < buflen.toNat

/-- A negative offset slips through the test: there are `2 ^ 31` bytes and more in the buffer, or
the sum of a word's or half-word's offset and width wraps around. -/
def Slips (size : Size) (buflen k : BitVec 32) : Prop :=
  2 ^ 31 ≤ k.toNat ∧ (k.toNat + size.bytes ≤ buflen.toNat ∨
    size ≠ .B ∧ 2 ^ 32 ≤ k.toNat + size.bytes ∧ k.toNat + size.bytes ≤ 2 ^ 32 + buflen.toNat)

section Bytes

variable {p q : ℤ → BitVec 8} {buflen k : BitVec 32} {size : Size}

/-- A load makes its test and reads the bytes from its offset on. -/
theorem packetLoad_eq (h : loadAt i s = some (size, k)) : ∃ flat : (ℤ → BitVec 8) → BitVec 32,
    (∀ p buflen, packetLoad (.buf p buflen) i s =
      some (if size.past buflen k then if buflen ≠ 0 then .reject else .wild
        else .value (flat p))) ∧
      ∀ p q : ℤ → BitVec 8, (∀ j ∈ List.range size.bytes, p (k.toInt + j) = q (k.toInt + j)) →
        flat p = flat q := by
  cases hop : decode i.code <;>
    simp only [loadAt, hop, Option.some.injEq, Prod.mk.injEq, reduceCtorEq] at h <;>
    obtain ⟨rfl, hk⟩ := h
  case ldxMsh =>
    simp only [packetLoad, hop, hk]
    refine ⟨_, fun _ _ => rfl, fun p q same => ?_⟩
    rw [show p k.toInt = q k.toInt by simpa [Size.bytes] using same]
  case ldAbs size | ldInd size =>
    cases size <;> simp only [packetLoad, hop, hk] <;>
      refine ⟨_, fun _ _ => rfl, fun p q same => ?_⟩ <;>
      simp only [Size.bytes, List.range_succ, List.range_zero] at same <;>
      simp_all [extractLong, extractShort]

theorem packetLoad_eq_none (pkt : Packet) (h : loadAt i s = none) : packetLoad pkt i s = none := by
  cases hop : decode i.code <;> simp_all [loadAt, packetLoad]

/-- What a load yields depends on the bytes that it reads, and on no others. -/
theorem packetLoad_congr (same : ∀ j ∈ bytesRead buflen i s, p j = q j) :
    packetLoad (.buf p buflen) i s = packetLoad (.buf q buflen) i s := by
  cases hload : loadAt i s with
  | none => rw [packetLoad_eq_none _ hload, packetLoad_eq_none _ hload]
  | some r =>
    obtain ⟨flat, eq, depends⟩ := packetLoad_eq hload
    rw [eq, eq]
    simp only [bytesRead, hload] at same
    split_ifs at same ⊢ with past
    · rfl
    · rfl
    · rw [depends p q fun j hj => same _ (List.mem_map_of_mem hj)]

/-- What the test lets through. -/
theorem past_eq_false_iff : size.past buflen k = false ↔ k.toNat + size.bytes ≤ buflen.toNat ∨
    size ≠ .B ∧ 2 ^ 32 ≤ k.toNat + size.bytes ∧
      k.toNat + size.bytes ≤ 2 ^ 32 + buflen.toNat := by
  cases size <;> simp [Size.past, Size.bytes, BitVec.lt_def, BitVec.le_def] <;> omega

theorem inside_iff : Inside p buflen i s ↔ ∀ size k, loadAt i s = some (size, k) →
    buflen ≠ 0 ∧ ¬ Slips size buflen k := by
  cases hload : loadAt i s with
  | none => simp [Inside, bytesRead, hload, packetLoad_eq_none _ hload]
  | some r =>
    obtain ⟨size, k⟩ := r
    obtain ⟨flat, eq, -⟩ := packetLoad_eq hload
    have one : (∀ size' k', some (size, k) = some (size', k') → buflen ≠ 0 ∧
        ¬ Slips size' buflen k') ↔ buflen ≠ 0 ∧ ¬ Slips size buflen k := by simp
    rw [one, Inside, eq]
    simp only [bytesRead, hload, Slips, ← past_eq_false_iff]
    cases hpast : size.past buflen k with
    | true => by_cases empty : buflen = 0 <;> simp [empty]
    | false =>
      have through := past_eq_false_iff.mp hpast
      have pos : 0 < size.bytes ∧ size.bytes ≤ 4 := by cases size <;> decide
      have hk := BitVec.toInt_eq_toNat_cond k
      have reads : (∀ j ∈ (List.range size.bytes).map fun j : ℕ => k.toInt + j,
          0 ≤ j ∧ j < buflen.toNat) ↔
          0 ≤ k.toInt ∧ k.toInt + size.bytes ≤ buflen.toNat := by
        simp only [List.forall_mem_map, List.mem_range]
        constructor
        · intro all
          have first := all 0 pos.1
          omega
        · intro _ j _
          omega
      have empty : buflen = 0 ↔ buflen.toNat = 0 := by simp [BitVec.toNat_eq]
      simp only [Bool.false_eq_true, if_false, reads, ne_eq, empty, Option.some.injEq,
        reduceCtorEq, not_false_eq_true, true_and, and_true]
      split_ifs at hk <;> omega

end Bytes

/-- **What a bounded run needs**, at a state `s` about to execute `i`: a
`BPF_JA` goes forward, by less than what an `int` holds; scratch accesses the
validator misses stay inside `mem[]`; and a packet load does not take a buffer
for an mbuf or an mbuf for a buffer. -/
structure GoesForward (pkt : Packet) (s : BpfState) (i : BpfInsn) : Prop where
  ja : decode i.code = .ja → 0 ≤ i.k.toInt ∧ s.pc + 1 + i.k.toInt < 2 ^ 31
  mem : decode i.code = .ldxMem ∨ decode i.code = .stx →
    0 ≤ i.k.toInt ∧ i.k.toInt < BPF_MEMWORDS
  load : packetLoad pkt i s ≠ some .wild

/-- A jump that is not a `BPF_JA` is never backward. -/
theorem displacement_nonneg (hja : decode i.code = .ja → 0 ≤ i.k.toInt) : 0 ≤ displacement i s := by
  cases hop : decode i.code with
  | ja => simpa [displacement, hop] using hja hop
  | jmp op src => simp only [displacement, hop]; split <;> omega
  | _ => simp [displacement, hop]

theorem GoesForward.withinBounds (h : GoesForward pkt s i) (h0 : 0 ≤ s.pc) :
    WithinBounds s.pc i where
  ja := fun hop => ⟨by have := (h.ja hop).1; omega, (h.ja hop).2⟩
  mem := h.mem

section Bound

variable {f : Program} (hv : bpfValidate f.insns = true) {pkt : Packet}
  {wirelen : BitVec 32}

include hv

/-- **The bound on a whole run.**  A run of an accepted program returns within
`len` instructions, every jump of it forward, if and only if every instruction
it executes goes forward in the sense above. -/
theorem runs_forward_iff (A X : BitVec 32) (mem : Fin BPF_MEMWORDS → BitVec 32) :
    ((∃ v, bpfFilter f.insns.length (some f.insns) pkt wirelen (start A X mem) = .done v) ∧
      ∀ s t, Reaches (step f.insns pkt wirelen) (start A X mem) s →
        step f.insns pkt wirelen s = .next t → s.pc < t.pc) ↔
      ∀ s i, Reaches (step f.insns pkt wirelen) (start A X mem) s →
        fetch f.insns s.pc = some i → GoesForward pkt s i := by
  have hpos : 0 < f.insns.length := List.length_pos_of_ne_nil f.nonempty
  have hfits := f.fits
  constructor
  · rintro ⟨⟨v, hdone⟩, hfwd⟩ s i hs hi
    have hnf := step_ne_fault_of_runFor_done _ hdone
    have hnone : ¬ ∃ e, exec pkt wirelen i s = .fault e := by
      rintro ⟨e, he⟩
      exact hnf s hs e (by simp [step, hi, he])
    rw [exec_fault_iff, not_or, not_or] at hnone
    refine ⟨fun hop => ?_, fun hop => ?_, hnone.1⟩
    · have hnext : step f.insns pkt wirelen s = .next (s.jump i.k.toInt) := by
        simp [step, hi, exec, hop]
      have hlt := hfwd s _ hs hnext
      -- the target is a state of a run that returns, so it is inside the program
      have hin : s.pc + 1 + i.k.toInt < f.insns.length := by
        cases hj : fetch f.insns (s.jump i.k.toInt).pc with
        | none =>
          exact absurd (by simp only [step, hj]) (hnf _ (hs.tail hnext) .pc)
        | some j => exact (fetch_eq_some hj).2.1
      simp only [BpfState.jump_pc] at hlt
      exact ⟨by omega, by omega⟩
    · by_contra hout
      refine hnone.2.1 ⟨i.k.toInt, ?_, hout⟩
      rcases hop with hop | hop <;> simp [memIndex, hop]
  · intro hg
    have hpc := reaches_inside hv fun s i hs hi h0 => ((hg s i hs hi).withinBounds h0).ja
    have hfault : ∀ s, Reaches (step f.insns pkt wirelen) (start A X mem) s →
        ∀ e, step f.insns pkt wirelen s ≠ .fault e := by
      intro s hs e he
      obtain ⟨i, hi, -⟩ := fetch_isSome (hpc s hs).1 (hpc s hs).2
      have hgi := hg s i hs hi
      have hex : ∃ e, exec pkt wirelen i s = .fault e := ⟨e, by simpa [step, hi] using he⟩
      rcases exec_fault_iff.mp hex with h | ⟨k, hk, hout⟩ | h
      · exact hgi.load h
      · exact hout (memIndex_ok hv hi hgi.mem hk)
      · exact divisor_ne_zero hv hi h
    have hfwd : ∀ s t, Reaches (step f.insns pkt wirelen) (start A X mem) s →
        step f.insns pkt wirelen s = .next t → s.pc < t.pc := by
      intro s t hs hst
      obtain ⟨i, hi, -⟩ := fetch_isSome (hpc s hs).1 (hpc s hs).2
      simp only [step, hi] at hst
      have hd := displacement_nonneg (s := s) fun hop => ((hg s i hs hi).ja hop).1
      rw [exec_next_pc hst]
      omega
    refine ⟨?_, hfwd⟩
    refine runFor_isDone_of_variant _ (fun s => ((f.insns.length : ℤ) - 1 - s.pc).toNat)
      hfault ?_ _ (by simp only [start]; omega)
    intro s t hs hst
    have h1 := hfwd s t hs hst
    have h2 := (hpc t (hs.tail hst)).2
    omega

end Bound

/-- `ja -1` jumps to itself: it is accepted, and after any number of
instructions it is still running. -/
theorem accepted_loops :
    bpfValidate (thenRet (BPF_JMP ||| BPF_JA) (-1)) = true ∧
      (∀ n, ¬ ∃ v, bpfFilter n (some (thenRet (BPF_JMP ||| BPF_JA) (-1)))
        (.buf (fun _ => 0) 60) 60 (start 0 0 fun _ => 0) = .done v) := by
  refine ⟨by decide, fun n => ?_⟩
  rintro ⟨v, hv⟩
  have hloop : step (thenRet (BPF_JMP ||| BPF_JA) (-1)) (.buf (fun _ => 0) 60) 60
      (start 0 0 fun _ => 0) = .next (start 0 0 fun _ => 0) := rfl
  have hrun : ∀ n, runFor (step (thenRet (BPF_JMP ||| BPF_JA) (-1)) (.buf (fun _ => 0) 60) 60)
      n (start 0 0 fun _ => 0) = .next (start 0 0 fun _ => 0) := by
    intro n
    induction n with
    | zero => rfl
    | succ n ih => rw [runFor_succ_of_next _ hloop, ih]
  rw [bpfFilter, hrun n] at hv
  cases hv

theorem storeProgram_returns :
    bpfValidate storeProgram.insns = true ∧
      ((∃ v, bpfFilter storeProgram.insns.length (some storeProgram.insns)
          (.buf (fun _ => 0) 60) 60 (start 0 0 fun _ => 0) = .done v) ∧
        ∀ s t, Reaches (step storeProgram.insns (.buf (fun _ => 0) 60) 60)
            (start 0 0 fun _ => 0) s →
          step storeProgram.insns (.buf (fun _ => 0) 60) 60 s = .next t → s.pc < t.pc) := by
  have hv : bpfValidate storeProgram.insns = true := by decide
  refine ⟨hv, (runs_forward_iff hv 0 0 _).mpr fun s i _ hi => ?_⟩
  have hno : ∀ j ∈ storeProgram.insns, decode j.code ≠ .ja ∧ decode j.code ≠ .ldxMem ∧
      decode j.code ≠ .stx ∧ (decode j.code = .ldImm ∨ decode j.code = .st ∨
        decode j.code = .ldxImm ∨ decode j.code = .retA) := by decide
  obtain ⟨h1, h2, h3, h4⟩ := hno i (fetch_eq_some hi).2.2
  refine ⟨fun h => absurd h h1, fun h => (h.elim h2 h3).elim, ?_⟩
  rcases h4 with h | h | h | h <;> simp [packetLoad, h]

end BSDLite2.Bpf
