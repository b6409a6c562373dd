import BSDLite2.Netinet.IpFrag

/-!
# IP options on arrival (`ip_dooptions` of `netinet/ip_input.c`)

`ip_dooptions` works on the options of a packet where they are: it brings up the next address of
a source route, and fills in addresses and times in the others.  The length of an option and the
pointer in it are bytes of the packet, which it compares with each other in ways that do not
exclude all the wrong ones: an option may be shorter than an address, and the pointer of a
timestamp has no lower bound.

* `Opts` — the packet in memory, with a log of every byte written and every address read;
* `Access.Ok` — the byte is one of `ip_dst` or of the option, from its pointer on; the address
  lies in the option;
* `sourceRoute`, `recordRoute`, `timestamp` — what is done for an option;
* `ipDooptions` — `ip_dooptions`;
* `Sound` — an option that leads to no other accesses;
* `dooptions_writes_iff` — all accesses are as they should be if and only if every option that
  is reached is sound.

To the packets for which they are not belong those that are refused: `ip_len` is changed for
`icmp_error`.
-/

namespace BSDLite2.IpOpt

open IpFrag (IPOPT_EOL IPOPT_NOP)

/-! ## The packet -/

def IPOPT_RR : BitVec 8 := 7
def IPOPT_TS : BitVec 8 := 68
def IPOPT_SECURITY : BitVec 8 := 130
def IPOPT_LSRR : BitVec 8 := 131
def IPOPT_SSRR : BitVec 8 := 137
def IPOPT_MINOFF : ℕ := 4
def IPOPT_TS_TSONLY : BitVec 8 := 0
def IPOPT_TS_TSANDADDR : BitVec 8 := 1
def IPOPT_TS_PRESPEC : BitVec 8 := 3

/-- What the interfaces and routes answer: the address of an interface, if there is one. -/
structure Net where
  ifwithaddr : BitVec 32 → Option (BitVec 32)
  ifwithdstaddr : BitVec 32 → Option (BitVec 32)
  ifwithnet : BitVec 32 → Option (BitVec 32)
  /-- `ifaof_ifpforaddr` for the interface the packet came by -/
  ifaofifp : BitVec 32 → Option (BitVec 32)
  rtaddr : BitVec 32 → Option (BitVec 32)
  iptime : BitVec 32

variable (net : Net)

/-- An access while the option at `cp`, of `optlen` bytes, is dealt with: a byte that is
written, or an address that is read from the option.  All positions count from the header. -/
structure Access where
  cp : ℕ
  optlen : ℕ
  isWrite : Bool
  pos : ℕ
  deriving DecidableEq

/-- **An access as it should be**: a write is to `ip_dst` or to the data of the option, and an
address is read from within the option. -/
def Access.Ok (x : Access) : Prop :=
  if x.isWrite then (16 ≤ x.pos ∧ x.pos < 20) ∨ (x.cp + 2 ≤ x.pos ∧ x.pos < x.cp + x.optlen)
  else x.cp ≤ x.pos ∧ x.pos + 4 ≤ x.cp + x.optlen

/-- A source route that has come to its end, as `save_rte` saves it. -/
structure Srcrt where
  option : List (BitVec 8)
  dst : BitVec 32

/-- `ip_nhops`. -/
def Srcrt.nhops (r : Srcrt) : ℕ := (r.option.length - 3) / 4

/-- The packet in the course of `ip_dooptions`. -/
structure Opts where
  /-- memory, from the header on -/
  mem : ℕ → BitVec 8
  forward : Bool
  srcrt : Option Srcrt
  log : List Access

variable (s : Opts)

namespace Opts

/-- The four bytes at `a`. -/
def long (a : ℕ) : BitVec 32 :=
  s.mem a ++ s.mem (a + 1) ++ s.mem (a + 2) ++ s.mem (a + 3)

/-- `ip->ip_src`. -/
def src : BitVec 32 := s.long 12

/-- `ip->ip_dst`. -/
def dst : BitVec 32 := s.long 16

/-- A byte is written. -/
def write (cp optlen a : ℕ) (b : BitVec 8) : Opts :=
  { s with
    mem := fun i => if i = a then b else s.mem i
    log := s.log ++ [⟨cp, optlen, true, a⟩] }

/-- Four bytes are written. -/
def writeLong (cp optlen a : ℕ) (x : BitVec 32) : Opts :=
  (((s.write cp optlen a (x.extractLsb' 24 8)).write cp optlen (a + 1) (x.extractLsb' 16 8)).write
    cp optlen (a + 2) (x.extractLsb' 8 8)).write cp optlen (a + 3) (x.extractLsb' 0 8)

/-- An address of the option is read. -/
def readAddr (cp optlen a : ℕ) : Opts :=
  { s with log := s.log ++ [⟨cp, optlen, false, a⟩] }

/-- The pointer of the option is moved on. -/
def advance (cp optlen : ℕ) : Opts := s.write cp optlen (cp + 2) (s.mem (cp + 2) + 4)

/-- `ip->ip_len -= ip->ip_hl << 2`, for `icmp_error`. -/
def reject (cp optlen hlen : ℕ) : Opts :=
  let len := (s.mem 2 ++ s.mem 3 : BitVec 16) - BitVec.ofNat 16 hlen
  (s.write cp optlen 2 (len.extractLsb' 8 8)).write cp optlen 3 (len.extractLsb' 0 8)

end Opts

/-! ## The options -/

/-- `off > optlen - sizeof(struct in_addr)`, which is a comparison of unsigned numbers. -/
def beyond (off optlen : ℕ) : Bool := decide ((BitVec.ofNat 32 optlen - 4).toNat < off)

/-- `save_rte`. -/
def saveRte (cp optlen : ℕ) : Opts :=
  if optlen > 43 then s
  else { s with srcrt := some ⟨(List.range optlen).map fun i => s.mem (cp + i), s.src⟩ }

/-- The next hop of a source route. -/
def nextHop (strict : Bool) (a : BitVec 32) : Option (BitVec 32) :=
  if strict then (net.ifwithdstaddr a).or (net.ifwithnet a) else net.rtaddr a

/-- `IPOPT_LSRR` and `IPOPT_SSRR`, and whether the packet is bad. -/
def sourceRoute (strict : Bool) (cp optlen : ℕ) (s : Opts) : Opts × Bool :=
  let off := (s.mem (cp + 2)).toNat
  if off < IPOPT_MINOFF then (s, true)
  else
    match net.ifwithaddr s.dst with
    | none => (s, strict)
    | some _ =>
      if beyond (off - 1) optlen then (saveRte s cp optlen, false)
      else
        let a := s.long (cp + off - 1)
        let s := s.readAddr cp optlen (cp + off - 1)
        match nextHop net strict a with
        | none => (s, true)
        | some ifaddr =>
          let s := (s.writeLong cp optlen 16 a).writeLong cp optlen (cp + off - 1) ifaddr
          ({ s.advance cp optlen with forward := !inMulticast a }, false)

/-- `IPOPT_RR`. -/
def recordRoute (cp optlen : ℕ) (s : Opts) : Opts × Bool :=
  let off := (s.mem (cp + 2)).toNat
  if off < IPOPT_MINOFF then (s, true)
  else if beyond (off - 1) optlen then (s, false)
  else
    match (net.ifwithaddr s.dst).or (net.rtaddr s.dst) with
    | none => (s, true)
    | some ifaddr => ((s.writeLong cp optlen (cp + off - 1) ifaddr).advance cp optlen, false)

/-- The time is written at the pointer. -/
def stamp (cp optlen : ℕ) (s : Opts) : Opts :=
  (s.writeLong cp optlen (cp + (s.mem (cp + 2)).toNat - 1) net.iptime).advance cp optlen

/-- `IPOPT_TS`, where `dst` is the destination the packet came with. -/
def timestamp (dst : BitVec 32) (cp optlen : ℕ) (s : Opts) : Opts × Bool :=
  let ptr := (s.mem (cp + 2)).toNat
  let flags := s.mem (cp + 3)
  if optlen < 5 then (s, true)
  else if ptr > optlen - 4 then
    -- `ipt_oflw` is in the upper half of the byte
    (s.write cp optlen (cp + 3) (flags + 0x10), decide ((flags + 0x10) &&& 0xf0 = 0))
  else if flags &&& 0xf = IPOPT_TS_TSONLY then (stamp net cp optlen s, false)
  else if flags &&& 0xf = IPOPT_TS_TSANDADDR then
    if ptr + 8 > optlen then (s, true)
    else
      match net.ifaofifp dst with
      | none => (s, false)
      | some ifaddr =>
        (stamp net cp optlen ((s.writeLong cp optlen (cp + ptr - 1) ifaddr).advance cp optlen),
          false)
  else if flags &&& 0xf = IPOPT_TS_PRESPEC then
    if ptr + 8 > optlen then (s, true)
    else
      let a := s.long (cp + ptr - 1)
      let s := s.readAddr cp optlen (cp + ptr - 1)
      match net.ifwithaddr a with
      | none => (s, false)
      | some _ => (stamp net cp optlen (s.advance cp optlen), false)
  else (s, true)

/-- The `switch` of `ip_dooptions`. -/
def process (dst : BitVec 32) (cp optlen : ℕ) (s : Opts) : Opts × Bool :=
  if s.mem cp = IPOPT_LSRR then sourceRoute net false cp optlen s
  else if s.mem cp = IPOPT_SSRR then sourceRoute net true cp optlen s
  else if s.mem cp = IPOPT_RR then recordRoute net cp optlen s
  else if s.mem cp = IPOPT_TS then timestamp net dst cp optlen s
  else (s, false)

/-- The loop of `ip_dooptions`: the packet, and whether it is bad. -/
def optionLoop (net : Net) (dst : BitVec 32) (hlen : ℕ) : ℕ → ℕ → ℕ → Opts → Opts × Bool
  | 0, _, _, s => (s, false)
  | fuel + 1, cp, cnt, s =>
    if cnt = 0 ∨ s.mem cp = IPOPT_EOL then (s, false)
    else if s.mem cp = IPOPT_NOP then optionLoop net dst hlen fuel (cp + 1) (cnt - 1) s
    else
      let optlen := (s.mem (cp + 1)).toNat
      if optlen = 0 ∨ optlen > cnt then (s.reject cp optlen hlen, true)
      else
        let r := process net dst cp optlen s
        if r.2 then (r.1.reject cp optlen hlen, true)
        else optionLoop net dst hlen fuel (cp + optlen) (cnt - optlen) r.1

/-- **`ip_dooptions`** on a packet in memory whose header has `hlen` bytes. -/
def ipDooptions (mem : ℕ → BitVec 8) (hlen : ℕ) : Opts × Bool :=
  let s : Opts := ⟨mem, false, none, []⟩
  optionLoop net s.dst hlen (hlen - 20) 20 (hlen - 20) s

/-! ## Sound options -/

/-- **A source route that is sound**: it is not refused, and if this host is one of its hops it
is long enough for an address. -/
def SoundRoute (strict : Bool) (cp optlen : ℕ) (s : Opts) : Prop :=
  4 ≤ (s.mem (cp + 2)).toNat ∧
    ((net.ifwithaddr s.dst).isNone → strict = false) ∧
    ((net.ifwithaddr s.dst).isSome → 4 ≤ optlen ∧
      ((s.mem (cp + 2)).toNat + 3 ≤ optlen →
        (nextHop net strict (s.long (cp + (s.mem (cp + 2)).toNat - 1))).isSome))

/-- **A route to be recorded that is sound**: it is not refused, and is long enough for an
address. -/
def SoundRecord (cp optlen : ℕ) (s : Opts) : Prop :=
  4 ≤ (s.mem (cp + 2)).toNat ∧ 4 ≤ optlen ∧
    ((s.mem (cp + 2)).toNat + 3 ≤ optlen →
      ((net.ifwithaddr s.dst).or (net.rtaddr s.dst)).isSome)

/-- Where the time is written if an address has been written over the pointer. -/
def overwritten (ifaddr : BitVec 32) : ℕ := (ifaddr.extractLsb' 24 8 + 4).toNat

/-- **A timestamp that is sound**: it is not refused, and its pointer is behind the pointer
byte, or on it if no address is written there. -/
def SoundStamp (dst : BitVec 32) (cp optlen : ℕ) (s : Opts) : Prop :=
  let ptr := (s.mem (cp + 2)).toNat
  let flags := s.mem (cp + 3)
  5 ≤ optlen ∧
    if optlen < ptr + 4 then (flags + 0x10) &&& 0xf0 ≠ 0
    else if flags &&& 0xf = IPOPT_TS_TSONLY then 3 ≤ ptr
    else if flags &&& 0xf = IPOPT_TS_TSANDADDR then
      ptr + 8 ≤ optlen ∧ ∀ ifaddr ∈ net.ifaofifp dst,
        4 ≤ ptr ∨ ptr = 3 ∧ 3 ≤ overwritten ifaddr ∧ overwritten ifaddr + 3 ≤ optlen
    else if flags &&& 0xf = IPOPT_TS_PRESPEC then ptr + 8 ≤ optlen ∧ 1 ≤ ptr
    else False

/-- **A sound option**: one whose pointer and length keep every access in place. -/
def Sound (dst : BitVec 32) (cp optlen : ℕ) (s : Opts) : Prop :=
  if s.mem cp = IPOPT_LSRR then SoundRoute net false cp optlen s
  else if s.mem cp = IPOPT_SSRR then SoundRoute net true cp optlen s
  else if s.mem cp = IPOPT_RR then SoundRecord net cp optlen s
  else if s.mem cp = IPOPT_TS then SoundStamp net dst cp optlen s
  else True

/-- Every option that is reached is sound, and ends within the header. -/
def SoundFrom (net : Net) (dst : BitVec 32) : ℕ → ℕ → ℕ → Opts → Prop
  | 0, _, _, _ => True
  | fuel + 1, cp, cnt, s =>
    if cnt = 0 ∨ s.mem cp = IPOPT_EOL then True
    else if s.mem cp = IPOPT_NOP then SoundFrom net dst fuel (cp + 1) (cnt - 1) s
    else
      let optlen := (s.mem (cp + 1)).toNat
      0 < optlen ∧ optlen ≤ cnt ∧ Sound net dst cp optlen s ∧
        SoundFrom net dst fuel (cp + optlen) (cnt - optlen) (process net dst cp optlen s).1

/-- The options of a packet are sound. -/
def SoundOptions (mem : ℕ → BitVec 8) (hlen : ℕ) : Prop :=
  let s : Opts := ⟨mem, false, none, []⟩
  SoundFrom net s.dst (hlen - 20) 20 (hlen - 20) s

/-! ## What is logged -/

/-- All accesses so far are as they should be. -/
def Opts.Fine : Prop := ∀ x ∈ s.log, x.Ok

namespace Opts

variable {s : Opts} {cp optlen a : ℕ} {b : BitVec 8} {x : BitVec 32}

theorem fine_write : (s.write cp optlen a b).Fine ↔
    s.Fine ∧ (16 ≤ a ∧ a < 20 ∨ cp + 2 ≤ a ∧ a < cp + optlen) := by
  simp only [Fine, write, List.forall_mem_append, List.forall_mem_singleton, Access.Ok, if_true]

theorem fine_readAddr : (s.readAddr cp optlen a).Fine ↔
    s.Fine ∧ cp ≤ a ∧ a + 4 ≤ cp + optlen := by
  simp only [Fine, readAddr, List.forall_mem_append, List.forall_mem_singleton, Access.Ok,
    Bool.false_eq_true, if_false]

/-- Four bytes at an option are where they should be if they lie in it, from the pointer on. -/
theorem fine_writeLong (hcp : 20 ≤ cp) (ha : 19 ≤ a) : (s.writeLong cp optlen a x).Fine ↔
    s.Fine ∧ cp + 2 ≤ a ∧ a + 4 ≤ cp + optlen := by
  simp only [writeLong, fine_write, and_assoc]
  refine and_congr_right fun _ => ?_
  omega

theorem fine_writeDst : (s.writeLong cp optlen 16 x).Fine ↔ s.Fine := by
  simp [writeLong, fine_write]

theorem fine_advance (hcp : 20 ≤ cp) : (s.advance cp optlen).Fine ↔ s.Fine ∧ 3 ≤ optlen := by
  rw [advance, fine_write]
  refine and_congr_right fun _ => ?_
  omega

/-- A packet that is refused has been written to outside of its options. -/
theorem not_fine_reject (hcp : 20 ≤ cp) (hlen : ℕ) : ¬ (s.reject cp optlen hlen).Fine := by
  simp only [reject, fine_write]
  omega

theorem fine_saveRte : (saveRte s cp optlen).Fine ↔ s.Fine := by
  unfold saveRte
  split <;> rfl

theorem fine_forward (f : Bool) : ({ s with forward := f } : Opts).Fine ↔ s.Fine := Iff.rfl

/-- Memory outside of the four bytes is left alone. -/
theorem writeLong_mem_of_ne {i : ℕ} (hi : i < a ∨ a + 4 ≤ i) :
    (s.writeLong cp optlen a x).mem i = s.mem i := by
  have h0 : i ≠ a := by omega
  have h1 : i ≠ a + 1 := by omega
  have h2 : i ≠ a + 2 := by omega
  have h3 : i ≠ a + 3 := by omega
  simp [writeLong, write, h0, h1, h2, h3]

theorem writeLong_mem_first : (s.writeLong cp optlen a x).mem a = x.extractLsb' 24 8 := by
  simp [writeLong, write]

theorem advance_mem : (s.advance cp optlen).mem (cp + 2) = s.mem (cp + 2) + 4 := by
  simp [advance, write]

end Opts

open Opts

/-! ## One option -/

section

variable {net : Net} {dst : BitVec 32} {cp optlen : ℕ} {s : Opts}

/-- The comparison of a pointer with the length is the intended one for options that are long
enough for an address, and never holds for shorter ones. -/
theorem beyond_iff (off optlen : ℕ) (hoff : off < 256) (hlen : optlen < 256) :
    beyond off optlen = true ↔ 4 ≤ optlen ∧ optlen < off + 4 := by
  have hsub : (BitVec.ofNat 32 optlen - 4).toNat = (optlen + 4294967292) % 4294967296 := by
    rw [BitVec.toNat_sub, BitVec.toNat_ofNat, show (4 : BitVec 32).toNat = 4 from rfl]
    omega
  rw [beyond, decide_eq_true_eq]
  omega

theorem sourceRoute_fine_iff (strict : Bool) (hcp : 20 ≤ cp) (hlen : optlen < 256) :
    (sourceRoute net strict cp optlen s).1.Fine ∧ (sourceRoute net strict cp optlen s).2 = false ↔
      s.Fine ∧ SoundRoute net strict cp optlen s := by
  have hbyte := (s.mem (cp + 2)).isLt
  unfold sourceRoute SoundRoute IPOPT_MINOFF
  dsimp only
  generalize (s.mem (cp + 2)).toNat = off at *
  have hbeyond := beyond_iff (off - 1) optlen (by omega) hlen
  by_cases hmin : off < 4
  · simp [hmin, not_le.mpr hmin]
  have hmin' := not_lt.mp hmin
  cases hown : net.ifwithaddr s.dst with
  | none => simp [hmin, hmin']
  | some own =>
    by_cases hend : beyond (off - 1) optlen = true
    · have h := hbeyond.mp hend
      have hroom : ¬ off + 3 ≤ optlen := by omega
      simp [hmin, hmin', hend, fine_saveRte, h.1, hroom]
    · have h := mt hbeyond.mpr hend
      cases nextHop net strict (s.long (cp + off - 1)) with
      | none =>
        simp [hmin, hend]
        omega
      | some ifaddr =>
        simp only [hmin, hend, fine_forward, fine_advance hcp, if_false,
          Option.isSome_some, Option.isNone_some, hmin', true_and, Bool.false_eq_true]
        rw [fine_writeLong hcp (by omega), fine_writeDst, fine_readAddr]
        constructor
        · rintro ⟨⟨⟨⟨hs, -, hr⟩, -⟩, -⟩, -⟩
          exact ⟨hs, nofun, fun _ => ⟨by omega, fun _ => trivial⟩⟩
        · rintro ⟨hs, -, h4⟩
          have := (h4 trivial).1
          exact ⟨⟨⟨⟨hs, by omega, by omega⟩, by omega, by omega⟩, by omega⟩, trivial⟩

theorem recordRoute_fine_iff (hcp : 20 ≤ cp) (hlen : optlen < 256) :
    (recordRoute net cp optlen s).1.Fine ∧ (recordRoute net cp optlen s).2 = false ↔
      s.Fine ∧ SoundRecord net cp optlen s := by
  have hbyte := (s.mem (cp + 2)).isLt
  unfold recordRoute SoundRecord IPOPT_MINOFF
  generalize (s.mem (cp + 2)).toNat = off at *
  have hbeyond := beyond_iff (off - 1) optlen (by omega) hlen
  by_cases hmin : off < 4
  · simp [hmin, not_le.mpr hmin]
  have hmin' := not_lt.mp hmin
  by_cases hend : beyond (off - 1) optlen = true
  · have h := hbeyond.mp hend
    have hroom : ¬ off + 3 ≤ optlen := by omega
    simp [hmin, hmin', hend, h.1, hroom]
  · have h := mt hbeyond.mpr hend
    cases hia : (net.ifwithaddr s.dst).or (net.rtaddr s.dst) with
    | none =>
      simp [hmin, hend]
      omega
    | some ifaddr =>
      simp only [hmin, hend, if_false, hmin', true_and, Option.isSome_some,
        fine_advance hcp, Bool.false_eq_true]
      rw [fine_writeLong hcp (by omega)]
      constructor
      · rintro ⟨⟨⟨hs, -, hw⟩, -⟩, -⟩
        exact ⟨hs, by omega, fun _ => trivial⟩
      · rintro ⟨hs, h4, -⟩
        exact ⟨⟨⟨hs, by omega, by omega⟩, by omega⟩, trivial⟩

/-- The time is written where it should be if the pointer says so. -/
theorem stamp_fine_iff (hcp : 20 ≤ cp) : (stamp net cp optlen s).Fine ↔
    s.Fine ∧ 3 ≤ (s.mem (cp + 2)).toNat ∧ (s.mem (cp + 2)).toNat + 3 ≤ optlen := by
  rw [stamp, fine_advance hcp, fine_writeLong hcp (by omega)]
  constructor
  · rintro ⟨⟨hs, h1, h2⟩, -⟩
    exact ⟨hs, by omega, by omega⟩
  · rintro ⟨hs, h1, h2⟩
    exact ⟨⟨hs, by omega, by omega⟩, by omega⟩

/-- An address and a time are written where they should be if the pointer is behind its own
byte; if it points at that byte, the address decides where the time is written. -/
theorem stamp_address_fine_iff {ifaddr : BitVec 32} (hcp : 20 ≤ cp)
    (hroom : (s.mem (cp + 2)).toNat + 8 ≤ optlen) (hlen : optlen < 256) :
    (stamp net cp optlen ((s.writeLong cp optlen (cp + (s.mem (cp + 2)).toNat - 1) ifaddr).advance
        cp optlen)).Fine ↔
      s.Fine ∧ (4 ≤ (s.mem (cp + 2)).toNat ∨
        (s.mem (cp + 2)).toNat = 3 ∧ 3 ≤ overwritten ifaddr ∧ overwritten ifaddr + 3 ≤ optlen) := by
  rw [stamp_fine_iff hcp, fine_advance hcp, fine_writeLong hcp (by omega), advance_mem]
  set ptr := (s.mem (cp + 2)).toNat
  rcases Nat.lt_trichotomy ptr 3 with hptr | hptr | hptr
  · constructor
    · rintro ⟨⟨⟨-, h, -⟩, -⟩, -⟩
      omega
    · rintro ⟨-, h | h⟩ <;> omega
  · have hfirst : (s.writeLong cp optlen (cp + ptr - 1) ifaddr).mem (cp + 2) =
        ifaddr.extractLsb' 24 8 := by
      rw [hptr]
      exact writeLong_mem_first
    rw [hfirst]
    constructor
    · rintro ⟨⟨⟨hs, -⟩, -⟩, h⟩
      exact ⟨hs, .inr ⟨hptr, h⟩⟩
    · rintro ⟨hs, h | ⟨-, h⟩⟩
      · omega
      · exact ⟨⟨⟨hs, by omega, by omega⟩, by omega⟩, h⟩
  · have hkept : ((s.writeLong cp optlen (cp + ptr - 1) ifaddr).mem (cp + 2) + 4).toNat =
        ptr + 4 := by
      rw [writeLong_mem_of_ne (by omega), BitVec.toNat_add, show (4 : BitVec 8).toNat = 4 from rfl]
      omega
    constructor
    · rintro ⟨⟨⟨hs, -⟩, -⟩, -⟩
      exact ⟨hs, .inl hptr⟩
    · rintro ⟨hs, -⟩
      exact ⟨⟨⟨hs, by omega, by omega⟩, by omega⟩, by omega, by omega⟩

/-- A time is written where it should be behind an address that is in the option already. -/
theorem stamp_prespec_fine_iff {pos : ℕ} (hcp : 20 ≤ cp)
    (hroom : (s.mem (cp + 2)).toNat + 8 ≤ optlen) (hlen : optlen < 256) :
    (stamp net cp optlen ((s.readAddr cp optlen pos).advance cp optlen)).Fine ↔
      (s.readAddr cp optlen pos).Fine := by
  have hptr : ((s.readAddr cp optlen pos).mem (cp + 2) + 4).toNat =
      (s.mem (cp + 2)).toNat + 4 := by
    exact Nat.mod_eq_of_lt (by change (s.mem (cp + 2)).toNat + 4 < 256; omega)
  rw [stamp_fine_iff hcp, fine_advance hcp, advance_mem]
  constructor
  · rintro ⟨⟨hs, -⟩, -⟩
    exact hs
  · intro hs
    exact ⟨⟨hs, by omega⟩, by omega, by omega⟩

theorem timestamp_fine_iff (hcp : 20 ≤ cp) (hlen : optlen < 256) :
    (timestamp net dst cp optlen s).1.Fine ∧ (timestamp net dst cp optlen s).2 = false ↔
      s.Fine ∧ SoundStamp net dst cp optlen s := by
  unfold timestamp SoundStamp
  set ptr := (s.mem (cp + 2)).toNat
  set flags := s.mem (cp + 3)
  by_cases h5 : optlen < 5
  · simp [h5, not_le.mpr h5]
  have h5' := not_lt.mp h5
  by_cases hfull : ptr > optlen - 4
  · have hfull' : optlen < ptr + 4 := by omega
    simp only [h5, h5', hfull, hfull', if_false, if_true, true_and, fine_write,
      decide_eq_false_iff_not]
    have hin : 16 ≤ cp + 3 ∧ cp + 3 < 20 ∨ cp + 2 ≤ cp + 3 ∧ cp + 3 < cp + optlen := by omega
    rw [and_iff_left hin]
  have hfull' : ¬ optlen < ptr + 4 := by omega
  simp only [h5, h5', hfull, hfull', if_false, true_and]
  by_cases htsonly : flags &&& 0xf = IPOPT_TS_TSONLY
  · simp only [htsonly, if_true, and_true]
    rw [stamp_fine_iff hcp]
    refine and_congr_right fun _ => ?_
    omega
  by_cases hboth : flags &&& 0xf = IPOPT_TS_TSANDADDR
  · rw [if_neg htsonly, if_neg htsonly, if_pos hboth, if_pos hboth]
    by_cases hroom : ptr + 8 > optlen
    · simp [hroom, not_le.mpr hroom]
    have hroom' := not_lt.mp hroom
    cases hia : net.ifaofifp dst with
    | none => simp [hroom, hroom']
    | some ifaddr =>
      simp only [hroom, if_false, hroom', true_and, and_true, Option.mem_def, Option.some.injEq,
        forall_eq']
      exact stamp_address_fine_iff hcp hroom' hlen
  by_cases hpre : flags &&& 0xf = IPOPT_TS_PRESPEC
  · rw [if_neg htsonly, if_neg htsonly, if_neg hboth, if_neg hboth, if_pos hpre, if_pos hpre]
    by_cases hroom : ptr + 8 > optlen
    · simp [hroom, not_le.mpr hroom]
    have hroom' := not_lt.mp hroom
    have hread : (s.readAddr cp optlen (cp + ptr - 1)).Fine ↔
        s.Fine ∧ 1 ≤ ptr := by
      rw [fine_readAddr]
      refine and_congr_right fun _ => ?_
      omega
    cases hia : net.ifwithaddr (s.long (cp + ptr - 1)) with
    | none => simp [hroom, hroom', hread]
    | some own =>
      simp only [hroom, if_false, hroom', true_and, and_true]
      exact (stamp_prespec_fine_iff hcp hroom' hlen).trans hread
  · rw [if_neg htsonly, if_neg htsonly, if_neg hboth, if_neg hboth, if_neg hpre, if_neg hpre]
    simp

/-- **One option is dealt with without other accesses if and only if it is sound.** -/
theorem process_fine_iff (net : Net) (dst : BitVec 32) (s : Opts) (hcp : 20 ≤ cp)
    (hlen : optlen < 256) :
    (process net dst cp optlen s).1.Fine ∧ (process net dst cp optlen s).2 = false ↔
      s.Fine ∧ Sound net dst cp optlen s := by
  unfold process Sound
  split_ifs
  · exact sourceRoute_fine_iff false hcp hlen
  · exact sourceRoute_fine_iff true hcp hlen
  · exact recordRoute_fine_iff hcp hlen
  · exact timestamp_fine_iff hcp hlen
  · simp

end

/-! ## All options -/

/-- With fuel for every byte the loop ends where the options do. -/
theorem optionLoop_fuel (dst : BitVec 32) (hlen fuel more cp cnt : ℕ) (s : Opts)
    (hcnt : cnt ≤ fuel) :
    optionLoop net dst hlen (fuel + more) cp cnt s = optionLoop net dst hlen fuel cp cnt s := by
  induction fuel generalizing cp cnt s with
  | zero =>
    have hcnt : cnt = 0 := by omega
    cases more <;> simp [optionLoop, hcnt]
  | succ fuel ih =>
    rw [show fuel + 1 + more = fuel + more + 1 by omega, optionLoop, optionLoop]
    by_cases hend : cnt = 0 ∨ s.mem cp = IPOPT_EOL
    · rw [if_pos hend, if_pos hend]
    rw [if_neg hend, if_neg hend, ih (cp + 1) (cnt - 1) s (by omega)]
    by_cases hnop : s.mem cp = IPOPT_NOP
    · rw [if_pos hnop, if_pos hnop]
    by_cases hlen' : (s.mem (cp + 1)).toNat = 0 ∨ (s.mem (cp + 1)).toNat > cnt
    · simp only [hlen', if_true]
    · simp only [hlen', if_false]
      rw [ih _ _ _ (by omega)]

theorem optionLoop_fine_iff (dst : BitVec 32) (hlen fuel cp cnt : ℕ) (s : Opts) (hcp : 20 ≤ cp)
    : (optionLoop net dst hlen fuel cp cnt s).1.Fine ↔
      s.Fine ∧ SoundFrom net dst fuel cp cnt s := by
  induction fuel generalizing cp cnt s with
  | zero => simp [optionLoop, SoundFrom]
  | succ fuel ih =>
    rw [optionLoop, SoundFrom]
    by_cases hend : cnt = 0 ∨ s.mem cp = IPOPT_EOL
    · simp only [hend, if_true, and_true]
    rw [if_neg hend, if_neg hend]
    by_cases hnop : s.mem cp = IPOPT_NOP
    · rw [if_pos hnop, if_pos hnop]
      exact ih _ _ _ (by omega)
    rw [if_neg hnop, if_neg hnop]
    have hbyte := (s.mem (cp + 1)).isLt
    by_cases hbad : (s.mem (cp + 1)).toNat = 0 ∨ (s.mem (cp + 1)).toNat > cnt
    · simp only [hbad, if_true]
      refine iff_of_false (not_fine_reject hcp hlen) fun h => ?_
      omega
    simp only [hbad, if_false]
    have hone := process_fine_iff net dst s hcp hbyte
    cases hres : (process net dst cp (s.mem (cp + 1)).toNat s).2 with
    | true =>
      refine iff_of_false (not_fine_reject hcp hlen) fun h => ?_
      have hgood := (hone.mpr ⟨h.1, h.2.2.2.1⟩).2
      rw [hres] at hgood
      exact Bool.noConfusion hgood
    | false =>
      rw [if_neg Bool.false_ne_true, ih _ _ _ (by omega)]
      constructor
      · rintro ⟨hf, hrest⟩
        have h := hone.mp ⟨hf, hres⟩
        exact ⟨h.1, by omega, by omega, h.2, hrest⟩
      · rintro ⟨hs, -, -, hsound, hrest⟩
        exact ⟨(hone.mpr ⟨hs, hsound⟩).1, hrest⟩

/-- **`ip_dooptions` writes only in options, and to `ip_dst`, if and only if the options that it
reaches are sound**: every byte that it modifies and every address that it takes from an option
are as they should be exactly then. -/
theorem dooptions_writes_iff (mem : ℕ → BitVec 8) (hlen : ℕ) :
    (∀ x ∈ (ipDooptions net mem hlen).1.log, x.Ok) ↔ SoundOptions net mem hlen := by
  have h := optionLoop_fine_iff net (Opts.dst ⟨mem, false, none, []⟩) hlen (hlen - 20) 20
    (hlen - 20) ⟨mem, false, none, []⟩ le_rfl
  have hempty : (⟨mem, false, none, []⟩ : Opts).Fine := by simp [Opts.Fine]
  exact h.trans (and_iff_right hempty)

/-- A host that has the address 10.0.0.1, and a route to everywhere. -/
def host : Net :=
  { ifwithaddr := fun a => if a = 0x0a000001 then some a else none
    ifwithdstaddr := fun _ => none
    ifwithnet := fun _ => none
    ifaofifp := fun _ => some 0x0a000001
    rtaddr := fun _ => some 0x0a000001
    iptime := 0x11223344 }

/-- A packet for 10.0.0.1 with a no-operation and a source route of three bytes, which has no
room for an address, and data behind the header. -/
def shortRoute : ℕ → BitVec 8 := fun i =>
  [0x46, 0, 0, 4, 0, 1, 0, 0, 64, 1, 0, 0, 10, 0, 0, 9, 10, 0, 0, 1, 1, 131, 3, 4].getD i 0xaa

/-- The pointer of the route is 4, and the route of three bytes is not at its end for it: the
next hop is taken from the data behind the header, and this host's address is written there. -/
theorem dooptions_writes_behind :
    ¬ (∀ x ∈ (ipDooptions host shortRoute 24).1.log, x.Ok) ∧
      (ipDooptions host shortRoute 24).2 = false ∧
      (ipDooptions host shortRoute 24).1.dst = 0xaaaaaaaa ∧
      [24, 25, 26, 27].map (ipDooptions host shortRoute 24).1.mem = [10, 0, 0, 1] := by
  refine ⟨fun h => ?_, by decide +kernel, by decide +kernel, by decide +kernel⟩
  have hread : (⟨21, 3, false, 24⟩ : Access).Ok := h _ (by decide +kernel)
  simp [Access.Ok] at hread

end BSDLite2.IpOpt
