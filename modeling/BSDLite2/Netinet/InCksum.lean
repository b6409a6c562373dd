import BSDLite2.Lib.ByteOrder
import BSDLite2.Lib.Bytes
import BSDLite2.Lib.OnesComp

/-!
# The Internet checksum (`netinet/in_cksum.c`)

`in_cksum` adds the 16-bit words of the data of a chain of mbufs and folds the
carries in.  A word may begin in one mbuf and end in the next, and the data of an
mbuf may stand at an odd address, in which case the sum is kept swapped while the
mbuf is scanned.  Words are read as the machine stores them, in either byte order.

* `inCksum` — the code;
* `Scanned` — what the variables of the loop say about the bytes read so far: the
  sum, with the byte that waits for its other half, stands for the sum of their
  words.  `scanMbuf` keeps it (`Scanned.scanMbuf`), whatever the length of the mbuf
  and its alignment, and so does the loop (`Scanned.scanChain`);
* `inCksum_eq` — the checksum is the complement of the sum with end-around carry
  (`eacSum`) and does not depend on the chain.

`sum` is an `int` of 32 bits that wraps.  It may pass `2 ^ 31`, but never `2 ^ 32`.
-/

namespace BSDLite2.ByteOrder

open OnesComp

variable (o : ByteOrder)

theorem weights : Weights o.fst o.snd := by
  cases o
  · exact .inl ⟨rfl, rfl⟩
  · exact .inr ⟨rfl, rfl⟩

theorem toNat_word (a b : BitVec 8) :
    (o.word a b).toNat = o.fst * a.toNat + o.snd * b.toNat := by
  have ha := a.isLt
  have hb := b.isLt
  cases o
  · simp only [word, fst, snd, BitVec.toNat_append]
    rw [← Nat.shiftLeft_add_eq_or_of_lt hb]
    omega
  · simp only [word, fst, snd, BitVec.toNat_append]
    rw [← Nat.shiftLeft_add_eq_or_of_lt ha]
    omega

/-- The sum of the words of a string of bytes. -/
abbrev sum (l : List (BitVec 8)) : ℕ := alt o.fst o.snd l

end BSDLite2.ByteOrder

namespace BSDLite2.InCksum

open Bytes OnesComp List

/-- The data of an mbuf, and whether its address is odd. -/
structure Mbuf where
  odd : Bool
  bytes : List (BitVec 8)

/-- `REDUCE`, with `ADDCARRY`. -/
def reduce (sum : BitVec 32) : BitVec 32 :=
  let sum := (sum.extractLsb' 0 16).setWidth 32 + (sum.extractLsb' 16 16).setWidth 32
  if sum.toNat > 65535 then sum - 65535 else sum

/-- `sum += *w++` for each word. -/
def addWords (o : ByteOrder) (sum : BitVec 32) : List (BitVec 8) → BitVec 32
  | a :: b :: w => addWords o (sum + (o.word a b).setWidth 32) w
  | _ => sum

/-- The two unrolled loops, which take whole groups of 8 bytes, and what follows
them.  `swapped` is `s_util.c[0]` while `byte_swapped` is set; in the result it is
the byte kept while `mlen` is -1. -/
def scanWords (o : ByteOrder) (sum : BitVec 32) (swapped : Option (BitVec 8))
    (w : List (BitVec 8)) : BitVec 32 × Option (BitVec 8) :=
  let bulk := w.length / 8 * 8
  let sum := addWords o sum (w.take bulk)
  let w := w.drop bulk
  match swapped with
  | none =>
    if w = [] then (sum, none)
    else (addWords o (reduce sum) w, if w.length % 2 = 1 then w.getLast? else none)
  | some c =>
    let sum := reduce (addWords o (reduce sum) w) <<< 8
    if w.length % 2 = 1 then (sum + (o.word c (w.getLastD 0)).setWidth 32, none)
    else (sum, some c)

/-- The variables of the loop over the chain. -/
structure Scan where
  sum : BitVec 32
  /-- `s_util.c[0]` while `mlen` is -1 -/
  half : Option (BitVec 8)
  len : ℕ

/-- The first byte of the mbuf, if it completes a word. -/
def completeWord (o : ByteOrder) (s : Scan) (m : Mbuf) : Scan × Mbuf :=
  match s.half, m.bytes with
  | some c, b :: w =>
    (⟨s.sum + (o.word c b).setWidth 32, none, s.len - 1⟩, ⟨!m.odd, w⟩)
  | _, _ => (s, m)

/-- One turn of the loop over the chain. -/
def scanMbuf (o : ByteOrder) (s : Scan) (m : Mbuf) : Scan :=
  if m.bytes = [] then s
  else
    let (s, m) := completeWord o s m
    let w := m.bytes.take s.len
    let r :=
      match m.odd, w with
      | true, c :: w => scanWords o (reduce s.sum <<< 8) (some c) w
      | _, w => scanWords o s.sum none w
    ⟨r.1, r.2, s.len - w.length⟩

/-- The loop over the chain. -/
def scanChain (o : ByteOrder) (s : Scan) : List Mbuf → Scan
  | [] => s
  | m :: ms => if s.len = 0 then s else scanChain o (scanMbuf o s m) ms

/-- **`in_cksum`.** -/
def inCksum (o : ByteOrder) (m : List Mbuf) (len : ℕ) : BitVec 16 :=
  let s := scanChain o ⟨0, none, len⟩ m
  let sum :=
    match s.half with
    | some c => s.sum + (o.word c 0).setWidth 32
    | none => s.sum
  ~~~(reduce sum).extractLsb' 0 16

/-! ## The sum of a string of bytes -/

/-- The words of a string of bytes, with one zero byte added if their number is odd. -/
def paddedWords (o : ByteOrder) : List (BitVec 8) → List (BitVec 16)
  | a :: b :: l => o.word a b :: paddedWords o l
  | [a] => [o.word a 0]
  | [] => []

/-- The sum of two words, the carry added at the other end. -/
def eacAdd (x y : BitVec 16) : BitVec 16 :=
  let s := x.setWidth 17 + y.setWidth 17
  s.setWidth 16 + (BitVec.ofBool s.msb).setWidth 16

/-- **The sum with end-around carry** of a string of bytes. -/
def eacSum (o : ByteOrder) (b : List (BitVec 8)) : BitVec 16 :=
  (paddedWords o b).foldl eacAdd 0

variable (o : ByteOrder) (l : List (BitVec 8))

variable {n : ℕ}

theorem isEac_eacAdd {x : BitVec 16} (h : IsEac n x.toNat) (y : BitVec 16) :
    IsEac (n + y.toNat) (eacAdd x y).toNat := by
  obtain ⟨⟨hmod, hzero⟩, -⟩ := h
  have hs : (x.setWidth 17 + y.setWidth 17).toNat = x.toNat + y.toNat := by
    rw [BitVec.toNat_add, BitVec.toNat_setWidth, BitVec.toNat_setWidth]
    omega
  have hadd : (eacAdd x y).toNat =
      if x.toNat + y.toNat < 65536 then x.toNat + y.toNat else x.toNat + y.toNat - 65535 := by
    simp only [eacAdd, BitVec.toNat_add, BitVec.toNat_setWidth, BitVec.msb_eq_decide, hs,
      BitVec.toNat_ofBool]
    split <;> rename_i small
    · rw [decide_eq_false (by omega)]
      simp
      omega
    · rw [decide_eq_true (by omega)]
      simp
      omega
  rw [hadd]
  split
  · exact ⟨⟨by omega, by omega⟩, by omega⟩
  · exact ⟨⟨by omega, by omega⟩, by omega⟩

theorem isEac_foldl {x : BitVec 16} (h : IsEac n x.toNat) :
    IsEac (n + o.sum l) ((paddedWords o l).foldl eacAdd x).toNat := by
  induction l using paddedWords.induct generalizing n x with
  | case1 a b l ih =>
    have := ih (isEac_eacAdd h (o.word a b))
    rwa [o.toNat_word, Nat.add_assoc, Nat.add_assoc, ← alt_cons, ← alt_cons] at this
  | case2 a =>
    have := isEac_eacAdd h (o.word a 0)
    rw [o.toNat_word] at this
    simpa [paddedWords] using this
  | case3 => simpa [paddedWords] using h

theorem isEac_eacSum (b : List (BitVec 8)) : IsEac (o.sum b) (eacSum o b).toNat := by
  have := isEac_foldl o b (x := 0) ⟨Stands.refl 0, by simp⟩
  rwa [Nat.zero_add] at this

/-! ## Adding words -/

variable {sum : BitVec 32}

theorem toNat_reduce (sum : BitVec 32) :
    (reduce sum).toNat = if fold sum.toNat > 65535 then fold sum.toNat - 65535
      else fold sum.toNat := by
  have half : ((sum.extractLsb' 0 16).setWidth 32 +
      (sum.extractLsb' 16 16).setWidth 32).toNat = fold sum.toNat := by
    simp only [BitVec.toNat_add, BitVec.toNat_setWidth, BitVec.extractLsb'_toNat, fold,
      Nat.shiftRight_eq_div_pow, Nat.pow_zero, Nat.div_one]
    have hi : sum.toNat / 2 ^ 16 < 2 ^ 16 := by omega
    rw [Nat.mod_eq_of_lt hi]
    omega
  simp only [reduce, half]
  split
  · rw [BitVec.toNat_sub, show (65535 : BitVec 32).toNat = 65535 from rfl]
    omega
  · exact half

theorem isEac_reduce (h : Stands n sum.toNat) : IsEac n (reduce sum).toNat := by
  obtain ⟨hmod, hzero⟩ := h.fold
  have hfold : fold sum.toNat ≤ 131070 := by
    simp only [fold]
    omega
  rw [toNat_reduce]
  refine ⟨⟨?_, ?_⟩, ?_⟩ <;> split <;> omega

/-- The shift that swaps the sum, after the carries are folded in. -/
theorem toNat_reduce_shift (h : Stands n sum.toNat) :
    Stands (256 * n) (reduce sum <<< 8).toNat ∧ (reduce sum <<< 8).toNat ≤ 2 ^ 24 := by
  have eac := isEac_reduce h
  have hlt := eac.lt
  have hs : (reduce sum <<< 8).toNat = 256 * (reduce sum).toNat := by
    rw [BitVec.toNat_shiftLeft]
    omega
  rw [hs]
  exact ⟨eac.toStands.shift, by omega⟩

/-- `sum += s_util.s`. -/
theorem toNat_add_word (sum : BitVec 32) (a b : BitVec 8) (small : sum.toNat + 65535 < 2 ^ 32) :
    (sum + (o.word a b).setWidth 32).toNat =
      sum.toNat + (o.fst * a.toNat + o.snd * b.toNat) := by
  rw [BitVec.toNat_add, BitVec.toNat_setWidth, ← o.toNat_word]
  omega

/-- What the byte that waits for its other half adds. -/
def pending (o : ByteOrder) : Option (BitVec 8) → ℕ
  | none => 0
  | some c => o.fst * c.toNat

/-- The bytes of the whole words of a string. -/
def evenPart : List (BitVec 8) → List (BitVec 8)
  | a :: b :: l => a :: b :: evenPart l
  | _ => []

/-- The byte at the end of a string of odd length. -/
def oddByte (w : List (BitVec 8)) : Option (BitVec 8) :=
  if w.length % 2 = 1 then w.getLast? else none

theorem oddByte_cons_cons (a b : BitVec 8) (w : List (BitVec 8)) :
    oddByte (a :: b :: w) = oddByte w := by
  have parity : (a :: b :: w).length % 2 = w.length % 2 := by
    simp only [length_cons]
    omega
  simp only [oddByte, parity]
  cases w <;> simp

theorem length_evenPart : (evenPart l).length = l.length / 2 * 2 := by
  induction l using evenPart.induct with
  | case1 a b l ih =>
    simp only [evenPart, length_cons, ih]
    omega
  | case2 l short =>
    match l, short with
    | [], _ => rfl
    | [_], _ => simp [evenPart]
    | a :: b :: w, short => exact absurd rfl (short a b w)

theorem evenPart_append : evenPart l ++ (oddByte l).toList = l := by
  induction l using evenPart.induct with
  | case1 a b l ih => rw [oddByte_cons_cons, evenPart, cons_append, cons_append, ih]
  | case2 l short =>
    match l, short with
    | [], _ => rfl
    | [_], _ => rfl
    | a :: b :: w, short => exact absurd rfl (short a b w)

/-- The whole words of a string, and the byte at its end. -/
theorem sum_eq_evenPart : o.sum l = o.sum (evenPart l) + pending o (oddByte l) := by
  conv_lhs => rw [← evenPart_append l]
  rw [ByteOrder.sum, alt_append, length_evenPart]
  cases oddByte l <;> simp [pending]

theorem toNat_addWords {l : List (BitVec 8)} (small : sum.toNat + 65535 * (l.length / 2) < 2 ^ 32) :
    (addWords o sum l).toNat = sum.toNat + o.sum (evenPart l) ∧
      (addWords o sum l).toNat ≤ sum.toNat + 65535 * (l.length / 2) := by
  induction sum, l using addWords.induct o with
  | case1 sum a b w ih =>
    simp only [length_cons] at small
    have step := toNat_add_word o sum a b (by omega)
    rw [← o.toNat_word] at step
    obtain ⟨heq, hle⟩ := ih (by omega)
    rw [step] at heq hle
    simp only [addWords, evenPart, ByteOrder.sum, alt_cons, length_cons]
    rw [o.toNat_word] at heq
    exact ⟨by rw [heq]; ring, by omega⟩
  | case2 l sum short =>
    match l, short with
    | [], _ => simp [addWords, evenPart]
    | [a], _ => simp [addWords, evenPart]
    | a :: b :: w, short => exact absurd rfl (short a b w)

/-! ## One mbuf -/

/-- The groups of 8 bytes, and what is left. -/
theorem cut_bulk (w : List (BitVec 8)) :
    ∃ k l, w.take (w.length / 8 * 8) = k ∧ w.drop (w.length / 8 * 8) = l ∧ k ++ l = w ∧
      k.length = w.length / 8 * 8 ∧ l.length = w.length % 8 := by
  refine ⟨_, _, rfl, rfl, take_append_drop _ _, ?_, ?_⟩
  · rw [length_take]
    omega
  · rw [length_drop]
    omega

/-- The words of both loops.  The carries are folded in between the two. -/
theorem stands_addWords (o : ByteOrder) {k l : List (BitVec 8)} (h : Stands n sum.toNat)
    (even : k.length % 2 = 0) (small : sum.toNat + 65535 * (k.length / 2) < 2 ^ 32)
    (short : l.length < 8) :
    Stands (n + o.sum (k ++ evenPart l))
        (addWords o (reduce (addWords o sum k)) l).toNat ∧
      (addWords o (reduce (addWords o sum k)) l).toNat < 2 ^ 19 := by
  obtain ⟨hk, -⟩ := toNat_addWords o small
  have whole := sum_eq_evenPart o k
  rw [oddByte, if_neg (by omega), pending, Nat.add_zero] at whole
  rw [← whole] at hk
  have eac : IsEac (n + o.sum k) (reduce (addWords o sum k)).toNat :=
    isEac_reduce (by rw [hk]; exact h.add)
  have hlt := eac.lt
  obtain ⟨hl, hle⟩ := @toNat_addWords o (reduce (addWords o sum k)) l (by omega)
  refine ⟨?_, by omega⟩
  rw [hl, ByteOrder.sum, alt_append, if_pos even, ← Nat.add_assoc]
  exact eac.toStands.add

/-- **The scan of aligned data.** -/
theorem stands_scanWords_none {w : List (BitVec 8)} (h : Stands n sum.toNat)
    (small : sum.toNat + 65535 * (w.length / 2) < 2 ^ 32) :
    Stands (n + o.sum w)
        ((scanWords o sum none w).1.toNat + pending o (scanWords o sum none w).2) ∧
      ((scanWords o sum none w).2 = none ↔ w.length % 2 = 0) ∧
      (scanWords o sum none w).1.toNat ≤ max sum.toNat (2 ^ 19) + 65535 * (w.length / 2) := by
  obtain ⟨k, l, hk, hl, cut, hklen, hllen⟩ := cut_bulk w
  simp only [scanWords, hk, hl]
  split
  · rename_i rest
    rw [rest, append_nil] at cut
    rw [← cut] at small ⊢
    obtain ⟨heq, hle⟩ := toNat_addWords o small
    have even : k.length % 2 = 0 := by omega
    have whole := sum_eq_evenPart o k
    rw [oddByte, if_neg (by omega), pending] at whole
    refine ⟨?_, by simp [even], by dsimp only; omega⟩
    rw [pending, heq, whole]
    exact h.add
  · rename_i rest
    obtain ⟨hst, hlt⟩ := stands_addWords o (l := l) h (k := k) (by omega) (by omega) (by omega)
    refine ⟨?_, ?_, by dsimp only; omega⟩
    · have whole : o.sum w = o.sum (k ++ evenPart l) + pending o (oddByte l) := by
        simp only [← cut, ByteOrder.sum, alt_append, if_pos (show k.length % 2 = 0 by omega)]
        rw [Nat.add_assoc]
        exact congrArg _ (sum_eq_evenPart o l)
      rw [whole, ← Nat.add_assoc]
      exact hst.add
    · have last : l.getLast? ≠ none := by simpa using rest
      simp only [ite_eq_right_iff, last, imp_false]
      omega

/-- **The scan of data at an odd address.**  While it lasts the sum is swapped, so the
first byte `c` makes a word with the byte at the end, or waits again. -/
theorem stands_scanWords_some {c : BitVec 8} {w : List (BitVec 8)} (h : Stands (256 * n) sum.toNat)
    (bound : sum.toNat ≤ 2 ^ 24) (small : w.length < 65536) :
    Stands (n + o.sum (c :: w))
        ((scanWords o sum (some c) w).1.toNat + pending o (scanWords o sum (some c) w).2) ∧
      ((scanWords o sum (some c) w).2 = none ↔ w.length % 2 = 1) ∧
      (scanWords o sum (some c) w).1.toNat ≤ 2 ^ 24 + 65535 * (w.length % 2) := by
  obtain ⟨k, l, hk, hl, cut, hklen, hllen⟩ := cut_bulk w
  obtain ⟨hst, hlt⟩ := stands_addWords o (l := l) h (k := k) (by omega) (by omega) (by omega)
  obtain ⟨swapped, hle⟩ := toNat_reduce_shift hst
  -- the sum has been swapped twice, once before the words of the mbuf and once after
  have back : Stands (n + alt o.snd o.fst (k ++ evenPart l))
      (reduce (addWords o (reduce (addWords o sum k)) l) <<< 8).toNat := by
    refine Stands.trans ?_ swapped
    rw [Nat.mul_add]
    exact (stands_shift_shift n).add_add (stands_swap o.weights _)
  simp only [scanWords, hk, hl]
  have split := evenPart_append l
  by_cases odd : l.length % 2 = 1
  · have last : l.getLast? = some (l.getLastD 0) := by
      rw [getLastD_eq_getLast?]
      cases hlast : l.getLast? with
      | none =>
        rw [getLast?_eq_none_iff] at hlast
        simp [hlast] at odd
      | some d => rfl
    rw [oddByte, if_pos odd, last] at split
    have word := toNat_add_word o (reduce (addWords o (reduce (addWords o sum k)) l) <<< 8) c
      (l.getLastD 0) (by omega)
    rw [if_pos odd]
    refine ⟨?_, by simp only [true_iff]; omega, ?_⟩
    · have whole : n + o.sum (c :: w) = n + alt o.snd o.fst (k ++ evenPart l) +
          (o.fst * c.toNat + o.snd * (l.getLastD 0).toNat) := by
        have even : (k ++ evenPart l).length % 2 = 0 := by
          rw [length_append, length_evenPart]
          omega
        have tail : alt o.snd o.fst w =
            alt o.snd o.fst (k ++ evenPart l) + o.snd * (l.getLastD 0).toNat := by
          conv_lhs => rw [← cut, ← split, ← append_assoc, alt_append, if_pos even]
          simp
        rw [ByteOrder.sum, alt_cons, tail]
        ring
      rw [pending, word, whole]
      exact back.add
    · rw [word, ← o.toNat_word]
      omega
  · rw [oddByte, if_neg odd, Option.toList_none, append_nil] at split
    rw [split, cut] at back
    rw [if_neg odd]
    refine ⟨?_, by simp only [reduceCtorEq, false_iff]; omega, by dsimp only; omega⟩
    have total := back.add (k := o.fst * c.toNat)
    rw [ByteOrder.sum, alt_cons, ← Nat.add_assoc, Nat.add_right_comm]
    exact total

/-! ## The chain -/

/-- What the variables of the loop say when the bytes `pre` have been read. -/
structure Scanned (o : ByteOrder) (pre : List (BitVec 8)) (s : Scan) : Prop where
  stands : Stands (o.sum pre) (s.sum.toNat + pending o s.half)
  half_iff : s.half = none ↔ pre.length % 2 = 0
  bound : s.sum.toNat ≤ 2 ^ 24 + 65535 * (pre.length / 2)

section

variable {o : ByteOrder} {pre : List (BitVec 8)} {s : Scan}

section

variable (h : Scanned o pre s)

include h

/-- The byte that waits and the first byte of the next mbuf. -/
theorem Scanned.completeWord {c : BitVec 8} (half : s.half = some c)
    (small : pre.length < 65535) (b : BitVec 8) (len : ℕ) :
    Scanned o (pre ++ [b]) ⟨s.sum + (o.word c b).setWidth 32, none, len⟩ := by
  obtain ⟨hstands, hhalf, hbound⟩ := h
  have odd : pre.length % 2 = 1 := by
    have : ¬ pre.length % 2 = 0 := by simp [← hhalf, half]
    omega
  have word := toNat_add_word o s.sum c b (by omega)
  refine ⟨?_, ?_, ?_⟩
  · rw [ByteOrder.sum, alt_append, if_neg (by omega), alt_cons, alt_nil, Nat.add_zero, word,
      ← Nat.add_assoc]
    rw [half] at hstands
    exact hstands.add
  · simp only [length_append, length_singleton, true_iff]
    omega
  · simp only [length_append, length_singleton]
    rw [word, ← o.toNat_word]
    omega

/-- The rest of an mbuf at an even address, when no byte waits. -/
theorem Scanned.aligned (half : s.half = none) (w : List (BitVec 8))
    (small : pre.length + w.length ≤ 65535) (len : ℕ) :
    Scanned o (pre ++ w) ⟨(scanWords o s.sum none w).1, (scanWords o s.sum none w).2, len⟩ := by
  obtain ⟨hstands, hhalf, hbound⟩ := h
  have even : pre.length % 2 = 0 := hhalf.mp half
  rw [half, pending] at hstands
  obtain ⟨hst, hnone, hle⟩ := stands_scanWords_none o hstands (w := w) (by omega)
  refine ⟨?_, hnone.trans ?_, hle.trans ?_⟩
  · rwa [ByteOrder.sum, alt_append, if_pos even]
  · simp only [length_append]
    omega
  · simp only [length_append]
    omega

/-- The rest of an mbuf at an odd address, when no byte waits. -/
theorem Scanned.swapped (half : s.half = none) (c : BitVec 8)
    (w : List (BitVec 8)) (small : pre.length + w.length < 65535) (len : ℕ) :
    Scanned o (pre ++ c :: w) ⟨(scanWords o (reduce s.sum <<< 8) (some c) w).1,
      (scanWords o (reduce s.sum <<< 8) (some c) w).2, len⟩ := by
  obtain ⟨hstands, hhalf, -⟩ := h
  have even : pre.length % 2 = 0 := hhalf.mp half
  rw [half, pending] at hstands
  obtain ⟨hswapped, hle⟩ := toNat_reduce_shift hstands
  obtain ⟨hst, hnone, hle'⟩ := stands_scanWords_some o (w := w) hswapped hle (by omega)
  refine ⟨?_, hnone.trans ?_, hle'.trans ?_⟩
  · rwa [ByteOrder.sum, alt_append, if_pos even]
  · simp only [length_append, length_cons]
    omega
  · simp only [length_append, length_cons]
    omega

/-- The rest of an mbuf, when no byte waits. -/
theorem Scanned.scanWords (half : s.half = none) (odd : Bool) (w : List (BitVec 8))
    (small : pre.length + w.length ≤ 65535) (len : ℕ) : let r := match odd, w with
      | true, c :: w => scanWords o (reduce s.sum <<< 8) (some c) w
      | _, w => scanWords o s.sum none w
    Scanned o (pre ++ w) ⟨r.1, r.2, len⟩ := by
  match odd, w with
  | true, c :: w => exact h.swapped half c w (by simp only [length_cons] at small; omega) len
  | true, [] => exact h.aligned half [] small len
  | false, w => exact h.aligned half w small len

/-- **One mbuf**, of any length and at any address. -/
theorem Scanned.scanMbuf (pos : 0 < s.len) (small : pre.length + s.len ≤ 65535) (m : Mbuf) :
    Scanned o (pre ++ m.bytes.take s.len) (scanMbuf o s m) ∧
      (scanMbuf o s m).len = s.len - m.bytes.length := by
  obtain ⟨addr, bytes⟩ := m
  cases bytes with
  | nil => simpa [InCksum.scanMbuf] using h
  | cons b w =>
    cases half : s.half with
    | none =>
      have := h.scanWords half addr ((b :: w).take s.len)
        (by rw [length_take]; omega) (s.len - ((b :: w).take s.len).length)
      simp only [InCksum.scanMbuf, InCksum.completeWord, half, reduceCtorEq, if_false]
      refine ⟨this, ?_⟩
      rw [length_take]
      omega
    | some c =>
      have hc := h.completeWord half (by omega) b (s.len - 1)
      have := hc.scanWords rfl (!addr) (w.take (s.len - 1))
        (by simp only [length_append, length_singleton, length_take]; omega)
        (s.len - 1 - (w.take (s.len - 1)).length)
      simp only [InCksum.scanMbuf, InCksum.completeWord, half, reduceCtorEq, if_false]
      obtain ⟨n, hn⟩ : ∃ n, s.len = n + 1 := ⟨s.len - 1, by omega⟩
      rw [hn] at this ⊢
      rw [take_succ_cons, ← singleton_append, ← append_assoc]
      refine ⟨this, ?_⟩
      simp only [length_take, length_cons]
      omega

end

/-- **The chain.**  The loop reads the first `len` bytes, however they are split. -/
theorem Scanned.scanChain (m : List Mbuf) (h : Scanned o pre s)
    (small : pre.length + s.len ≤ 65535) :
    Scanned o (pre ++ (m.flatMap Mbuf.bytes).take s.len) (scanChain o s m) := by
  induction m generalizing pre s with
  | nil => simpa [InCksum.scanChain] using h
  | cons m ms ih =>
    rw [InCksum.scanChain]
    split
    · rename_i done
      simpa [done] using h
    · obtain ⟨hstep, hlen⟩ := h.scanMbuf (by omega) small m
      have hrest := ih hstep
        (by rw [length_append, length_take]; omega)
      rwa [hlen, append_assoc, ← take_append, ← flatMap_cons] at hrest

end

theorem scanned_start (len : ℕ) : Scanned o [] ⟨0, none, len⟩ :=
  ⟨Stands.refl 0, by simp, by simp⟩

/-- The last step: a byte that still waits makes a word with a zero byte. -/
theorem isEac_inCksum {m : List Mbuf} {b rest : List (BitVec 8)}
    (starts : m.flatMap Mbuf.bytes = b ++ rest) (small : b.length ≤ 65535) :
    ∃ s, IsEac (o.sum b) s ∧ inCksum o m b.length = ~~~BitVec.ofNat 16 s := by
  obtain ⟨hstands, -, hbound⟩ :=
    (scanned_start o b.length).scanChain m (by simpa using small)
  rw [starts, nil_append, take_left] at hstands hbound
  simp only [inCksum]
  set s := scanChain o ⟨0, none, b.length⟩ m
  cases half : s.half with
  | none =>
    rw [half, pending] at hstands
    exact ⟨_, isEac_reduce hstands, by congr 1⟩
  | some c =>
    rw [half, pending] at hstands
    have word := toNat_add_word o s.sum c 0 (by omega)
    rw [show (0 : BitVec 8).toNat = 0 from rfl, Nat.mul_zero, Nat.add_zero] at word
    rw [← word] at hstands
    exact ⟨_, isEac_reduce hstands, by congr 1⟩

/-- **The Internet checksum.**  The checksum of the first bytes `b` of a chain is the
complement of their sum with end-around carry. -/
theorem inCksum_eq (o : ByteOrder) (m : List Mbuf) (b rest : List (BitVec 8))
    (starts : m.flatMap Mbuf.bytes = b ++ rest) (small : b.length ≤ 65535) :
    inCksum o m b.length = ~~~eacSum o b := by
  obtain ⟨s, eac, heq⟩ := isEac_inCksum o starts small
  rw [heq, eac.unique (isEac_eacSum o b), BitVec.ofNat_toNat, BitVec.setWidth_eq]

/-- Five bytes in three mbufs, the last at an odd address, followed by one more byte. -/
theorem inCksum_eq_split :
    inCksum .little [⟨false, [1, 2, 3]⟩, ⟨false, []⟩, ⟨true, [4, 255, 6]⟩] 5 =
        ~~~eacSum .little [1, 2, 3, 4, 255] :=
  inCksum_eq .little _ [1, 2, 3, 4, 255] [6] rfl (by decide)

theorem sum_big {l : List (BitVec 8)} (even : l.length % 2 = 0) :
    ByteOrder.big.sum l = wordSum l := by
  induction l using words.induct with
  | case1 a b l ih =>
    simp only [length_cons] at even
    have word := ByteOrder.big.toNat_word a b
    rw [ByteOrder.word] at word
    rw [wordSum_cons_cons, word, ← ih (by omega), ByteOrder.sum, alt_cons, alt_cons, Nat.add_assoc]
  | case2 l short =>
    rcases l with - | ⟨a, - | ⟨b, l⟩⟩
    · rfl
    · simp at even
    · exact absurd rfl (short a b l)

/-- **The checksum of an even number of aligned bytes in one mbuf** is the
complement of the sum of their words with end-around carry. -/
theorem inCksum_single {l : List (BitVec 8)} (even : l.length % 2 = 0) (small : l.length < 65536) :
    ∃ s, IsEac (wordSum l) s ∧
      inCksum .big [⟨false, l⟩] l.length = ~~~BitVec.ofNat 16 s := by
  rw [← sum_big even]
  exact isEac_inCksum .big (show _ = l ++ [] by simp) (by omega)

end BSDLite2.InCksum
