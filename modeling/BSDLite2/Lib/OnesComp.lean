import Mathlib.Data.BitVec
import Mathlib.Tactic

/-!
# Sums with end-around carry

A sum of 16-bit words with end-around carry is a number below `65536` that is the
sum modulo `65535` and is zero only if the sum is (`IsEac`).  There is one such number
for each sum, so ways of folding the carries that keep `IsEac` agree.

The words of a string of bytes are summed as its bytes under two weights in turn
(`alt`).  To begin one byte later is to exchange the weights, which is to multiply
the sum by `256` (`stands_swap`).
-/

namespace BSDLite2.OnesComp

/-- `s` stands for the sum `n`, its carries perhaps not folded in yet. -/
structure Stands (n s : ℕ) : Prop where
  mod_eq : s % 65535 = n % 65535
  zero_iff : s = 0 ↔ n = 0

/-- `s` is the sum `n` with end-around carry. -/
structure IsEac (n s : ℕ) : Prop extends Stands n s where
  lt : s < 65536

/-- Add the high half to the low half. -/
def fold (s : ℕ) : ℕ := s % 65536 + s / 65536

theorem Stands.refl (n : ℕ) : Stands n n := ⟨rfl, Iff.rfl⟩

variable {n s : ℕ}

theorem Stands.fold (h : Stands n s) : Stands n (fold s) := by
  obtain ⟨hmod, hzero⟩ := h
  constructor
  · rw [OnesComp.fold]
    omega
  · rw [OnesComp.fold]
    omega

theorem Stands.add {k : ℕ} (h : Stands n s) : Stands (n + k) (s + k) := by
  obtain ⟨hmod, hzero⟩ := h
  exact ⟨by omega, by omega⟩

theorem Stands.add_add {m t : ℕ} (h : Stands n s) (h' : Stands m t) : Stands (n + m) (s + t) := by
  obtain ⟨hmod, hzero⟩ := h
  obtain ⟨hmod', hzero'⟩ := h'
  exact ⟨by omega, by omega⟩

theorem Stands.trans {m : ℕ} (h : Stands n m) (h' : Stands m s) : Stands n s :=
  ⟨h'.mod_eq.trans h.mod_eq, h'.zero_iff.trans h.zero_iff⟩

theorem Stands.shift (h : Stands n s) : Stands (256 * n) (256 * s) := by
  obtain ⟨hmod, hzero⟩ := h
  exact ⟨by omega, by omega⟩

/-- A byte shifted twice. -/
theorem stands_shift_shift (n : ℕ) : Stands n (256 * (256 * n)) := ⟨by omega, by omega⟩

theorem IsEac.unique {t : ℕ} (hs : IsEac n s) (ht : IsEac n t) : s = t := by
  obtain ⟨⟨hsmod, hszero⟩, hslt⟩ := hs
  obtain ⟨⟨htmod, htzero⟩, htlt⟩ := ht
  omega

/-- Two folds are enough below `2 ^ 32`. -/
theorem Stands.isEac_fold_fold (h : Stands n s) (small : s < 2 ^ 32) :
    IsEac n (OnesComp.fold (OnesComp.fold s)) := by
  refine ⟨h.fold.fold, ?_⟩
  simp only [OnesComp.fold]
  omega

/-! ## Sums of words -/

/-- The sum of bytes under the weights `p` and `q` in turn. -/
def alt (p q : ℕ) : List (BitVec 8) → ℕ
  | [] => 0
  | a :: l => p * a.toNat + alt q p l

@[simp]
theorem alt_nil (p q : ℕ) : alt p q [] = 0 := rfl

@[simp]
theorem alt_cons (p q : ℕ) (a : BitVec 8) (l : List (BitVec 8)) :
    alt p q (a :: l) = p * a.toNat + alt q p l := rfl

theorem alt_append (p q : ℕ) (k l : List (BitVec 8)) :
    alt p q (k ++ l) = alt p q k + if k.length % 2 = 0 then alt p q l else alt q p l := by
  induction k generalizing p q with
  | nil => simp
  | cons a k ih =>
    rw [List.cons_append, alt_cons, alt_cons, ih, List.length_cons, Nat.add_assoc]
    rcases Nat.mod_two_eq_zero_or_one k.length with even | odd
    · rw [if_pos even, if_neg (by omega)]
    · rw [if_neg (by omega), if_pos (by omega)]

/-- The two weights of the bytes of a word, in either order. -/
def Weights (p q : ℕ) : Prop := p = 256 ∧ q = 1 ∨ p = 1 ∧ q = 256

theorem Weights.symm {p q : ℕ} (h : Weights p q) : Weights q p := by
  rcases h with ⟨rfl, rfl⟩ | ⟨rfl, rfl⟩
  · exact .inr ⟨rfl, rfl⟩
  · exact .inl ⟨rfl, rfl⟩

/-- **Beginning one byte later** multiplies a sum of words by `256`. -/
theorem stands_swap {p q : ℕ} (h : Weights p q) (l : List (BitVec 8)) :
    Stands (alt q p l) (256 * alt p q l) := by
  induction l generalizing p q with
  | nil => exact Stands.refl 0
  | cons a l ih =>
    rw [alt_cons, alt_cons, Nat.mul_add]
    refine Stands.add_add ?_ (ih h.symm)
    rcases h with ⟨rfl, rfl⟩ | ⟨rfl, rfl⟩
    · rw [Nat.one_mul]
      exact stands_shift_shift _
    · rw [Nat.one_mul]
      exact Stands.refl _

end BSDLite2.OnesComp
