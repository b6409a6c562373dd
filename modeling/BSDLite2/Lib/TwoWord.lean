import Mathlib.Data.BitVec
import Mathlib.Data.Int.ModEq
import Mathlib.Tactic

/-!
# Numbers of two words

A number of `w + w` bits is stored as a high word and a low word.  `Stores h l n` says
that the words `h` and `l` hold the integer `n` modulo `2 ^ (w + w)`.

Sums and differences are computed word by word (`Stores.add`, `Stores.sub`); whether
the low words carried is seen from the low word of the result, which is then below the
one it came from.  A word shifted by part of a word is split in two (`stores_shift`).
-/

namespace BSDLite2.TwoWord

open BitVec Nat

variable {w : ℕ}

/-! ## Words modulo `2 ^ w` -/

theorem cast_add (x y : BitVec w) : ((x + y).toNat : ℤ) ≡ x.toNat + y.toNat [ZMOD (2 ^ w : ℕ)] := by
  exact Int.natCast_modEq_iff.mpr (Nat.mod_modEq _ _)

theorem cast_mul (x y : BitVec w) : ((x * y).toNat : ℤ) ≡ x.toNat * y.toNat [ZMOD (2 ^ w : ℕ)] := by
  exact Int.natCast_modEq_iff.mpr (Nat.mod_modEq _ _)

theorem cast_sub (x y : BitVec w) : ((x - y).toNat : ℤ) ≡ x.toNat - y.toNat [ZMOD (2 ^ w : ℕ)] := by
  have h := cast_add (x - y) y
  simpa using (h.symm.sub_right (y.toNat : ℤ))

theorem cast_neg (x : BitVec w) : ((-x).toNat : ℤ) ≡ -x.toNat [ZMOD (2 ^ w : ℕ)] := by
  have h := cast_sub 0 x
  simpa using h

theorem cast_ite (p : Prop) [Decidable p] :
    ((if p then 1 else 0 : BitVec w).toNat : ℤ) ≡ if p then 1 else 0 [ZMOD (2 ^ w : ℕ)] := by
  split
  · rw [show (1 : BitVec w) = BitVec.ofNat w 1 from rfl]
    exact Int.natCast_modEq_iff.mpr (Nat.mod_modEq _ _)
  · simp

/-- The low words carry exactly if their sum is below one of them. -/
theorem add_carry (l b : BitVec w) :
    (l.toNat + b.toNat : ℤ) = (l + b).toNat + (if l + b < l then 1 else 0) * (2 ^ w : ℕ) := by
  simp only [lt_def, toNat_add]
  rcases lt_or_ge (l.toNat + b.toNat) (2 ^ w) with small | big
  · rw [mod_eq_of_lt small, if_neg (by omega)]
    push_cast
    ring
  · rw [mod_eq_sub_mod big, mod_eq_of_lt (by omega), if_pos (by omega)]
    push_cast [big]
    ring

theorem add_lt_right_iff (l b : BitVec w) : l + b < b ↔ l + b < l := by
  simp only [lt_def, toNat_add]
  rcases lt_or_ge (l.toNat + b.toNat) (2 ^ w) with small | big
  · rw [mod_eq_of_lt small]
    omega
  · rw [mod_eq_sub_mod big, mod_eq_of_lt (by omega)]
    omega

/-- The low words borrow exactly if their difference is above the first. -/
theorem sub_borrow (l b : BitVec w) :
    (l.toNat - b.toNat : ℤ) = (l - b).toNat - (if l < l - b then 1 else 0) * (2 ^ w : ℕ) := by
  have h := add_carry (l - b) b
  rw [sub_add_cancel] at h
  linarith

/-! ## Two words -/

/-- The words `h` and `l` hold `n`. -/
def Stores (h l : BitVec w) (n : ℤ) : Prop :=
  (h.toNat * (2 ^ w : ℕ) + l.toNat : ℤ) ≡ n [ZMOD (2 ^ w * 2 ^ w : ℕ)]

section

variable {h l a b : BitVec w} {n m : ℤ}

theorem stores_self (h l : BitVec w) : Stores h l (h.toNat * (2 ^ w : ℕ) + l.toNat) :=
  Int.ModEq.refl _

/-- Only the high word modulo `2 ^ w` matters. -/
theorem Stores.of_high {k : ℤ} (high : (h.toNat : ℤ) ≡ k [ZMOD (2 ^ w : ℕ)])
    (eq : k * (2 ^ w : ℕ) + l.toNat = n) : Stores h l n := by
  rw [← eq, Stores]
  exact high.mul_right'.add_right _

theorem Stores.congr (hn : Stores h l n) (eq : n = m) : Stores h l m := eq ▸ hn

theorem Stores.add (hn : Stores h l n) (hm : Stores a b m) :
    Stores (h + (a + if l + b < l then 1 else 0)) (l + b) (n + m) := by
  have carry := add_carry l b
  have high : ((h + (a + if l + b < l then 1 else 0)).toNat : ℤ) ≡
      h.toNat + (a.toNat + if l + b < l then 1 else 0) [ZMOD (2 ^ w : ℕ)] :=
    (cast_add _ _).trans (Int.ModEq.add_left _ ((cast_add _ _).trans
      (Int.ModEq.add_left _ (cast_ite _))))
  refine Int.ModEq.trans (Stores.of_high high ?_) (Int.ModEq.add hn hm)
  linarith

theorem Stores.sub (hn : Stores h l n) (hm : Stores a b m) :
    Stores (h - (a + if l < l - b then 1 else 0)) (l - b) (n - m) := by
  have borrow := sub_borrow l b
  have high : ((h - (a + if l < l - b then 1 else 0)).toNat : ℤ) ≡
      h.toNat - (a.toNat + if l < l - b then 1 else 0) [ZMOD (2 ^ w : ℕ)] :=
    (cast_sub _ _).trans (Int.ModEq.sub_left _ ((cast_add _ _).trans
      (Int.ModEq.add_left _ (cast_ite _))))
  refine Int.ModEq.trans (Stores.of_high high ?_) (Int.ModEq.sub hn hm)
  linarith

/-- A word shifted by part of a word. -/
theorem stores_shift (x : BitVec w) {k : ℕ} (hk : k ≤ w) :
    Stores (x >>> (w - k)) (x <<< k) (2 ^ k * x.toNat) := by
  have hpow : 2 ^ w = 2 ^ k * 2 ^ (w - k) := by rw [← Nat.pow_add, Nat.add_sub_cancel' hk]
  have split : x.toNat / 2 ^ (w - k) * 2 ^ w + x.toNat * 2 ^ k % 2 ^ w = 2 ^ k * x.toNat := by
    rw [hpow, Nat.mul_comm x.toNat, Nat.mul_mod_mul_left]
    conv_rhs => rw [← Nat.div_add_mod x.toNat (2 ^ (w - k))]
    ring
  refine Int.ModEq.trans ?_ (Int.ModEq.refl _)
  rw [toNat_ushiftRight, toNat_shiftLeft, Nat.shiftRight_eq_div_pow, Nat.shiftLeft_eq]
  exact_mod_cast congrArg (fun y : ℕ => (y : ℤ) % (2 ^ w * 2 ^ w : ℕ)) split

theorem toNat_append (h l : BitVec w) : (h ++ l).toNat = h.toNat * 2 ^ w + l.toNat := by
  rw [BitVec.toNat_append, ← Nat.shiftLeft_add_eq_or_of_lt l.isLt, Nat.shiftLeft_eq]

/-- Two words that hold a number are that number. -/
theorem Stores.append_eq (hn : Stores h l n) {x : BitVec (w + w)}
    (hx : (x.toNat : ℤ) ≡ n [ZMOD (2 ^ w * 2 ^ w : ℕ)]) : h ++ l = x := by
  have same : ((h ++ l).toNat : ℤ) ≡ x.toNat [ZMOD (2 ^ w * 2 ^ w : ℕ)] := by
    rw [toNat_append]
    exact (show _ ≡ n [ZMOD _] by simpa [Stores] using hn).trans (by simpa using hx.symm)
  apply eq_of_toNat_eq
  refine (Int.natCast_modEq_iff.mp same).eq_of_lt_of_lt ?_ ?_
  · rw [← Nat.pow_add]
    exact (h ++ l).isLt
  · rw [← Nat.pow_add]
    exact x.isLt

/-- The number of two words that hold one. -/
theorem Stores.toNat {k : ℕ} (hk : Stores h l k) (lt : k < 2 ^ w * 2 ^ w) : (h ++ l).toNat = k := by
  rw [← Nat.pow_add] at lt
  have value : (BitVec.ofNat (w + w) k).toNat = k := by
    rw [toNat_ofNat, mod_eq_of_lt lt]
  rw [hk.append_eq (by rw [value]), value]

end

end BSDLite2.TwoWord
