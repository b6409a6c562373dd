import BSDLite2.Lib.TwoWord
import BSDLite2.Libkern.Quad

/-!
# Multiplication of quads (`libkern/muldi3.c`)

A quad has 64 bits, a long 32.  `__muldi3` multiplies two quads from products of
longs, and `__lmulq` two longs from products of their halves.  Both use

`u v = (2^2n + 2^n) u1 v1 + 2^n (u1 - u0) (v0 - v1) + (2^n + 1) u0 v0`

with the differences taken in absolute value and their sign kept apart.

* `lmulq`, `toNat_lmulq` — the product of two longs, exactly;
* `muldi3`, `muldi3_eq` — the product of two quads modulo `2 ^ 64`.
-/

namespace BSDLite2.Libkern

open TwoWord BitVec

variable {n : ℤ}

/-- A long shifted by half a long. -/
theorem stores_up (x : BitVec 32) : Stores (hhalf x) (lhup x) (65536 * x.toNat) :=
  stores_shift x (k := 16) (by norm_num)

/-! ## The middle product -/

/-- `udiff`, `vdiff` and the sign of their product. -/
def diffs (u1 u0 v1 v0 : BitVec 32) : BitVec 32 × BitVec 32 × Bool :=
  let (udiff, neg) := if u1 ≥ u0 then (u1 - u0, false) else (u0 - u1, true)
  let (vdiff, neg) := if v0 ≥ v1 then (v0 - v1, neg) else (v1 - v0, !neg)
  (udiff, vdiff, neg)

/-- A number with its sign kept apart. -/
def signed (neg : Bool) (x : ℤ) : ℤ := if neg then -x else x

theorem toNat_sub_of_le {x y : BitVec 32} (h : y ≤ x) :
    ((x - y).toNat : ℤ) = x.toNat - y.toNat := by
  rw [BitVec.toNat_sub_of_le h, Nat.cast_sub h]

/-- The differences have the sizes of the true ones, and the sign is that of their
product. -/
theorem diffs_spec (u1 u0 v1 v0 : BitVec 32) :
    signed (diffs u1 u0 v1 v0).2.2 ((diffs u1 u0 v1 v0).1.toNat * (diffs u1 u0 v1 v0).2.1.toNat) =
      (u1.toNat - u0.toNat) * (v0.toNat - v1.toNat) := by
  have total (x y : BitVec 32) (h : ¬ x ≥ y) : x ≤ y := BitVec.le_of_lt (BitVec.not_le.mp h)
  by_cases hu : u1 ≥ u0 <;> by_cases hv : v0 ≥ v1 <;>
    simp only [diffs, signed, hu, hv, if_true, if_false, Bool.not_false, Bool.not_true,
      Bool.false_eq_true]
  · rw [toNat_sub_of_le hu, toNat_sub_of_le hv]
  · rw [toNat_sub_of_le hu, toNat_sub_of_le (total _ _ hv)]
    ring
  · rw [toNat_sub_of_le (total _ _ hu), toNat_sub_of_le hv]
    ring
  · rw [toNat_sub_of_le (total _ _ hu), toNat_sub_of_le (total _ _ hv)]
    ring

/-! ## The product of two longs -/

/-- `prodl += LHUP(x); prodh += HHALF(x) + (prodl < was);` -/
def addUp (prod : BitVec 32 × BitVec 32) (x : BitVec 32) : BitVec 32 × BitVec 32 :=
  let prodl := prod.2 + lhup x
  (prod.1 + (hhalf x + if prodl < prod.2 then 1 else 0), prodl)

/-- `prodl -= LHUP(x); prodh -= HHALF(x) + (prodl > was);` -/
def subUp (prod : BitVec 32 × BitVec 32) (x : BitVec 32) : BitVec 32 × BitVec 32 :=
  let prodl := prod.2 - lhup x
  (prod.1 - (hhalf x + if prodl > prod.2 then 1 else 0), prodl)

/-- **`__lmulq`.** -/
def lmulq (u v : BitVec 32) : BitVec 64 :=
  let u1 := hhalf u
  let u0 := lhalf u
  let v1 := hhalf v
  let v0 := lhalf v
  let low := u0 * v0
  if u1 = 0 ∧ v1 = 0 then low.setWidth 64
  else
    let (udiff, vdiff, neg) := diffs u1 u0 v1 v0
    let mid := udiff * vdiff
    let high := u1 * v1
    let prod := (high + hhalf high, lhup high)
    let prod := if neg then subUp prod mid else addUp prod mid
    let prod := addUp prod low
    let prodl := prod.2 + low
    let prodh := if prodl < low then prod.1 + 1 else prod.1
    prodh ++ prodl

/-- The halves of a long fit a long when they are multiplied. -/
theorem toNat_mul_of_lt {x y : BitVec 32} (hx : x.toNat < 65536) (hy : y.toNat < 65536) :
    (x * y).toNat = x.toNat * y.toNat := by
  rw [toNat_mul, Nat.mod_eq_of_lt]
  calc x.toNat * y.toNat < 65536 * 65536 := Nat.mul_lt_mul'' hx hy
    _ = 2 ^ 32 := by norm_num

variable {h l : BitVec 32}

theorem stores_addUp (hn : Stores h l n) (x : BitVec 32) :
    Stores (addUp (h, l) x).1 (addUp (h, l) x).2 (n + 65536 * x.toNat) :=
  hn.add (stores_up x)

theorem stores_subUp (hn : Stores h l n) (x : BitVec 32) :
    Stores (subUp (h, l) x).1 (subUp (h, l) x).2 (n - 65536 * x.toNat) :=
  hn.sub (stores_up x)

theorem stores_signedUp (hn : Stores h l n) (neg : Bool) (x : BitVec 32) :
    Stores (if neg then subUp (h, l) x else addUp (h, l) x).1
      (if neg then subUp (h, l) x else addUp (h, l) x).2 (n + 65536 * signed neg x.toNat) := by
  cases neg with
  | false => exact stores_addUp hn x
  | true => exact (stores_subUp hn x).congr (by simp only [signed, if_true]; ring)

/-- `prod = (high << 2N) + (high << N)` -/
theorem stores_high (high : BitVec 32) :
    Stores (high + hhalf high) (lhup high) ((2 ^ 32 + 65536) * high.toNat) := by
  have base : Stores high 0 (2 ^ 32 * high.toNat) :=
    Stores.of_high (Int.ModEq.refl _) (by simp; ring)
  have sum := base.add (stores_up high)
  have none : ¬ 0 + lhup high < 0 := by simp
  rw [if_neg none, add_zero, zero_add] at sum
  exact sum.congr (by ring)

/-- `... + low` -/
theorem stores_addLow (hn : Stores h l n) (x : BitVec 32) :
    Stores (if l + x < x then h + 1 else h) (l + x) (n + x.toNat) := by
  have base : Stores 0 x x.toNat := (stores_self 0 x).congr (by simp)
  have sum := hn.add base
  simp only [add_lt_right_iff]
  split at sum <;> rename_i carry
  · rwa [if_pos carry]
  · rwa [if_neg carry, ← add_zero h]

/-- The middle product of the halves of longs fits a long too. -/
theorem diffs_lt {u1 u0 v1 v0 : BitVec 32} (hu1 : u1.toNat < 65536) (hu0 : u0.toNat < 65536)
    (hv1 : v1.toNat < 65536) (hv0 : v0.toNat < 65536) :
    (diffs u1 u0 v1 v0).1.toNat < 65536 ∧ (diffs u1 u0 v1 v0).2.1.toNat < 65536 := by
  have bound {x y : BitVec 32} (h : y ≤ x) (hx : x.toNat < 65536) : (x - y).toNat < 65536 := by
    rw [BitVec.toNat_sub_of_le h]
    omega
  have total {x y : BitVec 32} (h : ¬ x ≥ y) : x ≤ y := BitVec.le_of_lt (BitVec.not_le.mp h)
  by_cases hu : u1 ≥ u0 <;> by_cases hv : v0 ≥ v1 <;>
    simp only [diffs, hu, hv, if_true, if_false]
  · exact ⟨bound hu hu1, bound hv hv0⟩
  · exact ⟨bound hu hu1, bound (total hv) hv1⟩
  · exact ⟨bound (total hu) hu0, bound hv hv0⟩
  · exact ⟨bound (total hu) hu0, bound (total hv) hv1⟩

/-- **The product of two longs.** -/
theorem toNat_lmulq (u v : BitVec 32) : (lmulq u v).toNat = u.toNat * v.toNat := by
  have hlow := toNat_mul_of_lt (lhalf_lt u) (lhalf_lt v)
  have hhigh := toNat_mul_of_lt (hhalf_lt u) (hhalf_lt v)
  obtain ⟨hud, hvd⟩ := diffs_lt (hhalf_lt u) (lhalf_lt u) (hhalf_lt v) (lhalf_lt v)
  have hmid := toNat_mul_of_lt hud hvd
  have hspec := diffs_spec (hhalf u) (lhalf u) (hhalf v) (lhalf v)
  rw [← Nat.cast_mul, ← hmid] at hspec
  simp only [lmulq]
  split
  · rename_i small
    have hu := toNat_eq_halves u
    have hv := toNat_eq_halves v
    rw [small.1] at hu
    rw [small.2] at hv
    rw [show (0 : BitVec 32).toNat = 0 from rfl, Nat.zero_add] at hu hv
    rw [toNat_setWidth, hlow, ← hu, ← hv, Nat.mod_eq_of_lt]
    calc u.toNat * v.toNat < 2 ^ 32 * 2 ^ 32 := Nat.mul_lt_mul'' u.isLt v.isLt
      _ = 2 ^ 64 := by norm_num
  · have chain := stores_addLow (stores_addUp (stores_signedUp
      (stores_high (hhalf u * hhalf v)) (diffs (hhalf u) (lhalf u) (hhalf v) (lhalf v)).2.2
      ((diffs (hhalf u) (lhalf u) (hhalf v) (lhalf v)).1 *
        (diffs (hhalf u) (lhalf u) (hhalf v) (lhalf v)).2.1)) (lhalf u * lhalf v))
      (lhalf u * lhalf v)
    refine (chain.congr ?_).toNat (Nat.mul_lt_mul'' u.isLt v.isLt)
    rw [hspec, hlow, hhigh, toNat_eq_halves u, toNat_eq_halves v]
    push_cast
    ring

/-! ## The product of two quads -/

/-- What `__muldi3` does with the absolute values. -/
def mulAbs (u v : BitVec 64) : BitVec 64 :=
  if ulH u = 0 ∧ ulH v = 0 then lmulq (ulL u) (ulL v)
  else
    let low := lmulq (ulL u) (ulL v)
    let (udiff, vdiff, negmid) := diffs (ulH u) (ulL u) (ulH v) (ulL v)
    let mid := udiff * vdiff
    let high := ulH u * ulH v
    (high + (if negmid then -mid else mid) + ulL low + ulH low) ++ ulL low

/-- **`__muldi3`.** -/
def muldi3 (a b : BitVec 64) : BitVec 64 :=
  let (u, negall) := if BitVec.sle 0#64 a then (a, false) else (-a, true)
  let (v, negall) := if BitVec.sle 0#64 b then (b, negall) else (-b, !negall)
  let prod := mulAbs u v
  if negall then -prod else prod

/-- The high long of the product, modulo `2 ^ 32`. -/
theorem cast_high (high mid l h : BitVec 32) (neg : Bool) :
    ((high + (if neg then -mid else mid) + l + h).toNat : ℤ) ≡
      high.toNat + signed neg mid.toNat + l.toNat + h.toNat [ZMOD (2 ^ 32 : ℕ)] := by
  refine (cast_add _ _).trans (Int.ModEq.add_right _ ((cast_add _ _).trans
    (Int.ModEq.add_right _ ((cast_add _ _).trans (Int.ModEq.add_left _ ?_)))))
  cases neg with
  | false => exact Int.ModEq.refl _
  | true => exact cast_neg mid

theorem cast_signed {neg : Bool} {x y : ℤ} {n : ℕ} (h : x ≡ y [ZMOD n]) :
    signed neg x ≡ signed neg y [ZMOD n] := by
  cases neg with
  | false => exact h
  | true => exact h.neg

/-- **The product of the absolute values.**  What is lost of the high long counts
`2 ^ 64` times. -/
theorem mulAbs_eq (u v : BitVec 64) : mulAbs u v = u * v := by
  have hu := toNat_eq_longs u
  have hv := toNat_eq_longs v
  have hlow := toNat_lmulq (ulL u) (ulL v)
  rw [mulAbs]
  split
  · rename_i small
    apply eq_of_toNat_eq
    rw [small.1, show (0 : BitVec 32).toNat = 0 from rfl, Nat.zero_mul, Nat.zero_add] at hu
    rw [small.2, show (0 : BitVec 32).toNat = 0 from rfl, Nat.zero_mul, Nat.zero_add] at hv
    rw [toNat_mul, hu, hv, hlow, Nat.mod_eq_of_lt]
    calc (ulL u).toNat * (ulL v).toNat < 2 ^ 32 * 2 ^ 32 :=
          Nat.mul_lt_mul'' (ulL u).isLt (ulL v).isLt
      _ = 2 ^ 64 := by norm_num
  · have hspec := diffs_spec (ulH u) (ulL u) (ulH v) (ulL v)
    rw [toNat_eq_longs (lmulq (ulL u) (ulL v))] at hlow
    generalize diffs (ulH u) (ulL u) (ulH v) (ulL v) = d at hspec
    generalize lmulq (ulL u) (ulL v) = low at hlow
    obtain ⟨udiff, vdiff, neg⟩ := d
    have high : ((ulH u * ulH v + (if neg then -(udiff * vdiff) else udiff * vdiff) + ulL low +
        ulH low).toNat : ℤ) ≡ (ulH u).toNat * (ulH v).toNat +
          ((ulH u).toNat - (ulL u).toNat) * ((ulL v).toNat - (ulH v).toNat) +
          (ulL low).toNat + (ulH low).toNat [ZMOD (2 ^ 32 : ℕ)] := by
      refine (cast_high _ _ _ _ _).trans (Int.ModEq.add_right _ (Int.ModEq.add_right _
        (Int.ModEq.add (cast_mul _ _) ?_)))
      rw [← hspec]
      exact cast_signed (cast_mul _ _)
    refine (Stores.of_high high rfl).append_eq ?_
    have value : ((u * v).toNat : ℤ) ≡ u.toNat * v.toNat [ZMOD (2 ^ 32 * 2 ^ 32 : ℕ)] :=
      cast_mul u v
    refine value.trans (Int.modEq_iff_dvd.mpr
      ⟨-((ulH u).toNat * (ulH v).toNat + (ulH low).toNat), ?_⟩)
    have hlow' : ((ulH low).toNat * 2 ^ 32 + (ulL low).toNat : ℤ) =
        (ulL u).toNat * (ulL v).toNat := by exact_mod_cast hlow
    rw [hu, hv]
    push_cast
    linear_combination (2 ^ 32 + 1) * hlow'

/-- **Multiplication of quads**: the product of the two numbers with their signs, modulo `2 ^ 64`,
also where the absolute value of an operand is not a quad. -/
theorem muldi3_eq (a b : BitVec 64) : muldi3 a b = BitVec.ofInt 64 (a.toInt * b.toInt) := by
  have product : BitVec.ofInt 64 (a.toInt * b.toInt) = a * b := by
    rw [ofInt_mul, ofInt_toInt, ofInt_toInt]
  rw [product]
  by_cases ha : BitVec.sle 0#64 a <;> by_cases hb : BitVec.sle 0#64 b <;>
    simp [muldi3, ha, hb, mulAbs_eq]

end BSDLite2.Libkern
