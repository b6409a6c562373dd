import Mathlib.Data.BitVec
import Mathlib.Tactic

/-!
# Serial numbers

Protocols number an unbounded stream with machine words that wrap around, and
compare two numbers by the sign of their difference.  Here `pos base x` is the
number of position `x` of a stream whose position `0` has the number `base`, and
`dist a b` the difference as a signed word.  As long as two positions are less
than half the number space apart, `dist` is their distance (`dist_pos_pos`), so
that every comparison of numbers is one of positions.
-/

namespace BSDLite2.Serial

variable {w : ℕ}

/-- The number of a position. -/
def pos (base : BitVec w) (x : ℤ) : BitVec w := base + BitVec.ofInt w x

/-- The signed difference of two numbers. -/
def dist (a b : BitVec w) : ℤ := (a - b).toInt

variable (base : BitVec w)

@[simp] theorem pos_zero : pos base 0 = base := by
  simp [pos]

@[simp] theorem pos_add_ofInt (x y : ℤ) : pos base x + BitVec.ofInt w y = pos base (x + y) := by
  rw [pos, pos, BitVec.ofInt_add, BitVec.add_assoc]

theorem pos_pos (x y : ℤ) : pos (pos base x) y = pos base (x + y) :=
  pos_add_ofInt base x y

theorem pos_sub_pos (x y : ℤ) : pos base x - pos base y = BitVec.ofInt w (x - y) := by
  have hx : pos base x = pos base y + BitVec.ofInt w (x - y) := by
    rw [pos_add_ofInt, add_sub_cancel]
  rw [hx, add_sub_cancel_left]

/-- A distance is at most half of the circle. -/
theorem dist_bounds (a b : BitVec w) : -2 ^ w ≤ 2 * dist a b ∧ 2 * dist a b < 2 ^ w :=
  ⟨BitVec.le_two_mul_toInt, BitVec.two_mul_toInt_lt⟩

/-- The distance of two positions, around the circle. -/
theorem dist_pos_pos_eq_bmod (x y : ℤ) : dist (pos base x) (pos base y) = (x - y).bmod (2 ^ w) := by
  rw [dist, pos_sub_pos, BitVec.toInt_ofInt]

section

variable {x y : ℤ} (hlo : -2 ^ w ≤ 2 * (x - y)) (hhi : 2 * (x - y) < 2 ^ w)

include hlo hhi

/-- **Distances of near positions.** -/
theorem dist_pos_pos : dist (pos base x) (pos base y) = x - y := by
  rw [dist_pos_pos_eq_bmod]
  refine Int.bmod_eq_of_le_mul_two ?_ ?_
  · push_cast
    omega
  · push_cast
    omega

/-- Near positions have different numbers. -/
theorem pos_eq_pos_iff : pos base x = pos base y ↔ x = y := by
  constructor
  · intro h
    have hdist := dist_pos_pos base hlo hhi
    rw [h, dist, BitVec.sub_self, BitVec.toInt_zero] at hdist
    omega
  · exact congrArg _

end

/-- Every number is at its distance from any other. -/
@[simp] theorem pos_dist (a b : BitVec w) : pos b (dist a b) = a := by
  rw [pos, dist, BitVec.ofInt_toInt]
  exact add_sub_cancel b a

/-- The distance of a near position from the first. -/
theorem dist_pos {x : ℤ} (hlo : -2 ^ w ≤ 2 * x) (hhi : 2 * x < 2 ^ w) :
    dist (pos base x) base = x := by
  simpa using dist_pos_pos base (y := 0) (by simpa using hlo) (by simpa using hhi)

@[simp] theorem dist_same (a : BitVec w) : dist a a = 0 := by
  simp [dist]

end BSDLite2.Serial
