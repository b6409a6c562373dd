import Mathlib.Data.Nat.Basic
import Mathlib.Logic.Function.Basic
import Mathlib.Tactic

/-!
# Numbers by their digits

`val b d i n` is the number whose digits in base `b` are `d i`, ..., `d (i + n - 1)`,
the first of them the most significant.

For long division, the quotient of a number of `n + 1` digits by one of `n` is
estimated from the leading digits, three against two.  The estimate is never too small
(`div_le_estimate`) and at most one too large (`estimate_le`).
-/

namespace BSDLite2.Digits

open Function Nat

/-- The number with the `n` digits from `i` on. -/
def val (b : ℕ) (d : ℕ → ℕ) (i : ℕ) : ℕ → ℕ
  | 0 => 0
  | n + 1 => val b d i n * b + d (i + n)

/-- The `n` digits from `i` on are digits. -/
def AreDigits (b : ℕ) (d : ℕ → ℕ) (i n : ℕ) : Prop := ∀ k < n, d (i + k) < b

section

variable {b : ℕ} {d e : ℕ → ℕ} {i n : ℕ}

@[simp]
theorem val_zero : val b d i 0 = 0 := rfl

theorem val_succ : val b d i (n + 1) = val b d i n * b + d (i + n) := rfl

theorem val_one : val b d i 1 = d i := by simp [val]

theorem val_add (m : ℕ) : val b d i (m + n) = val b d i m * b ^ n + val b d (i + m) n := by
  induction n with
  | zero => simp
  | succ n ih =>
    rw [← add_assoc, val_succ, ih, val_succ, pow_succ, add_assoc i m n]
    ring

/-- The most significant digit. -/
theorem val_succ' : val b d i (n + 1) = d i * b ^ n + val b d (i + 1) n := by
  rw [add_comm n 1, val_add, val_one]

theorem val_congr (same : ∀ k < n, d (i + k) = e (i + k)) : val b d i n = val b e i n := by
  induction n with
  | zero => rfl
  | succ n ih =>
    rw [val_succ, val_succ, ih (fun k hk => same k (by omega)), same n (by omega)]

theorem val_lt (digits : AreDigits b d i n) : val b d i n < b ^ n := by
  induction n with
  | zero => simp
  | succ n ih =>
    have hlast := digits n (by omega)
    have hrest : val b d i n + 1 ≤ b ^ n := ih fun k hk => digits k (by omega)
    calc val b d i n * b + d (i + n) < val b d i n * b + b := by omega
      _ = (val b d i n + 1) * b := by ring
      _ ≤ b ^ n * b := mul_le_mul_right b hrest
      _ = b ^ (n + 1) := (pow_succ b n).symm

theorem val_eq_zero (zero : ∀ k < n, d (i + k) = 0) : val b d i n = 0 := by
  induction n with
  | zero => rfl
  | succ n ih => rw [val_succ, ih fun k hk => zero k (by omega), zero n (by omega), zero_mul]

/-- A digit that is stored elsewhere. -/
theorem val_update {j x : ℕ} (out : j < i ∨ i + n ≤ j) : val b (update d j x) i n = val b d i n :=
  val_congr fun k hk => update_of_ne (by omega) _ _

theorem AreDigits.update (digits : AreDigits b d i n) {j x : ℕ} (hx : x < b) :
    AreDigits b (update d j x) i n := by
  intro k hk
  by_cases same : i + k = j
  · rw [same, update_self]
    exact hx
  · rw [update_of_ne same]
    exact digits k hk

theorem AreDigits.mono (digits : AreDigits b d i n) {j m : ℕ} (hj : i ≤ j)
    (hm : j + m ≤ i + n) : AreDigits b d j m := by
  intro k hk
  have := digits (j + k - i) (by omega)
  rwa [show i + (j + k - i) = j + k by omega] at this

/-- The first digit is zero if the number is small. -/
theorem AreDigits.pow_le_iff (digits : AreDigits b d i (n + 1)) :
    b ^ n ≤ val b d i (n + 1) ↔ 0 < d i := by
  have hlow := val_lt (digits.mono (j := i + 1) (m := n) (by omega) (by omega))
  rw [val_succ']
  rcases Nat.eq_zero_or_pos (d i) with zero | pos
  · rw [zero]
    omega
  · have := Nat.le_mul_of_pos_left (b ^ n) pos
    omega

/-- `e` is `d` with digits stored at the `n` places from `i` on, and nothing else. -/
structure Stored (b : ℕ) (d e : ℕ → ℕ) (i n : ℕ) : Prop where
  digits : AreDigits b e i n
  frame : ∀ k, k < i ∨ i + n ≤ k → e k = d k

variable {x : ℕ}

theorem AreDigits.stored (digits : AreDigits b d i n) : Stored b d d i n := ⟨digits, fun _ _ => rfl⟩

/-- One digit is stored, and then those before it. -/
theorem Stored.snoc (h : Stored b (update d (i + n) x) e i n) (hx : x < b) :
    Stored b d e i (n + 1) ∧ e (i + n) = x := by
  have last : e (i + n) = x := by rw [h.frame _ (.inr le_rfl), update_self]
  refine ⟨⟨fun k hk => ?_, fun k hk => ?_⟩, last⟩
  · rcases Nat.lt_succ_iff_lt_or_eq.mp hk with low | rfl
    · exact h.digits k low
    · exact last ▸ hx
  · rw [h.frame k (by omega), update_of_ne (by omega)]

/-- One digit is stored, and then those after it. -/
theorem Stored.cons (h : Stored b (update d i x) e (i + 1) n) (hx : x < b) :
    Stored b d e i (n + 1) ∧ e i = x := by
  have first : e i = x := by rw [h.frame _ (.inl (lt_succ_self i)), update_self]
  refine ⟨⟨fun k hk => ?_, fun k hk => ?_⟩, first⟩
  · rcases k with _ | k
    · exact first ▸ hx
    · rw [← add_assoc, add_right_comm]
      exact h.digits k (by omega)
  · rw [h.frame k (by omega), update_of_ne (by omega)]

theorem Stored.widen {j m : ℕ} (h : Stored b d e j m) (digits : AreDigits b d i n) (hj : i ≤ j)
    (hm : j + m ≤ i + n) : Stored b d e i n := by
  refine ⟨fun k hk => ?_, fun k hk => h.frame k (by omega)⟩
  by_cases inside : j ≤ i + k ∧ i + k < j + m
  · have := h.digits (i + k - j) (by omega)
    rwa [show j + (i + k - j) = i + k by omega] at this
  · rw [h.frame _ (by omega)]
    exact digits k hk

theorem Stored.update {j : ℕ} (h : Stored b d e i n) (hx : x < b) (hj : i ≤ j) (hn : j < i + n) :
    Stored b d (update e j x) i n :=
  ⟨h.digits.update hx, fun k hk => by rw [update_of_ne (by omega), h.frame k hk]⟩

theorem Stored.trans {f : ℕ → ℕ} (h : Stored b d e i n) (h' : Stored b e f i n) :
    Stored b d f i n :=
  ⟨h'.digits, fun k hk => by rw [h'.frame k hk, h.frame k hk]⟩

end

/-! ## Estimating a digit of a quotient -/

section

variable {U V u v s r p : ℕ}

/-- The leading digits never make the quotient too small. -/
theorem div_le_estimate (hU : U = u * p + r) (hr : r < p) (hV : V = v * p + s) (hv : 0 < v) :
    U / V ≤ u / v := by
  have hp : 0 < p := by omega
  calc U / V ≤ U / (v * p) := Nat.div_le_div_left (by omega) (Nat.mul_pos hv hp)
    _ = U / p / v := by rw [Nat.mul_comm, Nat.div_div_eq_div_mul]
    _ = u / v := by rw [hU, Nat.mul_comm, Nat.mul_add_div hp, Nat.div_eq_of_lt hr, Nat.add_zero]

/-- An estimate from the leading digits is at most one too large, if it is a digit and
the divisor has no leading zero. -/
theorem estimate_le {b q : ℕ} (hU : U = u * p + r) (hV : V = v * p + s) (hs : s < p)
    (hv : b ≤ v) (hq : q ≤ u / v) (hb : q < b) : q ≤ U / V + 1 := by
  have hvpos : 0 < v := by omega
  have hp : 0 < p := by omega
  have hqv : q * v ≤ u := (le_div_iff_mul_le hvpos).mp hq
  have hle : q * V < U + V := by
    calc q * V = q * v * p + q * s := by rw [hV]; ring
      _ ≤ u * p + q * s := Nat.add_le_add_right (Nat.mul_le_mul_right p hqv) _
      _ ≤ U + q * s := by omega
      _ ≤ U + q * p := by
          have := mul_le_mul_left q hs.le
          omega
      _ < U + b * p := by
          have := mul_lt_mul_of_pos_right hb hp
          omega
      _ ≤ U + v * p := by
          have := mul_le_mul_right p hv
          omega
      _ ≤ U + V := by omega
  have hVpos : 0 < V := by
    have := mul_pos hvpos hp
    omega
  have : q - 1 ≤ U / V := by
    rw [Nat.le_div_iff_mul_le hVpos, Nat.sub_mul]
    omega
  omega

end

end BSDLite2.Digits
