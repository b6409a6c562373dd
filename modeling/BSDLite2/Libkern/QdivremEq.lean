import BSDLite2.Libkern.AlgorithmD

/-!
# The quotient and the remainder of quads

`__qdivrem` takes the operands apart into digits of 16 bits, skips the leading zeros, shifts,
divides digit by digit and shifts the remainder back.  What is proved of the steps in `AlgorithmD`
is put together here, with the skipped digits as the bounds that the steps ask for.

* `shortDiv_eq` — the divisor has one digit;
* `longDiv_eq` — it has more;
* `qdivrem_eq` — the quotient and the remainder, and everything that is stored on the way fits.
-/

namespace BSDLite2.Libkern.Qdivrem

open Digits Function Nat

variable {us : ℕ → ℕ} {d : ℕ → ℕ}

/-! ## The digits of the operands -/

theorem areDigits_digitsOf (first : ℕ) (q : BitVec 64) :
    AreDigits 65536 (digitsOf first q) 1 4 := by
  intro k hk
  match k, hk with
  | 0, _ => exact hhalf_lt _
  | 1, _ => exact lhalf_lt _
  | 2, _ => exact hhalf_lt _
  | 3, _ => exact lhalf_lt _

theorem val_digitsOf (first : ℕ) (q : BitVec 64) : val 65536 (digitsOf first q) 1 4 = q.toNat := by
  simp only [val, digitsOf]
  rw [toNat_eq_longs q, toNat_eq_halves (ulH q), toNat_eq_halves (ulL q)]
  ring

theorem tmp_eq (h : ℕ) {l : ℕ} (hl : l < 2 ^ 32) : tmp h l = BitVec.ofNat 64 (h * 2 ^ 32 + l) := by
  apply BitVec.eq_of_toNat_eq
  rw [tmp, BitVec.toNat_append, ← shiftLeft_add_eq_or_of_lt (BitVec.isLt _), BitVec.toNat_ofNat,
    BitVec.toNat_ofNat, BitVec.toNat_ofNat]
  omega

/-- Four digits, put together as two longs. -/
theorem tmp_combine (a b : ℕ) {c d : ℕ} (hc : c < 65536) (hd : d < 65536) :
    tmp (a * 65536 + b) (c * 65536 + d) =
      BitVec.ofNat 64 (((a * 65536 + b) * 65536 + c) * 65536 + d) := by
  have longs : (a * 65536 + b) * 2 ^ 32 + (c * 65536 + d) =
      ((a * 65536 + b) * 65536 + c) * 65536 + d := by omega
  rw [tmp_eq _ (by omega), longs]

theorem tmpOf_eq (digits : AreDigits 65536 d 1 4) :
    tmpOf d = pure (BitVec.ofNat 64 (val 65536 d 1 4)) := by
  have h1 : d 1 < 65536 := digits 0 (by omega)
  have h2 : d 2 < 65536 := digits 1 (by omega)
  have h3 : d 3 < 65536 := digits 2 (by omega)
  have h4 : d 4 < 65536 := digits 3 (by omega)
  rw [tmpOf, combine_of_lt h1 h2, pure_bind, combine_of_lt h3 h4, pure_bind, tmp_combine _ _ h3 h4]
  simp [val]

/-! ## A divisor of one digit -/

/-- Division by a digit takes one digit at a time. -/
theorem div_digit (A x : ℕ) {t : ℕ} (ht : 0 < t) :
    (A * 65536 + x) / t = A / t * 65536 + (A % t * 65536 + x) / t ∧
      (A * 65536 + x) % t = (A % t * 65536 + x) % t := by
  have split : A * 65536 + x = t * (A / t * 65536) + (A % t * 65536 + x) := by
    conv_lhs => rw [← div_add_mod A t]
    ring
  rw [split, mul_add_div ht, mul_add_mod]
  exact ⟨rfl, rfl⟩

theorem shortDiv_eq {t : ℕ} (digits : AreDigits 65536 us 1 4) (ht : 0 < t)
    (htB : t < 65536) (arq : Bool) :
    shortDiv us t arq = pure (BitVec.ofNat 64 (val 65536 us 1 4 / t),
      if arq then some (BitVec.ofNat 64 (val 65536 us 1 4 % t)) else none) := by
  have h1 : us 1 < 65536 := digits 0 (by omega)
  have h2 : us 2 < 65536 := digits 1 (by omega)
  have h3 : us 3 < 65536 := digits 2 (by omega)
  have h4 : us 4 < 65536 := digits 3 (by omega)
  -- a remainder and the next digit
  have small (A x : ℕ) (hx : x < 65536) : (A % t * 65536 + x) / t < 65536 := by
    have := mod_lt A ht
    rw [div_lt_iff_lt_mul ht]
    omega
  have rem (A : ℕ) : A % t < 65536 := (mod_lt A ht).trans htB
  have hq1 : us 1 / t < 65536 := (div_le_self _ _).trans_lt h1
  obtain ⟨hd2, hm2⟩ := div_digit (us 1) (us 2) ht
  obtain ⟨hd3, hm3⟩ := div_digit (us 1 * 65536 + us 2) (us 3) ht
  obtain ⟨hd4, hm4⟩ := div_digit ((us 1 * 65536 + us 2) * 65536 + us 3) (us 4) ht
  have hval : val 65536 us 1 4 = ((us 1 * 65536 + us 2) * 65536 + us 3) * 65536 + us 4 := by
    simp [val]
  rw [shortDiv, digit_of_lt hq1, pure_bind, combine_of_lt (rem _) h2, pure_bind,
    digit_of_lt (small _ _ h2), pure_bind, combine_of_lt (rem _) h3, pure_bind, ← hm2,
    digit_of_lt (small _ _ h3), pure_bind, combine_of_lt (rem _) h4, pure_bind, ← hm3,
    digit_of_lt (small _ _ h4), pure_bind, combine_of_lt hq1 (small _ _ h2), pure_bind,
    combine_of_lt (small _ _ h3) (small _ _ h4), pure_bind,
    tmp_combine _ _ (small _ _ h3) (small _ _ h4), hval, hd4, hd3, hd2, hm4]

/-! ## A divisor of more digits -/

theorem normShift_spec (fuel d : ℕ) {t : ℕ} (ht : t < 65536) (enough : 65536 ≤ t * 2 ^ fuel) :
    ∃ k, normShift fuel t d = pure (d + k) ∧ 32768 ≤ t * 2 ^ k ∧ t * 2 ^ k < 65536 := by
  induction fuel generalizing t d with
  | zero => omega
  | succ fuel ih =>
    rw [normShift]
    split
    · have shifted : t <<< 1 = t * 2 := shiftLeft_eq t 1
      obtain ⟨k, hrun, hlow, hhigh⟩ := ih (t := t * 2) (d + 1) (by omega)
        (by rw [mul_assoc, mul_comm 2]; exact enough)
      rw [mul_assoc, ← pow_succ'] at hlow hhigh
      refine ⟨k + 1, ?_, hlow, hhigh⟩
      rw [shifted, long_of_lt (by omega), pure_bind, hrun, add_assoc, add_comm 1]
    · exact ⟨0, by rw [add_zero], by omega, by omega⟩

theorem skipDivisor_spec (vs : ℕ → ℕ) :
    (skipDivisor vs 4 0 = (1, 2) ∧ val 65536 vs 1 4 = vs 4) ∨
      ∃ n v, skipDivisor vs 4 0 = (n, v) ∧ 2 ≤ n ∧ n + v = 4 ∧ 0 < vs (v + 1) ∧
        val 65536 vs 1 4 = val 65536 vs (v + 1) n := by
  by_cases h1 : vs 1 = 0
  · by_cases h2 : vs 2 = 0
    · by_cases h3 : vs 3 = 0
      · left
        simp [skipDivisor, val, h1, h2, h3]
      · right
        refine ⟨2, 2, by simp [skipDivisor, h1, h2, h3], by omega, by omega,
          pos_of_ne_zero h3, ?_⟩
        simp [val, h1, h2]
    · right
      refine ⟨3, 1, by simp [skipDivisor, h1, h2], by omega, by omega,
        pos_of_ne_zero h2, ?_⟩
      simp [val, h1]
  · right
    exact ⟨4, 0, by simp [skipDivisor, h1], by omega, by omega, pos_of_ne_zero h1, rfl⟩

/-- Digits after zeros. -/
theorem val_of_zeros {w n : ℕ} (sum : w + n = 4) (zero : ∀ i ≤ w, d i = 0) :
    val 65536 d 1 4 = val 65536 d (w + 1) n := by
  rw [← sum, val_add, val_eq_zero, zero_mul, zero_add, add_comm 1 w]
  exact fun k hk => zero (1 + k) (by omega)

/-- The dividend has as many digits as the divisor, at least. -/
theorem skipDividend_spec {k m u : ℕ} (sum : m + (k + 1) + u = 4) (digits : AreDigits 65536 us 1 4)
    (zero : ∀ i ≤ u, us i = 0) (large : 65536 ^ k ≤ val 65536 us 1 4) :
    ∃ m' u', skipDividend us m u = pure (m', u') ∧ m' + (k + 1) + u' = 4 ∧
      ∀ i ≤ u', us i = 0 := by
  induction m generalizing u with
  | zero =>
    rw [val_of_zeros (n := k + 1) (by omega) zero,
      AreDigits.pow_le_iff (digits.mono (by omega) (by omega))] at large
    refine ⟨0, u, ?_, sum, zero⟩
    rw [skipDividend, decide_eq_true large.ne']
    rfl
  | succ m ih =>
    rw [skipDividend]
    split
    · refine ih (by omega) ?_
      intro i hi
      rcases lt_or_ge i (u + 1) with low | high
      · exact zero i (by omega)
      · rwa [show i = u + 1 by omega]
    · exact ⟨m + 1, u, rfl, sum, zero⟩

/-- The shift of D1, when no bits fall out. -/
theorem normalise_spec {d len o : ℕ} {p : ℕ → ℕ} (hd : d ≤ 16)
    (digits : AreDigits 65536 p o (len + 1)) (top : p o * 2 ^ d < 65536) :
    ∃ p', normalise d len o p = pure p' ∧ Stored 65536 p p' o (len + 1) ∧
      val 65536 p' o (len + 1) = val 65536 p o (len + 1) * 2 ^ d := by
  by_cases pos : d > 0
  · have none : p o / 2 ^ (16 - d) = 0 := by
      rw [div_eq_zero_iff_lt (by positivity)]
      refine Nat.lt_of_mul_lt_mul_left (a := 2 ^ d) ?_
      rw [two_pow_mul hd, mul_comm]
      exact top
    obtain ⟨p', hrun, hstored, hval⟩ := shl_spec hd digits
    rw [none, zero_mul, add_zero] at hval
    exact ⟨p', by rw [normalise, if_pos pos, hrun], hstored, hval⟩
  · obtain rfl : d = 0 := by omega
    exact ⟨p, rfl, digits.stored, by simp⟩

theorem areDigits_of_zeros {w n : ℕ} (sum : w + n = 4) (zero : ∀ i ≤ w, d i = 0)
    (digits : AreDigits 65536 d (w + 1) n) : AreDigits 65536 d 1 4 := by
  intro k hk
  rcases lt_or_ge k w with low | high
  · rw [zero (1 + k) (by omega)]
    norm_num
  · have := digits (k - w) (by omega)
    rwa [show w + 1 + (k - w) = 1 + k by omega] at this

theorem remainder_eq {d w n r : ℕ} (hd : d ≤ 16) (sum : w + n = 4)
    (zero : ∀ i ≤ w, us i = 0) (digits : AreDigits 65536 us (w + 1) n)
    (value : val 65536 us (w + 1) n = r * 2 ^ d) (arq : Bool) :
    remainder arq d w n us = pure (if arq then some (BitVec.ofNat 64 r) else none) := by
  obtain ⟨us', hrun, hstored, hval⟩ : ∃ us',
      (if d > 0 then shrRem d w n us else pure us) = pure us' ∧
        Stored 65536 us us' (w + 1) n ∧ val 65536 us' (w + 1) n = r := by
    split
    · obtain ⟨us', hrun, hstored, hval⟩ := shrRem_spec hd (zero w le_rfl) digits
      refine ⟨us', hrun, hstored, ?_⟩
      rw [hval, value, Nat.mul_div_cancel _ (by positivity)]
    · obtain rfl : d = 0 := by omega
      exact ⟨us, rfl, digits.stored, by rw [value, Nat.pow_zero, Nat.mul_one]⟩
  have zero' : ∀ i ≤ w, us' i = 0 := fun i hi => by
    rw [hstored.frame i (.inl (by omega)), zero i hi]
  rw [remainder, hrun, pure_bind, tmpOf_eq (areDigits_of_zeros sum zero' hstored.digits),
    val_of_zeros sum zero', hval]
  cases arq <;> rfl

theorem longDiv_eq {junk us vs : ℕ → ℕ} {n v : ℕ} (hn : 2 ≤ n) (sum : n + v = 4)
    (hus : AreDigits 65536 us 1 4) (hus0 : us 0 = 0) (hvs : AreDigits 65536 vs (v + 1) n)
    (hv1 : 0 < vs (v + 1)) (le : val 65536 vs (v + 1) n ≤ val 65536 us 1 4) (arq : Bool) :
    longDiv junk us vs n v arq =
      pure (BitVec.ofNat 64 (val 65536 us 1 4 / val 65536 vs (v + 1) n),
        if arq then some (BitVec.ofNat 64 (val 65536 us 1 4 % val 65536 vs (v + 1) n))
        else none) := by
  obtain ⟨k, rfl⟩ : ∃ k, n = k + 1 := ⟨n - 1, by omega⟩
  have hv1lt : vs (v + 1) < 65536 := hvs 0 (by omega)
  have hVlow := hvs.pow_le_iff.mpr hv1
  obtain ⟨m, u, hskip, hsum, hzero⟩ := skipDividend_spec (m := 4 - (k + 1))
    (by omega) hus (fun i hi => le_zero.mp hi ▸ hus0) (hVlow.trans le)
  obtain ⟨d, hnorm, hnlow, hnhigh⟩ := normShift_spec 16 0 hv1lt (by omega)
  rw [Nat.zero_add] at hnorm
  have hd : d ≤ 16 := by
    by_contra more
    have := Nat.pow_le_pow_right (show 0 < 2 by norm_num) (show 17 ≤ d by omega)
    have := Nat.le_mul_of_pos_left (2 ^ d) hv1
    omega
  have hdigits : AreDigits 65536 us u (m + (k + 1) + 1) := by
    intro i hi
    rcases Nat.eq_zero_or_pos i with rfl | pos
    · rw [Nat.add_zero, hzero u le_rfl]
      norm_num
    · have := hus (u + i - 1) (by omega)
      rwa [show 1 + (u + i - 1) = u + i by omega] at this
  have hU := val_of_zeros (n := m + (k + 1)) (by omega) hzero
  have hUlt : val 65536 us 1 4 < 65536 ^ (m + (k + 1)) := by
    rw [hU]
    exact val_lt (hus.mono (by omega) (by omega))
  obtain ⟨us1, hshu, hstored1, hval1⟩ := normalise_spec hd hdigits
    (by rw [hzero u le_rfl]; norm_num)
  obtain ⟨vs1, hshv, ⟨hvdig1, -⟩, hvval1⟩ := normalise_spec hd hvs hnhigh
  rw [val_succ' (d := us), hzero u le_rfl, Nat.zero_mul, Nat.zero_add, ← hU] at hval1
  generalize val 65536 us 1 4 = U at hval1 hUlt
  generalize val 65536 vs (v + 1) (k + 1) = V at hvval1 hVlow
  have hdpos : 0 < 2 ^ d := by positivity
  -- the shifted divisor has no leading zero
  have hv1' : 0 < vs1 (v + 1) :=
    hvdig1.pow_le_iff.mp (hvval1 ▸ hVlow.trans (Nat.le_mul_of_pos_right V hdpos))
  -- the first digits of the dividend are below the divisor
  have hsmall : val 65536 us1 u (k + 1) < val 65536 vs1 (v + 1) (k + 1) := by
    rw [show m + (k + 1) + 1 = k + 1 + (m + 1) by omega, val_add] at hval1
    rw [hvval1]
    refine Nat.lt_of_mul_lt_mul_right (a := 65536 ^ (m + 1)) ?_
    calc val 65536 us1 u (k + 1) * 65536 ^ (m + 1) ≤ U * 2 ^ d := by omega
      _ < 65536 ^ (m + (k + 1)) * 2 ^ d := Nat.mul_lt_mul_of_pos_right hUlt hdpos
      _ = 65536 ^ k * (2 ^ d * 65536 ^ (m + 1)) := by ring
      _ ≤ V * (2 ^ d * 65536 ^ (m + 1)) := Nat.mul_le_mul_right _ hVlow
      _ = V * 2 ^ d * 65536 ^ (m + 1) := by ring
  obtain ⟨us2, qs2, hloop, hstored2, ⟨hqdig2, hqframe2⟩, hzero2, hquot, hrem⟩ :=
    divLoop_spec (4 - m) (fun i => if i < 4 - m then 0 else junk i) hn hvdig1 hv1'
      (k := m + 1) (hstored1.digits.mono le_rfl (by omega)) hsmall
  rw [show k + 1 + (m + 1) = m + (k + 1) + 1 by omega, hval1, hvval1] at hquot hrem
  rw [Nat.mul_div_mul_right _ _ hdpos] at hquot
  rw [Nat.mul_mod_mul_right] at hrem
  have hqzero : ∀ i ≤ 3 - m, qs2 i = 0 := by
    intro i hi
    rw [hqframe2 i (.inl (by omega)), if_pos (by omega)]
  have hquotient : tmpOf qs2 = pure (BitVec.ofNat 64 (U / V)) := by
    have hpos : 3 - m + 1 = 4 - m := by omega
    rw [← hpos] at hqdig2 hquot
    rw [tmpOf_eq (areDigits_of_zeros (by omega) hqzero hqdig2),
      val_of_zeros (n := m + 1) (by omega) hqzero, hquot]
  have hremainder : remainder arq d (u + m) (k + 1) us2 =
      pure (if arq then some (BitVec.ofNat 64 (U % V)) else none) := by
    rw [← Nat.add_assoc] at hrem
    refine remainder_eq hd (by omega) ?_ (hstored2.digits.mono (by omega) (by omega)) hrem arq
    intro i hi
    rcases Nat.lt_or_ge i u with low | high
    · rw [hstored2.frame i (.inl low), hstored1.frame i (.inl low), hzero i low.le]
    · exact hzero2 i high (by omega)
  simp only [longDiv, hskip, pure_bind, hnorm, Nat.add_sub_cancel, hshu, hshv, hloop, hremainder,
    hquotient]

/-- **Division of quads.**  Nothing that is stored on the way is lost. -/
theorem qdivrem_eq (junk : ℕ → ℕ) (u v : BitVec 64) (hv : v ≠ 0) (arq : Bool) :
    qdivrem junk u v arq =
      some ⟨(BitVec.ofNat 64 (u.toNat / v.toNat),
        if arq then some (BitVec.ofNat 64 (u.toNat % v.toNat)) else none), true⟩ := by
  have hus := areDigits_digitsOf 0 u
  have hvs := areDigits_digitsOf (junk 0) v
  have huval := val_digitsOf 0 u
  have hvval := val_digitsOf (junk 0) v
  have hvpos : 0 < v.toNat := by
    have : v.toNat ≠ 0 := fun h => hv (BitVec.eq_of_toNat_eq h)
    omega
  rw [qdivrem, if_neg hv]
  split
  · rename_i less
    rw [div_eq_of_lt less, mod_eq_of_lt less, BitVec.ofNat_toNat]
    rfl
  · rename_i more
    have more : v.toNat ≤ u.toNat := BitVec.not_lt.mp more
    rcases skipDivisor_spec (digitsOf (junk 0) v) with
      ⟨hskip, hone⟩ | ⟨n, k, hskip, hn, hsum, hfirst, hval⟩
    · rw [hvval] at hone
      have hdigit := hvs 3 (by omega)
      dsimp only
      rw [hskip]
      rw [shortDiv_eq hus (hone ▸ hvpos) hdigit, huval, hone]
      rfl
    · rw [hvval] at hval
      dsimp only
      rw [hskip]
      rw [if_neg (by omega), longDiv_eq hn hsum hus rfl (hvs.mono (by omega) (by omega)) hfirst
        (by rw [← hval, huval]; exact more), huval, ← hval]
      rfl

/-- A division for which the estimate is too large and D6 is needed. -/
theorem qdivrem_eq_addBack :
    (0x800000000001 : BitVec 64) ≠ 0 ∧
      qdivrem (fun _ => 7) 0x8000000000000000 0x800000000001 true =
        some ⟨(65535, some 0x7fffffff0001), true⟩ :=
  ⟨by decide, qdivrem_eq (fun _ => 7) 0x8000000000000000 0x800000000001 (by decide) true⟩

end BSDLite2.Libkern.Qdivrem
