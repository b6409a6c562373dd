import BSDLite2.Libkern.Qdivrem

/-!
# The steps of Algorithm D

What each loop of `__qdivrem` does to the digits, as numbers.  The divisor is normalized, its first
digit at least half of the base; so the estimate of D3 is the digit or one too large, and D6 is
needed once at most.  The borrow that D4 leaves in the leading digit tells which.

* `estimate_eq` — the digit estimated by D3 is the quotient of the three leading
  digits by two, or the largest digit;
* `mulSub_spec`, `addBack_spec` — the loops of D4 and D6;
* `divStep_spec` — one digit of the quotient, and `divLoop_spec` — all of them;
* `shl_spec`, `shrRem_spec` — the shifts before and after.
-/

namespace BSDLite2.Libkern.Qdivrem

open Digits Function Nat

/-! ## D3 -/

section

variable {uj0 uj1 uj2 v1 v2 n : ℕ}

/-- The test of D3 compares `qhat` times the two leading digits of the divisor with the
three of the dividend. -/
theorem test_iff (uj2 v2 : ℕ) {q r : ℕ} (split : r + q * v1 = n) :
    r * 65536 + uj2 < v2 * q ↔
      n * 65536 + uj2 < q * (v1 * 65536 + v2) := by
  rw [show q * (v1 * 65536 + v2) = q * v1 * 65536 + v2 * q by ring]
  omega

theorem eq_min_div {q N D : ℕ} (hD : 0 < D) (low : q * D ≤ N) (hq : q < 65536)
    (high : N < (q + 1) * D ∨ q + 1 = 65536) : q = min (N / D) 65535 := by
  have hle : q ≤ N / D := (le_div_iff_mul_le hD).mpr low
  rcases high with high | largest
  · have : N / D < q + 1 := (Nat.div_lt_iff_lt_mul hD).mpr high
    omega
  · omega

/-- The loop of D3 finds the quotient of the leading digits, or the largest digit. -/
theorem qhatTooBig_eq (hv1 : v1 < 65536) (hv2 : v2 < 65536) (hu2 : uj2 < 65536) (hv1pos : 0 < v1)
    {qhat rhat : ℕ} (hqB : qhat ≤ 65536) (hr : rhat < 65536) (split : rhat + qhat * v1 = n)
    (big : n * 65536 + uj2 < qhat * (v1 * 65536 + v2) ∨ qhat = 65536) :
    qhatTooBig v1 v2 uj2 qhat rhat =
      pure (min ((n * 65536 + uj2) / (v1 * 65536 + v2)) 65535) := by
  induction qhat generalizing rhat with
  | zero => omega
  | succ q ih =>
    have split' : rhat + v1 + q * v1 = n := by
      rw [← split]
      ring
    have test := test_iff uj2 v2 split'
    have product : v2 * q ≤ 65535 * 65535 := Nat.mul_le_mul (by omega) (by omega)
    rw [qhatTooBig, long_of_lt (by omega), pure_bind]
    by_cases carry : rhat + v1 ≥ 65536
    · rw [if_pos carry]
      exact congrArg pure (eq_min_div (by omega) (by omega) (by omega) big)
    · rw [if_neg carry, long_of_lt (by omega), pure_bind, combine_of_lt (by omega) hu2, pure_bind]
      by_cases more : v2 * q > (rhat + v1) * 65536 + uj2
      · rw [if_pos more]
        exact ih (by omega) (by omega) split' (.inl (test.mp more))
      · rw [if_neg more]
        exact congrArg pure (eq_min_div (by omega) (by omega) (by omega) big)

/-- **D3.**  The digit it estimates. -/
theorem estimate_eq (hu0 : uj0 ≤ v1) (hu1 : uj1 < 65536) (hu2 : uj2 < 65536)
    (hv1 : v1 < 65536) (hv1pos : 0 < v1) (hv2 : v2 < 65536) :
    estimate uj0 uj1 uj2 v1 v2 =
      pure (min (((uj0 * 65536 + uj1) * 65536 + uj2) / (v1 * 65536 + v2)) 65535) := by
  rw [estimate]
  split
  · rename_i same
    subst same
    have split : uj1 + 65536 * uj0 = uj0 * 65536 + uj1 := by ring
    exact qhatTooBig_eq hv1 hv2 hu2 hv1pos le_rfl hu1 split (.inr rfl)
  · rw [combine_of_lt (by omega) hu1, pure_bind]
    obtain ⟨n, hn⟩ : ∃ n, n = uj0 * 65536 + uj1 := ⟨_, rfl⟩
    rw [← hn]
    have hq : n / v1 < 65536 := (Nat.div_lt_iff_lt_mul hv1pos).mpr (by omega)
    have hr : n % v1 < v1 := mod_lt _ hv1pos
    have split : n % v1 + n / v1 * v1 = n := by
      rw [Nat.mul_comm]
      exact Nat.mod_add_div n v1
    have product : v2 * (n / v1) ≤ 65535 * 65535 := Nat.mul_le_mul (by omega) (by omega)
    have test := test_iff uj2 v2 split
    rw [long_of_lt (by omega), pure_bind, long_of_lt (by omega), pure_bind,
      long_of_lt (by omega), pure_bind, combine_of_lt (by omega) hu2, pure_bind]
    by_cases more : v2 * (n / v1) > n % v1 * 65536 + uj2
    · rw [if_pos more]
      exact qhatTooBig_eq hv1 hv2 hu2 hv1pos hq.le (by omega) split (.inl (test.mp more))
    · rw [if_neg more]
      refine congrArg pure (eq_min_div (by omega) (by omega) hq (.inl ?_))
      have : n < (n / v1 + 1) * v1 := by
        rw [Nat.add_mul]
        omega
      have next : (n + 1) * 65536 ≤ (n / v1 + 1) * v1 * 65536 := Nat.mul_le_mul_right _ this
      calc n * 65536 + uj2 < (n + 1) * 65536 := by omega
        _ ≤ (n / v1 + 1) * v1 * 65536 := next
        _ ≤ (n / v1 + 1) * v1 * 65536 + (n / v1 + 1) * v2 := Nat.le_add_right _ _
        _ = (n / v1 + 1) * (v1 * 65536 + v2) := by ring

end

/-! ## D4 and D6 -/

/-- One digit of D4: what is stored and what is borrowed. -/
theorem mulSub_digit {x p t : ℕ} (hx : x < 65536) (hp : p + t ≤ 65535 * 65536) (ht : t < 65536) :
    let y := ulongSub (ulongSub x p) t
    lhalf y < 65536 ∧ ((65536 - hhalf y) &&& 65535) < 65536 ∧
      lhalf y + (p + t) = x + ((65536 - hhalf y) &&& 65535) * 65536 := by
  intro y
  have hy : y = (x + 2 ^ 32 - p - t) % 2 ^ 32 := by
    simp only [y, ulongSub]
    omega
  have hmask : (65536 - hhalf y) &&& 65535 = (65536 - y / 65536) % 65536 := by
    rw [hhalf_eq]
    exact and_two_pow_sub_one_eq_mod _ 16
  rw [lhalf_eq]
  omega

variable {us : ℕ → ℕ}

/-- **D4.**  The product is subtracted, and `t'` is what has been borrowed at the left. -/
theorem mulSub_spec {qhat : ℕ} {vs : ℕ → ℕ} {v u : ℕ} (hq : qhat < 65536) {i t : ℕ}
    (hvs : AreDigits 65536 vs (v + 1) i) (hus : AreDigits 65536 us (u + 1) i) (ht : t < 65536) :
    ∃ t' us', mulSub qhat vs v u i t us = pure (t', us') ∧ t' < 65536 ∧
      Stored 65536 us us' (u + 1) i ∧
      val 65536 us' (u + 1) i + (qhat * val 65536 vs (v + 1) i + t) =
        val 65536 us (u + 1) i + t' * 65536 ^ i := by
  induction i generalizing t us with
  | zero => exact ⟨t, us, rfl, ht, hus.stored, by simp⟩
  | succ i ih =>
    have hv := hvs i (by omega)
    have product : vs (v + 1 + i) * qhat ≤ 65535 * 65535 :=
      Nat.mul_le_mul (by omega) (by omega)
    obtain ⟨hlow, hborrow, heq⟩ := mulSub_digit (hus i (by omega))
      (show vs (v + 1 + i) * qhat + t ≤ 65535 * 65536 by omega) ht
    rw [mulSub, show u + (i + 1) = u + 1 + i by omega, show v + (i + 1) = v + 1 + i by omega,
      long_of_lt (by omega), pure_bind]
    dsimp only
    rw [digit_of_lt hlow]
    obtain ⟨t', us', hrun, ht', hstored, hval⟩ := ih
      (hvs.mono le_rfl (by omega)) ((hus.mono le_rfl (by omega)).update hlow) hborrow
    obtain ⟨hstored, last⟩ := hstored.snoc hlow
    refine ⟨t', us', hrun, ht', hstored, ?_⟩
    rw [val_update (.inr le_rfl)] at hval
    rw [val_succ, val_succ, val_succ, last]
    linear_combination 65536 * hval + heq

/-- **D6.**  The divisor is added back, and `t'` is the carry at the left. -/
theorem addBack_spec {vs : ℕ → ℕ} {v u i t : ℕ} (hvs : AreDigits 65536 vs (v + 1) i)
    (hus : AreDigits 65536 us (u + 1) i) (ht : t ≤ 1) :
    ∃ t' us', addBack vs v u i t us = pure (t', us') ∧ t' ≤ 1 ∧
      Stored 65536 us us' (u + 1) i ∧
      val 65536 us' (u + 1) i + t' * 65536 ^ i =
        val 65536 us (u + 1) i + val 65536 vs (v + 1) i + t := by
  induction i generalizing t us with
  | zero => exact ⟨t, us, rfl, ht, hus.stored, by simp⟩
  | succ i ih =>
    have hv := hvs i (by omega)
    have hu := hus i (by omega)
    obtain ⟨y, hy⟩ : ∃ y, y = t + (us (u + 1 + i) + vs (v + 1 + i)) := ⟨_, rfl⟩
    have hlow : lhalf y < 65536 := by
      rw [lhalf_eq]
      omega
    have hcarry : hhalf y ≤ 1 := by
      rw [hhalf_eq]
      omega
    have heq : hhalf y * 65536 + lhalf y = y := by
      rw [hhalf_eq, lhalf_eq]
      omega
    rw [addBack, show u + (i + 1) = u + 1 + i by omega, show v + (i + 1) = v + 1 + i by omega,
      ← hy, long_of_lt (by omega), pure_bind, digit_of_lt hlow]
    obtain ⟨t', us', hrun, ht', hstored, hval⟩ := ih
      (hvs.mono le_rfl (by omega)) ((hus.mono le_rfl (by omega)).update hlow) hcarry
    obtain ⟨hstored, last⟩ := hstored.snoc hlow
    refine ⟨t', us', hrun, ht', hstored, ?_⟩
    rw [val_update (.inr le_rfl)] at hval
    rw [val_succ, val_succ, val_succ, last]
    linear_combination 65536 * hval + heq + hy

/-! ## One digit of the quotient -/

section

variable {n : ℕ} {vs us : ℕ → ℕ} {v u : ℕ}

/-- The first digit of the window is at most that of the divisor. -/
theorem first_le (hn : 0 < n) (hvs : AreDigits 65536 vs (v + 1) n)
    (fits : val 65536 us u (n + 1) < val 65536 vs (v + 1) n * 65536) : us u ≤ vs (v + 1) := by
  obtain ⟨k, rfl⟩ : ∃ k, n = k + 1 := ⟨n - 1, by omega⟩
  have hlow : val 65536 vs (v + 2) k < 65536 ^ k := val_lt (hvs.mono (by omega) (by omega))
  refine Nat.lt_succ_iff.mp (Nat.lt_of_mul_lt_mul_right (a := 65536 ^ (k + 1)) ?_)
  calc us u * 65536 ^ (k + 1) ≤ val 65536 us u (k + 1 + 1) := by
        rw [val_succ']
        exact Nat.le_add_right _ _
    _ < val 65536 vs (v + 1) (k + 1) * 65536 := fits
    _ ≤ ((vs (v + 1) + 1) * 65536 ^ k) * 65536 := by
        refine Nat.mul_le_mul_right _ ?_
        rw [val_succ', Nat.succ_mul]
        exact Nat.add_le_add_left hlow.le _
    _ = (vs (v + 1) + 1) * 65536 ^ (k + 1) := by rw [pow_succ, Nat.mul_assoc]

/-- The top digit of the window after D4: either nothing is borrowed, or one is. -/
theorem top_digit {x t : ℕ} (hx : x < 65536) (ht : t < 65536) :
    (t ≤ x ∧ hhalf (ulongSub x t) = 0 ∧ lhalf (ulongSub x t) = x - t) ∨
      (x < t ∧ hhalf (ulongSub x t) ≠ 0 ∧ lhalf (ulongSub x t) = 65536 + x - t) := by
  simp only [hhalf_eq, lhalf_eq, ulongSub]
  omega

/-- Two ways to write a number with a remainder below `p`. -/
theorem div_unique {a c r l p : ℕ} (h : r + a * p = l + c * p) (hr : r < p) (hl : l < p) :
    a = c ∧ r = l := by
  have hdiv := congrArg (· / p) h
  have hmod := congrArg (· % p) h
  have hp : 0 < p := by omega
  simp only [add_mul_div_right _ _ hp, add_mul_mod_self_right, div_eq_of_lt hr,
    div_eq_of_lt hl, mod_eq_of_lt hr, mod_eq_of_lt hl, zero_add] at hdiv hmod
  exact ⟨hdiv, hmod⟩

section

variable (hn : 2 ≤ n) (hvs : AreDigits 65536 vs (v + 1) n) (hus : AreDigits 65536 us u (n + 1))
  (hv1 : 0 < vs (v + 1)) (fits : val 65536 us u (n + 1) < val 65536 vs (v + 1) n * 65536)

include hn hvs hus hv1 fits

/-- The estimate of D3 is the digit of the quotient, or one more. -/
theorem estimate_spec :
    ∃ e, estimate (us u) (us (u + 1)) (us (u + 2)) (vs (v + 1)) (vs (v + 2)) = pure e ∧
      e < 65536 ∧ val 65536 us u (n + 1) / val 65536 vs (v + 1) n ≤ e ∧
      e ≤ val 65536 us u (n + 1) / val 65536 vs (v + 1) n + 1 := by
  obtain ⟨k, rfl⟩ : ∃ k, n = k + 2 := ⟨n - 2, by omega⟩
  have hvd1 := hvs 0 (by omega)
  have hvd2 := hvs 1 (by omega)
  have hud1 := hus 1 (by omega)
  have hud2 := hus 2 (by omega)
  have hV : val 65536 vs (v + 1) (k + 2) =
      (vs (v + 1) * 65536 + vs (v + 2)) * 65536 ^ k + val 65536 vs (v + 3) k := by
    rw [show k + 2 = 2 + k by omega, val_add]
    simp [val]
  have hU : val 65536 us u (k + 2 + 1) =
      ((us u * 65536 + us (u + 1)) * 65536 + us (u + 2)) * 65536 ^ k + val 65536 us (u + 3) k := by
    rw [show k + 2 + 1 = 3 + k by omega, val_add]
    simp [val]
  have hr : val 65536 us (u + 3) k < 65536 ^ k := val_lt (hus.mono (by omega) (by omega))
  have hs : val 65536 vs (v + 3) k < 65536 ^ k := val_lt (hvs.mono (by omega) (by omega))
  refine ⟨_, estimate_eq (first_le (by omega) hvs fits) hud1 hud2 hvd1 hv1 hvd2,
    Nat.lt_succ_of_le (Nat.min_le_right _ _), ?_, ?_⟩
  · refine Nat.le_min.mpr ⟨div_le_estimate hU hr hV (by omega), ?_⟩
    exact Nat.le_of_lt_succ (Nat.div_lt_of_lt_mul fits)
  · exact estimate_le hU hV hs (by omega) (min_le_left _ _)
      (Nat.lt_succ_of_le (Nat.min_le_right _ _))

/-- **One digit of the quotient.**  The window is left with the remainder. -/
theorem divStep_spec :
    ∃ us', divStep n vs v u us =
        pure (val 65536 us u (n + 1) / val 65536 vs (v + 1) n, us') ∧
      us' u = 0 ∧ Stored 65536 us us' u (n + 1) ∧
      val 65536 us' (u + 1) n = val 65536 us u (n + 1) % val 65536 vs (v + 1) n := by
  obtain ⟨e, hest, he, hlow, hhigh⟩ := estimate_spec hn hvs hus hv1 fits
  have hud : us u < 65536 := hus 0 (by omega)
  obtain ⟨t, us1, hsub, ht, hstored1, hval1⟩ :=
    mulSub_spec he hvs (hus.mono (j := u + 1) (by omega) (by omega))
      (show 0 < 65536 by norm_num)
  have htop : us1 u = us u := hstored1.frame u (.inl (by omega))
  have hlt1 := val_lt hstored1.digits
  have hwindow1 := hstored1.widen hus (by omega) (by omega)
  have hVlt := val_lt hvs
  rw [val_succ'] at hlow hhigh ⊢
  generalize hV : val 65536 vs (v + 1) n = V at hval1 hVlt fits hlow hhigh ⊢
  generalize hU : us u * 65536 ^ n + val 65536 us (u + 1) n = U at hlow hhigh ⊢
  have hVpos : 0 < V := by omega
  have hdiv := div_add_mod U V
  have hmod := mod_lt U hVpos
  rw [divStep, hest, pure_bind, hsub, pure_bind]
  dsimp only
  rw [htop]
  rcases top_digit hud ht with ⟨hle, hhi, hlo⟩ | ⟨hlt, hhi, hlo⟩
  · -- nothing is borrowed: the estimate is the digit
    have hrest : e * V + ((us u - t) * 65536 ^ n + val 65536 us1 (u + 1) n) = U := by
      have : (us u - t) * 65536 ^ n + t * 65536 ^ n = us u * 65536 ^ n := by
        rw [← Nat.add_mul, Nat.sub_add_cancel hle]
      omega
    have heq : e = U / V := by
      refine le_antisymm ?_ hlow
      rw [le_div_iff_mul_le hVpos]
      omega
    rw [← heq, Nat.mul_comm] at hdiv
    obtain ⟨hzero, hrem⟩ := div_unique
      (show val 65536 us1 (u + 1) n + (us u - t) * 65536 ^ n = U % V + 0 * 65536 ^ n by omega)
      hlt1 (by omega)
    rw [hlo, hzero, digit_of_lt (by norm_num), pure_bind, hhi, ← heq]
    refine ⟨_, rfl, update_self _ _ _, hwindow1.update (by norm_num) le_rfl (by omega), ?_⟩
    rw [val_update (.inl (by omega)), hrem]
  · -- one is borrowed: the estimate is one too large, and the divisor is added back
    have hborrow : us u * 65536 ^ n + 65536 ^ n ≤ t * 65536 ^ n := by
      rw [← Nat.succ_mul]
      exact Nat.mul_le_mul_right _ hlt
    have heq : e = U / V + 1 := by
      rcases lt_or_ge (U / V) e with more | less
      · omega
      · rw [Nat.le_antisymm hlow less, Nat.mul_comm] at hdiv
        omega
    have hback : U + V = e * V + U % V := by
      rw [heq, Nat.add_mul, Nat.mul_comm (U / _)]
      omega
    have hwindow2 := hwindow1.update (x := 65536 + us u - t) (by omega) le_rfl (by omega)
    obtain ⟨t2, us3, hadd, ht2, hstored3, hval3⟩ := addBack_spec hvs
      (hwindow2.digits.mono (j := u + 1) (by omega) (by omega)) (show 0 ≤ 1 by norm_num)
    have hwindow3 := hwindow2.trans (hstored3.widen hwindow2.digits (by omega) (by omega))
    have hlt3 := val_lt hstored3.digits
    rw [val_update (.inl (by omega))] at hval3
    obtain ⟨hcarry, hrem⟩ := div_unique (p := 65536 ^ n)
      (show U % V + t * 65536 ^ n = val 65536 us3 (u + 1) n + (us u + t2) * 65536 ^ n by
        rw [Nat.add_mul]; omega) (by omega) hlt3
    have htop3 : us3 u = 65536 + us u - t := by
      rw [hstored3.frame u (.inl (by omega)), update_self]
    have hlast : lhalf (us3 u + t2) = 0 := by
      rw [lhalf_eq]
      omega
    have hqhat : ulongSub e 1 = U / V := by
      have hpos : 0 < e := heq ▸ succ_pos _
      have hpred : ulongSub e 1 = e - 1 := by
        rw [ulongSub]
        omega
      rw [hpred, heq, Nat.add_sub_cancel]
    rw [hlo, digit_of_lt (by omega), pure_bind, if_neg hhi, hadd, pure_bind]
    rw [hlast, digit_of_lt (by norm_num), pure_bind, hqhat]
    refine ⟨_, rfl, update_self _ _ _, hwindow3.update (by norm_num) le_rfl (by omega), ?_⟩
    rw [val_update (.inl (by omega)), hrem]

end

/-- **The quotient**, digit by digit. -/
theorem divLoop_spec {k : ℕ} (q : ℕ) (qs : ℕ → ℕ) (hn : 2 ≤ n) (hvs : AreDigits 65536 vs (v + 1) n)
    (hv1 : 0 < vs (v + 1)) (hus : AreDigits 65536 us u (n + k))
    (small : val 65536 us u n < val 65536 vs (v + 1) n) :
    ∃ us' qs', divLoop n vs v k u q us qs = pure (us', qs') ∧
      Stored 65536 us us' u (n + k) ∧ Stored 65536 qs qs' q k ∧
      (∀ i, u ≤ i → i < u + k → us' i = 0) ∧
      val 65536 qs' q k = val 65536 us u (n + k) / val 65536 vs (v + 1) n ∧
      val 65536 us' (u + k) n = val 65536 us u (n + k) % val 65536 vs (v + 1) n := by
  induction k generalizing u q us qs with
  | zero =>
    refine ⟨us, qs, rfl, hus.stored, ⟨fun i hi => by omega, fun _ _ => rfl⟩,
      fun i hi hi' => by omega, ?_, ?_⟩
    · rw [val_zero, add_zero, div_eq_of_lt small]
    · rw [add_zero, add_zero, mod_eq_of_lt small]
  | succ k ih =>
    have hlast := hus n (by omega)
    have fits : val 65536 us u (n + 1) < val 65536 vs (v + 1) n * 65536 := by
      rw [val_succ]
      omega
    obtain ⟨us1, hstep, hzero1, hstored1, hrem1⟩ :=
      divStep_spec hn hvs (hus.mono le_rfl (by omega)) hv1 fits
    have hwindow1 := hstored1.widen hus le_rfl (by omega)
    generalize val 65536 vs (v + 1) n = V at fits hstep hrem1 ih
    have hVpos : 0 < V := by omega
    have hquot : val 65536 us u (n + 1) / V < 65536 := Nat.div_lt_of_lt_mul fits
    obtain ⟨us2, qs2, hrun, hstored2, hqstored2, hzero2, hquot2, hrem2⟩ :=
      ih (u := u + 1) (q + 1) (update qs q (val 65536 us u (n + 1) / V))
        (hwindow1.digits.mono (by omega) (by omega)) (by rw [hrem1]; exact mod_lt _ hVpos)
    -- what is left of the dividend
    have htotal : val 65536 us u (n + (k + 1)) =
        V * (val 65536 us u (n + 1) / V * 65536 ^ k) + val 65536 us1 (u + 1) (n + k) := by
      have rest : val 65536 us1 (u + 1 + n) k = val 65536 us (u + (n + 1)) k := by
        rw [show u + 1 + n = u + (n + 1) by omega]
        exact val_congr fun i _ => hstored1.frame _ (.inr (by omega))
      rw [show n + (k + 1) = n + 1 + k by omega, val_add, val_add (i := u + 1), hrem1, rest]
      have := div_add_mod (val 65536 us u (n + 1)) V
      nth_rewrite 1 [← this]
      ring
    obtain ⟨hqstored, hqfirst⟩ := hqstored2.cons hquot
    refine ⟨us2, qs2, ?_, hwindow1.trans (hstored2.widen hwindow1.digits (by omega) (by omega)),
      hqstored, ?_, ?_, ?_⟩
    · rw [divLoop, hstep, pure_bind]
      dsimp only
      rw [digit_of_lt hquot, pure_bind, hrun]
    · intro i hi hi'
      rcases eq_or_lt_of_le hi with rfl | more
      · rw [hstored2.frame u (.inl (by omega)), hzero1]
      · exact hzero2 i more (by omega)
    · rw [val_succ', hqfirst, hquot2, htotal, Nat.mul_add_div hVpos]
    · rw [htotal, mul_add_mod, ← hrem2, show u + 1 + k = u + (k + 1) by omega]

end

/-! ## Shifting digits -/

theorem two_pow_mul {d : ℕ} (hd : d ≤ 16) : 2 ^ d * 2 ^ (16 - d) = 65536 := by
  rw [← Nat.pow_add, Nat.add_sub_cancel' hd]

/-- Two digits shifted left: the bits that stay and the bits that come in. -/
theorem shift_or (x sh : ℕ) {y : ℕ} (hy : y < 65536) (hsh : sh ≤ 16) :
    lhalf (x <<< sh) ||| y >>> (16 - sh) = x * 2 ^ sh % 65536 + y / 2 ^ (16 - sh) ∧
      x * 2 ^ sh % 65536 + y / 2 ^ (16 - sh) < 65536 := by
  have hpow := (two_pow_mul hsh).symm
  have hin : y / 2 ^ (16 - sh) < 2 ^ sh := by
    rw [Nat.div_lt_iff_lt_mul (by positivity), ← hpow]
    exact hy
  have hstay : x * 2 ^ sh % 65536 = 2 ^ sh * (x % 2 ^ (16 - sh)) := by
    rw [hpow, Nat.mul_comm x, mul_mod_mul_left]
  have hlt : x % 2 ^ (16 - sh) + 1 ≤ 2 ^ (16 - sh) := mod_lt _ (by positivity)
  constructor
  · rw [lhalf_eq, shiftLeft_eq, shiftRight_eq_div_pow, hstay, two_pow_add_eq_or_of_lt hin]
  · have := mul_le_mul_left (2 ^ sh) hlt
    linarith

/-- **`shl`.**  What falls out at the left is the part of the first digit above. -/
theorem shl_spec {sh len o : ℕ} {p : ℕ → ℕ} (hsh : sh ≤ 16)
    (digits : AreDigits 65536 p o (len + 1)) :
    ∃ p', shl sh len o p = pure p' ∧ Stored 65536 p p' o (len + 1) ∧
      val 65536 p' o (len + 1) + p o / 2 ^ (16 - sh) * 65536 ^ (len + 1) =
        val 65536 p o (len + 1) * 2 ^ sh := by
  have hpow := two_pow_mul hsh
  have parts (x : ℕ) : x * 2 ^ sh % 65536 + x / 2 ^ (16 - sh) * 65536 = x * 2 ^ sh := by
    have hdiv : x / 2 ^ (16 - sh) = x * 2 ^ sh / 65536 := by
      rw [← hpow, Nat.mul_comm x, Nat.mul_div_mul_left _ _ (by positivity)]
    omega
  induction len generalizing o p with
  | zero =>
    have hlt : lhalf (p o <<< sh) < 65536 := by
      rw [lhalf_eq]
      omega
    refine ⟨_, by rw [shl, digit_of_lt hlt, pure_bind],
      digits.stored.update hlt le_rfl (by omega), ?_⟩
    rw [val_one, val_one, update_self, lhalf_eq, shiftLeft_eq, pow_one, parts]
  | succ len ih =>
    obtain ⟨hor, hlt⟩ := shift_or (p o) sh (digits 1 (by omega)) hsh
    rw [← hor] at hlt
    obtain ⟨p', hrun, hstored, hval⟩ := ih (o := o + 1)
      ((digits.mono (by omega) (by omega)).update hlt)
    obtain ⟨hstored, hfirst⟩ := hstored.cons hlt
    refine ⟨p', by rw [shl, digit_of_lt hlt, pure_bind, hrun], hstored, ?_⟩
    rw [val_update (.inl (by omega)), update_of_ne (by omega)] at hval
    rw [val_succ', val_succ' (d := p), hfirst, hor]
    linear_combination hval + 65536 ^ (len + 1) * parts (p o)

/-- The shift of the remainder.  Nothing comes in from the digit at `u` if it is zero. -/
theorem shrRem_spec {d u k : ℕ} (hd : d ≤ 16) (zero : us u = 0)
    (digits : AreDigits 65536 us (u + 1) k) :
    ∃ us', shrRem d u k us = pure us' ∧ Stored 65536 us us' (u + 1) k ∧
      val 65536 us' (u + 1) k = val 65536 us (u + 1) k / 2 ^ d := by
  have hpow := two_pow_mul hd
  induction k generalizing us with
  | zero =>
    refine ⟨_, rfl, ⟨fun i hi => by omega, fun i _ => ?_⟩, by simp⟩
    by_cases same : i = u
    · rw [same, update_self, zero]
    · exact update_of_ne same _ _
  | succ k ih =>
    have places : u + (k + 1) = u + 1 + k := by omega
    obtain ⟨hor, hlt⟩ := shift_or (us (u + k)) (16 - d) (digits k (by omega)) (by omega)
    rw [show 16 - (16 - d) = d by omega, Nat.or_comm] at hor
    rw [show 16 - (16 - d) = d by omega, ← hor] at hlt
    obtain ⟨us', hrun, hstored, hval⟩ := @ih
      (update us (u + 1 + k) (us (u + 1 + k) >>> d ||| lhalf (us (u + k) <<< (16 - d))))
      (by rw [update_of_ne (by omega), zero]) ((digits.mono le_rfl (by omega)).update hlt)
    obtain ⟨hstored, last⟩ := hstored.snoc hlt
    rw [val_update (.inr le_rfl)] at hval
    refine ⟨us', by rw [shrRem, places, digit_of_lt hlt, pure_bind, hrun], hstored, ?_⟩
    -- the bits of the digit before that are shifted in are its lowest
    have hin : us (u + k) * 2 ^ (16 - d) % 65536 =
        val 65536 us (u + 1) k * 2 ^ (16 - d) % 65536 := by
      cases k with
      | zero => simp [zero]
      | succ k =>
        rw [val_succ, show u + 1 + k = u + (k + 1) by omega, Nat.add_mul, mul_right_comm,
          mul_add_mod_self_right]
    have hhigh : val 65536 us (u + 1) k / 2 ^ d =
        val 65536 us (u + 1) k * 2 ^ (16 - d) / 65536 := by
      rw [← hpow, Nat.mul_div_mul_right _ _ (by positivity)]
    have hsplit (A y : ℕ) : (A * 65536 + y) / 2 ^ d = A * 2 ^ (16 - d) + y / 2 ^ d := by
      rw [← hpow, Nat.mul_left_comm, Nat.mul_add_div (by positivity)]
    rw [val_succ, val_succ, hval, last, hor, hsplit]
    omega

end BSDLite2.Libkern.Qdivrem
