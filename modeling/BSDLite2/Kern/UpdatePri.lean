import Mathlib.Tactic

/-!
# Decay of the CPU usage of a process that sleeps (`kern/kern_synch.c`)

`schedcpu` decays `p_estcpu` once a second, except for processes that sleep; `updatepri` makes up
for that when a process wakes up.  The source says that to sleep for six times the load factor is
enough to lose all of a `p_estcpu` of 255, if the load average is at least 1.  This is not so for
some load averages below 1.5: two of the seconds do not count.

* `decayCpu`, `decayLoop`, `updatepri` — the code;
* `Forgets` — what the source says, for one load average;
* `forgets_iff` — the load averages for which it is so.
-/

namespace BSDLite2.Sched

open Nat

/-- `FSCALE` -/
def fscale : ℕ := 2 ^ 11

/-- `loadfactor`, a `fixpt_t`. -/
def loadfactor (loadav : ℕ) : ℕ := 2 * loadav % 2 ^ 32

/-- `decay_cpu` -/
def decayCpu (loadfac cpu : ℕ) : ℕ := loadfac * cpu % 2 ^ 32 / ((loadfac + fscale) % 2 ^ 32)

/-- The loop of `updatepri`, with the number of turns after which `--p->p_slptime` is 0. -/
def decayLoop (loadfac : ℕ) : (turns newcpu : ℕ) → ℕ
  | 0, newcpu => newcpu
  | turns + 1, newcpu =>
    if newcpu = 0 then newcpu else decayLoop loadfac turns (decayCpu loadfac newcpu)

/-- `updatepri`: the new `p_estcpu`.  `p_slptime` is decremented before the loop and again before
each turn. -/
def updatepri (ldavg estcpu slptime : ℕ) : ℕ :=
  if 5 * loadfactor ldavg % 2 ^ 32 < slptime then 0
  else min (decayLoop (loadfactor ldavg) ((slptime + (2 ^ 32 - 2)) % 2 ^ 32) estcpu) 255

/-- **To sleep for six times the load factor is enough.** -/
def Forgets (ldavg : ℕ) : Prop :=
  ∀ estcpu ≤ 255, ∀ slptime < 2 ^ 32, 6 * loadfactor ldavg ≤ slptime * fscale →
    updatepri ldavg estcpu slptime = 0

/-! ## The loop -/

variable {l l' c c' n : ℕ}

theorem decayCpu_eq (hc : c ≤ 255) (fits : l * 255 < 2 ^ 32) :
    decayCpu l c = l * c / (l + fscale) := by
  have hlt : l * c < 2 ^ 32 := (mul_le_mul_left l hc).trans_lt fits
  have hsum : l + fscale < 2 ^ 32 := by unfold fscale; omega
  rw [decayCpu, mod_eq_of_lt hlt, mod_eq_of_lt hsum]

theorem decayCpu_lt (pos : 0 < c) (hc : c ≤ 255) (fits : l * 255 < 2 ^ 32) : decayCpu l c < c := by
  rw [decayCpu_eq hc fits, div_lt_iff_lt_mul (by unfold fscale; omega), mul_comm]
  exact mul_lt_mul_of_pos_left (by unfold fscale; omega) pos

section

variable (hl : l ≤ l') (hle : c ≤ c') (hc : c' ≤ 255) (fits : l' * 255 < 2 ^ 32)

include hl hle hc fits

theorem decayCpu_mono : decayCpu l c ≤ decayCpu l' c' := by
  have hfits : l * 255 < 2 ^ 32 := (mul_le_mul_right 255 hl).trans_lt fits
  rw [decayCpu_eq (hle.trans hc) hfits, decayCpu_eq hc fits,
    le_div_iff_mul_le (by unfold fscale; omega)]
  have hq := div_mul_le_self (l * c) (l + fscale)
  have hqc : l * c / (l + fscale) ≤ c :=
    Nat.div_le_of_le_mul (Nat.mul_le_mul_right c (Nat.le_add_right l fscale))
  generalize l * c / (l + fscale) = q at *
  obtain ⟨d, rfl⟩ := Nat.exists_eq_add_of_le hl
  nlinarith [Nat.mul_le_mul_left (l + d) hle]

theorem decayLoop_mono : decayLoop l n c ≤ decayLoop l' n c' := by
  induction n generalizing c c' with
  | zero => exact hle
  | succ n ih =>
    rw [decayLoop, decayLoop]
    split_ifs with h h'
    · exact hle
    · exact h.le.trans (zero_le _)
    · omega
    · exact ih (decayCpu_mono hl hle hc fits)
        ((decayCpu_lt (pos_of_ne_zero ‹_›) hc fits).le.trans hc)

end

/-- A turn takes at least 1 away. -/
theorem decayLoop_le (hc : c ≤ 255) (fits : l * 255 < 2 ^ 32) : decayLoop l n c ≤ c - n := by
  induction n generalizing c with
  | zero => exact le_rfl
  | succ n ih =>
    rw [decayLoop]
    split_ifs with h
    · omega
    · have hlt := decayCpu_lt (pos_of_ne_zero h) hc fits
      have := ih (hlt.le.trans hc)
      omega

/-! ## Six times the load factor -/

section

variable {ldavg s : ℕ} (fits : 2 * ldavg * 255 < 2 ^ 32)

include fits

section

variable {estcpu : ℕ} (two : 2 ≤ s) (lt : s < 2 ^ 32) (h : estcpu ≤ 255)

include two lt h

theorem updatepri_eq (small : s ≤ 10 * ldavg) :
    updatepri ldavg estcpu s = decayLoop (2 * ldavg) (s - 2) estcpu := by
  have hload : loadfactor ldavg = 2 * ldavg := mod_eq_of_lt (by omega)
  have hle : decayLoop (2 * ldavg) (s - 2) estcpu ≤ estcpu - (s - 2) := decayLoop_le h fits
  rw [updatepri, hload, if_neg (by omega), show (s + (2 ^ 32 - 2)) % 2 ^ 32 = s - 2 by omega]
  omega

/-- Enough turns for the largest load average for which they are to be enough. -/
theorem updatepri_of_top (top : ℕ) (hle : ldavg ≤ top) (htop : 2 * top * 255 < 2 ^ 32)
    (hzero : decayLoop (2 * top) (s - 2) 255 = 0) : updatepri ldavg estcpu s = 0 := by
  by_cases small : s ≤ 10 * ldavg
  · rw [updatepri_eq fits two lt h small, ← le_zero, ← hzero]
    exact decayLoop_mono (by omega) h le_rfl htop
  · have hload : loadfactor ldavg = 2 * ldavg := mod_eq_of_lt (by omega)
    rw [updatepri, if_pos (by rw [hload]; omega)]

end

end

theorem decayLoop_top : ∀ s < 258, 19 ≤ s → decayLoop (2 * (s * 2048 / 12)) (s - 2) 255 = 0 := by
  decide +kernel

/-- The least sleep that is to be enough is not, for the other load averages. -/
theorem decayLoop_left : ∀ d < 1025, d < 683 ∨ 804 < d ∧ d < 854 ∨ d = 1024 →
    decayLoop (2 * (2048 + d)) ((12 * (2048 + d) + 2047) / 2048 - 2) 255 ≠ 0 := by decide +kernel

/-- **The load averages for which it is enough**, from 1 (2048 in fixed point) on and as far as the
products of the decay fit.  Between 1 and 1.5 rounding decides, in steps of 1/2048. -/
theorem forgets_iff {ldavg : ℕ} (load : fscale ≤ ldavg) (fits : 2 * ldavg * 255 < 2 ^ 32) :
    Forgets ldavg ↔ (2731 ≤ ldavg ∧ ldavg ≤ 2852) ∨ (2902 ≤ ldavg ∧ ldavg ≤ 3071) ∨
      3073 ≤ ldavg := by
  have hload : loadfactor ldavg = 2 * ldavg := mod_eq_of_lt (by omega)
  constructor
  · intro forgets
    by_contra outside
    obtain ⟨d, rfl⟩ : ∃ d, ldavg = 2048 + d := Nat.exists_eq_add_of_le load
    refine decayLoop_left d (by omega) (by omega) ?_
    rw [← updatepri_eq fits (by omega) (by omega) le_rfl (by omega)]
    exact forgets 255 le_rfl _ (by omega) (by rw [fscale]; omega)
  · intro inside estcpu hest s lt hs
    rw [fscale] at hs
    have two : 2 ≤ s := by omega
    have enough := updatepri_of_top fits two lt hest
    rcases lt_or_ge s 19 with low | high
    · obtain rfl | rfl : s = 17 ∨ s = 18 := by omega
      · exact enough 2852 (by omega) (by decide) (by decide)
      · exact enough 3071 (by omega) (by decide) (by decide)
    rcases lt_or_ge s 258 with low | large
    · have hle : s * 2048 / 12 ≤ 43861 := by omega
      have htop : 2 * (s * 2048 / 12) * 255 < 2 ^ 32 :=
        (mul_le_mul_right 255 (mul_le_mul_left 2 hle)).trans_lt (by decide)
      exact enough (s * 2048 / 12) (by omega) htop (decayLoop_top s low high)
    · refine enough ldavg le_rfl fits ?_
      have := decayLoop_le (n := s - 2) le_rfl fits
      omega

theorem forgets_two : Forgets 4096 :=
  (forgets_iff (by decide) (by decide)).mpr (.inr (.inr (by decide)))

/-- **A load average of 1**: 255 is 4 after twelve seconds. -/
theorem updatepri_one : fscale ≤ 2048 ∧ 6 * loadfactor 2048 ≤ 12 * fscale ∧
    updatepri 2048 255 12 = 4 := by decide

end BSDLite2.Sched
