import Mathlib.Logic.Function.Iterate
import Mathlib.Tactic

/-!
# Scans

Two searches.

* `least` — a list is gone through for the entry of least cost.  An entry without a cost is
  passed over, of two that cost the same the first is kept, and one that costs nothing ends the
  search.  `least_eq_none_iff` says when nothing is found.
* `seek` — a counter is turned on until it stands at a value that will do.  `seek_eq_some_iff`
  says where it stops, `exists_seek_iff` whether it does.
-/

namespace BSDLite2.Scan

universe u

section Least

variable {α : Type u} (cost : α → Option ℕ)

/-- What is left of a list is gone through, with `best` the entry found so far and `bound` its
cost. -/
def least : List α → Option α → ℕ → Option α
  | [], best, _ => best
  | a :: as, best, bound =>
    match cost a with
    | none => least as best bound
    | some w =>
      if w < bound then
        if w = 0 then some a else least as (some a) w
      else least as best bound

variable {cost}

variable {as : List α} {best : Option α} {bound : ℕ}

theorem least_isSome (h : best.isSome) : (least cost as best bound).isSome := by
  induction as generalizing best bound with
  | nil => exact h
  | cons a as ih =>
    rw [least]
    cases cost a with
    | none => exact ih h
    | some w =>
      dsimp only
      split_ifs
      · rfl
      · exact ih rfl
      · exact ih h

/-- Nothing is found if nothing costs less than the bound. -/
theorem least_eq_none_iff :
    least cost as none bound = none ↔ ∀ a ∈ as, ∀ w, cost a = some w → bound ≤ w := by
  induction as with
  | nil => simp [least]
  | cons a as ih =>
    rw [least, List.forall_mem_cons]
    cases hc : cost a with
    | none => simp [ih]
    | some w =>
      dsimp only
      by_cases hw : w < bound
      · have found : (if w = 0 then some a else least cost as (some a) w).isSome := by
          split_ifs
          · rfl
          · exact least_isSome rfl
        rw [if_pos hw]
        refine iff_of_false (Option.isSome_iff_ne_none.mp found) fun all => ?_
        exact absurd (all.1 w rfl) (Nat.not_le.mpr hw)
      · rw [if_neg hw, ih]
        simp [Nat.le_of_not_lt hw]

end Least

section Seek

variable {σ : Type u} (next : σ → σ) (good : σ → Bool)

/-- The counter is turned on, at most `n` times. -/
def seek : ℕ → σ → Option σ
  | 0, _ => none
  | n + 1, c => if good (next c) then some (next c) else seek n (next c)

variable {next good}

theorem seek_eq_some_iff {n : ℕ} {c d : σ} :
    seek next good n c = some d ↔
      ∃ k < n, next^[k + 1] c = d ∧ good d ∧ ∀ j < k, ¬ good (next^[j + 1] c) := by
  induction n generalizing c with
  | zero => simp [seek]
  | succ n ih =>
    rw [seek]
    by_cases hg : good (next c)
    · rw [if_pos hg, Option.some.injEq]
      constructor
      · rintro rfl
        exact ⟨0, Nat.succ_pos n, rfl, hg, nofun⟩
      · rintro ⟨k, -, hd, -, before⟩
        cases k with
        | zero => exact hd
        | succ k => exact absurd hg (before 0 (Nat.succ_pos k))
    · rw [if_neg hg, ih]
      constructor
      · rintro ⟨k, hk, hd, hgood, before⟩
        refine ⟨k + 1, Nat.succ_lt_succ hk, hd, hgood, fun j hj => ?_⟩
        cases j with
        | zero => exact hg
        | succ j => exact before j (Nat.lt_of_succ_lt_succ hj)
      · rintro ⟨k, hk, hd, hgood, before⟩
        cases k with
        | zero =>
          subst hd
          exact absurd hgood hg
        | succ k =>
          exact ⟨k, Nat.lt_of_succ_lt_succ hk, hd, hgood,
            fun j hj => before (j + 1) (Nat.succ_lt_succ hj)⟩

/-- The counter stops if it comes to a value that will do. -/
theorem exists_seek_iff {c : σ} :
    (∃ n d, seek next good n c = some d) ↔ ∃ k, good (next^[k + 1] c) := by
  constructor
  · rintro ⟨n, d, h⟩
    obtain ⟨k, -, rfl, hgood, -⟩ := seek_eq_some_iff.mp h
    exact ⟨k, hgood⟩
  · intro h
    exact ⟨Nat.find h + 1, _, seek_eq_some_iff.mpr
      ⟨Nat.find h, Nat.lt_succ_self _, rfl, Nat.find_spec h, fun _ => Nat.find_min h⟩⟩

end Seek

end BSDLite2.Scan
