import Mathlib.Data.List.Basic
import Mathlib.Tactic

/-!
# Runs in lists of booleans

A run is a maximal stretch of `true`.  `runs k l` counts the runs of length `k`.

* `runs_append_false` — a `false` separates what is before it from what is behind it;
* `runs_isolated` — a run contributes one to the count of its length, and nothing else;
* `runs_cut` — the front of a run is cleared.
-/

namespace BSDLite2.Runs

open Nat List

/-- The runs of length `k`, if `n` elements `true` come before the list. -/
def runsFrom (k : ℕ) : (n : ℕ) → List Bool → ℕ
  | n, [] => if n = k then 1 else 0
  | n, true :: l => runsFrom k (n + 1) l
  | n, false :: l => (if n = k then 1 else 0) + runsFrom k 0 l

/-- The runs of length `k`. -/
def runs (k : ℕ) (l : List Bool) : ℕ := runsFrom k 0 l

variable {k n : ℕ} {l l' : List Bool}

theorem runsFrom_append_false : runsFrom k n (l ++ false :: l') = runsFrom k n l + runs k l' := by
  induction l generalizing n with
  | nil => rfl
  | cons b l ih =>
    cases b with
    | true => exact ih
    | false => rw [cons_append, runsFrom, runsFrom, ih, add_assoc]

/-- A `false` separates. -/
theorem runs_append_false : runs k (l ++ false :: l') = runs k l + runs k l' :=
  runsFrom_append_false

theorem runs_nil (hk : k ≠ 0) : runs k [] = 0 := if_neg hk.symm

theorem runs_cons_false (hk : k ≠ 0) : runs k (false :: l) = runs k l := by
  rw [← nil_append (false :: l), runs_append_false, runs_nil hk, zero_add]

theorem runsFrom_replicate (m : ℕ) :
    runsFrom k n (replicate m true) = if n + m = k then 1 else 0 := by
  induction m generalizing n with
  | zero => rfl
  | succ m ih => rw [replicate_succ, runsFrom, ih, add_right_comm, add_assoc]

theorem runs_replicate_true (m : ℕ) : runs k (replicate m true) = if m = k then 1 else 0 := by
  rw [runs, runsFrom_replicate, zero_add]

theorem runs_replicate_false_append (hk : k ≠ 0) (m : ℕ) :
    runs k (replicate m false ++ l) = runs k l := by
  induction m with
  | zero => rfl
  | succ m ih => rw [replicate_succ, cons_append, runs_cons_false hk, ih]

/-- What is before a run. -/
def Before (l : List Bool) : Prop := l = [] ∨ ∃ l', l = l' ++ [false]

/-- What is behind a run. -/
def Behind (l : List Bool) : Prop := l = [] ∨ ∃ l', l = false :: l'

theorem runs_append_behind (hk : k ≠ 0) (behind : Behind l') :
    runs k (l ++ l') = runs k l + runs k l' := by
  rcases behind with rfl | ⟨l', rfl⟩
  · rw [append_nil, runs_nil hk, add_zero]
  · rw [runs_append_false, runs_cons_false hk]

section

variable (hk : k ≠ 0) (before : Before l)

include hk before

theorem runs_append_before : runs k (l ++ l') = runs k l + runs k l' := by
  rcases before with rfl | ⟨l, rfl⟩
  · rw [nil_append, runs_nil hk, zero_add]
  · rw [append_assoc, singleton_append, runs_append_false, runs_append_false, runs_nil hk, add_zero]

/-- **A run** between what is before and what is behind it. -/
theorem runs_isolated (behind : Behind l') (m : ℕ) :
    runs k (l ++ (replicate m true ++ l')) =
      runs k l + (if m = k then 1 else 0) + runs k l' := by
  rw [runs_append_before hk before, runs_append_behind hk behind, runs_replicate_true, add_assoc]

/-- **The front of a run is cleared.** -/
theorem runs_cut (behind : Behind l') {c m : ℕ} :
    runs k (l ++ (replicate c false ++ (replicate m true ++ l'))) =
      runs k l + (if m = k then 1 else 0) + runs k l' := by
  rw [runs_append_before hk before, runs_replicate_false_append hk, runs_append_behind hk behind,
    runs_replicate_true, add_assoc]

end

end BSDLite2.Runs
