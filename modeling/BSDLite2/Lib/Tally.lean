import Mathlib.Algebra.BigOperators.Finprod
import Mathlib.Tactic

/-!
# Tallies

A family of parts, all but finitely many of which are in a default state, and a count
that each part contributes to.  The tally is the sum of the contributions.  A change of
one part changes the tally by the difference of its contributions.

* `tally_update` — the tally after a change of one part;
* `le_tally`, `add_le_tally` — one part, and two, contribute no more than all.
-/

namespace BSDLite2

open Function

universe u v

variable {ι : Type u} {α : Type v}

/-- The sum of the contributions `f` of the parts. -/
noncomputable def tally (f : α → ℕ) (x : ι → α) : ℕ := ∑ᶠ i, f (x i)

/-- All parts but finitely many are `d`. -/
def Mostly (d : α) (x : ι → α) : Prop := {i | x i ≠ d}.Finite

variable {d : α} {x : ι → α} {f : α → ℕ}

theorem mostly_const : Mostly d fun _ : ι => d := by
  simp [Mostly]

theorem tally_const (hf : f d = 0) : tally f (fun _ : ι => d) = 0 := by
  simp [tally, hf]

variable [DecidableEq ι]

theorem Mostly.update (fin : Mostly d x) (i : ι) (a : α) : Mostly d (update x i a) := by
  refine (fin.insert i).subset fun j hj => ?_
  by_cases same : j = i
  · exact .inl same
  · rw [Set.mem_ofPred_eq, update_of_ne same] at hj
    exact .inr hj

section

variable (fin : Mostly d x) (hf : f d = 0)

include fin hf

/-- **One part changes.** -/
theorem tally_update (i : ι) (a : α) : tally f (update x i a) + f (x i) = tally f x + f a := by
  -- both sums are over `i` and the parts that are not `d`
  have split : ∀ y : ι → α, (∀ j, j ≠ i → y j = x j) →
      tally f y = f (y i) + ∑ j ∈ fin.toFinset.erase i, f (x j) := by
    intro y agree
    have support : support (fun j => f (y j)) ⊆ (insert i fin.toFinset : Finset ι) := by
      intro j hj
      by_cases same : j = i
      · simp [same]
      · rw [mem_support, agree j same] at hj
        have : j ∈ fin.toFinset := (Set.Finite.mem_toFinset fin).mpr fun eq => hj (by rw [eq, hf])
        exact Finset.mem_coe.mpr (Finset.mem_insert_of_mem this)
    rw [tally, finsum_eq_sum_of_support_subset _ support,
      ← Finset.add_sum_erase _ _ (Finset.mem_insert_self i _), Finset.erase_insert_eq_erase]
    congr 1
    exact Finset.sum_congr rfl fun j hj => by rw [agree j (Finset.ne_of_mem_erase hj)]
  rw [split (update x i a) fun j hj => update_of_ne hj _ _, split x fun _ _ => rfl, update_self]
  omega

theorem le_tally (i : ι) : f (x i) ≤ tally f x := by
  have := tally_update fin hf i d
  omega

theorem add_le_tally {i j : ι} (differ : i ≠ j) : f (x i) + f (x j) ≤ tally f x := by
  have one := tally_update fin hf i d
  have two := le_tally (fin.update i d) hf j
  rw [update_of_ne differ.symm] at two
  omega

end

end BSDLite2
