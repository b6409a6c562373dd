import Mathlib.Data.List.Count
import Mathlib.Tactic

/-!
# Marking what is reachable

A collector finds what is reachable from some roots by marking: it marks the roots and the
successors of what is marked.  Something that is marked may be deferred, if its successors
are still to be marked.  Once nothing is deferred any more and the roots are marked, the
marks are right.

* `Reach` — what is reachable;
* `Reach.of_closed` — the induction rule;
* `Marks` — the invariant of marking;
* `Marks.mark_iff` — the marks are right in the end;
* `countP_update` — how many have a flag, after a change of one flag.
-/

namespace BSDLite2.Marking

open Function

universe u

variable {α : Type u}

/-- Reachable from a root through successors. -/
inductive Reach (root : α → Prop) (succ : α → List α) : α → Prop where
  | root {a : α} : root a → Reach root succ a
  | step {a b : α} : Reach root succ a → b ∈ succ a → Reach root succ b

variable {root : α → Prop} {succ succ' : α → List α} {a b : α}

/-- **A set that is closed contains what is reachable.** -/
theorem Reach.of_closed {S : α → Prop} (roots : ∀ a, root a → S a)
    (closed : ∀ a, S a → ∀ b ∈ succ a, S b) (reach : Reach root succ a) : S a := by
  induction reach with
  | root h => exact roots _ h
  | step _ mem ih => exact closed _ ih _ mem

theorem Reach.mono (sub : ∀ a, ∀ b ∈ succ a, b ∈ succ' a) (reach : Reach root succ a) :
    Reach root succ' a :=
  reach.of_closed (fun _ h => .root h) fun a ha b hb => ha.step (sub a b hb)

/-- **The invariant of marking**: what is marked is reachable, and only what is deferred may have
successors that are not marked. -/
structure Marks (root : α → Prop) (succ : α → List α) (mark defer : α → Bool) : Prop where
  sound : ∀ a, mark a = true → Reach root succ a
  deferred : ∀ a, defer a = true → mark a = true
  closed : ∀ a, mark a = true → defer a = false → ∀ b ∈ succ a, mark b = true

variable {mark defer : α → Bool}

theorem marks_init : Marks root succ (fun _ => false) (fun _ => false) :=
  ⟨fun _ h => absurd h Bool.false_ne_true, fun _ h => absurd h Bool.false_ne_true,
    fun _ h => absurd h Bool.false_ne_true⟩

/-- **The marks are right** once nothing is deferred. -/
theorem Marks.mark_iff (marks : Marks root succ mark defer) (done : ∀ a, defer a = false)
    (roots : ∀ a, root a → mark a = true) : mark a = true ↔ Reach root succ a :=
  ⟨marks.sound a, fun reach => reach.of_closed (S := fun a => mark a = true) roots
    fun a ha => marks.closed a ha (done a)⟩

variable [DecidableEq α]

theorem update_true_iff {p : α → Bool} : update p a true b = true ↔ b = a ∨ p b = true := by
  rcases eq_or_ne b a with rfl | h
  · simp
  · simp [h]

/-- How many elements have a flag, if one of them gets the flag `v`. -/
theorem countP_update {l : List α} (nodup : l.Nodup) (ha : a ∈ l) (p : α → Bool) (v : Bool) :
    l.countP (update p a v) + (p a).toNat = l.countP p + v.toNat := by
  induction l with
  | nil => cases ha
  | cons b l ih =>
    obtain ⟨fresh, nodup⟩ := List.nodup_cons.mp nodup
    rw [List.countP_cons, List.countP_cons]
    by_cases hb : a = b
    · subst hb
      have same : l.countP (update p a v) = l.countP p := by
        refine List.countP_congr fun x hx => ?_
        rw [update_of_ne (ne_of_mem_of_not_mem hx fresh)]
      rw [same]
      cases p a <;> cases v <;> simp
    · have := ih nodup ((List.mem_cons.mp ha).resolve_left hb)
      rw [update_of_ne (Ne.symm hb)]
      omega

end BSDLite2.Marking
