import Mathlib.Data.List.Basic
import Mathlib.Tactic

/-!
# Schedules

Processes that share a state take turns: what one turn does is a function of the
state and of a label, which says whose turn it is and how what is outside the program
turns out.  A label that cannot be taken in a state has no successor.  A schedule is a
list of labels.

* `run` — the state a schedule leads to;
* `Along` — a condition on every turn of a schedule, in the state it is taken in;
* `run_invariant` — the invariant rule, for schedules whose turns all meet a
  condition;
* `along_iff_reached` — a condition on turns for a property of the states on the way;
* `run_wrong_iff` — schedules that end with a turn that goes wrong;
* `along_congr_of_invariant`, `along_congr` — two conditions that agree on every turn.
-/

namespace BSDLite2.Schedule

universe u v

variable {σ : Type u} {α : Type v} (step : σ → α → Option σ)

/-- The state that a schedule leads to. -/
def run : σ → List α → Option σ
  | s, [] => some s
  | s, a :: as => (step s a).bind fun t => run t as

/-- Every turn of the schedule meets `G`. -/
def Along (G : σ → α → Prop) : σ → List α → Prop
  | _, [] => True
  | s, a :: as =>
    match step s a with
    | none => True
    | some t => G s a ∧ Along G t as

instance decidableAlong (G : σ → α → Prop) [∀ s a, Decidable (G s a)] :
    ∀ s as, Decidable (Along step G s as)
  | _, [] => inferInstanceAs (Decidable True)
  | s, a :: as =>
    match h : step s a with
    | none => decidable_of_iff True (by simp [Along, h])
    | some t =>
      have := decidableAlong G t as
      decidable_of_iff (G s a ∧ Along step G t as) (by simp [Along, h])

variable {step}

variable {as : List α}

theorem run_cons {s u : σ} {a : α} :
    run step s (a :: as) = some u ↔ ∃ t, step s a = some t ∧ run step t as = some u := by
  simp [run, Option.bind_eq_some_iff]

theorem run_append (s : σ) (as bs : List α) :
    run step s (as ++ bs) = (run step s as).bind fun t => run step t bs := by
  induction as generalizing s with
  | nil => rfl
  | cons a as ih =>
    rw [List.cons_append, run, run, Option.bind_assoc]
    exact congrArg _ (funext ih)

/-- A schedule can be taken to its end if every turn can be taken. -/
theorem run_total (total : ∀ s a, ∃ t, step s a = some t) (s : σ) (as : List α) :
    ∃ t, run step s as = some t := by
  induction as generalizing s with
  | nil => exact ⟨s, rfl⟩
  | cons a as ih =>
    obtain ⟨t, ht⟩ := total s a
    obtain ⟨u, hu⟩ := ih t
    exact ⟨u, run_cons.mpr ⟨t, ht, hu⟩⟩

variable {G : σ → α → Prop}

theorem along_cons {s t : σ} {a : α} (h : step s a = some t) (as : List α) :
    Along step G s (a :: as) ↔ G s a ∧ Along step G t as := by
  simp [Along, h]

theorem along_of_stuck {s : σ} {a : α} (h : step s a = none) (as : List α) :
    Along step G s (a :: as) := by
  simp [Along, h]

/-- A condition that does not depend on the state. -/
theorem along_of_forall {G : α → Prop} (h : ∀ a ∈ as, G a) (s : σ) :
    Along step (fun _ a => G a) s as := by
  induction as generalizing s with
  | nil => trivial
  | cons a as ih =>
    obtain ⟨ha, hrest⟩ := List.forall_mem_cons.mp h
    cases ht : step s a with
    | none => exact along_of_stuck ht as
    | some t => exact (along_cons ht as).mpr ⟨ha, ih hrest t⟩

theorem along_true (s : σ) (as : List α) : Along step (fun _ _ => True) s as :=
  along_of_forall (G := fun _ => True) (fun _ _ => trivial) s

variable {I : σ → Prop}

/-- **The invariant rule.**  What holds at first, and is kept by every turn that meets
`G`, holds after a schedule whose turns all do. -/
theorem run_invariant (keeps : ∀ s a t, I s → G s a → step s a = some t → I t) {s t : σ}
    (start : I s) (meets : Along step G s as) (h : run step s as = some t) : I t := by
  induction as generalizing s with
  | nil =>
    cases h
    exact start
  | cons a as ih =>
    obtain ⟨u, hu, hrest⟩ := run_cons.mp h
    obtain ⟨hG, hmeets⟩ := (along_cons hu as).mp meets
    exact ih (keeps s a u start hG hu) hmeets hrest

/-- **Two conditions that agree** on every turn from a state with an invariant, which the turns
that meet them keep, agree along a schedule. -/
theorem along_congr_of_invariant {H : σ → α → Prop}
    (keeps : ∀ s a t, I s → G s a → step s a = some t → I t)
    (iff : ∀ s a t, I s → step s a = some t → (G s a ↔ H s a)) {s : σ} (start : I s) :
    Along step G s as ↔ Along step H s as := by
  induction as generalizing s with
  | nil => exact Iff.rfl
  | cons a as ih =>
    cases h : step s a with
    | none => exact iff_of_true (along_of_stuck h as) (along_of_stuck h as)
    | some t =>
      rw [along_cons h, along_cons h, ← iff s a t start h]
      exact and_congr_right fun hG => ih (keeps s a t start hG h)

/-- Two conditions that agree on every turn agree along a schedule. -/
theorem along_congr {H : σ → α → Prop} (iff : ∀ s a t, step s a = some t → (G s a ↔ H s a))
    {s : σ} :
    Along step G s as ↔ Along step H s as :=
  along_congr_of_invariant (fun _ _ _ _ _ _ => trivial)
    (fun s a t _ => iff s a t) trivial

/-- **A turn that goes wrong is the last.**  A turn that meets `G` keeps the invariant
and does not go wrong, and any other goes wrong.  Then a schedule goes wrong exactly if
not all its turns meet `G`, and keeps the invariant if it does not go wrong. -/
theorem run_wrong_iff {W : σ → Prop} {R : σ → α → Prop}
    (keeps : ∀ s a t, I s → R s a → G s a → step s a = some t → I t ∧ ¬ W t)
    (breaks : ∀ s a t, I s → R s a → ¬ G s a → step s a = some t → W t)
    (last : ∀ s a, W s → step s a = none) {s t : σ} (start : I s ∧ ¬ W s) (room : Along step R s as)
    (h : run step s as = some t) : (W t ↔ ¬ Along step G s as) ∧ (¬ W t → I t) := by
  induction as generalizing s with
  | nil =>
    cases h
    exact ⟨iff_of_false start.2 (not_not.mpr trivial), fun _ => start.1⟩
  | cons a as ih =>
    obtain ⟨u, hu, hrest⟩ := run_cons.mp h
    obtain ⟨hR, hroom⟩ := (along_cons hu as).mp room
    rw [along_cons hu]
    by_cases hG : G s a
    · simpa [hG] using ih (keeps s a u start.1 hR hG hu) hroom hrest
    · have wrong := breaks s a u start.1 hR hG hu
      cases as with
      | nil =>
        cases hrest
        exact ⟨iff_of_true wrong fun all => hG all.1, fun right => absurd wrong right⟩
      | cons b bs =>
        obtain ⟨v, hv, -⟩ := run_cons.mp hrest
        rw [last u b wrong] at hv
        cases hv

/-- What a state has only if those before it had it. -/
theorem run_back {L : σ → Prop} (back : ∀ s a t, step s a = some t → L t → L s) {s t : σ}
    (h : run step s as = some t) (live : L t) : L s := by
  induction as generalizing s with
  | nil =>
    cases h
    exact live
  | cons a as ih =>
    obtain ⟨u, hu, hrest⟩ := run_cons.mp h
    exact back s a u hu (ih hrest)

/-- **A condition on turns for a property of states.**  Among live states, a turn that
meets `G` keeps the invariant and leads to a state with `W`, and any other to one
without.  Then the turns of a schedule to a live state all meet `G` exactly if every
state on the way has `W`. -/
theorem along_iff_reached {L W : σ → Prop} {R : σ → α → Prop}
    (back : ∀ s a t, step s a = some t → L t → L s)
    (keeps : ∀ s a t, I s → R s a → G s a → step s a = some t → L t → I t ∧ W t)
    (breaks : ∀ s a t, I s → R s a → ¬ G s a → step s a = some t → L t → ¬ W t) {s t : σ}
    (start : I s ∧ W s) (room : Along step R s as) (h : run step s as = some t) (live : L t) :
    Along step G s as ↔ ∀ bs u, bs <+: as → run step s bs = some u → W u := by
  induction as generalizing s with
  | nil =>
    refine iff_of_true trivial fun bs u isPre h => ?_
    rw [List.prefix_nil.mp isPre] at h
    cases h
    exact start.2
  | cons a as ih =>
    obtain ⟨u, hu, hrest⟩ := run_cons.mp h
    obtain ⟨hR, hroom⟩ := (along_cons hu as).mp room
    have hlive : L u := run_back back hrest live
    rw [along_cons hu]
    constructor
    · rintro ⟨hG, hall⟩ bs v isPre hv
      have next := keeps s a u start.1 hR hG hu hlive
      cases bs with
      | nil =>
        cases hv
        exact start.2
      | cons b bs =>
        obtain ⟨rfl, shorter⟩ := List.cons_prefix_cons.mp isPre
        obtain ⟨w, hw, hrun⟩ := run_cons.mp hv
        cases hu.symm.trans hw
        exact (ih next hroom hrest).mp hall bs v shorter hrun
    · intro all
      have hW : W u := all [a] u (by simp) (run_cons.mpr ⟨u, hu, rfl⟩)
      have hG : G s a := by
        by_contra hG
        exact breaks s a u start.1 hR hG hu hlive hW
      refine ⟨hG, (ih (keeps s a u start.1 hR hG hu hlive) hroom hrest).mpr ?_⟩
      intro bs v isPre hv
      exact all (a :: bs) v (List.cons_prefix_cons.mpr ⟨rfl, isPre⟩) (run_cons.mpr ⟨u, hu, hv⟩)

end BSDLite2.Schedule
