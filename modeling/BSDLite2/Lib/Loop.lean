import Mathlib.Logic.Relation
import Mathlib.Tactic

/-!
# Loops that step, stop or go wrong

A `while (1)` loop of a C function is a deterministic machine: one turn of the
body either leaves a new loop state, or returns, or does something the language
gives no meaning to (reads outside an array, divides by zero).  This module is
the small theory of such machines, for any state `σ`, result `ρ` and fault `ε`:

* `Turn` — what one turn of the body does;
* `Reaches` — the loop states a run passes through;
* `runFor` — the run cut off after a given number of turns;
* `Reaches.invariant` — the invariant rule;
* `runFor_isDone_of_variant` — the termination rule, with the bound it gives;
* `runFor_congr` — two bodies that agree along a run have the same run.
-/

namespace BSDLite2.Loop

universe u v w

variable {σ : Type u} {ρ : Type v} {ε : Type w}

/-- What one turn of a loop body does. -/
inductive Turn (σ : Type u) (ρ : Type v) (ε : Type w) where
  /-- the loop goes on from a new state -/
  | next (s : σ)
  /-- the function returns -/
  | done (r : ρ)
  /-- the body leaves the defined behaviour of the language -/
  | fault (e : ε)
  deriving DecidableEq

/-- The states a run passes through when it starts at `s`: `s` itself and
everything a finite number of turns leads to. -/
def Reaches (step : σ → Turn σ ρ ε) : σ → σ → Prop :=
  Relation.ReflTransGen fun s t => step s = .next t

namespace Reaches

variable {step : σ → Turn σ ρ ε} {s t u : σ}

@[refl] theorem refl (s : σ) : Reaches step s s := Relation.ReflTransGen.refl

theorem tail (h : Reaches step s t) (h' : step t = .next u) : Reaches step s u :=
  Relation.ReflTransGen.tail h h'

theorem head (h : step s = .next t) (h' : Reaches step t u) : Reaches step s u :=
  Relation.ReflTransGen.head h h'

/-- **The invariant rule.**  What holds at the start and survives every turn
taken from a reached state holds at every reached state. -/
theorem invariant {I : σ → Prop} (h₀ : I s)
    (hstep : ∀ t u, Reaches step s t → I t → step t = .next u → I u) :
    ∀ t, Reaches step s t → I t := by
  intro t h
  induction h with
  | refl => exact h₀
  | tail hst htu ih => exact hstep _ _ hst ih htu

end Reaches

/-- The run from `s`, cut off after `n` turns: `next` means that the budget ran
out with the loop still going. -/
def runFor (step : σ → Turn σ ρ ε) : ℕ → σ → Turn σ ρ ε
  | 0, s => .next s
  | n + 1, s =>
    match step s with
    | .next t => runFor step n t
    | .done r => .done r
    | .fault e => .fault e

section Run

variable (step : σ → Turn σ ρ ε) {s : σ}

@[simp] theorem runFor_zero (s : σ) : runFor step 0 s = .next s := rfl

theorem runFor_succ_of_next {s t : σ} (h : step s = .next t) (n : ℕ) :
    runFor step (n + 1) s = runFor step n t := by
  simp [runFor, h]

theorem runFor_succ_of_done {r : ρ} (h : step s = .done r) (n : ℕ) :
    runFor step (n + 1) s = .done r := by
  simp [runFor, h]

theorem runFor_succ_of_fault {e : ε} (h : step s = .fault e) (n : ℕ) :
    runFor step (n + 1) s = .fault e := by
  simp [runFor, h]

/-- A run that returns takes no faulting turn: every state it passes through
goes on or returns. -/
theorem step_ne_fault_of_runFor_done {n : ℕ} {r : ρ} (h : runFor step n s = .done r) :
    ∀ t, Reaches step s t → ∀ e, step t ≠ .fault e := by
  induction n generalizing s with
  | zero => simp at h
  | succ n ih =>
    intro t hst e hfault
    rcases Relation.ReflTransGen.cases_head hst with rfl | ⟨u, hsu, hut⟩
    · rw [runFor_succ_of_fault step hfault] at h
      cases h
    · rw [runFor_succ_of_next step hsu] at h
      exact ih h t hut e hfault

/-- **The termination rule.**  If no reached state faults, and every turn taken
from one lowers the variant `m`, then the function returns within `m s + 1`
turns. -/
theorem runFor_isDone_of_variant (m : σ → ℕ)
    (hfault : ∀ t, Reaches step s t → ∀ e, step t ≠ .fault e)
    (hdesc : ∀ t u, Reaches step s t → step t = .next u → m u < m t) :
    ∀ n, m s < n → ∃ r, runFor step n s = .done r := by
  intro n
  induction n generalizing s with
  | zero => intro h; omega
  | succ n ih =>
    intro hn
    cases hs : step s with
    | done r => exact ⟨r, runFor_succ_of_done step hs n⟩
    | fault e => exact absurd hs (hfault s (Reaches.refl s) e)
    | next t =>
      rw [runFor_succ_of_next step hs]
      have hlt : m t < m s := hdesc s t (Reaches.refl s) hs
      refine ih (fun u hu => hfault u (Reaches.head hs hu))
        (fun u v hu => hdesc u v (Reaches.head hs hu)) (by omega)

end Run

/-- **The congruence rule.**  Two bodies that agree at every state the first
one's run passes through have the same run. -/
theorem runFor_congr {step step' : σ → Turn σ ρ ε} {s : σ}
    (h : ∀ t, Reaches step s t → step t = step' t) (n : ℕ) :
    runFor step n s = runFor step' n s := by
  induction n generalizing s with
  | zero => rfl
  | succ n ih =>
    have hs : step s = step' s := h s (Reaches.refl s)
    cases hstep : step s with
    | next t =>
      rw [runFor_succ_of_next step hstep, runFor_succ_of_next step' (hs ▸ hstep)]
      exact ih fun u hu => h u (Reaches.head hstep hu)
    | done r =>
      rw [runFor_succ_of_done step hstep, runFor_succ_of_done step' (hs ▸ hstep)]
    | fault e =>
      rw [runFor_succ_of_fault step hstep, runFor_succ_of_fault step' (hs ▸ hstep)]

end BSDLite2.Loop
