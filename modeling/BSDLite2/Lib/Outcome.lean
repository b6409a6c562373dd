import Mathlib.Tactic

/-!
# Outcomes of computations that may fail

`Ends E P x` says how a computation `x : Except ε α` comes out: with a value that has `P`,
or with an error that has `E`.  With `E := fun _ => False` it is total correctness, with
`E := fun _ => True` partial correctness, and in between it says which errors cannot occur.
The rules follow the ways in which computations are put together.
-/

namespace BSDLite2.Outcome

universe u v w

variable {ε : Type u} {α : Type v} {β : Type w} {E E' : ε → Prop} {P P' : α → Prop} {Q : β → Prop}

/-- The computation ends with a value that has `P`, or with an error that has `E`. -/
def Ends (E : ε → Prop) (P : α → Prop) : Except ε α → Prop
  | .ok a => P a
  | .error e => E e

variable {x : Except ε α}

theorem Ends.mono (h : Ends E P x) (hE : ∀ e, E e → E' e) (hP : ∀ a, P a → P' a) :
    Ends E' P' x := by
  cases x with
  | ok a => exact hP a h
  | error e => exact hE e h

theorem Ends.imp (h : Ends E P x) (hP : ∀ a, P a → P' a) : Ends E P' x :=
  h.mono (fun _ => id) hP

theorem Ends.map {f : α → β} (h : Ends E P x) (hf : ∀ a, P a → Q (f a)) : Ends E Q (x.map f) := by
  cases x with
  | ok a => exact hf a h
  | error e => exact h

theorem Ends.bind {f : α → Except ε β} (h : Ends E P x) (hf : ∀ a, P a → Ends E Q (f a)) :
    Ends E Q (x.bind f) := by
  cases x with
  | ok a => exact hf a h
  | error e => exact h

theorem Ends.ok {a : α} (h : Ends E P x) (hx : x = .ok a) : P a := by
  subst hx
  exact h

theorem Ends.error {e : ε} (h : Ends E P x) (hx : x = .error e) : E e := by
  subst hx
  exact h

end BSDLite2.Outcome
