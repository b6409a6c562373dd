import Mathlib.Data.List.Basic
import Mathlib.Tactic

/-!
# Lists of labelled ranges

A list of elements, some of which are *mine*, that each cover points and carry a value.
The list is read as a partial map: the value at a point is that of the first element of
mine that covers it.  The elements of mine lie one before the other, so that no two
cover the same point; where the others stand between them does not matter.

* `look` — the map;
* `Change` — the values on a region are replaced, and nothing else changes;
* `Change.append_left` — a change behind elements that the region does not touch;
* `Change.refl`, `Change.head` — a change that starts with nothing, or at an element.
-/

namespace BSDLite2

open List

universe u v w z

/-- What the elements of a list of ranges are. -/
structure Ranges (E : Type u) (X : Type v) (V : Type w) (N : Type z) where
  mine : E → Prop
  covers : E → X → Prop
  val : E → V
  /-- an element lies before another -/
  before : E → E → Prop
  /-- an element is well formed -/
  good : E → Prop
  name : E → N
  [decMine : DecidablePred mine]
  [decCovers : ∀ e x, Decidable (covers e x)]

attribute [instance] Ranges.decMine Ranges.decCovers

namespace Ranges

variable {E : Type u} {X : Type v} {V : Type w} {N : Type z} (R : Ranges E X V N)

/-! ## The map -/

/-- The value at a point. -/
def look (x : X) : List E → Option V
  | [] => none
  | e :: l => if R.mine e ∧ R.covers e x then some (R.val e) else look x l

def own (l : List E) : List E := l.filter R.mine

def others (l : List E) : List E := l.filter fun e => ¬ R.mine e

@[simp] theorem own_nil : R.own [] = [] := rfl

@[simp] theorem own_append (l l' : List E) : R.own (l ++ l') = R.own l ++ R.own l' :=
  filter_append ..

@[simp] theorem others_append (l l' : List E) : R.others (l ++ l') = R.others l ++ R.others l' :=
  filter_append ..

variable {l : List E} {e : E}

theorem mem_own : e ∈ R.own l ↔ e ∈ l ∧ R.mine e := by
  simp [own]

theorem mem_others : e ∈ R.others l ↔ e ∈ l ∧ ¬ R.mine e := by
  simp [others]

variable {R}

theorem own_cons_of_mine (h : R.mine e) (l : List E) : R.own (e :: l) = e :: R.own l := by
  simp [own, h]

theorem own_cons_of_not_mine (h : ¬ R.mine e) (l : List E) : R.own (e :: l) = R.own l := by
  simp [own, h]

@[simp] theorem look_nil (x : X) : R.look x [] = none := rfl

variable {x : X}

theorem look_cons_of_not (h : ¬ (R.mine e ∧ R.covers e x)) (l : List E) :
    R.look x (e :: l) = R.look x l :=
  if_neg h

theorem look_cons_of_covers (h : R.mine e) (h' : R.covers e x) (l : List E) :
    R.look x (e :: l) = some (R.val e) :=
  if_pos ⟨h, h'⟩

theorem look_append (x : X) (l l' : List E) :
    R.look x (l ++ l') = (R.look x l).or (R.look x l') := by
  induction l with
  | nil => rfl
  | cons e l ih =>
    by_cases h : R.mine e ∧ R.covers e x
    · rw [cons_append, look_cons_of_covers h.1 h.2, look_cons_of_covers h.1 h.2]
      rfl
    · rw [cons_append, look_cons_of_not h, look_cons_of_not h, ih]

/-- An element of mine that covers a point has its value. -/
theorem exists_of_look {v : V} (h : R.look x l = some v) :
    ∃ e ∈ R.own l, R.covers e x ∧ R.val e = v := by
  induction l with
  | nil => cases h
  | cons e l ih =>
    by_cases here : R.mine e ∧ R.covers e x
    · rw [look_cons_of_covers here.1 here.2] at h
      exact ⟨e, (R.mem_own).mpr ⟨mem_cons_self, here.1⟩, here.2, Option.some.inj h⟩
    · rw [look_cons_of_not here] at h
      obtain ⟨e', he', hcovers, hval⟩ := ih h
      obtain ⟨hmem, hmine⟩ := R.mem_own.mp he'
      exact ⟨e', R.mem_own.mpr ⟨mem_cons_of_mem _ hmem, hmine⟩, hcovers, hval⟩

theorem look_eq_none (h : ∀ e ∈ R.own l, ¬ R.covers e x) : R.look x l = none := by
  cases hlook : R.look x l with
  | none => rfl
  | some v =>
    obtain ⟨e, he, hcovers, -⟩ := exists_of_look hlook
    exact absurd hcovers (h e he)

theorem look_isSome (he : e ∈ R.own l) (hcovers : R.covers e x) : R.look x l ≠ none := by
  induction l with
  | nil => cases he
  | cons a l ih =>
    by_cases here : R.mine a ∧ R.covers a x
    · rw [look_cons_of_covers here.1 here.2]
      exact Option.some_ne_none _
    · rw [look_cons_of_not here]
      refine ih ?_
      obtain ⟨hmem, hmine⟩ := R.mem_own.mp he
      rcases mem_cons.mp hmem with rfl | hmem
      · exact absurd ⟨hmine, hcovers⟩ here
      · exact R.mem_own.mpr ⟨hmem, hmine⟩

/-- Only the elements of mine count. -/
theorem look_own_eq (x : X) (l : List E) : R.look x (R.own l) = R.look x l := by
  induction l with
  | nil => rfl
  | cons e l ih =>
    by_cases hmine : R.mine e
    · rw [own_cons_of_mine hmine, look, look, ih]
    · rw [own_cons_of_not_mine hmine, look_cons_of_not fun h => hmine h.1, ih]

/-- If no two elements of mine cover the same point, the value is that of any element
that covers it. -/
theorem look_of_mem (disjoint : (R.own l).Pairwise fun a b => ¬ (R.covers a x ∧ R.covers b x))
    (he : e ∈ R.own l) (hcovers : R.covers e x) : R.look x l = some (R.val e) := by
  induction l with
  | nil => cases he
  | cons a l ih =>
    by_cases hmine : R.mine a
    · rw [own_cons_of_mine hmine] at disjoint he
      obtain ⟨apart, rest⟩ := pairwise_cons.mp disjoint
      rcases mem_cons.mp he with rfl | he
      · exact look_cons_of_covers hmine hcovers l
      · rw [look_cons_of_not fun h => apart e he ⟨h.2, hcovers⟩, ih rest he]
    · rw [own_cons_of_not_mine hmine] at disjoint he
      rw [look_cons_of_not fun h => hmine h.1, ih disjoint he]

/-! ## Changes -/

/-- Points, and the elements that lie to the left of them. -/
structure Region (R : Ranges E X V N) where
  inside : X → Prop
  left : E → Prop
  apart : ∀ e x, left e → R.covers e x → ¬ inside x
  [decInside : DecidablePred inside]

attribute [instance] Region.decInside

/-- The values on a region become `v`.  What lies before all elements of mine and left of
the region still does, and the names of the elements are old ones or among `new`. -/
structure Change (T : Region R) (v : Option V) (new : List N) (l l' : List E) : Prop where
  others_eq : R.others l' = R.others l
  look_eq : ∀ x, R.look x l' = if T.inside x then v else R.look x l
  sorted : (R.own l').Pairwise R.before
  all_good : ∀ e ∈ R.own l', R.good e
  lower : ∀ e, T.left e → (∀ b ∈ R.own l, R.before e b) → ∀ b ∈ R.own l', R.before e b
  names : (l'.map R.name).Subperm (new ++ l.map R.name)

variable {T : Region R} {v : Option V} {new : List N}

/-- **A change behind elements that the region does not touch.** -/
theorem Change.append_left {pre l' : List E} (change : Change T v new l l')
    (sorted : (R.own (pre ++ l)).Pairwise R.before) (hgood : ∀ e ∈ R.own pre, R.good e)
    (hleft : ∀ e ∈ R.own pre, T.left e) : Change T v new (pre ++ l) (pre ++ l') := by
  rw [own_append, pairwise_append] at sorted
  obtain ⟨hpre, -, hcross⟩ := sorted
  refine ⟨?_, ?_, ?_, ?_, ?_, ?_⟩
  · rw [others_append, others_append, change.others_eq]
  · intro x
    rw [look_append, look_append, change.look_eq]
    by_cases hx : T.inside x
    · rw [if_pos hx, if_pos hx,
        look_eq_none fun e he hcov => T.apart e x (hleft e he) hcov hx, Option.none_or]
    · rw [if_neg hx, if_neg hx]
  · rw [own_append, pairwise_append]
    exact ⟨hpre, change.sorted, fun e he => change.lower e (hleft e he) (hcross e he)⟩
  · intro e he
    rw [own_append] at he
    exact (mem_append.mp he).elim (hgood e) (change.all_good e)
  · intro e he hbefore b hb
    rw [own_append] at hbefore hb
    rcases mem_append.mp hb with hb | hb
    · exact hbefore b (mem_append_left _ hb)
    · exact change.lower e he (fun c hc => hbefore c (mem_append_right _ hc)) b hb
  · rw [map_append, map_append]
    refine ((subperm_append_left _).mpr change.names).trans (List.Perm.subperm ?_)
    rw [← append_assoc, ← append_assoc]
    exact perm_append_comm.append_right _

/-- Nothing is to be cleared. -/
theorem Change.refl (sorted : (R.own l).Pairwise R.before) (hgood : ∀ e ∈ R.own l, R.good e)
    (untouched : ∀ e ∈ R.own l, ∀ x, R.covers e x → ¬ T.inside x) : Change T none new l l := by
  refine ⟨rfl, fun x => ?_, sorted, hgood, fun _ _ h => h, ?_⟩
  · by_cases hx : T.inside x
    · rw [if_pos hx, look_eq_none fun e he hcov => untouched e he x hcov hx]
    · rw [if_neg hx]
  · exact (sublist_append_right _ _).subperm

/-- What the elements `ms` have to be to replace an element, in front of a list where the
region is cleared: they cover what it covered outside the region, with its value, and the
region with the new one. -/
structure Replaces (T : Region R) (v : Option V) (new : List N) (old ms rest : List E) :
    Prop where
  mine : ∀ m ∈ ms, R.mine m
  good : ∀ m ∈ ms, R.good m
  look_eq : ∀ x, R.look x ms = if T.inside x then v else R.look x old
  sorted : ms.Pairwise R.before
  cross : ∀ m ∈ ms, ∀ b ∈ R.own rest, R.before m b
  lower : ∀ c, T.left c → (∀ e ∈ old, R.before c e) → ∀ m ∈ ms, R.before c m
  names : (ms.map R.name).Subperm (new ++ old.map R.name)

/-- **A change at the front of the list.** -/
theorem Change.head (old ms : List E) {l' : List E} (hold : ∀ e ∈ old, R.mine e)
    (clear : Change T none [] l l') (front : Replaces T v new old ms l') :
    Change T v new (old ++ l) (ms ++ l') := by
  have hown : R.own ms = ms :=
    filter_eq_self.mpr fun m hm => by simpa using front.mine m hm
  have hothers : ∀ es : List E, (∀ e ∈ es, R.mine e) → R.others es = [] :=
    fun es h => filter_eq_nil_iff.mpr fun m hm => by simpa using h m hm
  refine ⟨?_, fun x => ?_, ?_, ?_, ?_, ?_⟩
  · rw [others_append, others_append, hothers ms front.mine, hothers old hold, clear.others_eq]
  · rw [look_append, look_append, front.look_eq, clear.look_eq]
    by_cases hx : T.inside x
    · rw [if_pos hx, if_pos hx, if_pos hx, Option.or_none]
    · rw [if_neg hx, if_neg hx, if_neg hx]
  · rw [own_append, hown, pairwise_append]
    exact ⟨front.sorted, clear.sorted, front.cross⟩
  · intro c hc
    rw [own_append, hown] at hc
    exact (mem_append.mp hc).elim (front.good c) (clear.all_good c)
  · intro c hc hbefore b hb
    rw [own_append] at hbefore
    rw [own_append, hown] at hb
    rcases mem_append.mp hb with hb | hb
    · refine front.lower c hc (fun e he => hbefore e (mem_append_left _ ?_)) b hb
      exact R.mem_own.mpr ⟨he, hold e he⟩
    · exact clear.lower c hc (fun d hd => hbefore d (mem_append_right _ hd)) b hb
  · have names := clear.names
    rw [map_append, map_append, ← append_assoc]
    exact front.names.append names

end Ranges

end BSDLite2
