import Mathlib.Data.List.TakeWhile
import Mathlib.Tactic

/-!
# Reassembling a stream from pieces

Pieces of a stream arrive in any order and may overlap.  What has arrived is
kept as a list of pieces in the order of the stream, none of which overlap: a new
piece loses what its predecessor has already, and its successors lose what it
has.

* `Stretch` — what a piece is: it occupies the positions from `start` to `stop`
  and can lose its front;
* `Ordered` — a list of non-empty pieces, in order and disjoint;
* `Covers` — the positions of a list of pieces;
* `put` — the list with a new piece (`ordered_put`, `covers_put`);
* `advance` — what is contiguous with a given position is taken off the list
  (`ordered_advance`, `covers_advance`);
* `Queue` — the operations by which a program keeps such a list in terms of its
  own records, and `Queue.enqueue`, the insertion as programs carry it out;
  `Queue.enqueue_eq` says that it is `put` as soon as the operations agree with
  those on pieces (`Queue.Agrees`).
-/

namespace BSDLite2.Pieces

universe u

/-- A piece of a stream, which occupies the positions from `start` up to `stop`.
`trim x` removes what is before the position `x`. -/
class Stretch (E : Type u) where
  start : E → ℕ
  stop : E → ℕ
  trim : ℕ → E → E
  start_trim : ∀ x e, start e ≤ x → x < stop e → start (trim x e) = x
  stop_trim : ∀ x e, start e ≤ x → x < stop e → stop (trim x e) = stop e

open Stretch List

variable {E : Type u} [Stretch E]

/-! ## Lists of pieces -/

/-- The pieces are not empty, in order and disjoint, and none is before `lo`. -/
def Ordered : ℕ → List E → Prop
  | _, [] => True
  | lo, e :: q => lo ≤ start e ∧ start e < stop e ∧ Ordered (stop e) q

/-- Where the last piece ends. -/
def endOf : ℕ → List E → ℕ
  | lo, [] => lo
  | _, e :: q => endOf (stop e) q

/-- A position that one of the pieces occupies. -/
def Covers (q : List E) (i : ℕ) : Prop := ∃ e ∈ q, start e ≤ i ∧ i < stop e

@[simp] theorem ordered_nil (lo : ℕ) : Ordered lo ([] : List E) := trivial

@[simp] theorem ordered_cons (lo : ℕ) (e : E) (q : List E) :
    Ordered lo (e :: q) ↔ lo ≤ start e ∧ start e < stop e ∧ Ordered (stop e) q := Iff.rfl

@[simp] theorem endOf_nil (lo : ℕ) : endOf lo ([] : List E) = lo := rfl

@[simp] theorem covers_nil (i : ℕ) : ¬ Covers ([] : List E) i := by
  simp [Covers]

@[simp] theorem covers_cons (e : E) (q : List E) (i : ℕ) :
    Covers (e :: q) i ↔ (start e ≤ i ∧ i < stop e) ∨ Covers q i := by
  simp [Covers]

@[simp] theorem covers_append (q q' : List E) (i : ℕ) :
    Covers (q ++ q') i ↔ Covers q i ∨ Covers q' i := by
  simp only [Covers, mem_append, or_and_right, exists_or]

theorem endOf_concat (lo : ℕ) (q : List E) (e : E) : endOf lo (q ++ [e]) = stop e := by
  induction q generalizing lo with
  | nil => rfl
  | cons a q ih => exact ih _

theorem ordered_append (lo : ℕ) (q q' : List E) :
    Ordered lo (q ++ q') ↔ Ordered lo q ∧ Ordered (endOf lo q) q' := by
  induction q generalizing lo with
  | nil => simp
  | cons e q ih =>
    rw [cons_append, ordered_cons, ordered_cons, ih]
    tauto

variable {q : List E} {lo x : ℕ}

theorem Ordered.mono {lo' : ℕ} (h : Ordered lo q) (hle : lo' ≤ lo) : Ordered lo' q := by
  cases q with
  | nil => trivial
  | cons e q => exact ⟨hle.trans h.1, h.2⟩

theorem Ordered.le_of_covers {i : ℕ} (h : Ordered lo q) (hi : Covers q i) : lo ≤ i := by
  induction q generalizing lo with
  | nil => exact absurd hi (covers_nil i)
  | cons e q ih =>
    rcases (covers_cons e q i).mp hi with he | hq
    · exact h.1.trans he.1
    · exact (h.1.trans h.2.1.le).trans (ih h.2.2 hq)

theorem Ordered.lt_of_mem (h : Ordered lo q) : ∀ e ∈ q, lo ≤ start e ∧ start e < stop e := by
  induction q generalizing lo with
  | nil => simp
  | cons a q ih =>
    intro e he
    rcases mem_cons.mp he with rfl | he
    · exact ⟨h.1, h.2.1⟩
    · obtain ⟨h1, h2⟩ := ih h.2.2 e he
      exact ⟨(h.1.trans h.2.1.le).trans h1, h2⟩

/-! ## A new piece -/

/-- The pieces without what is before the position `x`. -/
def absorb (x : ℕ) : List E → List E
  | [] => []
  | e :: q =>
    if x ≤ start e then e :: q
    else if x < stop e then trim x e :: q
    else absorb x q

/-- The pieces that start at or before `x`. -/
def upTo (x : ℕ) (q : List E) : List E := q.takeWhile fun e => decide (start e ≤ x)

/-- The pieces from the first that starts after `x`. -/
def after (x : ℕ) (q : List E) : List E := q.dropWhile fun e => decide (start e ≤ x)

/-- Where the predecessor of a piece at `x` ends, or `x` if there is none. -/
def reach (x : ℕ) (q : List E) : ℕ := endOf x (upTo x q)

/-- **A new piece**: dropped if its predecessor has all of it, and otherwise put
behind it. -/
def put (p : E) (q : List E) : List E :=
  if stop p ≤ reach (start p) q then q
  else upTo (start p) q ++
    (if start p < reach (start p) q then trim (reach (start p) q) p else p) ::
      absorb (stop p) (after (start p) q)

theorem upTo_append_after (x : ℕ) (q : List E) : upTo x q ++ after x q = q :=
  takeWhile_append_dropWhile

theorem start_of_mem_upTo {e : E} (h : e ∈ upTo x q) : start e ≤ x := by
  simpa using mem_takeWhile_imp h

theorem Ordered.after (h : Ordered lo q) : Ordered (x + 1) (after x q) := by
  induction q generalizing lo with
  | nil => trivial
  | cons e q ih =>
    by_cases he : start e ≤ x
    · rw [Pieces.after, dropWhile_cons_of_pos (by simpa using he)]
      exact ih h.2.2
    · rw [Pieces.after, dropWhile_cons_of_neg (by simpa using he)]
      exact ⟨by omega, h.2⟩

theorem ordered_absorb (x : ℕ) (h : Ordered lo q) : Ordered x (absorb x q) := by
  induction q generalizing lo with
  | nil => trivial
  | cons e q ih =>
    rw [absorb]
    split
    · next hx => exact ⟨hx, h.2⟩
    · split
      · next hx hlt =>
          have hle : start e ≤ x := by omega
          rw [ordered_cons, start_trim x e hle hlt, stop_trim x e hle hlt]
          exact ⟨le_rfl, hlt, h.2.2⟩
      · exact ih h.2.2

theorem covers_absorb (x i : ℕ) (h : Ordered lo q) :
    Covers (absorb x q) i ↔ x ≤ i ∧ Covers q i := by
  induction q generalizing lo with
  | nil => simp [absorb]
  | cons e q ih =>
    have hq : Covers q i → stop e ≤ i := h.2.2.le_of_covers
    have hne := h.2.1
    rw [absorb]
    split
    · rw [covers_cons]
      constructor
      · intro hc
        refine ⟨?_, hc⟩
        rcases hc with hc | hc
        · omega
        · have := hq hc
          omega
      · exact fun hc => hc.2
    · split
      · next hx hlt =>
          have hle : start e ≤ x := by omega
          rw [covers_cons, covers_cons, start_trim x e hle hlt, stop_trim x e hle hlt]
          constructor
          · rintro (hc | hc)
            · exact ⟨hc.1, .inl ⟨by omega, hc.2⟩⟩
            · exact ⟨by have := hq hc; omega, .inr hc⟩
          · rintro ⟨hxi, hc | hc⟩
            · exact .inl ⟨hxi, hc.2⟩
            · exact .inr hc
      · rw [ih h.2.2, covers_cons]
        refine and_congr_right fun hxi => ?_
        constructor
        · exact .inr
        · rintro (hc | hc)
          · omega
          · exact hc

/-- The predecessor reaches to the end of the pieces before, and covers what is
between the new piece's start and there. -/
theorem reach_spec (h : Ordered lo q) (hlo : lo ≤ x) :
    Ordered lo (upTo x q) ∧ endOf lo (upTo x q) ≤ max x (reach x q) ∧
      Ordered (reach x q) (after x q) ∧
      ∀ i, x ≤ i → i < reach x q → Covers (upTo x q) i := by
  have hq := h
  rw [← upTo_append_after x q, ordered_append] at hq
  obtain ⟨hpre, hpost⟩ := hq
  unfold reach
  rcases (upTo x q).eq_nil_or_concat' with hnil | ⟨pre, a, hconcat⟩
  · rw [hnil] at ⊢
    refine ⟨trivial, by simpa using hlo, ?_, fun i hxi hi => ?_⟩
    · exact (h.after).mono (Nat.le_succ x)
    · exact absurd hi (not_lt.mpr hxi)
  · have ha : start a ≤ x := start_of_mem_upTo (q := q) (by simp [hconcat])
    rw [hconcat] at hpre hpost ⊢
    rw [endOf_concat] at hpost ⊢
    rw [endOf_concat]
    refine ⟨hpre, le_max_right _ _, hpost, fun i hxi hi => ?_⟩
    rw [covers_append]
    exact .inr (by simp; omega)

section Put

variable {lo : ℕ} {p : E} {q : List E}

/-- The new piece as it is put into the list. -/
theorem trimmed_spec (x : ℕ) (hx : ¬ stop p ≤ x) :
    start (if start p < x then trim x p else p) = max (start p) x ∧
      stop (if start p < x then trim x p else p) = stop p := by
  split
  · next h =>
      rw [start_trim x p h.le (by omega), stop_trim x p h.le (by omega)]
      exact ⟨(max_eq_right h.le).symm, rfl⟩
  · next h => exact ⟨(max_eq_left (not_lt.mp h)).symm, rfl⟩

/-- **The list stays in order.** -/
theorem ordered_put (h : Ordered lo q) (hlo : lo ≤ start p) (hp : start p < stop p) :
    Ordered lo (put p q) := by
  obtain ⟨hpre, hend, hpost, -⟩ := reach_spec h hlo
  rw [put]
  split
  · exact h
  · next hx =>
      obtain ⟨hstart, hstop⟩ := trimmed_spec _ hx
      rw [ordered_append, ordered_cons, hstart, hstop]
      exact ⟨hpre, hend, by omega, ordered_absorb _ hpost⟩

/-- **The positions are those of the list and those of the new piece.** -/
theorem covers_put (h : Ordered lo q) (hlo : lo ≤ start p) (i : ℕ) :
    Covers (put p q) i ↔ (start p ≤ i ∧ i < stop p) ∨ Covers q i := by
  obtain ⟨hpre, hend, hpost, hreach⟩ := reach_spec h hlo
  have hsplit : Covers q i ↔ Covers (upTo (start p) q) i ∨ Covers (after (start p) q) i := by
    rw [← covers_append, upTo_append_after]
  rw [put]
  split
  · next hx =>
      constructor
      · exact .inr
      · rintro (hi | hi)
        · rw [hsplit]
          exact .inl (hreach i hi.1 (by omega))
        · exact hi
  · next hx =>
      obtain ⟨hstart, hstop⟩ := trimmed_spec _ hx
      rw [covers_append, covers_cons, covers_absorb _ _ hpost, hsplit]
      have hafter : Covers (after (start p) q) i → max (start p) (reach (start p) q) ≤ i := by
        intro hc
        have h1 := hpost.le_of_covers hc
        have h2 := (h.after).le_of_covers hc
        omega
      constructor
      · rintro (hc | hc | hc)
        · exact .inr (.inl hc)
        · exact .inl (by omega)
        · exact .inr (.inr hc.2)
      · rintro (hc | hc | hc)
        · by_cases hlt : i < reach (start p) q
          · exact .inl (hreach i hc.1 hlt)
          · exact .inr (.inl (by omega))
        · exact .inl hc
        · have := hafter hc
          by_cases hlt : i < stop p
          · exact .inr (.inl (by omega))
          · exact .inr (.inr ⟨by omega, hc⟩)

section

variable {P : E → Prop} (htrim : ∀ x e, P e → start e < x → x < stop e → P (trim x e))

include htrim

/-- What trimming preserves holds of all pieces. -/
theorem forall_absorb : ∀ {q : List E}, (∀ e ∈ q, P e) → ∀ e ∈ absorb x q, P e := by
  intro q
  induction q with
  | nil => exact fun h => h
  | cons a q ih =>
    intro h
    rw [absorb]
    split
    · exact h
    · split
      · intro e he
        rcases mem_cons.mp he with rfl | he
        · exact htrim x a (h a (by simp)) (by omega) (by omega)
        · exact h e (by simp [he])
      · exact ih fun e he => h e (by simp [he])

theorem forall_put (hp : P p) (hq : ∀ e ∈ q, P e) : ∀ e ∈ put p q, P e := by
  have hq' := hq
  rw [← upTo_append_after (start p) q] at hq'
  rw [put]
  split
  · exact hq
  · next hx =>
      intro e he
      rw [mem_append, mem_cons] at he
      rcases he with he | rfl | he
      · exact hq' e (by simp [he])
      · split
        · next hlt => exact htrim _ p hp hlt (by omega)
        · exact hp
      · exact forall_absorb htrim (fun e he => hq' e (by simp [he])) e he

end

end Put

/-! ## Queues of a program -/

/-- **How a program compares and trims its records.** -/
structure Queue (C : Type*) where
  /-- the first starts after the second -/
  startsAfter : C → C → Bool
  /-- by how much the first reaches into the second -/
  overlap : C → C → ℤ
  len : C → ℤ
  /-- the record without its first bytes -/
  cut : ℤ → C → C

namespace Queue

variable {C : Type*} (o : Queue C)

/-- The preceding record may provide some of the data of a new one, or all: then
the new one is dropped. -/
def trimByPreceding (c : C) : Option C → Option C
  | none => some c
  | some q =>
    if o.overlap q c > 0 then
      if o.overlap q c ≥ o.len c then none else some (o.cut (o.overlap q c) c)
    else some c

/-- While the new record overlaps succeeding ones, they are trimmed or, if
completely covered, removed. -/
def trimSucceeding (c : C) : List C → List C
  | [] => []
  | q :: qs =>
    if o.overlap c q ≤ 0 then q :: qs
    else if o.overlap c q < o.len q then o.cut (o.overlap c q) q :: qs
    else trimSucceeding c qs

/-- The queue with the record in its place, or nothing if the record is dropped. -/
def enqueue (c : C) (qs : List C) : Option (List C) :=
  let before := qs.takeWhile fun q => !o.startsAfter q c
  let behind := qs.dropWhile fun q => !o.startsAfter q c
  (o.trimByPreceding c before.getLast?).map fun c => before ++ c :: o.trimSucceeding c behind

/-- The operations agree with those on the pieces that the records stand for, as
long as these are `good`, and for overlaps with pieces from the position `lo` on. -/
structure Agrees (repr : E → C) (lo : ℕ) (good : E → Prop) : Prop where
  startsAfter : ∀ a b, good a → good b →
    o.startsAfter (repr a) (repr b) = decide (start b < start a)
  overlap : ∀ a b, good a → good b → lo ≤ start b →
    o.overlap (repr a) (repr b) = (stop a : ℤ) - start b
  len : ∀ a, good a → o.len (repr a) = (stop a : ℤ) - start a
  cut : ∀ x a, good a → start a < x → x < stop a →
    repr (trim x a) = o.cut ((x : ℤ) - start a) (repr a)
  good_trim : ∀ x a, good a → start a < x → x < stop a → good (trim x a)

variable {o} {repr : E → C} {lo : ℕ} {good : E → Prop} {p : E} {q : List E}

variable (h : o.Agrees repr lo good)

include h

theorem Agrees.trimSucceeding_eq (hp : good p) :
    ∀ {q : List E}, (∀ e ∈ q, good e ∧ lo ≤ start e) →
      o.trimSucceeding (repr p) (q.map repr) = (absorb (stop p) q).map repr := by
  intro q
  induction q with
  | nil => exact fun _ => rfl
  | cons a q ih =>
    intro hq
    obtain ⟨ha, hlo⟩ := hq a (by simp)
    rw [map_cons, trimSucceeding, absorb, h.overlap p a hp ha hlo, h.len a ha]
    by_cases h1 : stop p ≤ start a
    · rw [if_pos (by omega), if_pos h1, map_cons]
    · rw [if_neg (by omega), if_neg h1]
      by_cases h2 : stop p < stop a
      · rw [if_pos (by omega), if_pos h2, map_cons, h.cut _ a ha (by omega) h2]
      · rw [if_neg (by omega), if_neg h2]
        exact ih fun e he => hq e (by simp [he])

/-- Splitting the queue by the comparison is splitting it by position. -/
theorem Agrees.split_eq (hp : good p) :
    ∀ {q : List E}, (∀ e ∈ q, good e) →
      ((q.map repr).takeWhile fun c => !o.startsAfter c (repr p)) = (upTo (start p) q).map repr ∧
      ((q.map repr).dropWhile fun c => !o.startsAfter c (repr p)) =
        (after (start p) q).map repr := by
  intro q
  induction q with
  | nil => exact fun _ => ⟨rfl, rfl⟩
  | cons a q ih =>
    intro hq
    obtain ⟨h1, h2⟩ := ih fun e he => hq e (by simp [he])
    have hgt : (!o.startsAfter (repr a) (repr p)) = decide (start a ≤ start p) := by
      rw [h.startsAfter a p (hq a (by simp)) hp, ← decide_not]
      exact decide_eq_decide.mpr not_lt
    simp only [upTo, after, map_cons, takeWhile_cons, dropWhile_cons, hgt]
      at h1 h2 ⊢
    by_cases hle : start a ≤ start p
    · simp only [hle, decide_true, if_true, map_cons, h1, h2, and_self]
    · simp only [hle, decide_false, Bool.false_eq_true, if_false, map_cons, map_nil, and_self]

section

variable (hp : good p) (hne : start p < stop p) (hq : ∀ e ∈ q, good e ∧ lo ≤ start e)

include hp hne hq

/-- The new record is trimmed to where its predecessor ends. -/
theorem Agrees.trimByPreceding_eq :
    o.trimByPreceding (repr p) ((upTo (start p) q).map repr).getLast? =
      if stop p ≤ reach (start p) q then none
      else some (repr (if start p < reach (start p) q then trim (reach (start p) q) p else p)) := by
  unfold reach
  rcases (upTo (start p) q).eq_nil_or_concat' with hnil | ⟨pre, a, hconcat⟩
  · rw [hnil, map_nil, getLast?_nil, trimByPreceding, endOf_nil,
      if_neg (not_le.mpr hne), if_neg (lt_irrefl _)]
  · have hmem : a ∈ upTo (start p) q := by
      rw [hconcat]
      simp
    have hmem' : a ∈ q := by
      rw [← upTo_append_after (start p) q]
      exact mem_append_left _ hmem
    obtain ⟨ha, hlo⟩ := hq a hmem'
    have hap : start a ≤ start p := start_of_mem_upTo hmem
    rw [hconcat, endOf_concat, map_append, map_cons, map_nil,
      getLast?_append, getLast?_singleton, Option.some_or, trimByPreceding,
      h.overlap a p ha hp (hlo.trans hap), h.len p hp]
    by_cases h1 : start p < stop a
    · rw [if_pos (by omega)]
      by_cases h2 : stop p ≤ stop a
      · rw [if_pos (by omega), if_pos h2]
      · rw [if_neg (by omega), if_neg h2, if_pos h1, h.cut _ p hp h1 (by omega)]
    · rw [if_neg (by omega), if_neg (by omega), if_neg h1]

/-- **Putting a record into the queue is putting a piece into the list.** -/
theorem enqueue_eq :
    o.enqueue (repr p) (q.map repr) =
      if stop p ≤ reach (start p) q then none else some ((put p q).map repr) := by
  obtain ⟨hbefore, hbehind⟩ := h.split_eq hp fun e he => (hq e he).1
  rw [enqueue, hbefore, hbehind, h.trimByPreceding_eq hp hne hq, put]
  split
  · rfl
  · next hnot =>
      have hstop := (trimmed_spec _ hnot).2
      have hgood : good (if start p < reach (start p) q then trim (reach (start p) q) p else p) := by
        split
        · next hlt => exact h.good_trim _ p hp hlt (not_le.mp hnot)
        · exact hp
      have hafter : ∀ e ∈ after (start p) q, good e ∧ lo ≤ start e := by
        intro e he
        refine hq e ?_
        rw [← upTo_append_after (start p) q]
        exact mem_append_right _ he
      rw [Option.map_some, map_append, map_cons, h.trimSucceeding_eq hgood hafter, hstop]

end

end Queue

/-! ## What has become contiguous -/

/-- The pieces that continue from the position `r` are taken off the list: the
position reached, and the rest. -/
def advance : ℕ → List E → ℕ × List E
  | r, [] => (r, [])
  | r, e :: q => if start e = r then advance (stop e) q else (r, e :: q)

theorem ordered_advance {r : ℕ} (h : Ordered r q) :
    Ordered ((advance r q).1 + 1) (advance r q).2 ∧ r ≤ (advance r q).1 := by
  induction q generalizing r with
  | nil => exact ⟨trivial, le_rfl⟩
  | cons e q ih =>
    rw [advance]
    split
    · obtain ⟨h1, h2⟩ := ih h.2.2
      exact ⟨h1, (h.1.trans h.2.1.le).trans h2⟩
    · next hne => exact ⟨⟨Nat.succ_le_of_lt (lt_of_le_of_ne h.1 (Ne.symm hne)), h.2⟩, le_rfl⟩

theorem covers_advance {r : ℕ} (h : Ordered r q) (i : ℕ) :
    (i < (advance r q).1 ∨ Covers (advance r q).2 i) ↔ (i < r ∨ Covers q i) := by
  induction q generalizing r with
  | nil => exact Iff.rfl
  | cons e q ih =>
    have hne := h.2.1
    rw [advance]
    split
    · next heq =>
        rw [ih h.2.2, covers_cons]
        constructor
        · rintro (hi | hi)
          · omega
          · exact .inr (.inr hi)
        · rintro (hi | hi | hi)
          · exact .inl (by omega)
          · exact .inl hi.2
          · exact .inr hi
    · exact Iff.rfl

theorem advance_subset (r : ℕ) (q : List E) : (advance r q).2 ⊆ q := by
  induction q generalizing r with
  | nil => exact List.Subset.refl _
  | cons e q ih =>
    rw [advance]
    split
    · exact subset_cons_of_subset e (ih _)
    · exact List.Subset.refl _

end BSDLite2.Pieces
