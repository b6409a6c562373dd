import BSDLite2.Kern.Param
import Mathlib.Data.List.Sort

/-!
# The callout queue (`kern/kern_clock.c`)

`timeout` puts a callout into a queue, `hardclock` counts the ticks, and `softclock` runs
what is due.  At the front of the queue are callouts that are due: their `c_time` is not
positive and, if it is negative, says how many ticks they are late.  In the others it is the
difference from the callout before, so that `hardclock` has to decrement only one of them.

With each callout we keep the call of `timeout` that it comes from and the tick it is due
at, which the code does not know of.  The list of these, in order of the ticks they are due
at, is what the queue stands for.

* `hardclock`, `insert`, `remove` — the code;
* `Fits` — the times of the queue are the differences that they should be;
* `hardclock_spec`, `insert_spec`, `remove_spec` — the code keeps them so, and does with the
  calls what it should;
* `takeWhile_due` — `softclock` finds the callouts that are due.
-/

namespace BSDLite2.Clock

open List

/-! ## The code -/

/-- A call of `timeout`. -/
structure Call (F A : Type) where
  func : F
  arg : A
  /-- how many calls came before -/
  id : ℕ
  /-- the tick it is due at -/
  due : ℤ
  deriving DecidableEq

/-- `struct callout`, and the call it was filled in for. -/
structure Callout (F A : Type) extends Call F A where
  time : ℤ
  deriving DecidableEq

variable {F A : Type}

/-- The loop of `hardclock` over the queue, and `needsoft`. -/
def hardclock : List (Callout F A) → List (Callout F A) × Bool
  | [] => ([], false)
  | p1 :: q =>
    let p1 := { p1 with time := int (p1.time - 1) }
    if p1.time > 0 then (p1 :: q, false)
    else if p1.time = 0 then (p1 :: q, true)
    else (p1 :: (hardclock q).1, true)

/-- The walk of `timeout`, and the insertion. -/
def insert (new : Call F A) : (ticks : ℤ) → List (Callout F A) → List (Callout F A)
  | ticks, [] => [{ new with time := ticks }]
  | ticks, t :: q =>
    if ticks > t.time then
      t :: insert new (if t.time > 0 then int (ticks - t.time) else ticks) q
    else { new with time := ticks } :: { t with time := int (t.time - ticks) } :: q

/-- The next entry gets the ticks of the one that is removed. -/
def bump (time : ℤ) : List (Callout F A) → List (Callout F A)
  | [] => []
  | t :: q => if time > 0 then { t with time := int (t.time + time) } :: q else t :: q

/-- The loop of `untimeout`. -/
def remove [DecidableEq F] [DecidableEq A] (ftn : F) (arg : A) :
    List (Callout F A) → List (Callout F A)
  | [] => []
  | t :: q => if t.func = ftn ∧ t.arg = arg then bump t.time q else t :: remove ftn arg q

/-! ## Differences -/

/-- **The times are differences**, from `base` on: of callouts that are not due they are not
negative, and those that are due do not count. -/
def Fits (now : ℤ) : (base : ℤ) → List (Callout F A) → Prop
  | _, [] => True
  | base, c :: q => c.due = base + c.time ∧ (now < base → 0 ≤ c.time) ∧
      Fits now (base + max c.time 0) q

/-- Every time is an `int`, and stays one. -/
structure InRange (now : ℤ) (c : Callout F A) : Prop where
  low : -2 ^ 31 ≤ c.time
  high : c.due < now + 2 ^ 31

variable {now base : ℤ} {q : List (Callout F A)} {c t : Callout F A}

theorem fits_cons {call : Call F A} {time : ℤ} :
    Fits now base (⟨call, time⟩ :: q) ↔ call.due = base + time ∧ (now < base → 0 ≤ time) ∧
      Fits now (base + max time 0) q := Iff.rfl

theorem Fits.mono {now' : ℤ} (fits : Fits now base q) (le : now ≤ now') : Fits now' base q := by
  induction q generalizing base with
  | nil => trivial
  | cons c q ih => exact ⟨fits.1, fun h => fits.2.1 (by omega), ih fits.2.2⟩

/-- Behind a callout that is not due, the ticks only grow. -/
theorem Fits.base_le (fits : Fits now base q) (later : now < base) (hc : c ∈ q) : base ≤ c.due := by
  induction q generalizing base with
  | nil => cases hc
  | cons d q ih =>
    obtain ⟨hdue, hnonneg, rest⟩ := fits
    rcases mem_cons.mp hc with rfl | hc
    · omega
    · have := ih rest (by omega) hc
      omega

/-- A negative time says how late the callout is. -/
theorem Fits.late (fits : Fits now base q) (le : now ≤ base) (hc : c ∈ q) (neg : c.time < 0) :
    c.due = now + c.time := by
  induction q generalizing base with
  | nil => cases hc
  | cons d q ih =>
    obtain ⟨hdue, hnonneg, rest⟩ := fits
    rcases mem_cons.mp hc with rfl | hc
    · omega
    · exact ih rest (by omega) hc

/-- **`softclock` finds what is due.** -/
theorem takeWhile_due (fits : Fits now now q) :
    q.takeWhile (fun c => c.time ≤ 0) = q.filter fun c => c.due ≤ now := by
  induction q with
  | nil => rfl
  | cons c q ih =>
    obtain ⟨hdue, -, rest⟩ := fits
    by_cases htime : c.time ≤ 0
    · rw [takeWhile_cons_of_pos (by simpa using htime), filter_cons_of_pos (by simp; omega), ih]
      rwa [max_eq_right htime, add_zero] at rest
    · rw [takeWhile_cons_of_neg (by simpa using htime), eq_comm, filter_eq_nil_iff]
      intro d hd
      rw [decide_eq_true_eq]
      rcases mem_cons.mp hd with rfl | hd
      · omega
      · have := rest.base_le (by omega) hd
        omega

/-! ## A tick -/

section

variable (fits : Fits now now q) (range : ∀ c ∈ q, InRange now c) (room : ∀ c ∈ q, c.time ≠ -2 ^ 31)

include fits range room

/-- **`hardclock` counts a tick**, as long as no time is the least `int`. -/
theorem hardclock_spec :
    Fits (now + 1) (now + 1) (hardclock q).1 ∧ (∀ c ∈ (hardclock q).1, InRange (now + 1) c) ∧
      (hardclock q).1.map Callout.toCall = q.map Callout.toCall := by
  induction q with
  | nil => exact ⟨trivial, nofun, rfl⟩
  | cons c q ih =>
    obtain ⟨hdue, -, rest⟩ := fits
    obtain ⟨hrange, ranges⟩ := forall_mem_cons.mp range
    obtain ⟨hroom, rooms⟩ := forall_mem_cons.mp room
    have low := hrange.low
    have high := hrange.high
    have hint : int (c.time - 1) = c.time - 1 := int_eq (by omega) (by omega)
    have head : InRange (now + 1) { c with time := c.time - 1 } :=
      ⟨by dsimp only; omega, by dsimp only; omega⟩
    have later : ∀ c ∈ q, InRange (now + 1) c := fun c hc =>
      ⟨(ranges c hc).low, by have := (ranges c hc).high; omega⟩
    rw [hardclock, hint]
    by_cases hpos : c.time - 1 > 0
    · rw [if_pos hpos]
      refine ⟨fits_cons.mpr ⟨by omega, by omega, ?_⟩, forall_mem_cons.mpr ⟨head, later⟩, rfl⟩
      convert rest.mono (show now ≤ now + 1 by omega) using 1
      omega
    · rw [if_neg hpos]
      by_cases hzero : c.time - 1 = 0
      · -- those behind are due at the same tick, or later
        rw [if_pos hzero]
        refine ⟨fits_cons.mpr ⟨by omega, by omega, ?_⟩, forall_mem_cons.mpr ⟨head, later⟩, rfl⟩
        convert rest.mono (show now ≤ now + 1 by omega) using 1
        omega
      · rw [if_neg hzero]
        rw [max_eq_right (by omega), add_zero] at rest
        obtain ⟨fits', ranges', same⟩ := ih rest ranges rooms
        refine ⟨fits_cons.mpr ⟨by omega, by omega, ?_⟩,
          forall_mem_cons.mpr ⟨head, ranges'⟩, by simp [same]⟩
        rwa [max_eq_right (by omega), add_zero]

end

/-- A queue at the tick 10: a callout that is three ticks late, one that is due, and two for later,
the second five ticks after the first. -/
def waiting : List (Callout Unit Unit) :=
  [⟨⟨(), (), 0, 7⟩, -3⟩, ⟨⟨(), (), 1, 10⟩, 0⟩, ⟨⟨(), (), 2, 12⟩, 2⟩, ⟨⟨(), (), 3, 17⟩, 5⟩]

/-- The order of the queue. -/
def Before (c d : Call F A) : Prop := c.due ≤ d.due

instance : DecidableRel (Before (F := F) (A := A)) := fun _ _ => inferInstanceAs (Decidable (_ ≤ _))

instance : Std.Total (Before (F := F) (A := A)) := ⟨fun _ _ => le_total _ _⟩

instance : IsTrans (Call F A) Before := ⟨fun _ _ _ => le_trans⟩

/-- **`timeout` inserts the call by the tick it is due at.** -/
theorem insert_spec (new : Call F A) {ticks : ℤ} (fits : Fits now base q)
    (range : ∀ c ∈ q, InRange now c) (le : now ≤ base) (pos : 0 < ticks)
    (hnew : new.due = base + ticks) (high : new.due < now + 2 ^ 31) :
    Fits now base (insert new ticks q) ∧ (∀ c ∈ insert new ticks q, InRange now c) ∧
      (insert new ticks q).map Callout.toCall =
        (q.map Callout.toCall).orderedInsert Before new := by
  induction q generalizing base ticks with
  | nil =>
    refine ⟨fits_cons.mpr ⟨hnew, by omega, trivial⟩, ?_, rfl⟩
    rw [insert, forall_mem_singleton]
    exact ⟨by dsimp only; omega, high⟩
  | cons t q ih =>
    obtain ⟨hdue, hnonneg, rest⟩ := fits
    obtain ⟨hrange, ranges⟩ := forall_mem_cons.mp range
    have high' := hrange.high
    rw [insert, map_cons, List.orderedInsert]
    by_cases hpass : ticks > t.time
    · have hticks : (if t.time > 0 then int (ticks - t.time) else ticks) =
          ticks - max t.time 0 := by
        split_ifs with hpos
        · rw [int_eq (by omega) (by omega), max_eq_left (by omega)]
        · rw [max_eq_right (by omega), sub_zero]
      rw [if_pos hpass, hticks, if_neg (by unfold Before; omega)]
      obtain ⟨fits', ranges', same⟩ :=
        @ih (base + max t.time 0) (ticks - max t.time 0) rest ranges (by omega) (by omega)
          (by omega)
      exact ⟨⟨hdue, hnonneg, fits'⟩, forall_mem_cons.mpr ⟨hrange, ranges'⟩, by simp [same]⟩
    · rw [if_neg hpass, int_eq (by omega) (by omega), if_pos (by unfold Before; omega)]
      refine ⟨fits_cons.mpr ⟨hnew, by omega, fits_cons.mpr ⟨by omega, by omega, ?_⟩⟩, ?_, rfl⟩
      · rw [max_eq_left (by omega)]
        convert rest using 1
        omega
      · rw [forall_mem_cons, forall_mem_cons]
        exact ⟨⟨by dsimp only; omega, high⟩, ⟨by dsimp only; omega, high'⟩, ranges⟩

theorem bump_spec (fits : Fits now (base + max t.time 0) q) (range : ∀ c ∈ q, InRange now c)
    (le : now ≤ base) :
    Fits now base (bump t.time q) ∧ (∀ c ∈ bump t.time q, InRange now c) ∧
      (bump t.time q).map Callout.toCall = q.map Callout.toCall := by
  cases q with
  | nil => exact ⟨trivial, range, rfl⟩
  | cons c q =>
    obtain ⟨hdue, hnonneg, rest⟩ := fits
    obtain ⟨hrange, ranges⟩ := forall_mem_cons.mp range
    have high := hrange.high
    rw [bump]
    split_ifs with hpos
    · rw [max_eq_left (by omega)] at hdue rest
      rw [int_eq (by omega) (by omega)]
      refine ⟨fits_cons.mpr ⟨by omega, by omega, ?_⟩,
        forall_mem_cons.mpr ⟨⟨by dsimp only; omega, high⟩, ranges⟩, rfl⟩
      convert rest using 1
      omega
    · rw [max_eq_right (by omega), add_zero] at hdue hnonneg rest
      exact ⟨⟨hdue, hnonneg, rest⟩, range, rfl⟩

variable [DecidableEq F] [DecidableEq A]

/-- **`untimeout` removes the first call with the function and the argument.** -/
theorem remove_spec (ftn : F) (arg : A) (fits : Fits now base q)
    (range : ∀ c ∈ q, InRange now c) (le : now ≤ base) :
    Fits now base (remove ftn arg q) ∧ (∀ c ∈ remove ftn arg q, InRange now c) ∧
      (remove ftn arg q).map Callout.toCall =
        (q.map Callout.toCall).eraseP fun c => c.func = ftn ∧ c.arg = arg := by
  induction q generalizing base with
  | nil => exact ⟨trivial, range, rfl⟩
  | cons t q ih =>
    obtain ⟨hdue, hnonneg, rest⟩ := fits
    obtain ⟨hrange, ranges⟩ := forall_mem_cons.mp range
    rw [remove, map_cons]
    by_cases hmatch : t.func = ftn ∧ t.arg = arg
    · rw [if_pos hmatch, eraseP_cons_of_pos (by simpa using hmatch)]
      exact bump_spec rest ranges le
    · rw [if_neg hmatch, eraseP_cons_of_neg (by simpa using hmatch)]
      obtain ⟨fits', ranges', same⟩ := ih rest ranges (by omega)
      exact ⟨⟨hdue, hnonneg, fits'⟩, forall_mem_cons.mpr ⟨hrange, ranges'⟩, by simp [same]⟩

end BSDLite2.Clock
