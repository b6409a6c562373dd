import BSDLite2.Kern.Callout
import BSDLite2.Lib.Schedule

/-!
# Callouts are run in time

Calls of `timeout` and `untimeout`, ticks and the tests of the loop of `softclock` come in any
order: a handler is what comes between two tests, and a test that finds nothing to do ends
`softclock`.  The only thing that can go wrong is that `c_time` is an `int`, and a callout that
nobody runs is decremented with every tick.  After `2 ^ 31` ticks it is in the future again.

* `State`, `step` — the clock;
* `Exact` — each call was run once, cancelled or is still to come; those that were run were run
  by the first `softclock` after they were due; and `softclock` would run just what is due;
* `exact_iff_punctual` — in which runs this is so;
* `forgotten` — a callout that is lost for `2 ^ 31` ticks.
-/

namespace BSDLite2.Clock

open Schedule List

variable {F A : Type}

/-! ## The clock -/

/-- A call of a handler. -/
structure Ran (F A : Type) where
  call : Call F A
  /-- the tick -/
  tick : ℤ
  /-- the tick of the last `softclock` that came to its end -/
  checked : ℤ
  deriving DecidableEq

/-- The queue, and what has become of the calls of `timeout`. -/
structure State (F A : Type) where
  queue : List (Callout F A) := []
  /-- the structures on `callfree` -/
  free : ℕ
  /-- the ticks so far -/
  now : ℤ := 0
  /-- the tick of the last `softclock` that came to its end -/
  checked : ℤ := -1
  /-- the calls of `timeout` so far -/
  count : ℕ := 0
  ran : List (Ran F A) := []
  removed : List (Call F A) := []
  /-- "timeout table full" -/
  panicked : Bool := false
  deriving DecidableEq

/-- What happens. -/
inductive Label (F A : Type) where
  | timeout (ftn : F) (arg : A) (ticks : ℤ)
  | untimeout (ftn : F) (arg : A)
  | hardclock
  /-- a test of the loop of `softclock`, and what it does before it calls the handler -/
  | softclock
  deriving DecidableEq

/-- `timeout` -/
def timeout (s : State F A) (ftn : F) (arg : A) (ticks : ℤ) : State F A :=
  let ticks := if ticks ≤ 0 then 1 else ticks
  if s.free = 0 then { s with panicked := true }
  else
    { s with
      queue := insert ⟨ftn, arg, s.count, s.now + ticks⟩ ticks s.queue
      free := s.free - 1
      count := s.count + 1 }

/-- One turn of the loop of `softclock`. -/
def softclock (s : State F A) : State F A :=
  match s.queue with
  | [] => { s with checked := s.now }
  | c :: q =>
    if c.time ≤ 0 then
      { s with
        queue := q
        free := s.free + 1
        ran := ⟨c.toCall, s.now, s.checked⟩ :: s.ran }
    else { s with checked := s.now }

section

variable [DecidableEq F] [DecidableEq A]

/-- `untimeout` -/
def untimeout (s : State F A) (ftn : F) (arg : A) : State F A :=
  match (s.queue.map Callout.toCall).find? fun c => c.func = ftn ∧ c.arg = arg with
  | none => s
  | some c =>
    { s with
      queue := remove ftn arg s.queue
      free := s.free + 1
      removed := c :: s.removed }

def step (s : State F A) : Label F A → Option (State F A)
  | .timeout ftn arg ticks =>
    -- the argument is an `int`
    if s.panicked = false ∧ -2 ^ 31 ≤ ticks ∧ ticks < 2 ^ 31 then some (timeout s ftn arg ticks)
    else none
  | .untimeout ftn arg => if s.panicked then none else some (untimeout s ftn arg)
  | .hardclock =>
    if s.panicked then none
    else some { s with queue := (hardclock s.queue).1, now := s.now + 1 }
  | .softclock => if s.panicked then none else some (softclock s)

end

/-- A table of `n` structures. -/
def init (n : ℕ) : State F A := { free := n }

/-! ## Exactness -/

/-- **Each call is run once and in time.** -/
structure Exact (s : State F A) : Prop where
  /-- Every call of `timeout` is in the queue, has been run or has been removed, and only one of
  them. -/
  once : (s.queue.map (fun c => c.id) ++ (s.ran.map (fun r => r.call.id) ++
    s.removed.map fun c => c.id)).Perm (List.range s.count)
  /-- What was run was due, and not yet when `softclock` last came to its end. -/
  ran : ∀ r ∈ s.ran, r.checked < r.call.due ∧ r.call.due ≤ r.tick
  /-- The last `softclock` has left nothing that was due. -/
  pending : ∀ c ∈ s.queue, s.checked < c.due
  /-- `softclock` would run what is due. -/
  due : s.queue.takeWhile (fun c => c.time ≤ 0) = s.queue.filter fun c => c.due ≤ s.now

/-- Between the turns. -/
structure Inv (n : ℕ) (s : State F A) : Prop where
  panicked : s.panicked = false
  room : s.free + s.queue.length = n
  fits : Fits s.now s.now s.queue
  range : ∀ c ∈ s.queue, InRange s.now c
  sorted : (s.queue.map Callout.toCall).Pairwise Before
  checked : s.checked ≤ s.now
  once : ((s.queue.map Callout.toCall).map (fun c => c.id) ++ (s.ran.map (fun r => r.call.id) ++
    s.removed.map fun c => c.id)).Perm (List.range s.count)
  ran : ∀ r ∈ s.ran, r.checked < r.call.due ∧ r.call.due ≤ r.tick
  pending : ∀ c ∈ s.queue.map Callout.toCall, s.checked < c.due

variable {n : ℕ} {s t : State F A}

theorem Inv.exact (inv : Inv n s) : Exact s := by
  refine ⟨?_, inv.ran, by simpa using inv.pending, takeWhile_due inv.fits⟩
  have := inv.once
  rwa [map_map] at this

theorem inv_init : Inv n (init n : State F A) :=
  ⟨rfl, by simp [init], trivial, nofun, List.Pairwise.nil,
    by simp [init], by simp [init], nofun,
    nofun⟩

theorem Inv.timeout (inv : Inv n s) (room : s.queue.length < n) (ftn : F) (arg : A) {ticks : ℤ}
    (high : ticks < 2 ^ 31) : Inv n (timeout s ftn arg ticks) := by
  have hfree := inv.room
  have pos : 0 < if ticks ≤ 0 then 1 else ticks := by split_ifs <;> omega
  have high' : (if ticks ≤ 0 then 1 else ticks) < 2 ^ 31 := by split_ifs <;> omega
  rw [Clock.timeout]
  generalize (if ticks ≤ 0 then 1 else ticks) = ticks at *
  rw [if_neg (by omega)]
  obtain ⟨fits, range, same⟩ := insert_spec ⟨ftn, arg, s.count, s.now + ticks⟩ inv.fits
    inv.range le_rfl pos rfl (by dsimp only; omega)
  have perm := perm_orderedInsert Before ⟨ftn, arg, s.count, s.now + ticks⟩
    (s.queue.map Callout.toCall)
  have checked := inv.checked
  refine ⟨inv.panicked, ?_, fits, range, ?_, checked, ?_, inv.ran, ?_⟩
  · have := congrArg List.length same
    rw [length_map, perm.length_eq, length_cons, length_map] at this
    dsimp only
    omega
  · rw [same]
    exact inv.sorted.orderedInsert _ _
  · rw [same, range_succ]
    have := (perm.map fun c => c.id).append_right
      (s.ran.map (fun r => r.call.id) ++ s.removed.map fun c => c.id)
    refine (this.trans ?_).trans perm_append_comm
    exact List.Perm.cons _ inv.once
  · rw [same]
    intro c hc
    rcases mem_cons.mp (perm.mem_iff.mp hc) with rfl | hc
    · dsimp only
      omega
    · exact inv.pending c hc

theorem Inv.softclock (inv : Inv n s) : Inv n (softclock s) := by
  have finds := takeWhile_due inv.fits
  have ended : (∀ c ∈ s.queue, s.now < c.due) → Inv n { s with checked := s.now } := fun none =>
    ⟨inv.panicked, inv.room, inv.fits, inv.range, inv.sorted, le_rfl, inv.once, inv.ran,
      forall_mem_map.mpr none⟩
  unfold Clock.softclock
  split
  next hq =>
    refine ended fun c hc => ?_
    rw [hq] at hc
    cases hc
  next c q hq =>
    split_ifs with hdue
    · have fits := inv.fits
      have range := inv.range
      have sorted := inv.sorted
      have once := inv.once
      have pending := inv.pending
      have room := inv.room
      rw [hq] at fits range sorted once pending room
      obtain ⟨hdue', -, rest⟩ := fits
      obtain ⟨-, range⟩ := forall_mem_cons.mp range
      rw [length_cons] at room
      refine ⟨inv.panicked, by dsimp only; omega, ?_, range, (pairwise_cons.mp sorted).2,
        inv.checked, perm_middle.trans once, forall_mem_cons.mpr ⟨⟨?_, ?_⟩, inv.ran⟩,
        (forall_mem_cons.mp pending).2⟩
      · rwa [max_eq_right hdue, add_zero] at rest
      · exact pending _ mem_cons_self
      · dsimp only
        omega
    · refine ended fun d hd => ?_
      rw [hq, takeWhile_cons_of_neg (by simpa using hdue), eq_comm, filter_eq_nil_iff] at finds
      have := finds d (hq ▸ hd)
      simpa using this

/-- A tick before which no callout has been due for `2 ^ 31` ticks. -/
theorem Inv.hardclock (inv : Inv n s) (punctual : ∀ c ∈ s.queue, s.now < c.due + 2 ^ 31) :
    Inv n { s with queue := (hardclock s.queue).1, now := s.now + 1 } := by
  have room : ∀ c ∈ s.queue, c.time ≠ -2 ^ 31 := by
    intro c hc hlow
    have := inv.fits.late le_rfl hc (by omega)
    have := punctual c hc
    omega
  obtain ⟨fits, range, same⟩ := hardclock_spec inv.fits inv.range room
  have checked := inv.checked
  refine ⟨inv.panicked, ?_, fits, range, ?_, by dsimp only; omega, ?_, inv.ran, ?_⟩
  · have := congrArg List.length same
    rw [length_map, length_map] at this
    rw [this]
    exact inv.room
  · exact same ▸ inv.sorted
  · rw [same]
    exact inv.once
  · rw [same]
    exact inv.pending

/-- **A time that wraps around** hides what is due. -/
theorem Inv.not_exact_hardclock (inv : Inv n s) (late : ¬ ∀ c ∈ s.queue, s.now < c.due + 2 ^ 31) :
    ¬ Exact { s with queue := (Clock.hardclock s.queue).1, now := s.now + 1 } := by
  intro exact
  have finds := exact.due
  have sorted := inv.sorted
  cases hq : s.queue with
  | nil =>
    rw [hq] at late
    exact late fun c hc => absurd hc not_mem_nil
  | cons c q =>
    have hc : c ∈ s.queue := hq ▸ mem_cons_self
    have low := (inv.range c hc).low
    -- the first callout is the latest
    have hlate : c.due + 2 ^ 31 ≤ s.now := by
      by_contra hnot
      refine late fun d hd => ?_
      rw [hq, map_cons, pairwise_cons, forall_mem_map] at sorted
      rw [hq] at hd
      rcases mem_cons.mp hd with rfl | hd
      · omega
      · have := sorted.1 d hd
        unfold Before at this
        omega
    have fits := inv.fits
    rw [hq] at fits
    have htime : c.time = -2 ^ 31 := by
      have := fits.1
      omega
    have hwrap : int (c.time - 1) = 2 ^ 31 - 1 := by
      rw [htime]
      decide
    rw [hq, Clock.hardclock, hwrap] at finds
    dsimp only at finds
    rw [if_pos (by decide), takeWhile_cons_of_neg (by simp), eq_comm, filter_eq_nil_iff] at finds
    have := finds _ mem_cons_self
    rw [decide_eq_true_eq] at this
    dsimp only at this
    omega

/-! ## Runs -/

/-- There are fewer callouts than structures. -/
def Room (n : ℕ) (s : State F A) : Label F A → Prop
  | .timeout .. => s.queue.length < n
  | _ => True

/-- No callout has been due for `2 ^ 31` ticks when the next tick comes. -/
def Punctual (s : State F A) : Label F A → Prop
  | .hardclock => ∀ c ∈ s.queue, s.now < c.due + 2 ^ 31
  | _ => True

instance (n : ℕ) (s : State F A) : DecidablePred (Room n s)
  | .timeout .. => inferInstanceAs (Decidable (_ < _))
  | .untimeout .. | .hardclock | .softclock => inferInstanceAs (Decidable True)

instance (s : State F A) : DecidablePred (Punctual s)
  | .hardclock => inferInstanceAs (Decidable (∀ c ∈ s.queue, s.now < c.due + 2 ^ 31))
  | .untimeout .. | .timeout .. | .softclock => inferInstanceAs (Decidable True)

variable [DecidableEq F] [DecidableEq A]

theorem Inv.untimeout (inv : Inv n s) (ftn : F) (arg : A) : Inv n (untimeout s ftn arg) := by
  obtain ⟨fits, range, same⟩ := remove_spec ftn arg inv.fits inv.range le_rfl
  rw [Clock.untimeout]
  cases hfind : (s.queue.map Callout.toCall).find? fun c => c.func = ftn ∧ c.arg = arg with
  | none => exact inv
  | some c =>
    obtain ⟨hmatch, front, back, hsplit, others⟩ := find?_eq_some_iff_append.mp hfind
    have others' : ∀ a ∈ front, ¬ (decide (a.func = ftn ∧ a.arg = arg)) = true := fun a ha =>
      (Bool.not_eq_true _).mpr ((Bool.not_eq_true' _).mp (others a ha))
    rw [hsplit, eraseP_append_right _ others', eraseP_cons_of_pos (by simpa using hmatch)] at same
    have sublist : (front ++ back).Sublist (s.queue.map Callout.toCall) := by
      rw [hsplit]
      exact (sublist_cons_self _ _).append_left _
    have once := inv.once
    rw [hsplit, map_append] at once
    refine ⟨inv.panicked, ?_, fits, range, ?_, inv.checked, ?_, inv.ran, ?_⟩
    · have := congrArg List.length same
      have := congrArg List.length hsplit
      have := inv.room
      simp only [length_map, length_append, length_cons] at *
      omega
    · rw [same]
      exact inv.sorted.sublist sublist
    · rw [same]
      refine List.Perm.trans ?_ once
      simp only [map_append, map_cons, append_assoc, cons_append]
      refine List.Perm.append_left _ ?_
      rw [← append_assoc]
      exact perm_middle.trans (List.Perm.of_eq (by rw [append_assoc]))
    · rw [same]
      exact fun d hd => inv.pending d (sublist.subset hd)

theorem inv_step {a : Label F A} (inv : Inv n s) (room : Room n s a) (hstep : step s a = some t) :
    (Punctual s a → Inv n t) ∧ (¬ Punctual s a → ¬ Exact t) := by
  have always : Punctual s a → Inv n t →
      (Punctual s a → Inv n t) ∧ (¬ Punctual s a → ¬ Exact t) :=
    fun punctual h => ⟨fun _ => h, fun not => absurd punctual not⟩
  have running : ¬ s.panicked = true := by simp [inv.panicked]
  cases a with
  | timeout ftn arg ticks =>
    obtain ⟨⟨-, -, high⟩, hstep⟩ := Option.ite_none_right_eq_some.mp hstep
    cases hstep
    exact always trivial (inv.timeout room ftn arg high)
  | untimeout ftn arg =>
    rw [step, if_neg running] at hstep
    cases hstep
    exact always trivial (inv.untimeout ftn arg)
  | hardclock =>
    rw [step, if_neg running] at hstep
    cases hstep
    exact ⟨inv.hardclock, inv.not_exact_hardclock⟩
  | softclock =>
    rw [step, if_neg running] at hstep
    cases hstep
    exact always trivial inv.softclock

/-- **Callouts are exact.**  In a run with fewer callouts than there are structures, each call
is run once and in time, in all states on the way, exactly if no callout is ever left for
`2 ^ 31` ticks after it is due. -/
theorem exact_iff_punctual {as : List (Label F A)} {t : State F A}
    (room : Along step (Room n) (init n) as) (h : run step (init n) as = some t) :
    Along step Punctual (init n) as ↔
      ∀ bs u, bs <+: as → run step (init n) bs = some u → Exact u := by
  refine along_iff_reached (fun _ _ _ _ _ => trivial) ?_ ?_
    ⟨inv_init, inv_init.exact⟩ room h trivial
  · intro s a t inv room punctual hstep _
    have inv' := (inv_step inv room hstep).1 punctual
    exact ⟨inv', inv'.exact⟩
  · intro s a t inv room late hstep _
    exact (inv_step inv room hstep).2 late

/-- Three callouts, of which one is cancelled and two are run. -/
def threeCallouts : List (Label ℕ ℕ) :=
  [.timeout 0 0 2, .timeout 1 0 1, .hardclock, .timeout 2 0 0, .softclock, .hardclock,
    .untimeout 0 0, .softclock, .softclock]

theorem exact_iff_punctual_three : ∃ t,
    run step (init 3) threeCallouts = some t ∧ t.ran.map (fun r => r.call.func) = [2, 1] ∧
      Exact t := by
  have room : Along step (Room 3) (init 3) threeCallouts := by decide
  have punctual : Along step Punctual (init 3) threeCallouts := by decide
  refine ⟨_, rfl, rfl, ?_⟩
  exact (exact_iff_punctual room rfl).mp punctual _ _ (prefix_refl _) rfl

/-- Ticks while the only callout is not run. -/
theorem run_ticks {call : Call F A} {k : ℕ} {x : ℤ} (running : s.panicked = false)
    (hq : s.queue = [⟨call, x⟩]) (neg : x ≤ 0) (low : -2 ^ 31 ≤ x - k) :
    run step s (List.replicate k .hardclock) =
      some { s with queue := [⟨call, x - k⟩], now := s.now + k } := by
  induction k generalizing s x with
  | zero => simp [run, ← hq]
  | succ k ih =>
    have hint : int (x - 1) = x - 1 := int_eq (by omega) (by omega)
    have hclock : step s .hardclock =
        some { s with queue := [⟨call, x - 1⟩], now := s.now + 1 } := by
      rw [step, if_neg (by simp [running]), hq, hardclock, hint]
      dsimp only
      rw [if_neg (by omega), if_neg (by omega), hardclock]
    rw [replicate_succ, run, hclock, Option.bind_some,
      @ih { s with queue := [⟨call, x - 1⟩], now := s.now + 1 } (x - 1) running rfl (by omega)
        (by omega)]
    congr 2
    · congr 2
      omega
    · dsimp only
      omega

/-- **A forgotten callout.**  `softclock` does not come for more than `2 ^ 31` ticks. -/
theorem forgotten : ∃ t : State ℕ ℕ,
    run step (init 1) ([.timeout 0 0 1, .hardclock] ++
      (List.replicate (2 ^ 31) .hardclock ++ [.hardclock])) = some t ∧ ¬ Exact t := by
  have first : run step (init 1) ([.timeout 0 0 1, .hardclock] : List (Label ℕ ℕ)) =
      some { queue := [⟨⟨0, 0, 0, 1⟩, 0⟩], free := 0, now := 1, count := 1 } := by
    decide
  rw [run_append, first, Option.bind_some, run_append, run_ticks rfl rfl le_rfl (by norm_num)]
  refine ⟨_, rfl, fun exact => ?_⟩
  have due := exact.due
  norm_num [hardclock, int, List.takeWhile, List.filter, Int.bmod] at due

end BSDLite2.Clock
