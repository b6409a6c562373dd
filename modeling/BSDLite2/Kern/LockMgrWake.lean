import BSDLite2.Kern.LockMgrHeld

/-!
# Wakeups of the lock manager

A process that sleeps and has not been sent a wakeup should still have to wait
(`Watched`).  A turn that makes a condition false for which somebody waits has to send a
wakeup; some turns do not:

* a failing upgrade that gives up the last share but one, while another upgrade waits
  for it;
* a wait for an upgrade, or the second wait of an exclusive request, that fails.

Whether a turn heeds those who wait (`Heeds`) is read off the lock and the sleepers before it.  The
proof goes through the turns one by one: a turn leaves a condition as it was, or wakes everybody.

* `watched_iff_heeds` — along a schedule all sleepers are watched in every state exactly if every
  turn heeds them;
* `wakeup_lost` — a schedule with a turn that does not.
-/

namespace BSDLite2.LockMgr

open Schedule Function

variable {P : Type} {x : Proc} {t : State P} {a : Label P}

/-! ## The invariant -/

/-- 1 for a process that `lk_waitcount` counts. -/
def Pc.waits : Pc → ℕ
  | .idle => 0
  | .asleep stage _ => if stage = .drain then 0 else 1

/-- The process sleeps at `stage` and has not been sent a wakeup. -/
def Unwoken (s : State P) (q : P) (stage : Stage) : Prop :=
  (∃ sleepfail, (s.proc q).pc = .asleep stage sleepfail) ∧ s.woken q = false

/-- A process other than `p` does. -/
def Waits (s : State P) (p : P) (stage : Stage) : Prop := ∃ q, q ≠ p ∧ Unwoken s q stage

instance (s : State P) (q : P) (stage : Stage) : Decidable (Unwoken s q stage) :=
  inferInstanceAs (Decidable (_ ∧ _))

instance [Fintype P] [DecidableEq P] (s : State P) (p : P) (stage : Stage) :
    Decidable (Waits s p stage) :=
  inferInstanceAs (Decidable (∃ q, q ≠ p ∧ Unwoken s q stage))

/-- The lock blocks a process at `stage`: what it waits for has not come or, unless we
are strict, it is at the second stage of an exclusive request while another process has
the lock exclusively. -/
def Blocked (strict : Bool) (l : Lock P) (stage : Stage) : Prop :=
  wanted l stage = true ∨ strict = false ∧ stage = .excl2 ∧ l.haveExcl = true

/-- **No wakeup is lost**: who sleeps and has not been sent a wakeup still has to wait. -/
def Watched (strict : Bool) (s : State P) : Prop :=
  ∀ q stage, Unwoken s q stage → Blocked strict s.lock stage

/-- Between turns: `lk_waitcount` counts those that sleep, one that waits to drain the
lock has left its flag, and no wakeup is lost. -/
structure Quiet (strict : Bool) (s : State P) : Prop where
  waiting : (tally (fun x => x.pc.waits) s.proc : ℤ) = s.lock.waitcount
  small : s.lock.waitcount < 2 ^ 31
  flag : ∀ q, Unwoken s q .drain → s.lock.waitDrain = true
  watched : Watched strict s

variable [DecidableEq P]

/-- In a turn of `p`, which is not counted then. -/
structure Counted (s : State P) (p : P) : Prop where
  mostly : Mostly {} s.proc
  waiting : ∀ x, (tally (fun x => x.pc.waits) (update s.proc p x) : ℤ) =
    s.lock.waitcount + x.pc.waits
  small : s.lock.waitcount < 2 ^ 31
  flag : Waits s p .drain → s.lock.waitDrain = true

/-- The others that wait for the lock still have to. -/
def WatchedAs (strict : Bool) (s : State P) (p : P) : Prop :=
  ∀ stage, stage ≠ .drain → Waits s p stage → Blocked strict s.lock stage

/-- Both, so that the turn may end. -/
structure Ready (strict : Bool) (s : State P) (p : P) : Prop extends Counted s p where
  watched : WatchedAs strict s p

variable {strict : Bool} {s : State P} {p : P}

/-! ## How a turn ends -/

variable {stage : Stage}

/-- No wakeup is lost by the turn. -/
def Good (strict : Bool) (p : P) (r : Result P) : Prop := ∀ t, r.after p = .ok t → Quiet strict t

attribute [local simp] State.setProc

theorem good_panics (why : Panic) : Good strict p (.panics why) := by
  intro t ht
  cases ht

theorem unwoken_setProc {q : P} (differ : q ≠ p) :
    Unwoken (s.setProc p x) q stage ↔ Unwoken s q stage := by
  simp [Unwoken, differ]

theorem waits_setProc : Waits (s.setProc p x) p stage ↔ Waits s p stage :=
  exists_congr fun _ => and_congr_right fun differ => unwoken_setProc differ

omit [DecidableEq P] in
theorem unwoken_wakeup {q : P} : Unwoken s.wakeup q stage ↔ stage = .drain ∧ Unwoken s q stage := by
  constructor
  · rintro ⟨⟨sleepfail, hpc⟩, hwoken⟩
    have hpc' : (s.proc q).pc = .asleep stage sleepfail := hpc
    cases stage <;> simp [State.wakeup, hpc'] at hwoken
    exact ⟨rfl, ⟨sleepfail, hpc'⟩, hwoken⟩
  · rintro ⟨rfl, ⟨sleepfail, hpc⟩, hwoken⟩
    exact ⟨⟨sleepfail, hpc⟩, by simpa [State.wakeup, hpc] using hwoken⟩

omit [DecidableEq P] in
theorem unwoken_wakeupDrain {q : P} (h : Unwoken s.wakeupDrain q stage) :
    stage ≠ .drain ∧ Unwoken s q stage := by
  obtain ⟨⟨sleepfail, hpc⟩, hwoken⟩ := h
  have hpc' : (s.proc q).pc = .asleep stage sleepfail := hpc
  cases stage <;> simp [State.wakeupDrain, hpc'] at hwoken <;>
    exact ⟨nofun, ⟨sleepfail, hpc'⟩, hwoken⟩

/-- A process that is idle does not sleep. -/
theorem unwoken_idle {q : P} (h : Unwoken (s.setProc p { s.proc p with pc := .idle }) q stage) :
    q ≠ p ∧ Unwoken s q stage := by
  have differ : q ≠ p := by
    rintro rfl
    obtain ⟨⟨sleepfail, hpc⟩, -⟩ := h
    simp at hpc
  exact ⟨differ, (unwoken_setProc differ).mp h⟩

theorem good_finish (ready : Ready strict s p) (error : ℤ) : Good strict p (finish s error) := by
  rw [finish]
  split
  · rintro t ⟨⟩
    have others : ∀ q stage, Unwoken
        (State.setProc { s with lock.waitDrain := false }.wakeupDrain p
          { s.proc p with pc := .idle }) q stage → stage ≠ .drain ∧ Waits s p stage := by
      intro q stage h
      obtain ⟨differ, h⟩ := unwoken_idle h
      obtain ⟨notDrain, h⟩ := unwoken_wakeupDrain h
      exact ⟨notDrain, q, differ, h⟩
    refine ⟨?_, ready.small, fun q h => absurd rfl (others q _ h).1, ?_⟩
    · exact (ready.waiting _).trans (Int.add_zero _)
    intro q stage h
    obtain ⟨notDrain, waits⟩ := others q stage h
    have blocked := ready.watched stage notDrain waits
    cases stage <;> exact blocked
  · rename_i undrained
    rintro t ⟨⟩
    have flag : ∀ q, Unwoken (s.setProc p { s.proc p with pc := .idle }) q .drain →
        s.lock.waitDrain = true := by
      intro q h
      obtain ⟨differ, h⟩ := unwoken_idle h
      exact ready.flag ⟨q, differ, h⟩
    refine ⟨(ready.waiting _).trans (Int.add_zero _), ready.small, flag, ?_⟩
    intro q stage h
    by_cases drain : stage = .drain
    · subst drain
      have still : wanted s.lock .drain = true := by simpa [flag q h] using undrained
      exact .inl still
    · obtain ⟨differ, h⟩ := unwoken_idle h
      exact ready.watched stage drain ⟨q, differ, h⟩

theorem Counted.nonneg (counted : Counted s p) : 0 ≤ s.lock.waitcount := by
  have : (tally (fun x => x.pc.waits) (update s.proc p {}) : ℤ) = s.lock.waitcount + (0 : ℕ) :=
    counted.waiting {}
  omega

variable {sleepfail : Bool}

theorem good_sleepAt (ready : Ready strict s p)
    (waits : wanted s.lock stage = true) (room : stage ≠ .drain → s.lock.waitcount < 2 ^ 31 - 1) :
    Good strict p (sleepAt s p stage sleepfail) := by
  have nonneg := ready.nonneg
  have sum := ready.waiting { s.proc p with pc := .asleep stage sleepfail }
  rw [sleepAt]
  -- who sleeps is `p`, or did before
  have cases_of : ∀ q st, Unwoken { s.setProc p { s.proc p with pc := .asleep stage sleepfail } with
      woken := update s.woken p false } q st → st = stage ∨ Waits s p st := by
    rintro q st ⟨⟨sf, hpc⟩, hwoken⟩
    by_cases same : q = p
    · subst same
      simp at hpc
      exact .inl hpc.1.symm
    · simp only [State.setProc, update_of_ne same] at hpc hwoken
      exact .inr ⟨q, same, ⟨sf, hpc⟩, hwoken⟩
  split
  · rename_i drain
    subst drain
    rintro t ⟨⟩
    refine ⟨sum.trans (Int.add_zero _), ready.small, fun _ _ => rfl, ?_⟩
    intro q st h
    by_cases atDrain : st = .drain
    · rw [atDrain]
      exact .inl waits
    · have := ready.watched st atDrain ((cases_of q st h).resolve_left atDrain)
      cases st <;> exact this
  · rename_i notDrain
    have room := room notDrain
    rintro t ⟨⟩
    have count : int (s.lock.waitcount + 1) = s.lock.waitcount + 1 :=
      int_eq (by omega) (by omega)
    have one : (Pc.asleep stage sleepfail).waits = 1 := if_neg notDrain
    refine ⟨sum.trans ?_, ?_, ?_, ?_⟩
    · show s.lock.waitcount + ((Pc.asleep stage sleepfail).waits : ℤ) = int (s.lock.waitcount + 1)
      rw [one, count]
      rfl
    · show int (s.lock.waitcount + 1) < 2 ^ 31
      omega
    · intro q h
      exact ready.flag ((cases_of q _ h).resolve_left fun eq => notDrain eq.symm)
    · intro q st h
      rcases cases_of q st h with rfl | h
      · left
        cases st <;> first | exact waits | exact absurd rfl notDrain
      · by_cases atDrain : st = .drain
        · subst atDrain
          left
          simp [wanted, count]
          omega
        · have := ready.watched st atDrain h
          cases st <;> first | exact this | exact absurd rfl atDrain

/-! ## What a turn changes -/

variable {l : Lock P}

/-- What a lock says of those who wait. -/
def Lock.waits (l : Lock P) : ℤ × Bool := (l.waitcount, l.waitDrain)

theorem Counted.moveLock (counted : Counted s p) (same : l.waits = s.lock.waits) :
    Counted { s with lock := l } p := by
  obtain ⟨count : l.waitcount = _, flag : l.waitDrain = _⟩ := Prod.ext_iff.mp same
  exact ⟨counted.mostly, count ▸ counted.waiting, count ▸ counted.small, flag ▸ counted.flag⟩

/-- The lock and `p` change. -/
theorem Counted.move (counted : Counted s p) (same : l.waits = s.lock.waits) :
    Counted ({ s with lock := l }.setProc p x) p where
  mostly := counted.mostly.update p x
  waiting := by
    intro y
    rw [State.setProc, update_idem]
    exact (counted.moveLock same).waiting y
  small := (counted.moveLock same).small
  flag := fun h => (counted.moveLock same).flag (waits_setProc.mp h)

/-- After a wakeup nobody else waits. -/
theorem Counted.wakeupIfWaiting (counted : Counted s p) (strict : Bool) :
    Ready strict s.wakeupIfWaiting p := by
  rw [State.wakeupIfWaiting]
  split
  · refine ⟨⟨counted.mostly, counted.waiting, counted.small, ?_⟩, ?_⟩
    · rintro ⟨q, differ, h⟩
      exact counted.flag ⟨q, differ, (unwoken_wakeup.mp h).2⟩
    · rintro stage notDrain ⟨q, differ, h⟩
      exact absurd (unwoken_wakeup.mp h).1 notDrain
  · refine ⟨counted, ?_⟩
    rintro stage notDrain ⟨q, differ, ⟨sleepfail, hpc⟩, -⟩
    have le := le_tally (f := fun x : Proc => x.pc.waits) (counted.mostly.update p {}) rfl q
    have sum : (tally (fun x => x.pc.waits) (update s.proc p {}) : ℤ) =
      s.lock.waitcount + (0 : ℕ) := counted.waiting {}
    rw [update_of_ne differ, hpc, Pc.waits, if_neg notDrain] at le
    omega

section

variable (ready : Ready strict s p) (same : l.waits = s.lock.waits)
  (still : ∀ stage, stage ≠ .drain → Waits s p stage → Blocked strict s.lock stage →
    Blocked strict l stage)

include ready same still

theorem Ready.move : Ready strict ({ s with lock := l }.setProc p x) p where
  toCounted := ready.toCounted.move same
  watched := by
    intro stage notDrain waits
    have waits := waits_setProc.mp waits
    exact still stage notDrain waits (ready.watched stage notDrain waits)

theorem Ready.moveLock : Ready strict { s with lock := l } p where
  toCounted := ready.toCounted.moveLock same
  watched stage notDrain waits := still stage notDrain waits (ready.watched stage notDrain waits)

end

section

variable {l : Lock P}

omit [DecidableEq P]

@[simp]
theorem blocked_shared : Blocked strict l .shared ↔
    l.haveExcl = true ∨ l.wantExcl = true ∨ l.wantUpgrade = true := by
  simp [Blocked, wanted, or_assoc]

@[simp]
theorem blocked_upgrade : Blocked strict l .upgrade ↔ l.sharecount ≠ 0 := by
  simp [Blocked, wanted]

@[simp]
theorem blocked_excl1 : Blocked strict l .excl1 ↔ l.haveExcl = true ∨ l.wantExcl = true := by
  simp [Blocked, wanted]

@[simp]
theorem blocked_excl2 : Blocked strict l .excl2 ↔
    l.sharecount ≠ 0 ∨ l.wantUpgrade = true ∨ strict = false ∧ l.haveExcl = true := by
  simp [Blocked, wanted, or_assoc]

end

/-- Only one process waits for an upgrade. -/
theorem HeldAs.waits_upgrade {pc : Pc} (held : HeldAs s p pc) (waits : Waits s p .upgrade) :
    s.lock.wantUpgrade = true ∧ pc.isAt .upgrade = 0 := by
  obtain ⟨q, differ, ⟨sleepfail, hpc⟩, -⟩ := waits
  have le := add_le_tally (f := fun x : Proc => x.pc.isAt .upgrade) held.mostly rfl differ
  rw [held.upgrade, update_of_ne differ, update_self, hpc] at le
  have one : (Pc.asleep .upgrade sleepfail).isAt .upgrade = 1 := rfl
  dsimp only at le
  cases h : s.lock.wantUpgrade with
  | true => exact ⟨rfl, by rw [h, Bool.toNat_true] at le; omega⟩
  | false => rw [h, Bool.toNat_false] at le; omega

/-! ## The code -/

theorem good_takeExclusive (counted : Counted s p)
    (watched : ∀ stage, stage ≠ .drain → Waits s p stage →
      Blocked strict { s.lock with haveExcl := true } stage) :
    Good strict p (takeExclusive s p) := by
  rw [takeExclusive]
  split
  · exact good_panics _
  · refine good_finish ⟨counted.move (by rfl), fun stage notDrain waits => ?_⟩ 0
    have blocked := watched stage notDrain (waits_setProc.mp waits)
    cases stage <;> exact blocked

/-- The second stage of an exclusive request is passed. -/
theorem good_exclDone (ready : Ready strict s p) : Good strict p (exclDone s p) := by
  refine good_takeExclusive (ready.toCounted.moveLock (by rfl)) fun stage notDrain waits => ?_
  have blocked := ready.watched stage notDrain waits
  cases stage <;> simp at blocked ⊢ <;> grind

section

variable (held : HeldAs s p (.asleep stage sleepfail)) (ready : Ready strict s p)
  (shareRoom : stage = .shared → s.lock.sharecount < 2 ^ 31 - 1)
  (room : stage ≠ .drain → s.lock.waitcount < 2 ^ 31 - 1)

include held ready shareRoom room

/-- **An `ACQUIRE` has succeeded.** -/
theorem good_acquired (unwanted : wanted s.lock stage = false)
    (overtakes : stage = .upgrade → strict = true → ¬ Waits s p .excl2) :
    Good strict p (acquired s p stage sleepfail) := by
  cases stage with
  | shared =>
    have shares := held.shares_le
    have shareRoom := shareRoom rfl
    have count : int (s.lock.sharecount + 1) = s.lock.sharecount + 1 :=
      int_eq (by omega) (by omega)
    refine good_finish (ready.move (by rfl) fun stage notDrain _ blocked => ?_) 0
    cases stage <;> simp [count] at blocked ⊢ <;> grind
  | upgrade =>
    refine good_takeExclusive (ready.toCounted.moveLock (by rfl)) fun stage notDrain waits => ?_
    cases stage with
    | drain => exact absurd rfl notDrain
    | shared => simp
    | excl1 => simp
    | upgrade => exact absurd (held.waits_upgrade waits).2 (by simp [Pc.isAt])
    | excl2 =>
      cases strict with
      | false => simp
      | true => exact absurd waits (overtakes rfl rfl)
  | excl1 =>
    have ready' : Ready strict { s with lock.wantExcl := true } p := by
      refine ready.moveLock (by rfl) fun stage _ _ blocked => ?_
      cases stage <;> simp at blocked ⊢ <;> grind
    rw [acquired]
    split
    · exact good_sleepAt ready' ‹_› fun _ => room (by simp)
    · exact good_exclDone ready'
  | excl2 => exact good_exclDone ready
  | drain =>
    refine good_finish (ready.move (by rfl) fun stage notDrain _ blocked => ?_) 0
    cases stage <;> simp at blocked ⊢ <;> grind

theorem good_acquire
    (overtakes : stage = .upgrade → strict = true → s.lock.sharecount = 0 → ¬ Waits s p .excl2) :
    Good strict p (acquire s p stage sleepfail) := by
  rw [acquire]
  split
  · exact good_sleepAt ready ‹_› room
  · rename_i unwanted
    have unwanted : wanted s.lock stage = false := by simpa using unwanted
    refine good_acquired held ready shareRoom room unwanted fun at1 st => ?_
    subst at1
    exact overtakes rfl st (by simpa [wanted] using unwanted)

end

/-- What an `ACQUIRE` that fails gives up, nobody else waits for. -/
def GivesUp (s : State P) (p : P) : Stage → Prop
  | .upgrade => (s.lock.wantExcl = false → ¬ Waits s p .shared) ∧
      (s.lock.sharecount = 0 → ¬ Waits s p .excl2)
  | .excl2 => s.lock.haveExcl = false → ¬ Waits s p .excl1 ∧
      (s.lock.wantUpgrade = false → ¬ Waits s p .shared)
  | _ => True

instance [Fintype P] (s : State P) (p : P) (stage : Stage) : Decidable (GivesUp s p stage) := by
  unfold GivesUp
  split <;> infer_instance

/-- An `ACQUIRE` has failed. -/
theorem good_failed (error : ℤ) (held : HeldAs s p (.asleep stage sleepfail))
    (ready : Ready strict s p) (notDrain : stage ≠ .drain) (heeds : GivesUp s p stage) :
    Good strict p (failed s stage error) := by
  cases stage with
  | shared | excl1 => exact good_finish ready error
  | drain => exact absurd rfl notDrain
  | upgrade =>
    obtain ⟨shared, second⟩ := heeds
    refine good_finish (ready.moveLock (by rfl) fun stage _ waits blocked => ?_) error
    cases stage <;> simp at blocked ⊢ <;> grind
  | excl2 =>
    rw [GivesUp] at heeds
    refine good_finish (ready.moveLock (by rfl) fun stage _ waits blocked => ?_) error
    cases stage <;> simp at blocked ⊢ <;> grind

/-! ## Waking up -/

omit [DecidableEq P] in
theorem Quiet.watchedAs (quiet : Quiet strict s) (p : P) : WatchedAs strict s p := by
  rintro stage - ⟨q, -, unwoken⟩
  exact quiet.watched q stage unwoken

/-- The turn of a process that `lk_waitcount` counts takes it out of the count. -/
theorem Quiet.counted (quiet : Quiet strict s) (mostly : Mostly {} s.proc) {w : ℤ}
    (count : w + (s.proc p).pc.waits = s.lock.waitcount) :
    Counted { s with lock.waitcount := w } p where
  mostly := mostly
  waiting := by
    intro x
    have change := tally_update (f := fun x : Proc => x.pc.waits) mostly rfl p x
    have sum := quiet.waiting
    show (tally (fun x => x.pc.waits) (update s.proc p x) : ℤ) = w + x.pc.waits
    omega
  small := by
    have := quiet.small
    show w < 2 ^ 31
    omega
  flag := fun ⟨q, _, unwoken⟩ => quiet.flag q unwoken

/-- A wait for the drain that fails leaves everything as it is. -/
theorem good_resume_drain (quiet : Quiet strict s) (mostly : Mostly {} s.proc)
    (hpc : (s.proc p).pc = .asleep .drain sleepfail) (error : ℤ) :
    Good strict p (.returns s error) := by
  rintro t ⟨⟩
  have counted : Counted s p := quiet.counted mostly (by rw [hpc]; exact Int.add_zero _)
  refine ⟨(counted.waiting _).trans (Int.add_zero _), quiet.small, ?_, ?_⟩
  · intro q h
    exact quiet.flag q (unwoken_idle h).2
  · intro q stage h
    exact quiet.watched q stage (unwoken_idle h).2

/-- **A process wakes up.** -/
theorem good_resume {error : ℤ} (quiet : Quiet strict s) (held : Held s.lock s.proc)
    (hpc : (s.proc p).pc = .asleep stage sleepfail)
    (heeds : error ≠ 0 ∨ sleepfail = true → GivesUp s p stage)
    (overtakes : error = 0 → sleepfail = false → stage = .upgrade → strict = true →
      s.lock.sharecount = 0 → ¬ Waits s p .excl2) (room : s.lock.sharecount < 2 ^ 31 - 1) :
    Good strict p (resume s p stage sleepfail error) := by
  have heldAs : HeldAs s p (.asleep stage sleepfail) := hpc ▸ held.heldAs p
  by_cases drain : stage = .drain
  · subst drain
    rw [resume]
    split
    · exact good_resume_drain quiet held.mostly hpc error
    · split
      · exact good_resume_drain quiet held.mostly hpc ENOLCK
      · have counted : Counted s p := quiet.counted held.mostly (by rw [hpc]; exact Int.add_zero _)
        exact good_acquire heldAs ⟨counted, quiet.watchedAs p⟩ (by simp) (by simp) (by simp)
  · have waits : (s.proc p).pc.waits = 1 := by
      rw [hpc]
      exact if_neg drain
    have sum := quiet.waiting
    have small := quiet.small
    have count : int (s.lock.waitcount - 1) = s.lock.waitcount - 1 := int_eq (by omega) (by omega)
    have ready : Ready strict { s with lock.waitcount := s.lock.waitcount - 1 } p := by
      refine ⟨quiet.counted held.mostly (by rw [waits]; omega), fun stage notDrain waits => ?_⟩
      have blocked := quiet.watchedAs p stage notDrain waits
      cases stage <;> first | exact blocked | exact absurd rfl notDrain
    have heldAs : HeldAs { s with lock.waitcount := s.lock.waitcount - 1 } p
        (.asleep stage sleepfail) := heldAs.rest _ _ _ _ _
    rw [resume, count]
    split
    · refine good_failed error heldAs ready drain ?_
      have := heeds (.inl ‹_›)
      cases stage <;> exact this
    · split
      · refine good_failed ENOLCK heldAs ready drain ?_
        have := heeds (.inr ‹_›)
        cases stage <;> exact this
      · rename_i zero stays
        have overtakes := overtakes (not_not.mp zero) (Bool.eq_false_of_not_eq_true stays)
        refine good_acquire heldAs ready (fun _ => room) (fun _ => ?_) overtakes
        show s.lock.waitcount - 1 < 2 ^ 31 - 1
        omega

/-! ## Requests -/

/-- A turn that sends a wakeup. -/
theorem good_wakeup (counted : Counted s p) (error : ℤ) :
    Good strict p (finish s.wakeupIfWaiting error) :=
  good_finish (counted.wakeupIfWaiting strict) error

theorem good_downgrade (counted : Counted s p) : Good strict p (downgrade s p) := by
  rw [downgrade]
  split
  · exact good_panics _
  · exact good_wakeup (counted.move (by rfl)) 0

section

variable (held : HeldAs s p .idle) (ready : Ready strict s p) (ext : Flags)

include held ready

theorem good_lockShared (shareRoom : s.lock.sharecount < 2 ^ 31 - 1)
    (room : s.lock.waitcount < 2 ^ 31 - 1) : Good strict p (lockShared s p ext) := by
  rw [lockShared]
  split
  · split
    · exact good_finish ready EBUSY
    · exact good_acquire (held.enter (by simp) (by simp)) ready (fun _ => shareRoom) (fun _ => room)
        (by simp)
  · exact good_downgrade (ready.toCounted.move (by rfl))

theorem good_lockExclusive (room : s.lock.waitcount < 2 ^ 31 - 1) :
    Good strict p (lockExclusive s p ext) := by
  rw [lockExclusive]
  split
  · split
    · exact good_panics _
    · refine good_finish (ready.move (by rfl) fun stage _ _ blocked => ?_) 0
      cases stage <;> exact blocked
  · split
    · exact good_finish ready EBUSY
    · exact good_acquire (held.enter (by simp) (by simp)) ready (by simp) (fun _ => room) (by simp)

theorem good_lockDrain : Good strict p (lockDrain s p ext) := by
  rw [lockDrain]
  split
  · exact good_panics _
  · split
    · exact good_finish ready EBUSY
    · exact good_acquire (held.enter (by simp) (by simp)) ready (by simp) (by simp) (by simp)

variable (has : 0 < (s.proc p).shares)

include has

/-- Giving up a share, where that does not end a wait. -/
theorem ready_unshare (upgrade : s.lock.sharecount = 1 → ¬ Waits s p .upgrade)
    (excl2 : s.lock.sharecount = 1 → s.lock.wantUpgrade = false → ¬ Waits s p .excl2) :
    Ready strict (unshare s p) p := by
  have count := held.int_unshare has
  refine ready.move (by rfl) fun stage _ waits blocked => ?_
  cases stage <;> simp [count] at blocked ⊢ <;> grind

variable (overtakes : strict = true → s.lock.wantUpgrade = false → s.lock.sharecount = 1 →
  ¬ Waits s p .excl2) (room : s.lock.waitcount < 2 ^ 31 - 1)

include overtakes room

theorem good_lockUpgrade (heeds : ext.nowait = true → s.lock.wantUpgrade = true →
      s.lock.sharecount = 1 → ¬ Waits s p .upgrade) : Good strict p (lockUpgrade s p ext) := by
  have count := held.int_unshare has
  have counted : Counted (unshare s p) p := ready.toCounted.move (by rfl)
  have held' := held.unshare has
  rw [lockUpgrade]
  split
  · exact good_panics _
  · dsimp only
    split
    · rename_i busy
      have busy : ext.nowait = true ∧ (s.lock.wantUpgrade = true ∨ 1 < s.lock.sharecount - 1) := by
        rw [← count]
        exact busy
      refine good_finish (ready_unshare held ready has (fun one => ?_) fun one no => ?_) EBUSY
      · exact heeds busy.1 (busy.2.resolve_right (by omega)) one
      · rcases busy.2 with wants | more
        · cases no.symm.trans wants
        · omega
    · split
      · rename_i first
        have free := held.free has
        refine good_acquire ?_ ⟨?_, ?_⟩ (by simp) (fun _ => room) ?_
        · exact held'.wants (by rw [show (unshare s p).lock.wantUpgrade = false from first]; rfl) rfl
            fun taken => by cases free.symm.trans taken
        · exact counted.moveLock (by rfl)
        · intro stage notDrain waits
          have waits : Waits s p stage := waits_setProc.mp waits
          have blocked := ready.watched stage notDrain waits
          cases stage with
          | drain => exact absurd rfl notDrain
          -- no other upgrade waits, as the flag was not set
          | upgrade => cases first.symm.trans (held.waits_upgrade waits).1
          | shared => simp
          | excl1 => exact blocked
          | excl2 => simp
        · intro _ st zero waits
          refine overtakes st first ?_ (waits_setProc.mp waits)
          have zero : int (s.lock.sharecount - 1) = 0 := zero
          omega
      · rename_i _ other
        have wants : s.lock.wantUpgrade = true := Bool.eq_true_of_not_eq_false other
        split
        -- the last share is given up: everybody is woken, so nobody is left to be watched
        · refine good_lockExclusive held'.wakeupIfWaiting (counted.wakeupIfWaiting strict) ext ?_
          rw [wakeupIfWaiting_lock]
          exact room
        · rename_i more
          refine good_lockExclusive held' ?_ ext room
          refine ready_unshare held ready has (fun one => absurd ?_ more) fun _ no => ?_
          · show int (s.lock.sharecount - 1) = 0
            omega
          · cases no.symm.trans wants

theorem good_lockExclupgrade (heeds : s.lock.wantUpgrade = true → s.lock.sharecount = 1 →
      ¬ Waits s p .upgrade) : Good strict p (lockExclupgrade s p ext) := by
  rw [lockExclupgrade]
  split
  · rename_i wants
    refine good_finish (ready_unshare held ready has (heeds wants) fun _ no => ?_) EBUSY
    cases no.symm.trans wants
  · exact good_lockUpgrade held ready ext has overtakes room fun _ => heeds

end

theorem good_lockRelease (counted : Counted s p) : Good strict p (lockRelease s p) := by
  rw [lockRelease]
  split
  · split
    · exact good_panics _
    · refine good_wakeup ?_ 0
      split
      · exact counted.move (by rfl)
      · exact counted.move (by rfl)
  · refine good_wakeup ?_ 0
    split
    · exact counted.move (by rfl)
    · exact counted

/-! ## Turns -/

/-- `lk_waitcount` has room for what a turn may add. -/
def WaitRoom : Except Panic (State P) → Label P → Prop
  | .ok s, .call _ _ _ => s.lock.waitcount < 2 ^ 31 - 1
  | _, _ => True

/-- **The turn leaves nobody behind.**  An upgrade that fails at once does not give up
the last share that another upgrade waits for; an `ACQUIRE` that fails does not give up
what others wait for; and, if we are strict, an upgrade does not succeed while another
process is at the second stage of an exclusive request. -/
def Heeds (strict : Bool) : Except Panic (State P) → Label P → Prop
  | .ok s, .call p req flags =>
    (req = .exclupgrade ∨ req = .upgrade ∧ (extflags flags s.lock.ext).nowait = true →
      s.lock.wantUpgrade = true → s.lock.sharecount = 1 → ¬ Waits s p .upgrade) ∧
    (req = .exclupgrade ∨ req = .upgrade → strict = true →
      s.lock.wantUpgrade = false → s.lock.sharecount = 1 → ¬ Waits s p .excl2)
  | .ok s, .wake p error =>
    match (s.proc p).pc with
    | .idle => True
    | .asleep stage sleepfail =>
      (error ≠ 0 ∨ sleepfail = true → GivesUp s p stage) ∧
      (error = 0 → sleepfail = false → stage = .upgrade → strict = true →
        s.lock.sharecount = 0 → ¬ Waits s p .excl2)
  | _, _ => True

instance (s : Except Panic (State P)) (a : Label P) : Decidable (WaitRoom s a) := by
  rcases s with - | s <;> rcases a with ⟨⟩ <;> dsimp only [WaitRoom] <;> infer_instance

instance [Fintype P] (s : Except Panic (State P)) (a : Label P) : Decidable (Heeds strict s a) := by
  rcases s with - | s
  · exact instDecidableTrue
  rcases a with _ | ⟨p, error⟩
  · exact @instDecidableAnd _ _ inferInstance inferInstance
  · dsimp only [Heeds]
    cases (s.proc p).pc <;> infer_instance

variable {diagnostic : Bool}

section

variable (held : HeldAs s p .idle) (ready : Ready strict s p) {req : Req} {flags : Flags}
  (allowed : Allowed (s.proc p) (extflags flags s.lock.ext) req)
  (room : Room (.ok s) (.call p req flags)) (waitRoom : s.lock.waitcount < 2 ^ 31 - 1)
  (heeds : Heeds strict (.ok s) (.call p req flags))

include held ready allowed room waitRoom heeds

theorem good_request : Good strict p (request s p req (extflags flags s.lock.ext)) := by
  obtain ⟨heeds, overtakes⟩ := heeds
  cases req with
  | shared => exact good_lockShared held ready _ room waitRoom
  | exclusive => exact good_lockExclusive held ready _ waitRoom
  | upgrade =>
    exact good_lockUpgrade held ready _ allowed (overtakes (.inr rfl)) waitRoom
      fun nowait => heeds (.inr ⟨rfl, nowait⟩)
  | exclupgrade =>
    exact good_lockExclupgrade held ready _ allowed (overtakes (.inl rfl)) waitRoom
      (heeds (.inl rfl))
  | downgrade => exact good_downgrade ready.toCounted
  | release => exact good_lockRelease ready.toCounted
  | drain => exact good_lockDrain held ready _

theorem good_lockmgr : Good strict p (lockmgr diagnostic s p req flags) := by
  rw [lockmgr]
  split
  · split
    · exact good_panics _
    · split
      · exact good_panics _
      · rename_i release
        obtain ⟨rfl, -⟩ : req = .release ∧ _ := by simpa using release
        exact good_lockRelease (ready.toCounted.moveLock (by rfl))
  · exact good_request held ready allowed room waitRoom heeds

end

/-- **One turn** that heeds the others leaves everybody watched. -/
theorem step_quiet (held : Held s.lock s.proc) (quiet : Quiet strict s)
    (room : Room (.ok s) a) (waitRoom : WaitRoom (.ok s) a) (heeds : Heeds strict (.ok s) a)
    (h : step diagnostic (.ok s) a = some (.ok t)) : Quiet strict t := by
  cases a with
  | call p req flags =>
    obtain ⟨⟨idle, allowed⟩, ht⟩ := Option.ite_none_right_eq_some.mp h
    have counted : Counted s p :=
      quiet.counted held.mostly (by rw [idle]; exact Int.add_zero _)
    exact good_lockmgr (idle ▸ held.heldAs p) ⟨counted, quiet.watchedAs p⟩ allowed room waitRoom
      heeds t (Option.some.inj ht)
  | wake p error =>
    obtain ⟨stage, sleepfail, hpc, ht⟩ := step_wake h
    rw [Heeds, hpc] at heeds
    exact good_resume quiet held hpc heeds.1 heeds.2 room t ht

/-- A turn that does not end in a panic keeps the lock in agreement with the
processes. -/
theorem step_held (held : Held s.lock s.proc) (room : Room (.ok s) a)
    (h : step diagnostic (.ok s) a = some (.ok t)) : Held t.lock t.proc := by
  by_cases inTime : InTime (.ok s) a
  · exact step_kept held room inTime h
  · cases step_late held inTime h

omit [DecidableEq P] in
theorem quiet_lockinit (ext : Flags) : Quiet strict (lockinit ext : State P) where
  waiting := Int.ofNat_eq_zero.mpr (tally_const rfl)
  small := by simp [lockinit]
  flag := fun q h => by simp [Unwoken, lockinit] at h
  watched := fun q stage h => by simp [Unwoken, lockinit] at h

/-! ## Turns that leave somebody behind -/

/-- The turn leaves a process behind, unless it ends in a panic. -/
def Leaves (strict : Bool) (p : P) (r : Result P) : Prop :=
  ∀ t, r.after p = .ok t → ¬ Watched strict t

theorem leaves_finish (stage : Stage) (notDrain : stage ≠ .drain) (waits : Waits s p stage)
    (free : ¬ Blocked strict s.lock stage) (error : ℤ) : Leaves strict p (finish s error) := by
  obtain ⟨q, differ, ⟨sleepfail, hpc⟩, hwoken⟩ := waits
  rw [finish]
  split
  · rintro t ⟨⟩ watched
    have unwoken : Unwoken { s with lock.waitDrain := false }.wakeupDrain q stage := by
      refine ⟨⟨sleepfail, hpc⟩, ?_⟩
      cases stage <;>
        first | exact absurd rfl notDrain | simpa [State.wakeupDrain, hpc] using hwoken
    have blocked := watched q stage ((unwoken_setProc differ).mpr unwoken)
    cases stage <;> exact free blocked
  · rintro t ⟨⟩ watched
    exact free (watched q stage ((unwoken_setProc differ).mpr ⟨⟨sleepfail, hpc⟩, hwoken⟩))

theorem leaves_takeExclusive (waits : Waits s p .excl2) (unshared : s.lock.sharecount = 0)
    (unwanted : s.lock.wantUpgrade = false) : Leaves true p (takeExclusive s p) := by
  rw [takeExclusive]
  split
  · intro t ht
    cases ht
  · refine leaves_finish .excl2 (by simp) ?_ ?_ 0
    · exact waits_setProc.mpr waits
    · simp [unshared, unwanted]

/-- An `ACQUIRE` that fails leaves those behind that wait for what it gives up. -/
theorem leaves_failed (held : HeldAs s p (.asleep stage sleepfail))
    (gives : ¬ GivesUp s p stage) (error : ℤ) : Leaves strict p (failed s stage error) := by
  cases stage with
  | shared | excl1 | drain => exact absurd trivial gives
  | upgrade =>
    have free := mt held.ok.no_upgrade (by simp [held.wantUpgrade_eq])
    rcases not_and_or.mp gives with shared | second
    · obtain ⟨unwanted, waits⟩ := Classical.not_imp.mp shared
      refine leaves_finish .shared nofun ?_ ?_ error
      · exact not_not.mp waits
      · simp [free, unwanted]
    · obtain ⟨unshared, waits⟩ := Classical.not_imp.mp second
      refine leaves_finish .excl2 nofun ?_ ?_ error
      · exact not_not.mp waits
      · simp [free, unshared]
  | excl2 =>
    obtain ⟨free, some⟩ := Classical.not_imp.mp gives
    rcases not_and_or.mp some with first | shared
    · refine leaves_finish .excl1 nofun ?_ ?_ error
      · exact not_not.mp first
      · simp [free]
    · obtain ⟨unwanted, waits⟩ := Classical.not_imp.mp shared
      refine leaves_finish .shared nofun ?_ ?_ error
      · exact not_not.mp waits
      · simp [free, unwanted]

/-- An upgrade succeeds. -/
theorem leaves_acquire (unshared : s.lock.sharecount = 0) (waits : Waits s p .excl2)
    (sleepfail : Bool) : Leaves true p (acquire s p .upgrade sleepfail) := by
  rw [acquire, if_neg (by simpa [wanted] using unshared)]
  refine leaves_takeExclusive ?_ ?_ rfl
  · exact waits
  · exact unshared

theorem leaves_resume {error : ℤ} (held : HeldAs s p (.asleep stage sleepfail))
    (heeds : ¬ ((error ≠ 0 ∨ sleepfail = true → GivesUp s p stage) ∧
      (error = 0 → sleepfail = false → stage = .upgrade → strict = true →
        s.lock.sharecount = 0 → ¬ Waits s p .excl2))) :
    Leaves strict p (resume s p stage sleepfail error) := by
  obtain ⟨w, hw⟩ := afterSleep_eq s stage
  have held' : HeldAs { s with lock.waitcount := w } p (.asleep stage sleepfail) :=
    held.rest w _ _ _ _
  rw [resume, hw]
  rcases not_and_or.mp heeds with gives | overtakes
  · obtain ⟨fails, gives⟩ := Classical.not_imp.mp gives
    split
    · exact leaves_failed held' gives error
    · rw [if_pos (fails.resolve_left ‹_›)]
      exact leaves_failed held' gives ENOLCK
  · obtain ⟨rfl, rfl, rfl, rfl, unshared, waits⟩ : error = 0 ∧ sleepfail = false ∧
        stage = .upgrade ∧ strict = true ∧ s.lock.sharecount = 0 ∧ Waits s p .excl2 := by
      simpa using overtakes
    apply leaves_acquire
    · exact unshared
    · exact waits

theorem leaves_panics (why : Panic) : Leaves strict p (.panics why) := by
  intro t ht
  cases ht

/-- The last share is given up that an upgrade waits for. -/
theorem leaves_unshare (last : s.lock.sharecount = 1) (waits : Waits s p .upgrade) (error : ℤ) :
    Leaves strict p (finish (unshare s p) error) := by
  refine leaves_finish .upgrade nofun ?_ ?_ error
  · exact waits_setProc.mpr waits
  · simp [unshare, last, int]

theorem leaves_lockUpgrade (ext : Flags) (last : s.lock.sharecount = 1)
    (left : ext.nowait = true ∧ s.lock.wantUpgrade = true ∧ Waits s p .upgrade ∨
      strict = true ∧ s.lock.wantUpgrade = false ∧ Waits s p .excl2) :
    Leaves strict p (lockUpgrade s p ext) := by
  have none : (unshare s p).lock.sharecount = 0 := by
    simp [unshare, last, int]
  rw [lockUpgrade]
  split
  · exact leaves_panics _
  · rcases left with ⟨nowait, wants, waits⟩ | ⟨rfl, unwanted, waits⟩
    · rw [if_pos ⟨nowait, .inl wants⟩]
      exact leaves_unshare last waits EBUSY
    · have goesOn : ¬ (ext.nowait = true ∧ ((unshare s p).lock.wantUpgrade = true ∨
          (unshare s p).lock.sharecount > 1)) := by
        rintro ⟨-, wants | more⟩
        · cases unwanted.symm.trans wants
        · omega
      have unwanted : (unshare s p).lock.wantUpgrade = false := unwanted
      rw [if_neg goesOn, if_pos unwanted]
      apply leaves_acquire
      · exact none
      · exact waits_setProc.mpr waits

theorem leaves_lockExclupgrade (ext : Flags) (last : s.lock.sharecount = 1)
    (left : s.lock.wantUpgrade = true ∧ Waits s p .upgrade ∨
      strict = true ∧ s.lock.wantUpgrade = false ∧ Waits s p .excl2) :
    Leaves strict p (lockExclupgrade s p ext) := by
  rw [lockExclupgrade]
  rcases left with ⟨wants, waits⟩ | overtakes
  · rw [if_pos wants]
    exact leaves_unshare last waits EBUSY
  · rw [if_neg (by simp [overtakes.2.1])]
    exact leaves_lockUpgrade ext last (.inr overtakes)

theorem leaves_lockmgr {req : Req} {flags : Flags}
    (careless : ¬ Heeds strict (.ok s) (.call p req flags)) :
    Leaves strict p (lockmgr diagnostic s p req flags) := by
  have left : s.lock.sharecount = 1 ∧
      ((req = .exclupgrade ∨ req = .upgrade ∧ (extflags flags s.lock.ext).nowait = true) ∧
          s.lock.wantUpgrade = true ∧ Waits s p .upgrade ∨
        (req = .exclupgrade ∨ req = .upgrade) ∧ strict = true ∧ s.lock.wantUpgrade = false ∧
          Waits s p .excl2) := by
    rw [Heeds] at careless
    grind
  obtain ⟨last, left⟩ := left
  have notRelease : req ≠ .release := by
    rintro rfl
    simp at left
  rw [lockmgr]
  split
  · split
    · exact leaves_panics _
    · rw [if_pos (.inl notRelease)]
      exact leaves_panics _
  · cases req with
    | upgrade =>
      refine leaves_lockUpgrade _ last ?_
      simpa [and_assoc] using left
    | exclupgrade =>
      refine leaves_lockExclupgrade _ last ?_
      simpa using left
    | _ => simp at left

/-- A turn that does not heed the others. -/
theorem step_leaves (held : Held s.lock s.proc) (careless : ¬ Heeds strict (.ok s) a)
    (h : step diagnostic (.ok s) a = some (.ok t)) : ¬ Watched strict t := by
  cases a with
  | wake p error =>
    obtain ⟨stage, sleepfail, hpc, ht⟩ := step_wake h
    rw [Heeds, hpc] at careless
    exact leaves_resume (hpc ▸ held.heldAs p) careless t ht
  | call p req flags =>
    obtain ⟨-, ht⟩ := Option.ite_none_right_eq_some.mp h
    exact leaves_lockmgr careless t (Option.some.inj ht)

/-! ## Whole schedules -/

/-- There was no panic. -/
def Live : Except Panic (State P) → Prop
  | .ok _ => True
  | .error _ => False

/-- What holds between turns. -/
def Steady (strict : Bool) : Except Panic (State P) → Prop
  | .ok s => Held s.lock s.proc ∧ Quiet strict s
  | .error _ => True

def Heard (strict : Bool) : Except Panic (State P) → Prop
  | .ok s => Watched strict s
  | .error _ => True

section

variable (s : Except Panic (State P)) (a : Label P) (t : Except Panic (State P))

theorem step_live (h : step diagnostic s a = some t) (_live : Live t) : Live s := by
  cases s with
  | error why => cases h
  | ok s => trivial

theorem step_steady (steady : Steady strict s) (room : Room s a ∧ WaitRoom s a)
    (heeds : Heeds strict s a) (h : step diagnostic s a = some t) (live : Live t) :
    Steady strict t ∧ Heard strict t := by
  cases s with
  | error why => cases h
  | ok s =>
    cases t with
    | error why => exact live.elim
    | ok t =>
      have quiet := step_quiet steady.1 steady.2 room.1 room.2 heeds h
      exact ⟨⟨step_held steady.1 room.1 h, quiet⟩, quiet.watched⟩

theorem step_careless (steady : Steady strict s) (_room : Room s a ∧ WaitRoom s a)
    (careless : ¬ Heeds strict s a) (h : step diagnostic s a = some t) (live : Live t) :
    ¬ Heard strict t := by
  cases s with
  | error why => cases h
  | ok s =>
    cases t with
    | error why => exact live.elim
    | ok t => exact step_leaves steady.1 careless h

end

/-- **No wakeup is lost by turns that heed the others.**  Along a schedule without a
panic, where the counts have room, every process that sleeps and has not been sent a
wakeup is still blocked, in every state on the way, exactly if all turns heed the
others.  In the strict reading its own condition still holds; in the other it may
instead be at the second stage of an exclusive request while another process has the
lock exclusively. -/
theorem watched_iff_heeds (strict diagnostic : Bool) (ext : Flags) (ls : List (Label P))
    (t : State P) (h : run (step diagnostic) (.ok (lockinit ext)) ls = some (.ok t))
    (room : Along (step diagnostic) (fun s a => Room s a ∧ WaitRoom s a) (.ok (lockinit ext)) ls) :
    Along (step diagnostic) (Heeds strict) (.ok (lockinit ext)) ls ↔
      ∀ ks u, ks <+: ls → run (step diagnostic) (.ok (lockinit ext)) ks = some (.ok u) →
        Watched strict u := by
  have start : Steady strict (.ok (lockinit ext : State P)) :=
    ⟨held_lockinit ext, quiet_lockinit ext⟩
  have iff := along_iff_reached step_live step_steady step_careless ⟨start, start.2.watched⟩ room h
    trivial
  rw [iff]
  refine ⟨fun all ks u isPre hu => all ks (.ok u) isPre hu, fun all ks v isPre hv => ?_⟩
  cases v with
  | error why => trivial
  | ok u => exact all ks u isPre hv

/-- A process that sleeps and is blocked. -/
theorem watched_iff_heeds_two :
    ∃ t : State Bool, run (step true) (.ok (lockinit {}))
        [.call true .exclusive {}, .call false .shared {}] = some (.ok t) ∧
      Unwoken t false .shared ∧ Watched true t :=
  ⟨_, rfl, ⟨⟨false, rfl⟩, rfl⟩, (watched_iff_heeds true true {}
    [.call true .exclusive {}, .call false .shared {}] _ rfl (by decide)).mp (by decide) _ _
      List.prefix_rfl rfl⟩

/-- **Wakeups are lost.**  Of two processes that share the lock one asks for an upgrade
and waits for the other, which asks for an upgrade too, is refused, and has given up its
share: nobody has the lock, and the first sleeps on.  A process whose wait for an
upgrade, or for an exclusive lock, is interrupted leaves one behind that wants to share
the lock. -/
theorem wakeup_lost :
    (∃ t : State Bool, run (step true) (.ok (lockinit {}))
        [.call true .shared {}, .call false .shared {}, .call true .upgrade {},
          .call false .exclupgrade {}] = some (.ok t) ∧
      Unwoken t true .upgrade ∧ wanted t.lock .upgrade = false ∧ t.lock.haveExcl = false) ∧
    (∃ t : State (Fin 3), run (step true) (.ok (lockinit {}))
        [.call 0 .shared {}, .call 1 .shared {}, .call 0 .upgrade {}, .call 2 .shared {},
          .wake 0 4] = some (.ok t) ∧
      Unwoken t 2 .shared ∧ wanted t.lock .shared = false ∧ t.lock.haveExcl = false) ∧
    ∃ t : State (Fin 3), run (step true) (.ok (lockinit {}))
        [.call 0 .shared {}, .call 1 .exclusive {}, .call 2 .shared {}, .wake 1 4] =
          some (.ok t) ∧
      Unwoken t 2 .shared ∧ wanted t.lock .shared = false ∧ t.lock.haveExcl = false :=
  ⟨⟨_, rfl, ⟨⟨false, rfl⟩, rfl⟩, rfl, rfl⟩, ⟨_, rfl, ⟨⟨false, rfl⟩, rfl⟩, rfl, rfl⟩,
    ⟨_, rfl, ⟨⟨false, rfl⟩, rfl⟩, rfl, rfl⟩⟩

end BSDLite2.LockMgr
