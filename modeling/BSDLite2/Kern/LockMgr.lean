import BSDLite2.Kern.Param
import BSDLite2.Lib.Schedule

/-!
# The lock manager (`kern/kern_lock.c`)

A lock is shared by several processes, or exclusive to one, which may take it again.
An exclusive request waits in two stages: first until nobody has the lock exclusively
or wants it so (`LK_WANT_EXCL`), then until the shared locks are gone.  A process that
has a shared lock may ask to upgrade it, and overtakes exclusive requests
(`LK_WANT_UPGRADE`).  `LK_DRAIN` waits for all activity on the lock to end.

The code runs under the interlock of the lock, on one processor (`NCPUS` is 1), and
gives it up only when it returns or sleeps.  One turn of a process is the code from a
call, or from its waking up, to that point.  `wakeup` marks the sleepers on a lock; one
that is marked may go on at any later time, and a sleep may fail at any time.

The grants that a process holds, which `COUNT` counts, are kept beside the lock
(`Proc`).

* `lockmgr`, `resume` — the code;
* `step` — one turn of a process.
-/

namespace BSDLite2.LockMgr

open Schedule Function

/-! ## The lock -/

/-- The type of a request. -/
inductive Req where
  | shared
  | exclusive
  | upgrade
  | exclupgrade
  | downgrade
  | release
  | drain
  deriving DecidableEq, Repr

/-- The flags of a request: `LK_NOWAIT`, `LK_SLEEPFAIL`, `LK_CANRECURSE` and
`LK_REENABLE`.  The first three may also be set in the lock. -/
structure Flags where
  nowait : Bool := false
  sleepfail : Bool := false
  canrecurse : Bool := false
  reenable : Bool := false
  deriving DecidableEq, Repr

/-- `struct lock` -/
structure Lock (P : Type) where
  ext : Flags
  /-- `LK_WANT_UPGRADE` -/
  wantUpgrade : Bool := false
  /-- `LK_WANT_EXCL` -/
  wantExcl : Bool := false
  /-- `LK_HAVE_EXCL` -/
  haveExcl : Bool := false
  /-- `LK_WAITDRAIN` -/
  waitDrain : Bool := false
  /-- `LK_DRAINING` -/
  draining : Bool := false
  /-- `LK_DRAINED` -/
  drained : Bool := false
  /-- `lk_sharecount`, an `int` -/
  sharecount : ℤ := 0
  /-- `lk_waitcount`, an `int` -/
  waitcount : ℤ := 0
  /-- `lk_exclusivecount`, a `short` -/
  exclusivecount : ℤ := 0
  /-- `lk_lockholder`, where `none` is `LK_NOPROC` -/
  lockholder : Option P := none
  deriving DecidableEq

def EBUSY : ℤ := 16

def ENOLCK : ℤ := 77

/-- The calls of `panic`. -/
inductive Panic where
  | usingDecommissioned
  | nonReleaseOnDraining
  | notHoldingExclusive
  | upgradeExclusive
  | nonZeroExclusiveCount
  | lockingAgainstMyself
  | notHolder
  | drainingAgainstMyself
  deriving DecidableEq, Repr

/-- The sleeps: in the `ACQUIRE` of `LK_SHARED`, of `LK_UPGRADE` and in the two of
`LK_EXCLUSIVE`, and in `LK_DRAIN`. -/
inductive Stage where
  | shared
  | upgrade
  | excl1
  | excl2
  | drain
  deriving DecidableEq, Repr

/-- The condition that a sleep waits to be false. -/
def wanted {P : Type} (l : Lock P) : Stage → Bool
  | .shared => l.haveExcl || l.wantExcl || l.wantUpgrade
  | .upgrade => l.sharecount ≠ 0
  | .excl1 => l.haveExcl || l.wantExcl
  | .excl2 => l.sharecount ≠ 0 || l.wantUpgrade
  | .drain => l.haveExcl || l.wantExcl || l.wantUpgrade || l.sharecount ≠ 0 || l.waitcount ≠ 0

/-! ## Processes -/

/-- Where a process is. -/
inductive Pc where
  | idle
  | asleep (stage : Stage) (sleepfail : Bool)
  deriving DecidableEq, Repr

/-- A process: where it is, and how many shared and exclusive grants it holds. -/
structure Proc where
  pc : Pc := .idle
  shares : ℕ := 0
  excls : ℕ := 0
  deriving DecidableEq

/-- The lock, the processes, and which sleepers have been sent a wakeup. -/
structure State (P : Type) where
  lock : Lock P
  proc : P → Proc
  woken : P → Bool

/-- How a piece of code ends. -/
inductive Result (P : Type) where
  | sleeps (s : State P)
  | returns (s : State P) (error : ℤ)
  | panics (why : Panic)

variable {P : Type} [DecidableEq P]

def State.setProc (s : State P) (p : P) (x : Proc) : State P :=
  { s with proc := update s.proc p x }

/-- `wakeup((void *)lkp)` -/
def State.wakeup (s : State P) : State P :=
  { s with woken := fun q =>
      match (s.proc q).pc with
      | .asleep .drain _ | .idle => s.woken q
      | .asleep _ _ => true }

/-- `wakeup((void *)&lkp->lk_flags)` -/
def State.wakeupDrain (s : State P) : State P :=
  { s with woken := fun q =>
      match (s.proc q).pc with
      | .asleep .drain _ => true
      | _ => s.woken q }

/-- `if (lkp->lk_waitcount) wakeup((void *)lkp);` -/
def State.wakeupIfWaiting (s : State P) : State P :=
  if s.lock.waitcount ≠ 0 then s.wakeup else s

/-! ## The code -/

variable (diagnostic : Bool) (s : State P) (p : P) (req : Req) (ext : Flags) (stage : Stage)
   (sleepfail : Bool)

/-- What follows the switch: wake those who drain the lock if nothing is left. -/
def finish (error : ℤ) : Result P :=
  if s.lock.waitDrain ∧ wanted s.lock .drain = false then
    .returns { s with lock.waitDrain := false }.wakeupDrain error
  else .returns s error

/-- `lkp->lk_sharecount++; COUNT(p, 1);` -/
def share : State P :=
  { s with lock.sharecount := int (s.lock.sharecount + 1) }.setProc p
    { s.proc p with shares := (s.proc p).shares + 1 }

/-- `lkp->lk_sharecount--; COUNT(p, -1);` -/
def unshare : State P :=
  { s with lock.sharecount := int (s.lock.sharecount - 1) }.setProc p
    { s.proc p with shares := (s.proc p).shares - 1 }

/-- `p` has the lock exclusively now. -/
def takeExclusive : Result P :=
  if s.lock.exclusivecount ≠ 0 then .panics .nonZeroExclusiveCount
  else
    finish ({ s with
      lock.haveExcl := true
      lock.lockholder := some p
      lock.exclusivecount := 1 }.setProc p { s.proc p with excls := 1 }) 0

/-- Sleep.  `ACQUIRE` counts the sleepers, `LK_DRAIN` leaves a flag. -/
def sleepAt : Result P :=
  let s := { s.setProc p { s.proc p with pc := .asleep stage sleepfail } with
    woken := update s.woken p false }
  if stage = .drain then .sleeps { s with lock.waitDrain := true }
  else .sleeps { s with lock.waitcount := int (s.lock.waitcount + 1) }

/-- The second `ACQUIRE` of `LK_EXCLUSIVE` has succeeded. -/
def exclDone : Result P :=
  takeExclusive { s with lock.wantExcl := false } p

/-- What follows an `ACQUIRE`, or the loop of `LK_DRAIN`, that has succeeded. -/
def acquired : Result P :=
  match stage with
  | .shared => finish (share s p) 0
  | .upgrade => takeExclusive { s with lock.wantUpgrade := false } p
  | .excl1 =>
    let s := { s with lock.wantExcl := true }
    if wanted s.lock .excl2 then sleepAt s p .excl2 sleepfail else exclDone s p
  | .excl2 => exclDone s p
  | .drain =>
    finish ({ s with
      lock.draining := true
      lock.haveExcl := true
      lock.lockholder := some p
      lock.exclusivecount := 1 }.setProc p { s.proc p with excls := 1 }) 0

/-- What follows one that has failed. -/
def failed (error : ℤ) : Result P :=
  match stage with
  | .shared | .excl1 => finish s error
  | .upgrade => finish { s with lock.wantUpgrade := false } error
  | .excl2 => finish { s with lock.wantExcl := false } error
  | .drain => .returns s error

/-- `ACQUIRE`, or the loop of `LK_DRAIN`, from the test on. -/
def acquire : Result P :=
  if wanted s.lock stage then sleepAt s p stage sleepfail else acquired s p stage sleepfail

/-- `tsleep` has returned `error`. -/
def resume (error : ℤ) : Result P :=
  let s := if stage = .drain then s
    else { s with lock.waitcount := int (s.lock.waitcount - 1) }
  if error ≠ 0 then failed s stage error
  else if sleepfail then failed s stage ENOLCK
  else acquire s p stage sleepfail

/-- `LK_DOWNGRADE` -/
def downgrade : Result P :=
  if s.lock.lockholder ≠ some p ∨ s.lock.exclusivecount = 0 then .panics .notHoldingExclusive
  else
    finish ({ s with
      lock.sharecount := int (s.lock.sharecount + s.lock.exclusivecount)
      lock.exclusivecount := 0
      lock.haveExcl := false
      lock.lockholder := none }.setProc p
        { s.proc p with
          shares := (s.proc p).shares + (s.proc p).excls
          excls := 0 }).wakeupIfWaiting 0

/-- `LK_SHARED` -/
def lockShared : Result P :=
  if s.lock.lockholder ≠ some p then
    if ext.nowait ∧ wanted s.lock .shared then finish s EBUSY
    else acquire s p .shared ext.sleepfail
  else downgrade (share s p) p

/-- `LK_EXCLUSIVE` -/
def lockExclusive : Result P :=
  if s.lock.lockholder = some p then
    if ext.canrecurse = false then .panics .lockingAgainstMyself
    else
      finish ({ s with lock.exclusivecount := short (s.lock.exclusivecount + 1) }.setProc p
        { s.proc p with excls := (s.proc p).excls + 1 }) 0
  else if ext.nowait ∧ (wanted s.lock .shared ∨ s.lock.sharecount ≠ 0) then finish s EBUSY
  else acquire s p .excl1 ext.sleepfail

/-- `LK_UPGRADE` -/
def lockUpgrade : Result P :=
  if s.lock.lockholder = some p ∨ s.lock.sharecount ≤ 0 then .panics .upgradeExclusive
  else
    let s := unshare s p
    if ext.nowait ∧ (s.lock.wantUpgrade ∨ s.lock.sharecount > 1) then finish s EBUSY
    else if s.lock.wantUpgrade = false then
      acquire { s with lock.wantUpgrade := true } p .upgrade ext.sleepfail
    else
      lockExclusive (if s.lock.sharecount = 0 then s.wakeupIfWaiting else s) p ext

/-- `LK_EXCLUPGRADE` -/
def lockExclupgrade : Result P :=
  if s.lock.wantUpgrade then finish (unshare s p) EBUSY else lockUpgrade s p ext

/-- `LK_RELEASE` -/
def lockRelease : Result P :=
  if s.lock.exclusivecount ≠ 0 then
    if s.lock.lockholder ≠ some p then .panics .notHolder
    else
      let s := { s with lock.exclusivecount := short (s.lock.exclusivecount - 1) }.setProc p
        { s.proc p with excls := (s.proc p).excls - 1 }
      let s := if s.lock.exclusivecount = 0 then
          { s with lock.haveExcl := false, lock.lockholder := none }
        else s
      finish s.wakeupIfWaiting 0
  else
    let s := if s.lock.sharecount ≠ 0 then unshare s p else s
    finish s.wakeupIfWaiting 0

/-- `LK_DRAIN` -/
def lockDrain : Result P :=
  if s.lock.lockholder = some p then .panics .drainingAgainstMyself
  else if ext.nowait ∧ wanted s.lock .drain then finish s EBUSY
  else acquire s p .drain ext.sleepfail

/-- The switch. -/
def request : Result P :=
  match req with
  | .shared => lockShared s p ext
  | .downgrade => downgrade s p
  | .exclupgrade => lockExclupgrade s p ext
  | .upgrade => lockUpgrade s p ext
  | .exclusive => lockExclusive s p ext
  | .release => lockRelease s p
  | .drain => lockDrain s p ext

/-- `extflags` -/
def extflags (flags lkFlags : Flags) : Flags :=
  ⟨flags.nowait || lkFlags.nowait, flags.sleepfail || lkFlags.sleepfail,
    flags.canrecurse || lkFlags.canrecurse, false⟩

/-- **`lockmgr`**, compiled with `DIAGNOSTIC` or without. -/
def lockmgr (flags : Flags) : Result P :=
  let ext := extflags flags s.lock.ext
  if diagnostic ∧ (s.lock.draining ∨ s.lock.drained) then
    if s.lock.drained then .panics .usingDecommissioned
    else if req ≠ .release ∨ s.lock.lockholder ≠ some p then .panics .nonReleaseOnDraining
    else
      request { s with
        lock.draining := false
        lock.drained := s.lock.drained || !flags.reenable } p req ext
  else request s p req ext

/-! ## Turns -/

/-- The holdings of a process allow a request. -/
def Allowed (x : Proc) (ext : Flags) : Req → Prop
  | .shared => True
  | .exclusive => x.excls = 0 ∨ ext.canrecurse
  | .upgrade | .exclupgrade => 0 < x.shares
  | .downgrade => 0 < x.excls
  | .release => 0 < x.excls ∨ 0 < x.shares
  | .drain => x.excls = 0

instance (x : Proc) (ext : Flags) (req : Req) : Decidable (Allowed x ext req) := by
  cases req <;> unfold Allowed <;> infer_instance

/-- The turns of a process: a request, or what follows a sleep. -/
inductive Label (P : Type) where
  | call (p : P) (req : Req) (flags : Flags)
  | wake (p : P) (error : ℤ)
  deriving DecidableEq

/-- The state after a piece of code, or the panic. -/
def Result.after : Result P → Except Panic (State P)
  | .sleeps s => .ok s
  | .returns s _ => .ok (s.setProc p { s.proc p with pc := .idle })
  | .panics why => .error why

/-- One turn.  There is none after a panic. -/
def step : Except Panic (State P) → Label P → Option (Except Panic (State P))
  | .error _, _ => none
  | .ok s, .call p req flags =>
    if (s.proc p).pc = .idle ∧ Allowed (s.proc p) (extflags flags s.lock.ext) req then
      some ((lockmgr diagnostic s p req flags).after p)
    else none
  | .ok s, .wake p error =>
    match (s.proc p).pc with
    | .idle => none
    | .asleep stage sleepfail =>
      if error ≠ 0 ∨ s.woken p then some ((resume s p stage sleepfail error).after p) else none

/-- `lockinit` -/
def lockinit : State P where
  lock := { ext := ext }
  proc := fun _ => {}
  woken := fun _ => false

/-! ## Polling -/

/-- `tsleep` is called. -/
def Result.slept : Result P → Bool
  | .sleeps _ => true
  | _ => false

/-- A request to upgrade that leaves one shared lock.  Its test for that comes after it has given
up its own. -/
def LeavesOne : Prop :=
  ¬ (diagnostic ∧ (s.lock.draining ∨ s.lock.drained)) ∧ (req = .upgrade ∨ req = .exclupgrade) ∧
    s.lock.lockholder ≠ some p ∧ s.lock.wantUpgrade = false ∧ 0 < s.lock.sharecount ∧
      int (s.lock.sharecount - 1) ≠ 0 ∧ int (s.lock.sharecount - 1) ≤ 1

section Polling

variable {s : State P} {p : P} {ext : Flags}

omit [DecidableEq P] in
@[simp]
theorem slept_finish (error : ℤ) : (finish s error).slept = false := by
  unfold finish
  split <;> rfl

@[simp]
theorem slept_takeExclusive : (takeExclusive s p).slept = false := by
  unfold takeExclusive
  split
  · rfl
  · exact slept_finish 0

@[simp]
theorem slept_downgrade : (downgrade s p).slept = false := by
  unfold downgrade
  split
  · rfl
  · exact slept_finish 0

@[simp]
theorem slept_lockRelease : (lockRelease s p).slept = false := by
  unfold lockRelease
  split_ifs
  · rfl
  all_goals exact slept_finish 0

theorem slept_sleepAt (stage : Stage) (sleepfail : Bool) :
    (sleepAt s p stage sleepfail).slept = true := by
  unfold sleepAt
  split <;> rfl

/-- What an `ACQUIRE` waits for; the second of `LK_EXCLUSIVE` follows the first. -/
theorem slept_acquire (stage : Stage) (sleepfail : Bool) :
    (acquire s p stage sleepfail).slept = true ↔
      wanted s.lock stage ∨ stage = .excl1 ∧ wanted s.lock .excl2 := by
  unfold acquire
  split
  · rename_i busy
    simp [slept_sleepAt, busy]
  · rename_i idle
    cases stage with
    | excl1 =>
      have same : wanted { s.lock with wantExcl := true } .excl2 = wanted s.lock .excl2 := rfl
      simp only [acquired, same, idle, true_and]
      split <;> simp_all [slept_sleepAt, exclDone]
    | _ => simp [acquired, exclDone, idle]

variable (nowait : ext.nowait = true)

include nowait

theorem slept_lockShared : (lockShared s p ext).slept = false := by
  unfold lockShared
  split_ifs with _ busy
  · exact slept_finish _
  · simpa [nowait, slept_acquire, ← Bool.not_eq_true] using busy
  · exact slept_downgrade

theorem slept_lockExclusive : (lockExclusive s p ext).slept = false := by
  unfold lockExclusive
  split_ifs with _ _ busy
  · rfl
  · exact slept_finish _
  · exact slept_finish _
  · simp_all [← Bool.not_eq_true, slept_acquire, wanted]

theorem slept_lockDrain : (lockDrain s p ext).slept = false := by
  unfold lockDrain
  split_ifs with _ busy
  · rfl
  · exact slept_finish _
  · simpa [nowait, slept_acquire, ← Bool.not_eq_true] using busy

theorem slept_lockUpgrade : (lockUpgrade s p ext).slept = true ↔
    s.lock.lockholder ≠ some p ∧ s.lock.wantUpgrade = false ∧ 0 < s.lock.sharecount ∧
      int (s.lock.sharecount - 1) ≠ 0 ∧ int (s.lock.sharecount - 1) ≤ 1 := by
  have count : (unshare s p).lock.sharecount = int (s.lock.sharecount - 1) := rfl
  have want : (unshare s p).lock.wantUpgrade = s.lock.wantUpgrade := rfl
  unfold lockUpgrade
  simp only [count, want, nowait, true_and]
  split_ifs with panics busy first
  · exact iff_of_false nofun fun h => panics.elim h.1 (not_le.mpr h.2.2.1)
  · refine iff_of_false (by simp) fun h => ?_
    exact busy.elim (by simp [h.2.1]) (not_lt.mpr h.2.2.2.2)
  · rw [not_or, not_le] at panics
    rw [not_or, not_lt] at busy
    simp [slept_acquire, wanted, panics, busy.2, first]
  all_goals exact absurd (by simpa using (not_or.mp busy).1) first

end Polling

/-- **A request that polls returns at once**, unless it is one to upgrade that leaves one shared
lock. -/
theorem nowait_returns_iff (flags : Flags) (nowait : (extflags flags s.lock.ext).nowait = true) :
    (lockmgr diagnostic s p req flags).slept = false ↔ ¬ LeavesOne diagnostic s p req := by
  rw [← Bool.not_eq_true, not_iff_not]
  unfold lockmgr LeavesOne
  split_ifs with draining drained release
  · simp [Result.slept, draining]
  · simp [Result.slept, draining]
  · obtain ⟨rfl, -⟩ : req = .release ∧ s.lock.lockholder = some p := by simpa using release
    simp [request]
  · cases req with
    | upgrade => simpa [request, draining] using slept_lockUpgrade nowait
    | exclupgrade =>
      rw [request, lockExclupgrade]
      split
      · rename_i want
        simp [want]
      · simpa [draining] using slept_lockUpgrade nowait
    | _ => simp [request, nowait, slept_lockShared, slept_lockExclusive, slept_lockDrain]

/-- Of three processes that share the lock one polls for an upgrade, which leaves two. -/
theorem nowait_returns_shared :
    ∃ t : State (Fin 3), run (step true) (.ok (lockinit {}))
        [.call 0 .shared {}, .call 1 .shared {}, .call 2 .shared {}] = some (.ok t) ∧
      t.lock.sharecount = 3 ∧ (lockmgr true t 0 .upgrade { nowait := true }).slept = false :=
  ⟨_, rfl, rfl, (nowait_returns_iff true _ 0 .upgrade { nowait := true } rfl).mpr
    fun leaves => absurd leaves.2.2.2.2.2.2 (by decide)⟩

/-- **It sleeps.**  Of two processes that share the lock one polls for an upgrade. -/
theorem nowait_sleeps :
    ∃ t : State Bool, run (step true) (.ok (lockinit {}))
        [.call true .shared {}, .call false .shared {}] = some (.ok t) ∧
      (lockmgr true t true .upgrade { nowait := true }).slept = true :=
  ⟨_, rfl, rfl⟩

end BSDLite2.LockMgr
