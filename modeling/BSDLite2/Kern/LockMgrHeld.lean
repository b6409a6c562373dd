import BSDLite2.Lib.Tally
import BSDLite2.Kern.LockMgr

/-!
# What the lock says and what the processes hold

The counts and flags of a lock agree with the grants of the processes and with where
they sleep (`Held`).  A turn changes the lock and one process; `HeldAs.move` says which
changes go together, and every turn makes such changes.  So they agree along every
schedule (`accounts_agree`).

In the middle of a turn the flags may be ahead of the process: `LK_WANT_UPGRADE` is set before it
sleeps and is still set when it has woken up.  `HeldAs` has the process count as being at another
place than it is, and a turn is a chain of such steps that ends at a place it really has.  Sums over
all processes are finite since almost all of them have never called (`Mostly`), so that their number
does not matter.

* `Held`, `HeldAs` — the lock agrees with the processes, between turns and in a turn;
* `accounts_agree` — no count is lost.
-/

namespace BSDLite2.LockMgr

open Schedule Function

variable {P : Type} {stage : Stage}

/-! ## The invariant -/

/-- 1 for a process that sleeps at `stage`. -/
def Pc.isAt (stage : Stage) : Pc → ℕ
  | .idle => 0
  | .asleep st _ => if st = stage then 1 else 0

/-- How often the lock says that `q` holds it exclusively. -/
def Lock.excls [DecidableEq P] (l : Lock P) (q : P) : ℤ :=
  if l.lockholder = some q then l.exclusivecount else 0

/-- The flags and counts of a lock agree. -/
structure Lock.Ok (l : Lock P) : Prop where
  have_iff : l.haveExcl = true ↔ l.lockholder ≠ none
  pos_iff : 0 < l.exclusivecount ↔ l.lockholder ≠ none
  nonneg : 0 ≤ l.exclusivecount
  alone : l.haveExcl = true → l.sharecount = 0
  no_upgrade : l.haveExcl = true → l.wantUpgrade = false
  share_small : l.sharecount < 2 ^ 31
  excl_small : l.exclusivecount < 2 ^ 15

/-- The lock agrees with the processes. -/
structure Held [DecidableEq P] (l : Lock P) (proc : P → Proc) : Prop extends Lock.Ok l where
  mostly : Mostly {} proc
  shares : (tally Proc.shares proc : ℤ) = l.sharecount
  upgrade : tally (fun x => x.pc.isAt .upgrade) proc = l.wantUpgrade.toNat
  excl2 : tally (fun x => x.pc.isAt .excl2) proc = l.wantExcl.toNat
  excls : ∀ q, ((proc q).excls : ℤ) = l.excls q

variable [DecidableEq P]

/-- In the middle of a turn: the lock agrees with the processes if `p`, whose turn it
is, counts as being at `pc`. -/
def HeldAs (s : State P) (p : P) (pc : Pc) : Prop :=
  Held s.lock (update s.proc p { s.proc p with pc := pc })

variable {l : Lock P} {proc : P → Proc} {s : State P} {p : P} {pc pc' : Pc}

/-- A change of the lock and one process. -/
theorem Held.update (held : Held l proc) {l' : Lock P} {x : Proc} (ok : l'.Ok)
    (shares : l'.sharecount + (proc p).shares = l.sharecount + x.shares)
    (upgrade : l'.wantUpgrade.toNat + (proc p).pc.isAt .upgrade =
      l.wantUpgrade.toNat + x.pc.isAt .upgrade)
    (excl2 : l'.wantExcl.toNat + (proc p).pc.isAt .excl2 =
      l.wantExcl.toNat + x.pc.isAt .excl2)
    (others : ∀ q, q ≠ p → l'.excls q = l.excls q) (own : (x.excls : ℤ) = l'.excls p) :
    Held l' (update proc p x) where
  toOk := ok
  mostly := held.mostly.update p x
  shares := by
    have := tally_update (f := Proc.shares) held.mostly rfl p x
    have := held.shares
    omega
  upgrade := by
    have := tally_update (f := fun x : Proc => x.pc.isAt .upgrade) held.mostly rfl p x
    have := held.upgrade
    omega
  excl2 := by
    have := tally_update (f := fun x : Proc => x.pc.isAt .excl2) held.mostly rfl p x
    have := held.excl2
    omega
  excls := by
    intro q
    by_cases same : q = p
    · rw [same, update_self, own]
    · rw [update_of_ne same, others q same, held.excls]

theorem HeldAs.own_excls (held : HeldAs s p pc) : ((s.proc p).excls : ℤ) = s.lock.excls p := by
  simpa using Held.excls held p

section

variable {x : Proc} (held : HeldAs s p pc) (ok : l.Ok)
  (upgrade : l.wantUpgrade.toNat + pc.isAt .upgrade = s.lock.wantUpgrade.toNat + pc'.isAt .upgrade)
  (excl2 : l.wantExcl.toNat + pc.isAt .excl2 = s.lock.wantExcl.toNat + pc'.isAt .excl2)

include held ok upgrade excl2

/-- **What may change together in a turn of `p`.** -/
theorem HeldAs.move (shares : l.sharecount + (s.proc p).shares = s.lock.sharecount + x.shares)
    (others : ∀ q, q ≠ p → l.excls q = s.lock.excls q) (own : (x.excls : ℤ) = l.excls p) :
    HeldAs ({ s with lock := l }.setProc p x) p pc' := by
  have := Held.update (x := { x with pc := pc' }) held ok (by simpa using shares)
    (by simpa using upgrade) (by simpa using excl2) others own
  simpa [HeldAs, State.setProc] using this

/-- A change of the lock alone. -/
theorem HeldAs.moveLock (shares : l.sharecount = s.lock.sharecount)
    (same : ∀ q, l.excls q = s.lock.excls q) : HeldAs { s with lock := l } p pc' := by
  have := held.move ok upgrade excl2 (by rw [shares]) (fun q _ => same q)
    (held.own_excls.trans (same p).symm)
  rwa [State.setProc, update_eq_self] at this

end

theorem HeldAs.ok (held : HeldAs s p pc) : s.lock.Ok := held.toOk

/-- Of the rest of the lock nothing is said. -/
theorem HeldAs.rest (held : HeldAs s p pc) (w : ℤ) (b d e : Bool) (v : P → Bool) :
    HeldAs ⟨{ s.lock with waitcount := w, waitDrain := b, draining := d, drained := e },
      s.proc, v⟩ p pc := by
  exact held.moveLock { held.ok with } rfl rfl rfl fun _ => rfl

/-! ## How a turn ends -/

/-- After a turn the lock agrees with the processes, unless there was a panic, and that
was not for a count that is not zero. -/
def Kept : Except Panic (State P) → Prop
  | .ok t => Held t.lock t.proc
  | .error why => why ≠ .nonZeroExclusiveCount

def Fine (p : P) (r : Result P) : Prop := Kept (r.after p)

theorem fine_finish (held : HeldAs s p .idle) (error : ℤ) : Fine p (finish s error) := by
  rw [finish]
  split
  · exact held.rest _ _ _ _ s.woken
  · exact held

variable {sleepfail : Bool}

theorem fine_sleepAt (held : HeldAs s p (.asleep stage sleepfail)) :
    Fine p (sleepAt s p stage sleepfail) := by
  rw [sleepAt]
  split
  · exact held.rest _ _ _ _ s.woken
  · exact held.rest _ _ _ _ s.woken

/-! ## What a turn changes -/

omit [DecidableEq P] in
theorem Lock.Ok.lockholder_eq_none (ok : l.Ok) (free : l.haveExcl = false) :
    l.lockholder = none := by
  simpa [free] using ok.have_iff

omit [DecidableEq P] in
theorem Lock.Ok.unshared (ok : l.Ok) (has : l.lockholder = some p) : l.sharecount = 0 :=
  ok.alone (ok.have_iff.mpr (by simp [has]))

omit [DecidableEq P] in
theorem Lock.Ok.exclusivecount_eq_zero (ok : l.Ok) (free : l.haveExcl = false) :
    l.exclusivecount = 0 := by
  have := mt ok.pos_iff.mp (not_not.mpr (ok.lockholder_eq_none free))
  have := ok.nonneg
  omega

/-- A process has its part of what the lock counts. -/
theorem HeldAs.le_total (held : HeldAs s p pc) {f : Proc → ℕ} (zero : f {} = 0) :
    f { s.proc p with pc := pc } ≤ tally f (Function.update s.proc p { s.proc p with pc := pc }) := by
  simpa using le_tally held.mostly zero p

theorem HeldAs.shares_le (held : HeldAs s p pc) : ((s.proc p).shares : ℤ) ≤ s.lock.sharecount := by
  rw [← Held.shares held]
  exact Int.ofNat_le.mpr (held.le_total (f := Proc.shares) rfl)

/-- A process has set the flag that says that one is at its stage. -/
theorem HeldAs.flag_eq (held : HeldAs s p (.asleep stage sleepfail)) {b : Bool}
    (total : tally (fun x : Proc => x.pc.isAt stage)
      (Function.update s.proc p { s.proc p with pc := .asleep stage sleepfail }) = b.toNat) :
    b = true := by
  have le := total ▸ held.le_total rfl
  by_contra unset
  rw [Bool.eq_false_of_not_eq_true unset] at le
  simp [Pc.isAt] at le

/-- A process that waits for its upgrade has `LK_WANT_UPGRADE`. -/
theorem HeldAs.wantUpgrade_eq (held : HeldAs s p (.asleep .upgrade sleepfail)) :
    s.lock.wantUpgrade = true :=
  held.flag_eq held.upgrade

/-- A process at the second stage of an exclusive request has `LK_WANT_EXCL`. -/
theorem HeldAs.wantExcl_eq (held : HeldAs s p (.asleep .excl2 sleepfail)) :
    s.lock.wantExcl = true :=
  held.flag_eq held.excl2

/-- The wants of `p` follow where it is. -/
theorem HeldAs.wants (held : HeldAs s p pc) {u e : Bool}
    (upgrade : u.toNat + pc.isAt .upgrade = s.lock.wantUpgrade.toNat + pc'.isAt .upgrade)
    (excl2 : e.toNat + pc.isAt .excl2 = s.lock.wantExcl.toNat + pc'.isAt .excl2)
    (free : s.lock.haveExcl = true → u = false) :
    HeldAs { s with lock := { s.lock with wantUpgrade := u, wantExcl := e } } p pc' := by
  exact held.moveLock { held.ok with no_upgrade := free } upgrade excl2 rfl fun _ => rfl

attribute [local simp] Lock.excls State.setProc

section

variable (held : HeldAs s p .idle)

include held

/-- A process gets the lock exclusively, which nobody has so and nobody shares. -/
theorem HeldAs.grant (free : s.lock.haveExcl = false) (unshared : s.lock.sharecount = 0)
    (unwanted : s.lock.wantUpgrade = false) : HeldAs ({ s with lock := { s.lock with
      haveExcl := true
      lockholder := some p
      exclusivecount := 1 } }.setProc p { s.proc p with excls := 1 }) p .idle := by
  have nobody := held.ok.lockholder_eq_none free
  refine held.move ⟨by simp, by simp, by simp, fun _ => unshared, fun _ => unwanted,
    held.ok.share_small, by simp⟩ rfl rfl rfl ?_ ?_
  · intro q hq
    simp [nobody, hq.symm]
  · simp

section

variable (has : s.lock.lockholder = some p)

include has

/-- Its exclusive grants become shared, and `k` more. -/
theorem HeldAs.downgrade {k : ℕ} (small : k ≤ 1) : HeldAs ({ s with lock := { s.lock with
      sharecount := k + s.lock.exclusivecount
      exclusivecount := 0
      haveExcl := false
      lockholder := none } }.setProc p
        { s.proc p with shares := (s.proc p).shares + k + (s.proc p).excls, excls := 0 })
      p .idle := by
  have unshared := held.ok.unshared has
  have excl_small := held.ok.excl_small
  have excls := held.own_excls
  rw [Lock.excls, if_pos has] at excls
  refine held.move ⟨by simp, by simp, by simp, by simp, by simp, ?_, by simp⟩ rfl rfl ?_ ?_ ?_
  · show (k : ℤ) + s.lock.exclusivecount < 2 ^ 31
    omega
  · show (k : ℤ) + s.lock.exclusivecount + _ = _ + (((s.proc p).shares + k + (s.proc p).excls : ℕ) : ℤ)
    omega
  · intro q hq
    simp [has, hq.symm]
  · simp

/-- It takes the lock again, or gives up one of several grants. -/
theorem HeldAs.recount {n : ℕ} (pos : 0 < n) (small : n < 2 ^ 15) :
    HeldAs ({ s with lock := { s.lock with exclusivecount := n } }.setProc p
      { s.proc p with excls := n }) p .idle := by
  refine held.move
    { held.ok with pos_iff := by simp [has, pos], nonneg := by simp, excl_small := ?_ } rfl rfl rfl
    ?_ ?_
  · show (n : ℤ) < 2 ^ 15
    omega
  · intro q hq
    simp [has, hq.symm]
  · simp [has]

/-- It gives up its last exclusive grant. -/
theorem HeldAs.release : HeldAs ({ s with lock := { s.lock with
      exclusivecount := 0
      haveExcl := false
      lockholder := none } }.setProc p { s.proc p with excls := 0 }) p .idle := by
  refine held.move ⟨by simp, by simp, by simp, by simp, by simp, held.ok.share_small, by simp⟩
    rfl rfl rfl ?_ ?_
  · intro q hq
    simp [has, hq.symm]
  · simp

end

end

section

variable (held : HeldAs s p pc)

include held

/-- It gets or gives up shared grants. -/
theorem HeldAs.reshare {k : ℤ} {n : ℕ} (small : int k < 2 ^ 31)
    (free : s.lock.haveExcl = true → int k = 0)
    (count : int k + (s.proc p).shares = s.lock.sharecount + n) :
    HeldAs ({ s with lock.sharecount := int k }.setProc p { s.proc p with shares := n }) p pc := by
  exact held.move { held.ok with alone := free, share_small := small } rfl rfl count
    (fun _ _ => rfl) held.own_excls

theorem HeldAs.share (free : s.lock.haveExcl = false)
    (room : s.lock.sharecount < 2 ^ 31 - 1) : HeldAs (share s p) p pc := by
  have shares := held.shares_le
  have count : int (s.lock.sharecount + 1) = s.lock.sharecount + 1 := int_eq (by omega) (by omega)
  exact held.reshare (by omega) (fun taken => absurd (free.symm.trans taken) nofun)
    (by push_cast; omega)

/-- One share less can be counted. -/
theorem HeldAs.int_unshare (has : 0 < (s.proc p).shares) :
    int (s.lock.sharecount - 1) = s.lock.sharecount - 1 := by
  have shares := held.shares_le
  have small := held.ok.share_small
  exact int_eq (by omega) (by omega)

/-- What a process shares nobody has exclusively. -/
theorem HeldAs.free (has : 0 < (s.proc p).shares) : s.lock.haveExcl = false := by
  have shares := held.shares_le
  by_contra taken
  have := held.ok.alone (Bool.eq_true_of_not_eq_false taken)
  omega

theorem HeldAs.unshare (has : 0 < (s.proc p).shares) : HeldAs (unshare s p) p pc := by
  have small := held.ok.share_small
  have count := held.int_unshare has
  refine held.reshare (by omega) (fun taken => ?_) (by omega)
  exact absurd ((held.free has).symm.trans taken) nofun

end

/-! ## The code -/

theorem fine_takeExclusive (held : HeldAs s p .idle) (free : s.lock.haveExcl = false)
    (unshared : s.lock.sharecount = 0) (unwanted : s.lock.wantUpgrade = false) :
    Fine p (takeExclusive s p) := by
  rw [takeExclusive, if_neg (not_not.mpr (held.ok.exclusivecount_eq_zero free))]
  exact fine_finish (held.grant free unshared unwanted) 0

/-- The second stage of an exclusive request is passed. -/
theorem fine_exclDone (held : HeldAs s p (.asleep .excl2 sleepfail))
    (unwanted : wanted s.lock .excl2 = false) (first : s.lock.haveExcl = false) :
    Fine p (exclDone s p) := by
  obtain ⟨unshared, unwanted⟩ : s.lock.sharecount = 0 ∧ s.lock.wantUpgrade = false := by
    simpa [wanted] using unwanted
  have idle : HeldAs { s with lock.wantExcl := false } p .idle :=
    held.wants rfl (by rw [held.wantExcl_eq]; rfl) held.ok.no_upgrade
  exact fine_takeExclusive idle first unshared unwanted

section

variable {stage : Stage} (held : HeldAs s p (.asleep stage sleepfail))

include held

/-- **An `ACQUIRE` has succeeded**, at the second stage of an exclusive request while
nobody has the lock exclusively. -/
theorem fine_acquired (unwanted : wanted s.lock stage = false)
    (first : stage = .excl2 → s.lock.haveExcl = false)
    (room : stage = .shared → s.lock.sharecount < 2 ^ 31 - 1) :
    Fine p (acquired s p stage sleepfail) := by
  cases stage with
  | shared =>
    obtain ⟨⟨free, -⟩, -⟩ : (s.lock.haveExcl = false ∧ _) ∧ _ := by simpa [wanted] using unwanted
    have idle : HeldAs s p .idle := held.wants rfl rfl held.ok.no_upgrade
    exact fine_finish (idle.share free (room rfl)) 0
  | upgrade =>
    have unshared : s.lock.sharecount = 0 := by simpa [wanted] using unwanted
    have free : s.lock.haveExcl = false := by
      cases taken : s.lock.haveExcl with
      | false => rfl
      | true => exact absurd (held.ok.no_upgrade taken) (by simp [held.wantUpgrade_eq])
    have idle : HeldAs { s with lock.wantUpgrade := false } p .idle :=
      held.wants (by rw [held.wantUpgrade_eq]; rfl) rfl fun _ => rfl
    exact fine_takeExclusive idle free unshared rfl
  | excl1 =>
    obtain ⟨free, notWanted⟩ : s.lock.haveExcl = false ∧ s.lock.wantExcl = false := by
      simpa [wanted] using unwanted
    have next : HeldAs { s with lock.wantExcl := true } p (.asleep .excl2 sleepfail) :=
      held.wants rfl (by rw [notWanted]; rfl) held.ok.no_upgrade
    rw [acquired]
    split
    · exact fine_sleepAt next
    · rename_i pass
      exact fine_exclDone next (by simpa using pass) free
  | excl2 => exact fine_exclDone held unwanted (first rfl)
  | drain =>
    obtain ⟨⟨⟨⟨free, -⟩, notWanted⟩, unshared⟩, -⟩ :
        (((s.lock.haveExcl = false ∧ _) ∧ s.lock.wantUpgrade = false) ∧ s.lock.sharecount = 0) ∧
          _ := by
      simpa [wanted] using unwanted
    have idle : HeldAs s p .idle := held.wants rfl rfl held.ok.no_upgrade
    exact fine_finish ((idle.grant free unshared notWanted).rest _ _ true _ s.woken) 0

/-- An `ACQUIRE` has failed. -/
theorem fine_failed (error : ℤ) : Fine p (failed s stage error) := by
  cases stage with
  | shared | excl1 => exact fine_finish (held.wants rfl rfl held.ok.no_upgrade) error
  | drain => exact held.wants rfl rfl held.ok.no_upgrade
  | upgrade =>
    exact fine_finish (held.wants (by rw [held.wantUpgrade_eq]; rfl) rfl fun _ => rfl) error
  | excl2 =>
    exact fine_finish (held.wants rfl (by rw [held.wantExcl_eq]; rfl) held.ok.no_upgrade) error

theorem fine_acquire (first : stage = .excl2 → s.lock.haveExcl = false)
    (room : stage = .shared → s.lock.sharecount < 2 ^ 31 - 1) :
    Fine p (acquire s p stage sleepfail) := by
  rw [acquire]
  split
  · exact fine_sleepAt held
  · rename_i unwanted
    exact fine_acquired held (by simpa using unwanted) first room

end

omit [DecidableEq P] in
/-- Before a sleeper goes on only `lk_waitcount` changes. -/
theorem afterSleep_eq (s : State P) (stage : Stage) :
    ∃ w, (if stage = .drain then s
      else { s with lock.waitcount := int (s.lock.waitcount - 1) }) =
        { s with lock.waitcount := w } := by
  split
  · exact ⟨_, rfl⟩
  · exact ⟨_, rfl⟩

/-- **A process wakes up**, at the second stage of an exclusive request before anybody
else got the lock exclusively. -/
theorem fine_resume {error : ℤ} (held : HeldAs s p (.asleep stage sleepfail))
    (first : stage = .excl2 → error = 0 → sleepfail = false → s.lock.haveExcl = false)
    (room : s.lock.sharecount < 2 ^ 31 - 1) : Fine p (resume s p stage sleepfail error) := by
  obtain ⟨w, hw⟩ := afterSleep_eq s stage
  have held : HeldAs { s with lock.waitcount := w } p (.asleep stage sleepfail) :=
    held.rest w _ _ _ _
  rw [resume, hw]
  split
  · exact fine_failed held error
  · rename_i zero
    split
    · exact fine_failed held ENOLCK
    · rename_i stays
      exact fine_acquire held (fun at2 => first at2 (not_not.mp zero) (by simpa using stays))
        fun _ => room

/-- One that comes later finds a count that is not zero. -/
theorem resume_late (held : HeldAs s p (.asleep .excl2 sleepfail)) (stays : sleepfail = false)
    (late : s.lock.haveExcl = true) :
    resume s p .excl2 sleepfail 0 = .panics .nonZeroExclusiveCount := by
  have taken := held.ok.pos_iff.mpr (held.ok.have_iff.mp late)
  simp only [resume, stays, acquire, wanted, held.ok.alone late, held.ok.no_upgrade late, acquired,
    exclDone, takeExclusive]
  simp [taken.ne']

omit [DecidableEq P] in
@[simp]
theorem wakeupIfWaiting_lock (s : State P) : s.wakeupIfWaiting.lock = s.lock := by
  rw [State.wakeupIfWaiting]
  split <;> rfl

theorem HeldAs.wakeupIfWaiting (held : HeldAs s p pc) : HeldAs s.wakeupIfWaiting p pc := by
  rw [State.wakeupIfWaiting]
  split
  · exact held.rest _ _ _ _ _
  · exact held

section

variable (held : HeldAs s p .idle)

include held

/-- `LK_DOWNGRADE`, by a process that has just got `k` shared grants on top. -/
theorem fine_downgrade (has : s.lock.lockholder = some p) {k : ℕ} (small : k ≤ 1) {t : State P}
    (hlock : t.lock = { s.lock with sharecount := k })
    (hproc : t.proc = Function.update s.proc p { s.proc p with shares := (s.proc p).shares + k }) :
    Fine p (downgrade t p) := by
  have next := held.downgrade has small
  have count := held.ok.pos_iff.mpr (by simp [has])
  have excl_small := held.ok.excl_small
  have sum : int (k + s.lock.exclusivecount) = k + s.lock.exclusivecount :=
    int_eq (by omega) (by omega)
  rw [downgrade, if_neg (by simp [hlock, has, count.ne'])]
  refine fine_finish (HeldAs.wakeupIfWaiting ?_) 0
  simpa [HeldAs, hlock, hproc, sum] using next

/-- A process that calls goes to an `ACQUIRE` before which nothing is to be reserved. -/
theorem HeldAs.enter (upgrade : stage ≠ .upgrade) (excl2 : stage ≠ .excl2) :
    HeldAs s p (.asleep stage sleepfail) :=
  held.wants (by simp [Pc.isAt, upgrade]) (by simp [Pc.isAt, excl2]) held.ok.no_upgrade

theorem fine_lockShared (ext : Flags) (room : s.lock.sharecount < 2 ^ 31 - 1) :
    Fine p (lockShared s p ext) := by
  rw [lockShared]
  split
  · split
    · exact fine_finish held EBUSY
    · exact fine_acquire (held.enter nofun nofun) nofun fun _ => room
  · rename_i has
    have has := not_not.mp has
    have unshared := held.ok.unshared has
    refine fine_downgrade held has le_rfl ?_ rfl
    simp [share, unshared, int_eq]

theorem fine_lockExclusive (ext : Flags)
    (room : s.lock.lockholder = some p → s.lock.exclusivecount < 2 ^ 15 - 1) :
    Fine p (lockExclusive s p ext) := by
  rw [lockExclusive]
  split
  · rename_i has
    split
    · exact nofun
    · have excls := held.own_excls
      have room := room has
      rw [Lock.excls, if_pos has] at excls
      have count : short (s.lock.exclusivecount + 1) = ((s.proc p).excls + 1 : ℕ) := by
        rw [short_eq (by omega) (by omega)]
        omega
      rw [count]
      exact fine_finish (held.recount has (Nat.succ_pos _) (by omega)) 0
  · split
    · exact fine_finish held EBUSY
    · exact fine_acquire (held.enter nofun nofun) nofun nofun

theorem fine_lockUpgrade (ext : Flags) (has : 0 < (s.proc p).shares) :
    Fine p (lockUpgrade s p ext) := by
  have held' := held.unshare has
  have free := held.free has
  rw [lockUpgrade]
  split
  · exact nofun
  · dsimp only
    split
    · exact fine_finish held' EBUSY
    · split
      · rename_i first
        refine fine_acquire ?_ nofun nofun
        exact held'.wants (by rw [first]; rfl) rfl fun taken => absurd (free.symm.trans taken) nofun
      · rename_i holder _ _
        split
        · refine fine_lockExclusive held'.wakeupIfWaiting ext fun mine => ?_
          rw [wakeupIfWaiting_lock] at mine
          exact absurd (.inl mine) holder
        · exact fine_lockExclusive held' ext fun mine => absurd (.inl mine) holder

theorem fine_lockExclupgrade (ext : Flags) (has : 0 < (s.proc p).shares) :
    Fine p (lockExclupgrade s p ext) := by
  rw [lockExclupgrade]
  split
  · exact fine_finish (held.unshare has) EBUSY
  · exact fine_lockUpgrade held ext has

theorem fine_lockRelease (has : 0 < (s.proc p).excls ∨ 0 < (s.proc p).shares) :
    Fine p (lockRelease s p) := by
  have excls := held.own_excls
  rw [lockRelease]
  split
  · split
    · exact nofun
    · rename_i holder
      have holder := not_not.mp holder
      have excl_small := held.ok.excl_small
      rw [Lock.excls, if_pos holder] at excls
      have count : short (s.lock.exclusivecount - 1) = ((s.proc p).excls - 1 : ℕ) := by
        rw [short_eq (by omega) (by omega)]
        omega
      rw [count]
      refine fine_finish (HeldAs.wakeupIfWaiting ?_) 0
      split
      · rename_i last
        have last : (s.proc p).excls - 1 = 0 := Int.ofNat_eq_zero.mp last
        simpa [last] using held.release holder
      · rename_i more
        refine held.recount holder (Nat.pos_of_ne_zero fun zero => more ?_) (by omega)
        rw [zero]
        rfl
  · refine fine_finish (HeldAs.wakeupIfWaiting ?_) 0
    split
    · refine held.unshare (has.resolve_left fun mine => ?_)
      rw [Lock.excls] at excls
      split at excls <;> omega
    · exact held

theorem fine_lockDrain (ext : Flags) : Fine p (lockDrain s p ext) := by
  rw [lockDrain]
  split
  · exact nofun
  · split
    · exact fine_finish held EBUSY
    · exact fine_acquire (held.enter nofun nofun) nofun nofun

end

/-! ## Turns -/

/-- The counts have room for what a turn may add. -/
def Room : Except Panic (State P) → Label P → Prop
  | .ok s, .call _ .shared _ => s.lock.sharecount < 2 ^ 31 - 1
  | .ok s, .call p .exclusive _ =>
    s.lock.lockholder = some p → s.lock.exclusivecount < 2 ^ 15 - 1
  | .ok s, .wake _ _ => s.lock.sharecount < 2 ^ 31 - 1
  | _, _ => True

instance (s : Except Panic (State P)) (a : Label P) : Decidable (Room s a) := by
  unfold Room
  split <;> infer_instance

/-- A process that goes on at the second stage of an exclusive request does so before
anybody else has got the lock exclusively. -/
def InTime : Except Panic (State P) → Label P → Prop
  | .ok s, .wake p error =>
    (s.proc p).pc = .asleep .excl2 false → error = 0 → s.lock.haveExcl = false
  | _, _ => True

theorem fine_request (held : HeldAs s p .idle) {req : Req} {ext : Flags}
    (allowed : Allowed (s.proc p) ext req) (flags : Flags)
    (room : Room (.ok s) (.call p req flags)) : Fine p (request s p req ext) := by
  cases req with
  | shared => exact fine_lockShared held ext room
  | exclusive => exact fine_lockExclusive held ext room
  | upgrade => exact fine_lockUpgrade held ext allowed
  | exclupgrade => exact fine_lockExclupgrade held ext allowed
  | downgrade =>
    rw [request]
    by_cases has : s.lock.lockholder = some p
    · have unshared := held.ok.unshared has
      refine fine_downgrade held has (Nat.zero_le 1) ?_ ?_
      · simp [← unshared]
      · simp
    · rw [downgrade, if_pos (.inl has)]
      rintro ⟨⟩
  | release => exact fine_lockRelease held allowed
  | drain => exact fine_lockDrain held ext

variable {diagnostic : Bool}

theorem fine_lockmgr (held : HeldAs s p .idle) {req : Req} {flags : Flags}
    (allowed : Allowed (s.proc p) (extflags flags s.lock.ext) req)
    (room : Room (.ok s) (.call p req flags)) : Fine p (lockmgr diagnostic s p req flags) := by
  rw [lockmgr]
  split
  · split
    · exact nofun
    · split
      · exact nofun
      · rename_i release
        obtain ⟨rfl, -⟩ : req = .release ∧ _ := by simpa using release
        exact fine_request (held.rest _ _ _ _ _) allowed flags trivial
  · exact fine_request held allowed flags room

theorem Held.heldAs (held : Held s.lock s.proc) (p : P) : HeldAs s p (s.proc p).pc := by
  rwa [HeldAs, update_eq_self]

/-- A process that wakes up has slept. -/
theorem step_wake {error : ℤ} {t : Except Panic (State P)}
    (h : step diagnostic (.ok s) (.wake p error) = some t) :
    ∃ stage sleepfail, (s.proc p).pc = .asleep stage sleepfail ∧
      (resume s p stage sleepfail error).after p = t := by
  rw [step] at h
  cases hpc : (s.proc p).pc with
  | idle => simp [hpc] at h
  | asleep stage sleepfail =>
    rw [hpc] at h
    obtain ⟨-, ⟨⟩⟩ := Option.ite_none_right_eq_some.mp h
    exact ⟨stage, sleepfail, rfl, rfl⟩

section

variable {a : Label P} {t : Except Panic (State P)} (held : Held s.lock s.proc)

include held

/-- **A turn that comes in time** keeps the lock and the processes in agreement. -/
theorem step_kept (room : Room (.ok s) a) (inTime : InTime (.ok s) a)
    (h : step diagnostic (.ok s) a = some t) : Kept t := by
  cases a with
  | call p req flags =>
    obtain ⟨⟨idle, allowed⟩, ⟨⟩⟩ := Option.ite_none_right_eq_some.mp h
    exact fine_lockmgr (idle ▸ held.heldAs p) allowed room
  | wake p error =>
    obtain ⟨stage, sleepfail, hpc, rfl⟩ := step_wake h
    refine fine_resume (hpc ▸ held.heldAs p) (fun at2 zero stays => ?_) room
    exact inTime (by rw [hpc, at2, stays]) zero

/-- One that comes too late. -/
theorem step_late (late : ¬ InTime (.ok s) a) (h : step diagnostic (.ok s) a = some t) :
    t = .error .nonZeroExclusiveCount := by
  cases a with
  | call p req flags => exact absurd trivial late
  | wake p error =>
    obtain ⟨hpc, rfl, taken⟩ : (s.proc p).pc = .asleep .excl2 false ∧ error = 0 ∧
        s.lock.haveExcl = true := by
      simpa [InTime] using late
    rw [step, hpc] at h
    obtain ⟨-, ⟨⟩⟩ := Option.ite_none_right_eq_some.mp h
    rw [resume_late (hpc ▸ held.heldAs p) rfl taken]
    rfl

end

theorem held_lockinit (ext : Flags) :
    Held (lockinit ext : State P).lock (lockinit ext : State P).proc where
  have_iff := by simp [lockinit]
  pos_iff := by simp [lockinit]
  nonneg := le_rfl
  alone := fun _ => rfl
  no_upgrade := fun _ => rfl
  share_small := by simp [lockinit]
  excl_small := by simp [lockinit]
  mostly := mostly_const
  shares := Int.ofNat_eq_zero.mpr (tally_const rfl)
  upgrade := tally_const rfl
  excl2 := tally_const rfl
  excls := fun q => by simp [lockinit]

/-! ## Mutual exclusion -/

/-- What the lock says agrees, and a process that has the lock exclusively has it
alone. -/
structure Exclusive (s : State P) : Prop where
  have_iff : s.lock.haveExcl = true ↔ 0 < s.lock.exclusivecount
  holder_iff : 0 < s.lock.exclusivecount ↔ s.lock.lockholder ≠ none
  unshared : 0 < s.lock.exclusivecount → s.lock.sharecount = 0
  alone : ∀ p q, p ≠ q → 0 < (s.proc p).excls → (s.proc q).excls = 0 ∧ (s.proc q).shares = 0

theorem Held.exclusive (held : Held s.lock s.proc) : Exclusive s where
  have_iff := held.have_iff.trans held.pos_iff.symm
  holder_iff := held.pos_iff
  unshared := fun pos => held.alone (held.have_iff.mpr (held.pos_iff.mp pos))
  alone := by
    intro p q differ has
    have hp := held.excls p
    have hq := held.excls q
    have holder : s.lock.lockholder = some p := by
      by_contra other
      rw [Lock.excls, if_neg other] at hp
      omega
    rw [Lock.excls, if_neg (by rw [holder]; simpa using differ)] at hq
    have unshared := held.toOk.unshared holder
    have shares := (held.heldAs q).shares_le
    omega

/-- **The lock excludes, and the panic is reached only by a turn that comes too late.**
Along every schedule where the counts have room, a state that is reached is exclusive,
and the panic for a count that is not zero is reached exactly if some process goes on at
the second stage of an exclusive request when another has got the lock exclusively. -/
theorem exclusive_unless_late (diagnostic : Bool) (ext : Flags) (ls : List (Label P))
    (t : Except Panic (State P)) (room : Along (step diagnostic) Room (.ok (lockinit ext)) ls)
    (h : run (step diagnostic) (.ok (lockinit ext)) ls = some t) :
    (∀ s, t = .ok s → Exclusive s) ∧
      (t = .error .nonZeroExclusiveCount ↔
        ¬ Along (step diagnostic) InTime (.ok (lockinit ext)) ls) := by
  have keeps : ∀ (s : Except Panic (State P)) a t, Kept s → Room s a → InTime s a →
      step diagnostic s a = some t → Kept t ∧ t ≠ .error .nonZeroExclusiveCount := by
    intro s a t kept room inTime ht
    cases s with
    | error why => cases ht
    | ok s =>
      have next := step_kept kept room inTime ht
      refine ⟨next, ?_⟩
      rintro rfl
      exact next rfl
  have breaks : ∀ (s : Except Panic (State P)) a t, Kept s → Room s a → ¬ InTime s a →
      step diagnostic s a = some t → t = .error .nonZeroExclusiveCount := by
    intro s a t kept _ late ht
    cases s with
    | error why => cases ht
    | ok s => exact step_late kept late ht
  have last : ∀ (s : Except Panic (State P)) a, s = .error .nonZeroExclusiveCount →
      step diagnostic s a = none := by
    rintro _ a rfl
    rfl
  have start : Kept (.ok (lockinit ext : State P)) := held_lockinit ext
  obtain ⟨iff, kept⟩ := run_wrong_iff keeps breaks last ⟨start, nofun⟩ room h
  refine ⟨fun s ok => ?_, iff⟩
  subst ok
  exact Held.exclusive (kept nofun)

/-- Three processes of which the third waits, and gets the lock when the others are
done. -/
theorem exclusive_unless_late_three :
    ∃ t : State (Fin 3), run (step true) (.ok (lockinit {}))
        [.call 0 .shared {}, .call 1 .exclusive {}, .call 2 .exclusive {}, .call 0 .release {},
          .wake 1 0, .wake 2 0, .call 1 .release {}, .wake 2 0] = some (.ok t) ∧
      t.lock.lockholder = some 2 ∧ Exclusive t :=
  ⟨_, rfl, rfl, (exclusive_unless_late true {}
    [.call 0 .shared {}, .call 1 .exclusive {}, .call 2 .exclusive {}, .call 0 .release {},
      .wake 1 0, .wake 2 0, .call 1 .release {}, .wake 2 0] _ (by decide) rfl).1 _ rfl⟩

/-- **No count is lost.**  Along every schedule where the counts have room, a lock that is not
given up by a panic agrees with what the processes hold and wait for. -/
theorem accounts_agree (diagnostic : Bool) (ext : Flags) (ls : List (Label P)) (s : State P)
    (room : Along (step diagnostic) Room (.ok (lockinit ext)) ls)
    (h : run (step diagnostic) (.ok (lockinit ext)) ls = some (.ok s)) : Held s.lock s.proc := by
  refine run_invariant (I := fun t => ∀ s, t = .ok s → Held s.lock s.proc) ?_ ?_ room h s rfl
  · rintro (why | s) a t held room ht u rfl
    · cases ht
    · by_cases inTime : InTime (.ok s) a
      · exact step_kept (held s rfl) room inTime ht
      · cases step_late (held s rfl) inTime ht
  · rintro _ ⟨⟩
    exact held_lockinit ext

/-- Two processes share the lock. -/
theorem accounts_agree_two : ∃ t : State (Fin 2), run (step true) (.ok (lockinit {}))
      [.call 0 .shared {}, .call 1 .shared {}] = some (.ok t) ∧ t.lock.sharecount = 2 ∧
    Held t.lock t.proc :=
  ⟨_, rfl, rfl, accounts_agree true {} [.call 0 .shared {}, .call 1 .shared {}] _ (by decide) rfl⟩

/-- **The panic is reached.**  Two processes share the lock, the second asks for an
upgrade and a third for the lock exclusively.  The first releases it, which wakes both;
the upgrade comes first. -/
theorem late_panics :
    run (step true) (.ok (lockinit {} : State (Fin 3)))
        [.call 0 .shared {}, .call 1 .shared {}, .call 1 .upgrade {}, .call 2 .exclusive {},
          .call 0 .release {}, .wake 1 0, .wake 2 0] =
      some (.error .nonZeroExclusiveCount) :=
  rfl

end BSDLite2.LockMgr
