import BSDLite2.Lib.Schedule

/-!
# The lock of a socket buffer (`sys/socketvar.h`, `sb_lock` in `kern/uipc_socket2.c`)

`sblock` sets `SB_LOCK`, or sleeps in `sb_lock` until it can, or fails; its callers
take the value 0 to mean that they have the lock.  The macro is a comma expression:

`((flags & SB_LOCK ? (wf == M_WAITOK ? sb_lock(sb) : EWOULDBLOCK) : (flags |= SB_LOCK)), 0)`

The conditional binds tighter than the comma, so the macro evaluates to 0 whatever
happened.

Any number of processes take turns at `sblock` and `sbunlock`.  A turn ends where the
process returns or sleeps; the kernel does not switch processes elsewhere.

* `step` — one turn;
* `exclusive_and_sound` — if no process is refused the lock, at most one has it and
  every value of `sblock` is right;
* `two_inside` — a process that is refused goes on as if it had the lock.
-/

namespace BSDLite2.SbLock

open Schedule Function Option

/-! ## The code -/

def SB_LOCK : BitVec 16 := 0x01

def SB_WANT : BitVec 16 := 0x02

def EWOULDBLOCK : ℤ := 35

/-- The argument `wf` of `sblock`. -/
inductive Wf where
  | waitok
  | nowait
  deriving DecidableEq, Repr

/-- How a piece of code ends: it returns a value, or it sleeps. -/
inductive Outcome where
  | returns (value : ℤ)
  | sleeps
  deriving DecidableEq, Repr

/-- The test of the loop of `sb_lock`, and what follows it. -/
def sbLockTest (flags : BitVec 16) : BitVec 16 × Outcome :=
  if flags &&& SB_LOCK ≠ 0 then (flags ||| SB_WANT, .sleeps) else (flags ||| SB_LOCK, .returns 0)

/-- `sb_lock` after `tsleep` has returned `error`. -/
def sbLockResume (flags : BitVec 16) (error : ℤ) : BitVec 16 × Outcome :=
  if error ≠ 0 then (flags, .returns error) else sbLockTest flags

/-- The conditional expression in `sblock`.  Its last operand is the value of the
assignment. -/
def sblockCond (wf : Wf) (flags : BitVec 16) : BitVec 16 × Outcome :=
  if flags &&& SB_LOCK ≠ 0 then
    if wf = .waitok then sbLockTest flags else (flags, .returns EWOULDBLOCK)
  else (flags ||| SB_LOCK, .returns (flags ||| SB_LOCK).toInt)

/-- The value of the comma expression: that of its right operand. -/
def sblockValue (_cond : ℤ) : ℤ := 0

/-- `sbunlock` -/
def sbunlock (flags : BitVec 16) : BitVec 16 :=
  let flags := flags &&& ~~~SB_LOCK
  if flags &&& SB_WANT ≠ 0 then flags &&& ~~~SB_WANT else flags

/-! ## Processes -/

/-- Where a process is. -/
inductive Pc where
  | outside
  /-- in `tsleep`, called from `sb_lock` -/
  | asleep
  /-- between an `sblock` that evaluated to 0 and its `sbunlock` -/
  | inside
  deriving DecidableEq, Repr

/-- The flags of the buffer, and where each process is. -/
structure State (P : Type) where
  flags : BitVec 16
  pc : P → Pc

/-- The turns.  `tsleep` may return 0 or an error at any time. -/
inductive Label (P : Type) where
  | call (p : P) (wf : Wf)
  | wake (p : P) (error : ℤ)
  | unlock (p : P)
  deriving DecidableEq

variable {P : Type} [DecidableEq P]

/-- What a turn inside `sblock` does, if it is one. -/
def outcome (s : State P) : Label P → Option (BitVec 16 × Outcome)
  | .call p wf => if s.pc p = .outside then some (sblockCond wf s.flags) else none
  | .wake p error => if s.pc p = .asleep then some (sbLockResume s.flags error) else none
  | .unlock _ => none

/-- The process whose turn it is. -/
def Label.proc : Label P → P
  | .call p _ => p
  | .wake p _ => p
  | .unlock p => p

/-- Where a process is after a turn inside `sblock`. -/
def Outcome.pc : Outcome → Pc
  | .sleeps => .asleep
  | .returns value => if sblockValue value = 0 then .inside else .outside

/-- One turn. -/
def step (s : State P) (l : Label P) : Option (State P) :=
  match l with
  | .unlock p =>
    if s.pc p = .inside then some ⟨sbunlock s.flags, update s.pc p .outside⟩ else none
  | l => (outcome s l).map fun r => ⟨r.1, update s.pc l.proc r.2.pc⟩

/-- At most one process is inside. -/
def Exclusive (s : State P) : Prop := ∀ p q, s.pc p = .inside → s.pc q = .inside → p = q

/-- The turn sets `SB_LOCK`. -/
def Sets (s : State P) (l : Label P) : Prop :=
  ∃ r, outcome s l = some r ∧ s.flags &&& SB_LOCK = 0 ∧ r.1 &&& SB_LOCK ≠ 0

/-- An `sblock` that did not set `SB_LOCK` does not evaluate to 0. -/
def Sound (s : State P) (l : Label P) : Prop :=
  ∀ flags value, outcome s l = some (flags, .returns value) → ¬ Sets s l → sblockValue value ≠ 0

/-- The lock is not refused: it is free, or the process waits for it, and no sleep
fails. -/
def Meets (s : State P) : Label P → Prop
  | .call _ wf => s.flags &&& SB_LOCK = 0 ∨ wf = .waitok
  | .wake _ error => error = 0
  | .unlock _ => True

instance (s : State P) (l : Label P) : Decidable (Meets s l) :=
  match l with
  | .call _ wf => inferInstanceAs (Decidable (s.flags &&& SB_LOCK = 0 ∨ wf = .waitok))
  | .wake _ error => inferInstanceAs (Decidable (error = 0))
  | .unlock _ => inferInstanceAs (Decidable True)

/-- No process has called `sblock` yet. -/
def start (flags : BitVec 16) : State P := ⟨flags, fun _ => .outside⟩

/-! ## One turn -/

variable (flags : BitVec 16)

theorem lock_or_lock : (flags ||| SB_LOCK) &&& SB_LOCK ≠ 0 := by
  have same : (flags ||| SB_LOCK) &&& SB_LOCK = SB_LOCK := by
    grind
  rw [same]
  decide

theorem lock_or_want : (flags ||| SB_WANT) &&& SB_LOCK = flags &&& SB_LOCK := by
  simp [SB_LOCK, SB_WANT]
  grind

theorem sbLockTest_cases :
    (flags &&& SB_LOCK = 0 ∧ sbLockTest flags = (flags ||| SB_LOCK, .returns 0)) ∨
      (flags &&& SB_LOCK ≠ 0 ∧ sbLockTest flags = (flags ||| SB_WANT, .sleeps)) := by
  by_cases free : flags &&& SB_LOCK = 0
  · exact .inl ⟨free, by rw [sbLockTest, if_neg (not_not.mpr free)]⟩
  · exact .inr ⟨free, by rw [sbLockTest, if_pos free]⟩

omit [DecidableEq P] in
/-- What a turn inside `sblock` can do: the lock is free and the process gets it, or it
is not and the process waits for it, or the process is refused. -/
theorem outcome_cases {s : State P} {l : Label P} {r : BitVec 16 × Outcome}
    (h : outcome s l = some r) :
    (Meets s l ∧ s.flags &&& SB_LOCK = 0 ∧ ∃ value, r = (s.flags ||| SB_LOCK, .returns value)) ∨
      (Meets s l ∧ s.flags &&& SB_LOCK ≠ 0 ∧ r = (s.flags ||| SB_WANT, .sleeps)) ∨
      (¬ Meets s l ∧ ∃ value, r = (s.flags, .returns value)) := by
  cases l with
  | unlock p => cases h
  | wake p error =>
    obtain ⟨-, ⟨⟩⟩ := ite_none_right_eq_some.mp h
    by_cases zero : error = 0
    · rw [sbLockResume, if_neg (not_not.mpr zero)]
      rcases sbLockTest_cases s.flags with ⟨free, eq⟩ | ⟨held, eq⟩
      · exact .inl ⟨zero, free, 0, eq⟩
      · exact .inr (.inl ⟨zero, held, eq⟩)
    · rw [sbLockResume, if_pos zero]
      exact .inr (.inr ⟨zero, error, rfl⟩)
  | call p wf =>
    obtain ⟨-, ⟨⟩⟩ := ite_none_right_eq_some.mp h
    by_cases free : s.flags &&& SB_LOCK = 0
    · rw [sblockCond, if_neg (not_not.mpr free)]
      exact .inl ⟨.inl free, free, _, rfl⟩
    · rw [sblockCond, if_pos free]
      cases wf with
      | waitok =>
        rcases sbLockTest_cases s.flags with ⟨free', -⟩ | ⟨held, eq⟩
        · exact absurd free' free
        · exact .inr (.inl ⟨.inr rfl, held, eq⟩)
      | nowait => exact .inr (.inr ⟨fun meets => meets.elim free nofun, _, rfl⟩)

/-- **The value of `sblock`** is right exactly if the process is not refused. -/
theorem sound_iff {s t : State P} {l : Label P} (h : step s l = some t) :
    Sound s l ↔ Meets s l := by
  cases l with
  | unlock p => exact ⟨fun _ => trivial, fun _ _ _ none => by cases none⟩
  | call p wf | wake p error =>
    obtain ⟨r, hr, -⟩ := map_eq_some_iff.mp h
    rcases outcome_cases hr with ⟨meets, free, value, rfl⟩ | ⟨meets, held, rfl⟩ |
      ⟨refused, value, rfl⟩
    · refine ⟨fun _ => meets, fun _ flags value' same none => ?_⟩
      exact absurd ⟨_, hr, free, lock_or_lock _⟩ none
    · refine ⟨fun _ => meets, fun _ flags value' same => ?_⟩
      rw [hr] at same
      cases same
    · refine ⟨fun sound => ?_, fun meets => absurd meets refused⟩
      refine absurd rfl (sound _ _ hr ?_)
      rintro ⟨r', hr', free, set⟩
      rw [hr] at hr'
      cases hr'
      exact set free

/-! ## Whole schedules -/

/-- If `SB_LOCK` is clear nobody is inside, and never more than one process. -/
structure Inv (s : State P) : Prop where
  exclusive : Exclusive s
  free : s.flags &&& SB_LOCK = 0 → ∀ p, s.pc p ≠ .inside

omit [DecidableEq P] in
theorem inv_start {flags : BitVec 16} : Inv (start flags : State P) :=
  ⟨nofun, nofun⟩

theorem Inv.step {s t : State P} {l : Label P} (inv : Inv s) (meets : Meets s l)
    (h : step s l = some t) : Inv t := by
  obtain ⟨exclusive, free⟩ := inv
  cases l with
  | unlock p =>
    obtain ⟨inside, ⟨⟩⟩ := ite_none_right_eq_some.mp h
    -- the process inside was `p`
    have nobody : ∀ q, update s.pc p .outside q ≠ .inside := by
      intro q hq
      by_cases same : q = p
      · rw [same, update_self] at hq
        cases hq
      · rw [update_of_ne same] at hq
        exact same (exclusive q p hq inside)
    exact ⟨fun q _ hq => absurd hq (nobody q), fun _ => nobody⟩
  | call p wf | wake p error =>
    obtain ⟨r, hr, rfl⟩ := map_eq_some_iff.mp h
    rcases outcome_cases hr with ⟨-, clear, value, rfl⟩ | ⟨-, held, rfl⟩ | ⟨refused, -⟩
    · -- `p` is the only process inside
      have only : ∀ q, update s.pc p .inside q = .inside → q = p := by
        intro q hq
        by_contra differ
        rw [update_of_ne differ] at hq
        exact free clear q hq
      exact ⟨fun q q' hq hq' => (only q hq).trans (only q' hq').symm,
        fun none => absurd none (lock_or_lock _)⟩
    · have still : ∀ q, update s.pc p .asleep q = .inside → s.pc q = .inside := by
        intro q hq
        by_cases same : q = p
        · rw [same, update_self] at hq
          cases hq
        · rwa [update_of_ne same] at hq
      exact ⟨fun q q' hq hq' => exclusive q q' (still q hq) (still q' hq'),
        fun none => absurd ((lock_or_want _).symm.trans none) held⟩
    · exact absurd meets refused

/-- **Mutual exclusion, where no process is refused.**  A process is refused if it asks
for a lock that is not free without waiting, or if its sleep fails.  Along a schedule
where none is, at most one process is inside, and every value of `sblock` is right; and
the values are all right only along such schedules. -/
theorem exclusive_and_sound (flags : BitVec 16)
    (ls : List (Label P)) (t : State P) (h : run step (start flags) ls = some t) :
    (Along step Meets (start flags) ls → Exclusive t ∧ Along step Sound (start flags) ls) ∧
      (Along step Sound (start flags) ls → Along step Meets (start flags) ls) := by
  have iff : Along step Sound (start flags) ls ↔ Along step Meets (start flags) ls :=
    along_congr fun s a u hu => sound_iff hu
  refine ⟨fun meets => ⟨?_, iff.mpr meets⟩, iff.mp⟩
  exact (run_invariant (fun s a u inv hm hu => inv.step hm hu) inv_start meets h).exclusive

/-- Two processes, where the second waits for the first. -/
theorem exclusive_and_sound_two :
    ∃ t : State Bool, run step (start 0x08)
        [.call true .nowait, .call false .waitok, .unlock true, .wake false 0] = some t ∧
      t.pc false = .inside ∧ Exclusive t :=
  ⟨_, rfl, rfl, ((exclusive_and_sound 0x08
    [.call true .nowait, .call false .waitok, .unlock true, .wake false 0] _ rfl).1
    (by decide)).1⟩

/-- **The lock is given twice.**  A process that asks without waiting while another has
the lock is told that it has it too, and so is one whose sleep is interrupted. -/
theorem two_inside :
    (∃ t : State Bool, run step (start 0) [.call true .waitok, .call false .nowait] = some t ∧
        t.pc true = .inside ∧ t.pc false = .inside) ∧
      ∃ t : State Bool, run step (start 0)
          [.call true .waitok, .call false .waitok, .wake false 4] = some t ∧
        t.pc true = .inside ∧ t.pc false = .inside :=
  ⟨⟨_, rfl, rfl, rfl⟩, ⟨_, rfl, rfl, rfl⟩⟩

end BSDLite2.SbLock
