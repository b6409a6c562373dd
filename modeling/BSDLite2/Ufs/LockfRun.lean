import BSDLite2.Lib.Schedule
import BSDLite2.Ufs.LockfSpec

/-!
# Processes that lock the bytes of a file

Processes ask for locks of one inode with `fcntl`, for any range, and with `flock`, for
the whole file.  A turn of a process goes on until it sleeps: in `tsleep`, while a record
is in its way, or in the allocation of `lf_split`.  A lock that is asked for with `fcntl`
belongs to the process, one of `flock` to the open file, which processes may share.

`lf_setlock` looks for records in its way before the allocation, and not again behind it.

* `good_step` — nothing panics, and the record that is split is in the list after the
  allocation as it was before: the list stays in order (`always_lawful`);
* `exclusive_iff_undisturbed` — the locks exclude each other exactly as long as no record
  has come in the way of a process during its allocation.
-/

namespace BSDLite2.Ufs

open Ranges Schedule Function List

variable {P F : Type}

/-! ## Exclusion -/

/-- Locks of different owners overlap only if both are for reading. -/
def Exclusive (list : List (Lockf P F)) : Prop :=
  ∀ a ∈ list, ∀ b ∈ list, a.id ≠ b.id → a.type = .wrlck ∨ b.type = .wrlck →
    ∀ x, IsOff x → ¬ (a.Covers x ∧ b.Covers x)

theorem exclusive_nil : Exclusive ([] : List (Lockf P F)) :=
  nofun

section

variable {lock lf : Lockf P F} {list list' : List (Lockf P F)} {x : ℤ}

theorem not_before_of_covers (covers : lf.Covers x) (hcovers : lock.Covers x) :
    ¬ Before lf lock ∧ ¬ Before lock lf := by
  unfold Lockf.Covers InRange Before at *
  omega

theorem Blocks.common (blocks : Blocks lf lock) (hlf : lf.Ok) (hlock : lock.Ok) :
    ∃ x, IsOff x ∧ lf.Covers x ∧ lock.Covers x := by
  obtain ⟨lf0, lf1, lfr⟩ := hlf
  obtain ⟨lock0, lock1, lockr⟩ := hlock
  have overlap := blocks.overlap
  unfold Before at overlap
  unfold IsOff Lockf.Covers InRange
  rcases le_total lf.start lock.start with le | le
  · exact ⟨lock.start, by omega, by omega, by omega⟩
  · exact ⟨lf.start, by omega, by omega, by omega⟩

theorem Alike.exclusive (alike : Alike list list') (excl : Exclusive list) : Exclusive list' :=
  alike.forall_mem (fun _ => Iff.rfl) fun a ha =>
    alike.forall_mem (fun _ => Iff.rfl) fun b hb => excl a ha b hb

end

theorem alike_block (list : List (Lockf P F)) (block : ℕ) (p : P) :
    Alike list (list.map fun lf =>
      if lf.addr = block then { lf with blkhd := lf.blkhd ++ [p] } else lf) := by
  refine alike_map (fun lf => ?_) list
  split_ifs <;> rfl

/-! ## The processes -/

/-- A range of bytes, the last of which may be the end of all files. -/
structure Range where
  start : ℤ
  stop : ℤ
  nonneg : 0 ≤ start
  small : start < 2 ^ 63
  range : stop = -1 ∨ start ≤ stop ∧ stop < 2 ^ 63

/-- What a process asks for. -/
inductive Request (F : Type) where
  | fcntl (range : Range) (wait : Bool)
  | flock (file : F) (wait : Bool)

/-- The record that is made of the request. -/
def Request.lock (p : P) (type : LockType) (addr : ℕ) : Request F → Lockf P F
  | .fcntl range wait =>
    { addr := addr, posix := true, flock := false, wait := wait, type := type,
      start := range.start, stop := range.stop, id := .proc p }
  | .flock file wait =>
    { addr := addr, posix := false, flock := true, wait := wait, type := type,
      start := 0, stop := -1, id := .file file }

/-- Where a process is. -/
inductive Pc (P F : Type) where
  | idle
  /-- in the `tsleep` of `lf_setlock` -/
  | asleep (lock : Lockf P F)
  /-- in the `MALLOC` of `lf_split` -/
  | splitting (op : Op) (lock : Lockf P F) (overlap : ℕ)
  deriving DecidableEq

/-- The inode and the processes.  `brk` is above all addresses in use. -/
structure State (P F : Type) where
  /-- `i_lockf` -/
  list : List (Lockf P F) := []
  pc : P → Pc P F := fun _ => .idle
  /-- sleeps and has been sent a wakeup -/
  woken : P → Bool := fun _ => false
  brk : ℕ := 0
  /-- the system has panicked -/
  dead : Bool := false

variable [DecidableEq P] [DecidableEq F]

def State.wake (s : State P F) (ps : List P) : State P F :=
  { s with woken := fun q => s.woken q || decide (q ∈ ps) }

/-- The call returns. -/
def State.idle (s : State P F) (p : P) : State P F := { s with pc := update s.pc p .idle }

/-- A change of the list comes to its end, or to the allocation. -/
def State.finish (s : State P F) (p : P) (op : Op) (lock : Lockf P F) : Outcome P F → State P F
  | .done list woken => ({ s with list := list }.wake woken).idle p
  | .splits list woken overlap =>
    { s with list := list, pc := update s.pc p (.splitting op lock overlap) }.wake woken
  | .blocked _ | .panics | .corrupts => { s with dead := true }

/-- The process is put on `lf_blkhd` of the record in its way, and sleeps. -/
def State.block (s : State P F) (p : P) (lock : Lockf P F) (block : ℕ) : State P F :=
  { s with
    list := s.list.map fun lf =>
      if lf.addr = block then { lf with blkhd := lf.blkhd ++ [p] } else lf
    pc := update s.pc p (.asleep lock)
    woken := update s.woken p false }

/-- The process takes itself off the list it is on. -/
def State.unblock (s : State P F) (p : P) : State P F :=
  { s with list := s.list.map fun lf => { lf with blkhd := lf.blkhd.filter fun q => q ≠ p } }

/-- `lf_setlock`.  What the search for a deadlock says is not determined by the inode. -/
def State.setlock (s : State P F) (p : P) (lock : Lockf P F) (deadlk : Bool) : State P F :=
  match lfSetlock lock s.list with
  | .blocked block =>
    -- EAGAIN, EDEADLK
    if lock.wait = false ∨ lock.posix ∧ block.posix ∧ deadlk then s.idle p
    else if lock.flock ∧ lock.type = .wrlck then
      match lfClearlock lock s.list with
      | .done list woken => ({ s with list := list }.wake woken).block p lock block.addr
      -- the range of `flock` has no end, so that nothing is left behind it
      | _ => { s with dead := true }
    else s.block p lock block.addr
  | r => s.finish p .set lock r

/-- The turns. -/
inductive Label (P F : Type) where
  /-- a process calls `lf_setlock` or `lf_clearlock` -/
  | call (p : P) (op : Op) (type : LockType) (request : Request F) (deadlk : Bool)
  /-- `tsleep` returns, with an error or not -/
  | wake (p : P) (error deadlk : Bool)
  /-- the allocation returns -/
  | resume (p : P)

def step (s : State P F) : Label P F → Option (State P F)
  | .call p op type request deadlk =>
    if s.dead = false ∧ s.pc p = .idle then
      let lock := request.lock p type s.brk
      let s := { s with brk := s.brk + 1 }
      match op with
      | .set => some (s.setlock p lock deadlk)
      | .clear => some (s.finish p .clear lock (lfClearlock lock s.list))
    else none
  | .wake p error deadlk =>
    match s.pc p with
    | .asleep lock =>
      if s.dead = false ∧ (error = true ∨ s.woken p = true) then
        if error then some ((s.unblock p).idle p) else some (s.setlock p lock deadlk)
      else none
    | _ => none
  | .resume p =>
    match s.pc p with
    | .splitting op lock overlap =>
      if s.dead = false then
        match splitResume op lock overlap s.brk s.list with
        | none => some { s with dead := true }
        | some (list, woken) =>
          some (({ s with list := list, brk := s.brk + 1 }.wake woken).idle p)
      else none
    | _ => none

section

variable {lock lf : Lockf P F} {list list' : List (Lockf P F)} {o : Owner P F}
  {x : ℤ}

theorem Lawful.lockAt_of_mem (lawful : Lawful list) (hlf : lf ∈ list) (hx : IsOff x)
    (covers : lf.Covers x) : lockAt lf.id x list = some lf.type :=
  look_of_mem ((lawful.sorted lf.id).imp fun h => h.2 x hx) (mem_own _ |>.mpr ⟨hlf, rfl⟩) covers

theorem mem_of_lockAt {t : LockType} (h : lockAt o x list = some t) :
    ∃ lf ∈ list, lf.id = o ∧ lf.Covers x ∧ lf.type = t := by
  obtain ⟨lf, hlf, covers, htype⟩ := exists_of_look h
  obtain ⟨hmem, mine⟩ := mem_own _ |>.mp hlf
  exact ⟨lf, hmem, mine, covers, htype⟩

/-- Exclusion as a property of the maps. -/
theorem exclusive_iff (lawful : Lawful list) :
    Exclusive list ↔ ∀ o o' x, o ≠ o' → IsOff x → lockAt o x list = some .wrlck →
      lockAt o' x list = none := by
  constructor
  · intro excl o o' x differ hx writes
    obtain ⟨a, ha, rfl, acovers, atype⟩ := mem_of_lockAt writes
    cases hlook : lockAt o' x list with
    | none => rfl
    | some t =>
      obtain ⟨b, hb, rfl, bcovers, -⟩ := mem_of_lockAt hlook
      exact absurd ⟨acovers, bcovers⟩ (excl a ha b hb differ (.inl atype) x hx)
  · rintro maps a ha b hb differ writes x hx ⟨acovers, bcovers⟩
    have hA := lawful.lockAt_of_mem ha hx acovers
    have hB := lawful.lockAt_of_mem hb hx bcovers
    rcases writes with atype | btype
    · rw [atype] at hA
      exact Option.some_ne_none _ (hB.symm.trans (maps _ _ x differ hx hA))
    · rw [btype] at hB
      exact Option.some_ne_none _ (hA.symm.trans (maps _ _ x differ.symm hx hB))

/-- **A change keeps exclusion** if nothing is in the way of a lock that is set. -/
theorem Exclusive.change (excl : Exclusive list) (op : Op) (lawful : Lawful list)
    (lawful' : Lawful list') (maps : MapsTo lock (op.value lock) list list')
    (free : op = .set → ∀ lf ∈ list, ¬ Blocks lf lock) : Exclusive list' := by
  rw [exclusive_iff lawful] at excl
  rw [exclusive_iff lawful']
  intro o o' x differ hx writes
  rw [maps.map o x hx] at writes
  rw [maps.map o' x hx]
  -- the request is of one of the two owners at most
  by_cases here : o = lock.id ∧ lock.Covers x
  · rw [if_pos here] at writes
    rw [if_neg fun h => differ (here.1.trans h.1.symm)]
    cases op with
    | clear => cases writes
    | set =>
      cases hlook : lockAt o' x list with
      | none => rfl
      | some t =>
        obtain ⟨b, hb, rfl, covers, -⟩ := mem_of_lockAt hlook
        refine absurd ⟨?_, not_before_of_covers covers here.2, .inl ?_⟩ (free rfl b hb)
        · exact fun h => differ (here.1.trans h.symm)
        · exact Option.some.inj writes
  · rw [if_neg here] at writes
    split_ifs with there
    · cases op with
      | clear => rfl
      | set =>
        obtain ⟨a, ha, rfl, covers, atype⟩ := mem_of_lockAt writes
        refine absurd ⟨?_, not_before_of_covers covers there.2, .inr atype⟩ (free rfl a ha)
        exact fun h => differ (h.trans there.1.symm)
    · exact excl o o' x differ hx writes

/-- **It breaks it** if something is. -/
theorem not_exclusive_of_blocks (lawful : Lawful list) (lawful' : Lawful list') (hlock : lock.Ok)
    (maps : MapsTo lock (some lock.type) list list') (hlf : lf ∈ list) (blocks : Blocks lf lock) :
    ¬ Exclusive list' := by
  rw [exclusive_iff lawful']
  intro excl
  obtain ⟨x, hx, covers, hcovers⟩ := blocks.common (lawful.ok lf hlf) hlock
  have hold := lawful.lockAt_of_mem hlf hx covers
  have theirs := maps.map lf.id x hx
  rw [if_neg fun h => blocks.other h.1, hold] at theirs
  have ours := maps.map lock.id x hx
  rw [if_pos ⟨rfl, hcovers⟩] at ours
  rcases blocks.writes with type | type
  · rw [type] at ours
    exact Option.some_ne_none _ (theirs.symm.trans (excl _ _ x blocks.other.symm hx ours))
  · rw [type] at theirs
    exact Option.some_ne_none _ (ours.symm.trans (excl _ _ x blocks.other hx theirs))

end

/-! ## The invariant -/

/-- The record of the request of a process that sleeps. -/
def Pc.request : Pc P F → Option (Lockf P F)
  | .idle => none
  | .asleep lock => some lock
  | .splitting _ lock _ => some lock

/-- A request that is not in the list yet. -/
structure Pending (s : State P F) (p : P) (lock : Lockf P F) : Prop where
  ok : lock.Ok
  /-- a process has the locks of its own, and `flock` does not ask for less than the file -/
  owner : lock.id = .proc p ∨ (∃ f, lock.id = .file f) ∧ lock.stop = -1
  whole : lock.flock = true → lock.stop = -1
  below : lock.addr < s.brk
  unlinked : lock.addr ∉ s.list.map Lockf.addr

/-- The record that is to be split is in the list, and there is room behind the request. -/
structure Splitting (list : List (Lockf P F)) (op : Op) (lock : Lockf P F) (addr : ℕ) : Prop where
  present : ∃ overlap ∈ (recordsOf lock.id).own list,
    overlap.addr = addr ∧ Inside lock overlap ∧ some overlap.type ≠ op.value lock
  room : ¬ Overflows lock (op.value lock) list

/-- Between turns. -/
structure Good (s : State P F) : Prop where
  alive : s.dead = false
  lawful : Lawful s.list
  below : ∀ lf ∈ s.list, lf.addr < s.brk
  pending : ∀ p lock, (s.pc p).request = some lock → Pending s p lock
  apart : ∀ p q a b, p ≠ q → (s.pc p).request = some a → (s.pc q).request = some b →
    a.addr ≠ b.addr
  splitting : ∀ p op lock addr, s.pc p = .splitting op lock addr → Splitting s.list op lock addr

/-- What a turn of `p` leaves to the others. -/
structure Moves (s t : State P F) (p : P) : Prop where
  alive : t.dead = false
  lawful : Lawful t.list
  grows : s.brk ≤ t.brk
  below : ∀ lf ∈ t.list, lf.addr < t.brk
  elsewhere : ∀ q, q ≠ p → t.pc q = s.pc q
  /-- `p` still waits with its request, or has put it into the list -/
  request : ∀ lock, (t.pc p).request = some lock → (s.pc p).request = some lock
  linked : ∀ a ∈ t.list.map Lockf.addr, a ∈ s.list.map Lockf.addr ∨ s.brk ≤ a ∨
    (t.pc p).request = none ∧ ∃ lock, (s.pc p).request = some lock ∧ a = lock.addr
  owners : ∀ q, q ≠ p →
    Alike ((recordsOf (.proc q)).own s.list) ((recordsOf (.proc q)).own t.list)
  splitting : ∀ op lock addr, t.pc p = .splitting op lock addr → Splitting t.list op lock addr

section

variable {s t : State P F} {p : P} {lock : Lockf P F} {list' : List (Lockf P F)}

theorem Splitting.of_alike {list : List (Lockf P F)} {op : Op} {addr : ℕ}
    (splitting : Splitting list op lock addr)
    (alike : Alike ((recordsOf lock.id).own list) ((recordsOf lock.id).own list')) :
    Splitting list' op lock addr := by
  refine ⟨alike.exists_mem (fun _ => ?_) splitting.present,
    mt alike.overflows_iff.mp splitting.room⟩
  exact and_congr_right fun _ =>
    and_congr_left fun _ => ⟨fun ⟨a, b, c, d⟩ => ⟨a, b, c, d⟩, fun ⟨a, b, c, d⟩ => ⟨a, b, c, d⟩⟩

/-- Only processes split records, and only their own. -/
theorem Good.owner_of_splitting (good : Good s) {op : Op} {addr : ℕ}
    (h : s.pc p = .splitting op lock addr) : lock.id = .proc p := by
  obtain ⟨⟨overlap, -, -, inside, -⟩, -⟩ := good.splitting p op lock addr h
  have pending := good.pending p lock (by rw [h]; rfl)
  exact pending.owner.resolve_right fun file => inside.finite file.2

/-- **Turns keep the invariant.** -/
theorem Good.moves (good : Good s) (moves : Moves s t p) : Good t := by
  have linked : ∀ q lock, (t.pc q).request = some lock → (s.pc q).request = some lock := by
    intro q lock h
    by_cases here : q = p
    · subst here
      exact moves.request lock h
    · rwa [← moves.elsewhere q here]
  refine ⟨moves.alive, moves.lawful, moves.below, fun q lock h => ?_,
    fun q r a b differ ha hb => ?_, fun q op lock addr h => ?_⟩
  · have pending := good.pending q lock (linked q lock h)
    refine ⟨pending.ok, pending.owner, pending.whole, pending.below.trans_le moves.grows,
      fun hmem => ?_⟩
    rcases moves.linked _ hmem with old | fresh | ⟨done, mine, hmine, heq⟩
    · exact pending.unlinked old
    · exact absurd pending.below (by omega)
    · by_cases here : q = p
      · subst here
        rw [done] at h
        cases h
      · exact good.apart q p lock mine here (linked q lock h) hmine heq
  · exact good.apart q r a b differ (linked q a ha) (linked r b hb)
  · by_cases here : q = p
    · subst here
      exact moves.splitting op lock addr h
    · rw [moves.elsewhere q here] at h
      refine (good.splitting q op lock addr h).of_alike ?_
      rw [good.owner_of_splitting h]
      exact moves.owners q here

/-! ## Turns -/

/-- `p` has the turn, with a request. -/
def Turn (s : State P F) (p : P) (lock : Lockf P F) : Prop :=
  Good { s with pc := update s.pc p (.asleep lock) }

theorem Turn.pending (turn : Turn s p lock) : Pending s p lock := by
  obtain ⟨ok, owner, whole, below, unlinked⟩ := Good.pending turn p lock (by simp [Pc.request])
  exact ⟨ok, owner, whole, below, unlinked⟩

theorem Good.turn (good : Good s) (h : (s.pc p).request = some lock) : Turn s p lock := by
  refine good.moves (p := p) ⟨good.alive, good.lawful, le_rfl, good.below, fun q hq => ?_, ?_,
    fun a ha => .inl ha, fun _ _ => rfl, ?_⟩
  · exact update_of_ne hq _ _
  · simpa [Pc.request] using h
  · simp

/-- A new request. -/
theorem Good.call (good : Good s) (hidle : s.pc p = .idle) (type : LockType) (request : Request F) :
    Turn { s with brk := s.brk + 1 } p (request.lock p type s.brk) := by
  have haddr : (request.lock p type s.brk).addr = s.brk := by
    cases request <;> rfl
  -- a request is the new one, or was there before
  have hrequest : ∀ q lock, (update s.pc p (.asleep (request.lock p type s.brk)) q).request =
      some lock → q = p ∧ lock = request.lock p type s.brk ∨
        q ≠ p ∧ (s.pc q).request = some lock := by
    intro q lock h
    by_cases here : q = p
    · subst here
      rw [update_self] at h
      exact .inl ⟨rfl, (Option.some.inj h).symm⟩
    · rw [update_of_ne here] at h
      exact .inr ⟨here, h⟩
  refine ⟨good.alive, good.lawful, fun lf hlf => (good.below lf hlf).trans (Nat.lt_succ_self _),
    fun q lock h => ?_, fun q r a b differ ha hb => ?_, fun q op lock addr h => ?_⟩
  · rcases hrequest q lock h with ⟨rfl, rfl⟩ | ⟨-, h⟩
    · refine ⟨?_, ?_, ?_, by rw [haddr]; exact Nat.lt_succ_self _, ?_⟩
      · cases request with
        | fcntl range wait => exact ⟨range.nonneg, range.small, range.range⟩
        | flock file wait => exact ⟨le_rfl, by norm_num [Request.lock], .inl rfl⟩
      · cases request with
        | fcntl range wait => exact .inl rfl
        | flock file wait => exact .inr ⟨⟨file, rfl⟩, rfl⟩
      · cases request with
        | fcntl range wait => exact nofun
        | flock file wait => exact fun _ => rfl
      · rw [mem_map]
        rintro ⟨lf, hlf, heq⟩
        exact absurd (good.below lf hlf) (by omega)
    · obtain ⟨ok, owner, whole, below, unlinked⟩ := good.pending q lock h
      exact ⟨ok, owner, whole, below.trans (Nat.lt_succ_self _), unlinked⟩
  · rcases hrequest q a ha with ⟨rfl, rfl⟩ | ⟨-, hqa⟩
    · rcases hrequest r b hb with ⟨rfl, rfl⟩ | ⟨-, hrb⟩
      · exact absurd rfl differ
      · have := (good.pending r b hrb).below
        omega
    · rcases hrequest r b hb with ⟨rfl, rfl⟩ | ⟨-, hrb⟩
      · have := (good.pending q a hqa).below
        omega
      · exact good.apart q r a b differ hqa hrb
  · by_cases here : q = p
    · subst here
      simp at h
    · simp only [update_of_ne here] at h
      exact good.splitting q op lock addr h

/-- The invariant holds after the turn, and exclusion if it held before. -/
def Keeps (s t : State P F) : Prop := Good t ∧ (Exclusive s.list → Exclusive t.list)

/-- A turn that changes no lock. -/
theorem Turn.alike (turn : Turn s p lock) (alike : Alike s.list list') {woken : P → Bool}
    {pc : Pc P F} (here : ∀ l, pc.request = some l → l = lock)
    (splitting : ∀ op l addr, pc = .splitting op l addr → Splitting list' op l addr) :
    Keeps s { s with list := list', pc := update s.pc p pc, woken := woken } := by
  refine ⟨Good.moves (p := p) turn ⟨turn.alive, alike.lawful turn.lawful, le_rfl,
    alike.forall_mem (fun _ => Iff.rfl) turn.below, fun q hq => ?_, fun l hl => ?_,
    fun a ha => .inl ?_, fun q _ => alike.own _, ?_⟩, alike.exclusive⟩
  · simp only [update_of_ne hq]
  · simp only [update_self] at hl
    simp [here l hl, Pc.request]
  · rwa [alike.addrs] at ha
  · simpa only [update_self] using splitting

/-- A turn that changes the locks of the owner of the request. -/
theorem Turn.change {v : Option LockType} {new : List ℕ} (turn : Turn s p lock)
    (change : Change (bytesOf lock.id lock.start lock.stop) v new s.list list')
    {woken : P → Bool} {brk : ℕ} (grows : s.brk ≤ brk) {pc : Pc P F} (nodup : new.Nodup)
    (hnew : ∀ a ∈ new, (a = lock.addr ∧ pc = .idle ∨ a = s.brk) ∧ a < brk)
    (here : pc = .idle ∨ pc = .asleep lock) :
    Good { s with list := list', pc := update s.pc p pc, woken := woken, brk := brk } ∧
      MapsTo lock v s.list list' := by
  have pending := turn.pending
  have maps := mapsTo_of_change turn.lawful change
  have linked : ∀ a ∈ list'.map Lockf.addr, a ∈ new ∨ a ∈ s.list.map Lockf.addr :=
    fun a ha => mem_append.mp (change.names.subset ha)
  have disjoint : (new ++ s.list.map Lockf.addr).Nodup := by
    refine nodup_append.mpr ⟨nodup, turn.lawful.nodup, ?_⟩
    rintro a ha b hb rfl
    rcases (hnew a ha).1 with ⟨rfl, -⟩ | rfl
    · exact pending.unlinked hb
    · obtain ⟨lf, hlf, heq⟩ := mem_map.mp hb
      exact absurd (turn.below lf hlf) (by simp [heq])
  refine ⟨Good.moves (p := p) turn ⟨turn.alive, lawful_of_change turn.lawful change disjoint,
    grows, fun lf hlf => ?_, fun q hq => ?_, fun l hl => ?_, fun a ha => ?_, fun q hq => ?_,
    fun op l addr h => ?_⟩, maps⟩
  · rcases linked _ (mem_map_of_mem hlf) with new | old
    · exact (hnew _ new).2
    · obtain ⟨lf', hlf', heq⟩ := mem_map.mp old
      rw [← heq]
      exact (turn.below lf' hlf').trans_le grows
  · simp only [update_of_ne hq]
  · rcases here with rfl | rfl
    · simp [Pc.request] at hl
    · simpa using hl
  · rcases linked a ha with new | old
    · rcases (hnew a new).1 with ⟨rfl, rfl⟩ | rfl
      · exact .inr (.inr ⟨by simp [Pc.request], lock, by simp [Pc.request], rfl⟩)
      · exact .inr (.inl le_rfl)
    · exact .inl old
  · -- the owner of the request is not another process
    have other : Owner.proc q ≠ lock.id := by
      rcases pending.owner with mine | ⟨⟨f, file⟩, -⟩
      · rw [mine]
        exact fun h => hq (Owner.proc.inj h)
      · rw [file]
        exact nofun
    rw [own_eq_of_change change other]
    rfl
  · rcases here with rfl | rfl <;> simp at h

section

variable (turn : Turn s p lock)

include turn

/-- A lock is set when nothing is in the way. -/
theorem Turn.set (free : ∀ lf ∈ s.list, ¬ Blocks lf lock)
    (room : ¬ Overflows lock (some lock.type) s.list) :
    Keeps s (s.finish p .set lock (setLoop lock s.list)) := by
  have pending := turn.pending
  rcases setLoop_spec pending.ok (turn.lawful.tidy lock) with
    ⟨list', woken, hrun, assigns⟩ | ⟨pre, overlap, rest, hlist, hrun, inside, differ⟩
  · rw [hrun]
    obtain ⟨good, maps⟩ := turn.change (assigns.change room) le_rfl (nodup_singleton _)
      (by simpa using pending.below) (.inl rfl)
    exact ⟨good, fun excl => excl.change .set turn.lawful good.lawful maps fun _ => free⟩
  · rw [hrun]
    refine turn.alike rfl (fun _ hl => (Option.some.inj hl).symm) ?_
    rintro _ _ _ ⟨⟩
    have hmem : overlap ∈ pre ++ overlap :: rest := by simp
    rw [← hlist] at hmem
    exact ⟨⟨overlap, mem_own _ |>.mpr ⟨hmem, inside.mine⟩, rfl, inside, mt Option.some.inj differ⟩,
      room⟩

/-- A lock is cleared. -/
theorem Turn.clear (room : ¬ Overflows lock none s.list) :
    Keeps s (s.finish p .clear lock (lfClearlock lock s.list)) := by
  have pending := turn.pending
  rcases lfClearlock_spec pending.ok (turn.lawful.tidy lock) with
    ⟨list', woken, hrun, assigns⟩ | ⟨pre, overlap, rest, hlist, hrun, inside⟩
  · rw [hrun]
    obtain ⟨good, maps⟩ := turn.change (assigns.change room) le_rfl nodup_nil nofun (.inl rfl)
    exact ⟨good, fun excl => excl.change .clear turn.lawful good.lawful maps nofun⟩
  · rw [hrun]
    have alike : Alike s.list (pre ++ overlap.woken :: rest) := by
      rw [hlist]
      exact alike_replace pre overlap [] rest
    refine turn.alike alike (fun _ hl => (Option.some.inj hl).symm) ?_
    rintro _ _ _ ⟨⟩
    refine ⟨⟨overlap.woken, mem_own _ |>.mpr ⟨by simp, inside.mine⟩, rfl, ?_, nofun⟩, ?_⟩
    · exact ⟨inside.mine, inside.start_lt, inside.finite, inside.ends⟩
    · exact mt (alike.own lock.id).overflows_iff.mp room

theorem Turn.block (block : ℕ) : Keeps s (s.block p lock block) :=
  turn.alike (alike_block s.list block p) (fun _ hl => (Option.some.inj hl).symm) nofun

/-- **`lf_setlock` up to where it sleeps or returns.** -/
theorem Turn.setlock (deadlk : Bool)
    (room : lfGetblock lock s.list = some none → ¬ Overflows lock (some lock.type) s.list) :
    Keeps s (s.setlock p lock deadlk) := by
  have pending := turn.pending
  rcases lfGetblock_spec pending.ok turn.lawful.ok with ⟨hget, free⟩ | ⟨block, -, hget, -⟩
  · have heq : s.setlock p lock deadlk = s.finish p .set lock (setLoop lock s.list) := by
      -- the loop does not look for records in the way
      rw [State.setlock, lfSetlock, hget]
      rcases setLoop_spec pending.ok (turn.lawful.tidy lock) with
        ⟨list', woken, hrun, -⟩ | ⟨pre, overlap, rest, -, hrun, -⟩ <;> simp only [hrun]
    rw [heq]
    exact turn.set free (room hget)
  · have hrun : lfSetlock lock s.list = .blocked block := by rw [lfSetlock, hget]
    rw [State.setlock, hrun]
    dsimp only
    split_ifs with refused flock
    · exact turn.alike rfl (by simp [Pc.request]) (by simp)
    · have whole := pending.whole flock.1
      rcases lfClearlock_spec pending.ok (turn.lawful.tidy lock) with
        ⟨list', woken, hclear, assigns⟩ | ⟨pre, overlap, rest, -, -, inside⟩
      · rw [hclear]
        have room : ¬ Overflows lock none s.list := fun h => by
          have := h.1
          omega
        obtain ⟨good, maps⟩ := turn.change (assigns.change room) le_rfl nodup_nil (by simp) (.inr rfl)
        have turn' : Turn ({ s with list := list' }.wake woken) p lock := good
        obtain ⟨good', keeps⟩ := turn'.block block.addr
        exact ⟨good', fun excl => keeps (excl.change .clear turn.lawful good.lawful maps (by simp))⟩
      · exact absurd whole inside.finite
    · exact turn.block _

end

/-- **The allocation returns.**  The record that is to be split is still there, and the
bytes of the request are set or cleared. -/
theorem Good.resume (good : Good s) {op : Op} {overlap : ℕ}
    (h : s.pc p = .splitting op lock overlap) :
    ∃ t, step s (.resume p) = some t ∧ Good t ∧ MapsTo lock (op.value lock) s.list t.list := by
  have turn : Turn s p lock := good.turn (by rw [h]; rfl)
  have pending := turn.pending
  obtain ⟨⟨lf, hlf, rfl, inside, differ⟩, room⟩ := good.splitting p op lock overlap h
  obtain ⟨pre, rest, hlist⟩ := append_of_mem (mem_own _ |>.mp hlf).1
  have lawful := good.lawful
  rw [hlist] at lawful
  obtain ⟨list', woken, hrun, assigns⟩ := splitResume_spec s.brk pending.ok
    (lawful.tidy lock) (distinct_of_nodup lawful.nodup) inside differ
  rw [← hlist] at hrun assigns
  have nodup : (op.adds lock s.brk).Nodup := by
    have := pending.below
    cases op <;> simp [Op.adds]
    omega
  have new : ∀ a ∈ op.adds lock s.brk,
      (a = lock.addr ∧ Pc.idle = (.idle : Pc P F) ∨ a = s.brk) ∧ a < s.brk + 1 := by
    have := pending.below
    cases op <;> simp [Op.adds]
    omega
  refine ⟨({ s with list := list', brk := s.brk + 1 }.wake woken).idle p, ?_, ?_⟩
  · simp only [step, h, hrun]
    exact if_pos good.alive
  · exact turn.change (assigns.change room) (Nat.le_succ _) nodup new (.inl rfl)

end

/-! ## Runs -/

/-- A turn that sets or clears a lock does not cut a record that does not end behind the last
byte of all files. -/
def Room (s : State P F) : Label P F → Prop
  | .call p .set type request _ =>
    lfGetblock (request.lock p type s.brk) s.list = some none →
      ¬ Overflows (request.lock p type s.brk) (some type) s.list
  | .call p .clear type request _ => ¬ Overflows (request.lock p type s.brk) none s.list
  | .wake p _ _ =>
    match s.pc p with
    | .asleep lock =>
      lfGetblock lock s.list = some none → ¬ Overflows lock (some lock.type) s.list
    | _ => True
  | .resume _ => True

/-- If the allocation of `lf_split` returns for a lock that is to be set, no record has come
in its way. -/
def Undisturbed (s : State P F) : Label P F → Prop
  | .resume p =>
    match s.pc p with
    | .splitting .set lock _ => lfGetblock lock s.list = some none
    | _ => True
  | _ => True

instance decidableRoom (s : State P F) : (a : Label P F) → Decidable (Room s a)
  | .call p .set type request _ => inferInstanceAs (Decidable (_ → ¬ _))
  | .call p .clear type request _ => inferInstanceAs (Decidable (¬ _))
  | .wake p _ _ =>
    match h : s.pc p with
    | .asleep lock =>
      decidable_of_iff (lfGetblock lock s.list = some none →
        ¬ Overflows lock (some lock.type) s.list) (by simp [Room, h])
    | .idle | .splitting .. => isTrue (by simp [Room, h])
  | .resume _ => isTrue trivial

instance decidableUndisturbed (s : State P F) : (a : Label P F) → Decidable (Undisturbed s a)
  | .resume p =>
    match h : s.pc p with
    | .splitting .set lock _ =>
      decidable_of_iff (lfGetblock lock s.list = some none) (by simp [Undisturbed, h])
    | .idle | .asleep _ | .splitting .clear .. => isTrue (by simp [Undisturbed, h])
  | .call .. | .wake .. => isTrue trivial

section

variable {s t : State P F}

/-- A turn that is not the return from an allocation. -/
theorem keeps_step {a : Label P F} (good : Good s) (room : Room s a) (hstep : step s a = some t)
    (other : ∀ p, a ≠ .resume p) : Keeps s t := by
  cases a with
  | resume p => exact absurd rfl (other p)
  | call p op type request deadlk =>
    obtain ⟨⟨-, hidle⟩, hstep⟩ := Option.ite_none_right_eq_some.mp hstep
    have turn := good.call hidle type request
    cases op with cases hstep
    | set =>
      refine turn.setlock deadlk ?_
      have htype : (request.lock p type s.brk).type = type := by cases request <;> rfl
      rw [htype]
      exact room
    | clear => exact turn.clear room
  | wake p error deadlk =>
    cases hpc : s.pc p with
    | idle | splitting op lock overlap => simp [step, hpc] at hstep
    | asleep lock =>
      simp only [step, hpc] at hstep
      obtain ⟨-, hstep⟩ := Option.ite_none_right_eq_some.mp hstep
      have turn : Turn s p lock := good.turn (by rw [hpc]; rfl)
      cases error with cases hstep
      | false => exact turn.setlock deadlk (by simpa [Room, hpc] using room)
      | true =>
        have alike := alike_map (f := fun lf : Lockf P F =>
          { lf with blkhd := lf.blkhd.filter fun q => q ≠ p }) (fun _ => rfl) s.list
        exact turn.alike alike nofun nofun

/-- **The return from an allocation** keeps exclusion exactly if nothing is in the way. -/
theorem resume_iff {p : P} (good : Good s) (hstep : step s (.resume p) = some t) :
    Good t ∧ (Exclusive s.list → (Exclusive t.list ↔ Undisturbed s (.resume p))) := by
  cases hpc : s.pc p with
  | idle | asleep lock => simp [step, hpc] at hstep
  | splitting op lock overlap =>
    obtain ⟨u, hu, goodu, maps⟩ := good.resume hpc
    cases hu.symm.trans hstep
    have hok := (good.pending p lock (by rw [hpc]; rfl)).ok
    refine ⟨goodu, fun excl => ?_⟩
    cases op with
    | clear =>
      exact iff_of_true (excl.change .clear good.lawful goodu.lawful maps nofun)
        (by simp [Undisturbed, hpc])
    | set =>
      have hundisturbed : Undisturbed s (.resume p) ↔ lfGetblock lock s.list = some none := by
        simp [Undisturbed, hpc]
      rw [hundisturbed]
      rcases lfGetblock_spec hok good.lawful.ok with
        ⟨hget, free⟩ | ⟨block, hblock, hget, blocks⟩
      · exact iff_of_true (excl.change .set good.lawful goodu.lawful maps fun _ => free) hget
      · refine iff_of_false (not_exclusive_of_blocks good.lawful goodu.lawful hok maps hblock
          blocks) ?_
        rw [hget]
        exact nofun

/-- Every turn keeps the invariant. -/
theorem good_step {a : Label P F} (good : Good s) (room : Room s a) (hstep : step s a = some t) :
    Good t := by
  cases a with
  | resume p => exact (resume_iff good hstep).1
  | call | wake => exact (keeps_step good room hstep nofun).1

end

/-- No process has asked for a lock. -/
def init : State P F := {}

theorem good_init : Good (init : State P F) := by
  have lawful : Lawful ([] : List (Lockf P F)) :=
    ⟨nodup_nil, nofun, fun _ => List.Pairwise.nil⟩
  have idle : ∀ p, (init : State P F).pc p = .idle := fun _ => rfl
  refine ⟨rfl, lawful, nofun, fun p lock h => ?_,
    fun p q a b _ h => ?_, fun p op lock addr h => ?_⟩
  · rw [idle] at h
    cases h
  · rw [idle] at h
    cases h
  · rw [idle] at h
    cases h

/-- **The list stays lawful, and no process panics**: in every run, as long as there is room. -/
theorem always_lawful {as : List (Label P F)} {t : State P F} (room : Along step Room init as)
    (h : run step init as = some t) : t.dead = false ∧ Lawful t.list :=
  have good := run_invariant (fun _ _ _ good room => good_step good room) good_init room h
  ⟨good.alive, good.lawful⟩

/-- **Exclusion under sleeping allocation.**  In a run, as long as there is room, the locks of
different owners exclude each other in all states on the way exactly if no record is in the
way of a process when its allocation returns. -/
theorem exclusive_iff_undisturbed {as : List (Label P F)} {t : State P F}
    (room : Along step Room init as) (h : run step init as = some t) :
    Along step Undisturbed init as ↔
      ∀ bs u, bs <+: as → run step init bs = some u → Exclusive u.list := by
  refine along_iff_reached (I := fun s => Good s ∧ Exclusive s.list)
    (fun _ _ _ _ _ => trivial) ?_ ?_ ⟨⟨good_init, exclusive_nil⟩, exclusive_nil⟩ room h trivial
  · rintro s a t ⟨good, excl⟩ room undisturbed hstep -
    have excl' : Exclusive t.list := by
      cases a with
      | resume p => exact ((resume_iff good hstep).2 excl).mpr undisturbed
      | call | wake => exact (keeps_step good room hstep nofun).2 excl
    exact ⟨⟨good_step good room hstep, excl'⟩, excl'⟩
  · rintro s a t ⟨good, excl⟩ - disturbed hstep -
    cases a with
    | resume p => exact mt ((resume_iff good hstep).2 excl).mp disturbed
    | call | wake => exact absurd trivial disturbed

/-- Process 0 has locked ten bytes for reading, and asks for some of them for writing; process
1 asks for a range for reading while the other waits for memory. -/
def upgrade (range : Range) : List (Label ℕ ℕ) :=
  [.call 0 .set .rdlck (.fcntl ⟨0, 9, by decide, by decide, by decide⟩ false) false,
    .call 0 .set .wrlck (.fcntl ⟨3, 5, by decide, by decide, by decide⟩ false) false,
    .call 1 .set .rdlck (.fcntl range false) false,
    .resume 0]

theorem exclusive_iff_undisturbed_upgrade : ∃ t,
    run step init (upgrade ⟨7, 8, by decide, by decide, by decide⟩) = some t ∧
      Exclusive t.list := by
  have room : Along step Room init (upgrade ⟨7, 8, by decide, by decide, by decide⟩) := by
    decide
  have undisturbed : Along step Undisturbed init
      (upgrade ⟨7, 8, by decide, by decide, by decide⟩) := by
    decide
  refine ⟨_, rfl, ?_⟩
  exact (exclusive_iff_undisturbed room rfl).mp undisturbed _ _ (prefix_refl _) rfl

/-- A lock in the middle of another. -/
theorem always_lawful_upgrade : ∃ t,
    run step init (upgrade ⟨7, 8, by decide, by decide, by decide⟩) = some t ∧ Lawful t.list :=
  have room : Along step Room init (upgrade ⟨7, 8, by decide, by decide, by decide⟩) := by decide
  ⟨_, rfl, (always_lawful room rfl).2⟩

/-- **Two locks on one byte**: the second process gets a lock for reading on the bytes that the
first then has for writing. -/
theorem upgrade_overlaps : ∃ t,
    run step init (upgrade ⟨3, 5, by decide, by decide, by decide⟩) = some t ∧
      ¬ Exclusive t.list := by
  refine ⟨_, rfl, fun excl => ?_⟩
  exact excl (record 1 .wrlck 3 5 0) (by decide) (record 2 .rdlck 3 5 1) (by decide)
    (by decide) (.inl rfl) 4 ⟨by decide, by decide⟩ ⟨by decide, by decide⟩

end BSDLite2.Ufs
