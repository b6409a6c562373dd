import Mathlib.Tactic

/-!
# Byte-range locks (`ufs/ufs/ufs_lockf.c`)

The locks of a file are records in a list, `i_lockf`.  A record belongs to an owner
(`lf_id`: a process for `fcntl`, an open file for `flock`) and covers the bytes from
`lf_start` to `lf_end`, where -1 is the end of all files.  A request that is in the way
of nobody is put into the list, and cuts the records of its own owner that it overlaps;
one that is in somebody's way waits on the list `lf_blkhd` of that record.

A place in the list is a gap between the records before it and those after it; `prev`
is the link across the gap.

* `lfFindoverlap`, `lfGetblock` — search;
* `lfSetlock`, `lfClearlock` — the changes of the list, up to where the code may sleep;
* `splitResume` — `lf_split` after its allocation.
-/

namespace BSDLite2.Ufs

/-! ## Records -/

/-- `F_RDLCK` and `F_WRLCK` -/
inductive LockType where
  | rdlck
  | wrlck
  deriving DecidableEq, Repr

/-- `lf_id`: the address of a process, or of an open file. -/
inductive Owner (P F : Type) where
  | proc (p : P)
  | file (f : F)
  deriving DecidableEq

/-- `struct lockf`, with its address.  Of `lf_blkhd` we keep whose requests are on it:
a process waits for one at a time. -/
structure Lockf (P F : Type) where
  addr : ℕ
  /-- `F_POSIX` -/
  posix : Bool
  /-- `F_FLOCK` -/
  flock : Bool
  /-- `F_WAIT` -/
  wait : Bool
  type : LockType
  start : ℤ
  /-- `lf_end` -/
  stop : ℤ
  id : Owner P F
  blkhd : List P := []
  deriving DecidableEq

/-- What is stored in an `off_t`. -/
def off (x : ℤ) : ℤ := x.bmod (2 ^ 64)

variable {P F : Type} [DecidableEq P] [DecidableEq F]

/-! ## Search -/

/-- The cases of `lf_findoverlap`. -/
inductive Ovcase where
  /-- 0: no overlap -/
  | none
  /-- 1: overlap == lock -/
  | same
  /-- 2: overlap contains lock -/
  | contains
  /-- 3: lock contains overlap -/
  | contained
  /-- 4: overlap starts before lock -/
  | startsBefore
  /-- 5: overlap ends after lock -/
  | endsAfter
  deriving DecidableEq, Repr

/-- The tests on one record.  The last is `panic("lf_findoverlap: default")`. -/
def ovcase (lf lock : Lockf P F) : Option Ovcase :=
  if lf.stop ≠ -1 ∧ lock.start > lf.stop ∨ lock.stop ≠ -1 ∧ lf.start > lock.stop then some .none
  else if lf.start = lock.start ∧ lf.stop = lock.stop then some .same
  else if lf.start ≤ lock.start ∧ lock.stop ≠ -1 ∧ (lf.stop ≥ lock.stop ∨ lf.stop = -1) then
    some .contains
  else if lock.start ≤ lf.start ∧ (lock.stop = -1 ∨ lf.stop ≠ -1 ∧ lock.stop ≥ lf.stop) then
    some .contained
  else if lf.start < lock.start ∧ (lf.stop ≥ lock.start ∨ lf.stop = -1) then some .startsBefore
  else if lf.start > lock.start ∧ lock.stop ≠ -1 ∧ (lf.stop > lock.stop ∨ lf.stop = -1) then
    some .endsAfter
  else none

/-- `SELF` or `OTHERS` -/
inductive Who where
  | self
  | others
  deriving DecidableEq, Repr

/-- The record is not one of those that are looked for. -/
def Who.skips (who : Who) (lf lock : Lockf P F) : Bool :=
  match who with
  | .self => lf.id ≠ lock.id
  | .others => lf.id = lock.id

/-- `lf_findoverlap`, from the gap between `pre` and `post` on: the case, and the gap
before `overlap`.  No result is the panic. -/
def lfFindoverlap (who : Who) (lock : Lockf P F) (pre : List (Lockf P F)) :
    (post : List (Lockf P F)) → Option (Ovcase × List (Lockf P F) × List (Lockf P F))
  | [] => some (.none, pre, [])
  | lf :: rest =>
    if who.skips lf lock then lfFindoverlap who lock (pre ++ [lf]) rest
    else
      match ovcase lf lock with
      | none => none
      | some .none =>
        if who = .self ∧ lock.stop ≠ -1 ∧ lf.start > lock.stop then
          some (.none, pre, lf :: rest)
        else lfFindoverlap who lock (pre ++ [lf]) rest
      | some c => some (c, pre, lf :: rest)

/-- The loop of `lf_getblock`. -/
def getblockLoop (lock : Lockf P F) :
    (fuel : ℕ) → (lf : List (Lockf P F)) → Option (Option (Lockf P F))
  | 0, _ => none
  | fuel + 1, lf =>
    match lfFindoverlap .others lock [] lf with
    | none => none
    | some (.none, _, _) | some (_, _, []) => some none
    | some (_, _, overlap :: rest) =>
      if lock.type = .wrlck ∨ overlap.type = .wrlck then some (some overlap)
      else getblockLoop lock fuel rest

/-- `lf_getblock`: the first record in the way of `lock`. -/
def lfGetblock (lock : Lockf P F) (list : List (Lockf P F)) : Option (Option (Lockf P F)) :=
  getblockLoop lock (list.length + 1) list

/-! ## Changes -/

/-- How a change of the list ends. -/
inductive Outcome (P F : Type) where
  /-- it is made, and `woken` have been sent a wakeup -/
  | done (list : List (Lockf P F)) (woken : List P)
  /-- a record is in the way -/
  | blocked (block : Lockf P F)
  /-- it may sleep in the `MALLOC` of `lf_split` -/
  | splits (list : List (Lockf P F)) (woken : List P) (overlap : ℕ)
  /-- `panic("lf_findoverlap: default")` -/
  | panics
  /-- a record is freed, or linked once more, while it is in the list -/
  | corrupts
  deriving DecidableEq

/-- How `lf_split` goes on. -/
inductive Split (P F : Type) where
  /-- `lock1` is what comes behind `lock2` -/
  | front (lock1 : Lockf P F)
  /-- `lock1` is what comes before `lock2` -/
  | back (lock1 : Lockf P F)
  /-- a record has to be allocated for the part behind -/
  | middle
  deriving DecidableEq

/-- `lf_split`, up to the allocation. -/
def lfSplit (lock1 lock2 : Lockf P F) : Split P F :=
  if lock1.start = lock2.start then .front { lock1 with start := off (lock2.stop + 1) }
  else if lock1.stop = lock2.stop then .back { lock1 with stop := off (lock2.start - 1) }
  else .middle

/-- After `lf_wakelock` nobody waits for the record. -/
def Lockf.woken (lf : Lockf P F) : Lockf P F := { lf with blkhd := [] }

/-- The waiters of a record that `lock` replaces: they are woken if that lets them in,
else they wait for `lock`. -/
def takeBlkhd (lock overlap : Lockf P F) (woken : List P) : Lockf P F × List P :=
  if lock.type = .rdlck ∧ overlap.type = .wrlck then (lock, woken ++ overlap.blkhd)
  else ({ lock with blkhd := lock.blkhd ++ overlap.blkhd }, woken)

/-- The loop of `lf_setlock` when `lock` is in the list (`needtolink` is 0), between
`pre` and `mid`. -/
def setRest : (fuel : ℕ) → (lock : Lockf P F) → (pre mid post : List (Lockf P F)) →
    (woken : List P) → Outcome P F
  | 0, _, _, _, _, _ => .corrupts
  | fuel + 1, lock, pre, mid, post, woken =>
    match lfFindoverlap .self lock mid post with
    | none => .panics
    | some (.none, mid, post) => .done (pre ++ lock :: (mid ++ post)) woken
    | some (_, _, []) => .panics
    | some (.contained, mid, overlap :: rest) =>
      setRest fuel (takeBlkhd lock overlap woken).1 pre mid rest
        (takeBlkhd lock overlap woken).2
    | some (.endsAfter, mid, overlap :: rest) =>
      .done (pre ++ lock :: (mid ++
        { overlap.woken with start := off (lock.stop + 1) } :: rest)) (woken ++ overlap.blkhd)
    | some _ => .corrupts

/-- The loop of `lf_setlock` while `needtolink` is 1. -/
def setLoop (lock : Lockf P F) (list : List (Lockf P F)) : Outcome P F :=
  match lfFindoverlap .self lock [] list with
  | none => .panics
  | some (.none, pre, post) => .done (pre ++ lock :: post) []
  | some (_, _, []) => .panics
  | some (.same, pre, overlap :: rest) =>
    if lock.type = .rdlck ∧ overlap.type = .wrlck then
      .done (pre ++ { overlap.woken with type := lock.type } :: rest) overlap.blkhd
    else .done (pre ++ { overlap with type := lock.type } :: rest) []
  | some (.contains, pre, overlap :: rest) =>
    if overlap.type = lock.type then .done (pre ++ overlap :: rest) []
    else if overlap.start = lock.start then
      .done (pre ++ lock :: { overlap.woken with start := off (lock.stop + 1) } :: rest)
        overlap.blkhd
    else
      match lfSplit overlap lock with
      | .front lock1 => .done (pre ++ lock1.woken :: rest) overlap.blkhd
      | .back lock1 => .done (pre ++ lock1.woken :: lock :: rest) overlap.blkhd
      | .middle => .splits (pre ++ overlap :: rest) [] overlap.addr
  | some (.contained, pre, overlap :: rest) =>
    setRest list.length (takeBlkhd lock overlap []).1 pre [] rest (takeBlkhd lock overlap []).2
  | some (.startsBefore, pre, overlap :: rest) =>
    setRest list.length lock (pre ++ [{ overlap.woken with stop := off (lock.start - 1) }]) []
      rest overlap.blkhd
  | some (.endsAfter, pre, overlap :: rest) =>
    .done (pre ++ lock :: { overlap.woken with start := off (lock.stop + 1) } :: rest)
      overlap.blkhd

/-- `lf_setlock` from the test for records in the way on, up to where it may sleep. -/
def lfSetlock (lock : Lockf P F) (list : List (Lockf P F)) : Outcome P F :=
  match lfGetblock lock list with
  | none => .panics
  | some (some block) => .blocked block
  | some none => setLoop lock list

/-- The loop of `lf_clearlock`. -/
def clearLoop (unlock : Lockf P F) : (fuel : ℕ) → (pre post : List (Lockf P F)) →
    (woken : List P) → Outcome P F
  | 0, _, _, _ => .corrupts
  | fuel + 1, pre, post, woken =>
    match lfFindoverlap .self unlock pre post with
    | none => .panics
    | some (.none, pre, post) => .done (pre ++ post) woken
    | some (_, _, []) => .panics
    | some (.same, pre, overlap :: rest) => .done (pre ++ rest) (woken ++ overlap.blkhd)
    | some (.contains, pre, overlap :: rest) =>
      if overlap.start = unlock.start then
        .done (pre ++ { overlap.woken with start := off (unlock.stop + 1) } :: rest)
          (woken ++ overlap.blkhd)
      else
        match lfSplit overlap.woken unlock with
        | .front _ => .corrupts
        | .back lock1 => .done (pre ++ lock1 :: rest) (woken ++ overlap.blkhd)
        | .middle =>
          .splits (pre ++ overlap.woken :: rest) (woken ++ overlap.blkhd) overlap.addr
    | some (.contained, pre, overlap :: rest) =>
      clearLoop unlock fuel pre rest (woken ++ overlap.blkhd)
    | some (.startsBefore, pre, overlap :: rest) =>
      clearLoop unlock fuel (pre ++ [{ overlap.woken with stop := off (unlock.start - 1) }])
        rest (woken ++ overlap.blkhd)
    | some (.endsAfter, pre, overlap :: rest) =>
      .done (pre ++ { overlap.woken with start := off (unlock.stop + 1) } :: rest)
        (woken ++ overlap.blkhd)

/-- `lf_clearlock` -/
def lfClearlock (unlock : Lockf P F) (list : List (Lockf P F)) : Outcome P F :=
  clearLoop unlock (list.length + 1) [] list []

/-- What `lf_setlock` and `lf_clearlock` are used for. -/
inductive Op where
  | set
  | clear
  deriving DecidableEq, Repr

/-- `lf_split` from the allocation on, and what its caller does then.  `lf_setlock`
links `lock2` and wakes the waiters, `lf_clearlock` takes `lock2` out again.  There is no
result if `lock1` is not in the list any more. -/
def splitResume (op : Op) (lock2 : Lockf P F) (lock1 fresh : ℕ) :
    (list : List (Lockf P F)) → Option (List (Lockf P F) × List P)
  | [] => none
  | lf :: rest =>
    if lf.addr = lock1 then
      let before := { lf with stop := off (lock2.start - 1) }
      let after := { lf.woken with addr := fresh, start := off (lock2.stop + 1) }
      match op with
      | .set => some (before.woken :: lock2 :: after :: rest, lf.blkhd)
      | .clear => some (before :: after :: rest, [])
    else (splitResume op lock2 lock1 fresh rest).map fun r => (lf :: r.1, r.2)

/-- The allocation returns at once. -/
def Outcome.allocate (op : Op) (lock : Lockf P F) (fresh : ℕ) : Outcome P F → Outcome P F
  | .splits list woken overlap =>
    match splitResume op lock overlap fresh list with
    | none => .corrupts
    | some (list, more) => .done list (woken ++ more)
  | r => r

end BSDLite2.Ufs
