import BSDLite2.Lib.Chain

/-!
# The kernel memory allocator (`kern/kern_malloc.c`)

Blocks of one size, a power of two, make up a bucket.  The free ones are linked through
their first word, from `kb_next` on; `free` links a block behind `kb_last`.  If there is
none, `malloc` gets pages from `kmem_malloc`, where it may sleep, and cuts them into
blocks.  Requests above `MAXALLOCSAVE` get pages of their own.

The code is that without `DIAGNOSTIC`.  Of the statistics (`KMEMSTATS`) we keep
`ku_freecnt`, which the panics depend on; the wait for `ks_limit` comes before the request
looks at anything.

* `Machine` — the page size;
* `take`, `fill`, `malloc`, `free` — the code, up to where it may sleep;
* `step` — the turns of processes.
-/

namespace BSDLite2.Malloc

open Function

/-! ## Sizes -/

/-- `PGSHIFT` and `CLSIZELOG2`: what the constraints of `sys/param.h` say of them, and a page
is not smaller than the smallest block. -/
structure Machine where
  pgshift : ℕ
  clsizelog2 : ℕ
  low : 4 ≤ pgshift
  high : pgshift + clsizelog2 ≤ 17

namespace Machine

variable (m : Machine)

/-- `NBPG` -/
def nbpg : ℕ := 2 ^ m.pgshift

/-- `CLSHIFT` -/
def clshift : ℕ := m.pgshift + m.clsizelog2

/-- `CLBYTES` -/
def clbytes : ℕ := 2 ^ m.clshift

/-- `MAXALLOCSAVE` -/
def maxallocsave : ℕ := 2 * m.clbytes

/-- `btoc` -/
def btoc (x : ℕ) : ℕ := (x + (m.nbpg - 1)) >>> m.pgshift

/-- `clrnd` -/
def clrnd (i : ℕ) : ℕ := (i + (2 ^ m.clsizelog2 - 1)) / 2 ^ m.clsizelog2 * 2 ^ m.clsizelog2

/-- `roundup` -/
def roundup (x y : ℕ) : ℕ := (x + (y - 1)) / y * y

/-- `kb_elmpercl` of a bucket. -/
def elmpercl (indx : ℕ) : ℕ := if 1 <<< indx ≥ m.clbytes then 1 else m.clbytes / 1 <<< indx

/-- `btokup`, relative to `kmembase` -/
def btokup (addr : ℕ) : ℕ := addr >>> m.clshift

end Machine

/-- `MINBUCKET` -/
def minbucket : ℕ := 4

/-- `MINALLOCSIZE` -/
def minallocsize : ℕ := 1 <<< minbucket

/-- `BUCKETINDX` -/
def bucketindx (size : ℕ) : ℕ :=
  if size ≤ minallocsize * 128 then
    if size ≤ minallocsize * 8 then
      if size ≤ minallocsize * 2 then
        if size ≤ minallocsize * 1 then minbucket + 0 else minbucket + 1
      else if size ≤ minallocsize * 4 then minbucket + 2 else minbucket + 3
    else if size ≤ minallocsize * 32 then
      if size ≤ minallocsize * 16 then minbucket + 4 else minbucket + 5
    else if size ≤ minallocsize * 64 then minbucket + 6 else minbucket + 7
  else if size ≤ minallocsize * 2048 then
    if size ≤ minallocsize * 512 then
      if size ≤ minallocsize * 256 then minbucket + 8 else minbucket + 9
    else if size ≤ minallocsize * 1024 then minbucket + 10 else minbucket + 11
  else if size ≤ minallocsize * 8192 then
    if size ≤ minallocsize * 4096 then minbucket + 12 else minbucket + 13
  else if size ≤ minallocsize * 16384 then minbucket + 14 else minbucket + 15

/-! ## The state -/

/-- `struct kmembuckets` -/
structure Bucket where
  /-- `kb_next` -/
  next : Option ℕ := none
  /-- `kb_last` -/
  last : Option ℕ := none
  deriving DecidableEq

/-- `struct kmemusage` -/
structure Usage where
  /-- `ku_indx` -/
  indx : ℕ := 0
  /-- the union of `ku_freecnt` and `ku_pagecnt` -/
  cnt : ℕ := 0
  deriving DecidableEq

/-- An entry of `kmem_map`: pages, and the bucket they were got for. -/
structure Run where
  va : ℕ
  len : ℕ
  indx : ℕ
  deriving DecidableEq

/-- A block that `malloc` has returned, with what was allocated for it. -/
structure Block where
  addr : ℕ
  size : ℕ
  deriving DecidableEq

/-- The calls of `panic`, and a store through a null pointer. -/
inductive Panic where
  /-- "malloc: allocation too large" -/
  | tooLarge
  /-- "malloc: wrong bucket" -/
  | wrongBucket
  /-- "malloc: lost data" -/
  | lostData
  /-- "free: multiple frees" -/
  | multipleFrees
  | wild
  deriving DecidableEq, Repr

/-- Where a process is. -/
inductive Pc where
  | idle
  /-- in the `kmem_malloc` of a request -/
  | asleep (size : ℕ)
  deriving DecidableEq

/-- The allocator.  Of the memory we keep the word at the start of a block. -/
structure State (P : Type) where
  bucket : ℕ → Bucket := fun _ => {}
  usage : ℕ → Usage := fun _ => {}
  mem : ℕ → Option ℕ := fun _ => none
  map : List Run := []
  /-- returned by `malloc` and not yet freed -/
  live : List Block := []
  pc : P → Pc := fun _ => .idle
  panicked : Option Panic := none

variable {P : Type} (m : Machine)

def State.panic (s : State P) (why : Panic) : State P := { s with panicked := some why }

/-- The block is returned. -/
def State.return (s : State P) (b : Block) : State P := { s with live := b :: s.live }

/-! ## malloc -/

variable (s : State P) (size : ℕ)

/-- `malloc` when `kb_next` is not null. -/
def take (indx : ℕ) : State P :=
  match (s.bucket indx).next with
  | none => s.panic .wild
  | some va =>
    let s := { s with
      bucket := update s.bucket indx { s.bucket indx with next := s.mem va } }
    let kup := m.btokup va
    if (s.usage kup).indx ≠ indx then s.panic .wrongBucket
    else if (s.usage kup).cnt = 0 then s.panic .lostData
    else
      { s with usage := update s.usage kup { s.usage kup with cnt := (s.usage kup).cnt - 1 } }.return
        ⟨va, 1 <<< indx⟩

/-- The loop that links the blocks of the pages from `cp` down to `va`: the memory, and the
block it ends with. -/
def link (va allocsize : ℕ) : (fuel cp : ℕ) → (mem : ℕ → Option ℕ) → (ℕ → Option ℕ) × ℕ
  | 0, cp, mem => (mem, cp)
  | fuel + 1, cp, mem =>
    if cp ≤ va then (mem, cp)
    else link va allocsize fuel (cp - allocsize) (update mem cp (some (cp - allocsize)))

/-- `allocsize` -/
def allocsize : ℕ :=
  if size > m.maxallocsave then Machine.roundup size m.clbytes else 1 <<< bucketindx size

/-- `npg` -/
def npg : ℕ := m.clrnd (m.btoc (allocsize m size))

/-- `malloc` after `kmem_malloc` has returned the pages at `va`. -/
def fill (va : ℕ) : State P :=
  let indx := bucketindx size
  let kup := m.btokup va
  let s := { s with
    map := ⟨va, npg m size * m.nbpg, indx⟩ :: s.map
    usage := update s.usage kup { s.usage kup with indx := indx } }
  if allocsize m size > m.maxallocsave then
    if npg m size > 65535 then s.panic .tooLarge
    else
      { s with usage := update s.usage kup { s.usage kup with cnt := npg m size } }.return
        ⟨va, npg m size * m.nbpg⟩
  else
    let savedlist := (s.bucket indx).next
    let cp := va + npg m size * m.nbpg - allocsize m size
    let (mem, freep) := link va (allocsize m size) (npg m size * m.nbpg) cp s.mem
    let kb : Bucket :=
      { next := some cp, last := if (s.bucket indx).last = none then some freep
                                  else (s.bucket indx).last }
    take m { s with
      usage := update s.usage kup { s.usage kup with cnt := m.elmpercl indx }
      mem := update mem freep savedlist
      bucket := update s.bucket indx kb } indx

/-- The end of `malloc`: no pages, or some. -/
def refill : (va : Option ℕ) → State P
  | none => s
  | some va => fill m s size va

/-! ## free -/

/-- `free` -/
def free (addr : ℕ) : State P :=
  let kup := m.btokup addr
  let indx := (s.usage kup).indx
  let s := { s with live := s.live.filter fun b => b.addr ≠ addr }
  if 1 <<< indx > m.maxallocsave then
    -- kmem_free
    { s with
      map := s.map.filter fun r => r.va ≠ addr
      usage := update s.usage kup {} }
  else if (s.usage kup).cnt + 1 > m.elmpercl indx then s.panic .multipleFrees
  else
    let s := { s with usage := update s.usage kup { s.usage kup with cnt := (s.usage kup).cnt + 1 } }
    match (s.bucket indx).next, (s.bucket indx).last with
    | none, _ =>
      { s with
        mem := update s.mem addr none
        bucket := update s.bucket indx ⟨some addr, some addr⟩ }
    | some _, none => s.panic .wild
    | some next, some last =>
      { s with
        mem := update (update s.mem last (some addr)) addr none
        bucket := update s.bucket indx ⟨some next, some addr⟩ }

/-- The addresses of the words that `free` writes. -/
def freeWrites (addr : ℕ) : List ℕ :=
  let indx := (s.usage (m.btokup addr)).indx
  if 1 <<< indx > m.maxallocsave then []
  else
    match (s.bucket indx).next, (s.bucket indx).last with
    | some _, some last => [last, addr]
    | _, _ => [addr]

/-! ## Turns -/

/-- The turns. -/
inductive Label (P : Type) where
  /-- a call of `malloc`; without `M_WAITOK` the result of `kmem_malloc` comes at once -/
  | malloc (p : P) (size : ℕ) (wait : Bool) (va : Option ℕ)
  /-- `kmem_malloc` returns -/
  | resume (p : P) (va : Option ℕ)
  | free (p : P) (addr : ℕ)
  /-- who has a block writes to it -/
  | store (addr : ℕ) (value : Option ℕ)
  deriving DecidableEq

/-- **What `kmem_malloc` returns**: pages that are in no entry of the map, or nothing. -/
def Fresh : Option ℕ → Prop
  | none => True
  | some va => m.clbytes ∣ va ∧
      ∀ r ∈ s.map, va + npg m size * m.nbpg ≤ r.va ∨ r.va + r.len ≤ va

instance : (va : Option ℕ) → Decidable (Fresh m s size va)
  | none => inferInstanceAs (Decidable True)
  | some _ => inferInstanceAs (Decidable (_ ∧ _))

def step [DecidableEq P] (s : State P) : Label P → Option (State P)
  | .malloc p size wait va =>
    -- the rounded size is a `long`
    if s.panicked = none ∧ s.pc p = .idle ∧ size + m.clbytes ≤ 2 ^ 31 then
      let indx := bucketindx size
      if (s.bucket indx).next = none then
        let s := { s with bucket := update s.bucket indx { s.bucket indx with last := none } }
        if wait then some { s with pc := update s.pc p (.asleep size) }
        else if Fresh m s size va then some (refill m s size va)
        else none
      else some (take m s indx)
    else none
  | .resume p va =>
    match s.pc p with
    | .idle => none
    | .asleep size =>
      if s.panicked = none ∧ Fresh m s size va then
        some (refill m { s with pc := update s.pc p .idle } size va)
      else none
  | .free p addr =>
    -- only blocks that are live are freed
    if s.panicked = none ∧ s.pc p = .idle ∧ ∃ b ∈ s.live, b.addr = addr then
      some (free m s addr)
    else none
  | .store addr value =>
    if s.panicked = none ∧ ∃ b ∈ s.live, b.addr ≤ addr ∧ addr < b.addr + b.size then
      some { s with mem := update s.mem addr value }
    else none

end BSDLite2.Malloc
