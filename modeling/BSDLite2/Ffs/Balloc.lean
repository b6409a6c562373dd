import BSDLite2.Lib.PtrTree
import BSDLite2.Ufs.Getlbns

/-!
# Allocating the blocks of a file (`ufs/ffs/ffs_balloc.c`)

`ffs_balloc` finds the place of a block in the block map of a file and allocates the block and
the indirect blocks on the way to it.  New indirect blocks are linked one after the other, the
first into the inode or into an indirect block that is there already.  If it fails, it frees the
new blocks, and takes the first one out of the inode again, but not out of an indirect block.

* `Store`, `reach` — an inode with its indirect blocks, and the blocks that can be reached;
* `balloc` — the code; `Env` says how the calls it makes turn out;
* `Linked` — a new indirect block has been linked into an old one;
* `balloc_undone_iff` — a failure leaves no trace exactly if no fragment has been extended and
  nothing is linked into an old indirect block.
-/

namespace BSDLite2.Ffs.Balloc

open BSDLite2.Bmap BSDLite2.PtrTree Function List Nat

/-! ## Files -/

/-- The parameters of a file system: the pointers in a block and the size of a fragment, which
is a multiple of `DEV_BSIZE`. -/
structure Geom extends Nindir where
  fsize : ℕ
  fsize_pos : 0 < fsize
  dev : 512 ∣ fsize
  fsize_dvd : fsize ∣ 4 * n

namespace Geom

variable (g : Geom)

/-- `fs_bsize`, with four bytes to a pointer. -/
def bsize : ℕ := 4 * g.n

/-- `btodb` -/
def btodb (bytes : ℕ) : ℕ := bytes / 512

/-- `lblkno` -/
def lblkno (loc : ℕ) : ℕ := loc / g.bsize

/-- `blkoff` -/
def blkoff (loc : ℕ) : ℕ := loc % g.bsize

/-- `fragroundup` -/
def fragroundup (size : ℕ) : ℕ := (size + (g.fsize - 1)) / g.fsize * g.fsize

/-- `numfrags` -/
def numfrags (loc : ℕ) : ℕ := loc / g.fsize

end Geom

/-- The fields of an inode that concern its blocks. -/
structure Inode where
  /-- `i_db` -/
  db : ℕ → ℕ
  /-- `i_ib` -/
  ib : ℕ → ℕ
  /-- `i_size` -/
  size : ℕ
  /-- `i_blocks` -/
  blocks : ℤ

/-- `blksize` -/
def blksize (g : Geom) (ino : Inode) (lbn : ℕ) : ℕ :=
  if ndaddr ≤ lbn ∨ (lbn + 1) * g.bsize ≤ ino.size then g.bsize
  else g.fragroundup (g.blkoff ino.size)

/-- An inode, the pointers in the blocks of the file system, which blocks are in use, and what
has been freed, with its size. -/
structure Store where
  ino : Inode
  mem : ℕ → ℕ → ℕ
  used : ℕ → Bool
  freed : List (ℕ × ℕ)

/-- The errors that `ffs_balloc` returns. -/
inductive Err where
  | efbig
  | enospc
  | eio
  deriving DecidableEq, Repr

/-- How the calls that `ffs_balloc` makes turn out, at each level of indirection. -/
structure Env where
  /-- `bread` succeeds -/
  bread : ℕ → Bool
  /-- the block that `ffs_alloc` finds -/
  alloc : ℕ → Option ℕ
  /-- `bwrite` succeeds -/
  bwrite : ℕ → Bool
  /-- the block that `ffs_realloccg` finds -/
  realloc : Option ℕ
  /-- `B_CLRBUF` -/
  clrbuf : Bool

/-! ## The code -/

variable (g : Geom)

variable (env : Env) (s : Store)

/-- `ffs_alloc` of `size` bytes.  What is found is not in use. -/
def alloc (size : ℕ) (found : Option ℕ) : Option (Store × ℕ) :=
  match found with
  | none => none
  | some a =>
    if a ≠ 0 ∧ s.used a = false then
      some ({ s with
        used := update s.used a true
        ino := { s.ino with blocks := s.ino.blocks + Geom.btodb size } }, a)
    else none

/-- `ffs_blkfree` -/
def Store.blkfree (a size : ℕ) : Store :=
  { s with used := update s.used a false, freed := s.freed ++ [(a, size)] }

/-- `clrbuf` -/
def Store.clear (a : ℕ) : Store := { s with mem := update s.mem a fun _ => 0 }

/-- A pointer in an indirect block. -/
def Store.link (a off b : ℕ) : Store :=
  { s with mem := update s.mem a (update (s.mem a) off b) }

/-- A pointer to an indirect block in the inode. -/
def Store.setIb (k a : ℕ) : Store :=
  { s with ino := { s.ino with ib := update s.ino.ib k a } }

/-- A pointer to a direct block in the inode. -/
def Store.setDb (k a : ℕ) : Store :=
  { s with ino := { s.ino with db := update s.ino.db k a } }

/-- The blocks allocated on the way, and whether it has failed. -/
structure Fetched where
  s : Store
  news : List ℕ
  err : Option Err

/-- The loop of `ffs_balloc` through the indirect blocks, from the block `a` at level `i` on, and
the data block. -/
def fetch (env : Env) : (path : List Indir) → (i a : ℕ) → Store → Fetched
  | [], _, _, s => ⟨s, [], none⟩
  | [p], i, a, s =>
    if env.bread i = false then ⟨s, [], some .eio⟩
    else if s.mem a p.off = 0 then
      match alloc s g.bsize (env.alloc (i + 1)) with
      | none => ⟨s, [], some .enospc⟩
      | some (s, newb) => ⟨s.link a p.off newb, [newb], none⟩
    else if env.clrbuf = true ∧ env.bread (i + 1) = false then ⟨s, [], some .eio⟩
    else ⟨s, [], none⟩
  | p :: q :: path, i, a, s =>
    if env.bread i = false then ⟨s, [], some .eio⟩
    else if s.mem a p.off ≠ 0 then fetch env (q :: path) (i + 1) (s.mem a p.off) s
    else
      match alloc s g.bsize (env.alloc (i + 1)) with
      | none => ⟨s, [], some .enospc⟩
      | some (s, newb) =>
        if env.bwrite (i + 1) = false then ⟨s.clear newb, [newb], some .eio⟩
        else
          let r := fetch env (q :: path) (i + 1) newb ((s.clear newb).link a p.off newb)
          ⟨r.s, newb :: r.news, r.err⟩

/-- `ffs_balloc` from `fail` on; `allocib` is the place in the inode that has been set. -/
def fail (news : List ℕ) (allocib : Option ℕ) : Store :=
  let s := news.foldl (fun s a => s.blkfree a g.bsize) s
  let s := match allocib with
    | none => s
    | some k => s.setIb k 0
  { s with ino := { s.ino with blocks := s.ino.blocks - Geom.btodb (news.length * g.bsize) } }

/-- What is returned, after `fail` if there is an error. -/
def Fetched.finish (r : Fetched) (allocib : Option ℕ) : Store × Option Err :=
  match r.err with
  | none => (r.s, none)
  | some e => (fail g r.s r.news allocib, some e)

/-- `ffs_balloc` for a block that is not direct, with the path that `ufs_getlbns` finds. -/
def indirect (k : ℕ) (path : List Indir) : Store × Option Err :=
  if s.ino.ib k = 0 then
    match alloc s g.bsize (env.alloc 1) with
    | none => (s, some .enospc)
    | some (s, nb) =>
      if env.bwrite 1 = false then (fail g (s.clear nb) [nb] none, some .eio)
      else
        let r := fetch g env path 1 nb ((s.clear nb).setIb k nb)
        Fetched.finish g ⟨r.s, nb :: r.news, r.err⟩ (some k)
  else (fetch g env path 1 (s.ino.ib k) s).finish g none

/-- `ffs_realloccg` of a direct block; `none` is the panic for a hole. -/
def realloccg (lbn osize nsize : ℕ) : Option (Store × Option Err) :=
  let bprev := s.ino.db lbn
  let grown (s : Store) (a : ℕ) : Store :=
    { s with ino := { s.ino with
        db := update s.ino.db lbn a
        blocks := s.ino.blocks + Geom.btodb (nsize - osize) } }
  match env.realloc with
  | none => some (s, some .enospc)
  | some a =>
    if bprev = 0 then none
    else if a = bprev then some (grown s a, none)
    else if a ≠ 0 ∧ s.used a = false then
      some (grown ({ s with used := update s.used a true }.blkfree bprev osize) a, none)
    else some (s, some .enospc)

/-- The fragment at the end of the file, if it has to be extended to a block first. -/
def fragment (lbn : ℕ) : Option (ℕ × ℕ) :=
  let nb := g.lblkno s.ino.size
  let osize := blksize g s.ino nb
  if nb < ndaddr ∧ nb < lbn ∧ osize < g.bsize ∧ 0 < osize then some (nb, osize) else none

/-- `ffs_balloc`, where it extends the last fragment. -/
def extendLast (lbn : ℕ) : Option (Store × Option Err) :=
  match fragment g s lbn with
  | none => some (s, none)
  | some (nb, osize) =>
    (realloccg env s nb osize g.bsize).map fun (t, err) =>
      match err with
      | some e => (t, some e)
      | none => ({ t with ino := { t.ino with size := (nb + 1) * g.bsize } }, none)

/-- `ffs_balloc` for a direct block. -/
def direct (lbn size : ℕ) : Option (Store × Option Err) :=
  let nb := s.ino.db lbn
  if nb ≠ 0 ∧ (lbn + 1) * g.bsize ≤ s.ino.size then
    some (s, if env.bread 0 then none else some .eio)
  else if nb ≠ 0 then
    let osize := g.fragroundup (g.blkoff s.ino.size)
    let nsize := g.fragroundup size
    if nsize ≤ osize then some (s, if env.bread 0 then none else some .eio)
    else realloccg env s lbn osize nsize
  else
    let nsize := if s.ino.size < (lbn + 1) * g.bsize then g.fragroundup size else g.bsize
    match alloc s nsize (env.alloc 0) with
    | none => some (s, some .enospc)
    | some (s, newb) => some (s.setDb lbn newb, none)

/-- `ffs_balloc` -/
def balloc (lbn size : ℕ) : Option (Store × Option Err) :=
  match extendLast g env s lbn with
  | none => none
  | some (s, some e) => some (s, some e)
  | some (s, none) =>
    if lbn < ndaddr then direct g env s lbn size
    else
      match getlbns g.n lbn with
      | none => some (s, some .efbig)
      | some [] => some (s, none)
      | some (top :: path) => some (indirect g env s top.off path)

/-! ## What can be reached -/

/-- The blocks that can be reached from the inode, with their places. -/
def nodes : List (Node ℕ) :=
  ((List.range ndaddr).flatMap fun i => slot g.n s.mem 0 i (s.ino.db i)) ++
    (List.range niaddr).flatMap fun k => slot g.n s.mem (k + 1) (start g.n k) (s.ino.ib k)

/-- The blocks that can be reached from the inode. -/
def reach : List ℕ := (nodes g s).map Node.addr

/-- **A consistent block map**: no block is named twice, and all are in use. -/
structure Consistent (s : Store) : Prop where
  nodup : (reach g s).Nodup
  used : ∀ a ∈ reach g s, s.used a = true

/-- **Nothing is left of a call.**  No block that it has freed can be reached, and what can be
reached and `i_blocks` are as before. -/
structure Undone (s t : Store) : Prop where
  freed : ∃ l, t.freed = s.freed ++ l ∧ ∀ p ∈ l, p.1 ∉ reach g t
  reach : ∀ a, a ∈ reach g t ↔ a ∈ reach g s
  blocks : t.ino.blocks = s.ino.blocks

/-- A new indirect block is linked into one that was there, on the way from the block `a`. -/
def Links (env : Env) (s : Store) : (path : List Indir) → (i a : ℕ) → Prop
  | [], _, _ => False
  | [_], _, _ => False
  | p :: q :: path, i, a =>
    env.bread i = true ∧
      if s.mem a p.off ≠ 0 then Links env s (q :: path) (i + 1) (s.mem a p.off)
      else (alloc s g.bsize (env.alloc (i + 1))).isSome = true ∧ env.bwrite (i + 1) = true

/-- **A new indirect block is linked into an old one.** -/
def Linked (lbn : ℕ) : Prop :=
  match getlbns g.n lbn with
  | some (top :: path) => s.ino.ib top.off ≠ 0 ∧ Links g env s path 1 (s.ino.ib top.off)
  | _ => False

/-! ## The loop -/

variable {g} {env : Env} {s t : Store} {size b x : ℕ} {found : Option ℕ}

/-- Only `i_blocks` changes in the inode. -/
structure Counts (ino ino' : Inode) (n : ℤ) : Prop where
  db : ino'.db = ino.db
  ib : ino'.ib = ino.ib
  size : ino'.size = ino.size
  blocks : ino'.blocks = ino.blocks + n

/-- What an allocation does. -/
structure Allocd (s t : Store) (size b : ℕ) : Prop where
  ne : b ≠ 0
  fresh : s.used b = false
  mem : t.mem = s.mem
  freed : t.freed = s.freed
  used : t.used = update s.used b true
  ino : Counts s.ino t.ino (Geom.btodb size)

theorem alloc_spec (h : alloc s size found = some (t, b)) : Allocd s t size b := by
  unfold alloc at h
  split at h
  · cases h
  split at h
  · next hfree =>
    cases h
    exact ⟨hfree.1, hfree.2, rfl, rfl, rfl, rfl, rfl, rfl, rfl⟩
  · cases h

/-- A block in use is none of the new ones. -/
theorem not_mem_of_used {news : List ℕ} (fresh : ∀ b ∈ news, s.used b = false)
    (used : s.used x = true) : x ∉ news :=
  fun new => Bool.false_ne_true ((fresh x new).symm.trans used)

theorem Allocd.ne_of_used (h : Allocd s t size b) (used : s.used x = true) : x ≠ b := by
  rintro rfl
  exact Bool.false_ne_true (h.fresh.symm.trans used)

/-- What the loop does. -/
structure Fetches (g : Geom) (s : Store) (r : Fetched) : Prop where
  fresh : ∀ b ∈ r.news, b ≠ 0 ∧ s.used b = false
  ino : Counts s.ino r.s.ino (r.news.length * Geom.btodb g.bsize : ℕ)
  freed : r.s.freed = s.freed
  old : ∀ x ∉ r.news, ∀ j, s.mem x j ≠ 0 → r.s.mem x j = s.mem x j

theorem Fetches.not_mem {r : Fetched} (h : Fetches g s r) (used : s.used x = true) : x ∉ r.news :=
  not_mem_of_used (fun b hb => (h.fresh b hb).2) used

theorem fetches_none (err : Option Err) : Fetches g s ⟨s, [], err⟩ where
  fresh := by simp
  ino := ⟨rfl, rfl, rfl, by simp⟩
  freed := rfl
  old _ _ _ _ := rfl

theorem Store.link_mem {a off x j : ℕ} :
    (s.link a off b).mem x j = if x = a ∧ j = off then b else s.mem x j := by
  rw [Store.link]
  dsimp only
  by_cases hx : x = a
  · subst hx
    rw [update_self, update_apply]
    simp
  · rw [update_of_ne hx, if_neg fun h => hx h.1]

theorem Store.clear_mem_of_ne {a x : ℕ} (hne : x ≠ a) : (s.clear a).mem x = s.mem x :=
  update_of_ne hne ..

/-- A new block, cleared and linked. -/
theorem Allocd.linked {a off x j : ℕ} (h : Allocd s t size b) (hne : x ≠ b) :
    ((t.clear b).link a off b).mem x j = if x = a ∧ j = off then b else s.mem x j := by
  rw [Store.link_mem, Store.clear_mem_of_ne hne, h.mem]

theorem Allocd.fetches {u : Store} {err : Option Err} (h : Allocd s t g.bsize b)
    (ino : u.ino = t.ino) (freed : u.freed = t.freed)
    (old : ∀ x ≠ b, ∀ j, s.mem x j ≠ 0 → u.mem x j = s.mem x j) : Fetches g s ⟨u, [b], err⟩ where
  fresh := by simp [h.ne, h.fresh]
  ino := by simpa [ino] using h.ino
  freed := freed.trans h.freed
  old x hx := old x (by simpa using hx)

theorem fetch_spec (env : Env) (path : List Indir) (i a : ℕ) (s : Store) :
    Fetches g s (fetch g env path i a s) := by
  fun_induction fetch g env path i a s with
  | case1 | case2 | case3 | case5 | case6 | case7 | case9 => exact fetches_none _
  | case4 p i a s _ hnull t b halloc =>
    have spec := alloc_spec halloc
    refine spec.fetches rfl rfl fun x _ j hne => ?_
    rw [Store.link_mem, if_neg, spec.mem]
    rintro ⟨rfl, rfl⟩
    exact hne hnull
  | case8 => assumption
  | case10 p q path i a s _ hnull t b halloc _ =>
    have spec := alloc_spec halloc
    refine spec.fetches rfl rfl fun x hx j _ => ?_
    rw [Store.clear_mem_of_ne hx, spec.mem]
  | case11 p q path i a s _ hnull t b halloc _ r ih =>
    have spec := alloc_spec halloc
    have hused : ∀ x, ((t.clear b).link a p.off b).used x = update s.used b true x :=
      congrFun spec.used
    change Fetches g _ r at ih
    constructor
    case fresh =>
      intro x hx
      rcases mem_cons.mp hx with rfl | hx
      · exact ⟨spec.ne, spec.fresh⟩
      · obtain ⟨hne, hfresh⟩ := ih.fresh x hx
        rw [hused, update_apply] at hfresh
        split_ifs at hfresh
        exact ⟨hne, hfresh⟩
    case ino =>
      refine ⟨ih.ino.db.trans spec.ino.db, ih.ino.ib.trans spec.ino.ib,
        ih.ino.size.trans spec.ino.size, ih.ino.blocks.trans ?_⟩
      change t.ino.blocks + _ = _
      rw [spec.ino.blocks, length_cons]
      push_cast
      ring
    case freed => exact ih.freed.trans spec.freed
    case old =>
      intro x hx j hne
      obtain ⟨hxb, hxr⟩ := ne_and_not_mem_of_not_mem_cons hx
      have hlink : ((t.clear b).link a p.off b).mem x j = s.mem x j := by
        rw [spec.linked hxb, if_neg]
        rintro ⟨rfl, rfl⟩
        exact hnull hne
      rw [← hlink]
      exact ih.old x hxr j (hlink ▸ hne)

/-- Below a new block only new blocks are written. -/
theorem fetch_new (env : Env) (path : List Indir) (i a : ℕ) (s : Store) (hused : s.used a = true)
    (null : ∀ j, s.mem a j = 0) :
    ∀ x ∉ a :: (fetch g env path i a s).news, (fetch g env path i a s).s.mem x = s.mem x := by
  fun_induction fetch g env path i a s with
  | case1 | case2 | case3 | case5 | case6 | case7 | case9 => exact fun _ _ => rfl
  | case4 p i a s _ _ t b halloc =>
    intro x hx
    have hxa : x ≠ a := ne_of_not_mem_cons hx
    funext j
    rw [Store.link_mem, if_neg fun h => hxa h.1, (alloc_spec halloc).mem]
  | case8 p q path i a s _ hne ih => exact absurd (null _) hne
  | case10 p q path i a s _ _ t b halloc _ =>
    intro x hx
    have hxb : x ≠ b := fun h => hx (by simp [h])
    rw [Store.clear_mem_of_ne hxb, (alloc_spec halloc).mem]
  | case11 p q path i a s _ _ t b halloc _ r ih =>
    have spec := alloc_spec halloc
    have hab := spec.ne_of_used hused
    have hnull : ∀ j, ((t.clear b).link a p.off b).mem b j = 0 := fun j => by
      rw [Store.link_mem, if_neg fun h => hab h.1.symm]
      simp [Store.clear]
    have hb : ((t.clear b).link a p.off b).used b = true := by
      change t.used b = true
      rw [spec.used, update_self]
    intro x hx
    obtain ⟨hxa, hx⟩ := ne_and_not_mem_of_not_mem_cons hx
    rw [show r.s.mem x = _ from ih hb hnull x hx]
    funext j
    rw [spec.linked (ne_of_not_mem_cons hx), if_neg fun h => hxa h.1]

/-- A failure before a new block is linked. -/
theorem fetch_not_links (path : List Indir) (i a : ℕ) (s : Store)
    (herr : (fetch g env path i a s).err ≠ none) (hlinks : ¬ Links g env s path i a) :
    ∀ x ∉ (fetch g env path i a s).news, (fetch g env path i a s).s.mem x = s.mem x := by
  fun_induction fetch g env path i a s with
  | case1 | case2 | case3 | case5 | case6 | case7 | case9 => exact fun _ _ => rfl
  | case4 => exact absurd rfl herr
  | case8 p q path i a s hread hne ih =>
    refine ih herr fun h => hlinks ⟨Bool.eq_true_of_not_eq_false hread, ?_⟩
    rwa [if_pos hne]
  | case10 p q path i a s _ _ t b halloc _ =>
    intro x hx
    rw [Store.clear_mem_of_ne (by simpa using hx), (alloc_spec halloc).mem]
  | case11 p q path i a s hread hnull t b halloc hwrite r ih =>
    refine absurd ⟨Bool.eq_true_of_not_eq_false hread, ?_⟩ hlinks
    rw [if_neg hnull, halloc]
    exact ⟨rfl, Bool.eq_true_of_not_eq_false hwrite⟩

/-- **A new block can be reached** through the old block it is linked into. -/
theorem fetch_links {d pos : ℕ} (path : List Indir) (i a : ℕ) (s : Store)
    (lt : ∀ p ∈ path, p.off < g.n) (le : path.length ≤ d)
    (used : ∀ x ∈ (tree g.n s.mem d pos a).map Node.addr, s.used x = true)
    (hlinks : Links g env s path i a) :
    ∃ os, os <+: path.map Indir.off ∧ walk (fetch g env path i a s).s.mem a os ∈
        (fetch g env path i a s).news ∧
      ∀ os', os' ≠ [] → os' <+: os → walk (fetch g env path i a s).s.mem a os' ≠ 0 := by
  fun_induction fetch g env path i a s generalizing d pos with
  | case1 | case2 | case3 | case4 | case5 | case6 => exact absurd hlinks id
  | case7 p q path i a s hread => exact absurd hread (by simp [hlinks.1])
  | case9 p q path i a s _ hnull hnone =>
    have := hlinks.2
    rw [if_neg hnull, hnone] at this
    cases this.1
  | case10 p q path i a s _ hnull t b halloc hwrite =>
    have := hlinks.2
    rw [if_neg hnull, hwrite] at this
    cases this.2
  | case8 p q path i a s _ hne ih =>
    cases d with
    | zero => cases le
    | succ d =>
      have hlt : p.off < g.n := lt p (mem_cons_self ..)
      have hbelow := hlinks.2
      rw [if_pos hne] at hbelow
      have hused : ∀ x ∈ (tree g.n s.mem d (pos + p.off * g.n ^ d)
          (s.mem a p.off)).map Node.addr, s.used x = true := fun x hx => by
        obtain ⟨y, hy, rfl⟩ := mem_map.mp hx
        exact used _ (mem_map.mpr ⟨y, mem_tree_child hlt hne hy, rfl⟩)
      obtain ⟨os, hpre, hnew, hnull⟩ := ih (fun p hp => lt p (mem_cons_of_mem _ hp))
        (le_of_succ_le_succ le) hused hbelow
      -- an old block changes only where it had no pointer
      have hstay : (fetch g env (q :: path) (i + 1) (s.mem a p.off) s).s.mem a p.off =
          s.mem a p.off := by
        have fetched := fetch_spec (g := g) env (q :: path) (i + 1) (s.mem a p.off) s
        exact fetched.old a (fetched.not_mem (used a (mem_map.mpr ⟨_, root_mem, rfl⟩))) _ hne
      refine ⟨p.off :: os, cons_prefix_cons.mpr ⟨rfl, hpre⟩, ?_, ?_⟩
      · rw [walk, hstay]
        exact hnew
      · intro os' hos' hpre'
        cases os' with
        | nil => exact absurd rfl hos'
        | cons o os' =>
          obtain ⟨rfl, hrest⟩ := cons_prefix_cons.mp hpre'
          rw [walk, hstay]
          cases os' with
          | nil => exact hne
          | cons o os' => exact hnull _ (by simp) hrest
  | case11 p q path i a s _ hnull t b halloc _ r =>
    have spec := alloc_spec halloc
    have hused := used a (mem_map.mpr ⟨_, root_mem, rfl⟩)
    have hab := spec.ne_of_used hused
    have fetched : Fetches g ((t.clear b).link a p.off b) r := fetch_spec _ _ _ _ _
    have hlink : ((t.clear b).link a p.off b).mem a p.off = b := by
      rw [spec.linked hab, if_pos ⟨rfl, rfl⟩]
    have hstay : r.s.mem a p.off = b := by
      refine (fetched.old a (fetched.not_mem ?_) p.off (by rw [hlink]; exact spec.ne)).trans hlink
      change t.used a = true
      rw [spec.used, update_of_ne hab, hused]
    refine ⟨[p.off], by simp, ?_, ?_⟩
    · rw [walk, hstay]
      exact mem_cons_self ..
    · intro os' hos' hpre'
      cases os' with
      | nil => exact absurd rfl hos'
      | cons o os' =>
        obtain ⟨rfl, hrest⟩ := cons_prefix_cons.mp hpre'
        rw [prefix_nil.mp hrest, walk, hstay]
        exact spec.ne

/-! ## A failure -/

theorem Geom.btodb_mul (k : ℕ) : Geom.btodb (k * g.bsize) = k * Geom.btodb g.bsize := by
  exact Nat.mul_div_assoc _ (g.dev.trans g.fsize_dvd)

theorem foldl_blkfree (size : ℕ) (news : List ℕ) (s : Store) :
    (news.foldl (fun s a => s.blkfree a size) s).mem = s.mem ∧
      (news.foldl (fun s a => s.blkfree a size) s).ino = s.ino ∧
      (news.foldl (fun s a => s.blkfree a size) s).freed = s.freed ++ news.map (·, size) := by
  induction news generalizing s with
  | nil => simp
  | cons a news ih =>
    obtain ⟨hmem, hino, hfreed⟩ := ih (s.blkfree a size)
    refine ⟨hmem, hino, hfreed.trans ?_⟩
    simp [Store.blkfree]

/-- What is left after a failure. -/
theorem fail_spec (s : Store) (news : List ℕ) (allocib : Option ℕ) :
    (fail g s news allocib).mem = s.mem ∧
      (fail g s news allocib).freed = s.freed ++ news.map (·, g.bsize) ∧
      (fail g s news allocib).ino.db = s.ino.db ∧
      (fail g s news allocib).ino.ib = match allocib with
        | none => s.ino.ib
        | some k => update s.ino.ib k 0 := by
  cases allocib <;> simp [fail, Store.setIb, foldl_blkfree]

theorem fail_blocks (s : Store) (news : List ℕ) (allocib : Option ℕ) :
    (fail g s news allocib).ino.blocks =
      s.ino.blocks - (news.length * Geom.btodb g.bsize : ℕ) := by
  rw [← Geom.btodb_mul]
  cases allocib <;> simp [fail, Store.setIb, foldl_blkfree]

theorem mem_nodes {x : Node ℕ} : x ∈ nodes g s ↔
    (∃ i < ndaddr, x ∈ slot g.n s.mem 0 i (s.ino.db i)) ∨
      ∃ k < niaddr, x ∈ slot g.n s.mem (k + 1) (start g.n k) (s.ino.ib k) := by
  simp only [nodes, mem_append, mem_flatMap, mem_range]

/-- The blocks that can be reached do not change if no block in use does. -/
theorem nodes_congr (consistent : Consistent g s) (db : t.ino.db = s.ino.db)
    (ib : t.ino.ib = s.ino.ib) (mem : ∀ x, s.used x = true → t.mem x = s.mem x) :
    nodes g t = nodes g s := by
  have same : ∀ x ∈ nodes g s, x.depth ≠ 0 → ∀ j < g.n, t.mem x.addr j = s.mem x.addr j :=
    fun x hx _ j _ => by rw [mem _ (consistent.used _ (mem_map_of_mem hx))]
  rw [nodes, db, ib]
  refine congrArg₂ _ ?_ ?_
  · exact flatMap_congr fun i hi => slot_congr fun x hx => same x
      (mem_nodes.mpr (.inl ⟨i, mem_range.mp hi, hx⟩))
  · exact flatMap_congr fun k hk => slot_congr fun x hx => same x
      (mem_nodes.mpr (.inr ⟨k, mem_range.mp hk, hx⟩))

/-- **A failure that leaves no trace**: only new blocks have been written and freed. -/
theorem undone_of_fresh {news : List ℕ} (consistent : Consistent g s) (db : t.ino.db = s.ino.db)
    (ib : t.ino.ib = s.ino.ib) (blocks : t.ino.blocks = s.ino.blocks)
    (mem : ∀ x, s.used x = true → t.mem x = s.mem x)
    (freed : t.freed = s.freed ++ news.map (·, g.bsize))
    (fresh : ∀ b ∈ news, s.used b = false) : Undone g s t := by
  have hreach : reach g t = reach g s := by
    rw [reach, nodes_congr consistent db ib mem, reach]
  refine ⟨⟨_, freed, fun p hp => ?_⟩, fun a => by rw [hreach], blocks⟩
  obtain ⟨b, hb, rfl⟩ := mem_map.mp hp
  rw [hreach]
  exact fun hmem => not_mem_of_used fresh (consistent.used b hmem) hb

variable {k : ℕ} {path : List Indir} {e : Err}

theorem finish_error {r : Fetched} {allocib : Option ℕ} (h : r.finish g allocib = (t, some e)) :
    r.err = some e ∧ t = fail g r.s r.news allocib := by
  unfold Fetched.finish at h
  split at h
  · cases h
  · next e' herr =>
    cases h
    exact ⟨herr, rfl⟩

/-- Whatever happens to the pointers, `i_blocks` is restored. -/
theorem indirect_blocks (h : indirect g env s k path = (t, some e)) :
    t.ino.blocks = s.ino.blocks := by
  unfold indirect at h
  by_cases hib : s.ino.ib k = 0
  · rw [if_pos hib] at h
    split at h
    · cases h
      rfl
    next s₁ nb halloc =>
    have hblocks := (alloc_spec halloc).ino.blocks
    split at h
    · cases h
      change s₁.ino.blocks - _ = _
      rw [hblocks]
      simp
    · obtain ⟨-, rfl⟩ := finish_error h
      rw [fail_blocks, (fetch_spec env path 1 nb ((s₁.clear nb).setIb k nb)).ino.blocks]
      change s₁.ino.blocks + _ - _ = _
      rw [hblocks, length_cons]
      push_cast
      ring
  · rw [if_neg hib] at h
    obtain ⟨-, rfl⟩ := finish_error h
    rw [fail_blocks, (fetch_spec env path 1 (s.ino.ib k) s).ino.blocks, add_sub_cancel_right]

/-- The block at the top is new. -/
theorem undone_of_top (consistent : Consistent g s) (hib : s.ino.ib k = 0)
    (h : indirect g env s k path = (t, some e)) : Undone g s t := by
  have hblocks := indirect_blocks h
  rw [indirect, if_pos hib] at h
  split at h
  · cases h
    exact ⟨⟨[], by simp⟩, fun _ => Iff.rfl, rfl⟩
  next s₁ nb halloc =>
  have spec := alloc_spec halloc
  split at h
  · cases h
    obtain ⟨hmem, hfreed, hdb, hib'⟩ := fail_spec (s₁.clear nb) [nb] none
    refine undone_of_fresh consistent (hdb.trans spec.ino.db) (hib'.trans spec.ino.ib) hblocks
      (fun x hx => ?_) (hfreed.trans (congrArg (· ++ _) spec.freed)) (by simpa using spec.fresh)
    · rw [hmem, Store.clear_mem_of_ne (spec.ne_of_used hx), spec.mem]
  · obtain ⟨-, rfl⟩ := finish_error h
    have fetched := fetch_spec (g := g) env path 1 nb ((s₁.clear nb).setIb k nb)
    have hnew := fetch_new (g := g) env path 1 nb ((s₁.clear nb).setIb k nb)
      (by simp [Store.setIb, Store.clear, spec.used]) (by simp [Store.setIb, Store.clear])
    generalize fetch g env path 1 nb ((s₁.clear nb).setIb k nb) = r at fetched hnew hblocks ⊢
    obtain ⟨hmem, hfreed, hdb, hib'⟩ := fail_spec r.s (nb :: r.news) (some k)
    have hfresh : ∀ b ∈ nb :: r.news, s.used b = false := by
      intro b hb
      rcases mem_cons.mp hb with rfl | hb
      · exact spec.fresh
      · have := (fetched.fresh b hb).2
        change s₁.used b = false at this
        rw [spec.used, update_apply] at this
        split_ifs at this
        exact this
    refine undone_of_fresh consistent (hdb.trans (fetched.ino.db.trans spec.ino.db)) (hib'.trans ?_)
      hblocks (fun x hx => ?_) ?_ hfresh
    · rw [fetched.ino.ib]
      change update (update s₁.ino.ib k nb) k 0 = s.ino.ib
      rw [update_idem, spec.ino.ib, ← hib, update_eq_self]
    · rw [hmem, hnew x (not_mem_of_used hfresh hx)]
      change (s₁.clear nb).mem x = s.mem x
      rw [Store.clear_mem_of_ne (spec.ne_of_used hx), spec.mem]
    · rw [hfreed, fetched.freed]
      exact congrArg (· ++ _) spec.freed

theorem mem_reach_of_top (hk : k < niaddr) (hib : s.ino.ib k ≠ 0)
    (hx : x ∈ (tree g.n s.mem (k + 1) (start g.n k) (s.ino.ib k)).map Node.addr) :
    x ∈ reach g s := by
  obtain ⟨y, hy, rfl⟩ := mem_map.mp hx
  exact mem_map_of_mem (mem_nodes.mpr (.inr ⟨k, hk, mem_slot.mpr ⟨hib, hy⟩⟩))

/-- The block at the top is an old one. -/
theorem undone_iff_not_links (consistent : Consistent g s) (hk : k < niaddr)
    (lt : ∀ p ∈ path, p.off < g.n) (len : path.length = k + 1) (hib : s.ino.ib k ≠ 0)
    (h : indirect g env s k path = (t, some e)) :
    Undone g s t ↔ ¬ Links g env s path 1 (s.ino.ib k) := by
  have hblocks := indirect_blocks h
  rw [indirect, if_neg hib] at h
  obtain ⟨herr, rfl⟩ := finish_error h
  have fetched := fetch_spec (g := g) env path 1 (s.ino.ib k) s
  have hlinked (links : Links g env s path 1 (s.ino.ib k)) := fetch_links path 1 _ s lt len.le
    (fun x hx => consistent.used x (mem_reach_of_top hk hib hx)) links
  have hkept := fetch_not_links path 1 (s.ino.ib k) s (by rw [herr]; simp)
  generalize fetch g env path 1 (s.ino.ib k) s = r at *
  obtain ⟨hmem, hfreed, hdb, hib'⟩ := fail_spec r.s r.news none
  rw [fetched.freed] at hfreed
  constructor
  · rintro ⟨⟨l, hl, notReached⟩, -, -⟩ hlinks
    obtain ⟨os, hpre, hnew, hne⟩ := hlinked hlinks
    obtain rfl : r.news.map (·, g.bsize) = l := append_cancel_left (hfreed.symm.trans hl)
    refine notReached _ (mem_map_of_mem hnew) (mem_reach_of_top hk ?_ ?_)
    · rw [hib', fetched.ino.ib]
      exact hib
    · rw [hmem, hib', fetched.ino.ib]
      refine mem_tree_walk ?_ (fun o ho => ?_) hne
      · exact hpre.length_le.trans (by rw [length_map, len])
      · obtain ⟨p, hp, rfl⟩ := mem_map.mp (hpre.subset ho)
        exact lt p hp
  · intro hlinks
    refine undone_of_fresh consistent (hdb.trans fetched.ino.db) (hib'.trans fetched.ino.ib)
      hblocks (fun x hx => ?_) hfreed fun b hb => (fetched.fresh b hb).2
    rw [hmem, hkept hlinks x (fetched.not_mem hx)]

/-! ## Every failure -/

/-- The extension of the last fragment is refused. -/
def Refused (env : Env) (s : Store) (nb : ℕ) : Prop :=
  ∀ a, env.realloc = some a → a ≠ s.ino.db nb ∧ (a = 0 ∨ s.used a = true)

variable (g) in
/-- **When a failure leaves no trace.**  There is a fragment to extend, and that fails; or there
is none, and no new block is linked into an old one. -/
def Traceless (env : Env) (s : Store) (lbn : ℕ) : Prop :=
  match fragment g s lbn with
  | some (nb, _) => Refused env s nb
  | none => ¬ Linked g env s lbn

variable {lbn : ℕ}

/-- There is at least one fragment to add. -/
theorem btodb_fragment_pos {nb osize : ℕ} (h : fragment g s lbn = some (nb, osize)) :
    0 < Geom.btodb (g.bsize - osize) := by
  unfold fragment at h
  dsimp only at h
  split_ifs at h with hcond
  cases h
  have hdvd : g.fsize ∣ blksize g s.ino (g.lblkno s.ino.size) := by
    unfold blksize
    split_ifs
    · exact g.fsize_dvd
    · exact Dvd.intro_left _ rfl
  have hle : g.fsize ≤ g.bsize - blksize g s.ino (g.lblkno s.ino.size) :=
    le_of_dvd (by omega) (dvd_sub g.fsize_dvd hdvd)
  have := le_of_dvd g.fsize_pos g.dev
  exact div_pos (by omega) (by decide)

theorem realloccg_error {osize nsize nb : ℕ}
    (h : realloccg env s nb osize nsize = some (t, some e)) : t = s ∧ Refused env s nb := by
  unfold realloccg at h
  dsimp only at h
  split at h
  · next hnone =>
    cases h
    exact ⟨rfl, fun a ha => by rw [hnone] at ha; cases ha⟩
  · next a ha =>
    split_ifs at h with h0 hprev hfree
    · cases h
    · cases h
    · cases h
      refine ⟨rfl, fun b hb => ?_⟩
      obtain rfl : a = b := Option.some.inj (ha.symm.trans hb)
      refine ⟨hprev, ?_⟩
      by_contra hnot
      rw [not_or] at hnot
      exact hfree ⟨hnot.1, by simpa using hnot.2⟩

theorem realloccg_ok {osize nsize nb : ℕ} (h : realloccg env s nb osize nsize = some (t, none)) :
    t.ino.blocks = s.ino.blocks + Geom.btodb (nsize - osize) ∧ ¬ Refused env s nb := by
  unfold realloccg at h
  dsimp only at h
  split at h
  · cases h
  · next a ha =>
    split_ifs at h with h0 hprev hfree
    · cases h
      exact ⟨rfl, fun hrefused => (hrefused a ha).1 hprev⟩
    · cases h
      refine ⟨rfl, fun hrefused => ?_⟩
      rcases (hrefused a ha).2 with hzero | hused
      · exact hfree.1 hzero
      · rw [hfree.2] at hused
        cases hused
    · cases h

/-- Behind the fragment, `i_blocks` is restored or was never changed. -/
theorem balloc_rest_blocks (hge : ndaddr ≤ lbn)
    (h : (if lbn < ndaddr then direct g env s lbn size
      else match getlbns g.n lbn with
        | none => some (s, some .efbig)
        | some [] => some (s, none)
        | some (top :: path) => some (indirect g env s top.off path)) = some (t, some e)) :
    t.ino.blocks = s.ino.blocks := by
  rw [if_neg (not_lt.mpr hge)] at h
  split at h
  · cases h
    rfl
  · cases h
  · exact indirect_blocks (Option.some.inj h)

/-- Where there is no fragment to extend. -/
theorem balloc_eq_indirect {top : Indir} (env : Env) (size : ℕ) (hge : ndaddr ≤ lbn)
    (hfrag : fragment g s lbn = none) (hpath : getlbns g.n lbn = some (top :: path)) :
    balloc g env s lbn size = some (indirect g env s top.off path) := by
  rw [balloc, extendLast, hfrag]
  dsimp only
  rw [if_neg (not_lt.mpr hge), hpath]

/-- **Every failure in the indirect range.**  It leaves no trace if and only if no fragment has
been extended and no new indirect block linked into an old one. -/
theorem balloc_undone_iff (g : Geom) (env : Env) (s t : Store) (lbn size : ℕ) (e : Err)
    (consistent : Consistent g s) (hge : ndaddr ≤ lbn)
    (h : balloc g env s lbn size = some (t, some e)) : Undone g s t ↔ Traceless g env s lbn := by
  unfold Traceless
  rcases hfrag : fragment g s lbn with _ | ⟨nb, osize⟩
  · rcases getlbns_cases g.toNindir hge with hnone | ⟨k, b, hk, -, -, -, hpath⟩
    · rw [balloc, extendLast, hfrag] at h
      dsimp only at h
      rw [if_neg (not_lt.mpr hge), hnone] at h
      cases h
      refine iff_of_true ⟨⟨[], by simp⟩, fun _ => Iff.rfl, rfl⟩ ?_
      simp [Linked, hnone]
    · rw [balloc_eq_indirect env size hge hfrag hpath] at h
      rw [Linked, hpath]
      have hfail := Option.some.inj h
      by_cases hib : s.ino.ib k = 0
      · exact iff_of_true (undone_of_top consistent hib hfail) fun hlinked => hlinked.1 hib
      · rw [undone_iff_not_links consistent hk (off_pathOf _) length_pathOf hib hfail]
        exact ⟨fun hnot hlinked => hnot hlinked.2, fun hnot hlinks => hnot ⟨hib, hlinks⟩⟩
  · rw [balloc, extendLast, hfrag] at h
    dsimp only at h
    rcases hre : realloccg env s nb osize g.bsize with _ | ⟨s₁, _ | e₁⟩
    · rw [hre] at h
      cases h
    · rw [hre] at h
      obtain ⟨hblocks, hnot⟩ := realloccg_ok hre
      refine iff_of_false (fun hundone => ?_) hnot
      have hrest := (balloc_rest_blocks hge h).symm.trans hundone.blocks
      have := btodb_fragment_pos hfrag
      change s₁.ino.blocks = _ at hrest
      omega
    · rw [hre] at h
      cases h
      obtain ⟨rfl, hrefused⟩ := realloccg_error hre
      exact iff_of_true ⟨⟨[], by simp⟩, fun _ => Iff.rfl, rfl⟩ hrefused

/-! ## A full disk -/

/-- Blocks of 4096 bytes and fragments of 512. -/
def fourK : Geom where
  n := 1024
  pos := by decide
  square := by decide
  cube := .inl (by decide)
  fsize := 512
  fsize_pos := by decide
  dev := by decide
  fsize_dvd := by decide

/-- A sparse file: only the double indirect block 30 is there. -/
def sparse : Store where
  ino := ⟨fun _ => 0, fun k => if k = 1 then 30 else 0, 4096 * 2060, 8⟩
  mem := fun _ _ => 0
  used := (· == 30)
  freed := []

/-- Block 40 is the last free one; `ffs_alloc` finds it for the indirect block of level `i`. -/
def lastBlock (i : ℕ) : Env where
  bread := fun _ => true
  alloc := fun j => if j = i then some 40 else none
  bwrite := fun _ => true
  realloc := none
  clrbuf := true

theorem reach_sparse : reach fourK sparse = [30] := by
  have none (l : List ℕ) : l.flatMap (fun _ => ([] : List (Node ℕ))) = [] :=
    flatMap_eq_nil_iff.mpr fun _ _ => rfl
  simp [reach, nodes, slot, tree, sparse, niaddr, range_succ, none]

theorem consistent_sparse : Consistent fourK sparse where
  nodup := by simp [reach_sparse]
  used := by
    rw [reach_sparse]
    simp [sparse]

theorem balloc_undone_iff_single : Consistent fourK sparse ∧ ndaddr ≤ 12 ∧
    ∃ t, balloc fourK (lastBlock 1) sparse 12 4096 = some (t, some .enospc) ∧
      Undone fourK sparse t := by
  have hpath : getlbns fourK.n (12 : ℕ) = some [⟨-12, 0⟩, ⟨-12, 0⟩] := by decide +kernel
  have hfrag : fragment fourK sparse 12 = none := by decide +kernel
  have hfail := balloc_eq_indirect (lastBlock 1) 4096 (by decide) hfrag hpath
  refine ⟨consistent_sparse, by decide, _, hfail.trans rfl, ?_⟩
  refine (balloc_undone_iff fourK (lastBlock 1) sparse _ 12 4096 .enospc consistent_sparse
    (by decide) hfail).mpr ?_
  rw [Traceless]
  rw [Linked, hpath]
  exact fun h => h.1 rfl

/-- Under the double indirect block, the new indirect block is freed and stays linked. -/
theorem freed_still_linked : Consistent fourK sparse ∧
    ∃ t, balloc fourK (lastBlock 2) sparse (12 + 1024) 4096 = some (t, some .enospc) ∧
      (40, 4096) ∈ t.freed ∧ 40 ∈ reach fourK t := by
  have hpath : getlbns fourK.n (12 + 1024 : ℕ) =
      some [⟨-1037, 1⟩, ⟨-1037, 0⟩, ⟨-1036, 0⟩] := by decide +kernel
  have hfrag : fragment fourK sparse (12 + 1024) = none := by decide +kernel
  have hfail := balloc_eq_indirect (lastBlock 2) 4096 (by decide) hfrag hpath
  refine ⟨consistent_sparse, _, hfail.trans rfl, by decide, ?_⟩
  refine mem_reach_of_top (k := 1) (by decide) (by decide) ?_
  refine mem_map.mpr ⟨⟨1036, 1, 40⟩, mem_tree_child (j := 0) (by decide) (by decide) ?_, rfl⟩
  exact root_mem

end BSDLite2.Ffs.Balloc
