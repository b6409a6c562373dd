import BSDLite2.Ffs.Indirtrunc

/-!
# Shortening a file (`ufs/ffs/ffs_inode.c`)

`ffs_truncate` makes a file longer or shorter.  To shorten it, it frees the blocks behind the new
end, the indirect ones first and from the far end on, and the fragments of the last direct block
that are not needed any more.  If the new end is inside a block, it first calls `ffs_balloc` for
that block, to clear what is behind the end; if there is a hole, this allocates the block.

* `truncate` — the code;
* `beyond` — what has to be freed, and `Exact`, that this is what happens;
* `truncate_exact_iff` — this is what happens exactly if there is no hole at the new end.
-/

namespace BSDLite2.Ffs.Balloc

open BSDLite2.Bmap BSDLite2.PtrTree Function List Nat

variable {i : ℕ}

/-! ## The code -/

variable (g : Geom) (io : Io)

variable (maxfilesize : ℕ) (s : Store) (length : ℕ)

/-- `lastblock` -/
def lastblock : ℤ := g.lblkno (length + g.bsize - 1) - 1

/-- `lastiblock` -/
def lastiblock (last : ℤ) : ℕ → ℤ
  | 0 => last - ndaddr
  | level + 1 => lastiblock last level - g.n ^ (level + 1)

/-- `lastiblock`, where everything is freed. -/
def normalized (x : ℤ) : ℤ := if x < 0 then -1 else x

/-- `indir_lbn` -/
def topLbn : ℕ → ℤ
  | 0 => -ndaddr
  | level + 1 => topLbn level - g.n ^ (level + 1) - 1

/-- The body of the loop over the levels. -/
def truncLevel (last : ℤ) (level : ℕ) (p : Pass) : Pass :=
  let bn := p.s.ino.ib level
  if bn = 0 then p
  else
    let p := indirtrunc g io level (topLbn g level) bn last p
    if last < 0 then { p with s := p.s.setIb level 0 }.blkfree bn g.bsize else p

/-- The loop over the levels, from the far end on; the flag is `goto done`. -/
def levelLoop (last : ℤ) : (levels : ℕ) → Pass → Pass × Bool
  | 0, p => (p, false)
  | level + 1, p =>
    let lastib := normalized (lastiblock g last level)
    if 0 ≤ lastib then (truncLevel g io lastib level p, true)
    else levelLoop last level (truncLevel g io lastib level p)

/-- The loop over the direct blocks, from the far end on. -/
def directLoop (last : ℤ) : (n : ℕ) → Pass → Pass
  | 0, p => p
  | i + 1, p =>
    if last < i then
      if p.s.ino.db i = 0 then directLoop last i p
      else
        directLoop last i
          ({ p with s := p.s.setDb i 0 }.blkfree (p.s.ino.db i) (blksize g p.s.ino i))
    else p

/-- The fragments of the last direct block; `none` is the panic. -/
def lastFrags (last : ℕ) (p : Pass) : Option Pass :=
  let bn := p.s.ino.db last
  let oldspace := blksize g p.s.ino last
  let newspace := blksize g { p.s.ino with size := length } last
  if bn = 0 then some p
  else if newspace = 0 then none
  else if newspace < oldspace then
    some (p.blkfree (bn + g.numfrags newspace) (oldspace - newspace))
  else some p

/-- `ffs_truncate` from `done` on. -/
def Pass.finish (p : Pass) : Pass :=
  { p with s := { p.s with ino := { p.s.ino with
      size := length
      blocks := p.s.ino.blocks - p.count } } }

/-- `ffs_truncate`, where the blocks are freed. -/
def release (p : Pass) : Option Pass :=
  let last := lastblock g length
  match levelLoop g io last niaddr p with
  | (p, true) => some (p.finish length)
  | (p, false) =>
    if last < 0 then some ((directLoop g last ndaddr p).finish length)
    else (lastFrags g length last.toNat (directLoop g last ndaddr p)).map (Pass.finish length)

/-- The call of `ffs_balloc` for the block with the new end. -/
def clearEnd : Option (Store × Option Err) :=
  if g.blkoff length = 0 then some (s, none)
  else balloc g io.balloc s (g.lblkno length) (g.blkoff length)

/-- `ffs_truncate` to a smaller size. -/
def shorten : Option Pass :=
  match clearEnd g io s length with
  | none => none
  | some (t, some e) => some ⟨t, [], 0, some e⟩
  | some (t, none) =>
    release g io length ⟨{ t with ino := { t.ino with size := s.ino.size } }, [], 0,
      if io.flush then none else some .eio⟩

/-- `ffs_truncate` to a larger size. -/
def lengthen : Option Pass :=
  if maxfilesize < length then some ⟨s, [], 0, some .efbig⟩
  else
    (balloc g io.balloc s (g.lblkno (length - 1)) (g.blkoff (length - 1) + 1)).map fun (t, err) =>
      match err with
      | some e => ⟨t, [], 0, some e⟩
      | none => ⟨{ t with ino := { t.ino with size := length } }, [], 0, none⟩

/-- `ffs_truncate` -/
def truncate : Option Pass :=
  if s.ino.size = length then some ⟨s, [], 0, none⟩
  else if s.ino.size < length then lengthen g io maxfilesize s length
  else shorten g io s length

/-! ## What has to be freed -/

/-- The number of blocks up to the new end. -/
def keep : ℕ := g.lblkno (length + g.bsize - 1)

/-- The size of a block of a file. -/
def nodeSize (ino : Inode) (x : Node ℕ) : ℕ :=
  if x.depth = 0 then blksize g ino x.pos else g.bsize

/-- The fragments of the block with the new end that are behind it. -/
def tailFrags : List (ℕ × ℕ) :=
  let i := g.lblkno length
  let new := g.fragroundup (g.blkoff length)
  let old := blksize g s.ino i
  if i < ndaddr ∧ s.ino.db i ≠ 0 ∧ g.blkoff length ≠ 0 ∧ new < old then
    [(s.ino.db i + g.numfrags new, old - new)]
  else []

/-- **What lies beyond the new end**, with its size: data blocks, indirect blocks that are only for
blocks beyond it, and fragments. -/
def beyond : List (ℕ × ℕ) :=
  (((nodes g s).filter (keep g length ≤ ·.pos)).map fun x => (x.addr, nodeSize g s.ino x)) ++
    tailFrags g s length

/-- An indirect block is named as `ufs_getlbns` names it on the way to every block it is for. -/
def Named (lbn : ℤ) (x : Node ℕ) : Prop :=
  ∀ q, x.pos ≤ q → q < x.pos + g.n ^ x.depth → ∃ path, getlbns g.n q = some path ∧
    (path[path.length - x.depth]?).map Indir.lbn = some lbn

/-- **A file is shortened exactly.**  What lies beyond the new end is freed once each and nothing
else, `i_blocks` is less by just that, the other blocks are where they were, and indirect blocks
are addressed by their numbers. -/
structure Exact (s : Store) (length : ℕ) (t : Pass) : Prop where
  freed : ∃ l, t.s.freed = s.freed ++ l ∧ l.Perm (beyond g s length) ∧
    t.s.ino.blocks = s.ino.blocks - sectors l
  kept : nodes g t.s = (nodes g s).filter (·.pos < keep g length)
  size : t.s.ino.size = length
  named : ∀ e ∈ t.seen, ∃ x ∈ nodes g s, x.depth ≠ 0 ∧ x.addr = e.2 ∧ Named g e.1 x

/-! ## Levels -/

variable {g io} {p p' : Pass} {s t : Store} {k K : ℕ}

variable (last : ℤ) (n : ℕ)

theorem lastiblock_eq : lastiblock g last k = last - start g.n k := by
  induction k with
  | zero => rfl
  | succ k ih =>
    rw [lastiblock, ih, start]
    push_cast
    ring

theorem topLbn_eq : topLbn g k = 1 - start g.n k - (k + 1 : ℕ) := by
  induction k with
  | zero => simp [topLbn, start]
  | succ k ih =>
    rw [topLbn, ih, start]
    push_cast
    ring

variable (g) in
/-- The blocks under the inode's pointer of a level. -/
def top (s : Store) (k : ℕ) : List (Node ℕ) :=
  slot g.n s.mem (k + 1) (start g.n k) (s.ino.ib k)

variable (g) in
/-- One level is cut. -/
structure CutLevel (k K : ℕ) (p p' : Pass) : Prop where
  frees : Frees (((top g p.s k).filter (K ≤ ·.pos)).map (whole g)) (top g p.s k) p p'
  top : top g p'.s k = (top g p.s k).filter (·.pos < K)
  ib : ∀ j ≠ k, p'.s.ino.ib j = p.s.ino.ib j

theorem truncLevel_spec (hK : K ≤ start g.n (k + 1)) (p : Pass)
    (nodup : ((top g p.s k).map Node.addr).Nodup)
    (herr : (truncLevel g io (normalized (K - 1 - start g.n k)) k p).err = none) :
    CutLevel g k K p (truncLevel g io (normalized (K - 1 - start g.n k)) k p) := by
  unfold truncLevel at herr ⊢
  by_cases hib : p.s.ino.ib k = 0
  · have htop : top g p.s k = [] := if_pos hib
    rw [if_pos hib]
    refine ⟨?_, ?_, fun _ _ => rfl⟩ <;> rw [htop]
    exacts [.refl, rfl]
  have htop : top g p.s k = tree g.n p.s.mem (k + 1) (start g.n k) (p.s.ino.ib k) := if_neg hib
  rw [htop] at nodup
  rw [if_neg hib, topLbn_eq] at herr ⊢
  have hino (last : ℤ) := (indirtrunc_counted g io k (1 - start g.n k - (k + 1 : ℕ))
    (p.s.ino.ib k) last p).ino
  by_cases hlast : (K : ℤ) - 1 - start g.n k < 0
  · rw [normalized, if_pos hlast] at herr ⊢
    have hpos : ∀ x ∈ top g p.s k, K ≤ x.pos := fun x hx => by
      have := (pos_of_mem_slot g.pos hx).1
      omega
    have hwhole := (indirtrunc_spec k).whole nodup herr
    replace hino := hino (-1)
    generalize indirtrunc g io k (1 - start g.n k - (k + 1 : ℕ)) (p.s.ino.ib k) (-1) p = p₁
      at hwhole hino ⊢
    refine ⟨?_, ?_, fun j hj => ?_⟩
    · rw [(filter_behind hpos).1, htop]
      exact ⟨hwhole.freed, hwhole.mem, hwhole.seen⟩
    · rw [(filter_behind hpos).2]
      simp [top, slot, Pass.blkfree, Store.blkfree, Store.setIb]
    · rw [← hino]
      exact update_of_ne hj ..
  · rw [normalized, if_neg hlast, if_neg hlast] at herr ⊢
    have hlt : (K : ℤ) - 1 - start g.n k < (g.n ^ (k + 1) : ℕ) := by
      rw [start] at hK
      omega
    have hcut := indirtrunc_spec k (start g.n k) (p.s.ino.ib k) K _ p (by omega) (by omega) hlt
      nodup herr
    replace hino := hino (K - 1 - start g.n k)
    have hroot : start g.n k < K := by omega
    refine ⟨?_, ?_, fun j _ => by rw [hino]⟩
    · rw [htop]
      refine hcut.frees.mono ?_ fun x hx => hx
      rw [tree_eq, filter_cons_of_neg (by simpa using hroot)]
    · rw [top, hino, slot, if_neg hib, htop, tree_eq, tree_eq, hcut.below,
        filter_cons_of_pos (by simpa using hroot)]

/-- What is freed is counted, and the direct blocks and the size are left alone. -/
structure Skips (p p' : Pass) : Prop extends Released p p' where
  db : p'.s.ino.db = p.s.ino.db
  size : p'.s.ino.size = p.s.ino.size

theorem truncLevel_skips (level : ℕ) (p : Pass) : Skips p (truncLevel g io last level p) := by
  have hcounted := indirtrunc_counted g io level (topLbn g level) (p.s.ino.ib level) last p
  unfold truncLevel
  dsimp only
  generalize indirtrunc g io level (topLbn g level) (p.s.ino.ib level) last p = p₁ at hcounted ⊢
  have hskips : Skips p p₁ := ⟨hcounted.toReleased, by rw [hcounted.ino], by rw [hcounted.ino]⟩
  split_ifs
  · exact ⟨.refl, rfl, rfl⟩
  · have hset : Released p { p₁ with s := p₁.s.setIb level 0 } :=
      ⟨hcounted.freed, hcounted.blocks, hcounted.err⟩
    exact ⟨hset.trans (.blkfree ..), hskips.db, hskips.size⟩
  · exact hskips

theorem levelLoop_skips (io : Io) (last : ℤ) (n : ℕ) (p : Pass) :
    Skips p (levelLoop g io last n p).1 := by
  fun_induction levelLoop g io last n p with
  | case1 => exact ⟨.refl, rfl, rfl⟩
  | case2 => exact truncLevel_skips ..
  | case3 level p lastib _ ih =>
    have hlevel : Skips p (truncLevel g io lastib level p) := truncLevel_skips ..
    exact ⟨hlevel.toReleased.trans ih.toReleased, ih.db.trans hlevel.db,
      ih.size.trans hlevel.size⟩

theorem start_mono {N j : ℕ} (h : j ≤ k) : start N j ≤ start N k := by
  induction h with
  | refl => exact le_rfl
  | step _ ih => exact ih.trans (Nat.le_add_right ..)

variable {x : Node ℕ}

theorem pos_of_mem_top (hx : x ∈ top g s k) : start g.n k ≤ x.pos ∧ x.pos < start g.n (k + 1) :=
  pos_of_mem_slot g.pos hx

theorem nodeSize_of_mem_top {ino : Inode} (hx : x ∈ top g s k) : nodeSize g ino x = g.bsize := by
  have hpos := (pos_of_mem_top hx).1
  have hfull : blksize g ino x.pos = g.bsize := if_pos (.inl (start_ge.trans hpos))
  rw [nodeSize, hfull, ite_self]

variable (g) in
/-- The levels below `n` are cut. -/
structure CutLevels (n K : ℕ) (p p' : Pass) : Prop where
  frees : Frees ((((List.range n).flatMap (top g p.s)).filter (K ≤ ·.pos)).map (whole g))
    ((List.range n).flatMap (top g p.s)) p p'
  top : ∀ k < n, top g p'.s k = (top g p.s k).filter (·.pos < K)
  ib : ∀ k ≥ n, p'.s.ino.ib k = p.s.ino.ib k

/-- What is apart from the blocks that are changed stays, if the pointer does. -/
theorem Frees.top_eq {L : List (ℕ × ℕ)} {D : List (Node ℕ)} (h : Frees L D p p')
    (ib : p'.s.ino.ib k = p.s.ino.ib k)
    (apart : List.Disjoint ((top g p.s k).map Node.addr) (D.map Node.addr)) :
    top g p'.s k = top g p.s k := by
  rw [top, ib]
  exact h.slot_eq fun x hx => apart (mem_map_of_mem hx)

theorem levelLoop_spec {n : ℕ} (io : Io) (hK : K ≤ start g.n n) (p : Pass)
    (nodup : (((List.range n).flatMap (top g p.s)).map Node.addr).Nodup)
    (herr : (levelLoop g io (K - 1) n p).1.err = none) :
    CutLevels g n K p (levelLoop g io (K - 1) n p).1 := by
  induction n generalizing p with
  | zero => exact ⟨.refl, nofun, fun _ _ => rfl⟩
  | succ n ih =>
    rw [levelLoop, lastiblock_eq] at herr ⊢
    have herr₁ : (truncLevel g io (normalized (K - 1 - start g.n n)) n p).err = none := by
      split_ifs at herr
      · exact herr
      · exact (levelLoop_skips ..).err herr
    rw [flatMap_range_succ, map_append, nodup_append'] at nodup
    obtain ⟨hbefore, hhere, hapart⟩ := nodup
    have hlevel := truncLevel_spec hK p hhere herr₁
    generalize truncLevel g io (normalized (K - 1 - start g.n n)) n p = p₁ at herr hlevel ⊢
    -- the loop goes from the far end, and a level shares no block with those before it
    have htops : ∀ k ∈ List.range n, top g p₁.s k = top g p.s k := by
      intro k hk
      refine hlevel.frees.top_eq (hlevel.ib k (mem_range.mp hk).ne) fun y hy => ?_
      refine hapart ?_
      obtain ⟨x, hx, rfl⟩ := mem_map.mp hy
      exact mem_map_of_mem (mem_flatMap.mpr ⟨k, hk, hx⟩)
    by_cases hdone : start g.n n < K
    · -- the levels before this one are kept
      have hpos : ∀ k < n, ∀ x ∈ top g p.s k, x.pos < K := fun k hk x hx =>
        ((pos_of_mem_top hx).2.trans_le (start_mono hk)).trans hdone
      rw [if_pos (by rw [normalized]; omega)] at herr ⊢
      refine ⟨?_, fun k hk => ?_, fun k hk => hlevel.ib k (by omega)⟩
      · rw [flatMap_range_succ, filter_append, (filter_front fun x hx => ?_).1]
        · exact hlevel.frees.mono (.refl _) fun x hx => mem_append_right _ hx
        · obtain ⟨k, hk, hx⟩ := mem_flatMap.mp hx
          exact hpos k (mem_range.mp hk) x hx
      · rcases Nat.lt_succ_iff_lt_or_eq.mp hk with hk | rfl
        · rw [htops k (mem_range.mpr hk), (filter_front (hpos k hk)).2]
        · exact hlevel.top
    · rw [if_neg (by rw [normalized]; split_ifs <;> omega)] at herr ⊢
      have hrest := ih (not_lt.mp hdone) p₁ (by rwa [flatMap_congr htops]) herr
      have hframe := hrest.frees
      rw [flatMap_congr htops] at hframe
      refine ⟨?_, fun k hk => ?_, fun k hk => ?_⟩
      · rw [flatMap_range_succ, filter_append, map_append]
        exact (hlevel.frees.trans hframe).mono perm_append_comm fun x hx =>
          mem_append.mpr (mem_append.mp hx).symm
      · rcases Nat.lt_succ_iff_lt_or_eq.mp hk with hk | rfl
        · rw [hrest.top k hk, htops k (mem_range.mpr hk)]
        · rw [← hlevel.top]
          refine hframe.top_eq (hrest.ib k le_rfl) fun y hy hy' => hapart hy' ?_
          rw [hlevel.top] at hy
          obtain ⟨x, hx, rfl⟩ := mem_map.mp hy
          exact mem_map_of_mem (mem_of_mem_filter hx)
      · rw [hrest.ib k (by omega), hlevel.ib k (by omega)]

/-! ## Direct blocks -/

variable (g) in
/-- A direct block. -/
def block (s : Store) (i : ℕ) : List (Node ℕ) := slot g.n s.mem 0 i (s.ino.db i)

theorem block_eq (s : Store) (i : ℕ) :
    block g s i = if s.ino.db i = 0 then [] else [⟨i, 0, s.ino.db i⟩] := rfl

theorem pos_of_mem_block (hx : x ∈ block g s i) : x.pos = i := by
  rw [mem_singleton.mp (mem_slot.mp hx).2]

theorem block_pos_lt {n : ℕ} (hx : x ∈ (List.range n).flatMap (block g s)) : x.pos < n := by
  obtain ⟨i, hi, hx⟩ := mem_flatMap.mp hx
  exact pos_of_mem_block hx ▸ mem_range.mp hi

theorem blksize_congr {ino ino' : Inode} (h : ino.size = ino'.size) (i : ℕ) :
    blksize g ino i = blksize g ino' i := by
  rw [blksize, blksize, h]

theorem directLoop_released (p : Pass) : Released p (directLoop g last n p) := by
  fun_induction directLoop g last n p with
  | case1 | case4 => exact .refl
  | case2 i p _ _ ih => exact ih
  | case3 i p _ _ ih =>
    have hset : Released p { p with s := p.s.setDb i 0 } :=
      ⟨(Released.refl).freed, rfl, id⟩
    exact (hset.trans (.blkfree ..)).trans ih

variable (g) in
/-- The direct blocks below `n` are freed from `K` on. -/
structure CutDirect (n K : ℕ) (p p' : Pass) : Prop where
  frees : Frees ((((List.range n).flatMap (block g p.s)).filter (K ≤ ·.pos)).map
    fun x => (x.addr, nodeSize g p.s.ino x)) [] p p'
  db : ∀ i, p'.s.ino.db i = if K ≤ i ∧ i < n then 0 else p.s.ino.db i
  ib : p'.s.ino.ib = p.s.ino.ib
  size : p'.s.ino.size = p.s.ino.size

theorem directLoop_spec (p : Pass) : CutDirect g n K p (directLoop g (K - 1) n p) := by
  induction n generalizing p with
  | zero => exact ⟨.refl, fun i => by simp [directLoop], rfl, rfl⟩
  | succ n ih =>
    rw [directLoop]
    by_cases hlast : n < K
    · rw [if_neg (by omega)]
      refine ⟨?_, fun i => by rw [if_neg (by omega)], rfl, rfl⟩
      rw [(filter_front fun x hx => (block_pos_lt hx).trans_le hlast).1]
      exact .refl
    rw [if_pos (by omega)]
    have hdb' : ∀ (p' : Pass) (db : ℕ → ℕ), (∀ i ≠ n, db i = p.s.ino.db i) → db n = 0 →
        (∀ i, p'.s.ino.db i = if K ≤ i ∧ i < n then 0 else db i) →
        ∀ i, p'.s.ino.db i = if K ≤ i ∧ i < n + 1 then 0 else p.s.ino.db i := by
      intro p' db hne hzero h i
      rw [h]
      rcases lt_trichotomy i n with hi | rfl | hi
      · simp [hi, lt_succ_of_lt hi, hne i hi.ne]
      · simp [hzero, not_lt.mp hlast]
      · rw [if_neg (by omega), if_neg (by omega), hne i hi.ne']
    by_cases hnull : p.s.ino.db n = 0
    · rw [if_pos hnull]
      obtain ⟨hfrees, hdb, hib, hsize⟩ := ih p
      refine ⟨?_, hdb' _ _ (fun _ _ => rfl) hnull hdb, hib, hsize⟩
      rw [flatMap_range_succ, block_eq p.s n, if_pos hnull, append_nil]
      exact hfrees
    · rw [if_neg hnull]
      obtain ⟨hfrees, hdb, hib, hsize⟩ :=
        ih ({ p with s := p.s.setDb n 0 }.blkfree (p.s.ino.db n) (blksize g p.s.ino n))
      refine ⟨?_, hdb' _ _ (fun i hi => update_of_ne hi ..) (update_self ..) hdb, hib, hsize⟩
      have hblocks : (List.range n).flatMap (block g ({ p with s := p.s.setDb n 0 }.blkfree
          (p.s.ino.db n) (blksize g p.s.ino n)).s) = (List.range n).flatMap (block g p.s) := by
        refine flatMap_congr fun i hi => ?_
        have hi := mem_range.mp hi
        rw [block_eq, block_eq]
        simp only [Pass.blkfree, Store.blkfree, Store.setDb, update_of_ne hi.ne]
      rw [hblocks] at hfrees
      rw [flatMap_range_succ, block_eq p.s n, if_neg hnull, filter_append,
        filter_cons_of_pos (by simpa using hlast), map_append]
      have hfirst : Frees [(p.s.ino.db n, blksize g p.s.ino n)] [] p
          ({ p with s := p.s.setDb n 0 }.blkfree (p.s.ino.db n) (blksize g p.s.ino n)) :=
        ⟨⟨_, rfl, .refl _⟩, fun _ _ => rfl, ⟨[], by simp [Pass.blkfree]⟩⟩
      exact (hfirst.trans hfrees).mono perm_append_comm (by simp)

/-! ## The last block -/

theorem Geom.bsize_pos : 0 < g.bsize := mul_pos (by decide) g.pos

/-- The blocks up to the new end. -/
theorem keep_eq : keep g length = length / g.bsize + if g.blkoff length = 0 then 0 else 1 := by
  have hpos := g.bsize_pos
  have hmod := Nat.div_add_mod length g.bsize
  rw [keep, Geom.lblkno, Geom.blkoff]
  split_ifs with hzero
  · rw [Nat.add_sub_assoc hpos, ← hmod, hzero, add_zero, Nat.mul_add_div hpos,
      Nat.div_eq_of_lt (Nat.sub_lt hpos Nat.one_pos), Nat.mul_div_cancel_left _ hpos]
  · have hlt := Nat.mod_lt length hpos
    have hsplit : length + g.bsize - 1 =
        g.bsize * (length / g.bsize + 1) + (length % g.bsize - 1) := by
      rw [mul_add]
      omega
    have hrest : (length % g.bsize - 1) / g.bsize = 0 := Nat.div_eq_of_lt (by omega)
    rw [hsplit, Nat.mul_add_div hpos, hrest]

theorem lastblock_eq : lastblock g length = (keep g length : ℤ) - 1 := rfl

theorem fragroundup_le {size : ℕ} (h : size ≤ g.bsize) : g.fragroundup size ≤ g.bsize := by
  obtain ⟨c, hc⟩ := g.fsize_dvd
  change g.bsize = g.fsize * c at hc
  rw [Geom.fragroundup, hc, mul_comm]
  refine Nat.mul_le_mul_left _ ?_
  have hlt : (size + (g.fsize - 1)) / g.fsize < c + 1 := by
    rw [Nat.div_lt_iff_lt_mul g.fsize_pos, add_mul, mul_comm c]
    have := g.fsize_pos
    omega
  exact Nat.le_of_lt_succ hlt

theorem fragroundup_pos {size : ℕ} (h : 0 < size) : 0 < g.fragroundup size := by
  refine mul_pos (div_pos ?_ g.fsize_pos) g.fsize_pos
  omega

theorem blksize_le (ino : Inode) (i : ℕ) : blksize g ino i ≤ g.bsize := by
  unfold blksize
  split_ifs
  · exact le_rfl
  · exact fragroundup_le (Nat.mod_lt _ g.bsize_pos).le

variable {length : ℕ}

/-- The new size of the last direct block. -/
theorem blksize_last (ino : Inode) (hi : i < ndaddr) (hkeep : keep g length = i + 1) :
    blksize g { ino with size := length } i =
      if g.blkoff length = 0 then g.bsize else g.fragroundup (g.blkoff length) := by
  have hpos := g.bsize_pos
  have hmod := Nat.div_add_mod length g.bsize
  rw [keep_eq] at hkeep
  unfold blksize
  dsimp only
  by_cases hzero : g.blkoff length = 0
  · rw [if_pos hzero] at hkeep ⊢
    refine if_pos (.inr ?_)
    rw [← hkeep, add_zero, mul_comm]
    omega
  · rw [if_neg hzero] at hkeep ⊢
    refine if_neg (not_or.mpr ⟨by omega, ?_⟩)
    have := Nat.mod_lt length hpos
    rw [← hkeep, add_mul, mul_comm]
    omega

/-- **The fragments behind the new end** of the last direct block. -/
theorem lastFrags_spec (hi : i < ndaddr) (hkeep : keep g length = i + 1) (p : Pass)
    (hdb : p.s.ino.db i = s.ino.db i) (hsize : p.s.ino.size = s.ino.size) :
    ∃ p', lastFrags g length i p = some p' ∧ Frees (tailFrags g s length) [] p p' ∧
      p'.s.ino = p.s.ino ∧ Released p p' := by
  have hnew := blksize_last p.s.ino hi hkeep
  have hsame : Frees [] [] p p ∧ p.s.ino = p.s.ino ∧ Released p p := ⟨.refl, rfl, .refl⟩
  unfold lastFrags tailFrags
  dsimp only
  rw [hnew, blksize_congr hsize, hdb]
  rw [keep_eq] at hkeep
  by_cases hzero : g.blkoff length = 0
  · have hold := blksize_le (g := g) s.ino i
    rw [if_pos hzero, if_neg g.bsize_pos.ne', if_neg (not_lt.mpr hold), ite_self,
      if_neg fun h => h.2.2.1 hzero]
    exact ⟨p, rfl, hsame⟩
  · rw [if_neg hzero] at hkeep ⊢
    obtain rfl : g.lblkno length = i := Nat.succ.inj hkeep
    rw [if_neg (fragroundup_pos (Nat.pos_of_ne_zero hzero)).ne']
    by_cases hnull : s.ino.db (g.lblkno length) = 0
    · rw [if_pos hnull, if_neg fun h => h.2.1 hnull]
      exact ⟨p, rfl, hsame⟩
    · rw [if_neg hnull]
      by_cases hlt : g.fragroundup (g.blkoff length) < blksize g s.ino (g.lblkno length)
      · rw [if_pos hlt, if_pos ⟨hi, hnull, hzero, hlt⟩]
        exact ⟨_, rfl, ⟨⟨_, rfl, .refl _⟩, fun _ _ => rfl, ⟨[], by simp [Pass.blkfree]⟩⟩, rfl,
          .blkfree ..⟩
      · rw [if_neg hlt, if_neg fun h => hlt h.2.2.2]
        exact ⟨p, rfl, hsame⟩

/-! ## Shortening -/

/-- The logical numbers that `ffs_indirtrunc` uses are those of `ufs_getlbns`. -/
theorem named_of_mem_top (hk : k < niaddr) (cube : g.n ^ 3 < 2 ^ 31) (hx : x ∈ top g s k)
    (hdepth : x.depth ≠ 0) : Named g (indirLbn x) x := by
  intro q hle hlt
  obtain ⟨hdk, c, hc⟩ := aligned_of_mem_tree (mem_slot.mp hx).2
  obtain ⟨b, rfl⟩ := Nat.exists_eq_add_of_le (show start g.n k ≤ q by omega)
  have hdvd : g.n ^ x.depth ∣ g.n ^ (k + 1) := pow_dvd_pow _ hdk
  have hb : b < g.n ^ (k + 1) := by
    obtain ⟨e, he⟩ := hdvd
    have hpos := (pos_of_mem_top hx).2
    rw [start] at hpos
    have hce : c < e := by
      refine Nat.lt_of_mul_lt_mul_left (a := g.n ^ x.depth) ?_
      rw [mul_comm]
      omega
    have := Nat.mul_le_mul_left (g.n ^ x.depth) (Nat.succ_le_of_lt hce)
    rw [mul_succ, mul_comm _ c] at this
    omega
  have hfits : g.n ^ (k + 1) < 2 ^ 31 :=
    lt_of_le_of_lt (Nat.pow_le_pow_right g.pos (by unfold niaddr at hk; omega)) cube
  refine ⟨_, getlbns_eq hk hb hfits, ?_⟩
  have hmod : b % g.n ^ x.depth = b - c * g.n ^ x.depth := by
    obtain ⟨r, rfl⟩ := Nat.exists_eq_add_of_le (show c * g.n ^ x.depth ≤ b by omega)
    rw [Nat.add_sub_cancel_left, mul_comm c, Nat.mul_add_mod, Nat.mod_eq_of_lt (by omega)]
  rw [length_cons, length_pathOf, show k + 1 + 1 - x.depth = k + 1 - x.depth + 1 by omega,
    getElem?_cons_succ, pathOf_lbn (Nat.pos_of_ne_zero hdepth) hdk,
    Nat.mod_eq_of_lt hb, metaLbn, indirLbn]
  congr 1
  omega

theorem normalized_nonneg {x : ℤ} : 0 ≤ normalized x ↔ 0 ≤ x := by
  unfold normalized
  split_ifs <;> omega

/-- The flag says that the last block is behind the direct ones. -/
theorem levelLoop_flag (io : Io) (n : ℕ) (p : Pass) :
    (levelLoop g io (K - 1) (n + 1) p).2 = true ↔ ndaddr < K := by
  induction n generalizing p with
  | zero =>
    rw [levelLoop, lastiblock_eq, levelLoop, start]
    split_ifs with hle <;> rw [normalized_nonneg] at hle
    · exact iff_of_true rfl (by omega)
    · exact iff_of_false id (by omega)
  | succ n ih =>
    rw [levelLoop, lastiblock_eq]
    have := start_ge (N := g.n) (k := n + 1)
    split_ifs with hle
    · rw [normalized_nonneg] at hle
      exact iff_of_true rfl (by omega)
    · exact ih _

/-- What is left of the blocks after the direct ones and the fragments have been freed. -/
structure CutRest (s : Store) (length : ℕ) (p p' : Pass) : Prop where
  frees : Frees ((((List.range ndaddr).flatMap (block g s)).filter (keep g length ≤ ·.pos)).map
    (fun x => (x.addr, nodeSize g s.ino x)) ++ tailFrags g s length) [] p p'
  db : ∀ i < ndaddr, p'.s.ino.db i = if keep g length ≤ i then 0 else s.ino.db i
  ib : p'.s.ino.ib = p.s.ino.ib
  released : Released p p'

theorem tailFrags_eq_nil (h : keep g length = 0 ∨ ndaddr < keep g length) :
    tailFrags g s length = [] := by
  refine if_neg fun hc => ?_
  obtain ⟨hlt, -, hoff, -⟩ := hc
  rw [keep_eq, if_neg hoff] at h
  change g.lblkno length + 1 = 0 ∨ ndaddr < g.lblkno length + 1 at h
  omega

/-- **After the indirect blocks** the direct ones are freed, and the fragments behind the end. -/
theorem release_eq {p₁ : Pass} {done : Bool}
    (hlevels : levelLoop g io (lastblock g length) niaddr p = (p₁, done))
    (hdb : p₁.s.ino.db = s.ino.db) (hsize : p₁.s.ino.size = s.ino.size) :
    ∃ q, release g io length p = some (q.finish length) ∧ CutRest (g := g) s length p₁ q := by
  have hflag := levelLoop_flag (g := g) (K := keep g length) io 2 p
  rw [← lastblock_eq, show 2 + 1 = niaddr from rfl, hlevels] at hflag
  unfold release
  dsimp only
  rw [hlevels]
  have hblocks : ∀ i, block g p₁.s i = block g s i := fun i => by rw [block_eq, block_eq, hdb]
  cases done with
  | true =>
    have hlt : ndaddr < keep g length := hflag.mp rfl
    refine ⟨p₁, rfl, ⟨?_, fun i hi => ?_, rfl, .refl⟩⟩
    · rw [tailFrags_eq_nil (.inr hlt), (filter_front fun x hx => (block_pos_lt hx).trans hlt).1]
      exact .refl
    · rw [if_neg (by omega), hdb]
  | false =>
    have hle : keep g length ≤ ndaddr := not_lt.mp fun h => Bool.false_ne_true (hflag.mpr h)
    have hdirect := directLoop_spec (g := g) (K := keep g length) ndaddr p₁
    have hreleased := directLoop_released (g := g) (keep g length - 1 : ℤ) ndaddr p₁
    rw [← lastblock_eq] at hdirect hreleased
    dsimp only
    generalize directLoop g (lastblock g length) ndaddr p₁ = p₂ at hdirect hreleased
    have hfrees := hdirect.frees
    rw [flatMap_congr fun i _ => hblocks i] at hfrees
    have hnodeSize : (fun x => (x.addr, nodeSize g p₁.s.ino x)) =
        fun x => (x.addr, nodeSize g s.ino x) := by
      funext x
      rw [nodeSize, nodeSize, blksize_congr hsize]
    rw [hnodeSize] at hfrees
    have hdb₂ : ∀ i < ndaddr, p₂.s.ino.db i = if keep g length ≤ i then 0 else s.ino.db i := by
      intro i hi
      rw [hdirect.db, hdb]
      simp [hi]
    rcases Nat.eq_zero_or_pos (keep g length) with hzero | hpos
    · rw [if_pos (by rw [lastblock_eq]; omega)]
      refine ⟨p₂, rfl, ⟨?_, hdb₂, hdirect.ib, hreleased⟩⟩
      rw [tailFrags_eq_nil (.inl hzero), append_nil]
      exact hfrees
    · obtain ⟨i, hi⟩ := exists_eq_succ_of_ne_zero hpos.ne'
      rw [if_neg (by rw [lastblock_eq]; omega),
        show (lastblock g length).toNat = i by rw [lastblock_eq]; omega]
      obtain ⟨p₃, heq, htail, hino, hrel⟩ := lastFrags_spec (by omega) hi p₂
        (by rw [hdb₂ i (by omega), if_neg (by omega)]) (hdirect.size.trans hsize)
      rw [heq]
      refine ⟨p₃, rfl, ⟨hfrees.trans htail, ?_, ?_, hreleased.trans hrel⟩⟩
      · rw [hino]
        exact hdb₂
      · rw [hino, hdirect.ib]

/-- **The blocks are freed exactly**, from a consistent block map on. -/
theorem release_exact (io : Io) (consistent : Consistent g s) (cube : g.n ^ 3 < 2 ^ 31)
    (hK : keep g length ≤ start g.n niaddr) (err : Option Err) :
    ∃ t, release g io length ⟨s, [], 0, err⟩ = some t ∧ (t.err = none → Exact g s length t) := by
  have hnodup := consistent.nodup
  have hnodes : nodes g s = (List.range ndaddr).flatMap (block g s) ++
    (List.range niaddr).flatMap (top g s) := rfl
  rw [reach, hnodes, map_append, nodup_append'] at hnodup
  obtain ⟨-, hnodup, hapart⟩ := hnodup
  have hlevels := levelLoop_spec io hK ⟨s, [], 0, err⟩ hnodup
  obtain ⟨hreleased, hdb, hsize⟩ := levelLoop_skips io (lastblock g length) niaddr
    ⟨s, [], 0, err⟩
  rw [← lastblock_eq] at hlevels
  rcases hloop : levelLoop g io (lastblock g length) niaddr ⟨s, [], 0, err⟩ with ⟨p₁, done⟩
  rw [hloop] at hlevels hreleased hdb hsize
  obtain ⟨q, hq, hrest⟩ := release_eq hloop hdb hsize
  refine ⟨_, hq, fun herr => ?_⟩
  have hcut := hlevels (hrest.released.err herr)
  have hfrees := hcut.frees.trans hrest.frees
  constructor
  case freed =>
    obtain ⟨l, hl, hperm⟩ := hfrees.freed
    obtain ⟨l', hl', hcount⟩ := (hreleased.trans hrest.released).freed
    -- the list of what was freed is known twice: by its blocks, and by the sectors it counts
    obtain rfl : l = l' := append_cancel_left (hl.symm.trans hl')
    refine ⟨l, hl, hperm.trans ?_, ?_⟩
    · have hwhole : (((List.range niaddr).flatMap (top g s)).filter
          (keep g length ≤ ·.pos)).map (fun x => (x.addr, nodeSize g s.ino x)) =
          (((List.range niaddr).flatMap (top g s)).filter (keep g length ≤ ·.pos)).map
            (whole g) := by
        refine map_congr_left fun x hx => ?_
        obtain ⟨k, -, hx⟩ := mem_flatMap.mp (mem_of_mem_filter hx)
        rw [nodeSize_of_mem_top hx, whole]
      rw [beyond, hnodes, filter_append, map_append, hwhole, append_assoc]
      exact perm_append_comm_assoc ..
    · change q.s.ino.blocks - (q.count : ℤ) = _
      rw [(hreleased.trans hrest.released).blocks, hcount]
      simp
  case kept =>
    have hmem : q.s.mem = p₁.s.mem := funext fun y => hrest.frees.mem y not_mem_nil
    rw [hnodes, filter_append, filter_flatMap, filter_flatMap]
    refine congrArg₂ _ (flatMap_congr fun i hi => ?_) (flatMap_congr fun k hk => ?_)
    · have hdb' := hrest.db i (mem_range.mp hi)
      change block g (q.finish length).s i = (block g s i).filter _
      rw [block_eq, block_eq]
      change (if q.s.ino.db i = 0 then _ else [(⟨i, 0, q.s.ino.db i⟩ : Node ℕ)]) = _
      rw [hdb']
      by_cases hle : keep g length ≤ i
      · rw [if_pos hle, if_pos rfl, (filter_behind fun x hx => ?_).2]
        exact hle.trans (pos_of_mem_block (g := g) hx).ge
      · rw [if_neg hle, (filter_front fun x hx => ?_).2]
        exact (pos_of_mem_block (g := g) hx).trans_lt (not_le.mp hle)
    · have htop := hcut.top k (mem_range.mp hk)
      change slot g.n q.s.mem (k + 1) (start g.n k) (q.s.ino.ib k) = _
      rw [hmem, hrest.ib]
      exact htop
  case size => rfl
  case named =>
    obtain ⟨v, hv, hseen⟩ := hfrees.seen
    intro e he
    change e ∈ q.seen at he
    rw [hv] at he
    obtain ⟨x, hx, hdepth, rfl⟩ := hseen e he
    rw [append_nil] at hx
    obtain ⟨k, hk, hx'⟩ := mem_flatMap.mp hx
    refine ⟨x, mem_append_right _ hx, hdepth, rfl, ?_⟩
    exact named_of_mem_top (mem_range.mp hk) cube hx' hdepth

/-! ## The block with the new end -/

variable {env : Env}

theorem leaf_singleton {pos a : ℕ} {mem : ℕ → ℕ → ℕ} : Leaf (tree g.n mem 0 pos a) pos :=
  ⟨_, mem_singleton_self _, rfl, rfl⟩

/-- **The loop of `ffs_balloc`** changes nothing if the block is there, and allocates it if not. -/
theorem fetch_leaf (env : Env) (d i a pos b : ℕ) (lbn : ℤ) (s : Store) :
    (Leaf (tree g.n s.mem (d + 1) pos a) (pos + b % g.n ^ (d + 1)) →
      (fetch g env (pathOf g.n b (d + 1) lbn) i a s).s = s) ∧
    (¬ Leaf (tree g.n s.mem (d + 1) pos a) (pos + b % g.n ^ (d + 1)) →
      (fetch g env (pathOf g.n b (d + 1) lbn) i a s).err = none →
      (fetch g env (pathOf g.n b (d + 1) lbn) i a s).news ≠ []) := by
  induction d generalizing i a pos lbn s with
  | zero =>
    rw [leaf_iff g.pos]
    simp only [pow_zero, mod_one, add_zero, leaf_singleton, and_true, pathOf, fetch]
    constructor
    · intro hne
      split_ifs <;> rfl
    · intro hnull
      rw [if_pos (not_not.mp hnull)]
      split_ifs with hread
      · intro herr
        cases herr
      · split
        · intro herr
          cases herr
        · intro _ hnil
          cases hnil
  | succ d ih =>
    rw [leaf_iff g.pos]
    rw [pathOf, pathOf, fetch]
    by_cases hne : s.mem a (b / g.n ^ (d + 1) % g.n) = 0
    · refine ⟨fun h => absurd hne h.1, fun _ herr => ?_⟩
      rw [if_neg (not_not.mpr hne)] at herr ⊢
      rcases halloc : alloc s g.bsize (env.alloc (i + 1)) with _ | ⟨s', newb⟩
      · rw [halloc] at herr
        split_ifs at herr
      · rw [halloc] at herr
        split_ifs at herr ⊢
        exact cons_ne_nil _ _
    · rw [if_pos hne]
      obtain ⟨hleaf, hhole⟩ := ih (i + 1) (s.mem a (b / g.n ^ (d + 1) % g.n))
        (pos + b / g.n ^ (d + 1) % g.n * g.n ^ (d + 1))
        (lbn + 1 - (b / g.n ^ (d + 1) % g.n : ℕ) * (g.n : ℤ) ^ (d + 1)) s
      split_ifs
      · exact ⟨fun _ => rfl, fun _ herr => by cases herr⟩
      · exact ⟨fun h => hleaf h.2, fun h => hhole fun hl => h ⟨hne, hl⟩⟩

theorem Geom.btodb_pos {bytes : ℕ} (hpos : 0 < bytes) (hdvd : g.fsize ∣ bytes) :
    0 < Geom.btodb bytes :=
  div_pos (le_of_dvd hpos (g.dev.trans hdvd)) (by decide)

/-- Which blocks are there, among the direct ones and on each level. -/
theorem leaf_nodes_direct (hi : i < ndaddr) : Leaf (nodes g s) i ↔ s.ino.db i ≠ 0 := by
  constructor
  · rintro ⟨x, hx, -, rfl⟩ hnull
    rcases mem_nodes.mp hx with ⟨i, -, hx⟩ | ⟨k, -, hx⟩
    · have hpos : x.pos = i := pos_of_mem_block hx
      exact (mem_slot.mp hx).1 (hpos ▸ hnull)
    · have := (pos_of_mem_top hx).1
      have := start_ge (N := g.n) (k := k)
      omega
  · intro hne
    refine ⟨⟨i, 0, s.ino.db i⟩, mem_nodes.mpr (.inl ⟨i, hi, ?_⟩), rfl, rfl⟩
    exact mem_slot.mpr ⟨hne, mem_singleton_self _⟩

theorem leaf_nodes_top {b : ℕ} (hk : k < niaddr) (hb : b < g.n ^ (k + 1)) :
    Leaf (nodes g s) (start g.n k + b) ↔ s.ino.ib k ≠ 0 ∧
      Leaf (tree g.n s.mem (k + 1) (start g.n k) (s.ino.ib k))
        (start g.n k + b % g.n ^ (k + 1)) := by
  rw [Nat.mod_eq_of_lt hb]
  constructor
  · rintro ⟨x, hx, hdepth, hpos⟩
    have hge := start_ge (N := g.n) (k := k)
    rcases mem_nodes.mp hx with ⟨i, hi, hx⟩ | ⟨j, -, hx⟩
    · have := pos_of_mem_block hx
      omega
    · obtain ⟨hle, hlt⟩ := pos_of_mem_top hx
      obtain rfl : j = k := by
        rcases lt_trichotomy j k with hjk | rfl | hkj
        · have : start g.n (j + 1) ≤ start g.n k := start_mono hjk
          omega
        · rfl
        · have : start g.n k + g.n ^ (k + 1) ≤ start g.n j := start_mono hkj
          omega
      obtain ⟨hne, hx⟩ := mem_slot.mp hx
      exact ⟨hne, x, hx, hdepth, hpos⟩
  · rintro ⟨hne, x, hx, hdepth, hpos⟩
    exact ⟨x, mem_nodes.mpr (.inr ⟨k, hk, mem_slot.mpr ⟨hne, hx⟩⟩), hdepth, hpos⟩

/-- What `ffs_balloc` does for a block that is not behind the end of the file. -/
structure Clears (s t : Store) (there : Prop) : Prop where
  same : there → t = s
  grows : ¬ there → s.ino.blocks < t.ino.blocks ∧ t.freed = s.freed ∧ t.ino.size = s.ino.size

theorem fragroundup_dvd (size : ℕ) : g.fsize ∣ g.fragroundup size := Dvd.intro_left _ rfl

theorem fragroundup_mono {a b : ℕ} (h : a ≤ b) : g.fragroundup a ≤ g.fragroundup b :=
  Nat.mul_le_mul_right _ (Nat.div_le_div_right (Nat.add_le_add_right h _))

theorem clears_direct (hlt : length < s.ino.size) (hoff : g.blkoff length ≠ 0) :
    ∃ t err, direct g env s (g.lblkno length) (g.blkoff length) = some (t, err) ∧
      (err = none → Clears s t (s.ino.db (g.lblkno length) ≠ 0)) := by
  have hround := fragroundup_pos (g := g) (Nat.pos_of_ne_zero hoff)
  unfold direct
  dsimp only
  by_cases hne : s.ino.db (g.lblkno length) = 0
  · rw [if_neg (fun hc => hc.1 hne), if_neg (not_not.mpr hne)]
    split
    · exact ⟨_, _, rfl, nofun⟩
    next s' newb halloc =>
    have spec := alloc_spec halloc
    refine ⟨_, _, rfl, fun _ => ⟨fun h' => absurd hne h', fun _ => ⟨?_, spec.freed, spec.ino.size⟩⟩⟩
    change s.ino.blocks < s'.ino.blocks
    rw [spec.ino.blocks]
    refine lt_add_of_pos_right _ (Int.natCast_pos.mpr ?_)
    split_ifs
    · exact g.btodb_pos hround (fragroundup_dvd _)
    · exact g.btodb_pos g.bsize_pos g.fsize_dvd
  · have hsame : Clears s s (s.ino.db (g.lblkno length) ≠ 0) :=
      ⟨fun _ => rfl, fun h' => absurd hne h'⟩
    by_cases hfull : (g.lblkno length + 1) * g.bsize ≤ s.ino.size
    · rw [if_pos ⟨hne, hfull⟩]
      exact ⟨_, _, rfl, fun _ => hsame⟩
    · have hdiv : s.ino.size / g.bsize = length / g.bsize := by
        refine le_antisymm ?_ (Nat.div_le_div_right hlt.le)
        exact Nat.le_of_lt_succ ((Nat.div_lt_iff_lt_mul g.bsize_pos).mpr (not_le.mp hfull))
      have hmono : g.blkoff length ≤ g.blkoff s.ino.size := by
        have h1 := Nat.div_add_mod length g.bsize
        have h2 := Nat.div_add_mod s.ino.size g.bsize
        rw [hdiv] at h2
        unfold Geom.blkoff
        omega
      rw [if_neg (fun hc => hfull hc.2), if_pos hne, if_pos (fragroundup_mono hmono)]
      exact ⟨_, _, rfl, fun _ => hsame⟩

theorem clears_indirect {b : ℕ} (hk : k < niaddr) (hb : b < g.n ^ (k + 1))
    (h : indirect g env s k (pathOf g.n b (k + 1) (metaLbn g.n k)) = (t, none)) :
    Clears s t (Leaf (nodes g s) (start g.n k + b)) := by
  have hpos := g.btodb_pos g.bsize_pos g.fsize_dvd
  rw [leaf_nodes_top hk hb]
  unfold indirect at h
  by_cases hib : s.ino.ib k = 0
  · refine ⟨fun h' => absurd hib h'.1, fun _ => ?_⟩
    rw [if_pos hib] at h
    split at h
    · cases h
    next s₁ nb halloc =>
    have spec := alloc_spec halloc
    split at h
    · cases h
    dsimp only at h
    have fetched := fetch_spec (g := g) env (pathOf g.n b (k + 1) (metaLbn g.n k)) 1 nb
      ((s₁.clear nb).setIb k nb)
    generalize fetch g env (pathOf g.n b (k + 1) (metaLbn g.n k)) 1 nb
      ((s₁.clear nb).setIb k nb) = r at fetched h
    unfold Fetched.finish at h
    split at h
    · cases h
      refine ⟨?_, fetched.freed.trans spec.freed, fetched.ino.size.trans spec.ino.size⟩
      have hblocks := fetched.ino.blocks
      change r.s.ino.blocks = s₁.ino.blocks + _ at hblocks
      rw [hblocks, spec.ino.blocks]
      omega
    · cases h
  · rw [if_neg hib] at h
    obtain ⟨hleaf, hhole⟩ := fetch_leaf (g := g) env k 1 (s.ino.ib k) (start g.n k) b
      (metaLbn g.n k) s
    have fetched := fetch_spec (g := g) env (pathOf g.n b (k + 1) (metaLbn g.n k)) 1
      (s.ino.ib k) s
    unfold Fetched.finish at h
    split at h
    next herr =>
      cases h
      refine ⟨fun h' => hleaf h'.2, fun h' => ⟨?_, fetched.freed, fetched.ino.size⟩⟩
      have hnews := length_pos_iff.mpr (hhole (fun hl => h' ⟨hib, hl⟩) herr)
      rw [fetched.ino.blocks]
      refine lt_add_of_pos_right _ (Int.natCast_pos.mpr (mul_pos hnews hpos))
    · cases h

variable (g) in
/-- **There is no hole at the new end**: it is between two blocks, or in one that is there. -/
def EndThere (s : Store) (length : ℕ) : Prop :=
  g.blkoff length = 0 ∨ Leaf (nodes g s) (g.lblkno length)

theorem clearEnd_spec (io : Io) (hlt : length < s.ino.size) :
    ∃ t err, clearEnd g io s length = some (t, err) ∧
      (err = none → Clears s t (EndThere g s length)) := by
  unfold clearEnd EndThere
  by_cases hoff : g.blkoff length = 0
  · rw [if_pos hoff]
    exact ⟨_, _, rfl, fun _ => ⟨fun _ => rfl, fun h => absurd (.inl hoff) h⟩⟩
  have hfrag : fragment g s (g.lblkno length) = none := by
    have : g.lblkno length ≤ g.lblkno s.ino.size := Nat.div_le_div_right hlt.le
    exact if_neg fun h => by omega
  simp only [hoff, false_or, if_false]
  by_cases hdirect : g.lblkno length < ndaddr
  · rw [balloc, extendLast, hfrag]
    dsimp only
    rw [if_pos hdirect, leaf_nodes_direct hdirect]
    exact clears_direct hlt hoff
  · rcases getlbns_cases g.toNindir (not_lt.mp hdirect) with hnone | ⟨k, b, hk, hb, -, hlbn, hpath⟩
    · rw [balloc, extendLast, hfrag]
      dsimp only
      rw [if_neg hdirect, hnone]
      exact ⟨_, _, rfl, by simp⟩
    · rw [balloc_eq_indirect _ _ (not_lt.mp hdirect) hfrag hpath]
      refine ⟨_, _, rfl, fun herr => ?_⟩
      rw [hlbn]
      exact clears_indirect hk hb (Prod.ext rfl herr)

/-! ## Every shortening -/

/-- What is freed is what is taken off `i_blocks`. -/
theorem release_blocks (io : Io) (length : ℕ) (p : Pass) : ∃ t, release g io length p = some t ∧
    ∃ l, t.s.freed = p.s.freed ++ l ∧ t.s.ino.blocks = p.s.ino.blocks - (p.count + sectors l) := by
  have hreleased := (levelLoop_skips (g := g) io (lastblock g length) niaddr p).toReleased
  rcases hloop : levelLoop g io (lastblock g length) niaddr p with ⟨p₁, done⟩
  rw [hloop] at hreleased
  obtain ⟨q, hq, hrest⟩ := release_eq hloop rfl rfl
  obtain ⟨l, hl, hcount⟩ := (hreleased.trans hrest.released).freed
  refine ⟨_, hq, l, hl, ?_⟩
  change q.s.ino.blocks - (q.count : ℤ) = _
  rw [(hreleased.trans hrest.released).blocks, hcount]
  rfl

/-- **Every shortening ends, and it is exact if and only if there is no hole at the new end.** -/
theorem truncate_exact_iff (g : Geom) (io : Io) (maxfilesize : ℕ) (s : Store) (length : ℕ)
    (consistent : Consistent g s) (cube : g.n ^ 3 < 2 ^ 31)
    (limit : s.ino.size ≤ start g.n niaddr * g.bsize) (hlt : length < s.ino.size) :
    ∃ t, truncate g io maxfilesize s length = some t ∧
      (t.err = none → (Exact g s length t ↔ EndThere g s length)) := by
  rw [truncate, if_neg hlt.ne', if_neg hlt.not_gt, shorten]
  obtain ⟨t, err, hclear, hspec⟩ := clearEnd_spec io hlt
  rw [hclear]
  cases err with
  | some e => exact ⟨_, rfl, nofun⟩
  | none =>
    have hclears := hspec rfl
    by_cases hthere : EndThere g s length
    · obtain rfl := hclears.same hthere
      have hK : keep g length ≤ start g.n niaddr := by
        refine Nat.le_of_lt_succ ((Nat.div_lt_iff_lt_mul g.bsize_pos).mpr ?_)
        rw [succ_mul]
        omega
      obtain ⟨q, hq, hexact⟩ := release_exact io consistent cube hK
        (if io.flush then none else some .eio)
      exact ⟨q, hq, fun herr => iff_of_true (hexact herr) hthere⟩
    · obtain ⟨hgrows, hfreed, hsize⟩ := hclears.grows hthere
      obtain ⟨q, hq, l, hl, hblocks⟩ := release_blocks io length
        ⟨{ t with ino := { t.ino with size := s.ino.size } }, [], 0,
          if io.flush then none else some .eio⟩
      refine ⟨q, hq, fun _ => iff_of_false (fun hexact => ?_) hthere⟩
      obtain ⟨l', hl', -, hblocks'⟩ := hexact.freed
      obtain rfl : l = l' := by
        rw [hfreed] at hl
        exact append_cancel_left (hl.symm.trans hl')
      change q.s.ino.blocks = t.ino.blocks - ((0 : ℕ) + sectors l) at hblocks
      omega

/-! ## A hole at the new end -/

/-- Everything succeeds, and block 40 is allocated. -/
def calm : Io where
  balloc := lastBlock 0
  flush := true
  read := fun _ => true
  write := fun _ => true

/-- A file of two blocks of which the first is a hole. -/
def holed : Store where
  ino := ⟨fun i => if i = 1 then 20 else 0, fun _ => 0, 8192, 8⟩
  mem := fun _ _ => 0
  used := (· == 20)
  freed := []

theorem reach_holed : reach fourK holed = [20] := by
  simp [reach, nodes, slot, tree, holed, niaddr, ndaddr, range_succ]

theorem consistent_holed : Consistent fourK holed where
  nodup := by simp [reach_holed]
  used := by
    rw [reach_holed]
    simp [holed]

theorem truncate_exact_iff_block : Consistent fourK holed ∧
    ∃ t, truncate fourK calm 0 holed 4096 = some t ∧ t.err = none ∧ Exact fourK holed 4096 t := by
  obtain ⟨t, ht, hexact⟩ := truncate_exact_iff fourK calm 0 holed 4096 consistent_holed (by decide)
    (by decide) (by decide)
  have hnone : (truncate fourK calm 0 holed 4096).map Pass.err = some none := by decide +kernel
  rw [ht] at hnone
  have herr : t.err = none := Option.some.inj hnone
  exact ⟨consistent_holed, t, ht, herr, (hexact herr).mpr (.inl (by decide))⟩

/-- The hole is filled: one sector more is in use, and fragments are freed that were not there. -/
theorem hole_filled : Consistent fourK holed ∧ ∃ t, truncate fourK calm 0 holed 100 = some t ∧
    t.err = none ∧ t.s.freed = [(20, 4096), (41, 3584)] ∧ t.s.ino.blocks = 1 ∧
    ¬ Exact fourK holed 100 t := by
  refine ⟨consistent_holed, _, rfl, ?_⟩
  refine ⟨by decide +kernel, by decide +kernel, by decide +kernel, fun hexact => ?_⟩
  obtain ⟨l, hl, -, hdiff⟩ := hexact.freed
  obtain rfl : l = [(20, 4096), (41, 3584)] := hl.symm
  revert hdiff
  decide +kernel

end BSDLite2.Ffs.Balloc
