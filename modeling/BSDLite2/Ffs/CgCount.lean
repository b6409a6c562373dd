import BSDLite2.Ffs.Cg

/-!
# What the summaries of a cylinder group count

Every summary is a sum over the blocks of the group, so a change of one block changes it by
the difference for that block.  A call then has to be compared with the map for the blocks that it
touches only; the counts of free runs are no exception, as a run never leaves its block.

* `Sums` — the summaries of a group, with its map;
* `Matches` — they are what the map says;
* `Recount` — a block changes and the summaries follow;
* `Matches.recounts` — then they match again.
-/

namespace BSDLite2.Ffs

open Function Runs Finset

/-! ## A block -/

/-- All the fragments are free. -/
def full (l : List Bool) : Bool := l.all id

/-- A wholly free block. -/
def whole (l : List Bool) : ℤ := if full l then 1 else 0

/-- The free fragments of a block that is not wholly free. -/
def loose (l : List Bool) : ℤ := if full l then 0 else l.count true

/-- The runs of `k` free fragments of a block that is not wholly free. -/
def lone (k : ℕ) (l : List Bool) : ℤ := if full l then 0 else runs k l

variable {fs : Fs} {k n : ℕ}

variable {l : List Bool}

theorem full_iff : full l = true ↔ l = List.replicate l.length true := by
  rw [List.eq_replicate_iff, full, List.all_eq_true]
  exact (and_iff_right rfl).symm

theorem full_replicate : full (List.replicate n true) = true := by
  rw [full_iff, List.length_replicate]

theorem not_full_of_mem (h : false ∈ l) : full l = false := by
  rw [← Bool.not_eq_true, full, List.all_eq_true]
  intro all
  cases all false h

theorem whole_true : whole (List.replicate n true) = 1 := if_pos full_replicate

theorem loose_true : loose (List.replicate n true) = 0 := if_pos full_replicate

theorem lone_true : lone k (List.replicate n true) = 0 := if_pos full_replicate

theorem full_false (hn : 0 < n) : full (List.replicate n false) = false :=
  not_full_of_mem (List.mem_replicate.mpr ⟨hn.ne', rfl⟩)

theorem whole_of_not_full (h : full l = false) : whole l = 0 := by simp [whole, h]

theorem loose_of_not_full (h : full l = false) : loose l = l.count true := by
  simp [loose, h]

theorem lone_of_not_full (h : full l = false) : lone k l = runs k l := by
  simp [lone, h]

theorem loose_false (hn : 0 < n) : loose (List.replicate n false) = 0 := by
  rw [loose_of_not_full (full_false hn), List.count_replicate]
  rfl

theorem lone_false (hn : 0 < n) (hk : k ≠ 0) : lone k (List.replicate n false) = 0 := by
  have := runs_replicate_false_append (l := []) hk n
  rw [lone_of_not_full (full_false hn), ← List.append_nil (List.replicate n false), this,
    runs_nil hk]
  rfl

theorem whole_replicate (hn : 0 < n) (v : Bool) :
    whole (List.replicate n v) = if v then 1 else 0 := by
  cases v with
  | false => exact whole_of_not_full (full_false hn)
  | true => exact whole_true

theorem loose_replicate (hn : 0 < n) (v : Bool) : loose (List.replicate n v) = 0 := by
  cases v with
  | false => exact loose_false hn
  | true => exact loose_true

theorem lone_replicate (hn : 0 < n) (hk : k ≠ 0) (v : Bool) : lone k (List.replicate n v) = 0 := by
  cases v with
  | false => exact lone_false hn hk
  | true => exact lone_true

/-- A wholly free block has no shorter run. -/
theorem lone_eq_runs (hk : k < l.length) : lone k l = runs k l := by
  by_cases h : full l = true
  · rw [full_iff.mp h, lone_true, runs_replicate_true, if_neg hk.ne']
    rfl
  · exact lone_of_not_full (Bool.eq_false_iff.mpr h)

/-! ## A group -/

/-- The summaries of a group and its map. -/
structure Sums where
  cgx : ℕ
  magic : Bool
  cs : Csum
  frsum : ℕ → ℤ
  blktot : ℕ → ℤ
  blks : ℕ → ℕ → ℤ
  blksfree : Bytes
  /-- `fs_cs` -/
  core : Csum
  /-- `fs_cstotal` -/
  total : Csum

/-- What is counted of a group. -/
def Group.sums (g : Group) : Sums where
  cgx := g.cg.cgx
  magic := g.cg.magic
  cs := g.cg.cs
  frsum := g.cg.frsum
  blktot := g.cg.blktot
  blks := g.cg.blks
  blksfree := g.cg.blksfree
  core := g.cs
  total := g.cstotal

variable (fs) in
/-- **The summaries match the map.** -/
structure Matches (s : Sums) : Prop where
  nbfree : s.cs.nbfree = ∑ b ∈ range fs.nblk, whole (blk fs s.blksfree b)
  nffree : s.cs.nffree = ∑ b ∈ range fs.nblk, loose (blk fs s.blksfree b)
  frsum : ∀ k, 1 ≤ k → k < fs.frag →
    s.frsum k = ∑ b ∈ range fs.nblk, lone k (blk fs s.blksfree b)
  blktot : ∀ c, s.blktot c = ∑ b ∈ range fs.nblk,
    if fs.cbtocylno (b * fs.frag) = c then whole (blk fs s.blksfree b) else 0
  blks : ∀ c p, s.blks c p = ∑ b ∈ range fs.nblk,
    if fs.cbtocylno (b * fs.frag) = c ∧ fs.cbtorpos (b * fs.frag) = p then
      whole (blk fs s.blksfree b) else 0
  outside : ∀ i, fs.fpg ≤ i → bit s.blksfree i = false

/-- The counts in the superblock change as those in the group do. -/
structure InStep (s s' : Sums) : Prop where
  cgx : s'.cgx = s.cgx
  magic : s'.magic = s.magic
  core_nbfree : s'.core.nbfree - s.core.nbfree = s'.cs.nbfree - s.cs.nbfree
  core_nffree : s'.core.nffree - s.core.nffree = s'.cs.nffree - s.cs.nffree
  total_nbfree : s'.total.nbfree - s.total.nbfree = s'.cs.nbfree - s.cs.nbfree
  total_nffree : s'.total.nffree - s.total.nffree = s'.cs.nffree - s.cs.nffree

variable (fs) in
/-- **The block `b` changes** and the summaries follow. -/
structure Recount (s s' : Sums) (b : ℕ) : Prop where
  lt : b < fs.nblk
  other : ∀ i, i / fs.frag ≠ b → bit s'.blksfree i = bit s.blksfree i
  nbfree : s'.cs.nbfree =
    s.cs.nbfree + (whole (blk fs s'.blksfree b) - whole (blk fs s.blksfree b))
  nffree : s'.cs.nffree =
    s.cs.nffree + (loose (blk fs s'.blksfree b) - loose (blk fs s.blksfree b))
  frsum : ∀ k, 1 ≤ k → k < fs.frag → s'.frsum k =
    s.frsum k + (lone k (blk fs s'.blksfree b) - lone k (blk fs s.blksfree b))
  blktot : ∀ c, s'.blktot c = s.blktot c + if fs.cbtocylno (b * fs.frag) = c then
    whole (blk fs s'.blksfree b) - whole (blk fs s.blksfree b) else 0
  blks : ∀ c p, s'.blks c p = s.blks c p +
    if fs.cbtocylno (b * fs.frag) = c ∧ fs.cbtorpos (b * fs.frag) = p then
      whole (blk fs s'.blksfree b) - whole (blk fs s.blksfree b) else 0
  core : InStep s s'

variable (fs) in
/-- Blocks change one after the other. -/
def Recounts : Sums → Sums → Prop := Relation.ReflTransGen fun s s' => ∃ b, Recount fs s s' b

variable {s' s : Sums}

theorem InStep.of_eq (cgx : s'.cgx = s.cgx) (magic : s'.magic = s.magic) (cs : s'.cs = s.cs)
    (core : s'.core = s.core) (total : s'.total = s.total) : InStep s s' := by
  constructor <;> simp [cgx, magic, cs, core, total]

theorem InStep.trans {s'' : Sums} (h : InStep s s') (h' : InStep s' s'') : InStep s s'' where
  cgx := h'.cgx.trans h.cgx
  magic := h'.magic.trans h.magic
  core_nbfree := by linarith [h.core_nbfree, h'.core_nbfree]
  core_nffree := by linarith [h.core_nffree, h'.core_nffree]
  total_nbfree := by linarith [h.total_nbfree, h'.total_nbfree]
  total_nffree := by linarith [h.total_nffree, h'.total_nffree]

variable {b : ℕ}

theorem Recount.recounts (h : Recount fs s s' b) : Recounts fs s s' :=
  .single ⟨b, h⟩

theorem Recounts.inStep (h : Recounts fs s s') : InStep s s' := by
  induction h with
  | refl => exact .of_eq rfl rfl rfl rfl rfl
  | tail _ h ih =>
    obtain ⟨b, h⟩ := h
    exact ih.trans h.core

theorem div_block {j : ℕ} (hj : j < fs.frag) : (b * fs.frag + j) / fs.frag = b := by
  rw [Nat.mul_comm, Nat.mul_add_div fs.frag_pos, Nat.div_eq_of_lt hj, Nat.add_zero]

theorem blk_congr {a a' : Bytes} (h : ∀ i, i / fs.frag = b → bit a' i = bit a i) :
    blk fs a' b = blk fs a b :=
  seg_congr fun _ hj => h _ (div_block hj)

theorem div_lt_nblk {i : ℕ} : i / fs.frag < fs.nblk ↔ i < fs.fpg := by
  rw [Nat.div_lt_iff_lt_mul fs.frag_pos, fs.nblk_mul]

/-- **A sum over the blocks** changes by its term for the block that changes. -/
theorem Recount.sum (h : Recount fs s s' b) (f : ℕ → List Bool → ℤ) :
    ∑ c ∈ range fs.nblk, f c (blk fs s'.blksfree c) =
      ∑ c ∈ range fs.nblk, f c (blk fs s.blksfree c) +
        (f b (blk fs s'.blksfree b) - f b (blk fs s.blksfree b)) := by
  have hmem : b ∈ range fs.nblk := mem_range.mpr h.lt
  have hrest : ∑ c ∈ (range fs.nblk).erase b, f c (blk fs s'.blksfree c) =
      ∑ c ∈ (range fs.nblk).erase b, f c (blk fs s.blksfree c) := by
    refine sum_congr rfl fun c hc => ?_
    rw [blk_congr fun i hi => h.other i (hi ▸ ne_of_mem_erase hc)]
  rw [← add_sum_erase _ _ hmem, ← add_sum_erase _ (fun c => f c (blk fs s.blksfree c)) hmem, hrest]
  ring

/-- **The summaries match** after a block has changed. -/
theorem Matches.recount (matches_ : Matches fs s) (h : Recount fs s s' b) : Matches fs s' := by
  constructor
  case nbfree => rw [h.nbfree, matches_.nbfree, h.sum fun _ => whole]
  case nffree => rw [h.nffree, matches_.nffree, h.sum fun _ => loose]
  case frsum =>
    intro k hk lt
    rw [h.frsum k hk lt, matches_.frsum k hk lt, h.sum fun _ => lone k]
  case blktot =>
    intro c
    rw [h.blktot c, matches_.blktot c,
      h.sum fun b l => if fs.cbtocylno (b * fs.frag) = c then whole l else 0]
    split_ifs <;> ring
  case blks =>
    intro c p
    rw [h.blks c p, matches_.blks c p, h.sum fun b l =>
      if fs.cbtocylno (b * fs.frag) = c ∧ fs.cbtorpos (b * fs.frag) = p then whole l else 0]
    split_ifs <;> ring
  case outside =>
    intro i hi
    have hne : i / fs.frag ≠ b := by
      have := div_lt_nblk.not.mpr (not_lt.mpr hi)
      have := h.lt
      omega
    rw [h.other i hne, matches_.outside i hi]

theorem Matches.recounts (matches_ : Matches fs s) (h : Recounts fs s s') : Matches fs s' := by
  induction h with
  | refl => exact matches_
  | tail _ h ih =>
    obtain ⟨b, h⟩ := h
    exact ih.recount h

end BSDLite2.Ffs
