import BSDLite2.Kern.Malloc

/-!
# The free lists of the kernel memory allocator

A bucket has blocks of one size, cut from pages that are its own, and links those that are free
through their first word.  `Core` ties the memory to a list for each bucket and to the live blocks:
free and live blocks are distinct, and `ku_freecnt` counts the free ones of each run of pages.  What
makes this work is that pages do not overlap (`Apart`), so that an address is in one run only and
`btokup` finds it.  `kb_last` is kept out of `Core`, since it is what goes wrong.

* `pieces_apart` — blocks and pages that are allocated do not overlap;
* `Core`, `Inv` — the lists, and the lists with `kb_last`;
* `Inv.take` — `malloc` from a list that is not empty;
* `link_spec`, `Core.fill` — new pages are cut, and their blocks come in front of the list.
-/

namespace BSDLite2.Malloc

open Function Linked List Nat

variable {P : Type} {m : Machine} {va : ℕ} {r' : Run}

/-! ## Sizes -/

/-- The bucket keeps its blocks. -/
def Machine.Small (m : Machine) (indx : ℕ) : Prop := 1 <<< indx ≤ m.maxallocsave

theorem Machine.clbytes_pos (m : Machine) : 0 < m.clbytes := Nat.two_pow_pos _

theorem Machine.small_iff {indx : ℕ} : m.Small indx ↔ indx ≤ m.clshift + 1 := by
  rw [Small, maxallocsave, clbytes, one_shiftLeft, ← pow_succ']
  exact Nat.pow_le_pow_iff_right (by decide)

theorem roundup_eq {k n : ℕ} (hn : 0 < n) : Machine.roundup (k * n) n = k * n := by
  rw [Machine.roundup, add_comm, add_mul_div_right _ _ hn, div_eq_of_lt (by omega), zero_add]

theorem le_roundup {k n : ℕ} (hn : 0 < n) : k ≤ Machine.roundup k n := by
  have := div_add_mod (k + (n - 1)) n
  have := mod_lt (k + (n - 1)) hn
  rw [Machine.roundup, mul_comm]
  omega

/-- Pages are got in clusters. -/
theorem clrnd_btoc (x : ℕ) : m.clrnd (m.btoc x) * m.nbpg = Machine.roundup x m.clbytes := by
  have hN : 0 < m.nbpg := Nat.two_pow_pos _
  have hC : 0 < 2 ^ m.clsizelog2 := Nat.two_pow_pos _
  have hCL : m.clbytes = m.nbpg * 2 ^ m.clsizelog2 := by
    rw [Machine.clbytes, Machine.clshift, pow_add, Machine.nbpg]
  have hround : m.btoc x + (2 ^ m.clsizelog2 - 1) = (x + (m.clbytes - 1)) / m.nbpg := by
    rw [Machine.btoc, Nat.shiftRight_eq_div_pow, ← Machine.nbpg, ← Nat.add_mul_div_right _ _ hN]
    congr 1
    have := Nat.mul_le_mul_left m.nbpg hC
    rw [Nat.sub_mul, Nat.mul_comm (2 ^ m.clsizelog2)]
    omega
  rw [Machine.clrnd, hround, Nat.div_div_eq_div_mul, Machine.roundup, hCL]
  ring

variable {size : ℕ}

theorem bucketindx_le {k : ℕ} (low : 4 ≤ k) (high : k ≤ 18) :
    bucketindx size ≤ k ↔ size ≤ 2 ^ k := by
  unfold bucketindx minallocsize minbucket
  interval_cases k <;> split_ifs <;> omega

theorem small_bucketindx : m.Small (bucketindx size) ↔ size ≤ m.maxallocsave := by
  have low := m.low
  have high := m.high
  have hshift : m.clshift = m.pgshift + m.clsizelog2 := rfl
  rw [Machine.small_iff, bucketindx_le (by omega) (by omega), Machine.maxallocsave, Machine.clbytes,
    ← pow_succ']

theorem allocsize_of_small (h : m.Small (bucketindx size)) :
    allocsize m size = 2 ^ bucketindx size := by
  rw [allocsize, if_neg (by rw [small_bucketindx] at h; omega), one_shiftLeft]

theorem lt_allocsize (h : ¬ m.Small (bucketindx size)) : m.maxallocsave < allocsize m size := by
  rw [small_bucketindx, not_le] at h
  rw [allocsize, if_pos h]
  exact h.trans_le (le_roundup m.clbytes_pos)

theorem Machine.elmpercl_pos (m : Machine) (indx : ℕ) : 0 < m.elmpercl indx := by
  rw [elmpercl]
  split_ifs with h
  · exact one_pos
  · exact Nat.div_pos (by omega) (by rw [Nat.one_shiftLeft]; exact Nat.two_pow_pos _)

/-- The blocks of a run lie in one cluster, or there is only one. -/
theorem Machine.elmpercl_cases {indx : ℕ} (small : m.Small indx) :
    m.elmpercl indx * 2 ^ indx = m.clbytes ∨
      m.elmpercl indx = 1 ∧ 2 ^ indx = 2 * m.clbytes := by
  rw [small_iff] at small
  rw [elmpercl, clbytes, one_shiftLeft]
  rcases lt_trichotomy indx m.clshift with lt | rfl | gt
  · left
    have hpow : 2 ^ indx < 2 ^ m.clshift := Nat.pow_lt_pow_right (by decide) lt
    rw [if_neg (by omega)]
    exact Nat.div_mul_cancel (Nat.pow_dvd_pow 2 lt.le)
  · left
    rw [if_pos le_rfl, one_mul]
  · right
    have heq : indx = m.clshift + 1 := by omega
    rw [heq, if_pos (Nat.pow_le_pow_right (by decide) (by omega)), pow_succ']
    exact ⟨rfl, rfl⟩

/-- The length of the pages for a bucket. -/
theorem npg_of_small (small : m.Small (bucketindx size)) :
    npg m size * m.nbpg = m.elmpercl (bucketindx size) * 2 ^ bucketindx size := by
  rw [npg, clrnd_btoc, allocsize_of_small small]
  have hCL := m.clbytes_pos
  rcases m.elmpercl_cases small with one | ⟨one, two⟩
  · have hpos : 0 < 2 ^ bucketindx size := Nat.two_pow_pos _
    have hle : 2 ^ bucketindx size ≤ m.clbytes := by
      rw [← one]
      exact Nat.le_mul_of_pos_left _ (m.elmpercl_pos _)
    rw [one, Machine.roundup, Nat.div_eq_of_lt_le (k := 1) (by omega) (by omega), Nat.one_mul]
  · rw [one, two, roundup_eq hCL, one_mul]

theorem npg_pos (size : ℕ) : 0 < npg m size * m.nbpg := by
  have hpos : 0 < allocsize m size := by
    by_cases small : m.Small (bucketindx size)
    · rw [allocsize_of_small small]
      exact Nat.two_pow_pos _
    · exact zero_lt_of_lt (lt_allocsize small)
  rw [npg, clrnd_btoc]
  exact hpos.trans_le (le_roundup m.clbytes_pos)

/-! ## Blocks -/

/-- Pages of the map are cut as their bucket says. -/
structure Run.Ok (m : Machine) (r : Run) : Prop where
  aligned : m.clbytes ∣ r.va
  pos : 0 < r.len
  len_eq : m.Small r.indx → r.len = m.elmpercl r.indx * 2 ^ r.indx

/-- A block of the pages. -/
def Run.Has (m : Machine) (r : Run) (a : ℕ) : Prop :=
  ∃ k < m.elmpercl r.indx, a = r.va + k * 2 ^ r.indx

/-- A block of a bucket. -/
def IsBlock (m : Machine) (map : List Run) (indx a : ℕ) : Prop :=
  m.Small indx ∧ ∃ r ∈ map, r.indx = indx ∧ r.Has m a

/-- Memory that is allocated at once: a block of a bucket, or pages of their own. -/
def Piece (m : Machine) (r : Run) (b : Block) : Prop :=
  (m.Small r.indx ∧ r.Has m b.addr ∧ b.size = 2 ^ r.indx) ∨
    ¬ m.Small r.indx ∧ b.addr = r.va ∧ b.size = r.len

/-- The pages do not overlap. -/
def Apart (r r' : Run) : Prop := r.va + r.len ≤ r'.va ∨ r'.va + r'.len ≤ r.va

section

variable {r r' : Run} {map : List Run} {a : ℕ} {b c : Block}

theorem Run.Ok.block_fits (ok : r.Ok m) (small : m.Small r.indx) (has : r.Has m a) :
    r.va ≤ a ∧ a + 2 ^ r.indx ≤ r.va + r.len := by
  obtain ⟨k, hk, rfl⟩ := has
  have := mul_le_mul_right (2 ^ r.indx) (succ_le_of_lt hk)
  rw [ok.len_eq small]
  rw [succ_mul] at this
  omega

theorem Piece.fits (piece : Piece m r b) (ok : r.Ok m) :
    r.va ≤ b.addr ∧ b.addr + b.size ≤ r.va + r.len ∧ 0 < b.size := by
  rcases piece with ⟨small, has, size⟩ | ⟨-, addr, size⟩
  · have := ok.block_fits small has
    have := Nat.two_pow_pos r.indx
    omega
  · have := ok.pos
    omega

/-- The address is in the pages. -/
def Run.Within (r : Run) (a : ℕ) : Prop := r.va ≤ a ∧ a < r.va + r.len

theorem Run.Ok.within_va (ok : r.Ok m) : r.Within r.va := ⟨le_rfl, Nat.lt_add_of_pos_right ok.pos⟩

theorem Run.Ok.within (ok : r.Ok m) (small : m.Small r.indx) (has : r.Has m a) : r.Within a := by
  have := ok.block_fits small has
  have := Nat.two_pow_pos r.indx
  exact ⟨by omega, by omega⟩

theorem Piece.within (piece : Piece m r b) (ok : r.Ok m) : r.Within b.addr := by
  have := piece.fits ok
  exact ⟨by omega, by omega⟩

/-- `btokup` finds the pages of a block. -/
theorem Run.Ok.btokup_block (ok : r.Ok m) (small : m.Small r.indx) (has : r.Has m a) :
    m.btokup a = m.btokup r.va := by
  obtain ⟨k, hk, rfl⟩ := has
  rw [Machine.btokup, Machine.btokup, shiftRight_eq_div_pow, shiftRight_eq_div_pow,
    ← Machine.clbytes]
  rcases m.elmpercl_cases small with one | ⟨one, -⟩
  · obtain ⟨j, hj⟩ := ok.aligned
    have hlt : k * 2 ^ r.indx < m.clbytes := by
      rw [← one]
      exact Nat.mul_lt_mul_of_pos_right hk (Nat.two_pow_pos _)
    rw [hj, Nat.mul_add_div m.clbytes_pos, Nat.div_eq_of_lt hlt, Nat.mul_div_cancel_left _
      m.clbytes_pos, Nat.add_zero]
  · obtain rfl : k = 0 := by omega
    rw [zero_mul, add_zero]

/-- Runs that are not apart are the same. -/
theorem run_unique (apart : map.Pairwise Apart) (hr : r ∈ map) (hr' : r' ∈ map)
    (meet : ¬ Apart r r') : r = r' := by
  by_contra differ
  have symm : Std.Symm Apart := ⟨fun _ _ => Or.symm⟩
  exact meet (apart.forall hr hr' differ)

theorem run_unique_of_within (apart : map.Pairwise Apart) (hr : r ∈ map) (hr' : r' ∈ map)
    (within : r.Within a) (within' : r'.Within a) : r = r' := by
  refine run_unique apart hr hr' fun h => ?_
  unfold Apart Run.Within at *
  omega

section

variable (ok : r.Ok m) (ok' : r'.Ok m) (apart : map.Pairwise Apart) (hr : r ∈ map) (hr' : r' ∈ map)

include ok ok' apart hr hr'

/-- Each run has a `kmemusage` of its own. -/
theorem run_unique_of_btokup (same : m.btokup r.va = m.btokup r'.va) : r = r' := by
  rw [Machine.btokup, Machine.btokup, Nat.shiftRight_eq_div_pow, Nat.shiftRight_eq_div_pow,
    ← Machine.clbytes] at same
  have heq : r.va = r'.va := by
    rw [← Nat.div_mul_cancel ok.aligned, same, Nat.div_mul_cancel ok'.aligned]
  exact run_unique_of_within apart hr hr' ok.within_va (heq ▸ ok'.within_va)

/-- **Pieces of memory do not overlap.** -/
theorem pieces_apart (hb : Piece m r b) (hc : Piece m r' c) (differ : b.addr ≠ c.addr) :
    b.addr + b.size ≤ c.addr ∨ c.addr + c.size ≤ b.addr := by
  have hbfits := hb.fits ok
  have hcfits := hc.fits ok'
  by_cases meet : Apart r r'
  · unfold Apart at meet
    omega
  · obtain rfl := run_unique apart hr hr' meet
    rcases hb with ⟨small, ⟨k, hk, haddr⟩, hsize⟩ | ⟨large, haddr, -⟩
    · rcases hc with ⟨-, ⟨j, hj, haddr'⟩, hsize'⟩ | ⟨large, -⟩
      · rcases lt_trichotomy k j with lt | rfl | gt
        · have := mul_le_mul_right (2 ^ r.indx) (succ_le_of_lt lt)
          rw [succ_mul] at this
          omega
        · exact absurd (haddr.trans haddr'.symm) differ
        · have := mul_le_mul_right (2 ^ r.indx) (succ_le_of_lt gt)
          rw [succ_mul] at this
          omega
      · exact absurd small large
    · rcases hc with ⟨small, -⟩ | ⟨-, haddr', -⟩
      · exact absurd small large
      · exact absurd (haddr.trans haddr'.symm) differ

end

end

/-! ## The invariant -/

/-- The live blocks in the pages `r`. -/
def liveIn (live : List Block) (r : Run) : List Block :=
  live.filter fun b => r.va ≤ b.addr ∧ b.addr < r.va + r.len

/-- The free lists are `fl`: all that does not concern `kb_last`. -/
structure Core (m : Machine) (s : State P) (fl : ℕ → List ℕ) : Prop where
  chain : ∀ i, Chain s.mem (s.bucket i).next (fl i)
  nodup : ∀ i, (fl i).Nodup
  mem_iff : ∀ i a, a ∈ fl i ↔ IsBlock m s.map i a ∧ a ∉ s.live.map Block.addr
  runs : ∀ r ∈ s.map, r.Ok m
  apart : s.map.Pairwise Apart
  usage : ∀ r ∈ s.map, (s.usage (m.btokup r.va)).indx = r.indx
  /-- `ku_freecnt` counts the blocks that are not live -/
  counts : ∀ r ∈ s.map, m.Small r.indx →
    (s.usage (m.btokup r.va)).cnt + (liveIn s.live r).length = m.elmpercl r.indx
  pieces : ∀ b ∈ s.live, ∃ r ∈ s.map, Piece m r b
  live_nodup : (s.live.map Block.addr).Nodup

/-- `kb_last` is the last block of the list, if there is one. -/
def Tail (kb : Bucket) (l : List ℕ) : Prop := l ≠ [] → kb.last = l.getLast?

/-- Between turns.  If the list is empty, `kb_last` may be a block that is not free any more. -/
structure Inv (m : Machine) (s : State P) : Prop where
  lists : ∃ fl, Core m s fl ∧ ∀ i, Tail (s.bucket i) (fl i)
  stale : ∀ i a, (s.bucket i).last = some a → IsBlock m s.map i a
  panicked : s.panicked = none ∨ s.panicked = some .tooLarge

section

variable {s : State P} {fl : ℕ → List ℕ} {r : Run} {i a : ℕ} {l : List ℕ} {b : Block}

theorem Core.eq_nil_iff (core : Core m s fl) : fl i = [] ↔ (s.bucket i).next = none := by
  constructor
  · intro hnil
    have chain := core.chain i
    rwa [hnil, chain_nil] at chain
  · intro hnext
    exact (core.chain i).unique (show Chain s.mem _ [] from hnext)

/-- A free block is not in another bucket. -/
theorem Core.not_mem_of_ne (core : Core m s fl) {j : ℕ} (differ : j ≠ i) (ha : a ∈ fl i) :
    a ∉ fl j := by
  intro ha'
  obtain ⟨⟨small, r, hr, rfl, has⟩, -⟩ := (core.mem_iff i a).mp ha
  obtain ⟨⟨small', r', hr', rfl, has'⟩, -⟩ := (core.mem_iff _ a).mp ha'
  exact differ (congrArg Run.indx (run_unique_of_within core.apart hr' hr
    ((core.runs r' hr').within small' has') ((core.runs r hr).within small has)))

/-- Blocks of a run that are in a list of distinct ones are at most as many as it has. -/
theorem length_le_elmpercl {as : List ℕ} (nodup : as.Nodup) (has : ∀ a ∈ as, r.Has m a) :
    as.length ≤ m.elmpercl r.indx := by
  have sub : as ⊆ (List.range (m.elmpercl r.indx)).map fun k => r.va + k * 2 ^ r.indx := by
    intro a ha
    obtain ⟨k, hk, rfl⟩ := has a ha
    exact mem_map.mpr ⟨k, mem_range.mpr hk, rfl⟩
  simpa using (nodup.subperm sub).length_le

theorem mem_liveIn {live : List Block} : b ∈ liveIn live r ↔ b ∈ live ∧ r.Within b.addr := by
  simp [liveIn, Run.Within]

section

variable (core : Core m s fl) (hr : r ∈ s.map)

include core hr

/-- A live block in the pages of a bucket is one of its blocks. -/
theorem Core.has_of_liveIn (small : m.Small r.indx)
    (hb : b ∈ liveIn s.live r) : r.Has m b.addr := by
  obtain ⟨hlive, within⟩ := mem_liveIn.mp hb
  obtain ⟨r', hr', piece⟩ := core.pieces b hlive
  obtain rfl :=
    run_unique_of_within core.apart hr' hr (piece.within (core.runs r' hr')) within
  exact piece.elim (fun h => h.2.1) fun h => absurd small h.1

/-- If a block is free, `ku_freecnt` is not 0. -/
theorem Core.cnt_pos (small : m.Small r.indx)
    (has : r.Has m a) (free : a ∉ s.live.map Block.addr) : 0 < (s.usage (m.btokup r.va)).cnt := by
  have nodup : (a :: (liveIn s.live r).map Block.addr).Nodup := by
    refine nodup_cons.mpr ⟨fun h => free ?_, ?_⟩
    · obtain ⟨b, hb, rfl⟩ := mem_map.mp h
      exact mem_map_of_mem (mem_liveIn.mp hb).1
    · exact core.live_nodup.sublist ((filter_sublist).map _)
  have bound := length_le_elmpercl nodup (by
    rw [forall_mem_cons, forall_mem_map]
    exact ⟨has, fun b hb => core.has_of_liveIn hr small hb⟩)
  have := core.counts r hr small
  rw [length_cons, length_map] at bound
  omega

/-- Another run has another `kmemusage`. -/
theorem Core.btokup_ne (hr' : r' ∈ s.map) (differ : r' ≠ r) : m.btokup r'.va ≠ m.btokup r.va :=
  fun same => differ
    (run_unique_of_btokup (core.runs r' hr') (core.runs r hr) core.apart hr' hr same)

end

theorem liveIn_cons (within : r.Within b.addr) (live : List Block) :
    liveIn (b :: live) r = b :: liveIn live r :=
  filter_cons_of_pos (decide_eq_true within)

/-- Live blocks of other pages do not count. -/
theorem Core.liveIn_cons_of_ne (core : Core m s fl) (hr : r ∈ s.map) (hr' : r' ∈ s.map)
    (differ : r' ≠ r) (within : r.Within b.addr) (live : List Block) :
    liveIn (b :: live) r' = liveIn live r' := by
  refine filter_cons_of_neg fun h => differ ?_
  exact run_unique_of_within core.apart hr' hr (by simpa [Run.Within] using h) within

/-! ## A block is taken -/

/-- What `malloc` does with a list that is not empty. -/
structure Taken (m : Machine) (s t : State P) (i a : ℕ) : Prop where
  next_eq : (t.bucket i).next = s.mem a
  next_of_ne : ∀ j, j ≠ i → (t.bucket j).next = (s.bucket j).next
  last_eq : ∀ j, (t.bucket j).last = (s.bucket j).last
  indx_eq : ∀ k, (t.usage k).indx = (s.usage k).indx
  cnt_eq : (t.usage (m.btokup a)).cnt = (s.usage (m.btokup a)).cnt - 1
  cnt_of_ne : ∀ k, k ≠ m.btokup a → (t.usage k).cnt = (s.usage k).cnt
  mem_eq : t.mem = s.mem
  map_eq : t.map = s.map
  live_eq : t.live = ⟨a, 2 ^ i⟩ :: s.live
  pc_eq : t.pc = s.pc
  panicked_eq : t.panicked = s.panicked

theorem Core.taken (core : Core m s fl) (hl : fl i = a :: l) : Taken m s (take m s i) i a := by
  have hnext : (s.bucket i).next = some a := by
    have := core.chain i
    rw [hl] at this
    exact this.1
  obtain ⟨⟨small, r, hr, rfl, has⟩, free⟩ := (core.mem_iff i a).mp (hl ▸ mem_cons_self)
  have hkup := (core.runs r hr).btokup_block small has
  have hindx : (s.usage (m.btokup a)).indx = r.indx := by rw [hkup, core.usage r hr]
  have hcnt : (s.usage (m.btokup a)).cnt ≠ 0 := by
    rw [hkup]
    exact (core.cnt_pos hr small has free).ne'
  rw [take, hnext]
  dsimp only
  rw [if_neg (not_not.mpr hindx), if_neg hcnt]
  refine ⟨by simp [State.return], fun j hj => ?_, fun j => ?_, fun k => ?_, ?_, fun k hk => ?_, rfl,
    rfl, by simp [State.return, one_shiftLeft], rfl, rfl⟩
  · simp [State.return, hj]
  · rcases eq_or_ne j r.indx with rfl | hj
    · simp [State.return]
    · simp [State.return, hj]
  · rcases eq_or_ne k (m.btokup a) with rfl | hk
    · simp [State.return]
    · simp [State.return, hk]
  · simp [State.return]
  · simp [State.return, hk]

variable {t : State P}

theorem Core.take (core : Core m s fl) (hl : fl i = a :: l) (taken : Taken m s t i a) :
    Core m t (update fl i l) := by
  have hmem : a ∈ fl i := hl ▸ mem_cons_self
  have hchain := core.chain i
  have hnodup := core.nodup i
  rw [hl] at hchain hnodup
  obtain ⟨fresh, hnodup⟩ := nodup_cons.mp hnodup
  obtain ⟨⟨small, r, hr, hindx, has⟩, free⟩ := (core.mem_iff i a).mp hmem
  subst hindx
  have ok := core.runs r hr
  have hkup := ok.btokup_block small has
  refine ⟨?_, (forall_update_iff fl fun _ l => l.Nodup).mpr ⟨hnodup, fun j _ => core.nodup j⟩,
    fun j x => ?_, taken.map_eq ▸ core.runs, taken.map_eq ▸ core.apart, fun r' hr' => ?_,
    fun r' hr' small' => ?_, fun b hb => ?_, ?_⟩
  · rw [taken.mem_eq]
    refine (forall_update_iff fl fun j l => Chain s.mem (t.bucket j).next l).mpr
      ⟨taken.next_eq ▸ hchain.2, fun j hj => ?_⟩
    rw [taken.next_of_ne j hj]
    exact core.chain j
  · have hx := core.mem_iff j x
    rw [taken.map_eq, taken.live_eq, map_cons, mem_cons, not_or, and_left_comm (a := _), ← hx]
    by_cases hj : j = r.indx
    · subst hj
      rw [update_self, hl, mem_cons]
      constructor
      · exact fun h => ⟨ne_of_mem_of_not_mem h fresh, .inr h⟩
      · exact fun h => h.2.resolve_left h.1
    · rw [update_of_ne hj]
      refine (and_iff_right_of_imp fun h => ?_).symm
      exact ne_of_mem_of_not_mem h (core.not_mem_of_ne hj hmem)
  · rw [taken.map_eq] at hr'
    rw [taken.indx_eq]
    exact core.usage r' hr'
  · rw [taken.map_eq] at hr'
    have counts := core.counts r' hr' small'
    rw [taken.live_eq]
    by_cases hsame : r' = r
    · subst hsame
      have := core.cnt_pos hr small has free
      rw [← hkup, taken.cnt_eq, hkup, liveIn_cons (ok.within small has), length_cons]
      omega
    · rwa [taken.cnt_of_ne _ (hkup ▸ core.btokup_ne hr hr' hsame),
        core.liveIn_cons_of_ne hr hr' hsame (ok.within small has)]
  · rw [taken.live_eq] at hb
    rw [taken.map_eq]
    rcases mem_cons.mp hb with rfl | hb
    · exact ⟨r, hr, .inl ⟨small, has, rfl⟩⟩
    · exact core.pieces b hb
  · rw [taken.live_eq]
    exact nodup_cons.mpr ⟨free, core.live_nodup⟩

/-- **`malloc` from a list that is not empty.** -/
theorem Inv.take (core : Core m s fl) (hl : fl i = a :: l)
    (tails : ∀ j, j ≠ i → Tail (s.bucket j) (fl j)) (tail : Tail (s.bucket i) l)
    (stale : ∀ i a, (s.bucket i).last = some a → IsBlock m s.map i a)
    (panicked : s.panicked = none ∨ s.panicked = some .tooLarge) : Inv m (take m s i) := by
  have taken := core.taken hl
  refine ⟨⟨update fl i l, core.take hl taken, ?_⟩, fun j x => ?_, ?_⟩
  · simp only [Tail, taken.last_eq]
    exact (forall_update_iff fl fun j l => Tail (s.bucket j) l).mpr ⟨tail, tails⟩
  · rw [taken.last_eq, taken.map_eq]
    exact stale j x
  · rw [taken.panicked_eq]
    exact panicked

/-! ## Pages are cut into blocks -/

/-- The blocks from `va + k * size` down to `va`. -/
def down (va size : ℕ) : ℕ → List ℕ
  | 0 => [va]
  | k + 1 => (va + (k + 1) * size) :: down va size k

theorem mem_down {va size k : ℕ} : a ∈ down va size k ↔ ∃ j ≤ k, a = va + j * size := by
  induction k with
  | zero => simp [down]
  | succ k ih =>
    rw [down, mem_cons, ih]
    constructor
    · rintro (rfl | ⟨j, hj, rfl⟩)
      · exact ⟨k + 1, le_rfl, rfl⟩
      · exact ⟨j, by omega, rfl⟩
    · rintro ⟨j, hj, rfl⟩
      rcases lt_or_eq_of_le hj with lt | rfl
      · exact .inr ⟨j, by omega, rfl⟩
      · exact .inl rfl

theorem nodup_down {va size : ℕ} (pos : 0 < size) (k : ℕ) : (down va size k).Nodup := by
  induction k with
  | zero => exact nodup_singleton _
  | succ k ih =>
    refine nodup_cons.mpr ⟨fun h => ?_, ih⟩
    obtain ⟨j, hj, heq⟩ := mem_down.mp h
    have := mul_lt_mul_of_pos_right (lt_succ_of_le hj) pos
    rw [succ_eq_add_one] at this
    omega

theorem getLast?_down (va size k : ℕ) : (down va size k).getLast? = some va := by
  induction k with
  | zero => rfl
  | succ k ih => rw [down, getLast?_cons, ih, Option.getD_some]

/-- The loop of `malloc` links the blocks, the last to what is stored there then. -/
theorem link_spec (va : ℕ) {size fuel k : ℕ} (mem : ℕ → Option ℕ) (pos : 0 < size)
    (enough : k < fuel) :
    ∃ mem', link va size fuel (va + k * size) mem = (mem', va) ∧
      (∀ x, x ∉ down va size k → mem' x = mem x) ∧
      ∀ q, Seg (update mem' va q) (some (va + k * size)) (down va size k) q := by
  induction k generalizing fuel mem with
  | zero =>
    obtain ⟨fuel, rfl⟩ := Nat.exists_eq_add_of_lt enough
    refine ⟨mem, by simp [link], fun _ _ => rfl, fun q => ?_⟩
    simp [down]
  | succ k ih =>
    obtain ⟨fuel, rfl⟩ : ∃ f, fuel = f + 1 := ⟨fuel - 1, by omega⟩
    have hstep : va + (k + 1) * size - size = va + k * size := by
      rw [Nat.add_mul]
      omega
    have hlt : va < va + (k + 1) * size :=
      Nat.lt_add_of_pos_right (Nat.mul_pos (Nat.succ_pos k) pos)
    have fresh : va + (k + 1) * size ∉ down va size k := by
      exact (nodup_cons.mp (nodup_down pos (k + 1))).1
    obtain ⟨mem', hlink, frame, seg⟩ :=
      ih (update mem (va + (k + 1) * size) (some (va + k * size))) (by omega : k < fuel)
    refine ⟨mem', ?_, fun x hx => ?_, fun q => ⟨rfl, ?_⟩⟩
    · rw [link, if_neg (by omega), hstep, hlink]
    · rw [down, mem_cons, not_or] at hx
      rw [frame x hx.2, update_of_ne hx.1]
    · rw [update_of_ne hlt.ne', frame _ fresh, update_self]
      exact seg q

/-- What the pages that `malloc` has got for a bucket become. -/
structure Filled (m : Machine) (s t : State P) (i va : ℕ) : Prop where
  next_eq : (t.bucket i).next = some (va + (m.elmpercl i - 1) * 2 ^ i)
  bucket_of_ne : ∀ j, j ≠ i → t.bucket j = s.bucket j
  seg : Seg t.mem (t.bucket i).next (down va (2 ^ i) (m.elmpercl i - 1)) (s.bucket i).next
  frame : ∀ x, x ∉ down va (2 ^ i) (m.elmpercl i - 1) → t.mem x = s.mem x
  usage_eq : t.usage (m.btokup va) = ⟨i, m.elmpercl i⟩
  usage_of_ne : ∀ k, k ≠ m.btokup va → t.usage k = s.usage k
  map_eq : t.map = ⟨va, m.elmpercl i * 2 ^ i, i⟩ :: s.map
  live_eq : t.live = s.live

/-- New pages, in no entry of the map. -/
structure NewRun (m : Machine) (s : State P) (r : Run) : Prop where
  ok : r.Ok m
  apart : ∀ r' ∈ s.map, Apart r r'

theorem mem_down_iff :
    a ∈ down va (2 ^ i) (m.elmpercl i - 1) ↔ (⟨va, m.elmpercl i * 2 ^ i, i⟩ : Run).Has m a := by
  have := m.elmpercl_pos i
  rw [mem_down]
  refine exists_congr fun k => and_congr_left fun _ => ?_
  dsimp only
  omega

/-- New pages are not in those of the map. -/
theorem NewRun.not_within (new : NewRun m s r) (hr' : r' ∈ s.map)
    (within : r'.Within a) : ¬ r.Within a := by
  have := new.apart r' hr'
  unfold Apart Run.Within at *
  omega

section

variable (new : NewRun m s r) (core : Core m s fl)

include new core

theorem NewRun.not_has {j : ℕ} (block : IsBlock m s.map j a) : ¬ r.Within a := by
  obtain ⟨small, r', hr', rfl, has⟩ := block
  exact new.not_within hr' ((core.runs r' hr').within small has)

/-- New pages have no live blocks. -/
theorem NewRun.not_live (hb : b ∈ s.live) : ¬ r.Within b.addr := by
  obtain ⟨r', hr', piece⟩ := core.pieces b hb
  exact new.not_within hr' (piece.within (core.runs r' hr'))

theorem NewRun.btokup_ne (hr' : r' ∈ s.map) : m.btokup r'.va ≠ m.btokup r.va := by
  intro same
  have apart : (r :: s.map).Pairwise Apart := pairwise_cons.mpr ⟨new.apart, core.apart⟩
  have heq := run_unique_of_btokup (core.runs r' hr') new.ok apart (mem_cons_of_mem _ hr')
    mem_cons_self same
  exact new.not_within hr' (heq ▸ new.ok.within_va) new.ok.within_va

end

theorem isBlock_cons {map : List Run} {j : ℕ} :
    IsBlock m (r :: map) j a ↔ m.Small j ∧ r.indx = j ∧ r.Has m a ∨ IsBlock m map j a := by
  simp only [IsBlock, mem_cons, exists_eq_or_imp, and_or_left]

theorem NewRun.liveIn_eq (new : NewRun m s r) (core : Core m s fl) : liveIn s.live r = [] := by
  rw [eq_nil_iff_forall_not_mem]
  intro b hb
  obtain ⟨hlive, within⟩ := mem_liveIn.mp hb
  exact new.not_live core hlive within

/-- **The blocks of new pages come in front of the list.** -/
theorem Core.fill (core : Core m s fl) (small : m.Small i)
    (new : NewRun m s ⟨va, m.elmpercl i * 2 ^ i, i⟩) (filled : Filled m s t i va) :
    Core m t (update fl i (down va (2 ^ i) (m.elmpercl i - 1) ++ fl i)) := by
  have old : ∀ j x, x ∈ fl j → x ∉ down va (2 ^ i) (m.elmpercl i - 1) := by
    intro j x hx hdown
    exact new.not_has core ((core.mem_iff j x).mp hx).1
      (new.ok.within small (mem_down_iff.mp hdown))
  have kept : ∀ j, Chain t.mem (s.bucket j).next (fl j) := fun j =>
    (core.chain j).congr fun x hx => filled.frame x (old j x hx)
  refine ⟨(forall_update_iff fl fun j l => Chain t.mem (t.bucket j).next l).mpr
      ⟨filled.seg.chain (kept i), fun j hj => ?_⟩,
    (forall_update_iff fl fun _ l => l.Nodup).mpr ⟨nodup_append'.mpr
      ⟨nodup_down (Nat.two_pow_pos _) _, core.nodup i, fun x hx hx' => old i x hx' hx⟩,
      fun j _ => core.nodup j⟩,
    fun j x => ?_, ?_, ?_, fun r hr => ?_, fun r hr small' => ?_, fun b hb => ?_,
    filled.live_eq ▸ core.live_nodup⟩
  · rw [filled.bucket_of_ne j hj]
    exact kept j
  · rw [filled.map_eq, filled.live_eq, isBlock_cons, or_and_right, ← core.mem_iff]
    by_cases hj : j = i
    · subst hj
      rw [update_self, mem_append, mem_down_iff]
      refine or_congr_left ⟨fun has => ⟨⟨small, rfl, has⟩, fun hlive => ?_⟩, fun h => h.1.2.2⟩
      obtain ⟨b, hb, rfl⟩ := mem_map.mp hlive
      exact new.not_live core hb (new.ok.within small has)
    · rw [update_of_ne hj]
      exact (or_iff_right fun h => hj h.1.2.1.symm).symm
  · rw [filled.map_eq]
    exact forall_mem_cons.mpr ⟨new.ok, core.runs⟩
  · rw [filled.map_eq]
    exact pairwise_cons.mpr ⟨new.apart, core.apart⟩
  · rw [filled.map_eq] at hr
    rcases mem_cons.mp hr with rfl | hr
    · rw [filled.usage_eq]
    · rw [filled.usage_of_ne _ (new.btokup_ne core hr)]
      exact core.usage r hr
  · rw [filled.map_eq] at hr
    rw [filled.live_eq]
    rcases mem_cons.mp hr with rfl | hr
    · rw [filled.usage_eq, new.liveIn_eq core, length_nil, add_zero]
    · rw [filled.usage_of_ne _ (new.btokup_ne core hr)]
      exact core.counts r hr small'
  · rw [filled.live_eq] at hb
    rw [filled.map_eq]
    obtain ⟨r, hr, piece⟩ := core.pieces b hb
    exact ⟨r, mem_cons_of_mem _ hr, piece⟩

end

end BSDLite2.Malloc
