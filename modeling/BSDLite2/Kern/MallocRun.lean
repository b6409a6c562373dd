import BSDLite2.Kern.MallocList
import BSDLite2.Lib.Schedule

/-!
# Processes that share the kernel memory allocator

A process that finds its bucket empty clears `kb_last` and sleeps in `kmem_malloc`.  When
it wakes up, others may have freed blocks of the bucket and allocated them again: the list
is empty, as before, but `kb_last` is not null, so that the test `kb->kb_last == NULL`
leaves it as it is although the last block of the list is now the first of the new pages.
The next `free` links its block behind a block that is not free.

* `Core.free`, `Core.kmemFree`, `Core.store`, `Core.map` — what the other turns do to the
  lists;
* `Intact` — the lists are as they should be;
* `inv_step` — a turn that meets `Tracked` keeps the invariant, and any other breaks a list;
* `intact_iff_tracked` — the condition for whole runs;
* `stale_last` — a run that breaks a list.
-/

namespace BSDLite2.Malloc

open Function Linked Schedule List Option Nat

variable {P : Type} {m : Machine} {s t : State P} {fl : ℕ → List ℕ} {r : Run} {i a : ℕ}
  {b : Block}

/-! ## A block is freed -/

/-- What `free` does with a block of a bucket. -/
structure Freed (m : Machine) (s t : State P) (l : List ℕ) (i : ℕ) (b : Block) : Prop where
  chain : Chain t.mem (t.bucket i).next (l ++ [b.addr])
  frame : ∀ x, x ∉ l → x ≠ b.addr → t.mem x = s.mem x
  last_eq : (t.bucket i).last = some b.addr
  bucket_of_ne : ∀ j, j ≠ i → t.bucket j = s.bucket j
  indx_eq : ∀ k, (t.usage k).indx = (s.usage k).indx
  cnt_eq : (t.usage (m.btokup b.addr)).cnt = (s.usage (m.btokup b.addr)).cnt + 1
  cnt_of_ne : ∀ k, k ≠ m.btokup b.addr → (t.usage k).cnt = (s.usage k).cnt
  map_eq : t.map = s.map
  perm : s.live.Perm (b :: t.live)
  panicked_eq : t.panicked = s.panicked

/-- Only the block is no longer live. -/
theorem Core.live_perm (core : Core m s fl) (hb : b ∈ s.live) :
    s.live.Perm (b :: s.live.filter fun c => c.addr ≠ b.addr) := by
  have inj : ∀ c ∈ s.live, c.addr = b.addr → c = b := fun c hc =>
    inj_on_of_nodup_map core.live_nodup hc hb
  refine (perm_cons_erase hb).trans (List.Perm.cons b (List.Perm.of_eq ?_))
  rw [core.live_nodup.of_map.erase_eq_filter]
  refine filter_congr fun c hc => ?_
  by_cases heq : c = b
  · simp [heq]
  · have hne : c.addr ≠ b.addr := fun h => heq (inj c hc h)
    simp [heq, hne]

variable {live : List Block}

theorem mem_live_of_perm (perm : s.live.Perm (b :: live)) {c : Block} (hc : c ∈ live) :
    c ∈ s.live := perm.mem_iff.mpr (mem_cons_of_mem _ hc)

theorem liveIn_of_perm (perm : s.live.Perm (b :: live)) :
    (liveIn s.live r).length = (liveIn (b :: live) r).length :=
  (perm.filter _).length_eq

/-- The blocks that are left have other addresses. -/
theorem Core.nodup_of_perm (core : Core m s fl) (perm : s.live.Perm (b :: live)) :
    b.addr ∉ live.map Block.addr ∧ (live.map Block.addr).Nodup := by
  have := (perm.map Block.addr).nodup_iff.mp core.live_nodup
  exact nodup_cons.mp this

theorem Core.free (core : Core m s fl) (hr : r ∈ s.map) (small : m.Small r.indx)
    (has : r.Has m b.addr) (freed : Freed m s t (fl r.indx) r.indx b) :
    Core m t (update fl r.indx (fl r.indx ++ [b.addr])) := by
  have ok := core.runs r hr
  have hkup := ok.btokup_block small has
  have hlive : b.addr ∈ s.live.map Block.addr :=
    mem_map_of_mem (freed.perm.mem_iff.mpr mem_cons_self)
  obtain ⟨gone, hnodup⟩ := core.nodup_of_perm freed.perm
  have notFree : ∀ j, b.addr ∉ fl j := fun j h => ((core.mem_iff j _).mp h).2 hlive
  have addrs : ∀ x, x ∉ t.live.map Block.addr ↔ x ∉ s.live.map Block.addr ∨ x = b.addr := by
    intro x
    rw [(freed.perm.map Block.addr).mem_iff, map_cons, mem_cons]
    by_cases hx : x = b.addr
    · simp [hx, gone]
    · simp [hx]
  refine ⟨(forall_update_iff fl fun j l => Chain t.mem (t.bucket j).next l).mpr
      ⟨freed.chain, fun j hj => ?_⟩,
    (forall_update_iff fl fun _ l => l.Nodup).mpr ⟨nodup_append'.mpr ⟨core.nodup _, nodup_singleton _,
      disjoint_singleton.mpr (notFree _)⟩, fun j _ => core.nodup j⟩,
    fun j x => ?_, freed.map_eq ▸ core.runs, freed.map_eq ▸ core.apart, fun r' hr' => ?_,
    fun r' hr' small' => ?_, fun c hc => ?_, hnodup⟩
  · rw [freed.bucket_of_ne j hj]
    refine (core.chain j).congr fun x hx => freed.frame x ?_ ?_
    · exact core.not_mem_of_ne (Ne.symm hj) hx
    · rintro rfl
      exact notFree j hx
  · rw [freed.map_eq, addrs, and_or_left, ← core.mem_iff]
    by_cases hj : j = r.indx
    · subst hj
      rw [update_self, mem_append, mem_singleton]
      refine or_congr_right (iff_and_self.mpr ?_)
      rintro rfl
      exact ⟨small, r, hr, rfl, has⟩
    · rw [update_of_ne hj]
      refine (or_iff_left ?_).symm
      -- the block is of one bucket only
      rintro ⟨⟨small', r', hr', hindx', has'⟩, rfl⟩
      subst hindx'
      exact hj (congrArg Run.indx (run_unique_of_within core.apart hr' hr
        ((core.runs r' hr').within small' has') (ok.within small has)))
  · rw [freed.map_eq] at hr'
    rw [freed.indx_eq]
    exact core.usage r' hr'
  · rw [freed.map_eq] at hr'
    have counts := core.counts r' hr' small'
    rw [liveIn_of_perm freed.perm] at counts
    by_cases hsame : r' = r
    · subst hsame
      rw [liveIn_cons (ok.within small has), length_cons] at counts
      rw [← hkup, freed.cnt_eq, hkup]
      omega
    · rw [core.liveIn_cons_of_ne hr hr' hsame (ok.within small has)] at counts
      rwa [freed.cnt_of_ne _ (hkup ▸ core.btokup_ne hr hr' hsame)]
  · rw [freed.map_eq]
    exact core.pieces c (mem_live_of_perm freed.perm hc)

/-- `free` once it knows what to write. -/
theorem freed_of_chain {mem : ℕ → Option ℕ} {kb : Bucket} {l : List ℕ}
    (chain : Chain mem kb.next (l ++ [b.addr])) (last : kb.last = some b.addr)
    (frame : ∀ x, x ∉ l → x ≠ b.addr → mem x = s.mem x) (perm : s.live.Perm (b :: live)) :
    Freed m s { s with
      live := live
      usage := update s.usage (m.btokup b.addr)
        { s.usage (m.btokup b.addr) with cnt := (s.usage (m.btokup b.addr)).cnt + 1 }
      mem := mem
      bucket := update s.bucket i kb } l i b := by
  refine ⟨?_, frame, ?_, fun j hj => update_of_ne hj .., fun k => ?_, ?_, fun k hk => ?_, rfl, perm,
    rfl⟩
  · dsimp only
    rwa [update_self]
  · dsimp only
    rwa [update_self]
  · by_cases hk : k = m.btokup b.addr
    · simp [hk]
    · simp [update_of_ne hk]
  · simp
  · simp [update_of_ne hk]

/-- `free` of a block whose list is well formed. -/
theorem Core.freed (core : Core m s fl) (tail : Tail (s.bucket r.indx) (fl r.indx))
    (hb : b ∈ s.live) (hr : r ∈ s.map) (small : m.Small r.indx) (has : r.Has m b.addr) :
    Freed m s (Malloc.free m s b.addr) (fl r.indx) r.indx b := by
  have ok := core.runs r hr
  have hkup := ok.btokup_block small has
  have hindx : (s.usage (m.btokup b.addr)).indx = r.indx := by rw [hkup, core.usage r hr]
  have hcnt : ¬ (s.usage (m.btokup b.addr)).cnt + 1 > m.elmpercl r.indx := by
    have counts := core.counts r hr small
    have := length_pos_of_mem (mem_liveIn.mpr ⟨hb, ok.within small has⟩)
    rw [hkup]
    omega
  have notFree : b.addr ∉ fl r.indx := fun h =>
    ((core.mem_iff _ _).mp h).2 (mem_map_of_mem hb)
  have hlarge : ¬ 1 <<< r.indx > m.maxallocsave := not_lt.mpr small
  have chain := core.chain r.indx
  have nodup := core.nodup r.indx
  have perm := core.live_perm hb
  rw [Malloc.free]
  rcases eq_nil_or_concat' (fl r.indx) with hnil | ⟨l, z, hl⟩
  · rw [hnil] at chain ⊢
    have hnext : (s.bucket r.indx).next = none := chain
    simp only [hindx, if_neg hlarge, if_neg hcnt, hnext]
    refine hindx ▸ freed_of_chain ?_ rfl (fun x _ hx => update_of_ne hx ..) perm
    simp
  · rw [hl] at chain notFree nodup ⊢
    have hlast : (s.bucket r.indx).last = some z := by simpa [hl] using tail (by simp [hl])
    have hz : z ∉ l := fun h =>
      (nodup_append.mp nodup).2.2 z h z mem_cons_self rfl
    obtain ⟨next, hnext⟩ : ∃ next, (s.bucket r.indx).next = some next := by
      cases l with
      | nil => exact ⟨z, chain.1⟩
      | cons y l => exact ⟨y, chain.1⟩
    rw [hnext] at chain
    simp only [hindx, if_neg hlarge, if_neg hcnt, hnext, hlast]
    refine hindx ▸ freed_of_chain ?_ rfl (fun x hx hx' => ?_) perm
    · rw [append_assoc]
      exact chain.snoc hz notFree
    · rw [update_of_ne hx', update_of_ne]
      rintro rfl
      exact hx (by simp)

/-! ## Pages come and go -/

/-- The lists depend on the words of free blocks only. -/
theorem Core.congr (core : Core m s fl) (next : ∀ j, (t.bucket j).next = (s.bucket j).next)
    (mem : ∀ j, ∀ x ∈ fl j, t.mem x = s.mem x) (usage : t.usage = s.usage) (map : t.map = s.map)
    (live : t.live = s.live) : Core m t fl := by
  obtain ⟨_, _, _, _, _, _, _⟩ := t
  subst usage map live
  refine { core with chain := fun j => ?_ }
  rw [next]
  exact (core.chain j).congr (mem j)

/-- A free block is not part of a live one. -/
theorem Core.not_mem_of_inside (core : Core m s fl) (hb : b ∈ s.live) (low : b.addr ≤ a)
    (high : a < b.addr + b.size) (j : ℕ) : a ∉ fl j := by
  intro ha
  obtain ⟨⟨small, r, hr, rfl, has⟩, free⟩ := (core.mem_iff j a).mp ha
  obtain ⟨r', hr', piece⟩ := core.pieces b hb
  have differ : a ≠ b.addr := by
    rintro rfl
    exact free (mem_map_of_mem hb)
  have := pieces_apart (b := ⟨a, 2 ^ r.indx⟩) (core.runs r hr) (core.runs r' hr') core.apart hr hr'
    (.inl ⟨small, has, rfl⟩) piece differ
  have := Nat.two_pow_pos r.indx
  dsimp only at *
  omega

/-- What `malloc` and `free` do with pages that belong to no bucket. -/
structure Mapped (m : Machine) (s t : State P) (r : Run) : Prop where
  mem_eq : t.mem = s.mem
  bucket_eq : t.bucket = s.bucket
  usage_of_ne : ∀ k, k ≠ m.btokup r.va → t.usage k = s.usage k
  large : ¬ m.Small r.indx

theorem isBlock_cons_large {map : List Run} (large : ¬ m.Small r.indx) {j : ℕ} :
    IsBlock m (r :: map) j a ↔ IsBlock m map j a := by
  rw [isBlock_cons]
  refine or_iff_right ?_
  rintro ⟨small, rfl, -⟩
  exact large small

/-- **Pages of their own are got.** -/
theorem Core.map (core : Core m s fl) (new : NewRun m s r) (mapped : Mapped m s t r)
    (map_eq : t.map = r :: s.map) (indx_eq : (t.usage (m.btokup r.va)).indx = r.indx)
    (live : t.live = s.live ∨ t.live = ⟨r.va, r.len⟩ :: s.live) : Core m t fl := by
  have hfresh : r.va ∉ s.live.map Block.addr := by
    intro h
    obtain ⟨b, hb, haddr⟩ := mem_map.mp h
    exact new.not_live core hb (haddr ▸ new.ok.within_va)
  refine ⟨fun j => ?_, core.nodup, fun j x => ?_, ?_, ?_, fun r' hr' => ?_, fun r' hr' small => ?_,
    fun b hb => ?_, ?_⟩
  · rw [mapped.bucket_eq, mapped.mem_eq]
    exact core.chain j
  · rw [map_eq, isBlock_cons_large mapped.large, core.mem_iff]
    refine and_congr_right fun block => ?_
    rcases live with live | live
    · rw [live]
    · rw [live, map_cons, mem_cons, not_or]
      refine (and_iff_right ?_).symm
      rintro rfl
      exact new.not_has core block new.ok.within_va
  · rw [map_eq]
    exact forall_mem_cons.mpr ⟨new.ok, core.runs⟩
  · rw [map_eq]
    exact pairwise_cons.mpr ⟨new.apart, core.apart⟩
  · rw [map_eq] at hr'
    rcases mem_cons.mp hr' with rfl | hr'
    · exact indx_eq
    · rw [mapped.usage_of_ne _ (new.btokup_ne core hr')]
      exact core.usage r' hr'
  · rw [map_eq] at hr'
    rcases mem_cons.mp hr' with rfl | hr'
    · exact absurd small mapped.large
    · rw [mapped.usage_of_ne _ (new.btokup_ne core hr')]
      have counts := core.counts r' hr' small
      rcases live with live | live
      · rwa [live]
      · have outside : ¬ r'.Within r.va := fun h => new.not_within hr' h new.ok.within_va
        rwa [live, liveIn, filter_cons_of_neg (by simpa [Run.Within] using outside)]
  · have old : ∀ b ∈ s.live, ∃ r' ∈ t.map, Piece m r' b := fun b hb => by
      obtain ⟨r', hr', piece⟩ := core.pieces b hb
      exact ⟨r', map_eq ▸ mem_cons_of_mem _ hr', piece⟩
    rcases live with live | live
    · exact old b (live ▸ hb)
    · rcases mem_cons.mp (live ▸ hb) with rfl | hb
      · exact ⟨r, map_eq ▸ mem_cons_self, .inr ⟨mapped.large, rfl, rfl⟩⟩
      · exact old b hb
  · rcases live with live | live
    · exact live ▸ core.live_nodup
    · rw [live]
      exact nodup_cons.mpr ⟨hfresh, core.live_nodup⟩

theorem Core.run_unique (core : Core m s fl) {r' : Run} (hr : r ∈ s.map) (hr' : r' ∈ s.map)
    (same : r.va = r'.va) : r = r' :=
  run_unique_of_within core.apart hr hr' (core.runs r hr).within_va
    (same ▸ (core.runs r' hr').within_va)

/-- **Pages of their own are given back.** -/
theorem Core.kmemFree (core : Core m s fl) (hr : r ∈ s.map) (mapped : Mapped m s t r)
    (map_eq : t.map = s.map.filter fun r' => r'.va ≠ r.va) (addr : b.addr = r.va)
    (perm : s.live.Perm (b :: t.live)) : Core m t fl := by
  have others : ∀ r', r' ∈ t.map ↔ r' ∈ s.map ∧ r' ≠ r := by
    intro r'
    rw [map_eq, mem_filter, decide_eq_true_iff]
    exact and_congr_right fun hr' => not_congr ⟨core.run_unique hr' hr, fun same => same ▸ rfl⟩
  have blocks : ∀ j x, IsBlock m t.map j x ↔ IsBlock m s.map j x := by
    intro j x
    refine and_congr_right fun small => exists_congr fun r' => ?_
    rw [others, and_assoc]
    refine and_congr_right fun _ => and_iff_right_of_imp ?_
    rintro ⟨rfl, -⟩ rfl
    exact mapped.large small
  obtain ⟨gone, hnodup⟩ := core.nodup_of_perm perm
  refine ⟨fun j => ?_, core.nodup, fun j x => ?_, fun r' hr' => ?_, ?_, fun r' hr' => ?_,
    fun r' hr' small => ?_, fun c hc => ?_, hnodup⟩
  · rw [mapped.bucket_eq, mapped.mem_eq]
    exact core.chain j
  · rw [blocks, core.mem_iff, (perm.map Block.addr).mem_iff, map_cons, mem_cons, not_or]
    refine and_congr_right fun block => and_iff_right ?_
    -- no block of a bucket is where the pages are
    rintro rfl
    obtain ⟨small, r', hr', rfl, has⟩ := block
    have same := run_unique_of_within core.apart hr' hr ((core.runs r' hr').within small has)
      (addr ▸ (core.runs r hr).within_va)
    exact mapped.large (same ▸ small)
  · exact core.runs r' ((others r').mp hr').1
  · rw [map_eq]
    exact core.apart.filter _
  · obtain ⟨hr', differ⟩ := (others r').mp hr'
    rw [mapped.usage_of_ne _ (core.btokup_ne hr hr' differ)]
    exact core.usage r' hr'
  · obtain ⟨hr', differ⟩ := (others r').mp hr'
    rw [mapped.usage_of_ne _ (core.btokup_ne hr hr' differ)]
    have counts := core.counts r' hr' small
    rwa [liveIn_of_perm perm,
      core.liveIn_cons_of_ne hr hr' differ (addr ▸ (core.runs r hr).within_va)] at counts
  · obtain ⟨r', hr', piece⟩ := core.pieces c (mem_live_of_perm perm hc)
    refine ⟨r', (others r').mpr ⟨hr', ?_⟩, piece⟩
    rintro rfl
    rcases piece with ⟨small, -⟩ | ⟨-, haddr, -⟩
    · exact mapped.large small
    · exact gone (addr.trans haddr.symm ▸ mem_map_of_mem hc)

/-! ## The lists are intact -/

/-- The blocks have no byte in common. -/
def Disjoint (b c : Block) : Prop := b.addr + b.size ≤ c.addr ∨ c.addr + c.size ≤ b.addr

/-- **Integrity of the free lists**, in terms of the memory alone; `Inv` is what the proofs use. -/
structure Intact (m : Machine) (s : State P) : Prop where
  /-- The list of a bucket is finite, no block is in it twice, it has the blocks of the bucket
  that are not live, and `kb_last` is its last. -/
  lists : ∀ i, m.Small i → ∃ l, Chain s.mem (s.bucket i).next l ∧ l.Nodup ∧
    (∀ a, a ∈ l ↔ IsBlock m s.map i a ∧ a ∉ s.live.map Block.addr) ∧
    ((s.bucket i).next ≠ none → (s.bucket i).last = l.getLast?)
  apart : s.live.Pairwise Disjoint
  /-- `free` does not write into another live block. -/
  writes : ∀ b ∈ s.live, ∀ a ∈ freeWrites m s b.addr, ∀ c ∈ s.live, c ≠ b →
    ¬ (c.addr ≤ a ∧ a < c.addr + c.size)

theorem Core.disjoint (core : Core m s fl) {c : Block} (hb : b ∈ s.live) (hc : c ∈ s.live)
    (differ : b.addr ≠ c.addr) : Disjoint b c := by
  obtain ⟨r, hr, piece⟩ := core.pieces b hb
  obtain ⟨r', hr', piece'⟩ := core.pieces c hc
  exact pieces_apart (core.runs r hr) (core.runs r' hr') core.apart hr hr' piece piece' differ

/-- `free` writes the block, and the last one of a list. -/
theorem Core.mem_freeWrites (core : Core m s fl) (tails : ∀ i, Tail (s.bucket i) (fl i))
    (ha : a ∈ freeWrites m s b.addr) : a = b.addr ∨ ∃ i, a ∈ fl i := by
  unfold freeWrites at ha
  generalize (s.usage (m.btokup b.addr)).indx = i at ha
  dsimp only at ha
  split_ifs at ha with large
  · cases ha
  · cases hnext : (s.bucket i).next with
    | none => exact .inl (by simpa [hnext] using ha)
    | some next =>
      cases hlast : (s.bucket i).last with
      | none => exact .inl (by simpa [hnext, hlast] using ha)
      | some last =>
        have ha : a = last ∨ a = b.addr := by simpa [hnext, hlast] using ha
        refine ha.symm.imp_right fun heq => ⟨i, ?_⟩
        have nonempty : fl i ≠ [] := by
          rw [Ne, core.eq_nil_iff, hnext]
          exact some_ne_none _
        exact heq ▸ mem_of_getLast? ((tails i nonempty).symm.trans hlast)

theorem Inv.intact (inv : Inv m s) : Intact m s := by
  obtain ⟨fl, core, tails⟩ := inv.lists
  refine ⟨fun i _ => ⟨fl i, core.chain i, core.nodup i, core.mem_iff i, fun hnext => ?_⟩, ?_, ?_⟩
  · exact tails i fun hnil => hnext (core.eq_nil_iff.mp hnil)
  · exact (pairwise_map.mp core.live_nodup).imp_of_mem fun hb hc differ =>
      core.disjoint hb hc differ
  · intro b hb a ha c hc differ inside
    rcases core.mem_freeWrites tails ha with rfl | ⟨i, hi⟩
    · have hne : b.addr ≠ c.addr := fun h =>
        differ (inj_on_of_nodup_map core.live_nodup hc hb h.symm)
      have := core.disjoint hb hc hne
      unfold Disjoint at *
      omega
    · exact core.not_mem_of_inside hc inside.1 inside.2 i hi

/-! ## malloc after the pages have come -/

variable {size va : ℕ}

theorem newRun_of_fresh (fresh : Fresh m s size (some va)) :
    NewRun m s ⟨va, npg m size * m.nbpg, bucketindx size⟩ :=
  ⟨⟨fresh.1, npg_pos size, npg_of_small⟩, fresh.2⟩

/-- The pages of a bucket before a block is taken. -/
theorem fill_small (s : State P) (va : ℕ) (small : m.Small (bucketindx size)) :
    ∃ u, fill m s size va = take m u (bucketindx size) ∧ Filled m s u (bucketindx size) va ∧
      (u.bucket (bucketindx size)).last =
        (if (s.bucket (bucketindx size)).last = none then some va
          else (s.bucket (bucketindx size)).last) ∧
      u.pc = s.pc ∧ u.panicked = s.panicked := by
  have hsize := allocsize_of_small small
  have hlen := npg_of_small small
  have hpos := m.elmpercl_pos (bucketindx size)
  have hpow := Nat.two_pow_pos (bucketindx size)
  have hlarge : ¬ 2 ^ bucketindx size > m.maxallocsave := by
    rw [← Nat.one_shiftLeft]
    exact not_lt.mpr small
  generalize hi : bucketindx size = i at *
  generalize hk : m.elmpercl i - 1 = k
  have hcp : va + npg m size * m.nbpg - 2 ^ i = va + k * 2 ^ i := by
    rw [hlen, show m.elmpercl i = k + 1 by omega, add_mul]
    omega
  have enough : k < npg m size * m.nbpg := by
    have := Nat.le_mul_of_pos_right (m.elmpercl i) hpow
    omega
  obtain ⟨mem, hlink, frame, seg⟩ := link_spec va s.mem hpow enough
  refine ⟨{ s with
    map := ⟨va, npg m size * m.nbpg, i⟩ :: s.map
    usage := update (update s.usage (m.btokup va) { s.usage (m.btokup va) with indx := i })
      (m.btokup va) ⟨i, m.elmpercl i⟩
    mem := update mem va (s.bucket i).next
    bucket := update s.bucket i ⟨some (va + k * 2 ^ i),
      if (s.bucket i).last = none then some va else (s.bucket i).last⟩ }, ?_, ?_⟩
  · rw [fill]
    simp only [hi, hsize, if_neg hlarge, hcp, hlink, update_self]
  · have outside : ∀ x, x ∉ down va (2 ^ i) k → x ≠ va := by
      rintro x hx rfl
      exact hx (mem_down.mpr ⟨0, zero_le _, by omega⟩)
    refine ⟨⟨?_, fun j hj => ?_, ?_, fun x hx => ?_, ?_, fun k' hk' => ?_, ?_, rfl⟩, ?_, rfl, rfl⟩
    · simp [hk]
    · simp [update_of_ne hj]
    · simpa [hk] using seg (s.bucket i).next
    · rw [hk] at hx
      simp [update_of_ne (outside x hx), frame x hx]
    · simp
    · simp [update_of_ne hk']
    · simp [hlen]
    · simp

/-- `kb_last` is null, or does not matter. -/
def LastNull (m : Machine) (s : State P) (i : ℕ) : Prop :=
  m.Small i → (s.bucket i).next = none → (s.bucket i).last = none ∨ m.elmpercl i = 1

/-- What is left of the new pages once the first block is taken. -/
theorem down_eq_cons (m : Machine) (va i : ℕ) : ∃ l,
    down va (2 ^ i) (m.elmpercl i - 1) = (va + (m.elmpercl i - 1) * 2 ^ i) :: l ∧
      (l = [] ↔ m.elmpercl i = 1) ∧ (l ≠ [] → l.getLast? = some va) := by
  have := m.elmpercl_pos i
  cases hk : m.elmpercl i - 1 with
  | zero =>
    refine ⟨[], by simp [down], ?_, fun h => absurd rfl h⟩
    simp only [true_iff]
    omega
  | succ k =>
    refine ⟨down va (2 ^ i) k, rfl, ?_, fun _ => getLast?_down ..⟩
    have : down va (2 ^ i) k ≠ [] := by cases k <;> simp [down]
    simp only [this, false_iff]
    omega

/-- The pages that a request above `MAXALLOCSAVE` has got. -/
theorem fill_large (s : State P) (va : ℕ) (large : ¬ m.Small (bucketindx size)) :
    Mapped m s (fill m s size va) ⟨va, npg m size * m.nbpg, bucketindx size⟩ ∧
      (fill m s size va).map = ⟨va, npg m size * m.nbpg, bucketindx size⟩ :: s.map ∧
      ((fill m s size va).usage (m.btokup va)).indx = bucketindx size ∧
      ((fill m s size va).live = s.live ∨
        (fill m s size va).live = ⟨va, npg m size * m.nbpg⟩ :: s.live) ∧
      ((fill m s size va).panicked = s.panicked ∨
        (fill m s size va).panicked = some .tooLarge) := by
  rw [fill]
  rw [if_pos (lt_allocsize large)]
  split_ifs with many
  · refine ⟨⟨rfl, rfl, fun k hk => ?_, large⟩, rfl, ?_, .inl rfl, .inr rfl⟩
    · exact update_of_ne hk ..
    · simp [State.panic]
  · refine ⟨⟨rfl, rfl, fun k hk => ?_, large⟩, rfl, ?_, .inr rfl, .inl rfl⟩
    · exact (update_of_ne hk ..).trans (update_of_ne hk ..)
    · simp [State.return]

/-- A block that is free stays a block. -/
theorem Filled.isBlock {j : ℕ} (filled : Filled m s t i va) (block : IsBlock m s.map j a) :
    IsBlock m t.map j a := by
  rw [filled.map_eq, isBlock_cons]
  exact .inr block

section

variable (inv : Inv m s) (fresh : Fresh m s size (some va))

include inv fresh

theorem Inv.fill_small (small : m.Small (bucketindx size)) (null : LastNull m s (bucketindx size)) :
    Inv m (fill m s size va) := by
  obtain ⟨fl, core, tails⟩ := inv.lists
  obtain ⟨u, hfill, filled, hlast, -, hpanicked⟩ := Malloc.fill_small s va small
  have new := newRun_of_fresh fresh
  rw [npg_of_small small] at new
  rw [hfill]
  generalize bucketindx size = i at *
  obtain ⟨l, hdown, hnil, hgetLast⟩ := down_eq_cons m va i
  have hl : update fl i (down va (2 ^ i) (m.elmpercl i - 1) ++ fl i) i =
      (va + (m.elmpercl i - 1) * 2 ^ i) :: (l ++ fl i) := by
    rw [update_self, hdown, cons_append]
  refine Inv.take (core.fill small new filled) hl (fun j hj => ?_) ?_ (fun j x hx => ?_) ?_
  · rw [update_of_ne hj, filled.bucket_of_ne j hj]
    exact tails j
  · intro nonempty
    rw [hlast]
    by_cases hempty : fl i = []
    · -- the list was empty, so its last block is the first of the pages
      rw [hempty, append_nil] at nonempty ⊢
      rcases null small (core.eq_nil_iff.mp hempty) with hnull | hone
      · rw [if_pos hnull, hgetLast nonempty]
      · exact absurd (hnil.mpr hone) nonempty
    · rw [getLast?_append_of_ne_nil _ hempty, ← tails i hempty, if_neg]
      rw [tails i hempty]
      simpa using hempty
  · by_cases hj : j = i
    · subst hj
      rw [hlast] at hx
      split_ifs at hx with hnull
      · cases hx
        rw [filled.map_eq, isBlock_cons]
        exact .inl ⟨small, rfl, 0, m.elmpercl_pos _, by simp⟩
      · exact filled.isBlock (inv.stale j x hx)
    · rw [filled.bucket_of_ne j hj] at hx
      exact filled.isBlock (inv.stale j x hx)
  · rw [hpanicked]
    exact inv.panicked

theorem Inv.fill_large (large : ¬ m.Small (bucketindx size)) : Inv m (fill m s size va) := by
  obtain ⟨fl, core, tails⟩ := inv.lists
  obtain ⟨mapped, map_eq, indx_eq, live, panicked⟩ :=
    Malloc.fill_large s va large
  refine ⟨⟨fl, core.map (newRun_of_fresh fresh) mapped map_eq indx_eq live, ?_⟩, ?_, ?_⟩
  · rw [mapped.bucket_eq]
    exact tails
  · intro j x hx
    rw [mapped.bucket_eq] at hx
    rw [map_eq, isBlock_cons_large large]
    exact inv.stale j x hx
  · rcases panicked with panicked | panicked
    · rw [panicked]
      exact inv.panicked
    · exact .inr panicked

theorem Inv.fill (null : LastNull m s (bucketindx size)) : Inv m (fill m s size va) := by
  by_cases small : m.Small (bucketindx size)
  · exact inv.fill_small fresh small null
  · exact inv.fill_large fresh small

/-- **A stale `kb_last` stays**, and is not the last block of the list. -/
theorem Inv.not_intact_fill (stale : ¬ LastNull m s (bucketindx size)) :
    ¬ Intact m (Malloc.fill m s size va) := by
  intro intact
  obtain ⟨fl, core, -⟩ := inv.lists
  simp only [LastNull, Classical.not_imp, not_or] at stale
  obtain ⟨small, hnext, hlast, many⟩ := stale
  obtain ⟨u, hfill, filled, hulast, -⟩ := Malloc.fill_small s va small
  have new := newRun_of_fresh fresh
  rw [npg_of_small small] at new
  rw [hfill] at intact
  generalize bucketindx size = i at *
  obtain ⟨l, hdown, hnil, hgetLast⟩ := down_eq_cons m va i
  have hempty : fl i = [] := core.eq_nil_iff.mpr hnext
  have nonempty : l ≠ [] := fun h => many (hnil.mp h)
  have core' := core.fill small new filled
  have hl : update fl i (down va (2 ^ i) (m.elmpercl i - 1) ++ fl i) i =
      (va + (m.elmpercl i - 1) * 2 ^ i) :: l := by
    rw [update_self, hdown, hempty, append_nil]
  have taken := core'.taken hl
  have core'' := core'.take hl taken
  have chain := core''.chain i
  rw [update_self] at chain
  obtain ⟨l', chain', -, -, htail⟩ := intact.lists i small
  have hne : ((Malloc.take m u i).bucket i).next ≠ none := by
    rwa [Ne, ← core''.eq_nil_iff, update_self]
  have hva : (s.bucket i).last = some va := by
    have := htail hne
    rwa [chain'.unique chain, hgetLast nonempty, taken.last_eq, hulast, if_neg hlast] at this
  exact new.not_has core (inv.stale i va hva) new.ok.within_va

end

/-! ## Turns -/

/-- The words of free blocks stay, and a `kb_last` at most becomes null. -/
theorem Inv.congr (inv : Inv m s) (next : ∀ j, (t.bucket j).next = (s.bucket j).next)
    (last : ∀ j, (t.bucket j).last = (s.bucket j).last ∨
      (s.bucket j).next = none ∧ (t.bucket j).last = none)
    (mem : ∀ fl, Core m s fl → ∀ j, ∀ x ∈ fl j, t.mem x = s.mem x)
    (usage : t.usage = s.usage) (map : t.map = s.map) (live : t.live = s.live)
    (panicked : t.panicked = s.panicked) : Inv m t := by
  obtain ⟨fl, core, tails⟩ := inv.lists
  refine ⟨⟨fl, core.congr next (mem fl core) usage map live, fun j nonempty => ?_⟩,
    fun j x hx => ?_, panicked ▸ inv.panicked⟩
  · rcases last j with same | ⟨hnext, -⟩
    · rw [same]
      exact tails j nonempty
    · exact absurd (core.eq_nil_iff.mpr hnext) nonempty
  · rw [map]
    rcases last j with same | ⟨-, hnull⟩
    · exact inv.stale j x (same ▸ hx)
    · rw [hnull] at hx
      cases hx

/-- `malloc` from a bucket that has free blocks. -/
theorem Inv.take_next (inv : Inv m s) (hnext : (s.bucket i).next ≠ none) :
    Inv m (Malloc.take m s i) := by
  obtain ⟨fl, core, tails⟩ := inv.lists
  cases hl : fl i with
  | nil => exact absurd (core.eq_nil_iff.mp hl) hnext
  | cons a l =>
    refine Inv.take core hl (fun j _ => tails j) (fun nonempty => ?_) inv.stale inv.panicked
    rw [tails i (by simp [hl]), hl, getLast?_cons_of_ne_nil nonempty]

theorem Inv.free (inv : Inv m s) (hb : b ∈ s.live) : Inv m (Malloc.free m s b.addr) := by
  obtain ⟨fl, core, tails⟩ := inv.lists
  obtain ⟨r, hr, ⟨small, has, -⟩ | ⟨large, addr, -⟩⟩ := core.pieces b hb
  · have freed := core.freed (tails r.indx) hb hr small has
    refine ⟨⟨_, core.free hr small has freed, fun j => ?_⟩, fun j x hx => ?_,
      freed.panicked_eq ▸ inv.panicked⟩
    · by_cases hj : j = r.indx
      · subst hj
        rw [Tail, freed.last_eq]
        simp
      · rw [update_of_ne hj, freed.bucket_of_ne j hj]
        exact tails j
    · rw [freed.map_eq]
      by_cases hj : j = r.indx
      · subst hj
        rw [freed.last_eq] at hx
        cases hx
        exact ⟨small, r, hr, rfl, has⟩
      · rw [freed.bucket_of_ne j hj] at hx
        exact inv.stale j x hx
  · have hindx : (s.usage (m.btokup b.addr)).indx = r.indx := by rw [addr, core.usage r hr]
    have perm := core.live_perm hb
    have large' : 1 <<< r.indx > m.maxallocsave := not_le.mp large
    rw [Malloc.free]
    rw [hindx, if_pos large']
    have core' := core.kmemFree (t := { s with
        live := s.live.filter fun c => c.addr ≠ b.addr
        map := s.map.filter fun r' => r'.va ≠ b.addr
        usage := update s.usage (m.btokup b.addr) {} }) hr
      ⟨rfl, rfl, fun k hk => update_of_ne (addr ▸ hk) .., large⟩ (addr ▸ rfl) addr perm
    refine ⟨⟨fl, core', tails⟩, fun j x hx => ?_, inv.panicked⟩
    obtain ⟨small, r', hr', rfl, has⟩ := inv.stale j x hx
    refine ⟨small, r', ?_, rfl, has⟩
    refine mem_filter.mpr ⟨hr', decide_eq_true fun same => ?_⟩
    exact large (core.run_unique hr' hr (same.trans addr) ▸ small)

/-- When the pages for a bucket come, its `kb_last` is null or does not matter. -/
def Tracked (m : Machine) (s : State P) : Label P → Prop
  | .resume p (some _) =>
    match s.pc p with
    | .idle => True
    | .asleep size => LastNull m s (bucketindx size)
  | _ => True

instance (i : ℕ) : Decidable (m.Small i) := inferInstanceAs (Decidable (_ ≤ _))

instance (s : State P) (i : ℕ) : Decidable (LastNull m s i) :=
  inferInstanceAs (Decidable (_ → _ → _ ∨ _))

instance (s : State P) : DecidablePred (Tracked m s)
  | .resume p (some _) =>
    match h : s.pc p with
    | .idle => decidable_of_iff True (by simp [Tracked, h])
    | .asleep size => decidable_of_iff (LastNull m s (bucketindx size)) (by simp [Tracked, h])
  | .resume _ none | .malloc .. | .free .. | .store .. => inferInstanceAs (Decidable True)

variable [DecidableEq P]

/-- **What a turn does**: it keeps the invariant or breaks a list, and which of the two is decided
by what it meets. -/
theorem inv_step {a : Label P} (inv : Inv m s) (hstep : step m s a = some t) :
    (Tracked m s a → Inv m t) ∧ (¬ Tracked m s a → ¬ Intact m t) := by
  have always : Tracked m s a → Inv m t →
      (Tracked m s a → Inv m t) ∧ (¬ Tracked m s a → ¬ Intact m t) :=
    fun tracked h => ⟨fun _ => h, fun not => absurd tracked not⟩
  cases a with
  | malloc p size wait va =>
    refine always trivial ?_
    obtain ⟨-, hstep⟩ := ite_none_right_eq_some.mp hstep
    by_cases hnext : (s.bucket (bucketindx size)).next = none
    · rw [if_pos hnext] at hstep
      -- `kb_last` is cleared while the list is empty, which `Tail` allows
      have inv' : ∀ pc : P → Pc, Inv m { s with
          bucket := update s.bucket (bucketindx size)
            { s.bucket (bucketindx size) with last := none }
          pc := pc } := by
        intro pc
        refine inv.congr ?_ ?_ (fun _ _ _ _ _ => rfl) rfl rfl rfl rfl
        · exact (forall_update_iff s.bucket fun j kb => kb.next = (s.bucket j).next).mpr
            ⟨rfl, fun _ _ => rfl⟩
        · exact (forall_update_iff s.bucket fun j kb => kb.last = (s.bucket j).last ∨
            (s.bucket j).next = none ∧ kb.last = none).mpr
            ⟨.inr ⟨hnext, rfl⟩, fun _ _ => .inl rfl⟩
      cases wait with
      | true =>
        cases hstep
        exact inv' _
      | false =>
        obtain ⟨fresh, hstep⟩ := ite_none_right_eq_some.mp hstep
        cases hstep
        cases va with
        | none => exact inv' s.pc
        | some va =>
          exact (inv' s.pc).fill fresh fun _ _ => .inl (by simp)
    · rw [if_neg hnext] at hstep
      cases hstep
      exact inv.take_next hnext
  | resume p va =>
    cases hpc : s.pc p with
    | idle => simp [step, hpc] at hstep
    | asleep size =>
      simp only [step, hpc] at hstep
      obtain ⟨⟨-, fresh⟩, hstep⟩ := ite_none_right_eq_some.mp hstep
      cases hstep
      have inv' : Inv m { s with pc := update s.pc p .idle } :=
        inv.congr (fun _ => rfl) (fun _ => .inl rfl) (fun _ _ _ _ _ => rfl) rfl rfl rfl rfl
      cases va with
      | none => exact always trivial inv'
      | some va =>
        -- only here the turn depends on what others have done to `kb_last`
        simp only [Tracked, hpc]
        exact ⟨inv'.fill fresh, inv'.not_intact_fill fresh⟩
  | free p addr =>
    refine always trivial ?_
    obtain ⟨⟨-, -, b, hb, rfl⟩, hstep⟩ := ite_none_right_eq_some.mp hstep
    cases hstep
    exact inv.free hb
  | store addr value =>
    refine always trivial ?_
    obtain ⟨⟨-, b, hb, low, high⟩, hstep⟩ := ite_none_right_eq_some.mp hstep
    cases hstep
    refine inv.congr (fun _ => rfl) (fun _ => .inl rfl) (fun fl core j x hx => ?_) rfl rfl rfl rfl
    refine update_of_ne ?_ _ _
    rintro rfl
    exact core.not_mem_of_inside hb low high j hx

/-- Nothing has been allocated. -/
def init : State P := {}

omit [DecidableEq P] in
theorem inv_init : Inv m (init : State P) := by
  refine ⟨⟨fun _ => [], ?_, fun _ nonempty => absurd rfl nonempty⟩, fun i a h => ?_, .inl rfl⟩
  · exact ⟨fun _ => rfl, fun _ => nodup_nil, fun i a => by simp [init, IsBlock],
      nofun, List.Pairwise.nil, nofun,
      nofun, nofun, nodup_nil⟩
  · cases h

/-- **Free-list integrity.**  In a run, the lists are intact in all states on the way exactly
if, whenever the pages for an empty bucket come, its `kb_last` is still null, or one block is
all that there is to the pages. -/
theorem intact_iff_tracked {as : List (Label P)} {t : State P} (h : run (step m) init as = some t) :
    Along (step m) (Tracked m) init as ↔
      ∀ bs u, bs <+: as → run (step m) init bs = some u → Intact m u := by
  have room : Along (step m) (fun _ _ => True) (init : State P) as := along_true _ _
  refine along_iff_reached (I := Inv m) (fun _ _ _ _ _ => trivial) ?_ ?_
    ⟨inv_init, inv_init.intact⟩ room h trivial
  · intro s a t inv _ tracked hstep _
    have inv' := (inv_step inv hstep).1 tracked
    exact ⟨inv', inv'.intact⟩
  · intro s a t inv _ tracked hstep _
    exact (inv_step inv hstep).2 tracked

/-- Pages of 4096 bytes. -/
def pages4096 : Machine := ⟨12, 0, by decide, by decide⟩

/-- Both blocks of the first pages are allocated, and process 1 waits for new ones. -/
def bothTaken : List (Label ℕ) :=
  [.malloc 0 2048 false (some 4096), .malloc 0 2048 false none, .malloc 1 2048 true none]

theorem intact_iff_tracked_waiting : ∃ t,
    run (step pages4096) init (bothTaken ++ [.free 0 4096, .resume 1 (some 8192)]) = some t ∧
      Intact pages4096 t := by
  have tracked : Along (step pages4096) (Tracked pages4096) init
      (bothTaken ++ [.free 0 4096, .resume 1 (some 8192)]) := by
    decide +kernel
  refine ⟨_, rfl, ?_⟩
  exact (intact_iff_tracked rfl).mp tracked _ _ (prefix_refl _) rfl

/-- **A stale `kb_last`.**  While process 1 waits, a block is freed and allocated again; the
next `free` will write into it. -/
theorem stale_last : ∃ t,
    run (step pages4096) init
        (bothTaken ++ [.free 0 4096, .malloc 0 2048 false none, .resume 1 (some 8192)]) = some t ∧
      ¬ Intact pages4096 t := by
  refine ⟨_, rfl, fun intact => ?_⟩
  exact intact.writes ⟨10240, 2048⟩ (by decide +kernel) 4096 (by decide +kernel) ⟨4096, 2048⟩
    (by decide +kernel) (by decide) ⟨by decide, by decide⟩

end BSDLite2.Malloc
