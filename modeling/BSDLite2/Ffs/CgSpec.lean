import BSDLite2.Ffs.CgCount

/-!
# What the calls do to the map and the summaries

One lemma for each call says all that later modules need of it: which fragments it takes or gives,
how the buffer is released, and that the summaries follow the map (`Recounts`).  The calls are put
together from steps that change one block each, and `Recounts` composes, so that each step is
compared with the map once.  Only the steps know how runs of free fragments are counted: a run that
is cut or grows stays in its block.

* `mapsearch_spec` — a search finds a run of the size;
* `Took`, `Gave` — what an allocation and a release do to the map;
* `alloccg_spec`, `fragextend_spec`, `clusteralloc_spec`, `blkfree_spec` — the calls.
-/

namespace BSDLite2.Ffs

open Function Runs List Nat

variable {fs : Fs} {a a' a'' : Bytes} {bno n m i : ℕ} {loc : ℕ}

/-- What a computation that succeeds has computed on the way. -/
theorem bind_eq_ok {ε α β : Type} {x : Except ε α} {f : α → Except ε β} {y : β}
    (h : (x >>= f) = .ok y) : ∃ v, x = .ok v ∧ f v = .ok y := by
  cases x with
  | error e => cases h
  | ok v => exact ⟨v, rfl, h⟩

/-! ## Stretches of the map -/

/-- `n` free fragments from `bno` on are taken. -/
structure Took (a a' : Bytes) (bno n : ℕ) : Prop where
  free : ∀ j < n, bit a (bno + j) = true
  bits : ∀ i, bit a' i = (bit a i && !decide (bno ≤ i ∧ i < bno + n))

/-- `n` fragments from `bno` on are free afterwards. -/
def Gave (a a' : Bytes) (bno n : ℕ) : Prop :=
  ∀ i, bit a' i = (bit a i || decide (bno ≤ i ∧ i < bno + n))

theorem Took.same (h : Took a a' bno n) (out : ¬ (bno ≤ i ∧ i < bno + n)) : bit a' i = bit a i := by
  rw [h.bits, decide_eq_false out, Bool.not_false, Bool.and_true]

theorem Took.taken (h : Took a a' bno n) (inside : bno ≤ i ∧ i < bno + n) : bit a' i = false := by
  rw [h.bits, decide_eq_true inside, Bool.not_true, Bool.and_false]

theorem Gave.same (h : Gave a a' bno n) (out : ¬ (bno ≤ i ∧ i < bno + n)) : bit a' i = bit a i := by
  rw [h, decide_eq_false out, Bool.or_false]

theorem Gave.given (h : Gave a a' bno n) (inside : bno ≤ i ∧ i < bno + n) : bit a' i = true := by
  rw [h, decide_eq_true inside, Bool.or_true]

theorem bit_clrbits : bit (clrbits a bno n) i = (bit a i && !decide (bno ≤ i ∧ i < bno + n)) := by
  induction n with
  | zero => rw [clrbits, decide_eq_false (by omega), Bool.not_false, Bool.and_true]
  | succ n ih =>
    rw [clrbits, bit_clrbit, ih, Bool.and_assoc, ← decide_not, ← decide_not, ← Bool.decide_and]
    congr 2
    rw [eq_iff_iff]
    omega

theorem gave_setbits : Gave a (setbits a bno n) bno n := by
  intro i
  induction n with
  | zero => rw [setbits, decide_eq_false (by omega), Bool.or_false]
  | succ n ih =>
    rw [setbits, bit_setbit, ih, Bool.or_assoc, ← Bool.decide_or]
    congr 2
    rw [eq_iff_iff]
    omega

theorem took_clrbits (free : ∀ j < n, bit a (bno + j) = true) : Took a (clrbits a bno n) bno n :=
  ⟨free, fun _ => bit_clrbits⟩

/-- A stretch and the next one. -/
theorem Took.append (h : Took a a' bno n) (h' : Took a' a'' (bno + n) m) :
    Took a a'' bno (n + m) where
  free j hj := by
    by_cases hjn : j < n
    · exact h.free j hjn
    · have := h'.free (j - n) (by omega)
      rw [h.bits, Bool.and_eq_true] at this
      rw [show bno + j = bno + n + (j - n) by omega]
      exact this.1
  bits i := by
    rw [h'.bits, h.bits, Bool.and_assoc, ← decide_not, ← decide_not, ← decide_not,
      ← Bool.decide_and]
    congr 2
    rw [eq_iff_iff]
    omega

/-- Taking nothing. -/
theorem Took.zero : Took a a bno 0 where
  free _ hj := absurd hj (not_lt_zero _)
  bits i := by rw [decide_eq_false (by omega), Bool.not_false, Bool.and_true]

/-! ## The search of the map -/

theorem testBit_blkmap {loc j : ℕ} (hloc : fs.frag ∣ loc) (hj : j < fs.frag) :
    (blkmap fs a loc).toNat.testBit j = bit a (loc + j) := by
  rw [BitVec.testBit_toNat, getLsbD_blkmap hloc, decide_eq_true hj, Bool.true_and]

theorem blkmap_lt : (blkmap fs a loc).toNat < 2 ^ fs.frag := by
  have mask : ∀ n ≤ 8, (0xff#8 >>> (8 - n)).toNat < 2 ^ n := by decide
  have hle : fs.frag ≤ 8 := by rcases fs.frag_cases with h | h | h | h <;> omega
  exact lt_of_le_of_lt and_le_right (mask _ hle)

/-- A run in the map of a block is one in the map of the group. -/
theorem runAt_of_isolated {loc pos : ℕ} (hloc : fs.frag ∣ loc) (hn : 1 ≤ n)
    (h : Isolated fs.frag (blkmap fs a loc).toNat pos n) : RunAt fs a (loc + pos) n := by
  have hle := h.le
  have hmod : (loc + pos) % fs.frag = pos := by
    obtain ⟨c, rfl⟩ := hloc
    rw [mul_add_mod, mod_eq_of_lt (by omega)]
  constructor
  case le => rwa [hmod]
  case free =>
    intro j hj
    rw [Nat.add_assoc, ← testBit_blkmap hloc (by omega)]
    exact h.free j hj
  case before =>
    rw [hmod]
    refine h.before.imp_right fun hbit => ?_
    rcases Nat.eq_zero_or_pos pos with rfl | hpos
    · have := h.free 0 hn
      rw [hbit] at this
      cases this
    · rwa [testBit_blkmap hloc (by omega), ← Nat.add_sub_assoc hpos] at hbit
  case behind =>
    rw [hmod]
    rcases h.behind with heq | hbit
    · exact .inl heq
    · by_cases heq : pos + n = fs.frag
      · exact .inl heq
      · rw [testBit_blkmap hloc (by omega), ← Nat.add_assoc] at hbit
        exact .inr hbit

theorem searchByte_spec {byte : ℕ} (hn : 1 ≤ n) (h : searchByte fs a (byte * 8) n = some bno) :
    RunAt fs a bno n := by
  obtain ⟨k, -, hk⟩ := exists_of_findSome?_eq_some h
  obtain ⟨pos, hpos, rfl⟩ := Option.map_eq_some_iff.mp hk
  have hmem := mem_range.mp (mem_of_find?_eq_some hpos)
  have hfits := find?_some hpos
  have hloc : fs.frag ∣ byte * 8 + k * fs.frag := by
    have h8 : fs.frag ∣ 8 := by
      rcases fs.frag_cases with h | h | h | h <;> rw [h] <;> decide
    exact dvd_add (h8.mul_left byte) (Nat.dvd_mul_left ..)
  exact runAt_of_isolated hloc hn ((fits_iff blkmap_lt hn (by omega)).mp hfits)

/-- **What a search finds.** -/
theorem mapsearch_spec {cg cg' : Cg} {bpref : ℕ} (h : mapsearch fs cg bpref n = .ok (cg', bno)) :
    (∃ f, cg' = { cg with frotor := f }) ∧ 1 ≤ n ∧ RunAt fs cg.blksfree bno n := by
  unfold mapsearch at h
  split at h
  · cases h
  next hwild =>
  have hn : 1 ≤ n := by omega
  split at h
  · cases h
  next byte _ =>
  split at h
  · cases h
  next found hfound =>
  cases h
  exact ⟨⟨_, rfl⟩, hn, searchByte_spec hn hfound⟩

/-! ## A block changes as a whole -/

/-- The accounts of clusters are their own. -/
theorem clusteracct_eq (fs : Fs) (g : Group) (blkno : ℕ) (cnt : ℤ) :
    ∃ map sum max, clusteracct fs g blkno cnt =
      { g with cg := { g.cg with clustersfree := map, clustersum := sum }, maxcluster := max } := by
  unfold clusteracct
  split
  · exact ⟨_, _, _, rfl⟩
  · exact ⟨_, _, _, rfl⟩

/-- The summaries when the count of blocks changes. -/
theorem sums_position (g : Group) (cnt : ℤ) :
    (((clusteracct fs g (fs.fragstoblks bno) cnt).count cnt 0).position fs bno cnt).sums =
      { g.sums with
        cs := ⟨g.cg.cs.nbfree + cnt, g.cg.cs.nffree + 0⟩
        blks := update g.cg.blks (fs.cbtocylno bno) (update (g.cg.blks (fs.cbtocylno bno))
          (fs.cbtorpos bno) (g.cg.blks (fs.cbtocylno bno) (fs.cbtorpos bno) + cnt))
        blktot := update g.cg.blktot (fs.cbtocylno bno) (g.cg.blktot (fs.cbtocylno bno) + cnt)
        core := ⟨g.cs.nbfree + cnt, g.cs.nffree + 0⟩
        total := ⟨g.cstotal.nbfree + cnt, g.cstotal.nffree + 0⟩ } := by
  obtain ⟨map, sum, max, heq⟩ := clusteracct_eq fs g (fs.fragstoblks bno) cnt
  rw [heq]
  rfl

theorem addAt_apply {f : ℕ → ℤ} {c : ℤ} {k : ℕ} : addAt f i c k = f k + if i = k then c else 0 := by
  rw [addAt, update_apply]
  by_cases h : k = i
  · rw [if_pos h, if_pos h.symm, h]
  · rw [if_neg h, if_neg fun h' => h h'.symm, add_zero]

/-- **The count of blocks changes**, after the map and the counts of fragments have. -/
theorem recount_position {s : Sums} {g : Group} {cnt : ℤ} (lt : bno < fs.fpg)
    (aligned : fs.frag ∣ bno)
    (other : ∀ i, i / fs.frag ≠ bno / fs.frag → bit g.cg.blksfree i = bit s.blksfree i)
    (hcnt : cnt = whole (blk fs g.cg.blksfree (bno / fs.frag)) -
      whole (blk fs s.blksfree (bno / fs.frag)))
    (nbfree : g.cg.cs.nbfree = s.cs.nbfree)
    (nffree : g.cg.cs.nffree = s.cs.nffree + (loose (blk fs g.cg.blksfree (bno / fs.frag)) -
      loose (blk fs s.blksfree (bno / fs.frag))))
    (frsum : ∀ k, 1 ≤ k → k < fs.frag → g.cg.frsum k = s.frsum k +
      (lone k (blk fs g.cg.blksfree (bno / fs.frag)) - lone k (blk fs s.blksfree (bno / fs.frag))))
    (blktot : g.cg.blktot = s.blktot) (blks : g.cg.blks = s.blks) (core : InStep s g.sums) :
    Recount fs s (((clusteracct fs g (fs.fragstoblks bno) cnt).count cnt 0).position fs bno
      cnt).sums (bno / fs.frag) := by
  rw [sums_position]
  constructor
  case lt => exact div_lt_nblk.mpr lt
  case other => exact other
  case nbfree =>
    change g.cg.cs.nbfree + cnt = s.cs.nbfree + (whole (blk fs g.cg.blksfree _) - _)
    rw [← hcnt, nbfree]
  case nffree => exact (add_zero _).trans nffree
  case frsum => exact frsum
  case blktot =>
    intro c
    change addAt g.cg.blktot (fs.cbtocylno bno) cnt c =
      s.blktot c + if _ then whole (blk fs g.cg.blksfree _) - _ else 0
    rw [← hcnt, Nat.div_mul_cancel aligned, addAt_apply, blktot]
  case blks =>
    intro c p
    change update g.cg.blks (fs.cbtocylno bno) (addAt _ (fs.cbtorpos bno) cnt) c p =
      s.blks c p + if _ then whole (blk fs g.cg.blksfree _) - _ else 0
    rw [← hcnt, Nat.div_mul_cancel aligned, update_apply, blks]
    by_cases hc : c = fs.cbtocylno bno
    · simp only [hc, if_true, true_and, addAt_apply]
    · rw [if_neg hc, if_neg fun h => hc h.1.symm, add_zero]
  case core =>
    refine core.trans ?_
    constructor <;> simp [Group.sums]

theorem mem_block_iff (aligned : fs.frag ∣ bno) :
    i / fs.frag = bno / fs.frag ↔ bno ≤ i ∧ i < bno + fs.frag := by
  rw [Nat.div_eq_iff fs.frag_pos, Nat.div_mul_cancel aligned]
  have := fs.frag_pos
  omega

theorem blk_aligned (aligned : fs.frag ∣ bno) : blk fs a (bno / fs.frag) = seg a bno fs.frag := by
  rw [blk, Nat.div_mul_cancel aligned]

theorem isblock_aligned_iff (aligned : fs.frag ∣ bno) :
    isblock fs a (bno / fs.frag) = true ↔ ∀ j < fs.frag, bit a (bno + j) = true := by
  rw [isblock_iff]
  constructor
  · intro all j hj
    exact all _ ((mem_block_iff aligned).mpr (by omega))
  · intro all i hi
    obtain ⟨hge, hlt⟩ := (mem_block_iff aligned).mp hi
    exact Nat.add_sub_cancel' hge ▸ all (i - bno) (by omega)

/-- **A block becomes wholly free, or wholly allocated.** -/
theorem recount_whole {g : Group} {map : Bytes} {v : Bool} (lt : bno < fs.fpg)
    (aligned : fs.frag ∣ bno)
    (other : ∀ i, ¬ (bno ≤ i ∧ i < bno + fs.frag) → bit map i = bit g.cg.blksfree i)
    (old : ∀ j < fs.frag, bit g.cg.blksfree (bno + j) = !v)
    (new : ∀ j < fs.frag, bit map (bno + j) = v) :
    Recount fs g.sums (((clusteracct fs (g.setMap map) (fs.fragstoblks bno)
      (if v then 1 else -1)).count (if v then 1 else -1) 0).position fs bno
        (if v then 1 else -1)).sums (bno / fs.frag) := by
  have hold := (blk_aligned aligned).trans (seg_eq_replicate old)
  have hnew := (blk_aligned aligned).trans (seg_eq_replicate new)
  refine recount_position lt aligned
    (fun i hi => other i ((mem_block_iff aligned).not.mp hi)) ?_ rfl ?_ (fun k hk _ => ?_) rfl rfl
    (.of_eq rfl rfl rfl rfl rfl)
  · change _ = whole (blk fs map _) - whole (blk fs g.cg.blksfree _)
    rw [hold, hnew, whole_replicate fs.frag_pos, whole_replicate fs.frag_pos]
    cases v <;> rfl
  · change g.cg.cs.nffree = g.cg.cs.nffree + (loose (blk fs map _) - loose (blk fs g.cg.blksfree _))
    rw [hold, hnew, loose_replicate fs.frag_pos, loose_replicate fs.frag_pos, sub_zero, add_zero]
  · have hk0 : k ≠ 0 := by omega
    change g.cg.frsum k = g.cg.frsum k + (lone k (blk fs map _) - lone k (blk fs g.cg.blksfree _))
    rw [hold, hnew, lone_replicate fs.frag_pos hk0, lone_replicate fs.frag_pos hk0, sub_zero,
      add_zero]

/-- A block is taken. -/
def TookBlock (fs : Fs) (g g' : Group) (r : ℕ) : Prop :=
  ∃ bno, fs.frag ∣ bno ∧ bno < fs.fpg ∧ r = g.cg.cgx * fs.fpg + bno ∧
    Took g.cg.blksfree g'.cg.blksfree bno fs.frag ∧ Recount fs g.sums g'.sums (bno / fs.frag)

variable {g g' : Group} {bpref r : ℕ}

/-- **A block is taken**, from `gotit` on. -/
theorem tookBlock_gotit (lt : bno < fs.fpg) (aligned : fs.frag ∣ bno)
    (free : isblock fs g.cg.blksfree (bno / fs.frag) = true)
    (h : (.ok (gotit fs g bno) : Except Panic _) = .ok (g', r)) : TookBlock fs g g' r := by
  have took : Took g.cg.blksfree (clrblock fs g.cg.blksfree (fs.fragstoblks bno)) bno fs.frag := by
    refine ⟨(isblock_aligned_iff aligned).mp free, fun i => ?_⟩
    rw [bit_clrblock, fs.fragstoblks_eq, ← decide_not,
      decide_eq_decide.mpr (mem_block_iff aligned).not]
  have recount : Recount fs g.sums (gotit fs g bno).1.sums (bno / fs.frag) :=
    recount_whole (v := false) lt aligned (fun _ => took.same) took.free
      fun j hj => took.taken (by omega)
  have hmap : (gotit fs g bno).1.cg.blksfree = clrblock fs g.cg.blksfree (fs.fragstoblks bno) :=
    congrArg Sums.blksfree (sums_position (g.setMap _) (-1))
  rw [Except.ok.inj h] at recount hmap
  refine ⟨bno, aligned, lt, ?_, hmap ▸ took, recount⟩
  exact (congrArg Prod.snd (Except.ok.inj h)).symm.trans
    (congrArg (· * fs.fpg + bno) ((congrArg (·.1.cg.cgx) (Except.ok.inj h)).trans recount.core.cgx))

variable (fs) in
/-- Nothing is free behind the group. -/
def Outside (a : Bytes) : Prop := ∀ i, fs.fpg ≤ i → bit a i = false

/-- A free fragment is in the group. -/
theorem lt_of_bit (outside : Outside fs a) (h : bit a i = true) : i < fs.fpg := by
  by_contra hge
  rw [outside i (not_lt.mp hge)] at h
  cases h

theorem norot_spec (outside : Outside fs g.cg.blksfree)
    (h : norot fs g bpref = .ok (g', r)) : TookBlock fs g g' r := by
  obtain ⟨⟨cg, bno⟩, hsearch, h⟩ := bind_eq_ok h
  obtain ⟨⟨f, rfl⟩, -, run⟩ := mapsearch_spec hsearch
  have hmod : bno % fs.frag = 0 := by
    have := run.le
    omega
  have aligned := Nat.dvd_of_mod_eq_zero hmod
  have lt : bno < fs.fpg := lt_of_bit outside (run.free 0 fs.frag_pos)
  exact tookBlock_gotit (g := { g with cg := { g.cg with frotor := f, rotor := bno } }) lt aligned
    ((isblock_aligned_iff aligned).mpr run.free) h

theorem rotLoop_spec {map : Bytes} {first fuel i : ℕ} (h : rotLoop fs map first fuel i = .ok bno) :
    bno < fs.fpg ∧ fs.frag ∣ bno ∧ isblock fs map (bno / fs.frag) = true := by
  induction fuel generalizing i with
  | zero => cases h
  | succ fuel ih =>
    unfold rotLoop at h
    split at h
    · cases h
    next hlt =>
    split at h
    · next free =>
      cases h
      rw [fs.blkstofrags_eq, Nat.mul_div_cancel _ fs.frag_pos]
      refine ⟨?_, Nat.dvd_mul_left .., free⟩
      rw [← fs.nblk_mul]
      exact Nat.mul_lt_mul_of_pos_right (not_le.mp hlt) fs.frag_pos
    · dsimp only at h
      split at h
      · cases h
      · exact ih h

theorem rotBlock_spec {cylno i : ℕ} (h : rotBlock fs g cylno i = .ok bno) :
    bno < fs.fpg ∧ fs.frag ∣ bno ∧ isblock fs g.cg.blksfree (bno / fs.frag) = true := by
  unfold rotBlock at h
  dsimp only at h
  split at h
  · cases h
  split at h
  · cases h
  · exact rotLoop_spec h

/-- **`ffs_alloccgblk`** takes a free block. -/
theorem alloccgblk_spec (outside : Outside fs g.cg.blksfree)
    (h : alloccgblk fs g bpref = .ok (g', r)) : TookBlock fs g g' r := by
  unfold alloccgblk at h
  split at h
  · exact norot_spec outside h
  dsimp only at h
  split at h
  · next free =>
    rw [fs.fragstoblks_eq] at free
    have lt : fs.dtogd (fs.blknum bpref) < fs.fpg := mod_lt _ fs.fpg_pos
    have aligned : fs.frag ∣ fs.dtogd (fs.blknum bpref) := by
      rw [fs.blknum_eq]
      exact (dvd_mod_iff fs.fpg_dvd).mpr (Nat.dvd_mul_left ..)
    exact tookBlock_gotit lt aligned free h
  split at h
  · exact norot_spec outside h
  split at h
  · exact norot_spec outside h
  split at h
  · obtain ⟨bno, hbno, h⟩ := bind_eq_ok h
    obtain ⟨lt, aligned, free⟩ := rotBlock_spec hbno
    exact tookBlock_gotit lt aligned free h
  · exact norot_spec outside h

/-! ## Fragments of a block -/

/-- **Fragments change** in a block that is not wholly free. -/
theorem recount_frags {s s' : Sums} {b : ℕ} (lt : b < fs.nblk)
    (other : ∀ i, i / fs.frag ≠ b → bit s'.blksfree i = bit s.blksfree i)
    (old : full (blk fs s.blksfree b) = false) (new : full (blk fs s'.blksfree b) = false)
    (nbfree : s'.cs.nbfree = s.cs.nbfree)
    (nffree : s'.cs.nffree = s.cs.nffree +
      ((blk fs s'.blksfree b).count true - (blk fs s.blksfree b).count true))
    (frsum : ∀ k, 1 ≤ k → k < fs.frag → s'.frsum k = s.frsum k +
      (runs k (blk fs s'.blksfree b) - runs k (blk fs s.blksfree b)))
    (blktot : s'.blktot = s.blktot) (blks : s'.blks = s.blks) (core : InStep s s') :
    Recount fs s s' b where
  lt := lt
  other := other
  nbfree := by rw [nbfree, whole_of_not_full old, whole_of_not_full new, sub_zero, add_zero]
  nffree := by rw [nffree, loose_of_not_full old, loose_of_not_full new]
  frsum k hk lt := by rw [frsum k hk lt, lone_of_not_full old, lone_of_not_full new]
  blktot c := by
    rw [blktot, whole_of_not_full old, whole_of_not_full new, sub_zero, ite_self, add_zero]
  blks c p := by
    rw [blks, whole_of_not_full old, whole_of_not_full new, sub_zero, ite_self, add_zero]
  core := core

/-- A place in another block. -/
theorem not_mem_of_block (le : bno % fs.frag + n ≤ fs.frag) (hi : i / fs.frag ≠ bno / fs.frag) :
    ¬ (bno ≤ i ∧ i < bno + n) := by
  have hbno := div_add_mod' bno fs.frag
  rw [ne_eq, Nat.div_eq_iff fs.frag_pos] at hi
  omega

/-- A block around some of its fragments. -/
theorem blk_around (le : bno % fs.frag + n ≤ fs.frag) :
    blk fs a (bno / fs.frag) = seg a (bno / fs.frag * fs.frag) (bno % fs.frag) ++
      (seg a bno n ++ seg a (bno + n) (fs.frag - bno % fs.frag - n)) := by
  rw [← seg_add, Nat.add_sub_cancel' (by omega), ← congrArg (seg a · _) (div_add_mod' bno fs.frag),
    ← seg_add, Nat.add_sub_cancel' (by omega), blk]

/-- Some fragments of a block become `v`. -/
theorem blk_changed {v : Bool} (le : bno % fs.frag + n ≤ fs.frag)
    (same : ∀ i, ¬ (bno ≤ i ∧ i < bno + n) → bit a' i = bit a i)
    (here : ∀ j < n, bit a' (bno + j) = v) :
    blk fs a' (bno / fs.frag) = seg a (bno / fs.frag * fs.frag) (bno % fs.frag) ++
      (List.replicate n v ++ seg a (bno + n) (fs.frag - bno % fs.frag - n)) := by
  have hbno := div_add_mod' bno fs.frag
  rw [blk_around le, seg_eq_replicate here, seg_congr fun j hj => same _ (by omega),
    seg_congr fun j hj => same _ (by omega)]

/-- **The block of a run**, and what it is after the front of the run has been taken. -/
theorem RunAt.blk (run : RunAt fs a bno n) :
    ∃ l l', Before l ∧ Behind l' ∧ blk fs a (bno / fs.frag) = l ++ (List.replicate n true ++ l') ∧
      ∀ m ≤ n, ∀ a', Took a a' bno m → blk fs a' (bno / fs.frag) =
        l ++ (List.replicate m false ++ (List.replicate (n - m) true ++ l')) := by
  have hle := run.le
  refine ⟨seg a (bno / fs.frag * fs.frag) (bno % fs.frag),
    seg a (bno + n) (fs.frag - bno % fs.frag - n), before_seg ?_, behind_seg ?_, ?_, ?_⟩
  · rw [div_add_mod']
    exact run.before
  · exact run.behind.imp_left fun h => by omega
  · rw [blk_around hle, seg_eq_replicate run.free]
  · intro m hm a' took
    have hleft : seg a (bno + m) (n - m) = List.replicate (n - m) true :=
      seg_eq_replicate fun j hj => Nat.add_assoc bno m j ▸ run.free _ (by omega)
    have hrest : fs.frag - bno % fs.frag - m = n - m + (fs.frag - bno % fs.frag - n) := by omega
    rw [blk_changed (by omega) (fun i => took.same) (fun j hj => took.taken (by omega)), hrest,
      seg_add, hleft, Nat.add_assoc bno, Nat.add_sub_cancel' hm]

/-- **The front of a run is taken** and the counts follow. -/
theorem RunAt.recount {s s' : Sums} (run : RunAt fs s.blksfree bno n) (hm : 0 < m) (le : m ≤ n)
    (short : n < fs.frag) (lt : bno < fs.fpg) (took : Took s.blksfree s'.blksfree bno m)
    (nbfree : s'.cs.nbfree = s.cs.nbfree) (nffree : s'.cs.nffree = s.cs.nffree + -m)
    (frsum : ∀ k, 1 ≤ k →
      s'.frsum k = s.frsum k + ((if n - m = k then 1 else 0) - if n = k then 1 else 0))
    (blktot : s'.blktot = s.blktot) (blks : s'.blks = s.blks) (core : InStep s s') :
    Recount fs s s' (bno / fs.frag) := by
  obtain ⟨l, l', before, behind, hold, hnew⟩ := run.blk
  replace hnew := hnew m le _ took
  have hlen : (Ffs.blk fs s.blksfree (bno / fs.frag)).length = fs.frag := length_blk
  refine recount_frags (div_lt_nblk.mpr lt) ?_ ?_ ?_ nbfree ?_ ?_ blktot blks core
  · have := run.le
    exact fun i hi => took.same (not_mem_of_block (by omega) hi)
  · rw [hold] at hlen ⊢
    refine not_full_of_mem ?_
    rcases before with rfl | ⟨l, rfl⟩
    · rcases behind with rfl | ⟨l', rfl⟩
      · simp at hlen
        omega
      · simp
    · simp
  · rw [hnew]
    refine not_full_of_mem ?_
    simp [hm.ne']
  · rw [hold, hnew]
    simp only [count_append, count_replicate]
    simp
    omega
  · intro k hk _
    have hk0 : k ≠ 0 := by omega
    rw [frsum k hk, hold, hnew, runs_isolated hk0 before behind, runs_cut hk0 before behind]
    push_cast
    ring

/-- The counts of runs when the front of a run is taken and `rest` is left. -/
theorem addAt_cut {f : ℕ → ℤ} {k rest : ℕ} (hk : 1 ≤ k) {p : Prop} [Decidable p]
    (left : p ↔ rest ≠ 0) :
    (if p then addAt (addAt f n (-1)) rest 1 else addAt f n (-1)) k =
      f k + ((if rest = k then 1 else 0) - if n = k then 1 else 0) := by
  by_cases hp : p
  · rw [if_pos hp, addAt_apply, addAt_apply]
    split_ifs <;> ring
  · have hrest : rest ≠ k := by
      have := left.not.mp hp
      omega
    rw [if_neg hp, addAt_apply]
    split_ifs <;> ring

/-! ## The calls -/

variable {size frags : ℕ} {rel : Release} {io : Bool}

attribute [local simp] Group.sums Group.setMap Group.setFrsum Group.count

theorem numfrags_bsize : fs.numfrags fs.bsize = fs.frag := by
  rw [Fs.numfrags, Fs.bsize, shiftLeft_shiftRight]

theorem dtogd_add {c : ℕ} (lt : bno < fs.fpg) : fs.dtogd (c * fs.fpg + bno) = bno := by
  rw [Fs.dtogd, mul_comm, mul_add_mod, mod_eq_of_lt lt]

/-- An allocation of `n` fragments, and what is counted. -/
structure Allocated (fs : Fs) (g g' : Group) (r n : ℕ) : Prop where
  cgx : g'.cg.cgx = g.cg.cgx
  took : ∃ bno, r = g.cg.cgx * fs.fpg + bno ∧ Took g.cg.blksfree g'.cg.blksfree bno n
  recounts : 0 < n → Recounts fs g.sums g'.sums

/-- A block is cut in two. -/
theorem cutBlock_spec (outside : Outside fs g.cg.blksfree) (le : frags ≤ fs.frag)
    (h : cutBlock fs g bpref frags = .ok (g', r)) : Allocated fs g g' r frags := by
  obtain ⟨⟨g₁, r₁⟩, hblk, h⟩ := bind_eq_ok h
  obtain ⟨bno, aligned, lt, rfl, took, recount⟩ := alloccgblk_spec outside hblk
  have hlast : bno + frags + (fs.frag - frags) = bno + fs.frag := by omega
  obtain ⟨map, hmap⟩ : ∃ map, setbits g₁.cg.blksfree
    (fs.dtogd (g.cg.cgx * fs.fpg + bno) + frags) (fs.frag - frags) = map := ⟨_, rfl⟩
  dsimp only at h
  rw [hmap] at h
  have cut : Took g.cg.blksfree map bno frags := by
    refine ⟨fun j hj => took.free j (by omega), fun i => ?_⟩
    rw [← hmap, gave_setbits, dtogd_add lt, took.bits]
    by_cases hi : bno ≤ i ∧ i < bno + fs.frag
    · have hfree := took.free (i - bno) (by omega)
      rw [Nat.add_sub_cancel' hi.1] at hfree
      rw [hfree, Bool.true_and, Bool.true_and, decide_eq_true hi, Bool.not_true, Bool.false_or,
        ← decide_not, decide_eq_decide]
      omega
    · rw [decide_eq_false hi, decide_eq_false (by omega), decide_eq_false (by omega),
        Bool.not_false, Bool.or_false]
  cases h
  refine ⟨recount.core.cgx, ⟨bno, rfl, cut⟩, fun pos => ?_⟩
  have hold : blk fs g₁.cg.blksfree (bno / fs.frag) = List.replicate fs.frag false :=
    (blk_aligned aligned).trans (seg_eq_replicate fun j hj => took.taken (by omega))
  have hnew : blk fs map (bno / fs.frag) =
      List.replicate frags false ++ List.replicate (fs.frag - frags) true := by
    rw [blk_aligned aligned, ← Nat.add_sub_cancel' le, seg_add, Nat.add_sub_cancel' le]
    congr 1
    · exact seg_eq_replicate fun j hj => cut.taken (by omega)
    · refine seg_eq_replicate fun j hj => ?_
      rw [cut.same (by omega), Nat.add_assoc]
      exact took.free _ (by omega)
  refine recount.recounts.tail ⟨bno / fs.frag, recount_frags recount.lt ?_ ?_ ?_ (add_zero _) ?_ ?_
    rfl rfl ?_⟩
  · intro i hi
    have hout := (mem_block_iff aligned).not.mp hi
    exact (cut.same (by omega)).trans (recount.other i hi).symm
  · exact hold ▸ full_false fs.frag_pos
  · refine hnew ▸ not_full_of_mem ?_
    simp [pos.ne']
  · change g₁.cg.cs.nffree + ((fs.frag - frags : ℕ) : ℤ) = _ + (((blk fs map _).count true : ℕ) -
      ((blk fs g₁.cg.blksfree _).count true : ℕ) : ℤ)
    rw [hold, hnew]
    simp [count_append, count_replicate]
  · intro k hk _
    change addAt g₁.cg.frsum (fs.frag - frags) 1 k = g₁.cg.frsum k + ((runs k (blk fs map _) : ℕ) -
      (runs k (blk fs g₁.cg.blksfree _) : ℕ) : ℤ)
    have hk0 : k ≠ 0 := by omega
    have hnone : runs k (List.replicate fs.frag false) = 0 := by
      rw [← append_nil (List.replicate _ false), runs_replicate_false_append hk0, runs_nil hk0]
    rw [hold, hnew, addAt_apply, runs_replicate_false_append hk0, runs_replicate_true, hnone]
    push_cast
    ring
  · constructor <;> simp

/-- A run is used. -/
theorem cutRun_spec (outside : Outside fs g.cg.blksfree) {allocsiz : ℕ} (le : frags ≤ allocsiz)
    (ne : allocsiz ≠ fs.frag)
    (h : cutRun fs g bpref frags allocsiz = .ok (g', r)) : Allocated fs g g' r frags := by
  obtain ⟨⟨cg, bno⟩, hsearch, h⟩ := bind_eq_ok h
  obtain ⟨⟨f, rfl⟩, pos, run⟩ := mapsearch_spec hsearch
  have hle := run.le
  have took : Took g.cg.blksfree (clrbits g.cg.blksfree bno frags) bno frags :=
    took_clrbits fun j hj => run.free j (by omega)
  cases h
  refine ⟨rfl, ⟨bno, rfl, took⟩, fun hfrags => ?_⟩
  refine Recount.recounts (b := bno / fs.frag) ?_
  refine RunAt.recount run hfrags le (by omega)
    (lt_of_bit outside (run.free 0 (by omega))) took (add_zero _) rfl ?_ rfl rfl ?_
  · exact fun k hk => addAt_cut hk (by omega)
  · constructor <;> simp

theorem le_findSize (fs : Fs) (frsum : ℕ → ℤ) (frags : ℕ) : frags ≤ findSize fs frsum frags := by
  unfold findSize
  cases h : (List.range' frags (fs.frag - frags)).find? fun i => frsum i ≠ 0 with
  | none => exact le_max_left ..
  | some i => exact (mem_range'_1.mp (mem_of_find?_eq_some h)).1

/-- **`ffs_alloccg`** fails, or takes the fragments it returns. -/
theorem alloccg_spec (outside : Outside fs g.cg.blksfree)
    (h : alloccg fs g bpref size io = .ok (g', r, rel)) :
    (g' = g ∧ r = 0 ∧ rel ≠ .bdwrite) ∨
      (rel = .bdwrite ∧ Allocated fs g g' r (fs.numfrags size)) := by
  unfold alloccg at h
  split at h
  · cases h
    exact .inl ⟨rfl, rfl, by decide⟩
  split at h
  · cases h
    exact .inl ⟨rfl, rfl, by decide⟩
  split at h
  · next hsize =>
    obtain ⟨⟨g₁, bno⟩, hblk, h⟩ := bind_eq_ok h
    cases h
    obtain ⟨bno, -, -, hr, took, recount⟩ := alloccgblk_spec outside hblk
    rw [hsize, numfrags_bsize]
    exact .inr ⟨rfl, recount.core.cgx, ⟨bno, hr, took⟩, fun _ => recount.recounts⟩
  have hle := le_findSize fs g.cg.frsum (fs.numfrags size)
  dsimp only at h
  split at h
  · next heq =>
    split at h
    · cases h
      exact .inl ⟨rfl, rfl, by decide⟩
    · obtain ⟨⟨g₁, bno⟩, hcut, h⟩ := bind_eq_ok h
      cases h
      exact .inr ⟨rfl, cutBlock_spec outside (heq ▸ hle) hcut⟩
  · next hne =>
    obtain ⟨⟨g₁, bno⟩, hcut, h⟩ := bind_eq_ok h
    cases h
    exact .inr ⟨rfl, cutRun_spec outside hle hne hcut⟩

/-! ### Extending a fragment -/

variable {bbase ofrags : ℕ}

/-- The end of what is free behind a fragment. -/
theorem findClr_spec (map : Bytes) (bno : ℕ) {fin : ℕ} (le : frags ≤ fin) :
    frags ≤ findClr map bno frags fin ∧ findClr map bno frags fin ≤ fin ∧
      (∀ j, frags ≤ j → j < findClr map bno frags fin → bit map (bno + j) = true) ∧
      (findClr map bno frags fin = fin ∨ bit map (bno + findClr map bno frags fin) = false) := by
  unfold findClr
  cases h : (List.range' frags (fin - frags)).find? fun i => isclr map (bno + i) with
  | none =>
    have all := find?_range'_eq_none.mp h
    rw [Option.getD_none, max_eq_right le]
    refine ⟨le, le_rfl, fun j hge hlt => ?_, .inl rfl⟩
    simpa [isclr_eq] using all j hge (by omega)
  | some i =>
    obtain ⟨hclr, hmem, all⟩ := find?_range'_eq_some.mp h
    have hi := mem_range'_1.mp hmem
    refine ⟨hi.1, by simp only [Option.getD_some]; omega, fun j hge hlt => ?_, .inr ?_⟩
    · simpa [isclr_eq] using all j hge hlt
    · simpa [isclr_eq] using hclr

variable (fs) in
/-- A fragment that is allocated, and a size to which it may be extended. -/
structure Extendable (g : Group) (bprev osize nsize : ℕ) : Prop where
  old : 0 < fs.numfrags osize
  larger : fs.numfrags osize < fs.numfrags nsize
  size : fs.numfrags nsize ≤ fs.frag
  allocated : ∀ j < fs.numfrags osize, bit g.cg.blksfree (fs.dtogd bprev + j) = false

/-- What is free behind a fragment is a run. -/
theorem runAt_behind (le : bno % fs.frag + frags ≤ fs.frag) (old : 0 < ofrags)
    (larger : ofrags < frags) (allocated : bit a (bno + ofrags - 1) = false)
    (free : ∀ i, ofrags ≤ i → i < frags → bit a (bno + i) = true) :
    RunAt fs a (bno + ofrags) (findClr a bno frags (fs.frag - bno % fs.frag) - ofrags) := by
  obtain ⟨hge, hle, hfree, hend⟩ :=
    findClr_spec a bno (by omega : frags ≤ fs.frag - bno % fs.frag)
  have hmod : (bno + ofrags) % fs.frag = bno % fs.frag + ofrags := by
    rw [← mod_add_mod, mod_eq_of_lt (by omega)]
  constructor
  case le =>
    omega
  case free =>
    intro j hj
    rw [Nat.add_assoc]
    by_cases hjf : ofrags + j < frags
    · exact free _ (by omega) hjf
    · exact hfree _ (by omega) (by omega)
  case before => exact .inr allocated
  case behind =>
    rw [Nat.add_assoc bno, Nat.add_sub_cancel' (by omega)]
    exact hend.imp_left fun h => by omega

/-- The fragments are in one block. -/
theorem one_block {bprev : ℕ} (pos : 0 < frags) (le : frags ≤ fs.frag)
    (h : fs.fragnum bprev ≤ fs.fragnum (bprev + frags - 1)) :
    fs.dtogd bprev % fs.frag + frags ≤ fs.frag := by
  have hlt := mod_lt bprev fs.frag_pos
  rw [fs.fragnum_eq, fs.fragnum_eq, show bprev + frags - 1 = bprev + (frags - 1) by omega,
    ← mod_add_mod] at h
  rw [fs.dtogd_mod_frag]
  by_contra hgt
  have hwrap : (bprev % fs.frag + (frags - 1)) % fs.frag =
      bprev % fs.frag + (frags - 1) - fs.frag := by
    rw [mod_eq_sub_mod (by omega), mod_eq_of_lt (by omega)]
  omega

variable {bprev osize nsize : ℕ}

theorem extend_spec {g₁ : Group} (free : ∀ i, ofrags ≤ i → i < frags →
      bit g.cg.blksfree (bno + i) = true) (h : extend fs g bno bbase ofrags frags = .ok g₁) :
    g₁.cg.cgx = g.cg.cgx ∧ Took g.cg.blksfree g₁.cg.blksfree (bno + ofrags) (frags - ofrags) := by
  unfold extend at h
  dsimp only at h
  split at h
  · cases h
  · cases h
    exact ⟨rfl, took_clrbits fun j hj => Nat.add_assoc bno ofrags j ▸ free _ (by omega) (by omega)⟩

theorem extend_recount {g₁ : Group} (outside : Outside fs g.cg.blksfree)
    (free : ∀ i, ofrags ≤ i → i < frags → bit g.cg.blksfree (bno + i) = true)
    (le : bno % fs.frag + frags ≤ fs.frag) (old : 0 < ofrags) (larger : ofrags < frags)
    (allocated : bit g.cg.blksfree (bno + ofrags - 1) = false)
    (h : extend fs g bno (bno % fs.frag) ofrags frags = .ok g₁) : Recounts fs g.sums g₁.sums := by
  have run := runAt_behind le old larger allocated free
  obtain ⟨hge, hle, -⟩ := findClr_spec g.cg.blksfree bno
    (by omega : frags ≤ fs.frag - bno % fs.frag)
  have took := (extend_spec free h).2
  unfold extend at h
  dsimp only at h
  split at h
  · cases h
  generalize findClr g.cg.blksfree bno frags (fs.frag - bno % fs.frag) = i at *
  cases h
  refine Recount.recounts (b := (bno + ofrags) / fs.frag) ?_
  refine RunAt.recount run (by omega) (by omega) (by omega)
    (lt_of_bit outside (run.free 0 (by omega))) took (add_zero _) rfl ?_ rfl rfl ?_
  · intro k hk
    rw [show i - ofrags - (frags - ofrags) = i - frags by omega]
    exact addAt_cut hk (by omega)
  · constructor <;> simp

/-- **`ffs_fragextend`** fails, or takes the fragments behind the one it extends. -/
theorem fragextend_spec (outside : Outside fs g.cg.blksfree)
    (h : fragextend fs g bprev osize nsize io = .ok (g', r, rel)) :
    (g' = g ∧ r = 0 ∧ rel ≠ .bdwrite) ∨
      (rel = .bdwrite ∧ r = bprev ∧ g'.cg.cgx = g.cg.cgx ∧
        Took g.cg.blksfree g'.cg.blksfree (fs.dtogd bprev + fs.numfrags osize)
          (fs.numfrags nsize - fs.numfrags osize) ∧
        (Extendable fs g bprev osize nsize → Recounts fs g.sums g'.sums)) := by
  unfold fragextend at h
  split at h
  · cases h
    exact .inl ⟨rfl, rfl, by decide⟩
  dsimp only at h
  split at h
  · cases h
    exact .inl ⟨rfl, rfl, by decide⟩
  next hblock =>
  split at h
  · cases h
    exact .inl ⟨rfl, rfl, by decide⟩
  split at h
  · split at h
    · cases h
    · cases h
      exact .inl ⟨rfl, rfl, by decide⟩
  next hnone =>
  obtain ⟨g₁, hextend, h⟩ := bind_eq_ok h
  obtain ⟨rfl, rfl, rfl⟩ : g₁ = g' ∧ bprev = r ∧ .bdwrite = rel := by
    simpa [pure, Except.pure] using h
  have free : ∀ i, fs.numfrags osize ≤ i → i < fs.numfrags nsize →
      bit g.cg.blksfree (fs.dtogd bprev + i) = true := fun i hge hlt => by
    have := find?_range'_eq_none.mp hnone i hge (by omega)
    simp only [isclr_eq, Bool.not_eq_true', Bool.or_eq_false_iff, Bool.not_eq_false'] at this
    exact this.2
  obtain ⟨hcgx, took⟩ := extend_spec free hextend
  refine .inr ⟨rfl, rfl, hcgx, took, fun ext => ?_⟩
  obtain ⟨old, larger, hsize, allocated⟩ := ext
  have le := one_block (by omega) hsize (not_lt.mp hblock)
  have hbase : fs.fragnum bprev = fs.dtogd bprev % fs.frag := by
    rw [fs.fragnum_eq, fs.dtogd_mod_frag]
  have hlast := allocated (fs.numfrags osize - 1) (by omega)
  rw [← Nat.add_sub_assoc old] at hlast
  exact extend_recount outside free le old larger hlast (hbase ▸ hextend)

/-! ### Clusters -/

theorem Took.outside (h : Took a a' bno n) (outside : Outside fs a) : Outside fs a' := by
  intro i hi
  rw [h.bits, outside i hi, Bool.false_and]

theorem clusterBlocks_spec {first len : ℕ} (outside : Outside fs g.cg.blksfree)
    (h : clusterBlocks fs (g.cg.cgx * fs.fpg + first * fs.frag) len g = .ok g') :
    g'.cg.cgx = g.cg.cgx ∧
      Took g.cg.blksfree g'.cg.blksfree (first * fs.frag) (len * fs.frag) ∧
      Recounts fs g.sums g'.sums := by
  induction len generalizing g' with
  | zero =>
    cases h
    rw [zero_mul]
    exact ⟨rfl, .zero, .refl⟩
  | succ len ih =>
    obtain ⟨g₁, hfront, h⟩ := bind_eq_ok h
    obtain ⟨⟨g₂, got⟩, hblk, h⟩ := bind_eq_ok h
    obtain ⟨hcgx, took, recounts⟩ := ih hfront
    obtain ⟨bno, -, -, hr, took', recount⟩ := alloccgblk_spec (took.outside outside) hblk
    dsimp only at h
    split at h
    · cases h
    next hgot =>
    cases h
    obtain rfl : bno = first * fs.frag + len * fs.frag := by
      rw [hcgx] at hr
      omega
    refine ⟨recount.core.cgx.trans hcgx, ?_, recounts.trans recount.recounts⟩
    rw [succ_mul]
    exact took.append took'

theorem takeCluster_spec {len run got : ℕ} (outside : Outside fs g.cg.blksfree)
    (h : takeCluster fs g len run got = .ok (g', r, rel)) :
    (g' = g ∧ rel = .unread ∨ rel = .brelse) ∧ Recounts fs g.sums g'.sums ∧
      ((g'.sums = g.sums ∧ r = 0) ∨ Allocated fs g g' r (len * fs.frag)) := by
  unfold takeCluster at h
  dsimp only at h
  split at h
  · split at h <;> cases h
  split at h
  · cases h
  obtain ⟨g₁, hblocks, h⟩ := bind_eq_ok h
  obtain ⟨rfl, rfl, rfl⟩ : g₁ = g' ∧ _ = r ∧ .brelse = rel := by
    simpa [pure, Except.pure] using h
  rw [fs.blkstofrags_eq] at hblocks ⊢
  obtain ⟨hcgx, took, recounts⟩ := clusterBlocks_spec outside hblocks
  exact ⟨.inr rfl, recounts, .inr ⟨hcgx, ⟨_, rfl, took⟩, fun _ => recounts⟩⟩

/-- **`ffs_clusteralloc`** fails, or takes the blocks it returns.  It never marks the buffer. -/
theorem clusteralloc_spec {len : ℕ} (outside : Outside fs g.cg.blksfree)
    (h : clusteralloc fs g bpref len io = .ok (g', r, rel)) :
    (g' = g ∧ rel = .unread ∨ rel = .brelse) ∧ Recounts fs g.sums g'.sums ∧
      ((g'.sums = g.sums ∧ r = 0) ∨ Allocated fs g g' r (len * fs.frag)) := by
  unfold clusteralloc at h
  split at h
  · cases h
    exact ⟨.inl ⟨rfl, rfl⟩, .refl, .inl ⟨rfl, rfl⟩⟩
  split at h
  · cases h
    exact ⟨.inr rfl, .refl, .inl ⟨rfl, rfl⟩⟩
  split at h
  · cases h
    exact ⟨.inr rfl, .refl, .inl ⟨rfl, rfl⟩⟩
  dsimp only at h
  split at h
  · cases h
    exact ⟨.inr rfl, .refl, .inl ⟨rfl, rfl⟩⟩
  exact takeCluster_spec outside h

/-! ### Freeing -/

theorem freeFrags_spec (h : freeFrags fs a bno n = .ok a') :
    Gave a a' bno n ∧ ∀ j < n, bit a (bno + j) = false := by
  induction n generalizing a' with
  | zero =>
    cases h
    refine ⟨fun i => ?_, fun j hj => absurd hj (not_lt_zero _)⟩
    rw [decide_eq_false (by omega), Bool.or_false]
  | succ n ih =>
    obtain ⟨a₁, hfront, h⟩ := bind_eq_ok h
    obtain ⟨gave, clear⟩ := ih hfront
    split at h
    · cases h
    split at h
    · cases h
    next hclr =>
    cases h
    rw [isset_eq, gave, decide_eq_false (by omega), Bool.or_false, Bool.not_eq_true] at hclr
    constructor
    · intro i
      rw [bit_setbit, gave, Bool.or_assoc, ← Bool.decide_or, decide_eq_decide.mpr]
      omega
    · intro j hj
      rcases Nat.lt_succ_iff_lt_or_eq.mp hj with hj | rfl
      · exact clear j hj
      · exact hclr

/-- The map of a block, as the list of its fragments. -/
theorem frags_blkmap (hloc : fs.frag ∣ loc) :
    Ffs.frags fs.frag (blkmap fs a loc).toNat = blk fs a (loc / fs.frag) := by
  rw [blk_aligned hloc]
  exact map_congr_left fun j hj => testBit_blkmap hloc (mem_range.mp hj)

/-- **Fragments of a block are released**: its fragments before and after. -/
theorem Gave.count (gave : Gave a a' bno n) (clear : ∀ j < n, bit a (bno + j) = false)
    (le : bno % fs.frag + n ≤ fs.frag) :
    (blk fs a' (bno / fs.frag)).count true = (blk fs a (bno / fs.frag)).count true + n := by
  rw [blk_changed le (fun i => gave.same) (fun j hj => gave.given (by omega)), blk_around le,
    seg_eq_replicate clear]
  simp [count_append, count_replicate]
  omega

theorem blockFreed_blksfree : (blockFreed fs g bno).cg.blksfree = g.cg.blksfree :=
  congrArg Sums.blksfree (sums_position g 1)

theorem isblock_eq_full {b : ℕ} : isblock fs a b = full (blk fs a b) := by
  rw [Bool.eq_iff_iff, isblock_iff, full, all_eq_true]
  constructor
  · intro all v hv
    obtain ⟨j, hj, rfl⟩ := mem_map.mp hv
    exact all _ (div_block (mem_range.mp hj))
  · intro all i hi
    have hmod := mod_lt i fs.frag_pos
    refine all _ (mem_map.mpr ⟨i % fs.frag, mem_range.mpr hmod, ?_⟩)
    rw [← hi, div_add_mod']
    rfl

theorem sub_fragnum (fs : Fs) (bno : ℕ) : bno - fs.fragnum bno = bno / fs.frag * fs.frag := by
  have := div_add_mod' bno fs.frag
  rw [fs.fragnum_eq]
  omega

/-- **Fragments are released**, and a block that becomes wholly free is counted as such. -/
theorem freeTail_spec (lt : bno < fs.fpg) (le : bno % fs.frag + n ≤ fs.frag)
    (h : freeTail fs g bno n = .ok g') :
    g'.cg.cgx = g.cg.cgx ∧ Gave g.cg.blksfree g'.cg.blksfree bno n ∧
      (0 < n → Recounts fs g.sums g'.sums) := by
  have hbase : fs.frag ∣ bno - fs.fragnum bno := sub_fragnum fs bno ▸ Nat.dvd_mul_left ..
  have hdiv : (bno - fs.fragnum bno) / fs.frag = bno / fs.frag := by
    rw [sub_fragnum, Nat.mul_div_cancel _ fs.frag_pos]
  obtain ⟨map, hmap, h⟩ := bind_eq_ok h
  obtain ⟨gave, clear⟩ := freeFrags_spec hmap
  change Gave g.cg.blksfree map bno n at gave
  change ∀ j < n, bit g.cg.blksfree (bno + j) = false at clear
  have hcount := gave.count clear le
  -- `ffs_fragacct` is called for the block before and after
  have hfrsum : ∀ k, 1 ≤ k → k < fs.frag →
      fragacct fs (blkmap fs map (bno - fs.fragnum bno)).toNat
        (fragacct fs (blkmap fs g.cg.blksfree (bno - fs.fragnum bno)).toNat g.cg.frsum (-1)) 1 k =
      g.cg.frsum k + (runs k (blk fs map (bno / fs.frag)) -
        runs k (blk fs g.cg.blksfree (bno / fs.frag))) := by
    intro k hk hlt
    rw [fragacct_eq blkmap_lt _ _ hk hlt, fragacct_eq blkmap_lt _ _ hk hlt, frags_blkmap hbase,
      frags_blkmap hbase, hdiv]
    ring
  have hother : ∀ i, i / fs.frag ≠ bno / fs.frag → bit map i = bit g.cg.blksfree i :=
    fun i hi => gave.same (not_mem_of_block le hi)
  have hold : 0 < n → full (blk fs g.cg.blksfree (bno / fs.frag)) = false := by
    intro hn
    refine not_full_of_mem ?_
    rw [blk_around le, seg_eq_replicate clear]
    simp [hn.ne']
  dsimp only at h
  split at h
  · next hfull =>
    obtain rfl := Except.ok.inj h
    rw [fs.fragstoblks_eq, hdiv, isblock_eq_full] at hfull
    have hnew : blk fs map (bno / fs.frag) = List.replicate fs.frag true := by
      have := full_iff.mp hfull
      rwa [length_blk] at this
    rw [hnew, count_replicate] at hcount
    refine ⟨congrArg Sums.cgx (sums_position _ 1), ?_, fun hn => ?_⟩
    · rw [blockFreed_blksfree]
      exact gave
    · refine Recount.recounts (b := (bno - fs.fragnum bno) / fs.frag) ?_
      refine recount_position (by omega) hbase ?_ ?_ ?_ ?_ ?_ rfl rfl ?_
      · rw [hdiv]
        exact hother
      · rw [hdiv]
        change (1 : ℤ) = whole (blk fs map _) - whole (blk fs g.cg.blksfree _)
        rw [hnew, whole_true, whole_of_not_full (hold hn), sub_zero]
      · exact (add_zero _).trans (add_zero _)
      · rw [hdiv]
        change g.cg.cs.nffree + (n : ℤ) + -(fs.frag : ℤ) =
          g.cg.cs.nffree + (loose (blk fs map _) - loose (blk fs g.cg.blksfree _))
        rw [hnew, loose_true, loose_of_not_full (hold hn)]
        simp only [beq_self_eq_true, if_true] at hcount
        omega
      · intro k hk hlt
        rw [hdiv]
        rw [lone_eq_runs (by rwa [length_blk]), lone_eq_runs (by rwa [length_blk])]
        exact hfrsum k hk hlt
      · constructor <;> simp <;> ring
  · next hfull =>
    obtain rfl := Except.ok.inj h
    rw [fs.fragstoblks_eq, hdiv, isblock_eq_full, Bool.not_eq_true] at hfull
    refine ⟨rfl, gave, fun hn => Recount.recounts (b := bno / fs.frag) ?_⟩
    refine recount_frags (div_lt_nblk.mpr lt) hother (hold hn) hfull (add_zero _) ?_ hfrsum rfl rfl
      ?_
    · change g.cg.cs.nffree + (n : ℤ) = g.cg.cs.nffree + _
      rw [Int.add_right_inj]
      change (n : ℤ) = ((blk fs map _).count true : ℕ) - ((blk fs g.cg.blksfree _).count true : ℕ)
      omega
    · constructor <;> simp

/-- **A block is released.** -/
theorem freeBlock_spec (lt : bno < fs.fpg) (aligned : fs.frag ∣ bno)
    (h : g' = blockFreed fs (g.setMap (setblock fs g.cg.blksfree (fs.fragstoblks bno))) bno) :
    g'.cg.cgx = g.cg.cgx ∧ Gave g.cg.blksfree g'.cg.blksfree bno fs.frag ∧
      ((∀ j < fs.frag, bit g.cg.blksfree (bno + j) = false) → Recounts fs g.sums g'.sums) := by
  have gave : Gave g.cg.blksfree (setblock fs g.cg.blksfree (fs.fragstoblks bno)) bno fs.frag := by
    intro i
    rw [bit_setblock, fs.fragstoblks_eq, decide_eq_decide.mpr (mem_block_iff aligned)]
  subst h
  refine ⟨congrArg Sums.cgx (sums_position _ 1), ?_, fun clear => ?_⟩
  · rw [blockFreed_blksfree]
    exact gave
  · exact (recount_whole (v := true) lt aligned (fun _ => gave.same) clear
      fun j hj => gave.given (by omega)).recounts

/-- **`ffs_blkfree`** of fragments in one block. -/
theorem blkfree_spec (le : fs.fragnum bno + fs.numfrags size ≤ fs.frag)
    (h : blkfree fs g bno size io = .ok (g', rel)) :
    (g' = g ∧ rel ≠ .bdwrite) ∨
      (rel = .bdwrite ∧ g'.cg.cgx = g.cg.cgx ∧
        Gave g.cg.blksfree g'.cg.blksfree (fs.dtogd bno) (fs.numfrags size) ∧
        (0 < fs.numfrags size →
          (∀ j < fs.numfrags size, bit g.cg.blksfree (fs.dtogd bno + j) = false) →
            Recounts fs g.sums g'.sums)) := by
  have lt : fs.dtogd bno < fs.fpg := mod_lt _ fs.fpg_pos
  rw [fs.fragnum_eq, ← fs.dtogd_mod_frag] at le
  unfold blkfree at h
  split at h
  · cases h
  split at h
  · cases h
    exact .inl ⟨rfl, by decide⟩
  split at h
  · cases h
    exact .inl ⟨rfl, by decide⟩
  dsimp only at h
  split at h
  · next hsize =>
    split at h
    · cases h
    rw [hsize, numfrags_bsize] at le ⊢
    have aligned : fs.frag ∣ fs.dtogd bno := Nat.dvd_of_mod_eq_zero (by omega)
    cases h
    obtain ⟨hcgx, gave, recounts⟩ := freeBlock_spec lt aligned rfl
    exact .inr ⟨rfl, hcgx, gave, fun _ clear => recounts clear⟩
  · obtain ⟨g₁, hfree, h⟩ := bind_eq_ok h
    cases h
    obtain ⟨hcgx, gave, recounts⟩ := freeTail_spec lt le hfree
    exact .inr ⟨rfl, hcgx, gave, fun pos _ => recounts pos⟩

end BSDLite2.Ffs
