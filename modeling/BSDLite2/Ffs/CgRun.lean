import BSDLite2.Ffs.CgSpec
import BSDLite2.Lib.Schedule

/-!
# Sequences of calls on a cylinder group

The summaries of a group match its map after every sequence of calls, if the calls are proper:
what is released is allocated and in one block, and what is extended is a fragment that is
allocated.  A fragment that is not allocated may be extended too, and then the runs are
miscounted (`extend_free`); and a call for no bytes at all is not a call that does nothing
(`size_zero`).

A result of 0 means that a call has failed, so fragment 0 of the file system, which is in the
boot block, must not be free (`fragment_zero`).

* `Proper` — the calls;
* `call_recounts` — a call and the summaries;
* `summaries_match` — a sequence of calls.
-/

namespace BSDLite2.Ffs

open Schedule Nat

/-- A call on the group. -/
inductive Call where
  | alloccg (bpref size : ℕ) (io : Bool)
  | fragextend (bprev osize nsize : ℕ) (io : Bool)
  | clusteralloc (bpref len : ℕ) (io : Bool)
  | blkfree (bno size : ℕ) (io : Bool)
  deriving DecidableEq

variable (fs : Fs)

/-- What a call does and returns. -/
def call (g : Group) : Call → Except Panic (Group × ℕ × Release)
  | .alloccg bpref size io => alloccg fs g bpref size io
  | .fragextend bprev osize nsize io => fragextend fs g bprev osize nsize io
  | .clusteralloc bpref len io => clusteralloc fs g bpref len io
  | .blkfree bno size io => do
      let (g, rel) ← blkfree fs g bno size io
      return (g, 0, rel)

/-- One call; nothing comes after a panic. -/
def step (g : Group) (c : Call) : Option Group :=
  match call fs g c with
  | .ok (g', _, _) => some g'
  | .error _ => none

/-- The fragments that a call takes or releases: the first one and how many. -/
def extent (r : ℕ) : Call → ℕ × ℕ
  | .alloccg _ size _ => (r, fs.numfrags size)
  | .fragextend bprev osize nsize _ =>
    (bprev + fs.numfrags osize, fs.numfrags nsize - fs.numfrags osize)
  | .clusteralloc _ len _ => (r, len * fs.frag)
  | .blkfree bno size _ => (bno, fs.numfrags size)

/-- Fragment 0 of the file system is not free. -/
def Boot (g : Group) : Prop := g.cg.cgx = 0 → bit g.cg.blksfree 0 = false

/-- **A proper call** on the group. -/
def Proper (g : Group) : Call → Prop
  | .alloccg _ size _ => 0 < fs.numfrags size
  | .fragextend bprev osize nsize _ =>
    fs.dtog bprev = g.cg.cgx ∧ bprev ≠ 0 ∧ Extendable fs g bprev osize nsize
  | .clusteralloc _ len _ => 0 < len
  | .blkfree bno size _ =>
    fs.dtog bno = g.cg.cgx ∧ bno ≠ 0 ∧ 0 < fs.numfrags size ∧
      fs.fragnum bno + fs.numfrags size ≤ fs.frag ∧
      ∀ j < fs.numfrags size, bit g.cg.blksfree (fs.dtogd bno + j) = false

/-- **Exactly the fragments of a call change.** -/
def Exact (g g' : Group) (r : ℕ) (c : Call) : Prop :=
  match c with
  | .blkfree .. =>
    g' = g ∨ ∃ bno, (extent fs r c).1 = g.cg.cgx * fs.fpg + bno ∧ bno + (extent fs r c).2 ≤ fs.fpg ∧
      Gave g.cg.blksfree g'.cg.blksfree bno (extent fs r c).2
  | _ =>
    (r = 0 → ∀ i, bit g'.cg.blksfree i = bit g.cg.blksfree i) ∧
      (r ≠ 0 → ∃ bno, (extent fs r c).1 = g.cg.cgx * fs.fpg + bno ∧
        bno + (extent fs r c).2 ≤ fs.fpg ∧ Took g.cg.blksfree g'.cg.blksfree bno (extent fs r c).2)

variable {fs} {g g' : Group} {c : Call} {r : ℕ} {rel : Release}

theorem extendable_iff {bprev osize nsize : ℕ} : Extendable fs g bprev osize nsize ↔
    0 < fs.numfrags osize ∧ fs.numfrags osize < fs.numfrags nsize ∧ fs.numfrags nsize ≤ fs.frag ∧
      ∀ j < fs.numfrags osize, bit g.cg.blksfree (fs.dtogd bprev + j) = false :=
  ⟨fun h => ⟨h.1, h.2, h.3, h.4⟩, fun h => ⟨h.1, h.2.1, h.2.2.1, h.2.2.2⟩⟩

instance decidableBoot : Decidable (Boot g) := inferInstanceAs (Decidable (_ → _))

instance decidableExtendable (bprev osize nsize : ℕ) :
    Decidable (Extendable fs g bprev osize nsize) := decidable_of_iff _ extendable_iff.symm

instance decidableProper : ∀ (g : Group) (c : Call), Decidable (Proper fs g c)
  | _, .alloccg .. => inferInstanceAs (Decidable (_ < _))
  | _, .fragextend .. => inferInstanceAs (Decidable (_ ∧ _))
  | _, .clusteralloc .. => inferInstanceAs (Decidable (_ < _))
  | _, .blkfree .. => inferInstanceAs (Decidable (_ ∧ _))

/-! ## One call -/

theorem Took.le {a a' : Bytes} {bno n : ℕ} (took : Took a a' bno n)
    (outside : Outside fs a) (pos : 0 < n) : bno + n ≤ fs.fpg := by
  have := lt_of_bit outside (took.free (n - 1) (by omega))
  omega

theorem Boot.took {bno n : ℕ} (boot : Boot g) (took : Took g.cg.blksfree g'.cg.blksfree bno n)
    (cgx : g'.cg.cgx = g.cg.cgx) : Boot g' := fun h => by
  rw [took.bits, boot (cgx ▸ h), Bool.false_and]

/-- A call that takes fragments returns them. -/
theorem Allocated.ne_zero {n : ℕ} (h : Allocated fs g g' r n) (boot : Boot g) (pos : 0 < n) :
    r ≠ 0 := by
  obtain ⟨bno, rfl, took⟩ := h.took
  intro hr
  obtain ⟨hcgx, rfl⟩ := Nat.add_eq_zero_iff.mp hr
  have := took.free 0 pos
  rw [boot ((Nat.mul_eq_zero.mp hcgx).resolve_right fs.fpg_pos.ne')] at this
  cases this

/-- Fragments in one block of the group. -/
theorem block_le {bno n : ℕ} (lt : bno < fs.fpg) (le : bno % fs.frag + n ≤ fs.frag) :
    bno + n ≤ fs.fpg := by
  have hbno := Nat.div_add_mod' bno fs.frag
  have hmul := mul_le_mul_right fs.frag (succ_le_of_lt (div_lt_nblk.mpr lt))
  rw [fs.nblk_mul, succ_mul] at hmul
  omega

section

variable (outside : Outside fs g.cg.blksfree) (boot : Boot g) (proper : Proper fs g c)
  (h : call fs g c = .ok (g', r, rel))

include outside boot proper h

/-- **A call and the map.**  The fragments of the call change and no others. -/
theorem call_exact : Exact fs g g' r c := by
  cases c with
  | alloccg bpref size io =>
    rcases alloccg_spec outside h with ⟨rfl, rfl, -⟩ | ⟨-, alloc⟩
    · exact ⟨fun _ _ => rfl, fun hne => absurd rfl hne⟩
    · obtain ⟨bno, hr, took⟩ := alloc.took
      exact ⟨fun hr => absurd hr (alloc.ne_zero boot proper),
        fun _ => ⟨bno, hr, took.le outside proper, took⟩⟩
  | fragextend bprev osize nsize io =>
    obtain ⟨hgroup, hne, ext⟩ := proper
    rcases fragextend_spec outside h with ⟨rfl, rfl, -⟩ | ⟨-, rfl, -, took, -⟩
    · exact ⟨fun _ _ => rfl, fun hne => absurd rfl hne⟩
    · refine ⟨fun hr => absurd hr hne, fun _ => ⟨_, ?_, took.le outside ?_, took⟩⟩
      · have := div_add_mod r fs.fpg
        rw [extent, ← hgroup, Fs.dtog, Fs.dtogd, Nat.mul_comm]
        omega
      · exact Nat.sub_pos_of_lt ext.larger
  | clusteralloc bpref len io =>
    have pos : 0 < len * fs.frag := Nat.mul_pos proper fs.frag_pos
    obtain ⟨-, -, ⟨hsums, rfl⟩ | alloc⟩ := clusteralloc_spec outside h
    · have hmap : g'.cg.blksfree = g.cg.blksfree := congrArg Sums.blksfree hsums
      exact ⟨fun _ i => by rw [hmap], fun hne => absurd rfl hne⟩
    · obtain ⟨bno, hr, took⟩ := alloc.took
      exact ⟨fun hr => absurd hr (alloc.ne_zero boot pos),
        fun _ => ⟨bno, hr, took.le outside pos, took⟩⟩
  | blkfree bno size io =>
    obtain ⟨hgroup, -, -, le, -⟩ := proper
    obtain ⟨⟨g₁, rel₁⟩, hfree, h⟩ := bind_eq_ok h
    cases h
    rcases blkfree_spec le hfree with ⟨rfl, -⟩ | ⟨-, -, gave, -⟩
    · exact .inl rfl
    · refine .inr ⟨_, ?_, ?_, gave⟩
      · have := div_add_mod bno fs.fpg
        rw [extent, ← hgroup, Fs.dtog, Fs.dtogd, Nat.mul_comm]
        omega
      · rw [fs.fragnum_eq, ← fs.dtogd_mod_frag] at le
        exact block_le (mod_lt _ fs.fpg_pos) le

/-- **A call and the summaries.** -/
theorem call_recounts : Recounts fs g.sums g'.sums ∧ Boot g' := by
  cases c with
  | alloccg bpref size io =>
    rcases alloccg_spec outside h with ⟨rfl, -⟩ | ⟨-, alloc⟩
    · exact ⟨.refl, boot⟩
    · obtain ⟨bno, -, took⟩ := alloc.took
      exact ⟨alloc.recounts proper, boot.took took alloc.cgx⟩
  | fragextend bprev osize nsize io =>
    obtain ⟨-, -, ext⟩ := proper
    rcases fragextend_spec outside h with ⟨rfl, -⟩ | ⟨-, -, hcgx, took, recounts⟩
    · exact ⟨.refl, boot⟩
    · exact ⟨recounts ext, boot.took took hcgx⟩
  | clusteralloc bpref len io =>
    obtain ⟨-, recounts, ⟨hsums, -⟩ | alloc⟩ := clusteralloc_spec outside h
    · have hmap : g'.cg.blksfree = g.cg.blksfree := congrArg Sums.blksfree hsums
      have hcgx : g'.cg.cgx = g.cg.cgx := congrArg Sums.cgx hsums
      exact ⟨recounts, fun h => hmap ▸ boot (hcgx ▸ h)⟩
    · obtain ⟨bno, -, took⟩ := alloc.took
      exact ⟨recounts, boot.took took alloc.cgx⟩
  | blkfree bno size io =>
    obtain ⟨hgroup, hne, pos, le, clear⟩ := proper
    obtain ⟨⟨g₁, rel₁⟩, hfree, h⟩ := bind_eq_ok h
    cases h
    rcases blkfree_spec le hfree with ⟨rfl, -⟩ | ⟨-, hcgx, gave, recounts⟩
    · exact ⟨.refl, boot⟩
    · refine ⟨recounts pos clear, fun h => ?_⟩
      rw [hcgx, ← hgroup] at h
      have hbno : fs.dtogd bno = bno :=
        Nat.mod_eq_of_lt ((Nat.div_eq_zero_iff.mp h).resolve_left fs.fpg_pos.ne')
      rw [gave, boot (hgroup ▸ h), decide_eq_false (by omega), Bool.or_false]

end

/-! ## Every sequence of calls -/

theorem step_eq_some (h : step fs g c = some g') : ∃ r rel, call fs g c = .ok (g', r, rel) := by
  unfold step at h
  split at h
  · next hcall =>
    cases h
    exact ⟨_, _, hcall⟩
  · cases h

/-- **The summaries match the map** after every sequence of proper calls, those in the
superblock have changed by the same amounts, and a call changes the fragments it returns or
releases and no others. -/
theorem summaries_match {g₀ : Group} {cs : List Call} (start : Matches fs g₀.sums) (boot : Boot g₀)
    (proper : Along (step fs) (Proper fs) g₀ cs) (h : run (step fs) g₀ cs = some g) :
    Matches fs g.sums ∧ InStep g₀.sums g.sums ∧
      ∀ c g' r rel, Proper fs g c → call fs g c = .ok (g', r, rel) → Exact fs g g' r c := by
  have keeps : ∀ s c t, Matches fs s.sums ∧ Boot s ∧ InStep g₀.sums s.sums → Proper fs s c →
      step fs s c = some t → Matches fs t.sums ∧ Boot t ∧ InStep g₀.sums t.sums := by
    rintro s c t ⟨hmatches, hboot, hstep⟩ hproper hrun
    obtain ⟨r, rel, hcall⟩ := step_eq_some hrun
    obtain ⟨recounts, hboot'⟩ := call_recounts hmatches.outside hboot hproper hcall
    exact ⟨hmatches.recounts recounts, hboot', hstep.trans recounts.inStep⟩
  obtain ⟨hmatches, hboot, hstep⟩ :=
    run_invariant keeps ⟨start, boot, .of_eq rfl rfl rfl rfl rfl⟩ proper h
  exact ⟨hmatches, hstep, fun c g' r rel => call_exact hmatches.outside hboot⟩

/-! ### An example -/

/-- Two blocks of four fragments. -/
def small : Fs where
  fragshift := 2
  fshift := 0
  fpg := 8
  size := 1000
  nspf := 1
  spc := 8
  nsect := 8
  npsect := 8
  trackskew := 0
  interleave := 1
  nrpos := 1
  cpc := 0
  postbl _ _ := -1
  rotbl _ := 0
  contigsumsize := 0
  fragshift_le := by decide
  fpg_pos := by decide
  fpg_dvd := by decide

/-- The second group, in which three fragments are free. -/
def three : Group where
  cg :=
    { cgx := 1
      magic := true
      cs := ⟨0, 3⟩
      rotor := 0
      frotor := 0
      frsum := fun k => if k = 3 then 1 else 0
      blktot := fun _ => 0
      blks := fun _ _ => 0
      blksfree := fun i => if i = 0 then 0x70#8 else 0#8
      clustersfree := fun _ => 0#8
      clustersum := fun _ => 0
      nclusterblks := 0 }
  cs := ⟨0, 3⟩
  cstotal := ⟨5, 7⟩
  maxcluster := 0

/-- No bit is set behind the one byte of a map. -/
theorem bit_behind (b : BitVec 8) (i : ℕ) (hi : 8 ≤ i) :
    bit (fun i => if i = 0 then b else 0#8) i = false := by
  have hne : i / 8 ≠ 0 := by omega
  change (if i / 8 = 0 then b else 0#8).getLsbD (i % 8) = false
  rw [if_neg hne, BitVec.getLsbD_zero]

theorem matches_three : Matches small three.sums where
  nbfree := by decide
  nffree := by decide
  frsum k hk lt := by
    change k < 4 at lt
    interval_cases k <;> decide
  blktot c := by
    refine (Finset.sum_eq_zero fun b hb => ?_).symm
    have : b < 2 := Finset.mem_range.mp hb
    interval_cases b <;> exact ite_self _
  blks c p := by
    refine (Finset.sum_eq_zero fun b hb => ?_).symm
    have : b < 2 := Finset.mem_range.mp hb
    interval_cases b <;> exact ite_self _
  outside := bit_behind 0x70

/-- The summaries after a fragment has been allocated, extended and released. -/
theorem summaries_match_three : ∃ g, run (step small) three
    [.alloccg 0 1 true, .fragextend 12 1 2 true, .blkfree 12 2 true] = some g ∧
      Matches small g.sums :=
  have h := summaries_match matches_three (by decide)
    (by decide : Along (step small) (Proper small) three
      [.alloccg 0 1 true, .fragextend 12 1 2 true, .blkfree 12 2 true]) rfl
  ⟨_, rfl, h.1⟩

/-- **A fragment that is not allocated is extended.**  The run of three that it is in is not
counted as one, and there is one run of a fragment too few. -/
theorem extend_free : ∃ g r rel, Matches small three.sums ∧ Boot three ∧
    call small three (.fragextend 12 1 2 true) = .ok (g, r, rel) ∧ r = 12 ∧
      ¬ Matches small g.sums := by
  refine ⟨_, _, _, matches_three, by decide, rfl, rfl, fun h => ?_⟩
  have := h.frsum 1 le_rfl (by decide)
  revert this
  decide

/-- A group in which the first block is free. -/
def oneBlock (cgx : ℕ) : Group where
  cg :=
    { three.cg with
      cgx := cgx
      cs := ⟨1, 0⟩
      frsum := fun _ => 0
      blktot := fun c => if 0 = c then 1 else 0
      blks := fun c p => if 0 = c ∧ 0 = p then 1 else 0
      blksfree := fun i => if i = 0 then 0x0f#8 else 0#8 }
  cs := ⟨1, 0⟩
  cstotal := ⟨5, 7⟩
  maxcluster := 0

theorem matches_oneBlock (cgx : ℕ) : Matches small (oneBlock cgx).sums := by
  -- what is counted does not depend on the number of the group
  suffices h : Matches small (oneBlock 0).sums from
    ⟨h.nbfree, h.nffree, h.frsum, h.blktot, h.blks, h.outside⟩
  have blocks : small.nblk = 2 := by decide
  have first : whole (blk small (oneBlock 0).sums.blksfree 0) = 1 := by decide
  have second : whole (blk small (oneBlock 0).sums.blksfree 1) = 0 := by decide
  refine ⟨by decide, by decide, fun k hk lt => ?_, fun c => ?_, fun c p => ?_, bit_behind 0x0f⟩
  · change k < 4 at lt
    interval_cases k <;> decide
  · rw [blocks, Finset.sum_range_succ, Finset.sum_range_one, first, second, ite_self, add_zero]
    rfl
  · rw [blocks, Finset.sum_range_succ, Finset.sum_range_one, first, second, ite_self, add_zero]
    rfl

/-- **A call for nothing** changes the counts: `ffs_alloccg` takes a block for it, of which all the
fragments are left, `ffs_fragextend` cuts a run, and `ffs_blkfree` finds a free block and counts it
once more. -/
theorem size_zero : Matches small (oneBlock 1).sums ∧ Boot (oneBlock 1) ∧
    (∃ g r rel, call small (oneBlock 1) (.alloccg 0 0 true) = .ok (g, r, rel) ∧
      ¬ Matches small g.sums) ∧
    (∃ g r rel, call small (oneBlock 1) (.blkfree 8 0 true) = .ok (g, r, rel) ∧
      ¬ Matches small g.sums) ∧
    ∃ g r rel, call small three (.fragextend 13 0 1 true) = .ok (g, r, rel) ∧
      ¬ Matches small g.sums := by
  refine ⟨matches_oneBlock 1, by decide, ⟨_, _, _, rfl, fun h => ?_⟩, ⟨_, _, _, rfl, fun h => ?_⟩,
    _, _, _, rfl, fun h => ?_⟩
  · exact absurd h.nffree (by decide)
  · exact absurd h.nbfree (by decide)
  · exact absurd (h.frsum 2 (by decide) (by decide)) (by decide)

/-- **Fragment 0 is allocated** and returned, which the caller takes for a failure. -/
theorem fragment_zero : Matches small (oneBlock 0).sums ∧ ∃ g rel,
    call small (oneBlock 0) (.alloccg 0 1 true) = .ok (g, 0, rel) ∧
      ¬ Exact small (oneBlock 0) g 0 (.alloccg 0 1 true) := by
  refine ⟨matches_oneBlock 0, _, _, rfl, fun h => ?_⟩
  exact absurd (h.1 rfl 0) (by decide)

end BSDLite2.Ffs
