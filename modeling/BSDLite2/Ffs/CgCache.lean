import BSDLite2.Ffs.CgRun

/-!
# A cylinder group in the buffer cache

The group is on the disk and, most of the time, in a buffer.  A call works on the buffer, which
is read if it is not there.  `bdwrite` marks the buffer, and it stays until it has been written;
a buffer that is not marked may be dropped at any time, and then the copy on the disk counts.

`ffs_clusteralloc` changes the map and releases the buffer with `brelse`.  If the buffer is
dropped before another call marks it, the blocks are free again on the next read, and they are
handed out a second time (`handed_out_twice`).

Two invariants carry the proofs.  `Held` is what holds while all is right: the map of the group
agrees with what is handed out.  `Tracked` compares an unmarked buffer with the disk: whatever is
free in the buffer is free on the disk, and the two maps differ exactly if a cluster has been taken
since the buffer was read or written.  It needs that every other call that changes the map marks
the buffer (`call_unmarked`).

* `Cache`, `happen` — the group, what is in the buffer, and which fragments are handed out;
* `Agree` — the map says which fragments are handed out;
* `Kept` — no buffer is dropped in which a cluster was taken;
* `agree_iff_kept` — the map agrees, and no fragment is handed out twice, exactly if this is so;
* `agree_of_no_cluster` — so it is without `ffs_clusteralloc`.
-/

namespace BSDLite2.Ffs

open Schedule Nat

/-! ## The cache -/

/-- The buffer of the group. -/
inductive Buf where
  | absent
  | clean (cg : Cg)
  | dirty (cg : Cg)

/-- The group on the disk and in the cache, and the superblock in memory. -/
structure Cache where
  disk : Cg
  buf : Buf
  cs : Csum
  cstotal : Csum
  maxcluster : ℤ
  /-- the fragments that are handed out -/
  taken : ℕ → Bool
  /-- a fragment has been handed out that was so already -/
  twice : Bool
  /-- a cluster has been taken since the buffer was read or written, and it was not marked since -/
  loose : Bool

/-- What a read of the group returns. -/
def Cache.cg (s : Cache) : Cg :=
  match s.buf with
  | .absent => s.disk
  | .clean cg => cg
  | .dirty cg => cg

/-- The group that a call works on. -/
def Cache.group (s : Cache) : Group := ⟨s.cg, s.cs, s.cstotal, s.maxcluster⟩

/-- The buffer after it has been released. -/
def Buf.release (buf : Buf) (cg : Cg) : Release → Buf
  | .unread => buf
  | .brelse => match buf with
      | .dirty _ => .dirty cg
      | _ => .clean cg
  | .bdwrite => .dirty cg

/-- What happens to the group. -/
inductive Event where
  | call (c : Call)
  /-- the buffer is dropped -/
  | evict
  /-- the buffer is written -/
  | write

variable (fs : Fs)

/-- The fragments that are handed out after a call. -/
def takenAfter (taken : ℕ → Bool) (r : ℕ) (rel : Release) (c : Call) : ℕ → Bool :=
  let e := extent fs r c
  match c with
  | .blkfree .. =>
    if rel = .bdwrite then fun d => taken d && !decide (e.1 ≤ d ∧ d < e.1 + e.2) else taken
  | _ => if r = 0 then taken else fun d => taken d || decide (e.1 ≤ d ∧ d < e.1 + e.2)

/-- The call returns a fragment that is handed out. -/
def clashes (taken : ℕ → Bool) (r : ℕ) (c : Call) : Bool :=
  let e := extent fs r c
  match c with
  | .blkfree .. => false
  | _ => r != 0 && (List.range e.2).any fun j => taken (e.1 + j)

/-- A cluster of at least one block has been taken and the buffer not been marked since. -/
def looseAfter (loose : Bool) (r : ℕ) (rel : Release) : Call → Bool
  | .clusteralloc _ len _ => loose || (r != 0 && len != 0)
  | _ => loose && decide (rel ≠ .bdwrite)

/-- What happens next. -/
def happen (s : Cache) : Event → Option Cache
  | .call c =>
    match call fs s.group c with
    | .error _ => none
    | .ok (g, r, rel) => some
        { disk := s.disk
          buf := s.buf.release g.cg rel
          cs := g.cs
          cstotal := g.cstotal
          maxcluster := g.maxcluster
          taken := takenAfter fs s.taken r rel c
          twice := s.twice || clashes fs s.taken r c
          loose := looseAfter s.loose r rel c }
  | .evict => match s.buf with
      | .clean _ => some { s with buf := .absent, loose := false }
      | _ => none
  | .write => match s.buf with
      | .dirty cg => some { s with disk := cg, buf := .clean cg, loose := false }
      | _ => none

/-! ## The map and what is handed out -/

/-- **The map says which fragments are handed out.** -/
def Agree (cg : Cg) (taken : ℕ → Bool) : Prop :=
  ∀ i < fs.fpg, bit cg.blksfree i = !taken (cg.cgx * fs.fpg + i)

/-- A map that says nothing of what is outside the group, and in which the boot block is not
free. -/
structure Sane (cg : Cg) : Prop where
  outside : ∀ i, fs.fpg ≤ i → bit cg.blksfree i = false
  boot : cg.cgx = 0 → bit cg.blksfree 0 = false

/-- What is released is in one block of the group, and what is extended is in the group. -/
def Placed (g : Group) : Call → Prop
  | .fragextend bprev _ _ _ => fs.dtog bprev = g.cg.cgx ∧ bprev ≠ 0
  | .blkfree bno size _ =>
    fs.dtog bno = g.cg.cgx ∧ bno ≠ 0 ∧ fs.fragnum bno + fs.numfrags size ≤ fs.frag
  | _ => True

/-- The calls of a schedule. -/
def Room (s : Cache) : Event → Prop
  | .call c => Placed fs s.group c
  | _ => True

/-- **No cluster is lost**: when the buffer is dropped, no cluster has been taken since it was read
or written, unless a call has marked it in between. -/
def Kept (s : Cache) : Event → Prop
  | .evict => s.loose = false
  | _ => True

/-- The copy on the disk has the same map when the buffer is dropped. -/
def Same (s : Cache) : Event → Prop
  | .evict => ∀ i < fs.fpg, bit s.cg.blksfree i = bit s.disk.blksfree i
  | _ => True

instance decidableAgree (cg : Cg) (taken : ℕ → Bool) : Decidable (Agree fs cg taken) :=
  inferInstanceAs (Decidable (∀ i < _, _))

instance decidableKept : ∀ (s : Cache) (e : Event), Decidable (Kept s e)
  | s, .evict => inferInstanceAs (Decidable (s.loose = false))
  | _, .call _ => inferInstanceAs (Decidable True)
  | _, .write => inferInstanceAs (Decidable True)

instance decidablePlaced : ∀ (g : Group) (c : Call), Decidable (Placed fs g c)
  | _, .alloccg .. => inferInstanceAs (Decidable True)
  | _, .fragextend .. => inferInstanceAs (Decidable (_ ∧ _))
  | _, .clusteralloc .. => inferInstanceAs (Decidable True)
  | _, .blkfree .. => inferInstanceAs (Decidable (_ ∧ _))

instance decidableRoom : ∀ (s : Cache) (e : Event), Decidable (Room fs s e)
  | _, .evict => inferInstanceAs (Decidable True)
  | _, .write => inferInstanceAs (Decidable True)
  | s, .call c => decidablePlaced fs s.group c

variable {fs} {g g' : Group} {c : Call} {r : ℕ} {rel : Release} {taken : ℕ → Bool} {bno n : ℕ}

theorem Agree.took (agree : Agree fs g.cg taken) (hcgx : g'.cg.cgx = g.cg.cgx)
    (took : Took g.cg.blksfree g'.cg.blksfree bno n) :
    Agree fs g'.cg fun d => taken d ||
      decide (g.cg.cgx * fs.fpg + bno ≤ d ∧ d < g.cg.cgx * fs.fpg + bno + n) := fun i hi => by
  rw [took.bits, agree i hi, hcgx, Bool.not_or]
  congr 2
  exact decide_eq_decide.mpr (by omega)

theorem Agree.gave (agree : Agree fs g.cg taken) (hcgx : g'.cg.cgx = g.cg.cgx)
    (gave : Gave g.cg.blksfree g'.cg.blksfree bno n) :
    Agree fs g'.cg fun d => taken d &&
      !decide (g.cg.cgx * fs.fpg + bno ≤ d ∧ d < g.cg.cgx * fs.fpg + bno + n) := fun i hi => by
  rw [gave, agree i hi, hcgx, Bool.not_and, Bool.not_not]
  congr 1
  exact decide_eq_decide.mpr (by omega)

/-- What is free is not handed out. -/
theorem Agree.fresh (agree : Agree fs g.cg taken) (sane : Sane fs g.cg) {a' : Bytes}
    (took : Took g.cg.blksfree a' bno n) :
    ((List.range n).any fun j => taken (g.cg.cgx * fs.fpg + bno + j)) = false := by
  rw [List.any_eq_false]
  intro j hj
  have hfree := took.free j (List.mem_range.mp hj)
  have := agree _ (lt_of_bit sane.outside hfree)
  rw [hfree, ← add_assoc, Bool.true_eq, Bool.not_eq_true'] at this
  exact Bool.eq_false_iff.mp this

theorem Sane.took (sane : Sane fs g.cg) (hcgx : g'.cg.cgx = g.cg.cgx)
    (took : Took g.cg.blksfree g'.cg.blksfree bno n) : Sane fs g'.cg where
  outside := took.outside sane.outside
  boot h := by rw [took.bits, sane.boot (hcgx ▸ h), Bool.false_and]

/-- Where a fragment is in its group. -/
theorem dtog_add_dtogd {d : ℕ} : fs.dtog d * fs.fpg + fs.dtogd d = d := by
  rw [mul_comm]
  exact div_add_mod d fs.fpg

theorem Allocated.agree (alloc : Allocated fs g g' r n) (sane : Sane fs g.cg)
    (agree : Agree fs g.cg taken) : g'.cg.cgx = g.cg.cgx ∧ Sane fs g'.cg ∧
    Agree fs g'.cg (if r = 0 then taken else fun d => taken d || decide (r ≤ d ∧ d < r + n)) ∧
      (r != 0 && (List.range n).any fun j => taken (r + j)) = false := by
  obtain ⟨bno, hr, took⟩ := alloc.took
  have fresh := agree.fresh sane took
  rw [← hr] at fresh
  refine ⟨alloc.cgx, sane.took alloc.cgx took, ?_, by rw [fresh, Bool.and_false]⟩
  split_ifs with hzero
  · obtain rfl : n = 0 := by
      by_contra hn
      exact alloc.ne_zero sane.boot (pos_of_ne_zero hn) hzero
    intro i hi
    rw [took.bits, decide_eq_false (by omega), Bool.not_false, Bool.and_true, alloc.cgx]
    exact agree i hi
  · have := agree.took alloc.cgx took
    rwa [← hr] at this

/-- **A call and what is handed out.** -/
theorem call_agree (sane : Sane fs g.cg) (agree : Agree fs g.cg taken) (placed : Placed fs g c)
    (h : call fs g c = .ok (g', r, rel)) :
    g'.cg.cgx = g.cg.cgx ∧ Sane fs g'.cg ∧ Agree fs g'.cg (takenAfter fs taken r rel c) ∧
      clashes fs taken r c = false := by
  cases c with
  | alloccg bpref size io =>
    rcases alloccg_spec sane.outside h with ⟨rfl, rfl, -⟩ | ⟨-, alloc⟩
    · exact ⟨rfl, sane, agree, rfl⟩
    · exact alloc.agree sane agree
  | fragextend bprev osize nsize io =>
    obtain ⟨hgroup, hne⟩ := placed
    rcases fragextend_spec sane.outside h with ⟨rfl, rfl, -⟩ | ⟨-, rfl, hcgx, took, -⟩
    · exact ⟨rfl, sane, agree, rfl⟩
    · have hstart : g.cg.cgx * fs.fpg + (fs.dtogd r + fs.numfrags osize) =
          r + fs.numfrags osize := by
        rw [← add_assoc, ← hgroup, dtog_add_dtogd]
      have hagree := agree.took hcgx took
      have fresh := agree.fresh sane took
      rw [hstart] at hagree fresh
      refine ⟨hcgx, sane.took hcgx took, ?_, ?_⟩
      · simp only [takenAfter, extent, if_neg hne]
        exact hagree
      · simp only [clashes, extent]
        rw [fresh, Bool.and_false]
  | clusteralloc bpref len io =>
    obtain ⟨-, -, ⟨hsums, rfl⟩ | alloc⟩ := clusteralloc_spec sane.outside h
    · have hmap : g'.cg.blksfree = g.cg.blksfree := congrArg Sums.blksfree hsums
      have hcgx : g'.cg.cgx = g.cg.cgx := congrArg Sums.cgx hsums
      refine ⟨hcgx, ⟨hmap ▸ sane.outside, fun h => hmap ▸ sane.boot (hcgx ▸ h)⟩, ?_, rfl⟩
      intro i hi
      rw [hmap, hcgx]
      exact agree i hi
    · exact alloc.agree sane agree
  | blkfree bno size io =>
    obtain ⟨hgroup, hne, le⟩ := placed
    obtain ⟨⟨g₁, rel₁⟩, hfree, h⟩ := bind_eq_ok h
    cases h
    rcases blkfree_spec le hfree with ⟨rfl, hrel⟩ | ⟨hrel, hcgx, gave, -⟩
    · refine ⟨rfl, sane, ?_, rfl⟩
      simp only [takenAfter, if_neg hrel]
      exact agree
    · have hagree := agree.gave hcgx gave
      rw [← hgroup, dtog_add_dtogd] at hagree
      rw [fs.fragnum_eq, ← fs.dtogd_mod_frag] at le
      have hlt : fs.dtogd bno < fs.fpg := mod_lt _ fs.fpg_pos
      have hle := block_le hlt le
      refine ⟨hcgx, ⟨fun i hi => ?_, fun h => ?_⟩, ?_, rfl⟩
      · rw [gave, sane.outside i hi, decide_eq_false (by omega), Bool.or_false]
      -- fragment 0 of the file system is not among those released
      · rw [hcgx, ← hgroup] at h
        have hbno : fs.dtogd bno = bno :=
          Nat.mod_eq_of_lt ((Nat.div_eq_zero_iff.mp h).resolve_left fs.fpg_pos.ne')
        rw [gave, sane.boot (hgroup ▸ h), decide_eq_false (by omega), Bool.or_false]
      · simp only [takenAfter, extent, if_pos hrel]
        exact hagree

/-- A call that does not mark the buffer leaves the map alone, unless it takes a cluster. -/
theorem call_unmarked (sane : Sane fs g.cg) (placed : Placed fs g c)
    (h : call fs g c = .ok (g', r, rel)) (hrel : rel ≠ .bdwrite)
    (other : ∀ bpref len io, c ≠ .clusteralloc bpref len io) : g' = g := by
  cases c with
  | alloccg bpref size io =>
    rcases alloccg_spec sane.outside h with ⟨rfl, -⟩ | ⟨marked, -⟩
    · rfl
    · exact absurd marked hrel
  | fragextend bprev osize nsize io =>
    rcases fragextend_spec sane.outside h with ⟨rfl, -⟩ | ⟨marked, -⟩
    · rfl
    · exact absurd marked hrel
  | clusteralloc bpref len io => exact absurd rfl (other bpref len io)
  | blkfree bno size io =>
    obtain ⟨⟨g₁, rel₁⟩, hfree, h⟩ := bind_eq_ok h
    cases h
    rcases blkfree_spec placed.2.2 hfree with ⟨rfl, -⟩ | ⟨marked, -⟩
    · rfl
    · exact absurd marked hrel

/-! ## Every schedule -/

/-- The map agrees and nothing has been handed out twice. -/
def Right (fs : Fs) (s : Cache) : Prop := Agree fs s.cg s.taken ∧ s.twice = false

/-- What holds as long as all is right. -/
structure Held (fs : Fs) (s : Cache) : Prop where
  disk : Sane fs s.disk
  cg : Sane fs s.cg
  cgx : s.disk.cgx = s.cg.cgx
  right : Right fs s

variable {s t : Cache} {e : Event} {es : List Event}

theorem Buf.release_cg {cg : Cg} (hbuf : t.buf = s.buf.release cg rel) (hdisk : t.disk = s.disk)
    (unread : rel = .unread → cg = s.cg) : t.cg = cg := by
  cases rel with
  | unread => rw [unread rfl, Cache.cg, Cache.cg, hbuf, hdisk, Buf.release]
  | brelse => cases h : s.buf <;> simp [Cache.cg, hbuf, h, Buf.release]
  | bdwrite => simp [Cache.cg, hbuf, Buf.release]

/-- A call that has not read the buffer has not changed the group. -/
theorem call_unread (sane : Sane fs g.cg) (placed : Placed fs g c)
    (h : call fs g c = .ok (g', r, rel)) (hrel : rel = .unread) : g' = g := by
  subst hrel
  by_cases hc : ∃ bpref len io, c = .clusteralloc bpref len io
  · obtain ⟨bpref, len, io, rfl⟩ := hc
    obtain ⟨⟨same, -⟩ | hrel, -⟩ := clusteralloc_spec sane.outside h
    · exact same
    · cases hrel
  · exact call_unmarked sane placed h (by decide) fun bpref len io heq => hc ⟨bpref, len, io, heq⟩

/-- What a call does in the cache. -/
theorem happen_call (h : happen fs s (.call c) = some t) :
    ∃ g r rel, call fs s.group c = .ok (g, r, rel) ∧ t.disk = s.disk ∧
      t.buf = s.buf.release g.cg rel ∧ t.taken = takenAfter fs s.taken r rel c ∧
      t.twice = (s.twice || clashes fs s.taken r c) ∧ t.loose = looseAfter s.loose r rel c := by
  unfold happen at h
  dsimp only at h
  split at h
  · cases h
  · next g r rel hcall =>
    cases h
    exact ⟨g, r, rel, hcall, rfl, rfl, rfl, rfl, rfl⟩

theorem happen_evict (h : happen fs s .evict = some t) :
    t = { s with buf := .absent, loose := false } := by
  unfold happen at h
  dsimp only at h
  split at h <;> cases h
  rfl

theorem happen_write (h : happen fs s .write = some t) :
    t = { s with disk := s.cg, buf := .clean s.cg, loose := false } := by
  unfold happen at h
  dsimp only at h
  split at h <;> cases h
  simp [Cache.cg, *]

theorem held_call (held : Held fs s) (placed : Placed fs s.group c)
    (h : happen fs s (.call c) = some t) : Held fs t := by
  obtain ⟨g, r, rel, hcall, hdisk, hbuf, htaken, htwice, -⟩ := happen_call h
  obtain ⟨hcgx, hsane, hagree, hclash⟩ := call_agree held.cg held.right.1 placed hcall
  have hcg : t.cg = g.cg := Buf.release_cg hbuf hdisk fun hrel =>
    congrArg Group.cg (call_unread held.cg placed hcall hrel)
  constructor
  case disk => exact hdisk ▸ held.disk
  case cg => exact hcg ▸ hsane
  case cgx =>
    rw [hdisk, hcg, hcgx]
    exact held.cgx
  case right =>
    refine ⟨?_, ?_⟩
    · rw [hcg, htaken]
      exact hagree
    · rw [htwice, hclash, held.right.2, Bool.or_false]

theorem held_happen (held : Held fs s) (room : Room fs s e) (same : Same fs s e)
    (h : happen fs s e = some t) : Held fs t := by
  cases e with
  | call c => exact held_call held room h
  | evict =>
    obtain rfl := happen_evict h
    refine ⟨held.disk, held.disk, rfl, fun i hi => ?_, held.right.2⟩
    have := held.right.1 i hi
    rw [same i hi, ← held.cgx] at this
    exact this
  | write =>
    obtain rfl := happen_write h
    exact ⟨held.cg, held.cg, rfl, held.right⟩

/-- A buffer is dropped whose map is not that on the disk. -/
theorem wrong_of_evict (held : Held fs s) (differ : ¬ Same fs s e) (h : happen fs s e = some t) :
    ¬ Right fs t := by
  cases e with
  | call c => exact absurd trivial differ
  | write => exact absurd trivial differ
  | evict =>
    obtain rfl := happen_evict h
    rintro ⟨agree, -⟩
    refine differ fun i hi => ?_
    have := agree i hi
    change bit s.disk.blksfree i = !s.taken (s.disk.cgx * fs.fpg + i) at this
    rw [held.right.1 i hi, this, held.cgx]

theorem Buf.release_dirty {buf : Buf} (cg : Cg) (rel : Release) (marked : ∃ cg, buf = .dirty cg) :
    ∃ cg', buf.release cg rel = .dirty cg' := by
  obtain ⟨cg', rfl⟩ := marked
  cases rel with
  | unread => exact ⟨cg', rfl⟩
  | brelse => exact ⟨cg, rfl⟩
  | bdwrite => exact ⟨cg, rfl⟩

/-- The buffer is not marked. -/
def Unmarked (s : Cache) : Prop := ∀ cg, s.buf ≠ .dirty cg

/-- A call after which the buffer is not marked: it was not before, and the call did not mark it. -/
theorem unmarked_before (hbuf : t.buf = s.buf.release g.cg rel) (unmarked : Unmarked t) :
    rel ≠ .bdwrite ∧ Unmarked s := by
  refine ⟨?_, fun cg hdirty => ?_⟩
  · rintro rfl
    exact unmarked _ hbuf
  · obtain ⟨cg', hdirty'⟩ := Buf.release_dirty g.cg rel ⟨cg, hdirty⟩
    exact unmarked cg' (hbuf.trans hdirty')

/-- A call other than `ffs_clusteralloc` that does not mark the buffer leaves the group alone. -/
theorem cg_of_unmarked (held : Held fs s) (placed : Placed fs s.group c)
    (hcall : call fs s.group c = .ok (g, r, rel)) (hdisk : t.disk = s.disk)
    (hbuf : t.buf = s.buf.release g.cg rel) (hrel : rel ≠ .bdwrite)
    (other : ∀ bpref len io, c ≠ .clusteralloc bpref len io) : t.cg = s.cg := by
  have hsame : g = s.group := call_unmarked held.cg placed hcall hrel other
  rw [Buf.release_cg hbuf hdisk fun _ => congrArg Group.cg hsame, hsame]
  rfl

/-- **An unmarked buffer and the disk.**  What is free in the buffer is free on the disk, and there
is a difference if a cluster has been taken. -/
structure Tracks (fs : Fs) (s : Cache) : Prop where
  free : ∀ i < fs.fpg, bit s.cg.blksfree i = true → bit s.disk.blksfree i = true
  loose : s.loose = false ↔ ∀ i < fs.fpg, bit s.cg.blksfree i = bit s.disk.blksfree i

def Tracked (fs : Fs) (s : Cache) : Prop := Unmarked s → Tracks fs s

theorem Tracks.of_eq (hcg : t.cg = t.disk) (hloose : t.loose = false) : Tracks fs t :=
  ⟨fun _ _ => by rw [hcg]; exact id, iff_of_true hloose fun _ _ => by rw [hcg]⟩

/-- A cluster is taken in an unmarked buffer. -/
theorem Tracks.cluster {bpref len : ℕ} {io : Bool} (held : Held fs s) (tracks : Tracks fs s)
    (hcall : call fs s.group (.clusteralloc bpref len io) = .ok (g, r, rel))
    (hcg : t.cg = g.cg) (hdisk : t.disk = s.disk)
    (hloose : t.loose = looseAfter s.loose r rel (.clusteralloc bpref len io)) : Tracks fs t := by
  have same (hmap : t.cg.blksfree = s.cg.blksfree) (hkeep : t.loose = s.loose) : Tracks fs t := by
    constructor
    · rw [hmap, hdisk]
      exact tracks.free
    · rw [hmap, hdisk, hkeep]
      exact tracks.loose
  obtain ⟨-, -, ⟨hsums, rfl⟩ | alloc⟩ := clusteralloc_spec (g := s.group) held.cg.outside hcall
  · refine same ?_ (by simp [hloose, looseAfter])
    rw [hcg]
    exact congrArg Sums.blksfree hsums
  · obtain ⟨bno, hr, took⟩ := alloc.took
    have hbits : ∀ i, bit t.cg.blksfree i =
        (bit s.cg.blksfree i && !decide (bno ≤ i ∧ i < bno + len * fs.frag)) := by
      rw [hcg]
      exact took.bits
    have hfree : ∀ i < fs.fpg, bit t.cg.blksfree i = true → bit t.disk.blksfree i = true := by
      intro i hi hbit
      rw [hbits, Bool.and_eq_true] at hbit
      rw [hdisk]
      exact tracks.free i hi hbit.1
    rcases Nat.eq_zero_or_pos len with rfl | hpos
    · -- no block is taken
      have hall : ∀ i, bit t.cg.blksfree i = bit s.cg.blksfree i := fun i => by
        rw [hbits, decide_eq_false (by omega), Bool.not_false, Bool.and_true]
      refine ⟨hfree, ?_⟩
      simp only [hall, hdisk, hloose, looseAfter, bne_self_eq_false, Bool.and_false, Bool.or_false]
      exact tracks.loose
    · have hn : 0 < len * fs.frag := Nat.mul_pos hpos fs.frag_pos
      -- the first fragment was free in the buffer, so it is free on the disk, and now it is taken
      have htaken : bit s.cg.blksfree bno = true := took.free 0 hn
      have hbno : bno < fs.fpg := lt_of_bit held.cg.outside htaken
      have hne : r ≠ 0 := alloc.ne_zero held.cg.boot hn
      refine ⟨hfree, iff_of_false ?_ fun hall => ?_⟩
      · simp [hloose, looseAfter, hne, hpos.ne']
      · have hdiff := hall bno hbno
        rw [hbits, decide_eq_true ⟨le_rfl, by omega⟩, hdisk, tracks.free bno hbno htaken] at hdiff
        simp at hdiff

/-- **The step lemma**: whether the disk is behind an unmarked buffer is told by `loose`. -/
theorem tracked_happen (held : Held fs s) (tracked : Tracked fs s) (room : Room fs s e)
    (h : happen fs s e = some t) : Tracked fs t := by
  intro unmarked
  cases e with
  | call c =>
    obtain ⟨g, r, rel, hcall, hdisk, hbuf, -, -, hloose⟩ := happen_call h
    obtain ⟨hrel, before⟩ := unmarked_before hbuf unmarked
    have tracks := tracked before
    have placed : Placed fs s.group c := room
    by_cases hc : ∃ bpref len io, c = .clusteralloc bpref len io
    · obtain ⟨bpref, len, io, rfl⟩ := hc
      refine tracks.cluster held hcall ?_ hdisk hloose
      exact Buf.release_cg hbuf hdisk fun hrel =>
        congrArg Group.cg (call_unread held.cg placed hcall hrel)
    · have other : ∀ bpref len io, c ≠ .clusteralloc bpref len io :=
        fun bpref len io heq => hc ⟨bpref, len, io, heq⟩
      have hcg := cg_of_unmarked held placed hcall hdisk hbuf hrel other
      have hkeep : t.loose = s.loose := by
        rw [hloose]
        cases c with
        | clusteralloc bpref len io => exact absurd rfl (other bpref len io)
        | _ => exact (congrArg _ (decide_eq_true hrel)).trans (Bool.and_true _)
      refine ⟨?_, ?_⟩
      · rw [hcg, hdisk]
        exact tracks.free
      · rw [hcg, hdisk, hkeep]
        exact tracks.loose
  | evict =>
    obtain rfl := happen_evict h
    exact .of_eq rfl rfl
  | write =>
    obtain rfl := happen_write h
    exact .of_eq rfl rfl

/-- A buffer that can be dropped is not marked. -/
theorem unmarked_of_evict (h : happen fs s .evict = some t) : Unmarked s := by
  intro cg hdirty
  rw [happen, hdirty] at h
  cases h

theorem same_iff_kept (tracked : Tracked fs s) (h : happen fs s e = some t) :
    Same fs s e ↔ Kept s e := by
  cases e with
  | call c => exact Iff.rfl
  | write => exact Iff.rfl
  | evict => exact (tracked (unmarked_of_evict h)).loose.symm

/-- A group that is not marked has the map that is on the disk. -/
def Written (fs : Fs) (s : Cache) : Prop :=
  (∀ cg, s.buf ≠ .dirty cg) → ∀ i < fs.fpg, bit s.cg.blksfree i = bit s.disk.blksfree i

/-- **No fragment is handed out twice**, and the map agrees with what is handed out, in every
state on the way, exactly if no buffer is dropped in which `ffs_clusteralloc` has taken a cluster
since it was read or written, unless it was marked in between. -/
theorem agree_iff_kept {s₀ : Cache} (start : Held fs s₀) (written : Written fs s₀)
    (fresh : s₀.loose = false) (room : Along (happen fs) (Room fs) s₀ es)
    (h : run (happen fs) s₀ es = some s) :
    Along (happen fs) Kept s₀ es ↔
      ∀ ds t, ds <+: es → run (happen fs) s₀ ds = some t →
        Agree fs t.cg t.taken ∧ t.twice = false := by
  have tracked : Tracked fs s₀ := fun unmarked =>
    ⟨fun i hi hbit => (written unmarked i hi).symm.trans hbit, iff_of_true fresh (written unmarked)⟩
  refine along_iff_reached (I := fun s => Held fs s ∧ Tracked fs s)
    (fun _ _ _ _ _ => trivial) (fun s e t hs hroom kept hrun _ => ?_)
    (fun s e t hs _ lost hrun _ => ?_) ⟨⟨start, tracked⟩, start.right⟩ room h trivial
  · have held := held_happen hs.1 hroom ((same_iff_kept hs.2 hrun).mpr kept) hrun
    exact ⟨⟨held, tracked_happen hs.1 hs.2 hroom hrun⟩, held.right⟩
  · exact wrong_of_evict hs.1 (mt (same_iff_kept hs.2 hrun).mp lost) hrun

/-- Only a cluster is taken without a mark. -/
theorem written_happen (held : Held fs s) (written : Written fs s) (room : Room fs s e)
    (other : ∀ bpref len io, e ≠ .call (.clusteralloc bpref len io))
    (h : happen fs s e = some t) : Written fs t := by
  intro unmarked
  cases e with
  | call c =>
    obtain ⟨g, r, rel, hcall, hdisk, hbuf, -⟩ := happen_call h
    obtain ⟨hrel, before⟩ := unmarked_before hbuf unmarked
    rw [cg_of_unmarked held room hcall hdisk hbuf hrel
      fun bpref len io hc => other bpref len io (hc ▸ rfl), hdisk]
    exact written before
  | evict =>
    obtain rfl := happen_evict h
    exact fun _ _ => rfl
  | write =>
    obtain rfl := happen_write h
    exact fun _ _ => rfl

/-- **Without clusters** the map agrees, and no fragment is handed out twice. -/
theorem agree_of_no_cluster (held : Held fs s) (written : Written fs s)
    (room : Along (happen fs) (Room fs) s es)
    (other : ∀ bpref len io, .call (.clusteralloc bpref len io) ∉ es)
    (h : run (happen fs) s es = some t) : Agree fs t.cg t.taken ∧ t.twice = false := by
  induction es generalizing s with
  | nil =>
    cases h
    exact held.right
  | cons e es ih =>
    obtain ⟨u, hu, hrest⟩ := run_cons.mp h
    rw [along_cons hu] at room
    have hother : ∀ bpref len io, e ≠ .call (.clusteralloc bpref len io) :=
      fun bpref len io heq => other bpref len io (heq ▸ List.mem_cons_self ..)
    have same : Same fs s e := by
      cases e with
      | call c => trivial
      | write => trivial
      | evict => exact written (unmarked_of_evict hu)
    exact ih (held_happen held room.1 same hu) (written_happen held written room.1 hother hu) room.2
      (fun bpref len io hmem => other bpref len io (List.mem_cons_of_mem _ hmem)) hrest

/-! ### A block is handed out twice -/

/-- A file system that keeps track of clusters. -/
def clustered : Fs := { small with contigsumsize := 2 }

/-- A group in which one block is free. -/
def block : Cg where
  cgx := 1
  magic := true
  cs := ⟨1, 0⟩
  rotor := 0
  frotor := 0
  frsum _ := 0
  blktot c := if c = 0 then 1 else 0
  blks c p := if c = 0 ∧ p = 0 then 1 else 0
  blksfree i := if i = 0 then 0xf0#8 else 0#8
  clustersfree i := if i = 0 then 0x02#8 else 0#8
  clustersum i := if i = 1 then 1 else 0
  nclusterblks := 2

/-- The group is in no buffer. -/
def unread : Cache where
  disk := block
  buf := .absent
  cs := ⟨1, 0⟩
  cstotal := ⟨1, 0⟩
  maxcluster := 1
  taken d := !(decide (12 ≤ d ∧ d < 16))
  twice := false
  loose := false

theorem held_unread : Held clustered unread := by
  have hsane : Sane clustered block := ⟨bit_behind 0xf0, by decide⟩
  refine ⟨hsane, hsane, rfl, ?_, rfl⟩
  decide

/-- A cluster is taken, its first fragment is freed, which marks the buffer, and the buffer is
written before it is dropped; the fragment is then handed out again. -/
theorem agree_iff_kept_marked : ∃ s, run (happen clustered) unread
    [.call (.clusteralloc 0 1 true), .call (.blkfree 12 1 true), .write, .evict,
      .call (.alloccg 0 1 true)] = some s ∧
      (bit s.cg.blksfree 4 = false ∧ bit s.cg.blksfree 5 = false) ∧
      Agree clustered s.cg s.taken ∧ s.twice = false :=
  have room : Along (happen clustered) (Room clustered) unread
      [.call (.clusteralloc 0 1 true), .call (.blkfree 12 1 true), .write, .evict,
        .call (.alloccg 0 1 true)] := by decide
  ⟨_, rfl, by decide, (agree_iff_kept held_unread (fun _ _ _ => rfl) rfl room rfl).mp (by decide)
    _ _ List.prefix_rfl rfl⟩

theorem agree_of_no_cluster_written : ∃ s, run (happen clustered) unread
    [.call (.alloccg 0 1 true), .write, .evict] = some s ∧ Agree clustered s.cg s.taken :=
  have room : Along (happen clustered) (Room clustered) unread
      [.call (.alloccg 0 1 true), .write, .evict] := by decide
  ⟨_, rfl, (agree_of_no_cluster held_unread (fun _ _ _ => rfl) room (by simp) rfl).1⟩

/-- **A block is handed out twice**: to `ffs_clusteralloc`, and after the buffer has been
dropped to `ffs_alloccg`. -/
theorem handed_out_twice : Held clustered unread ∧ ∃ s, run (happen clustered) unread
    [.call (.clusteralloc 0 1 true), .evict, .call (.alloccg 0 1 true)] = some s ∧
      s.twice = true :=
  ⟨held_unread, _, rfl, rfl⟩

end BSDLite2.Ffs
