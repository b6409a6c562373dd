import BSDLite2.Ufs.LockfSet

/-!
# Byte-range locks as maps

A list of locks gives each owner a partial map from bytes to lock types (`lockAt`).
`lf_setlock` and `lf_clearlock` are to change the map of the owner of the request, on the
bytes of the request.  `MapsTo` says so without a word about records; that the list stays sorted
and disjoint is part of it, as the next request relies on that.

* `lfGetblock_spec` — a request is blocked exactly by the locks of others that overlap it,
  if one of the two is for writing;
* `MapsTo` — what a change is to be;
* `setlock_clearlock_iff` — it is that, unless a record that does not end is to be cut
  behind the last byte.
-/

namespace BSDLite2.Ufs

open Ranges List

variable {P F : Type}

/-! ## Who is in the way -/

/-- The record of another owner overlaps the request, and one of them is for writing. -/
structure Blocks (lf lock : Lockf P F) : Prop where
  other : lf.id ≠ lock.id
  overlap : ¬ Before lf lock ∧ ¬ Before lock lf
  writes : lock.type = .wrlck ∨ lf.type = .wrlck

/-- A record is found at its address. -/
theorem distinct_of_nodup {pre rest : List (Lockf P F)} {overlap : Lockf P F}
    (nodup : ((pre ++ overlap :: rest).map Lockf.addr).Nodup) :
    ∀ lf ∈ pre, lf.addr ≠ overlap.addr := by
  rw [map_append, nodup_append] at nodup
  exact fun lf hlf => nodup.2.2 _ (mem_map_of_mem hlf) _ mem_cons_self

variable [DecidableEq P] [DecidableEq F] {lock : Lockf P F}

/-- What `lf_findoverlap` finds among the records of others: the first that overlaps. -/
theorem lfFindoverlap_others (lock : Lockf P F) (pre post : List (Lockf P F)) :
    ∃ c skipped rest, lfFindoverlap .others lock pre post = some (c, pre ++ skipped, rest) ∧
      post = skipped ++ rest ∧ (∀ lf ∈ skipped, ¬ Blocks lf lock) ∧
      (c = .none ∧ rest = [] ∨
        ∃ overlap rest', rest = overlap :: rest' ∧ overlap.id ≠ lock.id ∧ c ≠ .none ∧
          c.Holds overlap lock) := by
  induction post generalizing pre with
  | nil => exact ⟨.none, [], [], by simp [lfFindoverlap], rfl, by simp, .inl ⟨rfl, rfl⟩⟩
  | cons lf post ih =>
    obtain ⟨c, hc, holds⟩ := ovcase_holds lf lock
    by_cases stops : lf.id ≠ lock.id ∧ c ≠ .none
    · refine ⟨c, [], lf :: post, ?_, rfl, by simp, .inr ⟨lf, post, rfl, stops.1, stops.2, holds⟩⟩
      cases c <;> first | exact absurd rfl stops.2 | simp [lfFindoverlap, Who.skips, stops.1, hc]
    · obtain ⟨c', skipped, rest, hrun, hpost, hskipped, hcase⟩ := ih (pre ++ [lf])
      refine ⟨c', lf :: skipped, rest, ?_, by rw [hpost]; rfl, ?_, hcase⟩
      · by_cases mine : lf.id = lock.id
        · simp [lfFindoverlap, Who.skips, mine, hrun]
        · obtain rfl : c = .none := by_contra fun some => stops ⟨mine, some⟩
          simp [lfFindoverlap, Who.skips, mine, hc, hrun]
      · refine forall_mem_cons.mpr ⟨fun blocks => stops ⟨blocks.other, ?_⟩, hskipped⟩
        rintro rfl
        exact holds.elim blocks.overlap.1 blocks.overlap.2

theorem getblockLoop_spec (hlock : lock.Ok) {fuel : ℕ} {list : List (Lockf P F)}
    (enough : list.length < fuel) (ok : ∀ lf ∈ list, lf.Ok) :
    (getblockLoop lock fuel list = some none ∧ ∀ lf ∈ list, ¬ Blocks lf lock) ∨
      ∃ block ∈ list, getblockLoop lock fuel list = some (some block) ∧ Blocks block lock := by
  induction fuel generalizing list with
  | zero => omega
  | succ fuel ih =>
    obtain ⟨c, skipped, rest, hrun, rfl, hskipped, hcase⟩ := lfFindoverlap_others lock [] list
    rcases hcase with ⟨rfl, rfl⟩ | ⟨overlap, rest, rfl, other, overlaps, holds⟩
    · left
      rw [append_nil]
      rw [append_nil] at hrun
      exact ⟨by rw [getblockLoop, hrun], hskipped⟩
    · have hmem : overlap ∈ skipped ++ overlap :: rest := by simp
      have meets := holds.meets overlaps (ok overlap hmem) hlock
      have hstep : getblockLoop lock (fuel + 1) (skipped ++ overlap :: rest) =
          if lock.type = .wrlck ∨ overlap.type = .wrlck then some (some overlap)
          else getblockLoop lock fuel rest := by
        rw [getblockLoop, hrun]
        cases c <;> first | exact absurd rfl overlaps | rfl
      by_cases writes : lock.type = .wrlck ∨ overlap.type = .wrlck
      · exact .inr ⟨overlap, hmem, by rw [hstep, if_pos writes], other, meets, writes⟩
      · rw [hstep, if_neg writes]
        have shorter : rest.length < fuel := by
          simp only [length_append, length_cons] at enough
          omega
        have okRest : ∀ lf ∈ rest, lf.Ok := fun lf hlf => ok lf (by simp [hlf])
        rcases ih shorter okRest with ⟨hrest, free⟩ | ⟨block, hblock, hrest, blocks⟩
        · refine .inl ⟨hrest, forall_mem_append.mpr ⟨hskipped, ?_⟩⟩
          exact forall_mem_cons.mpr ⟨fun blocks => writes blocks.writes, free⟩
        · exact .inr ⟨block, by simp [hblock], hrest, blocks⟩

/-- **`lf_getblock` finds a record in the way**, if there is one. -/
theorem lfGetblock_spec (hlock : lock.Ok) {list : List (Lockf P F)} (ok : ∀ lf ∈ list, lf.Ok) :
    (lfGetblock lock list = some none ∧ ∀ lf ∈ list, ¬ Blocks lf lock) ∨
      ∃ block ∈ list, lfGetblock lock list = some (some block) ∧ Blocks block lock :=
  getblockLoop_spec hlock (Nat.lt_succ_self _) ok

/-! ## What a change is to be -/

/-- The bytes of the request get the value `v` for its owner, and nothing else changes; the
records of each owner stay sorted and disjoint. -/
structure MapsTo (lock : Lockf P F) (v : Option LockType) (list list' : List (Lockf P F)) :
    Prop where
  map : ∀ o x, IsOff x →
    lockAt o x list' = if o = lock.id ∧ lock.Covers x then v else lockAt o x list
  sorted : ∀ o, Sorted o list'

section

variable {v : Option LockType} {new : List ℕ} {list list' : List (Lockf P F)}

theorem own_others {o o' : Owner P F} (other : o ≠ o') (l : List (Lockf P F)) :
    (recordsOf o).own ((recordsOf o').others l) = (recordsOf o).own l := by
  rw [own, others, filter_filter]
  refine filter_congr fun lf _ => ?_
  by_cases mine : lf.id = o <;> simp [recordsOf, mine, other]

/-- The records of other owners are what they were. -/
theorem own_eq_of_change (change : Change (bytesOf lock.id lock.start lock.stop) v new list list')
    {o : Owner P F} (other : o ≠ lock.id) : (recordsOf o).own list' = (recordsOf o).own list := by
  rw [← own_others other, change.others_eq, own_others other]

theorem mapsTo_of_change (lawful : Lawful list)
    (change : Change (bytesOf lock.id lock.start lock.stop) v new list list') :
    MapsTo lock v list list' := by
  refine ⟨fun o x _ => ?_, fun o => ?_⟩
  · by_cases mine : o = lock.id
    · subst mine
      simp only [true_and]
      exact change.look_eq x
    · rw [if_neg fun h => mine h.1, lockAt, lockAt, ← look_own_eq, own_eq_of_change change mine,
        look_own_eq]
  · by_cases mine : o = lock.id
    · subst mine
      exact (sorted_iff change.all_good).mpr change.sorted
    · rw [Sorted, own_eq_of_change change mine]
      exact lawful.sorted o

/-- A record that starts before all bytes is in the way of what the change is to be. -/
theorem not_mapsTo_of_wrapped {ms : List (Lockf P F)} {lf : Lockf P F} (hlock : lock.Ok)
    (middle : IsMiddle lock v ms) (hms : ∀ m ∈ ms, m ∈ (recordsOf lock.id).own list')
    (hlf : lf ∈ (recordsOf lock.id).own list') (wrapped : IsWrapped lf) :
    ¬ MapsTo lock v list list' := by
  rintro ⟨map, sorted⟩
  obtain ⟨nonneg, small, range⟩ := hlock
  obtain ⟨start, stop⟩ := wrapped
  have first : lock.Covers lock.start := by
    unfold Lockf.Covers InRange
    omega
  have covers : lf.Covers lock.start := by
    unfold Lockf.Covers InRange
    omega
  rcases middle with ⟨rfl, -⟩ | ⟨rfl, m, rfl, mine, start', stop', -⟩
  · have free := map lock.id lock.start ⟨nonneg, small⟩
    rw [if_pos ⟨rfl, first⟩] at free
    exact look_isSome hlf covers free
  · -- the request is in the list, with the same first byte
    have disjoint : ((recordsOf lock.id).own list').Pairwise fun a b =>
        ∀ x, IsOff x → ¬ (a.Covers x ∧ b.Covers x) := (sorted lock.id).imp And.right
    have symm : Std.Symm fun a b : Lockf P F => ∀ x, IsOff x → ¬ (a.Covers x ∧ b.Covers x) :=
      ⟨fun a b h x hx hab => h x hx hab.symm⟩
    have differ : m ≠ lf := by
      rintro rfl
      omega
    refine disjoint.forall (hms m mem_cons_self) hlf differ lock.start ⟨nonneg, small⟩
      ⟨?_, covers⟩
    rw [Lockf.Covers, start', stop']
    exact first

/-- The list is lawful after the change. -/
theorem lawful_of_change (lawful : Lawful list)
    (change : Change (bytesOf lock.id lock.start lock.stop) v new list list')
    (nodup : (new ++ list.map Lockf.addr).Nodup) : Lawful list' := by
  refine ⟨?_, fun lf hlf => ?_, (mapsTo_of_change lawful change).sorted⟩
  · obtain ⟨k, perm, sub⟩ := change.names
    exact perm.nodup_iff.mp (nodup.sublist sub)
  · by_cases mine : lf.id = lock.id
    · exact change.all_good lf (mem_own _ |>.mpr ⟨hlf, mine⟩)
    · have hmem : lf ∈ (recordsOf lock.id).others list' := mem_others _ |>.mpr ⟨hlf, mine⟩
      rw [change.others_eq] at hmem
      exact lawful.ok lf (mem_others _ |>.mp hmem).1

theorem Assigns.change (assigns : Assigns lock v new list list') (room : ¬ Overflows lock v list) :
    Change (bytesOf lock.id lock.start lock.stop) v new list list' :=
  assigns.elim And.right fun h => absurd h.1 room

theorem Assigns.mapsTo_iff (assigns : Assigns lock v new list list') (lawful : Lawful list)
    (hlock : lock.Ok) : MapsTo lock v list list' ↔ ¬ Overflows lock v list := by
  rcases assigns with ⟨not, change⟩ | ⟨does, ms, middle, hms, lf, hlf, wrapped⟩
  · exact iff_of_true (mapsTo_of_change lawful change) not
  · exact iff_of_false (not_mapsTo_of_wrapped hlock middle hms hlf wrapped) (not_not.mpr does)

theorem Alike.mapsTo_iff {l : List (Lockf P F)} (alike : Alike l list) :
    MapsTo lock v list list' ↔ MapsTo lock v l list' := by
  have h : ∀ o x, Ufs.lockAt o x list = Ufs.lockAt o x l := alike.lockAt
  constructor <;> rintro ⟨map, sorted⟩ <;> refine ⟨fun o x hx => ?_, sorted⟩
  · rw [map o x hx, h]
  · rw [map o x hx, h]

theorem Alike.overflows_iff {l : List (Lockf P F)}
    (alike : Alike ((recordsOf lock.id).own l) ((recordsOf lock.id).own list)) :
    Overflows lock v list ↔ Overflows lock v l :=
  and_congr_right fun _ =>
    ⟨alike.symm.exists_mem fun _ => Iff.rfl, alike.exists_mem fun _ => Iff.rfl⟩

end

/-! ## The two operations -/

section

variable {list : List (Lockf P F)}

/-- The operation is made when the allocation returns at once. -/
theorem allocate_spec (op : Op) (fresh : ℕ) (lawful : Lawful list) (hlock : lock.Ok)
    {pre rest : List (Lockf P F)} {overlap : Lockf P F} (woken : List P)
    (heq : list = pre ++ overlap :: rest)
    (inside : Inside lock overlap) (differ : some overlap.type ≠ op.value lock) :
    ∃ list' woken', (Outcome.splits list woken overlap.addr).allocate op lock fresh =
        .done list' woken' ∧
      Assigns lock (op.value lock) (op.adds lock fresh) list list' := by
  subst heq
  obtain ⟨list', woken', hrun, assigns⟩ := splitResume_spec fresh hlock
    (lawful.tidy lock) (distinct_of_nodup lawful.nodup) inside differ
  exact ⟨list', woken ++ woken', by rw [Outcome.allocate, hrun], assigns⟩

theorem lfSetlock_maps (lawful : Lawful list) (hlock : lock.Ok) (fresh : ℕ) :
    (∃ block ∈ list, lfSetlock lock list = .blocked block ∧ Blocks block lock) ∨
      (∀ lf ∈ list, ¬ Blocks lf lock) ∧
        ∃ list' woken, (lfSetlock lock list).allocate .set lock fresh = .done list' woken ∧
          (MapsTo lock (some lock.type) list list' ↔ ¬ Overflows lock (some lock.type) list) := by
  rcases lfGetblock_spec hlock lawful.ok with ⟨hget, free⟩ | ⟨block, hblock, hget, blocks⟩
  · right
    have heq : lfSetlock lock list = setLoop lock list := by rw [lfSetlock, hget]
    refine ⟨free, ?_⟩
    rcases setLoop_spec hlock (lawful.tidy lock) with
      ⟨list', woken, hrun, assigns⟩ | ⟨pre, overlap, rest, hlist, hrun, inside, differ⟩
    · exact ⟨list', woken, by rw [heq, hrun]; rfl, assigns.mapsTo_iff lawful hlock⟩
    · obtain ⟨list', woken, hrun', assigns⟩ := allocate_spec .set fresh lawful
        hlock [] hlist inside (mt Option.some.inj differ)
      exact ⟨list', woken, by rw [heq, hrun, hrun'], assigns.mapsTo_iff lawful hlock⟩
  · exact .inl ⟨block, hblock, by rw [lfSetlock, hget], blocks⟩

theorem lfClearlock_maps (lawful : Lawful list) (hlock : lock.Ok) (fresh : ℕ) :
    ∃ list' woken, (lfClearlock lock list).allocate .clear lock fresh = .done list' woken ∧
      (MapsTo lock none list list' ↔ ¬ Overflows lock none list) := by
  rcases lfClearlock_spec hlock (lawful.tidy lock) with
    ⟨list', woken, hrun, assigns⟩ | ⟨pre, overlap, rest, rfl, hrun, inside⟩
  · exact ⟨list', woken, by rw [hrun]; rfl, assigns.mapsTo_iff lawful hlock⟩
  · -- the waiters of the record were woken before the allocation
    have alike := alike_replace pre overlap [] rest
    have lawful' := alike.lawful lawful
    have inside' : Inside lock overlap.woken :=
      ⟨inside.mine, inside.start_lt, inside.finite, inside.ends⟩
    obtain ⟨list', woken, hrun', assigns⟩ := allocate_spec .clear fresh lawful'
      hlock overlap.blkhd rfl inside' nofun
    refine ⟨list', woken, by rw [hrun]; exact hrun', ?_⟩
    rw [← alike.mapsTo_iff, ← (alike.own lock.id).overflows_iff]
    exact assigns.mapsTo_iff lawful' hlock

/-- **`lf_setlock` and `lf_clearlock` do what they are for**, except where a record that
does not end is to be cut behind the last byte of all files.  They never panic, and a lock is
refused only if a record is in the way. -/
theorem setlock_clearlock_iff (lawful : Lawful list) (hlock : lock.Ok) (fresh : ℕ) :
    ((∃ block ∈ list, lfSetlock lock list = .blocked block ∧ Blocks block lock) ∨
      (∀ lf ∈ list, ¬ Blocks lf lock) ∧
        ∃ list' woken, (lfSetlock lock list).allocate .set lock fresh = .done list' woken ∧
          (MapsTo lock (some lock.type) list list' ↔ ¬ Overflows lock (some lock.type) list)) ∧
    ∃ list' woken, (lfClearlock lock list).allocate .clear lock fresh = .done list' woken ∧
      (MapsTo lock none list list' ↔ ¬ Overflows lock none list) :=
  ⟨lfSetlock_maps lawful hlock fresh, lfClearlock_maps lawful hlock fresh⟩

end

/-- A record of a process. -/
def record (addr : ℕ) (type : LockType) (start stop : ℤ) (p : ℕ) : Lockf ℕ ℕ where
  addr := addr
  posix := true
  flock := false
  wait := false
  type := type
  start := start
  stop := stop
  id := .proc p

theorem lawful_single (lf : Lockf P F) (hlf : lf.Ok) : Lawful [lf] where
  nodup := nodup_singleton _
  ok := by simpa using hlf
  sorted _ := (pairwise_singleton _ lf).filter _

theorem setlock_clearlock_iff_inside :
    ∃ list' woken,
      (lfClearlock (record 1 .wrlck 3 5 0) [record 0 .rdlck 0 (-1) 0]).allocate .clear
          (record 1 .wrlck 3 5 0) 2 = .done list' woken ∧
        MapsTo (record 1 .wrlck 3 5 0) none [record 0 .rdlck 0 (-1) 0] list' := by
  obtain ⟨list', woken, hrun, maps⟩ :=
    (@setlock_clearlock_iff _ _ _ _ (record 1 .wrlck 3 5 0) _
      (lawful_single (record 0 .rdlck 0 (-1) 0) ⟨by decide, by decide, by decide⟩)
      ⟨by decide, by decide, by decide⟩ 2).2
  exact ⟨list', woken, hrun, maps.mpr fun h => absurd h.1 (by decide)⟩

/-- **The record that does not end**: process 0 has locked the whole file for reading.  If it
clears all bytes from 1 on, byte 1 stays locked; if it locks them for writing, it has two
locks on byte 1. -/
theorem record_wraps :
    (∃ list' woken,
      (lfClearlock (record 1 .wrlck 1 (2 ^ 63 - 1) 0) [record 0 .rdlck 0 (-1) 0]).allocate .clear
          (record 1 .wrlck 1 (2 ^ 63 - 1) 0) 2 = .done list' woken ∧
        lockAt (.proc 0) 1 list' = some .rdlck) ∧
    ∃ list' woken,
      (lfSetlock (record 1 .wrlck 1 (2 ^ 63 - 1) 0) [record 0 .rdlck 0 (-1) 0]).allocate .set
          (record 1 .wrlck 1 (2 ^ 63 - 1) 0) 2 = .done list' woken ∧
        ¬ Sorted (.proc 0) list' := by
  refine ⟨⟨[record 0 .rdlck 0 0 0, record 2 .rdlck (-2 ^ 63) (-1) 0], [], by decide, by decide⟩,
    [record 0 .rdlck 0 0 0, record 1 .wrlck 1 (2 ^ 63 - 1) 0, record 2 .rdlck (-2 ^ 63) (-1) 0], [],
    by decide, fun sorted => ?_⟩
  have apart := (pairwise_cons.mp (pairwise_cons.mp sorted).2).1 _ mem_cons_self
  exact apart.2 1 ⟨by decide, by decide⟩ ⟨by decide, by decide⟩

end BSDLite2.Ufs
