import BSDLite2.Ufs.LockfMap

/-!
# Setting and clearing byte-range locks

The bytes of a request get a type, or become free (`Assigns`).  A record in the way gives
way, or is cut; the only cut that goes wrong is that of a record without an end behind a
request that ends with the last byte of all files (`Overflows`), where `lf_end + 1` is not a
byte any more.

* `assigns_endsInside`, `assigns_endsBehind` — the two ways of a record in the range;
* `setLoop_spec`, `lfClearlock_spec` — `lf_setlock` and `lf_clearlock` up to the allocation;
* `splitResume_spec` — what follows it.
-/

namespace BSDLite2.Ufs

open Ranges List

variable {P F : Type} {lock overlap : Lockf P F} {l l' : List (Lockf P F)}

/-! ## `lf_split` -/

/-- What a request leaves of a record that it is put into, and that ends behind it. -/
structure Inside (lock overlap : Lockf P F) : Prop where
  mine : overlap.id = lock.id
  start_lt : overlap.start < lock.start
  finite : lock.stop ≠ -1
  ends : overlap.stop = -1 ∨ lock.stop < overlap.stop

theorem Inside.meets (inside : Inside lock overlap) (hlock : lock.Ok) :
    ¬ Before overlap lock ∧ ¬ Before lock overlap := by
  obtain ⟨-, start, finite, ends⟩ := inside
  have := hlock.range
  unfold Before
  omega

section

variable (lock1 : Lockf P F) {lock2 : Lockf P F} (start : lock1.start ≠ lock2.start)

include lock1 start

theorem lfSplit_back (stop : lock1.stop = lock2.stop) :
    lfSplit lock1 lock2 = .back { lock1 with stop := off (lock2.start - 1) } := by
  rw [lfSplit, if_neg start, if_pos stop]

theorem lfSplit_middle (stop : lock1.stop ≠ lock2.stop) : lfSplit lock1 lock2 = .middle := by
  rw [lfSplit, if_neg start, if_neg stop]

end

theorem isMiddle_some (m : Lockf P F) (spans : Spans lock.id lock.start lock.stop lock.type m) :
    IsMiddle lock (some lock.type) [m] :=
  .inr ⟨rfl, m, rfl, spans⟩

theorem splitResume_append (op : Op) (lock2 : Lockf P F) (lock1 fresh : ℕ) {pre : List (Lockf P F)}
    (distinct : ∀ lf ∈ pre, lf.addr ≠ lock1) (list : List (Lockf P F)) :
    splitResume op lock2 lock1 fresh (pre ++ list) =
      (splitResume op lock2 lock1 fresh list).map fun r => (pre ++ r.1, r.2) := by
  induction pre with
  | nil => simp
  | cons lf pre ih =>
    rw [forall_mem_cons] at distinct
    rw [cons_append, splitResume, if_neg distinct.1, ih distinct.2, Option.map_map]
    rfl

variable [DecidableEq P] [DecidableEq F]

/-! ## The bytes of a request get a type, or become free -/

/-- This goes wrong: see `Wraps`.  A record that contains the request and is of the type `v`
is left alone. -/
def Overflows (lock : Lockf P F) (v : Option LockType) (list : List (Lockf P F)) : Prop :=
  lock.stop = 2 ^ 63 - 1 ∧ ∃ lf ∈ (recordsOf lock.id).own list,
    lf.stop = -1 ∧ (lock.start < lf.start ∨ some lf.type ≠ v)

instance (lock : Lockf P F) (v : Option LockType) (list : List (Lockf P F)) :
    Decidable (Overflows lock v list) :=
  inferInstanceAs (Decidable (_ ∧ ∃ lf ∈ (recordsOf lock.id).own list, _ ∧ (_ ∨ _)))

/-- The bytes of `lock` get the type `v`, or else the owner has a record that starts before
all bytes. -/
def Assigns (lock : Lockf P F) (v : Option LockType) (new : List ℕ) (l l' : List (Lockf P F)) :
    Prop :=
  (¬ Overflows lock v l ∧ Change (bytesOf lock.id lock.start lock.stop) v new l l') ∨
    Overflows lock v l ∧ ∃ ms, IsMiddle lock v ms ∧ (∀ m ∈ ms, m ∈ (recordsOf lock.id).own l') ∧
      ∃ lf ∈ (recordsOf lock.id).own l', IsWrapped lf

variable {v : Option LockType} {new : List ℕ}

/-- Records that the request does not touch come first. -/
theorem Assigns.skip {skipped : List (Lockf P F)} (assigns : Assigns lock v new l l')
    (tidy : Tidy lock (skipped ++ l))
    (left : ∀ lf ∈ (recordsOf lock.id).own skipped, Before lf lock) :
    Assigns lock v new (skipped ++ l) (skipped ++ l') := by
  have wraps : Overflows lock v (skipped ++ l) ↔ Overflows lock v l := by
    unfold Overflows
    simp only [own_append, mem_append, or_and_right, exists_or]
    refine and_congr_right fun _ => or_iff_right ?_
    rintro ⟨lf, hlf, infinite, -⟩
    exact (left lf hlf).1 infinite
  rcases assigns with ⟨not, change⟩ | ⟨does, ms, middle, hms, lf, hlf, wrapped⟩
  · refine .inl ⟨mt wraps.mp not, change.append_left tidy.sorted (fun lf hlf => ?_) left⟩
    exact tidy.ok lf (mem_append_left _ ((recordsOf lock.id).mem_own.mp hlf).1)
  · simp only [Assigns, own_append]
    exact .inr ⟨wraps.mpr does, ms, middle, fun m hm => mem_append_right _ (hms m hm), lf,
      mem_append_right _ hlf, wrapped⟩

section

variable (fs ms : List (Lockf P F))

/-- A record that ends in the range gives way. -/
theorem assigns_endsInside (met : Met lock overlap l)
    (ends : lock.stop = -1 ∨ overlap.stop ≠ -1 ∧ overlap.stop ≤ lock.stop)
    (front : IsFront overlap lock fs) (middle : IsMiddle lock v ms) (clears : Clears lock l l')
    (names : ((fs ++ ms).map Lockf.addr).Subperm (new ++ [overlap.addr])) :
    Assigns lock v new (overlap :: l) (fs ++ (ms ++ l')) := by
  have wraps : Overflows lock v (overlap :: l) ↔ Wraps lock l := by
    unfold Overflows Wraps
    rw [own_cons_of_mine met.mine]
    simp only [mem_cons, exists_eq_or_imp]
    refine and_congr_right fun max => ?_
    rw [or_iff_right fun h => by omega]
    exact exists_congr fun lf => and_congr_right fun hlf =>
      and_iff_left_of_imp fun _ => .inl (met.beyond.behind lf hlf)
  rcases clears with ⟨not, change, behind⟩ | ⟨does, lf, hlf, wrapped⟩
  · refine .inl ⟨mt wraps.mp not, ?_⟩
    have := change_cut met front middle (.inl ⟨ends, rfl⟩)
      change behind (fun h => absurd rfl h) new (by simpa using names)
    simpa using this
  · refine .inr ⟨wraps.mpr does, ms, middle, fun m hm => ?_, lf, ?_, wrapped⟩
    · exact mem_own _ |>.mpr ⟨by simp [hm], (middle.mem hm).mine⟩
    · simp only [own_append]
      exact mem_append_right _ (mem_append_right _ hlf)

/-- A record that ends behind the range is cut. -/
theorem assigns_endsBehind {b : Lockf P F} (met : Met lock overlap l)
    (finite : lock.stop ≠ -1) (ends : overlap.stop = -1 ∨ lock.stop < overlap.stop)
    (differ : lock.start < overlap.start ∨ some overlap.type ≠ v)
    (front : IsFront overlap lock fs) (middle : IsMiddle lock v ms)
    (back : Spans lock.id (off (lock.stop + 1)) overlap.stop overlap.type b)
    (names : ((fs ++ (ms ++ [b])).map Lockf.addr).Subperm (new ++ [overlap.addr])) :
    Assigns lock v new (overlap :: l) (fs ++ (ms ++ b :: l)) := by
  have lockNonneg := met.lock_ok.nonneg
  have lockRange := met.lock_ok.range
  have overRange := met.tidy.head.range
  have behind := met.behind (by omega)
  by_cases wraps : lock.stop = 2 ^ 63 - 1 ∧ overlap.stop = -1
  · refine .inr ⟨⟨wraps.1, overlap, ?_, wraps.2, differ⟩, ms, middle, fun m hm => ?_, b, ?_, ?_, ?_⟩
    · exact mem_own _ |>.mpr ⟨mem_cons_self, met.mine⟩
    · exact mem_own _ |>.mpr ⟨by simp [hm], (middle.mem hm).mine⟩
    · exact mem_own _ |>.mpr ⟨by simp, back.mine⟩
    · rw [back.start_eq, wraps.1, off_max]
    · rw [back.stop_eq, wraps.2]
  · have room : lock.stop < 2 ^ 63 - 1 := by omega
    rw [off_eq (by omega) (by omega)] at back
    refine .inl ⟨?_, ?_⟩
    · rintro ⟨max, -⟩
      omega
    · have := change_cut met front middle (.inr ⟨⟨finite, room, ends⟩, b, rfl, back⟩)
        (change_of_behind met.tidy.tail behind []) behind (fun _ => met.first) new names
      simpa using this

end

/-! ## Setting a lock -/

/-- Nothing overlaps the request. -/
theorem assigns_none (hlock : lock.Ok) (tidy : Tidy lock l)
    (behind : ∀ lf ∈ (recordsOf lock.id).own l, Before lock lf) :
    Assigns lock (some lock.type) [lock.addr] l (lock :: l) := by
  refine .inl ⟨fun ⟨max, lf, hlf, infinite, _⟩ => not_wraps_of_behind tidy behind
    ⟨max, lf, hlf, infinite⟩, ?_⟩
  refine Change.head [] [lock] (by simp) (change_of_behind tidy behind [])
    ⟨by simp [recordsOf], ?_, fun x => ?_, by simp, ?_, ?_, by simp [recordsOf]⟩
  · simp only [mem_singleton, forall_eq]
    exact hlock
  · exact look_single ⟨rfl, rfl, rfl, rfl⟩ x
  · simp only [mem_singleton, forall_eq]
    exact behind
  · simp only [mem_singleton, forall_eq]
    exact fun c hc _ => hc

/-- The request is in a record of its type. -/
theorem assigns_sameType (met : Met lock overlap l) (same : overlap.type = lock.type)
    (holds : Ovcase.Holds overlap lock .contains) (new : List ℕ) :
    Assigns lock (some lock.type) new (overlap :: l) (overlap :: l) := by
  obtain ⟨start, finite, ends, -⟩ := holds
  refine .inl ⟨?_, rfl, fun x => ?_, met.tidy.sorted, met.tidy.ok_own, fun _ _ h => h, ?_⟩
  · rintro ⟨max, lf, hlf, infinite, differ⟩
    rw [own_cons_of_mine met.mine] at hlf
    rcases mem_cons.mp hlf with rfl | hlf
    · exact differ.elim (by omega) (absurd (congrArg some same))
    · have := met.first lf hlf
      have := (met.tidy.tail.ok_own lf hlf).small
      unfold Before at *
      omega
  · simp only [look_own met.mine, bytesOf_inside, same]
    split_ifs <;> first | rfl | (unfold InRange at *; omega)
  · exact (sublist_append_right _ _).subperm

/-- It is enough to look at what follows the records that are passed. -/
theorem assigns_passed {o : Outcome P F} {skipped rest k : List (Lockf P F)} {w : List P}
    (tidy : Tidy lock (skipped ++ rest))
    (left : ∀ lf ∈ (recordsOf lock.id).own skipped, Before lf lock)
    (h : o = .done (skipped ++ k) w) (assigns : Assigns lock v new rest k) :
    ∃ list' woken, o = .done list' woken ∧ Assigns lock v new (skipped ++ rest) list' :=
  ⟨skipped ++ k, w, h, assigns.skip tidy left⟩

/-- **The loop of `lf_setlock`** sets the lock, or comes to the allocation. -/
theorem setLoop_spec {list : List (Lockf P F)} (hlock : lock.Ok) (tidy : Tidy lock list) :
    (∃ list' woken, setLoop lock list = .done list' woken ∧
        Assigns lock (some lock.type) [lock.addr] list list') ∨
      ∃ pre overlap rest, list = pre ++ overlap :: rest ∧
        setLoop lock list = .splits list [] overlap.addr ∧ Inside lock overlap ∧
        overlap.type ≠ lock.type := by
  obtain ⟨c, skipped, rest, hrun, rfl, hleft, hcase⟩ := lfFindoverlap_self hlock [] tidy
  rw [nil_append] at hrun
  rcases hcase with ⟨rfl, behind⟩ | ⟨overlap, rest, rfl, met, overlaps, holds⟩
  · exact .inl (assigns_passed tidy hleft (by rw [setLoop, hrun])
      (assigns_none hlock tidy.right behind))
  · have shorter : rest.length < (skipped ++ overlap :: rest).length := by
      simp only [length_append, length_cons]
      omega
    cases c with
    | none => exact absurd rfl overlaps
    | same =>
      left
      obtain ⟨start, stop⟩ := holds
      -- the record gets the type of the request, and keeps its waiters or not
      have sets : ∀ b, Assigns lock (some lock.type) [lock.addr] (overlap :: rest)
          ({ overlap with type := lock.type, blkhd := b } :: rest) := by
        intro b
        exact assigns_endsInside [] [{ overlap with type := lock.type, blkhd := b }] met
          (by omega) (.inl ⟨start.ge, rfl⟩) (isMiddle_some _ ⟨met.mine, start, stop, rfl⟩)
          (clears_of_behind met.tidy.tail (met.behind (by omega))) (by simp)
      by_cases down : lock.type = .rdlck ∧ overlap.type = .wrlck
      · exact assigns_passed tidy hleft (by rw [setLoop, hrun]; exact if_pos down) (sets [])
      · exact assigns_passed tidy hleft (by rw [setLoop, hrun]; exact if_neg down)
          (sets overlap.blkhd)
    | contains =>
      by_cases same : overlap.type = lock.type
      · left
        exact assigns_passed tidy hleft
          (by rw [setLoop, hrun]; exact if_pos same) (assigns_sameType met same holds _)
      · obtain ⟨start, finite, ends, differ⟩ := holds
        by_cases front : overlap.start = lock.start
        · left
          refine assigns_passed tidy hleft
            (by simp only [setLoop, hrun, if_neg same, if_pos front]; rfl) ?_
          exact assigns_endsBehind [] [lock] met finite (by omega)
            (.inr (mt Option.some.inj same)) (.inl ⟨front.ge, rfl⟩)
            (isMiddle_some _ ⟨rfl, rfl, rfl, rfl⟩) ⟨met.mine, rfl, rfl, rfl⟩ (.refl _)
        · by_cases back : overlap.stop = lock.stop
          · left
            refine assigns_passed tidy hleft
              (k := { overlap.woken with stop := off (lock.start - 1) } :: lock :: rest)
              (w := overlap.blkhd) ?_ ?_
            · simp only [setLoop, hrun, if_neg same, if_neg front, lfSplit_back overlap front back]
              rfl
            · exact assigns_endsInside [_] [lock] met (by omega)
                (.inr ⟨by omega, _, rfl, met.mine, rfl, hlock.off_start, rfl⟩)
                (isMiddle_some _ ⟨rfl, rfl, rfl, rfl⟩)
                (clears_of_behind met.tidy.tail (met.behind (by omega)))
                (List.Perm.swap _ _ []).subperm
          · right
            refine ⟨skipped, overlap, rest, rfl, ?_, ⟨met.mine, by omega, finite, by omega⟩, same⟩
            simp only [setLoop, hrun, if_neg same, if_neg front, lfSplit_middle overlap front back]
    | contained =>
      left
      obtain ⟨start, ends⟩ := holds
      obtain ⟨b, w, htake⟩ := takeBlkhd_eq lock overlap []
      obtain ⟨⟨ok, sorted⟩, behind⟩ := met.beyond
      obtain ⟨b', post', woken', hrest, clears⟩ :=
        @setRest_spec _ _ _ _ { lock with blkhd := b } (skipped ++ overlap :: rest).length skipped
          [] rest w shorter (hlock.blkhd b) ⟨⟨ok, sorted⟩, behind⟩
      refine assigns_passed (k := { lock with blkhd := b' } :: post') (w := woken') tidy hleft
        ?_ ?_
      · rw [setLoop, hrun]
        dsimp only
        rw [htake, hrest]
        rfl
      · exact assigns_endsInside [] [{ lock with blkhd := b' }] met ends (.inl ⟨start, rfl⟩)
          (isMiddle_some _ ⟨rfl, rfl, rfl, rfl⟩) clears (by simp)
    | startsBefore =>
      left
      obtain ⟨start, inside, ends⟩ := holds
      obtain ⟨b', post', woken', hrest, clears⟩ :=
        @setRest_spec _ _ _ _ lock (skipped ++ overlap :: rest).length
          (skipped ++ [{ overlap.woken with stop := off (lock.start - 1) }]) [] rest overlap.blkhd
          shorter hlock met.beyond
      refine assigns_passed (k := { overlap.woken with stop := off (lock.start - 1) } ::
        { lock with blkhd := b' } :: post') (w := woken') tidy hleft ?_ ?_
      · rw [setLoop, hrun]
        dsimp only
        rw [hrest, append_assoc]
        rfl
      · exact assigns_endsInside [_] [{ lock with blkhd := b' }] met
          (by omega) (.inr ⟨start, _, rfl, met.mine, rfl, hlock.off_start, rfl⟩)
          (isMiddle_some _ ⟨rfl, rfl, rfl, rfl⟩) clears (List.Perm.swap _ _ []).subperm
    | endsAfter =>
      left
      obtain ⟨start, finite, inside, ends⟩ := holds
      refine assigns_passed tidy hleft (by rw [setLoop, hrun]) ?_
      exact assigns_endsBehind [] [lock] met finite ends (.inl start) (.inl ⟨start.le, rfl⟩)
        (isMiddle_some _ ⟨rfl, rfl, rfl, rfl⟩) ⟨met.mine, rfl, rfl, rfl⟩ (.refl _)

/-! ## Clearing a lock -/

/-- Nothing overlaps the request. -/
theorem assigns_clear (tidy : Tidy lock l)
    (behind : ∀ lf ∈ (recordsOf lock.id).own l, Before lock lf) : Assigns lock none [] l l :=
  .inl ⟨fun ⟨max, lf, hlf, infinite, _⟩ => not_wraps_of_behind tidy behind ⟨max, lf, hlf, infinite⟩,
    change_of_behind tidy behind []⟩

/-- **The loop of `lf_clearlock`** clears the bytes, or comes to the allocation. -/
theorem lfClearlock_spec {list : List (Lockf P F)} (hlock : lock.Ok) (tidy : Tidy lock list) :
    (∃ list' woken, lfClearlock lock list = .done list' woken ∧ Assigns lock none [] list list') ∨
      ∃ pre overlap rest, list = pre ++ overlap :: rest ∧
        lfClearlock lock list = .splits (pre ++ overlap.woken :: rest) overlap.blkhd overlap.addr ∧
        Inside lock overlap := by
  obtain ⟨c, skipped, rest, hrun, rfl, hleft, hcase⟩ := lfFindoverlap_self hlock [] tidy
  rw [nil_append] at hrun
  rcases hcase with ⟨rfl, behind⟩ | ⟨overlap, rest, rfl, met, overlaps, holds⟩
  · exact .inl (assigns_passed tidy hleft (by rw [lfClearlock, clearLoop, hrun])
      (assigns_clear tidy.right behind))
  · have shorter : rest.length < (skipped ++ overlap :: rest).length := by
      simp only [length_append, length_cons]
      omega
    have free : IsMiddle lock none [] := .inl ⟨rfl, rfl⟩
    cases c with
    | none => exact absurd rfl overlaps
    | same =>
      left
      obtain ⟨start, stop⟩ := holds
      refine assigns_passed tidy hleft (by rw [lfClearlock, clearLoop, hrun]) ?_
      exact assigns_endsInside [] [] met (by omega) (.inl ⟨start.ge, rfl⟩) free
        (clears_of_behind met.tidy.tail (met.behind (by omega))) (by simp)
    | contains =>
      obtain ⟨start, finite, ends, differ⟩ := holds
      by_cases front : overlap.start = lock.start
      · left
        refine assigns_passed tidy hleft
          (by rw [lfClearlock, clearLoop, hrun]; exact if_pos front) ?_
        exact assigns_endsBehind [] [] met finite (by omega) (.inr (by simp))
          (.inl ⟨front.ge, rfl⟩) free ⟨met.mine, rfl, rfl, rfl⟩ (.refl _)
      · by_cases back : overlap.stop = lock.stop
        · left
          refine assigns_passed tidy hleft
            (k := { overlap.woken with stop := off (lock.start - 1) } :: rest)
            (w := overlap.blkhd) ?_ ?_
          · simp only [lfClearlock, clearLoop, hrun, if_neg front, nil_append,
              lfSplit_back overlap.woken front back]
          · exact assigns_endsInside [_] [] met (by omega)
              (.inr ⟨by omega, _, rfl, met.mine, rfl, hlock.off_start, rfl⟩) free
              (clears_of_behind met.tidy.tail (met.behind (by omega))) (.refl _)
        -- bytes are left on both sides: a second record is needed
        · right
          refine ⟨skipped, overlap, rest, rfl, ?_, ⟨met.mine, by omega, finite, by omega⟩⟩
          simp only [lfClearlock, clearLoop, hrun, if_neg front, nil_append,
            lfSplit_middle overlap.woken front back]
    | contained =>
      left
      obtain ⟨start, ends⟩ := holds
      obtain ⟨post', woken', hrest, clears⟩ :=
        @clearLoop_rest _ _ _ _ lock (skipped ++ overlap :: rest).length skipped rest
          overlap.blkhd shorter hlock met.beyond
      refine assigns_passed tidy hleft
        (by rw [lfClearlock, clearLoop, hrun]; exact hrest) ?_
      exact assigns_endsInside [] [] met ends (.inl ⟨start, rfl⟩) free clears (by simp)
    | startsBefore =>
      left
      obtain ⟨start, inside, ends⟩ := holds
      obtain ⟨post', woken', hrest, clears⟩ :=
        @clearLoop_rest _ _ _ _ lock (skipped ++ overlap :: rest).length
          (skipped ++ [{ overlap.woken with stop := off (lock.start - 1) }]) rest overlap.blkhd
          shorter hlock met.beyond
      rw [append_assoc] at hrest
      refine assigns_passed tidy hleft (by rw [lfClearlock, clearLoop, hrun]; exact hrest) ?_
      exact assigns_endsInside [_] [] met (by omega)
        (.inr ⟨start, _, rfl, met.mine, rfl, hlock.off_start, rfl⟩) free clears (.refl _)
    | endsAfter =>
      left
      obtain ⟨start, finite, inside, ends⟩ := holds
      refine assigns_passed tidy hleft (by rw [lfClearlock, clearLoop, hrun]) ?_
      exact assigns_endsBehind [] [] met finite ends (.inl start) (.inl ⟨start.le, rfl⟩) free
        ⟨met.mine, rfl, rfl, rfl⟩ (.refl _)

/-! ## After the allocation -/

/-- What the bytes of the request are to have. -/
def Op.value (op : Op) (lock : Lockf P F) : Option LockType :=
  match op with
  | .set => some lock.type
  | .clear => none

/-- The records that an operation may add to the list. -/
def Op.adds (op : Op) (lock : Lockf P F) (fresh : ℕ) : List ℕ :=
  match op with
  | .set => [lock.addr, fresh]
  | .clear => [fresh]

/-- **`lf_split` puts the request into the record**, if that is in the list. -/
theorem splitResume_spec {op : Op} (fresh : ℕ) {pre rest : List (Lockf P F)} (hlock : lock.Ok)
    (tidy : Tidy lock (pre ++ overlap :: rest)) (distinct : ∀ lf ∈ pre, lf.addr ≠ overlap.addr)
    (inside : Inside lock overlap) (differ : some overlap.type ≠ op.value lock) :
    ∃ list' woken, splitResume op lock overlap.addr fresh (pre ++ overlap :: rest) =
        some (list', woken) ∧
      Assigns lock (op.value lock) (op.adds lock fresh) (pre ++ overlap :: rest) list' := by
  have met : Met lock overlap rest := ⟨hlock, tidy.right, inside.mine, inside.meets hlock⟩
  obtain ⟨mine, start, finite, ends⟩ := inside
  have left : ∀ lf ∈ (recordsOf lock.id).own pre, Before lf lock := by
    intro lf hlf
    have sorted := tidy.sorted
    rw [own_append] at sorted
    have := (pairwise_append.mp sorted).2.2 lf hlf overlap
      (mem_own _ |>.mpr ⟨mem_cons_self, mine⟩)
    unfold Before at *
    omega
  have here : splitResume op lock overlap.addr fresh (overlap :: rest) = _ := if_pos rfl
  rw [splitResume_append op lock _ fresh distinct, here]
  cases op with
  | set =>
    refine ⟨_, _, rfl, Assigns.skip ?_ tidy left⟩
    exact assigns_endsBehind [_] [lock] met finite ends (.inr differ)
      (.inr ⟨start, _, rfl, mine, rfl, hlock.off_start, rfl⟩)
      (isMiddle_some _ ⟨rfl, rfl, rfl, rfl⟩) ⟨mine, rfl, rfl, rfl⟩
      (perm_append_singleton _ _).symm.subperm
  | clear =>
    refine ⟨_, _, rfl, Assigns.skip ?_ tidy left⟩
    exact assigns_endsBehind [_] [] met finite ends (.inr nofun)
      (.inr ⟨start, _, rfl, mine, rfl, hlock.off_start, rfl⟩) (.inl ⟨rfl, rfl⟩)
      ⟨mine, rfl, rfl, rfl⟩ (List.Perm.swap _ _ []).subperm

end BSDLite2.Ufs
