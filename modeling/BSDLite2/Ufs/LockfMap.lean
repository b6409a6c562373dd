import BSDLite2.Lib.RangeList
import BSDLite2.Ufs.Lockf

/-!
# What a list of byte-range locks means

For an owner the list is a partial map from bytes to lock types (`lockAt`).  Its records are
sorted by their start and disjoint, so that each lies before the next (`Before`).  The records of
all owners are in one list, and a change for one owner leaves those of the others in place; the
rules of `RangeList` are used for the records of the owner of the request.  An end of -1 is behind
every byte, and the largest offset is a byte like any other: the two are kept apart by `IsOff`.

* `Alike` — lists that differ in who waits only mean the same;
* `ovcase_holds` — one of the cases of `lf_findoverlap` applies, and what it says;
* `change_cut` — a record gives way to a request, by the rules for lists of ranges;
* `setRest_spec`, `clearLoop_rest` — the loops of `lf_setlock` and `lf_clearlock` on the
  records that start behind the start of the request.
-/

namespace BSDLite2.Ufs

open Ranges List

variable {P F : Type} {o : Owner P F} {lock : Lockf P F} {lf : Lockf P F}

/-! ## Records -/

/-- A byte of a file. -/
def IsOff (x : ℤ) : Prop := 0 ≤ x ∧ x < 2 ^ 63

/-- The byte is in the range from `s` to `e`, where -1 is the end of all files. -/
def InRange (s e x : ℤ) : Prop := s ≤ x ∧ (e = -1 ∨ x ≤ e)

instance (s e x : ℤ) : Decidable (InRange s e x) := inferInstanceAs (Decidable (_ ∧ _))

/-- The record covers a byte. -/
def Lockf.Covers (lf : Lockf P F) (x : ℤ) : Prop := InRange lf.start lf.stop x

instance (lf : Lockf P F) (x : ℤ) : Decidable (lf.Covers x) :=
  inferInstanceAs (Decidable (InRange _ _ _))

/-- The record is a range of bytes. -/
structure Lockf.Ok (lf : Lockf P F) : Prop where
  nonneg : 0 ≤ lf.start
  small : lf.start < 2 ^ 63
  range : lf.stop = -1 ∨ lf.start ≤ lf.stop ∧ lf.stop < 2 ^ 63

/-- The first record ends before the second starts. -/
def Before (a b : Lockf P F) : Prop := a.stop ≠ -1 ∧ a.stop < b.start

theorem before_iff {a b : Lockf P F} (ha : a.Ok) (hb : b.Ok) :
    (a.start ≤ b.start ∧ ∀ x, IsOff x → ¬ (a.Covers x ∧ b.Covers x)) ↔ Before a b := by
  obtain ⟨a0, a1, ar⟩ := ha
  obtain ⟨b0, b1, br⟩ := hb
  constructor
  · rintro ⟨le, disjoint⟩
    have := disjoint b.start ⟨b0, b1⟩
    unfold Lockf.Covers InRange at this
    unfold Before
    omega
  · rintro ⟨finite, lt⟩
    refine ⟨by omega, fun x _ => ?_⟩
    unfold Lockf.Covers InRange
    omega

theorem off_eq {x : ℤ} (low : -2 ^ 63 ≤ x) (high : x < 2 ^ 63) : off x = x :=
  Int.bmod_eq_of_le (by omega) (by omega)

theorem Lockf.Ok.blkhd (hlock : lock.Ok) (b : List P) : ({ lock with blkhd := b } : Lockf P F).Ok :=
  ⟨hlock.nonneg, hlock.small, hlock.range⟩

/-- There is room for the end of what lies before a request. -/
theorem Lockf.Ok.off_start (hlock : lock.Ok) : off (lock.start - 1) = lock.start - 1 := by
  obtain ⟨nonneg, small, -⟩ := hlock
  exact off_eq (by omega) (by omega)

theorem off_max : off (2 ^ 63 - 1 + 1) = -2 ^ 63 := by
  decide

/-- The record belongs to the owner and covers the range from `s` to `e` with type `t`. -/
structure Spans (o : Owner P F) (s e : ℤ) (t : LockType) (lf : Lockf P F) : Prop where
  mine : lf.id = o
  start_eq : lf.start = s
  stop_eq : lf.stop = e
  type_eq : lf.type = t

/-! ## The cases of an overlap -/

/-- What the cases say of a record and a request. -/
def Ovcase.Holds (lf lock : Lockf P F) : Ovcase → Prop
  | .none => Before lf lock ∨ Before lock lf
  | .same => lf.start = lock.start ∧ lf.stop = lock.stop
  | .contains => lf.start ≤ lock.start ∧ lock.stop ≠ -1 ∧ (lf.stop = -1 ∨ lock.stop ≤ lf.stop) ∧
      ¬ (lf.start = lock.start ∧ lf.stop = lock.stop)
  | .contained => lock.start ≤ lf.start ∧ (lock.stop = -1 ∨ lf.stop ≠ -1 ∧ lf.stop ≤ lock.stop)
  | .startsBefore => lf.start < lock.start ∧ (lf.stop = -1 ∨ lock.start ≤ lf.stop) ∧
      (lock.stop = -1 ∨ lf.stop ≠ -1 ∧ lf.stop < lock.stop)
  | .endsAfter => lock.start < lf.start ∧ lock.stop ≠ -1 ∧ lf.start ≤ lock.stop ∧
      (lf.stop = -1 ∨ lock.stop < lf.stop)

/-- **One of the cases applies**, so the panic is not reached. -/
theorem ovcase_holds (lf lock : Lockf P F) : ∃ c, ovcase lf lock = some c ∧ c.Holds lf lock := by
  unfold ovcase
  split_ifs
  · exact ⟨_, rfl, by unfold Ovcase.Holds Before; omega⟩
  iterate 5
    · exact ⟨_, rfl, by unfold Ovcase.Holds; omega⟩
  · omega

theorem Ovcase.Holds.meets {lf lock : Lockf P F} {c : Ovcase} (holds : c.Holds lf lock)
    (some : c ≠ .none) (hlf : lf.Ok) (hlock : lock.Ok) : ¬ Before lf lock ∧ ¬ Before lock lf := by
  have := hlf.range
  have := hlock.range
  unfold Before
  cases c <;> first | exact absurd rfl some | (unfold Holds at holds; omega)

/-! ## What is left of a record -/

/-- What is left of a record in front of the request. -/
def IsFront (overlap lock : Lockf P F) (fs : List (Lockf P F)) : Prop :=
  lock.start ≤ overlap.start ∧ fs = [] ∨
    overlap.start < lock.start ∧
      ∃ f, fs = [f] ∧ Spans lock.id overlap.start (lock.start - 1) overlap.type f

/-- What is left of it behind the request. -/
def IsBack (overlap lock : Lockf P F) (bs : List (Lockf P F)) : Prop :=
  (lock.stop = -1 ∨ overlap.stop ≠ -1 ∧ overlap.stop ≤ lock.stop) ∧ bs = [] ∨
    (lock.stop ≠ -1 ∧ lock.stop < 2 ^ 63 - 1 ∧ (overlap.stop = -1 ∨ lock.stop < overlap.stop)) ∧
      ∃ b, bs = [b] ∧ Spans lock.id (lock.stop + 1) overlap.stop overlap.type b

/-- What comes between them. -/
def IsMiddle (lock : Lockf P F) (v : Option LockType) (ms : List (Lockf P F)) : Prop :=
  v = none ∧ ms = [] ∨
    v = some lock.type ∧ ∃ m, ms = [m] ∧ Spans lock.id lock.start lock.stop lock.type m

section

variable {lock overlap : Lockf P F} {fs ms bs : List (Lockf P F)} {v : Option LockType}

theorem IsFront.mem (front : IsFront overlap lock fs) {f : Lockf P F} (hf : f ∈ fs) :
    overlap.start < lock.start ∧ Spans lock.id overlap.start (lock.start - 1) overlap.type f := by
  rcases front with ⟨-, rfl⟩ | ⟨lt, f, rfl, spans⟩
  · cases hf
  · rw [mem_singleton.mp hf]
    exact ⟨lt, spans⟩

theorem IsBack.mem (back : IsBack overlap lock bs) {b : Lockf P F} (hb : b ∈ bs) :
    (lock.stop ≠ -1 ∧ lock.stop < 2 ^ 63 - 1 ∧ (overlap.stop = -1 ∨ lock.stop < overlap.stop)) ∧
      Spans lock.id (lock.stop + 1) overlap.stop overlap.type b := by
  rcases back with ⟨-, rfl⟩ | ⟨ends, b, rfl, spans⟩
  · cases hb
  · rw [mem_singleton.mp hb]
    exact ⟨ends, spans⟩

theorem IsMiddle.mem (middle : IsMiddle lock v ms) {m : Lockf P F} (hm : m ∈ ms) :
    Spans lock.id lock.start lock.stop lock.type m := by
  rcases middle with ⟨-, rfl⟩ | ⟨-, m, rfl, spans⟩
  · cases hm
  · rwa [mem_singleton.mp hm]

end

/-! ## Waiters do not matter -/

/-- The lists differ in who waits for the records only. -/
def Alike (l l' : List (Lockf P F)) : Prop := l.map Lockf.woken = l'.map Lockf.woken

section

variable {l l' : List (Lockf P F)}

/-- What does not depend on the waiters holds of all records of alike lists. -/
theorem Alike.forall_mem {p : Lockf P F → Prop} (alike : Alike l l')
    (hp : ∀ lf, p lf.woken ↔ p lf) (h : ∀ lf ∈ l, p lf) : ∀ lf ∈ l', p lf := by
  have h' : ∀ lf ∈ l'.map Lockf.woken, p lf := by
    rw [← alike, forall_mem_map]
    exact fun lf hlf => (hp lf).mpr (h lf hlf)
  rw [forall_mem_map] at h'
  exact fun lf hlf => (hp lf).mp (h' lf hlf)

theorem Alike.symm (alike : Alike l l') : Alike l' l := Eq.symm alike

theorem Alike.exists_mem {p : Lockf P F → Prop} (alike : Alike l l')
    (hp : ∀ lf, p lf.woken ↔ p lf) (h : ∃ lf ∈ l, p lf) : ∃ lf ∈ l', p lf := by
  by_contra none
  push Not at none
  obtain ⟨lf, hlf, holds⟩ := h
  exact alike.symm.forall_mem (fun lf => not_congr (hp lf)) none lf hlf holds

theorem Alike.pairwise {r : Lockf P F → Lockf P F → Prop} (alike : Alike l l')
    (hr : ∀ a b, r a.woken b.woken ↔ r a b) (h : l.Pairwise r) : l'.Pairwise r := by
  have h' : (l'.map Lockf.woken).Pairwise r := by
    rw [← alike, pairwise_map]
    exact h.imp (hr _ _).mpr
  rw [pairwise_map] at h'
  exact h'.imp (hr _ _).mp

theorem Alike.addrs (alike : Alike l l') : l'.map Lockf.addr = l.map Lockf.addr := by
  have h : ∀ k : List (Lockf P F), k.map Lockf.addr = (k.map Lockf.woken).map Lockf.addr := by
    intro k
    rw [map_map]
    rfl
  rw [h, h l, alike]

theorem Lockf.ok_woken (lf : Lockf P F) : lf.woken.Ok ↔ lf.Ok :=
  ⟨fun ⟨nonneg, small, range⟩ => ⟨nonneg, small, range⟩,
    fun ⟨nonneg, small, range⟩ => ⟨nonneg, small, range⟩⟩

theorem alike_map {f : Lockf P F → Lockf P F} (hf : ∀ lf, (f lf).woken = lf.woken)
    (l : List (Lockf P F)) : Alike l (l.map f) := by
  rw [Alike, map_map]
  exact map_congr_left fun lf _ => (hf lf).symm

theorem alike_replace (pre : List (Lockf P F)) (lf : Lockf P F) (b : List P)
    (rest : List (Lockf P F)) :
    Alike (pre ++ lf :: rest) (pre ++ { lf with blkhd := b } :: rest) := by
  simp [Alike, Lockf.woken]

theorem takeBlkhd_eq (lock overlap : Lockf P F) (woken : List P) :
    ∃ b w, takeBlkhd lock overlap woken = ({ lock with blkhd := b }, w) := by
  rw [takeBlkhd]
  split
  · exact ⟨lock.blkhd, _, rfl⟩
  · exact ⟨_, _, rfl⟩

end

/-! ## The map -/

variable [DecidableEq P] [DecidableEq F]

/-- The records of the owner `o` as ranges. -/
def recordsOf (o : Owner P F) : Ranges (Lockf P F) ℤ LockType ℕ where
  mine lf := lf.id = o
  covers lf x := InRange lf.start lf.stop x
  val := Lockf.type
  before := Before
  good := Lockf.Ok
  name := Lockf.addr

/-- The type of lock that `o` has on a byte. -/
def lockAt (o : Owner P F) (x : ℤ) (list : List (Lockf P F)) : Option LockType :=
  (recordsOf o).look x list

/-- The records of `o` are sorted by their start, and no byte is in two of them. -/
def Sorted (o : Owner P F) (list : List (Lockf P F)) : Prop :=
  ((recordsOf o).own list).Pairwise fun a b =>
    a.start ≤ b.start ∧ ∀ x, IsOff x → ¬ (a.Covers x ∧ b.Covers x)

/-- A list of locks: distinct records, each a range of bytes, and for each owner sorted and
disjoint. -/
structure Lawful (list : List (Lockf P F)) : Prop where
  nodup : (list.map Lockf.addr).Nodup
  ok : ∀ lf ∈ list, lf.Ok
  sorted : ∀ o, Sorted o list

/-- The bytes of a request, and the records that end before it. -/
def bytesOf (o : Owner P F) (s e : ℤ) : Region (recordsOf o) where
  inside := InRange s e
  left lf := lf.stop ≠ -1 ∧ lf.stop < s
  apart := by
    rintro lf x ⟨finite, left⟩ ⟨-, covers⟩ ⟨inside, -⟩
    rcases covers with infinite | covers
    · exact finite infinite
    · omega

theorem look_own (mine : lf.id = o) (x : ℤ) (l : List (Lockf P F)) :
    (recordsOf o).look x (lf :: l) =
      if InRange lf.start lf.stop x then some lf.type else (recordsOf o).look x l := by
  by_cases covers : InRange lf.start lf.stop x
  · rw [if_pos covers]
    exact look_cons_of_covers mine covers l
  · rw [if_neg covers]
    exact look_cons_of_not (fun h => covers h.2) l

@[simp]
theorem bytesOf_inside (o : Owner P F) (s e x : ℤ) : (bytesOf o s e).inside x ↔ InRange s e x :=
  Iff.rfl

theorem sorted_iff {list : List (Lockf P F)} (ok : ∀ lf ∈ (recordsOf o).own list, lf.Ok) :
    Sorted o list ↔ ((recordsOf o).own list).Pairwise Before :=
  List.Pairwise.iff_of_mem fun ha hb => before_iff (ok _ ha) (ok _ hb)

/-- The records are ranges of bytes, and those of the owner of `lock` are in order. -/
structure Tidy (lock : Lockf P F) (l : List (Lockf P F)) : Prop where
  ok : ∀ lf ∈ l, lf.Ok
  sorted : ((recordsOf lock.id).own l).Pairwise Before

section

variable {lock lf : Lockf P F} {l k : List (Lockf P F)}

theorem Tidy.ok_own (tidy : Tidy lock l) : ∀ lf ∈ (recordsOf lock.id).own l, lf.Ok :=
  fun lf hlf => tidy.ok lf ((recordsOf lock.id).mem_own.mp hlf).1

theorem Tidy.right (tidy : Tidy lock (k ++ l)) : Tidy lock l := by
  obtain ⟨ok, sorted⟩ := tidy
  rw [own_append] at sorted
  exact ⟨fun lf hlf => ok lf (mem_append_right _ hlf), (pairwise_append.mp sorted).2.1⟩

theorem Tidy.head (tidy : Tidy lock (lf :: l)) : lf.Ok := tidy.ok lf mem_cons_self

theorem Tidy.tail (tidy : Tidy lock (lf :: l)) : Tidy lock l := Tidy.right (k := [lf]) tidy

theorem Tidy.first (tidy : Tidy lock (lf :: l)) (mine : lf.id = lock.id) :
    ∀ r ∈ (recordsOf lock.id).own l, Before lf r := by
  have sorted := tidy.sorted
  rw [own_cons_of_mine mine] at sorted
  exact (pairwise_cons.mp sorted).1

theorem Lawful.tidy (lawful : Lawful l) (lock : Lockf P F) : Tidy lock l where
  ok := lawful.ok
  sorted := (sorted_iff fun lf hlf => lawful.ok lf ((recordsOf lock.id).mem_own.mp hlf).1).mp
    (lawful.sorted lock.id)

/-- A record of the owner that the request meets, in front of the others. -/
structure Met (lock overlap : Lockf P F) (l : List (Lockf P F)) : Prop where
  lock_ok : lock.Ok
  tidy : Tidy lock (overlap :: l)
  mine : overlap.id = lock.id
  meets : ¬ Before overlap lock ∧ ¬ Before lock overlap

/-- Records that start behind the start of the request. -/
structure Beyond (lock : Lockf P F) (l : List (Lockf P F)) : Prop extends Tidy lock l where
  behind : ∀ lf ∈ (recordsOf lock.id).own l, lock.start < lf.start

variable {overlap : Lockf P F}

theorem Met.first (met : Met lock overlap l) :
    ∀ lf ∈ (recordsOf lock.id).own l, Before overlap lf :=
  met.tidy.first met.mine

theorem Met.beyond (met : Met lock overlap l) : Beyond lock l := by
  refine ⟨met.tidy.tail, fun lf hlf => ?_⟩
  have := met.first lf hlf
  have := met.meets.1
  unfold Before at *
  omega

theorem Met.behind (met : Met lock overlap l)
    (far : overlap.stop ≠ -1 → lock.stop ≠ -1 ∧ lock.stop ≤ overlap.stop) :
    ∀ lf ∈ (recordsOf lock.id).own l, Before lock lf := by
  intro lf hlf
  obtain ⟨finite, lt⟩ := met.first lf hlf
  exact ⟨(far finite).1, (far finite).2.trans_lt lt⟩

end

section

variable {l l' : List (Lockf P F)}

theorem own_woken (o : Owner P F) (l : List (Lockf P F)) :
    (recordsOf o).own (l.map Lockf.woken) = ((recordsOf o).own l).map Lockf.woken :=
  filter_map

theorem Alike.own (alike : Alike l l') (o : Owner P F) :
    Alike ((recordsOf o).own l) ((recordsOf o).own l') := by
  rw [Alike, ← own_woken, ← own_woken, alike]

theorem look_woken (o : Owner P F) (x : ℤ) (l : List (Lockf P F)) :
    (recordsOf o).look x (l.map Lockf.woken) = (recordsOf o).look x l := by
  induction l with
  | nil => rfl
  | cons lf l ih =>
    rw [map_cons, look, ih]
    rfl

theorem Alike.lockAt (alike : Alike l l') (o : Owner P F) (x : ℤ) :
    lockAt o x l' = lockAt o x l := by
  rw [Ufs.lockAt, Ufs.lockAt, ← look_woken, ← alike, look_woken]

theorem Alike.lawful (alike : Alike l l') (lawful : Lawful l) : Lawful l' where
  nodup := alike.addrs ▸ lawful.nodup
  ok := alike.forall_mem (fun lf => lf.ok_woken) lawful.ok
  sorted o := (alike.own o).pairwise (fun _ _ => Iff.rfl) (lawful.sorted o)

end

/-! ## `lf_findoverlap` -/

/-- What `lf_findoverlap` finds among the records of the same owner: those it passes end
before the request, and it stops at one that overlaps it, or where all that follow start
behind it. -/
theorem lfFindoverlap_self (hlock : lock.Ok) (pre : List (Lockf P F))
    {post : List (Lockf P F)} (tidy : Tidy lock post) :
    ∃ c skipped rest, lfFindoverlap .self lock pre post = some (c, pre ++ skipped, rest) ∧
      post = skipped ++ rest ∧ (∀ lf ∈ (recordsOf lock.id).own skipped, Before lf lock) ∧
      (c = .none ∧ (∀ lf ∈ (recordsOf lock.id).own rest, Before lock lf) ∨
        ∃ overlap rest', rest = overlap :: rest' ∧ Met lock overlap rest' ∧ c ≠ .none ∧
          c.Holds overlap lock) := by
  induction post generalizing pre with
  | nil => exact ⟨.none, [], [], by simp [lfFindoverlap], rfl, by simp, .inl ⟨rfl, by simp⟩⟩
  | cons lf post ih =>
    obtain ⟨c, hc, holds⟩ := ovcase_holds lf lock
    by_cases stops : lf.id = lock.id ∧ (c ≠ .none ∨ lock.stop ≠ -1 ∧ lf.start > lock.stop)
    · obtain ⟨mine, stops⟩ := stops
      by_cases none : c = .none
      · have behind := stops.resolve_left (not_not.mpr none)
        subst none
        refine ⟨.none, [], lf :: post, ?_, rfl, by simp, .inl ⟨rfl, fun r hr => ?_⟩⟩
        · simp [lfFindoverlap, Who.skips, mine, hc, behind]
        · rw [own_cons_of_mine mine] at hr
          rcases mem_cons.mp hr with rfl | hr
          · exact behind
          · have := tidy.first mine r hr
            have := tidy.head.range
            unfold Before at *
            omega
      · have meets := holds.meets none tidy.head hlock
        refine ⟨c, [], lf :: post, ?_, rfl, by simp,
          .inr ⟨lf, post, rfl, ⟨hlock, tidy, mine, meets⟩, none, holds⟩⟩
        cases c <;> first | exact absurd rfl none | simp [lfFindoverlap, Who.skips, mine, hc]
    · obtain ⟨c', skipped, rest, hrun, hpost, hleft, hcase⟩ := ih (pre ++ [lf]) tidy.tail
      by_cases mine : lf.id = lock.id
      · obtain ⟨none, behind⟩ := not_or.mp fun h => stops ⟨mine, h⟩
        obtain rfl := not_not.mp none
        refine ⟨c', lf :: skipped, rest, ?_, by rw [hpost]; rfl, ?_, hcase⟩
        · simp [lfFindoverlap, Who.skips, mine, hc, if_neg behind, hrun]
        · rw [own_cons_of_mine mine]
          exact forall_mem_cons.mpr ⟨holds.resolve_right behind, hleft⟩
      · refine ⟨c', lf :: skipped, rest, ?_, by rw [hpost]; rfl, ?_, hcase⟩
        · simp [lfFindoverlap, Who.skips, mine, hrun]
        · rwa [own_cons_of_not_mine mine]

/-! ## Clearing the bytes of a request -/

/-- The request ends with the last byte of all files, and a record of its owner does not
end: what is to be left of the record would start at a byte that there is not. -/
def Wraps (lock : Lockf P F) (list : List (Lockf P F)) : Prop :=
  lock.stop = 2 ^ 63 - 1 ∧ ∃ lf ∈ (recordsOf lock.id).own list, lf.stop = -1

/-- What is left then. -/
def IsWrapped (lf : Lockf P F) : Prop := lf.start = -2 ^ 63 ∧ lf.stop = -1

/-- The bytes of `lock` become free, unless that goes wrong. -/
def Clears (lock : Lockf P F) (l l' : List (Lockf P F)) : Prop :=
  (¬ Wraps lock l ∧ Change (bytesOf lock.id lock.start lock.stop) none [] l l' ∧
      ∀ lf ∈ (recordsOf lock.id).own l', Before lock lf) ∨
    Wraps lock l ∧ ∃ lf ∈ (recordsOf lock.id).own l', IsWrapped lf

section

variable {lock : Lockf P F} {l l' : List (Lockf P F)}

theorem forall_mine {ms : List (Lockf P F)} (h : ∀ m ∈ ms, m.id = o) :
    ∀ m ∈ ms, (recordsOf o).mine m := h

section

variable (tidy : Tidy lock l) (behind : ∀ lf ∈ (recordsOf lock.id).own l, Before lock lf)

include tidy behind

theorem not_wraps_of_behind : ¬ Wraps lock l := by
  rintro ⟨max, lf, hlf, -⟩
  have := behind lf hlf
  have := (tidy.ok_own lf hlf).small
  unfold Before at *
  omega

/-- Nothing is in the range. -/
theorem change_of_behind (new : List ℕ) :
    Change (bytesOf lock.id lock.start lock.stop) none new l l := by
  refine Change.refl tidy.sorted tidy.ok_own fun lf hlf x covers inside => ?_
  have := behind lf hlf
  obtain ⟨covers, -⟩ := covers
  obtain ⟨-, inside⟩ := inside
  unfold Before at this
  omega

theorem clears_of_behind : Clears lock l l :=
  .inl ⟨not_wraps_of_behind tidy behind, change_of_behind tidy behind [], behind⟩

end

section

variable {overlap : Lockf P F} {fs ms bs : List (Lockf P F)} {v : Option LockType}

theorem look_single {t : LockType} {s e : ℤ} (spans : Spans o s e t lf) (x : ℤ) :
    (recordsOf o).look x [lf] = if InRange s e x then some t else none := by
  rw [look_own spans.mine, spans.start_eq, spans.stop_eq, spans.type_eq, look_nil]

theorem IsFront.look_eq (front : IsFront overlap lock fs) (hover : overlap.Ok)
    (meets : ¬ Before overlap lock) (x : ℤ) :
    (recordsOf lock.id).look x fs =
      if InRange overlap.start overlap.stop x ∧ x < lock.start then some overlap.type
      else none := by
  have nonneg := hover.nonneg
  unfold Before at meets
  rcases front with ⟨le, rfl⟩ | ⟨lt, f, rfl, spans⟩
  · rw [look_nil, if_neg]
    unfold InRange
    omega
  · rw [look_single spans]
    refine if_congr ?_ rfl rfl
    unfold InRange
    omega

theorem IsBack.look_eq (back : IsBack overlap lock bs) (meets : ¬ Before lock overlap) (x : ℤ) :
    (recordsOf lock.id).look x bs =
      if InRange overlap.start overlap.stop x ∧ lock.stop ≠ -1 ∧ lock.stop < x then
        some overlap.type else none := by
  unfold Before at meets
  rcases back with ⟨ends, rfl⟩ | ⟨ends, b, rfl, spans⟩
  · rw [look_nil, if_neg]
    unfold InRange
    omega
  · rw [look_single spans]
    refine if_congr ?_ rfl rfl
    unfold InRange
    omega

theorem IsMiddle.look_eq (middle : IsMiddle lock v ms) (x : ℤ) :
    (recordsOf lock.id).look x ms = if InRange lock.start lock.stop x then v else none := by
  rcases middle with ⟨rfl, rfl⟩ | ⟨rfl, m, rfl, spans⟩
  · rw [look_nil, ite_self]
  · exact look_single spans x

/-- **A record gives way to a request.**  What is left of it in front and behind stays,
with what is put between. -/
theorem change_cut (met : Met lock overlap l)
    (front : IsFront overlap lock fs) (middle : IsMiddle lock v ms) (back : IsBack overlap lock bs)
    (clear : Change (bytesOf lock.id lock.start lock.stop) none [] l l')
    (behind : ∀ lf ∈ (recordsOf lock.id).own l', Before lock lf)
    (after : bs ≠ [] → ∀ lf ∈ (recordsOf lock.id).own l', Before overlap lf) (new : List ℕ)
    (names : ((fs ++ (ms ++ bs)).map Lockf.addr).Subperm (new ++ [overlap.addr])) :
    Change (bytesOf lock.id lock.start lock.stop) v new (overlap :: l)
      (fs ++ (ms ++ bs) ++ l') := by
  have hfront := front.look_eq met.tidy.head met.meets.1
  obtain ⟨over0, over1, overr⟩ := met.tidy.head
  obtain ⟨⟨lock0, lock1, lockr⟩, -, mine, meets⟩ := met
  -- every piece spans one of three ranges
  have cases_of : ∀ m ∈ fs ++ (ms ++ bs), m ∈ fs ∨ m ∈ ms ∨ m ∈ bs := by
    simp [mem_append]
  refine Change.head [overlap] (fs ++ (ms ++ bs)) ?_ clear ⟨?_, ?_, fun x => ?_, ?_, ?_, ?_, names⟩
  · exact forall_mine (by simpa using mine)
  · intro m hm
    rcases cases_of m hm with h | h | h
    · exact (front.mem h).2.mine
    · exact (middle.mem h).mine
    · exact (back.mem h).2.mine
  · intro m hm
    rcases cases_of m hm with h | h | h
    · obtain ⟨lt, -, start, stop, -⟩ := front.mem h
      exact ⟨by omega, by omega, by omega⟩
    · obtain ⟨-, start, stop, -⟩ := middle.mem h
      exact ⟨by omega, by omega, by omega⟩
    · obtain ⟨ends, -, start, stop, -⟩ := back.mem h
      exact ⟨by omega, by omega, by omega⟩
  · rw [look_append, look_append, hfront, middle.look_eq, back.look_eq meets.2, look_own mine]
    simp only [bytesOf_inside]
    by_cases inside : InRange lock.start lock.stop x
    · have outside : ¬ (InRange overlap.start overlap.stop x ∧ x < lock.start) := by
        unfold InRange at *
        omega
      have outside' :
          ¬ (InRange overlap.start overlap.stop x ∧ lock.stop ≠ -1 ∧ lock.stop < x) := by
        unfold InRange at *
        omega
      rw [if_neg outside, if_neg outside', if_pos inside, if_pos inside, Option.none_or,
        Option.or_none]
    · rw [if_neg inside]
      split_ifs <;> first | rfl | (unfold InRange at *; omega)
  · rw [pairwise_append, pairwise_append]
    refine ⟨?_, ⟨?_, ?_, ?_⟩, ?_⟩
    · rcases front with ⟨-, rfl⟩ | ⟨-, f, rfl, -⟩ <;> simp
    · rcases middle with ⟨-, rfl⟩ | ⟨-, m, rfl, -⟩ <;> simp
    · rcases back with ⟨-, rfl⟩ | ⟨-, b, rfl, -⟩ <;> simp
    · intro m hm b hb
      obtain ⟨-, -, stop, -⟩ := middle.mem hm
      obtain ⟨ends, -, start, -, -⟩ := back.mem hb
      exact ⟨by omega, by omega⟩
    · intro f hf m hm
      obtain ⟨lt, -, -, stop, -⟩ := front.mem hf
      refine ⟨by omega, ?_⟩
      rcases mem_append.mp hm with h | h
      · obtain ⟨-, start, -, -⟩ := middle.mem h
        omega
      · obtain ⟨ends, -, start, -, -⟩ := back.mem h
        omega
  · intro m hm b hb
    have lockb := behind b hb
    unfold Before at lockb
    rcases cases_of m hm with h | h | h
    · obtain ⟨lt, -, start, stop, -⟩ := front.mem h
      exact ⟨by omega, by omega⟩
    · obtain ⟨-, start, stop, -⟩ := middle.mem h
      exact ⟨by omega, by omega⟩
    · obtain ⟨ends, -, start, stop, -⟩ := back.mem h
      have := after (ne_nil_of_mem h) b hb
      exact ⟨stop ▸ this.1, stop ▸ this.2⟩
  · intro c hc hbefore m hm
    have hc' := hbefore overlap mem_cons_self
    obtain ⟨finite, left⟩ := hc
    unfold recordsOf Before at hc'
    rcases cases_of m hm with h | h | h
    · obtain ⟨lt, -, start, stop, -⟩ := front.mem h
      exact ⟨finite, by omega⟩
    · obtain ⟨-, start, stop, -⟩ := middle.mem h
      exact ⟨finite, by omega⟩
    · obtain ⟨ends, -, start, stop, -⟩ := back.mem h
      exact ⟨finite, by omega⟩

end

/-- A record in the range goes. -/
theorem Clears.contained {overlap : Lockf P F} (clears : Clears lock l l')
    (met : Met lock overlap l) (holds : Ovcase.Holds overlap lock .contained) :
    Clears lock (overlap :: l) l' := by
  obtain ⟨start, ends⟩ := holds
  have wraps : Wraps lock (overlap :: l) ↔ Wraps lock l := by
    unfold Wraps
    rw [own_cons_of_mine met.mine]
    simp only [mem_cons, exists_eq_or_imp]
    exact and_congr_right fun max => or_iff_right fun infinite => by omega
  rcases clears with ⟨not, change, behind⟩ | ⟨does, wrapped⟩
  · refine .inl ⟨mt wraps.mp not, ?_, behind⟩
    exact change_cut met (.inl ⟨start, rfl⟩) (.inl ⟨rfl, rfl⟩) (.inl ⟨ends, rfl⟩) change behind
      (fun h => absurd rfl h) [] (by simp)
  · exact .inr ⟨wraps.mpr does, wrapped⟩

/-- A record that ends behind the range is cut. -/
theorem clears_endsAfter {overlap cut : Lockf P F} (met : Met lock overlap l)
    (holds : Ovcase.Holds overlap lock .endsAfter)
    (spans : Spans lock.id (off (lock.stop + 1)) overlap.stop overlap.type cut)
    (hname : cut.addr = overlap.addr) : Clears lock (overlap :: l) (cut :: l) := by
  obtain ⟨start, finite, inside, ends⟩ := holds
  have lockNonneg := met.lock_ok.nonneg
  have lockRange := met.lock_ok.range
  have overRange := met.tidy.head.range
  have behind := met.behind (by omega)
  have hown : (recordsOf lock.id).own (cut :: l) = cut :: (recordsOf lock.id).own l :=
    own_cons_of_mine spans.mine l
  by_cases wraps : Wraps lock (overlap :: l)
  · have max := wraps.1
    refine .inr ⟨wraps, cut, by rw [hown]; exact mem_cons_self, ?_, ?_⟩
    · rw [spans.start_eq, max, off_max]
    · rw [spans.stop_eq]
      omega
  · have room : lock.stop < 2 ^ 63 - 1 := by
      by_contra full
      exact wraps ⟨by omega, overlap, mem_own _ |>.mpr ⟨mem_cons_self, met.mine⟩, by omega⟩
    rw [off_eq (by omega) (by omega)] at spans
    refine .inl ⟨wraps, ?_, ?_⟩
    · exact change_cut met (.inl ⟨start.le, rfl⟩) (.inl ⟨rfl, rfl⟩)
        (.inr ⟨⟨finite, room, ends⟩, cut, rfl, spans⟩) (change_of_behind met.tidy.tail behind [])
        behind (fun _ => met.first) [] (by simp [hname])
    · rw [hown]
      refine forall_mem_cons.mpr ⟨⟨finite, ?_⟩, behind⟩
      rw [spans.start_eq]
      omega

/-- Records of others come first. -/
theorem Clears.skip {skipped : List (Lockf P F)} (clears : Clears lock l l')
    (sorted : ((recordsOf lock.id).own l).Pairwise Before)
    (none : (recordsOf lock.id).own skipped = []) : Clears lock (skipped ++ l) (skipped ++ l') := by
  have hown : ∀ k, (recordsOf lock.id).own (skipped ++ k) = (recordsOf lock.id).own k := by
    intro k
    rw [own_append, none, nil_append]
  unfold Clears Wraps
  rw [hown, hown]
  refine clears.imp (fun ⟨not, change, behind⟩ => ⟨not, ?_, behind⟩) id
  refine change.append_left (by rwa [hown]) ?_ ?_
  · simp [none]
  · simp [none]

/-- **What follows in the list when the front of the range is done.**  All records of the
owner start behind the start of the request; then there is nothing to do, or the first
that overlaps goes, or it is cut. -/
theorem findoverlap_rest (hlock : lock.Ok) (mid : List (Lockf P F)) (beyond : Beyond lock l) :
    ∃ skipped rest, l = skipped ++ rest ∧
      (lfFindoverlap .self lock mid l = some (.none, mid ++ skipped, rest) ∧ Clears lock l l ∨
        ∃ overlap rest', rest = overlap :: rest' ∧ overlap.id = lock.id ∧
          (lfFindoverlap .self lock mid l = some (.contained, mid ++ skipped, rest) ∧
              Beyond lock rest' ∧ (∀ k, Clears lock rest' k → Clears lock l (skipped ++ k)) ∨
            lfFindoverlap .self lock mid l = some (.endsAfter, mid ++ skipped, rest) ∧
              ∀ cut : Lockf P F,
                Spans lock.id (off (lock.stop + 1)) overlap.stop overlap.type cut →
                cut.addr = overlap.addr → Clears lock l (skipped ++ cut :: rest'))) := by
  obtain ⟨tidy, behind⟩ := beyond
  obtain ⟨c, skipped, rest, hrun, rfl, hleft, hcase⟩ := lfFindoverlap_self hlock mid tidy
  rw [own_append] at behind
  -- a record of the owner that ends before the request would start before it
  have none : (recordsOf lock.id).own skipped = [] := by
    rw [eq_nil_iff_forall_not_mem]
    intro lf hlf
    have := hleft lf hlf
    have := behind lf (mem_append_left _ hlf)
    have := tidy.ok lf (mem_append_left _ ((recordsOf lock.id).mem_own.mp hlf).1)
    have := this.range
    unfold Before at *
    omega
  rw [none] at behind
  have sorted := tidy.right.sorted
  refine ⟨skipped, rest, rfl, ?_⟩
  rcases hcase with ⟨rfl, right⟩ | ⟨overlap, rest', rfl, met, some, holds⟩
  · exact .inl ⟨hrun, (clears_of_behind tidy.right right).skip sorted none⟩
  · refine .inr ⟨overlap, rest', rfl, met.mine, ?_⟩
    have first := behind overlap (mem_own _ |>.mpr ⟨mem_cons_self, met.mine⟩)
    cases c with
    | none => exact absurd rfl some
    | contained =>
      exact .inl ⟨hrun, met.beyond, fun k clears => (clears.contained met holds).skip sorted none⟩
    | endsAfter =>
      refine .inr ⟨hrun, fun cut spans name => ?_⟩
      exact (clears_endsAfter met holds spans name).skip sorted none
    | same | contains | startsBefore =>
      have := holds.1
      omega

/-! ## The loops -/

/-- The loop of `lf_setlock` when the request is in the list. -/
theorem setRest_spec {fuel : ℕ} {pre mid post : List (Lockf P F)} {woken : List P}
    (enough : post.length < fuel) (hlock : lock.Ok) (beyond : Beyond lock post) :
    ∃ b post' woken', setRest fuel lock pre mid post woken =
        .done (pre ++ { lock with blkhd := b } :: (mid ++ post')) woken' ∧
      Clears lock post post' := by
  induction fuel generalizing lock mid post woken with
  | zero => omega
  | succ fuel ih =>
    obtain ⟨skipped, rest, rfl, hcase⟩ := findoverlap_rest hlock mid beyond
    rw [setRest]
    rcases hcase with ⟨hrun, clears⟩ | ⟨overlap, rest', rfl, mine,
      ⟨hrun, tail, hclears⟩ | ⟨hrun, hclears⟩⟩
    · rw [hrun]
      exact ⟨lock.blkhd, skipped ++ rest, woken, by simp, clears⟩
    · obtain ⟨b, w, htake⟩ := takeBlkhd_eq lock overlap woken
      have shorter : rest'.length < fuel := by
        simp at enough
        omega
      obtain ⟨b', post', woken', hrest, clears⟩ := @ih { lock with blkhd := b } (mid ++ skipped)
        rest' w shorter (hlock.blkhd b) ⟨⟨tail.ok, tail.sorted⟩, tail.behind⟩
      refine ⟨b', skipped ++ post', woken', ?_, hclears post' clears⟩
      rw [hrun]
      dsimp only
      rw [htake, hrest, append_assoc]
    · refine ⟨lock.blkhd, skipped ++ { overlap.woken with start := off (lock.stop + 1) } :: rest',
        woken ++ overlap.blkhd, ?_, hclears _ ⟨mine, rfl, rfl, rfl⟩ rfl⟩
      rw [hrun]
      simp

/-- The loop of `lf_clearlock` when the front of the range is done. -/
theorem clearLoop_rest {fuel : ℕ} {pre post : List (Lockf P F)} {woken : List P}
    (enough : post.length < fuel) (hlock : lock.Ok) (beyond : Beyond lock post) :
    ∃ post' woken', clearLoop lock fuel pre post woken = .done (pre ++ post') woken' ∧
      Clears lock post post' := by
  induction fuel generalizing pre post woken with
  | zero => omega
  | succ fuel ih =>
    obtain ⟨skipped, rest, rfl, hcase⟩ := findoverlap_rest hlock pre beyond
    rw [clearLoop]
    rcases hcase with ⟨hrun, clears⟩ | ⟨overlap, rest', rfl, mine,
      ⟨hrun, tail, hclears⟩ | ⟨hrun, hclears⟩⟩
    · rw [hrun]
      exact ⟨skipped ++ rest, woken, by simp, clears⟩
    · have shorter : rest'.length < fuel := by
        simp at enough
        omega
      obtain ⟨post', woken', hrest, clears⟩ := @ih (pre ++ skipped) rest'
        (woken ++ overlap.blkhd) shorter tail
      refine ⟨skipped ++ post', woken', ?_, hclears post' clears⟩
      rw [hrun]
      dsimp only
      rw [hrest, append_assoc]
    · refine ⟨skipped ++ { overlap.woken with start := off (lock.stop + 1) } :: rest',
        woken ++ overlap.blkhd, ?_, hclears _ ⟨mine, rfl, rfl, rfl⟩ rfl⟩
      rw [hrun]
      simp

end

end BSDLite2.Ufs
