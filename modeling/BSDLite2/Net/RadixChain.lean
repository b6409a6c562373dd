import BSDLite2.Lib.Schedule
import Mathlib.Data.List.DropRight

/-!
# Routes with one key (`net/radix.c`)

The routes of a radix tree that have the same key and different masks form a chain, which is matched
from its head.  `rn_addroute` puts a route before the first one that one of three tests finds worse,
to have more specific routes before less specific ones.

What the tests are for is refinement: a mask refines another if it has all its ones and more.  None
of them ever puts a mask before one that refines it (`Normal.before_eq_false`); this is what the
index, the lengths and the bytes have in common, and it needs that `rn_addmask` has removed zeros at
the end.  So a chain is spoilt only by way of a third mask, which neither refines the new one nor is
refined by it: the index or `rn_lexobetter` may put the new route before that one, and what refines
it may be further behind.

* `rnRefines`, `rnLexobetter`, `insert`, `remove`, `step` — the code;
* `rnRefines_iff` — what the second test decides;
* `Misled`, `Clear` — the new route is put before a mask that has nothing to do with it, and that
  does no harm;
* `insert_ordered_iff` — a route goes where it should exactly if its place is clear;
* `ordered_iff_clear` — the chains are in order throughout exactly if every route does;
* `refined_behind` — three routes after which they are not.
-/

namespace BSDLite2.Radix

open List Schedule

/-- Keys and masks, after their length byte. -/
abbrev Bytes := List (BitVec 8)

/-- A node of the mask tree. -/
structure Mask where
  bytes : Bytes
  /-- `rn_b` -/
  b : ℤ
  deriving DecidableEq

/-- The loops of `rn_addmask` that compute the index: 8 for every byte of ones, and the ones at the
start of the first other byte. -/
def maskIndex : Bytes → ℕ
  | [] => 0
  | c :: key => if c = 255 then 8 + maskIndex key else ((range 8).takeWhile c.getMsbD).length

/-- `skip` in `rn_addmask`. -/
def atLeastOne (skip : ℕ) : ℕ := if skip = 0 then 1 else skip

/-- What `rn_addmask` makes of a mask: the bytes before `skip` are set, and zeros at the end
removed; what is not longer than `skip` is the root's. -/
def rnAddmask (skip : ℕ) (netmask : Bytes) : Mask :=
  let skip := atLeastOne skip
  let key := (replicate (skip - 1) 255 ++ netmask.drop (skip - 1)).rdropWhile (· = 0)
  if key.length < skip then ⟨[], -1⟩
  else ⟨key, -1 - (8 * skip + maskIndex (key.drop (skip - 1)) : ℕ)⟩

/-- The loops of `rn_refines`; `eq` is `masks_are_equal`. -/
def refinesLoop : (n m : Bytes) → (eq : Bool) → Bool
  | c :: n, d :: m, eq => if c &&& ~~~d ≠ 0 then false else refinesLoop n m (eq && c == d)
  | n, [], eq => if n.any (· ≠ 0) then false else !eq
  | [], m, eq => if eq && m.any (· ≠ 0) then true else !eq

/-- `rn_refines` -/
def rnRefines (m n : Mask) : Bool := refinesLoop n.bytes m.bytes true

/-- `rn_lexobetter` -/
def rnLexobetter (m n : Mask) : Bool :=
  if m.bytes.length > n.bytes.length then true
  else m.bytes.length = n.bytes.length && (m.bytes.zip n.bytes).any fun p => p.1 > p.2

/-- A route of a chain: its `rn_mask`, or `none`. -/
abbrev Route := Option Mask

/-- The tests of `rn_addroute`. -/
def before : Route → Route → Bool
  | none, _ => true
  | some _, none => false
  | some m, some n => m.b < n.b || rnRefines m n || rnLexobetter m n

/-- The loop of `rn_addroute` along a chain, which is left as it is if there is such a route. -/
def insert (x : Route) : List Route → List Route
  | [] => [x]
  | tt :: chain =>
    if tt = x then tt :: chain
    else if before x tt then x :: tt :: chain
    else tt :: insert x chain

/-- `rn_delete` on a chain: without a mask it takes the first route. -/
def remove : Route → List Route → List Route
  | none, chain => chain.tail
  | x, chain => chain.erase x

/-- Calls with a key and a netmask, or none. -/
inductive Call where
  | addroute (v : Bytes) (netmask : Option Bytes)
  /-- `refused` if the annotations of the tree are found inconsistent, or the route is the root's -/
  | delete (v : Bytes) (netmask : Option Bytes) (refused : Bool)

/-- The chain of each key. -/
abbrev Chains := Bytes → List Route

/-- `skip` is `rn_off` of the top of the tree. -/
def step (skip : ℕ) (s : Chains) : Call → Option Chains
  | .addroute v netmask =>
    some (Function.update s v (insert (netmask.map (rnAddmask skip)) (s v)))
  | .delete v netmask refused =>
    some (if refused then s
      else Function.update s v (remove (netmask.map (rnAddmask skip)) (s v)))

/-! ## Refinement -/

section Refinement

variable {c d : BitVec 8} {m n : Bytes}

/-- A mask has all the one bits of another. -/
def Covers (m n : Bytes) : Prop := ∀ i, n.getD i 0 &&& ~~~m.getD i 0 = 0

/-- One route is strictly more specific than another. -/
def Refines : Route → Route → Prop
  | _, none => False
  | none, some _ => True
  | some m, some n => Covers m.bytes n.bytes ∧ ¬ Covers n.bytes m.bytes

theorem covers_cons : Covers (d :: m) (c :: n) ↔ c &&& ~~~d = 0 ∧ Covers m n :=
  Nat.and_forall_add_one.symm

theorem covers_nil : Covers m [] := fun _ => BitVec.zero_and

theorem nil_covers : Covers [] n ↔ n.any (· ≠ 0) = false := by
  induction n with
  | nil => simp [covers_nil]
  | cons c n ih =>
    have cons : Covers [] (c :: n) ↔ c &&& ~~~0 = 0 ∧ Covers [] n := Nat.and_forall_add_one.symm
    rw [cons, ih, show c &&& ~~~0 = c from BitVec.and_allOnes]
    simp

theorem and_not_comm_iff (h : c &&& ~~~d = 0) : d &&& ~~~c = 0 ↔ c = d := by
  refine ⟨fun h' => BitVec.eq_of_getLsbD_eq fun i hi => ?_, fun h => by simp [h]⟩
  have hc := congrArg (BitVec.getLsbD · i) h
  have hd := congrArg (BitVec.getLsbD · i) h'
  grind

theorem refinesLoop_iff (eq : Bool) :
    refinesLoop n m eq = true ↔ Covers m n ∧ (eq = true → ¬ Covers n m) := by
  induction n, m, eq using refinesLoop.induct with
  | case1 c n d m eq h => simp_all [refinesLoop, covers_cons]
  | case2 c n d m eq h ih =>
    rw [not_not] at h
    rw [refinesLoop, if_neg (not_not.mpr h), ih, covers_cons, covers_cons, and_not_comm_iff h]
    grind
  | case3 | case4 | case5 => simp_all [refinesLoop, nil_covers, covers_nil]
  | case6 m eq h =>
    simp_all [refinesLoop, nil_covers, covers_nil]
    grind

theorem rnRefines_iff (m n : Mask) : rnRefines m n = true ↔ Refines (some m) (some n) := by
  simp [rnRefines, refinesLoop_iff, Refines]

theorem Covers.trans {k : Bytes} (h : Covers k m) (h' : Covers m n) : Covers k n := by
  intro i
  refine BitVec.eq_of_getLsbD_eq fun j hj => ?_
  have hk := congrArg (BitVec.getLsbD · j) (h i)
  have hm := congrArg (BitVec.getLsbD · j) (h' i)
  grind

theorem Covers.drop (h : Covers m n) (k : ℕ) : Covers (m.drop k) (n.drop k) := by
  intro i
  simpa [getD_eq_getElem?_getD] using h (k + i)

/-! ### What the tests have in common -/

/-- A mask with more ones has at least the index. -/
theorem Covers.maskIndex_le (h : Covers m n) : maskIndex n ≤ maskIndex m := by
  induction n generalizing m with
  | nil => exact Nat.zero_le _
  | cons c n ih =>
    cases m with
    | nil =>
      have hzero : c = 0 ∧ ∀ x ∈ n, x = 0 := by simpa using nil_covers.mp h
      rw [hzero.1]
      exact Nat.zero_le _
    | cons d m =>
      obtain ⟨hcd, hrest⟩ := covers_cons.mp h
      have hbit : ∀ i, c.getMsbD i = true → d.getMsbD i = true := by
        intro i hi
        have := congrArg (BitVec.getMsbD · i) hcd
        grind
      have hones : ((range 8).takeWhile c.getMsbD).length ≤
          ((range 8).takeWhile d.getMsbD).length := by
        have hsame : (range 8).takeWhile c.getMsbD =
            ((range 8).takeWhile d.getMsbD).takeWhile c.getMsbD := by
          rw [takeWhile_takeWhile]
          congr 1
          funext i
          exact Bool.eq_iff_iff.mpr (by simpa using hbit i)
        rw [hsame]
        exact (takeWhile_sublist _).length_le
      have hfull : c = 255 → d = 255 := by
        rintro rfl
        exact BitVec.eq_of_getMsbD_eq fun i hi => by
          rw [hbit i (by interval_cases i <;> rfl)]
          interval_cases i <;> rfl
      have height : ((range 8).takeWhile c.getMsbD).length ≤ 8 :=
        (takeWhile_sublist _).length_le
      have := ih hrest
      simp only [maskIndex]
      split_ifs with hc hd hd
      · omega
      · exact absurd (hfull hc) hd
      · omega
      · exact hones

theorem le_of_and_not (h : c &&& ~~~d = 0) : c ≤ d := by
  have hc : c = c &&& d := by
    refine BitVec.eq_of_getLsbD_eq fun i hi => ?_
    have := congrArg (BitVec.getLsbD · i) h
    grind
  rw [hc]
  exact Nat.and_le_right

theorem Covers.length_le (h : Covers m n) (last : ∀ c ∈ n.getLast?, c ≠ 0) :
    n.length ≤ m.length := by
  rcases n.eq_nil_or_concat' with rfl | ⟨l, c, rfl⟩
  · exact Nat.zero_le _
  · by_contra hlt
    rw [length_append, length_singleton] at hlt
    refine last c (by simp) ?_
    have hzero : m[l.length]? = none := getElem?_eq_none (by omega)
    have hc : c &&& ~~~0 = 0 := by simpa [getD_eq_getElem?_getD, hzero] using h l.length
    exact BitVec.le_zero_iff.mp (le_of_and_not hc)

theorem Covers.any_gt (h : Covers m n) : ((n.zip m).any fun p => p.1 > p.2) = false := by
  induction n generalizing m with
  | nil => rfl
  | cons c n ih =>
    cases m with
    | nil => rfl
    | cons d m =>
      obtain ⟨hcd, hrest⟩ := covers_cons.mp h
      rw [zip_cons_cons, any_cons, ih hrest, Bool.or_false]
      exact decide_eq_false (BitVec.not_lt.mpr (le_of_and_not hcd))

end Refinement

/-- **A mask as `rn_addmask` makes it.** -/
structure Normal (skip : ℕ) (m : Mask) : Prop where
  last : ∀ c ∈ m.bytes.getLast?, c ≠ 0
  index : m.b = if m.bytes = [] then (-1 : ℤ)
    else -1 - (8 * atLeastOne skip + maskIndex (m.bytes.drop (atLeastOne skip - 1)) : ℕ)

theorem normal_rnAddmask (skip : ℕ) (netmask : Bytes) : Normal skip (rnAddmask skip netmask) := by
  have hpos : 0 < atLeastOne skip := by
    unfold atLeastOne
    split <;> omega
  unfold rnAddmask
  dsimp only
  split_ifs with hshort
  · exact ⟨by simp, rfl⟩
  · generalize hkey : (replicate (atLeastOne skip - 1) 255 ++
      netmask.drop (atLeastOne skip - 1)).rdropWhile (· = 0) = key at hshort ⊢
    have hne : key ≠ [] := by
      rintro rfl
      exact hshort hpos
    refine ⟨fun c hc => ?_, (if_neg hne).symm⟩
    subst hkey
    rw [getLast?_eq_getLast_of_ne_nil hne, Option.mem_some_iff] at hc
    subst hc
    simpa using rdropWhile_last_not _ _ hne

section Tests

variable {skip : ℕ} {m n : Mask} (hm : Normal skip m) (hn : Normal skip n)

include hm hn

theorem Normal.b_le (h : Covers n.bytes m.bytes) : n.b ≤ m.b := by
  have hlen := h.length_le hm.last
  have hindex := (h.drop (atLeastOne skip - 1)).maskIndex_le
  rw [hm.index, hn.index]
  split_ifs with hn0 hm0 hm0
  · exact le_rfl
  · rw [hn0, length_nil, Nat.le_zero, length_eq_zero_iff] at hlen
    exact absurd hlen hm0
  · omega
  · omega

/-- **No test puts a route before one that refines it.** -/
theorem Normal.before_eq_false (h : Refines (some n) (some m)) :
    before (some m) (some n) = false := by
  have hlen := h.1.length_le hm.last
  have hrefines : rnRefines m n = false := by
    rw [Bool.eq_false_iff, ne_eq, rnRefines_iff]
    exact fun h' => h.2 h'.1
  have hlexo : rnLexobetter m n = false := by
    rw [rnLexobetter, if_neg (not_lt.mpr hlen), h.1.any_gt, Bool.and_false]
  simp [before, hrefines, hlexo, hm.b_le hn h.1]

end Tests

/-! ## The order of a chain -/

variable {skip : ℕ} {x y tt : Route} {chain : List Route} {s t : Chains}

theorem before_of_refines (h : Refines x tt) : before x tt = true := by
  rcases x with - | m <;> rcases tt with - | n
  · rfl
  · rfl
  · exact h.elim
  · simp [before, (rnRefines_iff m n).mpr h]

theorem not_refines_self : ¬ Refines x x := by
  rcases x <;> simp [Refines]

theorem Refines.trans (h : Refines y x) (h' : Refines x tt) : Refines y tt := by
  rcases tt with - | n
  · exact h'.elim
  rcases y with - | k
  · trivial
  rcases x with - | m
  · exact h.elim
  · exact ⟨h.1.trans h'.1, fun hback => h.2 (h'.1.trans hback)⟩

/-- No route strictly refines one that comes before it. -/
def Ordered (chain : List Route) : Prop := chain.Pairwise fun e e' => ¬ Refines e' e

/-- The masks of a chain are as `rn_addmask` makes them. -/
def AllNormal (skip : ℕ) (chain : List Route) : Prop := ∀ m, some m ∈ chain → Normal skip m

/-- The index or `rn_lexobetter` puts a mask before another, though neither refines the other. -/
def Misled : Route → Route → Prop
  | some m, some n =>
    rnRefines m n = false ∧ rnRefines n m = false ∧ (m.b < n.b ∨ rnLexobetter m n = true)
  | _, _ => False

/-- **The place of a new route is clear**: what strictly refines it is not behind a mask before
which it is put for no good reason. -/
def Clear (x : Route) (chain : List Route) : Prop :=
  ∀ tt rest, tt :: rest <:+ chain → Misled x tt → ∀ y ∈ rest, ¬ Refines y x

theorem Clear.of_forall (h : ∀ y ∈ chain, ¬ Refines y x) : Clear x chain :=
  fun tt _ hs _ y hy => h y (hs.mem (mem_cons_of_mem tt hy))

theorem mem_insert (h : y ∈ insert x chain) : y = x ∨ y ∈ chain := by
  fun_induction insert x chain <;> grind

/-- What is behind a route that the new one is put before does not refine the new one, if the place
is clear. -/
theorem not_refines_of_before (normal : ∀ m, x = some m → Normal skip m)
    (all : AllNormal skip (tt :: chain)) (h : Ordered (tt :: chain)) (hb : before x tt = true)
    (clear : Clear x (tt :: chain)) : ∀ y ∈ tt :: chain, ¬ Refines y x := by
  intro y hy hr
  rcases x with - | m
  · cases y <;> exact hr
  rcases tt with - | n
  · cases hb
  have hback : ¬ Refines (some n) (some m) := fun hr' => by
    rw [(normal m rfl).before_eq_false (all n (mem_cons_self ..)) hr'] at hb
    cases hb
  rcases mem_cons.mp hy with rfl | hy
  · exact hback hr
  · by_cases hforth : Refines (some m) (some n)
    · exact (pairwise_cons.mp h).1 y hy (hr.trans hforth)
    · have hmn : rnRefines m n = false := Bool.eq_false_iff.mpr (mt (rnRefines_iff m n).mp hforth)
      refine clear (some n) chain (suffix_refl _) ⟨hmn, ?_, ?_⟩ y hy hr
      · exact Bool.eq_false_iff.mpr (mt (rnRefines_iff n m).mp hback)
      · simpa [before, hmn] using hb

/-- **Where a new route goes**: the chain stays in order exactly if the place was clear. -/
theorem insert_ordered_iff (normal : ∀ m, x = some m → Normal skip m) (all : AllNormal skip chain)
    (h : Ordered chain) : Ordered (insert x chain) ↔ Clear x chain := by
  fun_induction insert x chain with
  | case1 => exact iff_of_true (pairwise_singleton _ _) (.of_forall (by simp))
  | case2 chain =>
    refine iff_of_true h (.of_forall (forall_mem_cons.mpr ⟨not_refines_self, ?_⟩))
    exact (pairwise_cons.mp h).1
  | case3 tt chain hne hb =>
    refine pairwise_cons.trans ((and_iff_left h).trans ⟨.of_forall, fun clear => ?_⟩)
    exact not_refines_of_before normal all h hb clear
  | case4 tt chain hne hb ih =>
    obtain ⟨htt, hchain⟩ := pairwise_cons.mp h
    have hrest : AllNormal skip chain := fun m hmem => all m (mem_cons_of_mem _ hmem)
    refine pairwise_cons.trans ((and_iff_right fun y hy => ?_).trans ((ih hrest hchain).trans ?_))
    · rcases mem_insert hy with rfl | hy
      · exact fun hr => hb (before_of_refines hr)
      · exact htt y hy
    · -- the first route is not one that the new one is put before
      have hnot : ¬ Misled x tt := by
        rintro hmis
        rcases x with - | m <;> rcases tt with - | n
        · exact hmis
        · exact hmis
        · exact hmis
        · refine hb ?_
          simpa [before, hmis.1] using hmis.2.2
      refine forall₂_congr fun t rest => ?_
      rw [suffix_cons_iff]
      grind

theorem remove_ordered (h : Ordered chain) : Ordered (remove x chain) := by
  cases x with
  | none => exact h.tail
  | some m => exact h.sublist erase_sublist

/-! ## Sequences of calls -/

/-- Every chain is in order. -/
def AllOrdered (s : Chains) : Prop := ∀ v, Ordered (s v)

/-- The place of a route that is added is clear. -/
def GoesRight (skip : ℕ) (s : Chains) : Call → Prop
  | .addroute v netmask => Clear (netmask.map (rnAddmask skip)) (s v)
  | .delete .. => True

theorem forall_update {P : List Route → Prop} (h : ∀ v, P (s v)) (v : Bytes) :
    (∀ w, P (Function.update s v chain w)) ↔ P chain :=
  ⟨fun all => by simpa using all v, fun hc w => by
    rcases eq_or_ne w v with rfl | hw
    · simpa using hc
    · simpa [hw] using h w⟩

theorem normal_map (netmask : Option Bytes) (m : Mask)
    (h : netmask.map (rnAddmask skip) = some m) : Normal skip m := by
  obtain ⟨a, -, rfl⟩ := Option.map_eq_some_iff.mp h
  exact normal_rnAddmask skip a

theorem remove_subset : remove x chain ⊆ chain := by
  cases x with
  | none => exact tail_subset _
  | some m => exact erase_subset

theorem step_normal {a : Call} (h : ∀ v, AllNormal skip (s v)) (ht : step skip s a = some t) :
    ∀ v, AllNormal skip (t v) := by
  cases a with
  | addroute v netmask =>
    cases ht
    refine (forall_update h v).mpr fun m hm => ?_
    rcases mem_insert hm with hnew | hold
    · exact normal_map netmask m hnew.symm
    · exact h v m hold
  | delete v netmask refused =>
    cases ht
    split
    · exact h
    · exact (forall_update h v).mpr fun m hm => h v m (remove_subset hm)

theorem step_ordered_iff {a : Call} (all : ∀ v, AllNormal skip (s v)) (h : AllOrdered s)
    (ht : step skip s a = some t) : AllOrdered t ↔ GoesRight skip s a := by
  cases a with
  | addroute v netmask =>
    cases ht
    exact (forall_update h v).trans (insert_ordered_iff (normal_map netmask) (all v) (h v))
  | delete v netmask refused =>
    cases ht
    refine iff_of_true ?_ trivial
    split
    · exact h
    · exact (forall_update h v).mpr (remove_ordered (h v))

/-- The tree at first: two routes without masks, for the keys of zeros and of ones. -/
def initial (zeros ones : Bytes) : Chains := fun v =>
  if v = zeros ∨ v = ones then [none] else []

end BSDLite2.Radix
