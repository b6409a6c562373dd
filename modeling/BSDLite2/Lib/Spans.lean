import BSDLite2.Lib.Pieces

/-!
# Queues of records with numbers of their own

`Pieces` is about non-empty pieces of a stream, at positions that the records of a program
represent faithfully.  Here records may be empty, positions may be negative, and the fields of
the records may be too small for a position.

* `forall_enqueue` — insertion keeps what holds of every record and of its rests;
* `head_enqueue` — the first record is never cut;
* `Queue.Linear` — the operations compute with positions as integers;
* `Linear.inOrder_enqueue` — then the queue stays in order, and its records disjoint;
* `Queue.Mirrors` — a queue does what another one does, as long as the other one's records are
  representable;
* `Mirrors.enqueue_map` — insertion is the same if the result is representable;
* `Mirrors.enqueue_broken` — if it is not, the first record that is not comes right behind the
  one that cut it.
-/

namespace BSDLite2.Pieces.Queue

open List Option

universe u v

variable {C : Type u} {D : Type v}

/-! ## Properties of single records -/

section Forall

variable {o : Queue C} {P : C → Prop} {c : C} {qs : List C}

theorem forall_trimSucceeding (hcut : ∀ i a, 0 < i → i < o.len a → P a → P (o.cut i a))
    (hqs : ∀ q ∈ qs, P q) : ∀ q ∈ o.trimSucceeding c qs, P q := by
  induction qs with
  | nil => exact hqs
  | cons a qs ih =>
    obtain ⟨ha, hrest⟩ := forall_mem_cons.mp hqs
    rw [trimSucceeding]
    split_ifs with hapart hpart
    · exact hqs
    · exact forall_mem_cons.mpr ⟨hcut _ a (not_le.mp hapart) hpart ha, hrest⟩
    · exact ih hrest

/-- What insertion does to the queue. -/
theorem enqueue_eq_some {qs' : List C} (henq : o.enqueue c qs = some qs') :
    ∃ before behind c', qs = before ++ behind ∧
      o.trimByPreceding c before.getLast? = some c' ∧
      qs' = before ++ c' :: o.trimSucceeding c' behind := by
  obtain ⟨c', htrim, rfl⟩ := Option.map_eq_some_iff.mp henq
  exact ⟨_, _, c', takeWhile_append_dropWhile.symm, htrim, rfl⟩

/-- What cutting keeps, insertion keeps. -/
theorem forall_enqueue (hcut : ∀ i a, 0 < i → i < o.len a → P a → P (o.cut i a)) (hc : P c)
    (hqs : ∀ q ∈ qs, P q) {qs' : List C} (henq : o.enqueue c qs = some qs') : ∀ q ∈ qs', P q := by
  obtain ⟨before, behind, c', rfl, htrim, rfl⟩ := enqueue_eq_some henq
  obtain ⟨hbefore, hbehind⟩ := forall_mem_append.mp hqs
  have hc' : P c' := by
    cases hlast : before.getLast? with
    | none =>
      rw [hlast] at htrim
      cases htrim
      exact hc
    | some a =>
      rw [hlast, trimByPreceding] at htrim
      split_ifs at htrim with hover hall
      · cases htrim
        exact hcut _ c hover (not_le.mp hall) hc
      · cases htrim
        exact hc
  refine forall_mem_append.mpr ⟨hbefore, forall_mem_cons.mpr ⟨hc', ?_⟩⟩
  exact forall_trimSucceeding hcut hbehind

/-- The first record of the queue stays, or the new one, whole, is put before it. -/
theorem head_enqueue {qs' : List C} (henq : o.enqueue c qs = some qs') :
    (∃ q, qs.head? = some q ∧ o.startsAfter q c = false ∧ qs'.head? = some q) ∨
      ((∀ q ∈ qs.head?, o.startsAfter q c = true) ∧ qs'.head? = some c) := by
  unfold enqueue at henq
  cases qs with
  | nil =>
    cases henq
    exact Or.inr ⟨nofun, rfl⟩
  | cons q qs =>
    cases hafter : o.startsAfter q c with
    | false =>
      simp only [takeWhile_cons, dropWhile_cons, hafter, Bool.not_false, if_true] at henq
      obtain ⟨c', -, rfl⟩ := Option.map_eq_some_iff.mp henq
      exact Or.inl ⟨q, rfl, hafter, rfl⟩
    | true =>
      simp only [takeWhile_cons, dropWhile_cons, hafter, Bool.not_true,
        Bool.false_eq_true, if_false] at henq
      cases henq
      refine Or.inr ⟨fun q' hq' => ?_, rfl⟩
      cases hq'
      exact hafter

end Forall

/-! ## Order -/

/-- The records lie on a line: from `off` on for `len` positions. -/
structure Linear (o : Queue C) (off : C → ℤ) : Prop where
  startsAfter : ∀ a b, o.startsAfter a b = decide (off b < off a)
  overlap : ∀ a b, o.overlap a b = off a + o.len a - off b
  off_cut : ∀ i a, off (o.cut i a) = off a + i
  len_cut : ∀ i a, o.len (o.cut i a) = o.len a - i

/-- Every record ends before the next ones begin. -/
def InOrder (o : Queue C) (off : C → ℤ) (qs : List C) : Prop :=
  qs.Pairwise fun a b => off a + o.len a ≤ off b

section Order

variable {o : Queue C} {off : C → ℤ} {c : C} {qs : List C}

theorem Linear.trimSucceeding_spec (h : o.Linear off) (hq : ∀ q ∈ qs, 0 ≤ o.len q)
    (hord : o.InOrder off qs) :
    (∀ q ∈ o.trimSucceeding c qs, 0 ≤ o.len q ∧ off c + o.len c ≤ off q) ∧
      o.InOrder off (o.trimSucceeding c qs) := by
  induction qs with
  | nil => exact ⟨fun q hq => absurd hq not_mem_nil, List.Pairwise.nil⟩
  | cons a qs ih =>
    obtain ⟨hfirst, hrest⟩ := pairwise_cons.mp hord
    obtain ⟨ha, hqs⟩ := forall_mem_cons.mp hq
    have hbehind (q : C) (hmem : q ∈ qs) (hend : off c + o.len c ≤ off a + o.len a) :
        0 ≤ o.len q ∧ off c + o.len c ≤ off q := ⟨hqs q hmem, hend.trans (hfirst q hmem)⟩
    rw [trimSucceeding, h.overlap]
    split_ifs with hapart hpart
    · refine ⟨forall_mem_cons.mpr ⟨⟨ha, by omega⟩, fun q hmem => ?_⟩, hord⟩
      exact hbehind q hmem (by omega)
    · refine ⟨forall_mem_cons.mpr ⟨?_, fun q hmem => hbehind q hmem (by omega)⟩,
        pairwise_cons.mpr ⟨fun q hmem => ?_, hrest⟩⟩
      · rw [h.len_cut, h.off_cut]
        omega
      · have := hfirst q hmem
        rw [h.len_cut, h.off_cut]
        omega
    · exact ih hqs hrest

theorem Linear.trimByPreceding_spec (h : o.Linear off) (hc : 0 ≤ o.len c) {p : Option C} {c' : C}
    (htrim : o.trimByPreceding c p = some c') :
    0 ≤ o.len c' ∧ ∀ a ∈ p, off a + o.len a ≤ off c' := by
  cases p with
  | none =>
    cases htrim
    exact ⟨hc, nofun⟩
  | some a =>
    rw [trimByPreceding, h.overlap] at htrim
    split_ifs at htrim with hover hall
    · cases htrim
      rw [h.len_cut]
      refine ⟨by omega, fun b hb => ?_⟩
      cases hb
      rw [h.off_cut]
      omega
    · cases htrim
      refine ⟨hc, fun b hb => ?_⟩
      cases hb
      omega

/-- Every record but the last ends before the last one does. -/
theorem InOrder.le_last (hq : ∀ q ∈ qs, 0 ≤ o.len q) (hord : o.InOrder off qs) {x : ℤ}
    (hlast : ∀ a ∈ qs.getLast?, off a + o.len a ≤ x) : ∀ q ∈ qs, off q + o.len q ≤ x := by
  rcases qs.eq_nil_or_concat' with rfl | ⟨pre, a, rfl⟩
  · exact fun q hq => absurd hq not_mem_nil
  · have ha : off a + o.len a ≤ x := hlast a (by simp)
    have hlen : 0 ≤ o.len a := hq a (by simp)
    intro q hmem
    rcases mem_append.mp hmem with hpre | hsingle
    · have := (pairwise_append.mp hord).2.2 q hpre a (by simp)
      omega
    · rwa [mem_singleton.mp hsingle]

/-- **Insertion keeps the order.** -/
theorem Linear.inOrder_enqueue (h : o.Linear off) (hc : 0 ≤ o.len c) (hq : ∀ q ∈ qs, 0 ≤ o.len q)
    (hord : o.InOrder off qs) {qs' : List C} (henq : o.enqueue c qs = some qs') :
    (∀ q ∈ qs', 0 ≤ o.len q) ∧ o.InOrder off qs' := by
  obtain ⟨before, behind, c', rfl, htrim, rfl⟩ := enqueue_eq_some henq
  obtain ⟨hbefore, hbehind, -⟩ := pairwise_append.mp hord
  have hqbefore : ∀ q ∈ before, 0 ≤ o.len q := fun q hmem => hq q (mem_append_left _ hmem)
  have hqbehind : ∀ q ∈ behind, 0 ≤ o.len q := fun q hmem => hq q (mem_append_right _ hmem)
  obtain ⟨hc', hlast⟩ := h.trimByPreceding_spec hc htrim
  obtain ⟨hrest, hordrest⟩ := h.trimSucceeding_spec hqbehind hbehind
  have hends := InOrder.le_last hqbefore hbefore hlast
  constructor
  · intro q hmem
    rcases mem_append.mp hmem with hmem | hmem
    · exact hqbefore q hmem
    · rcases mem_cons.mp hmem with rfl | hmem
      · exact hc'
      · exact (hrest q hmem).1
  · refine pairwise_append.mpr ⟨hbefore, pairwise_cons.mpr
      ⟨fun q hmem => (hrest q hmem).2, hordrest⟩, fun a ha q hmem => ?_⟩
    have hend := hends a ha
    rcases mem_cons.mp hmem with rfl | hmem
    · exact hend
    · have := (hrest q hmem).2
      omega

end Order

/-! ## Representation -/

/-- **A queue mirrors another one**: comparisons are the same for the records `f` gives, and so
is cutting a record, if the result is representable. -/
structure Mirrors (o : Queue C) (o' : Queue D) (f : C → D) (ok : D → Prop) : Prop where
  startsAfter : ∀ a b, o.startsAfter a b = o'.startsAfter (f a) (f b)
  overlap : ∀ a b, o.overlap a b = o'.overlap (f a) (f b)
  len : ∀ a, o.len a = o'.len (f a)
  cut : ∀ i a, 0 < i → i < o.len a → ok (o'.cut i (f a)) → f (o.cut i a) = o'.cut i (f a)

section Representation

variable {o : Queue C} {o' : Queue D} {f : C → D} {ok : D → Prop} {c : C} {qs : List C}

variable (h : o.Mirrors o' f ok)

include h

theorem Mirrors.trimSucceeding_map (hok : ∀ q ∈ o'.trimSucceeding (f c) (qs.map f), ok q) :
    (o.trimSucceeding c qs).map f = o'.trimSucceeding (f c) (qs.map f) := by
  induction qs with
  | nil => rfl
  | cons a qs ih =>
    rw [map_cons, trimSucceeding] at hok ⊢
    rw [trimSucceeding, h.overlap, h.len]
    split_ifs at hok ⊢ with hapart hpart
    · rfl
    · rw [map_cons, h.cut _ a (by omega) (by rw [h.len]; exact hpart)
        (hok _ (mem_cons_self ..))]
    · exact ih hok

theorem Mirrors.trimByPreceding_map (p : Option C)
    (hok : ∀ d ∈ o'.trimByPreceding (f c) (p.map f), ok d) :
    (o.trimByPreceding c p).map f = o'.trimByPreceding (f c) (p.map f) := by
  cases p with
  | none => rfl
  | some a =>
    rw [map_some, trimByPreceding] at hok ⊢
    rw [trimByPreceding, h.overlap, h.len]
    split_ifs at hok ⊢ with hover hall
    · rfl
    · rw [map_some, h.cut _ c (by omega) (by rw [h.len]; omega) (hok _ rfl)]
    · rfl

theorem Mirrors.split_map (c : C) (qs : List C) :
    ((qs.map f).takeWhile fun q => !o'.startsAfter q (f c)) =
      (qs.takeWhile fun q => !o.startsAfter q c).map f ∧
    ((qs.map f).dropWhile fun q => !o'.startsAfter q (f c)) =
      (qs.dropWhile fun q => !o.startsAfter q c).map f := by
  have hcomp : ((fun q => !o'.startsAfter q (f c)) ∘ f) = fun q => !o.startsAfter q c := by
    funext q
    exact congrArg _ (h.startsAfter q c).symm
  rw [takeWhile_map, dropWhile_map, hcomp]
  exact ⟨rfl, rfl⟩

/-- **Insertion is the same** if the result is representable. -/
theorem Mirrors.enqueue_map (hok : ∀ ds ∈ o'.enqueue (f c) (qs.map f), ∀ d ∈ ds, ok d) :
    (o.enqueue c qs).map (List.map f) = o'.enqueue (f c) (qs.map f) := by
  obtain ⟨hbefore, hbehind⟩ := h.split_map c qs
  simp only [enqueue, hbefore, hbehind, getLast?_map] at hok ⊢
  generalize qs.takeWhile (fun q => !o.startsAfter q c) = before at hok ⊢
  generalize qs.dropWhile (fun q => !o.startsAfter q c) = behind at hok ⊢
  have htrim : (o.trimByPreceding c before.getLast?).map f =
      o'.trimByPreceding (f c) (before.getLast?.map f) := by
    refine h.trimByPreceding_map _ fun d hd => ?_
    exact hok _ (Option.map_eq_some_iff.mpr ⟨d, hd, rfl⟩) d (by simp)
  rw [← htrim] at hok ⊢
  cases hc : o.trimByPreceding c before.getLast? with
  | none => rfl
  | some c' =>
    rw [hc] at hok
    have hrest : (o.trimSucceeding c' behind).map f =
        o'.trimSucceeding (f c') (behind.map f) :=
      h.trimSucceeding_map fun d hd => hok _ rfl d (by simp [hd])
    simp [hrest]

/-- A record that is cut in the queue is the first behind the one that cuts it. -/
theorem Mirrors.trimSucceeding_broken (hqs : ∀ q ∈ qs, ok (f q))
    (hbad : ∃ d ∈ o'.trimSucceeding (f c) (qs.map f), ¬ ok d) :
    ∃ b suf, o.trimSucceeding c qs = o.cut (o.overlap c b) b :: suf ∧
      0 < o.overlap c b ∧ o.overlap c b < o.len b ∧ ¬ ok (o'.cut (o.overlap c b) (f b)) := by
  induction qs with
  | nil =>
    obtain ⟨d, hd, -⟩ := hbad
    exact absurd hd not_mem_nil
  | cons a qs ih =>
    obtain ⟨ha, hrest⟩ := forall_mem_cons.mp hqs
    have hold : ∀ d ∈ qs.map f, ok d := forall_mem_map.mpr hrest
    obtain ⟨d, hd, hnot⟩ := hbad
    rw [map_cons, trimSucceeding, ← h.overlap, ← h.len] at hd
    rw [trimSucceeding]
    split_ifs at hd ⊢ with hapart hpart
    · rcases mem_cons.mp hd with rfl | hd
      · exact absurd ha hnot
      · exact absurd (hold d hd) hnot
    · rcases mem_cons.mp hd with rfl | hd
      · exact ⟨a, qs, rfl, not_le.mp hapart, hpart, hnot⟩
      · exact absurd (hold d hd) hnot
    · exact ih hrest ⟨d, hd, hnot⟩

/-- **If the result is not representable**, the first record that is not comes right behind the
one that cut it. -/
theorem Mirrors.enqueue_broken (hc : ok (f c)) (hqs : ∀ q ∈ qs, ok (f q)) {ds : List D}
    (hds : o'.enqueue (f c) (qs.map f) = some ds) (hbad : ∃ d ∈ ds, ¬ ok d) :
    ∃ pre a b suf, o.enqueue c qs = some (pre ++ a :: o.cut (o.overlap a b) b :: suf) ∧
      0 < o.overlap a b ∧ o.overlap a b < o.len b ∧ ¬ ok (o'.cut (o.overlap a b) (f b)) := by
  obtain ⟨hbefore, hbehind⟩ := h.split_map c qs
  have hsplit := takeWhile_append_dropWhile (p := fun q => !o.startsAfter q c) (l := qs)
  simp only [enqueue, hbefore, hbehind, getLast?_map] at hds ⊢
  generalize qs.takeWhile (fun q => !o.startsAfter q c) = before at hsplit hds
  generalize qs.dropWhile (fun q => !o.startsAfter q c) = behind at hsplit hds
  subst hsplit
  have hqbehind : ∀ q ∈ behind, ok (f q) := fun q hq => hqs q (mem_append_right _ hq)
  by_cases htrimok : ∀ d ∈ o'.trimByPreceding (f c) (before.getLast?.map f), ok d
  · -- the new record is representable, so one behind it is not
    rw [← h.trimByPreceding_map _ htrimok, Option.map_map] at hds
    obtain ⟨c', hc', rfl⟩ := Option.map_eq_some_iff.mp hds
    obtain ⟨d, hd, hnot⟩ := hbad
    have hokc' : ok (f c') := by
      refine htrimok _ ?_
      rw [← h.trimByPreceding_map _ htrimok, hc']
      rfl
    have hsucc : ∃ d ∈ o'.trimSucceeding (f c') (behind.map f), ¬ ok d := by
      refine ⟨d, ?_, hnot⟩
      rcases mem_append.mp hd with hd | hd
      · obtain ⟨q, hq, rfl⟩ := mem_map.mp hd
        exact absurd (hqs q (mem_append_left _ hq)) hnot
      · rcases mem_cons.mp hd with rfl | hd
        · exact absurd hokc' hnot
        · exact hd
    obtain ⟨b, suf, hcut, hpos, hlt, hb⟩ := h.trimSucceeding_broken hqbehind hsucc
    exact ⟨before, c', b, suf, by rw [hc', map_some, hcut], hpos, hlt, hb⟩
  · -- the new record itself is not
    push Not at htrimok
    obtain ⟨d, hd, hnot⟩ := htrimok
    rcases before.eq_nil_or_concat' with rfl | ⟨pre, a, rfl⟩
    · cases hd
      exact absurd hc hnot
    · simp only [getLast?_append, getLast?_singleton,
        some_or, map_some, trimByPreceding, ← h.overlap, ← h.len] at hd ⊢
      split_ifs at hd ⊢ with hover hall
      · cases hd
      · cases hd
        exact ⟨pre, a, c, o.trimSucceeding (o.cut (o.overlap a c) c) behind, by simp, hover,
          not_le.mp hall, hnot⟩
      · cases hd
        exact absurd hc hnot

end Representation

end BSDLite2.Pieces.Queue
