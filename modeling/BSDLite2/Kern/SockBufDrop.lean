import BSDLite2.Kern.SockBufAdd

/-!
# Removing from a socket buffer

`sbdrop` removes bytes from the front of the buffer, across mbufs and records;
`sbdroprecord` removes the first record and `sbflush` everything.  As in
`SockBufAdd`, each is given as a function on the list of records, with the proof
that the code computes it: `sbdrop_eq`, `sbdroprecord_eq`, `sbflush_eq`.  Empty mbufs
are where the loops differ from what one would write: `sbdrop` frees those behind the
bytes it removes, but not those of the records after.
-/

namespace BSDLite2.SockBuf

open Heap

variable {np : Option ℕ} {r : Record}

/-- An mbuf without its first `len` bytes. -/
def shorten (len : ℕ) (v : MbufBody) : MbufBody :=
  { v with dat := v.dat.drop len, mOff := v.mOff + len }

/-- What the first loop of `sbdrop` leaves of a record. -/
def dropBytes : ℕ → Record → Record
  | _, [] => []
  | len, x :: r =>
    if len = 0 then x :: r
    else if x.2.mLen > len then (x.1, shorten len x.2) :: r
    else dropBytes (len - x.2.mLen) r

/-- What the first loop of `sbdrop` leaves: the rest of the record it stops in,
and the records behind. -/
def dropLoop : ℕ → List Record → Record × List Record
  | _, [] => ([], [])
  | len, r :: q =>
    if len ≤ lenSum r then (dropBytes len r, q) else dropLoop (len - lenSum r) q

/-- An mbuf without data. -/
def isEmpty (x : Node) : Bool := decide (x.2.mLen = 0)

/-- A record put back in front, unless nothing is left of it. -/
def putBack (r : Record) (q : List Record) : List Record :=
  match r with
  | [] => q
  | x :: l => (x :: l) :: q

/-- **The records after `sbdrop`.** -/
def dropL (len : ℕ) (q : List Record) : List Record :=
  putBack ((dropLoop len q).1.dropWhile isEmpty) (dropLoop len q).2

theorem exchange_cons (sb : Sockbuf) (x : Node) (r s : Record) :
    (sbfree sb x.2).exchange r s = sb.exchange (x :: r) s := by
  ext <;> simp <;> omega

/-! ## Inside a record -/

section Loop

variable {F : List (ℕ × Mbuf)}

/-- The heap once the first mbuf of a record is freed. -/
theorem owns_sbMfree {mem : Mem Mbuf} {x : Node} {l : Record}
    (ho : mem.Owns (recCells np none (x :: l) ++ F)) :
    (mem.free x.1).Owns (recCells none none l ++ F) := by
  rw [recCells_none]
  exact ho.free (L := [])

/-- The first loop of `sbdrop` stops inside the record. -/
theorem sbdropLoop_inside (len : ℕ) (st : St) (next : Option ℕ) (fuel : ℕ) (hlen : len ≤ lenSum r)
    (hfuel : r.length < fuel) (ho : st.mem.Owns (recCells np none r ++ F)) :
    ∃ mem' np', sbdropLoop fuel st (head none r) next len =
        .ok (⟨mem', st.sb.exchange r (dropBytes len r)⟩, head none (dropBytes len r), next) ∧
      mem'.Owns (recCells np' none (dropBytes len r) ++ F) := by
  induction r generalizing len st np fuel with
    obtain ⟨fuel, rfl⟩ := exists_fuel hfuel
  | nil =>
    obtain rfl : len = 0 := by simpa using hlen
    refine ⟨st.mem, np, ?_, ho⟩
    simp [sbdropLoop, dropBytes]
  | cons x l ih =>
    by_cases h0 : len = 0
    · subst h0
      refine ⟨st.mem, np, ?_, ho⟩
      simp [sbdropLoop, dropBytes]
    · simp only [sbdropLoop, head_cons, ho.get (L := []), ok_bind,
        if_pos (show (len : ℤ) > 0 by omega)]
      by_cases hlt : x.2.mLen > len
      · -- the mbuf keeps its tail
        rw [if_pos (by exact_mod_cast hlt)]
        simp only [dropBytes, if_neg h0, if_pos hlt, Int.toNat_natCast]
        refine ⟨_, np, ?_, ho.set (L := [])
          { shorten len x.2 with mNext := head none l, mNextpkt := np }⟩
        congr 3
        have hle : len ≤ x.2.dat.length := hlt.le
        ext <;> simp [shorten, MbufBody.mLen, MbufBody.mbcnt, hle]
        omega
      · -- the mbuf goes
        rw [if_neg (by exact_mod_cast hlt)]
        simp only [dropBytes, if_neg h0, if_neg hlt]
        rw [lenSum_cons] at hlen
        obtain ⟨mem', np', hrun, ho'⟩ := ih (len - x.2.mLen)
          ⟨st.mem.free x.1, sbfree st.sb x.2⟩ fuel (by omega) (by simpa using hfuel)
          (owns_sbMfree ho)
        refine ⟨mem', np', ?_, ho'⟩
        rw [exchange_cons] at hrun
        rw [← hrun, Nat.cast_sub (not_lt.mp hlt)]
        rfl

/-- The first loop of `sbdrop` uses up the record and goes on. -/
theorem sbdropLoop_past (len : ℕ) (st : St) (next : Option ℕ)
    (fuel : ℕ) (hlen : lenSum r < len) (ho : st.mem.Owns (recCells np none r ++ F)) :
    ∃ mem', sbdropLoop (fuel + r.length) st (head none r) next len =
        sbdropLoop fuel ⟨mem', st.sb.exchange r []⟩ none next (len - lenSum r : ℕ) ∧
      mem'.Owns F := by
  induction r generalizing len st np with
  | nil => exact ⟨st.mem, by simp, ho⟩
  | cons x l ih =>
    rw [lenSum_cons] at hlen
    obtain ⟨mem', hrun, ho'⟩ := ih (len - x.2.mLen) ⟨st.mem.free x.1, sbfree st.sb x.2⟩
      (by omega) (owns_sbMfree ho)
    refine ⟨mem', ?_, ho'⟩
    rw [exchange_cons] at hrun
    have hgo : ¬ (x.2.mLen : ℤ) > len := by omega
    rw [lenSum_cons, Nat.sub_add_eq, ← hrun, List.length_cons]
    simp only [sbdropLoop, head_cons, ho.get (L := []), ok_bind,
      if_pos (show (len : ℤ) > 0 by omega), if_neg hgo]
    rw [Nat.cast_sub (by omega)]
    rfl

/-- The first loop of `sbdrop` across records. -/
theorem sbdropLoop_eq {q : List Record} (len : ℕ) (st : St)
    (fuel : ℕ) (hne : ∀ r ∈ q, r ≠ []) (hlen : len ≤ lenSum r + lenSum q.flatten)
    (hfuel : r.length + (q.length + q.flatten.length) < fuel)
    (ho : st.mem.Owns (recCells np none r ++ qCells none q)) :
    ∃ mem' np', sbdropLoop fuel st (head none r) (qHead none q) len =
        .ok (⟨mem', st.sb.exchange (r :: q).flatten
            ((dropLoop len (r :: q)).1 :: (dropLoop len (r :: q)).2).flatten⟩,
          head none (dropLoop len (r :: q)).1, qHead none (dropLoop len (r :: q)).2) ∧
      mem'.Owns (recCells np' none (dropLoop len (r :: q)).1 ++
        qCells none (dropLoop len (r :: q)).2) := by
  induction q generalizing r len st np fuel with
  | nil =>
    simp only [List.flatten_nil, lenSum_nil, add_zero] at hlen
    obtain ⟨mem', np', hrun, ho'⟩ := sbdropLoop_inside len st none fuel hlen
      (by simpa using hfuel) ho
    simp only [dropLoop, if_pos hlen]
    exact ⟨mem', np', by simpa using hrun, ho'⟩
  | cons s q ih =>
    by_cases hin : len ≤ lenSum r
    · obtain ⟨mem', np', hrun, ho'⟩ := sbdropLoop_inside len st (qHead none (s :: q)) fuel hin
        (by omega) ho
      simp only [dropLoop, if_pos hin]
      refine ⟨mem', np', hrun.trans ?_, ho'⟩
      congr 3
      ext <;> simp <;> omega
    · -- the record is used up: one more turn finds the next one
      obtain ⟨y, l, rfl⟩ := List.exists_cons_of_ne_nil (hne s (by simp))
      obtain ⟨fuel, rfl⟩ : ∃ f, fuel = f + 1 + r.length := ⟨fuel - 1 - r.length, by omega⟩
      obtain ⟨mem₁, hpast, ho₁⟩ := sbdropLoop_past len st (qHead none ((y :: l) :: q))
        (fuel + 1) (not_le.mp hin) ho
      simp only [List.flatten_cons, lenSum_append, List.length_append,
        List.length_cons] at hlen hfuel
      obtain ⟨mem', np', hrun, ho'⟩ := ih (len - lenSum r)
        ⟨mem₁, st.sb.exchange r []⟩ fuel (fun r hr => hne r (by simp [hr]))
        (by omega) (by simp only [List.length_cons]; omega) ho₁
      have hloop : dropLoop len (r :: (y :: l) :: q) =
          dropLoop (len - lenSum r) ((y :: l) :: q) := by
        rw [dropLoop, if_neg hin]
      rw [hloop]
      refine ⟨mem', np', ?_, ho'⟩
      rw [hpast]
      simp only [sbdropLoop, if_pos (show ((len - lenSum r : ℕ) : ℤ) > 0 by omega), qHead_cons,
        head_cons, ho₁.get (L := []), ok_bind]
      refine hrun.trans ?_
      congr 3
      ext <;> simp <;> omega

section

variable (st : St) {fuel : ℕ} (hfuel : r.length < fuel) (ho : st.mem.Owns (recCells np none r ++ F))

include st hfuel ho

/-- The second loop of `sbdrop`. -/
theorem sbdropEmpty_eq :
    ∃ mem' np', sbdropEmpty fuel st (head none r) =
        .ok (⟨mem', st.sb.exchange r (r.dropWhile isEmpty)⟩, head none (r.dropWhile isEmpty)) ∧
      mem'.Owns (recCells np' none (r.dropWhile isEmpty) ++ F) := by
  induction r generalizing st np fuel with
    obtain ⟨fuel, rfl⟩ := exists_fuel hfuel
  | nil =>
    refine ⟨st.mem, np, ?_, ho⟩
    simp [sbdropEmpty]
  | cons x l ih =>
    simp only [sbdropEmpty, head_cons, ho.get (L := []), ok_bind]
    by_cases hx : x.2.mLen = 0
    · rw [if_pos hx, List.dropWhile_cons_of_pos (by simp [isEmpty, hx])]
      obtain ⟨mem', np', hrun, ho'⟩ := ih ⟨st.mem.free x.1, sbfree st.sb x.2⟩
        (by simpa using hfuel) (owns_sbMfree ho)
      refine ⟨mem', np', ?_, ho'⟩
      rw [exchange_cons] at hrun
      exact hrun
    · rw [if_neg hx, List.dropWhile_cons_of_neg (by simp [isEmpty, hx])]
      refine ⟨st.mem, np, ?_, ho⟩
      rw [exchange_self]
      rfl

/-- The loop of `sbdroprecord`. -/
theorem freeRecord_eq :
    ∃ mem', freeRecord fuel st (head none r) = .ok ⟨mem', st.sb.exchange r []⟩ ∧
      mem'.Owns F := by
  induction r generalizing st np fuel with
    obtain ⟨fuel, rfl⟩ := exists_fuel hfuel
  | nil =>
    refine ⟨st.mem, ?_, ho⟩
    simp [freeRecord]
  | cons x l ih =>
    obtain ⟨mem', hrun, ho'⟩ := ih ⟨st.mem.free x.1, sbfree st.sb x.2⟩
      (by simpa using hfuel) (owns_sbMfree ho)
    refine ⟨mem', ?_, ho'⟩
    rw [exchange_cons] at hrun
    simp only [freeRecord, head_cons, ho.get (L := []), ok_bind]
    exact hrun

end

end Loop

/-! ## `sbdrop` -/

theorem dropLoop_suffix (len : ℕ) (q : List Record) : (dropLoop len q).2 <:+ q := by
  induction q generalizing len with
  | nil => simp [dropLoop]
  | cons r q ih =>
    simp only [dropLoop]
    split
    · exact List.suffix_cons r q
    · exact (ih _).trans (List.suffix_cons r q)

variable {q : List Record}

theorem putFront_eq (st : St) (hne : ∀ r ∈ q, r ≠ [])
    (ho : st.mem.Owns (recCells np none r ++ qCells none q)) :
    ∃ mem', putFront st (head none r) (qHead none q) =
        .ok ⟨mem', st.sb.setMb (qHead none (putBack r q))⟩ ∧
      Linked mem' (qHead none (putBack r q)) (putBack r q) := by
  cases r with
  | nil => exact ⟨st.mem, rfl, linked_of_owns hne ho⟩
  | cons x l =>
    refine ⟨_, ?_, linked_of_owns (by simpa [putBack, or_imp, forall_and] using hne)
      (ho.set (L := []) { x.2 with mNext := head none l, mNextpkt := qHead none q })⟩
    simp only [putFront, head_cons, ho.get (L := []), ok_bind]
    rfl

/-- **`sbdrop`**, for a length that the buffer has. -/
theorem sbdrop_eq {st : St} {len : ℕ} (hq : Linked st.mem st.sb.sbMb q)
    (hlen : len ≤ lenSum q.flatten) : Becomes st q (dropL len q) (sbdrop st len) := by
  cases q with
  | nil =>
    obtain rfl : len = 0 := by simpa using hlen
    refine ⟨st.mem, ?_, linked_nil⟩
    have hmb : st.sb.sbMb = none := hq.top
    simp only [sbdrop, hmb, nextpktOf, pure_eq_ok, ok_bind, St.fuel, Nat.mul_add_one]
    simp [sbdropLoop, sbdropEmpty, putFront, dropL, dropLoop, putBack, Sockbuf.update]
  | cons r q =>
    obtain ⟨x, l, rfl⟩ := List.exists_cons_of_ne_nil (hq.nonempty r (by simp))
    have hne : ∀ r ∈ q, r ≠ [] := fun r hr => hq.nonempty r (by simp [hr])
    have hfuel := length_flatten_lt_fuel hq.owns
    have hqlen := length_le_flatten hne
    simp only [List.flatten_cons, List.length_append] at hfuel
    obtain ⟨mem₁, np₁, hloop, ho₁⟩ := sbdropLoop_eq len st
      (2 * st.fuel) hne (by rwa [List.flatten_cons, lenSum_append] at hlen) (by omega) hq.owns
    have hsuf := dropLoop_suffix len ((x :: l) :: q)
    rw [dropL]
    generalize dropLoop len ((x :: l) :: q) = rest at *
    obtain ⟨r', q'⟩ := rest
    have hr' : r'.length ≤ mem₁.brk := by simpa using ho₁.left.length_le
    obtain ⟨mem₂, np₂, hempty, ho₂⟩ := sbdropEmpty_eq
      ⟨mem₁, st.sb.exchange ((x :: l) :: q).flatten (r' :: q').flatten⟩
      (Nat.lt_succ_of_le hr') ho₁
    obtain ⟨mem', hput, hlinked⟩ := putFront_eq ⟨mem₂, (st.sb.exchange
        ((x :: l) :: q).flatten (r' :: q').flatten).exchange r' (r'.dropWhile isEmpty)⟩
      (fun r hr => hq.nonempty r (hsuf.subset hr)) ho₂
    refine ⟨mem', ?_, hlinked⟩
    have hnext : nextpktOf st.mem st.sb.sbMb = .ok (qHead none q) := by
      simp only [nextpktOf, hq.top, qHead_cons, head_cons, hq.owns.get (L := []), ok_bind]
      rfl
    rw [← qHead_cons none (x :: l) q, ← hq.top] at hloop
    simp only [sbdrop, hnext, hloop, ok_bind]
    simp only [St.fuel, hempty, ok_bind, hput]
    congr 2
    generalize r'.dropWhile isEmpty = s
    cases s <;> ext <;> simp [putBack] <;> omega

/-! ## `sbdroprecord` and `sbflush` -/

/-- **`sbdroprecord`**. -/
theorem sbdroprecord_eq {st : St} (hq : Linked st.mem st.sb.sbMb q) :
    Becomes st q q.tail (sbdroprecord st) := by
  cases q with
  | nil =>
    have hmb : st.sb.sbMb = none := hq.top
    refine ⟨st.mem, ?_, linked_nil⟩
    rw [List.tail_nil, update_self hq.top, sbdroprecord, hmb]
    rfl
  | cons r q =>
    obtain ⟨x, l, rfl⟩ := List.exists_cons_of_ne_nil (hq.nonempty r (by simp))
    have hfuel := length_flatten_lt_fuel hq.owns
    simp only [List.flatten_cons, List.length_append] at hfuel
    obtain ⟨mem', hrun, ho'⟩ := freeRecord_eq ⟨st.mem, st.sb.setMb (qHead none q)⟩
      (show _ < st.fuel by omega) hq.owns
    refine ⟨mem', ?_, linked_of_owns (fun r hr => hq.nonempty r (List.mem_of_mem_tail hr)) ho'⟩
    rw [sbdroprecord, hq.top]
    simp only [qHead_cons, head_cons, hq.owns.get (L := []), ok_bind] at hrun ⊢
    rw [hrun]
    congr 2
    ext <;> simp <;> omega

theorem dropL_cons (len : ℕ) (r : Record) (q : List Record) :
    dropL len (r :: q) = if len ≤ lenSum r then putBack ((dropBytes len r).dropWhile isEmpty) q
      else dropL (len - lenSum r) q := by
  unfold dropL
  rw [dropLoop]
  split <;> rfl

theorem dropWhile_isEmpty_of_lenSum (h : lenSum r = 0) : r.dropWhile isEmpty = [] := by
  induction r with
  | nil => rfl
  | cons x l ih =>
    rw [lenSum_cons] at h
    rw [List.dropWhile_cons_of_pos (by simp [isEmpty]; omega)]
    exact ih (by omega)

theorem dropBytes_all (r : Record) : (dropBytes (lenSum r) r).dropWhile isEmpty = [] := by
  induction r with
  | nil => rfl
  | cons x l ih =>
    by_cases h0 : lenSum (x :: l) = 0
    · rw [h0, dropBytes]
      exact dropWhile_isEmpty_of_lenSum h0
    · rw [dropBytes, if_neg h0, if_neg (by rw [lenSum_cons]; omega), lenSum_cons,
        Nat.add_sub_cancel_left]
      exact ih

/-- Dropping everything removes a record. -/
theorem length_dropL_all (hq : q ≠ []) : (dropL (lenSum q.flatten) q).length < q.length := by
  induction q with
  | nil => exact absurd rfl hq
  | cons r q ih =>
    rw [dropL_cons, List.flatten_cons, lenSum_append]
    split
    · have h0 : lenSum q.flatten = 0 := by omega
      rw [h0, add_zero, dropBytes_all]
      simp [putBack]
    · rename_i hlt
      rw [Nat.add_sub_cancel_left]
      have hne : q ≠ [] := by
        rintro rfl
        simp at hlt
      have := ih hne
      rw [List.length_cons]
      omega

theorem mbSum_pos (hne : ∀ r ∈ q, r ≠ []) (hq : q ≠ []) : 0 < mbSum q.flatten := by
  match q with
  | [] => exact absurd rfl hq
  | [] :: q => exact absurd rfl (hne [] (by simp))
  | (x :: l) :: q =>
    simp [MbufBody.mbcnt, MSIZE]

/-- The loop of `sbflush` empties the buffer. -/
theorem sbflushLoop_eq (st : St) (fuel : ℕ) (hfuel : q.length < fuel)
    (hq : Linked st.mem st.sb.sbMb q) (hcc : st.sb.sbCc = lenSum q.flatten)
    (hmb : st.sb.sbMbcnt = mbSum q.flatten) : Becomes st q [] (sbflushLoop fuel st) := by
  induction fuel generalizing st q with
  | zero => omega
  | succ fuel ih =>
    by_cases hnil : q = []
    · subst hnil
      refine ⟨st.mem, ?_, linked_nil⟩
      rw [update_self hq.top, sbflushLoop, if_neg (by simpa using hmb)]
      rfl
    · have hpos := mbSum_pos hq.nonempty hnil
      obtain ⟨mem₁, hdrop, hlinked⟩ := sbdrop_eq hq (le_refl (lenSum q.flatten))
      rw [← hcc] at hdrop
      have hlt := length_dropL_all hnil
      obtain ⟨mem', hrun, hlinked'⟩ := ih ⟨mem₁, st.sb.update q (dropL (lenSum q.flatten) q)⟩
        (hlt.trans_le (Nat.le_of_lt_succ hfuel)) hlinked (by simp [hcc]) (by simp [hmb])
      refine ⟨mem', ?_, hlinked'⟩
      rw [sbflushLoop, if_pos (by omega)]
      simp only [hdrop, ok_bind, hrun, update_update]

/-- **`sbflush`** of an unlocked buffer. -/
theorem sbflush_eq {st : St} (hlock : st.sb.sbLock = false) (hq : Linked st.mem st.sb.sbMb q)
    (hcc : st.sb.sbCc = lenSum q.flatten) (hmb : st.sb.sbMbcnt = mbSum q.flatten) :
    Becomes st q [] (sbflush st) := by
  have hfuel := length_flatten_lt_fuel hq.owns
  have hqlen := length_le_flatten hq.nonempty
  obtain ⟨mem', hrun, hlinked⟩ := sbflushLoop_eq st st.fuel (by omega) hq hcc hmb
  refine ⟨mem', ?_, hlinked⟩
  simp only [sbflush, hlock, hrun, ok_bind]
  rw [if_neg (by simp), if_neg (by
    simp [hcc])]
  rfl

end BSDLite2.SockBuf
