import BSDLite2.Kern.SockBuf

/-!
# The records of a socket buffer

The mbufs of a socket buffer, read off its pointers, are a list of records, each
a non-empty list of mbufs.  `Linked` says that a heap holds such a list with all
links right: inside a record through `m_next`, from one record to the next
through the `m_nextpkt` of their first mbufs, and null everywhere else.

The rest of the module is about the two loops that the functions of
`uipc_socket2.c` share, the search for the last record (`lastPkt_eq`) and
`sbcompress`: `compress` is the function on lists that it computes, and
`sbcompress_eq` proves that it computes it, from any heap that holds the lists.
-/

namespace BSDLite2.SockBuf

open Heap Option

/-! ## Layout -/

/-- An mbuf of a list: its address and its content. -/
abbrev Node := ℕ × MbufBody

/-- A record: the list of its mbufs. -/
abbrev Record := List Node

/-- The cell of an mbuf that is not the first of its record. -/
def inner (v : MbufBody) (next : Option ℕ) : Mbuf :=
  { v with mNext := next, mNextpkt := none }

variable (sb : Sockbuf) (np tail : Option ℕ) (v : MbufBody) (x : Node) (q : List Record)
  {l : Record} {n : Option Node} {mem : Mem Mbuf}

@[simp] theorem inner_toMbufBody (next : Option ℕ) : (inner v next).toMbufBody = v := rfl

@[simp] theorem inner_mNext (next : Option ℕ) : (inner v next).mNext = next := rfl

/-- The cells of a record whose first mbuf has `m_nextpkt = np` and whose last
has `m_next = tail`. -/
def recCells (np tail : Option ℕ) : Record → List (ℕ × Mbuf)
  | [] => []
  | x :: l => (x.1, { x.2 with mNext := head tail l, mNextpkt := np }) :: seg inner tail l

@[simp] theorem recCells_nil : recCells np tail [] = [] := rfl

@[simp] theorem recCells_cons (l : Record) :
    recCells np tail (x :: l) =
      (x.1, { x.2 with mNext := head tail l, mNextpkt := np }) :: seg inner tail l := rfl

theorem recCells_none (l : Record) : recCells none tail l = seg inner tail l := by
  cases l <;> rfl

@[simp] theorem map_fst_recCells (l : Record) :
    (recCells np tail l).map Prod.fst = l.map Prod.fst := by
  cases l <;> simp

@[simp] theorem length_recCells (l : Record) : (recCells np tail l).length = l.length := by
  cases l <;> simp

/-- The pointer to a list of records that ends at `tail`. -/
def qHead (tail : Option ℕ) : List Record → Option ℕ
  | [] => tail
  | r :: _ => head none r

@[simp] theorem qHead_nil : qHead tail [] = tail := rfl

@[simp] theorem qHead_cons (r : Record) (q : List Record) : qHead tail (r :: q) = head none r := rfl

theorem qHead_append (q' : List Record) : qHead tail (q ++ q') = qHead (qHead tail q') q := by
  cases q <;> rfl

/-- The cells of a list of records. -/
def qCells (tail : Option ℕ) : List Record → List (ℕ × Mbuf)
  | [] => []
  | r :: q => recCells (qHead tail q) none r ++ qCells tail q

@[simp] theorem qCells_nil : qCells tail [] = [] := rfl

@[simp] theorem qCells_cons (r : Record) (q : List Record) :
    qCells tail (r :: q) = recCells (qHead tail q) none r ++ qCells tail q := rfl

theorem qCells_append (q' : List Record) :
    qCells tail (q ++ q') = qCells (qHead tail q') q ++ qCells tail q' := by
  induction q with
  | nil => rfl
  | cons r q ih => simp [ih, qHead_append]

@[simp] theorem map_fst_qCells : (qCells tail q).map Prod.fst = q.flatten.map Prod.fst := by
  induction q with
  | nil => rfl
  | cons r q ih => simp [ih]

@[simp] theorem length_qCells : (qCells tail q).length = q.flatten.length := by
  simpa only [List.length_map] using congrArg List.length (map_fst_qCells tail q)

/-- A heap that holds a list of records has more cells than the list has mbufs,
and the list has at least as many mbufs as records. -/
theorem length_flatten_lt_fuel {st : St} {q : List Record} {tail : Option ℕ}
    (ho : st.mem.Owns (qCells tail q)) : q.flatten.length < st.fuel := by
  have hle := ho.length_le
  rw [length_qCells] at hle
  exact Nat.lt_succ_of_le hle

theorem length_lt_fuel {st : St} (ho : st.mem.Owns (seg inner none l)) : l.length < st.fuel := by
  have hle := ho.length_le
  rw [length_seg] at hle
  exact Nat.lt_succ_of_le hle

theorem length_le_flatten {q : List Record} (hne : ∀ r ∈ q, r ≠ []) :
    q.length ≤ q.flatten.length := by
  induction q with
  | nil => simp
  | cons r q ih =>
    have hr : 0 < r.length := List.length_pos_of_ne_nil (hne r (by simp))
    have := ih fun r hr => hne r (by simp [hr])
    simp only [List.length_cons, List.flatten_cons, List.length_append]
    omega

/-- A non-empty list of records has a first mbuf. -/
theorem exists_qHead {q : List Record} (hne : ∀ r ∈ q, r ≠ []) (hq : q ≠ [])
    (tail : Option ℕ) : ∃ a, qHead tail q = some a := by
  match q with
  | [] => exact absurd rfl hq
  | [] :: q => exact absurd rfl (hne [] (by simp))
  | (x :: r) :: q => exact ⟨x.1, rfl⟩

theorem qHead_concat_cons (x : Node) (l : Record) :
    qHead tail (q ++ [x :: l]) = qHead (some x.1) q := by
  rw [qHead_append]
  rfl

/-- **The shape of a socket buffer**: the pointer `p` leads to the records `q`,
each with an mbuf, no mbuf twice, and the heap holds them linked. -/
structure Linked (mem : Mem Mbuf) (p : Option ℕ) (q : List Record) : Prop where
  top : p = qHead none q
  nonempty : ∀ r ∈ q, r ≠ []
  distinct : (q.flatten.map Prod.fst).Nodup
  cells : mem.Holds (qCells none q)

variable (r : Record)

theorem Linked.owns {p : Option ℕ} {q : List Record} (hq : Linked mem p q) :
    mem.Owns (qCells none q) :=
  ⟨hq.cells, by rw [map_fst_qCells]; exact hq.distinct⟩

theorem linked_of_owns {q : List Record} (hne : ∀ r ∈ q, r ≠ [])
    (ho : mem.Owns (qCells none q)) : Linked mem (qHead none q) q :=
  ⟨rfl, hne, map_fst_qCells none q ▸ ho.distinct, ho.cells⟩

theorem linked_nil : Linked mem none [] :=
  ⟨rfl, by simp, by simp, by simp⟩

/-! ## Counters -/

/-- The data bytes of a list of mbufs. -/
def lenSum : ℕ := (r.map fun x => x.2.mLen).sum

/-- The bytes of storage of a list of mbufs. -/
def mbSum : ℕ := (r.map fun x => x.2.mbcnt).sum

@[simp] theorem lenSum_nil : lenSum [] = 0 := rfl

@[simp] theorem mbSum_nil : mbSum [] = 0 := rfl

@[simp] theorem lenSum_cons : lenSum (x :: r) = x.2.mLen + lenSum r := by
  simp [lenSum]

@[simp] theorem mbSum_cons : mbSum (x :: r) = x.2.mbcnt + mbSum r := by
  simp [mbSum]

@[simp] theorem lenSum_append (s : Record) : lenSum (r ++ s) = lenSum r + lenSum s := by
  simp [lenSum]

@[simp] theorem mbSum_append (s : Record) : mbSum (r ++ s) = mbSum r + mbSum s := by
  simp [mbSum]

/-- The counters after the mbufs `old` have been exchanged for the mbufs `new`. -/
@[simps]
def Sockbuf.exchange (sb : Sockbuf) (old new : Record) : Sockbuf :=
  { sb with sbCc := sb.sbCc + lenSum new - lenSum old,
            sbMbcnt := sb.sbMbcnt + mbSum new - mbSum old }

@[ext] theorem Sockbuf.ext' {s t : Sockbuf} (h₁ : s.sbCc = t.sbCc) (h₂ : s.sbHiwat = t.sbHiwat)
    (h₃ : s.sbMbcnt = t.sbMbcnt) (h₄ : s.sbMbmax = t.sbMbmax) (h₅ : s.sbMb = t.sbMb)
    (h₆ : s.sbLock = t.sbLock) : s = t := by
  cases s
  cases t
  simp_all

@[simp] theorem exchange_self : sb.exchange r r = sb := by
  ext <;> simp

/-! ## The last record -/

@[simp] theorem ok_bind {α β : Type} (a : α) (f : α → Except Stop β) :
    ((Except.ok a : Except Stop α) >>= f) = f a := rfl

@[simp] theorem pure_eq_ok {α : Type} (a : α) : (pure a : Except Stop α) = .ok a := rfl

variable {mem : Mem Mbuf}

/-- On a linked queue `lastPkt` finds the first mbuf of the last record. -/
theorem lastPkt_eq {q : List Record} {x : Node} {a fuel : ℕ} (hne : ∀ r ∈ q, r ≠ [])
    (hcells : mem.Holds (qCells none (q ++ [x :: l]))) (ha : qHead none (q ++ [x :: l]) = some a)
    (hfuel : q.length < fuel) : lastPkt mem fuel a = .ok x.1 := by
  induction q generalizing a fuel with
    obtain ⟨fuel, rfl⟩ := exists_fuel hfuel
  | nil =>
    obtain rfl : x.1 = a := by simpa using ha
    simp only [List.nil_append, qCells_cons, qHead_nil, recCells_cons, List.cons_append,
      Mem.holds_cons] at hcells
    simp [lastPkt, Mem.get_eq_ok hcells.1]
  | cons r q ih =>
    obtain ⟨y, r, rfl⟩ := List.exists_cons_of_ne_nil (hne r (by simp))
    obtain rfl : y.1 = a := by simpa using ha
    simp only [List.cons_append, qCells_cons, recCells_cons, Mem.holds_append,
      Mem.holds_cons] at hcells
    obtain ⟨hy, -, hq⟩ := hcells
    have hne' : ∀ r ∈ q, r ≠ [] := fun r hr => hne r (by simp [hr])
    obtain ⟨b, hb⟩ : ∃ b, qHead none (q ++ [x :: l]) = some b := by
      refine exists_qHead ?_ (by simp) none
      simpa [or_imp, forall_and] using hne'
    have hrec := ih hne' hq hb (by simpa using hfuel)
    simp [lastPkt, Mem.get_eq_ok hy, hb, hrec]

/-! ## Compression -/

/-- Whether `sbcompress` frees the mbuf `v`: it is empty, and there is no
`M_EOR` to keep or a neighbour of the same type to keep it. -/
def gone (n : Option Node) (v : MbufBody) (l : Record) (eor : Bool) : Bool :=
  decide (v.mLen = 0) &&
    (!eor || ((l.head?.or n).map fun o => decide (o.2.mType = v.mType)).getD false)

/-- **The list `sbcompress` builds** from the last mbuf `n` of the record on, out
of the mbufs `l` it is given. -/
def compressL : Option Node → Record → Bool → Record × Bool
  | n, [], eor => (n.toList, eor)
  | n, (a, v) :: l, eor =>
    if gone n v l (eor || v.eor) then compressL n l (eor || v.eor)
    else match n with
      | none => compressL (some (a, { v with eor := false })) l (eor || v.eor)
      | some (b, w) =>
        if fits w v then
          compressL (some (b, { w with dat := w.dat ++ v.dat })) l (eor || v.eor)
        else
          let r := compressL (some (a, { v with eor := false })) l (eor || v.eor)
          ((b, w) :: r.1, r.2)

/-- The list begins with `n`, by address. -/
theorem head_compressL_some (b : ℕ) (w : MbufBody) (l : Record) (eor : Bool) (tail : Option ℕ) :
    head tail (compressL (some (b, w)) l eor).1 = some b := by
  induction l generalizing w eor with
  | nil => rfl
  | cons x l ih =>
    simp only [compressL]
    split
    · exact ih _ _
    · split
      · exact ih _ _
      · rfl

theorem compressL_some_ne_nil (b : ℕ) (w : MbufBody) (l : Record) (eor : Bool) :
    (compressL (some (b, w)) l eor).1 ≠ [] := by
  intro hnil
  have := head_compressL_some b w l eor none
  rw [hnil] at this
  cases this

/-- The counters and `sb_mb` once the part of the record from `n` on is `r`. -/
def Sockbuf.attach (sb : Sockbuf) (n : Option Node) (r : Record) : Sockbuf :=
  (sb.exchange n.toList r).setMb (match n with
    | none => head sb.sbMb r
    | some _ => sb.sbMb)

theorem attach_some : sb.attach (some x) r = sb.exchange [x] r := rfl

@[simp] theorem mLen_eor (e : Bool) : ({ v with eor := e } : MbufBody).mLen = v.mLen :=
  rfl

@[simp] theorem mbcnt_eor (e : Bool) : ({ v with eor := e } : MbufBody).mbcnt = v.mbcnt := rfl

/-- Taking over the first mbuf of an empty buffer, and what follows. -/
theorem attach_none (a : ℕ) (v : MbufBody) {r : Record} (hr : head sb.sbMb r = some a) :
    (sballoc (sb.setMb (some a)) v).attach (some (a, { v with eor := false })) r =
      sb.attach none r := by
  ext <;> simp [Sockbuf.attach, hr] <;> omega

/-- Merging an mbuf into the last one, and what follows. -/
theorem attach_merge (b : ℕ) (v w : MbufBody) (r : Record) :
    ({ sb with sbCc := sb.sbCc + v.mLen }).attach
        (some (b, { w with dat := w.dat ++ v.dat })) r = sb.attach (some (b, w)) r := by
  ext <;> simp [Sockbuf.attach, MbufBody.mLen, MbufBody.mbcnt]
  omega

/-- Taking over an mbuf behind the last one, and what follows. -/
theorem attach_link (a b : ℕ) (v w : MbufBody) (r : Record) :
    (sballoc sb v).attach (some (a, { v with eor := false })) r =
      sb.attach (some (b, w)) ((b, w) :: r) := by
  ext <;> simp [Sockbuf.attach] <;> omega

/-- What `sbcompress` sees of the neighbours of an empty mbuf. -/
theorem sameTypeNear_eq {v : MbufBody} {np : Option ℕ}
    (hn : mem.Holds (recCells np none n.toList)) (hl : mem.Holds (seg inner none l)) :
    sameTypeNear mem (inner v (head none l)) (n.map Prod.fst) =
      .ok (((l.head?.or n).map fun o => decide (o.2.mType = v.mType)).getD false) := by
  cases l with
  | cons x l =>
    simp only [seg_cons, Mem.holds_cons] at hl
    simp only [sameTypeNear, inner, head_cons, some_or, Mem.get_eq_ok hl.1, ok_bind]
    rfl
  | nil =>
    cases n with
    | none => simp [sameTypeNear, inner]
    | some y =>
      simp only [toList_some, recCells_cons, Mem.holds_cons] at hn
      simp only [sameTypeNear, inner, head_nil, none_or, map_some, Mem.get_eq_ok hn.1, ok_bind]
      rfl

theorem freesEmpty_eq {v : MbufBody} {np : Option ℕ} {eor : Bool}
    (hn : mem.Holds (recCells np none n.toList)) (hl : mem.Holds (seg inner none l)) :
    freesEmpty mem (inner v (head none l)) (n.map Prod.fst) eor = .ok (gone n v l eor) := by
  unfold freesEmpty gone
  rw [sameTypeNear_eq hn hl]
  by_cases hv : v.mLen = 0 <;> cases eor <;> simp [inner, hv]

theorem mergeTarget_eq {b : ℕ} {v w : MbufBody} {next np : Option ℕ}
    (hn : mem.Holds (recCells np none [(b, w)])) :
    mergeTarget mem (inner v next) (some b) = .ok (if fits w v then
      some (b, { w with mNext := none, mNextpkt := np }) else none) := by
  simp only [recCells_cons, Mem.holds_cons] at hn
  simp only [mergeTarget, Mem.get_eq_ok hn.1, ok_bind]
  rfl

/-- **The loop of `sbcompress`.**  With the last mbuf `n` of the record, the
mbufs `l` to be added and any other cells `F` in the heap, the loop leaves the
part of the record from `n` on as `compressL` says, the counters accordingly,
and `F` alone. -/
theorem sbcompressLoop_eq (l : Record) : ∀ (n : Option Node) (np : Option ℕ) (eor : Bool)
    (st : St) (F : List (ℕ × Mbuf)) (fuel : ℕ), l.length < fuel → (n = none → np = none) →
    st.mem.Owns (recCells np none n.toList ++ (seg inner none l ++ F)) →
    ∃ mem', sbcompressLoop fuel st (head none l) (n.map Prod.fst) eor =
        .ok (⟨mem', st.sb.attach n (compressL n l eor).1⟩,
          (compressL n l eor).1.getLast?.map Prod.fst, (compressL n l eor).2) ∧
      mem'.Owns (recCells np none (compressL n l eor).1 ++ F) := by
  induction l with
  | nil =>
    intro n np eor st F fuel hfuel _ ho
    obtain ⟨fuel, rfl⟩ := exists_fuel hfuel
    refine ⟨st.mem, ?_, ho⟩
    cases n <;> simp [sbcompressLoop, compressL, Sockbuf.attach, Sockbuf.setMb]
  | cons x l ih =>
    intro n np eor st F fuel hfuel hnp ho
    obtain ⟨a, v⟩ := x
    obtain ⟨fuel, rfl⟩ := exists_fuel hfuel
    have hlen : l.length < fuel := by simpa using hfuel
    rw [seg_cons, List.cons_append] at ho
    obtain ⟨hn, -, hl, -⟩ : st.mem.Holds (recCells np none n.toList) ∧ _ ∧
        st.mem.Holds (seg inner none l) ∧ _ := by
      simpa only [Mem.holds_append, Mem.holds_cons] using ho.cells
    simp only [sbcompressLoop, head_cons, ho.get, ok_bind, freesEmpty_eq hn hl,
      inner_toMbufBody, inner_mNext]
    by_cases hg : gone n v l (eor || v.eor) = true
    · -- an empty mbuf is freed
      simp only [compressL, if_pos hg]
      exact ih n np (eor || v.eor) ⟨st.mem.free a, st.sb⟩ F fuel hlen hnp ho.free
    · rw [if_neg hg]
      cases n with
      | none =>
        obtain rfl : np = none := hnp rfl
        obtain ⟨mem', hmem, ho'⟩ := ih (some (a, { v with eor := false })) none
          (eor || v.eor) (takeOver ⟨st.mem, st.sb.setMb (some a)⟩ a
            (inner v (head none l))) F fuel hlen (by simp) (ho.set _)
        simp only [compressL, if_neg hg]
        refine ⟨mem', ?_, ho'⟩
        simp only [mergeTarget, linkNext, map_none, pure_eq_ok, ok_bind]
        simp only [map_some] at hmem
        rw [hmem, ← attach_none st.sb a v (head_compressL_some _ _ _ _ _)]
        rfl
      | some y =>
        obtain ⟨b, w⟩ := y
        simp only [map_some, mergeTarget_eq hn, ok_bind]
        by_cases hfit : fits w v = true
        · -- the bytes go behind those of `n`
          obtain ⟨mem', hmem, ho'⟩ := ih (some (b, { w with dat := w.dat ++ v.dat })) np
            (eor || v.eor) (mergeInto st b { w with mNext := none, mNextpkt := np } a
              (inner v (head none l))) F fuel hlen (by simp)
            ((ho.set (L := []) _).free (L := [_]))
          simp only [compressL, if_neg hg, if_pos hfit]
          refine ⟨mem', ?_, ho'⟩
          simp only [map_some] at hmem
          rw [hmem, ← attach_merge st.sb b v w]
          rfl
        · -- `m` itself becomes the last mbuf
          obtain ⟨mem', hmem, ho'⟩ := ih (some (a, { v with eor := false })) none
            (eor || v.eor)
            (takeOver ⟨st.mem.set b { w with mNext := some a, mNextpkt := np }, st.sb⟩ a
              (inner v (head none l)))
            ((b, { w with mNext := some a, mNextpkt := np }) :: F) fuel hlen (by simp)
            (((ho.set (L := []) _).set (L := [_]) _).perm
              (@List.perm_middle _ _ (_ :: seg inner none l) F).symm)
          simp only [compressL, if_neg hg, if_neg hfit]
          refine ⟨mem', ?_, ?_⟩
          · simp only [linkNext, ho.get (L := []), ok_bind, pure_eq_ok]
            simp only [map_some] at hmem
            rw [hmem, ← attach_link st.sb a b v w,
              List.getLast?_cons_of_ne_nil (compressL_some_ne_nil _ _ _ _)]
            rfl
          · rw [recCells_none] at ho'
            rw [recCells_cons, head_compressL_some]
            exact ho'.perm List.perm_middle

/-- `m_nextpkt` of the mbuf that comes after `pre` in a record whose first mbuf
has `m_nextpkt = np`. -/
def npAfter (np : Option ℕ) (pre : Record) : Option ℕ := if pre = [] then np else none

theorem recCells_split (pre : Record) (y : Node) (l : Record) :
    recCells np tail (pre ++ y :: l) =
      recCells np (some y.1) pre ++ recCells (npAfter np pre) tail (y :: l) := by
  cases pre with
  | nil => simp [npAfter]
  | cons x pre => simp [npAfter, seg_append, head_append, inner]

theorem recCells_split_of_head (pre : Record) {r : Record} {a : ℕ} (ha : head none r = some a) :
    recCells np none (pre ++ r) = recCells np (some a) pre ++ recCells (npAfter np pre) none r := by
  cases r with
  | nil => cases ha
  | cons y l =>
    obtain rfl : y.1 = a := by simpa using ha
    exact recCells_split np none pre y l

/-- Set `M_EOR` on the last mbuf. -/
def markEor : Record → Record
  | [] => []
  | [x] => [(x.1, { x.2 with eor := true })]
  | x :: y :: l => x :: markEor (y :: l)

theorem markEor_concat (pre : Record) (y : Node) :
    markEor (pre ++ [y]) = pre ++ [(y.1, { y.2 with eor := true })] := by
  induction pre with
  | nil => rfl
  | cons x pre ih =>
    cases pre with
    | nil => rfl
    | cons z pre => simpa [markEor] using ih

/-- The part of the record from `n` on that `sbcompress` leaves. -/
def compress (n : Option Node) (l : Record) : Record :=
  if (compressL n l false).2 then markEor (compressL n l false).1 else (compressL n l false).1

/-- Marking changes neither counters nor the first address. -/
theorem markEor_same : lenSum (markEor r) = lenSum r ∧
    mbSum (markEor r) = mbSum r ∧ ∀ tail, head tail (markEor r) = head tail r := by
  rcases r.eq_nil_or_concat' with rfl | ⟨pre, y, rfl⟩
  · simp [markEor]
  · rw [markEor_concat]
    refine ⟨by simp, by simp, fun tail => ?_⟩
    rw [head_append, head_append]
    rfl

theorem attach_compress (n : Option Node) (l : Record) :
    sb.attach n (compress n l) = sb.attach n (compressL n l false).1 := by
  obtain ⟨hlen, hmb, hhead⟩ := markEor_same (compressL n l false).1
  unfold compress
  split
  · cases n <;> simp [Sockbuf.attach, Sockbuf.exchange, hlen, hmb, hhead]
  · rfl

/-- Setting `M_EOR` on the last mbuf of a record in the heap. -/
theorem owns_markEor {np : Option ℕ} {pre : Record} {y : Node} {F : List (ℕ × Mbuf)}
    (ho : mem.Owns (recCells np none (pre ++ [y]) ++ F)) :
    ∃ c, mem.get y.1 = .ok c ∧
      (mem.set y.1 { c with eor := true }).Owns
        (recCells np none (pre ++ [(y.1, { y.2 with eor := true })]) ++ F) := by
  rw [recCells_split, recCells_cons, List.append_assoc] at ho
  refine ⟨_, ho.get, ?_⟩
  rw [recCells_split, List.append_assoc]
  exact ho.set _

/-- **`sbcompress`.** -/
theorem sbcompress_eq (st : St) (np : Option ℕ) {F : List (ℕ × Mbuf)} (hnp : n = none → np = none)
    (ho : st.mem.Owns (recCells np none n.toList ++ (seg inner none l ++ F))) :
    ∃ mem', sbcompress st (head none l) (n.map Prod.fst) =
        .ok ⟨mem', st.sb.attach n (compress n l)⟩ ∧
      mem'.Owns (recCells np none (compress n l) ++ F) := by
  obtain ⟨mem', hrun, ho'⟩ :=
    sbcompressLoop_eq l n np false st F st.fuel (length_lt_fuel ho.right.left) hnp ho
  rw [attach_compress]
  simp only [sbcompress, hrun, ok_bind]
  unfold compress
  cases he : (compressL n l false).2 with
  | false => exact ⟨mem', rfl, ho'⟩
  | true =>
    rcases (compressL n l false).1.eq_nil_or_concat' with hnil | ⟨pre, y, hlast⟩
    · rw [hnil] at ho' ⊢
      exact ⟨mem', rfl, ho'⟩
    · rw [hlast] at ho' ⊢
      obtain ⟨c, hget, hset⟩ := owns_markEor ho'
      refine ⟨_, ?_, by simpa [markEor_concat] using hset⟩
      simp only [List.getLast?_append, List.getLast?_singleton, some_or, map_some, hget, ok_bind]
      rfl

end BSDLite2.SockBuf
