import BSDLite2.Kern.SockBufRep

/-!
# Adding to a socket buffer

For each function of `uipc_socket2.c` that adds mbufs to a socket buffer, the
list of records it leaves, and the proof that it leaves the heap linked
accordingly and the counters right:

* `sbappendrecord_eq`, `sbappend_eq` — the record is compressed as it is added;
* `sbinsertoob_eq` — it is inserted behind the leading out-of-band trains;
* `sbappendaddr_eq`, `sbappendcontrol_eq` — the chains are added as they are.

Every statement has the same form.  In a state whose buffer holds the records
`q`, with the argument chains elsewhere in the heap, the function returns, and
the state it leaves holds the records `q'`; `Sockbuf.update` then says what
became of the counters.
-/

namespace BSDLite2.SockBuf

open Heap Option

variable {a : ℕ}

/-- The socket buffer once its records `q` have become `q'`. -/
@[simps!]
def Sockbuf.update (sb : Sockbuf) (q q' : List Record) : Sockbuf :=
  (sb.exchange q.flatten q'.flatten).setMb (qHead none q')

variable {q : List Record}

theorem update_self {sb : Sockbuf} (hmb : sb.sbMb = qHead none q) : sb.update q q = sb := by
  rw [Sockbuf.update, exchange_self, ← hmb]
  rfl

theorem update_update (sb : Sockbuf) (q q' q'' : List Record) :
    (sb.update q q').update q' q'' = sb.update q q'' := by
  ext <;> simp <;> omega

/-- A function returned, and the records `q` have become `q'`. -/
def Becomes (st : St) (q q' : List Record) (res : Except Stop St) : Prop :=
  ∃ mem', res = .ok ⟨mem', st.sb.update q q'⟩ ∧ Linked mem' (qHead none q') q'

/-! ## A new last record -/

variable {mem : Mem Mbuf} {F : List (ℕ × Mbuf)} {x : Node}

variable {l : Record}

/-- Pointing the last of a list of records somewhere else. -/
theorem owns_relink {tail : Option ℕ} (m : ℕ) (ho : mem.Owns (qCells tail (q ++ [x :: l]) ++ F)) :
    ∃ c, mem.get x.1 = .ok c ∧ (mem.set x.1 { c with mNextpkt := some m }).Owns
      (qCells (some m) (q ++ [x :: l]) ++ F) := by
  rw [qCells_append] at ho ⊢
  simp only [qCells_cons, qCells_nil, recCells_cons, qHead_cons, qHead_nil, head_cons,
    List.append_nil, List.append_assoc, List.cons_append] at ho ⊢
  exact ⟨_, ho.get, ho.set _⟩

/-- `linkLast` makes the last record's `m_nextpkt`, or `sb_mb`, point to `m`. -/
theorem linkLast_eq (st : St) (m : ℕ) (htop : st.sb.sbMb = qHead none q) (hne : ∀ r ∈ q, r ≠ [])
    (ho : st.mem.Owns (qCells none q ++ F)) :
    ∃ mem', linkLast st m = .ok ⟨mem', st.sb.setMb (qHead (some m) q)⟩ ∧
      mem'.Owns (qCells (some m) q ++ F) := by
  rcases q.eq_nil_or_concat' with rfl | ⟨q, r, rfl⟩
  · refine ⟨st.mem, ?_, ho⟩
    simp [linkLast, htop]
  · obtain ⟨x, l, rfl⟩ := List.exists_cons_of_ne_nil (hne r (by simp))
    have hlen : q.length < st.fuel := by
      have h1 := length_flatten_lt_fuel ho.left
      have h2 := length_le_flatten hne
      rw [List.length_append] at h2
      omega
    obtain ⟨a, ha⟩ := exists_qHead hne (by simp) none
    have hlast := lastPkt_eq (fun r hr => hne r (by simp [hr])) ho.left.cells ha hlen
    obtain ⟨c, hget, hset⟩ := owns_relink m ho
    refine ⟨_, ?_, hset⟩
    rw [linkLast, htop, ha]
    simp only [hlast, ok_bind, hget, pure_eq_ok]
    rw [qHead_concat_cons] at htop ⊢
    rw [← htop]
    rfl

/-- The record made of a chain: its first mbuf stays, its `M_EOR` moves on to the
second, and the others are compressed behind it. -/
def compressRecord : Record → Record
  | [] => []
  | [x] => [x]
  | (a, v) :: (b, w) :: l =>
    compress (some (a, { v with eor := false })) ((b, { w with eor := w.eor || v.eor }) :: l)

theorem head_compress_some (b : ℕ) (w : MbufBody) (l : Record) (tail : Option ℕ) :
    head tail (compress (some (b, w)) l) = some b := by
  unfold compress
  split
  · rw [(markEor_same _).2.2, head_compressL_some]
  · exact head_compressL_some _ _ _ _ _

theorem head_compressRecord (x : Node) (l : Record) (tail : Option ℕ) :
    head tail (compressRecord (x :: l)) = some x.1 := by
  cases l with
  | nil => rfl
  | cons y l => exact head_compress_some _ _ _ _

/-- The mbufs of a record, cut off and compressed. -/
theorem compressRest_eq (st : St) (np : Option ℕ)
    (ho : st.mem.Owns (recCells np none (x :: l) ++ F)) :
    ∃ mem', compressRest st x.1 =
        .ok ⟨mem', st.sb.exchange [x] (compressRecord (x :: l))⟩ ∧
      mem'.Owns (recCells np none (compressRecord (x :: l)) ++ F) := by
  obtain ⟨a, v⟩ := x
  simp only [compressRest, ho.get (L := []), ok_bind]
  cases l with
  | nil =>
    have := sbcompress_eq (n := some (a, v)) (l := []) st np (by simp) ho
    simpa [compress, compressL, compressRecord, attach_some] using this
  | cons y l =>
    obtain ⟨b, w⟩ := y
    -- the heap in which `sbcompress` starts
    have hcut := ho.set (L := []) { v with eor := false, mNext := none, mNextpkt := np }
    obtain ⟨mem₁, hmem₁, ho₁⟩ : ∃ mem₁, (if v.eor then (st.mem.set a
          { v with eor := false, mNext := none, mNextpkt := np }).set b
            (inner { w with eor := true } (head none l))
        else st.mem.set a { v with eor := false, mNext := none, mNextpkt := np }) = mem₁ ∧
        mem₁.Owns (recCells np none [(a, { v with eor := false })] ++
          (seg inner none ((b, { w with eor := w.eor || v.eor }) :: l) ++ F)) := by
      refine ⟨_, rfl, ?_⟩
      cases v.eor with
      | true =>
        rw [Bool.or_true]
        exact hcut.set (L := [_]) _
      | false =>
        rw [Bool.or_false]
        exact hcut
    obtain ⟨mem', hrun, ho'⟩ := sbcompress_eq (n := some (a, { v with eor := false }))
      ⟨mem₁, st.sb⟩ np (by simp) ho₁
    refine ⟨mem', ?_, ho'⟩
    simp only [head_cons, hcut.get (L := [_]), ok_bind]
    rw [← hmem₁] at hrun
    exact hrun

/-- The records `q₁ ++ q₂` with the record `r` between them. -/
theorem linked_insert {q₁ q₂ : List Record} {r : Record} (hne : ∀ r ∈ q₁ ++ q₂, r ≠ [])
    (ha : head none r = some a)
    (ho : mem.Owns
      (recCells (qHead none q₂) none r ++ (qCells (some a) q₁ ++ qCells none q₂))) :
    Linked mem (qHead none (q₁ ++ r :: q₂)) (q₁ ++ r :: q₂) := by
  refine linked_of_owns (fun s hs => ?_) ?_
  · simp only [List.mem_append, List.mem_cons] at hs
    rcases hs with hs | rfl | hs
    · exact hne s (by simp [hs])
    · rintro rfl
      cases ha
    · exact hne s (by simp [hs])
  · rw [qCells_append, qHead_cons, ha]
    exact ho.perm (List.perm_append_comm_assoc _ _ _)

/-- The records `q` with the record `r` behind them. -/
theorem linked_concat {r : Record} (hne : ∀ r ∈ q, r ≠ []) (ha : head none r = some a)
    (ho : mem.Owns (recCells none none r ++ qCells (some a) q)) :
    Linked mem (qHead none (q ++ [r])) (q ++ [r]) :=
  linked_insert (by simpa using hne) ha (by simpa using ho)

theorem update_concat (sb : Sockbuf) (q : List Record) (r : Record) (ha : head none r = some a) :
    sb.update q (q ++ [r]) = (sb.exchange [] r).setMb (qHead (some a) q) := by
  ext <;> simp [qHead_append, ha] <;> omega

variable {st : St}

/-- **`sbappendrecord`** on a non-empty chain. -/
theorem sbappendrecord_eq (hq : Linked st.mem st.sb.sbMb q)
    (ho : st.mem.Owns (qCells none q ++ seg inner none (x :: l))) :
    Becomes st q (q ++ [compressRecord (x :: l)]) (sbappendrecord st (some x.1)) := by
  have hx := ho.get
  obtain ⟨mem₁, hlink, ho₁⟩ := linkLast_eq ⟨st.mem, sballoc st.sb x.2⟩ x.1 hq.top hq.nonempty ho
  obtain ⟨mem', hrest, ho'⟩ := compressRest_eq
    ⟨mem₁, (sballoc st.sb x.2).setMb (qHead (some x.1) q)⟩ none ho₁.comm
  have hhead := head_compressRecord x l none
  refine ⟨mem', ?_, linked_concat hq.nonempty hhead ho'⟩
  rw [update_concat _ _ _ hhead]
  simp only [sbappendrecord, hx, ok_bind, inner_toMbufBody]
  rw [hlink, ok_bind, hrest]
  congr 2
  ext <;> simp <;> omega

/-! ## Appending to the last record -/

/-- The `do` loop of `sbappend` on a record. -/
theorem lastUnlessEor_eq (np : Option ℕ) (fuel : ℕ) (hcells : mem.Holds (recCells np none (x :: l)))
    (hfuel : l.length < fuel) :
    lastUnlessEor mem fuel x.1 =
      .ok (if (x :: l).any (·.2.eor) then none else (x :: l).getLast?.map Prod.fst) := by
  induction l generalizing x np fuel with
    (obtain ⟨fuel, rfl⟩ := exists_fuel hfuel
     simp only [recCells_cons, Mem.holds_cons] at hcells)
  | nil =>
    simp only [lastUnlessEor, Mem.get_eq_ok hcells.1, ok_bind]
    cases he : x.2.eor <;> simp [he]
  | cons y l ih =>
    have hrec := ih none fuel (by
      exact hcells.2) (by simpa using hfuel)
    simp only [lastUnlessEor, Mem.get_eq_ok hcells.1, ok_bind, head_cons, hrec]
    rw [List.any_cons (a := x)]
    cases x.2.eor <;> rfl

/-- **The records after `sbappend`.** -/
def appendL (q : List Record) (l : Record) : List Record :=
  match q.getLast? with
  | none => if compress none l = [] then [] else [compress none l]
  | some r =>
    if r.any (·.2.eor) then q ++ [compressRecord l]
    else q.dropLast ++ [r.dropLast ++ compress r.getLast? l]

/-- `sbappend` on an empty buffer. -/
theorem sbappend_empty (hmb : st.sb.sbMb = none) (ho : st.mem.Owns (seg inner none (x :: l))) :
    Becomes st [] (appendL [] (x :: l)) (sbappend st (some x.1)) := by
  obtain ⟨mem', hrun, ho'⟩ := sbcompress_eq (n := none) (l := x :: l) (F := []) st none
    (by simp) (by simpa using ho)
  simp only [head_cons, map_none] at hrun
  rw [sbappend]
  simp only [hrun]
  refine ⟨mem', ?_, ?_⟩
  · by_cases hnil : compress none (x :: l) = []
    · simp [appendL, hnil, Sockbuf.attach, Sockbuf.update, hmb]
    · simp [appendL, hnil, Sockbuf.attach, Sockbuf.update, hmb]
  · simp only [appendL, List.getLast?_nil]
    split_ifs with hnil
    · exact linked_nil
    · exact linked_of_owns (by simpa using hnil) ho'

/-- What `sbappend` finds out about the last record of a non-empty buffer. -/
theorem sbappend_search {r : Record} (x : ℕ) (hq : Linked st.mem st.sb.sbMb (q ++ [r])) :
    sbappend st (some x) =
      if r.any (·.2.eor) then sbappendrecord st (some x)
      else sbcompress st (some x) (r.getLast?.map Prod.fst) := by
  obtain ⟨z, t, rfl⟩ := List.exists_cons_of_ne_nil (hq.nonempty r (by simp))
  have hlt := length_flatten_lt_fuel hq.owns
  have hqlen := length_le_flatten hq.nonempty
  obtain ⟨a, ha⟩ := exists_qHead hq.nonempty (by simp) none
  have hlast : lastPkt st.mem st.fuel a = .ok z.1 := by
    refine lastPkt_eq (fun r hr => hq.nonempty r (by simp [hr])) hq.cells ha ?_
    rw [List.length_append] at hqlen
    omega
  have hscan : lastUnlessEor st.mem st.fuel z.1 =
      .ok (if (z :: t).any (·.2.eor) then none else (z :: t).getLast?.map Prod.fst) := by
    refine lastUnlessEor_eq none _ ?_ ?_
    · have hcells := hq.cells
      rw [qCells_append, Mem.holds_append] at hcells
      simpa using hcells.2
    · simp only [List.flatten_append, List.flatten_singleton, List.length_append,
        List.length_cons] at hlt
      omega
  rw [sbappend, hq.top, ha]
  simp only [hlast, ok_bind, hscan]
  cases (z :: t).any (·.2.eor) with
  | true => rfl
  | false =>
    rfl

/-- `sbappend` on a buffer whose last record `pre ++ [y]` has no `M_EOR`. -/
theorem sbappend_extend {pre : Record} {y : Node}
    (hq : Linked st.mem st.sb.sbMb (q ++ [pre ++ [y]]))
    (ho : st.mem.Owns (qCells none (q ++ [pre ++ [y]]) ++ seg inner none (x :: l)))
    (he : (pre ++ [y]).any (·.2.eor) = false) :
    Becomes st (q ++ [pre ++ [y]]) (q ++ [pre ++ compress (some y) (x :: l)])
      (sbappend st (some x.1)) := by
  have hnp : npAfter none pre = none := by simp [npAfter]
  have hhead := head_compress_some y.1 y.2 (x :: l) none
  rw [qCells_append, qCells_cons, qHead_nil, qCells_nil, List.append_nil,
    recCells_split, hnp, ← List.append_assoc, List.append_assoc _ _ (seg _ _ _)] at ho
  have hrest := ho.comm
  -- everything but the last mbuf and the new ones is left alone
  obtain ⟨mem', hrun, ho'⟩ := sbcompress_eq (n := some y) (l := x :: l)
    (F := qCells (head none (pre ++ [y])) q ++ recCells none (some y.1) pre) st none (by simp)
    hrest
  -- the first mbuf of the last record stays the first
  have hfirst : head none (pre ++ compress (some y) (x :: l)) = head none (pre ++ [y]) := by
    rw [head_append, head_append, hhead]
    rfl
  obtain ⟨a, ha⟩ : ∃ a, head none (pre ++ [y]) = some a := by
    cases pre <;> exact ⟨_, rfl⟩
  refine ⟨mem', ?_, linked_concat (fun r hr => hq.nonempty r (by simp [hr]))
    (hfirst.trans ha) ?_⟩
  · rw [sbappend_search x.1 hq, he]
    simp only [Bool.false_eq_true, if_false, List.getLast?_append, List.getLast?_singleton, some_or]
    simp only [head_cons] at hrun
    rw [hrun, attach_some]
    congr 2
    ext <;> simp [hq.top, qHead_append, hfirst] <;> omega
  · rw [recCells_split_of_head none pre hhead, hnp]
    have hback := ho'.comm
    rw [ha, List.append_assoc] at hback
    exact hback.comm

/-- **`sbappend`** on a non-empty chain. -/
theorem sbappend_eq (hq : Linked st.mem st.sb.sbMb q)
    (ho : st.mem.Owns (qCells none q ++ seg inner none (x :: l))) :
    Becomes st q (appendL q (x :: l)) (sbappend st (some x.1)) := by
  rcases q.eq_nil_or_concat' with rfl | ⟨q, r, rfl⟩
  · exact sbappend_empty hq.top ho
  · cases he : r.any (·.2.eor) with
    | true =>
      rw [sbappend_search x.1 hq, he]
      simpa [appendL, he] using sbappendrecord_eq hq ho
    | false =>
      rcases r.eq_nil_or_concat' with rfl | ⟨pre, y, rfl⟩
      · exact absurd rfl (hq.nonempty [] (by simp))
      · simpa [appendL, he] using sbappend_extend hq ho he

/-! ## Out-of-band data -/

/-- A train of out-of-band data: its first mbuf that is not control is of type
`MT_OOBDATA`. -/
def isOob : Record → Bool
  | [] => false
  | x :: l =>
    match x.2.mType with
    | .oobdata => true
    | .control => isOob l
    | _ => false

theorem oobTrain_eq (np : Option ℕ) (fuel : ℕ) (hcells : mem.Holds (recCells np none (x :: l)))
    (hfuel : l.length < fuel) : oobTrain mem fuel x.1 = .ok (isOob (x :: l)) := by
  induction l generalizing x np fuel with
    (obtain ⟨fuel, rfl⟩ := exists_fuel hfuel
     simp only [recCells_cons, Mem.holds_cons] at hcells)
  | nil =>
    simp only [oobTrain, Mem.get_eq_ok hcells.1, ok_bind, head_nil, isOob]
    cases x.2.mType <;> rfl
  | cons y l ih =>
    have hrec := ih none fuel (by
      exact hcells.2) (by simpa using hfuel)
    simp only [oobTrain, Mem.get_eq_ok hcells.1, ok_bind, head_cons]
    rw [isOob]
    cases x.2.mType
    case control => exact hrec
    all_goals rfl

/-- The first mbuf of the last of some records, or `mp` if there is none. -/
def lastHead (mp : Option ℕ) : List Record → Option ℕ
  | [] => mp
  | r :: q => lastHead (head none r) q

theorem lastHead_concat (mp : Option ℕ) (q : List Record) (r : Record) :
    lastHead mp (q ++ [r]) = head none r := by
  induction q generalizing mp with
  | nil => rfl
  | cons s q ih => exact ih _

/-- The `for` loop of `sbinsertoob` passes the leading out-of-band trains. -/
theorem oobPlace_eq (hne : ∀ r ∈ q, r ≠ []) (hcells : mem.Holds (qCells none q))
    (hlen : q.flatten.length ≤ mem.brk) (mp : Option ℕ) (fuel : ℕ) (hfuel : q.length < fuel) :
    oobPlace mem fuel mp (qHead none q) =
      .ok (lastHead mp (q.takeWhile isOob), qHead none (q.dropWhile isOob)) := by
  induction q generalizing mp fuel with
    obtain ⟨fuel, rfl⟩ := exists_fuel hfuel
  | nil =>
    rfl
  | cons r q ih =>
    obtain ⟨x, l, rfl⟩ := List.exists_cons_of_ne_nil (hne r (by simp))
    rw [qCells_cons, Mem.holds_append] at hcells
    have hx := hcells.1
    rw [recCells_cons, Mem.holds_cons] at hx
    simp only [List.flatten_cons, List.length_append, List.length_cons] at hlen
    have htrain := oobTrain_eq _ (mem.brk + 1) hcells.1 (by omega)
    have hrec := ih (fun r hr => hne r (by simp [hr])) hcells.2 (by omega) (some x.1) fuel
      (by simpa using hfuel)
    simp only [oobPlace, qHead_cons, head_cons, htrain, ok_bind]
    cases hoob : isOob (x :: l) with
    | true =>
      simp only [if_pos, Mem.get_eq_ok hx.1, ok_bind, hrec,
        List.takeWhile_cons_of_pos hoob, List.dropWhile_cons_of_pos hoob]
      rfl
    | false =>
      rw [List.takeWhile_cons_of_neg (by simp [hoob]),
        List.dropWhile_cons_of_neg (by simp [hoob])]
      rfl

/-- **The records after `sbinsertoob`.** -/
def insertOobL (q : List Record) (l : Record) : List Record :=
  q.takeWhile isOob ++ compressRecord l :: q.dropWhile isOob

/-- The pointer cell that `sbinsertoob` stores into is the link out of the
out-of-band trains `q`. -/
theorem storeAt_eq (st : St) (tail : Option ℕ) (m : ℕ) (htop : st.sb.sbMb = qHead tail q)
    (hne : ∀ r ∈ q, r ≠ []) (ho : st.mem.Owns (qCells tail q ++ F)) :
    ∃ mem', storeAt st (lastHead none q) m = .ok ⟨mem', st.sb.setMb (qHead (some m) q)⟩ ∧
      mem'.Owns (qCells (some m) q ++ F) := by
  rcases q.eq_nil_or_concat' with rfl | ⟨q, r, rfl⟩
  · exact ⟨st.mem, rfl, ho⟩
  · obtain ⟨x, l, rfl⟩ := List.exists_cons_of_ne_nil (hne r (by simp))
    obtain ⟨c, hget, hset⟩ := owns_relink m ho
    refine ⟨_, ?_, hset⟩
    simp only [storeAt, lastHead_concat, head_cons, hget, ok_bind, pure_eq_ok]
    rw [qHead_concat_cons] at htop ⊢
    rw [← htop]
    rfl

/-- **`sbinsertoob`** on a non-empty chain. -/
theorem sbinsertoob_eq (hq : Linked st.mem st.sb.sbMb q)
    (ho : st.mem.Owns (qCells none q ++ seg inner none (x :: l))) :
    Becomes st q (insertOobL q (x :: l)) (sbinsertoob st (some x.1)) := by
  have hlen := length_flatten_lt_fuel hq.owns
  have hqlen := length_le_flatten hq.nonempty
  have hplace := oobPlace_eq hq.nonempty hq.cells (Nat.lt_succ_iff.mp hlen) none st.fuel (by omega)
  rw [← hq.top] at hplace
  -- from here on only the two parts of the queue matter
  rw [insertOobL]
  generalize hq₁ : q.takeWhile isOob = q₁ at *
  generalize hq₂ : q.dropWhile isOob = q₂ at *
  obtain rfl : q = q₁ ++ q₂ := by rw [← hq₁, ← hq₂, List.takeWhile_append_dropWhile]
  rw [qCells_append] at ho
  have hset := ho.set { x.2 with mNext := head none l, mNextpkt := qHead none q₂ }
  rw [List.append_assoc] at hset
  obtain ⟨mem₂, hstore, ho₂⟩ := storeAt_eq (q := q₁) ⟨_, sballoc st.sb x.2⟩ (qHead none q₂) x.1
    (by rw [← qHead_append]; exact hq.top) (fun r hr => hq.nonempty r (by simp [hr])) hset
  rw [← List.append_assoc] at ho₂
  obtain ⟨mem', hrest, ho'⟩ := compressRest_eq
    ⟨mem₂, (sballoc st.sb x.2).setMb (qHead (some x.1) q₁)⟩ (qHead none q₂) ho₂.comm
  have hhead := head_compressRecord x l none
  refine ⟨mem', ?_, linked_insert hq.nonempty hhead ho'⟩
  simp only [sbinsertoob, hplace, ok_bind, ho.get, inner_toMbufBody]
  refine (congrArg (· >>= fun s => compressRest s x.1) hstore).trans ?_
  simp only [ok_bind, hrest]
  congr 2
  ext <;> simp [qHead_append, hhead] <;> omega

/-! ## Records with an address or control data -/

theorem chainLen_eq (hcells : mem.Holds (seg inner none l)) (fuel : ℕ) (last : Option ℕ) (space : ℤ)
    (hfuel : l.length < fuel) :
    chainLen mem fuel (head none l) last space =
      .ok ((l.getLast?.map Prod.fst).or last, space + lenSum l) := by
  induction l generalizing fuel last space with
    obtain ⟨fuel, rfl⟩ := exists_fuel hfuel
  | nil =>
    simp [chainLen]
  | cons x l ih =>
    rw [seg_cons, Mem.holds_cons] at hcells
    have hrec := ih hcells.2 fuel (some x.1) (space + x.2.mLen) (by simpa using hfuel)
    simp only [chainLen, head_cons, Mem.get_eq_ok hcells.1, ok_bind, inner_toMbufBody,
      inner_mNext, hrec, lenSum_cons]
    rw [Nat.cast_add, ← add_assoc]
    cases l with
    | nil => rfl
    | cons y l =>
      rfl

theorem sballocChain_eq (hcells : mem.Holds (seg inner none l)) (fuel : ℕ) (sb : Sockbuf)
    (hfuel : l.length < fuel) :
    sballocChain mem fuel (head none l) sb = .ok (sb.exchange [] l) := by
  induction l generalizing fuel sb with
    obtain ⟨fuel, rfl⟩ := exists_fuel hfuel
  | nil =>
    simp [sballocChain]
  | cons x l ih =>
    rw [seg_cons, Mem.holds_cons] at hcells
    simp only [sballocChain, head_cons, Mem.get_eq_ok hcells.1, ok_bind, inner_toMbufBody,
      inner_mNext, ih hcells.2 fuel _ (by simpa using hfuel)]
    congr 1
    ext <;> simp <;> omega

/-- Two chains become one. -/
theorem concat_eq (st : St) (lc l0 : Record)
    (ho : st.mem.Owns (seg inner none lc ++ (seg inner none l0 ++ F))) :
    ∃ mem', concat st (lc.getLast?.map Prod.fst) (head none l0) = .ok ⟨mem', st.sb⟩ ∧
      mem'.Owns (seg inner none (lc ++ l0) ++ F) := by
  rcases lc.eq_nil_or_concat' with rfl | ⟨pre, y, rfl⟩
  · exact ⟨st.mem, rfl, ho⟩
  · simp only [seg_append, seg_cons, seg_nil, head_cons, head_nil, List.append_assoc,
      List.cons_append, List.nil_append] at ho ⊢
    refine ⟨_, ?_, ho.set _⟩
    simp only [List.getLast?_append, List.getLast?_singleton, some_or, map_some,
      concat, ho.get, ok_bind]
    rfl

/-- A chain is counted and hung behind the last record as it is. -/
theorem addRecord_eq (st : St) (htop : st.sb.sbMb = qHead none q)
    (hne : ∀ r ∈ q, r ≠ []) (ho : st.mem.Owns (seg inner none (x :: l) ++ qCells none q)) :
    ∃ sb, sballocChain st.mem st.fuel (some x.1) st.sb = .ok sb ∧
      Becomes st q (q ++ [x :: l]) (linkLast { st with sb := sb } x.1) := by
  refine ⟨_, sballocChain_eq ho.left.cells _ _ (length_lt_fuel ho.left), ?_⟩
  obtain ⟨mem', hlink, ho'⟩ := linkLast_eq ⟨st.mem, st.sb.exchange [] (x :: l)⟩ x.1 htop hne
    ho.comm
  refine ⟨mem', ?_, linked_concat hne (head_cons none x l) ?_⟩
  · rw [hlink, update_concat _ _ _ (head_cons none x l)]
  · rw [recCells_none]
    exact ho'.comm

/-- `m_pkthdr.len` of a chain, where there is one to read. -/
def pktLen : Record → Option ℤ
  | [] => some 0
  | x :: _ => x.2.pkthdr

/-- The space `sbappendaddr` asks for. -/
def addrSpace (asa : List (BitVec 8)) (p : ℤ) (lc : Record) : ℤ := asa.length + p + lenSum lc

section Addr

variable {st : St} {q : List Record} {asa : List (BitVec 8)} {lc l0 : Record} {p : ℤ}

theorem pkthdrLen_eq (h0 : st.mem.Holds (seg inner none l0)) (hpkt : pktLen l0 = some p) :
    pkthdrLen st.mem (head none l0) = .ok p := by
  cases l0 with
  | nil =>
    obtain rfl : 0 = p := by simpa [pktLen] using hpkt
    rfl
  | cons x l =>
    rw [seg_cons, Mem.holds_cons] at h0
    simp only [pktLen] at hpkt
    simp only [pkthdrLen, head_cons, Mem.get_eq_ok h0.1, ok_bind, inner_toMbufBody, hpkt]
    rfl

/-- `sbappendaddr` refuses for lack of space, an address that does not fit an
mbuf, or lack of mbufs, and then leaves the buffer alone. -/
theorem sbappendaddr_refuses {new : Option ℕ} (hc : st.mem.Owns (seg inner none lc))
    (h0 : st.mem.Holds (seg inner none l0)) (hpkt : pktLen l0 = some p)
    (hno : sbspace st.sb < addrSpace asa p lc ∨ MLEN < asa.length ∨ new = none) :
    sbappendaddr st asa (head none l0) (head none lc) new = .ok (st, false) := by
  simp only [sbappendaddr, pkthdrLen_eq h0 hpkt, ok_bind,
    chainLen_eq hc.cells st.fuel none _ (length_lt_fuel hc)]
  by_cases h1 : asa.length + p + lenSum lc > sbspace st.sb
  · rw [if_pos h1]
    rfl
  · rw [if_neg h1]
    by_cases h2 : asa.length > MLEN
    · rw [if_pos h2]
      rfl
    · rw [if_neg h2]
      rcases hno with h | h | rfl
      · exact absurd h h1
      · exact absurd h h2
      · rfl

/-- **`sbappendaddr`** when it returns 1. -/
theorem sbappendaddr_eq (asa : List (BitVec 8)) (hq : Linked st.mem st.sb.sbMb q)
    (ho : st.mem.Owns (seg inner none lc ++ (seg inner none l0 ++ qCells none q)))
    (ha : a ∉ (lc ++ l0 ++ q.flatten).map Prod.fst) (hpkt : pktLen l0 = some p)
    (hspace : addrSpace asa p lc ≤ sbspace st.sb) (hasa : asa.length ≤ MLEN) :
    ∃ st', sbappendaddr st asa (head none l0) (head none lc) (some a) = .ok (st', true) ∧
      Becomes st q (q ++ [(a, mget .soname asa) :: (lc ++ l0)]) (.ok st') := by
  obtain ⟨mem₁, hcat, ho₁⟩ := concat_eq st lc l0 ho
  obtain ⟨sb, halloc, mem', hlink, hmem'⟩ := addRecord_eq
    ⟨mem₁.set a (addrMbuf asa (head none (lc ++ l0))), st.sb⟩
    (x := (a, mget .soname asa)) hq.top hq.nonempty
    (ho₁.alloc (by simpa using ha) _)
  refine ⟨_, ?_, mem', rfl, hmem'⟩
  have hcontrol : (if (lc.getLast?.map Prod.fst).isSome then head none lc else head none l0) =
      head none (lc ++ l0) := by
    cases lc with
    | nil => rfl
    | cons x l => simp
  simp only [sbappendaddr, pkthdrLen_eq ho.right.left.cells hpkt, ok_bind,
    chainLen_eq ho.left.cells st.fuel none _ (length_lt_fuel ho.left)]
  rw [if_neg (by exact not_lt.mpr hspace), if_neg (not_lt.mpr hasa)]
  simp only [addAddr, or_none, hcat, ok_bind, hcontrol, halloc, hlink]
  rfl

section

variable {x : Node} {l : Record}
  (ho : st.mem.Owns (seg inner none (x :: l) ++ (seg inner none l0 ++ qCells none q)))

include ho

/-- What `sbappendcontrol` counts. -/
theorem chainLen_control :
    chainLen st.mem st.fuel (some x.1) none 0 =
        .ok ((x :: l).getLast?.map Prod.fst, 0 + lenSum (x :: l)) ∧
      chainLen st.mem st.fuel (head none l0) none (0 + lenSum (x :: l)) =
        .ok (l0.getLast?.map Prod.fst, lenSum (x :: l ++ l0)) := by
  have hlc := chainLen_eq ho.left.cells st.fuel none 0 (length_lt_fuel ho.left)
  have hl0 := chainLen_eq ho.right.left.cells st.fuel none (0 + lenSum (x :: l))
    (length_lt_fuel ho.right.left)
  rw [or_none] at hl0
  refine ⟨hlc, hl0.trans ?_⟩
  rw [lenSum_append, Nat.cast_add, zero_add]

/-- **`sbappendcontrol`** when it returns 1. -/
theorem sbappendcontrol_eq (hq : Linked st.mem st.sb.sbMb q)
    (hspace : (lenSum (x :: l ++ l0) : ℤ) ≤ sbspace st.sb) :
    ∃ st', sbappendcontrol st (head none l0) (some x.1) = .ok (st', true) ∧
      Becomes st q (q ++ [x :: l ++ l0]) (.ok st') := by
  obtain ⟨mem₁, hcat, ho₁⟩ := concat_eq st (x :: l) l0 ho
  obtain ⟨sb, halloc, mem', hlink, hmem'⟩ := addRecord_eq ⟨mem₁, st.sb⟩
    hq.top hq.nonempty ho₁
  obtain ⟨hlc, hl0⟩ := chainLen_control ho
  refine ⟨_, ?_, mem', rfl, hmem'⟩
  simp only [sbappendcontrol, hlc, ok_bind, hl0]
  rw [if_neg (not_lt.mpr hspace)]
  simp only [hcat, ok_bind, halloc, hlink]
  rfl

/-- `sbappendcontrol` refuses for lack of space only. -/
theorem sbappendcontrol_refuses (hspace : sbspace st.sb < lenSum (x :: l ++ l0)) :
    sbappendcontrol st (head none l0) (some x.1) = .ok (st, false) := by
  obtain ⟨hlc, hl0⟩ := chainLen_control ho
  simp only [sbappendcontrol, hlc, ok_bind, hl0]
  rw [if_pos hspace]
  rfl

end

end Addr

end BSDLite2.SockBuf
