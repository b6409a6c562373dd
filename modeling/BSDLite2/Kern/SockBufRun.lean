import BSDLite2.Kern.SockBufQueue

/-!
# Socket buffers over whole runs

A run is any sequence of calls of the functions of `uipc_socket2.c` on one socket
buffer.  Between two calls the rest of the kernel may allocate, change and free
mbufs, as long as it leaves those in the buffer alone, and each call is passed
mbuf chains that are not in the buffer.

`runs_consistent` is the result: in every state of every run the pointers of the
buffer form a list of records, its counters are the sums over the mbufs that can
be reached through the pointers, and its bytes are those of the queue that the
same sequence of operations yields on `List (List Tok)`; and the next call
returns.
-/

namespace BSDLite2.SockBuf

open Heap Prod

/-! ## What is in a buffer -/

/-- The mbufs that can be reached from the pointer `p`. -/
inductive Reachable (mem : Mem Mbuf) (p : Option ℕ) : ℕ → Prop
  | top {a : ℕ} : p = some a → Reachable mem p a
  | next {a b : ℕ} {c : Mbuf} : Reachable mem p a → mem.cells a = some c → c.mNext = some b →
      Reachable mem p b
  | nextpkt {a b : ℕ} {c : Mbuf} : Reachable mem p a → mem.cells a = some c →
      c.mNextpkt = some b → Reachable mem p b

theorem mNext_mem_seg (l : Record) : ∀ x ∈ seg inner none l, ∀ b, x.2.mNext = some b →
    b ∈ l.map fst := by
  induction l with
  | nil => simp
  | cons y l ih =>
    rintro x hx b hb
    rw [seg_cons, List.mem_cons] at hx
    rcases hx with rfl | hx
    · cases l with
      | nil => simp at hb
      | cons z l => simp_all
    · exact List.mem_cons_of_mem _ (ih x hx b hb)

theorem mNextpkt_of_mem_seg (l : Record) (tail : Option ℕ) :
    ∀ x ∈ seg inner tail l, x.2.mNextpkt = none := by
  induction l with
  | nil => simp
  | cons y l ih =>
    rintro x hx
    rw [seg_cons, List.mem_cons] at hx
    rcases hx with rfl | hx
    · rfl
    · exact ih x hx

/-- The links out of the cells of a list of records lead back into it, and only
first mbufs have an `m_nextpkt`. -/
theorem links_mem_qCells (q : List Record) : ∀ x ∈ qCells none q,
    (∀ b, x.2.mNext = some b → b ∈ q.flatten.map fst) ∧
    (∀ b, x.2.mNextpkt = some b → b ∈ q.flatten.map fst) ∧
    (x.2.mNextpkt ≠ none → some x.1 ∈ q.map (head none)) := by
  induction q with
  | nil => simp
  | cons r q ih =>
    rintro x hx
    rw [qCells_cons, List.mem_append] at hx
    rw [List.flatten_cons, List.map_append]
    rcases hx with hx | hx
    · cases r with
      | nil => simp at hx
      | cons y l =>
        rw [recCells_cons, List.mem_cons] at hx
        rcases hx with rfl | hx
        · refine ⟨fun b hb => ?_, fun b hb => ?_, by simp⟩
          · cases l <;> simp_all
          · refine List.mem_append_right _ ?_
            cases q with
            | nil => simp at hb
            | cons r q => cases r <;> simp_all
        · have hnp := mNextpkt_of_mem_seg l none x hx
          refine ⟨fun b hb => ?_, by simp [hnp], by simp [hnp]⟩
          exact List.mem_append_left _ (List.mem_cons_of_mem _ (mNext_mem_seg l x hx b hb))
    · obtain ⟨h1, h2, h3⟩ := ih x hx
      exact ⟨fun b hb => List.mem_append_right _ (h1 b hb),
        fun b hb => List.mem_append_right _ (h2 b hb), fun hb => List.mem_cons_of_mem _ (h3 hb)⟩

section Reach

variable {mem : Mem Mbuf} {p : Option ℕ} {q : List Record}

/-- The cell of an mbuf in the list. -/
theorem Linked.mem_qCells (hq : Linked mem p q) {a : ℕ} {c : Mbuf}
    (ha : a ∈ q.flatten.map fst) (hc : mem.cells a = some c) : (a, c) ∈ qCells none q := by
  rw [← map_fst_qCells none q, List.mem_map] at ha
  obtain ⟨x, hx, rfl⟩ := ha
  obtain rfl : x.2 = c := Option.some.inj ((hq.cells x hx).symm.trans hc)
  exact hx

theorem reachable_chain (l : Record) : ∀ r : Option ℕ, mem.Holds (seg inner r l) →
    (∀ a ∈ head none l, Reachable mem p a) → ∀ a ∈ l.map fst, Reachable mem p a := by
  induction l with
  | nil => simp
  | cons x l ih =>
    intro r hcells hhead a ha
    rw [seg_cons, Mem.holds_cons] at hcells
    have hx : Reachable mem p x.1 := hhead x.1 rfl
    rw [List.map_cons, List.mem_cons] at ha
    rcases ha with rfl | ha
    · exact hx
    · refine ih r hcells.2 (fun b hb => ?_) a ha
      cases l with
      | nil => simp at hb
      | cons y l => exact hx.next hcells.1 hb

theorem reachable_of_cells (q : List Record) : (∀ r ∈ q, r ≠ []) → mem.Holds (qCells none q) →
    (∀ a ∈ qHead none q, Reachable mem p a) →
    ∀ a ∈ q.flatten.map fst, Reachable mem p a := by
  induction q with
  | nil => simp
  | cons r q ih =>
    intro hne hcells hhead a ha
    obtain ⟨x, l, rfl⟩ := List.exists_cons_of_ne_nil (hne r (by simp))
    rw [qCells_cons, Mem.holds_append, recCells_cons, Mem.holds_cons] at hcells
    obtain ⟨⟨hx, hl⟩, hrest⟩ := hcells
    have hreach : Reachable mem p x.1 := hhead x.1 rfl
    rw [List.flatten_cons, List.map_append, List.map_cons, List.cons_append, List.mem_cons,
      List.mem_append] at ha
    rcases ha with rfl | ha | ha
    · exact hreach
    · refine reachable_chain l none hl (fun b hb => ?_) a ha
      exact hreach.next hx hb
    · refine ih (fun r hr => hne r (List.mem_cons_of_mem _ hr)) hrest (fun b hb => ?_) a ha
      exact hreach.nextpkt hx hb

/-- **What is reachable is what is in the list.** -/
theorem Linked.reachable_iff (hq : Linked mem p q) (a : ℕ) :
    Reachable mem p a ↔ a ∈ q.flatten.map fst := by
  constructor
  · intro h
    induction h with
    | @top a htop =>
      rw [hq.top] at htop
      cases q with
      | nil => simp at htop
      | cons r q => cases r <;> simp_all
    | next _ hc hnext ih => exact (links_mem_qCells q _ (hq.mem_qCells ih hc)).1 _ hnext
    | nextpkt _ hc hnext ih => exact (links_mem_qCells q _ (hq.mem_qCells ih hc)).2.1 _ hnext
  · refine reachable_of_cells q hq.nonempty hq.cells (fun b hb => ?_) a
    exact .top (hq.top.trans hb)

end Reach

/-! ## Calls -/

/-- A call of one of the functions.  A chain is given as the list of its mbufs;
`new` is what `MGET` gives to `sbappendaddr`. -/
inductive Op where
  | append (m : Record)
  | appendRecord (m0 : Record)
  | insertOob (m0 : Record)
  | appendAddr (asa : List (BitVec 8)) (m0 control : Record) (new : Option ℕ)
  | appendControl (m0 control : Record)
  | drop (len : ℤ)
  | dropRecord
  | flush

/-- The mbufs passed. -/
def Op.passed : Op → Record
  | .append m => m
  | .appendRecord m0 => m0
  | .insertOob m0 => m0
  | .appendAddr _ m0 control _ => control ++ m0
  | .appendControl m0 control => control ++ m0
  | _ => []

/-- The chains passed are in the heap, each ending in a null `m_next`. -/
def Op.inHeap (mem : Mem Mbuf) : Op → Prop
  | .append m => mem.Holds (seg inner none m)
  | .appendRecord m0 => mem.Holds (seg inner none m0)
  | .insertOob m0 => mem.Holds (seg inner none m0)
  | .appendAddr _ m0 control _ =>
    mem.Holds (seg inner none m0) ∧ mem.Holds (seg inner none control)
  | .appendControl m0 control =>
    mem.Holds (seg inner none m0) ∧ mem.Holds (seg inner none control)
  | _ => True

/-- The mbufs used: those passed, and the one allocated by `sbappendaddr`. -/
def Op.addrs (op : Op) : List ℕ :=
  match op with
  | .appendAddr _ _ _ new => new.toList ++ op.passed.map fst
  | _ => op.passed.map fst

/-- What the code requires of its callers: otherwise `sbappendaddr`,
`sbappendcontrol`, `sbdrop` and `sbflush` panic. -/
def Op.allowed (sb : Sockbuf) : Op → Prop
  | .appendAddr _ m0 _ _ => pktLen m0 ≠ none
  | .appendControl _ control => control ≠ []
  | .drop len => len ≤ sb.sbCc
  | .flush => sb.sbLock = false
  | _ => True

/-- **A call that may be made**: the mbufs are distinct and not in the buffer. -/
structure Ready (st : St) (op : Op) : Prop where
  inHeap : op.inHeap st.mem
  distinct : op.addrs.Nodup
  outside : ∀ a ∈ op.addrs, ¬ Reachable st.mem st.sb.sbMb a
  allowed : op.allowed st.sb

/-- The call.  The functions without a return value count as successful. -/
def call (st : St) : Op → Except Stop (St × Bool)
  | .append m => (·, true) <$> sbappend st (head none m)
  | .appendRecord m0 => (·, true) <$> sbappendrecord st (head none m0)
  | .insertOob m0 => (·, true) <$> sbinsertoob st (head none m0)
  | .appendAddr asa m0 control new => sbappendaddr st asa (head none m0) (head none control) new
  | .appendControl m0 control => sbappendcontrol st (head none m0) (head none control)
  | .drop len => (·, true) <$> sbdrop st len
  | .dropRecord => (·, true) <$> sbdroprecord st
  | .flush => (·, true) <$> sbflush st

/-- How many trains at the front of the buffer are out-of-band data. -/
def oobSkip (mem : Mem Mbuf) : ℕ → Option ℕ → ℕ
  | 0, _ => 0
  | _ + 1, none => 0
  | fuel + 1, some m =>
    match oobTrain mem (mem.brk + 1) m, mem.get m with
    | .ok true, .ok c => oobSkip mem fuel c.mNextpkt + 1
    | _, _ => 0

/-- **The queue after a call** that returned `ok`, where `k` trains at the front
are out-of-band data.  `ended` decides whether a record can still be extended. -/
def qCall (ended : List Tok → Bool) (k : ℕ) (ok : Bool) (q : List (List Tok)) :
    Op → List (List Tok)
  | .append m => if m = [] then q else qAppend ended (packet m) q
  | .appendRecord m0 => if m0 = [] then q else q ++ [packet m0]
  | .insertOob m0 => if m0 = [] then q else q.take k ++ packet m0 :: q.drop k
  | .appendAddr asa m0 control _ =>
    if ok then q ++ [asa.map .byte ++ toks (control ++ m0)] else q
  | .appendControl m0 control => if ok then q ++ [toks (control ++ m0)] else q
  | .drop len => qDrop len.toNat q
  | .dropRecord => q.tail
  | .flush => []

/-! ## What a call does -/

/-- The buffer holds the records `q`, and its counters are right. -/
structure Represents (st : St) (q : List Record) : Prop where
  linked : Linked st.mem st.sb.sbMb q
  cc : st.sb.sbCc = lenSum q.flatten
  mbcnt : st.sb.sbMbcnt = mbSum q.flatten

theorem Becomes.represents {st st' : St} {q q' : List Record} (h : Becomes st q q' (.ok st'))
    (hr : Represents st q) : Represents st' q' := by
  obtain ⟨mem', heq, hlinked⟩ := h
  obtain rfl : st' = ⟨mem', st.sb.update q q'⟩ := by simpa using heq
  refine ⟨hlinked, ?_, ?_⟩
  · simp [hr.cc]
  · simp [hr.mbcnt]

/-- A function without a return value, as a call. -/
theorem Becomes.call {st : St} {q q' : List Record} {res : Except Stop St} (h : Becomes st q q' res)
    (hr : Represents st q) : ∃ st', (·, true) <$> res = .ok (st', true) ∧ Represents st' q' := by
  have h' := h
  obtain ⟨mem', rfl, -⟩ := h'
  exact ⟨_, rfl, h.represents hr⟩

theorem sbdrop_toNat (st : St) (len : ℤ) : sbdrop st len = sbdrop st len.toNat := by
  rcases le_total len 0 with h | h
  · have h0 : ¬ len > 0 := by omega
    simp [sbdrop, sbdropLoop, St.fuel, Nat.mul_add, h0]
  · rw [Int.toNat_of_nonneg h]

theorem oobSkip_eq {mem : Mem Mbuf} {q : List Record} (hne : ∀ r ∈ q, r ≠ [])
    (hcells : mem.Holds (qCells none q)) (hlen : q.flatten.length ≤ mem.brk) (fuel : ℕ)
    (hfuel : q.length < fuel) : oobSkip mem fuel (qHead none q) = (q.takeWhile isOob).length := by
  induction q generalizing fuel with
    obtain ⟨fuel, rfl⟩ := exists_fuel hfuel
  | nil =>
    rfl
  | cons r q ih =>
    obtain ⟨x, l, rfl⟩ := List.exists_cons_of_ne_nil (hne r (by simp))
    rw [qCells_cons, Mem.holds_append] at hcells
    simp only [List.flatten_cons, List.length_append, List.length_cons] at hlen hfuel
    have hx := hcells.1
    rw [recCells_cons, Mem.holds_cons] at hx
    simp only [oobSkip, qHead_cons, head_cons,
      oobTrain_eq _ _ hcells.1 (show l.length < mem.brk + 1 by omega), Mem.get_eq_ok hx.1]
    cases ho : isOob (x :: l) with
    | false => simp [ho]
    | true =>
      simp only [List.takeWhile_cons, ho, if_true, List.length_cons]
      rw [ih (fun r hr => hne r (List.mem_cons_of_mem _ hr)) hcells.2 (by omega) fuel
        (by omega)]

section Step

variable {st : St} {q : List Record}

/-- The mbufs of a call are none of those in the buffer. -/
theorem Ready.nodup {op : Op} (h : Ready st op) (hq : Linked st.mem st.sb.sbMb q) :
    (q.flatten.map fst ++ op.addrs).Nodup := by
  refine List.nodup_append.mpr ⟨hq.distinct, h.distinct, fun a ha b hb hab => ?_⟩
  exact h.outside b hb ((hq.reachable_iff b).mpr (hab ▸ ha))

section

variable (hq : Linked st.mem st.sb.sbMb q)

include hq

/-- A chain that is passed lies beside the buffer. -/
theorem Linked.beside {l : Record} (hl : st.mem.Holds (seg inner none l))
    (hd : (q.flatten.map fst ++ l.map fst).Nodup) :
    st.mem.Owns (qCells none q ++ seg inner none l) :=
  ⟨Mem.holds_append.mpr ⟨hq.cells, hl⟩, by simpa using hd⟩

/-- So do two chains. -/
theorem Linked.beside_two {lc l0 : Record}
    (h : st.mem.Holds (seg inner none l0) ∧ st.mem.Holds (seg inner none lc))
    (hd : (q.flatten.map fst ++ (lc ++ l0).map fst).Nodup) :
    st.mem.Owns (seg inner none lc ++ (seg inner none l0 ++ qCells none q)) := by
  rw [← List.append_assoc]
  refine Mem.Owns.comm ⟨?_, by simpa using hd⟩
  simp only [Mem.holds_append]
  exact ⟨hq.cells, h.2, h.1⟩

theorem oobSkip_of_linked : oobSkip st.mem st.fuel st.sb.sbMb = (q.takeWhile isOob).length := by
  have hlen := length_flatten_lt_fuel hq.owns
  have hqlen := length_le_flatten hq.nonempty
  rw [hq.top]
  exact oobSkip_eq hq.nonempty hq.cells (Nat.lt_succ_iff.mp hlen) _ (by omega)

end

/-- `sbappendaddr` refuses, or adds the address and the chains as they are. -/
theorem call_appendAddr (hr : Represents st q) {asa : List (BitVec 8)} {m0 control : Record}
    {new : Option ℕ} (h : Ready st (.appendAddr asa m0 control new)) :
    ∃ st' ok q', call st (.appendAddr asa m0 control new) = .ok (st', ok) ∧ Represents st' q' ∧
      q'.map toks = qCall hasEor 0 ok (q.map toks) (.appendAddr asa m0 control new) := by
  obtain ⟨p, hp⟩ := Option.ne_none_iff_exists'.mp h.allowed
  have hd := h.nodup hr.linked
  by_cases hspace : addrSpace asa p control ≤ sbspace st.sb ∧ asa.length ≤ MLEN ∧ new ≠ none
  · obtain ⟨hspace, hasa, hnew⟩ := hspace
    obtain ⟨a, rfl⟩ := Option.ne_none_iff_exists'.mp hnew
    obtain ⟨⟨haq, hal⟩, hd⟩ := nodup_middle_iff.mp hd
    obtain ⟨st', hrun, hbec⟩ := sbappendaddr_eq asa hr.linked
      (hr.linked.beside_two h.inHeap hd)
      (by rw [List.map_append, List.mem_append]; exact not_or.mpr ⟨hal, haq⟩) hp hspace hasa
    refine ⟨st', true, _, hrun, hbec.represents hr, ?_⟩
    simp [qCall, mget, bodyToks]
  · refine ⟨st, false, q, ?_, hr, rfl⟩
    have hdist := h.distinct.of_append_right
    rw [Op.passed, List.map_append] at hdist
    refine sbappendaddr_refuses ⟨h.inHeap.2, by simpa using hdist.of_append_left⟩ h.inHeap.1 hp ?_
    by_contra hno
    simp only [not_or, not_lt] at hno
    exact hspace hno

/-- `sbappendcontrol` refuses, or adds the chains as they are. -/
theorem call_appendControl (hr : Represents st q) {m0 control : Record}
    (h : Ready st (.appendControl m0 control)) :
    ∃ st' ok q', call st (.appendControl m0 control) = .ok (st', ok) ∧ Represents st' q' ∧
      q'.map toks = qCall hasEor 0 ok (q.map toks) (.appendControl m0 control) := by
  have hd := h.nodup hr.linked
  cases control with
  | nil => exact absurd rfl h.allowed
  | cons x l =>
    have ho := hr.linked.beside_two h.inHeap hd
    by_cases hspace : (lenSum (x :: l ++ m0) : ℤ) ≤ sbspace st.sb
    · obtain ⟨st', hrun, hbec⟩ := sbappendcontrol_eq ho hr.linked hspace
      refine ⟨st', true, _, hrun, hbec.represents hr, ?_⟩
      simp [qCall]
    · exact ⟨st, false, q, sbappendcontrol_refuses ho (not_le.mp hspace), hr, rfl⟩

/-- **The step lemma**: a call returns, and carries out the operation on the
queue. -/
theorem call_eq (hr : Represents st q) {op : Op} (h : Ready st op) :
    ∃ st' ok q', call st op = .ok (st', ok) ∧ Represents st' q' ∧
      q'.map toks = qCall hasEor (oobSkip st.mem st.fuel st.sb.sbMb) ok (q.map toks) op := by
  have hq := hr.linked
  have hd := h.nodup hq
  cases op with
  | append m =>
    cases m with
    | nil => exact ⟨st, true, q, rfl, hr, rfl⟩
    | cons x l =>
      obtain ⟨st', hrun, hr'⟩ := (sbappend_eq hq (hq.beside h.inHeap hd)).call hr
      exact ⟨st', true, _, hrun, hr', by simp [qCall, toks_appendL q hq.nonempty]⟩
  | appendRecord m0 =>
    cases m0 with
    | nil => exact ⟨st, true, q, rfl, hr, rfl⟩
    | cons x l =>
      obtain ⟨st', hrun, hr'⟩ := (sbappendrecord_eq hq (hq.beside h.inHeap hd)).call hr
      exact ⟨st', true, _, hrun, hr', by simp [qCall, toks_compressRecord]⟩
  | insertOob m0 =>
    cases m0 with
    | nil => exact ⟨st, true, q, rfl, hr, rfl⟩
    | cons x l =>
      obtain ⟨st', hrun, hr'⟩ := (sbinsertoob_eq hq (hq.beside h.inHeap hd)).call hr
      refine ⟨st', true, _, hrun, hr', ?_⟩
      rw [toks_insertOobL, oobSkip_of_linked hq]
      rfl
  | appendAddr asa m0 control new => exact call_appendAddr hr h
  | appendControl m0 control => exact call_appendControl hr h
  | drop len =>
    have hlen : len.toNat ≤ lenSum q.flatten := by
      have hcc := hr.cc
      have hle : len ≤ st.sb.sbCc := h.allowed
      omega
    obtain ⟨st', hrun, hr'⟩ := (sbdrop_eq hq hlen).call hr
    refine ⟨st', true, _, ?_, hr', by rw [toks_dropL]; rfl⟩
    rw [call, sbdrop_toNat]
    exact hrun
  | dropRecord =>
    obtain ⟨st', hrun, hr'⟩ := (sbdroprecord_eq hq).call hr
    exact ⟨st', true, _, hrun, hr', by rw [List.map_tail]; rfl⟩
  | flush =>
    obtain ⟨st', hrun, hr'⟩ := (sbflush_eq h.allowed hq hr.cc hr.mbcnt).call hr
    exact ⟨st', true, _, hrun, hr', rfl⟩

end Step

/-! ## Runs -/

/-- **A run** has led to a state, and the same operations lead to a queue. -/
inductive Run (ended : List Tok → Bool) : St → List (List Tok) → Prop
  /-- an empty socket buffer -/
  | start {st : St} : st.sb.sbCc = 0 → st.sb.sbMbcnt = 0 → st.sb.sbMb = none → Run ended st []
  /-- the rest of the kernel: mbufs outside the buffer, limits and lock -/
  | other {st st' : St} {A : List (List Tok)} : Run ended st A →
      (∀ a, Reachable st.mem st.sb.sbMb a → st'.mem.cells a = st.mem.cells a) →
      st'.sb.sbCc = st.sb.sbCc → st'.sb.sbMbcnt = st.sb.sbMbcnt → st'.sb.sbMb = st.sb.sbMb →
      Run ended st' A
  /-- a call that returns -/
  | call {st st' : St} {A : List (List Tok)} {op : Op} {ok : Bool} : Run ended st A →
      Ready st op → call st op = .ok (st', ok) →
      Run ended st' (qCall ended (oobSkip st.mem st.fuel st.sb.sbMb) ok A op)

/-- **The run lemma.** -/
theorem Run.represents {st : St} {A : List (List Tok)} (h : Run hasEor st A) :
    ∃ q, Represents st q ∧ q.map toks = A := by
  induction h with
  | start hcc hmb hnil =>
    exact ⟨[], ⟨hnil ▸ linked_nil, by simpa using hcc, by simpa using hmb⟩, rfl⟩
  | @other st st' A _ hmem hcc hmb htop ih =>
    obtain ⟨q, hr, hA⟩ := ih
    have hq := hr.linked
    refine ⟨q, ⟨⟨htop.trans hq.top, hq.nonempty, hq.distinct, fun x hx => ?_⟩,
      hcc.trans hr.cc, hmb.trans hr.mbcnt⟩, hA⟩
    rw [hmem x.1 ((hq.reachable_iff x.1).mpr ?_)]
    · exact hq.cells x hx
    · rw [← map_fst_qCells none q]
      exact List.mem_map_of_mem hx
  | call _ hready hcall ih =>
    obtain ⟨q, hr, rfl⟩ := ih
    obtain ⟨st₁, ok₁, q', hrun, hr', hA⟩ := call_eq hr hready
    rw [hcall] at hrun
    cases hrun
    exact ⟨q', hr', hA⟩

/-! ### A record with an end of record inside

`sosend` sets `M_EOR` on the first mbuf of the data, and `sbappendaddr` and `sbappendcontrol` do
not compress, so that it stays inside the record that they make. -/

/-- A control mbuf. -/
def rights : Node := (0, mget .control [1])

/-- Data in two mbufs, marked as `sosend` marks them. -/
def markedData : Record := [(1, { mget .data [2] with eor := true }), (2, mget .data [3])]

/-- Data for `sbappend`. -/
def moreData : Node := (3, mget .data [4])

/-- An empty socket buffer with room, in a heap with the two chains. -/
def roomy : St where
  mem := Mem.empty.install (seg inner none markedData ++ seg inner none [rights])
  sb := { sbCc := 0, sbHiwat := 1024, sbMbcnt := 0, sbMbmax := 1024, sbMb := none, sbLock := false }

theorem ready_control : Ready roomy (.appendControl markedData [rights]) := by
  refine ⟨Mem.holds_append.mp (Mem.holds_install _ (by decide)), by decide,
    fun a _ h => ?_, by simp [Op.allowed]⟩
  have hq : Linked roomy.mem roomy.sb.sbMb [] := linked_nil
  simpa using (hq.reachable_iff a).mp h

/-- Marked data passed to `sbappendcontrol`, then more to `sbappend`: these become a record of
their own. -/
theorem control_then_append (ended : List Tok → Bool) :
    ∃ st, Run ended st (qAppend ended [.byte 4] [[.byte 1, .byte 2, .eor, .byte 3]]) ∧
      Linked st.mem st.sb.sbMb [rights :: markedData, [moreData]] := by
  have hq₀ : Linked roomy.mem roomy.sb.sbMb [] := linked_nil
  obtain ⟨st₁, hcall₁, hbec₁⟩ := sbappendcontrol_eq
    (hq₀.beside_two ready_control.inHeap (by decide)) hq₀ (by decide)
  have hrun₁ : Run ended st₁ [[.byte 1, .byte 2, .eor, .byte 3]] :=
    (Run.start rfl rfl rfl).call ready_control hcall₁
  have hq₁ : Linked st₁.mem st₁.sb.sbMb [rights :: markedData] :=
    (hbec₁.represents ⟨hq₀, rfl, rfl⟩).linked
  -- the rest of the kernel puts data into a new mbuf
  have hout : ∀ a, Reachable st₁.mem st₁.sb.sbMb a → a ∉ [moreData].map fst := by
    intro a ha
    have hmem : a ∈ [0, 1, 2] := (hq₁.reachable_iff a).mp ha
    have hall : ∀ a ∈ [0, 1, 2], a ∉ [moreData].map fst := by decide
    exact hall a hmem
  let st₂ : St := ⟨st₁.mem.install (seg inner none [moreData]), st₁.sb⟩
  have hrun₂ : Run ended st₂ [[.byte 1, .byte 2, .eor, .byte 3]] :=
    hrun₁.other (fun a ha => Mem.cells_install_of_notMem _ (by simpa using hout a ha)) rfl rfl rfl
  have hq₂ : Linked st₂.mem st₂.sb.sbMb [rights :: markedData] :=
    ⟨hq₁.top, hq₁.nonempty, hq₁.distinct, hq₁.cells.install (by decide)⟩
  have hready₂ : Ready st₂ (.append [moreData]) := by
    refine ⟨Mem.holds_install _ (by decide), by decide, fun a ha h => ?_, trivial⟩
    exact hout a ((hq₁.reachable_iff a).mpr ((hq₂.reachable_iff a).mp h)) ha
  obtain ⟨mem₃, hcall₃, hq₃⟩ := sbappend_eq hq₂ (hq₂.beside hready₂.inHeap (hready₂.nodup hq₂))
  have hrun₃ := hrun₂.call hready₂ (congrArg (Functor.map (·, true)) hcall₃)
  exact ⟨_, hrun₃, hq₃⟩

/-- What can be said of the buffer in terms of its reachable mbufs. -/
structure Consistent (st : St) (A : List (List Tok)) (q : List Record) : Prop where
  /-- the pointers form the list of records -/
  linked : Linked st.mem st.sb.sbMb q
  /-- the list is all that is reachable -/
  reachable : ∀ a, Reachable st.mem st.sb.sbMb a ↔ a ∈ q.flatten.map fst
  cc : st.sb.sbCc = ((q.flatten.map fun x => x.2.mLen).sum : ℕ)
  mbcnt : st.sb.sbMbcnt = ((q.flatten.map fun x => MSIZE + x.2.ext.getD 0).sum : ℕ)
  /-- only first mbufs have an `m_nextpkt` -/
  nextpkt : ∀ a c, Reachable st.mem st.sb.sbMb a → st.mem.cells a = some c →
    c.mNextpkt ≠ none → some a ∈ q.map (head none)
  /-- the bytes are those of the queue -/
  content : q.map toks = A

/-- **Socket buffers are consistent over whole runs**, where a record that has an
end of record anywhere is not extended, and no call panics or fails to return. -/
theorem runs_consistent (st : St) (A : List (List Tok)) (h : Run hasEor st A) :
    (∃ q, Consistent st A q) ∧ ∀ op, Ready st op → ∃ st' ok, call st op = .ok (st', ok) := by
  obtain ⟨q, hr, hA⟩ := h.represents
  refine ⟨⟨q, hr.linked, hr.linked.reachable_iff, hr.cc, hr.mbcnt, ?_, hA⟩, fun op hop => ?_⟩
  · intro a c ha hc
    exact (links_mem_qCells q _ (hr.linked.mem_qCells ((hr.linked.reachable_iff a).mp ha) hc)).2.2
  · obtain ⟨st', ok, -, hrun, -⟩ := call_eq hr hop
    exact ⟨st', ok, hrun⟩

/-- The second record is there because the first has an `M_EOR` inside. -/
theorem control_then_append_consistent : ∃ st A, Run hasEor st A ∧ A.length = 2 ∧
    ((∃ q, Consistent st A q) ∧ ∀ op, Ready st op → ∃ st' ok, call st op = .ok (st', ok)) := by
  obtain ⟨st, hrun, -⟩ := control_then_append hasEor
  exact ⟨st, _, hrun, by decide, runs_consistent st _ hrun⟩

/-- If only an end of record at its end closed a record, the buffer would not
agree with the queue. -/
theorem interior_eor_closes_record : ∃ st A, Run endsInEor st A ∧ ¬ ∃ q, Consistent st A q := by
  obtain ⟨st, hrun, hq⟩ := control_then_append endsInEor
  refine ⟨st, _, hrun, ?_⟩
  rintro ⟨q, hcons⟩
  obtain ⟨r, rfl⟩ : ∃ r, q = [r] := List.length_eq_one_iff.mp (by
    rw [← List.length_map toks, hcons.content]
    decide)
  cases r with
  | nil => exact hcons.linked.nonempty [] (by simp) rfl
  | cons x l =>
    -- the one record starts where the two do, and nothing is linked behind it
    have hx : x.1 = rights.1 := by simpa using hcons.linked.top.symm.trans hq.top
    have hone := hcons.linked.cells _ (List.mem_cons_self ..)
    have htwo := hq.cells _ (List.mem_cons_self ..)
    have hnp := congrArg (Option.map Mbuf.mNextpkt) (hone.symm.trans ((congrArg _ hx).trans htwo))
    simp at hnp

end BSDLite2.SockBuf
