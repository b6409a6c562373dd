import BSDLite2.Kern.MbufChain
import BSDLite2.Lib.Pieces
import BSDLite2.Lib.Serial

/-!
# TCP reassembly (`netinet/tcp_input.c`)

Segments that arrive out of order wait in a queue sorted by sequence number.
`tcp_reass` puts a segment there, trimming it and its successors where they
overlap, and hands to the socket what has become contiguous with `rcv_nxt`; the
macro `TCP_REASS` does the common case without the queue.

* `Tiphdr` — a segment, with the mbufs that hold its data;
* `Tcprcv` — the part of a connection that reassembly works on;
* `tcpReass`, `TCP_REASS` — the code;
* `Placed` — a segment with its position in the stream, as an instance of
  `Pieces.Stretch`; `segQueue_agrees` and `presentLoop_eq` say that the code
  computes `Pieces.put` and `Pieces.advance`;
* `reass_delivers` — the stream is delivered, over whole runs.
-/

namespace BSDLite2.Tcp

open Mbuf Serial

/-! ## Sequence numbers and states -/

/-- `SEQ_LT`. -/
def seqLT (a b : BitVec 32) : Bool := decide (dist a b < 0)

/-- `SEQ_LEQ`. -/
def seqLEQ (a b : BitVec 32) : Bool := decide (dist a b ≤ 0)

/-- `SEQ_GT`. -/
def seqGT (a b : BitVec 32) : Bool := decide (dist a b > 0)

/-- The `TCPS_` states, in the order of their numbers. -/
inductive TState where
  | closed | listen | synSent | synReceived | established | closeWait | finWait1 | closing
  | lastAck | finWait2 | timeWait
  deriving DecidableEq

/-- The number of a state. -/
def TState.num : TState → ℕ
  | .closed => 0
  | .listen => 1
  | .synSent => 2
  | .synReceived => 3
  | .established => 4
  | .closeWait => 5
  | .finWait1 => 6
  | .closing => 7
  | .lastAck => 8
  | .finWait2 => 9
  | .timeWait => 10

/-- `TCPS_HAVERCVDSYN`. -/
def TState.haveRcvdSyn (s : TState) : Bool := decide (TState.synReceived.num ≤ s.num)

@[simp] theorem haveRcvdSyn_established : TState.established.haveRcvdSyn = true := rfl

/-- `TH_FIN`. -/
def TH_FIN : BitVec 8 := 0x01

/-! ## The code -/

/-- `struct tcpiphdr` of a segment in the queue, with `REASS_MBUF`. -/
structure Tiphdr where
  tiSeq : BitVec 32
  tiLen : ℤ
  tiFlags : BitVec 8
  m : Mbufs

/-- What reassembly uses of a `struct tcpcb` and its socket.  `segs` is the
circular list from `seg_next`, and `soRcv` the bytes that `sbappend` was given. -/
structure Tcprcv where
  segs : List Tiphdr
  rcvNxt : BitVec 32
  tState : TState
  /-- `TF_DELACK` and `TF_ACKNOW` in `t_flags` -/
  delack : Bool
  acknow : Bool
  /-- `SS_CANTRCVMORE` in `so_state` -/
  cantRcvMore : Bool
  soRcv : List (BitVec 8)

variable (tp : Tcprcv)

/-- By how much `q` reaches into `ti`: `q->ti_seq + q->ti_len - ti->ti_seq`. -/
def overlap (q ti : Tiphdr) : ℤ := dist (q.tiSeq + BitVec.ofInt 32 q.tiLen) ti.tiSeq

/-- A segment loses its first `i` bytes. -/
def trimFront (i : ℤ) (ti : Tiphdr) : Tiphdr :=
  { ti with m := mAdj ti.m i, tiLen := ti.tiLen - i, tiSeq := ti.tiSeq + BitVec.ofInt 32 i }

/-- How `tcp_reass` compares and trims the segments in its queue. -/
def segQueue : Pieces.Queue Tiphdr where
  startsAfter q ti := seqGT q.tiSeq ti.tiSeq
  overlap := overlap
  len := Tiphdr.tiLen
  cut := trimFront

/-- The queue with the segment in its place, trimmed by the preceding segment and
trimming the succeeding ones; nothing if the segment is a duplicate. -/
def enqueue (ti : Tiphdr) (segs : List Tiphdr) : Option (List Tiphdr) := segQueue.enqueue ti segs

/-- One turn of the loop that presents data: the segment at `rcv_nxt`. -/
def Tcprcv.accept (ti : Tiphdr) : Tcprcv :=
  { tp with
    rcvNxt := tp.rcvNxt + BitVec.ofInt 32 ti.tiLen
    soRcv := if tp.cantRcvMore then tp.soRcv else tp.soRcv ++ ti.m.bytes }

/-- The loop that presents data to the user.  The code tests the condition at the
end of a turn, and before the loop. -/
def presentLoop : List Tiphdr → Tcprcv → BitVec 8 → Tcprcv × BitVec 8
  | [], tp, flags => ({ tp with segs := [] }, flags)
  | ti :: segs, tp, flags =>
    if ti.tiSeq = tp.rcvNxt then presentLoop segs (tp.accept ti) (ti.tiFlags &&& TH_FIN)
    else ({ tp with segs := ti :: segs }, flags)

/-- `tcp_reass` from the label `present` on. -/
def present : Tcprcv × BitVec 8 :=
  if !tp.tState.haveRcvdSyn then (tp, 0)
  else match tp.segs with
    | [] => (tp, 0)
    | ti :: _ =>
      if ti.tiSeq ≠ tp.rcvNxt then (tp, 0)
      else if tp.tState = .synReceived ∧ ti.tiLen ≠ 0 then (tp, 0)
      else presentLoop tp.segs tp 0

/-- `tcp_reass`, where `none` stands for `ti == 0`. -/
def tcpReass : Option Tiphdr → Tcprcv × BitVec 8
  | none => present tp
  | some ti =>
    match enqueue ti tp.segs with
    | none => (tp, 0)
    | some segs => present { tp with segs := segs }

/-- The macro `TCP_REASS`: the common case inline. -/
def TCP_REASS (ti : Tiphdr) : Tcprcv × BitVec 8 :=
  if ti.tiSeq = tp.rcvNxt ∧ tp.segs = [] ∧ tp.tState = .established then
    ({ tp with
        delack := true
        rcvNxt := tp.rcvNxt + BitVec.ofInt 32 ti.tiLen
        soRcv := tp.soRcv ++ ti.m.bytes },
      ti.tiFlags &&& TH_FIN)
  else
    ({ (tcpReass tp (some ti)).1 with acknow := true }, (tcpReass tp (some ti)).2)

/-! ## Segments in the stream -/

/-- A segment, and the position of its first byte in the stream. -/
structure Placed where
  place : ℕ
  seg : Tiphdr

instance : Pieces.Stretch Placed where
  start e := e.place
  stop e := e.place + e.seg.tiLen.toNat
  trim x e := ⟨x, trimFront (x - e.place) e.seg⟩
  start_trim _ _ _ _ := rfl
  stop_trim x e hle hlt := by
    simp only [trimFront]
    omega

open Pieces Stretch

@[simp] theorem start_mk (e : Placed) : start e = e.place := rfl

@[simp] theorem stop_mk (e : Placed) : stop e = e.place + e.seg.tiLen.toNat := rfl

@[simp] theorem trim_mk (x : ℕ) (e : Placed) : trim x e = ⟨x, trimFront (x - e.place) e.seg⟩ := rfl

/-- The stretch of a stream. -/
def slice (S : ℕ → BitVec 8) (a n : ℕ) : List (BitVec 8) := (List.range' a n).map S

variable (S : ℕ → BitVec 8)

@[simp] theorem length_slice (a n : ℕ) : (slice S a n).length = n := by
  simp [slice]

theorem slice_append (a m n : ℕ) : slice S a m ++ slice S (a + m) n = slice S a (m + n) := by
  rw [slice, slice, slice, ← List.map_append, List.range'_append_1]

theorem drop_slice (a n i : ℕ) : (slice S a n).drop i = slice S (a + i) (n - i) := by
  rw [slice, slice, ← List.map_drop, List.drop_range', mul_one]

/-- A segment carries what the stream `S`, whose first byte has the number
`init`, has at its position. -/
structure IsSlice (S : ℕ → BitVec 8) (init : BitVec 32) (e : Placed) : Prop where
  seq : e.seg.tiSeq = pos init e.place
  len : 0 < e.seg.tiLen
  data : e.seg.m.bytes = slice S e.place e.seg.tiLen.toNat

/-- The segment ends within half the number space from position `r`, and does not
start before. -/
def Near (r : ℕ) (e : Placed) : Prop := r ≤ e.place ∧ stop e ≤ r + 2 ^ 31

section Refine

variable {S : ℕ → BitVec 8} {init : BitVec 32} {r : ℕ}

theorem IsSlice.trim {e : Placed} (h : IsSlice S init e) {x : ℕ} (hlt : start e < x)
    (hx : x < stop e) : IsSlice S init (trim x e) := by
  simp only [start_mk, stop_mk] at hlt hx
  refine ⟨?_, ?_, ?_⟩
  · simp [trimFront, h.seq]
  · simp only [trim_mk, trimFront]
    omega
  · simp only [trim_mk, trimFront]
    rw [bytes_mAdj_head _ (by omega), h.data, drop_slice]
    congr 1 <;> omega

/-- **Sequence numbers agree with positions**, for segments near the position `r`. -/
theorem segQueue_agrees (r : ℕ) : segQueue.Agrees Placed.seg (r + 1)
    fun e => IsSlice S init e ∧ Near r e := by
  refine ⟨?_, ?_, ?_, fun x a _ _ _ => rfl, ?_⟩
  · rintro a b ⟨ha, hna⟩ ⟨hb, hnb⟩
    have hla := ha.len
    simp only [Near, start_mk, stop_mk] at hna hnb ⊢
    show seqGT a.seg.tiSeq b.seg.tiSeq = _
    rw [seqGT, ha.seq, hb.seq, dist_pos_pos init (by omega) (by omega)]
    exact decide_eq_decide.mpr (by omega)
  · rintro a b ⟨ha, hna⟩ ⟨hb, hnb⟩ hlt
    have hla := ha.len
    simp only [Near, start_mk, stop_mk] at hna hnb hlt ⊢
    show overlap a.seg b.seg = _
    rw [overlap, ha.seq, hb.seq, pos_add_ofInt, dist_pos_pos init (by omega) (by omega)]
    omega
  · rintro a ⟨ha, -⟩
    have hla := ha.len
    simp only [segQueue, start_mk, stop_mk]
    omega
  · rintro x a ⟨ha, hna⟩ hlt hx
    refine ⟨ha.trim hlt hx, hna.1.trans hlt.le, ?_⟩
    rw [stop_trim x a hlt.le hx]
    exact hna.2

/-- **Presenting data** is `Pieces.advance`. -/
theorem presentLoop_eq {q : List Placed} : ∀ {r : ℕ} {tp : Tcprcv} {flags : BitVec 8},
    Ordered r q → (∀ e ∈ q, IsSlice S init e ∧ stop e ≤ r + 2 ^ 31) →
    tp.rcvNxt = pos init r → tp.cantRcvMore = false →
    (presentLoop (q.map Placed.seg) tp flags).1 =
      { tp with
        segs := (advance r q).2.map Placed.seg
        rcvNxt := pos init (advance r q).1
        soRcv := tp.soRcv ++ slice S r ((advance r q).1 - r) } := by
  induction q with
  | nil =>
    intro r tp flags _ _ hnxt hcant
    simp [presentLoop, advance, hnxt, slice]
  | cons a q ih =>
    intro r tp flags hord hq hnxt hcant
    obtain ⟨ha, hwin⟩ := hq a (by simp)
    have hlen := ha.len
    have hle : r ≤ a.place := hord.1
    -- within 2^31 of `rcv_nxt` equal numbers are equal positions
    have hiff : a.seg.tiSeq = tp.rcvNxt ↔ start a = r := by
      rw [ha.seq, hnxt]
      simp only [start_mk, stop_mk] at hwin ⊢
      rw [pos_eq_pos_iff init (by omega) (by omega)]
      omega
    rw [List.map_cons, presentLoop, advance]
    by_cases heq : start a = r
    · have hstop : (stop a : ℤ) = r + a.seg.tiLen := by
        simp only [start_mk, stop_mk] at heq ⊢
        omega
      rw [if_pos (hiff.mpr heq), if_pos heq, ih hord.2.2]
      · simp only [Tcprcv.accept, hcant, Bool.false_eq_true, if_false]
        obtain ⟨-, hadv⟩ := ordered_advance hord.2.2
        have hsplit : (advance (stop a) q).1 - r =
            a.seg.tiLen.toNat + ((advance (stop a) q).1 - stop a) := by
          omega
        rw [hsplit, ha.data, List.append_assoc, ← slice_append]
        simp only [start_mk, stop_mk] at heq ⊢
        rw [heq]
      · intro e he
        obtain ⟨h1, h2⟩ := hq e (by simp [he])
        exact ⟨h1, by omega⟩
      · rw [Tcprcv.accept, hnxt, pos_add_ofInt, hstop]
      · exact hcant
    · rw [if_neg (mt hiff.mp heq), if_neg heq]
      simp [hnxt, slice]

end Refine

/-! ## What reassembly does -/

/-- On an established connection `present` is its loop. -/
theorem present_eq (hest : tp.tState = .established) :
    (present tp).1 = (presentLoop tp.segs tp 0).1 := by
  obtain ⟨segs, rcvNxt, tState, delack, acknow, cantRcvMore, soRcv⟩ := tp
  subst hest
  unfold present
  cases segs with
  | nil => rfl
  | cons ti segs =>
    by_cases heq : ti.tiSeq = rcvNxt
    · simp [heq]
    · simp [heq, presentLoop]

/-- A connection but for the acknowledgements it has scheduled. -/
def Tcprcv.unscheduled : Tcprcv := { tp with delack := false, acknow := false }

/-- **The macro agrees with the function**, unless the user will receive no more. -/
theorem TCP_REASS_eq (ti : Tiphdr) (hcant : tp.cantRcvMore = false) :
    (TCP_REASS tp ti).1.unscheduled = (tcpReass tp (some ti)).1.unscheduled ∧
      (TCP_REASS tp ti).2 = (tcpReass tp (some ti)).2 := by
  unfold TCP_REASS
  split
  · next h =>
      obtain ⟨hseq, hsegs, hest⟩ := h
      simp [tcpReass, enqueue, Queue.enqueue, Queue.trimByPreceding, Queue.trimSucceeding, hsegs,
        present, hest, hseq, presentLoop, Tcprcv.accept, hcant, Tcprcv.unscheduled]
  · exact ⟨rfl, rfl⟩

/-! ## Runs -/

/-- A segment may be delivered: it is not before what has been received, and ends
within half the number space from there. -/
def InWindow (e : Placed) : Prop := Near tp.soRcv.length e

/-- **A run** on an established connection: segments of the stream `S` have been
passed to the function or to the macro. -/
inductive Run (S : ℕ → BitVec 8) (init : BitVec 32) : Tcprcv → List Placed → Prop
  /-- nothing received yet -/
  | start {tp : Tcprcv} : tp.segs = [] → tp.rcvNxt = init → tp.soRcv = [] →
      tp.tState = .established → tp.cantRcvMore = false → Run S init tp []
  /-- `tcp_reass` -/
  | reass {tp : Tcprcv} {received : List Placed} {e : Placed} : Run S init tp received →
      IsSlice S init e → InWindow tp e →
      Run S init (tcpReass tp (some e.seg)).1 (received ++ [e])
  /-- `TCP_REASS` -/
  | fast {tp : Tcprcv} {received : List Placed} {e : Placed} : Run S init tp received →
      IsSlice S init e → InWindow tp e → Run S init (TCP_REASS tp e.seg).1 (received ++ [e])
  /-- `tcp_reass` without a segment -/
  | force {tp : Tcprcv} {received : List Placed} : Run S init tp received →
      Run S init (tcpReass tp none).1 received

/-- The state of a connection that has received the segments `received`, with its
queue `q`. -/
structure Holds (S : ℕ → BitVec 8) (init : BitVec 32) (tp : Tcprcv) (received q : List Placed) :
    Prop where
  established : tp.tState = .established
  receives : tp.cantRcvMore = false
  nxt : tp.rcvNxt = pos init tp.soRcv.length
  bytes : tp.soRcv = slice S 0 tp.soRcv.length
  segs : tp.segs = q.map Placed.seg
  ordered : Ordered (tp.soRcv.length + 1) q
  slices : ∀ e ∈ q, IsSlice S init e ∧ stop e ≤ tp.soRcv.length + 2 ^ 31
  cover : ∀ i, (i < tp.soRcv.length ∨ Covers q i) ↔ Covers received i

section Steps

variable {S : ℕ → BitVec 8} {init : BitVec 32} {tp : Tcprcv} {received q : List Placed}

/-- Presenting from a queue that may start at `rcv_nxt`. -/
theorem Holds.of_present {q' : List Placed} (h : Holds S init tp received q)
    {received' : List Placed} (hord : Ordered tp.soRcv.length q')
    (hq' : ∀ e ∈ q', IsSlice S init e ∧ stop e ≤ tp.soRcv.length + 2 ^ 31)
    (hcover : ∀ i, (i < tp.soRcv.length ∨ Covers q' i) ↔ Covers received' i) :
    ∃ q'', Holds S init (present { tp with segs := q'.map Placed.seg }).1 received' q'' := by
  obtain ⟨hord', hle⟩ := ordered_advance hord
  refine ⟨(advance tp.soRcv.length q').2, ?_⟩
  have hloop : (presentLoop (q'.map Placed.seg) { tp with segs := q'.map Placed.seg } 0).1 = _ :=
    presentLoop_eq hord hq' h.nxt h.receives
  rw [present_eq { tp with segs := q'.map Placed.seg } h.established, hloop]
  have hbytes : tp.soRcv ++ slice S tp.soRcv.length
      ((advance tp.soRcv.length q').1 - tp.soRcv.length) =
      slice S 0 (advance tp.soRcv.length q').1 := by
    have hsplit := slice_append S 0 tp.soRcv.length
      ((advance tp.soRcv.length q').1 - tp.soRcv.length)
    rwa [zero_add, ← h.bytes, Nat.add_sub_cancel' hle] at hsplit
  simp only [hbytes]
  refine ⟨h.established, h.receives, ?_, ?_, rfl, ?_, ?_, ?_⟩
  all_goals simp only [length_slice]
  · exact hord'
  · intro e he
    obtain ⟨h1, h2⟩ := hq' e (advance_subset _ _ he)
    exact ⟨h1, by omega⟩
  · exact fun i => (covers_advance hord i).trans (hcover i)

/-- **The step lemma** for `tcp_reass` with a segment. -/
theorem Holds.tcpReass {e : Placed} (h : Holds S init tp received q) (he : IsSlice S init e)
    (hwin : InWindow tp e) :
    ∃ q', Holds S init (tcpReass tp (some e.seg)).1 (received ++ [e]) q' := by
  have hlen := he.len
  have hne : start e < stop e := by
    simp only [start_mk, stop_mk]
    omega
  have hord : Ordered tp.soRcv.length q := h.ordered.mono (Nat.le_succ _)
  have hq : ∀ a ∈ q, (IsSlice S init a ∧ Near tp.soRcv.length a) ∧
      tp.soRcv.length + 1 ≤ start a := by
    intro a ha
    have hlt := (h.ordered.lt_of_mem a ha).1
    exact ⟨⟨(h.slices a ha).1, Nat.le_of_succ_le hlt, (h.slices a ha).2⟩, hlt⟩
  have hcover : ∀ i, (i < tp.soRcv.length ∨ Covers (put e q) i) ↔ Covers (received ++ [e]) i := by
    intro i
    rw [covers_put hord hwin.1, covers_append, ← h.cover i, covers_cons]
    have hnil := covers_nil (E := Placed) i
    tauto
  rw [Tcp.tcpReass, h.segs, enqueue, Queue.enqueue_eq (segQueue_agrees _) ⟨he, hwin⟩ hne hq]
  by_cases hdup : stop e ≤ reach (start e) q
  · -- a duplicate changes nothing
    rw [if_pos hdup]
    refine ⟨q, { h with cover := fun i => ?_ }⟩
    rw [← hcover i, put, if_pos hdup]
  · rw [if_neg hdup]
    refine h.of_present (ordered_put hord hwin.1 hne) ?_ hcover
    refine forall_put ?_ ⟨he, hwin.2⟩ h.slices
    rintro x a ⟨ha, hstop⟩ hlt hx
    exact ⟨ha.trim hlt hx, (stop_trim x a hlt.le hx).trans_le hstop⟩

/-- The scheduled acknowledgements do not matter. -/
theorem Holds.of_unscheduled {tp' : Tcprcv} (h : Holds S init tp received q)
    (heq : tp'.unscheduled = tp.unscheduled) : Holds S init tp' received q := by
  simp only [Tcprcv.unscheduled, Tcprcv.mk.injEq] at heq
  obtain ⟨hsegs, hnxt, hstate, -, -, hcant, hrcv⟩ := heq
  refine ⟨hstate.trans h.established, hcant.trans h.receives, ?_, ?_, hsegs.trans h.segs, ?_, ?_, ?_⟩
  all_goals rw [hrcv]
  · exact hnxt.trans h.nxt
  · exact h.bytes
  · exact h.ordered
  · exact h.slices
  · exact h.cover

/-- **The run lemma.** -/
theorem Run.holds (h : Run S init tp received) : ∃ q, Holds S init tp received q := by
  induction h with
  | start hsegs hnxt hrcv hest hcant =>
    refine ⟨[], hest, hcant, ?_, ?_, hsegs, trivial, by simp, by simp [hrcv]⟩
    · simpa [hrcv] using hnxt
    · simp [hrcv, slice]
  | reass _ he hwin ih =>
    obtain ⟨q, hq⟩ := ih
    exact hq.tcpReass he hwin
  | @fast tp received e _ he hwin ih =>
    obtain ⟨q, hq⟩ := ih
    obtain ⟨q', hq'⟩ := hq.tcpReass he hwin
    exact ⟨q', hq'.of_unscheduled (TCP_REASS_eq tp e.seg hq.receives).1⟩
  | @force tp received _ ih =>
    obtain ⟨q, hq⟩ := ih
    have hpres := hq.of_present (hq.ordered.mono (Nat.le_succ _)) hq.slices hq.cover
    rwa [← hq.segs] at hpres

end Steps

/-! ## The stream is delivered -/

/-- **What a connection has made of the segments it received.** -/
structure Delivered (S : ℕ → BitVec 8) (init : BitVec 32) (tp : Tcprcv) (received : List Placed) :
    Prop where
  /-- `rcv_nxt` counts the bytes handed to the user -/
  nxt : tp.rcvNxt = pos init tp.soRcv.length
  /-- which are those of the stream -/
  bytes : tp.soRcv = slice S 0 tp.soRcv.length
  /-- all of them have been received, and the next one has not -/
  covered : ∀ i < tp.soRcv.length, Covers received i
  longest : ¬ Covers received tp.soRcv.length
  /-- the queue is sorted, and its segments do not overlap -/
  sorted : tp.segs.Pairwise fun a b =>
    seqLT a.tiSeq b.tiSeq ∧ seqLEQ (a.tiSeq + BitVec.ofInt 32 a.tiLen) b.tiSeq
  /-- they are not empty, and after `rcv_nxt` -/
  after : ∀ a ∈ tp.segs, 0 < a.tiLen ∧ seqGT a.tiSeq tp.rcvNxt
  /-- and they carry what the stream has at their positions -/
  queued : ∀ a ∈ tp.segs, ∃ n, tp.soRcv.length < n ∧ IsSlice S init ⟨n, a⟩

section Deliver

variable {S : ℕ → BitVec 8} {init : BitVec 32} {r : ℕ}

theorem seqLT_of_lt {x y : ℕ} (hlt : x < y) (hwin : y < x + 2 ^ 31) :
    seqLT (pos init x) (pos init y) = true := by
  rw [seqLT, dist_pos_pos init (by omega) (by omega)]
  exact decide_eq_true (by omega)

theorem seqLEQ_of_le {x y : ℕ} (hle : x ≤ y) (hwin : y < x + 2 ^ 31) :
    seqLEQ (pos init x) (pos init y) = true := by
  rw [seqLEQ, dist_pos_pos init (by omega) (by omega)]
  exact decide_eq_true (by omega)

theorem seqGT_of_gt {x y : ℕ} (hlt : y < x) (hwin : x < y + 2 ^ 31) :
    seqGT (pos init x) (pos init y) = true := by
  rw [seqGT, dist_pos_pos init (by omega) (by omega)]
  exact decide_eq_true (by omega)

/-- Pieces in order have sequence numbers in order. -/
theorem sorted_of_ordered {q : List Placed} : ∀ {lo : ℕ}, Ordered lo q → r ≤ lo →
    (∀ e ∈ q, IsSlice S init e ∧ stop e ≤ r + 2 ^ 31) →
    (q.map Placed.seg).Pairwise fun a b =>
      seqLT a.tiSeq b.tiSeq ∧ seqLEQ (a.tiSeq + BitVec.ofInt 32 a.tiLen) b.tiSeq := by
  induction q with
  | nil => simp
  | cons a q ih =>
    intro lo hord hlo hq
    obtain ⟨ha, -⟩ := hq a (by simp)
    obtain ⟨hle, hne, hrest⟩ := hord
    simp only [start_mk, stop_mk] at hle hne hrest
    rw [List.map_cons, List.pairwise_cons]
    refine ⟨?_, ih hrest (by omega) fun e he => hq e (by simp [he])⟩
    intro b hb
    obtain ⟨e, he, rfl⟩ := List.mem_map.mp hb
    obtain ⟨hse, hwin⟩ := hq e (by simp [he])
    have hlt := hrest.lt_of_mem e he
    simp only [start_mk, stop_mk] at hlt hwin
    have hstop : (a.place : ℤ) + a.seg.tiLen = ((a.place + a.seg.tiLen.toNat : ℕ) : ℤ) := by
      omega
    rw [ha.seq, hse.seq, pos_add_ofInt, hstop]
    exact ⟨seqLT_of_lt (by omega) (by omega), seqLEQ_of_le (by omega) (by omega)⟩

/-- **Reassembly delivers the stream**, over whole runs. -/
theorem reass_delivers (tp : Tcprcv) (received : List Placed) (h : Run S init tp received) :
    Delivered S init tp received := by
  obtain ⟨q, hq⟩ := h.holds
  have hmem : ∀ a ∈ tp.segs, ∃ e ∈ q, e.seg = a := by
    rw [hq.segs]
    exact fun a ha => List.mem_map.mp ha
  refine ⟨hq.nxt, hq.bytes, fun i hi => (hq.cover i).mp (.inl hi), ?_, ?_, ?_, ?_⟩
  · rw [← hq.cover]
    rintro (hlt | hcov)
    · exact lt_irrefl _ hlt
    · exact Nat.not_succ_le_self _ (hq.ordered.le_of_covers hcov)
  · rw [hq.segs]
    exact sorted_of_ordered hq.ordered (Nat.le_succ _) hq.slices
  · intro a ha
    obtain ⟨e, he, rfl⟩ := hmem a ha
    obtain ⟨hse, hwin⟩ := hq.slices e he
    obtain ⟨hlt, hne⟩ := hq.ordered.lt_of_mem e he
    refine ⟨hse.len, ?_⟩
    simp only [start_mk, stop_mk] at hlt hwin hne
    rw [hse.seq, hq.nxt]
    exact seqGT_of_gt (by omega) (by omega)
  · intro a ha
    obtain ⟨e, he, rfl⟩ := hmem a ha
    exact ⟨e.place, (hq.ordered.lt_of_mem e he).1, (hq.slices e he).1⟩

/-- A connection that expects the number `2 ^ 32 - 2`. -/
def beforeWrap : Tcprcv :=
  { segs := [], rcvNxt := 0xfffffffe, tState := .established, delack := false, acknow := false,
    cantRcvMore := false, soRcv := [] }

/-- A segment of the stream `0, 1, 2, …`. -/
def countSeg (place len : ℕ) : Placed :=
  { place := place,
    seg := { tiSeq := pos 0xfffffffe place, tiLen := len, tiFlags := 0,
             m := .packet (slice (BitVec.ofNat 8) place len) } }

theorem isSlice_countSeg (place len : ℕ) (h : 0 < len) :
    IsSlice (BitVec.ofNat 8) 0xfffffffe (countSeg place len) :=
  ⟨rfl, by simpa [countSeg] using h, by simp [countSeg, Mbufs.packet, Mbufs.bytes, bytesOf]⟩

/-- Bytes 3 and 4, then 0 to 3, across the point where the numbers wrap. -/
theorem wrap_delivers : ∃ tp, tp.soRcv = [0, 1, 2, 3, 4] ∧
    Delivered (BitVec.ofNat 8) 0xfffffffe tp [countSeg 3 2, countSeg 0 4] := by
  refine ⟨_, ?_, reass_delivers _ _ (((Run.start rfl rfl rfl rfl rfl :
    Run _ _ beforeWrap []).fast (isSlice_countSeg 3 2 (by decide)) ?_).reass
      (isSlice_countSeg 0 4 (by decide)) ?_)⟩
  · decide
  · exact ⟨by decide, by decide⟩
  · exact ⟨by decide, by decide⟩

end Deliver

end BSDLite2.Tcp
