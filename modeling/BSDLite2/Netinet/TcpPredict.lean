import BSDLite2.Netinet.TcpRecord

/-!
# Header prediction

Header prediction handles the two most common segments in a few lines: the acknowledgement of
outstanding data, and data in sequence.  It is meant to do what the general path would do.
`prediction_exact_iff` says when it does, for the fields that later segments depend on:

* the general path forgets the duplicate acknowledgements and pulls `rcv_up` along, which
  header prediction does not;
* it takes the acknowledged data out of the window and then updates the window only if the
  segment has newer information about it, while header prediction leaves the window as it is;
* it cuts off what is beyond the window, and acknowledges more than is in the send buffer
  without a panic.

The two paths are computed for a segment that is predicted, stage by stage: most stages of the
general path do nothing then (`fronts_predicted`), and what is left is a few assignments.
-/

namespace BSDLite2.Tcp

open Mbuf Serial

/-- The fields in which the two paths are compared. -/
structure Visible where
  rcvNxt : BitVec 32
  rcvUp : BitVec 32
  sndUna : BitVec 32
  sndNxt : BitVec 32
  sndWnd : BitVec 32
  dupacks : ℤ
  rexmt : ℤ
  tsRecent : BitVec 32
  soRcv : List (BitVec 8)
  soSnd : List (BitVec 8)
  deriving DecidableEq

/-- These fields of a connection. -/
def Tcpcb.visible (tp : Tcpcb) : Visible where
  rcvNxt := tp.rcvNxt
  rcvUp := tp.rcvUp
  sndUna := tp.sndUna
  sndNxt := tp.sndNxt
  sndWnd := tp.sndWnd
  dupacks := tp.dupacks
  rexmt := tp.rexmt
  tsRecent := tp.tsRecent
  soRcv := tp.soRcv
  soSnd := tp.soSnd

/-- The connection after a stage. -/
def Stage.conn : Stage → Tcpcb
  | .next tp _ => tp
  | .leave _ tp _ => tp

/-- The stage ends in a panic. -/
def Stage.panics : Stage → Bool
  | .leave (.panic _) _ _ => true
  | _ => false

/-- The segment takes one of the fast paths. -/
def takesFast (tp : Tcpcb) (s : Seg) (mb : ℤ) : Bool :=
  predicts tp s && (pureAck (tp.stamp s 0) s || pureData (tp.stamp s 0) s mb)

/-- Nothing is lost by the fast path. -/
def losesNothing (tp : Tcpcb) (s : Seg) (mb : ℤ) : Bool :=
  decide ((tp.setRcvWnd mb).beyond s ≤ 0) && decide (tp.dupacks = 0) &&
    !seqGT tp.rcvNxt tp.rcvUp &&
    (decide (s.tiLen ≠ 0) ||
      decide (dist s.tiAck tp.sndUna ≤ tp.soSnd.length) && !seqLT tp.sndMax s.tiAck &&
        newerWindow { tp with sndWnd := tp.sndWnd - (s.tiAck - tp.sndUna) } s)

/-! ## Up to the acknowledgement -/

/-- The flags of a segment that is predicted. -/
theorem has_of_predicted {f : BitVec 8}
    (h : f &&& (TH_SYN ||| TH_FIN ||| TH_RST ||| TH_URG ||| TH_ACK) = TH_ACK) :
    has f TH_SYN = false ∧ has f TH_FIN = false ∧ has f TH_RST = false ∧ has f TH_URG = false ∧
      has f TH_ACK = true ∧ has f (TH_SYN ||| TH_FIN) = false := by
  decide +revert

section Paths

variable {tp : Tcpcb} {s : Seg}

/-- What header prediction tests. -/
structure Predicted (tp : Tcpcb) (s : Seg) : Prop where
  state : tp.tState = .established
  flags : s.tiflags &&& (TH_SYN ||| TH_FIN ||| TH_RST ||| TH_URG ||| TH_ACK) = TH_ACK
  fresh : s.olderThan tp.tsRecent = false
  seq : s.tiSeq = tp.rcvNxt
  win : s.tiwin = tp.sndWnd
  nxt : tp.sndNxt = tp.sndMax

theorem predicted_of_predicts (h : predicts tp s) : Predicted tp s := by
  simp only [predicts, Bool.and_eq_true, Bool.not_eq_true', decide_eq_true_eq] at h
  obtain ⟨⟨⟨⟨⟨⟨hstate, hflags⟩, hfresh⟩, hseq⟩, -⟩, hwin⟩, hnxt⟩ := h
  exact ⟨hstate, hflags, hfresh, hseq, hwin, hnxt⟩

theorem stamp_setRcvWnd (tp : Tcpcb) (s : Seg) (mb extra : ℤ) :
    (tp.setRcvWnd mb).stamp s extra = (tp.stamp s extra).setRcvWnd mb := by
  unfold Tcpcb.stamp
  split
  · rfl
  · rw [apply_ite (Tcpcb.setRcvWnd · mb)]
    rfl

/-- The general path, up to the trim at the end. -/
theorem fronts_predicted (h : Predicted tp s) :
    ((pawsStage tp s).andThen frontStage).andThen goneStage = .next tp s := by
  have hpaws : pawsStage tp s = .next tp s := by
    rw [pawsStage, if_neg fun hold => ?_]
    rw [h.fresh] at hold
    exact absurd hold.2.2 (by decide)
  have hfront : frontStage tp s = .next tp s := by
    rw [frontStage, if_neg]
    rw [Tcpcb.before, h.seq, dist_same]
    exact lt_irrefl 0
  rw [hpaws, Stage.andThen, hfront, Stage.andThen, goneStage, if_neg fun hgone => ?_]
  rw [h.state] at hgone
  exact absurd hgone.2.1 (by decide)

/-- What is left of the general path after the trims. -/
def afterTrims (tp : Tcpcb) (s : Seg) : Stage :=
  (((((Stage.next tp s).andThen stampStage).andThen controlStage).andThen synRcvdStage).andThen
    ackStage).andThen step6

theorem afterTrims_eq (hstate : tp.tState = .established) (hsyn : has s.tiflags TH_SYN = false)
    (hrst : has s.tiflags TH_RST = false) (hack : has s.tiflags TH_ACK = true)
    (hboth : has s.tiflags (TH_SYN ||| TH_FIN) = false) :
    afterTrims tp s = (ackStage (tp.stamp s 0) s).andThen step6 := by
  have hsame : (tp.stamp s 0).tState = .established :=
    (congrArg (fun v : SndSide => v.tState) (sndSide_stamp tp s 0)).trans hstate
  simp only [afterTrims, stampStage, hboth, Bool.false_eq_true, if_false, Stage.andThen,
    controlStage, hrst, hsyn, hack, Bool.not_true, synRcvdStage, hsame]
  rfl

/-- The general path of a segment that is not cut. -/
theorem established_predicted (h : Predicted tp s) (hbeyond : tp.beyond s ≤ 0) :
    established tp s = (ackStage (tp.stamp s 0) s).andThen step6 := by
  obtain ⟨hsyn, -, hrst, -, hack, hboth⟩ := has_of_predicted h.flags
  rw [← afterTrims_eq h.state hsyn hrst hack hboth, established, trims, fronts_predicted h,
    Stage.andThen, tailStage, if_neg (not_lt.mpr hbeyond), afterTrims]

/-- A segment beyond the window is dropped. -/
theorem established_beyond (h : Predicted tp s) (hbeyond : 0 < tp.beyond s)
    (hall : s.tiLen ≤ tp.beyond s) (hwnd : tp.rcvWnd ≠ 0) : (established tp s).conn = tp := by
  obtain ⟨hsyn, -⟩ := has_of_predicted h.flags
  rw [established, trims, fronts_predicted h, Stage.andThen, tailStage, if_pos hbeyond, if_pos hall,
    if_neg (by simp [hsyn]), if_neg fun hz => hwnd hz.1]
  rfl

/-- The flags of a segment that was cut. -/
theorem has_of_cut {f : BitVec 8}
    (h : f &&& (TH_SYN ||| TH_FIN ||| TH_RST ||| TH_URG ||| TH_ACK) = TH_ACK) :
    clear f (TH_PUSH ||| TH_FIN) &&&
      (TH_SYN ||| TH_FIN ||| TH_RST ||| TH_URG ||| TH_ACK) = TH_ACK := by
  decide +revert

/-- A segment of which a part is beyond the window is cut. -/
theorem established_cut (h : Predicted tp s) (hbeyond : 0 < tp.beyond s)
    (hpart : tp.beyond s < s.tiLen) :
    established tp s =
      (ackStage (tp.stamp (s.dropTail (tp.beyond s)) 0) (s.dropTail (tp.beyond s))).andThen
        step6 := by
  have hflags : (s.dropTail (tp.beyond s)).tiflags &&&
      (TH_SYN ||| TH_FIN ||| TH_RST ||| TH_URG ||| TH_ACK) = TH_ACK := has_of_cut h.flags
  obtain ⟨hsyn, -, hrst, -, hack, hboth⟩ := has_of_predicted hflags
  rw [← afterTrims_eq h.state hsyn hrst hack hboth, established, trims, fronts_predicted h,
    Stage.andThen, tailStage, if_pos hbeyond, if_neg (not_le.mpr hpart), afterTrims]

/-! ## From the acknowledgement on -/

/-- The fields after the window and the urgent pointer of a segment without `TH_URG` have been
looked at. -/
def Visible.step6 (v : Visible) (newer : Bool) (tiwin : BitVec 32) : Visible :=
  { v with
    sndWnd := if newer then tiwin else v.sndWnd
    rcvUp := if seqGT v.rcvNxt v.rcvUp then v.rcvNxt else v.rcvUp }

/-- The fields after data in sequence. -/
def Visible.filled (v : Visible) (s : Seg) : Visible :=
  { v with rcvNxt := v.rcvNxt + ulong s.tiLen, soRcv := v.soRcv ++ s.m.bytes }

theorem windowStage_visible (tp : Tcpcb) (s : Seg) : ∃ tp' needoutput,
    windowStage tp s = .next tp' { s with needoutput := needoutput } ∧
      tp'.toTcprcv = tp.toTcprcv ∧
      tp'.visible =
        { tp.visible with sndWnd := if newerWindow tp s then s.tiwin else tp.sndWnd } := by
  unfold windowStage
  cases newerWindow tp s with
  | true => exact ⟨_, _, rfl, rfl, rfl⟩
  | false => exact ⟨_, s.needoutput, rfl, rfl, rfl⟩

section

variable (tp) (hurg : has s.tiflags TH_URG = false)

include hurg

theorem urgentStage_visible :
    ∃ tp', urgentStage tp s = .next tp' s ∧ tp'.toTcprcv = tp.toTcprcv ∧
      tp'.visible =
        { tp.visible with rcvUp := if seqGT tp.rcvNxt tp.rcvUp then tp.rcvNxt else tp.rcvUp } := by
  rw [urgentStage, if_neg fun h => absurd h.1 (by simp [hurg])]
  cases seqGT tp.rcvNxt tp.rcvUp with
  | true => exact ⟨_, rfl, rfl, rfl⟩
  | false => exact ⟨_, rfl, rfl, rfl⟩

/-- The window and the urgent pointer. -/
theorem updates_visible :
    ∃ tp' needoutput, (windowStage tp s).andThen urgentStage =
        .next tp' { s with needoutput := needoutput } ∧
      tp'.toTcprcv = tp.toTcprcv ∧
      tp'.visible = tp.visible.step6 (newerWindow tp s) s.tiwin := by
  obtain ⟨tp₁, needoutput, hwindow, hrcv₁, hvis₁⟩ := windowStage_visible tp s
  have hurg' : has ({ s with needoutput := needoutput } : Seg).tiflags TH_URG = false := hurg
  obtain ⟨tp₂, hurgent, hrcv₂, hvis₂⟩ := urgentStage_visible tp₁ hurg'
  refine ⟨tp₂, needoutput, ?_, hrcv₂.trans hrcv₁, ?_⟩
  · rw [hwindow, Stage.andThen, hurgent]
  · have hnxt : tp₁.rcvNxt = tp.rcvNxt := congrArg Visible.rcvNxt hvis₁
    have hup : tp₁.rcvUp = tp.rcvUp := congrArg Visible.rcvUp hvis₁
    rw [hvis₂, hvis₁, hnxt, hup]
    rfl

/-- A segment without data and without a FIN. -/
theorem step6_empty (hfin : has s.tiflags TH_FIN = false) (hlen : s.tiLen = 0) :
    (step6 tp s).conn.visible = tp.visible.step6 (newerWindow tp s) s.tiwin := by
  obtain ⟨tp', needoutput, hupdates, -, hvis⟩ := updates_visible tp hurg
  rw [step6, hupdates, Stage.andThen, textStage, if_neg, Stage.andThen, finStage, has_clear_self]
  · exact hvis
  · simp [hlen, hfin]

/-- Data in sequence, with nothing in the queue. -/
theorem step6_data (hfin : has s.tiFlags TH_FIN = false) (hlen : s.tiLen ≠ 0)
    (hseq : s.tiSeq = tp.rcvNxt) (hsegs : tp.segs = []) (hstate : tp.tState = .established) :
    (step6 tp s).conn.visible = (tp.visible.step6 (newerWindow tp s) s.tiwin).filled s := by
  obtain ⟨tp', needoutput, hupdates, hrcv, hvis⟩ := updates_visible tp hurg
  have hreass : TCP_REASS tp'.toTcprcv s.toTiphdr =
      ({ tp'.toTcprcv with
          delack := true, rcvNxt := tp'.rcvNxt + ulong s.tiLen, soRcv := tp'.soRcv ++ s.m.bytes },
        s.tiFlags &&& TH_FIN) := by
    rw [hrcv, TCP_REASS, if_pos ⟨hseq, hsegs, hstate⟩]
    rfl
  have hopen : tp'.tState.haveRcvdFin = false := by
    have hsame : tp'.tState = tp.tState := congrArg Tcprcv.tState hrcv
    rw [hsame, hstate]
    rfl
  have hnofin : has (s.tiFlags &&& TH_FIN) TH_FIN = false := by
    revert hfin
    generalize s.tiFlags = f
    decide +revert
  rw [step6, hupdates, Stage.andThen, textStage, if_pos ⟨.inl hlen, by simp [hopen]⟩,
    Stage.andThen, finStage]
  simp only [hreass, hnofin, Bool.false_eq_true, if_false, Stage.conn]
  rw [← hvis]
  rfl

end

/-! ## A new acknowledgement -/

/-- Whether a segment has newer information about the window depends on the window. -/
theorem newerWindow_congr {tp' : Tcpcb} (s : Seg) (hwl1 : tp'.sndWl1 = tp.sndWl1)
    (hwl2 : tp'.sndWl2 = tp.sndWl2) (hwnd : tp'.sndWnd = tp.sndWnd) :
    newerWindow tp' s = newerWindow tp s := by
  unfold newerWindow
  rw [hwl1, hwl2, hwnd]

/-- The retransmission timer after an acknowledgement. -/
def Tcpcb.restarted (tp : Tcpcb) (s : Seg) : ℤ :=
  if s.tiAck = tp.sndMax then 0
  else if tp.persist = 0 then (tp.timeAck s).rxtcur
  else tp.rexmt

theorem restartRexmt_eq (tp : Tcpcb) (all : Bool) : tp.restartRexmt all =
    { tp with
      rexmt := if all then 0 else if tp.persist = 0 then tp.rxtcur else tp.rexmt } := by
  unfold Tcpcb.restartRexmt
  split_ifs <;> rfl

/-- The measurement does not depend on the windows. -/
theorem rxtcur_timeAck (tp : Tcpcb) (s : Seg) (w c : BitVec 32) (d : ℤ) :
    (({ tp with rcvWnd := w, sndCwnd := c, dupacks := d } : Tcpcb).timeAck s).rxtcur =
      (tp.timeAck s).rxtcur := by
  have hxmit (rtt : ℤ) :
      (tcpXmitTimer { tp with rcvWnd := w, sndCwnd := c, dupacks := d } rtt).rxtcur =
        (tcpXmitTimer tp rtt).rxtcur := by
    simp only [tcpXmitTimer, Tcpcb.measure]
    rw [apply_ite Tcpcb.rexmtval, apply_ite Tcpcb.rexmtval]
    rfl
  cases hts : s.ts with
  | some v =>
    simp only [Tcpcb.timeAck, hts]
    exact hxmit _
  | none =>
    simp only [Tcpcb.timeAck, hts]
    rw [apply_ite Tcpcb.rxtcur, apply_ite Tcpcb.rxtcur, hxmit]

/-- The connection after an acknowledgement, as far as it is compared. -/
def Visible.acked (v : Visible) (ack : BitVec 32) (n : ℕ) (rexmt : ℤ) : Visible :=
  { v with sndUna := ack, rexmt := rexmt, soSnd := v.soSnd.drop n }

theorem fastAck_visible (tp : Tcpcb) (hroom : dist s.tiAck tp.sndUna ≤ tp.soSnd.length) :
    (fastAck tp s).panics = false ∧ (fastAck tp s).conn.visible =
      tp.visible.acked s.tiAck (dist s.tiAck tp.sndUna).toNat (tp.restarted s) := by
  have htimes := times_timeAck tp s
  obtain ⟨rtt, srtt, rttvar, rxtshift, rxtcur, softerror, -, -, htimed⟩ := htimes
  rw [fastAck, if_neg (not_lt.mpr hroom)]
  refine ⟨rfl, ?_⟩
  rw [restartRexmt_eq, Tcpcb.restarted, htimed]
  simp only [decide_eq_true_eq]
  rfl

/-- What a new acknowledgement does on the general path. -/
theorem ackNew_visible (tp : Tcpcb) (s : Seg) (hfin : tp.finIsAcked s = false) :
    (tp.ackNew s).visible =
        { tp.visible.acked s.tiAck (s.tiAck - tp.sndUna).toNat (tp.restarted s) with
          sndWnd := tp.sndWnd - (s.tiAck - tp.sndUna)
          sndNxt := if seqLT tp.sndNxt s.tiAck then s.tiAck else tp.sndNxt } ∧
      (tp.ackNew s).toTcprcv = tp.toTcprcv ∧ (tp.ackNew s).sndWl1 = tp.sndWl1 ∧
      (tp.ackNew s).sndWl2 = tp.sndWl2 := by
  obtain ⟨rtt, srtt, rttvar, rxtshift, rxtcur, softerror, -, -, htimed⟩ := times_timeAck tp s
  have hdrop (tp' : Tcpcb) (hsnd : tp'.soSnd = tp.soSnd) (huna : tp'.sndUna = tp.sndUna) :
      tp'.dropAcked s =
        { tp' with
          sndWnd := tp'.sndWnd - (s.tiAck - tp.sndUna)
          soSnd := tp.soSnd.drop (s.tiAck - tp.sndUna).toNat } := by
    have hnot : tp'.finIsAcked s = false := by
      rw [← hfin, Tcpcb.finIsAcked, Tcpcb.finIsAcked, Tcpcb.sndCc, Tcpcb.sndCc, hsnd, huna]
    rw [Tcpcb.dropAcked, hnot, huna, hsnd]
    rfl
  have hpull (tp' : Tcpcb) : tp'.pullNxt =
      { tp' with sndNxt := if seqLT tp'.sndNxt tp'.sndUna then tp'.sndUna else tp'.sndNxt } := by
    unfold Tcpcb.pullNxt
    split_ifs <;> rfl
  rw [Tcpcb.ackNew, hdrop, hpull, restartRexmt_eq, Tcpcb.restarted, htimed]
  · simp only [decide_eq_true_eq]
    exact ⟨rfl, rfl, rfl, rfl⟩
  · rw [restartRexmt_eq, htimed]
    rfl
  · rw [restartRexmt_eq, htimed]
    rfl

theorem ackStage_new (hstate : tp.tState = .established) (hgt : seqGT s.tiAck tp.sndUna)
    (hle : seqLEQ s.tiAck tp.sndMax) (hfin : tp.finIsAcked s = false) :
    ackStage tp s = .next (tp.deflate.ackNew s)
      { s with needoutput := s.needoutput || decide (s.tiAck = tp.sndMax) } := by
  have hnew : seqLEQ s.tiAck tp.sndUna = false := by
    simp only [seqGT, seqLEQ, decide_eq_true_eq, decide_eq_false_iff_not] at hgt ⊢
    omega
  have hsent : seqGT s.tiAck tp.deflate.sndMax = false := by
    simp only [seqGT, seqLEQ, decide_eq_true_eq, decide_eq_false_iff_not] at hle ⊢
    exact not_lt.mpr hle
  have hopen : (tp.deflate.ackNew s).tState = .established :=
    (congrArg Tcprcv.tState (ackNew_visible tp.deflate s hfin).2.1).trans hstate
  rw [ackStage, hnew, newAckStage, hsent, closingStage, hopen]
  rfl

/-- The acknowledged bytes are counted in the same way on both paths. -/
theorem toNat_sub_of_seqGT {a b : BitVec 32} (h : seqGT a b) :
    (a - b).toNat = (dist a b).toNat := by
  have hpos : 0 < (a - b).toInt := of_decide_eq_true h
  have hmsb := BitVec.toInt_eq_toNat_cond (a - b)
  rw [Serial.dist]
  split_ifs at hmsb <;> omega

theorem finIsAcked_of_room (hgt : seqGT s.tiAck tp.sndUna) (hcc : tp.soSnd.length < 2 ^ 32)
    (hroom : dist s.tiAck tp.sndUna ≤ tp.soSnd.length) : tp.finIsAcked s = false := by
  have hnat := toNat_sub_of_seqGT hgt
  rw [Tcpcb.finIsAcked, decide_eq_false_iff_not, gt_iff_lt, BitVec.lt_def, Tcpcb.sndCc,
    BitVec.toNat_ofNat]
  omega

/-- **The general path of an acknowledgement**, in the fields that are compared. -/
theorem ackPath_visible (tp : Tcpcb) (mb : ℤ) (hstate : tp.tState = .established)
    (hurg : has s.tiflags TH_URG = false) (hfin : has s.tiflags TH_FIN = false) (hlen : s.tiLen = 0)
    (hgt : seqGT s.tiAck tp.sndUna) (hle : seqLEQ s.tiAck tp.sndMax)
    (hcc : tp.soSnd.length < 2 ^ 32) (hroom : dist s.tiAck tp.sndUna ≤ tp.soSnd.length) :
    ((ackStage (tp.setRcvWnd mb) s).andThen step6).conn.visible =
      Visible.step6
        { tp.visible.acked s.tiAck (dist s.tiAck tp.sndUna).toNat (tp.restarted s) with
          sndWnd := tp.sndWnd - (s.tiAck - tp.sndUna)
          sndNxt := if seqLT tp.sndNxt s.tiAck then s.tiAck else tp.sndNxt
          dupacks := 0 }
        (newerWindow { tp with sndWnd := tp.sndWnd - (s.tiAck - tp.sndUna) } s) s.tiwin := by
  have hdone : (tp.setRcvWnd mb).finIsAcked s = false := finIsAcked_of_room hgt hcc hroom
  have hopen : (tp.setRcvWnd mb).tState = .established := hstate
  rw [ackStage_new hopen hgt hle hdone]
  obtain ⟨hvis, -, hwl1, hwl2⟩ := ackNew_visible (tp.setRcvWnd mb).deflate s hdone
  have hrexmt : (tp.setRcvWnd mb).deflate.restarted s = tp.restarted s := by
    unfold Tcpcb.restarted
    have hcur : ((tp.setRcvWnd mb).deflate.timeAck s).rxtcur = (tp.timeAck s).rxtcur :=
      rxtcur_timeAck tp s _ _ 0
    rw [hcur]
    rfl
  have hnewer : newerWindow ((tp.setRcvWnd mb).deflate.ackNew s) s =
      newerWindow { tp with sndWnd := tp.sndWnd - (s.tiAck - tp.sndUna) } s :=
    newerWindow_congr s hwl1 hwl2 (congrArg Visible.sndWnd hvis)
  have hempty := step6_empty ((tp.setRcvWnd mb).deflate.ackNew s)
    (s := { s with needoutput := s.needoutput || decide (s.tiAck = (tp.setRcvWnd mb).sndMax) })
    hurg hfin hlen
  refine hempty.trans ?_
  rw [hvis, hrexmt, ← toNat_sub_of_seqGT hgt, ← hnewer]
  rfl

/-! ## Data -/

/-- **The general path of data in sequence**, in the fields that are compared. -/
theorem dataPath_visible (hstate : tp.tState = .established) (hlen : s.tiLen ≠ 0)
    (hack : s.tiAck = tp.sndUna) (hseq : s.tiSeq = tp.rcvNxt) (hsegs : tp.segs = [])
    (hwin : s.tiwin = tp.sndWnd) (hurg : has s.tiflags TH_URG = false)
    (hfin : has s.tiFlags TH_FIN = false) :
    ((ackStage tp s).andThen step6).conn.visible =
      { (tp.visible.step6 true tp.sndWnd).filled s with dupacks := 0 } := by
  have hstage : ackStage tp s = .next { tp with dupacks := 0 } s := by
    have hold : seqLEQ s.tiAck tp.sndUna = true := by
      rw [hack, seqLEQ, dist_same]
      rfl
    rw [ackStage, if_pos hold, dupAckStage, if_neg fun h => hlen h.1]
  have hdata := step6_data { tp with dupacks := 0 } hurg hfin hlen hseq hsegs hstate
  rw [hstage, Stage.andThen, hdata, hwin]
  cases newerWindow { tp with dupacks := 0 } s <;> rfl

/-- Different lengths move a number to different places. -/
theorem add_ulong_ne (a : BitVec 32) {x y : ℤ} (hne : x ≠ y) (hlo : -2 ^ 31 ≤ x - y)
    (hhi : x - y < 2 ^ 31) : a + ulong x ≠ a + ulong y := fun heq =>
  hne ((pos_eq_pos_iff a (by omega) (by omega)).mp heq)

/-! ## The two paths -/

theorem stamp_eq (tp : Tcpcb) (s : Seg) (extra : ℤ) : ∃ age recent,
    tp.stamp s extra = { tp with tsRecentAge := age, tsRecent := recent } := by
  unfold Tcpcb.stamp
  split
  · exact ⟨_, _, rfl⟩
  · split
    · exact ⟨_, _, rfl⟩
    · exact ⟨_, _, rfl⟩

theorem Predicted.setRcvWnd (h : Predicted tp s) (mb : ℤ) : Predicted (tp.setRcvWnd mb) s :=
  ⟨h.state, h.flags, h.fresh, h.seq, h.win, h.nxt⟩

theorem eq_ite_iff {α : Type} {a b : α} {c : Bool} (h : c = true → b ≠ a) :
    (b = if c then a else b) ↔ c = false := by
  cases c with
  | true => simpa using h rfl
  | false => simp

theorem ne_of_seqGT {a b : BitVec 32} (h : seqGT a b = true) : b ≠ a := by
  rintro rfl
  rw [seqGT, dist_same] at h
  cases h

theorem ne_of_seqLT {a b : BitVec 32} (h : seqLT a b = true) : a ≠ b := by
  rintro rfl
  rw [seqLT, dist_same] at h
  cases h

/-- What both paths have to agree on after an acknowledgement. -/
theorem acked_eq_step6_iff (v : Visible) (ack : BitVec 32) (n : ℕ) (rexmt : ℤ) {d : BitVec 32}
    (hd : d ≠ 0) (newer : Bool) :
    v.acked ack n rexmt =
      Visible.step6
        { v.acked ack n rexmt with
          sndWnd := v.sndWnd - d
          sndNxt := if seqLT v.sndNxt ack then ack else v.sndNxt
          dupacks := 0 } newer v.sndWnd ↔
    v.dupacks = 0 ∧ seqGT v.rcvNxt v.rcvUp = false ∧ seqLT v.sndNxt ack = false ∧ newer := by
  have hwnd : (v.sndWnd = if newer then v.sndWnd else v.sndWnd - d) ↔ newer = true := by
    cases newer with
    | true => simp
    | false => exact ⟨fun h => absurd (sub_eq_self.mp h.symm) hd, nofun⟩
  have hup := eq_ite_iff (ne_of_seqGT (a := v.rcvNxt) (b := v.rcvUp))
  have hnxt := eq_ite_iff (ne_of_seqLT (a := v.sndNxt) (b := ack))
  simp only [Visible.step6, Visible.acked, Visible.mk.injEq, true_and, and_true, hwnd, hnxt]
  tauto

/-- What both paths have to agree on after data. -/
theorem filled_eq_step6_iff (v : Visible) (s : Seg) :
    v.filled s = { (v.step6 true v.sndWnd).filled s with dupacks := 0 } ↔
      v.dupacks = 0 ∧ seqGT v.rcvNxt v.rcvUp = false := by
  have hup := eq_ite_iff (ne_of_seqGT (a := v.rcvNxt) (b := v.rcvUp))
  simp only [Visible.filled, Visible.step6, Visible.mk.injEq, if_true, true_and, and_true, hup]
  exact and_comm

/-- More than is in the send buffer is acknowledged. -/
theorem fastAck_panics (tp : Tcpcb) (hroom : ¬ dist s.tiAck tp.sndUna ≤ tp.soSnd.length) :
    (fastAck tp s).panics = true := by
  rw [fastAck, if_pos (not_le.mp hroom)]
  rfl

/-- A segment without data does not reach beyond a window of zero. -/
theorem beyond_nonpos (h : Predicted tp s) (hlo : -2 ^ 15 ≤ s.tiLen) (hlen : s.tiLen ≤ 0)
    (hwnd : tp.rcvWnd = 0) : tp.beyond s ≤ 0 := by
  have hdist : dist (tp.rcvNxt + ulong s.tiLen) tp.rcvNxt = s.tiLen :=
    dist_pos tp.rcvNxt (by omega) (by omega)
  rw [Tcpcb.beyond, hwnd, h.seq, add_zero, hdist]
  exact hlen

/-- **The acknowledgement.**  Both paths agree if and only if nothing is lost. -/
theorem ack_exact_iff (mb : ℤ) (h : Predicted tp s) (hpure : pureAck (tp.stamp s 0) s)
    (hcc : tp.soSnd.length < 2 ^ 32) :
    ((fastAck (tp.stamp s 0) s).panics = false ∧
      (fastAck (tp.stamp s 0) s).conn.visible =
        (established (tp.setRcvWnd mb) s).conn.visible) ↔ losesNothing tp s mb := by
  obtain ⟨-, hfin, -, hurg, -⟩ := has_of_predicted h.flags
  have hbegin (hbeyond : (tp.setRcvWnd mb).beyond s ≤ 0) : established (tp.setRcvWnd mb) s =
      (ackStage ((tp.stamp s 0).setRcvWnd mb) s).andThen step6 := by
    rw [established_predicted (h.setRcvWnd mb) hbeyond, stamp_setRcvWnd]
  obtain ⟨age, recent, hstamp⟩ := stamp_eq tp s 0
  rw [hstamp] at hpure hbegin ⊢
  set tp' : Tcpcb := { tp with tsRecentAge := age, tsRecent := recent }
  simp only [pureAck, Bool.and_eq_true, decide_eq_true_eq] at hpure
  obtain ⟨⟨⟨hlen, hgt⟩, hle⟩, -⟩ := hpure
  by_cases hroom : dist s.tiAck tp.sndUna ≤ tp.soSnd.length
  swap
  · rw [fastAck_panics tp' hroom]
    simp [losesNothing, hroom, hlen]
  obtain ⟨hpanics, hfast⟩ := fastAck_visible tp' hroom
  rw [hpanics, hfast, eq_self_iff_true, true_and]
  by_cases hbeyond : (tp.setRcvWnd mb).beyond s ≤ 0
  · have hack : s.tiAck - tp.sndUna ≠ 0 := fun hz => ne_of_seqGT hgt (sub_eq_zero.mp hz).symm
    have hnewer : newerWindow { tp' with sndWnd := tp'.sndWnd - (s.tiAck - tp'.sndUna) } s =
        newerWindow { tp with sndWnd := tp.sndWnd - (s.tiAck - tp.sndUna) } s :=
      newerWindow_congr s rfl rfl rfl
    rw [hbegin hbeyond, ackPath_visible tp' mb h.state hurg hfin hlen hgt hle hcc hroom, h.win]
    refine (acked_eq_step6_iff tp'.visible _ _ _ hack _).trans ?_
    have hnxt : tp'.visible.sndNxt = tp.sndMax := h.nxt
    rw [hnxt]
    simp only [losesNothing, hbeyond, hlen, hroom, decide_true, Bool.true_and, ne_eq, not_true,
      decide_false, Bool.false_or, Bool.and_eq_true, decide_eq_true_eq, Bool.not_eq_true', and_assoc]
    exact Iff.rfl
  · have hwnd : (tp.setRcvWnd mb).rcvWnd ≠ 0 := fun hz =>
      hbeyond (beyond_nonpos (h.setRcvWnd mb) (by omega) hlen.le hz)
    rw [established_beyond (h.setRcvWnd mb) (not_le.mp hbeyond) (hlen ▸ (not_le.mp hbeyond).le) hwnd]
    refine iff_of_false (fun heq => ne_of_seqGT hgt ?_) (by simp [losesNothing, hbeyond])
    exact (congrArg Visible.sndUna heq).symm

/-- The window of a segment that there is room for is not zero. -/
theorem rcvWnd_ne_zero {mb : ℤ} (hpos : 0 < s.tiLen) (hspace : s.tiLen ≤ tp.rcvSpace mb)
    (hhi : tp.rcvHiwat < 2 ^ 32) : (tp.setRcvWnd mb).rcvWnd ≠ 0 := by
  have hbound : tp.rcvSpace mb < 2 ^ 32 := by
    have hle : tp.rcvSpace mb ≤ tp.rcvHiwat - tp.soRcv.length := min_le_left _ _
    omega
  have hnat : (ulong (max (tp.rcvSpace mb) 0)).toNat ≠ 0 := by
    rw [ulong, BitVec.toNat_ofInt]
    omega
  intro hz
  have hwnd : umax (ulong (max (tp.rcvSpace mb) 0)) (tp.rcvAdv - tp.rcvNxt) = 0 := hz
  rw [umax] at hwnd
  split_ifs at hwnd with hgt
  · exact hnat (congrArg BitVec.toNat hwnd)
  · rw [hwnd, gt_iff_lt] at hgt
    exact hgt (Nat.pos_of_ne_zero hnat)

/-- The general path of data in sequence that lie within the window. -/
theorem established_data (h : Predicted tp s) (hlen : s.tiLen ≠ 0) (hack : s.tiAck = tp.sndUna)
    (hsegs : tp.segs = []) (hurg : has s.tiflags TH_URG = false)
    (hfin : has s.tiFlags TH_FIN = false) :
    ((ackStage (tp.stamp s 0) s).andThen step6).conn.visible =
      { ((tp.stamp s 0).visible.step6 true tp.sndWnd).filled s with dupacks := 0 } := by
  obtain ⟨age, recent, hstamp⟩ := stamp_eq tp s 0
  rw [hstamp]
  exact dataPath_visible h.state hlen hack h.seq hsegs h.win hurg hfin

/-- **Data.**  Both paths agree if and only if nothing is lost. -/
theorem data_exact_iff (mb : ℤ) (h : Predicted tp s) (hpure : pureData (tp.stamp s 0) s mb)
    (hhdr : s.tiFlags = s.tiflags) (hlen : short s.tiLen = s.tiLen) (hhi : tp.rcvHiwat < 2 ^ 32) :
    (fastData (tp.stamp s 0) s).conn.visible =
        (established (tp.setRcvWnd mb) s).conn.visible ↔ losesNothing tp s mb := by
  obtain ⟨-, hfin, -, hurg, -⟩ := has_of_predicted h.flags
  obtain ⟨age, recent, hstamp⟩ := stamp_eq tp s 0
  have hpure' : s.tiLen ≠ 0 ∧ s.tiAck = tp.sndUna ∧ tp.segs = [] ∧ s.tiLen ≤ tp.rcvSpace mb := by
    rw [hstamp] at hpure
    simp only [pureData, Bool.and_eq_true, decide_eq_true_eq, List.isEmpty_iff] at hpure
    exact ⟨hpure.1.1.1, hpure.1.1.2, hpure.1.2, hpure.2⟩
  obtain ⟨hlo, hup⟩ := hlen ▸ short_bounds s.tiLen
  obtain ⟨hlen, hack, hsegs, hspace⟩ := hpure'
  have hfast : (fastData (tp.stamp s 0) s).conn.visible = (tp.stamp s 0).visible.filled s := rfl
  rw [hfast, hstamp]
  have hw := h.setRcvWnd mb
  by_cases hbeyond : (tp.setRcvWnd mb).beyond s ≤ 0
  · rw [established_predicted hw hbeyond, established_data hw hlen hack hsegs hurg (hhdr ▸ hfin),
      stamp_setRcvWnd, hstamp]
    refine (filled_eq_step6_iff _ s).trans ?_
    simp [losesNothing, hbeyond, hlen, Tcpcb.visible]
  · refine iff_of_false (fun heq => ?_) (by simp [losesNothing, hbeyond])
    have hnxt := congrArg Visible.rcvNxt heq
    have hpos := not_le.mp hbeyond
    by_cases hall : s.tiLen ≤ (tp.setRcvWnd mb).beyond s
    · have hwnd : (tp.setRcvWnd mb).rcvWnd ≠ 0 := by
        intro hz
        by_cases hneg : 0 < s.tiLen
        · exact rcvWnd_ne_zero hneg hspace hhi hz
        · exact hbeyond (beyond_nonpos hw hlo (not_lt.mp hneg) hz)
      rw [established_beyond hw hpos hall hwnd] at hnxt
      refine add_ulong_ne tp.rcvNxt hlen (by omega) (by omega) (hnxt.trans ?_)
      exact (BitVec.add_zero _).symm
    · have hpart := not_le.mp hall
      have hcut : Predicted (tp.setRcvWnd mb) (s.dropTail ((tp.setRcvWnd mb).beyond s)) :=
        ⟨h.state, has_of_cut h.flags, h.fresh, h.seq, h.win, h.nxt⟩
      have hrest : (s.dropTail ((tp.setRcvWnd mb).beyond s)).tiLen =
          s.tiLen - (tp.setRcvWnd mb).beyond s := Int.bmod_eq_of_le (by omega) (by omega)
      obtain ⟨-, -, -, hurg', -⟩ := has_of_predicted hcut.flags
      obtain ⟨_, _, hstamp'⟩ := stamp_eq (tp.setRcvWnd mb) (s.dropTail _) 0
      rw [established_cut hw hpos hpart,
        established_data hcut (by omega) hack hsegs hurg' (hhdr ▸ hfin), hstamp'] at hnxt
      exact add_ulong_ne tp.rcvNxt (by omega) (by omega) (by omega) hnxt

end Paths

/-- **Header prediction.**  A segment on one of the fast paths leaves what the general path
would leave, and nothing panics, if and only if nothing is lost. -/
theorem prediction_exact_iff (env : Env) (tp : Tcpcb) (a : Arrival)
    (ts : Option (BitVec 32 × BitVec 32)) (hcc : tp.soSnd.length < 2 ^ 32)
    (hhi : tp.rcvHiwat < 2 ^ 32) (hfast : takesFast tp (a.seg tp ts) env.mb) :
    ((predict tp (a.seg tp ts) env.mb).panics = false ∧
      (predict tp (a.seg tp ts) env.mb).conn.visible =
        (general env tp (a.seg tp ts)).conn.visible) ↔
      losesNothing tp (a.seg tp ts) env.mb := by
  simp only [takesFast, Bool.and_eq_true, Bool.or_eq_true] at hfast
  obtain ⟨hpredicts, hpath⟩ := hfast
  have h := predicted_of_predicts hpredicts
  have hgeneral : general env tp (a.seg tp ts) = established (tp.setRcvWnd env.mb) (a.seg tp ts) := by
    rw [general, h.state]
  rw [predict, if_pos hpredicts, hgeneral]
  by_cases hpure : pureAck (tp.stamp (a.seg tp ts) 0) (a.seg tp ts)
  · rw [if_pos hpure]
    exact ack_exact_iff env.mb h hpure hcc
  · have hdata := hpath.resolve_left hpure
    have hlen : short (a.seg tp ts).tiLen = (a.seg tp ts).tiLen := by
      rw [Arrival.seg, short_short]
    rw [if_neg hpure, if_pos hdata, ← data_exact_iff env.mb h hdata rfl hlen hhi]
    exact and_iff_right rfl

/-- A connection is opened, one byte is sent, and `n` more acknowledgements come that
acknowledge nothing. -/
def unanswered (n : ℕ) : List Event :=
  [.connect 0 [smooth], arrives 100 1 (TH_SYN ||| TH_ACK) 4096 [], .send [7] [smooth]] ++
    List.replicate n (arrives 101 1 TH_ACK 4096 [])

/-- A byte in sequence. -/
def nextByte : Arrival := ⟨101, 1, TH_ACK, 4096, 0, [], .packet [9], false⟩

/-- What it finds. -/
def atEase : Env := ⟨16384, none, true, 0⟩

/-- With no duplicate acknowledgement before it, the byte is taken as on the general path. -/
theorem prediction_exact_first : ∃ tp, Schedule.run step opening (unanswered 0) = some tp ∧
    (predict tp (nextByte.seg tp none) atEase.mb).conn.soRcv = [9] ∧
    (predict tp (nextByte.seg tp none) atEase.mb).conn.visible =
      (general atEase tp (nextByte.seg tp none)).conn.visible := by
  refine ⟨_, rfl, by decide +kernel, ?_⟩
  refine ((prediction_exact_iff atEase _ nextByte none ?_ ?_ ?_).mpr ?_).2
  all_goals decide +kernel

/-- After two duplicate acknowledgements the fast path keeps their count, which the general
path clears. -/
theorem prediction_keeps_dupacks : ∃ tp, Schedule.run step opening (unanswered 2) = some tp ∧
    takesFast tp (nextByte.seg tp none) atEase.mb ∧
    (predict tp (nextByte.seg tp none) atEase.mb).conn.dupacks = 2 ∧
    (general atEase tp (nextByte.seg tp none)).conn.dupacks = 0 :=
  ⟨_, rfl, by decide +kernel, by decide +kernel, by decide +kernel⟩

end BSDLite2.Tcp
