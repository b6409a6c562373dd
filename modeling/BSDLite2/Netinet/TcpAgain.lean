import BSDLite2.Netinet.TcpMaxseg
import BSDLite2.Netinet.TcpRecord

/-!
# The loop of `tcp_output`

`tcp_output` goes back to its label `again` as long as there is more to send than one segment
takes.  It comes to an end because every turn that goes back has moved `snd_nxt` forward; or
that is what the code expects.  The length of a segment is limited twice, to `t_maxseg`, and
then to what the options leave of it.  If they leave nothing, the turn sends a segment without
data and goes back to where it was.

* `Tcpcb.Orderly` — what the loop needs to know of the connection;
* `turn_again` — a turn that goes back, and by how much it moves `snd_nxt`;
* `turn_stuck` — a turn that goes back without having moved it;
* `output_advances_iff` — the loop ends, with `snd_nxt` moving in every turn, if and only if
  its first turn is not such a one;
* `output_never_returns` — a connection with timestamps and segments of 12 bytes.
-/

namespace BSDLite2.Tcp

open Serial

/-! ## Lengths -/

/-- **What the loop needs to know**: `snd_nxt` is not behind `snd_una`, the numbers are in
range, and until the connection is open there is nothing to send but the SYN. -/
structure Tcpcb.Orderly (tp : Tcpcb) : Prop where
  nxt : 0 ≤ dist tp.sndNxt tp.sndUna
  room : tp.soSnd.length < 2 ^ 31
  seg : tp.maxseg < 2 ^ 16
  syn : tp.tState.sendsSyn → tp.soSnd = []

section Lengths

variable {tp : Tcpcb}

theorem Tcpcb.Orderly.rawLen_eq (h : tp.Orderly) :
    tp.rawLen = min (tp.soSnd.length : ℤ) tp.forcedWin.toNat - dist tp.sndNxt tp.sndUna :=
  rawLen_of_nonneg h.nxt h.room

/-- There is nothing to send before the connection is open. -/
theorem Tcpcb.Orderly.not_syn (h : tp.Orderly) (hraw : 0 < tp.rawLen) :
    tp.tState.sendsSyn = false := by
  by_contra hsyn
  have hnil := h.syn (Bool.eq_true_of_not_eq_false hsyn)
  have hlen := h.rawLen_eq
  have hnxt := h.nxt
  rw [hnil, List.length_nil] at hlen
  omega

/-- A FIN waits until the end of the data. -/
theorem Tcpcb.Orderly.plan_not_fin (h : tp.Orderly) (hmore : tp.planLen < tp.rawLen) :
    has tp.plan.flags TH_FIN = false := by
  have hlen := h.rawLen_eq
  have hplan := planLen_nonneg tp
  have hnxt := h.nxt
  have hroom := h.room
  have hend : seqLT (tp.retreat.sndNxt + ulong tp.planLen) (tp.sndUna + tp.sndCc) = true := by
    rw [sndNxt_retreat_of_nonneg tp (by omega), seqLT, sndNxt_add, sndUna_add_sndCc,
      dist_pos_pos _ (by omega) (by omega), decide_eq_true_eq]
    omega
  simp only [Tcpcb.plan]
  rw [if_pos hend]
  exact has_clear_self _

theorem optlen_clear (tp : Tcpcb) (flags : BitVec 8) :
    tp.optlen (clear flags TH_FIN) = tp.optlen flags := by
  have hbits : ∀ f : BitVec 8, has (clear f TH_FIN) TH_SYN = has f TH_SYN ∧
      has (clear f TH_FIN) TH_ACK = has f TH_ACK ∧ has (clear f TH_FIN) TH_RST = has f TH_RST ∧
      clear f TH_FIN &&& (TH_SYN ||| TH_ACK) = f &&& (TH_SYN ||| TH_ACK) := by decide
  obtain ⟨hsyn, hack, hrst, hboth⟩ := hbits flags
  simp only [Tcpcb.optlen, hsyn, hack, hrst, hboth]

/-- The length of the options depends on the state only. -/
theorem optlen_plan (tp tp' : Tcpcb) :
    tp'.optlen tp.plan.flags = tp'.optlen (outflags tp.tState) := by
  have hforced : tp'.optlen tp.forcedFlags = tp'.optlen (outflags tp.tState) := by
    unfold Tcpcb.forcedFlags
    split
    · exact optlen_clear tp' _
    · rfl
  simp only [Tcpcb.plan]
  split
  · rw [optlen_clear, hforced]
  · exact hforced

theorem optlen_le (tp : Tcpcb) (flags : BitVec 8) : tp.optlen flags ≤ 20 := by
  unfold Tcpcb.optlen
  split_ifs <;> omega

end Lengths

/-! ## What a turn leaves alone -/

/-- The fields that the lengths depend on, but for `snd_nxt`. -/
structure Gauge where
  tState : TState
  force : Bool
  noopt : Bool
  reqScale : Bool
  rcvdScale : Bool
  reqTstmp : Bool
  rcvdTstmp : Bool
  template : Bool
  maxseg : ℕ
  sndUna : BitVec 32
  sndWnd : BitVec 32
  sndCwnd : BitVec 32
  soSnd : List (BitVec 8)

/-- These fields of a connection. -/
def Tcpcb.gauge (tp : Tcpcb) : Gauge where
  tState := tp.tState
  force := tp.force
  noopt := tp.noopt
  reqScale := tp.reqScale
  rcvdScale := tp.rcvdScale
  reqTstmp := tp.reqTstmp
  rcvdTstmp := tp.rcvdTstmp
  template := tp.template
  maxseg := tp.maxseg
  sndUna := tp.sndUna
  sndWnd := tp.sndWnd
  sndCwnd := tp.sndCwnd
  soSnd := tp.soSnd

variable (tp : Tcpcb)

theorem gauge_unpersist : tp.unpersist.gauge = tp.gauge ∧ tp.unpersist.sndNxt = tp.sndNxt := by
  unfold Tcpcb.unpersist
  split <;> exact ⟨rfl, rfl⟩

theorem gauge_dragUp :
    tp.dragUp.gauge = tp.gauge ∧ tp.dragUp.sndNxt = tp.sndNxt ∧ tp.dragUp.persist = tp.persist := by
  unfold Tcpcb.dragUp
  split <;> exact ⟨rfl, rfl, rfl⟩

theorem gauge_startRexmt : tp.startRexmt.gauge = tp.gauge ∧ tp.startRexmt.sndNxt = tp.sndNxt := by
  unfold Tcpcb.startRexmt
  split_ifs <;> exact ⟨rfl, rfl⟩

theorem gauge_raise (startseq : BitVec 32) :
    (tp.raise startseq).gauge = tp.gauge ∧ (tp.raise startseq).sndNxt = tp.sndNxt := by
  unfold Tcpcb.raise
  split_ifs <;> exact ⟨rfl, rfl⟩

/-- What is noted of a segment moves `snd_nxt`, unless it is a probe. -/
theorem gauge_note (p : Plan) :
    (tp.note p).gauge = tp.gauge ∧ (tp.note p).sndNxt =
      if tp.force ∧ tp.persist ≠ 0 then tp.sndNxt
      else tp.sndNxt + ulong (seqLen p.flags p.len) := by
  have hmoved := gauge_raise (tp.advance p) tp.sndNxt
  have hstarted := gauge_startRexmt ((tp.advance p).raise tp.sndNxt)
  unfold Tcpcb.note
  by_cases hprobe : tp.force ∧ tp.persist ≠ 0
  · rw [if_neg (by simpa using hprobe)]
    split <;> exact ⟨rfl, rfl⟩
  · rw [if_pos (by simpa [or_iff_not_imp_left] using hprobe), if_neg hprobe]
    exact ⟨hstarted.1.trans hmoved.1, hstarted.2.trans hmoved.2⟩

/-- A segment that is sent. -/
theorem gauge_handed (p : Plan) (win : ℤ) (data : List (BitVec 8)) :
    ((tp.noted p win data true).sentOk (tp.offer win)).gauge = tp.gauge ∧
      ((tp.noted p win data true).sentOk (tp.offer win)).sndNxt =
        if tp.force ∧ tp.persist ≠ 0 then tp.sndNxt
        else tp.sndNxt + ulong (seqLen p.flags p.len) := by
  obtain ⟨hdrag, hnxt, hpersist⟩ := gauge_dragUp tp
  have hforce : tp.dragUp.force = tp.force := congrArg Gauge.force hdrag
  obtain ⟨hnote, hnoteNxt⟩ := gauge_note tp.dragUp p
  rw [hforce, hpersist, hnxt] at hnoteNxt
  exact ⟨hnote.trans hdrag, hnoteNxt⟩

section Gauge

variable {tp tp' : Tcpcb}

theorem optlen_congr (h : tp'.gauge = tp.gauge) (flags : BitVec 8) :
    tp'.optlen flags = tp.optlen flags := by
  simp only [Tcpcb.gauge, Gauge.mk.injEq] at h
  simp only [Tcpcb.optlen, h]

theorem forcedWin_congr (h : tp'.gauge = tp.gauge) : tp'.forcedWin = tp.forcedWin := by
  obtain ⟨-, hforce, -, -, -, -, -, -, -, -, hwnd, hcwnd, -⟩ := Gauge.mk.inj h
  unfold Tcpcb.forcedWin Tcpcb.sendWin
  rw [hforce, hwnd, hcwnd]

/-- `snd_nxt` has moved forward over data that is there. -/
theorem Tcpcb.Orderly.advance (h : tp.Orderly) (hgauge : tp'.gauge = tp.gauge) {n : ℤ} (h0 : 0 ≤ n)
    (hle : n ≤ tp.rawLen) (hnxt : tp'.sndNxt = tp.sndNxt + ulong n) :
    tp'.Orderly ∧ tp'.rawLen = tp.rawLen - n ∧ dist tp'.sndNxt tp.sndNxt = n := by
  have huna : tp'.sndUna = tp.sndUna := congrArg Gauge.sndUna hgauge
  have hsnd : tp'.soSnd = tp.soSnd := congrArg Gauge.soSnd hgauge
  have hseg : tp'.maxseg = tp.maxseg := congrArg Gauge.maxseg hgauge
  have hstate : tp'.tState = tp.tState := congrArg Gauge.tState hgauge
  have hlen := h.rawLen_eq
  have hlo := h.nxt
  have hroom := h.room
  have hmoved : dist tp'.sndNxt tp'.sndUna = dist tp.sndNxt tp.sndUna + n := by
    rw [hnxt, huna, sndNxt_add, dist_pos _ (by omega) (by omega)]
  have horderly : tp'.Orderly := by
    refine ⟨by omega, by rwa [hsnd], by rw [hseg]; exact h.seg, ?_⟩
    rw [hstate, hsnd]
    exact h.syn
  refine ⟨horderly, ?_, ?_⟩
  · rw [horderly.rawLen_eq, hsnd, forcedWin_congr hgauge]
    omega
  · rw [hnxt]
    exact dist_pos _ (by omega) (by omega)

end Gauge

/-! ## A turn that goes back -/

/-- The options leave nothing of the segment, or there is nothing of it. -/
def Tcpcb.noRoom (tp : Tcpcb) : Prop :=
  tp.maxseg = 0 ∨ tp.maxseg = tp.optlen (outflags tp.tState)

instance (tp : Tcpcb) : Decidable tp.noRoom := inferInstanceAs (Decidable (_ ∨ _))

section Turn

variable {tp tp' : Tcpcb} {idle : Bool} {t : Turn}

/-- **The second limit.**  Options that leave room limit the length; options that are longer
than the segment itself do not, as the difference wraps. -/
theorem Tcpcb.Orderly.fit_cases (h : tp.Orderly) (hgauge : tp'.gauge = tp.gauge) {opt : ℕ}
    (hopt : tp.optlen (outflags tp.tState) = opt) :
    (opt ≤ tp.maxseg ∧ (tp.maxseg : ℤ) - opt < tp.planLen ∧
      tp'.fit tp.plan = { tp.plan with
        len := tp.maxseg - opt
        sendalot := true
        flags := clear tp.plan.flags TH_FIN }) ∨
    ((tp.maxseg < opt ∨ tp.planLen ≤ (tp.maxseg : ℤ) - opt) ∧ tp'.fit tp.plan = tp.plan) := by
  have hle : opt ≤ 20 := hopt ▸ optlen_le tp _
  have hseg := h.seg
  have h0 : 0 ≤ tp.plan.len := planLen_nonneg tp
  have hplan : tp.plan.len ≤ tp.maxseg := min_le_right _ _
  have hroom : BitVec.ofNat 32 tp.maxseg - BitVec.ofNat 32 opt = ulong ((tp.maxseg : ℤ) - opt) := by
    rw [← ulong_sub, ulong, ulong, BitVec.ofInt_natCast, BitVec.ofInt_natCast]
  have hsame : tp'.maxseg = tp.maxseg := congrArg Gauge.maxseg hgauge
  unfold Tcpcb.fit
  rw [hsame, optlen_congr hgauge, optlen_plan, hopt, hroom]
  by_cases hwrap : tp.maxseg < opt
  · refine .inr ⟨.inl hwrap, if_neg ?_⟩
    rw [gt_iff_lt, BitVec.lt_def, toNat_ulong h0 (by omega), ulong, BitVec.toNat_ofInt]
    omega
  · have hcut : ulong tp.plan.len > ulong ((tp.maxseg : ℤ) - opt) ↔
        (tp.maxseg : ℤ) - opt < tp.plan.len := by
      rw [gt_iff_lt, BitVec.lt_def, toNat_ulong h0 (by omega), toNat_ulong (by omega) (by omega)]
      omega
    rw [toInt_ulong (by omega) (by omega)]
    by_cases hlong : (tp.maxseg : ℤ) - opt < tp.plan.len
    · exact .inl ⟨not_lt.mp hwrap, hlong, if_pos (hcut.mpr hlong)⟩
    · exact .inr ⟨.inr (not_lt.mp hlong), if_neg (mt hcut.mp hlong)⟩

/-- **What is sent when there is more to come**: no FIN, and data if there is room for any. -/
theorem Tcpcb.Orderly.fit_sendalot (h : tp.Orderly) (hgauge : tp'.gauge = tp.gauge)
    (hmore : (tp'.fit tp.plan).sendalot) :
    0 < tp.rawLen ∧ has (tp'.fit tp.plan).flags TH_FIN = false ∧
      0 ≤ (tp'.fit tp.plan).len ∧ (tp'.fit tp.plan).len < tp.rawLen ∧
      ((tp'.fit tp.plan).len = 0 ↔ tp.noRoom) := by
  have h0 := planLen_nonneg tp
  have hlen : tp.plan.len = tp.planLen := rfl
  have hraw := planLen_le tp
  unfold Tcpcb.noRoom
  rcases h.fit_cases hgauge rfl with ⟨hfits, hlong, heq⟩ | ⟨hshort, heq⟩
  · rw [heq]
    simp only [has_clear_self, true_and]
    omega
  · rw [heq] at hmore ⊢
    have hlarge : max tp.rawLen 0 > tp.maxseg := by simpa [Tcpcb.plan] using hmore
    have hfull : tp.planLen = tp.maxseg := min_eq_right hlarge.le
    refine ⟨by omega, h.plan_not_fin (by omega), h0, by omega, ?_⟩
    omega

/-- Without data there is no other turn. -/
theorem fit_last (x : Tcpcb) (hraw : tp.rawLen ≤ 0) : (x.fit tp.plan).sendalot = false := by
  have hlen : tp.plan.len = 0 := by
    show min (max tp.rawLen 0) (tp.maxseg : ℤ) = 0
    omega
  have hlast : tp.plan.sendalot = false := by
    show decide (max tp.rawLen 0 > (tp.maxseg : ℤ)) = false
    rw [decide_eq_false_iff_not]
    omega
  unfold Tcpcb.fit
  rw [if_neg, hlast]
  rw [hlen, gt_iff_lt]
  exact Nat.not_lt_zero _

/-- How a segment comes to be followed by another. -/
theorem build_again {p : Plan} {win : ℤ} (hip : t.ip = none)
    (hbuild : tp.build p win t = .ok (tp', .again)) :
    t.mbufs = true ∧ tp.template = true ∧ p.sendalot = true ∧ ∃ data,
      tp' = ((tp.refin p.flags).noted p win data true).sentOk ((tp.refin p.flags).offer win) := by
  have hstops (e : IpError) : (tp.fail e).2 ≠ .again := by
    unfold Tcpcb.fail
    split
    · simp
    · split <;> simp
    · simp
  unfold Tcpcb.build at hbuild
  split at hbuild
  · injection hbuild with hbuild
    exact absurd (congrArg Prod.snd hbuild) (hstops _)
  · next hmbufs =>
      split at hbuild
      · cases hbuild
      · next data _ =>
          split at hbuild
          · cases hbuild
          · next htemplate =>
              rw [hip] at hbuild
              injection hbuild with hbuild
              injection hbuild with htp hnext
              refine ⟨by simpa using hmbufs, by simpa using htemplate, ?_, data, htp.symm⟩
              by_contra hlast
              rw [if_neg hlast] at hnext
              cases hnext

theorem retreat_of_nonneg (h : 0 ≤ tp.rawLen) : tp.retreat = tp.unpersist := by
  rw [Tcpcb.retreat, if_neg fun hback => absurd hback.1 (not_lt.mpr h)]

section

variable (h : tp.Orderly)

include h

/-- Forced to send while it persists, the connection has one byte to send at most. -/
theorem Tcpcb.Orderly.probe_le (hforce : tp.unpersist.force = true)
    (hpersist : tp.unpersist.persist ≠ 0) : tp.rawLen ≤ 1 := by
  have hforced : tp.force = true :=
    (congrArg Gauge.force (gauge_unpersist tp).1).symm.trans hforce
  have hwin : tp.sendWin = 0 := by
    by_contra hopen
    rw [Tcpcb.unpersist, if_pos ⟨hforced, hopen⟩] at hpersist
    exact hpersist rfl
  have hlen := h.rawLen_eq
  have hnxt := h.nxt
  rw [Tcpcb.forcedWin, if_pos ⟨hforced, hwin⟩] at hlen
  have hone : (1 : BitVec 32).toNat = 1 := rfl
  omega

/-- The state of the connection after a segment that is followed by another. -/
theorem Tcpcb.Orderly.sent_again {q : Plan} (hfin : has q.flags TH_FIN = false)
    (hsyn : has q.flags TH_SYN = false) (hlt : q.len < tp.rawLen) (h0 : 0 ≤ q.len) (win : ℤ)
    (data : List (BitVec 8)) :
    (((tp.unpersist.refin q.flags).noted q win data true).sentOk
        ((tp.unpersist.refin q.flags).offer win)).gauge = tp.gauge ∧
      (((tp.unpersist.refin q.flags).noted q win data true).sentOk
        ((tp.unpersist.refin q.flags).offer win)).sndNxt = tp.sndNxt + ulong q.len := by
  have hrefin : tp.unpersist.refin q.flags = tp.unpersist := by
    rw [Tcpcb.refin, if_neg fun hre => by rw [hfin] at hre; cases hre.1]
  have hlen : seqLen q.flags q.len = q.len := by
    rw [seqLen, hsyn, hfin]
    simp
  obtain ⟨hgauge, hnxt⟩ := gauge_unpersist tp
  obtain ⟨hhanded, hhandedNxt⟩ := gauge_handed tp.unpersist q win data
  rw [hrefin]
  refine ⟨hhanded.trans hgauge, hhandedNxt.trans ?_⟩
  rw [hnxt, hlen]
  split
  · next hprobe =>
      have hle := h.probe_le hprobe.1 hprobe.2
      have hzero : q.len = 0 := by omega
      rw [hzero]
      exact (add_zero _).symm
  · rfl

/-- With data to send there is no SYN. -/
theorem Tcpcb.Orderly.prepareSyn (hraw : 0 < tp.rawLen) (route : Option Route) :
    has tp.plan.flags TH_SYN = false ∧
      tp.retreat.prepareSyn tp.plan.flags route = tp.unpersist := by
  have hsyn : has tp.plan.flags TH_SYN = false := by
    rw [has_plan_syn, h.not_syn hraw]
  rw [retreat_of_nonneg hraw.le, Tcpcb.prepareSyn, if_neg (by simp [hsyn])]
  exact ⟨hsyn, rfl⟩

/-- **A turn that goes back** has moved `snd_nxt` over some data, or there is no room for any. -/
theorem turn_again (hip : t.ip = none) (hturn : outputTurn idle tp t = .ok (tp', .again)) :
    0 < tp.rawLen ∧ t.mbufs = true ∧ tp.template = true ∧
      tp.retreat.wants idle tp.plan (tp.rcvSpace t.mb) = true ∧ tp'.gauge = tp.gauge ∧
      ∃ n, 0 ≤ n ∧ n < tp.rawLen ∧ (n = 0 ↔ tp.noRoom) ∧ tp'.sndNxt = tp.sndNxt + ulong n := by
  unfold outputTurn at hturn
  split at hturn
  swap
  · cases hrest : tp.retreat.rest <;> rw [hrest] at hturn <;> cases hturn
  next hwants =>
    obtain ⟨hmbufs, htemplate, hmore, data, htp'⟩ := build_again hip hturn
    have hraw : 0 < tp.rawLen := by
      by_contra hnone
      rw [fit_last _ (not_lt.mp hnone)] at hmore
      cases hmore
    obtain ⟨hsyn, hprep⟩ := h.prepareSyn hraw t.route
    obtain ⟨hgauge, -⟩ := gauge_unpersist tp
    rw [hprep] at hmore htemplate htp'
    obtain ⟨-, hfin, h0, hlt, hzero⟩ := h.fit_sendalot hgauge hmore
    have hsent := h.sent_again hfin ((has_fit_syn _ _).trans hsyn) hlt h0 (tp.rcvSpace t.mb) data
    rw [← htp'] at hsent
    exact ⟨hraw, hmbufs, (congrArg Gauge.template hgauge).symm.trans htemplate, hwants, hsent.1, _,
      h0, hlt, hzero, hsent.2⟩

/-- Without room there is always another turn. -/
theorem Tcpcb.Orderly.stuck_sendalot (hgauge : tp'.gauge = tp.gauge)
    (hraw : 0 < tp.rawLen) (hroom : tp.noRoom) : (tp'.fit tp.plan).sendalot = true := by
  unfold Tcpcb.noRoom at hroom
  rcases h.fit_cases hgauge rfl with ⟨-, -, heq⟩ | ⟨hshort, heq⟩
  · rw [heq]
  · have hlen : tp.planLen = min (max tp.rawLen 0) (tp.maxseg : ℤ) := rfl
    rw [heq]
    show decide (max tp.rawLen 0 > (tp.maxseg : ℤ)) = true
    rw [decide_eq_true_eq]
    omega

/-- **A turn without room** goes back to where it was. -/
theorem turn_stuck (hip : t.ip = none) (hmbufs : t.mbufs = true)
    (htemplate : tp.template = true) (hraw : 0 < tp.rawLen) (hroom : tp.noRoom)
    (hwants : tp.retreat.wants idle tp.plan (tp.rcvSpace t.mb) = true) :
    ∃ tp', outputTurn idle tp t = .ok (tp', .again) ∧ tp'.gauge = tp.gauge ∧
      tp'.sndNxt = tp.sndNxt := by
  obtain ⟨hgauge, -⟩ := gauge_unpersist tp
  have hmore := h.stuck_sendalot hgauge hraw hroom
  obtain ⟨-, hfin, h0, hlt, hzero⟩ := h.fit_sendalot hgauge hmore
  obtain ⟨hsyn, hprep⟩ := h.prepareSyn hraw t.route
  have hcopy : tp.unpersist.copy (tp.unpersist.fit tp.plan) = some [] := by
    rw [Tcpcb.copy, if_pos (hzero.mpr hroom)]
  have htemplate' : tp.unpersist.template = true :=
    (congrArg Gauge.template hgauge).trans htemplate
  have hsent := h.sent_again hfin ((has_fit_syn _ _).trans hsyn) hlt h0 (tp.rcvSpace t.mb) []
  refine ⟨_, ?_, hsent.1, hsent.2.trans ?_⟩
  · rw [outputTurn, if_pos hwants, Tcpcb.transmit, hprep, Tcpcb.build, hmbufs, hcopy]
    simp only [htemplate', Bool.not_true, Bool.false_eq_true, if_false, hip, Tcpcb.hand, hmore,
      if_true]
  · rw [hzero.mpr hroom]
    exact add_zero _

end

end Turn

/-! ## The loop -/

/-- The first turns. -/
def firstTurns (turns : ℕ → Turn) : ℕ → List Turn
  | 0 => []
  | n + 1 => turns 0 :: firstTurns (fun i => turns (i + 1)) n

/-- The connection when a turn goes back. -/
def goesBack : Except Panic (Tcpcb × Next) → Option Tcpcb
  | .ok (tp, .again) => some tp
  | _ => none

theorem goesBack_eq_some {x : Except Panic (Tcpcb × Next)} {tp : Tcpcb} :
    goesBack x = some tp ↔ x = .ok (tp, .again) := by
  cases x with
  | error p => simp [goesBack]
  | ok r =>
    obtain ⟨tp', next⟩ := r
    cases next <;> simp [goesBack]

/-- The connection at the label `again`, after it has been gone back to `n` times. -/
def again (idle : Bool) (turns : ℕ → Turn) : ℕ → Tcpcb → Option Tcpcb
  | 0, tp => some tp
  | n + 1, tp =>
    (goesBack (outputTurn idle tp (turns 0))).bind (again idle (fun i => turns (i + 1)) n)

/-- The loop runs out of turns as long as it goes back. -/
theorem outputLoop_starved_iff (idle : Bool) (turns : ℕ → Turn) (n : ℕ) (tp : Tcpcb) :
    outputLoop idle (firstTurns turns n) tp = .error .starved ↔
      again idle turns n tp ≠ none := by
  induction n generalizing turns tp with
  | zero => simp [firstTurns, outputLoop, again]
  | succ n ih =>
    rw [firstTurns, outputLoop, again]
    generalize outputTurn idle tp (turns 0) = x
    cases x with
    | error p => simp [orPanic, Except.bind, goesBack]
    | ok r =>
      obtain ⟨tp', next⟩ := r
      cases next with
      | again => exact ih _ tp'
      | stop e => simp [orPanic, Except.bind, Next.follow, goesBack]

/-- Every turn that goes back has moved `snd_nxt` forward. -/
def Advances (idle : Bool) (turns : ℕ → Turn) (tp : Tcpcb) : Prop :=
  ∀ n tp₁ tp₂, again idle turns n tp = some tp₁ → again idle turns (n + 1) tp = some tp₂ →
    0 < dist tp₂.sndNxt tp₁.sndNxt

section Loop

variable {tp tp' : Tcpcb} {idle : Bool} {turns : ℕ → Turn}

theorem again_succ (hturn : outputTurn idle tp (turns 0) = .ok (tp', .again)) (n : ℕ) :
    again idle turns (n + 1) tp = again idle (fun i => turns (i + 1)) n tp' := by
  rw [again, goesBack_eq_some.mpr hturn, Option.bind_some]

section

variable (hstop : ∀ tp', outputTurn idle tp (turns 0) ≠ .ok (tp', .again))

include hstop

theorem again_stop (n : ℕ) : again idle turns (n + 1) tp = none := by
  rw [again]
  cases hback : goesBack (outputTurn idle tp (turns 0)) with
  | none => rfl
  | some tp' => exact absurd (goesBack_eq_some.mp hback) (hstop tp')

theorem ends_of_stop : (∃ n, again idle turns n tp = none) ∧ Advances idle turns tp := by
  refine ⟨⟨1, again_stop hstop 0⟩, fun n tp₁ tp₂ _ h₂ => ?_⟩
  rw [again_stop hstop] at h₂
  cases h₂

end

/-- One turn more. -/
theorem Advances.cons (hturn : outputTurn idle tp (turns 0) = .ok (tp', .again))
    (hmoved : 0 < dist tp'.sndNxt tp.sndNxt) (h : Advances idle (fun i => turns (i + 1)) tp') :
    Advances idle turns tp := by
  intro n tp₁ tp₂ h₁ h₂
  rw [again_succ hturn] at h₂
  cases n with
  | zero =>
    cases h₁
    cases h₂
    exact hmoved
  | succ n =>
    rw [again_succ hturn] at h₁
    exact h n tp₁ tp₂ h₁ h₂

/-- **With room for data the loop ends.**  What is left to send gets less in every turn. -/
theorem loop_ends (h : tp.Orderly) (hip : ∀ n, (turns n).ip = none) (hroom : ¬ tp.noRoom) {m : ℕ}
    (hm : tp.rawLen ≤ m) : (∃ n, again idle turns n tp = none) ∧ Advances idle turns tp := by
  induction m generalizing tp turns with
  | zero =>
    refine ends_of_stop fun tp' hturn => ?_
    have hraw := (turn_again h (hip 0) hturn).1
    omega
  | succ m ih =>
    by_cases hloop : ∃ tp', outputTurn idle tp (turns 0) = .ok (tp', .again)
    · obtain ⟨tp', hturn⟩ := hloop
      obtain ⟨-, -, -, -, hgauge, k, hk, hlt, hzero, hnxt⟩ := turn_again h (hip 0) hturn
      obtain ⟨h', hraw, hmoved⟩ := h.advance hgauge hk hlt.le hnxt
      have hpos : 0 < k := lt_of_le_of_ne hk fun h0 => hroom (hzero.mp h0.symm)
      have hroom' : ¬ tp'.noRoom := by
        have hseg : tp'.maxseg = tp.maxseg := congrArg Gauge.maxseg hgauge
        have hstate : tp'.tState = tp.tState := congrArg Gauge.tState hgauge
        rwa [Tcpcb.noRoom, hseg, hstate, optlen_congr hgauge]
      have hip' : ∀ n, ((fun i => turns (i + 1)) n).ip = none := fun n => hip (n + 1)
      obtain ⟨⟨n, hn⟩, hadv⟩ := ih h' hip' hroom' (by push_cast at hm; omega)
      exact ⟨⟨n + 1, (again_succ hturn n).trans hn⟩, hadv.cons hturn (by omega)⟩
    · exact ends_of_stop fun tp' hturn => hloop ⟨tp', hturn⟩

/-- A turn without room, of a connection that has something to send and a reason to. -/
def Tcpcb.standsStill (tp : Tcpcb) (idle : Bool) (t : Turn) : Bool :=
  decide (0 < tp.rawLen) && decide tp.noRoom &&
    tp.retreat.wants idle tp.plan (tp.rcvSpace t.mb) && t.mbufs && tp.template

/-- **The loop ends, and moves forward in every turn**, if and only if its first turn does not
stand still. -/
theorem loop_ends_iff (h : tp.Orderly) (hip : ∀ n, (turns n).ip = none) :
    ((∃ n, again idle turns n tp = none) ∧ Advances idle turns tp) ↔
      tp.standsStill idle (turns 0) = false := by
  constructor
  · rintro ⟨-, hadv⟩
    by_contra hstill
    simp only [Tcpcb.standsStill, Bool.not_eq_false, Bool.and_eq_true, decide_eq_true_eq] at hstill
    obtain ⟨⟨⟨⟨hraw, hroom⟩, hwants⟩, hmbufs⟩, htemplate⟩ := hstill
    obtain ⟨tp', hturn, -, hnxt⟩ := turn_stuck h (hip 0) hmbufs htemplate hraw hroom hwants
    have hmoved := hadv 0 tp tp' rfl (again_succ hturn 0)
    rw [hnxt, dist_same] at hmoved
    exact lt_irrefl 0 hmoved
  · intro hgoes
    by_cases hroom : tp.noRoom
    · refine ends_of_stop fun tp' hturn => ?_
      obtain ⟨hraw, hmbufs, htemplate, hwants, -⟩ := turn_again h (hip 0) hturn
      simp [Tcpcb.standsStill, hraw, hroom, hwants, hmbufs, htemplate] at hgoes
    · exact loop_ends h hip hroom tp.rawLen.self_le_toNat

/-- **Where there is no room for a full segment the loop does not end.** -/
theorem outputLoop_never (h : tp.Orderly) (htemplate : tp.template = true)
    (hseg : 0 < tp.maxseg) (hopt : tp.maxseg = tp.optlen (outflags tp.tState))
    (hraw : tp.maxseg ≤ tp.rawLen) {ts : List Turn} (hts : ∀ t ∈ ts, t.mbufs = true ∧ t.ip = none) :
    outputLoop idle ts tp = .error .starved := by
  induction ts generalizing tp with
  | nil => rfl
  | cons t ts ih =>
    obtain ⟨⟨hmbufs, hip⟩, hts⟩ := List.forall_mem_cons.mp hts
    have hwants : tp.retreat.wants idle tp.plan (tp.rcvSpace t.mb) = true := by
      have hsame : tp.retreat.maxseg = tp.maxseg := congrArg Prod.fst (sizes_retreat tp)
      have hlen : tp.plan.len = tp.maxseg := by
        show min (max tp.rawLen 0) (tp.maxseg : ℤ) = tp.maxseg
        omega
      simp [Tcpcb.wants, Tcpcb.sendsData, hlen, hsame, hseg.ne']
    obtain ⟨tp', hturn, hgauge, hnxt⟩ :=
      turn_stuck h hip hmbufs htemplate (by omega) (.inr hopt) hwants
    obtain ⟨h', hraw', -⟩ := h.advance hgauge le_rfl (by omega)
      (hnxt.trans (add_zero _).symm)
    have hseg' : tp'.maxseg = tp.maxseg := congrArg Gauge.maxseg hgauge
    have hstate : tp'.tState = tp.tState := congrArg Gauge.tState hgauge
    rw [outputLoop, hturn]
    refine ih h' ((congrArg Gauge.template hgauge).trans htemplate) ?_ ?_ ?_ hts
    · rwa [hseg']
    · rwa [hseg', hstate, optlen_congr hgauge]
    · rw [hseg', hraw']
      omega

end Loop

/-! ## Connections -/

section Connections

variable {tp : Tcpcb}

theorem Tcpcb.Orderly.slowStart (h : tp.Orderly) : tp.slowStart.Orderly := by
  unfold Tcpcb.slowStart
  split
  · exact { h with }
  · exact h

theorem orderly_of_inv (h : SndInv tp.sndSide) (hseg : tp.maxseg < 2 ^ 16) : tp.Orderly := by
  have hsmall := h.small.2
  simp only [Tcpcb.sndSide] at hsmall
  exact ⟨h.nxt_nonneg, by omega, hseg, fun hsyn => (h.syn hsyn).1⟩

theorem tcpOutput_starved_iff (turns : ℕ → Turn) (n : ℕ) :
    tcpOutput tp (firstTurns turns n) = .error .starved ↔
      again tp.isIdle turns n tp.slowStart ≠ none := by
  rw [← outputLoop_starved_iff, tcpOutput]
  cases outputLoop tp.isIdle (firstTurns turns n) tp.slowStart with
  | error f => exact Iff.rfl
  | ok r => exact ⟨nofun, nofun⟩

end Connections

/-- **`tcp_output` returns.**  On a connection that any events lead to, none of which queues data
after a shutdown, a call of `tcp_output` for which `ip_output` succeeds goes back to `again`
only finitely often, and with `snd_nxt` moved forward every time, if and only if its first turn
does not stand still. -/
theorem output_advances_iff (start tp : Tcpcb) (events : List Event) (hstart : Started start)
    (hlate : Schedule.Along step (fun tp e => e.late tp = false) start events)
    (hrun : Schedule.run step start events = some tp) (hthere : tp.gone = false)
    (force acknow : Bool) (turns : ℕ → Turn) (hip : ∀ n, (turns n).ip = none) :
    ((∃ n, tcpOutput { tp with force := force, acknow := acknow } (firstTurns turns n) ≠
        .error .starved) ∧
      Advances tp.isIdle turns ({ tp with force := force, acknow := acknow } : Tcpcb).slowStart) ↔
    ({ tp with force := force, acknow := acknow } : Tcpcb).slowStart.standsStill tp.isIdle
      (turns 0) = false := by
  have hsettled := (run_acts hstart trivial (fun _ _ => id)
    (fun _ _ _ _ _ _ _ _ _ => trivial) hlate hrun).2
  have hinv : SndInv tp.sndSide := hsettled.inv hthere
  have horderly := orderly_of_inv hinv (maxseg_lt ⟨start, events, hstart, hrun⟩)
  have hcall : ({ tp with force := force, acknow := acknow } : Tcpcb).Orderly :=
    { horderly with }
  refine Iff.trans (and_congr (exists_congr fun n => ?_) Iff.rfl)
    (loop_ends_iff hcall.slowStart hip)
  rw [ne_eq, tcpOutput_starved_iff, not_not]
  rfl

/-- A connection with timestamps is opened, and the user sets the segment size. -/
def opensStamped (maxseg : ℕ) : List Event :=
  [.connect 0 [smooth],
    .input ⟨100, 1, TH_SYN ||| TH_ACK, 4096, 0, [.timestamp 1 0], .packet [], false⟩
      ⟨16384, none, true, 0⟩ [smooth],
    .setMaxseg maxseg]

/-- A socket that asks for timestamps. -/
def stamping : Tcpcb := tcpNewtcpcb true false 0 ⟨8192, 8192, false, false, false, false⟩

/-- With segments of 13 bytes, of which the timestamps leave one, a call returns. -/
theorem output_advances_13 : ∃ tp, Schedule.run step stamping (opensStamped 13) = some tp ∧
    tp.maxseg = 13 ∧ ∃ n, tcpOutput { tp with force := false, acknow := true }
      (firstTurns (fun _ => smooth) n) ≠ .error .starved := by
  refine ⟨_, rfl, rfl, ((output_advances_iff stamping _ (opensStamped 13)
    (.active _ _ _ _ (by decide) (by decide)) ?_ rfl rfl false true (fun _ => smooth)
    fun _ => rfl).mpr ?_).1⟩
  all_goals decide +kernel

/-- **With segments of 12 bytes `tcp_output` never returns.**  The timestamps take all of a
segment, so that a call with 12 bytes to send sends segments without data for ever. -/
theorem output_never_returns : ∃ tp, Schedule.run step stamping (opensStamped 12) = some tp ∧
    (Event.send (List.replicate 12 7) []).allowed tp = true ∧
    ∀ n, (Event.send (List.replicate 12 7) (List.replicate n smooth)).outcome tp =
      .error .starved := by
  have hrun : ∃ tp x : Tcpcb, Schedule.run step stamping (opensStamped 12) = some tp ∧
      (Event.send (List.replicate 12 7) []).allowed tp = true ∧
      x = { tp with soSnd := tp.soSnd ++ List.replicate 12 7 } ∧
      (0 ≤ dist x.slowStart.sndNxt x.slowStart.sndUna ∧ x.slowStart.soSnd.length < 2 ^ 31 ∧
        x.slowStart.maxseg < 2 ^ 16 ∧ x.slowStart.tState.sendsSyn = false) ∧
      x.slowStart.template = true ∧ x.slowStart.maxseg = 12 ∧
      x.slowStart.optlen (outflags x.slowStart.tState) = 12 ∧ x.slowStart.rawLen = 12 :=
    ⟨_, _, rfl, rfl, rfl, by decide +kernel, rfl, rfl, rfl, rfl⟩
  obtain ⟨tp, x, hrun, hallowed, hx, ⟨hnxt, hroom, hlt, hopen⟩, htemplate, hseg, hopt, hraw⟩ := hrun
  refine ⟨tp, hrun, hallowed, fun n => ?_⟩
  have horderly : x.slowStart.Orderly :=
    ⟨hnxt, hroom, hlt, fun hsyn => absurd (hopen.symm.trans hsyn) (by decide)⟩
  have hloop : outputLoop x.isIdle (List.replicate n smooth) x.slowStart = .error .starved := by
    refine outputLoop_never horderly htemplate (by omega) (hseg.trans hopt.symm) (by omega) ?_
    intro t ht
    rw [List.eq_of_mem_replicate ht]
    exact ⟨rfl, rfl⟩
  rw [Event.outcome, Event.act, ← hx, outputs, tcpOutput, hloop]
  rfl

end BSDLite2.Tcp
