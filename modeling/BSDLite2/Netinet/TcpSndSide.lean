import BSDLite2.Netinet.TcpConn

/-!
# The send side of a connection

What a connection has sent and still has to send is in a part of its control block, the
`SndSide`.  Most of `tcp_input` leaves it alone.  This module says which stages do
(`Quiet`), so that a property of the send side has to be looked at only where it can
change, and collects the rules for stages (`Stage.All`) and for the labels they lead to.
-/

namespace BSDLite2.Tcp

open Mbuf Serial

/-! ## Flags -/

@[simp] theorem has_clear_self (f : BitVec 8) : has (clear f TH_FIN) TH_FIN = false := by
  decide +revert

@[simp] theorem has_clear_syn (f : BitVec 8) : has (clear f TH_FIN) TH_SYN = has f TH_SYN := by
  decide +revert

/-- Another flag does not matter. -/
theorem has_or (f : BitVec 8) {mask bit : BitVec 8} (h : mask &&& bit = 0) :
    has (f ||| mask) bit = has f bit := by
  simp [has, BitVec.and_or_distrib_right, h]

/-- The states in which a FIN has to be sent. -/
def TState.sendsFin : TState → Bool
  | .finWait1 | .closing | .lastAck => true
  | _ => false

/-- The states in which a SYN has to be sent. -/
def TState.sendsSyn : TState → Bool
  | .synSent | .synReceived => true
  | _ => false

/-- The states before a close by the user. -/
def TState.isOpen : TState → Bool
  | .listen | .synSent | .synReceived | .established | .closeWait => true
  | _ => false

@[simp] theorem has_outflags_fin (st : TState) : has (outflags st) TH_FIN = st.sendsFin := by
  cases st <;> rfl

@[simp] theorem has_outflags_syn (st : TState) : has (outflags st) TH_SYN = st.sendsSyn := by
  cases st <;> rfl

theorem not_isOpen_of_sendsFin {st : TState} (h : st.sendsFin) : st.isOpen = false := by
  cases st <;> simp_all [TState.isOpen, TState.sendsFin]

theorem not_sendsFin_of_sendsSyn {st : TState} (h : st.sendsSyn) : st.sendsFin = false := by
  cases st <;> simp_all [TState.sendsSyn, TState.sendsFin]

variable (tp : Tcpcb) (s : Seg) (rt : Route)

theorem has_forcedFlags_syn : has tp.forcedFlags TH_SYN = tp.tState.sendsSyn := by
  unfold Tcpcb.forcedFlags
  split <;> simp

theorem has_fit_syn (p : Plan) : has (tp.fit p).flags TH_SYN = has p.flags TH_SYN := by
  unfold Tcpcb.fit
  split
  · exact has_clear_syn _
  · rfl

/-- A segment has the SYN that its state asks for. -/
theorem has_plan_syn : has tp.plan.flags TH_SYN = tp.tState.sendsSyn := by
  simp only [Tcpcb.plan]
  split
  · rw [has_clear_syn, has_forcedFlags_syn]
  · exact has_forcedFlags_syn tp

/-! ## Rules for stages -/

/-- A stage hands on only what has `N`, and leaves only with what has `L`. -/
def Stage.All (L : Exit → Tcpcb → Seg → Prop) (N : Tcpcb → Seg → Prop) : Stage → Prop
  | .next tp s => N tp s
  | .leave e tp s => L e tp s

section Rules

variable {L L' : Exit → Tcpcb → Seg → Prop} {N N' : Tcpcb → Seg → Prop} {x : Stage}
  {f : Tcpcb → Seg → Stage}

@[simp] theorem all_next (tp : Tcpcb) (s : Seg) : (Stage.next tp s).All L N ↔ N tp s := Iff.rfl

theorem Stage.All.andThen (hx : x.All L N) (hf : ∀ tp s, N tp s → (f tp s).All L N') :
    (x.andThen f).All L N' := by
  cases x with
  | next tp s => exact hf tp s hx
  | leave e tp s => exact hx

theorem Stage.All.mono (hx : x.All L N) (hL : ∀ e tp s, L e tp s → L' e tp s)
    (hN : ∀ tp s, N tp s → N' tp s) : x.All L' N' := by
  cases x with
  | next tp s => exact hN tp s hx
  | leave e tp s => exact hL e tp s hx

end Rules

/-! ## The send side -/

/-- The part of the send side that `tcp_output` leaves alone. -/
structure SndBase where
  tState : TState
  force : Bool
  template : Bool
  sndUna : BitVec 32
  iss : BitVec 32
  soSnd : List (BitVec 8)
  cantSendMore : Bool
  gone : Bool
  acked : ℤ
  closedBy : List ℤ

/-- What sending depends on, but for the windows. -/
structure SndSide extends SndBase where
  rexmt : ℤ
  persist : ℤ
  rxtshift : ℤ
  rxtcur : ℤ
  rttmin : ℕ
  sentfin : Bool
  sndNxt : BitVec 32
  sndMax : BitVec 32
  sndHiwat : ℕ
  sent : List Sent
  returned : List Timers

/-- The send side of a connection. -/
def Tcpcb.sndSide (tp : Tcpcb) : SndSide where
  tState := tp.tState
  force := tp.force
  template := tp.template
  sndUna := tp.sndUna
  iss := tp.iss
  soSnd := tp.soSnd
  cantSendMore := tp.cantSendMore
  gone := tp.gone
  acked := tp.acked
  closedBy := tp.closedBy
  rexmt := tp.rexmt
  persist := tp.persist
  rxtshift := tp.rxtshift
  rxtcur := tp.rxtcur
  rttmin := tp.rttmin
  sentfin := tp.sentfin
  sndNxt := tp.sndNxt
  sndMax := tp.sndMax
  sndHiwat := tp.sndHiwat
  sent := tp.sent
  returned := tp.returned

/-- What sending depends on, and what has been offered to the peer. -/
structure OutSide extends SndSide where
  maxseg : ℕ
  rcvAdv : BitVec 32
  rcvScale : Fin (TCP_MAX_WINSHIFT + 1)

/-- The send side of a connection, with its offer. -/
def Tcpcb.outSide (tp : Tcpcb) : OutSide where
  toSndSide := tp.sndSide
  maxseg := tp.maxseg
  rcvAdv := tp.rcvAdv
  rcvScale := tp.rcvScale

/-- The exits of a quiet stage. -/
def Exit.quiet : Exit → Bool
  | .drop | .dropafterack | .dropwithreset | .abort _ | .close _ | .panic .outofband => true
  | _ => false

/-- **A quiet stage** leaves the send side and the offer alone, and what the segment
acknowledges.  Only on the way to `tcp_close` it may set the state. -/
def Quiet (f : Tcpcb → Seg → Stage) : Prop :=
  ∀ tp s, (f tp s).All
    (fun e tp' s' => (tp'.outSide = tp.outSide ∨
      e = .close false ∧ tp'.outSide = { tp.outSide with tState := .closed }) ∧
      s'.tiAck = s.tiAck ∧ e.quiet)
    fun tp' s' => tp'.outSide = tp.outSide ∧ s'.tiAck = s.tiAck

theorem outSide_stamp (extra : ℤ) : (tp.stamp s extra).outSide = tp.outSide := by
  unfold Tcpcb.stamp
  split
  · rfl
  · split <;> rfl

theorem sndSide_stamp (extra : ℤ) : (tp.stamp s extra).sndSide = tp.sndSide :=
  congrArg OutSide.toSndSide (outSide_stamp tp s extra)

theorem outSide_markUrgent : (tp.markUrgent s).outSide = tp.outSide := by
  unfold Tcpcb.markUrgent
  split <;> rfl

@[simp] theorem tiAck_stripSyn : s.stripSyn.tiAck = s.tiAck := by
  unfold Seg.stripSyn
  split <;> rfl

theorem quiet_pawsStage : Quiet pawsStage := by
  intro tp s
  unfold pawsStage
  split_ifs
  · exact ⟨rfl, rfl⟩
  · exact ⟨.inl rfl, rfl, rfl⟩
  · exact ⟨rfl, rfl⟩

theorem quiet_dropDup (todrop : ℤ) : Quiet (dropDup · · todrop) := by
  intro tp s
  simp only [dropDup]
  split_ifs
  · exact ⟨rfl, rfl⟩
  · exact ⟨.inl rfl, rfl, rfl⟩
  · exact ⟨rfl, rfl⟩
  · exact ⟨rfl, rfl⟩

theorem quiet_frontStage : Quiet frontStage := by
  intro tp s
  unfold frontStage
  split
  · have h := quiet_dropDup (if has s.tiflags TH_SYN then tp.before s - 1 else tp.before s) tp
      s.stripSyn
    rwa [tiAck_stripSyn] at h
  · exact ⟨rfl, rfl⟩

theorem quiet_goneStage : Quiet goneStage := by
  intro tp s
  unfold goneStage
  split_ifs
  · exact ⟨.inl rfl, rfl, rfl⟩
  · exact ⟨rfl, rfl⟩

theorem quiet_tailStage : Quiet tailStage := by
  intro tp s
  unfold tailStage
  split_ifs
  · exact ⟨.inl rfl, rfl, rfl⟩
  · exact ⟨rfl, rfl⟩
  · exact ⟨.inl rfl, rfl, rfl⟩
  · exact ⟨rfl, rfl⟩
  · exact ⟨rfl, rfl⟩

theorem quiet_stampStage : Quiet stampStage := by
  intro tp s
  exact ⟨outSide_stamp tp s _, rfl⟩

theorem quiet_controlStage : Quiet controlStage := by
  intro tp s
  unfold controlStage
  split
  · split
    case h_6 => exact ⟨.inl rfl, rfl, rfl⟩
    all_goals exact ⟨.inr ⟨rfl, rfl⟩, rfl, rfl⟩
  · split_ifs
    · exact ⟨.inl rfl, rfl, rfl⟩
    · exact ⟨.inl rfl, rfl, rfl⟩
    · exact ⟨rfl, rfl⟩

theorem quiet_windowStage : Quiet windowStage := by
  intro tp s
  unfold windowStage
  split_ifs <;> exact ⟨rfl, rfl⟩

theorem quiet_urgentStage : Quiet urgentStage := by
  intro tp s
  unfold urgentStage
  split_ifs
  · exact ⟨rfl, rfl⟩
  · unfold tcpPulloutofband
    split
    · exact ⟨.inl (outSide_markUrgent tp s), rfl, rfl⟩
    · exact ⟨outSide_markUrgent tp s, rfl⟩
  · exact ⟨outSide_markUrgent tp s, rfl⟩
  · exact ⟨rfl, rfl⟩
  · exact ⟨rfl, rfl⟩

/-! ## Reassembly -/

theorem tState_presentLoop (segs : List Tiphdr) (tp : Tcprcv) (flags : BitVec 8) :
    (presentLoop segs tp flags).1.tState = tp.tState := by
  fun_induction presentLoop segs tp flags with
  | case1 => rfl
  | case2 tp flags ti segs h ih => exact ih
  | case3 => rfl

theorem tState_present (tp : Tcprcv) : (present tp).1.tState = tp.tState := by
  unfold present
  split
  · rfl
  · split
    · rfl
    · split
      · rfl
      · split
        · rfl
        · exact tState_presentLoop _ _ _

theorem tState_TCP_REASS (tp : Tcprcv) (ti : Tiphdr) : (TCP_REASS tp ti).1.tState = tp.tState := by
  unfold TCP_REASS tcpReass
  split
  · rfl
  · dsimp only
    split
    · rfl
    · exact tState_present _

theorem outSide_reass {tp : Tcpcb} {r : Tcprcv} (h : r.tState = tp.tState) :
    ({ tp with toTcprcv := r } : Tcpcb).outSide = tp.outSide := by
  simp only [Tcpcb.outSide, Tcpcb.sndSide, h]

theorem outSide_presentQueue : tp.presentQueue.outSide = tp.outSide :=
  outSide_reass (tState_present _)

theorem sndSide_setScales : tp.setScales.sndSide = tp.sndSide := by
  unfold Tcpcb.setScales
  split <;> rfl

theorem sndSide_establish : tp.establish.sndSide = { tp.sndSide with tState := .established } := by
  refine (congrArg OutSide.toSndSide (outSide_presentQueue _)).trans ?_
  exact sndSide_setScales _

theorem quiet_textStage : Quiet textStage := by
  intro tp s
  unfold textStage
  split_ifs
  · exact ⟨outSide_reass (tState_TCP_REASS _ _), rfl⟩
  · exact ⟨rfl, rfl⟩

/-! ## Sizes and options -/

/-- What the route and the options of a segment decide. -/
structure Terms where
  rttmin : ℕ
  srtt : ℤ
  rttvar : ℤ
  rxtcur : ℤ
  sndHiwat : ℕ
  rcvHiwat : ℕ
  maxseg : ℕ
  sndCwnd : BitVec 32
  sndSsthresh : BitVec 32
  rcvdScale : Bool
  requestedSScale : Fin (TCP_MAX_WINSHIFT + 1)
  rcvdTstmp : Bool
  tsRecent : BitVec 32
  tsRecentAge : BitVec 32

/-- The connection with new terms. -/
def Tcpcb.withTerms (tp : Tcpcb) (t : Terms) : Tcpcb :=
  { tp with
    rttmin := t.rttmin
    srtt := t.srtt
    rttvar := t.rttvar
    rxtcur := t.rxtcur
    sndHiwat := t.sndHiwat
    rcvHiwat := t.rcvHiwat
    maxseg := t.maxseg
    sndCwnd := t.sndCwnd
    sndSsthresh := t.sndSsthresh
    rcvdScale := t.rcvdScale
    requestedSScale := t.requestedSScale
    rcvdTstmp := t.rcvdTstmp
    tsRecent := t.tsRecent
    tsRecentAge := t.tsRecentAge }

/-- Nothing is changed but the terms, and the limit of the send buffer stays a limit. -/
def Negotiates (tp tp' : Tcpcb) : Prop :=
  ∃ t, tp' = tp.withTerms t ∧ (tp.sndHiwat ≤ SB_MAX → t.sndHiwat ≤ SB_MAX)

theorem Negotiates.refl : Negotiates tp tp :=
  ⟨⟨_, _, _, _, _, _, _, _, _, _, _, _, _, _⟩, rfl, id⟩

theorem Negotiates.trans {tp tp' tp'' : Tcpcb} (h : Negotiates tp tp') (h' : Negotiates tp' tp'') :
    Negotiates tp tp'' := by
  obtain ⟨t, rfl, hle⟩ := h
  obtain ⟨t', rfl, hle'⟩ := h'
  exact ⟨t', rfl, fun h => hle' (hle h)⟩

theorem sbreserve_le {hiwat : ℕ} (cc : BitVec 32) (h : hiwat ≤ SB_MAX) :
    sbreserve hiwat cc ≤ SB_MAX := by
  unfold sbreserve
  split
  · exact h
  · next hcc =>
      simp only [SB_MAX, MCLBYTES, MSIZE] at hcc ⊢
      omega

theorem negotiates_mssSnd (mss : BitVec 32) : Negotiates tp (tp.mssSnd rt mss).1 := by
  unfold Tcpcb.mssSnd
  split
  · exact ⟨⟨_, _, _, _, _, _, _, _, _, _, _, _, _, _⟩, rfl, id⟩
  · exact ⟨⟨_, _, _, _, _, _, _, _, _, _, _, _, _, _⟩, rfl, sbreserve_le _⟩

theorem negotiates_mssRcv (mss : BitVec 32) : Negotiates tp (tp.mssRcv rt mss) := by
  unfold Tcpcb.mssRcv
  split
  · exact ⟨⟨_, _, _, _, _, _, _, _, _, _, _, _, _, _⟩, rfl, id⟩
  · exact .refl tp

theorem negotiates_mssSizes (offer : BitVec 32) : Negotiates tp (tp.mssSizes rt offer).1 := by
  unfold Tcpcb.mssSizes
  split
  · exact (negotiates_mssSnd tp rt _).trans (negotiates_mssRcv _ rt _)
  · exact .refl tp

theorem negotiates_mssWindows (mss : BitVec 32) :
    Negotiates tp (tp.mssWindows rt mss) := ⟨⟨_, _, _, _, _, _, _, _, _, _, _, _, _, _⟩, rfl, id⟩

theorem negotiates_routeTimes : Negotiates tp (tp.routeTimes rt).routeRxtcur :=
  ⟨⟨_, _, _, _, _, _, _, _, _, _, _, _, _, _⟩, rfl, id⟩

theorem negotiates_tcpMss (offer : BitVec 32) (route : Option Route) :
    Negotiates tp (tcpMss tp offer route) := by
  cases route with
  | none => exact .refl tp
  | some rt =>
    have timed : Negotiates tp
        (if tp.srtt = 0 ∧ rt.rtt ≠ 0 then (tp.routeTimes rt).routeRxtcur else tp) := by
      split
      · exact negotiates_routeTimes tp rt
      · exact .refl tp
    exact (timed.trans (negotiates_mssSizes _ rt offer)).trans (negotiates_mssWindows _ rt _)

section

variable (syn : Bool) (route : Option Route)

include syn route

theorem negotiates_doOption (x : Tcpcb × Option (BitVec 32 × BitVec 32)) (o : Opt) :
    Negotiates x.1 (doOption syn route x o).1 := by
  cases o with
  | maxseg mss =>
    rw [doOption]
    split
    · exact negotiates_tcpMss x.1 _ route
    · exact .refl x.1
  | window shift | timestamp val ecr =>
    rw [doOption]
    split
    · exact ⟨⟨_, _, _, _, _, _, _, _, _, _, _, _, _, _⟩, rfl, id⟩
    · exact .refl x.1

theorem negotiates_foldl (opts : List Opt) (x : Tcpcb × Option (BitVec 32 × BitVec 32)) :
    Negotiates x.1 (opts.foldl (doOption syn route) x).1 := by
  induction opts generalizing x with
  | nil => exact .refl x.1
  | cons o opts ih => exact (negotiates_doOption syn route x o).trans (ih _)

/-- **The options** change the terms only. -/
theorem negotiates_tcpDooptions (opts : List Opt) :
    Negotiates tp (tcpDooptions tp syn route opts).1 :=
  negotiates_foldl syn route opts (tp, none)

end

/-! ## Round-trip times -/

/-- Nothing is changed but the estimate of the round-trip time, with what is computed from
it; the shift is left or reset. -/
def Times (tp tp' : Tcpcb) : Prop :=
  ∃ rtt srtt rttvar rxtshift rxtcur softerror,
    (rxtshift = tp.rxtshift ∨ rxtshift = 0) ∧
    (rxtcur = tp.rxtcur ∨ ∃ value, rxtcur = rangeset value tp.rttmin TCPTV_REXMTMAX) ∧
    tp' = { tp with
      rtt := rtt, srtt := srtt, rttvar := rttvar, rxtshift := rxtshift, rxtcur := rxtcur
      softerror := softerror }

theorem Times.refl : Times tp tp := ⟨_, _, _, _, _, _, .inl rfl, .inl rfl, rfl⟩

theorem times_tcpXmitTimer (rtt : ℤ) : Times tp (tcpXmitTimer tp rtt) := by
  unfold tcpXmitTimer Tcpcb.measure
  split
  · exact ⟨_, _, _, _, _, _, .inr rfl, .inr ⟨_, rfl⟩, rfl⟩
  · exact ⟨_, _, _, _, _, _, .inr rfl, .inr ⟨_, rfl⟩, rfl⟩

theorem times_timeAck : Times tp (tp.timeAck s) := by
  unfold Tcpcb.timeAck
  split
  · exact times_tcpXmitTimer tp _
  · split
    · exact times_tcpXmitTimer tp _
    · exact .refl tp

end BSDLite2.Tcp
