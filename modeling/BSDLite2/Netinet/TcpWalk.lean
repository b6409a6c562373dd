import BSDLite2.Lib.Outcome
import BSDLite2.Netinet.TcpSndSide

/-!
# Walking through the events

Some properties of a connection depend on few of its fields: on the timers for sending, on
what has been offered to the peer, or on the segment size.  `Kept` lists the changes of these
fields that the code makes, and says that a property bears them.  Such a property is kept by
`tcp_output` (`KeptByOutput.outputs`), by `tcp_input` (`Kept.input`) and by every other event
(`Kept.outcome`), so that all connections have it (`Kept.reached`); or only those that find
themselves in a certain `World`, of routes and of limits set by the user (`Kept.run`).
-/

namespace BSDLite2.Tcp

open Outcome Serial

/-! ## The world around a connection -/

/-- What a connection may find around it: routes, and limits that the user sets for the send
buffer. -/
structure World where
  route : Route → Prop
  sndbuf : ℕ → Prop

/-- Any routes and any limits. -/
def World.any : World := ⟨fun _ => True, fun _ => True⟩

/-- A route of this world, if there is any. -/
def World.Found (w : World) (route : Option Route) : Prop := ∀ rt, route = some rt → w.route rt

/-- All turns find routes of this world. -/
def World.Turns (w : World) (ts : List Turn) : Prop := ∀ t ∈ ts, w.Found t.route

/-- An event in this world. -/
def Event.Within (w : World) : Event → Prop
  | .input _ env ts => w.Found env.route ∧ w.Turns ts
  | .connect _ ts | .send _ ts | .sendoob _ _ ts | .rcvd _ _ _ ts | .shutdown ts | .disconnect ts
  | .detach ts | .abort ts | .fasttimo ts => w.Turns ts
  | .slowtimo k => w.Turns k.rexmt ∧ w.Turns k.persist ∧ w.Turns k.keep
  | .setSndHiwat n => w.sndbuf n
  | _ => True

/-- What the state requires of an event, as far as it matters here. -/
def Event.Heeds (tp : Tcpcb) : Event → Prop
  | .connect _ _ => tp.tState = .closed ∧ tp.gone = false
  | .setMaxseg n => 0 < n ∧ n ≤ tp.maxseg
  | .setSndHiwat n => n ≤ SB_MAX
  | _ => True

theorem heeds_of_allowed {tp : Tcpcb} {e : Event} (h : e.allowed tp) (hthere : tp.gone = false) :
    e.Heeds tp := by
  cases e with
  | connect iss ts => exact ⟨of_decide_eq_true h, hthere⟩
  | setMaxseg n | setSndHiwat n =>
    simp only [Event.allowed, Bool.and_eq_true, decide_eq_true_eq] at h
    exact h
  | _ => trivial

variable (tp : Tcpcb) (route : Option Route)

theorem found_any : World.any.Found route := fun _ _ => trivial

theorem turns_any (ts : List Turn) : World.any.Turns ts := fun t _ => found_any t.route

theorem within_any (e : Event) : e.Within .any := by
  cases e with
  | input a env ts => exact ⟨found_any _, turns_any ts⟩
  | slowtimo k => exact ⟨turns_any _, turns_any _, turns_any _⟩
  | connect _ ts | send _ ts | sendoob _ _ ts | rcvd _ _ _ ts | shutdown ts | disconnect ts
  | detach ts | abort ts | fasttimo ts => exact turns_any ts
  | _ => trivial

/-! ## The core -/

variable (E : Panic → Prop)

/-- The fields that such properties depend on. -/
structure Core where
  tState : TState
  template : Bool
  gone : Bool
  rexmt : ℤ
  persist : ℤ
  rxtshift : ℤ
  returned : List Timers
  maxseg : ℕ
  sndHiwat : ℕ
  rcvAdv : BitVec 32
  rcvScale : Fin (TCP_MAX_WINSHIFT + 1)
  sent : List Sent

/-- The core of a connection. -/
def Tcpcb.core (tp : Tcpcb) : Core where
  tState := tp.tState
  template := tp.template
  gone := tp.gone
  rexmt := tp.rexmt
  persist := tp.persist
  rxtshift := tp.rxtshift
  returned := tp.returned
  maxseg := tp.maxseg
  sndHiwat := tp.sndHiwat
  rcvAdv := tp.rcvAdv
  rcvScale := tp.rcvScale
  sent := tp.sent

/-- The core of a send side. -/
def OutSide.core (v : OutSide) : Core where
  tState := v.tState
  template := v.template
  gone := v.gone
  rexmt := v.rexmt
  persist := v.persist
  rxtshift := v.rxtshift
  returned := v.returned
  maxseg := v.maxseg
  sndHiwat := v.sndHiwat
  rcvAdv := v.rcvAdv
  rcvScale := v.rcvScale
  sent := v.sent

theorem core_of_outSide {tp tp' : Tcpcb} (h : tp'.outSide = tp.outSide) : tp'.core = tp.core :=
  congrArg OutSide.core h

/-! ## What does not change the core -/

theorem tState_prepareSyn (flags : BitVec 8) (route : Option Route) :
    (tp.prepareSyn flags route).tState = tp.tState := by
  obtain ⟨t, ht, -⟩ := negotiates_tcpMss { tp with sndNxt := tp.iss } 0 route
  unfold Tcpcb.prepareSyn
  split_ifs
  · rfl
  · rw [ht]
    rfl
  · rfl

theorem core_refin (flags : BitVec 8) : (tp.refin flags).core = tp.core := by
  unfold Tcpcb.refin
  split <;> rfl

theorem core_fail (e : IpError) : (tp.fail e).1.core = tp.core := by
  cases e with
  | enobufs => rfl
  | unreach =>
    rw [Tcpcb.fail]
    split <;> rfl
  | other => rfl

theorem core_slowStart : tp.slowStart.core = tp.core := by
  unfold Tcpcb.slowStart
  split <;> rfl

theorem core_dropAcked (s : Seg) : (tp.dropAcked s).core = tp.core := by
  unfold Tcpcb.dropAcked
  split <;> rfl

theorem core_pullNxt : tp.pullNxt.core = tp.core := by
  unfold Tcpcb.pullNxt
  split <;> rfl

theorem core_synSentAck (s : Seg) : (tp.synSentAck s).core = tp.core := by
  unfold Tcpcb.synSentAck
  split
  · exact core_pullNxt _
  · rfl

theorem core_receiveFin : tp.receiveFin.core = tp.core := by
  unfold Tcpcb.receiveFin
  split <;> rfl

theorem core_age : tp.age.core = tp.core := by
  unfold Tcpcb.age
  split <;> rfl

theorem core_pruRcvoob (peek : Bool) : (pruRcvoob tp peek).core = tp.core := by
  unfold pruRcvoob
  split <;> rfl

theorem tState_retreat : tp.retreat.tState = tp.tState := by
  have hunpersist : tp.unpersist.tState = tp.tState := by
    unfold Tcpcb.unpersist
    split <;> rfl
  unfold Tcpcb.retreat
  split
  · exact hunpersist
  · exact hunpersist

theorem syn_of_core {tp tp' : Tcpcb} (h : tp'.core = tp.core) :
    tp'.tState.sendsSyn = tp.tState.sendsSyn :=
  congrArg (fun c : Core => c.tState.sendsSyn) h

/-! ## The options in `LISTEN` -/

/-- The connection of a socket that listens, when a SYN comes. -/
def Tcpcb.meet (tp : Tcpcb) (scale : Fin (TCP_MAX_WINSHIFT + 1)) (wnd : BitVec 32) : Tcpcb :=
  { tp.wake with requestRScale := scale, template := true, rcvWnd := wnd }

section Meet

variable (tp : Tcpcb) (n : Fin (TCP_MAX_WINSHIFT + 1)) (wnd : BitVec 32)

theorem mssSnd_meet (rt : Route) (mss : BitVec 32) :
    (tp.meet n wnd).mssSnd rt mss = ((tp.mssSnd rt mss).1.meet n wnd, (tp.mssSnd rt mss).2) := by
  have hsnd : (tp.meet n wnd).sndHiwat = tp.sndHiwat := rfl
  rw [Tcpcb.mssSnd, Tcpcb.mssSnd, hsnd]
  split_ifs <;> rfl

theorem mssRcv_meet (rt : Route) (mss : BitVec 32) :
    (tp.meet n wnd).mssRcv rt mss = (tp.mssRcv rt mss).meet n wnd := by
  have hrcv : (tp.meet n wnd).rcvHiwat = tp.rcvHiwat := rfl
  rw [Tcpcb.mssRcv, Tcpcb.mssRcv, hrcv]
  split_ifs <;> rfl

theorem mssSizes_meet (rt : Route) (offer : BitVec 32) :
    (tp.meet n wnd).mssSizes rt offer =
      ((tp.mssSizes rt offer).1.meet n wnd, (tp.mssSizes rt offer).2) := by
  have hseg : (tp.meet n wnd).maxseg = tp.maxseg := rfl
  rw [Tcpcb.mssSizes, Tcpcb.mssSizes, hseg, mssSnd_meet]
  split_ifs
  · rw [mssRcv_meet]
  · rfl

theorem tcpMss_meet (offer : BitVec 32) (route : Option Route) :
    tcpMss (tp.meet n wnd) offer route = (tcpMss tp offer route).meet n wnd := by
  cases route with
  | none => rfl
  | some rt =>
    have htimed : (if (tp.meet n wnd).srtt = 0 ∧ rt.rtt ≠ 0 then
        ((tp.meet n wnd).routeTimes rt).routeRxtcur else tp.meet n wnd) =
        (if tp.srtt = 0 ∧ rt.rtt ≠ 0 then (tp.routeTimes rt).routeRxtcur else tp).meet n wnd := by
      rw [apply_ite (Tcpcb.meet · n wnd)]
      rfl
    simp only [tcpMss, htimed, mssSizes_meet]
    rfl

theorem doOption_meet (syn : Bool) (route : Option Route) (ts : Option (BitVec 32 × BitVec 32))
    (o : Opt) : doOption syn route (tp.meet n wnd, ts) o =
      ((doOption syn route (tp, ts) o).1.meet n wnd, (doOption syn route (tp, ts) o).2) := by
  cases o with
  | maxseg mss =>
    simp only [doOption, tcpMss_meet]
    split <;> rfl
  | window shift =>
    simp only [doOption]
    split <;> rfl
  | timestamp val ecr =>
    simp only [doOption]
    split <;> rfl

/-- The options are the same for it. -/
theorem dooptions_meet (syn : Bool) (route : Option Route) (opts : List Opt) :
    tcpDooptions (tp.meet n wnd) syn route opts =
      ((tcpDooptions tp syn route opts).1.meet n wnd, (tcpDooptions tp syn route opts).2) := by
  unfold tcpDooptions
  generalize none = ts
  induction opts generalizing tp ts with
  | nil => rfl
  | cons o opts ih =>
    rw [List.foldl_cons, doOption_meet, ih]
    rfl

end Meet

theorem tState_dooptions (syn : Bool) (route : Option Route) (opts : List Opt) :
    (tcpDooptions tp syn route opts).1.tState = tp.tState := by
  obtain ⟨t, ht, -⟩ := negotiates_tcpDooptions tp syn route opts
  rw [ht]
  rfl

/-! ## `tcp_output` -/

/-- The panics as failures. -/
def orStarved : Fail → Prop
  | .starved => True
  | .panic p => E p

theorem Ends.orPanic {α : Type} {E : Panic → Prop} {P : α → Prop} {x : Except Panic α}
    (h : Ends E P x) : Ends (orStarved E) P (orPanic x) := by
  cases x with
  | ok a => exact h
  | error p => exact h

/-- **A property that `tcp_output` keeps**, but for the panics in `E`: it depends on the core,
and bears what `tcp_output` changes of it. -/
structure KeptByOutput (w : World) (E : Panic → Prop) (P : Tcpcb → Prop) : Prop where
  panics : ∀ p, p ≠ .rexmt → E p
  frame : ∀ {tp tp' : Tcpcb}, P tp → tp'.core = tp.core → P tp'
  returns : ∀ {tp : Tcpcb}, P tp → P tp.returns
  mss : ∀ {tp : Tcpcb}, P tp → ∀ (offer : BitVec 16) {route : Option Route}, w.Found route →
    P (tcpMss tp (offer.zeroExtend 32) route)
  retreat : ∀ {tp : Tcpcb}, P tp → P tp.retreat
  rest : ∀ {tp : Tcpcb}, P tp → Ends E P tp.rest
  /-- a segment that `ip_output` does not take -/
  noted : ∀ {tp : Tcpcb} {p : Plan}, P tp → tp.template = true →
    has p.flags TH_SYN = tp.tState.sendsSyn → ∀ win data, P (tp.noted p win data false)
  /-- a segment that is sent -/
  handed : ∀ {tp : Tcpcb} {p : Plan}, P tp → tp.template = true →
    has p.flags TH_SYN = tp.tState.sendsSyn →
    ∀ win data, P ((tp.noted p win data true).sentOk (tp.offer win))

namespace KeptByOutput

variable {w : World} {E : Panic → Prop} {P : Tcpcb → Prop} {tp : Tcpcb} {p : Plan}
  (k : KeptByOutput w E P)

include k

theorem hand (h : P tp) (htemplate : tp.template = true)
    (hsyn : has p.flags TH_SYN = tp.tState.sendsSyn) (win : ℤ) (data : List (BitVec 8))
    (ip : Option IpError) : P (tp.hand p win data ip).1 := by
  cases ip with
  | none => exact k.handed h htemplate hsyn win data
  | some e => exact k.frame (k.noted h htemplate hsyn win data) (core_fail _ e)

theorem build (h : P tp) (hsyn : has p.flags TH_SYN = tp.tState.sendsSyn) (win : ℤ) (t : Turn) :
    Ends E (fun r => P r.1) (tp.build p win t) := by
  have hrefin := core_refin tp p.flags
  unfold Tcpcb.build
  split
  · exact k.frame h (core_fail tp _)
  · split
    · exact k.panics _ (by decide)
    · split
      · exact k.panics _ (by decide)
      · next htemplate =>
          rw [Bool.not_eq_true', Bool.not_eq_false] at htemplate
          have hsame : (tp.refin p.flags).template = tp.template := congrArg Core.template hrefin
          exact k.hand (k.frame h hrefin) (hsame.trans htemplate)
            (hsyn.trans (syn_of_core hrefin).symm) win _ t.ip

theorem prepareSyn (h : P tp) (flags : BitVec 8) {route : Option Route} (hroute : w.Found route) :
    P (tp.prepareSyn flags route) := by
  unfold Tcpcb.prepareSyn
  split_ifs
  · exact k.frame h rfl
  · have hiss : P { tp with sndNxt := tp.iss } := k.frame h rfl
    exact k.mss hiss 0 hroute
  · exact h

theorem transmit (h : P tp) (hsyn : has p.flags TH_SYN = tp.tState.sendsSyn) (win : ℤ) {t : Turn}
    (hroute : w.Found t.route) : Ends E (fun r => P r.1) (tp.transmit p win t) := by
  refine k.build (k.prepareSyn h p.flags hroute) ?_ win t
  rw [has_fit_syn, hsyn, tState_prepareSyn]

theorem turn (h : P tp) (idle : Bool) {t : Turn} (hroute : w.Found t.route) :
    Ends E (fun r => P r.1) (outputTurn idle tp t) := by
  unfold outputTurn
  split
  · refine k.transmit (k.retreat h) ?_ _ hroute
    rw [has_plan_syn, tState_retreat]
  · exact (k.rest (k.retreat h)).map fun _ => id

variable {ts : List Turn}

theorem loop (idle : Bool) (hts : w.Turns ts) (h : P tp) :
    Ends (orStarved E) (fun r => P r.1) (outputLoop idle ts tp) := by
  induction ts generalizing tp with
  | nil => trivial
  | cons t ts ih =>
    obtain ⟨ht, hts⟩ := List.forall_mem_cons.mp hts
    refine (Ends.orPanic (k.turn h idle ht)).bind ?_
    rintro ⟨tp', next⟩ h'
    cases next with
    | again => exact ih hts h'
    | stop e => exact h'

/-- **`tcp_output`.** -/
theorem outputs (h : P tp) (hts : w.Turns ts) : Ends (orStarved E) P (outputs tp ts) := by
  have hloop := k.loop tp.isIdle hts (k.frame h (core_slowStart tp))
  have hout : Ends (orStarved E) (fun r => P r.1) (tcpOutput tp ts) :=
    hloop.map fun _ hr => k.returns hr
  exact hout.map fun _ => id

theorem forceOutput (h : P tp) (hts : w.Turns ts) : Ends (orStarved E) P (forceOutput tp ts) := by
  have hforce : P { tp with force := true } := k.frame h rfl
  exact (k.outputs hforce hts).map fun _ h' => k.frame h' rfl

theorem outputUnlessGone (h : P tp) (hts : w.Turns ts) :
    Ends (orStarved E) P (outputUnlessGone tp ts) := by
  unfold Tcp.outputUnlessGone
  split
  · exact h
  · exact k.outputs h hts

end KeptByOutput

/-! ## Everything else -/

/-- **A property that every event keeps.** -/
structure Kept (w : World) (E : Panic → Prop) (P : Tcpcb → Prop) : Prop
    extends KeptByOutput w E P where
  /-- an acknowledgement -/
  unshift : ∀ {tp : Tcpcb}, P tp → P { tp with rxtshift := 0 }
  restart : ∀ {tp : Tcpcb}, P tp → ∀ all, P (tp.restartRexmt all)
  stop : ∀ {tp : Tcpcb}, P tp → P { tp with rexmt := 0 }
  cancel : ∀ {tp : Tcpcb}, P tp → P { tp with rexmt := 0, persist := 0 }
  /-- the connection is opened -/
  connect : ∀ {tp : Tcpcb}, P tp → tp.tState = .closed → tp.gone = false →
    P { tp with tState := .synSent, template := true }
  listen : ∀ {tp : Tcpcb}, P tp → tp.tState = .listen → ∀ adv,
    P { tp with tState := .synReceived, template := true, rcvAdv := adv }
  rcvseqinit : ∀ {tp : Tcpcb}, P tp → tp.tState.sendsSyn → ∀ adv, P { tp with rcvAdv := adv }
  received : ∀ {tp : Tcpcb}, P tp → tp.tState.sendsSyn → P { tp with tState := .synReceived }
  scale : ∀ {tp : Tcpcb}, P tp → tp.tState.sendsSyn → ∀ n, P { tp with rcvScale := n }
  /-- it is established, or the state is a later one -/
  state : ∀ {tp : Tcpcb}, P tp → ∀ st : TState, TState.established.num ≤ st.num →
    P { tp with tState := st }
  /-- what `tcp_respond` sends -/
  reset : ∀ {tp : Tcpcb}, P tp → ∀ x : Sent, x.via = .reset → P (tp.log x)
  probe : ∀ {tp : Tcpcb}, P tp → TState.established.num ≤ tp.tState.num → ∀ win ok,
    P (tp.log (tp.probe win ok))
  /-- the end -/
  close : ∀ {tp : Tcpcb}, P tp → ∀ st : TState, st = tp.tState ∨ st = .closed →
    P { tp with tState := st, template := false, gone := true }
  drop : ∀ {tp : Tcpcb}, P tp → ∀ {ts}, w.Turns ts →
    Ends (orStarved E) (fun tp' => P { tp' with template := false, gone := true })
      (outputs { tp with tState := .closed } ts)
  /-- the user -/
  setMaxseg : ∀ {tp : Tcpcb}, P tp → ∀ {n : ℕ}, 0 < n → n ≤ tp.maxseg → P { tp with maxseg := n }
  setSndHiwat : ∀ {tp : Tcpcb}, P tp → ∀ {n : ℕ}, w.sndbuf n → n ≤ SB_MAX →
    P { tp with sndHiwat := n }
  /-- the timers -/
  tickRexmt : ∀ {tp : Tcpcb}, P tp → tp.rexmt ≠ 0 → ∀ n, P { tp with rexmt := n }
  backOff : ∀ {tp : Tcpcb}, P tp → tp.rexmt ≠ 0 → ¬ tp.rxtshift + 1 > TCP_MAXRXTSHIFT →
    ∀ n, P { tp with rexmt := n, rxtshift := tp.rxtshift + 1 }
  giveUp : ∀ {tp : Tcpcb}, P tp → tp.rexmt ≠ 0 →
    P { tp with rexmt := 0, rxtshift := TCP_MAXRXTSHIFT }
  tickPersist : ∀ {tp : Tcpcb}, P tp → tp.persist ≠ 0 → ∀ n, P { tp with persist := n }
  setpersist : ∀ {tp : Tcpcb}, P tp → tp.persist ≠ 0 →
    Ends E P (tcpSetpersist { tp with persist := 0 })

/-- What a stage may leave with. -/
def Leaving (P : Tcpcb → Prop) (e : Exit) (tp : Tcpcb) : Prop :=
  (P tp ∨ e = .close false ∧ P (tcpClose tp)) ∧ ∀ p, e = .panic p → E p

/-- The property holds after a stage. -/
def Stage.Bears (P : Tcpcb → Prop) (x : Stage) : Prop :=
  x.All (fun e tp' _ => Leaving E P e tp') fun tp' _ => P tp'

/-- A stage keeps a property. -/
def Keeps (P : Tcpcb → Prop) (f : Tcpcb → Seg → Stage) : Prop :=
  ∀ tp s, P tp → (f tp s).Bears E P

theorem Keeps.andThen {E : Panic → Prop} {P : Tcpcb → Prop} {f g : Tcpcb → Seg → Stage}
    (hf : Keeps E P f) (hg : Keeps E P g) : Keeps E P fun tp s => (f tp s).andThen g :=
  fun tp s h => (hf tp s h).andThen hg

namespace Kept

variable {w : World} {E : Panic → Prop} {P : Tcpcb → Prop} {tp tp' : Tcpcb} {s : Seg}

variable {N : Tcpcb → Seg → Prop}

/-! ## `tcp_input` -/

theorem leaving (h : P tp) {e : Exit} (he : ∀ p, e ≠ .panic p) :
    (Stage.leave e tp s).All (fun e tp' _ => Leaving E P e tp') N :=
  ⟨.inl h, fun p hp => absurd hp (he p)⟩

variable (k : Kept w E P)

include k

theorem tcpClose (h : P tp) : P (tcpClose tp) :=
  k.frame (k.close h tp.tState (.inl rfl)) rfl

theorem times (h : P tp) (t : Times tp tp') : P tp' := by
  obtain ⟨rtt, srtt, rttvar, rxtshift, rxtcur, softerror, hshift, -, rfl⟩ := t
  rcases hshift with rfl | rfl
  · exact k.frame h rfl
  · exact k.frame (k.unshift h) rfl

theorem quiet {f : Tcpcb → Seg → Stage} (q : Quiet f) : Keeps E P f := by
  intro tp s h
  refine (q tp s).mono ?_ fun tp' s' side => k.frame h (core_of_outSide side.1)
  rintro e tp' s' ⟨side, -, hquiet⟩
  refine ⟨?_, ?_⟩
  · rcases side with side | ⟨he, side⟩
    · exact .inl (k.frame h (core_of_outSide side))
    · refine .inr ⟨he, k.frame (k.close h .closed (.inr rfl)) ?_⟩
      exact congrArg (fun v : OutSide => { v.core with template := false, gone := true }) side
  · rintro p rfl
    refine k.panics p ?_
    rintro rfl
    cases hquiet

theorem doOption {x : Tcpcb × Option (BitVec 32 × BitVec 32)} (h : P x.1) (syn : Bool)
    {route : Option Route} (hroute : w.Found route) (o : Opt) : P (doOption syn route x o).1 := by
  cases o with
  | maxseg mss =>
    rw [Tcp.doOption]
    split
    · exact k.mss h mss hroute
    · exact h
  | window shift | timestamp val ecr =>
    rw [Tcp.doOption]
    split
    · exact k.frame h rfl
    · exact h

/-- **The options.** -/
theorem dooptions (h : P tp) (syn : Bool) {route : Option Route} (hroute : w.Found route)
    (opts : List Opt) : P (tcpDooptions tp syn route opts).1 := by
  unfold tcpDooptions
  generalize hx : (tp, none) = x
  replace h : P x.1 := hx ▸ h
  clear hx
  induction opts generalizing x with
  | nil => exact h
  | cons o opts ih => exact ih _ (k.doOption h syn hroute o)

theorem fastAck (h : P tp) (s : Seg) : (fastAck tp s).All (fun e tp' _ => Leaving E P e tp') N := by
  have htimed := k.times h (times_timeAck tp s)
  unfold Tcp.fastAck
  split
  · refine ⟨.inl htimed, fun p hp => ?_⟩
    cases hp
    exact k.panics _ (by decide)
  · refine leaving (k.restart ?_ _) (by simp)
    exact k.frame htimed rfl

theorem predict (h : P tp) (s : Seg) (mb : ℤ) :
    (predict tp s mb).All (fun e tp' _ => Leaving E P e tp')
      fun tp' _ => P tp' ∧ tp'.tState = tp.tState := by
  have hside := outSide_stamp tp s 0
  have hstamp : P (tp.stamp s 0) := k.frame h (core_of_outSide hside)
  unfold Tcp.predict
  split_ifs
  · exact k.fastAck hstamp s
  · refine leaving ?_ (by simp)
    exact k.frame hstamp rfl
  · exact ⟨hstamp, congrArg (fun v : OutSide => v.tState) hside⟩
  · exact ⟨h, rfl⟩

theorem establish (h : P tp) (hsyn : tp.tState.sendsSyn) : P tp.establish := by
  have hstate {tp : Tcpcb} (h : P tp) : P { tp with tState := .established } :=
    k.state h _ (by decide)
  have hscales : P ({ tp with tState := .established } : Tcpcb).setScales := by
    unfold Tcpcb.setScales
    split
    · exact k.frame (hstate (k.scale h hsyn tp.requestRScale)) rfl
    · exact hstate h
  exact k.frame hscales (core_of_outSide (outSide_presentQueue _))

theorem synRcvdStage : Keeps E P synRcvdStage := by
  intro tp s h
  unfold Tcp.synRcvdStage
  split_ifs with hstate
  · exact leaving h (by simp)
  · refine k.frame (k.establish h ?_) rfl
    rw [hstate]
    rfl
  · exact h

theorem dupAckStage : Keeps E P dupAckStage := by
  intro tp s h
  unfold Tcp.dupAckStage
  split_ifs
  · exact k.frame h rfl
  · refine leaving ?_ (by simp)
    exact k.frame (k.stop h) rfl
  · refine leaving ?_ (by simp)
    exact k.frame h rfl
  · exact k.frame h rfl
  · exact k.frame h rfl

theorem ackNew (h : P tp) (s : Seg) : P (tp.ackNew s) := by
  have hrestart := k.restart (k.times h (times_timeAck tp s)) (decide (s.tiAck = tp.sndMax))
  refine k.frame hrestart ((core_pullNxt _).trans ?_)
  exact core_dropAcked _ s

theorem closingStage (ourfinisacked : Bool) : Keeps E P (closingStage ourfinisacked) := by
  intro tp s h
  have hwait2 : P { tp with tState := .finWait2 } := k.state h _ (by decide)
  unfold Tcp.closingStage
  split
  · split_ifs
    · exact k.frame hwait2 rfl
    · exact k.frame hwait2 rfl
    · exact h
  · split_ifs
    · exact k.frame (k.cancel (k.state h .timeWait (by decide))) rfl
    · exact h
  · split_ifs
    · refine leaving ?_ (by simp)
      exact k.frame h rfl
    · exact h
  · refine leaving ?_ (by simp)
    exact k.frame h rfl
  · exact h

theorem newAckStage : Keeps E P newAckStage := by
  intro tp s h
  unfold Tcp.newAckStage
  split
  · exact leaving h (by simp)
  · exact k.closingStage _ _ _ (k.ackNew h s)

theorem ackStage : Keeps E P ackStage := by
  intro tp s h
  unfold Tcp.ackStage
  split
  · exact k.dupAckStage tp s h
  · exact k.newAckStage _ s (k.frame h rfl)

theorem finState (h : P tp) : P tp.finState := by
  unfold Tcpcb.finState
  split
  · exact k.state h .closeWait (by decide)
  · exact k.state h .closeWait (by decide)
  · exact k.state h .closing (by decide)
  · exact k.frame (k.cancel (k.state h .timeWait (by decide))) rfl
  · exact k.frame h rfl
  · exact h

theorem finStage : Keeps E P finStage := by
  intro tp s h
  unfold Tcp.finStage
  split
  · exact leaving (k.finState (k.frame h (core_receiveFin tp))) (by simp)
  · exact leaving h (by simp)

theorem step6 : Keeps E P step6 :=
  (((k.quiet quiet_windowStage).andThen (k.quiet quiet_urgentStage)).andThen
    (k.quiet quiet_textStage)).andThen k.finStage

theorem trims : Keeps E P trims :=
  (((k.quiet quiet_pawsStage).andThen (k.quiet quiet_frontStage)).andThen
    (k.quiet quiet_goneStage)).andThen (k.quiet quiet_tailStage)

theorem established : Keeps E P established :=
  ((((k.trims.andThen (k.quiet quiet_stampStage)).andThen (k.quiet quiet_controlStage)).andThen
    k.synRcvdStage).andThen k.ackStage).andThen k.step6

theorem trimthenstep6 : Keeps E P trimthenstep6 := by
  intro tp s h
  exact k.step6 _ _ (k.frame h rfl)

/-- The connection of a socket that listens takes its numbers. -/
theorem listenStage (iss : BitVec 32) (h : P tp) (hstate : tp.tState = .listen)
    (hcore : tp'.core = { tp.core with template := true }) (s : Seg) :
    (listenStage iss tp' s).Bears E P := by
  refine k.trimthenstep6 _ _ (k.frame (k.listen h hstate (s.tiSeq + 1)) ?_)
  exact congrArg (fun c : Core => { c with tState := .synReceived, rcvAdv := s.tiSeq + 1 }) hcore

theorem synSentOpen (h : P tp) (hsyn : tp.tState.sendsSyn) (s : Seg) : P (tp.synSentOpen s) := by
  unfold Tcpcb.synSentOpen
  split_ifs
  · exact k.times (k.establish h hsyn) (times_tcpXmitTimer _ _)
  · exact k.establish h hsyn
  · exact k.received h hsyn

theorem synSentStage (h : P tp) (hstate : tp.tState = .synSent) (s : Seg) :
    (synSentStage tp s).Bears E P := by
  have hsends : tp.tState.sendsSyn := by
    rw [hstate]
    rfl
  have hack := core_synSentAck tp s
  unfold Tcp.synSentStage
  split_ifs
  · exact leaving h (by simp)
  · exact leaving h (by simp)
  · exact leaving h (by simp)
  · exact leaving h (by simp)
  · have hsyn : P ((tp.synSentAck s).takeSyn s.tiSeq) := by
      refine k.frame (k.rcvseqinit (k.stop h) hsends (s.tiSeq + 1)) ?_
      exact congrArg (fun c : Core => { c with rexmt := 0, rcvAdv := s.tiSeq + 1 }) hack
    refine k.trimthenstep6 _ _ (k.synSentOpen hsyn ?_ s)
    have hsame : ((tp.synSentAck s).takeSyn s.tiSeq).tState = tp.tState := congrArg Core.tState hack
    exact hsame ▸ hsends

theorem general (env : Env) (h : P tp) (hstate : tp.tState ≠ .listen) (s : Seg) :
    (general env tp s).Bears E P := by
  have hwnd : P (tp.setRcvWnd env.mb) := k.frame h rfl
  unfold Tcp.general
  split
  · next hlisten => exact absurd hlisten hstate
  · next hsent => exact k.synSentStage hwnd hsent s
  · exact k.established _ _ hwnd

theorem process (env : Env) (h : P tp) (hstate : tp.tState ≠ .listen) (s : Seg) :
    (process env tp s).Bears E P :=
  (k.predict h s env.mb).andThen fun _ s' h' => k.general env h'.1 (h'.2 ▸ hstate) s'

/-- In `LISTEN` nothing is predicted. -/
theorem process_listen (env : Env) (h : P tp) (hstate : tp.tState = .listen)
    (hcore : tp'.core = { tp.core with template := true }) (s : Seg) :
    (Tcp.process env tp' s).Bears E P := by
  have hlisten : tp'.tState = .listen := (congrArg Core.tState hcore).trans hstate
  have hnext : Tcp.predict tp' s env.mb = .next tp' s := by
    rw [Tcp.predict]
    simp [predicts, hlisten]
  rw [Tcp.process, hnext, Stage.andThen, Tcp.general, hlisten]
  exact k.listenStage env.iss h hstate hcore s

/-! ## The labels -/

theorem resetUnless (h : P tp) (s : Seg) (win : ℤ) : P (resetUnless tp s win) := by
  unfold Tcp.resetUnless
  split
  · exact h
  · exact k.reset h _ rfl

variable {ts : List Turn}

theorem tcpDrop (h : P tp) (hts : w.Turns ts) : Ends (orStarved E) P (tcpDrop tp ts) := by
  unfold Tcp.tcpDrop
  split
  · exact (k.drop h hts).map fun _ h' => k.frame h' rfl
  · exact k.tcpClose h

theorem exit {e : Exit} (h : Leaving E P e tp) (mb : ℤ) (hts : w.Turns ts) (s : Seg) :
    Ends (orStarved E) P (e.run mb ts tp s) := by
  obtain ⟨hend, hpanic⟩ := h
  rcases hend with h | ⟨rfl, h⟩
  swap
  · exact h
  cases e with
  | drop => exact h
  | done => exact h
  | dropafterack =>
    rw [Exit.run]
    split
    · exact h
    · refine k.outputs ?_ hts
      exact k.frame h rfl
  | dropwithreset => exact k.resetUnless h s _
  | acked =>
    rw [Exit.run]
    split
    · exact k.outputs h hts
    · exact h
  | output =>
    rw [Exit.run]
    split
    · exact k.outputs h hts
    · exact h
  | retransmit onxt => exact (k.outputs h hts).map fun _ h' => k.frame h' rfl
  | inflate => exact k.outputs h hts
  | abort reset =>
    refine (k.tcpDrop h hts).map fun tp' h' => ?_
    split
    · exact k.resetUnless h' s 0
    · exact h'
  | close reset =>
    rw [Exit.run]
    split
    · exact k.resetUnless (k.tcpClose h) s 0
    · exact k.tcpClose h
  | panic p => exact hpanic p rfl

theorem run {x : Stage} (h : x.Bears E P) (mb : ℤ) (hts : w.Turns ts) :
    Ends (orStarved E) P (x.run mb ts) := by
  cases x with
  | next tp s => exact h
  | leave e tp s => exact k.exit h mb hts s

section

variable (h : P tp)

include h

/-- **`tcp_input`.** -/
theorem input (a : Arrival) {env : Env} (henv : w.Found env.route) (hts : w.Turns ts) :
    Ends (orStarved E) P (tcpInput tp a env ts) := by
  unfold tcpInput
  split_ifs with hclosed hlisten
  · exact h
  · exact h
  · exact k.tcpClose h
  · have hopts := k.dooptions h (has a.flags TH_SYN) henv a.opts
    have hstate := (tState_dooptions tp (has a.flags TH_SYN) env.route a.opts).trans hlisten
    refine k.run (k.process_listen env hopts hstate ?_ _) _ hts
    exact congrArg (fun x => x.1.core) (dooptions_meet tp _ _ _ env.route a.opts)
  · refine k.run (k.process env ?_ ?_ _) _ hts
    · refine k.dooptions ?_ _ henv a.opts
      exact k.frame h rfl
    · exact (tState_dooptions tp.wake _ _ _).trans_ne hlisten

/-! ## Timers -/

theorem timerRexmt (hrun : tp.rexmt ≠ 0) (hts : w.Turns ts) :
    Ends (orStarved E) P (timerRexmt { tp with rexmt := 0 } ts) := by
  unfold Tcp.timerRexmt
  split
  · exact k.tcpDrop (k.frame (k.giveUp h hrun) rfl) hts
  · next hshift =>
      refine k.outputs ?_ hts
      exact k.frame (k.backOff h hrun hshift _) rfl

theorem timerPersist (hrun : tp.persist ≠ 0) (hts : w.Turns ts) :
    Ends (orStarved E) P (timerPersist { tp with persist := 0 } ts) := by
  unfold Tcp.timerPersist
  split
  · exact k.tcpDrop (k.tickPersist h hrun 0) hts
  · exact (Ends.orPanic (k.setpersist h hrun)).bind fun _ h' => k.forceOutput h' hts

theorem timerKeep (probe : Probe) (hts : w.Turns ts) :
    Ends (orStarved E) P (timerKeep tp probe ts) := by
  unfold Tcp.timerKeep
  split_ifs with hopen
  · exact k.tcpDrop h hts
  · exact k.tcpDrop h hts
  · exact k.frame (k.probe h (not_lt.mp hopen) _ _) rfl
  · exact k.frame h rfl
  · exact k.frame h rfl

theorem timer2msl : P (timer2msl tp) := by
  unfold Tcp.timer2msl
  split
  · exact k.frame h rfl
  · exact k.tcpClose h

/-- A timer ticks. -/
theorem tick {timer : Tcpcb → ℤ} {set : Tcpcb → ℤ → Tcpcb} {expired : Tcpcb → Except Fail Tcpcb}
    (hset : timer tp ≠ 0 → ∀ n, P (set tp n))
    (hexp : timer tp ≠ 0 → Ends (orStarved E) P (expired (set tp 0))) :
    Ends (orStarved E) P (tick timer set expired tp) := by
  unfold Tcp.tick
  split_ifs with hstop hlast
  · exact h
  · exact (hexp fun h0 => hstop (.inr h0)).map fun _ h' => k.returns h'
  · exact hset (fun h0 => hstop (.inr h0)) _

theorem tickAll {t : Ticks} (hrexmt : w.Turns t.rexmt) (hpersist : w.Turns t.persist)
    (hkeep : w.Turns t.keep) : Ends (orStarved E) P (tickAll tp t) := by
  refine Ends.bind (k.tick h (k.tickRexmt h) (k.timerRexmt h · hrexmt)) fun tp h => ?_
  refine Ends.bind (k.tick h (k.tickPersist h) (k.timerPersist h · hpersist))
    fun tp h => ?_
  refine Ends.bind (k.tick h (fun _ _ => k.frame h rfl) fun _ => ?_) fun tp h => ?_
  · refine k.timerKeep ?_ t.probe hkeep
    exact k.frame h rfl
  refine Ends.bind (k.tick h (fun _ _ => k.frame h rfl) fun _ => ?_)
    fun tp h => k.frame h (core_age tp)
  refine k.timer2msl ?_
  exact k.frame h rfl

theorem slowtimo {t : Ticks} (ht : (Event.slowtimo t).Within w) :
    Ends (orStarved E) P (tcpSlowtimo tp t) := by
  refine Ends.map (P := P) ?_ fun _ h' => k.frame h' rfl
  split
  · exact h
  · exact k.tickAll h ht.1 ht.2.1 ht.2.2

/-! ## Requests and events -/

theorem usrclosed : P (tcpUsrclosed tp) := by
  have hstate : P tp.closeState := by
    unfold Tcpcb.closeState
    split
    · exact k.frame (k.close h .closed (.inr rfl)) rfl
    · exact k.frame (k.close h .closed (.inr rfl)) rfl
    · exact k.frame (k.close h .closed (.inr rfl)) rfl
    · exact k.state h .finWait1 (by decide)
    · exact k.state h .finWait1 (by decide)
    · exact k.state h .lastAck (by decide)
    · exact h
  unfold tcpUsrclosed
  split
  · exact k.frame hstate rfl
  · exact hstate

theorem disconnect (hts : w.Turns ts) : Ends (orStarved E) P (tcpDisconnect tp ts) := by
  unfold tcpDisconnect
  split_ifs
  · exact k.tcpClose h
  · exact k.tcpDrop h hts
  · refine k.outputUnlessGone (k.usrclosed ?_) hts
    exact k.frame h rfl

theorem detach (hts : w.Turns ts) : Ends (orStarved E) P (pruDetach tp ts) := by
  refine Ends.map (P := P) ?_ fun _ h' => k.frame h' rfl
  split
  · exact k.disconnect h hts
  · exact k.tcpClose h

theorem sendoob (m : List (BitVec 8)) (space : ℤ) (hts : w.Turns ts) :
    Ends (orStarved E) P (pruSendoob tp m space ts) := by
  unfold pruSendoob
  split
  · exact h
  · refine k.forceOutput ?_ hts
    exact k.frame h rfl

theorem fasttimo (hts : w.Turns ts) : Ends (orStarved E) P (tcpFasttimo tp ts) := by
  unfold tcpFasttimo
  split
  · refine k.outputs ?_ hts
    exact k.frame h rfl
  · exact h

theorem act {e : Event} (he : e.Within w) (hheeds : e.Heeds tp) :
    Ends (orStarved E) P (e.act tp) := by
  cases e with
  | input a env ts => exact k.input h a he.1 he.2
  | connect iss ts =>
    refine k.outputs ?_ he
    exact k.frame (k.connect h hheeds.1 hheeds.2) rfl
  | send m ts =>
    refine k.outputs ?_ he
    exact k.frame h rfl
  | sendoob m space ts => exact k.sendoob h m space he
  | rcvd n mark atMark ts =>
    refine k.outputs ?_ he
    exact k.frame h rfl
  | rcvoob peek => exact k.frame h (core_pruRcvoob tp peek)
  | shutdown ts =>
    refine k.outputUnlessGone (k.usrclosed ?_) he
    exact k.frame h rfl
  | disconnect ts => exact k.disconnect h he
  | detach ts => exact k.detach h he
  | abort ts => exact k.tcpDrop h he
  | slowtimo t => exact k.slowtimo h he
  | fasttimo ts => exact k.fasttimo h he
  | setMaxseg n => exact k.setMaxseg h hheeds.1 hheeds.2
  | setSndHiwat n => exact k.setSndHiwat h he hheeds
  | sorflush | accept | quench | notify _ | setNodelay _ | setOptions _ _ _ | setRcvHiwat _ =>
    exact k.frame h rfl

/-- **Every event** keeps the property. -/
theorem outcome {e : Event} (he : e.Within w) (hheeds : e.Heeds tp) :
    Ends (orStarved E) P (e.outcome tp) :=
  (k.act h he hheeds).map fun _ h' => k.returns h'

end

theorem step {e : Event} (he : e.Within w) (h : P tp) (hstep : step tp e = some tp') : P tp' := by
  unfold Tcp.step at hstep
  split at hstep
  · cases hstep
  · next hcan =>
      rw [not_or, Bool.not_eq_true', Bool.not_eq_false] at hcan
      have hout := k.outcome h he (heeds_of_allowed hcan.2 (Bool.eq_false_of_not_eq_true hcan.1))
      cases hend : e.outcome tp with (rw [hend] at hstep; cases hstep)
      | ok t => exact hout.ok hend

/-- **Every run in this world** keeps the property. -/
theorem along {start : Tcpcb} {events : List Event} (hstart : P start)
    (hwithin : Schedule.Along Tcp.step (fun _ e => e.Within w) start events)
    (hrun : Schedule.run Tcp.step start events = some tp) : P tp :=
  Schedule.run_invariant (fun _ _ _ h he => k.step he h) hstart hwithin hrun

omit k in
/-- **Every connection** has a property that all have at their beginning. -/
theorem reached (k : Kept .any E P) (hstart : ∀ start, Started start → P start) (h : Reached tp) :
    P tp := by
  obtain ⟨start, events, hbegin, hrun⟩ := h
  exact Schedule.run_invariant (G := fun _ _ => True) (fun _ e _ h _ => k.step (within_any e) h)
    (hstart start hbegin) (Schedule.along_true _ _) hrun

end Kept

end BSDLite2.Tcp
