import BSDLite2.Netinet.TcpActs
import BSDLite2.Netinet.TcpTimers

/-!
# Every event consists of acts

The functions of a connection, one after the other, as acts on its send side: the stages of
`tcp_input`, its labels, the timers and the requests of the user.

A stage of `tcp_input` goes on or leaves by one of several labels, and what the send side may have
become is another thing for each of them (`Leaves`).  `Moves` says that from steady connections in
some states the stage leads, by acts, to steady ones in others, and stages are composed by that
alone (`Moves.andThen`).  Every invariant of the send side then follows from one lemma for each kind
of act (`run_acts`), and none has to look at the code again.

* `Steady` — a connection in the course of `tcp_input`;
* `Moves` — a stage that goes from steady to steady by acts;
* `Settled` — a connection between two events;
* `outcome_acts` — an event leads from settled to settled by acts;
* `run_acts` — the invariant rule: what every act keeps holds after every run.
-/

namespace BSDLite2.Tcp

open Mbuf Serial Outcome

variable {F : Faults} {x : SndSide} {st : TState}

/-! ## Acknowledgements -/

variable {v : SndSide}

/-- The number of an acknowledgement that is new and does not exceed `snd_max`. -/
theorem ack_le (h : SndInv v) {ack : BitVec 32} (hnew : 0 < dist ack v.sndUna)
    (hle : dist ack v.sndMax ≤ 0) : dist ack v.sndUna ≤ dist v.sndMax v.sndUna := by
  have hsmall := h.small.1
  have hmax := h.una_le
  have hhi : 2 * dist ack v.sndUna < 2 ^ 32 := by
    have := BitVec.two_mul_toInt_lt (x := ack - v.sndUna)
    exact this
  have hdist : dist ack v.sndMax = dist ack v.sndUna - dist v.sndMax v.sndUna := by
    conv_lhs => rw [← pos_dist ack v.sndUna, ← pos_dist v.sndMax v.sndUna]
    exact dist_pos_pos _ (by omega) (by omega)
  omega

/-- `snd_nxt` is pulled along if it would be left behind. -/
theorem sndNxt_pulled (h : SndInv v) {ack : BitVec 32} (hnew : 0 ≤ dist ack v.sndUna)
    (hle : dist ack v.sndUna ≤ dist v.sndMax v.sndUna) {n : BitVec 32}
    (hn : n = if seqLT v.sndNxt ack then ack else v.sndNxt) :
    n = v.sndNxt ∧ dist ack v.sndUna ≤ dist v.sndNxt v.sndUna ∨ n = ack := by
  have hsmall := h.small.1
  have hlo := h.nxt_nonneg
  have hhi := h.nxt_le
  have hback : dist v.sndNxt ack = dist v.sndNxt v.sndUna - dist ack v.sndUna := by
    conv_lhs => rw [← pos_dist v.sndNxt v.sndUna, ← pos_dist ack v.sndUna]
    exact dist_pos_pos _ (by omega) (by omega)
  rw [hn, seqLT]
  by_cases hbehind : dist v.sndNxt ack < 0
  · rw [decide_eq_true hbehind]
    exact .inr rfl
  · rw [decide_eq_false hbehind]
    exact .inl ⟨rfl, by omega⟩

variable {w : SndSide}

section

variable (h : SndInv v) (hiwat : w.sndHiwat = v.sndHiwat) (sndMax : w.sndMax = v.sndMax)
  (sentfin : w.sentfin = v.sentfin) (syn : w.tState.sendsSyn = false)
  (reopen : w.tState.isOpen → v.tState.isOpen) (cant : v.cantSendMore → w.cantSendMore)
  (shut : w.tState.sendsFin → w.cantSendMore)

include h hiwat sndMax sentfin syn reopen cant shut

/-- **What an acknowledgement does.**  `snd_nxt` stays, or is pulled along. -/
theorem SndInv.ack {ack : BitVec 32} (nonneg : 0 ≤ dist ack v.sndUna)
    (le : dist ack v.sndUna ≤ dist v.sndMax v.sndUna) (una : w.sndUna = ack)
    (acked : w.acked = v.acked + dist ack v.sndUna)
    (soSnd : w.soSnd = v.soSnd.drop (dist ack v.sndUna).toNat)
    (sndNxt : w.sndNxt = v.sndNxt ∧ dist ack v.sndUna ≤ dist v.sndNxt v.sndUna ∨ w.sndNxt = ack)
    (fin : w.tState.sendsFin → v.sentfin →
      v.tState.sendsFin ∧ dist ack v.sndUna ≤ v.soSnd.length) : SndInv w := by
  replace sndNxt := sndNxt.imp_right fun hpull => hpull.trans una.symm
  rw [← pos_dist ack v.sndUna] at una
  generalize dist ack v.sndUna = a at *
  have hsmall := h.small.1
  have hmaxle := h.max_le
  have hnxt := h.nxt_le
  have hlen : (w.soSnd.length : ℤ) = v.soSnd.length - a.toNat ∨
      (w.soSnd.length = 0 ∧ v.soSnd.length ≤ a.toNat) := by
    rw [soSnd, List.length_drop]
    omega
  have hshift {x : BitVec 32} (hx : 0 ≤ dist x v.sndUna) (hle : dist x v.sndUna ≤ 263170) :
      dist x w.sndUna = dist x v.sndUna - a := by
    rw [una]
    conv_lhs => rw [← pos_dist x v.sndUna]
    exact dist_pos_pos _ (by omega) (by omega)
  have hmax : dist w.sndMax w.sndUna = dist v.sndMax v.sndUna - a := by
    rw [sndMax]
    exact hshift h.una_le hsmall
  have hnxtpos : 0 ≤ dist w.sndNxt w.sndUna ∧ dist w.sndNxt w.sndUna ≤ dist w.sndMax w.sndUna := by
    rcases sndNxt with ⟨hsame, hge⟩ | hpull
    · rw [hsame, hshift h.nxt_nonneg (by omega)]
      omega
    · rw [hpull, dist_same]
      omega
  constructor
  · exact hiwat ▸ h.hiwat
  · rw [soSnd, List.length_drop]
    exact (Nat.sub_le _ _).trans h.room
  · rw [acked]
    have := h.acked
    omega
  · exact hnxtpos.1
  · exact hnxtpos.2
  · simp only [SndBase.sendable] at hmaxle ⊢
    rw [sentfin]
    split_ifs at hmaxle ⊢ <;> omega
  · rw [syn]
    simp
  · intro hs hst
    rw [sentfin] at hs
    obtain ⟨hfin, hle⟩ := fin hst hs
    have := h.fin hs hfin
    omega
  · intro hopen
    rw [sentfin]
    exact h.unsent (reopen hopen)
  · rintro (hs | hst)
    · exact cant (h.shut (.inl (sentfin ▸ hs)))
    · exact shut hst

/-- **What a change of the state does**: nothing is acknowledged. -/
theorem SndInv.turn (una : w.sndUna = v.sndUna) (acked : w.acked = v.acked)
    (soSnd : w.soSnd = v.soSnd) (sndNxt : w.sndNxt = v.sndNxt)
    (fin : w.tState.sendsFin → v.sentfin → v.tState.sendsFin) : SndInv w := by
  have hzero : dist v.sndUna v.sndUna = 0 := dist_same _
  refine h.ack hiwat sndMax sentfin syn reopen cant shut hzero.ge (hzero.trans_le h.una_le) una ?_ ?_
    (.inl ⟨sndNxt, hzero.trans_le h.nxt_nonneg⟩) fun hw hs => ⟨fin hw hs, ?_⟩
  · rw [hzero, add_zero, acked]
  · rw [hzero]
    exact soSnd
  · rw [hzero]
    exact Int.natCast_nonneg _

end

/-- Nothing has been sent. -/
theorem SndInv.unsent_all (hiwat : w.sndHiwat ≤ SB_MAX) (soSnd : w.soSnd = []) (acked : w.acked = 0)
    (sndNxt : w.sndNxt = w.sndUna) (sndMax : w.sndMax = w.sndUna) (sentfin : w.sentfin = false)
    (syn : w.tState.sendsSyn → w.sndUna = w.iss ∧ w.persist = 0)
    (fin : w.tState.sendsFin = false) : SndInv w := by
  have hnxt : dist w.sndNxt w.sndUna = 0 := by rw [sndNxt, dist_same]
  have hmax : dist w.sndMax w.sndUna = 0 := by rw [sndMax, dist_same]
  refine ⟨hiwat, ?_, acked.ge, hnxt.ge, hnxt.trans_le hmax.ge, ?_,
    fun hs => ⟨soSnd, (syn hs).1, acked, (syn hs).2⟩, ?_, fun _ => sentfin, ?_⟩
  · rw [soSnd]
    exact Nat.zero_le _
  · have := w.le_sendable
    split_ifs <;> omega
  · exact fun hs => nomatch sentfin.symm.trans hs
  · rintro (hs | hst)
    · exact nomatch sentfin.symm.trans hs
    · exact nomatch fin.symm.trans hst

/-- The persist timer may be set to anything if it has run. -/
theorem SndInv.mono_persist {persist : ℤ} (h : SndInv { w with persist := persist })
    (hzero : persist = 0 → w.persist = 0) : SndInv w :=
  { h with
    syn := fun hsyn =>
      ⟨(h.syn hsyn).1, (h.syn hsyn).2.1, (h.syn hsyn).2.2.1, hzero (h.syn hsyn).2.2.2⟩ }

/-! ## Stages -/

/-- **A connection in the course of `tcp_input`.** -/
structure Steady (v : SndSide) : Prop where
  inv : SndInv v
  force : v.force = false
  alive : v.gone = false
  started : 2 ≤ v.tState.num

/-- Acts that lead to a steady connection. -/
structure Goes (F : Faults) (v w : SndSide) : Prop where
  acts : Acts F v w
  steady : Steady w

theorem Goes.refl (h : Steady v) : Goes F v v := ⟨.refl v, h⟩

theorem Goes.trans (h : Goes F v w) (h' : Goes F w x) : Goes F v x :=
  ⟨h.acts.trans h'.acts, h'.steady⟩

/-- How a stage may leave. -/
def Leaves (F : Faults) (v : SndSide) (e : Exit) (tp : Tcpcb) : Prop :=
  match e with
  | .close _ => Acts F v (tcpClose tp).sndSide
  | .panic _ => True
  | .retransmit onxt => Goes F v tp.sndSide ∧ 0 ≤ dist onxt tp.sndUna ∧
      dist onxt tp.sndUna ≤ dist tp.sndMax tp.sndUna
  | _ => Goes F v tp.sndSide

variable {tp : Tcpcb}

theorem Leaves.after {e : Exit} (h : Leaves F w e tp) (hw : Goes F v w) : Leaves F v e tp := by
  cases e with
  | close reset => exact hw.acts.trans h
  | panic p => trivial
  | retransmit onxt => exact ⟨hw.trans h.1, h.2⟩
  | drop | dropafterack | dropwithreset | done | acked | output | inflate | abort _ =>
    exact hw.trans h

/-- A stage goes by acts from the states `pre` to the states `post`. -/
def Moves (F : Faults) (pre post : TState → Prop) (f : Tcpcb → Seg → Stage) : Prop :=
  ∀ tp s, Steady tp.sndSide → pre tp.tState →
    (f tp s).All (fun e tp' _ => Leaves F tp.sndSide e tp')
      fun tp' _ => Goes F tp.sndSide tp'.sndSide ∧ post tp'.tState

theorem Stage.All.after {x : Stage} (post : TState → Prop)
    (hx : x.All (fun e tp' _ => Leaves F w e tp') fun tp' _ =>
      Goes F w tp'.sndSide ∧ post tp'.tState) (hw : Goes F v w) :
    x.All (fun e tp' _ => Leaves F v e tp') fun tp' _ => Goes F v tp'.sndSide ∧ post tp'.tState :=
  hx.mono (fun _ _ _ hl => hl.after hw) fun _ _ hn => ⟨hw.trans hn.1, hn.2⟩

theorem Moves.andThen {pre mid post : TState → Prop} {f g : Tcpcb → Seg → Stage}
    (hf : Moves F pre mid f) (hg : Moves F mid post g) :
    Moves F pre post fun tp s => (f tp s).andThen g := by
  intro tp s h hpre
  refine (hf tp s h hpre).andThen fun tp' s' hmid => ?_
  exact (hg tp' s' hmid.1.steady hmid.2).after post hmid.1

/-- `tcp_close`. -/
theorem close_acts (h : tp.sndSide = v ∨
    tp.sndSide = { v with tState := .closed }) : Acts F v (tcpClose tp).sndSide := by
  have hside : (tcpClose tp).sndSide =
      { tp.sndSide with template := false, cantSendMore := true, gone := true } := rfl
  rw [hside]
  rcases h with h | h <;> rw [h]
  · refine Act.acts (.turn rfl rfl rfl rfl (fun _ => id) ?_ ?_ id Or.inl) nofun
    all_goals exact nofun
  · refine Act.acts (.turn rfl rfl rfl rfl (fun _ => id) ?_ ?_ ?_ ?_) nofun
    all_goals exact nofun

theorem Quiet.moves {f : Tcpcb → Seg → Stage} (q : Quiet f) (pre : TState → Prop) :
    Moves F pre pre f := by
  intro tp s h hpre
  refine (q tp s).mono ?_ ?_
  · rintro e tp' s' ⟨hout, -, hquiet⟩
    have hside : tp'.sndSide = tp.sndSide ∨
        e = .close false ∧ tp'.sndSide = { tp.sndSide with tState := .closed } :=
      hout.imp (congrArg OutSide.toSndSide) fun h => ⟨h.1, congrArg OutSide.toSndSide h.2⟩
    cases e with
    | close reset => exact close_acts (hside.imp_right And.right)
    | panic p => trivial
    | drop | dropafterack | dropwithreset | abort _ =>
      have hside := hside.resolve_right fun hc => nomatch hc.1
      show Goes F tp.sndSide tp'.sndSide
      rw [hside]
      exact .refl h
    | done | acked | output | retransmit _ | inflate => cases hquiet
  · rintro tp' s' ⟨hout, -⟩
    have hside : tp'.sndSide = tp.sndSide := congrArg OutSide.toSndSide hout
    have hstate : tp'.tState = tp.tState := congrArg (·.tState) hside
    rw [hside, hstate]
    exact ⟨.refl h, hpre⟩

/-- The timers, `snd_nxt` and the terms change. -/
theorem Goes.quiet (h : Steady v) (base : w.toSndBase = v.toSndBase) (hiwat : w.sndHiwat ≤ SB_MAX)
    (persist : w.persist = v.persist ∨ w.persist = 0) (sentfin : w.sentfin = v.sentfin)
    (sndMax : w.sndMax = v.sndMax) (sent : w.sent = v.sent) (nonneg : 0 ≤ dist w.sndNxt v.sndUna)
    (le : dist w.sndNxt v.sndUna ≤ dist v.sndMax v.sndUna) : Goes F v w := by
  have hinv : SndInv w := h.inv.setNxt base hiwat persist nonneg sentfin sndMax le
  refine ⟨Act.acts (.quiet (base.trans ?_) sndMax sentfin sent ?_) fun _ => hinv, hinv, ?_, ?_, ?_⟩
  · rw [base]
  · exact fun _ hzero => persist.elim (fun he => he.trans hzero) id
  · exact (congrArg (·.force) base).trans h.force
  · exact (congrArg (·.gone) base).trans h.alive
  · exact h.started.trans_eq (congrArg (fun b : SndBase => b.tState.num) base).symm

/-- The state changes. -/
theorem Goes.turn (h : Steady v) (base : w.toSndBase =
      { v.toSndBase with tState := w.tState, cantSendMore := w.cantSendMore })
    (hiwat : w.sndHiwat = v.sndHiwat) (sndMax : w.sndMax = v.sndMax)
    (sentfin : w.sentfin = v.sentfin) (sent : w.sent = v.sent) (sndNxt : w.sndNxt = v.sndNxt)
    (persist : w.persist = v.persist ∨ w.persist = 0) (started : 2 ≤ w.tState.num)
    (syn : w.tState.sendsSyn = false)
    (fin : w.tState.sendsFin → v.tState.sendsFin ∨ v.tState.isOpen ∧ (v.acked = 0 → F.early))
    (reopen : w.tState.isOpen → v.tState.isOpen) (cant : v.cantSendMore → w.cantSendMore)
    (shut : w.tState.sendsFin → w.cantSendMore) : Goes F v w := by
  have hforce : w.force = v.force := congrArg (·.force) base
  have htemplate : w.template = v.template := congrArg (·.template) base
  have hgone : w.gone = v.gone := congrArg (·.gone) base
  have hbase : w.toSndBase = { v.toSndBase with
      tState := w.tState, force := w.force, template := w.template
      cantSendMore := w.cantSendMore, gone := w.gone } := by
    rw [hforce, htemplate, hgone]
    exact base
  have hinv : SndInv w := by
    refine h.inv.turn hiwat sndMax sentfin syn reopen cant shut (congrArg (·.sndUna) base)
      (congrArg (·.acked) base) (congrArg (·.soSnd) base) sndNxt fun hw hs => ?_
    refine (fin hw).resolve_right fun hopen => ?_
    have := h.inv.unsent hopen.1
    rw [hs] at this
    cases this
  refine ⟨Act.acts (.turn hbase sndMax sentfin sent (fun _ hzero => ?_)
    (fun _ => ⟨h.alive, htemplate⟩) (fun _ _ => h.started) reopen fin) fun _ => hinv,
    hinv, hforce.trans h.force, hgone.trans h.alive, started⟩
  exact persist.elim (fun he => he.trans hzero) id

/-! ## Header prediction -/

theorem restartRexmt_side (tp : Tcpcb) (all : Bool) :
    ∃ rexmt, (tp.restartRexmt all).sndSide = { tp.sndSide with rexmt := rexmt } := by
  unfold Tcpcb.restartRexmt
  split_ifs
  · exact ⟨_, rfl⟩
  · exact ⟨_, rfl⟩
  · exact ⟨_, rfl⟩

variable {tp' : Tcpcb}

theorem Times.side (h : Times tp tp') : ∃ rxtshift rxtcur,
    tp'.sndSide = { tp.sndSide with rxtshift := rxtshift, rxtcur := rxtcur } := by
  obtain ⟨rtt, srtt, rttvar, rxtshift, rxtcur, softerror, -, -, rfl⟩ := h
  exact ⟨_, _, rfl⟩

section

variable {ack : BitVec 32} (h : Steady v) (hnew : 0 ≤ dist ack v.sndUna)
  (hle : dist ack v.sndUna ≤ dist v.sndMax v.sndUna) (base : w.toSndBase =
    { v.toSndBase.ackTo ack with
      tState := w.tState, cantSendMore := w.cantSendMore, closedBy := w.closedBy })
  (hiwat : w.sndHiwat = v.sndHiwat) (sndMax : w.sndMax = v.sndMax) (sentfin : w.sentfin = v.sentfin)
  (sent : w.sent = v.sent)
  (sndNxt : w.sndNxt = v.sndNxt ∧ dist ack v.sndUna ≤ dist v.sndNxt v.sndUna ∨ w.sndNxt = ack)
  (cant : v.cantSendMore → w.cantSendMore)

include h hnew hle base hiwat sndMax sentfin sent sndNxt cant

/-- **An acknowledgement**, with which the state may change. -/
theorem Goes.acks (started : 2 ≤ w.tState.num) (syn : w.tState.sendsSyn = false)
    (fin : w.tState.sendsFin → v.tState.sendsFin ∧
      (v.sentfin → dist ack v.sndUna ≤ v.soSnd.length))
    (reopen : w.tState.isOpen → v.tState.isOpen)
    (state : w.tState = v.tState ∧ w.closedBy = v.closedBy ∨
      v.tState.isOpen ∧ w.tState = .established ∧ w.closedBy = v.closedBy ∨
      v.tState.sendsFin ∧ (v.soSnd.length : ℤ) < dist ack v.sndUna ∧
        (w.tState.sendsFin = false ∨ w.gone) ∧ w.tState.isOpen = false ∧
        w.closedBy = w.acked :: v.closedBy) : Goes F v w := by
  have htemplate : w.template = v.template := congrArg (·.template) base
  have hgone : w.gone = v.gone := congrArg (·.gone) base
  have hbase : w.toSndBase = { v.toSndBase.ackTo ack with
      tState := w.tState, template := w.template, cantSendMore := w.cantSendMore
      gone := w.gone, closedBy := w.closedBy } := by
    rw [htemplate, hgone]
    exact base
  have hinv : SndInv w :=
    h.inv.ack hiwat sndMax sentfin syn reopen cant
      (fun hw => cant (h.inv.shut (.inr (fin hw).1))) hnew hle (congrArg (·.sndUna) base)
      (congrArg (·.acked) base) (congrArg (·.soSnd) base) sndNxt fun hw hs => (fin hw).imp_right (· hs)
  exact ⟨Act.acts (.ack ack hnew hle hbase sndMax sentfin sent h.started h.alive
    (fun _ => htemplate) state) fun _ => hinv, hinv,
    (congrArg (·.force) base).trans h.force, hgone.trans h.alive, started⟩

/-- The acknowledgement is taken for that of the FIN, and the state changes. -/
theorem Goes.finAcked (hclosed : w.closedBy = w.acked :: v.closedBy) (fin : v.tState.sendsFin)
    (hall : v.soSnd.length < dist ack v.sndUna)
    (state : w.tState = .finWait2 ∨ w.tState = .timeWait) : Goes F v w := by
  obtain ⟨hnum, hnosyn, hnofin, hshut⟩ : 2 ≤ w.tState.num ∧ w.tState.sendsSyn = false ∧
      w.tState.sendsFin = false ∧ w.tState.isOpen = false := by
    rcases state with h | h <;> rw [h] <;> decide
  refine .acks h hnew hle base hiwat sndMax sentfin sent sndNxt cant hnum hnosyn ?_ ?_
    (.inr (.inr ⟨fin, hall, .inl hnofin, hshut, hclosed⟩))
  · exact fun hw => nomatch hnofin.symm.trans hw
  · exact fun hw => nomatch hshut.symm.trans hw

end

theorem sbdropSnd_side (tp : Tcpcb) (n : ℕ) (ack : BitVec 32) :
    ((tp.sbdropSnd n).ackTo ack).sndSide =
      { tp.sndSide with
        soSnd := tp.sndSide.soSnd.drop n
        sndUna := ack
        acked := tp.sndSide.acked + dist ack tp.sndSide.sndUna } := rfl

variable {s : Seg}

theorem fastAck_goes (h : Steady tp.sndSide) (hstate : tp.tState = .established)
    (hnxt : tp.sndNxt = tp.sndMax) (hpure : pureAck tp s) {N : Tcpcb → Seg → Prop} :
    (fastAck tp s).All (fun e tp' _ => Leaves F tp.sndSide e tp') N := by
  unfold fastAck
  split
  · trivial
  · next hroom =>
      simp only [pureAck, Bool.and_eq_true, seqGT, seqLEQ, decide_eq_true_eq] at hpure
      obtain ⟨⟨⟨-, hnew⟩, hle⟩, -⟩ := hpure
      have hle := ack_le h.inv hnew hle
      obtain ⟨rxtshift, rxtcur, htimed⟩ := (times_timeAck tp s).side
      have hside := sbdropSnd_side (tp.timeAck s) (dist s.tiAck tp.sndUna).toNat s.tiAck
      rw [htimed] at hside
      show Goes F tp.sndSide (Tcpcb.restartRexmt _ _).sndSide
      obtain ⟨rexmt, hrestart⟩ := restartRexmt_side
        (((tp.timeAck s).sbdropSnd (dist s.tiAck tp.sndUna).toNat).ackTo s.tiAck)
        (decide (s.tiAck = tp.sndMax))
      rw [hrestart, hside]
      refine .acks h hnew.le hle rfl rfl rfl rfl rfl (.inl ⟨rfl, ?_⟩) id h.started ?_ ?_ id
        (.inl ⟨rfl, rfl⟩)
      · show dist s.tiAck tp.sndUna ≤ dist tp.sndNxt tp.sndUna
        rw [hnxt]
        exact hle
      · show tp.tState.sendsSyn = false
        rw [hstate]
        rfl
      · intro hfin
        have hfin : tp.tState.sendsFin := hfin
        rw [hstate] at hfin
        cases hfin

theorem predict_moves (mb : ℤ) (pre : TState → Prop) : Moves F pre pre (predict · · mb) := by
  intro tp s h hpre
  have hside := sndSide_stamp tp s 0
  have hstate : (tp.stamp s 0).tState = tp.tState := congrArg (·.tState) hside
  simp only [predict]
  split_ifs with hp hack hdata
  · have hsteady : Steady (tp.stamp s 0).sndSide := hside ▸ h
    simp only [predicts, Bool.and_eq_true, decide_eq_true_eq] at hp
    have hnxt : (tp.stamp s 0).sndNxt = (tp.stamp s 0).sndMax :=
      ((congrArg SndSide.sndNxt hside).trans hp.2).trans (congrArg SndSide.sndMax hside).symm
    rw [← hside]
    exact fastAck_goes hsteady (hstate.trans hp.1.1.1.1.1.1) hnxt hack
  · show Goes F tp.sndSide (tp.stamp s 0).sndSide
    rw [hside]
    exact .refl h
  · show Goes F tp.sndSide (tp.stamp s 0).sndSide ∧ _
    rw [hside, hstate]
    exact ⟨.refl h, hpre⟩
  · exact ⟨.refl h, hpre⟩

/-! ## Acknowledgements in `tcp_input` -/

theorem establish_goes (h : Steady tp.sndSide) (hopen : tp.tState.isOpen) :
    Goes F tp.sndSide tp.establish.sndSide := by
  rw [sndSide_establish]
  refine .turn h rfl rfl rfl rfl rfl rfl (.inl rfl) ?_ rfl ?_ (fun _ => hopen) id ?_
  · exact (by decide : 2 ≤ TState.established.num)
  · exact nofun
  · exact nofun

theorem synRcvdStage_moves :
    Moves F (· ≠ .synSent) (fun st => st.sendsSyn = false) synRcvdStage := by
  intro tp s h hpre
  unfold synRcvdStage
  split_ifs with hstate hbad
  · exact .refl h
  · refine ⟨establish_goes h (hstate ▸ rfl), ?_⟩
    have := congrArg (fun v : SndSide => v.tState.sendsSyn) (sndSide_establish tp)
    exact this
  · refine ⟨.refl h, ?_⟩
    cases hst : tp.tState <;> first | rfl | exact absurd hst hpre | exact absurd hst hstate

variable (pre : TState → Prop)

theorem dupAckStage_moves : Moves F pre pre dupAckStage := by
  intro tp s h hpre
  unfold dupAckStage
  split_ifs with hdup hidle hthird hmore
  · exact ⟨.refl h, hpre⟩
  · have hack : s.tiAck = tp.sndUna := by
      by_contra hne
      exact hidle (.inr hne)
    refine ⟨.quiet h rfl h.inv.hiwat (.inl rfl) rfl rfl rfl ?_ ?_, h.inv.nxt_nonneg, h.inv.nxt_le⟩
    · exact (congrArg (dist · tp.sndUna) hack).trans (dist_same _) |>.ge
    · exact ((congrArg (dist · tp.sndUna) hack).trans (dist_same _)).trans_le h.inv.una_le
  · exact .refl h
  · exact ⟨.refl h, hpre⟩
  · exact ⟨.refl h, hpre⟩

theorem dropAcked_side (tp : Tcpcb) (s : Seg) : ((tp.dropAcked s).ackTo s.tiAck).sndSide =
    { tp.sndSide with
      soSnd := if tp.finIsAcked s then []
        else tp.soSnd.drop (s.tiAck - tp.sndUna).toNat
      sndUna := s.tiAck
      acked := tp.sndSide.acked + dist s.tiAck tp.sndSide.sndUna } := by
  unfold Tcpcb.dropAcked
  split <;> rfl

theorem pullNxt_side (tp : Tcpcb) : tp.pullNxt.sndSide =
    { tp.sndSide with sndNxt := if seqLT tp.sndSide.sndNxt tp.sndSide.sndUna
        then tp.sndSide.sndUna else tp.sndSide.sndNxt } :=
  (apply_ite Tcpcb.sndSide _ _ _).trans
    (apply_ite (fun n => { tp.sndSide with sndNxt := n }) _ _ _).symm

theorem toNat_sub {a b : BitVec 32} (h : 0 ≤ dist a b) : (a - b).toNat = (dist a b).toNat := by
  unfold Serial.dist at h ⊢
  rw [BitVec.toInt_eq_toNat_cond] at h ⊢
  split_ifs at h ⊢ <;> omega

/-- `ourfinisacked`: more is acknowledged than is in the buffer. -/
theorem finIsAcked_iff (h : SndInv tp.sndSide) (hnew : 0 ≤ dist s.tiAck tp.sndUna) :
    tp.finIsAcked s ↔ (tp.soSnd.length : ℤ) < dist s.tiAck tp.sndUna := by
  rw [Tcpcb.finIsAcked, decide_eq_true_eq, gt_iff_lt, BitVec.lt_def, toNat_sndCc h, toNat_sub hnew]
  omega

/-- The send side after a new acknowledgement. -/
theorem ackNew_side (h : SndInv tp.sndSide) (hnew : 0 ≤ dist s.tiAck tp.sndUna) :
    ∃ rexmt rxtshift rxtcur sndNxt,
      (tp.ackNew s).sndSide = { tp.sndSide with
        toSndBase := tp.sndSide.toSndBase.ackTo s.tiAck
        rexmt := rexmt, rxtshift := rxtshift, rxtcur := rxtcur, sndNxt := sndNxt } ∧
      sndNxt = if seqLT tp.sndNxt s.tiAck then s.tiAck else tp.sndNxt := by
  obtain ⟨rxtshift, rxtcur, htimed⟩ := (times_timeAck tp s).side
  obtain ⟨rexmt, hrestart⟩ := restartRexmt_side (tp.timeAck s) (decide (s.tiAck = tp.sndMax))
  rw [htimed] at hrestart
  rw [Tcpcb.ackNew]
  generalize ht : ((tp.timeAck s).restartRexmt (decide (s.tiAck = tp.sndMax))).openCwnd = t
  have hopened : t.sndSide = { tp.sndSide with
      rexmt := rexmt, rxtshift := rxtshift, rxtcur := rxtcur } := ht ▸ hrestart
  have hsnd : t.soSnd = tp.soSnd := congrArg (·.soSnd) hopened
  have huna : t.sndUna = tp.sndUna := congrArg (·.sndUna) hopened
  have hdrop : (if t.finIsAcked s then [] else t.soSnd.drop (s.tiAck - t.sndUna).toNat) =
      tp.soSnd.drop (dist s.tiAck tp.sndUna).toNat := by
    rw [Tcpcb.finIsAcked, Tcpcb.sndCc, hsnd, huna, toNat_sub hnew]
    split
    · next hall =>
        have hall : tp.finIsAcked s := hall
        rw [finIsAcked_iff h hnew] at hall
        rw [List.drop_eq_nil_of_le (by omega)]
    · rfl
  have hacked : ((t.dropAcked s).ackTo s.tiAck).sndSide = { tp.sndSide with
      toSndBase := tp.sndSide.toSndBase.ackTo s.tiAck
      rexmt := rexmt, rxtshift := rxtshift, rxtcur := rxtcur } := by
    rw [dropAcked_side, hdrop, hopened]
    rfl
  refine ⟨rexmt, rxtshift, rxtcur, _, ?_, rfl⟩
  rw [pullNxt_side, hacked]
  rfl

theorem sndSide_finWait2 (tp : Tcpcb) : ({ tp.finDone with tState := .finWait2 } : Tcpcb).sndSide =
      { tp.sndSide with tState := .finWait2, closedBy := tp.acked :: tp.closedBy } := rfl

theorem sndSide_finWait2_shut (tp : Tcpcb) :
    ({ soisdisconnected tp.finDone with msl := TCP_MAXIDLE, tState := .finWait2 } : Tcpcb).sndSide =
      { tp.sndSide with
        tState := .finWait2, cantSendMore := true, closedBy := tp.acked :: tp.closedBy } := rfl

theorem sndSide_timeWait (tp : Tcpcb) :
    (soisdisconnected { tcpCanceltimers { tp.finDone with tState := .timeWait } with
      msl := 2 * TCPTV_MSL }).sndSide =
      { tp.sndSide with
        tState := .timeWait, cantSendMore := true, closedBy := tp.acked :: tp.closedBy
        rexmt := 0, persist := 0 } := rfl

theorem sndSide_closed (tp : Tcpcb) : (tcpClose tp.finDone).sndSide =
    { tp.sndSide with
      template := false, cantSendMore := true, gone := true
      closedBy := tp.acked :: tp.closedBy } := rfl

theorem closingStage_goes {t : Tcpcb} {ack : BitVec 32} {rexmt rxtshift rxtcur : ℤ}
    {sndNxt : BitVec 32} {ourfinisacked : Bool} (h : Steady v) (hpre : v.tState.sendsSyn = false)
    (hnew : 0 ≤ dist ack v.sndUna) (hle : dist ack v.sndUna ≤ dist v.sndMax v.sndUna)
    (hside : t.sndSide = { v with
      toSndBase := v.toSndBase.ackTo ack
      rexmt := rexmt, rxtshift := rxtshift, rxtcur := rxtcur, sndNxt := sndNxt })
    (hnxt : sndNxt = v.sndNxt ∧ dist ack v.sndUna ≤ dist v.sndNxt v.sndUna ∨ sndNxt = ack)
    (hfin : ourfinisacked ↔ v.soSnd.length < dist ack v.sndUna) :
    (closingStage ourfinisacked t s).All (fun e tp' _ => Leaves F v e tp')
      fun tp' _ => Goes F v tp'.sndSide := by
  have hstate : t.tState = v.tState := congrArg (·.tState) hside
  have hacked : t.acked = v.acked + dist ack v.sndUna :=
    congrArg (·.acked) hside
  have hclosed : t.closedBy = v.closedBy := congrArg (·.closedBy) hside
  have hplain : (v.tState.sendsFin → ¬ ourfinisacked) → Goes F v t.sndSide := by
    intro hnot
    rw [hside]
    refine .acks h hnew hle rfl rfl rfl rfl rfl hnxt id h.started hpre
      (fun hst => ⟨hst, fun _ => ?_⟩) id (.inl ⟨rfl, rfl⟩)
    have := hnot hst
    rw [hfin] at this
    exact not_lt.mp this
  have hother (hst : t.tState.sendsFin = false) : Goes F v t.sndSide :=
    hplain fun hv => absurd (hst.symm.trans (hstate ▸ hv)) (by simp)
  have hfins {st : TState} (hst : t.tState = st) (hst' : st.sendsFin) : v.tState.sendsFin := by
    rwa [← hstate, hst]
  unfold closingStage
  split
  · next hst =>
      have hsends := hfins hst rfl
      split_ifs with hdone hcant
      · rw [all_next, sndSide_finWait2_shut, hside, hacked, hclosed]
        exact .finAcked h hnew hle rfl rfl rfl rfl rfl hnxt (fun _ => rfl) rfl hsends
          (hfin.mp hdone) (.inl rfl)
      · rw [all_next, sndSide_finWait2, hside, hacked, hclosed]
        exact .finAcked h hnew hle rfl rfl rfl rfl rfl hnxt id rfl hsends (hfin.mp hdone) (.inl rfl)
      · exact hplain fun _ => hdone
  · next hst =>
      have hsends := hfins hst rfl
      split_ifs with hdone
      · rw [all_next, sndSide_timeWait, hside, hacked, hclosed]
        exact .finAcked h hnew hle rfl rfl rfl rfl rfl hnxt (fun _ => rfl) rfl hsends
          (hfin.mp hdone) (.inr rfl)
      · exact hplain fun _ => hdone
  · next hst =>
      have hsends := hfins hst rfl
      split_ifs with hdone
      · show Acts F v (tcpClose t.finDone).sndSide
        rw [sndSide_closed, hside, hacked, hclosed]
        exact Act.acts (.ack ack hnew hle rfl rfl rfl rfl h.started h.alive nofun
          (.inr (.inr ⟨hsends, hfin.mp hdone, .inr rfl, not_isOpen_of_sendsFin hsends, rfl⟩)))
          nofun
      · exact hplain fun _ => hdone
  · next hst =>
      refine hother ?_
      rw [hst]
      rfl
  · next h1 h2 h3 _ =>
      refine hother ?_
      cases hst : t.tState <;> first | rfl | exact absurd hst h1 | exact absurd hst h2 |
        exact absurd hst h3

theorem newAckStage_goes (tp : Tcpcb) (h : Steady tp.sndSide) (hpre : tp.tState.sendsSyn = false)
    (hnew : 0 < dist s.tiAck tp.sndUna) :
    (newAckStage tp s).All (fun e tp' _ => Leaves F tp.sndSide e tp')
      fun tp' _ => Goes F tp.sndSide tp'.sndSide := by
  unfold newAckStage
  split
  · exact .refl h
  · next hfar =>
      have hle : dist s.tiAck tp.sndMax ≤ 0 := by simpa [seqGT] using hfar
      have hle := ack_le h.inv hnew hle
      obtain ⟨rexmt, rxtshift, rxtcur, sndNxt, hside, hnxt⟩ := ackNew_side h.inv hnew.le
      refine closingStage_goes h hpre hnew.le hle hside ?_ (finIsAcked_iff h.inv hnew.le)
      exact sndNxt_pulled h.inv hnew.le hle hnxt

theorem ackStage_moves : Moves F (fun st => st.sendsSyn = false) (fun _ => True) ackStage := by
  intro tp s h hpre
  unfold ackStage
  split
  · exact (dupAckStage_moves (fun _ => True) tp s h trivial)
  · next hold =>
      have hnew : 0 < dist s.tiAck tp.sndUna := by simpa [seqLEQ] using hold
      exact (newAckStage_goes tp.deflate h hpre hnew).mono (fun _ _ _ => id)
        fun _ _ hgo => ⟨hgo, trivial⟩

/-! ## The end of the general path -/

theorem sndSide_receiveFin (tp : Tcpcb) : tp.receiveFin.sndSide = tp.sndSide := by
  unfold Tcpcb.receiveFin
  split <;> rfl

theorem finState_goes (tp : Tcpcb) (h : Steady tp.sndSide) :
    Goes F tp.sndSide tp.finState.sndSide := by
  have hclose (hopen : tp.tState.isOpen) :
      Goes F tp.sndSide { tp.sndSide with tState := .closeWait } := by
    refine .turn h rfl rfl rfl rfl rfl rfl (.inl rfl) ?_ rfl ?_ (fun _ => hopen) id ?_
    · exact (by decide : 2 ≤ TState.closeWait.num)
    · exact nofun
    · exact nofun
  unfold Tcpcb.finState
  split
  · next hst => exact hclose (hst ▸ rfl)
  · next hst => exact hclose (hst ▸ rfl)
  · next hst =>
      have hsends : tp.tState.sendsFin := hst ▸ rfl
      refine .turn h rfl rfl rfl rfl rfl rfl (.inl rfl) ?_ rfl (fun _ => .inl hsends) ?_ id
        fun _ => h.inv.shut (.inr hsends)
      · exact (by decide : 2 ≤ TState.closing.num)
      · exact nofun
  · refine .turn h rfl rfl rfl rfl rfl rfl (.inr rfl) ?_ rfl ?_ ?_ (fun _ => rfl) fun _ => rfl
    · exact (by decide : 2 ≤ TState.timeWait.num)
    · exact nofun
    · exact nofun
  · exact .refl h
  · exact .refl h

theorem finStage_moves : Moves F pre (fun _ => True) finStage := by
  intro tp s h _
  have hreceived := sndSide_receiveFin tp
  unfold finStage
  split
  · have hgo := finState_goes (F := F) tp.receiveFin (hreceived ▸ h)
    rw [hreceived] at hgo
    exact hgo
  · exact .refl h

theorem step6_moves : Moves F pre (fun _ => True) step6 :=
  (((quiet_windowStage.moves pre).andThen (quiet_urgentStage.moves pre)).andThen
    (quiet_textStage.moves pre)).andThen (finStage_moves pre)

theorem trims_moves : Moves F pre pre trims :=
  (((quiet_pawsStage.moves pre).andThen (quiet_frontStage.moves pre)).andThen
    (quiet_goneStage.moves pre)).andThen (quiet_tailStage.moves pre)

theorem established_moves : Moves F (· ≠ .synSent) (fun _ => True) established :=
  (((((trims_moves _).andThen (quiet_stampStage.moves _)).andThen
    (quiet_controlStage.moves _)).andThen synRcvdStage_moves).andThen ackStage_moves).andThen
    (step6_moves _)

theorem trimthenstep6_moves : Moves F pre (fun _ => True) trimthenstep6 :=
  fun _ _ h hpre => step6_moves pre _ _ h hpre

/-! ## Opening -/

theorem Goes.synReceived (h : Steady v) (hstate : v.tState = .synSent) :
    Goes F v { v with tState := .synReceived, rexmt := 0 } := by
  have hsyn := h.inv.syn (hstate ▸ rfl)
  have hinv : SndInv { v with tState := .synReceived, rexmt := 0 } :=
    { h.inv with
      syn := fun _ => hsyn
      fin := nofun
      unsent := fun _ => h.inv.unsent (hstate ▸ rfl)
      shut := fun hw => h.inv.shut (.inl (Or.resolve_right hw nofun)) }
  refine ⟨Act.acts (.turn rfl rfl rfl rfl (fun _ => id) (fun _ => ⟨h.alive, rfl⟩)
    (fun _ _ => h.started) (fun _ => hstate ▸ rfl) nofun) fun _ => hinv, hinv,
    h.force, h.alive, ?_⟩
  exact (by decide : 2 ≤ TState.synReceived.num)

theorem synSentAck_side (tp : Tcpcb) (s : Seg) (hack : has s.tiflags TH_ACK) :
    ((tp.synSentAck s).takeSyn s.tiSeq).sndSide =
      { tp.sndSide with
        sndUna := s.tiAck
        acked := tp.acked + dist s.tiAck tp.sndUna
        sndNxt := if seqLT tp.sndNxt s.tiAck then s.tiAck else tp.sndNxt
        rexmt := 0 } := by
  have htake (t : Tcpcb) (irs : BitVec 32) :
      (t.takeSyn irs).sndSide = { t.sndSide with rexmt := 0 } := rfl
  rw [htake, Tcpcb.synSentAck, if_pos hack, pullNxt_side]
  rfl

theorem synSentOpen_side (tp : Tcpcb) (s : Seg) (hopen : has s.tiflags TH_ACK ∧
    seqGT tp.sndUna tp.iss) : ∃ rxtshift rxtcur, (tp.synSentOpen s).sndSide =
      { tp.sndSide with tState := .established, rxtshift := rxtshift, rxtcur := rxtcur } := by
  rw [Tcpcb.synSentOpen, if_pos hopen]
  split
  · obtain ⟨rxtshift, rxtcur, htimed⟩ := (times_tcpXmitTimer tp.establish tp.rtt).side
    rw [sndSide_establish] at htimed
    exact ⟨_, _, htimed⟩
  · exact ⟨_, _, sndSide_establish tp⟩

/-- **The SYN of the peer in `SYN_SENT`.** -/
theorem synSentOpen_goes (h : Steady tp.sndSide) (hstate : tp.tState = .synSent)
    (hok : ¬ (has s.tiflags TH_ACK ∧ (seqLEQ s.tiAck tp.iss || seqGT s.tiAck tp.sndMax))) :
    Goes F tp.sndSide (((tp.synSentAck s).takeSyn s.tiSeq).synSentOpen s).sndSide := by
  obtain ⟨hnil, huna, -, -⟩ := h.inv.syn (hstate ▸ rfl : tp.tState.sendsSyn)
  have hnil : tp.soSnd = [] := hnil
  have huna : tp.sndUna = tp.iss := huna
  by_cases hack : has s.tiflags TH_ACK
  · simp only [hack, true_and, Bool.or_eq_true, seqLEQ, seqGT, decide_eq_true_eq, not_or,
      not_le, not_lt, gt_iff_lt] at hok
    obtain ⟨hnew, hle⟩ := hok
    have hgt : 0 < dist s.tiAck tp.iss := hnew
    rw [← huna] at hnew
    have hle := ack_le h.inv hnew hle
    have hside := synSentAck_side tp s hack
    generalize (tp.synSentAck s).takeSyn s.tiSeq = t at hside
    have htuna : t.sndUna = s.tiAck := congrArg (·.sndUna) hside
    have htiss : t.iss = tp.iss := congrArg (·.iss) hside
    obtain ⟨rxtshift, rxtcur, hopen⟩ := synSentOpen_side t s
      ⟨hack, by rw [htuna, htiss]; exact decide_eq_true hgt⟩
    rw [hopen, hside]
    have hisopen : tp.tState.isOpen := hstate ▸ rfl
    refine .acks h hnew.le hle ?_ rfl rfl rfl rfl ?_ id ?_ rfl ?_ (fun _ => hisopen)
      (.inr (.inl ⟨hisopen, rfl, rfl⟩))
    · simp only [Tcpcb.sndSide, SndBase.ackTo, hnil, List.drop_nil]
    · exact sndNxt_pulled h.inv hnew.le hle rfl
    · exact (by decide : 2 ≤ TState.established.num)
    · rintro ⟨⟩
  · have hsame : tp.synSentAck s = tp := by rw [Tcpcb.synSentAck, if_neg hack]
    have hopen (t : Tcpcb) : t.synSentOpen s = { t with tState := .synReceived } := by
      rw [Tcpcb.synSentOpen, if_neg fun hand => hack hand.1]
    rw [hsame, hopen]
    exact .synReceived h hstate

theorem synSentStage_moves : Moves F (· = .synSent) (fun _ => True) synSentStage := by
  intro tp s h hstate
  unfold synSentStage
  split_ifs with hbad hrst hack hsyn
  · exact .refl h
  · exact .refl h
  · exact .refl h
  · exact .refl h
  · have hgo := synSentOpen_goes (F := F) h hstate hbad
    have hrest := trimthenstep6_moves (F := F) (fun _ => True) _ s hgo.steady trivial
    exact hrest.after (fun _ => True) hgo

/-! ## `tcp_input` -/

/-- **The general path**, but for a connection that listens. -/
theorem general_moves (env : Env) : Moves F (· ≠ .listen) (fun _ => True) (general env) := by
  intro tp s h hpre
  unfold general
  split
  · next hst => exact absurd hst hpre
  · next hst => exact synSentStage_moves (tp.setRcvWnd env.mb) s h hst
  · next hst => exact established_moves (tp.setRcvWnd env.mb) s h hst

theorem process_moves (env : Env) : Moves F (· ≠ .listen) (fun _ => True) (process env) :=
  (predict_moves env.mb _).andThen (general_moves env)

/-- The connection that listens has taken its numbers. -/
theorem process_listen (env : Env) (s : Seg) (hstate : tp.tState = .listen) :
    process env tp s = listenStage env.iss tp s := by
  have hnot : predicts tp s = false := by simp [predicts, hstate]
  rw [process, predict, if_neg (by simp [hnot]), Stage.andThen, general, hstate]

/-- A connection that has not begun. -/
structure Blank (v : SndSide) : Prop where
  state : v.tState.num ≤ 1
  soSnd : v.soSnd = []
  acked : v.acked = 0
  persist : v.persist = 0
  sentfin : v.sentfin = false
  sent : ∀ x ∈ v.sent, x.via ≠ .output
  closedBy : v.closedBy = []

/-- As long as there is no template, nothing has begun. -/
def Fresh (v : SndSide) : Prop := v.gone = false → v.template = false → Blank v

theorem act_fresh (hact : Act F v w) (h : Fresh v) : Fresh w := by
  intro hgone htemplate
  cases hact with
  | turn base sndMax sentfin sent persist alive started reopen closes =>
    obtain ⟨hv, hsame⟩ := alive hgone
    have hblank := h hv (hsame ▸ htemplate)
    have hnil : w.soSnd = v.soSnd := congrArg (·.soSnd) base
    refine ⟨?_, hnil.trans hblank.soSnd, ?_, persist hblank.soSnd hblank.persist,
      sentfin.trans hblank.sentfin, sent ▸ hblank.sent, ?_⟩
    · by_contra hnum
      have := started hgone (by omega)
      have := hblank.state
      omega
    · exact (congrArg (·.acked) base).trans hblank.acked
    · exact (congrArg (·.closedBy) base).trans hblank.closedBy
  | emit x via base template =>
    rw [base] at htemplate
    rw [htemplate] at template
    cases template
  | respond x via side =>
    subst side
    have hblank := h hgone htemplate
    refine ⟨hblank.state, hblank.soSnd, hblank.acked, hblank.persist, hblank.sentfin, ?_,
      hblank.closedBy⟩
    intro y hy
    rcases List.mem_cons.mp hy with rfl | hy
    · exact via
    · exact hblank.sent y hy
  | send m _ started side =>
    subst side
    have := (h hgone htemplate).state
    exact absurd started (by omega)
  | ack a nonneg le base sndMax sentfin sent started alive template state =>
    have := (h alive (template hgone ▸ htemplate)).state
    exact absurd started (by omega)
  | begins state template alive base =>
    rw [base] at htemplate
    cases htemplate

theorem acts_fresh (hacts : Acts F v w) (h : Fresh v) : Fresh w := by
  induction hacts with
  | refl => exact h
  | tail _ hact ih => exact act_fresh hact.1 ih

/-- **A connection between two events**: gone, in a state from `SYN_SENT` on, or not yet opened. -/
structure Settled (v : SndSide) : Prop where
  inv : Sound v
  force : v.gone = false → v.force = false
  lives : v.gone = false → 2 ≤ v.tState.num ∨ v.template = false
  fresh : Fresh v

/-- Acts at the end of which the connection has settled. -/
structure Ended (F : Faults) (v w : SndSide) : Prop where
  acts : Acts F v w
  force : w.gone = false → w.force = false
  lives : w.gone = false → 2 ≤ w.tState.num ∨ w.template = false

theorem Ended.settled (h : Ended F v w) (hv : Settled v) : Settled w :=
  ⟨h.acts.sound hv.inv, h.force, h.lives, acts_fresh h.acts hv.fresh⟩

theorem Ended.after (h : Ended F w x) (hw : Acts F v w) : Ended F v x :=
  ⟨hw.trans h.acts, h.force, h.lives⟩

theorem Goes.ended (h : Goes F v w) : Ended F v w :=
  ⟨h.acts, fun _ => h.steady.force, fun _ => .inl h.steady.started⟩

theorem Settled.ended (h : Settled v) : Ended F v v :=
  ⟨.refl v, h.force, h.lives⟩

/-- A computation that ends settled. -/
def EndsSettled (F : Faults) (v : SndSide) (x : Except Fail Tcpcb) : Prop :=
  Ends (fun _ => True) (fun tp' => Ended F v tp'.sndSide) x

theorem not_losesFin (hforce : tp.force = false) : tp.slowStart.losesFin = false := by
  have hslow : tp.slowStart.force = tp.force :=
    congrArg (·.force) (sndSide_slowStart tp)
  simp [Tcpcb.losesFin, hslow, hforce]

theorem outputs_unforced (tp : Tcpcb) (h : SndInv tp.sndSide) (hforce : tp.force = false)
    (ts : List Turn) :
    Ends (fun _ => True) (fun tp' => Sends F tp.sndSide tp'.sndSide) (outputs tp ts) := by
  refine outputs_acts h (fun hl => ?_) ts
  rw [not_losesFin hforce] at hl
  cases hl

theorem Sends.lives (h : Sends F v w) (hlives : 2 ≤ v.tState.num ∨ v.template = false) :
    2 ≤ w.tState.num ∨ w.template = false := by
  rwa [congrArg SndBase.tState h.output.base, congrArg SndBase.template h.output.base]

/-- **`tcp_output` without `t_force`.** -/
theorem outputs_ended (h : SndInv tp.sndSide) (hforce : tp.force = false)
    (hlives : 2 ≤ tp.tState.num ∨ tp.template = false) (ts : List Turn) :
    Ends (fun _ => True) (fun tp' => Ended F tp.sndSide tp'.sndSide ∧
      Sends F tp.sndSide tp'.sndSide) (outputs tp ts) := by
  refine (outputs_unforced tp h hforce ts).imp fun tp' hsends => ⟨⟨hsends.acts, ?_, ?_⟩, hsends⟩
  · exact fun _ => (congrArg SndBase.force hsends.output.base).trans hforce
  · exact fun _ => hsends.lives hlives

theorem outputs_goes (tp : Tcpcb) (h : Goes F v tp.sndSide) (ts : List Turn) :
    EndsSettled F v (outputs tp ts) :=
  (outputs_ended h.steady.inv h.steady.force (.inl h.steady.started) ts).imp
    fun _ hend => hend.1.after h.acts

theorem respond_acts (h : Sound tp.sndSide) {x : Sent} (via : x.via ≠ .output) :
    Acts F tp.sndSide (tp.log x).sndSide := by
  exact Act.acts (.respond x via rfl) fun hg => (h hg).logged x

theorem resetUnless_ended (h : Ended F v tp.sndSide) (hsound : Sound tp.sndSide) (s : Seg)
    (win : ℤ) :
    Ended F v (resetUnless tp s win).sndSide := by
  unfold resetUnless
  split
  · exact h
  · have hact := respond_acts (F := F) hsound (x := s.reset win) nofun
    exact ⟨h.acts.trans hact, h.force, h.lives⟩

theorem closed_ended (h : Acts F v (tcpClose tp).sndSide) : Ended F v (tcpClose tp).sndSide :=
  ⟨h, nofun, nofun⟩

/-- **`tcp_drop`.** -/
theorem tcpDrop_ended (h : SndInv tp.sndSide) (hforce : tp.force = false) (halive : tp.gone = false)
    (ts : List Turn) :
    Ends (fun _ => True) (fun tp' => Ended F tp.sndSide tp'.sndSide ∧ tp'.gone)
      (tcpDrop tp ts) := by
  unfold tcpDrop
  split
  · have hinv : SndInv { tp.sndSide with tState := .closed } := by
      refine h.turn rfl rfl rfl rfl ?_ id ?_ rfl rfl rfl rfl ?_
      all_goals exact nofun
    have hact : Acts F tp.sndSide { tp.sndSide with tState := .closed } := by
      refine Act.acts (.turn rfl rfl rfl rfl (fun _ => id) (fun _ => ⟨halive, rfl⟩) ?_ ?_ ?_)
        fun _ => hinv
      all_goals exact nofun
    refine (outputs_unforced (F := F) { tp with tState := .closed } hinv hforce ts).map
      fun tp' hsends => ⟨closed_ended ?_, rfl⟩
    exact (hact.trans hsends.acts).trans (close_acts (.inl rfl))
  · exact ⟨closed_ended (close_acts (.inl rfl)), rfl⟩

theorem recover_acts {onxt : BitVec 32} (hend : Ended F v tp'.sndSide)
    (hsends : Sends F tp.sndSide tp'.sndSide) (hlo : 0 ≤ dist onxt tp.sndUna)
    (hhi : dist onxt tp.sndUna ≤ dist tp.sndMax tp.sndUna) :
    Ended F v (tp'.recover onxt).sndSide := by
  have huna : tp'.sndUna = tp.sndUna := congrArg SndBase.sndUna hsends.output.base
  have hgrows := hsends.output.grows
  have hinv : SndInv (tp'.recover onxt).sndSide := by
    refine hsends.inv.setNxt rfl hsends.inv.hiwat (.inl rfl) ?_ rfl rfl ?_
    · show 0 ≤ dist (if seqGT onxt tp'.sndNxt then onxt else tp'.sndNxt) tp'.sndUna
      split
      · exact huna ▸ hlo
      · exact hsends.inv.nxt_nonneg
    · show dist (if seqGT onxt tp'.sndNxt then onxt else tp'.sndNxt) tp'.sndUna ≤
        dist tp'.sndMax tp'.sndUna
      split
      · rw [huna]
        exact hhi.trans hgrows
      · exact hsends.inv.nxt_le
  exact ⟨hend.acts.trans (Act.acts (.quiet rfl rfl rfl rfl fun _ => id) fun _ => hinv), hend.force,
    hend.lives⟩

/-- **The labels of `tcp_input`.** -/
theorem exit_ended {e : Exit} (h : Leaves F v e tp) (mb : ℤ) (ts : List Turn) (s : Seg) :
    EndsSettled F v (e.run mb ts tp s) := by
  cases e with
  | drop | done => exact Goes.ended h
  | dropafterack =>
    rw [Exit.run]
    split
    · exact Goes.ended h
    · exact outputs_goes { tp with acknow := true } h ts
  | dropwithreset =>
    exact resetUnless_ended (Goes.ended h) (fun _ => (Goes.steady h).inv) s _
  | acked | output =>
    rw [Exit.run]
    split
    · exact outputs_goes tp h ts
    · exact Goes.ended h
  | retransmit onxt =>
    obtain ⟨hgo, hlo, hhi⟩ := h
    refine (outputs_ended hgo.steady.inv hgo.steady.force (.inl hgo.steady.started) ts).map
      fun tp' hend => recover_acts (hend.1.after hgo.acts) hend.2 hlo hhi
  | inflate => exact outputs_goes tp h ts
  | abort reset =>
    have hsteady := Goes.steady h
    refine (tcpDrop_ended (F := F) hsteady.inv hsteady.force hsteady.alive ts).map
      fun tp' hend => ?_
    have hended := hend.1.after (Goes.acts h)
    split
    · refine resetUnless_ended hended (fun hg => ?_) s 0
      have hg : tp'.gone = false := hg
      rw [hend.2] at hg
      cases hg
    · exact hended
  | close reset =>
    rw [Exit.run]
    split
    · exact resetUnless_ended (closed_ended h) (by rintro ⟨⟩) s 0
    · exact closed_ended h
  | panic p => trivial

theorem stage_ended {x : Stage}
    (h : x.All (fun e tp' _ => Leaves F v e tp') fun tp' _ => Goes F v tp'.sndSide ∧ True) (mb : ℤ)
    (ts : List Turn) : EndsSettled F v (x.run mb ts) := by
  cases x with
  | next tp' s' => exact h.1.ended
  | leave e tp' s' => exact exit_ended h mb ts s'

theorem started_of_sendsSyn (h : st.sendsSyn) : 2 ≤ st.num := by
  cases st <;> first | cases h; done | decide

/-- The connection takes its numbers. -/
theorem Goes.begins (hforce : v.force = false) (halive : v.gone = false) (hblank : Blank v)
    (template : v.template = false) (state : w.tState.sendsSyn)
    (base : w.toSndBase = { v.toSndBase with
      tState := w.tState, template := true, iss := w.iss, sndUna := w.iss })
    (sndNxt : w.sndNxt = w.iss) (sndMax : w.sndMax = w.iss) (sentfin : w.sentfin = v.sentfin)
    (sent : w.sent = v.sent) (persist : w.persist = v.persist) (hiwat : w.sndHiwat ≤ SB_MAX) :
    Goes F v w := by
  have una : w.sndUna = w.iss := congrArg (·.sndUna) base
  have acked : w.acked = v.acked := congrArg (·.acked) base
  have soSnd : w.soSnd = v.soSnd := congrArg (·.soSnd) base
  have hinv : SndInv w :=
    .unsent_all hiwat (soSnd.trans hblank.soSnd) (acked.trans hblank.acked)
      (sndNxt.trans una.symm) (sndMax.trans una.symm) (sentfin.trans hblank.sentfin)
      (fun _ => ⟨una, persist.trans hblank.persist⟩) (not_sendsFin_of_sendsSyn state)
  refine ⟨Act.acts (.begins state template halive base sndNxt sndMax sentfin sent) fun _ => hinv,
    hinv, (congrArg (·.force) base).trans hforce,
    (congrArg (·.gone) base).trans halive, ?_⟩
  exact started_of_sendsSyn state

theorem Negotiates.goes (h : Negotiates tp tp') (hsteady : Steady tp.sndSide) :
    Goes F tp.sndSide tp'.sndSide := by
  obtain ⟨t, rfl, hle⟩ := h
  exact .quiet hsteady rfl (hle hsteady.inv.hiwat) (.inl rfl) rfl rfl rfl hsteady.inv.nxt_nonneg
    hsteady.inv.nxt_le

theorem Settled.steady (h : Settled v) (halive : v.gone = false) (hnum : 2 ≤ v.tState.num) :
    Steady v :=
  ⟨h.inv halive, h.force halive, halive, hnum⟩

theorem Settled.blank (h : Settled v) (halive : v.gone = false) (hnum : v.tState.num ≤ 1) :
    v.template = false ∧ Blank v := by
  have htemplate := (h.lives halive).resolve_left (by omega)
  exact ⟨htemplate, h.fresh halive htemplate⟩

/-- A SYN for a connection that listens. -/
theorem listen_ended {x : Tcpcb} (rttmin : ℕ) (rxtcur : ℤ) {sndHiwat : ℕ} (hforce : v.force = false)
    (halive : v.gone = false) (hblank : Blank v)
    (htemplate : v.template = false) (hstate : x.tState = .listen) (hside : x.sndSide =
      { v with template := true, rttmin := rttmin, rxtcur := rxtcur, sndHiwat := sndHiwat })
    (hle : sndHiwat ≤ SB_MAX) (env : Env) (s : Seg) (ts : List Turn) :
    EndsSettled F v ((process env x s).run env.mb ts) := by
  rw [process_listen env s hstate, listenStage]
  generalize ht : ({ tcpRcvseqinit (tcpSendseqinit
      { x with iss := env.iss, irs := s.tiSeq }) with
      acknow := true, tState := .synReceived, keep := TCPTV_KEEP_INIT } : Tcpcb) = t
  have htaken : t.sndSide = { x.sndSide with
      tState := .synReceived, iss := env.iss, sndUna := env.iss, sndNxt := env.iss
      sndMax := env.iss } := ht ▸ rfl
  rw [hside] at htaken
  have hgo : Goes F v t.sndSide := by
    rw [htaken]
    exact .begins hforce halive hblank htemplate rfl rfl rfl rfl rfl rfl rfl hle
  have hrest := trimthenstep6_moves (F := F) (fun _ => True) t s hgo.steady trivial
  exact stage_ended (hrest.after (fun _ => True) hgo) env.mb ts

/-- **`tcp_input`.** -/
theorem tcpInput_ended (h : Settled tp.sndSide) (halive : tp.gone = false) (a : Arrival) (env : Env)
    (ts : List Turn) : EndsSettled F tp.sndSide (tcpInput tp a env ts) := by
  unfold tcpInput
  split_ifs with hclosed hlisten hsyn hpcb
  · exact h.ended
  · exact h.ended
  · exact closed_ended (close_acts (.inl rfl))
  · obtain ⟨htemplate, hblank⟩ := h.blank halive (by show tp.tState.num ≤ 1; rw [hlisten]; decide)
    obtain ⟨t, hterms, hle⟩ := negotiates_tcpDooptions (Tcpcb.setRcvWnd
      { tp.wake with requestRScale := requestScale tp.rcvHiwat, template := true } env.mb)
      (has a.flags TH_SYN) env.route a.opts
    refine listen_ended t.rttmin t.rxtcur (h.force halive) halive hblank htemplate ?_ ?_
      (hle (h.inv halive).hiwat) env _ ts
    · rw [hterms]
      exact hlisten
    · rw [hterms]
      rfl
  · have hnum : 2 ≤ tp.tState.num := by
      cases hst : tp.tState <;> first | exact absurd hst hclosed | exact absurd hst hlisten | decide
    have hsteady : Steady tp.sndSide := h.steady halive hnum
    have hneg := negotiates_tcpDooptions tp.wake (has a.flags TH_SYN) env.route a.opts
    have hgo : Goes F tp.sndSide _ := hneg.goes hsteady
    have hstate : (tcpDooptions tp.wake (has a.flags TH_SYN) env.route a.opts).1.tState =
        tp.tState := by
      obtain ⟨t, hterms, -⟩ := hneg
      rw [hterms]
      rfl
    refine stage_ended ?_ env.mb ts
    refine Stage.All.after (fun _ => True) (process_moves env _ _ hgo.steady ?_) hgo
    rw [hstate]
    exact hlisten

/-! ## Timers -/

theorem Ended.trans (h : Ended F v w) (h' : Ended F w x) : Ended F v x :=
  h'.after h.acts

/-- Nothing of the send side changes but the timers and the terms. -/
theorem Settled.quiet (h : Settled v) (base : w.toSndBase = v.toSndBase)
    (hiwat : w.sndHiwat = v.sndHiwat ∨ w.sndHiwat ≤ SB_MAX)
    (persist : w.persist = v.persist ∨ v.persist ≠ 0) (sentfin : w.sentfin = v.sentfin)
    (sndMax : w.sndMax = v.sndMax) (sent : w.sent = v.sent)
    (sndNxt : w.sndNxt = v.sndNxt ∨ w.sndNxt = v.sndUna) : Ended F v w := by
  have hgone : w.gone = v.gone := congrArg (·.gone) base
  have hpersist : v.persist = 0 → w.persist = 0 := fun hzero =>
    (persist.resolve_right (not_not.mpr hzero)).trans hzero
  have hsound : Sound w := by
    intro hg
    have hv := hgone.symm.trans hg
    have hinv := h.inv hv
    have hiwat : w.sndHiwat ≤ SB_MAX := hiwat.elim (fun he => he ▸ hinv.hiwat) id
    refine SndInv.mono_persist (hinv.setNxt (w := { w with persist := v.persist }) base hiwat
      (.inl rfl) ?_ sentfin sndMax ?_) ?_
    · rcases sndNxt with hn | hn
      · exact (congrArg (dist · v.sndUna) hn).ge.trans' hinv.nxt_nonneg
      · exact ((congrArg (dist · v.sndUna) hn).trans (dist_same _)).ge
    · rcases sndNxt with hn | hn
      · exact (congrArg (dist · v.sndUna) hn).le.trans hinv.nxt_le
      · exact ((congrArg (dist · v.sndUna) hn).trans (dist_same _)).le.trans hinv.una_le
    · exact hpersist
  refine ⟨Act.acts (.quiet (base.trans (by rw [base])) sndMax sentfin sent fun _ => hpersist) hsound,
    fun hg => ?_, fun hg => ?_⟩
  · exact (congrArg (·.force) base).trans (h.force (hgone.symm.trans hg))
  · have hlives := h.lives (hgone.symm.trans hg)
    rw [base]
    exact hlives

theorem Settled.returns (h : Settled tp.sndSide) : Ended F tp.sndSide tp.returns.sndSide :=
  h.quiet rfl (.inl rfl) (.inl rfl) rfl rfl rfl (.inl rfl)

/-- Something that leaves a settled connection, and then a settled end. -/
theorem EndsSettled.after {x : Except Fail Tcpcb} (h : EndsSettled F w x) (hw : Ended F v w) :
    EndsSettled F v x :=
  Ends.imp h fun _ hend => hw.trans hend

theorem SndInv.forced (h : SndInv v) (force : Bool) : SndInv { v with force := force } :=
  { h with }

/-- When the persist timer expires, the probe would carry a FIN that is not recorded. -/
def Tcpcb.wouldLose (tp : Tcpcb) : Bool :=
  ({ tp with force := true, persist := 1 } : Tcpcb).slowStart.losesFin

theorem losesFin_slowStart (tp : Tcpcb) : tp.slowStart.losesFin =
    (tp.force && decide (tp.persist ≠ 0) &&
      decide (umin tp.sndWnd (if tp.isIdle ∧ (tp.idle : ℤ) ≥ tp.rxtcur then BitVec.ofNat 32 tp.maxseg
        else tp.sndCwnd) = 0) && tp.tState.sendsFin && !tp.sentfin &&
      decide (tp.sndNxt = tp.sndMax) && !decide (tp.off < tp.sndCc)) := by
  unfold Tcpcb.slowStart
  split <;> rfl

theorem wouldLose_of_losesFin {persist rxtshift : ℤ}
    (h : ({ tp with persist := persist, rxtshift := rxtshift, force := true } :
      Tcpcb).slowStart.losesFin) : tp.wouldLose := by
  rw [losesFin_slowStart] at h
  rw [Tcpcb.wouldLose, losesFin_slowStart]
  simp only [Bool.and_eq_true] at h ⊢
  exact ⟨⟨⟨⟨⟨⟨trivial, rfl⟩, h.1.1.1.1.2⟩, h.1.1.1.2⟩, h.1.1.2⟩, h.1.2⟩, h.2⟩

theorem tcpSetpersist_cases (tp : Tcpcb) : (∃ e, tcpSetpersist tp = .error e) ∨
    ∃ persist rxtshift, tcpSetpersist tp =
      .ok { tp with persist := persist, rxtshift := rxtshift } := by
  unfold tcpSetpersist
  split
  · exact .inl ⟨_, rfl⟩
  · exact .inr ⟨_, _, rfl⟩

section

variable (tp) (h : Settled tp.sndSide) (halive : tp.gone = false)

include h halive

theorem Settled.outputs (ts : List Turn) : EndsSettled F tp.sndSide (outputs tp ts) :=
  (outputs_ended (h.inv halive) (h.force halive) (h.lives halive) ts).imp
    fun _ hend => hend.1

theorem tcpDrop_settled (ts : List Turn) : EndsSettled F tp.sndSide (tcpDrop tp ts) :=
  (tcpDrop_ended (h.inv halive) (h.force halive) halive ts).imp fun _ hend => hend.1

/-- **The retransmission timer expires.**  The persist timer is not about to. -/
theorem timerRexmt_ended (hpersist : tp.persist = 0) (ts : List Turn) :
    Ends (fun _ => True) (fun tp' => Ended F tp.sndSide tp'.sndSide ∧ (tp'.gone ∨ tp'.persist ≠ 1))
      (timerRexmt tp ts) := by
  unfold timerRexmt
  split
  · have hshift : Ended F tp.sndSide
        ({ tp with rxtshift := TCP_MAXRXTSHIFT } : Tcpcb).sndSide :=
      h.quiet rfl (.inl rfl) (.inl rfl) rfl rfl rfl (.inl rfl)
    have hset := hshift.settled h
    exact (tcpDrop_ended (hset.inv halive) (hset.force halive) halive ts).imp
      fun _ hend => ⟨hshift.trans hend.1, .inl hend.2⟩
  · have hback : Ended F tp.sndSide tp.backOff.sndSide :=
      h.quiet rfl (.inl rfl) (.inl rfl) rfl rfl rfl (.inr rfl)
    have hset := hback.settled h
    refine (outputs_ended (hset.inv halive) (hset.force halive) (hset.lives halive) ts).imp
      fun tp' hend => ⟨hback.trans hend.1, .inr ?_⟩
    have hp : tp'.persist = tp.persist ∨ tp'.persist = 0 ∨ 10 ≤ tp'.persist := hend.2.persist
    omega

/-- **`tcp_output` with `t_force`.** -/
theorem forceOutput_ended
    (hlost : ({ tp with force := true } : Tcpcb).slowStart.losesFin → F.loses) (ts : List Turn) :
    EndsSettled F tp.sndSide (forceOutput tp ts) := by
  have hinv := (h.inv halive).forced true
  have hforce : Acts F tp.sndSide { tp.sndSide with force := true } :=
    Act.acts (.quiet rfl rfl rfl rfl fun _ => id) fun _ => hinv
  refine (outputs_acts hinv hlost ts).map fun tp' hsends => ?_
  have hback : Acts F tp'.sndSide { tp'.sndSide with force := false } :=
    Act.acts (.quiet rfl rfl rfl rfl fun _ => id) fun _ => hsends.inv.forced false
  exact ⟨(hforce.trans hsends.acts).trans hback, fun _ => rfl,
    fun _ => hsends.lives (h.lives halive)⟩

/-- **The persist timer expires.** -/
theorem timerPersist_ended (hpersist : tp.persist ≠ 0) (hlost : tp.wouldLose → F.loses)
    (ts : List Turn) : EndsSettled F tp.sndSide (timerPersist { tp with persist := 0 } ts) := by
  unfold timerPersist
  split
  · have hstop : Ended F tp.sndSide ({ tp with persist := 0 } : Tcpcb).sndSide :=
      h.quiet rfl (.inl rfl) (.inr hpersist) rfl rfl rfl (.inl rfl)
    exact EndsSettled.after (tcpDrop_settled _ (hstop.settled h) halive ts) hstop
  · rcases tcpSetpersist_cases { tp with persist := 0 } with ⟨e, hset⟩ | ⟨persist, rxtshift, hset⟩
    · rw [hset]
      trivial
    · rw [hset]
      have hrun : Ended F tp.sndSide
          ({ tp with persist := persist, rxtshift := rxtshift } : Tcpcb).sndSide :=
        h.quiet rfl (.inl rfl) (.inr hpersist) rfl rfl rfl (.inl rfl)
      refine EndsSettled.after (forceOutput_ended _ (hrun.settled h) halive ?_ ts) hrun
      exact fun hl => hlost (wouldLose_of_losesFin hl)

theorem timerKeep_ended (k : Probe) (ts : List Turn) :
    EndsSettled F tp.sndSide (timerKeep tp k ts) := by
  unfold timerKeep
  split_ifs
  · exact tcpDrop_settled _ h halive ts
  · exact tcpDrop_settled _ h halive ts
  · have hact := respond_acts (F := F) h.inv (x := tp.probe (tp.rcvSpace k.mb) k.ok)
      nofun
    exact ⟨hact, h.force, h.lives⟩
  · exact h.ended
  · exact h.ended

end

theorem timer2msl_ended (tp : Tcpcb) (h : Settled tp.sndSide) :
    Ended F tp.sndSide (timer2msl tp).sndSide := by
  unfold timer2msl
  split
  · exact h.ended
  · exact closed_ended (close_acts (.inl rfl))

/-- A timer ticks. -/
theorem tick_ended {timer : Tcpcb → ℤ} {set : Tcpcb → ℤ → Tcpcb}
    {expired : Tcpcb → Except Fail Tcpcb} (h : Settled tp.sndSide)
    (hset : timer tp ≠ 0 → ∀ n, Ended F tp.sndSide (set tp n).sndSide)
    (hexp : tp.gone = false → timer tp = 1 → EndsSettled F tp.sndSide (expired (set tp 0))) :
    EndsSettled F tp.sndSide (tick timer set expired tp) := by
  unfold tick
  split_ifs with hstop hlast
  · exact h.ended
  · rw [not_or] at hstop
    refine Ends.map (hexp (by simpa using hstop.1) (by omega)) fun tp' hend => ?_
    exact hend.trans (hend.settled h).returns
  · exact hset (fun h0 => hstop (.inr h0)) _

section

variable (h : Settled tp.sndSide) (hapart : tp.rexmt = 0 ∨ tp.persist = 0)

include h hapart

theorem rexmtTick_ended (ts : List Turn) :
    Ends (fun _ => True) (fun tp' => Ended F tp.sndSide tp'.sndSide ∧
      (tp' = tp ∨ tp'.gone ∨ tp'.persist ≠ 1))
      (tick Tcpcb.rexmt (fun tp n => { tp with rexmt := n }) (timerRexmt · ts) tp) := by
  have hset (n : ℤ) : Ended F tp.sndSide ({ tp with rexmt := n } : Tcpcb).sndSide :=
    h.quiet rfl (.inl rfl) (.inl rfl) rfl rfl rfl (.inl rfl)
  unfold tick
  split_ifs with hstop hlast
  · exact ⟨h.ended, .inl rfl⟩
  · rw [not_or] at hstop
    have hpersist := hapart.resolve_left hstop.2
    refine (timerRexmt_ended (F := F) { tp with rexmt := 0 } ((hset 0).settled h)
      (by simpa using hstop.1)
      hpersist ts).map fun tp' hend => ⟨?_, .inr hend.2⟩
    have hended := (hset 0).trans hend.1
    exact hended.trans (hended.settled h).returns
  · rw [not_or] at hstop
    refine ⟨hset _, .inr (.inr ?_)⟩
    show tp.persist ≠ 1
    omega

/-- **The timers tick.** -/
theorem tickAll_ended (hlost : tp.persist = 1 → tp.wouldLose → F.loses) (k : Ticks) :
    EndsSettled F tp.sndSide (tickAll tp k) := by
  refine Ends.bind (rexmtTick_ended (F := F) h hapart k.rexmt) fun tp₁ h₁ => ?_
  have hs₁ := h₁.1.settled h
  refine EndsSettled.after ?_ h₁.1
  refine Ends.bind (tick_ended (F := F) hs₁ ?_ ?_) fun tp₂ h₂ => ?_
  · intro hrun n
    exact hs₁.quiet rfl (.inl rfl) (.inr hrun) rfl rfl rfl (.inl rfl)
  · intro halive hone
    refine timerPersist_ended _ hs₁ halive (by omega) (fun hl => ?_) k.persist
    rcases h₁.2 with rfl | hgone | hne
    · exact hlost hone hl
    · rw [halive] at hgone
      cases hgone
    · exact absurd hone hne
  have hs₂ := h₂.settled hs₁
  refine EndsSettled.after ?_ h₂
  refine Ends.bind (tick_ended (F := F) hs₂ (fun _ _ => hs₂.ended) fun halive _ => ?_)
    fun tp₃ h₃ => ?_
  · exact timerKeep_ended { tp₂ with keep := 0 } hs₂ halive k.probe k.keep
  have hs₃ := h₃.settled hs₂
  refine EndsSettled.after ?_ h₃
  refine Ends.bind (tick_ended (F := F) hs₃ (fun _ _ => hs₃.ended) fun _ _ => ?_)
    fun tp₄ h₄ => ?_
  · exact timer2msl_ended { tp₃ with msl := 0 } hs₃
  · have hage : tp₄.age.sndSide = tp₄.sndSide := by
      unfold Tcpcb.age
      split <;> rfl
    show Ended F tp₃.sndSide tp₄.age.sndSide
    rw [hage]
    exact h₄

theorem tcpSlowtimo_ended (hlost : tp.persist = 1 → tp.wouldLose → F.loses) (k : Ticks) :
    EndsSettled F tp.sndSide (tcpSlowtimo tp k) := by
  refine Ends.map ?_ fun _ hend => hend
  split
  · exact h.ended
  · exact tickAll_ended h hapart hlost k

end

/-! ## Requests of the user -/

theorem Settled.cantSend (h : Settled v) : Ended F v { v with cantSendMore := true } := by
  refine ⟨Act.acts (.turn rfl rfl rfl rfl (fun _ => id) (fun hg => ⟨hg, rfl⟩) (fun _ => id) id
    Or.inl) fun hg => ?_, h.force, h.lives⟩
  exact { h.inv hg with shut := fun _ => rfl }

/-- The user closes a connection whose SYN is not acknowledged. -/
def Tcpcb.closesEarly (tp : Tcpcb) : Bool :=
  tp.tState.isOpen && decide (3 ≤ tp.tState.num) && decide (tp.acked = 0)

theorem outputUnlessGone_ended (h : Settled tp.sndSide) (ts : List Turn) :
    EndsSettled F tp.sndSide (outputUnlessGone tp ts) := by
  unfold outputUnlessGone
  split
  · exact h.ended
  · next hgone => exact Settled.outputs tp h (by simpa using hgone) ts

theorem num_le_of_sendsSyn (h : st.sendsSyn) : st.num ≤ 3 := by
  cases st <;> first | cases h; done | decide

section

variable (h : Settled tp.sndSide) (halive : tp.gone = false)

include h halive

theorem closeState_ended (hcant : tp.cantSendMore) (hearly : tp.closesEarly → F.early) :
    Ended F tp.sndSide tp.closeState.sndSide := by
  have hclose : Ended F tp.sndSide (tcpClose { tp with tState := .closed }).sndSide :=
    closed_ended (close_acts (.inr rfl))
  have hturn {st st' : TState} (hst : tp.tState = st) (hopen : st.isOpen) (hnum : 3 ≤ st.num)
      (hsyn : st'.sendsSyn = false) (hnum' : 2 ≤ st'.num) (hshut : st'.isOpen = false) :
      Ended F tp.sndSide ({ tp with tState := st' } : Tcpcb).sndSide := by
    have hopen : tp.tState.isOpen := hst ▸ hopen
    have hnum : 3 ≤ tp.tState.num := hst ▸ hnum
    refine Goes.ended (.turn (h.steady halive (by exact le_trans (by omega) hnum)) rfl rfl rfl rfl
      rfl rfl (.inl rfl) hnum' hsyn (fun _ => .inr ⟨hopen, fun hzero => hearly ?_⟩) ?_ id
      fun _ => hcant)
    · have hzero : tp.acked = 0 := hzero
      simp [Tcpcb.closesEarly, hopen, hnum, hzero]
    · exact fun hw => nomatch hshut.symm.trans hw
  unfold Tcpcb.closeState
  split
  · exact hclose
  · exact hclose
  · exact hclose
  · next hst => exact hturn hst rfl (by decide) rfl (by decide) rfl
  · next hst => exact hturn hst rfl (by decide) rfl (by decide) rfl
  · next hst => exact hturn hst rfl (by decide) rfl (by decide) rfl
  · exact h.ended

/-- **`tcp_usrclosed`.** -/
theorem tcpUsrclosed_ended (hcant : tp.cantSendMore) (hearly : tp.closesEarly → F.early) :
    Ended F tp.sndSide (tcpUsrclosed tp).sndSide := by
  have hclose := closeState_ended h halive hcant hearly
  unfold tcpUsrclosed
  split
  · exact hclose.trans (hclose.settled h).cantSend
  · exact hclose

/-- The user closes the connection, and the FIN is sent. -/
theorem shut_ended {t : Tcpcb} (hside : t.sndSide = { tp.sndSide with cantSendMore := true })
    (hearly : tp.closesEarly → F.early) (ts : List Turn) :
    EndsSettled F tp.sndSide (outputUnlessGone (tcpUsrclosed t) ts) := by
  have hcant : Ended F tp.sndSide t.sndSide := hside ▸ h.cantSend
  have hset := hcant.settled h
  have hgone : t.gone = tp.gone := congrArg (·.gone) hside
  have hclosed : Ended F t.sndSide (tcpUsrclosed t).sndSide := by
    refine tcpUsrclosed_ended hset (hgone.trans halive)
      (congrArg (·.cantSendMore) hside) fun hearly' => hearly ?_
    have hsame := congrArg (fun v : SndSide =>
      v.tState.isOpen && decide (3 ≤ v.tState.num) && decide (v.acked = 0)) hside
    exact hsame.symm.trans hearly'
  exact EndsSettled.after (EndsSettled.after (outputUnlessGone_ended (hclosed.settled hset) ts)
    hclosed) hcant

theorem tcpDisconnect_ended (hearly : tp.closesEarly → F.early) (ts : List Turn) :
    EndsSettled F tp.sndSide (tcpDisconnect tp ts) := by
  unfold tcpDisconnect
  split_ifs
  · exact closed_ended (close_acts (.inl rfl))
  · exact tcpDrop_settled _ h halive ts
  · exact shut_ended h halive rfl hearly ts

/-- The user adds data to the send buffer. -/
theorem send_ended {t : Tcpcb} {m : List (BitVec 8)}
    (hstate : TState.established.num ≤ tp.tState.num)
    (hopen : tp.cantSendMore = false) (hroom : tp.soSnd.length + m.length ≤ tp.sndHiwat + 1024)
    (hside : t.sndSide = { tp.sndSide with soSnd := tp.soSnd ++ m }) :
    Ended F tp.sndSide t.sndSide := by
  have hinv := h.inv halive
  have hnum : 4 ≤ tp.tState.num := hstate
  have hnoshut : ∀ hs : tp.sentfin ∨ tp.tState.sendsFin, False := fun hs => by
    have hshut : tp.cantSendMore = true := hinv.shut hs
    rw [hopen] at hshut
    cases hshut
  have hgrow : tp.sndSide.sendable ≤ ({ tp.sndSide with soSnd := tp.soSnd ++ m } :
      SndSide).sendable := by
    simp only [SndBase.sendable, Tcpcb.sndSide, List.length_append]
    split_ifs <;> omega
  rw [hside]
  refine ⟨Act.acts (.send m hopen (le_trans (by omega) hnum) rfl) fun _ => ?_, h.force, h.lives⟩
  refine { hinv with
    room := ?_
    max_le := ?_
    syn := fun hsyn => ?_
    fin := fun hs => ?_ }
  · have := hinv.hiwat
    simp only [Tcpcb.sndSide, List.length_append] at this ⊢
    omega
  · exact hinv.max_le.trans (Int.add_le_add_right hgrow _)
  · have hsyn : tp.tState.sendsSyn := hsyn
    have := num_le_of_sendsSyn hsyn
    omega
  · exact absurd (.inl hs) hnoshut

/-! ## Events -/

/-- Data is added to the send buffer after the user has shut down sending. -/
def Event.late (tp : Tcpcb) : Event → Bool
  | .send _ _ | .sendoob _ _ _ => tp.cantSendMore
  | _ => false

/-- The persist timer expires, and the probe carries a FIN that is not recorded. -/
def Event.loses (tp : Tcpcb) : Event → Bool
  | .slowtimo _ => decide (tp.persist = 1) && tp.wouldLose
  | _ => false

/-- The user closes a connection whose SYN is not acknowledged. -/
def Event.early (tp : Tcpcb) : Event → Bool
  | .shutdown _ | .disconnect _ | .detach _ => tp.closesEarly
  | _ => false

/-- The faults of an event. -/
def Event.faults (e : Event) (tp : Tcpcb) : Faults := ⟨e.loses tp, e.early tp⟩

theorem pruConnect_ended (hstate : tp.tState = .closed) (iss : BitVec 32) (ts : List Turn) :
    EndsSettled F tp.sndSide (pruConnect tp iss ts) := by
  obtain ⟨htemplate, hblank⟩ := h.blank halive (by show tp.tState.num ≤ 1; rw [hstate]; decide)
  refine outputs_goes _ ?_ ts
  exact .begins (h.force halive) halive hblank htemplate rfl rfl rfl rfl rfl rfl rfl
    (h.inv halive).hiwat

theorem pruSendoob_ended {m : List (BitVec 8)} (hstate : TState.established.num ≤ tp.tState.num)
    (hopen : tp.cantSendMore = false) (hroom : tp.soSnd.length + m.length ≤ tp.sndHiwat + 1024)
    (space : ℤ) (ts : List Turn) : EndsSettled F tp.sndSide (pruSendoob tp m space ts) := by
  unfold pruSendoob
  split
  · exact h.ended
  · have hsend : Ended F tp.sndSide ({ tp with
        soSnd := tp.soSnd ++ m
        sndUp := tp.sndUna + BitVec.ofNat 32 (tp.soSnd ++ m).length } : Tcpcb).sndSide :=
      send_ended h halive hstate hopen hroom rfl
    have hset := hsend.settled h
    refine EndsSettled.after (forceOutput_ended _ hset halive (fun hl => ?_) ts) hsend
    -- without a shutdown there is no FIN to lose
    rw [losesFin_slowStart] at hl
    simp only [Bool.and_eq_true] at hl
    have hshut : tp.cantSendMore := (h.inv halive).shut (.inr hl.1.1.1.2)
    rw [hopen] at hshut
    cases hshut

section

variable {e : Event} (hapart : tp.rexmt = 0 ∨ tp.persist = 0) (hallowed : e.allowed tp)
  (hlate : e.late tp = false)

include hapart hallowed hlate

theorem act_ended : EndsSettled (e.faults tp) tp.sndSide (e.act tp) := by
  cases e with
  | input a env ts => exact tcpInput_ended h halive a env ts
  | connect iss ts =>
    exact pruConnect_ended h halive (by simpa [Event.allowed] using hallowed) iss ts
  | send m ts =>
    simp only [Event.allowed, Bool.and_eq_true, decide_eq_true_eq] at hallowed
    have hsend : Ended (Event.faults (.send m ts) tp) tp.sndSide
        ({ tp with soSnd := tp.soSnd ++ m } : Tcpcb).sndSide :=
      send_ended h halive hallowed.1 hlate (by omega) rfl
    exact EndsSettled.after (Settled.outputs _ (hsend.settled h) halive ts) hsend
  | sendoob m space ts =>
    simp only [Event.allowed, Bool.and_eq_true, decide_eq_true_eq] at hallowed
    exact pruSendoob_ended h halive hallowed.1 hlate hallowed.2 space ts
  | rcvd n mark atMark ts =>
    exact Settled.outputs { tp with
      soRcv := tp.soRcv.drop n, oobmark := mark, rcvAtMark := atMark } h halive ts
  | rcvoob peek =>
    show Ended _ tp.sndSide (pruRcvoob tp peek).sndSide
    have hside : (pruRcvoob tp peek).sndSide = tp.sndSide := by
      unfold pruRcvoob
      split <;> rfl
    rw [hside]
    exact h.ended
  | shutdown ts => exact shut_ended h halive rfl id ts
  | disconnect ts => exact tcpDisconnect_ended h halive id ts
  | detach ts =>
    refine Ends.map ?_ fun _ hend => hend
    split
    · exact tcpDisconnect_ended h halive id ts
    · exact closed_ended (close_acts (.inl rfl))
  | abort ts => exact tcpDrop_settled _ h halive ts
  | slowtimo k =>
    refine tcpSlowtimo_ended h hapart (fun hone hl => ?_) k
    simp [Event.faults, Event.loses, hone, hl]
  | fasttimo ts =>
    show EndsSettled _ tp.sndSide (tcpFasttimo tp ts)
    unfold tcpFasttimo
    split
    · exact Settled.outputs { tp with delack := false, acknow := true } h halive ts
    · exact h.ended
  | setSndHiwat n =>
    simp only [Event.allowed, decide_eq_true_eq] at hallowed
    exact h.quiet rfl (.inr hallowed) (.inl rfl) rfl rfl rfl (.inl rfl)
  | sorflush | accept | quench | notify _ | setNodelay _ | setMaxseg _ | setOptions _ _ _
  | setRcvHiwat _ => exact h.ended

/-- **Every event** leads by acts from a settled connection to a settled one. -/
theorem outcome_acts : EndsSettled (e.faults tp) tp.sndSide (e.outcome tp) :=
  Ends.map (act_ended h halive hapart hallowed hlate) fun _ hend =>
    hend.trans (hend.settled h).returns

end

end

theorem started_of_sendsFin (h : st.sendsFin) : 2 ≤ st.num := by
  cases st <;> first | cases h; done | decide

theorem settled_blank (hblank : Blank v) (force : v.force = false) (template : v.template = false)
    (hiwat : v.sndHiwat ≤ SB_MAX) (sndNxt : v.sndNxt = v.sndUna) (sndMax : v.sndMax = v.sndUna) :
    Settled v := by
  have hnum := hblank.state
  refine ⟨fun _ => .unsent_all hiwat hblank.soSnd hblank.acked sndNxt sndMax hblank.sentfin
    (fun hsyn => ?_) (Bool.eq_false_iff.mpr fun hfin => ?_), fun _ => force, fun _ => .inr template,
    fun _ _ => hblank⟩
  · have := started_of_sendsSyn hsyn
    omega
  · have := started_of_sendsFin hfin
    omega

theorem settled_started (h : Started tp) : Settled tp.sndSide := by
  cases h with
  | active rfc1323 compat42 now so hsnd hrcv =>
    exact settled_blank ⟨Nat.zero_le _, rfl, rfl, rfl, rfl, nofun, rfl⟩ rfl rfl
      hsnd rfl rfl
  | passive rfc1323 compat42 now so hsnd hrcv =>
    exact settled_blank ⟨le_rfl, rfl, rfl, rfl, rfl, nofun, rfl⟩ rfl rfl hsnd rfl
      rfl

theorem step_acts {e : Event} (h : Settled tp.sndSide) (hapart : tp.Apart)
    (hlate : e.late tp = false) (hstep : step tp e = some tp') :
    Ended (e.faults tp) tp.sndSide tp'.sndSide := by
  unfold step at hstep
  split at hstep
  · cases hstep
  · next hok =>
      simp only [not_or, Bool.not_eq_true, Bool.not_eq_true', Bool.not_eq_false] at hok
      cases hout : e.outcome tp with
      | error f =>
        rw [hout] at hstep
        cases hstep
      | ok t =>
        have hended := outcome_acts h hok.1 hapart.now.1 hok.2 hlate
        rw [hout] at hstep hended
        cases hstep
        exact hended

/-- What every act keeps, any number of them keeps. -/
theorem Acts.invariant {Q : SndSide → Prop} (hacts : Acts F v w)
    (hQ : ∀ v w, Sound v → Fresh v → Act F v w → Q v → Q w) (hsound : Sound v) (hfresh : Fresh v)
    (h : Q v) : Q w := by
  induction hacts with
  | refl => exact h
  | tail hacts hact ih =>
    exact hQ _ _ (Acts.sound hacts hsound) (acts_fresh hacts hfresh) hact.1 ih

/-- **The invariant rule.**  What holds of a connection at its beginning and is kept by the
acts of every event that meets `G` holds after every run whose events all do. -/
theorem run_acts {Q : SndSide → Prop} {G : Tcpcb → Event → Prop} {start : Tcpcb}
    {events : List Event} (hstart : Started start) (hQ₀ : Q start.sndSide)
    (hlate : ∀ tp e, G tp e → e.late tp = false)
    (hQ : ∀ tp e, G tp e → ∀ v w, Sound v → Fresh v → Act (e.faults tp) v w → Q v → Q w)
    (hmeets : Schedule.Along step G start events)
    (hrun : Schedule.run step start events = some tp) :
    Q tp.sndSide ∧ Settled tp.sndSide := by
  have hinv := Schedule.run_invariant
    (I := fun tp => (Q tp.sndSide ∧ Settled tp.sndSide) ∧ tp.Apart) ?_
    ⟨⟨hQ₀, settled_started hstart⟩, apart_started hstart⟩ hmeets hrun
  · exact hinv.1
  · rintro s e t ⟨⟨hq, hset⟩, hapart⟩ hG hstep
    have hended := step_acts hset hapart (hlate s e hG) hstep
    refine ⟨⟨?_, hended.settled hset⟩, kept_apart.step (within_any e) hapart hstep⟩
    exact hended.acts.invariant (hQ s e hG) hset.inv hset.fresh hq

end BSDLite2.Tcp
