import BSDLite2.Netinet.TcpSeq
import Mathlib.Logic.Relation

/-!
# What can happen to the send side

Whatever a connection does, its send side changes by *acts* of a few kinds: the state turns,
a segment is sent by `tcp_output` or by `tcp_respond`, the user adds data, an acknowledgement
takes some away, and at the beginning the numbers are set.  `Act` lists them with what holds
when they happen, and `Acts` is any number of them.

* `outputs_acts` — a call of `tcp_output` consists of acts.  `TcpRun` goes through the other
  functions, up to `outcome_acts` for every event.

Two faults are possible, and an event that commits none of them has acts without them
(`Faults`): a probe into a closed window can carry a FIN that is not recorded, and the user
can close a connection whose SYN has not been acknowledged.
-/

namespace BSDLite2.Tcp

open Serial Outcome

/-! ## Acts -/

/-- What can go wrong in an act. -/
structure Faults where
  /-- a probe carries a FIN that is not recorded -/
  loses : Prop
  /-- the user closes a connection whose SYN is not acknowledged -/
  early : Prop

/-- What is acknowledged leaves the send buffer. -/
def SndBase.ackTo (v : SndBase) (ack : BitVec 32) : SndBase :=
  { v with
    sndUna := ack
    acked := v.acked + dist ack v.sndUna
    soSnd := v.soSnd.drop (dist ack v.sndUna).toNat }

/-- **An act** on the send side. -/
inductive Act (F : Faults) (v w : SndSide) : Prop
  /-- the state changes, `snd_nxt` or the timers -/
  | turn
      (base : w.toSndBase = { v.toSndBase with
        tState := w.tState, force := w.force, template := w.template
        cantSendMore := w.cantSendMore, gone := w.gone })
      (sndMax : w.sndMax = v.sndMax) (sentfin : w.sentfin = v.sentfin) (sent : w.sent = v.sent)
      (persist : v.soSnd = [] → v.persist = 0 → w.persist = 0)
      (alive : w.gone = false → v.gone = false ∧ w.template = v.template)
      (started : w.gone = false → 2 ≤ w.tState.num → 2 ≤ v.tState.num)
      (reopen : w.tState.isOpen → v.tState.isOpen)
      (closes : w.tState.sendsFin → v.tState.sendsFin ∨
        v.tState.isOpen ∧ (v.acked = 0 → F.early))
  /-- `tcp_output` sends a segment -/
  | emit (x : Sent) (via : x.via = .output) (base : w.toSndBase = v.toSndBase)
      (template : v.template) (sent : w.sent = x :: v.sent)
      (seq : x.seq + ulong (seqLen x.flags x.data.length) = pos v.sndUna (x.stop - v.acked))
      (grows : dist v.sndMax v.sndUna ≤ dist w.sndMax v.sndUna)
      (recorded : x.stop ≤ v.acked + dist w.sndMax v.sndUna ∨ F.loses)
      (sentfin : v.sentfin → w.sentfin)
      (fin : w.sentfin → v.sentfin = false → v.tState.sendsFin ∧ has x.flags TH_FIN ∧
        (v.acked ≠ 0 → x.stop ≤ v.acked + v.soSnd.length + 1))
  /-- `tcp_respond` sends a segment -/
  | respond (x : Sent) (via : x.via ≠ .output) (side : w = { v with sent := x :: v.sent })
  /-- the user has more data to send -/
  | send (m : List (BitVec 8)) (open_ : v.cantSendMore = false) (started : 2 ≤ v.tState.num)
      (side : w = { v with soSnd := v.soSnd ++ m })
  /-- numbers are acknowledged, with which the state may change -/
  | ack (ack : BitVec 32) (nonneg : 0 ≤ dist ack v.sndUna)
      (le : dist ack v.sndUna ≤ dist v.sndMax v.sndUna)
      (base : w.toSndBase = { v.toSndBase.ackTo ack with
        tState := w.tState, template := w.template, cantSendMore := w.cantSendMore
        gone := w.gone, closedBy := w.closedBy })
      (sndMax : w.sndMax = v.sndMax) (sentfin : w.sentfin = v.sentfin) (sent : w.sent = v.sent)
      (started : 2 ≤ v.tState.num) (alive : v.gone = false)
      (template : w.gone = false → w.template = v.template)
      (state : w.tState = v.tState ∧ w.closedBy = v.closedBy ∨
        v.tState.isOpen ∧ w.tState = .established ∧ w.closedBy = v.closedBy ∨
        v.tState.sendsFin ∧ (v.soSnd.length : ℤ) < dist ack v.sndUna ∧
          (w.tState.sendsFin = false ∨ w.gone) ∧ w.tState.isOpen = false ∧
          w.closedBy = w.acked :: v.closedBy)
  /-- the connection takes its numbers -/
  | begins (state : w.tState.sendsSyn) (template : v.template = false) (alive : v.gone = false)
      (base : w.toSndBase = { v.toSndBase with
        tState := w.tState, template := true, iss := w.iss, sndUna := w.iss })
      (sndNxt : w.sndNxt = w.iss) (sndMax : w.sndMax = w.iss) (sentfin : w.sentfin = v.sentfin)
      (sent : w.sent = v.sent)

/-- The send side is in order as long as the connection is there. -/
def Sound (v : SndSide) : Prop := v.gone = false → SndInv v

/-- **Any number of acts**, each of which leaves the send side in order. -/
def Acts (F : Faults) : SndSide → SndSide → Prop :=
  Relation.ReflTransGen fun v w => Act F v w ∧ Sound w

variable {F : Faults}

theorem Acts.refl (v : SndSide) : Acts F v v :=
  Relation.ReflTransGen.refl

variable {v w : SndSide}

theorem Acts.trans {x : SndSide} (h : Acts F v w) (h' : Acts F w x) : Acts F v x :=
  Relation.ReflTransGen.trans h h'

theorem Act.acts (h : Act F v w) (hw : Sound w) : Acts F v w :=
  .single ⟨h, hw⟩

theorem Acts.sound (h : Acts F v w) (hv : Sound v) : Sound w := by
  cases h with
  | refl => exact hv
  | tail _ hact => exact hact.2

/-- `snd_nxt` and the timers change. -/
theorem Act.quiet (base : w.toSndBase = { v.toSndBase with force := w.force })
    (sndMax : w.sndMax = v.sndMax) (sentfin : w.sentfin = v.sentfin) (sent : w.sent = v.sent)
    (persist : v.soSnd = [] → v.persist = 0 → w.persist = 0) : Act F v w := by
  obtain ⟨hstate, -, htemplate, -, -, -, hcant, hgone, -⟩ := SndBase.mk.inj base
  refine .turn ?_ sndMax sentfin sent persist ?_ ?_ ?_ ?_
  · rw [hstate, htemplate, hcant, hgone]
    exact base
  · exact fun hw => ⟨hgone.symm.trans hw, htemplate⟩
  · exact fun _ hw => hstate ▸ hw
  · exact fun hw => hstate ▸ hw
  · exact fun hw => .inl (hstate ▸ hw)

/-! ## `tcp_output` -/

section Output

variable {F : Faults} {tp : Tcpcb} {p : Plan}

/-- The next segment is a probe into a closed window that carries a FIN for the first time,
at the number `snd_max`. -/
def Tcpcb.losesFin (tp : Tcpcb) : Bool :=
  tp.force && decide (tp.persist ≠ 0) && decide (tp.sendWin = 0) && tp.tState.sendsFin &&
    !tp.sentfin && decide (tp.sndNxt = tp.sndMax) && !decide (tp.off < tp.sndCc)

section

variable (tp) (p)

/-- The flags that are added do not take a sequence number. -/
theorem has_push {bit : BitVec 8} (h : TH_PUSH &&& bit = 0) :
    has (tp.push p) bit = has p.flags bit := by
  unfold Tcpcb.push
  split
  · exact has_or _ h
  · rfl

section

variable (win : ℤ) (data : List (BitVec 8)) (ok : Bool)

theorem has_segment {bit : BitVec 8} (hpush : TH_PUSH &&& bit = 0) (hurg : TH_URG &&& bit = 0) :
    has (tp.segment p win data ok).flags bit = has p.flags bit := by
  simp only [Tcpcb.segment]
  split
  · rw [has_or _ hurg, has_push tp p hpush]
  · exact has_push tp p hpush

theorem segment_flags (len : ℤ) : seqLen (tp.segment p win data ok).flags len = seqLen p.flags len ∧
      has (tp.segment p win data ok).flags TH_FIN = has p.flags TH_FIN := by
  have hsyn := has_segment tp p win data ok (show TH_PUSH &&& TH_SYN = 0 by decide) (by decide)
  have hfin := has_segment tp p win data ok (show TH_PUSH &&& TH_FIN = 0 by decide) (by decide)
  rw [seqLen_eq, hsyn, hfin]
  exact ⟨rfl, rfl⟩

/-- The end of a segment, as a number and as a position. -/
theorem segment_seq :
    (tp.segment p win data ok).seq + ulong (seqLen (tp.segment p win data ok).flags data.length) =
      pos tp.sndUna ((tp.segment p win data ok).stop - tp.acked) := by
  rw [(segment_flags tp p win data ok _).1]
  simp only [Tcpcb.segment]
  rw [show ∀ a b c : ℤ, a + b + c - a = b + c by intros; omega, ← pos_add_ofInt, pos_dist, ulong]

end

theorem sentfin_note (h : (tp.note p).sentfin) : tp.sentfin ∨ has p.flags TH_FIN := by
  unfold Tcpcb.note at h
  split_ifs at h
  · obtain ⟨rexmt, persist, rxtshift, -, hside⟩ := transmit_side tp p
    have hfin : (tp.advance p).sentfin := (congrArg SndSide.sentfin hside).symm.trans h
    simpa [Tcpcb.advance] using hfin
  · exact .inl h
  · exact .inl h

end

theorem has_syn_fin (f : BitVec 8) :
    has f (TH_SYN ||| TH_FIN) = (has f TH_SYN || has f TH_FIN) := by
  decide +revert

variable {data : List (BitVec 8)}

/-- Where a segment ends. -/
theorem stop_segment (tp : Tcpcb) (p : Plan) (hlen : (data.length : ℤ) = p.len) (win : ℤ)
    (ok : Bool) : (tp.segment p win data ok).stop =
      tp.acked + dist tp.sndNxt tp.sndUna + seqLen p.flags p.len ∨
    seqLen p.flags p.len = 0 ∧
      (tp.segment p win data ok).stop = tp.acked + dist tp.sndMax tp.sndUna := by
  simp only [Tcpcb.segment, Tcpcb.tiSeq, hlen, has_syn_fin]
  split
  · exact .inl rfl
  · next hnone =>
      simp only [not_or, not_not, Bool.or_eq_true] at hnone
      have hzero : seqLen p.flags p.len = 0 := by
        rw [seqLen_eq, hnone.1, if_neg hnone.2.1.1, if_neg hnone.2.1.2]
        rfl
      exact .inr ⟨hzero, by rw [hzero, add_zero]⟩

/-- A probe with a FIN that has not been sent. -/
def Plan.Loses (p : Plan) (tp : Tcpcb) : Prop :=
  tp.force ∧ tp.persist ≠ 0 ∧ has p.flags TH_FIN ∧ tp.sentfin = false ∧ tp.sndNxt = tp.sndMax

section

variable (h : SndInv tp.sndSide) (r : p.Ready tp) (hlen : (data.length : ℤ) = p.len) (win : ℤ)
  (ok : Bool)

include h r hlen

/-- **A segment is recorded**, unless it is a probe with a FIN. -/
theorem segment_recorded (hlost : p.Loses tp → F.loses) :
    (tp.segment p win data ok).stop ≤ tp.acked + dist (tp.dragUp.note p).sndMax tp.sndUna ∨
      F.loses := by
  have hside := sndSide_dragUp tp
  have hdrag : SndInv tp.dragUp.sndSide := hside ▸ h
  obtain ⟨-, hout, -, hdata, hall⟩ := note_spec hdrag (r.congr hside)
  have hnxt : tp.dragUp.sndNxt = tp.sndNxt := congrArg SndSide.sndNxt hside
  have huna : tp.dragUp.sndUna = tp.sndUna := congrArg (fun v : SndSide => v.sndUna) hside
  have hforce : tp.dragUp.force = tp.force := congrArg (fun v : SndSide => v.force) hside
  have hpersist : tp.dragUp.persist = tp.persist := congrArg SndSide.persist hside
  have hgrows := hout.grows
  rw [hside] at hgrows
  rw [hnxt, huna] at hdata hall
  rw [hforce, hpersist] at hall
  have hgrows : dist tp.sndMax tp.sndUna ≤ dist (tp.dragUp.note p).sndMax tp.sndUna := hgrows
  rcases stop_segment tp p hlen win ok with hstop | ⟨-, hstop⟩
  · rw [hstop]
    by_cases hprobe : tp.force ∧ tp.persist ≠ 0
    · have hnosyn : ¬ has p.flags TH_SYN := by
        intro hsyn
        rw [r.syn] at hsyn
        exact hprobe.2 (h.syn hsyn).2.2.2
      rw [seqLen_eq, if_neg hnosyn]
      by_cases hfin : has p.flags TH_FIN
      · have hzero := r.probe hprobe.1 hprobe.2 hfin
        cases hsent : tp.sentfin with
        | true =>
          have := r.again hfin hsent
          exact .inl (by omega)
        | false =>
          by_cases hmax : tp.sndNxt = tp.sndMax
          · exact .inr (hlost ⟨hprobe.1, hprobe.2, hfin, hsent, hmax⟩)
          · have hne : dist tp.sndNxt tp.sndUna ≠ dist tp.sndMax tp.sndUna := fun heq =>
              hmax (by rw [← pos_dist tp.sndNxt tp.sndUna, heq, pos_dist])
            have hle := h.places.2.1
            exact .inl (by omega)
      · rw [if_neg hfin]
        exact .inl (by omega)
    · have := hall hprobe
      exact .inl (by omega)
  · exact .inl (by omega)

/-- A FIN that is sent for the first time follows the last byte. -/
theorem segment_fin (hfin : has p.flags TH_FIN) (hsent : tp.sentfin = false)
    (hacked : tp.acked ≠ 0) : (tp.segment p win data ok).stop ≤ tp.acked + tp.soSnd.length + 1 := by
  have hmax := h.max_le
  have hle := h.nxt_le
  have hnosyn : ¬ has p.flags TH_SYN := fun hsyn => by
    rw [r.not_fin hsyn] at hfin
    cases hfin
  have hseq : seqLen p.flags p.len = p.len + 1 := by
    rw [seqLen_eq, if_neg hnosyn, if_pos hfin, add_zero]
  simp only [Tcpcb.sndSide, SndBase.sendable, if_neg hacked, hsent] at hmax hle
  rcases stop_segment tp p hlen win ok with hstop | ⟨hzero, -⟩
  · rw [hstop]
    rcases r.within with hzero | hwithin
    · simp only [Bool.false_eq_true, if_false] at hmax
      omega
    · omega
  · omega

end

theorem sndSide_log (tp : Tcpcb) (x : Sent) :
    (tp.log x).sndSide = { tp.sndSide with sent := x :: tp.sent } := rfl

variable {v : SndSide}

theorem SndInv.logged (h : SndInv v) (x : Sent) : SndInv { v with sent := x :: v.sent } :=
  { h with }

/-- **Acts of `tcp_output`.** -/
structure Sends (F : Faults) (v w : SndSide) : Prop where
  inv : SndInv w
  acts : Acts F v w
  output : Output v w
  /-- the persist timer is not set to a value below its minimum -/
  persist : w.persist = v.persist ∨ w.persist = 0 ∨ TCPTV_PERSMIN ≤ w.persist

theorem Sends.refl (h : SndInv v) : Sends F v v := ⟨h, .refl v, .refl v, .inl rfl⟩

theorem Sends.trans {w x : SndSide} (h : Sends F v w) (h' : Sends F w x) : Sends F v x := by
  refine ⟨h'.inv, h.acts.trans h'.acts, h.output.trans h'.output, ?_⟩
  rcases h'.persist with hsame | hset
  · rw [hsame]
    exact h.persist
  · exact .inr hset

/-- Nothing is sent: only `snd_nxt` and the timers change. -/
theorem Sends.quiet (inv : SndInv w) (base : w.toSndBase = v.toSndBase)
    (sndMax : w.sndMax = v.sndMax) (sentfin : w.sentfin = v.sentfin) (sent : w.sent = v.sent)
    (persist : w.persist = v.persist ∨ w.persist = 0 ∨
      v.soSnd ≠ [] ∧ TCPTV_PERSMIN ≤ w.persist) : Sends F v w := by
  have hzero : v.soSnd = [] → v.persist = 0 → w.persist = 0 := by
    intro hnil hv
    rcases persist with hsame | hzero | hset
    · exact hsame.trans hv
    · exact hzero
    · exact absurd hnil hset.1
  refine ⟨inv, Act.acts (.quiet (base.trans ?_) sndMax sentfin sent hzero) fun _ => inv,
    ⟨base, sndMax ▸ le_rfl, fun h => sentfin ▸ h, sent ▸ List.suffix_rfl⟩,
    persist.imp_right (Or.imp_right And.right)⟩
  rw [base]

theorem persist_note (tp : Tcpcb) (p : Plan) :
    (tp.note p).persist = tp.persist ∨ (tp.note p).persist = 0 := by
  unfold Tcpcb.note
  split_ifs
  · obtain ⟨rexmt, persist, rxtshift, hp, hside⟩ := transmit_side tp p
    exact hp.imp (congrArg SndSide.persist hside).trans (congrArg SndSide.persist hside).trans
  · exact .inl rfl
  · exact .inl rfl

/-- **A segment is sent.** -/
theorem noted_acts (h : SndInv tp.sndSide) (r : p.Ready tp) (hlen : (data.length : ℤ) = p.len)
    (htemplate : tp.template) (win : ℤ) (ok : Bool) (hlost : p.Loses tp → F.loses) :
    Sends F tp.sndSide (tp.noted p win data ok).sndSide := by
  have hside := sndSide_dragUp tp
  have hdrag : SndInv tp.dragUp.sndSide := hside ▸ h
  obtain ⟨hinv, hout, hsent, -, -⟩ := note_spec hdrag (r.congr hside)
  have hrec := segment_recorded h r hlen win ok hlost
  rw [hside] at hout
  have hsndsent : tp.dragUp.sent = tp.sent := congrArg SndSide.sent hside
  have hsentfin : tp.dragUp.sentfin = tp.sentfin := congrArg SndSide.sentfin hside
  have hfin : (tp.dragUp.note p).sentfin → tp.sentfin = false → has p.flags TH_FIN := by
    intro hw hv
    have := sentfin_note _ _ hw
    rw [hsentfin] at this
    exact this.resolve_left fun hs => absurd (hv.symm.trans hs) (by simp)
  have hpersist : (tp.dragUp.note p).persist = tp.persist ∨ (tp.dragUp.note p).persist = 0 := by
    have hdragged : tp.dragUp.persist = tp.persist := congrArg SndSide.persist hside
    rw [← hdragged]
    exact persist_note _ _
  rw [Tcpcb.noted, sndSide_log]
  have hnoted := hinv.logged (tp.segment p win data ok)
  refine ⟨hnoted, Act.acts (.emit (tp.segment p win data ok) rfl hout.base htemplate ?_
    (segment_seq tp p win data ok) hout.grows hrec hout.sentfin fun hw hv => ?_) fun _ => hnoted,
    hout.trans ?_, hpersist.imp_right .inl⟩
  · exact congrArg _ (hsent.trans hsndsent)
  · refine ⟨(r.fin (hfin hw hv)).1, ?_, segment_fin h r hlen win ok (hfin hw hv) hv⟩
    rw [(segment_flags tp p win data ok 0).2]
    exact hfin hw hv
  · exact ⟨rfl, le_rfl, id, List.suffix_cons _ _⟩

theorem note_persisting (tp : Tcpcb) (p : Plan) (hforce : tp.force)
    (hpersist : (tp.note p).persist ≠ 0) : (tp.note p).sndNxt = tp.sndNxt := by
  unfold Tcpcb.note at hpersist ⊢
  split at hpersist
  · next hmode =>
      -- outside the persist state no timer for it is started
      obtain ⟨rexmt, persist, rxtshift, hp, hside⟩ := transmit_side tp p
      have hzero : tp.persist = 0 := hmode.resolve_left (by simp [hforce])
      rw [hzero] at hp
      exact absurd ((congrArg SndSide.persist hside).trans (hp.elim id id)) hpersist
  · next hmode =>
      rw [if_neg hmode]
      split <;> rfl

/-- A probe with a FIN is the last turn. -/
theorem losesFin_noted (h : SndInv tp.sndSide) (r : p.Ready tp) (hmore : p.sendalot) {win : ℤ}
    {ok : Bool} (hnoted : SndInv (tp.noted p win data ok).sndSide) :
    (tp.noted p win data ok).losesFin = false := by
  by_contra hloses
  simp only [Tcpcb.losesFin, Bool.and_eq_true, decide_eq_true_eq, Bool.not_eq_false,
    Bool.not_eq_eq_eq_not, Bool.not_true, decide_eq_false_iff_not] at hloses
  obtain ⟨⟨⟨⟨⟨⟨hforce, hpersist⟩, -⟩, -⟩, -⟩, -⟩, hoff⟩ := hloses
  have hside := sndSide_dragUp tp
  have hbase := (note_spec (hside ▸ h) (r.congr hside)).2.1.base
  rw [hside] at hbase
  have hforced : tp.dragUp.force = tp.force := congrArg (fun v : SndSide => v.force) hside
  have hdrag : tp.dragUp.sndNxt = tp.sndNxt := congrArg SndSide.sndNxt hside
  have hf : tp.force := (congrArg SndBase.force hbase).symm.trans hforce
  have hnxt := note_persisting tp.dragUp p (hforced.trans hf) hpersist
  have huna : (tp.dragUp.note p).sndUna = tp.sndUna := congrArg SndBase.sndUna hbase
  have hsnd : (tp.dragUp.note p).soSnd = tp.soSnd := congrArg SndBase.soSnd hbase
  refine hoff ((off_lt_iff hnoted).mpr ?_)
  show dist (tp.dragUp.note p).sndNxt (tp.dragUp.note p).sndUna < (tp.dragUp.note p).soSnd.length
  rw [hnxt, hdrag, huna, hsnd]
  exact r.more hmore

@[simp] theorem sndSide_fail (tp : Tcpcb) (e : IpError) : (tp.fail e).1.sndSide = tp.sndSide := by
  cases e with
  | enobufs => rfl
  | unreach =>
    rw [Tcpcb.fail]
    split <;> rfl
  | other => rfl

theorem fail_ne_again (tp : Tcpcb) (e : IpError) : (tp.fail e).2 ≠ .again := by
  cases e with
  | enobufs => exact nofun
  | unreach =>
    rw [Tcpcb.fail]
    split <;> exact nofun
  | other => exact nofun

theorem sndSide_sentOk (tp : Tcpcb) (win : ℤ) : (tp.sentOk win).sndSide = tp.sndSide := rfl

theorem losesFin_sentOk (tp : Tcpcb) (win : ℤ) : (tp.sentOk win).losesFin = tp.losesFin := rfl

/-- **What a turn comes to**: acts, and another turn only if it is not a probe with a FIN. -/
structure Turned (F : Faults) (v : SndSide) (r : Tcpcb × Next) : Prop where
  sends : Sends F v r.1.sndSide
  again : r.2 = .again → r.1.losesFin = false

theorem Turned.after {r : Tcpcb × Next} (h : Turned F w r) (hw : Sends F v w) : Turned F v r :=
  ⟨hw.trans h.sends, h.again⟩

theorem turned_fail (h : Sends F v tp.sndSide) (e : IpError) : Turned F v (tp.fail e) := by
  refine ⟨?_, fun hagain => absurd hagain (fail_ne_again tp e)⟩
  rw [sndSide_fail]
  exact h

theorem hand_acts (h : SndInv tp.sndSide) (r : p.Ready tp) (hlen : (data.length : ℤ) = p.len)
    (htemplate : tp.template) (win : ℤ) (ip : Option IpError) (hlost : p.Loses tp → F.loses) :
    Turned F tp.sndSide (tp.hand p win data ip) := by
  have hnoted := fun ok => noted_acts h r hlen htemplate win ok hlost
  cases ip with
  | some e => exact turned_fail (hnoted false) e
  | none =>
    rw [Tcpcb.hand]
    refine ⟨?_, fun hagain => ?_⟩
    · rw [sndSide_sentOk]
      exact hnoted true
    · have hmore : p.sendalot := by
        by_contra hlast
        simp [hlast] at hagain
      rw [losesFin_sentOk]
      exact losesFin_noted h r hmore (hnoted true).inv

theorem refin_acts (h : SndInv (tp.refin p.flags).sndSide) :
    Sends F tp.sndSide (tp.refin p.flags).sndSide := by
  unfold Tcpcb.refin at h ⊢
  split at h
  · next hre =>
      rw [if_pos hre]
      exact .quiet h rfl rfl rfl rfl (.inl rfl)
  · next hre =>
      rw [if_neg hre]
      exact .refl h

theorem build_acts (h : SndInv tp.sndSide) (hfits : p.Fits tp)
    (hstart : has p.flags TH_SYN → dist tp.sndNxt tp.sndUna = 0) (win : ℤ) (t : Turn)
    (hlost : p.Loses tp → F.loses) :
    Ends (fun _ => True) (Turned F tp.sndSide) (tp.build p win t) := by
  unfold Tcpcb.build
  split
  · exact turned_fail (.refl h) _
  · split
    · trivial
    · next data hcopy =>
        split
        · trivial
        · next htemplate =>
            obtain ⟨hinv, hready⟩ := ready_refin h hfits hstart
            have hsame : tp.sentfin = false → tp.refin p.flags = tp := fun hs => by
              rw [Tcpcb.refin, if_neg fun hre => absurd (hs.symm.trans hre.2.1) (by simp)]
            have hkeep : (tp.refin p.flags).sentfin = tp.sentfin ∧
                (tp.refin p.flags).template = tp.template := by
              unfold Tcpcb.refin
              split <;> exact ⟨rfl, rfl⟩
            have hhand := hand_acts hinv hready (length_copy hfits.nonneg hcopy)
              (hkeep.2.trans (by simpa using htemplate)) win t.ip fun lost => by
                rw [hsame (hkeep.1.symm.trans lost.2.2.2.1)] at lost
                exact hlost lost
            exact hhand.after (refin_acts hinv)

theorem has_fit (tp : Tcpcb) (p : Plan) (hfin : has (tp.fit p).flags TH_FIN) :
    has p.flags TH_FIN := by
  unfold Tcpcb.fit at hfin
  split at hfin
  · simp at hfin
  · exact hfin

theorem transmit_acts (h : SndInv tp.sndSide) (hfits : p.Fits tp) (win : ℤ) (t : Turn)
    (hlost : p.Loses tp → F.loses) :
    Ends (fun _ => True) (Turned F tp.sndSide) (tp.transmit p win t) := by
  obtain ⟨hinv, hfits', ⟨nxt, rxtcur, rttmin, sndHiwat, hside⟩, hstart⟩ :=
    inv_prepareSyn h hfits t.route
  have hsame : has p.flags TH_FIN → tp.prepareSyn p.flags t.route = tp := fun hfin => by
    rw [Tcpcb.prepareSyn, if_neg fun hsyn => hfits.not_fin hsyn hfin]
  rw [Tcpcb.transmit]
  generalize tp.prepareSyn p.flags t.route = tp' at *
  have huna : tp'.sndUna = tp.sndUna := congrArg (fun v : SndSide => v.sndUna) hside
  have hprep : Sends F tp.sndSide tp'.sndSide := by
    rw [hside] at hinv ⊢
    exact .quiet hinv rfl rfl rfl rfl (.inl rfl)
  refine (build_acts hinv (hfits'.fit hinv) ?_ win t ?_).imp fun r hr =>
    hr.after hprep
  · rw [has_fit_syn, huna]
    exact hstart
  · rintro ⟨hf, hp, hfin, hrest⟩
    rw [hsame (has_fit _ _ hfin)] at hf hp hrest
    exact hlost ⟨hf, hp, has_fit _ _ hfin, hrest⟩

/-- A segment with a FIN that the persist state would not record. -/
theorem plan_loses (h : SndInv tp.sndSide) (hforce : tp.force) (hpersist : tp.retreat.persist ≠ 0)
    (hfin : has tp.plan.flags TH_FIN) (hsent : tp.retreat.sentfin = false)
    (hnxt : tp.retreat.sndNxt = tp.retreat.sndMax) : tp.losesFin := by
  have hwin := sendWin_of_persist tp hforce hpersist
  have hforced : has tp.forcedFlags TH_FIN := by
    simp only [Tcpcb.plan] at hfin
    split at hfin
    · simp at hfin
    · exact hfin
  obtain ⟨hstate, hdone⟩ := has_forcedFlags_fin h hforced
  have hone : tp.forcedWin = 1 := by rw [Tcpcb.forcedWin, if_pos ⟨hforce, hwin⟩]
  have hretreat : tp.retreat = tp := by
    rw [Tcpcb.retreat, if_neg (by simp [hone]), Tcpcb.unpersist, if_neg (by simp [hwin])]
  rw [hretreat] at hpersist hsent hnxt
  have hoff : ¬ tp.off < tp.sndCc := by
    rw [off_lt_iff h]
    exact not_lt.mpr (hdone hforce hwin)
  simp [Tcpcb.losesFin, hforce, hpersist, hwin, hstate, hsent, hnxt, hoff]

theorem retreat_acts (h : SndInv tp.sndSide) : Sends F tp.sndSide tp.retreat.sndSide := by
  refine .quiet (inv_retreat h) (base_retreat tp) ?_ ?_ ?_ ?_
  all_goals unfold Tcpcb.retreat Tcpcb.unpersist
  · split_ifs <;> rfl
  · split_ifs <;> rfl
  · split_ifs <;> rfl
  · split_ifs
    · exact .inr (.inl rfl)
    · exact .inl rfl
    · exact .inr (.inl rfl)
    · exact .inl rfl

/-- With data in the buffer the persist timer may be set. -/
theorem SndInv.persisting (h : SndInv v) (hdata : v.soSnd ≠ []) (persist : ℤ) (rxtshift : ℤ) :
    SndInv { v with persist := persist, rxtshift := rxtshift } :=
  { h with syn := fun hsyn => absurd (h.syn hsyn).1 hdata }

theorem persmin_le_rangeset (value : ℤ) :
    TCPTV_PERSMIN ≤ rangeset value TCPTV_PERSMIN TCPTV_PERSMAX := by
  have hmin : short TCPTV_PERSMIN = TCPTV_PERSMIN := by decide
  have hmax : short TCPTV_PERSMAX = TCPTV_PERSMAX := by decide
  unfold rangeset
  split_ifs with hlt hgt
  · exact hmin.ge
  · rw [hmax]
    decide
  · exact not_lt.mp hlt

theorem rest_acts (h : SndInv tp.sndSide) :
    Ends (fun _ => True) (fun tp' => Sends F tp.sndSide tp'.sndSide) tp.rest := by
  unfold Tcpcb.rest
  split
  · next hidle =>
      unfold tcpSetpersist
      split
      · trivial
      · exact .quiet (h.persisting hidle.1 _ _) rfl rfl rfl rfl
          (.inr (.inr ⟨hidle.1, persmin_le_rangeset _⟩))
  · exact .refl h

theorem outputTurn_acts (h : SndInv tp.sndSide) (hlost : tp.losesFin → F.loses) (idle : Bool)
    (t : Turn) : Ends (fun _ => True) (Turned F tp.sndSide) (outputTurn idle tp t) := by
  have hforce : tp.retreat.force = tp.force := congrArg SndBase.force (base_retreat tp)
  unfold outputTurn
  split
  · refine (transmit_acts (inv_retreat h) (plan_fits h) _ t ?_).imp
      fun r hr => hr.after (retreat_acts h)
    rintro ⟨hf, hp, hfin, hs, hnxt⟩
    exact hlost (plan_loses h (hforce ▸ hf) hp hfin hs hnxt)
  · exact (rest_acts (inv_retreat h)).map fun tp' hrest =>
      ⟨(retreat_acts h).trans hrest, nofun⟩

theorem Ends.orPanic_true {α : Type} {P : α → Prop} {x : Except Panic α}
    (h : Ends (fun _ => True) P x) : Ends (fun _ => True) P (orPanic x) := by
  cases x with
  | ok a => exact h
  | error q => trivial

/-- **The turns of `tcp_output`** consist of acts: only the first can lose a FIN. -/
theorem outputLoop_acts (idle : Bool) (ts : List Turn) (h : SndInv tp.sndSide)
    (hlost : tp.losesFin → F.loses) :
    Ends (fun _ => True) (fun r => Sends F tp.sndSide r.1.sndSide) (outputLoop idle ts tp) := by
  induction ts generalizing tp with
  | nil => trivial
  | cons t ts ih =>
    refine (Ends.orPanic_true (outputTurn_acts h hlost idle t)).bind ?_
    rintro ⟨tp', next⟩ hturn
    cases next with
    | again =>
      have hnot : tp'.losesFin → F.loses := fun hl => absurd (hturn.again rfl) (by simp [hl])
      exact (ih hturn.sends.inv hnot).imp fun r hr => hturn.sends.trans hr
    | stop e => exact hturn.sends

theorem sndSide_slowStart (tp : Tcpcb) : tp.slowStart.sndSide = tp.sndSide := by
  unfold Tcpcb.slowStart
  split <;> rfl

/-- **`tcp_output`** consists of acts. -/
theorem outputs_acts (h : SndInv tp.sndSide) (hlost : tp.slowStart.losesFin → F.loses)
    (ts : List Turn) :
    Ends (fun _ => True) (fun tp' => Sends F tp.sndSide tp'.sndSide) (outputs tp ts) := by
  have hslow := sndSide_slowStart tp
  have hloop := outputLoop_acts tp.isIdle ts (hslow ▸ h) hlost
  rw [hslow] at hloop
  have hout : Ends (fun _ => True) (fun r => Sends F tp.sndSide r.1.sndSide) (tcpOutput tp ts) := by
    refine hloop.map fun r hr => hr.trans ?_
    refine .quiet ?_ rfl rfl rfl rfl (.inl rfl)
    exact hr.inv.setNxt rfl hr.inv.hiwat (.inl rfl) hr.inv.nxt_nonneg rfl rfl hr.inv.nxt_le
  exact hout.map fun _ => id

end Output

end BSDLite2.Tcp
