import BSDLite2.Netinet.TcpRecord

/-!
# The FIN and its acknowledgement

In `FIN_WAIT_1`, `CLOSING` and `LAST_ACK` the code concludes that its FIN is acknowledged
from a count: more sequence numbers are acknowledged than there are bytes in the send buffer.
This is right if the SYN has been acknowledged before the user closes (`closed_by_fin`): then
the only number besides those of the bytes is that of the FIN.  If the user closes in
`SYN_RECEIVED`, it can be that of the SYN (`closed_by_syn`).

The positions of the acknowledgements that are taken for those of the FIN are noted in
`closedBy`.
-/

namespace BSDLite2.Tcp

open Serial

/-- A FIN was sent that ends at a position or before it. -/
def SndSide.finBefore (v : SndSide) (c : ℤ) : Prop :=
  ∃ x ∈ v.sent, x.via = .output ∧ has x.flags TH_FIN ∧ x.stop ≤ c

theorem SndSide.finBefore.mono {v w : SndSide} {c d : ℤ} (h : v.finBefore c)
    (hsent : ∀ x ∈ v.sent, x ∈ w.sent) (hle : c ≤ d) : w.finBefore d := by
  obtain ⟨x, hx, via, hfin, hstop⟩ := h
  exact ⟨x, hsent x hx, via, hfin, hstop.trans hle⟩

/-- **The invariant of closing**: what `SndInv` does not say of the FIN, namely which bytes it
follows. -/
structure Closing (v : SndSide) : Prop where
  /-- every acknowledgement that was taken for that of a FIN is one -/
  done : ∀ c ∈ v.closedBy, v.finBefore c
  acked : v.gone = false → v.tState.sendsFin → v.acked ≠ 0
  /-- a FIN that has been sent follows the last byte -/
  fin : v.gone = false → v.tState.sendsFin → v.sentfin →
    v.finBefore (v.acked + v.soSnd.length + 1)

/-- The acknowledgement of more than is in the buffer is one of the FIN. -/
theorem Closing.ack_fin {v : SndSide} (h : Closing v) (hinv : SndInv v) (halive : v.gone = false)
    (hstate : v.tState.sendsFin) {a : ℤ} (hall : v.soSnd.length < a)
    (hle : a ≤ dist v.sndMax v.sndUna) : v.finBefore (v.acked + a) := by
  have hmax := hinv.max_le
  have hacked := h.acked halive hstate
  simp only [SndBase.sendable, if_neg hacked] at hmax
  cases hsent : v.sentfin with
  | true => exact (h.fin halive hstate hsent).mono (fun _ => id) (by omega)
  | false =>
    simp only [hsent, Bool.false_eq_true, if_false] at hmax
    omega

theorem Closing.of_not_sendsFin {v : SndSide} (done : ∀ c ∈ v.closedBy, v.finBefore c)
    (hnot : v.gone = false → v.tState.sendsFin = false) : Closing v :=
  ⟨done, fun hg hst => (nomatch (hnot hg).symm.trans hst),
    fun hg hst => (nomatch (hnot hg).symm.trans hst)⟩

theorem act_closing {F : Faults} (hF : ¬ F.early) {v w : SndSide} (hsound : Sound v)
    (hfresh : Fresh v) (hact : Act F v w) (h : Closing v) : Closing w := by
  have kept (hsub : ∀ x ∈ v.sent, x ∈ w.sent) (hclosed : w.closedBy = v.closedBy) :
      ∀ c ∈ w.closedBy, w.finBefore c := fun c hc => (h.done c (hclosed ▸ hc)).mono hsub le_rfl
  cases hact with
  | turn base sndMax sentfin sent persist alive started reopen closes =>
    have hacked : w.acked = v.acked := congrArg (·.acked) base
    have hsnd : w.soSnd = v.soSnd := congrArg (·.soSnd) base
    have hclosed : w.closedBy = v.closedBy := congrArg (·.closedBy) base
    have hsub : ∀ x ∈ v.sent, x ∈ w.sent := fun x hx => sent ▸ hx
    refine ⟨kept hsub hclosed, fun hg hst => ?_, fun hg hst hs => ?_⟩
    · rw [hacked]
      rcases closes hst with hv | ⟨-, hearly⟩
      · exact h.acked (alive hg).1 hv
      · exact fun hzero => hF (hearly hzero)
    · rw [hacked, hsnd]
      rcases closes hst with hv | ⟨hopen, -⟩
      · exact (h.fin (alive hg).1 hv (sentfin ▸ hs)).mono hsub le_rfl
      · have hnot := (hsound (alive hg).1).unsent hopen
        rw [sentfin, hnot] at hs
        cases hs
  | emit y via base template sent seq grows recorded sentfin fin =>
    have hsub : ∀ x ∈ v.sent, x ∈ w.sent := fun x hx => sent ▸ List.mem_cons_of_mem _ hx
    constructor <;> rw [base]
    · exact fun c hc => (h.done c hc).mono hsub le_rfl
    · exact h.acked
    · intro hg hst hs
      -- the FIN has been sent before, or it is on this segment
      cases hv : v.sentfin with
      | true => exact (h.fin hg hst hv).mono hsub le_rfl
      | false =>
        obtain ⟨-, hfin, hstop⟩ := fin hs hv
        exact ⟨y, sent ▸ List.mem_cons_self, via, hfin, hstop (h.acked hg hst)⟩
  | respond y via side =>
    subst side
    have hsub : ∀ x ∈ v.sent, x ∈ y :: v.sent := fun x hx => List.mem_cons_of_mem _ hx
    exact ⟨fun c hc => (h.done c hc).mono hsub le_rfl, h.acked,
      fun hg hst hs => (h.fin hg hst hs).mono hsub le_rfl⟩
  | send m hopen started side =>
    subst side
    refine ⟨h.done, h.acked, fun hg hst _ => ?_⟩
    -- nothing is queued in a state that sends a FIN
    have hshut := (hsound hg).shut (.inr hst)
    rw [hopen] at hshut
    cases hshut
  | ack ack nonneg le base sndMax sentfin sent started alive template state =>
    have hacked : w.acked = v.acked + dist ack v.sndUna := congrArg (·.acked) base
    have hsnd : w.soSnd = v.soSnd.drop (dist ack v.sndUna).toNat :=
      congrArg (·.soSnd) base
    have hsub : ∀ x ∈ v.sent, x ∈ w.sent := fun x hx => sent ▸ hx
    have hinv := hsound alive
    rcases state with ⟨hsame, hclosed⟩ | ⟨-, hest, hclosed⟩ | ⟨hfin, hall, hleft, -, hclosed⟩
    · refine ⟨kept hsub hclosed, fun _ hst => ?_, fun _ hst hs => ?_⟩
      · have := h.acked alive (hsame ▸ hst)
        have := hinv.acked
        rw [hacked]
        omega
      · refine (h.fin alive (hsame ▸ hst) (sentfin ▸ hs)).mono hsub ?_
        rw [hsnd, List.length_drop]
        omega
    · exact .of_not_sendsFin (kept hsub hclosed) fun _ => hest ▸ rfl
    · refine .of_not_sendsFin (fun c hc => ?_) fun hg =>
        hleft.resolve_right (by simp [hg])
      rw [hclosed] at hc
      rcases List.mem_cons.mp hc with rfl | hc
      · rw [hacked]
        exact (h.ack_fin hinv alive hfin hall le).mono hsub le_rfl
      · exact (h.done c hc).mono hsub le_rfl
  | begins state template alive base sndNxt sndMax sentfin sent =>
    have hclosed : w.closedBy = v.closedBy := congrArg (·.closedBy) base
    have hnot := not_sendsFin_of_sendsSyn state
    refine .of_not_sendsFin (fun c hc => ?_) fun _ => hnot
    rw [hclosed, (hfresh alive template).closedBy] at hc
    cases hc

/-- An event that closes nothing early: no data is queued after a shutdown, and the user closes
only after the SYN has been acknowledged. -/
def Event.orderly (tp : Tcpcb) (e : Event) : Bool := !e.late tp && !e.early tp

/-- **The close handshake is not completed early.**  After every run whose events all meet the
condition, and in which `ip_output` has taken every FIN, each acknowledgement with which
`FIN_WAIT_1`, `CLOSING` or `LAST_ACK` was left is one of a FIN that was sent. -/
theorem closed_by_fin (start tp : Tcpcb) (events : List Event) (hstart : Started start)
    (hmeets : Schedule.Along step (fun tp e => e.orderly tp) start events)
    (hrun : Schedule.run step start events = some tp)
    (htaken : ∀ x ∈ tp.sent, has x.flags TH_FIN → x.ok) :
    ∀ c ∈ tp.closedBy, ∃ x ∈ tp.sent, x.via = .output ∧ has x.flags TH_FIN ∧ x.ok ∧ x.stop ≤ c := by
  have hempty : Closing start.sndSide := by
    cases hstart <;> exact ⟨nofun, nofun, nofun⟩
  have hreached := run_acts hstart hempty
    (fun tp e hG => by
      simp only [Event.orderly, Bool.and_eq_true, Bool.not_eq_true'] at hG
      exact hG.1)
    (fun tp e hG v w hsound hfresh hact => act_closing ?_ hsound hfresh hact)
    hmeets hrun
  · intro c hc
    obtain ⟨x, hx, via, hfin, hstop⟩ := hreached.1.done c hc
    exact ⟨x, hx, via, hfin, htaken x hx hfin, hstop⟩
  · simp only [Event.orderly, Bool.and_eq_true, Bool.not_eq_true'] at hG
    simp [Event.faults, hG.2]

/-- A connection is opened and closed, and the FIN acknowledged. -/
def openClose : List Event :=
  [.connect 0 [smooth], arrives 100 1 (TH_SYN ||| TH_ACK) 4096 [], .shutdown [smooth],
    arrives 101 2 TH_ACK 4096 []]

/-- The acknowledgement of the FIN leads to `FIN_WAIT_2`. -/
theorem closed_by_fin_openClose : ∃ tp, Schedule.run step opening openClose = some tp ∧
    tp.tState = .finWait2 ∧ tp.closedBy = [2] ∧
    ∃ x ∈ tp.sent, x.via = .output ∧ has x.flags TH_FIN ∧ x.ok ∧ x.stop ≤ 2 := by
  refine ⟨_, rfl, rfl, rfl, ?_⟩
  refine closed_by_fin opening _ openClose (.active _ _ _ _ (by decide) (by decide)) ?_ rfl ?_ 2 ?_
  all_goals decide +kernel

/-- Both sides open the connection, and this one is shut down at once, without memory for the
FIN; then its SYN is acknowledged. -/
def shutEarly : List Event :=
  [.connect 0 [smooth], arrives 100 0 TH_SYN 4096 [], .shutdown [⟨16384, none, false, none⟩],
    arrives 101 1 TH_ACK 4096 []]

/-- **The acknowledgement of the SYN is taken for that of a FIN** that was never sent. -/
theorem closed_by_syn : ∃ tp, Schedule.run step opening shutEarly = some tp ∧
    tp.tState = .finWait2 ∧ tp.closedBy = [1] ∧ ∀ x ∈ tp.sent, ¬ has x.flags TH_FIN :=
  ⟨_, rfl, rfl, rfl, by decide +kernel⟩

end BSDLite2.Tcp
