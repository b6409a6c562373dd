import BSDLite2.Netinet.TcpRun

/-!
# TCP records what it sends

`snd_max` is meant to be the highest sequence number that was ever sent: an acknowledgement
beyond it is taken for a mistake of the peer.  Every segment of `tcp_output` ends at or
before `snd_max` (`records_everything`), as long as the persist timer does not expire at the
wrong moment: the window is closed, everything in the send buffer is acknowledged, and a FIN
has to be sent that could not be sent before.  The probe then carries the FIN, and in the
persist state only the data of a probe is recorded (`fin_not_recorded`).
-/

namespace BSDLite2.Tcp

open Mbuf Serial

/-- **What has been sent is recorded.**  The end of every segment of `tcp_output` is the number
of its position, and `snd_max` is at or beyond it. -/
def Recorded (v : SndSide) : Prop :=
  ∀ x ∈ v.sent, x.via = .output →
    x.seq + ulong (seqLen x.flags x.data.length) = pos v.sndUna (x.stop - v.acked) ∧
      x.stop ≤ v.acked + dist v.sndMax v.sndUna

theorem act_recorded {F : Faults} (hF : ¬ F.loses) {v w : SndSide} (hsound : Sound v)
    (hfresh : Fresh v) (hact : Act F v w) (h : Recorded v) : Recorded w := by
  cases hact with
  | turn base sndMax sentfin sent =>
    have huna : w.sndUna = v.sndUna := congrArg (·.sndUna) base
    have hacked : w.acked = v.acked := congrArg (·.acked) base
    intro x hx via
    rw [huna, hacked, sndMax]
    exact h x (sent ▸ hx) via
  | emit y via base template sent seq grows recorded =>
    intro x hx via
    rw [base]
    rw [sent] at hx
    rcases List.mem_cons.mp hx with rfl | hx
    · exact ⟨seq, recorded.resolve_right hF⟩
    · obtain ⟨hseq, hstop⟩ := h x hx via
      exact ⟨hseq, by omega⟩
  | respond y via side =>
    subst side
    intro x hx hvia
    rcases List.mem_cons.mp hx with rfl | hx
    · exact absurd hvia via
    · exact h x hx hvia
  | send m hopen started side =>
    subst side
    exact h
  | ack ack nonneg le base sndMax sentfin sent started alive =>
    have huna : w.sndUna = ack := congrArg (·.sndUna) base
    have hacked : w.acked = v.acked + dist ack v.sndUna := congrArg (·.acked) base
    have hsmall := (hsound alive).small.1
    have hmax : dist v.sndMax ack = dist v.sndMax v.sndUna - dist ack v.sndUna := by
      conv_lhs => rw [← pos_dist v.sndMax v.sndUna, ← pos_dist ack v.sndUna]
      exact dist_pos_pos _ (by omega) (by omega)
    intro x hx via
    obtain ⟨hseq, hstop⟩ := h x (sent ▸ hx) via
    rw [huna, hacked, sndMax]
    refine ⟨hseq.trans ?_, by omega⟩
    have hmove := pos_pos v.sndUna (dist ack v.sndUna) (x.stop - (v.acked + dist ack v.sndUna))
    rw [pos_dist] at hmove
    rw [hmove]
    congr 1
    omega
  | begins state template alive base sndNxt sndMax sentfin sent =>
    intro x hx via
    exact absurd via ((hfresh alive template).sent x (sent ▸ hx))

/-- The end of a segment is not beyond `snd_max`, and neither is any acknowledgement of it. -/
theorem Recorded.not_beyond {v : SndSide} (h : Recorded v) (hinv : SndInv v) {x : Sent}
    (hx : x ∈ v.sent) (via : x.via = .output) :
    (v.acked + dist v.sndMax v.sndUna - 2 ^ 31 ≤ x.stop →
      seqLEQ (x.seq + ulong (seqLen x.flags x.data.length)) v.sndMax) ∧
    ∀ ack, 0 ≤ dist ack v.sndUna → v.acked + dist ack v.sndUna ≤ x.stop →
      seqGT ack v.sndMax = false := by
  obtain ⟨hseq, hstop⟩ := h x hx via
  have hsmall := hinv.small.1
  constructor
  · intro hnear
    rw [seqLEQ, decide_eq_true_eq, hseq]
    conv_lhs => rw [← pos_dist v.sndMax v.sndUna]
    rw [dist_pos_pos _ (by omega) (by omega)]
    omega
  · intro ack hlo hhi
    rw [seqGT, decide_eq_false_iff_not, not_lt]
    conv_lhs => rw [← pos_dist v.sndMax v.sndUna, ← pos_dist ack v.sndUna]
    rw [dist_pos_pos _ (by omega) (by omega)]
    omega

/-- An event after which everything is recorded: no data is queued after a shutdown, and when
the persist timer expires, the probe does not carry a FIN for the first time. -/
def Event.records (tp : Tcpcb) (e : Event) : Bool := !e.late tp && !e.loses tp

/-- **TCP records everything it sends.**  After every run whose events all meet the condition,
every segment that `tcp_output` has handed to `ip_output` ends at or before `snd_max`: as a
position in the stream; as a number, unless it is older than half of the numbers; and no
acknowledgement of it is rejected. -/
theorem records_everything (start tp : Tcpcb) (events : List Event) (hstart : Started start)
    (hmeets : Schedule.Along step (fun tp e => e.records tp) start events)
    (hrun : Schedule.run step start events = some tp) (hthere : tp.gone = false) :
    ∀ x ∈ tp.sent, x.via = .output →
      x.stop ≤ tp.acked + dist tp.sndMax tp.sndUna ∧
      x.seq + ulong (seqLen x.flags x.data.length) = pos tp.sndUna (x.stop - tp.acked) ∧
      (tp.acked + dist tp.sndMax tp.sndUna - 2 ^ 31 ≤ x.stop →
        seqLEQ (x.seq + ulong (seqLen x.flags x.data.length)) tp.sndMax) ∧
      ∀ ack, 0 ≤ dist ack tp.sndUna → tp.acked + dist ack tp.sndUna ≤ x.stop →
        seqGT ack tp.sndMax = false := by
  have hempty : Recorded start.sndSide := by
    cases hstart <;> exact nofun
  have hreached := run_acts hstart hempty
    (fun tp e hG => by simp only [Event.records, Bool.and_eq_true, Bool.not_eq_true'] at hG; exact hG.1)
    (fun tp e hG v w hsound hfresh hact => act_recorded ?_ hsound hfresh hact)
    hmeets hrun
  · intro x hx via
    have hinv := hreached.2.inv hthere
    obtain ⟨hseq, hstop⟩ := hreached.1 x hx via
    exact ⟨hstop, hseq, hreached.1.not_beyond hinv hx via⟩
  · simp only [Event.records, Bool.and_eq_true, Bool.not_eq_true'] at hG
    simp [Event.faults, hG.2]

/-- A segment without options. -/
def arrives (seq ack : BitVec 32) (flags : BitVec 8) (win : BitVec 16) (data : List (BitVec 8)) :
    Event :=
  .input ⟨seq, ack, flags, win, 0, [], .packet data, false⟩ ⟨16384, none, true, 0⟩
    [smooth]

/-- A tick of the slow timer in which everything goes well. -/
def ticks : Event := .slowtimo ⟨[smooth], [smooth], ⟨16384, true, true⟩, [smooth]⟩

/-- A connection is opened to a peer with a closed window, and one byte is to be sent. -/
def oneByte : List Event :=
  [.connect 0 [smooth], arrives 100 1 (TH_SYN ||| TH_ACK) 0 [], .send [7] [smooth]]

/-- **The numbers stay in order.**  After every run in which no data is queued after a shutdown,
`snd_una`, `snd_nxt` and `snd_max` are in this order, and `snd_max` is ahead by no more than the
buffer and a FIN. -/
theorem numbers_in_order (start tp : Tcpcb) (events : List Event) (hstart : Started start)
    (hmeets : Schedule.Along step (fun tp e => e.late tp = false) start events)
    (hrun : Schedule.run step start events = some tp) (hthere : tp.gone = false) :
    SndInv tp.sndSide :=
  (run_acts (Q := fun _ => True) hstart trivial (fun _ _ hlate => hlate)
    (fun _ _ _ _ _ _ _ _ _ => trivial) hmeets hrun).2.inv hthere

/-- The byte waits in the buffer. -/
theorem numbers_in_order_oneByte : ∃ tp, Schedule.run step opening oneByte = some tp ∧
    tp.soSnd = [7] ∧ SndInv tp.sndSide :=
  ⟨_, rfl, rfl, numbers_in_order opening _ oneByte (.active _ _ _ _ (by decide) (by decide))
    (by decide +kernel) rfl rfl⟩

/-- The byte is sent as a probe, and recorded. -/
theorem records_everything_probe :
    ∃ tp, Schedule.run step opening (oneByte ++ List.replicate 10 ticks) = some tp ∧
      tp.sent.map Sent.stop = [2, 1, 1] ∧
      ∀ x ∈ tp.sent, x.via = .output → x.stop ≤ tp.acked + dist tp.sndMax tp.sndUna := by
  refine ⟨_, rfl, rfl, fun x hx via => ?_⟩
  refine (records_everything opening _ (oneByte ++ List.replicate 10 ticks)
    (.active _ _ _ _ (by decide) (by decide)) ?_ rfl rfl x hx via).1
  decide +kernel

/-- The byte is acknowledged while the window stays closed; the user shuts down, but there is
no memory for the FIN; and then the persist timer expires. -/
def lostFin : List Event :=
  oneByte ++ List.replicate 10 ticks ++
    [arrives 101 2 TH_ACK 0 [], .shutdown [⟨16384, none, false, none⟩]] ++ List.replicate 10 ticks

/-- **A FIN that is not recorded.**  It ends at position 3 and `snd_max` is at position 2, so
that its acknowledgement is rejected. -/
theorem fin_not_recorded : ∃ tp x, Schedule.run step opening lostFin = some tp ∧ x ∈ tp.sent ∧
    x.via = .output ∧ x.flags = TH_FIN ||| TH_ACK ∧ x.ok ∧ x.stop = 3 ∧
    tp.acked + dist tp.sndMax tp.sndUna = 2 ∧
    seqGT (x.seq + ulong (seqLen x.flags x.data.length)) tp.sndMax := by
  refine ⟨_, _, rfl, List.mem_cons_self, ?_⟩
  decide +kernel

end BSDLite2.Tcp
