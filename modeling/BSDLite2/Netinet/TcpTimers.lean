import BSDLite2.Lib.Outcome
import BSDLite2.Netinet.TcpWalk

/-!
# Retransmission and persistence exclude each other

A connection either waits for an acknowledgement of what it has sent, or for a window to
send into, but not for both: the timers `TCPT_REXMT` and `TCPT_PERSIST` do not run together.
`Apart` says so of the state, of the shift that both share, and of every state in which a
function has returned.  Every change that the code makes keeps it (`kept_apart`), which is
why `tcp_setpersist` never finds the other timer running (`never_both`).
-/

namespace BSDLite2.Tcp

open Outcome

variable {tp' : Tcpcb}

/-- Not both timers run, and the shift is an index of `tcp_backoff`. -/
def Timers.Apart (t : Timers) : Prop :=
  (t.rexmt = 0 ∨ t.persist = 0) ∧ 0 ≤ t.rxtshift ∧ t.rxtshift ≤ TCP_MAXRXTSHIFT

/-- The timers of a core. -/
def Core.timers (c : Core) : Timers := ⟨c.rexmt, c.persist, c.rxtshift⟩

/-- The timers of a connection. -/
def Tcpcb.timers (tp : Tcpcb) : Timers := ⟨tp.rexmt, tp.persist, tp.rxtshift⟩

/-- Not both timers run, now and whenever a function has returned. -/
structure Tcpcb.Apart (tp : Tcpcb) : Prop where
  now : tp.timers.Apart
  returned : ∀ t ∈ tp.returned, t.Apart

variable {tp : Tcpcb}

section

variable (h : tp.Apart)

include h

theorem Tcpcb.Apart.congr (timers : tp'.timers = tp.timers)
    (returned : tp'.returned = tp.returned) : tp'.Apart :=
  ⟨timers ▸ h.now, returned ▸ h.returned⟩

theorem Tcpcb.Apart.returns : tp.returns.Apart := by
  refine ⟨h.now, fun t ht => ?_⟩
  rcases List.mem_cons.mp ht with rfl | ht
  · exact h.now
  · exact h.returned t ht

/-- Both timers are stopped or one of them runs, with a shift in range. -/
theorem Tcpcb.Apart.set (timers : tp'.rexmt = 0 ∨ tp'.persist = 0)
    (shift : tp'.rxtshift = tp.rxtshift ∨ tp'.rxtshift = 0)
    (returned : tp'.returned = tp.returned) :
    tp'.Apart := by
  obtain ⟨-, hlo, hhi⟩ := h.now
  refine ⟨⟨timers, ?_⟩, returned ▸ h.returned⟩
  simp only [Tcpcb.timers, TCP_MAXRXTSHIFT] at hlo hhi ⊢
  omega

/-! ## `tcp_output` -/

theorem apart_unpersist : tp.unpersist.Apart := by
  unfold Tcpcb.unpersist
  split
  · exact h.set (.inr rfl) (.inr rfl) rfl
  · exact h

theorem apart_retreat : tp.retreat.Apart := by
  unfold Tcpcb.retreat
  split
  · exact (apart_unpersist h).set (.inl rfl) (.inl rfl) rfl
  · exact apart_unpersist h

theorem tcpSetpersist_apart (hrexmt : tp.rexmt = 0) :
    Ends (· ≠ .rexmt) Tcpcb.Apart (tcpSetpersist tp) := by
  obtain ⟨-, hlo, hhi⟩ := h.now
  rw [tcpSetpersist, if_neg (not_not.mpr hrexmt)]
  refine ⟨⟨.inl hrexmt, ?_⟩, h.returned⟩
  simp only [Tcpcb.timers, TCP_MAXRXTSHIFT] at hlo hhi ⊢
  split_ifs <;> omega

theorem rest_apart : Ends (· ≠ .rexmt) Tcpcb.Apart tp.rest := by
  unfold Tcpcb.rest
  split
  · next hidle => exact tcpSetpersist_apart (h.set h.now.1 (.inr rfl) rfl) hidle.2.1
  · exact h

theorem apart_dragUp : tp.dragUp.Apart := by
  unfold Tcpcb.dragUp
  split
  · exact h
  · exact h.congr rfl rfl

theorem apart_raise (startseq : BitVec 32) : (tp.raise startseq).Apart := by
  unfold Tcpcb.raise
  split_ifs
  · exact h.congr rfl rfl
  · exact h.congr rfl rfl
  · exact h

theorem apart_startRexmt : tp.startRexmt.Apart := by
  unfold Tcpcb.startRexmt
  split_ifs with hstart hpersist
  · exact h.set (.inr rfl) (.inr rfl) rfl
  · exact h.set (.inr (not_not.mp hpersist)) (.inl rfl) rfl
  · exact h

theorem apart_note (p : Plan) : (tp.note p).Apart := by
  unfold Tcpcb.note
  split_ifs
  · refine apart_startRexmt (apart_raise ?_ _)
    exact h.congr rfl rfl
  · exact h.congr rfl rfl
  · exact h

theorem apart_noted (p : Plan) (win : ℤ) (data : List (BitVec 8)) (ok : Bool) :
    (tp.noted p win data ok).Apart :=
  (apart_note (apart_dragUp h) p).congr rfl rfl

theorem apart_of_negotiates (hterms : Negotiates tp tp') : tp'.Apart := by
  obtain ⟨t, rfl, -⟩ := hterms
  exact h.congr rfl rfl

end

theorem apart_output : KeptByOutput .any (· ≠ .rexmt) Tcpcb.Apart where
  panics _ := id
  frame h core := h.congr (congrArg Core.timers core) (congrArg Core.returned core)
  returns h := h.returns
  mss h _ _ _ := apart_of_negotiates h (negotiates_tcpMss _ _ _)
  retreat := apart_retreat
  rest := rest_apart
  noted h _ _ win data := apart_noted h _ win data false
  handed h _ _ win data := (apart_noted h _ win data true).congr rfl rfl

/-! ## The other changes -/

section

variable (h : tp.Apart)

include h

theorem apart_restartRexmt (all : Bool) : (tp.restartRexmt all).Apart := by
  unfold Tcpcb.restartRexmt
  split_ifs with hall hpersist
  · exact h.set (.inl rfl) (.inl rfl) rfl
  · exact h.set (.inr hpersist) (.inl rfl) rfl
  · exact h

/-- The retransmission timer backs off: while it runs, the other does not. -/
theorem apart_backOff (hrun : tp.rexmt ≠ 0) (hshift : ¬ tp.rxtshift + 1 > TCP_MAXRXTSHIFT) (n : ℤ) :
    ({ tp with rexmt := n, rxtshift := tp.rxtshift + 1 } : Tcpcb).Apart := by
  obtain ⟨hexcl, hlo, -⟩ := h.now
  refine ⟨⟨.inr (hexcl.resolve_left hrun), ?_⟩, h.returned⟩
  simp only [Tcpcb.timers, TCP_MAXRXTSHIFT] at hlo hshift ⊢
  omega

theorem apart_giveUp : ({ tp with rexmt := 0, rxtshift := TCP_MAXRXTSHIFT } : Tcpcb).Apart :=
  ⟨⟨.inl rfl, (by decide : 0 ≤ TCP_MAXRXTSHIFT), le_rfl⟩, h.returned⟩

theorem apart_tickRexmt (hrun : tp.rexmt ≠ 0) (n : ℤ) : ({ tp with rexmt := n } : Tcpcb).Apart :=
  h.set (.inr (h.now.1.resolve_left hrun)) (.inl rfl) rfl

theorem apart_tickPersist (hrun : tp.persist ≠ 0) (n : ℤ) :
    ({ tp with persist := n } : Tcpcb).Apart :=
  h.set (.inl (h.now.1.resolve_right hrun)) (.inl rfl) rfl

theorem apart_drop {ts : List Turn} (hts : World.any.Turns ts) :
    Ends (orStarved (· ≠ .rexmt))
      (fun tp' => ({ tp' with template := false, gone := true } : Tcpcb).Apart)
      (outputs { tp with tState := .closed } ts) := by
  refine (apart_output.outputs ?_ hts).imp fun _ h' => h'.congr rfl rfl
  exact h.congr rfl rfl

end

/-- **Everything keeps the timers apart.** -/
theorem kept_apart : Kept .any (· ≠ .rexmt) Tcpcb.Apart where
  toKeptByOutput := apart_output
  unshift h := h.set h.now.1 (.inr rfl) rfl
  restart := apart_restartRexmt
  stop h := h.set (.inl rfl) (.inl rfl) rfl
  cancel h := h.set (.inl rfl) (.inl rfl) rfl
  connect h _ _ := h.congr rfl rfl
  listen h _ _ := h.congr rfl rfl
  rcvseqinit h _ _ := h.congr rfl rfl
  received h _ := h.congr rfl rfl
  scale h _ _ := h.congr rfl rfl
  state h _ _ := h.congr rfl rfl
  reset h _ _ := h.congr rfl rfl
  probe h _ _ _ := h.congr rfl rfl
  close h _ _ := h.congr rfl rfl
  drop := apart_drop
  setMaxseg h _ _ _ := h.congr rfl rfl
  setSndHiwat h _ _ _ := h.congr rfl rfl
  tickRexmt := apart_tickRexmt
  backOff := apart_backOff
  giveUp h _ := apart_giveUp h
  tickPersist := apart_tickPersist
  setpersist h hrun :=
    tcpSetpersist_apart (apart_tickPersist h hrun 0) (h.now.1.resolve_right hrun)

/-- **Every event** keeps the timers apart, and does not end in the panic. -/
theorem outcome_apart (h : tp.Apart) (e : Event) :
    Ends (orStarved (· ≠ .rexmt)) Tcpcb.Apart (e.outcome tp) := by
  cases e with
  | connect iss ts =>
    refine Ends.map (apart_output.outputs ?_ (turns_any ts)) fun _ h' => h'.returns
    exact h.congr rfl rfl
  | setMaxseg n | setSndHiwat n => exact Tcpcb.Apart.returns (h.congr rfl rfl)
  | _ => exact kept_apart.outcome h (within_any _) trivial

theorem apart_new (rfc1323 compat42 : Bool) (now : BitVec 32) (so : SoOptions) :
    (tcpNewtcpcb rfc1323 compat42 now so).Apart := by
  refine ⟨⟨.inl rfl, ?_⟩, nofun⟩
  exact (by decide : 0 ≤ (0 : ℤ) ∧ 0 ≤ TCP_MAXRXTSHIFT)

theorem apart_started (h : Started tp) : tp.Apart := by
  cases h with
  | active => exact apart_new _ _ _ _
  | passive rfc1323 compat42 now so =>
    exact (apart_new rfc1323 compat42 now so).congr rfl rfl

/-- **Retransmission and persistence exclude each other.**  On every connection that events
lead to, the two timers do not both run: not now, and not at any return of a function on the
way; the shift is an index of `tcp_backoff`; and no further event ends in the panic of
`tcp_setpersist`. -/
theorem never_both (tp : Tcpcb) (h : Reached tp) :
    (tp.rexmt = 0 ∨ tp.persist = 0) ∧
    (0 ≤ tp.rxtshift ∧ tp.rxtshift ≤ TCP_MAXRXTSHIFT ∧ tp.rxtshift.toNat < tcpBackoff.length) ∧
    (∀ t ∈ tp.returned, (t.rexmt = 0 ∨ t.persist = 0) ∧ 0 ≤ t.rxtshift ∧
      t.rxtshift ≤ TCP_MAXRXTSHIFT) ∧
    ∀ e : Event, e.outcome tp ≠ .error (.panic .rexmt) := by
  have hapart := kept_apart.reached (fun _ => apart_started) h
  obtain ⟨hexcl, hlo, hhi⟩ := hapart.now
  refine ⟨hexcl, ⟨hlo, hhi, ?_⟩, hapart.returned, fun e herr => ?_⟩
  · simp only [Tcpcb.timers, TCP_MAXRXTSHIFT] at hhi
    simp only [tcpBackoff, List.length_cons, List.length_nil]
    omega
  · exact (outcome_apart hapart e).error herr rfl

/-- A socket with buffers of the usual size that is about to connect. -/
def opening : Tcpcb := tcpNewtcpcb false false 0 ⟨8192, 8192, false, false, false, false⟩

/-- A turn of `tcp_output` in which everything goes well. -/
def smooth : Turn := ⟨16384, none, true, none⟩

/-- The peer accepts the connection without a window, two bytes are to be sent, and then the peer
opens the window. -/
def stalled : List Event :=
  [.connect 0 [smooth],
    .input ⟨100, 1, TH_SYN ||| TH_ACK, 0, 0, [], .packet [], false⟩ ⟨16384, none, true, 0⟩ [smooth],
    .send [7, 8] [smooth],
    .input ⟨101, 1, TH_ACK, 4096, 0, [], .packet [], false⟩ ⟨16384, none, true, 0⟩ [smooth]]

/-- The connection waits for the acknowledgement of its SYN, for a window, and for the
acknowledgement of the bytes, and never for two of these. -/
theorem never_both_stalled : ∃ tp, Schedule.run step opening stalled = some tp ∧
    tp.returned.map (fun t => (t.rexmt, t.persist)) =
      [(3, 0), (3, 0), (0, 10), (0, 10), (0, 0), (0, 0), (12, 0), (12, 0)] ∧
    ∀ t ∈ tp.returned, (t.rexmt = 0 ∨ t.persist = 0) ∧ 0 ≤ t.rxtshift ∧
      t.rxtshift ≤ TCP_MAXRXTSHIFT := by
  refine ⟨_, rfl, by decide +kernel, (never_both _ ?_).2.2.1⟩
  exact ⟨opening, stalled, .active _ _ _ _ (by decide) (by decide), rfl⟩

end BSDLite2.Tcp
