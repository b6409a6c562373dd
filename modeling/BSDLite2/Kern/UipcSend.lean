import BSDLite2.Kern.SockBufRun

/-!
# Sending on a stream socket of the Unix domain (`kern/uipc_usrreq.c`)

`PRU_SEND` puts data straight into the receive buffer of the peer.  Data alone are appended
without regard to the space there.  Data with a control message are appended only if there is
space for both; if not, both are dropped, and the sender is told that they were sent.

* `Conn` — a socket and its peer;
* `uipcUsrreqSend` — `uipc_usrreq` with `PRU_SEND`, for `SOCK_STREAM`;
* `delivers_iff` — when nothing is lost unnoticed.
-/

namespace BSDLite2.SockBuf

open Heap List

/-! ## The code -/

/-- `EPIPE` -/
def EPIPE : ℕ := 32

/-- `m_freem` -/
def mFreem : ℕ → Mem Mbuf → Option ℕ → Except Stop (Mem Mbuf)
  | 0, _, _ => .error .loop
  | _ + 1, mem, none => pure mem
  | fuel + 1, mem, some m => do
      let c ← mem.get m
      mFreem fuel (mem.free m) c.mNext

/-- A connected socket, with what a send on it looks at. -/
structure Conn where
  /-- `SS_CANTSENDMORE` in `so_state` -/
  cantsendmore : Bool
  /-- `so_snd` -/
  snd : Sockbuf
  /-- `unp_conn->unp_mbcnt` -/
  unpMbcnt : ℤ
  /-- `unp_conn->unp_cc` -/
  unpCc : ℤ
  /-- `so_rcv` of the peer, and the mbufs -/
  rcv : St

/-- The label `release`. -/
def release (st : St) (m control : Option ℕ) : Except Stop St := do
  let mem ← mFreem st.fuel st.mem control
  let mem ← mFreem st.fuel mem m
  pure { st with mem := mem }

/-- The receive buffer of the peer, and what is left to release of `control`. -/
def appendRcv (rcv : St) (m control : Option ℕ) : Except Stop (St × Option ℕ) :=
  match control with
  | some _ => do
      let (rcv, ok) ← sbappendcontrol rcv m control
      pure (rcv, if ok then none else control)
  | none => (·, none) <$> sbappend rcv m

/-- The backpressure on the sender. -/
def Conn.pressure (so : Conn) (rcv : St) : Conn :=
  { so with
    snd := { so.snd with
      sbMbmax := so.snd.sbMbmax - (rcv.sb.sbMbcnt - so.unpMbcnt)
      sbHiwat := so.snd.sbHiwat - (rcv.sb.sbCc - so.unpCc) }
    unpMbcnt := rcv.sb.sbMbcnt
    unpCc := rcv.sb.sbCc
    rcv := rcv }

/-- The error that is found before anything is sent.  `internalize` is what `unp_internalize`
returns for `control`. -/
def sendError (internalize : ℕ) (so : Conn) (control : Option ℕ) : ℕ :=
  if control.isSome ∧ internalize ≠ 0 then internalize
  else if so.cantsendmore then EPIPE
  else 0

/-- **`uipc_usrreq`** with `PRU_SEND` on a `SOCK_STREAM` socket. -/
def uipcUsrreqSend (internalize : ℕ) (so : Conn) (m control : Option ℕ) :
    Except Stop (Conn × ℕ) :=
  if sendError internalize so control ≠ 0 then do
    let rcv ← release so.rcv m control
    pure ({ so with rcv := rcv }, sendError internalize so control)
  else do
    let (rcv, control) ← appendRcv so.rcv m control
    let rcv ← release rcv none control
    pure (so.pressure rcv, 0)

/-! ## What is released -/

variable {st : St} {q : List Record} {mem : Mem Mbuf} {F : List (ℕ × Mbuf)}

theorem mFreem_eq {l : Record} {fuel : ℕ} (hfuel : l.length < fuel)
    (ho : mem.Owns (seg inner none l ++ F)) :
    ∃ mem', mFreem fuel mem (head none l) = .ok mem' ∧ mem'.Owns F := by
  induction l generalizing mem fuel with
    obtain ⟨fuel, rfl⟩ := exists_fuel hfuel
  | nil => exact ⟨mem, rfl, ho⟩
  | cons x l ih =>
    obtain ⟨mem', hrun, ho'⟩ := ih (by simpa using hfuel) (ho.free (L := []))
    refine ⟨mem', ?_, ho'⟩
    simp only [mFreem, Heap.head_cons, ho.get (L := []), ok_bind]
    exact hrun

/-- What is released is not in the buffer. -/
theorem release_eq (l0 lc : Record) (hr : Represents st q)
    (ho : st.mem.Owns (seg inner none lc ++ (seg inner none l0 ++ qCells none q))) :
    ∃ st', release st (head none l0) (head none lc) = .ok st' ∧ Represents st' q := by
  have hlc : lc.length < st.fuel := length_lt_fuel ho.left
  have hl0 : l0.length < st.fuel := length_lt_fuel ho.right.left
  obtain ⟨mem₁, hrun₁, ho₁⟩ := mFreem_eq hlc ho
  obtain ⟨mem₂, hrun₂, ho₂⟩ := mFreem_eq hl0 ho₁
  refine ⟨⟨mem₂, st.sb⟩, ?_, ⟨⟨hr.linked.top, hr.linked.nonempty, hr.linked.distinct, ho₂.cells⟩,
    hr.cc, hr.mbcnt⟩⟩
  simp only [release, hrun₁, ok_bind, hrun₂]
  rfl

/-! ## What is sent -/

/-- The call that a send amounts to. -/
def sendOp (m control : Record) : Op := if control = [] then .append m else .appendControl m control

theorem Ready.owns_send {m control : Record} (h : Ready st (sendOp m control))
    (hr : Represents st q) :
    st.mem.Owns (seg inner none control ++ (seg inner none m ++ qCells none q)) := by
  have hd := h.nodup hr.linked
  cases control with
  | nil => exact (hr.linked.beside h.inHeap hd).comm
  | cons x l => exact hr.linked.beside_two h.inHeap hd

/-- **Nothing is lost unnoticed**: the queue of the peer has all bytes of the message and the data
behind those it had, or there is an error and it is as before. -/
def Delivers (m control : Record) (q q' : List Record) (error : ℕ) : Prop :=
  if error = 0 then q'.map toks = qCall hasEor 0 true (q.map toks) (sendOp m control) else q' = q

theorem sendError_ne_zero_iff (internalize : ℕ) (so : Conn) (control : Record) :
    sendError internalize so (head none control) ≠ 0 ↔
      control ≠ [] ∧ internalize ≠ 0 ∨ so.cantsendmore := by
  unfold sendError EPIPE
  cases control <;> split_ifs <;> simp_all

/-- **When nothing is lost unnoticed**: without a control message, with an error, or with space. -/
theorem delivers_iff (internalize : ℕ) {so : Conn} {m control : Record} (hr : Represents so.rcv q)
    (h : Ready so.rcv (sendOp m control)) :
    ∃ so' error q',
      uipcUsrreqSend internalize so (head none m) (head none control) = .ok (so', error) ∧
      Represents so'.rcv q' ∧ (Delivers m control q q' error ↔
        control = [] ∨ internalize ≠ 0 ∨ so.cantsendmore ∨
          (lenSum (control ++ m) : ℤ) ≤ sbspace so.rcv.sb) := by
  have ho := h.owns_send hr
  have herror := sendError_ne_zero_iff internalize so control
  unfold uipcUsrreqSend
  by_cases hfail : sendError internalize so (head none control) ≠ 0
  · obtain ⟨freed, hfree, hfreed⟩ := release_eq m control hr ho
    rw [if_pos hfail, hfree]
    refine ⟨_, _, q, rfl, hfreed, iff_of_true ?_ ?_⟩
    · rw [Delivers, if_neg hfail]
    · rcases herror.mp hfail with hint | hcant
      · exact .inr (.inl hint.2)
      · exact .inr (.inr (.inl hcant))
  rw [if_neg hfail]
  cases control with
  | nil =>
    obtain ⟨st', ok, q', hrun, hr', hq'⟩ := call_eq hr h
    change (·, true) <$> sbappend so.rcv (head none m) = .ok (st', ok) at hrun
    rcases happend : sbappend so.rcv (head none m) with e | st <;> rw [happend] at hrun <;>
      cases hrun
    simp only [appendRcv, head_nil, happend]
    exact ⟨_, 0, q', rfl, hr', iff_of_true hq' (.inl trivial)⟩
  | cons x l =>
    by_cases hspace : (lenSum (x :: l ++ m) : ℤ) ≤ sbspace so.rcv.sb
    · obtain ⟨st', hrun, hbec⟩ := sbappendcontrol_eq ho hr.linked hspace
      simp only [appendRcv, Heap.head_cons, hrun, ok_bind]
      refine ⟨_, 0, _, rfl, hbec.represents hr, iff_of_true ?_ (.inr (.inr (.inr hspace)))⟩
      simp [Delivers, sendOp, qCall]
    -- there is no space: the control message is freed, and the error is 0 all the same
    · have hrun := sbappendcontrol_refuses ho (not_le.mp hspace)
      obtain ⟨freed, hfree, hfreed⟩ := release_eq [] (x :: l) hr
        (ho.perm (perm_append_comm_assoc ..)).right
      rw [head_nil, Heap.head_cons] at hfree
      simp only [appendRcv, Heap.head_cons, hrun, ok_bind, pure_eq_ok, Bool.false_eq_true, if_false,
        hfree]
      refine ⟨_, 0, q, rfl, hfreed, iff_of_false ?_ ?_⟩
      · simp [Delivers, sendOp, qCall]
      · simp_all

/-- A message that passes a descriptor, once `unp_internalize` is done with it. -/
def message : Node := (0, mget .control [16, 0, 0, 0, 0xff, 0xff, 0, 0, 1, 0, 0, 0, 0, 4, 0, 0xf0])

/-- Data that go with it. -/
def oneByte : Node := (1, mget .data [7])

/-- A pair of sockets with nothing sent yet, and the size the peer has set with `SO_RCVBUF`. -/
def pair (rcvbuf : ℤ) : Conn where
  cantsendmore := false
  snd :=
    { sbCc := 0, sbHiwat := 4096, sbMbcnt := 0, sbMbmax := 8192, sbMb := none, sbLock := false }
  unpMbcnt := 0
  unpCc := 0
  rcv :=
    { mem := Mem.empty.install (seg inner none [message] ++ seg inner none [oneByte])
      sb := { sbCc := 0, sbHiwat := rcvbuf, sbMbcnt := 0, sbMbmax := 2 * rcvbuf, sbMb := none,
              sbLock := false } }

theorem represents_pair (rcvbuf : ℤ) : Represents (pair rcvbuf).rcv [] := ⟨linked_nil, rfl, rfl⟩

theorem ready_pair (rcvbuf : ℤ) : Ready (pair rcvbuf).rcv (sendOp [oneByte] [message]) := by
  refine ⟨(Mem.holds_append.mp (Mem.holds_install _ (by decide))).symm, by decide, fun a _ h => ?_,
    cons_ne_nil _ _⟩
  simpa using ((represents_pair rcvbuf).linked.reachable_iff a).mp h

/-- A buffer of the usual size. -/
theorem delivers_usual : ∃ so' error q',
    uipcUsrreqSend 0 (pair 4096) (some 1) (some 0) = .ok (so', error) ∧ Represents so'.rcv q' ∧
      Delivers [oneByte] [message] [] q' error := by
  obtain ⟨so', error, q', hrun, hr, hiff⟩ := delivers_iff 0 (represents_pair 4096) (ready_pair 4096)
  exact ⟨so', error, q', hrun, hr, hiff.mpr (.inr (.inr (.inr (by decide))))⟩

/-- **A receive buffer of 16 bytes**: neither the message nor the byte arrives, and there is no
error. -/
theorem message_lost : Represents (pair 16).rcv [] ∧
    Ready (pair 16).rcv (sendOp [oneByte] [message]) ∧
    ∃ so', uipcUsrreqSend 0 (pair 16) (some 1) (some 0) = .ok (so', 0) ∧
      Represents so'.rcv [] ∧ ¬ Delivers [oneByte] [message] [] [] 0 :=
  ⟨represents_pair 16, ready_pair 16, _, rfl, ⟨linked_nil, rfl, rfl⟩, fun h => by cases h⟩

end BSDLite2.SockBuf
