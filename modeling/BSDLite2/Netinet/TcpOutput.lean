import BSDLite2.Netinet.Tcpcb

/-!
# TCP output (`netinet/tcp_output.c`)

`tcp_output` decides how much to send and whether to send at all, builds the segment, notes
what it sends, and starts over as long as there is more than one segment to send.  A turn
of it depends on the memory for mbufs and on `ip_output`: a `Turn` says how these come out.
The calls of a run are given a list of turns, and `tcpOutput` uses as many as it takes.

* `Tcpcb.plan` — the length and the flags of the next segment;
* `Tcpcb.wants` — the reasons to send;
* `Tcpcb.transmit` — the segment, and what is noted of it;
* `tcpOutput` — the function.
-/

namespace BSDLite2.Tcp

open Mbuf Serial

variable (tp : Tcpcb) (idle : Bool)

/-- The errors of `ip_output`: `ENOBUFS`; `EHOSTUNREACH` or `ENETDOWN`; another one. -/
inductive IpError where
  | enobufs | unreach | other
  deriving DecidableEq

/-- What a turn of `tcp_output` finds outside: what the mbufs leave of the receive buffer,
the route, whether there are mbufs for the segment, and what `ip_output` reports. -/
structure Turn where
  mb : ℤ
  route : Option Route
  mbufs : Bool
  ip : Option IpError

/-- What has been decided about the next segment. -/
structure Plan where
  off : BitVec 32
  len : ℤ
  flags : BitVec 8
  sendalot : Bool

variable (p : Plan) (win : ℤ) (data : List (BitVec 8))

/-! ## How much to send -/

/-- `off = tp->snd_nxt - tp->snd_una`. -/
def Tcpcb.off : BitVec 32 := tp.sndNxt - tp.sndUna

/-- `win = min(tp->snd_wnd, tp->snd_cwnd)`. -/
def Tcpcb.sendWin : BitVec 32 := umin tp.sndWnd tp.sndCwnd

/-- The window after `t_force` has been seen to: one byte at least. -/
def Tcpcb.forcedWin : BitVec 32 :=
  if tp.force ∧ tp.sendWin = 0 then 1 else tp.sendWin

/-- The flags after `t_force` has been seen to: no `TH_FIN` on a probe with data. -/
def Tcpcb.forcedFlags : BitVec 8 :=
  if tp.force ∧ tp.sendWin = 0 ∧ tp.off < tp.sndCc then clear (outflags tp.tState) TH_FIN
  else outflags tp.tState

/-- Forced to send into an open window, the connection leaves the persist state. -/
def Tcpcb.unpersist : Tcpcb :=
  if tp.force ∧ tp.sendWin ≠ 0 then { tp with persist := 0, rxtshift := 0 } else tp

/-- `len = min(so->so_snd.sb_cc, win) - off`. -/
def Tcpcb.rawLen : ℤ := (umin tp.sndCc tp.forcedWin - tp.off).toInt

/-- The window shrank to 0: the retransmission is cancelled. -/
def Tcpcb.retreat : Tcpcb :=
  if tp.rawLen < 0 ∧ tp.forcedWin = 0 then { tp.unpersist with rexmt := 0, sndNxt := tp.sndUna }
  else tp.unpersist

/-- The length, at most a full segment. -/
def Tcpcb.planLen : ℤ := min (max tp.rawLen 0) tp.maxseg

/-- The length and the flags of the next segment.  `off` is that of before `snd_nxt` was
pulled back. -/
def Tcpcb.plan : Plan where
  off := tp.off
  len := tp.planLen
  flags :=
    if seqLT (tp.retreat.sndNxt + ulong tp.planLen) (tp.sndUna + tp.sndCc) then
      clear tp.forcedFlags TH_FIN
    else tp.forcedFlags
  sendalot := decide (max tp.rawLen 0 > tp.maxseg)

/-! ## Whether to send -/

/-- A reason to send data. -/
def Tcpcb.sendsData : Bool :=
  decide (p.len ≠ 0) &&
    (decide (p.len = tp.maxseg) ||
      (idle || tp.nodelay) && decide (tp.sndCc ≤ ulong p.len + p.off) ||
      tp.force ||
      decide (tp.maxSndwnd / 2 ≤ ulong p.len) ||
      seqLT tp.sndNxt tp.sndMax)

/-- By how much the window of the peer can grow. -/
def Tcpcb.adv : ℤ :=
  (umin (ulong win) (BitVec.ofNat 32 (TCP_MAXWIN <<< tp.rcvScale.val)) -
    (tp.rcvAdv - tp.rcvNxt)).toInt

/-- A window update is due. -/
def Tcpcb.updatesWindow : Bool :=
  decide (win > 0) &&
    (decide (tp.adv win ≥ 2 * tp.maxseg) ||
      decide ((ulong (2 * tp.adv win)).toInt ≥ tp.rcvHiwat))

/-- The conditions under which `tcp_output` goes to `send`. -/
def Tcpcb.wants : Bool :=
  tp.sendsData idle p || tp.updatesWindow win || tp.acknow || has p.flags (TH_SYN ||| TH_RST) ||
    seqGT tp.sndUp tp.sndUna ||
    has p.flags TH_FIN && (!tp.sentfin || decide (tp.sndNxt = tp.sndUna))

/-! ## Sending -/

/-- A SYN goes back to `iss`, and tells the segment size. -/
def Tcpcb.prepareSyn (flags : BitVec 8) (route : Option Route) : Tcpcb :=
  if has flags TH_SYN then
    if tp.noopt then { tp with sndNxt := tp.iss } else tcpMss { tp with sndNxt := tp.iss } 0 route
  else tp

/-- `optlen`. -/
def Tcpcb.optlen (flags : BitVec 8) : ℕ :=
  (if has flags TH_SYN && !tp.noopt then
    if tp.reqScale && (!has flags TH_ACK || tp.rcvdScale) then 8 else 4
  else 0) +
  if tp.reqTstmp && !tp.noopt && !has flags TH_RST &&
      (decide (flags &&& (TH_SYN ||| TH_ACK) = TH_SYN) || tp.rcvdTstmp) then 12
  else 0

/-- The options leave room for less data. -/
def Tcpcb.fit : Plan :=
  if ulong p.len > BitVec.ofNat 32 tp.maxseg - BitVec.ofNat 32 (tp.optlen p.flags) then
    { p with
      len := (BitVec.ofNat 32 tp.maxseg - BitVec.ofNat 32 (tp.optlen p.flags)).toInt
      sendalot := true
      flags := clear p.flags TH_FIN }
  else p

/-- The data of a segment. -/
def Tcpcb.copy : Option (List (BitVec 8)) :=
  if p.len = 0 then some []
  else if p.off.toInt < 0 ∨ p.len < 0 ∨ p.off.toInt + p.len > tp.soSnd.length then none
  else some ((tp.soSnd.drop p.off.toNat).take p.len.toNat)

/-- Everything that is there goes with `TH_PUSH`. -/
def Tcpcb.push : BitVec 8 :=
  if p.len ≠ 0 ∧ p.off + ulong p.len = tp.sndCc then p.flags ||| TH_PUSH else p.flags

/-- A FIN that is sent again has the number it had. -/
def Tcpcb.refin (flags : BitVec 8) : Tcpcb :=
  if has flags TH_FIN ∧ tp.sentfin ∧ tp.sndNxt = tp.sndMax then { tp with sndNxt := tp.sndNxt - 1 }
  else tp

/-- `ti_seq`. -/
def Tcpcb.tiSeq : BitVec 32 :=
  if p.len ≠ 0 ∨ has p.flags (TH_SYN ||| TH_FIN) ∨ tp.persist ≠ 0 then tp.sndNxt else tp.sndMax

/-- The window that is offered: not a silly one, not more than the field can say, and not
less than before. -/
def Tcpcb.offer : ℤ :=
  max (min (if win < (tp.rcvHiwat / 4 : ℕ) ∧ win < tp.maxseg then 0 else win)
    (TCP_MAXWIN <<< tp.rcvScale.val : ℕ)) (dist tp.rcvAdv tp.rcvNxt)

/-- The urgent pointer is dragged along when there is nothing urgent. -/
def Tcpcb.dragUp : Tcpcb :=
  if seqGT tp.sndUp tp.sndNxt then tp else { tp with sndUp := tp.sndUna }

/-- The segment for `ip_output`. -/
def Tcpcb.segment (ok : Bool) : Sent where
  via := .output
  seq := tp.tiSeq p
  ack := tp.rcvNxt
  flags := if seqGT tp.sndUp tp.sndNxt then tp.push p ||| TH_URG else tp.push p
  win := BitVec.ofInt 16 (tp.offer win >>> tp.rcvScale.val)
  urp := if seqGT tp.sndUp tp.sndNxt then BitVec.ofInt 16 (dist tp.sndUp tp.sndNxt) else 0
  data := data
  stop := tp.acked + dist (tp.tiSeq p) tp.sndUna + seqLen p.flags data.length
  adv := tp.rcvAdv
  space := win
  ok := ok

/-- `snd_nxt` advances over the segment. -/
def Tcpcb.advance : Tcpcb :=
  { tp with
    sndNxt := tp.sndNxt + ulong (seqLen p.flags p.len)
    sentfin := tp.sentfin || has p.flags TH_FIN }

/-- `snd_max` follows, and the transmission is timed. -/
def Tcpcb.raise (startseq : BitVec 32) : Tcpcb :=
  if seqGT tp.sndNxt tp.sndMax then
    if tp.rtt = 0 then { tp with sndMax := tp.sndNxt, rtt := 1, rtseq := startseq }
    else { tp with sndMax := tp.sndNxt }
  else tp

/-- The retransmission timer is started, and the persist state left. -/
def Tcpcb.startRexmt : Tcpcb :=
  if tp.rexmt = 0 ∧ tp.sndNxt ≠ tp.sndUna then
    if tp.persist ≠ 0 then { tp with rexmt := tp.rxtcur, persist := 0, rxtshift := 0 }
    else { tp with rexmt := tp.rxtcur }
  else tp

/-- What is noted of a segment before it is sent. -/
def Tcpcb.note : Tcpcb :=
  if !tp.force ∨ tp.persist = 0 then ((tp.advance p).raise tp.sndNxt).startRexmt
  else if seqGT (tp.sndNxt + ulong p.len) tp.sndMax then
    { tp with sndMax := tp.sndNxt + ulong p.len }
  else tp

/-- What becomes of a turn. -/
inductive Next where
  | again
  | stop (error : Option IpError)

/-- The label `out`. -/
def Tcpcb.fail : IpError → Tcpcb × Next
  | .enobufs => (tcpQuench tp, .stop none)
  | .unreach =>
    if tp.tState.haveRcvdSyn then ({ tp with softerror := true }, .stop none)
    else (tp, .stop (some .unreach))
  | .other => (tp, .stop (some .other))

/-- What is noted of a segment after it has been sent. -/
def Tcpcb.sentOk : Tcpcb :=
  { tp with
    rcvAdv :=
      if win > 0 ∧ seqGT (tp.rcvNxt + ulong win) tp.rcvAdv then tp.rcvNxt + ulong win
      else tp.rcvAdv
    lastAckSent := tp.rcvNxt
    acknow := false
    delack := false }

/-- The connection when `ip_output` gets the segment. -/
def Tcpcb.noted (ok : Bool) : Tcpcb :=
  (tp.dragUp.note p).log (tp.segment p win data ok)

/-- The segment is handed to `ip_output`. -/
def Tcpcb.hand : Option IpError → Tcpcb × Next
  | some e => (tp.noted p win data false).fail e
  | none =>
    ((tp.noted p win data true).sentOk (tp.offer win), if p.sendalot then .again else .stop none)

/-- From the mbufs on, with the options settled. -/
def Tcpcb.build (t : Turn) : Except Panic (Tcpcb × Next) :=
  if !t.mbufs then .ok (tp.fail .enobufs)
  else match tp.copy p with
    | none => .error .copy
    | some data =>
      if !tp.template then .error .template
      else .ok ((tp.refin p.flags).hand p win data t.ip)

/-- From the label `send` on. -/
def Tcpcb.transmit (t : Turn) : Except Panic (Tcpcb × Next) :=
  (tp.prepareSyn p.flags t.route).build ((tp.prepareSyn p.flags t.route).fit p) win t

/-- There is no reason to send: persist, if there is data and no timer runs. -/
def Tcpcb.rest : Except Panic Tcpcb :=
  if tp.soSnd ≠ [] ∧ tp.rexmt = 0 ∧ tp.persist = 0 then tcpSetpersist { tp with rxtshift := 0 }
  else .ok tp

/-- One turn, from the label `again` on. -/
def outputTurn (tp : Tcpcb) (t : Turn) : Except Panic (Tcpcb × Next) :=
  if tp.retreat.wants idle tp.plan (tp.rcvSpace t.mb) then
    tp.retreat.transmit tp.plan (tp.rcvSpace t.mb) t
  else tp.retreat.rest.map (·, .stop none)

/-- A call fails: the list of turns is too short, or the code panics. -/
inductive Fail where
  | starved
  | panic (p : Panic)
  deriving DecidableEq

/-- A panic as a failure. -/
def orPanic {α : Type} : Except Panic α → Except Fail α
  | .ok a => .ok a
  | .error p => .error (.panic p)

/-- The next turn, or the end. -/
def Next.follow (turn : Tcpcb → Except Fail (Tcpcb × Option IpError)) :
    Next → Except Fail (Tcpcb × Option IpError)
  | .again => turn tp
  | .stop e => .ok (tp, e)

/-- The turns of `tcp_output`. -/
def outputLoop (idle : Bool) : List Turn → Tcpcb → Except Fail (Tcpcb × Option IpError)
  | [], _ => .error .starved
  | t :: ts, tp =>
    (orPanic (outputTurn idle tp t)).bind fun r => r.2.follow r.1 (outputLoop idle ts)

/-- `idle`: nothing is on its way. -/
def Tcpcb.isIdle : Bool := decide (tp.sndMax = tp.sndUna)

/-- After a while without anything on its way, the connection starts slowly again. -/
def Tcpcb.slowStart : Tcpcb :=
  if tp.isIdle ∧ (tp.idle : ℤ) ≥ tp.rxtcur then tcpQuench tp else tp

/-- `tcp_output`. -/
def tcpOutput (ts : List Turn) : Except Fail (Tcpcb × Option IpError) :=
  (outputLoop tp.isIdle ts tp.slowStart).map fun r => (r.1.returns, r.2)

end BSDLite2.Tcp
