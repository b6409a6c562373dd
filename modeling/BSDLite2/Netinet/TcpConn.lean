import BSDLite2.Lib.Schedule
import BSDLite2.Netinet.TcpInput

/-!
# A TCP connection and its events (`netinet/tcp_timer.c`, `netinet/tcp_usrreq.c`)

The timers and the requests of the user, and with them every event in the life of a
connection.

* `tcpSlowtimo`, `tcpFasttimo` — the timers;
* `tcpUsrclosed`, `tcpDisconnect` — the requests that close a connection;
* `Event`, `step` — what can happen to a connection;
* `Started`, `Reached` — how a connection begins, and what it can come to.

The requests are those that the socket layer makes.  `sosend` sends on a connected socket
and does not fill the buffer beyond its limit (1024 bytes more for urgent data); whether
the user has shut down sending it tests before it copies the data, during which it may
sleep, so that data can be queued after a shutdown.
-/

namespace BSDLite2.Tcp

open Mbuf Serial

variable (tp : Tcpcb) (ts : List Turn)

/-! ## Timers -/

/-- `tcp_respond` for a keep-alive probe, where `win` is `sbspace`.  With `TCP_COMPAT_42` it
has one byte of data, and a stale acknowledgement. -/
def Tcpcb.probe (win : ℤ) (ok : Bool) : Sent where
  via := .keepalive
  seq := tp.sndUna - 1
  ack := if tp.compat42 then tp.rcvNxt - 1 else tp.rcvNxt
  flags := TH_ACK
  win := BitVec.ofInt 16 (win >>> tp.rcvScale.val)
  urp := 0
  data := if tp.compat42 then [0] else []
  stop := tp.acked - 1 + if tp.compat42 then 1 else 0
  adv := tp.rcvAdv
  space := win
  ok := ok

/-- The 2MSL timer. -/
def timer2msl : Tcpcb :=
  if tp.tState ≠ .timeWait ∧ (tp.idle : ℤ) ≤ TCP_MAXIDLE then { tp with msl := TCPTV_KEEPINTVL }
  else tcpClose tp

/-- The retransmission timer, up to `tcp_output`. -/
def Tcpcb.backOff : Tcpcb :=
  let rxtcur := rangeset (tp.rexmtval * tcpBackoff.getD (tp.rxtshift + 1).toNat 0) tp.rttmin
    TCPTV_REXMTMAX
  let losing := decide (tp.rxtshift + 1 > TCP_MAXRXTSHIFT / 4)
  { tp with
    rxtshift := tp.rxtshift + 1
    rxtcur := rxtcur
    rexmt := rxtcur
    rttvar := if losing then short (tp.rttvar + tp.srtt >>> (3 : ℕ)) else tp.rttvar
    srtt := if losing then 0 else tp.srtt
    sndNxt := tp.sndUna
    rtt := 0
    sndCwnd := BitVec.ofNat 32 tp.maxseg
    sndSsthresh := tp.halfWindow
    dupacks := 0 }

/-- The retransmission timer. -/
def timerRexmt : Except Fail Tcpcb :=
  if tp.rxtshift + 1 > TCP_MAXRXTSHIFT then tcpDrop { tp with rxtshift := TCP_MAXRXTSHIFT } ts
  else outputs tp.backOff ts

/-- `tcp_output` with `t_force` set. -/
def forceOutput : Except Fail Tcpcb :=
  (outputs { tp with force := true } ts).map fun tp => { tp with force := false }

/-- The persist timer. -/
def timerPersist : Except Fail Tcpcb :=
  if tp.rxtshift = TCP_MAXRXTSHIFT ∧
      ((tp.idle : ℤ) ≥ TCPTV_KEEP_IDLE ∨ (tp.idle : ℤ) ≥ tp.rexmtval * TCP_TOTBACKOFF) then
    tcpDrop tp ts
  else (orPanic (tcpSetpersist tp)).bind fun tp => forceOutput tp ts

/-- How a keep-alive probe comes out: what the mbufs leave of the receive buffer, whether
there is an mbuf, and whether `ip_output` takes the probe. -/
structure Probe where
  mb : ℤ
  mbuf : Bool
  ok : Bool

/-- The keep-alive timer. -/
def timerKeep (k : Probe) (ts : List Turn) : Except Fail Tcpcb :=
  if tp.tState.num < TState.established.num then tcpDrop tp ts
  else if tp.keepAlive ∧ tp.tState.num ≤ TState.closeWait.num then
    if (tp.idle : ℤ) ≥ TCPTV_KEEP_IDLE + TCP_MAXIDLE then tcpDrop tp ts
    else if k.mbuf then
      .ok { tp.log (tp.probe (tp.rcvSpace k.mb) k.ok) with keep := TCPTV_KEEPINTVL }
    else .ok { tp with keep := TCPTV_KEEPINTVL }
  else .ok { tp with keep := TCPTV_KEEP_IDLE }

/-- What the timers find outside, each its own. -/
structure Ticks where
  rexmt : List Turn
  persist : List Turn
  probe : Probe
  keep : List Turn

/-- A timer ticks: `expired` is what happens when it comes to 0, unless the connection has
gone. -/
def tick (timer : Tcpcb → ℤ) (set : Tcpcb → ℤ → Tcpcb) (expired : Tcpcb → Except Fail Tcpcb)
    (tp : Tcpcb) : Except Fail Tcpcb :=
  if tp.gone ∨ timer tp = 0 then .ok tp
  else if timer tp - 1 = 0 then (expired (set tp 0)).map Tcpcb.returns
  else .ok (set tp (short (timer tp - 1)))

/-- The end of a turn of `tcp_slowtimo`. -/
def Tcpcb.age : Tcpcb :=
  if tp.gone then tp
  else
    { tp with
      idle := (tp.idle + 1) % 2 ^ 16
      rtt := if tp.rtt ≠ 0 then short (tp.rtt + 1) else 0 }

/-- The timers of a connection tick, in the order of their numbers. -/
def tickAll (k : Ticks) : Except Fail Tcpcb := do
  let tp ← tick Tcpcb.rexmt (fun tp n => { tp with rexmt := n }) (timerRexmt · k.rexmt) tp
  let tp ← tick Tcpcb.persist (fun tp n => { tp with persist := n }) (timerPersist · k.persist) tp
  let tp ← tick Tcpcb.keep (fun tp n => { tp with keep := n }) (timerKeep · k.probe k.keep) tp
  let tp ← tick Tcpcb.msl (fun tp n => { tp with msl := n }) (fun tp => .ok (timer2msl tp)) tp
  return tp.age

/-- `tcp_slowtimo`, for one connection. -/
def tcpSlowtimo (k : Ticks) : Except Fail Tcpcb :=
  (if tp.tState = .listen then .ok tp else tickAll tp k).map fun tp => { tp with now := tp.now + 1 }

/-- `tcp_fasttimo`, for one connection. -/
def tcpFasttimo : Except Fail Tcpcb :=
  if tp.delack then outputs { tp with delack := false, acknow := true } ts else .ok tp

/-! ## Requests of the user -/

/-- The states after a close by the user. -/
def Tcpcb.closeState : Tcpcb :=
  match tp.tState with
  | .closed | .listen | .synSent => tcpClose { tp with tState := .closed }
  | .synReceived | .established => { tp with tState := .finWait1 }
  | .closeWait => { tp with tState := .lastAck }
  | _ => tp

/-- `tcp_usrclosed`. -/
def tcpUsrclosed : Tcpcb :=
  if !tp.closeState.gone ∧ tp.closeState.tState.num ≥ TState.finWait2.num then
    soisdisconnected tp.closeState
  else tp.closeState

/-- `tcp_output`, if the connection is still there. -/
def outputUnlessGone : Except Fail Tcpcb :=
  if tp.gone then .ok tp else outputs tp ts

/-- `tcp_disconnect`. -/
def tcpDisconnect : Except Fail Tcpcb :=
  if tp.tState.num < TState.established.num then .ok (tcpClose tp)
  else if tp.lingerNull then tcpDrop tp ts
  else
    outputUnlessGone
      (tcpUsrclosed { tp with cantRcvMore := true, cantSendMore := true, soRcv := [] }) ts

/-- `PRU_CONNECT`, once there is an address and a template. -/
def pruConnect (iss : BitVec 32) (ts : List Turn) : Except Fail Tcpcb :=
  outputs
    (tcpSendseqinit
      { tp with
        template := true
        requestRScale := requestScale tp.rcvHiwat
        tState := .synSent
        keep := TCPTV_KEEP_INIT
        iss := iss }) ts

/-- `PRU_DETACH`, with which the last reference to the socket goes. -/
def pruDetach : Except Fail Tcpcb :=
  (if tp.tState.num > TState.listen.num then tcpDisconnect tp ts else .ok (tcpClose tp)).map
    fun tp => { tp with noFdRef := true }

/-- `PRU_SENDOOB`. -/
def pruSendoob (m : List (BitVec 8)) (space : ℤ) (ts : List Turn) : Except Fail Tcpcb :=
  if space < -512 then .ok tp
  else
    forceOutput
      { tp with
        soSnd := tp.soSnd ++ m
        sndUp := tp.sndUna + BitVec.ofNat 32 (tp.soSnd ++ m).length } ts

/-- `PRU_RCVOOB`, as far as it changes anything. -/
def pruRcvoob (peek : Bool) : Tcpcb :=
  if tp.oobmark = 0 ∧ !tp.rcvAtMark ∨ tp.oobInline ∨ tp.hadData ∨ !tp.haveData ∨ peek then tp
  else { tp with haveData := false, hadData := true }

/-! ## Events -/

/-- What can happen to a connection. -/
inductive Event where
  /-- a segment arrives -/
  | input (a : Arrival) (env : Env) (ts : List Turn)
  | connect (iss : BitVec 32) (ts : List Turn)
  | send (m : List (BitVec 8)) (ts : List Turn)
  | sendoob (m : List (BitVec 8)) (space : ℤ) (ts : List Turn)
  /-- the user has read `n` bytes, and `soreceive` left the mark in its new place -/
  | rcvd (n : ℕ) (mark : BitVec 32) (atMark : Bool) (ts : List Turn)
  | rcvoob (peek : Bool)
  /-- the user will not receive any more: the receive buffer is given up -/
  | sorflush
  | shutdown (ts : List Turn)
  | disconnect (ts : List Turn)
  | detach (ts : List Turn)
  | abort (ts : List Turn)
  /-- a process has taken the socket from the queue of the one that listens -/
  | accept
  | slowtimo (k : Ticks)
  | fasttimo (ts : List Turn)
  /-- a source quench, or another message of ICMP -/
  | quench
  | notify (soft : Bool)
  | setNodelay (on : Bool)
  | setMaxseg (n : ℕ)
  | setOptions (oobInline keepAlive lingerNull : Bool)
  | setSndHiwat (n : ℕ)
  | setRcvHiwat (n : ℕ)

/-- What the socket layer and the state of the connection require of an event. -/
def Event.allowed : Event → Bool
  | .connect _ _ => decide (tp.tState = .closed)
  | .send m _ =>
    decide (TState.established.num ≤ tp.tState.num) &&
      decide (tp.soSnd.length + m.length ≤ tp.sndHiwat)
  | .sendoob m _ _ =>
    decide (TState.established.num ≤ tp.tState.num) &&
      decide (tp.soSnd.length + m.length ≤ tp.sndHiwat + 1024)
  | .rcvd n _ _ _ => decide (n ≤ tp.soRcv.length)
  | .setMaxseg n => decide (0 < n) && decide (n ≤ tp.maxseg)
  | .setSndHiwat n | .setRcvHiwat n => decide (n ≤ SB_MAX)
  | _ => true

/-- What an event does. -/
def Event.act : Event → Except Fail Tcpcb
  | .input a env ts => tcpInput tp a env ts
  | .connect iss ts => pruConnect tp iss ts
  | .send m ts => outputs { tp with soSnd := tp.soSnd ++ m } ts
  | .sendoob m space ts => pruSendoob tp m space ts
  | .rcvd n mark atMark ts =>
    outputs { tp with soRcv := tp.soRcv.drop n, oobmark := mark, rcvAtMark := atMark } ts
  | .rcvoob peek => .ok (pruRcvoob tp peek)
  | .sorflush => .ok { tp with cantRcvMore := true, soRcv := [], rcvHiwat := 0 }
  | .shutdown ts => outputUnlessGone (tcpUsrclosed { tp with cantSendMore := true }) ts
  | .disconnect ts => tcpDisconnect tp ts
  | .detach ts => pruDetach tp ts
  | .abort ts => tcpDrop tp ts
  | .accept => .ok { tp with noFdRef := false }
  | .slowtimo k => tcpSlowtimo tp k
  | .fasttimo ts => tcpFasttimo tp ts
  | .quench => .ok (tcpQuench tp)
  | .notify soft => .ok { tp with softerror := tp.softerror || soft }
  | .setNodelay on => .ok { tp with nodelay := on }
  | .setMaxseg n => .ok { tp with maxseg := n }
  | .setOptions oobInline keepAlive lingerNull =>
    .ok { tp with oobInline := oobInline, keepAlive := keepAlive, lingerNull := lingerNull }
  | .setSndHiwat n => .ok { tp with sndHiwat := n }
  | .setRcvHiwat n => .ok { tp with rcvHiwat := n }

/-- The outcome of an event, with the timers noted when it returns. -/
def Event.outcome (e : Event) : Except Fail Tcpcb := (e.act tp).map Tcpcb.returns

/-- An event happens to a connection that is still there. -/
def step (e : Event) : Option Tcpcb :=
  if tp.gone ∨ !e.allowed tp then none else (e.outcome tp).toOption

/-- How a connection begins: a socket that will connect, or one made for a socket that
listens. -/
inductive Started : Tcpcb → Prop
  | active (rfc1323 compat42 : Bool) (now : BitVec 32) (so : SoOptions) :
      so.sndHiwat ≤ SB_MAX → so.rcvHiwat ≤ SB_MAX →
      Started (tcpNewtcpcb rfc1323 compat42 now so)
  | passive (rfc1323 compat42 : Bool) (now : BitVec 32) (so : SoOptions) :
      so.sndHiwat ≤ SB_MAX → so.rcvHiwat ≤ SB_MAX →
      Started { tcpNewtcpcb rfc1323 compat42 now so with tState := .listen }

/-- A connection after any events. -/
def Reached : Prop :=
  ∃ start events, Started start ∧ Schedule.run step start events = some tp

end BSDLite2.Tcp
