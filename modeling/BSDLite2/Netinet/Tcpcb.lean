import BSDLite2.Kern.Param
import BSDLite2.Netinet.TcpReass

/-!
# The TCP control block (`netinet/tcp_var.h`, `netinet/tcp_timer.h`, `netinet/tcp_subr.c`)

A connection is its `struct tcpcb` together with what TCP reads and writes of the socket.
The functions here change it without sending anything: the estimate of the round-trip
time, the segment size, the persist timer, the end of the connection.

Lengths and sequence numbers are the 32-bit words of the code (`u_long`, `tcp_seq`), and a
`long` made of them is the signed value of a word; a `short` is an integer, reduced where
it is stored.

Four fields are not in the code.  `acked` counts the sequence numbers that have been
acknowledged, so that a number near `snd_una` has a position in the whole stream; `sent`
lists the segments handed to `ip_output`, the last one first; `closedBy` lists the positions
of the acknowledgements that were taken for those of the FIN; `returned` lists the timers as
they were when a function returned.
-/

namespace BSDLite2.Tcp

open Mbuf Serial

/-! ## Words -/

theorem short_bounds (x : ℤ) : -2 ^ 15 ≤ short x ∧ short x < 2 ^ 15 := by
  have hlo := Int.le_bmod (x := x) (m := 2 ^ 16) (by decide)
  have hhi := Int.bmod_lt (x := x) (m := 2 ^ 16) (by decide)
  unfold short
  omega

/-- What a `u_short` holds of an integer. -/
def ushort (x : ℤ) : ℕ := (x % 2 ^ 16).toNat

/-- An integer as an `u_long`. -/
def ulong (x : ℤ) : BitVec 32 := BitVec.ofInt 32 x

/-- `min` of the kernel, on `u_int`. -/
def umin (a b : BitVec 32) : BitVec 32 := if a < b then a else b

/-- `max` of the kernel, on `u_int`. -/
def umax (a b : BitVec 32) : BitVec 32 := if a > b then a else b

theorem toNat_umin (a b : BitVec 32) : (umin a b).toNat = min a.toNat b.toNat := by
  unfold umin
  split
  · next h =>
      have := BitVec.lt_def.mp h
      omega
  · next h =>
      have := mt BitVec.lt_def.mpr h
      omega

theorem toNat_umax (a b : BitVec 32) : (umax a b).toNat = max a.toNat b.toNat := by
  unfold umax
  split
  · next h =>
      have := BitVec.lt_def.mp h
      omega
  · next h =>
      have := mt BitVec.lt_def.mpr h
      omega

/-- `TH_SYN`. -/
def TH_SYN : BitVec 8 := 0x02

/-- `TH_RST`. -/
def TH_RST : BitVec 8 := 0x04

/-- `TH_PUSH`. -/
def TH_PUSH : BitVec 8 := 0x08

/-- `TH_ACK`. -/
def TH_ACK : BitVec 8 := 0x10

/-- `TH_URG`. -/
def TH_URG : BitVec 8 := 0x20

/-- One of the bits of a mask is set. -/
def has (flags mask : BitVec 8) : Bool := flags &&& mask != 0

/-- The flags without those of a mask. -/
def clear (flags mask : BitVec 8) : BitVec 8 := flags &&& ~~~mask

/-- `TCPS_HAVERCVDFIN`. -/
def TState.haveRcvdFin (s : TState) : Bool := decide (TState.timeWait.num ≤ s.num)

/-- `tcp_outflags`. -/
def outflags : TState → BitVec 8
  | .closed => TH_RST ||| TH_ACK
  | .listen => 0
  | .synSent => TH_SYN
  | .synReceived => TH_SYN ||| TH_ACK
  | .established | .closeWait | .finWait2 | .timeWait => TH_ACK
  | .finWait1 | .closing | .lastAck => TH_FIN ||| TH_ACK

/-! ## Constants -/

/-- `TCP_MAXWIN`. -/
def TCP_MAXWIN : ℕ := 65535

/-- `TCP_MAX_WINSHIFT`. -/
def TCP_MAX_WINSHIFT : ℕ := 14

/-- `tcp_mssdflt`. -/
def TCP_MSSDFLT : ℕ := 512

/-- `TCPTV_MSL`, in ticks of the slow timer. -/
def TCPTV_MSL : ℤ := 60

/-- `TCPTV_SRTTDFLT`. -/
def TCPTV_SRTTDFLT : ℤ := 6

/-- `TCPTV_PERSMIN`. -/
def TCPTV_PERSMIN : ℤ := 10

/-- `TCPTV_PERSMAX`. -/
def TCPTV_PERSMAX : ℤ := 120

/-- `TCPTV_KEEP_INIT`. -/
def TCPTV_KEEP_INIT : ℤ := 150

/-- `tcp_keepidle`, and also `tcp_maxpersistidle`. -/
def TCPTV_KEEP_IDLE : ℤ := 14400

/-- `tcp_keepintvl`. -/
def TCPTV_KEEPINTVL : ℤ := 150

/-- `tcp_maxidle`, as the first `tcp_slowtimo` sets it. -/
def TCP_MAXIDLE : ℤ := 1200

/-- `TCPTV_MIN`. -/
def TCPTV_MIN : ℤ := 2

/-- `TCPTV_REXMTMAX`. -/
def TCPTV_REXMTMAX : ℤ := 128

/-- `TCP_MAXRXTSHIFT`. -/
def TCP_MAXRXTSHIFT : ℤ := 12

/-- `tcp_backoff`. -/
def tcpBackoff : List ℤ := [1, 2, 4, 8, 16, 32, 64, 64, 64, 64, 64, 64, 64]

/-- `tcp_totbackoff`. -/
def TCP_TOTBACKOFF : ℤ := 511

/-- `sb_max`. -/
def SB_MAX : ℕ := 262144

/-! ## The state of a connection -/

/-- Who made a segment: `tcp_output`, or `tcp_respond` for a keep-alive probe or for a
reset. -/
inductive Via where
  | output | keepalive | reset
  deriving DecidableEq

/-- A segment handed to `ip_output`, and what became of it. -/
structure Sent where
  via : Via
  seq : BitVec 32
  ack : BitVec 32
  flags : BitVec 8
  win : BitVec 16
  urp : BitVec 16
  data : List (BitVec 8)
  /-- the position in the whole stream at which the segment ends -/
  stop : ℤ
  /-- `rcv_adv` at the time -/
  adv : BitVec 32
  /-- `sbspace` of the receive buffer at the time -/
  space : ℤ
  /-- `ip_output` reported no error -/
  ok : Bool
  deriving DecidableEq

/-- How many sequence numbers a segment takes. -/
def seqLen (flags : BitVec 8) (len : ℤ) : ℤ :=
  len + (if has flags TH_SYN then 1 else 0) + if has flags TH_FIN then 1 else 0

/-- The timers for retransmission and persistence, and their shift. -/
structure Timers where
  rexmt : ℤ
  persist : ℤ
  rxtshift : ℤ
  deriving DecidableEq

/-- `struct tcpcb`, with its socket. -/
structure Tcpcb extends Tcprcv where
  /-- `t_timer` -/
  rexmt : ℤ
  persist : ℤ
  keep : ℤ
  msl : ℤ
  rxtshift : ℤ
  rxtcur : ℤ
  dupacks : ℤ
  maxseg : ℕ
  force : Bool
  /-- the other `TF_` flags -/
  nodelay : Bool
  noopt : Bool
  sentfin : Bool
  reqScale : Bool
  rcvdScale : Bool
  reqTstmp : Bool
  rcvdTstmp : Bool
  /-- `t_template` has been made -/
  template : Bool
  sndUna : BitVec 32
  sndNxt : BitVec 32
  sndUp : BitVec 32
  sndWl1 : BitVec 32
  sndWl2 : BitVec 32
  iss : BitVec 32
  sndWnd : BitVec 32
  rcvWnd : BitVec 32
  rcvUp : BitVec 32
  irs : BitVec 32
  rcvAdv : BitVec 32
  sndMax : BitVec 32
  sndCwnd : BitVec 32
  sndSsthresh : BitVec 32
  idle : ℕ
  rtt : ℤ
  rtseq : BitVec 32
  srtt : ℤ
  rttvar : ℤ
  rttmin : ℕ
  maxSndwnd : BitVec 32
  /-- `TCPOOB_HAVEDATA` and `TCPOOB_HADDATA` -/
  haveData : Bool
  hadData : Bool
  iobc : BitVec 8
  softerror : Bool
  sndScale : Fin (TCP_MAX_WINSHIFT + 1)
  rcvScale : Fin (TCP_MAX_WINSHIFT + 1)
  requestRScale : Fin (TCP_MAX_WINSHIFT + 1)
  requestedSScale : Fin (TCP_MAX_WINSHIFT + 1)
  tsRecent : BitVec 32
  tsRecentAge : BitVec 32
  lastAckSent : BitVec 32
  /-- `so_snd` and the limits of both buffers -/
  soSnd : List (BitVec 8)
  sndHiwat : ℕ
  rcvHiwat : ℕ
  oobmark : BitVec 32
  /-- `SS_RCVATMARK`, `SS_CANTSENDMORE` and `SS_NOFDREF` -/
  rcvAtMark : Bool
  cantSendMore : Bool
  noFdRef : Bool
  /-- `SO_OOBINLINE`, `SO_KEEPALIVE`, and `SO_LINGER` with `so_linger == 0` -/
  oobInline : Bool
  keepAlive : Bool
  lingerNull : Bool
  /-- `TCP_COMPAT_42` -/
  compat42 : Bool
  /-- `tcp_now` -/
  now : BitVec 32
  /-- `tcp_close` has freed the control block -/
  gone : Bool
  acked : ℤ
  sent : List Sent
  closedBy : List ℤ
  returned : List Timers

variable (tp : Tcpcb)

/-- The calls that end in a `panic`. -/
inductive Panic where
  /-- `panic("tcp_output REXMT")` in `tcp_setpersist` -/
  | rexmt
  /-- `panic("tcp_output")`: there is no template -/
  | template
  /-- `m_copydata` or `m_copy` beyond the buffer -/
  | copy
  /-- `panic("sbdrop")` -/
  | sbdrop
  /-- `panic("tcp_pulloutofband")` -/
  | outofband
  deriving DecidableEq

/-- `so_snd.sb_cc`. -/
def Tcpcb.sndCc : BitVec 32 := BitVec.ofNat 32 tp.soSnd.length

/-- `sbspace(&so->so_rcv)`, where `mb` is what the mbufs leave. -/
def Tcpcb.rcvSpace (mb : ℤ) : ℤ := min (tp.rcvHiwat - tp.soRcv.length) mb

/-- A segment is handed to `ip_output`. -/
def Tcpcb.log (x : Sent) : Tcpcb := { tp with sent := x :: tp.sent }

/-- Note the timers as a function returns. -/
def Tcpcb.returns : Tcpcb :=
  { tp with returned := ⟨tp.rexmt, tp.persist, tp.rxtshift⟩ :: tp.returned }

/-- `TCPT_RANGESET`: what is stored in a `short`. -/
def rangeset (value tvmin tvmax : ℤ) : ℤ :=
  if short value < tvmin then short tvmin
  else if short value > tvmax then short tvmax
  else short value

/-- `TCP_REXMTVAL`. -/
def Tcpcb.rexmtval : ℤ := (tp.srtt >>> (3 : ℕ)) + tp.rttvar

/-! ## Round-trip times -/

/-- An average after a step, kept positive. -/
def smoothed (average delta : ℤ) : ℤ :=
  if short (average + delta) ≤ 0 then 1 else short (average + delta)

/-- The step of `t_srtt`. -/
def Tcpcb.srttDelta (rtt : ℤ) : ℤ := short (rtt - 1 - tp.srtt >>> (3 : ℕ))

/-- The step of `t_rttvar` for a step of `t_srtt`. -/
def Tcpcb.rttvarDelta (delta : ℤ) : ℤ :=
  short ((if delta < 0 then short (-delta) else delta) - tp.rttvar >>> (2 : ℕ))

/-- The averages with a new measurement. -/
def Tcpcb.measure (rtt : ℤ) : Tcpcb :=
  if tp.srtt ≠ 0 then
    { tp with
      srtt := smoothed tp.srtt (tp.srttDelta rtt)
      rttvar := smoothed tp.rttvar (tp.rttvarDelta (tp.srttDelta rtt)) }
  else { tp with srtt := short (rtt * 8), rttvar := short (rtt * 2) }

/-- `tcp_xmit_timer`. -/
def tcpXmitTimer (rtt : ℤ) : Tcpcb :=
  { tp.measure (short rtt) with
    rtt := 0
    rxtshift := 0
    rxtcur := rangeset (tp.measure (short rtt)).rexmtval tp.rttmin TCPTV_REXMTMAX
    softerror := false }

/-- `tcp_setpersist`. -/
def tcpSetpersist : Except Panic Tcpcb :=
  if tp.rexmt ≠ 0 then .error .rexmt
  else .ok
    { tp with
      persist := rangeset
        ((((tp.srtt >>> (2 : ℕ)) + tp.rttvar) >>> (1 : ℕ)) * tcpBackoff.getD tp.rxtshift.toNat 0)
        TCPTV_PERSMIN TCPTV_PERSMAX
      rxtshift := if tp.rxtshift < TCP_MAXRXTSHIFT then tp.rxtshift + 1 else tp.rxtshift }

/-- `tcp_canceltimers`. -/
def tcpCanceltimers : Tcpcb :=
  { tp with rexmt := 0, persist := 0, keep := 0, msl := 0 }

/-- `tcp_quench`. -/
def tcpQuench : Tcpcb := { tp with sndCwnd := BitVec.ofNat 32 tp.maxseg }

/-! ## The segment size -/

/-- What `tcp_mss` reads of the route to the peer: `rt_rmx`, the interface, and whether
the peer is local. -/
structure Route where
  rtt : BitVec 32
  lockRtt : Bool
  rttvar : BitVec 32
  mtu : BitVec 32
  sendpipe : BitVec 32
  recvpipe : BitVec 32
  ssthresh : BitVec 32
  ifMtu : BitVec 32
  localAddr : Bool

/-- The limit of a buffer after `sbreserve`. -/
def sbreserve (hiwat : ℕ) (cc : BitVec 32) : ℕ :=
  if cc.toNat > SB_MAX * MCLBYTES / (MSIZE + MCLBYTES) then hiwat else cc.toNat

/-- `roundup`, at most `sb_max`. -/
def pipeSize (bufsize mss : BitVec 32) : BitVec 32 :=
  if (bufsize + (mss - 1)) / mss * mss > BitVec.ofNat 32 SB_MAX then BitVec.ofNat 32 SB_MAX
  else (bufsize + (mss - 1)) / mss * mss

/-- `t_srtt` and `t_rttvar` from the route, in `tcp_mss`. -/
def Tcpcb.routeTimes (rt : Route) : Tcpcb :=
  { tp with
    rttmin := if rt.lockRtt then ushort (rt.rtt.toInt.tdiv 500000) else tp.rttmin
    srtt := short (rt.rtt.toInt.tdiv 62500)
    rttvar := if rt.rttvar ≠ 0 then short (rt.rttvar.toNat / 125000)
      else short ((short (rt.rtt.toInt.tdiv 62500) * 4).tdiv 8) }

/-- `t_rxtcur` from the round-trip times, in `tcp_mss`. -/
def Tcpcb.routeRxtcur : Tcpcb :=
  { tp with
    rxtcur := rangeset (((tp.srtt >>> (2 : ℕ)) + tp.rttvar) >>> (1 : ℕ)) tp.rttmin TCPTV_REXMTMAX }

/-- The segment size that fits the route. -/
def Route.mss (rt : Route) (offer : BitVec 32) : BitVec 32 :=
  let fit : BitVec 32 := rt.ifMtu - 40
  let round : BitVec 32 := if fit.toInt > MCLBYTES then fit &&& ~~~(BitVec.ofNat 32 MCLBYTES - 1)
    else fit
  let mss : BitVec 32 := if rt.mtu ≠ 0 then rt.mtu - 40
    else if rt.localAddr then round else umin round (BitVec.ofNat 32 TCP_MSSDFLT)
  umax (if offer ≠ 0 then umin mss offer else mss) 32

/-- The pipe size of a route, or else the limit of the buffer. -/
def pipeOr (pipe : BitVec 32) (hiwat : ℕ) : BitVec 32 :=
  if pipe = 0 then BitVec.ofNat 32 hiwat else pipe

/-- `tcp_mss` changes the limits of the send buffer, and the segment size. -/
def Tcpcb.mssSnd (rt : Route) (mss : BitVec 32) : Tcpcb × BitVec 32 :=
  if pipeOr rt.sendpipe tp.sndHiwat < mss then
    ({ tp with maxseg := ushort (pipeOr rt.sendpipe tp.sndHiwat).toInt },
      pipeOr rt.sendpipe tp.sndHiwat)
  else
    ({ tp with
        sndHiwat := sbreserve tp.sndHiwat (pipeSize (pipeOr rt.sendpipe tp.sndHiwat) mss)
        maxseg := ushort mss.toInt }, mss)

/-- `tcp_mss` changes the limits of the receive buffer. -/
def Tcpcb.mssRcv (rt : Route) (mss : BitVec 32) : Tcpcb :=
  if pipeOr rt.recvpipe tp.rcvHiwat > mss then
    { tp with rcvHiwat := sbreserve tp.rcvHiwat (pipeSize (pipeOr rt.recvpipe tp.rcvHiwat) mss) }
  else tp

/-- The sizes that `tcp_mss` stores, and the segment size it ends with. -/
def Tcpcb.mssSizes (rt : Route) (offer : BitVec 32) : Tcpcb × BitVec 32 :=
  if (rt.mss offer).toInt < tp.maxseg ∨ offer ≠ 0 then
    ((tp.mssSnd rt (rt.mss offer)).1.mssRcv rt (tp.mssSnd rt (rt.mss offer)).2,
      (tp.mssSnd rt (rt.mss offer)).2)
  else (tp, rt.mss offer)

/-- The windows that `tcp_mss` stores. -/
def Tcpcb.mssWindows (rt : Route) (mss : BitVec 32) : Tcpcb :=
  { tp with
    sndCwnd := mss
    sndSsthresh := if rt.ssthresh ≠ 0 then umax (2 * mss) rt.ssthresh else tp.sndSsthresh }

/-- `tcp_mss`. -/
def tcpMss (offer : BitVec 32) : Option Route → Tcpcb
  | none => tp
  | some rt =>
    let timed := if tp.srtt = 0 ∧ rt.rtt ≠ 0 then (tp.routeTimes rt).routeRxtcur else tp
    (timed.mssSizes rt offer).1.mssWindows rt (timed.mssSizes rt offer).2

/-! ## Beginning and end -/

/-- `soisdisconnected`. -/
def soisdisconnected : Tcpcb := { tp with cantRcvMore := true, cantSendMore := true }

/-- `tcp_close`. -/
def tcpClose : Tcpcb :=
  { soisdisconnected tp with segs := [], template := false, gone := true }

/-- The options of a socket that stay with it. -/
structure SoOptions where
  sndHiwat : ℕ
  rcvHiwat : ℕ
  oobInline : Bool
  keepAlive : Bool
  lingerNull : Bool
  noFdRef : Bool

/-- `tcp_newtcpcb`, on a socket with the given options. -/
def tcpNewtcpcb (rfc1323 compat42 : Bool) (now : BitVec 32) (so : SoOptions) : Tcpcb where
  segs := []
  rcvNxt := 0
  tState := .closed
  delack := false
  acknow := false
  cantRcvMore := false
  soRcv := []
  rexmt := 0
  persist := 0
  keep := 0
  msl := 0
  rxtshift := 0
  rxtcur := rangeset ((TCPTV_SRTTDFLT * 4) >>> (1 : ℕ)) TCPTV_MIN TCPTV_REXMTMAX
  dupacks := 0
  maxseg := TCP_MSSDFLT
  force := false
  nodelay := false
  noopt := false
  sentfin := false
  reqScale := rfc1323
  rcvdScale := false
  reqTstmp := rfc1323
  rcvdTstmp := false
  template := false
  sndUna := 0
  sndNxt := 0
  sndUp := 0
  sndWl1 := 0
  sndWl2 := 0
  iss := 0
  sndWnd := 0
  rcvWnd := 0
  rcvUp := 0
  irs := 0
  rcvAdv := 0
  sndMax := 0
  sndCwnd := BitVec.ofNat 32 (TCP_MAXWIN <<< TCP_MAX_WINSHIFT)
  sndSsthresh := BitVec.ofNat 32 (TCP_MAXWIN <<< TCP_MAX_WINSHIFT)
  idle := 0
  rtt := 0
  rtseq := 0
  srtt := 0
  rttvar := TCPTV_SRTTDFLT * 4
  rttmin := 2
  maxSndwnd := 0
  haveData := false
  hadData := false
  iobc := 0
  softerror := false
  sndScale := 0
  rcvScale := 0
  requestRScale := 0
  requestedSScale := 0
  tsRecent := 0
  tsRecentAge := 0
  lastAckSent := 0
  soSnd := []
  sndHiwat := so.sndHiwat
  rcvHiwat := so.rcvHiwat
  oobmark := 0
  rcvAtMark := false
  cantSendMore := false
  noFdRef := so.noFdRef
  oobInline := so.oobInline
  keepAlive := so.keepAlive
  lingerNull := so.lingerNull
  compat42 := compat42
  now := now
  gone := false
  acked := 0
  sent := []
  closedBy := []
  returned := []

/-- The smallest shift with which a window reaches the limit of the buffer. -/
def requestScale (hiwat : ℕ) : Fin (TCP_MAX_WINSHIFT + 1) :=
  ((List.finRange TCP_MAX_WINSHIFT).find? fun s => decide (hiwat ≤ TCP_MAXWIN <<< s.val)).elim
    (Fin.last TCP_MAX_WINSHIFT) Fin.castSucc

/-- `tcp_sendseqinit`. -/
def tcpSendseqinit : Tcpcb :=
  { tp with sndUna := tp.iss, sndNxt := tp.iss, sndMax := tp.iss, sndUp := tp.iss }

/-- `tcp_rcvseqinit`. -/
def tcpRcvseqinit : Tcpcb := { tp with rcvNxt := tp.irs + 1, rcvAdv := tp.irs + 1 }

end BSDLite2.Tcp
