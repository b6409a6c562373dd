import BSDLite2.Netinet.TcpOutput

/-!
# TCP input (`netinet/tcp_input.c`)

`tcp_input` is one long function with labels.  It is cut here into stages: a stage either
hands the connection and the segment to the next one, or leaves for one of the labels, an
`Exit`.  What happens at a label, and with it every call of `tcp_output`, is in
`Exit.run`.

* `predict` — header prediction, with its two fast paths;
* `established` — the stages after it, for the states beyond `SYN_SENT`: the timestamp, the
  two trims, RST and SYN, the acknowledgement (`ackStage`), and `step6`;
* `step6` — the window, the urgent pointer (`urgentStage`), the text and the FIN;
* `tcpInput` — the function.

The segment of the stages is `Seg`: the header with what the code changes in it, and the
local variables.  `tiFlags` are the flags of the header, which stay as they are, and
`tiflags` the local copy.
-/

namespace BSDLite2.Tcp

open Mbuf Serial

/-! ## Segments -/

/-- An option of the header. -/
inductive Opt where
  | maxseg (mss : BitVec 16)
  | window (shift : BitVec 8)
  | timestamp (val ecr : BitVec 32)

/-- A segment that arrives. -/
structure Arrival where
  seq : BitVec 32
  ack : BitVec 32
  flags : BitVec 8
  win : BitVec 16
  urp : BitVec 16
  opts : List Opt
  m : Mbufs
  /-- sent to a broadcast or multicast address -/
  bcast : Bool

/-- A segment in the course of `tcp_input`. -/
structure Seg extends Tiphdr where
  tiAck : BitVec 32
  tiUrp : ℤ
  tiflags : BitVec 8
  tiwin : BitVec 32
  /-- `ts_val` and `ts_ecr`, if `ts_present` -/
  ts : Option (BitVec 32 × BitVec 32)
  needoutput : Bool
  bcast : Bool

/-- Where `tcp_input` goes from a stage. -/
inductive Exit where
  | drop
  | dropafterack
  | dropwithreset
  /-- it returns -/
  | done
  /-- the end of the fast path for acknowledgements -/
  | acked
  /-- the end of the general path -/
  | output
  /-- the third duplicate acknowledgement; `snd_nxt` was `onxt` -/
  | retransmit (onxt : BitVec 32)
  /-- a further duplicate acknowledgement -/
  | inflate
  /-- `tcp_drop`, and then `dropwithreset` or `drop` -/
  | abort (reset : Bool)
  /-- `tcp_close`, and then `dropwithreset` or `drop` -/
  | close (reset : Bool)
  | panic (p : Panic)
  deriving DecidableEq

/-- The result of a stage. -/
inductive Stage where
  | next (tp : Tcpcb) (s : Seg)
  | leave (e : Exit) (tp : Tcpcb) (s : Seg)

/-- One stage after another. -/
def Stage.andThen : Stage → (Tcpcb → Seg → Stage) → Stage
  | .next tp s, f => f tp s
  | .leave e tp s, _ => .leave e tp s

/-! ## Options -/

variable (tp : Tcpcb) (s : Seg)

/-- A turn of the loop of `tcp_dooptions`. -/
def doOption (syn : Bool) (route : Option Route) (x : Tcpcb × Option (BitVec 32 × BitVec 32)) :
    Opt → Tcpcb × Option (BitVec 32 × BitVec 32)
  | .maxseg mss => if syn then (tcpMss x.1 (mss.zeroExtend 32) route, x.2) else x
  | .window shift =>
    if syn then
      ({ x.1 with
          rcvdScale := true
          requestedSScale := ⟨min shift.toNat TCP_MAX_WINSHIFT, by omega⟩ }, x.2)
    else x
  | .timestamp val ecr =>
    (if syn then { x.1 with rcvdTstmp := true, tsRecent := val, tsRecentAge := x.1.now } else x.1,
      some (val, ecr))

/-- `tcp_dooptions`, and the quick retrieval of a timestamp. -/
def tcpDooptions (syn : Bool) (route : Option Route) (opts : List Opt) :
    Tcpcb × Option (BitVec 32 × BitVec 32) :=
  opts.foldl (doOption syn route) (tp, none)

/-! ## Header prediction -/

/-- `TSTMP_LT` for the timestamp of the segment. -/
def Seg.olderThan (recent : BitVec 32) : Bool :=
  match s.ts with
  | none => false
  | some (val, _) => decide (dist val recent < 0)

/-- The timestamp is recorded if the last acknowledgement falls within the segment, to which
`extra` belongs besides its data. -/
def Tcpcb.stamp (extra : ℤ) : Tcpcb :=
  match s.ts with
  | none => tp
  | some (val, _) =>
    if seqLEQ s.tiSeq tp.lastAckSent && seqLT tp.lastAckSent (s.tiSeq + ulong (s.tiLen + extra))
    then { tp with tsRecentAge := tp.now, tsRecent := val }
    else tp

/-- The measurement of the round-trip time that an acknowledgement completes. -/
def Tcpcb.timeAck : Tcpcb :=
  match s.ts with
  | some (_, ecr) => tcpXmitTimer tp (tp.now - ecr + 1).toInt
  | none => if tp.rtt ≠ 0 ∧ seqGT s.tiAck tp.rtseq then tcpXmitTimer tp tp.rtt else tp

/-- The tests of header prediction. -/
def predicts : Bool :=
  decide (tp.tState = .established) &&
    decide (s.tiflags &&& (TH_SYN ||| TH_FIN ||| TH_RST ||| TH_URG ||| TH_ACK) = TH_ACK) &&
    !s.olderThan tp.tsRecent &&
    decide (s.tiSeq = tp.rcvNxt) &&
    decide (s.tiwin ≠ 0) && decide (s.tiwin = tp.sndWnd) &&
    decide (tp.sndNxt = tp.sndMax)

/-- A pure acknowledgement of outstanding data. -/
def pureAck : Bool :=
  decide (s.tiLen = 0) && seqGT s.tiAck tp.sndUna && seqLEQ s.tiAck tp.sndMax &&
    decide (tp.sndWnd ≤ tp.sndCwnd)

/-- Pure in-sequence data that there is room for. -/
def pureData (mb : ℤ) : Bool :=
  decide (s.tiLen ≠ 0) && decide (s.tiAck = tp.sndUna) && tp.segs.isEmpty &&
    decide (s.tiLen ≤ tp.rcvSpace mb)

/-- `snd_una` moves to an acknowledgement. -/
def Tcpcb.ackTo (ack : BitVec 32) : Tcpcb :=
  { tp with sndUna := ack, acked := tp.acked + dist ack tp.sndUna }

/-- The retransmission timer after an acknowledgement: stopped if everything is
acknowledged, or else restarted. -/
def Tcpcb.restartRexmt (all : Bool) : Tcpcb :=
  if all then { tp with rexmt := 0 }
  else if tp.persist = 0 then { tp with rexmt := tp.rxtcur }
  else tp

/-- `sbdrop` on the send buffer. -/
def Tcpcb.sbdropSnd (n : ℕ) : Tcpcb := { tp with soSnd := tp.soSnd.drop n }

/-- The fast path for an acknowledgement, up to `tcp_output`. -/
def fastAck : Stage :=
  if dist s.tiAck tp.sndUna > tp.soSnd.length then .leave (.panic .sbdrop) (tp.timeAck s) s
  else
    .leave .acked
      ((((tp.timeAck s).sbdropSnd (dist s.tiAck tp.sndUna).toNat).ackTo s.tiAck).restartRexmt
        (decide (s.tiAck = tp.sndMax))) s

/-- The fast path for data. -/
def fastData : Stage :=
  .leave .done
    { tp with
      rcvNxt := tp.rcvNxt + ulong s.tiLen
      soRcv := tp.soRcv ++ s.m.bytes
      delack := true } s

/-- Header prediction. -/
def predict (mb : ℤ) : Stage :=
  if predicts tp s then
    if pureAck (tp.stamp s 0) s then fastAck (tp.stamp s 0) s
    else if pureData (tp.stamp s 0) s mb then fastData (tp.stamp s 0) s
    else .next (tp.stamp s 0) s
  else .next tp s

/-- The receive window. -/
def Tcpcb.setRcvWnd (mb : ℤ) : Tcpcb :=
  { tp with rcvWnd := umax (ulong (max (tp.rcvSpace mb) 0)) (tp.rcvAdv - tp.rcvNxt) }

/-! ## Trimming -/

/-- `TCP_PAWS_IDLE`. -/
def TCP_PAWS_IDLE : ℤ := 24 * 24 * 60 * 60 * 2

/-- The test of the timestamp. -/
def pawsStage : Stage :=
  if !has s.tiflags TH_RST ∧ tp.tsRecent ≠ 0 ∧ s.olderThan tp.tsRecent then
    if dist tp.now tp.tsRecentAge > TCP_PAWS_IDLE then .next { tp with tsRecent := 0 } s
    else .leave .dropafterack tp s
  else .next tp s

/-- A SYN before the window is taken off. -/
def Seg.stripSyn : Seg :=
  if has s.tiflags TH_SYN then
    { s with
      tiSeq := s.tiSeq + 1
      tiUrp := if s.tiUrp > 1 then s.tiUrp - 1 else s.tiUrp
      tiflags := if s.tiUrp > 1 then clear s.tiflags TH_SYN else clear s.tiflags (TH_SYN ||| TH_URG) }
  else s

/-- The segment loses its first `todrop` bytes. -/
def Seg.dropFront (todrop : ℤ) : Seg :=
  { s with
    m := mAdj s.m todrop
    tiSeq := s.tiSeq + ulong todrop
    tiLen := short (s.tiLen - todrop)
    tiUrp := if s.tiUrp > todrop then s.tiUrp - todrop else 0
    tiflags := if s.tiUrp > todrop then s.tiflags else clear s.tiflags TH_URG }

/-- `todrop = tp->rcv_nxt - ti->ti_seq`. -/
def Tcpcb.before : ℤ := dist tp.rcvNxt s.tiSeq

/-- All that is left to drop is a FIN, or (with `TCP_COMPAT_42`) a reset one to the left. -/
def oneLeft (todrop : ℤ) : Bool :=
  has s.tiflags TH_FIN && decide (todrop = s.tiLen + 1) ||
    tp.compat42 && has s.tiflags TH_RST && decide (s.tiSeq = tp.rcvNxt - 1)

/-- Data before the window is dropped. -/
def dropDup (todrop : ℤ) : Stage :=
  if todrop ≥ s.tiLen then
    if oneLeft tp s todrop then
      .next { tp with acknow := true }
        ({ s with tiflags := clear s.tiflags TH_FIN }.dropFront s.tiLen)
    else if todrop ≠ 0 ∨ !has s.tiflags TH_ACK then .leave .dropafterack tp s
    else .next { tp with acknow := true } (s.dropFront todrop)
  else .next tp (s.dropFront todrop)

/-- The trim at the front. -/
def frontStage : Stage :=
  if tp.before s > 0 then
    dropDup tp s.stripSyn (if has s.tiflags TH_SYN then tp.before s - 1 else tp.before s)
  else .next tp s

/-- New data after the processes are gone. -/
def goneStage : Stage :=
  if tp.noFdRef ∧ tp.tState.num > TState.closeWait.num ∧ s.tiLen ≠ 0 then .leave (.close true) tp s
  else .next tp s

/-- `todrop = (ti->ti_seq+ti->ti_len) - (tp->rcv_nxt+tp->rcv_wnd)`. -/
def Tcpcb.beyond : ℤ :=
  dist (s.tiSeq + ulong s.tiLen) (tp.rcvNxt + tp.rcvWnd)

/-- The segment loses its last `todrop` bytes, and what stands behind them. -/
def Seg.dropTail (todrop : ℤ) : Seg :=
  { s with
    m := mAdj s.m (-todrop)
    tiLen := short (s.tiLen - todrop)
    tiflags := clear s.tiflags (TH_PUSH ||| TH_FIN) }

/-- The trim at the end.  A new SYN in `TIME_WAIT` ends the connection, and the segment goes
to whoever listens. -/
def tailStage : Stage :=
  if tp.beyond s > 0 then
    if tp.beyond s ≥ s.tiLen then
      if has s.tiflags TH_SYN ∧ tp.tState = .timeWait ∧ seqGT s.tiSeq tp.rcvNxt then
        .leave (.close false) tp s
      else if tp.rcvWnd = 0 ∧ s.tiSeq = tp.rcvNxt then
        .next { tp with acknow := true } (s.dropTail (tp.beyond s))
      else .leave .dropafterack tp s
    else .next tp (s.dropTail (tp.beyond s))
  else .next tp s

/-- The timestamp is recorded. -/
def stampStage : Stage :=
  .next (tp.stamp s (if has s.tiflags (TH_SYN ||| TH_FIN) then 1 else 0)) s

/-- RST, SYN, and segments without ACK. -/
def controlStage : Stage :=
  if has s.tiflags TH_RST then
    match tp.tState with
    | .synReceived | .established | .finWait1 | .finWait2 | .closeWait =>
      .leave (.close false) { tp with tState := .closed } s
    | _ => .leave (.close false) tp s
  else if has s.tiflags TH_SYN then .leave (.abort true) tp s
  else if !has s.tiflags TH_ACK then .leave .drop tp s
  else .next tp s

/-! ## Acknowledgements -/

/-- The scales of the windows, if both sides asked for them. -/
def Tcpcb.setScales : Tcpcb :=
  if tp.rcvdScale ∧ tp.reqScale then
    { tp with sndScale := tp.requestedSScale, rcvScale := tp.requestRScale }
  else tp

/-- `tcp_reass(tp, 0, 0)`, whose result is not used. -/
def Tcpcb.presentQueue : Tcpcb :=
  { tp with toTcprcv := (tcpReass tp.toTcprcv none).1 }

/-- The connection is established: its windows are scaled, and what waits in the queue is
presented. -/
def Tcpcb.establish : Tcpcb := { tp with tState := .established }.setScales.presentQueue

/-- An acknowledgement in `SYN_RECEIVED`. -/
def synRcvdStage : Stage :=
  if tp.tState = .synReceived then
    if seqGT tp.sndUna s.tiAck || seqGT s.tiAck tp.sndMax then .leave .dropwithreset tp s
    else .next { tp.establish with sndWl1 := s.tiSeq - 1 } s
  else .next tp s

/-- Half of the window in full segments, but two at least. -/
def Tcpcb.halfWindow : BitVec 32 :=
  let win := umin tp.sndWnd tp.sndCwnd / 2 / BitVec.ofNat 32 tp.maxseg
  (if win < 2 then 2 else win) * BitVec.ofNat 32 tp.maxseg

/-- `tcprexmtthresh`. -/
def TCPREXMTTHRESH : ℤ := 3

/-- An acknowledgement that is not new. -/
def dupAckStage : Stage :=
  if s.tiLen = 0 ∧ s.tiwin = tp.sndWnd then
    if tp.rexmt = 0 ∨ s.tiAck ≠ tp.sndUna then .next { tp with dupacks := 0 } s
    else if short (tp.dupacks + 1) = TCPREXMTTHRESH then
      .leave (.retransmit tp.sndNxt)
        { tp with
          dupacks := TCPREXMTTHRESH
          sndSsthresh := tp.halfWindow
          rexmt := 0
          rtt := 0
          sndNxt := s.tiAck
          sndCwnd := BitVec.ofNat 32 tp.maxseg } s
    else if short (tp.dupacks + 1) > TCPREXMTTHRESH then
      .leave .inflate
        { tp with
          dupacks := short (tp.dupacks + 1)
          sndCwnd := tp.sndCwnd + BitVec.ofNat 32 tp.maxseg } s
    else .next { tp with dupacks := short (tp.dupacks + 1) } s
  else .next { tp with dupacks := 0 } s

/-- The congestion window is retracted. -/
def Tcpcb.deflate : Tcpcb :=
  { tp with
    sndCwnd := if tp.dupacks > TCPREXMTTHRESH ∧ tp.sndCwnd > tp.sndSsthresh then tp.sndSsthresh
      else tp.sndCwnd
    dupacks := 0 }

/-- The congestion window opens. -/
def Tcpcb.openCwnd : Tcpcb :=
  let incr : BitVec 32 := BitVec.ofNat 32 tp.maxseg
  { tp with
    sndCwnd := umin (tp.sndCwnd + if tp.sndCwnd > tp.sndSsthresh then incr * incr / tp.sndCwnd
      else incr) (BitVec.ofNat 32 (TCP_MAXWIN <<< tp.sndScale.val)) }

/-- `ourfinisacked`: more is acknowledged than there is in the send buffer. -/
def Tcpcb.finIsAcked : Bool := decide (s.tiAck - tp.sndUna > tp.sndCc)

/-- What is acknowledged leaves the send buffer and the window. -/
def Tcpcb.dropAcked : Tcpcb :=
  if tp.finIsAcked s then { tp with sndWnd := tp.sndWnd - tp.sndCc, soSnd := [] }
  else
    { tp with
      sndWnd := tp.sndWnd - (s.tiAck - tp.sndUna)
      soSnd := tp.soSnd.drop (s.tiAck - tp.sndUna).toNat }

/-- `snd_nxt` is not left behind. -/
def Tcpcb.pullNxt : Tcpcb :=
  if seqLT tp.sndNxt tp.sndUna then { tp with sndNxt := tp.sndUna } else tp

/-- The connection after a new acknowledgement, before the states are looked at. -/
def Tcpcb.ackNew : Tcpcb :=
  ((((tp.timeAck s).restartRexmt (decide (s.tiAck = tp.sndMax))).openCwnd.dropAcked s).ackTo
    s.tiAck).pullNxt

/-- The acknowledgement is taken for that of the FIN. -/
def Tcpcb.finDone : Tcpcb := { tp with closedBy := tp.acked :: tp.closedBy }

/-- The states that wait for their FIN to be acknowledged. -/
def closingStage (ourfinisacked : Bool) (tp : Tcpcb) (s : Seg) : Stage :=
  match tp.tState with
  | .finWait1 =>
    if ourfinisacked then
      if tp.cantRcvMore then
        .next { soisdisconnected tp.finDone with msl := TCP_MAXIDLE, tState := .finWait2 } s
      else .next { tp.finDone with tState := .finWait2 } s
    else .next tp s
  | .closing =>
    if ourfinisacked then
      .next (soisdisconnected
        { tcpCanceltimers { tp.finDone with tState := .timeWait } with msl := 2 * TCPTV_MSL }) s
    else .next tp s
  | .lastAck => if ourfinisacked then .leave (.close false) tp.finDone s else .next tp s
  | .timeWait => .leave .dropafterack { tp with msl := 2 * TCPTV_MSL } s
  | _ => .next tp s

/-- A new acknowledgement. -/
def newAckStage : Stage :=
  if seqGT s.tiAck tp.sndMax then .leave .dropafterack tp s
  else
    closingStage (tp.finIsAcked s) (tp.ackNew s)
      { s with needoutput := s.needoutput || decide (s.tiAck = tp.sndMax) }

/-- The acknowledgement. -/
def ackStage : Stage :=
  if seqLEQ s.tiAck tp.sndUna then dupAckStage tp s else newAckStage tp.deflate s

/-! ## Window, urgent pointer, text -/

/-- The segment has newer information about the window. -/
def newerWindow : Bool :=
  has s.tiflags TH_ACK &&
    (seqLT tp.sndWl1 s.tiSeq ||
      decide (tp.sndWl1 = s.tiSeq) &&
        (seqLT tp.sndWl2 s.tiAck ||
          decide (tp.sndWl2 = s.tiAck) && decide (s.tiwin > tp.sndWnd)))

/-- The window is updated. -/
def windowStage : Stage :=
  if newerWindow tp s then
    .next
      { tp with
        sndWnd := s.tiwin
        sndWl1 := s.tiSeq
        sndWl2 := s.tiAck
        maxSndwnd := if s.tiwin > tp.maxSndwnd then s.tiwin else tp.maxSndwnd }
      { s with needoutput := true }
  else .next tp s

/-- The byte at a place of a chain, and the chain without it. -/
def pullByte : ℕ → List Buf → Option (BitVec 8 × List Buf)
  | _, [] => none
  | cnt, m :: ms =>
    match m.bytes[cnt]? with
    | some c => some (c, { m with bytes := m.bytes.eraseIdx cnt } :: ms)
    | none => (pullByte (cnt - m.bytes.length) ms).map fun r => (r.1, m :: r.2)

/-- `tcp_pulloutofband`. -/
def tcpPulloutofband : Stage :=
  match pullByte (s.tiUrp - 1).toNat s.m.bufs with
  | none => .leave (.panic .outofband) tp s
  | some (c, bufs) =>
    .next { tp with iobc := c, haveData := true } { s with m := { s.m with bufs := bufs } }

/-- The urgent pointer moves forward, and the stream is marked. -/
def Tcpcb.markUrgent : Tcpcb :=
  if seqGT (s.tiSeq + ulong s.tiUrp) tp.rcvUp then
    { tp with
      rcvUp := s.tiSeq + ulong s.tiUrp
      oobmark := BitVec.ofNat 32 tp.soRcv.length + (s.tiSeq + ulong s.tiUrp - tp.rcvNxt) - 1
      rcvAtMark := tp.rcvAtMark ||
        decide (BitVec.ofNat 32 tp.soRcv.length + (s.tiSeq + ulong s.tiUrp - tp.rcvNxt) - 1 = 0)
      haveData := false
      hadData := false }
  else tp

/-- The urgent pointer. -/
def urgentStage : Stage :=
  if has s.tiflags TH_URG ∧ s.tiUrp ≠ 0 ∧ !tp.tState.haveRcvdFin then
    if s.tiUrp + tp.soRcv.length > SB_MAX then
      .next tp { s with tiUrp := 0, tiflags := clear s.tiflags TH_URG }
    else if s.tiUrp ≤ s.tiLen ∧ !tp.oobInline then tcpPulloutofband (tp.markUrgent s) s
    else .next (tp.markUrgent s) s
  else if seqGT tp.rcvNxt tp.rcvUp then .next { tp with rcvUp := tp.rcvNxt } s
  else .next tp s

/-- The text goes to reassembly. -/
def textStage : Stage :=
  if (s.tiLen ≠ 0 ∨ has s.tiflags TH_FIN) ∧ !tp.tState.haveRcvdFin then
    .next { tp with toTcprcv := (TCP_REASS tp.toTcprcv s.toTiphdr).1 }
      { s with tiflags := (TCP_REASS tp.toTcprcv s.toTiphdr).2 }
  else .next tp { s with tiflags := clear s.tiflags TH_FIN }

/-- A FIN has been received. -/
def Tcpcb.receiveFin : Tcpcb :=
  if !tp.tState.haveRcvdFin then
    { tp with cantRcvMore := true, acknow := true, rcvNxt := tp.rcvNxt + 1 }
  else tp

/-- The states after a FIN. -/
def Tcpcb.finState : Tcpcb :=
  match tp.tState with
  | .synReceived | .established => { tp with tState := .closeWait }
  | .finWait1 => { tp with tState := .closing }
  | .finWait2 =>
    soisdisconnected { tcpCanceltimers { tp with tState := .timeWait } with msl := 2 * TCPTV_MSL }
  | .timeWait => { tp with msl := 2 * TCPTV_MSL }
  | _ => tp

/-- The FIN, and the end of the general path. -/
def finStage : Stage :=
  if has s.tiflags TH_FIN then .leave .output tp.receiveFin.finState s else .leave .output tp s

/-- From the label `step6` on. -/
def step6 : Stage :=
  (((windowStage tp s).andThen urgentStage).andThen textStage).andThen finStage

/-- The states other than `LISTEN` and `SYN_SENT`, up to the acknowledgement. -/
def trims : Stage :=
  (((pawsStage tp s).andThen frontStage).andThen goneStage).andThen tailStage

/-- The states other than `LISTEN` and `SYN_SENT`. -/
def established : Stage :=
  (((((trims tp s).andThen stampStage).andThen controlStage).andThen synRcvdStage).andThen
    ackStage).andThen step6

/-! ## Opening -/

/-- The label `trimthenstep6`. -/
def trimthenstep6 : Stage :=
  let cut := decide (ulong s.tiLen > tp.rcvWnd)
  step6 { tp with sndWl1 := s.tiSeq, rcvUp := s.tiSeq + 1 }
    { s with
      tiSeq := s.tiSeq + 1
      m := if cut then mAdj s.m (-(ulong s.tiLen - tp.rcvWnd).toInt) else s.m
      tiLen := if cut then short tp.rcvWnd.toInt else s.tiLen
      tiflags := if cut then clear s.tiflags TH_FIN else s.tiflags }

/-- `LISTEN`: the connection takes its numbers. -/
def listenStage (iss : BitVec 32) (tp : Tcpcb) (s : Seg) : Stage :=
  trimthenstep6
    { tcpRcvseqinit (tcpSendseqinit { tp with iss := iss, irs := s.tiSeq }) with
      acknow := true
      tState := .synReceived
      keep := TCPTV_KEEP_INIT } s

/-- The connection that was opened actively has its SYN acknowledged, or not. -/
def Tcpcb.synSentAck : Tcpcb :=
  if has s.tiflags TH_ACK then (tp.ackTo s.tiAck).pullNxt else tp

/-- The SYN of the peer stops the retransmission of ours, and is acknowledged. -/
def Tcpcb.takeSyn (irs : BitVec 32) : Tcpcb :=
  { tcpRcvseqinit { tp with rexmt := 0, irs := irs } with acknow := true }

/-- The state after a SYN in `SYN_SENT`. -/
def Tcpcb.synSentOpen : Tcpcb :=
  if has s.tiflags TH_ACK ∧ seqGT tp.sndUna tp.iss then
    if tp.rtt ≠ 0 then tcpXmitTimer tp.establish tp.rtt else tp.establish
  else { tp with tState := .synReceived }

/-- `SYN_SENT`. -/
def synSentStage : Stage :=
  if has s.tiflags TH_ACK ∧ (seqLEQ s.tiAck tp.iss || seqGT s.tiAck tp.sndMax) then
    .leave .dropwithreset tp s
  else if has s.tiflags TH_RST then
    if has s.tiflags TH_ACK then .leave (.abort false) tp s else .leave .drop tp s
  else if !has s.tiflags TH_SYN then .leave .drop tp s
  else trimthenstep6 (((tp.synSentAck s).takeSyn s.tiSeq).synSentOpen s) s

/-! ## The function -/

/-- `tcp_respond` with a reset: the segment answers the one that arrived. -/
def Seg.reset (win : ℤ) : Sent where
  via := .reset
  seq := if has s.tiflags TH_ACK then s.tiAck else 0
  ack := if has s.tiflags TH_ACK then 0
    else s.tiSeq + ulong (s.tiLen + if has s.tiflags TH_SYN then 1 else 0)
  flags := if has s.tiflags TH_ACK then TH_RST else TH_RST ||| TH_ACK
  win := BitVec.ofInt 16 win
  urp := 0
  data := []
  stop := 0
  adv := 0
  space := win
  ok := true

/-- What the label `dropwithreset` sends, where `win` is the window the reset shows. -/
def resetUnless (win : ℤ) : Tcpcb :=
  if has s.tiflags TH_RST || s.bcast then tp else tp.log (s.reset win)

/-- What a call of `tcp_output` leaves, its error put aside. -/
def outputs (ts : List Turn) : Except Fail Tcpcb := (tcpOutput tp ts).map Prod.fst

/-- `tcp_drop`. -/
def tcpDrop (ts : List Turn) : Except Fail Tcpcb :=
  if tp.tState.haveRcvdSyn then (outputs { tp with tState := .closed } ts).map tcpClose
  else .ok (tcpClose tp)

/-- After the third duplicate acknowledgement has had one segment sent again. -/
def Tcpcb.recover (onxt : BitVec 32) : Tcpcb :=
  { tp with
    sndCwnd := tp.sndSsthresh + BitVec.ofNat 32 tp.maxseg * ulong tp.dupacks
    sndNxt := if seqGT onxt tp.sndNxt then onxt else tp.sndNxt }

/-- What happens at the labels. -/
def Exit.run (mb : ℤ) (ts : List Turn) (tp : Tcpcb) (s : Seg) : Exit → Except Fail Tcpcb
  | .drop | .done => .ok tp
  | .dropafterack =>
    if has s.tiflags TH_RST then .ok tp else outputs { tp with acknow := true } ts
  | .dropwithreset => .ok (resetUnless tp s (tp.rcvSpace mb >>> tp.rcvScale.val))
  | .acked => if tp.soSnd ≠ [] then outputs tp ts else .ok tp
  | .output => if s.needoutput || tp.acknow then outputs tp ts else .ok tp
  | .retransmit onxt => (outputs tp ts).map (·.recover onxt)
  | .inflate => outputs tp ts
  | .abort reset => (tcpDrop tp ts).map fun tp => if reset then resetUnless tp s 0 else tp
  | .close reset => .ok (if reset then resetUnless (tcpClose tp) s 0 else tcpClose tp)
  | .panic p => .error (.panic p)

/-- What a stage leads to. -/
def Stage.run (mb : ℤ) (ts : List Turn) : Stage → Except Fail Tcpcb
  | .next tp _ => .ok tp
  | .leave e tp s => e.run mb ts tp s

/-- The segment as the stages get it. -/
def Arrival.seg (a : Arrival) (tp : Tcpcb) (ts : Option (BitVec 32 × BitVec 32)) : Seg where
  tiSeq := a.seq
  tiLen := short a.m.bytes.length
  tiFlags := a.flags
  m := a.m
  tiAck := a.ack
  tiUrp := a.urp.toNat
  tiflags := a.flags
  tiwin := if has a.flags TH_SYN then a.win.zeroExtend 32
    else a.win.zeroExtend 32 <<< tp.sndScale.val
  ts := ts
  needoutput := false
  bcast := a.bcast

/-- The connection is not idle any more. -/
def Tcpcb.wake : Tcpcb := { tp with idle := 0, keep := TCPTV_KEEP_IDLE }

/-- What an arriving segment finds outside: what the mbufs leave of the receive buffer, the
route, whether a new connection gets its address and template, and its `iss`. -/
structure Env where
  mb : ℤ
  route : Option Route
  pcb : Bool
  iss : BitVec 32

/-- The general path, by states.  In `LISTEN` the options have waited until now, so the window has
been computed before them. -/
def general (env : Env) (tp : Tcpcb) (s : Seg) : Stage :=
  match tp.tState with
  | .listen => listenStage env.iss tp s
  | .synSent => synSentStage (tp.setRcvWnd env.mb) s
  | _ => established (tp.setRcvWnd env.mb) s

/-- Header prediction, and the general path. -/
def process (env : Env) (tp : Tcpcb) (s : Seg) : Stage :=
  (predict tp s env.mb).andThen (general env)

/-- `tcp_input` for the connection of the segment.  In `LISTEN` it is the new connection of
a socket that listens, and the segment has to be a SYN. -/
def tcpInput (a : Arrival) (env : Env) (ts : List Turn) : Except Fail Tcpcb :=
  if tp.tState = .closed then .ok tp
  else if tp.tState = .listen then
    if a.flags &&& (TH_RST ||| TH_ACK ||| TH_SYN) ≠ TH_SYN then .ok tp
    else if a.bcast ∨ !env.pcb then .ok (tcpClose tp)
    else
      let tp := { tp.wake with requestRScale := requestScale tp.rcvHiwat, template := true }
      let x := tcpDooptions (tp.setRcvWnd env.mb) (has a.flags TH_SYN) env.route a.opts
      (process env x.1 (a.seg tp x.2)).run env.mb ts
  else
    let x := tcpDooptions tp.wake (has a.flags TH_SYN) env.route a.opts
    (process env x.1 (a.seg tp x.2)).run env.mb ts

end BSDLite2.Tcp
