import BSDLite2.Lib.Pieces
import BSDLite2.Netinet.IpFrag

/-!
# Reassembly of fragments (`netinet/ip_input.c`)

Fragments of a datagram wait in a queue sorted by offset, one queue for each
datagram, until they are contiguous and the last one is there.  Packets are values here: how
their mbufs are cut and joined is in `IpMbuf`.  The comparisons are those of `ip_reass`, on
`short`s that it takes for `int`s; what is trimmed is written back to a `short`.

* `Ipq` — the queue of one datagram; the list `ipq` is a list of them;
* `fragQueue` — how `ip_reass` compares and trims fragments, for the insertion of `Pieces.Queue`;
* `ipReass` — `ip_reass`;
* `ipintr` — `ipintr` from the label `ours` on;
* `ipSlowtimo`, `ipDrain` — queues that are given up.
-/

namespace BSDLite2.IpFrag

variable (m : Packet)

/-! ## The code -/

/-- `struct ipq`, with its list of fragments.  In a fragment `ip_len` and `ip_off`
count bytes of data, and the low bit of `ip_tos` is `ipf_mff`. -/
structure Ipq where
  ipqTtl : BitVec 8
  ipqP : BitVec 8
  ipqId : BitVec 16
  ipqSrc : BitVec 32
  ipqDst : BitVec 32
  frags : List Packet

/-- `IPFRAGTTL`. -/
def IPFRAGTTL : BitVec 8 := 60

/-- `ip->ipf_mff & 1`. -/
def mff (ip : Packet) : Bool := ip.ip.ipTos &&& 1 ≠ 0

/-- A fragment loses its first `i` bytes of data. -/
def trimFront (i : ℤ) (ip : Packet) : Packet :=
  { ip with
    ip := { ip.ip with
      ipOff := BitVec.ofInt 16 (ip.ip.ipOff.toInt + i)
      ipLen := BitVec.ofInt 16 (ip.ip.ipLen.toInt - i) }
    data := ip.data.drop i.toNat }

/-- How `ip_reass` compares and trims the fragments in a queue. -/
def fragQueue : Pieces.Queue Packet where
  startsAfter q ip := decide (q.ip.ipOff.toInt > ip.ip.ipOff.toInt)
  overlap q ip := q.ip.ipOff.toInt + q.ip.ipLen.toInt - ip.ip.ipOff.toInt
  len ip := ip.ip.ipLen.toInt
  cut := trimFront

/-- The loop that checks for complete reassembly: where the fragments end, if
they are contiguous from `next` on. -/
def contiguous : ℤ → List Packet → Option ℤ
  | next, [] => some next
  | next, q :: frags =>
    if q.ip.ipOff.toInt ≠ next then none else contiguous (next + q.ip.ipLen.toInt) frags

/-- The header of the new packet is that of the first fragment, modified. -/
def newHeader (fp : Ipq) (next : ℤ) (ip : Ip) : Ip :=
  { ip with
    ipLen := BitVec.ofInt 16 next
    ipTos := ip.ipTos &&& ~~~1
    ipSrc := fp.ipqSrc
    ipDst := fp.ipqDst }

/-- The datagram, if reassembly is complete: the fragments are concatenated behind
the header of the first. -/
def complete (fp : Ipq) : Option Packet :=
  match contiguous 0 fp.frags, fp.frags.head?, fp.frags.getLast? with
  | some next, some first, some last =>
    if mff last then none
    else some
      { ip := newHeader fp next first.ip
        opts := first.opts
        data := fp.frags.flatMap Packet.data
        hlen_eq := first.hlen_eq }
  | _, _, _ => none

/-- The end of `ip_reass`, where `fp` is the queue with the new fragment. -/
def finish (before : List Ipq) (fp : Ipq) (behind : List Ipq) : List Ipq × Option Packet :=
  match complete fp with
  | some ip => (before ++ behind, some ip)
  | none => (before ++ fp :: behind, none)

/-- `ip_reass`.  The queue `fp` of the datagram is the first of `rest`, if there
is one; `alloc` tells whether a new one can be allocated. -/
def ipReass (alloc : Bool) (ip : Packet) (before rest : List Ipq) : List Ipq × Option Packet :=
  match rest with
  | [] =>
    if alloc then
      finish []
        { ipqTtl := IPFRAGTTL, ipqP := ip.ip.ipP, ipqId := ip.ip.ipId, ipqSrc := ip.ip.ipSrc,
          ipqDst := ip.ip.ipDst, frags := [ip] } before
    else (before, none)
  | fp :: behind =>
    match fragQueue.enqueue ip fp.frags with
    | none => (before ++ rest, none)
    | some frags => finish before { fp with frags := frags } behind

/-- The queue is that of the packet's datagram. -/
def Ipq.isFor (fp : Ipq) (ip : Ip) : Bool :=
  decide (ip.ipId = fp.ipqId ∧ ip.ipSrc = fp.ipqSrc ∧ ip.ipDst = fp.ipqDst ∧ ip.ipP = fp.ipqP)

/-- `ip_len` adjusted to not reflect the header, `ipf_mff` set if more fragments
are expected and the offset converted to bytes. -/
def adjust : Packet :=
  { m with
    ip := { m.ip with
      ipLen := m.ip.ipLen - BitVec.ofNat 16 m.hlen
      ipTos := (m.ip.ipTos &&& ~~~1) ||| (if m.ip.ipOff &&& IP_MF ≠ 0 then 1 else 0)
      ipOff := m.ip.ipOff <<< 3 } }

/-- **`ipintr`** from the label `ours` on: the queues left, and the packet that is
passed to the next level.  The header of a packet is contiguous here; that of a fragment in a
cluster is pulled up once more before, and may not be (`unshare`, `ipintrMbuf`). -/
def ipintr (alloc : Bool) (ipq : List Ipq) (m : Packet) : List Ipq × Option Packet :=
  if m.ip.ipOff &&& ~~~IP_DF ≠ 0 then
    let before := ipq.takeWhile fun fp => !fp.isFor m.ip
    let rest := ipq.dropWhile fun fp => !fp.isFor m.ip
    if mff (adjust m) ∨ (adjust m).ip.ipOff ≠ 0 then ipReass alloc (adjust m) before rest
    else (before ++ rest.tail, some (adjust m))
  else (ipq, some { m with ip := { m.ip with ipLen := m.ip.ipLen - BitVec.ofNat 16 m.hlen } })

/-- `ip_slowtimo`: every queue ages, and the oldest are freed. -/
def ipSlowtimo (ipq : List Ipq) : List Ipq :=
  (ipq.map fun fp => { fp with ipqTtl := fp.ipqTtl - 1 }).filter fun fp => fp.ipqTtl ≠ 0

/-- `ip_drain`. -/
def ipDrain (_ : List Ipq) : List Ipq := []

theorem toInt_ofInt_short {x : ℤ} (hlo : -32768 ≤ x) (hhi : x ≤ 32767) :
    (BitVec.ofInt 16 x).toInt = x := by
  rw [BitVec.toInt_ofInt]
  exact Int.bmod_eq_of_le_mul_two (by norm_num; omega) (by norm_num; omega)

end BSDLite2.IpFrag
