import BSDLite2.Kern.MbufPullup
import BSDLite2.Netinet.IpHostile

/-!
# Packets and fragments in mbufs (`netinet/ip_input.c`)

`ipintr` and `ip_reass` are modelled once more, from the chain of mbufs a packet arrives in.
The header is read through a pointer, so it has to be contiguous; in a fragment that waits in
a queue it is hidden by moving `m_data` behind it, and shown again by moving it back.  The
length of the header that the protocol gets is the one of the packet that came last.

* `accept` — from the chain to a packet that has passed the checks;
* `Mb` — what is kept of an mbuf in a queue: where its data begin and how many they are, which
  may be a negative number;
* `Frag`, `Fragq` — a fragment and a queue with their mbufs;
* `ipintrMbuf` — `ipintr`, with the arguments of its call of the protocol.
-/

namespace BSDLite2.IpFrag

open Mbuf

/-! ## The header -/

/-- The header that the first bytes are. -/
def ipOf (b : List (BitVec 8)) : Ip where
  ipHl := (b.getD 0 0 &&& 0xf).toNat
  ipTos := b.getD 1 0
  ipLen := b.getD 2 0 ++ b.getD 3 0
  ipId := b.getD 4 0 ++ b.getD 5 0
  ipOff := b.getD 6 0 ++ b.getD 7 0
  ipTtl := b.getD 8 0
  ipP := b.getD 9 0
  ipSrc := b.getD 12 0 ++ b.getD 13 0 ++ b.getD 14 0 ++ b.getD 15 0
  ipDst := b.getD 16 0 ++ b.getD 17 0 ++ b.getD 18 0 ++ b.getD 19 0

/-- `ip->ip_hl << 2` of a chain. -/
def hlenOf (c : List Buf) : ℕ := (ipOf (bytesOf c)).ipHl * 4

/-- The packet that bytes are, if its header is there. -/
def packetOf (b : List (BitVec 8)) : Option Packet :=
  if h : 20 ≤ (ipOf b).ipHl * 4 ∧ (ipOf b).ipHl * 4 ≤ b.length then
    some
      { ip := ipOf b
        opts := (b.drop 20).take ((ipOf b).ipHl * 4 - 20)
        data := b.drop ((ipOf b).ipHl * 4)
        hlen_eq := by
          rw [List.length_take, List.length_drop]
          omega }
  else none

/-- What an arrival meets: `max_protohdr`, and whether there are mbufs for the header, for a
fragment in a cluster, and for a new queue. -/
structure Env where
  maxProtohdr : ℕ
  mget : Bool
  mgetCluster : Bool
  alloc : Bool

/-- `m_pullup` if the first mbuf does not have `len` bytes. -/
def atLeast (env : Env) (len : ℕ) (c : List Buf) : Option (List Buf) :=
  if firstLen c < len then mPullup env.maxProtohdr env.mget len c else some c

/-- The start of `ipintr`: the header is made contiguous. -/
def ipHeader (env : Env) (c : List Buf) : Option (List Buf) :=
  (atLeast env 20 c).bind fun c => if hlenOf c < 20 then none else atLeast env (hlenOf c) c

/-- The chain keeps its first `n` bytes. -/
def keep : ℕ → List Buf → List Buf
  | _, [] => []
  | n, m :: c => { m with bytes := m.bytes.take n } :: keep (n - m.bytes.length) c

/-- The checks of `ipintr`: the packet, and the chain it is in. -/
def accept (env : Env) (c : List Buf) : Option (List Buf × Packet) := do
  let c ← ipHeader env c
  let m ← packetOf (bytesOf c)
  let m ← ipChecks m
  pure (keep (m.hlen + m.data.length) c, m)

/-! ## Fragments -/

/-- An mbuf in a queue: `m_data` from where it was on arrival, the space behind the data, and
`m_len`.  These are what the code computes with; the bytes are those of the `Packet` of the
fragment, and are not moved. -/
structure Mb where
  ext : Bool
  lead : ℤ
  space : ℤ
  len : ℤ

def Mb.ofBuf (m : Buf) : Mb where
  ext := m.ext
  lead := 0
  space := (MLEN : ℤ) - (m.start + m.bytes.length)
  len := m.bytes.length

/-- `m->m_data += hlen; m->m_len -= hlen`. -/
def skipHeader (hlen : ℤ) : List Mb → List Mb
  | [] => []
  | m :: c => { m with lead := m.lead + hlen, len := m.len - hlen } :: c

/-- `m_adj` for a positive length. -/
def adjHead : ℤ → List Mb → List Mb
  | _, [] => []
  | len, m :: c =>
    if len ≤ 0 then m :: c
    else if m.len ≤ len then
      { m with space := m.space + m.len, len := 0 } :: adjHead (len - m.len) c
    else { m with lead := m.lead + len, len := m.len - len } :: c

/-- The second loop of `m_cat`, for the last mbuf `m` of the first chain. -/
def catLast (m : Mb) : List Mb → List Mb
  | [] => [m]
  | n :: c =>
    if m.ext ∨ m.space ≤ n.len then m :: n :: c
    else catLast { m with space := m.space - n.len, len := m.len + n.len } c

/-- `m_cat`. -/
def mCat : List Mb → List Mb → List Mb
  | [], n => n
  | [m], n => catLast m n
  | m :: m' :: c, n => m :: mCat (m' :: c) n

/-- A fragment with its mbufs. -/
structure Frag where
  pkt : Packet
  chain : List Mb

/-- A queue of fragments with their mbufs. -/
structure Fragq where
  ipqTtl : BitVec 8
  ipqP : BitVec 8
  ipqId : BitVec 16
  ipqSrc : BitVec 32
  ipqDst : BitVec 32
  frags : List Frag

/-- The queue without the mbufs. -/
def Fragq.ipq (fp : Fragq) : Ipq where
  ipqTtl := fp.ipqTtl
  ipqP := fp.ipqP
  ipqId := fp.ipqId
  ipqSrc := fp.ipqSrc
  ipqDst := fp.ipqDst
  frags := fp.frags.map Frag.pkt

/-- How `ip_reass` compares and trims fragments. -/
def mbufQueue : Pieces.Queue Frag where
  startsAfter q f := fragQueue.startsAfter q.pkt f.pkt
  overlap q f := fragQueue.overlap q.pkt f.pkt
  len f := fragQueue.len f.pkt
  cut i f := ⟨fragQueue.cut i f.pkt, adjHead i f.chain⟩

/-- The fragments are concatenated: first what follows the first mbuf of the first one. -/
def joinChains : List Frag → List Mb
  | [] => []
  | f :: frags => frags.foldl (fun m q => mCat m q.chain)
      (match f.chain with
      | [] => []
      | m :: t => catLast m t)

/-- The datagram, with its header visible again. -/
def completeMbuf (fp : Fragq) : Option Frag :=
  (complete fp.ipq).map fun ip => ⟨ip, skipHeader (-(ip.hlen : ℤ)) (joinChains fp.frags)⟩

def finishMbuf (before : List Fragq) (fp : Fragq) (behind : List Fragq) :
    List Fragq × Option Frag :=
  match completeMbuf fp with
  | some f => (before ++ behind, some f)
  | none => (before ++ fp :: behind, none)

/-- `ip_reass`, for a fragment whose header is still visible. -/
def reassMbuf (alloc : Bool) (f : Frag) (before rest : List Fragq) : List Fragq × Option Frag :=
  let f := { f with chain := skipHeader f.pkt.hlen f.chain }
  match rest with
  | [] =>
    if alloc then
      finishMbuf []
        { ipqTtl := IPFRAGTTL, ipqP := f.pkt.ip.ipP, ipqId := f.pkt.ip.ipId,
          ipqSrc := f.pkt.ip.ipSrc, ipqDst := f.pkt.ip.ipDst, frags := [f] } before
    else (before, none)
  | fp :: behind =>
    match mbufQueue.enqueue f fp.frags with
    | none => (before ++ rest, none)
    | some frags => finishMbuf before { fp with frags := frags } behind

/-- A fragment whose first mbuf is a cluster is pulled up once more. -/
def unshare (env : Env) (c : List Buf) : Option (List Buf) :=
  if c.head?.any Buf.ext then mPullup env.maxProtohdr env.mgetCluster 20 c else some c

/-- **`ipintr`** from the label `ours` on: the queues left, and the packet and the length of a
header that `pr_input` is called with. -/
def ipintrMbuf (env : Env) (ipq : List Fragq) (c : List Buf) (m : Packet) :
    List Fragq × Option (Frag × ℕ) :=
  if m.ip.ipOff &&& ~~~IP_DF ≠ 0 then
    match unshare env c with
    | none => (ipq, none)
    | some c =>
      let before := ipq.takeWhile fun fp => !fp.ipq.isFor m.ip
      let rest := ipq.dropWhile fun fp => !fp.ipq.isFor m.ip
      let f : Frag := ⟨adjust m, c.map Mb.ofBuf⟩
      if mff f.pkt ∨ f.pkt.ip.ipOff ≠ 0 then
        ((reassMbuf env.alloc f before rest).1,
          (reassMbuf env.alloc f before rest).2.map fun f => (f, m.hlen))
      else (before ++ rest.tail, some (f, m.hlen))
  else
    (ipq, some (⟨{ m with ip := { m.ip with ipLen := m.ip.ipLen - BitVec.ofNat 16 m.hlen } },
      c.map Mb.ofBuf⟩, m.hlen))

section Cases

variable {env : Env} {c c' : List Buf} {m : Packet} (ipq : List Fragq)

/-- The packet is not a fragment. -/
theorem ipintrMbuf_whole (h : m.ip.ipOff &&& ~~~IP_DF = 0) :
    ipintrMbuf env ipq c m =
      (ipq, some (⟨{ m with ip := { m.ip with ipLen := m.ip.ipLen - BitVec.ofNat 16 m.hlen } },
        c.map Mb.ofBuf⟩, m.hlen)) :=
  if_neg (not_not.mpr h)

/-- There is no mbuf for a fragment in a cluster. -/
theorem ipintrMbuf_lost (h : m.ip.ipOff &&& ~~~IP_DF ≠ 0) (hc : unshare env c = none) :
    ipintrMbuf env ipq c m = (ipq, none) := by
  rw [ipintrMbuf, if_pos h, hc]

/-- The packet has a bit set that is not one of a fragment. -/
theorem ipintrMbuf_other (h : m.ip.ipOff &&& ~~~IP_DF ≠ 0) (hc : unshare env c = some c')
    (hfrag : ¬ (mff (adjust m) ∨ (adjust m).ip.ipOff ≠ 0)) :
    ipintrMbuf env ipq c m =
      ((ipq.takeWhile fun fp => !fp.ipq.isFor m.ip) ++
        (ipq.dropWhile fun fp => !fp.ipq.isFor m.ip).tail,
        some (⟨adjust m, c'.map Mb.ofBuf⟩, m.hlen)) := by
  rw [ipintrMbuf, if_pos h, hc]
  exact if_neg hfrag

/-- The packet is a fragment. -/
theorem ipintrMbuf_frag (h : isFragment m) (hc : unshare env c = some c')
    {r : List Fragq × Option Frag}
    (hr : reassMbuf env.alloc ⟨adjust m, c'.map Mb.ofBuf⟩
      (ipq.takeWhile fun fp => !fp.ipq.isFor m.ip)
      (ipq.dropWhile fun fp => !fp.ipq.isFor m.ip) = r) :
    ipintrMbuf env ipq c m = (r.1, r.2.map fun f => (f, m.hlen)) := by
  subst hr
  rw [ipintrMbuf, if_pos h.1, hc]
  exact if_pos h.2

end Cases

end BSDLite2.IpFrag
