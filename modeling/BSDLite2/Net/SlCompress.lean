import BSDLite2.Netinet.InCksum

/-!
# Van Jacobson header compression (`net/slcompress.c`)

The two ends of a serial line keep the TCP/IP header of the last packet of each
of 16 conversations.  A packet that differs from the kept header only in the ways
packets of a conversation usually do is sent as a list of the differences.

* `Hdr`, `Packet` — a TCP/IP header with its options, and a packet;
* `Slcompress` — `struct slcompress`, the states of both directions;
* `slCompressTcp` — `sl_compress_tcp`, from a packet to a `Frame`;
* `slUncompressTcp` — `sl_uncompress_tcp`, on whatever bytes arrive;
* `Said` — what a compressed packet says about the kept header, read at once;
* `atomic_iff_spares` — a packet for which 0 is returned leaves the kept headers alone exactly if it
  spares them, which is said of the packet and the state it meets;
* `truncated_applied` — a packet that does not.

The sender is given packets and keeps headers.  The receiver is given bytes, and
its kept headers are memory that it patches; it reads on behind a packet that ends
too early, and notices only afterwards.  A copy of a header that is longer than a
state has room for is the fault `Fault.overrun`.

Whether a kept header survives a bad packet is a question about seven fields that are written one
after the other, some of them twice and each only if a bit is set.  The writes are to different
bytes, so that all together change nothing exactly if each of them does not (`Bytes.runAll`).
-/

namespace BSDLite2.SlCompress

open Bytes InCksum Option

variable (changes bit : BitVec 8) (buf : Mem)

/-! ## Headers -/

/-- `TH_PUSH`. -/
def TH_PUSH : BitVec 8 := 0x08

/-- `TH_URG`. -/
def TH_URG : BitVec 8 := 0x20

/-- A TCP/IP header.  `thPorts` are the two ports. -/
@[ext]
structure Hdr where
  ipV : BitVec 4
  ipHl : BitVec 4
  ipTos : BitVec 8
  ipLen : BitVec 16
  ipId : BitVec 16
  ipOff : BitVec 16
  ipTtl : BitVec 8
  ipP : BitVec 8
  ipSum : BitVec 16
  ipSrc : BitVec 32
  ipDst : BitVec 32
  ipOpts : List (BitVec 8)
  thPorts : BitVec 32
  thSeq : BitVec 32
  thAck : BitVec 32
  thOff : BitVec 4
  thX2 : BitVec 4
  thFlags : BitVec 8
  thWin : BitVec 16
  thSum : BitVec 16
  thUrp : BitVec 16
  thOpts : List (BitVec 8)
  /-- `ip_hl` and `th_off` count the words of the headers -/
  ip_words : ipHl.toNat * 4 = 20 + ipOpts.length
  th_words : thOff.toNat * 4 = 20 + thOpts.length

/-- The length of both headers. -/
def Hdr.hlen (h : Hdr) : ℕ := (h.ipHl.toNat + h.thOff.toNat) * 4

/-- The IP header. -/
def Hdr.ipBytes (h : Hdr) : List (BitVec 8) :=
  [h.ipV ++ h.ipHl, h.ipTos] ++ be16 h.ipLen ++ be16 h.ipId ++ be16 h.ipOff ++
    [h.ipTtl, h.ipP] ++ be16 h.ipSum ++ be32 h.ipSrc ++ be32 h.ipDst ++ h.ipOpts

/-- The TCP header. -/
def Hdr.thBytes (h : Hdr) : List (BitVec 8) :=
  be32 h.thPorts ++ be32 h.thSeq ++ be32 h.thAck ++ [h.thOff ++ h.thX2, h.thFlags] ++
    be16 h.thWin ++ be16 h.thSum ++ be16 h.thUrp ++ h.thOpts

/-- Both headers. -/
def Hdr.bytes (h : Hdr) : List (BitVec 8) := h.ipBytes ++ h.thBytes

/-- The checksum of the IP header as `ip_output` has it computed, with `ip_sum`
zero. -/
def Hdr.cksum (h : Hdr) : BitVec 16 :=
  inCksum .big [⟨false, { h with ipSum := 0 }.ipBytes⟩] (h.ipHl.toNat * 4)

/-- A TCP packet, its headers in the first mbuf. -/
structure Packet where
  hdr : Hdr
  data : List (BitVec 8)
  tcp : hdr.ipP = 6
  /-- the reserved bits are zero -/
  reserved : hdr.thX2 = 0 ∧ hdr.thFlags &&& 0xc0 = 0
  len_eq : hdr.ipLen.toNat = hdr.hlen + data.length
  sum_eq : hdr.ipSum = hdr.cksum

/-- The bytes of a packet. -/
def Packet.bytes (p : Packet) : List (BitVec 8) := p.hdr.bytes ++ p.data

/-! ## States -/

/-- `MAX_STATES`. -/
def MAX_STATES : ℕ := 16

/-- `MAX_HDR`: the room for a header in a state, which is `MLEN`. -/
def MAX_HDR : ℕ := 108

/-- A state of the sender; `none` is a header that has never been set. -/
structure Cstate where
  csId : BitVec 8
  csHdr : Option Hdr

/-- A state of the receiver. -/
structure Rstate where
  csHlen : ℕ
  csHdr : Mem

/-- `struct slcompress`.  `tstates` is the circular list from the most recently
used state, `last_cs->cs_next`, to `last_cs`. -/
structure Slcompress where
  tstates : List Cstate
  lastXmit : BitVec 8
  rstates : ℕ → Rstate
  lastRecv : BitVec 8
  toss : Bool

variable (comp : Slcompress)

/-- `sl_compress_init`. -/
def slCompressInit : Slcompress where
  tstates := (List.range MAX_STATES).reverse.map fun i => ⟨BitVec.ofNat 8 i, none⟩
  lastXmit := 255
  rstates _ := ⟨0, fun _ => 0⟩
  lastRecv := 255
  toss := true

/-- What the model does not follow the code beyond. -/
inductive Fault where
  /-- a header is copied over the end of a state -/
  | overrun
  deriving DecidableEq

/-- The types of packets on the line. -/
inductive PacketType where
  | ip
  | uncompressedTcp
  | compressedTcp
  deriving DecidableEq

/-- What goes over the line. -/
structure Frame where
  type : PacketType
  bytes : List (BitVec 8)
  deriving DecidableEq

/-! ## Sending -/

/-- `NEW_C`. -/
def NEW_C : BitVec 8 := 0x40

/-- `NEW_I`. -/
def NEW_I : BitVec 8 := 0x20

/-- `NEW_S`. -/
def NEW_S : BitVec 8 := 0x08

/-- `NEW_A`. -/
def NEW_A : BitVec 8 := 0x04

/-- `NEW_W`. -/
def NEW_W : BitVec 8 := 0x02

/-- `NEW_U`. -/
def NEW_U : BitVec 8 := 0x01

/-- `SPECIAL_I`, echoed interactive traffic. -/
def SPECIAL_I : BitVec 8 := NEW_S ||| NEW_W ||| NEW_U

/-- `SPECIAL_D`, unidirectional data. -/
def SPECIAL_D : BitVec 8 := NEW_S ||| NEW_A ||| NEW_W ||| NEW_U

/-- `SPECIALS_MASK`. -/
def SPECIALS_MASK : BitVec 8 := NEW_S ||| NEW_A ||| NEW_W ||| NEW_U

/-- `TCP_PUSH_BIT`. -/
def TCP_PUSH_BIT : BitVec 8 := 0x10

/-- The long form of a number: a zero and two bytes. -/
def encodeLong (n : BitVec 16) : List (BitVec 8) :=
  [0, n.extractLsb' 8 8, n.extractLsb' 0 8]

/-- `ENCODE`, for a number that is known not to be zero. -/
def encode (n : BitVec 16) : List (BitVec 8) :=
  if n.toNat ≥ 256 then encodeLong n else [n.extractLsb' 0 8]

/-- `ENCODEZ`. -/
def encodez (n : BitVec 16) : List (BitVec 8) :=
  if n.toNat ≥ 256 ∨ n.toNat = 0 then encodeLong n else [n.extractLsb' 0 8]

/-- The mask of changes and the coded numbers. -/
structure Coded where
  changes : BitVec 8
  newSeq : List (BitVec 8)

/-- One set of changes after another. -/
def Coded.append (a b : Coded) : Coded := ⟨a.changes ||| b.changes, a.newSeq ++ b.newSeq⟩

/-- The urgent pointer.  Nothing if it changed without `TH_URG`. -/
def codeU (th oth : Hdr) : Option Coded :=
  if th.thFlags &&& TH_URG ≠ 0 then some ⟨NEW_U, encodez th.thUrp⟩
  else if th.thUrp ≠ oth.thUrp then none
  else some ⟨0, []⟩

/-- The window. -/
def codeW (th oth : Hdr) : Coded :=
  if th.thWin - oth.thWin ≠ 0 then ⟨NEW_W, encode (th.thWin - oth.thWin)⟩ else ⟨0, []⟩

/-- A difference of sequence numbers.  Nothing if it is too large. -/
def codeL (delta : BitVec 32) : Option Coded :=
  if delta ≠ 0 then
    if delta.toNat > 0xffff then none else some ⟨bit, encode (delta.extractLsb' 0 16)⟩
  else some ⟨0, []⟩

/-- The acknowledgement. -/
def codeA (th oth : Hdr) : Option Coded := codeL NEW_A (th.thAck - oth.thAck)

/-- The sequence number. -/
def codeS (th oth : Hdr) : Option Coded := codeL NEW_S (th.thSeq - oth.thSeq)

/-- The amount of data in the last packet, as the code computes it from `ip_len`
of the state and the length of the present header. -/
def lastData (h cs : Hdr) : BitVec 32 := cs.ipLen.setWidth 32 - BitVec.ofNat 32 h.hlen

/-- The `switch` on the changes.  Nothing if the packet is to be sent
uncompressed. -/
def codeSpecial (h cs : Hdr) (c : Coded) : Option Coded :=
  if c.changes = 0 then
    if h.ipLen ≠ cs.ipLen ∧ cs.ipLen.toNat = h.hlen then some c else none
  else if c.changes = SPECIAL_I ∨ c.changes = SPECIAL_D then none
  else if c.changes = NEW_S ||| NEW_A then
    if h.thSeq - cs.thSeq = h.thAck - cs.thAck ∧ h.thSeq - cs.thSeq = lastData h cs then
      some ⟨SPECIAL_I, []⟩
    else some c
  else if c.changes = NEW_S then
    if h.thSeq - cs.thSeq = lastData h cs then some ⟨SPECIAL_D, []⟩ else some c
  else some c

/-- The identification, unless it is the next one. -/
def codeI (h cs : Hdr) : Coded :=
  if (h.ipId.toNat : ℤ) - cs.ipId.toNat ≠ 1 then ⟨NEW_I, encodez (h.ipId - cs.ipId)⟩ else ⟨0, []⟩

/-- Only what is expected to change has changed: IP version, header length and
type of service; the fragment field; time to live and protocol; the TCP header
length; the options. -/
def sameStatic (h cs : Hdr) : Prop :=
  (h.ipV = cs.ipV ∧ h.ipHl = cs.ipHl ∧ h.ipTos = cs.ipTos) ∧ h.ipOff = cs.ipOff ∧
    (h.ipTtl = cs.ipTtl ∧ h.ipP = cs.ipP) ∧ h.thOff = cs.thOff ∧ h.ipOpts = cs.ipOpts ∧
    h.thOpts = cs.thOpts

instance (h cs : Hdr) : Decidable (sameStatic h cs) := inferInstanceAs (Decidable (_ ∧ _))

/-- The changes of a packet against the header of its state, with the numbers
that follow the mask.  Nothing if it is to be sent uncompressed. -/
def codeHdr (h cs : Hdr) : Option Coded :=
  if sameStatic h cs then do
    let u ← codeU h cs
    let a ← codeA h cs
    let s ← codeS h cs
    let c ← codeSpecial h cs (((u.append (codeW h cs)).append a).append s)
    let c := c.append (codeI h cs)
    pure { c with changes := c.changes ||| (if h.thFlags &&& TH_PUSH ≠ 0 then TCP_PUSH_BIT else 0) }
  else none

/-- The state is that of the packet's conversation.  In a state that has never
been set, addresses and ports read as zero. -/
def Cstate.isFor (cs : Cstate) (h : Hdr) : Bool :=
  match cs.csHdr with
  | some o => decide (h.ipSrc = o.ipSrc ∧ h.ipDst = o.ipDst ∧ h.thPorts = o.thPorts)
  | none => decide (h.ipSrc = 0 ∧ h.ipDst = 0 ∧ h.thPorts = 0)

/-- The search for the state of a packet: the state, and the other states in
their order.  If there is none the oldest state is used, of which only the
number matters. -/
def locate (states : List Cstate) (h : Hdr) : Option (Cstate × List Cstate) :=
  match states.dropWhile fun cs => !cs.isFor h with
  | cs :: behind => some (cs, (states.takeWhile fun cs => !cs.isFor h) ++ behind)
  | [] => states.getLast?.map fun cs => (⟨cs.csId, none⟩, states.dropLast)

/-- The compressed packet. -/
def compressedBytes (cid : Option (BitVec 8)) (c : Coded) (p : Packet) : List (BitVec 8) :=
  (match cid with
    | some id => [c.changes ||| NEW_C, id]
    | none => [c.changes]) ++
  [p.hdr.thSum.extractLsb' 8 8, p.hdr.thSum.extractLsb' 0 8] ++ c.newSeq ++ p.data

/-- **`sl_compress_tcp`.**  The test on `m_len` is left out: the headers are in the
first mbuf. -/
def slCompressTcp (p : Packet) (compressCid : Bool) : Except Fault (Frame × Slcompress) :=
  let h := p.hdr
  if h.ipOff &&& 0x3fff ≠ 0 then .ok (⟨.ip, p.bytes⟩, comp)
  else if h.thFlags &&& 0x17 ≠ 0x10 then .ok (⟨.ip, p.bytes⟩, comp)
  else
    match locate comp.tstates h with
    | none => .ok (⟨.ip, p.bytes⟩, comp)
    | some (cs, others) =>
      if h.hlen > MAX_HDR then .error .overrun
      else
        let comp' := { comp with tstates := ⟨cs.csId, some h⟩ :: others, lastXmit := cs.csId }
        match cs.csHdr.bind (codeHdr h) with
        | some c =>
          let cid := if compressCid = false ∨ comp.lastXmit ≠ cs.csId then some cs.csId else none
          .ok (⟨.compressedTcp, compressedBytes cid c p⟩, comp')
        | none =>
          .ok (⟨.uncompressedTcp, { h with ipP := cs.csId }.bytes ++ p.data⟩, comp')

/-! ## Receiving -/

/-- The kept header and the place in the packet. -/
structure Cursor where
  hdr : Mem
  cp : ℕ

/-- The number coded at `cp`, and the place behind it. -/
def decode (cp : ℕ) : BitVec 16 × ℕ :=
  if buf cp = 0 then (buf (cp + 1) ++ buf (cp + 2), cp + 3) else ((buf cp).setWidth 16, cp + 1)

/-- `DECODEL` of the field at `a`. -/
def decodeL (a : ℕ) (r : Cursor) : Cursor :=
  let d := decode buf r.cp
  ⟨store r.hdr a (be32 (get32 r.hdr a + d.1.setWidth 32)), d.2⟩

/-- `DECODES` of the field at `a`. -/
def decodeS (a : ℕ) (r : Cursor) : Cursor :=
  let d := decode buf r.cp
  ⟨store r.hdr a (be16 (get16 r.hdr a + d.1)), d.2⟩

/-- `DECODEU` of the field at `a`. -/
def decodeU (a : ℕ) (r : Cursor) : Cursor :=
  let d := decode buf r.cp
  ⟨store r.hdr a (be16 d.1), d.2⟩

/-- The flag `flag` of `flags` set or cleared. -/
def withFlag (flag : BitVec 8) (on : Bool) (flags : BitVec 8) : BitVec 8 :=
  if on then flags ||| flag else flags &&& ~~~flag

/-- Set or clear a flag of the TCP header at `th`. -/
def putFlag (th : ℕ) (flag : BitVec 8) (on : Bool) (m : Mem) : Mem :=
  store m (th + 13) [withFlag flag on (m (th + 13))]

/-- Go through `f` if the bit is set. -/
def whenBit (f : Cursor → Cursor) (r : Cursor) : Cursor :=
  if changes &&& bit ≠ 0 then f r else r

/-- The `switch` on the changes to the TCP header at `th`. -/
def decodeTcp (th csHlen : ℕ) (r : Cursor) : Cursor :=
  let i := (get16 r.hdr 2).setWidth 32 - BitVec.ofNat 32 csHlen
  if changes &&& SPECIALS_MASK = SPECIAL_I then
    let m := store r.hdr (th + 8) (be32 (get32 r.hdr (th + 8) + i))
    { r with hdr := store m (th + 4) (be32 (get32 m (th + 4) + i)) }
  else if changes &&& SPECIALS_MASK = SPECIAL_D then
    { r with hdr := store r.hdr (th + 4) (be32 (get32 r.hdr (th + 4) + i)) }
  else
    let r : Cursor := { r with hdr := putFlag th TH_URG (changes &&& NEW_U ≠ 0) r.hdr }
    let r := whenBit changes NEW_U (decodeU buf (th + 18)) r
    let r := whenBit changes NEW_W (decodeS buf (th + 14)) r
    let r := whenBit changes NEW_A (decodeL buf (th + 8)) r
    whenBit changes NEW_S (decodeL buf (th + 4)) r

/-- The identification. -/
def decodeI (r : Cursor) : Cursor :=
  if changes &&& NEW_I ≠ 0 then decodeS buf 4 r
  else { r with hdr := store r.hdr 4 (be16 (get16 r.hdr 4 + 1)) }

/-- The checksum of an IP header as it is recomputed. -/
def ipCksum (l : List (BitVec 8)) : BitVec 16 :=
  ~~~BitVec.ofNat 16 (OnesComp.fold (OnesComp.fold (wordSum l)))

/-- The length of the IP header at the beginning of `m`. -/
def ipHlen (m : Mem) : ℕ := ((m 0).extractLsb' 0 4).toNat * 4

/-- The changes from the checksum on applied to the kept header. -/
def decodeHdr (cp : ℕ) (cs : Rstate) : Cursor :=
  let th := ipHlen cs.csHdr
  let m := store cs.csHdr (th + 16) [buf cp, buf (cp + 1)]
  let m := putFlag th TH_PUSH (changes &&& TCP_PUSH_BIT ≠ 0) m
  decodeI changes buf (decodeTcp changes buf th cs.csHlen ⟨m, cp + 2⟩)

/-- The packet put together from a kept header `m` and the data. -/
def rebuild (m buf : Mem) (cp hlen csHlen len : ℕ) : List (BitVec 8) :=
  let out : Mem := fun i => if i < csHlen then m i else buf (cp + (i - csHlen))
  load (store out 10 (be16 (ipCksum (load out 0 hlen)))) 0 len

/-- A compressed packet of `len` bytes, from the checksum at `cp` on, in the
conversation `last_recv`. -/
def uncompressIn (changes : BitVec 8) (buf : Mem) (cp len : ℕ) :
    Option (List (BitVec 8)) × Slcompress :=
  let id := comp.lastRecv.toNat
  let cs := comp.rstates id
  let r := decodeHdr changes buf cp cs
  if len < r.cp then
    (none, { comp with
      toss := true, rstates := Function.update comp.rstates id ⟨cs.csHlen, r.hdr⟩ })
  else
    let len := len - r.cp + cs.csHlen
    let m := store r.hdr 2 (be16 (BitVec.ofNat 16 len))
    (some (rebuild m buf r.cp (ipHlen cs.csHdr) cs.csHlen len),
      { comp with rstates := Function.update comp.rstates id ⟨cs.csHlen, m⟩ })

/-- The header of an uncompressed packet copied into a state. -/
def keepHdr (hlen : ℕ) (cs : Rstate) : Rstate :=
  ⟨hlen, store (fun i => if i < hlen then buf i else cs.csHdr i) 10 (be16 0)⟩

/-- **`sl_uncompress_tcp`** on `len` bytes at the beginning of `buf`.  The result is
nothing where it returns 0 for an error. -/
def slUncompressTcp (buf : Mem) (len : ℕ) :
    PacketType → Except Fault (Option (List (BitVec 8)) × Slcompress)
  | .uncompressedTcp =>
    if (buf 9).toNat ≥ MAX_STATES then .ok (none, { comp with toss := true })
    else
      let id := (buf 9).toNat
      let ip := store buf 9 [6]
      let hlen := ipHlen ip + ((ip (ipHlen ip + 12)).extractLsb' 4 4).toNat * 4
      if hlen > MAX_HDR then .error .overrun
      else
        .ok (some (load ip 0 len),
          { comp with
            lastRecv := buf 9
            toss := false
            rstates := Function.update comp.rstates id (keepHdr ip hlen (comp.rstates id)) })
  | .ip => .ok (none, { comp with toss := true })
  | .compressedTcp =>
    let changes := buf 0
    if changes &&& NEW_C ≠ 0 then
      if (buf 1).toNat ≥ MAX_STATES then .ok (none, { comp with toss := true })
      else .ok (uncompressIn { comp with toss := false, lastRecv := buf 1 } changes buf 2 len)
    else if comp.toss then .ok (none, comp)
    else .ok (uncompressIn comp changes buf 1 len)

/-- The part of `slinput` that hands a packet on: one of type IP as it is. -/
def slinput (f : Frame) (behind : Mem) : Except Fault (Option (List (BitVec 8)) × Slcompress) :=
  match f.type with
  | .ip => .ok (some f.bytes, comp)
  | type => slUncompressTcp comp (place f.bytes behind) f.bytes.length type

/-! ## Packets that are refused -/

/-- The place behind a number, if there is one. -/
def skipIf (cp : ℕ) : ℕ :=
  if changes &&& bit ≠ 0 then (decode buf cp).2 else cp

/-- Where the numbers of a compressed packet end, whose checksum is at `cp`. -/
def numbersEnd (cp : ℕ) : ℕ :=
  skipIf changes NEW_I buf <|
    if changes &&& SPECIALS_MASK = SPECIAL_I ∨ changes &&& SPECIALS_MASK = SPECIAL_D then cp + 2
    else skipIf changes NEW_S buf <| skipIf changes NEW_A buf <| skipIf changes NEW_W buf <|
      skipIf changes NEW_U buf (cp + 2)

/-- What `sl_uncompress_tcp` returns. -/
def returned (out : Option (List (BitVec 8))) : ℕ := (out.map List.length).getD 0

/-- **All or nothing**: if 0 is returned for the packet, nothing of it is kept. -/
def Atomic (len : ℕ) (type : PacketType) : Prop :=
  ∃ out comp', slUncompressTcp comp buf len type = .ok (out, comp') ∧
    (returned out = 0 → comp'.rstates = comp.rstates)

/-- The length of the headers at the beginning of `m`. -/
def tcpipHlen (m : Mem) : ℕ := ipHlen m + ((m (ipHlen m + 12)).extractLsb' 4 4).toNat * 4

/-- A number of a compressed packet, 0 if it is not there. -/
def number (cp : ℕ) : BitVec 16 := if changes &&& bit ≠ 0 then (decode buf cp).1 else 0

/-- The difference of the identification, 1 if it is not there. -/
def idNumber (cp : ℕ) : BitVec 16 := if changes &&& NEW_I ≠ 0 then (decode buf cp).1 else 1

/-- **What a compressed packet says** about the kept header: the checksum, the flags and the urgent
pointer as they become, and the differences of the other fields. -/
structure Said where
  sum : BitVec 16
  flags : BitVec 8 → BitVec 8
  urp : BitVec 16 → BitVec 16
  win : BitVec 16
  ack : BitVec 32
  seq : BitVec 32
  id : BitVec 16

/-- What the packet with its checksum at `cp` says. -/
def said (cp : ℕ) (cs : Rstate) : Said :=
  let sum := buf cp ++ buf (cp + 1)
  let push := withFlag TH_PUSH (changes &&& TCP_PUSH_BIT ≠ 0)
  let i := (get16 cs.csHdr 2).setWidth 32 - BitVec.ofNat 32 cs.csHlen
  if changes &&& SPECIALS_MASK = SPECIAL_I then
    ⟨sum, push, id, 0, i, i, idNumber changes buf (cp + 2)⟩
  else if changes &&& SPECIALS_MASK = SPECIAL_D then
    ⟨sum, push, id, 0, 0, i, idNumber changes buf (cp + 2)⟩
  else
    let u := skipIf changes NEW_U buf (cp + 2)
    let w := skipIf changes NEW_W buf u
    let a := skipIf changes NEW_A buf w
    { sum := sum
      flags := withFlag TH_URG (changes &&& NEW_U ≠ 0) ∘ push
      urp := fun v => if changes &&& NEW_U ≠ 0 then (decode buf (cp + 2)).1 else v
      win := number changes NEW_W buf u
      ack := (number changes NEW_A buf w).setWidth 32
      seq := (number changes NEW_S buf a).setWidth 32
      id := idNumber changes buf (skipIf changes NEW_S buf a) }

section Said

variable (s : Said) (th : ℕ) (m : Mem)

/-- The fields of the TCP header at `th` but the sequence number. -/
def Said.writes : List Write :=
  [⟨th + 16, 2, fun _ => be16 s.sum, fun _ => rfl⟩,
    ⟨th + 13, 1, fun m => [s.flags (m (th + 13))], fun _ => rfl⟩,
    ⟨th + 18, 2, fun m => be16 (s.urp (get16 m (th + 18))), fun _ => rfl⟩,
    ⟨th + 14, 2, fun m => be16 (get16 m (th + 14) + s.win), fun _ => rfl⟩,
    ⟨th + 8, 4, fun m => be32 (get32 m (th + 8) + s.ack), fun _ => rfl⟩]

/-- The sequence number, and the identification of the IP header.  If `ip_hl` is 0, as in a state
that has never been set, they are in the same place. -/
def Said.numbers : Mem :=
  let m := store m (th + 4) (be32 (get32 m (th + 4) + s.seq))
  store m 4 (be16 (get16 m 4 + s.id))

/-- **Nothing new is said**: checksum, flags and urgent pointer are those of the header `m`, and
every difference is 0. -/
structure Said.Repeats : Prop where
  sum : get16 m (th + 16) = s.sum
  flags : s.flags (m (th + 13)) = m (th + 13)
  urp : s.urp (get16 m (th + 18)) = get16 m (th + 18)
  win : s.win = 0
  ack : s.ack = 0
  seq : s.seq = 0
  id : s.id = 0

end Said

/-- **A short packet repeats**: one that ends before its numbers, or with them if no header is
kept, says nothing new (and `ip_len` is 0 already, if it is written). -/
def Harmless (cp len : ℕ) (cs : Rstate) : Prop :=
  len < numbersEnd changes buf cp ∨ len = numbersEnd changes buf cp ∧ cs.csHlen = 0 →
    (said changes buf cp cs).Repeats (ipHlen cs.csHdr) cs.csHdr ∧
      (len = numbersEnd changes buf cp → get16 cs.csHdr 2 = 0)

/-- The state has the headers at the beginning of `ip` already. -/
def Recorded (ip : Mem) (cs : Rstate) : Prop :=
  cs.csHlen = tcpipHlen ip ∧ get16 cs.csHdr 10 = 0 ∧
    ∀ i < tcpipHlen ip, i ≠ 10 → i ≠ 11 → cs.csHdr i = ip i

/-- **The packet spares the states**: it is for none of them; or it has headers that fit and is not
empty, or is recorded already; or it is to be tossed; or it is not too short, or repeats. -/
def Spares (len : ℕ) : PacketType → Prop
  | .ip => True
  | .uncompressedTcp =>
    (buf 9).toNat ≥ MAX_STATES ∨ tcpipHlen (store buf 9 [6]) ≤ MAX_HDR ∧
      (len ≠ 0 ∨ Recorded (store buf 9 [6]) (comp.rstates (buf 9).toNat))
  | .compressedTcp =>
    if buf 0 &&& NEW_C ≠ 0 then
      (buf 1).toNat ≥ MAX_STATES ∨ Harmless (buf 0) buf 2 len (comp.rstates (buf 1).toNat)
    else comp.toss = true ∨ Harmless (buf 0) buf 1 len (comp.rstates comp.lastRecv.toNat)

section Refused

variable {changes : BitVec 8} {buf : Mem} {cp len : ℕ} {s : Said} {th : ℕ} {m : Mem}

/-! ### What is said and what is written -/

theorem decodeI_eq (cp : ℕ) (m : Mem) : decodeI changes buf ⟨m, cp⟩ =
    ⟨store m 4 (be16 (get16 m 4 + idNumber changes buf cp)), skipIf changes NEW_I buf cp⟩ := by
  unfold decodeI idNumber skipIf
  split <;> rfl

theorem whenBit_decodeL {bit : BitVec 8} (a cp : ℕ) (m : Mem) :
    whenBit changes bit (decodeL buf a) ⟨m, cp⟩ =
      ⟨store m a (be32 (get32 m a + (number changes bit buf cp).setWidth 32)),
        skipIf changes bit buf cp⟩ := by
  unfold whenBit number skipIf
  split
  · rfl
  · rw [store_be32_iff.mpr (by simp)]

theorem whenBit_decodeS {bit : BitVec 8} (a cp : ℕ) (m : Mem) :
    whenBit changes bit (decodeS buf a) ⟨m, cp⟩ =
      ⟨store m a (be16 (get16 m a + number changes bit buf cp)), skipIf changes bit buf cp⟩ := by
  unfold whenBit number skipIf
  split
  · rfl
  · rw [store_be16_iff.mpr (by simp)]

theorem whenBit_decodeU {bit : BitVec 8} (a cp : ℕ) (m : Mem) :
    whenBit changes bit (decodeU buf a) ⟨m, cp⟩ =
      ⟨store m a (be16 (if changes &&& bit ≠ 0 then (decode buf cp).1 else get16 m a)),
        skipIf changes bit buf cp⟩ := by
  unfold whenBit skipIf
  split
  · rfl
  · rw [store_be16_iff.mpr rfl]

/-- **The kept header becomes what the packet says**, and how far the packet is read does not depend
on it. -/
theorem decodeHdr_said (cs : Rstate) : decodeHdr changes buf cp cs =
    ⟨(said changes buf cp cs).numbers (ipHlen cs.csHdr)
      (runAll ((said changes buf cp cs).writes (ipHlen cs.csHdr)) cs.csHdr),
      numbersEnd changes buf cp⟩ := by
  have hsum : be16 (buf cp ++ buf (cp + 1)) = [buf cp, buf (cp + 1)] := by
    rw [be16, BitVec.extractLsb'_append_eq_left, BitVec.extractLsb'_append_eq_right]
  have same16 (m : Mem) (a : ℕ) : store m a (be16 (get16 m a)) = m := store_be16_iff.mpr rfl
  have same32 (m : Mem) (a : ℕ) : store m a (be32 (get32 m a)) = m := store_be32_iff.mpr rfl
  -- `ip_len` is read after the checksum and the flag have been written
  have hlen (th : ℕ) (on : Bool) (l : List (BitVec 8)) :
      get16 (putFlag th TH_PUSH on (store cs.csHdr (th + 16) l)) 2 = get16 cs.csHdr 2 := by
    simp only [get16, putFlag]
    rw [store_out (by omega), store_out (by omega), store_out (by omega), store_out (by omega)]
  unfold decodeHdr decodeTcp said numbersEnd
  dsimp only
  rw [hlen]
  by_cases isI : changes &&& SPECIALS_MASK = SPECIAL_I
  · have special : changes &&& SPECIALS_MASK = SPECIAL_I ∨ changes &&& SPECIALS_MASK = SPECIAL_D :=
      .inl isI
    simp only [if_pos isI, if_pos special, decodeI_eq, Said.numbers, Said.writes, runAll,
      List.foldl, Write.run, hsum, id, BitVec.add_zero, BitVec.ofNat_eq_ofNat, same16]
    rfl
  by_cases isD : changes &&& SPECIALS_MASK = SPECIAL_D
  · have special : changes &&& SPECIALS_MASK = SPECIAL_I ∨ changes &&& SPECIALS_MASK = SPECIAL_D :=
      .inr isD
    simp only [if_neg isI, if_pos isD, if_pos special, decodeI_eq, Said.numbers, Said.writes,
      runAll, List.foldl, Write.run, hsum, id, BitVec.add_zero, BitVec.ofNat_eq_ofNat, same16, same32]
    rfl
  · simp only [if_neg isI, if_neg isD, if_neg (not_or.mpr ⟨isI, isD⟩), decodeI_eq, whenBit_decodeL,
      whenBit_decodeS, whenBit_decodeU, Said.numbers, Said.writes, runAll, List.foldl, Write.run, hsum, putFlag,
      store_store, store_self]
    rfl

/-- A difference of sequence numbers is the amount of data in the last packet, or a number of the
packet. -/
theorem said_seq_cases (cs : Rstate) :
    (said changes buf cp cs).seq = (get16 cs.csHdr 2).setWidth 32 - BitVec.ofNat 32 cs.csHlen ∨
      ∃ n : BitVec 16, (said changes buf cp cs).seq = n.setWidth 32 := by
  unfold said
  dsimp only
  by_cases isI : changes &&& SPECIALS_MASK = SPECIAL_I
  · exact .inl (by rw [if_pos isI])
  by_cases isD : changes &&& SPECIALS_MASK = SPECIAL_D
  · exact .inl (by rw [if_neg isI, if_pos isD])
  · exact .inr ⟨_, by rw [if_neg isI, if_neg isD]⟩

/-- So it is less than 65536 either way, and its low half tells whether it is 0. -/
theorem said_seq {cs : Rstate} (hlen : cs.csHlen < 65536)
    (low : (said changes buf cp cs).seq.extractLsb' 0 16 = 0) :
    (said changes buf cp cs).seq = 0 := by
  have hlow : ((said changes buf cp cs).seq.extractLsb' 0 16).toNat = 0 := congrArg BitVec.toNat low
  refine BitVec.eq_of_toNat_eq ?_
  show _ = 0
  rcases (said_seq_cases cs : (said changes buf cp cs).seq = _ ∨ _) with h | ⟨n, h⟩
  · have hlt := (get16 cs.csHdr 2).isLt
    simp only [h, BitVec.extractLsb'_toNat, BitVec.toNat_sub, BitVec.toNat_setWidth,
      BitVec.toNat_ofNat, Nat.shiftRight_zero] at hlow ⊢
    omega
  · have hlt := n.isLt
    simp only [h, BitVec.extractLsb'_toNat, BitVec.toNat_setWidth, Nat.shiftRight_zero] at hlow ⊢
    omega

theorem numbers_out {i : ℕ} (h : 4 ≠ i ∧ 5 ≠ i) (h' : i < th + 4 ∨ th + 8 ≤ i) :
    s.numbers th m i = m i := by
  unfold Said.numbers
  rw [store_out (by rw [length_be16]; omega), store_out (by rw [length_be32]; omega)]

theorem numbers_eq_iff (low : s.seq.extractLsb' 0 16 = 0 → s.seq = 0) :
    s.numbers th m = m ↔ s.seq = 0 ∧ s.id = 0 := by
  have hid : store m 4 (be16 (get16 m 4 + s.id)) = m ↔ s.id = 0 := by
    rw [store_be16_iff, left_eq_add]
  have hseq : s.seq = 0 → store m (th + 4) (be32 (get32 m (th + 4) + s.seq)) = m := by
    intro h
    rw [store_be32_iff, h]
    simp
  refine ⟨fun h => ?_, fun ⟨h, h'⟩ => ?_⟩
  · -- the low half of the sequence number is not written again
    have hkept : ∀ i, 5 < i → store m (th + 4) (be32 (get32 m (th + 4) + s.seq)) i = m i := by
      intro i hi
      have := congrFun h i
      rwa [Said.numbers, store_out (by rw [length_be16]; omega)] at this
    have hlow : get16 m (th + 4 + 2) = (get32 m (th + 4) + s.seq).extractLsb' 0 16 := by
      rw [← (at_append.mp (at_store m (th + 4) (be32 (get32 m (th + 4) + s.seq)))).2.get16]
      rw [length_be16, get16, get16, hkept _ (by omega), hkept _ (by omega)]
    have hzero := low <| by
      rw [← BitVec.setWidth_eq_extractLsb' (by decide), BitVec.setWidth_add _ _ (by decide),
        BitVec.setWidth_eq_extractLsb' (by decide), BitVec.setWidth_eq_extractLsb' (by decide),
        get32, BitVec.extractLsb'_append_eq_right, left_eq_add] at hlow
      exact hlow
    refine ⟨hzero, hid.mp ?_⟩
    rw [Said.numbers, hseq hzero] at h
    exact h
  · rw [Said.numbers, hseq h]
    exact hid.mpr h'

/-- **Nothing is changed exactly if nothing new is said.** -/
theorem written_eq_iff (low : s.seq.extractLsb' 0 16 = 0 → s.seq = 0) :
    s.numbers th (runAll (s.writes th) m) = m ↔ s.Repeats th m := by
  have apart : (s.writes th).Pairwise Write.Apart := by
    simp [Said.writes, Write.Apart]
  have kept : ∀ w ∈ s.writes th, ∀ n i, w.start ≤ i → i < w.start + w.len →
      s.numbers th n i = n i := by
    simp only [Said.writes, List.forall_mem_cons]
    refine ⟨?_, ?_, ?_, ?_, ?_, by simp⟩ <;> exact fun n i h h' => numbers_out (by omega) (by omega)
  have hflags : store m (th + 13) [s.flags (m (th + 13))] = m ↔
      s.flags (m (th + 13)) = m (th + 13) := by
    rw [store_eq_self_iff, at_cons, and_iff_left (at_nil _ _), eq_comm]
  rw [runAll_then_iff apart kept, numbers_eq_iff low]
  simp only [Said.writes, List.forall_mem_cons, Write.run, store_be16_iff, store_be32_iff,
    left_eq_add, hflags]
  constructor
  · rintro ⟨⟨hsum, hflags, hurp, hwin, hack, -⟩, hseq, hid⟩
    exact ⟨hsum, hflags, hurp.symm, hwin, hack, hseq, hid⟩
  · rintro ⟨hsum, hflags, hurp, hwin, hack, hseq, hid⟩
    exact ⟨⟨hsum, hflags, hurp.symm, hwin, hack, by simp⟩, hseq, hid⟩

theorem hdr_eq_iff_repeats {cs : Rstate} (hlen : cs.csHlen < 65536) :
    (decodeHdr changes buf cp cs).hdr = cs.csHdr ↔
      (said changes buf cp cs).Repeats (ipHlen cs.csHdr) cs.csHdr := by
  rw [decodeHdr_said, written_eq_iff (said_seq hlen)]

/-- The length is not among what is said. -/
theorem hdr_decodeHdr_len (cs : Rstate) {i : ℕ} (hi : i < 4) :
    (decodeHdr changes buf cp cs).hdr i = cs.csHdr i := by
  rw [decodeHdr_said]
  dsimp only
  rw [numbers_out (by omega) (by omega), runAll_out]
  simp only [Said.writes, List.forall_mem_cons]
  exact ⟨by omega, by omega, by omega, by omega, by omega, by simp⟩

/-- A packet in a conversation. -/
theorem uncompressIn_atomic_iff (comp : Slcompress)
    (hlen : (comp.rstates comp.lastRecv.toNat).csHlen < 65536) :
    (returned (uncompressIn comp changes buf cp len).1 = 0 →
      (uncompressIn comp changes buf cp len).2.rstates = comp.rstates) ↔
    Harmless changes buf cp len (comp.rstates comp.lastRecv.toNat) := by
  generalize hcs : comp.rstates comp.lastRecv.toNat = cs at hlen
  have hupdate (m : Mem) : Function.update comp.rstates comp.lastRecv.toNat ⟨cs.csHlen, m⟩ =
      comp.rstates ↔ m = cs.csHdr := by
    rw [Function.update_eq_self_iff, hcs]
    exact ⟨fun h => congrArg Rstate.csHdr h, fun h => by rw [h]⟩
  have hcp : (decodeHdr changes buf cp cs).cp = numbersEnd changes buf cp := by rw [decodeHdr_said]
  unfold uncompressIn Harmless
  simp only [hcs, hcp, ← hdr_eq_iff_repeats hlen]
  split_ifs with hshort
  · have hne : len ≠ numbersEnd changes buf cp := hshort.ne
    simp only [returned, Option.map_none, Option.getD_none, forall_const, hupdate, hshort,
      true_or, hne, false_imp_iff, and_true]
  · have hend : len - numbersEnd changes buf cp + cs.csHlen = 0 ↔
        len = numbersEnd changes buf cp ∧ cs.csHlen = 0 := by omega
    simp only [returned, rebuild, map_some, length_load, getD_some, hupdate, hend, hshort, false_or]
    refine imp_congr_right fun ⟨heq, hzero⟩ => ?_
    simp only [heq, Nat.sub_self, hzero, Nat.add_zero, forall_const]
    -- the length is written last
    rw [← store_be16_iff (m := cs.csHdr)]
    refine ⟨fun h => ?_, fun ⟨h, h'⟩ => by rw [h]; exact h'⟩
    have hsame : (decodeHdr changes buf cp cs).hdr = cs.csHdr := by
      funext i
      rcases lt_or_ge i 4 with hi | hi
      · exact hdr_decodeHdr_len cs hi
      · rw [← congrFun h i, store_out (.inr hi)]
    exact ⟨hsame, by rwa [hsame] at h⟩

/-- A header that is copied over itself. -/
theorem keepHdr_eq_iff {ip : Mem} {cs : Rstate} :
    keepHdr ip (tcpipHlen ip) cs = cs ↔ Recorded ip cs := by
  have hhdr : store (fun i => if i < tcpipHlen ip then ip i else cs.csHdr i) 10 (be16 0) =
      cs.csHdr ↔ get16 cs.csHdr 10 = 0 ∧
        ∀ i < tcpipHlen ip, i ≠ 10 → i ≠ 11 → cs.csHdr i = ip i := by
    refine ⟨fun h => ⟨?_, fun i hi h10 h11 => ?_⟩, fun ⟨hsum, hrest⟩ => funext fun i => ?_⟩
    · rw [← h]
      exact (at_store _ _ _).get16
    · rw [← congrFun h i, store_out (by rw [length_be16]; omega), if_pos hi]
    · by_cases hi : i = 10 ∨ i = 11
      · have hsame := congrFun (store_be16_iff.mpr hsum) i
        rw [← hsame]
        rcases hi with rfl | rfl <;> rfl
      · rw [store_out (by rw [length_be16]; omega)]
        split_ifs with hlt
        · exact (hrest i hlt (by omega) (by omega)).symm
        · rfl
  rw [Recorded, ← hhdr]
  constructor
  · intro h
    exact ⟨(congrArg Rstate.csHlen h).symm, congrArg Rstate.csHdr h⟩
  · rintro ⟨h, h'⟩
    rw [keepHdr, h', ← h]

end Refused

/-- **A packet is all or nothing**, in any state, if and only if it spares the states. -/
theorem atomic_iff_spares (hlen : ∀ id, (comp.rstates id).csHlen < 65536) (len : ℕ)
    (type : PacketType) : Atomic buf comp len type ↔ Spares buf comp len type := by
  have hok (r : Option (List (BitVec 8)) × Slcompress)
      (h : slUncompressTcp comp buf len type = .ok r) :
      Atomic buf comp len type ↔ (returned r.1 = 0 → r.2.rstates = comp.rstates) := by
    refine ⟨fun ⟨out, comp', heq, keeps⟩ => ?_, fun keeps => ⟨r.1, r.2, h, keeps⟩⟩
    rw [h] at heq
    cases heq
    exact keeps
  cases type with
  | ip => exact iff_of_true ⟨_, _, rfl, fun _ => rfl⟩ trivial
  | uncompressedTcp =>
    rw [Spares]
    by_cases hid : (buf 9).toNat ≥ MAX_STATES
    · exact iff_of_true ⟨_, _, if_pos hid, fun _ => rfl⟩ (.inl hid)
    rw [or_iff_right hid]
    have res : slUncompressTcp comp buf len .uncompressedTcp =
        if tcpipHlen (store buf 9 [6]) > MAX_HDR then .error .overrun
        else .ok (some (load (store buf 9 [6]) 0 len),
          { comp with
            lastRecv := buf 9
            toss := false
            rstates := Function.update comp.rstates (buf 9).toNat (keepHdr (store buf 9 [6])
              (tcpipHlen (store buf 9 [6])) (comp.rstates (buf 9).toNat)) }) := if_neg hid
    by_cases fits : tcpipHlen (store buf 9 [6]) > MAX_HDR
    · refine iff_of_false ?_ fun h => absurd h.1 (not_le.mpr fits)
      rintro ⟨out, comp', heq, -⟩
      rw [res, if_pos fits] at heq
      cases heq
    · rw [hok _ (res.trans (if_neg fits)), and_iff_right (not_lt.mp fits), returned, map_some,
        length_load, getD_some, Function.update_eq_self_iff, keepHdr_eq_iff, imp_iff_not_or]
  | compressedTcp =>
    rw [Spares]
    by_cases hnew : buf 0 &&& NEW_C ≠ 0
    · rw [if_pos hnew]
      by_cases hid : (buf 1).toNat ≥ MAX_STATES
      · refine iff_of_true ⟨none, { comp with toss := true }, ?_, fun _ => rfl⟩ (.inl hid)
        simp only [slUncompressTcp, if_pos hnew, if_pos hid]
      have res : slUncompressTcp comp buf len .compressedTcp = .ok (uncompressIn
          { comp with toss := false, lastRecv := buf 1 } (buf 0) buf 2 len) := by
        simp only [slUncompressTcp, if_pos hnew, if_neg hid]
      rw [hok _ res, or_iff_right hid]
      exact uncompressIn_atomic_iff { comp with toss := false, lastRecv := buf 1 } (hlen _)
    · rw [if_neg hnew]
      by_cases htoss : comp.toss = true
      · refine iff_of_true ⟨none, comp, ?_, fun _ => rfl⟩ (.inl htoss)
        simp only [slUncompressTcp, if_neg hnew, if_pos htoss]
      have res : slUncompressTcp comp buf len .compressedTcp =
          .ok (uncompressIn comp (buf 0) buf 1 len) := by
        simp only [slUncompressTcp, if_neg hnew, if_neg htoss]
      rw [hok _ res, or_iff_right htoss]
      exact uncompressIn_atomic_iff comp (hlen _)

/-- A decompressor with a header of 40 bytes for every conversation. -/
def synchronized : Slcompress :=
  { slCompressInit with
    rstates := fun _ => ⟨40, fun i => if i = 0 then 0x45 else 0⟩
    lastRecv := 0
    toss := false }

/-- An acknowledgement without data is all or nothing, and so is anything for the implicit
connection once something has been lost. -/
theorem atomic_iff_spares_ack :
    Atomic (place [NEW_A, 0, 0, 5] fun _ => 7) synchronized 4 .compressedTcp ∧
      Atomic (place [NEW_A, 0, 0] fun _ => 7) { synchronized with toss := true } 3
        .compressedTcp := by
  have hlen : ∀ id, (synchronized.rstates id).csHlen < 65536 := fun _ => (by decide : 40 < 65536)
  have long : Harmless NEW_A (place [NEW_A, 0, 0, 5] fun _ => 7) 1 4 (synchronized.rstates 0) :=
    fun short => absurd short (by decide)
  exact ⟨(atomic_iff_spares _ _ hlen _ _).mpr (Or.inr long),
    (atomic_iff_spares _ { synchronized with toss := true } hlen _ _).mpr (Or.inl rfl)⟩

/-- Of a packet with an acknowledgement three bytes come, and what is behind them is applied to the
header that the receiver has. -/
theorem truncated_applied :
    ∃ comp', slUncompressTcp synchronized (place [NEW_A, 0, 0] fun _ => 7) 3 .compressedTcp =
        .ok (none, comp') ∧
      load (comp'.rstates 0).csHdr 28 4 = [0, 0, 0, 7] :=
  ⟨_, rfl, rfl⟩

end BSDLite2.SlCompress
