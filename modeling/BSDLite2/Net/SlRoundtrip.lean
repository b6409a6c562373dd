import BSDLite2.Net.SlHeader

/-!
# Packets over a compressed line

One end compresses (`slCompressTcp`), the other restores (`slinput`), and nothing is
lost in between.  As long as the two ends agree (`Sync`), each packet comes out as it
went in unless its header does not fit into a state, or `LosesUrg` holds against the
header that its conversation left behind.  The sender reorders its list of states and the receiver
has an array; what ties them is the number of a state, which is distinct for each, and that the
receiver keeps under it the header the sender last sent with it.  An implicit number is safe because
both ends remember the same last one.

* `send_eq` — one packet;
* `transmit_iff` — a whole run from `sl_compress_init` at both ends.
-/

namespace BSDLite2.SlCompress

open Bytes InCksum OnesComp List Nat

/-! ## Putting a packet together -/

theorem ipCksum_eq (h : Hdr) : ipCksum (h.setIpSum 0).ipBytes = h.cksum := by
  set l := (h.setIpSum 0).ipBytes
  have length : l.length = h.ipHl.toNat * 4 := (h.setIpSum 0).length_ipBytes
  obtain ⟨s, eac, sum⟩ := inCksum_single (l := l) (by omega) (by omega)
  have small : wordSum l < 2 ^ 32 := by
    have := wordSum_le l
    omega
  have folded := (Stands.refl (wordSum l)).isEac_fold_fold small
  rw [ipCksum, folded.unique eac, ← sum, length]
  rfl

theorem at_ipBytes {m : Mem} {h : Hdr} {l : List (BitVec 8)} (H : At m 0 (h.bytes ++ l)) :
    load m 0 h.th = h.ipBytes := by
  rw [Hdr.bytes, append_assoc, at_append] at H
  rw [Hdr.th, ← h.length_ipBytes]
  exact at_iff_load.mp H.1

/-- The packet is the kept header, with its checksum, and the data. -/
theorem rebuild_eq {m buf : Mem} {h : Hdr} {cp : ℕ} {data : List (BitVec 8)}
    (H : At m 0 (h.setIpSum 0).bytes) (D : At buf cp data) :
    rebuild m buf cp h.th h.hlen (data.length + h.hlen) =
      (h.setIpSum h.cksum).bytes ++ data := by
  set out : Mem := fun i => if i < h.hlen then m i else buf (cp + (i - h.hlen)) with hout
  have length : ∀ v, (h.setIpSum v).bytes.length = h.hlen := fun v => (h.setIpSum v).length_bytes
  have whole : At out 0 ((h.setIpSum 0).bytes ++ data) := by
    rw [at_append, length]
    refine ⟨fun i hi => ?_, fun i hi => ?_⟩
    · rw [← H i hi]
      exact if_pos (by rw [length] at hi; omega)
    · rw [hout, ← D i hi]
      simp only
      rw [if_neg (by omega)]
      congr 1
      omega
  have sum : ipCksum (load out 0 h.th) = h.cksum := by
    rw [show h.th = (h.setIpSum 0).th from rfl, at_ipBytes whole, ipCksum_eq]
  have final := (h.slot_ipSum.append data).store h.cksum whole rfl
  rw [rebuild, sum]
  have := at_iff_load.mp final
  rwa [length_append, length, add_comm] at this

/-! ## The two tables -/

/-- The packet is not a fragment, and of the control flags only `TH_ACK` is set. -/
def Compressible (h : Hdr) : Prop := h.ipOff &&& 0x3fff = 0 ∧ h.thFlags &&& 0x17 = 0x10

instance (h : Hdr) : Decidable (Compressible h) := inferInstanceAs (Decidable (_ ∧ _))

/-- A header that was sent: of a packet that may be compressed. -/
structure Sent (o : Hdr) : Prop where
  x2 : o.thX2 = 0
  flags : PlainFlags o.thFlags
  whole : o.hlen ≤ o.ipLen.toNat

theorem Packet.sent (p : Packet) (compressible : Compressible p.hdr) : Sent p.hdr :=
  ⟨p.reserved.1, plainFlags_of_and compressible.2 p.reserved.2, by rw [p.len_eq]; omega⟩

/-- **The two ends agree**: the sender `s` and the receiver `r`. -/
structure Sync (s r : Slcompress) : Prop where
  nonempty : s.tstates ≠ []
  ids : (s.tstates.map Cstate.csId).Nodup
  small : ∀ cs ∈ s.tstates, cs.csId.toNat < MAX_STATES
  sent : ∀ cs ∈ s.tstates, ∀ o, cs.csHdr = some o → Sent o
  keeps : ∀ cs ∈ s.tstates, ∀ o, cs.csHdr = some o → Keeps (r.rstates cs.csId.toNat) o
  last : s.lastXmit.toNat < MAX_STATES → r.lastRecv = s.lastXmit ∧ r.toss = false

theorem sync_init : Sync slCompressInit slCompressInit where
  nonempty := by decide
  ids := by decide
  small := by decide
  sent cs mem o some := by
    simp only [slCompressInit, mem_map] at mem
    obtain ⟨i, -, rfl⟩ := mem
    cases some
  keeps cs mem o some := by
    simp only [slCompressInit, mem_map] at mem
    obtain ⟨i, -, rfl⟩ := mem
    cases some
  last := by decide

/-! ## Finding the state -/

/-- What the search finds: a state, taken out of the list, and the header in it if it
is that of the conversation. -/
structure Located (states : List Cstate) (h : Hdr) (cs : Cstate) (others : List Cstate) :
    Prop where
  ids : (cs.csId :: others.map Cstate.csId).Perm (states.map Cstate.csId)
  sub : ∀ c ∈ others, c ∈ states
  mem : ∀ o, cs.csHdr = some o → cs ∈ states ∧ h.ipSrc = o.ipSrc ∧ h.ipDst = o.ipDst ∧
    h.thPorts = o.thPorts

theorem locate_eq {states : List Cstate} (h : Hdr) (nonempty : states ≠ []) :
    ∃ cs others, locate states h = some (cs, others) ∧ Located states h cs others := by
  have split := takeWhile_append_dropWhile (p := fun cs => !Cstate.isFor cs h) (l := states)
  cases rest : states.dropWhile fun cs => !cs.isFor h with
  | cons cs behind =>
    rw [rest] at split
    refine ⟨cs, (states.takeWhile fun cs => !cs.isFor h) ++ behind, by rw [locate, rest], ?_⟩
    refine ⟨?_, ?_, ?_⟩
    · nth_rewrite 2 [← split]
      simp only [map_append, map_cons]
      exact perm_middle.symm
    · intro c mem
      rw [← split]
      rw [mem_append] at mem ⊢
      exact mem.imp id (mem_cons_of_mem cs)
    · intro o some
      have found : cs.isFor h = true := by
        have := head_dropWhile_not (fun cs => !Cstate.isFor cs h) (l := states)
        simpa [rest] using this
      rw [Cstate.isFor, some] at found
      refine ⟨?_, of_decide_eq_true found⟩
      rw [← split]
      simp
  | nil =>
    have last := dropLast_append_getLast nonempty
    refine ⟨⟨(states.getLast nonempty).csId, none⟩, states.dropLast, ?_, ?_, ?_, ?_⟩
    · rw [locate, rest, getLast?_eq_some_getLast nonempty]
      rfl
    · nth_rewrite 3 [← last]
      simp only [map_append, map_cons, map_nil]
      exact (perm_append_singleton _ _).symm
    · intro c mem
      exact mem_of_mem_dropLast mem
    · intro o some
      cases some

/-! ## One packet at the receiver -/

/-- The receiver after a packet of conversation `id`. -/
def afterPacket (r : Slcompress) (id : BitVec 8) (rs : Rstate) : Slcompress :=
  { r with
    lastRecv := id, toss := false
    rstates := Function.update r.rstates id.toNat rs }

variable {r : Slcompress} {p : Packet}

/-- An uncompressed packet comes out as it is, and its header is kept. -/
theorem uncompress_uncompressed {id : BitVec 8} (behind : Mem) (small : id.toNat < MAX_STATES)
    (fits : p.hdr.hlen ≤ MAX_HDR) :
    ∃ rs, Keeps rs p.hdr ∧
      slinput r ⟨.uncompressedTcp, (p.hdr.setIpP id).bytes ++ p.data⟩ behind =
        .ok (some p.bytes, afterPacket r id rs) := by
  set h := p.hdr
  set bytes := (h.setIpP id).bytes ++ p.data with hbytes
  set buf := place bytes behind with hbuf
  have H : At buf 0 ((h.setIpP id).bytes ++ p.data) := at_place bytes behind
  have first : buf 9 = id := (at_cons.mp ((h.slot_ipP.append p.data).at H)).1
  have six : h.setIpP 6 = h := by
    rw [← p.tcp]
    rfl
  have ip := (h.slot_ipP.append p.data).store 6 H rfl
  rw [six] at ip
  have hdr : At (store buf 9 [6]) 0 h.bytes := (at_append.mp ip).1
  have th : ipHlen (store buf 9 [6]) = h.th := Hdr.ipHlen_eq hdr
  have off : store buf 9 [6] (h.th + 12) = h.thOff ++ h.thX2 :=
    (at_cons.mp (h.slot_thOff.at hdr)).1
  have hlen : h.th + h.thOff.toNat * 4 = h.hlen := by
    rw [Hdr.th, Hdr.hlen, add_mul]
  refine ⟨keepHdr (store buf 9 [6]) h.hlen (r.rstates id.toNat), ⟨rfl, ?_⟩, ?_⟩
  · have copy : At (fun i => if i < h.hlen then store buf 9 [6] i
        else (r.rstates id.toNat).csHdr i) 0 h.bytes := by
      intro i hi
      rw [← hdr i hi]
      exact if_pos (by rwa [Hdr.length_bytes, ← zero_add i] at hi)
    exact h.slot_ipSum.store 0 copy rfl
  · have out : load (store buf 9 [6]) 0 bytes.length = p.bytes := by
      have := at_iff_load.mp ip
      rw [length_append, Hdr.length_bytes] at this
      rw [length_append, Hdr.length_bytes]
      exact this
    simp only [slinput, slUncompressTcp, ← hbuf, first, th, off, extract_hi, hlen]
    rw [if_neg (by omega), if_neg (by omega), out]
    rfl

/-- The checksum does not depend on the TCP header. -/
theorem cksum_setThFlags (h : Hdr) (f : BitVec 8) : (h.setThFlags f).cksum = h.cksum := rfl

/-- A compressed packet, from its checksum on. -/
theorem uncompressIn_eq {o : Hdr} {c : Coded} {buf : Mem} (cp : ℕ) (follows : Follows p.hdr o)
    (keeps : Keeps (r.rstates r.lastRecv.toNat) o) (coded : codeHdr p.hdr o = some c)
    (sent : At buf cp (be16 p.hdr.thSum ++ c.newSeq ++ p.data)) (n : Bool) :
    ∃ rs, Keeps rs (p.hdr.setThFlags (keptFlags p.hdr o)) ∧
      uncompressIn r (c.changes ||| bitIf n NEW_C) buf cp
          (cp + (be16 p.hdr.thSum ++ c.newSeq ++ p.data).length) =
        (some ((p.hdr.setThFlags (keptFlags p.hdr o)).bytes ++ p.data),
          { r with rstates := Function.update r.rstates r.lastRecv.toNat rs }) := by
  set h := p.hdr
  set g := h.setThFlags (keptFlags h o) with hg
  rw [at_append] at sent
  obtain ⟨sentHdr, sentData⟩ := sent
  obtain ⟨hdr, at_cp⟩ := decodeHdr_eq follows keeps coded sentHdr n
  set d := decodeHdr (c.changes ||| bitIf n NEW_C) buf cp (r.rstates r.lastRecv.toNat) with hd
  obtain ⟨codable, -⟩ := codeHdr_eq coded
  have hlen : o.hlen = h.hlen := by
    rw [Hdr.hlen, Hdr.hlen, codable.static.1.2.1, codable.static.2.2.2.1]
  have th : ipHlen (r.rstates r.lastRecv.toNat).csHdr = g.th := by
    rw [Hdr.ipHlen_eq keeps.hdr]
    exact congrArg (fun v : BitVec 4 => v.toNat * 4) codable.static.1.2.1.symm
  rw [length_append, length_be16, ← add_assoc, ← at_cp] at sentData
  have len : BitVec.ofNat 16 (p.data.length + h.hlen) = h.ipLen := by
    have total : h.ipLen.toNat = h.hlen + p.data.length := p.len_eq
    rw [add_comm, ← total, BitVec.ofNat_toNat, BitVec.setWidth_eq]
  have kept : At (store d.hdr 2 (be16 h.ipLen)) 0 (g.setIpSum 0).bytes :=
    (received h o (keptFlags h o)).slot_ipLen.store h.ipLen hdr rfl
  have out := rebuild_eq kept sentData
  have sum : g.setIpSum g.cksum = g := by
    rw [cksum_setThFlags, ← p.sum_eq]
    rfl
  rw [sum] at out
  refine ⟨⟨o.hlen, store d.hdr 2 (be16 h.ipLen)⟩, ⟨hlen, kept⟩, ?_⟩
  have total : cp + (be16 h.thSum ++ c.newSeq ++ p.data).length = d.cp + p.data.length := by
    rw [length_append, length_append, length_be16]
    omega
  simp only [uncompressIn, ← hd, keeps.hlen, th, total, hlen, Nat.add_sub_cancel_left, len]
  rw [if_neg (by omega), ← out]
  rfl

/-- The first byte of a compressed packet. -/
theorem codeHdr_changes {h o : Hdr} {c : Coded} (coded : codeHdr h o = some c) :
    ∃ u w a s i p, ∀ n, c.changes ||| bitIf n NEW_C = changeByte u w a s i p n := by
  obtain ⟨-, c', special, rfl⟩ := codeHdr_eq coded
  rcases codeSpecial_cases special with ⟨rfl, -⟩ | ⟨rfl, -⟩ | ⟨rfl, -⟩
  · exact ⟨_, _, _, _, _, _, fun _ => rfl⟩
  · exact ⟨true, true, false, true, _, _, fun _ => rfl⟩
  · exact ⟨true, true, true, true, _, _, fun _ => rfl⟩

/-- A compressed packet comes out with `keptFlags`. -/
theorem uncompress_compressed {o : Hdr} {c : Coded} {id : BitVec 8} (behind : Mem)
    (small : id.toNat < MAX_STATES) (follows : Follows p.hdr o)
    (keeps : Keeps (r.rstates id.toNat) o) (coded : codeHdr p.hdr o = some c)
    {cid : Option (BitVec 8)} (known : cid = some id ∨ cid = none ∧ r.lastRecv = id ∧
      r.toss = false) :
    ∃ rs, Keeps rs (p.hdr.setThFlags (keptFlags p.hdr o)) ∧
      slinput r ⟨.compressedTcp, compressedBytes cid c p⟩ behind =
        .ok (some ((p.hdr.setThFlags (keptFlags p.hdr o)).bytes ++ p.data),
          afterPacket r id rs) := by
  obtain ⟨u, w, a, s, i, q, byte⟩ := codeHdr_changes coded
  have sent := at_place (compressedBytes cid c p) behind
  show ∃ rs, _ ∧ slUncompressTcp r (place (compressedBytes cid c p) behind)
    (compressedBytes cid c p).length .compressedTcp = _
  generalize place (compressedBytes cid c p) behind = buf at sent ⊢
  set tail := be16 p.hdr.thSum ++ c.newSeq ++ p.data with htail
  rcases known with rfl | ⟨rfl, last, toss⟩
  · -- the conversation is named
    have bytes : compressedBytes (some id) c p = (c.changes ||| NEW_C) :: id :: tail := by
      simp [compressedBytes, htail, be16]
    rw [bytes, at_cons, at_cons] at sent
    obtain ⟨first, second, rest⟩ := sent
    have named : (c.changes ||| NEW_C) &&& NEW_C ≠ 0 := by
      have := byte true
      rw [show bitIf true NEW_C = NEW_C from rfl] at this
      rw [this, test_C]
    obtain ⟨rs, kept, out⟩ := uncompressIn_eq (r := { r with toss := false, lastRecv := id })
      2 follows keeps coded rest true
    refine ⟨rs, kept, ?_⟩
    rw [slUncompressTcp, first, if_pos named, show buf 1 = id from second, if_neg (by omega), bytes,
      length_cons, length_cons, show tail.length + 1 + 1 = 2 + tail.length by omega]
    exact congrArg Except.ok out
  · -- the conversation is that of the last packet
    have bytes : compressedBytes none c p = c.changes :: tail := by
      simp [compressedBytes, htail, be16]
    rw [bytes, at_cons] at sent
    obtain ⟨first, rest⟩ := sent
    have unnamed : ¬(c.changes &&& NEW_C ≠ 0) := by
      have := byte false
      rw [show c.changes ||| bitIf false NEW_C = c.changes from BitVec.or_zero] at this
      rw [this, test_C]
      decide
    subst last
    obtain ⟨rs, kept, out⟩ := uncompressIn_eq 1 follows keeps coded rest false
    refine ⟨rs, kept, ?_⟩
    rw [slUncompressTcp, first, if_neg unnamed, toss, if_neg (by decide), bytes, length_cons,
      add_comm]
    rw [show c.changes ||| bitIf false NEW_C = c.changes from BitVec.or_zero] at out
    rw [out, afterPacket, ← toss]

/-! ## One packet over the line -/

/-- The sender after a packet in the state `cs`. -/
def afterSend (s : Slcompress) (cs : Cstate) (others : List Cstate) (h : Hdr) : Slcompress :=
  { s with tstates := ⟨cs.csId, some h⟩ :: others, lastXmit := cs.csId }

section Step

variable {s r : Slcompress} {cs : Cstate} {others : List Cstate} {h : Hdr}

theorem Located.id_lt (located : Located s.tstates h cs others) (sync : Sync s r) :
    cs.csId.toNat < MAX_STATES := by
  have mem : cs.csId ∈ s.tstates.map Cstate.csId := located.ids.subset (by simp)
  obtain ⟨c, hc, same⟩ := mem_map.mp mem
  exact same ▸ sync.small c hc

/-- If the receiver keeps the header, the two ends agree again. -/
theorem Sync.step (sync : Sync s r) (located : Located s.tstates h cs others) {rs : Rstate}
    (sent : Sent h) (keeps : Keeps rs h) :
    Sync (afterSend s cs others h) (afterPacket r cs.csId rs) := by
  have nodup : (cs.csId :: others.map Cstate.csId).Nodup := located.ids.nodup_iff.mpr sync.ids
  refine ⟨by simp [afterSend], by simpa [afterSend] using nodup, ?_, ?_, ?_,
    fun _ => ⟨rfl, rfl⟩⟩
  · intro c mem
    rcases mem_cons.mp mem with rfl | mem
    · exact located.id_lt sync
    · exact sync.small c (located.sub c mem)
  · intro c mem o some
    rcases mem_cons.mp mem with rfl | mem
    · exact Option.some.inj some ▸ sent
    · exact sync.sent c (located.sub c mem) o some
  · intro c mem o some
    rcases mem_cons.mp mem with rfl | mem
    · rw [← Option.some.inj some]
      simpa [afterPacket] using keeps
    · -- the other states have other numbers
      have other : c.csId.toNat ≠ cs.csId.toNat := by
        intro same
        have : cs.csId ∈ others.map Cstate.csId :=
          mem_map.mpr ⟨c, mem, BitVec.eq_of_toNat_eq same⟩
        exact (nodup_cons.mp nodup).1 this
      show Keeps (Function.update r.rstates cs.csId.toNat rs c.csId.toNat) o
      rw [Function.update_of_ne other]
      exact sync.keeps c (located.sub c mem) o some

/-- The number of the conversation in a compressed packet, unless it is that of the
last packet. -/
def sentCid (s : Slcompress) (cs : Cstate) (compressCid : Bool) : Option (BitVec 8) :=
  if compressCid = false ∨ s.lastXmit ≠ cs.csId then some cs.csId else none

/-- The receiver knows which conversation is meant. -/
theorem Sync.sentCid_known (sync : Sync s r) (small : cs.csId.toNat < MAX_STATES)
    (compressCid : Bool) :
    sentCid s cs compressCid = some cs.csId ∨
      sentCid s cs compressCid = none ∧ r.lastRecv = cs.csId ∧ r.toss = false := by
  by_cases named : compressCid = false ∨ s.lastXmit ≠ cs.csId
  · exact .inl (if_pos named)
  · have same : s.lastXmit = cs.csId := not_not.mp fun h => named (.inr h)
    have last := sync.last (same ▸ small)
    exact .inr ⟨if_neg named, last.1.trans same, last.2⟩

/-- What is sent. -/
theorem compress_eq (compressible : Compressible p.hdr) (fits : p.hdr.hlen ≤ MAX_HDR)
    (found : locate s.tstates p.hdr = some (cs, others)) (compressCid : Bool) :
    slCompressTcp s p compressCid = .ok (match cs.csHdr.bind (codeHdr p.hdr) with
      | some c => ⟨.compressedTcp, compressedBytes (sentCid s cs compressCid) c p⟩
      | none => ⟨.uncompressedTcp, (p.hdr.setIpP cs.csId).bytes ++ p.data⟩,
        afterSend s cs others p.hdr) := by
  simp only [slCompressTcp, compressible.1, compressible.2, ne_eq, not_true_eq_false, if_false,
    found, if_neg (not_lt.mpr fits)]
  cases cs.csHdr.bind (codeHdr p.hdr) <;> rfl

end Step

/-- The header that the conversation of a packet left behind. -/
def keptFor (s : Slcompress) (h : Hdr) : Option Hdr :=
  (locate s.tstates h).bind fun found => found.1.csHdr

/-- The flags with which a packet comes out. -/
def outFlags (s : Slcompress) (h : Hdr) : BitVec 8 :=
  match keptFor s h with
  | some o => keptFlags h o
  | none => h.thFlags

variable {s : Slcompress}

/-- **One packet that may be compressed**, while the two ends agree. -/
theorem send_eq (sync : Sync s r) (p : Packet) (compressCid : Bool) (behind : Mem)
    (compressible : Compressible p.hdr) (fits : p.hdr.hlen ≤ MAX_HDR) :
    ∃ f s' r', slCompressTcp s p compressCid = .ok (f, s') ∧
      slinput r f behind =
        .ok (some ((p.hdr.setThFlags (outFlags s p.hdr)).bytes ++ p.data), r') ∧
      (outFlags s p.hdr = p.hdr.thFlags → Sync s' r') := by
  obtain ⟨cs, others, found, located⟩ := locate_eq p.hdr sync.nonempty
  have kept : keptFor s p.hdr = cs.csHdr := by rw [keptFor, found]; rfl
  have small := located.id_lt sync
  have sent := p.sent compressible
  rw [compress_eq compressible fits found]
  cases coding : cs.csHdr.bind (codeHdr p.hdr) with
  | none =>
    have same : outFlags s p.hdr = p.hdr.thFlags := by
      rw [outFlags, kept]
      cases hdr : cs.csHdr with
      | none => rfl
      | some o =>
        rw [hdr] at coding
        have whole := (sync.sent cs (located.mem o hdr).1 o hdr).whole
        exact if_neg fun loses => loses.codeHdr_ne_none whole coding
    obtain ⟨rs, keeps, out⟩ := uncompress_uncompressed behind small fits
    refine ⟨_, _, afterPacket r cs.csId rs, rfl, ?_, fun _ => sync.step located sent keeps⟩
    rw [same]
    exact out
  | some c =>
    obtain ⟨o, hdr, coded⟩ := Option.bind_eq_some_iff.mp coding
    obtain ⟨mem, src, dst, ports⟩ := located.mem o hdr
    have old := sync.sent cs mem o hdr
    have follows : Follows p.hdr o :=
      ⟨src, dst, ports, sent.x2.trans old.x2.symm, sent.flags, old.flags⟩
    have flags : outFlags s p.hdr = keptFlags p.hdr o := by
      rw [outFlags, kept, hdr]
    obtain ⟨rs, keeps, out⟩ := uncompress_compressed behind small follows
      (sync.keeps cs mem o hdr) coded (sync.sentCid_known small compressCid)
    refine ⟨_, _, afterPacket r cs.csId rs, rfl, ?_, fun same => ?_⟩
    · rw [flags]
      exact out
    · rw [← flags, same] at keeps
      exact sync.step located sent keeps

/-! ## Runs -/

/-- A packet to be sent, whether the number of its conversation may be left out, and
what lies behind the bytes in the receiver's buffer. -/
structure Send where
  packet : Packet
  compressCid : Bool
  behind : Mem

/-- The packets that come out at the other end. -/
def transmit (s r : Slcompress) : List Send → Except Fault (List (Option (List (BitVec 8))))
  | [] => .ok []
  | x :: xs => do
      let sent ← slCompressTcp s x.packet x.compressCid
      let out ← slinput r sent.1 x.behind
      let outs ← transmit sent.2 out.2 xs
      pure (out.1 :: outs)

/-- The step meets the condition: if the packet may be compressed, its header fits into
a state, and `LosesUrg` does not hold against the header kept for its conversation. -/
def Clean (s : Slcompress) (h : Hdr) : Prop :=
  Compressible h → h.hlen ≤ MAX_HDR ∧ ∀ o, keptFor s h = some o → ¬LosesUrg h o

/-- Every step of the run from `s` meets the condition. -/
def CleanRun (s : Slcompress) : List Send → Prop
  | [] => True
  | x :: xs => Clean s x.packet.hdr ∧
      ∀ f s', slCompressTcp s x.packet x.compressCid = .ok (f, s') → CleanRun s' xs

/-- The flags come out right exactly if `TH_URG` is not lost. -/
theorem outFlags_eq_iff (s : Slcompress) (h : Hdr) :
    outFlags s h = h.thFlags ↔ ∀ o, keptFor s h = some o → ¬LosesUrg h o := by
  rw [outFlags]
  cases kept : keptFor s h with
  | none => simp
  | some o =>
    simp only [Option.some.injEq, forall_eq', keptFlags]
    constructor
    · intro same loses
      rw [if_pos loses] at same
      -- the flag is clear in the packet
      have clear : h.thFlags &&& TH_URG = 0 := not_not.mp (of_decide_eq_false loses.2.2.1)
      rw [← same] at clear
      revert clear
      generalize h.thFlags = f
      revert f
      decide +kernel
    · exact fun loses => if_neg loses

theorem compress_ip (not : ¬Compressible p.hdr) (cid : Bool) :
    slCompressTcp s p cid = .ok (⟨.ip, p.bytes⟩, s) := by
  rw [slCompressTcp]
  by_cases fragment : p.hdr.ipOff &&& 0x3fff = 0
  · have control : p.hdr.thFlags &&& 0x17 ≠ 0x10 := fun h => not ⟨fragment, h⟩
    simp only [fragment, ne_eq, not_true_eq_false, if_false, control, not_false_eq_true, if_true]
  · simp only [fragment, ne_eq, not_false_eq_true, if_true]

theorem compress_overrun (sync : Sync s r) (compressible : Compressible p.hdr)
    (long : ¬p.hdr.hlen ≤ MAX_HDR) (cid : Bool) : slCompressTcp s p cid = .error .overrun := by
  obtain ⟨cs, others, found, -⟩ := locate_eq p.hdr sync.nonempty
  simp only [slCompressTcp, compressible.1, compressible.2, ne_eq, not_true_eq_false, if_false,
    found, if_pos (not_le.mp long)]

/-- The first packet of a run. -/
theorem transmit_cons_iff {s' r' : Slcompress} {x : Send} {xs : List Send} {f : Frame}
    {out : Option (List (BitVec 8))} {l : List (Option (List (BitVec 8)))}
    {b : Option (List (BitVec 8))} (sent : slCompressTcp s x.packet x.compressCid = .ok (f, s'))
    (input : slinput r f x.behind = .ok (out, r')) :
    transmit s r (x :: xs) = .ok (b :: l) ↔ out = b ∧ transmit s' r' xs = .ok l := by
  simp only [transmit, sent, bind, Except.bind, input]
  cases rest : transmit s' r' xs with
  | error e => simp
  | ok outs => simp [pure, Except.pure]

theorem transmit_iff_of_sync (sync : Sync s r) (xs : List Send) :
    transmit s r xs = .ok (xs.map fun x => some x.packet.bytes) ↔ CleanRun s xs := by
  induction xs generalizing s r with
  | nil => simp [transmit, CleanRun]
  | cons x xs ih =>
    rw [map_cons, CleanRun]
    by_cases compressible : Compressible x.packet.hdr
    · by_cases fits : x.packet.hdr.hlen ≤ MAX_HDR
      · obtain ⟨f, s', r', sent, input, resync⟩ :=
          send_eq sync x.packet x.compressCid x.behind compressible fits
        rw [transmit_cons_iff sent input, sent]
        -- the bytes are those of the packet exactly if the flags are
        have bytes : (some ((x.packet.hdr.setThFlags (outFlags s x.packet.hdr)).bytes ++
            x.packet.data) = some x.packet.bytes) ↔ Clean s x.packet.hdr := by
          rw [Clean, ← outFlags_eq_iff, Option.some.injEq]
          constructor
          · intro same _
            have := x.packet.hdr.slot_thFlags.inj
              (append_cancel_right same)
            exact ⟨fits, by simpa using this⟩
          · intro clean
            rw [(clean compressible).2]
            rfl
        rw [bytes]
        constructor
        · rintro ⟨clean, rest⟩
          refine ⟨clean, ?_⟩
          rintro f' s'' ⟨⟩
          exact (ih (resync ((outFlags_eq_iff s _).mpr (clean compressible).2))).mp rest
        · rintro ⟨clean, rest⟩
          exact ⟨clean, (ih (resync ((outFlags_eq_iff s _).mpr (clean compressible).2))).mpr
            (rest f s' rfl)⟩
      · have fault := compress_overrun sync compressible fits x.compressCid
        constructor
        · intro ok
          simp [transmit, fault, bind, Except.bind] at ok
        · intro clean
          exact absurd (clean.1 compressible).1 fits
    · have sent := compress_ip (s := s) compressible x.compressCid
      have input : slinput r ⟨.ip, x.packet.bytes⟩ x.behind = .ok (some x.packet.bytes, r) := rfl
      rw [transmit_cons_iff sent input, ih sync, sent]
      constructor
      · rintro ⟨-, rest⟩
        refine ⟨fun h => absurd h compressible, ?_⟩
        rintro f' s' ⟨⟩
        exact rest
      · rintro ⟨-, rest⟩
        exact ⟨rfl, rest _ _ rfl⟩

/-- **Every packet comes out as it went in, exactly if each step of the run meets the
condition.** -/
theorem transmit_iff (xs : List Send) :
    transmit slCompressInit slCompressInit xs = .ok (xs.map fun x => some x.packet.bytes) ↔
      CleanRun slCompressInit xs :=
  transmit_iff_of_sync sync_init xs

/-! ## An urgent packet and the next one -/

/-- A header of a telnet conversation, without its checksum. -/
def telnetHdr (id : BitVec 16) (seq : BitVec 32) (flags : BitVec 8) : Hdr where
  ipV := 4
  ipHl := 5
  ipTos := 0
  ipLen := 41
  ipId := id
  ipOff := 0
  ipTtl := 64
  ipP := 6
  ipSum := 0
  ipSrc := 0x0a000001
  ipDst := 0x0a000002
  ipOpts := []
  thPorts := 0x04000017
  thSeq := seq
  thAck := 200
  thOff := 5
  thX2 := 0
  thFlags := flags
  thWin := 4096
  thSum := 0xbeef
  thUrp := 1
  thOpts := []
  ip_words := by decide
  th_words := by decide

/-- One byte of urgent data. -/
def urgentByte : Packet where
  hdr := (telnetHdr 1 100 0x30).setIpSum (telnetHdr 1 100 0x30).cksum
  data := [0x61]
  tcp := by decide
  reserved := by decide
  len_eq := by decide
  sum_eq := rfl

/-- The next byte, which is not urgent. -/
def nextByte : Packet where
  hdr := (telnetHdr 2 101 0x10).setIpSum (telnetHdr 2 101 0x10).cksum
  data := [0x62]
  tcp := by decide
  reserved := by decide
  len_eq := by decide
  sum_eq := rfl

/-- The second packet comes out with `TH_URG` set. -/
theorem urgent_then_next :
    transmit slCompressInit slCompressInit
        [⟨urgentByte, true, fun _ => 0⟩, ⟨nextByte, true, fun _ => 0⟩] =
      .ok [some urgentByte.bytes, some ((nextByte.hdr.setThFlags 0x30).bytes ++ nextByte.data)] ∧
    (nextByte.hdr.setThFlags 0x30).bytes ++ nextByte.data ≠ nextByte.bytes := by
  decide +kernel

end BSDLite2.SlCompress
