import BSDLite2.Net.SlCompress

/-!
# What the receiver does to a kept header

The sender codes the difference of two headers (`codeHdr`); the receiver patches the
bytes of the kept one (`decodeHdr`).  Each field has a slot in the bytes of a header,
so each patch is the update of a field of a `Hdr`, and the two sides are compared
field by field.

* `decodeHdr_eq` — the kept header after the changes of a packet.  It is the header of
  the packet but for `keptFlags`: the two special codings leave `TH_URG` as it was.
-/

namespace BSDLite2.SlCompress

open Bytes Option

variable {c : Coded} {bit : BitVec 8}

/-! ## Slots of a header -/

section Fields

variable (h : Hdr)

/-- Set `ipLen`. -/
def Hdr.setIpLen (v : BitVec 16) : Hdr := { h with ipLen := v }

/-- Set `ipId`. -/
def Hdr.setIpId (v : BitVec 16) : Hdr := { h with ipId := v }

/-- Set `ipP`. -/
def Hdr.setIpP (v : BitVec 8) : Hdr := { h with ipP := v }

/-- Set `ipSum`. -/
def Hdr.setIpSum (v : BitVec 16) : Hdr := { h with ipSum := v }

/-- Set `thSeq`. -/
def Hdr.setThSeq (v : BitVec 32) : Hdr := { h with thSeq := v }

/-- Set `thAck`. -/
def Hdr.setThAck (v : BitVec 32) : Hdr := { h with thAck := v }

/-- Set `thX2`. -/
def Hdr.setThX2 (v : BitVec 4) : Hdr := { h with thX2 := v }

/-- Set `thFlags`. -/
def Hdr.setThFlags (v : BitVec 8) : Hdr := { h with thFlags := v }

/-- Set `thWin`. -/
def Hdr.setThWin (v : BitVec 16) : Hdr := { h with thWin := v }

/-- Set `thSum`. -/
def Hdr.setThSum (v : BitVec 16) : Hdr := { h with thSum := v }

/-- Set `thUrp`. -/
def Hdr.setThUrp (v : BitVec 16) : Hdr := { h with thUrp := v }

end Fields

variable (h : Hdr)

@[simp]
theorem Hdr.length_ipBytes : h.ipBytes.length = h.ipHl.toNat * 4 := by
  rw [h.ip_words]
  simp [Hdr.ipBytes]
  omega

@[simp]
theorem Hdr.length_thBytes : h.thBytes.length = h.thOff.toNat * 4 := by
  rw [h.th_words]
  simp [Hdr.thBytes]
  omega

@[simp]
theorem Hdr.length_bytes : h.bytes.length = h.hlen := by
  simp [Hdr.bytes, Hdr.hlen, Nat.add_mul]

/-- Where the TCP header begins. -/
def Hdr.th (h : Hdr) : ℕ := h.ipHl.toNat * 4

theorem Hdr.slot_ipLen : Slot 2 be16 fun v => (h.setIpLen v).bytes :=
  ⟨h.bytes.take 2, h.bytes.drop 4, rfl, fun _ => rfl⟩

theorem Hdr.slot_ipId : Slot 4 be16 fun v => (h.setIpId v).bytes :=
  ⟨h.bytes.take 4, h.bytes.drop 6, rfl, fun _ => rfl⟩

theorem Hdr.slot_ipP : Slot 9 (fun v => [v]) fun v => (h.setIpP v).bytes :=
  ⟨h.bytes.take 9, h.bytes.drop 10, rfl, fun _ => rfl⟩

theorem Hdr.slot_ipSum : Slot 10 be16 fun v => (h.setIpSum v).bytes :=
  ⟨h.bytes.take 10, h.bytes.drop 12, rfl, fun _ => rfl⟩

/-- A slot of the TCP header. -/
theorem Hdr.slot_th {α : Type} {a : ℕ} {enc f : α → List (BitVec 8)} (slot : Slot a enc f) :
    Slot (h.th + a) enc fun v => h.ipBytes ++ f v := by
  obtain ⟨pre, post, rfl, eq⟩ := slot
  exact ⟨h.ipBytes ++ pre, post, by simp [Hdr.th], fun v => by simp [eq]⟩

theorem Hdr.slot_thSeq : Slot (h.th + 4) be32 fun v => (h.setThSeq v).bytes :=
  h.slot_th ⟨h.thBytes.take 4, h.thBytes.drop 8, rfl, fun _ => rfl⟩

theorem Hdr.slot_thAck : Slot (h.th + 8) be32 fun v => (h.setThAck v).bytes :=
  h.slot_th ⟨h.thBytes.take 8, h.thBytes.drop 12, rfl, fun _ => rfl⟩

theorem Hdr.slot_thOff : Slot (h.th + 12) (fun v => [h.thOff ++ v]) fun v => (h.setThX2 v).bytes :=
  h.slot_th ⟨h.thBytes.take 12, h.thBytes.drop 13, rfl, fun _ => rfl⟩

theorem Hdr.slot_thFlags : Slot (h.th + 13) (fun v => [v]) fun v => (h.setThFlags v).bytes :=
  h.slot_th ⟨h.thBytes.take 13, h.thBytes.drop 14, rfl, fun _ => rfl⟩

theorem Hdr.slot_thWin : Slot (h.th + 14) be16 fun v => (h.setThWin v).bytes :=
  h.slot_th ⟨h.thBytes.take 14, h.thBytes.drop 16, rfl, fun _ => rfl⟩

theorem Hdr.slot_thSum : Slot (h.th + 16) be16 fun v => (h.setThSum v).bytes :=
  h.slot_th ⟨h.thBytes.take 16, h.thBytes.drop 18, rfl, fun _ => rfl⟩

theorem Hdr.slot_thUrp : Slot (h.th + 18) be16 fun v => (h.setThUrp v).bytes :=
  h.slot_th ⟨h.thBytes.take 18, h.thBytes.drop 20, rfl, fun _ => rfl⟩

theorem extract_lo (a b : BitVec 4) : (a ++ b).extractLsb' 0 4 = b := by decide +revert

theorem extract_hi (a b : BitVec 4) : (a ++ b).extractLsb' 4 4 = a := by decide +revert

theorem Hdr.ipHlen_eq {m : Mem} {h : Hdr} (H : At m 0 h.bytes) : ipHlen m = h.th := by
  have first : m 0 = h.ipV ++ h.ipHl := (at_cons.mp H).1
  rw [ipHlen, first, extract_lo, Hdr.th]

/-! ## One number -/

/-- The bytes `l` are read as `n`. -/
def Codes (l : List (BitVec 8)) (n : BitVec 16) : Prop :=
  ∀ buf cp, At buf cp l → decode buf cp = (n, cp + l.length)

theorem codes_long (n : BitVec 16) : Codes (encodeLong n) n := by
  intro buf cp h
  simp only [encodeLong, at_cons] at h
  obtain ⟨h0, h1, h2, -⟩ := h
  rw [decode, if_pos h0, h1, h2, extract_append_extract]
  rfl

theorem codes_short {n : BitVec 16} (pos : n ≠ 0) (small : n.toNat < 256) :
    Codes [n.extractLsb' 0 8] n := by
  intro buf cp h
  rw [at_cons] at h
  have value : (n.extractLsb' 0 8).setWidth 16 = n := by
    apply BitVec.eq_of_toNat_eq
    simp
    omega
  have nonzero : n.extractLsb' 0 8 ≠ 0 := by
    intro zero
    rw [zero] at value
    exact pos (by rw [← value]; rfl)
  rw [decode, h.1, if_neg nonzero, value]
  rfl

theorem codes_encode {n : BitVec 16} (pos : n ≠ 0) : Codes (encode n) n := by
  rw [encode]
  split
  · exact codes_long n
  · exact codes_short pos (by omega)

theorem codes_encodez (n : BitVec 16) : Codes (encodez n) n := by
  rw [encodez]
  split
  · exact codes_long n
  · rename_i short
    push Not at short
    refine codes_short ?_ short.1
    rintro rfl
    exact short.2 rfl

/-! ## Patches -/

section Patch

variable {buf : Mem} {a : ℕ} {r : Cursor} {l : List (BitVec 8)} {n : BitVec 16}

/-- The kept header is `h`, and the receiver is at `cp`. -/
structure Stage (r : Cursor) (h : Hdr) (cp : ℕ) : Prop where
  hdr : At r.hdr 0 h.bytes
  cp_eq : r.cp = cp

theorem stage_decodeL {f : BitVec 32 → Hdr} (slot : Slot a be32 fun v => (f v).bytes)
    {v : BitVec 32} {cp : ℕ} (stage : Stage r (f v) cp) (coded : At buf cp l) (codes : Codes l n) :
    Stage (decodeL buf a r) (f (v + n.setWidth 32)) (cp + l.length) := by
  obtain ⟨hdr, rfl⟩ := stage
  have read : get32 r.hdr a = v := (slot.at hdr).get32
  rw [decodeL, codes buf r.cp coded, read]
  exact ⟨slot.store _ hdr rfl, rfl⟩

section

variable {f : BitVec 16 → Hdr} (slot : Slot a be16 fun v => (f v).bytes) {v : BitVec 16} {cp : ℕ}
  (stage : Stage r (f v) cp) (coded : At buf cp l) (codes : Codes l n)

include slot stage coded codes

theorem stage_decodeS : Stage (decodeS buf a r) (f (v + n)) (cp + l.length) := by
  obtain ⟨hdr, rfl⟩ := stage
  have read : get16 r.hdr a = v := (slot.at hdr).get16
  rw [decodeS, codes buf r.cp coded, read]
  exact ⟨slot.store _ hdr rfl, rfl⟩

theorem stage_decodeU : Stage (decodeU buf a r) (f n) (cp + l.length) := by
  obtain ⟨hdr, rfl⟩ := stage
  rw [decodeU, codes buf r.cp coded]
  exact ⟨slot.store _ hdr rfl, rfl⟩

end

theorem at_putFlag {m : Mem} {h : Hdr} (H : At m 0 h.bytes) (flag : BitVec 8) (on : Bool) :
    At (putFlag h.th flag on m) 0 (h.setThFlags (withFlag flag on h.thFlags)).bytes := by
  have read : m (h.th + 13) = h.thFlags := (at_cons.mp (h.slot_thFlags.at H)).1
  rw [putFlag, read]
  exact h.slot_thFlags.store (withFlag flag on h.thFlags) H rfl

/-- A patch that is made if a bit is set. -/
theorem stage_whenBit {changes bit : BitVec 8} {f : Cursor → Cursor} {g g' : Hdr} {cp : ℕ}
    {on : Bool} (test : changes &&& bit ≠ 0 ↔ on = true) (stage : Stage r g cp)
    (yes : on = true → Stage (f r) g' (cp + l.length)) (no : on = false → g' = g) :
    Stage (whenBit changes bit f r) g' (cp + (if on then l else []).length) := by
  cases on with
  | true =>
    rw [whenBit, if_pos (test.mpr rfl)]
    exact yes rfl
  | false =>
    rw [whenBit, if_neg (fun h => absurd (test.mp h) (by decide)), no rfl]
    exact stage

end Patch

/-! ## The changes as bits -/

/-- A bit, or nothing. -/
def bitIf (on : Bool) (bit : BitVec 8) : BitVec 8 := if on then bit else 0

/-- The mask of changes to the TCP header. -/
def tcpMask (u w a s : Bool) : BitVec 8 :=
  bitIf u NEW_U ||| bitIf w NEW_W ||| bitIf a NEW_A ||| bitIf s NEW_S

/-- The first byte of a compressed packet. -/
def changeByte (u w a s i p n : Bool) : BitVec 8 :=
  tcpMask u w a s ||| bitIf i NEW_I ||| bitIf p TCP_PUSH_BIT ||| bitIf n NEW_C

section Bits

variable (u w a s i p n : Bool)

theorem test_U : changeByte u w a s i p n &&& NEW_U ≠ 0 ↔ u = true := by decide +revert

theorem test_W : changeByte u w a s i p n &&& NEW_W ≠ 0 ↔ w = true := by decide +revert

theorem test_A : changeByte u w a s i p n &&& NEW_A ≠ 0 ↔ a = true := by decide +revert

theorem test_S : changeByte u w a s i p n &&& NEW_S ≠ 0 ↔ s = true := by decide +revert

theorem test_I : changeByte u w a s i p n &&& NEW_I ≠ 0 ↔ i = true := by decide +revert

theorem test_push : changeByte u w a s i p n &&& TCP_PUSH_BIT ≠ 0 ↔ p = true := by decide +revert

theorem test_C : changeByte u w a s i p n &&& NEW_C ≠ 0 ↔ n = true := by decide +revert

theorem changeByte_and_specials :
    changeByte u w a s i p n &&& SPECIALS_MASK = tcpMask u w a s := by decide +revert

theorem tcpMask_eq_SA : tcpMask u w a s = NEW_S ||| NEW_A ↔
    u = false ∧ w = false ∧ a = true ∧ s = true := by decide +revert

theorem tcpMask_eq_S : tcpMask u w a s = NEW_S ↔
    u = false ∧ w = false ∧ a = false ∧ s = true := by decide +revert

end Bits

/-! ## What the sender codes -/

/-- `TH_URG` is set. -/
def Hdr.urg (h : Hdr) : Bool := decide (h.thFlags &&& TH_URG ≠ 0)

/-- `TH_PUSH` is set. -/
def Hdr.push (h : Hdr) : Bool := decide (h.thFlags &&& TH_PUSH ≠ 0)

/-- A change that is coded as `l` if there is one. -/
def part (bit : BitVec 8) (on : Bool) (l : List (BitVec 8)) : Coded :=
  ⟨bitIf on bit, if on then l else []⟩

theorem ite_eq_part (P : Prop) [Decidable P] (bit : BitVec 8) (l : List (BitVec 8)) :
    (if P then ⟨bit, l⟩ else ⟨0, []⟩ : Coded) = part bit (decide P) l := by
  by_cases h : P <;> simp [part, bitIf, h]

variable {o : Hdr}

theorem codeU_eq {h : Hdr} (coded : codeU h o = some c) :
    c = part NEW_U h.urg (encodez h.thUrp) ∧ (h.urg = false → h.thUrp = o.thUrp) := by
  unfold codeU at coded
  split_ifs at coded with set same <;> cases coded
  · have on : h.urg = true := decide_eq_true set
    exact ⟨by rw [on]; rfl, fun off => absurd (on.symm.trans off) (by decide)⟩
  · have off : h.urg = false := decide_eq_false set
    exact ⟨by rw [off]; rfl, fun _ => not_not.mp same⟩

theorem codeW_eq (o : Hdr) :
    codeW h o = part NEW_W (decide (h.thWin - o.thWin ≠ 0)) (encode (h.thWin - o.thWin)) :=
  ite_eq_part _ _ _

variable {delta : BitVec 32}

theorem codeL_eq (coded : codeL bit delta = some c) :
    c = part bit (decide (delta ≠ 0)) (encode (delta.extractLsb' 0 16)) ∧
      delta.toNat ≤ 0xffff := by
  unfold codeL at coded
  split_ifs at coded with changed <;> cases coded
  · exact ⟨by rw [← ite_eq_part, if_pos changed], by omega⟩
  · exact ⟨by rw [← ite_eq_part, if_neg changed], by simp [not_not.mp changed]⟩

theorem codeL_isSome (bit : BitVec 8) (small : delta.toNat ≤ 0xffff) :
    ∃ c, codeL bit delta = some c := by
  rw [codeL]
  split
  · exact ⟨_, if_neg (by omega)⟩
  · exact ⟨_, rfl⟩

/-- A number of 16 bits and its code, in 32 bits. -/
theorem setWidth_extract (small : delta.toNat ≤ 0xffff) :
    (delta.extractLsb' 0 16).setWidth 32 = delta := by
  apply BitVec.eq_of_toNat_eq
  simp
  omega

theorem codeI_eq (o : Hdr) :
    codeI h o = part NEW_I (decide ((h.ipId.toNat : ℤ) - o.ipId.toNat ≠ 1))
      (encodez (h.ipId - o.ipId)) :=
  ite_eq_part _ _ _

/-- The identification that is not sent is the next one. -/
theorem ipId_next {h : Hdr} (next : (h.ipId.toNat : ℤ) - o.ipId.toNat = 1) :
    h.ipId = o.ipId + 1 := by
  apply BitVec.eq_of_toNat_eq
  simp
  omega

/-- The sequence number moved by the data of the last packet, and the
acknowledgement by as much. -/
def echoes (h o : Hdr) : Prop :=
  h.thSeq - o.thSeq = h.thAck - o.thAck ∧ h.thSeq - o.thSeq = lastData h o

/-- The ways through the `switch`. -/
theorem codeSpecial_cases {h : Hdr} {c c' : Coded} (coded : codeSpecial h o c = some c') :
    (c' = c ∧ c.changes ≠ SPECIAL_I ∧ c.changes ≠ SPECIAL_D ∧
        ¬(c.changes = NEW_S ||| NEW_A ∧ echoes h o) ∧
        ¬(c.changes = NEW_S ∧ h.thSeq - o.thSeq = lastData h o)) ∨
      (c' = ⟨SPECIAL_I, []⟩ ∧ c.changes = NEW_S ||| NEW_A ∧ echoes h o) ∨
      (c' = ⟨SPECIAL_D, []⟩ ∧ c.changes = NEW_S ∧ h.thSeq - o.thSeq = lastData h o) := by
  have distinct : (0 : BitVec 8) ≠ SPECIAL_I ∧ (0 : BitVec 8) ≠ SPECIAL_D ∧
      (0 : BitVec 8) ≠ NEW_S ||| NEW_A ∧ (0 : BitVec 8) ≠ NEW_S ∧
      (NEW_S ||| NEW_A ≠ NEW_S) := by decide
  obtain ⟨zI, zD, zSA, zS, hne⟩ := distinct
  unfold codeSpecial at coded
  split_ifs at coded with zero _ special sa echo s data <;> cases coded
  · exact .inl ⟨rfl, zero ▸ zI, zero ▸ zD, fun h => zSA (zero ▸ h.1), fun h => zS (zero ▸ h.1)⟩
  all_goals rw [not_or] at special
  · exact .inr (.inl ⟨rfl, sa, echo⟩)
  · exact .inl ⟨rfl, special.1, special.2, fun h => echo h.2, fun h => hne (sa ▸ h.1)⟩
  · exact .inr (.inr ⟨rfl, s, data⟩)
  · exact .inl ⟨rfl, special.1, special.2, fun h => sa h.1, fun h => data h.2⟩
  · exact .inl ⟨rfl, special.1, special.2, fun h => sa h.1, fun h => s h.1⟩

/-- The window has changed. -/
def newW (h o : Hdr) : Bool := decide (h.thWin - o.thWin ≠ 0)

/-- The acknowledgement has changed. -/
def newA (h o : Hdr) : Bool := decide (h.thAck - o.thAck ≠ 0)

/-- The sequence number has changed. -/
def newS (h o : Hdr) : Bool := decide (h.thSeq - o.thSeq ≠ 0)

/-- The identification is not the next one. -/
def newI (h o : Hdr) : Bool := decide ((h.ipId.toNat : ℤ) - o.ipId.toNat ≠ 1)

/-- The numbers that are sent for the TCP header. -/
def tcpNums (h o : Hdr) : List (BitVec 8) :=
  (if h.urg then encodez h.thUrp else []) ++
  (if newW h o then encode (h.thWin - o.thWin) else []) ++
  (if newA h o then encode ((h.thAck - o.thAck).extractLsb' 0 16) else []) ++
  (if newS h o then encode ((h.thSeq - o.thSeq).extractLsb' 0 16) else [])

/-- The number that is sent for the identification. -/
def idNums (h o : Hdr) : List (BitVec 8) :=
  if newI h o then encodez (h.ipId - o.ipId) else []

/-- The changes to the TCP header, before the `switch`. -/
def tcpCoded (h o : Hdr) : Coded :=
  ⟨tcpMask h.urg (newW h o) (newA h o) (newS h o), tcpNums h o⟩

/-- What can be sent as changes. -/
structure Codable (h o : Hdr) : Prop where
  static : sameStatic h o
  urp : h.urg = false → h.thUrp = o.thUrp
  ack : (h.thAck - o.thAck).toNat ≤ 0xffff
  seq : (h.thSeq - o.thSeq).toNat ≤ 0xffff

theorem codeHdr_eq {h : Hdr} (coded : codeHdr h o = some c) :
    Codable h o ∧ ∃ c', codeSpecial h o (tcpCoded h o) = some c' ∧
      c = ⟨c'.changes ||| bitIf (newI h o) NEW_I ||| bitIf h.push TCP_PUSH_BIT,
        c'.newSeq ++ idNums h o⟩ := by
  rw [codeHdr] at coded
  split at coded
  · rename_i static
    simp only [bind_eq_bind, bind_eq_some_iff, pure_def, Option.some.injEq] at coded
    obtain ⟨u, hu, a, ha, s, hs, c', hc', rfl⟩ := coded
    obtain ⟨rfl, urp⟩ := codeU_eq hu
    obtain ⟨rfl, ack⟩ := codeL_eq ha
    obtain ⟨rfl, seq⟩ := codeL_eq hs
    rw [codeW_eq] at hc'
    refine ⟨⟨static, urp, ack, seq⟩, c', hc', ?_⟩
    rw [codeI_eq]
    simp [Coded.append, part, idNums, newI, bitIf, Hdr.push]
  · cases coded

theorem Codable.codeHdr_eq_none {h : Hdr} (codable : Codable h o) (fails : codeHdr h o = none) :
    codeSpecial h o (tcpCoded h o) = none := by
  obtain ⟨static, urp, ack, seq⟩ := codable
  have hu : codeU h o = some (part NEW_U h.urg (encodez h.thUrp)) := by
    cases urg : h.urg with
    | true => exact if_pos (of_decide_eq_true urg)
    | false =>
      rw [codeU, if_neg (of_decide_eq_false urg), if_neg (not_not.mpr (urp urg))]
      rfl
  obtain ⟨a, ha⟩ := codeL_isSome NEW_A ack
  obtain ⟨s, hs⟩ := codeL_isSome NEW_S seq
  obtain ⟨rfl, -⟩ := codeL_eq ha
  obtain ⟨rfl, -⟩ := codeL_eq hs
  rw [codeHdr, if_pos static, hu, codeA, ha, codeS, hs, codeW_eq] at fails
  simp only [bind_eq_bind, bind_some, bind_eq_none_iff] at fails
  by_contra succeeds
  obtain ⟨c, hc⟩ := ne_none_iff_exists'.mp succeeds
  exact absurd (fails c hc) (by simp)

/-! ## What is lost -/

/-- **The case in which `TH_URG` is not cleared.**  The last packet of the
conversation was urgent and the present one is not; the urgent pointer and the window
stand, the sequence number moved by the data of the last packet, and the
acknowledgement stands or moved by as much. -/
def LosesUrg (h o : Hdr) : Prop :=
  sameStatic h o ∧ o.urg = true ∧ h.urg = false ∧ h.thUrp = o.thUrp ∧ h.thWin = o.thWin ∧
    h.thSeq - o.thSeq = lastData h o ∧ lastData h o ≠ 0 ∧
    (h.thAck = o.thAck ∨ h.thAck - o.thAck = lastData h o)

instance (h o : Hdr) : Decidable (LosesUrg h o) := inferInstanceAs (Decidable (_ ∧ _))

/-- The flags that come out. -/
def keptFlags (h o : Hdr) : BitVec 8 :=
  if LosesUrg h o then h.thFlags ||| TH_URG else h.thFlags

section

variable {h : Hdr} (loses : LosesUrg h o)

include loses

/-- Such a packet is sent in one of the special codings. -/
theorem LosesUrg.special :
    ((tcpCoded h o).changes = NEW_S ||| NEW_A ∧ echoes h o) ∨
      ((tcpCoded h o).changes = NEW_S ∧ h.thSeq - o.thSeq = lastData h o) := by
  obtain ⟨-, -, urg, -, win, seq, data, ack⟩ := loses
  have hw : newW h o = false := by simp [newW, win]
  have hs : newS h o = true := by simpa [newS, seq] using data
  rcases ack with ack | ack
  · have ha : newA h o = false := by simp [newA, ack]
    exact .inr ⟨(tcpMask_eq_S _ _ _ _).mpr ⟨urg, hw, ha, hs⟩, seq⟩
  · have ha : newA h o = true := by simpa [newA, ack] using data
    exact .inl ⟨(tcpMask_eq_SA _ _ _ _).mpr ⟨urg, hw, ha, hs⟩, seq.trans ack.symm, seq⟩

theorem LosesUrg.codable (whole : o.hlen ≤ o.ipLen.toNat) : Codable h o := by
  obtain ⟨static, -, -, urp, -, seq, -, ack⟩ := loses
  have hlen : h.hlen = o.hlen := by
    rw [Hdr.hlen, Hdr.hlen, static.1.2.1, static.2.2.2.1]
  have small : (lastData h o).toNat ≤ 0xffff := by
    rw [lastData, BitVec.toNat_sub, BitVec.toNat_setWidth, BitVec.toNat_ofNat]
    omega
  refine ⟨static, fun _ => urp, ?_, seq ▸ small⟩
  rcases ack with ack | ack
  · simp [ack]
  · exact ack ▸ small

theorem LosesUrg.codeHdr_ne_none (whole : o.hlen ≤ o.ipLen.toNat) : codeHdr h o ≠ none := by
  intro fails
  have none := (loses.codable whole).codeHdr_eq_none fails
  rcases loses.special with ⟨mask, same, data⟩ | ⟨mask, data⟩
  · rw [codeSpecial, mask, if_neg (by decide), if_neg (by decide), if_pos rfl,
      if_pos ⟨same, data⟩] at none
    cases none
  · rw [codeSpecial, mask, if_pos data] at none
    cases none

end

/-! ## Flags -/

/-- The flags of a packet that may be compressed, its reserved bits zero: only
`TH_PUSH` and `TH_URG` vary. -/
def PlainFlags (f : BitVec 8) : Prop :=
  f = 0x10 ∨ f = 0x18 ∨ f = 0x30 ∨ f = 0x38

theorem plainFlags_of_and {f : BitVec 8} (control : f &&& 0x17 = 0x10) (reserved : f &&& 0xc0 = 0) :
    PlainFlags f := by
  unfold PlainFlags
  decide +kernel +revert

section

variable {h : Hdr} (hh : PlainFlags h.thFlags) (ho : PlainFlags o.thFlags)

include hh ho

theorem withFlag_plain : withFlag TH_URG h.urg (withFlag TH_PUSH h.push o.thFlags) = h.thFlags := by
  rw [Hdr.urg, Hdr.push]
  rcases hh with e | e | e | e <;> rcases ho with e' | e' | e' | e' <;> rw [e, e'] <;> decide

theorem withFlag_special (off : h.urg = false) :
    withFlag TH_PUSH h.push o.thFlags = if o.urg then h.thFlags ||| TH_URG else h.thFlags := by
  rw [Hdr.urg] at off
  rw [Hdr.urg, Hdr.push]
  rcases hh with e | e | e | e <;> rcases ho with e' | e' | e' | e' <;> rw [e] at off ⊢ <;>
    rw [e'] <;> revert off <;> decide

end

-- headers are compared field by field below, and the flags need not be evaluated for it
seal withFlag

/-! ## The kept header -/

/-- The headers belong to one conversation, and both may be compressed. -/
structure Follows (h o : Hdr) : Prop where
  src : h.ipSrc = o.ipSrc
  dst : h.ipDst = o.ipDst
  ports : h.thPorts = o.thPorts
  x2 : h.thX2 = o.thX2
  flags : PlainFlags h.thFlags
  kept_flags : PlainFlags o.thFlags

/-- A state of the receiver holds the header `o`. -/
structure Keeps (rs : Rstate) (o : Hdr) : Prop where
  hlen : rs.csHlen = o.hlen
  hdr : At rs.csHdr 0 (o.setIpSum 0).bytes

section Decode

variable {h o : Hdr} {buf : Mem} {cp : ℕ} {rs : Rstate} {u w a s i n : Bool}

/-- The header after the checksum and the push bit. -/
def afterSum (h o : Hdr) : Hdr :=
  ((o.setIpSum 0).setThSum h.thSum).setThFlags (withFlag TH_PUSH h.push o.thFlags)

theorem decode_sum (keeps : Keeps rs o) (coded : At buf cp (be16 h.thSum)) :
    decodeHdr (changeByte u w a s i h.push n) buf cp rs =
      decodeI (changeByte u w a s i h.push n) buf
        (decodeTcp (changeByte u w a s i h.push n) buf o.th o.hlen
          ⟨putFlag o.th TH_PUSH h.push (store rs.csHdr (o.th + 16) (be16 h.thSum)), cp + 2⟩) := by
  have bytes : [buf cp, buf (cp + 1)] = be16 h.thSum := by
    rw [be16, at_cons, at_cons] at coded
    rw [coded.1, coded.2.1]
    rfl
  have push : decide (changeByte u w a s i h.push n &&& TCP_PUSH_BIT ≠ 0) = h.push :=
    Bool.eq_iff_iff.mpr (decide_eq_true_iff.trans (test_push u w a s i h.push n))
  have th : ipHlen rs.csHdr = (o.setIpSum 0).th := Hdr.ipHlen_eq keeps.hdr
  simp only [decodeHdr, bytes, push, th, keeps.hlen]
  rfl

theorem stage_sum (keeps : Keeps rs o) (cp : ℕ) :
    Stage ⟨putFlag o.th TH_PUSH h.push (store rs.csHdr (o.th + 16) (be16 h.thSum)), cp⟩
      (afterSum h o) cp := by
  have sum := (o.setIpSum 0).slot_thSum.store h.thSum keeps.hdr rfl
  exact ⟨at_putFlag sum TH_PUSH h.push, rfl⟩

section Number

variable {changes : BitVec 8} {on : Bool} {r : Cursor} {g : Hdr} (th : ℕ)

theorem stage_U {v : BitVec 16} (at_th : g.th = th) (stage : Stage r g cp)
    (coded : At buf cp (if on then encodez v else []))
    (test : changes &&& NEW_U ≠ 0 ↔ on = true) (same : on = false → v = g.thUrp) :
    Stage (whenBit changes NEW_U (decodeU buf (th + 18)) r) (g.setThUrp v)
      (cp + (if on then encodez v else []).length) := by
  subst at_th
  refine stage_whenBit test stage (fun yes => ?_) (fun no => by rw [same no]; rfl)
  rw [if_pos yes] at coded
  exact stage_decodeU g.slot_thUrp stage coded (codes_encodez v)

theorem stage_W {v old : BitVec 16} (at_th : g.th = th) (is_old : g.thWin = old)
    (stage : Stage r g cp) (known : on = decide (v - old ≠ 0))
    (coded : At buf cp (if on then encode (v - old) else []))
    (test : changes &&& NEW_W ≠ 0 ↔ on = true) :
    Stage (whenBit changes NEW_W (decodeS buf (th + 14)) r) (g.setThWin v)
      (cp + (if on then encode (v - old) else []).length) := by
  subst at_th is_old
  refine stage_whenBit test stage (fun yes => ?_) (fun no => ?_)
  · rw [if_pos yes] at coded
    have changed : v - g.thWin ≠ 0 := of_decide_eq_true (known ▸ yes)
    have moved := stage_decodeS g.slot_thWin stage coded (codes_encode changed)
    rwa [add_sub_cancel] at moved
  · have same : v - g.thWin = 0 := not_not.mp (of_decide_eq_false (known ▸ no))
    rw [sub_eq_zero.mp same]
    rfl

/-- A sequence number or an acknowledgement. -/
theorem stage_L {a : ℕ} {f : BitVec 32 → Hdr}
    (slot : Slot a be32 fun v => (f v).bytes) {old v : BitVec 32} (stage : Stage r (f old) cp)
    (small : (v - old).toNat ≤ 0xffff) (known : on = decide (v - old ≠ 0))
    (coded : At buf cp (if on then encode ((v - old).extractLsb' 0 16) else []))
    (test : changes &&& bit ≠ 0 ↔ on = true) :
    Stage (whenBit changes bit (decodeL buf a) r) (f v)
      (cp + (if on then encode ((v - old).extractLsb' 0 16) else []).length) := by
  have value := setWidth_extract small
  refine stage_whenBit test stage (fun yes => ?_) (fun no => ?_)
  · rw [if_pos yes] at coded
    have changed : (v - old).extractLsb' 0 16 ≠ 0 := by
      intro zero
      rw [zero] at value
      have changed : v - old ≠ 0 := of_decide_eq_true (known ▸ yes)
      exact changed (by rw [← value]; rfl)
    have moved := stage_decodeL slot stage coded (codes_encode changed)
    rwa [value, add_sub_cancel] at moved
  · have same : v - old = 0 := not_not.mp (of_decide_eq_false (known ▸ no))
    rw [sub_eq_zero.mp same]

theorem stage_I {v old : BitVec 16} (is_old : g.ipId = old) (stage : Stage r g cp)
    (coded : At buf cp (if on then encodez (v - old) else []))
    (test : changes &&& NEW_I ≠ 0 ↔ on = true) (next : on = false → v = old + 1) :
    Stage (decodeI changes buf r) (g.setIpId v)
      (cp + (if on then encodez (v - old) else []).length) := by
  subst is_old
  cases on with
  | true =>
    rw [decodeI, if_pos (test.mpr rfl)]
    have moved := stage_decodeS g.slot_ipId stage coded (codes_encodez (v - g.ipId))
    rwa [add_sub_cancel] at moved
  | false =>
    rw [decodeI, if_neg (fun h => absurd (test.mp h) (by decide)), next rfl]
    have read : get16 r.hdr 4 = g.ipId := (g.slot_ipId.at stage.hdr).get16
    rw [read]
    exact ⟨g.slot_ipId.store (g.ipId + 1) stage.hdr rfl, stage.cp_eq⟩

end Number

/-- The header after the numbers of the TCP header. -/
def afterTcp (h g : Hdr) : Hdr :=
  ((((g.setThFlags (withFlag TH_URG h.urg g.thFlags)).setThUrp h.thUrp).setThWin
    h.thWin).setThAck h.thAck).setThSeq h.thSeq

variable {r : Cursor} {g : Hdr}

/-- The numbers of the TCP header one after the other. -/
theorem stage_tcp_plain {p : Bool} (hlen : ℕ) (codable : Codable h g) (stage : Stage r g cp)
    (coded : At buf cp (tcpNums h g)) (notI : (tcpCoded h g).changes ≠ SPECIAL_I)
    (notD : (tcpCoded h g).changes ≠ SPECIAL_D) :
    Stage (decodeTcp (changeByte h.urg (newW h g) (newA h g) (newS h g) i p n) buf g.th hlen r)
      (afterTcp h g) (cp + (tcpNums h g).length) := by
  simp only [tcpNums, at_append, List.length_append, ← Nat.add_assoc] at coded ⊢
  obtain ⟨⟨⟨hu, hw⟩, ha⟩, hs⟩ := coded
  have urg : decide (changeByte h.urg (newW h g) (newA h g) (newS h g) i p n &&& NEW_U ≠ 0) =
      h.urg := Bool.eq_iff_iff.mpr (decide_eq_true_iff.trans (test_U ..))
  rw [tcpCoded] at notI notD
  simp only [decodeTcp, changeByte_and_specials, if_neg notI, if_neg notD, urg]
  -- the flag, then each number in the order of the code
  have flag : Stage ⟨putFlag g.th TH_URG h.urg r.hdr, r.cp⟩
      (g.setThFlags (withFlag TH_URG h.urg g.thFlags)) cp :=
    ⟨at_putFlag stage.hdr TH_URG h.urg, stage.cp_eq⟩
  have stageU := stage_U g.th (by rfl) flag hu
    (test_U h.urg (newW h g) (newA h g) (newS h g) i p n) codable.urp
  have stageW := stage_W g.th (by rfl) (by rfl) stageU rfl hw
    (test_W h.urg (newW h g) (newA h g) (newS h g) i p n)
  have stageA := stage_L (((g.setThFlags (withFlag TH_URG h.urg g.thFlags)).setThUrp
    h.thUrp).setThWin h.thWin).slot_thAck stageW codable.ack rfl ha
    (test_A h.urg (newW h g) (newA h g) (newS h g) i p n)
  exact stage_L ((((g.setThFlags (withFlag TH_URG h.urg g.thFlags)).setThUrp
    h.thUrp).setThWin h.thWin).setThAck h.thAck).slot_thSeq stageA codable.seq rfl hs
    (test_S h.urg (newW h g) (newA h g) (newS h g) i p n)

/-- How far the special codings move the numbers. -/
theorem lastData_eq (static : sameStatic h o) :
    o.ipLen.setWidth 32 - BitVec.ofNat 32 o.hlen = lastData h o := by
  rw [lastData, Hdr.hlen, Hdr.hlen, static.1.2.1, static.2.2.2.1]

section

variable (buf : Mem) (p : Bool) {hlen : ℕ} {d : BitVec 32} (stage : Stage r g cp)
  (hd : g.ipLen.setWidth 32 - BitVec.ofNat 32 hlen = d)

include stage hd

theorem stage_tcp_I :
    Stage (decodeTcp (changeByte true true false true i p n) buf g.th hlen r)
      ((g.setThAck (g.thAck + d)).setThSeq (g.thSeq + d)) cp := by
  have len : get16 r.hdr 2 = g.ipLen := (g.slot_ipLen.at stage.hdr).get16
  have ack : get32 r.hdr (g.th + 8) = g.thAck := (g.slot_thAck.at stage.hdr).get32
  rw [decodeTcp, changeByte_and_specials, len, ack, hd]
  have moved := g.slot_thAck.store (g.thAck + d) stage.hdr rfl
  have seq : get32 (store r.hdr (g.th + 8) (be32 (g.thAck + d))) (g.th + 4) = g.thSeq :=
    ((g.setThAck (g.thAck + d)).slot_thSeq.at moved).get32
  simp only [seq]
  exact ⟨(g.setThAck (g.thAck + d)).slot_thSeq.store (g.thSeq + d) moved rfl, stage.cp_eq⟩

theorem stage_tcp_D :
    Stage (decodeTcp (changeByte true true true true i p n) buf g.th hlen r)
      (g.setThSeq (g.thSeq + d)) cp := by
  have len : get16 r.hdr 2 = g.ipLen := (g.slot_ipLen.at stage.hdr).get16
  have seq : get32 r.hdr (g.th + 4) = g.thSeq := (g.slot_thSeq.at stage.hdr).get32
  rw [decodeTcp, changeByte_and_specials, if_neg (by decide), len, seq, hd]
  exact ⟨g.slot_thSeq.store _ stage.hdr rfl, stage.cp_eq⟩

end

/-- What comes out of a packet with header `h`, before its length is filled in. -/
def received (h o : Hdr) (flags : BitVec 8) : Hdr :=
  ((h.setIpSum 0).setIpLen o.ipLen).setThFlags flags

/-- The patched header, its numbers being those of the packet. -/
theorem patched_eq (follows : Follows h o) (static : sameStatic h o) {flags : BitVec 8}
    (hg : g = { o with
      ipSum := 0, ipId := h.ipId, thSum := h.thSum, thFlags := flags, thUrp := h.thUrp,
      thWin := h.thWin, thAck := h.thAck, thSeq := h.thSeq }) : g = received h o flags := by
  obtain ⟨⟨v, hl, tos⟩, off, ⟨ttl, proto⟩, thOff, ipOpts, thOpts⟩ := static
  subst hg
  apply Hdr.ext <;> simp [received, Hdr.setIpSum, Hdr.setIpLen, Hdr.setThFlags, v, hl, tos, off,
    ttl, proto, thOff, ipOpts, thOpts, follows.src, follows.dst, follows.ports, follows.x2]

theorem thWin_eq (win : newW h o = false) : h.thWin = o.thWin :=
  sub_eq_zero.mp (not_not.mp (of_decide_eq_false win))

theorem keptFlags_special (follows : Follows h o) (codable : Codable h o) (win : newW h o = false)
    (urg : h.urg = false) (changed : newS h o = true) (seq : h.thSeq - o.thSeq = lastData h o)
    (ack : h.thAck = o.thAck ∨ h.thAck - o.thAck = lastData h o) :
    withFlag TH_PUSH h.push o.thFlags = keptFlags h o := by
  have same := thWin_eq win
  have data : lastData h o ≠ 0 := seq ▸ of_decide_eq_true changed
  rw [withFlag_special follows.flags follows.kept_flags urg, keptFlags]
  have iff : LosesUrg h o ↔ o.urg = true :=
    ⟨fun loses => loses.2.1,
      fun was => ⟨codable.static, was, urg, codable.urp urg, same, seq, data, ack⟩⟩
  simp only [iff]

/-- The identification is sent, or is the next one. -/
theorem stage_id {q : ℕ} (is_old : g.ipId = o.ipId) (stage : Stage r g q)
    (sent : At buf q (idNums h o)) (u w a s p n : Bool) :
    Stage (decodeI (changeByte u w a s (newI h o) p n) buf r) (g.setIpId h.ipId)
      (q + (idNums h o).length) :=
  stage_I is_old stage sent (test_I u w a s (newI h o) p n)
    fun off => ipId_next (not_not.mp (of_decide_eq_false off))

section

variable (follows : Follows h o) (keeps : Keeps rs o) (codable : Codable h o)
  (sentSum : At buf cp (be16 h.thSum))

include follows keeps codable sentSum

/-- The numbers one by one. -/
theorem decode_plain (notI : (tcpCoded h o).changes ≠ SPECIAL_I)
    (notD : (tcpCoded h o).changes ≠ SPECIAL_D) (kept : ¬LosesUrg h o)
    (sentTcp : At buf (cp + 2) (tcpNums h o))
    (sentId : At buf (cp + 2 + (tcpNums h o).length) (idNums h o)) :
    Stage (decodeHdr (changeByte h.urg (newW h o) (newA h o) (newS h o) (newI h o) h.push n)
        buf cp rs)
      (received h o (keptFlags h o)) (cp + 2 + (tcpNums h o).length + (idNums h o).length) := by
  have base : Codable h (afterSum h o) :=
    ⟨codable.static, codable.urp, codable.ack, codable.seq⟩
  have coding : tcpCoded h (afterSum h o) = tcpCoded h o := rfl
  have tcp := stage_tcp_plain (i := newI h o) (n := n) (p := h.push) o.hlen base
    (stage_sum keeps (cp + 2)) sentTcp notI notD
  rw [decode_sum keeps sentSum]
  have is_old : (afterTcp h (afterSum h o)).ipId = o.ipId := by
    simp [afterTcp, afterSum, Hdr.setThFlags, Hdr.setThUrp, Hdr.setThWin, Hdr.setThAck,
      Hdr.setThSeq, Hdr.setThSum, Hdr.setIpSum]
  have whole := stage_id is_old tcp sentId h.urg (newW h o) (newA h o) (newS h o) h.push n
  have final : (afterTcp h (afterSum h o)).setIpId h.ipId = received h o (keptFlags h o) := by
    apply patched_eq follows codable.static
    rw [keptFlags, if_neg kept, ← withFlag_plain follows.flags follows.kept_flags]
    dsimp only [afterTcp, afterSum, Hdr.setThFlags, Hdr.setThUrp, Hdr.setThWin, Hdr.setThAck,
      Hdr.setThSeq, Hdr.setThSum, Hdr.setIpSum, Hdr.setIpId]
  rwa [final] at whole

/-- Echoed data. -/
theorem decode_I (mask : (tcpCoded h o).changes = NEW_S ||| NEW_A) (echo : echoes h o)
    (sentId : At buf (cp + 2) (idNums h o)) :
    Stage (decodeHdr (changeByte true true false true (newI h o) h.push n) buf cp rs)
      (received h o (keptFlags h o)) (cp + 2 + (idNums h o).length) := by
  obtain ⟨urg, win, -, changed⟩ := (tcpMask_eq_SA _ _ _ _).mp mask
  obtain ⟨same, seq⟩ := echo
  have ack : h.thAck - o.thAck = lastData h o := same ▸ seq
  have flags := keptFlags_special follows codable win urg changed seq (.inr ack)
  have tcp := stage_tcp_I (i := newI h o) (n := n) buf h.push
    (stage_sum (h := h) keeps (cp + 2)) (lastData_eq codable.static)
  rw [decode_sum keeps sentSum]
  have whole := stage_id (by rfl) tcp sentId true true false true h.push n
  have final : (((afterSum h o).setThAck (o.thAck + lastData h o)).setThSeq
      (o.thSeq + lastData h o)).setIpId h.ipId = received h o (keptFlags h o) := by
    apply patched_eq follows codable.static
    rw [← flags, codable.urp urg, thWin_eq win, ← add_sub_cancel o.thAck h.thAck, ack,
      ← add_sub_cancel o.thSeq h.thSeq, seq]
    rfl
  exact final ▸ whole

/-- Data in one direction. -/
theorem decode_D (mask : (tcpCoded h o).changes = NEW_S) (seq : h.thSeq - o.thSeq = lastData h o)
    (sentId : At buf (cp + 2) (idNums h o)) :
    Stage (decodeHdr (changeByte true true true true (newI h o) h.push n) buf cp rs)
      (received h o (keptFlags h o)) (cp + 2 + (idNums h o).length) := by
  obtain ⟨urg, win, stands, changed⟩ := (tcpMask_eq_S _ _ _ _).mp mask
  have ack : h.thAck = o.thAck := sub_eq_zero.mp (not_not.mp (of_decide_eq_false stands))
  have flags := keptFlags_special follows codable win urg changed seq (.inl ack)
  have tcp := stage_tcp_D (i := newI h o) (n := n) buf h.push
    (stage_sum (h := h) keeps (cp + 2)) (lastData_eq codable.static)
  rw [decode_sum keeps sentSum]
  have whole := stage_id (by rfl) tcp sentId true true true true h.push n
  have final : ((afterSum h o).setThSeq (o.thSeq + lastData h o)).setIpId h.ipId =
      received h o (keptFlags h o) := by
    apply patched_eq follows codable.static
    rw [← flags, codable.urp urg, thWin_eq win, ack, ← add_sub_cancel o.thSeq h.thSeq, seq]
    rfl
  exact final ▸ whole

end

/-- **The kept header after the changes of a packet** that the sender has coded against the same
header. -/
theorem decodeHdr_eq (follows : Follows h o) (keeps : Keeps rs o)
    (coded : codeHdr h o = some c) (sent : At buf cp (be16 h.thSum ++ c.newSeq)) (n : Bool) :
    Stage (decodeHdr (c.changes ||| bitIf n NEW_C) buf cp rs) (received h o (keptFlags h o))
      (cp + 2 + c.newSeq.length) := by
  obtain ⟨codable, c', special, rfl⟩ := codeHdr_eq coded
  rw [at_append, at_append] at sent
  obtain ⟨sentSum, sentTcp, sentId⟩ := sent
  rw [List.length_append, ← Nat.add_assoc]
  rcases codeSpecial_cases special with ⟨rfl, notI, notD, notSA, notS⟩ | ⟨rfl, mask, echo⟩ |
    ⟨rfl, mask, data⟩
  · exact decode_plain follows keeps codable sentSum notI notD
      (fun loses => loses.special.elim notSA notS) sentTcp sentId
  · exact decode_I follows keeps codable sentSum mask echo sentId
  · exact decode_D follows keeps codable sentSum mask data sentId

end Decode

end BSDLite2.SlCompress
