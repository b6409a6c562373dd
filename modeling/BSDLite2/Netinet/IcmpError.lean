import BSDLite2.Kern.Param
import BSDLite2.Lib.ByteOrder

/-!
# The header that an ICMP error quotes

An ICMP error quotes the header of the packet it is about.  `ipintr` converts `ip_len`, `ip_id`
and `ip_off` to the order of the host, and `icmp_error` takes back what it knows of: it adds the
length of the header to `ip_len` and converts it.  So it has to be called with `ip_len` without
the header, and with `ip_id` and `ip_off` as they came.

* `icmpError` — what is quoted;
* `badOptions`, `ipForward`, `noPort` — the callers;
* `quoted_iff` — for which packets the quoted header is the one that was received.

No caller converts `ip_off`, only `ip_forward` converts `ip_id`, and only `ip_dooptions` takes the
length of the header off `ip_len`.  `udp_input` adds that of a header without options to it once
more, which makes no difference for a header of 40 bytes.
-/

namespace BSDLite2.IcmpErr

open BitVec

/-! ## Headers -/

/-- The fields that are converted, as they are in memory. -/
structure Fields where
  len : BitVec 16
  id : BitVec 16
  off : BitVec 16
  deriving DecidableEq

theorem Fields.ext_iff {f g : Fields} : f = g ↔ f.len = g.len ∧ f.id = g.id ∧ f.off = g.off := by
  cases f
  cases g
  simp

/-- A packet as it was received. -/
structure Packet where
  wire : Fields
  /-- `ip_hl` -/
  hl : ℕ
  lo : 5 ≤ hl
  hi : hl < 16

/-- `ip_hl << 2` -/
def hlen (hl : ℕ) : BitVec 16 := BitVec.ofNat 16 (4 * hl)

variable (o : ByteOrder)

/-- The packet after `NTOHS` in `ipintr`. -/
def Packet.host (p : Packet) : Fields :=
  ⟨o.htons p.wire.len, o.htons p.wire.id, o.htons p.wire.off⟩

/-! ## `icmp_error` -/

variable (p : Packet) (x : BitVec 16)

inductive Message where
  /-- `ICMP_PARAMPROB` with a pointer -/
  | paramprob (pptr : ℕ)
  | timxceed
  | unreachHost
  | unreachNeedfrag
  | unreachSrcfail
  | unreachPort
  | sourcequench
  | redirect
  deriving DecidableEq

/-- Why there may be no error. -/
structure Silence where
  /-- the packet is an ICMP message, and not one for information -/
  icmp : Bool
  /-- `M_BCAST` or `M_MCAST` -/
  cast : Bool
  /-- there is no mbuf -/
  nobufs : Bool
  deriving DecidableEq

variable (quiet : Silence)

/-- `icmp_error`: the message and the header it quotes, for a packet with header `h`. -/
def icmpError (h : Fields) (hl : ℕ) (type : Message) : Option (Message × Fields) :=
  if h.off &&& ~~~(IP_MF ||| IP_DF) ≠ 0 then none
  else if quiet.icmp ∧ type ≠ .redirect then none
  else if quiet.cast then none
  else if quiet.nobufs then none
  else some (type, { h with len := o.htons (h.len + hlen hl) })

/-! ## Its callers -/

/-- The exit `bad` of `ip_dooptions`. -/
def badOptions (p : Packet) (type : Message) : Option (Message × Fields) :=
  icmpError o quiet { p.host o with len := (p.host o).len - hlen p.hl } p.hl type

/-- What `ip_output` does to the header of a packet it is given. -/
inductive Effect where
  /-- it has an error before that -/
  | none
  /-- it sends the packet -/
  | sent
  /-- it makes it the first of several fragments, with that length -/
  | fragmented (len : BitVec 16)
  deriving DecidableEq

def Effect.apply (h : Fields) : Effect → Fields
  | .none => h
  | .sent => { h with len := o.htons h.len, off := o.htons h.off }
  | .fragmented len => { h with len := o.htons len, off := o.htons (h.off ||| IP_MF) }

/-- An error of `ip_output`. -/
inductive Failure where
  | EMSGSIZE
  | ENOBUFS
  | other
  deriving DecidableEq

/-- The `switch` of `ip_forward`. -/
def Failure.message : Failure → Message
  | .EMSGSIZE => .unreachNeedfrag
  | .ENOBUFS => .sourcequench
  | .other => .unreachHost

/-- What a packet that is to be forwarded meets. -/
structure Forwarding where
  /-- it is a broadcast, or its destination cannot be forwarded to -/
  cannot : Bool
  ttl : ℕ
  /-- there is a route -/
  route : Bool
  /-- the first 64 bytes have been copied -/
  mcopy : Bool
  /-- they are in a cluster, which the copy shares -/
  shared : Bool
  effect : Effect
  /-- what `ip_output` returns -/
  error : Option Failure
  /-- a redirect is due -/
  redirect : Bool
  deriving DecidableEq

def IPTTLDEC : ℕ := 1

/-- The header after `HTONS(ip->ip_id)`. -/
def forwarded : Fields :=
  { p.host o with id := o.htons (p.host o).id }

/-- The header that the copy has after `ip_output`. -/
def copied (f : Forwarding) : Fields :=
  if f.shared then f.effect.apply o (forwarded o p) else forwarded o p

/-- `ip_forward` -/
def ipForward (p : Packet) (f : Forwarding) : Option (Message × Fields) :=
  if f.cannot then none
  else if f.ttl ≤ IPTTLDEC then icmpError o quiet (forwarded o p) p.hl .timxceed
  else if !f.route then icmpError o quiet (forwarded o p) p.hl .unreachHost
  else if !f.mcopy then none
  else
    match f.error with
    | none => if f.redirect then icmpError o quiet (copied o p f) p.hl .redirect else none
    | some e => icmpError o quiet (copied o p f) p.hl e.message

/-- The part of `ipintr` before the protocol is called.  `whole` is the length of what a fragment
was put together to, if this was the first and all of them have come. -/
def deliver (whole : Option (BitVec 16)) : Option Fields :=
  let h := p.host o
  if h.off &&& ~~~IP_DF = 0 then some { h with len := h.len - hlen p.hl }
  else if h.off &&& IP_MF ≠ 0 ∨ h.off <<< (3 : ℕ) ≠ 0 then
    whole.map fun len => { h with len := len, off := 0 }
  else some { h with len := h.len - hlen p.hl, off := 0 }

/-- `udp_input` for a datagram that no socket wants.  The options have been stripped. -/
def noPort (p : Packet) (whole : Option (BitVec 16)) : Option (Message × Fields) :=
  (deliver o p whole).bind fun h =>
    icmpError o quiet { h with len := h.len + hlen 5 } 5 .unreachPort

/-- Where an error comes from. -/
inductive Source where
  | badOptions (type : Message)
  | forward (f : Forwarding)
  | noPort (whole : Option (BitVec 16))
  deriving DecidableEq

/-- The error for a packet. -/
def report (p : Packet) : Source → Option (Message × Fields)
  | .badOptions type => badOptions o quiet p type
  | .forward f => ipForward o quiet p f
  | .noPort whole => noPort o quiet p whole

/-! ## What is quoted -/

/-- The field is the same in both orders. -/
def Same : Prop := o.htons x = x

/-- **Packets that are quoted as they came.**  From `ip_dooptions` if the order does not matter;
from `udp_input` if besides the header has 40 bytes and nothing is set in `ip_off` but `IP_DF`.
From `ip_forward` only if the copy shares its data with a fragment that `ip_output` has made, and
the length of that makes up for the header. -/
def Right : Source → Prop
  | .badOptions _ => Same o p.wire.id ∧ Same o p.wire.off
  | .forward f =>
    IPTTLDEC < f.ttl ∧ f.route ∧ f.shared ∧ ∃ len, f.effect = .fragmented len ∧
      (p.host o).off ||| IP_MF = (p.host o).off ∧ o.htons len + hlen p.hl = (p.host o).len
  | .noPort _ =>
    p.hl = 10 ∧ (p.host o).off &&& ~~~IP_DF = 0 ∧ Same o p.wire.id ∧ Same o p.wire.off

variable {o}

variable {quiet : Silence} {msg : Message} {q : Fields}

theorem icmpError_fields {h : Fields} {hl : ℕ} {type : Message}
    (he : icmpError o quiet h hl type = some (msg, q)) :
    q = { h with len := o.htons (h.len + hlen hl) } := by
  unfold icmpError at he
  split_ifs at he
  cases he
  rfl

theorem htons_eq_iff {x y : BitVec 16} : o.htons x = y ↔ x = o.htons y := by
  constructor
  · rintro rfl
    exact (o.htons_htons x).symm
  · rintro rfl
    exact o.htons_htons y

/-- The length of a header is not nothing. -/
theorem add_hlen_ne : x + hlen p.hl ≠ x := by
  intro h
  have hlo := p.lo
  have hhi := p.hi
  have := congrArg BitVec.toNat h
  rw [toNat_add, hlen, toNat_ofNat] at this
  omega

theorem toNat_swap16 : (swap16 x).toNat = x.toNat % 256 * 256 + x.toNat / 256 := by
  rw [swap16, toNat_append, extractLsb'_toNat, extractLsb'_toNat,
    ← Nat.shiftLeft_add_eq_or_of_lt (by omega)]
  omega

/-- Two numbers with the same bytes are the same modulo 255. -/
theorem swapped_add_ne {a b h : ℕ} (hb : b < 256) (lo : 20 ≤ h) (hi : h ≤ 60) :
    (b * 256 + a + h) % 65536 ≠ 256 * a + b := by
  intro heq
  obtain ⟨carry, hcarry, hsum⟩ : ∃ j : ℕ, j ≤ 1 ∧ b * 256 + a + h = 65536 * j + (256 * a + b) :=
    ⟨(b * 256 + a + h) / 65536, by omega, by omega⟩
  obtain ⟨t, ht⟩ : ∃ t : ℤ, 255 * t = carry - h := ⟨(b : ℤ) - a - 257 * carry, by omega⟩
  have hneg : t < 0 := by omega
  omega

/-- Nor can the order make up for it. -/
theorem htons_add_hlen_ne : o.htons x + hlen p.hl ≠ x := by
  cases o with
  | big => exact add_hlen_ne p x
  | little =>
    intro h
    have hlo := p.lo
    have hhi := p.hi
    have heq := congrArg BitVec.toNat h
    rw [toNat_add, hlen, toNat_ofNat, ByteOrder.htons, toNat_swap16,
      Nat.mod_eq_of_lt (a := 4 * p.hl) (by omega)] at heq
    exact swapped_add_ne (a := x.toNat / 256) (b := x.toNat % 256) (h := 4 * p.hl) (by omega)
      (by omega) (by omega) (by omega)

theorem badOptions_iff {p : Packet} {type : Message}
    (h : badOptions o quiet p type = some (msg, q)) :
    q = p.wire ↔ Right o p (.badOptions type) := by
  rw [icmpError_fields h]
  simp only [Packet.host, sub_add_cancel, ByteOrder.htons_htons, Right, Same,
    Fields.ext_iff, true_and]

theorem forward_iff {p : Packet} {f : Forwarding} (h : ipForward o quiet p f = some (msg, q)) :
    q = p.wire ↔ Right o p (.forward f) := by
  have len_eq {fields : Fields} {type : Message}
      (he : icmpError o quiet fields p.hl type = some (msg, q)) (heq : q = p.wire) :
      fields.len + hlen p.hl = o.htons p.wire.len :=
    htons_eq_iff.mp (congrArg Fields.len ((icmpError_fields he).symm.trans heq))
  -- `icmp_error` adds the length of the header to an `ip_len` that includes it already
  have early {type : Message} (he : icmpError o quiet (forwarded o p) p.hl type = some (msg, q)) :
      q ≠ p.wire := fun heq => add_hlen_ne p _ (len_eq he heq)
  unfold ipForward at h
  by_cases hcannot : f.cannot
  · rw [if_pos hcannot] at h
    cases h
  rw [if_neg hcannot] at h
  by_cases httl : f.ttl ≤ IPTTLDEC
  · rw [if_pos httl] at h
    exact iff_of_false (early h) fun right => absurd right.1 (Nat.not_lt.mpr httl)
  rw [if_neg httl] at h
  by_cases hroute : f.route
  swap
  · simp only [hroute, Bool.not_false, if_true] at h
    exact iff_of_false (early h) fun right => absurd right.2.1 hroute
  simp only [hroute, Bool.not_true, Bool.false_eq_true, if_false] at h
  simp only [Right, Nat.lt_of_not_le httl, hroute, true_and]
  obtain ⟨type, he⟩ : ∃ type, icmpError o quiet (copied o p f) p.hl type = some (msg, q) := by
    split_ifs at h
    · split at h <;> exact ⟨_, h⟩
    · split at h
      · cases h
      · exact ⟨_, h⟩
  cases hs : f.shared with
  | false =>
    simp only [copied, hs, Bool.false_eq_true, if_false] at he
    exact iff_of_false (early he) fun h => nomatch h.1
  | true =>
    simp only [copied, hs, if_true] at he
    cases heff : f.effect with
    | none =>
      rw [heff] at he
      refine iff_of_false (early he) ?_
      rintro ⟨-, len, hne, -⟩
      cases hne
    | sent =>
      rw [heff] at he
      refine iff_of_false (fun heq => htons_add_hlen_ne p _ (len_eq he heq)) ?_
      rintro ⟨-, len, hne, -⟩
      cases hne
    | fragmented len =>
      rw [heff] at he
      rw [icmpError_fields he]
      simp only [Effect.apply, forwarded, Packet.host, ByteOrder.htons_htons, htons_eq_iff,
        Fields.ext_iff, Effect.fragmented.injEq, true_and, exists_eq_left']
      exact and_comm

theorem noPort_iff {p : Packet} {whole : Option (BitVec 16)}
    (h : noPort o quiet p whole = some (msg, q)) : q = p.wire ↔ Right o p (.noPort whole) := by
  obtain ⟨d, hd, he⟩ := Option.bind_eq_some_iff.mp h
  rw [icmpError_fields he]
  by_cases hoff : (p.host o).off &&& ~~~IP_DF = 0
  · simp only [deliver, hoff, if_true, Option.some.injEq] at hd
    subst hd
    have hten : (p.host o).len - hlen p.hl + hlen 5 + hlen 5 = (p.host o).len ↔ p.hl = 10 := by
      have hhi := p.hi
      rw [← toNat_inj]
      simp only [hlen, toNat_add, toNat_sub, toNat_ofNat]
      omega
    simp only [Fields.ext_iff, htons_eq_iff, Right, hoff, true_and]
    rw [← hten]
    simp only [Packet.host, Same, htons_eq_iff]
  · -- what is left of `ip_off` is nothing, and it was something
    have hzero : d.off = 0 := by
      simp only [deliver, hoff, if_false] at hd
      split_ifs at hd
      · obtain ⟨len, -, rfl⟩ := Option.map_eq_some_iff.mp hd
        rfl
      · cases hd
        rfl
    refine iff_of_false (fun heq => hoff ?_) fun right => hoff right.2.1
    have hwire : p.wire.off = 0 := (congrArg Fields.off heq).symm.trans hzero
    have hhost : (p.host o).off = 0 := by
      cases o <;> simp [Packet.host, hwire, ByteOrder.htons, swap16]
    simp [hhost]

/-- **The quoted header is the one that was received** exactly for these packets. -/
theorem quoted_iff (o : ByteOrder) (quiet : Silence) (p : Packet) (source : Source) (msg : Message)
    (q : Fields) (h : report o quiet p source = some (msg, q)) : q = p.wire ↔ Right o p source := by
  cases source with
  | badOptions type => exact badOptions_iff h
  | forward f => exact forward_iff h
  | noPort whole => exact noPort_iff h

/-- A packet of 40 bytes without options, as a big-endian machine receives it. -/
def probe : Packet := ⟨⟨40, 7, 0⟩, 5, by decide, by decide⟩

/-- Nothing keeps `icmp_error` from sending. -/
def loud : Silence := ⟨false, false, false⟩

/-- A header with a bad option of 4 bytes is quoted as it came, on a big-endian machine. -/
theorem quoted_badOptions :
    ∃ q, report .big loud ⟨⟨44, 7, 0⟩, 6, by decide, by decide⟩ (.badOptions (.paramprob 21)) =
        some (.paramprob 21, q) ∧ q = ⟨44, 7, 0⟩ :=
  ⟨_, rfl, (quoted_iff .big loud ⟨⟨44, 7, 0⟩, 6, by decide, by decide⟩
    (.badOptions (.paramprob 21)) _ _ rfl).mpr ⟨rfl, rfl⟩⟩

/-- **The time of a packet is exceeded** on the way, and it is quoted with 20 bytes too many in
`ip_len`, whatever the order. -/
theorem quoted_too_long :
    report .big loud probe (.forward ⟨false, 1, true, true, false, .none, none, false⟩) =
      some (.timxceed, ⟨60, 7, 0⟩) :=
  rfl

end BSDLite2.IcmpErr
