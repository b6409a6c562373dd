import BSDLite2.Netinet.IpOptions

/-!
# Replies to ICMP requests (`icmp_reflect` of `netinet/ip_icmp.c`)

The reply to a request goes back the way the request came: `icmp_reflect` puts the source route
that `ip_dooptions` has saved in front of copies of the options that are recorded in, and
`ip_output` inserts the list in the header.  Neither limits the length of the list, which the
comment says cannot overflow.

* `ipSrcroute` — `ip_srcroute`, the saved route backwards;
* `recorded` — the options that are copied;
* `reflectOptions` — the list that is built;
* `ipInsertoptions`, `headerLength` — what becomes of the header in `ip_output`;
* `Request.reply` — from the packets as they came to the reply;
* `reflect_legal_iff` — the header of the reply is a legal one if and only if the route and the
  options together have at most 40 bytes, and the list could be inserted.

The source route is that of the packet that came last: for a request in fragments this need not
be the one the other options are from.
-/

namespace BSDLite2.IpOpt

open List Option

open IpFrag (IPOPT_EOL IPOPT_NOP)

variable (net : Net) (r : Srcrt)

/-! ## The list of options -/

def MAX_IPOPTLEN : ℕ := 40

/-- The bytes of an address. -/
def addrBytes (a : BitVec 32) : List (BitVec 8) :=
  [a.extractLsb' 24 8, a.extractLsb' 16 8, a.extractLsb' 8 8, a.extractLsb' 0 8]

/-- `ip_srcrt.route[i]`. -/
def Srcrt.hop (i : ℕ) : List (BitVec 8) := (r.option.drop (3 + 4 * i)).take 4

/-- **`ip_srcroute`**: the first hop, and the option for the rest of the way. -/
def ipSrcroute : Option (List (BitVec 8) × List (BitVec 8)) :=
  if r.nhops = 0 then none
  else
    some (r.hop (r.nhops - 1),
      [IPOPT_NOP, r.option.getD 0 0, r.option.getD 1 0, BitVec.ofNat 8 IPOPT_MINOFF] ++
        ((range (r.nhops - 1)).reverse.map r.hop).flatten ++ addrBytes r.dst)

/-- The options that are copied to the reply. -/
def isRecorded (opt : BitVec 8) : Bool :=
  opt == IPOPT_RR || opt == IPOPT_TS || opt == IPOPT_SECURITY

/-- The loop of `icmp_reflect` over the options of the packet in memory. -/
def recorded (mem : ℕ → BitVec 8) : ℕ → ℕ → ℕ → List (BitVec 8)
  | 0, _, _ => []
  | fuel + 1, cp, cnt =>
    if cnt = 0 ∨ mem cp = IPOPT_EOL then []
    else if mem cp = IPOPT_NOP then recorded mem fuel (cp + 1) (cnt - 1)
    else
      let len := (mem (cp + 1)).toNat
      if len = 0 ∨ len > cnt then []
      else
        (if isRecorded (mem cp) then (range len).map (fun i => mem (cp + i)) else []) ++
          recorded mem fuel (cp + len) (cnt - len)

/-- The list is terminated and padded. -/
def padded (list : List (BitVec 8)) : List (BitVec 8) :=
  if list.length % 4 = 0 then list
  else list ++ replicate (4 - list.length % 4) IPOPT_EOL

/-- What the allocations on the way give, and where the header is. -/
structure Bufs where
  /-- `m_get` in `ip_srcroute` -/
  mget : Bool
  /-- `m_gethdr` in `icmp_reflect` -/
  mgethdr : Bool
  /-- the first mbuf is no cluster and has room in front -/
  room : Bool
  /-- `MGETHDR` in `ip_insertoptions` -/
  insertion : Bool
  /-- `len` of `ip_output`, before it is set -/
  len : BitVec 32

variable (bufs : Bufs) (len : BitVec 16) (list : List (BitVec 8)) (srcrt : Option Srcrt)

/-- `opts` to begin with: the saved route, or an empty list. -/
def reflectRoute : Option (List (BitVec 8) × List (BitVec 8)) :=
  match bufs.mget, srcrt.bind ipSrcroute with
  | true, some route => some route
  | _, _ => if bufs.mgethdr then some ([0, 0, 0, 0], []) else none

/-- **The list of options that `icmp_reflect` builds**, and the first hop. -/
def reflectOptions (mem : ℕ → BitVec 8) (optlen : ℕ) : Option (List (BitVec 8) × List (BitVec 8)) :=
  (reflectRoute bufs srcrt).map fun opts =>
    (opts.1, padded (opts.2 ++ recorded mem optlen 20 optlen))

/-! ## The reply -/

def IP_MAXPACKET : ℕ := 65535

/-- `ip_insertoptions`: whether the list is inserted in the header of a packet of `len` bytes. -/
def ipInsertoptions : Bool :=
  decide (list.length + len.toNat ≤ IP_MAXPACKET) && (bufs.room || bufs.insertion)

/-- A reply as `ip_output` sends it. -/
structure Reply where
  /-- the list of options that was built -/
  options : List (BitVec 8)
  /-- the length of the header -/
  hlen : ℕ
  ip_hl : BitVec 4
  deriving DecidableEq

/-- **A legal header**: the options fit, and `ip_hl` counts them. -/
def Reply.Legal (r : Reply) : Prop := r.options.length ≤ MAX_IPOPTLEN ∧ r.ip_hl.toNat * 4 = r.hlen

/-- `ip->ip_hl = hlen >> 2`. -/
def headerLength (hlen : BitVec 32) : BitVec 4 := (hlen >>> (2 : ℕ)).setWidth 4

/-- `ip_output`, for the header: `len` is not set if the options are not inserted. -/
def ipOutput (opts : Option (List (BitVec 8))) : Reply :=
  match opts with
  | none => ⟨[], 20, headerLength 20⟩
  | some list =>
    if ipInsertoptions bufs len list then
      ⟨list, 20 + list.length, headerLength (BitVec.ofNat 32 (20 + list.length))⟩
    else ⟨list, 20, headerLength bufs.len⟩

/-- `in_canforward`. -/
def inCanforward (a : BitVec 32) : Bool :=
  if a &&& 0xf0000000 == 0xf0000000 || inMulticast a then false
  else if a &&& 0x80000000 == 0 then
    !(a &&& 0xff000000 == 0 || a &&& 0xff000000 == 0x7f000000)
  else true

/-- **`icmp_reflect`** for a packet of `len` bytes with a header of `hlen`; there is no reply to
some source addresses. -/
def icmpReflect (s : Opts) (hlen : ℕ) (len : BitVec 16) : Option Reply :=
  if !inCanforward s.src && !(s.src &&& 0xff000000 == 0x7f000000) then none
  else if hlen - 20 = 0 then some (ipOutput bufs len none)
  else
    some (ipOutput bufs (len - BitVec.ofNat 16 (hlen - 20))
      ((reflectOptions bufs srcrt s.mem (hlen - 20)).map Prod.snd))

/-- An ICMP request: the header it has, as it came, and that of the packet that completed it,
which is the same one if the request is not in fragments. -/
structure Request where
  mem : ℕ → BitVec 8
  hlen : ℕ
  lastMem : ℕ → BitVec 8
  lastHlen : ℕ
  /-- the length of the request with its header -/
  len : BitVec 16

/-- `ip_dooptions` lets a packet pass. -/
def passes (r : Opts × Bool) : Bool := !r.2 && !r.1.forward

/-- **The reply to a request**, if `ip_dooptions` has let its packets pass. -/
def Request.reply (r : Request) : Option Reply :=
  let first := ipDooptions net r.mem r.hlen
  let last := ipDooptions net r.lastMem r.lastHlen
  if passes first && passes last then icmpReflect bufs last.1.srcrt first.1 r.hlen r.len else none

/-! ## Lengths -/

theorem length_hop {i : ℕ} (hi : i < r.nhops) : (r.hop i).length = 4 := by
  unfold Srcrt.nhops at hi
  simp only [Srcrt.hop, length_take, length_drop]
  omega

/-- The bytes of a saved route in a reply. -/
def Srcrt.replyLength : ℕ := if r.nhops = 0 then 0 else 4 * r.nhops + 4

theorem length_ipSrcroute {hop list : List (BitVec 8)} (h : ipSrcroute r = some (hop, list))
    : list.length = r.replyLength := by
  unfold ipSrcroute at h
  unfold Srcrt.replyLength
  split_ifs at h with h0
  rw [if_neg h0]
  obtain ⟨-, rfl⟩ := Prod.mk.inj (some.inj h)
  have hhops : (((range (r.nhops - 1)).reverse.map r.hop).map length) =
      replicate (r.nhops - 1) 4 := by
    rw [eq_replicate_iff]
    refine ⟨by simp, fun b hb => ?_⟩
    obtain ⟨l, hl, rfl⟩ := mem_map.mp hb
    obtain ⟨i, hi, rfl⟩ := mem_map.mp hl
    exact length_hop r (by simp at hi; omega)
  simp only [length_append, length_cons, length_nil, length_flatten, hhops,
    sum_replicate, smul_eq_mul, addrBytes]
  omega

theorem ipSrcroute_eq_none (h : ipSrcroute r = none) : r.replyLength = 0 := by
  unfold ipSrcroute at h
  unfold Srcrt.replyLength
  split_ifs at h with h0
  rw [if_pos h0]

theorem length_padded : (padded list).length = (list.length + 3) / 4 * 4 := by
  unfold padded
  split_ifs with h
  · omega
  · rw [length_append, length_replicate]
    omega

/-- The bytes of the saved route in the list, if there is memory for it. -/
def routeLength : ℕ :=
  if bufs.mget then srcrt.elim 0 Srcrt.replyLength else 0

theorem length_reflectRoute {bufs : Bufs} {srcrt : Option Srcrt} {hop list : List (BitVec 8)}
    (h : reflectRoute bufs srcrt = some (hop, list)) : list.length = routeLength bufs srcrt := by
  unfold reflectRoute at h
  unfold routeLength
  cases hget : bufs.mget with
  | false =>
    rw [hget] at h
    cases hhdr : bufs.mgethdr with
    | false => simp [hhdr] at h
    | true =>
      simp only [hhdr, if_true, some.injEq, Prod.mk.injEq] at h
      simp [← h.2]
  | true =>
    rw [hget] at h
    cases srcrt with
    | none =>
      simp only [bind_none, ite_none_right_eq_some, some.injEq, Prod.mk.injEq] at h
      simp [← h.2.2]
    | some r =>
      rw [bind_some] at h
      cases hroute : ipSrcroute r with
      | none =>
        rw [hroute] at h
        simp only [ite_none_right_eq_some, some.injEq, Prod.mk.injEq] at h
        simp [← h.2.2, ipSrcroute_eq_none r hroute]
      | some route =>
        rw [hroute] at h
        obtain rfl := some.inj h
        exact length_ipSrcroute r hroute

/-! ## The header of a reply -/

/-- The header length that is written is right if it fits in its four bits. -/
theorem headerLength_eq_iff {n : ℕ} (hn : n % 4 = 0) (hlt : n < 2 ^ 32) :
    (headerLength (BitVec.ofNat 32 n)).toNat * 4 = n ↔ n ≤ 60 := by
  rw [headerLength, BitVec.toNat_setWidth, BitVec.toNat_ushiftRight, BitVec.toNat_ofNat]
  omega

/-- **A list that leads to a legal header**: it has at most 40 bytes, and is inserted, or the
length that is used then happens to be that of a header without options. -/
def ListFits (n : ℕ) : Prop :=
  n ≤ MAX_IPOPTLEN ∧
    ((n + 3) / 4 * 4 + len.toNat ≤ IP_MAXPACKET ∧ (bufs.room ∨ bufs.insertion) ∨
      bufs.len.toNat / 4 % 16 = 5)

theorem ipOutput_legal_iff :
    (ipOutput bufs len (some (padded list))).Legal ↔ ListFits bufs len list.length := by
  have hlen := length_padded list
  unfold ListFits Reply.Legal ipOutput
  by_cases hins : ipInsertoptions bufs len (padded list) = true
  · simp only [hins, if_true]
    have hins' := hins
    simp only [ipInsertoptions, hlen, Bool.and_eq_true, decide_eq_true_eq, Bool.or_eq_true] at hins'
    rw [headerLength_eq_iff (by omega) (by have := hins'.1; unfold IP_MAXPACKET at this; omega)]
    simp only [hins', true_or, and_true, MAX_IPOPTLEN]
    omega
  · have hins' := hins
    simp only [ipInsertoptions, hlen, Bool.and_eq_true, decide_eq_true_eq, Bool.or_eq_true] at hins'
    simp only [hins, hins', if_false, false_or, Bool.false_eq_true, hlen, headerLength,
      BitVec.toNat_setWidth, BitVec.toNat_ushiftRight, Nat.shiftRight_eq_div_pow, MAX_IPOPTLEN]
    omega

/-- What a reply needs for a legal header: no options in the request, no memory for a list at
all, or a list that fits. -/
def Request.Fits (r : Request) : Prop :=
  let first := (ipDooptions net r.mem r.hlen).1
  let last := (ipDooptions net r.lastMem r.lastHlen).1
  r.hlen ≤ 20 ∨ reflectRoute bufs last.srcrt = none ∨
    ListFits bufs (r.len - BitVec.ofNat 16 (r.hlen - 20))
      (routeLength bufs last.srcrt + (recorded first.mem (r.hlen - 20) 20 (r.hlen - 20)).length)

/-- **The header of a reply is legal if and only if its options fit**: the list has at most 40
bytes and the header length is the true one exactly if the saved route and the recorded options
have at most 40 bytes together, and could be inserted. -/
theorem reflect_legal_iff (r : Request) (reply : Reply) (h : r.reply net bufs = some reply)
    : reply.Legal ↔ r.Fits net bufs := by
  have hplain : (⟨[], 20, headerLength 20⟩ : Reply).Legal := by
    simp [Reply.Legal, headerLength]
  simp only [Request.reply, icmpReflect] at h
  unfold Request.Fits
  split_ifs at h with h20
  · obtain rfl := some.inj h
    exact iff_of_true hplain (.inl (by omega))
  · obtain rfl := some.inj h
    have h20' : ¬ r.hlen ≤ 20 := by omega
    cases hroute : reflectRoute bufs (ipDooptions net r.lastMem r.lastHlen).1.srcrt with
    | none =>
      simp only [reflectOptions, hroute, map_none, true_or, or_true, iff_true]
      exact hplain
    | some opts =>
      simp only [reflectOptions, hroute, map_some, h20', false_or, reduceCtorEq]
      rw [ipOutput_legal_iff, length_append, length_reflectRoute hroute]

/-- Memory for everything. -/
def enough : Bufs := ⟨true, true, true, true, 0⟩

/-- A request of one packet. -/
def single (options : List (BitVec 8)) : Request :=
  let mem : ℕ → BitVec 8 := fun i =>
    ([0x45, 0, 0, 64, 0, 1, 0, 0, 64, 1, 0, 0, 10, 0, 0, 9, 10, 0, 0, 1] ++ options).getD i 0
  ⟨mem, 20 + options.length, mem, 20 + options.length, BitVec.ofNat 16 (84 + options.length)⟩

/-- A request that has come through two hosts. -/
def twoHops : Request := single [131, 11, 12, 10, 0, 0, 2, 10, 0, 0, 3, 1]

/-- The reply to a request with a route has the route backwards in a legal header. -/
theorem reflect_legal_two_hops :
    ∃ reply, twoHops.reply host enough = some reply ∧ twoHops.Fits host enough ∧ reply.Legal ∧
      reply.options = [1, 131, 11, 4, 10, 0, 0, 2, 10, 0, 0, 9] := by
  have hreply : twoHops.reply host enough =
      some ⟨[1, 131, 11, 4, 10, 0, 0, 2, 10, 0, 0, 9], 32, 8⟩ := by decide +kernel
  have hlegal : Reply.Legal ⟨[1, 131, 11, 4, 10, 0, 0, 2, 10, 0, 0, 9], 32, 8⟩ := by
    simp [Reply.Legal, MAX_IPOPTLEN]
  exact ⟨_, hreply, (reflect_legal_iff host enough twoHops _ hreply).mp hlegal, hlegal, rfl⟩

/-- A request with forty bytes of options: a source route of eight hops at its end, and a record
of the route that is full from the beginning. -/
def fullHeader : Request :=
  single ([131, 35, 36] ++ replicate 32 10 ++ [7, 5, 4, 0, 0])

/-- The route grows by one byte and the list by padding, to 44 bytes.  The header of 64 bytes has
a header length of 0. -/
theorem reflect_header_overflow :
    ∃ reply, fullHeader.reply host enough = some reply ∧ ¬ reply.Legal ∧
      reply.options.length = 44 ∧ reply.hlen = 64 ∧ reply.ip_hl = 0 := by
  have hreply : fullHeader.reply host enough =
      some ⟨[1, 131, 35, 4] ++ replicate 28 10 ++ [10, 0, 0, 9, 7, 5, 4, 0, 0, 0, 0, 0], 64,
        0⟩ := by decide +kernel
  refine ⟨_, hreply, fun h => ?_, rfl, rfl, rfl⟩
  simp [Reply.Legal, MAX_IPOPTLEN] at h

end BSDLite2.IpOpt
