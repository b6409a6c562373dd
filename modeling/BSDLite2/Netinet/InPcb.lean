import BSDLite2.Kern.Param
import BSDLite2.Lib.ByteOrder
import BSDLite2.Lib.Scan

/-!
# Protocol control blocks

The control blocks of a protocol are on a list whose head is itself one.  Its `inp_lport` is not
a port but the counter from which `in_pcbbind` takes the next ephemeral port.

* `inPcblookup` — the block that matches best;
* `inPcbbind` — a local address and port for a block;
* `advance_covers` — the counter comes to every port from `IPPORT_RESERVED` to
  `IPPORT_USERRESERVED`, from wherever it starts;
* `bind_settles_iff` — when `in_pcbbind` finds an ephemeral port.

Addresses are their value in host order, ports are as they stand in a packet: the counter is in
host order and is compared with ports of packets all the same.
-/

namespace BSDLite2.InPcb

open Option

/-! ## Control blocks -/

def IPPORT_RESERVED : ℕ := 1024

def IPPORT_USERRESERVED : ℕ := 5000

def INADDR_ANY : BitVec 32 := 0

inductive Errno where
  | EADDRNOTAVAIL
  | EINVAL
  | EACCES
  | EADDRINUSE
  deriving DecidableEq

/-- What `in_pcbbind` reads of a socket. -/
structure Socket where
  reuseaddr : Bool
  reuseport : Bool
  acceptconn : Bool
  /-- `PR_CONNREQUIRED` of the protocol -/
  connrequired : Bool
  deriving DecidableEq

/-- Both ends of a connection. -/
structure Tuple where
  faddr : BitVec 32
  fport : BitVec 16
  laddr : BitVec 32
  lport : BitVec 16
  deriving DecidableEq

structure Inpcb extends Tuple where
  /-- its address in memory -/
  id : ℕ
  socket : Socket
  deriving DecidableEq

/-- The control blocks of a protocol, from `head->inp_next` on. -/
structure Pcbs where
  /-- `head->inp_lport` -/
  lport : BitVec 16
  list : List Inpcb
  distinct : (list.map Inpcb.id).Nodup
  deriving DecidableEq

namespace Pcbs

/-- An assignment to the fields of a control block. -/
def change (i : ℕ) (f : Inpcb → Inpcb) (a : Inpcb) : Inpcb :=
  if a.id = i then { f a with id := a.id } else a

@[simp] theorem change_id (i : ℕ) (f : Inpcb → Inpcb) (a : Inpcb) : (change i f a).id = a.id := by
  unfold change
  split_ifs <;> rfl

def update (p : Pcbs) (i : ℕ) (f : Inpcb → Inpcb) : Pcbs where
  lport := p.lport
  list := p.list.map (change i f)
  distinct := by
    have same : Inpcb.id ∘ change i f = Inpcb.id := funext (change_id i f)
    rw [List.map_map, same]
    exact p.distinct

theorem eq_of_id {p : Pcbs} {a b : Inpcb} (ha : a ∈ p.list) (hb : b ∈ p.list)
    (h : a.id = b.id) : a = b :=
  List.inj_on_of_nodup_map p.distinct ha hb h

end Pcbs

/-! ## Lookups -/

/-- One side of a comparison in `in_pcblookup`: whether the address of the block and the one
asked for agree, and if only because one is a wildcard. -/
def wildcardAddr (inp asked : BitVec 32) (same : Bool) : Option ℕ :=
  if inp ≠ INADDR_ANY then
    if asked = INADDR_ANY then some 1 else if same then some 0 else none
  else if asked ≠ INADDR_ANY then some 1 else some 0

/-- `wildcard` of a block that matches. -/
def wildcard (q : Tuple) (inp : Inpcb) : Option ℕ :=
  if inp.lport ≠ q.lport then none
  else
    match wildcardAddr inp.laddr q.laddr (inp.laddr = q.laddr),
        wildcardAddr inp.faddr q.faddr (inp.faddr = q.faddr ∧ inp.fport = q.fport) with
    | some l, some f => some (l + f)
    | _, _ => none

/-- `wildcard` of a block that `in_pcblookup` considers. -/
def considered (q : Tuple) (wild : Bool) (inp : Inpcb) : Option ℕ :=
  match wildcard q inp with
  | none => none
  | some w => if w ≠ 0 ∧ ¬ wild then none else some w

def inPcblookup (list : List Inpcb) (q : Tuple) (wild : Bool) : Option Inpcb :=
  Scan.least (considered q wild) list none 3

theorem wildcardAddr_le {a b : BitVec 32} {same : Bool} {w : ℕ}
    (h : wildcardAddr a b same = some w) : w ≤ 1 := by
  unfold wildcardAddr at h
  split_ifs at h <;> cases h <;> omega

variable {inp : Inpcb} {q : Tuple}

theorem wildcard_le {w : ℕ} (h : wildcard q inp = some w) : w ≤ 2 := by
  unfold wildcard at h
  split_ifs at h
  split at h
  next l f hl hf =>
    cases h
    have := wildcardAddr_le hl
    have := wildcardAddr_le hf
    omega
  next => cases h

variable {list : List Inpcb}

/-- Nothing is found if no block is considered. -/
theorem lookup_eq_none_iff {wild : Bool} :
    inPcblookup list q wild = none ↔ ∀ a ∈ list, considered q wild a = none := by
  unfold inPcblookup
  rw [Scan.least_eq_none_iff]
  refine forall₂_congr fun a _ => ?_
  constructor
  · intro h
    cases hc : considered q wild a with
    | none => rfl
    | some w =>
      have hw : w ≤ 2 := by
        unfold considered at hc
        split at hc
        · cases hc
        next w' hw' =>
          split_ifs at hc
          cases hc
          exact wildcard_le hw'
      have := h w hc
      omega
  · intro h w hw
    rw [h] at hw
    cases hw

theorem lookup_isSome {wild : Bool} {a : Inpcb} {w : ℕ} (mem : a ∈ list)
    (h : considered q wild a = some w) : (inPcblookup list q wild).isSome := by
  rw [isSome_iff_ne_none]
  intro none
  rw [lookup_eq_none_iff.mp none a mem] at h
  cases h

/-! ## Binding -/

/-- A `sockaddr_in` in an mbuf. -/
structure Sockaddr where
  /-- `m_len` of the mbuf is the size of a `sockaddr_in` -/
  sized : Bool
  addr : BitVec 32
  port : BitVec 16
  deriving DecidableEq

/-- What is outside the list when an operation is called. -/
structure Env where
  /-- there is an `in_ifaddr` -/
  ifaddr : Bool
  ifwithaddr : BitVec 32 → Bool
  /-- `suser` succeeds -/
  super : Bool

/-- `INPLOOKUP_WILDCARD`, if `in_pcbbind` asks for it -/
def Socket.wild (so : Socket) : Bool :=
  !(so.reuseaddr || so.reuseport) && (!so.connrequired || !so.acceptconn)

/-- Whether `reuseport` lets a socket bind what `t` has bound. -/
def Socket.shares (so : Socket) (addr : BitVec 32) (t : Socket) : Bool :=
  if inMulticast addr && so.reuseaddr then t.reuseaddr || t.reuseport
  else so.reuseport && t.reuseport

variable (order : ByteOrder)

/-- The errors of `in_pcbbind` for an address. -/
def addrError (env : Env) (p : Pcbs) (so : Socket) (sin : Sockaddr) : Option Errno :=
  if !sin.sized then some .EINVAL
  else if !inMulticast sin.addr && sin.addr ≠ INADDR_ANY && !env.ifwithaddr sin.addr then
    some .EADDRNOTAVAIL
  else if sin.port = 0 then none
  else if (order.htons sin.port).toNat < IPPORT_RESERVED && !env.super then some .EACCES
  else
    match inPcblookup p.list ⟨INADDR_ANY, 0, sin.addr, sin.port⟩ so.wild with
    | none => none
    | some t => if so.shares sin.addr t.socket then none else some .EADDRINUSE

/-- The errors of `in_pcbbind`. -/
def bindError (env : Env) (p : Pcbs) (inp : Inpcb) (nam : Option Sockaddr) : Option Errno :=
  if !env.ifaddr then some .EADDRNOTAVAIL
  else if inp.lport ≠ 0 ∨ inp.laddr ≠ INADDR_ANY then some .EINVAL
  else nam.bind (addrError order env p inp.socket)

/-- The test and the assignment at the head of the loop, for `head->inp_lport`. -/
def advance (c : BitVec 16) : BitVec 16 :=
  if c.toNat < IPPORT_RESERVED ∨ IPPORT_USERRESERVED < (c + 1).toNat then
    BitVec.ofNat 16 IPPORT_RESERVED
  else c + 1

/-- The ephemeral port for the counter at `c` has no conflict. -/
def free (list : List Inpcb) (laddr : BitVec 32) (wild : Bool) (c : BitVec 16) : Bool :=
  (inPcblookup list ⟨INADDR_ANY, 0, laddr, order.htons c⟩ wild).isNone

/-- The loop, for at most `n` turns: where it leaves the counter. -/
def ephemeral (n : ℕ) (p : Pcbs) (laddr : BitVec 32) (wild : Bool) : Option (BitVec 16) :=
  Scan.seek advance (free order p.list laddr wild) n p.lport

/-- The local address that `in_pcbbind` leaves. -/
def bindAddr (inp : Inpcb) (nam : Option Sockaddr) : BitVec 32 :=
  nam.elim inp.laddr Sockaddr.addr

/-- The port that is asked for. -/
def bindPort (nam : Option Sockaddr) : BitVec 16 :=
  nam.elim 0 Sockaddr.port

/-- `inp->inp_laddr = sin->sin_addr` -/
def setLaddr (p : Pcbs) (inp : Inpcb) (laddr : BitVec 32) : Pcbs :=
  p.update inp.id fun a => { a with laddr := laddr }

/-- `inp->inp_lport = lport` -/
def setLport (p : Pcbs) (inp : Inpcb) (lport : BitVec 16) : Pcbs :=
  p.update inp.id fun a => { a with lport := lport }

/-- `in_pcbbind`, with at most `n` turns of its loop: `none` if that is not enough. -/
def inPcbbind (n : ℕ) (env : Env) (p : Pcbs) (inp : Inpcb) (nam : Option Sockaddr) :
    Option (Pcbs × Option Errno) :=
  match bindError order env p inp nam with
  | some e => some (p, some e)
  | none =>
    let q := setLaddr p inp (bindAddr inp nam)
    if bindPort nam ≠ 0 then some (setLport q inp (bindPort nam), none)
    else
      (ephemeral order n q (bindAddr inp nam) inp.socket.wild).map fun c =>
        ({ setLport q inp (order.htons c) with lport := c }, none)

/-! ## Ephemeral ports -/

/-- A port that a user may be given. -/
def Ephemeral (c : BitVec 16) : Prop :=
  IPPORT_RESERVED ≤ c.toNat ∧ c.toNat ≤ IPPORT_USERRESERVED

instance (c : BitVec 16) : Decidable (Ephemeral c) :=
  inferInstanceAs (Decidable (_ ∧ _))

variable {c : BitVec 16}

/-- The counter is put back to the first port. -/
theorem advance_reset
    (h : c.toNat < IPPORT_RESERVED ∨ IPPORT_USERRESERVED ≤ c.toNat ∧ c.toNat < 65535) :
    (advance c).toNat = IPPORT_RESERVED := by
  unfold advance
  rw [if_pos]
  · rfl
  · rw [BitVec.toNat_add, show (1 : BitVec 16).toNat = 1 from rfl]
    omega

theorem advance_toNat (lo : IPPORT_RESERVED ≤ c.toNat) (hi : c.toNat < IPPORT_USERRESERVED) :
    (advance c).toNat = c.toNat + 1 := by
  have sum : (c + 1).toNat = c.toNat + 1 := by
    rw [BitVec.toNat_add, show (1 : BitVec 16).toNat = 1 from rfl]
    simp only [IPPORT_USERRESERVED] at hi
    omega
  unfold advance
  rw [if_neg, sum]
  omega

/-- **The wrap.**  Only from the largest number does the counter come to no port of the range. -/
theorem advance_ephemeral (h : c ≠ 0xffff) : Ephemeral (advance c) := by
  have hne : c.toNat ≠ 65535 := fun heq => h (BitVec.eq_of_toNat_eq heq)
  by_cases inside : Ephemeral c ∧ c.toNat < IPPORT_USERRESERVED
  · have next := advance_toNat inside.1.1 inside.2
    simp only [Ephemeral, IPPORT_RESERVED, IPPORT_USERRESERVED] at inside ⊢
    omega
  · have reset : (advance c).toNat = IPPORT_RESERVED := by
      apply advance_reset
      simp only [Ephemeral, IPPORT_RESERVED, IPPORT_USERRESERVED] at inside ⊢
      omega
    rw [Ephemeral, reset]
    decide

theorem advance_wrap : advance^[0 + 1] 0xffff = 0 := by decide

theorem iterate_advance {k : ℕ} (lo : IPPORT_RESERVED ≤ c.toNat)
    (hi : c.toNat + k ≤ IPPORT_USERRESERVED) : (advance^[k] c).toNat = c.toNat + k := by
  induction k with
  | zero => rfl
  | succ k ih =>
    rw [Function.iterate_succ_apply', advance_toNat (by omega) (by omega)]
    omega

/-- The counter comes to the first port. -/
theorem exists_iterate_first (c : BitVec 16) :
    ∃ k, (advance^[k + 1] c).toNat = IPPORT_RESERVED := by
  by_cases inside : Ephemeral c
  · have top := iterate_advance (k := IPPORT_USERRESERVED - c.toNat) inside.1
    refine ⟨IPPORT_USERRESERVED - c.toNat, ?_⟩
    rw [Function.iterate_succ_apply']
    refine advance_reset (.inr ?_)
    have := inside.2
    simp only [IPPORT_USERRESERVED] at top this ⊢
    omega
  · by_cases wrap : c = 0xffff
    · exact ⟨1, wrap ▸ by decide⟩
    · have hne : c.toNat ≠ 65535 := fun heq => wrap (BitVec.eq_of_toNat_eq heq)
      refine ⟨0, advance_reset ?_⟩
      simp only [Ephemeral, IPPORT_RESERVED, IPPORT_USERRESERVED] at inside ⊢
      omega

/-- **The counter comes to every port.** -/
theorem advance_covers (c : BitVec 16) {d : BitVec 16} (hd : Ephemeral d) :
    ∃ k, advance^[k + 1] c = d := by
  obtain ⟨lo, hi⟩ := hd
  obtain ⟨k, hk⟩ := exists_iterate_first c
  refine ⟨d.toNat - IPPORT_RESERVED + k, BitVec.eq_of_toNat_eq ?_⟩
  rw [Nat.add_assoc, Function.iterate_add_apply, iterate_advance hk.ge (by omega)]
  omega

/-- Where the counter comes to. -/
theorem iterate_advance_ephemeral (c : BitVec 16) (k : ℕ) :
    Ephemeral (advance^[k + 1] c) ∨ k = 0 ∧ c = 0xffff := by
  rw [Function.iterate_succ_apply']
  by_cases h : advance^[k] c = 0xffff
  · cases k with
    | zero => exact .inr ⟨rfl, h⟩
    | succ k =>
      rw [Function.iterate_succ_apply'] at h
      by_cases h' : advance^[k] c = 0xffff
      · rw [h'] at h
        exact absurd h (by decide)
      · have := advance_ephemeral h'
        rw [h] at this
        exact absurd this (by decide)
  · exact .inl (advance_ephemeral h)

variable {p : Pcbs} {laddr : BitVec 32}

/-- The loop ends if some port of the range is free, and from the largest number also if port 0
is. -/
theorem exists_ephemeral_iff {wild : Bool} :
    (∃ n c, ephemeral order n p laddr wild = some c) ↔
      (∃ c, Ephemeral c ∧ free order p.list laddr wild c) ∨
        p.lport = 0xffff ∧ free order p.list laddr wild 0 := by
  unfold ephemeral
  rw [Scan.exists_seek_iff]
  constructor
  · rintro ⟨k, hk⟩
    rcases iterate_advance_ephemeral p.lport k with h | ⟨rfl, hlast⟩
    · exact .inl ⟨_, h, hk⟩
    · rw [hlast] at hk
      exact .inr ⟨hlast, advance_wrap ▸ hk⟩
  · rintro (⟨c, hc, hfree⟩ | ⟨hlast, hfree⟩)
    · obtain ⟨k, hk⟩ := advance_covers p.lport hc
      exact ⟨k, hk ▸ hfree⟩
    · refine ⟨0, ?_⟩
      rwa [hlast, advance_wrap]

/-- The counter stops in the range, unless it wraps and port 0 is free. -/
theorem ephemeral_stops {n : ℕ} {wild : Bool} (h : ephemeral order n p laddr wild = some c) :
    free order p.list laddr wild c ∧
      (Ephemeral c ↔ ¬ (p.lport = 0xffff ∧ free order p.list laddr wild 0)) := by
  obtain ⟨k, -, rfl, hfree, before⟩ := Scan.seek_eq_some_iff.mp h
  refine ⟨hfree, ?_⟩
  rcases iterate_advance_ephemeral p.lport k with inside | ⟨rfl, hlast⟩
  · refine iff_of_true inside ?_
    rintro ⟨hlast, zero⟩
    have hk : k ≠ 0 := by
      rintro rfl
      rw [hlast] at inside
      exact absurd inside (by decide)
    refine before 0 (Nat.pos_of_ne_zero hk) ?_
    rwa [hlast, advance_wrap]
  · rw [hlast] at hfree ⊢
    exact iff_of_false (by decide) (not_not.mpr ⟨rfl, advance_wrap ▸ hfree⟩)

/-! ## Binding to an ephemeral port -/

theorem mem_update {i : ℕ} {f : Inpcb → Inpcb} {b : Inpcb} :
    b ∈ (p.update i f).list ↔ ∃ a ∈ p.list, Pcbs.change i f a = b :=
  List.mem_map

theorem change_of_ne {a : Inpcb} {i : ℕ} (h : a.id ≠ i) (f : Inpcb → Inpcb) :
    Pcbs.change i f a = a :=
  if_neg h

/-- The block that `in_pcbbind` leaves, and the only one with its address. -/
theorem mem_bound (mem : inp ∈ p.list) {lport : BitVec 16} {b : Inpcb} (hid : b.id = inp.id) :
    b ∈ (setLport (setLaddr p inp laddr) inp lport).list ↔
      b = { inp with laddr := laddr, lport := lport } := by
  have step : Pcbs.change inp.id (fun a => { a with lport := lport })
      (Pcbs.change inp.id (fun a => { a with laddr := laddr }) inp) =
        { inp with laddr := laddr, lport := lport } := by
    simp [Pcbs.change]
  unfold setLport setLaddr
  rw [mem_update]
  constructor
  · rintro ⟨c, hc, rfl⟩
    obtain ⟨a, ha, rfl⟩ := mem_update.mp hc
    have same : a = inp := Pcbs.eq_of_id ha mem (by simpa using hid)
    rw [same, step]
  · rintro rfl
    exact ⟨_, mem_update.mpr ⟨inp, mem, rfl⟩, step⟩

/-- What `in_pcbbind` ought to return: an error, or the block with a port of the range for which
the lookup found nothing. -/
def Settled (p : Pcbs) (inp : Inpcb) (nam : Option Sockaddr) (r : Pcbs × Option Errno) : Prop :=
  r.2 ≠ none ∨
    ∃ b ∈ r.1.list, b.id = inp.id ∧ Ephemeral (order.htons b.lport) ∧
      inPcblookup (setLaddr p inp (bindAddr inp nam)).list
        ⟨INADDR_ANY, 0, bindAddr inp nam, b.lport⟩ inp.socket.wild = none

/-- The port for the counter at `c` is free for `inp`, once it has its local address. -/
def Free (p : Pcbs) (inp : Inpcb) (nam : Option Sockaddr) (c : BitVec 16) : Prop :=
  free order (setLaddr p inp (bindAddr inp nam)).list (bindAddr inp nam) inp.socket.wild c

instance (p : Pcbs) (inp : Inpcb) (nam : Option Sockaddr) (c : BitVec 16) :
    Decidable (Free order p inp nam c) :=
  inferInstanceAs (Decidable (_ = true))

variable {order}

variable {nam : Option Sockaddr}

theorem bind_of_error {env : Env} {e : Errno} (h : bindError order env p inp nam = some e) (n : ℕ) :
    inPcbbind order n env p inp nam = some (p, some e) := by
  rw [inPcbbind, h]

theorem bind_of_none {env : Env} (h : bindError order env p inp nam = none)
    (unasked : bindPort nam = 0) (n : ℕ) :
    inPcbbind order n env p inp nam =
      (ephemeral order n (setLaddr p inp (bindAddr inp nam)) (bindAddr inp nam)
        inp.socket.wild).map fun c =>
          ({ setLport (setLaddr p inp (bindAddr inp nam)) inp (order.htons c) with lport := c },
            none) := by
  simp only [inPcbbind, h, unasked, ne_eq, not_true_eq_false, if_false]

/-- **The search for an ephemeral port ends well** exactly if `in_pcbbind` refuses, or some port
of the range is free; and the counter must not stand at its largest value with port 0 free. -/
theorem bind_settles_iff (order : ByteOrder) (env : Env) (p : Pcbs) (inp : Inpcb)
    (mem : inp ∈ p.list) (nam : Option Sockaddr) (unasked : bindPort nam = 0) :
    (∃ n r, inPcbbind order n env p inp nam = some r ∧ Settled order p inp nam r) ↔
      bindError order env p inp nam ≠ none ∨
        (∃ c, Ephemeral c ∧ Free order p inp nam c) ∧
          ¬ (p.lport = 0xffff ∧ Free order p inp nam 0) := by
  cases herr : bindError order env p inp nam with
  | some e => exact iff_of_true ⟨0, _, bind_of_error herr 0, .inl nofun⟩ (.inl nofun)
  | none =>
    simp only [bind_of_none herr unasked, ne_eq, not_true_eq_false, false_or]
    constructor
    · rintro ⟨n, r, hr, settled⟩
      obtain ⟨c, hc, rfl⟩ := map_eq_some_iff.mp hr
      obtain ⟨hfree, inside⟩ := ephemeral_stops order hc
      rcases settled with h | ⟨b, hb, hid, hport, -⟩
      · exact absurd rfl h
      · rw [(mem_bound mem hid).mp hb, ByteOrder.htons_htons] at hport
        exact ⟨⟨c, hport, hfree⟩, inside.mp hport⟩
    · rintro ⟨some, wrap⟩
      obtain ⟨n, c, hc⟩ := (exists_ephemeral_iff order).mpr (.inl some)
      obtain ⟨hfree, inside⟩ := ephemeral_stops order hc
      refine ⟨n, _, map_eq_some_iff.mpr ⟨c, hc, rfl⟩,
        .inr ⟨_, (mem_bound mem ?_).mpr rfl, ?_⟩⟩
      · rfl
      · refine ⟨rfl, ?_, isNone_iff_eq_none.mp hfree⟩
        rw [ByteOrder.htons_htons]
        exact inside.mpr wrap

/-! The witness and the list on which the loop never ends. -/

/-- A socket without options. -/
def plain : Socket := ⟨false, false, false, false⟩

/-- A block bound to the port for the counter at `c`, or to none. -/
def boundTo (id : ℕ) (c : BitVec 16) : Inpcb :=
  ⟨⟨INADDR_ANY, 0, INADDR_ANY, ByteOrder.little.htons c⟩, id, plain⟩

/-- A machine with one interface. -/
def oneIf : Env := ⟨true, (· = 0x0a000001), false⟩

/-- Two blocks, one of which has the first port. -/
def pair : Pcbs := ⟨0, [boundTo 1 0, boundTo 2 1024], by decide⟩

/-- The unbound one gets the next port. -/
theorem bind_settles_pair :
    ∃ n r, inPcbbind .little n oneIf pair (boundTo 1 0) none = some r ∧
      Settled .little pair (boundTo 1 0) none r :=
  (bind_settles_iff .little oneIf pair (boundTo 1 0) (by decide) none rfl).mpr
    (.inr ⟨⟨1025, by decide, by decide⟩, by decide⟩)

/-- Every port of the range is bound. -/
def full : Pcbs where
  lport := 0
  list := boundTo 0 0 :: (List.range 3977).map fun k => boundTo (k + 1) (BitVec.ofNat 16 (1024 + k))
  distinct := by
    rw [List.map_cons, List.map_map, List.nodup_cons]
    constructor
    · simp [boundTo]
    · refine List.Nodup.map_on (fun a _ b _ h => ?_) List.nodup_range
      simpa [boundTo] using h

/-- With the whole range bound, a socket that asks for any port has `in_pcbbind` loop for ever. -/
theorem bind_never_returns :
    ¬ ∃ n r, inPcbbind .little n oneIf full (boundTo 0 0) none = some r := by
  rintro ⟨n, r, hr⟩
  rw [bind_of_none rfl rfl, map_eq_some_iff] at hr
  obtain ⟨c, hc, -⟩ := hr
  rcases (exists_ephemeral_iff .little).mp ⟨n, c, hc⟩ with ⟨d, ⟨lo, hi⟩, hfree⟩ | ⟨hlast, -⟩
  · have taken : boundTo (d.toNat - 1024 + 1) d ∈
        (setLaddr full (boundTo 0 0) (bindAddr (boundTo 0 0) none)).list := by
      refine mem_update.mpr ⟨boundTo (d.toNat - 1024 + 1) d, ?_, ?_⟩
      swap
      · exact change_of_ne (Nat.succ_ne_zero _) _
      refine List.mem_cons_of_mem _ (List.mem_map.mpr ⟨d.toNat - 1024, ?_, ?_⟩)
      · simp only [IPPORT_USERRESERVED] at hi
        exact List.mem_range.mpr (by omega)
      · have back : 1024 + (d.toNat - 1024) = d.toNat := Nat.add_sub_of_le lo
        rw [back, BitVec.ofNat_toNat, BitVec.setWidth_eq]
    have found : (inPcblookup (setLaddr full (boundTo 0 0) (bindAddr (boundTo 0 0) none)).list
        ⟨INADDR_ANY, 0, bindAddr (boundTo 0 0) none, ByteOrder.little.htons d⟩
        (boundTo 0 0).socket.wild).isSome :=
      lookup_isSome (w := 0) taken (by simp [considered, wildcard, wildcardAddr, boundTo, bindAddr])
    rw [free, isNone_iff_eq_none] at hfree
    rw [hfree] at found
    cases found
  · exact absurd hlast (by decide)

end BSDLite2.InPcb
