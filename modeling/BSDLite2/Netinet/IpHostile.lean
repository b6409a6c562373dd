import BSDLite2.Lib.Schedule
import BSDLite2.Lib.Spans
import BSDLite2.Netinet.IpReass

/-!
# Reassembly of hostile fragments (`netinet/ip_input.c`)

Fragments are anything that passes the checks of `ipintr`: they may overlap in any way, be empty,
and lie anywhere up to the offset 65528.  Offsets and lengths are `short`s, and `ip_reass` computes
with them as `int`s, so a fragment that loses its front to its predecessor may get an offset that
its header cannot hold, and so may the length of the datagram.

* `ipChecks` — the checks at the start of `ipintr`;
* `Reass`, `Reass.step` — the queues along arrivals and timeouts;
* `Tidy`, `Proper` — a queue in order, and a datagram with the length its header gives;
* `spanQueue` — `ip_reass` with offsets and lengths as unbounded integers;
* `Reass.Fits` — its offsets, and the length of what is complete, are at most 32767;
* `reass_iff` — every queue is tidy and every datagram proper, along any sequence of
  arrivals, if and only if every arrival fits.
-/

namespace BSDLite2.IpFrag

open Pieces List Option

/-! ## The code -/

/-- The checks of `ipintr` on the length: a packet that is shorter than its header gives is
dropped, and a longer one is trimmed. -/
def ipChecks (m : Packet) : Option Packet :=
  if m.ip.ipLen.toInt < m.hlen then none
  else if ((m.hlen + m.data.length : ℕ) : ℤ) < m.ip.ipLen.toInt then none
  else some { m with data := m.data.take (m.ip.ipLen.toInt - m.hlen).toNat }

/-- What happens to the queues. -/
inductive Event where
  | arrive (alloc : Bool) (m : Packet)
  | slowtimo
  | drain

/-- The queues, and what the last event passed on. -/
structure Reass where
  ipq : List Ipq
  passed : Option Packet

def Reass.step (s : Reass) : Event → Option Reass
  | .arrive alloc m =>
    match ipChecks m with
    | none => some ⟨s.ipq, none⟩
    | some m => some ⟨(ipintr alloc s.ipq m).1, (ipintr alloc s.ipq m).2⟩
  | .slowtimo => some ⟨ipSlowtimo s.ipq, none⟩
  | .drain => some ⟨ipDrain s.ipq, none⟩

/-! ## What is expected -/

/-- The queue is sorted by `ip_off` and its ranges are disjoint. -/
def Tidy (frags : List Packet) : Prop :=
  frags.Pairwise fun a b => a.ip.ipOff.toInt ≤ b.ip.ipOff.toInt ∧
    a.ip.ipOff.toInt + a.ip.ipLen.toInt ≤ b.ip.ipOff.toInt

/-- `ip_len` is the number of bytes of data. -/
structure Proper (ip : Packet) : Prop where
  nonneg : 0 ≤ ip.ip.ipLen.toInt
  len : ip.ip.ipLen.toInt = ip.data.length

/-- Every queue is tidy, and what is passed on is proper. -/
structure Reass.Good (s : Reass) : Prop where
  tidy : ∀ fp ∈ s.ipq, Tidy fp.frags
  proper : ∀ ip ∈ s.passed, Proper ip

/-! ## Unbounded integers -/

/-- A fragment in a queue, as integers. -/
@[ext] structure Span where
  off : ℤ
  len : ℤ
  more : Bool

def span (ip : Packet) : Span := ⟨ip.ip.ipOff.toInt, ip.ip.ipLen.toInt, mff ip⟩

/-- How `ip_reass` compares and trims, in unbounded integers. -/
def spanQueue : Pieces.Queue Span where
  startsAfter q s := decide (q.off > s.off)
  overlap q s := q.off + q.len - s.off
  len s := s.len
  cut i s := { s with off := s.off + i, len := s.len - i }

/-- Where spans end that are contiguous from `next` on. -/
def reaches : ℤ → List Span → Option ℤ
  | next, [] => some next
  | next, s :: q => if s.off ≠ next then none else reaches (next + s.len) q

/-- The length of the datagram, if it is complete. -/
def total (q : List Span) : Option ℤ :=
  match reaches 0 q, q.getLast? with
  | some next, some last => if last.more then none else some next
  | _, _ => none

/-- **The fragment fits**: in unbounded integers, no offset in the queue with the fragment, and
no length of the complete datagram, is larger than a `short`. -/
def FitsIn (frags : List Packet) (ip : Packet) : Prop :=
  ∀ q ∈ spanQueue.enqueue (span ip) (frags.map span),
    (∀ s ∈ q, s.off ≤ 32767) ∧ ∀ n ∈ total q, n ≤ 32767

/-- The queue `ipintr` finds for a packet. -/
def queueFor (ipq : List Ipq) (m : Packet) : Option Ipq :=
  (ipq.dropWhile fun fp => !fp.isFor m.ip).head?

/-- The packet is passed to `ip_reass`. -/
def isFragment (m : Packet) : Prop :=
  m.ip.ipOff &&& ~~~IP_DF ≠ 0 ∧ (mff (adjust m) ∨ (adjust m).ip.ipOff ≠ 0)

/-- **The event fits**: if a fragment arrives, it fits into the queue there is. -/
def Reass.Fits (s : Reass) : Event → Prop
  | .arrive _ m =>
    ∀ m' ∈ ipChecks m, isFragment m' → ∀ fp ∈ queueFor s.ipq m', FitsIn fp.frags (adjust m')
  | _ => True

/-! ## The queue of the code and that of the integers -/

theorem short_bounds (x : BitVec 16) : -32768 ≤ x.toInt ∧ x.toInt ≤ 32767 := by
  have hlo := x.le_toInt
  have hhi := x.toInt_lt
  omega

/-- A `short` that is just too large becomes negative. -/
theorem toInt_ofInt_wrapped {x : ℤ} (hlo : 32767 < x) (hhi : x ≤ 65535) :
    (BitVec.ofInt 16 x).toInt = x - 65536 := by
  rw [BitVec.toInt_ofInt]
  have hshift : x.bmod (2 ^ 16) = (x - 65536).bmod (2 ^ 16) :=
    (Int.sub_mul_bmod_self_right x 1 _).symm
  rw [hshift]
  exact Int.bmod_eq_of_le_mul_two (by norm_num; omega) (by norm_num; omega)

/-- **`ip_reass` is right as long as the offsets fit.** -/
theorem fragQueue_mirrors : fragQueue.Mirrors spanQueue span fun s => s.off ≤ 32767 := by
  refine ⟨fun _ _ => rfl, fun _ _ => rfl, fun _ => rfl, fun i a hpos hlt hok => ?_⟩
  have hoff := (short_bounds a.ip.ipOff).1
  have hlen := (short_bounds a.ip.ipLen).2
  have hok' : a.ip.ipOff.toInt + i ≤ 32767 := hok
  have hlt' : i < a.ip.ipLen.toInt := hlt
  have hoff' : (BitVec.ofInt 16 (a.ip.ipOff.toInt + i)).toInt = a.ip.ipOff.toInt + i :=
    toInt_ofInt_short (by omega) hok'
  have hlen' : (BitVec.ofInt 16 (a.ip.ipLen.toInt - i)).toInt = a.ip.ipLen.toInt - i :=
    toInt_ofInt_short (by omega) (by omega)
  exact Span.ext hoff' hlen' rfl

/-! ## Queues whose lengths are right -/

/-- **A queue as it should be**: every `ip_len` is the number of bytes of data, and the ranges
are in order. -/
structure Sound (frags : List Packet) : Prop where
  len : ∀ ip ∈ frags, ip.ip.ipLen.toInt = ip.data.length
  inOrder : spanQueue.InOrder Span.off (frags.map span)

theorem spanQueue_linear : spanQueue.Linear Span.off :=
  ⟨fun _ _ => rfl, fun _ _ => rfl, fun _ _ => rfl, fun _ _ => rfl⟩

section Queues

variable {frags : List Packet} {ip : Packet}

theorem Sound.tidy (h : Sound frags) : Tidy frags := by
  have hord := pairwise_map.mp h.inOrder
  refine List.Pairwise.imp_of_mem (fun {a b} ha _ hab => ?_) hord
  have hlen := h.len a ha
  have hab' : a.ip.ipOff.toInt + a.ip.ipLen.toInt ≤ b.ip.ipOff.toInt := hab
  exact ⟨by omega, hab'⟩

theorem len_trimFront (i : ℤ) (a : Packet) (hpos : 0 < i) (hlt : i < fragQueue.len a)
    (h : a.ip.ipLen.toInt = a.data.length) :
    (trimFront i a).ip.ipLen.toInt = (trimFront i a).data.length := by
  have hmax := (short_bounds a.ip.ipLen).2
  have hlt' : i < a.ip.ipLen.toInt := hlt
  show (BitVec.ofInt 16 (a.ip.ipLen.toInt - i)).toInt = (a.data.drop i.toNat).length
  rw [toInt_ofInt_short (by omega) (by omega), length_drop]
  omega

theorem off_le_of_packet (a : Packet) : (span a).off ≤ 32767 := (short_bounds a.ip.ipOff).2

/-- A fragment that fits leaves the queue as it should be. -/
theorem Sound.enqueue (h : Sound frags) (hip : ip.ip.ipLen.toInt = ip.data.length)
    (hfits : ∀ q ∈ spanQueue.enqueue (span ip) (frags.map span), ∀ s ∈ q, s.off ≤ 32767)
    {frags' : List Packet} (henq : fragQueue.enqueue ip frags = some frags') :
    Sound frags' ∧ spanQueue.enqueue (span ip) (frags.map span) = some (frags'.map span) := by
  have hmap := fragQueue_mirrors.enqueue_map hfits
  rw [henq] at hmap
  have hnonneg : ∀ s ∈ frags.map span, 0 ≤ spanQueue.len s := by
    refine forall_mem_map.mpr fun a ha => ?_
    show 0 ≤ a.ip.ipLen.toInt
    rw [h.len a ha]
    exact Int.natCast_nonneg _
  have hlen : 0 ≤ spanQueue.len (span ip) := by
    show 0 ≤ ip.ip.ipLen.toInt
    rw [hip]
    exact Int.natCast_nonneg _
  refine ⟨⟨Queue.forall_enqueue len_trimFront hip h.len henq, ?_⟩, hmap.symm⟩
  exact (spanQueue_linear.inOrder_enqueue hlen hnonneg h.inOrder hmap.symm).2

/-! ### Complete datagrams -/

theorem contiguous_span (next : ℤ) (frags : List Packet) :
    contiguous next frags = reaches next (frags.map span) := by
  induction frags generalizing next with
  | nil => rfl
  | cons a frags ih =>
    rw [contiguous, map_cons, ih]
    rfl

/-- The datagram is complete if the integers say so, with the length they give. -/
theorem complete_span (fp : Ipq) :
    (complete fp).map (fun ip => (ip.ip.ipLen, ip.data)) =
      (total (fp.frags.map span)).map fun n =>
        (BitVec.ofInt 16 n, fp.frags.flatMap Packet.data) := by
  unfold complete total
  rw [contiguous_span, getLast?_map]
  cases hreach : reaches 0 (fp.frags.map span) with
  | none => rfl
  | some next =>
    cases hlast : fp.frags.getLast? with
    | none =>
      cases fp.frags.head? <;> rfl
    | some last =>
      obtain ⟨first, hfirst⟩ : ∃ first, fp.frags.head? = some first := by
        cases hfrags : fp.frags with
        | nil =>
          rw [hfrags] at hlast
          cases hlast
        | cons a rest => exact ⟨a, rfl⟩
      rw [hfirst]
      show Option.map _ (if mff last = true then none else some _) =
        Option.map _ (if mff last = true then none else some next)
      split_ifs <;> rfl

theorem reaches_of_total {q : List Span} {n : ℤ} (h : total q = some n) : reaches 0 q = some n := by
  unfold total at h
  split at h
  · next next last hreach _ =>
      split_ifs at h
      cases h
      exact hreach
  · cases h

section

variable (hlen : ∀ ip ∈ frags, ip.ip.ipLen.toInt = ip.data.length) {next n : ℤ}

include hlen

theorem reaches_length (h : reaches next (frags.map span) = some n) :
    n = next + (frags.flatMap Packet.data).length := by
  induction frags generalizing next with
  | nil =>
    cases h
    simp
  | cons a frags ih =>
    obtain ⟨ha, hrest⟩ := forall_mem_cons.mp hlen
    rw [map_cons, reaches] at h
    split_ifs at h
    have hlen' : (span a).len = a.data.length := ha
    rw [ih hrest h, hlen', flatMap_cons, length_append]
    push_cast
    ring

/-- Contiguous fragments have no negative offsets. -/
theorem reaches_nonneg (hnext : 0 ≤ next) (h : reaches next (frags.map span) = some n) :
    ∀ ip ∈ frags, 0 ≤ ip.ip.ipOff.toInt := by
  induction frags generalizing next with
  | nil => exact nofun
  | cons a frags ih =>
    obtain ⟨ha, hrest⟩ := forall_mem_cons.mp hlen
    rw [map_cons, reaches] at h
    split_ifs at h with hoff
    have hoff' : a.ip.ipOff.toInt = next := not_not.mp hoff
    have hlen' : (span a).len = a.data.length := ha
    exact forall_mem_cons.mpr ⟨by omega, ih hrest (by omega) h⟩

end

/-- Contiguous fragments end where the last one does. -/
theorem reaches_le {next n : ℤ} (hnext : next ≤ 65534)
    (h : reaches next (frags.map span) = some n) : n ≤ 65534 := by
  induction frags generalizing next with
  | nil =>
    cases h
    exact hnext
  | cons a frags ih =>
    rw [map_cons, reaches] at h
    split_ifs at h with hoff
    have hoff' : a.ip.ipOff.toInt = next := not_not.mp hoff
    have hlen : (span a).len = a.ip.ipLen.toInt := rfl
    have h1 := (short_bounds a.ip.ipOff).2
    have h2 := (short_bounds a.ip.ipLen).2
    exact ih (by omega) h

/-- **Complete and not too long** is proper. -/
theorem complete_proper {fp : Ipq} (h : Sound fp.frags)
    (hfits : ∀ n ∈ total (fp.frags.map span), n ≤ 32767) (hip : complete fp = some ip) :
    Proper ip := by
  have hspan := complete_span fp
  rw [hip] at hspan
  obtain ⟨n, htotal, heq⟩ := map_eq_some_iff.mp hspan.symm
  obtain ⟨hlen, hdata⟩ := Prod.mk.inj heq
  have hn := reaches_length h.len (reaches_of_total htotal)
  have hle := hfits n htotal
  have hval : ip.ip.ipLen.toInt = n := by
    rw [← hlen]
    exact toInt_ofInt_short (by omega) hle
  rw [hdata] at hn
  exact ⟨by omega, by omega⟩

/-- A datagram that is too long gets a negative length. -/
theorem complete_improper (fp : Ipq) {n : ℤ} (htotal : total (fp.frags.map span) = some n)
    (hlong : 32767 < n) : ∃ ip, complete fp = some ip ∧ ¬ Proper ip := by
  have hspan := complete_span fp
  rw [htotal] at hspan
  obtain ⟨ip, hip, heq⟩ := map_eq_some_iff.mp hspan
  refine ⟨ip, hip, fun hproper => ?_⟩
  have hn := reaches_le (by norm_num) (reaches_of_total htotal)
  have hlen : ip.ip.ipLen = BitVec.ofInt 16 n := (Prod.mk.inj heq).1
  have hneg := hproper.nonneg
  rw [hlen, toInt_ofInt_wrapped hlong (by omega)] at hneg
  omega

/-- **An offset that does not fit** leaves a queue that is not sorted, and a datagram that is
not complete. -/
theorem broken_of_not_fits (h : Sound frags) (hip : ip.ip.ipLen.toInt = ip.data.length)
    (hnot : ∃ q ∈ spanQueue.enqueue (span ip) (frags.map span), ∃ s ∈ q, ¬ s.off ≤ 32767)
    (fp : Ipq) : ∃ frags', fragQueue.enqueue ip frags = some frags' ∧ ¬ Tidy frags' ∧
      complete { fp with frags := frags' } = none := by
  obtain ⟨q, hq, hbad⟩ := hnot
  obtain ⟨pre, a, b, suf, henq, hpos, hlt, hover⟩ := fragQueue_mirrors.enqueue_broken
    (off_le_of_packet ip) (fun a _ => off_le_of_packet a) hq hbad
  have hend : 32767 < a.ip.ipOff.toInt + a.ip.ipLen.toInt := by
    have hcut : ¬ b.ip.ipOff.toInt + (a.ip.ipOff.toInt + a.ip.ipLen.toInt - b.ip.ipOff.toInt) ≤
      32767 := hover
    omega
  obtain ⟨b', hb'⟩ : ∃ b', b' = fragQueue.cut (fragQueue.overlap a b) b := ⟨_, rfl⟩
  have hoff : b'.ip.ipOff.toInt < 0 ∧ b'.ip.ipOff.toInt < a.ip.ipOff.toInt := by
    have h1 := (short_bounds a.ip.ipOff).2
    have h2 := (short_bounds a.ip.ipLen).2
    have hval : b'.ip.ipOff.toInt = a.ip.ipOff.toInt + a.ip.ipLen.toInt - 65536 := by
      rw [hb', ← toInt_ofInt_wrapped hend (by omega)]
      show (BitVec.ofInt 16 (b.ip.ipOff.toInt +
        (a.ip.ipOff.toInt + a.ip.ipLen.toInt - b.ip.ipOff.toInt))).toInt = _
      rw [add_sub_cancel]
    omega
  rw [← hb'] at henq
  refine ⟨_, henq, fun htidy => ?_, ?_⟩
  · have hpair := (pairwise_append.mp htidy).2.1
    have := ((pairwise_cons.mp hpair).1 b' (mem_cons_self ..)).1
    omega
  · have hspan := complete_span { fp with frags := pre ++ a :: b' :: suf }
    have htotal : total ((pre ++ a :: b' :: suf).map span) = none := by
      by_contra hsome
      obtain ⟨n, hn⟩ := ne_none_iff_exists'.mp hsome
      have := reaches_nonneg (Queue.forall_enqueue len_trimFront hip h.len henq) le_rfl
        (reaches_of_total hn) b' (by simp)
      omega
    rw [htotal] at hspan
    exact map_eq_none_iff.mp hspan

end Queues

/-! ## Steps -/

/-- The queues as they should be. -/
def Reass.Sound (s : Reass) : Prop := ∀ fp ∈ s.ipq, IpFrag.Sound fp.frags

section Steps

variable {before behind rest : List Ipq} {fp : Ipq} {ip : Packet} {alloc : Bool}

theorem sound_finish (hbefore : ∀ fp ∈ before, Sound fp.frags)
    (hbehind : ∀ fp ∈ behind, Sound fp.frags) (h : Sound fp.frags)
    (hfits : ∀ n ∈ total (fp.frags.map span), n ≤ 32767) :
    (∀ fp' ∈ (finish before fp behind).1, Sound fp'.frags) ∧
      ∀ ip ∈ (finish before fp behind).2, Proper ip := by
  unfold finish
  cases hip : complete fp with
  | none =>
    exact ⟨forall_mem_append.mpr ⟨hbefore, forall_mem_cons.mpr ⟨h, hbehind⟩⟩, nofun⟩
  | some ip =>
    refine ⟨forall_mem_append.mpr ⟨hbefore, hbehind⟩, fun ip' hmem => ?_⟩
    cases hmem
    exact complete_proper h hfits hip

/-- A fragment alone is not a datagram. -/
theorem total_single (hfrag : mff ip ∨ ip.ip.ipOff ≠ 0) : total [span ip] = none := by
  unfold total reaches
  split_ifs with hoff
  · rfl
  · have hzero : ip.ip.ipOff = 0 := BitVec.eq_of_toInt_eq (not_not.mp hoff)
    have hmff : mff ip = true := hfrag.resolve_right (not_not.mpr hzero)
    show (if mff ip = true then none else _) = none
    rw [if_pos hmff]

/-- **The step lemma**: `ip_reass` with a fragment that fits. -/
theorem ipReass_fits (hbefore : ∀ fp ∈ before, Sound fp.frags) (hrest : ∀ fp ∈ rest, Sound fp.frags)
    (hip : ip.ip.ipLen.toInt = ip.data.length) (hfrag : mff ip ∨ ip.ip.ipOff ≠ 0)
    (hfits : ∀ fp ∈ rest.head?, FitsIn fp.frags ip) :
    (∀ fp ∈ (ipReass alloc ip before rest).1, Sound fp.frags) ∧
      ∀ ip' ∈ (ipReass alloc ip before rest).2, Proper ip' := by
  cases rest with
  | nil =>
    rw [ipReass]
    split_ifs
    · refine sound_finish (by simp) hbefore ?_ ?_
      · exact ⟨by simpa using hip, pairwise_singleton _ _⟩
      · intro n hn
        rw [map_singleton, total_single hfrag] at hn
        cases hn
    · exact ⟨hbefore, by simp⟩
  | cons fp behind =>
    obtain ⟨hfp, hbehind⟩ := forall_mem_cons.mp hrest
    rw [ipReass]
    cases henq : fragQueue.enqueue ip fp.frags with
    | none => exact ⟨forall_mem_append.mpr ⟨hbefore, hrest⟩, by simp⟩
    | some frags =>
      have hall := hfits fp rfl
      obtain ⟨hsound, hspan⟩ := hfp.enqueue hip (fun q hq => (hall q hq).1) henq
      exact sound_finish hbefore hbehind hsound (hall _ hspan).2

/-- `ip_reass` with a fragment that does not fit. -/
theorem ipReass_not_fits (alloc : Bool) (before : List Ipq) (hrest : ∀ fp ∈ rest, Sound fp.frags)
    (hip : ip.ip.ipLen.toInt = ip.data.length) (hnot : ∃ fp ∈ rest.head?, ¬ FitsIn fp.frags ip) :
    (∃ fp ∈ (ipReass alloc ip before rest).1, ¬ Tidy fp.frags) ∨
      ∃ ip' ∈ (ipReass alloc ip before rest).2, ¬ Proper ip' := by
  obtain ⟨fp, hfp, hnot⟩ := hnot
  cases rest with
  | nil => cases hfp
  | cons fp' behind =>
    cases hfp
    have hsound := (forall_mem_cons.mp hrest).1
    rw [ipReass]
    by_cases hoff : ∀ q ∈ spanQueue.enqueue (span ip) (fp.frags.map span),
        ∀ s ∈ q, s.off ≤ 32767
    · -- the offsets fit, so the datagram is complete and too long
      simp only [FitsIn, not_forall] at hnot
      obtain ⟨q, hq, hnot⟩ := hnot
      have hlong : ∃ n ∈ total q, ¬ n ≤ 32767 := by
        by_contra hall
        push Not at hall
        exact hnot ⟨hoff q hq, hall⟩
      obtain ⟨n, htotal, hn⟩ := hlong
      have hmap := fragQueue_mirrors.enqueue_map hoff
      rw [hq] at hmap
      obtain ⟨frags, henq, rfl⟩ := map_eq_some_iff.mp hmap
      rw [henq]
      obtain ⟨ip', hcomplete, himproper⟩ :=
        complete_improper { fp with frags := frags } htotal (not_le.mp hn)
      refine Or.inr ⟨ip', ?_, himproper⟩
      show ip' ∈ (finish before { fp with frags := frags } behind).2
      rw [finish, hcomplete]
      rfl
    · push Not at hoff
      obtain ⟨q, hq, s, hs, hlt⟩ := hoff
      obtain ⟨frags, henq, huntidy, hnone⟩ :=
        broken_of_not_fits hsound hip ⟨q, hq, s, hs, not_le.mpr hlt⟩ fp
      rw [henq]
      refine Or.inl ⟨{ fp with frags := frags }, ?_, huntidy⟩
      show _ ∈ (finish before { fp with frags := frags } behind).1
      rw [finish, hnone]
      simp

/-- What passes the checks has the length its header gives. -/
theorem len_of_checks {m m' : Packet} (h : ipChecks m = some m') :
    m'.ip.ipLen.toInt = m'.hlen + m'.data.length := by
  unfold ipChecks at h
  split_ifs at h with hmissing
  cases h
  show m.ip.ipLen.toInt = m.hlen + (m.data.take (m.ip.ipLen.toInt - m.hlen).toNat).length
  rw [length_take]
  omega

theorem toInt_sub_hlen {m : Packet} (h : m.ip.ipLen.toInt = m.hlen + m.data.length) :
    (m.ip.ipLen - BitVec.ofNat 16 m.hlen).toInt = m.data.length := by
  have hmax := (short_bounds m.ip.ipLen).2
  have hof : m.ip.ipLen = BitVec.ofInt 16 (m.hlen + m.data.length) := by
    rw [← h, BitVec.ofInt_toInt]
  rw [hof, ← BitVec.ofInt_natCast, BitVec.ofInt_add, add_sub_cancel_left]
  exact toInt_ofInt_short (by omega) (by omega)

theorem mem_of_split {ipq : List Ipq} {P : Ipq → Prop} (h : ∀ fp ∈ ipq, P fp) (m : Packet) :
    (∀ fp ∈ ipq.takeWhile fun fp => !fp.isFor m.ip, P fp) ∧
      ∀ fp ∈ ipq.dropWhile fun fp => !fp.isFor m.ip, P fp :=
  ⟨fun fp hfp => h fp ((List.takeWhile_prefix _).subset hfp),
    fun fp hfp => h fp ((dropWhile_suffix _).subset hfp)⟩

/-- `ipintr` with a packet that passes the checks. -/
theorem ipintr_fits (alloc : Bool) {ipq : List Ipq} {m : Packet} (h : ∀ fp ∈ ipq, Sound fp.frags)
    (hm : m.ip.ipLen.toInt = m.hlen + m.data.length)
    (hfits : isFragment m → ∀ fp ∈ queueFor ipq m, FitsIn fp.frags (adjust m)) :
    (∀ fp ∈ (ipintr alloc ipq m).1, Sound fp.frags) ∧
      ∀ ip ∈ (ipintr alloc ipq m).2, Proper ip := by
  have hlen := toInt_sub_hlen hm
  have hproper : ∀ ip : Packet, ip.ip.ipLen.toInt = ip.data.length → Proper ip :=
    fun ip hip => ⟨by omega, hip⟩
  obtain ⟨hbefore, hrest⟩ := mem_of_split h m
  unfold ipintr
  split_ifs with hoff hfrag
  · exact ipReass_fits hbefore hrest hlen hfrag (hfits ⟨hoff, hfrag⟩)
  · refine ⟨forall_mem_append.mpr ⟨hbefore, fun fp hfp => hrest fp (mem_of_mem_tail hfp)⟩,
      fun ip hip => ?_⟩
    cases hip
    exact hproper _ hlen
  · refine ⟨h, fun ip hip => ?_⟩
    cases hip
    exact hproper _ hlen

theorem Reass.good_of_fits {s t : Reass} {e : Event} (h : s.Sound) (hfits : s.Fits e)
    (hstep : s.step e = some t) : t.Sound ∧ t.Good := by
  have hgood (t : Reass) (hsound : t.Sound) (hproper : ∀ ip ∈ t.passed, Proper ip) :
      t.Sound ∧ t.Good := ⟨hsound, fun fp hfp => (hsound fp hfp).tidy, hproper⟩
  cases e with
  | arrive alloc m =>
    cases hchecks : ipChecks m with (rw [Reass.step, hchecks] at hstep; cases hstep)
    | none => exact hgood _ h nofun
    | some m' =>
      obtain ⟨hsound, hproper⟩ := ipintr_fits alloc h (len_of_checks hchecks)
        (hfits m' hchecks)
      exact hgood _ hsound hproper
  | slowtimo =>
    cases hstep
    refine hgood _ (fun fp hfp => ?_) nofun
    obtain ⟨fp', hfp', rfl⟩ := mem_map.mp (mem_of_mem_filter hfp)
    exact h fp' hfp'
  | drain =>
    cases hstep
    exact hgood _ nofun nofun

theorem Reass.not_good_of_not_fits {s t : Reass} {e : Event} (h : s.Sound) (hnot : ¬ s.Fits e)
    (hstep : s.step e = some t) : ¬ t.Good := by
  cases e with
  | arrive alloc m =>
    simp only [Reass.Fits, not_forall] at hnot
    obtain ⟨m', hchecks, ⟨hoff, hfrag⟩, fp, hfp, hnot⟩ := hnot
    rw [Reass.step, hchecks] at hstep
    cases hstep
    obtain ⟨-, hrest⟩ := mem_of_split h m'
    have hbad := ipReass_not_fits alloc (s.ipq.takeWhile fun fp => !fp.isFor m'.ip) hrest
      (toInt_sub_hlen (len_of_checks hchecks)) ⟨fp, hfp, hnot⟩
    intro hgood
    have htidy := hgood.tidy
    have hproper := hgood.proper
    simp only [ipintr, if_pos hoff, if_pos hfrag] at htidy hproper
    rcases hbad with ⟨fp', hmem, hbad⟩ | ⟨ip, hmem, hbad⟩
    · exact hbad (htidy fp' hmem)
    · exact hbad (hproper ip hmem)
  | slowtimo | drain => exact absurd trivial hnot

end Steps

theorem Reass.step_total (s : Reass) (e : Event) : ∃ t, s.step e = some t := by
  cases e with
  | arrive alloc m =>
    cases hchecks : ipChecks m <;> exact ⟨_, by rw [Reass.step, hchecks]⟩
  | slowtimo | drain => exact ⟨_, rfl⟩

/-- **Hostile fragments.**  From empty queues, for every sequence of arrivals and timeouts: all
queues are sorted with disjoint ranges at every moment, and every datagram that is passed on has
a length that is not negative and is the number of its bytes, if and only if every fragment fits
when it arrives. -/
theorem reass_iff (events : List Event) :
    (∀ pre t, pre <+: events → Schedule.run Reass.step ⟨[], none⟩ pre = some t → t.Good) ↔
      Schedule.Along Reass.step Reass.Fits ⟨[], none⟩ events := by
  obtain ⟨t, hrun⟩ := Schedule.run_total Reass.step_total ⟨[], none⟩ events
  have hstart : Reass.Sound ⟨[], none⟩ ∧ Reass.Good ⟨[], none⟩ :=
    ⟨nofun, nofun, nofun⟩
  exact (Schedule.along_iff_reached
    (fun _ _ _ _ _ => trivial)
    (fun _ _ _ hI _ hG hstep _ => Reass.good_of_fits hI hG hstep)
    (fun _ _ _ hI _ hG hstep _ => Reass.not_good_of_not_fits hI hG hstep)
    hstart (Schedule.along_true _ _) hrun trivial).symm

/-- A fragment at the offset 32760 of a datagram. -/
def late (len : ℕ) : Packet where
  ip := { ipHl := 5, ipTos := 0, ipLen := BitVec.ofNat 16 (20 + len), ipId := 7,
          ipOff := 4095 ||| IP_MF, ipTtl := 64, ipP := 17, ipSrc := 0x0a000001,
          ipDst := 0x0a000002 }
  opts := []
  data := List.replicate len 0
  hlen_eq := rfl

/-- Two fragments at the offset 32760, of 16 bytes and of 24: what is left of the second one
gets the offset −32760 and its place is behind the first. -/
theorem reass_unsorted :
    ((Schedule.run Reass.step ⟨[], none⟩ [.arrive true (late 16), .arrive true (late 24)]).map
      fun s => s.ipq.map fun fp => fp.frags.map fun f => f.ip.ipOff.toInt) =
    some [[32760, -32760]] := by
  decide +kernel

end BSDLite2.IpFrag
