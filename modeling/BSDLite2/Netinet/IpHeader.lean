import BSDLite2.Lib.Schedule
import BSDLite2.Netinet.IpMbuf

/-!
# The header of a reassembled datagram (`netinet/ip_input.c`)

Two things that `ipintr` takes for granted about headers, for any sequence of packets in any
mbufs.

The header of a fragment should be contiguous when `ip_reass` hides it.  It was made so when the
packet arrived, but a fragment in a cluster is pulled up once more, and then only the fixed
part of the header is asked for: `header_contiguous_iff`.

The length of the header that is given to the protocol should be that of the header the
packet starts with.  After reassembly this is the header of the first fragment, and the length
is the one of the fragment that came last: `header_length_iff`.

* `Input`, `Input.step` — the queues, and the call of the protocol;
* `accept_spec` — what the checks at the start of `ipintr` ensure;
* `Contiguous`, `Clean` — the header of an arriving fragment lies in one mbuf; it does if it is
  not in a cluster, or not too long;
* `Input.Headed`, `Input.Matches` — the protocol is given the right length; it is if a fragment
  that completes a datagram has a header as long as that of the first fragment.
-/

namespace BSDLite2.IpFrag

open Mbuf List Option Schedule

/-! ## Runs -/

/-- What happens to the queues: a chain of mbufs arrives, or queues are given up. -/
inductive Rcvd where
  | arrive (env : Env) (c : List Buf)
  | slowtimo
  | drain

/-- The queues, and the arguments of the last call of the protocol. -/
structure Input where
  ipq : List Fragq
  call : Option (Frag × ℕ)

/-- `ip_slowtimo`. -/
def slowtimoMbuf (ipq : List Fragq) : List Fragq :=
  (ipq.map fun fp => { fp with ipqTtl := fp.ipqTtl - 1 }).filter fun fp => fp.ipqTtl ≠ 0

def Input.step (s : Input) : Rcvd → Option Input
  | .arrive env c =>
    match accept env c with
    | none => some ⟨s.ipq, none⟩
    | some (c, m) => some ⟨(ipintrMbuf env s.ipq c m).1, (ipintrMbuf env s.ipq c m).2⟩
  | .slowtimo => some ⟨slowtimoMbuf s.ipq, none⟩
  | .drain => some ⟨[], none⟩

variable {c : List Buf} {env : Env} {s t : Input} {f : Frag} {R : Frag × ℕ → Prop}

theorem Input.step_accepted {c₁ : List Buf} {m : Packet} (h : accept env c = some (c₁, m)) :
    s.step (.arrive env c) =
      some ⟨(ipintrMbuf env s.ipq c₁ m).1, (ipintrMbuf env s.ipq c₁ m).2⟩ := by
  rw [Input.step, h]

theorem Input.step_refused (h : accept env c = none) :
    s.step (.arrive env c) = some ⟨s.ipq, none⟩ := by
  rw [Input.step, h]

theorem Input.step_total (s : Input) (e : Rcvd) : ∃ t, s.step e = some t := by
  cases e with
  | arrive env c =>
    cases h : accept env c with
    | none => exact ⟨_, Input.step_refused h⟩
    | some r => exact ⟨_, Input.step_accepted h⟩
  | slowtimo => exact ⟨_, rfl⟩
  | drain => exact ⟨_, rfl⟩

/-- What `ip_slowtimo` leaves is as it was, up to the time to live. -/
theorem forall_slowtimoMbuf {P : List Frag → Prop} {ipq : List Fragq}
    (h : ∀ fp ∈ ipq, P fp.frags) : ∀ fp ∈ slowtimoMbuf ipq, P fp.frags := by
  intro fp hfp
  obtain ⟨fp', hfp', rfl⟩ := mem_map.mp (mem_of_mem_filter hfp)
  exact h fp' hfp'

/-! ## What is accepted -/

section Accept

variable {env : Env} {c c₁ : List Buf} {m : Packet}

theorem atLeast_spec {len : ℕ} (h : atLeast env len c = some c₁) :
    bytesOf c₁ = bytesOf c ∧ len ≤ firstLen c₁ := by
  unfold atLeast at h
  split_ifs at h with hshort
  · exact mPullup_spec h
  · cases h
    exact ⟨rfl, not_lt.mp hshort⟩

theorem ipHeader_spec (h : ipHeader env c = some c₁) :
    bytesOf c₁ = bytesOf c ∧ 20 ≤ hlenOf c₁ ∧ hlenOf c₁ ≤ firstLen c₁ := by
  obtain ⟨c', hc', h⟩ := bind_eq_some_iff.mp h
  split_ifs at h with hsmall
  obtain ⟨hbytes, hfirst⟩ := atLeast_spec h
  have hhlen : hlenOf c₁ = hlenOf c' := by rw [hlenOf, hbytes, hlenOf]
  exact ⟨hbytes.trans (atLeast_spec hc').1, by omega, by omega⟩

theorem bytesOf_keep (n : ℕ) (c : List Buf) : bytesOf (keep n c) = (bytesOf c).take n := by
  induction c generalizing n with
  | nil => simp [keep]
  | cons b c ih => rw [keep, bytesOf_cons, bytesOf_cons, ih, take_append]

theorem firstLen_keep (n : ℕ) (c : List Buf) : firstLen (keep n c) = min n (firstLen c) := by
  cases c with
  | nil => simp [keep, firstLen]
  | cons b c => simp [keep]

theorem ipHl_lt (b : List (BitVec 8)) : (ipOf b).ipHl < 16 := by
  have : ∀ x : BitVec 8, (x &&& 0xf).toNat < 16 := by decide
  exact this _

/-- **What the checks ensure**: the header, of at most 60 bytes, is contiguous. -/
theorem accept_spec (h : accept env c = some (c₁, m)) :
    bytesOf c₁ = (bytesOf c).take (m.hlen + m.data.length) ∧ m.hlen ≤ firstLen c₁ ∧
      20 ≤ m.hlen ∧ m.hlen ≤ 60 := by
  obtain ⟨c', hc', h⟩ := bind_eq_some_iff.mp h
  obtain ⟨m', hm', h⟩ := bind_eq_some_iff.mp h
  obtain ⟨m'', hm'', h⟩ := bind_eq_some_iff.mp h
  cases h
  obtain ⟨hbytes, hmin, hfirst⟩ := ipHeader_spec hc'
  have hip : m'.hlen = hlenOf c' := by
    unfold packetOf at hm'
    split_ifs at hm'
    cases hm'
    rfl
  have hhlen : m.hlen = m'.hlen := by
    unfold ipChecks at hm''
    split_ifs at hm''
    cases hm''
    rfl
  have hlt := ipHl_lt (bytesOf c')
  have hmul : hlenOf c' = (ipOf (bytesOf c')).ipHl * 4 := rfl
  rw [bytesOf_keep, firstLen_keep, hbytes]
  exact ⟨rfl, by omega, by omega, by omega⟩

/-- The header is there, so there is a first mbuf. -/
theorem exists_first (h : 0 < firstLen c) : ∃ b rest, c = b :: rest := by
  cases c with
  | nil => cases h
  | cons b rest => exact ⟨b, rest, rfl⟩

end Accept

/-! ## What a packet keeps of the queues -/

/-- **The queues that are left have `P`**, and what is passed on has `R`. -/
structure Keeps {α : Type} (P : List Frag → Prop) (R : α → Prop) (r : List Fragq × Option α) :
    Prop where
  queued : ∀ fp ∈ r.1, P fp.frags
  passed : ∀ f ∈ r.2, R f

section Keeps

variable {P : List Frag → Prop} {before behind rest ipq : List Fragq}

theorem Keeps.none {α : Type} {R : α → Prop} (h : ∀ fp ∈ ipq, P fp.frags) : Keeps P R (ipq, none) :=
  ⟨h, nofun⟩

theorem keeps_finish {R : Frag → Prop} {fp : Fragq} (hbefore : ∀ fp ∈ before, P fp.frags)
    (hbehind : ∀ fp ∈ behind, P fp.frags) (h : P fp.frags ∧ ∀ f ∈ completeMbuf fp, R f) :
    Keeps P R (finishMbuf before fp behind) := by
  unfold finishMbuf
  cases hcomplete : completeMbuf fp with
  | none =>
    exact .none (forall_mem_append.mpr ⟨hbefore, forall_mem_cons.mpr ⟨h.1, hbehind⟩⟩)
  | some f =>
    refine ⟨forall_mem_append.mpr ⟨hbefore, hbehind⟩, fun f' hf' => ?_⟩
    cases hf'
    exact h.2 f hcomplete

/-- **The step rule**: `ip_reass` starts a queue with the fragment, or puts it into the first of
`rest`. -/
theorem keeps_reass {R : Frag → Prop} (alloc : Bool)
    (hbefore : ∀ fp ∈ before, P fp.frags) (hrest : ∀ fp ∈ rest, P fp.frags)
    (step : ∀ fp : Fragq, (rest = [] ∧
        fp.frags = [{ f with chain := skipHeader f.pkt.hlen f.chain }] ∨
      ∃ q, rest.head? = some q ∧ mbufQueue.enqueue
        { f with chain := skipHeader f.pkt.hlen f.chain } q.frags = some fp.frags) →
      P fp.frags ∧ ∀ f' ∈ completeMbuf fp, R f') :
    Keeps P R (reassMbuf alloc f before rest) := by
  cases rest with
  | nil =>
    simp only [reassMbuf]
    split_ifs
    · exact keeps_finish (by simp) hbefore
        (step _ (.inl ⟨rfl, rfl⟩))
    · exact .none hbefore
  | cons fp behind =>
    simp only [reassMbuf]
    cases henq : mbufQueue.enqueue { f with chain := skipHeader f.pkt.hlen f.chain } fp.frags with
    | none => exact .none (forall_mem_append.mpr ⟨hbefore, hrest⟩)
    | some frags =>
      exact keeps_finish hbefore (forall_mem_cons.mp hrest).2
        (step _ (.inr ⟨fp, rfl, henq⟩))

/-- What `ipintr` finds for a packet. -/
theorem forall_split {P : Fragq → Prop} (h : ∀ fp ∈ ipq, P fp) (m : Packet) :
    (∀ fp ∈ ipq.takeWhile fun fp => !fp.ipq.isFor m.ip, P fp) ∧
      ∀ fp ∈ ipq.dropWhile fun fp => !fp.ipq.isFor m.ip, P fp :=
  ⟨fun fp hfp => h fp ((List.takeWhile_prefix _).subset hfp),
    fun fp hfp => h fp ((dropWhile_suffix _).subset hfp)⟩

/-- A packet that is not a fragment is passed on as it is. -/
theorem keeps_ipintr {m : Packet}
    (h : ∀ fp ∈ ipq, P fp.frags)
    (whole : ¬ isFragment m → ∀ m' c', m'.hlen = m.hlen → c' = c ∨ unshare env c = some c' →
      R (⟨m', c'.map Mb.ofBuf⟩, m.hlen))
    (frag : isFragment m → ∀ c', unshare env c = some c' →
      Keeps P (fun f => R (f, m.hlen)) (reassMbuf env.alloc ⟨adjust m, c'.map Mb.ofBuf⟩
        (ipq.takeWhile fun fp => !fp.ipq.isFor m.ip)
        (ipq.dropWhile fun fp => !fp.ipq.isFor m.ip))) :
    Keeps P R (ipintrMbuf env ipq c m) := by
  obtain ⟨hbefore, hrest⟩ := forall_split h m
  by_cases hoff : m.ip.ipOff &&& ~~~IP_DF = 0
  · rw [ipintrMbuf_whole ipq hoff]
    refine ⟨h, fun r hr => ?_⟩
    cases hr
    exact whole (fun hfrag => hfrag.1 hoff) _ c rfl (.inl rfl)
  cases hc : unshare env c with
  | none =>
    rw [ipintrMbuf_lost ipq hoff hc]
    exact .none h
  | some c' =>
    by_cases hfrag : mff (adjust m) ∨ (adjust m).ip.ipOff ≠ 0
    · rw [ipintrMbuf_frag ipq ⟨hoff, hfrag⟩ hc rfl]
      obtain ⟨hqueues, hpassed⟩ := frag ⟨hoff, hfrag⟩ c' hc
      refine ⟨hqueues, fun r hr => ?_⟩
      obtain ⟨f, hf, rfl⟩ := map_eq_some_iff.mp hr
      exact hpassed f hf
    · rw [ipintrMbuf_other ipq hoff hc hfrag]
      refine ⟨forall_mem_append.mpr
        ⟨hbefore, fun fp hfp => hrest fp (mem_of_mem_tail hfp)⟩, fun r hr => ?_⟩
      cases hr
      exact whole (fun h => hfrag h.2) _ c' rfl (.inr hc)

/-- A step keeps what the packets keep. -/
theorem Input.keeps_step {e : Rcvd}
    (h : ∀ fp ∈ s.ipq, P fp.frags) (hstep : s.step e = some t)
    (arrive : ∀ env c c₁ m, e = .arrive env c → accept env c = some (c₁, m) →
      Keeps P R (ipintrMbuf env s.ipq c₁ m)) : Keeps P R (t.ipq, t.call) := by
  cases e with
  | arrive env c =>
    cases hacc : accept env c with
    | none =>
      cases (Input.step_refused hacc).symm.trans hstep
      exact .none h
    | some r =>
      cases (Input.step_accepted hacc).symm.trans hstep
      exact arrive env c r.1 r.2 rfl hacc
  | slowtimo =>
    cases hstep
    exact .none (forall_slowtimoMbuf h)
  | drain =>
    cases hstep
    exact .none nofun

end Keeps

/-! ## The header of a fragment is contiguous -/

/-- The data of the first mbuf. -/
def firstBytes (c : List Buf) : List (BitVec 8) := (c.head?.map Buf.bytes).getD []

/-- **The header is contiguous** when `ip_reass` hides it, and it is the header that is
hidden. -/
def Contiguous : Rcvd → Prop
  | .arrive env c => ∀ c₁ m, accept env c = some (c₁, m) → isFragment m →
      ∀ c₂, unshare env c₁ = some c₂ →
        m.hlen ≤ firstLen c₂ ∧ (firstBytes c₂).take m.hlen = (bytesOf c).take m.hlen
  | _ => True

/-- A fragment in a cluster, for which there is an mbuf, has a header that `m_pullup` gets
into it. -/
def Clean : Rcvd → Prop
  | .arrive env c => ∀ c₁ m, accept env c = some (c₁, m) → isFragment m →
      c₁.head?.any Buf.ext = true → env.mgetCluster = true → m.hlen ≤ max 20 env.maxProtohdr
  | _ => True

theorem take_firstBytes {n : ℕ} (h : n ≤ firstLen c) :
    (firstBytes c).take n = (bytesOf c).take n := by
  cases c with
  | nil => rfl
  | cons b c => exact (take_append_of_le_length h).symm

/-- **What is hidden is contiguous** exactly if the arrival is clean. -/
theorem contiguous_iff_clean (e : Rcvd) : Contiguous e ↔ Clean e := by
  cases e with
  | slowtimo => exact Iff.rfl
  | drain => exact Iff.rfl
  | arrive env c =>
    refine forall₂_congr fun c₁ m => forall₂_congr fun hacc hfrag => ?_
    obtain ⟨hbytes, hfirst, hmin, hmax⟩ := accept_spec hacc
    obtain ⟨b, rest, rfl⟩ := exists_first (show 0 < firstLen c₁ by omega)
    -- the data are the same, so it is only a matter of the length
    have hlen (c₂ : List Buf) (hc₂ : unshare env (b :: rest) = some c₂) :
        (m.hlen ≤ firstLen c₂ ∧ (firstBytes c₂).take m.hlen = (bytesOf c).take m.hlen) ↔
          m.hlen ≤ firstLen c₂ := by
      refine and_iff_left_of_imp fun hle => ?_
      have hsame : bytesOf c₂ = bytesOf (b :: rest) := by
        unfold unshare at hc₂
        split_ifs at hc₂
        · exact (mPullup_spec hc₂).1
        · cases hc₂
          rfl
      rw [take_firstBytes hle, hsame, hbytes, take_take, min_eq_left (by omega)]
    refine (forall₂_congr fun c₂ hc₂ => hlen c₂ hc₂).trans ?_
    have hany : ((b :: rest).head?.any Buf.ext) = b.ext := rfl
    rw [unshare, hany]
    cases hext : b.ext with
    | false =>
      refine iff_of_true (fun c₂ hc₂ => ?_) nofun
      cases hc₂
      exact hfirst
    | true =>
      cases hmget : env.mgetCluster with
      | false =>
        refine iff_of_true (fun c₂ hc₂ => ?_) nofun
        rw [mPullup_cluster_none rest hext] at hc₂
        cases hc₂
      | true =>
        obtain ⟨c₂, hc₂, -, hcount⟩ := mPullup_cluster env.maxProtohdr
          rest hext (hmin.trans hfirst) (by decide)
        have hspace : MHLEN ≤ (fresh b).space := le_space_fresh b
        have hfirst' : m.hlen ≤ b.bytes.length := hfirst
        unfold MHLEN at hspace
        constructor
        · intro h _ _
          have := h c₂ hc₂
          omega
        · intro h c₃ hc₃
          have hle := h rfl rfl
          cases hc₂.symm.trans hc₃
          omega

/-! ### No negative lengths -/

/-- No mbuf of the chain has a negative `m_len`. -/
def NonNeg (c : List Mb) : Prop := ∀ m ∈ c, 0 ≤ m.len

section NonNeg

variable {c c' : List Mb} {i : ℤ}

theorem nonNeg_cons {m : Mb} : NonNeg (m :: c) ↔ 0 ≤ m.len ∧ NonNeg c := forall_mem_cons

theorem nonNeg_ofBuf (c : List Buf) : NonNeg (c.map Mb.ofBuf) :=
  forall_mem_map.mpr fun m _ => Int.natCast_nonneg m.bytes.length

theorem NonNeg.adjHead (h : NonNeg c) : NonNeg (adjHead i c) := by
  induction c generalizing i with
  | nil => exact h
  | cons m c ih =>
    obtain ⟨hm, hc⟩ := nonNeg_cons.mp h
    rw [IpFrag.adjHead]
    split_ifs with hdone hall
    · exact h
    · exact nonNeg_cons.mpr ⟨le_rfl, ih hc⟩
    · exact nonNeg_cons.mpr ⟨sub_nonneg.mpr (not_le.mp hall).le, hc⟩

theorem NonNeg.catLast {m : Mb} (hm : 0 ≤ m.len) (h : NonNeg c) : NonNeg (catLast m c) := by
  induction c generalizing m with
  | nil => exact nonNeg_cons.mpr ⟨hm, h⟩
  | cons n c ih =>
    obtain ⟨hn, hc⟩ := nonNeg_cons.mp h
    rw [IpFrag.catLast]
    split_ifs
    · exact nonNeg_cons.mpr ⟨hm, h⟩
    · exact ih (add_nonneg hm hn) hc

theorem NonNeg.mCat (h : NonNeg c) (h' : NonNeg c') : NonNeg (mCat c c') := by
  induction c with
  | nil => exact h'
  | cons m c ih =>
    obtain ⟨hm, hc⟩ := nonNeg_cons.mp h
    cases c with
    | nil => exact h'.catLast hm
    | cons n c => exact nonNeg_cons.mpr ⟨hm, ih hc⟩

theorem nonNeg_joinChains {frags : List Frag} (h : ∀ f ∈ frags, NonNeg f.chain) :
    NonNeg (joinChains frags) := by
  cases frags with
  | nil => exact nofun
  | cons f frags =>
    obtain ⟨hf, hrest⟩ := forall_mem_cons.mp h
    refine List.foldlRecOn frags _ ?_ fun c hc q hq => hc.mCat (hrest q hq)
    cases hchain : f.chain with
    | nil => exact nofun
    | cons m t =>
      rw [hchain] at hf
      obtain ⟨hm, ht⟩ := nonNeg_cons.mp hf
      exact ht.catLast hm

/-- Showing a header again, or hiding one that is there. -/
theorem NonNeg.skipHeader (h : NonNeg c) (hi : ∀ m ∈ c.head?, i ≤ m.len) :
    NonNeg (skipHeader i c) := by
  cases c with
  | nil => exact h
  | cons m c => exact nonNeg_cons.mpr ⟨sub_nonneg.mpr (hi m rfl), (nonNeg_cons.mp h).2⟩

end NonNeg

/-- No chain in a queue, and none the protocol was called with, has a negative length. -/
structure Input.NonNeg (s : Input) : Prop where
  queued : ∀ fp ∈ s.ipq, ∀ f ∈ fp.frags, IpFrag.NonNeg f.chain
  called : ∀ r ∈ s.call, IpFrag.NonNeg r.1.chain

theorem nonNeg_complete {fp : Fragq} (h : ∀ f ∈ fp.frags, NonNeg f.chain)
    (hf : completeMbuf fp = some f) : NonNeg f.chain := by
  obtain ⟨ip, -, rfl⟩ := map_eq_some_iff.mp hf
  have hjoined := nonNeg_joinChains h
  refine hjoined.skipHeader fun m hm => ?_
  have hlen := hjoined m (mem_of_mem_head? hm)
  omega

/-- **The step lemma**: `ip_reass` with a fragment whose header is contiguous. -/
theorem nonNeg_reass {before rest : List Fragq} (alloc : Bool)
    (hbefore : ∀ fp ∈ before, ∀ f ∈ fp.frags, NonNeg f.chain)
    (hrest : ∀ fp ∈ rest, ∀ f ∈ fp.frags, NonNeg f.chain) (hf : NonNeg f.chain)
    (hhead : ∀ m ∈ f.chain.head?, (f.pkt.hlen : ℤ) ≤ m.len) :
    Keeps (fun frags => ∀ f ∈ frags, NonNeg f.chain) (fun f => NonNeg f.chain)
      (reassMbuf alloc f before rest) := by
  have hskip : NonNeg (skipHeader f.pkt.hlen f.chain) := hf.skipHeader hhead
  refine keeps_reass alloc hbefore hrest fun fp hfp => ?_
  have hall : ∀ f ∈ fp.frags, NonNeg f.chain := by
    rcases hfp with ⟨-, hone⟩ | ⟨q, hq, henq⟩
    · intro f' hf'
      rw [hone] at hf'
      rw [mem_singleton.mp hf']
      exact hskip
    · exact Pieces.Queue.forall_enqueue (P := fun f => NonNeg f.chain)
        (fun i a _ _ ha => NonNeg.adjHead ha) hskip (hrest q (mem_of_mem_head? hq)) henq
  exact ⟨hall, fun f' => nonNeg_complete hall⟩

theorem nonNeg_ipintr {ipq : List Fragq} {m : Packet}
    (h : ∀ fp ∈ ipq, ∀ f ∈ fp.frags, NonNeg f.chain)
    (hcont : isFragment m → ∀ c₂, unshare env c = some c₂ → m.hlen ≤ firstLen c₂) :
    Keeps (fun frags => ∀ f ∈ frags, NonNeg f.chain) (fun r => NonNeg r.1.chain)
      (ipintrMbuf env ipq c m) := by
  obtain ⟨hbefore, hrest⟩ := forall_split h m
  refine keeps_ipintr h (fun _ _ c' _ _ => nonNeg_ofBuf c') fun hfrag c₂ hc => ?_
  refine nonNeg_reass env.alloc hbefore hrest (nonNeg_ofBuf c₂) ?_
  have hlen := hcont hfrag c₂ hc
  cases c₂ with
  | nil => exact nofun
  | cons b₂ c₂ =>
    intro b hb
    cases hb
    exact Int.ofNat_le.mpr hlen

theorem Input.nonNeg_step {e : Rcvd} (h : s.NonNeg) (hcont : Contiguous e)
    (hstep : s.step e = some t) : t.NonNeg := by
  obtain ⟨hqueued, hcalled⟩ := Input.keeps_step h.queued hstep fun env c c₁ m he hacc => by
    subst he
    exact nonNeg_ipintr h.queued fun hfrag c₂ hc₂ => (hcont c₁ m hacc hfrag c₂ hc₂).1
  exact ⟨hqueued, hcalled⟩

/-- **Headers of fragments.**  For every sequence of arrivals, in any mbufs, and of timeouts: the
header of every fragment is contiguous when it is hidden, and no `m_len` in a queue or in a
packet that is passed on is ever negative, if and only if every arrival is clean. -/
theorem header_contiguous_iff (events : List Rcvd) :
    ((∀ e ∈ events, Contiguous e) ∧
      ∀ pre t, pre <+: events → run Input.step ⟨[], none⟩ pre = some t → t.NonNeg) ↔
    ∀ e ∈ events, Clean e := by
  constructor
  · rintro ⟨hcont, -⟩ e he
    exact (contiguous_iff_clean e).mp (hcont e he)
  · intro hclean
    have hcont : ∀ e ∈ events, Contiguous e :=
      fun e he => (contiguous_iff_clean e).mpr (hclean e he)
    refine ⟨hcont, fun pre t hpre hrun => ?_⟩
    have hstart : Input.NonNeg ⟨[], none⟩ := ⟨nofun, nofun⟩
    have halong : Schedule.Along Input.step (fun _ e => Contiguous e) ⟨[], none⟩ pre :=
      along_of_forall (fun e he => hcont e (hpre.subset he)) _
    exact run_invariant (fun s e t hs he hstep => Input.nonNeg_step hs he hstep)
      hstart halong hrun

/-- A fragment in a cluster, with 40 bytes of options. -/
def clustered : List Buf :=
  [{ ext := true, pkthdr := true, start := 0,
     bytes := [0x4f, 0, 0, 68, 0, 7, 0x20, 0, 64, 17, 0, 0, 10, 0, 0, 1, 10, 0, 0, 2] ++
       List.replicate 40 1 ++ List.replicate 8 0x61 }]

/-- With `max_protohdr` as TCP sets it, 40 bytes of this header are pulled out of the cluster, and
then 60 are hidden: the first mbuf has the length −20. -/
theorem header_split :
    ((run Input.step ⟨[], none⟩ [.arrive ⟨40, true, true, true⟩ clustered]).map
      fun s => s.ipq.map fun fp => fp.frags.map fun f => f.chain.map Mb.len) =
    some [[[-20, 28]]] := by
  decide +kernel

/-! ## The length of the header -/

/-- Where the data of the first mbuf begin. -/
def leadOf (c : List Mb) : Option ℤ := c.head?.map Mb.lead

/-- **The protocol is given the right length**: the first mbuf starts with a header, and `hlen`
is the length of this header. -/
structure Heads (f : Frag) (hlen : ℕ) : Prop where
  starts : leadOf f.chain = some 0
  length : f.pkt.hlen = hlen

def Input.Headed (s : Input) : Prop := ∀ r ∈ s.call, Heads r.1 r.2

/-- The first fragment of the first queue, if `ip` does not come before it. -/
def Precedes (first : Frag) (ip : Packet) (rest : List Fragq) : Prop :=
  ∃ fp, rest.head? = some fp ∧ fp.frags.head? = some first ∧
    first.pkt.ip.ipOff.toInt ≤ ip.ip.ipOff.toInt

theorem Precedes.unique {first first' : Frag} {ip : Packet} {rest : List Fragq}
    (h : Precedes first ip rest) (h' : Precedes first' ip rest) : first = first' := by
  obtain ⟨fp, hfp, hfirst, -⟩ := h
  obtain ⟨fp', hfp', hfirst', -⟩ := h'
  cases hfp.symm.trans hfp'
  exact Option.some.inj (hfirst.symm.trans hfirst')

/-- **The arrival matches**: if a fragment completes a datagram whose first fragment is there
already, that one has a header of the same length. -/
def Input.Matches (s : Input) : Rcvd → Prop
  | .arrive env c => ∀ c₁ m, accept env c = some (c₁, m) → isFragment m →
      ∀ first, Precedes first (adjust m) (s.ipq.dropWhile fun fp => !fp.ipq.isFor m.ip) →
        (ipintrMbuf env s.ipq c₁ m).2.isSome → first.pkt.hlen = m.hlen
  | _ => True

/-- The first fragment has lost nothing but its header, which is before its data. -/
def Hidden (frags : List Frag) : Prop :=
  ∃ f, frags.head? = some f ∧ leadOf f.chain = some (f.pkt.hlen : ℤ)

section Lead

theorem leadOf_catLast (m : Mb) (c : List Mb) : leadOf (catLast m c) = some m.lead := by
  induction c generalizing m with
  | nil => rfl
  | cons n c ih =>
    rw [catLast]
    split_ifs
    · rfl
    · exact ih _

theorem leadOf_mCat {c : List Mb} (hc : c ≠ []) (c' : List Mb) :
    leadOf (mCat c c') = leadOf c ∧ mCat c c' ≠ [] := by
  have hne {c : List Mb} {x : ℤ} (h : leadOf c = some x) : c ≠ [] := by
    rintro rfl
    cases h
  cases c with
  | nil => exact absurd rfl hc
  | cons m c =>
    cases c with
    | nil => exact ⟨leadOf_catLast m c', hne (leadOf_catLast m c')⟩
    | cons n c => exact ⟨rfl, cons_ne_nil _ _⟩

/-- Concatenation leaves the start of the first mbuf alone. -/
theorem leadOf_joinChains {frags : List Frag} {x : ℤ} (h : leadOf f.chain = some x) :
    leadOf (joinChains (f :: frags)) = some x := by
  cases hchain : f.chain with
  | nil =>
    rw [hchain] at h
    cases h
  | cons m t =>
    rw [hchain] at h
    have hfirst : leadOf (catLast m t) = some x := (leadOf_catLast m t).trans h
    rw [joinChains, hchain]
    have hfold : leadOf (frags.foldl (fun m q => mCat m q.chain) (catLast m t)) = some x ∧
        frags.foldl (fun m q => mCat m q.chain) (catLast m t) ≠ [] := by
      refine List.foldlRecOn (motive := fun c => leadOf c = some x ∧ c ≠ []) frags _
        ⟨hfirst, ?_⟩ fun c hc q _ => ?_
      · rintro hnil
        rw [hnil] at hfirst
        cases hfirst
      · obtain ⟨hlead, hne⟩ := leadOf_mCat hc.2 q.chain
        exact ⟨hlead.trans hc.1, hne⟩
    exact hfold.1

theorem leadOf_skipHeader (i : ℤ) (c : List Mb) :
    leadOf (skipHeader i c) = (leadOf c).map (· + i) := by
  cases c <;> rfl

end Lead

/-- The datagram gets the header of the first fragment. -/
theorem complete_hlen {fp : Ipq} {ip : Packet} (h : complete fp = some ip) :
    ∃ first, fp.frags.head? = some first ∧ ip.hlen = first.hlen := by
  unfold complete at h
  split at h
  · next next first last _ hfirst _ =>
      split_ifs at h
      cases h
      exact ⟨first, hfirst, rfl⟩
  · cases h

section Heads

variable {before rest ipq : List Fragq} {fp : Fragq} {f : Frag}

/-- **A datagram starts with the header of its first fragment.** -/
theorem completeMbuf_heads (h : Hidden fp.frags) (hf : completeMbuf fp = some f) :
    ∃ first, fp.frags.head? = some first ∧ Heads f first.pkt.hlen := by
  obtain ⟨ip, hip, rfl⟩ := map_eq_some_iff.mp hf
  obtain ⟨first, hfirst, hlead⟩ := h
  obtain ⟨p, hp, hhlen⟩ := complete_hlen hip
  have hpkt : fp.ipq.frags.head? = some first.pkt := by
    show (fp.frags.map Frag.pkt).head? = _
    rw [head?_map, hfirst]
    rfl
  cases hpkt.symm.trans hp
  refine ⟨first, hfirst, ?_, hhlen⟩
  obtain ⟨frags, hfrags⟩ := head?_eq_some_iff.mp hfirst
  rw [hfrags, leadOf_skipHeader, leadOf_joinChains hlead, hhlen]
  simp

/-- **The step lemma**: `ip_reass` keeps the headers, and a datagram starts with that of the
fragment, or with that of the first one if it is there. -/
theorem hidden_reass (alloc : Bool) (hbefore : ∀ fp ∈ before, Hidden fp.frags)
    (hrest : ∀ fp ∈ rest, Hidden fp.frags) (hf : leadOf f.chain = some 0) :
    Keeps Hidden (fun f' => (∃ first, Precedes first f.pkt rest ∧ Heads f' first.pkt.hlen) ∨
      ((¬ ∃ first, Precedes first f.pkt rest) ∧ Heads f' f.pkt.hlen))
      (reassMbuf alloc f before rest) := by
  have hskip : leadOf (skipHeader f.pkt.hlen f.chain) = some (f.pkt.hlen : ℤ) := by
    rw [leadOf_skipHeader, hf]
    simp
  -- the datagram of a queue starts with the header of its first fragment
  have heads {fp : Fragq} {first : Frag} (hhead : fp.frags.head? = some first)
      (hlead : leadOf first.chain = some (first.pkt.hlen : ℤ)) :
      Hidden fp.frags ∧ ∀ f' ∈ completeMbuf fp, Heads f' first.pkt.hlen := by
    refine ⟨⟨first, hhead, hlead⟩, fun f' hf' => ?_⟩
    obtain ⟨first', hfirst', hheads⟩ := completeMbuf_heads ⟨first, hhead, hlead⟩ hf'
    cases hhead.symm.trans hfirst'
    exact hheads
  refine keeps_reass alloc hbefore hrest fun fp hfp => ?_
  rcases hfp with ⟨rfl, hone⟩ | ⟨q, hq, henq⟩
  · have hhead : fp.frags.head? = some ⟨f.pkt, skipHeader f.pkt.hlen f.chain⟩ := by
      rw [hone]
      rfl
    obtain ⟨hqueued, hpassed⟩ := heads hhead hskip
    refine ⟨hqueued, fun f' hf' => .inr ⟨?_, hpassed f' hf'⟩⟩
    rintro ⟨first, fp, hfp, -⟩
    cases hfp
  · rcases Pieces.Queue.head_enqueue henq with ⟨first, hfirst, hafter, hhead⟩ | ⟨hall, hhead⟩
    · have hle : first.pkt.ip.ipOff.toInt ≤ f.pkt.ip.ipOff.toInt :=
        not_lt.mp (of_decide_eq_false hafter)
      obtain ⟨g, hg, hlead⟩ := hrest q (mem_of_mem_head? hq)
      cases hfirst.symm.trans hg
      obtain ⟨hqueued, hpassed⟩ := heads hhead hlead
      exact ⟨hqueued, fun f' hf' => .inl ⟨first, ⟨q, hq, hfirst, hle⟩, hpassed f' hf'⟩⟩
    · obtain ⟨hqueued, hpassed⟩ := heads hhead hskip
      refine ⟨hqueued, fun f' hf' => .inr ⟨?_, hpassed f' hf'⟩⟩
      rintro ⟨first, q', hq', hfirst, hle⟩
      cases hq.symm.trans hq'
      exact absurd hle (not_le.mpr (of_decide_eq_true (hall first hfirst)))

theorem leadOf_ofBuf (h : 0 < firstLen c) : leadOf (c.map Mb.ofBuf) = some 0 := by
  obtain ⟨b, rest, rfl⟩ := exists_first h
  rfl

theorem firstLen_unshare {c c₂ : List Buf} (h : 0 < firstLen c)
    (hc : unshare env c = some c₂) : 0 < firstLen c₂ := by
  unfold unshare at hc
  split_ifs at hc
  · exact lt_of_lt_of_le (by norm_num) (mPullup_spec hc).2
  · cases hc
    exact h

/-- `ipintr` keeps the headers, and calls the protocol with a packet that starts with its own
header, or with that of the first fragment if it is there. -/
theorem hidden_ipintr (env : Env) (m : Packet) (h : ∀ fp ∈ ipq, Hidden fp.frags)
    (hc : 0 < firstLen c) :
    Keeps Hidden (fun r => r.2 = m.hlen ∧
        ((∃ first, (isFragment m ∧
            Precedes first (adjust m) (ipq.dropWhile fun fp => !fp.ipq.isFor m.ip)) ∧
            Heads r.1 first.pkt.hlen) ∨
          (¬ ∃ first, isFragment m ∧
            Precedes first (adjust m) (ipq.dropWhile fun fp => !fp.ipq.isFor m.ip)) ∧
            Heads r.1 m.hlen)) (ipintrMbuf env ipq c m) := by
  obtain ⟨hbefore, hrest⟩ := forall_split h m
  refine keeps_ipintr h (fun hnot m' c' hlen hc' => ?_) fun hfrag c₂ hc₂ => ?_
  · have hc' : 0 < firstLen c' := hc'.elim (fun heq => heq ▸ hc) (firstLen_unshare hc)
    exact ⟨rfl, .inr ⟨fun ⟨_, hfrag, _⟩ => hnot hfrag, leadOf_ofBuf hc', hlen⟩⟩
  · obtain ⟨hqueues, hpassed⟩ := hidden_reass env.alloc (f := ⟨adjust m, c₂.map Mb.ofBuf⟩) hbefore
      hrest (leadOf_ofBuf (firstLen_unshare hc hc₂))
    refine ⟨hqueues, fun f hf => ⟨rfl, ?_⟩⟩
    rcases hpassed f hf with ⟨first, hfirst, hheads⟩ | ⟨hnone, hheads⟩
    · exact .inl ⟨first, ⟨hfrag, hfirst⟩, hheads⟩
    · exact .inr ⟨fun ⟨first, _, hfirst⟩ => hnone ⟨first, hfirst⟩, hheads⟩

/-- The queues keep the headers. -/
def Input.Hidden (s : Input) : Prop := ∀ fp ∈ s.ipq, IpFrag.Hidden fp.frags

theorem Input.headed_of_matches {e : Rcvd} (h : s.Hidden) (hmatches : s.Matches e)
    (hstep : s.step e = some t) : t.Hidden ∧ t.Headed := by
  obtain ⟨hqueued, hcalled⟩ := Input.keeps_step (R := fun r => Heads r.1 r.2) h hstep
    fun env c c₁ m he hacc => by
      subst he
      obtain ⟨-, hlen, hmin, -⟩ := accept_spec hacc
      obtain ⟨hqueues, hcall⟩ := hidden_ipintr env (c := c₁) m h (by omega)
      refine ⟨hqueues, fun r hr => ?_⟩
      obtain ⟨hr2, ⟨first, ⟨hfrag, hfirst⟩, hheads⟩ | ⟨-, hheads⟩⟩ := hcall r hr
      · have hsome : (ipintrMbuf env s.ipq c₁ m).2.isSome = true :=
          isSome_iff_exists.mpr ⟨r, hr⟩
        rwa [hr2, ← hmatches c₁ m hacc hfrag first hfirst hsome]
      · rwa [hr2]
  exact ⟨hqueued, hcalled⟩

theorem Input.not_headed {e : Rcvd} (h : s.Hidden) (hnot : ¬ s.Matches e)
    (hstep : s.step e = some t) : ¬ t.Headed := by
  cases e with
  | arrive env c =>
    simp only [Input.Matches, not_forall] at hnot
    obtain ⟨c₁, m, hacc, hfrag, first, hfirst, hsome, hne⟩ := hnot
    cases (Input.step_accepted hacc).symm.trans hstep
    obtain ⟨-, hlen, hmin, -⟩ := accept_spec hacc
    obtain ⟨-, hcall⟩ := hidden_ipintr env (c := c₁) m h (by omega)
    obtain ⟨r, hr⟩ := isSome_iff_exists.mp hsome
    intro hheaded
    have hlength : r.1.pkt.hlen = r.2 := (hheaded r hr).length
    obtain ⟨hr2, ⟨first', ⟨-, hfirst'⟩, hheads⟩ | ⟨hnone, -⟩⟩ := hcall r hr
    · cases hfirst.unique hfirst'
      exact hne (hheads.length.symm.trans (hlength.trans hr2))
    · exact hnone ⟨first, hfrag, hfirst⟩
  | slowtimo => exact absurd trivial hnot
  | drain => exact absurd trivial hnot

end Heads

/-- **The length of the header.**  For every sequence of arrivals and timeouts: whenever the
protocol is called, the first mbuf starts with a header of the length that is given, if and only
if every arrival matches. -/
theorem header_length_iff (events : List Rcvd) :
    (∀ pre t, pre <+: events → run Input.step ⟨[], none⟩ pre = some t → t.Headed) ↔
      Schedule.Along Input.step Input.Matches ⟨[], none⟩ events := by
  obtain ⟨t, hrun⟩ := run_total Input.step_total ⟨[], none⟩ events
  have hstart : Input.Hidden ⟨[], none⟩ ∧ Input.Headed ⟨[], none⟩ :=
    ⟨nofun, nofun⟩
  exact (along_iff_reached
    (fun _ _ _ _ _ => trivial)
    (fun _ _ _ hI _ hG hstep _ => Input.headed_of_matches hI hG hstep)
    (fun _ _ _ hI _ hG hstep _ => Input.not_headed hI hG hstep)
    hstart (along_true _ _) hrun trivial).symm

/-- The first fragment of a datagram, with four bytes of options, and the last one, without. -/
def optioned : List Rcvd :=
  [[0x46, 0, 0, 32, 0, 7, 0x20, 0, 64, 17, 0, 0, 10, 0, 0, 1, 10, 0, 0, 2, 1, 1, 1, 0] ++
      List.replicate 8 0x61,
    [0x45, 0, 0, 28, 0, 7, 0, 1, 64, 17, 0, 0, 10, 0, 0, 1, 10, 0, 0, 2] ++
      List.replicate 8 0x62].map
    fun bytes => .arrive ⟨40, true, true, true⟩
      [{ ext := false, pkthdr := true, start := 8, bytes := bytes }]

/-- The datagram has a header of 24 bytes, and the protocol is told that it has 20. -/
theorem header_length_wrong :
    ((run Input.step ⟨[], none⟩ optioned).map
      fun s => s.call.map fun r => (r.1.pkt.hlen, r.2)) = some (some (24, 20)) := by
  decide +kernel

end BSDLite2.IpFrag
