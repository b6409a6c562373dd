import BSDLite2.Netinet.TcpRecord

/-!
# The window that is offered

A segment offers the peer everything up to its right edge, `ti_ack + (ti_win << rcv_scale)`.
`tcp_output` remembers in `rcv_adv` how far it has gone, and means not to go back; but the
field holds the window rounded down, and `tcp_respond` sends a keep-alive probe with a window
of its own, which is not remembered.

What the field rounds away is nothing if every number that goes into it is a multiple of the unit
`2 ^ rcv_scale`: the space in the receive buffer, and what is left of the last offer, that is the
bytes that have arrived since.  Then `rcv_adv` is exactly the last edge, and this is the invariant
that every event keeps.

* `Sent.Whole` — what a segment has to meet, in terms of `sbspace`, `rcv_adv` and `rcv_nxt`;
* `sentOk_whole` — such a segment does not go back, and `rcv_adv` follows it;
* `Tcpcb.Steadfast` — the invariant, with what is so before the connection is established;
* `edge_never_retreats` — the edge never moves left;
* `edge_retreats` — with a scale it does as soon as an odd number of bytes has arrived.
-/

namespace BSDLite2.Tcp

open Serial Outcome

variable (tp : Tcpcb) {tp' : Tcpcb} {x : Sent}

/-- The segment offers a window: it was sent, and is neither a SYN nor a reset that
`tcp_respond` has made. -/
def Sent.offers (x : Sent) : Bool := x.ok && decide (x.via ≠ .reset) && !has x.flags TH_SYN

/-- The right edge of a segment. -/
def Sent.edge (x : Sent) (scale : Fin (TCP_MAX_WINSHIFT + 1)) : BitVec 32 :=
  x.ack + x.win.zeroExtend 32 <<< scale.val

/-- The right edges that have been offered, the last one first. -/
def Tcpcb.edges : List (BitVec 32) :=
  (tp.sent.filter Sent.offers).map (·.edge tp.rcvScale)

/-- **The segment met whole units of the scale**: the space in the receive buffer, and what was
left of the window offered before, which the peer had kept to.  A probe met exactly as much space
as had been offered. -/
def Sent.Whole (x : Sent) (scale : Fin (TCP_MAX_WINSHIFT + 1)) : Prop :=
  2 ^ scale.val ∣ x.space ∧ 2 ^ scale.val ∣ dist x.adv x.ack ∧ 0 ≤ dist x.adv x.ack ∧
    dist x.adv x.ack ≤ (TCP_MAXWIN <<< scale.val : ℕ) ∧
    (x.via = .keepalive → x.space = dist x.adv x.ack)

instance (x : Sent) (scale : Fin (TCP_MAX_WINSHIFT + 1)) : Decidable (x.Whole scale) :=
  inferInstanceAs (Decidable (_ ∧ _ ∧ _ ∧ _ ∧ _))

/-- Every segment that offers a window met whole units. -/
def Tcpcb.AllWhole : Prop := ∀ x ∈ tp.sent, x.offers → x.Whole tp.rcvScale

/-! ## Edges -/

theorem field_eq (s : ℕ) : ((TCP_MAXWIN <<< s : ℕ) : ℤ) = 2 ^ s * TCP_MAXWIN := by
  rw [Nat.shiftLeft_eq, mul_comm]
  push_cast
  rfl

section

variable {scale : Fin (TCP_MAX_WINSHIFT + 1)} {w : ℤ}

theorem field_lt (h : w ≤ (TCP_MAXWIN <<< scale.val : ℕ)) : w < 2 ^ 30 := by
  have hunit : (2 : ℤ) ^ scale.val ≤ 2 ^ 14 :=
    pow_le_pow_right₀ (by decide) (Nat.lt_succ_iff.mp scale.isLt)
  rw [field_eq] at h
  norm_num [TCP_MAXWIN] at h hunit ⊢
  omega

variable (hwin : x.win = BitVec.ofInt 16 (w >>> scale.val)) (hunits : 2 ^ scale.val ∣ w)
  (hnonneg : 0 ≤ w) (hfield : w ≤ (TCP_MAXWIN <<< scale.val : ℕ))

include hwin hunits hnonneg hfield

/-- **A window of whole units is shown as it is.** -/
theorem edge_of_whole : x.edge scale = pos x.ack w := by
  obtain ⟨k, rfl⟩ := hunits
  have hpos : (0 : ℤ) < 2 ^ scale.val := by positivity
  obtain ⟨n, rfl⟩ := Int.eq_ofNat_of_zero_le (nonneg_of_mul_nonneg_right hnonneg hpos)
  rw [field_eq] at hfield
  have hn : n ≤ 65535 := by exact_mod_cast le_of_mul_le_mul_left hfield hpos
  have hshift : (2 ^ scale.val * (n : ℤ)) >>> scale.val = n := by
    rw [Int.shiftRight_eq_div_pow]
    push_cast
    exact Int.mul_ediv_cancel_left _ hpos.ne'
  rw [Sent.edge, hwin, hshift, pos]
  congr 1
  refine BitVec.eq_of_toNat_eq ?_
  have hright : (BitVec.ofInt 32 (2 ^ scale.val * n)).toNat = 2 ^ scale.val * n % 2 ^ 32 := by
    exact_mod_cast Int.toNat_natCast _
  rw [hright, BitVec.toNat_shiftLeft, BitVec.toNat_setWidth, BitVec.ofInt_natCast,
    BitVec.toNat_ofNat, Nat.mod_eq_of_lt (show n < 2 ^ 16 by omega),
    Nat.mod_eq_of_lt (show n < 2 ^ 32 by omega), Nat.shiftLeft_eq, mul_comm]

end

variable {tp : Tcpcb}

/-- **`rcv_adv` follows a segment** that met whole units: it is where the segment ends, and that is
not before where it was. -/
theorem sentOk_whole {win : ℤ} {p : Plan} {data : List (BitVec 8)} {ok : Bool}
    (h : (tp.segment p win data ok).Whole tp.rcvScale) :
    (tp.segment p win data ok).edge tp.rcvScale = (tp.sentOk (tp.offer win)).rcvAdv ∧
      0 ≤ dist ((tp.segment p win data ok).edge tp.rcvScale) tp.rcvAdv := by
  obtain ⟨hspace, hleft, hnonneg, hle, -⟩ := h
  change 2 ^ tp.rcvScale.val ∣ win at hspace
  change 2 ^ tp.rcvScale.val ∣ dist tp.rcvAdv tp.rcvNxt at hleft
  change 0 ≤ dist tp.rcvAdv tp.rcvNxt at hnonneg
  change dist tp.rcvAdv tp.rcvNxt ≤ _ at hle
  have hunits : 2 ^ tp.rcvScale.val ∣ tp.offer win := by
    refine max_rec' (2 ^ tp.rcvScale.val ∣ ·) (min_rec' _ ?_ ⟨_, field_eq _⟩) hleft
    split
    · exact dvd_zero _
    · exact hspace
  have hreach : dist tp.rcvAdv tp.rcvNxt ≤ tp.offer win := le_max_right _ _
  have hfield : tp.offer win ≤ (TCP_MAXWIN <<< tp.rcvScale.val : ℕ) :=
    max_le (min_le_right _ _) hle
  have hsmall := field_lt hfield
  have hedge : (tp.segment p win data ok).edge tp.rcvScale = pos tp.rcvNxt (tp.offer win) :=
    edge_of_whole rfl hunits (hnonneg.trans hreach) hfield
  have hadv : tp.rcvAdv = pos tp.rcvNxt (dist tp.rcvAdv tp.rcvNxt) := (pos_dist _ _).symm
  have hdist : dist (pos tp.rcvNxt (tp.offer win)) tp.rcvAdv =
      tp.offer win - dist tp.rcvAdv tp.rcvNxt := by
    conv_lhs => rw [hadv]
    exact dist_pos_pos _ (by omega) (by omega)
  rw [hedge, hdist]
  refine ⟨?_, by omega⟩
  simp only [Tcpcb.sentOk]
  split
  · rfl
  · next hnot =>
      have hback : ¬ 0 < dist (pos tp.rcvNxt (tp.offer win)) tp.rcvAdv := fun hgt =>
        hnot ⟨by omega, decide_eq_true hgt⟩
      have hsame : tp.offer win = dist tp.rcvAdv tp.rcvNxt := by omega
      rw [hsame]
      exact hadv.symm

/-! ## The invariant -/

/-- **The edges that have been offered never moved left**, and `rcv_adv` is the last one, provided
that every segment met whole units. -/
def Tcpcb.Offered (tp : Tcpcb) : Prop :=
  tp.AllWhole → tp.edges.IsChain (fun later earlier => 0 ≤ dist later earlier) ∧
    ∀ e ∈ tp.edges.head?, e = tp.rcvAdv

/-- No window has been offered yet. -/
def Tcpcb.Silent (tp : Tcpcb) : Prop := ∀ x ∈ tp.sent, x.offers = false

theorem Tcpcb.Silent.offered (h : tp.Silent) : tp.Offered := by
  have hnil : tp.edges = [] := by
    rw [Tcpcb.edges, List.filter_eq_nil_iff.mpr fun x hx => by simp [h x hx], List.map_nil]
  intro _
  rw [hnil]
  exact ⟨.nil, nofun⟩

theorem Tcpcb.Offered.congr (h : tp.Offered) (hadv : tp'.rcvAdv = tp.rcvAdv)
    (hscale : tp'.rcvScale = tp.rcvScale) (hsent : tp'.sent = tp.sent) : tp'.Offered := by
  unfold Tcpcb.Offered Tcpcb.AllWhole Tcpcb.edges
  rw [hadv, hscale, hsent]
  exact h

/-- A segment without an offer. -/
theorem Tcpcb.Offered.skip (h : tp.Offered) (hx : x.offers = false) (hadv : tp'.rcvAdv = tp.rcvAdv)
    (hscale : tp'.rcvScale = tp.rcvScale) (hsent : tp'.sent = x :: tp.sent) : tp'.Offered := by
  have hedges : tp'.edges = tp.edges := by
    rw [Tcpcb.edges, hsent, List.filter_cons_of_neg (by simp [hx]), hscale]
    rfl
  intro hall
  rw [hedges, hadv]
  refine h fun y hy hoffers => ?_
  rw [← hscale]
  exact hall y (hsent ▸ List.mem_cons_of_mem _ hy) hoffers

/-- **A segment with an offer**, after which `rcv_adv` is its edge. -/
theorem Tcpcb.Offered.offer (h : tp.Offered) (hx : x.offers) (hscale : tp'.rcvScale = tp.rcvScale)
    (hsent : tp'.sent = x :: tp.sent)
    (hafter : x.Whole tp.rcvScale → x.edge tp.rcvScale = tp'.rcvAdv ∧
      0 ≤ dist (x.edge tp.rcvScale) tp.rcvAdv) : tp'.Offered := by
  have hedges : tp'.edges = x.edge tp.rcvScale :: tp.edges := by
    rw [Tcpcb.edges, hsent, List.filter_cons_of_pos hx, hscale]
    rfl
  intro hall
  obtain ⟨hedge, hnonneg⟩ := hafter (hscale ▸ hall x (hsent ▸ List.mem_cons_self) hx)
  obtain ⟨hchain, hlast⟩ := h fun y hy hoffers =>
    hscale ▸ hall y (hsent ▸ List.mem_cons_of_mem _ hy) hoffers
  rw [hedges]
  refine ⟨List.isChain_cons.mpr ⟨fun e he => ?_, hchain⟩, fun e he => ?_⟩
  · rw [hlast e he]
    exact hnonneg
  · cases he
    exact hedge

/-- The invariant as far as `tcp_output` keeps it in every state. -/
structure Tcpcb.Faithful (tp : Tcpcb) : Prop where
  offered : tp.Offered
  silent : tp.tState.sendsSyn → tp.Silent

/-- **The invariant of the offers.**  Until the connection is established there are none. -/
structure Tcpcb.Steadfast (tp : Tcpcb) : Prop extends tp.Faithful where
  closed : tp.tState = .closed → tp.gone = false → tp.template = false ∧ tp.Silent
  listen : tp.tState = .listen → tp.template = false ∧ tp.Silent

/-- A core without its timers and sizes. -/
def Core.timeless (c : Core) : Core :=
  { c with rexmt := 0, persist := 0, rxtshift := 0, returned := [], maxseg := 0, sndHiwat := 0 }

section Congr

variable {tp tp' : Tcpcb}

theorem Tcpcb.Silent.congr (h : tp.Silent) (hsent : tp'.sent = tp.sent) : tp'.Silent :=
  fun x hx => h x (hsent ▸ hx)

theorem Tcpcb.Silent.cons (h : tp.Silent) (hx : x.offers = false)
    (hsent : tp'.sent = x :: tp.sent) : tp'.Silent := by
  intro y hy
  rcases List.mem_cons.mp (hsent ▸ hy) with rfl | hy
  · exact hx
  · exact h y hy

theorem Tcpcb.Faithful.congr (h : tp.Faithful) (hcore : tp'.core.timeless = tp.core.timeless) :
    tp'.Faithful := by
  have hsent : tp'.sent = tp.sent := congrArg Core.sent hcore
  have hstate : tp'.tState = tp.tState := congrArg Core.tState hcore
  refine ⟨h.offered.congr (congrArg Core.rcvAdv hcore) (congrArg Core.rcvScale hcore) hsent, ?_⟩
  rw [hstate]
  exact fun hsyn => (h.silent hsyn).congr hsent

theorem Tcpcb.Steadfast.congr (h : tp.Steadfast) (hcore : tp'.core.timeless = tp.core.timeless) :
    tp'.Steadfast := by
  have hsent : tp'.sent = tp.sent := congrArg Core.sent hcore
  have hstate : tp'.tState = tp.tState := congrArg Core.tState hcore
  have hgone : tp'.gone = tp.gone := congrArg Core.gone hcore
  have htemplate : tp'.template = tp.template := congrArg Core.template hcore
  refine ⟨h.toFaithful.congr hcore, ?_, ?_⟩
  · rw [hstate, hgone, htemplate]
    exact fun hst hg => (h.closed hst hg).imp_right (·.congr hsent)
  · rw [hstate, htemplate]
    exact fun hst => (h.listen hst).imp_right (·.congr hsent)

/-! ## What changes the timers only -/

theorem timeless_of_negotiates (h : Negotiates tp tp') : tp'.core.timeless = tp.core.timeless := by
  obtain ⟨t, rfl, -⟩ := h
  rfl

section

variable (tp)

theorem timeless_retreat : tp.retreat.core.timeless = tp.core.timeless := by
  have hunpersist : tp.unpersist.core.timeless = tp.core.timeless := by
    unfold Tcpcb.unpersist
    split <;> rfl
  unfold Tcpcb.retreat
  split
  · exact hunpersist
  · exact hunpersist

theorem tcpSetpersist_timeless :
    Ends (fun _ => True) (fun tp' => tp'.core.timeless = tp.core.timeless) (tcpSetpersist tp) := by
  unfold tcpSetpersist
  split
  · trivial
  · rfl

theorem rest_timeless :
    Ends (fun _ => True) (fun tp' => tp'.core.timeless = tp.core.timeless) tp.rest := by
  unfold Tcpcb.rest
  split
  · exact tcpSetpersist_timeless _
  · rfl

/-- Noting a segment leaves the offers and the receive side alone. -/
theorem kept_note (p : Plan) :
    (tp.dragUp.note p).core.timeless = tp.core.timeless ∧
      (tp.dragUp.note p).toTcprcv = tp.toTcprcv := by
  have hdrag : tp.dragUp.core.timeless = tp.core.timeless ∧
      tp.dragUp.toTcprcv = tp.toTcprcv := by
    unfold Tcpcb.dragUp
    split <;> exact ⟨rfl, rfl⟩
  have hraise (tp : Tcpcb) (startseq : BitVec 32) :
      (tp.raise startseq).core.timeless = tp.core.timeless ∧
        (tp.raise startseq).toTcprcv = tp.toTcprcv := by
    unfold Tcpcb.raise
    split_ifs <;> exact ⟨rfl, rfl⟩
  have hstart (tp : Tcpcb) : tp.startRexmt.core.timeless = tp.core.timeless ∧
      tp.startRexmt.toTcprcv = tp.toTcprcv := by
    unfold Tcpcb.startRexmt
    split_ifs <;> exact ⟨rfl, rfl⟩
  unfold Tcpcb.note
  split_ifs
  · rw [(hstart _).1, (hstart _).2, (hraise _ _).1, (hraise _ _).2]
    exact hdrag
  · exact hdrag
  · exact hdrag

theorem timeless_note (p : Plan) :
    (tp.dragUp.note p).core.timeless = tp.core.timeless := (kept_note tp p).1

theorem timeless_restartRexmt (all : Bool) :
    (tp.restartRexmt all).core.timeless = tp.core.timeless := by
  unfold Tcpcb.restartRexmt
  split_ifs <;> rfl

end

end Congr

/-! ## Every event keeps the invariant -/

section Events

variable {tp : Tcpcb} {p : Plan}

/-- What `tcp_output` has sent. -/
theorem sent_noted (tp : Tcpcb) (p : Plan) (win : ℤ) (data : List (BitVec 8)) (ok : Bool) :
    (tp.noted p win data ok).sent = tp.segment p win data ok :: tp.sent := by
  have hsent : (tp.dragUp.note p).sent = tp.sent := congrArg Core.sent (timeless_note tp p)
  exact congrArg _ hsent

theorem offers_segment (tp : Tcpcb) (p : Plan) (win : ℤ) (data : List (BitVec 8)) (ok : Bool) :
    (tp.segment p win data ok).offers = (ok && !has p.flags TH_SYN) := by
  have hsyn := has_segment tp p win data ok (show TH_PUSH &&& TH_SYN = 0 by decide) (by decide)
  rw [Sent.offers, hsyn]
  simp [Tcpcb.segment]

theorem Tcpcb.Faithful.noted (h : tp.Faithful) (win : ℤ) (data : List (BitVec 8)) :
    (tp.noted p win data false).Faithful := by
  have hcore := timeless_note tp p
  have hoffers := offers_segment tp p win data false
  refine ⟨h.offered.skip hoffers (congrArg Core.rcvAdv hcore) (congrArg Core.rcvScale hcore)
    (sent_noted tp p win data false), fun hsyn => ?_⟩
  have hstate : (tp.noted p win data false).tState = tp.tState := congrArg Core.tState hcore
  exact (h.silent (hstate ▸ hsyn)).cons hoffers (sent_noted tp p win data false)

/-- **A segment is sent.**  In the states that send a SYN it does not offer a window; in the
others it does, and `rcv_adv` follows. -/
theorem Tcpcb.Faithful.handed (h : tp.Faithful) (hsyn : has p.flags TH_SYN = tp.tState.sendsSyn)
    (win : ℤ) (data : List (BitVec 8)) :
    ((tp.noted p win data true).sentOk (tp.offer win)).Faithful := by
  have hcore := timeless_note tp p
  have hoffers := offers_segment tp p win data true
  have hsent := sent_noted tp p win data true
  have hstate : (tp.dragUp.note p).tState = tp.tState := congrArg Core.tState hcore
  have hadv : ((tp.noted p win data true).sentOk (tp.offer win)).rcvAdv =
      (tp.sentOk (tp.offer win)).rcvAdv := by
    have hnxt : (tp.dragUp.note p).rcvNxt = tp.rcvNxt := congrArg Tcprcv.rcvNxt (kept_note tp p).2
    have hsame : (tp.dragUp.note p).rcvAdv = tp.rcvAdv := congrArg Core.rcvAdv hcore
    simp only [Tcpcb.sentOk, Tcpcb.noted, Tcpcb.log, hnxt, hsame]
  rw [hsyn] at hoffers
  cases hst : tp.tState.sendsSyn with
  | true =>
    rw [hst] at hoffers
    have hsilent : ((tp.noted p win data true).sentOk (tp.offer win)).Silent :=
      (h.silent hst).cons hoffers hsent
    exact ⟨hsilent.offered, fun _ => hsilent⟩
  | false =>
    rw [hst] at hoffers
    refine ⟨h.offered.offer hoffers (congrArg Core.rcvScale hcore) hsent ?_, ?_⟩
    · rw [hadv]
      exact sentOk_whole
    · intro hw
      have hback : (tp.dragUp.note p).tState.sendsSyn := hw
      rw [hstate, hst] at hback
      cases hback

/-- A connection that is dropped says so in the state `CLOSED`. -/
theorem dropping_output :
    KeptByOutput .any (fun _ => True) fun tp => tp.Faithful ∧ tp.tState = .closed where
  panics _ _ := trivial
  frame h core := ⟨h.1.congr (congrArg Core.timeless core), (congrArg Core.tState core).trans h.2⟩
  returns h := ⟨h.1.congr rfl, h.2⟩
  mss {tp} h offer route _ := by
    have core := timeless_of_negotiates (negotiates_tcpMss tp (offer.zeroExtend 32) route)
    exact ⟨h.1.congr core, (congrArg Core.tState core).trans h.2⟩
  retreat h := ⟨h.1.congr (timeless_retreat _), (tState_retreat _).trans h.2⟩
  rest h := (rest_timeless _).imp fun _ core =>
    ⟨h.1.congr core, (congrArg Core.tState core).trans h.2⟩
  noted h _ _ win data :=
    ⟨h.1.noted win data, (congrArg Core.tState (timeless_note _ _)).trans h.2⟩
  handed h _ hsyn win data :=
    ⟨h.1.handed hsyn win data, (congrArg Core.tState (timeless_note _ _)).trans h.2⟩

/-- Where there is a template, the connection has been opened. -/
theorem Tcpcb.Steadfast.sends (h : tp.Steadfast) (htemplate : tp.template = true)
    (h' : tp'.Faithful) (hstate : tp'.tState = tp.tState) (hgone : tp'.gone = tp.gone) :
    tp'.Steadfast :=
  ⟨h', fun hst hg => (nomatch htemplate.symm.trans (h.closed (hstate ▸ hst) (hgone ▸ hg)).1),
    fun hst => (nomatch htemplate.symm.trans (h.listen (hstate ▸ hst)).1)⟩

theorem steadfast_output : KeptByOutput .any (fun _ => True) Tcpcb.Steadfast where
  panics _ _ := trivial
  frame h core := h.congr (congrArg Core.timeless core)
  returns h := h.congr rfl
  mss h _ _ _ := h.congr (timeless_of_negotiates (negotiates_tcpMss _ _ _))
  retreat h := h.congr (timeless_retreat _)
  rest h := (rest_timeless _).imp fun _ core => h.congr core
  noted h htemplate _ win data := h.sends htemplate (h.noted win data)
    (congrArg Core.tState (timeless_note _ _)) (congrArg Core.gone (timeless_note _ _))
  handed h htemplate hsyn win data := h.sends htemplate (h.handed hsyn win data)
    (congrArg Core.tState (timeless_note _ _)) (congrArg Core.gone (timeless_note _ _))

/-- A connection that has not offered anything yet. -/
theorem Tcpcb.Silent.steadfast (h : tp.Silent) (hsent : tp'.sent = tp.sent)
    (hsyn : tp'.tState.sendsSyn) : tp'.Steadfast := by
  have h' := h.congr hsent
  refine ⟨⟨h'.offered, fun _ => h'⟩, fun hst => ?_, fun hst => ?_⟩
  · rw [hst] at hsyn
    cases hsyn
  · rw [hst] at hsyn
    cases hsyn

theorem established_le_num {st : TState} (h : TState.established.num ≤ st.num) :
    st.sendsSyn = false ∧ st ≠ .closed ∧ st ≠ .listen := by
  revert h
  cases st <;> decide

/-- A connection that has been established. -/
theorem Tcpcb.Offered.steadfast (h : tp'.Offered)
    (hst : TState.established.num ≤ tp'.tState.num) : tp'.Steadfast := by
  obtain ⟨hsyn, hclosed, hlisten⟩ := established_le_num hst
  refine ⟨⟨h, fun hw => ?_⟩, fun hw => absurd hw hclosed, fun hw => absurd hw hlisten⟩
  rw [hsyn] at hw
  cases hw

theorem Tcpcb.Steadfast.skip (h : tp.Steadfast) (hx : x.offers = false) : (tp.log x).Steadfast :=
  ⟨⟨h.offered.skip hx rfl rfl rfl, fun hst => (h.silent hst).cons hx rfl⟩,
    fun hst hg => (h.closed hst hg).imp_right (·.cons hx rfl),
    fun hst => (h.listen hst).imp_right (·.cons hx rfl)⟩

/-- **A keep-alive probe** is sent in states that have offered before, and does not change
`rcv_adv`. -/
theorem Tcpcb.Steadfast.probe (h : tp.Steadfast) (hst : TState.established.num ≤ tp.tState.num)
    (win : ℤ) (ok : Bool) : (tp.log (tp.probe win ok)).Steadfast := by
  cases hoffers : (tp.probe win ok).offers with
  | false => exact h.skip hoffers
  | true =>
    have hoffered : (tp.log (tp.probe win ok)).Offered := by
      refine h.offered.offer hoffers rfl rfl fun ⟨hspace, _, hnonneg, hle, hprobe⟩ => ?_
      have hmet : win = dist tp.rcvAdv (tp.probe win ok).ack := hprobe rfl
      have hedge : (tp.probe win ok).edge tp.rcvScale = tp.rcvAdv := by
        rw [edge_of_whole rfl hspace (hmet ▸ hnonneg) (hmet ▸ hle)]
        conv_lhs => rw [hmet]
        exact pos_dist _ _
      rw [hedge, dist_same]
      exact ⟨rfl, le_rfl⟩
    exact hoffered.steadfast hst

theorem Tcpcb.Steadfast.close (h : tp.Steadfast) {st : TState}
    (hst : st = tp.tState ∨ st = .closed) :
    ({ tp with tState := st, template := false, gone := true } : Tcpcb).Steadfast := by
  refine ⟨⟨h.offered.congr rfl rfl rfl, fun hw => ?_⟩, nofun, fun hw => ?_⟩
  · rcases hst with rfl | rfl
    · exact (h.silent hw).congr rfl
    · cases hw
  · rcases hst with rfl | rfl
    · exact ⟨rfl, (h.listen hw).2.congr rfl⟩
    · cases hw

theorem steadfast_drop (h : tp.Steadfast) {ts : List Turn} (hts : World.any.Turns ts) :
    Ends (orStarved fun _ => True)
      (fun tp' => ({ tp' with template := false, gone := true } : Tcpcb).Steadfast)
      (outputs { tp with tState := .closed } ts) := by
  have hclosed : ({ tp with tState := .closed } : Tcpcb).Faithful :=
    ⟨h.offered.congr rfl rfl rfl, nofun⟩
  refine (dropping_output.outputs ⟨hclosed, rfl⟩ hts).imp ?_
  rintro tp' ⟨hfaithful, hstate⟩
  refine ⟨⟨hfaithful.offered.congr rfl rfl rfl, fun hw => (hfaithful.silent hw).congr rfl⟩,
    nofun, fun hw => ?_⟩
  rw [hstate] at hw
  cases hw

/-- **Everything keeps the invariant of the offers.** -/
theorem kept_steadfast : Kept .any (fun _ => True) Tcpcb.Steadfast where
  toKeptByOutput := steadfast_output
  unshift h := h.congr rfl
  restart h all := h.congr (timeless_restartRexmt _ all)
  stop h := h.congr rfl
  cancel h := h.congr rfl
  connect h hst hg := (h.closed hst hg).2.steadfast rfl rfl
  listen h hst _ := (h.listen hst).2.steadfast rfl rfl
  rcvseqinit h hsyn _ := (h.silent hsyn).steadfast rfl hsyn
  received h hsyn := (h.silent hsyn).steadfast rfl rfl
  scale h hsyn _ := (h.silent hsyn).steadfast rfl hsyn
  state h _ hst := Tcpcb.Offered.steadfast (h.offered.congr rfl rfl rfl) hst
  reset h x hx := h.skip (by simp [Sent.offers, hx])
  probe h hst win ok := h.probe hst win ok
  close h _ hst := h.close hst
  drop := steadfast_drop
  setMaxseg h _ _ _ := h.congr rfl
  setSndHiwat h _ _ _ := h.congr rfl
  tickRexmt h _ _ := h.congr rfl
  backOff h _ _ _ := h.congr rfl
  giveUp h _ := h.congr rfl
  tickPersist h _ _ := h.congr rfl
  setpersist h _ := (tcpSetpersist_timeless _).imp fun _ core => h.congr core

theorem steadfast_started (h : Started tp) : tp.Steadfast := by
  have hsilent : tp.Silent := by
    cases h with
    | active => exact nofun
    | passive => exact nofun
  refine ⟨⟨hsilent.offered, fun _ => hsilent⟩, fun _ _ => ⟨?_, hsilent⟩, fun _ => ⟨?_, hsilent⟩⟩
  · cases h <;> rfl
  · cases h <;> rfl

end Events

/-- **TCP does not shrink the window it has offered**, as long as it deals in whole units: on every
connection that events lead to, and whose segments without a SYN were all made when `sbspace` of
the receive buffer and `rcv_adv - rcv_nxt` were multiples of `2 ^ rcv_scale`, the latter neither
negative nor more than the field can say, and probes only when the two were equal, the edge never
moved left from one of the segments to the next. -/
theorem edge_never_retreats (tp : Tcpcb) (h : Reached tp)
    (hwhole : ∀ x ∈ tp.sent, x.offers → x.Whole tp.rcvScale) :
    tp.edges.IsChain fun later earlier => 0 ≤ dist later earlier :=
  ((kept_steadfast.reached (fun _ => steadfast_started) h).offered hwhole).1

/-- A socket with a receive buffer that takes a scale of 1 to tell, about to connect. -/
def wide : Tcpcb := tcpNewtcpcb true false 0 ⟨8192, 100000, false, false, false, false⟩

/-- A turn of `tcp_output` in which the mbufs do not limit the receive buffer. -/
def roomy : Turn := ⟨SB_MAX, none, true, none⟩

/-- The connection is opened with a scale, some bytes arrive, and their acknowledgement is
sent. -/
def delivers (data : List (BitVec 8)) : List Event :=
  [.connect 0 [roomy],
    .input ⟨100, 1, TH_SYN ||| TH_ACK, 4096, 0, [.window 0], .packet [], false⟩
      ⟨SB_MAX, none, true, 0⟩ [roomy],
    .input ⟨101, 1, TH_ACK, 4096, 0, [], .packet data, false⟩
      ⟨SB_MAX, none, true, 0⟩ [roomy],
    .fasttimo [roomy]]

/-- After two bytes the edge is where it was. -/
theorem edge_never_retreats_two : ∃ tp, Schedule.run step wide (delivers [7, 8]) = some tp ∧
    tp.rcvScale = 1 ∧ tp.edges = [100101, 100101] ∧
    tp.edges.IsChain fun later earlier => 0 ≤ dist later earlier := by
  refine ⟨_, rfl, rfl, rfl, edge_never_retreats _ ?_ (by decide +kernel)⟩
  exact ⟨wide, delivers [7, 8], .active _ _ _ _ (by decide) (by decide), rfl⟩

/-- **After one byte the edge moves left**: the window of 99999 bytes is rounded to 99998. -/
theorem edge_retreats : ∃ tp, Schedule.run step wide (delivers [7]) = some tp ∧
    tp.rcvScale = 1 ∧ tp.edges = [100100, 100101] ∧
    ¬ tp.edges.IsChain fun later earlier => 0 ≤ dist later earlier :=
  ⟨_, rfl, rfl, rfl, by decide +kernel⟩

end BSDLite2.Tcp
