import BSDLite2.Lib.Outcome
import BSDLite2.Netinet.TcpSndSide

/-!
# The sequence numbers of what is sent

`snd_una`, `snd_nxt` and `snd_max` are numbers modulo `2^32`, and so are the ends of the
segments; the code compares them by the signs of their differences.  `SndInv` says that they
never get far apart: `snd_nxt` and `snd_max` are at most what is in the send buffer ahead of
`snd_una`, and one more for a SYN or a FIN.  So all comparisons are those of positions.

* `SndInv` — the invariant;
* `Plan.Fits` — what `tcp_output` decides to send is within the buffer, and a FIN only
  follows the last byte;
* `Output` — what a call of `tcp_output` does to the send side;
* `note_spec` — what it notes of a segment keeps the invariant and covers the data.
-/

namespace BSDLite2.Tcp

open Serial Outcome

/-! ## The invariant -/

/-- How far `snd_max` may be ahead of `snd_una`, but for a FIN: what is in the buffer, or the
SYN. -/
def SndBase.sendable (v : SndBase) : ℤ :=
  if v.acked = 0 then max 1 v.soSnd.length else v.soSnd.length

/-- **The invariant of the send side.**  The distances are those of 32-bit numbers; that they are
small makes them the distances of positions (`SndInv.small`). -/
structure SndInv (v : SndSide) : Prop where
  hiwat : v.sndHiwat ≤ SB_MAX
  room : v.soSnd.length ≤ SB_MAX + 1024
  acked : 0 ≤ v.acked
  nxt_nonneg : 0 ≤ dist v.sndNxt v.sndUna
  nxt_le : dist v.sndNxt v.sndUna ≤ dist v.sndMax v.sndUna
  max_le : dist v.sndMax v.sndUna ≤ v.sendable + if v.sentfin then 1 else 0
  /-- until the connection is open there is nothing but the SYN -/
  syn : v.tState.sendsSyn → v.soSnd = [] ∧ v.sndUna = v.iss ∧ v.acked = 0 ∧ v.persist = 0
  /-- a FIN that has been sent is not acknowledged in the states that send it -/
  fin : v.sentfin → v.tState.sendsFin → v.soSnd.length + 1 ≤ dist v.sndMax v.sndUna
  /-- no FIN has been sent before the user has closed -/
  unsent : v.tState.isOpen → v.sentfin = false
  /-- nothing can be sent after a FIN -/
  shut : v.sentfin ∨ v.tState.sendsFin → v.cantSendMore

theorem SndBase.le_sendable (v : SndBase) : (v.soSnd.length : ℤ) ≤ v.sendable := by
  unfold SndBase.sendable
  split <;> omega

theorem SndBase.sendable_le (v : SndBase) : v.sendable ≤ v.soSnd.length + 1 := by
  unfold SndBase.sendable
  split <;> omega

/-- The positions are small. -/
theorem SndInv.small {v : SndSide} (h : SndInv v) :
    dist v.sndMax v.sndUna ≤ 263170 ∧ (v.soSnd.length : ℤ) ≤ 263168 := by
  have hmax := h.max_le
  have hroom := h.room
  have hle := v.sendable_le
  simp only [SB_MAX] at hroom
  constructor
  · split at hmax <;> omega
  · omega

/-! ## How much is sent -/

section Plan

variable {tp : Tcpcb}

theorem SndInv.places (h : SndInv tp.sndSide) : 0 ≤ dist tp.sndNxt tp.sndUna ∧
    dist tp.sndNxt tp.sndUna ≤ dist tp.sndMax tp.sndUna ∧ dist tp.sndMax tp.sndUna ≤ 263170 ∧
    (tp.soSnd.length : ℤ) ≤ 263168 :=
  ⟨h.nxt_nonneg, h.nxt_le, h.small⟩

theorem toNat_sndCc (h : SndInv tp.sndSide) : tp.sndCc.toNat = tp.soSnd.length := by
  obtain ⟨-, -, -, hcc⟩ := h.places
  exact Nat.mod_eq_of_lt (by omega)

/-- `off` as a number. -/
theorem off_eq (tp : Tcpcb) : tp.off = ulong (dist tp.sndNxt tp.sndUna) := by
  rw [Tcpcb.off, ulong, Serial.dist, BitVec.ofInt_toInt]

theorem toInt_ulong {x : ℤ} (hlo : -2 ^ 31 ≤ x) (hhi : x < 2 ^ 31) : (ulong x).toInt = x := by
  rw [ulong, BitVec.toInt_ofInt]
  exact Int.bmod_eq_of_le_mul_two (by omega) (by omega)

theorem toNat_ulong {x : ℤ} (hlo : 0 ≤ x) (hhi : x < 2 ^ 32) : (ulong x).toNat = x.toNat := by
  rw [ulong, BitVec.toNat_ofInt]
  congr 1
  exact Int.emod_eq_of_lt hlo (by omega)

theorem ulong_sub (x y : ℤ) : ulong x - ulong y = ulong (x - y) := by
  have h := pos_sub_pos (0 : BitVec 32) x y
  simpa [pos, ulong] using h

/-- **The length before it is limited**, if `snd_nxt` is not behind `snd_una`. -/
theorem rawLen_of_nonneg (hlo : 0 ≤ dist tp.sndNxt tp.sndUna) (hcc : tp.soSnd.length < 2 ^ 31) :
    tp.rawLen = min (tp.soSnd.length : ℤ) tp.forcedWin.toNat - dist tp.sndNxt tp.sndUna := by
  have hhi := (dist_bounds tp.sndNxt tp.sndUna).2
  have hmin : umin tp.sndCc tp.forcedWin =
      ulong (min (tp.soSnd.length : ℤ) tp.forcedWin.toNat) := by
    apply BitVec.eq_of_toNat_eq
    rw [toNat_umin, Tcpcb.sndCc, BitVec.toNat_ofNat, toNat_ulong (by omega) (by omega)]
    omega
  rw [Tcpcb.rawLen, hmin, off_eq, ulong_sub]
  exact toInt_ulong (by omega) (by omega)

theorem rawLen_eq (h : SndInv tp.sndSide) :
    tp.rawLen = min (tp.soSnd.length : ℤ) tp.forcedWin.toNat - dist tp.sndNxt tp.sndUna := by
  obtain ⟨hn, -, -, hcc⟩ := h.places
  exact rawLen_of_nonneg hn (by omega)

theorem sndUna_add_sndCc (tp : Tcpcb) : tp.sndUna + tp.sndCc = pos tp.sndUna tp.soSnd.length := by
  rw [Tcpcb.sndCc, pos, BitVec.ofInt_natCast]

theorem sndNxt_add (tp : Tcpcb) (n : ℤ) :
    tp.sndNxt + ulong n = pos tp.sndUna (dist tp.sndNxt tp.sndUna + n) := by
  rw [← pos_add_ofInt, pos_dist, ulong]

section

variable {v w : SndSide} (h : SndInv v) (base : w.toSndBase = v.toSndBase)
  (hiwat : w.sndHiwat ≤ SB_MAX) (persist : w.persist = v.persist ∨ w.persist = 0)
  (nonneg : 0 ≤ dist w.sndNxt v.sndUna)

include h base hiwat persist nonneg

/-- `snd_nxt` and `snd_max` in any place between. -/
theorem SndInv.set (sentfin : v.sentfin → w.sentfin)
    (le : dist w.sndNxt v.sndUna ≤ dist w.sndMax v.sndUna)
    (grows : dist v.sndMax v.sndUna ≤ dist w.sndMax v.sndUna)
    (max_le : dist w.sndMax v.sndUna ≤ v.sendable + if w.sentfin then 1 else 0)
    (fin : w.sentfin → v.sentfin = false → v.tState.sendsFin ∧
      v.soSnd.length + 1 ≤ dist w.sndMax v.sndUna) : SndInv w := by
  obtain ⟨wbase, _, _, _, _, _, _, _, _, _, _, _⟩ := w
  obtain rfl : wbase = v.toSndBase := base
  refine ⟨hiwat, h.room, h.acked, nonneg, le, max_le, fun hsyn => ?_, fun hw hst => ?_,
    fun hopen => ?_, ?_⟩
  · obtain ⟨hnil, huna, hacked, hp⟩ := h.syn hsyn
    exact ⟨hnil, huna, hacked, persist.elim (fun he => he.trans hp) id⟩
  · cases hv : v.sentfin with
    | true => exact (h.fin hv hst).trans grows
    | false => exact (fin hw hv).2
  · by_contra hw
    have hfin := (fin (by simpa using hw) (h.unsent hopen)).1
    exact absurd (not_isOpen_of_sendsFin hfin) (by simpa using hopen)
  · rintro (hw | hst)
    · cases hv : v.sentfin with
      | true => exact h.shut (.inl hv)
      | false => exact h.shut (.inr (fin hw hv).1)
    · exact h.shut (.inr hst)

theorem SndInv.setNxt (sentfin : w.sentfin = v.sentfin) (max : w.sndMax = v.sndMax)
    (le : dist w.sndNxt v.sndUna ≤ dist v.sndMax v.sndUna) : SndInv w := by
  refine h.set base hiwat persist nonneg (fun hv => sentfin.trans hv) (max ▸ le) (max ▸ le_rfl) ?_
    fun hw hv => ?_
  · rw [max, sentfin]
    exact h.max_le
  · rw [sentfin, hv] at hw
    cases hw

end

/-- `snd_una` is in between. -/
theorem SndInv.una_le {v : SndSide} (h : SndInv v) : 0 ≤ dist v.sndMax v.sndUna :=
  h.nxt_nonneg.trans h.nxt_le

theorem inv_retreat (h : SndInv tp.sndSide) : SndInv tp.retreat.sndSide := by
  unfold Tcpcb.retreat Tcpcb.unpersist
  split_ifs
  · exact h.setNxt rfl h.hiwat (.inr rfl) (dist_same _).ge rfl rfl ((dist_same _).trans_le h.una_le)
  · exact h.setNxt rfl h.hiwat (.inl rfl) (dist_same _).ge rfl rfl ((dist_same _).trans_le h.una_le)
  · exact h.setNxt rfl h.hiwat (.inr rfl) h.nxt_nonneg rfl rfl h.nxt_le
  · exact h

/-- **A plan fits** the connection: the data is in the buffer, a FIN follows the last byte of
it, and a SYN is sent in the states for it. -/
structure Plan.Fits (p : Plan) (tp : Tcpcb) : Prop where
  nonneg : 0 ≤ p.len
  within : p.len = 0 ∨ p.off = tp.off ∧ dist tp.sndNxt tp.sndUna + p.len ≤ tp.soSnd.length
  fin : has p.flags TH_FIN → tp.tState.sendsFin ∧
    tp.soSnd.length ≤ dist tp.sndNxt tp.sndUna + p.len
  syn : has p.flags TH_SYN = tp.tState.sendsSyn
  /-- a probe into a closed window has data or a FIN, not both -/
  probe : tp.force → tp.persist ≠ 0 → has p.flags TH_FIN → p.len = 0
  /-- there is another turn only if there is data for it -/
  more : p.sendalot → dist tp.sndNxt tp.sndUna < tp.soSnd.length

theorem planLen_nonneg (tp : Tcpcb) : 0 ≤ tp.planLen := by
  unfold Tcpcb.planLen
  omega

theorem planLen_le (tp : Tcpcb) : tp.planLen ≤ max tp.rawLen 0 := by
  unfold Tcpcb.planLen
  omega

theorem seqLT_end (h : SndInv tp.sndSide) {n : ℤ} (hlo : 0 ≤ n) (hhi : n ≤ tp.soSnd.length) :
    seqLT (tp.sndNxt + ulong n) (tp.sndUna + tp.sndCc) =
      decide (dist tp.sndNxt tp.sndUna + n < tp.soSnd.length) := by
  obtain ⟨hn, hle, hmax, hcc⟩ := h.places
  rw [seqLT, sndNxt_add, sndUna_add_sndCc, dist_pos_pos _ (by omega) (by omega)]
  exact decide_eq_decide.mpr (by omega)

theorem planLen_le_length (h : SndInv tp.sndSide) : tp.planLen ≤ tp.soSnd.length := by
  have hraw := rawLen_eq h
  have hn := h.places.1
  have hlen := planLen_le tp
  omega

theorem sndNxt_retreat (tp : Tcpcb) : tp.retreat.sndNxt = tp.sndNxt ∨
    tp.retreat.sndNxt = tp.sndUna ∧ tp.planLen = 0 := by
  unfold Tcpcb.retreat
  split
  · next hret =>
      refine .inr ⟨rfl, ?_⟩
      unfold Tcpcb.planLen
      omega
  · left
    unfold Tcpcb.unpersist
    split <;> rfl

theorem sndNxt_retreat_of_nonneg (tp : Tcpcb) (h : 0 ≤ tp.rawLen) :
    tp.retreat.sndNxt = tp.sndNxt := by
  unfold Tcpcb.retreat
  rw [if_neg fun hback => absurd hback.1 (not_lt.mpr h)]
  unfold Tcpcb.unpersist
  split <;> rfl

theorem base_retreat (tp : Tcpcb) : tp.retreat.sndSide.toSndBase = tp.sndSide.toSndBase := by
  unfold Tcpcb.retreat Tcpcb.unpersist
  split_ifs <;> rfl

/-- A connection that still persists when it is forced to send has no window. -/
theorem sendWin_of_persist (tp : Tcpcb) (hforce : tp.force) (hpersist : tp.retreat.persist ≠ 0) :
    tp.sendWin = 0 := by
  by_contra hwin
  apply hpersist
  unfold Tcpcb.retreat Tcpcb.unpersist
  split_ifs <;> simp_all

theorem off_lt_iff (h : SndInv tp.sndSide) :
    tp.off < tp.sndCc ↔ dist tp.sndNxt tp.sndUna < tp.soSnd.length := by
  obtain ⟨hn, hle, hmax, hcc⟩ := h.places
  rw [BitVec.lt_def, toNat_sndCc h, off_eq, toNat_ulong hn (by omega)]
  omega

theorem has_forcedFlags_fin (h : SndInv tp.sndSide) (hfin : has tp.forcedFlags TH_FIN) :
    tp.tState.sendsFin ∧ (tp.force → tp.sendWin = 0 →
      (tp.soSnd.length : ℤ) ≤ dist tp.sndNxt tp.sndUna) := by
  unfold Tcpcb.forcedFlags at hfin
  split at hfin
  · simp at hfin
  · next hnot =>
      refine ⟨by simpa using hfin, fun hforce hwin => ?_⟩
      rw [off_lt_iff h] at hnot
      simp only [hforce, hwin, true_and, not_lt] at hnot
      exact hnot

theorem plan_fits (h : SndInv tp.sndSide) : tp.plan.Fits tp.retreat := by
  have hraw := rawLen_eq h
  have hlen := planLen_le tp
  have hlen0 := planLen_nonneg tp
  have hbase := base_retreat tp
  obtain ⟨hstate, hforce, -, huna, -, hsnd, -⟩ := SndBase.mk.inj hbase
  have hend := seqLT_end (inv_retreat h) hlen0 (hsnd ▸ planLen_le_length h)
  rw [huna, hsnd] at hend
  have hcc : tp.retreat.sndCc = tp.sndCc := by rw [Tcpcb.sndCc, Tcpcb.sndCc, hsnd]
  rw [hcc] at hend
  have hfinOf : has tp.plan.flags TH_FIN → has tp.forcedFlags TH_FIN ∧
      (tp.soSnd.length : ℤ) ≤ dist tp.retreat.sndNxt tp.sndUna + tp.planLen := by
    intro hfin
    simp only [Tcpcb.plan] at hfin
    rw [hend] at hfin
    split at hfin
    · simp at hfin
    · next hnot => exact ⟨hfin, by simpa using hnot⟩
  refine ⟨hlen0, ?_, fun hfin => ?_, ?_, fun hf hp hfin => ?_, fun hmore => ?_⟩
  · by_cases hzero : tp.planLen = 0
    · exact .inl hzero
    · have hnxt : tp.retreat.sndNxt = tp.sndNxt :=
        (sndNxt_retreat tp).resolve_right fun hr => hzero hr.2
      refine .inr ⟨?_, ?_⟩
      · simp only [Tcpcb.plan, Tcpcb.off, hnxt, huna]
      · rw [hnxt, huna, hsnd]
        show _ + tp.planLen ≤ _
        omega
  · obtain ⟨hforced, hle⟩ := hfinOf hfin
    rw [hstate, hsnd, huna]
    exact ⟨(has_forcedFlags_fin h hforced).1, hle⟩
  · rw [hstate]
    simp only [Tcpcb.plan]
    split <;> simp [has_forcedFlags_syn]
  · rw [hforce] at hf
    obtain ⟨-, hdone⟩ := has_forcedFlags_fin h (hfinOf hfin).1
    have hoff := hdone hf (sendWin_of_persist tp hf hp)
    show tp.planLen = 0
    omega
  · have hpos : 0 < tp.rawLen := by
      have : max tp.rawLen 0 > tp.maxseg := by simpa [Tcpcb.plan] using hmore
      omega
    have hnxt : tp.retreat.sndNxt = tp.sndNxt := sndNxt_retreat_of_nonneg tp hpos.le
    rw [hnxt, huna, hsnd]
    omega

end Plan

/-! ## What is noted of a segment -/

section Note

variable {tp : Tcpcb} {p : Plan}

theorem sndSide_tcpMss (tp : Tcpcb) (offer : BitVec 32) (route : Option Route) :
    ∃ rxtcur rttmin sndHiwat, (tp.sndHiwat ≤ SB_MAX → sndHiwat ≤ SB_MAX) ∧
      (tcpMss tp offer route).sndSide =
        { tp.sndSide with rxtcur := rxtcur, rttmin := rttmin, sndHiwat := sndHiwat } := by
  obtain ⟨t, ht, hle⟩ := negotiates_tcpMss tp offer route
  exact ⟨_, _, _, hle, by rw [ht]; rfl⟩

theorem Plan.Fits.not_fin (hfits : p.Fits tp) (hsyn : has p.flags TH_SYN) :
    ¬ has p.flags TH_FIN := by
  rw [hfits.syn] at hsyn
  intro hfin
  simpa [not_sendsFin_of_sendsSyn hsyn] using (hfits.fin hfin).1

/-- **A SYN** goes back to `iss`, which is where `snd_una` is. -/
theorem inv_prepareSyn (h : SndInv tp.sndSide) (hfits : p.Fits tp) (route : Option Route) :
    SndInv (tp.prepareSyn p.flags route).sndSide ∧ p.Fits (tp.prepareSyn p.flags route) ∧
      (∃ nxt rxtcur rttmin sndHiwat, (tp.prepareSyn p.flags route).sndSide = { tp.sndSide with
        sndNxt := nxt, rxtcur := rxtcur, rttmin := rttmin, sndHiwat := sndHiwat }) ∧
      (has p.flags TH_SYN → dist (tp.prepareSyn p.flags route).sndNxt tp.sndUna = 0) := by
  unfold Tcpcb.prepareSyn
  split
  · next hflag =>
      have hsyn := hflag
      rw [hfits.syn] at hsyn
      obtain ⟨hnil, huna, hacked, hpersist⟩ := h.syn hsyn
      have hempty : tp.soSnd.length = 0 := List.length_eq_zero_iff.mpr hnil
      have hn := h.places.1
      have hlen : p.len = 0 := by
        have hw := hfits.within
        have h0 := hfits.nonneg
        omega
      have hback : dist tp.iss tp.sndUna = 0 := by
        have huna : tp.sndUna = tp.iss := huna
        rw [huna, dist_same]
      have hlast : ¬ p.sendalot := by
        intro hmore
        have := hfits.more hmore
        omega
      have hsyn' := h.setNxt (w := { tp.sndSide with sndNxt := tp.iss }) rfl h.hiwat (.inl rfl)
        hback.ge rfl rfl (hback.trans_le h.una_le)
      split
      · exact ⟨hsyn', ⟨hfits.nonneg, .inl hlen, fun hf => absurd hf (hfits.not_fin hflag), hfits.syn,
          fun _ _ _ => hlen, fun hmore => absurd hmore hlast⟩, ⟨_, _, _, _, rfl⟩, fun _ => hback⟩
      · obtain ⟨rxtcur, rttmin, sndHiwat, hle, hside⟩ :=
          sndSide_tcpMss { tp with sndNxt := tp.iss } 0 route
        have hnxt : (tcpMss { tp with sndNxt := tp.iss } 0 route).sndNxt = tp.iss :=
          congrArg SndSide.sndNxt hside
        rw [hside, hnxt]
        refine ⟨hsyn'.setNxt rfl (hle h.hiwat) (.inl rfl) hsyn'.nxt_nonneg rfl rfl hsyn'.nxt_le, ?_,
          ⟨_, _, _, _, rfl⟩, fun _ => hback⟩
        refine ⟨hfits.nonneg, .inl hlen, fun hf => absurd hf (hfits.not_fin hflag), ?_,
          fun _ _ _ => hlen, fun hmore => absurd hmore hlast⟩
        rw [hfits.syn]
        exact (congrArg (fun v : SndSide => v.tState.sendsSyn) hside).symm
  · next hflag =>
      exact ⟨h, hfits, ⟨_, _, _, _, rfl⟩, fun hsyn => absurd hsyn hflag⟩

theorem Plan.Fits.fit (h : SndInv tp.sndSide) (hfits : p.Fits tp) : (tp.fit p).Fits tp := by
  unfold Tcpcb.fit
  split
  · next hcut =>
      obtain ⟨hn, -, -, hcc⟩ := h.places
      have hw := hfits.within
      have h0 := hfits.nonneg
      generalize BitVec.ofNat 32 tp.maxseg - BitVec.ofNat 32 (tp.optlen p.flags) = room at hcut ⊢
      have hlt : room.toNat < p.len.toNat := by
        have := BitVec.lt_def.mp hcut
        rwa [toNat_ulong h0 (by omega)] at this
      have hroom : room.toInt = room.toNat := BitVec.toInt_eq_toNat_of_lt (by omega)
      refine ⟨?_, ?_, ?_, ?_, ?_, fun _ => ?_⟩
      · show 0 ≤ room.toInt
        omega
      · show room.toInt = 0 ∨ p.off = tp.off ∧ _ + room.toInt ≤ _
        rcases hw with hw | ⟨hoff, hw⟩
        · omega
        · exact .inr ⟨hoff, by omega⟩
      · simp
      · simpa using hfits.syn
      · simp
      · omega
  · exact hfits

theorem length_copy {data : List (BitVec 8)} (h0 : 0 ≤ p.len) (hcopy : tp.copy p = some data) :
    (data.length : ℤ) = p.len := by
  unfold Tcpcb.copy at hcopy
  split_ifs at hcopy with hzero hbad
  · cases hcopy
    simp [hzero]
  · cases hcopy
    rw [not_or, not_or] at hbad
    obtain ⟨hoff, -, hend⟩ := hbad
    have hnat : p.off.toInt = p.off.toNat := by
      rw [BitVec.toInt_eq_toNat_cond] at hoff ⊢
      split_ifs at hoff ⊢ with hlt
      · rfl
      · omega
    rw [List.length_take, List.length_drop]
    omega

/-- **A segment is ready**: what is left of a plan that fits when the number of a FIN that is
sent again has been taken back. -/
structure Plan.Ready (p : Plan) (tp : Tcpcb) : Prop where
  nonneg : 0 ≤ p.len
  within : p.len = 0 ∨ dist tp.sndNxt tp.sndUna + p.len ≤ tp.soSnd.length
  fin : has p.flags TH_FIN → tp.tState.sendsFin ∧
    tp.soSnd.length ≤ dist tp.sndNxt tp.sndUna + p.len
  again : has p.flags TH_FIN → tp.sentfin →
    dist tp.sndNxt tp.sndUna + p.len + 1 ≤ dist tp.sndMax tp.sndUna
  syn : has p.flags TH_SYN = tp.tState.sendsSyn
  start : has p.flags TH_SYN → dist tp.sndNxt tp.sndUna = 0
  probe : tp.force → tp.persist ≠ 0 → has p.flags TH_FIN → p.len = 0
  more : p.sendalot → dist tp.sndNxt tp.sndUna < tp.soSnd.length

theorem sub_one_eq (tp : Tcpcb) : tp.sndNxt - 1 = pos tp.sndUna (dist tp.sndNxt tp.sndUna - 1) := by
  have h := sndNxt_add tp (-1)
  rw [← sub_eq_add_neg] at h
  rw [← h, BitVec.sub_eq_add_neg]
  rfl

theorem ready_refin (h : SndInv tp.sndSide) (hfits : p.Fits tp)
    (hstart : has p.flags TH_SYN → dist tp.sndNxt tp.sndUna = 0) :
    SndInv (tp.refin p.flags).sndSide ∧ p.Ready (tp.refin p.flags) := by
  obtain ⟨hn, hle, hmax, hcc⟩ := h.places
  have h0 := hfits.nonneg
  have hwithin : p.len = 0 ∨ dist tp.sndNxt tp.sndUna + p.len ≤ tp.soSnd.length :=
    hfits.within.imp_right And.right
  unfold Tcpcb.refin
  split
  · next hre =>
      obtain ⟨hfin, hsent, hnxt⟩ := hre
      obtain ⟨hstate, -⟩ := hfits.fin hfin
      have hunacked : tp.soSnd.length + 1 ≤ dist tp.sndMax tp.sndUna := h.fin hsent hstate
      have hlen : p.len = 0 := by
        rw [hnxt] at hwithin
        omega
      have hback : dist (tp.sndNxt - 1) tp.sndUna = dist tp.sndNxt tp.sndUna - 1 := by
        rw [sub_one_eq, dist_pos _ (by omega) (by omega)]
      rw [← hnxt] at hunacked
      have hback0 : 0 ≤ dist (tp.sndNxt - 1) tp.sndUna := by omega
      have hbackle : dist (tp.sndNxt - 1) tp.sndUna ≤ dist tp.sndMax tp.sndUna := by omega
      refine ⟨h.setNxt rfl h.hiwat (.inl rfl) hback0 rfl rfl hbackle, h0, .inl hlen, ?_, ?_,
        hfits.syn, fun hsyn => ?_, hfits.probe, fun hmore => ?_⟩
      · intro _
        refine ⟨hstate, ?_⟩
        show (tp.soSnd.length : ℤ) ≤ dist (tp.sndNxt - 1) tp.sndUna + p.len
        omega
      · intro _ _
        show dist (tp.sndNxt - 1) tp.sndUna + p.len + 1 ≤ dist tp.sndMax tp.sndUna
        omega
      · exact absurd hfin (hfits.not_fin hsyn)
      · have := hfits.more hmore
        omega
  · next hre =>
      refine ⟨h, h0, hwithin, hfits.fin, fun hfin hsent => ?_, hfits.syn, hstart, hfits.probe,
        hfits.more⟩
      have hunacked : tp.soSnd.length + 1 ≤ dist tp.sndMax tp.sndUna :=
        h.fin hsent (hfits.fin hfin).1
      have hne : dist tp.sndNxt tp.sndUna ≠ dist tp.sndMax tp.sndUna := by
        intro heq
        refine hre ⟨hfin, hsent, ?_⟩
        rw [← pos_dist tp.sndNxt tp.sndUna, heq, pos_dist]
      omega

/-- `snd_max` follows `snd_nxt`. -/
theorem sndMax_raise {una : BitVec 32} {x y : ℤ} (hnxt : tp.sndNxt = pos una x)
    (hmax : tp.sndMax = pos una y) (hx : 0 ≤ x ∧ x < 2 ^ 30) (hy : 0 ≤ y ∧ y < 2 ^ 30)
    (startseq : BitVec 32) : (tp.raise startseq).sndMax = pos una (max y x) := by
  have hgt : seqGT tp.sndNxt tp.sndMax = decide (y < x) := by
    rw [seqGT, hnxt, hmax, dist_pos_pos _ (by omega) (by omega)]
    exact decide_eq_decide.mpr (by omega)
  unfold Tcpcb.raise
  rw [hgt]
  by_cases hlt : y < x
  · rw [decide_eq_true hlt, if_pos rfl, max_eq_right hlt.le, ← hnxt]
    split <;> rfl
  · rw [decide_eq_false hlt, max_eq_left (not_lt.mp hlt), ← hmax]
    rfl

/-- **What `tcp_output` does** to the send side: it leaves its base alone, `snd_max` only moves
forward, a FIN that was sent stays sent, and the list of segments only grows. -/
structure Output (v w : SndSide) : Prop where
  base : w.toSndBase = v.toSndBase
  grows : dist v.sndMax v.sndUna ≤ dist w.sndMax v.sndUna
  sentfin : v.sentfin → w.sentfin
  sent : v.sent <:+ w.sent

theorem Output.refl (v : SndSide) : Output v v := ⟨rfl, le_rfl, id, List.suffix_rfl⟩

theorem Output.trans {v w x : SndSide} (h : Output v w) (h' : Output w x) : Output v x := by
  have huna : w.sndUna = v.sndUna := congrArg SndBase.sndUna h.base
  refine ⟨h'.base.trans h.base, h.grows.trans ?_, fun hf => h'.sentfin (h.sentfin hf),
    h.sent.trans h'.sent⟩
  have := h'.grows
  rwa [huna] at this

theorem seqLen_eq (flags : BitVec 8) (len : ℤ) :
    seqLen flags len = len + (if has flags TH_SYN then 1 else 0) +
      if has flags TH_FIN then 1 else 0 := rfl

theorem raise_side (tp : Tcpcb) (startseq : BitVec 32) :
    (tp.raise startseq).sndSide =
      { tp.sndSide with sndMax := (tp.raise startseq).sndMax } := by
  unfold Tcpcb.raise
  split_ifs <;> rfl

theorem startRexmt_side (tp : Tcpcb) : ∃ rexmt persist rxtshift,
    (persist = tp.persist ∨ persist = 0) ∧ tp.startRexmt.sndSide =
      { tp.sndSide with rexmt := rexmt, persist := persist, rxtshift := rxtshift } := by
  unfold Tcpcb.startRexmt
  split_ifs
  · exact ⟨_, _, _, .inr rfl, rfl⟩
  · exact ⟨_, _, _, .inl rfl, rfl⟩
  · exact ⟨_, _, _, .inl rfl, rfl⟩

/-- The send side after a segment, in the transmit state. -/
theorem transmit_side (tp : Tcpcb) (p : Plan) : ∃ rexmt persist rxtshift,
    (persist = tp.persist ∨ persist = 0) ∧
      ((tp.advance p).raise tp.sndNxt).startRexmt.sndSide = { (tp.advance p).sndSide with
        sndMax := ((tp.advance p).raise tp.sndNxt).sndMax, rexmt := rexmt, persist := persist,
        rxtshift := rxtshift } := by
  have hraise := raise_side (tp.advance p) tp.sndNxt
  have hkept : ((tp.advance p).raise tp.sndNxt).persist = tp.persist :=
    congrArg SndSide.persist hraise
  obtain ⟨rexmt, persist, rxtshift, hp, hside⟩ := startRexmt_side ((tp.advance p).raise tp.sndNxt)
  rw [hraise] at hside
  exact ⟨rexmt, persist, rxtshift, hkept ▸ hp, hside⟩

theorem Plan.Ready.not_fin (r : p.Ready tp) (hsyn : has p.flags TH_SYN) :
    has p.flags TH_FIN = false := by
  rw [r.syn] at hsyn
  by_contra hfin
  have hstate := (r.fin (by simpa using hfin)).1
  rw [not_sendsFin_of_sendsSyn hsyn] at hstate
  cases hstate

/-- How far a segment that is ready reaches. -/
theorem Plan.Ready.reach (h : SndInv tp.sndSide) (r : p.Ready tp) :
    dist tp.sndNxt tp.sndUna + seqLen p.flags p.len ≤
      tp.sndSide.sendable + if tp.sentfin || has p.flags TH_FIN then 1 else 0 := by
  have hmax := h.max_le
  have hle := h.nxt_le
  have hcc := tp.sndSide.le_sendable
  have hw := r.within
  simp only [Tcpcb.sndSide] at hmax hle hcc ⊢
  rw [seqLen_eq]
  by_cases hsyn : has p.flags TH_SYN
  · -- a SYN takes the one number there is before the first acknowledgement
    have hstart := r.start hsyn
    rw [r.not_fin hsyn, if_pos hsyn]
    rw [r.syn] at hsyn
    obtain ⟨hnil, -, hacked, -⟩ := h.syn hsyn
    simp only [Tcpcb.sndSide] at hnil hacked
    simp only [SndBase.sendable, hacked, hnil, List.length_nil] at hcc hw ⊢
    split <;> simp_all
    omega
  · rw [if_neg hsyn]
    by_cases hfin : has p.flags TH_FIN
    · have hagain := r.again hfin
      by_cases hsent : tp.sentfin
      · have := hagain hsent
        simp only [hsent, hfin, Bool.or_self, if_true] at hmax ⊢
        omega
      · simp only [hsent, hfin, Bool.or_true, if_true, Bool.false_eq_true, if_false] at hmax ⊢
        omega
    · rw [Bool.not_eq_true] at hfin
      rw [hfin, Bool.or_false]
      by_cases hsent : tp.sentfin
      · simp only [hsent, if_true, Bool.false_eq_true, if_false] at hmax ⊢
        omega
      · simp only [hsent, Bool.false_eq_true, if_false] at hmax ⊢
        omega

theorem Plan.Ready.reach_nonneg (h : SndInv tp.sndSide) (r : p.Ready tp) :
    0 ≤ dist tp.sndNxt tp.sndUna + seqLen p.flags p.len := by
  have hn := h.places.1
  have h0 := r.nonneg
  rw [seqLen_eq]
  split_ifs <;> omega

/-- A FIN that is sent now follows all there is. -/
theorem Plan.Ready.behind (r : p.Ready tp) (hfin : has p.flags TH_FIN) :
    tp.soSnd.length + 1 ≤ dist tp.sndNxt tp.sndUna + seqLen p.flags p.len := by
  have hend := (r.fin hfin).2
  rw [seqLen_eq]
  split <;> omega

/-- **In the transmit state** the segment is noted with everything it carries. -/
theorem note_transmit (h : SndInv tp.sndSide) (r : p.Ready tp) {w : Tcpcb}
    (hw : w = ((tp.advance p).raise tp.sndNxt).startRexmt) :
    SndInv w.sndSide ∧ Output tp.sndSide w.sndSide ∧ w.sent = tp.sent ∧
      dist tp.sndNxt tp.sndUna + seqLen p.flags p.len ≤ dist w.sndMax tp.sndUna := by
  obtain ⟨hn, hle, hsmall, hcc⟩ := h.places
  have hmaxle := h.max_le
  have hsendable := tp.sndSide.sendable_le
  have hreach := r.reach h
  have hreach0 := r.reach_nonneg h
  have hadvance : (tp.advance p).sndNxt = _ := sndNxt_add tp (seqLen p.flags p.len)
  have hbehind := r.behind
  generalize dist tp.sndNxt tp.sndUna + seqLen p.flags p.len = x at *
  simp only [Tcpcb.sndSide] at hmaxle hsendable hreach
  have hxle : x < 2 ^ 30 := by split at hreach <;> omega
  -- both numbers are less than 2^30 ahead of `snd_una`, so that comparing them is safe
  have hraise := sndMax_raise hadvance (pos_dist tp.sndMax _).symm ⟨hreach0, hxle⟩
    ⟨hn.trans hle, by omega⟩ tp.sndNxt
  obtain ⟨rexmt, persist, rxtshift, hpersist, hside⟩ := transmit_side tp p
  rw [hraise, ← hw] at hside
  have hbase : w.sndSide.toSndBase = tp.sndSide.toSndBase := by rw [hside]; rfl
  have hnxt : dist w.sndNxt tp.sndUna = x := by
    rw [show w.sndNxt = pos tp.sndUna x from (congrArg SndSide.sndNxt hside).trans hadvance]
    exact dist_pos _ (by omega) (by omega)
  have hmax : dist w.sndMax tp.sndUna = max (dist tp.sndMax tp.sndUna) x := by
    rw [show w.sndMax = _ from congrArg SndSide.sndMax hside]
    exact dist_pos _ (by omega) (by omega)
  have hfin : w.sentfin = (tp.sentfin || has p.flags TH_FIN) := congrArg SndSide.sentfin hside
  have hkeep : tp.sentfin → w.sentfin := fun hf => by rw [hfin, hf, Bool.true_or]
  have hsent : w.sent = tp.sent := congrArg SndSide.sent hside
  have hgrows := (le_max_left _ _).trans_eq hmax.symm
  have hcovers := (le_max_right _ _).trans_eq hmax.symm
  refine ⟨h.set hbase ?_ ?_ (hreach0.trans_eq hnxt.symm) hkeep (hnxt.trans_le hcovers) hgrows ?_ ?_,
    ⟨hbase, hgrows, hkeep, ?_⟩, hsent, hcovers⟩
  · rw [hside]
    exact h.hiwat
  · rw [hside]
    exact hpersist
  · show dist w.sndMax tp.sndUna ≤ tp.sndSide.sendable + if w.sentfin then 1 else 0
    rw [hmax, hfin]
    refine max_le (hmaxle.trans (Int.add_le_add_left ?_ _)) hreach
    by_cases hsent : tp.sentfin
    · simp [hsent]
    · simp only [hsent, Bool.false_eq_true, if_false]
      split <;> simp
  · intro hf hnot
    have hflag : has p.flags TH_FIN := by
      have hf : w.sentfin := hf
      rwa [hfin, show tp.sentfin = false from hnot, Bool.false_or] at hf
    exact ⟨(r.fin hflag).1, (hbehind hflag).trans hcovers⟩
  · rw [show w.sndSide.sent = tp.sndSide.sent from hsent]

/-- **In the persist state** only the data is noted. -/
theorem note_persist (h : SndInv tp.sndSide) (r : p.Ready tp) {w : Tcpcb}
    (hw : w = if seqGT (tp.sndNxt + ulong p.len) tp.sndMax then
      { tp with sndMax := tp.sndNxt + ulong p.len } else tp) :
    SndInv w.sndSide ∧ Output tp.sndSide w.sndSide ∧ w.sent = tp.sent ∧
      dist tp.sndNxt tp.sndUna + p.len ≤ dist w.sndMax tp.sndUna := by
  obtain ⟨hn, hle, hsmall, hcc⟩ := h.places
  have hmaxle := h.max_le
  have hsendable := tp.sndSide.le_sendable
  have h0 := r.nonneg
  have hwithin := r.within
  simp only [Tcpcb.sndSide] at hsendable
  have hgt : seqGT (tp.sndNxt + ulong p.len) tp.sndMax =
      decide (dist tp.sndMax tp.sndUna < dist tp.sndNxt tp.sndUna + p.len) := by
    conv_lhs => rw [sndNxt_add, ← pos_dist tp.sndMax tp.sndUna]
    rw [seqGT, dist_pos_pos _ (by omega) (by omega)]
    exact decide_eq_decide.mpr (by omega)
  rw [hgt] at hw
  by_cases hlt : dist tp.sndMax tp.sndUna < dist tp.sndNxt tp.sndUna + p.len
  · rw [decide_eq_true hlt, if_pos rfl] at hw
    have hdist : dist w.sndMax tp.sndUna = dist tp.sndNxt tp.sndUna + p.len := by
      rw [hw]
      rw [sndNxt_add, dist_pos _ (by omega) (by omega)]
    have hbound : dist tp.sndNxt tp.sndUna + p.len ≤ tp.sndSide.sendable + 0 := by
      simp only [Tcpcb.sndSide]
      omega
    have hone : (0 : ℤ) ≤ if tp.sentfin = true then 1 else 0 := by split <;> simp
    subst hw
    refine ⟨?_, ⟨rfl, ?_, id, List.suffix_rfl⟩, rfl, hdist.ge⟩
    · refine h.set rfl h.hiwat (.inl rfl) h.nxt_nonneg id ?_ ?_ ?_ fun hf hnot => ?_
      · exact (by omega : dist tp.sndNxt tp.sndUna ≤ _).trans hdist.ge
      · exact hlt.le.trans hdist.ge
      · exact hdist.trans_le (hbound.trans (Int.add_le_add_left hone _))
      · exact absurd (hnot.symm.trans hf) (by simp)
    · exact hlt.le.trans hdist.ge
  · rw [decide_eq_false hlt] at hw
    subst hw
    exact ⟨h, Output.refl _, rfl, not_lt.mp hlt⟩

theorem sndSide_dragUp (tp : Tcpcb) : tp.dragUp.sndSide = tp.sndSide := by
  unfold Tcpcb.dragUp
  split <;> rfl

theorem Plan.Ready.congr {tp' : Tcpcb} (r : p.Ready tp) (hside : tp'.sndSide = tp.sndSide) :
    p.Ready tp' := by
  obtain ⟨hbase, -, hpersist, -, -, -, hsent, hnxt, hmax, -⟩ := SndSide.mk.inj hside
  obtain ⟨hstate, hforce, -, huna, -, hsnd, -⟩ := SndBase.mk.inj hbase
  constructor
  · exact r.nonneg
  · rw [hnxt, huna, hsnd]
    exact r.within
  · rw [hnxt, huna, hsnd, hstate]
    exact r.fin
  · rw [hnxt, huna, hmax, hsent]
    exact r.again
  · rw [hstate]
    exact r.syn
  · rw [hnxt, huna]
    exact r.start
  · rw [hforce, hpersist]
    exact r.probe
  · rw [hnxt, huna, hsnd]
    exact r.more

/-- **What is noted of a segment** covers its data, and all of it unless it is a probe. -/
theorem note_spec (h : SndInv tp.sndSide) (r : p.Ready tp) :
    SndInv (tp.note p).sndSide ∧ Output tp.sndSide (tp.note p).sndSide ∧
      (tp.note p).sent = tp.sent ∧
      dist tp.sndNxt tp.sndUna + p.len ≤ dist (tp.note p).sndMax tp.sndUna ∧
      (¬ (tp.force ∧ tp.persist ≠ 0) →
        dist tp.sndNxt tp.sndUna + seqLen p.flags p.len ≤ dist (tp.note p).sndMax tp.sndUna) := by
  unfold Tcpcb.note
  split
  · obtain ⟨hinv, hout, hsent, hreach⟩ := note_transmit h r rfl
    refine ⟨hinv, hout, hsent, le_trans ?_ hreach, fun _ => hreach⟩
    rw [seqLen_eq]
    split_ifs <;> omega
  · next hprobe =>
      obtain ⟨hinv, hout, hsent, hreach⟩ := note_persist h r rfl
      refine ⟨hinv, hout, hsent, hreach, fun hnot => absurd ?_ hnot⟩
      simpa using hprobe

end Note

end BSDLite2.Tcp
