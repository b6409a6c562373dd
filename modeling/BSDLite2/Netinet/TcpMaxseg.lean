import BSDLite2.Netinet.TcpTimers

/-!
# The segment size

`t_maxseg` is a divisor: the congestion window grows by fractions of it, and is halved in
whole segments.  `tcp_mss` keeps it at 32 or more, but then takes the limit of the send buffer
if that is smaller, and stores the result in a `u_short`.

* `Kept.ofSizes` — a property of the segment size and of the limit of the send buffer need only
  be kept by `tcp_mss` and by the options that set them;
* `maxseg_lt` — the size fits its field;
* `maxseg_pos` — it is positive, as long as no limit is 0 and no route is absurd;
* `maxseg_vanishes` — with a limit of 0 it becomes 0.
-/

namespace BSDLite2.Tcp

open Outcome BitVec Nat

/-! ## Properties of the sizes -/

/-- The segment size, and the limit of the send buffer. -/
def Tcpcb.sizes (tp : Tcpcb) : ℕ × ℕ := (tp.maxseg, tp.sndHiwat)

variable (tp : Tcpcb) (rt : Route)

theorem sizes_retreat : tp.retreat.sizes = tp.sizes := by
  have hunpersist : tp.unpersist.sizes = tp.sizes := by
    unfold Tcpcb.unpersist
    split <;> rfl
  unfold Tcpcb.retreat
  split
  · exact hunpersist
  · exact hunpersist

theorem tcpSetpersist_sizes :
    Ends (fun _ => True) (fun tp' => tp'.sizes = tp.sizes) (tcpSetpersist tp) := by
  unfold tcpSetpersist
  split
  · trivial
  · rfl

theorem rest_sizes : Ends (fun _ => True) (fun tp' => tp'.sizes = tp.sizes) tp.rest := by
  unfold Tcpcb.rest
  split
  · exact tcpSetpersist_sizes _
  · rfl

theorem sizes_dragUp : tp.dragUp.sizes = tp.sizes := by
  unfold Tcpcb.dragUp
  split <;> rfl

theorem sizes_startRexmt : tp.startRexmt.sizes = tp.sizes := by
  unfold Tcpcb.startRexmt
  split_ifs <;> rfl

theorem sizes_raise (startseq : BitVec 32) : (tp.raise startseq).sizes = tp.sizes := by
  unfold Tcpcb.raise
  split_ifs <;> rfl

theorem sizes_note (p : Plan) : (tp.dragUp.note p).sizes = tp.sizes := by
  refine Eq.trans ?_ (sizes_dragUp tp)
  unfold Tcpcb.note
  split_ifs
  · exact (sizes_startRexmt _).trans (sizes_raise _ _)
  · rfl
  · rfl

theorem sizes_restartRexmt (all : Bool) : (tp.restartRexmt all).sizes = tp.sizes := by
  unfold Tcpcb.restartRexmt
  split_ifs <;> rfl

section OfSizes

variable {w : World} {Q : ℕ × ℕ → Prop}
  (mss : ∀ {tp : Tcpcb}, Q tp.sizes → ∀ (offer : BitVec 16) {route : Option Route},
    w.Found route → Q (tcpMss tp (offer.zeroExtend 32) route).sizes)

include mss

/-- Nothing else in `tcp_output` changes the sizes. -/
theorem KeptByOutput.ofSizes : KeptByOutput w (fun _ => True) fun tp => Q tp.sizes where
  panics _ _ := trivial
  frame {tp tp'} h core := by
    have hsizes : tp'.sizes = tp.sizes := congrArg (fun c : Core => (c.maxseg, c.sndHiwat)) core
    rwa [hsizes]
  returns h := h
  mss := mss
  retreat {tp} h := by rwa [sizes_retreat]
  rest {tp} h := (rest_sizes tp).imp fun _ hsizes => hsizes ▸ h
  noted {tp p} h _ _ _ _ := (sizes_note tp p).symm ▸ h
  handed {tp p} h _ _ _ _ := (sizes_note tp p).symm ▸ h

/-- **A property of the sizes** is kept by everything if `tcp_mss` and the options of the socket
keep it. -/
theorem Kept.ofSizes
    (setMaxseg : ∀ {maxseg hiwat : ℕ}, Q (maxseg, hiwat) → ∀ {n : ℕ}, 0 < n → n ≤ maxseg →
      Q (n, hiwat))
    (setSndHiwat : ∀ {maxseg hiwat : ℕ}, Q (maxseg, hiwat) → ∀ {n : ℕ}, w.sndbuf n → n ≤ SB_MAX →
      Q (maxseg, n)) :
    Kept w (fun _ => True) fun tp => Q tp.sizes where
  toKeptByOutput := .ofSizes mss
  unshift h := h
  restart {tp} h all := by rwa [sizes_restartRexmt]
  stop h := h
  cancel h := h
  connect h _ _ := h
  listen h _ _ := h
  rcvseqinit h _ _ := h
  received h _ := h
  scale h _ _ := h
  state h _ _ := h
  reset h _ _ := h
  probe h _ _ _ := h
  close h _ _ := h
  drop {tp} h ts hts := by
    have k : KeptByOutput w (fun _ => True) fun tp => Q tp.sizes := .ofSizes mss
    have hclosed : Q ({ tp with tState := .closed } : Tcpcb).sizes := h
    exact k.outputs hclosed hts
  setMaxseg h _ := setMaxseg h
  setSndHiwat h _ := setSndHiwat h
  tickRexmt h _ _ := h
  backOff h _ _ _ := h
  giveUp h _ := h
  tickPersist h _ _ := h
  setpersist {tp} h _ := (tcpSetpersist_sizes _).imp fun _ hsizes => hsizes ▸ h

end OfSizes

/-! ## The size fits its field -/

theorem ushort_lt (x : ℤ) : ushort x < 2 ^ 16 := by
  unfold ushort
  omega

/-- What `tcp_mss` stores, from the limit of the send buffer, when it stores anything. -/
def storedSizes (hiwat : ℕ) (rt : Route) (mss : BitVec 32) : ℕ × ℕ :=
  if pipeOr rt.sendpipe hiwat < mss then (ushort (pipeOr rt.sendpipe hiwat).toInt, hiwat)
  else (ushort mss.toInt, sbreserve hiwat (pipeSize (pipeOr rt.sendpipe hiwat) mss))

theorem sizes_mssSnd (mss : BitVec 32) :
    (tp.mssSnd rt mss).1.sizes = storedSizes tp.sndHiwat rt mss := by
  unfold Tcpcb.mssSnd storedSizes
  split_ifs <;> rfl

theorem sizes_mssRcv (mss : BitVec 32) : (tp.mssRcv rt mss).sizes = tp.sizes := by
  unfold Tcpcb.mssRcv
  split <;> rfl

/-- **The sizes after `tcp_mss`.** -/
theorem sizes_tcpMss (offer : BitVec 32) (rt : Route) :
    (tcpMss tp offer (some rt)).sizes =
      if (rt.mss offer).toInt < tp.maxseg ∨ offer ≠ 0 then
        storedSizes tp.sndHiwat rt (rt.mss offer)
      else tp.sizes := by
  obtain ⟨timed, htimed⟩ : ∃ timed, timed =
      if tp.srtt = 0 ∧ rt.rtt ≠ 0 then (tp.routeTimes rt).routeRxtcur else tp := ⟨_, rfl⟩
  have hsizes : timed.sizes = tp.sizes := by
    rw [htimed]
    split <;> rfl
  have hmaxseg : timed.maxseg = tp.maxseg := congrArg Prod.fst hsizes
  have hhiwat : timed.sndHiwat = tp.sndHiwat := congrArg Prod.snd hsizes
  have hmss : (tcpMss tp offer (some rt)).sizes = (timed.mssSizes rt offer).1.sizes := by
    rw [htimed]
    rfl
  rw [hmss, Tcpcb.mssSizes, hmaxseg]
  split_ifs
  · exact (sizes_mssRcv _ rt _).trans ((sizes_mssSnd timed rt _).trans (by rw [hhiwat]))
  · exact hsizes

theorem storedSizes_fst_lt (hiwat : ℕ) (rt : Route) (mss : BitVec 32) :
    (storedSizes hiwat rt mss).1 < 2 ^ 16 := by
  unfold storedSizes
  split
  · exact ushort_lt _
  · exact ushort_lt _

theorem kept_narrow : Kept .any (fun _ => True) fun tp => tp.sizes.1 < 2 ^ 16 := by
  refine Kept.ofSizes (Q := fun s => s.1 < 2 ^ 16) ?_ ?_ ?_
  · intro tp h offer route _
    cases route with
    | none => exact h
    | some rt =>
      rw [sizes_tcpMss]
      split
      · exact storedSizes_fst_lt _ _ _
      · exact h
  · intro maxseg hiwat h n _ hn
    exact hn.trans_lt h
  · intro maxseg hiwat h n _ _
    exact h

/-- **The segment size is a `u_short`** on every connection that events lead to. -/
theorem maxseg_lt {tp : Tcpcb} (h : Reached tp) : tp.maxseg < 2 ^ 16 := by
  refine kept_narrow.reached (fun start hstart => ?_) h
  cases hstart <;> exact (by decide : TCP_MSSDFLT < 2 ^ 16)

/-! ## The size is positive -/

/-- A route that is not absurd: what it leaves for data is not negative, and its pipe is not
huge. -/
def Route.Fair (rt : Route) : Prop := 0 ≤ (rt.mss 0).toInt ∧ rt.sendpipe.toNat < 2 ^ 31

/-- A world in which no limit is 0 and no route is absurd. -/
def World.fair : World := ⟨Route.Fair, (· ≠ 0)⟩

/-- The sizes are positive, and fit their fields. -/
structure Sized (s : ℕ × ℕ) : Prop where
  seg_pos : 0 < s.1
  seg_lt : s.1 < 2 ^ 16
  buf_pos : 0 < s.2
  buf_le : s.2 ≤ SB_MAX

/-- The offer of the peer limits the size, but not below 32. -/
theorem mss_eq : ∃ base : BitVec 32, ∀ offer : BitVec 32,
    rt.mss offer = umax (if offer ≠ 0 then umin base offer else base) 32 :=
  ⟨_, fun _ => rfl⟩

/-- The size that a fair route gives is small, and not too small, when it is stored. -/
theorem mss_bounds {rt : Route} (hfair : rt.Fair) {offer : BitVec 16} {maxseg : ℕ}
    (hmaxseg : maxseg < 2 ^ 16)
    (htaken : (rt.mss (offer.zeroExtend 32)).toInt < maxseg ∨ offer.zeroExtend 32 ≠ 0) :
    32 ≤ (rt.mss (offer.zeroExtend 32)).toNat ∧ (rt.mss (offer.zeroExtend 32)).toNat < 2 ^ 16 := by
  obtain ⟨base, hmss⟩ := mss_eq rt
  have hoffer : (offer.zeroExtend 32).toNat < 2 ^ 16 := by
    rw [toNat_setWidth]
    omega
  have hlow : 32 ≤ (rt.mss (offer.zeroExtend 32)).toNat := by
    rw [hmss, toNat_umax]
    exact le_max_right _ _
  refine ⟨hlow, ?_⟩
  by_cases hzero : offer.zeroExtend 32 = 0
  · rw [hzero] at htaken ⊢
    have hsmall := htaken.resolve_right (not_not.mpr rfl)
    have hpos := hfair.1
    have hnat := toInt_eq_toNat_cond (rt.mss 0)
    split_ifs at hnat <;> omega
  · rw [hmss, if_pos hzero, toNat_umax, toNat_umin]
    have h32 : (32 : BitVec 32).toNat = 32 := rfl
    omega

theorem ushort_toInt {x : BitVec 32} (h : x.toNat < 2 ^ 16) : ushort x.toInt = x.toNat := by
  have hnat := toInt_eq_toNat_cond x
  rw [ushort]
  omega

/-- A pipe is rounded up. -/
theorem pipeSize_pos {bufsize mss : BitVec 32} (hmss : 0 < mss.toNat)
    (hle : mss.toNat ≤ bufsize.toNat)
    (hroom : bufsize.toNat + mss.toNat < 2 ^ 32) : 0 < (pipeSize bufsize mss).toNat := by
  have hpred : (mss - 1).toNat = mss.toNat - 1 := by
    have hone : (1 : BitVec 32) ≤ mss := le_def.mpr (succ_le_of_lt hmss)
    exact toNat_sub_of_le hone
  have hsum : (bufsize + (mss - 1)).toNat = bufsize.toNat + (mss.toNat - 1) := by
    rw [toNat_add, hpred, mod_eq_of_lt (by omega)]
  have hround : ((bufsize + (mss - 1)) / mss * mss).toNat =
      (bufsize.toNat + (mss.toNat - 1)) / mss.toNat * mss.toNat := by
    have hle := div_mul_le_self (bufsize.toNat + (mss.toNat - 1)) mss.toNat
    rw [toNat_mul, toNat_udiv, hsum, mod_eq_of_lt (by omega)]
  unfold pipeSize
  split
  · decide
  · rw [hround]
    refine mul_pos (div_pos (by omega) hmss) hmss

theorem pipeOr_toNat {pipe : BitVec 32} {hiwat : ℕ} (hpipe : pipe.toNat < 2 ^ 31)
    (hpos : 0 < hiwat) (hle : hiwat ≤ SB_MAX) :
    0 < (pipeOr pipe hiwat).toNat ∧ (pipeOr pipe hiwat).toNat < 2 ^ 31 := by
  unfold pipeOr
  split
  · rw [toNat_ofNat]
    simp only [SB_MAX] at hle
    omega
  · next hne =>
      refine ⟨pos_of_ne_zero fun h0 => hne (eq_of_toNat_eq h0), hpipe⟩

theorem storedSizes_sized {hiwat : ℕ} {rt : Route} {mss : BitVec 32} (hfair : rt.Fair)
    (hpos : 0 < hiwat) (hle : hiwat ≤ SB_MAX) (hlow : 32 ≤ mss.toNat) (hhigh : mss.toNat < 2 ^ 16) :
    Sized (storedSizes hiwat rt mss) := by
  obtain ⟨hpipe, hroom⟩ := pipeOr_toNat hfair.2 hpos hle
  unfold storedSizes
  split
  · next hlt =>
      rw [lt_def] at hlt
      rw [ushort_toInt (by omega)]
      exact ⟨hpipe, hlt.trans hhigh, hpos, hle⟩
  · next hge =>
      rw [lt_def, not_lt] at hge
      rw [ushort_toInt hhigh]
      refine ⟨(by omega : 0 < mss.toNat), hhigh, ?_, sbreserve_le _ hle⟩
      unfold sbreserve
      split
      · exact hpos
      · exact pipeSize_pos (by omega) hge (by omega)

theorem kept_sized : Kept .fair (fun _ => True) fun tp => Sized tp.sizes := by
  refine Kept.ofSizes ?_ ?_ ?_
  · intro tp h offer route hroute
    cases route with
    | none => exact h
    | some rt =>
      have hfair : rt.Fair := hroute rt rfl
      rw [sizes_tcpMss]
      split
      · next htaken =>
          obtain ⟨hlow, hhigh⟩ := mss_bounds hfair h.seg_lt htaken
          exact storedSizes_sized hfair h.buf_pos h.buf_le hlow hhigh
      · exact h
  · intro maxseg hiwat h n hpos hn
    exact ⟨hpos, hn.trans_lt h.seg_lt, h.buf_pos, h.buf_le⟩
  · intro maxseg hiwat h n hn hle
    exact ⟨h.seg_pos, h.seg_lt, pos_of_ne_zero hn, hle⟩

/-- **The segment size stays positive**, as long as the user sets no limit of 0 for the send
buffer and no route is absurd: in every state that is reached, and also when the options of
an arriving segment have been processed. -/
theorem maxseg_pos (start tp : Tcpcb) (events : List Event) (hstart : Started start)
    (hbuf : start.sndHiwat ≠ 0)
    (hwithin : ∀ e ∈ events, e.Within .fair) (hrun : Schedule.run step start events = some tp) :
    0 < tp.maxseg ∧ ∀ (syn : Bool) (route : Option Route) (opts : List Opt),
      World.fair.Found route → 0 < (tcpDooptions tp.wake syn route opts).1.maxseg := by
  have hsized : Sized start.sizes := by
    have hdflt : 0 < TCP_MSSDFLT ∧ TCP_MSSDFLT < 2 ^ 16 := by decide
    cases hstart with
    | active _ _ _ _ hsnd | passive _ _ _ _ hsnd =>
      exact ⟨hdflt.1, hdflt.2, pos_of_ne_zero hbuf, hsnd⟩
  have hend : Sized tp.sizes := kept_sized.along hsized (Schedule.along_of_forall hwithin start) hrun
  refine ⟨hend.seg_pos, fun syn route opts hroute => ?_⟩
  have hwake : Sized tp.wake.sizes := hend
  exact (kept_sized.dooptions hwake syn hroute opts).seg_pos

/-- The route to a neighbour on an Ethernet. -/
def ether : Route := ⟨0, false, 0, 0, 0, 0, 0, 1500, true⟩

theorem fair_ether : ether.Fair := ⟨by decide, by decide⟩

/-- A turn of `tcp_output` that finds this route. -/
def routed : Turn := ⟨16384, some ether, true, none⟩

/-- A connection is opened over it to a peer that offers segments of 1460 bytes. -/
def opensRouted : List Event :=
  [.connect 0 [routed],
    .input ⟨100, 1, TH_SYN ||| TH_ACK, 4096, 0, [.maxseg 1460], .packet [], false⟩
      ⟨16384, some ether, true, 0⟩ [routed]]

/-- With a buffer of the usual size the segments have the size that is offered. -/
theorem maxseg_pos_ether : ∃ tp, Schedule.run step opening opensRouted = some tp ∧
    tp.maxseg = 1460 ∧ 0 < tp.maxseg := by
  have hfound : World.fair.Found (some ether) := by
    intro rt hrt
    cases hrt
    exact fair_ether
  have hturns : World.fair.Turns [routed] := List.forall_mem_singleton.mpr hfound
  refine ⟨_, rfl, rfl, ?_⟩
  refine (maxseg_pos opening _ opensRouted (.active _ _ _ _ (by decide) (by decide)) (by decide) ?_
    rfl).1
  exact List.forall_mem_cons.mpr ⟨hturns, List.forall_mem_singleton.mpr ⟨hfound, hturns⟩⟩

/-- **With a send buffer of 0 the segment size becomes 0.**  The offer of the peer is limited to
the buffer after it has been raised to 32.  Then the user closes, the retransmission timer of
the FIN runs, and when it expires with the next tick, half of the window is divided by the
segment size. -/
theorem maxseg_vanishes : ∃ tp, Schedule.run step opening
      ([.setSndHiwat 0, .setRcvHiwat 0] ++ opensRouted ++ [.shutdown [routed]] ++
        List.replicate 2 (.slowtimo ⟨[], [], ⟨16384, true, true⟩, []⟩)) = some tp ∧
    tp.maxseg = 0 ∧ tp.rexmt = 1 :=
  ⟨_, rfl, rfl, rfl⟩

end BSDLite2.Tcp
