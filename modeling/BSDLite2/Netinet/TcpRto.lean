import BSDLite2.Lib.Schedule
import BSDLite2.Netinet.TcpConn

/-!
# The retransmission timeout

`t_rxtcur` is meant to be the estimate of the round-trip time and four times its deviation,
`TCP_REXMTVAL`, doubled with every retransmission, and kept between `t_rttmin` and
`TCPTV_REXMTMAX`.  Everything is computed in 16 bits: `TCPT_RANGESET` stores the value in a
`short` before it looks at its range, so that a timeout that is too long may become the
shortest one.

* `clamp`, `rangeset_eq` — what `TCPT_RANGESET` should do, and what it does;
* `Timing`, `retime` — measurements and retransmissions;
* `Tcpcb.Exact` — the timeout is the clamped product;
* `rto_exact_iff` — along every sequence of them it is, the averages are positive and the
  timeout never gets shorter by backing off, if and only if no product leaves the range of a
  `short` for one that is clamped elsewhere, and no first measurement does.
-/

namespace BSDLite2.Tcp

variable (tp : Tcpcb)

/-! ## Clamping -/

/-- A value kept in a range. -/
def clamp (lo hi x : ℤ) : ℤ := max lo (min x hi)

theorem clamp_mono {lo hi x y : ℤ} (h : x ≤ y) : clamp lo hi x ≤ clamp lo hi y :=
  max_le_max le_rfl (min_le_min h le_rfl)

/-- **`TCPT_RANGESET`** clamps what a `short` holds of the value. -/
theorem rangeset_eq (v : ℤ) {lo : ℕ} (hlo : (lo : ℤ) ≤ TCPTV_REXMTMAX) :
    rangeset v lo TCPTV_REXMTMAX = clamp lo TCPTV_REXMTMAX (short v) := by
  simp only [TCPTV_REXMTMAX] at hlo ⊢
  have hmin : short (lo : ℤ) = lo := short_eq (by omega) (by omega)
  have hmax : short 128 = 128 := by decide
  rw [rangeset, clamp]
  split_ifs <;> omega

/-- A value that is not negative is clamped as it should, unless it is too large and what a
`short` holds of it is not large. -/
theorem clamp_short_iff {v : ℤ} (h0 : 0 ≤ v) {lo : ℕ} (hlo : (lo : ℤ) ≤ TCPTV_REXMTMAX) :
    clamp lo TCPTV_REXMTMAX (short v) = clamp lo TCPTV_REXMTMAX v ↔
      v < 2 ^ 15 ∨ TCPTV_REXMTMAX ≤ short v ∨ (lo : ℤ) = TCPTV_REXMTMAX := by
  simp only [clamp, TCPTV_REXMTMAX] at hlo ⊢
  by_cases hfits : v < 2 ^ 15
  · rw [short_eq (by omega) hfits]
    exact iff_of_true rfl (.inl hfits)
  · omega

/-! ## Measurements and retransmissions -/

/-- What bears on the timeout. -/
inductive Timing where
  /-- a round-trip time is measured -/
  | sample (rtt : BitVec 16)
  /-- the retransmission timer expires -/
  | timeout

/-- The connection after it.  After too many retransmissions it is dropped. -/
def retime : Timing → Option Tcpcb
  | .sample rtt => some (tcpXmitTimer tp rtt.toInt)
  | .timeout => if tp.rxtshift + 1 > TCP_MAXRXTSHIFT then none else some tp.backOff

/-- The product that the timeout should be. -/
def Tcpcb.product : ℤ := tp.rexmtval * tcpBackoff.getD tp.rxtshift.toNat 0

/-- The product with the next factor. -/
def Tcpcb.doubled : ℤ := tp.rexmtval * tcpBackoff.getD (tp.rxtshift + 1).toNat 0

/-- **The timeout is the clamped product.** -/
def Tcpcb.Exact : Prop := tp.rxtcur = clamp tp.rttmin TCPTV_REXMTMAX tp.product

/-- What should come of it: the timeout is exact; after a measurement the averages are positive;
and a retransmission does not make the timeout shorter. -/
def Tcpcb.Sound (op : Timing) : Prop :=
  ∀ tp', retime tp op = some tp' → tp'.Exact ∧
    match op with
    | .sample _ => 0 < tp'.srtt ∧ 0 < tp'.rttvar
    | .timeout => tp.rxtcur ≤ tp'.rxtcur

/-- Nothing is lost in 16 bits: the first measurement stays positive when it is scaled; the new
value fits; and so does the product, unless it is clamped to the maximum all the same. -/
def Tcpcb.fits : Timing → Bool
  | .sample rtt =>
    (decide (tp.srtt ≠ 0) ||
      decide (0 < short (rtt.toInt * 8)) && decide (0 < short (rtt.toInt * 2))) &&
    (decide ((tp.measure rtt.toInt).rexmtval < 2 ^ 15) || decide ((tp.rttmin : ℤ) = TCPTV_REXMTMAX))
  | .timeout =>
    decide (tp.doubled < 2 ^ 15) || decide (TCPTV_REXMTMAX ≤ short tp.doubled) ||
      decide ((tp.rttmin : ℤ) = TCPTV_REXMTMAX)

/-! ## The averages -/

/-- The averages are in range. -/
structure Tcpcb.Averages (tp : Tcpcb) : Prop where
  srtt : 0 ≤ tp.srtt
  rttvar : 0 < tp.rttvar
  val : tp.rexmtval < 2 ^ 15

/-- **Between two changes**: the timeout is not longer than it should be, and the averages are
in range; or else the range of the timeout is a point. -/
structure Tcpcb.Timed (tp : Tcpcb) : Prop where
  rttmin : (tp.rttmin : ℤ) ≤ TCPTV_REXMTMAX
  shift : 0 ≤ tp.rxtshift
  rxtcur : tp.rxtcur ≤ clamp tp.rttmin TCPTV_REXMTMAX tp.product
  averages : tp.Averages ∨ (tp.rttmin : ℤ) = TCPTV_REXMTMAX

section Step

variable {tp : Tcpcb}

theorem rexmtval_eq (tp : Tcpcb) : tp.rexmtval = tp.srtt / 8 + tp.rttvar := by
  rw [Tcpcb.rexmtval, Int.shiftRight_eq_div_pow]
  rfl

theorem clamp_point {lo : ℕ} (h : (lo : ℤ) = TCPTV_REXMTMAX) (x : ℤ) :
    clamp lo TCPTV_REXMTMAX x = TCPTV_REXMTMAX := by
  unfold clamp
  omega

theorem smoothed_bounds (average delta : ℤ) :
    0 < smoothed average delta ∧ smoothed average delta < 2 ^ 15 := by
  have hb := short_bounds (average + delta)
  unfold smoothed
  split <;> omega

/-- After a measurement the averages are positive, unless it was the first and did not fit. -/
theorem measure_pos_iff (tp : Tcpcb) (rtt : ℤ) :
    (0 < (tp.measure rtt).srtt ∧ 0 < (tp.measure rtt).rttvar) ↔
      (tp.srtt ≠ 0 ∨ 0 < short (rtt * 8) ∧ 0 < short (rtt * 2)) := by
  unfold Tcpcb.measure
  split
  · next hknown =>
      exact iff_of_true ⟨(smoothed_bounds _ _).1, (smoothed_bounds _ _).1⟩ (.inl hknown)
  · next hfirst => exact (or_iff_right hfirst).symm

theorem measure_lt (tp : Tcpcb) (rtt : ℤ) :
    (tp.measure rtt).srtt < 2 ^ 15 ∧ (tp.measure rtt).rttvar < 2 ^ 15 := by
  unfold Tcpcb.measure
  split
  · exact ⟨(smoothed_bounds _ _).2, (smoothed_bounds _ _).2⟩
  · exact ⟨(short_bounds _).2, (short_bounds _).2⟩

theorem short_toInt (rtt : BitVec 16) : short rtt.toInt = rtt.toInt := by
  have hlo := rtt.le_toInt
  have hhi := rtt.toInt_lt
  exact short_eq hlo hhi

theorem short_of_ge {x : ℤ} (hlo : 2 ^ 15 ≤ x) (hhi : x < 2 ^ 16) : short x = x - 2 ^ 16 := by
  rw [short, Int.bmod_def]
  split <;> omega

theorem rttmin_measure (tp : Tcpcb) (rtt : ℤ) : (tp.measure rtt).rttmin = tp.rttmin := by
  unfold Tcpcb.measure
  split <;> rfl

/-- What a measurement leaves. -/
theorem sample_eq (tp : Tcpcb) (rtt : BitVec 16) {tp' : Tcpcb}
    (htp' : tp' = tcpXmitTimer tp rtt.toInt) :
    tp'.srtt = (tp.measure rtt.toInt).srtt ∧ tp'.rttvar = (tp.measure rtt.toInt).rttvar ∧
      tp'.rttmin = tp.rttmin ∧ tp'.rxtshift = 0 ∧
      tp'.rexmtval = (tp.measure rtt.toInt).rexmtval ∧
      tp'.rxtcur = rangeset (tp.measure rtt.toInt).rexmtval tp.rttmin TCPTV_REXMTMAX := by
  rw [tcpXmitTimer, short_toInt] at htp'
  subst htp'
  exact ⟨rfl, rfl, rttmin_measure tp _, rfl, rfl, rfl⟩

theorem product_of_shift_zero (h : tp.rxtshift = 0) : tp.product = tp.rexmtval := by
  rw [Tcpcb.product, h]
  exact mul_one _

/-- **A measurement.** -/
theorem sound_sample_iff (h : tp.Timed) (rtt : BitVec 16) :
    tp.Sound (.sample rtt) ↔ tp.fits (.sample rtt) := by
  obtain ⟨tp', htp'⟩ : ∃ tp', tp' = tcpXmitTimer tp rtt.toInt := ⟨_, rfl⟩
  have hsound : tp.Sound (.sample rtt) ↔ tp'.Exact ∧ 0 < tp'.srtt ∧ 0 < tp'.rttvar := by
    rw [htp']
    exact ⟨fun hs => hs _ rfl, fun hs x hx => by cases hx; exact hs⟩
  obtain ⟨hsrtt, hrttvar, hrttmin, hshift, hval, hrxtcur⟩ := sample_eq tp rtt htp'
  have hexact : tp'.Exact ↔ clamp tp.rttmin TCPTV_REXMTMAX (short tp'.rexmtval) =
      clamp tp.rttmin TCPTV_REXMTMAX tp'.rexmtval := by
    rw [Tcpcb.Exact, hrxtcur, rangeset_eq _ h.rttmin, hrttmin, product_of_shift_zero hshift, hval]
  rw [hsound, hexact, hsrtt, hrttvar]
  simp only [Tcpcb.fits, Bool.and_eq_true, Bool.or_eq_true, decide_eq_true_eq]
  rw [and_comm, ← measure_pos_iff]
  refine and_congr_right fun hpos => ?_
  have hlt := measure_lt tp rtt.toInt
  have hbounds := rexmtval_eq (tp.measure rtt.toInt)
  rw [hval, clamp_short_iff (by omega) h.rttmin]
  by_cases hfits : (tp.measure rtt.toInt).rexmtval < 2 ^ 15
  · exact iff_of_true (.inl hfits) (.inl hfits)
  · rw [short_of_ge (by omega) (by omega)]
    simp only [TCPTV_REXMTMAX]
    omega

/-- The averages are moved, but their value stays. -/
theorem rexmtval_backOff (h : tp.Averages) : tp.backOff.rexmtval = tp.rexmtval := by
  have hval := rexmtval_eq tp
  have hsrtt := h.srtt
  have hrttvar := h.rttvar
  have hlt := h.val
  rw [rexmtval_eq]
  unfold Tcpcb.backOff
  dsimp only
  split_ifs
  · have hshort : short (tp.rttvar + tp.srtt >>> (3 : ℕ)) = tp.rexmtval := by
      rw [add_comm]
      exact short_eq (x := tp.rexmtval) (by omega) hlt
    omega
  · exact hval.symm

theorem product_backOff (h : tp.Averages) : tp.backOff.product = tp.doubled := by
  rw [Tcpcb.product, rexmtval_backOff h]
  rfl

/-- The factors grow. -/
theorem backoff_mono {n : ℤ} (h0 : 0 ≤ n) (hle : ¬ n + 1 > TCP_MAXRXTSHIFT) :
    0 < tcpBackoff.getD n.toNat 0 ∧ tcpBackoff.getD n.toNat 0 ≤ tcpBackoff.getD (n + 1).toNat 0 := by
  have hall : ∀ i < 12, 0 < tcpBackoff.getD i 0 ∧ tcpBackoff.getD i 0 ≤ tcpBackoff.getD (i + 1) 0 := by
    decide
  have hnext : (n + 1).toNat = n.toNat + 1 := by omega
  rw [TCP_MAXRXTSHIFT] at hle
  rw [hnext]
  exact hall n.toNat (by omega)

theorem product_le_doubled (h : tp.Averages) (h0 : 0 ≤ tp.rxtshift)
    (hle : ¬ tp.rxtshift + 1 > TCP_MAXRXTSHIFT) : 0 ≤ tp.doubled ∧ tp.product ≤ tp.doubled := by
  obtain ⟨hpos, hgrows⟩ := backoff_mono h0 hle
  have hval : 0 ≤ tp.rexmtval := by
    have hsrtt := h.srtt
    have hrttvar := h.rttvar
    rw [rexmtval_eq]
    omega
  have hmono : tp.product ≤ tp.doubled := mul_le_mul_of_nonneg_left hgrows hval
  exact ⟨(mul_nonneg hval hpos.le).trans hmono, hmono⟩

/-- **A retransmission.** -/
theorem sound_timeout_iff (h : tp.Timed) (hle : ¬ tp.rxtshift + 1 > TCP_MAXRXTSHIFT) :
    tp.Sound .timeout ↔ tp.fits .timeout := by
  obtain ⟨tp', htp'⟩ : ∃ tp', tp' = tp.backOff := ⟨_, rfl⟩
  have hsound : tp.Sound .timeout ↔ tp'.Exact ∧ tp.rxtcur ≤ tp'.rxtcur := by
    have hstep : retime tp .timeout = some tp' := by
      rw [retime, if_neg hle, htp']
    refine ⟨fun hs => hs tp' hstep, fun hs x hx => ?_⟩
    cases hstep.symm.trans hx
    exact hs
  have hrttmin : tp'.rttmin = tp.rttmin := by rw [htp']; rfl
  have hrxtcur : tp'.rxtcur = clamp tp.rttmin TCPTV_REXMTMAX (short tp.doubled) := by
    rw [htp', ← rangeset_eq _ h.rttmin]
    rfl
  have hcur := h.rxtcur
  rw [hsound, Tcpcb.Exact, hrttmin, hrxtcur]
  simp only [Tcpcb.fits, Bool.or_eq_true, decide_eq_true_eq]
  rcases h.averages with haverages | hpoint
  · obtain ⟨hnonneg, hmono⟩ := product_le_doubled haverages h.shift hle
    rw [htp', product_backOff haverages, clamp_short_iff hnonneg h.rttmin, or_assoc]
    refine and_iff_left_of_imp fun hfits => ?_
    rw [(clamp_short_iff hnonneg h.rttmin).mpr hfits]
    exact hcur.trans (clamp_mono hmono)
  · rw [clamp_point hpoint] at hcur ⊢
    rw [clamp_point hpoint]
    exact iff_of_true ⟨rfl, hcur⟩ (.inr hpoint)

theorem averages_backOff (h : tp.Averages) : tp.backOff.Averages := by
  have hval := rexmtval_backOff h
  have hbefore := rexmtval_eq tp
  have hafter := rexmtval_eq tp.backOff
  have hsrtt := h.srtt
  have hrttvar := h.rttvar
  have hmoved : tp.backOff.srtt = 0 ∨ tp.backOff.srtt = tp.srtt := by
    unfold Tcpcb.backOff
    dsimp only
    split_ifs
    · exact .inl rfl
    · exact .inr rfl
  refine ⟨by omega, by omega, ?_⟩
  rw [hval]
  exact h.val

/-- **A change that fits** leaves the connection as it should be. -/
theorem timed_retime {tp' : Tcpcb} {op : Timing} (h : tp.Timed) (hfits : tp.fits op)
    (hstep : retime tp op = some tp') : tp'.Timed := by
  cases op with
  | sample rtt =>
    have hsound := (sound_sample_iff h rtt).mpr hfits tp' hstep
    cases hstep
    obtain ⟨hsrtt, hrttvar, hrttmin, hshift, hval, -⟩ := sample_eq tp rtt rfl
    refine ⟨by rw [hrttmin]; exact h.rttmin, hshift.ge, hsound.1.le, ?_⟩
    simp only [Tcpcb.fits, Bool.and_eq_true, Bool.or_eq_true, decide_eq_true_eq] at hfits
    rw [hrttmin]
    refine hfits.2.imp_left fun hlt => ⟨hsound.2.1.le, hsound.2.2, ?_⟩
    rwa [hval]
  | timeout =>
    by_cases hle : tp.rxtshift + 1 > TCP_MAXRXTSHIFT
    · rw [retime, if_pos hle] at hstep
      cases hstep
    · have hsound := (sound_timeout_iff h hle).mpr hfits tp' hstep
      rw [retime, if_neg hle] at hstep
      cases hstep
      have hshift := h.shift
      exact ⟨h.rttmin, (by omega : 0 ≤ tp.rxtshift + 1), hsound.1.le,
        h.averages.imp_left averages_backOff⟩

end Step

/-- **The timeout**, along every sequence of measurements and retransmissions of a connection
that is as it should be: it is always the clamped product, the averages are positive after every
measurement, and no retransmission makes it shorter, if and only if every change fits. -/
theorem rto_exact_iff (h : tp.Timed) (ops : List Timing) :
    Schedule.Along retime (fun tp op => tp.Sound op) tp ops ↔
      Schedule.Along retime (fun tp op => tp.fits op) tp ops := by
  refine (Schedule.along_congr_of_invariant ?_ ?_ h).symm
  · intro tp op tp' h hfits hstep
    exact timed_retime h hfits hstep
  · intro tp op tp' h hstep
    cases op with
    | sample rtt => exact (sound_sample_iff h rtt).symm
    | timeout =>
      refine (sound_timeout_iff h fun hle => ?_).symm
      rw [retime, if_pos hle] at hstep
      cases hstep

/-- A new connection is as it should be, with any minimum that is in range. -/
theorem timed_new (rfc1323 compat42 : Bool) (now : BitVec 32) (so : SoOptions) {rttmin : ℕ}
    (hmin : (rttmin : ℤ) ≤ TCPTV_REXMTMAX) :
    ({ tcpNewtcpcb rfc1323 compat42 now so with rttmin := rttmin } : Tcpcb).Timed := by
  refine ⟨hmin, (by decide : (0 : ℤ) ≤ 0), ?_, .inl ⟨?_, ?_, ?_⟩⟩
  · have hcur : (tcpNewtcpcb rfc1323 compat42 now so).rxtcur = 12 := rfl
    have hproduct : (tcpNewtcpcb rfc1323 compat42 now so).product = 24 := rfl
    show (tcpNewtcpcb rfc1323 compat42 now so).rxtcur ≤
      clamp rttmin TCPTV_REXMTMAX (tcpNewtcpcb rfc1323 compat42 now so).product
    rw [clamp, TCPTV_REXMTMAX]
    omega
  · exact (by decide : (0 : ℤ) ≤ 0)
  · exact (by decide : (0 : ℤ) < TCPTV_SRTTDFLT * 4)
  · exact (by decide : (0 : ℤ) >>> (3 : ℕ) + TCPTV_SRTTDFLT * 4 < 2 ^ 15)

/-- After a measurement of 4 ticks every retransmission fits. -/
theorem rto_exact_four : Schedule.Along retime (fun tp op => tp.Sound op)
      (tcpNewtcpcb false false 0 ⟨8192, 8192, false, false, false, false⟩)
      (.sample 4 :: List.replicate 12 .timeout) := by
  refine (rto_exact_iff _ ?_ _).mpr ?_
  · have hmin : ((2 : ℕ) : ℤ) ≤ TCPTV_REXMTMAX := by decide
    exact timed_new false false 0 ⟨8192, 8192, false, false, false, false⟩ hmin
  · decide +kernel

/-- **After a measurement of 200 ticks the sixth retransmission is immediate.**  The product is
38400, which a `short` holds as a negative number, and the timeout falls from the maximum to
the minimum.  And a first measurement of 8192 ticks is scaled to 0. -/
theorem rto_wraps :
    (∃ tp tp', Schedule.run retime
        (tcpNewtcpcb false false 0 ⟨8192, 8192, false, false, false, false⟩)
        (.sample 200 :: List.replicate 5 .timeout) = some tp ∧
      retime tp .timeout = some tp' ∧ tp.rxtcur = 128 ∧ tp'.product = 38400 ∧ tp'.rxtcur = 2) ∧
    ∃ tp, retime (tcpNewtcpcb false false 0 ⟨8192, 8192, false, false, false, false⟩)
      (.sample 8192) = some tp ∧ tp.srtt = 0 :=
  ⟨⟨_, _, rfl, rfl, by decide +kernel, by decide +kernel, by decide +kernel⟩, _, rfl,
    by decide +kernel⟩

end BSDLite2.Tcp
