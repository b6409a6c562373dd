import BSDLite2.Lib.Bytes
import BSDLite2.Netinet.TcpConn

/-!
# The options of a segment as bytes (`netinet/tcp_input.c`)

The stages of `tcp_input` take the options of a segment as a list.  Here the list is read from
memory, as `tcp_dooptions` does it, and the question is how far it reads.  The loop looks at
how many bytes are left only before it reads the kind of an option.  The length byte, and the
two, one or eight bytes of a value, may lie beyond the header.

* `tcpDooptionsAt` — `tcp_dooptions` over memory, with the arguments of its calls of
  `tcp_mss`;
* `tcpDooptionsAt_eq` — it is `tcpDooptions` for the options `optionsAt` finds;
* `inputOptions_eq` — the quick retrieval of a timestamp finds what `tcp_dooptions` would find;
* `whole` — no option that is acted on is cut off by the end of the area;
* `dooptions_confined_iff` — bytes beyond the area have no influence if and only if the area
  is whole.

An option that is cut off is the last one the loop gets to, so nothing that follows can undo
its effect: this is why the condition is exact.
-/

namespace BSDLite2.Tcp

variable (tp : Tcpcb) (syn : Bool) (route : Option Route)

/-! ## The loop -/

def TCPOPT_EOL : BitVec 8 := 0
def TCPOPT_NOP : BitVec 8 := 1
def TCPOPT_MAXSEG : BitVec 8 := 2
def TCPOLEN_MAXSEG : ℕ := 4
def TCPOPT_WINDOW : BitVec 8 := 3
def TCPOLEN_WINDOW : ℕ := 3
def TCPOPT_TIMESTAMP : BitVec 8 := 8
def TCPOLEN_TIMESTAMP : ℕ := 10
def TCPOLEN_TSTAMP_APPA : ℕ := TCPOLEN_TIMESTAMP + 2

/-- The memory from an address on. -/
abbrev Octets := ℕ → BitVec 8

namespace Octets

/-- The address moved forward. -/
def skip (cp : Octets) (n : ℕ) : Octets := fun i => cp (n + i)

/-- The two bytes at `i` in host order. -/
def shortAt (cp : Octets) (i : ℕ) : BitVec 16 := cp i ++ cp (i + 1)

/-- The four bytes at `i` in host order. -/
def longAt (cp : Octets) (i : ℕ) : BitVec 32 := cp i ++ cp (i + 1) ++ cp (i + 2) ++ cp (i + 3)

/-- Two memories **agree** on the first `cnt` bytes. -/
def Agree (cnt : ℕ) (cp cp' : Octets) : Prop := ∀ i < cnt, cp i = cp' i

/-- `optlen`, of an option that is not the last one. -/
def optlen (cp : Octets) : ℕ := if cp 0 = TCPOPT_NOP then 1 else (cp 1).toNat

/-- The `switch`: the option at `cp`, if its length is right and it has an effect. -/
def option (cp : Octets) (optlen : ℕ) : Option Opt :=
  if cp 0 = TCPOPT_MAXSEG then
    if optlen = TCPOLEN_MAXSEG ∧ syn then some (.maxseg (cp.shortAt 2)) else none
  else if cp 0 = TCPOPT_WINDOW then
    if optlen = TCPOLEN_WINDOW ∧ syn then some (.window (cp 2)) else none
  else if cp 0 = TCPOPT_TIMESTAMP then
    if optlen = TCPOLEN_TIMESTAMP then some (.timestamp (cp.longAt 2) (cp.longAt 6)) else none
  else none

end Octets

open Octets

/-- What the options change: the connection, `ts_val` and `ts_ecr` if `ts_present`, and the
arguments `tcp_mss` has been called with. -/
structure Told where
  tp : Tcpcb
  ts : Option (BitVec 32 × BitVec 32)
  mss : List (BitVec 16)

variable (cp : Octets) (cnt : ℕ)

/-- An option takes effect. -/
def Told.act (x : Told) (o : Opt) : Told where
  tp := (doOption syn route (x.tp, x.ts) o).1
  ts := (doOption syn route (x.tp, x.ts) o).2
  mss :=
    match o with
    | .maxseg mss => if syn then x.mss ++ [mss] else x.mss
    | _ => x.mss

/-- The loop of `tcp_dooptions`.  The count is not below 0 here: the loop ends as well with a
negative one. -/
def optionLoop (syn : Bool) (route : Option Route) : ℕ → Octets → ℕ → Told → Told
  | 0, _, _, x => x
  | fuel + 1, cp, cnt, x =>
    if cnt = 0 ∨ cp 0 = TCPOPT_EOL ∨ cp.optlen = 0 then x
    else
      optionLoop syn route fuel (cp.skip cp.optlen) (cnt - cp.optlen)
        ((cp.option syn cp.optlen).elim x (x.act syn route))

/-- `tcp_dooptions`.  Every turn of the loop takes at least one of the `cnt` bytes. -/
def tcpDooptionsAt : Told :=
  optionLoop syn route cnt cp cnt ⟨tp, none, []⟩

/-! ## The list of options -/

/-- The options the loop acts on. -/
def optionsFrom (syn : Bool) : ℕ → Octets → ℕ → List Opt
  | 0, _, _ => []
  | fuel + 1, cp, cnt =>
    if cnt = 0 ∨ cp 0 = TCPOPT_EOL ∨ cp.optlen = 0 then []
    else
      (cp.option syn cp.optlen).toList ++
        optionsFrom syn fuel (cp.skip cp.optlen) (cnt - cp.optlen)

def optionsAt : List Opt := optionsFrom syn cnt cp cnt

section Loop

variable {syn : Bool} {route : Option Route}

@[simp] theorem optionLoop_zero (fuel : ℕ) (cp : Octets) (x : Told) :
    optionLoop syn route fuel cp 0 x = x := by
  cases fuel with
  | zero => rfl
  | succ fuel => exact if_pos (Or.inl rfl)

theorem optionLoop_eol {cp : Octets} (h : cp 0 = TCPOPT_EOL) (fuel cnt : ℕ) (x : Told) :
    optionLoop syn route fuel cp cnt x = x := by
  cases fuel with
  | zero => rfl
  | succ fuel => exact if_pos (Or.inr (Or.inl h))

theorem optionLoop_step {cp : Octets} {cnt n : ℕ} (hcnt : cnt ≠ 0) (heol : cp 0 ≠ TCPOPT_EOL)
    (hlen : cp.optlen = n) (hn : n ≠ 0) (fuel : ℕ) (x : Told) :
    optionLoop syn route (fuel + 1) cp cnt x =
      optionLoop syn route fuel (cp.skip n) (cnt - n)
        ((cp.option syn n).elim x (x.act syn route)) := by
  subst hlen
  exact if_neg (not_or.mpr ⟨hcnt, not_or.mpr ⟨heol, hn⟩⟩)

theorem optionLoop_eq (fuel : ℕ) (cp : Octets) (cnt : ℕ) (x : Told) :
    optionLoop syn route fuel cp cnt x =
      (optionsFrom syn fuel cp cnt).foldl (Told.act syn route) x := by
  induction fuel generalizing cp cnt x with
  | zero => rfl
  | succ fuel ih =>
    unfold optionLoop optionsFrom
    split_ifs
    · rfl
    · rw [ih]
      cases cp.option syn cp.optlen <;> rfl

theorem foldl_act (opts : List Opt) (x : Told) :
    ((opts.foldl (Told.act syn route) x).tp, (opts.foldl (Told.act syn route) x).ts) =
      opts.foldl (doOption syn route) (x.tp, x.ts) := by
  induction opts generalizing x with
  | nil => rfl
  | cons o opts ih => exact ih (x.act syn route o)

/-- **`tcp_dooptions` over memory is the one over the options it finds.** -/
theorem tcpDooptionsAt_eq (tp : Tcpcb) (cp : Octets) (cnt : ℕ) :
    ((tcpDooptionsAt tp syn route cp cnt).tp, (tcpDooptionsAt tp syn route cp cnt).ts) =
      tcpDooptions tp syn route (optionsAt syn cp cnt) := by
  unfold tcpDooptionsAt
  rw [optionLoop_eq]
  exact foldl_act _ _

end Loop

/-! ## The quick retrieval -/

/-- The timestamp is the only option, as appendix A of RFC 1323 has it. -/
def quick : Bool :=
  (cnt == TCPOLEN_TSTAMP_APPA || (decide (TCPOLEN_TSTAMP_APPA < cnt) &&
      cp TCPOLEN_TSTAMP_APPA == TCPOPT_EOL)) &&
    cp.longAt 0 ==
      TCPOPT_NOP ++ TCPOPT_NOP ++ TCPOPT_TIMESTAMP ++ BitVec.ofNat 8 TCPOLEN_TIMESTAMP &&
    !syn

/-- The options as `tcp_input` deals with them. -/
def inputOptions : Told :=
  if quick syn cp cnt then ⟨tp, some (cp.longAt 4, cp.longAt 8), []⟩
  else tcpDooptionsAt tp syn route cp cnt

theorem longAt_parts {cp : Octets} {i : ℕ} {a b c d : BitVec 8}
    (h : cp.longAt i = a ++ b ++ c ++ d) :
    cp i = a ∧ cp (i + 1) = b ∧ cp (i + 2) = c ∧ cp (i + 3) = d := by
  obtain ⟨habc, hd⟩ := Bytes.append_inj_iff.mp h
  obtain ⟨hab, hc⟩ := Bytes.append_inj_iff.mp habc
  obtain ⟨ha, hb⟩ := Bytes.append_inj_iff.mp hab
  exact ⟨ha, hb, hc, hd⟩

attribute [local simp] Octets.option TCPOPT_MAXSEG TCPOPT_WINDOW TCPOPT_TIMESTAMP

/-- **The quick retrieval finds what `tcp_dooptions` would find.** -/
theorem inputOptions_eq :
    inputOptions tp syn route cp cnt = tcpDooptionsAt tp syn route cp cnt := by
  unfold inputOptions
  split_ifs with hquick
  · simp only [quick, Bool.and_eq_true, Bool.or_eq_true, beq_iff_eq, decide_eq_true_eq,
      Bool.not_eq_true'] at hquick
    obtain ⟨⟨hlen, hhdr⟩, rfl⟩ := hquick
    obtain ⟨h0, h1, h2, h3⟩ := longAt_parts hhdr
    obtain ⟨k, rfl⟩ : ∃ k, cnt = k + 12 := by
      rcases hlen with rfl | ⟨hlt, -⟩
      · exact ⟨0, rfl⟩
      · exact ⟨cnt - 12, by unfold TCPOLEN_TSTAMP_APPA TCPOLEN_TIMESTAMP at hlt; omega⟩
    -- two NOPs, the timestamp, and then the end of the area or `TCPOPT_EOL`
    have hnop (cp : Octets) (h : cp 0 = TCPOPT_NOP) (fuel cnt : ℕ) (x : Told) :
        optionLoop false route (fuel + 1) cp (cnt + 1) x =
          optionLoop false route fuel (cp.skip 1) cnt x := by
      have hlen : cp.optlen = 1 := if_pos h
      have hnone : cp.option false 1 = none := by simp [h, TCPOPT_NOP]
      rw [optionLoop_step (by omega) (by rw [h]; decide) hlen one_ne_zero, hnone]
      rfl
    have hstamp : (cp.skip 2).optlen = 10 := by
      simp [Octets.optlen, Octets.skip, h2, h3, TCPOPT_NOP, TCPOLEN_TIMESTAMP]
    have hskip : (cp.skip 1).skip 1 = cp.skip 2 := by
      funext i
      exact congrArg cp (by omega)
    have hval : (cp.skip 2).option false 10 = some (.timestamp (cp.longAt 4) (cp.longAt 8)) := by
      simp [Octets.skip, h2, TCPOLEN_TIMESTAMP, Octets.longAt]
    rw [tcpDooptionsAt, hnop cp h0 (k + 11) (k + 11), hnop (cp.skip 1) h1 (k + 10) (k + 10), hskip,
      optionLoop_step (by omega) (by rw [Octets.skip, h2]; decide) hstamp (by decide), hval]
    rcases hlen with hlen | ⟨-, heol⟩
    · obtain rfl : k = 0 := by simpa [TCPOLEN_TSTAMP_APPA, TCPOLEN_TIMESTAMP] using hlen
      rfl
    · rw [optionLoop_eol heol]
      rfl
  · rfl

/-! ## Options that are cut off -/

/-- The length an option has to have to be acted on; none if its kind is passed over. -/
def actingLen (opt : BitVec 8) : Option ℕ :=
  if opt = TCPOPT_MAXSEG then if syn then some TCPOLEN_MAXSEG else none
  else if opt = TCPOPT_WINDOW then if syn then some TCPOLEN_WINDOW else none
  else if opt = TCPOPT_TIMESTAMP then some TCPOLEN_TIMESTAMP
  else none

/-- **The area is whole**: no option that is acted on goes beyond its end, and none begins with
its last byte.  Only bytes of the area are looked at. -/
def wholeFrom (syn : Bool) : ℕ → Octets → ℕ → Bool
  | 0, _, _ => true
  | fuel + 1, cp, cnt =>
    if cnt = 0 ∨ cp 0 = TCPOPT_EOL then true
    else if cp 0 = TCPOPT_NOP then wholeFrom syn fuel (cp.skip 1) (cnt - 1)
    else if cnt = 1 then (actingLen syn (cp 0)).isNone
    else if (cp 1).toNat = 0 then true
    else
      decide (actingLen syn (cp 0) = some (cp 1).toNat → (cp 1).toNat ≤ cnt) &&
        wholeFrom syn fuel (cp.skip (cp 1).toNat) (cnt - (cp 1).toNat)

def whole : Bool := wholeFrom syn cnt cp cnt

/-- What the connection gets to know from the options. -/
structure Heard where
  /-- `ts_val` and `ts_ecr`, if `ts_present` -/
  ts : Option (BitVec 32 × BitVec 32)
  rcvdScale : Bool
  rcvdTstmp : Bool
  requestedSScale : ℕ
  tsRecent : BitVec 32
  mss : List (BitVec 16)

def Told.heard (x : Told) : Heard where
  ts := x.ts
  rcvdScale := x.tp.rcvdScale
  rcvdTstmp := x.tp.rcvdTstmp
  requestedSScale := x.tp.requestedSScale
  tsRecent := x.tp.tsRecent
  mss := x.mss

section Confined

variable {syn : Bool} {route : Option Route} {cp cp' : Octets} {cnt n i : ℕ}

theorem agree_skip (h : Agree cnt cp cp') (n : ℕ) : Agree (cnt - n) (cp.skip n) (cp'.skip n) :=
  fun i hi => h (n + i) (by omega)

theorem option_eq_none (h : actingLen syn (cp 0) ≠ some n) : cp.option syn n = none := by
  unfold actingLen at h
  unfold Octets.option
  split_ifs at ⊢ <;> simp_all

/-- The three kinds of options that are acted on. -/
theorem actingLen_cases {opt : BitVec 8} (h : actingLen syn opt = some n) :
    (opt = TCPOPT_MAXSEG ∧ syn = true ∧ n = TCPOLEN_MAXSEG) ∨
    (opt = TCPOPT_WINDOW ∧ syn = true ∧ n = TCPOLEN_WINDOW) ∨
    (opt = TCPOPT_TIMESTAMP ∧ n = TCPOLEN_TIMESTAMP) := by
  unfold actingLen at h
  split_ifs at h with hmss hsyn hscale hsyn hts
  · exact Or.inl ⟨hmss, hsyn, (Option.some.inj h).symm⟩
  · exact Or.inr (Or.inl ⟨hscale, hsyn, (Option.some.inj h).symm⟩)
  · exact Or.inr (Or.inr ⟨hts, (Option.some.inj h).symm⟩)

theorem option_maxseg (h : cp 0 = TCPOPT_MAXSEG) :
    cp.option true TCPOLEN_MAXSEG = some (.maxseg (cp.shortAt 2)) := by
  simp [h]

theorem option_window (h : cp 0 = TCPOPT_WINDOW) :
    cp.option true TCPOLEN_WINDOW = some (.window (cp 2)) := by
  simp [h]

theorem option_timestamp (h : cp 0 = TCPOPT_TIMESTAMP) :
    cp.option syn TCPOLEN_TIMESTAMP = some (.timestamp (cp.longAt 2) (cp.longAt 6)) := by
  simp [h]

theorem shortAt_congr (h : Agree cnt cp cp') (hi : i + 2 ≤ cnt) : cp.shortAt i = cp'.shortAt i := by
  rw [Octets.shortAt, h i (by omega), h (i + 1) (by omega)]
  rfl

theorem longAt_congr (h : Agree cnt cp cp') (hi : i + 4 ≤ cnt) : cp.longAt i = cp'.longAt i := by
  rw [Octets.longAt, h i (by omega), h (i + 1) (by omega), h (i + 2) (by omega),
    h (i + 3) (by omega)]
  rfl

/-- An option that is acted on and lies within the area is read there. -/
theorem option_congr (h : Agree cnt cp cp') (hcnt : 0 < cnt)
    (hin : actingLen syn (cp 0) = some n → n ≤ cnt) : cp.option syn n = cp'.option syn n := by
  have h0 : cp 0 = cp' 0 := h 0 hcnt
  by_cases hacts : actingLen syn (cp 0) = some n
  · have hn := hin hacts
    rcases actingLen_cases hacts with ⟨hkind, rfl, rfl⟩ | ⟨hkind, rfl, rfl⟩ | ⟨hkind, rfl⟩
    · rw [option_maxseg hkind, option_maxseg (h0 ▸ hkind), shortAt_congr h hn]
    · rw [option_window hkind, option_window (h0 ▸ hkind), h 2 hn]
    · have hval : 2 + 4 ≤ cnt := le_trans (by decide) hn
      rw [option_timestamp hkind, option_timestamp (h0 ▸ hkind), longAt_congr h hval,
        longAt_congr h hn]
  · rw [option_eq_none hacts, option_eq_none (h0 ▸ hacts)]

/-- With the last byte of the area the loop comes to its end. -/
theorem optionLoop_last (heol : cp 0 ≠ TCPOPT_EOL) (hkind : actingLen syn (cp 0) = none)
    (fuel : ℕ) (x : Told) : optionLoop syn route (fuel + 1) cp 1 x = x := by
  by_cases hlen : cp.optlen = 0
  · exact if_pos (Or.inr (Or.inr hlen))
  · have hnone : cp.option syn cp.optlen = none := option_eq_none (by rw [hkind]; nofun)
    rw [optionLoop_step one_ne_zero heol rfl hlen, hnone, Nat.sub_eq_zero_of_le (by omega),
      optionLoop_zero]
    rfl

/-- **A whole area decides the loop.** -/
theorem loop_congr {fuel : ℕ} (hwhole : wholeFrom syn fuel cp cnt = true) (h : Agree cnt cp cp')
    (x : Told) : optionLoop syn route fuel cp cnt x = optionLoop syn route fuel cp' cnt x := by
  induction fuel generalizing cp cp' cnt x with
  | zero => rfl
  | succ fuel ih =>
    by_cases hcnt : cnt = 0
    · subst hcnt
      rw [optionLoop_zero, optionLoop_zero]
    have h0 : cp 0 = cp' 0 := h 0 (by omega)
    by_cases heol : cp 0 = TCPOPT_EOL
    · rw [optionLoop_eol heol, optionLoop_eol (h0 ▸ heol)]
    rw [wholeFrom, if_neg (not_or.mpr ⟨hcnt, heol⟩)] at hwhole
    -- once the length is known to be the same, the option and what follows are
    have hstep (n : ℕ) (hn : n ≠ 0) (hlen : cp.optlen = n) (hlen' : cp'.optlen = n)
        (hin : actingLen syn (cp 0) = some n → n ≤ cnt)
        (hrest : wholeFrom syn fuel (cp.skip n) (cnt - n) = true) :
        optionLoop syn route (fuel + 1) cp cnt x = optionLoop syn route (fuel + 1) cp' cnt x := by
      rw [optionLoop_step hcnt heol hlen hn, optionLoop_step hcnt (h0 ▸ heol) hlen' hn,
        option_congr h (by omega) hin]
      exact ih hrest (agree_skip h n) _
    split_ifs at hwhole with hnop hlast hzero
    · refine hstep 1 one_ne_zero (if_pos hnop) (if_pos (h0 ▸ hnop)) (fun _ => by omega) hwhole
    · subst hlast
      have hkind : actingLen syn (cp 0) = none := Option.isNone_iff_eq_none.mp hwhole
      rw [optionLoop_last heol hkind, optionLoop_last (h0 ▸ heol) (h0 ▸ hkind)]
    all_goals
      have h1 : cp 1 = cp' 1 := h 1 (by omega)
      have hlen : cp.optlen = (cp 1).toNat := if_neg hnop
      have hlen' : cp'.optlen = (cp 1).toNat := by rw [h1]; exact if_neg (h0 ▸ hnop)
    · exact (if_pos (Or.inr (Or.inr (hlen.trans hzero)))).trans
        (if_pos (Or.inr (Or.inr (hlen'.trans hzero)))).symm
    · rw [Bool.and_eq_true, decide_eq_true_eq] at hwhole
      exact hstep _ hzero hlen hlen' hwhole.1 hwhole.2

/-! ### Two memories that differ beyond the area -/

/-- The memory of the area, with the length byte of an option beyond it, and its last byte. -/
def fill (cp : Octets) (cnt n : ℕ) (b : BitVec 8) : Octets := fun i =>
  if i < cnt then cp i else if i = 1 then BitVec.ofNat 8 n else if i + 1 = n then b else 0

theorem agree_fill (cp : Octets) (cnt n : ℕ) (b : BitVec 8) : Agree cnt cp (fill cp cnt n b) :=
  fun _ hi => (if_pos hi).symm

theorem acting_bounds {opt : BitVec 8} (h : actingLen syn opt = some n) :
    opt ≠ TCPOPT_EOL ∧ opt ≠ TCPOPT_NOP ∧ 3 ≤ n ∧ n ≤ 10 := by
  rcases actingLen_cases h with ⟨rfl, -, rfl⟩ | ⟨rfl, -, rfl⟩ | ⟨rfl, rfl⟩ <;> decide

theorem fill_last (hn : 3 ≤ n) (hcut : cnt < n) (b : BitVec 8) (hi : i + 1 = n) :
    fill cp cnt n b i = b := by
  unfold fill
  rw [if_neg (by omega), if_neg (by omega), if_pos hi]

theorem optlen_fill (hcnt : 0 < cnt) (hacts : actingLen syn (cp 0) = some n)
    (hlen : cnt = 1 ∨ (cp 1).toNat = n) (b : BitVec 8) : (fill cp cnt n b).optlen = n := by
  obtain ⟨-, hnop, -, hn⟩ := acting_bounds hacts
  have hkind : fill cp cnt n b 0 = cp 0 := if_pos hcnt
  rw [Octets.optlen, hkind, if_neg hnop]
  unfold fill
  split_ifs with h1
  · exact hlen.resolve_left (by omega)
  · exact Nat.mod_eq_of_lt (by omega)
  all_goals contradiction

/-- **An option that is cut off takes its value from beyond the area.** -/
theorem heard_cut (hcnt : 0 < cnt) (hacts : actingLen syn (cp 0) = some n) (hcut : cnt < n)
    (hlen : cnt = 1 ∨ (cp 1).toNat = n) (fuel : ℕ) (x : Told) :
    (optionLoop syn route (fuel + 1) (fill cp cnt n 0) cnt x).heard ≠
      (optionLoop syn route (fuel + 1) (fill cp cnt n 1) cnt x).heard := by
  obtain ⟨heol, -, hn, -⟩ := acting_bounds hacts
  have hkind (b : BitVec 8) : fill cp cnt n b 0 = cp 0 := if_pos hcnt
  have hloop (b : BitVec 8) :
      optionLoop syn route (fuel + 1) (fill cp cnt n b) cnt x =
        ((fill cp cnt n b).option syn n).elim x (x.act syn route) := by
    rw [optionLoop_step hcnt.ne' ((hkind b).trans_ne heol) (optlen_fill hcnt hacts hlen b)
      (by omega), Nat.sub_eq_zero_of_le hcut.le, optionLoop_zero]
  have hlast (b : BitVec 8) {i : ℕ} (hi : i + 1 = n) : fill cp cnt n b i = b :=
    fill_last hn hcut b hi
  rw [hloop, hloop]
  intro h
  rcases actingLen_cases hacts with ⟨hopt, rfl, rfl⟩ | ⟨hopt, rfl, rfl⟩ | ⟨hopt, rfl⟩
  · rw [option_maxseg ((hkind 0).trans hopt), option_maxseg ((hkind 1).trans hopt)] at h
    have hmss : x.mss ++ [(fill cp cnt TCPOLEN_MAXSEG 0).shortAt 2] =
        x.mss ++ [(fill cp cnt TCPOLEN_MAXSEG 1).shortAt 2] := congrArg Heard.mss h
    have hshort := List.singleton_inj.mp (List.append_cancel_left hmss)
    have hbyte := (Bytes.append_inj_iff.mp hshort).2
    rw [hlast 0 rfl, hlast 1 rfl] at hbyte
    cases hbyte
  · rw [option_window ((hkind 0).trans hopt), option_window ((hkind 1).trans hopt),
      hlast 0 rfl, hlast 1 rfl] at h
    have hscale : (0 : ℕ) = 1 := congrArg Heard.requestedSScale h
    cases hscale
  · rw [option_timestamp ((hkind 0).trans hopt), option_timestamp ((hkind 1).trans hopt)] at h
    have hts := congrArg Prod.snd (Option.some.inj (congrArg Heard.ts h))
    have hbyte := (Bytes.append_inj_iff.mp hts).2
    rw [hlast 0 rfl, hlast 1 rfl] at hbyte
    cases hbyte

/-- A memory that goes on with `cp'` after the first `n` bytes. -/
def join (cp : Octets) (n : ℕ) (cp' : Octets) : Octets :=
  fun i => if i < n then cp i else cp' (i - n)

theorem skip_join (cp : Octets) (n : ℕ) (cp' : Octets) : (join cp n cp').skip n = cp' := by
  funext i
  have hbeyond : ¬ n + i < n := by omega
  rw [Octets.skip, join, if_neg hbeyond, Nat.add_sub_cancel_left]

theorem agree_join (h : Agree (cnt - n) (cp.skip n) cp') : Agree cnt cp (join cp n cp') := by
  intro i hi
  unfold join
  split_ifs with hn
  · rfl
  · rw [← h (i - n) (by omega), Octets.skip, Nat.add_sub_cancel' (by omega)]

/-- **An area that is not whole leaves the values open**: two memories with this area give
different ones, whatever was known before. -/
theorem heard_open {fuel : ℕ} (hwhole : wholeFrom syn fuel cp cnt = false) :
    ∃ cp₁ cp₂, Agree cnt cp cp₁ ∧ Agree cnt cp cp₂ ∧ ∀ x,
      (optionLoop syn route fuel cp₁ cnt x).heard ≠
        (optionLoop syn route fuel cp₂ cnt x).heard := by
  induction fuel generalizing cp cnt with
  | zero => cases hwhole
  | succ fuel ih =>
    rw [wholeFrom] at hwhole
    split_ifs at hwhole with hend hnop hlast hzero
    all_goals obtain ⟨hcnt, heol⟩ := not_or.mp hend
    all_goals
      -- an option of the area changes both memories' values alike
      have hstep (n : ℕ) (hn : n ≠ 0)
          (hlen : ∀ cp', Agree cnt cp cp' → cp'.optlen = n)
          (hin : actingLen syn (cp 0) = some n → n ≤ cnt)
          (hrest : wholeFrom syn fuel (cp.skip n) (cnt - n) = false) :
          ∃ cp₁ cp₂, Agree cnt cp cp₁ ∧ Agree cnt cp cp₂ ∧ ∀ x,
            (optionLoop syn route (fuel + 1) cp₁ cnt x).heard ≠
              (optionLoop syn route (fuel + 1) cp₂ cnt x).heard := by
        obtain ⟨cp₁, cp₂, h₁, h₂, hne⟩ := ih hrest
        refine ⟨join cp n cp₁, join cp n cp₂, agree_join h₁, agree_join h₂, fun x => ?_⟩
        have hturn (cp' : Octets) (h : Agree (cnt - n) (cp.skip n) cp') :
            optionLoop syn route (fuel + 1) (join cp n cp') cnt x =
              optionLoop syn route fuel cp' (cnt - n)
                ((cp.option syn n).elim x (x.act syn route)) := by
          have hagree := agree_join h
          have h0 : cp 0 = join cp n cp' 0 := hagree 0 (by omega)
          rw [optionLoop_step hcnt (h0 ▸ heol) (hlen _ hagree) hn, skip_join,
            option_congr hagree (by omega) hin]
        rw [hturn cp₁ h₁, hturn cp₂ h₂]
        exact hne _
    · refine hstep 1 one_ne_zero (fun cp' h => ?_) (fun _ => by omega) hwhole
      exact if_pos ((h 0 (by omega)).symm.trans hnop)
    · obtain ⟨n, hacts⟩ := Option.ne_none_iff_exists'.mp
        (Option.isNone_eq_false_iff.mp hwhole |> Option.isSome_iff_ne_none.mp)
      obtain ⟨-, -, hn, -⟩ := acting_bounds hacts
      exact ⟨fill cp cnt n 0, fill cp cnt n 1, agree_fill _ _ _ _, agree_fill _ _ _ _,
        heard_cut (by omega) hacts (by omega) (Or.inl hlast) fuel⟩
    · by_cases hin : actingLen syn (cp 0) = some (cp 1).toNat → (cp 1).toNat ≤ cnt
      · rw [decide_eq_true hin] at hwhole
        refine hstep _ hzero (fun cp' h => ?_) hin hwhole
        rw [Octets.optlen, ← h 0 (by omega), ← h 1 (by omega), if_neg hnop]
      · obtain ⟨hacts, hcut⟩ := Classical.not_imp.mp hin
        exact ⟨fill cp cnt _ 0, fill cp cnt _ 1, agree_fill _ _ _ _, agree_fill _ _ _ _,
          heard_cut (by omega) hacts (by omega) (Or.inr rfl) fuel⟩

end Confined

/-- **Octets beyond the options have no influence** on what the connection gets to know from
them, if and only if the area is whole. -/
theorem dooptions_confined_iff :
    (∀ cp₁ cp₂, Agree cnt cp cp₁ → Agree cnt cp cp₂ →
      (tcpDooptionsAt tp syn route cp₁ cnt).heard = (tcpDooptionsAt tp syn route cp₂ cnt).heard) ↔
    whole syn cp cnt = true := by
  constructor
  · intro h
    by_contra hopen
    rw [Bool.not_eq_true] at hopen
    obtain ⟨cp₁, cp₂, h₁, h₂, hne⟩ := heard_open hopen
    exact hne _ (h cp₁ cp₂ h₁ h₂)
  · intro hwhole cp₁ cp₂ h₁ h₂
    exact congrArg Told.heard ((loop_congr hwhole h₁ _).symm.trans (loop_congr hwhole h₂ _))

/-- A connection that is open. -/
def receiving : Tcpcb :=
  { tcpNewtcpcb true true 0 ⟨8192, 8192, false, false, false, false⟩ with tState := .established }

/-- A segment of an open connection ends its options with the kind of a timestamp.  If its
data begins with the length of one, eight bytes of the data become the timestamp; with other
data there is none. -/
theorem dooptions_reads_data :
    ∃ cp₁ cp₂ : Octets, (∀ i < 4, cp₁ i = cp₂ i) ∧
      (tcpDooptionsAt receiving false none cp₁ 4).ts = some (0x61626364, 0x65666768) ∧
      (tcpDooptionsAt receiving false none cp₂ 4).ts = none :=
  ⟨fun i => [1, 1, 1, 8, 10, 0x61, 0x62, 0x63, 0x64, 0x65, 0x66, 0x67, 0x68].getD i 0,
    fun i => [1, 1, 1, 8].getD i 0, by decide, by decide, by decide⟩

end BSDLite2.Tcp
