import BSDLite2.Lib.Bytes
import BSDLite2.Net.BpfValidate

/-!
# Filtering an mbuf chain and filtering a flat buffer

`bpf_tap` hands `bpf_filter` a contiguous packet, `bpf_mtap` hands it the mbuf
chain.  The two are meant to be the same filter.  They are the same instruction
by instruction except in the packet loads, each of which has its own mbuf branch,
and some of those branches go wrong:

* a word or half word that straddles two mbufs is read at twice its offset in
  the first one (`cp` already points at it when it is indexed by `k`);
* a word that straddles three mbufs, or two with an empty one between, is
  rejected;
* the second byte of a straddling half word is read from the next mbuf even if
  that one is empty;
* `BPF_LD|BPF_H|BPF_ABS` past the end loads 0 and goes on;
* `BPF_LD|BPF_B|BPF_IND` sign-extends the byte;
* and a buffer of length 0 is itself taken for an mbuf chain.

`LoadAgrees` is the complement of this list.  `step_agrees_iff` says that at one
instruction it is exactly when the two filters agree, and
`filter_chain_eq_filter_buf` that a run all of whose loads meet it returns the
same value from the chain as from the buffer.  A run on a buffer depends on what
it reads (`filter_reads`).
-/

namespace BSDLite2.Bpf

open Loop Option BitVec List

variable {m : Mb} {s : BpfState} {i : BpfInsn}

/-! ## Chains that hold the bytes of a buffer -/

/-- The packet bytes of one mbuf. -/
def Mb.bytes (m : Mb) : List (BitVec 8) := (range m.mLen).map fun i : ℕ => m.mtod i

/-- The first `n` bytes at `p`. -/
def bufBytes (p : ℤ → BitVec 8) (n : ℕ) : List (BitVec 8) :=
  (range n).map fun i : ℕ => p i

/-- `ms` is a way of splitting the `n` bytes at `p` into mbufs. -/
def Splits (ms : List Mb) (p : ℤ → BitVec 8) (n : ℕ) : Prop :=
  ms.flatMap Mb.bytes = bufBytes p n

variable {p : ℤ → BitVec 8} {rest : List Mb} {n : ℕ}

/-- Splitting off the first mbuf. -/
theorem splits_cons (h : Splits (m :: rest) p n) :
    m.mLen ≤ n ∧ (∀ d : ℕ, d < m.mLen → m.mtod d = p d) ∧
      Splits rest (fun i => p (i + m.mLen)) (n - m.mLen) := by
  have hlen := congrArg length h
  simp only [bufBytes, flatMap_cons, Mb.bytes, length_append, length_map, length_range] at hlen
  have hle : m.mLen ≤ n := by omega
  obtain ⟨c, rfl⟩ : ∃ c, n = m.mLen + c := ⟨n - m.mLen, by omega⟩
  simp only [Splits, bufBytes, flatMap_cons, range_add, map_append] at h
  obtain ⟨h1, h2⟩ := append_inj h (by simp [Mb.bytes])
  refine ⟨hle, fun d hd => ?_, ?_⟩
  · have hget := congrArg (fun l => l[d]?) h1
    simpa [Mb.bytes, hd] using hget
  · rw [Splits, h2]
    simp [bufBytes, add_comm]

theorem splits_nil (h : Splits [] p n) : n = 0 := by
  have hlen := congrArg length h
  simpa [bufBytes] using hlen.symm

/-- The place of byte `k` of the packet in a chain: at offset `j` of `m`, with
the rest of the packet after it in `m` and then in `rest`. -/
structure FoundAt (p : ℤ → BitVec 8) (n k : ℕ) (m : Mb) (rest : List Mb) (j : ℕ) : Prop where
  inside : j < m.mLen
  bytes : ∀ d : ℕ, j + d < m.mLen → m.mtod (j + d : ℕ) = p (k + d : ℕ)
  within : k + (m.mLen - j) ≤ n
  tail : Splits rest (fun i => p (i + (k + (m.mLen - j) : ℕ))) (n - (k + (m.mLen - j)))

theorem FoundAt.byte {k j : ℕ} (h : FoundAt p n k m rest j) (d : ℕ)
    (hd : j + d < m.mLen) : m.mtod (j + d) = p (k + d) := by
  exact_mod_cast h.bytes d hd

/-- Skipping an mbuf that lies before byte `k`. -/
theorem FoundAt.skip {k l j : ℕ} (h : FoundAt (fun i => p (i + l)) (n - l) (k - l) m rest j)
    (hk : l ≤ k) (hn : l ≤ n) : FoundAt p n k m rest j where
  inside := h.inside
  bytes d hd := by
    rw [h.bytes d hd]
    congr 1
    push_cast [hk]
    ring
  within := by
    have := h.within
    omega
  tail := by
    have htail := h.tail
    rw [show n - l - (k - l + (m.mLen - j)) = n - (k + (m.mLen - j)) by omega] at htail
    convert htail using 3
    push_cast [hk]
    ring

/-- An offset past the packet runs off the chain. -/
theorem mindex_eq_none {k : ℕ} (h : Splits (m :: rest) p n) (hk : n ≤ k) :
    mindex m rest k = none := by
  induction rest generalizing m p n k with
  | nil =>
    obtain ⟨hle, -, -⟩ := splits_cons h
    rw [mindex, if_pos (by omega)]
  | cons m₁ rest ih =>
    obtain ⟨hle, -, hrest⟩ := splits_cons h
    rw [mindex, if_pos (by omega), show (k : ℤ) - m.mLen = (k - m.mLen : ℕ) by omega]
    exact ih hrest (by omega)

/-- Any other offset is found in the mbuf that holds that byte. -/
theorem mindex_eq_some {k : ℕ} (h : Splits (m :: rest) p n) (hk : k < n) :
    ∃ (m' : Mb) (rest' : List Mb) (j : ℕ),
      mindex m rest k = some (m', rest', (j : ℤ)) ∧ FoundAt p n k m' rest' j := by
  induction rest generalizing m p n k with
  | nil =>
    obtain ⟨hle, hbytes, hrest⟩ := splits_cons h
    have hn := splits_nil hrest
    rw [mindex, if_neg (by omega)]
    refine ⟨m, [], k, rfl, by omega, fun d hd => hbytes _ hd, by omega, ?_⟩
    rwa [show k + (m.mLen - k) = m.mLen by omega]
  | cons m₁ rest ih =>
    obtain ⟨hle, hbytes, hrest⟩ := splits_cons h
    rw [mindex]
    by_cases hm : m.mLen ≤ k
    · rw [if_pos (by exact_mod_cast hm), show (k : ℤ) - m.mLen = (k - m.mLen : ℕ) by omega]
      obtain ⟨m', rest', j, hidx, hfound⟩ := ih hrest (by omega : k - m.mLen < n - m.mLen)
      exact ⟨m', rest', j, hidx, hfound.skip hm hle⟩
    · rw [if_neg (by exact_mod_cast hm)]
      refine ⟨m, m₁ :: rest, k, rfl, by omega, fun d hd => hbytes _ hd, by omega, ?_⟩
      rwa [show k + (m.mLen - k) = m.mLen by omega]

/-! ## The loads, one by one -/

/-- The length argument of the two calls: `buflen` of the buffer, `wirelen` of
both. -/
def lenArg (n : ℕ) : BitVec 32 := BitVec.ofNat 32 n

/-- A word of the packet at offset `k` lies in one mbuf; or it lies in two
neighbours and doubling the offset of the part in the first one does not change
the bytes read there. -/
def WordOk (m : Mb) (rest : List Mb) (k : ℕ) : Prop :=
  match mindex m rest k with
  | none => True
  | some (m', rest', j) =>
    4 ≤ m'.mLen - j ∨
      ∃ m0 tl, rest' = m0 :: tl ∧ 4 ≤ m0.mLen + m'.mLen - j ∧
        ∀ d : ℕ, j + d < m'.mLen → m'.mtod (j + (j + d)) = m'.mtod (j + d)

/-- A half word of the packet at offset `k` lies in one mbuf, or the two bytes
`m_xhalf` reads instead happen to be equal to it. -/
def HalfOk (p : ℤ → BitVec 8) (m : Mb) (rest : List Mb) (k : ℕ) : Prop :=
  match mindex m rest k with
  | none => True
  | some (m', rest', j) =>
    2 ≤ m'.mLen - j ∨
      ∃ m0 tl, rest' = m0 :: tl ∧ m'.mtod (j + j) = m'.mtod j ∧ m0.mtod 0 = p (k + 1)

/-- No mbuf follows the one that holds byte `k`. -/
def NoneAfter (m : Mb) (rest : List Mb) (k : ℕ) : Prop :=
  match mindex m rest k with
  | none => True
  | some (_, rest', _) => rest' = []

section Loads

variable {p : ℤ → BitVec 8} {n : ℕ} {m : Mb} {rest : List Mb} {k : BitVec 32}

/-- On the chain every bounds test against `buflen` fails, so the mbuf branch is
taken.  It gives what the buffer gives if the buffer is not itself taken for a
chain and the mbuf branch rejects or loads as the buffer's branch does. -/
theorem loadFrom_agrees_iff (hn : n < 2 ^ 32) {past pastChain : Bool} {c : ℕ}
    {flat : (ℤ → BitVec 8) → BitVec 32} {inChain : Mb → List Mb → Load}
    (hwild : inChain m rest ≠ .wild) (hchain : pastChain = true)
    (hpast : past = true ↔ n < c) (hc : 0 < c) :
    loadFrom (.buf p (lenArg n)) past flat inChain =
        loadFrom (.chain m rest) pastChain flat inChain ↔
      0 < n ∧ (n < c → inChain m rest = .reject) ∧
        (c ≤ n → inChain m rest = .value (flat p)) := by
  subst hchain
  rcases Nat.eq_zero_or_pos n with rfl | h0
  · rw [hpast.mpr hc]
    simp [loadFrom, Packet.buflen, lenArg, Ne.symm hwild]
  · have hne : lenArg n ≠ 0 := by
      intro h
      have := congrArg BitVec.toNat h
      simp only [lenArg, BitVec.toNat_ofNat, BitVec.ofNat_eq_ofNat] at this
      omega
    simp only [loadFrom, Packet.buflen, ne_eq, hne, not_false_eq_true, if_true,
      not_true_eq_false, if_false, h0, true_and]
    cases past with
    | true =>
      have hlt : n < c := hpast.mp rfl
      simp [hlt, Nat.not_le.mpr hlt, eq_comm]
    | false =>
      have hle : ¬ n < c := fun h => by simpa using hpast.mpr h
      simp [hle, Nat.le_of_not_lt hle, eq_comm]

theorem toInt_eq_toNat_of_nonneg (hk : 0 ≤ k.toInt) : k.toInt = k.toNat ∧ k.toNat < 2 ^ 31 := by
  rw [toInt_eq_toNat_cond] at *
  split at hk <;> omega

/-- `k + c > buflen` in C is the test it looks like when `k` is not negative. -/
theorem add_gt_lenArg (hk : 0 ≤ k.toInt) (hn : n < 2 ^ 32) {c : BitVec 32}
    (hc : c.toNat < 2 ^ 31) : k + c > lenArg n ↔ n < k.toNat + c.toNat := by
  have hlt := (toInt_eq_toNat_of_nonneg hk).2
  simp only [gt_iff_lt, lt_def, lenArg, toNat_ofNat, toNat_add]
  omega

theorem ge_lenArg (hn : n < 2 ^ 32) : k ≥ lenArg n ↔ n ≤ k.toNat := by
  simp only [ge_iff_le, le_def, lenArg, toNat_ofNat]
  omega

theorem eq_extractLong_iff {a b c d : BitVec 8} {k : ℤ} :
    a ++ b ++ c ++ d = extractLong p k ↔
      ((a = p k ∧ b = p (k + 1)) ∧ c = p (k + 2)) ∧ d = p (k + 3) := by
  rw [extractLong, Bytes.append_inj_iff, Bytes.append_inj_iff, Bytes.append_inj_iff]

/-- Past the end of the packet `m_xword` reports an error. -/
theorem mXword_past (h : Splits (m :: rest) p n) {k : ℕ} (hk : n < k + 4) :
    mXword m rest k = none := by
  by_cases hkn : n ≤ k
  · rw [mXword, mindex_eq_none h hkn]
  · obtain ⟨m', rest', j, hidx, hf⟩ := mindex_eq_some h (by omega : k < n)
    have hw := hf.within
    rw [mXword, hidx]
    simp only
    rw [if_neg (by omega)]
    cases rest' with
    | nil => rfl
    | cons m0 tl =>
      obtain ⟨hle, -, -⟩ := splits_cons hf.tail
      simp only
      rw [if_pos (by omega)]

/-- The word `m_xword` puts together from two mbufs is the packet's word exactly
if the bytes at the doubled offset are those at the right one. -/
theorem straddle_eq_iff {m' m0 : Mb} {tl : List Mb} {k j : ℕ} (hf : FoundAt p n k m' (m0 :: tl) j)
    (h4 : m'.mLen < j + 4) (hs : j + 4 ≤ m0.mLen + m'.mLen) :
    (if (m'.mLen : ℤ) - j = 1 then
        m'.mtod (j + j) ++ m0.mtod 0 ++ m0.mtod 1 ++ m0.mtod 2
      else if (m'.mLen : ℤ) - j = 2 then
        m'.mtod (j + j) ++ m'.mtod (j + (j + 1)) ++ m0.mtod 0 ++ m0.mtod 1
      else m'.mtod (j + j) ++ m'.mtod (j + (j + 1)) ++ m'.mtod (j + (j + 2)) ++ m0.mtod 0) =
      extractLong p k ↔
    ∀ d : ℕ, j + d < m'.mLen → m'.mtod (j + (j + d)) = m'.mtod (j + d) := by
  have hin := hf.inside
  obtain ⟨-, h0, -⟩ := splits_cons hf.tail
  have hnp : ∀ d : ℕ, d < m0.mLen → m0.mtod d = p (k + (m'.mLen - j + d : ℕ)) := by
    intro d hd
    rw [h0 d hd]
    congr 1
    push_cast
    ring
  have hall : (∀ d : ℕ, j + d < m'.mLen → m'.mtod (j + (j + d)) = m'.mtod (j + d)) ↔
      ∀ d : ℕ, d < m'.mLen - j → m'.mtod (j + (j + d)) = p (k + d) := by
    refine forall_congr' fun d => ?_
    constructor
    · intro h hd
      rw [h (by omega), hf.byte d (by omega)]
    · intro h hd
      rw [h (by omega), hf.byte d hd]
  rw [hall]
  obtain hl | hl | hl : m'.mLen - j = 1 ∨ m'.mLen - j = 2 ∨ m'.mLen - j = 3 := by omega
  all_goals
    rw [hl] at hnp ⊢
    have e0 := hnp 0 (by omega)
    push_cast at e0
    simp only [Nat.forall_lt_succ_right]
  · rw [if_pos (by omega), eq_extractLong_iff]
    have e1 := hnp 1 (by omega)
    have e2 := hnp 2 (by omega)
    push_cast at e1 e2
    simp [e0, e1, e2]
  · rw [if_neg (by omega), if_pos (by omega), eq_extractLong_iff]
    have e1 := hnp 1 (by omega)
    push_cast at e1
    simp [e0, e1]
  · rw [if_neg (by omega), if_neg (by omega), eq_extractLong_iff]
    simp [e0]

section

variable (h : Splits (m :: rest) p n) {k : ℕ}

include h

/-- Inside the packet `m_xword` reads the word exactly where `WordOk` holds. -/
theorem mXword_eq_iff (hk : k + 4 ≤ n) :
    mXword m rest k = some (extractLong p k) ↔ WordOk m rest k := by
  obtain ⟨m', rest', j, hidx, hf⟩ := mindex_eq_some h (by omega : k < n)
  rw [mXword, WordOk, hidx]
  simp only
  by_cases h4 : (4 : ℤ) ≤ m'.mLen - j
  · -- the word lies in one mbuf
    have e0 := hf.byte 0 (by omega)
    have e1 := hf.byte 1 (by omega)
    have e2 := hf.byte 2 (by omega)
    have e3 := hf.byte 3 (by omega)
    push_cast [add_zero] at e0 e1 e2 e3
    simp [extractLong, h4, e0, e1, e2, e3]
  · rw [if_neg h4]
    cases rest' with
    | nil => simp [h4]
    | cons m0 tl =>
      simp only [h4, false_or, cons.injEq]
      by_cases hs : (m0.mLen : ℤ) + m'.mLen - j < 4
      · rw [if_pos hs]
        simp
        omega
      · rw [if_neg hs]
        simp only [← apply_ite some, some_inj]
        rw [straddle_eq_iff hf (by omega) (by omega)]
        constructor
        · intro h
          exact ⟨m0, tl, ⟨rfl, rfl⟩, by omega, fun d hd => h d (by omega)⟩
        · rintro ⟨_, _, ⟨rfl, rfl⟩, -, h⟩ d hd
          exact h d (by omega)

/-- Past the end of the packet `m_xhalf` reports an error, unless an mbuf is
left for it to read from. -/
theorem mXhalf_past (hk : n < k + 2) :
    mXhalf m rest k = none ↔ (k + 1 = n → NoneAfter m rest k) := by
  by_cases hkn : n ≤ k
  · rw [mXhalf, mindex_eq_none h hkn]
    simp
    omega
  · obtain ⟨m', rest', j, hidx, hf⟩ := mindex_eq_some h (by omega : k < n)
    have hw := hf.within
    rw [mXhalf, NoneAfter, hidx]
    simp only
    rw [if_neg (by omega)]
    cases rest' with
    | nil => simp
    | cons m0 tl => simp; omega

/-- Inside the packet `m_xhalf` reads something. -/
theorem mXhalf_inside (hk : k + 2 ≤ n) : ∃ v, mXhalf m rest k = some v := by
  obtain ⟨m', rest', j, hidx, hf⟩ := mindex_eq_some h (by omega : k < n)
  rw [mXhalf, hidx]
  simp only
  by_cases h2 : (m'.mLen : ℤ) - j ≥ 2
  · exact ⟨_, if_pos h2⟩
  · rw [if_neg h2]
    cases rest' with
    | nil =>
      have hend := splits_nil hf.tail
      omega
    | cons m0 tl => exact ⟨_, rfl⟩

/-- Inside the packet `m_xhalf` reads the half word exactly where `HalfOk`
holds. -/
theorem mXhalf_eq_iff (hk : k + 2 ≤ n) :
    mXhalf m rest k = some (extractShort p k) ↔ HalfOk p m rest k := by
  obtain ⟨m', rest', j, hidx, hf⟩ := mindex_eq_some h (by omega : k < n)
  have hin := hf.inside
  have e0 : m'.mtod j = p k := by simpa using hf.bytes 0 (by omega)
  rw [mXhalf, HalfOk, hidx]
  simp only
  by_cases h2 : (2 : ℤ) ≤ m'.mLen - j
  · have e1 := hf.bytes 1 (by omega)
    push_cast at e1
    simp [extractShort, h2, e0, e1]
  · rw [if_neg h2]
    cases rest' with
    | nil => simp [h2]
    | cons m0 tl =>
      have hinj : ∀ x y : BitVec 16, x.setWidth 32 = y.setWidth 32 ↔ x = y := by
        intro x y
        refine ⟨fun h => ?_, fun h => by rw [h]⟩
        have := congrArg (setWidth 16) h
        simpa using this
      simp only [h2, false_or, cons.injEq, some_inj, extractShort]
      rw [hinj, Bytes.append_inj_iff, e0]
      constructor
      · rintro ⟨ha, hb⟩
        exact ⟨m0, tl, ⟨rfl, rfl⟩, ha, hb⟩
      · rintro ⟨_, _, ⟨rfl, rfl⟩, ha, hb⟩
        exact ⟨ha, hb⟩

end

/-! With the bounds tests and the mbuf walks understood, each load agrees with
its flat twin exactly under a condition on the bytes and the split. -/

variable (hn : n < 2 ^ 32) (hk : 0 ≤ k.toInt) (h : Splits (m :: rest) p n)

include hn hk h

theorem loadWord_agrees_iff :
    loadWord (.buf p (lenArg n)) k = loadWord (.chain m rest) k ↔
      0 < n ∧ (k.toNat + 4 ≤ n → WordOk m rest k.toNat) := by
  have hkn := (toInt_eq_toNat_of_nonneg hk).1
  refine (loadFrom_agrees_iff hn (c := k.toNat + 4) (by split <;> simp)
    (decide_eq_true ((add_gt_lenArg hk (by decide) (by decide)).mpr (by simp)))
    (decide_eq_true_iff.trans (add_gt_lenArg hk hn (by decide))) (by omega)).trans
    (and_congr_right fun _ => ?_)
  rw [hkn]
  constructor
  · rintro ⟨-, hin⟩ hle
    rw [← mXword_eq_iff h hle]
    have := hin hle
    split at this <;> simp_all
  · intro hok
    refine ⟨fun hlt => by rw [mXword_past h hlt], fun hle => ?_⟩
    rw [(mXword_eq_iff h hle).mpr (hok hle)]

theorem loadHalf_agrees_iff {onErr : Load} (herr : onErr ≠ .wild) :
    loadHalf onErr (.buf p (lenArg n)) k = loadHalf onErr (.chain m rest) k ↔
      0 < n ∧ (n < k.toNat + 2 → onErr = .reject ∧ mXhalf m rest k.toNat = none) ∧
        (k.toNat + 2 ≤ n → HalfOk p m rest k.toNat) := by
  have hkn := (toInt_eq_toNat_of_nonneg hk).1
  refine (loadFrom_agrees_iff hn (c := k.toNat + 2) (by split <;> simp [herr])
    (decide_eq_true ((add_gt_lenArg hk (by decide) (by decide)).mpr (by simp)))
    (decide_eq_true_iff.trans (add_gt_lenArg hk hn (by decide))) (by omega)).trans
    (and_congr_right fun _ => and_congr (forall_congr' fun _ => ?_)
      (forall_congr' fun hle => ?_))
  · rw [hkn]
    split <;> simp_all
  · rw [hkn, ← mXhalf_eq_iff h hle]
    obtain ⟨v, hv⟩ := mXhalf_inside h hle
    simp [hv]

theorem loadHalfAbs_agrees_iff :
    loadHalfAbs (.buf p (lenArg n)) k = loadHalfAbs (.chain m rest) k ↔
      k.toNat + 2 ≤ n ∧ HalfOk p m rest k.toNat := by
  rw [loadHalfAbs, loadHalf_agrees_iff hn hk h (by simp)]
  simp only [reduceCtorEq, false_and, imp_false, not_lt]
  constructor
  · rintro ⟨-, hle, hok⟩
    exact ⟨hle, hok hle⟩
  · rintro ⟨hle, hok⟩
    exact ⟨by omega, hle, fun _ => hok⟩

theorem loadHalfInd_agrees_iff :
    loadHalfInd (.buf p (lenArg n)) k = loadHalfInd (.chain m rest) k ↔
      0 < n ∧ (k.toNat + 1 = n → NoneAfter m rest k.toNat) ∧
        (k.toNat + 2 ≤ n → HalfOk p m rest k.toNat) := by
  rw [loadHalfInd, loadHalf_agrees_iff hn hk h (by simp)]
  refine and_congr_right fun _ => and_congr_left fun _ => ?_
  constructor
  · intro hpast heq
    exact (mXhalf_past h (by omega)).mp (hpast (by omega)).2 heq
  · intro hend hlt
    exact ⟨rfl, (mXhalf_past h hlt).mpr hend⟩

theorem loadByte_agrees_iff (uChar char : BitVec 8 → BitVec 32) :
    loadByte uChar char (.buf p (lenArg n)) k = loadByte uChar char (.chain m rest) k ↔
      0 < n ∧ (k.toNat < n → uChar (p k.toNat) = char (p k.toNat)) := by
  have hkn := (toInt_eq_toNat_of_nonneg hk).1
  refine (loadFrom_agrees_iff hn (by split <;> simp)
    (decide_eq_true ((ge_lenArg (by decide)).mpr (by simp)))
    (decide_eq_true_iff.trans ((ge_lenArg hn).trans Nat.lt_succ_iff.symm)) (by omega)).trans
    (and_congr_right fun _ => ?_)
  rw [hkn]
  by_cases hp : n ≤ k.toNat
  · rw [mindex_eq_none h hp]
    simp
    omega
  · obtain ⟨m', rest', j, hidx, hf⟩ := mindex_eq_some h (by omega : k.toNat < n)
    have e0 : m'.mtod j = p k.toNat := by simpa using hf.bytes 0 (by simpa using hf.inside)
    rw [hidx]
    simp [e0, hp, Nat.lt_of_not_le hp, Nat.succ_le_of_lt (Nat.lt_of_not_le hp), eq_comm]

end Loads

/-! ## Instructions and runs -/

/-- The offset a packet load of `i` uses. -/
def loadOffset (i : BpfInsn) (s : BpfState) : Option (BitVec 32) :=
  match decode i.code with
  | .ldAbs _ | .ldxMsh => some i.k
  | .ldInd _ => some (s.X + i.k)
  | _ => none

/-- **When a load may use either branch.**  The condition on the instruction, the
packet and its split under which the mbuf branch of a load does what its buffer
branch does. -/
def LoadAgrees (p : ℤ → BitVec 8) (n : ℕ) (m : Mb) (rest : List Mb) (i : BpfInsn)
    (s : BpfState) : Prop :=
  match decode i.code with
  | .ldAbs .W => 0 < n ∧ (i.k.toNat + 4 ≤ n → WordOk m rest i.k.toNat)
  | .ldInd .W => 0 < n ∧ ((s.X + i.k).toNat + 4 ≤ n → WordOk m rest (s.X + i.k).toNat)
  | .ldAbs .H => i.k.toNat + 2 ≤ n ∧ HalfOk p m rest i.k.toNat
  | .ldInd .H =>
    0 < n ∧ ((s.X + i.k).toNat + 1 = n → NoneAfter m rest (s.X + i.k).toNat) ∧
      ((s.X + i.k).toNat + 2 ≤ n → HalfOk p m rest (s.X + i.k).toNat)
  | .ldInd .B => 0 < n ∧ ((s.X + i.k).toNat < n → (p (s.X + i.k).toNat).msb = false)
  | .ldAbs .B | .ldxMsh => 0 < n
  | _ => True

theorem afterLoad_inj {l l' : Load} {set : BitVec 32 → BpfState}
    (hset : Function.Injective fun v => (set v).advance) :
    afterLoad l set = afterLoad l' set ↔ l = l' := by
  constructor
  · intro h
    cases l <;> cases l' <;> simp_all [afterLoad]
    exact hset h
  · rintro rfl
    rfl

/-- Two packets are told apart by an instruction only through its load. -/
theorem exec_eq_iff {pkt pkt' : Packet} {wirelen : BitVec 32} :
    exec pkt wirelen i s = exec pkt' wirelen i s ↔
      packetLoad pkt i s = packetLoad pkt' i s := by
  have hA : Function.Injective fun v => (s.setA v).advance := fun _ _ => congrArg BpfState.A
  have hX : Function.Injective fun v => (s.setX v).advance := fun _ _ => congrArg BpfState.X
  cases hop : decode i.code with
  | ldAbs size | ldInd size =>
    cases size <;> simp only [exec, packetLoad, hop, some_inj, afterLoad_inj hA]
  | ldxMsh => simp only [exec, packetLoad, hop, some_inj, afterLoad_inj hX]
  | alu op src => cases op <;> cases src <;> simp [exec, packetLoad, hop]
  | _ => simp [exec, packetLoad, hop]

/-- `char` and `u_char` differ on the bytes above 0x7f. -/
theorem setWidth_eq_signExtend_iff (b : BitVec 8) :
    b.setWidth 32 = b.signExtend 32 ↔ b.msb = false := by
  decide +revert

/-- The low four bits do not depend on the extension. -/
theorem msh_setWidth_eq_msh_signExtend (b : BitVec 8) :
    msh (b.setWidth 32) = msh (b.signExtend 32) := by
  decide +revert

/-- One load agrees exactly under `LoadAgrees`. -/
theorem packetLoad_agrees_iff (hn : n < 2 ^ 32)
    (h : Splits (m :: rest) p n) (hoff : ∀ k, loadOffset i s = some k → 0 ≤ k.toInt) :
    packetLoad (.buf p (lenArg n)) i s = packetLoad (.chain m rest) i s ↔
      LoadAgrees p n m rest i s := by
  cases hop : decode i.code with
  | ldAbs size =>
    have hk : 0 ≤ i.k.toInt := hoff i.k (by simp [loadOffset, hop])
    cases size <;> simp only [packetLoad, hop, LoadAgrees, some_inj]
    case W => exact loadWord_agrees_iff hn hk h
    case H => exact loadHalfAbs_agrees_iff hn hk h
    case B => exact (loadByte_agrees_iff hn hk h _ _).trans (by simp)
  | ldInd size =>
    have hk : 0 ≤ (s.X + i.k).toInt := hoff _ (by simp [loadOffset, hop])
    cases size <;>
      simp only [packetLoad, hop, LoadAgrees, some_inj, ← setWidth_eq_signExtend_iff]
    case W => exact loadWord_agrees_iff hn hk h
    case H => exact loadHalfInd_agrees_iff hn hk h
    case B => exact loadByte_agrees_iff hn hk h _ _
  | ldxMsh =>
    have hk : 0 ≤ i.k.toInt := hoff i.k (by simp [loadOffset, hop])
    simp only [packetLoad, hop, LoadAgrees, some_inj]
    exact (loadByte_agrees_iff hn hk h _ _).trans
      (by simp [msh_setWidth_eq_msh_signExtend])
  | _ => simp [packetLoad, LoadAgrees, hop]

section Runs

variable {f : List BpfInsn} {p : ℤ → BitVec 8} {n : ℕ} {m : Mb} {rest : List Mb}

/-- One instruction does the same on the chain as on the buffer exactly under
`LoadAgrees`. -/
theorem step_agrees_iff (hn : n < 2 ^ 32) (h : Splits (m :: rest) p n)
    (hi : fetch f s.pc = some i) (hoff : ∀ k, loadOffset i s = some k → 0 ≤ k.toInt) :
    step f (.buf p (lenArg n)) (lenArg n) s = step f (.chain m rest) (lenArg n) s ↔
      LoadAgrees p n m rest i s := by
  simp only [step, hi]
  rw [exec_eq_iff, packetLoad_agrees_iff hn h hoff]

/-- **The chain and the buffer, over a whole run.**  Take a program whose run on
the buffer uses no negative load offset.  The run on the chain goes through the
same states exactly if every load the run executes meets `LoadAgrees`, and then
the filter returns the same value from the chain as from the buffer. -/
theorem filter_chain_eq_filter_buf (hn : n < 2 ^ 32) (h : Splits (m :: rest) p n)
    (A X : BitVec 32) (mem : Fin BPF_MEMWORDS → BitVec 32)
    (hoff : ∀ s i k, Reaches (step f (.buf p (lenArg n)) (lenArg n)) (start A X mem) s →
      fetch f s.pc = some i → loadOffset i s = some k → 0 ≤ k.toInt) :
    ((∀ s, Reaches (step f (.buf p (lenArg n)) (lenArg n)) (start A X mem) s →
        step f (.buf p (lenArg n)) (lenArg n) s = step f (.chain m rest) (lenArg n) s) ↔
      ∀ s i, Reaches (step f (.buf p (lenArg n)) (lenArg n)) (start A X mem) s →
        fetch f s.pc = some i → LoadAgrees p n m rest i s) ∧
    ((∀ s i, Reaches (step f (.buf p (lenArg n)) (lenArg n)) (start A X mem) s →
        fetch f s.pc = some i → LoadAgrees p n m rest i s) →
      ∀ fuel, bpfFilter fuel (some f) (.chain m rest) (lenArg n) (start A X mem) =
        bpfFilter fuel (some f) (.buf p (lenArg n)) (lenArg n) (start A X mem)) := by
  refine (and_iff_left_of_imp fun hiff hok fuel => (runFor_congr (hiff.mpr hok) fuel).symm).mpr ?_
  constructor
  · intro heq s i hs hi
    exact (step_agrees_iff hn h hi fun k => hoff s i k hs hi).mp (heq s hs)
  · intro hok s hs
    cases hi : fetch f s.pc with
    | none => simp [step, hi]
    | some i => exact (step_agrees_iff hn h hi fun k => hoff s i k hs hi).mpr (hok s i hs hi)

end Runs

/-- The packet `01 02 03 04 05`. -/
def fiveBytes (i : ℤ) : BitVec 8 := BitVec.ofInt 8 (i + 1)

/-- Its first two bytes in an mbuf, with zeros behind them. -/
def firstTwo : Mb := ⟨2, fun i => if i < 2 then fiveBytes i else 0⟩

/-- Its last three bytes in another. -/
def lastThree : Mb := ⟨3, fun i => fiveBytes (i + 2)⟩

/-- A packet of the one byte `80`. -/
def oneByte : Mb := ⟨1, fun _ => 0x80⟩

/-- `code #k; ret A`. -/
def loadProgram (code : BitVec 16) (k : BitVec 32) : List BpfInsn :=
  [⟨code, 0, 0, k⟩, ⟨BPF_RET ||| BPF_A, 0, 0, 0⟩]

/-- **What a filter decides** depends on the bytes that its loads read, and on no others. -/
theorem filter_reads (f : List BpfInsn) (p q : ℤ → BitVec 8) (buflen wirelen : BitVec 32)
    (s : BpfState) (fuel : ℕ)
    (same : ∀ t i, Reaches (step f (.buf p buflen) wirelen) s t → fetch f t.pc = some i →
      ∀ j ∈ bytesRead buflen i t, p j = q j) :
    bpfFilter fuel (some f) (.buf p buflen) wirelen s =
      bpfFilter fuel (some f) (.buf q buflen) wirelen s := by
  refine runFor_congr (fun t ht => ?_) fuel
  unfold step
  cases hi : fetch f t.pc with
  | none => rfl
  | some i => exact exec_eq_iff.mpr (packetLoad_congr (same t i ht hi))

/-- A filter that loads the first byte does not see the others. -/
theorem filter_reads_first :
    bpfFilter 2 (some (loadProgram (BPF_LD ||| BPF_B ||| BPF_ABS) 0)) (.buf fiveBytes 5) 5
        (start 0 0 fun _ => 0) =
      bpfFilter 2 (some (loadProgram (BPF_LD ||| BPF_B ||| BPF_ABS) 0))
        (.buf (fun _ => fiveBytes 0) 5) 5 (start 0 0 fun _ => 0) := by
  refine filter_reads _ _ _ _ _ _ _ fun t i _ hi => ?_
  rcases List.mem_pair.mp (fetch_eq_some hi).2.2 with rfl | rfl
  · exact List.forall_mem_singleton.mpr rfl
  · exact List.forall_mem_nil _

/-- `ld [0]; ret A` reads a word that begins an mbuf and ends in the next, which
is the case the doubled offset leaves alone. -/
theorem word_at_zero_agrees :
    Splits [firstTwo, lastThree] fiveBytes 5 ∧
      ∀ fuel, bpfFilter fuel (some (loadProgram (BPF_LD ||| BPF_W ||| BPF_ABS) 0))
          (.chain firstTwo [lastThree]) (lenArg 5) (start 0 0 fun _ => 0) =
        bpfFilter fuel (some (loadProgram (BPF_LD ||| BPF_W ||| BPF_ABS) 0))
          (.buf fiveBytes (lenArg 5)) (lenArg 5) (start 0 0 fun _ => 0) := by
  have hsplit : Splits [firstTwo, lastThree] fiveBytes 5 := by
    unfold Splits
    decide
  have hinsns : ∀ j ∈ loadProgram (BPF_LD ||| BPF_W ||| BPF_ABS) 0,
      (decode j.code = .ldAbs .W ∧ j.k = 0) ∨ decode j.code = .retA := by decide
  refine ⟨hsplit, (filter_chain_eq_filter_buf (by decide) hsplit 0 0 _ ?_).2 ?_⟩
  · intro s i k _ hi hk
    rcases hinsns i (fetch_eq_some hi).2.2 with ⟨hop, h0⟩ | hop
    · simp only [loadOffset, hop, h0, some_inj] at hk
      rw [← hk]
      decide
    · simp [loadOffset, hop] at hk
  · intro s i _ hi
    rcases hinsns i (fetch_eq_some hi).2.2 with ⟨hop, h0⟩ | hop
    · simp only [LoadAgrees, hop, h0]
      refine ⟨by decide, fun _ => ?_⟩
      exact .inr ⟨lastThree, [], rfl, by decide, fun d _ => by simp⟩
    · simp [LoadAgrees, hop]

/-- **Where the chain and the buffer part.**  Accepted programs that load at a
non-negative offset and return what they loaded: a word split two and three, a
half word at the end, and an indexed byte above 0x7f. -/
theorem chain_ne_buf :
    (bpfValidate (loadProgram (BPF_LD ||| BPF_W ||| BPF_ABS) 1) = true ∧
      Splits [firstTwo, lastThree] fiveBytes 5 ∧
      bpfFilter 2 (some (loadProgram (BPF_LD ||| BPF_W ||| BPF_ABS) 1))
        (.buf fiveBytes (lenArg 5)) (lenArg 5) (start 0 0 fun _ => 0) = .done 0x02030405 ∧
      bpfFilter 2 (some (loadProgram (BPF_LD ||| BPF_W ||| BPF_ABS) 1))
        (.chain firstTwo [lastThree]) (lenArg 5) (start 0 0 fun _ => 0) = .done 0x00030405) ∧
    (bpfValidate (loadProgram (BPF_LD ||| BPF_B ||| BPF_IND) 0) = true ∧
      Splits [oneByte] oneByte.mtod 1 ∧
      bpfFilter 2 (some (loadProgram (BPF_LD ||| BPF_B ||| BPF_IND) 0))
        (.buf oneByte.mtod (lenArg 1)) (lenArg 1) (start 0 0 fun _ => 0) = .done 0x80 ∧
      bpfFilter 2 (some (loadProgram (BPF_LD ||| BPF_B ||| BPF_IND) 0))
        (.chain oneByte []) (lenArg 1) (start 0 0 fun _ => 0) = .done 0xffffff80) := by
  refine ⟨⟨by decide, ?_, rfl, rfl⟩, by decide, ?_, rfl, rfl⟩ <;>
    unfold Splits <;> decide

end BSDLite2.Bpf
