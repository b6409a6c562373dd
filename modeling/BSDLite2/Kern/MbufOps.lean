import BSDLite2.Kern.MbufChain

/-!
# The mbuf routines (`kern/uipc_mbuf.c`)

The routines on chains of mbufs walk the chain, and cut, move or copy the data mbuf by mbuf.  They
are modelled with what they may leave behind: an mbuf from the free list holds anything (`Junk`), a
chain may be null, and `m_len` may be zero.  Each loop is described by the bytes of the chain alone,
in terms of `take` and `drop`; which mbuf a byte is in matters only where the source tests it.

* `Buf.Valid` says that the data of an mbuf lie in it;
* `mPrepend`, `mCopym`, `mCopydata`, `mCat`, `mAdjust`, `mSplit` — the routines, together with
  `mPullup`;
* `seek_spec`, `locate_spec` — a place in the chain is found;
* `copydataLoop_eq`, `copyLoop_spec`, `trimBack_last`, `trimBack_count`, `catBufs_spec`,
  `mPullup_total`, `split_first`, `split_second` — what the loops do with the
  bytes, and that the mbufs stay valid.
-/

namespace BSDLite2.Mbuf

open List

/-! ## Chains -/

def M_COPYALL : ℕ := 1000000000

/-- **The data of an mbuf lie in it**, or in its cluster. -/
def Buf.Valid (m : Buf) : Prop :=
  (m.ext = true → m.bytes.length ≤ MCLBYTES) ∧
    (m.ext = false → m.start + m.bytes.length ≤ MLEN ∧ (m.pkthdr = true → MLEN - MHLEN ≤ m.start))

namespace Mbufs

/-- A chain whose mbufs are valid, and whose header is that of the first. -/
structure Wf (c : Mbufs) : Prop where
  valid : ∀ m ∈ c.bufs, m.Valid
  head : c.bufs.head?.map Buf.pkthdr = c.bufs.head?.map fun _ => c.hdr.isSome

/-- The length in the header, if there is one, is that of the data. -/
def Sized (c : Mbufs) : Prop := ∀ n ∈ c.hdr, n = c.bytes.length

/-- No chain. -/
def null : Mbufs := ⟨none, []⟩

end Mbufs

/-! ## The routines -/

/-- What memory holds that is not set. -/
structure Junk where
  /-- the bytes of a new mbuf -/
  fresh : ℕ → BitVec 8
  /-- the data that `m_len` of a new mbuf stands for before it is set -/
  stale : List (BitVec 8)
  /-- `m_pkthdr.len` of a header that is further in -/
  inner : ℤ

/-- `M_ALIGN` and `MH_ALIGN`. -/
def aligned (room len : ℕ) : ℕ := (room - len) / 4 * 4

/-- Where data begin in an mbuf with or without a header. -/
def origin (pkthdr : Bool) : ℕ := if pkthdr then MLEN - MHLEN else 0

/-- The header has been moved to another mbuf. -/
def clearHdr : List Buf → List Buf
  | [] => []
  | m :: c => { m with pkthdr := false } :: c

/-- `m_prepend`. -/
def mPrepend (junk : Junk) (len : ℕ) (c : Mbufs) : Mbufs where
  hdr := c.hdr
  bufs :=
    { ext := false
      pkthdr := c.hdr.isSome
      start := origin c.hdr.isSome + if len < MHLEN then aligned MHLEN len else 0
      bytes := (List.range len).map junk.fresh } :: clearHdr c.bufs

/-- The first loop of `m_copym` and of `m_copydata`. -/
def seek : ℕ → List Buf → Option (ℕ × List Buf)
  | off, [] => if off = 0 then some (0, []) else none
  | off, m :: c =>
    if off = 0 ∨ off < m.bytes.length then some (off, m :: c)
    else seek (off - m.bytes.length) c

/-- The copy of an mbuf, from `off` on; clusters are shared. -/
def copyBuf (pkthdr : Bool) (len off : ℕ) (m : Buf) : Buf where
  ext := m.ext
  pkthdr := pkthdr
  start := if m.ext then m.start + off else origin pkthdr
  bytes := (m.bytes.drop off).take len

/-- What is left of `len` in `m_copym`. -/
def copyLeft (len off : ℕ) (m : Buf) : ℕ :=
  if len = M_COPYALL then len else len - min len (m.bytes.length - off)

/-- The second loop of `m_copym`. -/
def copyLoop : Bool → ℕ → ℕ → List Buf → Option (List Buf)
  | _, len, _, [] => if len = 0 ∨ len = M_COPYALL then some [] else none
  | copyhdr, len, off, m :: c =>
    if len = 0 then some []
    else (copyLoop false (copyLeft len off m) 0 c).map (copyBuf copyhdr len off m :: ·)

/-- `m_copym`. -/
def mCopym (off len : ℕ) (c : Mbufs) : Option Mbufs :=
  let copyhdr := decide (off = 0) && c.hdr.isSome
  (seek off c.bufs).bind fun r => (copyLoop copyhdr len r.1 r.2).map fun top =>
    { hdr :=
        if copyhdr ∧ top ≠ [] then c.hdr.map fun n => if len = M_COPYALL then n - off else len
        else none
      bufs := top }

/-- The second loop of `m_copydata`. -/
def copydataLoop : ℕ → ℕ → List Buf → List (BitVec 8)
  | _, _, [] => []
  | len, off, m :: c =>
    if len = 0 then []
    else
      (m.bytes.drop off).take (min (m.bytes.length - off) len) ++
        copydataLoop (len - min (m.bytes.length - off) len) 0 c

/-- `m_copydata`. -/
def mCopydata (off len : ℕ) (c : Mbufs) : Option (List (BitVec 8)) :=
  (seek off c.bufs).map fun r => copydataLoop len r.1 r.2

/-- The second loop of `m_cat`, for the last mbuf of the first chain. -/
def catBuf (m : Buf) : List Buf → List Buf
  | [] => [m]
  | n :: c =>
    if m.ext ∨ m.start + m.bytes.length + n.bytes.length ≥ MLEN then m :: n :: c
    else catBuf { m with bytes := m.bytes ++ n.bytes } c

/-- The first loop of `m_cat`. -/
def catBufs : List Buf → List Buf → List Buf
  | [], c => c
  | [m], c => catBuf m c
  | m :: m' :: b, c => m :: catBufs (m' :: b) c

/-- `m_cat`. -/
def mCat (b c : Mbufs) : Mbufs := ⟨b.hdr, catBufs b.bufs c.bufs⟩

/-- `m_adj`, unless the length is the least `int`, which is its own negative: the last mbuf is left
with a negative length then, and there is no chain any more. -/
def mAdjust (reqLen : BitVec 32) (c : Mbufs) : Option Mbufs :=
  if reqLen = BitVec.intMin 32 then none else some (mAdj c reqLen.toInt)

/-- The loop of `m_split`: the mbufs before the one to split, where to split it, and the rest. -/
def locate : ℕ → List Buf → Option (List Buf × ℕ × Buf × List Buf)
  | _, [] => none
  | len, m :: c =>
    if len > m.bytes.length then
      (locate (len - m.bytes.length) c).map fun r => (m :: r.1, r.2)
    else some ([], len, m, c)

/-- The part of an mbuf that goes to the second chain. -/
def tailBuf (pkthdr : Bool) (len : ℕ) (m : Buf) : Buf where
  ext := m.ext
  pkthdr := pkthdr
  start :=
    if m.ext then m.start + len
    else origin pkthdr + aligned (if pkthdr then MHLEN else MLEN) (m.bytes.length - len)
  bytes := m.bytes.drop len

/-- The part that stays. -/
def headBuf (len : ℕ) (m : Buf) : Buf := { m with bytes := m.bytes.take len }

/-- `m_split` without a header: what is left of the mbuf, and the second chain. -/
def splitBuf (len : ℕ) (m : Buf) (rest : List Buf) : List Buf :=
  if m.bytes.length - len = 0 then rest else tailBuf false len m :: rest

/-- The header that goes before an mbuf that has more data than a header has room for. -/
def leadBuf (junk : Junk) : Buf where
  ext := false
  pkthdr := true
  start := origin true + aligned MHLEN 0
  bytes := junk.stale

/-- The first mbuf has a header. -/
def leadsHdr (c : List Buf) : Bool := c.head?.any Buf.pkthdr

/-- `m_split`: what is left of the chain, and the second chain. -/
def mSplit (junk : Junk) (len0 : ℕ) (c : Mbufs) : Option (Mbufs × Mbufs) :=
  (locate len0 c.bufs).map fun r =>
    match c.hdr with
    | none =>
      (⟨none, r.1 ++ [headBuf r.2.1 r.2.2.1]⟩,
        ⟨if leadsHdr (splitBuf r.2.1 r.2.2.1 r.2.2.2) then some junk.inner else none,
          splitBuf r.2.1 r.2.2.1 r.2.2.2⟩)
    | some n =>
      (⟨some len0, r.1 ++ [headBuf r.2.1 r.2.2.1]⟩,
        ⟨some (n - len0),
          if r.2.2.1.ext = false ∧ r.2.2.1.bytes.length - r.2.1 > MHLEN then
            -- the mbuf has no header itself, as it has more data than that would leave room for
            leadBuf junk :: splitBuf r.2.1 r.2.2.1 r.2.2.2
          else tailBuf true r.2.1 r.2.2.1 :: r.2.2.2⟩)

/-! ## Finding a place in a chain -/

section

variable {m : Buf} {c : List Buf}

theorem length_bytesOf_cons : (bytesOf (m :: c)).length = m.bytes.length + (bytesOf c).length := by
  rw [bytesOf_cons, length_append]

theorem bytesOf_append (b c : List Buf) : bytesOf (b ++ c) = bytesOf b ++ bytesOf c :=
  flatMap_append

theorem bytesOf_clearHdr (c : List Buf) : bytesOf (clearHdr c) = bytesOf c := by
  cases c <;> rfl

end

/-- A place within a chain is found: the mbufs skipped, and the place in the rest. -/
theorem seek_spec (c : List Buf) (off : ℕ) (h : off ≤ (bytesOf c).length) :
    ∃ pre off' c', seek off c = some (off', c') ∧ c = pre ++ c' ∧
      off = (bytesOf pre).length + off' ∧ off' ≤ firstLen c' := by
  induction c generalizing off with
  | nil =>
    have hoff : off = 0 := by simpa using h
    exact ⟨[], 0, [], by simp [seek, hoff], rfl, by simp [hoff], by simp [firstLen]⟩
  | cons m c ih =>
    by_cases hstop : off = 0 ∨ off < m.bytes.length
    · refine ⟨[], off, m :: c, if_pos hstop, rfl, by simp, ?_⟩
      rw [firstLen_cons]
      omega
    · rw [length_bytesOf_cons] at h
      obtain ⟨pre, off', c', hseek, hc, hoff, hle⟩ := ih (off - m.bytes.length) (by omega)
      refine ⟨m :: pre, off', c', (if_neg hstop).trans hseek, by rw [hc, cons_append], ?_,
        hle⟩
      rw [length_bytesOf_cons]
      omega

variable {pre : List Buf}

/-- The bytes from a place that was found. -/
theorem drop_bytesOf {c' : List Buf} {off off' : ℕ} (h : off = (bytesOf pre).length + off') :
    (bytesOf (pre ++ c')).drop off = (bytesOf c').drop off' := by
  rw [bytesOf_append, h]
  simp

theorem locate_spec (c : List Buf) (len : ℕ) (hne : c ≠ []) (h : len ≤ (bytesOf c).length) :
    ∃ pre len' m post, locate len c = some (pre, len', m, post) ∧ c = pre ++ m :: post ∧
      len = (bytesOf pre).length + len' ∧ len' ≤ m.bytes.length := by
  induction c generalizing len with
  | nil => exact absurd rfl hne
  | cons m c ih =>
    rw [locate]
    by_cases hmore : len > m.bytes.length
    · rw [length_bytesOf_cons] at h
      have hne : c ≠ [] := by
        rintro rfl
        simp at h
        omega
      obtain ⟨pre, len', m', post, hloc, hc, hlen, hle⟩ :=
        ih (len - m.bytes.length) hne (by omega)
      refine ⟨m :: pre, len', m', post, ?_, by rw [hc, cons_append], ?_, hle⟩
      · rw [if_pos hmore, hloc, Option.map_some]
      · rw [length_bytesOf_cons]
        omega
    · exact ⟨[], len, m, c, if_neg hmore, rfl, by simp, not_lt.mp hmore⟩

/-! ## Copies -/

/-- **`m_copydata`** copies the slice. -/
theorem copydataLoop_eq (c : List Buf) (len off : ℕ) (hoff : off ≤ firstLen c) :
    copydataLoop len off c = ((bytesOf c).drop off).take len := by
  induction c generalizing len off with
  | nil => simp [copydataLoop]
  | cons m c ih =>
    rw [copydataLoop]
    by_cases hlen : len = 0
    · rw [if_pos hlen, hlen, take_zero]
    · have hleft : len - min (m.bytes.length - off) len = len - (m.bytes.length - off) := by omega
      have htake : (m.bytes.drop off).take (min (m.bytes.length - off) len) =
          (m.bytes.drop off).take len := by
        rw [take_eq_take_iff, length_drop]
        omega
      rw [if_neg hlen, ih _ 0 (Nat.zero_le _), hleft, htake, bytesOf_cons,
        drop_append_of_le_length hoff, take_append, length_drop, drop_zero]

/-- `m_copym` takes what is left of a length for `M_COPYALL` if it gets to that number between
two mbufs. -/
def RunsOn (c : List Buf) (off len : ℕ) : Prop :=
  M_COPYALL < len ∧ ∃ j, (bytesOf (c.take j)).length + M_COPYALL = off + len

variable {len : ℕ} {c : List Buf}

theorem runsOn_append {off off' : ℕ} (hoff : off = (bytesOf pre).length + off') :
    RunsOn (pre ++ c) off len ↔ RunsOn c off' len := by
  refine and_congr_right fun hlen => ⟨?_, ?_⟩
  · rintro ⟨j, hj⟩
    rcases le_or_gt j pre.length with hle | hgt
    · exfalso
      have hsplit : (bytesOf pre).length =
          (bytesOf (pre.take j)).length + (bytesOf (pre.drop j)).length := by
        rw [← length_append, ← bytesOf_append, take_append_drop]
      rw [take_append_of_le_length hle] at hj
      omega
    · obtain ⟨i, rfl⟩ := Nat.exists_eq_add_of_le hgt.le
      rw [take_length_add_append, bytesOf_append, length_append] at hj
      exact ⟨i, by omega⟩
  · rintro ⟨j, hj⟩
    refine ⟨pre.length + j, ?_⟩
    rw [take_length_add_append, bytesOf_append, length_append]
    omega

variable {m : Buf}

theorem runsOn_cons {off : ℕ} (hoff : off ≤ m.bytes.length) (hall : len ≠ M_COPYALL) :
    RunsOn (m :: c) off len ↔
      copyLeft len off m = M_COPYALL ∨ RunsOn c 0 (copyLeft len off m) := by
  have hall' : 0 < M_COPYALL := by decide
  rw [copyLeft, if_neg hall]
  constructor
  · rintro ⟨hlen, j, hj⟩
    cases j with
    | zero =>
      rw [take_zero, bytesOf_nil, length_nil] at hj
      omega
    | succ j =>
      rw [take_succ_cons, length_bytesOf_cons] at hj
      rcases Nat.eq_zero_or_pos (bytesOf (c.take j)).length with h0 | hpos
      · exact .inl (by omega)
      · exact .inr ⟨by omega, j, by omega⟩
  · intro h
    obtain ⟨j, hj⟩ : ∃ j, (bytesOf (c.take j)).length + M_COPYALL =
        len - min len (m.bytes.length - off) := by
      rcases h with h | ⟨-, j, hj⟩
      · exact ⟨0, by simp [h]⟩
      · exact ⟨j, by omega⟩
    refine ⟨by omega, j + 1, ?_⟩
    rw [take_succ_cons, length_bytesOf_cons]
    omega

theorem Buf.Valid.length_le (h : m.Valid) : m.bytes.length ≤ MCLBYTES := by
  cases hext : m.ext with
  | true => exact h.1 hext
  | false =>
    have := (h.2 hext).1
    simp only [MLEN, MCLBYTES] at this ⊢
    omega

theorem valid_copyBuf {copyhdr : Bool} {off : ℕ} (h : m.Valid)
    (hhdr : copyhdr = true → m.pkthdr = true) : (copyBuf copyhdr len off m).Valid := by
  have hlen : (copyBuf copyhdr len off m).bytes.length ≤ m.bytes.length := by
    simp only [copyBuf, length_take, length_drop]
    omega
  refine ⟨fun hext => le_trans hlen (h.1 hext), fun hext => ?_⟩
  have hm := h.2 hext
  have hstart : (copyBuf copyhdr len off m).start = origin copyhdr := by
    have hext' : m.ext = false := hext
    simp [copyBuf, hext']
  rw [hstart]
  cases copyhdr with
  | false => exact ⟨by simp only [origin, Bool.false_eq_true, if_false]; omega, nofun⟩
  | true =>
    have := hm.2 (hhdr rfl)
    exact ⟨by simp only [origin, if_true]; omega, fun _ => le_rfl⟩

section

variable (c : List Buf)

theorem copyLoop_spec (copyhdr : Bool) (len off : ℕ) (hoff : off ≤ firstLen c)
    (hvalid : ∀ m ∈ c, m.Valid) (hhdr : copyhdr = true → ∀ m ∈ c.head?, m.pkthdr = true)
    (hlen : len = M_COPYALL ∨ off + len ≤ (bytesOf c).length) :
    ∃ top, copyLoop copyhdr len off c = some top ∧ (∀ m ∈ top, m.Valid) ∧
      (∀ m ∈ top.head?, m.pkthdr = copyhdr) ∧
      (len = M_COPYALL ∨ RunsOn c off len → bytesOf top = (bytesOf c).drop off) ∧
      (¬ (len = M_COPYALL ∨ RunsOn c off len) →
        bytesOf top = ((bytesOf c).drop off).take len) := by
  induction c generalizing copyhdr len off with
  | nil =>
    have hstop : len = 0 ∨ len = M_COPYALL := by
      rcases hlen with hlen | hlen
      · exact .inr hlen
      · exact .inl (by simp at hlen; omega)
    exact ⟨[], by simp [copyLoop, hstop], by simp, by simp, by simp, by simp⟩
  | cons m c ih =>
    obtain ⟨hm, hc⟩ := forall_mem_cons.mp hvalid
    rw [copyLoop]
    by_cases h0 : len = 0
    · have hstop : ¬ (len = M_COPYALL ∨ RunsOn (m :: c) off len) := by
        rintro (h | ⟨h, -⟩) <;> simp [M_COPYALL, h0] at h
      refine ⟨[], if_pos h0, by simp, by simp, fun h => absurd h hstop, fun _ => ?_⟩
      rw [h0, take_zero, bytesOf_nil]
    rw [if_neg h0]
    have hrest : copyLeft len off m = M_COPYALL ∨
        0 + copyLeft len off m ≤ (bytesOf c).length := by
      rw [copyLeft]
      split_ifs with hall
      · exact .inl hall
      · have hin := hlen.resolve_left hall
        rw [length_bytesOf_cons] at hin
        exact .inr (by omega)
    -- from the second mbuf on the offset is 0, and no header is copied
    obtain ⟨top, htop, hv, -, hruns, hstops⟩ := ih false (copyLeft len off m) 0 (Nat.zero_le _)
      hc nofun hrest
    refine ⟨copyBuf copyhdr len off m :: top, by rw [htop, Option.map_some],
      forall_mem_cons.mpr ⟨valid_copyBuf hm fun h => hhdr h m rfl, hv⟩, ?_, ?_, ?_⟩
    · rintro n hn
      obtain rfl := Option.some.inj hn
      rfl
    · intro hcase
      have hleft : copyLeft len off m = M_COPYALL ∨ RunsOn c 0 (copyLeft len off m) := by
        rcases eq_or_ne len M_COPYALL with hall | hall
        · exact .inl (by rw [copyLeft, if_pos hall, hall])
        · exact (runsOn_cons hoff hall).mp (hcase.resolve_left hall)
      have hwhole : (m.bytes.drop off).take len = m.bytes.drop off := by
        refine take_of_length_le ?_
        have hmax := hm.length_le
        rw [length_drop]
        rcases hcase with hall | ⟨hbig, -⟩
        · rw [hall]
          simp only [M_COPYALL, MCLBYTES] at hmax ⊢
          omega
        · simp only [M_COPYALL, MCLBYTES] at hmax hbig
          omega
      rw [bytesOf_cons, bytesOf_cons, hruns hleft, drop_append_of_le_length hoff]
      exact congrArg (· ++ _) hwhole
    · intro hcase
      have hall : len ≠ M_COPYALL := fun h => hcase (.inl h)
      have hleft : ¬ (copyLeft len off m = M_COPYALL ∨ RunsOn c 0 (copyLeft len off m)) :=
        fun h => hcase (.inr ((runsOn_cons hoff hall).mpr h))
      have heq : copyLeft len off m = len - (m.bytes.length - off) := by
        rw [copyLeft, if_neg hall]
        omega
      rw [bytesOf_cons, bytesOf_cons, hstops hleft, drop_append_of_le_length hoff,
        take_append, length_drop, heq]
      rfl

/-! ## Trimming -/

end

/-- An mbuf that keeps some of its data is valid. -/
theorem Buf.Valid.sub (h : m.Valid) {start : ℕ} {bytes : List (BitVec 8)} (hstart : m.start ≤ start)
    (hlen : start + bytes.length ≤ m.start + m.bytes.length) :
    ({ m with start := start, bytes := bytes } : Buf).Valid := by
  refine ⟨fun hext => ?_, fun hext => ⟨?_, fun hp => ?_⟩⟩
  · have := h.1 hext
    change bytes.length ≤ MCLBYTES
    omega
  · have := (h.2 hext).1
    change start + bytes.length ≤ MLEN
    omega
  · exact le_trans ((h.2 hext).2 hp) hstart

/-- So is one that gets more data, if there is room for them. -/
theorem Buf.Valid.grow (h : m.Valid) (hext : m.ext = false) {bytes : List (BitVec 8)}
    (hroom : m.start + bytes.length ≤ MLEN) : ({ m with bytes := bytes } : Buf).Valid :=
  ⟨(fun hext' => nomatch hext.symm.trans hext'), fun _ => ⟨hroom, (h.2 hext).2⟩⟩

theorem Buf.Valid.take (h : m.Valid) {bytes : List (BitVec 8)}
    (hlen : bytes.length ≤ m.bytes.length) : ({ m with bytes := bytes } : Buf).Valid :=
  h.sub le_rfl (Nat.add_le_add_left hlen _)

theorem valid_trimFront (c : List Buf) (len : ℕ) (h : ∀ m ∈ c, m.Valid) :
    (∀ m ∈ (trimFront len c).1, m.Valid) ∧
      (trimFront len c).1.map Buf.pkthdr = c.map Buf.pkthdr := by
  induction c generalizing len with
  | nil => exact ⟨h, rfl⟩
  | cons m c ih =>
    obtain ⟨hm, hc⟩ := forall_mem_cons.mp h
    rw [trimFront]
    split_ifs with h0 hle
    · exact ⟨h, rfl⟩
    · obtain ⟨hv, hp⟩ := ih (len - m.bytes.length) hc
      refine ⟨forall_mem_cons.mpr ⟨hm.take (Nat.zero_le _), hv⟩, ?_⟩
      rw [map_cons, map_cons, hp]
    · refine ⟨forall_mem_cons.mpr ⟨hm.sub (Nat.le_add_right _ _) ?_, hc⟩, rfl⟩
      rw [length_drop]
      omega

theorem valid_cutAt (c : List Buf) (count : ℕ) (h : ∀ m ∈ c, m.Valid) :
    (∀ m ∈ cutAt count c, m.Valid) ∧ (cutAt count c).map Buf.pkthdr = c.map Buf.pkthdr := by
  induction c generalizing count with
  | nil => exact ⟨h, rfl⟩
  | cons m c ih =>
    obtain ⟨hm, hc⟩ := forall_mem_cons.mp h
    rw [cutAt]
    split_ifs with hle
    · refine ⟨forall_mem_cons.mpr ⟨hm.take (length_take_le' _ _), ?_⟩, ?_⟩
      · intro n hn
        obtain ⟨n', hn', rfl⟩ := mem_map.mp hn
        exact (hc n' hn').take (Nat.zero_le _)
      · rw [map_cons, map_map]
        rfl
    · obtain ⟨hv, hp⟩ := ih (count - m.bytes.length) hc
      refine ⟨forall_mem_cons.mpr ⟨hm, hv⟩, ?_⟩
      rw [map_cons, map_cons, hp]

/-- The header of a chain whose mbufs have the same flags as before. -/
theorem head_of_map {b : List Buf} {hdr hdr' : Option ℤ} (h : b.map Buf.pkthdr = c.map Buf.pkthdr)
    (hc : c.head?.map Buf.pkthdr = c.head?.map fun _ => hdr.isSome)
    (hsome : hdr'.isSome = hdr.isSome) :
    b.head?.map Buf.pkthdr = b.head?.map fun _ => hdr'.isSome := by
  cases b with
  | nil => rfl
  | cons m b =>
    cases c with
    | nil => simp at h
    | cons n c =>
      simp only [map_cons, List.cons.injEq] at h
      simp only [head?_cons, Option.map_some, Option.some.injEq] at hc ⊢
      rw [h.1, hc, hsome]

theorem Mbufs.wf_null : Mbufs.null.Wf := ⟨by simp [null], rfl⟩

theorem Mbufs.sized_null : Mbufs.null.Sized := nofun

theorem tailCount_def (total len : ℕ) :
    tailCount total len = (max 0 (Int.bmod ((total : ℤ) - len) (2 ^ 32))).toNat := by
  exact congrArg (fun count : ℤ => (max 0 count).toNat) Int.bmod_sub_bmod

/-- The count is right if the number of bytes that are left is an `int`. -/
theorem tailCount_eq {total : ℕ} (hlen : len < 2 ^ 31) (h : total - len < 2 ^ 31) :
    tailCount total len = total - len := by
  simp only [tailCount_def, Int.bmod_def]
  split_ifs <;> omega

theorem tailCount_lt {total : ℕ} (h : ¬ total - len < 2 ^ 31) :
    tailCount total len < total - len := by
  simp only [tailCount_def, Int.bmod_def]
  split_ifs <;> omega

/-- `m_len` of the last mbuf. -/
def Mbufs.lastLen (c : Mbufs) : ℕ := (c.bufs.getLast?.map fun m => m.bytes.length).getD 0

/-- **Trimming from the tail** if the last mbuf has the bytes to be trimmed. -/
theorem trimBack_last {c : Mbufs} (hwf : c.Wf) (hne : c.bufs ≠ []) (hlen : len ≤ c.lastLen) :
    (trimBack len c).bytes = c.bytes.take (c.bytes.length - len) ∧ (trimBack len c).Wf ∧
      (trimBack len c).hdr = c.hdr.map (· - (len : ℤ)) ∧ len ≤ c.bytes.length := by
  obtain ⟨pre, m, hbufs⟩ : ∃ pre m, c.bufs = pre ++ [m] :=
    ⟨_, _, (dropLast_append_getLast hne).symm⟩
  have hbytes : c.bytes = bytesOf pre ++ m.bytes := by
    simp [Mbufs.bytes, hbufs, bytesOf_append]
  have hlast : c.bufs.getLast? = some m := by rw [hbufs, getLast?_concat]
  have hle : len ≤ m.bytes.length := by simpa [Mbufs.lastLen, hlast] using hlen
  have hback : trimBack len c = ⟨c.hdr.map (· - len),
      pre ++ [{ m with bytes := m.bytes.take (m.bytes.length - len) }]⟩ := by
    rw [trimBack, hlast]
    simp only [if_pos hle, hbufs, dropLast_concat]
  have hmap : (pre ++ [{ m with bytes := m.bytes.take (m.bytes.length - len) }]).map Buf.pkthdr =
      c.bufs.map Buf.pkthdr := by
    rw [hbufs]
    simp
  obtain ⟨hpre, hm⟩ := forall_mem_append.mp (hbufs ▸ hwf.valid)
  rw [hback]
  refine ⟨?_, ⟨forall_mem_append.mpr ⟨hpre, forall_mem_singleton.mpr
    ((hm m (by simp)).take (length_take_le' _ _))⟩, ?_⟩, rfl, ?_⟩
  · rw [hbytes, length_append, Nat.add_sub_assoc hle, take_length_add_append]
    simp [Mbufs.bytes, bytesOf_append]
  · exact head_of_map hmap hwf.head Option.isSome_map
  · rw [hbytes, length_append]
    omega

/-- **Trimming from the tail** beyond the last mbuf. -/
theorem trimBack_count {c : Mbufs} (hwf : c.Wf) (hne : c.bufs ≠ []) (hlen : ¬ len ≤ c.lastLen) :
    (trimBack len c).bytes = c.bytes.take (tailCount c.bytes.length len) ∧ (trimBack len c).Wf ∧
      (trimBack len c).hdr = c.hdr.map fun _ => (tailCount c.bytes.length len : ℤ) := by
  obtain ⟨m, hlast⟩ : ∃ m, c.bufs.getLast? = some m := by
    rw [← Option.isSome_iff_exists, getLast?_isSome]
    exact hne
  have hle : ¬ len ≤ m.bytes.length := by simpa [Mbufs.lastLen, hlast] using hlen
  have hback : trimBack len c = ⟨c.hdr.map fun _ => (tailCount c.bytes.length len : ℤ),
      cutAt (tailCount c.bytes.length len) c.bufs⟩ := by
    rw [trimBack, hlast]
    simp only [if_neg hle]
  obtain ⟨hv, hp⟩ := valid_cutAt c.bufs (tailCount c.bytes.length len) hwf.valid
  rw [hback]
  exact ⟨bytesOf_cutAt _ _, ⟨hv, head_of_map hp hwf.head Option.isSome_map⟩, rfl⟩

/-! ## Concatenation -/

theorem bytesOf_catBuf (c : List Buf) (m : Buf) : bytesOf (catBuf m c) = m.bytes ++ bytesOf c := by
  induction c generalizing m with
  | nil => simp [catBuf]
  | cons n c ih =>
    rw [catBuf]
    split_ifs with h
    · rfl
    · rw [ih, bytesOf_cons, append_assoc]

theorem valid_catBuf (c : List Buf) (m : Buf) (hm : m.Valid) (hc : ∀ n ∈ c, n.Valid) :
    (∀ n ∈ catBuf m c, n.Valid) ∧ (catBuf m c).head?.map Buf.pkthdr = some m.pkthdr := by
  induction c generalizing m with
  | nil => exact ⟨by simpa [catBuf] using hm, rfl⟩
  | cons n c ih =>
    rw [catBuf]
    split_ifs with h
    · exact ⟨forall_mem_cons.mpr ⟨hm, hc⟩, rfl⟩
    · have hext : m.ext = false := by
        rw [← Bool.not_eq_true]
        exact fun h' => h (.inl h')
      refine ih _ (hm.grow hext ?_) (forall_mem_cons.mp hc).2
      rw [length_append]
      omega

theorem catBufs_spec (b c : List Buf) (hne : b ≠ []) (hb : ∀ m ∈ b, m.Valid)
    (hc : ∀ m ∈ c, m.Valid) :
    bytesOf (catBufs b c) = bytesOf b ++ bytesOf c ∧ (∀ m ∈ catBufs b c, m.Valid) ∧
      (catBufs b c).head?.map Buf.pkthdr = b.head?.map Buf.pkthdr := by
  induction b with
  | nil => exact absurd rfl hne
  | cons m b ih =>
    obtain ⟨hm, hb⟩ := forall_mem_cons.mp hb
    cases b with
    | nil =>
      obtain ⟨hv, hp⟩ := valid_catBuf c m hm hc
      refine ⟨?_, hv, hp⟩
      rw [catBufs, bytesOf_catBuf, bytesOf_cons, bytesOf_nil, append_nil]
    | cons m' b =>
      obtain ⟨hbytes, hv, -⟩ := ih (cons_ne_nil _ _) hb
      refine ⟨?_, forall_mem_cons.mpr ⟨hm, hv⟩, rfl⟩
      rw [catBufs, bytesOf_cons, hbytes, bytesOf_cons m, append_assoc]

/-! ## Pulling up -/

theorem valid_leave {count : ℕ} {n : Buf} {rest : List Buf} (hn : n.Valid)
    (hrest : ∀ m ∈ rest, m.Valid) : ∀ m ∈ leave count n rest, m.Valid := by
  unfold leave
  split_ifs with h
  · refine forall_mem_cons.mpr ⟨hn.sub (Nat.le_add_right _ _) ?_, hrest⟩
    rw [length_drop]
    omega
  · exact hrest

/-- The loop of `m_pullup` gets the bytes that there is room for. -/
theorem pullLoop_total (maxProtohdr : ℕ) (rest : List Buf) (fuel : ℕ) (m : Buf) (len : ℕ)
    (hfuel : rest.length < fuel) (hext : m.ext = false) (hm : m.Valid)
    (hvalid : ∀ n ∈ rest, n.Valid) (hroom : m.start + m.bytes.length + len ≤ MLEN)
    (hlen : len ≤ (bytesOf rest).length) :
    ∃ c, pullLoop maxProtohdr fuel m len rest = some c ∧ (∀ n ∈ c, n.Valid) ∧
      c.head?.map Buf.pkthdr = some m.pkthdr := by
  induction rest generalizing fuel m len with
    obtain ⟨fuel, rfl⟩ : ∃ k, fuel = k + 1 := ⟨fuel - 1, by simp at hfuel; omega⟩
  | nil =>
    have hlen : len = 0 := by simpa using hlen
    exact ⟨[m], by simp [pullLoop, hlen], by simpa using hm, rfl⟩
  | cons n rest ih =>
    obtain ⟨hn, hrest⟩ := forall_mem_cons.mp hvalid
    have hspace : m.space = MLEN - (m.start + m.bytes.length) := rfl
    have hcount : pullCount maxProtohdr m len n =
        min (min (max len maxProtohdr) m.space) n.bytes.length := rfl
    have htake : (n.bytes.take (pullCount maxProtohdr m len n)).length =
        pullCount maxProtohdr m len n := by
      rw [length_take]
      omega
    have hm' : ({ m with bytes := m.bytes ++ n.bytes.take (pullCount maxProtohdr m len n) } :
        Buf).Valid := by
      refine hm.grow hext ?_
      rw [length_append]
      omega
    rw [pullLoop]
    by_cases hless : pullCount maxProtohdr m len n < len
    · -- all of `n` has been moved
      rw [length_bytesOf_cons] at hlen
      have hleave : leave (pullCount maxProtohdr m len n) n rest = rest := by
        rw [leave, if_neg (by omega)]
      simp only [if_pos hless, hleave]
      refine ih fuel _ _ (by simp at hfuel; omega) hext hm' hrest ?_ (by omega)
      simp only [length_append, htake]
      omega
    · simp only [if_neg hless]
      exact ⟨_, rfl, forall_mem_cons.mpr ⟨hm', valid_leave hn hrest⟩, rfl⟩

/-- There is room in the first mbuf, or the bytes fit in a new one. -/
def PullsUp (len : ℕ) (c : Mbufs) : Prop :=
  len ≤ MHLEN ∨ ∃ n rest, c.bufs = n :: rest ∧ n.ext = false ∧ n.start + len < MLEN ∧ rest ≠ []

theorem Buf.Valid.clear (h : m.Valid) : ({ m with pkthdr := false } : Buf).Valid :=
  ⟨h.1, fun hext => ⟨(h.2 hext).1, nofun⟩⟩

theorem valid_clearHdr (h : ∀ m ∈ c, m.Valid) : ∀ m ∈ clearHdr c, m.Valid := by
  cases c with
  | nil => exact h
  | cons m c =>
    obtain ⟨hm, hc⟩ := forall_mem_cons.mp h
    exact forall_mem_cons.mpr ⟨hm.clear, hc⟩

theorem mPullup_total (maxProtohdr : ℕ) {c : Mbufs} (hwf : c.Wf) (hne : c.bufs ≠ [])
    (hlen : len ≤ c.bytes.length) (hup : PullsUp len c) :
    ∃ bufs, mPullup maxProtohdr true len c.bufs = some bufs ∧ (∀ n ∈ bufs, n.Valid) ∧
      bufs.head?.map Buf.pkthdr = some c.hdr.isSome := by
  obtain ⟨n, rest, hbufs⟩ := exists_cons_of_ne_nil hne
  have hvalid := hwf.valid
  have hhead : n.pkthdr = c.hdr.isSome := by simpa [hbufs] using hwf.head
  rw [hbufs] at hvalid
  obtain ⟨hn, hrest⟩ := forall_mem_cons.mp hvalid
  rw [Mbufs.bytes, hbufs, length_bytesOf_cons] at hlen
  rw [hbufs, mPullup, ← hhead]
  by_cases hroom : n.ext = false ∧ n.start + len < MLEN ∧ rest ≠ []
  · rw [if_pos hroom]
    split_ifs with henough
    · exact ⟨_, rfl, hvalid, rfl⟩
    · exact pullLoop_total maxProtohdr rest _ n _ (Nat.lt_succ_self _) hroom.1 hn hrest (by omega)
        (by omega)
  · have hshort : len ≤ MHLEN := by
      refine hup.resolve_right ?_
      rintro ⟨n', rest', hbufs', h⟩
      rw [hbufs] at hbufs'
      obtain ⟨rfl, rfl⟩ := List.cons.inj hbufs'
      exact hroom h
    have hfresh : (fresh n).Valid := by
      refine ⟨by simp [fresh], fun _ => ⟨?_, fun hp => ?_⟩⟩
      · cases h : n.pkthdr <;> simp [fresh, h, MLEN, MHLEN]
      · have hp' : n.pkthdr = true := hp
        simp [fresh, hp']
    have hspace : (fresh n).start + (fresh n).bytes.length + len ≤ MLEN := by
      have := le_space_fresh n
      simp only [Buf.space, MLEN, MHLEN] at this hshort ⊢
      omega
    rw [if_neg hroom, if_neg (not_lt.mpr hshort)]
    exact pullLoop_total maxProtohdr ({ n with pkthdr := false } :: rest) _ (fresh n) len
      (Nat.lt_succ_self _) rfl hfresh (forall_mem_cons.mpr ⟨hn.clear, hrest⟩) hspace
      (by rw [length_bytesOf_cons]; exact hlen)

/-- `m_pullup` gives up otherwise. -/
theorem mPullup_none {maxProtohdr : ℕ} {c : Mbufs} (hup : ¬ PullsUp len c) :
    mPullup maxProtohdr true len c.bufs = none := by
  have hlong : len > MHLEN := not_le.mp fun h => hup (.inl h)
  cases hbufs : c.bufs with
  | nil => rfl
  | cons n rest =>
    rw [mPullup, if_neg fun h => hup (.inr ⟨n, rest, hbufs, h⟩), if_pos hlong]

/-! ## Splitting -/

theorem bytesOf_splitBuf (rest : List Buf) :
    bytesOf (splitBuf len m rest) = m.bytes.drop len ++ bytesOf rest := by
  unfold splitBuf
  split_ifs with h
  · rw [drop_eq_nil_of_le (by omega), nil_append]
  · rfl

theorem valid_tailBuf {pkthdr : Bool} (h : m.Valid)
    (hroom : pkthdr = true → m.ext = false → m.bytes.length - len ≤ MHLEN) :
    (tailBuf pkthdr len m).Valid := by
  have hlen : (tailBuf pkthdr len m).bytes.length = m.bytes.length - len := length_drop
  refine ⟨fun hext => ?_, fun hext => ?_⟩
  · have := h.1 hext
    omega
  · have hext' : m.ext = false := hext
    have hm := (h.2 hext').1
    have hstart : (tailBuf pkthdr len m).start =
        origin pkthdr + aligned (if pkthdr then MHLEN else MLEN) (m.bytes.length - len) := by
      simp [tailBuf, hext']
    rw [hstart]
    cases pkthdr with
    | false =>
      refine ⟨?_, nofun⟩
      simp only [origin, aligned, Bool.false_eq_true, if_false]
      omega
    | true =>
      have := hroom rfl hext'
      simp only [origin, aligned, if_true, MLEN, MHLEN] at *
      exact ⟨by omega, fun _ => by omega⟩

theorem valid_splitBuf {rest : List Buf} (hm : m.Valid) (hrest : ∀ n ∈ rest, n.Valid) :
    ∀ n ∈ splitBuf len m rest, n.Valid := by
  unfold splitBuf
  split_ifs with h
  · exact hrest
  · exact forall_mem_cons.mpr ⟨valid_tailBuf hm nofun, hrest⟩

/-- The first chain after a split. -/
theorem split_first {c : Mbufs} (hwf : c.Wf) {post : List Buf} {len0 : ℕ}
    (hbufs : c.bufs = pre ++ m :: post) (hlen0 : len0 = (bytesOf pre).length + len)
    (hlen : len ≤ m.bytes.length) (hdr : Option ℤ) (hhdr : hdr.isSome = c.hdr.isSome) :
    (⟨hdr, pre ++ [headBuf len m]⟩ : Mbufs).bytes = c.bytes.take len0 ∧
      (⟨hdr, pre ++ [headBuf len m]⟩ : Mbufs).Wf := by
  have hvalid := hwf.valid
  have hhead := hwf.head
  rw [hbufs] at hvalid hhead
  obtain ⟨hpre, hm⟩ := forall_mem_append.mp hvalid
  refine ⟨?_, ⟨forall_mem_append.mpr ⟨hpre, forall_mem_singleton.mpr
    ((hm m (by simp)).take (length_take_le' _ _))⟩, ?_⟩⟩
  · rw [Mbufs.bytes, Mbufs.bytes, hbufs, bytesOf_append, bytesOf_append, hlen0,
      take_length_add_append, bytesOf_cons, bytesOf_cons, bytesOf_nil, append_nil,
      take_append_of_le_length hlen]
    rfl
  · cases pre with
    | nil => simpa [headBuf, hhdr] using hhead
    | cons n pre => simpa [hhdr] using hhead

/-- The bytes of the second chain. -/
theorem split_second {c : Mbufs} {post : List Buf} {len0 : ℕ} (hbufs : c.bufs = pre ++ m :: post)
    (hlen0 : len0 = (bytesOf pre).length + len) (hlen : len ≤ m.bytes.length) :
    c.bytes.drop len0 = m.bytes.drop len ++ bytesOf post := by
  rw [Mbufs.bytes, hbufs, drop_bytesOf hlen0, bytesOf_cons, drop_append_of_le_length hlen]

theorem leadsHdr_iff {hdr : ℤ} :
    c.head?.map Buf.pkthdr =
      c.head?.map fun _ => (if leadsHdr c then some hdr else none).isSome := by
  cases c with
  | nil => rfl
  | cons m c => cases h : m.pkthdr <;> simp [leadsHdr, h]

end BSDLite2.Mbuf
