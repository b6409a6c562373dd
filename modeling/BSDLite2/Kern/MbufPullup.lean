import BSDLite2.Kern.Param

/-!
# Making data contiguous (`m_pullup` of `kern/uipc_mbuf.c`)

A header can be read through a pointer only if it lies in one mbuf.  `m_pullup` moves data from
the mbufs that follow to the first one, or into a new one in front, until `len` bytes are there,
and as many more up to `max_protohdr` as it gets at once.

* `Buf` — an mbuf with its data, and where they begin in it;
* `mPullup` — `m_pullup`;
* `mPullup_spec` — the data stay the same and the first mbuf has `len` bytes;
* `mPullup_cluster` — what is pulled out of a cluster.
-/

namespace BSDLite2.Mbuf

open List

/-- An mbuf. -/
structure Buf where
  /-- `M_EXT`: the data are in a cluster -/
  ext : Bool
  /-- `M_PKTHDR` -/
  pkthdr : Bool
  /-- `m_data - m_dat`, for data that are not in a cluster -/
  start : ℕ
  bytes : List (BitVec 8)

/-- The data of a chain. -/
def bytesOf (c : List Buf) : List (BitVec 8) := c.flatMap Buf.bytes

/-- `m_len` of the first mbuf. -/
def firstLen (c : List Buf) : ℕ := (c.head?.map fun m => m.bytes.length).getD 0

/-- `space`: what is free behind the data. -/
def Buf.space (m : Buf) : ℕ := MLEN - (m.start + m.bytes.length)

/-- `count`: how much a turn moves from `n` to `m`. -/
def pullCount (maxProtohdr : ℕ) (m : Buf) (len : ℕ) (n : Buf) : ℕ :=
  min (min (max len maxProtohdr) m.space) n.bytes.length

/-- What is left of the chain behind `m` after a turn. -/
def leave (count : ℕ) (n : Buf) (rest : List Buf) : List Buf :=
  if count < n.bytes.length then
    { n with start := n.start + count, bytes := n.bytes.drop count } :: rest
  else rest

/-- The loop of `m_pullup`, which collects data in `m`. -/
def pullLoop (maxProtohdr : ℕ) : ℕ → Buf → ℕ → List Buf → Option (List Buf)
  | 0, _, _, _ => none
  | _ + 1, m, len, [] => if len = 0 then some [m] else none
  | fuel + 1, m, len, n :: rest =>
    let count := pullCount maxProtohdr m len n
    let m' := { m with bytes := m.bytes ++ n.bytes.take count }
    if count < len then pullLoop maxProtohdr fuel m' (len - count) (leave count n rest)
    else some (m' :: leave count n rest)

/-- The new mbuf of `m_pullup`, with the packet header of `n`. -/
def fresh (n : Buf) : Buf where
  ext := false
  pkthdr := n.pkthdr
  start := if n.pkthdr then MLEN - MHLEN else 0
  bytes := []

/-- `m_pullup`; `mget` tells whether there is an mbuf to be had. -/
def mPullup (maxProtohdr : ℕ) (mget : Bool) (len : ℕ) : List Buf → Option (List Buf)
  | [] => none
  | n :: rest =>
    if n.ext = false ∧ n.start + len < MLEN ∧ rest ≠ [] then
      if len ≤ n.bytes.length then some (n :: rest)
      else pullLoop maxProtohdr (rest.length + 1) n (len - n.bytes.length) rest
    else if len > MHLEN then none
    else if mget then
      pullLoop maxProtohdr (rest.length + 2) (fresh n) len ({ n with pkthdr := false } :: rest)
    else none

section Spec

variable {maxProtohdr : ℕ}

@[simp] theorem bytesOf_nil : bytesOf [] = [] := rfl

@[simp] theorem bytesOf_cons (m : Buf) (c : List Buf) : bytesOf (m :: c) = m.bytes ++ bytesOf c :=
  flatMap_cons

@[simp] theorem firstLen_cons (m : Buf) (c : List Buf) : firstLen (m :: c) = m.bytes.length := rfl

theorem bytesOf_leave (count : ℕ) (n : Buf) (rest : List Buf) :
    n.bytes.take count ++ bytesOf (leave count n rest) = n.bytes ++ bytesOf rest := by
  unfold leave
  split_ifs with h
  · rw [bytesOf_cons, ← append_assoc, take_append_drop]
  · rw [take_of_length_le (not_lt.mp h)]

variable {len : ℕ}

theorem pullLoop_spec {fuel : ℕ} {m : Buf} {rest c : List Buf}
    (h : pullLoop maxProtohdr fuel m len rest = some c) :
    bytesOf c = m.bytes ++ bytesOf rest ∧ m.bytes.length + len ≤ firstLen c := by
  induction fuel generalizing m len rest with
  | zero => cases h
  | succ fuel ih =>
    cases rest with
    | nil =>
      rw [pullLoop] at h
      split_ifs at h with hlen
      cases h
      simp [hlen]
    | cons n rest =>
      rw [pullLoop] at h
      have hcount : pullCount maxProtohdr m len n ≤ n.bytes.length := min_le_right _ _
      generalize pullCount maxProtohdr m len n = count at h hcount
      have htake : (n.bytes.take count).length = count := by
        rw [length_take, min_eq_left hcount]
      split_ifs at h with hless
      · obtain ⟨hbytes, hfirst⟩ := ih h
        rw [append_assoc, bytesOf_leave] at hbytes
        rw [length_append] at hfirst
        exact ⟨hbytes, by omega⟩
      · cases h
        rw [bytesOf_cons, append_assoc, bytesOf_leave, firstLen_cons, length_append]
        exact ⟨rfl, by omega⟩

/-- **`m_pullup`** keeps the data and makes `len` bytes of them contiguous. -/
theorem mPullup_spec {mget : Bool} {c c' : List Buf}
    (h : mPullup maxProtohdr mget len c = some c') :
    bytesOf c' = bytesOf c ∧ len ≤ firstLen c' := by
  cases c with
  | nil => cases h
  | cons n rest =>
    rw [mPullup] at h
    split_ifs at h with hroom henough
    · cases h
      exact ⟨rfl, henough⟩
    · obtain ⟨hbytes, hfirst⟩ := pullLoop_spec h
      exact ⟨hbytes, by omega⟩
    · obtain ⟨hbytes, hfirst⟩ := pullLoop_spec h
      exact ⟨hbytes, by rwa [fresh, length_nil, zero_add] at hfirst⟩

theorem le_space_fresh (n : Buf) : MHLEN ≤ (fresh n).space := by
  cases h : n.pkthdr <;> simp [fresh, Buf.space, h, MLEN, MHLEN]

theorem not_room {n : Buf} {rest : List Buf} (hext : n.ext = true) :
    ¬ (n.ext = false ∧ n.start + len < MLEN ∧ rest ≠ []) := by
  rintro ⟨h, -⟩
  rw [hext] at h
  cases h

/-- Without an mbuf nothing is pulled out of a cluster. -/
theorem mPullup_cluster_none {n : Buf} (rest : List Buf) (hext : n.ext = true) :
    mPullup maxProtohdr false len (n :: rest) = none := by
  rw [mPullup, if_neg (not_room hext), if_neg Bool.false_ne_true, ite_self]

/-- **Out of a cluster** that has `len` bytes, `m_pullup` takes them or `max_protohdr` bytes, if
there are so many and they fit into an mbuf. -/
theorem mPullup_cluster (maxProtohdr : ℕ) {n : Buf} (rest : List Buf) (hext : n.ext = true)
    (hlen : len ≤ n.bytes.length) (hmax : len ≤ MHLEN) :
    ∃ c, mPullup maxProtohdr true len (n :: rest) = some c ∧ (c.head?.map Buf.ext) = some false ∧
      firstLen c = min (min (max len maxProtohdr) (fresh n).space) n.bytes.length := by
  have hspace := le_space_fresh n
  have hcount : ¬ pullCount maxProtohdr (fresh n) len { n with pkthdr := false } < len := by
    simp only [pullCount]
    omega
  rw [mPullup, if_neg (not_room hext), if_neg (not_lt.mpr hmax), pullLoop]
  simp only [if_neg hcount]
  refine ⟨_, rfl, rfl, ?_⟩
  rw [firstLen_cons, length_append, length_take]
  simp only [pullCount, fresh, length_nil, zero_add]
  omega

end Spec

end BSDLite2.Mbuf
