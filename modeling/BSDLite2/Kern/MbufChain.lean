import BSDLite2.Kern.MbufPullup

/-!
# Packets in mbufs (`kern/uipc_mbuf.c`)

A packet is a chain of mbufs, some of which may be empty, with the length noted in the packet
header of the first.  TCP cuts its segments to size with `m_adj`, which shortens a packet at either
end without freeing an mbuf.

* `Mbufs` — a chain with its packet header;
* `mAdj` — `m_adj`;
* `bytesOf_trimFront`, `bytesOf_cutAt` — what its loops leave;
* `bytes_mAdj_head` — what is left of a packet that loses its front.
-/

namespace BSDLite2.Mbuf

open List

/-- A chain of mbufs. -/
structure Mbufs where
  /-- `m_pkthdr.len`, if the first mbuf has `M_PKTHDR` -/
  hdr : Option ℤ
  bufs : List Buf

namespace Mbufs

def bytes (c : Mbufs) : List (BitVec 8) := bytesOf c.bufs

/-- A packet in one mbuf. -/
def packet (data : List (BitVec 8)) : Mbufs :=
  ⟨some data.length, [⟨false, true, MLEN - MHLEN, data⟩]⟩

end Mbufs

/-- Trim from the head. -/
def trimFront : ℕ → List Buf → List Buf × ℕ
  | len, [] => ([], len)
  | len, m :: c =>
    if len = 0 then (m :: c, 0)
    else if m.bytes.length ≤ len then
      ({ m with bytes := [] } :: (trimFront (len - m.bytes.length) c).1,
        (trimFront (len - m.bytes.length) c).2)
    else ({ m with start := m.start + len, bytes := m.bytes.drop len } :: c, 0)

/-- The chain keeps `count` bytes, and the mbufs behind them none. -/
def cutAt : ℕ → List Buf → List Buf
  | _, [] => []
  | count, m :: c =>
    if count ≤ m.bytes.length then
      { m with bytes := m.bytes.take count } :: c.map fun n => { n with bytes := [] }
    else m :: cutAt (count - m.bytes.length) c

/-- `count`, an `int`, when the length to trim has been taken off. -/
def tailCount (total len : ℕ) : ℕ :=
  (max 0 (Int.bmod (Int.bmod total (2 ^ 32) - len) (2 ^ 32))).toNat

/-- Trim from the tail. -/
def trimBack (len : ℕ) (c : Mbufs) : Mbufs :=
  match c.bufs.getLast? with
  | none => c
  | some m =>
    if len ≤ m.bytes.length then
      ⟨c.hdr.map (· - len),
        c.bufs.dropLast ++ [{ m with bytes := m.bytes.take (m.bytes.length - len) }]⟩
    else
      ⟨c.hdr.map fun _ => (tailCount c.bytes.length len : ℤ),
        cutAt (tailCount c.bytes.length len) c.bufs⟩

/-- `m_adj`, for a length whose negative is an `int`. -/
def mAdj (c : Mbufs) (reqLen : ℤ) : Mbufs :=
  if 0 ≤ reqLen then
    ⟨c.hdr.map (· - (reqLen - (trimFront reqLen.toNat c.bufs).2)),
      (trimFront reqLen.toNat c.bufs).1⟩
  else trimBack (-reqLen).toNat c

variable (c : List Buf)

theorem bytesOf_trimFront (len : ℕ) :
    bytesOf (trimFront len c).1 = (bytesOf c).drop len ∧
      (trimFront len c).2 = len - (bytesOf c).length := by
  induction c generalizing len with
  | nil => simp [trimFront, bytesOf]
  | cons m c ih =>
    rw [trimFront]
    split_ifs with h0 hle
    · simp [h0]
    · obtain ⟨h1, h2⟩ := ih (len - m.bytes.length)
      refine ⟨?_, ?_⟩
      · rw [bytesOf_cons, bytesOf_cons, h1, drop_append, drop_eq_nil_of_le hle]
      · rw [h2, bytesOf_cons, length_append]
        omega
    · refine ⟨?_, ?_⟩
      · rw [bytesOf_cons, bytesOf_cons, drop_append_of_le_length (not_le.mp hle).le]
      · rw [bytesOf_cons, length_append]
        omega

theorem bytesOf_cutAt (count : ℕ) : bytesOf (cutAt count c) = (bytesOf c).take count := by
  induction c generalizing count with
  | nil => simp [cutAt, bytesOf]
  | cons m c ih =>
    rw [cutAt]
    split_ifs with hle
    · have hnone : bytesOf (c.map fun n => { n with bytes := [] }) = [] := by
        simp [bytesOf, flatMap_map]
      rw [bytesOf_cons, bytesOf_cons, hnone, append_nil, take_append_of_le_length hle]
    · rw [bytesOf_cons, bytesOf_cons, ih, take_append, take_of_length_le (not_le.mp hle).le]

/-- **Trimming from the head.** -/
theorem bytes_mAdj_head (c : Mbufs) {reqLen : ℤ} (h : 0 ≤ reqLen) :
    (mAdj c reqLen).bytes = c.bytes.drop reqLen.toNat := by
  rw [mAdj, if_pos h]
  exact (bytesOf_trimFront c.bufs _).1

end BSDLite2.Mbuf
