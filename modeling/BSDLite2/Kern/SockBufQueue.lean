import BSDLite2.Kern.SockBufDrop

/-!
# The queue of records a socket buffer stands for

What a socket buffer is for: a queue of records, each a string of bytes in which
ends of record are marked.  `Tok` is a byte or such a mark, and `qAppend`,
`qDrop` and the rest are the operations on queues that the functions of
`uipc_socket2.c` carry out.  Compression, which moves data between mbufs and
frees mbufs, is invisible at this level.

`toks_appendL`, `toks_insertOobL` and `toks_dropL` say so for the functions on
lists of records that `SockBufAdd` and `SockBufDrop` proved the code to compute.
-/

namespace BSDLite2.SockBuf

open Heap List

variable (q : List Record) (l : Record) (x : Node) (r : Record)

/-! ## Queues of bytes -/

/-- A byte of data or an end of record. -/
inductive Tok where
  | byte (b : BitVec 8)
  | eor
  deriving DecidableEq

/-- The mark an `M_EOR` flag stands for. -/
def eorMark : Bool → List Tok
  | true => [.eor]
  | false => []

@[simp] theorem eorMark_true : eorMark true = [.eor] := rfl

@[simp] theorem eorMark_false : eorMark false = [] := rfl

/-- What one mbuf contributes. -/
def bodyToks (v : MbufBody) : List Tok := v.dat.map .byte ++ eorMark v.eor

/-- What a list of mbufs contributes. -/
def toks : List Tok := r.flatMap fun x => bodyToks x.2

@[simp] theorem toks_nil : toks [] = [] := rfl

@[simp] theorem toks_cons : toks (x :: r) = bodyToks x.2 ++ toks r := by
  simp [toks]

@[simp] theorem toks_append (s : Record) : toks (r ++ s) = toks r ++ toks s := by
  simp [toks]

/-- The data bytes of a chain. -/
def dataToks : List Tok := l.flatMap fun x => x.2.dat.map .byte

@[simp] theorem dataToks_cons : dataToks (x :: r) = x.2.dat.map .byte ++ dataToks r := by
  simp [dataToks]

/-- What `sbcompress` makes of a chain: its bytes, and one end of record if the
chain has any. -/
def packet : List Tok :=
  dataToks l ++ eorMark (l.any (·.2.eor))

/-- The number of bytes. -/
def nbytes (t : List Tok) : ℕ := t.countP fun x => x ≠ .eor

/-- Remove `len` bytes, with the ends of record before the last of them. -/
def dropToks : ℕ → List Tok → List Tok
  | 0, t => t
  | _ + 1, [] => []
  | len + 1, .byte _ :: t => dropToks len t
  | len + 1, .eor :: t => dropToks (len + 1) t

/-- Remove the ends of record in front. -/
def strip (t : List Tok) : List Tok := t.dropWhile (· = .eor)

/-- There is an end of record anywhere in the record. -/
def hasEor (t : List Tok) : Bool := decide (.eor ∈ t)

/-- There is an end of record at the end of the record. -/
def endsInEor (t : List Tok) : Bool := decide (t.getLast? = some .eor)

/-- **Appending**: to the last record, unless that has ended. -/
def qAppend (ended : List Tok → Bool) (p : List Tok) (q : List (List Tok)) : List (List Tok) :=
  match q.getLast? with
  | none => if p = [] then [] else [p]
  | some r => if ended r then q ++ [p] else q.dropLast ++ [r ++ p]

/-- A record put back in front, unless it is empty. -/
def qPutBack (r : List Tok) (q : List (List Tok)) : List (List Tok) :=
  if r = [] then q else r :: q

/-- **Dropping**: `len` bytes go, with the records they use up; ends of record
that come to the front go too. -/
def qDrop : ℕ → List (List Tok) → List (List Tok)
  | _, [] => []
  | len, r :: q =>
    if len ≤ nbytes r then qPutBack (strip (dropToks len r)) q else qDrop (len - nbytes r) q

/-! ## Compression is invisible -/

attribute [local simp] bodyToks MbufBody.mLen compressL

/-- The loop of `sbcompress` keeps the bytes, clears every `M_EOR` and remembers
that there was one. -/
theorem toks_compressL (n : Option Node) (e : Bool) (hn : ∀ x ∈ n, x.2.eor = false) :
    toks (compressL n l e).1 = toks n.toList ++ dataToks l ∧
      (compressL n l e).2 = (e || l.any (·.2.eor)) ∧
      ∀ x ∈ (compressL n l e).1, x.2.eor = false := by
  induction l generalizing n e with
  | nil =>
    refine ⟨by simp [dataToks], by simp, ?_⟩
    simpa using hn
  | cons y l ih =>
    obtain ⟨a, v⟩ := y
    have hany : (e || ((a, v) :: l).any (·.2.eor)) = ((e || v.eor) || l.any (·.2.eor)) := by
      simp [Bool.or_assoc]
    rw [hany]
    by_cases hg : gone n v l (e || v.eor) = true
    · have hdat : v.dat = [] := by
        simp only [gone, Bool.and_eq_true, decide_eq_true_eq] at hg
        exact length_eq_zero_iff.mp hg.1
      simpa [hg, hdat] using ih n (e || v.eor) hn
    · cases n with
      | none =>
        simpa [hg] using
          ih (some (a, { v with eor := false })) (e || v.eor) (by simp)
      | some z =>
        obtain ⟨b, w⟩ := z
        have hw : w.eor = false := hn _ rfl
        by_cases hf : fits w v = true
        · simpa [hg, hf, hw] using
            ih (some (b, { w with dat := w.dat ++ v.dat })) (e || v.eor) (by simpa using hw)
        · obtain ⟨h1, h2, h3⟩ :=
            ih (some (a, { v with eor := false })) (e || v.eor) (by simp)
          have hrun : compressL (some (b, w)) ((a, v) :: l) e =
              ((b, w) :: (compressL (some (a, { v with eor := false })) l (e || v.eor)).1,
                (compressL (some (a, { v with eor := false })) l (e || v.eor)).2) := by
            simp only [compressL, if_neg hg, if_neg hf]
          rw [hrun]
          refine ⟨by simp [h1], h2, ?_⟩
          simpa [hw] using h3

/-- `sbcompress` finds an mbuf for the end of record. -/
theorem compressL_none_nil (e : Bool) (hnil : (compressL none l e).1 = [])
    (he : (compressL none l e).2 = true) : l = [] ∧ e = true := by
  induction l generalizing e with
  | nil => exact ⟨rfl, by simpa using he⟩
  | cons y l ih =>
    obtain ⟨a, v⟩ := y
    by_cases hg : gone none v l (e || v.eor) = true
    · simp only [compressL, if_pos hg] at hnil he
      obtain ⟨rfl, htrue⟩ := ih _ hnil he
      simp [gone, htrue] at hg
    · simp only [compressL, if_neg hg] at hnil
      exact absurd hnil (compressL_some_ne_nil _ _ _ _)

theorem toks_markEor {r : Record} (hne : r ≠ []) (h : ∀ x ∈ r, x.2.eor = false) :
    toks (markEor r) = toks r ++ [.eor] := by
  rcases r.eq_nil_or_concat' with rfl | ⟨pre, y, rfl⟩
  · exact absurd rfl hne
  · have hy : y.2.eor = false := h y (by simp)
    rw [markEor_concat]
    simp [hy]

/-- **`sbcompress` on the queue**: what was there, then the packet. -/
theorem toks_compress {n : Option Node} (hn : ∀ x ∈ n, x.2.eor = false) :
    toks (compress n l) = toks n.toList ++ packet l := by
  obtain ⟨h1, h2, h3⟩ := toks_compressL l n false hn
  rw [Bool.false_or] at h2
  unfold compress packet
  rw [h2]
  cases he : l.any (·.2.eor) with
  | false => simpa using h1
  | true =>
    have hne : (compressL n l false).1 ≠ [] := by
      intro hnil
      cases n with
      | none =>
        obtain ⟨rfl, -⟩ := compressL_none_nil l false hnil (h2.trans he)
        simp at he
      | some y => exact compressL_some_ne_nil _ _ _ _ hnil
    rw [if_pos rfl, toks_markEor hne h3, h1, append_assoc, eorMark_true]

theorem toks_compressRecord (l : Record) : toks (compressRecord (x :: l)) = packet (x :: l) := by
  obtain ⟨a, v⟩ := x
  cases l with
  | nil => simp [compressRecord, packet, dataToks]
  | cons y l =>
    obtain ⟨b, w⟩ := y
    rw [compressRecord, toks_compress _ (by simp)]
    simp only [packet, bodyToks, dataToks_cons, any_cons, Option.toList_some, toks_cons,
      toks_nil, eorMark_false, append_nil, append_assoc]
    cases v.eor <;> cases w.eor <;> rfl

/-- Nothing is left of mbufs without data and without end of record. -/
theorem compressL_none_of_packet (h : packet l = []) : compressL none l false = ([], false) := by
  induction l with
  | nil => rfl
  | cons y l ih =>
    obtain ⟨a, v⟩ := y
    obtain ⟨⟨hdat, hdata⟩, heor, hany⟩ :
        (v.dat = [] ∧ dataToks l = []) ∧ v.eor = false ∧ l.any (·.2.eor) = false := by
      simp only [packet, dataToks_cons, any_cons, append_eq_nil_iff, map_eq_nil_iff] at h
      cases hv : v.eor <;> cases ha : l.any (·.2.eor) <;> simp_all [eorMark]
    have hg : gone none v l (false || v.eor) = true := by
      simp [gone, hdat, heor]
    rw [compressL, if_pos hg, heor]
    exact ih (by rw [packet, hdata, hany]; rfl)

/-- An empty packet leaves nothing in an empty buffer. -/
theorem compress_none_eq_nil_iff : compress none l = [] ↔ packet l = [] := by
  constructor
  · intro h
    have := toks_compress (n := none) l (by simp)
    simpa [h] using this.symm
  · intro h
    simp [compress, compressL_none_of_packet l h]

theorem hasEor_toks : hasEor (toks r) = r.any (·.2.eor) := by
  induction r with
  | nil => rfl
  | cons x r ih =>
    rw [any_cons, ← ih, toks_cons, bodyToks]
    cases x.2.eor <;> simp [hasEor]

/-- **`sbappend` on the queue.** -/
theorem toks_appendL (hne : ∀ r ∈ q, r ≠ []) (x : Node) (l : Record) :
    (appendL q (x :: l)).map toks = qAppend hasEor (packet (x :: l)) (q.map toks) := by
  unfold appendL qAppend
  rcases q.eq_nil_or_concat' with rfl | ⟨q, r, rfl⟩
  · by_cases hnil : packet (x :: l) = []
    · simp [hnil, (compress_none_eq_nil_iff _).mpr hnil]
    · simp only [getLast?_nil, map_nil, if_neg hnil,
        if_neg (mt (compress_none_eq_nil_iff _).mp hnil), map_cons]
      rw [toks_compress _ (by simp)]
      rfl
  · simp only [map_append, map_cons, map_nil, getLast?_append,
      getLast?_singleton, Option.some_or, hasEor_toks]
    cases he : r.any (·.2.eor) with
    | true => simp [toks_compressRecord]
    | false =>
      rcases r.eq_nil_or_concat' with rfl | ⟨pre, y, rfl⟩
      · exact absurd rfl (hne [] (by simp))
      · have hy : y.2.eor = false := by
          simp only [any_append, Bool.or_eq_false_iff] at he
          simpa using he.2
        simp [toks_compress _ (show ∀ z ∈ some y, z.2.eor = false by simpa using hy)]

/-- **`sbinsertoob` on the queue.** -/
theorem toks_insertOobL (l : Record) :
    (insertOobL q (x :: l)).map toks =
      (q.map toks).take (q.takeWhile isOob).length ++
        packet (x :: l) :: (q.map toks).drop (q.takeWhile isOob).length := by
  have htake : q.take (q.takeWhile isOob).length = q.takeWhile isOob :=
    (prefix_iff_eq_take.mp (List.takeWhile_prefix isOob)).symm
  have hdrop : q.drop (q.takeWhile isOob).length = q.dropWhile isOob := by
    have h := (take_append_drop (q.takeWhile isOob).length q).trans
      (takeWhile_append_dropWhile (p := isOob)).symm
    rw [htake] at h
    exact append_cancel_left h
  rw [← map_take, ← map_drop, htake, hdrop]
  simp [insertOobL, toks_compressRecord]

/-! ## Dropping -/

theorem nbytes_toks : nbytes (toks r) = lenSum r := by
  induction r with
  | nil => rfl
  | cons x r ih =>
    rw [toks_cons, nbytes, countP_append, ← nbytes, ← nbytes, ih]
    cases he : x.2.eor <;> simp [nbytes, he, countP_map]

theorem toks_dropWhile_isEmpty : toks (r.dropWhile isEmpty) = strip (toks r) := by
  induction r with
  | nil => rfl
  | cons x r ih =>
    obtain ⟨a, v⟩ := x
    cases hdat : v.dat with
    | nil =>
      rw [dropWhile_cons_of_pos (by simp [isEmpty, hdat]), ih]
      cases he : v.eor <;> simp [strip, hdat, he]
    | cons b bs =>
      rw [dropWhile_cons_of_neg (by simp [isEmpty, hdat])]
      simp [strip, hdat]

theorem dropToks_bytes (bs : List (BitVec 8)) (t : List Tok) (len : ℕ) :
    dropToks len (bs.map .byte ++ t) =
      if len ≤ bs.length then (bs.drop len).map .byte ++ t else dropToks (len - bs.length) t := by
  induction bs generalizing len with
  | nil => cases len <;> simp [dropToks]
  | cons b bs ih =>
    cases len with
    | zero => simp [dropToks]
    | succ len => simpa [dropToks] using ih len

/-- An end of record at the point reached by a drop is removed with it. -/
theorem strip_dropToks_eorMark (len : ℕ) (b : Bool) (t : List Tok) :
    strip (dropToks len (eorMark b ++ t)) = strip (dropToks len t) := by
  cases b with
  | false => rfl
  | true => cases len <;> simp [dropToks, strip]

theorem strip_dropToks (len : ℕ) :
    strip (dropToks len (toks r)) = toks ((dropBytes len r).dropWhile isEmpty) := by
  induction r generalizing len with
  | nil => cases len <;> rfl
  | cons x r ih =>
    obtain ⟨a, v⟩ := x
    rw [dropBytes]
    split
    · next h0 => rw [h0, toks_dropWhile_isEmpty, dropToks]
    · rw [toks_cons, bodyToks, append_assoc, dropToks_bytes]
      by_cases hlt : v.mLen > len
      · rw [if_pos hlt, if_pos (show len ≤ v.dat.length from Nat.le_of_lt hlt),
          toks_dropWhile_isEmpty]
        simp [shorten]
      · rw [if_neg hlt, ← ih, ← strip_dropToks_eorMark _ v.eor]
        split
        · next hle =>
            obtain rfl : len = v.dat.length := le_antisymm hle (not_lt.mp hlt)
            simp [dropToks]
        · rfl

theorem toks_putBack (q : List Record) (h : ∀ x ∈ r.head?, isEmpty x = false) :
    (putBack r q).map toks = qPutBack (toks r) (q.map toks) := by
  cases r with
  | nil => rfl
  | cons x l =>
    have hx : x.2.dat ≠ [] := by
      simpa [isEmpty] using h x rfl
    rw [putBack, qPutBack, if_neg (by simp [hx]), map_cons]

/-- **`sbdrop` on the queue.** -/
theorem toks_dropL (len : ℕ) : (dropL len q).map toks = qDrop len (q.map toks) := by
  induction q generalizing len with
  | nil => rfl
  | cons r q ih =>
    rw [dropL_cons, map_cons, qDrop, nbytes_toks]
    split
    · rw [strip_dropToks]
      refine toks_putBack _ _ fun x hx => ?_
      have := head?_dropWhile_not isEmpty (dropBytes len r)
      rw [Option.mem_def.mp hx] at this
      simpa using this
    · exact ih _

end BSDLite2.SockBuf
