import Mathlib.Data.BitVec
import Mathlib.Tactic

/-!
# Byte memory

A stretch of memory is a function from addresses to bytes.  `At m a l` says that the
bytes `l` stand at `a`; it splits along `++`, so the layout of a record is the list
of the bytes of its fields.  A field has a `Slot` in the layout, through which it is
read (`Slot.at`) and written in place (`Slot.store`).  Several fields that are changed one after
another are a list of `Write`s; when all of them together change nothing is `runAll_then_iff`.

Numbers of two and four bytes are stored most significant byte first.
-/

namespace BSDLite2.Bytes

/-- A stretch of memory. -/
abbrev Mem := ℕ → BitVec 8

/-- The bytes `l` stand at `a`. -/
def At (m : Mem) (a : ℕ) (l : List (BitVec 8)) : Prop :=
  ∀ i, (h : i < l.length) → m (a + i) = l[i]

/-- The `n` bytes at `a`. -/
def load (m : Mem) (a n : ℕ) : List (BitVec 8) := (List.range n).map fun i => m (a + i)

/-- Write `l` at `a`. -/
def store (m : Mem) (a : ℕ) (l : List (BitVec 8)) : Mem := fun i =>
  if a ≤ i then l.getD (i - a) (m i) else m i

/-- The bytes `l`, and `behind` after them. -/
def place (l : List (BitVec 8)) (behind : Mem) : Mem := fun i =>
  l.getD i (behind (i - l.length))

/-- Two joined byte strings are equal when their parts are. -/
theorem append_inj_iff {v w : ℕ} {a a' : BitVec v} {b b' : BitVec w} :
    a ++ b = a' ++ b' ↔ a = a' ∧ b = b' := by
  constructor
  · intro h
    constructor
    · rw [← BitVec.extractLsb'_append_eq_left (a := a), h, BitVec.extractLsb'_append_eq_left]
    · rw [← BitVec.extractLsb'_append_eq_right (b := b), h, BitVec.extractLsb'_append_eq_right]
  · rintro ⟨rfl, rfl⟩
    rfl

@[simp]
theorem length_load (m : Mem) (a n : ℕ) : (load m a n).length = n := by
  simp [load]

theorem at_nil (m : Mem) (a : ℕ) : At m a [] := by
  intro i h
  simp at h

variable {l : List (BitVec 8)} {m : Mem} {a : ℕ}

theorem at_cons {b : BitVec 8} : At m a (b :: l) ↔ m a = b ∧ At m (a + 1) l := by
  constructor
  · intro h
    refine ⟨h 0 (by simp), ?_⟩
    intro i hi
    have := h (i + 1) (by simpa using hi)
    rw [show a + 1 + i = a + (i + 1) by omega, this]
    rfl
  · rintro ⟨hb, hl⟩ i hi
    cases i with
    | zero => exact hb
    | succ i =>
      rw [show a + (i + 1) = a + 1 + i by omega, hl i (by simpa using hi)]
      rfl

variable {k : List (BitVec 8)}

theorem at_append : At m a (k ++ l) ↔ At m a k ∧ At m (a + k.length) l := by
  induction k generalizing a with
  | nil => simp [at_nil]
  | cons b k ih =>
    rw [List.cons_append, at_cons, at_cons, ih, and_assoc, List.length_cons,
      show a + 1 + k.length = a + (k.length + 1) by omega]

theorem at_iff_load : At m a l ↔ load m a l.length = l := by
  constructor
  · intro h
    apply List.ext_getElem (by simp)
    intro i _ hi
    simpa [load] using h i hi
  · intro h i hi
    have := congrArg (fun k => k[i]?) h
    simpa [load, hi] using this

theorem at_place (l : List (BitVec 8)) (behind : Mem) : At (place l behind) 0 l := by
  intro i h
  simp [place, h]

/-- What was written stands there. -/
theorem at_store (m : Mem) (a : ℕ) (l : List (BitVec 8)) : At (store m a l) a l := by
  intro i h
  simp [store, h]

/-- A write leaves alone what it does not touch. -/
theorem store_out {i : ℕ} (h : i < a ∨ a + l.length ≤ i) : store m a l i = m i := by
  unfold store
  split
  · rw [List.getD_eq_getElem?_getD, List.getElem?_eq_none (by omega)]
    rfl
  · rfl

theorem At.store_of_disjoint {b : ℕ} (h : At m b k)
    (disjoint : a + l.length ≤ b ∨ b + k.length ≤ a) :
    At (store m a l) b k := by
  intro i hi
  rw [← h i hi, store_out (by omega)]

/-- A write that changes nothing. -/
theorem store_eq_self_iff : store m a l = m ↔ At m a l := by
  refine ⟨fun h => h ▸ at_store m a l, fun h => funext fun i => ?_⟩
  by_cases hi : a ≤ i ∧ i < a + l.length
  · obtain ⟨j, rfl⟩ := Nat.exists_eq_add_of_le hi.1
    have hj : j < l.length := by omega
    rw [at_store m a l j hj, h j hj]
  · exact store_out (by omega)

theorem store_self (m : Mem) (a : ℕ) (x : BitVec 8) : store m a [x] a = x := by
  simp [store]

theorem store_store (m : Mem) (a : ℕ) (x y : BitVec 8) :
    store (store m a [x]) a [y] = store m a [y] := by
  funext i
  by_cases hi : i = a
  · rw [hi, store_self, store_self]
  · have hout : i < a ∨ a + 1 ≤ i := by omega
    rw [store_out hout, store_out hout, store_out hout]

/-! ## Fields changed in place -/

/-- A field of `len` bytes at `start`, and what it becomes. -/
structure Write where
  start : ℕ
  len : ℕ
  val : Mem → List (BitVec 8)
  length_val : ∀ m, (val m).length = len

def Write.run (w : Write) (m : Mem) : Mem := store m w.start (w.val m)

/-- The fields do not overlap. -/
def Write.Apart (v w : Write) : Prop := v.start + v.len ≤ w.start ∨ w.start + w.len ≤ v.start

def runAll (ws : List Write) (m : Mem) : Mem := ws.foldl (fun m w => w.run m) m

theorem runAll_out {ws : List Write} {i : ℕ}
    (h : ∀ w ∈ ws, i < w.start ∨ w.start + w.len ≤ i) : runAll ws m i = m i := by
  induction ws generalizing m with
  | nil => rfl
  | cons w ws ih =>
    obtain ⟨hw, hws⟩ := List.forall_mem_cons.mp h
    rw [← w.length_val m] at hw
    exact (ih hws).trans (store_out hw)

/-- **Writes that nothing undoes.**  If what comes after them leaves their fields alone, then all
of it together changes nothing exactly if no part of it does. -/
theorem runAll_then_iff {ws : List Write} {f : Mem → Mem} (apart : ws.Pairwise Write.Apart)
    (kept : ∀ w ∈ ws, ∀ n i, w.start ≤ i → i < w.start + w.len → f n i = n i) :
    f (runAll ws m) = m ↔ (∀ w ∈ ws, w.run m = m) ∧ f m = m := by
  induction ws with
  | nil => simp [runAll]
  | cons w ws ih =>
    obtain ⟨hw, hws⟩ := List.pairwise_cons.mp apart
    obtain ⟨keptw, keptws⟩ := List.forall_mem_cons.mp kept
    rw [List.forall_mem_cons, and_assoc, ← ih hws keptws]
    refine ⟨fun h => ?_, fun ⟨same, h⟩ => ?_⟩
    · have same : w.run m = m := by
        refine store_eq_self_iff.mpr fun i hi => ?_
        rw [w.length_val] at hi
        have hout : ∀ v ∈ ws, w.start + i < v.start ∨ v.start + v.len ≤ w.start + i := by
          intro v hv
          have := hw v hv
          unfold Write.Apart at this
          omega
        have hkeep : f (runAll ws (w.run m)) (w.start + i) = w.run m (w.start + i) :=
          (keptw _ _ (by omega) (by omega)).trans (runAll_out hout)
        rw [← at_store m w.start (w.val m) i (by rwa [w.length_val]), ← congrFun h (w.start + i)]
        exact hkeep
      refine ⟨same, ?_⟩
      have hrest : f (runAll ws (w.run m)) = m := h
      rwa [same] at hrest
    · show f (runAll ws (w.run m)) = m
      rw [same, h]

/-- The layout `f`, which depends on the value of a field, holds the field at `off`
in the coding `enc`, and depends on the value nowhere else. -/
def Slot {α : Type} (off : ℕ) (enc f : α → List (BitVec 8)) : Prop :=
  ∃ pre post, pre.length = off ∧ ∀ v, f v = pre ++ enc v ++ post

section Slot

variable {α : Type} {off : ℕ} {enc f : α → List (BitVec 8)} {m : Mem}

section

variable (slot : Slot off enc f)

include slot

/-- Reading a field. -/
theorem Slot.at {v : α} (h : At m 0 (f v)) : At m off (enc v) := by
  obtain ⟨pre, post, rfl, layout⟩ := slot
  rw [layout, at_append, at_append, Nat.zero_add] at h
  exact h.1.2

/-- Writing a field in place. -/
theorem Slot.store {v : α} (w : α) (h : At m 0 (f v))
    (same : (enc w).length = (enc v).length) : At (store m off (enc w)) 0 (f w) := by
  obtain ⟨pre, post, rfl, layout⟩ := slot
  rw [layout, at_append, at_append, Nat.zero_add] at h ⊢
  obtain ⟨⟨hpre, -⟩, hpost⟩ := h
  rw [List.length_append] at hpost ⊢
  refine ⟨⟨hpre.store_of_disjoint (.inr (by omega)), at_store m _ _⟩, ?_⟩
  rw [same]
  exact hpost.store_of_disjoint (.inl (by omega))

/-- What follows a layout does not matter. -/
theorem Slot.append (l : List (BitVec 8)) : Slot off enc fun v => f v ++ l := by
  obtain ⟨pre, post, hoff, layout⟩ := slot
  exact ⟨pre, post ++ l, hoff, fun v => by simp [layout]⟩

/-- Layouts that are equal hold the same field. -/
theorem Slot.inj {v w : α} (h : f v = f w) : enc v = enc w := by
  obtain ⟨pre, post, -, layout⟩ := slot
  rw [layout, layout] at h
  exact List.append_cancel_left (List.append_cancel_right h)

end

end Slot

/-! ## Numbers -/

/-- The two bytes of a number. -/
def be16 (v : BitVec 16) : List (BitVec 8) := [v.extractLsb' 8 8, v.extractLsb' 0 8]

/-- The four bytes of a number. -/
def be32 (v : BitVec 32) : List (BitVec 8) :=
  be16 (v.extractLsb' 16 16) ++ be16 (v.extractLsb' 0 16)

/-- The number in the two bytes at `a`. -/
def get16 (m : Mem) (a : ℕ) : BitVec 16 := m a ++ m (a + 1)

/-- The number in the four bytes at `a`. -/
def get32 (m : Mem) (a : ℕ) : BitVec 32 := get16 m a ++ get16 m (a + 2)

@[simp]
theorem length_be16 (v : BitVec 16) : (be16 v).length = 2 := rfl

@[simp]
theorem length_be32 (v : BitVec 32) : (be32 v).length = 4 := rfl

theorem extract_append_extract (v : BitVec 16) : v.extractLsb' 8 8 ++ v.extractLsb' 0 8 = v := by
  rw [BitVec.extractLsb'_append_extractLsb'_eq_extractLsb' (by omega)]
  simp

theorem At.get16 {v : BitVec 16} (h : At m a (be16 v)) : get16 m a = v := by
  rw [be16, at_cons, at_cons] at h
  rw [Bytes.get16, h.1, h.2.1, extract_append_extract]

theorem At.get32 {v : BitVec 32} (h : At m a (be32 v)) : get32 m a = v := by
  rw [be32, at_append, length_be16] at h
  rw [Bytes.get32, h.1.get16, h.2.get16,
    BitVec.extractLsb'_append_extractLsb'_eq_extractLsb' (by omega)]
  simp

theorem store_be16_iff {v : BitVec 16} : store m a (be16 v) = m ↔ get16 m a = v := by
  rw [store_eq_self_iff]
  refine ⟨At.get16, ?_⟩
  rintro rfl
  rw [be16, get16, BitVec.extractLsb'_append_eq_left, BitVec.extractLsb'_append_eq_right]
  exact at_cons.mpr ⟨rfl, at_cons.mpr ⟨rfl, at_nil m _⟩⟩

theorem store_be32_iff {v : BitVec 32} : store m a (be32 v) = m ↔ get32 m a = v := by
  rw [store_eq_self_iff]
  refine ⟨At.get32, ?_⟩
  rintro rfl
  rw [be32, get32, BitVec.extractLsb'_append_eq_left, BitVec.extractLsb'_append_eq_right, at_append]
  exact ⟨store_eq_self_iff.mp (store_be16_iff.mpr rfl),
    store_eq_self_iff.mp (store_be16_iff.mpr rfl)⟩

/-- The 16-bit words of a list of bytes; an odd byte at the end is left out. -/
def words : List (BitVec 8) → List (BitVec 16)
  | a :: b :: l => (a ++ b) :: words l
  | _ => []

/-- The sum of the words. -/
def wordSum (l : List (BitVec 8)) : ℕ := ((words l).map BitVec.toNat).sum

@[simp]
theorem wordSum_nil : wordSum [] = 0 := rfl

@[simp]
theorem wordSum_cons_cons (a b : BitVec 8) (l : List (BitVec 8)) :
    wordSum (a :: b :: l) = (a ++ b).toNat + wordSum l := by
  simp [wordSum, words]

theorem wordSum_le (l : List (BitVec 8)) : wordSum l ≤ l.length / 2 * 65535 := by
  induction l using words.induct with
  | case1 a b l ih =>
    rw [wordSum_cons_cons]
    simp only [List.length_cons]
    omega
  | case2 l short =>
    match l, short with
    | [], _ => simp
    | [_], _ => simp [wordSum, words]
    | a :: b :: l, short => exact absurd rfl (short a b l)

end BSDLite2.Bytes
