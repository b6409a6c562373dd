import Mathlib.Data.List.Nodup
import Mathlib.Tactic

/-!
# Heaps of linked cells

C code that links records through pointer fields is modelled over a heap: a
finite partial map from addresses to cells.  A null pointer is `none`, and so is
the content of an address that is not allocated, which makes a read through a
null or stale pointer visible as a fault.

* `Mem` — the heap, with `set` and `free`;
* `Stop` — the ways in which a function does not return;
* `Mem.Holds` — the heap contains a given list of cells; the frame rules say
  which writes preserve that;
* `Mem.Owns` — it contains them at distinct addresses, so that a cell of the list
  can be written or released;
* `seg` — the cells of a linked segment, laid out from the list of its nodes.
  An assertion about pointers thereby becomes one about the list.

Nothing here depends on what a cell is.
-/

namespace BSDLite2.Heap

open List Prod Function

universe u v

variable {κ : Type u} {ν : Type v}

/-- A heap.  No address from `brk` on is in use, so that `brk` bounds the number
of cells and with it the length of every list through them. -/
structure Mem (κ : Type u) where
  cells : ℕ → Option κ
  brk : ℕ
  bound : ∀ a, brk ≤ a → cells a = none

/-- The ways in which a modelled function fails to return. -/
inductive Stop where
  /-- `panic(msg)` -/
  | panic (msg : String)
  /-- a pointer that is null, or whose target is not allocated, was followed -/
  | wild
  /-- a list was followed for longer than the heap has cells -/
  | loop
  deriving DecidableEq

/-- Taking one address out of a list of distinct ones. -/
theorem nodup_middle_iff {α : Type u} {a : α} {l l' : List α} :
    (l ++ a :: l').Nodup ↔ (a ∉ l ∧ a ∉ l') ∧ (l ++ l').Nodup := by
  rw [nodup_middle, nodup_cons, mem_append, not_or]

theorem exists_fuel {m fuel : ℕ} (h : m < fuel) : ∃ k, fuel = k + 1 := ⟨fuel - 1, by omega⟩

namespace Mem

/-- The heap with nothing in it. -/
def empty : Mem κ where
  cells _ := none
  brk := 0
  bound _ _ := rfl

/-- Write a cell. -/
def set (h : Mem κ) (a : ℕ) (c : κ) : Mem κ where
  cells := update h.cells a (some c)
  brk := max h.brk (a + 1)
  bound b hb := by
    have hne : b ≠ a := by omega
    rw [update_of_ne hne]
    exact h.bound b (by omega)

/-- Release a cell. -/
def free (h : Mem κ) (a : ℕ) : Mem κ where
  cells := update h.cells a none
  brk := h.brk
  bound b hb := by
    by_cases hba : b = a
    · rw [hba, update_self]
    · rw [update_of_ne hba]
      exact h.bound b hb

/-- Read through an address. -/
def get (h : Mem κ) (a : ℕ) : Except Stop κ :=
  match h.cells a with
  | some c => .ok c
  | none => .error .wild

variable {h : Mem κ} {a : ℕ}

theorem get_eq_ok {c : κ} (hc : h.cells a = some c) : h.get a = .ok c := by
  simp [get, hc]

theorem cells_set (h : Mem κ) (a b : ℕ) (c : κ) :
    (h.set a c).cells b = if b = a then some c else h.cells b :=
  update_apply h.cells a (some c) b

theorem cells_free (h : Mem κ) (a b : ℕ) : (h.free a).cells b = if b = a then none else h.cells b :=
  update_apply h.cells a none b

theorem lt_brk {c : κ} (hc : h.cells a = some c) : a < h.brk := by
  by_contra hlt
  rw [h.bound a (by omega)] at hc
  cases hc

/-! ## What a heap holds -/

/-- The heap contains these cells. -/
def Holds (h : Mem κ) (cs : List (ℕ × κ)) : Prop :=
  ∀ x ∈ cs, h.cells x.1 = some x.2

@[simp] theorem holds_nil (h : Mem κ) : h.Holds [] := by simp [Holds]

variable {cs : List (ℕ × κ)}

@[simp] theorem holds_cons {x : ℕ × κ} :
    h.Holds (x :: cs) ↔ h.cells x.1 = some x.2 ∧ h.Holds cs := by
  simp [Holds]

variable {ds : List (ℕ × κ)}

@[simp] theorem holds_append : h.Holds (cs ++ ds) ↔ h.Holds cs ∧ h.Holds ds := by
  simp only [Holds, mem_append]
  constructor
  · intro hall
    exact ⟨fun x hx => hall x (.inl hx), fun x hx => hall x (.inr hx)⟩
  · rintro ⟨hc, hd⟩ x (hx | hx)
    · exact hc x hx
    · exact hd x hx

theorem Holds.of_subset (hs : h.Holds ds) (hsub : cs ⊆ ds) :
    h.Holds cs := fun x hx => hs x (hsub hx)

/-- **Frame rule** for a write elsewhere. -/
theorem Holds.set (hs : h.Holds cs) {c : κ} (ha : a ∉ cs.map fst) : (h.set a c).Holds cs := by
  intro x hx
  have hne : x.1 ≠ a := fun he => ha (he ▸ mem_map_of_mem hx)
  rw [cells_set, if_neg hne]
  exact hs x hx

/-- **Frame rule** for a release elsewhere. -/
theorem Holds.free (hs : h.Holds cs) (ha : a ∉ cs.map fst) : (h.free a).Holds cs := by
  intro x hx
  have hne : x.1 ≠ a := fun he => ha (he ▸ mem_map_of_mem hx)
  rw [cells_free, if_neg hne]
  exact hs x hx

@[simp] theorem cells_set_self (h : Mem κ) (a : ℕ) (c : κ) : (h.set a c).cells a = some c := by
  rw [cells_set, if_pos rfl]

/-- Distinct cells are at most as many as addresses. -/
theorem Holds.length_le (hs : h.Holds cs) (hd : (cs.map fst).Nodup) : cs.length ≤ h.brk := by
  have hsub : cs.map fst ⊆ List.range h.brk := by
    intro a ha
    obtain ⟨x, hx, rfl⟩ := mem_map.mp ha
    exact mem_range.mpr (lt_brk (hs x hx))
  simpa using (hd.subperm hsub).length_le

/-- **Ownership**: the heap contains these cells, at distinct addresses. -/
structure Owns (h : Mem κ) (cs : List (ℕ × κ)) : Prop where
  cells : h.Holds cs
  distinct : (cs.map fst).Nodup

namespace Owns

theorem perm (ho : h.Owns cs) (hp : cs.Perm ds) : h.Owns ds :=
  ⟨ho.cells.of_subset hp.symm.subset, (hp.map _).nodup_iff.mp ho.distinct⟩

theorem comm (ho : h.Owns (cs ++ ds)) : h.Owns (ds ++ cs) := ho.perm perm_append_comm

theorem left (ho : h.Owns (cs ++ ds)) : h.Owns cs :=
  ⟨(holds_append.mp ho.cells).1, by
    have := ho.distinct
    rw [map_append] at this
    exact this.of_append_left⟩

theorem right (ho : h.Owns (cs ++ ds)) : h.Owns ds := ho.comm.left

theorem length_le (ho : h.Owns cs) : cs.length ≤ h.brk := ho.cells.length_le ho.distinct

/-- A new cell. -/
theorem alloc (ho : h.Owns cs) (ha : a ∉ cs.map fst) (c : κ) : (h.set a c).Owns ((a, c) :: cs) :=
  ⟨holds_cons.mpr ⟨cells_set_self h a c, ho.cells.set ha⟩, nodup_cons.mpr ⟨ha, ho.distinct⟩⟩

section

variable {L R : List (ℕ × κ)} {c : κ} (ho : h.Owns (L ++ (a, c) :: R))

include ho

/-- A cell of the list is read. -/
theorem get : h.get a = .ok c := get_eq_ok (ho.cells (a, c) (by simp))

theorem notMem : a ∉ (L ++ R).map fst := by
  have := (ho.perm perm_middle).distinct
  rw [map_cons, nodup_cons] at this
  exact this.1

theorem rest : h.Owns (L ++ R) :=
  (ho.perm perm_middle : h.Owns ([(a, c)] ++ (L ++ R))).right

/-- It is released. -/
theorem free : (h.free a).Owns (L ++ R) := ⟨ho.rest.cells.free ho.notMem, ho.rest.distinct⟩

/-- It is written. -/
theorem set (c' : κ) : (h.set a c').Owns (L ++ (a, c') :: R) :=
  (ho.rest.alloc ho.notMem c').perm perm_middle.symm

end

end Owns

/-- Write a list of cells. -/
def install (h : Mem κ) (cs : List (ℕ × κ)) : Mem κ :=
  cs.foldr (fun x h => h.set x.1 x.2) h

theorem cells_install_of_notMem (h : Mem κ) (ha : a ∉ cs.map fst) :
    (h.install cs).cells a = h.cells a := by
  induction cs with
  | nil => rfl
  | cons x cs ih =>
    simp only [map_cons, mem_cons, not_or] at ha
    rw [install, foldr_cons, cells_set, if_neg ha.1]
    exact ih ha.2

theorem holds_install (h : Mem κ) (hd : (cs.map fst).Nodup) : (h.install cs).Holds cs := by
  induction cs with
  | nil => simp
  | cons x cs ih =>
    rw [map_cons, nodup_cons] at hd
    rw [holds_cons, install]
    exact ⟨cells_set_self _ _ _, (ih hd.2).set hd.1⟩

theorem Holds.install (hs : h.Holds ds) (hdisj : ∀ a ∈ cs.map fst, a ∉ ds.map fst) :
    (h.install cs).Holds ds := by
  intro x hx
  rw [cells_install_of_notMem h fun hmem => hdisj _ hmem (mem_map_of_mem hx)]
  exact hs x hx

end Mem

/-! ## Linked segments -/

/-- The pointer to a segment that ends at the pointer `tail`. -/
def head (tail : Option ℕ) : List (ℕ × ν) → Option ℕ
  | [] => tail
  | x :: _ => some x.1

variable (tail : Option ℕ)

@[simp] theorem head_nil : head tail ([] : List (ℕ × ν)) = tail := rfl

@[simp] theorem head_cons (x : ℕ × ν) (l : List (ℕ × ν)) : head tail (x :: l) = some x.1 := rfl

theorem head_append (l l' : List (ℕ × ν)) : head tail (l ++ l') = head (head tail l') l := by
  cases l <;> rfl

section Seg

variable (link : ν → Option ℕ → κ)

/-- The cells of a segment: `link v p` is the cell of a node with value `v` and
next pointer `p`. -/
def seg (tail : Option ℕ) : List (ℕ × ν) → List (ℕ × κ)
  | [] => []
  | x :: l => (x.1, link x.2 (head tail l)) :: seg tail l

variable (tail : Option ℕ) (l : List (ℕ × ν))

@[simp] theorem seg_nil : seg link tail [] = [] := rfl

@[simp] theorem seg_cons (x : ℕ × ν) (l : List (ℕ × ν)) :
    seg link tail (x :: l) = (x.1, link x.2 (head tail l)) :: seg link tail l := rfl

theorem seg_append (l' : List (ℕ × ν)) :
    seg link tail (l ++ l') = seg link (head tail l') l ++ seg link tail l' := by
  induction l with
  | nil => rfl
  | cons x l ih => simp [ih, head_append]

@[simp] theorem map_fst_seg : (seg link tail l).map fst = l.map fst := by
  induction l with
  | nil => rfl
  | cons x l ih => simp [ih]

@[simp] theorem length_seg : (seg link tail l).length = l.length := by
  induction l with
  | nil => rfl
  | cons x l ih => simp [ih]

end Seg

end BSDLite2.Heap
