import Mathlib.Data.List.Basic
import Mathlib.Data.List.Nodup
import Mathlib.Logic.Function.Basic
import Mathlib.Tactic

/-!
# Trees of pointers

A memory gives each node `N` pointers, of which some are null.  A node at depth 0 is a leaf,
and the pointers of a node at depth `d + 1` are to nodes at depth `d`.  The leaves under a node
have positions, `N ^ d` of them for a node at depth `d`.

* `tree`, `below` — the nodes under a node, with depth and first position;
* `tree_congr` — a change elsewhere in the memory;
* `walk`, `mem_tree_walk` — what can be reached along a path;
* `leaf_iff` — the leaf at a position is under one pointer.
-/

namespace BSDLite2.PtrTree

open List

variable {α : Type*} [Zero α] [DecidableEq α]

/-- A node of a tree: its address, its depth and its first position. -/
structure Node (α : Type*) where
  pos : ℕ
  depth : ℕ
  addr : α
  deriving DecidableEq

variable (N : ℕ) (mem : α → ℕ → α)

/-- The nodes under a node, itself included. -/
def tree : (d pos : ℕ) → α → List (Node α)
  | 0, pos, a => [⟨pos, 0, a⟩]
  | d + 1, pos, a => ⟨pos, d + 1, a⟩ :: (List.range N).flatMap fun j =>
    if mem a j = 0 then [] else tree d (pos + j * N ^ d) (mem a j)

/-- The nodes under a pointer. -/
def slot (d pos : ℕ) (p : α) : List (Node α) := if p = 0 then [] else tree N mem d pos p

/-- The nodes strictly under a node. -/
def below : (d pos : ℕ) → α → List (Node α)
  | 0, _, _ => []
  | d + 1, pos, a => (List.range N).flatMap fun j => slot N mem d (pos + j * N ^ d) (mem a j)

/-- Where a path leads. -/
def walk (a : α) : List ℕ → α
  | [] => a
  | o :: os => walk (mem a o) os

variable {N mem} {mem' : α → ℕ → α} {d pos : ℕ} {a : α}

theorem tree_succ : tree N mem (d + 1) pos a = ⟨pos, d + 1, a⟩ ::
    (List.range N).flatMap fun j => slot N mem d (pos + j * N ^ d) (mem a j) := rfl

theorem tree_eq : tree N mem d pos a = ⟨pos, d, a⟩ :: below N mem d pos a := by
  cases d <;> rfl

theorem root_mem : ⟨pos, d, a⟩ ∈ tree N mem d pos a := by
  cases d with
  | zero => exact mem_singleton_self _
  | succ d => exact mem_cons_self ..

variable {x : Node α}

theorem mem_slot {p : α} : x ∈ slot N mem d pos p ↔ p ≠ 0 ∧ x ∈ tree N mem d pos p := by
  unfold slot
  split_ifs with hp <;> simp [hp]

theorem mem_tree_child {j : ℕ} (hj : j < N) (hne : mem a j ≠ 0)
    (hx : x ∈ tree N mem d (pos + j * N ^ d) (mem a j)) : x ∈ tree N mem (d + 1) pos a := by
  exact mem_cons_of_mem _ (mem_flatMap.mpr ⟨j, mem_range.mpr hj, mem_slot.mpr ⟨hne, hx⟩⟩)

/-- **A change elsewhere** leaves a tree alone. -/
theorem tree_congr (same : ∀ x ∈ tree N mem d pos a, x.depth ≠ 0 → ∀ j < N,
      mem' x.addr j = mem x.addr j) : tree N mem' d pos a = tree N mem d pos a := by
  induction d generalizing pos a with
  | zero => rfl
  | succ d ih =>
    rw [tree_succ, tree_succ]
    congr 1
    refine flatMap_congr fun j hj => ?_
    have hroot : mem' a j = mem a j :=
      same _ (mem_cons_self ..) (Nat.succ_ne_zero d) j (mem_range.mp hj)
    rw [slot, slot, hroot]
    by_cases hne : mem a j = 0
    · rw [if_pos hne, if_pos hne]
    · rw [if_neg hne, if_neg hne]
      exact ih fun x hx => same x (mem_tree_child (mem_range.mp hj) hne hx)

theorem slot_congr {p : α} (same : ∀ x ∈ slot N mem d pos p, x.depth ≠ 0 → ∀ j < N,
      mem' x.addr j = mem x.addr j) : slot N mem' d pos p = slot N mem d pos p := by
  unfold slot at same ⊢
  split_ifs with hp
  · rfl
  · rw [if_neg hp] at same
    exact tree_congr same

/-- **Along a path** of pointers that are not null. -/
theorem mem_tree_walk {os : List ℕ} (le : os.length ≤ d) (lt : ∀ o ∈ os, o < N)
    (ne : ∀ os', os' ≠ [] → os' <+: os → walk mem a os' ≠ 0) :
    walk mem a os ∈ (tree N mem d pos a).map Node.addr := by
  induction os generalizing d pos a with
  | nil => exact mem_map.mpr ⟨_, root_mem, rfl⟩
  | cons o os ih =>
    cases d with
    | zero => exact absurd le (by simp)
    | succ d =>
      have hne : mem a o ≠ 0 := ne [o] (by simp) (by simp)
      have hmem : walk mem (mem a o) os ∈
          (tree N mem d (pos + o * N ^ d) (mem a o)).map Node.addr :=
        ih (by simpa using le) (fun o' ho' => lt o' (mem_cons_of_mem _ ho'))
          (fun os' _ hos' => ne (o :: os') (by simp) (by simpa using hos'))
      obtain ⟨x, hx, heq⟩ := mem_map.mp hmem
      exact mem_map.mpr ⟨x, mem_tree_child (lt o (mem_cons_self ..)) hne hx, heq⟩

/-! ## Positions -/

/-- The positions under a node. -/
theorem pos_of_mem_tree (hN : 0 < N) (hx : x ∈ tree N mem d pos a) :
    pos ≤ x.pos ∧ x.pos < pos + N ^ d := by
  induction d generalizing pos a with
  | zero =>
    obtain rfl := mem_singleton.mp hx
    exact ⟨le_rfl, by simp⟩
  | succ d ih =>
    rcases mem_cons.mp hx with rfl | hx
    · exact ⟨le_rfl, Nat.lt_add_of_pos_right (Nat.pow_pos hN)⟩
    · obtain ⟨j, hj, hx⟩ := mem_flatMap.mp hx
      obtain ⟨hle, hlt⟩ := ih (mem_slot.mp hx).2
      have hsucc : (j + 1) * N ^ d ≤ N * N ^ d := Nat.mul_le_mul_right _ (mem_range.mp hj)
      rw [add_mul] at hsucc
      rw [pow_succ, mul_comm]
      omega

theorem pos_of_mem_below (hN : 0 < N) (hx : x ∈ below N mem d pos a) :
    pos ≤ x.pos ∧ x.pos < pos + N ^ d := by
  have hmem : x ∈ tree N mem d pos a := by
    rw [tree_eq]
    exact mem_cons_of_mem _ hx
  exact pos_of_mem_tree hN hmem

theorem pos_of_mem_slot (hN : 0 < N) {p : α} (hx : x ∈ slot N mem d pos p) :
    pos ≤ x.pos ∧ x.pos < pos + N ^ d :=
  pos_of_mem_tree hN (mem_slot.mp hx).2

/-- A node of a tree begins at a multiple of what is under it. -/
theorem aligned_of_mem_tree (hx : x ∈ tree N mem d pos a) :
    x.depth ≤ d ∧ ∃ c, x.pos = pos + c * N ^ x.depth := by
  induction d generalizing pos a with
  | zero =>
    obtain rfl := mem_singleton.mp hx
    exact ⟨le_rfl, 0, by simp⟩
  | succ d ih =>
    rcases mem_cons.mp hx with rfl | hx
    · exact ⟨le_rfl, 0, by simp⟩
    · obtain ⟨j, -, hx⟩ := mem_flatMap.mp hx
      obtain ⟨hle, c, hc⟩ := ih (mem_slot.mp hx).2
      refine ⟨Nat.le_succ_of_le hle, j * N ^ (d - x.depth) + c, ?_⟩
      rw [hc, add_mul, mul_assoc, ← pow_add, Nat.sub_add_cancel hle, add_assoc]

/-- There is a leaf at a position. -/
def Leaf (l : List (Node α)) (q : ℕ) : Prop := ∃ x ∈ l, x.depth = 0 ∧ x.pos = q

/-- **The leaf at a position** is under one of the pointers. -/
theorem leaf_iff (hN : 0 < N) (b : ℕ) :
    Leaf (tree N mem (d + 1) pos a) (pos + b % N ^ (d + 1)) ↔
      mem a (b / N ^ d % N) ≠ 0 ∧
        Leaf (tree N mem d (pos + b / N ^ d % N * N ^ d) (mem a (b / N ^ d % N)))
          (pos + b / N ^ d % N * N ^ d + b % N ^ d) := by
  have hmod : b % N ^ (d + 1) = b / N ^ d % N * N ^ d + b % N ^ d := by
    rw [Nat.mod_pow_succ, mul_comm, add_comm]
  have hlt : b % N ^ d < N ^ d := Nat.mod_lt _ (Nat.pow_pos hN)
  constructor
  · rintro ⟨x, hx, hdepth, hpos⟩
    rcases mem_cons.mp hx with rfl | hx
    · cases hdepth
    obtain ⟨j, hj, hx⟩ := mem_flatMap.mp hx
    obtain ⟨hle, hge⟩ := pos_of_mem_slot hN hx
    obtain rfl : j = b / N ^ d % N := by
      have h2 : b / N ^ d % N * N ^ d + b % N ^ d < (j + 1) * N ^ d := by
        rw [add_mul]
        omega
      refine le_antisymm ?_ ?_
      · by_contra hlt'
        have := Nat.mul_le_mul_right (N ^ d) (Nat.succ_le_of_lt (not_le.mp hlt'))
        rw [Nat.succ_mul] at this
        omega
      · have h3 := lt_of_le_of_lt (Nat.le_add_right ..) h2
        exact Nat.le_of_lt_succ (Nat.lt_of_mul_lt_mul_right h3)
    obtain ⟨hne, hx⟩ := mem_slot.mp hx
    exact ⟨hne, x, hx, hdepth, by rw [hpos, hmod, add_assoc]⟩
  · rintro ⟨hne, x, hx, hdepth, hpos⟩
    refine ⟨x, mem_tree_child (Nat.mod_lt _ hN) hne hx, hdepth, ?_⟩
    rw [hpos, hmod, add_assoc]

end BSDLite2.PtrTree
