import Mathlib.Data.List.Nodup
import Mathlib.Tactic

/-!
# Lists that are linked through a memory of words

Each address holds a pointer, or the null pointer.  A list of addresses is a segment if
each holds a pointer to the next; a chain is a segment that ends with the null pointer.
What the other addresses hold does not matter.

* `Seg`, `Chain` — segments and chains;
* `Seg.congr` — the frame rule;
* `seg_append` — segments one after the other;
* `Chain.unique` — the pointer determines the chain;
* `Chain.snoc` — an address is linked behind the last.
-/

namespace BSDLite2.Linked

open Function

universe u

variable {A : Type u}

/-- The addresses from the pointer `p` on up to the pointer `q`. -/
def Seg (mem : A → Option A) : Option A → List A → Option A → Prop
  | p, [], q => p = q
  | p, a :: l, q => p = some a ∧ Seg mem (mem a) l q

/-- The addresses from the pointer `p` on. -/
def Chain (mem : A → Option A) (p : Option A) (l : List A) : Prop := Seg mem p l none

variable {mem mem' : A → Option A} {p q r : Option A} {l l' : List A}

@[simp] theorem seg_nil : Seg mem p [] q ↔ p = q := Iff.rfl

@[simp] theorem seg_cons {a : A} : Seg mem p (a :: l) q ↔ p = some a ∧ Seg mem (mem a) l q :=
  Iff.rfl

@[simp] theorem chain_nil : Chain mem p [] ↔ p = none := Iff.rfl

@[simp] theorem chain_cons {a : A} :
    Chain mem p (a :: l) ↔ p = some a ∧ Chain mem (mem a) l := Iff.rfl

/-- **Frame rule.** -/
theorem Seg.congr (seg : Seg mem p l q) (h : ∀ a ∈ l, mem' a = mem a) : Seg mem' p l q := by
  induction l generalizing p with
  | nil => exact seg
  | cons a l ih =>
    rw [List.forall_mem_cons] at h
    rw [seg_cons, h.1]
    exact ⟨seg.1, ih seg.2 h.2⟩

theorem Chain.congr (chain : Chain mem p l) (h : ∀ a ∈ l, mem' a = mem a) : Chain mem' p l :=
  Seg.congr chain h

theorem seg_append : Seg mem p (l ++ l') r ↔ ∃ q, Seg mem p l q ∧ Seg mem q l' r := by
  induction l generalizing p with
  | nil => simp
  | cons a l ih => simp [ih, and_assoc]

/-- A segment in front of a chain. -/
theorem Seg.chain (seg : Seg mem p l q) (chain : Chain mem q l') : Chain mem p (l ++ l') :=
  seg_append.mpr ⟨q, seg, chain⟩

theorem Chain.unique (chain : Chain mem p l) (chain' : Chain mem p l') : l = l' := by
  induction l generalizing p l' with
  | nil =>
    cases l' with
    | nil => rfl
    | cons a l' => exact absurd (chain.symm.trans chain'.1) (by simp)
  | cons a l ih =>
    cases l' with
    | nil => exact absurd (chain.1.symm.trans chain') (by simp)
    | cons b l' =>
      obtain rfl : a = b := Option.some.inj (chain.1.symm.trans chain'.1)
      rw [ih chain.2 chain'.2]

/-- **An address is linked behind the last.** -/
theorem Chain.snoc [DecidableEq A] {z a : A} (chain : Chain mem p (l ++ [z])) (hz : z ∉ l)
    (ha : a ∉ l ++ [z]) : Chain (update (update mem z (some a)) a none) p (l ++ [z, a]) := by
  obtain ⟨q, front, hq, -⟩ := seg_append.mp chain
  rw [List.mem_append, List.mem_singleton, not_or] at ha
  refine Seg.chain (front.congr fun b hb => ?_) ⟨hq, ?_, ?_⟩
  · rw [update_of_ne (ne_of_mem_of_not_mem hb ha.1), update_of_ne (ne_of_mem_of_not_mem hb hz)]
  · rw [update_of_ne (Ne.symm ha.2), update_self]
  · exact update_self ..

end BSDLite2.Linked
