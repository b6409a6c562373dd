import Mathlib.Tactic

/-!
# Byte order

The 16-bit numbers of a packet have their high byte first.  A machine that keeps the low byte
first swaps the two when it reads or writes one, any other has nothing to do.
-/

namespace BSDLite2

/-- Which byte of a number a machine keeps first. -/
inductive ByteOrder where
  | big
  | little
  deriving DecidableEq

/-- The two bytes of `x` in the other order. -/
def swap16 (x : BitVec 16) : BitVec 16 :=
  x.extractLsb' 0 8 ++ x.extractLsb' 8 8

@[simp] theorem swap16_swap16 (x : BitVec 16) : swap16 (swap16 x) = x := by
  apply BitVec.eq_of_getLsbD_eq
  intro i hi
  simp only [swap16, BitVec.getLsbD_append, BitVec.getLsbD_extractLsb']
  by_cases h : i < 8
  · simp [h]
  · have h8 : i - 8 < 8 := by omega
    simp [h, h8, show 8 + (i - 8) = i by omega]

namespace ByteOrder

/-- The word stored as `a` and then `b`. -/
def word : ByteOrder → BitVec 8 → BitVec 8 → BitVec 16
  | big, a, b => a ++ b
  | little, a, b => b ++ a

/-- The weight of the first byte of a word. -/
def fst : ByteOrder → ℕ
  | big => 256
  | little => 1

/-- The weight of the second byte of a word. -/
def snd : ByteOrder → ℕ
  | big => 1
  | little => 256

/-- A number of the machine as it stands in a packet, and back. -/
def htons : ByteOrder → BitVec 16 → BitVec 16
  | big, x => x
  | little, x => swap16 x

@[simp] theorem htons_htons (o : ByteOrder) (x : BitVec 16) : o.htons (o.htons x) = x := by
  cases o with
  | big => rfl
  | little => exact swap16_swap16 x

end ByteOrder

end BSDLite2
