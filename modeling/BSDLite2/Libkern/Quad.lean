import Mathlib.Data.BitVec
import Mathlib.Tactic

/-!
# Quads and their halves (`libkern/quad.h`)

A quad has 64 bits, a long 32 and half a long 16.  `ul[H]` and `ul[L]` are the two
longs of a quad, `HHALF` and `LHALF` the two halves of a long.
-/

namespace BSDLite2.Libkern

variable (q : BitVec 64)

/-- `HHALF` -/
def hhalf (x : BitVec 32) : BitVec 32 := x >>> 16

/-- `LHALF` -/
def lhalf (x : BitVec 32) : BitVec 32 := x &&& 0xffff

/-- `LHUP` -/
def lhup (x : BitVec 32) : BitVec 32 := x <<< 16

/-- `ul[H]` -/
def ulH : BitVec 32 := q.extractLsb' 32 32

/-- `ul[L]` -/
def ulL : BitVec 32 := q.extractLsb' 0 32

variable (x : BitVec 32)

theorem toNat_hhalf : (hhalf x).toNat = x.toNat / 65536 := by
  rw [hhalf, BitVec.toNat_ushiftRight, Nat.shiftRight_eq_div_pow]

theorem toNat_lhalf : (lhalf x).toNat = x.toNat % 65536 := by
  rw [lhalf, BitVec.toNat_and, show (0xffff : BitVec 32).toNat = 2 ^ 16 - 1 from rfl,
    Nat.and_two_pow_sub_one_eq_mod]

theorem toNat_ulH : (ulH q).toNat = q.toNat / 2 ^ 32 := by
  rw [ulH, BitVec.extractLsb'_toNat, Nat.shiftRight_eq_div_pow, Nat.mod_eq_of_lt (by omega)]

theorem toNat_ulL : (ulL q).toNat = q.toNat % 2 ^ 32 := by
  rw [ulL, BitVec.extractLsb'_toNat, Nat.shiftRight_eq_div_pow, Nat.div_one]

theorem hhalf_lt : (hhalf x).toNat < 65536 := by
  rw [toNat_hhalf]
  omega

theorem lhalf_lt : (lhalf x).toNat < 65536 := by
  rw [toNat_lhalf]
  omega

theorem toNat_eq_halves : x.toNat = (hhalf x).toNat * 65536 + (lhalf x).toNat := by
  rw [toNat_hhalf, toNat_lhalf]
  omega

theorem toNat_eq_longs : q.toNat = (ulH q).toNat * 2 ^ 32 + (ulL q).toNat := by
  rw [toNat_ulH, toNat_ulL]
  omega

end BSDLite2.Libkern
