import Mathlib.Tactic

/-!
# What the headers fix

Assignments to the small integer types of a machine with an `int` of 32 bits, and constants that
more than one part of the kernel uses: the sizes of mbufs (`sys/param.h`, `sys/mbuf.h`), the flags
in `ip_off` (`netinet/ip.h`) and the class of an address (`netinet/in.h`).
-/

namespace BSDLite2

/-- What is stored in an `int`. -/
def int (x : ℤ) : ℤ := x.bmod (2 ^ 32)

/-- What is stored in a `short`. -/
def short (x : ℤ) : ℤ := x.bmod (2 ^ 16)

theorem int_eq {x : ℤ} (low : -2 ^ 31 ≤ x) (high : x < 2 ^ 31) : int x = x :=
  Int.bmod_eq_of_le (by omega) (by omega)

theorem short_eq {x : ℤ} (low : -2 ^ 15 ≤ x) (high : x < 2 ^ 15) : short x = x :=
  Int.bmod_eq_of_le (by omega) (by omega)

@[simp] theorem short_short (x : ℤ) : short (short x) = short x := by
  rw [short, short, Int.bmod_bmod]

/-- `MSIZE`: the size of an mbuf. -/
def MSIZE : ℕ := 128

/-- `MLEN`: what its header of three words, a length and two shorts leaves for data. -/
def MLEN : ℕ := 108

/-- `MHLEN`: what a packet header leaves of that. -/
def MHLEN : ℕ := 100

/-- `MCLBYTES`: the size of a cluster. -/
def MCLBYTES : ℕ := 2048

/-- `IP_DF`. -/
def IP_DF : BitVec 16 := 0x4000

/-- `IP_MF`. -/
def IP_MF : BitVec 16 := 0x2000

/-- `IN_MULTICAST`. -/
def inMulticast (a : BitVec 32) : Bool := a &&& 0xf0000000 == 0xe0000000

end BSDLite2
