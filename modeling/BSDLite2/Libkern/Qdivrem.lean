import BSDLite2.Lib.Digits
import BSDLite2.Libkern.Quad

/-!
# Division of quads (`libkern/qdivrem.c`)

`__qdivrem` divides quads by their four digits of 16 bits: by long division with a
quotient digit estimated from the leading digits (Algorithm D), or digit by digit
if the divisor has only one.

A digit is an `unsigned short`, and the base `B` is 65536.  Arrays of digits are
functions of the index, a pointer into one is the index it points to.  What is stored
in a digit or in an `unsigned long` is cut to its width, and the computation remembers
whether anything was lost (`Fit`).

The steps D1 to D7 are named as in the comments of the source.
-/

namespace BSDLite2.Libkern.Qdivrem

open Digits Function

/-! ## The code -/

/-- A value, and whether everything that was stored on the way to it fit. -/
structure Fit (α : Type) where
  val : α
  fits : Bool
  deriving DecidableEq

instance : Monad Fit where
  pure a := ⟨a, true⟩
  bind x f := ⟨(f x.val).val, x.fits && (f x.val).fits⟩

/-- Store into a `digit`. -/
def digit (x : ℕ) : Fit ℕ := ⟨x % 65536, x < 65536⟩

/-- Store into a `u_long`. -/
def long (x : ℕ) : Fit ℕ := ⟨x % 2 ^ 32, x < 2 ^ 32⟩

/-- The difference of two `u_long`, which wraps. -/
def ulongSub (x y : ℕ) : ℕ := (x + (2 ^ 32 - y)) % 2 ^ 32

/-- `HHALF` -/
def hhalf (x : ℕ) : ℕ := x >>> 16

/-- `LHALF` -/
def lhalf (x : ℕ) : ℕ := x &&& 0xffff

/-- `COMBINE` -/
def combine (a b : ℕ) : Fit ℕ := do
  let x ← long (a <<< 16)
  pure (x ||| b)

/-- **`shl`.**  Shift the digits from `o` on left; `len` digits follow the first. -/
def shl (sh : ℕ) : (len o : ℕ) → (p : ℕ → ℕ) → Fit (ℕ → ℕ)
  | 0, o, p => do
      let x ← digit (lhalf (p o <<< sh))
      pure (update p o x)
  | len + 1, o, p => do
      let x ← digit (lhalf (p o <<< sh) ||| p (o + 1) >>> (16 - sh))
      shl sh len (o + 1) (update p o x)

/-- The loop that skips the leading zeros of the divisor, and counts its digits.  It
stops at 1 before it looks at the last. -/
def skipDivisor (vs : ℕ → ℕ) : (n v : ℕ) → ℕ × ℕ
  | 0, v => (0, v)
  | n + 1, v =>
    if vs (v + 1) = 0 then if n = 1 then (1, v) else skipDivisor vs n (v + 1) else (n + 1, v)

/-- The loop that skips the leading zeros of the dividend. -/
def skipDividend (us : ℕ → ℕ) : (m u : ℕ) → Fit (ℕ × ℕ)
  | 0, u => ⟨(0, u), us (u + 1) ≠ 0⟩
  | m + 1, u => if us (u + 1) = 0 then skipDividend us m (u + 1) else pure (m + 1, u)

/-- D1: the shift that makes the first digit of the divisor at least `B / 2`. -/
def normShift : (fuel t d : ℕ) → Fit ℕ
  | 0, _, d => ⟨d, false⟩
  | fuel + 1, t, d =>
    if t < 65536 / 2 then do
      let t ← long (t <<< 1)
      normShift fuel t (d + 1)
    else pure d

/-- D3 from the label `qhat_too_big` on.  `qhat` is positive there. -/
def qhatTooBig (v1 v2 uj2 : ℕ) : (qhat rhat : ℕ) → Fit ℕ
  | 0, _ => ⟨2 ^ 32 - 1, false⟩
  | qhat + 1, rhat => do
      let rhat ← long (rhat + v1)
      if rhat ≥ 65536 then pure qhat
      else
        let p ← long (v2 * qhat)
        let c ← combine rhat uj2
        if p > c then qhatTooBig v1 v2 uj2 qhat rhat else pure qhat

/-- D3: estimate a digit of the quotient. -/
def estimate (uj0 uj1 uj2 v1 v2 : ℕ) : Fit ℕ :=
  if uj0 = v1 then qhatTooBig v1 v2 uj2 65536 uj1
  else do
    let n ← combine uj0 uj1
    let qhat ← long (n / v1)
    let rhat ← long (n % v1)
    let p ← long (v2 * qhat)
    let c ← combine rhat uj2
    if p > c then qhatTooBig v1 v2 uj2 qhat rhat else pure qhat

/-- D4: subtract `qhat` times the digits after `v` from those after `u`. -/
def mulSub (qhat : ℕ) (vs : ℕ → ℕ) (v u : ℕ) : (i t : ℕ) → (us : ℕ → ℕ) → Fit (ℕ × (ℕ → ℕ))
  | 0, t, us => pure (t, us)
  | i + 1, t, us => do
      let p ← long (vs (v + (i + 1)) * qhat)
      let t := ulongSub (ulongSub (us (u + (i + 1))) p) t
      let x ← digit (lhalf t)
      mulSub qhat vs v u i ((65536 - hhalf t) &&& (65536 - 1)) (update us (u + (i + 1)) x)

/-- D6: add the digits after `v` to those after `u`. -/
def addBack (vs : ℕ → ℕ) (v u : ℕ) : (i t : ℕ) → (us : ℕ → ℕ) → Fit (ℕ × (ℕ → ℕ))
  | 0, t, us => pure (t, us)
  | i + 1, t, us => do
      let t ← long (t + (us (u + (i + 1)) + vs (v + (i + 1))))
      let x ← digit (lhalf t)
      addBack vs v u i (hhalf t) (update us (u + (i + 1)) x)

/-- One turn of the main loop, with `u` at the digit `u[j]`. -/
def divStep (n : ℕ) (vs : ℕ → ℕ) (v u : ℕ) (us : ℕ → ℕ) : Fit (ℕ × (ℕ → ℕ)) := do
  let qhat ← estimate (us u) (us (u + 1)) (us (u + 2)) (vs (v + 1)) (vs (v + 2))
  let (t, us) ← mulSub qhat vs v u n 0 us
  let t := ulongSub (us u) t
  let x ← digit (lhalf t)
  let us := update us u x
  if hhalf t = 0 then pure (qhat, us)
  else
    let (t, us) ← addBack vs v u n 0 us
    let x ← digit (lhalf (us u + t))
    pure (ulongSub qhat 1, update us u x)

/-- The main loop, `k` turns. -/
def divLoop (n : ℕ) (vs : ℕ → ℕ) (v : ℕ) :
    (k u q : ℕ) → (us qs : ℕ → ℕ) → Fit ((ℕ → ℕ) × (ℕ → ℕ))
  | 0, _, _, us, qs => pure (us, qs)
  | k + 1, u, q, us, qs => do
      let (qhat, us) ← divStep n vs v u us
      let x ← digit qhat
      divLoop n vs v k (u + 1) (q + 1) us (update qs q x)

/-- The remainder shifted back: the `k` digits after `u`. -/
def shrRem (d u : ℕ) : (k : ℕ) → (us : ℕ → ℕ) → Fit (ℕ → ℕ)
  | 0, us => pure (update us u 0)
  | k + 1, us => do
      let x ← digit (us (u + (k + 1)) >>> d ||| lhalf (us (u + k) <<< (16 - d)))
      shrRem d u k (update us (u + (k + 1)) x)

/-- The two longs of `tmp`. -/
def tmp (h l : ℕ) : BitVec 64 := BitVec.ofNat 32 h ++ BitVec.ofNat 32 l

/-- `tmp` from the four digits after the first. -/
def tmpOf (d : ℕ → ℕ) : Fit (BitVec 64) := do
  let h ← combine (d 1) (d 2)
  let l ← combine (d 3) (d 4)
  pure (tmp h l)

/-- The digits of a quad, the first of them in `[1]`. -/
def digitsOf (first : ℕ) (q : BitVec 64) : ℕ → ℕ
  | 0 => first
  | 1 => (Libkern.hhalf (ulH q)).toNat
  | 2 => (Libkern.lhalf (ulH q)).toNat
  | 3 => (Libkern.hhalf (ulL q)).toNat
  | 4 => (Libkern.lhalf (ulL q)).toNat
  | _ => 0

/-- Division by the one digit `t`. -/
def shortDiv (us : ℕ → ℕ) (t : ℕ) (arq : Bool) : Fit (BitVec 64 × Option (BitVec 64)) := do
  let q1 ← digit (us 1 / t)
  let rbj ← combine (us 1 % t) (us 2)
  let q2 ← digit (rbj / t)
  let rbj ← combine (rbj % t) (us 3)
  let q3 ← digit (rbj / t)
  let rbj ← combine (rbj % t) (us 4)
  let q4 ← digit (rbj / t)
  let h ← combine q1 q2
  let l ← combine q3 q4
  pure (tmp h l, if arq then some (BitVec.ofNat 64 (rbj % t)) else none)

/-- The shift of D1, if there is one. -/
def normalise (d len o : ℕ) (p : ℕ → ℕ) : Fit (ℕ → ℕ) := if d > 0 then shl d len o p else pure p

/-- The remainder, from the `n` digits after `u`, if the caller wants it. -/
def remainder (arq : Bool) (d u n : ℕ) (us : ℕ → ℕ) : Fit (Option (BitVec 64)) :=
  if arq then some <$> ((if d > 0 then shrRem d u n us else pure us) >>= tmpOf) else pure none

/-- Division by `n` digits after `v`. -/
def longDiv (junk us vs : ℕ → ℕ) (n v : ℕ) (arq : Bool) :
    Fit (BitVec 64 × Option (BitVec 64)) := do
  let (m, u) ← skipDividend us (4 - n) 0
  let qs := fun i => if i < 4 - m then 0 else junk i
  let d ← normShift 16 (vs (v + 1)) 0
  let us ← normalise d (m + n) u us
  let vs ← normalise d (n - 1) (v + 1) vs
  let (us, qs) ← divLoop n vs v (m + 1) u (4 - m) us qs
  let r ← remainder arq d (u + m) n us
  let q ← tmpOf qs
  pure (q, r)

/-- **`__qdivrem`**, which divides by zero if it is asked to.  `arq` says whether the
caller wants the remainder.  `junk` is what stands in arrays before it is set. -/
def qdivrem (junk : ℕ → ℕ) (uq vq : BitVec 64) (arq : Bool) :
    Option (Fit (BitVec 64 × Option (BitVec 64))) :=
  if vq = 0 then none
  else if uq < vq then some (pure (0, if arq then some uq else none))
  else
    let us := digitsOf 0 uq
    let vs := digitsOf (junk 0) vq
    let (n, v) := skipDivisor vs 4 0
    some (if n = 1 then shortDiv us (vs (v + 2)) arq else longDiv junk us vs n v arq)

/-! ## Storing -/

theorem pure_bind {α β : Type} (a : α) (f : α → Fit β) : (pure a >>= f) = f a := rfl

theorem digit_of_lt {x : ℕ} (h : x < 65536) : digit x = pure x := by
  rw [digit, Nat.mod_eq_of_lt h, decide_eq_true h]
  rfl

theorem long_of_lt {x : ℕ} (h : x < 2 ^ 32) : long x = pure x := by
  rw [long, Nat.mod_eq_of_lt h, decide_eq_true h]
  rfl

theorem lhalf_eq (x : ℕ) : lhalf x = x % 65536 := Nat.and_two_pow_sub_one_eq_mod x 16

theorem hhalf_eq (x : ℕ) : hhalf x = x / 65536 := Nat.shiftRight_eq_div_pow x 16

theorem combine_of_lt {a b : ℕ} (ha : a < 65536) (hb : b < 65536) :
    combine a b = pure (a * 65536 + b) := by
  have shifted : a <<< 16 = a * 65536 := Nat.shiftLeft_eq a 16
  rw [combine, long_of_lt (by omega), pure_bind, ← Nat.shiftLeft_add_eq_or_of_lt hb, shifted]

end BSDLite2.Libkern.Qdivrem
