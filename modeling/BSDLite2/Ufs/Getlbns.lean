import BSDLite2.Kern.Param
import Mathlib.Algebra.Order.Ring.Int

/-!
# Paths to indirect blocks (`ufs/ufs/ufs_bmap.c`)

The first `NDADDR` blocks of a file are found in the inode.  The next `N` are found through the
single indirect block, where `N` is the number of pointers in a block, the next `N ^ 2` through
the double indirect block and the next `N ^ 3` through the triple indirect one.  Indirect blocks
have negative logical numbers.

* `getlbns` — `ufs_getlbns`;
* `start`, `metaLbn`, `pathOf` — where the blocks of a level start, and the path to one of them;
* `getlbns_eq`, `getlbns_cases` — what `ufs_getlbns` computes;
* `Numbered`, `Fits` — paths to indirect blocks are prefixes, and when they are.
-/

namespace BSDLite2.Bmap

open List Nat

/-- `NDADDR` -/
def ndaddr : ℕ := 12

/-- `NIADDR` -/
def niaddr : ℕ := 3

/-- The number of pointers in a block, `MNINDIR`.  Its third power fits an `int` or, as for
blocks of 8K and more, wraps around to 0. -/
structure Nindir where
  n : ℕ
  pos : 0 < n
  square : n ^ 2 < 2 ^ 31
  cube : n ^ 3 < 2 ^ 31 ∨ 2 ^ 32 ∣ n ^ 3

/-- `struct indir` -/
structure Indir where
  /-- `in_lbn` -/
  lbn : ℤ
  /-- `in_off` -/
  off : ℕ
  deriving DecidableEq

/-- The first loop of `ufs_getlbns`: `i`, `blockcnt` and `bn` at its end. -/
def levels (N : ℕ) : (i : ℕ) → (blockcnt bn : ℤ) → Option (ℕ × ℤ × ℤ)
  | 0, _, _ => none
  | i + 1, blockcnt, bn =>
    if bn < int (blockcnt * N) then some (i + 1, int (blockcnt * N), bn)
    else levels N i (int (blockcnt * N)) (bn - int (blockcnt * N))

/-- The second loop of `ufs_getlbns`, with `n` turns to go. -/
def path (N : ℕ) (realbn bn : ℤ) : (n : ℕ) → (metalbn blockcnt : ℤ) → List Indir
  | 0, _, _ => []
  | n + 1, metalbn, blockcnt =>
    if metalbn = realbn then []
    else
      let blockcnt := blockcnt / N
      let off := (bn / blockcnt % N).toNat
      ⟨metalbn, off⟩ :: path N realbn bn n (metalbn + 1 - off * blockcnt) blockcnt

/-- `ufs_getlbns`; without a path for a direct block, and `none` is `EFBIG`. -/
def getlbns (N : ℕ) (realbn : ℤ) : Option (List Indir) :=
  let bn : ℤ := realbn.natAbs
  if bn < ndaddr then some []
  else
    (levels N niaddr 1 (bn - ndaddr)).map fun (i, blockcnt, rest) =>
      let metalbn := -(bn - rest + (niaddr - i : ℕ))
      ⟨metalbn, niaddr - i⟩ :: path N realbn rest (niaddr + 1 - i) metalbn blockcnt

/-! ## What it computes -/

/-- The first block of a level. -/
def start (N : ℕ) : ℕ → ℕ
  | 0 => ndaddr
  | k + 1 => start N k + N ^ (k + 1)

/-- The logical number of the first indirect block of a level. -/
def metaLbn (N k : ℕ) : ℤ := -(start N k + k : ℕ)

/-- The path from an indirect block at depth `d` to the block `b` under it. -/
def pathOf (N b : ℕ) : (d : ℕ) → (lbn : ℤ) → List Indir
  | 0, _ => []
  | d + 1, lbn => ⟨lbn, b / N ^ d % N⟩ :: pathOf N b d (lbn + 1 - (b / N ^ d % N : ℕ) * (N : ℤ) ^ d)

variable {N : ℕ}

theorem int_eq_zero {x : ℤ} (h : 2 ^ 32 ∣ x) : int x = 0 := by
  rw [int, Int.bmod_def]
  have := Int.emod_eq_zero_of_dvd h
  omega

/-- The second loop computes the path. -/
theorem path_eq (pos : 0 < N) {b n : ℕ} {realbn metalbn : ℤ} (real : 0 ≤ realbn)
    (neg : metalbn + n ≤ 0) : path N realbn b n metalbn (N ^ n : ℕ) = pathOf N b n metalbn := by
  induction n generalizing metalbn with
  | zero => rfl
  | succ n ih =>
    have hne : metalbn ≠ realbn := by omega
    have hdiv : ((N ^ (n + 1) : ℕ) : ℤ) / N = (N ^ n : ℕ) := by
      rw [← Int.natCast_ediv, pow_succ, Nat.mul_div_cancel _ pos]
    have hoff : ((b : ℤ) / (N ^ n : ℕ) % N).toNat = b / N ^ n % N := by
      rw [← Int.natCast_ediv, ← Int.natCast_emod, Int.toNat_natCast]
    rw [path, if_neg hne, hdiv]
    dsimp only
    rw [hoff, ih]
    · push_cast
      rfl
    · have : 0 ≤ ((b / N ^ n % N : ℕ) : ℤ) * (N ^ n : ℕ) := by positivity
      omega

/-- A turn of the first loop. -/
theorem levels_next {k : ℕ} (hk : k < niaddr) (bn : ℤ) :
    levels N (niaddr - k) (N ^ k : ℕ) bn =
      if bn < int (N ^ (k + 1) : ℕ) then some (niaddr - k, int (N ^ (k + 1) : ℕ), bn)
      else levels N (niaddr - (k + 1)) (int (N ^ (k + 1) : ℕ)) (bn - int (N ^ (k + 1) : ℕ)) := by
  rw [show niaddr - k = niaddr - (k + 1) + 1 by omega, levels, ← cast_mul, ← pow_succ]

/-- The first loop behind levels that fit an `int`. -/
theorem levels_start {k : ℕ} (pos : 0 < N) (hk : k ≤ niaddr) (fits : N ^ k < 2 ^ 31) (b : ℕ) :
    levels N niaddr 1 ((start N k + b : ℕ) - ndaddr) = levels N (niaddr - k) (N ^ k : ℕ) b := by
  induction k generalizing b with
  | zero => simp [start]
  | succ k ih =>
    have hle : N ^ k ≤ N ^ (k + 1) := Nat.pow_le_pow_right pos (Nat.le_succ k)
    rw [start, add_assoc, ih (by omega) (by omega), levels_next hk, int_eq (by omega) (by omega),
      if_neg (by omega), cast_add, add_sub_cancel_left]

variable {k b : ℕ}

/-- The first loop finds the level. -/
theorem levels_eq (hk : k < niaddr) (lt : b < N ^ (k + 1)) (fits : N ^ (k + 1) < 2 ^ 31) :
    levels N niaddr 1 ((start N k + b : ℕ) - ndaddr) =
      some (niaddr - k, ((N ^ (k + 1) : ℕ) : ℤ), (b : ℤ)) := by
  have pos : 0 < N := pos_of_ne_zero fun h => by simp [h] at lt
  have hle : N ^ k ≤ N ^ (k + 1) := Nat.pow_le_pow_right pos (Nat.le_succ k)
  rw [levels_start pos hk.le (by omega), levels_next hk, int_eq (by omega) (by omega),
    if_pos (by omega)]

theorem start_ge : ndaddr ≤ start N k := by
  induction k with
  | zero => exact le_rfl
  | succ k ih => exact ih.trans (Nat.le_add_right ..)

theorem getlbns_of_natAbs (hk : k < niaddr) {realbn : ℤ} (abs : realbn.natAbs = start N k + b)
    (lt : b < N ^ (k + 1)) (fits : N ^ (k + 1) < 2 ^ 31) :
    getlbns N realbn = some (⟨metaLbn N k, k⟩ ::
      path N realbn b (k + 1) (metaLbn N k) (N ^ (k + 1) : ℕ)) := by
  have hge : ndaddr ≤ start N k := start_ge
  rw [getlbns]
  rw [abs, if_neg (by omega), levels_eq hk lt fits, Option.map_some]
  dsimp only
  rw [show niaddr - (niaddr - k) = k by omega, show niaddr + 1 - (niaddr - k) = k + 1 by omega,
    show -(((start N k + b : ℕ) : ℤ) - b + k) = metaLbn N k by rw [metaLbn]; omega]

/-- **The path to a block** behind the direct ones. -/
theorem getlbns_eq (hk : k < niaddr) (lt : b < N ^ (k + 1)) (fits : N ^ (k + 1) < 2 ^ 31) :
    getlbns N (start N k + b : ℕ) =
      some (⟨metaLbn N k, k⟩ :: pathOf N b (k + 1) (metaLbn N k)) := by
  have pos : 0 < N := pos_of_ne_zero fun h => by simp [h] at lt
  rw [getlbns_of_natAbs hk (Int.natAbs_natCast _) lt fits, path_eq pos (by omega)]
  have hge : ndaddr ≤ start N k := start_ge
  unfold ndaddr at hge
  rw [metaLbn]
  omega

/-- Every block behind the direct ones has a path, or is too far. -/
theorem getlbns_cases (N : Nindir) {lbn : ℕ} (hge : ndaddr ≤ lbn) : getlbns N.n lbn = none ∨
    ∃ k b, k < niaddr ∧ b < N.n ^ (k + 1) ∧ N.n ^ (k + 1) < 2 ^ 31 ∧ lbn = start N.n k + b ∧
      getlbns N.n lbn =
        some (⟨metaLbn N.n k, k⟩ :: pathOf N.n b (k + 1) (metaLbn N.n k)) := by
  have hone : N.n ≤ N.n ^ 2 := Nat.le_self_pow (by decide) _
  have hsquare := N.square
  by_cases found : ∃ k < niaddr, start N.n k ≤ lbn ∧ lbn < start N.n (k + 1) ∧
      N.n ^ (k + 1) < 2 ^ 31
  · obtain ⟨k, hk, hle, hlt, fits⟩ := found
    obtain ⟨b, rfl⟩ := Nat.exists_eq_add_of_le hle
    have hb : b < N.n ^ (k + 1) := Nat.lt_of_add_lt_add_left hlt
    exact .inr ⟨k, b, hk, hb, fits, rfl, getlbns_eq hk hb fits⟩
  have h1 : start N.n 1 ≤ lbn := not_lt.mp fun h =>
    found ⟨0, by decide, hge, h, by rw [pow_one]; omega⟩
  have h2 : start N.n 2 ≤ lbn := not_lt.mp fun h => found ⟨1, by decide, h1, h, hsquare⟩
  obtain ⟨b, rfl⟩ := Nat.exists_eq_add_of_le h2
  have hcube : ¬ (b : ℤ) < int (N.n ^ 3 : ℕ) := by
    rcases N.cube with fits | wraps
    · rw [int_eq (by omega) (by omega)]
      exact fun h => found ⟨2, by decide, h2, Nat.add_lt_add_left (by exact_mod_cast h) _, fits⟩
    · rw [int_eq_zero (by exact_mod_cast wraps)]
      omega
  refine .inl ?_
  rw [getlbns]
  rw [Int.natAbs_natCast, if_neg (by omega), levels_start N.pos (by decide) hsquare,
    levels_next (by decide), if_neg hcube]
  rfl

theorem length_pathOf {d : ℕ} {lbn : ℤ} : (pathOf N b d lbn).length = d := by
  induction d generalizing lbn with
  | zero => rfl
  | succ d ih => rw [pathOf, length_cons, ih]

theorem off_pathOf (N : Nindir) {d : ℕ} {lbn : ℤ} : ∀ p ∈ pathOf N.n b d lbn, p.off < N.n := by
  induction d generalizing lbn with
  | zero => exact fun p hp => absurd hp not_mem_nil
  | succ d ih =>
    intro p hp
    rcases mem_cons.mp hp with rfl | hp
    · exact mod_lt _ N.pos
    · exact ih p hp

/-- The logical number of the block at depth `e` on the way down. -/
theorem pathOf_lbn {d e : ℕ} {lbn : ℤ} (he : 0 < e) (hed : e ≤ d) :
    ((pathOf N b d lbn)[d - e]?).map Indir.lbn =
      some (lbn + (d - e) - ((b % N ^ d : ℕ) - (b % N ^ e : ℕ))) := by
  induction d generalizing lbn with
  | zero => omega
  | succ d ih =>
    rcases hed.eq_or_lt with rfl | hlt
    · rw [Nat.sub_self, pathOf, getElem?_cons_zero, Option.map_some]
      ring_nf
    · have hmod : b % N ^ (d + 1) = b / N ^ d % N * N ^ d + b % N ^ d := by
        rw [mod_pow_succ, mul_comm, add_comm]
      rw [pathOf, show d + 1 - e = d - e + 1 by omega, getElem?_cons_succ,
        ih (le_of_lt_succ hlt), hmod]
      push_cast
      ring_nf

/-! ## Numbers of indirect blocks -/

/-- The block `b` of level `k` has a number that fits an `int`. -/
def InFile (N k b : ℕ) : Prop := k < niaddr ∧ b < N ^ (k + 1) ∧ start N k + b < 2 ^ 31

/-- **The path is right**: the offsets are the digits of `b`, and the path to an indirect block on
the way is what leads to it. -/
structure Leads (N k b : ℕ) (p : List Indir) : Prop where
  eq : getlbns N (start N k + b : ℕ) = some p
  digits : p.map Indir.off = k :: (range (k + 1)).reverse.map (b / N ^ · % N)
  parts : ∀ i x, 0 < i → p[i]? = some x → x.lbn < 0 ∧ getlbns N x.lbn = some (p.take i)

/-- **Indirect blocks are numbered**: every block has its path, and no number is that of two. -/
structure Numbered (N : ℕ) : Prop where
  direct : ∀ bn < ndaddr, getlbns N bn = some []
  leads : ∀ k b, InFile N k b → ∃ p, Leads N k b p
  unique : ∀ k b k' b' p p', InFile N k b → InFile N k' b' →
    getlbns N (start N k + b : ℕ) = some p → getlbns N (start N k' + b' : ℕ) = some p' →
    ∀ i j x y, 0 < i → 0 < j → p[i]? = some x → p'[j]? = some y → x.lbn = y.lbn →
      (p.take i).map Indir.off = (p'.take j).map Indir.off

/-- The number of the indirect block above `b` from which a path has `d + 1` turns to go. -/
def lbnAt (N S b d : ℕ) : ℤ := (b % N ^ (d + 1) : ℕ) - (S + b + d : ℕ)

variable {S d e : ℕ}

theorem lbnAt_succ : lbnAt N S b (d + 1) + 1 - (b / N ^ (d + 1) % N : ℕ) * (N : ℤ) ^ (d + 1) =
    lbnAt N S b d := by
  rw [lbnAt, lbnAt, mod_pow_succ]
  push_cast
  ring

/-- Blocks on one path have different numbers. -/
theorem lbnAt_ne (three : 3 ≤ N) (lt : e < d) (small : d ≤ 2) : lbnAt N S b d ≠ lbnAt N S b e := by
  intro same
  have hmod (c : ℕ) : b % N ^ (c + 1) % N = b % N :=
    mod_mod_of_dvd b (dvd_pow_self N c.succ_ne_zero)
  have hdvd : N ∣ b % N ^ (d + 1) - b % N ^ (e + 1) :=
    dvd_of_mod_eq_zero (sub_mod_eq_zero_of_mod_eq ((hmod d).trans (hmod e).symm))
  unfold lbnAt at same
  have := le_of_dvd (by omega) hdvd
  omega

/-- The digits of the number of an indirect block are those of the blocks under it. -/
theorem div_lbn (three : 3 ≤ N) (le : e ≤ d) :
    (b - b % N ^ (e + 1) + e) / N ^ (d + 1) = b / N ^ (d + 1) := by
  have hlt : e < N ^ (e + 1) := (Nat.lt_succ_self e).trans (Nat.lt_pow_self (by omega))
  obtain ⟨c, rfl⟩ := Nat.exists_eq_add_of_le le
  have hpow : N ^ (e + c + 1) = N ^ (e + 1) * N ^ c := by ring
  rw [hpow, ← Nat.div_div_eq_div_mul, ← Nat.div_div_eq_div_mul, ← Nat.div_mul_self_eq_mod_sub_self,
    mul_comm, mul_add_div (by omega), div_eq_of_lt hlt, add_zero]

/-- The second loop quits when the block is found. -/
theorem path_take (three : 3 ≤ N) (le : e ≤ d) (small : d ≤ 2) :
    path N (lbnAt N S b e) (b - b % N ^ (e + 1) + e : ℕ) (d + 1) (lbnAt N S b d)
      (N ^ (d + 1) : ℕ) = (pathOf N b (d + 1) (lbnAt N S b d)).take (d - e) := by
  induction d with
  | zero =>
    cases le_zero.mp le
    simp [path]
  | succ d ih =>
    rcases le.eq_or_lt with rfl | lt
    · rw [path, if_pos rfl, Nat.sub_self, take_zero]
    · have hdiv : ((N ^ (d + 2) : ℕ) : ℤ) / N = (N ^ (d + 1) : ℕ) := by
        rw [← Int.natCast_ediv, pow_succ, Nat.mul_div_cancel _ (by omega)]
      have hle := Nat.le_of_lt_succ lt
      rw [path, if_neg (lbnAt_ne three lt small), hdiv]
      dsimp only
      rw [← Int.natCast_ediv, ← Int.natCast_emod, Int.toNat_natCast, div_lbn three hle, pathOf,
        show d + 1 - e = d - e + 1 by omega, take_succ_cons, lbnAt_succ, ← ih hle (by omega),
        cast_pow, lbnAt_succ]

theorem lbn_pathOf {j : ℕ} {x : Indir} (h : (pathOf N b (d + 1) (lbnAt N S b d))[j]? = some x) :
    j ≤ d ∧ x.lbn = lbnAt N S b (d - j) := by
  obtain ⟨hj, -⟩ := List.getElem?_eq_some_iff.mp h
  rw [length_pathOf] at hj
  have hlbn := @pathOf_lbn N b (d + 1) (d + 1 - j) (lbnAt N S b d) (by omega) (sub_le ..)
  rw [Nat.sub_sub_self hj.le, h, Option.map_some, Option.some.injEq] at hlbn
  refine ⟨le_of_lt_succ hj, hlbn.trans ?_⟩
  rw [lbnAt, lbnAt, show d + 1 - j = d - j + 1 by omega]
  omega

theorem off_pathOf_eq {lbn : ℤ} :
    (pathOf N b d lbn).map Indir.off = (range d).reverse.map (b / N ^ · % N) := by
  induction d generalizing lbn with
  | zero => rfl
  | succ d ih => rw [pathOf, map_cons, ih, range_succ, reverse_append]; rfl

theorem lbnAt_root (lt : b < N ^ (k + 1)) : lbnAt N (start N k) b k = metaLbn N k := by
  rw [lbnAt, mod_eq_of_lt lt, metaLbn]
  omega

section

variable (three : 3 ≤ N) (hk : k < niaddr) (lt : b < N ^ (k + 1)) (fits : N ^ (k + 1) < 2 ^ 31)

include three hk lt fits

/-- **The path to an indirect block** is the front of the path to the data blocks under it. -/
theorem getlbns_lbnAt (he : e ≤ k) :
    getlbns N (lbnAt N (start N k) b e) =
      some (⟨metaLbn N k, k⟩ :: (pathOf N b (k + 1) (metaLbn N k)).take (k - e)) := by
  have hlt : b - b % N ^ (e + 1) + e < N ^ (k + 1) :=
    (div_eq_zero_iff_lt (by positivity)).mp ((div_lbn three he).trans (div_eq_of_lt lt))
  have habs : (lbnAt N (start N k) b e).natAbs = start N k + (b - b % N ^ (e + 1) + e) := by
    have := mod_le b (N ^ (e + 1))
    rw [lbnAt]
    omega
  rw [getlbns_of_natAbs hk habs hlt fits, ← lbnAt_root lt, path_take three he (le_of_lt_succ hk)]

theorem leads_of_fits : Leads N k b (⟨metaLbn N k, k⟩ :: pathOf N b (k + 1) (metaLbn N k)) := by
  refine ⟨getlbns_eq hk lt fits, by rw [map_cons, off_pathOf_eq], fun i x hi hx => ?_⟩
  obtain ⟨j, rfl⟩ := exists_eq_succ_of_ne_zero hi.ne'
  rw [← lbnAt_root lt] at hx
  obtain ⟨hj, hlbn⟩ := lbn_pathOf hx
  have hge : ndaddr ≤ start N k := start_ge
  have hmod := mod_le b (N ^ (k - j + 1))
  rw [hlbn, getlbns_lbnAt three hk lt fits (Nat.sub_le k j), Nat.sub_sub_self hj]
  refine ⟨?_, rfl⟩
  unfold lbnAt ndaddr at *
  omega

end

/-- **What fits**: every level of which two blocks have numbers counts its blocks in an `int`. -/
def Fits (N : ℕ) : Prop := ∀ k < niaddr, start N k + 1 < 2 ^ 31 → N ^ (k + 1) < 2 ^ 31

/-- One block may be left of a level whose count has wrapped around. -/
theorem leads_last (h : InFile N k b) (wraps : ¬ N ^ (k + 1) < 2 ^ 31)
    (last : ¬ start N k + 1 < 2 ^ 31) : ∃ p, Leads N k b p := by
  obtain ⟨hk, -, room⟩ := h
  obtain rfl : b = 0 := by omega
  unfold niaddr at hk
  interval_cases k
  · simp [start, ndaddr] at last
  · obtain rfl : N = 2 ^ 31 - 13 := by
      simp only [start, ndaddr, zero_add, pow_one] at last room
      omega
    refine ⟨[⟨-2 ^ 31, 1⟩, ⟨-2 ^ 31, 0⟩, ⟨1 - 2 ^ 31, 0⟩], by decide +kernel, by decide +kernel, ?_⟩
    intro i x hi hx
    match i with
    | 1 =>
      cases hx
      decide +kernel
    | 2 =>
      cases hx
      decide +kernel
  · simp only [start, ndaddr, zero_add, pow_one, reduceAdd] at last room
    rcases lt_or_ge N 46341 with lt | ge
    · have := Nat.pow_le_pow_left (Nat.le_of_lt_succ lt) 2
      omega
    · have := Nat.pow_le_pow_left ge 2
      omega

theorem numbered_of_fits (three : 3 ≤ N) (fits : Fits N) : Numbered N := by
  have leads (k b : ℕ) (h : InFile N k b) : ∃ p, Leads N k b p := by
    by_cases small : N ^ (k + 1) < 2 ^ 31
    · exact ⟨_, leads_of_fits three h.1 h.2.1 small⟩
    · exact leads_last h small fun room => small (fits k h.1 room)
  refine ⟨fun bn lt => ?_, leads, ?_⟩
  · rw [getlbns]
    exact if_pos (by omega)
  · intro k b k' b' p p' h h' hp hp' i j x y hi hj hx hy same
    obtain ⟨q, lead⟩ := leads k b h
    obtain ⟨q', lead'⟩ := leads k' b' h'
    cases lead.eq.symm.trans hp
    cases lead'.eq.symm.trans hp'
    have hpart := (lead.parts i x hi hx).2
    rw [same, (lead'.parts j y hj hy).2] at hpart
    rw [Option.some.inj hpart]

/-- A count of blocks that has wrapped around leaves nothing for the last digit. -/
theorem off_wrapped {n : ℕ} (pos : 0 < N) {c r m : ℤ} {x : Indir} (hc : 0 ≤ c)
    (lt : c < (N : ℤ) ^ (n + 1)) (h : (path N r 1 (n + 1) m c)[n]? = some x) : x.off = 0 := by
  induction n generalizing m c with
  | zero =>
    rw [path] at h
    split_ifs at h
    · simp at h
    · cases h
      rw [pow_one] at lt
      simp [Int.ediv_eq_zero_of_lt hc lt]
  | succ n ih =>
    rw [path] at h
    split_ifs at h
    · simp at h
    · exact ih (Int.ediv_nonneg hc (Int.natCast_nonneg N))
        (Int.ediv_lt_of_lt_mul (by exact_mod_cast pos) (by rwa [← pow_succ])) h

theorem le_of_levels {i j : ℕ} {c bn : ℤ} {x : ℤ × ℤ} (h : levels N i c bn = some (j, x)) :
    j ≤ i := by
  induction i generalizing c bn with
  | zero => cases h
  | succ i ih =>
    rw [levels] at h
    split_ifs at h
    · cases h
      exact le_rfl
    · exact (ih h).trans (le_succ i)

/-- The second block of a level whose count wraps around is lost. -/
theorem not_leads_one (hk : k < niaddr) (one : 1 < N) (low : N ^ k < 2 ^ 31)
    (high : ¬ N ^ (k + 1) < 2 ^ 31) {p : List Indir} : ¬ Leads N k 1 p := by
  rintro ⟨eq, digits, -⟩
  have hge : ndaddr ≤ start N k := start_ge
  rw [getlbns] at eq
  rw [Int.natAbs_natCast, if_neg (by omega), levels_start (by omega) hk.le low, levels_next hk] at eq
  split_ifs at eq with lt
  · cases eq
    have hlt : int (N ^ (k + 1) : ℕ) < (N : ℤ) ^ (k + 1) := by
      have : int (N ^ (k + 1) : ℕ) < 2 ^ 31 := Int.bmod_lt (by decide)
      rw [← cast_pow]
      omega
    have hlast : ((range (k + 1)).reverse.map (1 / N ^ · % N))[k]? = some 1 := by
      simp [mod_eq_of_lt one]
    rw [← (cons.inj digits).2, show niaddr + 1 - (niaddr - k) = k + 1 by omega, getElem?_map] at hlast
    obtain ⟨x, hx, hoff⟩ := Option.map_eq_some_iff.mp hlast
    rw [off_wrapped (by omega) (by omega) hlt hx] at hoff
    cases hoff
  · obtain ⟨⟨j, x⟩, hx, rfl⟩ := Option.map_eq_some_iff.mp eq
    have hj := le_of_levels hx
    have hhead : niaddr - j = k := (cons.inj digits).1
    omega

/-- **Numbers of indirect blocks.**  With one or two pointers in a block they collide. -/
theorem numbered_iff (N : ℕ) (pos : 0 < N) : Numbered N ↔ 3 ≤ N ∧ Fits N := by
  refine ⟨fun h => ?_, fun h => numbered_of_fits h.1 h.2⟩
  have three : 3 ≤ N := by
    by_contra lt
    interval_cases N
    · obtain ⟨p, lead⟩ := h.leads 1 0 ⟨by decide, by decide, by decide⟩
      cases (show getlbns 1 (start 1 1 + 0 : ℕ) = some [⟨-14, 1⟩, ⟨-14, 0⟩, ⟨-13, 0⟩] from
        rfl).symm.trans lead.eq
      exact absurd (lead.parts 1 _ one_pos rfl).2 (by decide)
    · obtain ⟨p, lead⟩ := h.leads 2 2 ⟨by decide, by decide, by decide⟩
      cases (show getlbns 2 (start 2 2 + 2 : ℕ) =
        some [⟨-20, 2⟩, ⟨-20, 0⟩, ⟨-19, 1⟩, ⟨-20, 0⟩] from rfl).symm.trans lead.eq
      exact absurd (lead.parts 3 _ (by decide) rfl).2 (by decide)
  refine ⟨three, fun k hk room => ?_⟩
  have next {k : ℕ} (hk : k < niaddr) (room : start N k + 1 < 2 ^ 31) (low : N ^ k < 2 ^ 31) :
      N ^ (k + 1) < 2 ^ 31 := by
    by_contra high
    obtain ⟨p, lead⟩ := h.leads k 1 ⟨hk, one_lt_pow (by omega) (by omega), room⟩
    exact not_leads_one hk (by omega) low high lead
  induction k with
  | zero => exact next hk room (by rw [pow_zero]; decide)
  | succ k ih => exact next hk room (ih (by omega) (by rw [start] at room; omega))

theorem numbered_fourK : Numbered 1024 :=
  (numbered_iff 1024 (by decide)).mpr ⟨by decide, by unfold Fits; decide⟩

/-- **Triple indirect blocks are lost** with blocks of 8K: the count of the blocks under one
wraps around to 0. -/
theorem triple_refused : InFile 2048 2 0 ∧ getlbns 2048 (start 2048 2 + 0 : ℕ) = none :=
  ⟨⟨by decide, by decide, by decide⟩, by decide +kernel⟩

end BSDLite2.Bmap
