import Mathlib.Data.BitVec
import Mathlib.Tactic

/-!
# The free map of a cylinder group (`ufs/ffs/fs.h`, `ufs/ffs/ffs_subr.c`)

A cylinder group has a bit for each of its fragments, which is set if the fragment is free.
Blocks are 1, 2, 4 or 8 fragments; the fragments of a block are in one byte of the map.

* `Fs` — the parameters of a file system;
* `setbit`, `isblock`, `blkmap`, ... — the code, on bytes;
* `bit` — the same map as bits, and a lemma for each operation.
-/

namespace BSDLite2.Ffs

open Function BitVec Nat

/-! ## Parameters -/

/-- `struct fs`: the fields that do not change. -/
structure Fs where
  /-- `fs_fragshift` -/
  fragshift : ℕ
  /-- `fs_fshift` -/
  fshift : ℕ
  /-- `fs_fpg` -/
  fpg : ℕ
  /-- `fs_size` -/
  size : ℕ
  /-- `fs_nspf` -/
  nspf : ℕ
  /-- `fs_spc` -/
  spc : ℕ
  /-- `fs_nsect` -/
  nsect : ℕ
  /-- `fs_npsect` -/
  npsect : ℕ
  /-- `fs_trackskew` -/
  trackskew : ℕ
  /-- `fs_interleave` -/
  interleave : ℕ
  /-- `fs_nrpos` -/
  nrpos : ℕ
  /-- `fs_cpc` -/
  cpc : ℕ
  /-- `fs_postbl` -/
  postbl : ℕ → ℕ → ℤ
  /-- `fs_rotbl` -/
  rotbl : ℕ → ℕ
  /-- `fs_contigsumsize` -/
  contigsumsize : ℕ
  fragshift_le : fragshift ≤ 3
  fpg_pos : 0 < fpg
  fpg_dvd : 2 ^ fragshift ∣ fpg

namespace Fs

variable (fs : Fs)

/-- `fs_frag` -/
def frag : ℕ := 2 ^ fs.fragshift

/-- `fs_bsize` -/
def bsize : ℕ := fs.frag <<< fs.fshift

/-- `numfrags` -/
def numfrags (loc : ℕ) : ℕ := loc >>> fs.fshift

/-- `fragoff` -/
def fragoff (loc : ℕ) : ℕ := loc &&& (1 <<< fs.fshift - 1)

/-- `fragstoblks` -/
def fragstoblks (frags : ℕ) : ℕ := frags >>> fs.fragshift

/-- `blkstofrags` -/
def blkstofrags (blks : ℕ) : ℕ := blks <<< fs.fragshift

/-- `fragnum` -/
def fragnum (fsb : ℕ) : ℕ := fsb &&& (fs.frag - 1)

/-- `blknum` -/
def blknum (fsb : ℕ) : ℕ := fsb - (fsb &&& (fs.frag - 1))

/-- `dtog` -/
def dtog (d : ℕ) : ℕ := d / fs.fpg

/-- `dtogd` -/
def dtogd (d : ℕ) : ℕ := d % fs.fpg

/-- `NSPB` -/
def nspb : ℕ := fs.nspf <<< fs.fragshift

/-- `cbtocylno` -/
def cbtocylno (bno : ℕ) : ℕ := bno * fs.nspf / fs.spc

/-- `cbtorpos` -/
def cbtorpos (bno : ℕ) : ℕ :=
  (bno * fs.nspf % fs.spc / fs.nsect * fs.trackskew +
    bno * fs.nspf % fs.spc % fs.nsect * fs.interleave) % fs.nsect * fs.nrpos / fs.npsect

/-- The blocks of a group. -/
def nblk : ℕ := fs.fragstoblks fs.fpg

theorem frag_pos : 0 < fs.frag := Nat.two_pow_pos _

theorem frag_cases : fs.frag = 1 ∨ fs.frag = 2 ∨ fs.frag = 4 ∨ fs.frag = 8 := by
  have := fs.fragshift_le
  unfold frag
  interval_cases fs.fragshift <;> simp

theorem dtogd_mod_frag (d : ℕ) : fs.dtogd d % fs.frag = d % fs.frag :=
  mod_mod_of_dvd d fs.fpg_dvd

theorem fragstoblks_eq (x : ℕ) : fs.fragstoblks x = x / fs.frag := shiftRight_eq_div_pow ..

theorem blkstofrags_eq (x : ℕ) : fs.blkstofrags x = x * fs.frag := shiftLeft_eq ..

theorem fragnum_eq (x : ℕ) : fs.fragnum x = x % fs.frag := and_two_pow_sub_one_eq_mod ..

theorem blknum_eq (x : ℕ) : fs.blknum x = x / fs.frag * fs.frag := by
  have := div_add_mod x fs.frag
  rw [mul_comm] at this
  rw [blknum, ← fragnum, fragnum_eq]
  omega

theorem nblk_mul : fs.nblk * fs.frag = fs.fpg := by
  rw [nblk, fragstoblks_eq]
  exact Nat.div_mul_cancel fs.fpg_dvd

end Fs

/-! ## Bytes -/

/-- A map of bytes. -/
abbrev Bytes : Type := ℕ → BitVec 8

/-- `setbit` -/
def setbit (a : Bytes) (i : ℕ) : Bytes := update a (i / 8) (a (i / 8) ||| 1#8 <<< (i % 8))

/-- `clrbit` -/
def clrbit (a : Bytes) (i : ℕ) : Bytes := update a (i / 8) (a (i / 8) &&& ~~~(1#8 <<< (i % 8)))

/-- `isset` -/
def isset (a : Bytes) (i : ℕ) : Bool := a (i / 8) &&& 1#8 <<< (i % 8) != 0#8

/-- `isclr` -/
def isclr (a : Bytes) (i : ℕ) : Bool := a (i / 8) &&& 1#8 <<< (i % 8) == 0#8

/-- `blkmap` -/
def blkmap (fs : Fs) (map : Bytes) (loc : ℕ) : BitVec 8 :=
  (map (loc / 8) >>> (loc % 8)) &&& (0xff#8 >>> (8 - fs.frag))

/-- The mask of a block in its byte, and the byte. -/
def blockMask (fs : Fs) (h : ℕ) : ℕ × BitVec 8 :=
  match fs.fragshift with
  | 0 => (h >>> 3, 0x01#8 <<< (h &&& 0x7))
  | 1 => (h >>> 2, 0x03#8 <<< ((h &&& 0x3) <<< 1))
  | 2 => (h >>> 1, 0x0f#8 <<< ((h &&& 0x1) <<< 2))
  | _ => (h, 0xff#8)

/-- `ffs_isblock` -/
def isblock (fs : Fs) (cp : Bytes) (h : ℕ) : Bool :=
  cp (blockMask fs h).1 &&& (blockMask fs h).2 == (blockMask fs h).2

/-- `ffs_clrblock` -/
def clrblock (fs : Fs) (cp : Bytes) (h : ℕ) : Bytes :=
  update cp (blockMask fs h).1 (cp (blockMask fs h).1 &&& ~~~(blockMask fs h).2)

/-- `ffs_setblock` -/
def setblock (fs : Fs) (cp : Bytes) (h : ℕ) : Bytes :=
  update cp (blockMask fs h).1 (cp (blockMask fs h).1 ||| (blockMask fs h).2)

/-! ## Bits -/

/-- The bit of a fragment. -/
def bit (a : Bytes) (i : ℕ) : Bool := (a (i / 8)).getLsbD (i % 8)

variable {fs : Fs} {a : Bytes} {i j h : ℕ}

theorem getLsbD_one_shiftLeft : ∀ k < 8, ∀ j < 8, (1#8 <<< k).getLsbD j = decide (j = k) := by
  decide

theorem and_one_shiftLeft (x : BitVec 8) {k : ℕ} (hk : k < 8) :
    x &&& 1#8 <<< k = if x.getLsbD k then 1#8 <<< k else 0#8 := by
  refine eq_of_getLsbD_eq fun j hj => ?_
  rw [getLsbD_and]
  by_cases hjk : j = k
  · subst hjk
    cases hx : x.getLsbD j <;> simp [getLsbD_one_shiftLeft j hj j hj]
  · cases x.getLsbD k <;> simp [getLsbD_one_shiftLeft k hk j hj, hjk]

theorem isset_eq : isset a i = bit a i := by
  have hk : i % 8 < 8 := mod_lt _ (by decide)
  have hne : ∀ k < 8, 1#8 <<< k ≠ 0#8 := by decide
  rw [isset, and_one_shiftLeft _ hk, bit]
  cases (a (i / 8)).getLsbD (i % 8) <;> simp [hne _ hk]

theorem isclr_eq : isclr a i = !bit a i := by
  rw [← isset_eq, isset, isclr, bne, Bool.not_not]

/-- The bits of a map in which a byte has been replaced. -/
theorem bit_update {k : ℕ} {x : BitVec 8} :
    bit (update a k x) j = if j / 8 = k then x.getLsbD (j % 8) else bit a j := by
  unfold bit
  split_ifs with hj
  · rw [hj, update_self]
  · rw [update_of_ne hj]

theorem bit_setbit : bit (setbit a i) j = (bit a j || decide (j = i)) := by
  rw [setbit, bit_update]
  split_ifs with hj
  · rw [getLsbD_or, getLsbD_one_shiftLeft _ (mod_lt _ (by decide)) _
      (mod_lt _ (by decide)), ← hj, bit, decide_eq_decide.mpr]
    omega
  · rw [decide_eq_false (by omega), Bool.or_false]

theorem bit_clrbit : bit (clrbit a i) j = (bit a j && decide (j ≠ i)) := by
  have hk : j % 8 < 8 := mod_lt _ (by decide)
  rw [clrbit, bit_update]
  split_ifs with hj
  · rw [getLsbD_and, getLsbD_not, getLsbD_one_shiftLeft _
      (mod_lt _ (by decide)) _ hk, ← hj, bit, decide_eq_true hk, Bool.true_and, ← decide_not,
      decide_eq_decide.mpr]
    omega
  · rw [decide_eq_true (by omega), Bool.and_true]

/-- The mask of a block covers its fragments. -/
theorem blockMask_iff : (i / 8 = (blockMask fs h).1 ∧ (blockMask fs h).2.getLsbD (i % 8) = true) ↔
    i / fs.frag = h := by
  have hk : i % 8 < 8 := mod_lt _ (by decide)
  have mask1 : ∀ r < 8, ∀ k < 8, (0x01#8 <<< r).getLsbD k = true ↔ k = r := by decide
  have mask2 : ∀ r < 4, ∀ k < 8, (0x03#8 <<< (r <<< 1)).getLsbD k = true ↔ k / 2 = r := by decide
  have mask4 : ∀ r < 2, ∀ k < 8, (0x0f#8 <<< (r <<< 2)).getLsbD k = true ↔ k / 4 = r := by decide
  have mask8 : ∀ k < 8, (0xff#8).getLsbD k = true := by decide
  have hcases := fs.fragshift_le
  unfold blockMask Fs.frag
  interval_cases fs.fragshift
  · have hr : h &&& 0x7 = h % 8 := and_two_pow_sub_one_eq_mod h 3
    change i / 8 = h >>> 3 ∧ (0x01#8 <<< (h &&& 0x7)).getLsbD (i % 8) = true ↔ i / 2 ^ 0 = h
    rw [hr, mask1 _ (mod_lt _ (by decide)) _ hk]
    omega
  · have hr : h &&& 0x3 = h % 4 := and_two_pow_sub_one_eq_mod h 2
    change i / 8 = h >>> 2 ∧ (0x03#8 <<< ((h &&& 0x3) <<< 1)).getLsbD (i % 8) = true ↔ i / 2 ^ 1 = h
    rw [hr, mask2 _ (mod_lt _ (by decide)) _ hk]
    omega
  · have hr : h &&& 0x1 = h % 2 := and_two_pow_sub_one_eq_mod h 1
    change i / 8 = h >>> 1 ∧ (0x0f#8 <<< ((h &&& 0x1) <<< 2)).getLsbD (i % 8) = true ↔ i / 2 ^ 2 = h
    rw [hr, mask4 _ (mod_lt _ (by decide)) _ hk]
    omega
  · exact and_iff_left (mask8 _ hk)

theorem getLsbD_blockMask (hi : i / 8 = (blockMask fs h).1) :
    (blockMask fs h).2.getLsbD (i % 8) = decide (i / fs.frag = h) := by
  rw [Bool.eq_iff_iff, decide_eq_true_iff, ← blockMask_iff, and_iff_right hi]

theorem bit_clrblock : bit (clrblock fs a h) i = (bit a i && decide (i / fs.frag ≠ h)) := by
  rw [clrblock, bit_update]
  split_ifs with hi
  · rw [getLsbD_and, getLsbD_not, getLsbD_blockMask hi, ← hi, bit,
      decide_eq_true (mod_lt _ (by decide)), Bool.true_and, decide_not]
  · have hne : i / fs.frag ≠ h := fun heq => hi (blockMask_iff.mpr heq).1
    rw [decide_eq_true hne, Bool.and_true]

theorem bit_setblock : bit (setblock fs a h) i = (bit a i || decide (i / fs.frag = h)) := by
  rw [setblock, bit_update]
  split_ifs with hi
  · rw [getLsbD_or, getLsbD_blockMask hi, ← hi, bit]
  · have hne : ¬ i / fs.frag = h := fun heq => hi (blockMask_iff.mpr heq).1
    rw [decide_eq_false hne, Bool.or_false]

/-- **A block is free** if all its fragments are. -/
theorem isblock_iff : isblock fs a h = true ↔ ∀ i, i / fs.frag = h → bit a i = true := by
  rw [isblock, beq_iff_eq]
  constructor
  · intro heq i hi
    obtain ⟨hbyte, hbit⟩ := blockMask_iff.mpr hi
    rw [← heq, getLsbD_and, Bool.and_eq_true] at hbit
    rw [bit, hbyte]
    exact hbit.1
  · intro all
    refine eq_of_getLsbD_eq fun k hk => ?_
    rw [getLsbD_and]
    cases hbit : (blockMask fs h).2.getLsbD k with
    | false => rw [Bool.and_false]
    | true =>
      have hi : ((blockMask fs h).1 * 8 + k) / 8 = (blockMask fs h).1 := by omega
      have hmod : ((blockMask fs h).1 * 8 + k) % 8 = k := by omega
      have := all ((blockMask fs h).1 * 8 + k) (blockMask_iff.mp ⟨hi, by rwa [hmod]⟩)
      rw [bit, hi, hmod] at this
      rw [this, Bool.and_true]

/-- The bits of a block, from its first fragment on. -/
theorem getLsbD_blkmap {loc : ℕ} (hloc : fs.frag ∣ loc) :
    (blkmap fs a loc).getLsbD j = (decide (j < fs.frag) && bit a (loc + j)) := by
  have mask : ∀ n ≤ 8, ∀ k < 8, (0xff#8 >>> (8 - n)).getLsbD k = decide (k < n) := by decide
  obtain ⟨c, rfl⟩ := hloc
  have hle : fs.frag ≤ 8 := by rcases fs.frag_cases with h | h | h | h <;> omega
  rw [blkmap, getLsbD_and, getLsbD_ushiftRight, bit, Bool.and_comm]
  by_cases hj : j < fs.frag
  · rw [mask _ hle _ (by omega)]
    have hdiv : (fs.frag * c + j) / 8 = fs.frag * c / 8 := by
      rcases fs.frag_cases with h | h | h | h <;> rw [h] at ⊢ <;> omega
    have hmod : (fs.frag * c + j) % 8 = fs.frag * c % 8 + j := by
      rcases fs.frag_cases with h | h | h | h <;> rw [h] at ⊢ <;> omega
    rw [hdiv, hmod]
  · rw [decide_eq_false hj, Bool.false_and]
    by_cases hk : j < 8
    · rw [mask _ hle _ hk, decide_eq_false hj, Bool.false_and]
    · rw [getLsbD_of_ge _ _ (by omega), Bool.false_and]

end BSDLite2.Ffs
