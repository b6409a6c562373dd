import BSDLite2.Ffs.Bitmap
import BSDLite2.Lib.Runs

/-!
# Fragments in a block (`ufs/ffs/ffs_tables.c`, `ufs/ffs/ffs_subr.c`)

The map of a block is at most a byte, so what the tables say of it and what the loops with
`around` and `inside` do to it are finite facts.  They are checked here once, against the
runs of free fragments.

* `fragtbl`, `scanc`, `fragacct` — the tables and the code;
* `Isolated` — a run of free fragments that cannot be extended in its block;
* `fits_iff` — what the test with `around` and `inside` finds;
* `fragacct_eq` — `fragacct` counts the runs.
-/

namespace BSDLite2.Ffs

open Function Runs List

/-! ## The tables -/

/-- `around` -/
def around : List ℕ := [0x3, 0x7, 0xf, 0x1f, 0x3f, 0x7f, 0xff, 0x1ff, 0x3ff]

/-- `inside` -/
def inside : List ℕ := [0x0, 0x2, 0x6, 0xe, 0x1e, 0x3e, 0x7e, 0xfe, 0x1fe]

/-- `fragtbl124` -/
def fragtbl124 : List ℕ :=
  [0x00, 0x16, 0x16, 0x2a, 0x16, 0x16, 0x26, 0x4e, 0x16, 0x16, 0x16, 0x3e, 0x2a, 0x3e, 0x4e, 0x8a,
   0x16, 0x16, 0x16, 0x3e, 0x16, 0x16, 0x36, 0x5e, 0x16, 0x16, 0x16, 0x3e, 0x3e, 0x3e, 0x5e, 0x9e,
   0x16, 0x16, 0x16, 0x3e, 0x16, 0x16, 0x36, 0x5e, 0x16, 0x16, 0x16, 0x3e, 0x3e, 0x3e, 0x5e, 0x9e,
   0x2a, 0x3e, 0x3e, 0x2a, 0x3e, 0x3e, 0x2e, 0x6e, 0x3e, 0x3e, 0x3e, 0x3e, 0x2a, 0x3e, 0x6e, 0xaa,
   0x16, 0x16, 0x16, 0x3e, 0x16, 0x16, 0x36, 0x5e, 0x16, 0x16, 0x16, 0x3e, 0x3e, 0x3e, 0x5e, 0x9e,
   0x16, 0x16, 0x16, 0x3e, 0x16, 0x16, 0x36, 0x5e, 0x16, 0x16, 0x16, 0x3e, 0x3e, 0x3e, 0x5e, 0x9e,
   0x26, 0x36, 0x36, 0x2e, 0x36, 0x36, 0x26, 0x6e, 0x36, 0x36, 0x36, 0x3e, 0x2e, 0x3e, 0x6e, 0xae,
   0x4e, 0x5e, 0x5e, 0x6e, 0x5e, 0x5e, 0x6e, 0x4e, 0x5e, 0x5e, 0x5e, 0x7e, 0x6e, 0x7e, 0x4e, 0xce,
   0x16, 0x16, 0x16, 0x3e, 0x16, 0x16, 0x36, 0x5e, 0x16, 0x16, 0x16, 0x3e, 0x3e, 0x3e, 0x5e, 0x9e,
   0x16, 0x16, 0x16, 0x3e, 0x16, 0x16, 0x36, 0x5e, 0x16, 0x16, 0x16, 0x3e, 0x3e, 0x3e, 0x5e, 0x9e,
   0x16, 0x16, 0x16, 0x3e, 0x16, 0x16, 0x36, 0x5e, 0x16, 0x16, 0x16, 0x3e, 0x3e, 0x3e, 0x5e, 0x9e,
   0x3e, 0x3e, 0x3e, 0x3e, 0x3e, 0x3e, 0x3e, 0x7e, 0x3e, 0x3e, 0x3e, 0x3e, 0x3e, 0x3e, 0x7e, 0xbe,
   0x2a, 0x3e, 0x3e, 0x2a, 0x3e, 0x3e, 0x2e, 0x6e, 0x3e, 0x3e, 0x3e, 0x3e, 0x2a, 0x3e, 0x6e, 0xaa,
   0x3e, 0x3e, 0x3e, 0x3e, 0x3e, 0x3e, 0x3e, 0x7e, 0x3e, 0x3e, 0x3e, 0x3e, 0x3e, 0x3e, 0x7e, 0xbe,
   0x4e, 0x5e, 0x5e, 0x6e, 0x5e, 0x5e, 0x6e, 0x4e, 0x5e, 0x5e, 0x5e, 0x7e, 0x6e, 0x7e, 0x4e, 0xce,
   0x8a, 0x9e, 0x9e, 0xaa, 0x9e, 0x9e, 0xae, 0xce, 0x9e, 0x9e, 0x9e, 0xbe, 0xaa, 0xbe, 0xce, 0x8a]

/-- `fragtbl8` -/
def fragtbl8 : List ℕ :=
  [0x00, 0x01, 0x01, 0x02, 0x01, 0x01, 0x02, 0x04, 0x01, 0x01, 0x01, 0x03, 0x02, 0x03, 0x04, 0x08,
   0x01, 0x01, 0x01, 0x03, 0x01, 0x01, 0x03, 0x05, 0x02, 0x03, 0x03, 0x02, 0x04, 0x05, 0x08, 0x10,
   0x01, 0x01, 0x01, 0x03, 0x01, 0x01, 0x03, 0x05, 0x01, 0x01, 0x01, 0x03, 0x03, 0x03, 0x05, 0x09,
   0x02, 0x03, 0x03, 0x02, 0x03, 0x03, 0x02, 0x06, 0x04, 0x05, 0x05, 0x06, 0x08, 0x09, 0x10, 0x20,
   0x01, 0x01, 0x01, 0x03, 0x01, 0x01, 0x03, 0x05, 0x01, 0x01, 0x01, 0x03, 0x03, 0x03, 0x05, 0x09,
   0x01, 0x01, 0x01, 0x03, 0x01, 0x01, 0x03, 0x05, 0x03, 0x03, 0x03, 0x03, 0x05, 0x05, 0x09, 0x11,
   0x02, 0x03, 0x03, 0x02, 0x03, 0x03, 0x02, 0x06, 0x03, 0x03, 0x03, 0x03, 0x02, 0x03, 0x06, 0x0a,
   0x04, 0x05, 0x05, 0x06, 0x05, 0x05, 0x06, 0x04, 0x08, 0x09, 0x09, 0x0a, 0x10, 0x11, 0x20, 0x40,
   0x01, 0x01, 0x01, 0x03, 0x01, 0x01, 0x03, 0x05, 0x01, 0x01, 0x01, 0x03, 0x03, 0x03, 0x05, 0x09,
   0x01, 0x01, 0x01, 0x03, 0x01, 0x01, 0x03, 0x05, 0x03, 0x03, 0x03, 0x03, 0x05, 0x05, 0x09, 0x11,
   0x01, 0x01, 0x01, 0x03, 0x01, 0x01, 0x03, 0x05, 0x01, 0x01, 0x01, 0x03, 0x03, 0x03, 0x05, 0x09,
   0x03, 0x03, 0x03, 0x03, 0x03, 0x03, 0x03, 0x07, 0x05, 0x05, 0x05, 0x07, 0x09, 0x09, 0x11, 0x21,
   0x02, 0x03, 0x03, 0x02, 0x03, 0x03, 0x02, 0x06, 0x03, 0x03, 0x03, 0x03, 0x02, 0x03, 0x06, 0x0a,
   0x03, 0x03, 0x03, 0x03, 0x03, 0x03, 0x03, 0x07, 0x02, 0x03, 0x03, 0x02, 0x06, 0x07, 0x0a, 0x12,
   0x04, 0x05, 0x05, 0x06, 0x05, 0x05, 0x06, 0x04, 0x05, 0x05, 0x05, 0x07, 0x06, 0x07, 0x04, 0x0c,
   0x08, 0x09, 0x09, 0x0a, 0x09, 0x09, 0x0a, 0x0c, 0x10, 0x11, 0x11, 0x12, 0x20, 0x21, 0x40, 0x80]

/-- `fragtbl` -/
def fragtbl (frag : ℕ) : List ℕ := if frag = 8 then fragtbl8 else fragtbl124

/-- The bit of a size in the table. -/
def sizeBit (frag siz : ℕ) : ℕ := 1 <<< (siz - 1 + frag % 8)

/-- `scanc` -/
def scanc (cp : Bytes) (table : List ℕ) (mask : ℕ) : (size start : ℕ) → ℕ
  | 0, _ => 0
  | size + 1, start =>
    if table.getD (cp start).toNat 0 &&& mask = 0 then scanc cp table mask size (start + 1)
    else size + 1

/-- The inner loop of `ffs_fragacct`: how often it adds `cnt`. -/
def acctLoop (frag fragmap siz : ℕ) : (fuel pos field subfield : ℕ) → ℕ
  | 0, _, _, _ => 0
  | fuel + 1, pos, field, subfield =>
    if pos ≤ frag then
      if fragmap &&& field = subfield then
        1 + acctLoop frag fragmap siz fuel (pos + siz + 1) (field <<< siz <<< 1)
          (subfield <<< siz <<< 1)
      else acctLoop frag fragmap siz fuel (pos + 1) (field <<< 1) (subfield <<< 1)
    else 0

/-- The outer loop of `ffs_fragacct` for one size. -/
def acctSize (frag fragmap siz : ℕ) : ℕ :=
  if (fragtbl frag).getD fragmap 0 <<< 1 &&& 1 <<< (siz + frag % 8) = 0 then 0
  else acctLoop frag (fragmap <<< 1) siz (frag + 1) siz (around.getD siz 0) (inside.getD siz 0)

/-- `ffs_fragacct` -/
def fragacct (fs : Fs) (fragmap : ℕ) (fraglist : ℕ → ℤ) (cnt : ℤ) : ℕ → ℤ := fun siz =>
  if 1 ≤ siz ∧ siz < fs.frag then fraglist siz + cnt * acctSize fs.frag fragmap siz
  else fraglist siz

/-- The test of a place of a block for a run of a size, with `around` and `inside`. -/
def fits (x pos siz : ℕ) : Bool :=
  x <<< 1 &&& around.getD siz 0 <<< pos == inside.getD siz 0 <<< pos

/-! ## Runs of free fragments -/

/-- The fragments of a block. -/
def frags (frag x : ℕ) : List Bool := (List.range frag).map fun j => x.testBit j

/-- A run of `n` fragments from `pos` on, which cannot be extended in the block. -/
structure Isolated (frag x pos n : ℕ) : Prop where
  le : pos + n ≤ frag
  free : ∀ j < n, x.testBit (pos + j) = true
  before : pos = 0 ∨ x.testBit (pos - 1) = false
  behind : pos + n = frag ∨ x.testBit (pos + n) = false

/-- The same as a test, one place after the other. -/
def isolated (frag x pos n : ℕ) : Bool :=
  (List.range n).all (fun j => x.testBit (pos + j)) && (pos == 0 || !x.testBit (pos - 1)) &&
    (pos + n == frag || !x.testBit (pos + n))

theorem acctSize_table : ∀ shift ≤ 3, ∀ x < 2 ^ 2 ^ shift, ∀ siz < 2 ^ shift, 1 ≤ siz →
    acctSize (2 ^ shift) x siz = runs siz (frags (2 ^ shift) x) := by
  decide +kernel

theorem fits_table : ∀ shift < 4, ∀ x < 2 ^ 2 ^ shift, (List.range' 1 (2 ^ shift)).all (fun n =>
    (List.range (2 ^ shift - n + 1)).all fun pos =>
      fits x pos n == isolated (2 ^ shift) x pos n) = true := by
  decide +kernel

theorem isolated_iff {frag x pos n : ℕ} (le : pos + n ≤ frag) :
    isolated frag x pos n = true ↔ Isolated frag x pos n := by
  simp only [isolated, Bool.and_eq_true, all_eq_true, mem_range, Bool.or_eq_true,
    beq_iff_eq, Bool.not_eq_true', and_assoc]
  exact ⟨fun h => ⟨le, h.1, h.2.1, h.2.2⟩, fun h => ⟨h.free, h.before, h.behind⟩⟩

variable {fs : Fs} {x pos n k : ℕ}

/-- **The test with `around` and `inside`** finds the runs. -/
theorem fits_iff (hx : x < 2 ^ fs.frag) (hn : 1 ≤ n) (le : pos + n ≤ fs.frag) :
    fits x pos n = true ↔ Isolated fs.frag x pos n := by
  have table := fits_table fs.fragshift (Nat.lt_succ_of_le fs.fragshift_le) x hx
  rw [← Fs.frag, all_eq_true] at table
  have := all_eq_true.mp (table n (mem_range'_1.mpr ⟨hn, by omega⟩)) pos
    (mem_range.mpr (by omega))
  rw [beq_iff_eq.mp this, isolated_iff le]

/-- **`fragacct` counts the runs.** -/
theorem fragacct_eq (hx : x < 2 ^ fs.frag) (fraglist : ℕ → ℤ) (cnt : ℤ) (hk : 1 ≤ k)
    (lt : k < fs.frag) :
    fragacct fs x fraglist cnt k = fraglist k + cnt * runs k (frags fs.frag x) := by
  rw [fragacct, if_pos ⟨hk, lt⟩, Fs.frag, acctSize_table fs.fragshift fs.fragshift_le x hx k lt hk]

/-! ## Stretches of the map -/

/-- The fragments from `start` on. -/
def seg (a : Bytes) (start n : ℕ) : List Bool := (List.range n).map fun j => bit a (start + j)

/-- The fragments of a block. -/
def blk (fs : Fs) (a : Bytes) (b : ℕ) : List Bool := seg a (b * fs.frag) fs.frag

variable {a a' : Bytes} {start m : ℕ}

theorem seg_add : seg a start (n + m) = seg a start n ++ seg a (start + n) m := by
  rw [seg, range_add, map_append, map_map]
  congr 2
  funext j
  simp [Nat.add_assoc]

theorem seg_congr (h : ∀ j < n, bit a' (start + j) = bit a (start + j)) :
    seg a' start n = seg a start n :=
  map_congr_left fun j hj => h j (mem_range.mp hj)

theorem seg_eq_replicate {v : Bool} (h : ∀ j < n, bit a (start + j) = v) :
    seg a start n = List.replicate n v := by
  rw [seg, map_congr_left fun j hj => h j (mem_range.mp hj), map_const', length_range]

@[simp] theorem length_seg : (seg a start n).length = n := by simp [seg]

@[simp] theorem length_blk {b : ℕ} : (blk fs a b).length = fs.frag := length_seg

theorem before_seg (h : n = 0 ∨ bit a (start + n - 1) = false) : Before (seg a start n) := by
  cases n with
  | zero => exact .inl rfl
  | succ n =>
    refine .inr ⟨seg a start n, ?_⟩
    rw [seg_add, seg_eq_replicate (n := 1) fun j hj => ?_]
    · rfl
    · obtain rfl : j = 0 := by omega
      simpa using h

theorem behind_seg (h : n = 0 ∨ bit a start = false) : Behind (seg a start n) := by
  cases n with
  | zero => exact .inl rfl
  | succ n =>
    refine .inr ⟨seg a (start + 1) n, ?_⟩
    rw [Nat.add_comm, seg_add, seg_eq_replicate fun j hj => ?_]
    · rfl
    · obtain rfl : j = 0 := by omega
      simpa using h

/-- A run of `n` fragments from `bno` on, which cannot be extended in its block. -/
structure RunAt (fs : Fs) (a : Bytes) (bno n : ℕ) : Prop where
  le : bno % fs.frag + n ≤ fs.frag
  free : ∀ j < n, bit a (bno + j) = true
  before : bno % fs.frag = 0 ∨ bit a (bno - 1) = false
  behind : bno % fs.frag + n = fs.frag ∨ bit a (bno + n) = false

end BSDLite2.Ffs
