import BSDLite2.Lib.Marking

/-!
# Descriptors for rights that are received (`kern/kern_descrip.c`, `kern/uipc_usrreq.c`)

`unp_externalize` asks `fdavail` whether there are descriptors for the files of a message, and
panics if `fdalloc` then has none.  `fdalloc` gives out descriptors below the limit of the process;
`fdavail` counts what is free in the table, which grows past the limit: with a limit of 64 it has
100 entries.

* `fdalloc`, `fdavail`, `externalize` — the code;
* `externalize_isSome_iff`, `fdavail_iff` — what each of them depends on;
* `fdavail_enough_iff` — when an answer of `fdavail` can be relied on;
* `externalize_panics` — when it cannot.
-/

namespace BSDLite2.Fd

open Function Marking List

/-- `NDEXTENT` -/
def ndextent : ℕ := 50

/-- `struct filedesc` -/
structure Filedesc where
  /-- the entries of `fd_ofiles` that are not null -/
  used : ℕ → Bool
  nfiles : ℕ
  lastfile : ℕ
  freefile : ℕ

/-- A larger `fd_ofiles`, with nothing in the new part. -/
def Filedesc.expand (fdp : Filedesc) : Filedesc :=
  { fdp with
    used := fun i => decide (i < fdp.nfiles) && fdp.used i
    nfiles := if fdp.nfiles < ndextent then ndextent else 2 * fdp.nfiles }

theorem Filedesc.lt_expand (fdp : Filedesc) : fdp.nfiles < fdp.expand.nfiles := by
  unfold expand ndextent
  split_ifs
  · assumption
  · dsimp only
    omega

/-- `fdalloc`; `none` is `EMFILE`.  The hints are of type `u_short`. -/
def fdalloc (lim want : ℕ) (fdp : Filedesc) : Option (ℕ × Filedesc) :=
  let first := if want < fdp.freefile then fdp.freefile else want
  match (range' first (min fdp.nfiles lim - first)).find? fun i => !fdp.used i with
  | some i => some (i, { fdp with
      lastfile := if i > fdp.lastfile then i % 2 ^ 16 else fdp.lastfile
      freefile := if want ≤ fdp.freefile then i % 2 ^ 16 else fdp.freefile })
  | none => if fdp.nfiles ≥ lim then none else fdalloc lim want fdp.expand
termination_by lim - fdp.nfiles
decreasing_by
  have := fdp.lt_expand
  omega

/-- The loop of `fdavail`, with `k` entries to go. -/
def countFree (used : ℕ → Bool) : (k fpp : ℕ) → (n : ℤ) → Bool
  | 0, _, _ => false
  | k + 1, fpp, n =>
    if used fpp then countFree used k (fpp + 1) n
    else if n - 1 ≤ 0 then true
    else countFree used k (fpp + 1) (n - 1)

/-- `fdavail` -/
def fdavail (lim : ℕ) (fdp : Filedesc) (n : ℤ) : Bool :=
  let i : ℤ := lim - fdp.nfiles
  if i > 0 ∧ n - i ≤ 0 then true
  else countFree fdp.used (fdp.nfiles - fdp.freefile) fdp.freefile (if i > 0 then n - i else n)

/-- A file is put into the table. -/
def Filedesc.fill (fdp : Filedesc) (f : ℕ) : Filedesc := { fdp with used := update fdp.used f true }

/-- The second loop of `unp_externalize`; `none` is the panic. -/
def externalize (lim : ℕ) : (newfds : ℕ) → Filedesc → Option Filedesc
  | 0, fdp => some fdp
  | newfds + 1, fdp =>
    match fdalloc lim 0 fdp with
    | none => none
    | some (f, fdp) => externalize lim newfds (fdp.fill f)

/-! ## Free descriptors -/

/-- The descriptors below `m` that are free. -/
def Filedesc.free (fdp : Filedesc) (m : ℕ) : ℕ := (range m).countP fun i => !fdp.used i

/-- **The table**: what is in use is in it, and everything below `fd_freefile` is in use. -/
structure Filedesc.Valid (fdp : Filedesc) : Prop where
  inside : ∀ i, fdp.used i = true → i < fdp.nfiles
  below : ∀ i < fdp.freefile, fdp.used i = true

variable {fdp : Filedesc} {lim : ℕ}

theorem Filedesc.Valid.expand (valid : fdp.Valid) :
    fdp.expand.Valid ∧ fdp.expand.used = fdp.used := by
  have same : fdp.expand.used = fdp.used := by
    funext i
    have := valid.inside i
    cases h : fdp.used i with
    | true => simp [Filedesc.expand, h, this h]
    | false => simp [Filedesc.expand, h]
  refine ⟨⟨fun i hi => ?_, fun i hi => ?_⟩, same⟩
  · rw [same] at hi
    exact (valid.inside i hi).trans fdp.lt_expand
  · rw [same]
    exact valid.below i hi

/-- **What `fdalloc` does**: the least descriptor that is free below the limit. -/
theorem fdalloc_spec (lim : ℕ) (valid : fdp.Valid) :
    (fdalloc lim 0 fdp = none ∧ ∀ i < lim, fdp.used i = true) ∨
      ∃ f fdp', fdalloc lim 0 fdp = some (f, fdp') ∧ f < lim ∧ fdp.used f = false ∧
        (fdp'.fill f).Valid ∧ (fdp'.fill f).used = update fdp.used f true := by
  induction hk : lim - fdp.nfiles using Nat.strong_induction_on generalizing fdp with
  | _ k ih =>
  have hfirst : (if 0 < fdp.freefile then fdp.freefile else 0) = fdp.freefile := by
    split_ifs <;> omega
  rw [fdalloc]
  simp only [hfirst, Nat.zero_le, if_true]
  split
  · next i hfind =>
    simp only [find?_range'_eq_some, mem_range'_1, Bool.not_eq_true', Bool.not_not] at hfind
    obtain ⟨free, hi, before⟩ := hfind
    refine .inr ⟨i, _, rfl, by omega, free, ⟨fun j hj => ?_, fun j hj => ?_⟩, rfl⟩
    · rcases update_true_iff.mp hj with rfl | hj
      · show j < fdp.nfiles
        omega
      · exact valid.inside j hj
    · have hlt : j < i := lt_of_lt_of_le hj (Nat.mod_le i _)
      refine update_true_iff.mpr (.inr ?_)
      rcases Nat.lt_or_ge j fdp.freefile with low | high
      · exact valid.below j low
      · exact before j high hlt
  · next hfind =>
    simp only [find?_range'_eq_none, Bool.not_not] at hfind
    split_ifs with hlim
    · refine .inl ⟨rfl, fun j hj => ?_⟩
      rcases Nat.lt_or_ge j fdp.freefile with low | high
      · exact valid.below j low
      · exact hfind j high (by omega)
    · have hlt := fdp.lt_expand
      obtain ⟨valid', same⟩ := valid.expand
      rw [← same]
      exact ih _ (by omega) valid' rfl

variable {n : ℕ}

theorem Filedesc.free_fill {f : ℕ} (hf : f < lim) (free : fdp.used f = false) {fdp' : Filedesc}
    (h : fdp'.used = update fdp.used f true) : fdp'.free lim + 1 = fdp.free lim := by
  have := countP_update nodup_range (mem_range.mpr hf) (not ∘ fdp.used) (not true)
  rw [← comp_update, ← h] at this
  simp only [comp_apply, free, Bool.not_false, Bool.toNat_true, Bool.not_true, Bool.toNat_false,
    add_zero] at this
  exact this

/-- **The panic** is for want of free descriptors below the limit. -/
theorem externalize_isSome_iff (valid : fdp.Valid) :
    (externalize lim n fdp).isSome ↔ n ≤ fdp.free lim := by
  induction n generalizing fdp with
  | zero => simp [externalize]
  | succ n ih =>
    rw [externalize]
    rcases fdalloc_spec lim valid with ⟨h, full⟩ | ⟨f, fdp', h, hf, free, valid', hused⟩
    · have hzero : fdp.free lim = 0 := countP_eq_zero.mpr fun i hi => by
        simp [full i (mem_range.mp hi)]
      simp [h, hzero]
    · rw [h]
      rw [ih valid', ← Filedesc.free_fill hf free hused, Nat.add_le_add_iff_right]

theorem countFree_iff {used : ℕ → Bool} {k fpp : ℕ} {n : ℤ} (pos : 0 < n) :
    countFree used k fpp n = true ↔ n ≤ (range' fpp k).countP fun i => !used i := by
  induction k generalizing fpp n with
  | zero =>
    simp [countFree]
    omega
  | succ k ih =>
    rw [countFree, range'_succ, countP_cons]
    cases h : used fpp with
    | true => simpa using ih pos
    | false =>
      simp only [Bool.false_eq_true, if_false, Bool.not_false, if_true]
      split_ifs with hone
      · simp only [true_iff]
        omega
      · rw [ih (by omega)]
        omega

theorem Filedesc.free_split {a b : ℕ} (h : a ≤ b) :
    fdp.free b = fdp.free a + (range' a (b - a)).countP fun i => !fdp.used i := by
  obtain ⟨c, rfl⟩ := Nat.exists_eq_add_of_le h
  rw [free, free, range_eq_range', range_eq_range', ← range'_append_1, countP_append, zero_add,
    Nat.add_sub_cancel_left]

/-- **`fdavail`** counts all that is free in the table. -/
theorem fdavail_iff (valid : fdp.Valid) (pos : 0 < n) :
    fdavail lim fdp n = true ↔ n ≤ fdp.free fdp.nfiles + (lim - fdp.nfiles) := by
  have hle : fdp.freefile ≤ fdp.nfiles := not_lt.mp fun h =>
    lt_irrefl _ (valid.inside _ (valid.below _ h))
  have hnone : fdp.free fdp.freefile = 0 := countP_eq_zero.mpr fun i hi => by
    simp [valid.below i (mem_range.mp hi)]
  rw [Filedesc.free_split hle, hnone]
  rw [fdavail]
  split_ifs with h hi
  · simp
    omega
  · rw [countFree_iff (by omega)]
    omega
  · rw [countFree_iff (by omega)]
    omega

theorem Filedesc.Valid.free_lim (valid : fdp.Valid) (h : fdp.nfiles ≤ lim) :
    fdp.free lim = fdp.free fdp.nfiles + (lim - fdp.nfiles) := by
  have hall : (range' fdp.nfiles (lim - fdp.nfiles)).countP (fun i => !fdp.used i) =
      (range' fdp.nfiles (lim - fdp.nfiles)).length := countP_eq_length.mpr fun i hi => by
    have hout := mt (valid.inside i) (not_lt.mpr (mem_range'_1.mp hi).1)
    simpa using hout
  rw [Filedesc.free_split h, hall, length_range']

/-- **An answer of `fdavail` can be relied on** exactly if what is free is below the limit. -/
theorem fdavail_enough_iff (valid : fdp.Valid) (pos : 0 < n) :
    (fdavail lim fdp n = true → (externalize lim n fdp).isSome) ↔
      (lim < fdp.nfiles → n ≤ fdp.free fdp.nfiles → n ≤ fdp.free lim) := by
  rw [fdavail_iff valid pos, externalize_isSome_iff valid]
  rcases Nat.lt_or_ge lim fdp.nfiles with h | h
  · simp only [h, true_imp_iff, Nat.sub_eq_zero_of_le h.le, add_zero]
  · rw [valid.free_lim h]
    simp [not_lt.mpr h]

/-- A process with a limit of 64 and all of its 64 descriptors in use. -/
def full : Filedesc where
  used i := i < 64
  nfiles := 100
  lastfile := 63
  freefile := 63

theorem full_valid : full.Valid := ⟨by simp [full]; omega, by simp [full]; omega⟩

/-- With a limit of 67 three descriptors are free, and a message with three rights is received. -/
theorem fdavail_enough_three :
    full.Valid ∧ fdavail 67 full 3 = true ∧ (externalize 67 3 full).isSome := by
  have avail : fdavail 67 full 3 = true := by decide
  refine ⟨full_valid, avail, (fdavail_enough_iff full_valid (by decide)).mpr ?_ avail⟩
  exact fun _ _ => (by decide : 3 ≤ full.free 67)

/-- **A message with a right is received**, and the kernel panics. -/
theorem externalize_panics :
    full.Valid ∧ fdavail 64 full 1 = true ∧ externalize 64 1 full = none := by
  refine ⟨full_valid, by decide, ?_⟩
  rw [← Option.not_isSome_iff_eq_none, externalize_isSome_iff full_valid]
  decide

end BSDLite2.Fd
