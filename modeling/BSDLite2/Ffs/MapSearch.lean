import BSDLite2.Ffs.CgRun

/-!
# The search for a run is complete

`ffs_mapsearch` looks a byte of the map up in a table and goes through the blocks of a byte that
the table marks.  What the table marks has a run of the size, and what has one is marked.

* `hits_iff` — what the table says of a byte;
* `findByte_spec` — the search goes round the map;
* `mapsearch_finds` — it finds a run of every size that the summary counts.
-/

namespace BSDLite2.Ffs

open Function Runs Finset Nat

/-- The table has the bit of a size for a byte of the map. -/
def hits (frag n y : ℕ) : Bool := (fragtbl frag).getD y 0 &&& sizeBit frag n % 256 != 0

theorem hits_table : ∀ shift < 4, ∀ y < 256, ∀ n < 2 ^ shift, 1 ≤ n → hits (2 ^ shift) n y =
    (List.range (8 >>> shift)).any fun k =>
      runs n (frags (2 ^ shift) (y >>> (k * 2 ^ shift))) != 0 := by
  decide +kernel

theorem runs_table : ∀ shift < 4, ∀ x < 2 ^ 2 ^ shift, ∀ n < 2 ^ shift, 1 ≤ n →
    runs n (frags (2 ^ shift) x) ≠ 0 → (List.range (2 ^ shift + 1 - n)).any (fits x · n) := by
  decide +kernel

variable {fs : Fs} {a : Bytes} {n byte start : ℕ}

/-- **What the table says of a byte**: one of its blocks has a run of the size. -/
theorem hits_iff (hn : 1 ≤ n) (lt : n < fs.frag) : hits fs.frag n (a byte).toNat ↔
    ∃ k < 8 >>> fs.fragshift, runs n (blk fs a (byte * (8 >>> fs.fragshift) + k)) ≠ 0 := by
  have hshift := fs.fragshift_le
  rw [Fs.frag, hits_table _ (by omega) _ (a byte).isLt n lt hn, List.any_eq_true]
  simp only [List.mem_range, bne_iff_ne]
  refine exists_congr fun k => and_congr_right fun hk => ?_
  suffices frags fs.frag ((a byte).toNat >>> (k * fs.frag)) =
      blk fs a (byte * (8 >>> fs.fragshift) + k) by rw [← Fs.frag, this]
  refine List.map_congr_left fun j hj => ?_
  rw [testBit_shiftRight, BitVec.testBit_toNat]
  rw [List.mem_range, Fs.frag] at hj
  unfold Fs.frag
  interval_cases fs.fragshift
  all_goals congr 1 <;> [congr 1; skip] <;> omega

/-- What `scanc` finds, if anything. -/
theorem scanc_spec (table : List ℕ) (mask m start : ℕ) :
    (scanc a table mask m start = 0 ∧ ∀ i < m, table.getD (a (start + i)).toNat 0 &&& mask = 0) ∨
      ∃ i < m, scanc a table mask m start = m - i ∧
        table.getD (a (start + i)).toNat 0 &&& mask ≠ 0 := by
  induction m generalizing start with
  | zero => exact .inl ⟨rfl, fun i hi => absurd hi (not_lt_zero i)⟩
  | succ m ih =>
    by_cases hit : table.getD (a start).toNat 0 &&& mask = 0
    · rw [scanc, if_pos hit]
      rcases ih (start + 1) with ⟨hzero, hnone⟩ | ⟨i, hi, heq, hne⟩
      · refine .inl ⟨hzero, fun i hi => ?_⟩
        cases i with
        | zero => exact hit
        | succ i => exact add_right_comm start 1 i ▸ hnone i (by omega)
      · exact .inr ⟨i + 1, by omega, by omega, add_right_comm start 1 i ▸ hne⟩
    · exact .inr ⟨0, succ_pos m, by rw [scanc, if_neg hit]; rfl, hit⟩

/-- The search goes round the map. -/
theorem findByte_spec (hstart : start < mapBytes fs) (hbyte : byte < mapBytes fs)
    (hit : hits fs.frag n (a byte).toNat) :
    ∃ b < mapBytes fs, findByte fs a start n = some b ∧ hits fs.frag n (a b).toNat := by
  simp only [hits, bne_iff_ne] at hit ⊢
  unfold findByte
  generalize fragtbl fs.frag = table at hit
  generalize sizeBit fs.frag n % 256 = mask at hit
  rcases scanc_spec table mask (mapBytes fs - start) start with
    ⟨hzero, hnone⟩ | ⟨i, hi, heq, hfound⟩
  · rw [if_pos hzero]
    have hle : byte < start + 1 := by
      by_contra hgt
      have := hnone (byte - start) (by omega)
      rw [add_sub_of_le (by omega)] at this
      exact hit this
    rcases scanc_spec table mask (start + 1) 0 with
      ⟨-, hnone⟩ | ⟨i, hi, heq, hfound⟩
    · exact absurd (Nat.zero_add byte ▸ hnone byte hle) hit
    · rw [if_neg (by omega), heq, Nat.sub_sub_self hi.le]
      exact ⟨i, by omega, rfl, Nat.zero_add i ▸ hfound⟩
  · rw [if_neg (by omega)]
    exact ⟨start + i, by omega, congrArg some (by omega), hfound⟩

theorem per_mul : 8 >>> fs.fragshift * fs.frag = 8 := by
  have := fs.fragshift_le
  unfold Fs.frag
  interval_cases fs.fragshift <;> rfl

theorem searchByte_isSome (hn : 1 ≤ n) (lt : n < fs.frag) (hit : hits fs.frag n (a byte).toNat) :
    ∃ bno, searchByte fs a (byte * 8) n = some bno := by
  obtain ⟨k, hk, hruns⟩ := (hits_iff hn lt).mp hit
  have hloc : byte * 8 + k * fs.frag = (byte * (8 >>> fs.fragshift) + k) * fs.frag := by
    rw [Nat.add_mul, Nat.mul_assoc, per_mul]
  have hdvd : fs.frag ∣ byte * 8 + k * fs.frag := hloc ▸ Nat.dvd_mul_left ..
  rw [← Nat.mul_div_cancel (byte * _ + k) fs.frag_pos, ← hloc, ← frags_blkmap hdvd] at hruns
  have hany := runs_table _ (Nat.lt_succ_of_le fs.fragshift_le) _ blkmap_lt n lt hn hruns
  obtain ⟨pos, hpos, hfits⟩ := List.any_eq_true.mp hany
  refine Option.isSome_iff_exists.mp (List.findSome?_isSome_iff.mpr ⟨k, List.mem_range.mpr hk, ?_⟩)
  rw [Option.isSome_map]
  exact List.find?_isSome.mpr ⟨pos, hpos, hfits⟩

/-- **The search finds a run** of every size that the summary counts, from wherever it starts,
and leaves the rotor in the group.  Without a preference it starts at the rotor, which `mkfs` and
every search before have left in the group. -/
theorem mapsearch_finds {cg : Cg} (frsum : ∀ k, 1 ≤ k → k < fs.frag →
      cg.frsum k = ∑ b ∈ range fs.nblk, lone k (blk fs cg.blksfree b))
    (hn : 1 ≤ n) (lt : n < fs.frag) (counted : 0 < cg.frsum n) (bpref : ℕ)
    (rotor : bpref = 0 → cg.frotor < fs.fpg) :
    ∃ bno f, mapsearch fs cg bpref n = .ok ({ cg with frotor := f }, bno) ∧
      RunAt fs cg.blksfree bno n ∧ f < fs.fpg := by
  rw [frsum n hn lt] at counted
  obtain ⟨b, hb, hlone⟩ := Finset.exists_ne_zero_of_sum_ne_zero counted.ne'
  rw [lone_eq_runs (by rwa [length_blk]), cast_ne_zero] at hlone
  have hper : 8 >>> fs.fragshift ≠ 0 := left_ne_zero_of_mul (by rw [per_mul]; decide)
  have hhit : hits fs.frag n (cg.blksfree (b / (8 >>> fs.fragshift))).toNat := by
    have hlt := mod_lt b (pos_of_ne_zero hper)
    refine (hits_iff hn lt).mpr ⟨b % (8 >>> fs.fragshift), hlt, ?_⟩
    rwa [div_add_mod']
  have hbyte : b / (8 >>> fs.fragshift) < mapBytes fs := by
    have hle := mul_le_mul_right fs.frag (div_mul_le_self b (8 >>> fs.fragshift))
    have hlt := mul_lt_mul_of_pos_right (mem_range.mp hb) fs.frag_pos
    rw [Nat.mul_assoc, per_mul] at hle
    rw [fs.nblk_mul] at hlt
    unfold mapBytes
    omega
  have hstart : searchStart fs cg bpref < mapBytes fs := by
    have := mod_lt bpref fs.fpg_pos
    unfold searchStart mapBytes Fs.dtogd
    split_ifs <;> omega
  obtain ⟨byte, hlt, hfind, hhit⟩ := findByte_spec hstart hbyte hhit
  obtain ⟨bno, hbno⟩ := searchByte_isSome hn lt hhit
  refine ⟨bno, byte * 8, ?_, searchByte_spec hn hbno, ?_⟩
  · rw [mapsearch, if_neg (by omega), hfind]
    dsimp only
    rw [hbno]
  · unfold mapBytes at hlt
    omega

/-- The run of three fragments of a group, searched from its last fragment on. -/
theorem mapsearch_finds_three : ∃ bno f, mapsearch small three.cg 15 3 =
    .ok ({ three.cg with frotor := f }, bno) ∧
      RunAt small three.cg.blksfree bno 3 ∧ f < small.fpg :=
  mapsearch_finds matches_three.frsum (by decide) (by decide) (by decide) 15 (by decide)

end BSDLite2.Ffs
