import BSDLite2.Ffs.Balloc

/-!
# Freeing what is behind an indirect block (`ufs/ffs/ffs_inode.c`)

`ffs_indirtrunc` frees the blocks under an indirect block that are behind a given one.  It
clears the pointers first, goes through the old ones from the far end, and descends once more
into the block in which the last block to be kept is.  A call names an indirect block by a
negative logical number, which it computes from the number of the block above.

* `Pass` — the file, the blocks freed and the indirect blocks looked at so far;
* `indirtrunc` — the code;
* `Frees` — which blocks are freed, changed and looked at;
* `indirtrunc_spec` — the blocks behind the last one are freed, and the others stay.
-/

namespace BSDLite2.Ffs.Balloc

open BSDLite2.Bmap BSDLite2.PtrTree Function List Nat

variable {K : ℕ}

/-! ## The code -/

/-- The result of each call that does input or output. -/
structure Io where
  /-- how `ffs_balloc` turns out -/
  balloc : Env
  /-- `vinvalbuf` succeeds -/
  flush : Bool
  /-- an indirect block can be read -/
  read : ℕ → Bool
  /-- an indirect block can be written -/
  write : ℕ → Bool

/-- **A pass through a file**: the indirect blocks that were looked at, by logical number and
address, `blocksreleased` and `allerror`. -/
structure Pass where
  s : Store
  seen : List (ℤ × ℕ)
  count : ℕ
  err : Option Err

/-- `ffs_blkfree`, counted. -/
def Pass.blkfree (p : Pass) (a size : ℕ) : Pass :=
  { p with s := p.s.blkfree a size, count := p.count + Geom.btodb size }

/-- `getblk` of an indirect block. -/
def Pass.look (p : Pass) (lbn : ℤ) (dbn : ℕ) : Pass := { p with seen := p.seen ++ [(lbn, dbn)] }

/-- The pointers of a block behind `last` are cleared. -/
def Store.zero (s : Store) (a : ℕ) (last : ℤ) : Store :=
  { s with mem := update s.mem a fun j => if last < j then 0 else s.mem a j }

/-- Index of the last pointer to be kept; -1 is none. -/
def lastIndex (factor : ℕ) (lastbn : ℤ) : ℤ := if 0 < lastbn then lastbn / factor else lastbn

variable (g : Geom) (io : Io)

/-- The loop of `ffs_indirtrunc` over the pointers, with `n` of them to go: `i + 1` and `nlbn` at
its end. -/
def freeLoop (child : ℤ → ℕ → ℤ → Pass → Pass) (copy : ℕ → ℕ) (factor : ℕ) (last : ℤ) :
    (n : ℕ) → (nlbn : ℤ) → Pass → ℕ × ℤ × Pass
  | 0, nlbn, p => (0, nlbn, p)
  | n + 1, nlbn, p =>
    if last < n then
      if copy n = 0 then freeLoop child copy factor last n (nlbn + factor) p
      else
        freeLoop child copy factor last n (nlbn + factor)
          ((child nlbn (copy n) (-1) p).blkfree (copy n) g.bsize)
    else (n + 1, nlbn, p)

/-- The buffer of an indirect block is cleared behind `last` and written. -/
def clearBlock (dbn : ℕ) (last : ℤ) (p : Pass) : Pass :=
  { p with
    s := p.s.zero dbn last
    err := if io.write dbn then p.err else some .eio }

/-- `ffs_indirtrunc` from the loop on, for the old pointers `copy`. -/
def truncRest (child : ℤ → ℕ → ℤ → Pass → Pass) (copy : ℕ → ℕ) (level : ℕ) (lbn lastbn : ℤ)
    (p : Pass) : Pass :=
  let factor := g.n ^ level
  let (n, nlbn, p) := freeLoop g child copy factor (lastIndex factor lastbn) g.n
    (lbn + 1 - (g.n - 1) * factor) p
  if 0 ≤ lastbn ∧ copy (n - 1) ≠ 0 then child nlbn (copy (n - 1)) (lastbn % factor) p else p

/-- The body of `ffs_indirtrunc`; `child` is the recursive call. -/
def truncBlock (child : ℤ → ℕ → ℤ → Pass → Pass) (level : ℕ) (lbn : ℤ) (dbn : ℕ) (lastbn : ℤ)
    (p : Pass) : Pass :=
  if io.read dbn = false then { p.look lbn dbn with err := some .eio }
  else truncRest g child (p.s.mem dbn) level lbn lastbn
    (clearBlock io dbn (lastIndex (g.n ^ level) lastbn) (p.look lbn dbn))

/-- `ffs_indirtrunc`; there is no recursive call at level `SINGLE`. -/
def indirtrunc : (level : ℕ) → (lbn : ℤ) → (dbn : ℕ) → (lastbn : ℤ) → Pass → Pass
  | 0 => truncBlock g io (fun _ _ _ p => p) 0
  | level + 1 => truncBlock g io (indirtrunc level) (level + 1)

/-! ## Accounts -/

/-- The sectors of what has been freed. -/
def sectors (l : List (ℕ × ℕ)) : ℕ := (l.map fun f => Geom.btodb f.2).sum

theorem sectors_append (l l' : List (ℕ × ℕ)) : sectors (l ++ l') = sectors l + sectors l' := by
  simp [sectors]

/-- **What is freed is counted**, and no error is forgotten. -/
structure Released (p p' : Pass) : Prop where
  freed : ∃ l, p'.s.freed = p.s.freed ++ l ∧ p'.count = p.count + sectors l
  blocks : p'.s.ino.blocks = p.s.ino.blocks
  err : p'.err = none → p.err = none

/-- And the inode does not change. -/
structure Counted (p p' : Pass) : Prop extends Released p p' where
  ino : p'.s.ino = p.s.ino

variable {g io} {p p' p'' : Pass}

theorem Released.refl : Released p p := ⟨⟨[], by simp [sectors]⟩, rfl, id⟩

theorem Released.trans (h : Released p p') (h' : Released p' p'') : Released p p'' where
  freed := by
    obtain ⟨l, hl, hcount⟩ := h.freed
    obtain ⟨l', hl', hcount'⟩ := h'.freed
    refine ⟨l ++ l', by rw [hl', hl, append_assoc], ?_⟩
    rw [hcount', hcount, sectors_append, add_assoc]
  blocks := h'.blocks.trans h.blocks
  err herr := h.err (h'.err herr)

theorem Released.blkfree (a size : ℕ) : Released p (p.blkfree a size) :=
  ⟨⟨[(a, size)], rfl, by simp [sectors, Pass.blkfree]⟩, rfl, id⟩

theorem Counted.refl : Counted p p := ⟨.refl, rfl⟩

theorem Counted.trans (h : Counted p p') (h' : Counted p' p'') : Counted p p'' :=
  ⟨h.toReleased.trans h'.toReleased, h'.ino.trans h.ino⟩

theorem Counted.blkfree (a size : ℕ) : Counted p (p.blkfree a size) := ⟨.blkfree .., rfl⟩

theorem Counted.clearBlock (dbn : ℕ) (last : ℤ) : Counted p (clearBlock io dbn last p) where
  freed := ⟨[], by simp [sectors, Balloc.clearBlock, Store.zero]⟩
  blocks := rfl
  ino := rfl
  err herr := by
    simp only [Balloc.clearBlock] at herr
    split_ifs at herr
    exact herr

section Child

variable {child : ℤ → ℕ → ℤ → Pass → Pass}
  (hchild : ∀ nlbn a lastbn p, Counted p (child nlbn a lastbn p))
include hchild

theorem freeLoop_counted (copy : ℕ → ℕ) (factor : ℕ) (last : ℤ) (n : ℕ) (nlbn : ℤ) (p : Pass) :
    Counted p (freeLoop g child copy factor last n nlbn p).2.2 := by
  fun_induction freeLoop g child copy factor last n nlbn p with
  | case1 | case4 => exact .refl
  | case2 n nlbn p _ _ ih => exact ih
  | case3 n nlbn p _ _ ih => exact ((hchild ..).trans (.blkfree ..)).trans ih

theorem truncRest_counted (copy : ℕ → ℕ) (level : ℕ) (lbn lastbn : ℤ) (p : Pass) :
    Counted p (truncRest g child copy level lbn lastbn p) := by
  have hloop := freeLoop_counted (g := g) hchild copy (g.n ^ level)
    (lastIndex (g.n ^ level) lastbn) g.n (lbn + 1 - (g.n - 1) * (g.n ^ level : ℕ)) p
  unfold truncRest
  dsimp only
  split_ifs
  · exact hloop.trans (hchild ..)
  · exact hloop

theorem truncBlock_counted (level : ℕ) (lbn : ℤ) (dbn : ℕ) (lastbn : ℤ) (p : Pass) :
    Counted p (truncBlock g io child level lbn dbn lastbn p) := by
  have hlook : Counted p (p.look lbn dbn) := ⟨⟨⟨[], by simp [sectors, Pass.look]⟩, rfl, id⟩, rfl⟩
  unfold truncBlock
  split_ifs
  · exact ⟨⟨hlook.freed, rfl, nofun⟩, rfl⟩
  · exact (hlook.trans (.clearBlock ..)).trans (truncRest_counted hchild ..)

end Child

theorem indirtrunc_counted (g : Geom) (io : Io) (level : ℕ) (lbn : ℤ) (dbn : ℕ) (lastbn : ℤ)
    (p : Pass) : Counted p (indirtrunc g io level lbn dbn lastbn p) := by
  induction level generalizing lbn dbn lastbn p with
  | zero => exact truncBlock_counted (fun _ _ _ _ => .refl) ..
  | succ level ih => exact truncBlock_counted ih ..

/-! ## What is freed -/

/-- The logical number of an indirect block. -/
def indirLbn (x : Node ℕ) : ℤ := 1 - x.pos - x.depth

/-- **What a pass does**: it frees `L`, and changes and looks at nothing but `D`. -/
structure Frees (L : List (ℕ × ℕ)) (D : List (Node ℕ)) (p p' : Pass) : Prop where
  freed : ∃ l, p'.s.freed = p.s.freed ++ l ∧ l.Perm L
  mem : ∀ y ∉ D.map Node.addr, p'.s.mem y = p.s.mem y
  seen : ∃ v, p'.seen = p.seen ++ v ∧ ∀ e ∈ v, ∃ x ∈ D, x.depth ≠ 0 ∧ e = (indirLbn x, x.addr)

variable {L L' : List (ℕ × ℕ)} {D D' : List (Node ℕ)}

theorem Frees.refl : Frees [] D p p := ⟨⟨[], by simp⟩, fun _ _ => rfl, ⟨[], by simp⟩⟩

theorem Frees.trans (h : Frees L D p p') (h' : Frees L' D' p' p'') :
    Frees (L ++ L') (D ++ D') p p'' where
  freed := by
    obtain ⟨l, hl, hperm⟩ := h.freed
    obtain ⟨l', hl', hperm'⟩ := h'.freed
    exact ⟨l ++ l', by rw [hl', hl, append_assoc], hperm.append hperm'⟩
  mem y hy := by
    rw [map_append, mem_append, not_or] at hy
    rw [h'.mem y hy.2, h.mem y hy.1]
  seen := by
    obtain ⟨v, hv, hseen⟩ := h.seen
    obtain ⟨v', hv', hseen'⟩ := h'.seen
    refine ⟨v ++ v', by rw [hv', hv, append_assoc], fun e he => ?_⟩
    rcases mem_append.mp he with he | he
    · obtain ⟨x, hx, hdepth⟩ := hseen e he
      exact ⟨x, mem_append_left _ hx, hdepth⟩
    · obtain ⟨x, hx, hdepth⟩ := hseen' e he
      exact ⟨x, mem_append_right _ hx, hdepth⟩

theorem Frees.mono (h : Frees L D p p') (perm : L.Perm L') (sub : ∀ x ∈ D, x ∈ D') :
    Frees L' D' p p' where
  freed := by
    obtain ⟨l, hl, hperm⟩ := h.freed
    exact ⟨l, hl, hperm.trans perm⟩
  mem y hy := h.mem y fun hmem => hy (by
    obtain ⟨x, hx, rfl⟩ := mem_map.mp hmem
    exact mem_map_of_mem (sub x hx))
  seen := by
    obtain ⟨v, hv, hseen⟩ := h.seen
    refine ⟨v, hv, fun e he => ?_⟩
    obtain ⟨x, hx, hdepth⟩ := hseen e he
    exact ⟨x, sub x hx, hdepth⟩

/-- What is apart from the blocks that are changed stays. -/
theorem Frees.slot_eq {d pos q : ℕ} (h : Frees L D p p')
    (apart : ∀ x ∈ slot g.n p.s.mem d pos q, x.addr ∉ D.map Node.addr) :
    slot g.n p'.s.mem d pos q = slot g.n p.s.mem d pos q :=
  slot_congr fun x hx _ j _ => by rw [h.mem _ (apart x hx)]

variable (g) in
/-- A block and its size. -/
def whole (x : Node ℕ) : ℕ × ℕ := (x.addr, g.bsize)

theorem Frees.blkfree (x : Node ℕ) (p : Pass) : Frees [whole g x] D p (p.blkfree x.addr g.bsize) :=
  ⟨⟨_, rfl, .refl _⟩, fun _ _ => rfl, ⟨[], by simp [Pass.blkfree]⟩⟩

/-- Blocks that all lie behind position `K`. -/
theorem filter_behind {l : List (Node ℕ)} (h : ∀ x ∈ l, K ≤ x.pos) :
    l.filter (K ≤ ·.pos) = l ∧ l.filter (·.pos < K) = [] :=
  ⟨filter_eq_self.mpr fun x hx => decide_eq_true (h x hx),
    filter_eq_nil_iff.mpr fun x hx => by simpa using h x hx⟩

/-- Blocks that all lie in front of it. -/
theorem filter_front {l : List (Node ℕ)} (h : ∀ x ∈ l, x.pos < K) :
    l.filter (K ≤ ·.pos) = [] ∧ l.filter (·.pos < K) = l :=
  ⟨filter_eq_nil_iff.mpr fun x hx => by simpa using h x hx,
    filter_eq_self.mpr fun x hx => decide_eq_true (h x hx)⟩

theorem flatMap_range_succ {α : Type} (f : ℕ → List α) (n : ℕ) :
    (List.range (n + 1)).flatMap f = (List.range n).flatMap f ++ f n := by
  rw [range_succ, flatMap_append, flatMap_singleton]

variable (g) in
/-- **A tree is cut**: what is below its root is freed from position `K` on. -/
structure Cuts (d pos a K : ℕ) (p p' : Pass) : Prop where
  frees : Frees (((below g.n p.s.mem d pos a).filter (K ≤ ·.pos)).map (whole g))
    (tree g.n p.s.mem d pos a) p p'
  below : below g.n p'.s.mem d pos a = (below g.n p.s.mem d pos a).filter (·.pos < K)

variable (g) in
/-- A call cuts the tree it is called for behind block `lastbn`. -/
def CallCuts (child : ℤ → ℕ → ℤ → Pass → Pass) (d : ℕ) : Prop :=
  ∀ (pos a K : ℕ) (lastbn : ℤ) (p : Pass), (K : ℤ) = pos + lastbn + 1 → -1 ≤ lastbn →
    lastbn < (g.n ^ d : ℕ) → ((tree g.n p.s.mem d pos a).map Node.addr).Nodup →
    (child (1 - pos - d) a lastbn p).err = none →
    Cuts g d pos a K p (child (1 - pos - d) a lastbn p)

variable (g) in
/-- The blocks under pointer `j` of a block at depth `d + 1`. -/
def kid (mem : ℕ → ℕ → ℕ) (d pos : ℕ) (copy : ℕ → ℕ) (j : ℕ) : List (Node ℕ) :=
  slot g.n mem d (pos + j * g.n ^ d) (copy j)

section Loop

variable {child : ℤ → ℕ → ℤ → Pass → Pass} {d : ℕ}

variable {pos : ℕ}

/-- A whole tree is freed. -/
theorem CallCuts.whole (hcuts : CallCuts g child d) {a : ℕ}
    (nodup : ((tree g.n p.s.mem d pos a).map Node.addr).Nodup)
    (herr : (child (1 - pos - d) a (-1) p).err = none) :
    Frees ((tree g.n p.s.mem d pos a).map (whole g)) (tree g.n p.s.mem d pos a) p
      ((child (1 - pos - d) a (-1) p).blkfree a g.bsize) := by
  have hcut := hcuts pos a pos (-1) p (by omega) le_rfl (by omega) nodup herr
  have hfrees := hcut.frees
  rw [(filter_behind fun x hx => (pos_of_mem_below g.pos hx).1).1] at hfrees
  refine (hfrees.trans (.blkfree (D := []) ⟨pos, d, a⟩ _)).mono ?_ (by simp)
  rw [tree_eq]
  exact perm_append_singleton ..

variable {m n : ℕ}

/-- **The loop** frees what is under the pointers from `m` on. -/
theorem freeLoop_spec (hcuts : CallCuts g child d)
    (hcounted : ∀ nlbn a lastbn p, Counted p (child nlbn a lastbn p)) (copy : ℕ → ℕ) (pos : ℕ)
    {last : ℤ} (nlbn : ℤ) (hm : m ≤ n) (hlast : last = m - 1)
    (hnlbn : nlbn = 1 - (pos + ((n : ℤ) - 1) * (g.n ^ d : ℕ)) - d) (p : Pass)
    (nodup : (((List.range n).flatMap (kid g p.s.mem d pos copy)).map Node.addr).Nodup)
    (herr : (freeLoop g child copy (g.n ^ d) last n nlbn p).2.2.err = none) :
    ∃ p', freeLoop g child copy (g.n ^ d) last n nlbn p =
        (m, 1 - (pos + ((m : ℤ) - 1) * (g.n ^ d : ℕ)) - d, p') ∧
      Frees (((List.range' m (n - m)).flatMap (kid g p.s.mem d pos copy)).map (Balloc.whole g))
        ((List.range' m (n - m)).flatMap (kid g p.s.mem d pos copy)) p p' := by
  induction n generalizing p nlbn with
  | zero =>
    obtain rfl : m = 0 := le_zero.mp hm
    exact ⟨p, by rw [freeLoop, hnlbn], .refl⟩
  | succ n ih =>
    rcases Nat.lt_or_ge n m with hlt | hle
    · obtain rfl : m = n + 1 := by omega
      rw [freeLoop, if_neg (by omega), Nat.sub_self, hnlbn]
      exact ⟨p, rfl, .refl⟩
    have hnext : nlbn + (g.n ^ d : ℕ) = 1 - (pos + ((n : ℤ) - 1) * (g.n ^ d : ℕ)) - d := by
      rw [hnlbn]
      push_cast
      ring
    have hhere : nlbn = 1 - (pos + n * g.n ^ d : ℕ) - d := by
      rw [hnlbn]
      push_cast
      ring
    have hrange : List.range' m (n + 1 - m) = List.range' m (n - m) ++ [n] := by
      rw [show n + 1 - m = n - m + 1 by omega, range'_concat]
      congr 2
      omega
    rw [freeLoop, if_pos (by omega)] at herr ⊢
    rw [flatMap_range_succ, map_append] at nodup
    rw [hrange, flatMap_append, flatMap_singleton]
    obtain ⟨hbefore, hnodup, hapart⟩ := nodup_append'.mp nodup
    by_cases hnull : copy n = 0
    · have hkid : kid g p.s.mem d pos copy n = [] := if_pos hnull
      rw [if_pos hnull] at herr ⊢
      rw [hkid, append_nil]
      exact ih _ hle hnext p hbefore herr
    · rw [if_neg hnull] at herr ⊢
      have hkid : kid g p.s.mem d pos copy n =
        tree g.n p.s.mem d (pos + n * g.n ^ d) (copy n) := if_neg hnull
      have herr' := (freeLoop_counted hcounted copy (g.n ^ d) last n _ _).err herr
      have hfrees : Frees ((kid g p.s.mem d pos copy n).map (Balloc.whole g))
          (kid g p.s.mem d pos copy n) p
          ((child nlbn (copy n) (-1) p).blkfree (copy n) g.bsize) := by
        rw [hkid] at hnodup ⊢
        rw [hhere] at herr' ⊢
        exact hcuts.whole hnodup herr'
      generalize (child nlbn (copy n) (-1) p).blkfree (copy n) g.bsize = p₁ at herr hfrees ⊢
      -- the trees in front share no block with the one just freed, so they are as they were
      have hkids : ∀ j ∈ List.range n, kid g p₁.s.mem d pos copy j =
          kid g p.s.mem d pos copy j := by
        intro j hj
        refine hfrees.slot_eq fun x hx hmem => hapart ?_ hmem
        exact mem_map_of_mem (mem_flatMap.mpr ⟨j, hj, hx⟩)
      obtain ⟨p', hp', hrest⟩ := ih _ hle hnext p₁ (by rwa [flatMap_congr hkids]) herr
      have hrest' : (List.range' m (n - m)).flatMap (kid g p₁.s.mem d pos copy) =
          (List.range' m (n - m)).flatMap (kid g p.s.mem d pos copy) := by
        refine flatMap_congr fun j hj => hkids j (mem_range.mpr ?_)
        have := mem_range'_1.mp hj
        omega
      rw [hrest'] at hrest
      refine ⟨p', hp', (hfrees.trans hrest).mono ?_ fun x hx => ?_⟩
      · rw [map_append]
        exact perm_append_comm
      · exact mem_append.mpr (mem_append.mp hx).symm

/-- The number of pointers to keep, the last of them perhaps to a tree that is cut. -/
theorem lastIndex_eq {factor : ℕ} {lastbn : ℤ} (hpos : 0 < factor) (hge : -1 ≤ lastbn)
    (hlt : lastbn < (n * factor : ℕ)) : ∃ m ≤ n, lastIndex factor lastbn = (m : ℤ) - 1 ∧
      lastbn < (m * factor : ℕ) ∧ (m = 0 → lastbn = -1) ∧ ∀ i, m = i + 1 →
        0 ≤ lastbn ∧ lastbn = (i * factor : ℕ) + lastbn % factor := by
  rcases hge.eq_or_lt with rfl | hgt
  · exact ⟨0, zero_le _, by simp [lastIndex], by omega, fun _ => rfl, nofun⟩
  obtain ⟨b, rfl⟩ := Int.eq_ofNat_of_zero_le (show 0 ≤ lastbn by omega)
  have hidx : lastIndex factor b = (b / factor : ℕ) := by
    unfold lastIndex
    split_ifs with h0
    · rw [Int.natCast_ediv]
    · obtain rfl : b = 0 := by omega
      simp
  refine ⟨b / factor + 1, ?_, by rw [hidx]; push_cast; ring, ?_, nofun, ?_⟩
  · exact Nat.div_lt_of_lt_mul (by rw [mul_comm]; exact_mod_cast hlt)
  · exact_mod_cast Nat.lt_mul_of_div_lt (Nat.lt_succ_self _) hpos
  · intro i hi
    obtain rfl : b / factor = i := by omega
    refine ⟨by omega, ?_⟩
    exact_mod_cast (div_add_mod' b factor).symm

/-- The last descent, into the tree of which some blocks are kept. -/
theorem cut_kid (hcuts : CallCuts g child d) (copy : ℕ → ℕ) (pos j K : ℕ) (lastbn : ℤ)
    (hK : (K : ℤ) = (pos + j * g.n ^ d : ℕ) + lastbn + 1) (hge : 0 ≤ lastbn)
    (hlt : lastbn < (g.n ^ d : ℕ)) (nodup : ((kid g p.s.mem d pos copy j).map Node.addr).Nodup)
    (hp' : p' = if copy j ≠ 0 then child (1 - (pos + j * g.n ^ d : ℕ) - d) (copy j) lastbn p else p)
    (herr : p'.err = none) :
    Frees (((kid g p.s.mem d pos copy j).filter (K ≤ ·.pos)).map (Balloc.whole g))
        (kid g p.s.mem d pos copy j) p p' ∧
      kid g p'.s.mem d pos copy j = (kid g p.s.mem d pos copy j).filter (·.pos < K) := by
  unfold kid slot at *
  split_ifs at hp' with hne
  · subst hp'
    rw [if_neg hne] at nodup ⊢
    have hcut := hcuts (pos + j * g.n ^ d) (copy j) K lastbn p hK (by omega) hlt nodup herr
    have hroot : pos + j * g.n ^ d < K := by omega
    rw [if_neg hne, tree_eq, tree_eq, hcut.below]
    refine ⟨hcut.frees.mono ?_ fun x hx => ?_, ?_⟩
    · rw [filter_cons_of_neg (by simpa using hroot)]
    · rwa [← tree_eq]
    · rw [filter_cons_of_pos (by simpa using hroot)]
  · subst hp'
    rw [if_pos (not_not.mp hne)]
    exact ⟨.refl, rfl⟩

theorem range_split (hm : m ≤ n) : List.range n = List.range m ++ List.range' m (n - m) := by
  have h := range'_append_1 (s := 0) (m := m) (n := n - m)
  rw [Nat.zero_add, Nat.add_sub_cancel' hm] at h
  rw [range_eq_range', range_eq_range', h]

variable {mem : ℕ → ℕ → ℕ} {copy : ℕ → ℕ} {x : Node ℕ}

theorem pos_of_mem_kid {j : ℕ} (hx : x ∈ kid g mem d pos copy j) :
    pos + j * g.n ^ d ≤ x.pos ∧ x.pos < pos + (j + 1) * g.n ^ d := by
  have h := pos_of_mem_slot g.pos hx
  rw [add_mul, one_mul, ← add_assoc]
  exact h

/-- The block is cleared before anything is freed. -/
theorem clearBlock_frees (io : Io) (d pos dbn : ℕ) (last : ℤ) (p : Pass) :
    Frees [] [⟨pos, d + 1, dbn⟩] p
      (clearBlock io dbn last (p.look (1 - pos - (d + 1 : ℕ)) dbn)) where
  freed := ⟨[], by simp [clearBlock, Pass.look, Store.zero], .refl _⟩
  mem y hy := update_of_ne (by simpa using hy) ..
  seen := ⟨[(1 - pos - (d + 1 : ℕ), dbn)], rfl, by simp [indirLbn]⟩

variable (g) in
/-- The blocks under the last pointer that is kept. -/
def edge (mem : ℕ → ℕ → ℕ) (d pos : ℕ) (copy : ℕ → ℕ) : ℕ → List (Node ℕ)
  | 0 => []
  | i + 1 => kid g mem d pos copy i

/-- Below different pointers are different blocks. -/
theorem kid_apart {i j : ℕ}
    (nodup : (((List.range n).flatMap (kid g mem d pos copy)).map Node.addr).Nodup) (hi : i < n)
    (hj : j < n) (hij : i ≠ j) {y : Node ℕ} (hx : x ∈ kid g mem d pos copy i)
    (hy : y ∈ kid g mem d pos copy j) : x.addr ≠ y.addr := by
  rw [map_flatMap] at nodup
  have hsymm : Std.Symm (List.Disjoint on fun j => (kid g mem d pos copy j).map Node.addr) :=
    ⟨fun _ _ h => h.symm⟩
  have hdisj := (nodup_flatMap.mp nodup).2.forall (mem_range.mpr hi)
    (mem_range.mpr hj) hij
  exact fun heq => hdisj (mem_map_of_mem hx) (heq ▸ mem_map_of_mem hy)

/-- What is freed from pointer `m` on is not under the pointers before it. -/
theorem kid_not_mem {a i : ℕ}
    (hroot : a ∉ ((List.range n).flatMap (kid g mem d pos copy)).map Node.addr)
    (nodup : (((List.range n).flatMap (kid g mem d pos copy)).map Node.addr).Nodup) (him : i < m)
    (hmn : m ≤ n) (hx : x ∈ kid g mem d pos copy i) :
    x.addr ∉ ([(⟨pos, d + 1, a⟩ : Node ℕ)] ++
      (List.range' m (n - m)).flatMap (kid g mem d pos copy)).map Node.addr := by
  intro hmem
  obtain ⟨y, hy, heq⟩ := mem_map.mp hmem
  rcases mem_append.mp hy with hy | hy
  · rw [mem_singleton.mp hy] at heq
    refine hroot ?_
    rw [show a = x.addr from heq]
    exact mem_map_of_mem (mem_flatMap.mpr ⟨i, mem_range.mpr (by omega), hx⟩)
  · obtain ⟨j, hj, hy⟩ := mem_flatMap.mp hy
    have := mem_range'_1.mp hj
    exact kid_apart nodup (by omega) (by omega) (by omega) hy hx heq

theorem mem_edge (hx : x ∈ edge g mem d pos copy m) :
    ∃ i, m = i + 1 ∧ x ∈ kid g mem d pos copy i := by
  cases m with
  | zero => cases hx
  | succ i => exact ⟨i, rfl, hx⟩

/-- Before the last pointer nothing is freed. -/
theorem filter_edge (low : ∀ j, j + 1 < m → ∀ x ∈ kid g mem d pos copy j, x.pos < K) :
    ((List.range m).flatMap (kid g mem d pos copy)).filter (K ≤ ·.pos) =
      (edge g mem d pos copy m).filter (K ≤ ·.pos) := by
  cases m with
  | zero => rfl
  | succ i =>
    rw [flatMap_range_succ, filter_append, (filter_front fun x hx => ?_).1]
    · rfl
    · obtain ⟨j, hj, hx⟩ := mem_flatMap.mp hx
      exact low j (succ_lt_succ (mem_range.mp hj)) x hx

/-- **The parts of a cut**: all is freed behind the first `m` pointers, the tree under the last of
these is cut, and those before it stay. -/
theorem cuts_of_parts {a K : ℕ} {p₁ p₂ : Pass} (hmn : m ≤ g.n)
    (hroot : a ∉ (below g.n p.s.mem (d + 1) pos a).map Node.addr)
    (nodup : ((below g.n p.s.mem (d + 1) pos a).map Node.addr).Nodup)
    (high : ∀ j, m ≤ j → ∀ x ∈ kid g p.s.mem d pos (p.s.mem a) j, K ≤ x.pos)
    (low : ∀ j, j + 1 < m → ∀ x ∈ kid g p.s.mem d pos (p.s.mem a) j, x.pos < K)
    (clear : Frees [] [⟨pos, d + 1, a⟩] p p₁)
    (cleared : p₁.s.mem a = fun j : ℕ => if (m : ℤ) - 1 < j then 0 else p.s.mem a j)
    (loop : Frees (((List.range' m (g.n - m)).flatMap (kid g p.s.mem d pos (p.s.mem a))).map
      (Balloc.whole g)) ((List.range' m (g.n - m)).flatMap (kid g p.s.mem d pos (p.s.mem a))) p₁ p₂)
    (last : Frees (((edge g p.s.mem d pos (p.s.mem a) m).filter (K ≤ ·.pos)).map (Balloc.whole g))
      (edge g p.s.mem d pos (p.s.mem a) m) p₂ p') (kept : edge g p'.s.mem d pos (p.s.mem a) m =
      (edge g p.s.mem d pos (p.s.mem a) m).filter (·.pos < K)) : Cuts g (d + 1) pos a K p p' := by
  have hbelow : below g.n p.s.mem (d + 1) pos a =
    (List.range g.n).flatMap (kid g p.s.mem d pos (p.s.mem a)) := rfl
  rw [hbelow] at hroot nodup
  generalize p.s.mem a = copy at *
  have hrest : ∀ x ∈ (List.range' m (g.n - m)).flatMap (kid g p.s.mem d pos copy),
      ∃ j, m ≤ j ∧ j < g.n ∧ x ∈ kid g p.s.mem d pos copy j := by
    intro x hx
    obtain ⟨j, hj, hx⟩ := mem_flatMap.mp hx
    have := mem_range'_1.mp hj
    exact ⟨j, by omega, by omega, hx⟩
  have hmem : ∀ {j x}, j < g.n → x ∈ kid g p.s.mem d pos copy j →
      x ∈ (List.range g.n).flatMap (kid g p.s.mem d pos copy) :=
    fun hj hx => mem_flatMap.mpr ⟨_, mem_range.mpr hj, hx⟩
  have hall := (clear.trans loop).trans last
  have hframe : p'.s.mem a = p₁.s.mem a := by
    refine (loop.trans last).mem a fun ha => hroot ?_
    obtain ⟨x, hx, rfl⟩ := mem_map.mp ha
    refine mem_map_of_mem ?_
    rcases mem_append.mp hx with hx | hx
    · obtain ⟨j, -, hj, hx⟩ := hrest x hx
      exact hmem hj hx
    · obtain ⟨i, rfl, hx⟩ := mem_edge hx
      exact hmem hmn hx
  constructor
  case frees =>
    refine hall.mono ?_ fun x hx => ?_
    · rw [hbelow, range_split hmn, flatMap_append, filter_append, filter_edge low,
        (filter_behind (l := (List.range' m _).flatMap _) fun x hx => ?_).1, map_append]
      · exact perm_append_comm
      · obtain ⟨j, hle, -, hx⟩ := hrest x hx
        exact high j hle x hx
    · rw [tree_eq, hbelow]
      rcases mem_append.mp hx with hx | hx
      · rcases mem_append.mp hx with hx | hx
        · rw [mem_singleton.mp hx]
          exact mem_cons_self ..
        · obtain ⟨j, -, hj, hx⟩ := hrest x hx
          exact mem_cons_of_mem _ (hmem hj hx)
      · obtain ⟨i, rfl, hx⟩ := mem_edge hx
        exact mem_cons_of_mem _ (hmem hmn hx)
  case below =>
    rw [hbelow, filter_flatMap]
    refine flatMap_congr fun j hj => ?_
    have hj := mem_range.mp hj
    rw [hframe, cleared]
    dsimp only
    rcases Nat.lt_or_ge j m with hlt | hge
    · rw [if_neg (by omega)]
      rcases Nat.lt_or_ge (j + 1) m with hlow | hlast
      · -- a tree in front of the edge is left alone
        rw [(filter_front (low j hlow)).2]
        refine hall.slot_eq fun x hx hchanged => ?_
        rw [map_append] at hchanged
        rcases mem_append.mp hchanged with hchanged | hchanged
        · exact kid_not_mem hroot nodup hlt hmn hx hchanged
        · obtain ⟨y, hy, heq⟩ := mem_map.mp hchanged
          obtain ⟨i, rfl, hy⟩ := mem_edge hy
          exact kid_apart nodup hmn hj (by omega) hy hx heq
      · obtain rfl : m = j + 1 := by omega
        exact kept
    · rw [if_pos (by omega), slot, if_pos rfl, (filter_behind (high j hge)).2]

/-- **One indirect block**, if the recursive calls cut the trees below. -/
theorem truncBlock_spec (hcuts : CallCuts g child d)
    (hcounted : ∀ nlbn a lastbn p, Counted p (child nlbn a lastbn p)) :
    CallCuts g (truncBlock g io child d) (d + 1) := by
  intro pos a K lastbn p hK hge hlt nodup herr
  obtain ⟨m, hmn, hidx, hltm, hzero, hmid⟩ :=
    lastIndex_eq (Nat.pow_pos g.pos) hge (by rwa [pow_succ, mul_comm] at hlt)
  have hbelow : below g.n p.s.mem (d + 1) pos a =
    (List.range g.n).flatMap (kid g p.s.mem d pos (p.s.mem a)) := rfl
  rw [tree_eq, map_cons, nodup_cons, hbelow] at nodup
  obtain ⟨hroot, nodup⟩ := nodup
  unfold truncBlock at herr ⊢
  split_ifs at herr ⊢ with hread
  have hclear := clearBlock_frees io d pos a (lastIndex (g.n ^ d) lastbn) p
  have hmem₁ : (clearBlock io a (lastIndex (g.n ^ d) lastbn)
      (p.look (1 - pos - (d + 1 : ℕ)) a)).s.mem a =
        fun j : ℕ => if (m : ℤ) - 1 < j then 0 else p.s.mem a j := by
    rw [← hidx]
    exact update_self ..
  generalize clearBlock io a (lastIndex (g.n ^ d) lastbn)
    (p.look (1 - pos - (d + 1 : ℕ)) a) = p₁ at herr hclear hmem₁
  generalize hcopy : p.s.mem a = copy at herr hroot nodup
  have hkid₁ : ∀ j ∈ List.range g.n, kid g p₁.s.mem d pos copy j = kid g p.s.mem d pos copy j := by
    intro j hj
    refine hclear.slot_eq fun x hx hmem => hroot ?_
    rw [map_singleton, mem_singleton] at hmem
    rw [← hmem]
    exact mem_map_of_mem (mem_flatMap.mpr ⟨j, hj, hx⟩)
  -- the loop works on the copy, and what is below the block has not changed by clearing it
  have hloop := freeLoop_spec hcuts hcounted copy pos
    (1 - pos - (d + 1 : ℕ) + 1 - (g.n - 1) * (g.n ^ d : ℕ)) hmn hidx (by push_cast; ring) p₁
    (by rwa [flatMap_congr hkid₁])
  unfold truncRest at herr ⊢
  dsimp only at herr ⊢
  generalize freeLoop g child copy (g.n ^ d) (lastIndex (g.n ^ d) lastbn) g.n
    (1 - pos - (d + 1 : ℕ) + 1 - (g.n - 1) * (g.n ^ d : ℕ)) p₁ = r at herr hloop
  have herr₂ : r.2.2.err = none := by
    split_ifs at herr
    · exact (hcounted ..).err herr
    · exact herr
  obtain ⟨p₂, rfl, hfrees⟩ := hloop herr₂
  have hrange : (List.range' m (g.n - m)).flatMap (kid g p₁.s.mem d pos copy) =
      (List.range' m (g.n - m)).flatMap (kid g p.s.mem d pos copy) := by
    refine flatMap_congr fun j hj => hkid₁ j (mem_range.mpr ?_)
    have := mem_range'_1.mp hj
    omega
  rw [hrange] at hfrees
  have high : ∀ j, m ≤ j → ∀ x ∈ kid g p.s.mem d pos copy j, K ≤ x.pos := by
    intro j hle x hx
    have hpos := (pos_of_mem_kid hx).1
    have hmul := mul_le_mul_right (g.n ^ d) hle
    omega
  have low : ∀ j, j + 1 < m → ∀ x ∈ kid g p.s.mem d pos copy j, x.pos < K := by
    intro j hlow x hx
    obtain ⟨i, rfl⟩ := exists_eq_succ_of_ne_zero (ne_of_gt (zero_lt_of_lt hlow))
    obtain ⟨hnonneg, heq⟩ := hmid i rfl
    have hpos := (pos_of_mem_kid hx).2
    have hmul := mul_le_mul_right (g.n ^ d) (le_of_lt_succ hlow)
    have hmod := Int.emod_nonneg lastbn
      (Int.natCast_ne_zero.mpr (Nat.pow_pos (n := d) g.pos).ne')
    omega
  subst hcopy
  generalize hp' : (if 0 ≤ lastbn ∧ p.s.mem a (m - 1) ≠ 0 then
    child (1 - (pos + ((m : ℤ) - 1) * (g.n ^ d : ℕ)) - d) (p.s.mem a (m - 1))
      (lastbn % (g.n ^ d : ℕ)) p₂ else p₂) = p' at herr
  suffices hlast : Frees _ _ p₂ p' ∧ edge g p'.s.mem d pos (p.s.mem a) m = _ from
    cuts_of_parts hmn hroot nodup high low hclear hmem₁ hfrees hlast.1 hlast.2
  -- only the tree under the last pointer that is kept may be cut in its middle
  cases m with
  | zero =>
    rw [if_neg (by rw [hzero rfl]; omega)] at hp'
    subst hp'
    exact ⟨.refl, rfl⟩
  | succ i =>
    obtain ⟨hnonneg, heq⟩ := hmid i rfl
    have hkid₂ : kid g p₂.s.mem d pos (p.s.mem a) i = kid g p.s.mem d pos (p.s.mem a) i :=
      (hclear.trans hfrees).slot_eq fun x hx =>
        kid_not_mem hroot nodup (Nat.lt_succ_self i) hmn hx
    have hnodup : ((kid g p₂.s.mem d pos (p.s.mem a) i).map Node.addr).Nodup := by
      rw [hkid₂]
      rw [map_flatMap] at nodup
      exact (nodup_flatMap.mp nodup).1 i (mem_range.mpr hmn)
    have hlbn : (1 - (pos + (((i + 1 : ℕ) : ℤ) - 1) * (g.n ^ d : ℕ)) - d : ℤ) =
        1 - (pos + i * g.n ^ d : ℕ) - d := by
      push_cast
      ring
    have hpow : (0 : ℤ) < (g.n ^ d : ℕ) := by exact_mod_cast Nat.pow_pos g.pos
    rw [hlbn] at hp'
    simp only [hnonneg, true_and] at hp'
    have hcut := cut_kid hcuts (p.s.mem a) pos i K (lastbn % (g.n ^ d : ℕ)) (by omega)
      (Int.emod_nonneg _ hpow.ne') (Int.emod_lt_of_pos _ hpow) hnodup hp'.symm herr
    rw [hkid₂] at hcut
    exact hcut

end Loop

/-- **`ffs_indirtrunc`** cuts the tree under an indirect block. -/
theorem indirtrunc_spec (level : ℕ) : CallCuts g (indirtrunc g io level) (level + 1) := by
  induction level with
  | zero =>
    refine truncBlock_spec (fun pos a K lastbn p _ _ _ _ _ => ⟨.refl, rfl⟩) fun _ _ _ _ => .refl
  | succ level ih => exact truncBlock_spec ih (indirtrunc_counted g io level)

end BSDLite2.Ffs.Balloc
