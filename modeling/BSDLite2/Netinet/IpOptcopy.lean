import BSDLite2.Netinet.IpFrag

/-!
# The options of a fragment (`ip_optcopy` of `netinet/ip_output.c`)

`ip_optcopy` copies to the header of a fragment the options that all fragments are to have.  The
comment in it says that bogus lengths have been caught by `ip_dooptions`; a header that a
process has written itself has not been there.

* `Item`, `items` — the list of options of a header, as far as the loop gets;
* `emitted` — what the loop writes for them, `wanted` — what should be written: the options
  with the copied bit, each with the NOPs before it;
* `optcopyLoop_eq` — the loop writes `emitted`, and ends only if no length is zero
  (`optcopyLoop_stuck`);
* `optcopy_exact_iff` — `ip_optcopy` returns what is wanted if and only if no length is zero
  and no NOP stands before anything but an option that is copied.
-/

namespace BSDLite2.IpFrag

open List Option

/-! ## Lists of options -/

/-- An option of a header: a NOP, or one with a length, cut off where the header ends. -/
inductive Item where
  | nop
  | opt (bytes : List (BitVec 8))

/-- The options of a header before the end of the list, if none of them has length zero.  The
length of an option that begins with the last byte is `beyond`. -/
def items (beyond : BitVec 8) : ℕ → List (BitVec 8) → Option (List Item)
  | 0, _ => none
  | _ + 1, [] => some []
  | fuel + 1, opt :: cp =>
    if opt = IPOPT_EOL then some []
    else if opt = IPOPT_NOP then (items beyond fuel cp).map (.nop :: ·)
    else if optLen beyond (opt :: cp) = 0 then none
    else
      (items beyond fuel ((opt :: cp).drop (optLen beyond (opt :: cp)))).map
        (.opt ((opt :: cp).take (optLen beyond (opt :: cp))) :: ·)

/-- The first option that is not a NOP is there, and is to be copied. -/
def leads : List Item → Bool
  | [] => false
  | .nop :: is => leads is
  | .opt bytes :: _ => ipoptCopied (bytes.headD 0)

/-- **What should be written**: the options with the copied bit, with the NOPs before them. -/
def wanted : List Item → List (BitVec 8)
  | [] => []
  | .nop :: is => (if leads is then [IPOPT_NOP] else []) ++ wanted is
  | .opt bytes :: is => (if ipoptCopied (bytes.headD 0) then bytes else []) ++ wanted is

/-- What the loop writes: every NOP. -/
def emitted : List Item → List (BitVec 8)
  | [] => []
  | .nop :: is => IPOPT_NOP :: emitted is
  | .opt bytes :: is => (if ipoptCopied (bytes.headD 0) then bytes else []) ++ emitted is

/-- Every NOP stands before an option that is copied, with nothing but NOPs between. -/
def noStray : List Item → Bool
  | [] => true
  | .nop :: is => leads is && noStray is
  | .opt _ :: is => noStray is

/-! ## The loop -/

section Loop

variable {beyond : BitVec 8} {fuel : ℕ} {cp : List (BitVec 8)} {is : List Item}

/-- Cutting an option off at the end of the header is what `take` and `drop` do. -/
theorem take_drop_min (n : ℕ) (cp : List (BitVec 8)) :
    cp.take (min n cp.length) = cp.take n ∧ cp.drop (min n cp.length) = cp.drop n := by
  by_cases h : n ≤ cp.length
  · rw [min_eq_left h]
    exact ⟨rfl, rfl⟩
  · rw [min_eq_right (not_le.mp h).le, take_of_length_le (not_le.mp h).le,
      drop_of_length_le (not_le.mp h).le, take_length, drop_length]
    exact ⟨rfl, rfl⟩

/-- **The loop writes** the options that are copied and every NOP. -/
theorem optcopyLoop_eq (h : items beyond fuel cp = some is) :
    optcopyLoop beyond fuel cp = some (emitted is) := by
  induction fuel generalizing cp is with
  | zero => cases h
  | succ fuel ih =>
    cases cp with
    | nil =>
      cases h
      rfl
    | cons opt cp =>
      rw [items] at h
      split_ifs at h with heol hnop hzero
      · cases h
        exact if_pos heol
      · obtain ⟨is, his, rfl⟩ := map_eq_some_iff.mp h
        rw [optcopyLoop, if_neg heol, if_pos hnop, ih his]
        rfl
      · obtain ⟨is, his, rfl⟩ := map_eq_some_iff.mp h
        obtain ⟨htake, hdrop⟩ := take_drop_min (optLen beyond (opt :: cp)) (opt :: cp)
        have hhead : ((opt :: cp).take (optLen beyond (opt :: cp))).headD 0 = opt := by
          obtain ⟨n, hn⟩ := Nat.exists_eq_succ_of_ne_zero hzero
          rw [hn, take_succ_cons, headD_cons]
        rw [optcopyLoop, if_neg heol, if_neg hnop]
        simp only [htake, hdrop, ih his, map_some, emitted, hhead]

/-- With a length of zero the loop goes on forever. -/
theorem optcopyLoop_stuck (hfuel : cp.length < fuel) (h : items beyond fuel cp = none) (fuel' : ℕ) :
    optcopyLoop beyond fuel' cp = none := by
  induction fuel generalizing cp fuel' with
  | zero => exact absurd hfuel (Nat.not_lt_zero _)
  | succ fuel ih =>
    cases cp with
    | nil => cases h
    | cons opt cp =>
      rw [items] at h
      split_ifs at h with heol hnop hzero
      · have hrest := ih (by simpa using hfuel) (map_eq_none_iff.mp h)
        cases fuel' with
        | zero => rfl
        | succ fuel' => rw [optcopyLoop, if_neg heol, if_pos hnop, hrest, map_none]
      · induction fuel' with
        | zero => rfl
        | succ fuel' ihf =>
          rw [optcopyLoop, if_neg heol, if_neg hnop, hzero]
          simp only [Nat.zero_min, drop_zero, ihf, map_none]
      · have hshorter : ((opt :: cp).drop (optLen beyond (opt :: cp))).length < fuel := by
          rw [length_drop]
          simp only [length_cons] at hfuel ⊢
          omega
        have hrest := ih hshorter (map_eq_none_iff.mp h)
        cases fuel' with
        | zero => rfl
        | succ fuel' =>
          rw [optcopyLoop, if_neg heol, if_neg hnop]
          simp only [(take_drop_min _ _).2, hrest, map_none]

/-- However long the loop may take, it writes the same. -/
theorem optcopyLoop_unique {fuel' : ℕ} {dp dp' : List (BitVec 8)}
    (h : optcopyLoop beyond fuel cp = some dp) (h' : optcopyLoop beyond fuel' cp = some dp') :
    dp = dp' := by
  induction fuel generalizing cp fuel' dp dp' with
  | zero => cases h
  | succ fuel ih =>
    cases fuel' with
    | zero => cases h'
    | succ fuel' =>
      cases cp with
      | nil =>
        cases h
        cases h'
        rfl
      | cons opt cp =>
        rw [optcopyLoop] at h h'
        by_cases heol : opt = IPOPT_EOL
        · rw [if_pos heol] at h h'
          exact Option.some.inj (h.symm.trans h')
        rw [if_neg heol] at h h'
        by_cases hnop : opt = IPOPT_NOP
        · rw [if_pos hnop] at h h'
          obtain ⟨d, hd, rfl⟩ := map_eq_some_iff.mp h
          obtain ⟨d', hd', rfl⟩ := map_eq_some_iff.mp h'
          rw [ih hd hd']
        · rw [if_neg hnop] at h h'
          obtain ⟨d, hd, rfl⟩ := map_eq_some_iff.mp h
          obtain ⟨d', hd', rfl⟩ := map_eq_some_iff.mp h'
          rw [ih hd hd']

theorem length_emitted (h : items beyond fuel cp = some is) : (emitted is).length ≤ cp.length := by
  induction fuel generalizing cp is with
  | zero => cases h
  | succ fuel ih =>
    cases cp with
    | nil =>
      cases h
      exact le_rfl
    | cons opt cp =>
      rw [items] at h
      split_ifs at h with hzero
      · cases h
        exact Nat.zero_le _
      · obtain ⟨is, his, rfl⟩ := map_eq_some_iff.mp h
        exact Nat.succ_le_succ (ih his)
      · obtain ⟨is, his, rfl⟩ := map_eq_some_iff.mp h
        have hrest := ih his
        rw [length_drop] at hrest
        rw [emitted, length_append]
        split_ifs
        · rw [length_take]
          omega
        · rw [length_nil]
          omega

end Loop

/-! ## What is wanted -/

section Wanted

variable {is : List Item}

theorem emitted_eq_wanted (h : noStray is = true) : emitted is = wanted is := by
  induction is with
  | nil => rfl
  | cons i is ih =>
    cases i with
    | nop =>
      rw [noStray, Bool.and_eq_true] at h
      rw [emitted, wanted, if_pos h.1, ih h.2]
      rfl
    | opt bytes => rw [emitted, wanted, ih h]

/-- The loop writes no fewer NOPs than are wanted, and more if one is stray. -/
theorem count_wanted (is : List Item) :
    (wanted is).count IPOPT_NOP ≤ (emitted is).count IPOPT_NOP ∧
      (noStray is = false →
        (wanted is).count IPOPT_NOP < (emitted is).count IPOPT_NOP) := by
  induction is with
  | nil => exact ⟨le_rfl, nofun⟩
  | cons i is ih =>
    obtain ⟨hle, hlt⟩ := ih
    cases i with
    | nop =>
      rw [wanted, emitted, count_append, count_cons_self, noStray]
      cases hleads : leads is with
      | true =>
        rw [if_pos rfl, count_singleton_self]
        exact ⟨by omega, fun h => by have := hlt h; omega⟩
      | false =>
        rw [if_neg Bool.false_ne_true, count_nil]
        exact ⟨by omega, fun _ => by omega⟩
    | opt bytes =>
      rw [wanted, emitted, count_append, count_append]
      exact ⟨by omega, fun h => by have := hlt h; omega⟩

theorem count_padOptions (dp : List (BitVec 8)) :
    (padOptions dp).count IPOPT_NOP = dp.count IPOPT_NOP := by
  rw [padOptions, count_append, count_replicate]
  rfl

/-- Padding does not hide a stray NOP. -/
theorem padOptions_emitted_iff :
    padOptions (emitted is) = padOptions (wanted is) ↔ noStray is = true := by
  constructor
  · intro h
    by_contra hstray
    have hlt := (count_wanted is).2 (Bool.not_eq_true _ ▸ hstray)
    have hcount := congrArg (List.count IPOPT_NOP) h
    rw [count_padOptions, count_padOptions] at hcount
    omega
  · intro h
    rw [emitted_eq_wanted h]

end Wanted

/-- **`ip_optcopy` is exact**: it ends and its copy has the options that are wanted, padded to a
multiple of 4, and is not longer than the original, if and only if no option has length zero and
no NOP is stray. -/
theorem optcopy_exact_iff (beyond : BitVec 8) (m : Packet) :
    (∃ fuel dp is, optcopyLoop beyond fuel m.opts = some dp ∧
        items beyond (m.opts.length + 1) m.opts = some is ∧
        padOptions dp = padOptions (wanted is) ∧ (padOptions dp).length ≤ m.opts.length) ↔
      ∃ is, items beyond (m.opts.length + 1) m.opts = some is ∧ noStray is = true := by
  constructor
  · rintro ⟨fuel, dp, is, hloop, his, hpad, -⟩
    refine ⟨is, his, padOptions_emitted_iff.mp ?_⟩
    rwa [← optcopyLoop_unique (optcopyLoop_eq his) hloop] at hpad
  · rintro ⟨is, his, hstray⟩
    refine ⟨_, emitted is, is, optcopyLoop_eq his, his, padOptions_emitted_iff.mpr hstray, ?_⟩
    have hlen := length_emitted his
    have hwords := m.hlen_eq
    rw [padOptions, length_append, length_replicate]
    omega

/-- A header with an option of length zero. -/
def bogus : Packet where
  ip := { ipHl := 6, ipTos := 0, ipLen := 2000, ipId := 7, ipOff := 0, ipTtl := 64, ipP := 255,
          ipSrc := 0x0a000001, ipDst := 0x0a000002 }
  opts := [130, 0, 0, 0]
  data := []
  hlen_eq := rfl

/-- `ip_optcopy` does not return from it. -/
theorem optcopy_forever : ¬ ∃ fuel dp, optcopyLoop 0 fuel bogus.opts = some dp := by
  rintro ⟨fuel, dp, h⟩
  have hstuck : items 0 5 bogus.opts = none := by decide
  rw [optcopyLoop_stuck (show bogus.opts.length < 5 by decide) hstuck] at h
  cases h

end BSDLite2.IpFrag
