import BSDLite2.Kern.MbufOps

/-!
# Mbuf chains as byte strings (`kern/uipc_mbuf.c`)

A chain of mbufs stands for the bytes of its mbufs one after the other, and the routines of
`kern/uipc_mbuf.c` are meant as operations on these bytes, whatever the mbufs are that they are
spread over.  A chain that is a packet has its length in the header of the first mbuf too.

* `Op`, `exec` — a call, and what it leaves and returns;
* `Op.Meets` — what it is to leave and return, on the bytes;
* `Op.Fits`, `ops_refine_iff` — for which calls it does so.

Calls that do not: `m_pullup` gives up on more than `MHLEN` bytes that it would have to move;
`m_prepend` leaves the length in the header, and takes more bytes than the new mbuf has;
`m_split` forgets `m_len` of the header that it puts before an mbuf with more data than a header
has room for; `m_adj` and `m_copym` have limits on lengths that no real chain comes near.
-/

namespace BSDLite2.Mbuf

open List Option

variable (junk : Junk) {off : ℕ}

/-! ## Calls -/

/-- A call of one of the routines, on a chain. -/
inductive Op where
  | copym (off len : ℕ)
  | copydata (off len : ℕ)
  | adj (reqLen : BitVec 32)
  | cat (n : Mbufs)
  | pullup (len : ℕ)
  | prepend (len : ℕ)
  | split (len0 : ℕ)

/-- What a call leaves of the chain, and what it returns. -/
structure Done where
  chain : Mbufs
  out : Mbufs
  data : List (BitVec 8)

/-- A call, when there is memory. -/
def exec (maxProtohdr : ℕ) (c : Mbufs) : Op → Option Done
  | .copym off len => (mCopym off len c).map fun top => ⟨c, top, []⟩
  | .copydata off len => (mCopydata off len c).map fun cp => ⟨c, .null, cp⟩
  | .adj reqLen => (mAdjust reqLen c).map fun c => ⟨c, .null, []⟩
  | .cat n => some ⟨mCat c n, .null, []⟩
  | .pullup len => (mPullup maxProtohdr true len c.bufs).map fun bufs => ⟨⟨c.hdr, bufs⟩, .null, []⟩
  | .prepend len => some ⟨mPrepend junk len c, .null, []⟩
  | .split len0 => (mSplit junk len0 c).map fun r => ⟨r.1, r.2, []⟩

/-- The arguments are within the chain. -/
def Op.Within (c : Mbufs) : Op → Prop
  | .copym off len => off ≤ c.bytes.length ∧ (len = M_COPYALL ∨ off + len ≤ c.bytes.length)
  | .copydata off len => off + len ≤ c.bytes.length
  | .adj _ => True
  | .cat n => n.Wf
  | .pullup len => len ≤ c.bytes.length
  | .prepend _ => True
  | .split len0 => len0 ≤ c.bytes.length

/-- What a call is to do with the bytes. -/
def Op.Effect (c : Mbufs) (r : Done) : Op → Prop
  | .copym off len =>
    r.chain = c ∧
      r.out.bytes = if len = M_COPYALL then c.bytes.drop off else (c.bytes.drop off).take len
  | .copydata off len => r.chain = c ∧ r.data = (c.bytes.drop off).take len
  | .adj reqLen =>
    r.chain.bytes =
      if 0 ≤ reqLen.toInt then c.bytes.drop reqLen.toInt.toNat
      else c.bytes.take (c.bytes.length - (-reqLen.toInt).toNat)
  | .cat n => r.chain.bytes = c.bytes ++ n.bytes
  | .pullup len => r.chain.bytes = c.bytes ∧ len ≤ firstLen r.chain.bufs
  | .prepend len => ∃ front, front.length = len ∧ r.chain.bytes = front ++ c.bytes
  | .split len0 => r.chain.bytes = c.bytes.take len0 ∧ r.out.bytes = c.bytes.drop len0

/-- All routines but `m_cat` are to keep the length in the header right. -/
def Op.keepsLength : Op → Bool
  | .cat _ => false
  | _ => true

/-- **What a call is to do**: its effect on the bytes, with chains that are well-formed, and with
the right lengths in their headers if the chain had it. -/
structure Op.Meets (op : Op) (c : Mbufs) (r : Done) : Prop where
  effect : op.Effect c r
  chainWf : r.chain.Wf
  outWf : r.out.Wf
  sized : op.keepsLength = true → c.Sized → r.chain.Sized ∧ r.out.Sized

/-! ## Which calls do what they are to do -/

/-- **A split that goes well**: the data of the mbuf that is split fit behind a header, if there is
to be one, or the new header happens to be empty; and the length is right in a header further in
that the second chain begins with. -/
def SplitsClean (len0 : ℕ) (c : Mbufs) : Prop :=
  ∀ pre len m post, locate len0 c.bufs = some (pre, len, m, post) →
    (c.hdr.isSome → m.ext = false → MHLEN < m.bytes.length - len → junk.stale = []) ∧
      (c.hdr = none → leadsHdr (splitBuf len m post) → junk.inner = (bytesOf post).length)

/-- **A call that does what it is to do**: the arguments, and for `m_split` the remains of a freed
mbuf, with which the loops do not go astray. -/
def Op.Fits (c : Mbufs) : Op → Prop
  | .copym off len =>
    len ≤ M_COPYALL ∨ off + len = c.bytes.length ∨
      ¬ ∃ j, (bytesOf (c.bufs.take j)).length + M_COPYALL = off + len
  | .copydata _ _ => True
  | .adj reqLen =>
    reqLen ≠ BitVec.intMin 32 ∧
      (0 ≤ reqLen.toInt ∨ (-reqLen).toNat ≤ c.lastLen ∨
        c.bytes.length - (-reqLen).toNat < 2 ^ 31)
  | .cat _ => True
  | .pullup len => PullsUp len c
  | .prepend len =>
    len ≤ (if c.hdr.isSome then MHLEN else MLEN) ∧ (c.Sized → c.hdr = none ∨ len = 0)
  | .split len0 => SplitsClean junk len0 c

section

variable {junk : Junk} {maxProtohdr : ℕ} {c : Mbufs}

/-- A call does what it is to do. -/
def Refines (junk : Junk) (maxProtohdr : ℕ) (c : Mbufs) (op : Op) : Prop :=
  ∃ r, exec junk maxProtohdr c op = some r ∧ op.Meets c r

theorem seek_zero (c : List Buf) : seek 0 c = some (0, c) := by
  cases c <;> simp [seek]

/-- The header of a copy. -/
def copyHdr (off len : ℕ) (c : Mbufs) (top : List Buf) : Option ℤ :=
  if (decide (off = 0) && c.hdr.isSome) = true ∧ top ≠ [] then
    c.hdr.map fun n => if len = M_COPYALL then n - off else len
  else none

variable {len : ℕ}

theorem copyHdr_isSome {top : List Buf} (hne : top ≠ []) :
    (copyHdr off len c top).isSome = (decide (off = 0) && c.hdr.isSome) := by
  unfold copyHdr
  by_cases h : (decide (off = 0) && c.hdr.isSome) = true
  · rw [if_pos ⟨h, hne⟩, isSome_map, h]
    exact (Bool.and_eq_true_iff.mp h).2
  · rw [Bool.eq_false_iff.mpr h]
    rfl

/-- What `m_copym` copies. -/
theorem mCopym_spec (hwf : c.Wf) (hin : (Op.copym off len).Within c) :
    ∃ top, mCopym off len c = some ⟨copyHdr off len c top, top⟩ ∧
      (⟨copyHdr off len c top, top⟩ : Mbufs).Wf ∧
      (len = M_COPYALL ∨ RunsOn c.bufs off len → bytesOf top = c.bytes.drop off) ∧
      (¬ (len = M_COPYALL ∨ RunsOn c.bufs off len) →
        bytesOf top = (c.bytes.drop off).take len) := by
  obtain ⟨hoff, hlen⟩ := hin
  obtain ⟨pre, off', c', hseek, hc, hoff', hle⟩ := seek_spec c.bufs off hoff
  have hruns : RunsOn c.bufs off len ↔ RunsOn c' off' len := by rw [hc, runsOn_append hoff']
  have hdrop : c.bytes.drop off = (bytesOf c').drop off' := by
    rw [Mbufs.bytes, hc, drop_bytesOf hoff']
  have htotal : c.bytes.length = (bytesOf pre).length + (bytesOf c').length := by
    rw [Mbufs.bytes, hc, bytesOf_append, length_append]
  have hvalid : ∀ m ∈ c', m.Valid := fun m hm => hwf.valid m (hc ▸ mem_append_right _ hm)
  have hhdr : (decide (off = 0) && c.hdr.isSome) = true → ∀ m ∈ c'.head?, m.pkthdr = true := by
    intro h m hm
    rw [Bool.and_eq_true, decide_eq_true_eq] at h
    rw [h.1, seek_zero] at hseek
    obtain ⟨-, rfl⟩ := Prod.mk.inj (Option.some.inj hseek)
    have hhead := hwf.head
    rw [hm, h.2] at hhead
    exact Option.some.inj hhead
  obtain ⟨top, htop, hv, hp, hrunsOn, hstops⟩ := copyLoop_spec c' (decide (off = 0) && c.hdr.isSome)
    len off' hle hvalid hhdr (hlen.imp_right fun h => by omega)
  refine ⟨top, ?_, ⟨hv, ?_⟩, ?_, ?_⟩
  · rw [mCopym, hseek, bind_some, htop]
    rfl
  · cases top with
    | nil => rfl
    | cons m top =>
      rw [copyHdr_isSome (cons_ne_nil _ _), head?_cons, map_some, map_some, hp m rfl]
  · rw [hruns, hdrop]
    exact hrunsOn
  · rw [hruns, hdrop]
    exact hstops

theorem copym_refines_iff (hwf : c.Wf) (hin : (Op.copym off len).Within c) :
    Refines junk maxProtohdr c (.copym off len) ↔ (Op.copym off len).Fits junk c := by
  obtain ⟨top, hcopy, htop, hruns, hstops⟩ := mCopym_spec hwf hin
  obtain ⟨hoff, hlen⟩ := hin
  simp only [Refines, exec, hcopy, map_some, some.injEq, exists_eq_left']
  constructor
  · intro hmeets
    by_contra hfits
    simp only [Op.Fits, not_or, not_not, not_le] at hfits
    obtain ⟨hbig, hend, hj⟩ := hfits
    have hall : len ≠ M_COPYALL := hbig.ne'
    have heffect := hmeets.effect.2
    rw [if_neg hall, Mbufs.bytes, hruns (.inr ⟨hbig, hj⟩)] at heffect
    have hlength := congrArg List.length heffect
    rw [length_take, length_drop] at hlength
    omega
  · intro hfits
    have heffect : bytesOf top =
        if len = M_COPYALL then c.bytes.drop off else (c.bytes.drop off).take len := by
      by_cases hall : len = M_COPYALL
      · rw [if_pos hall, hruns (.inl hall)]
      rw [if_neg hall]
      by_cases hon : RunsOn c.bufs off len
      · have hend : off + len = c.bytes.length :=
          (hfits.resolve_left (not_le.mpr hon.1)).resolve_right (not_not.mpr hon.2)
        rw [hruns (.inr hon), take_of_length_le]
        rw [length_drop]
        omega
      · exact hstops fun h => h.elim hall hon
    refine ⟨⟨rfl, heffect⟩, hwf, htop, fun _ hsized => ⟨hsized, ?_⟩⟩
    intro n hn
    change n = ((bytesOf top).length : ℤ)
    unfold copyHdr at hn
    by_cases hhdr : (decide (off = 0) && c.hdr.isSome) = true ∧ top ≠ []
    · rw [if_pos hhdr] at hn
      obtain ⟨k, hk, rfl⟩ := map_eq_some_iff.mp hn
      have hoff0 : off = 0 := by simpa using (Bool.and_eq_true_iff.mp hhdr.1).1
      rw [heffect, hsized k hk]
      by_cases hall : len = M_COPYALL
      · simp [hall, hoff0]
      · rw [if_neg hall, if_neg hall, length_take, length_drop]
        omega
    · rw [if_neg hhdr] at hn
      cases hn

theorem copydata_refines (hwf : c.Wf) (hin : (Op.copydata off len).Within c) :
    Refines junk maxProtohdr c (.copydata off len) := by
  have hin' : off + len ≤ c.bytes.length := hin
  obtain ⟨pre, off', c', hseek, hc, hoff', hle⟩ := seek_spec c.bufs off
    (show off ≤ c.bytes.length by omega)
  refine ⟨⟨c, .null, copydataLoop len off' c'⟩, ?_, ⟨⟨rfl, ?_⟩, hwf, Mbufs.wf_null,
    fun _ hsized => ⟨hsized, Mbufs.sized_null⟩⟩⟩
  · rw [exec, mCopydata, hseek]
    rfl
  · rw [copydataLoop_eq c' len off' hle, Mbufs.bytes, hc, drop_bytesOf hoff']

theorem toInt_of_nonneg {n : BitVec 32} (h : 0 ≤ n.toInt) : n.toInt = n.toNat := by
  rw [BitVec.toInt_eq_toNat_cond] at h ⊢
  split_ifs at h ⊢ <;> omega

theorem neg_toNat {n : BitVec 32} (hneg : n.toInt < 0) (hmin : n ≠ BitVec.intMin 32) :
    (-n).toNat = (-n.toInt).toNat ∧ (-n).toNat < 2 ^ 31 := by
  have hint : (-n).toInt = -n.toInt := BitVec.toInt_neg_of_ne_intMin hmin
  have hpos : 0 ≤ (-n).toInt := by omega
  have hnat := toInt_of_nonneg hpos
  have hlt := (BitVec.toInt_lt (x := -n))
  exact ⟨by omega, by omega⟩

section

variable (hwf : c.Wf) (hne : c.bufs ≠ [])

include hwf hne

theorem adj_refines_iff {reqLen : BitVec 32} :
    Refines junk maxProtohdr c (.adj reqLen) ↔ (Op.adj reqLen).Fits junk c := by
  by_cases hhead : 0 ≤ reqLen.toInt
  · -- trim from the head
    have hmin : reqLen ≠ BitVec.intMin 32 := by
      rintro rfl
      exact absurd hhead (by decide)
    obtain ⟨hbytes, hleft⟩ := bytesOf_trimFront c.bufs reqLen.toInt.toNat
    obtain ⟨hv, hp⟩ := valid_trimFront c.bufs reqLen.toInt.toNat hwf.valid
    refine iff_of_true ⟨_, by rw [exec, mAdjust, if_neg hmin, mAdj, if_pos hhead]; rfl, ⟨?_,
      ⟨hv, head_of_map hp hwf.head isSome_map⟩, Mbufs.wf_null,
      fun _ hsized => ⟨?_, Mbufs.sized_null⟩⟩⟩ ⟨hmin, .inl hhead⟩
    · simp only [Op.Effect, if_pos hhead]
      exact hbytes
    · intro n hn
      obtain ⟨k, hk, rfl⟩ := map_eq_some_iff.mp hn
      change k - (reqLen.toInt - ((trimFront reqLen.toInt.toNat c.bufs).2 : ℤ)) =
        ((bytesOf (trimFront reqLen.toInt.toNat c.bufs).1).length : ℤ)
      rw [hbytes, hsized k hk, length_drop]
      simp only [Mbufs.bytes]
      omega
  · -- trim from the tail
    have hneg : reqLen.toInt < 0 := not_le.mp hhead
    by_cases hmin : reqLen = BitVec.intMin 32
    · refine iff_of_false ?_ fun h => h.1 hmin
      rintro ⟨r, hr, -⟩
      subst hmin
      cases hr
    obtain ⟨hnat, hlt⟩ := neg_toNat hneg hmin
    have hfits : (Op.adj reqLen).Fits junk c ↔
        (-reqLen).toNat ≤ c.lastLen ∨ c.bytes.length - (-reqLen).toNat < 2 ^ 31 := by
      simp only [Op.Fits, hhead, false_or, ne_eq, hmin, not_false_iff, true_and]
    have heffect : (Op.adj reqLen).Effect c ⟨trimBack (-reqLen).toNat c, .null, []⟩ ↔
        (trimBack (-reqLen).toNat c).bytes =
          c.bytes.take (c.bytes.length - (-reqLen).toNat) := by
      simp only [Op.Effect, if_neg hhead, hnat]
    -- the call succeeds: what is left to see is the number of bytes that it keeps
    simp only [Refines, exec, mAdjust, if_neg hmin, mAdj, if_neg hhead, ← hnat, map_some,
      some.injEq, exists_eq_left', hfits]
    by_cases hlast : (-reqLen).toNat ≤ c.lastLen
    · obtain ⟨hbytes, hwf', hhdr, hle⟩ := trimBack_last hwf hne hlast
      refine iff_of_true ⟨heffect.mpr hbytes, hwf', Mbufs.wf_null,
        fun _ hsized => ⟨fun n hn => ?_, Mbufs.sized_null⟩⟩ (.inl hlast)
      rw [hhdr] at hn
      obtain ⟨k, hk, rfl⟩ := map_eq_some_iff.mp hn
      rw [hbytes, hsized k hk, length_take]
      omega
    · obtain ⟨hbytes, hwf', hhdr⟩ := trimBack_count hwf hne hlast
      by_cases hint : c.bytes.length - (-reqLen).toNat < 2 ^ 31
      · rw [tailCount_eq hlt hint] at hbytes hhdr
        refine iff_of_true ⟨heffect.mpr hbytes, hwf', Mbufs.wf_null,
          fun _ hsized => ⟨fun n hn => ?_, Mbufs.sized_null⟩⟩ (.inr hint)
        rw [hhdr] at hn
        obtain ⟨k, -, rfl⟩ := map_eq_some_iff.mp hn
        rw [hbytes, length_take]
        omega
      · refine iff_of_false (fun h => ?_) fun h => h.elim hlast hint
        have hlength := congrArg List.length (hbytes.symm.trans (heffect.mp h.effect))
        have := tailCount_lt hint
        rw [length_take, length_take] at hlength
        omega

theorem cat_refines {n : Mbufs} (hn : n.Wf) : Refines junk maxProtohdr c (.cat n) := by
  obtain ⟨hbytes, hv, hp⟩ := catBufs_spec c.bufs n.bufs hne hwf.valid hn.valid
  refine ⟨_, rfl, ⟨hbytes, ⟨hv, ?_⟩, Mbufs.wf_null, nofun⟩⟩
  change (catBufs c.bufs n.bufs).head?.map Buf.pkthdr =
    (catBufs c.bufs n.bufs).head?.map fun _ => c.hdr.isSome
  rw [hp, hwf.head]
  obtain ⟨m, rest, hbufs⟩ := exists_cons_of_ne_nil hne
  cases hcat : catBufs c.bufs n.bufs with
  | nil =>
    rw [hcat, hbufs] at hp
    cases hp
  | cons m' rest' => rw [hbufs]; rfl

theorem pullup_refines_iff (hin : (Op.pullup len).Within c) :
    Refines junk maxProtohdr c (.pullup len) ↔ (Op.pullup len).Fits junk c := by
  by_cases hup : PullsUp len c
  · obtain ⟨bufs, hpull, hv, hp⟩ := mPullup_total maxProtohdr hwf hne hin hup
    obtain ⟨hbytes, hfirst⟩ := mPullup_spec hpull
    refine iff_of_true ⟨⟨⟨c.hdr, bufs⟩, .null, []⟩, by rw [exec, hpull, map_some],
      ⟨⟨hbytes, hfirst⟩, ⟨hv, ?_⟩, Mbufs.wf_null, fun _ hsized => ⟨fun n hn => ?_,
        Mbufs.sized_null⟩⟩⟩ hup
    · cases bufs with
      | nil => rfl
      | cons m rest => exact hp
    · rw [hsized n hn]
      exact congrArg (fun l : List (BitVec 8) => (l.length : ℤ)) hbytes.symm
  · refine iff_of_false ?_ hup
    rintro ⟨r, hr, -⟩
    rw [exec, mPullup_none hup] at hr
    cases hr

end

theorem prepend_refines_iff (hwf : c.Wf) :
    Refines junk maxProtohdr c (.prepend len) ↔ (Op.prepend len).Fits junk c := by
  have hbytes : (mPrepend junk len c).bytes = (List.range len).map junk.fresh ++ c.bytes := by
    rw [Mbufs.bytes, mPrepend, bytesOf_cons, bytesOf_clearHdr]
    rfl
  have hlength : (mPrepend junk len c).bytes.length = len + c.bytes.length := by
    rw [hbytes, length_append, length_map, length_range]
  have hvalid : (∀ m ∈ (mPrepend junk len c).bufs, m.Valid) ↔
      len ≤ if c.hdr.isSome then MHLEN else MLEN := by
    simp only [mPrepend, forall_mem_cons]
    rw [and_iff_left (valid_clearHdr hwf.valid)]
    simp only [Buf.Valid, length_map, length_range, Bool.false_eq_true, false_implies,
      true_and, forall_const, aligned]
    have hstart : len + (if len < MHLEN then (MHLEN - len) / 4 * 4 else 0) ≤ max len MHLEN ∧
        len ≤ len + if len < MHLEN then (MHLEN - len) / 4 * 4 else 0 := by
      split_ifs <;> omega
    cases c.hdr.isSome <;> simp only [origin, MLEN, MHLEN, Bool.false_eq_true, if_false, if_true,
      false_implies, and_true, forall_const] at hstart ⊢ <;> omega
  simp only [Refines, exec, some.injEq, exists_eq_left']
  constructor
  · intro h
    refine ⟨hvalid.mp h.chainWf.valid, fun hsized => ?_⟩
    cases hhdr : c.hdr with
    | none => exact .inl rfl
    | some n =>
      have hnew : n = ((mPrepend junk len c).bytes.length : ℤ) := (h.sized rfl hsized).1 n hhdr
      have hold := hsized n hhdr
      exact .inr (by omega)
  · rintro ⟨hfits, hlen⟩
    refine ⟨⟨_, by rw [length_map, length_range], hbytes⟩, ⟨hvalid.mpr hfits, rfl⟩,
      Mbufs.wf_null, fun _ hsized => ⟨fun n hn => ?_, Mbufs.sized_null⟩⟩
    rw [hlength, hsized n hn]
    rcases hlen hsized with hnone | h0
    · rw [show c.hdr = some n from hn] at hnone
      cases hnone
    · omega

theorem split_refines_iff (hwf : c.Wf) (hne : c.bufs ≠ []) {len0 : ℕ}
    (hin : (Op.split len0).Within c) :
    Refines junk maxProtohdr c (.split len0) ↔ (Op.split len0).Fits junk c := by
  obtain ⟨pre, len, m, post, hloc, hbufs, hlen0, hlen⟩ := locate_spec c.bufs len0 hne hin
  have hfits : (Op.split len0).Fits junk c ↔
      (c.hdr.isSome → m.ext = false → MHLEN < m.bytes.length - len → junk.stale = []) ∧
        (c.hdr = none → leadsHdr (splitBuf len m post) → junk.inner = (bytesOf post).length) := by
    refine ⟨fun h => h pre len m post hloc, fun h pre' len' m' post' hloc' => ?_⟩
    cases hloc.symm.trans hloc'
    exact h
  have hm : m.Valid := hwf.valid m (by simp [hbufs])
  have hpost : ∀ n ∈ post, n.Valid := fun n hn => hwf.valid n (by simp [hbufs, hn])
  have hrest := split_second hbufs hlen0 hlen
  have hlast : c.bytes.length = len0 + (c.bytes.drop len0).length := by
    have : len0 ≤ c.bytes.length := hin
    rw [length_drop]
    omega
  rw [hfits]
  cases hhdr : c.hdr with
  | none =>
    obtain ⟨hfirst, hwf1⟩ := split_first hwf hbufs hlen0 hlen none (by rw [hhdr])
    -- a part of an mbuf has no header: the second chain is what follows
    have hleads : leadsHdr (splitBuf len m post) = true → bytesOf (splitBuf len m post) =
        bytesOf post := by
      unfold splitBuf
      split_ifs
      · exact fun _ => rfl
      · exact nofun
    simp only [Refines, exec, mSplit, hloc, hhdr, map_some, some.injEq, exists_eq_left']
    constructor
    · intro h
      refine ⟨nofun, fun _ hl => ?_⟩
      have hsized := (h.sized rfl fun n hn => by rw [hhdr] at hn; cases hn).2 junk.inner
        (by rw [if_pos hl]; rfl)
      rw [← hleads hl]
      exact hsized
    · rintro ⟨-, hinner⟩
      refine ⟨⟨hfirst, by rw [hrest]; exact bytesOf_splitBuf post⟩, hwf1,
        ⟨valid_splitBuf hm hpost, leadsHdr_iff⟩, fun _ _ => ⟨nofun, fun k hk => ?_⟩⟩
      change k = ((bytesOf (splitBuf len m post)).length : ℤ)
      split_ifs at hk with hl
      · obtain rfl := Option.some.inj hk
        rw [hleads hl, hinner trivial hl]
      · cases hk
  | some n =>
    obtain ⟨hfirst, hwf1⟩ := split_first hwf hbufs hlen0 hlen (some (len0 : ℤ))
      (by rw [hhdr]; rfl)
    have hfirstLen : (c.bytes.take len0).length = len0 := by
      rw [length_take]
      omega
    have hmeets {second : List Buf} (hout : bytesOf second = c.bytes.drop len0)
        (hwf2 : (⟨some (n - len0), second⟩ : Mbufs).Wf) : (Op.split len0).Meets c
          ⟨⟨some len0, pre ++ [headBuf len m]⟩, ⟨some (n - len0), second⟩, []⟩ := by
      refine ⟨⟨hfirst, hout⟩, hwf1, hwf2, fun _ hsized => ⟨fun k hk => ?_, fun k hk => ?_⟩⟩
      · obtain rfl := Option.some.inj hk
        rw [hfirst, hfirstLen]
      · obtain rfl := Option.some.inj hk
        change n - len0 = ((bytesOf second).length : ℤ)
        rw [hout, hsized n hhdr]
        omega
    by_cases hbig : m.ext = false ∧ m.bytes.length - len > MHLEN
    · have hout : bytesOf (leadBuf junk :: splitBuf len m post) =
          junk.stale ++ c.bytes.drop len0 := by
        rw [bytesOf_cons, bytesOf_splitBuf, hrest]
        rfl
      simp only [Refines, exec, mSplit, hloc, hhdr, map_some, if_pos hbig, some.injEq,
        exists_eq_left']
      constructor
      · intro h
        refine ⟨fun _ _ _ => ?_, nofun⟩
        exact append_left_eq_self.mp (hout.symm.trans h.effect.2)
      · rintro ⟨hstale, -⟩
        have hstale := hstale rfl hbig.1 hbig.2
        rw [hstale] at hout
        have hlead : (leadBuf junk).Valid := by
          simp [Buf.Valid, leadBuf, hstale, origin, aligned, MLEN, MHLEN]
        exact hmeets hout
          ⟨forall_mem_cons.mpr ⟨hlead, valid_splitBuf hm hpost⟩, rfl⟩
    · have hout : bytesOf (tailBuf true len m :: post) = c.bytes.drop len0 := by
        rw [bytesOf_cons, hrest]
        rfl
      have htail : (tailBuf true len m).Valid :=
        valid_tailBuf hm fun _ hext => not_lt.mp fun h => hbig ⟨hext, h⟩
      simp only [Refines, exec, mSplit, hloc, hhdr, map_some, if_neg hbig, some.injEq,
        exists_eq_left']
      exact iff_of_true (hmeets hout ⟨forall_mem_cons.mpr ⟨htail, hpost⟩, rfl⟩)
        ⟨fun _ hext h => absurd ⟨hext, h⟩ hbig, nofun⟩

end

/-- **The mbuf routines refine operations on byte strings**, for every chain and all arguments
within it, if and only if the call is one that fits. -/
theorem ops_refine_iff (maxProtohdr : ℕ) (c : Mbufs) (op : Op) (hwf : c.Wf) (hne : c.bufs ≠ [])
    (hin : op.Within c) :
    (∃ r, exec junk maxProtohdr c op = some r ∧ op.Meets c r) ↔ op.Fits junk c := by
  cases op with
  | copym off len => exact copym_refines_iff hwf hin
  | copydata off len => exact iff_of_true (copydata_refines hwf hin) trivial
  | adj reqLen => exact adj_refines_iff hwf hne
  | cat n => exact iff_of_true (cat_refines hwf hne hin) trivial
  | pullup len => exact pullup_refines_iff hwf hne hin
  | prepend len => exact prepend_refines_iff hwf
  | split len0 => exact split_refines_iff hwf hne hin

/-- A packet in a header of ten bytes, an empty mbuf, and a full one. -/
def threeBufs : Mbufs where
  hdr := some 118
  bufs := [⟨false, true, 8, List.replicate 10 1⟩, ⟨false, false, 0, []⟩,
    ⟨false, false, 0, List.replicate 108 2⟩]

theorem wf_threeBufs : threeBufs.Wf := by
  refine ⟨?_, rfl⟩
  simp [threeBufs, Buf.Valid, MLEN, MHLEN]

/-- Twenty bytes of the packet are split off. -/
theorem ops_refine_split_twenty :
    (∃ r, exec ⟨fun _ => 0, [0, 0], 0⟩ 40 threeBufs (.split 20) = some r ∧
      (Op.split 20).Meets threeBufs r) := by
  have hin : (Op.split 20).Within threeBufs := by simp [Op.Within, Mbufs.bytes, threeBufs]
  refine (ops_refine_iff ⟨fun _ => 0, [0, 0], 0⟩ 40 threeBufs (.split 20) wf_threeBufs
    (cons_ne_nil _ _) hin).mpr ?_
  intro pre len m post hloc
  obtain ⟨-, rfl, rfl, -⟩ : pre = _ ∧ len = _ ∧ m = _ ∧ post = _ := by
    simpa [locate, threeBufs, eq_comm] using hloc
  exact ⟨fun _ _ h => by simp [MHLEN] at h, by simp [threeBufs]⟩

/-- Fifteen bytes are split off: 103 bytes of the full mbuf are too many for a header, which goes
before them with a length that was left in memory. -/
theorem split_stale_header :
    ∃ r, exec ⟨fun _ => 0, [0xde, 0xad], 0⟩ 40 threeBufs (.split 15) = some r ∧
      threeBufs.Sized ∧ r.out.bytes = [0xde, 0xad] ++ threeBufs.bytes.drop 15 ∧
      ¬ (Op.split 15).Meets threeBufs r := by
  refine ⟨_, rfl, fun n hn => ?_, rfl, fun h => ?_⟩
  · obtain rfl := Option.some.inj hn
    rfl
  · have hlength := congrArg List.length h.effect.2
    exact absurd hlength (by decide)

/-! ## Splitting without memory -/

/-- `m_split` where `MGETHDR` and `MGET` may find no mbuf: the chain that is left, and the second
one, if it does not return 0. -/
def trySplit (gethdr get : Bool) (len0 : ℕ) (c : Mbufs) : Mbufs × Option Mbufs :=
  match locate len0 c.bufs, mSplit junk len0 c with
  | some (_, len, m, _), some (b, n) =>
    match c.hdr with
    | some _ =>
      if gethdr = false then (c, none)
      else if m.ext = false ∧ m.bytes.length - len > MHLEN ∧ get = false then
        -- the length in the header has been set when the call for the rest fails
        (⟨some len0, c.bufs⟩, none)
      else (b, some n)
    | none =>
      if m.bytes.length - len ≠ 0 ∧ get = false then (c, none)
      else (b, if n.bufs = [] then none else some n)
  | _, _ => (c, none)

/-- The second mbuf is not found, for more data than fit behind the header. -/
def FailsLate (gethdr get : Bool) (len0 : ℕ) (c : Mbufs) : Prop :=
  gethdr = true ∧ get = false ∧ (∃ n, c.hdr = some n ∧ n ≠ len0) ∧
    ∃ pre len m post, locate len0 c.bufs = some (pre, len, m, post) ∧ m.ext = false ∧
      m.bytes.length - len > MHLEN

/-- **A split that returns 0** leaves the chain as it was, unless it fails late. -/
theorem failed_split_iff (gethdr get : Bool) (len0 : ℕ) (c : Mbufs) (hne : c.bufs ≠ [])
    (hin : len0 ≤ c.bytes.length) (failed : (trySplit junk gethdr get len0 c).2 = none) :
    (trySplit junk gethdr get len0 c).1 = c ↔ ¬ FailsLate gethdr get len0 c := by
  obtain ⟨pre, len, m, post, hloc, hbufs, -, hlen⟩ := locate_spec c.bufs len0 hne hin
  have late : FailsLate gethdr get len0 c ↔ gethdr = true ∧ get = false ∧
      (∃ n, c.hdr = some n ∧ n ≠ len0) ∧ m.ext = false ∧ m.bytes.length - len > MHLEN := by
    simp [FailsLate, hloc]
  rw [late]
  obtain ⟨hdr, bufs⟩ := c
  dsimp only at hbufs
  cases hdr with
  | some n =>
    simp only [trySplit, mSplit, hloc, map_some] at failed ⊢
    split_ifs at failed with nothing tail
    · simp [nothing]
    · simp [nothing, tail, eq_comm]
  | none =>
    simp only [trySplit, mSplit, hloc, map_some] at failed ⊢
    split_ifs at failed ⊢ with nothing last
    · simp
    · have hend : m.bytes.length ≤ len ∧ post = [] := by
        unfold splitBuf at last
        split_ifs at last with h
        exact ⟨by omega, last⟩
      have hwhole : headBuf len m = m := by rw [headBuf, take_of_length_le hend.1]
      simp [hwhole, hbufs, hend.2]

theorem failed_split_nothing :
    (trySplit ⟨fun _ => 0, [], 0⟩ false false 15 threeBufs).2 = none ∧
      (trySplit ⟨fun _ => 0, [], 0⟩ false false 15 threeBufs).1 = threeBufs :=
  ⟨rfl, (failed_split_iff ⟨fun _ => 0, [], 0⟩ false false 15 threeBufs (cons_ne_nil _ _)
    (by decide) rfl).mpr fun late => nomatch late.1⟩

/-- Fifteen bytes are split off, and there is no mbuf for the others: the header says that the
packet has fifteen bytes. -/
theorem split_fails_late :
    (trySplit ⟨fun _ => 0, [], 0⟩ true false 15 threeBufs).2 = none ∧
      (trySplit ⟨fun _ => 0, [], 0⟩ true false 15 threeBufs).1.hdr = some 15 ∧
      threeBufs.hdr = some 118 :=
  ⟨rfl, rfl, rfl⟩

end BSDLite2.Mbuf
