import BSDLite2.Lib.Marking

/-!
# Collection of descriptors in messages (`kern/uipc_usrreq.c`)

A file that is only referred to from messages (`f_count == f_msgcount`) may be one that
nobody can receive any more.  `unp_gc` marks the files that processes have, then those in
messages on sockets that are marked, and takes the others for garbage: it flushes their
receive buffers and closes them.

It looks at the receive buffers of sockets that belong to a file.  A connection that waits
to be accepted is a socket without a file, on a queue of the listening socket, and the
files in its receive buffer are not marked.  And it takes any file for a socket.  Between
marking and sweeping it may sleep for memory, so that the table it sweeps is not the one it
has marked: a file that was opened and sent in the meantime has no mark.

The marking loop is an instance of `Marking.Marks`: what is marked can be reached, and what is
marked and not deferred has marked successors.  It ends because every turn that does anything
marks a file or visits one that was deferred (`left`), and `unp_defer` counts the latter.

* `unpScan`, `unpMark`, `visit`, `unpGc` — the code;
* `Table.rights` — what can be received from a socket, as it should be;
* `Table.received`, `Table.AtHand` — what can be had without accepting a connection;
* `markLoop_exact` — the loop marks what can be reached through messages on marked sockets;
* `unpGc_eq` — the loop ends, and what is collected is what cannot be reached through what
  `unp_gc` looks at;
* `unpGc_safe_iff` — when it is garbage;
* `pending_lost` — files that could still be received, and one that is not a socket.
-/

namespace BSDLite2.UnpGc

open Function Marking List

/-! ## Files, sockets and messages -/

/-- `SOL_SOCKET` -/
def solSocket : ℕ := 0xffff

/-- `SCM_RIGHTS` -/
def scmRights : ℕ := 1

/-- `struct cmsghdr` and the pointers that follow it. -/
structure Cmsg (F : Type) where
  level : ℕ
  type : ℕ
  files : List F

/-- An mbuf: one of type `MT_CONTROL` has a message, unless it is too short for the header. -/
inductive Mbuf (F : Type) where
  | other
  | control (cm : Option (Cmsg F))

/-- `struct socket` -/
structure Socket (F S : Type) where
  /-- of `unixdomain`, with `PR_RIGHTS` -/
  passesRights : Bool
  /-- the records of `so_rcv` -/
  rcv : List (List (Mbuf F)) := []
  /-- `so_q0` -/
  q0 : List S := []
  /-- `so_q` -/
  q : List S := []

/-- `f_type` and `f_data` -/
inductive Data (S : Type) where
  | vnode
  | socket (so : Option S)
  deriving DecidableEq

/-- `struct file` -/
structure File (S : Type) where
  count : ℕ
  msgcount : ℕ
  data : Data S

/-- The file table and the sockets. -/
structure Table (F S : Type) where
  /-- the list `filehead` -/
  files : List F
  file : F → File S
  sockets : List S
  socket : S → Socket F S

variable {F S : Type}

/-! ## The code -/

/-- The loop of `unp_scan` over the mbufs of a record. -/
def scanRecord {σ : Type} (op : σ → F → σ) : List (Mbuf F) → σ → σ
  | [], st => st
  | .control (some cm) :: m, st =>
    if cm.level ≠ solSocket ∨ cm.type ≠ scmRights then scanRecord op m st
    else cm.files.foldl op st
  | _ :: m, st => scanRecord op m st

/-- `unp_scan` -/
def unpScan {σ : Type} (m0 : List (List (Mbuf F))) (op : σ → F → σ) (st : σ) : σ :=
  m0.foldl (fun st m => scanRecord op m st) st

/-- `FMARK` and `FDEFER` of the files, and `unp_defer`. -/
structure Flags (F : Type) where
  mark : F → Bool := fun _ => false
  defer : F → Bool := fun _ => false
  unpDefer : ℤ := 0

section

variable [DecidableEq F] (s : Table F S)

/-- `unp_mark` -/
def unpMark (st : Flags F) (fp : F) : Flags F :=
  if st.mark fp then st
  else { mark := update st.mark fp true, defer := update st.defer fp true,
         unpDefer := st.unpDefer + 1 }

/-- The rights in the receive buffer of a file are marked. -/
def scanFile (st : Flags F) (fp : F) : Flags F :=
  match (s.file fp).data with
  | .vnode | .socket none => st
  | .socket (some so) =>
    if (s.socket so).passesRights then unpScan (s.socket so).rcv unpMark st else st

/-- The body of the inner loop of `unp_gc`. -/
def visit (st : Flags F) (fp : F) : Flags F :=
  if (s.file fp).count = 0 then st
  else if st.defer fp then
    scanFile s { st with defer := update st.defer fp false, unpDefer := st.unpDefer - 1 } fp
  else if st.mark fp then st
  else if (s.file fp).count = (s.file fp).msgcount then st
  else scanFile s { st with mark := update st.mark fp true } fp

/-- The inner loop. -/
def pass (st : Flags F) : Flags F := s.files.foldl (visit s) st

/-- The outer loop of `unp_gc`. -/
def markLoop : (fuel : ℕ) → Flags F → Option (Flags F)
  | 0, _ => none
  | fuel + 1, st =>
    let st := pass s st
    if st.unpDefer ≠ 0 then markLoop fuel st else some st

/-- `unp_gc`: the files in `extra_ref`, which `sorflush` and `closef` are called with.  The table
is `s'` when `malloc` returns, which may have slept.  A file that has been opened since is one that
the first table does not have, and has no mark. -/
def unpGc (s' : Table F S) : Option (List F) :=
  (markLoop s (2 * s.files.length + 1) {}).map fun st => s'.files.filter fun fp =>
    (s'.file fp).count ≠ 0 ∧ (s'.file fp).count = (s'.file fp).msgcount ∧ ¬ st.mark fp

end

/-! ## What can be received -/

/-- The rights in an mbuf. -/
def Mbuf.rights : Mbuf F → List F
  | .control (some cm) => if cm.level = solSocket ∧ cm.type = scmRights then cm.files else []
  | _ => []

/-- The rights queued in a receive buffer. -/
def Socket.queued (so : Socket F S) : List F := so.rcv.flatten.flatMap Mbuf.rights

variable (s : Table F S)

/-- **The rights that can be received from a file**: those in its receive buffer and in those
of the connections that can be accepted from it. -/
def Table.rights (fp : F) : List F :=
  match (s.file fp).data with
  | .vnode | .socket none => []
  | .socket (some so) => (s.socket so).queued ++
      ((s.socket so).q0 ++ (s.socket so).q).flatMap fun so' => (s.socket so').queued

/-- A process has the file. -/
def Table.Open (fp : F) : Prop := (s.file fp).msgcount < (s.file fp).count

def Table.IsSocket (fp : F) : Prop :=
  match (s.file fp).data with
  | .vnode => False
  | .socket _ => True

/-- **A process can obtain the file**: it is open, or a right to it can be received, after accepting
a connection if need be. -/
def Table.Obtainable : F → Prop := Reach s.Open s.rights

/-- The rights in the first message of a record that has some. -/
def firstRights : List (Mbuf F) → List F
  | [] => []
  | .control (some cm) :: m =>
    if cm.level ≠ solSocket ∨ cm.type ≠ scmRights then firstRights m else cm.files
  | _ :: m => firstRights m

/-- The rights that `unp_gc` looks at. -/
def Table.scanned (fp : F) : List F :=
  match (s.file fp).data with
  | .vnode | .socket none => []
  | .socket (some so) =>
    if (s.socket so).passesRights then (s.socket so).rcv.flatMap firstRights else []

/-- A message of rights. -/
def Mbuf.isRights : Mbuf F → Bool
  | .control (some cm) => cm.level = solSocket ∧ cm.type = scmRights
  | _ => false

/-- A record has one message of rights, as `sbappendaddr` and `sbappendcontrol` make it. -/
def Socket.Single (so : Socket F S) : Prop := ∀ m ∈ so.rcv, (m.filter Mbuf.isRights).length ≤ 1

/-- The rights in the receive buffer of a file that is a socket of `unixdomain`. -/
def Table.received (fp : F) : List F :=
  match (s.file fp).data with
  | .vnode | .socket none => []
  | .socket (some so) => if (s.socket so).passesRights then (s.socket so).queued else []

/-- A process can obtain the file without accepting a connection. -/
def Table.AtHand : F → Prop := Reach s.Open s.received

/-! ## Scanning -/

theorem scanRecord_eq {σ : Type} (op : σ → F → σ) (m : List (Mbuf F)) (st : σ) :
    scanRecord op m st = (firstRights m).foldl op st := by
  induction m with
  | nil => rfl
  | cons m ms ih =>
    rcases m with _ | _ | cm
    · exact ih
    · exact ih
    · rw [scanRecord, firstRights]
      split_ifs
      · exact ih
      · rfl

theorem unpScan_eq {σ : Type} (m0 : List (List (Mbuf F))) (op : σ → F → σ) (st : σ) :
    unpScan m0 op st = (m0.flatMap firstRights).foldl op st := by
  simp only [unpScan, List.flatMap, foldl_flatten, foldl_map, scanRecord_eq]

theorem mem_rights_of_firstRights {m : List (Mbuf F)} {g : F} (hg : g ∈ firstRights m) :
    g ∈ m.flatMap Mbuf.rights := by
  induction m with
  | nil => cases hg
  | cons m ms ih =>
    rw [flatMap_cons, mem_append]
    rcases m with _ | _ | cm
    · exact .inr (ih hg)
    · exact .inr (ih hg)
    · rw [firstRights] at hg
      split_ifs at hg with other
      · exact .inr (ih hg)
      · left
        rw [not_or, not_not, not_not] at other
        rwa [Mbuf.rights, if_pos other]

theorem firstRights_eq {m : List (Mbuf F)} (single : (m.filter Mbuf.isRights).length ≤ 1) :
    firstRights m = m.flatMap Mbuf.rights := by
  induction m with
  | nil => rfl
  | cons mb m ih =>
    rcases mb with _ | _ | cm
    · exact ih single
    · exact ih single
    · rw [firstRights, flatMap_cons, Mbuf.rights]
      by_cases hcm : cm.level = solSocket ∧ cm.type = scmRights
      · have hnone : m.filter Mbuf.isRights = [] := by
          rw [filter_cons_of_pos (by simpa [Mbuf.isRights] using hcm)] at single
          simpa using single
        have hrest : m.flatMap Mbuf.rights = [] := flatMap_eq_nil_iff.mpr fun x hx => by
          have := filter_eq_nil_iff.mp hnone x hx
          rcases x with _ | _ | x
          · rfl
          · rfl
          · exact if_neg (by simpa [Mbuf.isRights] using this)
        rw [if_pos hcm, if_neg (by tauto), hrest, append_nil]
      · rw [filter_cons_of_neg (by simpa [Mbuf.isRights] using hcm)] at single
        rw [if_neg hcm, if_pos (by tauto), ih single, nil_append]

/-- What `unp_gc` looks at are rights. -/
theorem Table.scanned_subset {fp g : F} (hg : g ∈ s.scanned fp) : g ∈ s.rights fp := by
  unfold scanned at hg
  unfold rights
  split at hg
  · cases hg
  · cases hg
  next so hso =>
    split_ifs at hg
    · refine mem_append_left _ ?_
      obtain ⟨m, hm, hg⟩ := mem_flatMap.mp hg
      obtain ⟨mb, hmb, hg⟩ := mem_flatMap.mp (mem_rights_of_firstRights hg)
      exact mem_flatMap.mpr ⟨mb, mem_flatten.mpr ⟨m, hm, hmb⟩, hg⟩
    · cases hg

/-! ## The state of the table -/

variable [DecidableEq F]

/-- **`f_msgcount` counts the references in messages**, all of which count for `f_count` too. -/
structure WellFormed (s : Table F S) : Prop where
  nodup : s.files.Nodup
  listed : ∀ fp, (s.file fp).count ≠ 0 → fp ∈ s.files
  msgcount : ∀ fp, (s.file fp).msgcount =
    (s.sockets.flatMap fun so => (s.socket so).queued).count fp
  held : ∀ fp, (s.file fp).msgcount ≤ (s.file fp).count
  attached : ∀ fp so, (s.file fp).data = .socket (some so) → so ∈ s.sockets
  pending : ∀ so ∈ s.sockets, ∀ so' ∈ (s.socket so).q0 ++ (s.socket so).q, so' ∈ s.sockets

variable {s} {fp g : F}

theorem scanned_eq (wf : WellFormed s) (single : ∀ so ∈ s.sockets, (s.socket so).Single) (fp : F) :
    s.scanned fp = s.received fp := by
  unfold Table.scanned Table.received
  split
  · rfl
  · rfl
  next so hso =>
    have hfirst := flatMap_congr fun m hm =>
      firstRights_eq (single so (wf.attached fp so hso) m hm)
    rw [hfirst, Socket.queued, flatten_eq_flatMap, flatMap_assoc]
    rfl

/-- Rights that can be received are references to a file. -/
theorem WellFormed.count_pos (wf : WellFormed s) (hg : g ∈ s.rights fp) : 0 < (s.file g).count := by
  refine lt_of_lt_of_le ?_ (wf.held g)
  rw [wf.msgcount, count_pos_iff]
  unfold Table.rights at hg
  split at hg
  · cases hg
  · cases hg
  next so hso =>
    have hmem := wf.attached fp so hso
    rcases mem_append.mp hg with hg | hg
    · exact mem_flatMap.mpr ⟨so, hmem, hg⟩
    · obtain ⟨so', hso', hg⟩ := mem_flatMap.mp hg
      exact mem_flatMap.mpr ⟨so', wf.pending so hmem so' hso', hg⟩

/-! ## Marking -/

/-- The files that are marked once `l` has been. -/
theorem foldl_unpMark (l : List F) (st : Flags F) (g : F) :
    ((l.foldl unpMark st).mark g = true ↔ st.mark g = true ∨ g ∈ l) ∧
      ((l.foldl unpMark st).defer g = true ↔
        st.defer g = true ∨ g ∈ l ∧ st.mark g = false) := by
  induction l generalizing st with
  | nil => simp
  | cons f l ih =>
    rw [foldl_cons]
    obtain ⟨hmark, hdefer⟩ := ih (unpMark st f)
    rw [hmark, hdefer, unpMark]
    rcases eq_or_ne g f with rfl | hg
    · by_cases hf : st.mark g = true <;> simp [hf]
    · by_cases hf : st.mark f = true <;> simp [hf, hg]

/-- How much is left to do: a file is first to be marked, then to be visited. -/
def left (s : Table F S) (st : Flags F) : ℕ :=
  2 * s.files.countP (fun g => !st.mark g) + s.files.countP st.defer

/-- `unp_defer` counts the files that are deferred, which are marked. -/
structure Counts (s : Table F S) (st : Flags F) : Prop where
  deferred : ∀ g, st.defer g = true → st.mark g = true
  unpDefer : st.unpDefer = s.files.countP st.defer

variable {st : Flags F}

theorem countP_mark (wf : WellFormed s) (hg : g ∈ s.files) (hmark : st.mark g = false) :
    s.files.countP (fun a => !update st.mark g true a) + 1 =
      s.files.countP fun a => !st.mark a := by
  have := countP_update wf.nodup hg (not ∘ st.mark) (not true)
  rw [← comp_update] at this
  simpa [hmark, comp_def] using this

theorem Counts.unpMark (wf : WellFormed s) (counts : Counts s st) (hg : g ∈ s.files) :
    Counts s (unpMark st g) ∧ left s (unpMark st g) ≤ left s st := by
  rw [UnpGc.unpMark]
  split_ifs with hmark
  · exact ⟨counts, le_rfl⟩
  · rw [Bool.not_eq_true] at hmark
    have hdefer : st.defer g = false := Bool.eq_false_iff.mpr fun h =>
      Bool.false_ne_true (hmark.symm.trans (counts.deferred g h))
    have marked := countP_mark wf hg hmark
    have deferred := countP_update wf.nodup hg st.defer true
    rw [hdefer, Bool.toNat_false, Bool.toNat_true, Nat.add_zero] at deferred
    refine ⟨⟨fun a ha => ?_, ?_⟩, ?_⟩
    · rw [update_true_iff] at ha ⊢
      exact ha.imp_right (counts.deferred a)
    · rw [deferred, counts.unpDefer, Nat.cast_add, Nat.cast_one]
    · simp only [left]
      omega

theorem Counts.foldl (wf : WellFormed s) {l : List F} (counts : Counts s st)
    (hl : ∀ g ∈ l, g ∈ s.files) :
    Counts s (l.foldl UnpGc.unpMark st) ∧ left s (l.foldl UnpGc.unpMark st) ≤ left s st := by
  induction l generalizing st with
  | nil => exact ⟨counts, le_rfl⟩
  | cons g l ih =>
    obtain ⟨hg, hl⟩ := forall_mem_cons.mp hl
    obtain ⟨counts', hle⟩ := counts.unpMark wf hg
    obtain ⟨counts'', hle'⟩ := ih counts' hl
    exact ⟨counts'', hle'.trans hle⟩

theorem scanFile_eq (st : Flags F) : scanFile s st fp = (s.scanned fp).foldl UnpGc.unpMark st := by
  unfold scanFile Table.scanned
  cases (s.file fp).data with
  | vnode => rfl
  | socket so =>
    cases so with
    | none => rfl
    | some so =>
      dsimp only
      split_ifs
      · exact unpScan_eq ..
      · rfl

/-- Between two turns of the inner loop. -/
structure Good (s : Table F S) (st : Flags F) : Prop where
  marks : Marks s.Open s.scanned st.mark st.defer
  unpDefer : st.unpDefer = s.files.countP st.defer
  exists_file : ∀ g, st.mark g = true → (s.file g).count ≠ 0

/-- **The rights of a marked file are marked.** -/
theorem good_scanFile (wf : WellFormed s) (counts : Counts s st)
    (sound : ∀ g, st.mark g = true → Reach s.Open s.scanned g)
    (closed : ∀ a, a ≠ fp → st.mark a = true → st.defer a = false →
      ∀ b ∈ s.scanned a, st.mark b = true) (files : ∀ g, st.mark g = true → (s.file g).count ≠ 0)
    (hmark : st.mark fp = true) :
    Good s (scanFile s st fp) ∧ left s (scanFile s st fp) ≤ left s st ∧
      ∀ g, st.mark g = true → (scanFile s st fp).mark g = true := by
  have pos : ∀ g ∈ s.scanned fp, (s.file g).count ≠ 0 := fun g hg =>
    (wf.count_pos (s.scanned_subset hg)).ne'
  obtain ⟨counts', hleft⟩ := counts.foldl wf fun g hg => wf.listed g (pos g hg)
  rw [scanFile_eq]
  have hfold := foldl_unpMark (s.scanned fp) st
  refine ⟨⟨⟨fun g hg => ?_, counts'.deferred, fun a ha hd b hb => ?_⟩, counts'.unpDefer,
    fun g hg => ?_⟩, hleft, fun g hg => (hfold g).1.mpr (.inl hg)⟩
  · exact ((hfold g).1.mp hg).elim (sound g) fun hg => (sound fp hmark).step hg
  · rw [(hfold b).1]
    by_cases hafp : a = fp
    · exact .inr (hafp ▸ hb)
    · rw [← Bool.not_eq_true, (hfold a).2, not_or, Bool.not_eq_true, not_and,
        Bool.not_eq_false] at hd
      have hold : st.mark a = true := ((hfold a).1.mp ha).elim id hd.2
      exact .inl (closed a hafp hold hd.1 b hb)
  · exact ((hfold g).1.mp hg).elim (files g) (pos g)

/-- What one turn of the inner loop does. -/
structure Visited (s : Table F S) (st st' : Flags F) (fp : F) : Prop where
  good : Good s st'
  mono : ∀ g, st.mark g = true → st'.mark g = true
  roots : s.Open fp → st'.mark fp = true
  progress : (st' = st ∧ st.defer fp = false) ∨ left s st' < left s st

theorem visit_spec (wf : WellFormed s) (good : Good s st) (hfp : fp ∈ s.files) :
    Visited s st (visit s st fp) fp := by
  rw [visit]
  split_ifs with hcount hdefer hmark hopen
  · have hdefer : st.defer fp = false := by
      by_contra h
      exact good.exists_file fp (good.marks.deferred fp (by simpa using h)) hcount
    refine ⟨good, fun _ => id, fun isOpen => ?_, .inl ⟨rfl, hdefer⟩⟩
    unfold Table.Open at isOpen
    omega
  -- a deferred file is scanned: what is left to do shrinks by its flag
  · have hmark := good.marks.deferred fp hdefer
    have deferred := countP_update wf.nodup hfp st.defer false
    rw [hdefer, Bool.toNat_true, Bool.toNat_false] at deferred
    have counts' : Counts s
        { st with defer := update st.defer fp false, unpDefer := st.unpDefer - 1 } := by
      refine ⟨fun g hg => ?_, ?_⟩
      · by_cases hgfp : g = fp
        · exact hgfp ▸ hmark
        · dsimp only at hg
          rw [update_of_ne hgfp] at hg
          exact good.marks.deferred g hg
      · dsimp only
        rw [good.unpDefer]
        omega
    have closed : ∀ a, a ≠ fp → st.mark a = true → update st.defer fp false a = false →
        ∀ b ∈ s.scanned a, st.mark b = true := by
      intro a ha hma hda
      rw [update_of_ne ha] at hda
      exact good.marks.closed a hma hda
    obtain ⟨good', hleft, mono⟩ :=
      good_scanFile wf counts' good.marks.sound closed good.exists_file hmark
    refine ⟨good', mono, fun _ => mono fp hmark, .inr (hleft.trans_lt ?_)⟩
    simp only [left]
    omega
  · exact ⟨good, fun _ => id, fun _ => hmark, .inl ⟨rfl, by simpa using hdefer⟩⟩
  · refine ⟨good, fun _ => id, fun isOpen => ?_, .inl ⟨rfl, by simpa using hdefer⟩⟩
    unfold Table.Open at isOpen
    omega
  -- an open file is marked and scanned: what is left shrinks by its mark
  · rw [Bool.not_eq_true] at hmark
    have isOpen : s.Open fp := lt_of_le_of_ne (wf.held fp) (Ne.symm hopen)
    have marked := countP_mark wf hfp hmark
    have older : ∀ g, st.mark g = true → update st.mark fp true g = true :=
      fun _ hg => update_true_iff.mpr (.inr hg)
    have counts' : Counts s { st with mark := update st.mark fp true } :=
      ⟨fun g hg => older g (good.marks.deferred g hg), good.unpDefer⟩
    have sound : ∀ g, update st.mark fp true g = true → Reach s.Open s.scanned g := by
      intro g hg
      rcases update_true_iff.mp hg with rfl | hg
      · exact .root isOpen
      · exact good.marks.sound g hg
    have closed : ∀ a, a ≠ fp → update st.mark fp true a = true → st.defer a = false →
        ∀ b ∈ s.scanned a, update st.mark fp true b = true := by
      intro a ha hma hda b hb
      rw [update_of_ne ha] at hma
      exact older b (good.marks.closed a hma hda b hb)
    have files : ∀ g, update st.mark fp true g = true → (s.file g).count ≠ 0 := by
      intro g hg
      rcases update_true_iff.mp hg with rfl | hg
      · exact hcount
      · exact good.exists_file g hg
    obtain ⟨good', hleft, mono⟩ :=
      good_scanFile wf counts' sound closed files (update_self ..)
    refine ⟨good', fun g hg => mono g (older g hg), fun _ => mono fp (update_self ..),
      .inr (hleft.trans_lt ?_)⟩
    simp only [left]
    omega

/-- A pass over part of the list. -/
theorem foldl_visit (wf : WellFormed s) {l : List F} (good : Good s st)
    (hl : ∀ f ∈ l, f ∈ s.files) :
    Good s (l.foldl (visit s) st) ∧
      (∀ g, st.mark g = true → (l.foldl (visit s) st).mark g = true) ∧
      (∀ f ∈ l, s.Open f → (l.foldl (visit s) st).mark f = true) ∧
      ((l.foldl (visit s) st = st ∧ ∀ f ∈ l, st.defer f = false) ∨
        left s (l.foldl (visit s) st) < left s st) := by
  induction l generalizing st with
  | nil => exact ⟨good, fun _ => id, nofun,
      .inl ⟨rfl, nofun⟩⟩
  | cons f l ih =>
    obtain ⟨hf, hl⟩ := forall_mem_cons.mp hl
    have visited := visit_spec wf good hf
    obtain ⟨good', mono, roots, progress⟩ := ih visited.good hl
    rw [foldl_cons]
    refine ⟨good', fun g hg => mono g (visited.mono g hg),
      forall_mem_cons.mpr ⟨fun isOpen => mono f (visited.roots isOpen), roots⟩, ?_⟩
    rcases visited.progress with ⟨same, hdefer⟩ | less
    · rw [same] at progress ⊢
      exact progress.imp_left fun h => ⟨h.1, forall_mem_cons.mpr ⟨hdefer, h.2⟩⟩
    · rcases progress with ⟨same, -⟩ | less'
      · exact .inr (by rwa [same])
      · exact .inr (less'.trans less)

theorem Good.defer_eq_false (wf : WellFormed s) (good : Good s st) (hdone : st.unpDefer = 0)
    (g : F) :
    st.defer g = false := by
  by_contra h
  rw [Bool.not_eq_false] at h
  have hlisted := wf.listed g (good.exists_file g (good.marks.deferred g h))
  have := countP_pos_iff.mpr ⟨g, hlisted, h⟩
  have := good.unpDefer
  omega

/-- **The loop ends**, with the right marks. -/
theorem markLoop_spec (wf : WellFormed s) {fuel : ℕ} (good : Good s st)
    (enough : left s st < fuel) :
    ∃ st', markLoop s fuel st = some st' ∧ st'.unpDefer = 0 ∧
      ∀ g, st'.mark g = true ↔ Reach s.Open s.scanned g := by
  induction fuel generalizing st with
  | zero => omega
  | succ fuel ih =>
    obtain ⟨good', -, roots, progress⟩ := foldl_visit wf good fun _ => id
    rw [markLoop]
    split_ifs with hdefer
    · rcases progress with ⟨same, none⟩ | less
      · -- nothing was deferred, and nothing is
        refine absurd ?_ hdefer
        rw [pass, same, good.unpDefer, Nat.cast_eq_zero, countP_eq_zero]
        exact fun f hf => by simp [none f hf]
      · exact ih good' (show left s (pass s st) < fuel by unfold pass; omega)
    · refine ⟨pass s st, rfl, not_not.mp hdefer, fun g => ?_⟩
      refine good'.marks.mark_iff (good'.defer_eq_false wf (not_not.mp hdefer)) fun f isOpen => ?_
      refine roots f (wf.listed f ?_) isOpen
      unfold Table.Open at isOpen
      omega

omit [DecidableEq F] in
theorem good_init : Good s {} :=
  ⟨marks_init, by simp, fun _ h => absurd h Bool.false_ne_true⟩

/-- **The marks are exact**, where records have one message each. -/
theorem markLoop_exact (wf : WellFormed s) (single : ∀ so ∈ s.sockets, (s.socket so).Single)
    {fuel : ℕ} (enough : 2 * s.files.length < fuel) :
    ∃ st, markLoop s fuel {} = some st ∧ st.unpDefer = 0 ∧
      ∀ fp, st.mark fp = true ↔ Reach s.Open s.received fp := by
  have heq : s.scanned = s.received := funext fun fp => scanned_eq wf single fp
  rw [← heq]
  exact markLoop_spec wf good_init (by simpa [left] using enough)

/-- **What is collected** are the files in messages only that `unp_gc` did not come across. -/
theorem unpGc_eq (wf : WellFormed s) (s' : Table F S) : ∃ l, unpGc s s' = some l ∧ ∀ fp, fp ∈ l ↔
    fp ∈ s'.files ∧ (s'.file fp).count ≠ 0 ∧ (s'.file fp).count = (s'.file fp).msgcount ∧
      ¬ Reach s.Open s.scanned fp := by
  have enough : left s ({} : Flags F) < 2 * s.files.length + 1 := by
    simp [left]
  obtain ⟨st, hloop, -, hmark⟩ := markLoop_spec wf good_init enough
  refine ⟨_, by rw [unpGc, hloop, Option.map_some], fun fp => ?_⟩
  rw [mem_filter, decide_eq_true_eq, hmark]

/-! ## Safety -/

/-- **What `unp_gc` relies on**: a message on a connection that waits to be accepted, from a
listening socket that is at hand, has no right to a file that is not at hand; and no file is in
messages only that is neither a socket nor at hand. -/
structure Settled (s : Table F S) : Prop where
  rights : ∀ fp, s.AtHand fp → ∀ g ∈ s.rights fp, s.AtHand g
  vnodes : ∀ fp, (s.file fp).count ≠ 0 → ¬ s.IsSocket fp → s.AtHand fp

/-- A file that is in use and not at hand is in messages only. -/
theorem WellFormed.count_eq (wf : WellFormed s) (lost : ¬ s.AtHand fp) :
    (s.file fp).count = (s.file fp).msgcount :=
  by_contra fun differ => lost (.root (lt_of_le_of_ne (wf.held fp) (Ne.symm differ)))

/-- **Collection is safe**, if the table does not change while `unp_gc` sleeps, exactly if nothing
is hidden in connections that wait and all files in messages only are sockets or at hand. -/
theorem unpGc_safe_iff (wf : WellFormed s) (single : ∀ so ∈ s.sockets, (s.socket so).Single) :
    ∃ l, unpGc s s = some l ∧ ((∀ fp ∈ l, s.IsSocket fp ∧ ¬ s.Obtainable fp) ↔ Settled s) := by
  obtain ⟨l, hl, hmem⟩ := unpGc_eq wf s
  have hscanned : s.scanned = s.received := funext fun fp => scanned_eq wf single fp
  have hcollected (fp : F) (hcount : (s.file fp).count ≠ 0) (lost : ¬ s.AtHand fp) : fp ∈ l := by
    refine (hmem fp).mpr ⟨wf.listed fp hcount, hcount, wf.count_eq lost, ?_⟩
    rwa [hscanned]
  have hobtain (fp : F) (hfp : s.AtHand fp) : s.Obtainable fp := by
    refine hfp.mono fun a b hb => s.scanned_subset ?_
    rwa [hscanned]
  refine ⟨l, hl, fun safe => ⟨fun fp hfp g hg => ?_, fun fp hcount vnode => ?_⟩, ?_⟩
  · by_contra lost
    exact (safe g (hcollected g (wf.count_pos hg).ne' lost)).2 ((hobtain fp hfp).step hg)
  · by_contra lost
    exact vnode (safe fp (hcollected fp hcount lost)).1
  · rintro settled fp hfp
    obtain ⟨-, hcount, -, lost⟩ := (hmem fp).mp hfp
    rw [hscanned] at lost
    refine ⟨by_contra fun vnode => lost (settled.vnodes fp hcount vnode), fun reach => lost ?_⟩
    exact reach.of_closed (fun _ => .root) settled.rights

/-- A record with a message of rights. -/
def passing (files : List F) : List (Mbuf F) :=
  [.control (some ⟨solSocket, scmRights, files⟩), .other]

/-- Files 0 and 1 are sockets that a process has.  File 2 is a socket in a message on file 1, and
file 3 one in a message on file 2; a connection that waits on file 0 has another right to file 3.
Files 4 and 5 are sockets that only messages on each other refer to. -/
def relayed : Table (Fin 6) (Fin 7) where
  files := [3, 2, 1, 0, 4, 5]
  file
    | 0 => ⟨1, 0, .socket (some 0)⟩
    | 1 => ⟨1, 0, .socket (some 1)⟩
    | 2 => ⟨1, 1, .socket (some 2)⟩
    | 3 => ⟨2, 2, .socket (some 3)⟩
    | 4 => ⟨1, 1, .socket (some 4)⟩
    | 5 => ⟨1, 1, .socket (some 5)⟩
  sockets := [0, 1, 2, 3, 4, 5, 6]
  socket
    | 0 => { passesRights := true, q := [6] }
    | 1 => { passesRights := true, rcv := [passing [2]] }
    | 2 => { passesRights := true, rcv := [passing [3]] }
    | 3 => { passesRights := true }
    | 4 => { passesRights := true, rcv := [passing [5]] }
    | 5 => { passesRights := true, rcv := [passing [4]] }
    | 6 => { passesRights := true, rcv := [passing [3]] }

theorem relayed_wellFormed :
    WellFormed relayed ∧ ∀ so ∈ relayed.sockets, (relayed.socket so).Single := by
  refine ⟨⟨by decide, by decide, by decide, by decide, by decide, by decide⟩, ?_⟩
  unfold Socket.Single
  decide

/-- The two sockets that refer to each other are collected. -/
theorem unpGc_safe_iff_relayed : ∃ l, unpGc relayed relayed = some l ∧ l = [4, 5] ∧
    ∀ fp ∈ l, relayed.IsSocket fp ∧ ¬ relayed.Obtainable fp := by
  have third : relayed.AtHand 3 :=
    ((Reach.root (by decide : 0 < 1) : relayed.AtHand 1).step (b := 2) (by decide)).step (by decide)
  have hrights : ∀ fp, ∀ g ∈ relayed.rights fp, g ∈ relayed.received fp ∨ g = 3 := by decide
  have hsockets : ∀ fp, (relayed.file fp).data ≠ .vnode := by decide
  have settled : Settled relayed := by
    refine ⟨fun fp hfp g hg => ?_, fun fp _ vnode => absurd ?_ vnode⟩
    · rcases hrights fp g hg with hg | rfl
      · exact hfp.step hg
      · exact third
    · have := hsockets fp
      unfold Table.IsSocket
      cases hdata : (relayed.file fp).data with
      | vnode => exact absurd hdata this
      | socket so => trivial
  obtain ⟨wf, single⟩ := relayed_wellFormed
  obtain ⟨l, hl, iff⟩ := unpGc_safe_iff wf single
  have hcollected : unpGc relayed relayed = some [4, 5] := by decide
  exact ⟨l, hl, Option.some.inj (hl.symm.trans hcollected), iff.mpr settled⟩

/-- File 3 is marked in the third pass. -/
theorem markLoop_exact_relayed :
    ((markLoop relayed 2 {}).map fun st => st.unpDefer) = none ∧
    ∃ st, markLoop relayed 13 {} = some st ∧ st.unpDefer = 0 ∧
      ∀ fp, st.mark fp = true ↔ Reach relayed.Open relayed.received fp :=
  ⟨by decide, markLoop_exact relayed_wellFormed.1 relayed_wellFormed.2 (by decide)⟩

/-- File 0 is a listening socket with a connection (socket 2) that waits to be accepted; file 1,
a socket, is in a message on that connection.  File 2 is a socket that only a message on itself
refers to, and file 3 is not a socket, and in the same message. -/
def halfAccepted : Table (Fin 4) (Fin 4) where
  files := [0, 1, 2, 3]
  file
    | 0 => ⟨1, 0, .socket (some 0)⟩
    | 1 => ⟨1, 1, .socket (some 1)⟩
    | 2 => ⟨1, 1, .socket (some 3)⟩
    | 3 => ⟨1, 1, .vnode⟩
  sockets := [0, 1, 2, 3]
  socket
    | 0 => { passesRights := true, q := [2] }
    | 1 => { passesRights := true }
    | 2 => { passesRights := true, rcv := [passing [1]] }
    | 3 => { passesRights := true, rcv := [passing [2, 3]] }

/-- File 0 is a socket that a process has, and file 1 is not in use. -/
def before : Table (Fin 2) (Fin 2) where
  files := [0]
  file
    | 0 => ⟨1, 0, .socket (some 0)⟩
    | 1 => ⟨0, 0, .vnode⟩
  sockets := [0, 1]
  socket _ := { passesRights := true }

/-- Then file 1 has been opened, as a socket, sent to file 0 and closed. -/
def afterwards : Table (Fin 2) (Fin 2) where
  files := [1, 0]
  file
    | 0 => ⟨1, 0, .socket (some 0)⟩
    | 1 => ⟨1, 1, .socket (some 1)⟩
  sockets := [0, 1]
  socket
    | 0 => { passesRights := true, rcv := [passing [1]] }
    | 1 => { passesRights := true }

/-- **Files that could still be received are flushed and closed**: one in a message on a connection
that waits, and one that was sent while `unp_gc` slept; and so is a file that is not a socket. -/
theorem pending_lost :
    (WellFormed halfAccepted ∧ unpGc halfAccepted halfAccepted = some [1, 2, 3] ∧
      halfAccepted.Obtainable 1 ∧ ¬ halfAccepted.IsSocket 3) ∧
    WellFormed before ∧ WellFormed afterwards ∧ unpGc before afterwards = some [1] ∧
      afterwards.Obtainable 1 := by
  have listening : halfAccepted.Obtainable 0 := .root (by decide : 0 < 1)
  have receiving : afterwards.Obtainable 0 := .root (by decide : 0 < 1)
  refine ⟨⟨?_, by decide, listening.step (by decide), id⟩, ?_, ?_, by decide,
    receiving.step (by decide)⟩
  all_goals exact ⟨by decide, by decide, by decide, by decide, by decide, by decide⟩

end BSDLite2.UnpGc
