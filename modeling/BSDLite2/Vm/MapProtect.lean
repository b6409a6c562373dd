import Mathlib.Data.List.TakeWhile
import Mathlib.Tactic

/-!
# Protection of address maps (`vm/vm_map.c`)

A map is a list of entries in the order of their addresses.  `vm_map_protect` walks the entries of
a range twice: first to check that all may have the new protection, then to set it.  What it
tells the physical map should follow from each entry in turn.  But whether an entry is copied on
write is read from the first entry of the range: the macro `MASK` is applied to `entry`, where the
first pass has begun, and not to `current`.

The right to write is all that can leak.  A call is made only if the protection of an entry changes,
it grants no more than the new protection, and it has the addresses of the entry; `exact_iff` takes
these parts off and leaves the two flags to be compared.  So the condition speaks of the entries
before the call (`Spares`).  A failing call has split an entry at most, which allows every address
what it did (`allows_clipStart`).  Entries that refer to sharing maps are modelled, where the mask
is that of an entry of the sharing map, but what is proved is about ranges without them.

* `clipStart`, `clipRange` — the entries of a range;
* `vmMapProtect` — the code, with the calls of `pmap_protect` that it makes;
* `protect_exact_iff` — the calls grant what the entries allow, unless an entry that is copied on
  write follows a first one that is not;
* `protect_exposes` — such a pair of entries.
-/

namespace BSDLite2.Vm

open List

/-! ## Maps -/

/-- `vm_prot_t` -/
abbrev Prot := BitVec 32

def VM_PROT_WRITE : Prot := 2

def VM_PROT_ALL : Prot := 7

/-- The errors. -/
inductive Kern where
  | invalidArgument | protectionFailure

/-- `struct vm_map_entry`; `end` is `stop`. -/
structure Entry (O : Type) where
  start : ℕ
  stop : ℕ
  object : O
  offset : ℕ
  copyOnWrite : Bool
  protection : Prot
  maxProtection : Prot

/-- What an entry refers to, with `is_a_map` and `is_sub_map`; only the entries of a sharing map
are looked at. -/
inductive Object where
  | vmObject
  | shareMap (entries : List (Entry Unit))
  | subMap

/-- `struct vm_map` -/
structure Map where
  minOffset : ℕ
  maxOffset : ℕ
  entries : List (Entry Object)

variable {O : Type}

/-- `vm_map_lookup_entry`: the entries from the one on that has the address or is the last before
it, and nothing if this is the header. -/
def lookupEntry (address : ℕ) : List (Entry O) → List (Entry O)
  | [] => []
  | e :: es =>
    if e.start ≤ address then
      match lookupEntry address es with
      | [] => e :: es
      | found => found
    else []

/-- The parts of an entry before and from an address on. -/
def Entry.front (e : Entry O) (a : ℕ) : Entry O := { e with stop := a }

@[inherit_doc Entry.front]
def Entry.back (e : Entry O) (a : ℕ) : Entry O :=
  { e with start := a, offset := e.offset + (a - e.start) }

/-- The entries before an address and those from it on, after `vm_map_lookup_entry` and, if an
entry has the address, `vm_map_clip_start`. -/
def clipStart (start : ℕ) : List (Entry O) → List (Entry O) × List (Entry O)
  | [] => ([], [])
  | e :: es =>
    if e.stop ≤ start then (e :: (clipStart start es).1, (clipStart start es).2)
    else if e.start < start then ([e.front start], e.back start :: es)
    else ([], e :: es)

/-- The entries that a loop up to `stop` comes to, after `vm_map_clip_end`, and the others: what
is split off starts at `stop`, where the loop ends. -/
def clipRange (stop : ℕ) : List (Entry O) → List (Entry O) × List (Entry O)
  | [] => ([], [])
  | e :: es =>
    if e.start < stop then
      if stop < e.stop then ([e.front stop], e.back stop :: es)
      else (e :: (clipRange stop es).1, (clipRange stop es).2)
    else ([], e :: es)

/-- `VM_MAP_RANGE_CHECK` -/
def Map.rangeCheck (m : Map) (start stop : ℕ) : ℕ × ℕ :=
  let stop := min stop m.maxOffset
  (min (max start m.minOffset) stop, stop)

/-! ## `vm_map_protect` -/

/-- A call of `pmap_protect`, and the entry it is made for. -/
structure PmapProtect where
  entry : Entry Object
  sva : ℕ
  eva : ℕ
  prot : Prot

/-- `MASK` -/
def Entry.mask (e : Entry O) : Prot := if e.copyOnWrite then ~~~VM_PROT_WRITE else VM_PROT_ALL

variable (newProt : Prot) (setMax : Bool)

/-- The first pass. -/
def protectCheck (stop : ℕ) : List (Entry Object) → Except Kern Unit
  | [] => .ok ()
  | e :: es =>
    if e.start < stop then
      match e.object with
      | .subMap => .error .invalidArgument
      | _ =>
        if newProt &&& e.maxProtection ≠ newProt then .error .protectionFailure
        else protectCheck stop es
    else .ok ()

/-- What the protection of an entry becomes. -/
def Entry.newProtection (e : Entry O) : Prot :=
  if setMax then newProt &&& e.protection else newProt

/-- The entry after the second pass. -/
def Entry.protect (e : Entry O) : Entry O :=
  { e with
    protection := e.newProtection newProt setMax
    maxProtection := if setMax then newProt else e.maxProtection }

/-- The calls for an entry of the range, of which `entry` is the first. -/
def pmapProtect (entry current : Entry Object) : List PmapProtect :=
  match current.object with
  | .shareMap es =>
    let shareEnd := current.offset + (current.stop - current.start)
    ((lookupEntry current.offset es).takeWhile (·.start < shareEnd)).map fun e =>
      ⟨current, max e.start current.offset - current.offset + current.start,
        min e.stop shareEnd - current.offset + current.start, current.protection &&& e.mask⟩
  | _ => [⟨current, current.start, current.stop, current.protection &&& entry.mask⟩]

/-- The second pass. -/
def protectLoop (range : List (Entry Object)) : List PmapProtect :=
  range.head?.elim [] fun entry => range.flatMap fun current =>
    if current.newProtection newProt setMax ≠ current.protection then
      pmapProtect entry (current.protect newProt setMax)
    else []

/-- `vm_map_protect` -/
def vmMapProtect (m : Map) (start stop : ℕ) : Except Kern Unit × Map × List PmapProtect :=
  let (start, stop) := m.rangeCheck start stop
  let (before, es) := clipStart start m.entries
  match protectCheck newProt stop es with
  | .error e => (.error e, { m with entries := before ++ es }, [])
  | .ok _ =>
    let (range, rest) := clipRange stop es
    (.ok (), { m with entries := before ++ range.map (.protect newProt setMax) ++ rest },
      protectLoop newProt setMax range)

/-! ## What is granted -/

/-- The entries of a range. -/
def Map.range (m : Map) (start stop : ℕ) : List (Entry Object) :=
  let (start, stop) := m.rangeCheck start stop
  (clipRange stop (clipStart start m.entries).2).1

/-- **No entry is exposed**: if the first entry is not copied on write, none that is gets the
right to write by a change. -/
def Spares (range : List (Entry Object)) : Prop :=
  ∀ entry ∈ range.head?, entry.copyOnWrite = false → ∀ e ∈ range, e.copyOnWrite →
    e.newProtection newProt setMax ≠ e.protection →
      e.newProtection newProt setMax &&& VM_PROT_WRITE = 0

/-- A call covers its entry, and grants no more than the entry has, nor to write to what is copied
on write. -/
structure PmapProtect.Exact (c : PmapProtect) : Prop where
  sva : c.sva = c.entry.start
  eva : c.eva = c.entry.stop
  prot : c.prot &&& ~~~c.entry.protection = 0
  write : c.entry.copyOnWrite → c.prot &&& VM_PROT_WRITE = 0

/-- An address has the protection `p`, and may have `q`. -/
def Allows (es : List (Entry O)) (a : ℕ) (p q : Prot) : Prop :=
  ∃ e ∈ es, (e.start ≤ a ∧ a < e.stop) ∧ e.protection = p ∧ e.maxProtection = q

variable {newProt setMax}

/-- A call for an entry that refers to an object. -/
theorem exact_iff {entry e : Entry Object} :
    PmapProtect.Exact ⟨e, e.start, e.stop, e.protection &&& entry.mask⟩ ↔
      (entry.copyOnWrite = false → e.copyOnWrite → e.protection &&& VM_PROT_WRITE = 0) := by
  have hsub (a b : Prot) : a &&& b &&& ~~~a = 0 := by
    rw [BitVec.and_comm a, BitVec.and_assoc, BitVec.and_not_self]
    exact BitVec.and_zero
  have hmask (p : Prot) : p &&& entry.mask &&& VM_PROT_WRITE =
      if entry.copyOnWrite then 0 else p &&& VM_PROT_WRITE := by
    rw [BitVec.and_assoc, Entry.mask]
    split_ifs
    · exact BitVec.and_zero
    · rfl
  constructor
  · rintro ⟨-, -, -, h⟩ hentry hcow
    simpa [hmask, hentry] using h hcow
  · refine fun h => ⟨rfl, rfl, hsub _ _, fun hcow => ?_⟩
    rw [hmask]
    split_ifs with hentry
    · rfl
    · exact h (Bool.eq_false_iff.mpr hentry) hcow

/-- The calls of the second pass. -/
theorem mem_protectLoop {entry : Entry Object} {es : List (Entry Object)}
    (noShare : ∀ e ∈ entry :: es, ∀ l, e.object ≠ .shareMap l) {c : PmapProtect} :
    c ∈ protectLoop newProt setMax (entry :: es) ↔ ∃ e ∈ entry :: es,
      e.newProtection newProt setMax ≠ e.protection ∧ c = ⟨e.protect newProt setMax, e.start,
        e.stop, (e.protect newProt setMax).protection &&& entry.mask⟩ := by
  refine mem_flatMap.trans (exists_congr fun e => and_congr_right fun he => ?_)
  have hcall : pmapProtect entry (e.protect newProt setMax) = [⟨e.protect newProt setMax, e.start,
      e.stop, (e.protect newProt setMax).protection &&& entry.mask⟩] := by
    unfold pmapProtect
    split
    next l hl => exact absurd hl (noShare e he l)
    · rfl
  rw [hcall]
  split_ifs with hchange
  · simp [hchange]
  · simp [hchange]

/-- An entry that is split allows what it did. -/
theorem allows_clipStart (es : List (Entry O)) (start a : ℕ) (p q : Prot) :
    Allows ((clipStart start es).1 ++ (clipStart start es).2) a p q ↔ Allows es a p q := by
  unfold Allows at *
  induction es with
  | nil => rfl
  | cons e es ih =>
    rw [clipStart]
    split_ifs with hstop hstart
    · simp only [cons_append, exists_mem_cons_iff, ih]
    · have hparts : (e.start ≤ a ∧ a < start) ∨ (start ≤ a ∧ a < e.stop) ↔
          e.start ≤ a ∧ a < e.stop := by omega
      simp only [cons_append, nil_append, exists_mem_cons_iff, Entry.front, Entry.back, ← or_assoc,
        ← or_and_right, hparts]
    · rfl

/-- **What `vm_map_protect` grants.**  If it succeeds, every call of `pmap_protect` is for an entry
of the map and exact, if and only if no entry is exposed; if it fails, no address has another
protection than before. -/
theorem protect_exact_iff (m : Map) (start stop : ℕ)
    (noShare : ∀ e ∈ m.range start stop, ∀ l, e.object ≠ .shareMap l) :
    ((vmMapProtect newProt setMax m start stop).1 = .ok () →
      ((∀ c ∈ (vmMapProtect newProt setMax m start stop).2.2,
          c.entry ∈ (vmMapProtect newProt setMax m start stop).2.1.entries ∧ c.Exact) ↔
        Spares newProt setMax (m.range start stop))) ∧
      ∀ e, (vmMapProtect newProt setMax m start stop).1 = .error e → ∀ a p q,
        Allows (vmMapProtect newProt setMax m start stop).2.1.entries a p q ↔
          Allows m.entries a p q := by
  unfold vmMapProtect
  unfold Map.range at noShare ⊢
  dsimp only at noShare ⊢
  split
  next e heq => exact ⟨nofun, fun _ _ => allows_clipStart m.entries _⟩
  next heq =>
    refine ⟨fun _ => ?_, nofun⟩
    generalize (clipRange _ _).1 = range at noShare
    cases range with
    | nil => simp [protectLoop, Spares]
    | cons entry es =>
      constructor
      · rintro h _ ⟨⟩ hentry e he hcow hchange
        have hc := (mem_protectLoop noShare).mpr ⟨e, he, hchange, rfl⟩
        exact exact_iff.mp (h _ hc).2 hentry hcow
      · intro spares c hc
        obtain ⟨e, he, hchange, rfl⟩ := (mem_protectLoop noShare).mp hc
        refine ⟨mem_append_left _ (mem_append_right _ (mem_map_of_mem he)), ?_⟩
        exact exact_iff.mpr fun hentry hcow => spares entry rfl hentry e he hcow hchange

/-- Two pages that may be read; the second one is copied on write. -/
def pair : Map :=
  ⟨0, 8192, [⟨0, 4096, .vmObject, 0, false, 1, 7⟩, ⟨4096, 8192, .vmObject, 0, true, 1, 7⟩]⟩

/-- Three pages: one that may be read, one that is copied on write and may be written to, and one
that may be read and executed. -/
def mixed : Map :=
  ⟨0, 12288, [⟨0, 4096, .vmObject, 0, false, 1, 7⟩, ⟨4096, 8192, .vmObject, 0, true, 3, 7⟩,
    ⟨8192, 12288, .vmObject, 4096, false, 5, 7⟩]⟩

/-- From the middle of the first page to the middle of the third, all may be written to: there are
two calls, for what is split off, and none for the second page. -/
theorem protect_exact_mixed : (vmMapProtect 3 false mixed 2048 10240).2.2.length = 2 ∧
    ∀ c ∈ (vmMapProtect 3 false mixed 2048 10240).2.2, c.Exact := by
  have hrange : mixed.range 2048 10240 = [⟨2048, 4096, .vmObject, 2048, false, 1, 7⟩,
    ⟨4096, 8192, .vmObject, 0, true, 3, 7⟩, ⟨8192, 10240, .vmObject, 4096, false, 5, 7⟩] := rfl
  have noShare : ∀ e ∈ mixed.range 2048 10240, ∀ l, e.object ≠ .shareMap l := by simp [hrange]
  have spares : Spares 3 false (mixed.range 2048 10240) := by
    simp [Spares, hrange, Entry.newProtection]
  have hall := ((protect_exact_iff mixed 2048 10240 noShare).1 rfl).mpr spares
  exact ⟨rfl, fun c hc => (hall c hc).2⟩

/-- Making both pages writable lets the second one be written to. -/
theorem protect_exposes :
    (vmMapProtect 3 false pair 0 8192).1 = .ok () ∧
      ∃ c ∈ (vmMapProtect 3 false pair 0 8192).2.2,
        c.entry.copyOnWrite ∧ c.prot &&& VM_PROT_WRITE ≠ 0 :=
  ⟨rfl, ⟨_, 4096, 8192, 3⟩, mem_cons_of_mem _ mem_cons_self, rfl, by decide⟩

end BSDLite2.Vm
