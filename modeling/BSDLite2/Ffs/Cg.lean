import BSDLite2.Ffs.Tables

/-!
# Allocation in a cylinder group (`ufs/ffs/ffs_alloc.c`)

A cylinder group keeps a map of its free fragments and summaries of the map: how many blocks
are free, how many fragments in other blocks, how many runs of each length there are in these,
and how many blocks are free in each cylinder and rotational position.  The first two are kept
in the superblock too, for the group and for the file system.

A result of 0 is `NULL`.  A read or write outside the tables is `Panic.wild`.  Each call says
how it releases the buffer of the group: `bdwrite` marks it dirty, `brelse` does not.

* `Cg`, `Group` — the data;
* `mapsearch`, `clusteracct`, `alloccgblk` — the parts;
* `alloccg`, `fragextend`, `clusteralloc`, `blkfree` — the calls.
-/

namespace BSDLite2.Ffs

open Function

/-! ## Data -/

/-- `struct csum` -/
structure Csum where
  /-- `cs_nbfree` -/
  nbfree : ℤ
  /-- `cs_nffree` -/
  nffree : ℤ
  deriving DecidableEq

/-- `struct cg` -/
structure Cg where
  /-- `cg_cgx` -/
  cgx : ℕ
  /-- what `cg_chkmagic` says -/
  magic : Bool
  /-- `cg_cs` -/
  cs : Csum
  /-- `cg_rotor` -/
  rotor : ℕ
  /-- `cg_frotor` -/
  frotor : ℕ
  /-- `cg_frsum` -/
  frsum : ℕ → ℤ
  /-- `cg_blktot` -/
  blktot : ℕ → ℤ
  /-- `cg_blks` -/
  blks : ℕ → ℕ → ℤ
  /-- `cg_blksfree` -/
  blksfree : Bytes
  /-- `cg_clustersfree` -/
  clustersfree : Bytes
  /-- `cg_clustersum` -/
  clustersum : ℕ → ℤ
  /-- `cg_nclusterblks` -/
  nclusterblks : ℕ

/-- A cylinder group and what the superblock has of it. -/
structure Group where
  cg : Cg
  /-- `fs_cs` of the group -/
  cs : Csum
  /-- `fs_cstotal` -/
  cstotal : Csum
  /-- `fs_maxcluster` of the group -/
  maxcluster : ℤ

/-- The calls of `panic`, and accesses outside the tables. -/
inductive Panic where
  /-- "ffs_alloccgblk: cyl groups corrupted" -/
  | cylGroupsCorrupted
  /-- "ffs_alloccgblk: can't find blk in cyl" -/
  | cantFindBlk
  /-- "ffs_alloccg: map corrupted" -/
  | mapCorrupted
  /-- "ffs_alloccg: block not in map" -/
  | blockNotInMap
  /-- "ffs_clusteralloc: map mismatch" -/
  | mapMismatch
  /-- "ffs_clusteralloc: allocated out of group" -/
  | outOfGroup
  /-- "ffs_clusteralloc: lost block" -/
  | lostBlock
  /-- "blkfree: bad size" -/
  | badSize
  /-- "blkfree: freeing free block" -/
  | freeingFreeBlock
  /-- "blkfree: freeing free frag" -/
  | freeingFreeFrag
  | wild
  deriving DecidableEq, Repr

/-- What a call does with the buffer of the group. -/
inductive Release where
  | unread
  | brelse
  | bdwrite
  deriving DecidableEq, Repr

variable (fs : Fs)

/-! ## The search of the map -/

variable (g : Group) (bpref : ℕ)

/-- `howmany(fs_fpg, NBBY)` -/
def mapBytes : ℕ := (fs.fpg + 7) / 8

/-- The loops of `ffs_mapsearch` over a byte of the map. -/
def searchByte (map : Bytes) (bno allocsiz : ℕ) : Option ℕ :=
  (List.range (8 >>> fs.fragshift)).findSome? fun k =>
    ((List.range (fs.frag + 1 - allocsiz)).find? fun pos =>
      fits (blkmap fs map (bno + k * fs.frag)).toNat pos allocsiz).map
        fun pos => bno + k * fs.frag + pos

/-- The byte of the map that `ffs_mapsearch` finds. -/
def findByte (map : Bytes) (start allocsiz : ℕ) : Option ℕ :=
  let table := fragtbl fs.frag
  let mask := sizeBit fs.frag allocsiz % 256
  let len := mapBytes fs - start
  let loc := scanc map table mask len start
  if loc = 0 then
    let len := start + 1
    let loc := scanc map table mask len 0
    if loc = 0 then none else some (len - loc)
  else some (start + len - loc)

/-- The byte of the map where `ffs_mapsearch` starts. -/
def searchStart (cg : Cg) (bpref : ℕ) : ℕ :=
  if bpref ≠ 0 then fs.dtogd bpref / 8 else cg.frotor / 8

/-- `ffs_mapsearch` -/
def mapsearch (cg : Cg) (bpref allocsiz : ℕ) : Except Panic (Cg × ℕ) :=
  if mapBytes fs ≤ searchStart fs cg bpref ∨ allocsiz = 0 then .error .wild
  else
    match findByte fs cg.blksfree (searchStart fs cg bpref) allocsiz with
    | none => .error .mapCorrupted
    | some byte =>
      match searchByte fs cg.blksfree (byte * 8) allocsiz with
      | none => .error .blockNotInMap
      | some bno => .ok ({ cg with frotor := byte * 8 }, bno)

/-! ## Clusters -/

/-- The size of the cluster going forward. -/
def forw (map : Bytes) (nclusterblks : ℕ) : (n i : ℕ) → ℕ
  | 0, _ => 0
  | n + 1, i =>
    if i < nclusterblks ∧ bit map i = true then 1 + forw map nclusterblks n (i + 1) else 0

/-- The size of the cluster going backward. -/
def back (map : Bytes) : (n i : ℕ) → ℕ
  | 0, _ => 0
  | _, 0 => 0
  | n + 1, i + 1 => if bit map i then 1 + back map n i else 0

/-- The largest cluster that there is, up to a size. -/
def largest (sump : ℕ → ℤ) : ℕ → ℕ
  | 0 => 0
  | i + 1 => if sump (i + 1) > 0 then i + 1 else largest sump i

/-- `ffs_clusteracct` -/
def clusteracct (blkno : ℕ) (cnt : ℤ) : Group :=
  if fs.contigsumsize = 0 then g
  else
    let map := if cnt > 0 then setbit g.cg.clustersfree blkno else clrbit g.cg.clustersfree blkno
    let forw := forw map g.cg.nclusterblks fs.contigsumsize (blkno + 1)
    let back := back map fs.contigsumsize blkno
    let i := min (back + forw + 1) fs.contigsumsize
    let sump := update g.cg.clustersum i (g.cg.clustersum i + cnt)
    let sump := if back > 0 then update sump back (sump back - cnt) else sump
    let sump := if forw > 0 then update sump forw (sump forw - cnt) else sump
    { g with
      cg := { g.cg with clustersfree := map, clustersum := sump }
      maxcluster := largest sump fs.contigsumsize }

/-! ## Summaries -/

/-- The counts of free blocks and fragments change, in the group and in the superblock. -/
def Group.count (nbfree nffree : ℤ) : Group :=
  { g with
    cg := { g.cg with cs := ⟨g.cg.cs.nbfree + nbfree, g.cg.cs.nffree + nffree⟩ }
    cs := ⟨g.cs.nbfree + nbfree, g.cs.nffree + nffree⟩
    cstotal := ⟨g.cstotal.nbfree + nbfree, g.cstotal.nffree + nffree⟩ }

/-- The counts of free blocks in the cylinder and rotational position of `bno` change. -/
def Group.position (bno : ℕ) (cnt : ℤ) : Group :=
  let cylno := fs.cbtocylno bno
  let rpos := fs.cbtorpos bno
  { g with cg := { g.cg with
      blks := update g.cg.blks cylno
        (update (g.cg.blks cylno) rpos (g.cg.blks cylno rpos + cnt))
      blktot := update g.cg.blktot cylno (g.cg.blktot cylno + cnt) } }

/-- Another map of free fragments. -/
def Group.setMap (map : Bytes) : Group :=
  { g with cg := { g.cg with blksfree := map } }

/-- Other counts of runs. -/
def Group.setFrsum (frsum : ℕ → ℤ) : Group :=
  { g with cg := { g.cg with frsum := frsum } }

/-! ## Blocks -/

/-- `ffs_alloccgblk` from `gotit` on. -/
def gotit (bno : ℕ) : Group × ℕ :=
  let blkno := fs.fragstoblks bno
  let g := g.setMap (clrblock fs g.cg.blksfree blkno)
  let g := clusteracct fs g blkno (-1)
  let g := (g.count (-1) 0).position fs bno (-1)
  (g, g.cg.cgx * fs.fpg + bno)

/-- `ffs_alloccgblk` from `norot` on. -/
def norot : Except Panic (Group × ℕ) := do
  let (cg, bno) ← mapsearch fs g.cg bpref fs.frag
  return gotit fs { g with cg := { cg with rotor := bno } } bno

/-- The search of `ffs_alloccgblk` for a rotational position. -/
def findRpos (cylbp : ℕ → ℤ) (pos : ℕ) : ℕ :=
  let i := ((List.range' pos (fs.nrpos - pos)).find? fun i => cylbp i > 0).getD (max pos fs.nrpos)
  if i = fs.nrpos then ((List.range pos).find? fun i => cylbp i > 0).getD pos else i

/-- The loop of `ffs_alloccgblk` over the blocks of a rotational position. -/
def rotLoop (map : Bytes) (bno : ℕ) : (fuel i : ℕ) → Except Panic ℕ
  | 0, _ => .error .cantFindBlk
  | fuel + 1, i =>
    if bno + i ≥ fs.nblk then .error .wild
    else if isblock fs map (bno + i) then .ok (fs.blkstofrags (bno + i))
    else
      let delta := fs.rotbl i
      if delta = 0 ∨ delta + i > fs.nblk then .error .cantFindBlk
      else rotLoop map bno fuel (i + delta)

/-- The block at a rotational position. -/
def rotBlock (cylno i : ℕ) : Except Panic ℕ :=
  let pos := cylno % fs.cpc
  let bno := (cylno - pos) * fs.spc / fs.nspb
  let i := fs.postbl pos i
  if i = -1 then .error .cylGroupsCorrupted
  else if i < 0 then .error .wild
  else rotLoop fs g.cg.blksfree bno (fs.nblk + 1) i.toNat

/-- `ffs_alloccgblk` -/
def alloccgblk : Except Panic (Group × ℕ) :=
  if bpref = 0 ∨ fs.dtog bpref ≠ g.cg.cgx then norot fs g g.cg.rotor
  else
    let bpref := fs.dtogd (fs.blknum bpref)
    if isblock fs g.cg.blksfree (fs.fragstoblks bpref) then .ok (gotit fs g bpref)
    else if fs.nrpos ≤ 1 ∨ fs.cpc = 0 then norot fs g bpref
    else
      let cylno := fs.cbtocylno bpref
      if g.cg.blktot cylno = 0 then norot fs g bpref
      else
        let cylbp := g.cg.blks cylno
        let i := findRpos fs cylbp (fs.cbtorpos bpref)
        if cylbp i > 0 then do
          let bno ← rotBlock fs g cylno i
          return gotit fs g bno
        else norot fs g bpref

/-! ## Fragments -/

/-- `clrbit` for `n` fragments. -/
def clrbits (map : Bytes) (bno : ℕ) : ℕ → Bytes
  | 0 => map
  | n + 1 => clrbit (clrbits map bno n) (bno + n)

/-- `setbit` for `n` fragments. -/
def setbits (map : Bytes) (bno : ℕ) : ℕ → Bytes
  | 0 => map
  | n + 1 => setbit (setbits map bno n) (bno + n)

/-- `x[i] += cnt` -/
def addAt (x : ℕ → ℤ) (i : ℕ) (cnt : ℤ) : ℕ → ℤ := update x i (x i + cnt)

/-- `ffs_alloccg`, where a block has to be cut. -/
def cutBlock (frags : ℕ) : Except Panic (Group × ℕ) := do
  let (g, bno) ← alloccgblk fs g bpref
  let g := g.setMap (setbits g.cg.blksfree (fs.dtogd bno + frags) (fs.frag - frags))
  let i := fs.frag - frags
  let g := (g.count 0 i).setFrsum (addAt g.cg.frsum i 1)
  return (g, bno)

/-- `ffs_alloccg`, where a run of `allocsiz` fragments is used. -/
def cutRun (frags allocsiz : ℕ) : Except Panic (Group × ℕ) := do
  let (cg, bno) ← mapsearch fs g.cg bpref allocsiz
  let g := { g with cg := cg }
  let g := g.setMap (clrbits g.cg.blksfree bno frags)
  let g := g.count 0 (-frags)
  let frsum := addAt g.cg.frsum allocsiz (-1)
  let g := g.setFrsum (if frags ≠ allocsiz then addAt frsum (allocsiz - frags) 1 else frsum)
  return (g, g.cg.cgx * fs.fpg + bno)

/-- The first size from `frags` on of which there is a run, or a block. -/
def findSize (frsum : ℕ → ℤ) (frags : ℕ) : ℕ :=
  ((List.range' frags (fs.frag - frags)).find? fun i => frsum i ≠ 0).getD (max frags fs.frag)

/-- `ffs_alloccg`; `io` is whether `bread` succeeds. -/
def alloccg (size : ℕ) (io : Bool) : Except Panic (Group × ℕ × Release) :=
  if g.cs.nbfree = 0 ∧ size = fs.bsize then .ok (g, 0, .unread)
  else if io = false ∨ g.cg.magic = false ∨ g.cg.cs.nbfree = 0 ∧ size = fs.bsize then
    .ok (g, 0, .brelse)
  else if size = fs.bsize then do
    let (g, bno) ← alloccgblk fs g bpref
    return (g, bno, .bdwrite)
  else
    let frags := fs.numfrags size
    let allocsiz := findSize fs g.cg.frsum frags
    if allocsiz = fs.frag then
      if g.cg.cs.nbfree = 0 then .ok (g, 0, .brelse)
      else do
        let (g, bno) ← cutBlock fs g bpref frags
        return (g, bno, .bdwrite)
    else do
      let (g, bno) ← cutRun fs g bpref frags allocsiz
      return (g, bno, .bdwrite)

/-- The end of the free fragments behind a fragment, from `i` on. -/
def findClr (map : Bytes) (bno i fin : ℕ) : ℕ :=
  ((List.range' i (fin - i)).find? fun i => isclr map (bno + i)).getD (max i fin)

/-- `ffs_fragextend`, once the fragments are known to be free. -/
def extend (bno bbase ofrags frags : ℕ) : Except Panic Group :=
  let i := findClr g.cg.blksfree bno frags (fs.frag - bbase)
  if i < ofrags then .error .wild
  else
    let frsum := addAt g.cg.frsum (i - ofrags) (-1)
    let g := g.setFrsum (if i ≠ frags then addAt frsum (i - frags) 1 else frsum)
    let g := g.setMap (clrbits g.cg.blksfree (bno + ofrags) (frags - ofrags))
    .ok (g.count 0 (-(frags - ofrags : ℕ)))

/-- `ffs_fragextend` -/
def fragextend (bprev osize nsize : ℕ) (io : Bool) : Except Panic (Group × ℕ × Release) :=
  if g.cs.nffree < fs.numfrags (nsize - osize) then .ok (g, 0, .unread)
  else
    let frags := fs.numfrags nsize
    let bbase := fs.fragnum bprev
    if bbase > fs.fragnum (bprev + frags - 1) then .ok (g, 0, .unread)
    else if io = false ∨ g.cg.magic = false then .ok (g, 0, .brelse)
    else
      let bno := fs.dtogd bprev
      let ofrags := fs.numfrags osize
      match (List.range' ofrags (frags - ofrags)).find? fun i =>
        mapBytes fs * 8 ≤ bno + i || isclr g.cg.blksfree (bno + i) with
      | some i => if mapBytes fs * 8 ≤ bno + i then .error .wild else .ok (g, 0, .brelse)
      | none => do
          let g ← extend fs g bno bbase ofrags frags
          return (g, bprev, .bdwrite)

/-! ## Clusters of blocks -/

/-- The block where `ffs_clusteralloc` starts to search. -/
def clusterStart : ℕ :=
  if fs.dtog bpref ≠ g.cg.cgx then 0 else fs.fragstoblks (fs.dtogd (fs.blknum bpref))

/-- The search of `ffs_clusteralloc` in the map of clusters, with `n` blocks to go: `run` and
`got` at its end. -/
def clusterLoop (map : Bytes) (len : ℕ) : (n run got : ℕ) → ℕ × ℕ
  | 0, run, got => (run, got)
  | n + 1, run, got =>
    if bit map got = false then clusterLoop map len n 0 (got + 1)
    else if run + 1 = len then (run + 1, got)
    else clusterLoop map len n (run + 1) (got + 1)

/-- The loop of `ffs_clusteralloc` that allocates the blocks. -/
def clusterBlocks (bno : ℕ) : (len : ℕ) → Group → Except Panic Group
  | 0, g => .ok g
  | len + 1, g => do
      let g ← clusterBlocks bno len g
      let (g, got) ← alloccgblk fs g (bno + len * fs.frag)
      if got ≠ bno + len * fs.frag then .error .lostBlock else .ok g

/-- `ffs_clusteralloc`, once it has found a cluster. -/
def takeCluster (len run got : ℕ) : Except Panic (Group × ℕ × Release) :=
  let first := got + 1 - run
  match (List.range' first len).find? fun h =>
    fs.nblk ≤ h || !isblock fs g.cg.blksfree h with
  | some h => if fs.nblk ≤ h then .error .wild else .error .mapMismatch
  | none =>
    let bno := g.cg.cgx * fs.fpg + fs.blkstofrags first
    if fs.dtog bno ≠ g.cg.cgx then .error .outOfGroup
    else do
      let g ← clusterBlocks fs bno len g
      return (g, bno, .brelse)

/-- `ffs_clusteralloc` -/
def clusteralloc (len : ℕ) (io : Bool) : Except Panic (Group × ℕ × Release) :=
  if g.maxcluster < len then .ok (g, 0, .unread)
  else if io = false ∨ g.cg.magic = false then .ok (g, 0, .brelse)
  else if (List.range' len (fs.contigsumsize + 1 - len)).all fun i => g.cg.clustersum i ≤ 0 then
    let i : ℤ := if len = 0 then -1 else largest g.cg.clustersum (len - 1)
    .ok ({ g with maxcluster := i }, 0, .brelse)
  else
    let bpref := clusterStart fs g bpref
    let (run, got) := clusterLoop g.cg.clustersfree len (g.cg.nclusterblks - bpref) 0 bpref
    if got = g.cg.nclusterblks then .ok (g, 0, .brelse)
    else takeCluster fs g len run got

/-! ## Freeing -/

/-- The loop of `ffs_blkfree` over the fragments. -/
def freeFrags (map : Bytes) (bno : ℕ) : ℕ → Except Panic Bytes
  | 0 => .ok map
  | n + 1 => do
      let map ← freeFrags map bno n
      if mapBytes fs * 8 ≤ bno + n then .error .wild
      else if isset map (bno + n) then .error .freeingFreeFrag
      else .ok (setbit map (bno + n))

/-- A block is free again. -/
def blockFreed (bno : ℕ) : Group :=
  ((clusteracct fs g (fs.fragstoblks bno) 1).count 1 0).position fs bno 1

/-- `ffs_blkfree` of fragments. -/
def freeTail (bno frags : ℕ) : Except Panic Group := do
  let bbase := bno - fs.fragnum bno
  let blk := (blkmap fs g.cg.blksfree bbase).toNat
  let g := g.setFrsum (fragacct fs blk g.cg.frsum (-1))
  let map ← freeFrags fs g.cg.blksfree bno frags
  let g := (g.setMap map).count 0 frags
  let blk := (blkmap fs g.cg.blksfree bbase).toNat
  let g := g.setFrsum (fragacct fs blk g.cg.frsum 1)
  if isblock fs g.cg.blksfree (fs.fragstoblks bbase) then
    return blockFreed fs (g.count 0 (-fs.frag)) bbase
  else return g

/-- `ffs_blkfree` -/
def blkfree (bno size : ℕ) (io : Bool) : Except Panic (Group × Release) :=
  if size > fs.bsize ∨ fs.fragoff size ≠ 0 then .error .badSize
  else if bno ≥ fs.size then .ok (g, .unread)
  else if io = false ∨ g.cg.magic = false then .ok (g, .brelse)
  else
    let bno := fs.dtogd bno
    if size = fs.bsize then
      let blkno := fs.fragstoblks bno
      if isblock fs g.cg.blksfree blkno then .error .freeingFreeBlock
      else .ok (blockFreed fs (g.setMap (setblock fs g.cg.blksfree blkno)) bno, .bdwrite)
    else do
      let g ← freeTail fs g bno (fs.numfrags size)
      return (g, .bdwrite)

end BSDLite2.Ffs
