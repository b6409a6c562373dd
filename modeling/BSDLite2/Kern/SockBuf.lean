import BSDLite2.Kern.Param
import BSDLite2.Lib.Heap

/-!
# Mbufs and socket buffers (`sys/mbuf.h`, `kern/uipc_socket2.c`)

A socket buffer is a queue of records ("trains"): the first mbufs of the records
are linked through `m_nextpkt` from `sb_mb`, the mbufs of one record through
`m_next`, and two counters keep the number of data bytes and of bytes of mbuf
storage.  This module is the code of `uipc_socket2.c` that maintains it, over a
heap of mbufs:

* `MbufBody`, `Mbuf` — an mbuf without and with its two links;
* `Sockbuf` — `struct sockbuf`;
* `sbappend`, `sbappendrecord`, `sbinsertoob`, `sbappendaddr`,
  `sbappendcontrol`, `sbcompress` — the functions that add;
* `sbdrop`, `sbdroprecord`, `sbflush` — the functions that remove.

The loops that walk a list take the number of steps they may make; callers pass
more than the heap has cells, and running out is the fault `Stop.loop`.
-/

namespace BSDLite2.SockBuf

open Heap

/-! ## Mbufs -/

/-- The `MT_` types. -/
inductive MType where
  | free | data | header | socket | pcb | rtable | htable | atable | soname | soopts
  | ftable | rights | ifaddr | control | oobdata
  deriving DecidableEq

/-- An mbuf without its links.  `mOff` is the distance of `m_data` from the start
of the data area, and `dat` the `m_len` bytes found there. -/
structure MbufBody where
  mOff : ℕ
  dat : List (BitVec 8)
  mType : MType
  /-- `M_EXT`, with `m_ext.ext_size` -/
  ext : Option ℕ
  /-- `M_PKTHDR`, with `m_pkthdr.len` -/
  pkthdr : Option ℤ
  /-- `M_EOR` -/
  eor : Bool
  deriving DecidableEq

/-- `struct mbuf`. -/
structure Mbuf extends MbufBody where
  mNext : Option ℕ
  mNextpkt : Option ℕ
  deriving DecidableEq

variable (mem : Mem Mbuf)

/-- `m_len`. -/
def MbufBody.mLen (m : MbufBody) : ℕ := m.dat.length

/-- What an mbuf counts for in `sb_mbcnt`. -/
def MbufBody.mbcnt (m : MbufBody) : ℕ := MSIZE + m.ext.getD 0

/-- `MGET` with type `ty`, then `m_len = |dat|` and the bytes copied in. -/
def mget (ty : MType) (dat : List (BitVec 8)) : MbufBody :=
  { mOff := 0, dat := dat, mType := ty, ext := none, pkthdr := none, eor := false }

/-! ## Socket buffers -/

/-- `struct sockbuf`, without the fields that only concern waiting. -/
structure Sockbuf where
  sbCc : ℤ
  sbHiwat : ℤ
  sbMbcnt : ℤ
  sbMbmax : ℤ
  sbMb : Option ℕ
  /-- `SB_LOCK` in `sb_flags` -/
  sbLock : Bool

/-- A socket buffer and the heap its mbufs are in. -/
structure St where
  mem : Mem Mbuf
  sb : Sockbuf

variable (st : St) (asa : List (BitVec 8))

/-- `sb->sb_mb = m`. -/
@[simps]
def Sockbuf.setMb (sb : Sockbuf) (m : Option ℕ) : Sockbuf := { sb with sbMb := m }

/-- `sballoc`. -/
@[simps]
def sballoc (sb : Sockbuf) (m : MbufBody) : Sockbuf :=
  { sb with sbCc := sb.sbCc + m.mLen, sbMbcnt := sb.sbMbcnt + m.mbcnt }

/-- `sbfree`. -/
@[simps]
def sbfree (sb : Sockbuf) (m : MbufBody) : Sockbuf :=
  { sb with sbCc := sb.sbCc - m.mLen, sbMbcnt := sb.sbMbcnt - m.mbcnt }

/-- `sbspace`. -/
def sbspace (sb : Sockbuf) : ℤ := min (sb.sbHiwat - sb.sbCc) (sb.sbMbmax - sb.sbMbcnt)

/-- More steps than a list through this heap can take. -/
def St.fuel : ℕ := st.mem.brk + 1

/-! ### Adding -/

/-- `while (n->m_nextpkt) n = n->m_nextpkt;` -/
def lastPkt (mem : Mem Mbuf) : ℕ → ℕ → Except Stop ℕ
  | 0, _ => .error .loop
  | fuel + 1, n => do
      let c ← mem.get n
      match c.mNextpkt with
      | none => pure n
      | some n' => lastPkt mem fuel n'

/-- Hang a new record behind the last one. -/
def linkLast (m : ℕ) : Except Stop St :=
  match st.sb.sbMb with
  | some n => do
      let n ← lastPkt st.mem st.fuel n
      let c ← st.mem.get n
      pure { st with mem := st.mem.set n { c with mNextpkt := some m } }
  | none => pure { st with sb := st.sb.setMb (some m) }

/-- A neighbour of an empty mbuf `m`, the next one or else `n`, has its type and
can take its `M_EOR` over. -/
def sameTypeNear (m : Mbuf) (n : Option ℕ) : Except Stop Bool :=
  match m.mNext.or n with
  | none => pure false
  | some o => do
      let oc ← mem.get o
      pure (decide (oc.mType = m.mType))

/-- The first test of `sbcompress`: is `m` freed because it is empty? -/
def freesEmpty (m : Mbuf) (n : Option ℕ) (eor : Bool) : Except Stop Bool :=
  if m.mLen = 0 then
    if eor then sameTypeNear mem m n else pure true
  else pure false

/-- The second test of `sbcompress`: may the bytes of `m` be copied behind those
of `n`? -/
def fits (n m : MbufBody) : Bool :=
  n.ext.isNone && !n.eor && decide (n.mOff + n.mLen + m.mLen < MLEN) &&
    decide (n.mType = m.mType)

/-- The mbuf, if any, that the second test selects. -/
def mergeTarget (m : Mbuf) : Option ℕ → Except Stop (Option (ℕ × Mbuf))
  | none => pure none
  | some n => do
      let nc ← mem.get n
      pure (if fits nc.toMbufBody m.toMbufBody then some (n, nc) else none)

/-- `m` is copied behind `n` and freed. -/
def mergeInto (n : ℕ) (nc : Mbuf) (m : ℕ) (mc : Mbuf) : St :=
  { mem := (st.mem.set n { nc with dat := nc.dat ++ mc.dat }).free m,
    sb := { st.sb with sbCc := st.sb.sbCc + mc.mLen } }

/-- `n->m_next = m`, or `sb->sb_mb = m` if there is no `n`. -/
def linkNext (n : Option ℕ) (m : ℕ) : Except Stop St :=
  match n with
  | some n => do
      let nc ← st.mem.get n
      pure { st with mem := st.mem.set n { nc with mNext := some m } }
  | none => pure { st with sb := st.sb.setMb (some m) }

/-- `sballoc(sb, m)`, `m->m_flags &= ~M_EOR` and `m->m_next = 0`. -/
def takeOver (m : ℕ) (mc : Mbuf) : St :=
  { mem := st.mem.set m { mc with eor := false, mNext := none },
    sb := sballoc st.sb mc.toMbufBody }

/-- The `while` loop of `sbcompress`, at the mbuf `m` to be taken over, the last
mbuf `n` of the record so far and the `M_EOR` seen so far.  It returns the last
two. -/
def sbcompressLoop : ℕ → St → Option ℕ → Option ℕ → Bool →
    Except Stop (St × Option ℕ × Bool)
  | 0, _, _, _, _ => .error .loop
  | _ + 1, st, none, n, eor => pure (st, n, eor)
  | fuel + 1, st, some m, n, eor => do
      let mc ← st.mem.get m
      let eor := eor || mc.eor
      if ← freesEmpty st.mem mc n eor then
        sbcompressLoop fuel { st with mem := st.mem.free m } mc.mNext n eor
      else
        match ← mergeTarget st.mem mc n with
        | some (n, nc) =>
          sbcompressLoop fuel (mergeInto st n nc m mc) mc.mNext (some n) eor
        | none => do
            let st ← linkNext st n m
            sbcompressLoop fuel (takeOver st m mc) mc.mNext (some m) eor

/-- `sbcompress`.  The `printf` of the source for an `M_EOR` with no mbuf to put
it on is left out. -/
def sbcompress (m n : Option ℕ) : Except Stop St := do
  let (st, n, eor) ← sbcompressLoop st.fuel st m n false
  match eor, n with
  | true, some n => do
      let nc ← st.mem.get n
      pure { st with mem := st.mem.set n { nc with eor := true } }
  | _, _ => pure st

/-- What `sbappendrecord` and `sbinsertoob` do once the record's first mbuf is
in the queue: cut it off its chain, hand its `M_EOR` on and compress the rest
behind it. -/
def compressRest (m0 : ℕ) : Except Stop St := do
  let c ← st.mem.get m0
  match c.mNext with
  | none => sbcompress st none (some m0)
  | some m => do
      let mem := st.mem.set m0 { c with eor := false, mNext := none }
      let mc ← mem.get m
      let mem := if c.eor then mem.set m { mc with eor := true } else mem
      sbcompress { st with mem := mem } (some m) (some m0)

/-- `sbappendrecord`. -/
def sbappendrecord : Option ℕ → Except Stop St
  | none => pure st
  | some m0 => do
      let c ← st.mem.get m0
      let st := { st with sb := sballoc st.sb c.toMbufBody }
      let st ← linkLast st m0
      compressRest st m0

/-- The `do` loop of `sbappend` over the last record: `none` if an mbuf of it
has `M_EOR`, and its last mbuf otherwise. -/
def lastUnlessEor (mem : Mem Mbuf) : ℕ → ℕ → Except Stop (Option ℕ)
  | 0, _ => .error .loop
  | fuel + 1, n => do
      let c ← mem.get n
      if c.eor then pure none
      else match c.mNext with
        | none => pure (some n)
        | some n' => lastUnlessEor mem fuel n'

/-- `sbappend`. -/
def sbappend : Option ℕ → Except Stop St
  | none => pure st
  | some m =>
    match st.sb.sbMb with
    | none => sbcompress st (some m) none
    | some n => do
        let n ← lastPkt st.mem st.fuel n
        match ← lastUnlessEor st.mem st.fuel n with
        | none => sbappendrecord st (some m)
        | some n => sbcompress st (some m) (some n)

/-- The `switch` of `sbinsertoob` on one train: past its control mbufs, is it
out-of-band data? -/
def oobTrain (mem : Mem Mbuf) : ℕ → ℕ → Except Stop Bool
  | 0, _ => .error .loop
  | fuel + 1, m => do
      let c ← mem.get m
      match c.mType, c.mNext with
      | .oobdata, _ => pure true
      | .control, some m' => oobTrain mem fuel m'
      | _, _ => pure false

/-- The `for` loop of `sbinsertoob`.  `mp` stands for the pointer cell that is
looked at: `&sb->sb_mb` if `none`, `&a->m_nextpkt` if `some a`; `m` is what it
contains. -/
def oobPlace (mem : Mem Mbuf) : ℕ → Option ℕ → Option ℕ → Except Stop (Option ℕ × Option ℕ)
  | 0, _, _ => .error .loop
  | _ + 1, mp, none => pure (mp, none)
  | fuel + 1, mp, some m => do
      if ← oobTrain mem (mem.brk + 1) m then
        let c ← mem.get m
        oobPlace mem fuel (some m) c.mNextpkt
      else pure (mp, some m)

/-- `*mp = m0`. -/
def storeAt (mp : Option ℕ) (m0 : ℕ) : Except Stop St :=
  match mp with
  | none => pure { st with sb := st.sb.setMb (some m0) }
  | some a => do
      let c ← st.mem.get a
      pure { st with mem := st.mem.set a { c with mNextpkt := some m0 } }

/-- `sbinsertoob`. -/
def sbinsertoob : Option ℕ → Except Stop St
  | none => pure st
  | some m0 => do
      let (mp, next) ← oobPlace st.mem st.fuel none st.sb.sbMb
      let c ← st.mem.get m0
      let st : St := { mem := st.mem.set m0 { c with mNextpkt := next },
                       sb := sballoc st.sb c.toMbufBody }
      let st ← storeAt st mp m0
      compressRest st m0

/-- Walk a chain to its end, adding up the lengths: the loops over `control` and
`m0` that compute the space needed.  It returns the last mbuf. -/
def chainLen (mem : Mem Mbuf) : ℕ → Option ℕ → Option ℕ → ℤ → Except Stop (Option ℕ × ℤ)
  | 0, _, _, _ => .error .loop
  | _ + 1, none, last, space => pure (last, space)
  | fuel + 1, some m, _, space => do
      let c ← mem.get m
      chainLen mem fuel c.mNext (some m) (space + c.mLen)

/-- `for (n = m; n; n = n->m_next) sballoc(sb, n);` -/
def sballocChain (mem : Mem Mbuf) : ℕ → Option ℕ → Sockbuf → Except Stop Sockbuf
  | 0, _, _ => .error .loop
  | _ + 1, none, sb => pure sb
  | fuel + 1, some m, sb => do
      let c ← mem.get m
      sballocChain mem fuel c.mNext (sballoc sb c.toMbufBody)

/-- `n->m_next = m0` if there is an `n`. -/
def concat (n m0 : Option ℕ) : Except Stop St :=
  match n with
  | none => pure st
  | some n => do
      let c ← st.mem.get n
      pure { st with mem := st.mem.set n { c with mNext := m0 } }

/-- `m0->m_pkthdr.len`, after the test that there is one. -/
def pkthdrLen : Option ℕ → Except Stop ℤ
  | none => pure 0
  | some m => do
      let c ← mem.get m
      match c.pkthdr with
      | none => throw (.panic "sbappendaddr")
      | some len => pure len

/-- The `MT_SONAME` mbuf in front of a record. -/
def addrMbuf (next : Option ℕ) : Mbuf :=
  { mget .soname asa with mNext := next, mNextpkt := none }

/-- `sbappendaddr` from the successful `MGET` on: `n` is the last mbuf of
`control`. -/
def addAddr (m0 control n : Option ℕ) (m : ℕ) : Except Stop St := do
  let st ← concat st n m0
  let control := if n.isSome then control else m0
  let st := { st with mem := st.mem.set m (addrMbuf asa control) }
  let sb ← sballocChain st.mem st.fuel (some m) st.sb
  linkLast { st with sb := sb } m

/-- `sbappendaddr`, where `asa` holds the `sa_len` bytes of the address and `new`
is what `MGET` gives.  The result is the return value. -/
def sbappendaddr (m0 control new : Option ℕ) : Except Stop (St × Bool) := do
  let pktlen ← pkthdrLen st.mem m0
  let (n, space) ← chainLen st.mem st.fuel control none (asa.length + pktlen)
  if space > sbspace st.sb then pure (st, false)
  else if asa.length > MLEN then pure (st, false)
  else match new with
    | none => pure (st, false)
    | some m => do
        let st ← addAddr st asa m0 control n m
        pure (st, true)

/-- `sbappendcontrol`. -/
def sbappendcontrol (m0 control : Option ℕ) : Except Stop (St × Bool) :=
  match control with
  | none => throw (.panic "sbappendcontrol")
  | some m => do
      let (n, space) ← chainLen st.mem st.fuel control none 0
      let (_, space) ← chainLen st.mem st.fuel m0 none space
      if space > sbspace st.sb then pure (st, false)
      else do
        let st ← concat st n m0
        let sb ← sballocChain st.mem st.fuel control st.sb
        let st ← linkLast { st with sb := sb } m
        pure (st, true)

/-! ### Removing -/

/-- `sbfree(sb, m); MFREE(m, mn);` -/
def sbMfree (m : ℕ) (c : Mbuf) : St :=
  { mem := st.mem.free m, sb := sbfree st.sb c.toMbufBody }

/-- The first loop of `sbdrop`, which removes `len` bytes.  It returns the mbuf
it stopped at and the record after. -/
def sbdropLoop : ℕ → St → Option ℕ → Option ℕ → ℤ →
    Except Stop (St × Option ℕ × Option ℕ)
  | 0, _, _, _, _ => .error .loop
  | fuel + 1, st, m, next, len =>
    if len > 0 then
      match m with
      | none =>
        match next with
        | none => throw (.panic "sbdrop")
        | some m => do
            let c ← st.mem.get m
            sbdropLoop fuel st (some m) c.mNextpkt len
      | some m => do
          let c ← st.mem.get m
          if c.mLen > len then
            let c' := { c with dat := c.dat.drop len.toNat, mOff := c.mOff + len.toNat }
            let sb := { st.sb with sbCc := st.sb.sbCc - len }
            pure ({ mem := st.mem.set m c', sb := sb }, some m, next)
          else sbdropLoop fuel (sbMfree st m c) c.mNext next (len - c.mLen)
    else pure (st, m, next)

/-- The second loop of `sbdrop`, which removes the empty mbufs in front. -/
def sbdropEmpty : ℕ → St → Option ℕ → Except Stop (St × Option ℕ)
  | 0, _, _ => .error .loop
  | _ + 1, st, none => pure (st, none)
  | fuel + 1, st, some m => do
      let c ← st.mem.get m
      if c.mLen = 0 then sbdropEmpty fuel (sbMfree st m c) c.mNext
      else pure (st, some m)

/-- The end of `sbdrop`: what is left of the record is put back in front. -/
def putFront (m next : Option ℕ) : Except Stop St :=
  match m with
  | none => pure { st with sb := st.sb.setMb next }
  | some m => do
      let c ← st.mem.get m
      pure { mem := st.mem.set m { c with mNextpkt := next }, sb := st.sb.setMb (some m) }

/-- `m ? m->m_nextpkt : 0`. -/
def nextpktOf : Option ℕ → Except Stop (Option ℕ)
  | none => pure none
  | some m => do
      let c ← mem.get m
      pure c.mNextpkt

/-- `sbdrop`. -/
def sbdrop (len : ℤ) : Except Stop St := do
  let next ← nextpktOf st.mem st.sb.sbMb
  -- a turn for each mbuf and one more for each change of record
  let (st, m, next) ← sbdropLoop (2 * st.fuel) st st.sb.sbMb next len
  let (st, m) ← sbdropEmpty st.fuel st m
  putFront st m next

/-- The `do` loop of `sbdroprecord`. -/
def freeRecord : ℕ → St → Option ℕ → Except Stop St
  | 0, _, _ => .error .loop
  | _ + 1, st, none => pure st
  | fuel + 1, st, some m => do
      let c ← st.mem.get m
      freeRecord fuel (sbMfree st m c) c.mNext

/-- `sbdroprecord`. -/
def sbdroprecord : Except Stop St :=
  match st.sb.sbMb with
  | none => pure st
  | some m => do
      let c ← st.mem.get m
      freeRecord st.fuel { st with sb := st.sb.setMb c.mNextpkt } (some m)

/-- The `while` loop of `sbflush`. -/
def sbflushLoop : ℕ → St → Except Stop St
  | 0, _ => .error .loop
  | fuel + 1, st =>
    if st.sb.sbMbcnt ≠ 0 then do
      let st ← sbdrop st st.sb.sbCc
      sbflushLoop fuel st
    else pure st

/-- `sbflush`. -/
def sbflush : Except Stop St :=
  if st.sb.sbLock then throw (.panic "sbflush")
  else do
    let st ← sbflushLoop st.fuel st
    if st.sb.sbCc ≠ 0 ∨ st.sb.sbMb.isSome then throw (.panic "sbflush 2")
    else pure st

end BSDLite2.SockBuf
