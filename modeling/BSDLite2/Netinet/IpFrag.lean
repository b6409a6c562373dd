import BSDLite2.Kern.Param
import Mathlib.Data.BitVec

/-!
# Packets and their options (`netinet/ip.h`, `netinet/ip_output.c`)

A packet as the models of `ip_input.c` and `ip_output.c` share it: the header as numbers, the
options and the data as bytes.  A `Packet` carries the proof that `ip_hl` accounts for its options,
so that a header length never has to be compared with the bytes it is the length of.

* `Ip`, `Packet` — an IP header, and a packet with its options and data;
* `optLen` — the length byte of an option, which may be read behind the header;
* `optcopyLoop`, `padOptions` — the two loops of `ip_optcopy`.
-/

namespace BSDLite2.IpFrag

open List

variable (beyond : BitVec 8)

/-! ## Packets -/

/-- `struct ip`, in host byte order and without the checksum. -/
structure Ip where
  ipHl : ℕ
  ipTos : BitVec 8
  ipLen : BitVec 16
  ipId : BitVec 16
  ipOff : BitVec 16
  ipTtl : BitVec 8
  ipP : BitVec 8
  ipSrc : BitVec 32
  ipDst : BitVec 32
  deriving DecidableEq

/-- A packet: the fixed header, the options that `ip_hl` makes room for, and the
data behind. -/
structure Packet where
  ip : Ip
  opts : List (BitVec 8)
  data : List (BitVec 8)
  hlen_eq : ip.ipHl * 4 = 20 + opts.length

/-- `ip->ip_hl << 2`. -/
def Packet.hlen (m : Packet) : ℕ := m.ip.ipHl * 4

/-! ## Options -/

/-- `IPOPT_EOL`. -/
def IPOPT_EOL : BitVec 8 := 0

/-- `IPOPT_NOP`. -/
def IPOPT_NOP : BitVec 8 := 1

/-- `IPOPT_COPIED`. -/
def ipoptCopied (opt : BitVec 8) : Bool := opt &&& 0x80 ≠ 0

/-- `cp[IPOPT_OLEN]` of the options `cp`, behind which the byte `beyond` is found
in memory. -/
def optLen (cp : List (BitVec 8)) : ℕ := ((cp ++ [beyond]).getD 1 0).toNat

/-- The first loop of `ip_optcopy`: the options to be copied.  It does not end if
an option has length zero. -/
def optcopyLoop (beyond : BitVec 8) : ℕ → List (BitVec 8) → Option (List (BitVec 8))
  | 0, _ => none
  | _ + 1, [] => some []
  | fuel + 1, opt :: cp =>
    if opt = IPOPT_EOL then some []
    else if opt = IPOPT_NOP then (optcopyLoop beyond fuel cp).map (IPOPT_NOP :: ·)
    else
      let optlen := min (optLen beyond (opt :: cp)) (opt :: cp).length
      (optcopyLoop beyond fuel ((opt :: cp).drop optlen)).map fun dp =>
        (if ipoptCopied opt then (opt :: cp).take optlen else []) ++ dp

/-- The second loop of `ip_optcopy`: padding to a multiple of 4. -/
def padOptions (dp : List (BitVec 8)) : List (BitVec 8) :=
  dp ++ List.replicate ((4 - dp.length % 4) % 4) IPOPT_EOL

end BSDLite2.IpFrag
