import Mathlib

set_option autoImplicit false

/-! # IPv4 input

`ip_input` of `net/ip/ipv4.c` up to the protocol it hands the payload to, with the fields it reads
off the bytes and the transport checksum of `net/net.c`. -/

namespace EmbLinkOs.Ip

abbrev Bytes := List UInt8

/-- `IP_PROTO_ICMP`, `IP_PROTO_UDP`, `IP_PROTO_TCP`. -/
def protoIcmp : UInt8 := 1
def protoUdp : UInt8 := 17
def protoTcp : UInt8 := 6

def byteAt (p : Bytes) (i : Nat) : UInt8 := p.getD i 0

/-- A field of two or of four bytes in network order. -/
def rd16 (p : Bytes) (i : Nat) : UInt16 := (byteAt p i).toUInt16 * 256 + (byteAt p (i + 1)).toUInt16

def rd32 (p : Bytes) (i : Nat) : UInt32 := (rd16 p i).toUInt32 * 65536 + (rd16 p (i + 2)).toUInt32

/-! ## The transport checksum -/

/-- The bytes of a number in network order. -/
def wr16 (v : UInt16) : Bytes := [(v >>> 8).toUInt8, v.toUInt8]

def wr32 (v : UInt32) : Bytes := wr16 (v >>> 16).toUInt16 ++ wr16 v.toUInt16

/-- The sum of the 16-bit words of a memory area, as the machine reads them; an odd last byte is a
    word of its own. -/
def wordSum : Bytes → UInt32
  | a :: b :: p => a.toUInt32 + b.toUInt32 * 256 + wordSum p
  | [a] => a.toUInt32
  | [] => 0

/-- One round of the loop that folds the carries. -/
def foldCarry (sum : UInt32) : UInt32 := (sum &&& (0xFFFF : UInt32)) + (sum >>> (16 : UInt32))

/-- The loop that folds the carries: no word needs more than three rounds, and a round leaves a word
    without carries as it is. -/
def folded (sum : UInt32) : UInt32 := foldCarry (foldCarry (foldCarry sum))

theorem toNat_foldCarry (sum : UInt32) :
    (foldCarry sum).toNat = sum.toNat % 2 ^ 16 + sum.toNat / 2 ^ 16 := by
  have h := sum.toNat_lt
  have hlow : (sum &&& 0xFFFF).toNat = sum.toNat % 2 ^ 16 := by
    rw [UInt32.toNat_and]
    exact Nat.and_two_pow_sub_one_eq_mod _ 16
  have hhigh : (sum >>> 16).toNat = sum.toNat / 2 ^ 16 := by
    rw [UInt32.toNat_shiftRight]
    exact Nat.shiftRight_eq_div_pow _ 16
  rw [foldCarry, UInt32.toNat_add, hlow, hhigh]
  omega

theorem toNat_folded_lt (sum : UInt32) : (folded sum).toNat < 2 ^ 16 := by
  have h := sum.toNat_lt
  have h1 := toNat_foldCarry sum
  have h2 := toNat_foldCarry (foldCarry sum)
  have h3 := toNat_foldCarry (foldCarry (foldCarry sum))
  rw [folded]
  omega

theorem foldCarry_folded (sum : UInt32) : foldCarry (folded sum) = folded sum := by
  have h := toNat_folded_lt sum
  apply UInt32.toNat_inj.1
  rw [toNat_foldCarry]
  omega

/-- `net_l4_checksum`; the pseudo header is summed as the bytes it has on the wire. -/
def netL4Checksum (src dst : UInt32) (proto : UInt8) (seg : Bytes) : UInt16 :=
  let head := wr32 src ++ wr32 dst ++ wr16 proto.toUInt16 ++ wr16 (UInt16.ofNat seg.length)
  (~~~ folded (wordSum head + wordSum seg)).toUInt16

/-! ## Input -/

/-- What `ip_input` hands up, and the address it was sent to. -/
structure Datagram where
  src : UInt32
  dst : UInt32
  proto : UInt8
  payload : Bytes
  deriving DecidableEq

/-- `ihl`. -/
def ihl (pkt : Bytes) : Nat := (byteAt pkt 0 &&& 0x0F).toNat * 4

/-- `plen`: the total length where it is one, else what the frame holds. -/
def payloadLen (pkt : Bytes) : Nat :=
  let total := (rd16 pkt 2).toNat
  if ihl pkt ≤ total && total ≤ pkt.length then total - ihl pkt else pkt.length - ihl pkt

/-- `ip_input` at an interface with the address `ip`. -/
def ipInput (ip : UInt32) (pkt : Bytes) : Option Datagram :=
  if pkt.length < 20 then none
  else if byteAt pkt 0 >>> 4 ≠ 4 then none
  else if ihl pkt < 20 || pkt.length < ihl pkt then none
  else
    let dst := rd32 pkt 16
    if dst ≠ ip && dst ≠ 0xFFFFFFFF && ip ≠ 0 then none
    else some
      { src := rd32 pkt 12, dst, proto := byteAt pkt 9,
        payload := (pkt.drop (ihl pkt)).take (payloadLen pkt) }

end EmbLinkOs.Ip
