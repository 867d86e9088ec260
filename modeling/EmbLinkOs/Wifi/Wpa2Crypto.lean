import Mathlib

set_option autoImplicit false

/-! # Keys and integrity codes of WPA2-Personal

`wpa2_crypto.c` over two primitives, SHA-1 and the decryption of one AES-128 block: HMAC-SHA1, the
expansion of a pre-shared key and two nonces into a pairwise transient key, the integrity code of an
EAPOL frame, RFC 3394 key unwrapping and the check of an RSN element. Buffers are byte lists; a read
through a pointer is `byteAt`. The wiping of temporaries is left out. -/

namespace EmbLinkOs.Wifi

abbrev Bytes := List UInt8

def byteAt (p : Bytes) (i : Nat) : UInt8 := p.getD i 0

/-- The `n` bytes from offset `i` on. -/
def slice (p : Bytes) (i n : Nat) : Bytes := (p.drop i).take n

def zeros (n : Nat) : Bytes := List.replicate n 0

/-- `nonzero`. -/
def nonzero (p : Bytes) : Bool := p.any (· ≠ 0)

/-- The primitives the handshake rests on. -/
class Primitives where
  sha1 : Bytes → Bytes
  aesDecrypt : Bytes → Bytes → Bytes

export Primitives (sha1 aesDecrypt)

section

variable [Primitives]

/-- `hmac_sha1`. -/
def hmacSha1 (key msg : Bytes) : Bytes :=
  let key := if 64 < key.length then sha1 key else key
  let pad := key ++ zeros (64 - key.length)
  sha1 (pad.map (· ^^^ 0x5c) ++ sha1 (pad.map (· ^^^ 0x36) ++ msg))

/-- `memcmp(a, b, n) < 0` on buffers of one length. -/
def memLt : Bytes → Bytes → Bool
  | x :: xs, y :: ys => if x = y then memLt xs ys else x < y
  | _, _ => false

/-- The two buffers, the smaller one first. -/
def inOrder (a b : Bytes) : Bytes := if memLt a b then a ++ b else b ++ a

/-- `"Pairwise key expansion"` with its terminating zero. -/
def ptkLabel : Bytes :=
  [80, 97, 105, 114, 119, 105, 115, 101, 32, 107, 101, 121, 32, 101, 120, 112, 97, 110, 115, 105,
    111, 110, 0]

/-- `wifi_wpa2_ptk`: 48 bytes, the confirmation key, the encryption key and the temporal key. -/
def wpa2Ptk (pmk sta ap snonce anonce : Bytes) : Bytes :=
  let input := ptkLabel ++ inOrder sta ap ++ inOrder snonce anonce
  (hmacSha1 pmk (input ++ [0])).take 20 ++ (hmacSha1 pmk (input ++ [1])).take 20 ++
    (hmacSha1 pmk (input ++ [2])).take 8

/-- `wifi_wpa2_mic`. -/
def wpa2Mic (kck packet : Bytes) : Bytes := (hmacSha1 kck packet).take 16

/-- `b[7-k] ^= t >> (k*8)` for the eight bytes of a register. -/
def xorCounter (a : Bytes) (t : Nat) : Bytes :=
  a.zipWith (· ^^^ ·) ((List.range 8).map fun k => UInt8.ofNat (t >>> ((7 - k) * 8)))

/-- One round of the inner loop: the register `a` and the block `i` of the output. -/
def unwrapRound (kek : Bytes) (st : Bytes × List Bytes) (ti : Nat × Nat) : Bytes × List Bytes :=
  let b := aesDecrypt kek (xorCounter st.1 ti.1 ++ st.2.getD (ti.2 - 1) [])
  (b.take 8, st.2.set (ti.2 - 1) (b.drop 8))

/-- The counters and block indices in the order the two loops visit them. -/
def unwrapSchedule (n : Nat) : List (Nat × Nat) :=
  [5, 4, 3, 2, 1, 0].flatMap fun j => (List.range n).reverse.map fun i => (n * j + (i + 1), i + 1)

/-- `wifi_wpa2_unwrap`. -/
def wpa2Unwrap (kek wrapped : Bytes) (cap : Nat) : Option Bytes :=
  if wrapped.length < 24 || 264 < wrapped.length || wrapped.length % 8 ≠ 0 ||
      cap < wrapped.length - 8 then none
  else
    let n := wrapped.length / 8 - 1
    let blocks := (List.range n).map fun i => slice wrapped (8 + i * 8) 8
    let out := (unwrapSchedule n).foldl (unwrapRound kek) (wrapped.take 8, blocks)
    if out.1 = List.replicate 8 0xa6 then some out.2.flatten else none

end

/-! ## The RSN element -/

def le16 (p : Bytes) (i : Nat) : Nat := (byteAt p i).toNat + (byteAt p (i + 1)).toNat * 256

/-- `selector`: a suite of the 802.11 organisation identifier. -/
def selector (p : Bytes) (i : Nat) (type : UInt8) : Bool :=
  byteAt p i = 0 && byteAt p (i + 1) = 0x0f && byteAt p (i + 2) = 0xac && byteAt p (i + 3) = type

/-- One suite list at offset `i`: the offset after it and whether it names `type`. -/
def suiteList (p : Bytes) (i : Nat) (type : UInt8) : Option (Nat × Bool) :=
  if p.length - i < 2 then none
  else
    let count := le16 p i
    if count = 0 || (p.length - (i + 2)) / 4 < count then none
    else some (i + 2 + count * 4, (List.range count).any fun k => selector p (i + 2 + k * 4) type)

/-- The optional fields after the suite lists: capabilities without required management-frame
    protection, key identifiers, a group management suite. -/
def rsnTail (p : Bytes) (i : Nat) : Bool :=
  let n := p.length
  if i = n then true
  else if n - i < 2 || le16 p i &&& 64 ≠ 0 then false
  else if i + 2 = n then true
  else if n - (i + 2) < 2 then false
  else
    let ids := le16 p (i + 2)
    if (n - (i + 4)) / 16 < ids then false
    else
      let j := i + 4 + ids * 16
      j = n || (n - j = 4 && selector p j 6)

/-- `wifi_rsn_ccmp_psk`: the element body asks for CCMP as group and pairwise cipher and for PSK. -/
def rsnCcmpPsk (p : Bytes) : Bool :=
  if p.length < 18 || 255 < p.length || le16 p 0 ≠ 1 || !selector p 2 4 then false
  else match suiteList p 6 4 with
    | none => false
    | some (i, pair) =>
      match suiteList p i 2 with
      | none => false
      | some (j, psk) => pair && psk && rsnTail p j

end EmbLinkOs.Wifi
