import Mathlib

set_option autoImplicit false

/-! # Git objects

What `src/user/git` shares between reading a repository and writing to one: objects named by their
SHA-1 (`sha1.c`, `pack.h`), and the entries of a tree object, which `checkout_tree` of `repo.c` and
`parse_tree` of `push.c` decode in the same way. -/

namespace EmbLinkOs.Git

abbrev Bytes := List UInt8

def ascii (s : String) : Bytes := s.toList.map fun c => UInt8.ofNat c.toNat

/-- A C string: the bytes before the first zero byte. -/
def cstr (b : Bytes) : Bytes := b.takeWhile (· ≠ 0)

/-- The twenty bytes of an object's name. -/
abbrev Sha := { b : Bytes // b.length = 20 }

/-! ## SHA-1 -/

namespace Sha1

/-- `rol`. -/
def rol (x n : UInt32) : UInt32 := (x <<< n) ||| (x >>> (32 - n))

/-- `c->h`, in the names `sha1_block` gives its words. -/
structure Words where
  (a b d e f : UInt32)

/-- `sha1_init`. -/
def init : Words := ⟨0x67452301, 0xEFCDAB89, 0x98BADCFE, 0x10325476, 0xC3D2E1F0⟩

/-- The big-endian word at offset `i`. -/
def word (p : Bytes) (i : Nat) : UInt32 :=
  (p.getD i 0).toUInt32 <<< 24 ||| (p.getD (i + 1) 0).toUInt32 <<< 16 |||
    (p.getD (i + 2) 0).toUInt32 <<< 8 ||| (p.getD (i + 3) 0).toUInt32

/-- The next word of the schedule, from the last sixteen, the oldest first. -/
def expand (w : List UInt32) : UInt32 :=
  rol (w.getD 13 0 ^^^ w.getD 8 0 ^^^ w.getD 2 0 ^^^ w.getD 0 0) 1

/-- The function and the constant of round `i`. -/
def mix (i : Nat) (s : Words) : UInt32 × UInt32 :=
  if i < 20 then ((s.b &&& s.d) ||| (~~~s.b &&& s.e), 0x5A827999)
  else if i < 40 then (s.b ^^^ s.d ^^^ s.e, 0x6ED9EBA1)
  else if i < 60 then ((s.b &&& s.d) ||| (s.b &&& s.e) ||| (s.d &&& s.e), 0x8F1BBCDC)
  else (s.b ^^^ s.d ^^^ s.e, 0xCA62C1D6)

/-- One round with the schedule's word `w`. -/
def round (i : Nat) (s : Words) (w : UInt32) : Words :=
  let (t, k) := mix i s
  ⟨rol s.a 5 + t + s.f + k + w, s.a, rol s.b 30, s.d, s.e⟩

/-- The `n` rounds from the `i`th on, with the sixteen words of the schedule that come next. -/
def rounds : Nat → Nat → Words → List UInt32 → Words
  | 0, _, s, _ => s
  | n + 1, i, s, w => rounds n (i + 1) (round i s (w.getD 0 0)) (w.tail ++ [expand w])

/-- `sha1_block`. -/
def block (s : Words) (p : Bytes) : Words :=
  let t := rounds 80 0 s ((List.range 16).map fun i => word p (i * 4))
  ⟨s.a + t.a, s.b + t.b, s.d + t.d, s.e + t.e, s.f + t.f⟩

/-- The first `n` blocks. -/
def absorb : Nat → Words → Bytes → Words
  | 0, s, _ => s
  | n + 1, s, p => absorb n (block s (p.take 64)) (p.drop 64)

/-- What `sha1_final` feeds behind a message of `len` bytes. -/
def pad (len : Nat) : Bytes :=
  0x80 :: (List.replicate ((55 + 64 - len % 64) % 64) (0 : UInt8) ++
    (List.range 8).map fun i => UInt8.ofNat (len * 8 >>> (56 - 8 * i)))

/-- The bytes `sha1_final` stores for a word. -/
def bytes (x : UInt32) : Bytes :=
  [(x >>> 24).toUInt8, (x >>> 16).toUInt8, (x >>> 8).toUInt8, x.toUInt8]

def Words.digest (s : Words) : Bytes :=
  bytes s.a ++ bytes s.b ++ bytes s.d ++ bytes s.e ++ bytes s.f

theorem length_digest (s : Words) : s.digest.length = 20 := rfl

end Sha1

/-- `sha1`. -/
def sha1 (p : Bytes) : Sha :=
  let msg := p ++ Sha1.pad p.length
  let s := Sha1.absorb (msg.length / 64) Sha1.init msg
  ⟨s.digest, Sha1.length_digest s⟩

/-- The hash of the empty message. -/
example : (sha1 []).1.take 4 = [0xda, 0x39, 0xa3, 0xee] := by decide +kernel

/-! ## Objects -/

/-- `OBJ_COMMIT` and its like. -/
inductive ObjType where
  | commit
  | tree
  | blob
  | tag
  deriving DecidableEq

/-- `pack_type_name`. -/
def packTypeName : ObjType → Bytes
  | .commit => ascii "commit"
  | .tree => ascii "tree"
  | .blob => ascii "blob"
  | .tag => ascii "tag"

/-- `struct pack_obj`. -/
structure PackObj where
  type : ObjType
  data : Bytes
  sha : Sha
  deriving DecidableEq

/-- What `%zu` prints. -/
def decimal (n : Nat) : Bytes := (Nat.toDigits 10 n).map fun c => UInt8.ofNat c.toNat

/-- `obj_sha`: the hash of `<type> <size>`, a zero byte and the content. -/
def objSha (type : ObjType) (data : Bytes) : Sha :=
  sha1 (packTypeName type ++ 0x20 :: (decimal data.length ++ 0 :: data))

/-- An object under its own name. -/
def PackObj.named (type : ObjType) (data : Bytes) : PackObj := ⟨type, data, objSha type data⟩

/-- `find_obj` of `repo.c`, `find_sha` of `push.c`. -/
def findObj (objs : List PackObj) (sha : Sha) : Option PackObj := objs.find? fun o => o.sha = sha

/-- `hexval` of `repo.c`, `hexv` of `push.c`, as the byte its result is stored in: -1 is `0xFF`. -/
def hexval (c : UInt8) : UInt8 :=
  if 0x30 ≤ c ∧ c ≤ 0x39 then c - 0x30
  else if 0x61 ≤ c ∧ c ≤ 0x66 then c - 0x61 + 10
  else if 0x41 ≤ c ∧ c ≤ 0x46 then c - 0x41 + 10
  else 0xFF

theorem length_hexPairs (f : Nat → UInt8) : ((List.range 20).map f).length = 20 := by simp

/-- `hex2bin` of `repo.c`, `unhex20` of `push.c`. -/
def hex2bin (hex : Bytes) : Sha :=
  ⟨(List.range 20).map fun i => hexval (hex.getD (2 * i) 0) <<< 4 ||| hexval (hex.getD (2 * i + 1) 0),
    length_hexPairs _⟩

/-- The digit `h[n]` of `hex20`. -/
def hexDigit (n : UInt8) : UInt8 := if n < 10 then 0x30 + n else 0x61 + (n - 10)

/-- `hex20` of `push.c`, `sha1_hex` of `sha1.c`. -/
def hex20 (sha : Sha) : Bytes :=
  sha.1.flatMap fun b : UInt8 => [hexDigit (b >>> 4), hexDigit (b &&& 15)]

/-! ## The entries of a tree -/

/-- One entry of a tree object: the mode as a C string, the name and the object. -/
structure Entry where
  mode : Bytes
  name : Bytes
  sha : Sha
  deriving DecidableEq

/-- The mode of a subtree, with and without a leading zero. -/
def Entry.isDir (e : Entry) : Bool := e.mode = ascii "40000" || e.mode = ascii "040000"

/-- `memchr`: what stands before the first `c`, and what stands behind it. -/
def cutAt (c : UInt8) : Bytes → Option (Bytes × Bytes)
  | [] => none
  | b :: bs => if b = c then some ([], bs) else (cutAt c bs).map fun p => (b :: p.1, p.2)

theorem length_take_sha {bs : Bytes} (h : ¬ bs.length < 20) : (bs.take 20).length = 20 := by
  rw [List.length_take]
  omega

/-- The twenty bytes at the front. -/
def cutSha (bs : Bytes) : Option (Sha × Bytes) :=
  if h : bs.length < 20 then none else some (⟨bs.take 20, length_take_sha h⟩, bs.drop 20)

/-- One turn of the decoding loop: `<octal mode> <name>`, a zero byte and the object's name. The
loop breaks where there is no space, no zero byte, a mode of eight bytes or a name of 256. -/
def nextEntry (bs : Bytes) : Option (Entry × Bytes) := do
  let (mode, bs) ← cutAt 0x20 bs
  if 8 ≤ mode.length then none
  else do
    let (name, bs) ← cutAt 0 bs
    if 256 ≤ name.length then none
    else do
      let (sha, bs) ← cutSha bs
      return (⟨cstr mode, name, sha⟩, bs)

/-- The entries the loop decodes in at most `n` turns. -/
def entriesTo : Nat → Bytes → List Entry
  | 0, _ => []
  | n + 1, bs =>
    match nextEntry bs with
    | none => []
    | some (e, rest) => e :: entriesTo n rest

/-- The entries of a tree object, as far as the loop goes. A turn takes bytes off the front. -/
def entries (data : Bytes) : List Entry := entriesTo data.length data

end EmbLinkOs.Git
