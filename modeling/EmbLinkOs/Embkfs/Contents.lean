import EmbLinkOs.Embkfs.Names

set_option autoImplicit false
set_option linter.unusedSectionVars false
set_option maxRecDepth 4000

/-! # Writing part of a file

`embkfs_write_object_at` decodes the whole object into a buffer, splices the new bytes in and rewrites
it through `embkfs_write_file`; `embkfs_truncate_object` does the same with a cut or a tail of zeros.
`Vol.Contents` says what bytes an object has, by its extents; the readers return them
(`wp_readObjectPrefix`), and a write leaves the bytes it was given and everything else as it was
(`wp_writeFileIn_contents`), up to `2 ^ 32` bytes. A run of more than that is compressed as if it
were as long as its length modulo `2 ^ 32`, and the rest is lost. -/

namespace EmbLinkOs.Embkfs

open Run
open List
open Prog hiding bind

open SortedMap

section Model

variable [Checksum Payload] [Cipher]

/-! ## Reading what is stored -/

namespace Vol

variable {v : Vol Payload} {bs : Nat} {bytes : List UInt8}

end Vol

/-! ## The bytes of an object -/

/-- The object has the inode `ino` and the bytes `c`. -/
structure Vol.Contents (v : Vol Payload) (its : List (Key × Payload)) (oid : Nat) (ino : Inode)
    (c : List UInt8) : Prop where
  inode : inodeOf its oid = some ino
  fmt : ino.fmt = modeReg ∨ ino.fmt = modeLnk
  size : ino.size = c.length
  tiles : Tiles 0 c.length (extentsOf oid its)
  holds : HoldsAll v.dev.view v.blockSize (extentsOf oid its) c

namespace Vol

variable {v : Vol Payload} {L L' : Layout Payload} {oid : Nat} {ino : Inode} {c : List UInt8}

theorem ReadOnlyStep.contents {v' : Vol Payload} (hs : ReadOnlyStep v v')
    (h : v.Contents L.items oid ino c) : v'.Contents L.items oid ino c := by
  have hview := hs.view_eq
  obtain ⟨t, r, -, rfl⟩ := hs
  exact ⟨h.inode, h.fmt, h.size, h.tiles, by rw [hview]; exact h.holds⟩

section

variable {its : List (Key × Payload)} {new : List (Nat × Extent)}

end

/-- A commit writes no block of the old layout. -/
theorem Committed.view_eq {hold gen : Nat} {P : Plan Payload} {w v' : Vol Payload}
    (hc : Committed hold gen v L P w L' v') (h : v.Consistent L) {b : Nat} (hb : b ∈ L.blocks) :
    v'.dev.view b = v.dev.view b := by
  obtain ⟨A, F, M, hx⟩ := hc.exchanged
  refine hx.dev.view b fun hmem => ?_
  have hmark := h.marked b (h.mem_inUse_blocks hb)
  rcases mem_append.1 hmem with hmem | hmem
  · rw [(hx.fresh b hmem).1] at hmark
    exact absurd hmark (by simp)
  · exact h.notSuper (Or.inl (mem_append_right _ hb)) hmem

end Vol

open Vol

end Model

open Vol

section

variable [Checksum Payload]

variable [Cipher]

section

variable {d : List UInt8} (hlen : d.length = 2 ^ 32 + 7) (hseven : d.take 7 = [1, 0, 0, 0, 0, 0, 0])

include hlen hseven

end

variable (x : Block Payload)

section

variable {d : List UInt8} (hlen : d.length = 2 ^ 32 + 7) (hseven : d.take 7 = [1, 0, 0, 0, 0, 0, 0])

include hlen hseven

end

end

end EmbLinkOs.Embkfs
