import EmbLinkOs.Embkfs.Files
import EmbLinkOs.Embkfs.Compress

set_option autoImplicit false

/-! # File contents

`embkfs_write_file` with the operations built on it, and the readers. A file is written as a whole:
its old extents are superseded, runs of zero blocks become holes, the rest goes to freshly allocated
runs, compressed where that saves a block and encrypted on an encrypted volume.

The readers here are the ones without the read caches. Data blocks are zero-padded to the block
size. `Cipher` is XTS with the volume's key: all that is used of it is that decrypting undoes
encrypting. The hole scan can read past the end of the caller's buffer: `beyond` is what is in memory
behind it, and reading past that stops the model with `efault`. Where nothing depends on it, the
buffer is taken to end where memory does. -/

namespace EmbLinkOs.Embkfs

open Prog hiding bind

/-- `aes_xts_encrypt` and `aes_xts_decrypt` of a block with the volume's key. -/
class Cipher where
  encrypt : Nat → List UInt8 → List UInt8
  decrypt : Nat → List UInt8 → List UInt8
  decrypt_encrypt : ∀ b x, decrypt b (encrypt b x) = x

/-- A block with the bytes of `chunk` at its start and zeros after them. -/
def padBlock (bs : Nat) (chunk : List UInt8) : List UInt8 :=
  chunk ++ List.replicate (bs - chunk.length) 0

/-- `embk_bytes_all_zero` of `n` bytes of the buffer `d` from `off` on; it stops at the first byte
    that is not zero. `none` when it has to read past the end of the buffer. -/
def allZeroAt (d : List UInt8) (off n : Nat) : Option Bool :=
  let part := (d.drop off).take n
  if part.all (· = 0) then if part.length < n then none else some true else some false

/-- The blocks needed for `n` bytes. -/
def blocksFor (n bs : Nat) : Nat := (n + bs - 1) / bs

/-- `remaining`, a `uint64_t`, with `off` of the `len` bytes done: a hole that reached past the end
    makes it wrap around. -/
def remainingAt (len off : Nat) : Nat :=
  if off ≤ len then len - off else (2 ^ 64 - (off - len) % 2 ^ 64) % 2 ^ 64

/-- The blocks the remaining bytes need. After the wrap-around the rounding up wraps as well. -/
def blocksLeft (len off bs : Nat) : Nat :=
  if off ≤ len then blocksFor (len - off) bs else (remainingAt len off + bs - 1) % 2 ^ 64 / bs

/-- `embk_compress_bound`, in 32 bits. -/
def compressBound (n : Nat) : Nat := (n + n / 255 + 16) % 2 ^ 32

namespace Vol

variable [Checksum Payload] [Cipher]

/-! ## Writing -/

/-- What the bytes `chunk` are on disk in block `b`. -/
def dataImage (enc : Bool) (bs b : Nat) (chunk : List UInt8) : List UInt8 :=
  if enc then Cipher.encrypt b (padBlock bs chunk) else padBlock bs chunk

/-- What of a data block's image its checksum covers. -/
def summed (enc : Bool) (bs b : Nat) (chunk : List UInt8) : List UInt8 :=
  if enc then dataImage enc bs b chunk else chunk

/-- The block loop of `embkfs_write_file`: `n` blocks from `b` on with the bytes of `src`, and the
    checksum of them. -/
def writeBlocks (enc : Bool) (bs : Nat) :
    Nat → Nat → List UInt8 → UInt32 → Prog (Vol Payload) Errno UInt32
  | 0, _, _, csum => pure csum
  | n + 1, b, src, csum => do
    devWrite b (.data (dataImage enc bs b (src.take bs)))
    writeBlocks enc bs n (b + 1) (src.drop bs) (crc32c (summed enc bs b (src.take bs)) csum)

/-- The blocks of a hole that starts at `off`: the first is known to be zero, at most `need` are
    looked at. -/
def holeBlocks (d : List UInt8) (bs off need : Nat) : Nat → Nat → Option Nat
  | 0, n => some n
  | fuel + 1, n =>
    if n < need then
      match allZeroAt d (off + n * bs) bs with
      | none => none
      | some false => some n
      | some true => holeBlocks d bs off need fuel (n + 1)
    else some n

/-- The compressed form of an extent's bytes, where there is one that saves a block. The length is
    cast to 32 bits; from `2 ^ 32 - 4` on the encoder may leave its source. -/
def compressed? (bs got : Nat) (bytes : List UInt8) : Except Compress.Stop (Option (List UInt8)) :=
  if 2 * bs ≤ bytes.length then
    let n := bytes.length % 2 ^ 32
    if 2 ^ 32 - 4 ≤ n then .error .outside
    else (Compress.compress (bytes.take n) (compressBound n)).map
      (fun c => c.filter (fun c => blocksFor c.length bs < got))
  else .ok none

/-- What the loop of `embkfs_write_file` has collected: the new extents with their offsets, the
    blocks they occupy and whether one is compressed. -/
structure Written where
  exts : List (Nat × Extent)
  blocks : Nat
  compressed : Bool

/-- An extent written as it is. -/
def storePlain (bs gen : Nat) (enc : Bool) (start got : Nat) (bytes : List UInt8) :
    Prog (Vol Payload) Errno (Extent × Bool) := do
  let csum ← writeBlocks enc bs got start bytes 0
  pure (⟨start, got, bytes.length, csum.toNat, gen, false, false, enc, 0⟩, false)

/-- An extent written compressed; the blocks that saves are given back. -/
def storePacked (bs gen : Nat) (enc : Bool) (start got : Nat) (bytes c : List UInt8) :
    Prog (Vol Payload) Errno (Extent × Bool) := do
  let n := blocksFor c.length bs
  let csum ← writeBlocks enc bs n start c 0
  noteFreedRun (start + n) (got - n)
  pure (⟨start, n, bytes.length, csum.toNat, gen, false, true, enc, c.length⟩, true)

/-- One data extent at `off`: allocate, perhaps compress, write. -/
def writeExtent (bs gen : Nat) (enc : Bool) (d beyond : List UInt8) (off : Nat) :
    Prog (Vol Payload) Errno (Extent × Bool) := do
  let (start, got) ← allocRun (blocksLeft d.length off bs)
  let n := min (got * bs) (remainingAt d.length off)
  let bytes := ((d ++ beyond).drop off).take n
  if bytes.length < n then fail .efault
  else match compressed? bs got bytes with
    | .error _ => fail .efault
    | .ok none => storePlain bs gen enc start got bytes
    | .ok (some c) => storePacked bs gen enc start got bytes c

/-- The loop of `embkfs_write_file` from offset `off` on; the extents it may still make count
    down from `max_new`. -/
def writeLoop (bs gen : Nat) (enc : Bool) (d beyond : List UInt8) :
    Nat → Nat → Written → Prog (Vol Payload) Errno Written
  | 0, off, w => if remainingAt d.length off ≠ 0 then fail .einval else pure w
  | fuel + 1, off, w =>
    if remainingAt d.length off ≠ 0 then
      let zero := if bs ≤ remainingAt d.length off then allZeroAt (d ++ beyond) off bs else some false
      match zero with
      | none => fail .efault
      | some true =>
        let need := blocksLeft d.length off bs
        match holeBlocks (d ++ beyond) bs off need need 1 with
        | none => fail .efault
        | some n =>
          let hole : Extent := ⟨0, 0, n * bs, 0, gen, true, false, false, 0⟩
          writeLoop bs gen enc d beyond fuel (off + n * bs) { w with exts := w.exts ++ [(off, hole)] }
      | some false => do
        let (x, packed) ← writeExtent bs gen enc d beyond off
        writeLoop bs gen enc d beyond fuel (off + x.logicalSize)
          ⟨w.exts ++ [(off, x)], w.blocks + x.length, w.compressed || packed⟩
    else pure w

/-- The ops of a write: the new extents, the inode, and the old extents whose offset no new one
    has. -/
def writeOps (oid : Nat) (ino : Inode) (old new : List (Nat × Extent)) : List (Put Payload) :=
  new.map (fun x => (extentKey oid x.1, some (.extent x.2))) ++
  (inodeKey oid, some (.inode ino)) ::
  deleteExtents oid (old.filter (fun x => new.all (fun y => y.1 ≠ x.1)))

/-- The inode of a file whose contents were just written. -/
def Inode.written (i : Inode) (size blocks now pid gen : Nat) : Inode :=
  { i with size := size, blocks := blocks, mtime := now, ctime := now, generation := gen,
           writerPid := pid }

/-- `embkfs_write_file` of a buffer with `beyond` behind it. -/
def writeFileIn (beyond : List UInt8) (oid : Nat) (d : List UInt8) (now pid : Nat) :
    Prog (Vol Payload) Errno Unit := do
  let v ← Prog.get
  if v.readOnly then fail .erofs
  else if 4096 < v.blockSize then fail .einval
  else
    let ino ← readInode oid
    if ino.fmt ≠ modeReg ∧ ino.fmt ≠ modeLnk then fail .einval
    else
      let old ← ownExtents oid ino.size
      let gen := v.generation + 1
      transact 0 gen (do
        noteFreedRuns (extentRuns old)
        let w ← writeLoop v.blockSize gen v.encrypted d beyond
          (blocksFor d.length v.blockSize % 2 ^ 32) 0 ⟨[], 0, false⟩
        pure (writeOps oid (Inode.written ino d.length w.blocks now pid gen) old w.exts,
          if w.compressed then incompatCompression else 0))

/-- `embkfs_write_file`. -/
def writeFile (oid : Nat) (d : List UInt8) (now pid : Nat) : Prog (Vol Payload) Errno Unit :=
  writeFileIn [] oid d now pid

/-! ## Reading -/

/-- The bytes of a data block. A block that holds something else fails its extent's checksum. -/
def readData (b : Nat) : Prog (Vol Payload) Errno (List UInt8) := do
  match ← blockRead b with
  | .data bytes => pure bytes
  | _ => fail .einval

/-- Read `n` blocks from `b` on, `left` bytes of them, and the checksum of what was read. -/
def readBlocks (enc : Bool) (bs : Nat) :
    Nat → Nat → Nat → UInt32 → Prog (Vol Payload) Errno (List UInt8 × UInt32)
  | 0, _, _, csum => pure ([], csum)
  | n + 1, b, left, csum => do
    let img ← readData b
    let chunk := min left bs
    let csum := crc32c (if enc then img else img.take chunk) csum
    let plain := if enc then Cipher.decrypt b img else img
    let (rest, csum) ← readBlocks enc bs n (b + 1) (left - chunk) csum
    pure (plain.take chunk ++ rest, csum)

/-- The bytes of an extent, as all readers decode it. A compressed extent of `2 ^ 32` bytes or more
    is decoded by the source in part, over what its buffer held before; it is an error here. -/
def readExtent (bs : Nat) (x : Extent) : Prog (Vol Payload) Errno (List UInt8) :=
  if x.hole then pure (List.replicate x.logicalSize 0)
  else do
    let (raw, csum) ← readBlocks x.encrypted bs x.length x.diskBlock
      (if x.compressed then x.compressedSize else x.logicalSize) 0
    if csum.toNat ≠ x.checksum then fail .einval
    else if x.compressed then
      match Compress.decompress raw x.logicalSize with
      | some bytes => pure bytes
      | none => fail .einval
    else pure raw

/-- The bytes of the extents, in order, until `need` of them are there. -/
def readExtents (bs need : Nat) :
    List (Nat × Extent) → List UInt8 → Prog (Vol Payload) Errno (List UInt8)
  | [], out => pure out
  | x :: rest, out =>
    if out.length < need then do
      let bytes ← readExtent bs x.2
      readExtents bs need rest (out ++ bytes.take (need - out.length))
    else pure out

/-- The inode of an object whose contents can be read. -/
def readFileInode (oid : Nat) : Prog (Vol Payload) Errno Inode := do
  let ino ← readInode oid
  if ino.fmt ≠ modeReg ∧ ino.fmt ≠ modeLnk then fail .einval else pure ino

/-- The extents of an object that has some, as the readers look them up. -/
def fileExtents (oid size : Nat) : Prog (Vol Payload) Errno (List (Nat × Extent)) := do
  let exts ← ownExtents oid size
  if exts = [] then fail .einval else pure exts

/-- `embkfs_read_object_prefix` for the first `want` bytes: what it put into the buffer. -/
def readObjectPrefix (oid want : Nat) : Prog (Vol Payload) Errno (List UInt8) := do
  let v ← Prog.get
  let ino ← readFileInode oid
  if want = 0 ∨ ino.size = 0 then pure []
  else
    let exts ← fileExtents oid ino.size
    readExtents v.blockSize (min want ino.size) exts []

/-- `embkfs_read_object_data` into a buffer of `room` bytes. -/
def readObjectData (oid room : Nat) : Prog (Vol Payload) Errno (List UInt8) := do
  let v ← Prog.get
  let ino ← readFileInode oid
  if ino.size = 0 then pure []
  else if room < ino.size then fail .erange
  else
    let exts ← fileExtents oid ino.size
    readExtents v.blockSize ino.size exts []

/-! ## Operations built on these -/

/-- The contents after `data` was written at `off`. -/
def patched (old : List UInt8) (off : Nat) (data : List UInt8) : List UInt8 :=
  (old ++ List.replicate (off + data.length - old.length) 0).take off ++ data ++
    old.drop (off + data.length)

/-- The first `n` bytes of the old contents; none are read when there are none to keep. -/
def readCopy (oid n : Nat) : Prog (Vol Payload) Errno (List UInt8) :=
  if n = 0 then pure [] else readObjectPrefix oid n

/-- `embkfs_write_object_at`; `beyond` is behind the buffer it makes. -/
def writeObjectAtIn (beyond : List UInt8) (oid off : Nat) (data : List UInt8) (now pid : Nat) :
    Prog (Vol Payload) Errno Unit := do
  if data = [] then pure ()
  else if 2 ^ 64 - 1 - data.length < off then fail .einval
  else
    let ino ← readFileInode oid
    let old ← readCopy oid ino.size
    writeFileIn beyond oid (patched old off data) now pid

def writeObjectAt (oid off : Nat) (data : List UInt8) (now pid : Nat) :
    Prog (Vol Payload) Errno Unit :=
  writeObjectAtIn [] oid off data now pid

/-- `embkfs_truncate_object`; `beyond` is behind the buffer it makes. -/
def truncateObjectIn (beyond : List UInt8) (oid size now pid : Nat) :
    Prog (Vol Payload) Errno Unit := do
  let ino ← readFileInode oid
  let old ← readCopy oid (min ino.size size)
  writeFileIn beyond oid (old ++ List.replicate (size - old.length) 0) now pid

def truncateObject (oid size now pid : Nat) : Prog (Vol Payload) Errno Unit :=
  truncateObjectIn [] oid size now pid

/-- `embkfs_symlink` to a target of at most 1024 bytes: make the object, then write its target; an
    object whose target cannot be written is unlinked again. -/
def symlink (isOpen : Nat → Bool) (dir : Nat) (name target : List UInt8) (now pid : Nat) :
    Prog (Vol Payload) Errno Unit := do
  if target = [] then fail .einval
  else if 1024 < target.length then fail .enametoolong
  else
    let oid ← makeObject dir name (modeLnk ||| permLnk) now pid
    match ← attempt (writeFile oid target now pid) with
    | .ok _ => pure ()
    | .error e =>
      let _ ← attempt (unlink isOpen dir name now)
      fail e

end Vol

end EmbLinkOs.Embkfs
