import Mathlib
import EmbLinkOs.Lib.Runs
import EmbLinkOs.Lib.SortedMap

set_option autoImplicit false

/-! # The EMBKFS on-disk format

The structures of `embkfs.h` as the engine reads and writes them. A block is modelled by what it
holds (a tree node, a superblock, the snapshot registry, file data) rather than by its bytes: the
byte layout enters the engine only through the *sizes* it adds up against the block size
(`ItemData.size`, `nodeHeaderSize` and the others) and through the CRC32C it takes of a whole block
(`Checksum`), and those are kept. The tree engine never looks inside an item's data, so nodes are
generic in the item type `α`. `struct embk_run` is `Run`. -/

namespace EmbLinkOs

/-- The error codes of `errno.h` that the modelled code returns or passes on. -/
inductive Errno
  | eperm | enoent | eio | ebadf | enomem | eacces | efault | ebusy | eexist | exdev | enodev
  | enotdir | eisdir | einval | emfile | enospc | erofs | emlink | erange | enametoolong
  | enotempty | eloop | enotsup
  deriving DecidableEq, Repr

namespace Embkfs

/-! ## Keys -/

/-- `struct embk_key`. -/
@[ext] structure Key where
  objectId : Nat
  type : Nat
  offset : Nat
  deriving DecidableEq, Repr

/-- `embk_key_cmp`: object id first, then type, then offset. -/
def keyCmp (a b : Key) : Ordering :=
  if a.objectId ≠ b.objectId then (if a.objectId < b.objectId then .lt else .gt)
  else if a.type ≠ b.type then (if a.type < b.type then .lt else .gt)
  else if a.offset ≠ b.offset then (if a.offset < b.offset then .lt else .gt)
  else .eq

theorem keyCmp_eq_lt {a b : Key} : keyCmp a b = .lt ↔
    a.objectId < b.objectId ∨ (a.objectId = b.objectId ∧
      (a.type < b.type ∨ (a.type = b.type ∧ a.offset < b.offset))) := by
  unfold keyCmp
  split_ifs <;> simp <;> omega

theorem keyCmp_eq_gt {a b : Key} : keyCmp a b = .gt ↔ keyCmp b a = .lt := by
  rw [keyCmp_eq_lt]
  unfold keyCmp
  split_ifs <;> simp <;> omega

theorem keyCmp_eq_eq {a b : Key} : keyCmp a b = .eq ↔ a = b := by
  rw [Key.ext_iff]
  unfold keyCmp
  split_ifs <;> simp <;> omega

instance : LE Key := ⟨fun a b => keyCmp a b ≠ .gt⟩

instance : LT Key := ⟨fun a b => keyCmp a b = .lt⟩

theorem Key.le_def {a b : Key} : a ≤ b ↔ keyCmp a b ≠ .gt := Iff.rfl

theorem Key.lt_def {a b : Key} : a < b ↔ keyCmp a b = .lt := Iff.rfl

instance (a b : Key) : Decidable (a ≤ b) := inferInstanceAs (Decidable (keyCmp a b ≠ .gt))

instance (a b : Key) : Decidable (a < b) := inferInstanceAs (Decidable (keyCmp a b = .lt))

/-- `embk_key_cmp` is a linear order on keys. -/
instance : LinearOrder Key where
  le_refl a := by rw [Key.le_def, (keyCmp_eq_eq (a := a) (b := a)).2 rfl]; decide
  le_trans a b c := by
    simp only [Key.le_def, ne_eq, keyCmp_eq_gt, keyCmp_eq_lt]
    omega
  le_antisymm a b := by
    simp only [Key.le_def, ne_eq, keyCmp_eq_gt, keyCmp_eq_lt, Key.ext_iff]
    omega
  le_total a b := by
    simp only [Key.le_def, ne_eq, keyCmp_eq_gt, keyCmp_eq_lt]
    omega
  lt_iff_le_not_ge a b := by
    simp only [Key.le_def, Key.lt_def, ne_eq, keyCmp_eq_gt, keyCmp_eq_lt]
    omega
  toDecidableLE := inferInstance
  toDecidableLT := inferInstance
  toDecidableEq := inferInstance

/-! ## Pointers and nodes -/

/-- `struct embk_block_ptr`. -/
structure BlockPtr where
  block : Nat
  checksum : Nat
  generation : Nat
  flags : Nat
  deriving DecidableEq, Repr

/-- The zeroed pointer: no block. -/
def BlockPtr.null : BlockPtr := ⟨0, 0, 0, 0⟩

/-- `struct embk_internal_slot`; `struct embk_child` has the same two fields. -/
structure Slot where
  key : Key
  ptr : BlockPtr
  deriving DecidableEq, Repr

/-- A tree node without its checksum field. The payload area holds `items` when `level = 0` and
    `slots` otherwise; `nritems` counts whichever the level selects. -/
structure Node (α : Type) where
  generation : Nat
  block : Nat
  level : Nat
  items : List (Key × α)
  slots : List Slot
  deriving DecidableEq, Repr

def Node.nritems {α : Type} (n : Node α) : Nat :=
  if n.level = 0 then n.items.length else n.slots.length

def nodeHeaderSize : Nat := 40
def itemHeaderSize : Nat := 32
def internalSlotSize : Nat := 56

/-- `EMBKFS_MAX_SLOTS`. -/
def maxSlots : Nat := 72

/-! ## Superblock and snapshot registry -/

/-- `struct embk_superblock` with the two headers of its block that a commit rewrites: `verify` is
    the HMAC of the verify header (`none` where its magic is wrong), `mirror` the root mirror
    (`null` where no valid mirror header is present). -/
structure Superblock where
  versionMajor : Nat
  featureRoCompat : Nat
  featureIncompat : Nat
  blockSize : Nat
  totalBlocks : Nat
  freeBlocks : Nat
  generation : Nat
  root : BlockPtr
  verify : Option Nat
  mirror : BlockPtr
  checksum : Nat
  deriving DecidableEq, Repr

/-- `struct embk_snapshot_item`; the name is its bytes without the padding. -/
structure SnapshotItem where
  name : List UInt8
  root : BlockPtr
  generation : Nat
  timestamp : Nat
  deriving DecidableEq, Repr

/-- The snapshot registry block: header checksum and the `count` first slots. -/
structure Registry where
  checksum : Nat
  snapshots : List SnapshotItem
  deriving DecidableEq, Repr

/-- `EMBKFS_SB_OFFSET`. -/
def sbOffset : Nat := 65536

/-- `EMBKFS_SNAPREG_BLOCK`. -/
def snapregBlock : Nat := 1

/-- `EMBKFS_MAX_SNAPSHOTS`. -/
def maxSnapshots : Nat := 16

/-- Bytes of the registry header with all its slots. -/
def registrySize : Nat := 24 + maxSnapshots * 80

/-- `EMBKFS_INCOMPAT_COMPRESSION`, `_ENCRYPTED`, `_VERIFIED_ROOT`, `_SNAPREG`, and the
    `EMBKFS_KNOWN_INCOMPAT` they make up. -/
def incompatCompression : Nat := 1
def incompatEncrypted : Nat := 2
def incompatVerifiedRoot : Nat := 4
def incompatSnapreg : Nat := 8
def knownIncompat : Nat := 15

/-- `EMBKFS_ROOT_OBJECT_ID`. -/
def rootObjectId : Nat := 1

/-- `EMBKFS_FIRST_USER_OBJID`. -/
def firstUserObjid : Nat := 2

/-! ## Blocks -/

/-- What a block of the device holds. -/
inductive Block (α : Type)
  | node (checksum : Nat) (n : Node α)
  | super (sb : Superblock)
  | registry (r : Registry)
  | data (bytes : List UInt8)

/-- `struct embk_extent_item`; `compressedSize` is the accessor over `reserved1`. -/
structure Extent where
  diskBlock : Nat
  length : Nat
  logicalSize : Nat
  checksum : Nat
  generation : Nat
  hole : Bool
  compressed : Bool
  encrypted : Bool
  compressedSize : Nat
  deriving DecidableEq, Repr

/-- What the engine reads off an item's data: its size in bytes, and the extent or the snapshot
    record it encodes when it is long enough to be one. -/
class ItemData (α : Type) where
  size : α → Nat
  extent : α → Option Extent
  snapshot : α → Option SnapshotItem

/-- CRC32C of the blocks the engine checksums, as functions of what the blocks hold, and the keyed
    hash of a root pointer and its generation. Nothing about these functions is assumed: the results
    hold for every choice of them. -/
class Checksum (α : Type) where
  node : Node α → Nat
  super : Superblock → Nat
  registry : List SnapshotItem → Nat
  verifyRoot : BlockPtr → Nat → Nat

/-- The low 32 bits of a checksum field, which is what the source compares. -/
def low32 (c : Nat) : Nat := c % 2 ^ 32

end Embkfs

end EmbLinkOs
