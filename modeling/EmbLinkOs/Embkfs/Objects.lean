import EmbLinkOs.Embkfs.Format

set_option autoImplicit false

/-! # The items of a file-system tree

What `embkfs.h` stores under the three kinds of key the file system uses, and under the key of an
in-tree snapshot: inodes, chains of directory entries, extents and snapshot records. Items carry
their on-disk size, which is all the tree engine wants to know about them. -/

namespace EmbLinkOs.Embkfs

/-- `EMBK_TYPE_INODE`, `EMBK_TYPE_DIR_ENTRY`, `EMBK_TYPE_EXTENT`, `EMBK_TYPE_SNAPSHOT`. -/
def typeInode : Nat := 1
def typeDirEntry : Nat := 16
def typeExtent : Nat := 32
def typeSnapshot : Nat := 64

/-- `struct embk_inode_item`; `writerPid` is the accessor over `reserved`. -/
structure Inode where
  size : Nat
  blocks : Nat
  links : Nat
  mode : Nat
  uid : Nat
  gid : Nat
  flags : Nat
  atime : Nat
  mtime : Nat
  ctime : Nat
  btime : Nat
  generation : Nat
  writerPid : Nat
  deriving DecidableEq, Repr

/-- One record of a directory-entry item: `struct embk_dir_entry_item` and the name after it. -/
structure Dirent where
  target : Nat
  type : Nat
  name : List UInt8
  deriving DecidableEq, Repr

/-- `EMBKFS_S_IFMT`, `_IFDIR`, `_IFREG`, `_IFLNK` and the permissions of new objects. -/
def modeFmt : Nat := 0o170000
def modeDir : Nat := 0o040000
def modeReg : Nat := 0o100000
def modeLnk : Nat := 0o120000
def permFile : Nat := 0o644
def permDir : Nat := 0o755
def permLnk : Nat := 0o777

/-- `EMBKFS_DT_REG`, `_DIR`, `_LNK`. -/
def dtReg : Nat := 1
def dtDir : Nat := 2
def dtLnk : Nat := 3

/-- The `S_IFMT` bits of an inode. -/
def Inode.fmt (i : Inode) : Nat := i.mode &&& modeFmt

/-- The `target_type` an entry for an object of this mode has. -/
def direntType (fmt : Nat) : Nat :=
  if fmt = modeDir then dtDir else if fmt = modeLnk then dtLnk else dtReg

/-- One entry of `crc32c_table`. -/
def crc32cEntry (n : UInt32) : UInt32 :=
  (List.range 8).foldl (fun c _ => if c &&& 1 ≠ 0 then (c >>> 1) ^^^ 0x82F63B78 else c >>> 1) n

/-- `embk_crc32c`. -/
def crc32c (data : List UInt8) (seed : UInt32) : UInt32 :=
  data.foldl (fun crc b => crc32cEntry ((crc ^^^ b.toUInt32) &&& 0xFF) ^^^ (crc >>> 8))
    (seed ^^^ 0xFFFFFFFF) ^^^ 0xFFFFFFFF

/-- The hash a directory entry is filed under. -/
def nameHash (name : List UInt8) : Nat := (crc32c name 0).toNat

/-- The data of a tree item. All entries of a directory whose names share a hash are one item. -/
inductive Payload
  | inode (i : Inode)
  | dirents (ds : List Dirent)
  | extent (e : Extent)
  | snapshot (s : SnapshotItem)
  deriving DecidableEq, Repr

/-- The data read as an inode or as a chain of entries; what is of another kind is too short to be
    one. -/
def Payload.inode? : Payload → Option Inode
  | .inode i => some i
  | _ => none

def Payload.dirents? : Payload → Option (List Dirent)
  | .dirents ds => some ds
  | _ => none

/-- The keys of an object's inode, of a chain of a directory's entries and of an extent. -/
def inodeKey (oid : Nat) : Key := ⟨oid, typeInode, 0⟩

def direntKey (dir : Nat) (name : List UInt8) : Key := ⟨dir, typeDirEntry, nameHash name⟩

def extentKey (oid offset : Nat) : Key := ⟨oid, typeExtent, offset⟩

/-- Bytes of the item on disk. -/
def Payload.size : Payload → Nat
  | .inode _ => 128
  | .dirents ds => (ds.map (fun d => 16 + d.name.length)).sum
  | .extent _ => 64
  | .snapshot _ => 80

instance : ItemData Payload where
  size := Payload.size
  extent
    | .extent e => some e
    | _ => none
  snapshot
    | .snapshot s => some s
    | _ => none

end EmbLinkOs.Embkfs
