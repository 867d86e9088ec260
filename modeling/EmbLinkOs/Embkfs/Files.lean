import EmbLinkOs.Embkfs.Walk
import EmbLinkOs.Embkfs.Txn

set_option autoImplicit false

/-! # File operations

The operations on names and objects. Each first reads what it needs and works out the ops that make
up the change (the `plan…` functions, which write nothing), and then applies them in a transaction.

Times and the process id are arguments. The inode, name and extent caches are left out: an entry is
used only while the generation is the one it was made in, and the tree changes only together with
the generation. Object ids, generations and link counts are 64-bit counters that only ever count
operations or entries; they are unbounded here. -/

namespace EmbLinkOs.Embkfs.Vol

open Prog hiding bind
open SortedMap

variable [Checksum Payload]

/-! ## Reading inodes and names -/

/-- `embkfs_inode_cached`; also the read of an object's inode that the operations repeat. -/
def readInode (oid : Nat) : Prog (Vol Payload) Errno Inode := do
  match ← findItem (inodeKey oid) with
  | none => fail .enoent
  | some x => match x.inode? with
    | none => fail .einval
    | some i => pure i

/-- `embkfs_read_dir_inode`. -/
def readDirInode (oid : Nat) : Prog (Vol Payload) Errno Inode := do
  let i ← readInode oid
  if i.fmt ≠ modeDir then fail .enotdir else pure i

/-- The chain of entries a name is filed in: none when it has no item. -/
def readChain (dir : Nat) (name : List UInt8) : Prog (Vol Payload) Errno (Option (List Dirent)) := do
  match ← findItem (direntKey dir name) with
  | none => pure none
  | some x => match x.dirents? with
    | none => fail .einval
    | some ds => pure (some ds)

/-- `embkfs_lookup`. -/
def lookup (dir : Nat) (name : List UInt8) : Prog (Vol Payload) Errno Nat := do
  let d ← readInode dir
  if d.fmt ≠ modeDir then fail .enotdir
  else match ← readChain dir name with
    | none => fail .enoent
    | some ds => match ds.find? (fun r => r.name = name) with
      | none => fail .enoent
      | some r => pure r.target

/-! ## Ops on chains of entries -/

/-- A chain as an op: an empty one is deleted. -/
def chainOp (dir : Nat) (name : List UInt8) (ds : List Dirent) : Put Payload :=
  (direntKey dir name, if ds = [] then none else some (.dirents ds))

/-- `embkfs_dirent_remove_op`. -/
def direntRemoveOp (dir : Nat) (name : List UInt8) : Prog (Vol Payload) Errno (Put Payload) := do
  match ← readChain dir name with
  | none => fail .einval
  | some ds =>
    if ds.all (fun r => r.name ≠ name) then fail .enoent
    else pure (chainOp dir name (ds.eraseP (fun r => r.name = name)))

/-- `embkfs_dirent_add_op`. -/
def direntAddOp (dir : Nat) (name : List UInt8) (target type : Nat) :
    Prog (Vol Payload) Errno (Put Payload) := do
  let ds := (← readChain dir name).getD []
  if ds.any (fun r => r.name = name) then fail .eexist
  else pure (direntKey dir name, some (.dirents (ds ++ [⟨target, type, name⟩])))

/-- The chain with the first entry of that name pointed at another object. -/
def retarget (name : List UInt8) (target type : Nat) : List Dirent → List Dirent
  | [] => []
  | r :: rest =>
    if r.name = name then ⟨target, type, name⟩ :: rest else r :: retarget name target type rest

/-- `embkfs_dirent_retarget_op`. -/
def direntRetargetOp (dir : Nat) (name : List UInt8) (target type : Nat) :
    Prog (Vol Payload) Errno (Put Payload) := do
  match ← readChain dir name with
  | none => fail .enoent
  | some ds =>
    if ds.all (fun r => r.name ≠ name) then fail .enoent
    else pure (direntKey dir name, some (.dirents (retarget name target type ds)))

/-! ## The extents of an object -/

/-- The leaf work of `embkfs_count_extents_rec`. -/
def countLeaf (oid : Nat) : List (Key × Payload) → Nat → Prog (Vol Payload) Errno Nat
  | [], n => pure n
  | e :: rest, n =>
    if e.1.within oid typeExtent then do
      let v ← Prog.get
      match ItemData.extent e.2 with
      | none => fail .einval
      | some x =>
        if x.valid v.blockSize v.totalBlocks then
          if n = 2 ^ 32 - 1 then fail .einval else countLeaf oid rest (n + 1)
        else fail .einval
    else countLeaf oid rest n

/-- `embkfs_count_extents`. -/
def countExtents (oid : Nat) : Prog (Vol Payload) Errno Nat := do
  let v ← Prog.get
  walkRange oid typeExtent (fun _ => false) (countLeaf oid) treeFuel v.root 0

/-- The leaf work of `embkfs_collect_extents_rec`: the extents found so far and whether there were
    more than `max`. -/
def collectLeaf (oid max : Nat) :
    List (Key × Payload) → List (Nat × Extent) × Bool → Prog (Vol Payload) Errno (List (Nat × Extent) × Bool)
  | [], s => pure s
  | e :: rest, s =>
    if e.1.within oid typeExtent then do
      let v ← Prog.get
      match ItemData.extent e.2 with
      | none => fail .einval
      | some x =>
        if x.valid v.blockSize v.totalBlocks then
          if max ≤ s.1.length then pure (s.1, true)
          else collectLeaf oid max rest (s.1 ++ [(e.1.offset, x)], s.2)
        else fail .einval
    else collectLeaf oid max rest s

/-- `embkfs_collect_extents`. -/
def collectExtents (oid max : Nat) : Prog (Vol Payload) Errno (List (Nat × Extent) × Bool) := do
  let v ← Prog.get
  walkRange oid typeExtent (fun _ => false) (collectLeaf oid max) treeFuel v.root ([], false)

/-- The loop of `embkfs_validate_extent_map`: the extents continue at `expect` without a gap and
    end at `size`. -/
def extentMapOk (size : Nat) : Nat → List (Nat × Extent) → Bool
  | expect, [] => expect = size
  | expect, (off, x) :: rest =>
    off = expect && off ≤ 2 ^ 64 - 1 - x.logicalSize && extentMapOk size (off + x.logicalSize) rest

/-- The extents of an object as every operation that gives them up reads them: counted, collected
    and checked against the size in the inode. -/
def ownExtents (oid size : Nat) : Prog (Vol Payload) Errno (List (Nat × Extent)) := do
  let n ← countExtents oid
  if n = 0 then pure []
  else match ← attempt (collectExtents oid n) with
    | .error _ => fail .einval
    | .ok (exts, overflow) =>
      if overflow = true ∨ exts.length ≠ n then fail .einval
      else if extentMapOk size 0 exts then pure exts
      else fail .einval

/-- Deletions of the listed extents of an object. -/
def deleteExtents (oid : Nat) (exts : List (Nat × Extent)) : List (Put Payload) :=
  exts.map (fun x => (extentKey oid x.1, none))

/-- The runs of the listed extents. -/
def extentRuns (exts : List (Nat × Extent)) : List Run :=
  exts.map (fun x => ⟨x.2.diskBlock, x.2.length⟩)

/-! ## Transactions around prepared ops -/

/-- `embkfs_note_freed_run` for each of the runs. -/
def noteFreedRuns : List Run → Prog (Vol Payload) Errno Unit
  | [] => pure ()
  | r :: rs => do
    noteFreedRun r.start r.len
    noteFreedRuns rs

/-- The ops of an operation and the data runs they supersede. -/
structure OpPlan where
  ops : List (Put Payload)
  runs : List Run

/-- Apply the plan in a transaction of its own. -/
def runPlan (p : OpPlan) (gen : Nat) : Prog (Vol Payload) Errno Unit :=
  transact 0 gen (do
    noteFreedRuns p.runs
    pure (p.ops, 0))

/-- The name checks every operation starts with. -/
def nameOk (name : List UInt8) : Bool := name.length ≠ 0 && name.length ≤ 255

/-! ## Making objects -/

/-- An inode with the times and the generation of a change to it or below it. -/
def Inode.touched (i : Inode) (now gen : Nat) : Inode :=
  { i with mtime := now, ctime := now, generation := gen }

/-- The inode of a new object. -/
def freshInode (mode now pid gen : Nat) : Inode :=
  { size := 0, blocks := 0, links := if mode &&& modeFmt = modeDir then 2 else 1, mode := mode,
    uid := 0, gid := 0, flags := 0, atime := now, mtime := now, ctime := now, btime := now,
    generation := gen, writerPid := pid }

/-- A directory's inode after a directory was added to it, or taken from it. -/
def Inode.adopt (i : Inode) : Inode := { i with links := i.links + 1 }

def Inode.release (i : Inode) : Inode := { i with links := i.links - 1 }

/-- The ops that make a new object: its inode, its entry and its parent's inode. -/
def makeOps (dir : Nat) (name : List UInt8) (mode now pid newOid gen : Nat) (parent : Inode)
    (chain : List Dirent) : List (Put Payload) :=
  [(inodeKey newOid, some (.inode (freshInode mode now pid gen))),
    (direntKey dir name, some (.dirents (chain ++ [⟨newOid, direntType (mode &&& modeFmt), name⟩]))),
    (inodeKey dir, some (.inode (Inode.touched
      (if mode &&& modeFmt = modeDir then Inode.adopt parent else parent) now gen)))]

/-- The ops of `embkfs_make_object`. -/
def planMake (dir : Nat) (name : List UInt8) (mode now pid newOid gen : Nat) :
    Prog (Vol Payload) Errno OpPlan := do
  match ← attempt (lookup dir name) with
  | .ok _ => fail .eexist
  | .error .enoent =>
    let parent ← readInode dir
    let chain := (← readChain dir name).getD []
    pure ⟨makeOps dir name mode now pid newOid gen parent chain, []⟩
  | .error e => fail e

/-- `embkfs_make_object`. -/
def makeObject (dir : Nat) (name : List UInt8) (mode now pid : Nat) :
    Prog (Vol Payload) Errno Nat := do
  let v ← Prog.get
  if v.readOnly then fail .erofs
  else if nameOk name then do
    let p ← planMake dir name mode now pid v.nextOid (v.generation + 1)
    runPlan p (v.generation + 1)
    Prog.modify fun v => { v with nextOid := v.nextOid + 1 }
    pure v.nextOid
  else fail .einval

/-- `embkfs_create`. -/
def create (dir : Nat) (name : List UInt8) (now pid : Nat) : Prog (Vol Payload) Errno Nat :=
  makeObject dir name (modeReg ||| permFile) now pid

/-- `embkfs_mkdir`. -/
def mkdir (dir : Nat) (name : List UInt8) (now pid : Nat) : Prog (Vol Payload) Errno Nat :=
  makeObject dir name (modeDir ||| permDir) now pid

/-! ## Links and modes -/

/-- The inode of an object whose link count has become `n`. -/
def Inode.withLinks (i : Inode) (n now gen : Nat) : Inode :=
  { i with links := n, ctime := now, generation := gen }

/-- The ops of `embkfs_link_name`. -/
def planLink (target dir : Nat) (name : List UInt8) (now gen : Nat) :
    Prog (Vol Payload) Errno OpPlan := do
  match ← attempt (lookup dir name) with
  | .ok _ => fail .eexist
  | .error .enoent =>
    let parent ← readDirInode dir
    let ino ← readInode target
    if ino.fmt = modeDir then fail .eperm
    else
      let add ← direntAddOp dir name target (direntType ino.fmt)
      pure ⟨[(inodeKey target, some (.inode (Inode.withLinks ino (ino.links + 1) now gen))),
        add, (inodeKey dir, some (.inode (Inode.touched parent now gen)))], []⟩
  | .error e => fail e

/-- `embkfs_link_name`. -/
def linkName (target dir : Nat) (name : List UInt8) (now : Nat) : Prog (Vol Payload) Errno Unit := do
  let v ← Prog.get
  if v.readOnly then fail .erofs
  else if nameOk name then do
    let p ← planLink target dir name now (v.generation + 1)
    runPlan p (v.generation + 1)
  else fail .einval

/-- `embkfs_chmod_object`. -/
def chmodObject (oid mode now : Nat) : Prog (Vol Payload) Errno Unit := do
  let v ← Prog.get
  if v.readOnly then fail .erofs
  else
    let ino ← readInode oid
    let upd : Inode := { ino with
      mode := ino.fmt ||| (mode &&& (2 ^ 32 - 1 - modeFmt)), ctime := now,
      generation := v.generation + 1 }
    runPlan ⟨[(inodeKey oid, some (.inode upd))], []⟩ (v.generation + 1)

/-! ## Removing names -/

/-- What happens to an object that loses a name: `defer` keeps it as an orphan while it is open,
    `last` removes it together with its extents, otherwise it loses one link. -/
def dropOps (oid : Nat) (ino : Inode) (last defer : Bool) (exts : List (Nat × Extent))
    (now gen : Nat) : List (Put Payload) :=
  if defer then [(inodeKey oid, some (.inode (Inode.withLinks ino 0 now gen)))]
  else if last then (inodeKey oid, none) :: deleteExtents oid exts
  else [(inodeKey oid, some (.inode (Inode.withLinks ino (ino.links - 1) now gen)))]

/-- The extents of an object that loses a name, read only if they go with it. -/
def droppedRead (oid size : Nat) (last defer : Bool) :
    Prog (Vol Payload) Errno (List (Nat × Extent)) :=
  if last && !defer then ownExtents oid size else pure []

/-- The ops of `embkfs_unlink`; `isOpen` is `embkfs_object_is_open`. -/
def planUnlink (isOpen : Nat → Bool) (dir : Nat) (name : List UInt8) (now gen : Nat) :
    Prog (Vol Payload) Errno OpPlan := do
  let target ← lookup dir name
  let ino ← readInode target
  if ino.fmt = modeDir then fail .eisdir
  else
    let last : Bool := ino.links ≤ 1
    let defer := last && isOpen target
    let exts ← droppedRead target ino.size last defer
    let remove ← direntRemoveOp dir name
    let parent ← readInode dir
    pure ⟨dropOps target ino last defer exts now gen ++
      [remove, (inodeKey dir, some (.inode (Inode.touched parent now gen)))], extentRuns exts⟩

/-- `embkfs_unlink`. -/
def unlink (isOpen : Nat → Bool) (dir : Nat) (name : List UInt8) (now : Nat) :
    Prog (Vol Payload) Errno Unit := do
  let v ← Prog.get
  if v.readOnly then fail .erofs
  else if nameOk name then do
    let p ← planUnlink isOpen dir name now (v.generation + 1)
    runPlan p (v.generation + 1)
  else fail .einval

/-- `embkfs_dir_has_entry`. -/
def dirHasEntry (dir : Nat) : Prog (Vol Payload) Errno Bool := do
  let v ← Prog.get
  walkRange dir typeDirEntry id
    (fun its found => pure (found || its.any (fun e => e.1.within dir typeDirEntry)))
    treeFuel v.root false

/-- The ops of `embkfs_rmdir`. -/
def planRmdir (dir : Nat) (name : List UInt8) (now gen : Nat) : Prog (Vol Payload) Errno OpPlan := do
  let target ← lookup dir name
  let ino ← readInode target
  if ino.fmt ≠ modeDir then fail .enotdir
  else if ← dirHasEntry target then fail .enotempty
  else
    let parent ← readInode dir
    if parent.links = 0 then fail .einval
    else
      let remove ← direntRemoveOp dir name
      pure ⟨[(inodeKey target, none),
        (inodeKey dir, some (.inode (Inode.touched (Inode.release parent) now gen))),
        remove], []⟩

/-- `embkfs_rmdir`. -/
def rmdir (dir : Nat) (name : List UInt8) (now : Nat) : Prog (Vol Payload) Errno Unit := do
  let v ← Prog.get
  if v.readOnly then fail .erofs
  else if nameOk name then do
    let p ← planRmdir dir name now (v.generation + 1)
    runPlan p (v.generation + 1)
  else fail .einval

/-! ## Renaming -/

/-- The record loop of `embkfs_dir_contains_oid_rec` over one chain; `sub` searches a
    subdirectory. -/
def containsChain (dir needle : Nat) (sub : Nat → Prog (Vol Payload) Errno Bool) :
    List Dirent → Prog (Vol Payload) Errno Bool
  | [] => pure false
  | r :: rest =>
    if r.target = needle then pure true
    else if r.type = dtDir ∧ r.target ≠ dir ∧ r.target ≠ rootObjectId then do
      if ← sub r.target then pure true else containsChain dir needle sub rest
    else containsChain dir needle sub rest

/-- The item loop of `embkfs_dir_contains_oid_rec` at a leaf. -/
def containsLeaf (dir needle : Nat) (sub : Nat → Prog (Vol Payload) Errno Bool) :
    List (Key × Payload) → Bool → Prog (Vol Payload) Errno Bool
  | [], found => pure found
  | e :: rest, found =>
    if found then pure true
    else if e.1.within dir typeDirEntry then do
      match e.2.dirents? with
      | none => fail .einval
      | some ds =>
        let found ← containsChain dir needle sub ds
        containsLeaf dir needle sub rest found
    else containsLeaf dir needle sub rest found

/-- `embkfs_dir_contains_oid_rec` with `levels` levels of directories left below its limit of 64. -/
def dirContains (needle : Nat) : Nat → Nat → Prog (Vol Payload) Errno Bool
  | 0, _ => fail .einval
  | levels + 1, dir => do
    let v ← Prog.get
    walkRange dir typeDirEntry id (containsLeaf dir needle (dirContains needle levels)) treeFuel
      v.root false

/-- What a name stands for, if it exists. -/
def lookupMaybe (dir : Nat) (name : List UInt8) : Prog (Vol Payload) Errno (Option Nat) := do
  match ← attempt (lookup dir name) with
  | .ok o => pure (some o)
  | .error .enoent => pure none
  | .error e => fail e

/-- A directory does not move below itself. -/
def checkMove (moved : Bool) (newDir target : Nat) : Prog (Vol Payload) Errno Unit := do
  if moved then
    if newDir = target then fail .einval
    else if ← dirContains newDir 65 target then fail .einval
    else pure ()
  else pure ()

/-- The inode of the object that the new name stood for: none to replace, or a file by a file. -/
def readVictim (isDir : Bool) : Option Nat → Prog (Vol Payload) Errno (Option (Nat × Inode))
  | none => pure none
  | some o => do
    let vic ← readInode o
    if decide (vic.fmt = modeDir) ≠ isDir then
      fail (if vic.fmt = modeDir then .eisdir else .enotdir)
    else if vic.fmt = modeDir then fail .enotsup
    else pure (some (o, vic))

/-- The op on the chain of the new name. -/
def renameEntryOp (existing : Option Nat) (dir : Nat) (name : List UInt8) (target type : Nat) :
    Prog (Vol Payload) Errno (Put Payload) :=
  if existing.isSome then direntRetargetOp dir name target type
  else direntAddOp dir name target type

/-- The ops on the replaced object. -/
def dropVictim (isOpen : Nat → Bool) (now gen : Nat) :
    Option (Nat × Inode) → Prog (Vol Payload) Errno (List (Put Payload))
  | none => pure []
  | some (o, vic) => do
    let last : Bool := vic.links ≤ 1
    let defer := last && isOpen o
    let exts ← droppedRead o vic.size last defer
    pure (dropOps o vic last defer exts now gen)

/-- The parents' inodes after a rename; `moved` says that a directory changed its parent. -/
def parentOps (oldDir newDir : Nat) (oldParent newParent : Inode) (moved : Bool) (now gen : Nat) :
    List (Put Payload) :=
  (inodeKey oldDir, some (.inode (Inode.touched
    (if moved then Inode.release oldParent else oldParent) now gen))) ::
  if newDir ≠ oldDir then [(inodeKey newDir, some (.inode (Inode.touched
    (if moved then Inode.adopt newParent else newParent) now gen)))] else []

/-- The ops of `embkfs_rename`; none when there is nothing to do. The runs of a victim that is
    removed are not noted. -/
def planRename (isOpen : Nat → Bool) (oldDir : Nat) (oldName : List UInt8) (newDir : Nat)
    (newName : List UInt8) (now gen : Nat) : Prog (Vol Payload) Errno (Option OpPlan) := do
  let target ← lookup oldDir oldName
  let existing ← lookupMaybe newDir newName
  let oldParent ← readDirInode oldDir
  let newParent ← readDirInode newDir
  let ino ← readInode target
  let moved : Bool := ino.fmt = modeDir ∧ oldDir ≠ newDir
  checkMove moved newDir target
  if existing = some target then pure none
  else
    let victim ← readVictim (ino.fmt = modeDir) existing
    if oldDir = newDir ∧ nameHash oldName = nameHash newName then fail .enotsup
    else
      let remove ← direntRemoveOp oldDir oldName
      let add ← renameEntryOp existing newDir newName target (direntType ino.fmt)
      let drop ← dropVictim isOpen now gen victim
      if moved = true ∧ oldParent.links = 0 then fail .einval
      else pure (some
        ⟨[remove, add] ++ parentOps oldDir newDir oldParent newParent moved now gen ++ drop, []⟩)

/-- `embkfs_rename`. -/
def rename (isOpen : Nat → Bool) (oldDir : Nat) (oldName : List UInt8) (newDir : Nat)
    (newName : List UInt8) (now : Nat) : Prog (Vol Payload) Errno Unit := do
  let v ← Prog.get
  if v.readOnly then fail .erofs
  else if nameOk oldName && nameOk newName then
    if oldDir = newDir ∧ oldName = newName then pure ()
    else do
      match ← planRename isOpen oldDir oldName newDir newName now (v.generation + 1) with
      | none => pure ()
      | some p => runPlan p (v.generation + 1)
  else fail .einval

/-! ## Destroying objects -/

/-- The ops of `embkfs_destroy_object`; none when the object is gone already. -/
def planDestroy (oid : Nat) : Prog (Vol Payload) Errno (Option OpPlan) := do
  match ← findItem (inodeKey oid) with
  | none => pure none
  | some x => match x.inode? with
    | none => fail .einval
    | some ino =>
      if ino.links ≠ 0 then fail .einval
      else
        let exts ← ownExtents oid ino.size
        pure (some ⟨(inodeKey oid, none) :: deleteExtents oid exts, extentRuns exts⟩)

/-- `embkfs_destroy_object`. -/
def destroyObject (oid : Nat) : Prog (Vol Payload) Errno Unit := do
  let v ← Prog.get
  if v.readOnly then fail .erofs
  else match ← planDestroy oid with
    | none => pure ()
    | some p => runPlan p (v.generation + 1)

end EmbLinkOs.Embkfs.Vol

namespace EmbLinkOs.Embkfs

open Prog

variable [Checksum Payload]

/-! ## Open objects -/

/-- `EMBKFS_MAX_OPEN_OBJECTS`. -/
def maxOpenObjects : Nat := 64

/-- A mounted volume with the entries of `g_open_refs` that are in use: object ids and counts. -/
structure Fs where
  vol : Vol Payload
  refs : List (Nat × Nat)

namespace Fs

/-- `embkfs_object_is_open`. -/
def isOpen (f : Fs) (oid : Nat) : Bool := f.refs.any (fun r => r.1 = oid)

/-- Run an operation of the volume. -/
def onVol {β : Type} (m : Prog (Vol Payload) Errno β) : Prog Fs Errno β :=
  Prog.zoom Fs.vol (fun v f => { f with vol := v }) m

/-- The table with one more reference to the object. -/
def incRef (oid : Nat) : List (Nat × Nat) → List (Nat × Nat)
  | [] => [(oid, 1)]
  | r :: rest => if r.1 = oid then (oid, r.2 + 1) :: rest else r :: incRef oid rest

/-- The table with one reference less; an entry that reaches zero is released. -/
def decRef (oid : Nat) : List (Nat × Nat) → List (Nat × Nat)
  | [] => []
  | r :: rest =>
    if r.1 = oid then (if r.2 ≤ 1 then rest else (oid, r.2 - 1) :: rest) else r :: decRef oid rest

/-- `embkfs_object_get`. -/
def objectGet (oid : Nat) : Prog Fs Errno Unit := do
  let f ← Prog.get
  if f.isOpen oid = true ∨ f.refs.length < maxOpenObjects then
    Prog.modify fun f => { f with refs := incRef oid f.refs }
  else fail .enospc

/-- `embkfs_object_put`. -/
def objectPut (oid : Nat) : Prog Fs Errno Unit := do
  let f ← Prog.get
  if f.isOpen oid then do
    Prog.modify fun f => { f with refs := decRef oid f.refs }
    let f ← Prog.get
    if f.isOpen oid then pure ()
    else match ← attempt (onVol (Vol.readInode oid)) with
      | .error _ => pure ()
      | .ok i => if i.links = 0 then onVol (Vol.destroyObject oid) else pure ()
  else fail .enoent

end Fs

end EmbLinkOs.Embkfs
