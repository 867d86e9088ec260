import EmbLinkOs.Embkfs.Exact

set_option autoImplicit false
set_option linter.unusedSectionVars false

/-! # Snapshots

A snapshot is a record of a root. On a volume with the `SNAPREG` feature the records stand in the
registry block, which is written in place and outside any transaction; otherwise they are items of
the live tree, so that creating one commits a new tree next to the one it freezes, and rolling back
to one brings back the records of that time.

What follows the model are the specifications of its parts: finding a record, replacing the registry
block, and committing an in-tree record. -/

namespace EmbLinkOs.Embkfs

open List
open Prog hiding bind

open SortedMap

variable [Checksum Payload] [Cipher]

namespace Vol

/-! ## The model -/

/-- `embk_snapshot_name_pad`: 31 bytes of the name count. -/
def snapshotName (name : List UInt8) : List UInt8 := name.take 31

/-- The index of the first record with the name, and the record. -/
def findRecord (name : List UInt8) : List SnapshotItem → Option (Nat × SnapshotItem)
  | [] => none
  | s :: rest =>
    if s.name = name then some (0, s) else (findRecord name rest).map (fun r => (r.1 + 1, r.2))

/-- The loop of `embkfs_snapshot_find_slot` over the slots of an in-tree registry. -/
def findLegacy (name : List UInt8) : List Nat → Prog (Vol Payload) Errno (Nat × SnapshotItem)
  | [] => fail .enoent
  | slot :: rest => do
    let it ← findItem (snapshotKey slot)
    match it.bind ItemData.snapshot with
    | some s => if s.name = name then pure (slot, s) else findLegacy name rest
    | none => findLegacy name rest

/-- `embkfs_snapshot_find_slot`. -/
def snapshotFindSlot (name : List UInt8) : Prog (Vol Payload) Errno (Nat × SnapshotItem) := do
  let v ← Prog.get
  if v.snapregEnabled then do
    let slots ← snapregLoad
    match findRecord (snapshotName name) slots with
    | some r => pure r
    | none => fail .enoent
  else findLegacy (snapshotName name) (List.range maxSnapshots)

/-- `embkfs_snapshot_find_free_slot`. -/
def findFreeSlot : List Nat → Prog (Vol Payload) Errno Nat
  | [] => fail .enospc
  | slot :: rest => do
    match ← findItem (snapshotKey slot) with
    | none => pure slot
    | some _ => findFreeSlot rest

/-- The registry block with the given slots. -/
def registryBlock (slots : List SnapshotItem) : Block Payload :=
  .registry ⟨Checksum.registry Payload slots, slots⟩

/-- `embkfs_snapreg_store`. -/
def snapregStore (slots : List SnapshotItem) : Prog (Vol Payload) Errno Unit := do
  let v ← Prog.get
  if 4096 < v.blockSize then fail .einval
  else if maxSnapshots < slots.length then fail .einval
  else devWrite snapregBlock (registryBlock slots)

/-- Replace the slots of the registry block, and count them. -/
def storeSlots (slots : List SnapshotItem) : Prog (Vol Payload) Errno Unit := do
  snapregStore slots
  Prog.modify fun v => { v with snapshotCount := slots.length }

/-- `embkfs_snapshot_create`. -/
def snapshotCreate (name : List UInt8) (now : Nat) : Prog (Vol Payload) Errno Unit := do
  let v ← Prog.get
  if v.readOnly then fail .erofs
  else if name = [] then fail .einval
  else match ← attempt (snapshotFindSlot name) with
    | .ok _ => fail .eexist
    | .error _ =>
      let si : SnapshotItem := ⟨snapshotName name, v.root, v.generation, now⟩
      if v.snapregEnabled then do
        let slots ← snapregLoad
        if maxSnapshots ≤ slots.length then fail .enospc else storeSlots (slots ++ [si])
      else do
        let slot ← findFreeSlot (List.range maxSnapshots)
        transact 1 (v.generation + 1) (pure ([(snapshotKey slot, some (.snapshot si))], 0))

/-- What follows the removal of a record: with the last one the superseded blocks that were held
    back are found by a rebuild. -/
def reclaimHeld : Prog (Vol Payload) Errno Unit := do
  let v ← Prog.get
  if v.snapshotCount = 0 then rebuildAllocator else pure ()

/-- `embkfs_snapshot_delete`. -/
def snapshotDelete (name : List UInt8) : Prog (Vol Payload) Errno Unit := do
  let v ← Prog.get
  if v.readOnly then fail .erofs
  else do
    let (slot, _) ← snapshotFindSlot name
    if v.snapregEnabled then do
      let slots ← snapregLoad
      if slots.length ≤ slot then fail .enoent
      else do
        storeSlots (slots.eraseIdx slot)
        reclaimHeld
    else do
      transact 0 (v.generation + 1) (pure ([(snapshotKey slot, none)], 0))
      Prog.modify fun v => { v with snapshotCount := v.snapshotCount - 1 }
      reclaimHeld

/-- The clear bits of the map. -/
def countFree (v : Vol Payload) : Nat := ((List.range v.totalBlocks).filter (fun b => !v.bitmap b)).length

/-- A rollback that failed: back to the root it began with. -/
def undoRollback (root : BlockPtr) (e : Errno) : Prog (Vol Payload) Errno Unit := do
  Prog.modify fun v => { v with root := root }
  let _ ← attempt bitmapBuild
  fail e

/-- `embkfs_snapshot_rollback`, from the record on. -/
def rollbackTo (si : SnapshotItem) : Prog (Vol Payload) Errno Unit := do
  let v ← Prog.get
  Prog.modify fun v => { v with root := si.root }
  match ← attempt bitmapBuild with
  | .error e => undoRollback v.root e
  | .ok _ =>
    let w ← Prog.get
    match ← attempt (commit si.root (v.generation + 1) w.countFree) with
    | .error e => undoRollback v.root e
    | .ok _ =>
      let _ ← attempt freeIndexRebuild
      pure ()

/-- `embkfs_snapshot_rollback`. -/
def snapshotRollback (name : List UInt8) : Prog (Vol Payload) Errno Unit := do
  let v ← Prog.get
  if v.readOnly then fail .erofs
  else do
    let (_, si) ← snapshotFindSlot name
    rollbackTo si

/-! ## Records -/

section Records

variable {v : Vol Payload} {L : Layout Payload} {its : List (Key × Payload)}

theorem mem_recorded (hr : v.snapregEnabled = false) {si : SnapshotItem} : si ∈ v.recorded its ↔
      ∃ slot < maxSnapshots, find (snapshotKey slot) its = some (.snapshot si) := by
  unfold recorded
  rw [hr, if_neg (by simp), mem_flatMap]
  refine exists_congr (fun slot => and_congr mem_range ?_)
  rw [Option.mem_toList, Option.bind_eq_some_iff]
  constructor
  · rintro ⟨x, hx, hsi⟩
    cases x with
    | snapshot t =>
      obtain rfl : t = si := Option.some.inj hsi
      exact hx
    | inode i => exact absurd hsi (by simp [ItemData.snapshot])
    | dirents ds => exact absurd hsi (by simp [ItemData.snapshot])
    | extent e => exact absurd hsi (by simp [ItemData.snapshot])
  · exact fun hx => ⟨_, hx, rfl⟩

end Records

/-! ## Storing the registry -/

section Store

variable {v : Vol Payload} {L : Layout Payload} {snaps : List (SnapTree Payload)}

/-- The snapshot is one of the layout's or of its live tree. -/
def SnapOf (v : Vol Payload) (L : Layout Payload) (s : SnapTree Payload) : Prop :=
  s ∈ L.snaps ∨ (s.item.root = v.root ∧ s.items = L.items ∧ s.nodes = L.nodes)

theorem SnapOf.tree (h : v.Consistent L) {s : SnapTree Payload} (hs : SnapOf v L s) :
    v.TreeOk s.item.root s.items s.nodes := by
  rcases hs with hs | ⟨hr, hits, hnod⟩
  · exact h.snaps s hs
  · rw [hr, hits, hnod]
    exact h.tree

/-- The registry block was replaced by one that records `snaps`. -/
structure Stored (v : Vol Payload) (L : Layout Payload) (snaps : List (SnapTree Payload))
    (v' : Vol Payload) : Prop where
  consistent : v'.Consistent ⟨L.items, L.nodes, snaps⟩
  snapreg : v.snapregEnabled = true
  origin : ∀ s ∈ snaps, SnapOf v L s
  state : v' = { v with
    dev := v.dev.pushed snapregBlock (registryBlock (snaps.map SnapTree.item)),
    snapshotCount := snaps.length }

theorem Consistent.snapreg_mem (hs : v.snapregEnabled = true) : snapregBlock ∈ v.fixedBlocks := by
  rw [fixedBlocks, if_pos hs]
  simp

/-- The registry could not be written. -/
def Refused (v v' : Vol Payload) : Prop :=
  v.snapregEnabled = true ∧ ∃ x e, v' = v.Latched (v.dev.refused (.write snapregBlock x) e) e

theorem Refused.consistent {v' : Vol Payload} (hr : Refused v v') (h : v.Consistent L) :
    v'.Consistent L := by
  obtain ⟨-, x, e, rfl⟩ := hr
  have hcarry : ∀ ro df, ({ v with
      dev := v.dev.refused (.write snapregBlock x) e, readOnly := ro, deviceFailed := df } : Vol Payload).Consistent L :=
    fun ro df => h.carry ⟨rfl, rfl, rfl⟩ rfl rfl (fun _ _ _ => rfl) rfl rfl h.idle h.free (Or.inl rfl)
      h.marked h.held
  unfold Latched noteFailure
  split
  · exact hcarry true true
  · exact hcarry v.readOnly v.deviceFailed

end Store

/-! ## In-tree records -/

section Legacy

variable {v : Vol Payload} {L : Layout Payload}

end Legacy

end Vol

end EmbLinkOs.Embkfs
