import EmbLinkOs.Embkfs.Fanout
import EmbLinkOs.Embkfs.Objects

set_option autoImplicit false
set_option linter.unusedSectionVars false

/-! # Rebuilding the bit map

`embkfs_bitmap_build` clears the block bit map and marks afresh what is in use: the blocks with a
fixed place, the live tree with the data its extents name, the root's mirror, and the tree of every
snapshot on record. It runs at mount and whenever the incremental bookkeeping of a transaction
cannot be trusted. A read that fails on the way leaves the map half built.

Without read faults the result is exactly the set of blocks in use (`bitmapBuild_eq`), and the index
made from it covers exactly the rest (`freeIndexRebuild_eq`). -/

namespace EmbLinkOs.Embkfs

open Prog hiding bind

open List

open SortedMap

variable {α β : Type}

/-! ## Extents -/

/-- `embkfs_extent_validate`. -/
def Extent.valid (blockSize totalBlocks : Nat) (e : Extent) : Bool :=
  if e.hole then e.length = 0 && e.diskBlock = 0 && e.logicalSize ≠ 0
  else if e.length = 0 then false
  else if totalBlocks ≤ e.diskBlock ∨ totalBlocks - e.diskBlock < e.length then false
  else
    let cap := e.length * blockSize % 2 ^ 64
    if e.compressed then
      e.compressedSize ≠ 0 && e.compressedSize ≤ cap && e.logicalSize ≠ 0 &&
        e.logicalSize ≤ totalBlocks * blockSize % 2 ^ 64
    else e.logicalSize ≠ 0 && e.logicalSize ≤ cap

/-- The blocks an extent occupies. -/
def Extent.blocks (e : Extent) : List Nat :=
  if e.hole then [] else Run.blocks ⟨e.diskBlock, e.length⟩

section Items

variable [ItemData α]

/-- The data blocks an item accounts for. -/
def itemBlocks (e : Key × α) : List Nat :=
  if e.1.type = typeExtent then ((ItemData.extent e.2).map Extent.blocks).getD [] else []

/-- The data blocks the items of a tree account for. -/
def dataBlocks (its : List (Key × α)) : List Nat := its.flatMap itemBlocks

/-- The item, if it stands under an extent key, is an extent that passes validation. -/
def ExtentOk (blockSize totalBlocks : Nat) (e : Key × α) : Prop :=
  e.1.type = typeExtent → ∃ x, ItemData.extent e.2 = some x ∧ x.valid blockSize totalBlocks = true

/-- The largest object id among `n` and the items. -/
def maxOid (n : Nat) (its : List (Key × α)) : Nat := its.foldl (fun m e => max m e.1.objectId) n

@[simp] theorem dataBlocks_nil : dataBlocks ([] : List (Key × α)) = [] := rfl

@[simp] theorem dataBlocks_cons (e : Key × α) (its : List (Key × α)) :
    dataBlocks (e :: its) = itemBlocks e ++ dataBlocks its := by simp [dataBlocks]

@[simp] theorem dataBlocks_append (its its' : List (Key × α)) :
    dataBlocks (its ++ its') = dataBlocks its ++ dataBlocks its' := by simp [dataBlocks]

end Items

/-- A valid hole has the empty run, so every valid extent occupies the run it names. -/
theorem Extent.valid_blocks {bs total : Nat} {e : Extent} (h : e.valid bs total = true) :
    e.blocks = Run.blocks ⟨e.diskBlock, e.length⟩ := by
  unfold Extent.blocks
  split
  · next hh =>
      unfold Extent.valid at h
      simp only [hh, if_true, Bool.and_eq_true, decide_eq_true_eq] at h
      rw [h.1.1, Run.blocks_zero]
  · rfl

/-- A snapshot on record together with what the tree it froze holds and occupies. -/
structure SnapTree (α : Type) where
  item : SnapshotItem
  items : List (Key × α)
  nodes : List Nat

/-- The blocks the snapshots keep in use; they share blocks with each other and with the live
    tree. -/
def snapBlocks [ItemData α] (snaps : List (SnapTree α)) : List Nat :=
  snaps.flatMap (fun s => s.nodes ++ dataBlocks s.items)

namespace Vol

/-! ## Snapshots on record -/

/-- The key of an in-tree snapshot record. -/
def snapshotKey (slot : Nat) : Key := ⟨rootObjectId, typeSnapshot, slot⟩

/-- The blocks with a fixed place: block 0, the two superblocks and, on a volume that has one, the
    snapshot registry. -/
def fixedBlocks (v : Vol α) : List Nat :=
  [0, v.sbBlock, v.backupBlock] ++ if v.snapregEnabled then [snapregBlock] else []

/-- The block of the root's mirror, if there is one. -/
def mirrorBlocks (v : Vol α) : List Nat :=
  if v.rootMirror.block ≠ 0 ∧ v.rootMirror.block < v.totalBlocks then [v.rootMirror.block] else []

section Model

variable [ItemData α] [Checksum α] {bs : List Nat} {its : List (Key × α)} {v : Vol α}
  {snaps : List (SnapTree α)}

/-- The snapshots a registry block records: none if its magic or its checksum is wrong. -/
def registryOf : Block α → List SnapshotItem
  | .registry r =>
    if low32 r.checksum = low32 (Checksum.registry α r.snapshots) then
      r.snapshots.take maxSnapshots
    else []
  | _ => []

/-- `embkfs_snapreg_load`. -/
def snapregLoad : Prog (Vol α) Errno (List SnapshotItem) := do
  let v ← Prog.get
  if 4096 < v.blockSize then fail .einval
  else
    let x ← blockRead snapregBlock
    if v.blockSize < registrySize then fail .einval else pure (registryOf x)

/-- The loop of `embkfs_snapshot_list_internal` over the slots of an in-tree registry. -/
def legacySnapshots : List Nat → Prog (Vol α) Errno (List SnapshotItem)
  | [] => pure []
  | slot :: rest => do
    let it ← findItem (snapshotKey slot)
    let more ← legacySnapshots rest
    pure ((it.bind ItemData.snapshot).toList ++ more)

/-- `embkfs_snapshot_list_internal`. -/
def snapshotListInternal : Prog (Vol α) Errno (List SnapshotItem) := do
  let v ← Prog.get
  if v.snapregEnabled then snapregLoad else legacySnapshots (List.range maxSnapshots)

/-! ## Marking -/

/-- Set the bits of the listed blocks. -/
def mark (bs : List Nat) (v : Vol α) : Vol α := { v with bitmap := setBits v.bitmap bs true }

/-- The loop of `embkfs_mark_tree` over the items of a leaf. -/
def markItems : List (Key × α) → Prog (Vol α) Errno Unit
  | [] => pure ()
  | e :: rest => do
    Prog.modify fun v => { v with nextOid := max v.nextOid e.1.objectId }
    if e.1.type ≠ typeExtent then markItems rest
    else match ItemData.extent e.2 with
      | none => fail .einval
      | some x =>
        let v ← Prog.get
        if x.valid v.blockSize v.totalBlocks then
          Prog.modify (mark x.blocks)
          markItems rest
        else fail .einval

/-- Run `f` on the children of a node, one after the other. -/
def forSlots (f : BlockPtr → Prog (Vol α) Errno Unit) : List Slot → Prog (Vol α) Errno Unit
  | [] => pure ()
  | s :: rest => do
    f s.ptr
    forSlots f rest

/-- `embkfs_mark_tree`. -/
def markTree : Nat → BlockPtr → Prog (Vol α) Errno Unit
  | 0, _ => fail .einval
  | fuel + 1, p => do
    let n ← readNode p
    Prog.modify (mark [p.block])
    if n.level = 0 then markItems n.items
    else if maxSlots < n.slots.length then fail .einval
    else forSlots (markTree fuel) n.slots

/-- Mark the trees of the snapshots, one after the other. -/
def markSnapshots : List SnapshotItem → Prog (Vol α) Errno Unit
  | [] => pure ()
  | s :: rest => do
    markTree treeFuel s.root
    markSnapshots rest

/-- Exchange the two tapes of read faults. -/
def swapTapes (v : Vol α) : Vol α :=
  { v with dev := { v.dev with readTape := v.dev.rebuildTape, rebuildTape := v.dev.readTape } }

/-- Run `m` with the read faults of the rebuild tape. -/
def onRebuildTape (m : Prog (Vol α) Errno β) : Prog (Vol α) Errno β := do
  Prog.modify swapTapes
  let r ← attempt m
  Prog.modify swapTapes
  Prog.ofExcept r

/-- The snapshots a rebuild marks: those on record, or none if the record cannot be read. -/
def snapshotsToMark : Prog (Vol α) Errno (List SnapshotItem) := do
  match ← attempt snapshotListInternal with
  | .ok snaps => pure (snaps.take maxSnapshots)
  | .error _ => pure []

/-- What `embkfs_bitmap_build` does, apart from where its read faults come from. -/
def markAll : Prog (Vol α) Errno Unit := do
  Prog.modify fun v =>
    { v with bitmap := setBits (fun _ => false) v.fixedBlocks true, nextOid := 0 }
  let v ← Prog.get
  markTree treeFuel v.root
  Prog.modify fun v => mark v.mirrorBlocks v
  let snaps ← snapshotsToMark
  markSnapshots snaps
  Prog.modify fun v =>
    { v with snapshotCount := snaps.length, nextOid := max (v.nextOid + 1) firstUserObjid }

/-- `embkfs_bitmap_build`. -/
def bitmapBuild : Prog (Vol α) Errno Unit := onRebuildTape markAll

/-- `embkfs_bitmap_build` and `embkfs_free_index_rebuild` with both return codes dropped, as a
    transaction that cannot be trusted ends. -/
def rebuildAllocator : Prog (Vol α) Errno Unit := do
  let _ ← attempt bitmapBuild
  let _ ← attempt freeIndexRebuild
  pure ()

/-! ## What is marked -/

/-- The volume with the blocks `bs` marked in addition, and `n` as the next object id. -/
def marked (bs : List Nat) (n : Nat) (v : Vol α) : Vol α :=
  { v with bitmap := setBits v.bitmap bs true, nextOid := n }

theorem marked_marked (bs bs' : List Nat) (n n' : Nat) (v : Vol α) :
    marked bs' n' (marked bs n v) = marked (bs ++ bs') n' v := by
  simp only [marked, setBits_setBits]

theorem marked_congr {bs' : List Nat} (n : Nat) (v : Vol α) (h : ∀ b, b ∈ bs ↔ b ∈ bs') :
    marked bs n v = marked bs' n v := by
  simp only [marked, setBits_congr v.bitmap true h]

theorem marked_nil (v : Vol α) : marked [] v.nextOid v = v := by
  have h : setBits v.bitmap [] true = v.bitmap := by
    funext b
    simp [setBits]
  rw [marked, h]

theorem markItems_eq (hext : ∀ e ∈ its, ExtentOk v.blockSize v.totalBlocks e) :
    markItems its v = (.ok (), marked (dataBlocks its) (maxOid v.nextOid its) v) := by
  induction its generalizing v with
  | nil => rw [dataBlocks_nil, maxOid, foldl_nil, marked_nil]; rfl
  | cons e its ih =>
    have hrest : ∀ e ∈ its, ExtentOk v.blockSize v.totalBlocks e :=
      fun e he => hext e (mem_cons_of_mem _ he)
    by_cases hty : e.1.type = typeExtent
    · obtain ⟨x, hx, hval⟩ := hext e (mem_cons_self ..) hty
      have hblk : itemBlocks e = x.blocks := by simp [itemBlocks, hty, hx]
      simp only [markItems, bind, Prog.bind, Prog.modify, ne_eq, hty, not_true_eq_false, if_false,
        hx, Prog.get, hval, if_true]
      refine (ih (v := marked x.blocks (max v.nextOid e.1.objectId) v) hrest).trans ?_
      rw [dataBlocks_cons, hblk, marked_marked]
      rfl
    · have hblk : itemBlocks e = [] := by simp [itemBlocks, hty]
      simp only [markItems, bind, Prog.bind, Prog.modify, ne_eq, hty, not_false_eq_true, if_true]
      refine (ih (v := { v with nextOid := max v.nextOid e.1.objectId }) hrest).trans ?_
      rw [dataBlocks_cons, hblk, nil_append]
      rfl

/-- If `f` marks each child's blocks, going over the children marks them all. -/
theorem forSlots_eq {f : BlockPtr → Prog (Vol α) Errno Unit} {kids : List (Sub α)}
    (hf : ∀ k ∈ kids, ∀ bs n, f k.slot.ptr (marked bs n v)
      = (.ok (), marked (bs ++ (k.blocks ++ dataBlocks k.items)) (maxOid n k.items) v))
    (bs : List Nat) (n : Nat) :
    forSlots f (kids.map Sub.slot) (marked bs n v)
      = (.ok (), marked (bs ++ (subBlocks kids ++ dataBlocks (subItems kids)))
          (maxOid n (subItems kids)) v) := by
  induction kids generalizing bs n with
  | nil => simp [forSlots, maxOid, pure]
  | cons k kids ih =>
    simp only [map_cons, forSlots, bind, Prog.bind, hf k (mem_cons_self ..)]
    rw [ih (fun k hk => hf k (mem_cons_of_mem _ hk)), subItems_cons, maxOid, maxOid, maxOid,
      foldl_append]
    refine congrArg _ (marked_congr _ _ (fun b => ?_))
    simp only [subBlocks_cons, dataBlocks_append, mem_append]
    tauto

theorem markTree_eq (ht : v.dev.readTape = []) (hf : v.FallbackOk) {l lo fuel : Nat}
    (hfuel : l < fuel) {p : BlockPtr} (hw : WellFormed v.dev.view l p its bs)
    (hfan : Fan v.dev.view lo l p) (hext : ∀ e ∈ its, ExtentOk v.blockSize v.totalBlocks e)
    (bs₀ : List Nat) (n : Nat) :
    markTree fuel p (marked bs₀ n v)
      = (.ok (), marked (bs₀ ++ (bs ++ dataBlocks its)) (maxOid n its) v) := by
  obtain ⟨fuel, rfl⟩ := Nat.exists_eq_succ_of_ne_zero (Nat.ne_zero_of_lt hfuel)
  induction l generalizing lo fuel p its bs bs₀ n with
  | zero =>
    obtain ⟨nd, hn, hlev, rfl, -, rfl⟩ := hw
    have hread : readNode p (marked bs₀ n v) = (.ok nd, marked bs₀ n v) := readNode_eq ht hn hf
    simp only [markTree, bind, Prog.bind, hread, Prog.modify]
    rw [if_pos hlev]
    refine (markItems_eq (v := marked [p.block] n (marked bs₀ n v)) hext).trans ?_
    rw [marked_marked, marked_marked]
    rfl
  | succ l ih =>
    obtain ⟨nd, hn, hlev, kids, hslots, hkids, rfl, rfl⟩ := hw
    obtain ⟨nd', hn', -, hmax, hfan'⟩ := hfan
    obtain rfl := nodeAt_unique hn hn'
    have hread : readNode p (marked bs₀ n v) = (.ok nd, marked bs₀ n v) := readNode_eq ht hn hf
    obtain ⟨fuel, rfl⟩ := Nat.exists_eq_succ_of_ne_zero (show fuel ≠ 0 by omega)
    have hchild : ∀ k ∈ kids, ∀ bs n, markTree (fuel + 1) k.slot.ptr (marked bs n v)
        = (.ok (), marked (bs ++ (k.blocks ++ dataBlocks k.items)) (maxOid n k.items) v) := by
      intro k hk bs n
      refine ih (hkids k hk).1 (hfan' k.slot ?_) (fun e he => hext e ?_) bs n fuel (by omega)
      · rw [hslots]
        exact mem_map_of_mem hk
      · exact mem_subItems.2 ⟨k, hk, he⟩
    rw [markTree]
    simp only [bind, Prog.bind, hread, Prog.modify]
    rw [if_neg (by omega), if_neg (by omega), hslots]
    have hmark : mark [p.block] (marked bs₀ n v) = marked (bs₀ ++ [p.block]) n v :=
      marked_marked bs₀ [p.block] n n v
    rw [hmark, forSlots_eq hchild]
    simp

/-! ## The rebuilt map -/

/-- The snapshots on record in a volume whose live tree holds `its`. -/
def recorded (v : Vol α) (its : List (Key × α)) : List SnapshotItem :=
  if v.snapregEnabled then ((v.dev.view snapregBlock).map registryOf).getD []
  else (List.range maxSnapshots).flatMap
    (fun slot => ((find (snapshotKey slot) its).bind ItemData.snapshot).toList)

/-- The tree under `p` is one the engine maintains: well formed, ordered, fanned out, with valid
    extents. -/
structure TreeOk (v : Vol α) (p : BlockPtr) (its : List (Key × α)) (bs : List Nat) : Prop where
  shape : ∃ l, l < 64 ∧ WellFormed v.dev.view l p its bs ∧ Fan v.dev.view 2 l p
  sorted : Sorted its
  extents : ∀ e ∈ its, ExtentOk v.blockSize v.totalBlocks e

/-- The registry block, on a volume that has one, can be read. -/
def RegistryOk (v : Vol α) : Prop :=
  v.snapregEnabled = true →
    registrySize ≤ v.blockSize ∧ v.blockSize ≤ 4096 ∧ (v.dev.view snapregBlock).isSome

theorem legacySnapshots_eq (ht : v.dev.readTape = []) (hf : v.FallbackOk)
    (hr : v.TreeOk v.root its bs) (slots : List Nat) :
    legacySnapshots slots v = (.ok (slots.flatMap
      (fun slot => ((find (snapshotKey slot) its).bind ItemData.snapshot).toList)), v) := by
  obtain ⟨l, hl, hw, -⟩ := hr.shape
  induction slots with
  | nil => rfl
  | cons slot slots ih =>
    simp only [legacySnapshots, bind, Prog.bind,
      findItem_eq ht hf (by unfold treeFuel; omega) hw hr.sorted, ih, pure, flatMap_cons]

theorem snapshotListInternal_eq (ht : v.dev.readTape = []) (hf : v.FallbackOk)
    (hr : v.TreeOk v.root its bs) (hreg : v.RegistryOk) :
    snapshotListInternal v = (.ok (v.recorded its), v) := by
  simp only [snapshotListInternal, bind, Prog.bind, Prog.get, recorded]
  by_cases hs : v.snapregEnabled = true
  · obtain ⟨h1, h2, h3⟩ := hreg hs
    obtain ⟨x, hx⟩ := Option.isSome_iff_exists.1 h3
    rw [if_pos hs, if_pos hs, hx]
    simp only [snapregLoad, bind, Prog.bind, Prog.get]
    rw [if_neg (by omega)]
    simp only [Prog.bind, blockRead_eq ht hx]
    rw [if_neg (by omega)]
    rfl
  · rw [if_neg hs, if_neg hs]
    exact legacySnapshots_eq ht hf hr _

theorem recorded_eq_nil {v : Vol α} {its : List (Key × α)} (hreg : v.snapregEnabled = false)
    (h : ∀ e ∈ its, e.1.type ≠ typeSnapshot) : v.recorded its = [] := by
  rw [recorded, hreg]
  refine flatMap_eq_nil_iff.2 fun slot _ => ?_
  have hnone : find (snapshotKey slot) its = none := by
    cases hf : find (snapshotKey slot) its with
    | none => rfl
    | some x => exact absurd rfl (h _ (mem_of_find hf))
  show ((find (snapshotKey slot) its).bind _).toList = []
  rw [hnone]
  rfl

theorem length_recorded (v : Vol α) (its : List (Key × α)) :
    (v.recorded its).length ≤ maxSnapshots := by
  unfold recorded
  split
  · cases v.dev.view snapregBlock with
    | none => simp
    | some x =>
      cases x with
      | registry r =>
        simp only [Option.map_some, Option.getD_some, registryOf]
        split
        · exact length_take_le _ _
        · simp
      | node => simp [registryOf]
      | super => simp [registryOf]
      | data => simp [registryOf]
  · rw [length_flatMap]
    refine (sum_le_card_nsmul _ 1 (fun n hn => ?_)).trans (by simp)
    obtain ⟨slot, -, rfl⟩ := mem_map.1 hn
    exact Option.length_toList_le

/-- Every block in use in a volume whose live tree holds `its` in the nodes `bs`. -/
def inUse (v : Vol α) (its : List (Key × α)) (bs : List Nat) (snaps : List (SnapTree α)) :
    List Nat :=
  v.fixedBlocks ++ v.mirrorBlocks ++ (bs ++ dataBlocks its) ++ snapBlocks snaps

theorem TreeOk.markTree_eq {p : BlockPtr} (h : v.TreeOk p its bs) (ht : v.dev.readTape = [])
    (hf : v.FallbackOk) (bs₀ : List Nat) (n : Nat) :
    markTree treeFuel p (marked bs₀ n v)
      = (.ok (), marked (bs₀ ++ (bs ++ dataBlocks its)) (maxOid n its) v) := by
  obtain ⟨l, hl, hw, hfan⟩ := h.shape
  exact Vol.markTree_eq ht hf (by unfold treeFuel; omega) hw hfan h.extents bs₀ n

theorem markSnapshots_eq (ht : v.dev.readTape = []) (hf : v.FallbackOk) (snaps : List (SnapTree α))
    (hs : ∀ s ∈ snaps, v.TreeOk s.item.root s.items s.nodes) (bs : List Nat) (n : Nat) :
    markSnapshots (snaps.map SnapTree.item) (marked bs n v)
      = (.ok (), marked (bs ++ snapBlocks snaps) (maxOid n (snaps.flatMap SnapTree.items)) v) := by
  induction snaps generalizing bs n with
  | nil => simp [markSnapshots, snapBlocks, maxOid, pure]
  | cons s snaps ih =>
    simp only [map_cons, markSnapshots, bind, Prog.bind,
      (hs s (mem_cons_self ..)).markTree_eq ht hf]
    rw [ih (fun s hs' => hs s (mem_cons_of_mem _ hs'))]
    simp [snapBlocks, maxOid]

theorem le_maxOid (n : Nat) (its : List (Key × α)) : n ≤ maxOid n its := by
  unfold maxOid
  induction its generalizing n with
  | nil => exact le_refl _
  | cons e its ih => exact (le_max_left _ _).trans (ih (max n e.1.objectId))

theorem objectId_le_maxOid (n : Nat) {e : Key × α} (he : e ∈ its) :
    e.1.objectId ≤ maxOid n its := by
  unfold maxOid
  induction its generalizing n with
  | nil => exact absurd he (by simp)
  | cons e' its ih =>
    rcases mem_cons.1 he with rfl | he
    · exact (le_max_right n _).trans (le_maxOid _ its)
    · exact ih _ he

/-- With the tape of the current reads empty, everything in use is marked and nothing else. -/
theorem markAll_eq (ht : v.dev.readTape = []) (hf : v.FallbackOk) (hr : v.TreeOk v.root its bs)
    (hs : ∀ s ∈ snaps, v.TreeOk s.item.root s.items s.nodes) (hreg : v.RegistryOk)
    (hrec : v.recorded its = snaps.map SnapTree.item) :
    ∃ n, markAll v = (.ok (), { v with
        bitmap := setBits (fun _ => false) (v.inUse its bs snaps) true,
        nextOid := n, snapshotCount := snaps.length }) ∧
      firstUserObjid ≤ n ∧ ∀ e ∈ its, e.1.objectId < n := by
  let w : Vol α := { v with bitmap := fun _ => false, nextOid := 0 }
  have hroot : markTree treeFuel v.root (marked v.fixedBlocks 0 w)
      = (.ok (), marked (v.fixedBlocks ++ (bs ++ dataBlocks its)) (maxOid 0 its) w) :=
    TreeOk.markTree_eq (v := w) ⟨hr.shape, hr.sorted, hr.extents⟩ ht hf _ _
  set w₁ := marked (v.fixedBlocks ++ (bs ++ dataBlocks its) ++ v.mirrorBlocks) (maxOid 0 its) w
    with hw₁
  have hmir : mark v.mirrorBlocks (marked (v.fixedBlocks ++ (bs ++ dataBlocks its)) (maxOid 0 its) w)
      = w₁ := marked_marked _ _ (maxOid 0 its) _ w
  have hlist : snapshotsToMark w₁ = (.ok (snaps.map SnapTree.item), w₁) := by
    have h := snapshotListInternal_eq (v := w₁) ht hf ⟨hr.shape, hr.sorted, hr.extents⟩ hreg
    have hrec' : w₁.recorded its = snaps.map SnapTree.item := hrec
    have hlen : (snaps.map SnapTree.item).length ≤ maxSnapshots := hrec ▸ length_recorded v its
    simp only [snapshotsToMark, bind, Prog.bind, attempt, h, hrec', pure,
      take_of_length_le hlen]
  have hsnap := markSnapshots_eq (v := w) ht hf snaps
    (fun s hs' => ⟨(hs s hs').shape, (hs s hs').sorted, (hs s hs').extents⟩)
    (v.fixedBlocks ++ (bs ++ dataBlocks its) ++ v.mirrorBlocks) (maxOid 0 its)
  refine ⟨max (maxOid (maxOid 0 its) (snaps.flatMap SnapTree.items) + 1) firstUserObjid, ?_,
    le_max_right _ _, fun e he => ?_⟩
  · have hstart : ({ v with bitmap := setBits (fun _ => false) v.fixedBlocks true, nextOid := 0 }
        : Vol α) = marked v.fixedBlocks 0 w := rfl
    simp only [markAll, bind, Prog.bind, Prog.modify, Prog.get, hstart]
    rw [show (marked v.fixedBlocks 0 w).root = v.root from rfl, hroot]
    dsimp only
    rw [show (marked (v.fixedBlocks ++ (bs ++ dataBlocks its)) (maxOid 0 its) w).mirrorBlocks
      = v.mirrorBlocks from rfl, hmir]
    simp only [hlist]
    rw [hw₁, hsnap]
    simp only [length_map]
    refine congrArg (Prod.mk _) ?_
    have hbits : setBits (fun _ => false)
        (v.fixedBlocks ++ (bs ++ dataBlocks its) ++ v.mirrorBlocks ++ snapBlocks snaps) true
        = setBits (fun _ => false) (v.inUse its bs snaps) true := by
      refine setBits_congr _ true (fun b => ?_)
      simp only [inUse, mem_append]
      tauto
    rw [← hbits]
    rfl
  · have h1 : e.1.objectId ≤ maxOid 0 its := objectId_le_maxOid 0 he
    have h2 := le_maxOid (maxOid 0 its) (snaps.flatMap SnapTree.items)
    omega

/-- **Rebuild.** When no read of the rebuild fails, the map marks exactly the blocks in use. -/
theorem bitmapBuild_eq (ht : v.dev.rebuildTape = []) (hf : v.FallbackOk)
    (hr : v.TreeOk v.root its bs) (hs : ∀ s ∈ snaps, v.TreeOk s.item.root s.items s.nodes)
    (hreg : v.RegistryOk) (hrec : v.recorded its = snaps.map SnapTree.item) :
    ∃ n, bitmapBuild v = (.ok (), { v with
        bitmap := setBits (fun _ => false) (v.inUse its bs snaps) true,
        nextOid := n, snapshotCount := snaps.length }) ∧
      firstUserObjid ≤ n ∧ ∀ e ∈ its, e.1.objectId < n := by
  obtain ⟨n, hrun, hn⟩ := markAll_eq (v := swapTapes v) ht hf ⟨hr.shape, hr.sorted, hr.extents⟩
    (fun s hs' => ⟨(hs s hs').shape, (hs s hs').sorted, (hs s hs').extents⟩) hreg hrec
  refine ⟨n, ?_, hn⟩
  simp only [bitmapBuild, onRebuildTape, bind, Prog.bind, Prog.modify, attempt, hrun,
    Prog.ofExcept]
  rfl

/-- **Recovery.** A transaction that cannot be trusted ends with the map and the index that a fresh
    mount would make, when no read of the rebuild fails. -/
theorem rebuildAllocator_eq (ht : v.dev.rebuildTape = []) (hf : v.FallbackOk)
    (hr : v.TreeOk v.root its bs) (hs : ∀ s ∈ snaps, v.TreeOk s.item.root s.items s.nodes)
    (hreg : v.RegistryOk) (hrec : v.recorded its = snaps.map SnapTree.item) :
    ∃ n ext, rebuildAllocator v = (.ok (), { v with
        bitmap := setBits (fun _ => false) (v.inUse its bs snaps) true,
        nextOid := n, snapshotCount := snaps.length, freeExt := ext }) ∧
      (rebuildAllocator v).2.FreeOk ∧ firstUserObjid ≤ n ∧ ∀ e ∈ its, e.1.objectId < n := by
  obtain ⟨n, hrun, hn⟩ := bitmapBuild_eq ht hf hr hs hreg hrec
  obtain ⟨ext, hrun', hext⟩ := freeIndexRebuild_eq (bitmapBuild v).2
  rw [hrun] at hrun' hext
  have heq : rebuildAllocator v = (.ok (), { v with
      bitmap := setBits (fun _ => false) (v.inUse its bs snaps) true,
      nextOid := n, snapshotCount := snaps.length, freeExt := ext }) := by
    simp only [rebuildAllocator, bind, Prog.bind, attempt, hrun, hrun', pure]
  refine ⟨n, ext, heq, ?_, hn⟩
  rw [heq]
  exact freeOk_of_perm hext

end Model

end Vol

end EmbLinkOs.Embkfs
