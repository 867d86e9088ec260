import EmbLinkOs.Embkfs.CowRefinement
import EmbLinkOs.Embkfs.DataSpec

set_option autoImplicit false
set_option linter.unusedSectionVars false

/-! # The file system as a state machine

`FileOp` lists the operations on a mounted volume and the table of open objects, `FileOp.run` is
what each does. Whatever an operation returns, it took the volume through a sequence of `FileStep`s
(`FileOp.wp_run`), so an invariant of single steps is one of every run. The one operation that drops
data blocks without noting them is a rename over the last name of a file that is not open
(`FileOp.lost`).

`finishMount` is the second half of `embkfs_mount`: the volume a superblock describes gets its
allocator and loses its orphans. -/

namespace EmbLinkOs.Embkfs

open List
open Prog hiding bind

open SortedMap

variable [Checksum Payload] [Cipher]

/-! ## The model -/

/-- The operations; `now` and `pid` are what the clock and the scheduler say. -/
inductive FileOp
  | create (dir : Nat) (name : List UInt8) (now pid : Nat)
  | mkdir (dir : Nat) (name : List UInt8) (now pid : Nat)
  | symlink (dir : Nat) (name target : List UInt8) (now pid : Nat)
  | write (oid : Nat) (data : List UInt8) (now pid : Nat)
  | writeAt (oid off : Nat) (data : List UInt8) (now pid : Nat)
  | truncate (oid size now pid : Nat)
  | link (target dir : Nat) (name : List UInt8) (now : Nat)
  | unlink (dir : Nat) (name : List UInt8) (now : Nat)
  | rmdir (dir : Nat) (name : List UInt8) (now : Nat)
  | rename (oldDir : Nat) (oldName : List UInt8) (newDir : Nat) (newName : List UInt8) (now : Nat)
  | chmod (oid mode now : Nat)
  | get (oid : Nat)
  | put (oid : Nat)
  | destroy (oid : Nat)

/-- An operation of the volume whose result is dropped. -/
def Fs.onVol' {β : Type} (m : Prog (Vol Payload) Errno β) : Prog Fs Errno Unit := do
  let _ ← Fs.onVol m
  pure ()

/-- What an operation does. -/
def FileOp.run : FileOp → Prog Fs Errno Unit
  | .create dir name now pid => Fs.onVol' (Vol.create dir name now pid)
  | .mkdir dir name now pid => Fs.onVol' (Vol.mkdir dir name now pid)
  | .symlink dir name target now pid => do
    let f ← Prog.get
    Fs.onVol (Vol.symlink f.isOpen dir name target now pid)
  | .write oid data now pid => Fs.onVol (Vol.writeFile oid data now pid)
  | .writeAt oid off data now pid => Fs.onVol (Vol.writeObjectAt oid off data now pid)
  | .truncate oid size now pid => Fs.onVol (Vol.truncateObject oid size now pid)
  | .link target dir name now => Fs.onVol (Vol.linkName target dir name now)
  | .unlink dir name now => do
    let f ← Prog.get
    Fs.onVol (Vol.unlink f.isOpen dir name now)
  | .rmdir dir name now => Fs.onVol (Vol.rmdir dir name now)
  | .rename oldDir oldName newDir newName now => do
    let f ← Prog.get
    Fs.onVol (Vol.rename f.isOpen oldDir oldName newDir newName now)
  | .chmod oid mode now => Fs.onVol (Vol.chmodObject oid mode now)
  | .get oid => Fs.objectGet oid
  | .put oid => Fs.objectPut oid
  | .destroy oid => Fs.onVol (Vol.destroyObject oid)

/-- The file system after the operation, whatever it returned. -/
def FileOp.exec (op : FileOp) (f : Fs) : Fs := (op.run f).2

/-- The blocks an operation drops without noting them, if it succeeds. -/
def FileOp.lost (f : Fs) (its : List (Key × Payload)) : FileOp → List Nat
  | .rename _ _ newDir newName _ => Vol.renameLost f.isOpen its newDir newName
  | _ => []

namespace Vol

/-- `embkfs_alloc_init`. A rebuild that fails leaves the volume without a map, from which nothing
    can be allocated; so does a full one. -/
def allocInit : Prog (Vol Payload) Errno Unit := do
  match ← attempt bitmapBuild with
  | .ok _ => freeIndexRebuild
  | .error e =>
    Prog.modify fun v => { v with bitmap := fun _ => true, freeExt := [] }
    fail e

/-- Whatever the program returns, it has only read. -/
def Quiet {β : Type} (m : Prog (Vol Payload) Errno β) : Prop :=
  ∀ v, wp m (fun _ v' => ReadOnlyStep v v') (fun _ v' => ReadOnlyStep v v') v

section Quiet

variable {β γ : Type} {m : Prog (Vol Payload) Errno β}

theorem Quiet.pure (a : β) : Quiet (Pure.pure a : Prog (Vol Payload) Errno β) := fun v => .refl v

theorem Quiet.fail (e : Errno) : Quiet (fail e : Prog (Vol Payload) Errno β) := fun v => .refl v

theorem Quiet.get : Quiet (Prog.get : Prog (Vol Payload) Errno (Vol Payload)) := fun v => .refl v

theorem Quiet.bind {f : β → Prog (Vol Payload) Errno γ} (h : Quiet m) (hf : ∀ a, Quiet (f a)) :
    Quiet (m >>= f) := by
  intro v
  rw [wp_bind]
  refine wp_mono (h v) ?_ (fun _ _ h => h)
  intro a v' hs
  exact wp_mono (hf a v') (fun _ _ h => hs.trans h) (fun _ _ h => hs.trans h)

theorem Quiet.attempt (h : Quiet m) : Quiet (attempt m) := by
  intro v
  rw [wp_attempt]
  exact h v

theorem Quiet.ite {c : Prop} [Decidable c] {m' : Prog (Vol Payload) Errno β} (h : Quiet m)
    (h' : Quiet m') : Quiet (if c then m else m') := by
  split
  · exact h
  · exact h'

end Quiet

/-! ## Operations as steps -/

section Steps

variable {v : Vol Payload} {L : Layout Payload}

/-- Whatever `m` returns, it took the volume through steps that drop nothing unnoted. -/
def Stepping {β : Type} (v : Vol Payload) (L : Layout Payload) (m : Prog (Vol Payload) Errno β) :
    Prop :=
  wp m (fun _ v' => ∃ L', FileSteps v L [] v' L') (fun _ v' => ∃ L', FileSteps v L [] v' L') v

theorem Stepping.fail (h : v.Consistent L) {β : Type} (e : Errno) :
    Stepping v L (fail e : Prog (Vol Payload) Errno β) := ⟨L, .nil h⟩

theorem Stepping.pure (h : v.Consistent L) {β : Type} (a : β) :
    Stepping v L (Pure.pure a : Prog (Vol Payload) Errno β) := ⟨L, .nil h⟩

theorem Stepping.ite {c : Prop} [Decidable c] {β : Type} {m m' : Prog (Vol Payload) Errno β}
    (h : Stepping v L m) (h' : Stepping v L m') : Stepping v L (if c then m else m') := by
  split
  · exact h
  · exact h'

theorem Stepping.bind {β γ : Type} {m : Prog (Vol Payload) Errno β}
    {f : β → Prog (Vol Payload) Errno γ} (hm : Stepping v L m)
    (hf : ∀ a v' L', v'.Consistent L' → Stepping v' L' (f a)) : Stepping v L (m >>= f) := by
  unfold Stepping
  rw [wp_bind]
  refine wp_mono hm ?_ (fun _ _ h => h)
  intro a v₁ hs
  obtain ⟨L₁, hs⟩ := hs
  refine wp_mono (hf a v₁ L₁ hs.consistent) ?_ ?_
  · intro _ v' hv
    obtain ⟨L', hv⟩ := hv
    exact ⟨L', hs.trans hv⟩
  · intro _ v' hv
    obtain ⟨L', hv⟩ := hv
    exact ⟨L', hs.trans hv⟩

theorem Stepping.attempt {β : Type} {m : Prog (Vol Payload) Errno β} (hm : Stepping v L m) :
    Stepping v L (attempt m) := by
  unfold Stepping
  rw [wp_attempt]
  exact hm

/-- What a superblock describes and the device holds, before there is an allocator. -/
structure Formatted (v : Vol Payload) (L : Layout Payload) : Prop where
  idle : v.txn = none
  primaryBad : v.rootPrimaryBad = 0 ∨ v.rootPrimaryBad = v.root.block
  mirror : v.MirrorOk
  mirrorIn : v.rootMirror.block ≠ 0 → v.rootMirror.block < v.totalBlocks
  tree : v.TreeOk v.root L.items L.nodes
  snaps : ∀ s ∈ L.snaps, v.TreeOk s.item.root s.items s.nodes
  registry : v.RegistryOk
  record : v.recorded L.items = L.snaps.map SnapTree.item
  nodup : (v.fixedBlocks ++ v.mirrorBlocks ++ L.blocks).Nodup
  apart : ∀ b ∈ v.fixedBlocks ++ v.mirrorBlocks, b ∉ snapBlocks L.snaps
  range : ∀ b ∈ v.inUse L.items L.nodes L.snaps, b < v.totalBlocks
  bytes : v.totalBlocks * v.blockSize < 2 ^ 64
  fits : v.totalBlocks ≤ v.dev.size
  tape : v.dev.rebuildTape = []

/-- A mount makes the allocator from what is on the device. -/
theorem allocInit_eq (h : v.Formatted L) :
    ∃ n ext, allocInit v = (.ok (), { v with
        bitmap := setBits (fun _ => false) (v.inUse L.items L.nodes L.snaps) true,
        nextOid := n, snapshotCount := L.snaps.length, freeExt := ext }) ∧
      (allocInit v).2.Consistent L ∧ firstUserObjid ≤ n ∧ ∀ e ∈ L.items, e.1.objectId < n := by
  obtain ⟨n, hrun, hn⟩ := bitmapBuild_eq h.tape h.mirror.fallbackOk h.tree h.snaps h.registry h.record
  obtain ⟨ext, hrun', hext⟩ := freeIndexRebuild_eq (bitmapBuild v).2
  rw [hrun] at hrun' hext
  have heq : allocInit v = (.ok (), { v with
      bitmap := setBits (fun _ => false) (v.inUse L.items L.nodes L.snaps) true,
      nextOid := n, snapshotCount := L.snaps.length, freeExt := ext }) := by
    simp only [allocInit, bind, Prog.bind, attempt, hrun, hrun']
  refine ⟨n, ext, heq, ?_, hn⟩
  rw [heq]
  refine ⟨h.idle, freeOk_of_perm hext, h.primaryBad, h.mirror, h.mirrorIn,
    ⟨h.tree.shape, h.tree.sorted, h.tree.extents⟩,
    fun s hs => ⟨(h.snaps s hs).shape, (h.snaps s hs).sorted, (h.snaps s hs).extents⟩, h.registry,
    h.record, Nat.le_refl _, h.nodup, h.apart, fun b hb => ?_, h.range, h.bytes, h.fits, h.tape⟩
  have hb' : b ∈ v.inUse L.items L.nodes L.snaps := hb
  exact (setBits_true (fun _ => false) _ b).trans (by rw [decide_eq_true hb', Bool.true_or])

end Steps

end Vol

namespace Fs

/-- Whatever `m` returns, it took the volume through steps that drop nothing unnoted. -/
def Stepping {β : Type} (f : Fs) (L : Layout Payload) (m : Prog Fs Errno β) : Prop :=
  wp m (fun _ f' => ∃ L', Vol.FileSteps f.vol L [] f'.vol L')
    (fun _ f' => ∃ L', Vol.FileSteps f.vol L [] f'.vol L') f

section

variable {f : Fs} {L : Layout Payload}

theorem Stepping.onVol {β : Type} {m : Prog (Vol Payload) Errno β} (h : Vol.Stepping f.vol L m) :
    Stepping f L (onVol m) := by
  unfold Stepping Fs.onVol
  rw [wp_zoom]
  exact h

theorem Stepping.onVol' {β : Type} {m : Prog (Vol Payload) Errno β} (h : Vol.Stepping f.vol L m) :
    Stepping f L (onVol' m) := by
  unfold Stepping Fs.onVol'
  rw [wp_bind]
  exact Stepping.onVol h

theorem Stepping.get {β : Type} {m : Fs → Prog Fs Errno β} (h : Stepping f L (m f)) :
    Stepping f L (Prog.get >>= m) := by
  unfold Stepping
  rw [wp_bind, wp_get]
  exact h

theorem Stepping.exec {β : Type} {m : Prog Fs Errno β} (h : Stepping f L m) :
    ∃ L', Vol.FileSteps f.vol L [] (m f).2.vol L' := by
  unfold Stepping wp at h
  rcases hm : m f with ⟨r, f'⟩
  rw [hm] at h
  cases r <;> exact h

end

end Fs

/-- A statement about concrete volumes that holds whatever the checksum and the cipher are. -/
def Anyhow (P : Checksum Payload → Cipher → Prop) : Prop := ∀ C D, P C D

/-- The one node of a small volume. -/
def leafNode (items : List (Key × Payload)) : Node Payload := ⟨1, 20, 0, items, []⟩

/-- The superblock of a small volume. -/
def leafSuper (fi : Nat) (items : List (Key × Payload)) : Superblock :=
  let body : Superblock := ⟨1, 0, fi, 4096, 64, 0, 1, (leafNode items).ptr, none, .null, 0⟩
  { body with checksum := Checksum.super Payload body }

/-- What a mount reads off a volume of 64 blocks with the feature bits `fi` whose tree is one leaf
    with the given items, and whose snapshot registry is empty. -/
def leafVol (fi : Nat) (items : List (Key × Payload)) : Vol Payload where
  dev :=
    { size := 64,
      durable := fun b =>
        if b = 20 then .node (Checksum.node (leafNode items)) (leafNode items)
        else if b = 16 ∨ b = 63 then .super (leafSuper fi items)
        else if b = 1 then .registry ⟨Checksum.registry Payload [], []⟩
        else .data [],
      pending := [], log := [], oracle := fun _ _ => none, readTape := [], rebuildTape := [] }
  blockSize := 4096
  totalBlocks := 64
  generation := 1
  freeBlocks := 0
  nextOid := 0
  bitmap := fun _ => false
  freeExt := []
  txn := none
  root := (leafNode items).ptr
  rootMirror := .null
  rootPrimaryBad := 0
  readOnly := false
  deviceFailed := false
  featureIncompat := fi
  encrypted := false
  snapshotCount := 0

theorem nodeAt_leafVol (fi : Nat) (items : List (Key × Payload)) :
    NodeAt (leafVol fi items).dev.view (leafVol fi items).root (leafNode items) :=
  ⟨Checksum.node (leafNode items), rfl, by simp [Node.accepted, Node.ptr, leafNode, leafVol]⟩

theorem fixedBlocks_leafVol (fi : Nat) (items : List (Key × Payload)) :
    (leafVol fi items).fixedBlocks
      = [0, 16, 63] ++ if (leafVol fi items).snapregEnabled then [1] else [] := by
  have hsb : (leafVol fi items).sbBlock = 16 := by simp [Vol.sbBlock, sbOffset, leafVol]
  have hbk : (leafVol fi items).backupBlock = 63 := rfl
  rw [Vol.fixedBlocks, hsb, hbk, snapregBlock]

theorem formatted_leafVol (fi : Nat) {items : List (Key × Payload)} (hs : Sorted items)
    (hext : ∀ e ∈ items, ExtentOk 4096 64 e) (hsnap : ∀ e ∈ items, e.1.type ≠ typeSnapshot)
    (hnd : (dataBlocks items).Nodup) (hdata : ∀ b ∈ dataBlocks items, 20 < b ∧ b < 63) :
    (leafVol fi items).Formatted ⟨items, [20], []⟩ := by
  have hfix : ∀ b ∈ (leafVol fi items).fixedBlocks, b = 0 ∨ b = 16 ∨ b = 63 ∨ b = 1 := by
    intro b hb
    rw [fixedBlocks_leafVol] at hb
    split at hb
    · simpa using hb
    · have : b = 0 ∨ b = 16 ∨ b = 63 := by simpa using hb
      omega
  refine ⟨rfl, Or.inl rfl, fun h => absurd rfl h, fun h => absurd rfl h,
    ⟨⟨0, by decide, ?_, trivial⟩, hs, hext⟩,
    fun s hs => absurd hs (by simp), fun _ => ⟨?_, ?_, rfl⟩, ?_, ?_,
    fun _ _ => by simp [snapBlocks], ?_, ?_, Nat.le_refl _, rfl⟩
  · exact ⟨leafNode items, nodeAt_leafVol fi items, rfl, rfl, hs, rfl⟩
  · simp [leafVol, registrySize, maxSnapshots]
  · simp [leafVol]
  · by_cases hreg : (leafVol fi items).snapregEnabled = true
    · rw [Vol.recorded, if_pos hreg]
      show Vol.registryOf (.registry ⟨Checksum.registry Payload [], []⟩) = _
      simp [Vol.registryOf]
    · exact Vol.recorded_eq_nil (by simpa using hreg) hsnap
  · have hmir : (leafVol fi items).mirrorBlocks = [] := rfl
    rw [hmir, append_nil]
    refine nodup_append.2 ⟨?_, ?_, fun b hb c hc hbc => ?_⟩
    · rw [fixedBlocks_leafVol]
      split <;> decide
    · refine nodup_cons.2 ⟨fun h => ?_, hnd⟩
      have := hdata 20 h
      omega
    · have h1 := hfix b hb
      rcases mem_cons.1 hc with rfl | hc
      · omega
      · have := hdata c hc
        omega
  · intro b hb
    have hmir : (leafVol fi items).mirrorBlocks = [] := rfl
    simp only [Vol.inUse, hmir, snapBlocks, append_nil, flatMap_nil, mem_append,
      mem_singleton] at hb
    show b < 64
    rcases hb with hb | hb | hb
    · have := hfix b hb
      omega
    · omega
    · have := hdata b hb
      omega
  · have hbytes : 64 * 4096 < 2 ^ 64 := by decide
    exact hbytes

/-- What a tree of one leaf holds. -/
theorem Vol.TreeOk.of_leaf {v : Vol Payload} {p : BlockPtr} {its : List (Key × Payload)}
    {nodes : List Nat} {n : Node Payload} (h : v.TreeOk p its nodes) (hn : NodeAt v.dev.view p n)
    (hl : n.level = 0) : its = n.items ∧ nodes = [p.block] := by
  obtain ⟨l, -, hw, -⟩ := h.shape
  cases l with
  | zero =>
    obtain ⟨m, hm, -, rfl, -, rfl⟩ := hw
    exact ⟨by rw [nodeAt_unique hn hm], rfl⟩
  | succ l =>
    obtain ⟨m, hm, hlev, -⟩ := hw
    rw [nodeAt_unique hm hn, hl] at hlev
    exact absurd hlev (by simp)

end EmbLinkOs.Embkfs
