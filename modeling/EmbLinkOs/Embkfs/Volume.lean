import EmbLinkOs.Embkfs.Device

set_option autoImplicit false

/-! # The mounted volume

`struct embkfs_volume` with the open transaction, as far as the tree engine and the allocator use
it. Kernel memory is taken to be available: the `-EMBK_ENOMEM` returns of the source, and the
transaction overflow that a failed `krealloc` causes, are not modelled. -/

namespace EmbLinkOs.Embkfs

variable {α β : Type}

/-- `struct embk_txn`: what the open transaction allocated and what it supersedes. -/
structure Txn where
  alloc : List Nat
  freed : List Nat
  arun : List Run
  frun : List Run
  overflow : Bool

/-- `EMBK_TXN_MAX`. -/
def txnMax : Nat := 64

/-- The blocks the transaction has allocated. -/
def Txn.allocBlocks (t : Txn) : List Nat := t.alloc ++ Run.covered t.arun

/-- The blocks the transaction has noted as superseded. -/
def Txn.freedBlocks (t : Txn) : List Nat := t.freed ++ Run.covered t.frun

/-- `struct embkfs_volume`. -/
structure Vol (α : Type) where
  dev : Device α
  blockSize : Nat
  totalBlocks : Nat
  generation : Nat
  freeBlocks : Nat
  nextOid : Nat
  bitmap : Nat → Bool
  freeExt : List Run
  txn : Option Txn
  root : BlockPtr
  rootMirror : BlockPtr
  rootPrimaryBad : Nat
  readOnly : Bool
  deviceFailed : Bool
  featureIncompat : Nat
  encrypted : Bool
  snapshotCount : Nat

namespace Vol

/-- Run a device program on the volume's device. -/
def onDev (m : Prog (Device α) Errno β) : Prog (Vol α) Errno β :=
  Prog.zoom Vol.dev (fun d v => { v with dev := d }) m

/-- `embk_block_read` of one file-system block. -/
def blockRead (b : Nat) : Prog (Vol α) Errno (Block α) := onDev (Device.read b)

/-- `embk_block_write` of one file-system block. -/
def blockWrite (b : Nat) (x : Block α) : Prog (Vol α) Errno Unit := onDev (Device.write b x)

/-- `embkfs_device_failed`: an I/O error makes the volume read-only for good; every other code is
    passed on without a trace. -/
def noteFailure (e : Errno) (v : Vol α) : Vol α :=
  if e = .eio ∧ v.readOnly = false then { v with readOnly := true, deviceFailed := true } else v

/-- Pass a device call's result through `embkfs_device_failed`. -/
def guarded (m : Prog (Vol α) Errno β) : Prog (Vol α) Errno β := do
  match ← Prog.attempt m with
  | .ok a => pure a
  | .error e =>
    Prog.modify (noteFailure e)
    Prog.fail e

/-- `embkfs_dev_write` of one file-system block. -/
def devWrite (b : Nat) (x : Block α) : Prog (Vol α) Errno Unit := guarded (blockWrite b x)

/-- `embkfs_dev_flush`. -/
def devFlush : Prog (Vol α) Errno Unit := guarded (onDev Device.flush)

/-- The block that holds the primary superblock. -/
def sbBlock (v : Vol α) : Nat := sbOffset / v.blockSize

/-- The block that holds the backup superblock. -/
def backupBlock (v : Vol α) : Nat := v.totalBlocks - 1

/-- `embk_snapreg_enabled`. -/
def snapregEnabled (v : Vol α) : Bool := v.featureIncompat &&& incompatSnapreg ≠ 0

/-! ## Steps that leave the volume's identity alone -/

/-- The read-only latch can only have been set, and only by a request that failed. -/
def Latches (v v' : Vol α) : Prop :=
  v'.dev.oracle = v.dev.oracle ∧
    (v'.readOnly = v.readOnly ∨ v'.readOnly = true ∧ ∃ log r, v.dev.oracle log r ≠ none)

theorem Latches.refl (v : Vol α) : Latches v v := ⟨rfl, Or.inl rfl⟩

theorem Latches.trans {v v' v'' : Vol α} (h : Latches v v') (h' : Latches v' v'') :
    Latches v v'' := by
  refine ⟨h'.1.trans h.1, ?_⟩
  rcases h'.2 with h1 | ⟨h1, h2⟩
  · rw [h1]
    exact h.2
  · rw [h.1] at h2
    exact Or.inr ⟨h1, h2⟩

/-- The fields that only a commit, a mount or a snapshot operation changes are equal, and a
    read-only volume stays read-only. -/
structure SameVolume (v v' : Vol α) : Prop where
  blockSize : v'.blockSize = v.blockSize
  totalBlocks : v'.totalBlocks = v.totalBlocks
  generation : v'.generation = v.generation
  freeBlocks : v'.freeBlocks = v.freeBlocks
  nextOid : v'.nextOid = v.nextOid
  root : v'.root = v.root
  rootMirror : v'.rootMirror = v.rootMirror
  featureIncompat : v'.featureIncompat = v.featureIncompat
  encrypted : v'.encrypted = v.encrypted
  snapshotCount : v'.snapshotCount = v.snapshotCount
  readOnly : Latches v v'
  primaryBad : v'.rootPrimaryBad = v.rootPrimaryBad ∨ v'.rootPrimaryBad = v.root.block

theorem SameVolume.refl (v : Vol α) : SameVolume v v :=
  ⟨rfl, rfl, rfl, rfl, rfl, rfl, rfl, rfl, rfl, rfl, .refl v, Or.inl rfl⟩

theorem SameVolume.trans {v v' v'' : Vol α} (h : SameVolume v v') (h' : SameVolume v' v'') :
    SameVolume v v'' :=
  ⟨h'.blockSize.trans h.blockSize, h'.totalBlocks.trans h.totalBlocks,
    h'.generation.trans h.generation, h'.freeBlocks.trans h.freeBlocks, h'.nextOid.trans h.nextOid,
    h'.root.trans h.root, h'.rootMirror.trans h.rootMirror,
    h'.featureIncompat.trans h.featureIncompat, h'.encrypted.trans h.encrypted,
    h'.snapshotCount.trans h.snapshotCount, h.readOnly.trans h'.readOnly, by
      rcases h'.primaryBad with h1 | h1
      · rw [h1]
        exact h.primaryBad
      · exact Or.inr (h1.trans (congrArg BlockPtr.block h.root))⟩

/-- `v'` was reached from `v` by reading: the tape may have moved, the root's primary copy may have
    been found bad, and nothing else. -/
def ReadOnlyStep (v v' : Vol α) : Prop :=
  ∃ t r, (t <:+ v.dev.readTape ∧ (r = v.rootPrimaryBad ∨ r = v.root.block)) ∧
    v' = { v with dev := { v.dev with readTape := t }, rootPrimaryBad := r }

theorem ReadOnlyStep.refl (v : Vol α) : ReadOnlyStep v v :=
  ⟨v.dev.readTape, v.rootPrimaryBad, ⟨List.suffix_refl _, Or.inl rfl⟩, rfl⟩

theorem ReadOnlyStep.trans {v v' v'' : Vol α} (h : ReadOnlyStep v v') (h' : ReadOnlyStep v' v'') :
    ReadOnlyStep v v'' := by
  obtain ⟨t, r, ht, rfl⟩ := h
  obtain ⟨t', r', ht', rfl⟩ := h'
  refine ⟨t', r', ⟨ht'.1.trans ht.1, ?_⟩, rfl⟩
  rcases ht'.2 with h1 | h1
  · rw [h1]
    exact ht.2
  · exact Or.inr h1

theorem ReadOnlyStep.view_eq {v v' : Vol α} (h : ReadOnlyStep v v') :
    v'.dev.view = v.dev.view := by
  obtain ⟨t, r, -, rfl⟩ := h
  rfl

theorem wp_blockRead (b : Nat) (v : Vol α) :
    Prog.wp (blockRead b) (fun x v' => v.dev.view b = some x ∧ ReadOnlyStep v v')
      (fun _ v' => ReadOnlyStep v v') v := by
  unfold blockRead onDev
  rw [Prog.wp_zoom]
  refine Prog.wp_mono (Device.wp_read b v.dev) ?_ ?_
  · rintro x d ⟨hx, t, ht, rfl⟩
    exact ⟨hx, t, v.rootPrimaryBad, ⟨ht, Or.inl rfl⟩, rfl⟩
  · rintro e d ⟨t, ht, rfl⟩
    exact ⟨t, v.rootPrimaryBad, ⟨ht, Or.inl rfl⟩, rfl⟩

theorem blockRead_eq {v : Vol α} {b : Nat} {x : Block α} (ht : v.dev.readTape = [])
    (hx : v.dev.view b = some x) : blockRead b v = (.ok x, v) := by
  simp only [blockRead, onDev, Prog.zoom, Device.read_eq ht hx]

end Vol

end EmbLinkOs.Embkfs
