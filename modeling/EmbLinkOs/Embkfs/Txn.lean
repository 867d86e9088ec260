import EmbLinkOs.Embkfs.Bitmap

set_option autoImplicit false
set_option linter.unusedSectionVars false

/-! # Transactions and commit

Every modifying operation runs in a transaction: it allocates and writes new blocks next to the old
ones, builds a new tree, and then `embkfs_commit` switches the volume over. The order on the device
is: everything new, flush, primary superblock, backup superblock, flush. `embkfs_txn_end` then
clears the bits of what was superseded, or of what was allocated if anything failed.

The specifications here speak of one commit and one end of a transaction. `Device.Within A d d'`
says that between `d` and `d'` only blocks of `A` were written; other than `Device.Wrote` it allows
flushes. -/

namespace EmbLinkOs.Embkfs

open Prog hiding bind

open SortedMap

variable {α β : Type}

/-! ## The model -/

section Model

variable [Checksum α]

/-- The block `embkfs_write_superblock` makes of the one it read. A block that is not a superblock
    is patched in the same places and is none afterwards either. -/
def patchSuper (featureIncompat : Nat) (root : BlockPtr) (gen free : Nat) (mirror : BlockPtr) :
    Block α → Block α
  | .super sb =>
    let verify := if featureIncompat &&& incompatVerifiedRoot ≠ 0 then
      some (Checksum.verifyRoot α root gen) else sb.verify
    let body : Superblock := { sb with
      freeBlocks := free, generation := gen, root := root, featureIncompat := featureIncompat,
      verify := verify, mirror := if mirror.block ≠ 0 then mirror else .null, checksum := 0 }
    .super { body with checksum := Checksum.super α body }
  | x => x

namespace Vol

/-- `embkfs_write_superblock`. -/
def writeSuperblock (root : BlockPtr) (gen free : Nat) (mirror : BlockPtr) :
    Prog (Vol α) Errno Unit := do
  let v ← Prog.get
  let x ← blockRead v.sbBlock
  let x' := patchSuper v.featureIncompat root gen free mirror x
  devWrite v.sbBlock x'
  devWrite v.backupBlock x'

/-- Copy the new root node to block `mb`; these accesses bypass `embkfs_device_failed`. -/
def copyRoot (root : BlockPtr) (mb : Nat) : Prog (Vol α) Errno Unit := do
  match ← blockRead root.block with
  | .node c n =>
    if low32 (Checksum.node n) = low32 root.checksum then blockWrite mb (.node c n)
    else fail .einval
  | _ => fail .einval

/-- The first part of `embkfs_commit`: stage a mirror of the new root far from it, if there is room.
    A mirror that cannot be staged is done without; its block stays allocated. -/
def stageMirror (root : BlockPtr) (gen free : Nat) : Prog (Vol α) Errno (BlockPtr × Nat) := do
  if free = 0 then pure (.null, free)
  else match ← attempt allocBlockFar with
    | .error _ => pure (.null, free)
    | .ok mb =>
      match ← attempt (copyRoot root mb) with
      | .ok _ => pure (⟨mb, root.checksum, gen, 0⟩, free - 1)
      | .error _ => pure (.null, free)

/-- The last part of `embkfs_commit`: give the previous mirror back, and how many blocks that
    freed. -/
def dropMirror (old new : BlockPtr) : Prog (Vol α) Errno Nat := do
  let v ← Prog.get
  if old.block ≠ 0 ∧ old.block ≠ new.block ∧ old.block < v.totalBlocks ∧ v.bitmap old.block then
    match ← attempt (freeRun old.block 1) with
    | .ok _ => pure 1
    | .error _ => pure 0
  else pure 0

/-- `embkfs_commit`. -/
def commit (root : BlockPtr) (gen free : Nat) : Prog (Vol α) Errno Unit := do
  let v ← Prog.get
  let (mirror, free) ← stageMirror root gen free
  devFlush
  writeSuperblock root gen free mirror
  devFlush
  Prog.modify fun v =>
    { v with root := root, generation := gen, rootMirror := mirror, rootPrimaryBad := 0 }
  let back ← dropMirror v.rootMirror mirror
  Prog.modify fun v => { v with freeBlocks := (free + back) % 2 ^ 64 }

/-- Free the runs one after the other; the result says whether one was refused. -/
def freeRuns : List Run → Prog (Vol α) Errno Bool
  | [] => pure false
  | r :: rs => do
    let rc ← attempt (freeRun r.start r.len)
    let err ← freeRuns rs
    pure (err || !rc.isOk)

variable [ItemData α]

/-- `embkfs_txn_end`. -/
def txnEnd (committed : Bool) : Prog (Vol α) Errno Unit := do
  let v ← Prog.get
  match v.txn with
  | none => pure ()
  | some t =>
    Prog.modify fun v => { v with txn := none }
    if t.overflow then rebuildAllocator
    else if committed && v.snapshotCount ≠ 0 then pure ()
    else
      let blks := if committed then t.freed else t.alloc
      let runs := if committed then t.frun else t.arun
      let err ← freeRuns (blks.map (fun b => ⟨b, 1⟩) ++ runs)
      if err then rebuildAllocator else pure ()

/-- From the new root on: `embkfs_txn_new_free` and `embkfs_commit`. The legacy snapshot create
    counts its snapshot (`hold = 1`) before and takes it back on failure; everything else has
    `hold = 0`. -/
def finish (hold : Nat) (root : BlockPtr) (gen : Nat) : Prog (Vol α) Errno Unit := do
  Prog.modify fun v => { v with snapshotCount := v.snapshotCount + hold }
  let rc ← attempt (do
    let free ← txnNewFree
    commit root gen free)
  match rc with
  | .ok _ => pure ()
  | .error e =>
    Prog.modify fun v => { v with snapshotCount := v.snapshotCount - hold }
    fail e

/-- What happens inside a transaction: `body` prepares the ops, allocating and writing data blocks
    and noting data runs on the way, and says which feature bits the new content needs; the ops are
    applied to the tree and the result is committed. -/
def applyAndCommit (hold gen : Nat) (body : Prog (Vol α) Errno (List (Put α) × Nat)) :
    Prog (Vol α) Errno Unit := do
  let (ops, feature) ← body
  Prog.modify fun v => { v with featureIncompat := v.featureIncompat ||| feature }
  let v ← Prog.get
  let root ← cowApply v.root ops gen
  finish hold root gen

/-- A transaction around `body`. Whatever fails, it is ended. -/
def transact (hold gen : Nat) (body : Prog (Vol α) Errno (List (Put α) × Nat)) :
    Prog (Vol α) Errno Unit := do
  txnBegin
  let rc ← attempt (applyAndCommit hold gen body)
  txnEnd rc.isOk
  Prog.ofExcept rc

/-- `embkfs_txn_apply_ops`. -/
def txnApplyOps (ops : List (Put α)) (gen : Nat) : Prog (Vol α) Errno Unit :=
  transact 0 gen (pure (ops, 0))

end Vol

end Model

/-! ## Device steps of a commit -/

/-- Between `d` and `d'` nothing but blocks of `A` was written. -/
structure Device.Within (A : List Nat) (d d' : Device α) : Prop where
  size : d'.size = d.size
  oracle : d'.oracle = d.oracle
  readTape : d'.readTape <:+ d.readTape
  rebuildTape : d'.rebuildTape = d.rebuildTape
  view : ∀ b, b ∉ A → d'.view b = d.view b
  log : ∃ new, d'.log = new ++ d.log ∧ ∀ r ∈ new, ∀ b x, r.1 = Req.write b x → b ∈ A

namespace Device

theorem Wrote.within {A : List Nat} {d d' : Device α} (h : Wrote A d d') : Within A d d' := by
  obtain ⟨new, hnew, hmem, -⟩ := h.log
  refine ⟨h.size, h.oracle, h.readTape, h.rebuildTape, fun b hb => h.view_eq hb, new, hnew, ?_⟩
  intro r hr b x hrb
  obtain ⟨b', x', hrb', hb'⟩ := hmem r hr
  rw [hrb'] at hrb
  injection hrb with hbb
  exact hbb ▸ hb'

theorem Within.refl (A : List Nat) (d : Device α) : Within A d d := (Wrote.refl A d).within

theorem Within.trans {A : List Nat} {d d' d'' : Device α} (h : Within A d d')
    (h' : Within A d' d'') : Within A d d'' := by
  obtain ⟨new, hnew, hmem⟩ := h.log
  obtain ⟨new', hnew', hmem'⟩ := h'.log
  refine ⟨h'.size.trans h.size, h'.oracle.trans h.oracle, h'.readTape.trans h.readTape,
    h'.rebuildTape.trans h.rebuildTape, fun b hb => (h'.view b hb).trans (h.view b hb),
    new' ++ new, by rw [hnew', hnew, List.append_assoc], fun r hr => ?_⟩
  exact (List.mem_append.1 hr).elim (hmem' r) (hmem r)

theorem Within.mono {A A' : List Nat} {d d' : Device α} (h : Within A d d') (hA : A ⊆ A') :
    Within A' d d' := by
  obtain ⟨new, hnew, hmem⟩ := h.log
  exact ⟨h.size, h.oracle, h.readTape, h.rebuildTape, fun b hb => h.view b (fun hbA => hb (hA hbA)),
    new, hnew, fun r hr b x hrb => hA (hmem r hr b x hrb)⟩

theorem within_flushed (A : List Nat) (d : Device α) : Within A d d.flushed := by
  refine ⟨rfl, rfl, List.suffix_refl _, rfl, fun _ _ => rfl, [(.flush, none)], rfl, ?_⟩
  intro r hr b x hrb
  rw [List.mem_singleton.1 hr] at hrb
  exact absurd hrb (by simp)

theorem within_refused_flush (A : List Nat) (d : Device α) (e : Errno) :
    Within A d (d.refused .flush e) := by
  refine ⟨rfl, rfl, List.suffix_refl _, rfl, fun _ _ => rfl, [(.flush, some e)], rfl, ?_⟩
  intro r hr b x hrb
  rw [List.mem_singleton.1 hr] at hrb
  exact absurd hrb (by simp)

end Device

namespace Vol

/-- What a device call leaves of the volume: the device itself, and perhaps the read-only latch. -/
def Latched (v : Vol α) (d : Device α) (e : Errno) : Vol α := noteFailure e { v with dev := d }

theorem wp_devFlush (v : Vol α) :
    wp devFlush
      (fun _ v' => v.dev.oracle v.dev.log .flush = none ∧ v' = { v with dev := v.dev.flushed })
      (fun e v' => v.dev.oracle v.dev.log .flush = some e ∧
        v' = v.Latched (v.dev.refused .flush e) e) v := by
  unfold devFlush guarded onDev
  simp only [wp_bind, wp_attempt, wp_zoom]
  refine wp_mono (Device.wp_flush_eq v.dev) ?_ ?_
  · intro _ d h
    exact ⟨h.1, by rw [h.2]⟩
  · intro e d h
    simp only [wp_modify, wp_fail]
    exact ⟨h.1, by rw [h.2]; rfl⟩

theorem wp_devWrite_eq (b : Nat) (x : Block α) (v : Vol α) :
    wp (devWrite b x)
      (fun _ v' => v.dev.oracle v.dev.log (.write b x) = none ∧ b < v.dev.size ∧
        v' = { v with dev := v.dev.pushed b x })
      (fun e v' => (v.dev.size ≤ b ∧ e = .erange ∧ v' = v) ∨
        (v.dev.oracle v.dev.log (.write b x) = some e ∧
          v' = v.Latched (v.dev.refused (.write b x) e) e)) v := by
  unfold devWrite guarded blockWrite onDev
  simp only [wp_bind, wp_attempt, wp_zoom]
  refine wp_mono (Device.wp_write_eq b x v.dev) ?_ ?_
  · intro _ d h
    exact ⟨h.1, h.2.1, by rw [h.2.2]⟩
  · intro e d h
    simp only [wp_modify, wp_fail]
    obtain ⟨hb, rfl, rfl⟩ | ⟨ho, rfl⟩ := h
    · exact Or.inl ⟨hb, rfl, rfl⟩
    · exact Or.inr ⟨ho, rfl⟩

/-! ## The superblock phase -/

/-- What of a superblock neither a commit nor anything else changes after formatting. -/
def superBase : Block α → Option (Nat × Nat × Nat × Nat)
  | .super sb => some (sb.versionMajor, sb.featureRoCompat, sb.blockSize, sb.totalBlocks)
  | _ => none

/-- From `v` to `v'` only the superblocks were written. -/
structure Sealing (v v' : Vol α) : Prop where
  same : SameVolume v v'
  bitmap : v'.bitmap = v.bitmap
  freeExt : v'.freeExt = v.freeExt
  txn : v'.txn = v.txn
  dev : Device.Within [v.sbBlock, v.backupBlock] v.dev v'.dev
  base : (v'.dev.view v.sbBlock).bind superBase = (v.dev.view v.sbBlock).bind superBase

theorem Sealing.refl (v : Vol α) : Sealing v v :=
  ⟨.refl v, rfl, rfl, rfl, .refl _ _, rfl⟩

theorem Sealing.trans {v v' v'' : Vol α} (h : Sealing v v') (h' : Sealing v' v'') :
    Sealing v v'' := by
  have hsb : v'.sbBlock = v.sbBlock := by rw [sbBlock, h.same.blockSize, sbBlock]
  have hbk : v'.backupBlock = v.backupBlock := by rw [backupBlock, h.same.totalBlocks, backupBlock]
  have hdev := h'.dev
  have hbase := h'.base
  rw [hsb, hbk] at hdev
  rw [hsb] at hbase
  exact ⟨h.same.trans h'.same, h'.bitmap.trans h.bitmap, h'.freeExt.trans h.freeExt,
    h'.txn.trans h.txn, h.dev.trans hdev, hbase.trans h.base⟩

/-- A device step within the superblocks that keeps what is fixed in them, latched or not. -/
theorem sealing_setDev {v : Vol α} {d : Device α}
    (h : Device.Within [v.sbBlock, v.backupBlock] v.dev d)
    (hbase : (d.view v.sbBlock).bind superBase = (v.dev.view v.sbBlock).bind superBase) :
    Sealing v { v with dev := d } :=
  ⟨⟨rfl, rfl, rfl, rfl, rfl, rfl, rfl, rfl, rfl, rfl, ⟨h.oracle, Or.inl rfl⟩, Or.inl rfl⟩, rfl, rfl,
    rfl, h, hbase⟩

theorem sealing_latched {v : Vol α} {d : Device α} (e : Errno)
    (h : Device.Within [v.sbBlock, v.backupBlock] v.dev d)
    (hbase : (d.view v.sbBlock).bind superBase = (v.dev.view v.sbBlock).bind superBase)
    {r : Req α} (hr : v.dev.oracle v.dev.log r = some e) : Sealing v (v.Latched d e) := by
  unfold Latched noteFailure
  split
  · exact ⟨⟨rfl, rfl, rfl, rfl, rfl, rfl, rfl, rfl, rfl, rfl,
      ⟨h.oracle, Or.inr ⟨rfl, _, r, by rw [hr]; simp⟩⟩, Or.inl rfl⟩, rfl, rfl, rfl, h, hbase⟩
  · exact sealing_setDev h hbase

end Vol

end EmbLinkOs.Embkfs
