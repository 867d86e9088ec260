import EmbLinkOs.Embkfs.TxnSpec

set_option autoImplicit false
set_option linter.unusedSectionVars false

/-! # The invariant of a mounted volume

`Vol.Consistent v L`: between operations the volume `v` holds what the layout `L` says. The live
tree and the tree of every snapshot on record are in order, no block serves two purposes (snapshots
share blocks with the live tree and with each other, with nothing else), and every block in use is
marked. Marked blocks that nothing uses are allowed: superseded blocks are held back while a
snapshot is on record, and a mirror that could not be written leaks its block.

`txnEnd_rollback` is the main result here: a transaction that gives up, wherever it does, leaves the
volume it began with. -/

namespace EmbLinkOs.Embkfs

open List

open SortedMap

variable {α : Type}

/-- What a volume holds: the items of the live tree and the blocks of its nodes, and the snapshots
    on record. -/
structure Layout (α : Type) where
  items : List (Key × α)
  nodes : List Nat
  snaps : List (SnapTree α)

variable [ItemData α]

/-- The blocks of the live tree and its data. -/
def Layout.blocks (L : Layout α) : List Nat := L.nodes ++ dataBlocks L.items

variable [Checksum α]

namespace Vol

structure Consistent (v : Vol α) (L : Layout α) : Prop where
  idle : v.txn = none
  free : v.FreeOk
  primaryBad : v.rootPrimaryBad = 0 ∨ v.rootPrimaryBad = v.root.block
  mirror : v.MirrorOk
  mirrorIn : v.rootMirror.block ≠ 0 → v.rootMirror.block < v.totalBlocks
  tree : v.TreeOk v.root L.items L.nodes
  snaps : ∀ s ∈ L.snaps, v.TreeOk s.item.root s.items s.nodes
  registry : v.RegistryOk
  record : v.recorded L.items = L.snaps.map SnapTree.item
  held : L.snaps.length ≤ v.snapshotCount
  nodup : (v.fixedBlocks ++ v.mirrorBlocks ++ L.blocks).Nodup
  apart : ∀ b ∈ v.fixedBlocks ++ v.mirrorBlocks, b ∉ snapBlocks L.snaps
  marked : ∀ b ∈ v.inUse L.items L.nodes L.snaps, v.bitmap b = true
  range : ∀ b ∈ v.inUse L.items L.nodes L.snaps, b < v.totalBlocks
  bytes : v.totalBlocks * v.blockSize < 2 ^ 64
  fits : v.totalBlocks ≤ v.dev.size
  tape : v.dev.rebuildTape = []

section

variable {v : Vol α} {L : Layout α} (h : v.Consistent L) {b : Nat}

include h

theorem Consistent.mem_inUse_fixed (hb : b ∈ v.fixedBlocks) :
    b ∈ v.inUse L.items L.nodes L.snaps := by
  simp only [inUse, mem_append]
  tauto

theorem Consistent.mem_inUse_mirror (hb : b ∈ v.mirrorBlocks) :
    b ∈ v.inUse L.items L.nodes L.snaps := by
  simp only [inUse, mem_append]
  tauto

theorem Consistent.mem_inUse_blocks (hb : b ∈ L.blocks) : b ∈ v.inUse L.items L.nodes L.snaps := by
  simp only [inUse, Layout.blocks, mem_append] at hb ⊢
  tauto

theorem Consistent.mem_inUse_snap {s : SnapTree α} (hs : s ∈ L.snaps)
    (hb : b ∈ s.nodes ++ dataBlocks s.items) : b ∈ v.inUse L.items L.nodes L.snaps := by
  simp only [inUse, snapBlocks, mem_append, mem_flatMap]
  exact Or.inr ⟨s, hs, by simpa using hb⟩

theorem Consistent.mem_nodes (hb : b ∈ L.nodes) : b ∈ L.blocks :=
  mem_append_left _ hb

theorem Consistent.fixed_notMem (hb : b ∈ v.fixedBlocks) : b ∉ v.mirrorBlocks ++ L.blocks := by
  have := h.nodup
  rw [append_assoc] at this
  exact fun hb' => (nodup_append.1 this).2.2 b hb b hb' rfl

theorem Consistent.sb_mem : v.sbBlock ∈ v.fixedBlocks := by simp [fixedBlocks]

theorem Consistent.backup_mem : v.backupBlock ∈ v.fixedBlocks := by simp [fixedBlocks]

theorem Consistent.mirrorBlocks_eq :
    v.mirrorBlocks = if v.rootMirror.block = 0 then [] else [v.rootMirror.block] :=
  Vol.mirrorBlocks_eq h.mirrorIn

theorem Consistent.root_mem : v.root.block ∈ L.nodes := by
  obtain ⟨l, -, hw, -⟩ := h.tree.shape
  exact hw.root_mem

theorem Consistent.steady : v.Steady := by
  refine ⟨h.free, h.mirror, fun hm => ⟨?_, ?_⟩⟩
  · exact h.marked _ (h.mem_inUse_blocks (h.mem_nodes h.root_mem))
  · exact h.marked _ (h.mem_inUse_mirror (by rw [h.mirrorBlocks_eq, if_neg hm]; simp))

theorem Consistent.supers_marked : ∀ b ∈ [v.sbBlock, v.backupBlock], v.bitmap b = true := by
  intro b hb
  rcases mem_pair.1 hb with rfl | rfl
  · exact h.marked _ (h.mem_inUse_fixed h.sb_mem)
  · exact h.marked _ (h.mem_inUse_fixed h.backup_mem)

theorem Consistent.sound (hd : v.dev.Faultless) : v.Sound :=
  ⟨hd, (h.range _ (h.mem_inUse_fixed h.sb_mem)).trans_le h.fits,
    (h.range _ (h.mem_inUse_fixed h.backup_mem)).trans_le h.fits⟩

end

/-! ## Volumes that agree on what is in use -/

/-- What decides where a volume keeps things. -/
structure SameLabels (v v' : Vol α) : Prop where
  blockSize : v'.blockSize = v.blockSize
  totalBlocks : v'.totalBlocks = v.totalBlocks
  snapreg : v'.snapregEnabled = v.snapregEnabled

theorem SameLabels.refl (v : Vol α) : SameLabels v v := ⟨rfl, rfl, rfl⟩

theorem SameLabels.trans {v v' v'' : Vol α} (h : SameLabels v v') (h' : SameLabels v' v'') :
    SameLabels v v'' :=
  ⟨h'.blockSize.trans h.blockSize, h'.totalBlocks.trans h.totalBlocks, h'.snapreg.trans h.snapreg⟩

theorem SameVolume.labels {v v' : Vol α} (h : SameVolume v v') : SameLabels v v' :=
  ⟨h.blockSize, h.totalBlocks, by rw [snapregEnabled, h.featureIncompat, snapregEnabled]⟩

section

variable {v v' : Vol α}

theorem SameLabels.sbBlock (h : SameLabels v v') : v'.sbBlock = v.sbBlock := by
  rw [Vol.sbBlock, h.blockSize, Vol.sbBlock]

theorem SameLabels.backupBlock (h : SameLabels v v') : v'.backupBlock = v.backupBlock := by
  rw [Vol.backupBlock, h.totalBlocks, Vol.backupBlock]

theorem SameLabels.fixedBlocks (h : SameLabels v v') : v'.fixedBlocks = v.fixedBlocks := by
  rw [Vol.fixedBlocks, h.sbBlock, h.backupBlock, h.snapreg, Vol.fixedBlocks]

theorem SameLabels.mirrorBlocks (h : SameLabels v v') (hm : v'.rootMirror = v.rootMirror) :
    v'.mirrorBlocks = v.mirrorBlocks := by
  rw [Vol.mirrorBlocks, h.totalBlocks, hm, Vol.mirrorBlocks]

/-- A tree depends on its own nodes only. -/
theorem TreeOk.congr {p : BlockPtr} {its : List (Key × α)} {bs : List Nat} (h : v.TreeOk p its bs)
    (hl : SameLabels v v') (hview : ∀ b ∈ bs, v'.dev.view b = v.dev.view b) : v'.TreeOk p its bs := by
  obtain ⟨l, hlt, hw, hfan⟩ := h.shape
  refine ⟨⟨l, hlt, hw.congr hview, hfan.congr hw hview⟩, h.sorted, ?_⟩
  rw [hl.blockSize, hl.totalBlocks]
  exact h.extents

theorem RegistryOk.congr (h : v.RegistryOk) (hl : SameLabels v v')
    (hview : v.snapregEnabled = true → v'.dev.view snapregBlock = v.dev.view snapregBlock) :
    v'.RegistryOk := by
  intro hs
  rw [hl.snapreg] at hs
  rw [hl.blockSize, hview hs]
  exact h hs

theorem recorded_congr (hl : SameLabels v v')
    (hview : v.snapregEnabled = true → v'.dev.view snapregBlock = v.dev.view snapregBlock)
    (its : List (Key × α)) : v'.recorded its = v.recorded its := by
  unfold recorded
  rw [hl.snapreg]
  by_cases hs : v.snapregEnabled = true
  · rw [if_pos hs, if_pos hs, hview hs]
  · rw [if_neg hs, if_neg hs]

end

section

variable {v v' : Vol α} {L : Layout α}

/-- Only superblocks are kept in the superblocks' places. -/
theorem Consistent.notSuper (h : v.Consistent L) {b : Nat}
    (hb : b ∈ v.mirrorBlocks ++ L.blocks ∨ b ∈ snapBlocks L.snaps) :
    b ∉ [v.sbBlock, v.backupBlock] := by
  have hfix : ∀ c ∈ [v.sbBlock, v.backupBlock], c ∈ v.fixedBlocks := by
    intro c hc
    rcases mem_pair.1 hc with rfl | rfl
    · exact h.sb_mem
    · exact h.backup_mem
  intro hmem
  rcases hb with hb | hb
  · exact h.fixed_notMem (hfix b hmem) hb
  · exact h.apart b (mem_append_left _ (hfix b hmem)) hb

theorem Consistent.registry_notSuper (h : v.Consistent L) (hs : v.snapregEnabled = true) :
    snapregBlock ∉ [v.sbBlock, v.backupBlock] := by
  have hnd := h.nodup
  rw [append_assoc, fixedBlocks, if_pos hs] at hnd
  have := (nodup_append.1 hnd).1
  simp only [cons_append, nil_append, nodup_cons, mem_cons, not_mem_nil,
    or_false, not_or] at this
  simp only [mem_cons, not_mem_nil, or_false, not_or]
  exact ⟨fun h => this.2.1.2 h.symm, fun h => this.2.2.1 h.symm⟩

/-- A volume that has the same root, that reads the same where this one has marked blocks, apart
    from the superblocks, and that marks what is in use, is as consistent as this one. -/
theorem Consistent.carry (h : v.Consistent L) (hl : SameLabels v v') (hroot : v'.root = v.root)
    (hmir : v'.rootMirror = v.rootMirror)
    (hview : ∀ b, v.bitmap b = true → b ∉ [v.sbBlock, v.backupBlock] →
      v'.dev.view b = v.dev.view b)
    (hsize : v'.dev.size = v.dev.size) (htape : v'.dev.rebuildTape = v.dev.rebuildTape)
    (hidle : v'.txn = none) (hfree : v'.FreeOk)
    (hbad : v'.rootPrimaryBad = v.rootPrimaryBad ∨ v'.rootPrimaryBad = v.root.block)
    (hmarked : ∀ b ∈ v.inUse L.items L.nodes L.snaps, v'.bitmap b = true)
    (hheld : L.snaps.length ≤ v'.snapshotCount) : v'.Consistent L := by
  have huse : v'.inUse L.items L.nodes L.snaps = v.inUse L.items L.nodes L.snaps := by
    simp only [inUse, hl.fixedBlocks, hl.mirrorBlocks hmir]
  have hreg : v.snapregEnabled = true → v'.dev.view snapregBlock = v.dev.view snapregBlock := by
    intro hs
    refine hview _ (h.marked _ (h.mem_inUse_fixed ?_)) (h.registry_notSuper hs)
    rw [fixedBlocks, if_pos hs]
    simp
  have hblocks : ∀ b ∈ v.mirrorBlocks ++ L.blocks, v'.dev.view b = v.dev.view b := by
    intro b hb
    refine hview b (h.marked b ?_) (h.notSuper (Or.inl hb))
    rcases mem_append.1 hb with hb | hb
    · exact h.mem_inUse_mirror hb
    · exact h.mem_inUse_blocks hb
  have hnodes : ∀ b ∈ L.nodes, v'.dev.view b = v.dev.view b := fun b hb =>
    hblocks b (mem_append_right _ (h.mem_nodes hb))
  refine
    { idle := hidle, free := hfree, held := hheld
      primaryBad := by
        rw [hroot]
        rcases hbad with hb | hb
        · rw [hb]
          exact h.primaryBad
        · exact Or.inr hb
      mirror := ?_, mirrorIn := ?_, tree := ?_, snaps := ?_, registry := h.registry.congr hl hreg
      record := (recorded_congr hl hreg _).trans h.record
      nodup := by rw [hl.fixedBlocks, hl.mirrorBlocks hmir]; exact h.nodup
      apart := by rw [hl.fixedBlocks, hl.mirrorBlocks hmir]; exact h.apart
      marked := by rw [huse]; exact hmarked
      range := by rw [huse, hl.totalBlocks]; exact h.range
      bytes := by rw [hl.totalBlocks, hl.blockSize]; exact h.bytes
      fits := by rw [hl.totalBlocks, hsize]; exact h.fits
      tape := htape.trans h.tape }
  · intro hm
    rw [hmir] at hm ⊢
    rw [hroot, hnodes _ h.root_mem, hblocks _ (mem_append_left _ (by
      rw [h.mirrorBlocks_eq, if_neg hm]; simp))]
    exact h.mirror hm
  · rw [hmir, hl.totalBlocks]
    exact h.mirrorIn
  · rw [hroot]
    exact h.tree.congr hl hnodes
  · intro s hs
    refine (h.snaps s hs).congr hl (fun b hb => ?_)
    have hb' : b ∈ s.nodes ++ dataBlocks s.items := mem_append_left _ hb
    exact hview b (h.marked b (h.mem_inUse_snap hs hb'))
      (h.notSuper (Or.inr (mem_flatMap.2 ⟨s, hs, hb'⟩)))

end

/-! ## Rolling back -/

/-- The volume with a transaction just begun. -/
def opened (v : Vol α) : Vol α := { v with txn := some Txn.empty }

/-- The volume with a transaction just begun and with the feature bits `fi` noted. -/
def begun (v : Vol α) (fi : Nat) : Vol α :=
  { v.opened with featureIncompat := v.featureIncompat ||| fi }

/-- The only feature a transaction may add to a volume. -/
def NewFeature (fi : Nat) : Prop := fi = 0 ∨ fi = incompatCompression

variable {fi : Nat}

theorem snapregEnabled_begun (v : Vol α) (h : NewFeature fi) :
    (v.begun fi).snapregEnabled = v.snapregEnabled := by
  have hbit : ∀ x : Nat, (x ||| fi) &&& incompatSnapreg = x &&& incompatSnapreg := by
    intro x
    rw [Nat.and_or_distrib_right]
    rcases h with rfl | rfl
    · simp
    · rw [show incompatCompression &&& incompatSnapreg = 0 from rfl, Nat.or_zero]
  simp only [snapregEnabled, begun, opened, hbit]

theorem labels_begun (v : Vol α) (h : NewFeature fi) : SameLabels v (v.begun fi) :=
  ⟨rfl, rfl, snapregEnabled_begun v h⟩

/-- What is left of a transaction that failed: the volume as it was, except that the blocks it had
    taken, which were free and are so again, and the superblocks may have been written. -/
structure RolledBack (v : Vol α) (L : Layout α) (v' : Vol α) : Prop where
  consistent : v'.Consistent L
  labels : SameLabels v v'
  root : v'.root = v.root
  rootMirror : v'.rootMirror = v.rootMirror
  generation : v'.generation = v.generation
  freeBlocks : v'.freeBlocks = v.freeBlocks
  encrypted : v'.encrypted = v.encrypted
  readOnly : Latches v v'
  feature : ∃ fi, NewFeature fi ∧ v'.featureIncompat = v.featureIncompat ||| fi
  dev : ∃ A, (∀ b ∈ A, v.bitmap b = false) ∧
    Device.Within (A ++ [v.sbBlock, v.backupBlock]) v.dev v'.dev
  base : (v'.dev.view v.sbBlock).bind superBase = (v.dev.view v.sbBlock).bind superBase
  supers : v.dev.Faultless → ∀ b ∈ [v.sbBlock, v.backupBlock], v'.dev.view b = v.dev.view b
  alloc : (v'.bitmap = v.bitmap ∧ v'.snapshotCount = v.snapshotCount ∧ v'.nextOid = v.nextOid) ∨
    (v'.bitmap = setBits (fun _ => false) (v.inUse L.items L.nodes L.snaps) true ∧
      v'.snapshotCount = L.snaps.length ∧ firstUserObjid ≤ v'.nextOid ∧
      ∀ e ∈ L.items, e.1.objectId < v'.nextOid)

/-- The blocks a transaction lists, as the runs `embkfs_txn_end` frees. -/
theorem covered_listed (bs : List Nat) (rs : List Run) :
    Run.covered (bs.map (fun b => ⟨b, 1⟩) ++ rs) = bs ++ Run.covered rs := by
  rw [Run.covered_append]
  congr 1
  induction bs with
  | nil => rfl
  | cons b bs ih => rw [map_cons, Run.covered_cons, ih, Run.blocks_one, singleton_append]

theorem FreeOk.congr {v v' : Vol α} (h : v.FreeOk) (hb : v'.bitmap = v.bitmap)
    (hf : v'.freeExt = v.freeExt) (ht : v'.totalBlocks = v.totalBlocks) : v'.FreeOk := by
  unfold FreeOk at h ⊢
  rwa [hb, hf, ht]

/-- The volume at the point where the transaction gives up, compared with where it began. -/
structure GaveUp (v : Vol α) (A : List Nat) (w : Vol α) : Prop where
  labels : SameLabels v w
  root : w.root = v.root
  rootMirror : w.rootMirror = v.rootMirror
  generation : w.generation = v.generation
  freeBlocks : w.freeBlocks = v.freeBlocks
  primaryBad : w.rootPrimaryBad = v.rootPrimaryBad ∨ w.rootPrimaryBad = v.root.block
  nextOid : w.nextOid = v.nextOid
  encrypted : w.encrypted = v.encrypted
  snapshotCount : w.snapshotCount = v.snapshotCount
  readOnly : Latches v w
  feature : ∃ fi, NewFeature fi ∧ w.featureIncompat = v.featureIncompat ||| fi
  nodup : A.Nodup
  fresh : ∀ b ∈ A, v.bitmap b = false ∧ b < v.totalBlocks
  bitmap : ∀ b, w.bitmap b = (v.bitmap b || decide (b ∈ A))
  free : w.FreeOk
  dev : Device.Within (A ++ [v.sbBlock, v.backupBlock]) v.dev w.dev
  base : (w.dev.view v.sbBlock).bind superBase = (v.dev.view v.sbBlock).bind superBase
  supers : v.dev.Faultless → ∀ b ∈ [v.sbBlock, v.backupBlock], w.dev.view b = v.dev.view b
  txn : ∃ t F, w.txn = some t ∧ Txn.Recorded A F Txn.empty t

theorem Effect.gaveUp {v v₃ w : Vol α} {A F : List Nat} (hfi : NewFeature fi)
    (he : Effect A F (v.begun fi) v₃) (hsb : ∀ b ∈ [v.sbBlock, v.backupBlock], v.bitmap b = true)
    (hs : Sealing v₃ w) (hq : v.dev.Faultless → w.dev.view = v₃.dev.view) : GaveUp v A w := by
  have hl₃ := (labels_begun v hfi).trans he.same.labels
  have hdev := hs.dev
  have hbase := hs.base
  rw [hl₃.sbBlock, hl₃.backupBlock] at hdev
  rw [hl₃.sbBlock] at hbase
  refine
    { labels := hl₃.trans hs.same.labels
      root := hs.same.root.trans he.same.root
      rootMirror := hs.same.rootMirror.trans he.same.rootMirror
      generation := hs.same.generation.trans he.same.generation
      freeBlocks := hs.same.freeBlocks.trans he.same.freeBlocks
      primaryBad := (he.same.trans hs.same).primaryBad
      nextOid := hs.same.nextOid.trans he.same.nextOid
      encrypted := hs.same.encrypted.trans he.same.encrypted
      snapshotCount := hs.same.snapshotCount.trans he.same.snapshotCount
      readOnly := Latches.trans he.same.readOnly hs.same.readOnly
      feature := ⟨fi, hfi, hs.same.featureIncompat.trans he.same.featureIncompat⟩
      nodup := he.nodup
      fresh := he.fresh
      bitmap := fun b => by rw [hs.bitmap, he.bitmap]; rfl
      free := he.free.congr hs.bitmap hs.freeExt hs.same.totalBlocks
      dev := (he.dev.within.mono (subset_append_left _ _)).trans
        (hdev.mono (subset_append_right _ _))
      base := ?_
      supers := fun hd b hb => (congrFun (hq hd) b).trans (he.view_eq (hsb b hb))
      txn := ?_ }
  · rw [hbase, he.view_eq (hsb _ (by simp))]
    rfl
  · have ht := he.txn
    rw [← hs.txn] at ht
    rcases hw : w.txn with _ | t
    · rw [hw] at ht
      exact ht.elim
    · rw [hw] at ht
      exact ⟨t, F, rfl, ht⟩

theorem GaveUp.view_eq {v w : Vol α} {A : List Nat} (h : GaveUp v A w) {b : Nat}
    (hb : v.bitmap b = true) (hne : b ∉ [v.sbBlock, v.backupBlock]) :
    w.dev.view b = v.dev.view b := by
  refine h.dev.view b (fun hmem => ?_)
  rcases mem_append.1 hmem with hA | hA
  · rw [(h.fresh b hA).1] at hb
    exact absurd hb (by simp)
  · exact hne hA

/-- **Rollback.** A transaction that gave up ends with the volume it began with. -/
theorem txnEnd_rollback {v w : Vol α} {L : Layout α} {A : List Nat} (h : v.Consistent L)
    (hg : GaveUp v A w) : ∃ v', txnEnd false w = (.ok (), v') ∧ RolledBack v L v' := by
  obtain ⟨t, F, ht, hrec⟩ := hg.txn
  have hmarked : ∀ b ∈ v.inUse L.items L.nodes L.snaps, w.bitmap b = true := fun b hb => by
    rw [hg.bitmap, h.marked b hb, Bool.true_or]
  have hview := fun b (hb : v.bitmap b = true) hne => hg.view_eq (b := b) hb hne
  have hheld : L.snaps.length ≤ w.snapshotCount := by
    rw [hg.snapshotCount]
    exact h.held
  by_cases ho : t.overflow = true
  · -- The lists are lost: the map is made afresh, around the old root.
    have hl : SameLabels v ({ w with txn := none } : Vol α) :=
      ⟨hg.labels.blockSize, hg.labels.totalBlocks, hg.labels.snapreg⟩
    have hcons : ({ w with txn := none } : Vol α).Consistent L :=
      h.carry hl hg.root hg.rootMirror hview hg.dev.size hg.dev.rebuildTape rfl hg.free
        hg.primaryBad hmarked hheld
    obtain ⟨n, ext, hrun, hfree, hn⟩ := rebuildAllocator_eq hcons.tape hcons.mirror.fallbackOk
      hcons.tree hcons.snaps hcons.registry hcons.record
    have huse : ({ w with txn := none } : Vol α).inUse L.items L.nodes L.snaps
        = v.inUse L.items L.nodes L.snaps := by
      simp only [inUse, hl.fixedBlocks, hl.mirrorBlocks hg.rootMirror]
    rw [huse] at hrun
    rw [hrun] at hfree
    refine ⟨{ w with
      txn := none, bitmap := setBits (fun _ => false) (v.inUse L.items L.nodes L.snaps) true,
      nextOid := n, snapshotCount := L.snaps.length, freeExt := ext }, ?_, ?_⟩
    · simp only [txnEnd, bind, Prog.bind, Prog.get, ht, Prog.modify, ho, if_true]
      exact hrun
    · refine ⟨?_, ⟨hl.1, hl.2, hl.3⟩, hg.root, hg.rootMirror, hg.generation, hg.freeBlocks, hg.encrypted,
        hg.readOnly, hg.feature, ⟨A, fun b hb => (hg.fresh b hb).1, hg.dev⟩, hg.base,
        hg.supers, Or.inr ⟨rfl, rfl, hn⟩⟩
      refine h.carry ⟨hl.1, hl.2, hl.3⟩ hg.root hg.rootMirror hview hg.dev.size hg.dev.rebuildTape rfl hfree
        hg.primaryBad (fun b hb => ?_) (le_refl _)
      simp [setBits, hb]
  · -- What was allocated is given back.
    have hl := hg.labels
    have ho' : t.overflow = false := by simpa using ho
    have hperm : (Run.covered (t.alloc.map (fun b => ⟨b, 1⟩) ++ t.arun)).Perm A := by
      rw [covered_listed]
      simpa [Txn.allocBlocks, Txn.empty] using hrec.alloc ho'
    have hA : ∀ b ∈ Run.covered (t.alloc.map (fun b => ⟨b, 1⟩) ++ t.arun),
        w.bitmap b = true ∧ b < w.totalBlocks := by
      intro b hb
      have hb' := hperm.mem_iff.1 hb
      rw [hg.bitmap, hg.labels.totalBlocks]
      exact ⟨by simp [hb'], (hg.fresh b hb').2⟩
    have hnd := hperm.nodup_iff.2 hg.nodup
    have hfree₀ : ({ w with txn := none } : Vol α).FreeOk := hg.free
    obtain ⟨ext, hrun, hext⟩ := freeRuns_eq hfree₀ hnd hA
    have hbits : setBits w.bitmap (Run.covered (t.alloc.map (fun b => ⟨b, 1⟩) ++ t.arun)) false
        = v.bitmap := by
      rw [setBits_congr _ false (fun b => hperm.mem_iff)]
      funext b
      by_cases hb : b ∈ A
      · simp only [setBits, if_pos hb, (hg.fresh b hb).1]
      · simp only [setBits, if_neg hb, hg.bitmap]
        simp [hb]
    have hfree := hfree₀.freed hnd hA hext
    dsimp only at hrun hfree
    rw [hbits] at hrun hfree
    refine ⟨{ w with txn := none, bitmap := v.bitmap, freeExt := ext }, ?_, ?_⟩
    · simp only [txnEnd, bind, Prog.bind, Prog.get, ht, Prog.modify, ho', Bool.false_eq_true,
        if_false, Bool.false_and, hrun]
      rfl
    · refine ⟨?_, ⟨hl.1, hl.2, hl.3⟩, hg.root, hg.rootMirror, hg.generation, hg.freeBlocks, hg.encrypted,
        hg.readOnly, hg.feature, ⟨A, fun b hb => (hg.fresh b hb).1, hg.dev⟩, hg.base,
        hg.supers, Or.inl ⟨rfl, hg.snapshotCount, hg.nextOid⟩⟩
      exact h.carry ⟨hl.1, hl.2, hl.3⟩ hg.root hg.rootMirror hview hg.dev.size hg.dev.rebuildTape rfl hfree
        hg.primaryBad h.marked hheld

end Vol

end EmbLinkOs.Embkfs
