import EmbLinkOs.Embkfs.Consistent

set_option autoImplicit false
set_option linter.unusedSectionVars false

/-! # Whole transactions

`wp_transact` is the rule every modifying operation is verified with: a transaction whose body
accounts for the data blocks it takes and gives up (`Prepared`) either commits, and then `Committed`
says what the volume holds and which bits of the map changed, or leaves the volume as it was
(`RolledBack`), whatever fails on the way. -/

namespace EmbLinkOs.Embkfs

open List
open Prog hiding bind

open SortedMap

variable {α : Type}

/-- What the body of a transaction has decided: the ops and the feature bits, the blocks it took,
    the blocks it noted as superseded and those it dropped without noting them, and the snapshots
    that are on record afterwards. -/
structure Plan (α : Type) where
  ops : List (Put α)
  feature : Nat
  taken : List Nat
  noted : List Nat
  lost : List Nat
  snaps : List (SnapTree α)

namespace Vol

/-- Feature bits and the snapshot count play no part in building. -/
theorem Effect.relabel {A F : List Nat} {v v' : Vol α} (h : Effect A F v v') (fi c : Nat) :
    Effect A F { v with featureIncompat := fi, snapshotCount := c }
      { v' with featureIncompat := fi, snapshotCount := c } :=
  ⟨⟨h.same.blockSize, h.same.totalBlocks, h.same.generation, h.same.freeBlocks, h.same.nextOid,
    h.same.root, h.same.rootMirror, rfl, h.same.encrypted, rfl, h.same.readOnly,
    h.same.primaryBad⟩,
    h.dev, h.bitmap, h.nodup, h.fresh, h.free, h.txn, h.index⟩

theorem Sealing.relabel {v v' : Vol α} (h : Sealing v v') (fi c : Nat) :
    Sealing { v with featureIncompat := fi, snapshotCount := c }
      { v' with featureIncompat := fi, snapshotCount := c } :=
  ⟨⟨h.same.blockSize, h.same.totalBlocks, h.same.generation, h.same.freeBlocks, h.same.nextOid,
    h.same.root, h.same.rootMirror, rfl, h.same.encrypted, rfl, h.same.readOnly,
    h.same.primaryBad⟩,
    h.bitmap, h.freeExt, h.txn, h.dev, h.base⟩

variable [ItemData α] [Checksum α]

/-- The body of a transaction on `v`, which holds `L`, has ended in `w` with the plan `P`. -/
structure Prepared (hold : Nat) (v : Vol α) (L : Layout α) (P : Plan α) (w : Vol α) : Prop where
  feature : NewFeature P.feature
  effect : Effect P.taken P.noted v.opened w
  data : (dataBlocks (updAll P.ops L.items) ++ P.noted ++ P.lost).Perm
    (dataBlocks L.items ++ P.taken)
  extents : ∀ e ∈ updAll P.ops L.items, ExtentOk v.blockSize v.totalBlocks e
  record : v.recorded (updAll P.ops L.items) = P.snaps.map SnapTree.item
  snaps : ∀ s ∈ P.snaps, s ∈ L.snaps ∨
    (s.item.root = v.root ∧ s.items = L.items ∧ s.nodes = L.nodes)
  held : P.snaps.length ≤ v.snapshotCount + hold

/-- The new tree is built and waits to be committed. -/
structure Assembled (v : Vol α) (L : Layout α) (P : Plan α) (w : Vol α) (root : BlockPtr)
    (nodes A F : List Nat) (v₂ : Vol α) : Prop where
  effect : Effect A F (v.begun P.feature) v₂
  node : ∃ n, NodeAt v₂.dev.view root n
  tree : v₂.Tracked → v₂.TreeOk root (updAll P.ops L.items) nodes
  rootIn : root.block ∈ nodes
  blocks : (nodes ++ dataBlocks (updAll P.ops L.items) ++ F ++ P.lost).Perm (L.blocks ++ A)
  kept : ∀ b, w.bitmap b = true → v₂.bitmap b = true ∧ v₂.dev.view b = w.dev.view b

/-- The superseded blocks a commit gives back: none while a snapshot is retained. -/
def released (v : Vol α) (hold : Nat) (F : List Nat) : List Nat :=
  if v.snapshotCount + hold = 0 then F else []

/-- The count `embkfs_txn_new_free` predicts. -/
def predictedFree (v : Vol α) (hold : Nat) (A F : List Nat) : Nat :=
  (((v.freeBlocks : Int) - ((A.length : Int) - ((v.released hold F).length : Int))) % 2 ^ 64).toNat

/-- What a commit changed: `A` and the block `M` for the mirror were taken, `F` was superseded. -/
structure Exchanged (hold gen : Nat) (v : Vol α) (L : Layout α) (P : Plan α) (L' : Layout α)
    (v' : Vol α) (A F M : List Nat) : Prop where
  blocks : (L'.blocks ++ F ++ P.lost).Perm (L.blocks ++ A)
  nodup : (A ++ M).Nodup
  fresh : ∀ b ∈ A ++ M, v.bitmap b = false ∧ b < v.totalBlocks
  bitmap : ∀ b, v'.bitmap b = ((v.bitmap b || decide (b ∈ A ++ M)) &&
    !decide (b ∈ v.mirrorBlocks ++ v.released hold F))
  mirror : v'.mirrorBlocks ⊆ M
  mirrorKept : v.dev.Faultless → M = v'.mirrorBlocks
  dev : Device.Within (A ++ M ++ [v.sbBlock, v.backupBlock]) v.dev v'.dev
  freeBlocks : v'.freeBlocks = (v.predictedFree hold A F - v'.mirrorBlocks.length
    + v.mirrorBlocks.length) % 2 ^ 64
  mirrorRoom : v'.mirrorBlocks.length ≤ v.predictedFree hold A F
  super : ∃ x, v.dev.view v.sbBlock = some x ∧ ∀ b ∈ [v.sbBlock, v.backupBlock],
    v'.dev.view b = some (patchSuper (v.featureIncompat ||| P.feature) v'.root gen
      (v.predictedFree hold A F - v'.mirrorBlocks.length) v'.rootMirror x)

/-- A transaction with the plan `P` has committed: `v`, which held `L`, became `v'`, which holds
    `L'`. The blocks the body had written in `w` are still as they were there. -/
structure Committed (hold gen : Nat) (v : Vol α) (L : Layout α) (P : Plan α) (w : Vol α)
    (L' : Layout α) (v' : Vol α) : Prop where
  consistent : v'.Consistent L'
  items : L'.items = updAll P.ops L.items
  snaps : L'.snaps = P.snaps
  labels : SameLabels v v'
  generation : v'.generation = gen
  nextOid : v'.nextOid = v.nextOid
  encrypted : v'.encrypted = v.encrypted
  snapshotCount : v'.snapshotCount = v.snapshotCount + hold
  newFeature : NewFeature P.feature
  feature : v'.featureIncompat = v.featureIncompat ||| P.feature
  readOnly : Latches v v'
  exchanged : ∃ A F M, v.Exchanged hold gen L P L' v' A F M
  kept : ∀ b, w.bitmap b = true → b ∉ [v.sbBlock, v.backupBlock] → v'.dev.view b = w.dev.view b

/-! ## Switching over -/

/-- A commit that succeeded, seen from outside: `M` was taken for the mirror. -/
structure Installed (root : BlockPtr) (gen free : Nat) (M : List Nat) (v v' : Vol α) : Prop where
  labels : SameLabels v v'
  root : v'.root = root
  generation : v'.generation = gen
  primaryBad : v'.rootPrimaryBad = 0
  nextOid : v'.nextOid = v.nextOid
  encrypted : v'.encrypted = v.encrypted
  snapshotCount : v'.snapshotCount = v.snapshotCount
  featureIncompat : v'.featureIncompat = v.featureIncompat
  readOnly : Latches v v'
  txn : TxnEffect M [] v.txn v'.txn
  tracked : v.Tracked → v'.Tracked
  nodup : M.Nodup
  fresh : ∀ b ∈ M, v.bitmap b = false ∧ b < v.totalBlocks
  index : M ⊆ Run.covered v.freeExt
  bitmap : ∀ b, v'.bitmap b = ((v.bitmap b || decide (b ∈ M)) && !decide (b ∈ v.mirrorBlocks))
  freeOk : v'.FreeOk
  mirrorOk : v'.MirrorOk
  mirrorIn : v'.rootMirror.block ≠ 0 → v'.rootMirror.block < v'.totalBlocks
  mirror : v'.mirrorBlocks ⊆ M
  mirrorNodup : v'.mirrorBlocks.Nodup
  mirrorKept : v.totalBlocks ≤ v.dev.size → v.dev.Faultless → M = v'.mirrorBlocks
  mirrorRoom : v'.mirrorBlocks.length ≤ free
  freeBlocks : v'.freeBlocks = (free - v'.mirrorBlocks.length + v.mirrorBlocks.length) % 2 ^ 64
  dev : Device.Within (M ++ [v.sbBlock, v.backupBlock]) v.dev v'.dev
  super : ∃ x, v.dev.view v.sbBlock = some x ∧ ∀ b ∈ [v.sbBlock, v.backupBlock],
    v'.dev.view b = some (patchSuper v.featureIncompat v'.root gen
      (free - v'.mirrorBlocks.length) v'.rootMirror x)

/-- A block that was in use and is no superblock reads as before. -/
theorem Installed.view {root : BlockPtr} {gen free : Nat} {M : List Nat} {v v' : Vol α}
    (h : Installed root gen free M v v') {b : Nat} (hb : v.bitmap b = true)
    (hs : b ∉ [v.sbBlock, v.backupBlock]) : v'.dev.view b = v.dev.view b := by
  refine h.dev.view b (fun hmem => ?_)
  rcases mem_append.1 hmem with hM | hsup
  · rw [(h.fresh b hM).1] at hb
    exact absurd hb (by simp)
  · exact hs hsup

theorem Switched.installed {root : BlockPtr} {gen free : Nat} {M : List Nat} {v v' : Vol α}
    (h : Switched root gen free M v v')
    (hsup : ∀ b ∈ [v.sbBlock, v.backupBlock], v.bitmap b = true)
    (hrs : root.block ∉ [v.sbBlock, v.backupBlock])
    (hmir : ∀ b ∈ v.mirrorBlocks, v.bitmap b = true ∧ b < v.totalBlocks) :
    Installed root gen free M v v' := by
  obtain ⟨v₃, v₄, mirror, free', ext, x, he, hst, hs, hx, hx₁, hx₂, hv', hext, htr⟩ := h.state
  have hl₃ : SameLabels v v₃ := he.same.labels
  have hl₄ : SameLabels v v₄ := hl₃.trans hs.same.labels
  have hl : SameLabels v v' := by
    rw [hv']
    exact ⟨hl₄.1, hl₄.2, hl₄.3⟩
  have hdev : v'.dev = v₄.dev := by rw [hv']
  have hmirror : v'.rootMirror = mirror := by rw [hv']
  have hbits₄ : ∀ b, v₄.bitmap b = (v.bitmap b || decide (b ∈ M)) := fun b => by
    rw [hs.bitmap, he.bitmap]
  have hview : ∀ b, b ∉ [v.sbBlock, v.backupBlock] → v'.dev.view b = v₃.dev.view b := by
    intro b hb
    rw [hdev]
    exact hs.dev.view b (by rw [hl₃.sbBlock, hl₃.backupBlock]; exact hb)
  have hsum := hst.summary
  have hmirrorIn : v'.rootMirror.block ≠ 0 → v'.rootMirror.block < v'.totalBlocks := by
    rw [hmirror, hl.totalBlocks]
    intro hne
    rcases hsum with ⟨h0, -⟩ | ⟨hM, -⟩
    · exact absurd h0 hne
    · exact (he.fresh mirror.block (by simp [hM])).2
  have hblocks := mirrorBlocks_eq hmirrorIn
  rw [hmirror] at hblocks
  have hM : v'.mirrorBlocks ⊆ M ∧ v'.mirrorBlocks.Nodup ∧
      (v.totalBlocks ≤ v.dev.size → v.dev.Faultless → M = v'.mirrorBlocks) ∧
      free' = free - v'.mirrorBlocks.length ∧ v'.mirrorBlocks.length ≤ free := by
    rw [hblocks]
    rcases hsum with ⟨h0, hf, hnone⟩ | ⟨hM, h0, -, hpos, hf, -⟩
    · rw [if_pos h0]
      exact ⟨by simp, by simp, hnone, by simpa using hf, by simp⟩
    · rw [if_neg h0, hM]
      exact ⟨by simp, by simp, fun _ _ => rfl, by simpa using hf, Nat.succ_le_of_lt hpos⟩
  refine
    { labels := hl, root := by rw [hv'], generation := by rw [hv'], primaryBad := by rw [hv']
      nextOid := by rw [hv']; exact hs.same.nextOid.trans he.same.nextOid
      encrypted := by rw [hv']; exact hs.same.encrypted.trans he.same.encrypted
      snapshotCount := by rw [hv']; exact hs.same.snapshotCount.trans he.same.snapshotCount
      featureIncompat := by rw [hv']; exact hs.same.featureIncompat.trans he.same.featureIncompat
      readOnly := by rw [hv']; exact he.same.readOnly.trans hs.same.readOnly
      txn := by rw [hv']; exact hs.txn ▸ he.txn
      tracked := htr, nodup := he.nodup, fresh := he.fresh
      index := fun b hb => he.index (mem_append_left _ hb)
      bitmap := ?_, freeOk := ?_, mirrorOk := ?_, mirrorIn := hmirrorIn, mirror := hM.1
      mirrorNodup := hM.2.1, mirrorKept := hM.2.2.1, mirrorRoom := hM.2.2.2.2
      freeBlocks := by rw [← hM.2.2.2.1, hv']
      dev := ?_, super := ⟨x, ?_, ?_⟩ }
  · intro b
    rw [hv']
    by_cases hb : b ∈ v.mirrorBlocks <;> simp [setBits, hb, hbits₄]
  · have hfree₄ : v₄.FreeOk := by
      have := he.free
      unfold FreeOk at this ⊢
      rwa [hs.bitmap, hs.freeExt, hs.same.totalBlocks]
    have hnd : v.mirrorBlocks.Nodup := by
      unfold mirrorBlocks
      split <;> simp
    rw [hv']
    refine hfree₄.freed hnd (fun b hb => ?_) (by rw [hs.freeExt]; exact hext)
    rw [hbits₄, (hmir b hb).1, hl₄.totalBlocks]
    exact ⟨rfl, (hmir b hb).2⟩
  · intro hne
    rw [hmirror] at hne ⊢
    rw [show v'.root = root by rw [hv']]
    rcases hsum with ⟨h0, -⟩ | ⟨hMeq, -, hne', -, -, hcopy⟩
    · exact absurd h0 hne
    · refine ⟨hne', ?_⟩
      have hms : mirror.block ∉ [v.sbBlock, v.backupBlock] := by
        intro hmem
        have := hsup _ hmem
        rw [(he.fresh mirror.block (by simp [hMeq])).1] at this
        exact absurd this (by simp)
      rw [hview _ hms, hview _ hrs, hcopy]
  · rw [hdev]
    have hsd := hs.dev
    rw [hl₃.sbBlock, hl₃.backupBlock] at hsd
    exact (he.dev.within.mono (subset_append_left _ _)).trans
      (hsd.mono (subset_append_right _ _))
  · rw [← hx]
    exact (he.view_eq (hsup _ (by simp))).symm
  · intro b hb
    rw [hdev, ← hM.2.2.2.1, hmirror, show v'.root = root by rw [hv']]
    rcases mem_pair.1 hb with rfl | rfl
    · exact hx₁
    · exact hx₂

/-! ## The end of a committed transaction -/

/-- Ending a committed transaction gives back what it noted, unless a snapshot is retained. -/
theorem txnEnd_committed {v : Vol α} {t : Txn} {F : List Nat} (hfree : v.FreeOk)
    (ht : v.txn = some t) (ho : t.overflow = false) (hF : t.freedBlocks.Perm F) (hnd : F.Nodup)
    (hmem : ∀ b ∈ F, v.bitmap b = true ∧ b < v.totalBlocks) :
    ∃ ext, txnEnd true v = (.ok (), { v with
        txn := none, bitmap := setBits v.bitmap (v.released 0 F) false, freeExt := ext }) ∧
      ({ v with txn := none, bitmap := setBits v.bitmap (v.released 0 F) false,
                freeExt := ext } : Vol α).FreeOk := by
  by_cases hc : v.snapshotCount = 0
  · have hperm : (Run.covered (t.freed.map (fun b => ⟨b, 1⟩) ++ t.frun)).Perm F := by
      rw [covered_listed]
      exact hF
    have hfree₀ : ({ v with txn := none } : Vol α).FreeOk := hfree
    have hmem' : ∀ b ∈ Run.covered (t.freed.map (fun b => ⟨b, 1⟩) ++ t.frun),
        v.bitmap b = true ∧ b < v.totalBlocks := fun b hb => hmem b (hperm.mem_iff.1 hb)
    obtain ⟨ext, hrun, hext⟩ := freeRuns_eq hfree₀ (hperm.nodup_iff.2 hnd) hmem'
    have hfree₁ := hfree₀.freed (hperm.nodup_iff.2 hnd) hmem' hext
    have hbits := setBits_congr v.bitmap false (fun b => hperm.mem_iff (a := b))
    have hrel : v.released 0 F = F := by simp [released, hc]
    dsimp only at hrun hfree₁
    rw [hbits] at hrun hfree₁
    have hno : (true && decide (v.snapshotCount ≠ 0)) = false := by simp [hc]
    refine ⟨ext, ?_, by rw [hrel]; exact hfree₁⟩
    simp only [txnEnd, bind, Prog.bind, Prog.get, ht, Prog.modify, ho, Bool.false_eq_true,
      if_false, hno, if_true, hrun, hrel]
    rfl
  · have hrel : v.released 0 F = [] := by simp [released, hc]
    have hbits : setBits v.bitmap [] false = v.bitmap := by
      funext b
      simp [setBits]
    have hyes : (true && decide (v.snapshotCount ≠ 0)) = true := by simp [hc]
    refine ⟨v.freeExt, ?_, ?_⟩
    · simp only [txnEnd, bind, Prog.bind, Prog.get, ht, Prog.modify, ho, Bool.false_eq_true,
        if_false, hyes, if_true, hrel, hbits]
      rfl
    · rw [hrel, hbits]
      exact hfree

theorem wp_txnNewFree (v : Vol α) :
    wp txnNewFree
      (fun free v' => v' = v ∧ ∃ t, v.txn = some t ∧ t.overflow = false ∧
        free = v.predictedFree 0 t.allocBlocks t.freedBlocks)
      (fun _ v' => v' = v) v := by
  unfold txnNewFree
  simp only [wp_bind, wp_get]
  split
  · rfl
  · next t ht =>
      simp only [wp_ite, wp_fail, wp_pure, implies_true, true_and]
      intro ho
      refine ⟨t, ht, by simpa using ho, ?_⟩
      unfold predictedFree released
      by_cases hc : v.snapshotCount = 0
      · simp [hc]
      · simp [hc, Nat.pos_of_ne_zero hc]

/-! ## Fresh blocks -/

section

variable {v : Vol α} {L : Layout α} {A : List Nat}

theorem Consistent.notMem_fresh (hfresh : ∀ b ∈ A, v.bitmap b = false ∧ b < v.totalBlocks) {b : Nat}
    (hb : v.bitmap b = true) : b ∉ A := by
  intro hA
  rw [(hfresh b hA).1] at hb
  exact absurd hb (by simp)

theorem Consistent.nodup_fresh (h : v.Consistent L) (hA : A.Nodup)
    (hfresh : ∀ b ∈ A, v.bitmap b = false ∧ b < v.totalBlocks) : (L.blocks ++ A).Nodup := by
  refine nodup_append.2 ⟨(nodup_append.1 h.nodup).2.1, hA, ?_⟩
  intro b hb c hc hbc
  subst hbc
  exact Consistent.notMem_fresh hfresh (h.marked b (h.mem_inUse_blocks hb)) hc

/-- Neither the fixed blocks nor the mirror are among the tree's blocks or fresh ones. -/
theorem Consistent.fixed_fresh (h : v.Consistent L)
    (hfresh : ∀ b ∈ A, v.bitmap b = false ∧ b < v.totalBlocks) {b : Nat}
    (hb : b ∈ v.fixedBlocks ++ v.mirrorBlocks) : b ∉ L.blocks ++ A := by
  have hmark : v.bitmap b = true := by
    refine h.marked b ?_
    rcases mem_append.1 hb with hb | hb
    · exact h.mem_inUse_fixed hb
    · exact h.mem_inUse_mirror hb
  intro hmem
  rcases mem_append.1 hmem with hL | hA
  · exact (nodup_append.1 h.nodup).2.2 b hb b hL rfl
  · exact Consistent.notMem_fresh hfresh hmark hA

end

/-! ## Installing the new tree -/

section

variable {hold gen : Nat} {v w v₂ v' : Vol α} {L : Layout α} {P : Plan α} {root : BlockPtr}
  {nodes A F M : List Nat}

/-- The map after a commit marks everything that is in use then. -/
theorem Assembled.marked (h : v.Consistent L) (hp : Prepared hold v L P w)
    (ha : Assembled v L P w root nodes A F v₂)
    (hAM : (A ++ M).Nodup) (hfresh : ∀ b ∈ A ++ M, v.bitmap b = false ∧ b < v.totalBlocks)
    (hbits : ∀ b, v'.bitmap b = ((v.bitmap b || decide (b ∈ A ++ M)) &&
      !decide (b ∈ v.mirrorBlocks ++ v.released hold F)))
    {b : Nat} (hb : b ∈ v.fixedBlocks ++ M ++ (nodes ++ dataBlocks (updAll P.ops L.items))
      ++ snapBlocks P.snaps) : v'.bitmap b = true := by
  have hA : ∀ b ∈ A, v.bitmap b = false ∧ b < v.totalBlocks :=
    fun b hb => hfresh b (mem_append_left _ hb)
  have hnd := ha.blocks.nodup_iff.2 (h.nodup_fresh ha.effect.nodup hA)
  have hsub : ∀ b ∈ nodes ++ dataBlocks (updAll P.ops L.items) ++ F, b ∈ L.blocks ++ A :=
    fun b hb => ha.blocks.mem_iff.1 (mem_append_left _ hb)
  have hrel : ∀ b ∈ v.released hold F, b ∈ F ∧ v.snapshotCount + hold = 0 := by
    intro b hb
    unfold released at hb
    split at hb
    · next h0 => exact ⟨hb, h0⟩
    · exact absurd hb (by simp)
  have hFsub : ∀ b ∈ F, b ∈ L.blocks ++ A := fun b hb => hsub b (mem_append_right _ hb)
  -- It is enough that the block was marked or taken, and is neither the old mirror nor released.
  suffices hs : (v.bitmap b = true ∨ b ∈ A ++ M) ∧ b ∉ v.mirrorBlocks ∧ b ∉ v.released hold F by
    rw [hbits]
    obtain ⟨h1, h2, h3⟩ := hs
    simp only [mem_append, h2, h3, or_self, decide_false, Bool.not_false, Bool.and_true,
      Bool.or_eq_true, decide_eq_true_eq] at h1 ⊢
    exact h1
  have hmir : ∀ b ∈ v.mirrorBlocks, v.bitmap b = true :=
    fun b hb => h.marked b (h.mem_inUse_mirror hb)
  have htree : ∀ b ∈ nodes ++ dataBlocks (updAll P.ops L.items),
      (v.bitmap b = true ∨ b ∈ A ++ M) ∧ b ∉ v.mirrorBlocks ∧ b ∉ v.released hold F := by
    intro b hb
    have hin := hsub b (mem_append_left _ hb)
    refine ⟨?_, fun hm => h.fixed_fresh hA (mem_append_right _ hm) hin, fun hr => ?_⟩
    · rcases mem_append.1 hin with hL | hA'
      · exact Or.inl (h.marked b (h.mem_inUse_blocks hL))
      · exact Or.inr (mem_append_left _ hA')
    · exact (nodup_append.1 (nodup_append.1 hnd).1).2.2 b hb b (hrel b hr).1 rfl
  simp only [mem_append, or_assoc] at hb
  rcases hb with hb | hb | hb | hb | hb
  · -- A fixed block.
    have hmark := h.marked b (h.mem_inUse_fixed hb)
    have hnot := h.fixed_fresh hA (mem_append_left v.mirrorBlocks hb)
    refine ⟨Or.inl hmark, fun hm => ?_, fun hr => hnot (hFsub b (hrel b hr).1)⟩
    exact (nodup_append.1 (nodup_append.1 h.nodup).1).2.2 b hb b hm rfl
  · -- The new mirror's block.
    have hbM : b ∈ A ++ M := mem_append_right _ hb
    have hclear := (hfresh b hbM).1
    refine ⟨Or.inr hbM, fun hm => ?_, fun hr => ?_⟩
    · rw [hmir b hm] at hclear
      exact absurd hclear (by simp)
    · rcases mem_append.1 (hFsub b (hrel b hr).1) with hL | hA'
      · rw [h.marked b (h.mem_inUse_blocks hL)] at hclear
        exact absurd hclear (by simp)
      · exact (nodup_append.1 hAM).2.2 b hA' b hb rfl
  · exact htree b (mem_append_left _ hb)
  · exact htree b (mem_append_right _ hb)
  · -- A block of a snapshot; there is one, so nothing is released.
    obtain ⟨s, hs, hbs⟩ := mem_flatMap.1 hb
    have hpos : v.snapshotCount + hold ≠ 0 := by
      have := length_pos_of_mem hs
      have := hp.held
      omega
    have hin : v.bitmap b = true ∧ b ∉ v.mirrorBlocks := by
      rcases hp.snaps s hs with hsL | ⟨-, hits, hnod⟩
      · exact ⟨h.marked b (h.mem_inUse_snap hsL hbs), fun hm =>
          h.apart b (mem_append_right _ hm) (mem_flatMap.2 ⟨s, hsL, hbs⟩)⟩
      · rw [hits, hnod] at hbs
        exact ⟨h.marked b (h.mem_inUse_blocks hbs), fun hm =>
          h.fixed_fresh hA (mem_append_right _ hm) (mem_append_left _ hbs)⟩
    exact ⟨Or.inl hin.1, hin.2, fun hr => hpos (hrel b hr).2⟩

/-- The volume that has the new tree installed holds it. -/
theorem Assembled.consistent (h : v.Consistent L) (hp : Prepared hold v L P w)
    (ha : Assembled v L P w root nodes A F v₂) (htracked : v₂.Tracked)
    (hAM : (A ++ M).Nodup) (hfresh : ∀ b ∈ A ++ M, v.bitmap b = false ∧ b < v.totalBlocks)
    (hbits : ∀ b, v'.bitmap b = ((v.bitmap b || decide (b ∈ A ++ M)) &&
      !decide (b ∈ v.mirrorBlocks ++ v.released hold F)))
    (hl : SameLabels v v') (hroot : v'.root = root) (hmirror : v'.MirrorOk)
    (hmirrorIn : v'.rootMirror.block ≠ 0 → v'.rootMirror.block < v'.totalBlocks)
    (hM : v'.mirrorBlocks ⊆ M) (hmnd : v'.mirrorBlocks.Nodup)
    (hidle : v'.txn = none) (hfree : v'.FreeOk) (hbad : v'.rootPrimaryBad = 0)
    (hcount : v'.snapshotCount = v.snapshotCount + hold)
    (hview : ∀ b, v.bitmap b = true → b ∉ [v.sbBlock, v.backupBlock] →
      v'.dev.view b = v.dev.view b)
    (hnew : ∀ b ∈ nodes, v'.dev.view b = v₂.dev.view b)
    (hsize : v'.dev.size = v.dev.size) (htape : v'.dev.rebuildTape = v.dev.rebuildTape) :
    v'.Consistent ⟨updAll P.ops L.items, nodes, P.snaps⟩ := by
  have hA : ∀ b ∈ A, v.bitmap b = false ∧ b < v.totalBlocks :=
    fun b hb => hfresh b (mem_append_left _ hb)
  have hnd := ha.blocks.nodup_iff.2 (h.nodup_fresh ha.effect.nodup hA)
  have hsub : ∀ b ∈ nodes ++ dataBlocks (updAll P.ops L.items), b ∈ L.blocks ++ A :=
    fun b hb => ha.blocks.mem_iff.1 (mem_append_left _ (mem_append_left _ hb))
  have hreg : v.snapregEnabled = true → v'.dev.view snapregBlock = v.dev.view snapregBlock := by
    intro hs
    refine hview _ (h.marked _ (h.mem_inUse_fixed ?_)) (h.registry_notSuper hs)
    rw [fixedBlocks, if_pos hs]
    simp
  have hl₂ : SameLabels v₂ v' := by
    have := (labels_begun v hp.feature).trans ha.effect.same.labels
    exact ⟨hl.blockSize.trans this.blockSize.symm, hl.totalBlocks.trans this.totalBlocks.symm,
      hl.snapreg.trans this.snapreg.symm⟩
  have hclear : ∀ b ∈ v'.mirrorBlocks, v.bitmap b = false ∧ b < v.totalBlocks :=
    fun b hb => hfresh b (mem_append_right _ (hM hb))
  -- The fixed blocks and the new mirror keep apart from everything the trees use.
  have hfm : (v.fixedBlocks ++ v'.mirrorBlocks).Nodup := by
    refine nodup_append.2 ⟨(nodup_append.1 (nodup_append.1 h.nodup).1).1, hmnd, ?_⟩
    intro b hb c hc hbc
    subst hbc
    exact Consistent.notMem_fresh hclear (h.marked b (h.mem_inUse_fixed hb)) hc
  have hmtree : ∀ b ∈ v'.mirrorBlocks, b ∉ L.blocks ++ A := by
    intro b hb hmem
    rcases mem_append.1 hmem with hL | hA'
    · exact Consistent.notMem_fresh hclear (h.marked b (h.mem_inUse_blocks hL)) hb
    · exact (nodup_append.1 hAM).2.2 b hA' b (hM hb) rfl
  have hsnap : ∀ b ∈ snapBlocks P.snaps, v.bitmap b = true ∧ b ∉ v.fixedBlocks ∧
      b < v.totalBlocks := by
    intro b hb
    obtain ⟨s, hs, hbs⟩ := mem_flatMap.1 hb
    rcases hp.snaps s hs with hsL | ⟨-, hits, hnod⟩
    · have hin := h.mem_inUse_snap hsL hbs
      exact ⟨h.marked b hin, fun hf => h.apart b (mem_append_left _ hf)
        (mem_flatMap.2 ⟨s, hsL, hbs⟩), h.range b hin⟩
    · rw [hits, hnod] at hbs
      have hin := h.mem_inUse_blocks hbs
      exact ⟨h.marked b hin, fun hf => h.fixed_fresh hA (mem_append_left _ hf)
        (mem_append_left _ hbs), h.range b hin⟩
  have hsnapView : ∀ b ∈ snapBlocks P.snaps, v'.dev.view b = v.dev.view b := by
    intro b hb
    refine hview b (hsnap b hb).1 (fun hmem => (hsnap b hb).2.1 ?_)
    rcases mem_pair.1 hmem with rfl | rfl
    · exact h.sb_mem
    · exact h.backup_mem
  refine
    { idle := hidle, free := hfree, primaryBad := Or.inl hbad, mirror := hmirror
      mirrorIn := hmirrorIn
      tree := by rw [hroot]; exact (ha.tree htracked).congr hl₂ hnew
      snaps := ?_, registry := h.registry.congr hl hreg
      record := (recorded_congr hl hreg _).trans hp.record
      held := by rw [hcount]; exact hp.held
      nodup := ?_, apart := ?_, marked := ?_, range := ?_
      bytes := by rw [hl.totalBlocks, hl.blockSize]; exact h.bytes
      fits := by rw [hl.totalBlocks, hsize]; exact h.fits
      tape := htape.trans h.tape }
  · intro s hs
    have hcongr : ∀ b ∈ s.nodes, v'.dev.view b = v.dev.view b := fun b hb =>
      hsnapView b (mem_flatMap.2 ⟨s, hs, mem_append_left _ hb⟩)
    rcases hp.snaps s hs with hsL | ⟨hr, hits, hnod⟩
    · exact (h.snaps s hsL).congr hl hcongr
    · rw [hnod] at hcongr
      rw [hr, hits, hnod]
      exact h.tree.congr hl hcongr
  · rw [hl.fixedBlocks]
    refine nodup_append.2 ⟨hfm, (nodup_append.1 (nodup_append.1 hnd).1).1, ?_⟩
    intro b hb c hc hbc
    subst hbc
    rcases mem_append.1 hb with hf | hm
    · exact h.fixed_fresh hA (mem_append_left _ hf) (hsub b hc)
    · exact hmtree b hm (hsub b hc)
  · rw [hl.fixedBlocks]
    intro b hb hs
    rcases mem_append.1 hb with hf | hm
    · exact (hsnap b hs).2.1 hf
    · exact Consistent.notMem_fresh hclear (hsnap b hs).1 hm
  · intro b hb
    refine ha.marked h hp hAM hfresh hbits ?_
    simp only [inUse, hl.fixedBlocks, mem_append] at hb ⊢
    rcases hb with ((hb | hb) | hb) | hb
    · exact Or.inl (Or.inl (Or.inl hb))
    · exact Or.inl (Or.inl (Or.inr (hM hb)))
    · exact Or.inl (Or.inr hb)
    · exact Or.inr hb
  · intro b hb
    rw [hl.totalBlocks]
    simp only [inUse, hl.fixedBlocks, mem_append] at hb
    rcases hb with ((hb | hb) | hb) | hb
    · exact h.range b (h.mem_inUse_fixed hb)
    · exact (hclear b hb).2
    · rcases mem_append.1 (hsub b (mem_append.2 hb)) with hL | hA'
      · exact h.range b (h.mem_inUse_blocks hL)
      · exact (hA b hA').2
    · exact (hsnap b hb).2.2

theorem predictedFree_congr {v₀ : Vol α} {A' F' : List Nat} (hfree : v₀.freeBlocks = v.freeBlocks)
    (hcount : v₀.snapshotCount = v.snapshotCount + hold) (hA : A'.Perm A) (hF : F'.Perm F) :
    v₀.predictedFree 0 A' F' = v.predictedFree hold A F := by
  have hrel : (v₀.released 0 F').length = (v.released hold F).length := by
    simp only [released, hcount, Nat.add_zero]
    split
    · exact hF.length_eq
    · rfl
  simp only [predictedFree, hfree, hA.length_eq, hrel]

/-- From a commit that switched over to the end of its transaction. -/
theorem Assembled.committed (h : v.Consistent L) (hp : Prepared hold v L P w)
    (ha : Assembled v L P w root nodes A F v₂) {t : Txn} (ht : v₂.txn = some t)
    (ho : t.overflow = false) {free : Nat} {v₅ : Vol α}
    (hfree : free = ({ v₂ with snapshotCount := v₂.snapshotCount + hold } : Vol α).predictedFree 0
      t.allocBlocks t.freedBlocks)
    (hS : Switched root gen free M { v₂ with snapshotCount := v₂.snapshotCount + hold } v₅) :
    ∃ v', txnEnd true v₅ = (.ok (), v') ∧
      Committed hold gen v L P w ⟨updAll P.ops L.items, nodes, P.snaps⟩ v' := by
  have hcount : v₂.snapshotCount = v.snapshotCount := ha.effect.same.snapshotCount
  have hl₂ : SameLabels v v₂ := (labels_begun v hp.feature).trans ha.effect.same.labels
  have hA : ∀ b ∈ A, v.bitmap b = false ∧ b < v.totalBlocks := ha.effect.fresh
  have hnd := ha.blocks.nodup_iff.2 (h.nodup_fresh ha.effect.nodup hA)
  have hsub : ∀ b ∈ nodes ++ dataBlocks (updAll P.ops L.items) ++ F, b ∈ L.blocks ++ A :=
    fun b hb => ha.blocks.mem_iff.1 (mem_append_left _ hb)
  have hmb : ({ v₂ with snapshotCount := v₂.snapshotCount + hold } : Vol α).mirrorBlocks
      = v.mirrorBlocks := hl₂.mirrorBlocks ha.effect.same.rootMirror
  have hnodes : ∀ b ∈ nodes, v₂.bitmap b = true ∧ b ∉ [v.sbBlock, v.backupBlock] := by
    intro b hb
    have hin := hsub b (mem_append_left _ (mem_append_left _ hb))
    refine ⟨?_, fun hmem => h.fixed_fresh hA (mem_append_left _ ?_) hin⟩
    · rcases mem_append.1 hin with hL | hA'
      · exact ha.effect.marked (h.marked b (h.mem_inUse_blocks hL))
      · exact ha.effect.marked_new hA'
    · rcases mem_pair.1 hmem with rfl | rfl
      · exact h.sb_mem
      · exact h.backup_mem
  have hI := hS.installed (fun b hb => by
      rw [show ({ v₂ with snapshotCount := v₂.snapshotCount + hold } : Vol α).sbBlock = v.sbBlock
        from hl₂.sbBlock, show ({ v₂ with snapshotCount := v₂.snapshotCount + hold } :
        Vol α).backupBlock = v.backupBlock from hl₂.backupBlock] at hb
      exact ha.effect.marked (h.supers_marked b hb))
    (by
      have := (hnodes _ ha.rootIn).2
      rwa [← hl₂.sbBlock, ← hl₂.backupBlock] at this)
    (fun b hb => by
      rw [hmb] at hb
      have hin := h.mem_inUse_mirror hb
      exact ⟨ha.effect.marked (h.marked b hin), (h.range b hin).trans_eq hl₂.totalBlocks.symm⟩)
  have hbits₅ : ∀ b, v₅.bitmap b = ((v.bitmap b || decide (b ∈ A ++ M)) &&
      !decide (b ∈ v.mirrorBlocks)) := by
    intro b
    rw [hI.bitmap, hmb, show ({ v₂ with snapshotCount := v₂.snapshotCount + hold } : Vol α).bitmap b
      = (v.bitmap b || decide (b ∈ A)) from ha.effect.bitmap b, Bool.or_assoc]
    simp only [mem_append, Bool.decide_or]
  have hM : ∀ b ∈ M, (v.bitmap b = false ∧ b ∉ A) ∧ b < v.totalBlocks := by
    intro b hb
    obtain ⟨hclear, hlt⟩ := hI.fresh b hb
    have hclear : (v.bitmap b || decide (b ∈ A)) = false := (ha.effect.bitmap b).symm.trans hclear
    obtain ⟨h1, h2⟩ := Bool.or_eq_false_iff.1 hclear
    exact ⟨⟨h1, of_decide_eq_false h2⟩, hlt.trans_eq hl₂.totalBlocks⟩
  have hAM : (A ++ M).Nodup := nodup_append.2 ⟨ha.effect.nodup, hI.nodup,
    fun b hb c hc hbc => (hM c hc).1.2 (hbc ▸ hb)⟩
  have hfresh : ∀ b ∈ A ++ M, v.bitmap b = false ∧ b < v.totalBlocks := by
    intro b hb
    rcases mem_append.1 hb with hb | hb
    · exact hA b hb
    · exact ⟨(hM b hb).1.1, (hM b hb).2⟩
  have hF : ∀ b ∈ F, v₅.bitmap b = true ∧ b < v₅.totalBlocks := by
    intro b hb
    have hin := hsub b (mem_append_right _ hb)
    have hnm : b ∉ v.mirrorBlocks := fun hm => h.fixed_fresh hA (mem_append_right _ hm) hin
    rw [hbits₅, hI.labels.totalBlocks, decide_eq_false hnm]
    refine ⟨?_, lt_of_lt_of_eq ?_ hl₂.totalBlocks.symm⟩ <;>
      rcases mem_append.1 hin with hL | hA'
    · simp [h.marked b (h.mem_inUse_blocks hL)]
    · simp [hA']
    · exact h.range b (h.mem_inUse_blocks hL)
    · exact (hA b hA').2
  obtain ⟨t₅, ht₅, ho₅⟩ := hI.tracked ⟨t, ht, ho⟩
  have hrec : Txn.Recorded A F Txn.empty t := by
    have := ha.effect.txn
    rw [ht] at this
    exact this
  have hrec₅ : Txn.Recorded (A ++ M) F Txn.empty t₅ := by
    have := ha.effect.txn.trans hI.txn
    rw [ht₅, append_nil] at this
    exact this
  obtain ⟨ext', hend, hfree'⟩ := txnEnd_committed hI.freeOk ht₅ ho₅
    (by simpa [Txn.freedBlocks, Txn.empty] using hrec₅.freed ho₅)
    (nodup_append.1 (nodup_append.1 hnd).1).2.1 hF
  have hcount₅ : v₅.snapshotCount = v.snapshotCount + hold := by
    rw [hI.snapshotCount, ← hcount]
  have hrel : v₅.released 0 F = v.released hold F := by
    simp only [released, hcount₅, Nat.add_zero]
  rw [hrel] at hend hfree'
  refine ⟨_, hend, ?_⟩
  have hpred : free = v.predictedFree hold A F := by
    rw [hfree]
    exact predictedFree_congr ha.effect.same.freeBlocks (by rw [← hcount])
      (by simpa [Txn.allocBlocks, Txn.empty] using hrec.alloc ho)
      (by simpa [Txn.freedBlocks, Txn.empty] using hrec.freed ho)
  have hl : SameLabels v v₅ := hl₂.trans ⟨hI.labels.1, hI.labels.2, hI.labels.3⟩
  have hwithin : Device.Within (A ++ M ++ [v.sbBlock, v.backupBlock]) v.dev v₅.dev := by
    have hsd := hI.dev
    rw [show ({ v₂ with snapshotCount := v₂.snapshotCount + hold } : Vol α).sbBlock = v.sbBlock
      from hl₂.sbBlock, show ({ v₂ with snapshotCount := v₂.snapshotCount + hold } :
      Vol α).backupBlock = v.backupBlock from hl₂.backupBlock] at hsd
    refine (ha.effect.dev.within.mono ?_).trans (hsd.mono ?_)
    · exact fun b hb => mem_append_left _ (mem_append_left _ hb)
    · rw [append_assoc]
      exact subset_append_right _ _
  have hview₂ : ∀ b, v₂.bitmap b = true → b ∉ [v.sbBlock, v.backupBlock] →
      v₅.dev.view b = v₂.dev.view b := by
    intro b hb hns
    refine hI.view hb ?_
    rwa [← hl₂.sbBlock, ← hl₂.backupBlock] at hns
  have hview : ∀ b, v.bitmap b = true → b ∉ [v.sbBlock, v.backupBlock] →
      v₅.dev.view b = v.dev.view b := fun b hb hns =>
    (hview₂ b (ha.effect.marked hb) hns).trans (ha.effect.view_eq hb)
  have hbits : ∀ b, setBits v₅.bitmap (v.released hold F) false b
      = ((v.bitmap b || decide (b ∈ A ++ M)) &&
        !decide (b ∈ v.mirrorBlocks ++ v.released hold F)) := by
    intro b
    simp only [setBits, mem_append (s := v.mirrorBlocks)]
    by_cases h1 : b ∈ v.released hold F <;> by_cases h2 : b ∈ v.mirrorBlocks <;>
      simp [h1, h2, hbits₅]
  refine
    { consistent := ha.consistent h hp ⟨t, ht, ho⟩ hAM hfresh hbits ⟨hl.1, hl.2, hl.3⟩
        hI.root hI.mirrorOk hI.mirrorIn hI.mirror hI.mirrorNodup rfl hfree'
        hI.primaryBad hcount₅ hview (fun b hb => hview₂ b (hnodes b hb).1 (hnodes b hb).2)
        hwithin.size hwithin.rebuildTape
      items := rfl, snaps := rfl, labels := ⟨hl.1, hl.2, hl.3⟩
      generation := hI.generation
      nextOid := hI.nextOid.trans ha.effect.same.nextOid
      encrypted := hI.encrypted.trans ha.effect.same.encrypted
      snapshotCount := hcount₅
      newFeature := hp.feature
      feature := hI.featureIncompat.trans ha.effect.same.featureIncompat
      readOnly := Latches.trans ha.effect.same.readOnly hI.readOnly
      exchanged := ⟨A, F, M, ?_⟩
      kept := fun b hb hns =>
        (hview₂ b (ha.kept b hb).1 hns).trans (ha.kept b hb).2 }
  refine
    { blocks := ha.blocks, nodup := hAM, fresh := hfresh, bitmap := hbits, mirror := hI.mirror
      mirrorKept := fun hd => hI.mirrorKept ?_ (ha.effect.dev.faultless hd), dev := hwithin
      freeBlocks := ?_, mirrorRoom := ?_, super := ?_ }
  · rw [show v₂.dev.size = v.dev.size from ha.effect.dev.size,
      show v₂.totalBlocks = v.totalBlocks from hl₂.totalBlocks]
    exact h.fits
  · rw [← hpred]
    exact hI.freeBlocks.trans (by rw [hmb]; rfl)
  · rw [← hpred]
    exact hI.mirrorRoom
  · obtain ⟨x, hx, hxs⟩ := hI.super
    have hfi : v₂.featureIncompat = v.featureIncompat ||| P.feature := ha.effect.same.featureIncompat
    rw [show ({ v₂ with snapshotCount := v₂.snapshotCount + hold } : Vol α).sbBlock = v.sbBlock
      from hl₂.sbBlock] at hx hxs
    rw [show ({ v₂ with snapshotCount := v₂.snapshotCount + hold } : Vol α).backupBlock
      = v.backupBlock from hl₂.backupBlock] at hxs
    refine ⟨x, (ha.effect.view_eq (h.marked _ (h.mem_inUse_fixed h.sb_mem))).symm.trans hx, ?_⟩
    rw [← hpred, ← hfi]
    exact hxs

/-! ## Building the new tree -/

theorem Consistent.totalBlocks_le (h : v.Consistent L) : v.totalBlocks ≤ 2 ^ 64 := by
  have hbs : v.blockSize ≠ 0 := by
    intro h0
    have hnd := (nodup_append.1 (nodup_append.1 h.nodup).1).1
    simp [fixedBlocks, sbBlock, h0] at hnd
  calc v.totalBlocks ≤ v.totalBlocks * v.blockSize :=
        Nat.le_mul_of_pos_right _ (Nat.pos_of_ne_zero hbs)
    _ ≤ 2 ^ 64 := h.bytes.le

/-- The body's effect, with the feature bits noted on both sides. -/
theorem Prepared.effect_begun (hp : Prepared hold v L P w) :
    Effect P.taken P.noted (v.begun P.feature)
      { w with featureIncompat := w.featureIncompat ||| P.feature } := by
  have := hp.effect.relabel (v.featureIncompat ||| P.feature) v.snapshotCount
  have hfi : w.featureIncompat = v.featureIncompat := hp.effect.same.featureIncompat
  have hsc : w.snapshotCount = v.snapshotCount := hp.effect.same.snapshotCount
  rw [← hsc, ← hfi] at this
  unfold begun opened
  rw [← hsc, ← hfi]
  exact this

theorem wp_assemble (h : v.Consistent L) (hp : Prepared hold v L P w) (gen : Nat) :
    wp (cowApply v.root P.ops gen)
      (fun q v₂ => ∃ nodes A F, Assembled v L P w q nodes A F v₂)
      (fun _ v₂ => ∃ A F, Effect A F (v.begun P.feature) v₂)
      { w with featureIncompat := w.featureIncompat ||| P.feature } := by
  have he₁ := hp.effect_begun
  obtain ⟨l, hlt, hw, hfan⟩ := h.tree.shape
  have hst₀ : (v.begun P.feature).Steady := ⟨h.steady.free, h.steady.mirror, h.steady.marked⟩
  have hst := he₁.steady hst₀
  have hmark : ∀ b ∈ L.nodes, (v.begun P.feature).bitmap b = true := fun b hb =>
    h.marked b (h.mem_inUse_blocks (h.mem_nodes hb))
  have hview : ∀ b ∈ L.nodes, w.dev.view b = v.dev.view b := fun b hb => he₁.view_eq (hmark b hb)
  have hw₁ := hw.congr hview
  have hfan₁ := hfan.congr hw hview
  have hbs : ∀ b ∈ L.nodes, w.bitmap b = true := fun b hb => he₁.marked (hmark b hb)
  refine wp_mono (wp_cowApply gen (by omega) hst hw₁ hbs h.tree.sorted P.ops) ?_ ?_
  · intro q v₂ hpost
    obtain ⟨⟨l', nodes, A₂, F₂, -, he₂, hw₂, -, hperm⟩, htfan⟩ := hpost
    have he := he₁.trans he₂
    have hA : ∀ b ∈ P.taken ++ A₂, v.bitmap b = false ∧ b < v.totalBlocks := he.fresh
    have hblocks : (nodes ++ dataBlocks (updAll P.ops L.items) ++ (P.noted ++ F₂) ++ P.lost).Perm
        (L.blocks ++ (P.taken ++ A₂)) := by
      rw [perm_iff_count]
      intro b
      have h1 := perm_iff_count.1 hperm b
      have h2 := perm_iff_count.1 hp.data b
      simp only [Layout.blocks, count_append] at h1 h2 ⊢
      omega
    have hnd := hblocks.nodup_iff.2 (h.nodup_fresh he.nodup hA)
    have hl₂ : SameLabels v v₂ := (labels_begun v hp.feature).trans he.same.labels
    refine ⟨nodes, P.taken ++ A₂, P.noted ++ F₂,
      { effect := he, node := ?_, tree := ?_, rootIn := hw₂.root_mem, blocks := hblocks, kept := ?_ }⟩
    · obtain ⟨n, hn, -⟩ := hw₂.nodeAt
      exact ⟨n, hn⟩
    · intro htr
      obtain ⟨n, hn, hfan₂⟩ := htfan (he₁.notedCount_le (Nat.zero_le _)) hfan₁ htr
      obtain ⟨n', hn', hlev⟩ := hw₂.nodeAt
      obtain rfl := nodeAt_unique hn hn'
      rw [hlev] at hfan₂
      refine ⟨⟨l', ?_, hw₂, hfan₂⟩, sorted_updAll h.tree.sorted, ?_⟩
      · refine hfan₂.level_lt hw₂ (nodup_append.1 (nodup_append.1
          (nodup_append.1 hnd).1).1).1 (fun b hb => ?_) h.totalBlocks_le
        rcases mem_append.1 (hblocks.mem_iff.1 (mem_append_left _
          (mem_append_left _ (mem_append_left _ hb)))) with hL | hA'
        · exact h.range b (h.mem_inUse_blocks hL)
        · exact (hA b hA').2
      · rw [hl₂.blockSize, hl₂.totalBlocks]
        exact hp.extents
    · intro b hb
      exact ⟨he₂.marked hb, he₂.view_eq hb⟩
  · intro e v₂ hpost
    obtain ⟨A₂, F₂, he₂⟩ := hpost
    exact ⟨_, _, he₁.trans he₂⟩

/-! ## Committing it -/

theorem Assembled.gaveUp (h : v.Consistent L) (hp : Prepared hold v L P w)
    (ha : Assembled v L P w root nodes A F v₂) {v₃ : Vol α} {A₃ : List Nat}
    (he₃ : Effect A₃ [] v₂ v₃) {u : Vol α} (hs : Sealing v₃ u)
    (hq : v.dev.Faultless → u.dev.view = v₃.dev.view) : ∃ A, GaveUp v A u :=
  ⟨_, Effect.gaveUp hp.feature (ha.effect.trans he₃) h.supers_marked hs hq⟩

/-- The snapshot a failed commit had counted is taken back. -/
theorem Assembled.gaveUp_hold (h : v.Consistent L) (hp : Prepared hold v L P w)
    (ha : Assembled v L P w root nodes A F v₂) {v₃ : Vol α} {A₃ : List Nat}
    (he₃ : Effect A₃ [] { v₂ with snapshotCount := v₂.snapshotCount + hold } v₃) {u : Vol α}
    (hs : Sealing v₃ u) (hq : v.dev.Faultless → u.dev.view = v₃.dev.view) :
    ∃ A, GaveUp v A { u with snapshotCount := u.snapshotCount - hold } := by
  have hu : u.snapshotCount - hold = v₂.snapshotCount := by
    rw [hs.same.snapshotCount, he₃.same.snapshotCount]
    exact Nat.add_sub_cancel _ _
  have hfi : u.featureIncompat = v₂.featureIncompat :=
    hs.same.featureIncompat.trans he₃.same.featureIncompat
  have h₁ : Effect A₃ [] v₂
      { v₃ with featureIncompat := u.featureIncompat, snapshotCount := v₂.snapshotCount } := by
    have := he₃.relabel v₂.featureIncompat v₂.snapshotCount
    rw [hfi]
    exact this
  rw [hu]
  exact ha.gaveUp h hp h₁ (hs.relabel u.featureIncompat v₂.snapshotCount) hq

theorem wp_finish (h : v.Consistent L) (hp : Prepared hold v L P w)
    (ha : Assembled v L P w root nodes A F v₂) (gen : Nat) :
    wp (finish hold root gen)
      (fun _ v₅ => ∃ v', txnEnd true v₅ = (.ok (), v') ∧
        Committed hold gen v L P w ⟨updAll P.ops L.items, nodes, P.snaps⟩ v')
      (fun _ u => ∃ A, GaveUp v A u) v₂ := by
  have he := ha.effect
  have hfree : ({ v₂ with snapshotCount := v₂.snapshotCount + hold } : Vol α).FreeOk := he.free
  have hmark : ∀ b ∈ v.inUse L.items L.nodes L.snaps, v₂.bitmap b = true := fun b hb =>
    he.marked (h.marked b hb)
  have hroot : v₂.bitmap root.block = true := by
    have := ha.blocks.mem_iff.1 (mem_append_left _ (mem_append_left _
      (mem_append_left _ ha.rootIn)))
    rcases mem_append.1 this with hL | hA
    · exact hmark _ (h.mem_inUse_blocks hL)
    · exact he.marked_new hA
  obtain ⟨n, hn⟩ := ha.node
  unfold finish
  simp only [wp_bind, wp_modify, wp_attempt]
  refine wp_mono (wp_txnNewFree _) ?_ ?_
  · intro free v₃ hpost
    obtain ⟨rfl, t, ht, ho, hpred⟩ := hpost
    have h0 := hmark 0 (h.mem_inUse_fixed (by simp [fixedBlocks]))
    refine wp_mono (wp_and (wp_commit hfree h0 ?_ hn hroot gen free)
      (wp_commit_sound hfree h0 hn hroot gen free)) ?_ ?_
    · intro hm
      have hm' : v.rootMirror.block ≠ 0 := by rwa [← show v₂.rootMirror = v.rootMirror from
        he.same.rootMirror]
      have hin : v.rootMirror.block ∈ v.mirrorBlocks := by rw [h.mirrorBlocks_eq, if_neg hm']; simp
      show v₂.rootMirror.block < v₂.totalBlocks ∧ v₂.bitmap v₂.rootMirror.block = true
      rw [show v₂.rootMirror = v.rootMirror from he.same.rootMirror,
        show v₂.totalBlocks = v.totalBlocks from he.same.totalBlocks]
      exact ⟨h.mirrorIn hm', hmark _ (h.mem_inUse_mirror hin)⟩
    · intro _ v₅ hS
      obtain ⟨⟨M, hS⟩, -⟩ := hS
      exact ha.committed h hp ht ho hpred hS
    · intro e u hpost
      obtain ⟨⟨A₃, v₃, he₃, hs⟩, hns⟩ := hpost
      refine ha.gaveUp_hold h hp he₃ hs (fun hd => absurd ?_ hns)
      exact he.sound (h.sound hd)
  · intro e u hu
    subst hu
    exact ha.gaveUp_hold h hp (.refl hfree) (.refl _) (fun _ => rfl)

section

variable {gen : Nat} {body : Prog (Vol α) Errno (List (Put α) × Nat)} {Q : Plan α → Vol α → Prop}
  (h : v.Consistent L)
  (hbody : wp body (fun out w => ∃ P, out = (P.ops, P.feature) ∧ Prepared hold v L P w ∧ Q P w)
    (fun _ w => ∃ A F, Effect A F v.opened w) v.opened)

include h hbody

/-- The inside of a transaction: when it succeeds, the end of the transaction does too. -/
theorem wp_applyAndCommit : wp (applyAndCommit hold gen body)
    (fun _ v₅ => ∃ P w L' v', Q P w ∧ txnEnd true v₅ = (.ok (), v') ∧
      Committed hold gen v L P w L' v')
    (fun _ u => ∃ A, GaveUp v A u) v.opened := by
  have hsb := h.supers_marked
  unfold applyAndCommit
  rw [wp_bind]
  refine wp_mono hbody ?_ ?_
  · intro out w hpost
    obtain ⟨P, rfl, hp, hQ⟩ := hpost
    simp only [wp_bind, wp_modify, wp_get]
    have hbuild := wp_assemble h hp gen
    rw [← show w.root = v.root from hp.effect.same.root] at hbuild
    refine wp_mono hbuild ?_ ?_
    · intro q v₂ hpost
      obtain ⟨nodes, A, F, ha⟩ := hpost
      refine wp_mono (wp_finish h hp ha gen) ?_ (fun _ _ hu => hu)
      intro _ v₅ hpost
      obtain ⟨v', hend, hc⟩ := hpost
      exact ⟨P, w, _, v', hQ, hend, hc⟩
    · intro e v₂ hpost
      obtain ⟨A, F, he⟩ := hpost
      exact ⟨A, Effect.gaveUp hp.feature he hsb (.refl _) (fun _ => rfl)⟩
  · intro e w hpost
    obtain ⟨A, F, he⟩ := hpost
    have he' : Effect A F (v.begun 0) w := by
      simp only [begun, Nat.or_zero]
      exact he
    exact ⟨A, Effect.gaveUp (Or.inl rfl) he' hsb (.refl _) (fun _ => rfl)⟩

omit hbody in
theorem txnBegin_eq : txnBegin v = (.ok (), v.opened) := by
  simp only [txnBegin, bind, Prog.bind, Prog.get, h.idle, Option.isSome_none, Bool.false_eq_true,
    if_false]
  rfl

/-- **Transactions.** A transaction whose body accounts for its blocks commits or leaves the volume
    as it was. -/
theorem wp_transact : wp (transact hold gen body)
    (fun _ v' => ∃ P w L', Q P w ∧ Committed hold gen v L P w L' v')
    (fun _ v' => RolledBack v L v') v := by
  unfold transact
  rw [wp_bind, wp_run (txnBegin_eq h), wp_bind, wp_attempt]
  -- However the inner program ends, the end of the transaction settles it.
  refine wp_mono (wp_applyAndCommit h hbody) ?_ ?_
  · intro _ v₅ hpost
    obtain ⟨P, w, L', v', hQ, hend, hc⟩ := hpost
    rw [wp_bind]
    exact (wp_run hend).2 ⟨P, w, L', hQ, hc⟩
  · intro e u hpost
    obtain ⟨A, hg⟩ := hpost
    obtain ⟨v', hend, hr⟩ := txnEnd_rollback h hg
    rw [wp_bind]
    exact (wp_run hend).2 hr

end

end

end Vol

end EmbLinkOs.Embkfs
