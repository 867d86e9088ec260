import EmbLinkOs.Embkfs.Snapshot

set_option autoImplicit false
set_option linter.unusedSectionVars false

/-! # Snapshot operations

`embkfs_snapshot_rollback` puts the snapshot's root in place, rebuilds the map around it and commits
that root once more. The free index is not rebuilt before the commit takes the new mirror's block
from it: it is still that of the old tree, which lists less.

As in `System`, each operation is shown to be a sequence of steps, `VolSteps`, whatever it returns
and whatever reads and writes fail outside a rebuild of the map. -/

namespace EmbLinkOs.Embkfs

open List
open Prog hiding bind

open SortedMap

variable [Checksum Payload] [Cipher]

namespace Vol

/-! ## Rebuilding and rolling back -/

section Rollback

variable {v : Vol Payload} {L : Layout Payload}

/-- The allocator was made afresh. -/
structure Rebuilt (v : Vol Payload) (L : Layout Payload) (v' : Vol Payload) : Prop where
  consistent : v'.Consistent L
  state : ∃ n ext, v' = { v with
    bitmap := setBits (fun _ => false) (v.inUse L.items L.nodes L.snaps) true,
    nextOid := n, snapshotCount := L.snaps.length, freeExt := ext }
  nextOid : firstUserObjid ≤ v'.nextOid ∧ ∀ e ∈ L.items, e.1.objectId < v'.nextOid

/-- The records in the snapshot's tree, or in the registry, are those of snapshots that are on
    record now. -/
structure Restorable (v : Vol Payload) (L : Layout Payload) (s : SnapTree Payload)
    (snaps : List (SnapTree Payload)) : Prop where
  mem : s ∈ L.snaps
  record : v.recorded s.items = snaps.map SnapTree.item
  snaps : ∀ t ∈ snaps, t ∈ L.snaps
  nodup : (s.nodes ++ dataBlocks s.items).Nodup

/-- The volume with the snapshot's root and the map that was rebuilt for it. -/
def turned (v : Vol Payload) (s : SnapTree Payload) (snaps : List (SnapTree Payload)) (n : Nat) :
    Vol Payload :=
  { v with
    root := s.item.root
    bitmap := setBits (fun _ => false) (v.inUse s.items s.nodes snaps) true
    nextOid := n
    snapshotCount := snaps.length }

section Turned

variable {s : SnapTree Payload} {snaps : List (SnapTree Payload)}

theorem bitmap_turned {n b : Nat} :
    (v.turned s snaps n).bitmap b = decide (b ∈ v.inUse s.items s.nodes snaps) := by
  show setBits (fun _ => false) (v.inUse s.items s.nodes snaps) true b = _
  rw [setBits_true, Bool.or_false]

/-- What a rollback to `s` keeps was in use before. -/
theorem Restorable.inUse (h : v.Consistent L) (hr : Restorable v L s snaps) {b : Nat}
    (hb : b ∈ v.inUse s.items s.nodes snaps) : b ∈ v.inUse L.items L.nodes L.snaps := by
  simp only [Vol.inUse, mem_append] at hb
  rcases hb with ((hb | hb) | hb) | hb
  · exact h.mem_inUse_fixed hb
  · exact h.mem_inUse_mirror hb
  · exact h.mem_inUse_snap hr.mem (mem_append.2 hb)
  · obtain ⟨t, ht, hbt⟩ := mem_flatMap.1 hb
    exact h.mem_inUse_snap (hr.snaps t ht) hbt

theorem Restorable.apart (h : v.Consistent L) (hr : Restorable v L s snaps) {b : Nat}
    (hb : b ∈ s.nodes ++ dataBlocks s.items ∨ b ∈ snapBlocks snaps) :
    b ∉ v.fixedBlocks ++ v.mirrorBlocks := by
  intro hf
  refine h.apart b hf ?_
  rcases hb with hb | hb
  · exact mem_flatMap.2 ⟨s, hr.mem, hb⟩
  · obtain ⟨t, ht, hbt⟩ := mem_flatMap.1 hb
    exact mem_flatMap.2 ⟨t, hr.snaps t ht, hbt⟩

theorem Restorable.root_mem (h : v.Consistent L) (hr : Restorable v L s snaps) :
    s.item.root.block ∈ s.nodes := by
  obtain ⟨l, -, hw, -⟩ := (h.snaps s hr.mem).shape
  exact hw.root_mem

theorem Restorable.freeOk (h : v.Consistent L) (hr : Restorable v L s snaps) (n : Nat) :
    (v.turned s snaps n).FreeOk := by
  refine ⟨h.free.1, fun b hb => ⟨?_, (h.free.2 b hb).2⟩⟩
  rw [bitmap_turned]
  refine decide_eq_false (fun hin => ?_)
  have := h.marked b (hr.inUse h hin)
  rw [(h.free.2 b hb).1] at this
  exact absurd this (by simp)

end Turned

/-- The snapshot's tree has become the live tree. -/
structure Restored (v : Vol Payload) (L : Layout Payload) (s : SnapTree Payload)
    (snaps : List (SnapTree Payload)) (v' : Vol Payload) : Prop where
  consistent : v'.Consistent ⟨s.items, s.nodes, snaps⟩
  restorable : Restorable v L s snaps
  state : ∃ n M w ext, (firstUserObjid ≤ n ∧ ∀ e ∈ s.items, e.1.objectId < n) ∧
    Installed s.item.root (v.generation + 1) (v.turned s snaps n).countFree M (v.turned s snaps n) w ∧
    v' = { w with freeExt := ext }

section Turned

variable {s : SnapTree Payload} {snaps : List (SnapTree Payload)} {n gen free : Nat} {M : List Nat}
  {w v' : Vol Payload}

theorem Installed.restored_marked (h : v.Consistent L) (hr : Restorable v L s snaps)
    (hI : Installed s.item.root gen free M (v.turned s snaps n) w) {b : Nat}
    (hb : b ∈ w.inUse s.items s.nodes snaps) : w.bitmap b = true ∧ b < v.totalBlocks := by
  have hfix : w.fixedBlocks = v.fixedBlocks := hI.labels.fixedBlocks
  have hkeep : b ∈ v.inUse s.items s.nodes snaps → b ∉ v.mirrorBlocks →
      w.bitmap b = true ∧ b < v.totalBlocks := by
    intro hin hnm
    refine ⟨?_, h.range b (hr.inUse h hin)⟩
    rw [hI.bitmap, bitmap_turned, decide_eq_true hin, Bool.true_or, Bool.true_and,
      Bool.not_eq_true', decide_eq_false_iff_not]
    exact hnm
  simp only [inUse, mem_append] at hb
  rcases hb with ((hb | hb) | hb) | hb
  · rw [hfix] at hb
    refine hkeep (by simp only [inUse, mem_append]; exact Or.inl (Or.inl (Or.inl hb))) ?_
    exact fun hm => (nodup_append.1 (nodup_append.1 h.nodup).1).2.2 b hb b hm rfl
  · have hM := hI.mirror hb
    obtain ⟨hclear, hlt⟩ := hI.fresh b hM
    refine ⟨?_, hlt⟩
    rw [hI.bitmap, decide_eq_true hM, Bool.or_true, Bool.true_and, Bool.not_eq_true',
      decide_eq_false_iff_not]
    intro hm
    rw [bitmap_turned, decide_eq_false_iff_not] at hclear
    refine hclear ?_
    simp only [inUse, mem_append]
    exact Or.inl (Or.inl (Or.inr hm))
  · refine hkeep (by simp only [inUse, mem_append]; exact Or.inl (Or.inr hb)) (fun hm => ?_)
    exact hr.apart h (Or.inl (mem_append.2 hb)) (mem_append_right _ hm)
  · refine hkeep (by simp only [inUse, mem_append]; exact Or.inr hb) (fun hm => ?_)
    exact hr.apart h (Or.inr hb) (mem_append_right _ hm)

theorem Installed.restored_view (h : v.Consistent L) (hr : Restorable v L s snaps)
    (hI : Installed s.item.root gen free M (v.turned s snaps n) w) {b : Nat}
    (hb : b ∈ s.nodes ++ dataBlocks s.items ∨ b ∈ snapBlocks snaps) :
    w.dev.view b = v.dev.view b := by
  refine hI.view ?_ (fun hsup => hr.apart h hb (mem_append_left _ ?_))
  · rw [bitmap_turned]
    refine decide_eq_true ?_
    rcases hb with hb | hb
    · exact mem_append_left _ (mem_append_right _ hb)
    · exact mem_append_right _ hb
  · rcases mem_pair.1 hsup with hsb | hsb
    · rw [hsb]
      exact h.sb_mem
    · rw [hsb]
      exact h.backup_mem

theorem Installed.restored (h : v.Consistent L) (hr : Restorable v L s snaps)
    (hI : Installed s.item.root gen free M (v.turned s snaps n) w) {ext : List Run}
    (hfree : ({ w with freeExt := ext } : Vol Payload).FreeOk) :
    ({ w with freeExt := ext } : Vol Payload).Consistent ⟨s.items, s.nodes, snaps⟩ := by
  have hl : SameLabels v w := ⟨hI.labels.1, hI.labels.2, hI.labels.3⟩
  have hl' : SameLabels v ({ w with freeExt := ext } : Vol Payload) := ⟨hl.1, hl.2, hl.3⟩
  have hreg : v.snapregEnabled = true → w.dev.view snapregBlock = v.dev.view snapregBlock := by
    intro hs
    refine hI.view ?_ (h.registry_notSuper hs)
    rw [bitmap_turned]
    exact decide_eq_true (mem_append_left _ (mem_append_left _
      (mem_append_left _ (Consistent.snapreg_mem hs))))
  have hclear : ∀ b ∈ w.mirrorBlocks, b ∉ v.inUse s.items s.nodes snaps := by
    intro b hb hin
    have := (hI.fresh b (hI.mirror hb)).1
    rw [bitmap_turned, decide_eq_true hin] at this
    exact absurd this (by simp)
  have htxn : w.txn = none := by
    have := hI.txn
    rw [show (v.turned s snaps n).txn = none from h.idle] at this
    cases ht : w.txn with
    | none => rfl
    | some t =>
      rw [ht] at this
      exact this.elim
  refine
    { idle := htxn, free := hfree, primaryBad := Or.inl hI.primaryBad, mirror := hI.mirrorOk
      mirrorIn := hI.mirrorIn
      tree := ?_, snaps := ?_, registry := h.registry.congr ⟨hl.1, hl.2, hl.3⟩ hreg
      record := (recorded_congr hl' hreg _).trans hr.record
      held := Nat.le_of_eq hI.snapshotCount.symm
      nodup := ?_, apart := ?_
      marked := fun b hb => (hI.restored_marked h hr hb).1
      range := fun b hb => (hI.restored_marked h hr hb).2.trans_eq hl.totalBlocks.symm
      bytes := ?_, fits := ?_, tape := hI.dev.rebuildTape.trans h.tape }
  · show TreeOk _ w.root s.items s.nodes
    rw [hI.root]
    exact (h.snaps s hr.mem).congr ⟨hl.1, hl.2, hl.3⟩ (fun b hb =>
      hI.restored_view h hr (Or.inl (mem_append_left _ hb)))
  · exact fun t ht => (h.snaps t (hr.snaps t ht)).congr ⟨hl.1, hl.2, hl.3⟩ (fun b hb =>
      hI.restored_view h hr (Or.inr (mem_flatMap.2 ⟨t, ht, mem_append_left _ hb⟩)))
  · show (w.fixedBlocks ++ w.mirrorBlocks ++ (s.nodes ++ dataBlocks s.items)).Nodup
    rw [hl.fixedBlocks]
    refine nodup_append.2 ⟨nodup_append.2
      ⟨(nodup_append.1 (nodup_append.1 h.nodup).1).1, hI.mirrorNodup, ?_⟩, hr.nodup, ?_⟩
    · rintro b hb c hc rfl
      exact hclear b hc (mem_append_left _ (mem_append_left _ (mem_append_left _ hb)))
    · rintro b hb c hc rfl
      rcases mem_append.1 hb with hb | hb
      · exact hr.apart h (Or.inl hc) (mem_append_left _ hb)
      · exact hclear b hb (mem_append_left _ (mem_append_right _ hc))
  · intro b hb hbs
    have hb : b ∈ w.fixedBlocks ++ w.mirrorBlocks := hb
    rw [hl.fixedBlocks] at hb
    rcases mem_append.1 hb with hb | hb
    · exact hr.apart h (Or.inr hbs) (mem_append_left _ hb)
    · exact hclear b hb (mem_append_right _ hbs)
  · show w.totalBlocks * w.blockSize < 2 ^ 64
    rw [hl.totalBlocks, hl.blockSize]
    exact h.bytes
  · show w.totalBlocks ≤ w.dev.size
    rw [hl.totalBlocks, show w.dev.size = v.dev.size from hI.dev.size]
    exact h.fits

end Turned

end Rollback

/-! ## Steps -/

section Steps

variable {v : Vol Payload} {L L' : Layout Payload} {lost : List Nat} {Q : Layout Payload → Prop}

/-- An atomic change a file or snapshot operation makes to a volume. The list is what the change
    drops without noting it. -/
inductive VolStep (v : Vol Payload) (L : Layout Payload) :
    List Nat → Vol Payload → Layout Payload → Prop
  | file {v' : Vol Payload} {L' : Layout Payload} {lost : List Nat} (h : FileStep v L lost v' L') :
      VolStep v L lost v' L'
  | recorded {hold : Nat} {v' w : Vol Payload} {P : Plan Payload} {L' : Layout Payload}
      (h : Committed hold (v.generation + 1) v L P w L' v') (hlost : P.lost = [])
      (hsnaps : ∀ s ∈ P.snaps, SnapOf v L s) : VolStep v L [] v' L'
  | uncounted (h : v.Consistent L) (hlen : L.snaps.length + 1 ≤ v.snapshotCount) :
      VolStep v L [] { v with snapshotCount := v.snapshotCount - 1 } L
  | stored {v' : Vol Payload} {snaps : List (SnapTree Payload)} (h : Stored v L snaps v') :
      VolStep v L [] v' ⟨L.items, L.nodes, snaps⟩
  | refused {v' : Vol Payload} (h : Refused v v') (hc : v.Consistent L) : VolStep v L [] v' L
  | rebuilt {v' : Vol Payload} (h : Rebuilt v L v') : VolStep v L [] v' L
  | restored {v' : Vol Payload} {s : SnapTree Payload} {snaps : List (SnapTree Payload)}
      (h : Restored v L s snaps v') : VolStep v L [] v' ⟨s.items, s.nodes, snaps⟩

/-- The changes an operation makes, one after the other, through layouts that satisfy `Q`. -/
inductive VolSteps (Q : Layout Payload → Prop) :
    Vol Payload → Layout Payload → List Nat → Vol Payload → Layout Payload → Prop
  | nil {v : Vol Payload} {L : Layout Payload} (h : v.Consistent L) (hq : Q L) : VolSteps Q v L [] v L
  | cons {v v₁ v' : Vol Payload} {L L₁ L' : Layout Payload} {lost lost' : List Nat} (hq : Q L)
      (h : VolStep v L lost v₁ L₁) (h' : VolSteps Q v₁ L₁ lost' v' L') :
      VolSteps Q v L (lost ++ lost') v' L'

/-- The snapshots on record are those of one layout or those of the other. -/
def Through (L L' M : Layout Payload) : Prop := M.snaps = L.snaps ∨ M.snaps = L'.snaps

theorem Consistent.recount (h : v.Consistent L) {n : Nat} (hn : L.snaps.length ≤ n) :
    ({ v with snapshotCount := n } : Vol Payload).Consistent L :=
  h.carry ⟨rfl, rfl, rfl⟩ rfl rfl (fun _ _ _ => rfl) rfl rfl h.idle h.free (Or.inl rfl) h.marked hn

theorem VolStep.consistent {v' : Vol Payload} (h : VolStep v L lost v' L') : v'.Consistent L' := by
  cases h with
  | file h => exact h.consistent
  | recorded h => exact h.consistent
  | uncounted h hlen => exact h.recount (Nat.le_sub_of_add_le hlen)
  | stored h => exact h.consistent
  | refused h hc => exact h.consistent hc
  | rebuilt h => exact h.consistent
  | restored h => exact h.consistent

/-- No step brings in a snapshot of anything but the live tree. -/
theorem VolStep.snapOf {v' : Vol Payload} (h : VolStep v L lost v' L') :
    ∀ s ∈ L'.snaps, SnapOf v L s := by
  cases h with
  | file h =>
    cases h with
    | rolledBack h => exact fun s hs => Or.inl hs
    | committed h hs =>
      rw [h.snaps, hs]
      exact fun s hs => Or.inl hs
    | numbered h => exact fun s hs => Or.inl hs
  | recorded h hlost hsnaps =>
    rw [h.snaps]
    exact hsnaps
  | uncounted h hlen => exact fun s hs => Or.inl hs
  | stored h => exact h.origin
  | refused h hc => exact fun s hs => Or.inl hs
  | rebuilt h => exact fun s hs => Or.inl hs
  | restored h => exact fun s hs => Or.inl (h.restorable.snaps s hs)

theorem VolSteps.consistent {v' : Vol Payload} (h : VolSteps Q v L lost v' L') :
    v'.Consistent L' := by
  induction h with
  | nil h _ => exact h
  | cons _ _ _ ih => exact ih

theorem VolSteps.trans {v₁ v' : Vol Payload} {L₁ : Layout Payload} {lost' : List Nat}
    (h : VolSteps Q v L lost v₁ L₁) (h' : VolSteps Q v₁ L₁ lost' v' L') :
    VolSteps Q v L (lost ++ lost') v' L' := by
  induction h with
  | nil _ _ => exact h'
  | cons hq hs _ ih =>
    rw [append_assoc]
    exact .cons hq hs (ih h')

theorem FileStep.snaps {v' : Vol Payload} (h : FileStep v L lost v' L') : L'.snaps = L.snaps := by
  cases h with
  | rolledBack h => rfl
  | committed h hs => rw [h.snaps, hs]
  | numbered h => rfl

theorem FileSteps.snaps {v' : Vol Payload} (h : FileSteps v L lost v' L') : L'.snaps = L.snaps := by
  induction h with
  | nil h => rfl
  | cons hs _ ih => exact ih.trans hs.snaps

theorem VolSteps.mono {Q' : Layout Payload → Prop} {v' : Vol Payload}
    (h : VolSteps Q v L lost v' L') (hQ : ∀ M, Q M → Q' M) : VolSteps Q' v L lost v' L' := by
  induction h with
  | nil h hq => exact .nil h (hQ _ hq)
  | cons hq hs _ ih => exact .cons (hQ _ hq) hs ih

end Steps

/-! ## The operations -/

section Operations

variable {v : Vol Payload} {L : Layout Payload}

theorem ReadOnlyStep.kept {v' : Vol Payload} (hs : ReadOnlyStep v v') :
    v'.root = v.root ∧ v'.generation = v.generation ∧ v'.snapregEnabled = v.snapregEnabled ∧
      (v.dev.readTape = [] → v'.dev.readTape = []) := by
  obtain ⟨t, r, ht, rfl⟩ := hs
  refine ⟨rfl, rfl, rfl, fun h => ?_⟩
  rw [h] at ht
  exact suffix_nil.1 ht.1

end Operations

end Vol

end EmbLinkOs.Embkfs
