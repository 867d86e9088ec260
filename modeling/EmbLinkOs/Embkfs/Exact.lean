import EmbLinkOs.Embkfs.System

set_option autoImplicit false
set_option linter.unusedSectionVars false
set_option maxRecDepth 4000

/-! # Block accounting

On a fault-free device and with no snapshot retained, the bits set in the block bit map are exactly
those of the blocks in use, after a mount and after every operation, as long as no rename drops the
last name of a file that has data and is not open: `embkfs_rename` deletes the extents of such a file
and never notes their blocks, so that their bits stay set until the next mount. -/

namespace EmbLinkOs.Embkfs

open List
open Prog hiding bind

open SortedMap

section

variable [Checksum Payload] [Cipher]

namespace Vol

/-! ## The invariant -/

/-- Exactly the blocks of the volume's layout are marked, unless a snapshot is retained. -/
def Exact (v : Vol Payload) (L : Layout Payload) : Prop :=
  v.snapshotCount = 0 →
    ∀ b, v.bitmap b = true ↔ b ∈ v.fixedBlocks ++ v.mirrorBlocks ++ L.blocks

section

variable {v v' : Vol Payload} {L L' : Layout Payload} {lost : List Nat}

theorem snaps_eq_nil {n : Nat} {snaps : List (SnapTree Payload)} (h : snaps.length ≤ n) (hn : n = 0) :
    snaps = [] := eq_nil_of_length_eq_zero (by omega)

/-- A map that was just rebuilt is exact. -/
theorem exact_rebuilt (hb : v'.bitmap = setBits (fun _ => false) (v.inUse L.items L.nodes L.snaps) true)
    (hc : v'.snapshotCount = L.snaps.length) (hf : v'.fixedBlocks = v.fixedBlocks)
    (hm : v'.mirrorBlocks = v.mirrorBlocks) : Exact v' L := by
  intro h0 b
  have hnil : L.snaps = [] := snaps_eq_nil (Nat.le_of_eq rfl) (hc.symm.trans h0)
  rw [hb, hf, hm, hnil, setBits_true]
  simp [inUse, snapBlocks, Layout.blocks]

theorem RolledBack.exact (h : RolledBack v L v') (hx : Exact v L) : Exact v' L := by
  have hfix := h.labels.fixedBlocks
  have hmir := h.labels.mirrorBlocks h.rootMirror
  rcases h.alloc with ⟨hb, hc, -⟩ | ⟨hb, hc, -⟩
  · intro h0 b
    rw [hb, hfix, hmir]
    exact hx (hc.symm.trans h0) b
  · exact exact_rebuilt hb hc hfix hmir

/-- The bookkeeping of one commit for one block: `fix` and `mir` are the fixed blocks and the old
    mirror, `a` and `m` what was taken, `f` what was superseded. -/
theorem exchanged_iff {fix mir old new a f m : Prop} (hblocks : new ∨ f ↔ old ∨ a)
    (hsep : new → ¬ f) (hfresh : a ∨ m → ¬ ((fix ∨ mir) ∨ old)) (hfix : fix → ¬ mir)
    (hold : fix ∨ mir → ¬ old) (ham : a → ¬ m) :
    (((fix ∨ mir) ∨ old) ∨ (a ∨ m)) ∧ ¬ (mir ∨ f) ↔ (fix ∨ m) ∨ new := by
  constructor
  · rintro ⟨h, hno⟩
    grind
  · grind

theorem Committed.exact {gen : Nat} {P : Plan Payload} {w : Vol Payload}
    (h : Committed 0 gen v L P w L' v') (hcons : v.Consistent L) (hd : v.dev.Faultless)
    (hl : P.lost = []) (hx : Exact v L) : Exact v' L' := by
  intro h0 b
  have hc : v.snapshotCount = 0 := h.snapshotCount.symm.trans h0
  obtain ⟨A, F, M, he⟩ := h.exchanged
  have hM := he.mirrorKept hd
  have hrel : v.released 0 F = F := if_pos hc
  have hold := hx hc b
  have hmem := he.blocks.mem_iff (a := b)
  rw [hl, append_nil] at hmem
  -- What was superseded is no longer part of the layout.
  have hsep : b ∈ L'.blocks → b ∉ F := by
    have hnd : (L.blocks ++ A).Nodup := by
      refine nodup_append.2 ⟨(nodup_append.1 hcons.nodup).2.1,
        (nodup_append.1 he.nodup).1, fun c hcL d hdA hcd => ?_⟩
      have := hcons.marked c (hcons.mem_inUse_blocks hcL)
      rw [hcd, (he.fresh d (mem_append_left _ hdA)).1] at this
      exact absurd this (by simp)
    have hnd' := he.blocks.nodup_iff.2 hnd
    rw [hl, append_nil] at hnd'
    exact fun hb hF => (nodup_append.1 hnd').2.2 b hb b hF rfl
  have hfresh : b ∈ A ++ M → b ∉ v.fixedBlocks ++ v.mirrorBlocks ++ L.blocks := by
    intro hA hin
    have := hold.2 hin
    rw [(he.fresh b hA).1] at this
    exact absurd this (by simp)
  have hapart : (b ∈ v.fixedBlocks → b ∉ v.mirrorBlocks) ∧
      (b ∈ v.fixedBlocks ∨ b ∈ v.mirrorBlocks → b ∉ L.blocks) := by
    have hnd := nodup_append.1 hcons.nodup
    refine ⟨fun hb hm => (nodup_append.1 hnd.1).2.2 b hb b hm rfl, fun hb hL => ?_⟩
    exact hnd.2.2 b (mem_append.2 hb) b hL rfl
  have hAM : b ∈ A → b ∉ M := fun hA hM => (nodup_append.1 he.nodup).2.2 b hA b hM rfl
  rw [he.bitmap, hrel, h.labels.fixedBlocks, ← hM, Bool.and_eq_true, Bool.or_eq_true, hold]
  simp only [mem_append, decide_eq_true_eq, Bool.not_eq_true', decide_eq_false_iff_not]
    at hmem hfresh ⊢
  exact exchanged_iff hmem hsep hfresh hapart.1 hapart.2 hAM

theorem FileStep.exact (h : FileStep v L lost v' L') (hcons : v.Consistent L) (hd : v.dev.Faultless)
    (hl : lost = []) (hx : Exact v L) : Exact v' L' := by
  cases h with
  | rolledBack h => exact h.exact hx
  | committed h hs => exact h.exact hcons hd hl hx
  | numbered h => exact hx

theorem FileStep.faultless (h : FileStep v L lost v' L') (hd : v.dev.Faultless) :
    v'.dev.Faultless := by
  cases h with
  | rolledBack h =>
    obtain ⟨A, -, hdev⟩ := h.dev
    exact hdev.faultless hd
  | committed h hs =>
    obtain ⟨A, F, M, he⟩ := h.exchanged
    exact he.dev.faultless hd
  | numbered h => exact hd

/-- **Run lemma.** Steps that drop nothing unnoted keep the map exact. -/
theorem FileSteps.exact (h : FileSteps v L lost v' L') (hcons : v.Consistent L)
    (hd : v.dev.Faultless) (hl : lost = []) (hx : Exact v L) : Exact v' L' ∧ v'.dev.Faultless := by
  induction h with
  | nil h => exact ⟨hx, hd⟩
  | cons hs _ ih =>
    obtain ⟨hl₁, hl₂⟩ := append_eq_nil_iff.1 hl
    exact ih hs.consistent (hs.faultless hd) hl₂ (hs.exact hcons hd hl₁ hx)

end

end Vol

/-- An inode of the given mode, link count and size. -/
def sampleInode (mode links size : Nat) : Inode :=
  ⟨size, 0, links, mode, 0, 0, 0, 0, 0, 0, 0, 1, 0⟩

/-- The root directory with the empty file `a` and the file `b`, whose data is in block 40. -/
def twoFiles : List (Key × Payload) :=
  [(inodeKey 1, .inode (sampleInode (modeDir ||| permDir) 2 0)),
    (direntKey 1 [97], .dirents [⟨2, dtReg, [97]⟩]),
    (direntKey 1 [98], .dirents [⟨3, dtReg, [98]⟩]),
    (inodeKey 2, .inode (sampleInode (modeReg ||| permFile) 1 0)),
    (inodeKey 3, .inode (sampleInode (modeReg ||| permFile) 1 4)),
    (extentKey 3 0, .extent ⟨40, 1, 4, 0, 1, false, false, false, 0⟩)]

theorem formatted_twoFiles : (leafVol 0 twoFiles).Formatted ⟨twoFiles, [20], []⟩ := by
  have hdata : dataBlocks twoFiles = [40] := by decide +kernel
  refine formatted_leafVol 0 (by decide +kernel) ?_ (by decide) (by rw [hdata]; decide) (by rw [hdata]; decide)
  intro e he ht
  simp only [twoFiles, mem_cons, not_mem_nil, or_false] at he
  rcases he with rfl | rfl | rfl | rfl | rfl | rfl
  all_goals first
    | exact ⟨_, rfl, by decide +kernel⟩
    | exact absurd ht (by decide)

end

end EmbLinkOs.Embkfs
