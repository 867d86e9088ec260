import EmbLinkOs.Embkfs.Txn

set_option autoImplicit false
set_option linter.unusedSectionVars false

/-! # What a commit and the end of a transaction do

Specifications of the parts of `embkfs_commit` and of `embkfs_txn_end`, for any pattern of faults on
the device outside a rebuild. A commit that fails has staged a mirror and written superblocks and
done nothing else (`wp_commit`); one that succeeds has installed the new root, and the previous
mirror is free again. -/

namespace EmbLinkOs.Embkfs

open Run
open List
open Prog hiding bind

open SortedMap

variable {α : Type} {A : List Nat}

/-- No request to the device and no read will fail. -/
def Device.Faultless (d : Device α) : Prop := (∀ log r, d.oracle log r = none) ∧ d.readTape = []

theorem Device.Wrote.faultless {d d' : Device α} (h : Device.Wrote A d d') (hd : d.Faultless) :
    d'.Faultless := by
  refine ⟨by rw [h.oracle]; exact hd.1, ?_⟩
  have := h.readTape
  rw [hd.2] at this
  exact suffix_nil.1 this

theorem Device.Within.faultless {d d' : Device α} (h : Device.Within A d d') (hd : d.Faultless) :
    d'.Faultless := by
  refine ⟨by rw [h.oracle]; exact hd.1, ?_⟩
  have := h.readTape
  rw [hd.2] at this
  exact suffix_nil.1 this

namespace Vol

/-! ## Freeing -/

variable {v : Vol α}

/-- Freeing a run that is in use: its bits are cleared and the index lists it. -/
theorem freeRun_eq (hv : v.FreeOk) (start len : Nat)
    (hrun : ∀ b ∈ blocks ⟨start, len⟩, v.bitmap b = true ∧ b < v.totalBlocks) :
    ∃ ext, freeRun start len v = (.ok (), { v with
        bitmap := setBits v.bitmap (blocks ⟨start, len⟩) false, freeExt := ext }) ∧
      (covered ext).Perm (blocks ⟨start, len⟩ ++ covered v.freeExt) := by
  have hnd : (blocks ⟨start, len⟩ ++ covered v.freeExt).Nodup := by
    refine nodup_append.2 ⟨nodup_blocks _, hv.1, fun b hb c hc hbc => ?_⟩
    have h1 := (hrun b hb).1
    rw [hbc, (hv.2 c hc).1] at h1
    exact absurd h1 (by simp)
  obtain ⟨ext, hins, hext⟩ := freeIndexInsertMerge_eq start len
    (v := { v with bitmap := setBits v.bitmap (blocks ⟨start, len⟩) false })
    (fun b hb => (hrun b hb).2) hnd
  by_cases hlen : len = 0
  · subst hlen
    have hbits : setBits v.bitmap (blocks ⟨start, 0⟩) false = v.bitmap := by
      funext b
      simp [setBits]
    refine ⟨v.freeExt, ?_, by simp⟩
    rw [hbits]
    rfl
  · refine ⟨ext, ?_, hext⟩
    have hlast : start + len - 1 < v.totalBlocks := (hrun _ (mem_blocks.2 (by simp; omega))).2
    have hset : ¬ (blocks ⟨start, len⟩).any (fun b => !v.bitmap b) = true := by
      simp only [any_eq_true, not_exists, not_and]
      intro b hb
      simp [(hrun b hb).1]
    simp only [freeRun, bind, Prog.bind, Prog.get]
    rw [if_neg hlen, if_neg (by omega), if_neg hset]
    simp only [Prog.bind, Prog.modify, hins]

/-- Clearing bits that were set and listing their blocks keeps the index sound. -/
theorem FreeOk.freed (hv : v.FreeOk) {bs : List Nat} (hnd : bs.Nodup)
    (hbs : ∀ b ∈ bs, v.bitmap b = true ∧ b < v.totalBlocks) {ext : List Run}
    (hext : (covered ext).Perm (bs ++ covered v.freeExt)) :
    ({ v with bitmap := setBits v.bitmap bs false, freeExt := ext } : Vol α).FreeOk := by
  refine ⟨hext.nodup_iff.2 (nodup_append.2 ⟨hnd, hv.1, fun b hb c hc hbc => ?_⟩),
    fun b hb => ?_⟩
  · have h1 := (hbs b hb).1
    rw [hbc, (hv.2 c hc).1] at h1
    exact absurd h1 (by simp)
  · rcases mem_append.1 (hext.mem_iff.1 hb) with h | h
    · exact ⟨by simp [setBits, h], (hbs b h).2⟩
    · refine ⟨?_, (hv.2 b h).2⟩
      simp only [setBits]
      split
      · rfl
      · exact (hv.2 b h).1

/-- Freeing runs that are in use and do not overlap refuses none of them. -/
theorem freeRuns_eq (hv : v.FreeOk) {rs : List Run} (hnd : (covered rs).Nodup)
    (hrs : ∀ b ∈ covered rs, v.bitmap b = true ∧ b < v.totalBlocks) :
    ∃ ext, freeRuns rs v = (.ok false, { v with
        bitmap := setBits v.bitmap (covered rs) false, freeExt := ext }) ∧
      (covered ext).Perm (covered rs ++ covered v.freeExt) := by
  induction rs generalizing v with
  | nil =>
    have hbits : setBits v.bitmap [] false = v.bitmap := by
      funext b
      simp [setBits]
    refine ⟨v.freeExt, ?_, by simp⟩
    simp only [freeRuns, covered_nil, hbits, pure]
  | cons r rs ih =>
    rw [covered_cons] at hnd hrs ⊢
    obtain ⟨hndr, hnds, hdisj⟩ := nodup_append.1 hnd
    have hr : ∀ b ∈ blocks ⟨r.start, r.len⟩, v.bitmap b = true ∧ b < v.totalBlocks :=
      fun b hb => hrs b (mem_append_left _ hb)
    obtain ⟨ext, hrun, hext⟩ := freeRun_eq hv _ _ hr
    have hv' := hv.freed hndr hr hext
    have hrs' : ∀ b ∈ covered rs, setBits v.bitmap r.blocks false b = true ∧
        b < v.totalBlocks := by
      intro b hb
      have hbr : b ∉ r.blocks := fun h => hdisj b h b hb rfl
      exact ⟨by simp only [setBits, if_neg hbr]; exact (hrs b (mem_append_right _ hb)).1,
        (hrs b (mem_append_right _ hb)).2⟩
    obtain ⟨ext', hrun', hext'⟩ := ih hv' hnds hrs'
    refine ⟨ext', ?_, ?_⟩
    · simp only [freeRuns, bind, Prog.bind, attempt, hrun, hrun', setBits_setBits, pure]
      rfl
    · refine hext'.trans ?_
      have h1 := (hext.append_left (covered rs))
      refine h1.trans ?_
      rw [← append_assoc]
      exact perm_append_comm.append_right _

/-! ## The mirror -/

section Commit

variable [Checksum α] {n : Node α} {root : BlockPtr} {v' : Vol α} {b : Nat}

/-- What staging a mirror of `root` results in, having allocated `A`: no mirror, or a copy of the
    root in a block of its own. A block can be lost only when the device fails. -/
inductive Staged (root : BlockPtr) (gen free : Nat) (v v' : Vol α) : BlockPtr × Nat → List Nat → Prop
  | none : Staged root gen free v v' (.null, free) []
  | lost (mb : Nat) (hfault : v.totalBlocks ≤ v.dev.size → ¬ v.dev.Faultless) :
      Staged root gen free v v' (.null, free) [mb]
  | copied (mb : Nat) (hfree : 0 < free) (hmb : mb ≠ 0) (hne : mb ≠ root.block)
      (hview : v'.dev.view mb = v'.dev.view root.block) :
      Staged root gen free v v' (⟨mb, root.checksum, gen, 0⟩, free - 1) [mb]

theorem Touched.trans {B : List Nat} {v'' : Vol α} (h : Touched B v v') (h' : Touched B v' v'') :
    Touched B v v'' :=
  ⟨h.same.trans h'.same, h.dev.trans h'.dev, h'.bitmap.trans h.bitmap, h'.freeExt.trans h.freeExt,
    h'.txn.trans h.txn⟩

theorem Touched.tracked {B : List Nat} (h : Touched B v v') (ht : v.Tracked) : v'.Tracked := by
  obtain ⟨t, ht, ho⟩ := ht
  exact ⟨t, h.txn.trans ht, ho⟩

theorem ReadOnlyStep.touched (h : ReadOnlyStep v v') (B : List Nat) : Touched B v v' := by
  obtain ⟨t, r, ht, rfl⟩ := h
  exact ⟨⟨rfl, rfl, rfl, rfl, rfl, rfl, rfl, rfl, rfl, rfl, .refl _, ht.2⟩,
    Device.SameMedia.wrote ⟨t, ht.1, rfl⟩ _, rfl, rfl, rfl⟩

theorem wp_blockWrite (b : Nat) (x : Block α) (v : Vol α) :
    wp (blockWrite b x) (fun _ v' => Touched [b] v v' ∧ v'.dev.view b = some x)
      (fun _ v' => Touched [b] v v') v := by
  unfold blockWrite onDev
  rw [wp_zoom]
  exact wp_mono (Device.wp_write b x v.dev) (fun _ _ h => ⟨touched_setDev h.1, h.2⟩)
    (fun _ _ h => touched_setDev h.1)

/-- Copying a node that is there, to a block that is not its own. -/
theorem wp_copyRoot (hn : NodeAt v.dev.view root n) {mb : Nat} (hne : mb ≠ root.block) :
    wp (copyRoot root mb)
      (fun _ v' => Touched [mb] v v' ∧ v'.dev.view mb = v'.dev.view root.block)
      (fun _ v' => Touched [mb] v v') v := by
  obtain ⟨c, hc, -⟩ := hn
  unfold copyRoot
  rw [wp_bind]
  refine wp_mono (wp_blockRead root.block v) ?_ (fun _ _ h => h.touched _)
  intro x v₁ h
  obtain ⟨hx, hstep⟩ := h
  obtain rfl : Block.node c n = x := Option.some.inj (hc.symm.trans hx)
  simp only [wp_ite, wp_fail]
  refine ⟨fun _ => ?_, fun _ => hstep.touched _⟩
  refine wp_mono (wp_blockWrite mb _ v₁) ?_ (fun _ _ h => (hstep.touched _).trans h)
  intro _ v₂ h
  refine ⟨(hstep.touched _).trans h.1, ?_⟩
  rw [h.2, h.1.dev.view_eq (by simpa using Ne.symm hne), hstep.view_eq, hc]

/-- On a device that does not fail the copy is made, unless its block is beyond the device. -/
theorem wp_copyRoot_faultless (hn : NodeAt v.dev.view root n) (hd : v.dev.Faultless) {mb : Nat}
    (hmb : mb < v.dev.size) :
    wp (copyRoot root mb) (fun _ _ => True) (fun _ _ => False) v := by
  obtain ⟨c, hc, hacc⟩ := hn
  have hcrc : low32 (Checksum.node n) = low32 root.checksum := by
    simp only [Node.accepted, Bool.decide_and, Bool.and_eq_true, decide_eq_true_eq] at hacc
    rw [← hacc.1, hacc.2.1]
  have hrd : copyRoot root mb v = blockWrite mb (.node c n) v := by
    simp only [copyRoot, bind, Prog.bind, blockRead_eq hd.2 hc, hcrc, if_true]
  unfold wp
  rw [hrd]
  unfold blockWrite onDev
  rw [← wp, wp_zoom]
  refine wp_mono (Device.wp_write_eq mb _ v.dev) (fun _ _ _ => trivial) ?_
  intro e d h
  obtain ⟨hb, -⟩ | ⟨ho, -⟩ := h
  · omega
  · rw [hd.1] at ho
    exact absurd ho (by simp)

theorem wp_stageMirror (hv : v.FreeOk) (h0 : v.bitmap 0 = true) (hn : NodeAt v.dev.view root n)
    (hroot : v.bitmap root.block = true) (gen free : Nat) :
    wp (stageMirror root gen free)
      (fun out v' => ∃ A, Effect A [] v v' ∧ Staged root gen free v v' out A ∧
        (v.Tracked → v'.Tracked))
      (fun _ _ => False) v := by
  unfold stageMirror
  simp only [wp_ite, wp_pure, wp_bind, wp_attempt]
  refine ⟨fun _ => ⟨[], .refl hv, .none, id⟩, fun hfree => ?_⟩
  refine wp_mono (wp_allocBlockFar hv) ?_ ?_
  · intro mb v₁ h
    obtain ⟨he, htr⟩ := h
    obtain ⟨hfresh, hmb⟩ := he.fresh mb (by simp)
    have hne : mb ≠ root.block := by
      rintro rfl
      rw [hroot] at hfresh
      exact absurd hfresh (by simp)
    have hmb0 : mb ≠ 0 := by
      rintro rfl
      rw [h0] at hfresh
      exact absurd hfresh (by simp)
    have hn₁ : NodeAt v₁.dev.view root n := hn.congr (he.view_eq hroot)
    have hcopy : wp (copyRoot root mb)
        (fun _ v' => Touched [mb] v₁ v' ∧ v'.dev.view mb = v'.dev.view root.block)
        (fun _ v' => Touched [mb] v₁ v' ∧ (v.totalBlocks ≤ v.dev.size → ¬ v.dev.Faultless)) v₁ := by
      by_cases hd : v.totalBlocks ≤ v.dev.size ∧ v.dev.Faultless
      · refine wp_mono (wp_and (wp_copyRoot hn₁ hne) (wp_copyRoot_faultless hn₁
          (he.dev.faultless hd.2) ?_)) (fun _ _ h => h.1) (fun _ _ h => h.2.elim)
        rw [he.dev.size]
        omega
      · exact wp_mono (wp_copyRoot hn₁ hne) (fun _ _ h => h)
          (fun _ _ h => ⟨h, fun h1 h2 => hd ⟨h1, h2⟩⟩)
    refine wp_mono hcopy ?_ ?_
    · intro _ v₂ h
      exact ⟨[mb], he.touched h.1 (by simp), .copied mb (by omega) hmb0 hne h.2,
        fun ht => h.1.tracked (htr ht)⟩
    · intro _ v₂ h
      exact ⟨[mb], he.touched h.1 (by simp), .lost mb h.2, fun ht => h.1.tracked (htr ht)⟩
  · intro e v₁ h
    subst h
    exact ⟨[], .refl hv, .none, id⟩

/-! ## The superblocks -/

theorem superBase_patchSuper (fi : Nat) (root : BlockPtr) (gen free : Nat) (mirror : BlockPtr)
    (x : Block α) : superBase (patchSuper fi root gen free mirror x) = superBase x := by
  cases x <;> rfl

theorem ReadOnlyStep.sealing (h : ReadOnlyStep v v') : Sealing v v' := by
  obtain ⟨t, r, ht, rfl⟩ := h
  exact ⟨⟨rfl, rfl, rfl, rfl, rfl, rfl, rfl, rfl, rfl, rfl, .refl _, ht.2⟩, rfl, rfl, rfl,
    (Device.SameMedia.wrote ⟨t, ht.1, rfl⟩ _).within, rfl⟩

/-- Writing a superblock that keeps what is fixed to one of the two places for it. -/
theorem wp_devWrite_super {x : Block α} (hb : b ∈ [v.sbBlock, v.backupBlock])
    (hx : superBase x = (v.dev.view v.sbBlock).bind superBase) :
    wp (devWrite b x)
      (fun _ v' => Sealing v v' ∧ ∀ b', v'.dev.view b' = if b' = b then some x else v.dev.view b')
      (fun _ v' => Sealing v v') v := by
  have hsub : [b] ⊆ [v.sbBlock, v.backupBlock] := by simpa using hb
  refine wp_mono (wp_devWrite_eq b x v) ?_ ?_
  · intro _ v' h
    obtain ⟨-, hlt, rfl⟩ := h
    have hview : ∀ b', (v.dev.pushed b x).view b' = if b' = b then some x else v.dev.view b' := by
      intro b'
      simp only [Device.view_pushed, hlt, and_true]
    refine ⟨sealing_setDev ((Device.wrote_pushed v.dev b x).within.mono hsub) ?_, hview⟩
    rw [hview]
    split
    · exact hx
    · rfl
  · intro e v' h
    obtain ⟨-, -, rfl⟩ | ⟨hr, rfl⟩ := h
    · exact .refl _
    · exact sealing_latched e ((Device.wrote_refused v.dev b x e).within.mono hsub) rfl hr

theorem wp_writeSuperblock (root : BlockPtr) (gen free : Nat) (mirror : BlockPtr) (v : Vol α) :
    wp (writeSuperblock root gen free mirror)
      (fun _ v' => Sealing v v' ∧ ∃ x, v.dev.view v.sbBlock = some x ∧
        v'.dev.view v.sbBlock = some (patchSuper v.featureIncompat root gen free mirror x) ∧
        v'.dev.view v.backupBlock = some (patchSuper v.featureIncompat root gen free mirror x))
      (fun _ v' => Sealing v v') v := by
  unfold writeSuperblock
  simp only [wp_bind, wp_get]
  refine wp_mono (wp_blockRead v.sbBlock v) ?_ (fun _ _ h => h.sealing)
  intro x v₁ h
  obtain ⟨hx, hstep⟩ := h
  have hs₁ := hstep.sealing
  have hsb : v₁.sbBlock = v.sbBlock := by rw [sbBlock, hs₁.same.blockSize, sbBlock]
  have hbk : v₁.backupBlock = v.backupBlock := by rw [backupBlock, hs₁.same.totalBlocks, backupBlock]
  set y := patchSuper v.featureIncompat root gen free mirror x with hy
  have hbase : superBase y = superBase x := superBase_patchSuper ..
  refine wp_mono (wp_devWrite_super (v := v₁) (by simp [hsb]) ?_) ?_
    (fun _ _ h => hs₁.trans h)
  · rw [hsb, hstep.view_eq, hx, hbase]
    rfl
  intro _ v₂ h
  obtain ⟨hs₂, hview₂⟩ := h
  have hsb₂ : v₂.sbBlock = v.sbBlock := by rw [sbBlock, hs₂.same.blockSize, ← sbBlock, hsb]
  have hbk₂ : v₂.backupBlock = v.backupBlock := by
    rw [backupBlock, hs₂.same.totalBlocks, ← backupBlock, hbk]
  refine wp_mono (wp_devWrite_super (v := v₂) (by simp [hbk₂]) ?_) ?_
    (fun _ _ h => (hs₁.trans hs₂).trans h)
  · rw [hsb₂, hview₂, if_pos rfl]
    rfl
  intro _ v₃ h
  obtain ⟨hs₃, hview₃⟩ := h
  refine ⟨(hs₁.trans hs₂).trans hs₃, x, hx, ?_, by rw [hview₃, if_pos rfl]⟩
  rw [hview₃, hview₂, if_pos rfl]
  split <;> rfl

/-! ## The commit -/

theorem dropMirror_eq (hv : v.FreeOk) (old new : BlockPtr)
    (hold : old.block ≠ 0 → old.block ≠ new.block ∧ old.block < v.totalBlocks ∧
      v.bitmap old.block = true) :
    ∃ ext, dropMirror old new v = (.ok (if old.block = 0 then 0 else 1), { v with
        bitmap := setBits v.bitmap (if old.block = 0 then [] else [old.block]) false,
        freeExt := ext }) ∧
      (covered ext).Perm
        ((if old.block = 0 then [] else [old.block]) ++ covered v.freeExt) := by
  by_cases h0 : old.block = 0
  · have hbits : setBits v.bitmap [] false = v.bitmap := by
      funext b
      simp [setBits]
    refine ⟨v.freeExt, ?_, by simp [h0]⟩
    simp only [dropMirror, bind, Prog.bind, Prog.get]
    rw [if_neg (fun h => h.1 h0)]
    simp only [h0, if_true, hbits, pure]
  · obtain ⟨hne, hlt, hbit⟩ := hold h0
    obtain ⟨ext, hrun, hext⟩ := freeRun_eq hv old.block 1
      (by simpa using ⟨hbit, hlt⟩)
    refine ⟨ext, ?_, by simpa [h0] using hext⟩
    simp only [dropMirror, bind, Prog.bind, Prog.get]
    rw [if_pos ⟨h0, hne, hlt, hbit⟩]
    simp only [Prog.bind, attempt, hrun, blocks_one, h0, if_false, pure]

/-- A commit that succeeded: between `v` and `v'` the mirror was staged, both superblocks written
    and the new root installed; the previous mirror is free. -/
structure Switched (root : BlockPtr) (gen free : Nat) (A : List Nat) (v v' : Vol α) : Prop where
  state : ∃ v₃ v₄ mirror free' ext x, Effect A [] v v₃ ∧ Staged root gen free v v₃ (mirror, free') A ∧
    Sealing v₃ v₄ ∧ v₃.dev.view v.sbBlock = some x ∧
    v₄.dev.view v.sbBlock = some (patchSuper v.featureIncompat root gen free' mirror x) ∧
    v₄.dev.view v.backupBlock = some (patchSuper v.featureIncompat root gen free' mirror x) ∧
    v' = { v₄ with
      root := root, generation := gen, rootMirror := mirror, rootPrimaryBad := 0,
      bitmap := setBits v₄.bitmap v.mirrorBlocks false, freeExt := ext,
      freeBlocks := (free' + v.mirrorBlocks.length) % 2 ^ 64 } ∧
    (covered ext).Perm (v.mirrorBlocks ++ covered v₃.freeExt) ∧ (v.Tracked → v'.Tracked)

theorem mirrorBlocks_eq (h : v.rootMirror.block ≠ 0 → v.rootMirror.block < v.totalBlocks) :
    v.mirrorBlocks = if v.rootMirror.block = 0 then [] else [v.rootMirror.block] := by
  unfold mirrorBlocks
  by_cases h0 : v.rootMirror.block = 0
  · simp [h0]
  · rw [if_pos ⟨h0, h h0⟩, if_neg h0]

/-- A staged mirror is not a block that was in use before. -/
theorem Staged.ne_of_marked {gen free : Nat} {v₃ : Vol α} {mirror : BlockPtr} {free' : Nat}
    (h : Staged root gen free v v₃ (mirror, free') A) (he : Effect A [] v v₃) (hb0 : b ≠ 0)
    (hb : v.bitmap b = true) : b ≠ mirror.block := by
  cases h with
  | none => exact hb0
  | lost => exact hb0
  | copied mb hfree hmb hne hview =>
    rintro rfl
    rw [(he.fresh _ (mem_singleton.2 rfl)).1] at hb
    exact absurd hb (by simp)

/-- Either no mirror was staged, and on a sound device no block was taken for one, or it was. -/
theorem Staged.summary {gen free : Nat} {v₃ : Vol α} {mirror : BlockPtr} {free' : Nat}
    (h : Staged root gen free v v₃ (mirror, free') A) :
    (mirror.block = 0 ∧ free' = free ∧
      (v.totalBlocks ≤ v.dev.size → v.dev.Faultless → A = [])) ∨
    (A = [mirror.block] ∧ mirror.block ≠ 0 ∧ mirror.block ≠ root.block ∧ 0 < free ∧
      free' = free - 1 ∧ v₃.dev.view mirror.block = v₃.dev.view root.block) := by
  cases h with
  | none => exact Or.inl ⟨rfl, rfl, fun _ _ => rfl⟩
  | lost mb hfault => exact Or.inl ⟨rfl, rfl, fun h1 h2 => absurd h2 (hfault h1)⟩
  | copied mb hfree hmb hne hview => exact Or.inr ⟨rfl, hmb, hne, hfree, rfl, hview⟩

/-- A commit of a root that is there either switches over to it or has touched nothing but a fresh
    block and the superblocks. -/
theorem wp_commit (hv : v.FreeOk) (h0 : v.bitmap 0 = true) (hmir : v.rootMirror.block ≠ 0 →
      v.rootMirror.block < v.totalBlocks ∧ v.bitmap v.rootMirror.block = true)
    (hn : NodeAt v.dev.view root n) (hroot : v.bitmap root.block = true) (gen free : Nat) :
    wp (commit root gen free) (fun _ v' => ∃ A, Switched root gen free A v v')
      (fun _ v' => ∃ A v₃, Effect A [] v v₃ ∧ Sealing v₃ v') v := by
  unfold commit
  simp only [wp_bind, wp_get]
  refine wp_mono (wp_stageMirror hv h0 hn hroot gen free) ?_ (fun _ _ h => h.elim)
  intro out v₃ h
  obtain ⟨A, he, hst, htr⟩ := h
  obtain ⟨mirror, free'⟩ := out
  have hsb : v₃.sbBlock = v.sbBlock := by rw [sbBlock, he.same.blockSize, sbBlock]
  have hbk : v₃.backupBlock = v.backupBlock := by rw [backupBlock, he.same.totalBlocks, backupBlock]
  dsimp only
  -- Everything new goes to the medium first.
  refine wp_mono (wp_devFlush v₃) ?_ ?_
  rotate_left
  · intro e v' h
    obtain ⟨hr, rfl⟩ := h
    exact ⟨A, v₃, he, sealing_latched e (Device.within_refused_flush _ _ _) rfl hr⟩
  intro _ w₁ h
  obtain ⟨-, rfl⟩ := h
  have hs₁ : Sealing v₃ { v₃ with dev := v₃.dev.flushed } :=
    sealing_setDev (Device.within_flushed _ _) rfl
  refine wp_mono (wp_writeSuperblock root gen free' mirror _) ?_
    (fun _ v' h => ⟨A, v₃, he, hs₁.trans h⟩)
  intro _ w₂ h
  obtain ⟨hs₂, x, hx, hx₁, hx₂⟩ := h
  have hs₁₂ := hs₁.trans hs₂
  -- The superblocks are sealed before anything is given back.
  refine wp_mono (wp_devFlush w₂) ?_ ?_
  rotate_left
  · intro e v' h
    obtain ⟨hr, rfl⟩ := h
    exact ⟨A, v₃, he, hs₁₂.trans (sealing_latched e (Device.within_refused_flush _ _ _) rfl hr)⟩
  intro _ w₃ h
  obtain ⟨-, rfl⟩ := h
  have hs₃ : Sealing v₃ { w₂ with dev := w₂.dev.flushed } :=
    hs₁₂.trans (sealing_setDev (Device.within_flushed _ _) rfl)
  simp only [wp_modify]
  have hfree : ({ w₂ with
      dev := w₂.dev.flushed, root := root, generation := gen, rootMirror := mirror,
      rootPrimaryBad := 0 } : Vol α).FreeOk := by
    have hf := he.free
    unfold FreeOk at hf ⊢
    rw [← hs₁₂.bitmap, ← hs₁₂.freeExt, ← hs₁₂.same.totalBlocks] at hf
    exact hf
  obtain ⟨ext, hdrop, hext⟩ := dropMirror_eq hfree v.rootMirror mirror (by
    intro hne
    obtain ⟨hlt, hbit⟩ := hmir hne
    refine ⟨hst.ne_of_marked he hne hbit, ?_, ?_⟩
    · show v.rootMirror.block < w₂.totalBlocks
      rwa [hs₁₂.same.totalBlocks, he.same.totalBlocks]
    · show w₂.bitmap v.rootMirror.block = true
      rw [hs₁₂.bitmap]
      exact he.marked hbit)
  have hmb := mirrorBlocks_eq (fun h => (hmir h).1)
  unfold wp
  rw [hdrop]
  refine ⟨A, ⟨v₃, _, mirror, free', ext, x, he, hst, hs₃, ?_, ?_, ?_, ?_, ?_, ?_⟩⟩
  · rw [← hsb]
    exact hx
  · rw [← hsb, ← he.same.featureIncompat]
    exact hx₁
  · rw [← hbk, ← he.same.featureIncompat]
    exact hx₂
  · rw [hmb]
    by_cases hm0 : v.rootMirror.block = 0 <;> simp [hm0]
  · rw [hmb, ← hs₁₂.freeExt]
    exact hext
  · intro ht
    obtain ⟨t, ht', ho⟩ := htr ht
    exact ⟨t, hs₁₂.txn.trans ht', ho⟩

/-- The device works and the superblocks have a place on it. -/
def Sound (v : Vol α) : Prop :=
  v.dev.Faultless ∧ v.sbBlock < v.dev.size ∧ v.backupBlock < v.dev.size

theorem Effect.sound {F : List Nat} (he : Effect A F v v') (h : v.Sound) : v'.Sound := by
  refine ⟨he.dev.faultless h.1, ?_, ?_⟩
  · rw [sbBlock, he.same.blockSize, he.dev.size]
    exact h.2.1
  · rw [backupBlock, he.same.totalBlocks, he.dev.size]
    exact h.2.2

theorem Sound.devFlush (h : v.Sound) :
    wp devFlush (fun _ v' => v'.Sound) (fun _ _ => False) v := by
  refine wp_mono (wp_devFlush v) ?_ ?_
  · intro _ v' hv
    obtain ⟨-, rfl⟩ := hv
    exact h
  · intro e v' hv
    rw [h.1.1] at hv
    exact absurd hv.1 (by simp)

theorem Sound.devWrite (h : v.Sound) (hb : b < v.dev.size) (x : Block α) :
    wp (devWrite b x) (fun _ v' => v'.Sound ∧ v'.sbBlock = v.sbBlock ∧
      v'.backupBlock = v.backupBlock ∧ v'.dev.size = v.dev.size) (fun _ _ => False) v := by
  refine wp_mono (wp_devWrite_eq b x v) ?_ ?_
  · intro _ v' hv
    obtain ⟨-, -, rfl⟩ := hv
    exact ⟨h, rfl, rfl, rfl⟩
  · intro e v' hv
    rcases hv with ⟨hle, -⟩ | ⟨ho, -⟩
    · omega
    · rw [h.1.1] at ho
      exact absurd ho (by simp)

theorem Sound.writeSuperblock (h : v.Sound) (root : BlockPtr) (gen free : Nat) (mirror : BlockPtr) :
    wp (writeSuperblock root gen free mirror) (fun _ v' => v'.Sound) (fun _ _ => False) v := by
  have hx : v.dev.view v.sbBlock = some (v.dev.cur v.sbBlock) := if_pos h.2.1
  unfold Vol.writeSuperblock
  simp only [wp_bind, wp_get]
  rw [wp_run (blockRead_eq h.1.2 hx)]
  refine wp_mono (h.devWrite h.2.1 _) ?_ (fun _ _ h => h)
  intro _ v₁ h₁
  have hlt : v.backupBlock < v₁.dev.size := by
    rw [h₁.2.2.2]
    exact h.2.2
  exact wp_mono (h₁.1.devWrite hlt _) (fun _ _ h => h.1) (fun _ _ h => h)

/-- On a device that works a commit does not fail. -/
theorem wp_commit_sound (hv : v.FreeOk) (h0 : v.bitmap 0 = true) (hn : NodeAt v.dev.view root n)
    (hroot : v.bitmap root.block = true) (gen free : Nat) :
    wp (commit root gen free) (fun _ _ => True) (fun _ _ => ¬ v.Sound) v := by
  by_cases h : v.Sound
  · unfold commit
    simp only [wp_bind, wp_get]
    refine wp_mono (wp_stageMirror hv h0 hn hroot gen free) ?_ (fun _ _ h => h.elim)
    intro out v₃ hst
    obtain ⟨A, he, -, -⟩ := hst
    refine wp_mono (he.sound h).devFlush ?_ (fun _ _ h => h.elim)
    intro _ v₄ h₄
    refine wp_mono (h₄.writeSuperblock root gen out.2 out.1) ?_ (fun _ _ h => h.elim)
    intro _ v₅ h₅
    refine wp_mono h₅.devFlush ?_ (fun _ _ h => h.elim)
    intro _ v₆ _
    simp only [wp_modify]
    unfold dropMirror
    simp only [wp_bind, wp_get, wp_ite, wp_attempt, wp_pure]
    exact ⟨fun _ => wp_of_forall (fun _ _ => trivial) (fun _ _ => trivial), fun _ => trivial⟩
  · exact wp_of_forall (fun _ _ => trivial) (fun _ _ => h)

section Keeps

open Prog (Keeps)

end Keeps

end Commit

end Vol

end EmbLinkOs.Embkfs
