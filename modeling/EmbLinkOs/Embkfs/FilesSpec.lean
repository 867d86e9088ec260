import EmbLinkOs.Embkfs.Reading
import EmbLinkOs.Embkfs.Transact

set_option autoImplicit false
set_option linter.unusedSectionVars false

/-! # What the file operations do

For each operation the relation between the items it found and the plan it made, and from it the
block accounting of the plan. `wp_runPlan` turns a plan that accounts for its blocks into a
committed change. -/

namespace EmbLinkOs.Embkfs

open Run
open List
open Prog hiding bind

open SortedMap

variable [Checksum Payload]

namespace Vol

section Plans

variable {ex : Prop} {bs total : Nat} {its : List (Key × Payload)} {pre : List (Put Payload)}

/-! ## Plans -/

/-- The plan of `embkfs_make_object` for the items it found. -/
def MakePlan (ex : Prop) (its : List (Key × Payload)) (dir : Nat) (name : List UInt8)
    (mode now pid newOid gen : Nat) (p : OpPlan) : Prop :=
  ∃ parent chain, inodeOf its dir = some parent ∧
    (ex → parent.fmt = modeDir ∧ chain = chainOf its dir name ∧ entryOf its dir name = none) ∧
    p = ⟨makeOps dir name mode now pid newOid gen parent chain, []⟩

theorem reading_planMake (dir : Nat) (name : List UInt8) (mode now pid newOid gen : Nat) :
    Reading ex bs total its (planMake dir name mode now pid newOid gen)
      (MakePlan ex its dir name mode now pid newOid gen) (fun _ => True) := by
  unfold planMake
  refine .attempt (reading_lookup dir name) (fun _ _ => .fail trivial) (fun e he => ?_)
  split
  · exact .fail trivial
  · next heq =>
    obtain rfl := Except.error.inj heq
    refine ((reading_readInode dir).mono (fun _ h => h) (fun _ _ => trivial)).bind (fun parent hp => ?_)
    refine (reading_readChain dir name _ trivial).bind (fun c hc => .pure ⟨parent, _, hp, ?_, rfl⟩)
    intro hex
    rcases he hex rfl with h | ⟨hd, hentry⟩
    · rw [hp] at h
      exact absurd h (by simp)
    · obtain ⟨i, hi, hfmt⟩ := hd
      rw [hp] at hi
      exact ⟨Option.some.inj hi ▸ hfmt, hc.2 hex, hentry⟩
  · exact .fail trivial

/-- The plan of `embkfs_link_name`. -/
def LinkPlan (ex : Prop) (its : List (Key × Payload)) (target dir : Nat) (name : List UInt8)
    (now gen : Nat) (p : OpPlan) : Prop :=
  ∃ parent ino chain, inodeOf its dir = some parent ∧ parent.fmt = modeDir ∧
    inodeOf its target = some ino ∧ ino.fmt ≠ modeDir ∧
    (ex → chain = chainOf its dir name ∧ entryOf its dir name = none) ∧
    p = ⟨[(inodeKey target, some (.inode (Inode.withLinks ino (ino.links + 1) now gen))),
      (direntKey dir name, some (.dirents (chain ++ [⟨target, direntType ino.fmt, name⟩]))),
      (inodeKey dir, some (.inode (Inode.touched parent now gen)))], []⟩

theorem reading_planLink (target dir : Nat) (name : List UInt8) (now gen : Nat) :
    Reading ex bs total its (planLink target dir name now gen)
      (LinkPlan ex its target dir name now gen) (fun _ => True) := by
  unfold planLink
  refine .attempt (reading_lookup dir name) (fun _ _ => .fail trivial) (fun e _ => ?_)
  split
  · exact .fail trivial
  · refine ((reading_readDirInode dir).mono (fun _ h => h) (fun _ _ => trivial)).bind
      (fun parent hp => ?_)
    refine ((reading_readInode target).mono (fun _ h => h) (fun _ _ => trivial)).bind
      (fun ino hi => ?_)
    refine .ite (fun _ => .fail trivial) (fun hfmt => ?_)
    refine (reading_direntAddOp dir name target _ _ (fun _ => trivial)).bind (fun op hop => ?_)
    obtain ⟨ds, rfl, hds⟩ := hop
    exact .pure ⟨parent, ino, ds, hp.1, hp.2, hi, hfmt, hds, rfl⟩
  · exact .fail trivial

/-- The extents an object that loses a name gives up. -/
def droppedExtents (its : List (Key × Payload)) (oid : Nat) (last defer : Bool) :
    List (Nat × Extent) :=
  if last && !defer then extentsOf oid its else []

/-- The plan of `embkfs_unlink`. -/
def UnlinkPlan (isOpen : Nat → Bool) (its : List (Key × Payload)) (dir : Nat) (name : List UInt8)
    (now gen : Nat) (p : OpPlan) : Prop :=
  ∃ r ino parent last defer exts, entryOf its dir name = some r ∧ inodeOf its r.target = some ino ∧
    ino.fmt ≠ modeDir ∧ inodeOf its dir = some parent ∧ parent.fmt = modeDir ∧
    last = decide (ino.links ≤ 1) ∧ defer = (last && isOpen r.target) ∧
    exts = droppedExtents its r.target last defer ∧
    p = ⟨dropOps r.target ino last defer exts now gen ++
      [chainOp dir name ((chainOf its dir name).eraseP (fun r => r.name = name)),
        (inodeKey dir, some (.inode (Inode.touched parent now gen)))], extentRuns exts⟩

/-- The plan of `embkfs_rmdir`. -/
def RmdirPlan (its : List (Key × Payload)) (dir : Nat) (name : List UInt8) (now gen : Nat)
    (p : OpPlan) : Prop :=
  ∃ r ino parent, entryOf its dir name = some r ∧ inodeOf its r.target = some ino ∧
    ino.fmt = modeDir ∧ (∀ e ∈ its, e.1.within r.target typeDirEntry = false) ∧
    inodeOf its dir = some parent ∧ parent.fmt = modeDir ∧ parent.links ≠ 0 ∧
    p = ⟨[(inodeKey r.target, none),
      (inodeKey dir, some (.inode (Inode.touched (Inode.release parent) now gen))),
      chainOp dir name ((chainOf its dir name).eraseP (fun r => r.name = name))], []⟩

/-- The plan of `embkfs_destroy_object`. -/
def DestroyPlan (its : List (Key × Payload)) (oid : Nat) (p : OpPlan) : Prop :=
  ∃ ino, inodeOf its oid = some ino ∧ ino.links = 0 ∧
    p = ⟨(inodeKey oid, none) :: deleteExtents oid (extentsOf oid its),
      extentRuns (extentsOf oid its)⟩

/-- What `embkfs_rename` does about the new name: it is added to its chain, or its entry is pointed
    at the renamed object and the object it stood for loses a name. -/
inductive Takes (ex : Prop) (isOpen : Nat → Bool) (its : List (Key × Payload)) (dir : Nat)
    (name : List UInt8) (target : Nat) (ino : Inode) (now gen : Nat) :
    Put Payload → List (Put Payload) → Prop
  | fresh (chain : List Dirent)
      (h : ex → chain = chainOf its dir name ∧ entryOf its dir name = none) :
      Takes ex isOpen its dir name target ino now gen
        (direntKey dir name, some (.dirents (chain ++ [⟨target, direntType ino.fmt, name⟩]))) []
  | replace (r : Dirent) (vic : Inode) (last defer : Bool) (hr : entryOf its dir name = some r)
      (hne : r.target ≠ target) (hvic : inodeOf its r.target = some vic) (hfile : vic.fmt ≠ modeDir)
      (hino : ino.fmt ≠ modeDir) (hlast : last = decide (vic.links ≤ 1))
      (hdefer : defer = (last && isOpen r.target)) :
      Takes ex isOpen its dir name target ino now gen
        (direntKey dir name, some (.dirents
          (retarget name target (direntType ino.fmt) (chainOf its dir name))))
        (dropOps r.target vic last defer (droppedExtents its r.target last defer) now gen)

/-- The plan of `embkfs_rename`. -/
def RenamePlan (ex : Prop) (isOpen : Nat → Bool) (its : List (Key × Payload)) (oldDir : Nat)
    (oldName : List UInt8) (newDir : Nat) (newName : List UInt8) (now gen : Nat) (p : OpPlan) :
    Prop :=
  ∃ r ino oldParent newParent moved add drop, entryOf its oldDir oldName = some r ∧
    inodeOf its r.target = some ino ∧
    (inodeOf its oldDir = some oldParent ∧ oldParent.fmt = modeDir) ∧
    (inodeOf its newDir = some newParent ∧ newParent.fmt = modeDir) ∧
    moved = decide (ino.fmt = modeDir ∧ oldDir ≠ newDir) ∧
    (moved = true → newDir ≠ r.target ∧ ¬ Contains its newDir r.target ∧ oldParent.links ≠ 0) ∧
    ¬ (oldDir = newDir ∧ nameHash oldName = nameHash newName) ∧
    Takes ex isOpen its newDir newName r.target ino now gen add drop ∧
    p = ⟨[chainOp oldDir oldName ((chainOf its oldDir oldName).eraseP (fun r => r.name = oldName)),
      add] ++ parentOps oldDir newDir oldParent newParent moved now gen ++ drop, []⟩

/-- Ops on inodes and entries do not touch extents. -/
theorem find_extentKey_other (hs : Sorted its)
    (hpre : ∀ op ∈ pre, op.1.type = typeInode ∨ op.1.type = typeDirEntry) (oid off : Nat) :
    find (extentKey oid off) (updAll pre its) = find (extentKey oid off) its := by
  refine find_updAll_other hs (fun op hop hkey => ?_)
  have ht : op.1.type = typeExtent := by rw [hkey]; rfl
  rcases hpre op hop with h | h <;> rw [h] at ht <;> exact absurd ht (by decide)

theorem forall_mem_nil_other :
    ∀ op ∈ ([] : List (Put Payload)), op.1.type = typeInode ∨ op.1.type = typeDirEntry := by simp

/-- An object that loses a name, after ops `pre` elsewhere, gives up the extents it had. -/
theorem accounts_dropOps (hs : Sorted its) (hx : ∀ e ∈ its, ExtentOk bs total e)
    (hpre : ∀ op ∈ pre, op.1.type = typeInode ∨ op.1.type = typeDirEntry) (oid : Nat) (ino : Inode)
    (last defer : Bool) (now gen : Nat) :
    Accounts bs total (updAll pre its)
      (dropOps oid ino last defer (droppedExtents its oid last defer) now gen) []
      (covered (extentRuns (droppedExtents its oid last defer))) [] := by
  have hother : ∀ x : Option Payload,
      Accounts bs total (updAll pre its) [(inodeKey oid, x)] [] [] [] :=
    fun x => accounts_other (sorted_updAll hs) (fun op hop => by
      obtain rfl := mem_singleton.1 hop
      exact Or.inl rfl)
  cases defer with
  | true => simpa [dropOps, droppedExtents, extentRuns] using hother _
  | false =>
    cases last with
    | false => simpa [dropOps, droppedExtents, extentRuns] using hother _
    | true =>
      simp only [dropOps, droppedExtents, Bool.not_false, Bool.and_self, if_true,
        Bool.false_eq_true, if_false]
      refine (hother none).append (accounts_deleteExtents
        (sorted_updAll (sorted_updAll hs)) ?_)
      refine (present_extentsOf hs hx).congr (fun x _ => ?_)
      rw [← updAll_append_ops, find_extentKey_other hs]
      intro op hop
      rcases mem_append.1 hop with h | h
      · exact hpre op h
      · obtain rfl := mem_singleton.1 h
        exact Or.inl rfl

/-- The blocks `embkfs_rename` drops without noting them: those of a file that loses its last name
    to the renamed object and is not open. -/
def renameLost (isOpen : Nat → Bool) (its : List (Key × Payload)) (newDir : Nat)
    (newName : List UInt8) : List Nat :=
  match entryOf its newDir newName with
  | none => []
  | some r => match inodeOf its r.target with
    | none => []
    | some vic =>
      if vic.links ≤ 1 ∧ isOpen r.target = false then
        covered (extentRuns (extentsOf r.target its))
      else []

section

variable {dir now gen : Nat} {name : List UInt8} {p : OpPlan}

theorem MakePlan.accounts {mode pid newOid : Nat} (hs : Sorted its)
    (h : MakePlan ex its dir name mode now pid newOid gen p) :
    Accounts bs total its p.ops [] (covered p.runs) [] := by
  obtain ⟨parent, chain, -, -, rfl⟩ := h
  refine accounts_other hs (fun op hop => ?_)
  simp only [makeOps, mem_cons, not_mem_nil, or_false] at hop
  rcases hop with rfl | rfl | rfl
  · exact Or.inl rfl
  · exact Or.inr rfl
  · exact Or.inl rfl

theorem LinkPlan.accounts {target : Nat} (hs : Sorted its)
    (h : LinkPlan ex its target dir name now gen p) :
    Accounts bs total its p.ops [] (covered p.runs) [] := by
  obtain ⟨parent, ino, chain, -, -, -, -, -, rfl⟩ := h
  refine accounts_other hs (fun op hop => ?_)
  simp only [mem_cons, not_mem_nil, or_false] at hop
  rcases hop with rfl | rfl | rfl
  · exact Or.inl rfl
  · exact Or.inr rfl
  · exact Or.inl rfl

theorem RmdirPlan.accounts (hs : Sorted its) (h : RmdirPlan its dir name now gen p) :
    Accounts bs total its p.ops [] (covered p.runs) [] := by
  obtain ⟨r, ino, parent, -, -, -, -, -, -, -, rfl⟩ := h
  refine accounts_other hs (fun op hop => ?_)
  simp only [mem_cons, not_mem_nil, or_false] at hop
  rcases hop with rfl | rfl | rfl
  · exact Or.inl rfl
  · exact Or.inl rfl
  · exact Or.inr rfl

theorem UnlinkPlan.accounts {isOpen : Nat → Bool} (hs : Sorted its)
    (hx : ∀ e ∈ its, ExtentOk bs total e) (h : UnlinkPlan isOpen its dir name now gen p) :
    Accounts bs total its p.ops [] (covered p.runs) [] := by
  obtain ⟨r, ino, parent, last, defer, exts, -, -, -, -, -, -, -, rfl, rfl⟩ := h
  have h1 := accounts_dropOps hs hx forall_mem_nil_other r.target ino last defer now gen
  refine (h1.append (accounts_other (sorted_updAll hs) (fun op hop => ?_))).perm (by simp) (by simp)
  simp only [mem_cons, not_mem_nil, or_false] at hop
  rcases hop with rfl | rfl
  · exact Or.inr rfl
  · exact Or.inl rfl

theorem DestroyPlan.accounts {oid : Nat} (hs : Sorted its) (hx : ∀ e ∈ its, ExtentOk bs total e)
    (h : DestroyPlan its oid p) : Accounts bs total its p.ops [] (covered p.runs) [] := by
  obtain ⟨ino, -, -, rfl⟩ := h
  exact accounts_dropOps hs hx forall_mem_nil_other oid ino true false 0 0

end

theorem mem_parentOps {oldDir newDir : Nat} {oldParent newParent : Inode} {moved : Bool}
    {now gen : Nat} {op : Put Payload}
    (h : op ∈ parentOps oldDir newDir oldParent newParent moved now gen) : op.1.type = typeInode := by
  simp only [parentOps, mem_cons] at h
  rcases h with rfl | h
  · rfl
  · split at h
    · obtain rfl := mem_singleton.1 h
      rfl
    · exact absurd h (by simp)

theorem Takes.accounts {isOpen : Nat → Bool} {dir target : Nat} {name : List UInt8} {ino : Inode}
    {now gen : Nat} {add : Put Payload} {drop : List (Put Payload)} (hs : Sorted its)
    (hx : ∀ e ∈ its, ExtentOk bs total e)
    (hpre : ∀ op ∈ pre, op.1.type = typeInode ∨ op.1.type = typeDirEntry)
    (h : Takes ex isOpen its dir name target ino now gen add drop) :
    add.1.type = typeDirEntry ∧ ∃ lost, Accounts bs total its (pre ++ drop) [] [] lost ∧
      (ex → lost = renameLost isOpen its dir name) := by
  cases h with
  | fresh chain h =>
    refine ⟨rfl, [], (accounts_other hs hpre).append (.nil _ _ _), fun hex => ?_⟩
    rw [renameLost, (h hex).2]
  | replace r vic last defer hr hne hvic hfile hino hlast hdefer =>
    have hdrop := accounts_dropOps hs hx hpre r.target vic last defer now gen
    refine ⟨rfl, covered (extentRuns (droppedExtents its r.target last defer)),
      ((accounts_other hs hpre).append hdrop).perm .rfl (by simp), fun _ => ?_⟩
    simp only [renameLost, hr, hvic]
    subst hdefer hlast
    by_cases h1 : vic.links ≤ 1 <;> cases h2 : isOpen r.target <;>
      simp [droppedExtents, h1, extentRuns]

theorem RenamePlan.accounts {isOpen : Nat → Bool} {oldDir newDir : Nat} {oldName newName : List UInt8}
    {now gen : Nat} {p : OpPlan} (hs : Sorted its) (hx : ∀ e ∈ its, ExtentOk bs total e)
    (h : RenamePlan ex isOpen its oldDir oldName newDir newName now gen p) :
    ∃ lost, Accounts bs total its p.ops [] (covered p.runs) lost ∧
      (ex → lost = renameLost isOpen its newDir newName) := by
  obtain ⟨r, ino, oldParent, newParent, moved, add, drop, -, -, -, -, -, -, -, htakes, rfl⟩ := h
  have hadd := (htakes.accounts hs hx forall_mem_nil_other).1
  refine (htakes.accounts hs hx ?_).2
  intro op hop
  rcases mem_append.1 hop with h | h
  · simp only [mem_cons, not_mem_nil, or_false] at h
    rcases h with rfl | rfl
    · exact Or.inr rfl
    · exact Or.inr hadd
  · exact Or.inl (mem_parentOps h)

end Plans

/-! ## Carrying plans out -/

/-- The plan of an operation as a plan of its transaction: no block is taken by the body, and
    `lost` is dropped without being noted. -/
def OpPlan.plan (p : OpPlan) (lost : List Nat) (snaps : List (SnapTree Payload)) : Plan Payload :=
  ⟨p.ops, 0, [], covered p.runs, lost, snaps⟩

theorem wp_noteFreedRuns (rs : List Run) {v : Vol Payload} (hv : v.FreeOk) :
    wp (noteFreedRuns rs) (fun _ v' => Effect [] (covered rs) v v') (fun _ _ => False) v := by
  induction rs generalizing v with
  | nil => exact Effect.refl hv
  | cons r rs ih =>
    simp only [noteFreedRuns, wp_bind, noteFreedRun, wp_modify]
    have h1 := effect_noteFreedRun hv r.start r.len
    refine wp_mono (ih h1.free) ?_ (fun _ _ h => h)
    intro _ v' h
    rw [covered_cons]
    exact h1.trans h

section Steps

variable {v v' : Vol Payload} {L L' : Layout Payload} {lost : List Nat} {F : Errno → Prop}

/-- A batch that leaves the snapshot records alone keeps the snapshots on record. -/
theorem recorded_updAll {ops : List (Put Payload)} {taken noted : List Nat}
    (h : Accounts v.blockSize v.totalBlocks L.items ops taken noted lost) :
    v.recorded (updAll ops L.items) = v.recorded L.items := by
  unfold recorded
  simp only [h.snapshots]

theorem wp_runPlan (h : v.Consistent L) {p : OpPlan} (gen : Nat)
    (hacc : Accounts v.blockSize v.totalBlocks L.items p.ops [] (covered p.runs) lost) :
    wp (runPlan p gen)
      (fun _ v' => ∃ w L', Committed 0 gen v L (p.plan lost L.snaps) w L' v')
      (fun _ v' => RolledBack v L v') v := by
  refine wp_mono (wp_transact (Q := fun P _ => P = p.plan lost L.snaps) h ?_) ?_
    (fun _ _ hr => hr)
  · simp only [wp_bind, wp_pure]
    refine wp_mono (wp_noteFreedRuns p.runs (v := v.opened) h.free) ?_ (fun _ _ hf => hf.elim)
    intro _ w he
    refine ⟨p.plan lost L.snaps, rfl, ⟨Or.inl rfl, he, hacc.data, hacc.extents h.tree.extents, ?_,
      fun s hs => Or.inl hs, ?_⟩, rfl⟩
    · exact (recorded_updAll hacc).trans h.record
    · exact h.held
  · intro _ v' hc
    obtain ⟨P, w, L', rfl, hc⟩ := hc
    exact ⟨w, L', hc⟩

theorem ReadOnlyStep.consistent (hs : ReadOnlyStep v v') (h : v.Consistent L) :
    v'.Consistent L := by
  obtain ⟨t, r, hr, rfl⟩ := hs
  have hbad : r = 0 ∨ r = v.root.block := by
    rcases hr.2 with rfl | hr
    · exact h.primaryBad
    · exact Or.inr hr
  exact ⟨h.idle, h.free, hbad, h.mirror, h.mirrorIn, ⟨h.tree.shape, h.tree.sorted, h.tree.extents⟩,
    fun s hs => ⟨(h.snaps s hs).shape, (h.snaps s hs).sorted, (h.snaps s hs).extents⟩, h.registry,
    h.record, h.held, h.nodup, h.apart, h.marked, h.range, h.bytes, h.fits, h.tape⟩

theorem ReadOnlyStep.within (hs : ReadOnlyStep v v') (A : List Nat) :
    Device.Within A v.dev v'.dev := by
  obtain ⟨t, r, ht, rfl⟩ := hs
  exact (Device.SameMedia.wrote ⟨t, ht.1, rfl⟩ A).within

theorem ReadOnlyStep.rolledBack {v₁ : Vol Payload} (hs : ReadOnlyStep v v₁)
    (h : RolledBack v₁ L v') : RolledBack v L v' := by
  have hw := hs.within
  obtain ⟨t, r, ht, rfl⟩ := hs
  obtain ⟨A, hA, hdev⟩ := h.dev
  exact ⟨h.consistent, ⟨h.labels.1, h.labels.2, h.labels.3⟩, h.root, h.rootMirror, h.generation,
    h.freeBlocks, h.encrypted, h.readOnly, h.feature, ⟨A, hA, (hw _).trans hdev⟩, h.base,
    fun hd => h.supers ⟨hd.1, suffix_nil.1 (hd.2 ▸ ht.1)⟩, h.alloc⟩

theorem ReadOnlyStep.committed {v₁ w : Vol Payload} {hold gen : Nat} {P : Plan Payload}
    (hs : ReadOnlyStep v v₁) (h : Committed hold gen v₁ L P w L' v') :
    Committed hold gen v L P w L' v' := by
  have hw := hs.within
  obtain ⟨t, r, ht, rfl⟩ := hs
  obtain ⟨A, F, M, hx⟩ := h.exchanged
  refine ⟨h.consistent, h.items, h.snaps, ⟨h.labels.1, h.labels.2, h.labels.3⟩, h.generation,
    h.nextOid, h.encrypted, h.snapshotCount, h.newFeature, h.feature, h.readOnly, ⟨A, F, M, ?_⟩, h.kept⟩
  refine ⟨hx.blocks, hx.nodup, hx.fresh, hx.bitmap, hx.mirror, fun hf => hx.mirrorKept ⟨hf.1, ?_⟩,
    (hw _).trans hx.dev, hx.freeBlocks, hx.mirrorRoom, hx.super⟩
  have := hf.2
  rw [this] at ht
  exact suffix_nil.1 ht.1

theorem rolledBack_refl (h : v.Consistent L) : RolledBack v L v :=
  ⟨h, .refl v, rfl, rfl, rfl, rfl, rfl, .refl v, ⟨0, Or.inl rfl, by simp⟩,
    ⟨[], by simp, .refl _ _⟩, rfl, fun _ _ _ => rfl, Or.inl ⟨rfl, rfl, rfl⟩⟩

/-- A reading phase that fails leaves everything as it was. -/
theorem wp_reading (h : v.Consistent L) {ex : Prop} (hex : ex → v.dev.readTape = []) {β γ : Type}
    {m : Prog (Vol Payload) Errno β} {R : β → Prop}
    (hm : Reading ex v.blockSize v.totalBlocks L.items m R F) {f : β → Prog (Vol Payload) Errno γ}
    {Q : γ → Vol Payload → Prop} {E : Errno → Vol Payload → Prop}
    (hf : ∀ a v', R a → ReadOnlyStep v v' → wp (f a) Q E v')
    (hE : ∀ e v', F e → ReadOnlyStep v v' → E e v') : wp (m >>= f) Q E v := by
  rw [wp_bind]
  refine wp_mono (hm v (h.view hex)) ?_ ?_
  · intro a v' ha
    exact hf a v' ha.2 ha.1
  · intro e v' he
    exact hE e v' he.2 he.1

/-! ## Steps -/

/-- An atomic change a file operation makes to a volume: a plan is committed, one is rolled back, or
    an object id is used up. The list is what the change drops without noting it. -/
inductive FileStep (v : Vol Payload) (L : Layout Payload) :
    List Nat → Vol Payload → Layout Payload → Prop
  | rolledBack {v' : Vol Payload} (h : RolledBack v L v') : FileStep v L [] v' L
  | committed {v' w : Vol Payload} {P : Plan Payload} {L' : Layout Payload}
      (h : Committed 0 (v.generation + 1) v L P w L' v') (hs : P.snaps = L.snaps) :
      FileStep v L P.lost v' L'
  | numbered (h : v.Consistent L) : FileStep v L [] { v with nextOid := v.nextOid + 1 } L

/-- The changes an operation makes, one after the other. -/
inductive FileSteps : Vol Payload → Layout Payload → List Nat → Vol Payload → Layout Payload → Prop
  | nil {v : Vol Payload} {L : Layout Payload} (h : v.Consistent L) : FileSteps v L [] v L
  | cons {v v₁ v' : Vol Payload} {L L₁ L' : Layout Payload} {lost lost' : List Nat}
      (h : FileStep v L lost v₁ L₁) (h' : FileSteps v₁ L₁ lost' v' L') :
      FileSteps v L (lost ++ lost') v' L'

theorem Consistent.renumber (h : v.Consistent L) (n : Nat) :
    ({ v with nextOid := n } : Vol Payload).Consistent L :=
  ⟨h.idle, h.free, h.primaryBad, h.mirror, h.mirrorIn, ⟨h.tree.shape, h.tree.sorted, h.tree.extents⟩,
    fun s hs => ⟨(h.snaps s hs).shape, (h.snaps s hs).sorted, (h.snaps s hs).extents⟩, h.registry,
    h.record, h.held, h.nodup, h.apart, h.marked, h.range, h.bytes, h.fits, h.tape⟩

theorem FileStep.consistent (h : FileStep v L lost v' L') : v'.Consistent L' := by
  cases h with
  | rolledBack h => exact h.consistent
  | committed h => exact h.consistent
  | numbered h => exact h.renumber _

theorem FileSteps.consistent (h : FileSteps v L lost v' L') : v'.Consistent L' := by
  induction h with
  | nil h => exact h
  | cons _ _ ih => exact ih

theorem FileSteps.trans {v₁ : Vol Payload} {L₁ : Layout Payload} {lost' : List Nat}
    (h : FileSteps v L lost v₁ L₁) (h' : FileSteps v₁ L₁ lost' v' L') :
    FileSteps v L (lost ++ lost') v' L' := by
  induction h with
  | nil => exact h'
  | cons hs _ ih =>
    rw [append_assoc]
    exact .cons hs (ih h')

/-- Reading, then carrying out the plan made of what was read, if there is something to do: `N`
    says when there is not, and `T` what is dropped without being noted. -/
theorem wp_plannedFrom (h : v.Consistent L) {ex : Prop} (hex : ex → v.dev.readTape = []) {β : Type}
    {m : Prog (Vol Payload) Errno β} {R : β → Prop} {f : β → Prog (Vol Payload) Errno Unit}
    (N : Prop) (T : β → OpPlan → List Nat → Prop)
    (hm : Reading ex v.blockSize v.totalBlocks L.items m R F)
    (hf : ∀ a, R a → (f a = pure () ∧ N) ∨ ∃ p lost, f a = runPlan p (v.generation + 1) ∧
      T a p lost ∧ Accounts v.blockSize v.totalBlocks L.items p.ops [] (covered p.runs) lost) :
    wp (m >>= f)
      (fun _ v' => (N ∧ ReadOnlyStep v v') ∨
        ∃ a p lost w L', R a ∧ T a p lost ∧
          Committed 0 (v.generation + 1) v L (p.plan lost L.snaps) w L' v')
      (fun _ v' => RolledBack v L v') v := by
  refine wp_reading h hex hm ?_ (fun e v' _ hs => hs.rolledBack (rolledBack_refl (hs.consistent h)))
  intro a v₁ hR hs
  rcases hf a hR with ⟨hnone, hN⟩ | ⟨p, lost, hsome, hT, ha⟩
  · rw [hnone]
    exact Or.inl ⟨hN, hs⟩
  · have hb : v₁.blockSize = v.blockSize ∧ v₁.totalBlocks = v.totalBlocks := by
      obtain ⟨t, r, -, rfl⟩ := hs
      exact ⟨rfl, rfl⟩
    rw [hsome]
    refine wp_mono (wp_runPlan (hs.consistent h) (v.generation + 1)
      (by rw [hb.1, hb.2]; exact ha)) ?_ (fun _ _ hr => hs.rolledBack hr)
    intro _ v' hc
    obtain ⟨w, L', hc⟩ := hc
    exact Or.inr ⟨a, p, lost, w, L', hR, hT, hs.committed hc⟩

theorem wp_planned (h : v.Consistent L) {ex : Prop} (hex : ex → v.dev.readTape = [])
    {m : Prog (Vol Payload) Errno OpPlan} {R : OpPlan → Prop}
    (hm : Reading ex v.blockSize v.totalBlocks L.items m R F) (hacc : ∀ p, R p →
      Accounts v.blockSize v.totalBlocks L.items p.ops [] (covered p.runs) []) :
    wp (m >>= fun p => runPlan p (v.generation + 1))
      (fun _ v' => ∃ p w L', R p ∧ Committed 0 (v.generation + 1) v L (p.plan [] L.snaps) w L' v')
      (fun _ v' => RolledBack v L v') v := by
  refine wp_mono (wp_plannedFrom h hex False (fun a p lost => a = p ∧ lost = []) hm
    (fun p hp => Or.inr ⟨p, [], rfl, ⟨rfl, rfl⟩, hacc p hp⟩)) ?_ (fun _ _ h => h)
  intro _ v' hc
  rcases hc with ⟨hf, -⟩ | ⟨a, p, lost, w, L', hp, ⟨rfl, rfl⟩, hc⟩
  · exact hf.elim
  · exact ⟨a, w, L', hp, hc⟩

end Steps

/-! ## The operations -/

section Operations

variable {v : Vol Payload} {L : Layout Payload} {ex : Prop}

theorem wp_makeObject (h : v.Consistent L) (hex : ex → v.dev.readTape = []) (dir : Nat)
    (name : List UInt8) (mode now pid : Nat) :
    wp (makeObject dir name mode now pid)
      (fun o v' => o = v.nextOid ∧ ∃ p w L' v₁, MakePlan ex L.items dir name mode now pid v.nextOid
          (v.generation + 1) p ∧
        Committed 0 (v.generation + 1) v L (p.plan [] L.snaps) w L' v₁ ∧
        v' = { v₁ with nextOid := v₁.nextOid + 1 })
      (fun _ v' => RolledBack v L v') v := by
  unfold makeObject
  rw [wp_bind, wp_get]
  simp only [wp_ite, wp_fail]
  refine ⟨fun _ => rolledBack_refl h, fun _ => ⟨fun _ => ?_, fun _ => rolledBack_refl h⟩⟩
  have hplan := wp_planned h hex
    (reading_planMake dir name mode now pid v.nextOid (v.generation + 1))
    (fun p hp => hp.accounts h.tree.sorted)
  simp only [wp_bind, wp_modify, wp_pure] at hplan ⊢
  refine wp_mono hplan (fun p v₁ hp => wp_mono hp ?_ (fun _ _ h => h)) (fun _ _ h => h)
  intro _ v' hc
  obtain ⟨p, w, L', hp, hc⟩ := hc
  exact ⟨trivial, p, w, L', v', hp, hc, rfl⟩

/-- An operation that checks its names and carries a plan out. -/
theorem wp_named (h : v.Consistent L) {c c' : Prop} [Decidable c] [Decidable c'] {e e' : Errno}
    {m : Prog (Vol Payload) Errno Unit} {Q : Unit → Vol Payload → Prop}
    (hm : wp m Q (fun _ v' => RolledBack v L v') v) :
    wp (if c then fail e else if c' then m else fail e') Q
      (fun _ v' => RolledBack v L v') v := by
  simp only [wp_ite, wp_fail]
  exact ⟨fun _ => rolledBack_refl h, fun _ => ⟨fun _ => hm, fun _ => rolledBack_refl h⟩⟩

theorem wp_linkName (h : v.Consistent L) (hex : ex → v.dev.readTape = []) (target dir : Nat)
    (name : List UInt8) (now : Nat) :
    wp (linkName target dir name now)
      (fun _ v' => ∃ p w L', LinkPlan ex L.items target dir name now (v.generation + 1) p ∧
        Committed 0 (v.generation + 1) v L (p.plan [] L.snaps) w L' v')
      (fun _ v' => RolledBack v L v') v := by
  unfold linkName
  rw [wp_bind, wp_get]
  exact wp_named h (wp_planned h hex (reading_planLink target dir name now (v.generation + 1))
    (fun p hp => hp.accounts h.tree.sorted))

end Operations

end Vol

end EmbLinkOs.Embkfs
