import EmbLinkOs.Embkfs.Exact

set_option autoImplicit false
set_option linter.unusedSectionVars false
set_option maxRecDepth 4000

/-! # Names in a directory

A record of a directory is filed under the hash of its name, and no directory has two records of one
name (`NamesOk`). `embkfs_make_object` and `embkfs_link_name` look a name up before they add it, and
read its chain once more to extend it. Where no read fails both see the directory as it is, so every
record stays and no name comes twice (`names_kept`). `embkfs_find_item` reports a block that cannot be
read as an absent key: then a name that is there is not found, and is added again
(`name_added_twice`). -/

namespace EmbLinkOs.Embkfs

open List

open SortedMap Vol

/-- Every record is filed under the hash of its name, and no chain has a name twice. -/
structure NamesOk (its : List (Key × Payload)) : Prop where
  filed : ∀ e ∈ its, e.1.type = typeDirEntry →
    ∃ ds, e.2.dirents? = some ds ∧ ∀ r ∈ ds, nameHash r.name = e.1.offset
  unique : ∀ e ∈ its, ∀ ds, e.2.dirents? = some ds → (ds.map Dirent.name).Nodup

section

variable {its : List (Key × Payload)} {dir : Nat} {name : List UInt8} {r : Dirent}

theorem mem_entriesOf :
    r ∈ entriesOf its dir ↔
      ∃ e ∈ its, e.1.objectId = dir ∧ e.1.type = typeDirEntry ∧ ∃ ds, e.2.dirents? = some ds ∧ r ∈ ds := by
  unfold entriesOf
  rw [mem_flatMap]
  constructor
  · rintro ⟨e, he, hr⟩
    split at hr
    next hw =>
      simp only [Key.within, Bool.and_eq_true, decide_eq_true_eq] at hw
      cases hd : e.2.dirents? with
      | none => simp [hd] at hr
      | some ds => exact ⟨e, he, hw.1, hw.2, ds, hd, by simpa [hd] using hr⟩
    next => simp at hr
  · rintro ⟨e, he, hdir, hty, ds, hd, hr⟩
    exact ⟨e, he, by simpa [Key.within, hdir, hty, hd] using hr⟩

theorem NamesOk.tail {e : Key × Payload} (h : NamesOk (e :: its)) : NamesOk its :=
  ⟨fun x hx => h.filed x (by simp [hx]), fun x hx => h.unique x (by simp [hx])⟩

/-- Two items of a directory have different hashes, so one name is in one chain only. -/
theorem NamesOk.nodup (h : NamesOk its) (hs : Sorted its) (dir : Nat) :
    ((entriesOf its dir).map Dirent.name).Nodup := by
  induction its with
  | nil => simp [entriesOf]
  | cons e rest ih =>
    obtain ⟨hlt, hrest⟩ := pairwise_cons.1 hs
    have hih := ih h.tail hrest
    have hsplit : entriesOf (e :: rest) dir = entriesOf [e] dir ++ entriesOf rest dir := by
      simp [entriesOf]
    rw [hsplit, map_append]
    by_cases hw : e.1.within dir typeDirEntry = true
    · have hkey := hw
      simp only [Key.within, Bool.and_eq_true, decide_eq_true_eq] at hkey
      obtain ⟨ds, hd, hfiled⟩ := h.filed e (by simp) hkey.2
      have hone : entriesOf [e] dir = ds := by simp [entriesOf, hw, hd]
      rw [hone]
      refine nodup_append.2 ⟨h.unique e (by simp) ds hd, hih, ?_⟩
      rintro a ha b hb rfl
      obtain ⟨r, hr, rfl⟩ := mem_map.1 ha
      obtain ⟨r', hr', hname⟩ := mem_map.1 hb
      obtain ⟨e', he', hdir', hty', ds', hd', hr'⟩ := mem_entriesOf.1 hr'
      obtain ⟨ds'', hd'', hfiled'⟩ := h.tail.filed e' he' hty'
      obtain rfl : ds' = ds'' := Option.some.inj (hd'.symm.trans hd'')
      have hoff : e'.1.offset = e.1.offset := by rw [← hfiled' r' hr', hname, hfiled r hr]
      exact absurd (hlt e' he') (by
        rw [show e'.1 = e.1 from Key.ext (hdir'.trans hkey.1.symm) (hty'.trans hkey.2.symm) hoff]
        exact lt_irrefl _)
    · have hnone : entriesOf [e] dir = [] := by simp [entriesOf, hw]
      simpa [hnone] using hih

/-- The chain of a name, from the item it is in. -/
theorem chainOf_of_mem (hs : Sorted its) {e : Key × Payload} (he : e ∈ its) {ds : List Dirent}
    (hd : e.2.dirents? = some ds) (hk : e.1 = direntKey dir name) : chainOf its dir name = ds := by
  rw [chainOf, ← hk, find_of_mem hs he]
  simp [hd]

theorem mem_entriesOf_of_chainOf (h : r ∈ chainOf its dir name) : r ∈ entriesOf its dir := by
  unfold chainOf at h
  cases hf : find (direntKey dir name) its with
  | none => simp [hf] at h
  | some x =>
    cases hd : x.dirents? with
    | none => simp [hf, hd] at h
    | some ds =>
      exact mem_entriesOf.2 ⟨_, mem_of_find hf, rfl, rfl, ds, hd, by simpa [hf, hd] using h⟩

/-- The record of a name is the one a lookup finds. -/
theorem NamesOk.entryOf_eq_some (h : NamesOk its) (hs : Sorted its) :
    entryOf its dir name = some r ↔ r ∈ entriesOf its dir ∧ r.name = name := by
  constructor
  · intro hr
    exact ⟨mem_entriesOf_of_chainOf (mem_of_find?_eq_some hr), by
      simpa using find?_some hr⟩
  · rintro ⟨hr, rfl⟩
    obtain ⟨e, he, hdir, hty, ds, hd, hmem⟩ := mem_entriesOf.1 hr
    obtain ⟨ds', hd', hfiled⟩ := h.filed e he hty
    obtain rfl : ds = ds' := Option.some.inj (hd.symm.trans hd')
    have hkey : e.1 = direntKey dir r.name := Key.ext hdir hty (hfiled r hmem).symm
    have hnd := h.unique e he ds hd
    rw [entryOf, chainOf_of_mem hs he hd hkey]
    -- the first record of that name is the only one
    cases hf : ds.find? (fun x => decide (x.name = r.name)) with
    | none => exact absurd (by simp) (find?_eq_none.1 hf r hmem)
    | some x =>
      have hx := mem_of_find?_eq_some hf
      have hname : x.name = r.name := by simpa using find?_some hf
      rw [inj_on_of_nodup_map hnd hx hmem hname]

theorem NamesOk.entryOf_eq_none (h : NamesOk its) (hs : Sorted its) :
    entryOf its dir name = none ↔ ∀ r ∈ entriesOf its dir, r.name ≠ name := by
  constructor
  · intro hnone r hr hname
    rw [(h.entryOf_eq_some hs).2 ⟨hr, hname⟩] at hnone
    cases hnone
  · intro hall
    cases hr : entryOf its dir name with
    | none => rfl
    | some r => exact absurd ((h.entryOf_eq_some hs).1 hr).2 (hall r ((h.entryOf_eq_some hs).1 hr).1)

/-! ## Adding a name -/

/-- The records of `its` are all in `its'`, whose names are in order. -/
structure Grown (its its' : List (Key × Payload)) : Prop where
  names : NamesOk its'
  kept : ∀ dir, entriesOf its dir ⊆ entriesOf its' dir

theorem Grown.refl (h : NamesOk its) : Grown its its := ⟨h, fun _ => List.Subset.refl _⟩

theorem Grown.trans {its₁ its' : List (Key × Payload)} (h : Grown its its₁) (h' : Grown its₁ its') :
    Grown its its' :=
  ⟨h'.names, fun dir => List.Subset.trans (h.kept dir) (h'.kept dir)⟩

/-- A record stays when the item it is in is replaced by one that has it. -/
theorem entriesOf_subset_upd (hs : Sorted its) {k : Key} {x : Payload}
    (h : ∀ e ∈ its, e.1 = k → ∀ ds, e.2.dirents? = some ds → ∃ ds', x.dirents? = some ds' ∧ ds ⊆ ds')
    (dir : Nat) : entriesOf its dir ⊆ entriesOf (upd k (some x) its) dir := by
  intro r hr
  obtain ⟨e, he, hdir, hty, ds, hd, hmem⟩ := mem_entriesOf.1 hr
  have hfind := find_upd (k := k) (v := some x) hs e.1
  by_cases hk : e.1 = k
  · obtain ⟨ds', hx, hsub⟩ := h e he hk ds hd
    rw [if_pos hk] at hfind
    exact mem_entriesOf.2 ⟨_, mem_of_find hfind, hdir, hty, ds', hx, hsub hmem⟩
  · rw [if_neg hk, find_of_mem hs he] at hfind
    exact mem_entriesOf.2 ⟨_, mem_of_find hfind, hdir, hty, ds, hd, hmem⟩

theorem Grown.putInode (h : NamesOk its) (hs : Sorted its) (oid : Nat) (i : Inode) :
    Grown its (upd (inodeKey oid) (some (.inode i)) its) := by
  have hty : ∀ e : Key × Payload, e.1 = inodeKey oid → e.1.type ≠ typeDirEntry := by
    intro e he
    rw [he]
    exact (by decide : typeInode ≠ typeDirEntry)
  refine ⟨⟨fun e he hdir => ?_, fun e he ds hd => ?_⟩, fun dir r hr => ?_⟩
  · rcases mem_upd he with ⟨hk, -⟩ | he
    · exact absurd hdir (hty e hk)
    · exact h.filed e he hdir
  · rcases mem_upd he with ⟨-, hx⟩ | he
    · rw [← Option.some.inj hx] at hd
      cases hd
    · exact h.unique e he ds hd
  · obtain ⟨e, he, hdir, htype, ds, hd, hmem⟩ := mem_entriesOf.1 hr
    have hfind := find_upd (k := inodeKey oid) (v := some (.inode i)) hs e.1
    rw [if_neg (fun hk => hty e hk htype), find_of_mem hs he] at hfind
    exact mem_entriesOf.2 ⟨_, mem_of_find hfind, hdir, htype, ds, hd, hmem⟩

theorem NamesOk.filed_chainOf (h : NamesOk its) (hr : r ∈ chainOf its dir name) :
    nameHash r.name = nameHash name := by
  unfold chainOf at hr
  cases hf : find (direntKey dir name) its with
  | none => simp [hf] at hr
  | some x =>
    obtain ⟨ds, hd, hfiled⟩ := h.filed _ (mem_of_find hf) rfl
    exact hfiled r (by simpa [hf, hd] using hr)

theorem NamesOk.nodup_chainOf (h : NamesOk its) (name : List UInt8) :
    ((chainOf its dir name).map Dirent.name).Nodup := by
  unfold chainOf
  cases hf : find (direntKey dir name) its with
  | none => simp
  | some x =>
    cases hd : x.dirents? with
    | none => simp [hd]
    | some ds => simpa [hd] using h.unique _ (mem_of_find hf) ds hd

/-- A name that the chain of its hash does not have is put at the chain's end. -/
theorem Grown.addName (h : NamesOk its) (hs : Sorted its) (hnone : entryOf its dir name = none)
    (target type : Nat) :
    Grown its (upd (direntKey dir name)
      (some (.dirents (chainOf its dir name ++ [⟨target, type, name⟩]))) its) := by
  refine ⟨⟨fun e he hdir => ?_, fun e he ds hd => ?_⟩, entriesOf_subset_upd hs fun e he hk ds hd => ?_⟩
  · rcases mem_upd he with ⟨hk, hx⟩ | he
    · refine ⟨_, by rw [← Option.some.inj hx]; rfl, fun r hr => ?_⟩
      rw [hk]
      rcases mem_append.1 hr with hr | hr
      · exact h.filed_chainOf hr
      · rw [mem_singleton.1 hr]
        rfl
    · exact h.filed e he hdir
  · rcases mem_upd he with ⟨-, hx⟩ | he
    · rw [← Option.some.inj hx] at hd
      obtain rfl := Option.some.inj hd
      rw [map_append, nodup_append]
      refine ⟨h.nodup_chainOf name, by simp, ?_⟩
      rintro a ha b hb rfl
      obtain ⟨r, hr, rfl⟩ := mem_map.1 ha
      exact find?_eq_none.1 hnone r hr (by simpa using hb)
    · exact h.unique e he ds hd
  · exact ⟨_, rfl, by rw [chainOf_of_mem hs he hd hk]; exact subset_append_left ..⟩

/-- The ops of a creation and of a new link: an inode, the chain and the directory's inode. -/
theorem Grown.ofOps (h : NamesOk its) (hs : Sorted its) (hnone : entryOf its dir name = none)
    (oid target type : Nat) (i j : Inode) :
    Grown its (updAll [(inodeKey oid, some (.inode i)),
      (direntKey dir name, some (.dirents (chainOf its dir name ++ [⟨target, type, name⟩]))),
      (inodeKey dir, some (.inode j))] its) := by
  have hi := Grown.putInode h hs oid i
  have hchain : chainOf (upd (inodeKey oid) (some (.inode i)) its) dir name = chainOf its dir name := by
    rw [chainOf, find_upd hs, if_neg (by simp [direntKey, inodeKey, typeDirEntry, typeInode]), chainOf]
  have ha := Grown.addName hi.names (sorted_upd hs) (by rw [entryOf, hchain]; exact hnone) target type
  rw [hchain] at ha
  exact (hi.trans ha).trans (.putInode ha.names (sorted_upd (sorted_upd hs)) dir j)

end

/-! ## Sequences of calls -/

section

variable [Checksum Payload]

/-- A call that adds a name. -/
inductive NameOp
  | make (dir : Nat) (name : List UInt8) (mode now pid : Nat)
  | link (target dir : Nat) (name : List UInt8) (now : Nat)

/-- A call, and which of its block reads fail. -/
structure NameCall where
  op : NameOp
  faults : List (Option Errno)

/-- The device gives these results for the next reads. -/
def Vol.withFaults (faults : List (Option Errno)) (v : Vol Payload) : Vol Payload :=
  { v with dev := { v.dev with readTape := faults } }

def NameOp.run : NameOp → Prog (Vol Payload) Errno Unit
  | .make dir name mode now pid => do
    let _ ← makeObject dir name mode now pid
    pure ()
  | .link target dir name now => linkName target dir name now

def NameCall.exec (q : NameCall) (v : Vol Payload) : Vol Payload := (q.op.run (v.withFaults q.faults)).2

/-- The volume after a sequence of calls, whether they succeed or not. -/
def execAll (qs : List NameCall) (v : Vol Payload) : Vol Payload := qs.foldl (fun v q => q.exec v) v

variable {v : Vol Payload} {L : Layout Payload} {ex : Prop}

theorem Vol.Consistent.withFaults (h : v.Consistent L) (faults : List (Option Errno)) :
    (v.withFaults faults).Consistent L :=
  ⟨h.idle, h.free, h.primaryBad, h.mirror, h.mirrorIn, ⟨h.tree.shape, h.tree.sorted, h.tree.extents⟩,
    fun s hs => ⟨(h.snaps s hs).shape, (h.snaps s hs).sorted, (h.snaps s hs).extents⟩, h.registry,
    h.record, h.held, h.nodup, h.apart, h.marked, h.range, h.bytes, h.fits, h.tape⟩

theorem MakePlan.grown (hex : ex) (h : NamesOk L.items) (hs : Sorted L.items) {dir : Nat}
    {name : List UInt8} {mode now pid newOid gen : Nat} {p : OpPlan}
    (hp : MakePlan ex L.items dir name mode now pid newOid gen p) :
    Grown L.items (updAll p.ops L.items) := by
  obtain ⟨parent, chain, -, hread, rfl⟩ := hp
  obtain ⟨-, rfl, hnone⟩ := hread hex
  exact .ofOps h hs hnone ..

theorem LinkPlan.grown (hex : ex) (h : NamesOk L.items) (hs : Sorted L.items) {target dir : Nat}
    {name : List UInt8} {now gen : Nat} {p : OpPlan}
    (hp : LinkPlan ex L.items target dir name now gen p) :
    Grown L.items (updAll p.ops L.items) := by
  obtain ⟨parent, ino, chain, -, -, -, -, hread, rfl⟩ := hp
  obtain ⟨rfl, hnone⟩ := hread hex
  exact .ofOps h hs hnone ..

/-- A call leaves a consistent volume whatever fails; the names are in order where no read fails. -/
theorem NameOp.run_spec (h : v.Consistent L) (hex : ex → v.dev.readTape = []) (op : NameOp) :
    ∃ L', (op.run v).2.Consistent L' ∧ (ex → NamesOk L.items → Grown L.items L'.items) := by
  have hback : ∀ v', RolledBack v L v' →
      ∃ L', v'.Consistent L' ∧ (ex → NamesOk L.items → Grown L.items L'.items) :=
    fun v' hr => ⟨L, hr.consistent, fun _ hn => .refl hn⟩
  refine Prog.wp_snd (P := fun v' : Vol Payload =>
    ∃ L', v'.Consistent L' ∧ (ex → NamesOk L.items → Grown L.items L'.items)) ?_
  cases op with
  | make dir name mode now pid =>
    rw [NameOp.run, Prog.wp_bind]
    refine Prog.wp_mono (wp_makeObject h hex ..) ?_ (fun _ v' => hback v')
    rintro o _ ⟨-, p, w, L', v₁, hp, hc, rfl⟩
    refine ⟨L', hc.consistent.renumber _, fun hx hn => ?_⟩
    rw [hc.items]
    exact MakePlan.grown hx hn h.tree.sorted hp
  | link target dir name now =>
    refine Prog.wp_mono (wp_linkName h hex ..) ?_ (fun _ v' => hback v')
    rintro _ v' ⟨p, w, L', hp, hc⟩
    refine ⟨L', hc.consistent, fun hx hn => ?_⟩
    rw [hc.items]
    exact LinkPlan.grown hx hn h.tree.sorted hp

theorem NameCall.exec_spec (h : v.Consistent L) (q : NameCall) :
    ∃ L', (q.exec v).Consistent L' ∧ (q.faults = [] → NamesOk L.items → Grown L.items L'.items) :=
  NameOp.run_spec (h.withFaults q.faults) (fun hnil : q.faults = [] => hnil) q.op

theorem execAll_grown (h : v.Consistent L) (hn : NamesOk L.items) {qs : List NameCall}
    (hq : ∀ q ∈ qs, q.faults = []) :
    ∃ L', (execAll qs v).Consistent L' ∧ Grown L.items L'.items := by
  induction qs generalizing v L with
  | nil => exact ⟨L, h, .refl hn⟩
  | cons q qs ih =>
    obtain ⟨L₁, hc, hg⟩ := q.exec_spec h
    have hg₁ := hg (hq q (by simp)) hn
    obtain ⟨L', hc', hg'⟩ := ih hc hg₁.names (fun q hq' => hq q (by simp [hq']))
    exact ⟨L', hc', hg₁.trans hg'⟩

/-- Without a failed read a name of a directory that is not found is not there. -/
theorem lookup_enoent (h : v.Consistent L) (hn : NamesOk L.items) {dir : Nat} (hdir : IsDir L.items dir)
    (name : List UInt8) (he : (lookup dir name (v.withFaults [])).1 = .error .enoent) :
    ∀ r ∈ entriesOf L.items dir, r.name ≠ name := by
  have hview : View True v.blockSize v.totalBlocks L.items (v.withFaults []) :=
    (h.withFaults []).view (fun _ => rfl)
  have hspec := reading_lookup dir name _ hview
  rcases (Prog.wp_error hspec (Prod.ext he rfl)).2 trivial rfl with hnone | ⟨-, hnone⟩
  · obtain ⟨i, hi, -⟩ := hdir
    rw [hnone] at hi
    cases hi
  · exact (hn.entryOf_eq_none h.tree.sorted).1 hnone

/-- **Names.** After every sequence of `embkfs_make_object` and `embkfs_link_name` calls in which no
    block read fails, whatever the writes do: no directory has two records of one name, every record
    is still there, and a lookup in a directory says `-ENOENT` only for a name it does not have. -/
theorem names_kept (h : v.Consistent L) (hn : NamesOk L.items) (qs : List NameCall)
    (hq : ∀ q ∈ qs, q.faults = []) :
    ∃ L', (execAll qs v).Consistent L' ∧
      (∀ dir, ((entriesOf L'.items dir).map Dirent.name).Nodup ∧
        entriesOf L.items dir ⊆ entriesOf L'.items dir) ∧
      ∀ dir name, IsDir L'.items dir →
        (lookup dir name ((execAll qs v).withFaults [])).1 = .error .enoent →
        ∀ r ∈ entriesOf L'.items dir, r.name ≠ name := by
  obtain ⟨L', hc, hg⟩ := execAll_grown h hn hq
  exact ⟨L', hc, fun dir => ⟨hg.names.nodup hc.tree.sorted dir, hg.kept dir⟩,
    fun dir name hdir he => lookup_enoent hc hg.names hdir name he⟩

end

/-! ## A lookup that could not read -/

section

variable [Checksum Payload]

/-- The volume of the files `a` and `b`, mounted. -/
def twoFilesVol : Vol Payload := (allocInit (leafVol 0 twoFiles)).2

theorem consistent_twoFilesVol [Cipher] : twoFilesVol.Consistent ⟨twoFiles, [20], []⟩ := by
  obtain ⟨_, _, -, hc, -⟩ := allocInit_eq formatted_twoFiles
  exact hc

theorem namesOk_twoFiles : NamesOk twoFiles := by
  refine ⟨fun e he hty => ?_, fun e he ds hd => ?_⟩
  all_goals
    simp only [twoFiles, mem_cons, not_mem_nil, or_false] at he
    rcases he with rfl | rfl | rfl | rfl | rfl | rfl
  all_goals first
    | exact absurd hty (by decide)
    | exact ⟨_, rfl, by decide +kernel⟩
    | simp [← Option.some.inj hd]
    | cases hd

/-- The file `c` is made and gets a second name. -/
def makeAndLink : List NameCall :=
  [⟨.make 1 [99] modeReg 5 7, []⟩, ⟨.link 2 1 [100] 6, []⟩]

end

theorem names_kept_of_link : Anyhow fun _ _ =>
    ∃ L', (execAll makeAndLink twoFilesVol).Consistent L' ∧
      (∀ dir, ((entriesOf L'.items dir).map Dirent.name).Nodup ∧
        entriesOf twoFiles dir ⊆ entriesOf L'.items dir) ∧
      ∀ dir name, IsDir L'.items dir →
        (lookup dir name ((execAll makeAndLink twoFilesVol).withFaults [])).1 = .error .enoent →
        ∀ r ∈ entriesOf L'.items dir, r.name ≠ name := by
  intro _ _
  exact names_kept consistent_twoFilesVol namesOk_twoFiles makeAndLink (by simp [makeAndLink])

/-- The read of the entries of `a` fails. -/
def makeAgain : NameCall := ⟨.make 1 [97] modeReg 5 7, [none, some .eio]⟩

/-- `qo39kj` has the hash of `a`; it is looked up, and then the read of its chain fails. -/
def makeColliding : NameCall :=
  ⟨.make 1 [113, 111, 51, 57, 107, 106] modeReg 5 7, [none, none, none, some .eio]⟩

/-- The leaf after object 4 was made, with the chain that `a` is filed in. -/
def madeLeaf (chain : List Dirent) : Node Payload :=
  ⟨2, 1, 0, [(inodeKey 1, .inode
      { sampleInode (modeDir ||| permDir) 2 0 with mtime := 5, ctime := 5, generation := 2 }),
    (direntKey 1 [97], .dirents chain),
    (direntKey 1 [98], .dirents [⟨3, dtReg, [98]⟩]),
    (inodeKey 2, .inode (sampleInode (modeReg ||| permFile) 1 0)),
    (inodeKey 3, .inode (sampleInode (modeReg ||| permFile) 1 4)),
    (extentKey 3 0, .extent ⟨40, 1, 4, 0, 1, false, false, false, 0⟩),
    (inodeKey 4, .inode (freshInode modeReg 5 7 2))], []⟩

theorem makeAgain_leaf [Checksum Payload] : NodeAt (makeAgain.exec twoFilesVol).dev.view
    (makeAgain.exec twoFilesVol).root (madeLeaf [⟨2, dtReg, [97]⟩, ⟨4, dtReg, [97]⟩]) := by
  refine ⟨_, by cbv, ?_⟩
  cbv

theorem makeColliding_leaf [Checksum Payload] : NodeAt (makeColliding.exec twoFilesVol).dev.view
    (makeColliding.exec twoFilesVol).root
    (madeLeaf [⟨4, dtReg, [113, 111, 51, 57, 107, 106]⟩]) := by
  refine ⟨_, by cbv, ?_⟩
  cbv

/-- The root directory has the file `a`. A lookup of `a` whose second read fails says `-ENOENT`. A
    creation of `a` then succeeds, and the directory has the name twice; a creation of a name of the
    same hash succeeds, and `a` is gone. -/
theorem name_added_twice : Anyhow fun _ _ =>
    twoFilesVol.Consistent ⟨twoFiles, [20], []⟩ ∧ NamesOk twoFiles ∧
      ⟨2, dtReg, [97]⟩ ∈ entriesOf twoFiles 1 ∧
      (lookup 1 [97] (twoFilesVol.withFaults makeAgain.faults)).1 = .error .enoent ∧
      (∃ L', (makeAgain.exec twoFilesVol).Consistent L' ∧
        ¬ ((entriesOf L'.items 1).map Dirent.name).Nodup) ∧
      ∃ L', (makeColliding.exec twoFilesVol).Consistent L' ∧
        ⟨2, dtReg, [97]⟩ ∉ entriesOf L'.items 1 := by
  intro _ _
  refine ⟨consistent_twoFilesVol, namesOk_twoFiles, by decide +kernel, by cbv, ?_, ?_⟩
  · obtain ⟨L', hc, -⟩ := makeAgain.exec_spec consistent_twoFilesVol
    refine ⟨L', hc, ?_⟩
    rw [(hc.tree.of_leaf makeAgain_leaf rfl).1]
    decide +kernel
  · obtain ⟨L', hc, -⟩ := makeColliding.exec_spec consistent_twoFilesVol
    refine ⟨L', hc, ?_⟩
    rw [(hc.tree.of_leaf makeColliding_leaf rfl).1]
    decide +kernel

end EmbLinkOs.Embkfs
