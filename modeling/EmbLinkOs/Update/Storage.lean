import EmbLinkOs.Embkfs.Format
import EmbLinkOs.Lib.Machine

set_option autoImplicit false

/-! # The application directory

`/data/apps` is a view of three directories. A package of the store is active if its `CURRENT` file
names one of its versions, and then that version is the application. The other two directories hold
applications as they are, those of `upper` before those of `lower`; new ones go to `upper` if there
is one. The directories are those of a file system that has no fault of its own.

A lookup goes through the three in this order, a listing collects all of them (`listing_agrees_iff`):
the two agree all along a run exactly if the names in `upper` and `lower` are application names.
`emit` skips every other name, while `app_lookup`, `app_create` and `app_mkdir` take it. -/

namespace EmbLinkOs.Update.Storage

open List

abbrev Name := List UInt8

/-- `VFS_DT_*`, as far as the file system has them. -/
inductive Dtype
  | unknown | reg | dir | lnk
  deriving DecidableEq

/-- An object of the file system, with what a directory or a file holds. -/
inductive Node
  | reg (ino : UInt64) (bytes : List UInt8)
  | dir (ino : UInt64) (entries : List (Name × Node))
  | special (link : Bool) (ino : UInt64)

def Node.type : Node → Dtype
  | .reg _ _ => .reg
  | .dir _ _ => .dir
  | .special link _ => if link then .lnk else .unknown

def Node.ino : Node → UInt64
  | .reg ino _ | .dir ino _ | .special _ ino => ino

/-- A directory of the view: no name stands in it twice. -/
abbrev Dir := AList fun _ : Name => Node

/-- `apps`; the directories that are not there are `none`. -/
structure Apps where
  lower : Dir
  upper : Option Dir
  store : Option Dir

/-- `app_name`. -/
def appName (p : Name) : Bool :=
  !p.isEmpty && decide (p.length ≤ 63) && p.head? != some 0x2E && p.all fun c =>
    decide (0x61 ≤ c ∧ c ≤ 0x7A ∨ 0x41 ≤ c ∧ c ≤ 0x5A ∨ 0x30 ≤ c ∧ c ≤ 0x39 ∨
      c = 0x2D ∨ c = 0x5F ∨ c = 0x2E)

/-- The contents of a `CURRENT` file: one or two lines with a lowercase SHA-256 each. -/
def pointerOk (pointer : List UInt8) : Bool :=
  decide (pointer.length = 65 ∨ pointer.length = 130) && pointer.zipIdx.all fun (c, i) =>
    if i = 64 ∨ i = 129 then c = 0x0A
    else decide (0x30 ≤ c ∧ c ≤ 0x39 ∨ 0x61 ≤ c ∧ c ≤ 0x66)

/-- The names `CURRENT` and `versions`. -/
def currentFile : Name := [0x43, 0x55, 0x52, 0x52, 0x45, 0x4E, 0x54]
def versionsDir : Name := [0x76, 0x65, 0x72, 0x73, 0x69, 0x6F, 0x6E, 0x73]

/-- The version of the package that the pointer names. -/
def versionOf (package : List (Name × Node)) (pointer : List UInt8) : Except Errno (Option Node) :=
  match package.lookup versionsDir with
  | some (.dir _ versions) =>
    match versions.lookup (pointer.take 64) with
    | some (.dir ino entries) => .ok (some (.dir ino entries))
    | _ => .error .eio
  | _ => .error .eio

/-- `modern`: nothing published under the name, the active version, or an error. -/
def modern (s : Apps) (name : Name) : Except Errno (Option Node) :=
  if !appName name then .ok none
  else match s.store.bind (·.lookup name) with
    | none => .ok none
    | some (.dir _ package) =>
      match package.lookup currentFile with
      | none => .ok none
      | some (.reg _ pointer) => if pointerOk pointer then versionOf package pointer else .error .eio
      | some _ => .error .eio
    | some _ => .error .eio

/-- The two plain directories, `upper` first. -/
def plain (s : Apps) (name : Name) : Option Node :=
  (s.upper.bind (·.lookup name)).or (s.lower.lookup name)

/-- `app_lookup`. -/
def appLookup (s : Apps) (name : Name) : Except Errno Node :=
  match modern s name with
  | .error e => .error e
  | .ok (some v) => .ok v
  | .ok none => (plain s name).elim (.error .enoent) .ok

/-- `layer` of `struct listing`. -/
inductive Layer
  | store | upper | lower

/-- `emit`: the call of the callback for an entry, if there is one. -/
def emit (s : Apps) (layer : Layer) (e : Sigma fun _ : Name => Node) :
    Option (Name × Dtype × UInt64) :=
  if !appName e.1 then none
  else match layer, modern s e.1 with
    | .store, .ok (some selected) => some (e.1, .dir, selected.ino)
    | .upper, .ok none => some (e.1, e.2.type, e.2.ino)
    | .lower, .ok none =>
      if (s.upper.bind (·.lookup e.1)).isSome then none else some (e.1, e.2.type, e.2.ino)
    | _, _ => none

/-- `app_readdir`: the calls of a callback that never stops it. -/
def appReaddir (s : Apps) : List (Name × Dtype × UInt64) :=
  (s.store.getD ∅).entries.filterMap (emit s .store) ++
    ((s.upper.getD ∅).entries.filterMap (emit s .upper) ++ s.lower.entries.filterMap (emit s .lower))

/-- `writable_apps`. -/
def writableApps (s : Apps) : Dir := s.upper.getD s.lower

def setWritable (s : Apps) (d : Dir) : Apps :=
  if s.upper.isSome then { s with upper := some d } else { s with lower := d }

/-- A new object under the name, unless the file system has no room for it. -/
def appMake (s : Apps) (name : Name) (new : Option Node) : Apps × Except Errno Unit :=
  match appLookup s name, new with
  | .ok _, _ => (s, .error .eexist)
  | .error _, none => (s, .error .enospc)
  | .error _, some v =>
    if name.length = 0 ∨ 255 < name.length then (s, .error .einval)
    else if ((writableApps s).lookup name).isSome then (s, .error .eexist)
    else (setWritable s ((writableApps s).insert name v), .ok ())

/-- `app_create`; `ino` is the inode the object gets. -/
def appCreate (s : Apps) (name : Name) (ino : Option UInt64) : Apps × Except Errno Unit :=
  appMake s name (ino.map (.reg · []))

/-- `app_mkdir`. -/
def appMkdir (s : Apps) (name : Name) (ino : Option UInt64) : Apps × Except Errno Unit :=
  appMake s name (ino.map (.dir · []))

/-- `app_rmdir`. -/
def appRmdir (s : Apps) (name : Name) : Apps × Except Errno Unit :=
  match (writableApps s).lookup name with
  | some (.dir _ []) => (setWritable s ((writableApps s).erase name), .ok ())
  | some (.dir _ _) => (s, .error .enotempty)
  | some _ => (s, .error .enotdir)
  | none => (s, .error .enoent)

/-- The calls through the view. -/
inductive Call
  | create (name : Name) (ino : Option UInt64)
  | mkdir (name : Name) (ino : Option UInt64)
  | rmdir (name : Name)

def step (s : Apps) : Call → Apps × Except Errno Unit
  | .create name ino => appCreate s name ino
  | .mkdir name ino => appMkdir s name ino
  | .rmdir name => appRmdir s name

def overlay : Machine Apps Call (Except Errno Unit) := ⟨fun s c => ((step s c).1, [(step s c).2])⟩

/-- The listing agrees with lookup: one call for each name that is found, with its type and inode,
    and none for any other name. -/
structure Agrees (s : Apps) : Prop where
  once : ((appReaddir s).map (·.1)).Nodup
  same : ∀ name type ino, (name, type, ino) ∈ appReaddir s ↔
    ∃ v, appLookup s name = .ok v ∧ v.type = type ∧ v.ino = ino

/-- The names in the two plain directories are application names. -/
def Apps.Named (s : Apps) : Prop := ∀ name, (plain s name).isSome → appName name = true

/-- The name of the object a call makes. -/
def Call.makes : Call → Option Name
  | .create name _ | .mkdir name _ => some name
  | .rmdir _ => none

/-- A call that makes an object gives it an application name. -/
def NamesNew (s : Apps) (c : Call) : Prop :=
  ∀ name ∈ c.makes, (step s c).2 = .ok () → appName name = true

/-! ## One state -/

variable {s : Apps} {name : Name} {v : Node} {layer : Layer} {x : Name × Dtype × UInt64}

/-- What is active under a name is a directory of the store's. -/
theorem modern_active (h : modern s name = .ok (some v)) :
    appName name = true ∧ (s.store.bind (·.lookup name)).isSome = true ∧ v.type = .dir := by
  unfold modern at h
  split at h
  · cases h
  next hname =>
  refine ⟨by simpa using hname, ?_⟩
  split at h
  · cases h
  · next hstore =>
    refine ⟨by rw [hstore]; rfl, ?_⟩
    split at h
    · cases h
    · split_ifs at h
      unfold versionOf at h
      split at h
      · split at h
        · cases h
          rfl
        · cases h
      · cases h
    · cases h
  · cases h

theorem appLookup_eq_ok : appLookup s name = .ok v ↔
    modern s name = .ok (some v) ∨ modern s name = .ok none ∧ plain s name = some v := by
  unfold appLookup
  rcases modern s name with e | _ | u
  · simp
  · cases plain s name <;> simp
  · simp

/-- An entry is listed under its own name: in the layer of the store if it is active there, and in
    that of `lower` only if `upper` has no entry of the name. -/
theorem emit_spec {e : Sigma fun _ : Name => Node} (h : emit s layer e = some x) :
    x.1 = e.1 ∧ (layer = .store ↔ modern s e.1 ≠ .ok none) ∧
      (layer = .lower → s.upper.bind (·.lookup e.1) = none) := by
  unfold emit at h
  split at h
  · cases h
  · split at h
    · next hm =>
      cases h
      simp [hm]
    · next hm =>
      cases h
      simp [hm]
    · next hm =>
      split at h
      · cases h
      · next hupper =>
        cases h
        exact ⟨rfl, by simp [hm], fun _ => by simpa using hupper⟩
    · cases h

theorem mem_emitted {d : Dir} : x ∈ d.entries.filterMap (emit s layer) ↔
    ∃ v, d.lookup x.1 = some v ∧ emit s layer ⟨x.1, v⟩ = some x := by
  rw [mem_filterMap]
  constructor
  · rintro ⟨⟨name, v⟩, he, hx⟩
    obtain rfl := (emit_spec hx).1
    exact ⟨v, AList.mem_lookup_iff.2 he, hx⟩
  · rintro ⟨v, he, hx⟩
    exact ⟨⟨x.1, v⟩, AList.mem_lookup_iff.1 he, hx⟩

theorem lookup_getD (d : Option Dir) (name : Name) :
    (d.getD ∅).lookup name = d.bind (·.lookup name) := by
  cases d <;> simp

/-- The listing has the application names among those that are found. -/
theorem mem_appReaddir {type : Dtype} {ino : UInt64} : (name, type, ino) ∈ appReaddir s ↔
    appName name = true ∧ ∃ v, appLookup s name = .ok v ∧ v.type = type ∧ v.ino = ino := by
  simp only [appReaddir, mem_append, mem_emitted, lookup_getD, emit, appLookup_eq_ok]
  by_cases hname : appName name = true
  · simp only [hname, Bool.not_true, Bool.false_eq_true, if_false, true_and]
    rcases hm : modern s name with e | _ | u
    · simp
    · rcases hu : s.upper.bind (·.lookup name) with _ | u <;> simp [plain, hu]
    · obtain ⟨-, hstore, htype⟩ := modern_active hm
      obtain ⟨w, hw⟩ := Option.isSome_iff_exists.1 hstore
      simp [hw, htype, eq_comm]
  · simp [hname]

theorem nodup_emitted (d : Dir) (layer : Layer) :
    ((d.entries.filterMap (emit s layer)).map (·.1)).Nodup := by
  refine List.Nodup.sublist ?_ d.keys_nodup
  show List.Sublist _ (d.entries.map Sigma.fst)
  induction d.entries with
  | nil => exact List.Sublist.slnil
  | cons e es ih =>
    rw [filterMap_cons]
    split
    · exact ih.cons _
    · next x hx =>
      rw [map_cons, map_cons, (emit_spec hx).1]
      exact ih.cons_cons _

theorem once_appReaddir (s : Apps) : ((appReaddir s).map (·.1)).Nodup := by
  have hmem : ∀ {d : Dir} {layer name}, name ∈ (d.entries.filterMap (emit s layer)).map (·.1) →
      (∃ v, d.lookup name = some v) ∧ (layer = .store ↔ modern s name ≠ .ok none) ∧
        (layer = .lower → s.upper.bind (·.lookup name) = none) := by
    intro d layer name h
    obtain ⟨x, hx, rfl⟩ := mem_map.1 h
    obtain ⟨v, hv, he⟩ := mem_emitted.1 hx
    exact ⟨⟨v, hv⟩, (emit_spec he).2⟩
  simp only [appReaddir, map_append]
  refine nodup_append.2 ⟨nodup_emitted _ _, nodup_append.2 ⟨nodup_emitted _ _,
    nodup_emitted _ _, ?_⟩, ?_⟩
  · rintro a ha _ hb rfl
    obtain ⟨⟨v, hv⟩, -⟩ := hmem ha
    rw [lookup_getD, (hmem hb).2.2 rfl] at hv
    cases hv
  · rintro a ha _ hb rfl
    have hactive := (hmem ha).2.1.1 rfl
    rcases mem_append.1 hb with hb | hb
    · exact absurd ((hmem hb).2.1.2 hactive) (by simp)
    · exact absurd ((hmem hb).2.1.2 hactive) (by simp)

/-- Whatever the directories hold, the listing has each application name that lookup finds once, with
    its type and inode, and nothing else. -/
theorem listing_of_lookup (s : Apps) : ((appReaddir s).map (·.1)).Nodup ∧
    ∀ name type ino, (name, type, ino) ∈ appReaddir s ↔
      appName name = true ∧ ∃ v, appLookup s name = .ok v ∧ v.type = type ∧ v.ino = ino :=
  ⟨once_appReaddir s, fun _ _ _ => mem_appReaddir⟩

/-- The listing agrees with lookup exactly if the plain directories hold application names. -/
theorem agrees_iff (s : Apps) : Agrees s ↔ s.Named := by
  constructor
  · intro h name hp
    obtain ⟨v, hv⟩ := Option.isSome_iff_exists.1 hp
    by_contra hname
    have hm : modern s name = .ok none := if_pos (by simpa using hname)
    have hmem := (h.same name v.type v.ino).2 ⟨v, appLookup_eq_ok.2 (.inr ⟨hm, hv⟩), rfl, rfl⟩
    exact hname (mem_appReaddir.1 hmem).1
  · intro h
    refine ⟨once_appReaddir s, fun name type ino => mem_appReaddir.trans ⟨And.right, ?_⟩⟩
    rintro ⟨v, hv, hsame⟩
    refine ⟨?_, v, hv, hsame⟩
    rcases appLookup_eq_ok.1 hv with hm | ⟨-, hp⟩
    · exact (modern_active hm).1
    · exact h name (by rw [hp]; rfl)

/-! ## Runs -/

theorem isSome_plain : (plain s name).isSome ↔
    name ∈ writableApps s ∨ s.upper.isSome ∧ name ∈ s.lower := by
  rcases hu : s.upper with _ | u <;> simp [plain, writableApps, hu, AList.lookup_isSome]

theorem isSome_plain_setWritable {d : Dir} : (plain (setWritable s d) name).isSome ↔
    name ∈ d ∨ s.upper.isSome ∧ name ∈ s.lower := by
  rcases hu : s.upper with _ | u <;> simp [plain, setWritable, hu, AList.lookup_isSome]

theorem named_appMake (hs : s.Named) (name : Name) (new : Option Node) :
    (appMake s name new).1.Named ↔ ((appMake s name new).2 = .ok () → appName name = true) := by
  unfold appMake
  split
  · simpa using hs
  · simpa using hs
  · split_ifs
    · simpa using hs
    · simpa using hs
    · simp only [Apps.Named, isSome_plain_setWritable, AList.mem_insert, or_assoc, ← isSome_plain,
        true_imp_iff]
      exact ⟨fun h => h name (.inl rfl), fun h n hn => hn.elim (· ▸ h) (hs n)⟩

theorem named_step (hs : s.Named) (c : Call) : (step s c).1.Named ↔ NamesNew s c := by
  have hmakes : ∀ {name r}, (∀ n ∈ some name, r = .ok () → appName n = true) ↔
      ((r : Except Errno Unit) = .ok () → appName name = true) := by simp
  cases c with
  | create name ino => exact (named_appMake hs name _).trans hmakes.symm
  | mkdir name ino => exact (named_appMake hs name _).trans hmakes.symm
  | rmdir name =>
    simp only [NamesNew, Call.makes, Option.not_mem_none, false_imp_iff, implies_true, iff_true]
    show (appRmdir s name).1.Named
    unfold appRmdir
    split
    · intro n hn
      rw [isSome_plain_setWritable, AList.mem_erase] at hn
      exact hs n (isSome_plain.2 (hn.imp_left And.right))
    all_goals exact hs

theorem named_run (s : Apps) (cs : List Call) :
    (∀ k, (overlay.run s (cs.take k)).1.Named) ↔ s.Named ∧ overlay.Admits NamesNew s cs := by
  induction cs generalizing s with
  | nil => simp [Machine.Admits]
  | cons c cs ih =>
    constructor
    · intro h
      have h0 := h 0
      have hrest := (ih (step s c).1).1 fun k => h (k + 1)
      exact ⟨h0, (named_step h0 c).1 hrest.1, hrest.2⟩
    · rintro ⟨h0, hc, hcs⟩ k
      cases k with
      | zero => exact h0
      | succ k => exact (ih (step s c).1).2 ⟨(named_step h0 c).2 hc, hcs⟩ k

/-- The listing agrees with lookup at every point of a run exactly if the run begins with
    application names in the plain directories and makes no other. -/
theorem listing_agrees_iff (s : Apps) (cs : List Call) :
    (∀ k, Agrees (overlay.run s (cs.take k)).1) ↔ s.Named ∧ overlay.Admits NamesNew s cs := by
  simp only [agrees_iff, named_run]

/-- The name `my app`. -/
def spacedName : Name := [0x6D, 0x79, 0x20, 0x61, 0x70, 0x70]

/-- An empty view in which a directory of that name was made. -/
def spaced : Apps := (overlay.run ⟨∅, none, none⟩ [.mkdir spacedName (some 7)]).1

theorem spaced_name_not_listed :
    appLookup spaced spacedName = .ok (.dir 7 []) ∧ appReaddir spaced = [] ∧ ¬ Agrees spaced := by
  refine ⟨rfl, rfl, fun h => ?_⟩
  have hmem := (h.same spacedName .dir 7).2 ⟨.dir 7 [], rfl, rfl, rfl⟩
  cases hmem

end EmbLinkOs.Update.Storage
