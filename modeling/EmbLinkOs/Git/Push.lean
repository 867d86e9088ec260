import EmbLinkOs.Lib.Paths
import EmbLinkOs.Git.Objects

set_option autoImplicit false

/-! # Building a commit

`push_make_commit` of `src/user/git/push.c` adds or replaces one file. It rebuilds the trees along
the path, each spliced into the one that stood there, and names the new objects by their SHA-1. The
objects of the parent commit are at hand; the rest of the repository stays on the server. -/

namespace EmbLinkOs.Git

open Paths

/-! ## Git's tree order -/

/-- `memcmp` over the shorter of the two lengths. -/
def memcmp : Bytes → Bytes → Int
  | a :: as, b :: bs => if a = b then memcmp as bs else (a.toNat : Int) - b.toNat
  | _, _ => 0

/-- The byte at `c`, or what stands behind the name in the order of a tree. -/
def Entry.byteAt (e : Entry) (c : Nat) : Int :=
  if c < e.name.length then (e.name.getD c 0).toNat else if e.isDir then 0x2F else 0

/-- `tent_cmp`. -/
def tentCmp (x y : Entry) : Int :=
  let c := min x.name.length y.name.length
  let r := memcmp (x.name.take c) (y.name.take c)
  if r ≠ 0 then r else x.byteAt c - y.byteAt c

/-- `qsort` by `tent_cmp`. Entries of different names without a slash never compare equal, so there
is one order to sort them into. -/
def sortEntries (es : List Entry) : List Entry := es.insertionSort fun x y => tentCmp x y ≤ 0

/-! ## Splicing a path -/

/-- A tree object's content. -/
def encodeEntries (es : List Entry) : Bytes :=
  es.flatMap fun e => e.mode ++ 0x20 :: (e.name ++ 0 :: e.sha.1)

/-- `parse_tree`: at most 4095 entries, and none behind the first that the loop gives up on. -/
def parseTree (t : PackObj) : List Entry := entriesTo 4095 t.data

/-- The entries at one level: those of the tree that stood there, if there was one. -/
def baseEntries (base : List PackObj) : Option Sha → Option (List Entry)
  | none => some []
  | some sha =>
    match findObj base sha with
    | none => none
    | some t => if t.type = .tree then some (parseTree t) else none

/-- The subtree `splice_path` descends into. -/
def subTree (es : List Entry) (name : Bytes) : Option Sha :=
  (es.find? fun e => e.isDir && e.name = name).map (·.sha)

/-- The entry replaced, or a new one behind the others. -/
def setEntry (es : List Entry) (name mode : Bytes) (sha : Sha) : Option (List Entry) :=
  if es.any (·.name = name) then
    some (es.map fun e => if e.name = name then { e with mode, sha } else e)
  else if 4095 ≤ es.length then none
  else some (es ++ [⟨mode, name.take 255, sha⟩])

def modeFile : Bytes := ascii "100644"

def modeDir : Bytes := ascii "40000"

/-- `splice_path`: the objects built so far and the name of this level's tree. -/
def splicePath (base : List PackObj) (leaf : Sha) :
    List Bytes → Option Sha → List PackObj → Option (List PackObj × Sha)
  | [], _, _ => none
  | c :: cs, tree, out => do
    let es ← baseEntries base tree
    let (out, mode, child) ←
      if cs = [] then some (out, modeFile, leaf)
      else (splicePath base leaf cs (subTree es c) out).map fun p => (p.1, modeDir, p.2)
    let es ← setEntry es c mode child
    let t := PackObj.named .tree (encodeEntries (sortEntries es))
    return (out ++ [t], t.sha)

/-! ## The commit -/

/-- The components `strtok` finds in a path. -/
def components (path : Bytes) : List Bytes := (split path).filter (· ≠ [])

/-- `strtok` over a copy in a buffer of 1024 bytes, into an array of 64. -/
def pathComponents (path : Bytes) : List Bytes := (components (path.take 1023)).take 64

/-- The tree of a commit, read from the start of its body. -/
def commitTree (objs : List PackObj) (hex : Bytes) : Option Sha :=
  match findObj objs (hex2bin hex) with
  | none => none
  | some c =>
    if c.type ≠ .commit ∨ c.data.length < 46 ∨ c.data.take 5 ≠ ascii "tree " then none
    else some (hex2bin ((c.data.drop 5).take 40))

/-- The body of a commit. -/
def commitBody (tree : Sha) (parent : Option Bytes) (author msg : Bytes) (ts : UInt32) : Bytes :=
  let who := author ++ 0x20 :: (decimal ts.toNat ++ ascii " +0000\n")
  ascii "tree " ++ hex20 tree ++ ascii "\n" ++
    (match parent with
      | none => []
      | some hex => ascii "parent " ++ hex ++ ascii "\n") ++
    ascii "author " ++ who ++ ascii "committer " ++ who ++ ascii "\n" ++ msg ++ ascii "\n"

/-- The tree the new commit starts from: none for a first commit. -/
def parentTree (base : List PackObj) : Option Bytes → Option (Option Sha)
  | none => some none
  | some hex => (commitTree base hex).map some

/-- `push_make_commit`: the objects built and the new commit's name. -/
def pushMakeCommit (path content msg author : Bytes) (ts : UInt32) (parent : Option Bytes)
    (base : List PackObj) : Option (List PackObj × Bytes) := do
  let blob := PackObj.named .blob content
  let comp := pathComponents path
  if comp = [] then none
  else do
    let root ← parentTree base parent
    let (out, rootSha) ← splicePath base blob.sha comp root [blob]
    let body := commitBody rootSha parent author msg ts
    if 1024 ≤ body.length then none
    else
      let commit := PackObj.named .commit body
      return (out ++ [commit], hex20 commit.sha)

end EmbLinkOs.Git
