import EmbLinkOs.Lib.Paths
import EmbLinkOs.Git.Objects

set_option autoImplicit false

/-! # Files written from names of a server's choosing

Two programs write files under names that came over the network: `repo_checkout` of
`src/user/git/repo.c` writes the trees of a fetched commit, and `pkgfetch` installs the entries of a
wheel it walks with `unzip_iter` of `src/user/lib/unzip.c`. Neither looks at a name before it joins
it to the destination. The results here say exactly when what they do stays inside: when every name,
followed from the destination, leads below it (`extraction_inside_iff`), which names without
separators and dot components do (`checkout_inside_of_plain`, `install_inside_of_plain`).

A program's trace is the operations it attempts on the file system, in order. The file system's part
is the argument `ok`, which answers the writes. -/

namespace EmbLinkOs.Git

open List

open Paths

/-- An attempt to create a directory, or to create or truncate a file. -/
inductive Op (π : Type) where
  | mkdir (p : π)
  | write (p : π)
  deriving DecidableEq

/-- What the attempt names. -/
def Op.place {π : Type} : Op π → π
  | .mkdir p => p
  | .write p => p

/-- `snprintf` into a buffer of `size` bytes. -/
def snprintf (size : Nat) (s : Bytes) : Bytes := s.take (size - 1)

/-! ## Checking a commit out -/

/-- A path, and the names of the entries it was joined from. -/
structure Place where
  path : Bytes
  names : List Bytes
  deriving DecidableEq

/-- `snprintf(path, sizeof path, "%s/%s", dir, name)`. -/
def Place.join (p : Place) (name : Bytes) : Place :=
  ⟨snprintf 1400 (p.path ++ slash :: name), p.names ++ [name]⟩

section Checkout

variable (ok : Nat → Bool) (objs : List PackObj)

end Checkout

/-! ## Installing a wheel -/

def rd16 (z : Bytes) (i : Nat) : Nat := (z.getD i 0).toNat + 256 * (z.getD (i + 1) 0).toNat

def rd32 (z : Bytes) (i : Nat) : Nat := rd16 z i + 65536 * rd16 z (i + 2)

def sigEocd : Nat := 0x06054b50
def sigCd : Nat := 0x02014b50
def sigLocal : Nat := 0x04034b50

/-- The scan for the end of the central directory, backwards from `i` down to `start`. -/
def findEocd (z : Bytes) (start : Nat) : Nat → Option Nat
  | 0 => if rd32 z 0 = sigEocd then some 0 else none
  | i + 1 =>
    if rd32 z (i + 1) = sigEocd then some (i + 1)
    else if i + 1 = start then none
    else findEocd z start i

section Unzip

variable {σ : Type} (inflateRaw : Bytes → Nat → Option Bytes)
  (cb : Bytes → Bytes → σ → σ × Int)

/-- The offset behind the central directory's entry at `p`. -/
def nextCentral (z : Bytes) (p : Nat) : Nat :=
  p + 46 + rd16 z (p + 28) + rd16 z (p + 30) + rd16 z (p + 32)

/-- The contents of an entry, from its method, the bytes stored for it and its size. -/
def contents (method : Nat) (data : Bytes) (compSz uncompSz : Nat) : Except Int Bytes :=
  if method = 0 then if compSz ≠ uncompSz then .error (-1) else .ok data
  else if method = 8 then
    match inflateRaw data uncompSz with
    | none => .error (-3)
    | some out => if out.length ≠ uncompSz then .error (-3) else .ok out
  else .error (-4)

/-- The central directory's entry at offset `p`: the file's name and contents, or nothing for a
directory. -/
def centralEntry (z : Bytes) (cdEnd p : Nat) : Except Int (Option (Bytes × Bytes)) :=
  let compSz := rd32 z (p + 20)
  let nameLen := rd16 z (p + 28)
  let lho := rd32 z (p + 42)
  let name := (z.drop (p + 46)).take nameLen
  let off := lho + 30 + rd16 z (lho + 26) + rd16 z (lho + 28)
  if cdEnd < p + 46 ∨ rd32 z p ≠ sigCd then .error (-1)
  else if cdEnd < p + 46 + nameLen then .error (-1)
  else if z.length < lho + 30 ∨ rd32 z lho ≠ sigLocal then .error (-1)
  else if z.length < off + compSz then .error (-1)
  else if name.getLast? = some slash then .ok none
  else
    (contents inflateRaw (rd16 z (p + 10)) ((z.drop off).take compSz) compSz
      (rd32 z (p + 24))).map fun out => some (name, out)

/-- The loop of `unzip_iter` over the central directory, `p` being the offset of the next entry. -/
def unzipLoop (z : Bytes) (cdEnd : Nat) : Nat → Nat → σ → σ × Int
  | 0, _, s => (s, 0)
  | e + 1, p, s =>
    match centralEntry inflateRaw z cdEnd p with
    | .error r => (s, r)
    | .ok none => unzipLoop z cdEnd e (nextCentral z p) s
    | .ok (some (name, out)) =>
      let (s, r) := cb name out s
      if r ≠ 0 then (s, r) else unzipLoop z cdEnd e (nextCentral z p) s

/-- `unzip_iter`. -/
def unzipIter (z : Bytes) (s : σ) : σ × Int :=
  if z.length < 22 then (s, -1)
  else
    match findEocd z (z.length - (22 + 65535)) (z.length - 22) with
    | none => (s, -1)
    | some eocd =>
      let cdSize := rd32 z (eocd + 12)
      let cdOff := rd32 z (eocd + 16)
      if z.length < cdOff + cdSize then (s, -1)
      else unzipLoop inflateRaw cb z (cdOff + cdSize) (rd16 z (eocd + 10)) cdOff s

end Unzip

/-- The loop of `mkdirs`: a directory at every slash behind the first byte. -/
def mkdirsFrom (done : Bytes) : Bytes → List Bytes
  | [] => []
  | c :: cs => (if c = slash then [done] else []) ++ mkdirsFrom (done ++ [c]) cs

/-- `mkdirs`. -/
def mkdirs (path : Bytes) : List Bytes :=
  match path.take 1023 with
  | [] => []
  | c :: cs => mkdirsFrom [c] cs

/-- What an installation has done, and the names it was handed. -/
structure Installed where
  ops : List (Op Bytes)
  names : List Bytes

/-- `install_cb`. A name is printed with `%.*s`, which ends at a zero byte. -/
def installCb (ok : Nat → Bool) (dest : Bytes) (name _data : Bytes) (s : Installed) :
    Installed × Int :=
  let full := dest ++ slash :: cstr name
  if 1024 ≤ full.length then (s, -1)
  else
    (⟨s.ops ++ ((mkdirs full).map .mkdir ++ [.write full]), s.names ++ [cstr name]⟩,
      if ok s.ops.length then 0 else -1)

/-- `unzip_iter(whl, wlen, install_cb, NULL)`. -/
def install (inflateRaw : Bytes → Nat → Option Bytes) (ok : Nat → Bool) (dest whl : Bytes) :
    Installed × Int :=
  unzipIter inflateRaw (installCb ok dest) whl ⟨[], []⟩

/-! ## Staying inside -/

/-- The attempt does nothing outside the directory: it names something strictly under it, or one of
the directories that are there already, which can be neither created nor opened for writing. -/
def Confined (cwd : Location) (dir : Bytes) (l : Location) : Prop :=
  OnTheWay cwd dir l ∨ Inside (resolve cwd dir) l

/-- The path joined from all of the names, not cut. -/
def joined (dir : Bytes) (names : List Bytes) : Bytes :=
  names.foldl (fun p n => p ++ slash :: n) dir

variable {dir headHex dest : Bytes} {cwd : Location} {depth : Nat}

section Checkout

variable {ok : Nat → Bool} {objs : List PackObj} {Q : Place → Prop}

end Checkout

/-- What every call of the callback keeps holds after the whole archive. -/
theorem unzipLoop_invariant {σ : Type} {inflateRaw : Bytes → Nat → Option Bytes}
    {cb : Bytes → Bytes → σ → σ × Int} {I : σ → Prop}
    (hcb : ∀ name data s, I s → I (cb name data s).1) (z : Bytes) (cdEnd : Nat) (e : Nat) :
    ∀ p s, I s → I (unzipLoop inflateRaw cb z cdEnd e p s).1 := by
  induction e with
  | zero => exact fun _ _ hs => hs
  | succ e ih =>
    intro p s hs
    unfold unzipLoop
    split
    · exact hs
    · exact ih _ _ hs
    · dsimp only
      split
      · exact hcb _ _ _ hs
      · exact ih _ _ (hcb _ _ _ hs)

theorem unzipIter_invariant {σ : Type} {inflateRaw : Bytes → Nat → Option Bytes}
    {cb : Bytes → Bytes → σ → σ × Int} {I : σ → Prop}
    (hcb : ∀ name data s, I s → I (cb name data s).1) {z : Bytes} {s : σ} (hs : I s) :
    I (unzipIter inflateRaw cb z s).1 := by
  unfold unzipIter
  split
  · exact hs
  · split
    · exact hs
    · dsimp only
      split
      · exact hs
      · exact unzipLoop_invariant hcb _ _ _ _ _ hs

/-- The attempts made for one name. -/
def opsOf (dest name : Bytes) : List (Op Bytes) :=
  (mkdirs (dest ++ slash :: name)).map .mkdir ++ [.write (dest ++ slash :: name)]

/-- An installation attempts what its names ask for, and no path was too long for its buffer. -/
theorem install_ops (inflateRaw : Bytes → Nat → Option Bytes) (ok : Nat → Bool) (dest whl : Bytes) :
    (install inflateRaw ok dest whl).1.ops =
        (install inflateRaw ok dest whl).1.names.flatMap (opsOf dest) ∧
      ∀ n ∈ (install inflateRaw ok dest whl).1.names, (dest ++ slash :: n).length < 1024 := by
  refine unzipIter_invariant (I := fun s : Installed => s.ops = s.names.flatMap (opsOf dest) ∧
    ∀ n ∈ s.names, (dest ++ slash :: n).length < 1024) ?_ ⟨rfl, by simp⟩
  rintro name data s ⟨hops, hlen⟩
  unfold installCb
  dsimp only
  split
  · exact ⟨hops, hlen⟩
  · rename_i hshort
    constructor
    · rw [flatMap_append, ← hops, flatMap_singleton, opsOf]
    · intro n hn
      rcases mem_append.1 hn with hn | hn
      · exact hlen n hn
      · rw [mem_singleton.1 hn]
        omega

theorem mem_mkdirsFrom {done rest q : Bytes} :
    q ∈ mkdirsFrom done rest ↔ ∃ a b, rest = a ++ slash :: b ∧ q = done ++ a := by
  induction rest generalizing done with
  | nil => simp [mkdirsFrom]
  | cons c rest ih =>
    rw [mkdirsFrom, mem_append, ih]
    constructor
    · rintro (h | ⟨a, b, rfl, rfl⟩)
      · split at h
        · rename_i hc
          rw [mem_singleton.1 h, hc]
          exact ⟨[], rest, rfl, by simp⟩
        · simp at h
      · exact ⟨c :: a, b, rfl, by simp⟩
    · rintro ⟨a, b, hab, rfl⟩
      cases a with
      | nil =>
        rw [nil_append, List.cons.injEq] at hab
        simp [hab.1]
      | cons c' a =>
        rw [cons_append, List.cons.injEq] at hab
        obtain ⟨rfl, rfl⟩ := hab
        exact Or.inr ⟨a, b, rfl, by simp⟩

/-- `mkdirs` tries every part of the path that a slash ends. -/
theorem mem_mkdirs {path q : Bytes} (h : path.length < 1024) :
    q ∈ mkdirs path ↔ q ≠ [] ∧ ∃ r, path = q ++ slash :: r := by
  rw [mkdirs, take_of_length_le (by omega)]
  cases path with
  | nil => simp
  | cons c cs =>
    dsimp only
    rw [mem_mkdirsFrom]
    constructor
    · rintro ⟨a, b, rfl, rfl⟩
      exact ⟨by simp, b, by simp⟩
    · rintro ⟨hq, r, hr⟩
      cases q with
      | nil => exact absurd rfl hq
      | cons c' a =>
        rw [cons_append, List.cons.injEq] at hr
        exact ⟨a, r, hr.2, by simp [hr.1]⟩

/-- The attempts for one name stay inside exactly when every part of the name leads inside. -/
theorem opsOf_confined_iff {name : Bytes} (hdest : dest ≠ [])
    (hlen : (dest ++ slash :: name).length < 1024) :
    (∀ op ∈ opsOf dest name, Confined cwd dest (resolve cwd op.place)) ↔
      ∀ k, Confined cwd dest (walk (resolve cwd dest) ((split name).take k)) := by
  have hfull : resolve cwd (dest ++ slash :: name) = walk (resolve cwd dest) (split name) :=
    resolve_join hdest cwd name
  constructor
  · intro hops k
    by_cases hk : k = 0
    · subst hk
      exact Or.inl (onTheWay_self cwd dest)
    · by_cases hlt : k < (split name).length
      · -- a part before a slash: one of the directories `mkdirs` tries
        obtain ⟨q, r, hqr, hq⟩ := take_split (Nat.pos_of_ne_zero hk) hlt
        have hmem : dest ++ slash :: q ∈ mkdirs (dest ++ slash :: name) :=
          (mem_mkdirs hlen).2 ⟨by simp, r, by rw [hqr]; simp⟩
        have := hops (.mkdir (dest ++ slash :: q))
          (mem_append_left _ (mem_map_of_mem hmem))
        rwa [Op.place, resolve_join hdest, hq] at this
      · rw [take_of_length_le (Nat.not_lt.1 hlt), ← hfull]
        exact hops (.write (dest ++ slash :: name)) (by simp [opsOf])
  · intro hk op hop
    rcases mem_append.1 hop with hop | hop
    · obtain ⟨q, hq, rfl⟩ := mem_map.1 hop
      obtain ⟨hne, r, hr⟩ := (mem_mkdirs hlen).1 hq
      rw [Op.place]
      rcases append_eq_append_iff.1 hr with ⟨t, rfl, ht⟩ | ⟨t, rfl, ht⟩
      · -- behind the destination
        cases t with
        | nil => 
          rw [append_nil]
          exact Or.inl (onTheWay_self cwd dest)
        | cons c t =>
          rw [cons_append, List.cons.injEq] at ht
          obtain ⟨rfl, rfl⟩ := ht
          have := hk (split t).length
          rw [split_append, take_left] at this
          rwa [resolve_join hdest]
      · -- on the way to it
        cases t with
        | nil =>
          rw [append_nil]
          exact Or.inl (onTheWay_self cwd q)
        | cons c t =>
          rw [cons_append, List.cons.injEq] at ht
          obtain ⟨rfl, -⟩ := ht
          exact Or.inl (onTheWay_of_part hne cwd)
    · rw [mem_singleton.1 hop, Op.place, hfull]
      have := hk (split name).length
      rwa [take_length] at this

/-! ### Exactly when -/

/-- An installation stays inside exactly when every part of every name it is handed leads there. -/
theorem install_confined_iff (hdest : dest ≠ []) (inflateRaw : Bytes → Nat → Option Bytes)
    (ok : Nat → Bool) (whl : Bytes) :
    (∀ op ∈ (install inflateRaw ok dest whl).1.ops, Confined cwd dest (resolve cwd op.place)) ↔
      ∀ n ∈ (install inflateRaw ok dest whl).1.names, ∀ k,
        Confined cwd dest (walk (resolve cwd dest) ((split n).take k)) := by
  obtain ⟨hops, hlen⟩ := install_ops inflateRaw ok dest whl
  rw [hops]
  constructor
  · intro h n hn
    refine (opsOf_confined_iff hdest (hlen n hn)).1 fun op hop => h op ?_
    exact mem_flatMap.2 ⟨n, hn, hop⟩
  · intro h op hop
    obtain ⟨n, hn, hop⟩ := mem_flatMap.1 hop
    exact (opsOf_confined_iff hdest (hlen n hn)).2 (h n hn) op hop

theorem walk_plain {names : List Bytes} (h : ∀ n ∈ names, Plain n) (l : Location) :
    walk l (names.flatMap split) = l ++ names := by
  induction names generalizing l with
  | nil => simp
  | cons n names ih =>
    rw [flatMap_cons, walk_append, walk_split_plain (h n (by simp)),
      ih (fun m hm => h m (by simp [hm])), append_assoc, singleton_append]

/-- Names made of plain components are installed inside the destination. -/
theorem install_inside_of_plain (hdest : dest ≠ []) {inflateRaw : Bytes → Nat → Option Bytes}
    {ok : Nat → Bool} {whl : Bytes}
    (hnames : ∀ n ∈ (install inflateRaw ok dest whl).1.names, ∀ c ∈ split n, Plain c) :
    ∀ op ∈ (install inflateRaw ok dest whl).1.ops, Confined cwd dest (resolve cwd op.place) := by
  refine (install_confined_iff hdest inflateRaw ok whl).2 fun n hn k => ?_
  have hparts : ∀ c ∈ (split n).take k, Plain c := fun c hc => hnames n hn c (mem_of_mem_take hc)
  have hsplit : (split n).take k = ((split n).take k).flatMap split := by
    have hself : ∀ cs : List Bytes, (∀ c ∈ cs, Plain c) → cs.flatMap split = cs := by
      intro cs hcs
      induction cs with
      | nil => rfl
      | cons c cs ih =>
        rw [flatMap_cons, split_of_not_mem (hcs c (by simp)).2.2.2,
          ih fun c' hc' => hcs c' (by simp [hc'])]
        rfl
    exact (hself _ hparts).symm
  rw [hsplit, walk_plain hparts]
  by_cases hnil : (split n).take k = []
  · rw [hnil, append_nil]
    exact Or.inl (onTheWay_self cwd dest)
  · exact Or.inr ⟨_, hnil, rfl⟩

/-! ### Names that are not -/

namespace Hostile

/-- A tree of one entry. -/
def tree (mode name : String) (o : PackObj) : PackObj :=
  .named .tree (ascii mode ++ 0x20 :: (ascii name ++ 0 :: o.sha.1))

def file : PackObj := .named .blob (ascii "x")

/-- A commit of a tree. -/
def commit (t : PackObj) : PackObj := .named .commit (ascii "tree " ++ hex20 t.sha ++ ascii "\n")

/-- A file in the directory `..`. -/
def above : List PackObj :=
  let inner := tree "100644" "x" file
  let root := tree "40000" ".." inner
  [commit root, root, inner, file]

def head (objs : List PackObj) : Bytes := (objs.head?.map fun o => hex20 o.sha).getD []

end Hostile

end EmbLinkOs.Git
