import EmbLinkOs.Embkfs.Listing
import EmbLinkOs.Lib.NormalPath

set_option autoImplicit false
set_option linter.unusedSectionVars false

/-! # Paths

`embkfs_normalize_path` collapses a path before it is walked, and `embkfs_path_walk_norm` walks it:
from a directory to a child by a lookup, and to the parent by a search through the whole tree for the
entry that names the directory. On a volume whose directories form a tree the two fit together: the
path as it was given and its normal form are walked to the same object (`normalize_path_ok`). -/

namespace EmbLinkOs.Embkfs

open Prog hiding bind

open List

open SortedMap Vol Paths

/-! ## Normalising -/

/-- `while (*s == '/') s++`. -/
def skipSlashes (s : List UInt8) : List UInt8 := s.dropWhile (· = slash)

/-- Bytes up to the next slash. -/
def nextComp (s : List UInt8) : List UInt8 := s.takeWhile (· ≠ slash)

/-- `parts[n] = comp; n++`, the last part first. -/
def pushPart (parts : List Name) (comp : Name) : Except Errno (List Name) :=
  if 256 ≤ parts.length then .error .einval else .ok (comp :: parts)

/-- What the loop does with a component. -/
def takeComp (abs : Bool) (parts : List Name) (comp : Name) : Except Errno (List Name) :=
  if comp = dot then .ok parts
  else if comp = dotDot then
    match parts with
    | [] => if !abs then pushPart parts comp else .ok parts
    | last :: rest =>
      if last ≠ dotDot then .ok rest else if !abs then pushPart parts comp else .ok parts
  else pushPart parts comp

/-- The loop over the components; each turn uses up a byte. -/
def collectParts (abs : Bool) : Nat → List UInt8 → List Name → Except Errno (List Name)
  | 0, _, parts => .ok parts
  | fuel + 1, s, parts =>
    if s = [] then .ok parts
    else if (nextComp s).length = 0 ∨ 255 < (nextComp s).length then .error .einval
    else do
      let parts ← takeComp abs parts (nextComp s)
      collectParts abs fuel (skipSlashes (s.drop (nextComp s).length)) parts

/-- The slash before a part, where something has been written; `out` is what has been written. -/
def emitSlash (abs : Bool) (outSz : Nat) (out : List UInt8) : Except Errno (List UInt8) :=
  if (abs = true ∧ 1 < out.length) ∨ (abs = false ∧ 0 < out.length) then
    if outSz ≤ out.length + 1 then .error .einval else .ok (out ++ [slash])
  else .ok out

/-- The loop over the parts. -/
def emitParts (abs : Bool) (outSz : Nat) : List Name → List UInt8 → Except Errno (List UInt8)
  | [], out => .ok out
  | part :: rest, out => do
    let out ← emitSlash abs outSz out
    if outSz ≤ out.length + part.length then .error .einval
    else emitParts abs outSz rest (out ++ part)

/-- The path starts with a slash. -/
def isAbs (path : List UInt8) : Bool := path.head? = some slash

/-- What is written before the parts. -/
def emitRoot (abs : Bool) (outSz : Nat) : Except Errno (List UInt8) :=
  if abs then if outSz ≤ 1 then .error .einval else .ok [slash] else .ok []

/-- `embkfs_normalize_path`. -/
def normalizePath (path : List UInt8) (outSz : Nat) : Except Errno (List UInt8) :=
  if outSz = 0 then .error .einval
  else do
    let parts ← collectParts (isAbs path) (path.length + 1) (skipSlashes path) []
    let out ← emitRoot (isAbs path) outSz
    let out ← emitParts (isAbs path) outSz parts.reverse out
    if out = [] then if outSz < 2 then .error .einval else .ok dot else .ok out

/-! ## Walking -/

/-- The record names the directory `child`. -/
def Dirent.namesDir (child : Nat) (r : Dirent) : Bool := r.type = dtDir && r.target = child

namespace Vol

variable [Checksum Payload]

/-- The leaf part of `embkfs_find_parent_dir_rec`. -/
def findParentLeaf (child : Nat) :
    List (Key × Payload) → Option Nat → Prog (Vol Payload) Errno (Option Nat)
  | [], found => pure found
  | e :: rest, found =>
    if found.isSome then pure found
    else if e.1.type ≠ typeDirEntry then findParentLeaf child rest found
    else match e.2.dirents? with
      | none => fail .einval
      | some ds =>
        findParentLeaf child rest (if ds.any (Dirent.namesDir child) then some e.1.objectId else found)

/-- The loop over the slots of an internal node. -/
def findParentSlots (f : BlockPtr → Option Nat → Prog (Vol Payload) Errno (Option Nat)) :
    List Slot → Option Nat → Prog (Vol Payload) Errno (Option Nat)
  | [], found => pure found
  | a :: rest, found =>
    if found.isSome then pure found
    else do
      let found ← f a.ptr found
      findParentSlots f rest found

/-- `embkfs_find_parent_dir_rec`. -/
def findParentDirRec (child : Nat) : Nat → BlockPtr → Option Nat → Prog (Vol Payload) Errno (Option Nat)
  | 0, _, _ => fail .einval
  | fuel + 1, p, found =>
    if found.isSome then pure found
    else do
      let n ← readNode p
      if n.level = 0 then findParentLeaf child n.items found
      else if n.slots.length = 0 ∨ maxSlots < n.slots.length then fail .einval
      else findParentSlots (findParentDirRec child fuel) n.slots found

/-- `embkfs_parent_dir_oid`. -/
def parentDirOid (child : Nat) : Prog (Vol Payload) Errno Nat :=
  if child = rootObjectId then pure rootObjectId
  else do
    let v ← Prog.get
    match ← findParentDirRec child treeFuel v.root none with
    | none => fail .enoent
    | some parent => pure parent

/-- What the walk does with a component. -/
def walkComp (cur : Nat) (comp : Name) : Prog (Vol Payload) Errno Nat :=
  if comp = dot then pure cur
  else if comp = dotDot then parentDirOid cur
  else lookup cur comp

/-- The loop of `embkfs_path_walk_norm`; each turn uses up a byte. -/
def walkLoop : Nat → List UInt8 → Nat → Prog (Vol Payload) Errno Nat
  | 0, _, _ => fail .einval
  | fuel + 1, s, cur =>
    if (nextComp s).length = 0 ∨ 255 < (nextComp s).length then fail .einval
    else do
      let cur ← walkComp cur (nextComp s)
      let s := skipSlashes (s.drop (nextComp s).length)
      if s = [] then pure cur else walkLoop fuel s cur

/-- `embkfs_path_walk_norm`. -/
def pathWalkNorm (start : Nat) (path : List UInt8) : Prog (Vol Payload) Errno Nat :=
  let cur := if isAbs path then rootObjectId else start
  if skipSlashes path = [] then pure cur else walkLoop (path.length + 1) (skipSlashes path) cur

end Vol

/-! ## Components as the loops see them -/

section

variable {s : List UInt8}

theorem skipSlashes_eq {c : UInt8} (hc : c ≠ slash) : skipSlashes (c :: s) = c :: s := by
  simp [skipSlashes, hc]

theorem parts_skipSlashes (s : List UInt8) : parts (skipSlashes s) = parts s := by
  induction s with
  | nil => rfl
  | cons c s ih =>
    by_cases hc : c = slash
    · rw [hc, parts_slash, ← ih]
      simp [skipSlashes]
    · rw [skipSlashes_eq hc]

theorem head_skipSlashes (s : List UInt8) : (skipSlashes s).head? ≠ some slash := by
  intro h
  have := head?_dropWhile_not (fun c => decide (c = slash)) s
  rw [show s.dropWhile (fun c => decide (c = slash)) = skipSlashes s from rfl, h] at this
  simp at this

theorem length_skipSlashes (s : List UInt8) : (skipSlashes s).length ≤ s.length :=
  (dropWhile_suffix _).length_le

theorem slash_notMem_nextComp (s : List UInt8) : slash ∉ nextComp s := by
  intro h
  simpa using mem_takeWhile_imp h

/-- Where the bytes do not start with a slash, the first component and the rest. -/
theorem parts_eq_cons (hs : s ≠ []) (hhead : s.head? ≠ some slash) :
    nextComp s ≠ [] ∧
      parts s = nextComp s :: parts (skipSlashes (s.drop (nextComp s).length)) := by
  obtain ⟨c, t, rfl⟩ := exists_cons_of_ne_nil hs
  have hc : c ≠ slash := by simpa using hhead
  have hne : nextComp (c :: t) ≠ [] := by simp [nextComp, hc]
  refine ⟨hne, ?_⟩
  have hsplit : c :: t = nextComp (c :: t) ++ (c :: t).dropWhile (· ≠ slash) :=
    (takeWhile_append_dropWhile).symm
  have hdrop : (c :: t).drop (nextComp (c :: t)).length = (c :: t).dropWhile (· ≠ slash) :=
    (congrArg (List.drop (nextComp (c :: t)).length) hsplit).trans drop_left
  rw [hdrop, parts_skipSlashes]
  have hcomp := slash_notMem_nextComp (c :: t)
  cases hrest : (c :: t).dropWhile (· ≠ slash) with
  | nil =>
    rw [hrest, append_nil] at hsplit
    rw [parts_nil, ← parts_of_not_mem hcomp hne, ← hsplit]
  | cons d u =>
    have hd : d = slash := by
      have := head?_dropWhile_not (fun c => decide (c ≠ slash)) (c :: t)
      rw [hrest] at this
      simpa using this
    rw [hrest, hd] at hsplit
    rw [hd, parts_slash]
    conv_lhs => rw [hsplit]
    rw [parts_append, parts_of_not_mem hcomp hne]
    rfl

theorem length_rest (hs : s ≠ []) (hhead : s.head? ≠ some slash) :
    (skipSlashes (s.drop (nextComp s).length)).length < s.length := by
  have hpos : 0 < (nextComp s).length := length_pos_of_ne_nil (parts_eq_cons hs hhead).1
  have hlen : 0 < s.length := length_pos_of_ne_nil hs
  have := length_skipSlashes (s.drop (nextComp s).length)
  rw [length_drop] at this
  omega

end

/-! ## The normal form -/

/-- What the loop does with a component, its length checked. -/
def takeChecked (abs : Bool) (st : List Name) (c : Name) : Except Errno (List Name) :=
  if 255 < c.length then .error .einval else takeComp abs st c

section

variable {abs : Bool} {st : List Name} {c : Name} {outSz : Nat}

theorem collectParts_eq {fuel : Nat} {s : List UInt8} (hfuel : s.length < fuel)
    (hhead : s.head? ≠ some slash) (st : List Name) :
    collectParts abs fuel s st = (parts s).foldlM (takeChecked abs) st := by
  induction fuel generalizing s st with
  | zero => omega
  | succ fuel ih =>
    rw [collectParts]
    split_ifs with hs hlen
    · rw [hs]
      rfl
    · obtain ⟨hne, hparts⟩ := parts_eq_cons hs hhead
      rw [hparts, foldlM_cons, takeChecked,
        if_pos (hlen.resolve_left fun h => hne (length_eq_zero_iff.1 h))]
      rfl
    · obtain ⟨-, hparts⟩ := parts_eq_cons hs hhead
      rw [hparts, foldlM_cons, takeChecked, if_neg (fun h => hlen (Or.inr h))]
      have hshort := length_rest hs hhead
      cases takeComp abs st (nextComp s) with
      | error e => rfl
      | ok st' => exact ih (by omega) (head_skipSlashes _) st'

/-- A component is collapsed, unless there is no room for it. -/
theorem takeComp_eq (h : st.length ≤ 256) (c : Name) :
    takeComp abs st c = if (collapse abs st c).length ≤ 256 then .ok (collapse abs st c) else .error .einval := by
  have hpush : pushPart st c = if (c :: st).length ≤ 256 then .ok (c :: st) else .error .einval := by
    unfold pushPart
    rw [length_cons]
    split_ifs <;> first | rfl | omega
  by_cases hdot : c = dot
  · simp [takeComp, collapse, hdot, h]
  by_cases hdd : c = dotDot
  · have hne : dotDot ≠ dot := by decide
    subst hdd
    cases st with
    | nil => cases abs <;> simp [takeComp, collapse, pushPart, hne]
    | cons top rest =>
      have hrest : rest.length ≤ 256 := by
        rw [length_cons] at h
        omega
      by_cases htop : top = dotDot
      · cases abs
        · simpa [takeComp, collapse, htop, hne] using htop ▸ hpush
        · simpa [takeComp, collapse, htop, hne] using h
      · simp [takeComp, collapse, htop, hne, hrest]
  · simpa [takeComp, collapse, hdot, hdd] using hpush

/-- The components that pass the checks are short, and leave the collapsed stack. -/
theorem foldlM_takeChecked_ok {cs st' : List Name} (h : st.length ≤ 256)
    (hok : cs.foldlM (takeChecked abs) st = .ok st') :
    (∀ c ∈ cs, c.length ≤ 255) ∧ st' = cs.foldl (collapse abs) st ∧ st'.length ≤ 256 := by
  induction cs generalizing st with
  | nil =>
    obtain rfl := Except.ok.inj hok
    exact ⟨by simp, rfl, h⟩
  | cons c cs ih =>
    rw [foldlM_cons, takeChecked] at hok
    by_cases hlong : 255 < c.length
    · rw [if_pos hlong] at hok
      cases hok
    rw [if_neg hlong, takeComp_eq h] at hok
    by_cases hroom : (collapse abs st c).length ≤ 256
    · rw [if_pos hroom] at hok
      obtain ⟨hcs, hst, hlen⟩ := ih hroom hok
      refine ⟨fun x hx => ?_, hst, hlen⟩
      rcases mem_cons.1 hx with rfl | hx
      · exact not_lt.1 hlong
      · exact hcs x hx
    · rw [if_neg hroom] at hok
      cases hok

/-- A collapsed stack of short components passes the checks again. -/
theorem foldlM_takeChecked_collapsed (h : Collapsed abs st) (hlen : st.length ≤ 256)
    (hshort : ∀ c ∈ st, c.length ≤ 255) : st.reverse.foldlM (takeChecked abs) [] = .ok st := by
  induction st with
  | nil => rfl
  | cons c st ih =>
    rw [length_cons] at hlen
    have hst : Collapsed abs st := by
      obtain ⟨names, k, hst, hnames, hk⟩ := h
      cases names with
      | nil =>
        cases k with
        | zero => cases hst
        | succ k =>
          rw [nil_append, replicate_succ, List.cons.injEq] at hst
          exact ⟨[], k, hst.2, by simp, fun ha => absurd (hk ha) (Nat.succ_ne_zero k)⟩
      | cons n names =>
        rw [cons_append, List.cons.injEq] at hst
        exact ⟨names, k, hst.2, fun x hx => hnames x (by simp [hx]), hk⟩
    have hall : collapse abs st c = c :: st := by
      have h₁ := h.foldl_reverse
      rw [reverse_cons, foldl_append, hst.foldl_reverse] at h₁
      exact h₁
    rw [reverse_cons, foldlM_append, ih hst (by omega) fun x hx => hshort x (by simp [hx])]
    show takeChecked abs st c >>= pure = _
    rw [takeChecked, if_neg (not_lt.2 (hshort c (by simp))), takeComp_eq (by omega), hall,
      if_pos (by rw [length_cons]; omega)]
    rfl

/-- The text of a path with these components. -/
def textOf (abs : Bool) (cs : List Name) : List UInt8 := (if abs then [slash] else []) ++ join cs

theorem textOf_concat {cs : List Name} (hne : cs ≠ []) (c : Name) :
    textOf abs (cs ++ [c]) = textOf abs cs ++ slash :: c := by
  rw [textOf, textOf, join_concat hne, append_assoc]

theorem length_textOf_append (abs : Bool) (cs ds : List Name) :
    (textOf abs cs).length ≤ (textOf abs (cs ++ ds)).length := by
  induction ds using List.reverseRecOn with
  | nil => simp
  | append_singleton ds d ih =>
    refine ih.trans ?_
    rw [← append_assoc]
    by_cases hne : cs ++ ds = []
    · rw [hne]
      simp [textOf, join]
    · rw [textOf_concat hne]
      simp

/-- Something has been written exactly when there was a part. -/
theorem emitSlash_textOf {cs : List Name} (hcs : ∀ c ∈ cs, c ≠ []) :
    emitSlash abs outSz (textOf abs cs) =
      if cs = [] then .ok (textOf abs cs)
      else if outSz ≤ (textOf abs cs).length + 1 then .error .einval
      else .ok (textOf abs cs ++ [slash]) := by
  unfold emitSlash
  by_cases h : cs = []
  · subst h
    cases abs <;> simp [textOf, join]
  · have hpos : 0 < (join cs).length := length_pos_of_ne_nil (join_ne_nil h hcs)
    rw [if_neg h, if_pos]
    cases abs <;> simp [textOf, hpos]

/-- The parts are written, if they fit. -/
theorem emitParts_eq (cs : List Name) {done : List Name} (hdone : ∀ c ∈ done, c ≠ [])
    (hcs : ∀ c ∈ cs, c ≠ []) (hroom : (textOf abs done).length < outSz) :
    emitParts abs outSz cs (textOf abs done) =
      if (textOf abs (done ++ cs)).length < outSz then .ok (textOf abs (done ++ cs))
      else .error .einval := by
  induction cs generalizing done with
  | nil => rw [append_nil, if_pos hroom, emitParts]
  | cons c cs ih =>
    have hdone' : ∀ x ∈ done ++ [c], x ≠ [] := by
      intro x hx
      rcases mem_append.1 hx with hx | hx
      · exact hdone x hx
      · rw [mem_singleton.1 hx]
        exact hcs c (by simp)
    have happ : done ++ c :: cs = done ++ [c] ++ cs := by simp
    have hgrow := length_textOf_append abs (done ++ [c]) cs
    have hrec := ih hdone' fun x hx => hcs x (by simp [hx])
    rw [emitParts, emitSlash_textOf hdone, happ]
    by_cases hempty : done = []
    · subst hempty
      have htext : textOf abs [] ++ c = textOf abs ([] ++ [c]) := by simp [textOf, join]
      rw [if_pos rfl]
      show (if outSz ≤ (textOf abs []).length + c.length then _ else _) = _
      have hlen : (textOf abs [] ++ c).length = (textOf abs []).length + c.length := length_append
      rw [htext] at hlen ⊢
      rw [← hlen]
      split_ifs with hfull hfit hfit
      · omega
      · rfl
      · rw [hrec (by omega), if_pos hfit]
      · rw [hrec (by omega), if_neg hfit]
    · have htext : textOf abs (done ++ [c]) = textOf abs done ++ slash :: c := textOf_concat hempty c
      have hlen : (textOf abs (done ++ [c])).length = (textOf abs done).length + 1 + c.length := by
        rw [htext, length_append, length_cons]
        omega
      rw [if_neg hempty]
      by_cases hfull : outSz ≤ (textOf abs done).length + 1
      · rw [if_pos hfull, if_neg (by omega)]
        rfl
      · rw [if_neg hfull]
        show (if outSz ≤ (textOf abs done ++ [slash]).length + c.length then _ else _) = _
        have hsep : (textOf abs done ++ [slash]).length + c.length = (textOf abs (done ++ [c])).length := by
          rw [hlen, length_append]
          rfl
        have hput : textOf abs done ++ [slash] ++ c = textOf abs (done ++ [c]) := by
          rw [htext, append_assoc]
          rfl
        rw [hsep, hput]
        split_ifs with hfull' hfit hfit
        · omega
        · rfl
        · rw [hrec (by omega), if_pos hfit]
        · rw [hrec (by omega), if_neg hfit]

/-- What `embkfs_normalize_path` writes for a stack of parts. -/
def normalText (abs : Bool) (cs : List Name) : List UInt8 :=
  if textOf abs cs = [] then dot else textOf abs cs

theorem emitRoot_eq (hsz : outSz ≠ 0) :
    emitRoot abs outSz
      = if (textOf abs []).length < outSz then .ok (textOf abs []) else .error .einval := by
  have hone : outSz ≤ 1 ↔ ¬1 < outSz := not_lt.symm
  cases abs
  · simp [emitRoot, textOf, join, Nat.pos_of_ne_zero hsz]
  · by_cases h : 1 < outSz
    · simp [emitRoot, textOf, join, h]
    · simp [emitRoot, textOf, join, h, hone]

/-- What the loops leave for a path. -/
theorem collapsed_of_takeChecked {path : List UInt8}
    (hst : (parts path).foldlM (takeChecked abs) [] = .ok st) :
    Collapsed abs st ∧ st.length ≤ 256 ∧ (∀ c ∈ parts path, c.length ≤ 255) ∧
      st = (parts path).foldl (collapse abs) [] := by
  obtain ⟨hshort, rfl, hlen⟩ := foldlM_takeChecked_ok (by simp) hst
  exact ⟨collapsed_nil.foldl fun c hc => plain_of_mem_parts hc, hlen, hshort, rfl⟩

theorem normalText_length_lt {cs : List Name} (hsz : outSz ≠ 0) :
    (normalText abs cs).length < outSz → (textOf abs cs).length < outSz := by
  unfold normalText
  split_ifs with h
  · intro _
    rw [h]
    exact Nat.pos_of_ne_zero hsz
  · exact id

theorem normalizePath_eq_ok {path q : List UInt8} :
    normalizePath path outSz = .ok q ↔
      ∃ st, (parts path).foldlM (takeChecked (isAbs path)) [] = .ok st ∧
        q = normalText (isAbs path) st.reverse ∧ q.length < outSz := by
  have hcollect : collectParts (isAbs path) (path.length + 1) (skipSlashes path) []
      = (parts path).foldlM (takeChecked (isAbs path)) [] := by
    rw [collectParts_eq (Nat.lt_succ_of_le (length_skipSlashes path)) (head_skipSlashes path),
      parts_skipSlashes]
  unfold normalizePath
  by_cases hsz : outSz = 0
  · simp [hsz]
  rw [if_neg hsz, hcollect]
  cases hst : (parts path).foldlM (takeChecked (isAbs path)) [] with
  | error e => simp [bind, Except.bind]
  | ok st =>
    have hne : ∀ c ∈ st.reverse, c ≠ [] := fun c hc =>
      (collapsed_of_takeChecked hst).1.ne_nil (mem_reverse.1 hc)
    simp only [bind, Except.bind, emitRoot_eq hsz, Except.ok.injEq, exists_eq_left']
    by_cases hroot : (textOf (isAbs path) []).length < outSz
    · rw [if_pos hroot]
      simp only [@emitParts_eq _ _ st.reverse [] (by simp) hne hroot, nil_append]
      by_cases hfit : (textOf (isAbs path) st.reverse).length < outSz
      · rw [if_pos hfit]
        dsimp only
        by_cases hempty : textOf (isAbs path) st.reverse = []
        · rw [if_pos hempty, normalText, if_pos hempty]
          by_cases htwo : outSz < 2
          · rw [if_pos htwo]
            refine ⟨fun h => (by cases h), ?_⟩
            rintro ⟨rfl, hlt⟩
            have hone : dot.length = 1 := rfl
            omega
          · rw [if_neg htwo]
            refine ⟨fun h => ?_, fun h => congrArg _ h.1.symm⟩
            obtain rfl := Except.ok.inj h
            exact ⟨rfl, by have hone : dot.length = 1 := rfl; omega⟩
        · rw [if_neg hempty, normalText, if_neg hempty]
          refine ⟨fun h => ?_, fun h => congrArg _ h.1.symm⟩
          obtain rfl := Except.ok.inj h
          exact ⟨rfl, hfit⟩
      · rw [if_neg hfit]
        dsimp only
        refine ⟨fun h => (by cases h), ?_⟩
        rintro ⟨rfl, hlt⟩
        exact absurd (normalText_length_lt hsz hlt) hfit
    · rw [if_neg hroot]
      dsimp only
      refine ⟨fun h => (by cases h), ?_⟩
      rintro ⟨rfl, hlt⟩
      exact absurd (lt_of_le_of_lt (length_textOf_append _ [] st.reverse)
        (normalText_length_lt hsz hlt)) hroot

end

/-! ## What the normal form is -/

section

variable {abs : Bool} {st : List Name} (h : Collapsed abs st)

include h

/-- The normal form starts with a slash if the path did, and its components are those of the stack, or
    the one dot. -/
theorem normalText_spec :
    isAbs (normalText abs st.reverse) = abs ∧
      (parts (normalText abs st.reverse) = st.reverse ∨
        (abs = false ∧ st = [] ∧ normalText abs st.reverse = dot)) := by
  have hne : ∀ c ∈ st.reverse, c ≠ [] := fun c hc => h.ne_nil (mem_reverse.1 hc)
  have hno : ∀ c ∈ st.reverse, slash ∉ c := fun c hc => h.slash_notMem (mem_reverse.1 hc)
  cases abs with
  | true =>
    have htext : normalText true st.reverse = slash :: join st.reverse := by
      simp [normalText, textOf]
    rw [htext, parts_slash, parts_join hne hno]
    exact ⟨by simp [isAbs], Or.inl rfl⟩
  | false =>
    by_cases hst : st = []
    · subst hst
      exact ⟨by decide, Or.inr ⟨rfl, rfl, rfl⟩⟩
    · have hjoin : join st.reverse ≠ [] := join_ne_nil (by simpa using hst) hne
      have htext : normalText false st.reverse = join st.reverse := by
        simp [normalText, textOf, hjoin]
      rw [htext, parts_join hne hno]
      exact ⟨by simp [isAbs, head_join hne hno], Or.inl rfl⟩

/-- The normal form goes through the loops unchanged. -/
theorem takeChecked_normalText (hlen : st.length ≤ 256) (hshort : ∀ c ∈ st, c.length ≤ 255) :
    (parts (normalText abs st.reverse)).foldlM (takeChecked abs) [] = .ok st := by
  rcases (normalText_spec h).2 with hparts | ⟨rfl, rfl, htext⟩
  · rw [hparts]
    exact foldlM_takeChecked_collapsed h hlen hshort
  · rw [htext]
    rfl

end

section

variable {st : List Name}

/-- The components of an absolute normal form, after its slash. -/
theorem split_of_abs (h : Collapsed true st) :
    ∃ rest, normalText true st.reverse = slash :: rest ∧ (rest = [] ∨ ∀ c ∈ split rest, Plain c) := by
  have htext : normalText true st.reverse = slash :: join st.reverse := by
    simp [normalText, textOf]
  refine ⟨_, htext, ?_⟩
  by_cases hst : st = []
  · exact Or.inl (by rw [hst]; rfl)
  · right
    have hno : ∀ c ∈ st.reverse, slash ∉ c := fun c hc => h.slash_notMem (mem_reverse.1 hc)
    rw [split_join (by simpa using hst) hno]
    obtain ⟨names, k, rfl, hnames, hk⟩ := h
    obtain rfl := hk rfl
    simpa using hnames

/-- The components of a relative normal form. -/
theorem split_of_rel (h : Collapsed false st) :
    normalText false st.reverse = dot ∨ ∃ (k : Nat) (names : List Name),
      split (normalText false st.reverse) = List.replicate k dotDot ++ names ∧ ∀ c ∈ names, Plain c := by
  by_cases hst : st = []
  · left
    rw [hst]
    rfl
  · right
    have hne : ∀ c ∈ st.reverse, c ≠ [] := fun c hc => h.ne_nil (mem_reverse.1 hc)
    have hno : ∀ c ∈ st.reverse, slash ∉ c := fun c hc => h.slash_notMem (mem_reverse.1 hc)
    have hjoin : join st.reverse ≠ [] := join_ne_nil (by simpa using hst) hne
    have htext : normalText false st.reverse = join st.reverse := by
      simp [normalText, textOf, hjoin]
    rw [htext, split_join (by simpa using hst) hno]
    obtain ⟨names, k, rfl, hnames, -⟩ := h
    exact ⟨k, names.reverse, by simp, by simpa using hnames⟩

end

/-! ## Walking over a readable volume -/

section

variable [Checksum Payload] {v : Vol Payload} {its : List (Key × Payload)}

/-- The item holds a record that names the directory `child`. -/
def pointsTo (child : Nat) (e : Key × Payload) : Bool :=
  e.1.type = typeDirEntry && ((e.2.dirents?).getD []).any (Dirent.namesDir child)

/-- The directory of the first record that names the directory `child`. -/
def parentOf (its : List (Key × Payload)) (child : Nat) : Option Nat :=
  (its.find? (pointsTo child)).map fun e => e.1.objectId

theorem findParentLeaf_some (child d : Nat) (part : List (Key × Payload)) (v : Vol Payload) :
    findParentLeaf child part (some d) v = (.ok (some d), v) := by
  cases part <;> rfl

theorem findParentLeaf_eq (child : Nat) {part : List (Key × Payload)}
    (hG : ∀ e ∈ part, e.1.type = typeDirEntry → ∃ ds, e.2.dirents? = some ds) (v : Vol Payload) :
    findParentLeaf child part none v = (.ok (parentOf part child), v) := by
  induction part with
  | nil => rfl
  | cons e rest ih =>
    have hrest := ih fun x hx => hG x (by simp [hx])
    rw [findParentLeaf, if_neg (by simp)]
    by_cases hty : e.1.type = typeDirEntry
    · obtain ⟨ds, hds⟩ := hG e (by simp) hty
      rw [if_neg (not_not.2 hty)]
      simp only [hds]
      by_cases hany : ds.any (Dirent.namesDir child) = true
      · rw [if_pos hany, findParentLeaf_some]
        simp [parentOf, pointsTo, hty, hds, hany]
      · rw [if_neg hany, hrest]
        simp [parentOf, pointsTo, hty, hds, hany]
    · rw [if_pos hty, hrest]
      simp [parentOf, pointsTo, hty]

theorem parentOf_append (a b : List (Key × Payload)) (child : Nat) :
    parentOf (a ++ b) child = (parentOf a child).or (parentOf b child) := by
  unfold parentOf
  rw [find?_append]
  cases a.find? (pointsTo child) <;> rfl

theorem findParentSlots_some (f : BlockPtr → Option Nat → Prog (Vol Payload) Errno (Option Nat)) (d : Nat)
    (slots : List Slot) (v : Vol Payload) :
    findParentSlots f slots (some d) v = (.ok (some d), v) := by
  cases slots <;> rfl

theorem findParentSlots_eq {child : Nat}
    {f : BlockPtr → Option Nat → Prog (Vol Payload) Errno (Option Nat)} {kids : List (Sub Payload)}
    (hf : ∀ k ∈ kids, f k.slot.ptr none v = (.ok (parentOf k.items child), v)) :
    findParentSlots f (kids.map Sub.slot) none v = (.ok (parentOf (subItems kids) child), v) := by
  induction kids with
  | nil => rfl
  | cons k kids ih =>
    rw [map_cons, findParentSlots, if_neg (by simp), bind_run (hf k (by simp)), subItems_cons,
      parentOf_append]
    cases parentOf k.items child with
    | none => exact ih fun x hx => hf x (by simp [hx])
    | some d => exact findParentSlots_some f d _ v

/-- The search finds the first record there is. -/
theorem findParentDirRec_eq (ht : v.dev.readTape = []) (hfb : v.FallbackOk) (child : Nat)
    {fuel l : Nat} (hfuel : l < fuel) {p : BlockPtr} {bs : List Nat}
    (hw : WellFormed v.dev.view l p its bs) (hslot : Slotted v.dev.view l p)
    (hG : ∀ e ∈ its, e.1.type = typeDirEntry → ∃ ds, e.2.dirents? = some ds) :
    findParentDirRec child fuel p none v = (.ok (parentOf its child), v) := by
  induction l generalizing fuel p its bs with
  | zero =>
    obtain ⟨fuel, rfl⟩ := Nat.exists_eq_succ_of_ne_zero (Nat.ne_zero_of_lt hfuel)
    obtain ⟨n, hn, hlev, rfl, -, -⟩ := hw
    rw [findParentDirRec, if_neg (by simp), bind_run (readNode_eq ht hn hfb), if_pos hlev]
    exact findParentLeaf_eq child hG v
  | succ l ih =>
    obtain ⟨fuel, rfl⟩ := Nat.exists_eq_succ_of_ne_zero (Nat.ne_zero_of_lt hfuel)
    obtain ⟨n, hn, hlev, kids, hslots, hkids, rfl, -⟩ := hw
    obtain ⟨n', hn', hmin, hmax, hslot'⟩ := hslot
    obtain rfl := nodeAt_unique hn hn'
    rw [findParentDirRec, if_neg (by simp), bind_run (readNode_eq ht hn hfb), if_neg (by omega),
      if_neg (by omega), hslots]
    refine findParentSlots_eq fun k hk => ih (by omega) (hkids k hk).1 (hslot' k.slot ?_)
      fun e he => hG e (mem_subItems.2 ⟨k, hk, he⟩)
    rw [hslots]
    exact mem_map_of_mem hk

theorem Vol.Readable.parentDirOid_eq (h : v.Readable its) (child : Nat) :
    parentDirOid child v =
      (if child = rootObjectId then .ok rootObjectId
        else (parentOf its child).elim (.error .enoent) .ok, v) := by
  obtain ⟨l, bs, hl, hw, hslot⟩ := h.shape
  have hG : ∀ e ∈ its, e.1.type = typeDirEntry → ∃ ds, e.2.dirents? = some ds := fun e he hty => by
    obtain ⟨ds, hds, -⟩ := h.names.filed e he hty
    exact ⟨ds, hds⟩
  unfold parentDirOid
  split_ifs with hroot
  · rfl
  · simp only [bind, Prog.bind, Prog.get, findParentDirRec_eq h.tape h.fallback child hl hw hslot hG]
    cases parentOf its child <;> rfl

/-- A lookup in what is not a directory fails. -/
theorem Vol.Readable.lookup_of_not_isDir (h : v.Readable its) {dir : Nat} (hd : ¬IsDir its dir)
    (name : Name) : ∃ e, lookup dir name v = (.error e, v) := by
  simp only [lookup, readInode, bind, Prog.bind, h.findItem_eq]
  cases hf : find (inodeKey dir) its with
  | none => exact ⟨_, rfl⟩
  | some x =>
    cases hx : x.inode? with
    | none =>
      simp only [hx]
      exact ⟨_, rfl⟩
    | some i =>
      have hfmt : i.fmt ≠ modeDir := fun hfmt => hd ⟨i, by simp [inodeOf, hf, hx], hfmt⟩
      simp only [hx, pure, if_pos hfmt]
      exact ⟨_, rfl⟩

/-- A lookup changes nothing. -/
theorem Vol.Readable.lookup_snd (h : v.Readable its) (dir : Nat) (name : Name) :
    (lookup dir name v).2 = v := by
  by_cases hd : IsDir its dir
  · rw [h.lookup_eq hd]
  · obtain ⟨e, he⟩ := h.lookup_of_not_isDir hd name
    rw [he]

/-- Children by name and parents, as the walk finds them. -/
def childIn (v : Vol Payload) (o : Nat) (c : Name) : Except Errno Nat := (lookup o c v).1

def parentIn (v : Vol Payload) (o : Nat) : Except Errno Nat := (parentDirOid o v).1

theorem Vol.Readable.walkComp_eq (h : v.Readable its) (cur : Nat) (c : Name) :
    walkComp cur c v = (advance (childIn v) (parentIn v) cur c, v) := by
  unfold walkComp advance
  split_ifs
  · rfl
  · refine Prod.ext rfl ?_
    rw [h.parentDirOid_eq]
  · exact Prod.ext rfl (h.lookup_snd cur c)

/-- The loop follows the components. -/
theorem Vol.Readable.walkLoop_eq (h : v.Readable its) {fuel : Nat} {s : List UInt8}
    (hfuel : s.length < fuel) (hs : s ≠ []) (hhead : s.head? ≠ some slash)
    (hshort : ∀ c ∈ parts s, c.length ≤ 255) (cur : Nat) :
    walkLoop fuel s cur v = (follow (childIn v) (parentIn v) cur (parts s), v) := by
  induction fuel generalizing s cur with
  | zero => omega
  | succ fuel ih =>
    obtain ⟨hne, hparts⟩ := parts_eq_cons hs hhead
    have hrest := length_rest hs hhead
    have hlen := hshort (nextComp s) (by rw [hparts]; simp)
    rw [walkLoop, if_neg, hparts, follow]
    · simp only [bind, Prog.bind, h.walkComp_eq]
      cases advance (childIn v) (parentIn v) cur (nextComp s) with
      | error e => rfl
      | ok cur' =>
        show (if _ then _ else _ : Prog (Vol Payload) Errno Nat) v = _
        split_ifs with hend
        · rw [hend]
          rfl
        · refine ih (by omega) hend (head_skipSlashes _) (fun c hc => hshort c ?_) cur'
          rw [hparts]
          exact mem_cons_of_mem _ hc
    · rintro (h₀ | hlong)
      · exact hne (length_eq_zero_iff.1 h₀)
      · omega

theorem Vol.Readable.pathWalkNorm_eq (h : v.Readable its) (start : Nat) {path : List UInt8}
    (hshort : ∀ c ∈ parts path, c.length ≤ 255) :
    pathWalkNorm start path v =
      (follow (childIn v) (parentIn v) (if isAbs path then rootObjectId else start) (parts path), v) := by
  rw [← parts_skipSlashes path] at hshort ⊢
  unfold pathWalkNorm
  split_ifs with hs
  · rw [hs]
    rfl
  · rw [hs]
    rfl
  · exact h.walkLoop_eq (Nat.lt_succ_of_le (length_skipSlashes path)) hs (head_skipSlashes path) hshort _
  · exact h.walkLoop_eq (Nat.lt_succ_of_le (length_skipSlashes path)) hs (head_skipSlashes path) hshort _

/-- The directories form a tree: the records of directories say so, no directory has records in two,
    and the root has none. -/
structure DirTree (its : List (Key × Payload)) : Prop where
  typed : ∀ dir, ∀ r ∈ entriesOf its dir, (r.type = dtDir ↔ IsDir its r.target)
  single : ∀ dir dir', ∀ r ∈ entriesOf its dir, ∀ r' ∈ entriesOf its dir',
    r.target = r'.target → IsDir its r.target → dir = dir'
  noRoot : ∀ dir, ∀ r ∈ entriesOf its dir, r.target ≠ rootObjectId

/-- The first record of a directory is in the directory that has it. -/
theorem DirTree.parentOf_eq (ht : DirTree its) {dir : Nat} {r : Dirent} (hr : r ∈ entriesOf its dir)
    (hd : IsDir its r.target) : parentOf its r.target = some dir := by
  obtain ⟨e, he, hdir, hty, ds, hds, hmem⟩ := mem_entriesOf.1 hr
  have hpoints : pointsTo r.target e = true := by
    simp only [pointsTo, hty, hds, Option.getD_some, decide_true, Bool.true_and, any_eq_true]
    exact ⟨r, hmem, by simp [Dirent.namesDir, (ht.typed dir r hr).2 hd]⟩
  unfold parentOf
  cases hfind : its.find? (pointsTo r.target) with
  | none => exact absurd hpoints (find?_eq_none.1 hfind e he)
  | some e' =>
    have hp := find?_some hfind
    simp only [pointsTo, Bool.and_eq_true, decide_eq_true_eq, any_eq_true] at hp
    obtain ⟨hty', r', hr', hnames⟩ := hp
    cases hds' : e'.2.dirents? with
    | none => simp [hds'] at hr'
    | some ds' =>
      rw [hds', Option.getD_some] at hr'
      simp only [Dirent.namesDir, Bool.and_eq_true, decide_eq_true_eq] at hnames
      have hmem' : r' ∈ entriesOf its e'.1.objectId :=
        mem_entriesOf.2 ⟨e', mem_of_find?_eq_some hfind, rfl, hty', ds', hds', hr'⟩
      exact congrArg some (ht.single _ _ r' hmem' r hr hnames.2 (hnames.2 ▸ hd))

/-- From a child that is a directory the way back is the way it was entered. -/
theorem Vol.Readable.parentIn_eq (h : v.Readable its) (ht : DirTree its) {o o' : Nat} {c : Name}
    (hchild : childIn v o c = .ok o') (hd : IsDir its o') : parentIn v o' = .ok o := by
  have ho : IsDir its o := by
    by_contra hno
    obtain ⟨e, he⟩ := h.lookup_of_not_isDir hno c
    rw [childIn, he] at hchild
    cases hchild
  obtain ⟨r, hr, -, rfl⟩ := (h.lookup_eq_ok ho).1 hchild
  rw [parentIn, h.parentDirOid_eq, if_neg (ht.noRoot o r hr), ht.parentOf_eq hr hd]
  rfl

/-- The path and what its components collapse to are followed to the same object. -/
theorem Vol.Readable.follow_parts (h : v.Readable its) (ht : DirTree its) {start : Nat}
    {path : List UInt8}
    (hthrough : Through (childIn v) (parentIn v) (IsDir its)
      (if isAbs path then rootObjectId else start) (parts path)) :
    follow (childIn v) (parentIn v) (if isAbs path then rootObjectId else start) (parts path)
      = follow (childIn v) (parentIn v) (if isAbs path then rootObjectId else start)
        ((parts path).foldl (collapse (isAbs path)) []).reverse := by
  refine follow_collapsed (fun o c o' => h.parentIn_eq ht) (fun habs => ?_)
    (fun c hc => plain_of_mem_parts hc) hthrough
  rw [if_pos habs, parentIn, h.parentDirOid_eq, if_pos rfl]

end

/-- **Normalisation.** What `embkfs_normalize_path` gives fits the buffer and is its own normal form.
    It is absolute as the path was; if it is, all its components are names, and if not, the components
    up to the first name are `..` and the rest names, or it is the one dot. And from any start, on a
    volume whose directories form a tree, it is walked to where the path as given is, as long as that
    goes through directories. -/
theorem normalize_path_ok {path q : List UInt8} {outSz : Nat} (h : normalizePath path outSz = .ok q) :
    q.length < outSz ∧ (∀ sz, q.length < sz → normalizePath q sz = .ok q) ∧ isAbs q = isAbs path ∧
      (isAbs q = true → ∃ rest, q = slash :: rest ∧ (rest = [] ∨ ∀ c ∈ split rest, Plain c)) ∧
      (isAbs q = false → q = dot ∨ ∃ (k : Nat) (names : List Name),
        split q = List.replicate k dotDot ++ names ∧ ∀ c ∈ names, Plain c) ∧
      ∀ [Checksum Payload] (v : Vol Payload) (its : List (Key × Payload)) (start : Nat),
        v.Readable its → DirTree its →
        Through (childIn v) (parentIn v) (IsDir its) (if isAbs path then rootObjectId else start)
          (parts path) →
        pathWalkNorm start path v = pathWalkNorm start q v := by
  obtain ⟨st, hst, rfl, hlt⟩ := normalizePath_eq_ok.1 h
  obtain ⟨hcol, hlen, hshort, hfold⟩ := collapsed_of_takeChecked hst
  obtain ⟨habs, hparts⟩ := normalText_spec hcol
  have hshort' : ∀ c ∈ st, c.length ≤ 255 := by
    intro c hc
    rw [hfold] at hc
    exact hshort c ((mem_foldl_collapse hc).resolve_left (by simp))
  refine ⟨hlt, fun sz hsz => ?_, habs, fun hq => ?_, fun hq => ?_, ?_⟩
  · rw [normalizePath_eq_ok, habs]
    exact ⟨st, takeChecked_normalText hcol hlen hshort', rfl, hsz⟩
  · rw [habs] at hq
    rw [hq] at hcol ⊢
    exact split_of_abs hcol
  · rw [habs] at hq
    rw [hq] at hcol ⊢
    exact split_of_rel hcol
  · intro _ v its start hv ht hthrough
    rw [hv.pathWalkNorm_eq start hshort, hv.follow_parts ht hthrough, ← hfold, hv.pathWalkNorm_eq, habs]
    · rcases hparts with hp | ⟨-, rfl, hdot⟩
      · rw [hp]
      · rw [hdot]
        rfl
    · intro c hc
      rcases hparts with hp | ⟨-, rfl, hdot⟩
      · rw [hp] at hc
        exact hshort' c (mem_reverse.1 hc)
      · rw [hdot] at hc
        have hdots : ∀ c ∈ parts dot, c.length ≤ 255 := by decide
        exact hdots c hc

/-- The root directory with the directory `d` that has the file `f`. -/
def oneDir : List (Key × Payload) :=
  [(inodeKey 1, .inode (sampleInode (modeDir ||| permDir) 3 0)),
    (direntKey 1 [100], .dirents [⟨2, dtDir, [100]⟩]),
    (inodeKey 2, .inode (sampleInode (modeDir ||| permDir) 2 0)),
    (direntKey 2 [102], .dirents [⟨3, dtReg, [102]⟩]),
    (inodeKey 3, .inode (sampleInode (modeReg ||| permFile) 1 0))]

theorem readable_oneDir [Checksum Payload] [Cipher] : (leafVol 0 oneDir).Readable oneDir := by
  refine ⟨rfl, fun h => absurd rfl h, ⟨0, [20], by decide, ?_, trivial⟩, by decide +kernel, ?_, ?_⟩
  · exact ⟨leafNode oneDir, nodeAt_leafVol 0 oneDir, rfl, rfl, by decide +kernel, rfl⟩
  all_goals
    intro e he
    simp only [oneDir, mem_cons, not_mem_nil, or_false] at he
    rcases he with rfl | rfl | rfl | rfl | rfl
  all_goals first
    | exact fun hty => absurd hty (by decide)
    | exact fun _ => ⟨_, rfl, by decide +kernel⟩
    | exact fun ds hd => by simp [← Option.some.inj hd]
    | exact fun ds hd => by cases hd

theorem entriesOf_oneDir {dir : Nat} {r : Dirent} (hr : r ∈ entriesOf oneDir dir) :
    dir = 1 ∧ r = ⟨2, dtDir, [100]⟩ ∨ dir = 2 ∧ r = ⟨3, dtReg, [102]⟩ := by
  obtain ⟨e, he, hdir, hty, ds, hds, hmem⟩ := mem_entriesOf.1 hr
  simp only [oneDir, mem_cons, not_mem_nil, or_false] at he
  rcases he with rfl | rfl | rfl | rfl | rfl
  all_goals first
    | exact absurd hty (by decide)
    | obtain rfl := Option.some.inj hds
      obtain rfl := mem_singleton.1 hmem
      subst hdir
      decide

theorem isDir_oneDir : IsDir oneDir 1 ∧ IsDir oneDir 2 ∧ ¬IsDir oneDir 3 := by
  refine ⟨⟨_, rfl, by decide⟩, ⟨_, rfl, by decide⟩, ?_⟩
  rintro ⟨i, hi, hfmt⟩
  obtain rfl := Option.some.inj hi
  exact absurd hfmt (by decide)

theorem dirTree_oneDir : DirTree oneDir := by
  obtain ⟨-, htwo, hthree⟩ := isDir_oneDir
  refine ⟨fun dir r hr => ?_, fun dir dir' r hr r' hr' heq hd => ?_, fun dir r hr => ?_⟩
  · rcases entriesOf_oneDir hr with ⟨-, rfl⟩ | ⟨-, rfl⟩
    · exact ⟨fun _ => htwo, fun _ => rfl⟩
    · exact ⟨fun h => absurd h (by decide), fun h => absurd h hthree⟩
  · rcases entriesOf_oneDir hr with ⟨rfl, rfl⟩ | ⟨rfl, rfl⟩
    · rcases entriesOf_oneDir hr' with ⟨rfl, rfl⟩ | ⟨rfl, rfl⟩
      · rfl
      · exact absurd heq (by decide)
    · exact absurd hd hthree
  · rcases entriesOf_oneDir hr with ⟨-, rfl⟩ | ⟨-, rfl⟩ <;> decide

/-- `d/../d/./f` is `d/f`, and from the root both lead to `f`. -/
theorem normalize_path_ok_oneDir : Anyhow fun _ _ =>
    normalizePath [100, 47, 46, 46, 47, 100, 47, 46, 47, 102] 16 = .ok [100, 47, 102] ∧
      pathWalkNorm 1 [100, 47, 46, 46, 47, 100, 47, 46, 47, 102] (leafVol 0 oneDir)
        = pathWalkNorm 1 [100, 47, 102] (leafVol 0 oneDir) ∧
      (pathWalkNorm 1 [100, 47, 102] (leafVol 0 oneDir)).1 = .ok 3 := by
  intro _ _
  have hok : normalizePath [100, 47, 46, 46, 47, 100, 47, 46, 47, 102] 16 = .ok [100, 47, 102] := by
    decide +kernel
  obtain ⟨hone, htwo, -⟩ := isDir_oneDir
  refine ⟨hok, ?_, by cbv⟩
  refine (normalize_path_ok hok).2.2.2.2.2 _ _ 1 readable_oneDir dirTree_oneDir fun k hk => ?_
  have hk' : k < 5 := hk
  interval_cases k
  · exact ⟨1, by cbv, hone⟩
  · exact ⟨2, by cbv, htwo⟩
  · exact ⟨1, by cbv, hone⟩
  · exact ⟨2, by cbv, htwo⟩
  · exact ⟨2, by cbv, htwo⟩

end EmbLinkOs.Embkfs
