import Mathlib

set_option autoImplicit false

/-! # Where a path leads

A path is a byte string; its components are what stands between its slashes. Without symbolic links
a path leads, from the directory a process works in, to a *location*: the names on the way from the
root. `walk` follows components one at a time, `resolve` a whole path, and `resolve_join` says that
a path put together from a directory and a name leads where the name leads from the directory. -/

namespace Paths

open List

abbrev Name := List UInt8

/-- The names on the way from the root. -/
abbrev Location := List Name

def slash : UInt8 := 0x2F

def dot : Name := [0x2E]

def dotDot : Name := [0x2E, 0x2E]

/-- The components of a path, empty ones included. -/
def split : List UInt8 → List Name
  | [] => [[]]
  | c :: cs =>
    if c = slash then [] :: split cs
    else
      match split cs with
      | [] => [[c]]
      | p :: ps => (c :: p) :: ps

/-- Following one component. -/
def enter (l : Location) (c : Name) : Location :=
  if c = [] ∨ c = dot then l else if c = dotDot then l.dropLast else l ++ [c]

/-- Following components in order. -/
def walk (l : Location) (cs : List Name) : Location := cs.foldl enter l

/-- Where a path is followed from. -/
def start (cwd : Location) (p : List UInt8) : Location := if p.head? = some slash then [] else cwd

/-- The location a path leads to for a process that works in `cwd`. -/
def resolve (cwd : Location) (p : List UInt8) : Location := walk (start cwd p) (split p)

@[simp] theorem walk_nil (l : Location) : walk l [] = l := rfl

theorem walk_append (l : Location) (a b : List Name) : walk l (a ++ b) = walk (walk l a) b :=
  foldl_append

theorem split_ne_nil (p : List UInt8) : split p ≠ [] := by
  cases p with
  | nil => simp [split]
  | cons c cs =>
    rw [split]
    split
    · simp
    · split <;> simp

theorem split_cons {c : UInt8} (hc : c ≠ slash) {cs : List UInt8} {p : Name} {ps : List Name}
    (h : split cs = p :: ps) : split (c :: cs) = (c :: p) :: ps := by
  rw [split, if_neg hc, h]

/-- A slash ends a component. -/
theorem split_append (p q : List UInt8) : split (p ++ slash :: q) = split p ++ split q := by
  induction p with
  | nil => simp [split]
  | cons c p ih =>
    by_cases hc : c = slash
    · rw [cons_append, hc, split, if_pos rfl, ih, split, if_pos rfl, cons_append]
    · obtain ⟨n, ns, hn⟩ := exists_cons_of_ne_nil (split_ne_nil p)
      rw [hn, cons_append] at ih
      rw [cons_append, split_cons hc ih, split_cons hc hn, cons_append]

theorem split_of_not_mem {n : Name} (h : slash ∉ n) : split n = [n] := by
  induction n with
  | nil => rfl
  | cons c n ih =>
    rw [mem_cons, not_or] at h
    exact split_cons (Ne.symm h.1) (ih h.2)

/-- The first components of a path are those of the part before one of its slashes. -/
theorem take_split {p : List UInt8} {k : Nat} (hk : 0 < k) (hlt : k < (split p).length) :
    ∃ q r, p = q ++ slash :: r ∧ split q = (split p).take k := by
  induction p generalizing k with
  | nil =>
    rw [split, length_singleton] at hlt
    omega
  | cons c p ih =>
    obtain ⟨k, rfl⟩ : ∃ j, k = j + 1 := ⟨k - 1, by omega⟩
    by_cases hc : c = slash
    · subst hc
      rw [split, if_pos rfl, length_cons] at hlt
      rw [split, if_pos rfl, take_succ_cons]
      by_cases hk0 : k = 0
      · subst hk0
        exact ⟨[], p, rfl, by simp [split]⟩
      · obtain ⟨q, r, rfl, hq⟩ := ih (Nat.pos_of_ne_zero hk0) (by omega)
        exact ⟨slash :: q, r, rfl, by rw [split, if_pos rfl, hq]⟩
    · obtain ⟨n, ns, hn⟩ := exists_cons_of_ne_nil (split_ne_nil p)
      rw [split_cons hc hn, length_cons] at hlt
      obtain ⟨q, r, rfl, hq⟩ := ih (Nat.succ_pos k) (by rw [hn, length_cons]; exact hlt)
      rw [hn, take_succ_cons] at hq
      exact ⟨c :: q, r, rfl, by rw [split_cons hc hq, split_cons hc hn, take_succ_cons]⟩

theorem start_append {p : List UInt8} (hp : p ≠ []) (cwd : Location) (q : List UInt8) :
    start cwd (p ++ q) = start cwd p := by
  rw [start, start, head?_append_of_ne_nil _ hp]

/-- A directory and a name below it. -/
theorem resolve_join {p : List UInt8} (hp : p ≠ []) (cwd : Location) (q : List UInt8) :
    resolve cwd (p ++ slash :: q) = walk (resolve cwd p) (split q) := by
  rw [resolve, split_append, walk_append, start_append hp, resolve]

/-- A name a directory can hold. -/
def Plain (n : Name) : Prop := n ≠ [] ∧ n ≠ dot ∧ n ≠ dotDot ∧ slash ∉ n

instance (n : Name) : Decidable (Plain n) := inferInstanceAs (Decidable (_ ∧ _))

theorem walk_split_plain {n : Name} (h : Plain n) (l : Location) : walk l (split n) = l ++ [n] := by
  obtain ⟨h₁, h₂, h₃, h₄⟩ := h
  rw [split_of_not_mem h₄]
  simp [walk, enter, h₁, h₂, h₃]

/-! ## Inside a directory -/

/-- `l` lies strictly under `d`. -/
def Inside (d l : Location) : Prop := ∃ t, t ≠ [] ∧ l = d ++ t

/-- The directories that are there because the directory `dir` can be reached by its path: the
locations passed on the way and those above them. -/
def OnTheWay (cwd : Location) (dir : List UInt8) (l : Location) : Prop :=
  ∃ k, l <+: walk (start cwd dir) ((split dir).take k)

theorem onTheWay_self (cwd : Location) (dir : List UInt8) : OnTheWay cwd dir (resolve cwd dir) :=
  ⟨(split dir).length, by rw [take_length]; exact prefix_refl _⟩

/-- The part of a path before one of its slashes is passed on the way. -/
theorem onTheWay_of_part {p q : List UInt8} (hp : p ≠ []) (cwd : Location) :
    OnTheWay cwd (p ++ slash :: q) (resolve cwd p) := by
  refine ⟨(split p).length, ?_⟩
  rw [split_append, take_left, start_append hp]
  exact prefix_refl _

theorem Inside.trans_append {d l : Location} (h : Inside d l) (t : Location) : Inside d (l ++ t) := by
  obtain ⟨s, hs, rfl⟩ := h
  exact ⟨s ++ t, by simp [hs], by rw [append_assoc]⟩

end Paths
