import Mathlib

set_option autoImplicit false

/-! # Lists of runs

A set of natural numbers kept as a list of runs `[start, start + len)`. `Run.insertMerge` adds an
interval and joins it with every run it touches; `Run.clearRuns` lists the maximal runs of the
numbers below a bound at which a bit map is clear. Both are described by the numbers they cover,
`Run.covered`, as a list up to permutation, so that disjointness is `List.Nodup`. A list is
`Run.Separated` where its runs are in order and no two touch: both operations give such lists. -/

/-- `len` consecutive numbers from `start` on. -/
structure Run where
  start : Nat
  len : Nat
  deriving DecidableEq, Repr

namespace Run

open List

/-- The numbers of a run, in order. -/
def blocks (r : Run) : List Nat := List.range' r.start r.len

/-- The numbers a list of runs covers. -/
def covered (l : List Run) : List Nat := l.flatMap blocks

/-- Add the interval `[ns, ne)`: runs that end before it stay, runs it touches are joined with it,
    and it goes in front of the first run that starts after it. -/
def insertMerge (ns ne : Nat) : List Run → List Run
  | [] => [⟨ns, ne - ns⟩]
  | r :: rest =>
    if r.start + r.len < ns then r :: insertMerge ns ne rest
    else if ne < r.start then ⟨ns, ne - ns⟩ :: r :: rest
    else insertMerge (min r.start ns) (max (r.start + r.len) ne) rest

/-- What `insertMerge` puts together: the runs before the joined one, the joined one, and those after
    it. -/
def absorb (ns ne : Nat) : List Run → List Run × Run × List Run
  | [] => ([], ⟨ns, ne - ns⟩, [])
  | r :: rest =>
    if r.start + r.len < ns then
      let p := absorb ns ne rest
      (r :: p.1, p.2.1, p.2.2)
    else if ne < r.start then ([], ⟨ns, ne - ns⟩, r :: rest)
    else absorb (min r.start ns) (max (r.start + r.len) ne) rest

/-- The maximal runs of clear bits among the `n` bits from `b` on; `cur` is the start of the run
    being scanned, if one is open. -/
def scanClear (bm : Nat → Bool) (b : Nat) : Nat → Option Nat → List Run
  | 0, none => []
  | 0, some st => [⟨st, b - st⟩]
  | n + 1, none => if bm b then scanClear bm (b + 1) n none else scanClear bm (b + 1) n (some b)
  | n + 1, some st =>
    if bm b then ⟨st, b - st⟩ :: scanClear bm (b + 1) n none else scanClear bm (b + 1) n (some st)

/-- The maximal runs of clear bits below `total`. -/
def clearRuns (bm : Nat → Bool) (total : Nat) : List Run := scanClear bm 0 total none

@[simp] theorem mem_blocks {r : Run} {b : Nat} :
    b ∈ r.blocks ↔ r.start ≤ b ∧ b < r.start + r.len := by
  simp [blocks, mem_range'_1]

@[simp] theorem length_blocks (r : Run) : r.blocks.length = r.len := by simp [blocks]

theorem nodup_blocks (r : Run) : r.blocks.Nodup := nodup_range'

@[simp] theorem blocks_one (b : Nat) : blocks ⟨b, 1⟩ = [b] := rfl

@[simp] theorem blocks_zero (b : Nat) : blocks ⟨b, 0⟩ = [] := rfl

@[simp] theorem covered_nil : covered [] = [] := rfl

@[simp] theorem covered_cons (r : Run) (l : List Run) : covered (r :: l) = r.blocks ++ covered l := by
  simp [covered]

@[simp] theorem covered_append (l m : List Run) : covered (l ++ m) = covered l ++ covered m := by
  simp [covered]

/-- A run cut in two. -/
theorem blocks_split (start len k : Nat) (hk : k ≤ len) :
    blocks ⟨start, len⟩ = blocks ⟨start, k⟩ ++ blocks ⟨start + k, len - k⟩ := by
  simp only [blocks]
  rw [range'_append_1, Nat.add_sub_cancel' hk]

/-- Joining an interval with a run it touches but does not overlap covers both. -/
theorem blocks_join {ns ne : Nat} {r : Run} (hne : ns ≤ ne) (h1 : ns ≤ r.start + r.len)
    (h2 : r.start ≤ ne) (hdisj : ∀ b ∈ r.blocks, ¬ (ns ≤ b ∧ b < ne)) :
    (blocks ⟨min r.start ns, max (r.start + r.len) ne - min r.start ns⟩).Perm
      (blocks ⟨ns, ne - ns⟩ ++ r.blocks) := by
  obtain ⟨s, l⟩ := r
  simp only [mem_blocks] at hdisj h1 h2 ⊢
  -- The two intervals do not overlap, so one of them is empty or they meet end to end.
  have hcase : l = 0 ∨ ns = ne ∨ s + l = ns ∨ ne = s := by
    by_contra hc
    push Not at hc
    exact hdisj (max s ns) (by omega) (by omega)
  rcases hcase with hl | hn | hl | hr
  · subst hl
    rw [blocks_zero, append_nil, min_eq_right (by omega), max_eq_right (by omega)]
  · subst hn
    rw [Nat.sub_self, blocks_zero, nil_append, min_eq_left (by omega), max_eq_left (by omega),
      Nat.add_sub_cancel_left]
  · rw [min_eq_left (by omega), max_eq_right (by omega), blocks_split _ _ l (by omega), hl,
      show ne - s - l = ne - ns by omega]
    exact perm_append_comm
  · rw [min_eq_right (by omega), max_eq_left (by omega), blocks_split _ _ (ne - ns) (by omega),
      show ns + (ne - ns) = s by omega, show s + l - ns - (ne - ns) = l by omega]

variable {l : List Run}

/-- Adding an interval that is disjoint from the list covers exactly the two together. -/
theorem covered_insertMerge {ns ne : Nat} (hne : ns ≤ ne)
    (hnd : (blocks ⟨ns, ne - ns⟩ ++ covered l).Nodup) :
    (covered (insertMerge ns ne l)).Perm (blocks ⟨ns, ne - ns⟩ ++ covered l) := by
  induction l generalizing ns ne with
  | nil => simp [insertMerge]
  | cons r rest ih =>
    rw [covered_cons] at hnd
    unfold insertMerge
    split
    · have hnd' : (blocks ⟨ns, ne - ns⟩ ++ covered rest).Nodup :=
        hnd.sublist (List.Sublist.append_left (sublist_append_right _ _) _)
      rw [covered_cons, covered_cons]
      calc (r.blocks ++ covered (insertMerge ns ne rest)).Perm
            (r.blocks ++ (blocks ⟨ns, ne - ns⟩ ++ covered rest)) := (ih hne hnd').append_left _
        _ |>.Perm (blocks ⟨ns, ne - ns⟩ ++ (r.blocks ++ covered rest)) := by
            rw [← append_assoc, ← append_assoc]
            exact perm_append_comm.append_right _
    · split
      · rw [covered_cons, covered_cons]
      · next h1 h2 =>
          have hdisj : ∀ b ∈ r.blocks, ¬ (ns ≤ b ∧ b < ne) := by
            intro b hb hin
            have hd := (nodup_append.1 hnd).2.2
            exact hd b (mem_blocks.2 (by simp only; omega)) b
              (mem_append_left _ hb) rfl
          have hj := blocks_join hne (by omega) (by omega) hdisj
          have hperm : (blocks ⟨min r.start ns, max (r.start + r.len) ne - min r.start ns⟩
              ++ covered rest).Perm (blocks ⟨ns, ne - ns⟩ ++ (r.blocks ++ covered rest)) := by
            rw [← append_assoc]
            exact hj.append_right _
          rw [covered_cons]
          exact (ih (by omega) (hperm.nodup_iff.2 hnd)).trans hperm

theorem covered_scanClear (bm : Nat → Bool) (n b : Nat) (cur : Option Nat)
    (hcur : ∀ st ∈ cur, st ≤ b) :
    covered (scanClear bm b n cur)
      = (match cur with | some st => List.range' st (b - st) | none => [])
        ++ (List.range' b n).filter (fun i => !bm i) := by
  induction n generalizing b cur with
  | zero =>
    cases cur with
    | none => rfl
    | some st => simp [scanClear, blocks]
  | succ n ih =>
    cases cur with
    | none =>
      unfold scanClear
      rw [range'_succ]
      by_cases h : bm b
      · rw [if_pos h, ih _ _ (by simp)]
        simp [h]
      · rw [if_neg h, ih _ _ (by simp)]
        simp [h]
    | some st =>
      have hst : st ≤ b := hcur st rfl
      unfold scanClear
      rw [range'_succ]
      by_cases h : bm b
      · rw [if_pos h, covered_cons, ih _ _ (by simp)]
        simp [h, blocks]
      · rw [if_neg h, ih _ _ (by simp; omega)]
        have hr : List.range' st (b + 1 - st) = List.range' st (b - st) ++ [b] := by
          rw [show b + 1 - st = (b - st) + 1 by omega, range'_concat]
          simp [Nat.add_sub_cancel' hst]
        simp [h, hr]

/-- The maximal clear runs cover exactly the clear bits. -/
theorem covered_clearRuns (bm : Nat → Bool) (total : Nat) :
    covered (clearRuns bm total) = (List.range total).filter (fun i => !bm i) := by
  rw [clearRuns, covered_scanClear bm total 0 none (by simp), range_eq_range']
  rfl

theorem insertMerge_eq_absorb (ns ne : Nat) (l : List Run) :
    insertMerge ns ne l = (absorb ns ne l).1 ++ (absorb ns ne l).2.1 :: (absorb ns ne l).2.2 := by
  induction l generalizing ns ne with
  | nil => rfl
  | cons r rest ih =>
    unfold insertMerge absorb
    split
    · simp [ih]
    split
    · rfl
    · exact ih _ _

/-! ## Separated runs -/

/-- No run is empty, they are in order, and no two overlap or touch. -/
structure Separated (l : List Run) : Prop where
  pos : ∀ r ∈ l, 0 < r.len
  apart : l.Pairwise fun a b => a.start + a.len < b.start

theorem separated_nil : Separated [] := ⟨by simp, .nil⟩

theorem separated_cons {r : Run} :
    Separated (r :: l) ↔ 0 < r.len ∧ (∀ x ∈ l, r.start + r.len < x.start) ∧ Separated l := by
  constructor
  · intro h
    obtain ⟨hall, hl⟩ := pairwise_cons.1 h.apart
    exact ⟨h.pos r (by simp), hall, fun x hx => h.pos x (by simp [hx]), hl⟩
  · rintro ⟨hr, hall, hl⟩
    refine ⟨fun x hx => ?_, pairwise_cons.2 ⟨hall, hl.apart⟩⟩
    obtain rfl | hx := mem_cons.1 hx
    · exact hr
    · exact hl.pos x hx

/-- Dropping runs keeps the others apart. -/
theorem Separated.sublist {m : List Run} (h : Separated l) (hs : m.Sublist l) : Separated m :=
  ⟨fun r hr => h.pos r (hs.subset hr), h.apart.sublist hs⟩

theorem mem_covered {b : Nat} : b ∈ covered l ↔ ∃ r ∈ l, r.start ≤ b ∧ b < r.start + r.len := by
  simp [covered]

/-- Nothing in the list starts before the interval and everything that was in it. -/
theorem lt_start_of_mem_insertMerge {k ns ne : Nat} (hk : k < ns) (hl : ∀ r ∈ l, k < r.start) :
    ∀ r ∈ insertMerge ns ne l, k < r.start := by
  induction l generalizing ns ne with
  | nil => simpa [insertMerge] using hk
  | cons a rest ih =>
    have ha : k < a.start := hl a (by simp)
    have hrest : ∀ r ∈ rest, k < r.start := fun r hr => hl r (by simp [hr])
    unfold insertMerge
    intro r hr
    split at hr
    · obtain rfl | hr := mem_cons.1 hr
      · exact ha
      · exact ih hk hrest r hr
    split at hr
    · obtain rfl | hr := mem_cons.1 hr
      · exact hk
      · exact hl r hr
    · exact ih (by omega) hrest r hr

theorem Separated.insertMerge {ns ne : Nat} (hne : ns < ne) (h : Separated l) :
    Separated (insertMerge ns ne l) := by
  induction l generalizing ns ne with
  | nil => simpa [Run.insertMerge, separated_cons, separated_nil] using hne
  | cons r rest ih =>
    obtain ⟨hr, hall, hrest⟩ := separated_cons.1 h
    unfold Run.insertMerge
    split
    next hbefore =>
      exact separated_cons.2 ⟨hr, lt_start_of_mem_insertMerge hbefore hall, ih hne hrest⟩
    split
    next hafter =>
      refine separated_cons.2 ⟨by simp only; omega, fun x hx => ?_, h⟩
      obtain rfl | hx := mem_cons.1 hx
      · simp only
        omega
      · have := hall x hx
        simp only
        omega
    · exact ih (by omega) hrest

/-- The interval is added, whether it overlaps what was covered or not. -/
theorem mem_covered_insertMerge {ns ne b : Nat} (hne : ns ≤ ne) :
    b ∈ covered (insertMerge ns ne l) ↔ (ns ≤ b ∧ b < ne) ∨ b ∈ covered l := by
  induction l generalizing ns ne with
  | nil =>
    simp only [insertMerge, covered_cons, covered_nil, append_nil, mem_blocks, not_mem_nil, or_false]
    omega
  | cons r rest ih =>
    unfold insertMerge
    split
    · rw [covered_cons, covered_cons, mem_append, mem_append, ih hne]
      tauto
    split
    · rw [covered_cons, mem_append, mem_blocks]
      simp only
      rw [Nat.add_sub_cancel' hne]
    next hl hr =>
      rw [ih (by omega), covered_cons, mem_append, mem_blocks, ← or_assoc]
      refine or_congr_left ?_
      omega

theorem le_start_of_mem_scanClear {bm : Nat → Bool} {n b : Nat} {cur : Option Nat}
    (hcur : ∀ st ∈ cur, st ≤ b) : ∀ r ∈ scanClear bm b n cur, cur.getD b ≤ r.start := by
  induction n generalizing b cur with
  | zero => cases cur <;> simp [scanClear]
  | succ n ih =>
    cases cur with
    | none =>
      unfold scanClear
      intro r hr
      split at hr
      · have := ih (by simp) r hr
        simp only [Option.getD_none] at this ⊢
        omega
      · have hopen : ∀ st ∈ some b, st ≤ b + 1 := by simp
        exact ih hopen r hr
    | some st =>
      have hst : st ≤ b := hcur st rfl
      unfold scanClear
      intro r hr
      split at hr
      · obtain rfl | hr := mem_cons.1 hr
        · exact le_rfl
        · have := ih (by simp) r hr
          simp only [Option.getD_none, Option.getD_some] at this ⊢
          omega
      · have hopen : ∀ st' ∈ some st, st' ≤ b + 1 := by simp; omega
        exact ih hopen r hr

theorem separated_scanClear {bm : Nat → Bool} {n b : Nat} {cur : Option Nat} (hcur : ∀ st ∈ cur, st < b) :
    Separated (scanClear bm b n cur) := by
  induction n generalizing b cur with
  | zero =>
    cases cur with
    | none => exact separated_nil
    | some st =>
      have := hcur st rfl
      simp only [scanClear, separated_cons, not_mem_nil, false_implies, implies_true, separated_nil,
        and_true]
      omega
  | succ n ih =>
    cases cur with
    | none =>
      unfold scanClear
      split
      · exact ih (by simp)
      · exact ih (by simp)
    | some st =>
      have hst : st < b := hcur st rfl
      unfold scanClear
      split
      · refine separated_cons.2 ⟨by simp only; omega, fun x hx => ?_, ih (by simp)⟩
        -- the run ends at a set bit, and the next starts behind it
        have := le_start_of_mem_scanClear (by simp) x hx
        simp only [Option.getD_none] at this ⊢
        omega
      · exact ih (by simp; omega)

theorem separated_clearRuns (bm : Nat → Bool) (total : Nat) : Separated (clearRuns bm total) :=
  separated_scanClear (by simp)

/-- Separated runs below a bound are few: each takes a number and leaves one out. -/
theorem Separated.length_le (h : Separated l) {k total : Nat} (hk : k ≤ total + 1)
    (hl : ∀ r ∈ l, k ≤ r.start ∧ r.start + r.len ≤ total) : k + 2 * l.length ≤ total + 1 := by
  induction l generalizing k with
  | nil => simpa using hk
  | cons r rest ih =>
    obtain ⟨hr, hall, hrest⟩ := separated_cons.1 h
    have hbound := hl r (by simp)
    have := ih (k := k + 2) hrest (by omega) fun x hx =>
      ⟨by have := hall x hx; omega, (hl x (by simp [hx])).2⟩
    simp only [length_cons]
    omega

/-- No run reaches over a bound of what is covered. -/
theorem Separated.end_le (h : Separated l) {total : Nat} (hl : ∀ b ∈ covered l, b < total) :
    ∀ r ∈ l, r.start + r.len ≤ total := by
  intro r hr
  have hpos := h.pos r hr
  have := hl (r.start + r.len - 1) (mem_covered.2 ⟨r, hr, by omega, by omega⟩)
  omega

/-- Separated runs cover no number twice. -/
theorem Separated.nodup_covered (h : Separated l) : (covered l).Nodup := by
  induction l with
  | nil => simp
  | cons r rest ih =>
    obtain ⟨-, hall, hrest⟩ := separated_cons.1 h
    rw [covered_cons]
    refine nodup_append.2 ⟨r.nodup_blocks, ih hrest, fun a ha b hb => ?_⟩
    obtain ⟨x, hx, hxb, -⟩ := mem_covered.1 hb
    have := hall x hx
    have := (mem_blocks.1 ha).2
    omega

/-- A run may be made smaller. -/
theorem Separated.shrink {pre post : List Run} {r r' : Run} (h : Separated (pre ++ r :: post)) (hpos : 0 < r'.len)
    (hstart : r.start ≤ r'.start) (hend : r'.start + r'.len ≤ r.start + r.len) :
    Separated (pre ++ r' :: post) := by
  induction pre with
  | nil =>
    obtain ⟨-, hall, hpost⟩ := separated_cons.1 h
    exact separated_cons.2 ⟨hpos, fun x hx => by have := hall x hx; omega, hpost⟩
  | cons a pre ih =>
    obtain ⟨ha, hall, hpre⟩ := separated_cons.1 h
    refine separated_cons.2 ⟨ha, fun x hx => ?_, ih hpre⟩
    obtain hx | hx := mem_append.1 hx
    · exact hall x (by simp [hx])
    obtain rfl | hx := mem_cons.1 hx
    · have := hall r (by simp)
      omega
    · exact hall x (by simp [hx])

end Run
