import EmbLinkOs.Lib.Paths

set_option autoImplicit false

/-! # Normal forms of paths

The components of a path are collapsed on a stack: `.` goes, `..` takes back the name before it, and
stays where there is none, unless the path starts at the root. What is left is `..`s followed by names
(`Collapsed`), and collapsing it again changes nothing.

A path is followed over any objects that have children by name and a parent. If a child that is a
directory has the object it was entered from as its parent, a path and its collapsed components lead to
the same object, as long as the path goes through directories (`follow_collapsed`). -/

namespace Paths

open List

/-! ## Components -/

/-- The components of a path that are not empty. -/
def parts (p : List UInt8) : List Name := (split p).filter (· ≠ [])

@[simp] theorem parts_nil : parts [] = [] := rfl

@[simp] theorem parts_slash (p : List UInt8) : parts (slash :: p) = parts p := by
  simp [parts, split]

theorem parts_append (p q : List UInt8) : parts (p ++ slash :: q) = parts p ++ parts q := by
  simp [parts, split_append]

theorem parts_of_not_mem {n : Name} (h : slash ∉ n) (hne : n ≠ []) : parts n = [n] := by
  simp [parts, split_of_not_mem h, hne]

theorem slash_notMem_of_mem_split {p : List UInt8} {c : Name} (h : c ∈ split p) : slash ∉ c := by
  induction p generalizing c with
  | nil =>
    obtain rfl : c = [] := by simpa [split] using h
    simp
  | cons a p ih =>
    by_cases ha : a = slash
    · rw [split, if_pos ha] at h
      rcases mem_cons.1 h with rfl | h
      · simp
      · exact ih h
    · obtain ⟨n, ns, hn⟩ := exists_cons_of_ne_nil (split_ne_nil p)
      rw [split_cons ha hn] at h
      rcases mem_cons.1 h with rfl | h
      · rw [mem_cons, not_or]
        exact ⟨Ne.symm ha, ih (by rw [hn]; simp)⟩
      · exact ih (by rw [hn]; exact mem_cons_of_mem _ h)

/-- A component is a name, or one of the two that are not. -/
theorem plain_of_mem_parts {p : List UInt8} {c : Name} (h : c ∈ parts p) (hdot : c ≠ dot)
    (hdd : c ≠ dotDot) : Plain c := by
  obtain ⟨hmem, hne⟩ := mem_filter.1 h
  exact ⟨by simpa using hne, hdot, hdd, slash_notMem_of_mem_split hmem⟩

/-- Components with a slash between each two. -/
def join : List Name → List UInt8
  | [] => []
  | [c] => c
  | c :: d :: cs => c ++ slash :: join (d :: cs)

theorem split_join {cs : List Name} (hne : cs ≠ []) (h : ∀ c ∈ cs, slash ∉ c) : split (join cs) = cs := by
  induction cs with
  | nil => exact absurd rfl hne
  | cons c cs ih =>
    cases cs with
    | nil => exact split_of_not_mem (h c (by simp))
    | cons d cs =>
      rw [join, split_append, split_of_not_mem (h c (by simp)),
        ih (by simp) fun x hx => h x (by simp [hx])]
      rfl

theorem parts_join {cs : List Name} (hne : ∀ c ∈ cs, c ≠ []) (h : ∀ c ∈ cs, slash ∉ c) :
    parts (join cs) = cs := by
  cases cs with
  | nil => rfl
  | cons c cs =>
    rw [parts, split_join (by simp) h, filter_eq_self]
    simpa using hne

theorem join_concat {cs : List Name} (hne : cs ≠ []) (c : Name) :
    join (cs ++ [c]) = join cs ++ slash :: c := by
  induction cs with
  | nil => exact absurd rfl hne
  | cons d cs ih =>
    cases cs with
    | nil => rfl
    | cons e cs =>
      rw [cons_append, cons_append, join, join, ← cons_append, ih (by simp)]
      simp

/-- A path made of components that are not empty does not start with a slash. -/
theorem head_join {cs : List Name} (hne : ∀ c ∈ cs, c ≠ []) (h : ∀ c ∈ cs, slash ∉ c) :
    (join cs).head? ≠ some slash := by
  rcases cs with _ | ⟨c, _ | ⟨d, cs⟩⟩
  · simp [join]
  · intro hs
    exact h c (by simp) (mem_of_head? hs)
  · have hc := hne c (by simp)
    rw [join, head?_append_of_ne_nil _ hc]
    intro hs
    exact h c (by simp) (mem_of_head? hs)

theorem join_ne_nil {cs : List Name} (hcs : cs ≠ []) (hne : ∀ c ∈ cs, c ≠ []) : join cs ≠ [] := by
  rcases cs with _ | ⟨c, _ | ⟨d, cs⟩⟩
  · exact absurd rfl hcs
  · exact hne c (by simp)
  · simp [join]

/-! ## Collapsing -/

/-- One component put on those before it, the last of which comes first. -/
def collapse (abs : Bool) (st : List Name) (c : Name) : List Name :=
  if c = dot then st
  else if c = dotDot then
    match st with
    | [] => if abs then [] else [c]
    | top :: rest => if top = dotDot then (if abs then st else c :: st) else rest
  else c :: st

/-- What a stack of components looks like: names on `..`s, and no `..` in a path from the root. -/
def Collapsed (abs : Bool) (st : List Name) : Prop :=
  ∃ (names : List Name) (k : Nat), st = names ++ List.replicate k dotDot ∧ (∀ c ∈ names, Plain c) ∧
    (abs = true → k = 0)

section

variable {abs : Bool} {st : List Name} {c : Name}

theorem collapse_dot : collapse abs st dot = st := if_pos rfl

theorem collapse_plain (h : Plain c) : collapse abs st c = c :: st := by
  simp [collapse, h.2.1, h.2.2.1]

/-- A `..` takes a name back. -/
theorem collapse_back {n : Name} (h : Plain n) : collapse abs (n :: st) dotDot = st := by
  simp [collapse, h.2.2.1, show dotDot ≠ dot by decide]

/-- A `..` with no name before it stays, or is dropped at the root. -/
theorem collapse_stay {k : Nat} (h : abs = true → k = 0) :
    collapse abs (List.replicate k dotDot) dotDot
      = if abs then [] else List.replicate (k + 1) dotDot := by
  cases abs with
  | true =>
    obtain rfl := h rfl
    rfl
  | false =>
    cases k with
    | zero => rfl
    | succ k => simp [collapse, replicate_succ, show dotDot ≠ dot by decide]

theorem collapsed_nil : Collapsed abs [] := ⟨[], 0, rfl, by simp, fun _ => rfl⟩

theorem Collapsed.step (h : Collapsed abs st) (hc : c ≠ dot → c ≠ dotDot → Plain c) :
    Collapsed abs (collapse abs st c) := by
  obtain ⟨names, k, rfl, hnames, hk⟩ := h
  by_cases hdot : c = dot
  · rw [hdot, collapse_dot]
    exact ⟨names, k, rfl, hnames, hk⟩
  by_cases hdd : c = dotDot
  · rw [hdd]
    cases names with
    | nil =>
      rw [nil_append, collapse_stay hk]
      cases abs with
      | true => exact collapsed_nil
      | false => exact ⟨[], k + 1, rfl, by simp, by simp⟩
    | cons n names =>
      rw [cons_append, collapse_back (hnames n (by simp))]
      exact ⟨names, k, rfl, fun x hx => hnames x (by simp [hx]), hk⟩
  · have hplain := hc hdot hdd
    rw [collapse_plain hplain]
    refine ⟨c :: names, k, rfl, fun x hx => ?_, hk⟩
    rcases mem_cons.1 hx with rfl | hx
    · exact hplain
    · exact hnames x hx

theorem Collapsed.foldl {cs : List Name} (hcs : ∀ c ∈ cs, c ≠ dot → c ≠ dotDot → Plain c)
    (h : Collapsed abs st) : Collapsed abs (cs.foldl (collapse abs) st) := by
  induction cs generalizing st with
  | nil => exact h
  | cons c cs ih =>
    exact ih (fun x hx => hcs x (by simp [hx])) (h.step (hcs c (by simp)))

/-- Collapsing makes no components. -/
theorem mem_collapse {d : Name} (hc : c ∈ collapse abs st d) : c ∈ st ∨ c = d := by
  unfold collapse at hc
  grind

theorem mem_foldl_collapse {cs : List Name} (hc : c ∈ cs.foldl (collapse abs) st) :
    c ∈ st ∨ c ∈ cs := by
  induction cs generalizing st with
  | nil => exact Or.inl hc
  | cons d cs ih =>
    rcases ih hc with hc | hc
    · rcases mem_collapse hc with hc | rfl
      · exact Or.inl hc
      · exact Or.inr (by simp)
    · exact Or.inr (by simp [hc])

/-- Collapsed components collapse to themselves. -/
theorem Collapsed.foldl_reverse (h : Collapsed abs st) : st.reverse.foldl (collapse abs) [] = st := by
  obtain ⟨names, k, rfl, hnames, hk⟩ := h
  rw [reverse_append, reverse_replicate, foldl_append]
  have hups : (List.replicate k dotDot).foldl (collapse abs) [] = List.replicate k dotDot := by
    cases abs with
    | true => simp [hk rfl]
    | false =>
      have hgrow : ∀ j m, (List.replicate j dotDot).foldl (collapse false) (List.replicate m dotDot)
          = List.replicate (m + j) dotDot := by
        intro j
        induction j with
        | zero => simp
        | succ j ih =>
          intro m
          rw [replicate_succ, foldl_cons, collapse_stay (by simp), if_neg (by simp), ih]
          congr 1
          omega
      simpa using hgrow k 0
  rw [hups]
  clear hups hk
  induction names with
  | nil => rfl
  | cons n names ih =>
    rw [reverse_cons, foldl_append, ih fun x hx => hnames x (by simp [hx])]
    exact collapse_plain (hnames n (by simp))

theorem Collapsed.mem (h : Collapsed abs st) (hc : c ∈ st) : Plain c ∨ c = dotDot := by
  obtain ⟨names, k, rfl, hnames, -⟩ := h
  rcases mem_append.1 hc with hc | hc
  · exact Or.inl (hnames c hc)
  · exact Or.inr (eq_of_mem_replicate hc)

theorem Collapsed.ne_nil (h : Collapsed abs st) (hc : c ∈ st) : c ≠ [] := by
  rcases h.mem hc with hp | rfl
  · exact hp.1
  · decide

theorem Collapsed.slash_notMem (h : Collapsed abs st) (hc : c ∈ st) : slash ∉ c := by
  rcases h.mem hc with hp | rfl
  · exact hp.2.2.2
  · decide

end

/-! ## Following a path -/

section

variable {σ ε : Type} (child : σ → Name → Except ε σ) (parent : σ → Except ε σ)

/-- Following one component from an object. -/
def advance (o : σ) (c : Name) : Except ε σ :=
  if c = dot then .ok o else if c = dotDot then parent o else child o c

/-- Following components in order. -/
def follow (o : σ) : List Name → Except ε σ
  | [] => .ok o
  | c :: cs => (advance child parent o c).bind fun o' => follow o' cs

variable {child parent} {o : σ} {cs : List Name} {c : Name}

theorem follow_concat (o : σ) (cs : List Name) (c : Name) :
    follow child parent o (cs ++ [c])
      = (follow child parent o cs).bind fun o' => advance child parent o' c := by
  induction cs generalizing o with
  | nil =>
    show (advance child parent o c).bind _ = advance child parent o c
    cases advance child parent o c <;> rfl
  | cons d cs ih =>
    show (advance child parent o d).bind _ = ((advance child parent o d).bind _).bind _
    cases advance child parent o d with
    | error e => rfl
    | ok o' => exact ih o'

/-- Every object before the last component is there and is a directory. -/
def Through (child : σ → Name → Except ε σ) (parent : σ → Except ε σ) (isDir : σ → Prop) (o : σ)
    (cs : List Name) : Prop :=
  ∀ k < cs.length, ∃ o', follow child parent o (cs.take k) = .ok o' ∧ isDir o'

/-- A path and its collapsed components lead to the same object, or fail alike. -/
theorem follow_collapsed {isDir : σ → Prop} {abs : Bool}
    (hback : ∀ o c o', child o c = .ok o' → isDir o' → parent o' = .ok o)
    (hroot : abs = true → parent o = .ok o)
    (hcs : ∀ c ∈ cs, c ≠ dot → c ≠ dotDot → Plain c) (hthrough : Through child parent isDir o cs) :
    follow child parent o cs = follow child parent o (cs.foldl (collapse abs) []).reverse := by
  induction cs using List.reverseRecOn with
  | nil => rfl
  | append_singleton cs c ih =>
    have hcs' : ∀ x ∈ cs, x ≠ dot → x ≠ dotDot → Plain x := fun x hx => hcs x (by simp [hx])
    have hsame := ih hcs' fun k hk => by
      have := hthrough k (by simp; omega)
      rwa [take_append_of_le_length (by omega)] at this
    obtain ⟨o', ho', hdir⟩ := hthrough cs.length (by simp)
    rw [take_left] at ho'
    have hcol : Collapsed abs (cs.foldl (collapse abs) []) := collapsed_nil.foldl hcs'
    obtain ⟨names, k, hst, hnames, hk⟩ := hcol
    rw [follow_concat, ho', foldl_append, foldl_cons, foldl_nil]
    rw [ho', hst] at hsame
    show advance child parent o' c = _
    rw [hst]
    by_cases hdot : c = dot
    · rw [hdot, collapse_dot, ← hsame]
      rfl
    by_cases hdd : c = dotDot
    · have hup : advance child parent o' c = parent o' := by
        rw [hdd, advance, if_neg (by decide), if_pos rfl]
      rw [hup, hdd]
      cases names with
      | nil =>
        rw [nil_append] at hsame ⊢
        rw [collapse_stay hk]
        cases abs with
        | true =>
          obtain rfl := hk rfl
          obtain rfl : o' = o := Except.ok.inj hsame
          exact hroot rfl
        | false =>
          rw [if_neg (by simp), replicate_succ, reverse_cons, follow_concat, ← hsame]
          show parent o' = advance child parent o' dotDot
          rw [advance, if_neg (by decide), if_pos rfl]
      | cons n names =>
        -- The name that is taken back was entered from where the rest leads.
        have hn := hnames n (by simp)
        rw [cons_append, reverse_cons, follow_concat] at hsame
        rw [cons_append, collapse_back hn]
        cases hrest : follow child parent o (names ++ List.replicate k dotDot).reverse with
        | error e =>
          rw [hrest] at hsame
          cases hsame
        | ok p =>
          rw [hrest] at hsame
          have hchild : child p n = .ok o' := by
            have : advance child parent p n = .ok o' := hsame.symm
            rwa [advance, if_neg hn.2.1, if_neg hn.2.2.1] at this
          exact hback p n o' hchild hdir
    · rw [collapse_plain (hcs c (by simp) hdot hdd), reverse_cons, follow_concat, ← hsame]
      rfl

end

end Paths
