import Mathlib

set_option autoImplicit false

/-! # Machines with a history

A `Machine` answers one input at a time: a step moves the state and emits events. What a component
did is the list of events of a whole run, its *history*, and a safety property of the component is a
predicate of the history and the state reached. The rules below prove such a predicate from one
step: `run_invariant` for every run, `run_invariant_of` for the runs whose steps all meet a
condition. -/

/-- A component that answers inputs of `ι` from a state of `σ` and emits events of `ε`. -/
structure Machine (σ ι ε : Type*) where
  step : σ → ι → σ × List ε

namespace Machine

variable {σ ι ε : Type*} (m : Machine σ ι ε)

/-- The state reached and the events emitted on a list of inputs. -/
def run : σ → List ι → σ × List ε
  | s, [] => (s, [])
  | s, i :: is => ((run (m.step s i).1 is).1, (m.step s i).2 ++ (run (m.step s i).1 is).2)

/-- Every step of the run meets the condition `ok` on the state it starts from and its input. -/
def Admits (ok : σ → ι → Prop) : σ → List ι → Prop
  | _, [] => True
  | s, i :: is => ok s i ∧ Admits ok (m.step s i).1 is

instance decidableAdmits {ok : σ → ι → Prop} [∀ s i, Decidable (ok s i)] :
    (s : σ) → (is : List ι) → Decidable (m.Admits ok s is)
  | _, [] => .isTrue trivial
  | s, i :: is => @instDecidableAnd _ _ _ (decidableAdmits (m.step s i).1 is)

@[simp] theorem run_nil (s : σ) : m.run s [] = (s, []) := rfl

theorem run_cons (s : σ) (i : ι) (is : List ι) :
    m.run s (i :: is) =
      ((m.run (m.step s i).1 is).1, (m.step s i).2 ++ (m.run (m.step s i).1 is).2) := rfl

theorem run_append_fst (s : σ) (is js : List ι) :
    (m.run s (is ++ js)).1 = (m.run (m.run s is).1 js).1 := by
  induction is generalizing s with
  | nil => rfl
  | cons i is ih => exact ih _

variable {m} {I : List ε → σ → Prop}

/-- What every admitted step preserves holds after every admitted run. -/
theorem run_invariant_of {ok : σ → ι → Prop}
    (hstep : ∀ h s i, I h s → ok s i → I (h ++ (m.step s i).2) (m.step s i).1) :
    ∀ (is : List ι) (h : List ε) (s : σ), I h s → m.Admits ok s is →
      I (h ++ (m.run s is).2) (m.run s is).1 := by
  intro is
  induction is with
  | nil =>
    intro h s hI _
    simpa using hI
  | cons i is ih =>
    intro h s hI hok
    rw [run_cons, ← List.append_assoc]
    exact ih _ _ (hstep h s i hI hok.1) hok.2

/-- What every step preserves holds after every run. -/
theorem run_invariant (hstep : ∀ h s i, I h s → I (h ++ (m.step s i).2) (m.step s i).1)
    (is : List ι) (h : List ε) (s : σ) (hI : I h s) : I (h ++ (m.run s is).2) (m.run s is).1 := by
  have hadm : ∀ (is : List ι) (s : σ), m.Admits (fun _ _ => True) s is := by
    intro is
    induction is with
    | nil => exact fun _ => trivial
    | cons i is ih => exact fun s => ⟨trivial, ih _⟩
  exact run_invariant_of (fun h s i hI _ => hstep h s i hI) is h s hI (hadm is s)

/-- The machine with its history in the state, so that a condition on a step can speak of what has
    happened. -/
def traced (m : Machine σ ι ε) : Machine (σ × List ε) ι ε :=
  ⟨fun x i => (((m.step x.1 i).1, x.2 ++ (m.step x.1 i).2), (m.step x.1 i).2)⟩

/-- What every step preserves that is admitted after what has happened. -/
theorem run_invariant_traced {ok : σ × List ε → ι → Prop}
    (hstep : ∀ h s i, I h s → ok (s, h) i → I (h ++ (m.step s i).2) (m.step s i).1) :
    ∀ (is : List ι) (h : List ε) (s : σ), I h s → m.traced.Admits ok (s, h) is →
      I (h ++ (m.run s is).2) (m.run s is).1 := by
  intro is
  induction is with
  | nil =>
    intro h s hI _
    simpa using hI
  | cons i is ih =>
    intro h s hI hok
    rw [run_cons, ← List.append_assoc]
    exact ih _ _ (hstep h s i hI hok.1) hok.2

end Machine

/-! ## Events justified by their past -/

namespace History

variable {ε : Type*} {P : List ε → ε → Prop}

/-- Every event of `e`, emitted after `past`, stands in `P` to what came before it. -/
def Justified (P : List ε → ε → Prop) : List ε → List ε → Prop
  | _, [] => True
  | past, x :: e => P past x ∧ Justified P (past ++ [x]) e

@[simp] theorem justified_nil (past : List ε) : Justified P past [] := trivial

@[simp] theorem justified_cons (past : List ε) (x : ε) (e : List ε) :
    Justified P past (x :: e) ↔ P past x ∧ Justified P (past ++ [x]) e := Iff.rfl

theorem justified_append (past a b : List ε) :
    Justified P past (a ++ b) ↔ Justified P past a ∧ Justified P (past ++ a) b := by
  induction a generalizing past with
  | nil => simp
  | cons x a ih => simp [ih, and_assoc]

/-- Events that need no past. -/
theorem justified_of_forall {past e : List ε} (h : ∀ past, ∀ x ∈ e, P past x) :
    Justified P past e := by
  induction e generalizing past with
  | nil => trivial
  | cons x e ih => exact ⟨h past x (by simp), ih fun past y hy => h past y (by simp [hy])⟩

/-- A justified history read at one of its events. -/
theorem Justified.at_event {past e : List ε} (h : Justified P past e) {pre post : List ε} {x : ε}
    (he : e = pre ++ x :: post) : P (past ++ pre) x := by
  rw [he, justified_append, justified_cons] at h
  exact h.2.1

/-! ## The last event of a kind -/

/-- Two events of one list: they are one, or one of them comes first. -/
theorem split_cases {a b a' b' : List ε} {x y : ε} (h : a ++ x :: b = a' ++ y :: b') :
    (a = a' ∧ x = y ∧ b = b') ∨ (∃ c, a' = a ++ x :: c ∧ b = c ++ y :: b') ∨
      ∃ c, a = a' ++ y :: c ∧ b' = c ++ x :: b := by
  rcases List.append_eq_append_iff.1 h with ⟨t, rfl, ht⟩ | ⟨t, rfl, ht⟩
  · cases t with
    | nil =>
      rw [List.nil_append, List.cons.injEq] at ht
      exact Or.inl ⟨by simp, ht.1, ht.2⟩
    | cons z t =>
      rw [List.cons_append, List.cons.injEq] at ht
      exact Or.inr (Or.inl ⟨t, by rw [ht.1], ht.2⟩)
  · cases t with
    | nil =>
      rw [List.nil_append, List.cons.injEq] at ht
      exact Or.inl ⟨by simp, ht.1.symm, ht.2.symm⟩
    | cons z t =>
      rw [List.cons_append, List.cons.injEq] at ht
      exact Or.inr (Or.inr ⟨t, by rw [ht.1], ht.2⟩)

/-- There is an event in `Q` with only events in `R` after it. -/
def Since (Q R : ε → Prop) (h : List ε) : Prop := ∃ a x w, h = a ++ x :: w ∧ Q x ∧ ∀ y ∈ w, R y

variable {Q Q' R R' : ε → Prop} {h e : List ε}

theorem Since.append (hs : Since Q R h) (he : ∀ y ∈ e, R y) : Since Q R (h ++ e) := by
  obtain ⟨a, x, w, rfl, hx, hw⟩ := hs
  refine ⟨a, x, w ++ e, by simp, hx, ?_⟩
  intro y hy
  rcases List.mem_append.1 hy with hy | hy
  · exact hw y hy
  · exact he y hy

theorem not_since_nil : ¬ Since Q R [] := by
  rintro ⟨a, x, w, h, -⟩
  cases a <;> cases h

theorem since_concat {x : ε} (hx : Q x) : Since Q R (h ++ [x]) := ⟨h, x, [], rfl, hx, by simp⟩

/-- One event more: it is the one in `Q`, or one of those after it. -/
theorem Since.of_concat {x : ε} (hs : Since Q R (h ++ [x])) : Q x ∨ (Since Q R h ∧ R x) := by
  obtain ⟨a, y, w, heq, hy, hw⟩ := hs
  rcases List.eq_nil_or_concat w with rfl | ⟨w', z, rfl⟩
  · obtain ⟨-, hxy⟩ := List.append_inj' heq rfl
    obtain rfl : x = y := by simpa using hxy
    exact .inl hy
  · have heq' : h ++ [x] = (a ++ y :: w') ++ [z] := by rw [heq]; simp
    obtain ⟨rfl, hxz⟩ := List.append_inj' heq' rfl
    obtain rfl : x = z := by simpa using hxz
    exact .inr ⟨⟨a, y, w', rfl, hy, fun u hu => hw u (by simp [hu])⟩, hw x (by simp)⟩

/-- The last event outside `R` is the same for both. -/
theorem Since.meet (hs : Since Q R h) (hs' : Since Q' R h) (hQ : ∀ x, Q x → ¬ R x)
    (hQ' : ∀ x, Q' x → ¬ R x) : ∃ x, Q x ∧ Q' x := by
  obtain ⟨a, x, w, rfl, hx, hw⟩ := hs
  obtain ⟨a', x', w', he, hx', hw'⟩ := hs'
  rcases split_cases he with ⟨-, rfl, -⟩ | ⟨c, -, rfl⟩ | ⟨c, -, rfl⟩
  · exact ⟨x, hx, hx'⟩
  · exact absurd (hw x' (by simp)) (hQ' x' hx')
  · exact absurd (hw' x (by simp)) (hQ x hx)

/-- An event that `R` excludes lies before the one in `Q`. -/
theorem Since.after (hs : Since Q R h) {a w : List ε} {x : ε} (hh : h = a ++ x :: w) (hx : ¬ R x)
    (hxQ : ¬ Q x) : Since Q R w := by
  obtain ⟨a', y, w', rfl, hy, hw⟩ := hs
  rcases split_cases hh with ⟨-, rfl, -⟩ | ⟨c, -, rfl⟩ | ⟨c, rfl, rfl⟩
  · exact absurd hy hxQ
  · exact absurd (hw x (by simp)) hx
  · exact ⟨c, y, w', rfl, hy, hw⟩

end History
