import Mathlib

set_option autoImplicit false

/-! # Finite maps as sorted association lists

A list of key/value pairs in strictly increasing key order is a finite map. `upd k v` writes one
key: `some d` inserts or replaces, `none` removes and is a no-op on an absent key. It scans for the
first key at or above `k`, so it is defined on every list and does the right thing on sorted ones.

Besides reading a list as a function (`find`, `find_upd`, `find_updAll`) the file has what a tree
of such lists needs: cutting a list at a key cuts a batch of updates with it (`updAll_append`). -/

namespace SortedMap

open List

variable {κ β : Type} [LinearOrder κ] {k : κ} {l r : List (κ × β)} {v : Option β}
  {ops : List (κ × Option β)}

/-- Strictly increasing in key. -/
def Sorted (l : List (κ × β)) : Prop := l.Pairwise (fun a b => a.1 < b.1)

instance (l : List (κ × β)) : Decidable (Sorted l) :=
  inferInstanceAs (Decidable (l.Pairwise (fun a b => a.1 < b.1)))

/-- The value bound to `k`: the first entry with that key. -/
def find (k : κ) (l : List (κ × β)) : Option β := (l.find? (fun e => e.1 = k)).map Prod.snd

/-- Write one key: `some d` inserts or replaces, `none` removes. -/
def upd (k : κ) (v : Option β) : List (κ × β) → List (κ × β)
  | [] => match v with
    | some d => [(k, d)]
    | none => []
  | e :: t =>
    if e.1 < k then e :: upd k v t
    else if e.1 = k then match v with
      | some d => (k, d) :: t
      | none => t
    else match v with
      | some d => (k, d) :: e :: t
      | none => e :: t

/-- Write a batch of keys, left to right. -/
def updAll (ops : List (κ × Option β)) (l : List (κ × β)) : List (κ × β) :=
  ops.foldl (fun l op => upd op.1 op.2 l) l

@[simp] theorem updAll_nil (l : List (κ × β)) : updAll [] l = l := rfl

@[simp] theorem updAll_cons (op : κ × Option β) (ops : List (κ × Option β)) (l : List (κ × β)) :
    updAll (op :: ops) l = updAll ops (upd op.1 op.2 l) := rfl

@[simp] theorem find_nil (k : κ) : find k ([] : List (κ × β)) = none := rfl

theorem find_cons (k : κ) (e : κ × β) (t : List (κ × β)) :
    find k (e :: t) = if e.1 = k then some e.2 else find k t := by
  unfold find
  by_cases h : e.1 = k <;> simp [h]

/-! ## Entries and order after an update -/

theorem mem_upd {e : κ × β} (h : e ∈ upd k v l) : (e.1 = k ∧ v = some e.2) ∨ e ∈ l := by
  induction l with
  | nil =>
    cases v with
    | none => simp [upd] at h
    | some d =>
      simp only [upd, mem_singleton] at h
      exact Or.inl (by simp [h])
  | cons a t ih =>
    unfold upd at h
    split at h
    · rcases mem_cons.1 h with rfl | h
      · exact Or.inr (mem_cons_self ..)
      · exact (ih h).imp_right (mem_cons_of_mem _)
    · split at h
      · cases v with
        | none => exact Or.inr (mem_cons_of_mem _ h)
        | some d =>
          rcases mem_cons.1 h with rfl | h
          · exact Or.inl ⟨rfl, rfl⟩
          · exact Or.inr (mem_cons_of_mem _ h)
      · cases v with
        | none => exact Or.inr h
        | some d =>
          rcases mem_cons.1 h with rfl | h
          · exact Or.inl ⟨rfl, rfl⟩
          · exact Or.inr h

/-- A bound on the keys that the written key meets too is kept. -/
theorem forall_upd {P : κ → Prop} (hk : P k) (hl : ∀ e ∈ l, P e.1) : ∀ e ∈ upd k v l, P e.1 := by
  intro e he
  rcases mem_upd he with ⟨h, _⟩ | h
  · rwa [h]
  · exact hl e h

theorem sorted_upd (hl : Sorted l) : Sorted (upd k v l) := by
  induction l with
  | nil => cases v <;> simp [upd, Sorted]
  | cons a t ih =>
    obtain ⟨hat, ht⟩ := pairwise_cons.1 hl
    unfold upd
    split
    · next hlt =>
        refine pairwise_cons.2 ⟨fun e he => ?_, ih ht⟩
        exact forall_upd (P := (a.1 < ·)) hlt hat e he
    · next hge =>
        split
        · next heq =>
            cases v with
            | none => exact ht
            | some d => exact pairwise_cons.2 ⟨fun e he => heq ▸ hat e he, ht⟩
        · next hne =>
            cases v with
            | none => exact hl
            | some d =>
              have hlt : k < a.1 := lt_of_le_of_ne (not_lt.1 hge) (Ne.symm hne)
              refine pairwise_cons.2 ⟨fun e he => ?_, hl⟩
              rcases mem_cons.1 he with rfl | he
              · exact hlt
              · exact hlt.trans (hat e he)

theorem sorted_updAll (hl : Sorted l) : Sorted (updAll ops l) := by
  induction ops generalizing l with
  | nil => exact hl
  | cons op ops ih => exact ih (sorted_upd hl)

/-! ## Reading after an update -/

theorem find_eq_none (h : ∀ e ∈ l, e.1 ≠ k) : find k l = none := by
  induction l with
  | nil => rfl
  | cons a t ih =>
    rw [find_cons, if_neg (h a (mem_cons_self ..))]
    exact ih (fun e he => h e (mem_cons_of_mem _ he))

/-- On a sorted list `upd` is function update. -/
theorem find_upd (hl : Sorted l) (k' : κ) :
    find k' (upd k v l) = if k' = k then v else find k' l := by
  induction l with
  | nil =>
    cases v with
    | none => simp [upd]
    | some d => simp [upd, find_cons, eq_comm]
  | cons a t ih =>
    obtain ⟨hat, ht⟩ := pairwise_cons.1 hl
    unfold upd
    split
    · next hlt =>
        rw [find_cons, ih ht, find_cons]
        by_cases h : k' = k
        · have hne : a.1 ≠ k' := by rw [h]; exact hlt.ne
          simp [h ▸ hne, h]
        · simp [h]
    · next hge =>
        split
        · next heq =>
            have htk : find k t = none := find_eq_none (fun e he => by
              have := hat e he
              rw [heq] at this
              exact this.ne')
            cases v with
            | none =>
              by_cases h : k' = k
              · simp [h, htk]
              · have hne : a.1 ≠ k' := by rw [heq]; exact Ne.symm h
                simp [h, find_cons, hne]
            | some d =>
              by_cases h : k' = k
              · simp [h, find_cons]
              · have hne : a.1 ≠ k' := by rw [heq]; exact Ne.symm h
                simp [h, find_cons, hne, Ne.symm h]
        · next hne =>
            have hlt : k < a.1 := lt_of_le_of_ne (not_lt.1 hge) (Ne.symm hne)
            have hnone : find k (a :: t) = none := by
              refine find_eq_none (fun e he => ?_)
              rcases mem_cons.1 he with rfl | he
              · exact hlt.ne'
              · exact (hlt.trans (hat e he)).ne'
            cases v with
            | none => by_cases h : k' = k <;> simp [h, hnone]
            | some d =>
              by_cases h : k' = k
              · simp [h, find_cons]
              · rw [find_cons, if_neg (Ne.symm h), if_neg h]

/-- A batch read as a function: the updates applied left to right. -/
theorem find_updAll (ops : List (κ × Option β)) (hl : Sorted l) :
    (fun k => find k (updAll ops l))
      = ops.foldl (fun m op => Function.update m op.1 op.2) (fun k => find k l) := by
  induction ops generalizing l with
  | nil => rfl
  | cons op ops ih =>
    rw [updAll_cons, ih (sorted_upd hl), foldl_cons]
    congr 1
    funext k
    rw [find_upd hl, Function.update_apply]

/-! ## Cutting at a key -/

theorem upd_append_left (hr : ∀ e ∈ r, k < e.1) : upd k v (l ++ r) = upd k v l ++ r := by
  induction l with
  | nil =>
    cases r with
    | nil => simp
    | cons a t =>
      have ha := hr a (mem_cons_self ..)
      cases v <;> simp [upd, ha.not_gt, ha.ne']
  | cons a t ih =>
    simp only [cons_append, upd, ih]
    split
    · rfl
    · split <;> cases v <;> rfl

theorem upd_append_right (hl : ∀ e ∈ l, e.1 < k) : upd k v (l ++ r) = l ++ upd k v r := by
  induction l with
  | nil => rfl
  | cons a t ih =>
    have ha := hl a (mem_cons_self ..)
    simp only [cons_append, upd, if_pos ha, ih (fun e he => hl e (mem_cons_of_mem _ he))]

/-- Cut at `c`: the updates below `c` act on the left part and the others on the right part. -/
theorem updAll_append (c : κ) (hl : ∀ e ∈ l, e.1 < c) (hr : ∀ e ∈ r, c ≤ e.1) :
    updAll ops (l ++ r) = updAll (ops.filter (fun op => op.1 < c)) l
      ++ updAll (ops.filter (fun op => c ≤ op.1)) r := by
  induction ops generalizing l r with
  | nil => rfl
  | cons op ops ih =>
    by_cases h : op.1 < c
    · have h' : ¬ c ≤ op.1 := not_le.2 h
      rw [updAll_cons, upd_append_left (fun e he => h.trans_le (hr e he)),
        ih (forall_upd (P := (· < c)) h hl) hr]
      simp [h, h']
    · have h' : c ≤ op.1 := not_lt.1 h
      rw [updAll_cons, upd_append_right (fun e he => (hl e he).trans_le h'),
        ih hl (forall_upd (P := (c ≤ ·)) h' hr)]
      simp [h, h']

/-- Cut at `c`: keys below `c` are found on the left and the others on the right. -/
theorem find_append (c : κ) (hl : ∀ e ∈ l, e.1 < c) (hr : ∀ e ∈ r, c ≤ e.1) (k : κ) :
    find k (l ++ r) = if k < c then find k l else find k r := by
  induction l with
  | nil =>
    by_cases h : k < c
    · rw [if_pos h, nil_append]
      exact find_eq_none (fun e he => (h.trans_le (hr e he)).ne')
    · rw [if_neg h, nil_append]
  | cons a t ih =>
    have ha := hl a (mem_cons_self ..)
    rw [cons_append, find_cons, ih (fun e he => hl e (mem_cons_of_mem _ he)), find_cons]
    by_cases hk : a.1 = k
    · simp [hk, hk ▸ ha]
    · simp [hk]

/-! ## Entries and single keys -/

theorem find_of_mem (hs : Sorted l) {e : κ × β} (he : e ∈ l) : find e.1 l = some e.2 := by
  induction l with
  | nil => simp at he
  | cons a t ih =>
    obtain ⟨hat, ht⟩ := pairwise_cons.1 hs
    rw [find_cons]
    rcases mem_cons.1 he with rfl | he
    · simp
    · rw [if_neg (hat e he).ne]
      exact ih ht he

theorem mem_of_find {d : β} (h : find k l = some d) : (k, d) ∈ l := by
  induction l with
  | nil => simp at h
  | cons a t ih =>
    rw [find_cons] at h
    split at h
    · next heq =>
        obtain rfl := Option.some.inj h
        rw [← heq]
        exact mem_cons_self ..
    · exact mem_cons_of_mem _ (ih h)

theorem updAll_append_ops (ops ops' : List (κ × Option β)) (l : List (κ × β)) :
    updAll (ops ++ ops') l = updAll ops' (updAll ops l) := by
  simp [updAll, foldl_append]

/-- A batch without an op on a key leaves it alone. -/
theorem find_updAll_other (hs : Sorted l) (hk : ∀ op ∈ ops, op.1 ≠ k) :
    find k (updAll ops l) = find k l := by
  induction ops generalizing l with
  | nil => rfl
  | cons op ops ih =>
    rw [updAll_cons, ih (sorted_upd hs) (fun o ho => hk o (mem_cons_of_mem _ ho)),
      find_upd hs, if_neg (Ne.symm (hk op (by simp)))]

end SortedMap
