import EmbLinkOs.Embkfs.Node

set_option autoImplicit false

/-! # Well-formed trees and what they contain

`WellFormed view l p its bs`: the node `p` names on the device `view` roots a tree of level `l`
whose leaves, read from left to right, hold the items `its`, and whose nodes occupy the blocks
`bs`. Leaves are sorted, every slot carries the least key of its child's subtree, and every child
is one level below its parent.

That is not enough for a search to work: it says nothing about the order *between* the children of
a node. What the engine maintains is the same together with `SortedMap.Sorted its`: the items of
the whole tree are in order. Then slot keys partition the key space, `slotOf` picks the one child
that can hold a key, and `findItem` reads the tree as a finite map (`findItem_eq`). -/

namespace EmbLinkOs.Embkfs

open List

open SortedMap

variable {α : Type} {slots : List Slot}

/-- A child of an internal node: the slot, and what the subtree under it holds and occupies. -/
structure Sub (α : Type) where
  slot : Slot
  items : List (Key × α)
  blocks : List Nat

/-- `k` is the smallest key of `its`. -/
def LeastKey (k : Key) (its : List (Key × α)) : Prop :=
  (∃ e ∈ its, e.1 = k) ∧ ∀ e ∈ its, k ≤ e.1

/-- The items and the blocks of consecutive subtrees, from left to right. -/
def subItems (kids : List (Sub α)) : List (Key × α) := kids.flatMap Sub.items

def subBlocks (kids : List (Sub α)) : List Nat := kids.flatMap Sub.blocks

@[simp] theorem subItems_nil : subItems ([] : List (Sub α)) = [] := rfl

@[simp] theorem subItems_cons (k : Sub α) (ks : List (Sub α)) :
    subItems (k :: ks) = k.items ++ subItems ks := by simp [subItems]

@[simp] theorem subItems_append (ks ks' : List (Sub α)) :
    subItems (ks ++ ks') = subItems ks ++ subItems ks' := by simp [subItems]

@[simp] theorem subBlocks_nil : subBlocks ([] : List (Sub α)) = [] := rfl

@[simp] theorem subBlocks_cons (k : Sub α) (ks : List (Sub α)) :
    subBlocks (k :: ks) = k.blocks ++ subBlocks ks := by simp [subBlocks]

@[simp] theorem subBlocks_append (ks ks' : List (Sub α)) :
    subBlocks (ks ++ ks') = subBlocks ks ++ subBlocks ks' := by simp [subBlocks]

variable {ks : List (Sub α)}

theorem mem_subBlocks {b : Nat} :
    b ∈ subBlocks ks ↔ ∃ k ∈ ks, b ∈ k.blocks := mem_flatMap

theorem mem_subItems {e : Key × α} :
    e ∈ subItems ks ↔ ∃ k ∈ ks, e ∈ k.items := mem_flatMap

/-! ## Order between the children of a node -/

/-- The slot key of the second child separates the first child from the rest. -/
theorem sub_cut {k k' : Sub α} (hs : Sorted (subItems (k :: k' :: ks)))
    (hl : LeastKey k'.slot.key k'.items) :
    (∀ e ∈ k.items, e.1 < k'.slot.key) ∧ ∀ e ∈ subItems (k' :: ks), k'.slot.key ≤ e.1 := by
  rw [subItems_cons] at hs
  obtain ⟨-, hs', hlt⟩ := pairwise_append.1 hs
  obtain ⟨⟨m, hm, hmk⟩, hmin⟩ := hl
  refine ⟨fun e he => ?_, fun e he => ?_⟩
  · rw [← hmk]
    exact hlt e he m (by rw [subItems_cons]; exact mem_append_left _ hm)
  · rw [subItems_cons] at he hs'
    rcases mem_append.1 he with he | he
    · exact hmin e he
    · rw [← hmk]
      exact ((pairwise_append.1 hs').2.2 m hm e he).le

theorem sorted_tail {k : Sub α} (hs : Sorted (subItems (k :: ks))) : Sorted (subItems ks) := by
  rw [subItems_cons] at hs
  exact (pairwise_append.1 hs).2.1

theorem sorted_of_mem {k : Sub α} (hs : Sorted (subItems ks)) (hk : k ∈ ks) : Sorted k.items := by
  induction ks with
  | nil => exact absurd hk (by simp)
  | cons k' ks ih =>
    rcases mem_cons.1 hk with rfl | hk
    · rw [subItems_cons] at hs
      exact (pairwise_append.1 hs).1
    · exact ih (sorted_tail hs) hk

/-- In an ordered node the slot keys increase. -/
theorem slots_sorted (hs : Sorted (subItems ks)) (hl : ∀ k ∈ ks, LeastKey k.slot.key k.items) :
    (ks.map Sub.slot).Pairwise (fun a b => a.key < b.key) := by
  induction ks with
  | nil => exact List.Pairwise.nil
  | cons k ks ih =>
    rw [map_cons]
    refine pairwise_cons.2 ⟨fun s hsm => ?_,
      ih (sorted_tail hs) (fun k hk => hl k (mem_cons_of_mem _ hk))⟩
    obtain ⟨k', hk', rfl⟩ := mem_map.1 hsm
    obtain ⟨⟨m, hm, hmk⟩, -⟩ := hl k (mem_cons_self ..)
    obtain ⟨⟨m', hm', hmk'⟩, -⟩ := hl k' (mem_cons_of_mem _ hk')
    rw [← hmk, ← hmk']
    rw [subItems_cons] at hs
    exact (pairwise_append.1 hs).2.2 m hm m' (mem_subItems.2 ⟨k', hk', hm'⟩)

/-! ## Routing -/

/-- How many slots, from the left, are at or below `k`. -/
def slotCount (slots : List Slot) (k : Key) : Nat :=
  (slots.takeWhile (fun s => s.key ≤ k)).length

theorem slotOf_eq_none {k : Key} : slotOf slots k = none ↔ slotCount slots k = 0 := by
  unfold slotOf slotCount
  generalize (slots.takeWhile (fun s => s.key ≤ k)).length = c
  cases c <;> simp

theorem slotOf_eq_some {k : Key} {i : Nat} :
    slotOf slots k = some i ↔ slotCount slots k = i + 1 := by
  unfold slotOf slotCount
  generalize (slots.takeWhile (fun s => s.key ≤ k)).length = c
  cases c <;> simp

theorem slotCount_le (slots : List Slot) (k : Key) : slotCount slots k ≤ slots.length :=
  (takeWhile_sublist _).length_le

/-- Among increasing slot keys the count reaches past slot `i` exactly when its key does not
    exceed `k`. -/
theorem lt_slotCount (hs : slots.Pairwise (fun a b => a.key < b.key)) {k : Key} {i : Nat} {s : Slot}
    (hi : slots[i]? = some s) : i < slotCount slots k ↔ s.key ≤ k := by
  unfold slotCount
  induction slots generalizing i with
  | nil => simp at hi
  | cons a t ih =>
    obtain ⟨hat, ht⟩ := pairwise_cons.1 hs
    by_cases ha : a.key ≤ k
    · rw [takeWhile_cons_of_pos (by simpa using ha), length_cons]
      cases i with
      | zero =>
        simp only [getElem?_cons_zero, Option.some.injEq] at hi
        simp [← hi, ha]
      | succ i =>
        rw [getElem?_cons_succ] at hi
        rw [Nat.succ_lt_succ_iff, ih ht hi]
    · rw [takeWhile_cons_of_neg (by simpa using ha)]
      have hsk : a.key ≤ s.key := by
        cases i with
        | zero =>
          simp only [getElem?_cons_zero, Option.some.injEq] at hi
          rw [hi]
        | succ i =>
          rw [getElem?_cons_succ] at hi
          exact (hat s (mem_of_getElem? hi)).le
      simp only [length_nil, Nat.not_lt_zero, false_iff]
      exact fun h => ha (hsk.trans h)

/-- A key is where its slot says: in the child `slotOf` picks, and nowhere if it picks none. -/
theorem find_route (hs : Sorted (subItems ks)) (hl : ∀ k ∈ ks, LeastKey k.slot.key k.items)
    (key : Key) :
    (slotOf (ks.map Sub.slot) key = none ∧ find key (subItems ks) = none) ∨
    ∃ i k, slotOf (ks.map Sub.slot) key = some i ∧ ks[i]? = some k ∧
      find key (subItems ks) = find key k.items := by
  simp only [slotOf_eq_none, slotOf_eq_some]
  unfold slotCount
  induction ks with
  | nil => exact Or.inl ⟨rfl, rfl⟩
  | cons k ks ih =>
    have hk := hl k (mem_cons_self ..)
    have hl' : ∀ k ∈ ks, LeastKey k.slot.key k.items :=
      fun k' hk' => hl k' (mem_cons_of_mem _ hk')
    rw [map_cons]
    by_cases hle : k.slot.key ≤ key
    · refine Or.inr ?_
      rw [takeWhile_cons_of_pos (by simpa using hle), length_cons]
      cases ks with
      | nil => exact ⟨0, k, by simp, by simp, by simp⟩
      | cons k' ks =>
        obtain ⟨hlt, hge⟩ := sub_cut hs (hl k' (by simp))
        have hcut := find_append k'.slot.key hlt hge key
        rw [subItems_cons (k := k), hcut]
        rcases ih (sorted_tail hs) hl' with ⟨h0, hnone⟩ | ⟨i, k'', hi, hk'', hfind⟩
        · refine ⟨0, k, by rw [h0], by simp, ?_⟩
          rw [map_cons] at h0
          have hlt' : key < k'.slot.key := by
            by_contra hge'
            rw [takeWhile_cons_of_pos (by simpa using hge')] at h0
            simp at h0
          rw [if_pos hlt']
        · refine ⟨i + 1, k'', by rw [hi], by simpa using hk'', ?_⟩
          have hge' : ¬ key < k'.slot.key := by
            intro hlt'
            rw [map_cons, takeWhile_cons_of_neg (by simpa using hlt')] at hi
            simp at hi
          rw [if_neg hge', hfind]
    · refine Or.inl ⟨by rw [takeWhile_cons_of_neg (by simpa using hle)]; rfl, ?_⟩
      refine find_eq_none (fun e he => ?_)
      have hlt : key < k.slot.key := not_le.1 hle
      have hmin : k.slot.key ≤ e.1 := by
        cases ks with
        | nil => exact hk.2 e (by simpa using he)
        | cons k' ks =>
          obtain ⟨hlt', hge⟩ := sub_cut hs (hl k' (by simp))
          rw [subItems_cons] at he
          rcases mem_append.1 he with he | he
          · exact hk.2 e he
          · obtain ⟨⟨m, hm, hmk⟩, -⟩ := hk
            rw [← hmk]
            exact ((hlt' m hm).trans_le (hge e he)).le
      exact (hlt.trans_le hmin).ne'

/-! ## Trees on a device -/

variable [Checksum α] {p : BlockPtr} {view view' : Nat → Option (Block α)} {bs : List Nat}
  {its : List (Key × α)} {l : Nat}

/-- The tree of level `l` under `p` is well formed, holds `its` and occupies `bs`. -/
def WellFormed (view : Nat → Option (Block α)) :
    Nat → BlockPtr → List (Key × α) → List Nat → Prop
  | 0, p, its, bs =>
    ∃ n, NodeAt view p n ∧ n.level = 0 ∧ n.items = its ∧ Sorted its ∧ bs = [p.block]
  | l + 1, p, its, bs =>
    ∃ n, NodeAt view p n ∧ n.level = l + 1 ∧ ∃ kids : List (Sub α), n.slots = kids.map Sub.slot ∧
      (∀ k ∈ kids, WellFormed view l k.slot.ptr k.items k.blocks ∧ LeastKey k.slot.key k.items) ∧
      its = subItems kids ∧ bs = p.block :: subBlocks kids

/-- The subtree under a slot is well formed and the slot carries its least key. -/
def Sub.Ok (view : Nat → Option (Block α)) (l : Nat) (k : Sub α) : Prop :=
  WellFormed view l k.slot.ptr k.items k.blocks ∧ LeastKey k.slot.key k.items

theorem nodeAt_unique {n n' : Node α} (h : NodeAt view p n) (h' : NodeAt view p n') : n = n' := by
  obtain ⟨c, hc, -⟩ := h
  obtain ⟨c', hc', -⟩ := h'
  have := hc.symm.trans hc'
  simp only [Option.some.injEq, Block.node.injEq] at this
  exact this.2

theorem NodeAt.congr {n : Node α} (h : NodeAt view p n) (hv : view' p.block = view p.block) :
    NodeAt view' p n := by
  obtain ⟨c, hc, hacc⟩ := h
  exact ⟨c, hv.trans hc, hacc⟩

/-- A tree depends on its own blocks only. -/
theorem WellFormed.congr (h : WellFormed view l p its bs) (hv : ∀ b ∈ bs, view' b = view b) :
    WellFormed view' l p its bs := by
  induction l generalizing p its bs with
  | zero =>
    obtain ⟨n, hn, hlev, hits, hs, rfl⟩ := h
    exact ⟨n, hn.congr (hv _ (by simp)), hlev, hits, hs, rfl⟩
  | succ l ih =>
    obtain ⟨n, hn, hlev, kids, hslots, hkids, rfl, rfl⟩ := h
    refine ⟨n, hn.congr (hv _ (by simp)), hlev, kids, hslots, fun k hk => ?_, rfl, rfl⟩
    refine ⟨ih (hkids k hk).1 (fun b hb => hv b ?_), (hkids k hk).2⟩
    exact mem_cons_of_mem _ (mem_subBlocks.2 ⟨k, hk, hb⟩)

theorem WellFormed.root_mem (h : WellFormed view l p its bs) : p.block ∈ bs := by
  cases l with
  | zero =>
    obtain ⟨n, -, -, -, -, rfl⟩ := h
    simp
  | succ l =>
    obtain ⟨n, -, -, kids, -, -, -, rfl⟩ := h
    simp

theorem WellFormed.nodeAt (h : WellFormed view l p its bs) :
    ∃ n, NodeAt view p n ∧ n.level = l := by
  cases l with
  | zero =>
    obtain ⟨n, hn, hlev, -⟩ := h
    exact ⟨n, hn, hlev⟩
  | succ l =>
    obtain ⟨n, hn, hlev, -⟩ := h
    exact ⟨n, hn, hlev⟩

/-! ## Searching -/

namespace Vol

/-- Descending an ordered tree without read faults ends at a leaf that has what the tree has under
    the key, or below the first slot of a tree that has nothing there. -/
theorem descendFrom_eq {v : Vol α} (ht : v.dev.readTape = []) (hm : v.FallbackOk) (key : Key)
    {fuel : Nat} (hfuel : l < fuel) (hw : WellFormed v.dev.view l p its bs) (hs : Sorted its) :
    (∃ n, descendFrom fuel p key v = (.ok n, v) ∧ find key n.items = find key its) ∨
    (descendFrom fuel p key v = (.error .enoent, v) ∧ find key its = none) := by
  induction l generalizing fuel p its bs with
  | zero =>
    obtain ⟨n, hn, hlev, hits, -, -⟩ := hw
    obtain ⟨fuel, rfl⟩ := Nat.exists_eq_succ_of_ne_zero (Nat.ne_zero_of_lt hfuel)
    refine Or.inl ⟨n, ?_, by rw [hits]⟩
    simp only [descendFrom, bind, Prog.bind, readNode_eq ht hn hm]
    rw [if_pos hlev]
    rfl
  | succ l ih =>
    obtain ⟨n, hn, hlev, kids, hslots, hkids, rfl, -⟩ := hw
    obtain ⟨fuel, rfl⟩ := Nat.exists_eq_succ_of_ne_zero (Nat.ne_zero_of_lt hfuel)
    have h0 : ¬ n.level = 0 := by omega
    simp only [descendFrom, bind, Prog.bind, readNode_eq ht hn hm, if_neg h0]
    rw [hslots]
    rcases find_route hs (fun k hk => (hkids k hk).2) key with
      ⟨hnone, hfind⟩ | ⟨i, k, hi, hk, hfind⟩
    · rw [hnone]
      exact Or.inr ⟨rfl, hfind⟩
    · have hki : (kids.map Sub.slot)[i]? = some k.slot := by
        rw [getElem?_map, hk]
        rfl
      rw [hi, Option.bind_some, hki, hfind]
      have hmem := mem_of_getElem? hk
      exact ih (by omega) (hkids k hmem).1 (sorted_of_mem hs hmem)

/-- **Search.** On an ordered tree `embkfs_find_item` reads the tree's items as a map. -/
theorem findItem_eq {v : Vol α} (ht : v.dev.readTape = []) (hm : v.FallbackOk) (hl : l < treeFuel)
    (hw : WellFormed v.dev.view l v.root its bs) (hs : Sorted its) (key : Key) :
    findItem key v = (.ok (find key its), v) := by
  simp only [findItem, descendToLeaf, bind, Prog.bind, Prog.attempt, Prog.get]
  rcases descendFrom_eq ht hm key hl hw hs with ⟨n, hn, hfind⟩ | ⟨hn, hfind⟩
  · simp only [hn, hfind, pure]
  · simp only [hn, hfind, pure]

end Vol

end EmbLinkOs.Embkfs
