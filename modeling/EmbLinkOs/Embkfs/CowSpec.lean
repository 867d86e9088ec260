import EmbLinkOs.Embkfs.Cow

set_option autoImplicit false
set_option linter.unusedSectionVars false

/-! # What the copy-on-write engine builds

`Built l its bs v out v'` is the common postcondition of the engine's routines: the slots `out` name
ordered, well-formed subtrees of level `l` that together hold exactly `its`, built from the blocks
`bs` by an allocator effect; the blocks of the new subtrees and the blocks noted as superseded are
together the blocks of the old ones and the allocated ones. Read errors, write errors and lack of
space end a routine early; it has then still only allocated, written what it allocated, and noted
blocks (`Aborted`).

Here are the rules for composing builds, and the routines that make leaves. `Fanout` has those that
make internal nodes, with the shape they keep. -/

namespace EmbLinkOs.Embkfs

open List
open Prog hiding bind

open SortedMap

variable {α : Type} {its : List (Key × α)}

/-- The head of a sorted list is its least key. -/
theorem leastKey_firstKey (hs : Sorted its) (hne : its ≠ []) :
    LeastKey (firstKey (its.map Prod.fst)) its := by
  cases its with
  | nil => exact absurd rfl hne
  | cons e t =>
    refine ⟨⟨e, mem_cons_self .., rfl⟩, fun e' he' => ?_⟩
    rcases mem_cons.1 he' with rfl | he'
    · exact le_refl _
    · exact ((pairwise_cons.1 hs).1 e' he').le

/-- The first slot key of an ordered node is the least key under it. -/
theorem leastKey_firstSlot {ks : List (Sub α)} (hs : Sorted (subItems ks))
    (hl : ∀ k ∈ ks, LeastKey k.slot.key k.items) (hne : ks ≠ []) :
    LeastKey (firstKey (ks.map (fun k => k.slot.key))) (subItems ks) := by
  cases ks with
  | nil => exact absurd rfl hne
  | cons k ks =>
    obtain ⟨⟨m, hm, hmk⟩, hmin⟩ := hl k (mem_cons_self ..)
    rw [subItems_cons] at hs ⊢
    refine ⟨⟨m, mem_append_left _ hm, hmk⟩, fun e he => ?_⟩
    show k.slot.key ≤ e.1
    rcases mem_append.1 he with he | he
    · exact hmin e he
    · rw [← hmk]
      exact ((pairwise_append.1 hs).2.2 m hm e he).le

variable [Checksum α]

/-- The subtree is well formed on the volume's device and the bit map marks its blocks. -/
def Sub.On (v : Vol α) (l : Nat) (k : Sub α) : Prop :=
  k.Ok v.dev.view l ∧ ∀ b ∈ k.blocks, v.bitmap b = true

namespace Vol

/-- The free index is sound and the root and its mirror, if there is one, are marked and equal. -/
structure Steady (v : Vol α) : Prop where
  free : v.FreeOk
  mirror : v.MirrorOk
  marked : v.rootMirror.block ≠ 0 →
    v.bitmap v.root.block = true ∧ v.bitmap v.rootMirror.block = true

/-- The run from `v` stopped at `v'`, having built nothing that anything refers to. -/
def Aborted (v : Vol α) (_ : Errno) (v' : Vol α) : Prop := ∃ A F, Effect A F v v'

/-- From `v` to `v'` the slots `out` were built: subtrees of level `l` that hold `its`, made of the
    blocks `bs` and of newly allocated ones. -/
def Built (l : Nat) (its : List (Key × α)) (bs : List Nat) (v : Vol α) (out : List Slot)
    (v' : Vol α) : Prop :=
  ∃ (subs : List (Sub α)) (A F : List Nat), out = subs.map Sub.slot ∧ Effect A F v v' ∧
    (∀ k ∈ subs, k.On v' l) ∧ subItems subs = its ∧ (subBlocks subs ++ F).Perm (bs ++ A)

variable {v v' v'' : Vol α} {l : Nat} {out : List Slot} {e : Errno} {k : Sub α} {bs bs' : List Nat}

theorem Effect.steady {A F : List Nat} (h : Effect A F v v') (hv : v.Steady) : v'.Steady := by
  refine ⟨h.free, fun hm => ?_, fun hm => ?_⟩ <;>
    rw [h.same.rootMirror] at hm ⊢ <;> rw [h.same.root] <;> obtain ⟨h1, h2⟩ := hv.marked hm
  · rw [h.view_eq h1, h.view_eq h2]
    exact hv.mirror hm
  · exact ⟨h.marked h1, h.marked h2⟩

theorem Effect.aborted {A F : List Nat} (h : Effect A F v v') (h' : Aborted v' e v'') :
    Aborted v e v'' := by
  obtain ⟨A', F', h'⟩ := h'
  exact ⟨_, _, h.trans h'⟩

/-- A subtree on the volume survives any further building. -/
theorem Effect.subOn {A F : List Nat} (h : Effect A F v v') (hk : k.On v l) : k.On v' l :=
  ⟨⟨hk.1.1.congr (fun b hb => h.view_eq (hk.2 b hb)), hk.1.2⟩, fun b hb => h.marked (hk.2 b hb)⟩

/-- A build that follows an effect: `bs` are the blocks it starts from, `bs'` those the effect
    leaves to it. -/
theorem Effect.built {A F : List Nat} (h : Effect A F v v') (hbs : (bs' ++ F).Perm (bs ++ A))
    (h' : Built l its bs' v' out v'') : Built l its bs v out v'' := by
  obtain ⟨subs, A', F', hout, he, hon, hits, hperm⟩ := h'
  refine ⟨subs, A ++ A', F ++ F', hout, h.trans he, hon, hits, ?_⟩
  rw [perm_iff_count] at hperm hbs ⊢
  intro b
  have h1 := hperm b
  have h2 := hbs b
  simp only [count_append] at h1 h2 ⊢
  omega

/-- Noting blocks after a build. -/
theorem Built.noted {F₀ : List Nat} (h : Built l its bs v out v') (h' : Effect [] F₀ v' v'') :
    Built l its (bs ++ F₀) v out v'' := by
  obtain ⟨subs, A, F, hout, he, hon, hits, hperm⟩ := h
  refine ⟨subs, A ++ [], F ++ F₀, hout, he.trans h', fun k hk => h'.subOn (hon k hk), hits, ?_⟩
  rw [perm_iff_count] at hperm ⊢
  intro b
  have := hperm b
  simp only [count_append, append_nil] at this ⊢
  omega

theorem Built.perm (h : Built l its bs v out v') (hp : bs.Perm bs') : Built l its bs' v out v' := by
  obtain ⟨subs, A, F, hout, he, hon, hits, hperm⟩ := h
  exact ⟨subs, A, F, hout, he, hon, hits, hperm.trans (hp.append_right _)⟩

/-- Subtrees that are kept as they are. -/
theorem built_keep (hv : v.FreeOk) (ks : List (Sub α)) (hks : ∀ k ∈ ks, k.On v l) :
    Built l (subItems ks) (subBlocks ks) v (ks.map Sub.slot) v :=
  ⟨ks, [], [], rfl, .refl hv, hks, rfl, by simp⟩

/-! ## Emitting -/

section Emit

variable [ItemData α] {items : List (Key × α)}

theorem wp_emitNode (level : Nat) (items : List (Key × α)) (slots : List Slot) (gen : Nat)
    (hv : v.FreeOk) :
    wp (emitNode level items slots gen)
      (fun p v' => Effect [p.block] [] v v' ∧
        NodeAt v'.dev.view p ⟨gen, p.block, level, items, slots⟩)
      (Aborted v) v := by
  unfold emitNode
  rw [wp_bind]
  refine wp_mono (wp_allocBlock hv) ?_ (fun e v' ⟨A, h⟩ => ⟨A, [], h⟩)
  intro b v₁ he
  unfold writeNode
  simp only [wp_bind, wp_pure]
  refine wp_mono (wp_devWrite b _ v₁) ?_ ?_
  · rintro _ v₂ ⟨ht, -, hview⟩
    refine ⟨he.touched ht (by simp), _, hview, ?_⟩
    simp [Node.accepted]
  · intro e v₂ ht
    exact ⟨[b], [], he.touched ht (by simp)⟩

theorem wp_emitLeaf (items : List (Key × α)) (gen : Nat) (hv : v.FreeOk) :
    wp (emitLeaf items gen)
      (fun s v' => leafBytes items ≤ v.blockSize ∧ s.key = firstKey (items.map Prod.fst) ∧
        Effect [s.ptr.block] [] v v' ∧
        NodeAt v'.dev.view s.ptr ⟨gen, s.ptr.block, 0, items, []⟩)
      (Aborted v) v := by
  unfold emitLeaf
  simp only [wp_bind, wp_get, wp_ite, wp_fail, wp_pure]
  refine ⟨fun _ => ⟨[], [], .refl hv⟩, fun hsize => ?_⟩
  refine wp_mono (wp_emitNode 0 items [] gen hv) ?_ (fun _ _ h => h)
  rintro p v' ⟨he, hn⟩
  exact ⟨not_lt.1 hsize, trivial, he, hn⟩

theorem wp_emitLeaf_built (hs : Sorted items) (hne : items ≠ []) (gen : Nat) (hv : v.FreeOk) :
    wp (emitLeaf items gen) (fun s => Built 0 items [] v [s]) (Aborted v) v := by
  refine wp_mono (wp_emitLeaf items gen hv) ?_ (fun _ _ h => h)
  rintro s v' ⟨-, hkey, he, hn⟩
  refine ⟨[⟨s, items, [s.ptr.block]⟩], [s.ptr.block], [], rfl, he, ?_, by simp, by simp⟩
  simp only [mem_singleton, forall_eq]
  refine ⟨⟨⟨_, hn, rfl, rfl, hs, rfl⟩, ?_⟩, ?_⟩
  · simp only [hkey]
    exact leastKey_firstKey hs hne
  · simp only [mem_singleton, forall_eq]
    exact he.marked_new (by simp)

/-- Two builds side by side: the second leaves the first's subtrees alone. -/
theorem Built.append {its' : List (Key × α)} {out' : List Slot} (h : Built l its bs v out v')
    (h' : Built l its' bs' v' out' v'') :
    Built l (its ++ its') (bs ++ bs') v (out ++ out') v'' := by
  obtain ⟨subs, A, F, rfl, he, hon, rfl, hperm⟩ := h
  obtain ⟨subs', A', F', rfl, he', hon', rfl, hperm'⟩ := h'
  refine ⟨subs ++ subs', A ++ A', F ++ F', by simp, he.trans he', fun k hk => ?_, by simp, ?_⟩
  · rcases mem_append.1 hk with hk | hk
    · exact he'.subOn (hon k hk)
    · exact hon' k hk
  · rw [perm_iff_count] at hperm hperm' ⊢
    intro b
    have h1 := hperm b
    have h2 := hperm' b
    simp only [count_append, subBlocks_append] at h1 h2 ⊢
    omega

theorem Built.free (h : Built l its bs v out v') : v'.FreeOk := by
  obtain ⟨_, _, _, _, he, _⟩ := h
  exact he.free

theorem Built.aborted (h : Built l its bs v out v') (h' : Aborted v' e v'') : Aborted v e v'' := by
  obtain ⟨_, _, _, _, he, _⟩ := h
  exact he.aborted h'

/-- Emptiness of the two halves a list is cut into. -/
theorem splitPoint_bounds (h : 2 ≤ items.length) :
    1 ≤ splitPoint items ∧ splitPoint items < items.length := by
  unfold splitPoint
  omega

theorem wp_emitLeafList (hs : Sorted items) (gen : Nat) (hv : v.FreeOk) :
    wp (emitLeafList items gen) (fun out => Built 0 items [] v out) (Aborted v) v := by
  unfold emitLeafList
  simp only [wp_bind, wp_get, wp_ite, wp_pure]
  refine ⟨fun h => ?_, fun hne => ⟨fun _ => ?_, fun hbig => ?_⟩⟩
  · subst h
    exact built_keep hv [] (by simp)
  · exact wp_emitLeaf_built hs hne gen hv
  · by_cases hlen : 2 ≤ items.length
    · obtain ⟨h1, h2⟩ := splitPoint_bounds hlen
      have htake : items.take (splitPoint items) ≠ [] := by
        rw [← length_pos_iff, length_take]; omega
      have hdrop : items.drop (splitPoint items) ≠ [] := by
        rw [← length_pos_iff, length_drop]; omega
      have hst : Sorted (items.take (splitPoint items)) := hs.sublist (take_sublist _ _)
      have hsd : Sorted (items.drop (splitPoint items)) := hs.sublist (drop_sublist _ _)
      refine wp_mono (wp_emitLeaf_built hst htake gen hv) ?_ (fun _ _ h => h)
      intro a v₁ hba
      refine wp_mono (wp_emitLeaf_built hsd hdrop gen hba.free) ?_ (fun _ _ h => hba.aborted h)
      intro b v₂ hbb
      have := hba.append hbb
      rwa [take_append_drop] at this
    · -- A single item too large for a block: the cut leaves it whole, and it does not fit.
      obtain ⟨e, rfl⟩ : ∃ e, items = [e] := by
        have hpos := length_pos_iff.2 hne
        exact length_eq_one_iff.1 (by omega)
      have hsp : splitPoint [e] = 0 := by simp [splitPoint]
      rw [hsp, drop_zero]
      refine wp_mono (wp_emitLeaf _ gen hv) ?_ (fun _ _ h => h)
      rintro a v₁ ⟨-, -, he, -⟩
      refine wp_mono (wp_emitLeaf _ gen he.free) ?_ (fun _ _ h => he.aborted h)
      rintro b v₂ ⟨hfit, -⟩
      rw [he.same.blockSize] at hfit
      exact absurd hfit hbig

/-! ## Rebalancing -/

/-- Reading the root node of a subtree that is on the volume. -/
theorem wp_readSub (hv : v.Steady) (hk : k.On v l) :
    wp (readNode k.slot.ptr)
      (fun n v' => ReadOnlyStep v v' ∧ NodeAt v.dev.view k.slot.ptr n ∧ n.level = l)
      (fun _ v' => ReadOnlyStep v v') v := by
  obtain ⟨n, hn, hlev⟩ := hk.1.1.nodeAt
  refine wp_mono (wp_readNode hn hv.mirror) ?_ (fun _ _ h => h)
  rintro n' v' ⟨rfl, hstep⟩
  exact ⟨hstep, hn, hlev⟩

theorem ReadOnlyStep.steady (h : ReadOnlyStep v v') (hv : v.Steady) : v'.Steady :=
  (h.effect hv.free).steady hv

theorem ReadOnlyStep.aborted (h : ReadOnlyStep v v') (hv : v.FreeOk) :
    Aborted v e v' := ⟨[], [], h.effect hv⟩

/-- Continue rebalancing after two neighbours were replaced by `subs`. -/
theorem Effect.built_replaced {A F : List Nat} {a b : Sub α} {ds subs rest : List (Sub α)}
    (he : Effect A F v v') (hperm : (subBlocks subs ++ F).Perm (a.blocks ++ b.blocks ++ A))
    (h : Built l its (subBlocks (ds ++ subs ++ rest)) v' out v'') :
    Built l its (subBlocks (ds ++ a :: b :: rest)) v out v'' := by
  refine he.built ?_ h
  rw [perm_iff_count] at hperm ⊢
  intro x
  have := hperm x
  simp only [subBlocks_append, subBlocks_cons, count_append] at this ⊢
  omega

/-! ## Applying ops -/

/-- The ops routed to child `i` and those routed further right act on the child and on what is
    right of it. -/
theorem updAll_route {pre ks : List (Sub α)} (hs : Sorted (subItems (pre ++ k :: ks)))
    (hl : ∀ k' ∈ pre ++ k :: ks, LeastKey k'.slot.key k'.items) (ops : List (Put α)) :
    let slots := (pre ++ k :: ks).map Sub.slot
    updAll (ops.filter (fun op => pre.length < slotCount slots op.1)) (subItems (k :: ks))
      = updAll (ops.filter (fun op => slotOf slots op.1 = some pre.length)) k.items
        ++ updAll (ops.filter (fun op => pre.length + 1 < slotCount slots op.1)) (subItems ks) := by
  intro slots
  have hss := slots_sorted hs hl
  cases ks with
  | nil =>
    -- The last child: nothing is routed further right.
    have hle : ∀ op : Put α, slotCount slots op.1 ≤ pre.length + 1 := by
      intro op
      have := slotCount_le slots op.1
      simpa [slots] using this
    have h1 : (ops.filter (fun op => pre.length < slotCount slots op.1))
        = ops.filter (fun op => slotOf slots op.1 = some pre.length) := by
      refine filter_congr (fun op _ => ?_)
      have := hle op
      simp only [slotOf_eq_some, decide_eq_decide]
      omega
    have h2 : ops.filter (fun op => pre.length + 1 < slotCount slots op.1) = [] := by
      refine filter_eq_nil_iff.2 (fun op _ => ?_)
      have := hle op
      simp only [decide_eq_true_eq]
      omega
    rw [h1, h2]
    simp
  | cons k' ks =>
    have hs' : Sorted (subItems (k :: k' :: ks)) := by
      rw [subItems_append] at hs
      exact (pairwise_append.1 hs).2.1
    obtain ⟨hlt, hge⟩ := sub_cut hs' (hl k' (by simp))
    have hnext : ∀ op : Put α, pre.length + 1 < slotCount slots op.1 ↔ k'.slot.key ≤ op.1 := by
      intro op
      refine lt_slotCount hss ?_
      simp
    rw [subItems_cons, updAll_append k'.slot.key hlt hge, filter_filter, filter_filter]
    congr 2
    · refine filter_congr (fun op _ => ?_)
      have h := hnext op
      simp only [slotOf_eq_some, ← Bool.decide_and, decide_eq_decide]
      rw [← not_le, ← h]
      omega
    · refine filter_congr (fun op _ => ?_)
      have h := hnext op
      simp only [← Bool.decide_and, decide_eq_decide]
      rw [← h]
      omega

theorem length_emitLeafList (items : List (Key × α)) (gen : Nat) (v : Vol α) :
    wp (emitLeafList items gen) (fun out _ => out.length ≤ 2) (fun _ _ => True) v := by
  unfold emitLeafList
  simp only [wp_bind, wp_get, wp_ite, wp_pure]
  refine ⟨fun _ => by simp, fun _ => ⟨fun _ => ?_, fun _ => ?_⟩⟩
  · exact wp_of_forall (fun _ _ => by simp) (fun _ _ => trivial)
  · exact wp_of_forall (fun _ _ => wp_of_forall (fun _ _ => by simp)
      (fun _ _ => trivial)) (fun _ _ => trivial)

omit [Checksum α] [ItemData α] in
theorem singleton_of_map {kids : List (Sub α)} {s : Slot} (h : [s] = kids.map Sub.slot) :
    ∃ k, kids = [k] ∧ k.slot = s := by
  obtain ⟨k, rfl, hk⟩ := map_eq_singleton_iff.1 h.symm
  exact ⟨k, rfl, hk⟩

end Emit

end Vol

end EmbLinkOs.Embkfs
