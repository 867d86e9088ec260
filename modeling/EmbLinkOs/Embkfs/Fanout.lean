import EmbLinkOs.Embkfs.CowSpec

set_option autoImplicit false
set_option linter.unusedSectionVars false

/-! # Fan-out

Every internal node except the root has at least half of the slots it has room for, so a tree is
never higher than the logarithm of the number of its blocks and its level fits the one byte it is
stored in. The engine re-establishes this only because a transaction can note at most
`EMBK_TXN_MAX` superseded nodes: a batch that thinned out a node so far that its children had to
be joined into a single small one would have overflowed the transaction first.

`Fan view lo l p` is the shape: the node at `p` has at least `lo` slots and everything below it is
at least half full. Each routine that makes internal nodes has one specification: what it builds,
and what becomes of the shape if it had one, in terms of the slots returned and of the number of
nodes noted on the way (`Vol.notedCount`). -/

namespace EmbLinkOs.Embkfs

open List
open Prog hiding bind

open SortedMap

variable {α : Type} [Checksum α] {p : BlockPtr} {view : Nat → Option (Block α)} {bs : List Nat}
  {its : List (Key × α)}

/-- Half of the slots of a node, rounded up. -/
def halfSlots : Nat := Vol.minSlots 1

theorem halfSlots_eq : halfSlots = 36 := rfl

/-- Below the node at `p` every internal node has `halfSlots` to `maxSlots` slots; the node itself
    has `lo` to `maxSlots`. -/
def Fan (view : Nat → Option (Block α)) : Nat → Nat → BlockPtr → Prop
  | _, 0, _ => True
  | lo, l + 1, p => ∃ n, NodeAt view p n ∧ lo ≤ n.slots.length ∧ n.slots.length ≤ maxSlots ∧
      ∀ s ∈ n.slots, Fan view halfSlots l s.ptr

/-- The number of slots of the node at `p`, of level `l`. -/
def slotsAt (view : Nat → Option (Block α)) : Nat → BlockPtr → Nat
  | 0, _ => 0
  | _ + 1, p => match view p.block with
    | some (.node _ n) => n.slots.length
    | _ => 0

/-- The number of slots of consecutive nodes of level `l`. -/
def widthOf (view : Nat → Option (Block α)) (l : Nat) (out : List Slot) : Nat :=
  (out.map (fun s => slotsAt view l s.ptr)).sum

theorem slotsAt_succ {l : Nat} {n : Node α} (h : NodeAt view p n) :
    slotsAt view (l + 1) p = n.slots.length := by
  obtain ⟨c, hc, -⟩ := h
  simp only [slotsAt, hc]

@[simp] theorem widthOf_nil (view : Nat → Option (Block α)) (l : Nat) : widthOf view l [] = 0 := rfl

@[simp] theorem widthOf_cons (view : Nat → Option (Block α)) (l : Nat) (s : Slot)
    (out : List Slot) : widthOf view l (s :: out) = slotsAt view l s.ptr + widthOf view l out := by
  simp [widthOf]

@[simp] theorem widthOf_append (view : Nat → Option (Block α)) (l : Nat) (out out' : List Slot) :
    widthOf view l (out ++ out') = widthOf view l out + widthOf view l out' := by
  simp [widthOf]

theorem Fan.mono {lo lo' l : Nat} (h : Fan view lo l p) (hlo : lo' ≤ lo) : Fan view lo' l p := by
  cases l with
  | zero => trivial
  | succ l =>
    obtain ⟨n, hn, h1, h2, h3⟩ := h
    exact ⟨n, hn, hlo.trans h1, h2, h3⟩

/-- The lower bound on a node's own slots can be read off the node. -/
theorem Fan.of_slotsAt {lo lo' l : Nat} (h : Fan view lo (l + 1) p)
    (hlo : lo' ≤ slotsAt view (l + 1) p) : Fan view lo' (l + 1) p := by
  obtain ⟨n, hn, -, h2, h3⟩ := h
  rw [slotsAt_succ hn] at hlo
  exact ⟨n, hn, hlo, h2, h3⟩

theorem Fan.slotsAt_bounds {lo l : Nat} (h : Fan view lo (l + 1) p) :
    lo ≤ slotsAt view (l + 1) p ∧ slotsAt view (l + 1) p ≤ maxSlots := by
  obtain ⟨n, hn, h1, h2, -⟩ := h
  rw [slotsAt_succ hn]
  exact ⟨h1, h2⟩

/-- The shape of a tree depends on its own blocks only. -/
theorem Fan.congr {view' : Nat → Option (Block α)} {lo l : Nat} (h : Fan view lo l p)
    (hw : WellFormed view l p its bs) (hv : ∀ b ∈ bs, view' b = view b) : Fan view' lo l p := by
  induction l generalizing lo p its bs with
  | zero => trivial
  | succ l ih =>
    obtain ⟨n, hn, h1, h2, h3⟩ := h
    obtain ⟨n', hn', -, kids, hslots, hkids, rfl, rfl⟩ := hw
    obtain rfl := nodeAt_unique hn hn'
    refine ⟨n, hn.congr (hv _ (by simp)), h1, h2, fun s hs => ?_⟩
    have hs' := hs
    rw [hslots] at hs'
    obtain ⟨k, hk, rfl⟩ := mem_map.1 hs'
    exact ih (h3 _ hs) (hkids k hk).1
      (fun b hb => hv b (mem_cons_of_mem _ (mem_subBlocks.2 ⟨k, hk, hb⟩)))

/-- A tree that fans out has many blocks. -/
theorem Fan.length_blocks {lo l : Nat} (h : Fan view lo (l + 1) p)
    (hw : WellFormed view (l + 1) p its bs) : lo * halfSlots ^ l ≤ bs.length := by
  induction l generalizing lo p its bs with
  | zero =>
    obtain ⟨n, hn, h1, -, -⟩ := h
    obtain ⟨n', hn', -, kids, hslots, hkids, rfl, rfl⟩ := hw
    obtain rfl := nodeAt_unique hn hn'
    have hone : ∀ k ∈ kids, 1 ≤ k.blocks.length := fun k hk =>
      length_pos_of_mem (hkids k hk).1.root_mem
    have hsum : kids.length ≤ (subBlocks kids).length := by
      rw [subBlocks, length_flatMap]
      simpa using card_nsmul_le_sum (kids.map (fun k => k.blocks.length)) 1 (by simpa using hone)
    rw [hslots, length_map] at h1
    simp only [pow_zero, mul_one, length_cons]
    omega
  | succ l ih =>
    obtain ⟨n, hn, h1, -, h3⟩ := h
    obtain ⟨n', hn', -, kids, hslots, hkids, rfl, rfl⟩ := hw
    obtain rfl := nodeAt_unique hn hn'
    have hone : ∀ k ∈ kids, halfSlots * halfSlots ^ l ≤ k.blocks.length := by
      intro k hk
      refine ih (h3 k.slot ?_) (hkids k hk).1
      rw [hslots]
      exact mem_map_of_mem hk
    have hsum : kids.length * (halfSlots * halfSlots ^ l) ≤ (subBlocks kids).length := by
      rw [subBlocks, length_flatMap]
      simpa using card_nsmul_le_sum (kids.map (fun k => k.blocks.length)) _
        (by simpa using hone)
    rw [hslots, length_map] at h1
    calc lo * halfSlots ^ (l + 1) ≤ kids.length * (halfSlots * halfSlots ^ l) := by
          rw [pow_succ']
          exact Nat.mul_le_mul_right _ h1
      _ ≤ (subBlocks kids).length := hsum
      _ ≤ _ := by simp

/-- A tree on a volume of at most `2 ^ 64` blocks is far from the limit of its level byte. -/
theorem Fan.level_lt {l total : Nat} (h : Fan view 2 l p) (hw : WellFormed view l p its bs)
    (hnd : bs.Nodup) (hbs : ∀ b ∈ bs, b < total) (htotal : total ≤ 2 ^ 64) : l < 64 := by
  cases l with
  | zero => decide
  | succ l =>
    by_contra hl
    have hlen : bs.length ≤ total := by
      have := (subperm_of_subset hnd
        (fun b hb => mem_range.2 (hbs b hb) : bs ⊆ List.range total)).length_le
      simpa using this
    have hpow : 2 * 2 ^ 64 ≤ 2 * halfSlots ^ l := by
      refine Nat.mul_le_mul_left _ ?_
      calc 2 ^ 64 ≤ 2 ^ (2 * l) := Nat.pow_le_pow_right (by decide) (by omega)
        _ = 4 ^ l := by rw [pow_mul, show 2 ^ 2 = 4 from rfl]
        _ ≤ halfSlots ^ l := Nat.pow_le_pow_left (by decide) l
    have := h.length_blocks hw
    omega

namespace Vol

/-! ## Counting the nodes that were noted -/

/-- How many nodes the open transaction has noted as superseded. -/
def notedCount (v : Vol α) : Nat := (v.txn.map (fun t => t.freed.length)).getD 0

variable {v v' : Vol α} {k : Sub α} {ks : List (Sub α)}

omit [Checksum α] in
theorem Effect.tracked {A F : List Nat} (h : Effect A F v v') (ht : v'.Tracked) :
    v.Tracked ∧ v.notedCount ≤ v'.notedCount := by
  obtain ⟨t', ht', ho⟩ := ht
  have htxn := h.txn
  rw [ht'] at htxn
  rcases hv : v.txn with _ | t
  · rw [hv] at htxn
    exact False.elim htxn
  · rw [hv] at htxn
    refine ⟨⟨t, hv, htxn.overflow ho⟩, ?_⟩
    simp only [notedCount, hv, ht', Option.map_some, Option.getD_some]
    exact htxn.grows

omit [Checksum α] in
theorem Effect.notedCount_le {A F : List Nat} (h : Effect A F v v') (hv : v.notedCount ≤ txnMax) :
    v'.notedCount ≤ txnMax := by
  have htxn := h.txn
  rcases ht : v.txn with _ | t <;> rcases ht' : v'.txn with _ | t' <;> rw [ht, ht'] at htxn
  · simp [notedCount, ht']
  · exact False.elim htxn
  · exact False.elim htxn
  · simp only [notedCount, ht, ht', Option.map_some, Option.getD_some] at hv ⊢
    exact htxn.room hv

omit [Checksum α] in
/-- Noting one node counts it, unless that overflows the transaction. -/
theorem notedCount_noteFreed {b : Nat} (ht : (onTxn (·.pushFreed b) v).Tracked) :
    (onTxn (·.pushFreed b) v).notedCount = v.notedCount + 1 := by
  obtain ⟨t', ht', ho⟩ := ht
  rcases hv : v.txn with _ | t
  · simp [onTxn, hv] at ht'
  · simp only [onTxn, hv, Option.map_some, Option.some.injEq] at ht'
    subst ht'
    simp only [notedCount, onTxn, hv, Option.map_some, Option.getD_some]
    unfold Txn.pushFreed at ho ⊢
    split
    · simp
    · next hroom => rw [if_neg hroom] at ho; exact absurd ho (by simp)

/-- A subtree on the volume keeps its shape while others are built. -/
theorem Effect.fan {A F : List Nat} {lo l : Nat} (h : Effect A F v v') (hk : k.On v l)
    (hf : Fan v.dev.view lo l k.slot.ptr) : Fan v'.dev.view lo l k.slot.ptr :=
  hf.congr hk.1.1 (fun b hb => h.view_eq (hk.2 b hb))

theorem Effect.slotsAt_eq {A F : List Nat} {l : Nat} (h : Effect A F v v') (hk : k.On v l) :
    slotsAt v'.dev.view l k.slot.ptr = slotsAt v.dev.view l k.slot.ptr := by
  cases l with
  | zero => rfl
  | succ l =>
    have hb := h.view_eq (hk.2 _ hk.1.1.root_mem)
    simp only [slotsAt, hb]

theorem Effect.widthOf_eq {A F : List Nat} {l : Nat} (h : Effect A F v v')
    (hks : ∀ k ∈ ks, k.On v l) :
    widthOf v'.dev.view l (ks.map Sub.slot) = widthOf v.dev.view l (ks.map Sub.slot) := by
  simp only [widthOf, map_map]
  congr 1
  exact map_congr_left (fun k hk => h.slotsAt_eq (hks k hk))

/-! ## Emitting -/

section Emit

variable [ItemData α] {kids : List (Sub α)}

/-- The new node has exactly the slots it was given. -/
theorem wp_emitInternal (kids : List (Sub α)) {l : Nat} (hl : l + 1 < 256) (gen : Nat)
    (hv : v.FreeOk) (hkids : ∀ k ∈ kids, k.On v l) (hs : Sorted (subItems kids)) (hne : kids ≠ []) :
    wp (emitInternal (kids.map Sub.slot) (l + 1) gen)
      (fun s v' => Built (l + 1) (subItems kids) (subBlocks kids) v [s] v' ∧
        ∃ n, NodeAt v'.dev.view s.ptr n ∧ n.slots = kids.map Sub.slot)
      (Aborted v) v := by
  unfold emitInternal
  simp only [wp_bind, wp_get, wp_ite, wp_fail, wp_pure]
  refine ⟨fun _ => ⟨[], [], .refl hv⟩, fun _ => ?_⟩
  refine wp_mono (wp_emitNode _ [] _ gen hv) ?_ (fun _ _ h => h)
  rintro p v' ⟨he, hn⟩
  rw [Nat.mod_eq_of_lt hl] at hn
  refine ⟨⟨[⟨⟨firstKey ((kids.map Sub.slot).map Slot.key), p⟩, subItems kids,
    p.block :: subBlocks kids⟩], [p.block], [], rfl, he, ?_, by simp, ?_⟩, _, hn, rfl⟩
  · simp only [mem_singleton, forall_eq]
    have hleast : LeastKey (firstKey ((kids.map Sub.slot).map Slot.key)) (subItems kids) := by
      rw [map_map]
      exact leastKey_firstSlot hs (fun k hk => (hkids k hk).1.2) hne
    refine ⟨⟨⟨_, hn, rfl, kids, rfl, fun k hk => (he.subOn (hkids k hk)).1, rfl, rfl⟩, hleast⟩, ?_⟩
    intro b hb
    rcases mem_cons.1 hb with rfl | hb
    · exact he.marked_new (by simp)
    · obtain ⟨k, hk, hb⟩ := mem_subBlocks.1 hb
      exact he.marked ((hkids k hk).2 b hb)
  · have hswap : ([p.block] ++ subBlocks kids).Perm (subBlocks kids ++ [p.block]) :=
      perm_append_comm
    simpa using hswap

/-- What is known of a list of nodes of level `l` that were built to hold `w` slots: each has its
    slots and is half full below, and two or more of them are half full themselves. -/
def Even (l w : Nat) (out : List Slot) (v : Vol α) : Prop :=
  (∀ s ∈ out, Fan v.dev.view 1 l s.ptr) ∧ widthOf v.dev.view l out = w ∧
    (1 < out.length → ∀ s ∈ out, Fan v.dev.view halfSlots l s.ptr)

/-- A single node with a single child, which may be small. -/
def Thin (l : Nat) (out : List Slot) (v : Vol α) : Prop :=
  ∃ m s n c, l = m + 1 ∧ out = [s] ∧ NodeAt v.dev.view s.ptr n ∧ n.slots = [c] ∧
    Fan v.dev.view 1 m c.ptr

/-- What becomes of the shape when `kids` are entered in new nodes of level `l + 1`. -/
structure Spread (l : Nat) (kids : List (Sub α)) (v : Vol α) (out : List Slot) (v' : Vol α) :
    Prop where
  length_le : out.length ≤ 2
  even : (∀ k ∈ kids, Fan v.dev.view halfSlots l k.slot.ptr) → kids.length ≤ 2 * maxSlots →
    Even (l + 1) kids.length out v'
  thin : ∀ k, kids = [k] → Fan v.dev.view 1 l k.slot.ptr →
    Thin (l + 1) out v' ∧ widthOf v'.dev.view (l + 1) out = 1

/-- A node fans out if it has slots enough and its children are half full. -/
theorem fan_of_slots {A F : List Nat} {l lo : Nat} {n : Node α} (he : Effect A F v v')
    (hon : ∀ k ∈ kids, k.On v l) (hn : NodeAt v'.dev.view p n)
    (hslots : n.slots = kids.map Sub.slot)
    (hfan : ∀ k ∈ kids, Fan v.dev.view halfSlots l k.slot.ptr) (hlo : lo ≤ kids.length)
    (hlen : kids.length ≤ maxSlots) : Fan v'.dev.view lo (l + 1) p := by
  refine ⟨n, hn, by simpa [hslots] using hlo, by simpa [hslots] using hlen, fun s hs => ?_⟩
  rw [hslots] at hs
  obtain ⟨k, hk, rfl⟩ := mem_map.1 hs
  exact he.fan (hon k hk) (hfan k hk)

theorem Built.effect {l : Nat} {out : List Slot} (h : Built l its bs v out v') :
    ∃ A F, Effect A F v v' := by
  obtain ⟨_, A, F, _, he, _⟩ := h
  exact ⟨A, F, he⟩

theorem wp_emitInternalList {l : Nat} (hl : l + 1 < 256) (gen : Nat) (hv : v.FreeOk)
    (hon : ∀ k ∈ kids, k.On v l) (hs : Sorted (subItems kids)) :
    wp (emitInternalList (kids.map Sub.slot) (l + 1) gen)
      (fun out v' => Built (l + 1) (subItems kids) (subBlocks kids) v out v' ∧ Spread l kids v out v')
      (Aborted v) v := by
  unfold emitInternalList
  simp only [map_eq_nil_iff, length_map, wp_ite, wp_pure, wp_bind]
  refine ⟨fun h => ?_, fun hne => ⟨fun hfit => ?_, fun hbig => ?_⟩⟩
  · subst h
    exact ⟨built_keep hv [] (by simp), by simp, fun _ _ => ⟨by simp, rfl, by simp⟩,
      fun k hk => absurd hk (by simp)⟩
  · refine wp_mono (wp_emitInternal _ hl gen hv hon hs hne) ?_ (fun _ _ h => h)
    rintro s v' ⟨hbuilt, n, hn, hslots⟩
    obtain ⟨A, F, he⟩ := hbuilt.effect
    have hwidth : widthOf v'.dev.view (l + 1) [s] = kids.length := by
      simp [slotsAt_succ hn, hslots]
    refine ⟨hbuilt, by simp, fun hfan _ => ⟨fun t ht => ?_, hwidth, by simp⟩, fun k hk hfan => ?_⟩
    · rw [mem_singleton.1 ht]
      exact fan_of_slots he hon hn hslots hfan (length_pos_iff.2 hne) hfit
    · subst hk
      exact ⟨⟨l, s, n, k.slot, rfl, rfl, hn, hslots, he.fan (hon k (by simp)) hfan⟩, hwidth⟩
  · have hlen : 2 ≤ kids.length := by simp only [maxSlots] at hbig; omega
    have hsub : subItems (kids.take (kids.length / 2)) ++ subItems (kids.drop (kids.length / 2))
        = subItems kids := by rw [← subItems_append, take_append_drop]
    have hsubb : subBlocks (kids.take (kids.length / 2))
        ++ subBlocks (kids.drop (kids.length / 2)) = subBlocks kids := by
      rw [← subBlocks_append, take_append_drop]
    have hlt : (kids.take (kids.length / 2)).length = kids.length / 2 := by
      rw [length_take]; omega
    have hld : (kids.drop (kids.length / 2)).length = kids.length - kids.length / 2 := by
      rw [length_drop]
    have htake : kids.take (kids.length / 2) ≠ [] := by rw [← length_pos_iff]; omega
    have hdrop : kids.drop (kids.length / 2) ≠ [] := by rw [← length_pos_iff]; omega
    have hont : ∀ k ∈ kids.take (kids.length / 2), k.On v l :=
      fun k hk => hon k (mem_of_mem_take hk)
    have hond : ∀ k ∈ kids.drop (kids.length / 2), k.On v l :=
      fun k hk => hon k (mem_of_mem_drop hk)
    rw [← hsub] at hs
    obtain ⟨hst, hsd, -⟩ := pairwise_append.1 hs
    rw [← map_take, ← map_drop]
    refine wp_mono (wp_emitInternal _ hl gen hv hont hst htake) ?_ (fun _ _ h => h)
    rintro a v₁ ⟨hba, na, hna, hsa⟩
    obtain ⟨subs, A, F, hsubs, he, hon₁, -, -⟩ := id hba
    obtain ⟨ka, rfl, rfl⟩ := singleton_of_map hsubs
    refine wp_mono (wp_emitInternal _ hl gen he.free (fun k hk => he.subOn (hond k hk)) hsd
      hdrop) ?_ (fun _ _ h => he.aborted h)
    rintro b v₂ ⟨hbb, nb, hnb, hsb⟩
    obtain ⟨A', F', he'⟩ := hbb.effect
    have hbuilt := hba.append hbb
    rw [hsub, hsubb] at hbuilt
    refine ⟨hbuilt, by simp, fun hfan hmax => ?_, fun k hk => absurd hlen (by simp [hk])⟩
    have hhalf : halfSlots ≤ kids.length / 2 := by
      simp only [maxSlots] at hbig
      rw [halfSlots_eq]
      omega
    have hka := hon₁ ka (by simp)
    have hfa : Fan v₁.dev.view halfSlots (l + 1) ka.slot.ptr :=
      fan_of_slots he hont hna hsa (fun k hk => hfan k (mem_of_mem_take hk)) (by omega)
        (by omega)
    have hfb : Fan v₂.dev.view halfSlots (l + 1) b.ptr :=
      fan_of_slots (he.trans he') hond hnb hsb (fun k hk => hfan k (mem_of_mem_drop hk))
        (by omega) (by omega)
    have hboth : ∀ s ∈ [ka.slot, b], Fan v₂.dev.view halfSlots (l + 1) s.ptr := by
      intro s hs
      rcases mem_pair.1 hs with rfl | rfl
      · exact he'.fan hka hfa
      · exact hfb
    refine ⟨fun s hs => (hboth s hs).mono (by decide), ?_, fun _ => hboth⟩
    simp only [widthOf_cons, widthOf_nil, he'.slotsAt_eq hka,
      slotsAt_succ hna, slotsAt_succ hnb, hsa, hsb, length_map]
    omega

/-! ## Rebalancing -/

theorem wp_childShape (hv : v.Steady) {l : Nat} (hk : k.On v l) :
    wp (childShape k.slot.ptr)
      (fun p v' => p.1 = l ∧ ReadOnlyStep v v' ∧ (l ≠ 0 → p.2 = slotsAt v.dev.view l k.slot.ptr))
      (fun _ v' => ReadOnlyStep v v') v := by
  unfold childShape
  rw [wp_bind]
  refine wp_mono (wp_readSub hv hk) ?_ (fun _ _ h => h)
  rintro n v' ⟨hstep, hn, hlev⟩
  refine ⟨hlev, hstep, fun hl => ?_⟩
  obtain ⟨l, rfl⟩ := Nat.exists_eq_succ_of_ne_zero hl
  rw [slotsAt_succ hn]
  show n.nritems = _
  rw [Node.nritems, if_neg (by omega)]

/-- Two nodes of the volume are read, one after the other. -/
theorem wp_readPair (hv : v.Steady) {l : Nat} {a b : Sub α} (ha : a.On v l) (hb : b.On v l)
    {na nb : Node α} (hna : NodeAt v.dev.view a.slot.ptr na) (hnb : NodeAt v.dev.view b.slot.ptr nb)
    {β : Type} {f : Node α → Node α → Prog (Vol α) Errno β} {Q : β → Vol α → Prop}
    (h : ∀ v', Effect [] [] v v' → wp (f na nb) Q (Aborted v) v') :
    wp (do let x ← readNode a.slot.ptr; let y ← readNode b.slot.ptr; f x y) Q (Aborted v) v := by
  simp only [wp_bind]
  refine wp_mono (wp_readSub hv ha) ?_ (fun _ _ h => h.aborted hv.free)
  rintro n v₁ ⟨hstep, hn, -⟩
  obtain rfl := nodeAt_unique hna hn
  have he := hstep.effect hv.free
  refine wp_mono (wp_readSub (hstep.steady hv) (he.subOn hb)) ?_
    (fun _ _ h => he.aborted (h.aborted he.free))
  rintro n v₂ ⟨hstep', hn', -⟩
  obtain rfl := nodeAt_unique (hstep.view_eq ▸ hnb) hn'
  exact h v₂ (he.trans (hstep'.effect he.free))

/-- The children of a node of the volume are on it. -/
theorem on_kids {l : Nat} (hk : k.On v (l + 1)) (hkids : ∀ c ∈ kids, c.Ok v.dev.view l)
    (hblk : k.blocks = k.slot.ptr.block :: subBlocks kids) : ∀ c ∈ kids, c.On v l := by
  intro c hc
  refine ⟨hkids c hc, fun x hx => hk.2 x ?_⟩
  rw [hblk]
  exact mem_cons_of_mem _ (mem_subBlocks.2 ⟨c, hc, hx⟩)

/-- Joining two neighbours, before they are noted as superseded: what is under the two nodes is
    kept, the two nodes themselves are not part of the result. -/
theorem wp_rebalancePair (hv : v.Steady) {l : Nat} (hl : l < 256) (gen : Nat) {a b : Sub α}
    (ha : a.On v l) (hb : b.On v l) (hs : Sorted (a.items ++ b.items)) :
    wp (rebalancePair a.slot.ptr b.slot.ptr l gen)
      (fun out v' => (∃ bs, (a.blocks ++ b.blocks).Perm (bs ++ [a.slot.ptr.block, b.slot.ptr.block]) ∧
        Built l (a.items ++ b.items) bs v out v') ∧
        (Fan v.dev.view 1 l a.slot.ptr → Fan v.dev.view 1 l b.slot.ptr →
          Even l (slotsAt v.dev.view l a.slot.ptr + slotsAt v.dev.view l b.slot.ptr) out v'))
      (Aborted v) v := by
  cases l with
  | zero =>
    obtain ⟨na, hna, hlevA, hitsA, -, hblkA⟩ := ha.1.1
    obtain ⟨nb, hnb, hlevB, hitsB, -, hblkB⟩ := hb.1.1
    simp only [rebalancePair, if_true, rebalanceLeafPair]
    refine wp_readPair hv ha hb hna hnb fun v₂ he => ?_
    simp only [wp_ite, wp_fail]
    refine ⟨fun h => absurd h (by simp [hlevA, hlevB]), fun _ => ?_⟩
    rw [hitsA, hitsB]
    refine wp_mono (wp_emitLeafList hs gen he.free) ?_ (fun _ _ h => he.aborted h)
    intro out v₃ hbuilt
    refine ⟨⟨[], by simp [hblkA, hblkB], he.built (by simp) hbuilt⟩, fun _ _ =>
      ⟨fun _ _ => trivial, by simp [widthOf, slotsAt], fun _ _ _ => trivial⟩⟩
  | succ l =>
    obtain ⟨na, hna, hlevA, kidsA, hslotsA, hkidsA, hitsA, hblkA⟩ := ha.1.1
    obtain ⟨nb, hnb, hlevB, kidsB, hslotsB, hkidsB, hitsB, hblkB⟩ := hb.1.1
    simp only [rebalancePair, Nat.succ_ne_zero, if_false, rebalanceInternalPair]
    refine wp_readPair hv ha hb hna hnb fun v₂ he => ?_
    simp only [wp_ite, wp_fail]
    refine ⟨fun _ => ⟨_, _, he⟩, fun _ => ⟨fun _ => ⟨_, _, he⟩, fun _ => ?_⟩⟩
    have hon : ∀ k ∈ kidsA ++ kidsB, k.On v l := fun k hk =>
      (mem_append.1 hk).elim (on_kids ha hkidsA hblkA k) (on_kids hb hkidsB hblkB k)
    rw [hitsA, hitsB, ← subItems_append] at hs ⊢
    rw [hslotsA, hslotsB, ← map_append]
    refine wp_mono (wp_emitInternalList hl gen he.free (fun k hk => he.subOn (hon k hk)) hs) ?_
      (fun _ _ h => he.aborted h)
    rintro out v₃ ⟨hbuilt, hspread⟩
    refine ⟨⟨subBlocks (kidsA ++ kidsB), ?_, he.built (by simp) hbuilt⟩, fun hfa hfb => ?_⟩
    · rw [hblkA, hblkB, perm_iff_count]
      intro x
      simp only [subBlocks_append, count_append, count_cons, count_nil]
      omega
    · obtain ⟨na', hna', -, hmaxA, hfanA⟩ := hfa
      obtain ⟨nb', hnb', -, hmaxB, hfanB⟩ := hfb
      obtain rfl := nodeAt_unique hna hna'
      obtain rfl := nodeAt_unique hnb hnb'
      rw [slotsAt_succ hna, slotsAt_succ hnb]
      rw [hslotsA, length_map] at hmaxA ⊢
      rw [hslotsB, length_map] at hmaxB ⊢
      rw [← length_append]
      refine hspread.even (fun k hk => he.fan (hon k hk) ?_) (by rw [length_append]; omega)
      rcases mem_append.1 hk with hk | hk
      · exact hfanA _ (by rw [hslotsA]; exact mem_map_of_mem hk)
      · exact hfanB _ (by rw [hslotsB]; exact mem_map_of_mem hk)

/-- What rebalancing `ks` amounts to: their slots spread evenly over no more nodes, at most one
    node lost for each one noted. -/
structure Rebalanced (l : Nat) (ks : List (Sub α)) (v : Vol α) (out : List Slot) (v' : Vol α) :
    Prop where
  even : Even l (widthOf v.dev.view l (ks.map Sub.slot)) out v'
  length_le : out.length ≤ ks.length
  le_noted : v'.Tracked → ks.length + v.notedCount ≤ out.length + v'.notedCount

/-- Nothing needs rebalancing when all nodes, or there being more than one, are half full. -/
theorem rebalanced_keep {l : Nat} (hfan : ∀ k ∈ ks, Fan v.dev.view 1 l k.slot.ptr)
    (hhalf : 1 < ks.length → ∀ k ∈ ks, Fan v.dev.view halfSlots l k.slot.ptr) :
    Rebalanced l ks v (ks.map Sub.slot) v := by
  refine ⟨⟨fun s hs => ?_, rfl, fun hlen s hs => ?_⟩, by simp, fun _ => by simp⟩
  · obtain ⟨k, hk, rfl⟩ := mem_map.1 hs
    exact hfan k hk
  · obtain ⟨k, hk, rfl⟩ := mem_map.1 hs
    exact hhalf (by simpa using hlen) k hk

/-- Rebalancing goes on after an effect that replaced some of the nodes. -/
theorem Rebalanced.after {l : Nat} {ks' : List (Sub α)} {v'' : Vol α} {out : List Slot}
    (h : Rebalanced l ks' v' out v'') (he : ∃ A F, Effect A F v' v'')
    (hw : widthOf v'.dev.view l (ks'.map Sub.slot) = widthOf v.dev.view l (ks.map Sub.slot))
    (hlen : ks'.length ≤ ks.length)
    (hnoted : v'.Tracked → ks.length + v.notedCount ≤ ks'.length + v'.notedCount) :
    Rebalanced l ks v out v'' := by
  obtain ⟨A, F, he⟩ := he
  refine ⟨hw ▸ h.even, h.length_le.trans hlen, fun ht => ?_⟩
  have h1 := h.le_noted ht
  have h2 := hnoted (he.tracked ht).1
  omega

/-- Left of the loop's position all nodes are half full, and so is the node at the position unless
    it is the first. -/
structure Levelled (l : Nat) (ds rs : List (Sub α)) (v : Vol α) : Prop where
  fan : ∀ k ∈ ds.reverse ++ rs, Fan v.dev.view 1 l k.slot.ptr
  done : ∀ k ∈ ds, Fan v.dev.view halfSlots l k.slot.ptr
  head : ds ≠ [] → ∀ k ∈ rs.head?, Fan v.dev.view halfSlots l k.slot.ptr

/-- The loop is over when at most one node is left at the position. -/
theorem rebalance_stop {l : Nat} (hv : v.FreeOk) {ds rs : List (Sub α)}
    (hon : ∀ k ∈ ds.reverse ++ rs, k.On v l) (hlen : rs.length ≤ 1) :
    Built l (subItems (ds.reverse ++ rs)) (subBlocks (ds.reverse ++ rs)) v
        ((ds.map Sub.slot).reverse ++ rs.map Sub.slot) v ∧
      (Levelled l ds rs v → Rebalanced l (ds.reverse ++ rs) v
        ((ds.map Sub.slot).reverse ++ rs.map Sub.slot) v) := by
  rw [← map_reverse, ← map_append]
  refine ⟨built_keep hv _ hon, fun h => rebalanced_keep h.fan (fun hlen' k hk => ?_)⟩
  rcases mem_append.1 hk with hk | hk
  · exact h.done k (mem_reverse.1 hk)
  · refine h.head (fun hnil => ?_) k ?_
    · subst hnil
      simp only [reverse_nil, nil_append] at hlen'
      omega
    · rcases rs with _ | ⟨x, _ | ⟨y, rest⟩⟩
      · simp at hk
      · simpa using (mem_singleton.1 hk).symm
      · simp at hlen

/-- The loop of `embk_rebalance_children`. -/
theorem wp_rebalanceFrom (gen : Nat) {l : Nat} (hl : l < 256) (fuel : Nat) (hv : v.Steady)
    (ds rs : List (Sub α)) (hon : ∀ k ∈ ds.reverse ++ rs, k.On v l)
    (hs : Sorted (subItems (ds.reverse ++ rs))) :
    wp (rebalanceFrom gen fuel (ds.map Sub.slot) (rs.map Sub.slot))
      (fun out v' => Built l (subItems (ds.reverse ++ rs)) (subBlocks (ds.reverse ++ rs)) v out v' ∧
        (Levelled l ds rs v → Rebalanced l (ds.reverse ++ rs) v out v'))
      (Aborted v) v := by
  induction fuel generalizing v ds rs with
  | zero =>
    rcases rs with _ | ⟨a, _ | ⟨b, rest⟩⟩
    · exact rebalance_stop hv.free hon (by simp)
    · exact rebalance_stop hv.free hon (by simp)
    · exact ⟨[], [], .refl hv.free⟩
  | succ fuel ih =>
    rcases rs with _ | ⟨a, _ | ⟨b, rest⟩⟩
    · exact rebalance_stop hv.free hon (by simp)
    · exact rebalance_stop hv.free hon (by simp)
    · have ha : a.On v l := hon a (by simp)
      have hb : b.On v l := hon b (by simp)
      have hsab : Sorted (a.items ++ b.items) := by
        rw [subItems_append, subItems_cons, subItems_cons, ← append_assoc a.items] at hs
        exact (pairwise_append.1 (pairwise_append.1 hs).2.1).1
      simp only [rebalanceFrom, map_cons, wp_bind]
      refine wp_mono (wp_childShape hv ha) ?_ (fun _ _ h => h.aborted hv.free)
      rintro ⟨ll, ln⟩ v₁ ⟨hll, hstep, hln⟩
      obtain rfl : ll = l := hll
      have he := hstep.effect hv.free
      simp only
      refine wp_mono (wp_childShape (hstep.steady hv) (he.subOn hb)) ?_
        (fun _ _ h => he.aborted (h.aborted he.free))
      rintro ⟨rl, rn⟩ v₂ ⟨hrl, hstep', hrn⟩
      obtain rfl : rl = ll := hrl
      have he₂ : Effect [] [] v v₂ := he.trans (hstep'.effect he.free)
      have hv₂ := he₂.steady hv
      have hw₂ := he₂.widthOf_eq hon
      have hfan₂ : Levelled rl ds (a :: b :: rest) v → ∀ k ∈ ds.reverse ++ a :: b :: rest,
          Fan v₂.dev.view 1 rl k.slot.ptr := fun h k hk => he₂.fan (hon k hk) (h.fan k hk)
      simp only [wp_ite, wp_fail, wp_bind]
      refine ⟨fun h => absurd rfl h, fun _ => ⟨fun hfull => ?_, fun _ => ?_⟩⟩
      · -- Both are full enough: go one position to the right.
        have hmove : (a :: ds).reverse ++ b :: rest = ds.reverse ++ a :: b :: rest := by simp
        refine wp_mono (ih hv₂ (a :: ds) (b :: rest)
          (by rw [hmove]; exact fun k hk => he₂.subOn (hon k hk)) (by rwa [hmove])) ?_
          (fun _ _ h => he₂.aborted h)
        rintro out v₃ ⟨hbuilt, hreb⟩
        rw [hmove] at hbuilt hreb
        refine ⟨he₂.built (by simp) hbuilt, fun h => ?_⟩
        have hhalf : ∀ k ∈ [a, b], Fan v₂.dev.view halfSlots rl k.slot.ptr := by
          rcases Nat.eq_zero_or_pos rl with rfl | hpos
          · exact fun _ _ => trivial
          · obtain ⟨m, rfl⟩ : ∃ m, rl = m + 1 := ⟨rl - 1, by omega⟩
            have hmin : minSlots (m + 1) = halfSlots := rfl
            rw [hmin, show ln = _ from hln (by omega), show rn = _ from hrn (by omega),
              he.slotsAt_eq hb] at hfull
            intro k hk
            rcases mem_pair.1 hk with rfl | rfl
            · exact (hfan₂ h k (by simp)).of_slotsAt (by rw [he₂.slotsAt_eq ha]; exact hfull.1)
            · exact (hfan₂ h k (by simp)).of_slotsAt (by rw [he₂.slotsAt_eq hb]; exact hfull.2)
        refine (hreb ⟨by rw [hmove]; exact hfan₂ h, fun k hk => ?_, fun _ k hk => ?_⟩).after
          hbuilt.effect hw₂ le_rfl (fun ht => by have := (he₂.tracked ht).2; omega)
        · rcases mem_cons.1 hk with rfl | hk
          · exact hhalf k (by simp)
          · exact he₂.fan (hon k (by simp [hk])) (h.done k hk)
        · obtain rfl : b = k := by simpa using hk
          exact hhalf b (by simp)
      · refine wp_mono (wp_rebalancePair hv₂ hl gen (he₂.subOn ha) (he₂.subOn hb) hsab) ?_
          (fun _ _ h => he₂.aborted h)
        rintro repl v₃ ⟨⟨bs, hbs, hbuilt⟩, heven⟩
        obtain ⟨A₃, F₃, he₃⟩ := hbuilt.effect
        have heA := effect_noteFreed hbuilt.free a.slot.ptr.block
        have heB := effect_noteFreed heA.free b.slot.ptr.block
        have hnotedA := notedCount_noteFreed (v := v₃) (b := a.slot.ptr.block)
        have hnotedB := notedCount_noteFreed
          (v := onTxn (·.pushFreed a.slot.ptr.block) v₃) (b := b.slot.ptr.block)
        have heven₅ : Levelled rl ds (a :: b :: rest) v → Even rl _ repl
            (onTxn (·.pushFreed b.slot.ptr.block) (onTxn (·.pushFreed a.slot.ptr.block) v₃)) :=
          fun h => heven (hfan₂ h a (by simp)) (hfan₂ h b (by simp))
        have hbuilt₅ := ((hbuilt.noted heA).noted heB).perm (by simpa using hbs.symm)
        refine ⟨fun _ => he₂.aborted (hbuilt.aborted ⟨[], [], .refl hbuilt.free⟩), fun hlen => ?_⟩
        simp only [noteFreed, wp_modify]
        set v₅ := onTxn (·.pushFreed b.slot.ptr.block) (onTxn (·.pushFreed a.slot.ptr.block) v₃)
        obtain ⟨subs, A, F, rfl, heff, hsubs, hits, hperm⟩ := hbuilt₅
        have heff' := he₂.trans heff
        have hold : ∀ k ∈ ds.reverse ++ rest, k.On v rl := by
          intro k hk
          rcases mem_append.1 hk with hk | hk
          · exact hon k (mem_append_left _ hk)
          · exact hon k (mem_append_right _ (by simp [hk]))
        -- All the subtrees, with `subs` in the place of the two neighbours.
        have hon₅ : ∀ k ∈ ds.reverse ++ subs ++ rest, k.On v₅ rl := by
          intro k hk
          simp only [mem_append] at hk
          rcases hk with (hk | hk) | hk
          · exact heff'.subOn (hold k (mem_append_left _ hk))
          · exact hsubs k hk
          · exact heff'.subOn (hold k (mem_append_right _ hk))
        have hitems : subItems (ds.reverse ++ subs ++ rest)
            = subItems (ds.reverse ++ a :: b :: rest) := by
          simp only [subItems_append, subItems_cons, hits, append_assoc]
        have hfan₅ : Levelled rl ds (a :: b :: rest) v → ∀ k ∈ ds.reverse ++ subs ++ rest,
            Fan v₅.dev.view 1 rl k.slot.ptr := by
          intro h k hk
          simp only [mem_append] at hk
          rcases hk with (hk | hk) | hk
          · exact heff'.fan (hold k (mem_append_left _ hk))
              (h.fan k (mem_append_left _ hk))
          · exact (heven₅ h).1 k.slot (mem_map_of_mem hk)
          · exact heff'.fan (hold k (mem_append_right _ hk)) (h.fan k (by simp [hk]))
        have hdone₅ : Levelled rl ds (a :: b :: rest) v → ∀ k ∈ ds,
            Fan v₅.dev.view halfSlots rl k.slot.ptr :=
          fun h k hk => heff'.fan (hon k (by simp [hk])) (h.done k hk)
        have hgo : ∀ ds' rs' : List (Sub α), ds'.reverse ++ rs' = ds.reverse ++ subs ++ rest →
            (Levelled rl ds (a :: b :: rest) v →
              (∀ k ∈ ds', Fan v₅.dev.view halfSlots rl k.slot.ptr) ∧
              (ds' ≠ [] → ∀ k ∈ rs'.head?, Fan v₅.dev.view halfSlots rl k.slot.ptr)) →
            wp (rebalanceFrom gen fuel (ds'.map Sub.slot) (rs'.map Sub.slot))
              (fun out v' => Built rl (subItems (ds.reverse ++ a :: b :: rest))
                  (subBlocks (ds.reverse ++ a :: b :: rest)) v out v' ∧
                (Levelled rl ds (a :: b :: rest) v →
                  Rebalanced rl (ds.reverse ++ a :: b :: rest) v out v')) (Aborted v) v₅ := by
          intro ds' rs' heq hdone
          refine wp_mono (ih (heff'.steady hv) ds' rs' (by rwa [heq])
            (by rwa [heq, hitems])) ?_ (fun _ _ h => heff'.aborted h)
          rintro out v₆ ⟨hbuilt₆, hreb⟩
          rw [heq] at hbuilt₆ hreb
          refine ⟨heff'.built_replaced (by simpa using hperm) (by rwa [hitems] at hbuilt₆),
            fun h => ?_⟩
          have hlen₂ : 0 < subs.length ∧ subs.length ≤ 2 := by
            simp only [length_map] at hlen
            omega
          have hw₅ : widthOf v₅.dev.view rl ((ds.reverse ++ subs ++ rest).map Sub.slot)
              = widthOf v.dev.view rl ((ds.reverse ++ a :: b :: rest).map Sub.slot) := by
            have hds := heff'.widthOf_eq fun k hk => hold k (mem_append_left rest hk)
            have hrs := heff'.widthOf_eq fun k hk => hold k (mem_append_right ds.reverse hk)
            simp only [map_append, map_cons, widthOf_append, widthOf_cons, hds, hrs,
              (heven₅ h).2.1, he₂.slotsAt_eq ha, he₂.slotsAt_eq hb]
            omega
          refine (hreb ⟨by rw [heq]; exact hfan₅ h, (hdone h).1, (hdone h).2⟩).after
            hbuilt₆.effect hw₅ ?_ (fun ht => ?_)
          · simp only [length_append, length_cons, length_reverse]
            omega
          · have h1 := hnotedB ht
            obtain ⟨htA, -⟩ := heB.tracked ht
            have h2 := hnotedA htA
            obtain ⟨ht₂, h3⟩ := he₃.tracked (heA.tracked htA).1
            have h4 := (he₂.tracked ht₂).2
            simp only [length_append, length_cons, length_reverse]
            omega
        rcases subs with _ | ⟨x, _ | ⟨y, _ | ⟨z, more⟩⟩⟩
        · exact absurd (Or.inl rfl) hlen
        · rcases ds with _ | ⟨d, ds⟩
          · exact hgo [] (x :: rest) (by simp) (fun _ => ⟨by simp, fun h => absurd rfl h⟩)
          · refine hgo ds (d :: x :: rest) (by simp) fun h =>
              ⟨fun k hk => hdone₅ h k (mem_cons_of_mem _ hk), fun _ k hk => ?_⟩
            obtain rfl : d = k := by simpa using hk
            exact hdone₅ h d (by simp)
        · refine hgo (x :: ds) (y :: rest) (by simp) fun h => ⟨fun k hk => ?_, fun _ k hk => ?_⟩
          · rcases mem_cons.1 hk with rfl | hk
            · exact (heven₅ h).2.2 (by simp) k.slot (by simp)
            · exact hdone₅ h k hk
          · obtain rfl : y = k := by simpa using hk
            exact (heven₅ h).2.2 (by simp) y.slot (by simp)
        · exact absurd (Or.inr (by simp)) hlen

theorem wp_rebalanceChildren (hv : v.Steady) {l : Nat} (hl : l < 256) {parentLevel : Nat}
    (hparent : parentLevel ≠ 0) (gen : Nat) (hon : ∀ k ∈ ks, k.On v l) (hs : Sorted (subItems ks)) :
    wp (rebalanceChildren (ks.map Sub.slot) parentLevel gen)
      (fun out v' => Built l (subItems ks) (subBlocks ks) v out v' ∧
        ((∀ k ∈ ks, Fan v.dev.view 1 l k.slot.ptr) → Rebalanced l ks v out v'))
      (Aborted v) v := by
  unfold rebalanceChildren
  simp only [wp_ite, wp_pure, length_map]
  refine ⟨fun h => ⟨built_keep hv.free _ hon, fun hfan => rebalanced_keep hfan
    (fun hlen => by omega)⟩, fun _ => ?_⟩
  refine wp_mono (wp_rebalanceFrom gen hl _ hv [] ks hon hs) ?_ (fun _ _ h => h)
  rintro out v' ⟨hbuilt, hreb⟩
  exact ⟨hbuilt, fun hfan => hreb ⟨hfan, by simp, fun h => absurd rfl h⟩⟩

/-! ## Applying ops -/

/-- The nodes of level `l` that replace one node: half full below, and half full themselves if
    they are two. -/
def Grown (l : Nat) (out : List Slot) (v : Vol α) : Prop :=
  (∀ s ∈ out, Fan v.dev.view 1 l s.ptr) ∧
    (1 < out.length → ∀ s ∈ out, Fan v.dev.view halfSlots l s.ptr)

/-- What the slots `out` that replace the node `p` of level `l` look like, as long as the
    transaction has not overflowed: no more slots were lost than nodes noted, and only a node that
    was less than half full can have become thin. -/
structure Regrown (l : Nat) (p : BlockPtr) (v : Vol α) (out : List Slot) (v' : Vol α) : Prop where
  noted : v.notedCount + 1 ≤ v'.notedCount
  width : slotsAt v.dev.view l p + v.notedCount ≤ widthOf v'.dev.view l out + v'.notedCount
  shape : Grown l out v' ∨ Thin l out v'
  grown : l = 0 ∨ halfSlots ≤ slotsAt v.dev.view l p → Grown l out v'

/-- The same for the children of a node. -/
structure KidsRegrown (l : Nat) (ks : List (Sub α)) (v : Vol α) (out : List Slot) (v' : Vol α) :
    Prop where
  fan : ∀ s ∈ out, Fan v'.dev.view 1 l s.ptr
  width : widthOf v.dev.view l (ks.map Sub.slot) + v.notedCount
    ≤ widthOf v'.dev.view l out + v'.notedCount
  length : ks.length + v.notedCount ≤ out.length + v'.notedCount

section Children

variable (apply : BlockPtr → List (Put α) → Prog (Vol α) Errno (List Slot × Nat)) {l : Nat}
  (happly : ∀ (v : Vol α) (k : Sub α) (ops : List (Put α)), v.Steady → k.On v l →
    Sorted k.items → wp (apply k.slot.ptr ops)
      (fun out v' => Built l (updAll ops k.items) k.blocks v out.1 v' ∧ out.1.length ≤ 2 ∧
        (v.notedCount ≤ txnMax → Fan v.dev.view halfSlots l k.slot.ptr → v'.Tracked →
          Regrown l k.slot.ptr v out.1 v')) (Aborted v) v)

include happly

theorem wp_cowChild (hv : v.Steady) (hk : k.On v l) (hs : Sorted k.items) (sub : List (Put α)) :
    wp (cowChild apply k.slot sub)
      (fun out v' => Built l (updAll sub k.items) k.blocks v out v' ∧ out.length ≤ 2 ∧
        (v.notedCount ≤ txnMax → Fan v.dev.view halfSlots l k.slot.ptr → v'.Tracked →
          KidsRegrown l [k] v out v')) (Aborted v) v := by
  unfold cowChild
  simp only [wp_ite, wp_pure, wp_bind]
  refine ⟨fun h => ⟨?_, by simp, fun _ hfan _ => ⟨fun s hs => ?_, le_refl _, le_refl _⟩⟩, fun _ => ?_⟩
  · rw [List.isEmpty_iff.1 h, updAll_nil]
    simpa using built_keep hv.free [k] (by simpa using hk)
  · rw [mem_singleton.1 hs]
    exact hfan.mono (by decide)
  · refine wp_mono (happly v k sub hv hk hs) ?_ (fun _ _ h => h)
    rintro out v' ⟨hbuilt, hlen, hre⟩
    refine ⟨hbuilt, hlen, fun hroom hfan ht => ?_⟩
    obtain ⟨hnoted, hwidth, -, hgr⟩ := hre hroom hfan ht
    have hg : Grown l out.1 v' := by
      refine hgr ?_
      rcases l with _ | l
      · exact Or.inl rfl
      · exact Or.inr hfan.slotsAt_bounds.1
    refine ⟨hg.1, by simpa using hwidth, ?_⟩
    simp only [length_singleton]
    omega

/-- The loop over the children, given what one child's rebuild does. -/
theorem wp_cowChildren (ops : List (Put α)) (pre ks : List (Sub α)) (hv : v.Steady)
    (hon : ∀ k ∈ ks, k.On v l) (hs : Sorted (subItems (pre ++ ks)))
    (hl : ∀ k ∈ pre ++ ks, LeastKey k.slot.key k.items) :
    wp (cowChildren apply ((pre ++ ks).map Sub.slot) ops pre.length (ks.map Sub.slot))
      (fun out v' => Built l (updAll (ops.filter
        (fun op => pre.length < slotCount ((pre ++ ks).map Sub.slot) op.1)) (subItems ks))
        (subBlocks ks) v out v' ∧ out.length ≤ 2 * ks.length ∧
        (v.notedCount ≤ txnMax → (∀ k ∈ ks, Fan v.dev.view halfSlots l k.slot.ptr) → v'.Tracked →
          KidsRegrown l ks v out v'))
      (Aborted v) v := by
  induction ks generalizing pre v with
  | nil =>
    simp only [map_nil, cowChildren, wp_pure]
    have hnone : ops.filter
        (fun op => pre.length < slotCount ((pre ++ []).map Sub.slot) op.1) = [] := by
      refine filter_eq_nil_iff.2 (fun op _ => ?_)
      have := slotCount_le ((pre ++ []).map Sub.slot) op.1
      simp only [length_map, append_nil] at this
      simp only [decide_eq_true_eq, append_nil]
      omega
    rw [hnone]
    exact ⟨built_keep hv.free [] (by simp), by simp, fun _ _ _ => ⟨by simp, le_refl _, le_refl _⟩⟩
  | cons k ks ih =>
    have hk : k.On v l := hon k (mem_cons_self ..)
    have hks : ∀ k' ∈ ks, k'.On v l := fun k' hk' => hon k' (mem_cons_of_mem _ hk')
    have hsk : Sorted k.items := sorted_of_mem hs (by simp)
    have hassoc : pre ++ k :: ks = (pre ++ [k]) ++ ks := by simp
    rw [updAll_route hs hl ops, map_cons, cowChildren, wp_bind]
    refine wp_mono (wp_cowChild apply happly hv hk hsk _) ?_ (fun _ _ h => h)
    rintro here v₁ ⟨hbuilt, hlen₁, hhere⟩
    obtain ⟨subs, A, F, hout, he, hon₁, -, -⟩ := id hbuilt
    rw [wp_bind]
    have hih := ih (pre ++ [k]) (v := v₁) (he.steady hv) (fun k' hk' => he.subOn (hks k' hk'))
      (by rwa [← hassoc]) (by rwa [← hassoc])
    rw [← hassoc, length_append, length_singleton] at hih
    refine wp_mono hih ?_ (fun _ _ h => he.aborted h)
    rintro more v₂ ⟨hbuilt', hlen₂, hmore⟩
    obtain ⟨A', F', he'⟩ := hbuilt'.effect
    rw [wp_pure, subBlocks_cons]
    refine ⟨hbuilt.append hbuilt', ?_, fun hroom hfan ht => ?_⟩
    · rw [length_append, length_cons]
      omega
    · obtain ⟨hf₁, hw₁, hn₁⟩ := hhere hroom (hfan k (by simp)) (he'.tracked ht).1
      obtain ⟨hf₂, hw₂, hn₂⟩ := hmore (he.notedCount_le hroom)
        (fun k' hk' => he.fan (hks k' hk') (hfan k' (mem_cons_of_mem _ hk'))) ht
      subst hout
      refine ⟨fun s hs => ?_, ?_, ?_⟩
      · rcases mem_append.1 hs with hs | hs
        · obtain ⟨k', hk', rfl⟩ := mem_map.1 hs
          exact he'.fan (hon₁ k' hk') (hf₁ _ hs)
        · exact hf₂ s hs
      · rw [he.widthOf_eq hks] at hw₂
        have hw₃ := he'.widthOf_eq hon₁
        simp only [map_cons, map_nil, widthOf_cons, widthOf_nil, widthOf_append] at hw₁ ⊢
        omega
      · simp only [length_cons, length_append, length_nil] at hn₁ hn₂ ⊢
        omega

end Children

/-- What is left of a node's grandchildren decides whether its children can have become one small
    node. -/
theorem not_small_of_width {l n w noted noted' : Nat} (hn : halfSlots ≤ n) (hlen : ks.length = n)
    (hfan : ∀ k ∈ ks, Fan v.dev.view halfSlots (l + 1) k.slot.ptr)
    (hw : widthOf v.dev.view (l + 1) (ks.map Sub.slot) + noted ≤ w + noted')
    (hroom : noted' ≤ txnMax) : halfSlots ≤ w := by
  have hsum : ks.length * halfSlots ≤ widthOf v.dev.view (l + 1) (ks.map Sub.slot) := by
    unfold widthOf
    have := card_nsmul_le_sum
      ((ks.map Sub.slot).map (fun s => slotsAt v.dev.view (l + 1) s.ptr)) halfSlots (by
        intro x hx
        obtain ⟨s, hs, rfl⟩ := mem_map.1 hx
        obtain ⟨k, hk, rfl⟩ := mem_map.1 hs
        exact (hfan k hk).slotsAt_bounds.1)
    simpa using this
  rw [halfSlots_eq] at *
  simp only [txnMax] at hroom
  omega

/-- **Rebuilding a subtree.** The slots returned hold the old items with the ops applied left to
    right; a node is replaced by at most two. -/
theorem wp_cowApplyRec (gen fuel : Nat) {l : Nat} (hl : l < 256) (hv : v.Steady)
    (hw : WellFormed v.dev.view l p its bs) (hbs : ∀ b ∈ bs, v.bitmap b = true) (hs : Sorted its)
    (ops : List (Put α)) :
    wp (cowApplyRec gen fuel p ops)
      (fun out v' => (Built l (updAll ops its) bs v out.1 v' ∧ out.2 = l) ∧ out.1.length ≤ 2 ∧
        (v.notedCount ≤ txnMax → Fan v.dev.view 1 l p → v'.Tracked → Regrown l p v out.1 v'))
      (Aborted v) v := by
  induction fuel generalizing l v p its bs ops with
  | zero => exact ⟨[], [], .refl hv.free⟩
  | succ fuel ih =>
    obtain ⟨n, hn, hlev⟩ := hw.nodeAt
    simp only [cowApplyRec, wp_bind]
    refine wp_mono (wp_readNode hn hv.mirror) ?_ (fun _ _ h => h.aborted hv.free)
    rintro n' v₁ ⟨rfl, hstep⟩
    have he := hstep.effect hv.free
    have hv₁ := he.steady hv
    simp only [wp_ite, wp_bind, wp_pure, wp_fail]
    cases l with
    | zero =>
      obtain ⟨n, hn', -, rfl, -, rfl⟩ := hw
      obtain rfl := nodeAt_unique hn hn'
      refine ⟨fun _ => ?_, fun h => absurd hlev h⟩
      simp only [noteFreed, wp_modify]
      have heN := effect_noteFreed hv₁.free p.block
      have he' := he.trans heN
      refine wp_mono (wp_and (wp_emitLeafList (sorted_updAll hs) gen he'.free)
        (length_emitLeafList _ gen _)) ?_ (fun _ _ h => he'.aborted h.1)
      rintro out v₂ ⟨hbuilt, hlen⟩
      refine ⟨⟨he'.built (by simp) hbuilt, trivial⟩, hlen, fun _ _ ht => ?_⟩
      have hgrown : Grown 0 out v₂ := ⟨fun _ _ => trivial, fun _ _ _ => trivial⟩
      obtain ⟨A, F, he₂⟩ := hbuilt.effect
      obtain ⟨ht₁, h1⟩ := he₂.tracked ht
      have h2 := notedCount_noteFreed ht₁
      have h3 := (he.tracked (heN.tracked ht₁).1).2
      exact ⟨by omega, by simp only [slotsAt]; omega, Or.inl hgrown, fun _ => hgrown⟩
    | succ l =>
      obtain ⟨n, hn', -, kids, hslots, hkids, rfl, rfl⟩ := hw
      obtain rfl := nodeAt_unique hn hn'
      refine ⟨fun h => absurd h (by omega), fun _ => ⟨fun _ => ⟨_, _, he⟩, fun _ =>
        ⟨fun _ => ⟨_, _, he⟩, fun hroute => ?_⟩⟩⟩
      have hon : ∀ k ∈ kids, k.On v l := fun k hk => ⟨hkids k hk,
        fun b hb => hbs b (mem_cons_of_mem _ (mem_subBlocks.2 ⟨k, hk, hb⟩))⟩
      -- No op is dropped: each one falls at or above the first slot.
      have hall : ops.filter (fun op => 0 < slotCount (kids.map Sub.slot) op.1) = ops := by
        refine filter_eq_self.2 (fun op hop => ?_)
        rw [hslots] at hroute
        simp only [Bool.not_eq_true, any_eq_false, Option.isNone_iff_eq_none,
          slotOf_eq_none] at hroute
        have := hroute op hop
        simp only [decide_eq_true_eq]
        omega
      have hch := wp_cowChildren (cowApplyRec gen fuel) (l := l)
        (fun v k ops hv hk hsk => wp_mono (ih (by omega) hv hk.1.1 hk.2 hsk ops)
          (fun _ _ h => ⟨h.1.1, h.2.1, fun hr hf => h.2.2 hr (hf.mono (by decide))⟩)
          (fun _ _ h => h))
        ops [] kids hv₁ (fun k hk => he.subOn (hon k hk)) hs (fun k hk => (hkids k hk).2)
      rw [nil_append, length_nil, hall] at hch
      rw [hslots]
      refine wp_mono hch ?_ (fun _ _ h => he.aborted h)
      rintro _ v₂ ⟨⟨subs, A, F, rfl, he₂, hon₂, hits, hperm⟩, hlen, hregrown⟩
      simp only [noteFreed, wp_modify]
      have heN := effect_noteFreed he₂.free p.block
      have hnoted := notedCount_noteFreed (v := v₂) (b := p.block)
      have he₃ := he₂.trans heN
      have hsorted : Sorted (subItems subs) := by rw [hits]; exact sorted_updAll hs
      refine wp_mono (wp_rebalanceChildren (he₃.steady hv₁) (by omega) (by omega) gen
        (fun k hk => heN.subOn (hon₂ k hk)) hsorted) ?_ (fun _ _ h => (he.trans he₃).aborted h)
      rintro _ v₄ ⟨⟨subs', A', F', rfl, he₄, hon₄, hits', hperm'⟩, hreb⟩
      rw [hlev]
      have he₅ := (he.trans he₃).trans he₄
      refine wp_mono (wp_emitInternalList hl gen he₅.free hon₄ (by rwa [hits'])) ?_
        (fun _ _ h => he₅.aborted h)
      rintro out v₆ ⟨hbuilt, hspread⟩
      obtain ⟨A₆, F₆, he₆⟩ := hbuilt.effect
      rw [hits', hits] at hbuilt
      refine ⟨⟨he₅.built ?_ hbuilt, rfl⟩, hspread.length_le, fun hroom hfan ht => ?_⟩
      · rw [perm_iff_count] at hperm hperm' ⊢
        intro b
        have h1 := hperm b
        have h2 := hperm' b
        simp only [count_append, count_cons, count_nil] at h1 h2 ⊢
        omega
      obtain ⟨n'', hn'', -, hmax, hfanKids⟩ := hfan
      obtain rfl := nodeAt_unique hn hn''
      rw [hslots, length_map] at hmax
      have hfan₁ : ∀ k ∈ kids, Fan v₁.dev.view halfSlots l k.slot.ptr := fun k hk =>
        he.fan (hon k hk) (hfanKids _ (by rw [hslots]; exact mem_map_of_mem hk))
      have hwidth : slotsAt v.dev.view (l + 1) p = kids.length := by
        rw [slotsAt_succ hn, hslots, length_map]
      -- The transaction did not overflow on the way either.
      obtain ⟨ht₄, h5⟩ := he₆.tracked ht
      obtain ⟨ht₃, h4⟩ := he₄.tracked ht₄
      have h3 := hnoted ht₃
      have ht₂ := (heN.tracked ht₃).1
      obtain ⟨ht₁, h2⟩ := he₂.tracked ht₂
      have h1 := (he.tracked ht₁).2
      have hroom₁ := he.notedCount_le hroom
      obtain ⟨hf₂, hw₂, hn₂⟩ := hregrown hroom₁ hfan₁ ht₂
      obtain ⟨heven, hlen', hnoted'⟩ := hreb fun k hk =>
        heN.fan (hon₂ k hk) (hf₂ _ (mem_map_of_mem hk))
      have h6 := hnoted' ht₄
      have hw₄ := heven.2.1
      rw [heN.widthOf_eq hon₂] at hw₄
      simp only [length_map] at hlen hlen' hn₂ h6
      have hfan₄ : ∀ k ∈ subs', Fan v₄.dev.view 1 l k.slot.ptr :=
        fun k hk => heven.1 _ (mem_map_of_mem hk)
      -- The children are half full, or there is a single small one.
      by_cases hhalf : ∀ k ∈ subs', Fan v₄.dev.view halfSlots l k.slot.ptr
      · obtain ⟨hf, hw, htwo⟩ := hspread.even hhalf (by omega)
        refine ⟨by omega, ?_, Or.inl ⟨hf, htwo⟩, fun _ => ⟨hf, htwo⟩⟩
        rw [hwidth, hw]
        omega
      · obtain ⟨k, hk, hsmall⟩ : ∃ k ∈ subs', ¬ Fan v₄.dev.view halfSlots l k.slot.ptr := by
          by_contra hno
          exact hhalf (fun k hk => by_contra (fun h => hno ⟨k, hk, h⟩))
        have hone : ¬ 1 < subs'.length := fun h =>
          hsmall (heven.2.2 (by simpa using h) _ (mem_map_of_mem hk))
        obtain rfl : subs' = [k] := by
          rcases subs' with _ | ⟨x, _ | ⟨y, more⟩⟩
          · simp at hk
          · rw [mem_singleton.1 hk]
          · simp at hone
        rcases l with _ | l
        · exact absurd trivial hsmall
        · obtain ⟨hthin, hw⟩ := hspread.thin k rfl (hfan₄ k hk)
          simp only [length_singleton] at h6
          refine ⟨by omega, by rw [hwidth, hw]; omega, Or.inr hthin, fun hbig => ?_⟩
          -- Too many grandchildren are left for one small node.
          exfalso
          rw [hwidth] at hbig
          refine hsmall ((hfan₄ k hk).of_slotsAt ?_)
          simp only [map_cons, map_nil, widthOf_cons, widthOf_nil, Nat.add_zero] at hw₄
          rw [hw₄]
          exact not_small_of_width (by omega) rfl hfan₁ hw₂ (he₂.notedCount_le hroom₁)

/-- The shape of a whole tree: its root is a leaf or has two slots, and everything below is half
    full. -/
def RootFan (v : Vol α) (p : BlockPtr) : Prop :=
  ∃ n, NodeAt v.dev.view p n ∧ Fan v.dev.view 2 n.level p

/-- Dropping single-child roots keeps the items; the dropped nodes are noted. -/
theorem wp_collapseRoot (fuel : Nat) {l : Nat} (hv : v.Steady) {s : Slot}
    (hw : WellFormed v.dev.view l s.ptr its bs) (hbs : ∀ b ∈ bs, v.bitmap b = true) :
    wp (collapseRoot fuel s.ptr)
      (fun q v' => (∃ l' bs' F, l' ≤ l ∧ Effect [] F v v' ∧ WellFormed v'.dev.view l' q its bs' ∧
        (bs' ++ F).Perm bs) ∧ (Grown l [s] v ∨ Thin l [s] v → v'.RootFan q))
      (Aborted v) v := by
  induction fuel generalizing l v s its bs with
  | zero => exact ⟨[], [], .refl hv.free⟩
  | succ fuel ih =>
    obtain ⟨n, hn, hlev⟩ := hw.nodeAt
    simp only [collapseRoot, wp_bind]
    refine wp_mono (wp_readNode hn hv.mirror) ?_ (fun _ _ h => h.aborted hv.free)
    rintro n' v₁ ⟨rfl, hstep⟩
    have he := hstep.effect hv.free
    have hn₁ : NodeAt v₁.dev.view s.ptr n' := hstep.view_eq ▸ hn
    have hstay : ∃ l' bs' F, l' ≤ l ∧ Effect [] F v v₁ ∧
        WellFormed v₁.dev.view l' s.ptr its bs' ∧ (bs' ++ F).Perm bs :=
      ⟨l, bs, [], le_refl _, he, hw.congr (fun b hb => he.view_eq (hbs b hb)), by simp⟩
    simp only [wp_ite, wp_pure]
    refine ⟨fun h0 => ⟨hstay, fun _ => ⟨n', hn₁, by rw [h0]; trivial⟩⟩, fun h0 => ?_⟩
    obtain ⟨m, rfl⟩ : ∃ m, l = m + 1 := Nat.exists_eq_succ_of_ne_zero (by rwa [← hlev])
    split
    · next c hslots =>
        obtain ⟨n, hn', -, kids, hk, hkids, rfl, rfl⟩ := hw
        obtain rfl := nodeAt_unique hn hn'
        obtain ⟨k, rfl, rfl⟩ := singleton_of_map (hslots ▸ hk)
        simp only [noteFreed, wp_bind, wp_modify]
        have he' := he.trans (effect_noteFreed he.free s.ptr.block)
        have hk' : k.On v m := ⟨hkids k (by simp), fun b hb => hbs b (by simp [hb])⟩
        have hk₂ := he'.subOn hk'
        refine wp_mono (ih (he'.steady hv) hk₂.1.1 hk₂.2) ?_ (fun _ _ h => he'.aborted h)
        rintro q v₂ ⟨⟨l', bs', F, hl', he₂, hw₂, hperm⟩, hroot⟩
        refine ⟨⟨l', bs', [s.ptr.block] ++ F, by omega, by simpa using he'.trans he₂,
          by simpa using hw₂, ?_⟩, fun hshape => hroot (Or.inl ⟨fun t ht => ?_, by simp⟩)⟩
        · rw [perm_iff_count] at hperm ⊢
          intro b
          have := hperm b
          simp only [subBlocks_cons, subBlocks_nil, append_nil, count_append,
            count_cons, count_nil] at this ⊢
          omega
        · rw [mem_singleton.1 ht]
          refine he'.fan hk' ?_
          rcases hshape with h | h
          · obtain ⟨n'', hn'', -, -, hf⟩ := h.1 s (by simp)
            obtain rfl := nodeAt_unique hn hn''
            exact (hf k.slot (by rw [hslots]; simp)).mono (by decide)
          · obtain ⟨m', t, n'', c, hm, ht, hn'', hc, hf⟩ := h
            obtain rfl : m' = m := by omega
            obtain rfl : t = s := by simpa using ht.symm
            obtain rfl := nodeAt_unique hn hn''
            rw [hslots] at hc
            injection hc with hc
            rwa [← hc] at hf
    · next hne =>
        refine ⟨hstay, fun hshape => ⟨n', hn₁, ?_⟩⟩
        rw [hstep.view_eq, hlev]
        rcases hshape with h | h
        · obtain ⟨n'', hn'', h1, h2, hf⟩ := h.1 s (by simp)
          obtain rfl := nodeAt_unique hn hn''
          refine ⟨n', hn, ?_, h2, hf⟩
          rcases hsl : n'.slots with _ | ⟨x, _ | ⟨y, more⟩⟩
          · rw [hsl] at h1
            simp at h1
          · exact absurd hsl (hne x)
          · simp
        · obtain ⟨m', t, n'', c, -, ht, hn'', hc, -⟩ := h
          obtain rfl : t = s := by simpa using ht.symm
          obtain rfl := nodeAt_unique hn hn''
          exact absurd hc (hne c)

/-- **`embkfs_cow_apply`.** The new root is ordered and well formed and holds the old items with
    the ops applied; nothing of the old tree was written; the blocks of the new tree and those noted
    as superseded are together the old tree's and the allocated ones. If the old tree fanned out and
    the transaction did not overflow, the new one fans out. -/
theorem wp_cowApply (gen : Nat) {l : Nat} (hl : l < 255) (hv : v.Steady)
    (hw : WellFormed v.dev.view l p its bs) (hbs : ∀ b ∈ bs, v.bitmap b = true) (hs : Sorted its)
    (ops : List (Put α)) :
    wp (cowApply p ops gen)
      (fun q v' => (∃ l' bs' A F, l' ≤ l + 1 ∧ Effect A F v v' ∧
        WellFormed v'.dev.view l' q (updAll ops its) bs' ∧ (∀ b ∈ bs', v'.bitmap b = true) ∧
        (bs' ++ F).Perm (bs ++ A)) ∧
        (v.notedCount ≤ txnMax → Fan v.dev.view 2 l p → v'.Tracked → v'.RootFan q))
      (Aborted v) v := by
  unfold cowApply
  rw [wp_bind]
  refine wp_mono (wp_cowApplyRec gen treeFuel (by omega) hv hw hbs hs ops) ?_ (fun _ _ h => h)
  rintro ⟨top, level⟩ v₁ ⟨⟨⟨subs, A, F, rfl, he, hon, hits, hperm⟩, hlevel⟩, hlen, hregrown⟩
  obtain rfl : level = l := hlevel
  have hsub : Sorted (subItems subs) := by rw [hits]; exact sorted_updAll hs
  rcases subs with _ | ⟨k, _ | ⟨k', _ | ⟨k'', more⟩⟩⟩
  · simp only [map_nil, wp_bind]
    refine wp_mono (wp_emitLeaf [] gen he.free) ?_ (fun _ _ h => he.aborted h)
    rintro r v₂ ⟨-, -, he', hn⟩
    refine ⟨⟨0, [r.ptr.block], A ++ [r.ptr.block], F ++ [], by omega, he.trans he',
      ⟨_, hn, rfl, by rw [← hits]; rfl, by rw [← hits]; exact List.Pairwise.nil, rfl⟩, ?_, ?_⟩,
      fun _ _ _ => ⟨_, hn, trivial⟩⟩
    · simp only [mem_singleton, forall_eq]
      exact he'.marked_new (by simp)
    · rw [perm_iff_count] at hperm ⊢
      intro b
      have h1 := hperm b
      simp only [subBlocks_nil, nil_append, append_nil, count_append] at h1 ⊢
      omega
  · have hk := hon k (by simp)
    refine wp_mono (wp_collapseRoot treeFuel (he.steady hv) hk.1.1 hk.2) ?_
      (fun _ _ h => he.aborted h)
    rintro q v₂ ⟨⟨l', bs', F', hl', he', hw', hperm'⟩, hroot⟩
    have hmem : ∀ b ∈ bs', b ∈ k.blocks := fun b hb =>
      hperm'.mem_iff.1 (mem_append_left _ hb)
    refine ⟨⟨l', bs', A ++ [], F ++ F', by omega, he.trans he', ?_,
      fun b hb => he'.marked (hk.2 b (hmem b hb)), ?_⟩, fun hroom hfan ht =>
      hroot (hregrown hroom (hfan.mono (by decide)) (he'.tracked ht).1).shape⟩
    · rw [← hits]
      simpa using hw'
    · rw [perm_iff_count] at hperm hperm' ⊢
      intro b
      have h1 := hperm b
      have h2 := hperm' b
      simp only [subBlocks_cons, subBlocks_nil, append_nil, count_append] at h1 h2 ⊢
      omega
  · simp only [map_cons, map_nil, wp_bind]
    refine wp_mono (wp_emitInternal [k, k'] (by omega) gen he.free hon hsub
      (by simp)) ?_ (fun _ _ h => he.aborted h)
    rintro r v₂ ⟨⟨subs', A', F', hout, he', hon', hits', hperm'⟩, n, hn, hslots⟩
    obtain ⟨t, rfl, rfl⟩ := singleton_of_map hout
    have ht := hon' t (by simp)
    refine ⟨⟨level + 1, t.blocks, A ++ A', F ++ F', le_refl _, he.trans he', ?_, ht.2, ?_⟩,
      fun hroom hfan htr => ?_⟩
    · rw [← hits, ← hits']
      simpa using ht.1.1
    · rw [perm_iff_count] at hperm hperm' ⊢
      intro b
      have h1 := hperm b
      have h2 := hperm' b
      simp only [subBlocks_cons, subBlocks_nil, append_nil, count_append] at h1 h2 ⊢
      omega
    · have hgrown : Grown level [k.slot, k'.slot] v₁ := by
        rcases (hregrown hroom (hfan.mono (by decide)) (he'.tracked htr).1).shape with h | h
        · exact h
        · obtain ⟨m, t, n, c, -, hout, -⟩ := h
          simp at hout
      obtain ⟨n', hn', hlev⟩ := ht.1.1.nodeAt
      obtain rfl := nodeAt_unique hn hn'
      refine ⟨n, hn, ?_⟩
      rw [hlev]
      refine fan_of_slots he' hon hn hslots (fun y hy => hgrown.2 (by simp) y.slot ?_) (by simp)
        (by simp [maxSlots])
      rcases mem_pair.1 hy with rfl | rfl <;> simp
  · exact absurd hlen (by simp)

end Emit

end Vol

end EmbLinkOs.Embkfs
