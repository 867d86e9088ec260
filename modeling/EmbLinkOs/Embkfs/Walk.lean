import EmbLinkOs.Embkfs.Fanout

set_option autoImplicit false
set_option linter.unusedSectionVars false

/-! # Walking part of a tree

The routines that go over all items of one object and type (`embkfs_count_extents_rec`,
`embkfs_collect_extents_rec`, `embkfs_dir_has_entry`, `embkfs_dir_contains_oid_rec`) share one
traversal: they skip the children whose keys are all too small and stop at the first whose keys are
all too large. It is written here once, with the work at a leaf as a parameter, and `wp_walkRange`
is the rule for it: what the leaves do is what going over all the items would have done. -/

namespace EmbLinkOs.Embkfs

open Prog hiding bind

open SortedMap

variable {α σ : Type}

/-- The item belongs to the object `oid` and has type `ty`. -/
def Key.within (oid ty : Nat) (k : Key) : Bool := k.objectId = oid && k.type = ty

/-- The key is above every key of that object and type: the walks compare with the key of the
    largest offset there is. -/
def Key.above (oid ty : Nat) (k : Key) : Bool :=
  oid < k.objectId || (oid = k.objectId && ty < k.type)

theorem Key.not_within_of_above {oid ty : Nat} {k k' : Key} (h : k.above oid ty = true)
    (hle : k ≤ k') : k'.within oid ty = false := by
  rw [Key.le_def, ne_eq, keyCmp_eq_gt, keyCmp_eq_lt] at hle
  simp only [Key.above, Bool.or_eq_true, decide_eq_true_eq, Bool.and_eq_true] at h
  simp only [Key.within, Bool.and_eq_false_iff, decide_eq_false_iff_not]
  omega

theorem Key.not_within_of_lt {oid ty : Nat} {k : Key} (h : k < ⟨oid, ty, 0⟩) :
    k.within oid ty = false := by
  rw [Key.lt_def, keyCmp_eq_lt] at h
  dsimp only at h
  simp only [Key.within, Bool.and_eq_false_iff, decide_eq_false_iff_not]
  omega

namespace Vol

variable [Checksum α]

/-- The next child starts at or below the first key wanted, so this one has none of them. -/
def slotBelow (oid ty : Nat) : List Slot → Bool
  | [] => false
  | s :: _ => s.key ≤ ⟨oid, ty, 0⟩

/-- The loop of a walk over the slots of an internal node; `stop` is the `found` flag some walks
    have. -/
def walkSlots (oid ty : Nat) (stop : σ → Bool) (f : BlockPtr → σ → Prog (Vol α) Errno σ) :
    List Slot → σ → Prog (Vol α) Errno σ
  | [], s => pure s
  | a :: rest, s =>
    if stop s then pure s
    else if a.key.above oid ty then pure s
    else if slotBelow oid ty rest then walkSlots oid ty stop f rest s
    else do
      let s ← f a.ptr s
      walkSlots oid ty stop f rest s

/-- The traversal the walks share. -/
def walkRange (oid ty : Nat) (stop : σ → Bool)
    (leaf : List (Key × α) → σ → Prog (Vol α) Errno σ) : Nat → BlockPtr → σ → Prog (Vol α) Errno σ
  | 0, _, _ => fail .einval
  | fuel + 1, p, s => do
    let n ← readNode p
    if n.level = 0 then leaf n.items s
    else if n.slots.length = 0 ∨ maxSlots < n.slots.length then fail .einval
    else walkSlots oid ty stop (walkRange oid ty stop leaf fuel) n.slots s

/-- Every internal node below `p` has a number of slots that the walks accept. -/
def Slotted (view : Nat → Option (Block α)) : Nat → BlockPtr → Prop
  | 0, _ => True
  | l + 1, p => ∃ n, NodeAt view p n ∧ 0 < n.slots.length ∧ n.slots.length ≤ maxSlots ∧
      ∀ s ∈ n.slots, Slotted view l s.ptr

theorem slotted_of_fan {view : Nat → Option (Block α)} {lo l : Nat} {p : BlockPtr} (hlo : 0 < lo)
    (h : Fan view lo l p) : Slotted view l p := by
  induction l generalizing lo p with
  | zero => trivial
  | succ l ih =>
    obtain ⟨n, hn, hmin, hmax, hkids⟩ := h
    exact ⟨n, hn, by omega, hmax, fun s hs => ih (show 0 < halfSlots by decide) (hkids s hs)⟩

section

variable {oid ty : Nat} {stop : σ → Bool} {leaf : List (Key × α) → σ → Prog (Vol α) Errno σ}
  {view : Nat → Option (Block α)} (S : Vol α → Prop) (E : Errno → Vol α → Prop)
  (G : Key × α → Prop) (Inv : List (Key × α) → σ → Prop)

/-- Going over the children of a node. -/
theorem wp_walkSlots {f : BlockPtr → σ → Prog (Vol α) Errno σ}
    (hskip : ∀ done its s, Inv done s → (∀ e ∈ its, e.1.within oid ty = false) →
      Inv (done ++ its) s)
    (hstop : ∀ done its s, stop s = true → Inv done s → Inv (done ++ its) s)
    {kids : List (Sub α)} (hs : Sorted (subItems kids))
    (hleast : ∀ k ∈ kids, LeastKey k.slot.key k.items)
    (hf : ∀ k ∈ kids, ∀ v, S v → ∀ done s, Inv done s →
      wp (f k.slot.ptr s) (fun s' v' => S v' ∧ Inv (done ++ k.items) s') E v)
    {v : Vol α} (hv : S v) {done : List (Key × α)} {s : σ} (hinv : Inv done s) :
    wp (walkSlots oid ty stop f (kids.map Sub.slot) s)
      (fun s' v' => S v' ∧ Inv (done ++ subItems kids) s') E v := by
  induction kids generalizing v done s with
  | nil => exact ⟨hv, by simpa using hinv⟩
  | cons k kids ih =>
    have hmin : ∀ e ∈ subItems (k :: kids), k.slot.key ≤ e.1 := by
      cases kids with
      | nil =>
        intro e he
        exact (hleast k (by simp)).2 e (by simpa using he)
      | cons k' kids =>
        intro e he
        rw [subItems_cons, List.mem_append] at he
        rcases he with he | he
        · exact (hleast k (by simp)).2 e he
        · obtain ⟨⟨m, hm, hmk⟩, -⟩ := hleast k (by simp)
          have hcut := sub_cut hs (hleast k' (by simp))
          rw [← hmk]
          exact ((hcut.1 m hm).trans_le (hcut.2 e he)).le
    have ih' : ∀ {v : Vol α}, S v → ∀ {done : List (Key × α)} {s : σ}, Inv done s →
        wp (walkSlots oid ty stop f (kids.map Sub.slot) s)
          (fun s' v' => S v' ∧ Inv (done ++ subItems kids) s') E v :=
      fun hv _ _ hi => ih (sorted_tail hs) (fun k hk => hleast k (List.mem_cons_of_mem _ hk))
        (fun k hk => hf k (List.mem_cons_of_mem _ hk)) hv hi
    simp only [List.map_cons, walkSlots, wp_ite, wp_pure, wp_bind]
    refine ⟨fun hst => ⟨hv, hstop _ _ _ hst hinv⟩, fun _ => ⟨fun hab => ⟨hv, ?_⟩, fun _ =>
      ⟨fun hbelow => ?_, fun _ => ?_⟩⟩⟩
    · exact hskip _ _ _ hinv (fun e he => Key.not_within_of_above hab (hmin e he))
    · -- The next slot's key is at or below the first one wanted.
      cases kids with
      | nil => exact absurd hbelow (by simp [slotBelow])
      | cons k' kids =>
        have hlow : k'.slot.key ≤ ⟨oid, ty, 0⟩ := by simpa [slotBelow] using hbelow
        have hcut := sub_cut hs (hleast k' (by simp))
        have := hskip _ k.items _ hinv
          (fun e he => Key.not_within_of_lt ((hcut.1 e he).trans_le hlow))
        rw [subItems_cons, ← List.append_assoc]
        exact ih' hv this
    · refine wp_mono (hf k (by simp) v hv done s hinv) ?_ (fun _ _ h => h)
      intro s' v' h
      rw [subItems_cons, ← List.append_assoc]
      exact ih' h.1 h.2

/-- **Walking.** If the work at a leaf keeps the invariant, and items of other objects and types do
    not matter to it, then the walk has dealt with every item of the tree. `G` is what the items of
    the tree are known to satisfy. -/
theorem wp_walkRange
    (hread : ∀ v, S v → ∀ p n, NodeAt view p n →
      wp (readNode p) (fun n' v' => n' = n ∧ S v') E v)
    (hleaf : ∀ v, S v → ∀ done its s, (∀ e ∈ its, G e) → Inv done s →
      wp (leaf its s) (fun s' v' => S v' ∧ Inv (done ++ its) s') E v)
    (hskip : ∀ done its s, Inv done s → (∀ e ∈ its, e.1.within oid ty = false) →
      Inv (done ++ its) s)
    (hstop : ∀ done its s, stop s = true → Inv done s → Inv (done ++ its) s)
    {fuel l : Nat} (hfuel : l < fuel) {p : BlockPtr} {its : List (Key × α)} {bs : List Nat}
    (hw : WellFormed view l p its bs) (hslot : Slotted view l p) (hs : Sorted its)
    (hG : ∀ e ∈ its, G e) {v : Vol α} (hv : S v) {done : List (Key × α)} {s : σ} (hinv : Inv done s) :
    wp (walkRange oid ty stop leaf fuel p s)
      (fun s' v' => S v' ∧ Inv (done ++ its) s') E v := by
  induction l generalizing fuel p its bs v done s with
  | zero =>
    obtain ⟨fuel, rfl⟩ := Nat.exists_eq_succ_of_ne_zero (Nat.ne_zero_of_lt hfuel)
    obtain ⟨n, hn, hlev, rfl, -, -⟩ := hw
    rw [walkRange, wp_bind]
    refine wp_mono (hread v hv p n hn) ?_ (fun _ _ h => h)
    intro n' v' h
    obtain ⟨rfl, hv'⟩ := h
    rw [if_pos hlev]
    exact hleaf v' hv' done _ s hG hinv
  | succ l ih =>
    obtain ⟨fuel, rfl⟩ := Nat.exists_eq_succ_of_ne_zero (Nat.ne_zero_of_lt hfuel)
    obtain ⟨n, hn, hlev, kids, hslots, hkids, rfl, -⟩ := hw
    obtain ⟨n', hn', hmin, hmax, hslot'⟩ := hslot
    obtain rfl := nodeAt_unique hn hn'
    rw [walkRange, wp_bind]
    refine wp_mono (hread v hv p n hn) ?_ (fun _ _ h => h)
    intro n' v' h
    obtain ⟨rfl, hv'⟩ := h
    rw [if_neg (by omega), if_neg (by omega), hslots]
    refine wp_walkSlots S E Inv hskip hstop hs (fun k hk => (hkids k hk).2) ?_ hv' hinv
    intro k hk v hv done s hinv
    refine ih (by omega) (hkids k hk).1 (hslot' k.slot ?_) (sorted_of_mem hs hk)
      (fun e he => hG e (mem_subItems.2 ⟨k, hk, he⟩)) hv hinv
    rw [hslots]
    exact List.mem_map_of_mem hk

end

end Vol

end EmbLinkOs.Embkfs
