import EmbLinkOs.Embkfs.Fanout
import EmbLinkOs.Embkfs.Objects

set_option autoImplicit false

/-! # `embkfs_cow_apply` as an update of a finite map

The contract of the engine in one statement, `CowRefines`: whenever the call succeeds, the new root
is again a tree of the kind it was given, it reads as the old map with the ops applied from left to
right, searching it agrees with that map, and no block of the old tree was written.

The contract holds of ordered trees (`OrderedTree`). It does not hold of trees that merely keep
every leaf sorted and every slot key minimal: if the children of a node are not in order, neither
the routing of an op nor the merging of two neighbours makes sense. -/

namespace EmbLinkOs.Embkfs

open List

open SortedMap

variable {α : Type}

/-- The ops applied to a map, left to right: a put inserts or replaces, a delete removes. -/
def applyPuts (ops : List (Put α)) (m : Key → Option α) : Key → Option α :=
  ops.foldl (fun m op => Function.update m op.1 op.2) m

/-- The volume with `q` as its root and no read fault ahead. -/
def Vol.installed (v : Vol α) (q : BlockPtr) : Vol α :=
  { v with
    dev := { v.dev with readTape := [] }, root := q, rootMirror := .null, rootPrimaryBad := 0 }

/-- Nothing written to the device between `v` and `v'` went to a block of `bs`. -/
def Vol.Unwritten (bs : List Nat) (v v' : Vol α) : Prop :=
  ∃ new, v'.dev.log = new ++ v.dev.log ∧ ∀ r ∈ new, ∀ b x, r.1 = Req.write b x → b ∉ bs

variable [Checksum α]

/-- A well-formed tree whose items, read from left to right, are in strictly increasing order. -/
def OrderedTree (view : Nat → Option (Block α)) (l : Nat) (p : BlockPtr) (its : List (Key × α))
    (bs : List Nat) : Prop :=
  WellFormed view l p its bs ∧ Sorted its

variable [ItemData α]

/-- The contract of `embkfs_cow_apply` for trees of kind `T`, on the tree `p` that holds `its` and
    occupies `bs`. -/
def CowRefines
    (T : (Nat → Option (Block α)) → Nat → BlockPtr → List (Key × α) → List Nat → Prop)
    (v : Vol α) (p : BlockPtr) (its : List (Key × α)) (bs : List Nat) (ops : List (Put α))
    (gen : Nat) : Prop :=
  ∀ q v', Vol.cowApply p ops gen v = (.ok q, v') →
    (∃ l' its' bs', T v'.dev.view l' q its' bs' ∧
      (fun k => find k its') = applyPuts ops (fun k => find k its)) ∧
    (∀ k, Vol.findItem k (v'.installed q)
      = (.ok (applyPuts ops (fun k => find k its) k), v'.installed q)) ∧
    Vol.Unwritten bs v v'

omit [Checksum α] [ItemData α] in
theorem Vol.Effect.unwritten {A F bs : List Nat} {v v' : Vol α} (h : Vol.Effect A F v v')
    (hbs : ∀ b ∈ bs, v.bitmap b = true) : Vol.Unwritten bs v v' := by
  obtain ⟨new, hnew, hmem, -⟩ := h.dev.log
  refine ⟨new, hnew, fun r hr b x hrb hb => ?_⟩
  obtain ⟨b', x', hrb', hb'⟩ := hmem r hr
  rw [hrb'] at hrb
  injection hrb with hbb
  subst hbb
  have hfresh := (h.fresh b' hb').1
  rw [hbs b' hb] at hfresh
  exact absurd hfresh (by simp)

/-- **The copy-on-write tree refines a finite map.** On a mounted volume, for every ordered tree
    whose root level leaves room for one more and every list of ops. -/
theorem cowApply_refines (v : Vol α) (hv : v.Steady) (l : Nat) (hl : l < 255) (p : BlockPtr)
    (its : List (Key × α)) (bs : List Nat) (ht : OrderedTree v.dev.view l p its bs)
    (hbs : ∀ b ∈ bs, v.bitmap b = true) (ops : List (Put α)) (gen : Nat) :
    CowRefines OrderedTree v p its bs ops gen := by
  intro q v' hrun
  obtain ⟨l', bs', A, F, hl', he, hw, -, -⟩ :=
    (Prog.wp_ok (Vol.wp_cowApply gen hl hv ht.1 hbs ht.2 ops) hrun).1
  have hs : Sorted (updAll ops its) := sorted_updAll ht.2
  refine ⟨⟨l', _, bs', ⟨hw, hs⟩, find_updAll ops ht.2⟩, fun k => ?_, he.unwritten hbs⟩
  have hmap := congrFun (find_updAll ops ht.2) k
  rw [applyPuts, ← hmap]
  exact Vol.findItem_eq rfl (fun h => absurd rfl h) (by unfold treeFuel; omega) hw hs k

/-! ## Concrete trees -/

section Samples

variable [Checksum Payload]

/-- The pointer to a node that is stored at its own block. -/
def Node.ptr (n : Node Payload) : BlockPtr := ⟨n.block, Checksum.node n, n.generation, 0⟩

/-- A volume of 64 blocks that holds the given nodes, the first of them the root; blocks below 32
    are in use. -/
def sampleVol (root : Node Payload) (nodes : List (Node Payload)) : Vol Payload where
  dev :=
    { size := 64,
      durable := fun b => match (root :: nodes).find? (fun n => n.block = b) with
        | some n => .node (Checksum.node n) n
        | none => .data [],
      pending := [], log := [], oracle := fun _ _ => none, readTape := [], rebuildTape := [] }
  blockSize := 4096
  totalBlocks := 64
  generation := 1
  freeBlocks := 32
  nextOid := 8
  bitmap := fun b => decide (b < 32)
  freeExt := [⟨32, 32⟩]
  txn := none
  root := root.ptr
  rootMirror := .null
  rootPrimaryBad := 0
  readOnly := false
  deviceFailed := false
  featureIncompat := 0
  encrypted := false
  snapshotCount := 0

theorem steady_sampleVol (root : Node Payload) (nodes : List (Node Payload)) :
    (sampleVol root nodes).Steady := by
  refine ⟨⟨?_, fun b hb => ?_⟩, fun h => absurd rfl h, fun h => absurd rfl h⟩
  · exact Run.nodup_blocks ⟨32, 32⟩
  · simp only [sampleVol, Run.covered_cons, Run.covered_nil, append_nil, Run.mem_blocks] at hb ⊢
    exact ⟨decide_eq_false (by omega), by omega⟩

/-- An item of object `oid`. -/
def sampleItem (oid : Nat) : Key × Payload := (⟨oid, typeDirEntry, 0⟩, .dirents [])

/-- A leaf at block `b`. -/
def sampleLeaf (b : Nat) (items : List (Key × Payload)) : Node Payload := ⟨1, b, 0, items, []⟩

theorem nodeAt_sample {root : Node Payload} {nodes : List (Node Payload)} {n : Node Payload}
    (hfind : (root :: nodes).find? (fun m => m.block = n.block) = some n) (hb : n.block < 64) :
    NodeAt (sampleVol root nodes).dev.view n.ptr n := by
  refine ⟨Checksum.node n, ?_, by simp [Node.accepted, Node.ptr]⟩
  have hcur : (sampleVol root nodes).dev.cur n.block = .node (Checksum.node n) n := by
    simp only [Device.cur, sampleVol, find?_nil, hfind]
  show (if n.block < 64 then some ((sampleVol root nodes).dev.cur n.block) else none) = _
  rw [if_pos hb, hcur]

theorem sample_marked {root : Node Payload} {nodes : List (Node Payload)} {b : Nat}
    (hb : b ∈ [20, 21, 22]) : (sampleVol root nodes).bitmap b = true := by
  simp only [mem_cons, not_mem_nil, or_false] at hb
  exact decide_eq_true (by omega)

end Samples

/-- A statement about concrete trees that holds whatever the checksum function is. -/
def AnyChecksum (P : Checksum Payload → Prop) : Prop := ∀ C, P C

/-- Two leaves in order, one op that inserts between them. -/
theorem cowApply_refines_sample : AnyChecksum fun _ =>
    let a := sampleLeaf 21 [sampleItem 1, sampleItem 2]
    let b := sampleLeaf 22 [sampleItem 5, sampleItem 7]
    let root : Node Payload := ⟨1, 20, 1, [], [⟨(sampleItem 1).1, a.ptr⟩, ⟨(sampleItem 5).1, b.ptr⟩]⟩
    let v := sampleVol root [a, b]
    CowRefines OrderedTree v v.root
      [sampleItem 1, sampleItem 2, sampleItem 5, sampleItem 7] [20, 21, 22]
      [((sampleItem 3).1, some (sampleItem 3).2)] 2 := by
  intro _ a b root v
  refine cowApply_refines v (steady_sampleVol root [a, b]) 1 (by decide) v.root _ _ ?_
    (fun b hb => sample_marked hb) _ _
  have hleast : ∀ (i j : Nat), i ≤ j → LeastKey (sampleItem i).1 [sampleItem i, sampleItem j] := by
    intro i j hij
    refine ⟨⟨sampleItem i, by simp, rfl⟩, fun e he => ?_⟩
    rcases mem_pair.1 he with rfl | rfl
    · exact le_refl _
    · rw [Key.le_def, ne_eq, keyCmp_eq_gt, keyCmp_eq_lt]
      simp only [sampleItem]
      omega
  refine ⟨⟨root, nodeAt_sample rfl (of_decide_eq_true rfl), rfl,
    [⟨⟨(sampleItem 1).1, a.ptr⟩, [sampleItem 1, sampleItem 2], [21]⟩,
      ⟨⟨(sampleItem 5).1, b.ptr⟩, [sampleItem 5, sampleItem 7], [22]⟩], rfl, ?_, rfl, rfl⟩,
    by decide⟩
  intro k hk
  rcases mem_pair.1 hk with rfl | rfl
  · exact ⟨⟨a, nodeAt_sample rfl (of_decide_eq_true rfl), rfl, rfl, of_decide_eq_true rfl, rfl⟩,
      hleast 1 2 (by decide)⟩
  · exact ⟨⟨b, nodeAt_sample rfl (of_decide_eq_true rfl), rfl, rfl, of_decide_eq_true rfl, rfl⟩,
      hleast 5 7 (by decide)⟩

/-- Well-formedness without order between siblings is not kept: on a root whose two leaves stand in
    the wrong order (keys 5 and 1), putting key 6 merges them into the leaf 5, 1, 6. -/
theorem cowApply_unordered : AnyChecksum fun _ =>
    ¬ ∀ (v : Vol Payload) (_ : v.Steady) (l : Nat) (_ : l < 255) (p : BlockPtr)
      (its : List (Key × Payload)) (bs : List Nat) (_ : WellFormed v.dev.view l p its bs)
      (_ : ∀ b ∈ bs, v.bitmap b = true) (ops : List (Put Payload)) (gen : Nat),
      CowRefines WellFormed v p its bs ops gen := by
  intro _ h
  let a := sampleLeaf 21 [sampleItem 5]
  let b := sampleLeaf 22 [sampleItem 1]
  let root : Node Payload := ⟨1, 20, 1, [], [⟨(sampleItem 5).1, a.ptr⟩, ⟨(sampleItem 1).1, b.ptr⟩]⟩
  let v := sampleVol root [a, b]
  let ops : List (Put Payload) := [((sampleItem 6).1, some (sampleItem 6).2)]
  let merged : Node Payload := ⟨2, 33, 0, [sampleItem 5, sampleItem 1, sampleItem 6], []⟩
  have hw : WellFormed v.dev.view 1 v.root [sampleItem 5, sampleItem 1] [20, 21, 22] := by
    refine ⟨root, nodeAt_sample rfl (of_decide_eq_true rfl), rfl,
      [⟨⟨(sampleItem 5).1, a.ptr⟩, [sampleItem 5], [21]⟩,
        ⟨⟨(sampleItem 1).1, b.ptr⟩, [sampleItem 1], [22]⟩], rfl, ?_, rfl, rfl⟩
    intro k hk
    rcases mem_pair.1 hk with rfl | rfl
    · exact ⟨⟨a, nodeAt_sample rfl (of_decide_eq_true rfl), rfl, rfl, pairwise_singleton _ _, rfl⟩,
        ⟨sampleItem 5, by simp, rfl⟩, by simp⟩
    · exact ⟨⟨b, nodeAt_sample rfl (of_decide_eq_true rfl), rfl, rfl, pairwise_singleton _ _, rfl⟩,
        ⟨sampleItem 1, by simp, rfl⟩, by simp⟩
  have hrun : Vol.cowApply v.root ops 2 v = (.ok merged.ptr, (Vol.cowApply v.root ops 2 v).2) := by
    refine Prod.ext ?_ rfl
    cbv
  have hblock : (Vol.cowApply v.root ops 2 v).2.dev.view 33
      = some (.node (Checksum.node merged) merged) := by cbv
  obtain ⟨⟨l', its', bs', hwf, -⟩, -, -⟩ :=
    h v (steady_sampleVol _ _) 1 (by decide) v.root _ _ hw (fun b hb => sample_marked hb) ops 2 _ _ hrun
  -- The new root is the merged leaf, and that leaf is not sorted.
  obtain ⟨n, hn, hlev⟩ := hwf.nodeAt
  obtain rfl : n = merged := nodeAt_unique hn ⟨_, hblock, by simp [Node.accepted, Node.ptr]⟩
  obtain rfl : l' = 0 := hlev.symm
  obtain ⟨n, hn', -, hits, hs, -⟩ := hwf
  obtain rfl := nodeAt_unique hn hn'
  subst hits
  exact absurd hs (by decide)

end EmbLinkOs.Embkfs
