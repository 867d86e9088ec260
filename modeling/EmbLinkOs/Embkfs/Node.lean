import EmbLinkOs.Embkfs.Alloc

set_option autoImplicit false

/-! # Tree nodes: reading, writing and searching

`embkfs_read_node` accepts a block as the node a pointer names when it passes every check (self
checksum, the parent's checksum, generation, self block id); the root has a mirror to fall back on.
`embkfs_descend_to_leaf` follows the rightmost slot at or below the target. -/

namespace EmbLinkOs.Embkfs

open Prog hiding bind

variable {α : Type} [Checksum α]

/-- The checks of `embkfs_read_node` on a node image with stored checksum `c`. Checksums are
    compared as 32-bit values. -/
def Node.accepted (p : BlockPtr) (c : Nat) (n : Node α) : Bool :=
  low32 c = low32 (Checksum.node n) ∧ low32 c = low32 p.checksum ∧
    n.generation = p.generation ∧ n.block = p.block

/-- `view` holds at `p` a node that passes every check. -/
def NodeAt (view : Nat → Option (Block α)) (p : BlockPtr) (n : Node α) : Prop :=
  ∃ c, view p.block = some (.node c n) ∧ n.accepted p c = true

/-- The index of the rightmost slot at or below `k`, scanning from the left and stopping at the
    first slot above `k`. -/
def slotOf (slots : List Slot) (k : Key) : Option Nat :=
  match (slots.takeWhile (fun s => s.key ≤ k)).length with
  | 0 => none
  | i + 1 => some i

/-- Levels are one byte, so no path from a root visits more than this many nodes. -/
def treeFuel : Nat := 256

namespace Vol

/-- `embkfs_read_node_primary`. -/
def readNodePrimary (p : BlockPtr) : Prog (Vol α) Errno (Node α) := do
  match ← blockRead p.block with
  | .node c n => if n.accepted p c then pure n else fail .einval
  | _ => fail .einval

/-- The fallback of `embkfs_read_node` to the root mirror, after the primary copy failed with
    `e`. -/
def readRootMirror (p : BlockPtr) (e : Errno) : Prog (Vol α) Errno (Node α) := do
  let v ← Prog.get
  if p.block ≠ v.root.block ∨ v.rootMirror.block = 0 ∨ v.rootMirror.block = p.block then
    fail e
  else
    match ← attempt (blockRead v.rootMirror.block) with
    | .ok (.node c n) =>
      if n.accepted p c then
        Prog.modify fun v => { v with rootPrimaryBad := p.block }
        pure n
      else fail e
    | _ => fail e

/-- `embkfs_read_node`: the primary copy, unless it is the root's and known to be bad; then the
    root's mirror. -/
def readNode (p : BlockPtr) : Prog (Vol α) Errno (Node α) := do
  let v ← Prog.get
  if v.rootPrimaryBad ≠ 0 ∧ p.block = v.rootPrimaryBad ∧ p.block = v.root.block ∧
      v.rootMirror.block ≠ 0 then
    readRootMirror p .eio
  else
    match ← attempt (readNodePrimary p) with
    | .ok n => pure n
    | .error e => readRootMirror p e

/-- `embkfs_write_node`. -/
def writeNode (b gen level : Nat) (items : List (Key × α)) (slots : List Slot) :
    Prog (Vol α) Errno BlockPtr := do
  let n : Node α := ⟨gen, b, level, items, slots⟩
  let c := Checksum.node n
  devWrite b (.node c n)
  pure ⟨b, c, gen, 0⟩

/-- `embkfs_descend_to_leaf`, from the node at `p` on. -/
def descendFrom : Nat → BlockPtr → Key → Prog (Vol α) Errno (Node α)
  | 0, _, _ => fail .einval
  | fuel + 1, p, k => do
    let n ← readNode p
    if n.level = 0 then pure n
    else match (slotOf n.slots k).bind (fun i => n.slots[i]?) with
      | none => fail .enoent
      | some s => descendFrom fuel s.ptr k

def descendToLeaf (k : Key) : Prog (Vol α) Errno (Node α) := do
  let v ← Prog.get
  descendFrom treeFuel v.root k

/-- `embkfs_find_item`: `none` when the key is absent and also when a node cannot be read. -/
def findItem (k : Key) : Prog (Vol α) Errno (Option α) := do
  match ← attempt (descendToLeaf k) with
  | .ok n => pure (SortedMap.find k n.items)
  | .error _ => pure none

/-! ## Reading a node that is there -/

/-- The root mirror, if the volume has one, is another block that holds a copy of the root node. -/
def MirrorOk (v : Vol α) : Prop :=
  v.rootMirror.block ≠ 0 → v.rootMirror.block ≠ v.root.block ∧
    v.dev.view v.rootMirror.block = v.dev.view v.root.block

/-- Where the volume has given up on the root's primary copy, its mirror is a copy. -/
def FallbackOk (v : Vol α) : Prop :=
  v.rootPrimaryBad ≠ 0 → v.rootPrimaryBad = v.root.block → v.MirrorOk

variable {v : Vol α} {n : Node α} {p : BlockPtr}

omit [Checksum α] in
theorem MirrorOk.fallbackOk (h : v.MirrorOk) : v.FallbackOk := fun _ _ => h

theorem wp_readNodePrimary (hn : NodeAt v.dev.view p n) :
    wp (readNodePrimary p) (fun n' v' => n' = n ∧ ReadOnlyStep v v')
      (fun _ v' => ReadOnlyStep v v') v := by
  obtain ⟨c, hc, hacc⟩ := hn
  unfold readNodePrimary
  rw [wp_bind]
  refine wp_mono (wp_blockRead p.block v) ?_ (fun _ _ h => h)
  rintro x v' ⟨hx, hstep⟩
  obtain rfl : Block.node c n = x := Option.some.inj (hc.symm.trans hx)
  simp [hacc, hstep]

theorem wp_readRootMirror (hn : NodeAt v.dev.view p n) (hm : v.MirrorOk) (e : Errno) :
    wp (readRootMirror p e) (fun n' v' => n' = n ∧ ReadOnlyStep v v')
      (fun _ v' => ReadOnlyStep v v') v := by
  obtain ⟨c, hc, hacc⟩ := hn
  unfold readRootMirror
  simp only [wp_bind, wp_get, wp_ite, wp_fail, wp_attempt]
  refine ⟨fun _ => .refl v, fun hcond => ?_⟩
  simp only [not_or, not_not] at hcond
  obtain ⟨hroot, hmir, -⟩ := hcond
  refine wp_mono (wp_blockRead v.rootMirror.block v) ?_ (fun _ _ h => h)
  rintro x v' ⟨hx, hstep⟩
  rw [(hm hmir).2, ← hroot, hc] at hx
  obtain rfl := Option.some.inj hx
  simp only [hacc, if_true, wp_bind, wp_modify, wp_pure, true_and]
  obtain ⟨t, r, ht, rfl⟩ := hstep
  exact ⟨t, p.block, ⟨ht.1, Or.inr hroot⟩, rfl⟩

omit [Checksum α] in
theorem ReadOnlyStep.mirrorOk {v' : Vol α} (h : ReadOnlyStep v v') (hm : v.MirrorOk) :
    v'.MirrorOk := by
  obtain ⟨t, r, -, rfl⟩ := h
  exact hm

/-- Reading a node that is on the device returns it or fails; it never returns another. -/
theorem wp_readNode (hn : NodeAt v.dev.view p n) (hm : v.MirrorOk) :
    wp (readNode p) (fun n' v' => n' = n ∧ ReadOnlyStep v v')
      (fun _ v' => ReadOnlyStep v v') v := by
  unfold readNode
  simp only [wp_bind, wp_get, wp_ite, wp_attempt]
  refine ⟨fun _ => wp_readRootMirror hn hm _, fun _ => ?_⟩
  refine wp_mono (wp_readNodePrimary hn) (fun _ _ h => h) ?_
  intro e v' hstep
  refine wp_mono (wp_readRootMirror (hstep.view_eq ▸ hn) (hstep.mirrorOk hm) e) ?_ ?_
  · rintro n' v'' ⟨rfl, h⟩
    exact ⟨rfl, hstep.trans h⟩
  · intro _ v'' h
    exact hstep.trans h

/-- With no read fault ahead, reading a node that is on the device returns it and changes
    nothing. -/
theorem readNode_eq (ht : v.dev.readTape = []) (hn : NodeAt v.dev.view p n) (hf : v.FallbackOk) :
    readNode p v = (.ok n, v) := by
  obtain ⟨c, hc, hacc⟩ := hn
  have hprim : readNodePrimary p v = (.ok n, v) := by
    simp only [readNodePrimary, bind, Prog.bind, blockRead_eq ht hc]
    rw [if_pos hacc]
    rfl
  unfold readNode
  simp only [bind, Prog.bind, Prog.get]
  split
  · next hskip =>
      obtain ⟨hset, hbad, hroot, hmir⟩ := hskip
      have hm := hf hset (hbad.symm.trans hroot)
      have hmb : v.dev.view v.rootMirror.block = some (.node c n) := by rw [(hm hmir).2, ← hroot, hc]
      unfold readRootMirror
      simp only [bind, Prog.bind, Prog.get]
      split
      · next hcond =>
          rcases hcond with h | h | h
          · exact absurd hroot h
          · exact absurd h hmir
          · exact absurd (h.trans hroot) (hm hmir).1
      · simp only [Prog.bind, attempt, blockRead_eq ht hmb]
        rw [if_pos hacc]
        simp only [Prog.bind, Prog.modify, pure, hbad]
  · simp only [Prog.bind, attempt, hprim, pure]

end Vol

end EmbLinkOs.Embkfs
