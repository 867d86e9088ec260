import EmbLinkOs.Embkfs.Tree

set_option autoImplicit false

/-! # The copy-on-write engine

`embkfs_cow_apply` applies a batch of puts and deletes to a tree without touching any of its nodes:
ops are routed down, leaves are rebuilt and split by bytes, emptied children drop out, under-full
neighbours are merged or evened out, internal nodes are split by count, and a new root is grown or
a chain of single-child roots collapsed. Each routine returns the slots of what it built.

Ops on absent keys fall below the first slot of a node only when they are smaller than every key of
the tree, and the engine then gives up with `-EMBK_ENOENT`. -/

namespace EmbLinkOs.Embkfs

open Prog hiding bind

open SortedMap

variable {α : Type} [ItemData α]

/-- `struct embk_put`: write `some` data under the key, or delete the key (`none`, the `del`
    flag). -/
abbrev Put (α : Type) := Key × Option α

/-- The bytes a leaf with these items takes. -/
def leafBytes (items : List (Key × α)) : Nat :=
  nodeHeaderSize + (items.map (fun e => itemHeaderSize + ItemData.size e.2)).sum

/-- The key an emitted node is entered under: its first one, or the zero key. -/
def firstKey (keys : List Key) : Key := keys.head?.getD ⟨0, 0, 0⟩

/-- How many items it takes, after `acc` bytes, to reach `half`; all of them if they do not. -/
def splitScan (half : Nat) : Nat → List (Key × α) → Nat
  | _, [] => 0
  | acc, e :: t =>
    let acc := acc + (itemHeaderSize + ItemData.size e.2)
    if half ≤ acc then 1 else 1 + splitScan half acc t

/-- Where `embk_emit_leaf_list` cuts a list that does not fit one block. -/
def splitPoint (items : List (Key × α)) : Nat :=
  min (max (splitScan (leafBytes items / 2) nodeHeaderSize items) 1) (items.length - 1)

namespace Vol

variable [Checksum α]

/-! ## Emitting nodes -/

/-- Allocate a block and write a node to it. -/
def emitNode (level : Nat) (items : List (Key × α)) (slots : List Slot) (gen : Nat) :
    Prog (Vol α) Errno BlockPtr := do
  let b ← allocBlock
  writeNode b gen level items slots

/-- `embk_emit_leaf`. -/
def emitLeaf (items : List (Key × α)) (gen : Nat) : Prog (Vol α) Errno Slot := do
  let v ← Prog.get
  if v.blockSize < leafBytes items then fail .enospc
  else
    let p ← emitNode 0 items [] gen
    pure ⟨firstKey (items.map Prod.fst), p⟩

/-- `embk_emit_internal`; the level is stored in one byte. -/
def emitInternal (kids : List Slot) (level gen : Nat) : Prog (Vol α) Errno Slot := do
  let v ← Prog.get
  if v.blockSize < nodeHeaderSize + kids.length * internalSlotSize then fail .enospc
  else
    let p ← emitNode (level % 256) [] kids gen
    pure ⟨firstKey (kids.map Slot.key), p⟩

/-- `embk_emit_leaf_list`. -/
def emitLeafList (items : List (Key × α)) (gen : Nat) : Prog (Vol α) Errno (List Slot) := do
  let v ← Prog.get
  if items = [] then pure []
  else if leafBytes items ≤ v.blockSize then
    let a ← emitLeaf items gen
    pure [a]
  else
    let a ← emitLeaf (items.take (splitPoint items)) gen
    let b ← emitLeaf (items.drop (splitPoint items)) gen
    pure [a, b]

/-- `embk_emit_internal_list`. -/
def emitInternalList (kids : List Slot) (level gen : Nat) : Prog (Vol α) Errno (List Slot) :=
  if kids = [] then pure []
  else if kids.length ≤ maxSlots then do
    let a ← emitInternal kids level gen
    pure [a]
  else do
    let a ← emitInternal (kids.take (kids.length / 2)) level gen
    let b ← emitInternal (kids.drop (kids.length / 2)) level gen
    pure [a, b]

/-! ## Rebalancing -/

/-- `embk_child_shape`. -/
def childShape (p : BlockPtr) : Prog (Vol α) Errno (Nat × Nat) := do
  let n ← readNode p
  pure (n.level, n.nritems)

/-- `embk_rebalance_leaf_pair`. -/
def rebalanceLeafPair (left right : BlockPtr) (gen : Nat) : Prog (Vol α) Errno (List Slot) := do
  let l ← readNode left
  let r ← readNode right
  if l.level ≠ 0 ∨ r.level ≠ 0 then fail .einval
  else emitLeafList (l.items ++ r.items) gen

/-- `embk_rebalance_internal_pair`. -/
def rebalanceInternalPair (left right : BlockPtr) (childLevel gen : Nat) :
    Prog (Vol α) Errno (List Slot) := do
  let l ← readNode left
  let r ← readNode right
  if l.level ≠ childLevel ∨ r.level ≠ childLevel then fail .einval
  else if maxSlots < l.nritems ∨ maxSlots < r.nritems then fail .einval
  else emitInternalList (l.slots ++ r.slots) childLevel gen

/-- Two neighbours of level `level` joined into one node or evened out over two. -/
def rebalancePair (left right : BlockPtr) (level gen : Nat) : Prog (Vol α) Errno (List Slot) :=
  if level = 0 then rebalanceLeafPair left right gen
  else rebalanceInternalPair left right level gen

/-- Fewest entries a node of level `level` may have without being rebalanced. -/
def minSlots (level : Nat) : Nat := if level = 0 then 2 else (maxSlots + 1) / 2

/-- The loop of `embk_rebalance_children`: `done` are the children left of position `i`, nearest
    first, and `rest` those from `i` on. A pair that became one node is looked at again together
    with its left neighbour. `fuel` bounds the iterations; twice the number of children is
    enough. -/
def rebalanceFrom (gen : Nat) : Nat → List Slot → List Slot → Prog (Vol α) Errno (List Slot)
  | fuel + 1, done, a :: b :: rest => do
    let (ll, ln) ← childShape a.ptr
    let (rl, rn) ← childShape b.ptr
    if ll ≠ rl then fail .einval
    else if minSlots ll ≤ ln ∧ minSlots ll ≤ rn then rebalanceFrom gen fuel (a :: done) (b :: rest)
    else
      let repl ← rebalancePair a.ptr b.ptr ll gen
      if repl.length = 0 ∨ 2 < repl.length then fail .einval
      else
        noteFreed a.ptr.block
        noteFreed b.ptr.block
        match repl, done with
        | [x], [] => rebalanceFrom gen fuel [] (x :: rest)
        | [x], d :: ds => rebalanceFrom gen fuel ds (d :: x :: rest)
        | x :: y :: _, _ => rebalanceFrom gen fuel (x :: done) (y :: rest)
        | [], _ => fail .einval
  | 0, _, _ :: _ :: _ => fail .einval
  | _, done, rest => pure (done.reverse ++ rest)

/-- `embk_rebalance_children`. -/
def rebalanceChildren (kids : List Slot) (parentLevel gen : Nat) :
    Prog (Vol α) Errno (List Slot) :=
  if kids.length < 2 ∨ parentLevel = 0 then pure kids
  else rebalanceFrom gen (2 * kids.length) [] kids

/-! ## Applying ops -/

/-- One child of `embkfs_cow_apply_rec`'s loop: it stays as it is when no op is routed to it and is
    replaced by what `apply` builds from it otherwise. -/
def cowChild (apply : BlockPtr → List (Put α) → Prog (Vol α) Errno (List Slot × Nat)) (s : Slot)
    (sub : List (Put α)) : Prog (Vol α) Errno (List Slot) :=
  if sub.isEmpty then pure [s] else do
    let out ← apply s.ptr sub
    pure out.1

/-- The loop of `embkfs_cow_apply_rec` over the slots from index `i` on. -/
def cowChildren (apply : BlockPtr → List (Put α) → Prog (Vol α) Errno (List Slot × Nat))
    (slots : List Slot) (ops : List (Put α)) : Nat → List Slot → Prog (Vol α) Errno (List Slot)
  | _, [] => pure []
  | i, s :: rest => do
    let here ← cowChild apply s (ops.filter (fun op => slotOf slots op.1 = some i))
    let more ← cowChildren apply slots ops (i + 1) rest
    pure (here ++ more)

/-- `embkfs_cow_apply_rec`: the slots that replace the node at `p`, and its level. -/
def cowApplyRec (gen : Nat) :
    Nat → BlockPtr → List (Put α) → Prog (Vol α) Errno (List Slot × Nat)
  | 0, _, _ => fail .einval
  | fuel + 1, p, ops => do
    let n ← readNode p
    if n.level = 0 then
      noteFreed p.block
      let out ← emitLeafList (updAll ops n.items) gen
      pure (out, 0)
    else if n.slots.length = 0 ∨ maxSlots < n.slots.length then fail .einval
    else if ops.any (fun op => (slotOf n.slots op.1).isNone) then fail .enoent
    else
      let kids ← cowChildren (cowApplyRec gen fuel) n.slots ops 0 n.slots
      noteFreed p.block
      let kids ← rebalanceChildren kids n.level gen
      let out ← emitInternalList kids n.level gen
      pure (out, n.level)

/-- The loop of `embkfs_cow_apply` that drops internal roots with a single child. -/
def collapseRoot : Nat → BlockPtr → Prog (Vol α) Errno BlockPtr
  | 0, _ => fail .einval
  | fuel + 1, p => do
    let n ← readNode p
    if n.level = 0 then pure p
    else match n.slots with
      | [s] =>
        noteFreed p.block
        collapseRoot fuel s.ptr
      | _ => pure p

/-- `embkfs_cow_apply`. -/
def cowApply (p : BlockPtr) (ops : List (Put α)) (gen : Nat) : Prog (Vol α) Errno BlockPtr := do
  let (top, level) ← cowApplyRec gen treeFuel p ops
  match top with
  | [t] => collapseRoot treeFuel t.ptr
  | [_, _] => do
    let r ← emitInternal top (level + 1) gen
    pure r.ptr
  | _ => do
    let r ← emitLeaf [] gen
    pure r.ptr

end Vol

end EmbLinkOs.Embkfs
