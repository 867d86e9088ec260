import EmbLinkOs.Embkfs.Consistent
import EmbLinkOs.Embkfs.Files

set_option autoImplicit false
set_option linter.unusedSectionVars false

/-! # Block accounting of a batch of ops

What a batch of ops does to the data blocks the tree accounts for. `Accounts` says that the batch
gives up exactly the blocks `noted` and `lost` and brings in exactly `taken`, that the extents it
writes are valid, and that it leaves the snapshot records alone. Batches are put together with
`Accounts.append`. -/

namespace EmbLinkOs.Embkfs

open List

open SortedMap

section Map

variable {α : Type} [ItemData α]

/-- The data blocks the item under `k` accounts for, if there is one. -/
def blocksAt (k : Key) (x : Option α) : List Nat := (x.map (fun d => itemBlocks (k, d))).getD []

@[simp] theorem blocksAt_none (k : Key) : blocksAt k (none : Option α) = [] := rfl

theorem blocksAt_other {k : Key} (hk : k.type ≠ typeExtent) (x : Option α) : blocksAt k x = [] := by
  cases x with
  | none => rfl
  | some d => simp [blocksAt, itemBlocks, hk]

/-- One op exchanges the blocks of the item it replaces for those of the item it writes. -/
theorem dataBlocks_upd (k : Key) (x : Option α) {its : List (Key × α)} (hs : Sorted its) :
    (dataBlocks (upd k x its) ++ blocksAt k (find k its)).Perm
      (dataBlocks its ++ blocksAt k x) := by
  induction its with
  | nil => cases x <;> simp [upd, blocksAt]
  | cons a t ih =>
    obtain ⟨hat, ht⟩ := pairwise_cons.1 hs
    unfold upd
    split
    · next hlt =>
        rw [find_cons, if_neg hlt.ne, dataBlocks_cons, dataBlocks_cons, append_assoc,
          append_assoc]
        exact (ih ht).append_left _
    · next hge =>
        split
        · next heq =>
            have hab : blocksAt k (some a.2) = itemBlocks a := by
              rw [← heq]
              rfl
            rw [find_cons, if_pos heq, hab]
            rw [perm_iff_count]
            intro b
            cases x with
            | none => simp only [dataBlocks_cons, blocksAt_none, count_append, count_nil]; omega
            | some d =>
              simp only [dataBlocks_cons, blocksAt, Option.map_some, Option.getD_some,
                count_append]
              omega
        · next hne =>
            have hlt : k < a.1 := lt_of_le_of_ne (not_lt.1 hge) (Ne.symm hne)
            have hnone : find k (a :: t) = none := by
              refine find_eq_none (fun e he => ?_)
              rcases mem_cons.1 he with rfl | he
              · exact hlt.ne'
              · exact (hlt.trans (hat e he)).ne'
            rw [hnone]
            cases x with
            | none => exact List.Perm.refl _
            | some d =>
              rw [dataBlocks_cons, blocksAt_none, append_nil]
              exact perm_append_comm

/-- The batch `ops` brings the blocks `taken` into the tree and drops `noted` and `lost` from it. -/
structure Accounts (bs total : Nat) (its : List (Key × α)) (ops : List (Put α))
    (taken noted lost : List Nat) : Prop where
  data : (dataBlocks (updAll ops its) ++ noted ++ lost).Perm (dataBlocks its ++ taken)
  extents : (∀ e ∈ its, ExtentOk bs total e) → ∀ e ∈ updAll ops its, ExtentOk bs total e
  snapshots : ∀ slot, find (Vol.snapshotKey slot) (updAll ops its)
    = find (Vol.snapshotKey slot) its

section

variable {bs total : Nat} {its : List (Key × α)} {taken noted lost : List Nat} {ops : List (Put α)}

theorem Accounts.nil (bs total : Nat) (its : List (Key × α)) : Accounts bs total its [] [] [] [] :=
  ⟨by simp, fun h => h, fun _ => rfl⟩

theorem Accounts.append {taken' noted' lost' : List Nat} {ops' : List (Put α)}
    (h : Accounts bs total its ops taken noted lost)
    (h' : Accounts bs total (updAll ops its) ops' taken' noted' lost') :
    Accounts bs total its (ops ++ ops') (taken ++ taken') (noted ++ noted') (lost ++ lost') := by
  refine ⟨?_, ?_, ?_⟩
  · rw [updAll_append_ops, perm_iff_count]
    intro b
    have h1 := (perm_iff_count.1 h.data) b
    have h2 := (perm_iff_count.1 h'.data) b
    simp only [count_append] at h1 h2 ⊢
    omega
  · rw [updAll_append_ops]
    exact fun hi => h'.extents (h.extents hi)
  · intro slot
    rw [updAll_append_ops, h'.snapshots, h.snapshots]

/-- Blocks may be listed in any order. -/
theorem Accounts.perm {taken' noted' lost' : List Nat}
    (h : Accounts bs total its ops taken noted lost) (ht : taken.Perm taken')
    (hn : (noted ++ lost).Perm (noted' ++ lost')) :
    Accounts bs total its ops taken' noted' lost' := by
  refine ⟨?_, h.extents, h.snapshots⟩
  have := h.data
  rw [append_assoc] at this ⊢
  exact ((hn.symm.append_left _).trans this).trans (ht.append_left _)

/-- One op. -/
theorem accounts_op (bs total : Nat) (hs : Sorted its) (k : Key) (x : Option α) (hk : k.type ≠ typeSnapshot)
    (hx : ∀ d, x = some d → ExtentOk bs total (k, d)) :
    Accounts bs total its [(k, x)] (blocksAt k x) (blocksAt k (find k its)) [] := by
  refine ⟨?_, ?_, ?_⟩
  · simpa using dataBlocks_upd k x hs
  · intro hi e he
    rcases mem_upd (show e ∈ upd k x its from he) with ⟨hek, hxe⟩ | he
    · have := hx e.2 hxe
      rw [← hek] at this
      exact this
    · exact hi e he
  · intro slot
    rw [updAll_cons, updAll_nil, find_upd hs, if_neg]
    intro hkey
    exact hk (congrArg Key.type hkey.symm)

/-- Ops on inodes and directory entries leave the data blocks alone. -/
theorem accounts_other (hs : Sorted its)
    (hk : ∀ op ∈ ops, op.1.type = typeInode ∨ op.1.type = typeDirEntry) :
    Accounts bs total its ops [] [] [] := by
  induction ops generalizing its with
  | nil => exact .nil _ _ _
  | cons op ops ih =>
    have hop := hk op (by simp)
    have hne : op.1.type ≠ typeExtent := by
      rcases hop with h | h <;> rw [h] <;> decide
    have hns : op.1.type ≠ typeSnapshot := by
      rcases hop with h | h <;> rw [h] <;> decide
    have h1 := accounts_op bs total hs op.1 op.2 hns
      (fun _ _ ht => absurd ht hne)
    rw [blocksAt_other hne, blocksAt_other hne] at h1
    exact h1.append (ih (sorted_upd hs) (fun o ho => hk o (mem_cons_of_mem _ ho)))

end

end Map

/-! ## The extents of one object -/

/-- The extents of an object with their offsets, in the order of the tree. -/
def extentsOf (oid : Nat) (its : List (Key × Payload)) : List (Nat × Extent) :=
  its.filterMap (fun e => if e.1.within oid typeExtent then
    (ItemData.extent e.2).map (fun x => (e.1.offset, x)) else none)

theorem Key.within_iff {oid ty : Nat} {k : Key} :
    k.within oid ty = true ↔ k = ⟨oid, ty, k.offset⟩ := by
  obtain ⟨o, t, f⟩ := k
  simp [Key.within]

section

variable {its : List (Key × Payload)} {oid : Nat}

theorem mem_extentsOf (hs : Sorted its) {off : Nat} {x : Extent} :
    (off, x) ∈ extentsOf oid its ↔ find (extentKey oid off) its = some (.extent x) := by
  simp only [extentsOf, mem_filterMap]
  constructor
  · rintro ⟨e, he, hx⟩
    split at hx
    · next hw =>
        have hk := Key.within_iff.1 hw
        cases hd : e.2 with
        | extent y =>
          simp only [hd, ItemData.extent, Option.map_some, Option.some.injEq, Prod.mk.injEq] at hx
          obtain ⟨rfl, rfl⟩ := hx
          have := find_of_mem hs he
          rw [hd] at this
          rw [extentKey, ← hk]
          exact this
        | inode => simp [hd, ItemData.extent] at hx
        | dirents => simp [hd, ItemData.extent] at hx
        | snapshot => simp [hd, ItemData.extent] at hx
    · simp at hx
  · intro h
    exact ⟨_, mem_of_find h, by simp [extentKey, Key.within, ItemData.extent]⟩

theorem extentsOf_sorted (hs : Sorted its) :
    (extentsOf oid its).Pairwise (fun a b => a.1 < b.1) := by
  unfold extentsOf
  refine List.Pairwise.filterMap _ ?_ hs
  intro a a' hlt b hb b' hb'
  simp only [Option.ite_none_right_eq_some, Option.map_eq_some_iff] at hb hb'
  obtain ⟨hw, x, -, rfl⟩ := hb
  obtain ⟨hw', x', -, rfl⟩ := hb'
  rw [Key.within_iff.1 hw, Key.within_iff.1 hw', Key.lt_def, keyCmp_eq_lt] at hlt
  simp only [lt_irrefl, true_and, false_or] at hlt
  exact hlt

theorem extentsOf_nodup (hs : Sorted its) : ((extentsOf oid its).map Prod.fst).Nodup := by
  rw [nodup_iff_pairwise_ne, pairwise_map]
  exact (extentsOf_sorted hs).imp (fun h => h.ne)

/-- The extents after a write of one key. -/
theorem find_extentKey_upd (hs : Sorted its) (off off' : Nat) (x : Option Payload) :
    find (extentKey oid off) (upd (extentKey oid off') x its)
      = if off = off' then x else find (extentKey oid off) its := by
  rw [find_upd hs]
  simp [extentKey]

variable {bs total : Nat}

/-- A list of extents that are in the tree, each at its offset and valid. -/
def Present (bs total oid : Nat) (its : List (Key × Payload)) (exts : List (Nat × Extent)) : Prop :=
  (exts.map Prod.fst).Nodup ∧ ∀ x ∈ exts,
    find (extentKey oid x.1) its = some (.extent x.2) ∧ x.2.valid bs total = true

theorem blocksAt_extentKey (off : Nat) (x : Extent) :
    blocksAt (extentKey oid off) (some (Payload.extent x)) = x.blocks := rfl

/-- Deleting extents gives up the runs they name. -/
theorem accounts_deleteExtents (hs : Sorted its) {exts : List (Nat × Extent)}
    (h : Present bs total oid its exts) :
    Accounts bs total its (Vol.deleteExtents oid exts) [] (Run.covered (Vol.extentRuns exts)) [] := by
  induction exts generalizing its with
  | nil => exact .nil _ _ _
  | cons x exts ih =>
    obtain ⟨hnd, hx⟩ := h
    rw [map_cons, nodup_cons] at hnd
    obtain ⟨hfind, hval⟩ := hx x (by simp)
    have h1 := accounts_op bs total hs (extentKey oid x.1) none
      (show typeExtent ≠ typeSnapshot by decide) (fun d hd => absurd hd (by simp))
    rw [hfind, blocksAt_extentKey, blocksAt_none, Extent.valid_blocks hval] at h1
    refine (h1.append (ih (sorted_upd hs) ⟨hnd.2, fun y hy => ?_⟩)).perm (by simp) (by simp [Vol.extentRuns])
    rw [updAll_cons, updAll_nil, find_extentKey_upd hs, if_neg]
    · exact hx y (mem_cons_of_mem _ hy)
    · intro heq
      exact hnd.1 (heq ▸ mem_map_of_mem hy)

/-- What is in the tree is present. -/
theorem present_extentsOf (hs : Sorted its) (hx : ∀ e ∈ its, ExtentOk bs total e) :
    Present bs total oid its (extentsOf oid its) := by
  refine ⟨extentsOf_nodup hs, fun x hmem => ?_⟩
  have hf := (mem_extentsOf hs).1 hmem
  obtain ⟨y, hy, hv⟩ := hx _ (mem_of_find hf) rfl
  simp only [ItemData.extent, Option.some.injEq] at hy
  exact ⟨hf, hy ▸ hv⟩

theorem Present.congr {its' : List (Key × Payload)} {exts : List (Nat × Extent)}
    (h : Present bs total oid its exts)
    (hfind : ∀ x ∈ exts, find (extentKey oid x.1) its' = find (extentKey oid x.1) its) :
    Present bs total oid its' exts :=
  ⟨h.1, fun x hx => by rw [hfind x hx]; exact h.2 x hx⟩

end

end EmbLinkOs.Embkfs
