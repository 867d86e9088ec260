import EmbLinkOs.Embkfs.Volume

set_option autoImplicit false

/-! # The block allocator

The bit map `block_bitmap`, the index `free_ext` of its clear runs, and the lists an open
transaction keeps of what it allocated and what it supersedes (`embkfs.c`, "allocator").

Every routine that builds part of a new tree only ever *allocates*, *writes what it allocated* and
*notes blocks as superseded*. `Vol.Effect A F v v'` says that this is all that happened between `v`
and `v'`: the blocks `A` were taken, in that order, the blocks `F` were noted. It composes
(`Effect.trans`), so the specification of a long routine is the concatenation of its parts'. -/

namespace EmbLinkOs.Embkfs

open Run
open List
open Prog hiding bind

variable {α β : Type}

/-! ## The transaction lists -/

namespace Txn

/-- An empty transaction. -/
def empty : Txn := ⟨[], [], [], [], false⟩

/-- `embk_txn_push` on the `freed` list, which holds `EMBK_TXN_MAX` blocks. -/
def pushFreed (t : Txn) (blk : Nat) : Txn :=
  if t.freed.length < txnMax then { t with freed := t.freed ++ [blk] } else { t with overflow := true }

/-- `embk_txn_push_run` on the `arun` list. -/
def pushArun (t : Txn) (start len : Nat) : Txn :=
  if len = 0 ∨ t.overflow then t else { t with arun := t.arun ++ [⟨start, len⟩] }

/-- `embk_txn_push_run` on the `frun` list. -/
def pushFrun (t : Txn) (start len : Nat) : Txn :=
  if len = 0 ∨ t.overflow then t else { t with frun := t.frun ++ [⟨start, len⟩] }

/-- From `t` to `t'` the transaction recorded the allocation of `A` and noted `F`, unless it
    overflowed, after which its lists mean nothing. -/
structure Recorded (A F : List Nat) (t t' : Txn) : Prop where
  overflow : t'.overflow = false → t.overflow = false
  alloc : t'.overflow = false → t'.allocBlocks.Perm (t.allocBlocks ++ A)
  freed : t'.overflow = false → t'.freedBlocks.Perm (t.freedBlocks ++ F)
  grows : t.freed.length ≤ t'.freed.length
  room : t.freed.length ≤ txnMax → t'.freed.length ≤ txnMax

theorem Recorded.refl (t : Txn) : Recorded [] [] t t :=
  ⟨id, by simp, by simp, le_refl _, id⟩

theorem Recorded.trans {A A' F F' : List Nat} {t t' t'' : Txn} (h : Recorded A F t t')
    (h' : Recorded A' F' t' t'') : Recorded (A ++ A') (F ++ F') t t'' where
  overflow ho := h.overflow (h'.overflow ho)
  alloc ho := by
    rw [← append_assoc]
    exact (h'.alloc ho).trans ((h.alloc (h'.overflow ho)).append_right _)
  freed ho := by
    rw [← append_assoc]
    exact (h'.freed ho).trans ((h.freed (h'.overflow ho)).append_right _)
  grows := h.grows.trans h'.grows
  room hr := h'.room (h.room hr)

theorem recorded_pushFreed (t : Txn) (blk : Nat) : Recorded [] [blk] t (t.pushFreed blk) := by
  unfold pushFreed
  split
  · next hroom =>
      refine ⟨id, by simp [allocBlocks], fun _ => ?_, by simp, fun _ => ?_⟩
      · simp only [freedBlocks, append_assoc]
        exact perm_append_comm.append_left _
      · simpa using hroom
  · exact ⟨fun ho => absurd ho (by simp), fun ho => absurd ho (by simp),
      fun ho => absurd ho (by simp), le_refl _, id⟩

/-- A push of a run is skipped for an empty run and after an overflow. -/
theorem recorded_skip {t : Txn} {start len : Nat} (h : len = 0 ∨ t.overflow = true) :
    Recorded (blocks ⟨start, len⟩) [] t t ∧ Recorded [] (blocks ⟨start, len⟩) t t := by
  rcases h with h | h
  · subst h
    exact ⟨Recorded.refl t, Recorded.refl t⟩
  · have hno : ∀ {P : Prop}, t.overflow = false → P := fun ho => absurd ho (by simp [h])
    exact ⟨⟨id, hno, hno, le_refl _, id⟩, ⟨id, hno, hno, le_refl _, id⟩⟩

theorem recorded_pushArun (t : Txn) (start len : Nat) :
    Recorded (blocks ⟨start, len⟩) [] t (t.pushArun start len) := by
  unfold pushArun
  split
  · next h => exact (recorded_skip h).1
  · exact ⟨id, by simp [allocBlocks], by simp [freedBlocks], le_refl _, id⟩

theorem recorded_pushFrun (t : Txn) (start len : Nat) :
    Recorded [] (blocks ⟨start, len⟩) t (t.pushFrun start len) := by
  unfold pushFrun
  split
  · next h => exact (recorded_skip h).2
  · exact ⟨id, by simp [allocBlocks], by simp [freedBlocks], le_refl _, id⟩

end Txn

/-! ## The allocator -/

namespace Vol

/-- Set (or clear) the bits of the listed blocks. -/
def setBits (bm : Nat → Bool) (bs : List Nat) (x : Bool) : Nat → Bool :=
  fun i => if i ∈ bs then x else bm i

/-- `embkfs_free_index_insert_merge`. -/
def freeIndexInsertMerge (start len : Nat) : Prog (Vol α) Errno Unit := do
  let v ← Prog.get
  if len = 0 then pure ()
  else if v.totalBlocks ≤ start ∨ v.totalBlocks - start < len then fail .einval
  else Prog.modify fun v => { v with freeExt := insertMerge start (start + len) v.freeExt }

/-- Insert the runs one after the other. -/
def insertRuns : List Run → Prog (Vol α) Errno Unit
  | [] => pure ()
  | r :: rs => do
    freeIndexInsertMerge r.start r.len
    insertRuns rs

/-- `embkfs_free_index_rebuild`: index the clear runs of the bit map afresh. -/
def freeIndexRebuild : Prog (Vol α) Errno Unit := do
  Prog.modify fun v => { v with freeExt := [] }
  let v ← Prog.get
  match ← attempt (insertRuns (clearRuns v.bitmap v.totalBlocks)) with
  | .ok _ => pure ()
  | .error e =>
    Prog.modify fun v => { v with freeExt := [] }
    fail e

/-- `embkfs_free_run`. -/
def freeRun (start len : Nat) : Prog (Vol α) Errno Unit := do
  let v ← Prog.get
  if len = 0 then pure ()
  else if v.totalBlocks ≤ start ∨ v.totalBlocks - start < len then fail .einval
  else if (blocks ⟨start, len⟩).any (fun b => !v.bitmap b) then fail .eexist
  else
    Prog.modify fun v => { v with bitmap := setBits v.bitmap (blocks ⟨start, len⟩) false }
    freeIndexInsertMerge start len

/-- Update the open transaction, if there is one. -/
def onTxn (f : Txn → Txn) (v : Vol α) : Vol α := { v with txn := v.txn.map f }

/-- `embkfs_note_freed`. -/
def noteFreed (blk : Nat) : Prog (Vol α) Errno Unit := Prog.modify (onTxn (·.pushFreed blk))

/-- `embkfs_note_freed_run`. -/
def noteFreedRun (start len : Nat) : Prog (Vol α) Errno Unit :=
  Prog.modify (onTxn (·.pushFrun start len))

/-- Set the bits of the blocks in order, stopping at the first that is set already. -/
def takeBits (bm : Nat → Bool) : List Nat → Bool × (Nat → Bool)
  | [] => (true, bm)
  | b :: bs => if bm b then (false, bm) else takeBits (setBits bm [b] true) bs

/-- The first run that is not empty, with what stands before and after it. -/
def firstRun : List Run → Option (List Run × Run × List Run)
  | [] => none
  | r :: rs => if r.len = 0 then (firstRun rs).map (fun p => (r :: p.1, p.2.1, p.2.2))
    else some ([], r, rs)

/-- A run as it stays in the index: an empty one is dropped. -/
def keepRun (r : Run) : List Run := if r.len = 0 then [] else [r]

/-- `embkfs_alloc_run`: up to `want` blocks from the front of the first free run. A block of the
    index whose bit is set makes it rebuild the index and start over; the rebuilt index agrees with
    the bit map, so there is no second time (`fuel` counts the attempts). -/
def allocRunFrom : Nat → Nat → Prog (Vol α) Errno (Nat × Nat)
  | 0, _ => fail .einval
  | fuel + 1, want => do
    let v ← Prog.get
    if want = 0 then fail .einval
    else match firstRun v.freeExt with
      | none => fail .enospc
      | some (pre, r, post) =>
        let got := min r.len want
        match takeBits v.bitmap (blocks ⟨r.start, got⟩) with
        | (false, bm) =>
          Prog.modify fun v => { v with bitmap := bm }
          freeIndexRebuild
          allocRunFrom fuel want
        | (true, bm) =>
          Prog.modify fun v => onTxn (·.pushArun r.start got)
            { v with bitmap := bm, freeExt := pre ++ keepRun ⟨r.start + got, r.len - got⟩ ++ post }
          pure (r.start, got)

def allocRun (want : Nat) : Prog (Vol α) Errno (Nat × Nat) := allocRunFrom 2 want

/-- `embkfs_alloc_block`. -/
def allocBlock : Prog (Vol α) Errno Nat := do
  let p ← allocRun 1
  if p.2 = 1 then pure p.1 else fail .einval

/-- `embkfs_alloc_block_far`: the last block of the last free run. -/
def allocBlockFar : Prog (Vol α) Errno Nat := do
  let v ← Prog.get
  match firstRun v.freeExt.reverse with
  | none => fail .enospc
  | some (post, r, pre) =>
    let blk := r.start + r.len - 1
    if v.bitmap blk then
      freeIndexRebuild
      allocBlock
    else
      Prog.modify fun v => onTxn (·.pushArun blk 1)
        { v with
          bitmap := setBits v.bitmap [blk] true,
          freeExt := pre.reverse ++ keepRun ⟨r.start, r.len - 1⟩ ++ post.reverse }
      pure blk

/-- `embkfs_txn_begin`. -/
def txnBegin : Prog (Vol α) Errno Unit := do
  let v ← Prog.get
  if v.txn.isSome then fail .ebusy
  else Prog.modify fun v => { v with txn := some Txn.empty }

/-- `embkfs_txn_new_free`: the free count after the transaction, in 64-bit arithmetic. Superseded
    blocks do not count while a snapshot is retained. -/
def txnNewFree : Prog (Vol α) Errno Nat := do
  let v ← Prog.get
  match v.txn with
  | none => fail .einval
  | some t =>
    if t.overflow then fail .enospc
    else
      let allocated := t.allocBlocks.length
      let freed := if 0 < v.snapshotCount then 0 else t.freedBlocks.length
      pure (((v.freeBlocks : Int) - ((allocated : Int) - (freed : Int))) % 2 ^ 64).toNat

/-! ## What building does to a volume -/

/-- The free index lists no block twice, and lists only blocks of the volume whose bit is clear. -/
def FreeOk (v : Vol α) : Prop :=
  (covered v.freeExt).Nodup ∧
    ∀ b ∈ covered v.freeExt, v.bitmap b = false ∧ b < v.totalBlocks

/-- The transaction, if one is open, recorded the allocation of `A` and noted `F`. -/
def TxnEffect (A F : List Nat) : Option Txn → Option Txn → Prop
  | none, none => True
  | some t, some t' => Txn.Recorded A F t t'
  | _, _ => False

/-- Between `v` and `v'` the blocks `A` were allocated, nothing but blocks of `A` was written, and
    the blocks `F` were noted as superseded. -/
structure Effect (A F : List Nat) (v v' : Vol α) : Prop where
  same : SameVolume v v'
  dev : Device.Wrote A v.dev v'.dev
  bitmap : ∀ b, v'.bitmap b = (v.bitmap b || decide (b ∈ A))
  nodup : A.Nodup
  fresh : ∀ b ∈ A, v.bitmap b = false ∧ b < v.totalBlocks
  free : v'.FreeOk
  txn : TxnEffect A F v.txn v'.txn
  index : A ++ covered v'.freeExt ⊆ covered v.freeExt

theorem TxnEffect.refl (t : Option Txn) : TxnEffect [] [] t t := by
  cases t with
  | none => trivial
  | some t => exact Txn.Recorded.refl t

theorem TxnEffect.trans {A A' F F' : List Nat} {t t' t'' : Option Txn} (h : TxnEffect A F t t')
    (h' : TxnEffect A' F' t' t'') : TxnEffect (A ++ A') (F ++ F') t t'' := by
  cases t <;> cases t' <;> cases t'' <;> first | exact False.elim h | exact False.elim h' | skip
  · trivial
  · exact Txn.Recorded.trans h h'

/-- Recording one step in the transaction is what `onTxn` of a recording update does. -/
theorem TxnEffect.map {A F : List Nat} {f : Txn → Txn} (hf : ∀ t, Txn.Recorded A F t (f t))
    (t : Option Txn) : TxnEffect A F t (t.map f) := by
  cases t with
  | none => trivial
  | some t => exact hf t

variable {v v' : Vol α} {b : Nat} {r : Run}

theorem Effect.refl (hv : v.FreeOk) : Effect [] [] v v :=
  ⟨.refl v, .refl _ _, by simp, nodup_nil, by simp, hv, .refl _, fun _ hb => hb⟩

theorem Effect.trans {A A' F F' : List Nat} {v'' : Vol α} (h : Effect A F v v')
    (h' : Effect A' F' v' v'') : Effect (A ++ A') (F ++ F') v v'' where
  same := h.same.trans h'.same
  dev := (h.dev.mono (subset_append_left _ _)).trans
    (h'.dev.mono (subset_append_right _ _))
  bitmap b := by
    rw [h'.bitmap, h.bitmap, Bool.or_assoc]
    simp
  nodup := by
    refine nodup_append.2 ⟨h.nodup, h'.nodup, fun b hb c hc hbc => ?_⟩
    subst hbc
    have := (h'.fresh b hc).1
    rw [h.bitmap] at this
    simp [hb] at this
  fresh b hb := by
    rcases mem_append.1 hb with hb | hb
    · exact h.fresh b hb
    · obtain ⟨h1, h2⟩ := h'.fresh b hb
      rw [h.bitmap] at h1
      rw [h.same.totalBlocks] at h2
      exact ⟨(Bool.or_eq_false_iff.1 h1).1, h2⟩
  free := h'.free
  txn := h.txn.trans h'.txn
  index b hb := by
    rw [append_assoc] at hb
    rcases mem_append.1 hb with hb | hb
    · exact h.index (mem_append_left _ hb)
    · exact h.index (mem_append_right _ (h'.index hb))

/-- Reading is building nothing. -/
theorem ReadOnlyStep.effect (h : ReadOnlyStep v v') (hv : v.FreeOk) : Effect [] [] v v' := by
  obtain ⟨t, r, ht, rfl⟩ := h
  exact ⟨⟨rfl, rfl, rfl, rfl, rfl, rfl, rfl, rfl, rfl, rfl, .refl _, ht.2⟩,
    Device.SameMedia.wrote ⟨t, ht.1, rfl⟩ _, by simp, nodup_nil, by simp, hv, .refl _,
    fun _ hb => hb⟩

/-- A set bit stays set. -/
theorem Effect.marked {A F : List Nat} (h : Effect A F v v') (hb : v.bitmap b = true) :
    v'.bitmap b = true := by
  rw [h.bitmap, hb, Bool.true_or]

/-- A block whose bit was set reads as before. -/
theorem Effect.view_eq {A F : List Nat} (h : Effect A F v v') (hb : v.bitmap b = true) :
    v'.dev.view b = v.dev.view b :=
  h.dev.view_eq (fun hA => by simp [(h.fresh b hA).1] at hb)

/-- An allocated block's bit is set. -/
theorem Effect.marked_new {A F : List Nat} (h : Effect A F v v') (hb : b ∈ A) :
    v'.bitmap b = true := by
  rw [h.bitmap]
  simp [hb]

theorem effect_noteFreed (hv : v.FreeOk) (blk : Nat) :
    Effect [] [blk] v (onTxn (·.pushFreed blk) v) :=
  ⟨⟨rfl, rfl, rfl, rfl, rfl, rfl, rfl, rfl, rfl, rfl, .refl _, Or.inl rfl⟩, .refl _ _, by simp [onTxn],
    nodup_nil, by simp, hv, .map (fun t => t.recorded_pushFreed blk) _, fun _ hb => hb⟩

theorem effect_noteFreedRun (hv : v.FreeOk) (start len : Nat) :
    Effect [] (blocks ⟨start, len⟩) v (onTxn (·.pushFrun start len) v) :=
  ⟨⟨rfl, rfl, rfl, rfl, rfl, rfl, rfl, rfl, rfl, rfl, .refl _, Or.inl rfl⟩, .refl _ _, by simp [onTxn],
    nodup_nil, by simp, hv, .map (fun t => t.recorded_pushFrun start len) _, fun _ hb => hb⟩

/-! ## Bits -/

theorem setBits_true (bm : Nat → Bool) (bs : List Nat) (b : Nat) :
    setBits bm bs true b = (decide (b ∈ bs) || bm b) := by
  by_cases h : b ∈ bs <;> simp [setBits, h]

theorem setBits_congr (bm : Nat → Bool) {bs bs' : List Nat} (x : Bool) (h : ∀ b, b ∈ bs ↔ b ∈ bs') :
    setBits bm bs x = setBits bm bs' x := by
  funext b
  simp only [setBits, h b]

theorem setBits_setBits (bm : Nat → Bool) (bs bs' : List Nat) (x : Bool) :
    setBits (setBits bm bs x) bs' x = setBits bm (bs ++ bs') x := by
  funext b
  by_cases h : b ∈ bs <;> by_cases h' : b ∈ bs' <;> simp [setBits, h, h']

/-! ## Allocating -/

theorem takeBits_eq {bm : Nat → Bool} {bs : List Nat} (hnd : bs.Nodup)
    (hbs : ∀ b ∈ bs, bm b = false) : takeBits bm bs = (true, setBits bm bs true) := by
  induction bs generalizing bm with
  | nil => rfl
  | cons b bs ih =>
    obtain ⟨hb, hnd⟩ := nodup_cons.1 hnd
    have hbs' : ∀ c ∈ bs, setBits bm [b] true c = false := by
      intro c hc
      have hcb : c ≠ b := fun h => hb (h ▸ hc)
      simp [setBits, hcb, hbs c (mem_cons_of_mem _ hc)]
    unfold takeBits
    rw [if_neg (by simp [hbs b (mem_cons_self ..)]), ih hnd hbs']
    congr 1
    funext i
    by_cases hib : i = b <;> by_cases hi : i ∈ bs <;> simp [setBits, hib, hi]

theorem firstRun_eq_some {l pre post : List Run} (h : firstRun l = some (pre, r, post)) :
    l = pre ++ r :: post ∧ r.len ≠ 0 := by
  induction l generalizing pre with
  | nil => simp [firstRun] at h
  | cons a t ih =>
    unfold firstRun at h
    split at h
    · obtain ⟨⟨pre', r', post'⟩, hp, heq⟩ := Option.map_eq_some_iff.1 h
      simp only [Prod.mk.injEq] at heq
      obtain ⟨rfl, rfl, rfl⟩ := heq
      obtain ⟨rfl, hr⟩ := ih hp
      exact ⟨rfl, hr⟩
    · next ha =>
        simp only [Option.some.injEq, Prod.mk.injEq] at h
        obtain ⟨rfl, rfl, rfl⟩ := h
        exact ⟨rfl, ha⟩

@[simp] theorem covered_keepRun (r : Run) : covered (keepRun r) = r.blocks := by
  unfold keepRun
  split
  · next h =>
      obtain ⟨s, l⟩ := r
      subst h
      rfl
  · simp

/-- Taking the blocks `A` out of the index, setting their bits and recording them. The index that
    is left covers the other blocks it covered. -/
theorem effect_take (hv : v.FreeOk) {ext : List Run} {start len : Nat}
    (hperm : (covered v.freeExt).Perm (blocks ⟨start, len⟩ ++ covered ext)) :
    Effect (blocks ⟨start, len⟩) [] v
      (onTxn (·.pushArun start len)
        { v with bitmap := setBits v.bitmap (blocks ⟨start, len⟩) true, freeExt := ext }) := by
  have hnd : (blocks ⟨start, len⟩ ++ covered ext).Nodup := hperm.nodup_iff.1 hv.1
  have hclear : ∀ b ∈ blocks ⟨start, len⟩ ++ covered ext,
      v.bitmap b = false ∧ b < v.totalBlocks := fun b hb => hv.2 b (hperm.mem_iff.2 hb)
  obtain ⟨hA, hext, hdisj⟩ := nodup_append.1 hnd
  refine ⟨⟨rfl, rfl, rfl, rfl, rfl, rfl, rfl, rfl, rfl, rfl, .refl _, Or.inl rfl⟩, .refl _ _, fun b => ?_, hA,
    fun b hb => hclear b (mem_append_left _ hb), ⟨hext, fun b hb => ?_⟩,
    .map (fun t => t.recorded_pushArun start len) _, hperm.symm.subset⟩
  · by_cases hb : b ∈ blocks ⟨start, len⟩ <;> simp only [onTxn, setBits, hb] <;> simp
  · have hb' : b ∉ blocks ⟨start, len⟩ := fun h => hdisj b h b hb rfl
    obtain ⟨h1, h2⟩ := hclear b (mem_append_right _ hb)
    refine ⟨?_, h2⟩
    simp only [onTxn, setBits, if_neg hb', h1]

/-- A part taken from the front of a run: the index that is left covers the rest. -/
theorem covered_takeFront {l pre post : List Run} (hl : l = pre ++ r :: post) {got : Nat}
    (hgot : got ≤ r.len) :
    (covered l).Perm (blocks ⟨r.start, got⟩
      ++ covered (pre ++ keepRun ⟨r.start + got, r.len - got⟩ ++ post)) := by
  have hsplit : r.blocks = blocks ⟨r.start, got⟩ ++ blocks ⟨r.start + got, r.len - got⟩ :=
    blocks_split _ _ got hgot
  rw [hl]
  simp only [covered_append, covered_cons, covered_keepRun, hsplit, append_assoc]
  rw [← append_assoc, ← append_assoc (blocks ⟨r.start, _⟩)]
  exact perm_append_comm.append_right _

/-- The last block taken from a run. -/
theorem covered_takeLast {l pre post : List Run} (hl : l.reverse = post ++ r :: pre)
    (hr : r.len ≠ 0) :
    (covered l).Perm (blocks ⟨r.start + r.len - 1, 1⟩
      ++ covered (pre.reverse ++ keepRun ⟨r.start, r.len - 1⟩ ++ post.reverse)) := by
  have hlast : r.blocks = blocks ⟨r.start, r.len - 1⟩ ++ [r.start + r.len - 1] := by
    have := blocks_split r.start r.len (r.len - 1) (by omega)
    rw [show r.len - (r.len - 1) = 1 by omega, blocks_one,
      show r.start + (r.len - 1) = r.start + r.len - 1 by omega] at this
    exact this
  rw [← reverse_reverse l, hl]
  simp only [reverse_append, reverse_cons, covered_append, covered_cons,
    covered_nil, append_nil, covered_keepRun, hlast, blocks_one, append_assoc]
  rw [← append_assoc, ← append_assoc]
  refine (perm_append_comm.append_right _).trans ?_
  simp only [append_assoc]
  exact List.Perm.refl _

theorem wp_allocRun (want : Nat) (hv : v.FreeOk) :
    wp (allocRun want)
      (fun p v' => Effect (blocks ⟨p.1, p.2⟩) [] v v' ∧ 0 < p.2 ∧ p.2 ≤ want)
      (fun _ v' => v' = v) v := by
  unfold allocRun allocRunFrom
  simp only [wp_bind, wp_get, wp_ite, wp_fail, implies_true, true_and]
  intro hwant
  split
  · rfl
  · next pre r post hfirst =>
      obtain ⟨hl, hr⟩ := firstRun_eq_some hfirst
      have hcov := covered_takeFront hl (min_le_left r.len want)
      have hclear : ∀ b ∈ blocks ⟨r.start, min r.len want⟩, v.bitmap b = false :=
        fun b hb => (hv.2 b (hcov.mem_iff.2 (mem_append_left _ hb))).1
      rw [takeBits_eq (nodup_blocks _) hclear]
      simp only [wp_bind, wp_modify, wp_pure]
      exact ⟨effect_take hv hcov, by omega, min_le_right _ _⟩

theorem wp_allocBlock (hv : v.FreeOk) :
    wp allocBlock (fun b v' => Effect [b] [] v v') (fun _ v' => ∃ A, Effect A [] v v') v := by
  unfold allocBlock
  rw [wp_bind]
  refine wp_mono (wp_allocRun 1 hv) ?_ ?_
  · rintro ⟨b, n⟩ v' ⟨he, hn0, hn1⟩
    simp only at he hn0 hn1
    obtain rfl : n = 1 := by omega
    simpa using he
  · rintro e v' rfl
    exact ⟨[], Effect.refl hv⟩

/-- A transaction is open and has not overflowed. -/
def Tracked (v : Vol α) : Prop := ∃ t, v.txn = some t ∧ t.overflow = false

theorem wp_allocBlockFar (hv : v.FreeOk) :
    wp allocBlockFar (fun b v' => Effect [b] [] v v' ∧ (v.Tracked → v'.Tracked))
      (fun _ v' => v' = v) v := by
  unfold allocBlockFar
  simp only [wp_bind, wp_get]
  split
  · rfl
  · next post r pre hfirst =>
      obtain ⟨hl, hr⟩ := firstRun_eq_some hfirst
      have hcov := covered_takeLast hl hr
      have hclear : v.bitmap (r.start + r.len - 1) = false :=
        (hv.2 _ (hcov.mem_iff.2 (by simp))).1
      simp only [hclear, Bool.false_eq_true, if_false, wp_bind, wp_modify, wp_pure]
      refine ⟨by simpa using effect_take hv hcov, fun ht => ?_⟩
      obtain ⟨t, ht, ho⟩ := ht
      refine ⟨t.pushArun (r.start + r.len - 1) 1, by simp [onTxn, ht], ?_⟩
      simp [Txn.pushArun, ho]

/-! ## Writing what was allocated -/

/-- Between `v` and `v'` only blocks of `B` were written; the allocator stood still. -/
structure Touched (B : List Nat) (v v' : Vol α) : Prop where
  same : SameVolume v v'
  dev : Device.Wrote B v.dev v'.dev
  bitmap : v'.bitmap = v.bitmap
  freeExt : v'.freeExt = v.freeExt
  txn : v'.txn = v.txn

/-- Writing blocks that were allocated on the way belongs to the same effect. -/
theorem Effect.touched {A B F : List Nat} {v'' : Vol α} (h : Effect A F v v')
    (h' : Touched B v' v'') (hB : B ⊆ A) : Effect A F v v'' where
  same := h.same.trans h'.same
  dev := h.dev.trans (h'.dev.mono hB)
  bitmap b := by rw [h'.bitmap, h.bitmap]
  nodup := h.nodup
  fresh := h.fresh
  free := by
    have hf := h.free
    unfold FreeOk at hf ⊢
    rwa [h'.freeExt, h'.bitmap, h'.same.totalBlocks]
  txn := by rw [h'.txn]; exact h.txn
  index := by rw [h'.freeExt]; exact h.index

theorem touched_setDev {B : List Nat} {d : Device α} (h : Device.Wrote B v.dev d) :
    Touched B v { v with dev := d } :=
  ⟨⟨rfl, rfl, rfl, rfl, rfl, rfl, rfl, rfl, rfl, rfl, ⟨h.oracle, Or.inl rfl⟩, Or.inl rfl⟩, h, rfl, rfl, rfl⟩

theorem touched_noteFailure {B : List Nat} {d : Device α} (e : Errno) (h : Device.Wrote B v.dev d)
    (he : e = .eio → ∃ log r, v.dev.oracle log r ≠ none) :
    Touched B v (noteFailure e { v with dev := d }) := by
  unfold noteFailure
  split
  · next hc =>
      exact ⟨⟨rfl, rfl, rfl, rfl, rfl, rfl, rfl, rfl, rfl, rfl, ⟨h.oracle, Or.inr ⟨rfl, he hc.1⟩⟩,
        Or.inl rfl⟩, h, rfl, rfl, rfl⟩
  · exact touched_setDev h

theorem wp_devWrite (b : Nat) (x : Block α) (v : Vol α) :
    wp (devWrite b x)
      (fun _ v' => Touched [b] v v' ∧ v'.readOnly = v.readOnly ∧ v'.dev.view b = some x)
      (fun _ v' => Touched [b] v v') v := by
  unfold devWrite guarded blockWrite onDev
  simp only [wp_bind, wp_attempt, wp_zoom]
  refine wp_mono (wp_and (Device.wp_write b x v.dev) (Device.wp_write_eq b x v.dev)) ?_ ?_
  · rintro _ d ⟨⟨hw, hx⟩, -⟩
    exact ⟨touched_setDev hw, rfl, hx⟩
  · rintro e d ⟨⟨hw, -⟩, he⟩
    refine touched_noteFailure e hw (fun heio => ?_)
    rcases he with ⟨-, rfl, -⟩ | ⟨ho, -⟩
    · exact absurd heio (by simp)
    · exact ⟨_, _, by rw [ho]; simp⟩

/-! ## Indexing -/

/-- Indexing a run that is not indexed yet. -/
theorem freeIndexInsertMerge_eq (start len : Nat)
    (hrange : ∀ b ∈ blocks ⟨start, len⟩, b < v.totalBlocks)
    (hnd : (blocks ⟨start, len⟩ ++ covered v.freeExt).Nodup) :
    ∃ ext, freeIndexInsertMerge start len v = (.ok (), { v with freeExt := ext }) ∧
      (covered ext).Perm (blocks ⟨start, len⟩ ++ covered v.freeExt) := by
  simp only [freeIndexInsertMerge, bind, Prog.bind, Prog.get]
  by_cases hlen : len = 0
  · rw [if_pos hlen, hlen, blocks_zero]
    exact ⟨v.freeExt, rfl, .refl _⟩
  · have hlast : start + len - 1 < v.totalBlocks := hrange _ (mem_blocks.2 (by simp; omega))
    have hsub : start + len - start = len := by omega
    rw [if_neg hlen, if_neg (by omega)]
    refine ⟨_, rfl, ?_⟩
    have hnd' : (blocks ⟨start, start + len - start⟩ ++ covered v.freeExt).Nodup := by
      rwa [hsub]
    have h := covered_insertMerge (show start ≤ start + len by omega) hnd'
    rwa [hsub] at h

theorem insertRuns_eq (rs : List Run) (hrange : ∀ b ∈ covered rs, b < v.totalBlocks)
    (hnd : (covered v.freeExt ++ covered rs).Nodup) :
    ∃ ext, insertRuns rs v = (.ok (), { v with freeExt := ext }) ∧
      (covered ext).Perm (covered v.freeExt ++ covered rs) := by
  induction rs generalizing v with
  | nil => exact ⟨v.freeExt, rfl, by simp⟩
  | cons r rs ih =>
    rw [covered_cons] at hnd hrange ⊢
    obtain ⟨ext, hrun, hext⟩ := freeIndexInsertMerge_eq (v := v) r.start r.len
      (fun b hb => hrange b (mem_append_left _ hb))
      (by
        rw [← append_assoc] at hnd
        exact perm_append_comm.nodup_iff.1 hnd.of_append_left)
    have hmid : (covered ext ++ covered rs).Perm
        (covered v.freeExt ++ (r.blocks ++ covered rs)) := by
      rw [← append_assoc]
      exact (hext.trans perm_append_comm).append_right _
    obtain ⟨ext', hrun', hext'⟩ := ih (v := { v with freeExt := ext })
      (fun b hb => hrange b (mem_append_right _ hb)) (hmid.nodup_iff.2 hnd)
    refine ⟨ext', ?_, hext'.trans hmid⟩
    simp only [insertRuns, bind, Prog.bind, hrun, hrun']

/-- The index covers exactly the clear bits. -/
theorem freeIndexRebuild_eq (v : Vol α) :
    ∃ ext, freeIndexRebuild v = (.ok (), { v with freeExt := ext }) ∧
      (covered ext).Perm ((List.range v.totalBlocks).filter (fun b => !v.bitmap b)) := by
  have hcov := covered_clearRuns v.bitmap v.totalBlocks
  obtain ⟨ext, hrun, hext⟩ := insertRuns_eq (v := { v with freeExt := [] })
    (clearRuns v.bitmap v.totalBlocks)
    (fun b hb => by
      rw [hcov] at hb
      exact mem_range.1 (mem_filter.1 hb).1)
    (by
      rw [covered_nil, nil_append, hcov]
      exact nodup_range.filter _)
  refine ⟨ext, ?_, by simpa [hcov] using hext⟩
  simp only [freeIndexRebuild, bind, Prog.bind, Prog.modify, Prog.get, attempt, hrun, pure]

theorem freeOk_of_perm {ext : List Run}
    (h : (covered ext).Perm ((List.range v.totalBlocks).filter (fun b => !v.bitmap b))) :
    ({ v with freeExt := ext } : Vol α).FreeOk := by
  refine ⟨h.nodup_iff.2 (nodup_range.filter _), fun b hb => ?_⟩
  have hb' := mem_filter.1 (h.mem_iff.1 hb)
  exact ⟨by simpa using hb'.2, mem_range.1 hb'.1⟩

end Vol

end EmbLinkOs.Embkfs
