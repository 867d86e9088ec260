import EmbLinkOs.Embkfs.Alloc
import EmbLinkOs.Lib.Machine

set_option autoImplicit false

/-! # The free-extent index

`free_ext` and `block_bitmap` of `embkfs.c`, with the memory the index is kept in: here a `krealloc`
may be refused, which the other modules leave out: `Vol.freeRun`, `Vol.allocRun` and
`Vol.allocBlockFar` are the routines below with every request granted (`freeRun_refines`,
`allocRun_refines`, `allocBlockFar_refines`). While memory is granted the index stays exact
(`free_index_exact`). A refused request in `embkfs_free_run` comes after the bits are cleared and after
the neighbours are taken out of the index, and nothing is put back (`free_run_loses_block`). -/

namespace EmbLinkOs.Embkfs

open List
open Prog hiding bind

/-- The bit map, `free_ext` and `free_ext_cap`. -/
structure FreeIndex where
  totalBlocks : Nat
  bitmap : Nat → Bool
  freeExt : List Run
  cap : Nat

namespace FreeIndex

/-! ## The routines -/

/-- `while (cap < need) cap *= 2`, which gives up above 2³¹. -/
def growCap : Nat → Nat → Nat → Option Nat
  | 0, cap, need => if cap < need then none else some cap
  | n + 1, cap, need =>
    if cap < need then if 2 ^ 31 - 1 < cap then none else growCap n (cap * 2) need else some cap

/-- Which sizes `krealloc` grants during a call. -/
abbrev Grant := Nat → Bool

/-- `embkfs_free_index_reserve`. -/
def reserve (grant : Grant) (need : Nat) : Prog FreeIndex Errno Unit := do
  let s ← Prog.get
  if need ≤ s.cap then pure ()
  else
    match growCap 32 (if s.cap = 0 then 16 else s.cap) need with
    | none => fail .enomem
    | some cap => if grant cap then Prog.modify fun s => { s with cap } else fail .enomem

/-- `embkfs_free_index_insert_merge`: the runs the new one touches are taken out before the array is
grown. -/
def insertMerge (grant : Grant) (start len : Nat) : Prog FreeIndex Errno Unit := do
  let s ← Prog.get
  if len = 0 then pure ()
  else if s.totalBlocks ≤ start ∨ s.totalBlocks - start < len then fail .einval
  else
    let parts := Run.absorb start (start + len) s.freeExt
    Prog.modify fun s => { s with freeExt := parts.1 ++ parts.2.2 }
    reserve grant (parts.1.length + parts.2.2.length + 1)
    Prog.modify fun s => { s with freeExt := parts.1 ++ parts.2.1 :: parts.2.2 }

def insertRuns (grant : Grant) : List Run → Prog FreeIndex Errno Unit
  | [] => pure ()
  | r :: rs => do
    insertMerge grant r.start r.len
    insertRuns grant rs

/-- `embkfs_free_index_clear`. -/
def clear (s : FreeIndex) : FreeIndex := { s with freeExt := [], cap := 0 }

/-- `embkfs_free_index_rebuild`. -/
def rebuild (grant : Grant) : Prog FreeIndex Errno Unit := do
  Prog.modify clear
  let s ← Prog.get
  match ← attempt (insertRuns grant (Run.clearRuns s.bitmap s.totalBlocks)) with
  | .ok _ => pure ()
  | .error e =>
    Prog.modify clear
    fail e

/-- `embkfs_free_run`. -/
def freeRun (grant : Grant) (start len : Nat) : Prog FreeIndex Errno Unit := do
  let s ← Prog.get
  if len = 0 then pure ()
  else if s.totalBlocks ≤ start ∨ s.totalBlocks - start < len then fail .einval
  else if (Run.blocks ⟨start, len⟩).any (fun b => !s.bitmap b) then fail .eexist
  else
    Prog.modify fun s => { s with bitmap := Vol.setBits s.bitmap (Run.blocks ⟨start, len⟩) false }
    insertMerge grant start len

/-- `embkfs_alloc_run`. -/
def allocRunFrom (grant : Grant) : Nat → Nat → Prog FreeIndex Errno Run
  | 0, _ => fail .einval
  | fuel + 1, want => do
    let s ← Prog.get
    if want = 0 then fail .einval
    else match Vol.firstRun s.freeExt with
      | none => fail .enospc
      | some (pre, r, post) =>
        let got := min r.len want
        match Vol.takeBits s.bitmap (Run.blocks ⟨r.start, got⟩) with
        | (false, bm) =>
          Prog.modify fun s => { s with bitmap := bm }
          rebuild grant
          allocRunFrom grant fuel want
        | (true, bm) =>
          Prog.modify fun s =>
            { s with bitmap := bm, freeExt := pre ++ Vol.keepRun ⟨r.start + got, r.len - got⟩ ++ post }
          pure ⟨r.start, got⟩

/-- A rebuilt index agrees with the bit map, so a second attempt is enough. -/
def allocRun (grant : Grant) (want : Nat) : Prog FreeIndex Errno Run := allocRunFrom grant 2 want

/-- `embkfs_alloc_block`. -/
def allocBlock (grant : Grant) : Prog FreeIndex Errno Run := do
  let r ← allocRun grant 1
  if r.len = 1 then pure r else fail .einval

/-- `embkfs_alloc_block_far`. -/
def allocBlockFar (grant : Grant) : Prog FreeIndex Errno Run := do
  let s ← Prog.get
  match Vol.firstRun s.freeExt.reverse with
  | none => fail .enospc
  | some (post, r, pre) =>
    let blk := r.start + r.len - 1
    if s.bitmap blk then
      rebuild grant
      allocBlock grant
    else
      Prog.modify fun s =>
        { s with
          bitmap := Vol.setBits s.bitmap [blk] true,
          freeExt := pre.reverse ++ Vol.keepRun ⟨r.start, r.len - 1⟩ ++ post.reverse }
      pure ⟨blk, 1⟩

/-! ## The exact index -/

/-- The index lists the clear bits of the volume, as runs that are as long as they can be. -/
structure Exact (s : FreeIndex) : Prop where
  separated : Run.Separated s.freeExt
  bound : ∀ r ∈ s.freeExt, r.start + r.len ≤ s.totalBlocks
  clear : ∀ b, b ∈ Run.covered s.freeExt ↔ b < s.totalBlocks ∧ s.bitmap b = false

/-- Memory is granted, and the volume is small enough for an index of 2³¹ runs. -/
def Ample (grant : Grant) (s : FreeIndex) : Prop := (∀ size, grant size = true) ∧ s.totalBlocks ≤ 2 ^ 32

theorem growCap_eq_some {n cap need : Nat} (hneed : need ≤ 2 ^ 31) (hfuel : need ≤ cap * 2 ^ n) :
    ∃ c, growCap n cap need = some c ∧ need ≤ c := by
  induction n generalizing cap with
  | zero => exact ⟨cap, by simp [growCap]; omega, by omega⟩
  | succ n ih =>
    unfold growCap
    split
    next hlt =>
      rw [if_neg (by omega)]
      exact ih (by rw [pow_succ] at hfuel; nlinarith)
    next hge => exact ⟨cap, rfl, by omega⟩

theorem wp_reserve {grant : Grant} (hgrant : ∀ size, grant size = true) {need : Nat} (hneed : need ≤ 2 ^ 31)
    (s : FreeIndex) : wp (reserve grant need) (fun _ s' => ∃ cap, s' = { s with cap }) (fun _ _ => False) s := by
  unfold reserve
  simp only [wp_bind, wp_get, wp_ite, wp_pure]
  refine ⟨fun _ => ⟨s.cap, rfl⟩, fun hlt => ?_⟩
  obtain ⟨c, hc, -⟩ : ∃ c, growCap 32 (if s.cap = 0 then 16 else s.cap) need = some c ∧ need ≤ c := by
    refine growCap_eq_some hneed ?_
    have hpos : 1 ≤ if s.cap = 0 then 16 else s.cap := by split <;> omega
    have := Nat.mul_le_mul_right (2 ^ 32) hpos
    omega
  rw [hc]
  simp only [hgrant, if_true, wp_modify]
  exact ⟨c, rfl⟩

/-- A run in the volume is added to the index, and joined with what it touches. -/
theorem wp_insertMerge {grant : Grant} {s : FreeIndex} (hs : Ample grant s) (hsep : Run.Separated s.freeExt)
    (hin : ∀ b ∈ Run.covered s.freeExt, b < s.totalBlocks) {start len : Nat} (hlen : len ≠ 0)
    (hrange : start + len ≤ s.totalBlocks) :
    wp (insertMerge grant start len)
      (fun _ s' => ∃ cap, s' = { s with freeExt := Run.insertMerge start (start + len) s.freeExt, cap })
      (fun _ _ => False) s := by
  have hsep' := hsep.insertMerge (show start < start + len by omega)
  have hin' : ∀ b ∈ Run.covered (Run.insertMerge start (start + len) s.freeExt), b < s.totalBlocks := by
    intro b hb
    obtain ⟨-, hb⟩ | hb := (Run.mem_covered_insertMerge (by omega)).1 hb
    · omega
    · exact hin b hb
  have hcount := hsep'.length_le (k := 0) (by omega) fun r hr => ⟨Nat.zero_le _, hsep'.end_le hin' r hr⟩
  rw [Run.insertMerge_eq_absorb, length_append, length_cons] at hcount
  unfold insertMerge
  simp only [wp_bind, wp_get, wp_ite, wp_pure, wp_fail, wp_modify]
  refine ⟨fun h => absurd h hlen, fun _ => ⟨fun h => by omega, fun _ => ?_⟩⟩
  refine wp_mono (wp_reserve hs.1 (by have := hs.2; omega) _) ?_ (fun _ _ h => h)
  rintro - s' ⟨cap, rfl⟩
  rw [Run.insertMerge_eq_absorb]
  exact ⟨cap, rfl⟩

theorem wp_insertRuns (grant : Grant) (rs : List Run) {s : FreeIndex} (hs : Ample grant s)
    (hsep : Run.Separated s.freeExt) (hin : ∀ b ∈ Run.covered s.freeExt, b < s.totalBlocks)
    (hrs : ∀ r ∈ rs, 0 < r.len ∧ r.start + r.len ≤ s.totalBlocks) :
    wp (insertRuns grant rs)
      (fun _ s' => ∃ ext cap, s' = { s with freeExt := ext, cap } ∧ Run.Separated ext ∧
        ∀ b, b ∈ Run.covered ext ↔ b ∈ Run.covered s.freeExt ∨ b ∈ Run.covered rs)
      (fun _ _ => False) s := by
  induction rs generalizing s with
  | nil => exact ⟨s.freeExt, s.cap, rfl, hsep, by simp⟩
  | cons r rs ih =>
    obtain ⟨hpos, hend⟩ := hrs r (by simp)
    rw [insertRuns, wp_bind]
    refine wp_mono (wp_insertMerge hs hsep hin hpos.ne' hend) ?_ (fun _ _ h => h)
    rintro - s' ⟨cap, rfl⟩
    have hcov : ∀ b, b ∈ Run.covered (Run.insertMerge r.start (r.start + r.len) s.freeExt) ↔
        b ∈ r.blocks ∨ b ∈ Run.covered s.freeExt := fun b => by
      rw [Run.mem_covered_insertMerge (by omega), Run.mem_blocks]
    refine wp_mono (ih (s := { s with freeExt := Run.insertMerge r.start (r.start + r.len) s.freeExt, cap })
      hs (hsep.insertMerge (by omega)) ?_ fun x hx => hrs x (by simp [hx])) ?_ (fun _ _ h => h)
    · intro b hb
      obtain hb | hb := (hcov b).1 hb
      · have := (Run.mem_blocks.1 hb).2
        simp only
        omega
      · exact hin b hb
    · rintro - s' ⟨ext, cap', rfl, hext, hall⟩
      refine ⟨ext, cap', rfl, hext, fun b => ?_⟩
      rw [hall, hcov, Run.covered_cons, mem_append]
      tauto

/-- Whatever the index held, the rebuilt one is exact. -/
theorem wp_rebuild {grant : Grant} {s : FreeIndex} (hs : Ample grant s) :
    wp (rebuild grant)
      (fun _ s' => s'.Exact ∧ s'.bitmap = s.bitmap ∧ s'.totalBlocks = s.totalBlocks) (fun _ _ => False) s := by
  have hclear : ∀ b, b ∈ Run.covered (Run.clearRuns s.bitmap s.totalBlocks) ↔ b < s.totalBlocks ∧ s.bitmap b = false :=
    fun b => by simp [Run.covered_clearRuns]
  have hsep := Run.separated_clearRuns s.bitmap s.totalBlocks
  have hrun := wp_insertRuns grant (s := s.clear) (Run.clearRuns s.bitmap s.totalBlocks) hs
    Run.separated_nil (by simp [clear]) fun r hr =>
      ⟨hsep.pos r hr, hsep.end_le (fun b hb => ((hclear b).1 hb).1) r hr⟩
  unfold rebuild
  simp only [wp_bind, wp_modify, wp_get, wp_attempt]
  refine wp_mono hrun ?_ (fun _ _ h => False.elim h)
  rintro - s' ⟨ext, cap, rfl, hext, hall⟩
  have hexact : ∀ b, b ∈ Run.covered ext ↔ b < s.totalBlocks ∧ s.bitmap b = false := fun b => by
    rw [hall, ← hclear]
    simp [clear]
  exact ⟨⟨hext, hext.end_le fun b hb => ((hexact b).1 hb).1, hexact⟩, rfl, rfl⟩

theorem wp_freeRun {grant : Grant} {s : FreeIndex} (ha : Ample grant s) (hs : s.Exact) (start len : Nat) :
    wp (freeRun grant start len)
      (fun _ s' => s'.Exact ∧ s'.totalBlocks = s.totalBlocks ∧
        s'.bitmap = Vol.setBits s.bitmap (Run.blocks ⟨start, len⟩) false ∧
        ∀ b ∈ Run.blocks ⟨start, len⟩, s.bitmap b = true)
      (fun _ s' => s' = s) s := by
  unfold freeRun
  simp only [wp_bind, wp_get, wp_ite, wp_pure, wp_fail, implies_true, true_and,
    wp_modify]
  refine ⟨?_, fun hlen hrange hused => ?_⟩
  · rintro rfl
    exact ⟨hs, by funext b; simp [Vol.setBits], by simp⟩
  have hall : ∀ b ∈ Run.blocks ⟨start, len⟩, s.bitmap b = true := by simpa using hused
  have hend : start + len ≤ s.totalBlocks := by omega
  refine wp_mono (wp_insertMerge
    (s := { s with bitmap := Vol.setBits s.bitmap (Run.blocks ⟨start, len⟩) false }) ha hs.separated
    (fun b hb => ((hs.clear b).1 hb).1) hlen hend) ?_ (fun _ _ h => False.elim h)
  rintro - s' ⟨cap, rfl⟩
  have hcov : ∀ b, b ∈ Run.covered (Run.insertMerge start (start + len) s.freeExt) ↔
      b < s.totalBlocks ∧ Vol.setBits s.bitmap (Run.blocks ⟨start, len⟩) false b = false := by
    intro b
    rw [Run.mem_covered_insertMerge (by omega), hs.clear]
    by_cases hb : start ≤ b ∧ b < start + len
    · simp [Vol.setBits, hb]
      omega
    · simp [Vol.setBits, hb]
  have hsep := hs.separated.insertMerge (show start < start + len by omega)
  exact ⟨⟨hsep, hsep.end_le fun b hb => ((hcov b).1 hb).1, hcov⟩, rfl, rfl, hall⟩

/-- Between `s` and `s'` the run `r` was allocated. -/
structure Took (s : FreeIndex) (r : Run) (s' : FreeIndex) : Prop where
  exact : s'.Exact
  total : s'.totalBlocks = s.totalBlocks
  pos : 0 < r.len
  clear : ∀ b ∈ r.blocks, b < s.totalBlocks ∧ s.bitmap b = false
  set : s'.bitmap = Vol.setBits s.bitmap r.blocks true

/-- A run taken out of an exact index. -/
theorem took_of_perm {s : FreeIndex} (hs : s.Exact) {r : Run} {ext : List Run} (hpos : 0 < r.len)
    (hperm : (Run.covered s.freeExt).Perm (r.blocks ++ Run.covered ext)) (hsep : Run.Separated ext) :
    Took s r { s with bitmap := Vol.setBits s.bitmap r.blocks true, freeExt := ext } := by
  have hnd := hperm.nodup_iff.1 hs.separated.nodup_covered
  have hdisj := (nodup_append.1 hnd).2.2
  have hclear : ∀ b, b ∈ r.blocks ++ Run.covered ext ↔ b < s.totalBlocks ∧ s.bitmap b = false :=
    fun b => hperm.mem_iff.symm.trans (hs.clear b)
  have hexact : ∀ b, b ∈ Run.covered ext ↔
      b < s.totalBlocks ∧ Vol.setBits s.bitmap r.blocks true b = false := by
    intro b
    by_cases hb : b ∈ r.blocks
    · have hnot : b ∉ Run.covered ext := fun h => hdisj b hb b h rfl
      simp [Vol.setBits, hb, hnot]
    · have := hclear b
      rw [mem_append, or_iff_right hb] at this
      rw [this]
      simp [Vol.setBits, hb]
  exact ⟨⟨hsep, hsep.end_le fun b hb => ((hexact b).1 hb).1, hexact⟩, rfl, hpos,
    fun b hb => (hclear b).1 (mem_append_left _ hb), rfl⟩

theorem separated_keepRun {pre post : List Run} {r r' : Run} (h : Run.Separated (pre ++ r :: post))
    (hstart : r.start ≤ r'.start) (hend : r'.start + r'.len ≤ r.start + r.len) :
    Run.Separated (pre ++ Vol.keepRun r' ++ post) := by
  unfold Vol.keepRun
  split
  · exact h.sublist (by simp)
  next hlen => simpa using h.shrink (by omega) hstart hend

theorem firstRun_eq_none {l : List Run} (h : Vol.firstRun l = none) : Run.covered l = [] := by
  induction l with
  | nil => rfl
  | cons r rest ih =>
    unfold Vol.firstRun at h
    split at h
    next hlen =>
      obtain ⟨start, len⟩ := r
      subst hlen
      simpa using ih (Option.map_eq_none_iff.1 h)
    next => cases h

/-- An exact index with no run left: no block is free. -/
theorem Exact.full {s : FreeIndex} (hs : s.Exact) (h : Run.covered s.freeExt = []) :
    ∀ b < s.totalBlocks, s.bitmap b = true := by
  intro b hb
  by_contra hclear
  have := (hs.clear b).2 ⟨hb, by simpa using hclear⟩
  simp [h] at this

theorem wp_allocRun (grant : Grant) (want : Nat) {s : FreeIndex} (hs : s.Exact) :
    wp (allocRun grant want) (fun r s' => Took s r s' ∧ r.len ≤ want)
      (fun _ s' => s' = s ∧ (want = 0 ∨ ∀ b < s.totalBlocks, s.bitmap b = true)) s := by
  unfold allocRun allocRunFrom
  simp only [wp_bind, wp_get, wp_ite, wp_fail, true_and]
  refine ⟨fun h => .inl h, fun hwant => ?_⟩
  split
  next hfirst => exact ⟨rfl, .inr (hs.full (firstRun_eq_none hfirst))⟩
  next pre r post hfirst =>
    obtain ⟨hl, hr⟩ := Vol.firstRun_eq_some hfirst
    have hperm := Vol.covered_takeFront hl (min_le_left r.len want)
    have hsep : Run.Separated (pre ++ Vol.keepRun ⟨r.start + min r.len want, r.len - min r.len want⟩ ++ post) :=
      separated_keepRun (hl ▸ hs.separated) (by simp) (by simp only; omega)
    have htook := took_of_perm hs (by simp only; omega) hperm hsep
    rw [Vol.takeBits_eq (Run.nodup_blocks _) fun b hb => (htook.clear b hb).2]
    simp only [wp_bind, wp_modify, wp_pure]
    exact ⟨htook, min_le_right _ _⟩

theorem wp_allocBlockFar (grant : Grant) {s : FreeIndex} (hs : s.Exact) :
    wp (allocBlockFar grant) (fun r s' => Took s r s' ∧ r.len ≤ 1)
      (fun _ s' => s' = s ∧ ((1 : Nat) = 0 ∨ ∀ b < s.totalBlocks, s.bitmap b = true)) s := by
  unfold allocBlockFar
  simp only [wp_bind, wp_get]
  split
  next hfirst =>
    refine ⟨rfl, .inr (hs.full ?_)⟩
    have hperm : (Run.covered s.freeExt.reverse).Perm (Run.covered s.freeExt) :=
      s.freeExt.reverse_perm.flatMap_right _
    rwa [firstRun_eq_none hfirst, nil_perm] at hperm
  next post r pre hfirst =>
    obtain ⟨hl, hr⟩ := Vol.firstRun_eq_some hfirst
    have hperm := Vol.covered_takeLast hl hr
    have hsep : Run.Separated (pre.reverse ++ Vol.keepRun ⟨r.start, r.len - 1⟩ ++ post.reverse) := by
      have hlist : s.freeExt = pre.reverse ++ r :: post.reverse := by
        rw [← reverse_reverse s.freeExt, hl]
        simp
      have hold := hs.separated
      rw [hlist] at hold
      exact separated_keepRun hold le_rfl (by simp only; omega)
    have htook := took_of_perm hs (by simp) hperm hsep
    have hclear : s.bitmap (r.start + r.len - 1) = false := (htook.clear _ (by simp)).2
    simp only [hclear, Bool.false_eq_true, if_false, wp_bind, wp_modify, wp_pure]
    exact ⟨htook, le_rfl⟩

/-! ## The volume whose memory is granted -/

section Refines

variable {α : Type} {v : Vol α} {s : FreeIndex} {grant : Grant}

/-- The volume and the index hold the same bit map and the same runs. -/
structure Shows (v : Vol α) (s : FreeIndex) : Prop where
  totalBlocks : v.totalBlocks = s.totalBlocks
  bitmap : v.bitmap = s.bitmap
  freeExt : v.freeExt = s.freeExt

theorem freeRun_refines (h : Shows v s) (ha : Ample grant s) (hs : s.Exact) (start len : Nat) :
    (Vol.freeRun start len v).1 = (freeRun grant start len s).1 ∧
      Shows (Vol.freeRun start len v).2 (freeRun grant start len s).2 := by
  simp only [Vol.freeRun, freeRun, bind, Prog.bind, Prog.get, h.totalBlocks, h.bitmap]
  by_cases hlen : len = 0
  · simp only [if_pos hlen]
    exact ⟨rfl, h⟩
  simp only [if_neg hlen]
  by_cases hrange : s.totalBlocks ≤ start ∨ s.totalBlocks - start < len
  · simp only [if_pos hrange]
    exact ⟨rfl, h⟩
  simp only [if_neg hrange]
  by_cases hused : (Run.blocks ⟨start, len⟩).any (fun b => !s.bitmap b) = true
  · simp only [if_pos hused]
    exact ⟨rfl, h⟩
  simp only [if_neg hused, Prog.bind, Prog.modify]
  have hend : start + len ≤ s.totalBlocks := by omega
  have hwp := wp_insertMerge
    (s := { s with bitmap := Vol.setBits s.bitmap (Run.blocks ⟨start, len⟩) false }) ha hs.separated
    (fun b hb => ((hs.clear b).1 hb).1) hlen hend
  rcases hm : insertMerge grant start len
    { s with bitmap := Vol.setBits s.bitmap (Run.blocks ⟨start, len⟩) false } with ⟨r, s'⟩
  cases r with
  | error e => exact (wp_error hwp hm).elim
  | ok u =>
    obtain ⟨cap, rfl⟩ := wp_ok hwp hm
    simp only [Vol.freeIndexInsertMerge, bind, Prog.bind, Prog.get, if_neg hlen, h.totalBlocks, if_neg hrange,
      Prog.modify]
    exact ⟨trivial, rfl, by simp only [h.bitmap], by simp only [h.freeExt]⟩

theorem allocRun_refines (h : Shows v s) (hs : s.Exact) (want : Nat) :
    (Vol.allocRun want v).1 = (allocRun grant want s).1.map (fun r => (r.start, r.len)) ∧
      Shows (Vol.allocRun want v).2 (allocRun grant want s).2 := by
  simp only [Vol.allocRun, allocRun, Vol.allocRunFrom, allocRunFrom, bind, Prog.bind, Prog.get, h.freeExt, h.bitmap]
  by_cases hwant : want = 0
  · simp only [if_pos hwant]
    exact ⟨rfl, h⟩
  simp only [if_neg hwant]
  cases hfirst : Vol.firstRun s.freeExt with
  | none => exact ⟨rfl, h⟩
  | some p =>
    obtain ⟨pre, r, post⟩ := p
    obtain ⟨hl, hr⟩ := Vol.firstRun_eq_some hfirst
    have hclear : ∀ b ∈ Run.blocks ⟨r.start, min r.len want⟩, s.bitmap b = false := fun b hb =>
      ((hs.clear b).1 ((Vol.covered_takeFront hl (min_le_left r.len want)).mem_iff.2
        (mem_append_left _ hb))).2
    simp only [Vol.takeBits_eq (Run.nodup_blocks _) hclear]
    exact ⟨rfl, h.totalBlocks, rfl, rfl⟩

theorem allocBlockFar_refines (h : Shows v s) (hs : s.Exact) :
    (Vol.allocBlockFar v).1 = (allocBlockFar grant s).1.map Run.start ∧
      Shows (Vol.allocBlockFar v).2 (allocBlockFar grant s).2 := by
  simp only [Vol.allocBlockFar, allocBlockFar, bind, Prog.bind, Prog.get, h.freeExt, h.bitmap]
  cases hfirst : Vol.firstRun s.freeExt.reverse with
  | none => exact ⟨rfl, h⟩
  | some p =>
    obtain ⟨post, r, pre⟩ := p
    obtain ⟨hl, hr⟩ := Vol.firstRun_eq_some hfirst
    have hclear : s.bitmap (r.start + r.len - 1) = false :=
      ((hs.clear _).1 ((Vol.covered_takeLast hl hr).mem_iff.2 (by simp))).2
    simp only [hclear, Bool.false_eq_true, if_false]
    exact ⟨rfl, h.totalBlocks, congrArg (Vol.setBits · [r.start + r.len - 1] true) h.bitmap, rfl⟩

end Refines

/-! ## Runs of calls -/

inductive Op
  | allocRun (want : Nat)
  | allocBlockFar
  | freeRun (start len : Nat)
  | rebuild

/-- A call, with the sizes `krealloc` grants while it goes on. -/
structure Request where
  op : Op
  grant : Grant

def call (q : Request) : Prog FreeIndex Errno (Option Run) :=
  match q.op with
  | .allocRun want => do
    let r ← allocRun q.grant want
    pure (some r)
  | .allocBlockFar => do
    let r ← allocBlockFar q.grant
    pure (some r)
  | .freeRun start len => do
    freeRun q.grant start len
    pure none
  | .rebuild => do
    rebuild q.grant
    pure none

/-- What a call did. -/
structure Outcome where
  before : FreeIndex
  request : Request
  result : Except Errno (Option Run)
  after : FreeIndex

def machine : Machine FreeIndex Request Outcome where
  step s q := ((call q s).2, [⟨s, q, (call q s).1, (call q s).2⟩])

/-- A run of 1 to `want` blocks that were clear is set; where there is none the call fails and changes
nothing. -/
def Allocates (o : Outcome) (want : Nat) : Prop :=
  (∃ r, o.result = .ok (some r) ∧ 0 < r.len ∧ r.len ≤ want ∧
    (∀ b ∈ r.blocks, b < o.before.totalBlocks ∧ o.before.bitmap b = false) ∧
    ∀ b, o.after.bitmap b = (o.before.bitmap b || decide (b ∈ r.blocks))) ∨
  (∃ e, o.result = .error e) ∧ o.after = o.before ∧
    (want = 0 ∨ ∀ b < o.before.totalBlocks, o.before.bitmap b = true)

/-- The blocks of the run are cleared; a call that fails changes nothing, and one that names a clear
block fails. -/
structure Frees (o : Outcome) (start len : Nat) : Prop where
  cleared : ∀ x, o.result = .ok x →
    ∀ b, o.after.bitmap b = (o.before.bitmap b && decide (b ∉ Run.blocks ⟨start, len⟩))
  double : (∃ b ∈ Run.blocks ⟨start, len⟩, o.before.bitmap b = false) → ∃ e, o.result = .error e
  failed : ∀ e, o.result = .error e → o.after = o.before

def Behaves (o : Outcome) : Prop :=
  match o.request.op with
  | .allocRun want => Allocates o want
  | .allocBlockFar => Allocates o 1
  | .freeRun start len => Frees o start len
  | .rebuild => o.result = .ok none ∧ o.after.bitmap = o.before.bitmap

/-- What a call keeps, and that it does what it is for. -/
def Holds (s : FreeIndex) (q : Request) : Prop :=
  (call q s).2.Exact ∧ Behaves ⟨s, q, (call q s).1, (call q s).2⟩

/-- The two ways a call can end. -/
theorem call_cases {β : Type} {m : Prog FreeIndex Errno β} {f : β → Option Run}
    {Q : β → FreeIndex → Prop} {E : Errno → FreeIndex → Prop} {s : FreeIndex} (h : wp m Q E s) :
    (∃ a s', (do let a ← m; pure (f a) : Prog FreeIndex Errno (Option Run)) s = (.ok (f a), s') ∧ Q a s') ∨
      ∃ e s', (do let a ← m; pure (f a) : Prog FreeIndex Errno (Option Run)) s = (.error e, s') ∧ E e s' := by
  rcases hm : m s with ⟨r, s'⟩
  cases r with
  | ok a => exact .inl ⟨a, s', by simp only [bind, Prog.bind, hm, pure], wp_ok h hm⟩
  | error e => exact .inr ⟨e, s', by simp only [bind, Prog.bind, hm], wp_error h hm⟩

theorem allocates_of_took {s s' : FreeIndex} {r : Run} {want : Nat} (h : Took s r s') (hle : r.len ≤ want)
    (q : Request) : Allocates ⟨s, q, .ok (some r), s'⟩ want := by
  refine .inl ⟨r, rfl, h.pos, hle, h.clear, fun b => ?_⟩
  simp only [h.set, Vol.setBits_true, Bool.or_comm]

theorem holds (s : FreeIndex) (q : Request) (hs : s.Exact) (ha : Ample q.grant s) : Holds s q := by
  obtain ⟨op, grant⟩ := q
  unfold Holds
  cases op with
  | allocRun want =>
    obtain ⟨r, s', hc, htook, hle⟩ | ⟨e, s', hc, rfl, hwhy⟩ := call_cases (f := some) (wp_allocRun grant want hs)
    · rw [show call ⟨.allocRun want, grant⟩ s = _ from hc]
      exact ⟨htook.exact, allocates_of_took htook hle _⟩
    · rw [show call ⟨.allocRun want, grant⟩ s' = _ from hc]
      exact ⟨hs, .inr ⟨⟨e, rfl⟩, rfl, hwhy⟩⟩
  | allocBlockFar =>
    obtain ⟨r, s', hc, htook, hle⟩ | ⟨e, s', hc, rfl, hwhy⟩ := call_cases (f := some) (wp_allocBlockFar grant hs)
    · rw [show call ⟨.allocBlockFar, grant⟩ s = _ from hc]
      exact ⟨htook.exact, allocates_of_took htook hle _⟩
    · rw [show call ⟨.allocBlockFar, grant⟩ s' = _ from hc]
      exact ⟨hs, .inr ⟨⟨e, rfl⟩, rfl, hwhy⟩⟩
  | freeRun start len =>
    obtain ⟨-, s', hc, hexact, -, hset, hused⟩ | ⟨e, s', hc, rfl⟩ :=
      call_cases (f := fun _ => none) (wp_freeRun ha hs start len)
    · rw [show call ⟨.freeRun start len, grant⟩ s = _ from hc]
      refine ⟨hexact, fun _ _ b => ?_, ?_, by simp⟩
      · by_cases hb : b ∈ Run.blocks ⟨start, len⟩ <;> simp [hset, Vol.setBits, hb]
      · rintro ⟨b, hb, hclear⟩
        simp [hused b hb] at hclear
    · rw [show call ⟨.freeRun start len, grant⟩ s' = _ from hc]
      exact ⟨hs, by simp, fun _ => ⟨e, rfl⟩, fun _ _ => rfl⟩
  | rebuild =>
    obtain ⟨-, s', hc, hexact, hbits, -⟩ | ⟨e, s', hc, hfalse⟩ :=
      call_cases (f := fun _ => none) (wp_rebuild ha)
    · rw [show call ⟨.rebuild, grant⟩ s = _ from hc]
      exact ⟨hexact, rfl, hbits⟩
    · exact hfalse.elim

/-- While memory is granted the index is exact after every run of calls, and every call of the run did
what it is for. -/
theorem free_index_exact (qs : List Request) (s : FreeIndex) (hs : s.Exact)
    (hq : machine.Admits (fun s q => Ample q.grant s) s qs) :
    (machine.run s qs).1.Exact ∧ ∀ o ∈ (machine.run s qs).2, Behaves o := by
  refine Machine.run_invariant_of (m := machine) (I := fun h s => s.Exact ∧ ∀ o ∈ h, Behaves o) ?_ qs [] s
    ⟨hs, by simp⟩ hq
  rintro h s q ⟨hexact, hall⟩ ha
  obtain ⟨hexact', hbehaves⟩ := holds s q hexact ha
  refine ⟨hexact', fun o ho => ?_⟩
  obtain ho | ho := mem_append.1 ho
  · exact hall o ho
  · obtain rfl := mem_singleton.1 ho
    exact hbehaves

/-! A full volume after a mount: nothing is indexed, and the index has no memory yet. -/

def full : FreeIndex := ⟨2, fun _ => true, [], 0⟩

theorem full_exact : full.Exact := ⟨Run.separated_nil, by simp [full], by simp [full]⟩

theorem free_index_exact_of_full :
    (machine.run full [⟨.freeRun 1 1, fun _ => true⟩, ⟨.allocRun 4, fun _ => true⟩]).1.Exact ∧
      ∀ o ∈ (machine.run full [⟨.freeRun 1 1, fun _ => true⟩, ⟨.allocRun 4, fun _ => true⟩]).2, Behaves o :=
  free_index_exact _ full full_exact ⟨⟨by simp, by decide⟩, ⟨by simp, by decide⟩, trivial⟩

/-- The first block freed on a full volume, with no memory for the index: its bit is clear, no run has
it, no allocation finds it, and it cannot be freed again. -/
theorem free_run_loses_block :
    full.Exact ∧ (freeRun (fun _ => false) 1 1 full).1 = .error .enomem ∧
      (freeRun (fun _ => false) 1 1 full).2.bitmap 1 = false ∧
      1 ∉ Run.covered (freeRun (fun _ => false) 1 1 full).2.freeExt ∧
      (allocRun (fun _ => true) 1 (freeRun (fun _ => false) 1 1 full).2).1 = .error .enospc ∧
      (freeRun (fun _ => true) 1 1 (freeRun (fun _ => false) 1 1 full).2).1 = .error .eexist :=
  ⟨full_exact, by decide⟩

end FreeIndex

end EmbLinkOs.Embkfs
