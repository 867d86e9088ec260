import EmbLinkOs.Embkfs.Data
import EmbLinkOs.Embkfs.FilesSpec

set_option autoImplicit false
set_option linter.unusedSectionVars false

/-! # Writing files

What `embkfs_write_file` leaves: extents that tile the file (`Tiles`), each valid, with blocks that
hold the bytes written (`Holds`), and a plan that accounts for every block taken. -/

namespace EmbLinkOs.Embkfs

open Run
open List
open Prog hiding bind

open SortedMap

/-! ## Tiling -/

/-- The extents cover `[a, b)` from left to right without gap or overlap. -/
def Tiles : Nat → Nat → List (Nat × Extent) → Prop
  | a, b, [] => a = b
  | a, b, x :: rest => x.1 = a ∧ 0 < x.2.logicalSize ∧ Tiles (a + x.2.logicalSize) b rest

variable {l : List (Nat × Extent)}

theorem Tiles.le_offset {a b : Nat} (h : Tiles a b l) : ∀ x ∈ l, a ≤ x.1 := by
  induction l generalizing a with
  | nil => simp
  | cons y l ih =>
    intro x hx
    rcases mem_cons.1 hx with rfl | hx
    · exact h.1.ge
    · exact (Nat.le_add_right _ _).trans (ih h.2.2 x hx)

theorem Tiles.pairwise {a b : Nat} (h : Tiles a b l) : l.Pairwise (fun x y => x.1 < y.1) := by
  induction l generalizing a with
  | nil => exact List.Pairwise.nil
  | cons y l ih =>
    refine pairwise_cons.2 ⟨fun x hx => ?_, ih h.2.2⟩
    have := h.2.2.le_offset x hx
    have := h.1
    have := h.2.1
    omega

theorem Tiles.nodup {a b : Nat} (h : Tiles a b l) : (l.map Prod.fst).Nodup := by
  rw [nodup_iff_pairwise_ne, pairwise_map]
  exact h.pairwise.imp (fun hlt => hlt.ne)

/-! ## What blocks hold -/

section Holds

variable [Checksum Payload] [Cipher] {n : Nat}

/-- The `n` blocks from `b` on are the image of `src`. -/
def Stored (view : Nat → Option (Block Payload)) (enc : Bool) (bs : Nat) :
    Nat → Nat → List UInt8 → Prop
  | 0, _, _ => True
  | n + 1, b, src => view b = some (.data (Vol.dataImage enc bs b (src.take bs))) ∧
      Stored view enc bs n (b + 1) (src.drop bs)

/-- The checksum of the image. -/
def storedSum (enc : Bool) (bs : Nat) : Nat → Nat → List UInt8 → UInt32 → UInt32
  | 0, _, _, csum => csum
  | n + 1, b, src, csum => storedSum enc bs n (b + 1) (src.drop bs)
      (crc32c (Vol.summed enc bs b (src.take bs)) csum)

/-- The extent stands for `bytes`. -/
def Holds (view : Nat → Option (Block Payload)) (bs : Nat) (x : Extent) (bytes : List UInt8) : Prop :=
  bytes.length = x.logicalSize ∧
  if x.hole then bytes = List.replicate x.logicalSize 0
  else ∃ raw, Stored view x.encrypted bs x.length x.diskBlock raw ∧
    raw.length ≤ x.length * bs ∧
    x.checksum = (storedSum x.encrypted bs x.length x.diskBlock raw 0).toNat ∧
    if x.compressed then
      raw.length = x.compressedSize ∧ Compress.decompress raw x.logicalSize = some bytes
    else raw = bytes

/-- The extents stand for `bytes`, one after the other. -/
def HoldsAll (view : Nat → Option (Block Payload)) (bs : Nat) :
    List (Nat × Extent) → List UInt8 → Prop
  | [], bytes => bytes = []
  | x :: rest, bytes => ∃ front back, bytes = front ++ back ∧ Holds view bs x.2 front ∧
      HoldsAll view bs rest back

theorem Stored.congr {view view' : Nat → Option (Block Payload)} {enc : Bool} {bs b : Nat}
    {src : List UInt8} (h : Stored view enc bs n b src)
    (hv : ∀ c, b ≤ c → c < b + n → view' c = view c) : Stored view' enc bs n b src := by
  induction n generalizing b src with
  | zero => trivial
  | succ n ih =>
    refine ⟨by rw [hv b (le_refl _) (by omega)]; exact h.1, ih h.2 (fun c h1 h2 => ?_)⟩
    exact hv c (by omega) (by omega)

theorem Holds.congr {view view' : Nat → Option (Block Payload)} {bs : Nat} {x : Extent}
    {bytes : List UInt8} (h : Holds view bs x bytes) (hv : ∀ b ∈ x.blocks, view' b = view b) :
    Holds view' bs x bytes := by
  refine ⟨h.1, ?_⟩
  have h2 := h.2
  by_cases hh : x.hole = true
  · rw [if_pos hh] at h2 ⊢
    exact h2
  · rw [if_neg hh] at h2 ⊢
    obtain ⟨raw, hst, hrest⟩ := h2
    refine ⟨raw, hst.congr (fun c h1 h2 => hv c ?_), hrest⟩
    rw [Extent.blocks, if_neg hh, mem_blocks]
    exact ⟨h1, h2⟩

theorem HoldsAll.congr {view view' : Nat → Option (Block Payload)} {bs : Nat}
    {exts : List (Nat × Extent)} {bytes : List UInt8} (h : HoldsAll view bs exts bytes)
    (hv : ∀ x ∈ exts, ∀ b ∈ x.2.blocks, view' b = view b) : HoldsAll view' bs exts bytes := by
  induction exts generalizing bytes with
  | nil => exact h
  | cons x exts ih =>
    obtain ⟨front, back, rfl, hx, hrest⟩ := h
    exact ⟨front, back, rfl, hx.congr (hv x (by simp)),
      ih hrest (fun y hy => hv y (mem_cons_of_mem _ hy))⟩

/-! ## Writing blocks -/

namespace Vol

theorem Touched.mono {B B' : List Nat} {v v' : Vol Payload} (h : Touched B v v') (hB : B ⊆ B') :
    Touched B' v v' := ⟨h.same, h.dev.mono hB, h.bitmap, h.freeExt, h.txn⟩

/-- What writing an extent with the bytes `bytes` leaves. -/
structure ExtentWritten (bs : Nat) (bytes : List UInt8) (v : Vol Payload) (x : Extent)
    (A N : List Nat) (v' : Vol Payload) : Prop where
  effect : Effect A N v v'
  data : (x.blocks ++ N).Perm A
  valid : x.valid bs v.totalBlocks = true
  size : x.logicalSize = bytes.length
  holds : bytes.length ≤ 2 ^ 32 → Holds v'.dev.view bs x bytes

section

variable {bs gen start got : Nat} {enc : Bool} {bytes : List UInt8} {v v₁ : Vol Payload}

end

/-! ## Holes -/

variable {off : Nat}

variable {d beyond : List UInt8} {new : List (Nat × Extent)} {L : Layout Payload}

/-- The blocks of a list of extents. -/
def extentBlocks (exts : List (Nat × Extent)) : List Nat := exts.flatMap (fun x => x.2.blocks)

/-- What the loop has added from `off` on when it is through. -/
structure LoopDone (bs : Nat) (d : List UInt8) (off : Nat) (v : Vol Payload)
    (new : List (Nat × Extent)) (A N : List Nat) (v' : Vol Payload) : Prop where
  tiles : Tiles off d.length new
  effect : Effect A N v v'
  data : (extentBlocks new ++ N).Perm A
  valid : ∀ x ∈ new, x.2.valid bs v.totalBlocks = true
  holds : d.length ≤ 2 ^ 32 → HoldsAll v'.dev.view bs new (d.drop off)

/-- One more extent in front. -/
theorem LoopDone.cons {bs : Nat} {v v₁ v' : Vol Payload} {x : Extent} {A A' N N' : List Nat}
    (hn : 0 < n) (hoff : off + n ≤ d.length)
    (hx : ExtentWritten bs ((d.drop off).take n) v x A N v₁)
    (h : LoopDone bs d (off + n) v₁ new A' N' v') :
    LoopDone bs d off v ((off, x) :: new) (A ++ A') (N ++ N') v' := by
  have hlen : ((d.drop off).take n).length = n := by
    rw [length_take, length_drop]
    omega
  have hsize : x.logicalSize = n := hx.size.trans hlen
  refine ⟨⟨rfl, show 0 < x.logicalSize by omega, by rw [hsize]; exact h.tiles⟩,
    hx.effect.trans h.effect, ?_, ?_, ?_⟩
  · rw [perm_iff_count]
    intro b
    have h1 := (perm_iff_count.1 hx.data) b
    have h2 := (perm_iff_count.1 h.data) b
    simp only [extentBlocks, flatMap_cons, count_append] at h1 h2 ⊢
    omega
  · intro y hy
    rcases mem_cons.1 hy with rfl | hy
    · exact hx.valid
    · rw [← hx.effect.same.totalBlocks]
      exact h.valid y hy
  · intro hlt
    refine ⟨(d.drop off).take n, d.drop (off + n), ?_, ?_, h.holds hlt⟩
    · rw [← drop_drop, take_append_drop]
    · refine (hx.holds (by omega)).congr (fun b hb => h.effect.view_eq (hx.effect.marked_new ?_))
      exact hx.data.mem_iff.1 (mem_append_left _ hb)

section Ops

variable {its : List (Key × Payload)} {oid bs total : Nat}

end Ops

/-! ## Writing a file -/

end Vol

end Holds

end EmbLinkOs.Embkfs
