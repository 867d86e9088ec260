import Mathlib

set_option autoImplicit false

/-! # Physical memory at boot

`pmm_init` of `kernel/mm/pmm.c`: the firmware's memory map is read three times, to size the page
bitmap, to find a place for it, and to clear the bit of every page that may be handed out. Then the
pages of the bitmap, everything up to the end of the kernel image, and what the architecture needs are
set again.

A usable entry is rounded to pages by dividing both its ends, so a page it only partly covers at its
start is freed with it; and an entry of another type is not looked at, so where it overlaps a usable
one its pages are freed too. `pmm_init_safe_iff` says for which maps neither happens. -/

namespace EmbLinkOs.Mm.Pmm

open List

/-- `PAGE_SIZE`. -/
def pageSize : Nat := 4096

/-- `struct boot_mmap_entry`. -/
structure Entry where
  base : UInt64
  length : UInt64
  type : UInt32
deriving DecidableEq, Repr

/-- `E820_USABLE`. -/
def e820Usable : UInt32 := 1

def Entry.isUsable (e : Entry) : Bool := e.type == e820Usable

/-- `e->base + e->length`, as it is computed. -/
def Entry.fin (e : Entry) : Nat := (e.base + e.length).toNat

/-- Where the kernel image lies. Its virtual addresses are in the last two gigabytes. -/
structure Image where
  start : Nat
  fin : Nat
  start_le : start ≤ fin
  fin_lt : fin < 2 ^ 31

/-- `(x + PAGE_SIZE - 1) & ~(PAGE_SIZE - 1)`. -/
def pageUp (x : Nat) : Nat := (x + (pageSize - 1)) % 2 ^ 64 / pageSize * pageSize

/-! ## Sizing and placing the bitmap -/

/-- Step 1. -/
def highestAddress (map : List Entry) : Nat :=
  map.foldl (fun highest e => if e.isUsable && decide (highest < e.fin) then e.fin else highest) 0

def totalPages (map : List Entry) : Nat := highestAddress map / pageSize

def bitmapSize (map : List Entry) : Nat := (totalPages map + 7) / 8

/-- Step 3: the first place for `size` bytes at `kend` or after it; 0 if there is none. The sum with
    `size` does not wrap, since that many bytes follow `start` in the entry. -/
def chooseBitmap (kend size : Nat) : List Entry → Nat
  | [] => 0
  | e :: rest =>
    let start := pageUp (if kend < e.base.toNat then e.base.toNat else kend)
    if !e.isUsable then chooseBitmap kend size rest
    else if e.fin ≤ start then chooseBitmap kend size rest
    else if e.fin - start < size then chooseBitmap kend size rest
    else if 0x40000000 < start + size then chooseBitmap kend size rest
    else start

/-! ## The bitmap -/

/-- `pmm_bitmap` as its bits, `free_pages` and `used_pages`. -/
structure State where
  used : Nat → Bool
  freePages : Nat
  usedPages : Nat

/-- Step 4. -/
def State.init (total : Nat) : State := ⟨fun _ => true, 0, total⟩

/-- The body of the loop of step 5. -/
def State.free (s : State) (p : Nat) : State :=
  if s.used p then ⟨Function.update s.used p false, s.freePages + 1, s.usedPages - 1⟩ else s

/-- The body of the loops of step 6, and of `pmm_reserve_page`. -/
def State.reserve (s : State) (p : Nat) : State :=
  if s.used p then s else ⟨Function.update s.used p true, s.freePages - 1, s.usedPages + 1⟩

/-- `for (p = lo; p < hi && p < total; p++)`. -/
def pages (lo hi total : Nat) : List Nat := List.range' lo (min hi total - lo)

/-- Step 5. -/
def freeUsable (total : Nat) (map : List Entry) (s : State) : State :=
  map.foldl (fun s e =>
    if e.isUsable then (pages (e.base.toNat / pageSize) (e.fin / pageSize) total).foldl State.free s
    else s) s

/-- `reserve_end_page`; the page it names is reserved as well. -/
def reserveEndPage (img : Image) : Nat := (img.fin + (pageSize - 1)) / pageSize

/-- The pages of the bitmap. -/
def bitmapPages (bitmap size total : Nat) : List Nat :=
  pages (bitmap / pageSize) ((bitmap + size + (pageSize - 1)) / pageSize) total

/-- What `arch_pmm_reserve_fixed` reads besides the map. On aarch64 that is the device tree, if there
    is one: where it lies itself, and the ranges it withholds. -/
inductive Arch
  | x86_64
  | aarch64 (tree : Option (List (UInt64 × UInt64)))

/-- The addresses `reserve_range` passes to `pmm_reserve_page`. -/
def reserveRange (base size : UInt64) : List Nat :=
  let first := base.toNat / pageSize * pageSize
  let last := pageUp (base + size).toNat
  if size = 0 then [] else (List.range ((last - first) / pageSize)).map fun i => first + i * pageSize

/-- The addresses `arch_pmm_reserve_fixed` passes to `pmm_reserve_page`. -/
def archPmmReserveFixed : Arch → List Entry → List Nat
  | .x86_64, _ => [0x8000]
  | .aarch64 none, _ => []
  | .aarch64 (some ranges), map =>
    ranges.flatMap (fun r => reserveRange r.1 r.2) ++
      (map.filter fun e => !e.isUsable).flatMap fun e => reserveRange e.base e.length

/-- `pmm_reserve_page`. -/
def pmmReservePage (total : Nat) (s : State) (addr : Nat) : State :=
  if total ≤ addr / pageSize then s else s.reserve (addr / pageSize)

/-- `pmm_init`, with the place of the bitmap; none if it halts. -/
def pmmInit (arch : Arch) (img : Image) (map : List Entry) : Option (Nat × State) :=
  let total := totalPages map
  let bitmap := chooseBitmap (pageUp img.fin) (bitmapSize map) map
  if bitmap = 0 then none
  else
    let s := freeUsable total map (State.init total)
    let s := (bitmapPages bitmap (bitmapSize map) total).foldl State.reserve s
    let s := (pages 0 (reserveEndPage img + 1) total).foldl State.reserve s
    some (bitmap, (archPmmReserveFixed arch map).foldl (pmmReservePage total) s)

/-! ## The property -/

/-- The byte lies in the entry. -/
def Entry.Covers (e : Entry) (a : Nat) : Prop :=
  e.base.toNat ≤ a ∧ a < e.base.toNat + e.length.toNat

instance (e : Entry) (a : Nat) : Decidable (e.Covers a) := inferInstanceAs (Decidable (_ ∧ _))

/-- The byte lies in the page. -/
def InPage (p a : Nat) : Prop := a / pageSize = p

instance (p a : Nat) : Decidable (InPage p a) := inferInstanceAs (Decidable (_ = _))

/-- What may be said of the bitmap and the counter, given the map and where the bitmap is. -/
structure Safe (img : Image) (map : List Entry) (bitmap : Nat) (s : State) : Prop where
  /-- A free page lies in the union of the usable entries. -/
  inside : ∀ p, s.used p = false → ∀ a, InPage p a → ∃ e ∈ map, e.isUsable = true ∧ e.Covers a
  /-- A free page overlaps no entry of another type. -/
  apart : ∀ p, s.used p = false → ∀ a, InPage p a → ∀ e ∈ map, e.isUsable = false → ¬e.Covers a
  notKernel : ∀ p, s.used p = false → ∀ a, InPage p a → ¬(img.start ≤ a ∧ a < img.fin)
  notBitmap : ∀ p, s.used p = false → ∀ a, InPage p a →
    ¬(bitmap ≤ a ∧ a < bitmap + bitmapSize map)
  counted : s.freePages = (List.range (8 * bitmapSize map)).countP fun p => !s.used p

/-- The pages that steps 6 and 7 take back. -/
def Reserved (arch : Arch) (img : Image) (map : List Entry) (p : Nat) : Prop :=
  p ∈ bitmapPages (chooseBitmap (pageUp img.fin) (bitmapSize map) map) (bitmapSize map) (totalPages map) ∨
    p ≤ reserveEndPage img ∨ p ∈ (archPmmReserveFixed arch map).map (· / pageSize)

/-- The condition on the map. What a usable entry leaves open at the start of its first page belongs to
    usable entries too, and no entry of another type reaches into the pages of a usable one; pages that
    are taken back apart. -/
structure MapOk (arch : Arch) (img : Image) (map : List Entry) : Prop where
  starts : ∀ e ∈ map, e.isUsable = true → e.base.toNat / pageSize < e.fin / pageSize →
    ¬Reserved arch img map (e.base.toNat / pageSize) →
      ∀ a, InPage (e.base.toNat / pageSize) a → a < e.base.toNat →
        ∃ e' ∈ map, e'.isUsable = true ∧ e'.Covers a
  others : ∀ e ∈ map, e.isUsable = true → ∀ o ∈ map, o.isUsable = false → ∀ a, o.Covers a →
    e.base.toNat / pageSize ≤ a / pageSize → a / pageSize < e.fin / pageSize →
      Reserved arch img map (a / pageSize)

/-! ## The loops -/

/-- The counter counts the clear bits of the first `n`. -/
def Counted (n : Nat) (s : State) : Prop :=
  s.freePages = ((Finset.range n).filter fun p => s.used p = false).card

section

variable {n p : Nat} {s : State}

theorem free_used (s : State) (p q : Nat) : (s.free p).used q = false ↔ s.used q = false ∨ q = p := by
  unfold State.free
  split_ifs with h
  · by_cases hq : q = p <;> simp [hq]
  · constructor
    · exact Or.inl
    · rintro (hq | rfl)
      · exact hq
      · simpa using h

theorem reserve_used (s : State) (p q : Nat) :
    (s.reserve p).used q = false ↔ s.used q = false ∧ q ≠ p := by
  unfold State.reserve
  split_ifs with h
  · refine ⟨fun hq => ⟨hq, ?_⟩, And.left⟩
    rintro rfl
    rw [h] at hq
    cases hq
  · by_cases hq : q = p <;> simp [hq]

theorem Counted.free (hs : Counted n s) (hp : p < n) : Counted n (s.free p) := by
  unfold State.free
  split_ifs with h
  · have hset : (Finset.range n).filter (fun q => Function.update s.used p false q = false)
        = insert p ((Finset.range n).filter fun q => s.used q = false) := by
      ext q
      by_cases hq : q = p <;> simp [hq, hp]
    have hnew : p ∉ (Finset.range n).filter fun q => s.used q = false := by simp [h]
    show s.freePages + 1 = _
    rw [hset, Finset.card_insert_of_notMem hnew, hs]
  · exact hs

theorem Counted.reserve (hs : Counted n s) (hp : p < n) : Counted n (s.reserve p) := by
  unfold State.reserve
  split_ifs with h
  · exact hs
  · have hset : (Finset.range n).filter (fun q => Function.update s.used p true q = false)
        = ((Finset.range n).filter fun q => s.used q = false).erase p := by
      ext q
      by_cases hq : q = p <;> simp [hq]
    have hold : p ∈ (Finset.range n).filter fun q => s.used q = false := by simp [h, hp]
    show s.freePages - 1 = _
    rw [hset, Finset.card_erase_of_mem hold, hs]

theorem foldl_free (l : List Nat) (s : State) :
    (∀ q, (l.foldl State.free s).used q = false ↔ s.used q = false ∨ q ∈ l) ∧
      ((∀ q ∈ l, q < n) → Counted n s → Counted n (l.foldl State.free s)) := by
  induction l generalizing s with
  | nil => simp
  | cons p l ih =>
    obtain ⟨hused, hcount⟩ := ih (s.free p)
    refine ⟨fun q => ?_, fun hlt hs => ?_⟩
    · rw [foldl_cons, hused, free_used, mem_cons, or_assoc]
    · exact hcount (fun q hq => hlt q (by simp [hq])) (hs.free (hlt p (by simp)))

theorem foldl_reserve (l : List Nat) (s : State) :
    (∀ q, (l.foldl State.reserve s).used q = false ↔ s.used q = false ∧ q ∉ l) ∧
      ((∀ q ∈ l, q < n) → Counted n s → Counted n (l.foldl State.reserve s)) := by
  induction l generalizing s with
  | nil => simp
  | cons p l ih =>
    obtain ⟨hused, hcount⟩ := ih (s.reserve p)
    refine ⟨fun q => ?_, fun hlt hs => ?_⟩
    · rw [foldl_cons, hused, reserve_used, mem_cons, not_or, and_assoc]
    · exact hcount (fun q hq => hlt q (by simp [hq])) (hs.reserve (hlt p (by simp)))

theorem mem_pages {lo hi total q : Nat} : q ∈ pages lo hi total ↔ lo ≤ q ∧ q < hi ∧ q < total := by
  rw [pages, mem_range'_1]
  omega

/-- The pages of a usable entry, rounded as the code rounds them. -/
def Entry.HasPage (e : Entry) (q : Nat) : Prop :=
  e.isUsable = true ∧ e.base.toNat / pageSize ≤ q ∧ q < e.fin / pageSize

theorem freeUsable_spec (total : Nat) (map : List Entry) (s : State) :
    (∀ q, (freeUsable total map s).used q = false ↔
      s.used q = false ∨ (q < total ∧ ∃ e ∈ map, e.HasPage q)) ∧
      (Counted total s → Counted total (freeUsable total map s)) := by
  induction map generalizing s with
  | nil => simp [freeUsable]
  | cons e map ih =>
    by_cases he : e.isUsable
    · obtain ⟨hused, hcount⟩ :=
        ih ((pages (e.base.toNat / pageSize) (e.fin / pageSize) total).foldl State.free s)
      obtain ⟨hused', hcount'⟩ := foldl_free (n := total)
        (pages (e.base.toNat / pageSize) (e.fin / pageSize) total) s
      have hcons : freeUsable total (e :: map) s = freeUsable total map
          ((pages (e.base.toNat / pageSize) (e.fin / pageSize) total).foldl State.free s) := by
        simp [freeUsable, he]
      rw [hcons]
      refine ⟨fun q => ?_, fun hs => hcount (hcount' (fun q hq => (mem_pages.1 hq).2.2) hs)⟩
      rw [hused, hused', mem_pages, exists_mem_cons_iff, Entry.HasPage]
      tauto
    · have hcons : freeUsable total (e :: map) s = freeUsable total map s := by
        simp [freeUsable, he]
      rw [hcons]
      obtain ⟨hused, hcount⟩ := ih s
      refine ⟨fun q => ?_, hcount⟩
      rw [hused, exists_mem_cons_iff, Entry.HasPage]
      tauto

theorem foldl_pmmReservePage (total : Nat) (l : List Nat) (s : State)
    (hlt : ∀ q, s.used q = false → q < total) :
    (∀ q, (l.foldl (pmmReservePage total) s).used q = false ↔
      s.used q = false ∧ q ∉ l.map (· / pageSize)) ∧
      (Counted total s → Counted total (l.foldl (pmmReservePage total) s)) := by
  induction l generalizing s with
  | nil => simp
  | cons a l ih =>
    rw [foldl_cons]
    by_cases ha : total ≤ a / pageSize
    · obtain ⟨hused, hcount⟩ := ih s hlt
      rw [pmmReservePage, if_pos ha]
      refine ⟨fun q => ?_, hcount⟩
      rw [hused, map_cons, mem_cons, not_or]
      refine and_congr_right fun hq => (and_iff_right ?_).symm
      have := hlt q hq
      omega
    · have hstep : ∀ q, (s.reserve (a / pageSize)).used q = false → q < total := fun q hq =>
        hlt q ((reserve_used s _ q).1 hq).1
      obtain ⟨hused, hcount⟩ := ih _ hstep
      rw [pmmReservePage, if_neg ha]
      refine ⟨fun q => ?_, fun hs => hcount (hs.reserve (not_le.1 ha))⟩
      rw [hused, reserve_used, map_cons, mem_cons, not_or, and_assoc]

end

/-! ## What `pmm_init` leaves -/

section

variable {arch : Arch} {img : Image} {map : List Entry} {bitmap : Nat} {s : State}

theorem pmmInit_bitmap (h : pmmInit arch img map = some (bitmap, s)) :
    bitmap = chooseBitmap (pageUp img.fin) (bitmapSize map) map := by
  unfold pmmInit at h
  dsimp only at h
  split_ifs at h
  exact (congrArg Prod.fst (Option.some.inj h)).symm

/-- The pages that are free are those of usable entries that are not taken back; and they are
    counted. -/
theorem pmmInit_spec (h : pmmInit arch img map = some (bitmap, s)) :
    (∀ p, s.used p = false ↔
      (p < totalPages map ∧ ∃ e ∈ map, e.HasPage p) ∧ ¬Reserved arch img map p) ∧
      Counted (totalPages map) s := by
  unfold pmmInit at h
  dsimp only at h
  split_ifs at h with hplace
  obtain rfl := (congrArg Prod.snd (Option.some.inj h)).symm
  obtain ⟨hused₁, hcount₁⟩ := freeUsable_spec (totalPages map) map (State.init (totalPages map))
  generalize freeUsable (totalPages map) map (State.init (totalPages map)) = s₁ at hused₁ hcount₁
  obtain ⟨hused₂, hcount₂⟩ := foldl_reserve (n := totalPages map)
    (bitmapPages (chooseBitmap (pageUp img.fin) (bitmapSize map) map) (bitmapSize map) (totalPages map)) s₁
  generalize (bitmapPages (chooseBitmap (pageUp img.fin) (bitmapSize map) map) (bitmapSize map)
    (totalPages map)).foldl State.reserve s₁ = s₂ at hused₂ hcount₂
  obtain ⟨hused₃, hcount₃⟩ := foldl_reserve (n := totalPages map)
    (pages 0 (reserveEndPage img + 1) (totalPages map)) s₂
  generalize (pages 0 (reserveEndPage img + 1) (totalPages map)).foldl State.reserve s₂ = s₃
    at hused₃ hcount₃
  have hinit : ∀ p, (State.init (totalPages map)).used p ≠ false := by simp [State.init]
  have hlt : ∀ p, s₃.used p = false → p < totalPages map := by
    intro p hp
    have h₁ := (hused₁ p).1 ((hused₂ p).1 ((hused₃ p).1 hp).1).1
    exact (h₁.resolve_left (hinit p)).1
  obtain ⟨hused₄, hcount₄⟩ :=
    foldl_pmmReservePage (totalPages map) (archPmmReserveFixed arch map) s₃ hlt
  refine ⟨fun p => ?_, hcount₄ (hcount₃ (fun q hq => (mem_pages.1 hq).2.2)
    (hcount₂ (fun q hq => (mem_pages.1 hq).2.2) (hcount₁ ?_)))⟩
  · have hlow : p < totalPages map → (p ∉ pages 0 (reserveEndPage img + 1) (totalPages map) ↔
        ¬p ≤ reserveEndPage img) := by
      intro hp
      rw [mem_pages]
      omega
    rw [hused₄, hused₃, hused₂, hused₁, Reserved, or_iff_right (hinit p), not_or, not_or]
    constructor
    · rintro ⟨⟨⟨hpage, hb⟩, hl⟩, hf⟩
      exact ⟨hpage, hb, (hlow hpage.1).1 hl, hf⟩
    · rintro ⟨hpage, hb, hl, hf⟩
      exact ⟨⟨⟨hpage, hb⟩, (hlow hpage.1).2 hl⟩, hf⟩
  · simp [Counted, State.init]

theorem Entry.fin_eq {e : Entry} (h : e.base.toNat < e.fin) : e.fin = e.base.toNat + e.length.toNat := by
  have hb := e.base.toNat_lt
  have hl := e.length.toNat_lt
  unfold Entry.fin at h ⊢
  rw [UInt64.toNat_add] at h ⊢
  omega

/-- A byte of a page of a usable entry that is not before the entry lies in it. -/
theorem Entry.HasPage.covers {e : Entry} {p a : Nat} (h : e.HasPage p) (ha : InPage p a)
    (hle : e.base.toNat ≤ a) : e.Covers a := by
  obtain ⟨-, -, hlt⟩ := h
  have hlast : a < e.fin := by
    rw [← ha] at hlt
    exact lt_of_lt_of_le (Nat.lt_mul_of_div_lt hlt (by decide)) (Nat.div_mul_le_self e.fin pageSize)
  exact ⟨hle, by rw [← Entry.fin_eq (lt_of_le_of_lt hle hlast)]; exact hlast⟩

theorem le_highestAddress {e : Entry} (he : e ∈ map) (hus : e.isUsable = true) :
    e.fin ≤ highestAddress map := by
  have hfold : ∀ (map : List Entry) (start : Nat),
      let r := map.foldl (fun highest e => if e.isUsable && decide (highest < e.fin) then e.fin else highest) start
      start ≤ r ∧ ∀ e ∈ map, e.isUsable = true → e.fin ≤ r := by
    intro map
    induction map with
    | nil => simp
    | cons e map ih =>
      intro start
      obtain ⟨hle, hall⟩ := ih (if e.isUsable && decide (start < e.fin) then e.fin else start)
      refine ⟨le_trans ?_ hle, ?_⟩
      · split_ifs with hc
        · simp only [Bool.and_eq_true, decide_eq_true_eq] at hc
          exact hc.2.le
        · exact le_rfl
      · rintro e' he' hus'
        rcases mem_cons.1 he' with rfl | he'
        · refine le_trans ?_ hle
          simp only [hus', Bool.true_and, decide_eq_true_eq]
          split_ifs with hlt
          · exact le_rfl
          · exact not_lt.1 hlt
        · exact hall e' he' hus'
  exact (hfold map 0).2 e he hus

variable (h : pmmInit arch img map = some (bitmap, s))

include h

/-- A page of a usable entry is free, unless it is reserved. -/
theorem free_of_hasPage {e : Entry} (he : e ∈ map) {p : Nat} (hpage : e.HasPage p)
    (hres : ¬Reserved arch img map p) : s.used p = false := by
  have hlt : p < totalPages map :=
    lt_of_lt_of_le hpage.2.2 (Nat.div_le_div_right (le_highestAddress he hpage.1))
  exact ((pmmInit_spec h).1 p).2 ⟨⟨hlt, e, he, hpage⟩, hres⟩

/-- A free page lies above the kernel image. -/
theorem free_not_kernel {p a : Nat} (hp : s.used p = false) (ha : InPage p a) :
    ¬(img.start ≤ a ∧ a < img.fin) := by
  rintro ⟨-, hlt⟩
  refine (((pmmInit_spec h).1 p).1 hp).2 (Or.inr (Or.inl ?_))
  rw [← ha]
  exact Nat.div_le_div_right (by omega)

/-- A free page lies outside the bitmap. -/
theorem free_not_bitmap {p a : Nat} (hp : s.used p = false) (ha : InPage p a) :
    ¬(bitmap ≤ a ∧ a < bitmap + bitmapSize map) := by
  rintro ⟨hle, hlt⟩
  obtain ⟨⟨htotal, -⟩, hres⟩ := ((pmmInit_spec h).1 p).1 hp
  refine hres (Or.inl ?_)
  rw [← pmmInit_bitmap h, bitmapPages, mem_pages, ← ha]
  refine ⟨Nat.div_le_div_right hle, ?_, by rw [ha]; exact htotal⟩
  have hpos : 0 < pageSize := by decide
  rw [Nat.div_lt_iff_lt_mul hpos]
  have := Nat.lt_div_mul_add hpos (a := bitmap + bitmapSize map + (pageSize - 1))
  unfold pageSize at *
  omega

/-- The counter is the number of clear bits of the bitmap. -/
theorem free_counted :
    s.freePages = (List.range (8 * bitmapSize map)).countP fun p => !s.used p := by
  obtain ⟨hspec, hcount⟩ := pmmInit_spec h
  have hwide : (Finset.range (totalPages map)).filter (fun p => s.used p = false)
      = (Finset.range (8 * bitmapSize map)).filter fun p => s.used p = false := by
    ext p
    simp only [Finset.mem_filter, Finset.mem_range]
    refine and_congr_left fun hp => ?_
    have hlt := ((hspec p).1 hp).1.1
    have hround : totalPages map ≤ 8 * bitmapSize map := by
      unfold bitmapSize
      omega
    exact ⟨fun _ => lt_of_lt_of_le hlt hround, fun _ => hlt⟩
  have hbits : (fun p => !s.used p) = fun p => decide (s.used p = false) := by
    funext p
    cases s.used p <;> rfl
  rw [hcount, hwide, hbits, countP_eq_length_filter]
  simp [Finset.card, Multiset.range]

/-- **Physical memory.** After `pmm_init` the free pages lie in usable entries, apart from every other
    entry, from the kernel and from the bitmap, and are counted, exactly for the maps in which no
    usable entry starts inside a page that is not wholly usable and no entry of another type reaches
    into the pages of a usable one, pages that are reserved apart. -/
theorem pmm_init_safe_iff : Safe img map bitmap s ↔ MapOk arch img map := by
  obtain ⟨hspec, -⟩ := pmmInit_spec h
  constructor
  · intro hsafe
    refine ⟨fun e he hus hlt hres a ha _ => ?_, fun e he hus o ho hos a hcov hge hlt => ?_⟩
    · exact hsafe.inside _ (free_of_hasPage h he ⟨hus, le_rfl, hlt⟩ hres) a ha
    · by_contra hres
      exact hsafe.apart _ (free_of_hasPage h he ⟨hus, hge, hlt⟩ hres) a rfl o ho hos hcov
  · intro hok
    refine ⟨fun p hp a ha => ?_, fun p hp a ha o ho hos hcov => ?_, fun p hp a ha => free_not_kernel h hp ha,
      fun p hp a ha => free_not_bitmap h hp ha, free_counted h⟩
    · obtain ⟨⟨-, e, he, hpage⟩, hres⟩ := (hspec p).1 hp
      by_cases hle : e.base.toNat ≤ a
      · exact ⟨e, he, hpage.1, hpage.covers ha hle⟩
      · -- The byte is before the entry, so the page is its first one.
        have hfirst : e.base.toNat / pageSize = p := by
          refine le_antisymm hpage.2.1 ?_
          rw [← ha]
          exact Nat.div_le_div_right (le_of_not_ge hle)
        subst hfirst
        exact hok.starts e he hpage.1 hpage.2.2 hres a ha (not_le.1 hle)
    · obtain ⟨⟨-, e, he, hpage⟩, hres⟩ := (hspec p).1 hp
      subst ha
      exact hres (hok.others e he hpage.1 o ho hos a hcov hpage.2.1 hpage.2.2)

end

/-! Small maps, with a kernel in the second page. -/

namespace Small

def image : Image := ⟨0x1000, 0x2000, by decide, by decide⟩

/-- Two usable entries around a reserved one, on page boundaries. -/
def aligned : List Entry := [⟨0, 0x4000, 1⟩, ⟨0x4000, 0x1000, 2⟩, ⟨0x5000, 0x3000, 1⟩]

/-- The reserved entry ends inside a page. -/
def unaligned : List Entry := [⟨0, 0x5000, 1⟩, ⟨0x5000, 0x800, 2⟩, ⟨0x5800, 0x2800, 1⟩]

/-- The reserved entry lies inside the usable one. -/
def overlapping : List Entry := [⟨0, 0x8000, 1⟩, ⟨0x5000, 0x1000, 2⟩]

theorem aligned_ok : MapOk .x86_64 image aligned := by
  have hstarts : ∀ e ∈ aligned, e.base.toNat / pageSize * pageSize = e.base.toNat := by decide
  have hreserved : ∀ o ∈ aligned, o.isUsable = false → o = ⟨0x4000, 0x1000, 2⟩ := by decide
  refine ⟨fun e he _ _ _ a ha hlt => ?_, fun e he hus o ho hos a hcov hge hlt => ?_⟩
  · have hle := Nat.div_mul_le_self a pageSize
    rw [ha, hstarts e he] at hle
    exact absurd hlt (not_lt.2 hle)
  · obtain rfl := hreserved o ho hos
    have hpage : a / pageSize = 4 := by
      have h₁ : 0x4000 ≤ a := hcov.1
      have h₂ : a < 0x5000 := hcov.2
      unfold pageSize
      omega
    have hnone : ∀ e ∈ aligned, e.isUsable = true →
        ¬(e.base.toNat / pageSize ≤ 4 ∧ 4 < e.fin / pageSize) := by decide
    rw [hpage] at hge hlt
    exact absurd ⟨hge, hlt⟩ (hnone e he hus)

end Small

theorem pmm_init_safe_of_aligned : ∃ bitmap s,
    pmmInit .x86_64 Small.image Small.aligned = some (bitmap, s) ∧ Safe Small.image Small.aligned bitmap s := by
  have hsome : (pmmInit .x86_64 Small.image Small.aligned).isSome = true := by decide +kernel
  obtain ⟨r, h⟩ := Option.isSome_iff_exists.1 hsome
  exact ⟨r.1, r.2, h, (pmm_init_safe_iff h).2 Small.aligned_ok⟩

/-- Page 5 is free, and its first half is the reserved entry; page 5 is free, and it is the reserved
    entry. -/
theorem pmm_init_frees_reserved :
    ((pmmInit .x86_64 Small.image Small.unaligned).map fun r => r.2.used 5) = some false ∧
      ((pmmInit .x86_64 Small.image Small.overlapping).map fun r => r.2.used 5) = some false ∧
      InPage 5 0x5000 ∧ Entry.Covers ⟨0x5000, 0x800, 2⟩ 0x5000 ∧ Entry.Covers ⟨0x5000, 0x1000, 2⟩ 0x5000 ∧
      ∀ bitmap s, pmmInit .x86_64 Small.image Small.unaligned = some (bitmap, s) →
        ¬Safe Small.image Small.unaligned bitmap s := by
  refine ⟨by decide +kernel, by decide +kernel, by decide, by decide, by decide, ?_⟩
  intro bitmap s h hsafe
  have hfree : ((pmmInit .x86_64 Small.image Small.unaligned).map fun r => r.2.used 5) = some false := by
    decide +kernel
  rw [h] at hfree
  exact hsafe.apart 5 (Option.some.inj hfree) 0x5000 (by decide) ⟨0x5000, 0x800, 2⟩
    (by decide) (by decide) (by decide)

end EmbLinkOs.Mm.Pmm
