import EmbLinkOs.Mm.Pmm
import EmbLinkOs.Lib.Machine

set_option autoImplicit false

/-! # Physical pages after boot

The rest of `kernel/mm/pmm.c`: pages are handed out one by one from a hint that moves on, or in runs at
a multiple of an alignment; they are given back, reserved, and added with memory that comes later. The
counters follow the bitmap exactly, a search fails only if there is nothing to find, and no page is
handed out twice (`frames_exact`). All of this rests on page 0: its address is the answer that says
there is no page, and `pmm_free_page` takes it like any other (`page_zero_lost`). -/

namespace EmbLinkOs.Mm.Pmm

open List

open History

/-- `pmm_bitmap` and its counters with `total_pages` and `pmm_hint`. -/
structure Frames extends State where
  total : Nat
  hint : Nat

/-- The state `pmm_init` leaves. -/
def Frames.boot (map : List Entry) (s : State) : Frames := { s with total := totalPages map, hint := 0 }

/-! ## The functions -/

/-- `pmm_bitmap[b] == 0xFF`. -/
def byteFull (used : Nat → Bool) (b : Nat) : Bool := (List.range 8).all fun j => used (8 * b + j)

/-- The loop of a pass of `pmm_alloc_page` up to `fin`; each turn moves on by a page at least. -/
def scan (used : Nat → Bool) (fin : Nat) : Nat → Nat → Option Nat
  | 0, _ => none
  | fuel + 1, i =>
    if fin ≤ i then none
    else if i % 8 = 0 && decide (i + 8 ≤ fin) && byteFull used (i / 8) then scan used fin fuel (i + 8)
    else if used i then scan used fin fuel (i + 1)
    else some i

/-- `pmm_hint = p; if (pmm_hint >= total_pages) pmm_hint = 0`. -/
def Frames.aim (s : Frames) (p : Nat) : Frames := { s with hint := if s.total ≤ p then 0 else p }

def Frames.take (s : Frames) (p : Nat) : Frames :=
  { s with
    used := Function.update s.used p true, freePages := s.freePages - 1, usedPages := s.usedPages + 1 }.aim
      (p + 1)

/-- The page `pmm_alloc_page` finds: from the hint on, and then before it. -/
def Frames.find (s : Frames) : Option Nat :=
  (scan s.used s.total (s.total - s.hint) s.hint).or (scan s.used s.hint s.hint 0)

/-- `pmm_alloc_page`. -/
def pmmAllocPage (s : Frames) : Nat × Frames :=
  match s.find with
  | some p => (p * pageSize, s.take p)
  | none => (0, s)

/-- `pmm_free_page`. -/
def pmmFreePage (s : Frames) (addr : Nat) : Frames :=
  let p := addr / pageSize
  if s.total ≤ p then s
  else if s.used p then
    { s with toState := s.toState.free p, hint := if p < s.hint then p else s.hint }
  else s

/-- The bitmap for `total` pages: the old one copied, and every page behind it used. -/
def Frames.grow (s : Frames) (total : Nat) : Frames :=
  { s with
    used := fun p => if p < 8 * ((s.total + 7) / 8) then s.used p else true
    usedPages := s.usedPages + (total - s.total)
    total }

/-- `start_page` and `end_page` of `pmm_add_region`. -/
def startPage (phys : UInt64) : Nat := (phys + 4095).toNat / pageSize
def endPage (phys length : UInt64) : Nat := (phys + length).toNat / pageSize

/-- `pmm_add_region`; `heap` is whether `kmalloc` has room for the new bitmap. -/
def pmmAddRegion (heap : Bool) (s : Frames) (phys length : UInt64) : Bool × Frames :=
  let first := startPage phys
  let last := endPage phys length
  if length = 0 then (false, s)
  else if last ≤ first then (false, s)
  else if s.total < last && !heap then (false, s)
  else
    let s := if s.total < last then s.grow last else s
    let region := List.range' first (last - first)
    (region.any s.used, { s with toState := region.foldl State.free s.toState })

/-- The loop over the pages of a run: how many are free before the first that is not. -/
def freeRun (used : Nat → Bool) (first pages : Nat) : Nat :=
  (List.range pages).findIdx fun i => used (first + i)

/-- `x & ~m`. -/
def clearBits (x m : Nat) : Nat := x - (x &&& m)

/-- The search of `pmm_alloc_contiguous` for its first page. -/
def search (used : Nat → Bool) (pages alignment limit : Nat) : Nat → Nat → Option Nat
  | 0, _ => none
  | fuel + 1, first =>
    if limit < first then none
    else if freeRun used first pages = pages then some first
    else search used pages alignment limit fuel
      (clearBits (first + freeRun used first pages + alignment) (alignment - 1))

def Frames.takeRun (s : Frames) (first pages : Nat) : Frames :=
  { s with
    used := fun p => s.used p || (decide (first ≤ p) && decide (p < first + pages))
    freePages := s.freePages - pages, usedPages := s.usedPages + pages }.aim (first + pages)

/-- The first page `pmm_alloc_contiguous` finds. -/
def Frames.findRun (s : Frames) (pages alignment : Nat) : Option Nat :=
  if pages = 0 ∨ alignment = 0 ∨ alignment &&& (alignment - 1) ≠ 0 then none
  else if s.total < pages ∨ s.total < alignment ∨ s.freePages < pages then none
  else search s.used pages alignment (s.total - pages) s.total alignment

/-- `pmm_alloc_contiguous`. -/
def pmmAllocContiguous (s : Frames) (pages alignment : Nat) : Nat × Frames :=
  match s.findRun pages alignment with
  | some first => (first * pageSize, s.takeRun first pages)
  | none => (0, s)

/-! ## Calls -/

inductive Call
  | alloc
  | contiguous (pages alignment : Nat)
  | free (addr : Nat)
  | reserve (addr : Nat)
  | addRegion (heap : Bool) (phys length : UInt64)

/-- Pages that were handed out, and a call of `pmm_free_page`. -/
inductive Event
  | gave (first pages : Nat)
  | freed (page : Nat)

def Call.step (s : Frames) : Call → Frames × List Event
  | .alloc => ((pmmAllocPage s).2, s.find.toList.map fun p => .gave p 1)
  | .contiguous pages alignment =>
    ((pmmAllocContiguous s pages alignment).2, (s.findRun pages alignment).toList.map fun p => .gave p pages)
  | .free addr => (pmmFreePage s addr, [.freed (addr / pageSize)])
  | .reserve addr => ({ s with toState := pmmReservePage s.total s.toState addr }, [])
  | .addRegion heap phys length => ((pmmAddRegion heap s phys length).2, [])

def frames : Machine Frames Call Event := ⟨Call.step⟩

/-! ## What is to hold -/

/-- The counters follow the first `total` bits of the bitmap. -/
structure Exact (total : Nat) (s : State) : Prop where
  counted : s.freePages = ((Finset.range total).filter fun p => s.used p = false).card
  sum : s.freePages + s.usedPages = total

/-- `pmm_alloc_page` says 0 only if no page is free, and else gives a page that was. -/
structure AllocRight (s : Frames) : Prop where
  none : (pmmAllocPage s).1 = 0 → ∀ p < s.total, s.used p = true
  some : (pmmAllocPage s).1 ≠ 0 → ∃ p < s.total, (pmmAllocPage s).1 = p * pageSize ∧ s.used p = false ∧
    (pmmAllocPage s).2.used p = true

/-- The pages from `first` on are there and free. -/
def FreeRun (s : Frames) (first pages : Nat) : Prop :=
  first + pages ≤ s.total ∧ ∀ i < pages, s.used (first + i) = false

/-- `pmm_alloc_contiguous` says 0 only if there is no run, and else gives one that was free. -/
structure ContiguousRight (s : Frames) (pages alignment : Nat) : Prop where
  none : (pmmAllocContiguous s pages alignment).1 = 0 →
    ∀ first, alignment ∣ first → alignment ≤ first → ¬FreeRun s first pages
  some : (pmmAllocContiguous s pages alignment).1 ≠ 0 → ∃ first,
    (pmmAllocContiguous s pages alignment).1 = first * pageSize ∧ alignment ∣ first ∧ alignment ≤ first ∧
      FreeRun s first pages ∧ ∀ i < pages, (pmmAllocContiguous s pages alignment).2.used (first + i) = true

def Event.Gives (p : Nat) : Event → Prop
  | .gave first pages => first ≤ p ∧ p < first + pages
  | .freed _ => False

def Event.Frees (p : Nat) : Event → Prop
  | .gave _ _ => False
  | .freed q => q = p

/-- The page has been handed out and not been freed since. -/
def Out (h : List Event) (p : Nat) : Prop := Since (Event.Gives p) (fun e => ¬e.Frees p) h

/-- Nothing that is handed out is out already. -/
def GivenOnce (past : List Event) (e : Event) : Prop := ∀ p, e.Gives p → ¬Out past p

/-- Page 0 is not made free, and memory that is added is not in use. -/
def Sane (x : Frames × List Event) : Call → Prop
  | .free addr => addr / pageSize ≠ 0
  | .addRegion _ phys length =>
    ∀ p, startPage phys ≤ p → p < endPage phys length → p ≠ 0 ∧ ¬Out x.2 p
  | _ => True

/-! ## Counters -/

section

variable {total p : Nat} {s : State}

theorem Exact.lt_of_used (hs : Exact total s) (hp : p < total) (hu : s.used p = true) :
    s.freePages < total := by
  rw [hs.counted]
  calc ((Finset.range total).filter fun q => s.used q = false).card
      < (Finset.range total).card := Finset.card_lt_card
        ((Finset.filter_ssubset).2 ⟨p, Finset.mem_range.2 hp, by simp [hu]⟩)
    _ = total := Finset.card_range total

theorem Exact.pos_of_free (hs : Exact total s) (hp : p < total) (hu : s.used p = false) :
    0 < s.freePages := by
  rw [hs.counted]
  exact Finset.card_pos.2 ⟨p, by simp [hp, hu]⟩

theorem Exact.free (hs : Exact total s) (hp : p < total) : Exact total (s.free p) := by
  refine ⟨Counted.free hs.counted hp, ?_⟩
  unfold State.free
  split_ifs with hu
  · have hlt := hs.lt_of_used hp hu
    have hsum := hs.sum
    show s.freePages + 1 + (s.usedPages - 1) = total
    omega
  · exact hs.sum

theorem Exact.reserve (hs : Exact total s) (hp : p < total) : Exact total (s.reserve p) := by
  refine ⟨Counted.reserve hs.counted hp, ?_⟩
  unfold State.reserve
  split_ifs with hu
  · exact hs.sum
  · have hpos := hs.pos_of_free hp (by simpa using hu)
    have hsum := hs.sum
    show s.freePages - 1 + (s.usedPages + 1) = total
    omega

theorem Exact.foldl_free {l : List Nat} (hs : Exact total s) (hl : ∀ q ∈ l, q < total) :
    Exact total (l.foldl State.free s) :=
  List.foldlRecOn l State.free hs fun _ hb q hq => hb.free (hl q hq)

theorem Exact.foldl_reserve {l : List Nat} (hs : Exact total s) (hl : ∀ q ∈ l, q < total) :
    Exact total (l.foldl State.reserve s) :=
  List.foldlRecOn l State.reserve hs fun _ hb q hq => hb.reserve (hl q hq)

theorem Exact.pmmReservePage (hs : Exact total s) (addr : Nat) :
    Exact total (pmmReservePage total s addr) := by
  unfold Pmm.pmmReservePage
  split_ifs with h
  · exact hs
  · exact hs.reserve (not_le.1 h)

/-- `pmm_init` leaves exact counters. -/
theorem exact_pmmInit {arch : Arch} {img : Image} {map : List Entry} {bitmap : Nat}
    (h : pmmInit arch img map = some (bitmap, s)) : Exact (totalPages map) s := by
  have hpages : ∀ {lo hi : Nat}, ∀ q ∈ pages lo hi (totalPages map), q < totalPages map :=
    fun q hq => (mem_pages.1 hq).2.2
  have hinit : Exact (totalPages map) (State.init (totalPages map)) :=
    ⟨by simp [State.init], by simp [State.init]⟩
  have hfree : Exact (totalPages map) (freeUsable (totalPages map) map (State.init (totalPages map))) := by
    refine List.foldlRecOn map _ hinit fun s hs e _ => ?_
    split_ifs
    · exact hs.foldl_free hpages
    · exact hs
  unfold pmmInit at h
  dsimp only at h
  split_ifs at h
  obtain rfl := (congrArg Prod.snd (Option.some.inj h)).symm
  exact List.foldlRecOn _ _ ((hfree.foldl_reserve hpages).foldl_reserve hpages)
    fun s hs addr _ => hs.pmmReservePage addr

end

/-! ## The search for a page -/

section

variable {used : Nat → Bool} {fin fuel i : Nat}

theorem byteFull_iff {b : Nat} : byteFull used b = true ↔ ∀ q, q / 8 = b → used q = true := by
  simp only [byteFull, all_eq_true, mem_range]
  constructor
  · intro h q hq
    have := h (q % 8) (by omega)
    rwa [show 8 * b + q % 8 = q by omega] at this
  · intro h j hj
    exact h _ (by omega)

theorem scan_spec (hfuel : fin - i ≤ fuel) :
    (scan used fin fuel i = none → ∀ p, i ≤ p → p < fin → used p = true) ∧
      ∀ p, scan used fin fuel i = some p → p < fin ∧ used p = false := by
  induction fuel generalizing i with
  | zero =>
    refine ⟨fun _ p hp hlt => ?_, fun p hp => by cases hp⟩
    omega
  | succ fuel ih =>
    rw [scan]
    split_ifs with hend hfull hused
    · exact ⟨fun _ p hp hlt => by omega, fun p hp => by cases hp⟩
    · -- eight used pages are passed over at once
      simp only [Bool.and_eq_true, decide_eq_true_eq] at hfull
      obtain ⟨hnone, hsome⟩ := ih (i := i + 8) (by omega)
      refine ⟨fun h p hp hlt => ?_, hsome⟩
      by_cases hp8 : i + 8 ≤ p
      · exact hnone h p hp8 hlt
      · exact byteFull_iff.1 hfull.2 p (by omega)
    · obtain ⟨hnone, hsome⟩ := ih (i := i + 1) (by omega)
      refine ⟨fun h p hp hlt => ?_, hsome⟩
      by_cases hpi : p = i
      · rw [hpi]
        exact hused
      · exact hnone h p (by omega) hlt
    · refine ⟨fun h => (by cases h), fun p hp => ?_⟩
      obtain rfl := Option.some.inj hp
      exact ⟨by omega, by simpa using hused⟩

theorem find_none {s : Frames} (h : s.find = none) : ∀ p < s.total, s.used p = true := by
  rw [Frames.find, Option.or_eq_none_iff] at h
  intro p hp
  by_cases hle : s.hint ≤ p
  · exact (scan_spec le_rfl).1 h.1 p hle hp
  · exact (scan_spec (by omega)).1 h.2 p (Nat.zero_le p) (not_le.1 hle)

theorem find_some {s : Frames} (hhint : s.hint ≤ s.total) {p : Nat} (h : s.find = some p) :
    p < s.total ∧ s.used p = false := by
  rw [Frames.find, Option.or_eq_some_iff] at h
  rcases h with h | ⟨-, h⟩
  · exact (scan_spec le_rfl).2 p h
  · obtain ⟨hlt, hfree⟩ := (scan_spec (by omega)).2 p h
    exact ⟨lt_of_lt_of_le hlt hhint, hfree⟩

end

/-! ## The search for a run -/

section

variable {used : Nat → Bool} {pages alignment limit fuel first : Nat}

theorem freeRun_le : freeRun used first pages ≤ pages := by
  have : freeRun used first pages ≤ (List.range pages).length := findIdx_le_length
  rwa [length_range] at this

theorem free_of_lt_freeRun {i : Nat} (hi : i < freeRun used first pages) : used (first + i) = false := by
  have hlen : i < (List.range pages).length := by
    rw [length_range]
    exact lt_of_lt_of_le hi freeRun_le
  have := not_of_lt_findIdx hi
  simpa using this

theorem used_at_freeRun (h : freeRun used first pages ≠ pages) :
    used (first + freeRun used first pages) = true := by
  have hlt : freeRun used first pages < (List.range pages).length := by
    rw [length_range]
    exact lt_of_le_of_ne freeRun_le h
  have hat : used (first + (List.range pages)[freeRun used first pages]) = true :=
    findIdx_getElem (w := hlt)
  rwa [getElem_range] at hat

/-- The next start is the least multiple of the alignment behind the used page. -/
theorem clearBits_eq {k x : Nat} :
    clearBits (x + 2 ^ k) (2 ^ k - 1) = (x / 2 ^ k + 1) * 2 ^ k := by
  rw [clearBits, Nat.and_two_pow_sub_one_eq_mod, Nat.add_mod_right]
  have := Nat.div_add_mod x (2 ^ k)
  rw [Nat.add_mul, Nat.mul_comm (x / 2 ^ k)]
  omega

theorem search_spec {k : Nat} (hfuel : limit + 1 - first ≤ fuel) (hfirst : 2 ^ k ∣ first) :
    (search used pages (2 ^ k) limit fuel first = none →
      ∀ m, 2 ^ k ∣ m → first ≤ m → m ≤ limit → ∃ i < pages, used (m + i) = true) ∧
    ∀ m, search used pages (2 ^ k) limit fuel first = some m →
      2 ^ k ∣ m ∧ first ≤ m ∧ m ≤ limit ∧ ∀ i < pages, used (m + i) = false := by
  induction fuel generalizing first with
  | zero =>
    refine ⟨fun _ m _ hge hle => by omega, fun m hm => by cases hm⟩
  | succ fuel ih =>
    rw [search]
    split_ifs with hend hrun
    · exact ⟨fun _ m _ hge hle => by omega, fun m hm => by cases hm⟩
    · refine ⟨fun h => (by cases h), fun m hm => ?_⟩
      obtain rfl := Option.some.inj hm
      exact ⟨hfirst, le_rfl, not_lt.1 hend, fun i hi => free_of_lt_freeRun (hrun.symm ▸ hi)⟩
    · have hlt : freeRun used first pages < pages := lt_of_le_of_ne freeRun_le hrun
      have hused := used_at_freeRun hrun
      generalize freeRun used first pages = j at hlt hused ⊢
      have hpos : 0 < 2 ^ k := Nat.two_pow_pos k
      have hbehind : first + j < ((first + j) / 2 ^ k + 1) * 2 ^ k := Nat.lt_mul_of_div_lt (by omega) hpos
      rw [clearBits_eq]
      have hfuel : limit + 1 - ((first + j) / 2 ^ k + 1) * 2 ^ k ≤ fuel := by omega
      obtain ⟨hnone, hsome⟩ := ih hfuel (Nat.dvd_mul_left _ _)
      refine ⟨fun h m hdvd hge hle => ?_, fun m hm => ?_⟩
      · by_cases hm : ((first + j) / 2 ^ k + 1) * 2 ^ k ≤ m
        · exact hnone h m hdvd hm hle
        · -- a start before the next one has the used page in its run
          have hmj : m ≤ first + j := by
            obtain ⟨q, rfl⟩ := hdvd
            have hq : q < (first + j) / 2 ^ k + 1 := by
              rw [not_le, Nat.mul_comm (2 ^ k)] at hm
              exact Nat.lt_of_mul_lt_mul_right hm
            exact le_trans (Nat.mul_le_mul_left _ (Nat.lt_succ_iff.1 hq)) (Nat.mul_div_le _ _)
          exact ⟨first + j - m, by omega, by rwa [Nat.add_sub_cancel' hmj]⟩
      · obtain ⟨h₁, h₂, h₃, h₄⟩ := hsome m hm
        exact ⟨h₁, by omega, h₃, h₄⟩

theorem FreeRun.subset {s : Frames} (h : FreeRun s first pages) :
    Finset.Ico first (first + pages) ⊆ (Finset.range s.total).filter fun p => s.used p = false := by
  intro p hp
  obtain ⟨h₁, h₂⟩ := Finset.mem_Ico.1 hp
  have hfit := h.1
  have hfree := h.2 (p - first) (by omega)
  rw [Nat.add_sub_cancel' h₁] at hfree
  simp only [Finset.mem_filter, Finset.mem_range]
  exact ⟨by omega, hfree⟩

/-- A run shows that there are that many free pages. -/
theorem FreeRun.le_freePages {s : Frames} (hs : Exact s.total s.toState) (h : FreeRun s first pages) :
    pages ≤ s.freePages := by
  have hcard := Finset.card_le_card h.subset
  rwa [← hs.counted, Nat.card_Ico, Nat.add_sub_cancel_left] at hcard

theorem findRun_none {s : Frames} (hs : Exact s.total s.toState) (hpages : pages ≠ 0)
    (halign : alignment.isPowerOfTwo) (h : s.findRun pages alignment = none) (hdvd : alignment ∣ first)
    (hle : alignment ≤ first) : ¬FreeRun s first pages := by
  intro hrun
  have hcount := hrun.le_freePages hs
  obtain ⟨hfit, hfree⟩ := hrun
  obtain ⟨k, rfl⟩ := halign
  have hpow : 2 ^ k ≠ 0 := (Nat.two_pow_pos k).ne'
  have hmask : 2 ^ k &&& 2 ^ k - 1 = 0 := (Nat.and_sub_one_eq_zero_iff_isPowerOfTwo hpow).2 ⟨k, rfl⟩
  rw [Frames.findRun, if_neg (by simp [hpages, hmask]), if_neg (by omega)] at h
  obtain ⟨i, hi, hused⟩ := (search_spec (by omega) (dvd_refl _)).1 h first hdvd hle (by omega)
  rw [hfree i hi] at hused
  cases hused

theorem findRun_some {s : Frames} (h : s.findRun pages alignment = some first) :
    alignment ∣ first ∧ alignment ≤ first ∧ 0 < first ∧ FreeRun s first pages := by
  unfold Frames.findRun at h
  split_ifs at h with hargs hroom
  have hpow : alignment.isPowerOfTwo :=
    (Nat.and_sub_one_eq_zero_iff_isPowerOfTwo (by tauto)).1 (by tauto)
  obtain ⟨k, rfl⟩ := hpow
  have hpos : 0 < 2 ^ k := Nat.two_pow_pos k
  obtain ⟨hdvd, hge, hle, hfree⟩ := (search_spec (by omega) (dvd_refl _)).2 first h
  exact ⟨hdvd, hge, by omega, by omega, hfree⟩

end

/-! ## One call -/

/-- What holds after every sane run. -/
structure Inv (h : List Event) (s : Frames) : Prop where
  exact : Exact s.total s.toState
  beyond : ∀ p, s.total ≤ p → s.used p = true
  zero : s.used 0 = true
  hint : s.hint ≤ s.total
  out : ∀ p, Out h p → s.used p = true
  once : Justified GivenOnce [] h

section

variable {h : List Event} {s : Frames}

theorem take_eq (s : Frames) (p : Nat) : s.take p = s.takeRun p 1 := by
  have hused : Function.update s.used p true
      = fun q => s.used q || (decide (p ≤ q) && decide (q < p + 1)) := by
    funext q
    by_cases hq : q = p
    · simp [hq]
    · have hout : ¬(p ≤ q ∧ q < p + 1) := by omega
      rw [Function.update_of_ne hq, ← Bool.decide_and, decide_eq_false hout, Bool.or_false]
  rw [Frames.take, Frames.takeRun, hused]

theorem takeRun_used (s : Frames) (first pages q : Nat) :
    (s.takeRun first pages).used q = true ↔ s.used q = true ∨ (first ≤ q ∧ q < first + pages) := by
  simp [Frames.takeRun, Frames.aim]

theorem takeRun_free (s : Frames) (first pages q : Nat) :
    (s.takeRun first pages).used q = false ↔
      s.used q = false ∧ ¬(first ≤ q ∧ q < first + pages) := by
  rw [← Bool.not_eq_true, takeRun_used, not_or, Bool.not_eq_true]

theorem Exact.takeRun {first pages : Nat} (hs : Exact s.total s.toState) (hrun : FreeRun s first pages) :
    Exact s.total (s.takeRun first pages).toState := by
  have hset : (Finset.range s.total).filter (fun p => (s.takeRun first pages).used p = false)
      = ((Finset.range s.total).filter fun p => s.used p = false) \ Finset.Ico first (first + pages) := by
    ext p
    simp only [Finset.mem_filter, takeRun_free, Finset.mem_sdiff, Finset.mem_Ico, and_assoc]
  have hle := hrun.le_freePages hs
  refine ⟨?_, ?_⟩
  · rw [hset, Finset.card_sdiff_of_subset hrun.subset, ← hs.counted, Nat.card_Ico,
      Nat.add_sub_cancel_left]
    rfl
  · have hsum := hs.sum
    show s.freePages - pages + (s.usedPages + pages) = s.total
    omega

/-- Free pages are handed out. -/
theorem Inv.takeRun {first pages : Nat} (hs : Inv h s) (hrun : FreeRun s first pages) :
    Inv (h ++ [.gave first pages]) (s.takeRun first pages) := by
  refine ⟨hs.exact.takeRun hrun, fun p hp => ?_, ?_, ?_, fun p hp => ?_, ?_⟩
  · exact (takeRun_used ..).2 (Or.inl (hs.beyond p hp))
  · exact (takeRun_used ..).2 (Or.inl hs.zero)
  · show (if s.total ≤ first + pages then 0 else first + pages) ≤ s.total
    split_ifs
    · exact Nat.zero_le _
    · omega
  · rw [takeRun_used]
    rcases hp.of_concat with hgive | ⟨hp, -⟩
    · exact Or.inr hgive
    · exact Or.inl (hs.out p hp)
  · rw [justified_append]
    refine ⟨hs.once, fun p hgive hout => ?_, trivial⟩
    obtain ⟨hge, hlt⟩ : first ≤ p ∧ p < first + pages := hgive
    have hfree := hrun.2 (p - first) (by omega)
    rw [Nat.add_sub_cancel' hge, hs.out p hout] at hfree
    cases hfree

theorem Inv.free (hs : Inv h s) {addr : Nat} (haddr : addr / pageSize ≠ 0) :
    Inv (h ++ [.freed (addr / pageSize)]) (pmmFreePage s addr) := by
  have hout : ∀ p, Out (h ++ [.freed (addr / pageSize)]) p → s.used p = true ∧ p ≠ addr / pageSize := by
    intro p hp
    rcases hp.of_concat with hgive | ⟨hp, hne⟩
    · exact hgive.elim
    · exact ⟨hs.out p hp, fun heq => hne heq.symm⟩
  have honce : Justified GivenOnce [] (h ++ [.freed (addr / pageSize)]) := by
    rw [justified_append]
    exact ⟨hs.once, fun p hgive => hgive.elim, trivial⟩
  unfold pmmFreePage
  dsimp only
  by_cases hlt : s.total ≤ addr / pageSize
  · rw [if_pos hlt]
    exact ⟨hs.exact, hs.beyond, hs.zero, hs.hint, fun p hp => (hout p hp).1, honce⟩
  rw [if_neg hlt]
  by_cases hused : s.used (addr / pageSize) = true
  · rw [if_pos hused]
    have hkept : ∀ p, s.used p = true → p ≠ addr / pageSize →
        (s.toState.free (addr / pageSize)).used p = true := by
      intro p hp hne
      rw [← Bool.not_eq_false, free_used, not_or]
      exact ⟨by simp [hp], hne⟩
    refine ⟨hs.exact.free (not_le.1 hlt), fun p hp => hkept p (hs.beyond p hp) ?_,
      hkept 0 hs.zero (Ne.symm haddr), ?_, fun p hp => hkept p (hout p hp).1 (hout p hp).2, honce⟩
    · rintro rfl
      exact hlt hp
    · show (if addr / pageSize < s.hint then addr / pageSize else s.hint) ≤ s.total
      split_ifs
      · omega
      · exact hs.hint
  · rw [if_neg hused]
    exact ⟨hs.exact, hs.beyond, hs.zero, hs.hint, fun p hp => (hout p hp).1, honce⟩

theorem Inv.reserve (hs : Inv h s) (addr : Nat) :
    Inv h { s with toState := pmmReservePage s.total s.toState addr } := by
  have hgrow : ∀ p, s.used p = true → (pmmReservePage s.total s.toState addr).used p = true := by
    intro p hp
    unfold pmmReservePage
    split_ifs
    · exact hp
    · rw [← Bool.not_eq_false, reserve_used]
      simp [hp]
  exact ⟨hs.exact.pmmReservePage addr, fun p hp => hgrow p (hs.beyond p hp), hgrow 0 hs.zero, hs.hint,
    fun p hp => hgrow p (hs.out p hp), hs.once⟩

theorem Inv.grow (hs : Inv h s) {total : Nat} (hle : s.total ≤ total) : Inv h (s.grow total) := by
  have hkept : ∀ p, s.used p = true → (s.grow total).used p = true := by
    intro p hp
    show (if p < 8 * ((s.total + 7) / 8) then s.used p else true) = true
    split_ifs
    · exact hp
    · rfl
  have hfree : ∀ p, (s.grow total).used p = false ↔ s.used p = false := by
    intro p
    refine ⟨fun hp => ?_, fun hp => ?_⟩
    · by_contra hused
      rw [hkept p (by simpa using hused)] at hp
      cases hp
    · have hlt : p < s.total := by
        by_contra hge
        rw [hs.beyond p (not_lt.1 hge)] at hp
        cases hp
      show (if p < 8 * ((s.total + 7) / 8) then s.used p else true) = false
      rw [if_pos (by omega)]
      exact hp
  refine ⟨⟨?_, ?_⟩, fun p hp => hkept p (hs.beyond p (le_trans hle hp)), hkept 0 hs.zero,
    le_trans hs.hint hle, fun p hp => hkept p (hs.out p hp), hs.once⟩
  · have hset : (Finset.range total).filter (fun p => (s.grow total).used p = false)
        = (Finset.range s.total).filter fun p => s.used p = false := by
      ext p
      simp only [Finset.mem_filter, Finset.mem_range, hfree]
      refine and_congr_left fun hp => ⟨fun _ => ?_, fun hlt => lt_of_lt_of_le hlt hle⟩
      by_contra hge
      rw [hs.beyond p (not_lt.1 hge)] at hp
      cases hp
    show s.freePages = _
    rw [hs.exact.counted, ← hset]
    rfl
  · have hsum := hs.exact.sum
    show s.freePages + (s.usedPages + (total - s.total)) = total
    omega

/-- The pages of a region that is in range and not in use become free. -/
theorem Inv.region (hs : Inv h s) {first last : Nat} (hlast : last ≤ s.total)
    (hnew : ∀ p, first ≤ p → p < last → p ≠ 0 ∧ ¬Out h p) :
    Inv h { s with toState := (List.range' first (last - first)).foldl State.free s.toState } := by
  have hmem : ∀ p, p ∈ List.range' first (last - first) ↔ first ≤ p ∧ p < last := by
    intro p
    rw [mem_range'_1]
    omega
  have hkept : ∀ p, s.used p = true → ¬(first ≤ p ∧ p < last) →
      ((List.range' first (last - first)).foldl State.free s.toState).used p = true := by
    intro p hp hout
    rw [← Bool.not_eq_false, (foldl_free (n := 0) _ _).1, hmem, not_or]
    exact ⟨by simp [hp], hout⟩
  refine ⟨hs.exact.foldl_free fun p hp => ?_, fun p hp => hkept p (hs.beyond p hp) ?_,
    hkept 0 hs.zero fun h0 => (hnew 0 h0.1 h0.2).1 rfl, hs.hint,
    fun p hp => hkept p (hs.out p hp) fun hin => (hnew p hin.1 hin.2).2 hp, hs.once⟩
  · exact lt_of_lt_of_le ((hmem p).1 hp).2 hlast
  · have hp' : s.total ≤ p := hp
    omega

theorem Inv.addRegion (hs : Inv h s) {heap : Bool} {phys length : UInt64}
    (hnew : ∀ p, startPage phys ≤ p → p < endPage phys length → p ≠ 0 ∧ ¬Out h p) :
    Inv h (pmmAddRegion heap s phys length).2 := by
  unfold pmmAddRegion
  dsimp only
  split_ifs with hlen hempty hheap hgrow
  · exact hs
  · exact hs
  · exact hs
  · exact (hs.grow hgrow.le).region le_rfl hnew
  · exact hs.region (not_lt.1 hgrow) hnew

theorem Inv.allocRight (hs : Inv h s) : AllocRight s := by
  cases hfind : s.find with
  | none =>
    have hans : pmmAllocPage s = (0, s) := by simp [pmmAllocPage, hfind]
    exact ⟨fun _ => find_none hfind, fun hne => absurd (congrArg Prod.fst hans) hne⟩
  | some p =>
    have hans : pmmAllocPage s = (p * pageSize, s.take p) := by simp [pmmAllocPage, hfind]
    obtain ⟨hlt, hfree⟩ := find_some hs.hint hfind
    have hpos : p * pageSize ≠ 0 := by
      refine Nat.mul_ne_zero ?_ (by decide)
      rintro rfl
      rw [hs.zero] at hfree
      cases hfree
    refine ⟨fun hzero => absurd ((congrArg Prod.fst hans).symm.trans hzero) hpos,
      fun _ => ⟨p, hlt, congrArg Prod.fst hans, hfree, ?_⟩⟩
    rw [hans, take_eq]
    exact (takeRun_used ..).2 (Or.inr ⟨le_rfl, Nat.lt_succ_self p⟩)

theorem Inv.contiguousRight (hs : Inv h s) {pages alignment : Nat} (hpages : pages ≠ 0)
    (halign : alignment.isPowerOfTwo) : ContiguousRight s pages alignment := by
  cases hfind : s.findRun pages alignment with
  | none =>
    have hans : pmmAllocContiguous s pages alignment = (0, s) := by simp [pmmAllocContiguous, hfind]
    exact ⟨fun _ first => findRun_none hs.exact hpages halign hfind,
      fun hne => absurd (congrArg Prod.fst hans) hne⟩
  | some first =>
    have hans : pmmAllocContiguous s pages alignment = (first * pageSize, s.takeRun first pages) := by
      simp [pmmAllocContiguous, hfind]
    obtain ⟨hdvd, hle, hpos, hrun⟩ := findRun_some hfind
    refine ⟨fun hzero => ?_, fun _ => ⟨first, congrArg Prod.fst hans, hdvd, hle, hrun, fun i hi => ?_⟩⟩
    · exact absurd ((congrArg Prod.fst hans).symm.trans hzero) (Nat.mul_ne_zero hpos.ne' (by decide))
    · rw [hans]
      exact (takeRun_used ..).2 (Or.inr ⟨by omega, by omega⟩)

/-- One call of a sane run. -/
theorem Inv.step (hs : Inv h s) {c : Call} (hc : Sane (s, h) c) :
    Inv (h ++ (frames.step s c).2) (frames.step s c).1 := by
  cases c with
  | alloc =>
    show Inv (h ++ s.find.toList.map fun p => .gave p 1) (pmmAllocPage s).2
    cases hfind : s.find with
    | none => simpa [pmmAllocPage, hfind] using hs
    | some p =>
      obtain ⟨hlt, hfree⟩ := find_some hs.hint hfind
      have hrun : FreeRun s p 1 := ⟨hlt, fun i hi => by rwa [Nat.lt_one_iff.1 hi]⟩
      simpa [pmmAllocPage, hfind, take_eq] using hs.takeRun hrun
  | contiguous pages alignment =>
    show Inv (h ++ (s.findRun pages alignment).toList.map fun p => .gave p pages)
      (pmmAllocContiguous s pages alignment).2
    cases hfind : s.findRun pages alignment with
    | none => simpa [pmmAllocContiguous, hfind] using hs
    | some first => simpa [pmmAllocContiguous, hfind] using hs.takeRun (findRun_some hfind).2.2.2
  | free addr => exact hs.free hc
  | reserve addr =>
    show Inv (h ++ []) _
    rw [append_nil]
    exact hs.reserve addr
  | addRegion heap phys length =>
    show Inv (h ++ []) _
    rw [append_nil]
    exact hs.addRegion hc

end

/-- `pmm_init` reserves page 0. -/
theorem inv_boot {arch : Arch} {img : Image} {map : List Entry} {bitmap : Nat} {s : State}
    (h : pmmInit arch img map = some (bitmap, s)) : Inv [] (Frames.boot map s) := by
  obtain ⟨hspec, -⟩ := pmmInit_spec h
  have hused : ∀ p, ¬((p < totalPages map ∧ ∃ e ∈ map, e.HasPage p) ∧ ¬Reserved arch img map p) →
      s.used p = true := by
    intro p hp
    rw [← Bool.not_eq_false, hspec p]
    exact hp
  exact ⟨exact_pmmInit h, fun p hp => hused p fun hfree => absurd hfree.1.1 (not_lt.2 hp),
    hused 0 fun hfree => hfree.2 (Or.inr (Or.inl (Nat.zero_le _))), Nat.zero_le _,
    fun p hp => absurd hp not_since_nil, trivial⟩

/-- **Physical pages.** After `pmm_init` and any calls in which page 0 is not made free and the memory
    that is added is not in use, the counters are exact, a single page is refused only if none is free
    and a run only if there is none at a multiple of the alignment, what is given was free, and no page
    is given twice without having been freed. -/
theorem frames_exact {arch : Arch} {img : Image} {map : List Entry} {bitmap : Nat} {s : State}
    (h : pmmInit arch img map = some (bitmap, s)) (calls : List Call)
    (hsane : frames.traced.Admits Sane (Frames.boot map s, []) calls) :
    let r := frames.run (Frames.boot map s) calls
    Exact r.1.total r.1.toState ∧ AllocRight r.1 ∧
      (∀ pages alignment, pages ≠ 0 → alignment.isPowerOfTwo → ContiguousRight r.1 pages alignment) ∧
      ∀ pre e post, r.2 = pre ++ e :: post → GivenOnce pre e := by
  intro r
  have hrun := Machine.run_invariant_traced (m := frames) (I := Inv) (fun h s c hI hc => hI.step hc) calls []
    (Frames.boot map s) (inv_boot h) hsane
  rw [nil_append] at hrun
  exact ⟨hrun.exact, hrun.allocRight, fun pages alignment => hrun.contiguousRight,
    fun pre e post he => hrun.once.at_event he⟩

namespace Small

/-- Memory is added behind the end, a run of pages and a page are handed out, and one comes back. -/
def busy : List Call :=
  [.addRegion true 0x9000 0x2000, .contiguous 2 2, .alloc, .free 0x6000, .reserve 0x6000, .alloc]

theorem busy_sane (s : State) : frames.traced.Admits Sane (Frames.boot aligned s, []) busy := by
  refine ⟨fun p hge _ => ⟨?_, not_since_nil⟩, trivial, trivial, ?_, trivial, trivial, trivial⟩
  · have hfirst : startPage 0x9000 = 9 := by decide
    omega
  · show 0x6000 / pageSize ≠ 0
    decide

/-- The allocator after the boot. -/
def booted : Frames :=
  Frames.boot aligned ((pmmInit .x86_64 image aligned).getD (0, State.init 0)).2

end Small

theorem frames_exact_busy : ∃ bitmap s, pmmInit .x86_64 Small.image Small.aligned = some (bitmap, s) ∧
    frames.traced.Admits Sane (Frames.boot Small.aligned s, []) Small.busy ∧
    Exact (frames.run (Frames.boot Small.aligned s) Small.busy).1.total
      (frames.run (Frames.boot Small.aligned s) Small.busy).1.toState := by
  have hsome : (pmmInit .x86_64 Small.image Small.aligned).isSome = true := by decide +kernel
  obtain ⟨r, h⟩ := Option.isSome_iff_exists.1 hsome
  exact ⟨r.1, r.2, h, Small.busy_sane r.2, (frames_exact h Small.busy (Small.busy_sane r.2)).1⟩

/-- Page 0 is freed. Then `pmm_alloc_page` takes it and answers that there is no page. -/
theorem page_zero_lost :
    let s := (frames.run Small.booted [.free 0]).1
    s.used 0 = false ∧ s.freePages = 5 ∧ (pmmAllocPage s).1 = 0 ∧ (pmmAllocPage s).2.used 0 = true ∧
      ¬AllocRight s := by
  have hfacts : (frames.run Small.booted [.free 0]).1.used 0 = false ∧
      (frames.run Small.booted [.free 0]).1.freePages = 5 ∧
      (frames.run Small.booted [.free 0]).1.total = 8 ∧
      (pmmAllocPage (frames.run Small.booted [.free 0]).1).1 = 0 ∧
      (pmmAllocPage (frames.run Small.booted [.free 0]).1).2.used 0 = true := by decide +kernel
  obtain ⟨hfree, hcount, htotal, hanswer, htaken⟩ := hfacts
  refine ⟨hfree, hcount, hanswer, htaken, fun hright => ?_⟩
  have hused := hright.none hanswer 0 (by rw [htotal]; decide)
  rw [hfree] at hused
  cases hused

end EmbLinkOs.Mm.Pmm
