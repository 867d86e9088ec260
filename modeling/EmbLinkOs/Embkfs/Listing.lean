import EmbLinkOs.Embkfs.Names

set_option autoImplicit false
set_option linter.unusedSectionVars false

/-! # Listing a directory

`embkfs_list_dir` walks the part of the tree that holds a directory's entries and hands each one to a
callback; `embkfs_list_dir_page` wraps the callback in one that skips entries and stops after a number
of them. A lookup goes down to one chain instead. Over a tree whose names are in order both see the
same entries: `listing_complete`. -/

namespace EmbLinkOs.Embkfs

open List

open SortedMap Vol

variable {σ : Type}

/-! ## The model -/

/-- An `embkfs_dirent_cb`: the entry and the context before, the context after and the code it
    returns, `EMBK_OK` being 0. -/
abbrev DirentCb (σ : Type) : Type := Dirent → σ → σ × Int

/-- The entries of a chain, until the callback returns another code than `EMBK_OK`. -/
def visit (cb : DirentCb σ) : List Dirent → σ × Int → σ × Int
  | [], s => s
  | r :: rest, s => if s.2 ≠ 0 then s else visit cb rest (cb r s.1)

namespace Vol

variable [Checksum Payload]

/-- The leaf part of `embkfs_list_dir_rec`. -/
def listLeaf (dir : Nat) (cb : DirentCb σ) :
    List (Key × Payload) → σ × Int → Prog (Vol Payload) Errno (σ × Int)
  | [], s => pure s
  | e :: rest, s =>
    if s.2 ≠ 0 then pure s
    else if e.1.within dir typeDirEntry then
      match e.2.dirents? with
      | none => Prog.fail .einval
      | some ds => listLeaf dir cb rest (visit cb ds s)
    else listLeaf dir cb rest s

/-- `embkfs_list_dir_rec`: a code of the callback ends the walk and is returned. -/
def listDirRec (dir : Nat) (cb : DirentCb σ) (p : BlockPtr) (s : σ × Int) :
    Prog (Vol Payload) Errno (σ × Int) :=
  walkRange dir typeDirEntry (fun s => s.2 ≠ 0) (listLeaf dir cb) treeFuel p s

/-- `embkfs_list_dir`. -/
def listDir (dir : Nat) (cb : DirentCb σ) (ctx : σ) : Prog (Vol Payload) Errno (σ × Int) := do
  let _ ← readDirInode dir
  let v ← Prog.get
  listDirRec dir cb v.root (ctx, 0)

end Vol

/-- `EMBKFS_ITER_STOP`. -/
def iterStop : Int := 1

/-- `struct embkfs_page_ctx`, without what does not change. -/
structure PageCtx (σ : Type) where
  idx : Nat
  emitted : Nat
  user : σ

/-- `embkfs_page_cb`. -/
def pageCb (skip limit : Nat) (cb : DirentCb σ) : DirentCb (PageCtx σ) := fun r p =>
  if p.idx < skip then ({ p with idx := p.idx + 1 }, 0)
  else if limit ≤ p.emitted then (p, iterStop)
  else if (cb r p.user).2 ≠ 0 then ({ p with user := (cb r p.user).1 }, (cb r p.user).2)
  else (⟨p.idx + 1, p.emitted + 1, (cb r p.user).1⟩, 0)

/-- What `embkfs_list_dir_page` gives back: the context, `out_next_index`, `out_emitted` and the
    code. -/
structure Page (σ : Type) where
  user : σ
  next : Nat
  emitted : Nat
  code : Int

/-- `embkfs_list_dir_page`. -/
def Vol.listDirPage [Checksum Payload] (dir start max : Nat) (cb : DirentCb σ) (ctx : σ) :
    Prog (Vol Payload) Errno (Page σ) :=
  if max = 0 then pure ⟨ctx, start, 0, 0⟩
  else do
    let s ← listDir dir (pageCb start max cb) ⟨0, 0, ctx⟩
    pure ⟨s.1.user, start + s.1.emitted, s.1.emitted, if s.2 = iterStop then 0 else s.2⟩

/-- The callback that notes down its calls. -/
def note : DirentCb (List Dirent) := fun r s => (s ++ [r], 0)

/-- Pages of the given sizes, each from the index the last one ended at. -/
def Vol.listPages [Checksum Payload] (dir : Nat) :
    List Nat → Nat → List Dirent → Prog (Vol Payload) Errno (List Dirent)
  | [], _, seen => pure seen
  | size :: sizes, start, seen => do
    let p ← listDirPage dir start size note seen
    listPages dir sizes p.next p.user

/-! ## Calls of the callback -/

section

variable {cb : DirentCb σ}

theorem visit_stopped {s : σ × Int} (hs : s.2 ≠ 0) (ds : List Dirent) : visit cb ds s = s := by
  cases ds with
  | nil => rfl
  | cons r rest => rw [visit, if_pos hs]

theorem visit_cons (r : Dirent) (rest : List Dirent) (u : σ) :
    visit cb (r :: rest) (u, 0) = visit cb rest (cb r u) := by
  rw [visit, if_neg (by simp)]

theorem visit_append (l r : List Dirent) (s : σ × Int) :
    visit cb (l ++ r) s = visit cb r (visit cb l s) := by
  induction l generalizing s with
  | nil => rfl
  | cons x l ih =>
    rw [cons_append, visit, visit]
    split
    next hs => rw [visit_stopped hs]
    next => exact ih _

theorem visit_note (ds seen : List Dirent) : visit note ds (seen, 0) = (seen ++ ds, 0) := by
  induction ds generalizing seen with
  | nil => simp [visit]
  | cons r rest ih =>
    rw [visit_cons, note, ih]
    simp

section

variable {skip limit idx : Nat}

theorem pageCb_skip (h : idx < skip) (r : Dirent) (emitted : Nat) (u : σ) :
    pageCb skip limit cb r ⟨idx, emitted, u⟩ = (⟨idx + 1, emitted, u⟩, 0) := if_pos h

theorem pageCb_full (h : skip ≤ idx) (r : Dirent) (u : σ) :
    pageCb skip limit cb r ⟨idx, limit, u⟩ = (⟨idx, limit, u⟩, iterStop) := by
  simp [pageCb, Nat.not_lt.2 h]

theorem pageCb_note (h : skip ≤ idx) {emitted : Nat} (he : emitted < limit) (r : Dirent)
    (seen : List Dirent) :
    pageCb skip limit note r ⟨idx, emitted, seen⟩ = (⟨idx + 1, emitted + 1, seen ++ [r]⟩, 0) := by
  simp [pageCb, note, Nat.not_lt.2 h, Nat.not_le.2 he]

/-- Entries before the start of the page are counted only. -/
theorem visit_skip {ds : List Dirent} (h : idx + ds.length ≤ skip) (emitted : Nat) (u : σ) :
    visit (pageCb skip limit cb) ds (⟨idx, emitted, u⟩, 0) = (⟨idx + ds.length, emitted, u⟩, 0) := by
  induction ds generalizing idx with
  | nil => rfl
  | cons r rest ih =>
    rw [length_cons] at h ⊢
    rw [visit_cons, pageCb_skip (by omega), ih (by omega), Nat.add_assoc, Nat.add_comm 1]

/-- From there on the page takes entries until it is full. -/
theorem visit_page {ds seen : List Dirent} {emitted : Nat} (hidx : skip ≤ idx) (he : emitted ≤ limit) :
    visit (pageCb skip limit note) ds (⟨idx, emitted, seen⟩, 0) =
      (⟨idx + (ds.take (limit - emitted)).length, emitted + (ds.take (limit - emitted)).length,
        seen ++ ds.take (limit - emitted)⟩, if limit - emitted < ds.length then iterStop else 0) := by
  induction ds generalizing idx emitted seen with
  | nil => simp [visit]
  | cons r rest ih =>
    rw [visit_cons]
    rcases Nat.lt_or_eq_of_le he with hroom | rfl
    · obtain ⟨room, hr⟩ : ∃ room, limit - emitted = room + 1 := ⟨limit - emitted - 1, by omega⟩
      have hr' : limit - (emitted + 1) = room := by omega
      rw [pageCb_note hidx hroom, ih (by omega) hroom, hr, hr']
      simp [Nat.add_assoc, Nat.add_comm 1]
    · rw [pageCb_full hidx, visit_stopped (by simp [iterStop])]
      simp

end

/-- A page of a sequence of entries. -/
theorem visit_pageCb (ds seen : List Dirent) (start limit : Nat) :
    (visit (pageCb start limit note) ds (⟨0, 0, seen⟩, 0)).1.user = seen ++ (ds.drop start).take limit ∧
      (visit (pageCb start limit note) ds (⟨0, 0, seen⟩, 0)).1.emitted
        = ((ds.drop start).take limit).length ∧
      ((visit (pageCb start limit note) ds (⟨0, 0, seen⟩, 0)).2 = iterStop ∨
        (visit (pageCb start limit note) ds (⟨0, 0, seen⟩, 0)).2 = 0) := by
  have hsplit : visit (pageCb start limit note) ds (⟨0, 0, seen⟩, 0) =
      visit (pageCb start limit note) (ds.drop start) (⟨(ds.take start).length, 0, seen⟩, 0) := by
    conv_lhs => rw [← take_append_drop start ds]
    rw [visit_append, visit_skip (by simp), Nat.zero_add]
  rw [hsplit]
  by_cases hlen : start ≤ ds.length
  · rw [visit_page (by simp [hlen]) (Nat.zero_le _)]
    refine ⟨by simp, by simp, ?_⟩
    split
    · exact Or.inl rfl
    · exact Or.inr rfl
  · rw [drop_eq_nil_of_le (by omega)]
    exact ⟨by simp [visit], by simp [visit], Or.inr rfl⟩

end

/-! ## Over a well-formed tree -/

section

variable [Checksum Payload] {v : Vol Payload} {its : List (Key × Payload)} {dir : Nat}

/-- The tree of the volume is well formed, holds `its` and can be read, and its directories' names
    are in order. -/
structure Vol.Readable (v : Vol Payload) (its : List (Key × Payload)) : Prop where
  tape : v.dev.readTape = []
  fallback : v.FallbackOk
  shape : ∃ l bs, l < treeFuel ∧ WellFormed v.dev.view l v.root its bs ∧ Slotted v.dev.view l v.root
  sorted : Sorted its
  names : NamesOk its

theorem Vol.Consistent.readable {L : Layout Payload} (h : v.Consistent L) (ht : v.dev.readTape = [])
    (hn : NamesOk L.items) : v.Readable L.items := by
  obtain ⟨l, hl, hw, hfan⟩ := h.tree.shape
  exact ⟨ht, h.mirror.fallbackOk, ⟨l, _, by unfold treeFuel; omega, hw, slotted_of_fan (by decide) hfan⟩,
    h.tree.sorted, hn⟩

theorem Vol.Readable.findItem_eq (h : v.Readable its) (k : Key) : findItem k v = (.ok (find k its), v) := by
  obtain ⟨l, bs, hl, hw, -⟩ := h.shape
  exact Vol.findItem_eq h.tape h.fallback hl hw h.sorted k

theorem Vol.Readable.readInode_eq (h : v.Readable its) {i : Inode} (hi : inodeOf its dir = some i) :
    readInode dir v = (.ok i, v) := by
  obtain ⟨x, hx, hxi⟩ := Option.bind_eq_some_iff.1 hi
  simp only [readInode, bind, Prog.bind, h.findItem_eq, hx, hxi]
  rfl

theorem Vol.Readable.lookup_eq (h : v.Readable its) (hd : IsDir its dir) (name : List UInt8) :
    lookup dir name v =
      ((entryOf its dir name).elim (.error .enoent) (fun r => .ok r.target), v) := by
  obtain ⟨i, hi, hfmt⟩ := hd
  simp only [lookup, bind, Prog.bind, h.readInode_eq hi, hfmt, ne_eq, not_true_eq_false, if_false,
    readChain, h.findItem_eq]
  cases hf : find (direntKey dir name) its with
  | none =>
    simp only [pure, Prog.fail, entryOf, chainOf, hf]
    rfl
  | some x =>
    obtain ⟨ds, hds, -⟩ := h.names.filed _ (mem_of_find hf) rfl
    have hx : x.dirents? = some ds := hds
    simp only [hx, pure, entryOf, chainOf, hf, Option.bind_some, Option.getD_some]
    cases ds.find? (fun r => decide (r.name = name)) <;> rfl

/-- The leaf work, on items that are chains where the key says so. -/
theorem listLeaf_eq (cb : DirentCb σ) {part : List (Key × Payload)}
    (hG : ∀ e ∈ part, e.1.type = typeDirEntry → ∃ ds, e.2.dirents? = some ds) (s : σ × Int)
    (v : Vol Payload) : listLeaf dir cb part s v = (.ok (visit cb (entriesOf part dir) s), v) := by
  induction part generalizing s with
  | nil => rfl
  | cons e rest ih =>
    have hrest : ∀ s, listLeaf dir cb rest s v = (.ok (visit cb (entriesOf rest dir) s), v) :=
      ih (fun x hx => hG x (by simp [hx]))
    rw [← singleton_append, entriesOf_append, visit_append, singleton_append, listLeaf]
    by_cases hs : s.2 ≠ 0
    · rw [if_pos hs, visit_stopped hs, visit_stopped hs]
      rfl
    · rw [if_neg hs]
      by_cases hw : e.1.within dir typeDirEntry = true
      · have hty : e.1.type = typeDirEntry := by
          simp only [Key.within, Bool.and_eq_true, decide_eq_true_eq] at hw
          exact hw.2
        obtain ⟨ds, hds⟩ := hG e (by simp) hty
        have hone : entriesOf [e] dir = ds := by simp [entriesOf, hw, hds]
        rw [if_pos hw, hone, hds]
        exact hrest _
      · rw [if_neg hw, entriesOf_skip (l := [e]) (by simpa using hw)]
        exact hrest s

/-- **Listing.** The callback is called for the directory's entries, in order, until it returns a
    code. -/
theorem Vol.Readable.listDir_eq (h : v.Readable its) (hd : IsDir its dir) (cb : DirentCb σ) (ctx : σ) :
    listDir dir cb ctx v = (.ok (visit cb (entriesOf its dir) (ctx, 0)), v) := by
  obtain ⟨l, bs, hl, hw, hslot⟩ := h.shape
  have hwalk : Prog.wp (listDirRec dir cb v.root (ctx, 0))
      (fun s v' => v' = v ∧ s = visit cb (entriesOf ([] ++ its) dir) (ctx, 0)) (fun _ _ => False) v := by
    refine wp_walkRange (fun v' => v' = v) _
      (fun e => e.1.type = typeDirEntry → ∃ ds, e.2.dirents? = some ds)
      (fun done s => s = visit cb (entriesOf done dir) (ctx, 0)) ?_ ?_ ?_ ?_ hl hw hslot h.sorted ?_ rfl rfl
    · rintro _ rfl p n hn
      rw [Prog.wp_run (readNode_eq h.tape hn h.fallback)]
      exact ⟨rfl, rfl⟩
    · rintro _ rfl done part s hG rfl
      rw [Prog.wp_run (listLeaf_eq cb hG _ _), entriesOf_append, visit_append]
      exact ⟨rfl, rfl⟩
    · rintro done part s rfl hskip
      rw [entriesOf_append, entriesOf_skip hskip, append_nil]
    · rintro done part s hstop rfl
      rw [entriesOf_append, visit_append,
        visit_stopped (s := visit cb (entriesOf done dir) (ctx, 0)) (by simpa using hstop)]
    · intro e he hty
      obtain ⟨ds, hds, -⟩ := h.names.filed e he hty
      exact ⟨ds, hds⟩
  have hrun : listDirRec dir cb v.root (ctx, 0) v
      = (.ok (visit cb (entriesOf its dir) (ctx, 0)), v) := by
    rcases hr : listDirRec dir cb v.root (ctx, 0) v with ⟨r, v'⟩
    cases r with
    | error e => exact (Prog.wp_error hwalk hr).elim
    | ok s =>
      obtain ⟨rfl, rfl⟩ := Prog.wp_ok hwalk hr
      rfl
  obtain ⟨i, hi, hfmt⟩ := hd
  simp only [listDir, readDirInode, bind, Prog.bind, h.readInode_eq hi, Prog.get]
  rw [if_neg (not_not.2 hfmt)]
  exact hrun

theorem Vol.Readable.listDirPage_eq (h : v.Readable its) (hd : IsDir its dir) (start max : Nat)
    (seen : List Dirent) :
    listDirPage dir start max note seen v =
      (.ok ⟨seen ++ ((entriesOf its dir).drop start).take max,
        start + (((entriesOf its dir).drop start).take max).length,
        (((entriesOf its dir).drop start).take max).length, 0⟩, v) := by
  unfold listDirPage
  by_cases hmax : max = 0
  · rw [if_pos hmax, hmax]
    simp [pure]
  · rw [if_neg hmax]
    obtain ⟨huser, hemit, hcode⟩ := visit_pageCb (entriesOf its dir) seen start max
    simp only [bind, Prog.bind, h.listDir_eq hd, pure, huser, hemit]
    rcases hcode with hcode | hcode
    · rw [hcode, if_pos rfl]
    · rw [hcode, if_neg (by decide)]

theorem Vol.Readable.listPages_eq (h : v.Readable its) (hd : IsDir its dir) (sizes : List Nat)
    (start : Nat) (seen : List Dirent) :
    listPages dir sizes start seen v =
      (.ok (seen ++ ((entriesOf its dir).drop start).take sizes.sum), v) := by
  induction sizes generalizing start seen with
  | nil => simp [listPages, pure]
  | cons size sizes ih =>
    -- the next page starts behind the entries of this one, whether it was full or not
    have hnext : ∀ xs : List Dirent, xs.drop (xs.take size).length = xs.drop size := by
      intro xs
      rcases Nat.le_total size xs.length with hle | hle
      · rw [length_take, Nat.min_eq_left hle]
      · rw [take_of_length_le hle, drop_length, drop_eq_nil_of_le hle]
    simp only [listPages, bind, Prog.bind, h.listDirPage_eq hd]
    rw [ih, sum_cons, take_add, append_assoc, ← drop_drop, hnext]

/-- An entry and what a lookup of its name gives. -/
theorem Vol.Readable.lookup_eq_ok (h : v.Readable its) (hd : IsDir its dir) {name : List UInt8}
    {target : Nat} :
    (lookup dir name v).1 = .ok target ↔ ∃ r ∈ entriesOf its dir, r.name = name ∧ r.target = target := by
  rw [h.lookup_eq hd]
  constructor
  · intro hok
    cases he : entryOf its dir name with
    | none =>
      rw [he] at hok
      cases hok
    | some r =>
      rw [he] at hok
      obtain ⟨hr, hname⟩ := (h.names.entryOf_eq_some h.sorted).1 he
      exact ⟨r, hr, hname, Except.ok.inj hok⟩
  · rintro ⟨r, hr, hname, rfl⟩
    rw [(h.names.entryOf_eq_some h.sorted).2 ⟨hr, hname⟩]
    rfl

/-- The calls made for a name and a target, in a listing. -/
def callsFor (name : List UInt8) (target : Nat) (seq : List Dirent) : Nat :=
  seq.countP (fun r => r.name = name && r.target = target)

theorem Vol.Readable.callsFor_le_one (h : v.Readable its) (name : List UInt8) (target : Nat) :
    callsFor name target (entriesOf its dir) ≤ 1 := by
  have hname : callsFor name target (entriesOf its dir) ≤
      ((entriesOf its dir).map Dirent.name).count name := by
    rw [List.count, countP_map]
    refine countP_mono_left fun r _ hr => ?_
    simp only [Bool.and_eq_true, decide_eq_true_eq] at hr
    simp [hr.1]
  exact hname.trans (nodup_iff_count_le_one.1 (h.names.nodup h.sorted dir) name)

/-- **A listing is complete.** Over a well-formed tree, the callback of `embkfs_list_dir` is called
    once for each name and target that `embkfs_lookup` finds, and for nothing else; a page is the part
    of that sequence its start and size say, and the pages from index 0 on, of whatever sizes, make up
    the sequence. -/
theorem listing_complete (h : v.Readable its) (hd : IsDir its dir) :
    ∃ seq, listDir dir note [] v = (.ok (seq, 0), v) ∧
      (∀ name target, (lookup dir name v).1 = .ok target → callsFor name target seq = 1) ∧
      (∀ name target, (lookup dir name v).1 ≠ .ok target → callsFor name target seq = 0) ∧
      (∀ start max, listDirPage dir start max note [] v =
        (.ok ⟨(seq.drop start).take max, start + ((seq.drop start).take max).length,
          ((seq.drop start).take max).length, 0⟩, v)) ∧
      (∀ sizes, seq.length ≤ sizes.sum → listPages dir sizes 0 [] v = (.ok seq, v)) := by
  refine ⟨entriesOf its dir, ?_, ?_, ?_, ?_, ?_⟩
  · rw [h.listDir_eq hd, visit_note, nil_append]
  · intro name target hok
    obtain ⟨r, hr, hname, htarget⟩ := (h.lookup_eq_ok hd).1 hok
    refine Nat.le_antisymm (h.callsFor_le_one name target) (countP_pos_iff.2 ⟨r, hr, ?_⟩)
    simp [hname, htarget]
  · intro name target hne
    refine countP_eq_zero.2 fun r hr hcall => hne ?_
    simp only [Bool.and_eq_true, decide_eq_true_eq] at hcall
    exact (h.lookup_eq_ok hd).2 ⟨r, hr, hcall⟩
  · intro start max
    rw [h.listDirPage_eq hd, nil_append]
  · intro sizes hlen
    rw [h.listPages_eq hd, drop_zero, take_of_length_le hlen, nil_append]

end

/-- The root directory of the files `a` and `b`. -/
theorem listing_complete_twoFiles : Anyhow fun _ _ =>
    ∃ seq, listDir 1 note [] twoFilesVol = (.ok (seq, 0), twoFilesVol) ∧
      (∀ name target, (lookup 1 name twoFilesVol).1 = .ok target → callsFor name target seq = 1) ∧
      (∀ name target, (lookup 1 name twoFilesVol).1 ≠ .ok target → callsFor name target seq = 0) ∧
      (∀ start max, listDirPage 1 start max note [] twoFilesVol =
        (.ok ⟨(seq.drop start).take max, start + ((seq.drop start).take max).length,
          ((seq.drop start).take max).length, 0⟩, twoFilesVol)) ∧
      (∀ sizes, seq.length ≤ sizes.sum → listPages 1 sizes 0 [] twoFilesVol = (.ok seq, twoFilesVol)) := by
  intro _ _
  refine listing_complete (consistent_twoFilesVol.readable ?_ namesOk_twoFiles)
    ⟨sampleInode (modeDir ||| permDir) 2 0, by decide +kernel, by decide⟩
  cbv

end EmbLinkOs.Embkfs
