import EmbLinkOs.Embkfs.Accounting

set_option autoImplicit false
set_option linter.unusedSectionVars false

/-! # Reading phases

An operation first reads. `Reading` is the judgement for such a phase: on every volume whose live
tree holds the items `its`, the program changes nothing but the position on the read tape, and its
result or its error satisfies the given predicate. `ex` is the proposition that no read fails; what
is found under a key is right in any case, that nothing was found may be due to a failed read
otherwise. -/

namespace EmbLinkOs.Embkfs

open List
open Prog hiding bind

open SortedMap

/-! ## The items as a file system -/

/-- The inode of an object. -/
def inodeOf (its : List (Key × Payload)) (oid : Nat) : Option Inode :=
  (find (inodeKey oid) its).bind Payload.inode?

/-- The chain of entries a name is filed in. -/
def chainOf (its : List (Key × Payload)) (dir : Nat) (name : List UInt8) : List Dirent :=
  ((find (direntKey dir name) its).bind Payload.dirents?).getD []

/-- The entry of a name. -/
def entryOf (its : List (Key × Payload)) (dir : Nat) (name : List UInt8) : Option Dirent :=
  (chainOf its dir name).find? (fun r => r.name = name)

/-- The object is a directory. -/
def IsDir (its : List (Key × Payload)) (oid : Nat) : Prop :=
  ∃ i, inodeOf its oid = some i ∧ i.fmt = modeDir

variable [Checksum Payload]

/-- The volume's live tree holds `its` and can be read, without faults if `ex` holds. -/
structure View (ex : Prop) (bs total : Nat) (its : List (Key × Payload)) (v : Vol Payload) :
    Prop where
  mirror : v.MirrorOk
  tree : ∃ nodes, v.TreeOk v.root its nodes
  blockSize : v.blockSize = bs
  totalBlocks : v.totalBlocks = total
  faults : ex → v.dev.readTape = []

section

variable {ex : Prop} {bs total : Nat} {its : List (Key × Payload)} {β γ : Type}

theorem View.step {v v' : Vol Payload} (h : View ex bs total its v) (hs : Vol.ReadOnlyStep v v') :
    View ex bs total its v' := by
  obtain ⟨nodes, ht⟩ := h.tree
  obtain ⟨t, r, hsuf, rfl⟩ := hs
  refine ⟨h.mirror, ⟨nodes, ht.shape, ht.sorted, ht.extents⟩, h.blockSize, h.totalBlocks, ?_⟩
  intro hex
  rw [h.faults hex] at hsuf
  exact suffix_nil.1 hsuf.1

theorem Vol.Consistent.view {v : Vol Payload} {L : Layout Payload} (h : v.Consistent L)
    (hex : ex → v.dev.readTape = []) : View ex v.blockSize v.totalBlocks L.items v :=
  ⟨h.mirror, ⟨_, h.tree⟩, rfl, rfl, hex⟩

/-- `m` only reads; its result satisfies `R`, its error `F`. -/
def Reading (ex : Prop) (bs total : Nat) (its : List (Key × Payload))
    (m : Prog (Vol Payload) Errno β) (R : β → Prop) (F : Errno → Prop) : Prop :=
  ∀ v, View ex bs total its v → wp m (fun a v' => Vol.ReadOnlyStep v v' ∧ R a)
    (fun e v' => Vol.ReadOnlyStep v v' ∧ F e) v

namespace Reading

variable {m : Prog (Vol Payload) Errno β} {R R' : β → Prop} {F F' : Errno → Prop} {S : γ → Prop}

theorem mono (h : Reading ex bs total its m R F) (hR : ∀ a, R a → R' a) (hF : ∀ e, F e → F' e) :
    Reading ex bs total its m R' F' :=
  fun v hv => wp_mono (h v hv) (fun _ _ ha => ⟨ha.1, hR _ ha.2⟩) (fun _ _ he => ⟨he.1, hF _ he.2⟩)

theorem pure {a : β} (h : R a) : Reading ex bs total its (Pure.pure a) R F :=
  fun v _ => ⟨.refl v, h⟩

theorem fail {e : Errno} (h : F e) : Reading ex bs total its (fail e) R F :=
  fun v _ => ⟨.refl v, h⟩

theorem bind {f : β → Prog (Vol Payload) Errno γ} (h : Reading ex bs total its m R F)
    (hf : ∀ a, R a → Reading ex bs total its (f a) S F) :
    Reading ex bs total its (m >>= f) S F := by
  intro v hv
  rw [wp_bind]
  refine wp_mono (h v hv) ?_ (fun _ _ he => he)
  intro a v' ha
  refine wp_mono (hf a ha.2 v' (hv.step ha.1)) ?_ ?_
  · intro b v'' hb
    exact ⟨ha.1.trans hb.1, hb.2⟩
  · intro e v'' he
    exact ⟨ha.1.trans he.1, he.2⟩

theorem get {f : Vol Payload → Prog (Vol Payload) Errno γ}
    (h : ∀ v, View ex bs total its v → Reading ex bs total its (f v) S F) :
    Reading ex bs total its (Prog.get >>= f) S F := by
  intro v hv
  rw [wp_bind]
  exact h v hv v hv

theorem attempt {f : Except Errno β → Prog (Vol Payload) Errno γ}
    (h : Reading ex bs total its m R F') (hok : ∀ a, R a → Reading ex bs total its (f (.ok a)) S F)
    (herr : ∀ e, F' e → Reading ex bs total its (f (.error e)) S F) :
    Reading ex bs total its (attempt m >>= f) S F := by
  intro v hv
  rw [wp_bind, wp_attempt]
  refine wp_mono (h v hv) ?_ ?_
  · intro a v' ha
    refine wp_mono (hok a ha.2 v' (hv.step ha.1)) ?_ ?_
    · intro b v'' hb
      exact ⟨ha.1.trans hb.1, hb.2⟩
    · intro e v'' he
      exact ⟨ha.1.trans he.1, he.2⟩
  · intro e v' he
    refine wp_mono (herr e he.2 v' (hv.step he.1)) ?_ ?_
    · intro b v'' hb
      exact ⟨he.1.trans hb.1, hb.2⟩
    · intro e v'' he'
      exact ⟨he.1.trans he'.1, he'.2⟩

theorem ite {c : Prop} [Decidable c] {m' : Prog (Vol Payload) Errno β}
    (h : c → Reading ex bs total its m R F) (h' : ¬ c → Reading ex bs total its m' R F) :
    Reading ex bs total its (if c then m else m') R F := by
  by_cases hc : c
  · rw [if_pos hc]
    exact h hc
  · rw [if_neg hc]
    exact h' hc

end Reading

end

/-! ## Items, inodes and entries -/

namespace Vol

section

variable {ex : Prop} {bs total dir : Nat} {its : List (Key × Payload)}

theorem wp_descendFrom {v : Vol Payload} (hm : v.MirrorOk) (key : Key) {l fuel : Nat}
    (hfuel : l < fuel) {p : BlockPtr} {bs : List Nat} (hw : WellFormed v.dev.view l p its bs)
    (hs : Sorted its) :
    wp (descendFrom fuel p key) (fun n v' => ReadOnlyStep v v' ∧ find key n.items = find key its)
      (fun _ v' => ReadOnlyStep v v') v := by
  induction l generalizing fuel p its bs v with
  | zero =>
    obtain ⟨n, hn, hlev, hits, -, -⟩ := hw
    obtain ⟨fuel, rfl⟩ := Nat.exists_eq_succ_of_ne_zero (Nat.ne_zero_of_lt hfuel)
    rw [descendFrom, wp_bind]
    refine wp_mono (wp_readNode hn hm) ?_ (fun _ _ h => h)
    intro n' v' h
    obtain ⟨rfl, hstep⟩ := h
    rw [if_pos hlev]
    exact ⟨hstep, by rw [hits]⟩
  | succ l ih =>
    obtain ⟨n, hn, hlev, kids, hslots, hkids, rfl, -⟩ := hw
    obtain ⟨fuel, rfl⟩ := Nat.exists_eq_succ_of_ne_zero (Nat.ne_zero_of_lt hfuel)
    rw [descendFrom, wp_bind]
    refine wp_mono (wp_readNode hn hm) ?_ (fun _ _ h => h)
    intro n' v' h
    obtain ⟨rfl, hstep⟩ := h
    rw [if_neg (by omega), hslots]
    rcases find_route hs (fun k hk => (hkids k hk).2) key with
      ⟨hnone, -⟩ | ⟨i, k, hi, hk, hfind⟩
    · rw [hnone]
      exact hstep
    · have hki : (kids.map Sub.slot)[i]? = some k.slot := by
        rw [getElem?_map, hk]
        rfl
      have hmem := mem_of_getElem? hk
      rw [hi, Option.bind_some, hki, hfind]
      have hw' : WellFormed v'.dev.view l k.slot.ptr k.items k.blocks := by
        rw [hstep.view_eq]
        exact (hkids k hmem).1
      refine wp_mono (ih (hstep.mirrorOk hm) (by omega) hw' (sorted_of_mem hs hmem)) ?_ ?_
      · intro n' v'' h
        exact ⟨hstep.trans h.1, h.2⟩
      · intro e v'' h
        exact hstep.trans h

/-- What a search returns is right; that it returns nothing is only when no read failed. -/
theorem reading_findItem (k : Key) (F : Errno → Prop) :
    Reading ex bs total its (findItem k)
      (fun r => (∀ x, r = some x → find k its = some x) ∧ (ex → r = find k its)) F := by
  intro v hv
  obtain ⟨nodes, ht⟩ := hv.tree
  obtain ⟨l, hl, hw, -⟩ := ht.shape
  by_cases hex : ex
  · rw [wp_run (findItem_eq (hv.faults hex) hv.mirror.fallbackOk (by unfold treeFuel; omega) hw
      ht.sorted k)]
    exact ⟨.refl v, fun x hx => hx, fun _ => rfl⟩
  · unfold findItem descendToLeaf
    simp only [wp_bind, wp_attempt, wp_get]
    refine wp_mono (wp_descendFrom hv.mirror k (by unfold treeFuel; omega) hw ht.sorted) ?_ ?_
    · intro n v' h
      refine ⟨h.1, fun x hx => ?_, fun h => absurd h hex⟩
      rw [← h.2, hx]
    · intro e v' h
      exact ⟨h, fun x hx => absurd hx (by simp), fun h => absurd h hex⟩

theorem reading_readInode (oid : Nat) :
    Reading ex bs total its (readInode oid) (fun i => inodeOf its oid = some i)
      (fun _ => ex → inodeOf its oid = none) := by
  unfold readInode
  refine (reading_findItem (inodeKey oid) _).bind ?_
  intro r hr
  cases r with
  | none => exact .fail (fun hex => by rw [inodeOf, ← hr.2 hex]; rfl)
  | some x =>
    have hfind := hr.1 x rfl
    dsimp only
    cases hx : x.inode? with
    | none => exact .fail (fun _ => by rw [inodeOf, hfind]; exact hx)
    | some i => exact .pure (by rw [inodeOf, hfind]; exact hx)

theorem reading_readDirInode (oid : Nat) :
    Reading ex bs total its (readDirInode oid)
      (fun i => inodeOf its oid = some i ∧ i.fmt = modeDir) (fun _ => ex → ¬ IsDir its oid) := by
  unfold readDirInode
  refine ((reading_readInode oid).mono (fun _ h => h) ?_).bind ?_
  · intro e he hex hd
    obtain ⟨i, hi, -⟩ := hd
    rw [he hex] at hi
    exact absurd hi (by simp)
  · intro i hi
    refine .ite (fun hne => .fail (fun _ hd => ?_)) (fun heq => .pure ⟨hi, not_not.1 heq⟩)
    obtain ⟨j, hj, hdir⟩ := hd
    rw [hi] at hj
    exact hne (Option.some.inj hj ▸ hdir)

theorem reading_readChain (dir : Nat) (name : List UInt8) (F : Errno → Prop) (hF : F .einval) :
    Reading ex bs total its (readChain dir name)
      (fun c => (∀ ds, c = some ds → chainOf its dir name = ds) ∧
        (ex → c.getD [] = chainOf its dir name)) F := by
  unfold readChain
  refine (reading_findItem (direntKey dir name) _).bind ?_
  intro r hr
  cases r with
  | none =>
    refine .pure ⟨fun ds hds => absurd hds (by simp), fun hex => ?_⟩
    rw [chainOf, ← hr.2 hex]
    rfl
  | some x =>
    have hfind := hr.1 x rfl
    dsimp only
    cases hx : x.dirents? with
    | none => exact .fail hF
    | some ds =>
      have hc : chainOf its dir name = ds := by
        rw [chainOf, hfind]
        exact congrArg (Option.getD · []) hx
      refine .pure ⟨fun ds' hds => ?_, fun _ => hc.symm⟩
      rw [hc, Option.some.inj hds]

theorem reading_lookup (dir : Nat) (name : List UInt8) :
    Reading ex bs total its (lookup dir name)
      (fun t => IsDir its dir ∧ ∃ r, entryOf its dir name = some r ∧ r.target = t)
      (fun e => ex → e = .enoent →
        inodeOf its dir = none ∨ (IsDir its dir ∧ entryOf its dir name = none)) := by
  unfold lookup
  refine ((reading_readInode dir).mono (fun _ h => h) (fun _ h hex _ => Or.inl (h hex))).bind ?_
  intro d hd
  refine .ite (fun _ => .fail (fun _ h => absurd h (by simp))) (fun hfmt => ?_)
  have hdir : IsDir its dir := ⟨d, hd, not_not.1 hfmt⟩
  refine (reading_readChain dir name _ (fun _ h => absurd h (by simp))).bind ?_
  intro c hc
  cases c with
  | none =>
    refine .fail (fun hex _ => Or.inr ⟨hdir, ?_⟩)
    rw [entryOf, ← hc.2 hex]
    rfl
  | some ds =>
    have hds := hc.1 ds rfl
    dsimp only
    cases hr : ds.find? (fun r => decide (r.name = name)) with
    | none => exact .fail (fun _ _ => Or.inr ⟨hdir, by rw [entryOf, hds]; exact hr⟩)
    | some r => exact .pure ⟨hdir, r, by rw [entryOf, hds]; exact hr, rfl⟩

theorem reading_direntAddOp (dir : Nat) (name : List UInt8) (target type : Nat) (F : Errno → Prop)
    (hF : ∀ e, F e) :
    Reading ex bs total its (direntAddOp dir name target type)
      (fun op => ∃ ds, op = (direntKey dir name, some (.dirents (ds ++ [⟨target, type, name⟩]))) ∧
        (ex → ds = chainOf its dir name ∧ entryOf its dir name = none)) F := by
  unfold direntAddOp
  refine (reading_readChain dir name _ (hF _)).bind ?_
  intro c hc
  refine .ite (fun _ => .fail (hF _)) (fun h => .pure ⟨c.getD [], rfl, fun hex => ⟨hc.2 hex, ?_⟩⟩)
  rw [entryOf, ← hc.2 hex, find?_eq_none]
  intro r hr hname
  exact h (any_eq_true.2 ⟨r, hr, hname⟩)

section Walks

variable {σ : Type} {oid ty : Nat} {stop : σ → Bool}
  {leaf : List (Key × Payload) → σ → Prog (Vol Payload) Errno σ} {F : Errno → Prop}
  (Inv : List (Key × Payload) → σ → Prop)

end Walks

/-- The entries of a directory. -/
def entriesOf (its : List (Key × Payload)) (dir : Nat) : List Dirent :=
  its.flatMap (fun e => if e.1.within dir typeDirEntry then e.2.dirents?.getD [] else [])

theorem entriesOf_append (l r : List (Key × Payload)) (dir : Nat) :
    entriesOf (l ++ r) dir = entriesOf l dir ++ entriesOf r dir := by
  simp [entriesOf]

theorem entriesOf_skip {l : List (Key × Payload)}
    (h : ∀ e ∈ l, e.1.within dir typeDirEntry = false) : entriesOf l dir = [] := by
  unfold entriesOf
  rw [flatMap_eq_nil_iff]
  intro e he
  simp [h e he]

/-- The search of `embkfs_dir_contains_oid` from a directory meets `needle`. -/
inductive Contains (its : List (Key × Payload)) (needle : Nat) : Nat → Prop
  | here {dir : Nat} {r : Dirent} : r ∈ entriesOf its dir → r.target = needle →
      Contains its needle dir
  | under {dir : Nat} {r : Dirent} : r ∈ entriesOf its dir → r.type = dtDir → r.target ≠ dir →
      r.target ≠ rootObjectId → Contains its needle r.target → Contains its needle dir

end

end Vol

end EmbLinkOs.Embkfs
