import EmbLinkOs.Vfs.Walk

set_option autoImplicit false

/-! # Resolution of a path

`vfs_resolve_ex` and `vfs_resolve_nofollow` of `kernel/fs/vfs.c`, with the mount table and the
namespace they choose a start from. The two differ in the walk, which follows a link in the final
position or does not (`walk_of_no_final_link`, `walk_of_final_link`), and in one step of the choice:
only the first looks for a mount that is deeper than the binding. Where there is none they start at the
same object, and then they agree (`vfs_resolve_agrees`). -/

namespace EmbLinkOs.Vfs

/-! ## The walk as a function -/

/-- `vfs_walk_from_ex` from some turn on. The bound is enough (`walk_eq`). -/
def Textual.walk (fs : Files) (followFinal : Bool) (t : Textual) : Except Int Vnode :=
  (turnsText fs followFinal t.bound t).2.getD (.error eLoop)

/-- `vfs_walk_from_ex`. -/
def vfsWalkFromEx (fs : Files) (start : Vnode) (rel : Bytes) (followFinal : Bool) : Except Int Vnode :=
  (Textual.enter start rel).walk fs followFinal

section Walk

variable {fs : Files} {start : Vnode} {t t' : Textual} {followFinal : Bool}

theorem turnsText_mono {n : Nat} {r : Except Int Vnode}
    (h : turnsText fs followFinal n t = (t', some r)) {k : Nat} (hk : n ≤ k) :
    turnsText fs followFinal k t = (t', some r) := by
  induction n generalizing t k with
  | zero => simp [turnsText] at h
  | succ n ih =>
    obtain ⟨k, rfl⟩ : ∃ j, k = j + 1 := ⟨k - 1, by omega⟩
    rw [turnsText] at h ⊢
    split at h
    next t₁ r₁ hturn => exact h
    next t₁ hturn => exact ih h (by omega)

/-- Any number of turns from the bound on gives the walk's result. -/
theorem walk_eq (followFinal : Bool) (h : t.Contained fs start) {n : Nat} (hn : t.bound ≤ n) :
    (turnsText fs followFinal n t).2 = some (t.walk fs followFinal) := by
  obtain ⟨t', r, hrun, -⟩ := turnsText_returned followFinal h le_rfl
  rw [Textual.walk, hrun, turnsText_mono hrun hn]
  rfl

theorem walk_of_ret {r : Except Int Vnode} (hturn : turnText fs followFinal t = .ret t' r) :
    t.walk fs followFinal = r := by
  simp [Textual.walk, Textual.bound, turnsText, hturn]

theorem walk_of_next (h : t.Contained fs start) (hturn : turnText fs followFinal t = .next t') :
    t.walk fs followFinal = t'.walk fs followFinal := by
  have hgood := turnText_good followFinal h
  rw [hturn] at hgood
  obtain ⟨n, hn⟩ : ∃ n, t.bound = n + 1 := ⟨_, rfl⟩
  have hrun := walk_eq (n := n) followFinal hgood.1 (by have := hgood.2; omega)
  rw [Textual.walk, hn, turnsText, hturn]
  simp only [hrun, Option.getD_some]

theorem contained_of_next (h : t.Contained fs start)
    (hturn : turnText fs followFinal t = .next t') :
    t'.Contained fs start ∧ t'.bound < t.bound := by
  have hgood := turnText_good followFinal h
  rwa [hturn] at hgood

end Walk

/-- The function returns what the walk along the text returns. -/
theorem vfs_walk_from_ex_eq (fs : Files) (followFinal : Bool) (start : Vnode) (rel : CString)
    (bufs : Bool → Vector UInt8 pathBuf) :
    ∃ w₀ w n, Walker.enter start rel bufs = some w₀ ∧
      turns fs followFinal n w₀ = some (w, some (vfsWalkFromEx fs start rel.bytes followFinal)) := by
  obtain ⟨w₀, henter, hholds⟩ := Walker.enter_holds start rel bufs
  obtain ⟨w, hw, -⟩ := turns_refine fs followFinal hholds (Textual.enter start rel.bytes).bound
  rw [walk_eq followFinal (Textual.enter_contained fs start rel.bytes) le_rfl] at hw
  exact ⟨w₀, w, _, henter, hw⟩

/-! ## Walks that differ in what they have done -/

/-- The same trail and text; the first walk has followed `k` links more. -/
structure Like (k : Nat) (t u : Textual) : Prop where
  top : t.top = u.top
  below : t.below = u.below
  text : t.text = u.text
  nlinks : t.nlinks = u.nlinks + k

/-- The two turns do the same, unless the first has no link left. -/
def Turn.Like (k : Nat) (x y : Turn Textual) : Prop :=
  (∃ t u, x = .next t ∧ y = .next u ∧ Vfs.Like k t u) ∨ (∃ t u r, x = .ret t r ∧ y = .ret u r) ∨
    k ≠ 0 ∧ ∃ t, x = .ret t (.error eLoop)

section Like

variable {k : Nat} {t u : Textual} {fs : Files}

theorem Turn.Like.ret {r : Except Int Vnode} : Turn.Like k (.ret t r) (.ret u r) := .inr (.inl ⟨t, u, r, rfl, rfl⟩)

theorem Turn.Like.next (h : Vfs.Like k t u) : Turn.Like k (.next t) (.next u) := .inl ⟨t, u, rfl, rfl, h⟩

theorem Like.follow (h : Like k t u) (path : Bytes) : Like k (t.follow path) (u.follow path) := by
  have hstart : t.start = u.start := by rw [Textual.start, Textual.start, h.top, h.below]
  unfold Textual.follow
  split
  · exact { h with top := hstart, below := rfl, text := rfl }
  · exact { h with text := rfl }

theorem Like.up (h : Like k t u) : Like k t.up u.up := by
  unfold Textual.up
  rw [← h.below]
  split
  · exact h
  · exact { h with top := rfl, below := rfl }

theorem spliceText_like (h : Like k t u) (child : Vnode) (rest : Bytes) :
    (spliceText fs t child rest).Like k (spliceText fs u child rest) := by
  simp only [spliceText]
  by_cases hloop : maxSymlinks < u.nlinks + 1
  · have hloop' : maxSymlinks < t.nlinks + 1 := by
      have := h.nlinks
      omega
    simp only [if_pos hloop, if_pos hloop']
    exact .ret
  by_cases hloop' : maxSymlinks < t.nlinks + 1
  · simp only [if_pos hloop']
    refine .inr (.inr ⟨?_, _, rfl⟩)
    have := h.nlinks
    omega
  simp only [if_neg hloop, if_neg hloop']
  have hcounted : ∀ tr tr' : List Call, Like k { t with nlinks := t.nlinks + 1, trace := tr }
      { u with nlinks := u.nlinks + 1, trace := tr' } := fun _ _ =>
    { top := h.top, below := h.below, text := h.text, nlinks := by simp only [h.nlinks]; omega }
  cases fs.readlink child with
  | none => exact .ret
  | some readlink =>
    simp only
    cases readlink child with
    | error e => exact .ret
    | ok target =>
      simp only [resumeText]
      split
      · exact .ret
      split
      · exact .ret
      · exact .next ((hcounted _ _).follow _)

theorem turnText_like (fs : Files) (followFinal : Bool) (h : Like k t u) :
    (turnText fs followFinal t).Like k (turnText fs followFinal u) := by
  unfold turnText
  rw [← h.text]
  split
  · rw [h.top]
    exact .ret
  split
  · exact .ret
  split
  · exact .next { h with text := rfl }
  split
  · exact .next { h.up with text := rfl }
  unfold nameText
  rw [← h.top, ← h.below, ← h.text]
  cases fs.lookup t.top with
  | none => exact .ret
  | some lookup =>
    simp only
    split
    · exact .ret
    cases lookup t.top (component t.text) with
    | error e => exact .ret
    | ok child =>
      simp only
      split
      · refine spliceText_like ?_ child _
        exact { top := rfl, below := rfl, text := rfl, nlinks := h.nlinks }
      · exact .next { h with top := rfl, below := rfl, text := rfl }

/-- The walks have one result, unless the first runs out of links. -/
theorem walk_like {a b : Vnode} (followFinal : Bool) (ht : t.Contained fs a) (hu : u.Contained fs b)
    (h : Like k t u) : t.walk fs followFinal = u.walk fs followFinal ∨
      k ≠ 0 ∧ t.walk fs followFinal = .error eLoop := by
  induction hn : t.bound using Nat.strong_induction_on generalizing t u with
  | _ n ih =>
    obtain ⟨t', u', hx, hy, hlike⟩ | ⟨t', u', r, hx, hy⟩ | ⟨hk, t', hx⟩ :=
      turnText_like fs followFinal h
    · obtain ⟨ht', hlt⟩ := contained_of_next ht hx
      rw [walk_of_next ht hx, walk_of_next hu hy]
      exact ih t'.bound (hn ▸ hlt) ht' (contained_of_next hu hy).1 hlike rfl
    · exact .inl (by rw [walk_of_ret hx, walk_of_ret hy])
    · exact .inr ⟨hk, walk_of_ret hx⟩

end Like

/-! ## A link in the final position -/

/-- The walk stands at its final component, a name, and the directory knows it as a link. -/
structure FinalLink (fs : Files) (t : Textual) (child : Vnode) : Prop where
  name : component t.text ≠ [] ∧ (component t.text).length ≤ 255 ∧ component t.text ≠ [dot] ∧
    component t.text ≠ [dot, dot]
  final : behind t.text = []
  depth : t.below.length + 1 < maxDepth
  found : ∃ lookup, fs.lookup t.top = some lookup ∧ lookup t.top (component t.text) = .ok child
  link : child.type = dtLnk

/-- What the turns of a walk that does not follow a final link lead to. -/
inductive Reaches (fs : Files) (t : Textual) : Textual → Prop
  | refl : Reaches fs t t
  | next {u v : Textual} : Reaches fs t u → turnText fs false u = .next v → Reaches fs t v

/-- What following the link `child` gives, met at `t`: the target is walked from the directory that
holds the link, or from the start where it begins with a slash, and the links followed so far count. -/
def targetWalk (fs : Files) (t : Textual) (child : Vnode) : Except Int Vnode :=
  if maxSymlinks ≤ t.nlinks then .error eLoop
  else
    match fs.readlink child with
    | none => .error eNosys
    | some readlink =>
      match readlink child with
      | .error e => .error e
      | .ok target =>
        if target.length = 0 ∨ pathBuf ≤ target.length then .error eInval
        else if target.length = pathBuf - 1 then .error eNameTooLong
        else (Textual.follow { t with nlinks := t.nlinks + 1 } target).walk fs true

section Final

variable {fs : Files} {start child : Vnode} {t : Textual}

theorem text_ne_nil_of_component (h : component t.text ≠ []) : t.text ≠ [] := by
  rintro h0
  simp [h0, component] at h

theorem turnText_name (hname : component t.text ≠ [] ∧ (component t.text).length ≤ 255 ∧
    component t.text ≠ [dot] ∧ component t.text ≠ [dot, dot]) (followFinal : Bool) :
    turnText fs followFinal t = nameText fs followFinal t := by
  obtain ⟨hne, hlen, hdot, hdots⟩ := hname
  have hgood : ¬ (component t.text = [] ∨ 255 < (component t.text).length) := by
    rintro (h | h)
    · exact hne h
    · omega
  rw [turnText, if_neg (text_ne_nil_of_component hne), if_neg hgood, if_neg hdot, if_neg hdots]

/-- Only at a link in the final position do the two walks take different turns. -/
theorem turnText_of_not_final (h : ∀ child, ¬ FinalLink fs t child) :
    turnText fs true t = turnText fs false t := by
  by_cases hname : component t.text ≠ [] ∧ (component t.text).length ≤ 255 ∧ component t.text ≠ [dot] ∧
      component t.text ≠ [dot, dot]
  · rw [turnText_name hname, turnText_name hname]
    unfold nameText
    cases hlookup : fs.lookup t.top with
    | none => rfl
    | some lookup =>
      by_cases hdeep : maxDepth ≤ t.below.length + 1
      · simp only [if_pos hdeep]
      simp only [if_neg hdeep]
      cases hchild : lookup t.top (component t.text) with
      | error e => rfl
      | ok child =>
        by_cases hlink : child.type = dtLnk
        · have hbehind : behind t.text ≠ [] := fun hfinal =>
            h child ⟨hname, hfinal, not_le.1 hdeep, ⟨lookup, hlookup, hchild⟩, hlink⟩
          simp [hbehind]
        · simp [hlink]
  · -- a component that is no name is treated before the walks differ
    have hcases : component t.text = [] ∨ 255 < (component t.text).length ∨ component t.text = [dot] ∨
        component t.text = [dot, dot] := by
      by_contra hnot
      simp only [not_or, not_lt] at hnot
      exact hname hnot
    unfold turnText
    rcases hcases with hc | hc | hc | hc
    · simp [hc]
    · simp [hc]
    · simp [hc]
    · simp [hc, dot]

theorem FinalLink.nofollow (h : FinalLink fs t child) :
    ∃ u, turnText fs false t = .next u ∧ u.text = [] ∧ u.top = child := by
  obtain ⟨lookup, hlookup, hchild⟩ := h.found
  rw [turnText_name h.name]
  refine ⟨{ t with top := child, below := t.top :: t.below, text := behind t.text,
                   trace := t.trace ++ [.lookup t.top (component t.text)] }, ?_, h.final, rfl⟩
  have hdeep : ¬ maxDepth ≤ t.below.length + 1 := not_le.2 h.depth
  simp [nameText, hlookup, hdeep, hchild, h.final]

theorem FinalLink.walk_nofollow (hc : t.Contained fs start) (h : FinalLink fs t child) :
    t.walk fs false = .ok child := by
  obtain ⟨u, hturn, htext, htop⟩ := h.nofollow
  have hend : turnText fs false u = .ret u (.ok u.top) := by simp [turnText, htext]
  rw [walk_of_next hc hturn, walk_of_ret hend, htop]

theorem joined_nil (target : Bytes) : joined target [] = target := by simp [joined]

/-- A link is followed as its target is walked. -/
theorem FinalLink.walk_follow (hc : t.Contained fs start) (h : FinalLink fs t child) :
    t.walk fs true = targetWalk fs t child := by
  obtain ⟨lookup, hlookup, hchild⟩ := h.found
  have hdeep : ¬ maxDepth ≤ t.below.length + 1 := not_le.2 h.depth
  have hturn : turnText fs true t =
      spliceText fs { t with trace := t.trace ++ [.lookup t.top (component t.text)] } child [] := by
    rw [turnText_name h.name]
    simp [nameText, hlookup, hdeep, hchild, h.final, h.link]
  simp only [spliceText, joined_nil] at hturn
  unfold targetWalk
  by_cases hloop : maxSymlinks ≤ t.nlinks
  · rw [if_pos (Nat.lt_succ_of_le hloop)] at hturn
    rw [if_pos hloop, walk_of_ret hturn]
  rw [if_neg (by omega)] at hturn
  rw [if_neg hloop]
  cases hread : fs.readlink child with
  | none =>
    rw [hread] at hturn
    exact walk_of_ret hturn
  | some readlink =>
    rw [hread] at hturn
    simp only at hturn ⊢
    cases htarget : readlink child with
    | error e =>
      rw [htarget] at hturn
      exact walk_of_ret hturn
    | ok target =>
      rw [htarget] at hturn
      simp only [resumeText] at hturn
      by_cases hbad : target.length = 0 ∨ pathBuf ≤ target.length
      · rw [if_pos hbad] at hturn
        simp only [if_pos hbad, walk_of_ret hturn]
      rw [if_neg hbad] at hturn
      simp only [if_neg hbad]
      by_cases hlong : target.length = pathBuf - 1
      · rw [if_pos hlong.ge] at hturn
        rw [if_pos hlong, walk_of_ret hturn]
      rw [if_neg (by simp only [pathBuf] at hbad hlong ⊢; omega)] at hturn
      rw [if_neg hlong, walk_of_next hc hturn]
      -- what is left of the difference is the trace
      have hlike (trace : List Call) : Like 0 { t with nlinks := t.nlinks + 1, trace }
          { t with nlinks := t.nlinks + 1 } := { top := rfl, below := rfl, text := rfl, nlinks := rfl }
      obtain heq | ⟨h0, -⟩ := walk_like true (contained_of_next hc hturn).1
        ((hc.count (not_le.1 hloop)).follow target) ((hlike _).follow target)
      · exact heq
      · exact absurd rfl h0

/-- The target of a link, walked as a path of its own from where the link stands. -/
def freshWalk (fs : Files) (t : Textual) (target : Bytes) : Except Int Vnode :=
  (Textual.follow { t with nlinks := 0, trace := [] } target).walk fs true

/-- The links followed before count only against the limit. -/
theorem targetWalk_fresh (hc : t.Contained fs start) {readlink : Vnode → Except Int Bytes} {target : Bytes}
    (hread : fs.readlink child = some readlink) (htarget : readlink child = .ok target)
    (hlen : target.length ≠ 0 ∧ target.length < pathBuf - 1) :
    targetWalk fs t child = freshWalk fs t target ∨ targetWalk fs t child = .error eLoop := by
  have hbad : ¬ (target.length = 0 ∨ pathBuf ≤ target.length) := by
    simp only [pathBuf] at hlen ⊢
    omega
  unfold targetWalk
  by_cases hloop : maxSymlinks ≤ t.nlinks
  · exact .inr (if_pos hloop)
  simp only [if_neg hloop, hread, htarget, if_neg hbad, if_neg hlen.2.ne]
  have hfresh : Textual.Contained fs start { t with nlinks := 0, trace := [] } :=
    { hc with calls := by simp, counted := by simp [followed], budget := by simp }
  have hlike : Like (t.nlinks + 1) { t with nlinks := t.nlinks + 1 } { t with nlinks := 0, trace := [] } :=
    { top := rfl, below := rfl, text := rfl, nlinks := by simp }
  obtain heq | ⟨-, heq⟩ := walk_like true ((hc.count (not_le.1 hloop)).follow target) (hfresh.follow target)
    (hlike.follow target)
  · exact .inl heq
  · exact .inr heq

/-- Nothing is reached from an empty text but itself. -/
theorem Reaches.head {v : Textual} (h : Reaches fs t v) :
    v = t ∨ ∃ u, turnText fs false t = .next u ∧ Reaches fs u v := by
  induction h with
  | refl => exact .inl rfl
  | next _ hturn ih =>
    obtain rfl | ⟨u, hu, hreach⟩ := ih
    · exact .inr ⟨_, hturn, .refl⟩
    · exact .inr ⟨u, hu, hreach.next hturn⟩

/-- Both walks come to the link in the final position. -/
theorem walk_of_final_link (hc : t.Contained fs start) {u : Textual} (hreach : Reaches fs t u)
    (h : FinalLink fs u child) :
    u.Contained fs start ∧ t.walk fs true = u.walk fs true ∧ t.walk fs false = u.walk fs false := by
  induction hn : t.bound using Nat.strong_induction_on generalizing t with
  | _ n ih =>
    obtain rfl | ⟨v, hturn, hreach⟩ := hreach.head
    · exact ⟨hc, rfl, rfl⟩
    have hplain : ∀ child, ¬ FinalLink fs t child := by
      intro child' hfinal
      -- behind a link in the final position the walk is at its end
      obtain ⟨v', hv', htext, -⟩ := hfinal.nofollow
      obtain rfl : v = v' := by
        rw [hturn] at hv'
        exact Turn.next.inj hv'
      have hend : turnText fs false v = .ret v (.ok v.top) := by simp [turnText, htext]
      obtain rfl | ⟨w, hw, -⟩ := hreach.head
      · exact text_ne_nil_of_component h.name.1 htext
      · rw [hend] at hw
        cases hw
    obtain ⟨hv, hlt⟩ := contained_of_next hc hturn
    obtain ⟨hu, htrue, hfalse⟩ := ih v.bound (hn ▸ hlt) hv hreach rfl
    refine ⟨hu, ?_, ?_⟩
    · rw [walk_of_next hc ((turnText_of_not_final hplain).trans hturn), htrue]
    · rw [walk_of_next hc hturn, hfalse]

theorem walk_of_no_final_link (hc : t.Contained fs start)
    (h : ∀ u child, Reaches fs t u → ¬ FinalLink fs u child) : t.walk fs true = t.walk fs false := by
  induction hn : t.bound using Nat.strong_induction_on generalizing t with
  | _ n ih =>
    have hsame : turnText fs true t = turnText fs false t := turnText_of_not_final fun child => h t child .refl
    cases hturn : turnText fs false t with
    | ret u r => rw [walk_of_ret hturn, walk_of_ret (hsame.trans hturn)]
    | next u =>
      obtain ⟨hu, hlt⟩ := contained_of_next hc hturn
      rw [walk_of_next hc hturn, walk_of_next hc (hsame.trans hturn)]
      refine ih u.bound (hn ▸ hlt) hu ?_ rfl
      intro v child hreach
      refine h v child ?_
      clear ih hlt hu h
      induction hreach with
      | refl => exact .next .refl hturn
      | next _ hnext ih => exact ih.next hnext

end Final

/-! ## Mounts and namespaces -/

/-- `struct vfs_mount`; `point` is its `at`. -/
structure Mount where
  root : Vnode
  point : CString

/-- `struct ns_binding`; `name` is the path it binds. -/
structure Binding where
  name : CString
  root : Vnode
  mode : UInt8

/-- `struct namespace`; none is a slot that is not used. -/
structure Namespace where
  b : List (Option Binding)
  active : Bool

/-- What a resolution reads: `g_mounts`, and the namespace of the process, if there is one. -/
structure System where
  mounts : List (Option Mount)
  ns : Option Namespace

/-- The tail of both checks of a path: the bytes match, and a component ends there. -/
def endsComponent (path name : Bytes) : Bool :=
  name.isPrefixOf path && ((path.drop name.length).headD 0 = 0 || (path.drop name.length).headD 0 = slash)

/-- `ns_prefix_match`: the length of the match; none stands for 0. -/
def nsPrefixMatch (path name : Bytes) : Option Nat :=
  if name.length = 0 then none
  else if name.head? ≠ some slash ∨ path.head? ≠ some slash then none
  else if name.length = 1 then some 1
  else if endsComponent path name then some name.length else none

/-- `vfs_mount_is_prefix`. -/
def vfsMountIsPrefix (path point : Bytes) : Bool :=
  if point.length = 0 then false
  else if point = [slash] then path.head? = some slash
  else endsComponent path point

/-- The loops of `ns_lookup` and `vfs_find_mount`: the first of the longest matches. -/
def longest {α : Type} (len : α → Option Nat) : List (Option α) → Option (α × Nat) → Option (α × Nat)
  | [], best => best
  | none :: slots, best => longest len slots best
  | some a :: slots, best =>
    longest len slots <|
      match len a, best with
      | none, _ => best
      | some n, none => some (a, n)
      | some n, some (b, m) => if m < n then some (a, n) else some (b, m)

/-- `ns_lookup`. -/
def nsLookup (ns : Namespace) (path : Bytes) : Except Int (Binding × Nat) :=
  if path.head? ≠ some slash then .error eInval
  else (longest (fun b => nsPrefixMatch path b.name.bytes) ns.b none).elim (.error eNoent) .ok

/-- `vfs_find_mount`. -/
def vfsFindMount (mounts : List (Option Mount)) (path : Bytes) : Option Mount :=
  (longest (fun m => if vfsMountIsPrefix path m.point.bytes then some m.point.bytes.length else none)
    mounts none).map Prod.fst

/-- `NS_MODE_RW`. -/
def nsModeRw : UInt8 := 0

/-- The namespace that decides, if one is active. -/
def System.activeNs (sys : System) : Option Namespace := sys.ns.filter Namespace.active

/-- `vfs_resolve_ex`, with what it leaves in `*mode_out`. -/
def vfsResolveEx (fs : Files) (sys : System) (path : Bytes) : Option UInt8 × Except Int Vnode :=
  if path.head? ≠ some slash then (none, .error eInval)
  else
    match sys.activeNs with
    | some ns =>
      match nsLookup ns path with
      | .error e => (none, .error e)
      | .ok (b, plen) =>
        match vfsFindMount sys.mounts path with
        | none => (some b.mode, vfsWalkFromEx fs b.root (path.drop plen) true)
        | some deeper =>
          let mlen := deeper.point.bytes.length
          if plen < mlen then (some b.mode, vfsWalkFromEx fs deeper.root (path.drop mlen) true)
          else (some b.mode, vfsWalkFromEx fs b.root (path.drop plen) true)
    | none =>
      match vfsFindMount sys.mounts path with
      | none => (some nsModeRw, .error eNoent)
      | some m => (some nsModeRw, vfsWalkFromEx fs m.root (path.drop m.point.bytes.length) true)

/-- `vfs_resolve`. -/
def vfsResolve (fs : Files) (sys : System) (path : Bytes) : Except Int Vnode := (vfsResolveEx fs sys path).2

/-- `vfs_resolve_nofollow`. -/
def vfsResolveNofollow (fs : Files) (sys : System) (path : Bytes) : Except Int Vnode :=
  if path.head? ≠ some slash then .error eInval
  else
    match sys.activeNs with
    | some ns =>
      match nsLookup ns path with
      | .error e => .error e
      | .ok (b, plen) => vfsWalkFromEx fs b.root (path.drop plen) false
    | none =>
      match vfsFindMount sys.mounts path with
      | none => .error eNoent
      | some m => vfsWalkFromEx fs m.root (path.drop m.point.bytes.length) false

/-! ## Where the walks start -/

/-- The object and the text `vfs_resolve` walks from. -/
def origin (sys : System) (path : Bytes) : Except Int (Vnode × Bytes) :=
  if path.head? ≠ some slash then .error eInval
  else
    match sys.activeNs with
    | some ns =>
      match nsLookup ns path with
      | .error e => .error e
      | .ok (b, plen) =>
        match vfsFindMount sys.mounts path with
        | none => .ok (b.root, path.drop plen)
        | some deeper =>
          if plen < deeper.point.bytes.length then .ok (deeper.root, path.drop deeper.point.bytes.length)
          else .ok (b.root, path.drop plen)
    | none =>
      match vfsFindMount sys.mounts path with
      | none => .error eNoent
      | some m => .ok (m.root, path.drop m.point.bytes.length)

/-- The object and the text `vfs_resolve_nofollow` walks from. -/
def originNofollow (sys : System) (path : Bytes) : Except Int (Vnode × Bytes) :=
  if path.head? ≠ some slash then .error eInval
  else
    match sys.activeNs with
    | some ns =>
      match nsLookup ns path with
      | .error e => .error e
      | .ok (b, plen) => .ok (b.root, path.drop plen)
    | none =>
      match vfsFindMount sys.mounts path with
      | none => .error eNoent
      | some m => .ok (m.root, path.drop m.point.bytes.length)

theorem vfsResolve_eq (fs : Files) (sys : System) (path : Bytes) :
    vfsResolve fs sys path = (origin sys path).bind fun o => vfsWalkFromEx fs o.1 o.2 true := by
  unfold vfsResolve vfsResolveEx origin
  split
  · rfl
  cases sys.activeNs with
  | none => cases vfsFindMount sys.mounts path <;> rfl
  | some ns =>
    simp only
    cases nsLookup ns path with
    | error e => rfl
    | ok found =>
      simp only
      cases vfsFindMount sys.mounts path with
      | none => rfl
      | some deeper =>
        simp only
        split <;> rfl

theorem vfsResolveNofollow_eq (fs : Files) (sys : System) (path : Bytes) :
    vfsResolveNofollow fs sys path = (originNofollow sys path).bind fun o => vfsWalkFromEx fs o.1 o.2 false := by
  unfold vfsResolveNofollow originNofollow
  split
  · rfl
  cases sys.activeNs with
  | none => cases vfsFindMount sys.mounts path <;> rfl
  | some ns =>
    simp only
    cases nsLookup ns path <;> rfl

/-! ## The longest match -/

section Longest

variable {α : Type} {len : α → Option Nat} {slots : List (Option α)}

/-- What one slot does to the best match so far. -/
theorem longest_cons (len : α → Option Nat) (slots : List (Option α)) (a : α) (best : Option (α × Nat)) :
    (len a = none ∧ longest len (some a :: slots) best = longest len slots best) ∨
      ∃ n, len a = some n ∧
        ((longest len (some a :: slots) best = longest len slots (some (a, n)) ∧ ∀ b m, best = some (b, m) → m < n) ∨
          ∃ b m, best = some (b, m) ∧ n ≤ m ∧
            longest len (some a :: slots) best = longest len slots best) := by
  cases hlen : len a with
  | none => exact .inl ⟨rfl, by simp [longest, hlen]⟩
  | some n =>
    refine .inr ⟨n, rfl, ?_⟩
    cases best with
    | none => exact .inl ⟨by simp [longest, hlen], by simp⟩
    | some bm =>
      obtain ⟨b, m⟩ := bm
      by_cases hlt : m < n
      · refine .inl ⟨by simp [longest, hlen, hlt], ?_⟩
        intro b' m' heq
        cases heq
        exact hlt
      · exact .inr ⟨b, m, rfl, not_lt.1 hlt, by simp [longest, hlen, hlt]⟩

theorem longest_eq_none (best : Option (α × Nat)) :
    longest len slots best = none ↔ best = none ∧ ∀ a, some a ∈ slots → len a = none := by
  induction slots generalizing best with
  | nil => simp [longest]
  | cons slot slots ih =>
    cases slot with
    | none => simp [longest, ih]
    | some a =>
      obtain ⟨hlen, heq⟩ | ⟨n, hlen, ⟨heq, -⟩ | ⟨b, m, rfl, -, heq⟩⟩ :=
        longest_cons len slots a best
      · rw [heq, ih]
        simp [hlen]
      · rw [heq, ih]
        simp [hlen]
      · rw [heq, ih]
        simp

theorem longest_eq_some {best : Option (α × Nat)} {a : α} {n : Nat} (h : longest len slots best = some (a, n)) :
    (best = some (a, n) ∨ some a ∈ slots ∧ len a = some n) ∧ (∀ b m, best = some (b, m) → m ≤ n) ∧
      ∀ b m, some b ∈ slots → len b = some m → m ≤ n := by
  induction slots generalizing best with
  | nil =>
    rw [longest] at h
    exact ⟨.inl h, fun b m hb => by rw [h] at hb; cases hb; exact le_rfl, by simp⟩
  | cons slot slots ih =>
    cases slot with
    | none =>
      have hrest : longest len slots best = some (a, n) := by simpa [longest] using h
      obtain ⟨hfrom, hbest, hmax⟩ := ih hrest
      exact ⟨hfrom.imp_right fun hs => ⟨List.mem_cons_of_mem _ hs.1, hs.2⟩, hbest, fun b m hb => by
        simpa using hmax b m (by simpa using hb)⟩
    | some c =>
      obtain ⟨hlen, heq⟩ | ⟨k, hlen, ⟨heq, hlt⟩ | ⟨b, m, hb, hle, heq⟩⟩ :=
        longest_cons len slots c best
      · obtain ⟨hfrom, hbest, hmax⟩ := ih (heq ▸ h)
        refine ⟨hfrom.imp_right fun hs => ⟨List.mem_cons_of_mem _ hs.1, hs.2⟩, hbest, ?_⟩
        intro d m hd hm
        obtain hd | hd := List.mem_cons.1 hd
        · cases hd
          rw [hlen] at hm
          cases hm
        · exact hmax d m hd hm
      · obtain ⟨hfrom, hbest, hmax⟩ := ih (heq ▸ h)
        have hkn : k ≤ n := hbest c k rfl
        refine ⟨.inr ?_, fun b m hb => ((hlt b m hb).le).trans hkn, ?_⟩
        · obtain hfrom | ⟨hmem, hl⟩ := hfrom
          · cases hfrom
            exact ⟨List.mem_cons_self, hlen⟩
          · exact ⟨List.mem_cons_of_mem _ hmem, hl⟩
        · intro d m hd hm
          obtain hd | hd := List.mem_cons.1 hd
          · cases hd
            rw [hlen] at hm
            cases hm
            exact hkn
          · exact hmax d m hd hm
      · obtain ⟨hfrom, hbest, hmax⟩ := ih (heq ▸ h)
        refine ⟨hfrom.imp_right fun hs => ⟨List.mem_cons_of_mem _ hs.1, hs.2⟩, hbest, ?_⟩
        intro d j hd hj
        obtain hd | hd := List.mem_cons.1 hd
        · cases hd
          rw [hlen] at hj
          cases hj
          exact hle.trans (hbest b m hb)
        · exact hmax d j hd hj

end Longest

/-! ## The two resolutions -/

/-- The binding names the path. -/
def Binding.Covers (b : Binding) (path : Bytes) : Prop := nsPrefixMatch path b.name.bytes ≠ none

/-- The path is at or under the mount point. -/
def Mount.Covers (m : Mount) (path : Bytes) : Prop := vfsMountIsPrefix path m.point.bytes = true

/-- No mount that covers the path is deeper than the binding that decides. -/
def Plain (sys : System) (path : Bytes) : Prop :=
  ∀ ns, sys.activeNs = some ns → (∃ b, some b ∈ ns.b ∧ b.Covers path) →
    ∀ m, some m ∈ sys.mounts → m.Covers path →
      ∃ b, some b ∈ ns.b ∧ b.Covers path ∧ m.point.bytes.length ≤ b.name.bytes.length

variable {path : Bytes}

theorem nsPrefixMatch_length {name : Bytes} {n : Nat} (h : nsPrefixMatch path name = some n) :
    n = name.length := by
  unfold nsPrefixMatch at h
  split_ifs at h with h0 h1 h2 h3
  · cases h
    exact h2.symm
  · cases h
    rfl

theorem vfsMountIsPrefix_length {point : Bytes} (h : vfsMountIsPrefix path point = true) :
    point.length ≤ path.length := by
  unfold vfsMountIsPrefix at h
  split_ifs at h with h0 h1
  · rw [h1]
    cases path with
    | nil => simp at h
    | cons c cs => simp
  · simp only [endsComponent, Bool.and_eq_true] at h
    exact (List.isPrefixOf_iff_prefix.1 h.1).length_le

theorem vfsFindMount_eq_some {mounts : List (Option Mount)} {m : Mount}
    (h : vfsFindMount mounts path = some m) :
    some m ∈ mounts ∧ m.Covers path ∧
      ∀ m', some m' ∈ mounts → m'.Covers path → m'.point.bytes.length ≤ m.point.bytes.length := by
  obtain ⟨⟨m', n⟩, hlong, rfl⟩ := Option.map_eq_some_iff.1 h
  obtain ⟨hfrom, -, hmax⟩ := longest_eq_some hlong
  obtain hfrom | ⟨hmem, hlen⟩ := hfrom
  · cases hfrom
  obtain ⟨hcov, rfl⟩ : m'.Covers path ∧ m'.point.bytes.length = n := by simpa [Mount.Covers] using hlen
  refine ⟨hmem, hcov, fun b hb hcb => hmax b _ hb ?_⟩
  rw [Mount.Covers] at hcb
  rw [if_pos hcb]

theorem vfsFindMount_eq_none {mounts : List (Option Mount)} :
    vfsFindMount mounts path = none ↔ ∀ m, some m ∈ mounts → ¬ m.Covers path := by
  simp [vfsFindMount, longest_eq_none, Mount.Covers]

theorem nsLookup_eq_ok {ns : Namespace} {b : Binding} {n : Nat}
    (h : nsLookup ns path = .ok (b, n)) :
    some b ∈ ns.b ∧ b.Covers path ∧ n = b.name.bytes.length ∧
      ∀ b', some b' ∈ ns.b → b'.Covers path → b'.name.bytes.length ≤ n := by
  unfold nsLookup at h
  split_ifs at h with habs
  cases hlong : longest (fun b => nsPrefixMatch path b.name.bytes) ns.b none with
  | none => simp [hlong] at h
  | some found =>
    rw [hlong] at h
    cases h
    obtain ⟨hfrom, -, hmax⟩ := longest_eq_some hlong
    obtain hfrom | ⟨hmem, hlen⟩ := hfrom
    · cases hfrom
    refine ⟨hmem, by simp [Binding.Covers, hlen], nsPrefixMatch_length hlen, fun b' hb' hcov => ?_⟩
    obtain ⟨k, hk⟩ := Option.ne_none_iff_exists'.1 hcov
    rw [← nsPrefixMatch_length hk]
    exact hmax b' k hb' hk

theorem nsLookup_eq_error {ns : Namespace} {e : Int} (h : nsLookup ns path = .error e) :
    ∀ b, some b ∈ ns.b → ¬ b.Covers path := by
  intro b hb hcov
  unfold nsLookup at h
  split_ifs at h with habs
  · -- a binding covers absolute paths only
    refine hcov ?_
    unfold nsPrefixMatch
    split_ifs with h0 h1
    · rfl
    · rfl
    · exact absurd (.inr habs) h1
    · exact absurd (.inr habs) h1
    · rfl
  · cases hlong : longest (fun b => nsPrefixMatch path b.name.bytes) ns.b none with
    | none => exact hcov (((longest_eq_none none).1 hlong).2 b hb)
    | some found => simp [hlong] at h

/-- Both start at the same object, with the same text, exactly where no deeper mount covers the path. -/
theorem origin_eq_iff (sys : System) (path : Bytes) : origin sys path = originNofollow sys path ↔ Plain sys path := by
  unfold origin originNofollow Plain
  cases hns : sys.activeNs with
  | none => simp
  | some ns =>
    simp only [Option.some.injEq, forall_eq']
    cases hl : nsLookup ns path with
    | error e =>
      have hnone := nsLookup_eq_error hl
      simp only [true_iff]
      rintro ⟨b, hb, hcov⟩
      exact absurd hcov (hnone b hb)
    | ok found =>
      obtain ⟨b, n⟩ := found
      obtain ⟨hmem, hcov, rfl, hmax⟩ := nsLookup_eq_ok hl
      have habs : ¬ path.head? ≠ some slash := by
        intro habs
        simp [nsLookup, habs] at hl
      simp only [if_neg habs]
      cases hm : vfsFindMount sys.mounts path with
      | none =>
        simp only [true_iff]
        intro _ m hmm hmc
        exact absurd hmc (vfsFindMount_eq_none.1 hm m hmm)
      | some deeper =>
        obtain ⟨hdm, hdc, hdmax⟩ := vfsFindMount_eq_some hm
        have hlen : deeper.point.bytes.length ≤ path.length := vfsMountIsPrefix_length hdc
        simp only
        split_ifs with hlt
        · constructor
          · intro heq
            have htext : path.drop deeper.point.bytes.length = path.drop b.name.bytes.length := by
              injection heq with heq
              exact (Prod.ext_iff.1 heq).2
            have := congrArg List.length htext
            simp only [List.length_drop] at this
            omega
          · intro hplain
            obtain ⟨b', hb', hcov', hle⟩ := hplain ⟨b, hmem, hcov⟩ deeper hdm hdc
            have := hmax b' hb' hcov'
            omega
        · simp only [true_iff]
          intro _ m hmm hmc
          refine ⟨b, hmem, hcov, ?_⟩
          have := hdmax m hmm hmc
          omega

/-- The resolution of the path comes to its final component at `u`, and that is the link `child`. -/
def EndsAtLink (fs : Files) (sys : System) (path : Bytes) (u : Textual) (child : Vnode) : Prop :=
  ∃ root rel, origin sys path = .ok (root, rel) ∧ Reaches fs (.enter root rel) u ∧ FinalLink fs u child

/-- The two resolutions of a path have one result, unless they end at a link: then the one returns it,
and the other returns what walking its target does. -/
structure Agree (fs : Files) (sys : System) (path : Bytes) : Prop where
  same : (∀ u child, ¬ EndsAtLink fs sys path u child) → vfsResolve fs sys path = vfsResolveNofollow fs sys path
  link : ∀ u child, EndsAtLink fs sys path u child →
    vfsResolveNofollow fs sys path = .ok child ∧ vfsResolve fs sys path = targetWalk fs u child
  fresh : ∀ u child readlink target, EndsAtLink fs sys path u child → fs.readlink child = some readlink →
    readlink child = .ok target → target.length ≠ 0 ∧ target.length < pathBuf - 1 →
    vfsResolve fs sys path = freshWalk fs u target ∨ vfsResolve fs sys path = .error eLoop

theorem agree_of_origin (fs : Files) {sys : System}
    (h : origin sys path = originNofollow sys path) :
    Agree fs sys path := by
  have hlink : ∀ u child, EndsAtLink fs sys path u child → (∃ start, u.Contained fs start) ∧
      vfsResolveNofollow fs sys path = .ok child ∧ vfsResolve fs sys path = targetWalk fs u child := by
    rintro u child ⟨root, rel, horigin, hreach, hfinal⟩
    have hc := Textual.enter_contained fs root rel
    obtain ⟨hu, htrue, hfalse⟩ := walk_of_final_link hc hreach hfinal
    refine ⟨⟨root, hu⟩, ?_, ?_⟩
    · rw [vfsResolveNofollow_eq, ← h, horigin]
      exact hfalse.trans (hfinal.walk_nofollow hu)
    · rw [vfsResolve_eq, horigin]
      exact htrue.trans (hfinal.walk_follow hu)
  refine ⟨fun hno => ?_, fun u child hends => (hlink u child hends).2, ?_⟩
  · rw [vfsResolve_eq, vfsResolveNofollow_eq, ← h]
    cases horigin : origin sys path with
    | error e => rfl
    | ok o =>
      exact walk_of_no_final_link (Textual.enter_contained fs o.1 o.2) fun u child hreach hfinal =>
        hno u child ⟨o.1, o.2, horigin, hreach, hfinal⟩
  · intro u child readlink target hends hread htarget hlen
    obtain ⟨⟨start, hu⟩, -, hwalk⟩ := hlink u child hends
    rw [hwalk]
    exact targetWalk_fresh hu hread htarget hlen

/-- The two resolutions of a path start at the same object and agree, whatever the file systems hold,
exactly where no mount that covers the path is deeper than the binding of the namespace. -/
theorem vfs_resolve_agrees (sys : System) (path : Bytes) :
    (origin sys path = originNofollow sys path ∧ ∀ fs, Agree fs sys path) ↔ Plain sys path := by
  rw [← origin_eq_iff]
  exact ⟨fun h => h.1, fun h => ⟨h, fun fs => agree_of_origin fs h⟩⟩

/-! A stick mounted at `/m` after `/` was bound: the file system at `/` still has a directory `m`. -/

namespace Stick

def system : Vnode := ⟨some 0, 1, dtDir⟩

/-- The directory `m` of the file system at `/`. -/
def hidden : Vnode := ⟨some 0, 2, dtDir⟩

def stick : Vnode := ⟨some 1, 1, dtDir⟩

def pathM : Bytes := [slash, 0x6D]

def files : Files := fun slot =>
  if slot = 0 then some ⟨some fun _ name => if name = [0x6D] then .ok hidden else .error eNoent, none⟩
  else some ⟨some fun _ _ => .error eNoent, none⟩

def sys : System where
  mounts := [some ⟨system, ⟨[slash], by decide⟩⟩, some ⟨stick, ⟨pathM, by decide⟩⟩]
  ns := some ⟨[some ⟨⟨[slash], by decide⟩, system, nsModeRw⟩], true⟩

theorem not_endsAtLink (path : Bytes) (u : Textual) (child : Vnode) : ¬ EndsAtLink files sys path u child := by
  rintro ⟨root, rel, -, -, hfinal⟩
  obtain ⟨lookup, hlookup, hchild⟩ := hfinal.found
  -- the only object a lookup gives is a directory
  have hdir : child = hidden := by
    obtain ⟨slot, hslot⟩ : ∃ slot, u.top.mnt = some slot := by
      cases hm : u.top.mnt with
      | none => simp [Files.lookup, hm] at hlookup
      | some slot => exact ⟨slot, rfl⟩
    simp only [Files.lookup, hslot, files, Option.bind_some] at hlookup
    split at hlookup
    · cases hlookup
      simp only at hchild
      split at hchild
      · cases hchild
        rfl
      · cases hchild
    · cases hlookup
      cases hchild
  have hlink := hfinal.link
  rw [hdir] at hlink
  exact absurd hlink (by decide)

end Stick

/-- A path without a link that the two resolutions do not agree on: the one starts at the mount, the
other walks the file system that was bound. -/
theorem deeper_mount_missed :
    (∀ u child, ¬ EndsAtLink Stick.files Stick.sys Stick.pathM u child) ∧
      vfsResolve Stick.files Stick.sys Stick.pathM = .ok Stick.stick ∧
      vfsResolveNofollow Stick.files Stick.sys Stick.pathM = .ok Stick.hidden ∧ Stick.stick ≠ Stick.hidden :=
  ⟨Stick.not_endsAtLink Stick.pathM, by rfl, by rfl, by decide⟩

end EmbLinkOs.Vfs
