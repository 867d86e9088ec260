import EmbLinkOs.Tcp.Table
import EmbLinkOs.Tcp.Transitions

set_option autoImplicit false

/-! # The connection table is sound

Every control block in use belongs to someone: to an application or a call on its behalf, or to a
listener that is open, as a connection in its handshake or in the accept queue. The invariant is kept
by every input with three exceptions, which the runs considered leave out: an ephemeral port that is
still in use towards the same peer, a reset for a connection nobody has accepted yet, and the close
of a listener that still has such connections or a call of `accept` that waits. -/

namespace EmbLinkOs.Tcp

open Function
open List

open History

/-! ## Ownership -/

/-- The applications and their calls answer for the control block. -/
def World.Owned (w : World) : Set (Fin 4) :=
  {i | i ∈ w.held ∨ (w.connecting i).isSome ∨ i ∈ w.closing}

theorem World.mem_owned {w : World} {i : Fin 4} :
    i ∈ w.Owned ↔ i ∈ w.held ∨ (w.connecting i).isSome ∨ i ∈ w.closing := Iff.rfl

def Listening (τ : Fin 4 → Tcb) (l : Fin 4) : Prop := (τ l).inUse = true ∧ (τ l).state = .listen

/-- `i` is a connection of the listener `l` that nobody has accepted yet. -/
structure Child (τ : Fin 4 → Tcb) (l i : Fin 4) : Prop where
  listening : Listening τ l
  inUse : (τ i).inUse = true
  parent : (τ i).parentListener = some l
  port : (τ i).localPort = (τ l).localPort
  state : (τ i).state = .synReceived ∨
    i ∈ (τ l).acceptQ ∧ ((τ i).state = .established ∨ (τ i).state = .closeWait)

/-- The handshake of `i` was begun by a SYN to the listener `l`, and neither was freed since. -/
def Begun (h : List Event) (i l : Fin 4) : Prop :=
  Since (fun e => e = .syn i l) (fun e => e ≠ .freed i ∧ e ≠ .freed l) h

/-- The call of `accept` was made on `l`, which was not freed since. -/
def Called (h : List Event) (call : Nat) (l : Fin 4) : Prop :=
  Since (fun e => e = .accepting call l) (fun e => e ≠ .freed l) h

/-- The two are one connection to a peer. -/
def SameConn (t u : Tcb) : Prop :=
  t.localPort = u.localPort ∧ t.remoteIp = u.remoteIp ∧ t.remotePort = u.remotePort

/-- What a call of `accept` may return after `past`. -/
def Acceptable (past : List Event) : Event → Prop
  | .accepted call l i lis t =>
    lis.inUse = true ∧ lis.state = .listen ∧ t.inUse = true ∧
      (t.state = .established ∨ t.state = .closeWait) ∧ t.localPort = lis.localPort ∧
      Begun past i l ∧ Called past call l
  | _ => True

/-- A history of the table and the world it has led to. -/
structure TableSafe (h : List Event) (w : World) : Prop where
  /-- A connection has one control block. -/
  distinct : ∀ i j, (w.table.tcbs i).inUse = true → (w.table.tcbs j).inUse = true →
    (w.table.tcbs i).state ≠ .listen → (w.table.tcbs j).state ≠ .listen →
    SameConn (w.table.tcbs i) (w.table.tcbs j) → i = j
  /-- `accept` returns connections of its listener that have completed their handshake. -/
  accepts : ∀ pre call l i lis t post, h = pre ++ .accepted call l i lis t :: post →
    lis.inUse = true ∧ lis.state = .listen ∧ t.inUse = true ∧
      (t.state = .established ∨ t.state = .closeWait) ∧ t.localPort = lis.localPort ∧
      Begun pre i l ∧ Called pre call l
  /-- A control block in use has an owner, or a listener that is open. -/
  owned : ∀ i, (w.table.tcbs i).inUse = true →
    i ∈ w.Owned ∨ ∃ l, l ∈ w.Owned ∧ Child w.table.tcbs l i
  /-- Closing everything the applications hold frees the table. -/
  freed : w.Owned = ∅ → ∀ i, (w.table.tcbs i).inUse = false

/-- Nobody waits for a connection of the listener, and there is none. -/
def World.Deserted (w : World) (l : Fin 4) : Prop :=
  (∀ i, ¬ Child w.table.tcbs l i) ∧ ∀ call, w.accepting call ≠ some l

/-- The steps considered. -/
def World.Sane (w : World) : Input → Prop
  | .segment src s => s.flags.rst = true →
    ∀ i l, w.table.find s.dstPort src s.srcPort = some i → ¬ Child w.table.tcbs l i
  | .connectStart dst dport => w.table.find w.table.nextPort dst dport = none
  | .connect dst dport => w.table.find w.table.nextPort dst dport = none
  | .close i => w.table.isListening i = true → w.Deserted i
  | .abort i => w.table.isListening i = true → w.Deserted i
  | _ => True

/-! ## The invariant -/

/-- The control blocks `τ` with the owners `O` and the waiting calls of `accept`. -/
structure Sound (h : List Event) (τ : Fin 4 → Tcb) (O : Set (Fin 4)) (A : Nat → Option (Fin 4)) :
    Prop where
  lawful : Justified Acceptable [] h
  distinct : ∀ i j, (τ i).inUse = true → (τ j).inUse = true → (τ i).state ≠ .listen →
    (τ j).state ≠ .listen → SameConn (τ i) (τ j) → i = j
  inUse : ∀ i ∈ O, (τ i).inUse = true
  ready : ∀ i ∈ O, (τ i).state ≠ .synReceived
  child : ∀ i, (τ i).inUse = true → i ∉ O → ∃ l, Child τ l i
  nodup : ∀ l, Listening τ l → (τ l).acceptQ.Nodup
  queued : ∀ l, Listening τ l → ∀ i ∈ (τ l).acceptQ,
    i ∉ O ∧ Child τ l i ∧ (τ i).state ≠ .synReceived
  begun : ∀ l i, Child τ l i → i ∉ O → Begun h i l
  called : ∀ call l, A call = some l → Listening τ l ∧ Called h call l

theorem Child.state_ne_listen {τ : Fin 4 → Tcb} {l i : Fin 4} (h : Child τ l i) :
    (τ i).state ≠ .listen := by
  rcases h.state with h | ⟨-, h | h⟩ <;> rw [h] <;> simp

theorem Child.ne {τ : Fin 4 → Tcb} {l i : Fin 4} (h : Child τ l i) : i ≠ l := by
  rintro rfl
  exact h.state_ne_listen h.listening.2

section

variable {h e : List Event} {τ : Fin 4 → Tcb} {O : Set (Fin 4)} {A : Nat → Option (Fin 4)}
  {i l : Fin 4} {t : Tcb}

theorem Sound.listening_owned (hs : Sound h τ O A) (hl : Listening τ l) : l ∈ O := by
  by_contra hno
  obtain ⟨l', hc⟩ := hs.child l hl.1 hno
  exact hc.state_ne_listen hl.2

/-- A control block changes nothing for the others if they do not see it. -/
theorem child_update_iff (hli : l ≠ i) {j : Fin 4} (hj : j ≠ i) :
    Child (update τ i t) l j ↔ Child τ l j := by
  constructor <;> intro hc
  · have hl := hc.listening
    rw [Listening, update_of_ne hli] at hl
    exact ⟨hl, by simpa [hj] using hc.inUse, by simpa [hj] using hc.parent,
      by simpa [hj, hli] using hc.port, by simpa [hj, hli] using hc.state⟩
  · refine ⟨?_, by simpa [hj] using hc.inUse, by simpa [hj] using hc.parent,
      by simpa [hj, hli] using hc.port, by simpa [hj, hli] using hc.state⟩
    rw [Listening, update_of_ne hli]
    exact hc.listening

theorem listening_update_iff (hli : l ≠ i) : Listening (update τ i t) l ↔ Listening τ l := by
  rw [Listening, Listening, update_of_ne hli]

theorem Begun.append (hb : Begun h i l) (he : ∀ x ∈ e, x ≠ .freed i ∧ x ≠ .freed l) :
    Begun (h ++ e) i l := Since.append hb he

theorem Called.append {call : Nat} (hc : Called h call l) (he : ∀ x ∈ e, x ≠ .freed l) :
    Called (h ++ e) call l := Since.append hc he

/-- Events that free nothing. -/
theorem Sound.emit (hs : Sound h τ O A) (he : ∀ i, .freed i ∉ e) (hlaw : Justified Acceptable h e) :
    Sound (h ++ e) τ O A :=
  { hs with
    lawful := (justified_append [] h e).2 ⟨hs.lawful, hlaw⟩
    begun := fun l i hc ho => (hs.begun l i hc ho).append fun _ hx =>
      ⟨fun h => he i (h ▸ hx), fun h => he l (h ▸ hx)⟩
    called := fun call l hc => ⟨(hs.called call l hc).1,
      (hs.called call l hc).2.append fun _ hx h => he l (h ▸ hx)⟩ }

/-! ### Control blocks that come and go -/

/-- A free control block is nobody's, and nobody's listener. -/
theorem Sound.free (hs : Sound h τ O A) (hi : (τ i).inUse = false) :
    i ∉ O ∧ ¬ Listening τ i ∧ ∀ l, ¬ Child τ l i := by
  refine ⟨fun ho => ?_, fun hl => ?_, fun l hc => ?_⟩
  · simpa [hi] using hs.inUse i ho
  · simpa [hi] using hl.1
  · simpa [hi] using hc.inUse

/-- One control block is replaced that is no listener with children, before or after. -/
theorem Sound.replace {O' : Set (Fin 4)} (hs : Sound h τ O A) (hlaw : Justified Acceptable h e)
    (he : ∀ j ≠ i, .freed j ∉ e) (hO : ∀ j ≠ i, (j ∈ O' ↔ j ∈ O)) (hA : ∀ call, A call ≠ some i)
    (hno : ∀ j, ¬ Child τ i j) (hq : t.inUse = true → t.state = .listen → t.acceptQ = [])
    (hnew : t.inUse = true → t.state ≠ .listen →
      ∀ j ≠ i, (τ j).inUse = true → (τ j).state ≠ .listen → ¬ SameConn t (τ j))
    (hown : i ∈ O' → t.inUse = true ∧ t.state ≠ .synReceived)
    (hchild : t.inUse = true → i ∉ O' → ∃ l, Child (update τ i t) l i)
    (hbegun : ∀ l, Child (update τ i t) l i → i ∉ O' → Begun (h ++ e) i l)
    (hqueue : ∀ l, Listening τ l → i ∈ (τ l).acceptQ →
      i ∉ O' ∧ Child (update τ i t) l i ∧ t.state ≠ .synReceived) :
    Sound (h ++ e) (update τ i t) O' A := by
  -- the children of the others are the ones they had
  have hsame : ∀ l j, j ≠ i → (Child (update τ i t) l j ↔ Child τ l j) := by
    intro l j hj
    by_cases hl : l = i
    · subst hl
      refine ⟨fun hc => ?_, fun hc => absurd hc (hno j)⟩
      exfalso
      rcases hc.state with hst | ⟨hst, -⟩
      · obtain ⟨l', hc'⟩ := hs.child j (by simpa [hj] using hc.inUse) fun ho =>
          hs.ready j ho (by simpa [hj] using hst)
        have hpar : l' = l := by simpa [hj, hc'.parent] using hc.parent
        exact hno j (hpar ▸ hc')
      · have hl := hc.listening
        rw [Listening, update_self] at hl
        simp [hq hl.1 hl.2] at hst
    · exact child_update_iff hl hj
  refine ⟨(justified_append [] h e).2 ⟨hs.lawful, hlaw⟩, ?_, ?_, ?_, ?_, ?_, ?_, ?_, ?_⟩
  · intro j k hj hk hjl hkl hconn
    by_cases hji : j = i <;> by_cases hki : k = i
    · rw [hji, hki]
    · subst hji
      simp only [update_self, update_of_ne hki] at hj hjl hk hkl hconn
      exact absurd hconn (hnew hj hjl k hki hk hkl)
    · subst hki
      simp only [update_self, update_of_ne hji] at hk hkl hj hjl hconn
      exact absurd ⟨hconn.1.symm, hconn.2.1.symm, hconn.2.2.symm⟩ (hnew hk hkl j hji hj hjl)
    · simp only [update_of_ne hji, update_of_ne hki] at hj hk hjl hkl hconn
      exact hs.distinct j k hj hk hjl hkl hconn
  · intro j hj
    by_cases hji : j = i
    · subst hji
      simpa using (hown hj).1
    · simpa [hji] using hs.inUse j ((hO j hji).1 hj)
  · intro j hj
    by_cases hji : j = i
    · subst hji
      simpa using (hown hj).2
    · simpa [hji] using hs.ready j ((hO j hji).1 hj)
  · intro j hj hjo
    by_cases hji : j = i
    · subst hji
      exact hchild (by simpa using hj) hjo
    · obtain ⟨l, hc⟩ := hs.child j (by simpa [hji] using hj) (mt (hO j hji).2 hjo)
      exact ⟨l, (hsame l j hji).2 hc⟩
  · intro l hl
    by_cases hli : l = i
    · subst hli
      rw [Listening, update_self] at hl
      simp [hq hl.1 hl.2]
    · rw [listening_update_iff hli] at hl
      simpa [hli] using hs.nodup l hl
  · intro l hl j hj
    by_cases hli : l = i
    · subst hli
      rw [Listening, update_self] at hl
      simp [hq hl.1 hl.2] at hj
    · rw [listening_update_iff hli] at hl
      rw [update_of_ne hli] at hj
      by_cases hji : j = i
      · subst hji
        rw [update_self]
        exact hqueue l hl hj
      · obtain ⟨hjo, hc, hst⟩ := hs.queued l hl j hj
        exact ⟨mt (hO j hji).1 hjo, (hsame l j hji).2 hc, by simpa [hji] using hst⟩
  · intro l j hc hjo
    by_cases hji : j = i
    · subst hji
      exact hbegun l hc hjo
    · have hc' := (hsame l j hji).1 hc
      refine (hs.begun l j hc' (mt (hO j hji).2 hjo)).append fun x hx => ⟨?_, ?_⟩
      · rintro rfl
        exact he j hji hx
      · rintro rfl
        exact he l (fun hl => hno j (hl ▸ hc')) hx
  · intro call l hcall
    have hli : l ≠ i := fun hli => hA call (hli ▸ hcall)
    obtain ⟨hl, hc⟩ := hs.called call l hcall
    refine ⟨(listening_update_iff hli).2 hl, hc.append fun x hx => ?_⟩
    rintro rfl
    exact he l hli hx

/-- A control block an application gets. -/
theorem Sound.alloc (hs : Sound h τ O A) (hi : (τ i).inUse = false) (hst : t.state ≠ .synReceived)
    (hq : t.acceptQ = []) (ht : t.inUse = true)
    (hnew : t.state ≠ .listen → ∀ j, (τ j).inUse = true → (τ j).state ≠ .listen → ¬ SameConn t (τ j)) :
    Sound h (update τ i t) (insert i O) A := by
  obtain ⟨-, hil, hic⟩ := hs.free hi
  have hnext : Sound (h ++ []) (update τ i t) (insert i O) A :=
    hs.replace trivial (by simp) (fun j hj => by simp [hj])
      (fun call hc => hil (hs.called call i hc).1) (fun j hc => hil hc.listening) (fun _ _ => hq)
      (fun _ hl j _ => hnew hl j) (fun _ => ⟨ht, hst⟩) (fun _ ho => absurd (Set.mem_insert i O) ho)
      (fun _ _ ho => absurd (Set.mem_insert i O) ho)
      (fun l hl hm => absurd (hs.queued l hl i hm).2.1 (hic l))
  rwa [append_nil] at hnext

/-- A connection a SYN begins. -/
theorem Sound.spawn (hs : Sound h τ O A) (hi : (τ i).inUse = false) (hl : Listening τ l)
    (ht : t.inUse = true) (hst : t.state = .synReceived) (hpar : t.parentListener = some l)
    (hport : t.localPort = (τ l).localPort)
    (hnew : ∀ j, (τ j).inUse = true → (τ j).state ≠ .listen → ¬ SameConn t (τ j)) :
    Sound (h ++ [.syn i l]) (update τ i t) O A := by
  obtain ⟨hio, hil, hic⟩ := hs.free hi
  have hli : l ≠ i := fun hli => hil (hli ▸ hl)
  refine hs.replace ⟨trivial, trivial⟩ (by simp) (fun _ _ => Iff.rfl)
    (fun call hc => hil (hs.called call i hc).1) (fun j hc => hil hc.listening)
    (fun _ hs => absurd (hst.symm.trans hs) (by simp)) (fun _ _ j _ => hnew j)
    (fun ho => absurd ho hio) (fun _ _ => ⟨l, ?_⟩) (fun l' hc _ => ?_)
    (fun l hl hm => absurd (hs.queued l hl i hm).2.1 (hic l))
  · exact ⟨(listening_update_iff hli).2 hl, by simpa using ht, by simpa using hpar,
      by simpa [hli] using hport, by simp [hst]⟩
  · have hl' : l' = l := by simpa [hpar] using hc.parent.symm
    rw [hl']
    exact since_concat rfl

/-- A control block its owner frees. A listener has to be deserted. -/
theorem Sound.retire (hs : Sound h τ O A) (hi : i ∈ O) (ht : t.inUse = false)
    (hdes : Listening τ i → (∀ j, ¬ Child τ i j) ∧ ∀ call, A call ≠ some i) :
    Sound (h ++ [.freed i]) (update τ i t) (O \ {i}) A := by
  have hno : ∀ j, ¬ Child τ i j := fun j hc => (hdes hc.listening).1 j hc
  refine hs.replace ⟨trivial, trivial⟩ (fun j hj => by simpa using hj) (fun j hj => by simp [hj])
    (fun call hc => (hdes (hs.called call i hc).1).2 call hc) hno (by simp [ht]) (by simp [ht])
    (by simp) (by simp [ht]) (fun l hc => ?_) (fun l hl hm => absurd hi (hs.queued l hl i hm).1)
  have := hc.inUse
  simp [ht] at this

/-- A connection takes a segment. -/
theorem Sound.touch (hs : Sound h τ O A) (ha : (τ i).Alike t) (hl : (τ i).state ≠ .listen)
    (hl' : t.state ≠ .listen) (hown : i ∈ O → t.state ≠ .synReceived)
    (hchild : i ∉ O → t.state = (τ i).state ∨
      (τ i).state ≠ .synReceived ∧ (t.state = .established ∨ t.state = .closeWait)) :
    Sound h (update τ i t) O A := by
  have hil : ¬ Listening τ i := fun h => hl h.2
  have hup : ∀ l, i ∉ O → Child τ l i → Child (update τ i t) l i := by
    intro l ho hc
    have hli : l ≠ i := fun hli => hil (hli ▸ hc.listening)
    refine ⟨(listening_update_iff hli).2 hc.listening, by simpa [ha.inUse] using hc.inUse,
      by simpa [ha.parentListener] using hc.parent, by simpa [hli, ha.localPort] using hc.port, ?_⟩
    rw [update_self, update_of_ne hli]
    rcases hchild ho with h | ⟨h, hst⟩
    · rw [h]
      exact hc.state
    · exact Or.inr ⟨(hc.state.resolve_left h).1, hst⟩
  rw [← append_nil h]
  refine hs.replace trivial (by simp) (fun _ _ => Iff.rfl)
    (fun call hc => hil (hs.called call i hc).1) (fun j hc => hil hc.listening)
    (fun _ h => absurd h hl') ?_ (fun ho => ⟨ha.inUse.trans (hs.inUse i ho), hown ho⟩) ?_ ?_ ?_
  · intro ht _ j hj hju hjl hconn
    refine hj (hs.distinct j i hju (ha.inUse ▸ ht) hjl hl ⟨?_, ?_, ?_⟩)
    · rw [← hconn.1, ha.localPort]
    · rw [← hconn.2.1, ha.remoteIp]
    · rw [← hconn.2.2, ha.remotePort]
  · intro ht ho
    obtain ⟨l, hc⟩ := hs.child i (ha.inUse ▸ ht) ho
    exact ⟨l, hup l ho hc⟩
  · intro l hc ho
    have ht : (τ i).inUse = true := by simpa [ha.inUse] using hc.inUse
    obtain ⟨l', hc'⟩ := hs.child i ht ho
    have hl' : l = l' := by simpa [ha.parentListener, hc'.parent] using hc.parent.symm
    rw [append_nil, hl']
    exact hs.begun l' i hc' ho
  · intro l hl hm
    obtain ⟨ho, hc, hst⟩ := hs.queued l hl i hm
    refine ⟨ho, hup l ho hc, ?_⟩
    rcases hchild ho with h | ⟨-, h | h⟩
    · rwa [h]
    · rw [h]; simp
    · rw [h]; simp

/-- A connection that a listener's accept queue may hold. -/
structure Waiting (h : List Event) (τ : Fin 4 → Tcb) (l i : Fin 4) : Prop where
  inUse : (τ i).inUse = true
  parent : (τ i).parentListener = some l
  port : (τ i).localPort = (τ l).localPort
  state : (τ i).state = .established ∨ (τ i).state = .closeWait
  begun : Begun h i l

theorem Sound.waiting (hs : Sound h τ O A) (hl : Listening τ l) (hi : i ∈ (τ l).acceptQ) :
    Waiting h τ l i := by
  obtain ⟨ho, hc, hst⟩ := hs.queued l hl i hi
  exact ⟨hc.inUse, hc.parent, hc.port, (hc.state.resolve_left hst).2, hs.begun l i hc ho⟩

/-- The accept queue of a listener changes, and with it who owns the connections in it. -/
theorem Sound.requeue {O' : Set (Fin 4)} {q : List (Fin 4)} (hs : Sound h τ O A) (hl : Listening τ l)
    (hq : q.Nodup) (hin : ∀ i ∈ q, i ∉ O' ∧ Waiting h τ l i)
    (hown : ∀ i ∈ O', i ∈ O ∨ i ∈ (τ l).acceptQ)
    (hrest : ∀ i, i ∉ O' → i ∉ q → i ∉ O ∧ i ∉ (τ l).acceptQ) :
    Sound h (update τ l { τ l with acceptQ := q }) O' A := by
  set τ' := update τ l { τ l with acceptQ := q } with hτ'
  -- only the queue of `l` differs
  have hfield : ∀ j, (τ' j).inUse = (τ j).inUse ∧ (τ' j).state = (τ j).state ∧
      (τ' j).localPort = (τ j).localPort ∧ (τ' j).remoteIp = (τ j).remoteIp ∧
      (τ' j).remotePort = (τ j).remotePort ∧ (τ' j).parentListener = (τ j).parentListener := by
    intro j
    by_cases hj : j = l
    · subst hj
      simp [hτ']
    · simp [hτ', hj]
  have hlisten : ∀ j, Listening τ' j ↔ Listening τ j := by
    intro j
    rw [Listening, Listening, (hfield j).1, (hfield j).2.1]
  have hql : (τ' l).acceptQ = q := by simp [hτ']
  have hqj : ∀ j, j ≠ l → (τ' j).acceptQ = (τ j).acceptQ := fun j hj => by simp [hτ', hj]
  have hmem : ∀ i ∈ q, Child τ' l i := by
    intro i hi
    obtain ⟨-, hw⟩ := hin i hi
    refine ⟨(hlisten l).2 hl, (hfield i).1.trans hw.inUse, (hfield i).2.2.2.2.2.trans hw.parent, ?_, ?_⟩
    · rw [(hfield i).2.2.1, (hfield l).2.2.1, hw.port]
    · rw [hql, (hfield i).2.1]
      exact Or.inr ⟨hi, hw.state⟩
  -- a child outside the queues of `l`, old and new, is the one it was
  have hsame : ∀ k i, i ∉ q → i ∉ (τ l).acceptQ → (Child τ' k i ↔ Child τ k i) := by
    intro k i hi hi'
    have hst : (τ' i).state = .synReceived ∨
        i ∈ (τ' k).acceptQ ∧ ((τ' i).state = .established ∨ (τ' i).state = .closeWait) ↔
        (τ i).state = .synReceived ∨
        i ∈ (τ k).acceptQ ∧ ((τ i).state = .established ∨ (τ i).state = .closeWait) := by
      rw [(hfield i).2.1]
      by_cases hk : k = l
      · subst hk
        simp [hql, hi, hi']
      · rw [hqj k hk]
    constructor
    · intro hc
      refine ⟨(hlisten k).1 hc.listening, (hfield i).1 ▸ hc.inUse, ?_, ?_, hst.1 hc.state⟩
      · rw [← (hfield i).2.2.2.2.2]
        exact hc.parent
      · rw [← (hfield i).2.2.1, ← (hfield k).2.2.1]
        exact hc.port
    · intro hc
      refine ⟨(hlisten k).2 hc.listening, (hfield i).1.trans hc.inUse, ?_, ?_, hst.2 hc.state⟩
      · rw [(hfield i).2.2.2.2.2]
        exact hc.parent
      · rw [(hfield i).2.2.1, (hfield k).2.2.1]
        exact hc.port
  refine ⟨hs.lawful, ?_, ?_, ?_, ?_, ?_, ?_, ?_, ?_⟩
  · intro i j hi hj hil hjl hconn
    rw [(hfield i).1] at hi
    rw [(hfield j).1] at hj
    rw [(hfield i).2.1] at hil
    rw [(hfield j).2.1] at hjl
    refine hs.distinct i j hi hj hil hjl ?_
    rw [SameConn, (hfield i).2.2.1, (hfield j).2.2.1, (hfield i).2.2.2.1, (hfield j).2.2.2.1,
      (hfield i).2.2.2.2.1, (hfield j).2.2.2.2.1] at hconn
    exact hconn
  · intro i hi
    rw [(hfield i).1]
    rcases hown i hi with ho | hm
    · exact hs.inUse i ho
    · exact (hs.waiting hl hm).inUse
  · intro i hi
    rw [(hfield i).2.1]
    rcases hown i hi with ho | hm
    · exact hs.ready i ho
    · exact (hs.queued l hl i hm).2.2
  · intro i hi ho
    by_cases hiq : i ∈ q
    · exact ⟨l, hmem i hiq⟩
    · obtain ⟨ho', hm⟩ := hrest i ho hiq
      obtain ⟨k, hc⟩ := hs.child i ((hfield i).1 ▸ hi) ho'
      exact ⟨k, (hsame k i hiq hm).2 hc⟩
  · intro k hk
    by_cases hkl : k = l
    · subst hkl
      rwa [hql]
    · rw [hqj k hkl]
      exact hs.nodup k ((hlisten k).1 hk)
  · intro k hk i hi
    by_cases hkl : k = l
    · subst hkl
      rw [hql] at hi
      refine ⟨(hin i hi).1, hmem i hi, ?_⟩
      rw [(hfield i).2.1]
      rcases (hin i hi).2.state with h | h <;> rw [h] <;> simp
    · rw [hqj k hkl] at hi
      obtain ⟨ho, hc, hst⟩ := hs.queued k ((hlisten k).1 hk) i hi
      -- the parent says which queue a connection is in
      have hpar : ∀ j, Waiting h τ l j → (τ j).parentListener ≠ some k := fun j hw hp =>
        hkl (by simpa [hw.parent] using hp.symm)
      have hiq : i ∉ q := fun hm => hpar i (hin i hm).2 hc.parent
      have hil : i ∉ (τ l).acceptQ := fun hm => hpar i (hs.waiting hl hm) hc.parent
      refine ⟨fun ho' => ?_, (hsame k i hiq hil).2 hc, by rwa [(hfield i).2.1]⟩
      exact (hown i ho').elim ho hil
  · intro k i hc ho
    by_cases hiq : i ∈ q
    · have hk : k = l := by
        have := hc.parent
        rw [(hfield i).2.2.2.2.2, (hin i hiq).2.parent] at this
        simpa using this.symm
      rw [hk]
      exact (hin i hiq).2.begun
    · obtain ⟨ho', hm⟩ := hrest i ho hiq
      exact hs.begun k i ((hsame k i hiq hm).1 hc) ho'
  · intro call k hcall
    obtain ⟨hk, hc⟩ := hs.called call k hcall
    exact ⟨(hlisten k).2 hk, hc⟩

/-- The end of a passive handshake. For the moment before it joins the queue, the connection counts as
    owned. -/
theorem Sound.join (hs : Sound h τ O A) (hc : Child τ l i) (ho : i ∉ O) (ha : (τ i).Alike t)
    (hst : (τ i).state = .synReceived) (hst' : t.state = .established ∨ t.state = .closeWait) :
    Sound h (update (update τ i t) l
      { τ l with acceptQ := (τ l).acceptQ ++ [i] }) O A := by
  have hli : l ≠ i := hc.ne.symm
  have hil : ¬ Listening τ i := fun h => hc.state_ne_listen h.2
  have hne : t.state ≠ .listen ∧ t.state ≠ .synReceived := by
    rcases hst' with h | h <;> rw [h] <;> simp
  have hnotin : i ∉ (τ l).acceptQ := fun hm => (hs.queued l hc.listening i hm).2.2 hst
  have hmid : Sound (h ++ []) (update τ i t) (insert i O) A := by
    refine hs.replace trivial (by simp) (fun j hj => by simp [hj])
      (fun call hc => hil (hs.called call i hc).1) (fun j hc => hil hc.listening)
      (fun _ h => absurd h hne.1) (fun _ _ j hj hju hjl hconn => ?_)
      (fun _ => ⟨ha.inUse.trans hc.inUse, hne.2⟩) (fun _ h => absurd (Set.mem_insert i O) h)
      (fun _ _ h => absurd (Set.mem_insert i O) h) (fun k hk hm => ?_)
    · refine hj (hs.distinct j i hju hc.inUse hjl hc.state_ne_listen ⟨?_, ?_, ?_⟩)
      · rw [← hconn.1, ha.localPort]
      · rw [← hconn.2.1, ha.remoteIp]
      · rw [← hconn.2.2, ha.remotePort]
    · exact absurd hst (hs.queued k hk i hm).2.2
  rw [append_nil] at hmid
  have hl : Listening (update τ i t) l := (listening_update_iff hli).2 hc.listening
  have hql : (update τ i t l) = τ l := update_of_ne hli _ _
  rw [← hql]
  refine hmid.requeue hl ?_ ?_ ?_ ?_
  · rw [hql]
    exact List.Nodup.append (hs.nodup l hc.listening) (by simp) (by simpa using hnotin)
  · intro j hj
    rw [hql] at hj
    rcases mem_append.1 hj with hj | hj
    · have hw : Waiting h (update τ i t) l j := hmid.waiting hl (by rwa [hql])
      exact ⟨(hs.queued l hc.listening j hj).1, hw⟩
    · obtain rfl := mem_singleton.1 hj
      refine ⟨ho, ?_, ?_, ?_, ?_, hs.begun l j hc ho⟩
      · simpa [ha.inUse] using hc.inUse
      · simpa [ha.parentListener] using hc.parent
      · simpa [ha.localPort, hli] using hc.port
      · simpa using hst'
  · exact fun j hj => Or.inl (Set.mem_insert_of_mem i hj)
  · intro j hj hjq
    rw [hql, mem_append, mem_singleton, not_or] at hjq
    rw [hql]
    exact ⟨by simp [hj, hjq.2], hjq.1⟩

/-- A call of `accept` takes the head of the queue. -/
theorem Sound.dequeue {q : List (Fin 4)} {call : Nat} (hs : Sound h τ O A) (hl : Listening τ l)
    (hq : (τ l).acceptQ = i :: q) (hcall : Called h call l) :
    Sound (h ++ [.accepted call l i (τ l) (τ i)])
      (update τ l { τ l with acceptQ := q }) (insert i O) A := by
  have hmem : i ∈ (τ l).acceptQ := by simp [hq]
  have hw := hs.waiting hl hmem
  have hnodup := hs.nodup l hl
  rw [hq, nodup_cons] at hnodup
  have hnext : Sound h (update τ l { τ l with acceptQ := q }) (insert i O) A := by
    refine hs.requeue hl hnodup.2 (fun j hj => ?_) (fun j hj => ?_) (fun j hj hjq => ?_)
    · have hj' : j ∈ (τ l).acceptQ := by simp [hq, hj]
      have hji : j ≠ i := fun hji => hnodup.1 (hji ▸ hj)
      exact ⟨by simp [hji, (hs.queued l hl j hj').1], hs.waiting hl hj'⟩
    · rcases Set.mem_insert_iff.1 hj with rfl | hj
      · exact Or.inr hmem
      · exact Or.inl hj
    · simp only [Set.mem_insert_iff, not_or] at hj
      exact ⟨hj.2, by simp [hq, hj.1, hjq]⟩
  exact hnext.emit (by simp) ⟨⟨hl.1, hl.2, hw.inUse, hw.state, hw.port, hw.begun, hcall⟩, trivial⟩

end

/-! ## Finding control blocks -/

section

variable {T : Table} {port : UInt16}

theorem find_some {rip : UInt32} {rport : UInt16} {i : Fin 4} (h : T.find port rip rport = some i) :
    (T.tcbs i).inUse = true ∧ (T.tcbs i).state ≠ .listen ∧ (T.tcbs i).localPort = port ∧
      (T.tcbs i).remoteIp = rip ∧ (T.tcbs i).remotePort = rport := by
  have := find?_some h
  simpa [Table.isConn, and_assoc] using this

theorem find_none {rip : UInt32} {rport : UInt16} (h : T.find port rip rport = none) (i : Fin 4)
    (hu : (T.tcbs i).inUse = true) (hl : (T.tcbs i).state ≠ .listen) :
    ¬ ((T.tcbs i).localPort = port ∧ (T.tcbs i).remoteIp = rip ∧ (T.tcbs i).remotePort = rport) := by
  have := find?_eq_none.1 h i (mem_finRange i)
  simpa [Table.isConn, hu, hl] using this

theorem findListener_some {l : Fin 4} (h : T.findListener port = some l) :
    Listening T.tcbs l ∧ (T.tcbs l).localPort = port := by
  have := find?_some h
  simpa [Table.isListener, Listening] using this

theorem findFree_some {i : Fin 4} (h : T.findFree = some i) : (T.tcbs i).inUse = false := by
  have := find?_some h
  simpa using this

theorem isListening_iff {l : Fin 4} : T.isListening l = true ↔ Listening T.tcbs l := by
  simp [Table.isListening, Listening]

end

/-! ## The world -/

/-- What every input of a sane run keeps. -/
structure World.Ok (h : List Event) (w : World) : Prop where
  sound : Sound h w.table.tcbs w.Owned w.accepting
  connecting : ∀ i, (w.connecting i).isSome = true →
    i ∉ w.held ∧ i ∉ w.closing ∧ (w.table.tcbs i).state ≠ .listen
  closing : ∀ i ∈ w.closing, i ∉ w.held ∧ (w.table.tcbs i).state ≠ .listen

section

variable {h : List Event} {w : World} {dport : UInt16} {dst : UInt32}

/-- A world with other control blocks, in which the same calls wait. -/
theorem World.Ok.retable {e : List Event} (hw : w.Ok h) {T : Table}
    (hs : Sound (h ++ e) T.tcbs w.Owned w.accepting)
    (hl : ∀ i, (w.table.tcbs i).inUse = true → (w.table.tcbs i).state ≠ .listen →
      (T.tcbs i).state ≠ .listen) : (w.setTable T).Ok (h ++ e) where
  sound := hs
  connecting i hi := by
    obtain ⟨h1, h2, h3⟩ := hw.connecting i hi
    exact ⟨h1, h2, hl i (hw.sound.inUse i (Or.inr (Or.inl hi))) h3⟩
  closing i hi := by
    obtain ⟨h1, h2⟩ := hw.closing i hi
    exact ⟨h1, hl i (hw.sound.inUse i (Or.inr (Or.inr hi))) h2⟩

theorem queue_length {τ : Fin 4 → Tcb} {O : Set (Fin 4)} {A : Nat → Option (Fin 4)} {l : Fin 4}
    (hs : Sound h τ O A) (hl : Listening τ l) : (τ l).acceptQ.length < acceptMax := by
  have := (hs.nodup l hl).length_le_card
  simp only [Fintype.card_fin] at this
  unfold acceptMax
  omega

/-- A segment for a connection. -/
theorem World.Ok.deliver (hw : w.Ok h) {src : UInt32} {s : Segment} {i : Fin 4}
    (hf : w.table.find s.dstPort src s.srcPort = some i)
    (hsane : s.flags.rst = true → ∀ l, ¬ Child w.table.tcbs l i) :
    (w.setTable (w.table.input src s).1).Ok h := by
  obtain ⟨hu, hl, -⟩ := find_some hf
  have ha := (w.table.tcbs i).input_alike s
  have hleads := (w.table.tcbs i).input_leads s
  have hin : (w.table.input src s).1 =
      if (w.table.tcbs i).joins s then (w.table.set i ((w.table.tcbs i).input s).1).enqueue i
      else w.table.set i ((w.table.tcbs i).input s).1 := by
    unfold Table.input
    rw [hf]
  rw [hin]
  set t' := ((w.table.tcbs i).input s).1
  rw [← append_nil h]
  split
  · next hj =>
    have hj' := hj
    simp only [Tcb.joins, Bool.and_eq_true, Bool.not_eq_true', decide_eq_true_eq] at hj'
    obtain ⟨⟨⟨hr, hst⟩, -⟩, -⟩ := hj'
    have ho : i ∉ w.Owned := fun ho => hw.sound.ready i ho hst
    obtain ⟨l, hc⟩ := hw.sound.child i hu ho
    have hst' := Tcb.input_state_synReceived hr hst
    rw [if_pos hj] at hst'
    have hq : (w.table.set i t').enqueue i = (w.table.set i t').set l
        { w.table.tcbs l with acceptQ := (w.table.tcbs l).acceptQ ++ [i] } := by
      have hl' : (w.table.set i t').tcbs l = w.table.tcbs l := by simp [Table.set, hc.ne.symm]
      have hp : ((w.table.set i t').tcbs i).parentListener = some l := by
        simp [Table.set, ha.parentListener, hc.parent, t']
      unfold Table.enqueue
      rw [hp]
      dsimp only
      rw [hl', if_pos]
      simp [hc.listening.1, hc.listening.2, queue_length hw.sound hc.listening]
    rw [hq]
    refine hw.retable ?_ fun j hju hjl => ?_
    · rw [append_nil]
      exact hw.sound.join hc ho ha hst hst'
    · by_cases hjl' : j = l
      · subst hjl'
        exact absurd hc.listening.2 hjl
      · by_cases hji : j = i
        · subst hji
          simpa [Table.set, hjl'] using hleads.ne_listen hl
        · simpa [Table.set, hjl', hji] using hjl
  · next hj =>
    refine hw.retable ?_ fun j hju hjl => ?_
    · rw [append_nil]
      refine hw.sound.touch ha hl (hleads.ne_listen hl)
        (fun ho => hleads.ne_synReceived (hw.sound.ready i ho)) fun ho => ?_
      obtain ⟨l, hc⟩ := hw.sound.child i hu ho
      have hr : s.flags.rst = false := by
        by_contra hr
        exact hsane (by simpa using hr) l hc
      rcases hc.state with hst | ⟨-, hst⟩
      · have hst' := Tcb.input_state_synReceived hr hst
        rw [if_neg hj] at hst'
        exact Or.inl (hst'.trans hst.symm)
      · refine Or.inr ⟨?_, Tcb.input_state_established hr hst⟩
        rcases hst with h | h <;> rw [h] <;> simp
    · by_cases hji : j = i
      · subst hji
        simpa [Table.set] using hleads.ne_listen hl
      · simpa [Table.set, hji] using hjl

/-- A segment for no connection. -/
theorem World.Ok.arrive (hw : w.Ok h) {src : UInt32} {s : Segment}
    (hf : w.table.find s.dstPort src s.srcPort = none) :
    (w.setTable (w.table.input src s).1).Ok (h ++ w.begun src s) := by
  unfold Table.input World.begun
  rw [hf]
  dsimp only
  cases hlis : w.table.greeted s with
  | none =>
    rw [append_nil]
    exact hw
  | some l =>
    have hl : Listening w.table.tcbs l ∧ (w.table.tcbs l).localPort = s.dstPort := by
      unfold Table.greeted at hlis
      split at hlis
      · exact findListener_some hlis
      · simp at hlis
    dsimp only
    unfold Table.acceptSyn
    cases hfree : w.table.findFree with
    | none =>
      simp only [Option.map_none, Option.toList_none, append_nil]
      exact hw
    | some i =>
      have hi := findFree_some hfree
      refine hw.retable ?_ fun j hju hjl => ?_
      · refine hw.sound.spawn hi hl.1 ?_ ?_ ?_ ?_ fun j hju hjl hconn => ?_
        · simp only [Tcb.advertised, Table.child]
        · simp only [Tcb.advertised, Table.child]
        · simp only [Tcb.advertised, Table.child]
        · simp only [Tcb.advertised, Table.child]
        · refine find_none hf j hju hjl ⟨?_, ?_, ?_⟩
          · rw [← hconn.1, ← hl.2]
            simp only [Tcb.advertised, Table.child]
          · rw [← hconn.2.1]
            simp only [Tcb.advertised, Table.child]
          · rw [← hconn.2.2]
            simp only [Tcb.advertised, Table.child]
      · have hji : j ≠ i := fun hji => by simp [hji, hi] at hju
        simpa [Table.set, hji] using hjl

/-- A control block that is free belongs to no call. -/
theorem World.Ok.idle (hw : w.Ok h) {i : Fin 4} (hi : (w.table.tcbs i).inUse = false) :
    i ∉ w.held ∧ w.connecting i = none ∧ i ∉ w.closing := by
  have ho := (hw.sound.free hi).1
  simp only [World.mem_owned, not_or, Bool.not_eq_true, Option.isSome_eq_false_iff,
    Option.isNone_iff_eq_none] at ho
  exact ho

/-- An application gets a control block that was free. -/
theorem World.Ok.hold (hw : w.Ok h) {T : Table} {i : Fin 4} {t : Tcb}
    (hi : (w.table.tcbs i).inUse = false) (hT : T.tcbs = update w.table.tcbs i t)
    (hs : Sound h T.tcbs (insert i w.Owned) w.accepting) :
    World.Ok h { w with table := T, held := insert i w.held } := by
  obtain ⟨-, h2, h3⟩ := hw.idle hi
  have ho : World.Owned { w with table := T, held := insert i w.held } = insert i w.Owned := by
    ext j
    simp [World.mem_owned, or_assoc]
  refine ⟨ho ▸ hs, fun j hj => ?_, fun j hj => ?_⟩
  · have hji : j ≠ i := fun hji => by simp [hji, h2] at hj
    simpa [hT, hji] using hw.connecting j hj
  · have hji : j ≠ i := fun hji => h3 (hji ▸ hj)
    simpa [hT, hji] using hw.closing j hj

/-- A call of `net_tcp_connect` gets a control block that was free. -/
theorem World.Ok.dial (hw : w.Ok h) {T : Table} {i : Fin 4} {t : Tcb}
    (hi : (w.table.tcbs i).inUse = false) (hT : T.tcbs = update w.table.tcbs i t)
    (ht : t.state ≠ .listen) (hs : Sound h T.tcbs (insert i w.Owned) w.accepting) :
    World.Ok h { w with table := T, connecting := update w.connecting i (some 0) } := by
  obtain ⟨h1, -, h3⟩ := hw.idle hi
  have ho : World.Owned { w with
      table := T, connecting := update w.connecting i (some 0) } = insert i w.Owned := by
    ext j
    by_cases hji : j = i
    · subst hji
      simp [World.mem_owned]
    · simp [World.mem_owned, hji]
  refine ⟨ho ▸ hs, fun j hj => ?_, fun j hj => ?_⟩
  · by_cases hji : j = i
    · subst hji
      simpa [hT, h1, h3] using ht
    · simpa [hT, hji] using hw.connecting j (by simpa [hji] using hj)
  · have hji : j ≠ i := fun hji => h3 (hji ▸ hj)
    simpa [hT, hji] using hw.closing j hj

theorem World.Ok.listen (hw : w.Ok h) (port : UInt16) :
    (World.step w (.listen port)).1.Ok (h ++ (World.step w (.listen port)).2) := by
  simp only [World.step, append_nil]
  unfold Table.listen
  cases hfree : w.table.findFree with
  | none => simpa using hw
  | some i =>
    have hi := findFree_some hfree
    have hs : Sound h (update w.table.tcbs i (w.table.listener port)) (insert i w.Owned)
        w.accepting := hw.sound.alloc hi (by simp [Table.listener]) rfl rfl fun hl => absurd rfl hl
    have := hw.hold (T := w.table.set i (w.table.listener port)) hi rfl hs
    simpa [Finset.union_comm] using this

/-- What `net_tcp_connect_start` leaves where it finds a control block. -/
theorem connectStart_some {T : Table} {i : Fin 4} (hfree : T.findFree = some i) (dst : UInt32)
    (dport : UInt16) : (T.connectStart dst dport).2.1 = some i ∧
      (T.connectStart dst dport).1.tcbs = update T.tcbs i
        { (T.client dst dport).advertised with sndNxt := (T.client dst dport).sndUna + 1 } := by
  unfold Table.connectStart
  rw [hfree]
  exact ⟨rfl, rfl⟩

theorem Sound.client {T : Table} {O : Set (Fin 4)} {A : Nat → Option (Fin 4)}
    (hs : Sound h T.tcbs O A) {i : Fin 4} (hi : (T.tcbs i).inUse = false)
    (hf : T.find T.nextPort dst dport = none) :
    Sound h (update T.tcbs i
      { (T.client dst dport).advertised with sndNxt := (T.client dst dport).sndUna + 1 })
      (insert i O) A := by
  refine hs.alloc hi ?_ ?_ ?_ fun _ j hju hjl hconn => find_none hf j hju hjl ⟨?_, ?_, ?_⟩
  · simp [Tcb.advertised, Table.client]
  · simp only [Tcb.advertised, Table.client, Tcb.zero]
  · simp only [Tcb.advertised, Table.client]
  · rw [← hconn.1]
    simp only [Tcb.advertised, Table.client]
  · rw [← hconn.2.1]
    simp only [Tcb.advertised, Table.client]
  · rw [← hconn.2.2]
    simp only [Tcb.advertised, Table.client]

theorem connectStart_none {T : Table} (hfree : T.findFree = none) (dst : UInt32) (dport : UInt16) :
    T.connectStart dst dport = (T, none, []) := by
  unfold Table.connectStart
  rw [hfree]

theorem World.Ok.connectStart (hw : w.Ok h) (hf : w.table.find w.table.nextPort dst dport = none) :
    (World.step w (.connectStart dst dport)).1.Ok (h ++ (World.step w (.connectStart dst dport)).2) := by
  simp only [World.step, append_nil]
  cases hfree : w.table.findFree with
  | none => simpa [connectStart_none hfree] using hw
  | some i =>
    have hi := findFree_some hfree
    obtain ⟨h1, h2⟩ := connectStart_some hfree dst dport
    have := hw.hold hi h2 (h2 ▸ hw.sound.client hi hf)
    rw [h1]
    simpa [Finset.union_comm] using this

theorem World.Ok.connect (hw : w.Ok h) (hf : w.table.find w.table.nextPort dst dport = none) :
    (World.step w (.connect dst dport)).1.Ok (h ++ (World.step w (.connect dst dport)).2) := by
  simp only [World.step]
  cases hfree : w.table.findFree with
  | none =>
    rw [connectStart_none hfree]
    dsimp only
    rw [append_nil]
    exact hw
  | some i =>
    have hi := findFree_some hfree
    obtain ⟨h1, h2⟩ := connectStart_some hfree dst dport
    rw [h1]
    dsimp only
    rw [append_nil]
    refine hw.dial hi h2 ?_ (h2 ▸ hw.sound.client hi hf)
    simp [Tcb.advertised, Table.client]

/-- A control block is freed by its owner, and no call names it any more. -/
theorem World.Ok.free (hw : w.Ok h) {w' : World} {i : Fin 4} {t : Tcb} (hi : i ∈ w.Owned)
    (hT : w'.table.tcbs = update w.table.tcbs i t) (ht : t.inUse = false)
    (hheld : w'.held = w.held.erase i) (hconn : w'.connecting = update w.connecting i none)
    (hclos : w'.closing = w.closing.erase i) (hacc : w'.accepting = w.accepting)
    (hdes : Listening w.table.tcbs i → w.Deserted i) : w'.Ok (h ++ [.freed i]) := by
  have ho : w'.Owned = w.Owned \ {i} := by
    ext j
    by_cases hji : j = i
    · subst hji
      simp [World.mem_owned, hheld, hconn, hclos]
    · simp [World.mem_owned, hheld, hconn, hclos, hji]
  refine ⟨?_, fun j hj => ?_, fun j hj => ?_⟩
  · rw [ho, hT, hacc]
    exact hw.sound.retire hi ht hdes
  · have hji : j ≠ i := fun hji => by simp [hconn, hji] at hj
    have := hw.connecting j (by simpa [hconn, hji] using hj)
    simpa [hT, hheld, hclos, hji] using this
  · have hji : j ≠ i := fun hji => by simp [hclos, hji] at hj
    have := hw.closing j (by simpa [hclos, hji] using hj)
    simpa [hT, hheld, hji] using this

/-- A connection attempt fails. -/
theorem World.Ok.giveUp (hw : w.Ok h) {i : Fin 4} (hi : (w.connecting i).isSome = true) :
    World.Ok (h ++ [.freed i]) { w with
      table := w.table.release i, connecting := update w.connecting i none } := by
  obtain ⟨h1, h2, h3⟩ := hw.connecting i hi
  refine hw.free (Or.inr (Or.inl hi)) rfl rfl ?_ rfl ?_ rfl fun hl => absurd hl.2 h3
  · exact (Finset.erase_eq_of_notMem h1).symm
  · exact (Finset.erase_eq_of_notMem h2).symm

theorem World.Ok.connectPoll (hw : w.Ok h) {i : Fin 4} (hi : (w.connecting i).isSome = true)
    (r : Nat) : (w.connectPoll i r).1.Ok (h ++ (w.connectPoll i r).2) := by
  obtain ⟨h1, h2, h3⟩ := hw.connecting i hi
  unfold World.connectPoll
  split
  · exact hw.giveUp hi
  split
  · rw [append_nil]
    have ho : World.Owned { w with
        held := insert i w.held, connecting := update w.connecting i none } = w.Owned := by
      ext j
      by_cases hji : j = i
      · subst hji
        simp [World.mem_owned, hi]
      · simp [World.mem_owned, hji]
    refine ⟨ho ▸ hw.sound, fun j hj => ?_, fun j hj => ?_⟩
    · have hji : j ≠ i := fun hji => by simp [hji] at hj
      simpa [hji] using hw.connecting j (by simpa [hji] using hj)
    · have hji : j ≠ i := fun hji => h2 (hji ▸ hj)
      simpa [hji] using hw.closing j hj
  · rw [append_nil]
    have ho : World.Owned { w with connecting := update w.connecting i (some r) } = w.Owned := by
      ext j
      by_cases hji : j = i
      · subst hji
        simp [World.mem_owned, hi]
      · simp [World.mem_owned, hji]
    refine ⟨ho ▸ hw.sound, fun j hj => ?_, hw.closing⟩
    by_cases hji : j = i
    · subst hji
      exact ⟨h1, h2, h3⟩
    · exact hw.connecting j (by simpa [hji] using hj)

theorem World.Ok.connectLate (hw : w.Ok h) {i : Fin 4} (hi : (w.connecting i).isSome = true)
    (r : Nat) : (w.connectLate i r).1.Ok (h ++ (w.connectLate i r).2) := by
  obtain ⟨h1, h2, h3⟩ := hw.connecting i hi
  unfold World.connectLate
  split
  · exact hw.giveUp hi
  · -- the SYN sent again changes the sequence number only
    have hsyn : (w.setTable (w.table.resendSyn i).1).Ok h := by
      obtain ⟨t', ht', ha, hst⟩ : ∃ t', (w.table.resendSyn i).1 = w.table.set i t' ∧
          (w.table.tcbs i).Alike t' ∧ t'.state = (w.table.tcbs i).state := by
        obtain ⟨x, hx⟩ := (w.table.tcbs i).advertised_eq
        refine ⟨_, rfl, ?_, ?_⟩ <;> rw [hx]
        exact ⟨rfl, rfl, rfl, rfl, rfl, rfl⟩
      rw [ht', ← append_nil h]
      refine hw.retable ?_ fun j hju hjl => ?_
      · rw [append_nil]
        refine hw.sound.touch ha h3 ?_ (fun ho => ?_) fun _ => Or.inl hst
        · rwa [hst]
        · rw [hst]
          exact hw.sound.ready i ho
      · by_cases hji : j = i
        · subst hji
          simpa [Table.set, hst] using hjl
        · simpa [Table.set, hji] using hjl
    exact hsyn.connectPoll hi (r + 1)

theorem World.Ok.unwait (hw : w.Ok h) (call : Nat) :
    World.Ok h { w with accepting := update w.accepting call none } := by
  refine ⟨{ hw.sound with called := fun c l hc => ?_ }, hw.connecting, hw.closing⟩
  by_cases hcall : c = call
  · subst hcall
    simp at hc
  · exact hw.sound.called c l (by simpa [hcall] using hc)

theorem World.Ok.acceptPoll (hw : w.Ok h) {call : Nat} {l : Fin 4} (hcall : Called h call l)
    (last : Bool) : (w.acceptPoll call l last).1.Ok (h ++ (w.acceptPoll call l last).2) := by
  unfold World.acceptPoll
  split
  · rw [append_nil]
    exact hw.unwait call
  next hl =>
  have hl : Listening w.table.tcbs l := isListening_iff.1 (by simpa using hl)
  unfold Table.dequeue
  cases hq : (w.table.tcbs l).acceptQ with
  | nil =>
    dsimp only
    rw [append_nil]
    refine ⟨{ hw.sound with called := fun c k hc => ?_ }, hw.connecting, hw.closing⟩
    by_cases hc' : c = call
    · subst hc'
      simp only [update_self] at hc
      split at hc
      · simp at hc
      · obtain rfl := Option.some.inj hc
        exact ⟨hl, hcall⟩
    · exact hw.sound.called c k (by simpa [hc'] using hc)
  | cons c q =>
    dsimp only
    have hmem : c ∈ (w.table.tcbs l).acceptQ := by simp [hq]
    obtain ⟨hco, hchild, -⟩ := hw.sound.queued l hl c hmem
    have hs := (hw.unwait call).sound.dequeue hl hq hcall
    have ho : ∀ T, World.Owned { w with
        table := T, held := insert c w.held,
        accepting := update w.accepting call none } = insert c w.Owned := by
      intro T
      ext j
      simp [World.mem_owned, or_assoc]
    simp only [World.mem_owned, not_or, Bool.not_eq_true] at hco
    have hstate : ∀ j, ((w.table.set l { w.table.tcbs l with acceptQ := q }).tcbs j).state =
        (w.table.tcbs j).state := by
      intro j
      by_cases hj : j = l
      · subst hj
        simp [Table.set]
      · simp [Table.set, hj]
    refine ⟨ho _ ▸ hs, fun j hj => ?_, fun j hj => ?_⟩
    · have hjc : j ≠ c := fun hjc => by simp [hjc, hco.2.1] at hj
      simpa [hjc, hstate] using hw.connecting j hj
    · have hjc : j ≠ c := fun hjc => hco.2.2 (hjc ▸ hj)
      simpa [hjc, hstate] using hw.closing j hj

/-- `net_tcp_close` begins. -/
theorem World.Ok.close (hw : w.Ok h) {i : Fin 4}
    (hdes : w.table.isListening i = true → w.Deserted i) :
    (World.step w (.close i)).1.Ok (h ++ (World.step w (.close i)).2) := by
  have hdes' : Listening w.table.tcbs i → w.Deserted i := fun hl => hdes (isListening_iff.2 hl)
  simp only [World.step]
  split
  · rw [append_nil]
    exact hw
  next hi =>
  have hi : i ∈ w.held := by simpa using hi
  have hnc : w.connecting i = none := by
    by_contra hc
    exact (hw.connecting i (Option.isSome_iff_ne_none.2 hc)).1 hi
  have hncl : i ∉ w.closing := fun hc => (hw.closing i hc).1 hi
  by_cases hst : (w.table.tcbs i).state = .established ∨ (w.table.tcbs i).state = .closeWait
  · -- a FIN is sent and the call waits
    set t' := (w.table.tcbs i).close.1 with ht'
    have hclose : (w.table.tcbs i).close.2.1 = true := by simp [Tcb.close, hst]
    have ha : (w.table.tcbs i).Alike t' := by
      rw [ht', Tcb.close, if_pos (by simpa using hst)]
      constructor <;> simp only [Tcb.advertised]
    have hst' : t'.state = .lastAck ∨ t'.state = .finWait1 := by
      rw [ht', Tcb.close, if_pos (by simpa using hst)]
      simp only [Tcb.advertised]
      split
      · exact Or.inl rfl
      · exact Or.inr rfl
    have hl : (w.table.tcbs i).state ≠ .listen := by rcases hst with h | h <;> rw [h] <;> simp
    have hl' : t'.state ≠ .listen ∧ t'.state ≠ .synReceived := by
      rcases hst' with h | h <;> rw [h] <;> simp
    rw [if_pos hclose, append_nil]
    have ho : World.Owned { w with
        table := w.table.set i t', held := w.held.erase i, closing := insert i w.closing } = w.Owned := by
      ext j
      by_cases hji : j = i
      · subst hji
        simp [World.mem_owned, hi]
      · simp [World.mem_owned, hji]
    have hs : Sound h (update w.table.tcbs i t') w.Owned w.accepting :=
      hw.sound.touch ha hl hl'.1 (fun _ => hl'.2) fun hno => absurd (Or.inl hi) hno
    refine ⟨ho ▸ hs, fun j hj => ?_, fun j hj => ?_⟩
    · have hji : j ≠ i := fun hji => by simp [hji, hnc] at hj
      simpa [Table.set, hji] using hw.connecting j hj
    · by_cases hji : j = i
      · subst hji
        simpa [Table.set] using hl'.1
      · simpa [Table.set, hji] using hw.closing j (by simpa [hji] using hj)
  · have hclose : (w.table.tcbs i).close.2.1 = false := by
      rw [Tcb.close, if_neg (by simpa using hst)]
    have hfree : (w.table.tcbs i).close.1.inUse = false := by
      rw [Tcb.close, if_neg (by simpa using hst)]
    rw [if_neg (by simp [hclose])]
    refine hw.free (Or.inl hi) rfl hfree rfl ?_ ?_ rfl hdes'
    · exact (update_eq_self_iff.2 hnc.symm).symm
    · exact (Finset.erase_eq_of_notMem hncl).symm

theorem World.Ok.closeTurn (hw : w.Ok h) (i : Fin 4) (late : Bool) :
    (World.step w (.closeTurn i late)).1.Ok (h ++ (World.step w (.closeTurn i late)).2) := by
  simp only [World.step]
  split
  · next hi =>
    simp only [Bool.and_eq_true, decide_eq_true_eq] at hi
    obtain ⟨h1, h2⟩ := hw.closing i hi.1
    have hnc : w.connecting i = none := by
      by_contra hc
      exact (hw.connecting i (Option.isSome_iff_ne_none.2 hc)).2.1 hi.1
    refine hw.free (Or.inr (Or.inr hi.1)) rfl rfl ?_ ?_ rfl rfl fun hl => absurd hl.2 h2
    · exact (Finset.erase_eq_of_notMem h1).symm
    · exact (update_eq_self_iff.2 hnc.symm).symm
  · rw [append_nil]
    exact hw

theorem World.Ok.abort (hw : w.Ok h) {i : Fin 4}
    (hdes : w.table.isListening i = true → w.Deserted i) :
    (World.step w (.abort i)).1.Ok (h ++ (World.step w (.abort i)).2) := by
  simp only [World.step]
  split
  · rw [append_nil]
    exact hw
  next hi =>
  have hi : i ∈ w.held := by simpa using hi
  have hnc : w.connecting i = none := by
    by_contra hc
    exact (hw.connecting i (Option.isSome_iff_ne_none.2 hc)).1 hi
  have hncl : i ∉ w.closing := fun hc => (hw.closing i hc).1 hi
  refine hw.free (Or.inl hi) rfl rfl rfl ?_ ?_ rfl fun hl => hdes (isListening_iff.2 hl)
  · exact (update_eq_self_iff.2 hnc.symm).symm
  · exact (Finset.erase_eq_of_notMem hncl).symm

/-- One input of a sane run. -/
theorem World.Ok.step (hw : w.Ok h) {i : Input} (hi : w.Sane i) :
    (stack.step w i).1.Ok (h ++ (stack.step w i).2) := by
  cases i with
  | segment src s =>
    show (w.setTable (w.table.input src s).1).Ok (h ++ w.begun src s)
    cases hf : w.table.find s.dstPort src s.srcPort with
    | none => exact hw.arrive hf
    | some i =>
      have hb : w.begun src s = [] := by
        unfold World.begun
        rw [hf]
      rw [hb, append_nil]
      exact hw.deliver hf fun hr l => hi hr i l hf
  | listen port => exact hw.listen port
  | connectStart dst dport => exact hw.connectStart hi
  | connect dst dport => exact hw.connect hi
  | connectTurn i late =>
    show (World.step w (.connectTurn i late)).1.Ok (h ++ (World.step w (.connectTurn i late)).2)
    simp only [World.step]
    cases hc : w.connecting i with
    | none =>
      rw [append_nil]
      exact hw
    | some r =>
      have hsome : (w.connecting i).isSome = true := by simp [hc]
      dsimp only
      split
      · exact hw.connectLate hsome r
      · exact hw.connectPoll hsome r
  | accept call l nonblock =>
    show (World.step w (.accept call l nonblock)).1.Ok (h ++ (World.step w (.accept call l nonblock)).2)
    simp only [World.step]
    split
    · rw [append_nil]
      exact hw
    · have hcall : World.Ok (h ++ [.accepting call l]) w :=
        ⟨hw.sound.emit (by simp) ⟨trivial, trivial⟩, hw.connecting, hw.closing⟩
      rw [append_cons]
      exact hcall.acceptPoll (since_concat rfl) nonblock
  | acceptTurn call late =>
    show (World.step w (.acceptTurn call late)).1.Ok (h ++ (World.step w (.acceptTurn call late)).2)
    simp only [World.step]
    cases hc : w.accepting call with
    | none =>
      rw [append_nil]
      exact hw
    | some l => exact hw.acceptPoll (hw.sound.called call l hc).2 late
  | close i => exact hw.close hi
  | closeTurn i late => exact hw.closeTurn i late
  | abort i => exact hw.abort hi

theorem World.Ok.safe (hw : w.Ok h) : TableSafe h w := by
  refine ⟨hw.sound.distinct, fun pre call l i lis t post he => hw.sound.lawful.at_event he,
    fun i hi => ?_, fun ho i => ?_⟩
  · by_cases hio : i ∈ w.Owned
    · exact Or.inl hio
    · obtain ⟨l, hc⟩ := hw.sound.child i hi hio
      exact Or.inr ⟨l, hw.sound.listening_owned hc.listening, hc⟩
  · by_contra hi
    obtain ⟨l, hc⟩ := hw.sound.child i (by simpa using hi) (by simp [ho])
    have := hw.sound.listening_owned hc.listening
    simp [ho] at this

end

/-- The table before the first call. -/
def empty (T : Table) : World := ⟨T, ∅, fun _ => none, fun _ => none, ∅⟩

namespace Sample

def table : Table := ⟨fun _ => Tcb.zero, 1, 40000, 0x1000, 0x50000000⟩

def segment (seq ackNo : UInt32) (flags : Flags) : Segment :=
  { srcPort := 1000, dstPort := 80, seq, ackNo, flags, window := 1000, data := [] }

theorem zero_lt_slots : 0 < 4 := by decide

theorem one_lt_slots : 1 < 4 := by decide

/-- The slot of the listener, and the one its child takes. -/
def door : Fin 4 := ⟨0, zero_lt_slots⟩

def guest : Fin 4 := ⟨1, one_lt_slots⟩

/-- A client connects to a listener, is accepted and closed. -/
def visit : List Input :=
  [.listen 80, .segment 7 (segment 5 0 { syn := true }),
   .segment 7 (segment 6 0x50007C32 { ack := true }), .accept 0 door true, .close guest,
   .closeTurn guest true]

end Sample

end EmbLinkOs.Tcp
