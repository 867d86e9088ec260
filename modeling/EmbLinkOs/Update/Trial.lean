import EmbLinkOs.Update.Coherent
import EmbLinkOs.Update.Sha256

set_option autoImplicit false

/-! # A trial runs once

What the dispatcher may start is read off the history: the slot that was confirmed last, or a slot
made pending by a stage or a rollback, as long as it has neither been started nor rejected since and
neither a confirmation nor another stage or rollback came in between. Journal writes may fail or
tear in any way, and power may be lost at any point. -/

namespace EmbLinkOs.Update

open List

open History

/-! ## Reading the history -/

/-- The event confirms the slot `p`. -/
def Confirms (p : UInt8) : Event → Prop
  | .installed s => s.active = p
  | .journal .confirm _ t => t.active = p
  | _ => False

def Confirming (e : Event) : Prop := ∃ p, Confirms p e

/-- The event makes the slot `p` pending. -/
def Makes (p : UInt8) : Event → Prop
  | .installed s => s.pending = p ∧ p ≠ noSlot
  | .journal .stage _ t => t.pending = p ∧ p ≠ noSlot
  | .journal .rollback _ t => t.pending = p ∧ p ≠ noSlot
  | _ => False

/-- The event ends a trial: a confirmation, or a new stage or rollback. -/
def Ends : Event → Prop
  | .installed _ => True
  | .journal .stage _ _ => True
  | .journal .rollback _ _ => True
  | .journal .confirm _ _ => True
  | _ => False

/-- The event rejects the slot `p`. -/
def Rejects (p : UInt8) : Event → Prop
  | .journal .reject b _ => b.pending = p ∧ p ≠ noSlot
  | _ => False

/-- `p` is the slot confirmed last. -/
def Confirmed (h : List Event) (p : UInt8) : Prop := Since (Confirms p) (fun e => ¬ Confirming e) h

/-- `p` was made pending, and its trial has neither ended nor been rejected. -/
def OnTrial (h : List Event) (p : UInt8) : Prop :=
  Since (Makes p) (fun e => ¬ Ends e ∧ ¬ Rejects p e) h

/-- The same, and `p` has not been started since. -/
def Untried (h : List Event) (p : UInt8) : Prop :=
  Since (Makes p) (fun e => (¬ Ends e ∧ ¬ Rejects p e) ∧ e ≠ .start p) h

/-- What may follow on `past`. -/
def Allowed (past : List Event) : Event → Prop
  | .installed s => past = [] ∧ (s.pending ≠ noSlot → s.pending ≠ s.active)
  | .journal .stage _ t => ¬ Confirmed past t.pending
  | .journal .rollback _ t => ¬ Confirmed past t.pending
  | .journal .confirm _ t => OnTrial past t.active
  | .journal .reject b _ => b.pending ≠ noSlot → ¬ Confirmed past b.pending
  | .start p => Confirmed past p ∨ Untried past p
  | _ => True

/-! ## From the allowed steps to the claim -/

variable {h : List Event} {e : Event}

theorem Confirmed.unique {p q : UInt8} (hp : Confirmed h p) (hq : Confirmed h q) : p = q := by
  obtain ⟨x, hx, hx'⟩ := hp.meet hq (fun x hx hn => hn ⟨p, hx⟩) (fun x hx hn => hn ⟨q, hx⟩)
  cases x with
  | installed s => exact hx.symm.trans hx'
  | journal k b t =>
    cases k with
    | confirm => exact hx.symm.trans hx'
    | beginWrite => exact absurd hx (by simp [Confirms])
    | stage => exact absurd hx (by simp [Confirms])
    | reject => exact absurd hx (by simp [Confirms])
    | spend => exact absurd hx (by simp [Confirms])
    | rollback => exact absurd hx (by simp [Confirms])
  | start => exact absurd hx (by simp [Confirms])
  | imageWrite => exact absurd hx (by simp [Confirms])
  | embedded => exact absurd hx (by simp [Confirms])
  | halt => exact absurd hx (by simp [Confirms])

theorem Confirming.ends (h : Confirming e) : Ends e := by
  obtain ⟨p, hp⟩ := h
  revert hp
  unfold Confirms Ends
  split <;> simp

theorem Makes.ends {p : UInt8} (h : Makes p e) : Ends e := by
  revert h
  unfold Makes Ends
  split <;> simp

/-- The history explains the record in force. -/
structure Explains (h : List Event) (s : State) : Prop where
  active : Confirmed h s.active
  pending : s.pending ≠ noSlot → OnTrial h s.pending
  untried : s.pending ≠ noSlot → s.attempts ≠ 0 → Untried h s.pending

/-- The history is allowed and explains the record in force. -/
def Explained (h : List Event) (d : Disk) : Prop :=
  Justified Allowed [] h ∧ ∃ r s, d.chosen = some (r, s) ∧ Explains h s

/-- Events that decide nothing about trials. -/
def Event.Idle (p : UInt8) (e : Event) : Prop :=
  ¬ Ends e ∧ ¬ Rejects p e ∧ e ≠ .start p

theorem Explains.append {e : List Event} {s : State} (hs : Explains h s)
    (he : ∀ x ∈ e, x.Idle s.pending) : Explains (h ++ e) s where
  active := Since.append hs.active fun y hy hc => (he y hy).1 hc.ends
  pending hp := (hs.pending hp).append fun y hy => ⟨(he y hy).1, (he y hy).2.1⟩
  untried hp ha := (hs.untried hp ha).append fun y hy => ⟨⟨(he y hy).1, (he y hy).2.1⟩, (he y hy).2.2⟩

theorem Explained.append {e : List Event} {d d' : Disk} (hE : Explained h d)
    (hd : d'.control = d.control) (he : ∀ x ∈ e, ∀ p, x.Idle p ∧ ∀ past, Allowed past x) :
    Explained (h ++ e) d' := by
  obtain ⟨hj, r, s, hc, hs⟩ := hE
  refine ⟨(justified_append [] h e).2 ⟨hj, ?_⟩, r, s, ?_, hs.append fun x hx => (he x hx _).1⟩
  · generalize [] ++ h = past
    induction e generalizing past with
    | nil => trivial
    | cons x e ih =>
      exact ⟨(he x (by simp) 0).2 past, ih (fun y hy => he y (by simp [hy])) _⟩
  · rw [chosen_congr hd, hc]

/-- A record that reaches the journal is allowed, and the history goes on to explain it. -/
theorem Explains.transition {s s' : State} {k : Kind} (hs : Explains h s) (ht : Transition k s s') :
    Allowed h (.journal k s s') ∧ Explains (h ++ [.journal k s s']) s' := by
  have hact : ∀ p, p ≠ s.active → ¬ Confirmed h p := fun p hp hc => hp (hc.unique hs.active)
  have hkeep : ∀ {e : Event}, ¬ Ends e → Confirmed (h ++ [e]) s.active := fun he =>
    Since.append hs.active (by simpa using fun hc => he (Confirming.ends hc))
  cases ht with
  | beginWrite ht =>
    obtain ⟨-, -, hp, -, rfl⟩ := beginWrite_ok ht
    refine ⟨trivial, hkeep (by simp [Ends]), fun h => absurd hp h, fun h => absurd hp h⟩
  | @stage _ _ i c ht =>
    obtain ⟨hv, hi, hne, -, -, -, rfl⟩ := stage_ok ht
    have hactive : (s.setSlot i c).active = s.active := by
      unfold State.setSlot
      split <;> rfl
    refine ⟨hact _ hne, ?_, fun hp => since_concat ⟨rfl, hp⟩, fun hp _ => since_concat ⟨rfl, hp⟩⟩
    show Confirmed _ (s.setSlot i c).active
    rw [hactive]
    exact Since.append hs.active (by simp [Confirming, Confirms])
  | reject ht =>
    obtain ⟨hv, -, -, rfl⟩ := reject_ok ht
    exact ⟨fun hp => hact _ ((valid_facts hv).2.1 hp).2.1, hkeep (by simp [Ends]),
      fun h => absurd rfl h, fun h => absurd rfl h⟩
  | spend ht hne =>
    obtain ⟨hv, hp, -, -, rfl⟩ := spend_ok ht hne
    exact ⟨trivial, hkeep (by simp [Ends]),
      fun _ => (hs.pending hp).append (by simp [Ends, Rejects]), fun _ h => absurd rfl h⟩
  | confirm ht =>
    obtain ⟨hv, hi, hp, -, -, rfl⟩ := confirm_ok ht
    have hpend : s.pending ≠ noSlot := hp ▸ noSlot_of_le hi
    refine ⟨?_, since_concat rfl, fun h => absurd rfl h, fun h => absurd rfl h⟩
    rw [← hp]
    exact hs.pending hpend
  | rollback ht =>
    obtain ⟨hv, hprev, -, -, rfl⟩ := rollback_ok ht
    exact ⟨hact _ ((valid_facts hv).2.2.2 hprev).2,
      Since.append hs.active (by simp [Confirming, Confirms]), fun hp => since_concat ⟨rfl, hp⟩,
      fun hp _ => since_concat ⟨rfl, hp⟩⟩

theorem Explained.journal {d : Disk} {r : Bool} {s s' : State} {k : Kind} {p : Bytes} (o : Outcome)
    (hE : Explained h d) (hc : d.chosen = some (r, s)) (ht : Transition k s s')
    (hp : encode s' = some p) : Explained (h ++ o.events (.journal k s s')) (d.record r p o) := by
  obtain ⟨hj, r₁, s₁, hc₁, hs⟩ := hE
  obtain ⟨rfl, rfl⟩ : r₁ = r ∧ s₁ = s := by simpa using hc₁.symm.trans hc
  have hc' := chosen_record hc ht hp o
  unfold Outcome.events
  by_cases hl : o.landed = true
  · rw [if_pos hl] at hc' ⊢
    obtain ⟨hall, hs'⟩ := hs.transition ht
    exact ⟨(justified_append [] h _).2 ⟨hj, by simpa using hall⟩, _, _, hc', hs'⟩
  · rw [if_neg hl] at hc' ⊢
    rw [append_nil]
    exact ⟨hj, _, _, hc', hs⟩

theorem bootKeeps_explained [Sha256] (L : Layout) : BootKeeps L Explained where
  journal o hE hc ht _ hp := hE.journal o hc ht hp
  active {h d r s} hE hc := by
    obtain ⟨hj, r₁, s₁, hc₁, hs⟩ := hE
    obtain ⟨rfl, rfl⟩ : r₁ = r ∧ s₁ = s := by simpa using hc₁.symm.trans hc
    refine ⟨(justified_append [] h _).2 ⟨hj, by simpa [Allowed] using Or.inl hs.active⟩, _, _, hc, ?_⟩
    by_cases hp : s₁.pending = noSlot
    · exact ⟨Since.append hs.active (by simp [Confirming, Confirms]), fun h => absurd hp h,
        fun h => absurd hp h⟩
    · have hne := ((valid_facts (chosen_valid hc)).2.1 hp).2.1
      exact hs.append (by simpa [Event.Idle, Ends, Rejects] using fun h => hne h.symm)
  trial {h d r s s' p fw} hE hc hb hne hp hch := by
    have ht := Transition.spend hb hne
    obtain ⟨hj, r₁, s₁, hc₁, hs⟩ := hE
    obtain ⟨rfl, rfl⟩ : r₁ = r ∧ s₁ = s := by simpa using hc₁.symm.trans hc
    obtain ⟨hv, hno, hatt, -, hs'⟩ := spend_ok hb hne
    obtain ⟨hall, hex⟩ := hs.transition ht
    have huntried : Untried (h ++ [.journal .spend s₁ s']) s₁.pending :=
      (hs.untried hno hatt).append (by simp [Ends, Rejects])
    have hc' : (d.record r₁ p .done).chosen = some (!r₁, s') := chosen_record hc ht hp .done
    refine ⟨(justified_append [] h _).2 ⟨hj, ?_⟩, _, _, hc', ?_⟩
    · simpa [Allowed] using Or.inr huntried
    · rw [show h ++ [.journal .spend s₁ s', .start s₁.pending] =
        (h ++ [.journal .spend s₁ s']) ++ [.start s₁.pending] by simp]
      refine ⟨Since.append hex.active (by simp [Confirming, Confirms]),
        fun hp' => (hex.pending hp').append (by simp [Ends, Rejects]), fun _ ha => ?_⟩
      exact absurd (by rw [hs']; rfl) ha
  embedded hE := hE.append rfl (by simp [Event.Idle, Ends, Rejects, Allowed])

/-- A call of the service. -/
theorem Moves.explained {d : Disk} {r : Reply} (hm : Moves d r) (hE : Explained h d) :
    Explained (h ++ r.events) r.disk := by
  cases hm with
  | quiet hd he =>
    refine hE.append hd fun x hx p => ?_
    obtain ⟨t, rfl, -⟩ := he x hx
    simp [Event.Idle, Ends, Rejects, Allowed]
  | write o hc ht hp hd he =>
    rw [hd, he]
    exact hE.journal o hc ht hp

/-- One input keeps the world coherent and the journal explained. -/
theorem explained_step [Sha256] {L : Layout} {w : World} (hw : Coherent L w)
    (hE : Explained h w.disk) (i : Input) :
    Explained (h ++ ((updater L).step w i).2) ((updater L).step w i).1.disk := by
  rcases hw.step_cases i with ⟨fw, rfl⟩ | rfl | hs | ⟨x, r, -, hs, hcall⟩
  · obtain ⟨r, s, hc⟩ := hw.record
    exact dispatch_keeps (bootKeeps_explained L) hE hc
      (fun _ => hE.append rfl (by simp [Event.Idle, Ends, Rejects, Allowed])) fw
  · show Explained (h ++ []) w.disk
    rwa [append_nil]
  · rw [hs, append_nil]
    exact hE
  · rw [hs]
    exact hcall.served.moves.explained hE

/-- The installed system, powered off. -/
def installed (d : Disk) : World := ⟨d, none⟩

theorem explained_installed {d : Disk} {r : Bool} {s : State} (h : d.chosen = some (r, s)) :
    Explained [.installed s] d := by
  have hv := valid_facts (chosen_valid h)
  refine ⟨⟨⟨rfl, fun hp => (hv.2.1 hp).2.1⟩, trivial⟩, r, s, h, ?_⟩
  exact ⟨⟨[], _, [], rfl, rfl, by simp⟩, fun hp => ⟨[], _, [], rfl, ⟨rfl, hp⟩, by simp⟩,
    fun hp _ => ⟨[], _, [], rfl, ⟨rfl, hp⟩, by simp⟩⟩

/-- In every such history a record is in force, and a service that is ready has it in memory. -/
theorem coherent_of_run [Sha256] (L : Layout) (d : Disk) (r : Bool) (s : State)
    (h : d.chosen = some (r, s)) (is : List Input) :
    Coherent L ((updater L).run (installed d) is).1 :=
  Machine.run_invariant (m := updater L) (I := fun _ w => Coherent L w) (fun _ _ i hI => hI.step i) is []
    (installed d) ⟨⟨r, s, h⟩, fun x hx => absurd hx (by simp [installed])⟩

theorem coherent_of_small : Small.disk.chosen = some (false, Small.state) ∧
    Coherent Small.layout
      ((@updater Sha256.crypto Small.layout).run (installed Small.disk) [.boot Small.firmware]).1 :=
  ⟨Small.disk_chosen, @coherent_of_run Sha256.crypto _ _ _ _ Small.disk_chosen _⟩

end EmbLinkOs.Update
