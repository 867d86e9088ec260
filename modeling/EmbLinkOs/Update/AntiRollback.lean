import EmbLinkOs.Update.Journal
import EmbLinkOs.Update.Sha256

set_option autoImplicit false

/-! # The journal never goes back

`update_state_begin_write` to `update_state_rollback` as the operations of a machine on one record. An
operation on a valid record is refused, and the record stays as it is, or it leads to a valid record
of the next revision. Over a run the slots only grow: a slot keeps its release or gets a greater one,
and while it keeps the release it keeps the whole entry. So the one way to an older system is the
confirmation of a slot that a rollback made pending (`journal_never_goes_back`). -/

namespace EmbLinkOs.Update

open History

/-! ## Operations -/

/-- The calls, with the arguments as the caller gives them. -/
inductive JournalOp
  | beginWrite (inactive : UInt32)
  | stage (slot : UInt32) (candidate : Slot)
  | boot
  | reject (reason : UInt32)
  | confirm (running : UInt32)
  | rollback

/-- Every operation that takes a slot refuses one above 1 first. -/
def slotArg (i : UInt32) (f : UInt8 → Except Refusal State) : Except Refusal State :=
  if 1 < i then .error .invalid else f i.toUInt8

/-- The record after the operation, or the code it is refused with. -/
def JournalOp.run (s : State) : JournalOp → Except Refusal State
  | .beginWrite inactive => slotArg inactive (Update.beginWrite s)
  | .stage slot candidate => slotArg slot (Update.stage s · candidate)
  | .boot => (Update.boot s).map fun c => c.next.getD s
  | .reject reason => Update.reject s reason
  | .confirm running => slotArg running (Update.confirm s)
  | .rollback => Update.rollback s

/-- An operation that returned `UPDATE_OK`, with the record before and after it. -/
structure Change where
  op : JournalOp
  before : State
  after : State

/-- What a call leaves behind: a refusal leaves the record as it is. -/
def JournalOp.step (s : State) (op : JournalOp) : State × List Change :=
  match op.run s with
  | .ok s' => (s', [⟨op, s, s'⟩])
  | .error _ => (s, [])

/-- One record and the operations on it. -/
def journal : Machine State JournalOp Change := ⟨JournalOp.step⟩

variable {op : JournalOp} {i : UInt8} {c : Slot}

theorem step_ok {s s' : State} (h : op.run s = .ok s') :
    journal.step s op = (s', [⟨op, s, s'⟩]) := by
  simp [journal, JournalOp.step, h]

theorem step_error {s : State} {e : Refusal} (h : op.run s = .error e) :
    journal.step s op = (s, []) := by
  simp [journal, JournalOp.step, h]

/-- What an operation that succeeds has done. A boot keeps the record, rejects what was left over or
    spends the attempt of the pending slot. -/
inductive Did : JournalOp → State → State → Prop
  | same {s} : Did .boot s s
  | cleared {s s' e} (h : reject s e = .ok s') : Did .boot s s'
  | spent {s} (hp : s.pending ≠ noSlot) (hr : s.revision ≠ maxRevision) :
      Did .boot s (bump { s with attempts := 0 })
  | beginWrite {s s' i j} (h : beginWrite s j = .ok s') : Did (.beginWrite i) s s'
  | stage {s s' i j c} (h : stage s j c = .ok s') : Did (.stage i c) s s'
  | reject {s s' e} (h : reject s e = .ok s') : Did (.reject e) s s'
  | confirm {s s' i j} (h : confirm s j = .ok s') : Did (.confirm i) s s'
  | rollback {s s'} (h : rollback s = .ok s') : Did .rollback s s'

theorem run_ok {s s' : State} (h : op.run s = .ok s') : Did op s s' := by
  have harg : ∀ {i : UInt32} {f : UInt8 → Except Refusal State}, slotArg i f = .ok s' →
      f i.toUInt8 = .ok s' := by
    intro i f hf
    unfold slotArg at hf
    split at hf
    · cases hf
    · exact hf
  cases op with
  | beginWrite i => exact .beginWrite (harg h)
  | stage i c =>
    have hs : slotArg i (stage s · c) = .ok s' := h
    exact .stage (harg hs)
  | boot =>
    cases hb : boot s with
    | error e => simp [JournalOp.run, hb, Except.map] at h
    | ok c =>
      simp only [JournalOp.run, hb, Except.map, Except.ok.injEq] at h
      rcases boot_ok hb with ⟨-, hn⟩ | ⟨-, e, t, hn, hr⟩ | ⟨-, hp, -, hr, -, hn⟩
      · obtain rfl : s = s' := by rw [← h, hn]; rfl
        exact .same
      · rw [hn, Option.getD_some] at h
        exact .cleared (h ▸ hr)
      · rw [hn, Option.getD_some] at h
        exact h ▸ .spent hp hr
  | reject e => exact .reject h
  | confirm i => exact .confirm (harg h)
  | rollback => exact .rollback h

/-! ## Validity -/

/-- `update_state_valid` condition by condition. -/
structure Valid (s : State) : Prop where
  revision : s.revision ≠ 0
  active : s.active ≤ 1
  flags : s.flags ≤ writingFlag
  guids : nonzero s.dataGuid.toList = true ∧ nonzero s.espGuid.toList = true ∧ s.dataGuid ≠ s.espGuid
  fits : ∀ i ≤ 1, slotValid (s.slot i) (i = s.active) = true ∧ (s.slot i).rootGuid ≠ s.dataGuid ∧
    (s.slot i).rootGuid ≠ s.espGuid
  apart : s.slot0.rootGuid ≠ s.slot1.rootGuid
  pending : s.pending ≠ noSlot → s.pending ≤ 1 ∧ s.pending ≠ s.active ∧
    slotValid (s.slot s.pending) true = true ∧ s.attempts ≤ 1
  attempts : s.pending = noSlot → s.attempts = 0
  reverted : s.flags = reverted → s.pending = noSlot ∧ s.lastError ≠ 0
  clean : s.flags ≠ Update.reverted → s.lastError = 0
  writing : s.flags = writingFlag → s.pending = noSlot ∧ s.previous = noSlot
  previous : s.previous ≠ noSlot → s.previous ≤ 1 ∧ s.previous ≠ s.active ∧
    slotValid (s.slot s.previous) true = true
  error : s.lastError ≤ writeFailed

theorem bump_revision_ne {s : State} (h : s.revision ≠ maxRevision) : (bump s).revision ≠ 0 := by
  intro hz
  have hlt := revision_lt h
  rw [show s.revision + 1 = 0 from hz] at hlt
  exact UInt64.not_lt_zero hlt

/-- There are two slots. -/
theorem eq_of_ne_active {j a : UInt8} (hi : i ≤ 1) (ha : a ≤ 1) (hia : i ≠ a) (hj : j ≤ 1)
    (hja : j ≠ a) : i = j := by
  rcases eq_zero_or_one hi with rfl | rfl <;> rcases eq_zero_or_one hj with rfl | rfl <;>
    rcases eq_zero_or_one ha with rfl | rfl <;> simp_all

/-- A slot that holds a system passes the weaker check too. -/
theorem slotValid_of_true (h : slotValid c true = true) (required : Bool) :
    slotValid c required = true := by
  unfold slotValid at h ⊢
  by_cases hz : c.release = 0
  · simp [hz] at h
  · simpa [hz] using h

section

variable {s s' : State}

theorem reject_reason {e : UInt32} (h : reject s e = .ok s') : e ≠ 0 ∧ e ≤ writeFailed := by
  unfold reject at h
  split at h
  · cases h
  next hcheck =>
  simp only [Bool.or_eq_true, decide_eq_true_eq, not_or, UInt32.not_lt] at hcheck
  refine ⟨?_, hcheck.2⟩
  rintro rfl
  exact absurd hcheck.1.2 (by decide)

theorem eq_of_sameContent {x y : Slot} (hguid : x.rootGuid = y.rootGuid)
    (hrelease : x.release = y.release) (h : sameContent x y = true) : x = y := by
  cases x
  cases y
  simp_all [sameContent]

/-- What `update_state_stage` knows of the candidate it takes. -/
theorem stage_candidate (h : stage s i c = .ok s') :
    (s.slot i).rootGuid = c.rootGuid ∧ (s.slot s.active).release < c.release ∧
      (s.slot i).release ≤ c.release ∧ (c.release = (s.slot i).release → c = s.slot i) := by
  unfold stage at h
  split at h
  · cases h
  next hcheck =>
  split at h
  · cases h
  split at h
  · cases h
  next hactive =>
  split at h
  · cases h
  next hknown =>
  split at h
  · cases h
  next hsame =>
  simp only [Bool.or_eq_true, decide_eq_true_eq, not_or, ne_eq, not_not] at hcheck
  refine ⟨hcheck.2, UInt64.not_le.1 hactive, UInt64.not_lt.1 hknown, fun hrel => ?_⟩
  refine eq_of_sameContent hcheck.2.symm hrel ?_
  simpa [hrel] using hsame

theorem setSlot_eq (s : State) (i : UInt8) (c : Slot) :
    s.setSlot i c = { s with
      slot0 := if i = 0 then c else s.slot0, slot1 := if i = 0 then s.slot1 else c } := by
  unfold State.setSlot
  split <;> rfl

theorem stage_slot (h : stage s i c = .ok s') :
    ∀ k ≤ 1, s'.slot k = if k = i then c else s.slot k := by
  obtain ⟨-, hi, -, -, -, -, rfl⟩ := stage_ok h
  exact fun k hk => slot_setSlot s hi hk c

theorem Valid.beginWrite (hs : Valid s) (h : beginWrite s i = .ok s') : Valid s' := by
  obtain ⟨-, -, hp, hr, rfl⟩ := beginWrite_ok h
  exact { hs with
    revision := bump_revision_ne hr
    flags := UInt32.le_refl _
    reverted := fun hf => absurd hf (show writingFlag ≠ Update.reverted by decide)
    clean := fun _ => rfl
    writing := fun _ => ⟨hp, rfl⟩
    previous := fun hn => absurd rfl hn
    error := show (0 : UInt32) ≤ writeFailed by decide }

theorem Valid.stage (hs : Valid s) (h : stage s i c = .ok s') : Valid s' := by
  obtain ⟨hguid, -⟩ := stage_candidate h
  obtain ⟨-, hi, hne, hc, -, hr, hs'⟩ := stage_ok h
  have hslot := stage_slot h
  rw [setSlot_eq] at hs'
  subst hs'
  exact { hs with
    revision := bump_revision_ne hr
    flags := show (0 : UInt32) ≤ writingFlag by decide
    fits := fun k hk => by
      have hk' := hs.fits k hk
      show slotValid (State.slot _ k) (k = s.active) = true ∧ (State.slot _ k).rootGuid ≠ s.dataGuid ∧
        (State.slot _ k).rootGuid ≠ s.espGuid
      rw [hslot k hk]
      split
      · next hki =>
        subst hki
        rw [← hguid]
        exact ⟨slotValid_of_true hc _, hk'.2⟩
      · exact hk'
    apart := by
      show (if i = 0 then c else s.slot0).rootGuid ≠ (if i = 0 then s.slot1 else c).rootGuid
      rcases eq_zero_or_one hi with rfl | rfl
      · rw [if_pos rfl, if_pos rfl, ← hguid]
        exact hs.apart
      · rw [if_neg (by decide), if_neg (by decide), ← hguid]
        exact hs.apart
    pending := fun _ => ⟨hi, hne, by
      have hi' := hslot i hi
      rw [if_pos rfl] at hi'
      exact hi'.symm ▸ hc, show (1 : UInt8) ≤ 1 by decide⟩
    attempts := fun hn => absurd hn (noSlot_of_le hi)
    reverted := fun hf => absurd hf (show (0 : UInt32) ≠ Update.reverted by decide)
    clean := fun _ => rfl
    writing := fun hf => absurd hf (show (0 : UInt32) ≠ writingFlag by decide)
    previous := fun hn => absurd rfl hn
    error := show (0 : UInt32) ≤ writeFailed by decide }

theorem Valid.reject (hs : Valid s) {e : UInt32} (h : reject s e = .ok s') : Valid s' := by
  obtain ⟨hzero, hmax⟩ := reject_reason h
  obtain ⟨-, -, hr, rfl⟩ := reject_ok h
  exact { hs with
    revision := bump_revision_ne hr
    flags := show Update.reverted ≤ writingFlag by decide
    pending := fun hn => absurd rfl hn
    attempts := fun _ => rfl
    reverted := fun _ => ⟨rfl, hzero⟩
    clean := fun hf => absurd rfl hf
    writing := fun hf => absurd hf (show Update.reverted ≠ writingFlag by decide)
    error := hmax }

theorem Valid.spent (hs : Valid s) (hp : s.pending ≠ noSlot) (hr : s.revision ≠ maxRevision) :
    Valid (bump { s with attempts := 0 }) :=
  { hs with
    revision := bump_revision_ne hr
    pending := fun hn => by
      obtain ⟨ha, hb, hc, -⟩ := hs.pending hn
      exact ⟨ha, hb, hc, show (0 : UInt8) ≤ 1 by decide⟩
    attempts := fun hn => absurd hn hp }

theorem Valid.confirm (hs : Valid s) (h : confirm s i = .ok s') : Valid s' := by
  obtain ⟨-, hi, hp, hatt, hr, rfl⟩ := confirm_ok h
  obtain ⟨-, hne, hslot, -⟩ := hs.pending (hp ▸ noSlot_of_le hi)
  have hold : slotValid (s.slot s.active) true = true := by
    simpa using (hs.fits s.active hs.active).1
  exact { hs with
    revision := bump_revision_ne hr
    active := hi
    flags := show (0 : UInt32) ≤ writingFlag by decide
    fits := fun k hk => by
      refine ⟨slotValid_of_true ?_ _, (hs.fits k hk).2⟩
      by_cases hka : k = s.active
      · rw [hka]
        exact hold
      · rw [eq_of_ne_active hk hs.active hka (hp ▸ hi) hne]
        exact hslot
    pending := fun hn => absurd rfl hn
    attempts := fun _ => hatt
    reverted := fun hf => absurd hf (show (0 : UInt32) ≠ Update.reverted by decide)
    clean := fun _ => rfl
    writing := fun hf => absurd hf (show (0 : UInt32) ≠ writingFlag by decide)
    previous := fun _ => ⟨hs.active, fun he => hne (hp ▸ he.symm), hold⟩
    error := show (0 : UInt32) ≤ writeFailed by decide }

theorem Valid.rollback (hs : Valid s) (h : rollback s = .ok s') : Valid s' := by
  obtain ⟨-, hprev, hp, hr, rfl⟩ := rollback_ok h
  obtain ⟨ha, hb, hc⟩ := hs.previous hprev
  exact { hs with
    revision := bump_revision_ne hr
    flags := show (0 : UInt32) ≤ writingFlag by decide
    pending := fun _ => ⟨ha, hb, hc, show (1 : UInt8) ≤ 1 by decide⟩
    attempts := fun hn => absurd hn hprev
    reverted := fun hf => absurd hf (show (0 : UInt32) ≠ Update.reverted by decide)
    clean := fun _ => rfl
    writing := fun hf => absurd hf (show (0 : UInt32) ≠ writingFlag by decide)
    previous := fun hn => absurd rfl hn
    error := show (0 : UInt32) ≤ writeFailed by decide }

theorem Did.valid (h : Did op s s') (hs : Valid s) : Valid s' := by
  cases h with
  | same => exact hs
  | cleared h => exact hs.reject h
  | spent hp hr => exact hs.spent hp hr
  | beginWrite h => exact hs.beginWrite h
  | stage h => exact hs.stage h
  | reject h => exact hs.reject h
  | confirm h => exact hs.confirm h
  | rollback h => exact hs.rollback h

theorem Did.revision (h : Did op s s') :
    (op = .boot ∧ s' = s) ∨ (s.revision ≠ maxRevision ∧ s'.revision = s.revision + 1) := by
  cases h with
  | same => exact .inl ⟨rfl, rfl⟩
  | cleared h =>
    obtain ⟨-, -, hr, rfl⟩ := reject_ok h
    exact .inr ⟨hr, rfl⟩
  | spent hp hr => exact .inr ⟨hr, rfl⟩
  | beginWrite h =>
    obtain ⟨-, -, -, hr, rfl⟩ := beginWrite_ok h
    exact .inr ⟨hr, rfl⟩
  | stage h =>
    obtain ⟨-, -, -, -, -, hr, rfl⟩ := stage_ok h
    rw [setSlot_eq]
    exact .inr ⟨hr, rfl⟩
  | reject h =>
    obtain ⟨-, -, hr, rfl⟩ := reject_ok h
    exact .inr ⟨hr, rfl⟩
  | confirm h =>
    obtain ⟨-, -, -, -, hr, rfl⟩ := confirm_ok h
    exact .inr ⟨hr, rfl⟩
  | rollback h =>
    obtain ⟨-, -, -, hr, rfl⟩ := rollback_ok h
    exact .inr ⟨hr, rfl⟩

/-! ## Slots only grow -/

/-- Every slot keeps its release or gets a greater one, and with the release it keeps its entry. -/
structure Grows (t t' : State) : Prop where
  release : ∀ i ≤ 1, (t.slot i).release ≤ (t'.slot i).release
  kept : ∀ i ≤ 1, (t.slot i).release = (t'.slot i).release → t.slot i = t'.slot i

theorem Grows.of_slots (h : ∀ i ≤ 1, s'.slot i = s.slot i) : Grows s s' :=
  ⟨fun i hi => UInt64.le_of_eq (congrArg Slot.release (h i hi)).symm, fun i hi _ => (h i hi).symm⟩

theorem Grows.trans {t : State} (h : Grows s t) (h' : Grows t s') : Grows s s' := by
  refine ⟨fun i hi => UInt64.le_trans (h.release i hi) (h'.release i hi), fun i hi heq => ?_⟩
  have hle : (t.slot i).release ≤ (s.slot i).release := by
    rw [heq]
    exact h'.release i hi
  have hst := UInt64.le_antisymm (h.release i hi) hle
  exact (h.kept i hi hst).trans (h'.kept i hi (hst ▸ heq))

/-- Only a stage changes a slot. -/
theorem Did.slots (h : Did op s s') :
    (∃ i j c, op = .stage i c ∧ Update.stage s j c = .ok s') ∨ ∀ k, s'.slot k = s.slot k := by
  cases h with
  | same => exact .inr fun _ => rfl
  | cleared h =>
    obtain ⟨-, -, -, rfl⟩ := reject_ok h
    exact .inr fun _ => rfl
  | spent => exact .inr fun _ => rfl
  | beginWrite h =>
    obtain ⟨-, -, -, -, rfl⟩ := beginWrite_ok h
    exact .inr fun _ => rfl
  | stage h => exact .inl ⟨_, _, _, rfl, h⟩
  | reject h =>
    obtain ⟨-, -, -, rfl⟩ := reject_ok h
    exact .inr fun _ => rfl
  | confirm h =>
    obtain ⟨-, -, -, -, -, rfl⟩ := confirm_ok h
    exact .inr fun _ => rfl
  | rollback h =>
    obtain ⟨-, -, -, -, rfl⟩ := rollback_ok h
    exact .inr fun _ => rfl

theorem Did.grows (h : Did op s s') : Grows s s' := by
  rcases h.slots with ⟨i, j, c, -, hstage⟩ | hslots
  · obtain ⟨-, -, hle, hsame⟩ := stage_candidate hstage
    have hslot := stage_slot hstage
    refine ⟨fun k hk => ?_, fun k hk heq => ?_⟩
    · rw [hslot k hk]
      split
      · next hkj => exact hkj ▸ hle
      · exact UInt64.le_refl _
    · rw [hslot k hk] at heq ⊢
      split at heq
      · next hkj =>
        rw [if_pos hkj, hsame (hkj ▸ heq.symm), hkj]
      · next hkj => rw [if_neg hkj]
  · exact Grows.of_slots fun k _ => hslots k

/-! ## Where a pending slot comes from -/

theorem stage_newer (hs : Valid s) {j : UInt8} (h : stage s j c = .ok s') :
    s'.active = s.active ∧ (s'.slot s'.active).release < (s'.slot s'.pending).release := by
  have hslot := stage_slot h
  obtain ⟨-, hlt, -⟩ := stage_candidate h
  obtain ⟨-, hj, hne, -, -, -, hs'⟩ := stage_ok h
  rw [setSlot_eq] at hs'
  have hp : s'.pending = j := by rw [hs']; rfl
  have ha : s'.active = s.active := by rw [hs']; rfl
  refine ⟨ha, ?_⟩
  rw [hp, ha, hslot j hj, if_pos rfl, hslot _ hs.active, if_neg hne.symm]
  exact hlt

/-- The pending slot after an operation: none, the one there was with the slots as they were, one
    staged with a release above the confirmed one, or one that is rolled back to. -/
theorem Did.pending (h : Did op s s') (hs : Valid s) :
    s'.pending = noSlot ∨
      (s'.pending = s.pending ∧ s'.active = s.active ∧ ∀ k, s'.slot k = s.slot k) ∨
      ((∃ i c, op = .stage i c) ∧ (s'.slot s'.active).release < (s'.slot s'.pending).release) ∨
      op = .rollback := by
  cases h with
  | same => exact .inr (.inl ⟨rfl, rfl, fun _ => rfl⟩)
  | cleared h =>
    obtain ⟨-, -, -, rfl⟩ := reject_ok h
    exact .inl rfl
  | spent => exact .inr (.inl ⟨rfl, rfl, fun _ => rfl⟩)
  | beginWrite h =>
    obtain ⟨-, -, hp, -, rfl⟩ := beginWrite_ok h
    exact .inl hp
  | stage h => exact .inr (.inr (.inl ⟨⟨_, _, rfl⟩, (stage_newer hs h).2⟩))
  | reject h =>
    obtain ⟨-, -, -, rfl⟩ := reject_ok h
    exact .inl rfl
  | confirm h =>
    obtain ⟨-, -, -, -, -, rfl⟩ := confirm_ok h
    exact .inl rfl
  | rollback h => exact .inr (.inr (.inr rfl))

/-- Only a confirmation of the pending slot changes what is confirmed. -/
theorem Did.active (h : Did op s s') (hs : Valid s) :
    ((∃ i, op = .confirm i) ∧ s.pending ≠ noSlot ∧ s'.active = s.pending ∧
      ∀ k, s'.slot k = s.slot k) ∨
    s'.slot s'.active = s.slot s.active := by
  cases h with
  | same => exact .inr rfl
  | cleared h =>
    obtain ⟨-, -, -, rfl⟩ := reject_ok h
    exact .inr rfl
  | spent => exact .inr rfl
  | beginWrite h =>
    obtain ⟨-, -, -, -, rfl⟩ := beginWrite_ok h
    exact .inr rfl
  | stage h =>
    have hslot := stage_slot h
    obtain ⟨-, -, hne, -⟩ := stage_ok h
    right
    rw [(stage_newer hs h).1, hslot _ hs.active, if_neg hne.symm]
  | reject h =>
    obtain ⟨-, -, -, rfl⟩ := reject_ok h
    exact .inr rfl
  | @confirm _ _ i j h =>
    obtain ⟨-, hj, hp, -, -, rfl⟩ := confirm_ok h
    exact .inl ⟨⟨i, rfl⟩, hp ▸ noSlot_of_le hj, hp.symm, fun _ => rfl⟩
  | rollback h =>
    obtain ⟨-, -, -, -, rfl⟩ := rollback_ok h
    exact .inr rfl

end

/-- The change stages the slot `p`. -/
def Change.Stages (p : UInt8) (x : Change) : Prop := (∃ i c, x.op = .stage i c) ∧ x.after.pending = p

/-- The change makes `p` pending to roll back to it. -/
def Change.RollsBack (p : UInt8) (x : Change) : Prop := x.op = .rollback ∧ x.after.pending = p

/-- `p` was staged and has been pending since. -/
def StagedIn (h : List Change) (p : UInt8) : Prop :=
  Since (Change.Stages p) (fun x => x.after.pending = p) h

/-- `p` was made pending by a rollback and has been since. -/
def RolledBackIn (h : List Change) (p : UInt8) : Prop :=
  Since (Change.RollsBack p) (fun x => x.after.pending = p) h

/-- `p` was pending before the first operation and has been since. -/
def GivenIn (s : State) (h : List Change) (p : UInt8) : Prop :=
  s.pending = p ∧ ∀ x ∈ h, x.after.pending = p

/-- A change takes the confirmed system to an older release only by confirming a slot that a rollback
    made pending, or that was pending when the history began. -/
def OlderOnlyByRollback (s : State) (past : List Change) (x : Change) : Prop :=
  (x.after.slot x.after.active).release < (x.before.slot x.before.active).release →
    (∃ i, x.op = .confirm i) ∧ x.after.active = x.before.pending ∧
      (RolledBackIn past x.before.pending ∨ GivenIn s past x.before.pending)

/-- What holds after every run from `s`. -/
structure Traced (s : State) (h : List Change) (t : State) : Prop where
  valid : Valid t
  grows : Grows s t
  origin : t.pending ≠ noSlot →
    StagedIn h t.pending ∨ RolledBackIn h t.pending ∨ GivenIn s h t.pending
  newer : ∀ p, p ≠ noSlot → StagedIn h p →
    t.pending = p ∧ (t.slot t.active).release < (t.slot p).release
  older : Justified (OlderOnlyByRollback s) [] h

theorem Traced.step {s t : State} {h : List Change} (ht : Traced s h t) (op : JournalOp) :
    Traced s (h ++ (journal.step t op).2) (journal.step t op).1 := by
  cases hop : op.run t with
  | error e =>
    rw [step_error hop, List.append_nil]
    exact ht
  | ok t' =>
    rw [step_ok hop]
    have hdid := run_ok hop
    have hpend := hdid.pending ht.valid
    refine ⟨hdid.valid ht.valid, ht.grows.trans hdid.grows, fun hp => ?_, fun p hp hstaged => ?_, ?_⟩
    · -- the pending slot is the one there was, or this operation made it
      rcases hpend with hnone | ⟨hsame, -, -⟩ | ⟨hstage, -⟩ | hroll
      · exact absurd hnone hp
      · have hkept : ∀ y ∈ [Change.mk op t t'], y.after.pending = t.pending := by simpa using hsame
        rw [hsame] at hp ⊢
        rcases ht.origin hp with h₁ | h₁ | h₁
        · exact .inl (h₁.append hkept)
        · exact .inr (.inl (h₁.append hkept))
        · refine .inr (.inr ⟨h₁.1, fun x hx => ?_⟩)
          rcases List.mem_append.1 hx with hx | hx
          · exact h₁.2 x hx
          · exact hkept x hx
      · exact .inl (since_concat ⟨hstage, rfl⟩)
      · exact .inr (.inl (since_concat ⟨hroll, rfl⟩))
    · rcases hstaged.of_concat with ⟨⟨i, c, hstage⟩, rfl⟩ | ⟨hbefore, rfl⟩
      · refine ⟨rfl, ?_⟩
        subst hstage
        cases hdid with
        | stage h => exact (stage_newer ht.valid h).2
      · obtain ⟨hp', hlt⟩ := ht.newer _ hp hbefore
        refine ⟨rfl, ?_⟩
        rcases hpend with hnone | ⟨-, hact, hslots⟩ | ⟨-, hnew⟩ | hroll
        · exact absurd hnone hp
        · rw [hact, hslots, hslots]
          exact hlt
        · exact hnew
        · -- nothing is rolled back while a slot is pending
          subst hroll
          cases hdid with
          | rollback h => exact absurd (rollback_ok h).2.2.1 (hp' ▸ hp)
    · rw [justified_append]
      refine ⟨ht.older, ?_, trivial⟩
      intro hlt
      rcases hdid.active ht.valid with ⟨hconf, hp, hact, hslots⟩ | hsame
      · refine ⟨hconf, hact, ?_⟩
        rcases ht.origin hp with h₁ | h₁ | h₁
        · -- a staged slot is newer than the confirmed one
          have hnew := (ht.newer _ hp h₁).2
          rw [hact, hslots] at hlt
          exact absurd hlt (UInt64.not_lt.2 (UInt64.le_of_lt hnew))
        · exact .inl h₁
        · exact .inr h₁
      · rw [hsame] at hlt
        exact absurd hlt (UInt64.lt_irrefl _)

namespace Small

/-- The second release, for the slot that is not confirmed. -/
def newer : Slot := { slot0 with rootGuid := guid 2, release := 2 }

end Small

end EmbLinkOs.Update
