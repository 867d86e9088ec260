import EmbLinkOs.Update.Service

set_option autoImplicit false

/-! # What the journal does

The inversion of each transition, and the one fact the two copies are there for: a record written
over the copy that is not in force, with the next revision, is in force if it reached the page, and
otherwise nothing has changed, however the write ended. -/

namespace EmbLinkOs.Update

/-! ## Valid records -/

variable {s : State} {i : UInt8} {d : Disk} {r : Bool}

/-- What the proofs read off a valid record. -/
theorem valid_facts (h : valid s = true) :
    s.active ≤ 1 ∧
    (s.pending ≠ noSlot → s.pending ≤ 1 ∧ s.pending ≠ s.active ∧ s.attempts ≤ 1) ∧
    (s.flags = writingFlag → s.pending = noSlot ∧ s.previous = noSlot) ∧
    (s.previous ≠ noSlot → s.previous ≤ 1 ∧ s.previous ≠ s.active) := by
  simp only [valid, Bool.and_eq_true, Bool.or_eq_true, decide_eq_true_eq, ne_eq, decide_not,
    Bool.not_eq_true', decide_eq_false_iff_not] at h
  obtain ⟨⟨⟨⟨⟨⟨⟨⟨⟨⟨⟨⟨⟨⟨⟨-, hact⟩, -⟩, -⟩, -⟩, -⟩, -⟩, -⟩, -⟩, hpend⟩, -⟩, -⟩, -⟩, hwr⟩, hprev⟩, -⟩ := h
  refine ⟨hact, fun hp => ?_, fun hf => ?_, fun hp => ?_⟩
  · obtain ⟨⟨⟨h₁, h₂⟩, -⟩, h₃⟩ := hpend.resolve_left hp
    exact ⟨h₁, h₂, h₃⟩
  · exact hwr.resolve_left (fun hc => hc hf)
  · obtain ⟨⟨h₁, h₂⟩, -⟩ := hprev.resolve_left hp
    exact ⟨h₁, h₂⟩

theorem noSlot_of_le (h : i ≤ 1) : i ≠ noSlot := by
  rintro rfl
  exact absurd h (by decide)

theorem eq_zero_or_one (h : i ≤ 1) : i = 0 ∨ i = 1 := by
  have h' : i.toNat ≤ 1 := UInt8.le_iff_toNat_le.1 h
  rcases Nat.le_one_iff_eq_zero_or_eq_one.1 h' with h | h
  · exact Or.inl (UInt8.toNat_inj.1 h)
  · exact Or.inr (UInt8.toNat_inj.1 h)

theorem one_sub_ne (h : i ≤ 1) : 1 - i ≠ i := by
  rcases eq_zero_or_one h with rfl | rfl <;> decide

theorem slot_setSlot (s : State) {p : UInt8} (hi : i ≤ 1) (hp : p ≤ 1) (c : Slot) :
    (s.setSlot i c).slot p = if p = i then c else s.slot p := by
  rcases eq_zero_or_one hi with rfl | rfl <;> rcases eq_zero_or_one hp with rfl | rfl <;>
    simp [State.setSlot, State.slot]

/-- The bounds a slot with a system keeps. -/
theorem slotValid_bounds {c : Slot} (h : slotValid c true = true) :
    c.rootBytes ≠ 0 ∧ c.efiBytes ≠ 0 ∧ c.efiBytes ≤ maxEfiBytes := by
  unfold slotValid at h
  split at h
  · exact absurd h (by simp)
  split at h
  · exact absurd h (by simp)
  split at h
  · exact absurd h (by simp)
  next hb =>
  simp only [Bool.or_eq_true, decide_eq_true_eq, not_or, UInt64.not_lt] at hb
  exact ⟨hb.1.1.1.1.1.1.1, hb.1.1.1.1.2, hb.1.1.1.2⟩

/-- The confirmed slot, and a pending one, hold a system. -/
theorem slotValid_active (h : valid s = true) : slotValid (s.slot s.active) true = true := by
  have hact := (valid_facts h).1
  simp only [valid, Bool.and_eq_true] at h
  have h0 : slotFits s 0 = true := h.1.1.1.1.1.1.1.1.1.2
  have h1 : slotFits s 1 = true := h.1.1.1.1.1.1.1.1.2
  simp only [slotFits, Bool.and_eq_true] at h0 h1
  rcases eq_zero_or_one hact with ha | ha
  · rw [ha]
    simpa [ha] using h0.1.1
  · rw [ha]
    simpa [ha] using h1.1.1

theorem slotValid_pending (h : valid s = true) (hp : s.pending ≠ noSlot) :
    slotValid (s.slot s.pending) true = true := by
  simp only [valid, Bool.and_eq_true, Bool.or_eq_true, decide_eq_true_eq] at h
  exact (h.1.1.1.1.1.1.2.resolve_left hp).1.2

/-! ## Transitions -/

theorem beginWrite_ok {s' : State} (h : beginWrite s i = .ok s') :
    valid s = true ∧ i ≠ s.active ∧ s.pending = noSlot ∧ s.revision ≠ maxRevision ∧
      s' = bump { s with previous := noSlot, flags := writingFlag, lastError := 0 } := by
  unfold beginWrite at h
  split at h
  · exact absurd h (by simp)
  next h₁ =>
  split at h
  · exact absurd h (by simp)
  next h₂ =>
  split at h
  · exact absurd h (by simp)
  next h₃ =>
  simp only [Bool.or_eq_true, decide_eq_true_eq, not_or, Bool.not_eq_true', Bool.not_eq_false,
    ne_eq, not_not, decide_not, decide_eq_false_iff_not] at h₁ h₂
  exact ⟨h₁.1.1, h₁.2, h₂.1, h₃, (Except.ok.inj h).symm⟩

theorem stage_ok {s' : State} {c : Slot} (h : stage s i c = .ok s') :
    valid s = true ∧ i ≤ 1 ∧ i ≠ s.active ∧ slotValid c true = true ∧ s.pending = noSlot ∧
      s.revision ≠ maxRevision ∧
      s' = bump { s.setSlot i c with
        pending := i, previous := noSlot, attempts := 1, flags := 0, lastError := 0 } := by
  unfold stage at h
  split at h
  · exact absurd h (by simp)
  next h₁ =>
  split at h
  · exact absurd h (by simp)
  next h₂ =>
  split at h
  · exact absurd h (by simp)
  split at h
  · exact absurd h (by simp)
  split at h
  · exact absurd h (by simp)
  split at h
  · exact absurd h (by simp)
  next h₃ =>
  simp only [Bool.or_eq_true, decide_eq_true_eq, not_or, Bool.not_eq_true', Bool.not_eq_false,
    ne_eq, not_not, decide_not, decide_eq_false_iff_not, UInt8.not_lt] at h₁ h₂
  exact ⟨h₁.1.1.1.1, h₁.1.1.1.2, h₁.1.1.2, h₁.1.2, h₂, h₃, (Except.ok.inj h).symm⟩

theorem reject_ok {s' : State} {e : UInt32} (h : reject s e = .ok s') :
    valid s = true ∧ (s.pending ≠ noSlot ∨ s.flags &&& writingFlag ≠ 0) ∧
      s.revision ≠ maxRevision ∧
      s' = bump { s with pending := noSlot, attempts := 0, flags := reverted, lastError := e } := by
  unfold reject at h
  split at h
  · exact absurd h (by simp)
  next h₁ =>
  split at h
  · exact absurd h (by simp)
  next h₂ =>
  split at h
  · exact absurd h (by simp)
  next h₃ =>
  simp only [Bool.or_eq_true, Bool.and_eq_true, decide_eq_true_eq, not_or, not_and,
    Bool.not_eq_true', Bool.not_eq_false] at h₁ h₂
  exact ⟨h₁.1.1, by by_cases hp : s.pending = noSlot <;> simp_all, h₃, (Except.ok.inj h).symm⟩

theorem confirm_ok {s' : State} (h : confirm s i = .ok s') :
    valid s = true ∧ i ≤ 1 ∧ s.pending = i ∧ s.attempts = 0 ∧ s.revision ≠ maxRevision ∧
      s' = bump { s with
        previous := s.active, active := i, pending := noSlot, flags := 0, lastError := 0 } := by
  unfold confirm at h
  split at h
  · exact absurd h (by simp)
  next h₁ =>
  split at h
  · exact absurd h (by simp)
  next h₂ =>
  split at h
  · exact absurd h (by simp)
  next h₃ =>
  simp only [Bool.or_eq_true, decide_eq_true_eq, not_or, Bool.not_eq_true', Bool.not_eq_false,
    ne_eq, not_not, decide_not, decide_eq_false_iff_not, UInt8.not_lt] at h₁ h₂
  exact ⟨h₁.1, h₁.2, h₂.1, h₂.2, h₃, (Except.ok.inj h).symm⟩

theorem rollback_ok {s' : State} (h : rollback s = .ok s') :
    valid s = true ∧ s.previous ≠ noSlot ∧ s.pending = noSlot ∧ s.revision ≠ maxRevision ∧
      s' = bump { s with
        pending := s.previous, previous := noSlot, attempts := 1, flags := 0, lastError := 0 } := by
  unfold rollback at h
  split at h
  · exact absurd h (by simp)
  next h₁ =>
  split at h
  · exact absurd h (by simp)
  next h₂ =>
  split at h
  · exact absurd h (by simp)
  next h₃ =>
  simp only [Bool.or_eq_true, decide_eq_true_eq, not_or, Bool.not_eq_true', Bool.not_eq_false,
    ne_eq, not_not] at h₁ h₂
  exact ⟨h₁.1, h₁.2, h₂, h₃, (Except.ok.inj h).symm⟩

/-- `update_state_boot` starts the confirmed slot, with a rejection to persist where an installation
    or a spent trial is left over, or spends the attempt of the pending slot. -/
theorem boot_ok {c : BootChoice} (h : boot s = .ok c) :
    (c.slot = s.active ∧ c.next = none) ∨
    (c.slot = s.active ∧ ∃ e s', c.next = some s' ∧ reject s e = .ok s') ∨
    (c.slot = s.pending ∧ s.pending ≠ noSlot ∧ s.attempts ≠ 0 ∧ s.revision ≠ maxRevision ∧
      valid s = true ∧ c.next = some (bump { s with attempts := 0 })) := by
  have hmap : ∀ {e : UInt32}, (reject s e).map (fun next => BootChoice.mk s.active (some next)) = .ok c →
      c.slot = s.active ∧ ∃ e s', c.next = some s' ∧ reject s e = .ok s' := by
    intro e he
    cases hr : reject s e with
    | error _ => simp [hr, Except.map] at he
    | ok s' =>
      simp only [hr, Except.map, Except.ok.injEq] at he
      subst he
      exact ⟨rfl, e, s', rfl, hr⟩
  unfold boot at h
  split at h
  · exact absurd h (by simp)
  next h₁ =>
  split at h
  · exact Or.inr (Or.inl (hmap h))
  split at h
  · left
    rw [← Except.ok.inj h]
    exact ⟨rfl, rfl⟩
  next h₂ =>
  split at h
  · exact absurd h (by simp)
  next h₃ =>
  split at h
  · next h₄ =>
    right; right
    rw [← Except.ok.inj h]
    exact ⟨rfl, h₂, h₄, h₃, by simpa using h₁, rfl⟩
  · exact Or.inr (Or.inl (hmap h))

theorem reject_error {e : UInt32} {x : Refusal} (h : reject s e = .error x) (hv : valid s = true)
    (he : ¬ e < bootFailed ∧ ¬ writeFailed < e)
    (ht : s.pending ≠ noSlot ∨ s.flags &&& writingFlag ≠ 0) : s.revision = maxRevision := by
  unfold reject at h
  rw [if_neg (by simp [hv, he]), if_neg (by simpa [or_iff_not_imp_left] using ht)] at h
  by_contra hr
  rw [if_neg hr] at h
  exact absurd h (by simp)

/-- The record has something to settle at the next boot and no revision left to record it under. -/
def State.Stuck (s : State) : Prop :=
  s.revision = maxRevision ∧ (s.pending ≠ noSlot ∨ s.flags &&& writingFlag ≠ 0)

/-- A boot is refused only where the record is stuck. -/
theorem boot_error {x : Refusal} (h : boot s = .error x) (hv : valid s = true) : s.Stuck := by
  have hmap : ∀ {e : UInt32}, (reject s e).map (fun next => BootChoice.mk s.active (some next)) =
      .error x → reject s e = .error x := by
    intro e he
    cases hr : reject s e with
    | error y =>
      simp only [hr, Except.map, Except.error.injEq] at he
      rw [he]
    | ok s' => simp [hr, Except.map] at he
  unfold boot at h
  rw [if_neg (by simp [hv])] at h
  split at h
  · next hf => exact ⟨reject_error (hmap h) hv (by decide) (Or.inr hf), Or.inr hf⟩
  split at h
  · exact absurd h (by simp)
  next hp =>
  split at h
  · next hmax => exact ⟨hmax, Or.inl hp⟩
  split at h
  · exact absurd h (by simp)
  · exact ⟨reject_error (hmap h) hv (by decide) (Or.inl hp), Or.inl hp⟩

/-- The step from one record to the next. -/
inductive Transition : Kind → State → State → Prop
  | beginWrite {s s' i} (h : Update.beginWrite s i = .ok s') : Transition .beginWrite s s'
  | stage {s s' i c} (h : Update.stage s i c = .ok s') : Transition .stage s s'
  | reject {s s' e} (h : Update.reject s e = .ok s') : Transition .reject s s'
  | spend {s s'} (h : boot s = .ok ⟨s.pending, some s'⟩) (hp : s.pending ≠ s.active) :
      Transition .spend s s'
  | confirm {s s' i} (h : Update.confirm s i = .ok s') : Transition .confirm s s'
  | rollback {s s'} (h : Update.rollback s = .ok s') : Transition .rollback s s'

theorem spend_ok {s' : State} (h : boot s = .ok ⟨s.pending, some s'⟩) (hp : s.pending ≠ s.active) :
    valid s = true ∧ s.pending ≠ noSlot ∧ s.attempts ≠ 0 ∧ s.revision ≠ maxRevision ∧
      s' = bump { s with attempts := 0 } := by
  rcases boot_ok h with ⟨h₁, -⟩ | ⟨h₁, -⟩ | ⟨-, h₁, h₂, h₃, h₄, h₅⟩
  · exact absurd h₁ hp
  · exact absurd h₁ hp
  · exact ⟨h₄, h₁, h₂, h₃, by simpa using h₅⟩

theorem toNat_next (h : s.revision ≠ maxRevision) :
    (s.revision + 1).toNat = s.revision.toNat + 1 := by
  have hne : s.revision.toNat ≠ maxRevision.toNat := fun hc => h (UInt64.toNat_inj.1 hc)
  have hmax : maxRevision.toNat = 2 ^ 64 - 1 := rfl
  have hlt := s.revision.toNat_lt
  have h1 : (1 : UInt64).toNat = 1 := rfl
  rw [UInt64.toNat_add, h1, Nat.mod_eq_of_lt (by omega)]

theorem revision_lt (h : s.revision ≠ maxRevision) : s.revision < s.revision + 1 := by
  rw [UInt64.lt_iff_toNat_lt, toNat_next h]
  omega

theorem Transition.revision_lt {k : Kind} {s' : State} (h : Transition k s s') :
    s.revision < s'.revision := by
  cases h with
  | beginWrite h =>
    obtain ⟨-, -, -, hr, rfl⟩ := beginWrite_ok h
    exact Update.revision_lt hr
  | stage h =>
    obtain ⟨-, -, -, -, -, hr, rfl⟩ := stage_ok h
    have := Update.revision_lt hr
    simp only [bump, State.setSlot]
    split <;> exact this
  | reject h =>
    obtain ⟨-, -, hr, rfl⟩ := reject_ok h
    exact Update.revision_lt hr
  | spend h hp =>
    obtain ⟨-, -, -, hr, rfl⟩ := spend_ok h hp
    exact Update.revision_lt hr
  | confirm h =>
    obtain ⟨-, -, -, -, hr, rfl⟩ := confirm_ok h
    exact Update.revision_lt hr
  | rollback h =>
    obtain ⟨-, -, -, hr, rfl⟩ := rollback_ok h
    exact Update.revision_lt hr

/-! ## The two copies -/

theorem chosen_decode (h : d.chosen = some (r, s)) : decode (d.control r) = some s := by
  unfold Disk.chosen choose at h
  split at h
  · exact absurd h (by simp)
  · simp only [Option.some.injEq, Prod.mk.injEq] at h
    obtain ⟨rfl, rfl⟩ := h
    assumption
  · simp only [Option.some.injEq, Prod.mk.injEq] at h
    obtain ⟨rfl, rfl⟩ := h
    assumption
  · split at h
    · exact absurd h (by simp)
    · split at h <;>
      · simp only [Option.some.injEq, Prod.mk.injEq] at h
        obtain ⟨rfl, rfl⟩ := h
        assumption

theorem chosen_valid (h : d.chosen = some (r, s)) :
    valid s = true := decode_valid (chosen_decode h)

/-- A newer record on the other copy is in force. -/
theorem chosen_newer {s' : State} {p : Bytes} (h : decode (d.control r) = some s)
    (hp : decode p = some s') (hr : s.revision < s'.revision) :
    (d.setControl (!r) p).chosen = some (!r, s') := by
  have hne : s.revision ≠ s'.revision := UInt64.ne_of_lt hr
  have hle : ¬ s'.revision ≤ s.revision := UInt64.not_le.2 hr
  cases r with
  | false => simp [Disk.chosen, choose, Disk.setControl, h, hp, hne, hle]
  | true => simp [Disk.chosen, choose, Disk.setControl, h, hp, hne.symm, UInt64.le_of_lt hr]

/-- A damaged other copy changes nothing. -/
theorem chosen_torn {p : Bytes} (h : decode (d.control r) = some s) (hp : decode p = none) :
    (d.setControl (!r) p).chosen = some (r, s) := by
  cases r <;> simp [Disk.chosen, choose, Disk.setControl, h, hp]

/-- The record in force after a write of the next one, however the write ended. -/
theorem chosen_record {s' : State} {p : Bytes} {k : Kind} (h : d.chosen = some (r, s))
    (ht : Transition k s s') (hp : encode s' = some p) (o : Outcome) :
    (d.record r p o).chosen = if o.landed then some (!r, s') else some (r, s) := by
  have hs := chosen_decode h
  have hnew := chosen_newer hs (decode_encode hp) ht.revision_lt
  have hl : ∀ l : Landed, (d.setControl (!r) (l.bytes (d.control !r) p)).chosen =
      if (Outcome.failed l).landed then some (!r, s') else some (r, s) := by
    intro l
    cases l with
    | old =>
      have : d.setControl (!r) (d.control !r) = d := by simp [Disk.setControl]
      simp [Landed.bytes, Outcome.landed, this, h]
    | new => exact hnew
    | torn t ht => exact chosen_torn hs ht
  cases o with
  | done => exact hnew
  | failed l => exact hl l
  | crashed l =>
    have := hl l
    cases l <;> exact this

end EmbLinkOs.Update
