import EmbLinkOs.Update.Calls

set_option autoImplicit false

/-! # One step of the machine

A boot is a sequence of journal writes and of starts (`dispatch_keeps`). Through boots and calls alike
the memory of a service that is ready agrees with the journal (`Coherent`). -/

namespace EmbLinkOs.Update

/-- What a world keeps: there is a record in force, and a session's service agrees with it. -/
structure Coherent (L : Layout) (w : World) : Prop where
  record : ∃ r s, w.disk.chosen = some (r, s)
  session : ∀ x, w.session = some x → ServiceOk L w.disk x.u

variable {r : Reply} {d : Disk}

theorem Moves.chosen (h : Moves d r) (hd : ∃ i s, d.chosen = some (i, s)) :
    ∃ i s, r.disk.chosen = some (i, s) := by
  cases h with
  | quiet hd' _ =>
    rw [chosen_congr hd']
    exact hd
  | write o hc ht hp hd' _ =>
    rw [hd', chosen_record hc ht hp o]
    split <;> exact ⟨_, _, rfl⟩

theorem serviceInit_writing (d : Disk) (info : BootInfo) (devices : Bool) (s : State) :
    (serviceInit d info devices s).writing = false := by
  unfold serviceInit
  split
  · rfl
  split
  · rfl
  split <;> rfl

theorem serviceInit_ok (L : Layout) (d : Disk) (info : BootInfo) (devices : Bool) (s : State) :
    ServiceOk L d (serviceInit d info devices s) := by
  have hun : ∀ s, ServiceOk L d (.unavailable s) :=
    fun s => ⟨by simp [Service.unavailable], by simp [Service.unavailable], fun _ => rfl⟩
  unfold serviceInit
  split
  · exact hun s
  split
  · exact hun s
  next r st hc =>
  split
  · exact hun s
  · exact ⟨fun _ => hc, fun _ h => absurd h (by simp [Service.unavailable]), fun _ => rfl⟩

/-! ## Boots -/

section Boots

variable [Sha256] {L : Layout} {I : List Event → Disk → Prop} {s : State} {h : List Event}

/-- What a predicate of the history and the disk has to stand for a boot to keep it: a rejection or
    a spent attempt on its way to the journal, the start of the confirmed slot, the start of the
    pending slot right behind the write that spends its attempt, and the embedded system. -/
structure BootKeeps (L : Layout) (I : List Event → Disk → Prop) : Prop where
  journal : ∀ {h d r s k s' p} (o : Outcome), I h d → d.chosen = some (r, s) → Transition k s s' →
    k = .reject ∨ k = .spend → encode s' = some p →
    I (h ++ o.events (.journal k s s')) (d.record r p o)
  active : ∀ {h d r s}, I h d → d.chosen = some (r, s) → I (h ++ [.start s.active]) d
  trial : ∀ {h d r s s' p fw}, I h d → d.chosen = some (r, s) →
    boot s = .ok ⟨s.pending, some s'⟩ → s.pending ≠ s.active → encode s' = some p →
    chains L (d.record r p .done) fw s' s.pending = true →
    I (h ++ [.journal .spend s s', .start s.pending]) (d.record r p .done)
  embedded : ∀ {h d}, I h d → I (h ++ [.embedded]) d

theorem childAccepts_active (h : valid s = true) : childAccepts s s.active = true := by
  simp [childAccepts, (valid_facts h).1]

/-- Rejections and spent attempts keep the confirmed slot. -/
theorem boot_active {s' : State} {slot : UInt8} (h : boot s = .ok ⟨slot, some s'⟩) :
    s'.active = s.active := by
  rcases boot_ok h with ⟨-, h'⟩ | ⟨-, e, s'', h', hr⟩ | ⟨-, -, -, -, -, h'⟩
  · simp at h'
  · obtain ⟨-, -, -, rfl⟩ := reject_ok hr
    simp only [Option.some.injEq] at h'
    rw [h']
    rfl
  · simp only [Option.some.injEq] at h'
    rw [h']
    rfl

/-- The start of the confirmed slot: the record the loader holds and the one in force agree on it. -/
theorem chainActive_keeps (hk : BootKeeps L I) {e : List Event} {r : Bool} {s₁ : State}
    (hI : I (h ++ e) d) (hc : d.chosen = some (r, s₁)) (hact : s₁.active = s.active)
    (hv : valid s = true) (fw : Firmware) (recovery : Bool) :
    I (h ++ (chainActive L d fw s recovery e).events) (chainActive L d fw s recovery e).disk := by
  have hstart : I (h ++ (e ++ [.start s.active])) d := by
    rw [← List.append_assoc, ← hact]
    exact hk.active hI hc
  unfold chainActive
  split
  · unfold started
    rw [childAccepts_active hv]
    simp only [Bool.not_true, Bool.false_eq_true, if_false]
    by_cases hret : fw.returns s.active = true
    · simp only [hret, if_true]
      have := hk.embedded hstart
      simpa [Update.embedded] using this
    · simp only [hret]
      exact hstart
  · have := hk.embedded hI
    simpa [Update.embedded] using this

theorem revert_keeps (hk : BootKeeps L I) {e : List Event} {r : Bool} (hI : I (h ++ e) d)
    (hc : d.chosen = some (r, s)) (fw : Firmware) (recovery : Bool) :
    I (h ++ (revert L d fw (some r) s recovery e).events)
      (revert L d fw (some r) s recovery e).disk := by
  have hv := chosen_valid hc
  unfold revert
  split
  swap
  · exact chainActive_keeps hk hI hc rfl hv fw recovery
  next r' next hr' hn =>
  simp only [Option.some.injEq] at hr'
  subst hr'
  split
  · exact chainActive_keeps hk hI hc rfl hv fw recovery
  next p hp =>
  have ht := Transition.reject hn
  have hJ := hk.journal fw.rejectWrite hI hc ht (Or.inl rfl) hp
  rw [List.append_assoc] at hJ
  have hact : next.active = s.active := by
    obtain ⟨-, -, -, rfl⟩ := reject_ok hn
    rfl
  have hc' := chosen_record hc ht hp fw.rejectWrite
  dsimp only
  cases ho : fw.rejectWrite with
  | done =>
    rw [ho] at hJ hc'
    have hvn : valid next = true := chosen_valid hc'
    exact chainActive_keeps hk hJ hc' rfl hvn fw recovery
  | failed l =>
    rw [ho] at hJ hc'
    by_cases hl : (Outcome.failed l).landed = true
    · rw [if_pos hl] at hc'
      exact chainActive_keeps hk hJ hc' hact hv fw recovery
    · rw [if_neg hl] at hc'
      exact chainActive_keeps hk hJ hc' rfl hv fw recovery
  | crashed l =>
    rw [ho] at hJ
    exact hJ

/-- A boot with a record in force. It halts where the record is stuck only. -/
theorem dispatchRecord_keeps (hk : BootKeeps L I) {r : Bool} (hI : I h d)
    (hc : d.chosen = some (r, s)) (hhalt : s.Stuck → I (h ++ [.halt]) d) (fw : Firmware) :
    I (h ++ (dispatchRecord L d fw r s).events) (dispatchRecord L d fw r s).disk := by
  have hv := chosen_valid hc
  have hI₀ : I (h ++ []) d := by rwa [List.append_nil]
  have hlaunch : ∀ recovery, I (h ++ (launch L d fw (some r) s s.active recovery []).events)
      (launch L d fw (some r) s s.active recovery []).disk := by
    intro recovery
    rw [launch, if_pos rfl]
    exact chainActive_keeps hk hI₀ hc rfl hv fw recovery
  unfold dispatchRecord
  split
  swap
  · exact hlaunch _
  split
  · next e he => exact hhalt (boot_error he hv)
  · next slot hb =>
    have hslot : slot = s.active := by
      rcases boot_ok hb with ⟨h₁, -⟩ | ⟨h₁, -⟩ | ⟨-, -, -, -, -, h₁⟩
      · exact h₁
      · exact h₁
      · simp at h₁
    rw [hslot]
    exact hlaunch _
  · next slot next hb =>
    split
    · exact hlaunch _
    next p hp =>
    have hact := boot_active hb
    by_cases hslot : slot = s.active
    · -- a rejection: the confirmed slot is started whether it was persisted or not
      have hrej : ∃ e, reject s e = .ok next := by
        rcases boot_ok hb with ⟨-, h₁⟩ | ⟨-, e, s', h₁, hr⟩ | ⟨h₁, h₂, -⟩
        · simp at h₁
        · simp only [Option.some.injEq] at h₁
          exact ⟨e, h₁ ▸ hr⟩
        · exact absurd (h₁.symm.trans hslot) ((valid_facts hv).2.1 h₂).2.1
      obtain ⟨e, hrej⟩ := hrej
      have ht := Transition.reject hrej
      have hJ := hk.journal fw.bootWrite hI hc ht (Or.inl rfl) hp
      have hc' := chosen_record hc ht hp fw.bootWrite
      dsimp only
      rw [if_pos hslot]
      cases ho : fw.bootWrite with
      | done =>
        rw [ho] at hJ hc'
        have hvn : valid next = true := chosen_valid hc'
        show I (h ++ (launch L _ fw (some !r) next slot false _).events) _
        rw [launch, if_pos (hslot.trans hact.symm)]
        exact chainActive_keeps hk hJ hc' rfl hvn fw false
      | failed l =>
        rw [ho] at hJ hc'
        show I (h ++ (launch L _ fw (some r) s s.active false _).events) _
        rw [launch, if_pos rfl]
        by_cases hl : (Outcome.failed l).landed = true
        · rw [if_pos hl] at hc'
          exact chainActive_keeps hk hJ hc' hact hv fw false
        · rw [if_neg hl] at hc'
          exact chainActive_keeps hk hJ hc' rfl hv fw false
      | crashed l =>
        rw [ho] at hJ
        exact hJ
    · -- the attempt of the pending slot is spent
      have hpend : slot = s.pending := by
        rcases boot_ok hb with ⟨h₁, -⟩ | ⟨h₁, -⟩ | ⟨h₁, -⟩
        · exact absurd h₁ hslot
        · exact absurd h₁ hslot
        · exact h₁
      subst hpend
      obtain ⟨-, hno, -, -, hnext⟩ := spend_ok hb hslot
      have ht := Transition.spend hb hslot
      have hJ := hk.journal fw.bootWrite hI hc ht (Or.inr rfl) hp
      have hc' := chosen_record hc ht hp fw.bootWrite
      dsimp only
      rw [if_neg hslot]
      cases ho : fw.bootWrite with
      | done =>
        rw [ho] at hJ hc'
        have hchild : childAccepts next s.pending = true := by
          rw [hnext]
          simp [childAccepts, bump, ((valid_facts hv).2.1 hno).1]
        show I (h ++ (launch L _ fw (some !r) next s.pending false _).events) _
        rw [launch, if_neg (by rw [hact]; exact hslot)]
        split
        · next hch =>
          have hT := hk.trial hI hc hb hslot hp hch
          have hT' : I (h ++ (Outcome.done.events (.journal .spend s next) ++ [.start s.pending]))
              (d.record r p .done) := hT
          unfold started
          rw [hchild]
          simp only [Bool.not_true, Bool.false_eq_true, if_false]
          by_cases hret : fw.returns s.pending = true
          · simp only [hret, if_true]
            exact revert_keeps hk hT' hc' fw false
          · simp only [hret]
            exact hT'
        · exact revert_keeps hk hJ hc' fw false
      | failed l =>
        rw [ho] at hJ hc'
        show I (h ++ (launch L _ fw (some r) s s.active false _).events) _
        rw [launch, if_pos rfl]
        by_cases hl : (Outcome.failed l).landed = true
        · rw [if_pos hl] at hc'
          exact chainActive_keeps hk hJ hc' hact hv fw false
        · rw [if_neg hl] at hc'
          exact chainActive_keeps hk hJ hc' rfl hv fw false
      | crashed l =>
        rw [ho] at hJ
        exact hJ

/-- A boot from a disk with a record in force. -/
theorem dispatch_keeps (hk : BootKeeps L I) {r : Bool} (hI : I h d) (hc : d.chosen = some (r, s))
    (hhalt : s.Stuck → I (h ++ [.halt]) d) (fw : Firmware) :
    I (h ++ (dispatch L d fw).events) (dispatch L d fw).disk := by
  unfold dispatch
  split
  · exact hk.embedded hI
  · rw [hc]
    exact dispatchRecord_keeps hk hI hc hhalt fw

/-- A record stays in force through a boot. -/
theorem dispatch_chosen (hc : ∃ r s, d.chosen = some (r, s)) (fw : Firmware) :
    ∃ r s, (dispatch L d fw).disk.chosen = some (r, s) := by
  obtain ⟨r, s, hc⟩ := hc
  refine dispatch_keeps (I := fun _ d => ∃ r s, d.chosen = some (r, s)) ?_ (h := []) ⟨r, s, hc⟩ hc
    (fun _ => ⟨r, s, hc⟩) fw
  have hrec : ∀ {d : Disk} {r s k s' p} (o : Outcome), d.chosen = some (r, s) → Transition k s s' →
      encode s' = some p → ∃ i t, (d.record r p o).chosen = some (i, t) := by
    intro d r s k s' p o hc ht hp
    rw [chosen_record hc ht hp o]
    split <;> exact ⟨_, _, rfl⟩
  exact ⟨fun o _ hc ht _ hp => hrec o hc ht hp, fun h _ => h,
    fun _ hc hb hne hp _ => hrec .done hc (.spend hb hne) hp, fun h => h⟩

theorem Booted.session_ok (L : Layout) (b : Booted) (devices : Bool) (x : Session)
    (hx : b.session devices = some x) : ServiceOk L b.disk x.u := by
  unfold Booted.session at hx
  split at hx
  · simp only [Option.some.injEq] at hx
    subst hx
    exact serviceInit_ok L _ _ _ _
  · exact absurd hx (by simp)

end Boots

/-- A served call in a session. -/
theorem Served.coherent {L : Layout} (h : Served L d r) (hd : ∃ i s, d.chosen = some (i, s))
    (info : BootInfo) : Coherent L (r.world info) := by
  refine ⟨h.moves.chosen hd, fun x hx => ?_⟩
  obtain ⟨u, hu, rfl⟩ := Option.map_eq_some_iff.1 hx
  exact h.service u hu

/-- The inputs: a boot, the loss of power, and a call, which does nothing to a machine that is off. -/
theorem Coherent.step_cases [Sha256] {L : Layout} {w : World} (h : Coherent L w) (i : Input) :
    (∃ fw, i = .boot fw) ∨ i = .crash ∨ (updater L).step w i = (w, []) ∨
      ∃ x r, w.session = some x ∧ (updater L).step w i = (r.world x.info, r.events) ∧
        Call L w.disk x.u (∀ f n c o, i = .control (.commit f n) c o → x.u.Fresh w.disk) r := by
  cases i with
  | boot fw => exact Or.inl ⟨fw, rfl⟩
  | crash => exact Or.inr (Or.inl rfl)
  | control op c o =>
    refine Or.inr (Or.inr ?_)
    simp only [updater, Update.step]
    cases hs : w.session with
    | none => exact Or.inl rfl
    | some x =>
      have hcall := control_call (h.session x hs) op c o
      refine Or.inr ⟨x, _, rfl, rfl, hcall.served, fun hf => hcall.kept fun f n hop => ?_⟩
      exact hf f n c o (by rw [hop])
  | health healthy alive now o =>
    refine Or.inr (Or.inr ?_)
    simp only [updater, Update.step]
    cases hs : w.session with
    | none => exact Or.inl rfl
    | some x =>
      have hcall := health_call (h.session x hs) x.info healthy alive now o
      exact Or.inr ⟨x, _, rfl, rfl, hcall.served, fun _ => hcall.kept trivial⟩

/-- One input keeps the world coherent. -/
theorem Coherent.step [Sha256] {L : Layout} {w : World} (h : Coherent L w) (i : Input) :
    Coherent L ((updater L).step w i).1 := by
  rcases h.step_cases i with ⟨fw, rfl⟩ | rfl | hs | ⟨x, r, -, hs, hcall⟩
  · exact ⟨dispatch_chosen h.record fw, fun x hx => Booted.session_ok L _ _ x hx⟩
  · exact ⟨h.record, fun x hx => absurd hx (by simp [updater, Update.step])⟩
  · rw [hs]
    exact h
  · rw [hs]
    exact hcall.served.coherent h.record x.info

end EmbLinkOs.Update
