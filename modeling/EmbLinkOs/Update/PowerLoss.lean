import EmbLinkOs.Update.Trial

set_option autoImplicit false

/-! # Updates survive the loss of power

The images of the confirmed slot, and those of a pending or a previous one, have the digests of the
record in force in every state reached, so a boot finds a system it can start. The digest that counts
is the one of the whole image: `commit_image` computes it once per readback, and its second call
after a readback that has ended would compare the digest of the padded image, so the runs considered
do not make it. -/

namespace EmbLinkOs.Update

open List

open History

/-- The steps considered: a commit is not repeated after a readback that ended, and the machine is
    not booted with a record that is stuck. -/
def Sane (w : World) : Input → Prop
  | .control (.commit _ _) _ _ => ∀ x, w.session = some x → x.u.Fresh w.disk
  | .boot _ => ∀ r s, w.disk.chosen = some (r, s) → ¬ s.Stuck
  | _ => True

/-! ## Histories -/

/-- The event puts the record `s` in force. -/
def Sets (s : State) : Event → Prop
  | .installed t => t = s
  | .journal _ _ t => t = s
  | _ => False

/-- `s` is the record in force. -/
def InForce (h : List Event) (s : State) : Prop := Since (Sets s) (fun e => ¬ ∃ t, Sets t e) h

/-- What may follow on `past`: a transition of the record in force, images of a slot that is not
    confirmed, and no halt. -/
def Lawful (past : List Event) : Event → Prop
  | .journal k b t => InForce past b ∧ Transition k b t
  | .imageWrite p => ¬ Confirmed past p
  | .halt => False
  | _ => True

/-- The firmware opens the partition and loads every image it is given, and power stays on while the
    dispatcher writes. -/
structure Firmware.Works (fw : Firmware) : Prop where
  opens : fw.opens = true
  loads : ∀ p, fw.loads p = true
  power : ∀ l, fw.bootWrite ≠ .crashed l

section

variable [Sha256] (L : Layout)

/-- An update history that power losses have not harmed, and the world it has led to. -/
structure UpdateSafe (h : List Event) (w : World) : Prop where
  /-- There is a record in force, the last one that reached the journal, and the images it relies on
      are complete. -/
  record : ∃ r s, w.disk.chosen = some (r, s) ∧ InForce h s ∧ Images L w.disk s
  /-- Every record that reached the journal is a transition of the one in force before it. -/
  transitions : ∀ pre k b t post, h = pre ++ .journal k b t :: post → InForce pre b ∧ Transition k b t
  /-- The images of the confirmed slot are not written. -/
  images : ∀ pre p post, h = pre ++ .imageWrite p :: post → ¬ Confirmed pre p
  /-- A boot starts the confirmed slot or the pending one, with its images complete. -/
  starts : ∀ fw p, .start p ∈ (dispatch L w.disk fw).events → ∀ r s, w.disk.chosen = some (r, s) →
    (p = s.active ∨ p = s.pending) ∧ Verified L w.disk s p
  /-- A boot starts a slot, unless the record is stuck. -/
  boots : ∀ fw : Firmware, fw.Works → (∀ r s, w.disk.chosen = some (r, s) → ¬ s.Stuck) →
    ∃ p, .start p ∈ (dispatch L w.disk fw).events
  /-- No boot has halted. -/
  runs : .halt ∉ h

/-- The part of the invariant a boot keeps. -/
def Lasting (h : List Event) (d : Disk) : Prop :=
  Justified Lawful [] h ∧ ∃ r s, d.chosen = some (r, s) ∧ InForce h s ∧ Images L d s

end

section

variable [Sha256] {L : Layout} {h e : List Event} {d : Disk} {w : World} {s : State} {fw : Firmware}
  {r : Bool}

theorem InForce.append (hs : InForce h s) (he : ∀ x ∈ e, ∀ t, ¬ Sets t x) :
    InForce (h ++ e) s := Since.append hs fun y hy hx => hx.elim fun t ht => he y hy t ht

theorem Lasting.append (hl : Lasting L h d)
    (he : ∀ x ∈ e, (∀ t, ¬ Sets t x) ∧ ∀ past, Lawful past x) : Lasting L (h ++ e) d := by
  obtain ⟨hj, r, s, hc, hs, himg⟩ := hl
  refine ⟨(justified_append [] h e).2 ⟨hj, ?_⟩, r, s, hc, hs.append fun x hx => (he x hx).1, himg⟩
  generalize [] ++ h = past
  induction e generalizing past with
  | nil => trivial
  | cons x e ih => exact ⟨(he x (by simp)).2 past, ih (fun y hy => he y (by simp [hy])) _⟩

theorem Lasting.journal {s' : State} {k : Kind} {p : Bytes} (o : Outcome) (hl : Lasting L h d)
    (hc : d.chosen = some (r, s)) (ht : Transition k s s') (hp : encode s' = some p)
    (himg : o.landed = true → Images L d s') :
    Lasting L (h ++ o.events (.journal k s s')) (d.record r p o) := by
  obtain ⟨hj, r₁, s₁, hc₁, hs, himg₁⟩ := hl
  obtain ⟨rfl, rfl⟩ : r₁ = r ∧ s₁ = s := by simpa using hc₁.symm.trans hc
  have hc' := chosen_record hc ht hp o
  unfold Outcome.events
  by_cases hland : o.landed = true
  · rw [if_pos hland] at hc' ⊢
    exact ⟨(justified_append [] h _).2 ⟨hj, ⟨hs, ht⟩, trivial⟩, _, _, hc', since_concat rfl,
      (himg hland).record _ _ _⟩
  · rw [if_neg hland] at hc' ⊢
    rw [append_nil]
    exact ⟨hj, _, _, hc', hs, himg₁.record _ _ _⟩

theorem Lasting.start (hl : Lasting L h d) (p : UInt8) : Lasting L (h ++ [.start p]) d := by
  refine hl.append fun x hx => ?_
  obtain rfl := mem_singleton.1 hx
  exact ⟨fun _ => id, fun _ => trivial⟩

theorem Lasting.embedded (hl : Lasting L h d) : Lasting L (h ++ [.embedded]) d := by
  refine hl.append fun x hx => ?_
  obtain rfl := mem_singleton.1 hx
  exact ⟨fun _ => id, fun _ => trivial⟩

theorem bootKeeps_lasting (L : Layout) : BootKeeps L (Lasting L) where
  journal {h d r s k s' p} o hl hc ht hk hp := by
    obtain ⟨hj, r₁, s₁, hc₁, hs, himg⟩ := hl
    obtain ⟨rfl, rfl⟩ : r₁ = r ∧ s₁ = s := by simpa using hc₁.symm.trans hc
    have hne : k ≠ .stage := by rcases hk with rfl | rfl <;> simp
    exact Lasting.journal o ⟨hj, r₁, s₁, hc₁, hs, himg⟩ hc ht hp fun _ => himg.transition ht hne
  active hl _ := hl.start _
  trial {h d r s s' p fw} hl hc hb hne hp _ := by
    obtain ⟨hj, r₁, s₁, hc₁, hs, himg⟩ := hl
    obtain ⟨rfl, rfl⟩ : r₁ = r ∧ s₁ = s := by simpa using hc₁.symm.trans hc
    have ht := Transition.spend hb hne
    have hspent := Lasting.journal .done ⟨hj, r₁, s₁, hc₁, hs, himg⟩ hc ht hp
      fun _ => himg.transition ht (by simp)
    rw [append_cons]
    exact hspent.start _
  embedded hl := hl.embedded

/-- A call of the service. -/
theorem Moves.lasting {r : Reply} (hm : Moves d r) (hk : Kept L r) (hE : Explained h d)
    (hl : Lasting L h d) : Lasting L (h ++ r.events) r.disk := by
  obtain ⟨hj, i, s, hc, hs, himg⟩ := hl
  cases hm with
  | quiet hd he =>
    have hc' : r.disk.chosen = some (i, s) := by rw [chosen_congr hd, hc]
    obtain ⟨-, i₁, s₁, hc₁, hex⟩ := hE
    obtain ⟨rfl, rfl⟩ : i₁ = i ∧ s₁ = s := by simpa using hc₁.symm.trans hc
    -- an image write leaves the slot confirmed, so the next one is lawful as well
    have hlawful : ∀ (e : List Event) (past : List Event), Confirmed past s₁.active →
        (∀ x ∈ e, ∃ t, x = .imageWrite t ∧ ∀ i s, d.chosen = some (i, s) → t ≠ s.active) →
        Justified Lawful past e := by
      intro e
      induction e with
      | nil => exact fun _ _ _ => trivial
      | cons x e ih =>
        intro past hconf he
        obtain ⟨t, rfl, ht⟩ := he x (by simp)
        exact ⟨fun hp => ht _ _ hc (hp.unique hconf),
          ih _ (Since.append hconf (by simp [Confirming, Confirms])) fun y hy => he y (by simp [hy])⟩
    refine ⟨(justified_append [] h _).2 ⟨hj, hlawful _ _ (by simpa using hex.active) he⟩, i₁, s₁, hc',
      hs.append fun x hx t ht => ?_, hk.images _ _ hc'⟩
    obtain ⟨t', rfl, -⟩ := he x hx
    exact ht
  | write o hc₂ ht hp hd he =>
    have himages := hk.images
    rw [hd] at himages ⊢
    rw [he]
    refine Lasting.journal o ⟨hj, i, s, hc, hs, himg⟩ hc₂ ht hp fun hland => ?_
    have hc' := chosen_record hc₂ ht hp o
    rw [if_pos hland] at hc'
    have himg' := himages _ _ hc'
    exact ⟨himg'.active, himg'.pending, himg'.previous⟩

/-! ## Boots -/

/-- What a boot leaves of the record it began with: the confirmed slot, and the pending one until it
    is rejected. -/
def Follows (s : State) (d : Disk) : Prop :=
  ∃ r t, d.chosen = some (r, t) ∧ t.active = s.active ∧ (t.pending = s.pending ∨ t.pending = noSlot)

theorem Follows.record {t t' : State} {k : Kind} {p : Bytes} (hf : Follows s d)
    (hc : d.chosen = some (r, t)) (ht : Transition k t t') (hk : k = .reject ∨ k = .spend)
    (hp : encode t' = some p) (o : Outcome) : Follows s (d.record r p o) := by
  obtain ⟨r₁, t₁, hc₁, ha, hpend⟩ := hf
  obtain ⟨rfl, rfl⟩ : r₁ = r ∧ t₁ = t := by simpa using hc₁.symm.trans hc
  have hkeep : t'.active = t₁.active ∧ (t'.pending = t₁.pending ∨ t'.pending = noSlot) := by
    cases ht with
    | reject ht =>
      obtain ⟨-, -, -, rfl⟩ := reject_ok ht
      exact ⟨rfl, Or.inr rfl⟩
    | spend ht hne =>
      obtain ⟨-, -, -, -, rfl⟩ := spend_ok ht hne
      exact ⟨rfl, Or.inl rfl⟩
    | beginWrite _ => simp at hk
    | stage _ => simp at hk
    | confirm _ => simp at hk
    | rollback _ => simp at hk
  have hc' := chosen_record hc ht hp o
  split at hc'
  · refine ⟨_, _, hc', hkeep.1.trans ha, ?_⟩
    rcases hkeep.2 with h | h
    · rwa [h]
    · exact Or.inr h
  · exact ⟨_, _, hc', ha, hpend⟩

/-- The slots a boot starts: the confirmed one and the pending one of the record in force. -/
theorem start_of_dispatch (hc : d.chosen = some (r, s)) (fw : Firmware) {p : UInt8}
    (hp : .start p ∈ (dispatch L d fw).events) :
    p = s.active ∨ p = s.pending ∧ s.pending ≠ noSlot := by
  let Named : List Event → Prop := fun h =>
    ∀ p, .start p ∈ h → p = s.active ∨ p = s.pending ∧ s.pending ≠ noSlot
  have happend : ∀ {h e}, Named h → Named e → Named (h ++ e) := fun h₁ h₂ p hp =>
    (mem_append.1 hp).elim (h₁ p) (h₂ p)
  have hkeeps : BootKeeps L fun h d => Named h ∧ Follows s d := by
    refine ⟨fun o hI hc ht hk hp => ⟨happend hI.1 fun q hq => ?_, hI.2.record hc ht hk hp o⟩,
      fun {h d r t} hI hc => ⟨happend hI.1 fun q hq => ?_, hI.2⟩,
      fun {h d r t t' x fw} hI hc hb hne hp _ => ⟨happend hI.1 fun q hq => ?_,
        hI.2.record hc (.spend hb hne) (Or.inr rfl) hp .done⟩,
      fun hI => ⟨happend hI.1 (by simp [Named]), hI.2⟩⟩
    · unfold Outcome.events at hq
      split at hq <;> simp at hq
    · obtain ⟨r₁, t₁, hc₁, ha, -⟩ := hI.2
      obtain ⟨rfl, rfl⟩ : r₁ = r ∧ t₁ = t := by simpa using hc₁.symm.trans hc
      simp only [mem_singleton, Event.start.injEq] at hq
      exact Or.inl (hq.trans ha)
    · obtain ⟨r₁, t₁, hc₁, -, hpend⟩ := hI.2
      obtain ⟨rfl, rfl⟩ : r₁ = r ∧ t₁ = t := by simpa using hc₁.symm.trans hc
      obtain ⟨-, hno, -, -, -⟩ := spend_ok hb hne
      simp only [mem_cons, reduceCtorEq, Event.start.injEq, not_mem_nil, or_false,
        false_or] at hq
      have hpend := hpend.resolve_right hno
      exact Or.inr ⟨hq.trans hpend, hpend ▸ hno⟩
  have hboot := dispatch_keeps hkeeps (h := []) ⟨by simp [Named], r, s, hc, rfl, Or.inl rfl⟩ hc
    (fun _ => ⟨by simp [Named], r, s, hc, rfl, Or.inl rfl⟩) fw
  exact hboot.1 p hp

theorem Verified.chains {p : UInt8} (hv : Verified L d s p) (hfw : fw.Works) (hs : valid s = true)
    (hslot : slotValid (s.slot p) true = true) : chains L d fw s p = true := by
  obtain ⟨-, hlow, hhigh⟩ := slotValid_bounds hslot
  simp [Update.chains, hlow, hhigh, hfw.loads, hv.2, hs]

theorem start_mem_chainActive (hv : valid s = true) (hch : chains L d fw s s.active = true)
    (recovery : Bool) (e : List Event) :
    .start s.active ∈ (chainActive L d fw s recovery e).events := by
  rw [chainActive, if_pos hch, started, childAccepts_active hv]
  by_cases hret : fw.returns s.active = true <;> simp [hret, Update.embedded]

theorem mem_chainActive (fw : Firmware) (recovery : Bool) {x : Event} (hx : x ∈ e) :
    x ∈ (chainActive L d fw s recovery e).events := by
  unfold chainActive
  split
  · split <;> simp [Update.embedded, hx]
  · simp [Update.embedded, hx]

theorem mem_revert (fw : Firmware) (record : Option Bool) (recovery : Bool) {x : Event}
    (hx : x ∈ e) :
    x ∈ (revert L d fw record s recovery e).events := by
  unfold revert
  split
  · split
    · exact mem_chainActive fw recovery hx
    · dsimp only
      split
      · exact mem_chainActive fw recovery (by simp [hx])
      · exact mem_chainActive fw recovery (by simp [hx])
      · simp [hx]
  · exact mem_chainActive fw recovery hx

theorem start_mem_launch {slot : UInt8} (hv : valid s = true) (hch : chains L d fw s slot = true)
    (record : Option Bool) (recovery : Bool) (e : List Event) :
    .start slot ∈ (launch L d fw record s slot recovery e).events := by
  unfold launch
  split
  · next hact =>
    subst hact
    exact start_mem_chainActive hv hch recovery e
  · unfold started
    split
    · next b hb =>
      split at hb
      · obtain rfl := Option.some.inj hb
        simp
      split at hb
      · exact absurd hb (by simp)
      · obtain rfl := Option.some.inj hb
        simp
    · exact mem_revert fw record recovery (by simp)

/-- With a record that is not stuck and images that are complete, a boot starts a slot. -/
theorem dispatch_starts (hc : d.chosen = some (r, s)) (himg : Images L d s) (hstuck : ¬ s.Stuck)
    (hfw : fw.Works) : ∃ p, .start p ∈ (dispatch L d fw).events := by
  have hv := chosen_valid hc
  -- the confirmed slot can be started from any disk the boot leaves
  have hactive : ∀ r' p o record recovery e,
      .start s.active ∈ (launch L (d.record r' p o) fw record s s.active recovery e).events :=
    fun r' p o record recovery e => start_mem_launch hv
      ((himg.record r' p o).active.chains hfw hv (slotValid_active hv)) record recovery e
  have hactive₀ : ∀ record recovery e,
      .start s.active ∈ (launch L d fw record s s.active recovery e).events :=
    fun record recovery e => start_mem_launch hv
      (himg.active.chains hfw hv (slotValid_active hv)) record recovery e
  unfold dispatch
  rw [if_neg (by simp [hfw.opens]), hc]
  show ∃ p, .start p ∈ (dispatchRecord L d fw r s).events
  unfold dispatchRecord
  split
  swap
  · exact ⟨_, hactive₀ _ _ _⟩
  split
  · next x hx => exact absurd (boot_error hx hv) hstuck
  · next slot hb =>
    have hslot : slot = s.active := by
      rcases boot_ok hb with ⟨h, -⟩ | ⟨h, -⟩ | ⟨-, -, -, -, -, h⟩
      · exact h
      · exact h
      · simp at h
    rw [hslot]
    exact ⟨_, hactive₀ _ _ _⟩
  · next slot next hb =>
    split
    · exact ⟨_, hactive₀ _ _ _⟩
    next p hp =>
    have hc' : ∀ k, Transition k s next →
        (d.record r p .done).chosen = some (!r, next) := fun k ht => chosen_record hc ht hp .done
    dsimp only
    cases ho : fw.bootWrite with
    | done =>
      show ∃ q, .start q ∈ (launch L (d.record r p .done) fw (some !r) next slot false _).events
      rcases boot_ok hb with ⟨-, h⟩ | ⟨hslot, e, t, h, hr⟩ | ⟨hslot, hno, -, -, -, -⟩
      · simp at h
      · obtain rfl := Option.some.inj h
        have ht := Transition.reject hr
        have hvn := chosen_valid (hc' _ ht)
        have hact := boot_active hb
        obtain rfl : slot = next.active := hslot.trans hact.symm
        exact ⟨_, start_mem_launch hvn
          (((himg.transition ht (by simp)).record _ _ _).active.chains hfw hvn (slotValid_active hvn)) _ _ _⟩
      · obtain rfl : slot = s.pending := hslot
        have hne := ((valid_facts hv).2.1 hno).2.1
        have ht := Transition.spend hb hne
        have hvn := chosen_valid (hc' _ ht)
        obtain ⟨-, -, -, -, hnext⟩ := spend_ok hb hne
        have hpend : next.pending = s.pending := by rw [hnext]; rfl
        have himg' := (himg.transition ht (by simp)).record r p .done
        rw [← hpend] at hno ⊢
        exact ⟨_, start_mem_launch hvn
          ((himg'.pending hno).chains hfw hvn (slotValid_pending hvn hno)) _ _ _⟩
    | failed l => exact ⟨_, hactive _ _ _ _ _ _⟩
    | crashed l => exact absurd ho (hfw.power l)

/-! ## Runs -/

/-- What every step of a sane run keeps. -/
structure Surviving (L : Layout) (h : List Event) (w : World) : Prop where
  coherent : Coherent L w
  explained : Explained h w.disk
  lasting : Lasting L h w.disk
  progress : ∀ x, w.session = some x → x.u.ready = true → x.u.writing = true → Progress w.disk x.u

theorem Surviving.sound (hw : Surviving L h w) {x : Session} (hx : w.session = some x) :
    Sound L w.disk x.u := by
  refine ⟨hw.coherent.session x hx, fun i s hc => ?_, hw.progress x hx⟩
  obtain ⟨-, i₁, s₁, hc₁, -, himg⟩ := hw.lasting
  obtain ⟨rfl, rfl⟩ : i₁ = i ∧ s₁ = s := by simpa using hc₁.symm.trans hc
  exact himg

theorem Surviving.served (hw : Surviving L h w) {r : Reply} (hr : Served L w.disk r)
    (hk : Kept L r) (info : BootInfo) : Surviving L (h ++ r.events) (r.world info) where
  coherent := hr.coherent hw.coherent.record info
  explained := hr.moves.explained hw.explained
  lasting := hr.moves.lasting hk hw.explained hw.lasting
  progress x hx h1 h2 := by
    obtain ⟨u, hu, rfl⟩ := Option.map_eq_some_iff.1 hx
    exact hk.progress u hu h1 h2

theorem Surviving.boot (hw : Surviving L h w) (fw : Firmware)
    (hstuck : ∀ r s, w.disk.chosen = some (r, s) → ¬ s.Stuck) :
    Surviving L (h ++ (Update.step L w (.boot fw)).2) (Update.step L w (.boot fw)).1 where
  coherent := hw.coherent.step (.boot fw)
  explained := explained_step hw.coherent hw.explained (.boot fw)
  lasting := by
    obtain ⟨r, s, hc⟩ := hw.coherent.record
    exact dispatch_keeps (bootKeeps_lasting L) hw.lasting hc (fun hs => absurd hs (hstuck r s hc)) fw
  progress x hx _ hwr := by
    -- a service starts without a session of its own
    have hnone : x.u.writing = false := by
      have hx : (dispatch L w.disk fw).session fw.devices = some x := hx
      unfold Booted.session at hx
      split at hx
      · obtain rfl := Option.some.inj hx
        exact serviceInit_writing _ _ _ _
      · exact absurd hx (by simp)
    exact absurd hwr (by simp [hnone])

/-- One step of a sane run. -/
theorem Surviving.step (hw : Surviving L h w) {i : Input} (hi : Sane w i) :
    Surviving L (h ++ ((updater L).step w i).2) ((updater L).step w i).1 := by
  rcases hw.coherent.step_cases i with ⟨fw, rfl⟩ | rfl | hs | ⟨x, r, hx, hs, hcall⟩
  · exact hw.boot fw hi
  · show Surviving L (h ++ []) ⟨w.disk, none⟩
    rw [append_nil]
    exact ⟨hw.coherent.step .crash, hw.explained, hw.lasting, fun x hx => absurd hx (by simp)⟩
  · rw [hs, append_nil]
    exact hw
  · rw [hs]
    refine hw.served hcall.served (hcall.kept (fun f n c o hop => ?_) (hw.sound hx)) x.info
    subst hop
    exact hi x hx

theorem Surviving.safe (hw : Surviving L h w) : UpdateSafe L h w := by
  obtain ⟨hj, r, s, hc, hs, himg⟩ := hw.lasting
  have hsame : ∀ r' s', w.disk.chosen = some (r', s') → s' = s := fun r' s' hc' => by
    simpa using (congrArg (Option.map Prod.snd) (hc'.symm.trans hc))
  refine ⟨⟨r, s, hc, hs, himg⟩, fun pre k b t post he => hj.at_event he,
    fun pre p post he => hj.at_event he, fun fw p hp r' s' hc' => ?_, fun fw hfw hstuck => ?_, fun hh => ?_⟩
  · rw [hsame r' s' hc']
    rcases start_of_dispatch hc fw hp with rfl | ⟨rfl, hno⟩
    · exact ⟨Or.inl rfl, himg.active⟩
    · exact ⟨Or.inr rfl, himg.pending hno⟩
  · exact dispatch_starts hc himg (hstuck r s hc) hfw
  · obtain ⟨pre, post, he⟩ := append_of_mem hh
    exact hj.at_event he

end

/-- In every history of boots, calls of the service and losses of power on an installed system with
    complete images, whose steps are sane, the loss of power does no harm. -/
theorem update_safe_of_run [Sha256] (L : Layout) (d : Disk) (r : Bool) (s : State)
    (h : d.chosen = some (r, s)) (himg : Images L d s) (is : List Input)
    (hsane : (updater L).Admits Sane (installed d) is) :
    UpdateSafe L (.installed s :: ((updater L).run (installed d) is).2)
      ((updater L).run (installed d) is).1 := by
  have hstart : Surviving L [.installed s] (installed d) :=
    ⟨⟨⟨r, s, h⟩, fun x hx => absurd hx (by simp [installed])⟩, explained_installed h,
      ⟨⟨trivial, trivial⟩, r, s, h, ⟨[], _, [], rfl, rfl, by simp⟩, himg⟩,
      fun x hx => absurd hx (by simp [installed])⟩
  have hrun := Machine.run_invariant_of (m := updater L) (I := Surviving L)
    (fun h w i hI hi => hI.step hi) is [.installed s] (installed d) hstart hsane
  exact hrun.safe

namespace Small

theorem disk_images : @Images Sha256.crypto layout disk state := by
  have hact : @Verified Sha256.crypto layout disk state 0 := by
    unfold Verified
    rw [crypto_eq_known]
    exact ⟨by decide +kernel, by decide +kernel⟩
  exact @Images.mk Sha256.crypto layout disk state hact (fun h => absurd rfl h) fun h => absurd rfl h

theorem state_not_stuck (r : Bool) (s : State) (h : disk.chosen = some (r, s)) : ¬ s.Stuck := by
  obtain ⟨-, rfl⟩ : false = r ∧ state = s := by simpa using disk_chosen.symm.trans h
  exact fun hs => absurd hs.1 (by decide)

end Small

theorem update_safe_of_small :
    Small.disk.chosen = some (false, Small.state) ∧
      @Images Sha256.crypto Small.layout Small.disk Small.state ∧
      (@updater Sha256.crypto Small.layout).Admits Sane (installed Small.disk)
        [.boot Small.firmware, .crash, .boot Small.firmware] ∧
      @UpdateSafe Sha256.crypto Small.layout (.installed Small.state ::
        ((@updater Sha256.crypto Small.layout).run (installed Small.disk)
          [.boot Small.firmware, .crash, .boot Small.firmware]).2)
        ((@updater Sha256.crypto Small.layout).run (installed Small.disk)
          [.boot Small.firmware, .crash, .boot Small.firmware]).1 := by
  have hsane : (@updater Sha256.crypto Small.layout).Admits Sane
      (installed Small.disk) [.boot Small.firmware, .crash, .boot Small.firmware] := by
    have hboot : (@updater Sha256.crypto Small.layout).step (installed Small.disk)
        (.boot Small.firmware) = _ := Small.step_boot
    refine ⟨Small.state_not_stuck, trivial, ?_, trivial⟩
    rw [hboot]
    exact Small.state_not_stuck
  exact ⟨Small.disk_chosen, Small.disk_images, hsane,
    @update_safe_of_run Sha256.crypto Small.layout Small.disk false Small.state Small.disk_chosen
      Small.disk_images _ hsane⟩

/-! ## The second digest -/

/-- `begin` where nothing stands in its way. -/
theorem begin_done {L : Layout} {d : Disk} {u : Service} {image : Image} {t next : State} {p : Bytes}
    (hw : u.writing = false) (hp : u.state.pending = noSlot)
    (hs : stage u.state (1 - u.state.active) (u.candidateOf image (1 - u.state.active)) = .ok t)
    (hroom : image.rootBytes.toNat / 512 ≤ L.rootSectors (1 - u.state.active))
    (hapart : (L.slotMap (1 - u.state.active)).any (· ∈ L.slotMap u.state.active) = false)
    (hboot : (L.slotMap (1 - u.state.active)).any (· ∈ L.bootMap) = false)
    (hb : beginWrite u.state (1 - u.state.active) = .ok next) (he : encode next = some p) :
    begin_ L d u image false true .done =
      ⟨d.record u.record p .done,
        some { u with
          state := next, record := !u.record, target := 1 - u.state.active, writing := true,
          candidate := u.candidateOf image (1 - u.state.active), rootDone := 0, efiDone := 0,
          efiMap := L.slotMap (1 - u.state.active) },
        true, [.journal .beginWrite u.state next]⟩ := by
  unfold begin_
  rw [if_neg (by simp [hw, hp])]
  dsimp only
  have hs' : stage u.state (1 - u.state.active)
      ({ u with target := 1 - u.state.active }.candidateOf image (1 - u.state.active)) = .ok t := hs
  rw [hs']
  dsimp only
  rw [if_neg, hb]
  · dsimp only
    unfold persist
    rw [he]
    rfl
  · have hroom' : ¬ L.rootSectors (1 - u.state.active) < image.rootBytes.toNat / 512 := by omega
    simp only [Service.candidateOf, hapart, hboot, hroom', decide_false, Bool.not_true, Bool.or_false,
      Bool.false_eq_true, not_false_eq_true]

namespace Small

/-- A release whose root digest is not the one of its image. -/
def forged : Image :=
  { release := 2, rootBytes := 512, efiBytes := 1, version, rootSha256 := paddedDigest,
    efiSha256 := efiDigest }

def worker : Caller := ⟨true, true, 1, true⟩

/-- The record once the installation has begun. -/
def begun : State := { state with revision := 2, flags := writingFlag }

def begunPage : Bytes := (encode begun).getD []

/-- The service once the installation has begun. -/
def installing : Service :=
  { service with
    state := begun, record := true, worker := some 1, target := 1, writing := true,
    candidate := service.candidateOf forged 1, efiMap := layout.slotMap 1 }

theorem begin_forged :
    begin_ layout disk { service with worker := some 1 } forged false true .done =
      ⟨disk.record false begunPage .done, some installing, true, [.journal .beginWrite state begun]⟩ := by
  have hstage : (stage state 1 (service.candidateOf forged 1)).toOption.isSome = true := by
    decide +kernel
  have hbegin : beginWrite state 1 = .ok begun := rfl
  have hpage : encode begun = some begunPage := by decide +kernel
  have hapart : (layout.slotMap 1).any (· ∈ layout.slotMap 0) = false := by
    rw [any_eq_false]
    intro x hx
    simp only [layout, mem_range'_1, decide_eq_true_eq] at hx ⊢
    rw [show ((1 : UInt8).toNat) = 1 from rfl] at hx
    rw [show ((0 : UInt8).toNat) = 0 from rfl]
    omega
  obtain ⟨t, hstage⟩ := Option.isSome_iff_exists.1 hstage
  have hstage : stage state 1 (service.candidateOf forged 1) = .ok t := by
    cases h : stage state 1 (service.candidateOf forged 1) with
    | error e => simp [h, Except.toOption] at hstage
    | ok t' =>
      rw [h] at hstage
      exact congrArg _ (Option.some.inj hstage)
  exact begin_done (u := { service with worker := some 1 }) rfl rfl hstage le_rfl hapart (by simp [layout])
    hbegin hpage

/-- The calls up to the begin of the installation. -/
def opening : List Input :=
  [.boot firmware, .control .worker worker .done, .control (.begin forged false true) worker .done]

/-- The images are written and the commit is asked for until it is staged. -/
def installation : List Input :=
  [.control (.write false (List.replicate 512 0) .done) worker .done,
   .control (.write true [0] .done) worker .done,
   .control (.commit true 1) worker .done,
   .control (.commit true 1) worker .done,
   .control (.commit true 1) worker .done]

def begunWorld : World := ⟨disk.record false begunPage .done, some ⟨bootFill state 0 false, installing⟩⟩

theorem run_opening : ((@updater Sha256.crypto layout).run (installed disk) opening).1 = begunWorld := by
  have hboot : (@updater Sha256.crypto layout).step (installed disk) (.boot firmware) =
      (⟨disk, some session⟩, [.start 0]) := step_boot
  have hworker : (@updater Sha256.crypto layout).step ⟨disk, some session⟩
      (.control .worker worker .done) =
        (⟨disk, some ⟨bootFill state 0 false, { service with worker := some 1 }⟩⟩, []) := rfl
  have hbegin : (@updater Sha256.crypto layout).step
      ⟨disk, some ⟨bootFill state 0 false, { service with worker := some 1 }⟩⟩
      (.control (.begin forged false true) worker .done) =
        (begunWorld, [.journal .beginWrite state begun]) := by
    have hcontrol : @control Sha256.crypto layout disk { service with worker := some 1 }
        (.begin forged false true) worker .done =
          begin_ layout disk { service with worker := some 1 } forged false true .done := by
      unfold control workerOp
      rw [if_neg (by decide)]
      dsimp only
      rw [if_neg (by decide)]
    rw [begin_forged] at hcontrol
    exact congrArg (fun r : Reply => (r.world (bootFill state 0 false), r.events)) hcontrol
  rw [opening, Machine.run_cons, hboot, Machine.run_cons, hworker, Machine.run_cons, hbegin]
  rfl

/-- The slot on trial does not have the images of its record. -/
def unverified (d : Disk) : Bool :=
  d.chosen.any fun x => x.2.pending ≠ noSlot &&
    @sha256 Sha256.crypto (d.rootImage x.2.pending (x.2.slot x.2.pending).rootBytes.toNat) ≠
      (x.2.slot x.2.pending).rootSha256

theorem not_images_of_unverified {d : Disk} (h : unverified d = true) (r : Bool) (s : State)
    (hc : d.chosen = some (r, s)) : ¬ @Images Sha256.crypto layout d s := by
  rw [unverified, hc, Option.any_some, Bool.and_eq_true, decide_eq_true_eq, decide_eq_true_eq] at h
  exact fun himg => h.2 (@Images.pending Sha256.crypto _ _ _ himg h.1).1

theorem unverified_installation :
    unverified ((@updater Sha256.crypto layout).run begunWorld installation).1.disk = true := by
  rw [unverified, crypto_eq_known]
  decide +kernel

end Small

/-- The release is staged with an image that does not have its digest: the readback fails, and the
    commit asked for again compares the digest of the padded image. -/
theorem forged_release_staged :
    Small.disk.chosen = some (false, Small.state) ∧
      @Images Sha256.crypto Small.layout Small.disk Small.state ∧
      ¬ @UpdateSafe Sha256.crypto Small.layout (.installed Small.state ::
        ((@updater Sha256.crypto Small.layout).run (installed Small.disk)
          (Small.opening ++ Small.installation)).2)
        ((@updater Sha256.crypto Small.layout).run (installed Small.disk)
          (Small.opening ++ Small.installation)).1 := by
  refine ⟨Small.disk_chosen, Small.disk_images, fun h => ?_⟩
  obtain ⟨r, s, hc, -, himg⟩ := @UpdateSafe.record Sha256.crypto _ _ _ h
  rw [Machine.run_append_fst, Small.run_opening] at hc himg
  exact Small.not_images_of_unverified Small.unverified_installation r s hc himg

end EmbLinkOs.Update
