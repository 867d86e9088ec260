import EmbLinkOs.Update.Journal

set_option autoImplicit false

/-! # One call of the service

What a call does, said once for each function of the service. It writes at most one record, the
transition of the record in force (`Moves`). The memory of a service that is ready agrees with the
journal, and what it writes are the images of the slot that is not confirmed (`ServiceOk`). Where the
images of the record were complete, they stay so (`Kept`). -/

namespace EmbLinkOs.Update

open List

/-- An installation under way: the record says so, and the images written are those of the slot that
    is not confirmed, whose boot file shares no sector with the confirmed one's. -/
structure Writing (L : Layout) (u : Service) : Prop where
  flags : u.state.flags = writingFlag
  target : u.target = 1 - u.state.active
  efiMap : u.efiMap = L.slotMap u.target
  apart : ∀ b ∈ L.slotMap u.target, b ∉ L.slotMap u.state.active

/-- The memory of a service that is ready agrees with the disk. -/
structure ServiceOk (L : Layout) (d : Disk) (u : Service) : Prop where
  chosen : u.ready = true → d.chosen = some (u.record, u.state)
  writing : u.ready = true → u.writing = true → Writing L u
  verify : u.writing = false → u.verifyMode = 0

/-- What a call does: it leaves the journal alone and at most writes images of a slot that is not
    confirmed, or it writes the next record. -/
inductive Moves (d : Disk) (r : Reply) : Prop
  | quiet (hd : r.disk.control = d.control)
      (he : ∀ e ∈ r.events, ∃ t, e = .imageWrite t ∧ ∀ i s, d.chosen = some (i, s) → t ≠ s.active)
  | write {i : Bool} {s s' : State} {k : Kind} {p : Bytes} (o : Outcome)
      (hc : d.chosen = some (i, s)) (ht : Transition k s s') (hp : encode s' = some p)
      (hd : r.disk = d.record i p o) (he : r.events = o.events (.journal k s s'))

theorem chosen_congr {d d' : Disk} (h : d'.control = d.control) : d'.chosen = d.chosen := by
  unfold Disk.chosen
  rw [h]

section

variable [Sha256] (L : Layout)

/-- The images of the slot `p` are complete: they have the digests of the record. -/
def Verified (d : Disk) (s : State) (p : UInt8) : Prop :=
  sha256 (d.rootImage p (s.slot p).rootBytes.toNat) = (s.slot p).rootSha256 ∧
    sha256 (d.fileImage (L.slotMap p) (s.slot p).efiBytes.toNat) = (s.slot p).efiSha256

/-- Every slot the record relies on is complete. -/
structure Images (d : Disk) (s : State) : Prop where
  active : Verified L d s s.active
  pending : s.pending ≠ noSlot → Verified L d s s.pending
  previous : s.previous ≠ noSlot → Verified L d s s.previous

/-- How far an installation has come, and what its readback has absorbed. -/
structure Progress (d : Disk) (u : Service) : Prop where
  candidate : slotValid u.candidate true = true
  rootDone : u.rootDone ≤ u.candidate.rootBytes.toNat
  efiDone : u.efiDone ≤ u.candidate.efiBytes.toNat
  full : u.verifyMode ≠ 0 →
    u.rootDone = u.candidate.rootBytes.toNat ∧ u.efiDone = u.candidate.efiBytes.toNat
  mode : u.verifyMode ≤ 2
  absorbed : u.verifyMode ≠ 0 → u.verifyDone < (u.image d (u.verifyMode = 2)).length →
    u.verifyHash = (u.image d (u.verifyMode = 2)).take u.verifyDone
  root : u.verifyMode = 2 → sha256 (u.image d false) = u.candidate.rootSha256

/-- What a service works from. -/
structure Sound (d : Disk) (u : Service) : Prop where
  service : ServiceOk L d u
  images : ∀ i s, d.chosen = some (i, s) → Images L d s
  progress : u.ready = true → u.writing = true → Progress d u

/-- What a call leaves. -/
structure Kept (r : Reply) : Prop where
  images : ∀ i s, r.disk.chosen = some (i, s) → Images L r.disk s
  progress : ∀ u, r.u = some u → u.ready = true → u.writing = true → Progress r.disk u

/-- The readback of an image has not ended without success: either it has not begun, or there is
    something left to read. -/
def Service.Fresh (d : Disk) (u : Service) : Prop :=
  u.verifyMode ≠ 0 → u.verifyDone < (u.image d (u.verifyMode = 2)).length

end

section Calls

variable [Sha256] {L : Layout} {d d' : Disk} {u u' : Service} {next : State} {k : Kind} {r : Reply}

/-- The two facts every call establishes. -/
structure Served (L : Layout) (d : Disk) (r : Reply) : Prop where
  moves : Moves d r
  service : ∀ u', r.u = some u' → ServiceOk L r.disk u'

/-- A call of a service that agrees with the disk, and what it keeps of a sound one under the
    condition `A`. -/
structure Call (L : Layout) (d : Disk) (u : Service) (A : Prop) (r : Reply) : Prop where
  served : Served L d r
  kept : A → Sound L d u → Kept L r

variable {A : Prop}

/-- A call that leaves the disk alone. -/
theorem Call.quiet (h : ServiceOk L d u')
    (hp : A → Sound L d u → u'.ready = true → u'.writing = true → Progress d u') (ok : Bool) :
    Call L d u A ⟨d, some u', ok, []⟩ where
  served := ⟨.quiet rfl (by simp), fun _ hu => by cases hu; exact h⟩
  kept ha hs := ⟨hs.images, fun _ hu => by cases hu; exact hp ha hs⟩

theorem Call.refl (hu : ServiceOk L d u) (ok : Bool) : Call L d u A ⟨d, some u, ok, []⟩ :=
  .quiet hu (fun _ hs => hs.progress) ok

/-- Nothing is being written afterwards. -/
theorem Call.idle (h : ServiceOk L d u') (hw : u'.writing = false) (ok : Bool) :
    Call L d u A ⟨d, some u', ok, []⟩ :=
  .quiet h (fun _ _ _ h => absurd h (by simp [hw])) ok

/-- A call that goes on from other memory, sound where the one it began with was. -/
theorem Call.resume (h : Call L d u' (A ∧ Sound L d u) r)
    (hs : A → Sound L d u → Sound L d u') : Call L d u A r :=
  ⟨h.served, fun ha hs' => h.kept ⟨ha, hs'⟩ (hs ha hs')⟩

/-- The three ways `persist` ends with power on, and the loss of power. -/
theorem persist_cases (d : Disk) (u : Service) (k : Kind) (next : State) (o : Outcome) :
    persist d u k next o = ⟨d, some u, false, []⟩ ∨
    ∃ p, encode next = some p ∧
      ((o = .done ∧ persist d u k next o =
          ⟨d.record u.record p o, some { u with state := next, record := !u.record }, true,
            o.events (.journal k u.state next)⟩) ∨
        persist d u k next o = ⟨d.record u.record p o, some { u with ready := false }, false,
          o.events (.journal k u.state next)⟩ ∨
        persist d u k next o = ⟨d.record u.record p o, none, false,
          o.events (.journal k u.state next)⟩) := by
  unfold persist
  generalize encode next = e
  cases e with
  | none => exact Or.inl rfl
  | some p =>
    right
    refine ⟨p, rfl, ?_⟩
    cases o with
    | done => exact Or.inl ⟨rfl, rfl⟩
    | failed l => exact Or.inr (Or.inl rfl)
    | crashed l => exact Or.inr (Or.inr rfl)

/-- `persist` of a transition of the record in force. The service's installation, if there is one,
    has to be settled by the caller: the record it belongs to has changed. -/
theorem persist_moves (hc : d.chosen = some (u.record, u.state))
    (ht : Transition k u.state next) (o : Outcome) : Moves d (persist d u k next o) := by
  rcases persist_cases d u k next o with h | ⟨p, hp, ⟨-, h⟩ | h | h⟩ <;> rw [h]
  · exact .quiet rfl (by simp)
  all_goals exact .write o hc ht hp rfl rfl

/-- The memory after `persist`: unchanged, or with the new record, or no longer ready. -/
theorem persist_service (hu : ServiceOk L d u) (hr : u.ready = true)
    (ht : Transition k u.state next) (o : Outcome) (h : (persist d u k next o).u = some u') :
    ((persist d u k next o).ok = true ∧ u' = { u with state := next, record := !u.record } ∧
      (persist d u k next o).disk.chosen = some (!u.record, next)) ∨
    ((persist d u k next o).ok = false ∧ ServiceOk L (persist d u k next o).disk u' ∧
      (u' = u ∨ u' = { u with ready := false })) := by
  have hc := hu.chosen hr
  rcases persist_cases d u k next o with he | ⟨p, hp, ⟨rfl, he⟩ | he | he⟩ <;> rw [he] at h ⊢ <;>
    simp only [Option.some.injEq, reduceCtorEq] at h
  · subst h
    exact Or.inr ⟨rfl, hu, Or.inl rfl⟩
  · subst h
    left
    refine ⟨rfl, rfl, ?_⟩
    rw [chosen_record hc ht hp]
    rfl
  · subst h
    exact Or.inr ⟨rfl, ⟨by simp, by simp, hu.verify⟩, Or.inr rfl⟩

/-- A cleared service with the record in force. -/
theorem serviceOk_clear (hc : u.ready = true → d.chosen = some (u.record, u.state)) :
    ServiceOk L d u.stagingClear :=
  ⟨hc, fun _ h => absurd h (by simp [Service.stagingClear]), fun _ => rfl⟩

/-! ## Records and images -/

theorem Images.record {s : State} (h : Images L d s) (r : Bool) (x : Bytes) (o : Outcome) :
    Images L (d.record r x o) s := ⟨h.active, h.pending, h.previous⟩

/-- Every transition but a stage relies on slots that were relied on before. -/
theorem Images.transition {s s' : State} (h : Images L d s) (ht : Transition k s s')
    (hk : k ≠ .stage) : Images L d s' := by
  cases ht with
  | beginWrite ht =>
    obtain ⟨-, -, hp, -, rfl⟩ := beginWrite_ok ht
    exact ⟨h.active, fun hn => absurd hp hn, fun hn => absurd rfl hn⟩
  | stage ht => exact absurd rfl hk
  | reject ht =>
    obtain ⟨-, -, -, rfl⟩ := reject_ok ht
    exact ⟨h.active, fun hn => absurd rfl hn, h.previous⟩
  | spend ht hne =>
    obtain ⟨-, -, -, -, rfl⟩ := spend_ok ht hne
    exact ⟨h.active, h.pending, h.previous⟩
  | confirm ht =>
    obtain ⟨-, hi, hp, -, -, rfl⟩ := confirm_ok ht
    refine ⟨?_, fun hn => absurd rfl hn, fun _ => h.active⟩
    have := h.pending (hp ▸ noSlot_of_le hi)
    rwa [hp] at this
  | rollback ht =>
    obtain ⟨-, hprev, -, -, rfl⟩ := rollback_ok ht
    exact ⟨h.active, fun _ => h.previous hprev, fun hn => absurd rfl hn⟩

/-- A stage of a candidate whose images are complete. -/
theorem Images.stage {s s' : State} {i : UInt8} {c : Slot} (h : Images L d s)
    (ht : Update.stage s i c = .ok s')
    (hroot : sha256 (d.rootImage i c.rootBytes.toNat) = c.rootSha256)
    (hefi : sha256 (d.fileImage (L.slotMap i) c.efiBytes.toNat) = c.efiSha256) : Images L d s' := by
  obtain ⟨hv, hi, hne, -, -, -, rfl⟩ := stage_ok ht
  have hactive : (s.setSlot i c).active = s.active := by
    unfold State.setSlot
    split <;> rfl
  have hslot := fun p hp => slot_setSlot s hi (p := p) hp c
  refine ⟨?_, fun _ => ?_, fun hn => absurd rfl hn⟩
  · have hact : Verified L d (s.setSlot i c) (s.setSlot i c).active := by
      rw [Verified, hactive, hslot _ (valid_facts hv).1, if_neg (Ne.symm hne)]
      exact h.active
    exact hact
  · have hpend : Verified L d (s.setSlot i c) i := by
      rw [Verified, hslot _ hi, if_pos rfl]
      exact ⟨hroot, hefi⟩
    exact hpend

theorem persist_images (hc : d.chosen = some (u.record, u.state)) (ht : Transition k u.state next)
    (hs : Images L d u.state) (hn : Images L d next) (o : Outcome) (i : Bool) (s : State)
    (h : (persist d u k next o).disk.chosen = some (i, s)) :
    Images L (persist d u k next o).disk s := by
  have hrec : ∀ p, encode next = some p → (d.record u.record p o).chosen = some (i, s) →
      Images L (d.record u.record p o) s := by
    intro p hp h
    rw [chosen_record hc ht hp o] at h
    split at h
    · simp only [Option.some.injEq, Prod.mk.injEq] at h
      rw [← h.2]
      exact hn.record _ _ _
    · simp only [Option.some.injEq, Prod.mk.injEq] at h
      rw [← h.2]
      exact hs.record _ _ _
  rcases persist_cases d u k next o with he | ⟨p, hp, ⟨-, he⟩ | he | he⟩ <;> rw [he] at h ⊢
  · rw [hc] at h
    simp only [Option.some.injEq, Prod.mk.injEq] at h
    rw [← h.2]
    exact hs
  all_goals exact hrec p hp h

/-! ## Image writes -/

theorem writeFile_esp (map : List Nat) (off : Nat) (data : Bytes) {b : Nat}
    (hb : ∀ k < (data.length + 511) / 512, map.getD ((off + k * 512) / 512) 0 ≠ b) :
    (d.writeFile map off data).esp b = d.esp b := by
  unfold Disk.writeFile
  have hks : ∀ k ∈ List.range ((data.length + 511) / 512), map.getD ((off + k * 512) / 512) 0 ≠ b :=
    fun k hk => hb k (mem_range.1 hk)
  generalize List.range ((data.length + 511) / 512) = ks at hks
  induction ks generalizing d with
  | nil => rfl
  | cons k ks ih =>
    rw [foldl_cons, ih (fun k hk => hks k (by simp [hk]))]
    exact Function.update_of_ne (hks k (by simp)).symm _ _

theorem writeFile_root (map : List Nat) (off : Nat) (data : Bytes) :
    (d.writeFile map off data).root = d.root := by
  unfold Disk.writeFile
  generalize List.range ((data.length + 511) / 512) = ks
  induction ks generalizing d with
  | nil => rfl
  | cons k ks ih => rw [foldl_cons, ih]

/-- Images are read from their partition and from the sectors of their file. -/
theorem Verified.congr {s : State} {p : UInt8} (h : Verified L d s p)
    (hefi : (s.slot p).efiBytes ≤ maxEfiBytes) (hroot : d'.root p = d.root p)
    (hesp : ∀ b ∈ L.slotMap p, d'.esp b = d.esp b) : Verified L d' s p := by
  refine ⟨?_, ?_⟩
  · rw [Disk.rootImage, hroot]
    exact h.1
  · rw [← h.2]
    congr 1
    refine map_congr_left fun i hi => ?_
    have hlt : i / 512 < (L.slotMap p).length := by
      have h1 := UInt64.le_iff_toNat_le.1 hefi
      have h2 : maxEfiBytes.toNat = 32768 * 512 := rfl
      have h3 := mem_range.1 hi
      rw [L.length]
      omega
    unfold Disk.fileByte
    rw [getD_eq_getElem _ _ hlt, hesp _ (getElem_mem hlt)]

/-- Writes into the target's images do not reach the confirmed slot's. -/
theorem Verified.put {efi : Bool} {n : Nat} {data : Bytes} (hw : Writing L u) (hp : Progress d u)
    (hacc : u.accepts efi n = true) (hlen : data.length ≤ n) (hv : valid u.state = true)
    (h : Verified L d u.state u.state.active) :
    Verified L (u.put d efi data) u.state u.state.active := by
  have hne : u.target ≠ u.state.active := hw.target ▸ one_sub_ne (valid_facts hv).1
  refine h.congr (slotValid_bounds (slotValid_active hv)).2.2 ?_ ?_
  · cases efi with
    | false => exact Function.update_of_ne hne.symm _ _
    | true =>
      show (d.writeFile _ _ _).root _ = _
      rw [writeFile_root]
  · intro b hb
    cases efi with
    | false => rfl
    | true =>
      refine writeFile_esp _ _ _ fun k hk heq => hw.apart b ?_ hb
      simp only [Service.accepts, Bool.and_eq_true, decide_eq_true_eq, if_true] at hacc
      have h1 := UInt64.le_iff_toNat_le.1 (slotValid_bounds hp.candidate).2.2
      have h2 : maxEfiBytes.toNat = 32768 * 512 := rfl
      have hlt : (u.efiDone + k * 512) / 512 < (L.slotMap u.target).length := by
        rw [L.length]
        omega
      rw [hw.efiMap, getD_eq_getElem _ _ hlt] at heq
      exact heq ▸ getElem_mem hlt

/-- A write is accepted only before the readback. -/
theorem Progress.verifyMode_of_accepts (hp : Progress d u) {efi : Bool} {n : Nat}
    (hacc : u.accepts efi n = true) : u.verifyMode = 0 := by
  by_contra hm
  obtain ⟨h1, h2⟩ := hp.full hm
  simp only [Service.accepts, Bool.and_eq_true, decide_eq_true_eq, ne_eq, decide_not,
    Bool.not_eq_true', decide_eq_false_iff_not] at hacc
  cases efi <;> simp only [Bool.false_eq_true, if_false, if_true] at hacc <;> omega

/-- Before the readback the progress is that of the writes. -/
theorem Progress.of_writing (hc : slotValid u'.candidate true = true)
    (hr : u'.rootDone ≤ u'.candidate.rootBytes.toNat)
    (he : u'.efiDone ≤ u'.candidate.efiBytes.toNat) (hm : u'.verifyMode = 0) : Progress d' u' :=
  ⟨hc, hr, he, fun h => absurd hm h, by omega, fun h => absurd hm h, fun h => absurd hm (by omega)⟩

/-! ## Calls -/

/-- Memory that agrees in what `ServiceOk` reads, over an unchanged journal. -/
theorem ServiceOk.congr (h : ServiceOk L d u) (hd : d'.control = d.control)
    (hready : u'.ready = u.ready) (hrecord : u'.record = u.record) (hstate : u'.state = u.state)
    (hwriting : u'.writing = u.writing) (htarget : u'.target = u.target)
    (hmap : u'.efiMap = u.efiMap) (hverify : u.writing = false → u'.verifyMode = u.verifyMode) :
    ServiceOk L d' u' where
  chosen hr := by
    rw [chosen_congr hd, hrecord, hstate]
    exact h.chosen (hready ▸ hr)
  writing hr hw := by
    have := h.writing (hready ▸ hr) (hwriting ▸ hw)
    exact ⟨by rw [hstate]; exact this.flags, by rw [hstate, htarget]; exact this.target,
      by rw [hmap, htarget]; exact this.efiMap, by rw [hstate, htarget]; exact this.apart⟩
  verify hw := by
    rw [hverify (hwriting ▸ hw)]
    exact h.verify (hwriting ▸ hw)

theorem put_control (u : Service) (d : Disk) (efi : Bool) (data : Bytes) :
    (u.put d efi data).control = d.control := by
  cases efi with
  | false => rfl
  | true =>
    show (d.writeFile u.efiMap u.efiDone data).control = d.control
    unfold Disk.writeFile
    generalize List.range ((data.length + 511) / 512) = ks
    induction ks generalizing d with
    | nil => rfl
    | cons k ks ih => exact ih _

/-- The memory after `persist` differs in the record and in being ready. -/
theorem Progress.persisted (hs : Sound L d u) (hr : u.ready = true) (ht : Transition k u.state next)
    (hp : Progress d u) {o : Outcome} (h : (persist d u k next o).u = some u') :
    Progress (persist d u k next o).disk u' := by
  have himage : ∀ b, u'.image (persist d u k next o).disk b = u.image d b ∧
      u'.verifyMode = u.verifyMode ∧ u'.verifyDone = u.verifyDone ∧ u'.verifyHash = u.verifyHash ∧
      u'.candidate = u.candidate ∧ u'.rootDone = u.rootDone ∧ u'.efiDone = u.efiDone := by
    intro b
    rcases persist_cases d u k next o with he | ⟨p, -, ⟨-, he⟩ | he | he⟩ <;> rw [he] at h ⊢ <;>
      simp only [Option.some.injEq, reduceCtorEq] at h
    all_goals
      subst h
      exact ⟨rfl, rfl, rfl, rfl, rfl, rfl, rfl⟩
  obtain ⟨-, h₁, h₂, h₃, h₄, h₅, h₆⟩ := himage false
  refine ⟨h₄ ▸ hp.candidate, ?_, ?_, ?_, h₁ ▸ hp.mode, ?_, ?_⟩
  · rw [h₅, h₄]; exact hp.rootDone
  · rw [h₆, h₄]; exact hp.efiDone
  · rw [h₁, h₅, h₆, h₄]; exact hp.full
  · rw [h₁, h₂, h₃, (himage _).1]; exact hp.absorbed
  · rw [h₁, h₄, (himage _).1]; exact hp.root

/-- A change of the fields about jobs, workers and trials. -/
theorem Call.jobs (hu : ServiceOk L d u) (worker : Option Nat) (trial job : Bool) (since : UInt64)
    (ok : Bool) : Call L d u A ⟨d, some { u with
      worker := worker, trial := trial, job := job, healthySince := since }, ok, []⟩ := by
  refine .quiet ?_ (fun _ hs hr hw => ?_) ok
  · exact hu.congr rfl rfl rfl rfl rfl rfl rfl fun _ => rfl
  · have hp := hs.progress hr hw
    exact ⟨hp.candidate, hp.rootDone, hp.efiDone, hp.full, hp.mode, hp.absorbed, hp.root⟩

/-- Such a change behind a call after which nothing is being written. -/
theorem Call.map (h : Call L d u A r) (hidle : ∀ u', r.u = some u' → u'.writing = false)
    {f : Service → Service}
    (hf : ∀ u', (f u').ready = u'.ready ∧ (f u').record = u'.record ∧ (f u').state = u'.state ∧
      (f u').writing = u'.writing ∧ (f u').target = u'.target ∧ (f u').efiMap = u'.efiMap ∧
      (f u').verifyMode = u'.verifyMode) : Call L d u A { r with u := r.u.map f } := by
  refine ⟨⟨?_, fun u' hu => ?_⟩, fun ha hs => ⟨(h.kept ha hs).images, fun u' hu _ hw => ?_⟩⟩
  · cases h.served.moves with
    | quiet hd he => exact .quiet hd he
    | write o hc ht hp hd he => exact .write o hc ht hp hd he
  all_goals
    obtain ⟨v, hv, rfl⟩ := Option.map_eq_some_iff.1 hu
    obtain ⟨h₁, h₂, h₃, h₄, h₅, h₆, h₇⟩ := hf v
  · exact (h.served.service v hv).congr rfl h₁ h₂ h₃ h₄ h₅ h₆ fun _ => h₇
  · exact absurd hw (by simp [h₄, hidle v hv])

/-- `persist` of a transition, and what the caller makes of the memory it leaves. -/
theorem persist_call (hu : ServiceOk L d u) (hr : u.ready = true) (ht : Transition k u.state next)
    (himg : A → Sound L d u → Images L d next) (o : Outcome) {f : Service → Service}
    (hf : ∀ v, (persist d u k next o).u = some v →
      ((persist d u k next o).ok = true ∧ v = { u with state := next, record := !u.record } ∧
        (persist d u k next o).disk.chosen = some (!u.record, next)) ∨
      ((persist d u k next o).ok = false ∧ ServiceOk L (persist d u k next o).disk v ∧
        (v = u ∨ v = { u with ready := false })) →
      ServiceOk L (persist d u k next o).disk (f v) ∧
        (A → Sound L d u → (f v).writing = true → Progress (persist d u k next o).disk (f v))) :
    Call L d u A { persist d u k next o with u := (persist d u k next o).u.map f } := by
  have hc := hu.chosen hr
  refine ⟨⟨?_, fun u' h => ?_⟩, fun ha hs => ⟨?_, fun u' h _ hw => ?_⟩⟩
  · cases persist_moves hc ht o with
    | quiet hd he => exact .quiet hd he
    | write o' hc ht hp hd he => exact .write o' hc ht hp hd he
  · obtain ⟨v, hv, rfl⟩ := Option.map_eq_some_iff.1 h
    exact (hf v hv (persist_service hu hr ht o hv)).1
  · exact persist_images hc ht (hs.images _ _ hc) (himg ha hs) o
  · obtain ⟨v, hv, rfl⟩ := Option.map_eq_some_iff.1 h
    exact (hf v hv (persist_service hu hr ht o hv)).2 ha hs hw

/-- The images a transition relies on, unless it stages new ones. -/
theorem Sound.images_next (hs : Sound L d u) (hr : u.ready = true)
    (ht : Transition k u.state next) (hk : k ≠ .stage) : Images L d next :=
  (hs.images _ _ (hs.service.chosen hr)).transition ht hk

/-- The installation is given up: the record is rejected and the staging cleared. -/
theorem dropWriting_call (hu : ServiceOk L d u) (hr : u.ready = true) (o : Outcome) :
    Call L d u A (dropWriting d u o) := by
  unfold dropWriting
  split
  · exact .refl hu true
  split
  · exact .idle (serviceOk_clear hu.chosen) rfl false
  next next hn =>
  have ht := Transition.reject hn
  refine persist_call hu hr ht (fun _ hs => hs.images_next hr ht (by simp)) o fun v _ h => ⟨?_, ?_⟩
  · rcases h with ⟨-, rfl, hc⟩ | ⟨-, hv, -⟩
    · exact serviceOk_clear fun _ => hc
    · exact serviceOk_clear hv.chosen
  · exact fun _ _ hw => absurd hw (by simp [Service.stagingClear])

theorem dropWriting_idle (d : Disk) (u : Service) (o : Outcome) (u' : Service)
    (h : (dropWriting d u o).u = some u') : u'.writing = false := by
  unfold dropWriting at h
  split at h
  · next hw =>
    cases h
    simpa using hw
  split at h
  · cases h
    rfl
  · obtain ⟨v, -, rfl⟩ := Option.map_eq_some_iff.1 h
    rfl

theorem begin_call (hu : ServiceOk L d u) (hr : u.ready = true) (image : Image)
    (mounted mapped : Bool) (o : Outcome) :
    Call L d u A (begin_ L d u image mounted mapped o) := by
  unfold begin_
  split
  · exact .refl hu false
  next hfree =>
  simp only [Bool.or_eq_true, not_or, Bool.not_eq_true] at hfree
  have hu₁ : ServiceOk L d { u with target := 1 - u.state.active } :=
    ⟨hu.chosen, fun _ h => absurd h (by simp [hfree.1]), hu.verify⟩
  dsimp only
  split
  · exact .idle hu₁ hfree.1 false
  next staged hstage =>
  split
  · exact .idle (serviceOk_clear hu₁.chosen) rfl false
  next hchk =>
  split
  · exact .idle (serviceOk_clear hu₁.chosen) rfl false
  next next hn =>
  have ht := Transition.beginWrite hn
  refine Call.resume (persist_call hu₁ hr ht (fun _ hs => hs.images_next hr ht (by simp)) o
    fun v _ h => ?_) fun _ hs => ⟨hu₁, hs.images, fun _ h => absurd h (by simp [hfree.1])⟩
  rcases h with ⟨hok, rfl, hc⟩ | ⟨hok, hv, -⟩
  · rw [hok, if_pos rfl]
    obtain ⟨-, -, -, -, rfl⟩ := beginWrite_ok hn
    simp only [Bool.or_eq_true, not_or, any_eq_true, decide_eq_true_eq, not_exists,
      not_and] at hchk
    refine ⟨⟨fun _ => hc, fun _ _ => ⟨rfl, rfl, rfl, fun b hb => hchk.1.2 b hb⟩,
      fun h => absurd h (by simp)⟩, fun _ _ _ => ?_⟩
    exact .of_writing (stage_ok hstage).2.2.2.1 (Nat.zero_le _) (Nat.zero_le _) (hu.verify hfree.1)
  · rw [hok, if_neg (by simp)]
    exact ⟨serviceOk_clear hv.chosen, fun _ _ h => absurd h (by simp [Service.stagingClear])⟩

/-- Images are written into the slot that is not confirmed, before the readback. -/
theorem writeImage_call (hu : ServiceOk L d u) (hr : u.ready = true) (efi : Bool) (data : Bytes)
    (o : ImageOutcome) : Call L d u A (writeImage d u efi data o) := by
  unfold writeImage
  split
  · exact .refl hu false
  next hacc =>
  simp only [Bool.not_eq_true', Bool.not_eq_false] at hacc
  have hwriting : u.writing = true := by
    simp only [Service.accepts, Bool.and_eq_true] at hacc
    exact hacc.1.1.1.1.1.1
  have hw := hu.writing hr hwriting
  have hc := hu.chosen hr
  have hv := chosen_valid hc
  have htarget : ∀ e ∈ [Event.imageWrite u.target],
      ∃ t, e = .imageWrite t ∧ ∀ i s, d.chosen = some (i, s) → t ≠ s.active := by
    intro e he
    refine ⟨u.target, by simpa using he, fun i s hcs => ?_⟩
    obtain ⟨-, rfl⟩ : u.record = i ∧ u.state = s := by simpa using hc.symm.trans hcs
    rw [hw.target]
    exact one_sub_ne (valid_facts hv).1
  have hmoves : ∀ (x : Bytes) (v : Option Service) (ok : Bool),
      Moves d ⟨u.put d efi x, v, ok, [.imageWrite u.target]⟩ :=
    fun x v ok => .quiet (put_control _ _ _ _) htarget
  have himages : Sound L d u → ∀ x : Bytes, x.length ≤ data.length → ∀ i s,
      (u.put d efi x).chosen = some (i, s) → Images L (u.put d efi x) s := by
    intro hs x hx i s hcs
    rw [chosen_congr (put_control _ _ _ _), hc] at hcs
    simp only [Option.some.injEq, Prod.mk.injEq] at hcs
    obtain ⟨-, rfl⟩ := hcs
    obtain ⟨h1, h2⟩ := (valid_facts hv).2.2.1 hw.flags
    exact ⟨(hs.images _ _ hc).active.put hw (hs.progress hr hwriting) hacc hx hv,
      fun h => absurd h1 h, fun h => absurd h2 h⟩
  have htake : ∀ left : Bytes, (left.take data.length).length ≤ data.length :=
    fun left => length_take_le _ _
  dsimp only
  cases o with
  | done =>
    refine ⟨⟨hmoves _ _ _, fun v h => ?_⟩,
      fun _ hs => ⟨himages hs data le_rfl, fun v h _ _ => ?_⟩⟩ <;>
      simp only [Option.some.injEq] at h <;> subst h
    · cases efi <;> exact hu.congr (put_control _ _ _ _) rfl rfl rfl rfl rfl rfl (fun _ => rfl)
    · have hp := hs.progress hr hwriting
      have hm := hp.verifyMode_of_accepts hacc
      have hr' := hp.rootDone
      have he' := hp.efiDone
      simp only [Service.accepts, Bool.and_eq_true, decide_eq_true_eq] at hacc
      cases efi with
      | false =>
        simp only [Bool.false_eq_true, if_false] at hacc
        exact .of_writing hp.candidate
          (show u.rootDone + data.length ≤ u.candidate.rootBytes.toNat by omega) he' hm
      | true =>
        simp only [if_true] at hacc
        exact .of_writing hp.candidate hr'
          (show u.efiDone + data.length ≤ u.candidate.efiBytes.toNat by omega) hm
  | failed left =>
    refine ⟨⟨hmoves _ _ _, fun v h => ?_⟩,
      fun _ hs => ⟨himages hs _ (htake left), fun v h _ _ => ?_⟩⟩ <;>
      simp only [Option.some.injEq] at h <;> subst h
    · exact hu.congr (put_control _ _ _ _) rfl rfl rfl rfl rfl rfl (fun _ => rfl)
    · have hp := hs.progress hr hwriting
      exact .of_writing hp.candidate hp.rootDone hp.efiDone (hp.verifyMode_of_accepts hacc)
  | crashed left =>
    exact ⟨⟨hmoves _ _ _, fun v h => by simp at h⟩,
      fun _ hs => ⟨himages hs _ (htake left), fun v h => by simp at h⟩⟩

/-- A readback under way has absorbed a prefix of its image. -/
structure Absorbing (d : Disk) (u : Service) : Prop where
  mode : u.verifyMode ≠ 0
  done : u.verifyDone ≤ (u.image d (u.verifyMode = 2)).length
  hash : u.verifyHash = (u.image d (u.verifyMode = 2)).take u.verifyDone

theorem Progress.verifying (hp : Progress d u) (hfresh : u.Fresh d)
    (hroot : u.rootDone = u.candidate.rootBytes.toNat)
    (hefi : u.efiDone = u.candidate.efiBytes.toNat) :
    Progress d u.verifying ∧ Absorbing d u.verifying := by
  by_cases hm : u.verifyMode = 0
  · rw [Service.verifying, if_pos hm]
    exact ⟨⟨hp.candidate, hp.rootDone, hp.efiDone, fun _ => ⟨hroot, hefi⟩, by simp, fun _ _ => by simp,
      fun h => absurd h (by simp)⟩, ⟨by simp, Nat.zero_le _, by simp⟩⟩
  · rw [Service.verifying, if_neg hm]
    exact ⟨hp, hm, (hfresh hm).le, hp.absorbed hm (hfresh hm)⟩

/-- The service with the next piece of the image absorbed. -/
theorem Absorbing.readBack (ha : Absorbing d u) (hp : Progress d u) (reads : Nat) :
    Progress d (u.readBack d reads) ∧ Absorbing d (u.readBack d reads) := by
  set n := min (min (u.verifyDone + chunk) (u.image d (u.verifyMode = 2)).length - u.verifyDone)
    (4096 * reads) with hn
  have hv : u.readBack d reads = { u with
      verifyDone := u.verifyDone + n
      verifyHash := u.verifyHash ++ ((u.image d (u.verifyMode = 2)).drop u.verifyDone).take n } := rfl
  have hdone := ha.done
  have hle : u.verifyDone + n ≤ (u.image d (u.verifyMode = 2)).length := by omega
  have hhash : u.verifyHash ++ ((u.image d (u.verifyMode = 2)).drop u.verifyDone).take n =
      (u.image d (u.verifyMode = 2)).take (u.verifyDone + n) := by
    rw [ha.hash, take_add]
  rw [hv]
  exact ⟨⟨hp.candidate, hp.rootDone, hp.efiDone, hp.full, hp.mode, fun _ _ => hhash, hp.root⟩,
    ha.mode, hle, hhash⟩

/-- The digest of a whole image that was read back is compared. -/
theorem settle_call (hu : ServiceOk L d u) (hr : u.ready = true) (hw : u.writing = true)
    (ha : A → Absorbing d u) (hdone : A → u.verifyDone = (u.image d (u.verifyMode = 2)).length)
    (o : Outcome) : Call L d u A (settle d u o) := by
  have hset : ∀ {u' : Service}, u'.ready = u.ready → u'.record = u.record → u'.state = u.state →
      u'.writing = u.writing → u'.target = u.target → u'.efiMap = u.efiMap → ServiceOk L d u' :=
    fun h₁ h₂ h₃ h₄ h₅ h₆ => hu.congr rfl h₁ h₂ h₃ h₄ h₅ h₆ (fun h => absurd h (by simp [hw]))
  have hu₁ : ServiceOk L d { u with verifyHash := (shaFinal u.verifyHash).2 } :=
    hset rfl rfl rfl rfl rfl rfl
  -- the context after `sha256_final` is not used again: nothing is left to read
  have hp₁ : A → Sound L d u → Progress d { u with verifyHash := (shaFinal u.verifyHash).2 } := by
    intro h hs
    have hp := hs.progress hr hw
    have hend := hdone h
    exact ⟨hp.candidate, hp.rootDone, hp.efiDone, hp.full, hp.mode,
      fun _ h => absurd h (show ¬ u.verifyDone < (u.image d (u.verifyMode = 2)).length by omega),
      hp.root⟩
  have hdigest : A → (shaFinal u.verifyHash).1 = sha256 (u.image d (u.verifyMode = 2)) := by
    intro h
    rw [(ha h).hash, hdone h, take_length, sha256]
  unfold settle
  dsimp only
  split
  · exact .quiet hu₁ (fun h hs _ _ => hp₁ h hs) false
  next heq =>
  rw [ne_eq, not_not] at heq
  split
  · next hefi =>
    simp only [Bool.not_eq_true', decide_eq_false_iff_not] at hefi
    refine .quiet ?_ (fun h hs _ _ => ?_) true
    · exact hset rfl rfl rfl rfl rfl rfl
    have hp := hs.progress hr hw
    rw [hdigest h, decide_eq_false hefi] at heq
    exact ⟨hp.candidate, hp.rootDone, hp.efiDone, fun _ => hp.full (ha h).mode, le_rfl,
      fun _ _ => by simp, fun _ => heq⟩
  next hefi =>
  simp only [Bool.not_eq_true', decide_eq_false_iff_not, not_not] at hefi
  split
  · exact .quiet hu₁ (fun h hs _ _ => hp₁ h hs) false
  next next hn =>
  have ht := Transition.stage hn
  have himg : A → Sound L d u → Images L d next := by
    intro h hs
    rw [hdigest h, decide_eq_true hefi] at heq
    refine (hs.images _ _ (hu.chosen hr)).stage hn ((hs.progress hr hw).root hefi) ?_
    rw [← (hu.writing hr hw).efiMap]
    exact heq
  refine Call.resume (persist_call hu₁ hr ht (fun h _ => himg h.1 h.2) o fun v hv h => ?_)
    fun h hs => ⟨hu₁, hs.images, fun _ _ => hp₁ h hs⟩
  rcases h with ⟨hok, rfl, hc⟩ | ⟨hok, hv', -⟩
  · rw [hok, if_pos rfl]
    exact ⟨serviceOk_clear fun _ => hc, fun _ _ h => absurd h (by simp [Service.stagingClear])⟩
  · rw [hok, if_neg (by simp)]
    exact ⟨hv', fun h hs _ => (hp₁ h.1 h.2).persisted hs hr ht hv⟩

theorem commitImage_call (hu : ServiceOk L d u) (hr : u.ready = true) (hfresh : A → u.Fresh d)
    (flushed : Bool) (reads : Nat) (o : Outcome) :
    Call L d u A (commitImage d u flushed reads o) := by
  unfold commitImage
  split
  · exact .refl hu false
  next hw =>
  split
  · exact .refl hu false
  simp only [Bool.or_eq_true, not_or, Bool.not_eq_true', Bool.not_eq_false, decide_eq_true_eq,
    ne_eq, not_not] at hw
  obtain ⟨⟨hwr, hroot⟩, hefi⟩ := hw
  have hv : ServiceOk L d (u.verifying.readBack d reads) := by
    refine hu.congr rfl ?_ ?_ ?_ ?_ ?_ ?_ (fun h => absurd h (by simp [hwr])) <;>
    · simp only [Service.readBack, Service.verifying]
      split <;> rfl
  have hready : (u.verifying.readBack d reads).ready = true ∧
      (u.verifying.readBack d reads).writing = true := by
    simp only [Service.readBack, Service.verifying]
    split <;> exact ⟨hr, hwr⟩
  have hread : A → Sound L d u → Progress d (u.verifying.readBack d reads) ∧
      Absorbing d (u.verifying.readBack d reads) := by
    intro h hs
    obtain ⟨hp, ha⟩ := (hs.progress hr hwr).verifying (hfresh h) hroot hefi
    exact ha.readBack hp reads
  dsimp only
  split
  · exact .quiet hv (fun h hs _ _ => (hread h hs).1) false
  split
  · exact .quiet hv (fun h hs _ _ => (hread h hs).1) true
  next hdone =>
  exact Call.resume (settle_call hv hready.1 hready.2 (fun h => (hread h.1 h.2).2)
    (fun h => le_antisymm (hread h.1 h.2).2.done (Nat.le_of_not_lt hdone)) o)
    fun h hs => ⟨hv, hs.images, fun _ _ => (hread h hs).1⟩

theorem workerOp_call (hu : ServiceOk L d u) (hr : u.ready = true) (op : Op) (o : Outcome) :
    Call L d u (∀ f n, op = .commit f n → u.Fresh d) (workerOp L d u op o) := by
  cases op with
  | job => exact .refl hu true
  | report done =>
    cases done with
    | true => exact .jobs hu _ _ _ _ true
    | false => exact .refl hu true
  | begin image mounted mapped => exact begin_call hu hr image mounted mapped o
  | write efi data io => exact writeImage_call hu hr efi data io
  | commit flushed reads => exact commitImage_call hu hr (fun h => h _ _ rfl) flushed reads o
  | abort =>
    exact (dropWriting_call hu hr o).map (dropWriting_idle d u o)
      fun _ => ⟨rfl, rfl, rfl, rfl, rfl, rfl, rfl⟩
  | worker => exact .refl hu false
  | request => exact .refl hu false
  | rollback => exact .refl hu false

theorem control_call (hu : ServiceOk L d u) (op : Op) (c : Caller) (o : Outcome) :
    Call L d u (∀ f n, op = .commit f n → u.Fresh d) (control L d u op c o) := by
  unfold control
  split
  · exact .refl hu false
  next hr =>
  simp only [Bool.not_eq_true', Bool.not_eq_false] at hr
  split
  · split
    · exact .refl hu false
    · refine (dropWriting_call hu hr o).map (dropWriting_idle d u o) fun u' => ?_
      split <;> exact ⟨rfl, rfl, rfl, rfl, rfl, rfl, rfl⟩
  · split
    · exact .refl hu false
    · exact .jobs hu _ _ _ _ true
  · split
    · exact .refl hu false
    next hidle =>
    simp only [Bool.or_eq_true, not_or, Bool.not_eq_true] at hidle
    split
    · exact .refl hu false
    next next hn =>
    have ht := Transition.rollback hn
    have hcall := persist_call (A := True) hu hr ht (fun _ hs => hs.images_next hr ht (by simp)) o
      (f := id) fun v _ h => ?_
    · rw [Option.map_id] at hcall
      exact ⟨hcall.served, fun _ => hcall.kept trivial⟩
    rcases h with ⟨-, rfl, hc⟩ | ⟨-, hv, rfl | rfl⟩
    · exact ⟨⟨fun _ => hc, fun _ h => absurd h (by simp [hidle.1.1.2]), hu.verify⟩,
        fun _ _ hw => absurd hw (by simp [hidle.1.1.2])⟩
    all_goals exact ⟨hv, fun _ _ hw => absurd hw (by simp [hidle.1.1.2])⟩
  · split
    · exact .refl hu false
    · exact workerOp_call hu hr _ o

/-- A trial is confirmed only where nothing is being written: the pending slot rules that out. -/
theorem confirm_idle {i : UInt8} (hu : ServiceOk L d u) (hr : u.ready = true)
    (hn : confirm u.state i = .ok next) : u.writing = false := by
  by_contra hw
  simp only [Bool.not_eq_false] at hw
  obtain ⟨hv, hi, hp, -, -, -⟩ := confirm_ok hn
  have hno := ((valid_facts hv).2.2.1 (hu.writing hr hw).flags).1
  exact noSlot_of_le (hp ▸ hi) hno

theorem health_call (hu : ServiceOk L d u) (info : BootInfo) (healthy alive : Bool) (now : UInt64)
    (o : Outcome) : Call L d u True (health d info u healthy alive now o) := by
  unfold health
  split
  · exact .refl hu true
  next hr =>
  simp only [Bool.or_eq_true, not_or, Bool.not_eq_true', Bool.not_eq_false] at hr
  split
  · exact .jobs hu _ _ _ _ true
  split
  · exact .jobs hu _ _ _ _ true
  split
  · exact .refl hu true
  split
  · exact .refl hu false
  next next hn =>
  have ht := Transition.confirm hn
  have hidle := confirm_idle hu hr.1 hn
  refine persist_call hu hr.1 ht (fun _ hs => hs.images_next hr.1 ht (by simp)) o fun v _ h => ?_
  rcases h with ⟨hok, rfl, hc⟩ | ⟨hok, hv, hv'⟩
  · rw [hok, if_pos rfl]
    exact ⟨⟨fun _ => hc, fun _ h => absurd h (by simp [hidle]), hu.verify⟩,
      fun _ _ hw => absurd hw (by simp [hidle])⟩
  · rw [hok, if_neg (by simp)]
    refine ⟨hv, fun _ _ hw => absurd hw ?_⟩
    rcases hv' with rfl | rfl <;> simp [hidle]

end Calls

end EmbLinkOs.Update
