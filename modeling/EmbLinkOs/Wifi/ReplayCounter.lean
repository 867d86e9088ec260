import EmbLinkOs.Wifi.Wpa2Safety

set_option autoImplicit false

/-! # Who moves the replay counter

The supplicant on the air: frames of the access point, whose counters increase, and frames made
without the key. The counter a frame leaves behind bars every frame with a smaller one, so it should
be the counter of a frame of the access point; and a message 3 that arrives again, because the
message 4 was lost, should be answered again.

Message 1 carries no integrity code, and its counter is recorded like every other one. Message 3 is
looked at in the phase `m3` only, which its first acceptance ends. -/

namespace EmbLinkOs.Wifi

section

variable [Primitives]

/-- What is heard, and the answers of the adapter's operations. -/
inductive Heard
  | genuine (p : Bytes) (now : UInt64) (random : Option Bytes) (installOk sendOk : Bool)
  | forged (p : Bytes) (now : UInt64) (random : Option Bytes) (installOk sendOk : Bool)
  | tick (now : UInt64) (sendOk : Bool)
  | stop

def Heard.input : Heard → Input
  | .genuine p now random installOk sendOk => .rx p now random installOk sendOk
  | .forged p now random installOk sendOk => .rx p now random installOk sendOk
  | .tick now sendOk => .tick now sendOk
  | .stop => .stop

/-- A pairwise key was installed. -/
def Event.isPairwise : Event → Bool
  | .install keys true => keys.pairwise
  | _ => false

/-- The supplicant, the largest counter of a genuine frame heard so far, and whether the pairwise key
    has been installed. -/
structure Air where
  station : Supplicant
  top : Option Nat
  installed : Bool

namespace Air

def hear (a : Air) : Heard → Option Nat
  | .genuine p _ _ _ _ => some (max (a.top.getD 0) (replayOf p))
  | _ => a.top

def step (a : Air) (i : Heard) : Air × List Event :=
  let r := a.station.step i.input
  (⟨r.1, a.hear i, a.installed || r.2.any Event.isPairwise⟩, r.2)

/-- A pairwise transient key is in use. -/
def keyed (s : Supplicant) : Bool := s.phase = .m3 || s.phase = .m4 || s.phase = .connected

/-- The frames considered: the access point counts up, and without the key there is no integrity
    code. -/
def Lawful (a : Air) : Heard → Prop
  | .genuine p _ _ _ _ => (a.top.all fun n => n < replayOf p) = true
  | .forged p _ _ _ _ => keyed a.station = true → validMic a.station.ptk p = false
  | _ => True

/-! ## The property -/

/-- The stored counter is not above the largest genuine one. -/
def Bounded (a : Air) : Prop :=
  a.station.haveReplay = true → ∃ n, a.top = some n ∧ a.station.replay ≤ n

/-- A message 3 under the key in use, with the keys of the network. -/
def confirms (s : Supplicant) (p : Bytes) : Bool :=
  keyed s && wellFormed p && keyInfo p = pairM3 && keyLength p = 16 && 24 ≤ (dataOf p).length &&
    nonceOf p = s.anonce && validMic s.ptk p && byteAt p 71 = 0 && byteAt p 72 = 0 &&
    (keyData s.ptk s.apRsn (dataOf p) true).isSome

/-- What is asked of a step. -/
structure Good (a : Air) (i : Heard) : Prop where
  bounded : (a.step i).1.Bounded
  /-- A genuine message 3 is answered with its message 4. -/
  answered : ∀ p now random sendOk, i = .genuine p now random true sendOk →
    confirms a.station p = true → ∃ protect ok,
      .send (response a.station.ptk a.station.snonce p pairM4 false) protect ok ∈ (a.step i).2
  /-- The pairwise key is not installed again. -/
  once : a.installed = true → ∀ keys ok, .install keys ok ∈ (a.step i).2 → keys.pairwise = false

/-! ## The condition -/

/-- The counter of the frame is new. -/
def fresh (s : Supplicant) (p : Bytes) : Bool := !(s.haveReplay && replayOf p ≤ s.replay)

/-- The frame is taken for a message 1. -/
def takesM1 (s : Supplicant) (p : Bytes) (random : Option Bytes) : Bool :=
  (s.phase = .m1 || s.phase = .m3) && wellFormed p && fresh s p && keyInfo p = pairM1 &&
    keyLength p = 16 && nonzero (nonceOf p) && (random.map nonzero).getD false

/-- No forged message 1 is taken with a counter above the genuine ones, and message 3 comes once. -/
def Guarded (a : Air) : Heard → Prop
  | .genuine p _ _ installOk _ =>
    installOk = true → confirms a.station p = true → a.station.phase = .m3
  | .forged p _ random _ _ =>
    takesM1 a.station p random = true → (a.top.any fun n => replayOf p ≤ n) = true
  | _ => True

instance (a : Air) : (i : Heard) → Decidable (a.Lawful i)
  | .genuine _ _ _ _ _ => inferInstanceAs (Decidable (_ = _))
  | .forged _ _ _ _ _ => inferInstanceAs (Decidable (_ → _))
  | .tick _ _ => .isTrue trivial
  | .stop => .isTrue trivial

instance (a : Air) : (i : Heard) → Decidable (a.Guarded i)
  | .genuine _ _ _ _ _ => inferInstanceAs (Decidable (_ → _ → _))
  | .forged _ _ _ _ _ => inferInstanceAs (Decidable (_ → _))
  | .tick _ _ => .isTrue trivial
  | .stop => .isTrue trivial

end Air

/-- The supplicant on the air. -/
def air : Machine Air Heard Event := ⟨Air.step⟩

/-! ## What a step does -/

variable {s : Supplicant} {p : Bytes}

/-- The counter, the phase and the events where nothing is taken up. -/
structure Idle (s s' : Supplicant) (e : List Event) : Prop where
  haveReplay : s'.haveReplay = s.haveReplay
  replay : s'.replay = s.replay
  phase : s'.phase = s.phase ∨ s'.phase ≠ .m1 ∧ s'.phase ≠ .m3
  events : ∀ keys ok, .install keys ok ∉ e

theorem sendReply_idle (s : Supplicant) (now : UInt64) (ok : Bool) :
    Idle s (s.sendReply now ok).1 (s.sendReply now ok).2 := by
  by_cases hc : ok = true ∧ s.phase = .m4
  · obtain ⟨rfl, hm⟩ := hc
    rw [sendReply_m4 hm]
    refine ⟨rfl, rfl, Or.inr (by simp), ?_⟩
    cases s.authorized <;> simp
  · rw [sendReply_waits hc]
    exact ⟨rfl, rfl, Or.inl rfl, by simp⟩

omit [Primitives] in
theorem fail_idle (s : Supplicant) : Idle s s.fail.1 s.fail.2 := by
  unfold Supplicant.fail Supplicant.port
  split <;> exact ⟨rfl, rfl, Or.inr (by simp), by simp⟩

omit [Primitives] in
theorem Idle.rfl : Idle s s [] := ⟨.refl _, .refl _, Or.inl (.refl _), by simp⟩

omit [Primitives] in
theorem Idle.cons {s' : Supplicant} {e : List Event} (h : Idle s s' e) {x : Event}
    (hx : ∀ keys ok, x ≠ .install keys ok) : Idle s s' (x :: e) :=
  ⟨h.haveReplay, h.replay, h.phase, fun keys ok hm => by
    rcases List.mem_cons.1 hm with hm | hm
    · exact hx keys ok hm.symm
    · exact h.events keys ok hm⟩

theorem tick_idle (s : Supplicant) (now : UInt64) (ok : Bool) :
    Idle s (s.tick now ok).1 (s.tick now ok).2 := by
  unfold Supplicant.tick
  split
  · exact .rfl
  split
  · exact fail_idle s
  · exact sendReply_idle s now ok

/-- The end of `wifi_wpa2_rx`: the counter is recorded and the reply is sent. -/
structure Accepted (s : Supplicant) (p : Bytes) (s' : Supplicant) (e : List Event) : Prop where
  haveReplay : s'.haveReplay = true
  replay : s'.replay = replayOf p
  phase : s.phase ≠ .m1 ∧ s.phase ≠ .m3 → s'.phase ≠ .m1 ∧ s'.phase ≠ .m3
  events : ∀ keys ok, .install keys ok ∉ e
  sends : ∃ ok, .send s.reply s.replyProtected ok ∈ e

theorem accept_spec (s : Supplicant) (p : Bytes) (now : UInt64) (ok : Bool) :
    Accepted s p (s.accept p now ok).1 (s.accept p now ok).2 := by
  unfold Supplicant.accept
  set u : Supplicant :=
    { s with haveReplay := true, replay := replayOf p, lastDigest := sha1 p, attempts := 0 } with hu
  have hi := sendReply_idle u now ok
  refine ⟨hi.haveReplay, hi.replay, ?_, hi.events, ok, ?_⟩
  · intro hs
    rcases hi.phase with h | h
    · rw [h]
      exact hs
    · exact h
  · by_cases hc : ok = true ∧ u.phase = .m4
    · obtain ⟨rfl, hm⟩ := hc
      rw [sendReply_m4 hm]
      simp [hu]
    · rw [sendReply_waits hc]
      simp [hu]

/-- A message 1 that is taken: its counter is recorded. -/
structure TakenM1 (p : Bytes) (s' : Supplicant) (e : List Event) : Prop where
  haveReplay : s'.haveReplay = true
  replay : s'.replay = replayOf p
  phase : s'.phase = .m3
  events : ∀ keys ok, .install keys ok ∉ e

/-- A message with keys that is taken. -/
structure TakenKeys (s : Supplicant) (p : Bytes) (s' : Supplicant) (e : List Event) : Prop where
  takes : s.takesKeys p = true
  counter : (s'.haveReplay = s.haveReplay ∧ s'.replay = s.replay) ∨
    s'.haveReplay = true ∧ s'.replay = replayOf p
  phase : s'.phase ≠ .m1 ∧ s'.phase ≠ .m3
  events : ∀ keys ok, .install keys ok ∈ e → keys.pairwise = true → s.phase = .m3

theorem takesKeys_phase (h : s.takesKeys p = true) :
    keyInfo p = pairM3 ∧ s.phase = .m3 ∨ keyInfo p ≠ pairM3 ∧ s.phase = .connected := by
  obtain ⟨-, -, -, hm3, hgrp, -⟩ := (takesKeys_iff p).1 h
  by_cases hp : keyInfo p = pairM3
  · exact Or.inl ⟨hp, hm3 hp⟩
  · exact Or.inr ⟨hp, hgrp.resolve_left hp⟩

theorem rxPairM1_taken (hm : s.phase = .m1 ∨ s.phase = .m3) (hlen : keyLength p = 16)
    (hnon : nonzero (nonceOf p) = true) {snonce : Bytes} (hs : nonzero snonce = true) (now : UInt64)
    (ok : Bool) :
    TakenM1 p (s.rxPairM1 p now (some snonce) ok).2.1 (s.rxPairM1 p now (some snonce) ok).2.2 := by
  unfold Supplicant.rxPairM1
  rw [if_neg (by rcases hm with h | h <;> simp [h, hlen, hnon])]
  dsimp only
  rw [if_neg (by simp [hs])]
  dsimp only
  unfold Supplicant.accept
  rw [sendReply_waits (by simp)]
  exact ⟨rfl, rfl, rfl, by simp⟩

theorem rxPairM1_idle {random : Option Bytes}
    (h : ¬ ((s.phase = .m1 ∨ s.phase = .m3) ∧ keyLength p = 16 ∧ nonzero (nonceOf p) = true ∧
      (random.map nonzero).getD false = true)) (now : UInt64) (ok : Bool) :
    Idle s (s.rxPairM1 p now random ok).2.1 (s.rxPairM1 p now random ok).2.2 := by
  unfold Supplicant.rxPairM1
  split
  · exact .rfl
  next hgo =>
  have hgo' : (s.phase = .m1 ∨ s.phase = .m3) ∧ keyLength p = 16 ∧ nonzero (nonceOf p) = true := by
    by_cases h1 : s.phase = .m1 <;> simp_all
  cases random with
  | none => exact (fail_idle s).cons (by simp)
  | some snonce =>
    have hs : nonzero snonce = false := by
      by_contra hs
      exact h ⟨hgo'.1, hgo'.2.1, hgo'.2.2, by simpa using hs⟩
    dsimp only
    rw [if_pos (by simp [hs])]
    exact (fail_idle s).cons (by simp)

theorem rxKeys_cases (s : Supplicant) (p : Bytes) (now : UInt64) (installOk ok : Bool) :
    Idle s (s.rxKeys p now installOk ok).2.1 (s.rxKeys p now installOk ok).2.2 ∨
      TakenKeys s p (s.rxKeys p now installOk ok).2.1 (s.rxKeys p now installOk ok).2.2 := by
  unfold Supplicant.rxKeys
  split
  · exact Or.inl .rfl
  next ht =>
  have ht : s.takesKeys p = true := by simpa using ht
  have hpair : decide (keyInfo p = pairM3) = true → s.phase = .m3 := by
    intro hp
    rcases takesKeys_phase ht with ⟨-, h⟩ | ⟨h, -⟩
    · exact h
    · exact absurd (by simpa using hp) h
  dsimp only
  split
  · exact Or.inl .rfl
  next gtkId gtk hdata =>
  split
  · -- the adapter refuses the keys
    have hf := fail_idle s
    refine Or.inr ⟨ht, Or.inl ⟨hf.haveReplay, hf.replay⟩, by simp [Supplicant.fail], ?_⟩
    intro keys ok' hm hk
    rcases List.mem_cons.1 hm with hm | hm
    · obtain ⟨rfl, -⟩ := Event.install.inj hm
      exact hpair hk
    · exact absurd hm (hf.events keys ok')
  · refine Or.inr ⟨ht, Or.inr ⟨(accept_spec _ p now ok).haveReplay, (accept_spec _ p now ok).replay⟩,
      ?_, ?_⟩
    · refine (accept_spec _ p now ok).phase ?_
      rcases takesKeys_phase ht with ⟨hp, -⟩ | ⟨hp, hc⟩
      · simp [hp]
      · simp [hp, hc]
    · intro keys ok' hm hk
      rcases List.mem_cons.1 hm with hm | hm
      · obtain ⟨rfl, -⟩ := Event.install.inj hm
        exact hpair hk
      · exact absurd hm ((accept_spec _ p now ok).events keys ok')

open Air in
/-- What a received frame may do. -/
theorem rx_cases (s : Supplicant) (p : Bytes) (now : UInt64) (random : Option Bytes)
    (installOk ok : Bool) :
    (takesM1 s p random = true ∧ TakenM1 p (s.rx p now random installOk ok).2.1
        (s.rx p now random installOk ok).2.2) ∨
      takesM1 s p random = false ∧
        (Idle s (s.rx p now random installOk ok).2.1 (s.rx p now random installOk ok).2.2 ∨
          TakenKeys s p (s.rx p now random installOk ok).2.1 (s.rx p now random installOk ok).2.2) := by
  unfold Supplicant.rx
  split
  · next hdead =>
    refine Or.inr ⟨?_, Or.inl .rfl⟩
    by_cases hwf : wellFormed p = true
    · rcases (by simpa [hwf] using hdead : s.phase = .idle ∨ s.phase = .failed) with h | h <;>
        simp [takesM1, h]
    · simp [takesM1, hwf]
  next hlive =>
  have hwf : wellFormed p = true := by
    by_contra hwf
    simp [hwf] at hlive
  split
  · next hold =>
    have hf : fresh s p = false := by
      simp only [Bool.and_eq_true, decide_eq_true_eq] at hold
      simp [fresh, hold.1, hold.2.le]
    exact Or.inr ⟨by simp [takesM1, hf], Or.inl .rfl⟩
  next hold =>
  split
  · next hdup =>
    have hf : fresh s p = false := by
      simp only [Bool.and_eq_true, decide_eq_true_eq] at hdup
      simp [fresh, hdup.1, hdup.2]
    refine Or.inr ⟨by simp [takesM1, hf], Or.inl ?_⟩
    unfold Supplicant.rxDuplicate
    split
    · exact .rfl
    split
    · exact .rfl
    · exact sendReply_idle s now ok
  next hdup =>
  have hf : fresh s p = true := by
    cases hr : s.haveReplay with
    | false => simp [fresh, hr]
    | true =>
      simp only [hr, Bool.true_and, decide_eq_true_eq] at hold hdup
      simp only [fresh, hr, Bool.true_and, Bool.not_eq_true', decide_eq_false_iff_not]
      omega
  split
  · next hinfo =>
    by_cases htake : (s.phase = .m1 ∨ s.phase = .m3) ∧ keyLength p = 16 ∧
        nonzero (nonceOf p) = true ∧ (random.map nonzero).getD false = true
    · left
      obtain ⟨hm, hlen, hnon, hran⟩ := htake
      refine ⟨by rcases hm with h | h <;> simp [takesM1, h, hwf, hf, hinfo, hlen, hnon, hran], ?_⟩
      cases random with
      | none => simp at hran
      | some snonce => exact rxPairM1_taken hm hlen hnon (by simpa using hran) now ok
    · right
      refine ⟨?_, Or.inl (rxPairM1_idle htake now ok)⟩
      by_contra ht
      apply htake
      simp only [takesM1, Bool.not_eq_false, Bool.and_eq_true, Bool.or_eq_true,
        decide_eq_true_eq] at ht
      exact ⟨ht.1.1.1.1.1.1, ht.1.1.2, ht.1.2, ht.2⟩
  · next hinfo =>
    exact Or.inr ⟨by simp [takesM1, hinfo], rxKeys_cases s p now installOk ok⟩

namespace Air

/-! ## Message 3 -/

theorem confirms_iff : confirms s p = true ↔ keyed s = true ∧ wellFormed p = true ∧
    keyInfo p = pairM3 ∧ keyLength p = 16 ∧ 24 ≤ (dataOf p).length ∧ nonceOf p = s.anonce ∧
    validMic s.ptk p = true ∧ byteAt p 71 = 0 ∧ byteAt p 72 = 0 ∧
    (keyData s.ptk s.apRsn (dataOf p) true).isSome = true := by
  simp [confirms, and_assoc]

/-- A new message 3 reaches the checks on its keys. -/
theorem rx_of_confirms (hc : confirms s p = true) (hf : fresh s p = true) (now : UInt64)
    (random : Option Bytes) (installOk ok : Bool) :
    s.rx p now random installOk ok = s.rxKeys p now installOk ok := by
  obtain ⟨hk, hwf, hinfo, -⟩ := confirms_iff.1 hc
  have hlive : s.phase ≠ .idle ∧ s.phase ≠ .failed := by
    constructor <;> intro h <;> simp [keyed, h] at hk
  have hnew : s.haveReplay = true → s.replay < replayOf p := by
    intro hr
    simpa [fresh, hr] using hf
  have hne : keyInfo p ≠ pairM1 := by rw [hinfo]; decide
  unfold Supplicant.rx
  rw [if_neg (by simp [hlive, hwf]), if_neg, if_neg, if_neg hne]
  · cases hr : s.haveReplay with
    | false => simp
    | true => simpa using (hnew hr).ne'
  · cases hr : s.haveReplay with
    | false => simp
    | true => simpa using (hnew hr).le

/-- A new message 3 is answered exactly in the phase `m3`. -/
theorem sends_m4_iff (hc : confirms s p = true) (hf : fresh s p = true) (now : UInt64)
    (random : Option Bytes) (ok : Bool) :
    (∃ protect ok', .send (response s.ptk s.snonce p pairM4 false) protect ok' ∈
      (s.rx p now random true ok).2.2) ↔ s.phase = .m3 := by
  rw [rx_of_confirms hc hf]
  obtain ⟨-, -, hinfo, hlen, hdata, hnon, hmic, h71, h72, hkey⟩ := confirms_iff.1 hc
  unfold Supplicant.rxKeys
  constructor
  · rintro ⟨protect, ok', hm⟩
    by_contra hp
    have ht : s.takesKeys p = false := by
      by_contra ht
      exact hp (((takesKeys_iff p).1 (by simpa using ht)).2.2.2.1 hinfo)
    rw [if_pos (by simp [ht])] at hm
    simp at hm
  · intro hp
    have ht : s.takesKeys p = true := (takesKeys_iff p).2
      ⟨Or.inl hinfo, hlen, hdata, fun _ => hp, Or.inl hinfo, fun _ => hnon, hmic, h71, h72⟩
    rw [if_neg (by simp [ht])]
    obtain ⟨x, hx⟩ := Option.isSome_iff_exists.1 hkey
    obtain ⟨gtkId, gtk⟩ := x
    simp only [hinfo, decide_true, hx, if_true]
    rw [if_neg (by simp)]
    obtain ⟨ok', hsend⟩ := (accept_spec
      { s with reply := response s.ptk s.snonce p pairM4 false, replyProtected := !true, phase := .m4 }
      p now ok).sends
    exact ⟨_, ok', List.mem_cons_of_mem _ hsend⟩

/-! ## Steps -/

variable {a : Air} {i : Heard}

/-- What holds on the air before every step. -/
structure Steady (a : Air) : Prop where
  bounded : a.Bounded
  phase : a.installed = true → a.station.phase ≠ .m1 ∧ a.station.phase ≠ .m3

/-- The station has not taken anything up: its counter is the old one or gone. -/
structure Unmoved (s s' : Supplicant) (e : List Event) : Prop where
  counter : s'.haveReplay = true → s.haveReplay = true ∧ s'.replay = s.replay
  phase : s'.phase = s.phase ∨ s'.phase ≠ .m1 ∧ s'.phase ≠ .m3
  events : ∀ keys ok, .install keys ok ∉ e

omit [Primitives] in
theorem idle_unmoved {s' : Supplicant} {e : List Event} (h : Idle s s' e) : Unmoved s s' e :=
  ⟨fun hr => ⟨h.haveReplay.symm.trans hr, h.replay⟩, h.phase, h.events⟩

/-- The station's part of a step. -/
theorem step_cases (a : Air) (i : Heard) :
    ((∀ p now random installOk ok, i.input = .rx p now random installOk ok →
        takesM1 a.station p random = false) ∧
      Unmoved a.station (a.step i).1.station (a.step i).2) ∨
      ∃ p now random installOk ok, i.input = .rx p now random installOk ok ∧
        ((takesM1 a.station p random = true ∧ TakenM1 p (a.step i).1.station (a.step i).2) ∨
          takesM1 a.station p random = false ∧
            TakenKeys a.station p (a.step i).1.station (a.step i).2) := by
  have hrx : ∀ p now random installOk ok, i.input = .rx p now random installOk ok →
      (takesM1 a.station p random = false ∧
          Unmoved a.station (a.step i).1.station (a.step i).2) ∨
        (takesM1 a.station p random = true ∧ TakenM1 p (a.step i).1.station (a.step i).2) ∨
          takesM1 a.station p random = false ∧
            TakenKeys a.station p (a.step i).1.station (a.step i).2 := by
    intro p now random installOk ok hi
    have hstep : (a.step i).1.station = (a.station.rx p now random installOk ok).2.1 ∧
        (a.step i).2 = .rx p :: (a.station.rx p now random installOk ok).2.2 := by
      simp [Air.step, hi, Supplicant.step]
    rw [hstep.1, hstep.2]
    rcases rx_cases a.station p now random installOk ok with ⟨ht, h⟩ | ⟨ht, h | h⟩
    · refine Or.inr (Or.inl ⟨ht, h.haveReplay, h.replay, h.phase, fun keys ok' hm => ?_⟩)
      rcases List.mem_cons.1 hm with hm | hm
      · simp at hm
      · exact h.events keys ok' hm
    · exact Or.inl ⟨ht, idle_unmoved (h.cons (by simp))⟩
    · refine Or.inr (Or.inr ⟨ht, h.takes, h.counter, h.phase, fun keys ok' hm => ?_⟩)
      rcases List.mem_cons.1 hm with hm | hm
      · simp at hm
      · exact h.events keys ok' hm
  cases i with
  | genuine p now random installOk ok =>
    refine (hrx p now random installOk ok rfl).imp ?_ fun h => ⟨p, now, random, installOk, ok, rfl, h⟩
    rintro ⟨ht, h⟩
    refine ⟨fun p' now' random' installOk' ok' hi => ?_, h⟩
    obtain ⟨rfl, -, rfl, -⟩ := Input.rx.inj hi
    exact ht
  | forged p now random installOk ok =>
    refine (hrx p now random installOk ok rfl).imp ?_ fun h => ⟨p, now, random, installOk, ok, rfl, h⟩
    rintro ⟨ht, h⟩
    refine ⟨fun p' now' random' installOk' ok' hi => ?_, h⟩
    obtain ⟨rfl, -, rfl, -⟩ := Input.rx.inj hi
    exact ht
  | tick now ok => exact Or.inl ⟨by simp [Heard.input], idle_unmoved (tick_idle a.station now ok)⟩
  | stop =>
    refine Or.inl ⟨by simp [Heard.input], ?_, ?_, ?_⟩
    · intro h
      simp [Air.step, Heard.input, Supplicant.step, Supplicant.stop, Supplicant.idle] at h
    · right
      simp [Air.step, Heard.input, Supplicant.step, Supplicant.stop, Supplicant.idle]
    · intro keys ok
      simp only [Air.step, Heard.input, Supplicant.step, Supplicant.stop]
      split <;> simp

/-- An installation in a step. -/
theorem install_phase {keys : Keys} {ok : Bool} (hm : .install keys ok ∈ (a.step i).2)
    (hk : keys.pairwise = true) :
    a.station.phase = .m3 ∧ (a.step i).1.station.phase ≠ .m1 ∧ (a.step i).1.station.phase ≠ .m3 := by
  rcases step_cases a i with ⟨-, h⟩ | ⟨p, now, random, installOk, ok', -, ⟨-, h⟩ | ⟨-, h⟩⟩
  · exact absurd hm (h.events keys ok)
  · exact absurd hm (h.events keys ok)
  · exact ⟨h.events keys ok hm hk, h.phase⟩

/-- The pairwise key is installed once at most. -/
theorem Steady.once (h : a.Steady) (hi : a.installed = true) {keys : Keys} {ok : Bool}
    (hm : .install keys ok ∈ (a.step i).2) : keys.pairwise = false := by
  by_contra hk
  exact (h.phase hi).2 (install_phase hm (by simpa using hk)).1

theorem Steady.phase_step (h : a.Steady) (hi : (a.step i).1.installed = true) :
    (a.step i).1.station.phase ≠ .m1 ∧ (a.step i).1.station.phase ≠ .m3 := by
  have hi' : a.installed = true ∨ ∃ x ∈ (a.step i).2, x.isPairwise = true := by
    simpa [Air.step] using hi
  rcases hi' with hi' | ⟨x, hx, hp⟩
  · rcases step_cases a i with ⟨-, hc⟩ | ⟨p, now, random, installOk, ok', -, ⟨ht, -⟩ | ⟨-, hc⟩⟩
    · rcases hc.phase with hp | hp
      · rw [hp]
        exact h.phase hi'
      · exact hp
    · simp [takesM1, h.phase hi'] at ht
    · exact hc.phase
  · cases x with
    | install keys ok =>
      cases ok with
      | true => exact (install_phase hx hp).2
      | false => simp [Event.isPairwise] at hp
    | _ => simp [Event.isPairwise] at hp

/-- The counter stays below the genuine ones exactly where no forged message 1 moves it above. -/
theorem Steady.bounded_step (h : a.Steady) (hl : a.Lawful i) :
    (a.step i).1.Bounded ↔ ∀ p now random installOk ok, i = .forged p now random installOk ok →
      takesM1 a.station p random = true → ∃ n, a.top = some n ∧ replayOf p ≤ n := by
  have hold : ∀ x, (a.station.haveReplay = true ∧ x = a.station.replay) →
      ∃ n, (a.step i).1.top = some n ∧ x ≤ n := by
    rintro x ⟨hr, rfl⟩
    obtain ⟨n, hn, hle⟩ := h.bounded hr
    cases i with
    | genuine p now random installOk ok =>
      exact ⟨_, rfl, by simp only [hn, Option.getD_some]; omega⟩
    | _ => exact ⟨n, hn, hle⟩
  have hgen : ∀ p now random installOk ok, i = .genuine p now random installOk ok →
      ∃ n, (a.step i).1.top = some n ∧ replayOf p ≤ n := by
    rintro p now random installOk ok rfl
    exact ⟨_, rfl, le_max_right _ _⟩
  have hforged : ∀ p now random installOk ok, i = .forged p now random installOk ok →
      a.station.takesKeys p = false := by
    rintro p now random installOk ok rfl
    by_contra ht
    have ht : a.station.takesKeys p = true := by simpa using ht
    have hk : keyed a.station = true := by
      rcases takesKeys_phase ht with ⟨-, hp⟩ | ⟨-, hp⟩ <;> simp [keyed, hp]
    have := ((takesKeys_iff p).1 ht).2.2.2.2.2.2.1
    rw [hl hk] at this
    simp at this
  -- The counter recorded for a genuine frame is the top, and none is recorded for a forged message
  -- with keys.
  have hrec : ∀ p now random installOk ok, i.input = .rx p now random installOk ok →
      (a.station.takesKeys p = true ∨
        ∀ now random installOk ok, i ≠ .forged p now random installOk ok) →
      ∃ n, (a.step i).1.top = some n ∧ replayOf p ≤ n := by
    intro p now random installOk ok hin hor
    cases i with
    | genuine p' now' random' installOk' ok' =>
      obtain ⟨rfl, -⟩ := Input.rx.inj hin
      exact hgen _ _ _ _ _ rfl
    | forged p' now' random' installOk' ok' =>
      obtain ⟨rfl, rfl, rfl, rfl, rfl⟩ := Input.rx.inj hin
      rcases hor with ht | hne
      · rw [hforged _ _ _ _ _ rfl] at ht
        simp at ht
      · exact absurd rfl (hne _ _ _ _)
    | tick now ok => simp [Heard.input] at hin
    | stop => simp [Heard.input] at hin
  rcases step_cases a i with ⟨ht, hc⟩ | ⟨p, now, random, installOk, ok, hin, ⟨ht, hc⟩ | ⟨ht, hc⟩⟩
  · refine iff_of_true (fun hr => hold _ (hc.counter hr)) ?_
    rintro p now random installOk ok rfl htake
    rw [ht p now random installOk ok rfl] at htake
    simp at htake
  · constructor
    · rintro hb p' now' random' installOk' ok' rfl -
      obtain ⟨rfl, -⟩ := Input.rx.inj hin
      obtain ⟨n, hn, hle⟩ := hb hc.haveReplay
      rw [hc.replay] at hle
      exact ⟨n, hn, hle⟩
    · intro hcond _
      rw [hc.replay]
      by_cases hf : i = .forged p now random installOk ok
      · obtain ⟨n, hn, hle⟩ := hcond _ _ _ _ _ hf ht
        subst hf
        exact ⟨n, hn, hle⟩
      · refine hrec p now random installOk ok hin (Or.inr ?_)
        rintro now' random' installOk' ok' rfl
        obtain ⟨-, rfl, rfl, rfl, rfl⟩ := Input.rx.inj hin
        exact hf rfl
  · refine iff_of_true (fun hr => ?_) ?_
    · rcases hc.counter with ⟨h1, h2⟩ | ⟨-, h2⟩
      · exact hold _ ⟨h1.symm.trans hr, h2⟩
      · rw [h2]
        exact hrec p now random installOk ok hin (Or.inl hc.takes)
    · rintro p' now' random' installOk' ok' rfl htake
      obtain ⟨rfl, -, rfl, -⟩ := Input.rx.inj hin
      rw [ht] at htake
      simp at htake

/-- A genuine message 3 is answered exactly where it comes in the phase `m3`. -/
theorem Steady.answered_iff (h : a.Steady) {p : Bytes} {now : UInt64} {random : Option Bytes}
    {ok : Bool} (hl : a.Lawful (.genuine p now random true ok)) (hc : confirms a.station p = true) :
    (∃ protect ok', .send (response a.station.ptk a.station.snonce p pairM4 false) protect ok' ∈
      (a.step (.genuine p now random true ok)).2) ↔ a.station.phase = .m3 := by
  have hf : fresh a.station p = true := by
    cases hr : a.station.haveReplay with
    | false => simp [fresh, hr]
    | true =>
      obtain ⟨n, hn, hle⟩ := h.bounded hr
      have : n < replayOf p := by simpa [Lawful, hn] using hl
      simp only [fresh, hr, Bool.true_and, Bool.not_eq_true', decide_eq_false_iff_not]
      omega
  rw [← sends_m4_iff hc hf now random ok]
  simp [Air.step, Heard.input, Supplicant.step]

/-- One step. -/
theorem Steady.good_iff (h : a.Steady) (hl : a.Lawful i) : a.Good i ↔ a.Guarded i := by
  have htop : ∀ p, (a.top.any fun n => replayOf p ≤ n) = true ↔ ∃ n, a.top = some n ∧ replayOf p ≤ n := by
    intro p
    cases a.top <;> simp
  constructor
  · intro hg
    have hb := (h.bounded_step hl).1 hg.bounded
    cases i with
    | genuine p now random installOk ok =>
      rintro rfl hc
      exact (h.answered_iff hl hc).1 (hg.answered p now random ok rfl hc)
    | forged p now random installOk ok =>
      exact fun ht => (htop p).2 (hb p now random installOk ok rfl ht)
    | _ => trivial
  · intro hg
    refine ⟨(h.bounded_step hl).2 ?_, ?_, fun hi keys ok hm => h.once hi hm⟩
    · rintro p now random installOk ok rfl ht
      exact (htop p).1 (hg ht)
    · rintro p now random ok rfl hc
      exact (h.answered_iff hl hc).2 (hg rfl hc)

theorem Good.steady (hg : a.Good i) (h : a.Steady) : (a.step i).1.Steady :=
  ⟨hg.bounded, fun hi => h.phase_step hi⟩

theorem Steady.run (is : List Heard) :
    ∀ a : Air, a.Steady → air.Admits Lawful a is → (air.Admits Good a is ↔ air.Admits Guarded a is) := by
  induction is with
  | nil => exact fun _ _ _ => Iff.rfl
  | cons i is ih =>
    intro a ha hl
    constructor
    · rintro ⟨hg, hrest⟩
      exact ⟨(ha.good_iff hl.1).1 hg, (ih _ (hg.steady ha) hl.2).1 hrest⟩
    · rintro ⟨hc, hrest⟩
      have hg := (ha.good_iff hl.1).2 hc
      exact ⟨hg, (ih _ (hg.steady ha) hl.2).2 hrest⟩

end Air

/-- Whatever is heard after `wifi_wpa2_start`: the counter stays below the genuine ones, every genuine
    message 3 is answered and the pairwise key is installed once, exactly where no forged message 1
    above the genuine counters is taken and no message 3 comes after the keys are installed. -/
theorem replay_counter_iff (sta ap pmk rsn : Bytes) (now : UInt64) (s : Supplicant) (e : List Event)
    (h : Supplicant.start sta ap pmk rsn now = some (s, e)) (is : List Heard)
    (hl : air.Admits Air.Lawful ⟨s, none, false⟩ is) :
    air.Admits Air.Good ⟨s, none, false⟩ is ↔ air.Admits Air.Guarded ⟨s, none, false⟩ is := by
  have hr : s.haveReplay = false := by
    unfold Supplicant.start at h
    split at h
    · simp at h
    · simp only [Option.some.injEq, Prod.mk.injEq] at h
      rw [← h.1]
      rfl
  exact Air.Steady.run is _ ⟨fun h => absurd (hr.symm.trans h) (by simp), by simp⟩ hl

end

/-! ## Runs -/

/-- The station of `handshake_safe_of_sample` after its start. -/
def sampleStart : Supplicant :=
  { Supplicant.idle with apRsn := stationRsn, phase := .m1, deadline := 0 + retryMs * 4 }

def heardM1 (replay : UInt8) : Bytes := keyFrame pairM1 replay (List.replicate 32 5) []

def heardM3 (replay : UInt8) : Bytes := keyFrame pairM3 replay (List.replicate 32 5) sampleData

/-- A message 3 with a false integrity code. -/
def falseM3 : Bytes := (heardM3 9).set micAt 1

/-- A handshake with a forged message 3 in between. -/
def mixed : List Heard :=
  [.genuine (heardM1 1) 10 (some (List.replicate 32 9)) true true, .forged falseM3 15 none true true,
    .genuine (heardM3 2) 20 none true true]

/-- A handshake whose message 3 is sent again with the next counter. -/
def again : List Heard :=
  [.genuine (heardM1 1) 10 (some (List.replicate 32 9)) true true,
    .genuine (heardM3 2) 20 none true true, .genuine (heardM3 3) 30 none true true]

/-- A forged message 1 before any other frame. -/
def forgery : List Heard := [.forged (heardM1 9) 10 (some (List.replicate 32 9)) true true]

theorem replay_counter_of_mixed : ∃ s e,
    Supplicant.start (zeros 6) (zeros 6) (zeros 32) stationRsn 0 = some (s, e) ∧
      (@air stubPrimitives).Admits (@Air.Lawful stubPrimitives) ⟨s, none, false⟩ mixed ∧
      (@air stubPrimitives).Admits (@Air.Good stubPrimitives) ⟨s, none, false⟩ mixed := by
  refine ⟨sampleStart, _, rfl, ?_⟩
  have hrun : (@air stubPrimitives).Admits (@Air.Lawful stubPrimitives) ⟨sampleStart, none, false⟩ mixed ∧
      (@air stubPrimitives).Admits (@Air.Guarded stubPrimitives) ⟨sampleStart, none, false⟩ mixed := by
    decide +kernel
  exact ⟨hrun.1, (@replay_counter_iff stubPrimitives (zeros 6) (zeros 6) (zeros 32) stationRsn 0
    sampleStart _ rfl mixed hrun.1).2 hrun.2⟩

/-- A forged message 1 leaves its own counter behind, and the message 3 that is sent again is not
    answered. -/
theorem forged_counter_recorded : ∃ s e,
    Supplicant.start (zeros 6) (zeros 6) (zeros 32) stationRsn 0 = some (s, e) ∧
      ((@air stubPrimitives).Admits (@Air.Lawful stubPrimitives) ⟨s, none, false⟩ forgery ∧
        ¬ (@air stubPrimitives).Admits (@Air.Good stubPrimitives) ⟨s, none, false⟩ forgery) ∧
      (@air stubPrimitives).Admits (@Air.Lawful stubPrimitives) ⟨s, none, false⟩ again ∧
        ¬ (@air stubPrimitives).Admits (@Air.Good stubPrimitives) ⟨s, none, false⟩ again := by
  refine ⟨sampleStart, _, rfl, ?_⟩
  have hsteady : Air.Steady ⟨sampleStart, none, false⟩ :=
    ⟨fun h => absurd h (by decide), fun h => absurd h (by decide)⟩
  have hrun : ((@air stubPrimitives).Admits (@Air.Lawful stubPrimitives) ⟨sampleStart, none, false⟩
        forgery ∧
      ¬ (@air stubPrimitives).Admits (@Air.Guarded stubPrimitives) ⟨sampleStart, none, false⟩ forgery) ∧
      (@air stubPrimitives).Admits (@Air.Lawful stubPrimitives) ⟨sampleStart, none, false⟩ again ∧
      ¬ (@air stubPrimitives).Admits (@Air.Guarded stubPrimitives) ⟨sampleStart, none, false⟩ again := by
    decide +kernel
  rw [@Air.Steady.run stubPrimitives forgery _ hsteady hrun.1.1,
    @Air.Steady.run stubPrimitives again _ hsteady hrun.2.1]
  exact hrun

end EmbLinkOs.Wifi
