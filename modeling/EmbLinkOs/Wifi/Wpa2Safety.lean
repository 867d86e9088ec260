import EmbLinkOs.Wifi.Wpa2

set_option autoImplicit false

/-! # Safety of the four-way handshake

What the supplicant does is judged by its history: the frames received and the calls of `ops` made,
in order. `Opened` and `Installable` say what must have come before the port is opened and before
keys are installed; the invariant `Sound` keeps them along every run, whatever frames arrive. Nothing
is assumed of the primitives: a frame is authentic if its integrity code verifies under the key. -/

namespace EmbLinkOs.Wifi

open List

/-- The element `e` is one of the elements of the key data `plain`. -/
inductive HasElement (e : Bytes) : Bytes → Prop
  | here (rest : Bytes) (h : e.length = (byteAt e 1).toNat + 2) : HasElement e (e ++ rest)
  | there (x rest : Bytes) (h : x.length = (byteAt x 1).toNat + 2) (t : HasElement e rest) :
      HasElement e (x ++ rest)

/-- The parties of a handshake: the addresses, the pre-shared key and the RSN element of the beacon. -/
structure Parties where
  sta : Bytes
  ap : Bytes
  pmk : Bytes
  rsn : Bytes

section

variable [Primitives] (c : Parties)

/-- The last nonce drawn is `snonce`, for the message 1 that carried `anonce`, and `ptk` is the key
    both give. -/
def Derived (past : List Event) (ptk snonce anonce : Bytes) : Prop :=
  ∃ a b m1, past = a ++ .rx m1 :: .random (some snonce) :: b ∧ (∀ r, Event.random r ∉ b) ∧
    keyInfo m1 = pairM1 ∧ nonceOf m1 = anonce ∧ ptk = wpa2Ptk c.pmk c.sta c.ap snonce anonce

/-- The integrity code of `p` verifies under the key in force. -/
def Authentic (past : List Event) (p : Bytes) : Prop :=
  ∃ ptk snonce anonce, Derived c past ptk snonce anonce ∧ validMic ptk p = true

/-- A message 3 was authentic under the key of its nonces and carried the element of the beacon, its
    keys were installed, and `m4` is the answer to it. -/
def Answers (past : List Event) (m4 : Bytes) : Prop :=
  ∃ a b m3 keys ptk snonce anonce plain,
    past = a ++ .rx m3 :: .install keys true :: b ∧ Derived c a ptk snonce anonce ∧
    keyInfo m3 = pairM3 ∧ nonceOf m3 = anonce ∧ validMic ptk m3 = true ∧
    wpa2Unwrap (slice ptk 16 16) (dataOf m3) 256 = some plain ∧ HasElement c.rsn plain ∧
    keys.pairwise = true ∧ keys.tk = slice ptk 32 16 ∧ m4 = response ptk snonce m3 pairM4 false

/-- The port may be opened: message 4 has just been sent. -/
def Opened (past : List Event) : Prop :=
  ∃ a m4, past = a ++ [.send m4 false true] ∧ Answers c a m4

/-- No pairwise key has been installed, nor has the adapter been asked to. -/
def NoPairwise (past : List Event) : Prop :=
  ∀ keys ok, Event.install keys ok ∈ past → keys.pairwise = false

/-- The counters of the frames whose keys were installed are below `n`. -/
def CountersBelow (n : Nat) (past : List Event) : Prop :=
  ∀ a q keys b, past = a ++ .rx q :: .install keys true :: b → replayOf q < n

/-- The keys may be installed: the frame just received is authentic and newer than all whose keys
    were installed, and a pairwise key is the first one. -/
def Installable (past : List Event) (keys : Keys) : Prop :=
  (keys.pairwise = true → NoPairwise past) ∧
    ∃ a p, past = a ++ [.rx p] ∧ Authentic c a p ∧ CountersBelow (replayOf p) a

/-- What may follow on `past`. -/
def Allowed (past : List Event) : Event → Prop
  | .port true => Opened c past
  | .install keys _ => Installable c past keys
  | _ => True

end

/-! ## Histories that grow -/

section

variable [Primitives] {c : Parties} {past e : List Event}

/-- The events that neither draw a nonce nor install keys. -/
def Event.Quiet : Event → Prop
  | .random _ => False
  | .install _ _ => False
  | _ => True

theorem Derived.append {ptk snonce anonce : Bytes} (h : Derived c past ptk snonce anonce)
    (he : ∀ r, Event.random r ∉ e) : Derived c (past ++ e) ptk snonce anonce := by
  obtain ⟨a, b, m1, rfl, hb, h⟩ := h
  refine ⟨a, b ++ e, m1, by simp, ?_, h⟩
  intro r hr
  rcases mem_append.1 hr with hr | hr
  · exact hb r hr
  · exact he r hr

theorem Answers.append {m4 : Bytes} (h : Answers c past m4) : Answers c (past ++ e) m4 := by
  obtain ⟨a, b, m3, keys, ptk, snonce, anonce, plain, rfl, h⟩ := h
  exact ⟨a, b ++ e, m3, keys, ptk, snonce, anonce, plain, by simp, h⟩

theorem NoPairwise.append (h : NoPairwise past) (he : ∀ x ∈ e, x.Quiet) :
    NoPairwise (past ++ e) := by
  intro keys ok hm
  rcases mem_append.1 hm with hm | hm
  · exact h keys ok hm
  · exact (he _ hm).elim

/-- An installation at the end of a history that grew by one event is that event or was there. -/
theorem installation_concat {x : Event} {a b : List Event} {q : Bytes} {keys : Keys}
    (h : past ++ [x] = a ++ .rx q :: .install keys true :: b) :
    (x = .install keys true ∧ past = a ++ [.rx q]) ∨
      ∃ b', past = a ++ .rx q :: .install keys true :: b' := by
  rcases eq_nil_or_concat b with rfl | ⟨b', y, rfl⟩
  · have h' : past ++ [x] = (a ++ [.rx q]) ++ [.install keys true] := by simpa using h
    obtain ⟨h₁, h₂⟩ := append_inj' h' rfl
    exact Or.inl ⟨by simpa using h₂, h₁⟩
  · have h' : past ++ [x] = (a ++ .rx q :: .install keys true :: b') ++ [y] := by simpa using h
    exact Or.inr ⟨b', (append_inj' h' rfl).1⟩

theorem CountersBelow.append {n : Nat} (h : CountersBelow n past) (he : ∀ x ∈ e, x.Quiet) :
    CountersBelow n (past ++ e) := by
  induction e generalizing past with
  | nil => simpa using h
  | cons x e ih =>
    have hx : CountersBelow n (past ++ [x]) := by
      intro a q keys b hs
      rcases installation_concat hs with ⟨rfl, -⟩ | ⟨b', hb⟩
      · exact (he _ mem_cons_self).elim
      · exact h a q keys b' hb
    simpa using ih hx (fun y hy => he y (mem_cons_of_mem _ hy))

theorem CountersBelow.mono {n n' : Nat} (h : CountersBelow n past) (hn : n ≤ n') :
    CountersBelow n' past := fun a q keys b hs => (h a q keys b hs).trans_le hn

/-- After the keys of `p` are installed the counters are at most that of `p`. -/
theorem CountersBelow.install {p : Bytes} {keys : Keys} (h : CountersBelow (replayOf p) past) :
    CountersBelow (replayOf p + 1) (past ++ [.rx p, .install keys true]) := by
  intro a q keys' b hs
  have hs' : (past ++ [.rx p]) ++ [.install keys true] = a ++ .rx q :: .install keys' true :: b := by
    simpa using hs
  rcases installation_concat hs' with ⟨-, hp⟩ | ⟨b', hb⟩
  · obtain ⟨-, hq⟩ := append_inj' hp rfl
    simp only [List.cons.injEq, Event.rx.injEq, and_true] at hq
    rw [hq]
    exact Nat.lt_succ_self _
  · have := h.append (e := [.rx p]) (by simp [Event.Quiet]) a q keys' b' hb
    omega

end

/-! ## The key data -/

/-- `scanKeyData` has seen the element of the beacon only if the key data has it. -/
theorem scanKeyData_rsn (rsn rest : Bytes) (seen : Bool) (gtk g : Option (UInt8 × Bytes))
    (h : scanKeyData rsn rest seen gtk = some (true, g)) : seen = true ∨ HasElement rsn rest := by
  have hlen : ∀ {rest : Bytes}, ¬ (rest.length < 2 ∨ rest.length - 2 < (byteAt rest 1).toNat) →
      (rest.take ((byteAt rest 1).toNat + 2)).length =
        (byteAt (rest.take ((byteAt rest 1).toNat + 2)) 1).toNat + 2 := by
    intro rest hr
    have h1 : byteAt (rest.take ((byteAt rest 1).toNat + 2)) 1 = byteAt rest 1 := by
      simp [byteAt, getD_eq_getElem?_getD]
    rw [h1, length_take]
    omega
  have hthere : ∀ {rest : Bytes}, ¬ (rest.length < 2 ∨ rest.length - 2 < (byteAt rest 1).toNat) →
      HasElement rsn (rest.drop ((byteAt rest 1).toNat + 2)) → HasElement rsn rest := by
    intro rest hr ht
    have := HasElement.there _ _ (hlen hr) ht
    rwa [take_append_drop] at this
  fun_induction scanKeyData rsn rest seen gtk with
  | case1 | case2 =>
    simp only [Option.some.injEq, Prod.mk.injEq] at h
    exact Or.inl h.1
  | case3 | case4 | case6 => exact absurd h (by simp)
  | case5 rest seen gtk _ _ hr len ie _ hie ih =>
    -- the element of the beacon itself
    right
    simp only [Bool.or_eq_true, not_or, not_not, ne_eq, decide_not, Bool.not_eq_true',
      decide_eq_false_iff_not] at hie
    have := HasElement.here (e := ie) (rest.drop len) (hlen hr)
    rw [take_append_drop] at this
    rwa [hie.2] at this
  | case7 rest seen gtk _ _ hr len ie _ _ _ ih => exact (ih h).imp id (hthere hr)
  | case8 rest seen gtk _ _ hr len ie _ _ ih => exact (ih h).imp id (hthere hr)

section

variable [Primitives]

theorem keyData_pair {ptk rsn data : Bytes} {gtk : UInt8 × Bytes}
    (h : keyData ptk rsn data true = some gtk) :
    ∃ plain, wpa2Unwrap (slice ptk 16 16) data 256 = some plain ∧ HasElement rsn plain := by
  unfold keyData at h
  split at h
  · exact absurd h (by simp)
  · next plain hp =>
    split at h
    · next seen g hs =>
      have hseen : seen = true := by
        by_contra hc
        simp [hc] at h
      subst hseen
      exact ⟨plain, hp, (scanKeyData_rsn _ _ _ _ _ hs).resolve_left (by simp)⟩
    · exact absurd h (by simp)

/-! ## The invariant -/

variable {c : Parties} {past : List Event} {s : Supplicant}

/-- The handshake has neither failed nor been stopped. -/
def Phase.Live (p : Phase) : Prop := p ≠ .idle ∧ p ≠ .failed

/-- The least replay counter that is new. -/
def Supplicant.floor (s : Supplicant) : Nat := if s.haveReplay then s.replay + 1 else 0

/-- What holds of the history and the state after every step. -/
structure Sound (c : Parties) (past : List Event) (s : Supplicant) : Prop where
  allowed : History.Justified (Allowed c) [] past
  parties : s.phase.Live → s.sta = c.sta ∧ s.ap = c.ap ∧ s.pmk = c.pmk ∧ s.apRsn = c.rsn
  derived : s.phase.Live → s.phase ≠ .m1 → Derived c past s.ptk s.snonce s.anonce
  answers : s.phase = .m4 → Answers c past s.reply ∧ s.replyProtected = false
  noPairwise : s.phase = .m1 ∨ s.phase = .m3 → NoPairwise past
  counters : s.phase.Live → CountersBelow s.floor past

theorem justified_concat {e : List Event} (h : History.Justified (Allowed c) [] past)
    (he : History.Justified (Allowed c) past e) : History.Justified (Allowed c) [] (past ++ e) :=
  (History.justified_append [] past e).2 ⟨h, by simpa using he⟩

/-- A frame that is dropped. -/
theorem Sound.ignore (h : Sound c past s) (p : Bytes) : Sound c (past ++ [.rx p]) s where
  allowed := justified_concat h.allowed (by simp [Allowed])
  parties := h.parties
  derived hl hm := (h.derived hl hm).append (by simp)
  answers hp := ⟨(h.answers hp).1.append, (h.answers hp).2⟩
  noPairwise hp := (h.noPairwise hp).append (by simp [Event.Quiet])
  counters hl := (h.counters hl).append (by simp [Event.Quiet])

/-- Once the handshake is over only the history counts. -/
theorem Sound.dead (h : History.Justified (Allowed c) [] past) (hs : ¬ s.phase.Live) :
    Sound c past s where
  allowed := h
  parties hl := absurd hl hs
  derived hl := absurd hl hs
  answers hp := absurd (by simp [Phase.Live, hp]) hs
  noPairwise hp := absurd (by rcases hp with hp | hp <;> simp [Phase.Live, hp]) hs
  counters hl := absurd hl hs

theorem Sound.fail (h : History.Justified (Allowed c) [] past) (s : Supplicant) :
    Sound c (past ++ s.fail.2) s.fail.1 := by
  refine Sound.dead (justified_concat h ?_) (by simp [Supplicant.fail, Phase.Live])
  unfold Supplicant.fail Supplicant.port
  split <;> simp [Allowed]

theorem sendReply_m4 (hm : s.phase = .m4) (now : UInt64) :
    s.sendReply now true =
      ({ s with deadline := now + retryMs, attempts := s.attempts + 1, phase := .connected,
                authorized := true },
        .send s.reply s.replyProtected true :: if s.authorized then [] else [.port true]) := by
  cases ha : s.authorized <;> simp [Supplicant.sendReply, Supplicant.port, hm, ha]

theorem sendReply_waits {ok : Bool} (h : ¬ (ok = true ∧ s.phase = .m4)) (now : UInt64) :
    s.sendReply now ok =
      ({ s with deadline := now + retryMs, attempts := s.attempts + 1 },
        [.send s.reply s.replyProtected ok]) := by
  simp only [Supplicant.sendReply, Bool.and_eq_true, decide_eq_true_eq, if_neg h]

/-- Sending the reply: in the phase `m4` a reply that was sent opens the port. -/
theorem Sound.sendReply (h : Sound c past s) (now : UInt64) (ok : Bool) :
    Sound c (past ++ (s.sendReply now ok).2) (s.sendReply now ok).1 := by
  by_cases hc : ok = true ∧ s.phase = .m4
  · obtain ⟨rfl, hm⟩ := hc
    have hl : s.phase.Live := by simp [Phase.Live, hm]
    have hne : s.phase ≠ .m1 := by simp [hm]
    obtain ⟨hans, hprot⟩ := h.answers hm
    rw [sendReply_m4 hm]
    refine ⟨justified_concat h.allowed ?_, fun _ => h.parties hl, fun _ _ => ?_, by simp, by simp,
      fun _ => ?_⟩
    · cases s.authorized
      · simp only [Bool.false_eq_true, if_false, History.justified_cons, History.justified_nil,
          and_true]
        exact ⟨trivial, past, s.reply, by rw [hprot], hans⟩
      · simp [Allowed]
    · exact (h.derived hl hne).append (by cases s.authorized <;> simp)
    · exact (h.counters hl).append (by cases s.authorized <;> simp [Event.Quiet])
  · rw [sendReply_waits hc]
    exact
      { allowed := justified_concat h.allowed (by simp [Allowed])
        parties := h.parties
        derived := fun hl hm => (h.derived hl hm).append (by simp)
        answers := fun hp => ⟨(h.answers hp).1.append, (h.answers hp).2⟩
        noPairwise := fun hp => (h.noPairwise hp).append (by simp [Event.Quiet])
        counters := fun hl => (h.counters hl).append (by simp [Event.Quiet]) }

theorem Sound.rxDuplicate (h : Sound c past s) (p : Bytes) (now : UInt64) (ok : Bool) :
    Sound c (past ++ .rx p :: (s.rxDuplicate p now ok).2.2) (s.rxDuplicate p now ok).2.1 := by
  unfold Supplicant.rxDuplicate
  split
  · exact h.ignore p
  · split
    · exact h.ignore p
    · simpa using (h.ignore p).sendReply now ok

/-- Message 1 starts a new derivation. Nothing has been installed yet. -/
theorem Sound.rxPairM1 (h : Sound c past s) {p : Bytes} (hp : keyInfo p = pairM1)
    (hnew : s.floor ≤ replayOf p) (now : UInt64) (random : Option Bytes)
    (ok : Bool) :
    Sound c (past ++ .rx p :: (s.rxPairM1 p now random ok).2.2) (s.rxPairM1 p now random ok).2.1 := by
  unfold Supplicant.rxPairM1
  split
  · exact h.ignore p
  next hc =>
  simp only [Bool.or_eq_true, Bool.and_eq_true, not_or, not_and, ne_eq, not_not, Bool.not_eq_true',
    decide_not, Bool.not_eq_false, decide_eq_false_iff_not] at hc
  have hphase : s.phase = .m1 ∨ s.phase = .m3 := by
    by_cases h1 : s.phase = .m1
    · exact Or.inl h1
    · exact Or.inr (hc.1.1 h1)
  have hl : s.phase.Live := by rcases hphase with h | h <;> simp [Phase.Live, h]
  -- the history up to and with the call of `random`
  have hfail : ∀ r, Sound c (past ++ .rx p :: .random r :: s.fail.2) s.fail.1 := by
    intro r
    have hj : History.Justified (Allowed c) [] (past ++ [.rx p, .random r]) :=
      justified_concat h.allowed (by simp [Allowed])
    simpa using Sound.fail hj s
  cases random with
  | none => exact hfail none
  | some snonce =>
    dsimp only
    split
    · exact hfail (some snonce)
    · obtain ⟨hsta, hap, hpmk, hrsn⟩ := h.parties hl
      rw [show ∀ t, past ++ Event.rx p :: .random (some snonce) :: t =
        (past ++ [.rx p, .random (some snonce)]) ++ t by simp]
      refine Sound.sendReply ?_ now ok
      exact
        { allowed := justified_concat h.allowed (by simp [Allowed])
          parties := fun _ => ⟨hsta, hap, hpmk, hrsn⟩
          derived := fun _ _ => ⟨past, [], p, rfl, by simp, hp, rfl, by rw [hsta, hap, hpmk]⟩
          answers := by simp
          noPairwise := fun _ keys k hm => h.noPairwise hphase keys k (by simpa using hm)
          counters := fun _ => by
            have hb := (h.counters hl).mono (hnew.trans (Nat.le_succ _))
            have hb₁ : CountersBelow (replayOf p + 1) (past ++ [.rx p]) :=
              hb.append (by simp [Event.Quiet])
            intro a q keys b hs
            have hs' : (past ++ [.rx p]) ++ [.random (some snonce)] =
              a ++ .rx q :: .install keys true :: b := by simpa using hs
            rcases installation_concat hs' with ⟨hx, -⟩ | ⟨b', hb'⟩
            · exact absurd hx (by simp)
            · exact hb₁ a q keys b' hb' }

theorem takesKeys_iff (p : Bytes) :
    s.takesKeys p = true ↔ (keyInfo p = pairM3 ∨ keyInfo p = groupM1) ∧ keyLength p = 16 ∧
      24 ≤ (dataOf p).length ∧ (keyInfo p = pairM3 → s.phase = .m3) ∧
      (keyInfo p = pairM3 ∨ s.phase = .connected) ∧ (keyInfo p = pairM3 → nonceOf p = s.anonce) ∧
      validMic s.ptk p = true ∧ byteAt p 71 = 0 ∧ byteAt p 72 = 0 := by
  simp [Supplicant.takesKeys, and_assoc, imp_iff_not_or]

/-- A message with keys: it is authentic and new, and after a pairwise one `m4` is the next phase. -/
theorem Sound.rxKeys (h : Sound c past s) {p : Bytes} (hnew : s.floor ≤ replayOf p) (now : UInt64)
    (installOk ok : Bool) :
    Sound c (past ++ .rx p :: (s.rxKeys p now installOk ok).2.2) (s.rxKeys p now installOk ok).2.1 := by
  unfold Supplicant.rxKeys
  split
  · exact h.ignore p
  next hc =>
  simp only [Bool.not_eq_true', Bool.not_eq_false] at hc
  obtain ⟨-, -, -, hm3, hgrp, hnonce, hmic, -, -⟩ := (takesKeys_iff p).1 hc
  have hl : s.phase.Live ∧ s.phase ≠ .m1 := by
    rcases hgrp with hp | hp
    · simp [Phase.Live, hm3 hp]
    · simp [Phase.Live, hp]
  have hder := h.derived hl.1 hl.2
  have hcnt : CountersBelow (replayOf p) past := (h.counters hl.1).mono hnew
  dsimp only
  split
  · exact h.ignore p
  next gtkId gtk hdata =>
  generalize hkeys : Keys.mk (decide (keyInfo p = pairM3)) true gtkId
    (if decide (keyInfo p = pairM3) = true then slice s.ptk 32 16 else zeros 16) gtk (groupRsc p) = keys
  have hpair : keys.pairwise = decide (keyInfo p = pairM3) := by rw [← hkeys]
  -- the installation is allowed whatever the adapter answers
  have hall : ∀ k, History.Justified (Allowed c) [] (past ++ [.rx p, .install keys k]) := by
    intro k
    refine justified_concat h.allowed ?_
    simp only [History.justified_cons, History.justified_nil, and_true]
    refine ⟨trivial, fun hk => ?_, past, p, rfl, ⟨_, _, _, hder, hmic⟩, hcnt⟩
    rw [hpair, decide_eq_true_eq] at hk
    exact (h.noPairwise (Or.inr (hm3 hk))).append (by simp [Event.Quiet])
  split
  · simpa using Sound.fail (hall false) s
  rw [show ∀ t, past ++ Event.rx p :: .install keys true :: t =
    (past ++ [.rx p, .install keys true]) ++ t by simp]
  refine Sound.sendReply ?_ now ok
  have hder' : Derived c (past ++ [.rx p, .install keys true]) s.ptk s.snonce s.anonce :=
    hder.append (by simp)
  exact
    { allowed := hall true
      parties := fun _ => h.parties hl.1
      derived := fun _ _ => hder'
      answers := fun hm => by
        have hp : keyInfo p = pairM3 := by
          by_contra hp
          simp only [hp, decide_false, Bool.false_eq_true, if_false] at hm
          exact absurd (hgrp.resolve_left hp) (by rw [hm]; simp)
        simp only [hp, decide_true] at hdata hkeys ⊢
        obtain ⟨plain, hun, hel⟩ := keyData_pair hdata
        rw [(h.parties hl.1).2.2.2] at hel
        exact ⟨⟨past, [], p, keys, s.ptk, s.snonce, s.anonce, plain, rfl, hder, hp, hnonce hp, hmic,
          hun, hel, by rw [← hkeys], by rw [← hkeys]; rfl, rfl⟩, rfl⟩
      noPairwise := fun hm => by
        exfalso
        by_cases hp : keyInfo p = pairM3
        · simp [hp] at hm
        · simp [hp, hgrp.resolve_left hp] at hm
      counters := fun _ => hcnt.install }

/-- A received frame. -/
theorem Sound.rx (h : Sound c past s) (p : Bytes) (now : UInt64) (random : Option Bytes)
    (installOk ok : Bool) :
    Sound c (past ++ .rx p :: (s.rx p now random installOk ok).2.2)
      (s.rx p now random installOk ok).2.1 := by
  unfold Supplicant.rx
  split
  · exact h.ignore p
  split
  · exact h.ignore p
  next hold =>
  split
  · exact h.rxDuplicate p now ok
  next hdup =>
  have hnew : s.floor ≤ replayOf p := by
    simp only [Bool.and_eq_true, decide_eq_true_eq, not_and, not_lt] at hold hdup
    unfold Supplicant.floor
    split
    · next hr =>
      have h1 := hold hr
      have h2 := hdup hr
      omega
    · exact Nat.zero_le _
  split
  · next hp => exact h.rxPairM1 hp hnew now random ok
  · exact h.rxKeys hnew now installOk ok

theorem Sound.tick (h : Sound c past s) (now : UInt64) (ok : Bool) :
    Sound c (past ++ (s.tick now ok).2) (s.tick now ok).1 := by
  unfold Supplicant.tick
  split
  · simpa using h
  · split
    · exact Sound.fail h.allowed s
    · exact h.sendReply now ok

/-- One step of the machine keeps the invariant. -/
theorem Sound.step (h : Sound c past s) (i : Input) :
    Sound c (past ++ (supplicant.step s i).2) (supplicant.step s i).1 := by
  cases i with
  | rx p now random installOk ok => exact h.rx p now random installOk ok
  | tick now ok => exact h.tick now ok
  | stop =>
    refine Sound.dead (justified_concat h.allowed ?_) ?_
    · show History.Justified _ _ (if s.authorized then [Event.port false] else [])
      cases s.authorized <;> simp [Allowed]
    · simp [supplicant, Supplicant.step, Supplicant.stop, Supplicant.idle, Phase.Live]

theorem start_sound {sta ap pmk rsn : Bytes} {now : UInt64} {s : Supplicant} {e : List Event}
    (h : Supplicant.start sta ap pmk rsn now = some (s, e)) : Sound ⟨sta, ap, pmk, rsn⟩ e s := by
  unfold Supplicant.start at h
  split at h
  · exact absurd h (by simp)
  · simp only [Option.some.injEq, Prod.mk.injEq] at h
    obtain ⟨rfl, rfl⟩ := h
    exact
      { allowed := by simp [Allowed]
        parties := fun _ => ⟨rfl, rfl, rfl, rfl⟩
        derived := fun _ hm => absurd rfl hm
        answers := by simp
        noPairwise := fun _ keys k hm => by simp at hm
        counters := fun _ a q keys b hs => by
          have : Event.install keys true ∈ [Event.port false] := by rw [hs]; simp
          simp at this }

/-! ## Every run -/

/-- A frame without a valid integrity code leaves an established link's key, nonces and replay
    counter alone; at most the last reply is sent once more. -/
theorem rx_connected (hs : s.phase = .connected) {p : Bytes} (hp : validMic s.ptk p = false)
    (now : UInt64) (random : Option Bytes) (installOk ok : Bool) :
    (s.rx p now random installOk ok).2.1 = s ∨
      (s.rx p now random installOk ok).2.1 = (s.sendReply now ok).1 := by
  have hkeys : s.takesKeys p = false := by simp [Supplicant.takesKeys, hp]
  unfold Supplicant.rx
  split
  · exact Or.inl rfl
  split
  · exact Or.inl rfl
  split
  · unfold Supplicant.rxDuplicate
    split
    · exact Or.inl rfl
    · split
      · exact Or.inl rfl
      · exact Or.inr rfl
  · split
    · simp [Supplicant.rxPairM1, hs]
    · simp [Supplicant.rxKeys, hkeys]

/-- The safety of a handshake: `h` is everything that happened and `s` the state reached. -/
structure HandshakeSafe (c : Parties) (h : List Event) (s : Supplicant) : Prop where
  /-- The port is opened only after an authentic message 3 with the element of the beacon whose keys
      were installed, and after its message 4 was sent. -/
  port : ∀ pre post, h = pre ++ .port true :: post → Opened c pre
  /-- No pairwise key is installed twice. -/
  pairwise : ∀ pre post keys ok, h = pre ++ .install keys ok :: post → keys.pairwise = true →
    NoPairwise pre
  /-- Group keys come from an authentic frame with a counter above those of all earlier ones. -/
  group : ∀ pre post keys ok, h = pre ++ .install keys ok :: post → keys.group = true →
    ∃ a p, pre = a ++ [.rx p] ∧ Authentic c a p ∧ CountersBelow (replayOf p) a
  /-- On an established link a frame that is not authentic changes neither key nor nonces nor
      counter. -/
  connected : s.phase = .connected → Derived c h s.ptk s.snonce s.anonce ∧
    ∀ p now random installOk ok, validMic s.ptk p = false →
      (s.rx p now random installOk ok).2.1.ptk = s.ptk ∧
      (s.rx p now random installOk ok).2.1.snonce = s.snonce ∧
      (s.rx p now random installOk ok).2.1.anonce = s.anonce ∧
      (s.rx p now random installOk ok).2.1.replay = s.replay ∧
      (s.rx p now random installOk ok).2.1.haveReplay = s.haveReplay

theorem Sound.handshakeSafe (h : Sound c past s) : HandshakeSafe c past s where
  port pre post hp := by simpa [Allowed] using h.allowed.at_event hp
  pairwise pre post keys ok hp hk := by
    have : Installable c pre keys := by simpa [Allowed] using h.allowed.at_event hp
    exact this.1 hk
  group pre post keys ok hp _ := by
    have : Installable c pre keys := by simpa [Allowed] using h.allowed.at_event hp
    exact this.2
  connected hs := by
    refine ⟨h.derived (by simp [Phase.Live, hs]) (by simp [hs]), ?_⟩
    intro p now random installOk ok hp
    rcases rx_connected hs hp now random installOk ok with he | he
    · rw [he]
      simp
    · rw [he, sendReply_waits (by simp [hs])]
      simp

/-- Whatever frames arrive after `wifi_wpa2_start`, in whatever order and with whatever answers of
    the adapter, the handshake is safe in every state reached. -/
theorem handshake_safe_of_run (sta ap pmk rsn : Bytes) (now : UInt64) (s : Supplicant)
    (e : List Event) (h : Supplicant.start sta ap pmk rsn now = some (s, e)) (is : List Input) :
    HandshakeSafe ⟨sta, ap, pmk, rsn⟩ (e ++ (supplicant.run s is).2) (supplicant.run s is).1 := by
  have hI : Sound ⟨sta, ap, pmk, rsn⟩ (e ++ (supplicant.run s is).2) (supplicant.run s is).1 :=
    Machine.run_invariant (I := Sound ⟨sta, ap, pmk, rsn⟩) (fun _ _ i h => h.step i) is e s
      (start_sound h)
  exact hI.handshakeSafe

end

/-! A complete handshake. The primitives are stand-ins: all codes are zero and decryption yields the
initial value of the key wrap. -/

def stubPrimitives : Primitives where
  sha1 := fun _ => zeros 20
  aesDecrypt := fun _ b => List.replicate 8 0xa6 ++ b.drop 8

/-- A key frame with integrity code zero. -/
def keyFrame (info : Nat) (replay : UInt8) (nonce data : Bytes) : Bytes :=
  [1, 3] ++ put16 (95 + data.length) ++ [2] ++ put16 info ++ [0, 16] ++ zeros 7 ++ [replay] ++ nonce ++
    zeros 48 ++ put16 data.length ++ data

/-- The access point's element, a group key and padding, wrapped. -/
def sampleData : Bytes :=
  zeros 8 ++ stationRsn ++ [221, 22, 0, 15, 172, 1, 1, 0] ++ List.replicate 16 7 ++ [221, 0]

def sampleInputs : List Input :=
  [.rx (keyFrame pairM1 1 (List.replicate 32 5) []) 10 (some (List.replicate 32 9)) true true,
    .rx (keyFrame pairM3 2 (List.replicate 32 5) sampleData) 20 none true true]

theorem handshake_safe_of_sample : ∃ s e,
    Supplicant.start (zeros 6) (zeros 6) (zeros 32) stationRsn 0 = some (s, e) ∧
      Event.port true ∈ ((@supplicant stubPrimitives).run s sampleInputs).2 ∧
      @HandshakeSafe stubPrimitives ⟨zeros 6, zeros 6, zeros 32, stationRsn⟩
        (e ++ ((@supplicant stubPrimitives).run s sampleInputs).2)
        ((@supplicant stubPrimitives).run s sampleInputs).1 := by
  refine ⟨_, _, rfl, ?_, @handshake_safe_of_run stubPrimitives _ _ _ _ _ _ _ rfl _⟩
  decide +kernel

end EmbLinkOs.Wifi
