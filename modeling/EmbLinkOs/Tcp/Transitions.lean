import EmbLinkOs.Tcp.Tcb

set_option autoImplicit false

/-! # What a segment does to a control block

Every change `tcp_input` makes to a control block, by field: the parts that tell connections apart
never change, and the state moves forward. -/

namespace EmbLinkOs.Tcp

/-- The control block is the same but for its state and its windows. -/
structure Tcb.Alike (t u : Tcb) : Prop where
  inUse : u.inUse = t.inUse
  localPort : u.localPort = t.localPort
  remoteIp : u.remoteIp = t.remoteIp
  remotePort : u.remotePort = t.remotePort
  parentListener : u.parentListener = t.parentListener
  acceptQ : u.acceptQ = t.acceptQ

namespace Tcb

variable {t : Tcb} {s : Segment}

theorem Alike.rfl : t.Alike t := ⟨.refl _, .refl _, .refl _, .refl _, .refl _, .refl _⟩

theorem Alike.trans {u v : Tcb} (h : t.Alike u) (h' : u.Alike v) : t.Alike v :=
  ⟨h'.1.trans h.1, h'.2.trans h.2, h'.3.trans h.3, h'.4.trans h.4, h'.5.trans h.5, h'.6.trans h.6⟩

/-- `tcp_seg` changes the advertised window only. The window is kept abstract here: comparing the two
    control blocks would unfold it. -/
theorem advertised_eq (t : Tcb) : ∃ x, t.advertised = { t with advWnd := x } := ⟨_, rfl⟩

theorem advertised_alike (t : Tcb) : t.Alike t.advertised := by
  obtain ⟨x, hx⟩ := t.advertised_eq
  rw [hx]
  exact ⟨rfl, rfl, rfl, rfl, rfl, rfl⟩

@[simp] theorem advertised_state (t : Tcb) : t.advertised.state = t.state := by
  obtain ⟨x, hx⟩ := t.advertised_eq
  rw [hx]

@[simp] theorem advertised_sndUna (t : Tcb) : t.advertised.sndUna = t.sndUna := by
  obtain ⟨x, hx⟩ := t.advertised_eq
  rw [hx]

@[simp] theorem advertised_sndNxt (t : Tcb) : t.advertised.sndNxt = t.sndNxt := by
  obtain ⟨x, hx⟩ := t.advertised_eq
  rw [hx]

theorem acked_alike (t : Tcb) (s : Segment) : t.Alike (t.acked s) := by
  unfold acked
  split <;> exact ⟨rfl, rfl, rfl, rfl, rfl, rfl⟩

/-- Storing data changes the stream of the peer and the advertised window. They are kept abstract for
    the same reason. -/
theorem store_eq (t : Tcb) (s : Segment) :
    ∃ rx n x, (t.store s).1 = { t with rx := rx, rcvNxt := n, advWnd := x } := by
  unfold store
  split
  · exact ⟨_, _, t.advWnd, rfl⟩
  split
  · exact ⟨t.rx, t.rcvNxt, _, rfl⟩
  · exact ⟨t.rx, t.rcvNxt, t.advWnd, rfl⟩

theorem store_alike (t : Tcb) (s : Segment) : t.Alike (t.store s).1 := by
  obtain ⟨rx, n, x, hx⟩ := t.store_eq s
  rw [hx]
  exact ⟨rfl, rfl, rfl, rfl, rfl, rfl⟩

theorem finish_alike (t : Tcb) (s : Segment) : t.Alike (t.finish s) := by
  unfold finish
  split <;> exact ⟨rfl, rfl, rfl, rfl, rfl, rfl⟩

theorem answer_alike (t : Tcb) (s : Segment) : t.Alike (t.answer s).1 := by
  unfold answer
  split
  · exact t.advertised_alike
  · exact .rfl

theorem settle_alike (t : Tcb) : t.Alike t.settle := by
  unfold settle
  dsimp only
  split <;> split <;> exact ⟨rfl, rfl, rfl, rfl, rfl, rfl⟩

theorem deliver_alike (t : Tcb) (s : Segment) : t.Alike (t.deliver s).1 :=
  (((t.store_alike s).trans (finish_alike _ s)).trans (answer_alike _ s)).trans (settle_alike _)

theorem greet_alike (t : Tcb) (s : Segment) : t.Alike (t.greet s).1 := by
  unfold greet
  split
  · exact Alike.trans (u := { t with rcvNxt := s.seq + 1, sndUna := s.ackNo, state := .established })
      ⟨rfl, rfl, rfl, rfl, rfl, rfl⟩ (advertised_alike _)
  · exact .rfl

/-- A segment does not change which connection a control block is, nor its place in the table. -/
theorem input_alike (t : Tcb) (s : Segment) : t.Alike (t.input s).1 := by
  unfold input
  split
  · exact ⟨rfl, rfl, rfl, rfl, rfl, rfl⟩
  refine (t.acked_alike s).trans ?_
  dsimp only
  generalize t.acked s = u
  split
  · exact greet_alike u s
  · split
    · exact .rfl
    · exact Alike.trans (u := { u with state := .established }) ⟨rfl, rfl, rfl, rfl, rfl, rfl⟩
        (deliver_alike _ s)
  · exact deliver_alike u s
  · exact deliver_alike u s
  · exact deliver_alike u s
  · split <;> exact ⟨rfl, rfl, rfl, rfl, rfl, rfl⟩
  · exact .rfl

/-! ## The sending side -/

/-- The fields of the sending side that data and FIN do not touch. -/
structure Kept (t u : Tcb) : Prop where
  reset : u.reset = t.reset
  sndUna : u.sndUna = t.sndUna
  sndNxt : u.sndNxt = t.sndNxt
  sndWnd : u.sndWnd = t.sndWnd
  cwnd : u.cwnd = t.cwnd

theorem Kept.rfl : t.Kept t := ⟨.refl _, .refl _, .refl _, .refl _, .refl _⟩

theorem Kept.trans {u v : Tcb} (h : t.Kept u) (h' : u.Kept v) : t.Kept v :=
  ⟨h'.1.trans h.1, h'.2.trans h.2, h'.3.trans h.3, h'.4.trans h.4, h'.5.trans h.5⟩

theorem advertised_kept (t : Tcb) : t.Kept t.advertised := by
  obtain ⟨x, hx⟩ := t.advertised_eq
  rw [hx]
  exact ⟨rfl, rfl, rfl, rfl, rfl⟩

theorem store_kept (t : Tcb) (s : Segment) : t.Kept (t.store s).1 := by
  obtain ⟨rx, n, x, hx⟩ := t.store_eq s
  rw [hx]
  exact ⟨rfl, rfl, rfl, rfl, rfl⟩

theorem finish_kept (t : Tcb) (s : Segment) : t.Kept (t.finish s) := by
  unfold finish
  split <;> exact ⟨rfl, rfl, rfl, rfl, rfl⟩

theorem answer_kept (t : Tcb) (s : Segment) : t.Kept (t.answer s).1 := by
  unfold answer
  split
  · exact t.advertised_kept
  · exact .rfl

theorem settle_kept (t : Tcb) : t.Kept t.settle := by
  unfold settle
  dsimp only
  split <;> split <;> exact ⟨rfl, rfl, rfl, rfl, rfl⟩

theorem deliver_kept (t : Tcb) (s : Segment) : t.Kept (t.deliver s).1 :=
  (((t.store_kept s).trans (finish_kept _ s)).trans (answer_kept _ s)).trans (settle_kept _)

/-- Past its handshake, a connection's sending side changes by acknowledgements only. -/
theorem input_kept_acked (hrst : s.flags.rst = false) (hst : t.state ≠ .synSent) :
    (t.acked s).Kept (t.input s).1 := by
  have hacked : (t.acked s).state = t.state := by
    unfold acked
    split <;> rfl
  unfold input
  rw [if_neg (by simp [hrst])]
  dsimp only
  generalize t.acked s = u at hacked
  split
  · next h => exact absurd (hacked.symm.trans h) hst
  · split
    · exact .rfl
    · exact Kept.trans (u := { u with state := .established }) ⟨rfl, rfl, rfl, rfl, rfl⟩
        (deliver_kept _ s)
  · exact deliver_kept u s
  · exact deliver_kept u s
  · exact deliver_kept u s
  · split <;> exact ⟨rfl, rfl, rfl, rfl, rfl⟩
  · exact .rfl

/-! ## States -/

@[simp] theorem acked_state (t : Tcb) (s : Segment) : (t.acked s).state = t.state := by
  unfold acked
  split <;> rfl

@[simp] theorem store_state (t : Tcb) (s : Segment) : (t.store s).1.state = t.state := by
  obtain ⟨rx, n, x, hx⟩ := t.store_eq s
  rw [hx]

@[simp] theorem answer_state (t : Tcb) (s : Segment) : (t.answer s).1.state = t.state := by
  unfold answer
  split
  · exact t.advertised_state
  · rfl

theorem finish_state (t : Tcb) (s : Segment) :
    (t.finish s).state = t.state ∨ (t.finish s).state = finState t.state := by
  unfold finish
  split
  · exact Or.inr rfl
  · exact Or.inl rfl

theorem settle_state (t : Tcb) : t.settle.state = t.state ∨
    t.state = .finWait1 ∧ t.settle.state = .finWait2 ∨ t.state = .closing ∧ t.settle.state = .timeWait := by
  unfold settle
  dsimp only
  by_cases h1 : t.state = .finWait1 <;> by_cases h2 : t.sndUna = t.sndNxt <;> simp [h1, h2]
  by_cases h3 : t.state = .closing <;> simp [h3]

/-- The states data and FIN lead to. -/
theorem deliver_state (t : Tcb) (s : Segment) :
    (t.state = .established →
      (t.deliver s).1.state = .established ∨ (t.deliver s).1.state = .closeWait) ∧
    (t.state = .finWait1 → (t.deliver s).1.state = .finWait1 ∨ (t.deliver s).1.state = .finWait2 ∨
      (t.deliver s).1.state = .closing ∨ (t.deliver s).1.state = .timeWait) ∧
    (t.state = .finWait2 →
      (t.deliver s).1.state = .finWait2 ∨ (t.deliver s).1.state = .timeWait) := by
  have hfin := finish_state (t.store s).1 s
  have hset := settle_state (((t.store s).1.finish s).answer s).1
  rw [answer_state] at hset
  rw [store_state] at hfin
  have hd : (t.deliver s).1.state = (((t.store s).1.finish s).answer s).1.settle.state := rfl
  rw [hd]
  generalize (((t.store s).1.finish s).answer s).1.settle.state = c at hset
  generalize ((t.store s).1.finish s).state = b at hfin hset
  refine ⟨fun h => ?_, fun h => ?_, fun h => ?_⟩ <;> rw [h] at hfin <;>
    rcases hfin with rfl | rfl <;> rcases hset with rfl | ⟨h', rfl⟩ | ⟨h', rfl⟩ <;>
    simp_all [finState]

/-- Where a segment may lead from each state. -/
inductive Leads : State → State → Prop
  | stay (st : State) : Leads st st
  | reset (st : State) : Leads st .closed
  | greet : Leads .synSent .established
  | join : Leads .synReceived .established
  | joinFin : Leads .synReceived .closeWait
  | fin : Leads .established .closeWait
  | finAcked : Leads .finWait1 .finWait2
  | finCrossed : Leads .finWait1 .closing
  | finBoth : Leads .finWait1 .timeWait
  | finLast : Leads .finWait2 .timeWait

theorem Leads.ne_listen {a b : State} (h : Leads a b) (ha : a ≠ .listen) : b ≠ .listen := by
  cases h <;> simp_all

theorem Leads.ne_synReceived {a b : State} (h : Leads a b) (ha : a ≠ .synReceived) :
    b ≠ .synReceived := by
  cases h <;> simp_all

theorem Leads.ne_synSent {a b : State} (h : Leads a b) (ha : a ≠ .synSent) : b ≠ .synSent := by
  cases h <;> simp_all

theorem deliver_leads (t : Tcb) (s : Segment)
    (h : t.state = .established ∨ t.state = .finWait1 ∨ t.state = .finWait2) :
    Leads t.state (t.deliver s).1.state := by
  obtain ⟨h1, h2, h3⟩ := deliver_state t s
  rcases h with h | h | h
  · rcases h1 h with h' | h' <;> rw [h, h']
    · exact .stay _
    · exact .fin
  · rcases h2 h with h' | h' | h' | h' <;> rw [h, h']
    · exact .stay _
    · exact .finAcked
    · exact .finCrossed
    · exact .finBoth
  · rcases h3 h with h' | h' <;> rw [h, h']
    · exact .stay _
    · exact .finLast

theorem input_leads (t : Tcb) (s : Segment) : Leads t.state (t.input s).1.state := by
  unfold input
  split
  · exact .reset _
  dsimp only
  have hst := acked_state t s
  rw [← hst]
  generalize t.acked s = u
  split
  · next h =>
    unfold greet
    split
    · rw [h]
      exact .greet
    · exact .stay _
  · next h =>
    split
    · exact .stay _
    · rw [h]
      rcases (deliver_state { u with state := .established } s).1 rfl with h' | h' <;> rw [h']
      · exact .join
      · exact .joinFin
  · next h => exact deliver_leads u s (Or.inl h)
  · next h => exact deliver_leads u s (Or.inr (Or.inl h))
  · next h => exact deliver_leads u s (Or.inr (Or.inr h))
  · split
    · exact .reset _
    · exact .stay _
  · exact .stay _

/-- Whatever segments arrive, a control block keeps its addresses and its state moves along the
    arrows above. -/
theorem inputs_lead (t : Tcb) (ss : List Segment) :
    t.Alike (ss.foldl (fun u s => (u.input s).1) t) ∧
      Relation.ReflTransGen Leads t.state (ss.foldl (fun u s => (u.input s).1) t).state := by
  induction ss generalizing t with
  | nil => exact ⟨.rfl, .refl⟩
  | cons s ss ih => exact ⟨(t.input_alike s).trans (ih _).1, .head (t.input_leads s) (ih _).2⟩

theorem input_state_established (hr : s.flags.rst = false)
    (h : t.state = .established ∨ t.state = .closeWait) :
    (t.input s).1.state = .established ∨ (t.input s).1.state = .closeWait := by
  rw [← acked_state t s] at h
  unfold input
  rw [if_neg (by simp [hr])]
  dsimp only
  generalize t.acked s = u at h
  rcases h with h | h <;> rw [h]
  · exact (deliver_state u s).1 h
  · exact Or.inr h

@[simp] theorem acked_sndNxt (t : Tcb) (s : Segment) : (t.acked s).sndNxt = t.sndNxt := by
  unfold acked
  split <;> rfl

/-- A connection in its passive handshake completes it or stays in it. -/
theorem input_state_synReceived (hr : s.flags.rst = false) (h : t.state = .synReceived) :
    if t.joins s then (t.input s).1.state = .established ∨ (t.input s).1.state = .closeWait
    else (t.input s).1.state = .synReceived := by
  have hst : (t.acked s).state = .synReceived := by simpa using h
  have hin : t.input s = if !(s.flags.ack && s.ackNo = t.sndNxt) then (t.acked s, [])
      else deliver { t.acked s with state := .established } s := by
    unfold input
    rw [if_neg (by simp [hr])]
    dsimp only
    rw [hst, acked_sndNxt]
  have hj : t.joins s = (s.flags.ack && s.ackNo = t.sndNxt) := by simp [joins, hr, h]
  rw [hj, hin]
  cases (s.flags.ack && s.ackNo = t.sndNxt)
  · simpa using hst
  · simpa using (deliver_state { t.acked s with state := .established } s).1 rfl

end Tcb

end EmbLinkOs.Tcp
