import EmbLinkOs.Tcp.Sending

set_option autoImplicit false

/-! # Acknowledgements and recovery

Which acknowledgements move the sender, and what that means for a call of `net_tcp_send` on a network
that loses one segment. A peer that reassembles is a peer to which a segment that arrived ahead of
its stream arrives again when its turn comes, so the machine of `Sending` covers it.

`tcp_input` compares an acknowledgement with `snd_nxt`, which a timeout has pulled back to `snd_una`.
What was transmitted before the timeout can be acknowledged all the same, and such an
acknowledgement is refused. -/

namespace EmbLinkOs.Tcp

open List

open Serial History

/-- An acknowledgement beyond `snd_una` is taken where the segment is no RST and it is not beyond
    `snd_nxt`. -/
theorem Tcb.input_una_iff (t : Tcb) (s : Segment) (hack : s.flags.ack = true)
    (hgt : seqGt s.ackNo t.sndUna = true) :
    (t.input s).1.sndUna = s.ackNo ↔ s.flags.rst = false ∧ seqLeq s.ackNo t.sndNxt = true := by
  have hne : t.sndUna ≠ s.ackNo := by
    intro he
    simp [he, seqGt] at hgt
  by_cases hrst : s.flags.rst = true
  · have hin : (t.input s).1.sndUna = t.sndUna := by
      unfold Tcb.input
      rw [if_pos hrst]
    simp [hin, hne, hrst]
  rw [Bool.not_eq_true] at hrst
  have hacked : (t.acked s).sndUna = s.ackNo ↔ seqLeq s.ackNo t.sndNxt = true := by
    unfold Tcb.acked
    rw [if_pos hack]
    by_cases hle : seqLeq s.ackNo t.sndNxt = true <;> simp [hgt, hle, hne]
  -- In the handshake the number is `snd_nxt` itself.
  by_cases hst : t.state = .synSent
  · have hin : t.input s = (t.acked s).greet s := by
      unfold Tcb.input
      rw [if_neg (by simp [hrst])]
      dsimp only
      rw [Tcb.acked_state, hst]
    rw [hin, Tcb.greet]
    split
    · next hg =>
      simp only [Bool.and_eq_true, decide_eq_true_eq, Tcb.acked_sndNxt] at hg
      have hleq : seqLeq s.ackNo t.sndNxt = true := by simp [hg.2, seqLeq]
      simp [hrst, hleq]
    · simp [hacked, hrst]
  · have hsame : (t.input s).1.sndUna = (t.acked s).sndUna :=
      (Tcb.input_kept_acked hrst hst).sndUna
    rw [hsame, hacked]
    simp [hrst]

namespace Sending

/-! ## The acknowledgements of a run -/

/-- One past the last byte ever transmitted. -/
def World.transmitted (w : World) : Nat :=
  (w.wire.map fun s => if s.data = [] then 0 else (s.seq - w.first).toNat + s.data.length).foldr max 0

/-- The segment acknowledges something new, and nothing that was not transmitted. -/
def World.Acceptable (w : World) (s : Segment) (k : Nat) : Prop :=
  s.flags.ack = true ∧ seqGt (w.acknowledging s k).ackNo w.tcb.sndUna = true ∧
    min k w.stream.length ≤ w.transmitted

/-- An acceptable acknowledgement does not reach behind `snd_nxt` and resets nothing. -/
def World.Within (w : World) : Input → Prop
  | .segment s k => w.Acceptable s k →
    s.flags.rst = false ∧ seqLeq (w.acknowledging s k).ackNo w.tcb.sndNxt = true
  | _ => True

/-- What the network and the scheduler do while a call is under way. -/
inductive Move
  /-- The call goes on pushing. -/
  | push (now : UInt64)
  | arrive (j k : Nat)
  | segment (s : Segment) (k : Nat)
  /-- The peer acknowledges all it has, and the waiting call gets its turn. -/
  | wake (s : Segment) (now : UInt64)

def Move.inputs (w : World) : Move → List Input
  | .push now => [.resume now]
  | .arrive j k => [.arrive j k]
  | .segment s k => [.segment s k]
  | .wake s now => [.segment s w.stream.length, .resume now]

def network : Machine World Move Event := ⟨fun w m => machine.run w (m.inputs w)⟩

def Move.isTurn : Move → Bool
  | .push _ => true
  | .wake _ _ => true
  | _ => false

/-- The segment carries byte `p`. -/
def Carries (first : UInt32) (s : Segment) (p : Nat) : Bool :=
  (s.seq - first).toNat ≤ p && p < (s.seq - first).toNat + s.data.length

/-- The peer has reassembled everything but segment `l`. -/
def World.reassembled (w : World) (l : Nat) : Bool :=
  w.wire.zipIdx.all fun x => x.2 = l || !Carries w.first x.1 w.stream.length

/-- Segment `l` never arrives and all others do, with their acknowledgement, before the call is woken
    by progress or by its timer. -/
def World.prompt (l : Nat) (w : World) : Move → Bool
  | .push _ =>
    match w.call with
    | some { pc := .waiting _, .. } => false
    | _ => true
  | .arrive j _ => j ≠ l
  | .segment s _ => !s.flags.rst
  | .wake s now =>
    s.flags.ack && !s.flags.rst &&
      match w.call with
      | some { pc := .waiting v, lastProgress, .. } =>
        w.reassembled l &&
          ((w.tcb.input (w.acknowledging s w.stream.length)).1.sndUna ≠ v ||
            rtxTicks < now - lastProgress)
      | some { pc := .pushed _ _, .. } => false
      | none => true

/-! ## A call in flight -/

/-- The bytes handed to `tcp_seg` and not counted in `snd_nxt` yet. -/
def pending : Pc → Nat
  | .pushed _ chunk => chunk.toNat
  | .waiting _ => 0

/-- A call that sends `d` with `U` bytes acknowledged, `A` of them at its last look, `N` sent, and
    those from `U` to `E` on the wire. It has timed out once at most, and then what it has sent since
    is not the segment that was lost. -/
structure Ready (l : Nat) (first : UInt32) (d : Bytes) (wire : List Segment) (t : Tcb) (c : Send)
    (U N E A : Nat) : Prop where
  window : Window first d c t U N 0
  acked : A ≤ U
  reset : t.reset = false
  cwnd : t.cwnd ≠ 0 ∧ t.cwnd ≤ 65535
  tries : c.retransmits ≤ 1
  gone : c.retransmits = 1 → l < wire.length
  covered : ∀ p, U ≤ p → p < E → ∃ j s, wire[j]? = some s ∧ Carries first s p = true ∧
    (c.retransmits = 1 → j ≠ l)

/-- The call between two turns. -/
structure Flying (l : Nat) (first : UInt32) (d : Bytes) (wire : List Segment) (t : Tcb) (c : Send)
    (U N A : Nat) : Prop extends Ready l first d wire t c U N (N + pending c.pc) A where
  looked : A < d.length
  pushed : ∀ wnd chunk, c.pc = .pushed wnd chunk →
    wnd ≠ 0 ∧ chunk ≠ 0 ∧ N + chunk.toNat ≤ d.length
  waiting : ∀ v, c.pc = .waiting v →
    ∃ V, v = pos first V ∧ A ≤ V ∧ V ≤ U ∧ (N = d.length ∨ V < N)

section

variable {l U N E A : Nat} {first wnd : UInt32} {d : Bytes} {wire : List Segment} {t : Tcb}
  {c : Send}

/-- Only the counters and windows of a call and its connection matter. -/
theorem Ready.of_eq (h : Ready l first d wire t c U N E A) {t' : Tcb} {c' : Send}
    (hkept : t'.reset = t.reset ∧ t'.sndUna = t.sndUna ∧ t'.sndNxt = t.sndNxt)
    (hcwnd : t'.cwnd ≠ 0 ∧ t'.cwnd ≤ 65535)
    (hc : c'.base = c.base ∧ c'.data = c.data ∧ c'.retransmits = c.retransmits) :
    Ready l first d wire t' c' U N E A where
  window :=
    ⟨hkept.2.1.trans h.window.una, hkept.2.2.trans h.window.nxt, hc.1.trans h.window.base,
      h.window.order, h.window.small, h.window.data.trans hc.2.1.symm⟩
  acked := h.acked
  reset := hkept.1.trans h.reset
  cwnd := hcwnd
  tries := hc.2.2 ▸ h.tries
  gone := hc.2.2 ▸ h.gone
  covered := hc.2.2 ▸ h.covered

/-- A chunk is not empty where there is something to send and room for it. -/
theorem chunk_ne_zero (hoff : t.sndNxt - c.base < c.len) (hwnd : t.sndNxt - t.sndUna < wnd) :
    c.chunk t wnd ≠ 0 := by
  have hrest : c.len - (t.sndNxt - c.base) ≠ 0 := by
    intro h0
    have h1 := UInt32.toNat_sub_of_le _ _ (UInt32.le_of_lt hoff)
    have h2 : (t.sndNxt - c.base).toNat < c.len.toNat := hoff
    rw [h0] at h1
    simp at h1
    omega
  have hroom : wnd - (t.sndNxt - t.sndUna) ≠ 0 := by
    intro h0
    have h1 := UInt32.toNat_sub_of_le _ _ (UInt32.le_of_lt hwnd)
    have h2 : (t.sndNxt - t.sndUna).toNat < wnd.toNat := hwnd
    rw [h0] at h1
    simp at h1
    omega
  have hmost : (if mss < c.len - (t.sndNxt - c.base) then mss else c.len - (t.sndNxt - c.base)) ≠ 0 := by
    split
    · decide
    · exact hrest
  unfold Send.chunk
  dsimp only
  generalize (if mss < c.len - (t.sndNxt - c.base) then mss else c.len - (t.sndNxt - c.base)) = most at hmost
  split
  · exact hroom
  · exact hmost

/-- The segment of a chunk carries the bytes behind those sent. -/
theorem carries_chunk (h : Window first d c t U N 0) (hwnd : t.sndNxt - t.sndUna < wnd)
    (hoff : t.sndNxt - c.base < c.len) {p : Nat} (hp : N ≤ p)
    (hp' : p < N + (c.chunk t wnd).toNat) :
    Carries first (t.outgoing { psh := true, ack := true } t.sndNxt
      ((c.data.drop (t.sndNxt - c.base).toNat).take (c.chunk t wnd).toNat)) p = true := by
  obtain ⟨hmss, hend⟩ := h.chunk_le hwnd hoff
  have hsmall := h.small
  have hseq : (t.sndNxt - first).toNat = N := by
    have := pos_sub_toNat (f := first) (Nat.zero_le N) (show N < 2 ^ 32 by omega)
    rwa [pos_zero, ← h.nxt, Nat.sub_zero] at this
  have hoffN : (t.sndNxt - c.base).toNat = N := by simpa using h.off
  have hdata : c.data = d := by simpa using h.data.symm
  have hlen : (((c.data.drop (t.sndNxt - c.base).toNat).take (c.chunk t wnd).toNat).take
      mss.toNat).length = (c.chunk t wnd).toNat := by
    rw [hoffN, hdata, length_take, length_take, length_drop]
    omega
  simp only [Carries, Tcb.outgoing, hseq, hlen, Bool.and_eq_true, decide_eq_true_eq]
  exact ⟨hp, hp'⟩

/-- A turn of the inner loop leaves the call in flight. -/
theorem Ready.push (h : Ready l first d wire t c U N N A) (hA : A < d.length) (hwnd : wnd ≠ 0) :
    ∃ c', (c.push t wnd).call = some c' ∧ (c.push t wnd).result = none ∧
      c'.retransmits = c.retransmits ∧
      Flying l first d (wire ++ (c.push t wnd).out) (c.push t wnd).tcb c' U N A := by
  have hw := h.window
  have hord := hw.order
  unfold Send.push
  dsimp only
  split
  · next hstop =>
    refine ⟨_, rfl, rfl, rfl, ?_, hA, ?_, ?_⟩
    · rw [append_nil]
      exact h.of_eq ⟨rfl, rfl, rfl⟩ h.cwnd ⟨rfl, rfl, rfl⟩
    · intro wnd' chunk hpc
      simp at hpc
    · intro v hpc
      simp only [Pc.waiting.injEq] at hpc
      refine ⟨U, hpc ▸ hw.una, h.acked, le_rfl, ?_⟩
      -- The inner loop stops where all is sent or something is in flight.
      by_cases hoff : t.sndNxt - c.base < c.len
      · by_cases hfl : t.sndNxt - t.sndUna < wnd
        · have hchunk := chunk_ne_zero hoff hfl
          simp [hchunk, UInt32.not_le.2 hoff, UInt32.not_le.2 hfl] at hstop
        · have hle : wnd.toNat ≤ (t.sndNxt - t.sndUna).toNat := UInt32.not_lt.1 hfl
          have hpos : wnd.toNat ≠ 0 := fun h0 => hwnd (UInt32.toNat_inj.1 h0)
          rw [hw.inflight] at hle
          exact Or.inr (by omega)
      · have hle : c.len.toNat ≤ (t.sndNxt - c.base).toNat := UInt32.not_lt.1 hoff
        rw [hw.len, hw.off] at hle
        exact Or.inl (by omega)
  · next hgo =>
    simp only [Bool.or_eq_true, decide_eq_true_eq, not_or, UInt32.not_le] at hgo
    obtain ⟨⟨hoff, hfl⟩, hchunk⟩ := hgo
    obtain ⟨-, hend⟩ := hw.chunk_le hfl hoff
    obtain ⟨x, hx⟩ := t.advertised_eq
    refine ⟨_, rfl, rfl, rfl, ?_, hA, ?_, ?_⟩
    · have hr : Ready l first d wire t.advertised { c with pc := .pushed wnd (c.chunk t wnd) } U N N
          A := h.of_eq (by rw [hx]; exact ⟨rfl, rfl, rfl⟩) (by rw [hx]; exact h.cwnd) ⟨rfl, rfl, rfl⟩
      refine { hr with gone := ?_, covered := ?_ }
      · intro h1
        have := h.gone h1
        rw [length_append]
        omega
      · intro p hp hp'
        by_cases hpN : p < N
        · obtain ⟨j, s, hj, hs, hl⟩ := h.covered p hp hpN
          exact ⟨j, s, getElem?_append_left (List.getElem?_eq_some_iff.1 hj).1 ▸ hj, hs, hl⟩
        · refine ⟨wire.length, _, getElem?_concat_length, ?_, ?_⟩
          · exact carries_chunk hw hfl hoff (by omega) hp'
          · intro h1
            have := h.gone h1
            omega
    · intro wnd' chunk hpc
      simp only [Pc.pushed.injEq] at hpc
      rw [← hpc.1, ← hpc.2]
      exact ⟨hwnd, hchunk, hend⟩
    · intro v hpc
      simp at hpc

theorem window_ne_zero (h : t.cwnd ≠ 0) : Send.window t ≠ 0 := by
  have hpeer : (if t.sndWnd ≠ 0 then t.sndWnd else mss) ≠ 0 := by
    split
    · next hne => exact hne
    · decide
  unfold Send.window
  dsimp only
  generalize (if t.sndWnd ≠ 0 then t.sndWnd else mss) = wnd at hpeer
  split
  · exact h
  · exact hpeer

/-- How many turns are left: a timeout begins anew, a push sends more, and a wake has more
    acknowledged. -/
def rank (L tries N A : Nat) : Nat := (1 - tries) * (2 * L + 1) + (L - N) + (L - A)

/-- What a turn leaves: the call returns with everything acknowledged, or it flies on with `m` turns
    left. -/
def Goes (l : Nat) (first : UInt32) (d : Bytes) (wire : List Segment) (U m : Nat) (r : Turn) : Prop :=
  (r.call = none ∧ r.result = some (d.length : Int)) ∨
    ∃ c N A, r.call = some c ∧ r.result = none ∧ rank d.length c.retransmits N A ≤ m ∧
      Flying l first d (wire ++ r.out) r.tcb c U N A

/-- With everything acknowledged the loop ends and the call reports its length. -/
theorem loop_full (h : Window first d c t U N 0) (hU : U = d.length) :
    (c.loop t).call = none ∧ (c.loop t).result = some (d.length : Int) := by
  have hge : c.len.toNat ≤ (t.sndUna - c.base).toNat := by
    rw [h.len, h.done, hU]
  have hge' : c.len ≤ t.sndUna - c.base := hge
  unfold Send.loop
  rw [if_pos hge']
  refine ⟨rfl, ?_⟩
  simp only [Send.finish, Bool.false_and, Bool.false_eq_true, if_false, Option.some.injEq]
  rw [if_neg (UInt32.not_lt.2 hge), h.len]
  simp

theorem Ready.loop (h : Ready l first d wire t c U N N A) :
    Goes l first d wire U (rank d.length c.retransmits N A) (c.loop t) := by
  by_cases hU : U = d.length
  · exact Or.inl (loop_full h.window hU)
  · have hord := h.window.order
    have hlt : ¬ c.len ≤ t.sndUna - c.base := by
      intro hge
      have hge : c.len.toNat ≤ (t.sndUna - c.base).toNat := hge
      rw [h.window.len, h.window.done] at hge
      omega
    unfold Send.loop
    rw [if_neg hlt]
    obtain ⟨c', hcall, hres, htries, hfly⟩ := h.push (by have := h.acked; omega)
      (window_ne_zero h.cwnd.1)
    exact Or.inr ⟨c', N, A, hcall, hres, by rw [htries], hfly⟩

/-- The call goes on pushing. -/
theorem Flying.push (h : Flying l first d wire t c U N A) {chunk : UInt32}
    (hpc : c.pc = .pushed wnd chunk) (now : UInt64) :
    ∃ m < rank d.length c.retransmits N A, Goes l first d wire U m (c.resume t now) := by
  obtain ⟨hwnd, hchunk, hend⟩ := h.pushed wnd chunk hpc
  have hord := h.window.order
  have hpos : chunk.toNat ≠ 0 := fun h0 => hchunk (UInt32.toNat_inj.1 h0)
  have hr : Ready l first d wire { t with sndNxt := t.sndNxt + chunk } c U (N + chunk.toNat)
      (N + chunk.toNat) A := by
    refine ⟨⟨h.window.una, ?_, h.window.base, by omega, h.window.small, h.window.data⟩, h.acked,
      h.reset, h.cwnd, h.tries, h.gone, ?_⟩
    · rw [← pos_add, ← h.window.nxt]
    · have hcov := h.covered
      rw [hpc] at hcov
      exact hcov
  refine ⟨rank d.length c.retransmits (N + chunk.toNat) A, by unfold rank; omega, ?_⟩
  obtain ⟨c', hcall, hres, htries, hfly⟩ := hr.push h.looked hwnd
  unfold Send.resume
  rw [hpc]
  exact Or.inr ⟨c', _, A, hcall, hres, by rw [htries], hfly⟩

theorem opened_cwnd (h : t.cwnd ≠ 0 ∧ t.cwnd ≤ 65535) :
    (Send.opened t).cwnd ≠ 0 ∧ (Send.opened t).cwnd ≤ 65535 := by
  have hle : t.cwnd.toNat ≤ 65535 := h.2
  have hpos : t.cwnd.toNat ≠ 0 := fun h0 => h.1 (UInt32.toNat_inj.1 h0)
  have hgrown : ∀ x : UInt32, x.toNat ≤ 2 ^ 31 → t.cwnd + x ≠ 0 := by
    intro x hx h0
    have := congrArg UInt32.toNat h0
    rw [UInt32.toNat_add] at this
    simp at this
    omega
  have hslow : (mss * mss / t.cwnd + 1).toNat ≤ 2 ^ 31 := by
    have hdiv : (mss * mss / t.cwnd).toNat ≤ 1960000 := by
      rw [UInt32.toNat_div]
      exact Nat.div_le_self _ _
    rw [UInt32.toNat_add]
    have : (1 : UInt32).toNat = 1 := rfl
    omega
  have hnew : (if t.cwnd < t.ssthresh then t.cwnd + mss else t.cwnd + (mss * mss / t.cwnd + 1)) ≠ 0 := by
    split
    · exact hgrown mss (by decide)
    · exact hgrown _ hslow
  unfold Send.opened
  dsimp only
  generalize (if t.cwnd < t.ssthresh then t.cwnd + mss else t.cwnd + (mss * mss / t.cwnd + 1)) = x at hnew
  split
  · exact ⟨by decide, UInt32.le_refl _⟩
  · next hlt => exact ⟨hnew, UInt32.not_lt.1 hlt⟩

theorem backedOff_cwnd (t : Tcb) :
    (Send.backedOff t).cwnd ≠ 0 ∧ (Send.backedOff t).cwnd ≤ 65535 := by
  show mss ≠ 0 ∧ mss ≤ 65535
  decide

/-- The waiting call gets its turn when all but segment `l` has arrived and is acknowledged. -/
theorem Flying.wake (h : Flying l first d wire t c U N A) {v : UInt32} (hpc : c.pc = .waiting v)
    {now : UInt64} (hturn : t.sndUna ≠ v ∨ rtxTicks < now - c.lastProgress)
    (hlost : ∀ j s, wire[j]? = some s → j ≠ l → Carries first s U = false) :
    ∃ m < rank d.length c.retransmits N A, Goes l first d wire U m (c.resume t now) := by
  obtain ⟨V, rfl, hAV, hVU, hsent⟩ := h.waiting v hpc
  have hord := h.window.order
  have hsmall := h.window.small
  have hE : N + pending c.pc = N := by simp [hpc, pending]
  have hcov := h.covered
  rw [hE] at hcov
  have hready : Ready l first d wire t c U N N A := { h.toReady with covered := hcov }
  unfold Send.resume
  rw [hpc]
  dsimp only
  unfold Send.awake
  rw [if_neg (by simp [h.reset])]
  by_cases hprog : t.sndUna ≠ pos first V
  · -- progress: the call has looked at `U` acknowledged bytes
    rw [if_pos hprog]
    have hVlt : V < U := by
      rcases Nat.lt_or_ge V U with hlt | hge
      · exact hlt
      · exact absurd (by rw [h.window.una, show U = V by omega]) hprog
    refine ⟨rank d.length c.retransmits N U, by unfold rank; omega, ?_⟩
    have hr : Ready l first d wire (Send.opened t) { c with lastProgress := now } U N N A :=
      hready.of_eq ⟨rfl, rfl, rfl⟩ (opened_cwnd h.cwnd) ⟨rfl, rfl, rfl⟩
    exact Ready.loop { hr with acked := le_rfl }
  · rw [if_neg hprog, if_pos (hturn.resolve_left hprog)]
    rw [not_not] at hprog
    have hUV : U = V := pos_inj (by omega) (by omega) (h.window.una.symm.trans hprog)
    have hfew : ¬ retries < c.retransmits + 1 := by
      have := h.tries
      simp only [retries]
      omega
    rw [if_neg hfew]
    have hback : Window first d { c with retransmits := c.retransmits + 1, lastProgress := now }
        (Send.backedOff t) U U 0 :=
      ⟨h.window.una, h.window.una, h.window.base, by omega, hsmall, h.window.data⟩
    rcases Nat.lt_or_ge U N with hUN | hNU
    · -- the first byte in flight was in the lost segment, so this is the first timeout
      obtain ⟨j, s, hj, hs, hjl⟩ := hcov U le_rfl hUN
      have hj_eq : j = l := by
        by_contra hne
        simp [hlost j s hj hne] at hs
      have htries : c.retransmits = 0 := by
        have h1 := h.tries
        by_contra hne
        exact hjl (by omega) hj_eq
      have hl : l < wire.length := hj_eq ▸ (List.getElem?_eq_some_iff.1 hj).1
      refine ⟨rank d.length 1 U A, by unfold rank; rw [htries]; omega, ?_⟩
      have hr : Ready l first d wire (Send.backedOff t)
          { c with retransmits := c.retransmits + 1, lastProgress := now } U U U A :=
        ⟨hback, h.acked, h.reset, backedOff_cwnd t, by simp [htries], fun _ => hl,
          fun p hp hp' => by omega⟩
      have hgo := hr.loop
      dsimp only at hgo
      rw [htries] at hgo ⊢
      exact hgo
    · -- everything is acknowledged
      have hUd : U = d.length := by
        rcases hsent with hN | hlt <;> omega
      exact ⟨0, by have := h.looked; unfold rank; omega, Or.inl (loop_full hback hUd)⟩

end

/-! ## Runs -/

/-- The call under way has `m` turns left at most. -/
structure Flies (l : Nat) (d : Bytes) (h : List Event) (w : World) (c : Send) (U N A m : Nat) :
    Prop where
  inv : Inv h w d U N
  call : w.call = some c
  flying : Flying l w.first d w.wire w.tcb c U N A
  left : rank d.length c.retransmits N A ≤ m
  silent : ∀ n, .returned n ∉ h

/-- The call has returned its full length. -/
structure Done (d : Bytes) (h : List Event) (w : World) : Prop where
  call : w.call = none
  returned : .returned (d.length : Int) ∈ h
  only : ∀ n, .returned n ∈ h → n = d.length

def Aloft (l : Nat) (d : Bytes) (h : List Event) (w : World) (m : Nat) : Prop :=
  ∃ c U N A, Flies l d h w c U N A m

section

variable {l U N A m : Nat} {d : Bytes} {h : List Event} {w : World} {c : Send} {s : Segment}

/-- A turn of the call. -/
theorem Goes.turned {r : Turn} (hg : Goes l w.first d w.wire U m r)
    (hi : ∃ N', Inv (h ++ (w.turned r).2) (w.turned r).1 d U N') (hno : ∀ n, .returned n ∉ h) :
    Aloft l d (h ++ (w.turned r).2) (w.turned r).1 m ∨
      Done d (h ++ (w.turned r).2) (w.turned r).1 := by
  obtain ⟨N', hinv⟩ := hi
  rcases hg with ⟨hcall, hres⟩ | ⟨c, N, A, hcall, hres, hrank, hfly⟩
  · refine Or.inr ⟨hcall, ?_, ?_⟩
    · simp [World.turned, hres]
    · intro n hn
      simpa [World.turned, hres, hno] using hn
  · have hN : N = N' := by
      have h1 := hfly.window.order
      have h2 := hinv.order
      have h3 := hfly.window.small
      exact pos_inj (by omega) (by omega) (hfly.window.nxt.symm.trans hinv.nxt)
    subst hN
    refine Or.inl ⟨c, U, N, A, hinv, hcall, hfly, hrank, ?_⟩
    intro n hn
    simp [World.turned, hres, hno] at hn

/-- A segment of the peer, which may acknowledge more. -/
theorem Flies.segment (hf : Flies l d h w c U N A m) (hrst : s.flags.rst = false) (k : Nat) :
    ∃ U', U ≤ U' ∧ Flies l d (h ++ (w.step (.segment s k)).2) (w.step (.segment s k)).1 c U' N A m := by
  obtain ⟨U', hUU, hinv⟩ := hf.inv.segment s k
  have hkept := Tcb.input_kept_acked (t := w.tcb) (s := w.acknowledging s k) hrst hf.inv.state
  have hsame : (w.tcb.acked (w.acknowledging s k)).reset = w.tcb.reset ∧
      (w.tcb.acked (w.acknowledging s k)).cwnd = w.tcb.cwnd := by
    unfold Tcb.acked
    split <;> exact ⟨rfl, rfl⟩
  have hfly := hf.flying
  have hw := hfly.window
  have hord := hinv.order
  refine ⟨U', hUU, hinv, hf.call, ?_, hf.left, ?_⟩
  · refine
      { window := ⟨hinv.una, hinv.nxt, hw.base, by omega, hw.small, hw.data⟩
        acked := hfly.acked.trans hUU
        reset := (hkept.reset.trans hsame.1).trans hfly.reset
        cwnd := ?_
        tries := hfly.tries
        gone := ?_
        covered := ?_
        looked := hfly.looked
        pushed := hfly.pushed
        waiting := ?_ }
    · have hcwnd := hkept.cwnd.trans hsame.2
      show (w.tcb.input _).1.cwnd ≠ 0 ∧ (w.tcb.input _).1.cwnd ≤ 65535
      rw [hcwnd]
      exact hfly.cwnd
    · intro h1
      have := hfly.gone h1
      show l < (w.wire ++ _).length
      rw [length_append]
      omega
    · intro p hp hp'
      obtain ⟨j, o, hj, ho, hjl⟩ := hfly.covered p (by omega) hp'
      exact ⟨j, o, getElem?_append_left (List.getElem?_eq_some_iff.1 hj).1 ▸ hj, ho, hjl⟩
    · intro v hv
      obtain ⟨V, hV, hAV, hVU, hs⟩ := hfly.waiting v hv
      exact ⟨V, hV, hAV, by omega, hs⟩
  · intro n hn
    rcases mem_append.1 hn with hn | hn
    · exact hf.silent n hn
    · simp only [World.step] at hn
      rcases mem_append.1 hn with hn | hn
      · split at hn <;> simp at hn
      · simp at hn

theorem Flies.arrive (hf : Flies l d h w c U N A m) (j k : Nat) :
    Flies l d (h ++ (w.step (.arrive j k)).2) (w.step (.arrive j k)).1 c U N A m := by
  simp only [World.step]
  cases hj : w.wire[j]? with
  | none =>
    dsimp only
    rw [append_nil]
    exact hf
  | some s =>
    refine ⟨hf.inv.arrive (mem_of_getElem? hj) k, hf.call, hf.flying, hf.left, ?_⟩
    intro n hn
    simp [hf.silent] at hn

/-- The peer has nothing that was not transmitted. -/
theorem Inv.stream_le (hi : Inv h w d U N) : w.stream.length ≤ w.transmitted := by
  have hmax : ∀ xs : List Nat, ∀ x ∈ xs, x ≤ xs.foldr max 0 := by
    intro xs
    induction xs with
    | nil => simp
    | cons y ys ih =>
      intro x hx
      rcases mem_cons.1 hx with rfl | hx
      · exact le_max_left _ _
      · exact (ih x hx).trans (le_max_right _ _)
  refine hi.reach _ fun s hs hne => ?_
  refine hmax _ _ (mem_map.2 ⟨s, hs, ?_⟩)
  rw [if_neg hne]

/-- The acknowledgement of everything the peer has is taken. -/
theorem Flies.una_of_wake (hf : Flies l d h w c U N A m) (hd : d.length < 2 ^ 31)
    (hack : s.flags.ack = true) (hwithin : w.Within (.segment s w.stream.length)) :
    (w.step (.segment s w.stream.length)).1.tcb.sndUna = pos w.first w.stream.length := by
  have hR : U ≤ w.stream.length := hf.inv.acks.1.trans hf.inv.acks.2
  have hRd := hf.inv.stream.length_le
  have hdiff : (pos w.first w.stream.length - w.tcb.sndUna).toNat = w.stream.length - U := by
    rw [hf.inv.una, pos_sub_toNat hR (by omega)]
  have hno : (w.acknowledging s w.stream.length).ackNo = pos w.first w.stream.length := by
    simp [World.acknowledging]
  rcases Nat.lt_or_ge U w.stream.length with hlt | hge
  · have hgt : seqGt (w.acknowledging s w.stream.length).ackNo w.tcb.sndUna = true := by
      rw [hno]
      simp only [seqGt, Bool.and_eq_true, decide_eq_true_eq]
      refine ⟨?_, ?_⟩
      · intro h0
        rw [h0] at hdiff
        simp at hdiff
        omega
      · show (pos w.first w.stream.length - w.tcb.sndUna).toNat < 0x80000000
        omega
    have hle := hwithin ⟨hack, hgt, by simpa using hf.inv.stream_le⟩
    exact ((Tcb.input_una_iff w.tcb (w.acknowledging s w.stream.length) hack hgt).2 hle).trans hno
  · -- nothing new is acknowledged
    have hU : w.stream.length = U := by omega
    have hord := hf.inv.order
    have hu := acked_una hf.inv.una hf.inv.nxt hord.1 (by omega) (show U < 2 ^ 32 by omega)
      (show (w.acknowledging s w.stream.length).ackNo = pos w.first U by rw [hno, hU])
    have hsnd := input_snd w.tcb (w.acknowledging s w.stream.length) hf.inv.state
    have hend : pos w.first w.stream.length = pos w.first U := by rw [hU]
    rcases hsnd.2 with hsame | hmoved
    · exact (hsame.trans hf.inv.una).trans hend.symm
    · rcases hu with hu | ⟨-, -, hlt, -⟩
      · exact (hmoved.trans hu).trans hend.symm
      · omega

/-- A turn of the call that waits, after the peer has acknowledged all it has. -/
theorem Flies.wake (hf : Flies l d h w c U N A m) (hd : d.length < 2 ^ 31) {now : UInt64}
    (hprompt : w.prompt l (.wake s now) = true) (hwithin : w.Within (.segment s w.stream.length)) :
    ∃ m' < m, Aloft l d (h ++ (network.step w (.wake s now)).2) (network.step w (.wake s now)).1 m' ∨
      Done d (h ++ (network.step w (.wake s now)).2) (network.step w (.wake s now)).1 := by
  have hcall := hf.call
  obtain ⟨v, hv⟩ : ∃ v, c.pc = .waiting v := by
    cases hpc : c.pc with
    | waiting v => exact ⟨v, rfl⟩
    | pushed wnd chunk =>
      obtain ⟨data, base, tries, last, pc⟩ := c
      simp only at hpc
      simp [World.prompt, hcall, hpc] at hprompt
  have hp : s.flags.ack = true ∧ s.flags.rst = false ∧ w.reassembled l = true ∧
      ((w.tcb.input (w.acknowledging s w.stream.length)).1.sndUna ≠ v ∨
        rtxTicks < now - c.lastProgress) := by
    obtain ⟨data, base, tries, last, pc⟩ := c
    simp only at hv
    simpa [World.prompt, hcall, hv, and_assoc] using hprompt
  obtain ⟨hack, hrst, hre, hturn⟩ := hp
  obtain ⟨U', -, hf'⟩ := hf.segment hrst w.stream.length
  have huna := hf.una_of_wake hd hack hwithin
  set w' := (w.step (.segment s w.stream.length)).1 with hw'
  have hfirst : w'.first = w.first := rfl
  have hU' : U' = w.stream.length := by
    have h1 := hf'.inv.order
    have h2 := hf.inv.stream.length_le
    refine pos_inj (f := w.first) (by omega) (by omega) ?_
    rw [← huna, ← hfirst, hf'.inv.una]
  have hlost : ∀ j o, w'.wire[j]? = some o → j ≠ l → Carries w'.first o U' = false := by
    intro j o hj hjl
    have hmem : w'.wire = w.wire ++ (w.tcb.input (w.acknowledging s w.stream.length)).2 := rfl
    rw [hmem] at hj
    rcases Nat.lt_or_ge j w.wire.length with hlt | hge
    · rw [getElem?_append_left hlt] at hj
      have hall := all_eq_true.1 hre (o, j) (mem_zipIdx_iff_getElem?.2 (by simpa using hj))
      simpa [hjl, hU', hfirst] using hall
    · rw [getElem?_append_right hge] at hj
      have hnil := input_out _ _ o (mem_of_getElem? hj)
      simp [Carries, hnil]
  obtain ⟨m', hm', hg⟩ := hf'.flying.wake hv (hturn.imp_left fun hne => hne) hlost
  refine ⟨m', hm'.trans_le hf'.left, ?_⟩
  have hstep : network.step w (.wake s now) =
      ((w'.turned (c.resume w'.tcb now)).1,
        (w.step (.segment s w.stream.length)).2 ++ (w'.turned (c.resume w'.tcb now)).2) := by
    have hc' : w'.call = some c := hf'.call
    have hres : w'.step (.resume now) = w'.turned (c.resume w'.tcb now) := by
      simp only [World.step, hc']
    show machine.run w [.segment s w.stream.length, .resume now] = _
    rw [Machine.run_cons, Machine.run_cons, Machine.run_nil, append_nil]
    show ((w'.step (.resume now)).1, _ ++ (w'.step (.resume now)).2) = _
    rw [hres]
    rfl
  rw [hstep, ← append_assoc]
  exact hg.turned (hf'.inv.resume hf'.call now) hf'.silent

theorem Flies.push (hf : Flies l d h w c U N A m) {now : UInt64}
    (hprompt : w.prompt l (.push now) = true) :
    ∃ m' < m, Aloft l d (h ++ (network.step w (.push now)).2) (network.step w (.push now)).1 m' ∨
      Done d (h ++ (network.step w (.push now)).2) (network.step w (.push now)).1 := by
  have hcall := hf.call
  obtain ⟨wnd, chunk, hpc⟩ : ∃ wnd chunk, c.pc = .pushed wnd chunk := by
    cases hpc : c.pc with
    | pushed wnd chunk => exact ⟨wnd, chunk, rfl⟩
    | waiting v =>
      obtain ⟨data, base, tries, last, pc⟩ := c
      simp only at hpc
      simp [World.prompt, hcall, hpc] at hprompt
  obtain ⟨m', hm', hg⟩ := hf.flying.push hpc now
  refine ⟨m', hm'.trans_le hf.left, ?_⟩
  have hstep : network.step w (.push now) = w.turned (c.resume w.tcb now) := by
    show machine.run w [.resume now] = _
    rw [Machine.run_cons, Machine.run_nil, append_nil]
    show w.step (.resume now) = _
    simp only [World.step, hcall]
  rw [hstep]
  exact hg.turned (hf.inv.resume hcall now) hf.silent

/-- The steps considered: one segment is lost, and no acknowledgement reaches behind `snd_nxt`. -/
def World.Recovers (l : Nat) (w : World) (v : Move) : Prop :=
  w.prompt l v = true ∧ machine.Admits World.Within w (v.inputs w)

theorem Flies.step (hf : Flies l d h w c U N A m) (hd : d.length < 2 ^ 31) {v : Move}
    (hv : w.Recovers l v) :
    ∃ m', m' + v.isTurn.toNat ≤ m ∧
      (Aloft l d (h ++ (network.step w v).2) (network.step w v).1 m' ∨
        Done d (h ++ (network.step w v).2) (network.step w v).1) := by
  have hone : ∀ i, machine.run w [i] = w.step i := by
    intro i
    rw [Machine.run_cons, Machine.run_nil, append_nil]
    rfl
  cases v with
  | push now =>
    obtain ⟨m', hm', hgo⟩ := hf.push hv.1
    exact ⟨m', hm', hgo⟩
  | wake s now =>
    obtain ⟨m', hm', hgo⟩ := hf.wake hd hv.1 hv.2.1
    exact ⟨m', hm', hgo⟩
  | arrive j k =>
    refine ⟨m, le_rfl, Or.inl ⟨c, U, N, A, ?_⟩⟩
    show Flies l d (h ++ (machine.run w [.arrive j k]).2) (machine.run w [.arrive j k]).1 c U N A m
    rw [hone]
    exact hf.arrive j k
  | segment s k =>
    obtain ⟨U', -, hf'⟩ := hf.segment (s := s) (by simpa [World.prompt] using hv.1) k
    refine ⟨m, le_rfl, Or.inl ⟨c, U', N, A, ?_⟩⟩
    show Flies l d (h ++ (machine.run w [.segment s k]).2) (machine.run w [.segment s k]).1 c U' N A m
    rw [hone]
    exact hf'

/-- Nothing but a call makes a call, and nothing returns twice. -/
theorem Done.step (hdone : Done d h w) (v : Move) :
    Done d (h ++ (network.step w v).2) (network.step w v).1 := by
  have hinput : ∀ (w : World) (i : Input), (∀ d hd now, i ≠ .send d hd now) → w.call = none →
      (w.step i).1.call = none ∧ ∀ n, .returned n ∉ (w.step i).2 := by
    intro w i hi hc
    cases i with
    | send d hd now => exact absurd rfl (hi d hd now)
    | resume now => simp [World.step, hc]
    | arrive j k =>
      simp only [World.step]
      cases w.wire[j]? <;> simp [hc]
    | segment s k =>
      refine ⟨hc, fun n hn => ?_⟩
      simp only [World.step] at hn
      rcases mem_append.1 hn with hn | hn
      · split at hn <;> simp at hn
      · simp at hn
  have hrun : ∀ (is : List Input) (w : World), (∀ i ∈ is, ∀ d hd now, i ≠ .send d hd now) →
      w.call = none → (machine.run w is).1.call = none ∧ ∀ n, .returned n ∉ (machine.run w is).2 := by
    intro is
    induction is with
    | nil => intro w _ hc; exact ⟨hc, by simp⟩
    | cons i is ih =>
      intro w hi hc
      obtain ⟨h1, h2⟩ := hinput w i (hi i (by simp)) hc
      obtain ⟨h3, h4⟩ := ih (w.step i).1 (fun j hj => hi j (by simp [hj])) h1
      rw [Machine.run_cons]
      refine ⟨h3, fun n hn => ?_⟩
      rcases mem_append.1 hn with hn | hn
      · exact h2 n hn
      · exact h4 n hn
  obtain ⟨hc, hno⟩ := hrun (v.inputs w) w (by cases v <;> simp [Move.inputs]) hdone.call
  refine ⟨hc, mem_append_left _ hdone.returned, fun n hn => ?_⟩
  rcases mem_append.1 hn with hn | hn
  · exact hdone.only n hn
  · exact absurd hn (hno n)

def turns (vs : List Move) : Nat := vs.countP Move.isTurn

theorem Done.run (hdone : Done d h w) (vs : List Move) :
    Done d (h ++ (network.run w vs).2) (network.run w vs).1 :=
  Machine.run_invariant (fun _ _ v hdone => hdone.step v) vs h w hdone

end

/-- A connection whose call with the buffer `d` has had its first turn. -/
def begun (t : Tcb) (d : Bytes) (hd : d.length < 2 ^ 32) (now : UInt64) : World × List Event :=
  machine.step (opened t) (.send d hd now)

instance (w : World) : (i : Input) → Decidable (w.Within i)
  | .segment _ _ => inferInstanceAs (Decidable (_ ∧ _ ∧ _ → _))
  | .send _ _ _ => .isTrue trivial
  | .resume _ => .isTrue trivial
  | .arrive _ _ => .isTrue trivial

instance (l : Nat) (w : World) (v : Move) : Decidable (w.Recovers l v) :=
  inferInstanceAs (Decidable (_ ∧ _))

/-- An acknowledgement with a large window. -/
def wide : Segment := ⟨80, 40000, 0, 0, { ack := true }, 65535, []⟩

/-- The one byte of a call is lost and sent again. -/
def recovery : List Move :=
  [.push 0, .wake wide 51, .push 51, .arrive 1 1, .wake wide 52, .push 52, .push 52]

/-- One byte more than a segment. -/
def long : Bytes := List.replicate 1401 7

end Sending

end EmbLinkOs.Tcp
