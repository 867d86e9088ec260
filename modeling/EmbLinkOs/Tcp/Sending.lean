import EmbLinkOs.Lib.Serial
import EmbLinkOs.Tcp.Transitions

set_option autoImplicit false

/-! # Sending is exact

One established connection with its calls of `net_tcp_send`, a network that drops, delays and
duplicates segments, and a peer that takes the bytes of a segment that come next in its stream and
acknowledges what it has taken. Bytes are counted from the first one the connection may send; the
word of byte `n` is `pos first n`.

A call windows over its own buffer from `snd_nxt` on, so it has to begin where everything transmitted
before is acknowledged. After a call whose retransmissions ran out this is not so, and nothing in
`net_tcp_send` checks it. -/

namespace EmbLinkOs.Tcp

open List

open Serial History

namespace Sending

/-- The connection, the call under way, the segments on the wire and what the peer has taken. -/
structure World where
  tcb : Tcb
  call : Option Send
  first : UInt32
  wire : List Segment
  stream : Bytes

inductive Input
  | send (d : Bytes) (h : d.length < 2 ^ 32) (now : UInt64)
  | resume (now : UInt64)
  /-- The `j`-th transmitted segment reaches the peer, which takes at most `k` new bytes of it. -/
  | arrive (j k : Nat)
  /-- A segment of the peer, which acknowledges at most `k` of the bytes it has taken. -/
  | segment (s : Segment) (k : Nat)

inductive Event
  | call (d : Bytes)
  | sent (s : Segment)
  | took (b : Bytes)
  | ack (n : Nat)
  | returned (n : Int)
  deriving DecidableEq

namespace World

/-- The world after a turn of the call. -/
def turned (w : World) (r : Turn) : World × List Event :=
  ({ w with tcb := r.tcb, call := r.call, wire := w.wire ++ r.out },
    r.out.map .sent ++ (r.result.map Event.returned).toList)

/-- The bytes of a segment that come next in the peer's stream. -/
def fresh (w : World) (s : Segment) : Bytes :=
  s.data.drop (pos w.first w.stream.length - s.seq).toNat

/-- The segment with the acknowledgement of the first `k` bytes. -/
def acknowledging (w : World) (s : Segment) (k : Nat) : Segment :=
  { s with ackNo := pos w.first (min k w.stream.length) }

def step (w : World) : Input → World × List Event
  | .send d _ now =>
    if w.call.isSome then (w, [])
    else
      let r := w.turned (w.tcb.send d now)
      (r.1, .call d :: r.2)
  | .resume now =>
    match w.call with
    | none => (w, [])
    | some c => w.turned (c.resume w.tcb now)
  | .arrive j k =>
    match w.wire[j]? with
    | none => (w, [])
    | some s => ({ w with stream := w.stream ++ (w.fresh s).take k }, [.took ((w.fresh s).take k)])
  | .segment s k =>
    let r := w.tcb.input (w.acknowledging s k)
    ({ w with tcb := r.1, wire := w.wire ++ r.2 },
      (if s.flags.ack then [.ack (min k w.stream.length)] else []) ++ r.2.map .sent)

end World

/-- A connection with its peer. -/
def machine : Machine World Input Event := ⟨World.step⟩

/-! ## The property -/

/-- How many bytes the acknowledgements that arrived cover. -/
def acked : List Event → Nat
  | [] => 0
  | .ack n :: h => max n (acked h)
  | _ :: h => acked h

/-- The stream the peer has taken. -/
def taken : List Event → Bytes
  | [] => []
  | .took b :: h => b ++ taken h
  | _ :: h => taken h

def Event.isCall : Event → Bool
  | .call _ => true
  | _ => false

/-- A call with the buffer `d` that began after `pre` may return `n` after `past`. -/
def Reports (pre : List Event) (d : Bytes) (past : List Event) (n : Int) : Prop :=
  0 < n → ∃ m : Nat, n = m ∧ m ≤ d.length ∧ acked pre + m ≤ acked past ∧
    ((taken past).drop (acked pre)).take m = d.take m

/-- A history in which every call reported what the peer had. -/
structure Exact (h : List Event) : Prop where
  /-- Bytes transmitted with one sequence number are equal. -/
  same : ∀ s₁ s₂, .sent s₁ ∈ h → .sent s₂ ∈ h → ∀ i j, i < s₁.data.length → j < s₂.data.length →
    pos s₁.seq i = pos s₂.seq j → s₁.data[i]? = s₂.data[j]?
  /-- A call that returns `n > 0` has had its first `n` bytes acknowledged, as the bytes behind those
      acknowledged before it began. -/
  returns : ∀ pre d mid n post, h = pre ++ .call d :: (mid ++ .returned n :: post) →
    (∀ e ∈ mid, e.isCall = false) → Reports pre d (pre ++ .call d :: mid) n

/-- Everything transmitted is acknowledged. -/
def World.Drained (w : World) : Prop :=
  w.tcb.sndUna = w.tcb.sndNxt ∧
    ∀ s ∈ w.wire, s.data ≠ [] →
      (s.seq - w.first).toNat + s.data.length ≤ (w.tcb.sndUna - w.first).toNat

/-- The steps considered: a call that gets as far as sending begins where everything transmitted
    before is acknowledged, and the bytes of the connection fit its sequence numbers. -/
def World.Sane (w : World) : Input → Prop
  | .send d _ _ => w.call = none → w.tcb.state = .established ∨ w.tcb.state = .closeWait →
    w.Drained ∧ (w.tcb.sndUna - w.first).toNat + d.length < 2 ^ 32
  | _ => True

/-! ## Positions -/

/-- The segment is a stretch of `text`. -/
def Stretch (first : UInt32) (text : Bytes) (s : Segment) : Prop :=
  s.data = [] ∨ ∃ p, s.seq = pos first p ∧ p + s.data.length ≤ text.length ∧
    s.data = (text.drop p).take s.data.length

theorem Stretch.getElem {first : UInt32} {text : Bytes} {s : Segment} (h : Stretch first text s)
    {i : Nat} (hi : i < s.data.length) :
    ∃ p, s.seq = pos first p ∧ p + i < text.length ∧ s.data[i]? = text[p + i]? := by
  rcases h with h | ⟨p, hp, hlen, hdata⟩
  · simp [h] at hi
  · refine ⟨p, hp, by omega, ?_⟩
    rw [hdata, getElem?_take_of_lt hi, getElem?_drop]

/-- Stretches of one text agree. -/
theorem Stretch.agree {first : UInt32} {text : Bytes} (ht : text.length < 2 ^ 32) {s₁ s₂ : Segment}
    (h₁ : Stretch first text s₁) (h₂ : Stretch first text s₂) {i j : Nat} (hi : i < s₁.data.length)
    (hj : j < s₂.data.length) (hpos : pos s₁.seq i = pos s₂.seq j) : s₁.data[i]? = s₂.data[j]? := by
  obtain ⟨p, hp, hpl, hpe⟩ := h₁.getElem hi
  obtain ⟨q, hq, hql, hqe⟩ := h₂.getElem hj
  have hsame : pos first (p + i) = pos first (q + j) := by
    rw [← pos_add_ofNat, ← pos_add_ofNat, ← hp, ← hq]
    exact hpos
  rw [hpe, hqe, pos_inj (by omega) (by omega) hsame]

/-- A text may grow behind what was transmitted, and lose what was not. -/
theorem Stretch.congr {first : UInt32} {text text' : Bytes} {s : Segment} {n : Nat}
    (h : Stretch first text s) (hn : text.take n = text'.take n) (hn' : n ≤ text'.length)
    (ht : text.length < 2 ^ 32)
    (hs : s.data ≠ [] → (s.seq - first).toNat + s.data.length ≤ n) : Stretch first text' s := by
  rcases h with h | ⟨p, hp, hlen, hdata⟩
  · exact Or.inl h
  by_cases hempty : s.data = []
  · exact Or.inl hempty
  have hend := hs hempty
  have hpos : (s.seq - first).toNat = p := by
    have := pos_sub_toNat (f := first) (Nat.zero_le p) (show p < 2 ^ 32 by omega)
    rwa [pos_zero, ← hp, Nat.sub_zero] at this
  rw [hpos] at hend
  refine Or.inr ⟨p, hp, by omega, ?_⟩
  have hcut : ∀ x : Bytes, (x.drop p).take s.data.length = ((x.take n).drop p).take s.data.length := by
    intro x
    rw [drop_take, take_take]
    congr 1
    omega
  rw [hcut text', ← hn, ← hcut text]
  exact hdata

/-! ## One turn of a call -/

/-- The call's buffer is `text` from `B` on, and the connection has `U` bytes acknowledged and `N`
    sent. -/
structure Window (first : UInt32) (text : Bytes) (c : Send) (t : Tcb) (U N B : Nat) : Prop where
  una : t.sndUna = pos first U
  nxt : t.sndNxt = pos first N
  base : c.base = pos first B
  order : B ≤ U ∧ U ≤ N ∧ N ≤ text.length
  small : text.length < 2 ^ 32
  data : text.drop B = c.data

/-- The chunk the call has handed to `tcp_seg` lies in its buffer. -/
def PcOk (text : Bytes) (N : Nat) (c : Send) : Prop :=
  ∀ wnd chunk, c.pc = .pushed wnd chunk → N + chunk.toNat ≤ text.length

/-- What a turn leaves. -/
structure TurnOk (first : UInt32) (text : Bytes) (c : Send) (t : Tcb) (U B : Nat) (r : Turn) : Prop where
  una : r.tcb.sndUna = pos first U
  state : r.tcb.state = t.state
  nxt : ∃ N, r.tcb.sndNxt = pos first N ∧ U ≤ N ∧ N ≤ text.length ∧
    ∀ c', r.call = some c' → c'.data = c.data ∧ c'.base = c.base ∧ PcOk text N c'
  out : ∀ s ∈ r.out, Stretch first text s
  result : ∀ n, r.result = some n → 0 < n → n = (U - B : Nat)

section

variable {first : UInt32} {text : Bytes} {c : Send} {t : Tcb} {U N B : Nat}

theorem Window.len (h : Window first text c t U N B) : c.len.toNat = text.length - B := by
  have hlen : c.data.length = text.length - B := by rw [← h.data, length_drop]
  have := h.small
  rw [Send.len, UInt32.toNat_ofNat', hlen]
  omega

theorem Window.off (h : Window first text c t U N B) : (t.sndNxt - c.base).toNat = N - B := by
  have := h.order
  have := h.small
  rw [h.nxt, h.base, pos_sub_toNat (by omega) (by omega)]

theorem Window.inflight (h : Window first text c t U N B) : (t.sndNxt - t.sndUna).toNat = N - U := by
  have := h.order
  have := h.small
  rw [h.nxt, h.una, pos_sub_toNat (by omega) (by omega)]

theorem Window.done (h : Window first text c t U N B) : (t.sndUna - c.base).toNat = U - B := by
  have := h.order
  have := h.small
  rw [h.una, h.base, pos_sub_toNat (by omega) (by omega)]

/-- A chunk is at most a segment long and ends in the buffer. -/
theorem Window.chunk_le (h : Window first text c t U N B) {wnd : UInt32}
    (hwnd : t.sndNxt - t.sndUna < wnd) (hoff : t.sndNxt - c.base < c.len) :
    (c.chunk t wnd).toNat ≤ mss.toNat ∧ N + (c.chunk t wnd).toNat ≤ text.length := by
  have hN := h.order
  have hlen := h.len
  have hoffN := h.off
  have hrest : (c.len - (t.sndNxt - c.base)).toNat = text.length - N := by
    rw [UInt32.toNat_sub_of_le _ _ (UInt32.le_of_lt hoff), hlen, hoffN]
    omega
  unfold Send.chunk
  dsimp only
  set inflight := t.sndNxt - t.sndUna
  set most := if mss < c.len - (t.sndNxt - c.base) then mss else c.len - (t.sndNxt - c.base) with hmost
  have hmost_le : most.toNat ≤ mss.toNat ∧ most.toNat ≤ text.length - N := by
    rw [hmost]
    split
    · next hlt =>
      have : mss.toNat < (c.len - (t.sndNxt - c.base)).toNat := hlt
      omega
    · next hle =>
      have : (c.len - (t.sndNxt - c.base)).toNat ≤ mss.toNat := UInt32.not_lt.1 hle
      omega
  split
  · -- the window ends in the chunk, which the sum cannot hide by wrapping
    next hlt =>
    have hlt : wnd.toNat < (inflight + most).toNat := hlt
    have hsum : (inflight + most).toNat ≤ inflight.toNat + most.toNat := by
      rw [UInt32.toNat_add]
      exact Nat.mod_le _ _
    have hcut : (wnd - inflight).toNat = wnd.toNat - inflight.toNat := 
      UInt32.toNat_sub_of_le _ _ (UInt32.le_of_lt hwnd)
    omega
  · omega

theorem Window.turn (h : Window first text c t U N B) {r : Turn} (htcb : r.tcb.sndUna = t.sndUna)
    (hnxt : r.tcb.sndNxt = t.sndNxt) (hst : r.tcb.state = t.state) (hres : r.result = none)
    (hcall : ∀ c', r.call = some c' → c'.data = c.data ∧ c'.base = c.base ∧ PcOk text N c')
    (hout : ∀ s ∈ r.out, Stretch first text s) : TurnOk first text c t U B r where
  una := htcb.trans h.una
  state := hst
  nxt := ⟨N, hnxt.trans h.nxt, h.order.2.1, h.order.2.2, hcall⟩
  out := hout
  result n hn := by simp [hres] at hn

theorem push_ok (h : Window first text c t U N B) (wnd : UInt32) :
    TurnOk first text c t U B (c.push t wnd) := by
  unfold Send.push
  dsimp only
  split
  · refine h.turn rfl rfl rfl rfl (fun c' hc => ?_) (by simp)
    obtain rfl := Option.some.inj hc
    exact ⟨rfl, rfl, fun wnd chunk hpc => by simp at hpc⟩
  · next hgo =>
    simp only [Bool.or_eq_true, decide_eq_true_eq, not_or, UInt32.not_le] at hgo
    obtain ⟨hmss, hend⟩ := h.chunk_le hgo.1.2 hgo.1.1
    refine h.turn t.advertised_sndUna t.advertised_sndNxt t.advertised_state rfl (fun c' hc => ?_) fun s hs => ?_
    · obtain rfl := Option.some.inj hc
      refine ⟨rfl, rfl, fun wnd chunk hpc => ?_⟩
      simp only [Pc.pushed.injEq] at hpc
      rw [← hpc.2]
      exact hend
    · obtain rfl := mem_singleton.1 hs
      have hdata : (c.data.drop (t.sndNxt - c.base).toNat).take (c.chunk t wnd).toNat =
          (text.drop N).take (c.chunk t wnd).toNat := by
        have := h.order
        rw [h.off, ← h.data, drop_drop]
        congr 2
        omega
      have hlen : ((text.drop N).take (c.chunk t wnd).toNat).length = (c.chunk t wnd).toNat := by
        rw [length_take, length_drop]
        omega
      refine Or.inr ⟨N, h.nxt, ?_, ?_⟩
      · simp only [Tcb.outgoing]
        rw [hdata, length_take, hlen]
        omega
      · simp only [Tcb.outgoing]
        rw [hdata, take_of_length_le (by omega), hlen]

theorem finish_ok (h : Window first text c t U N B) (failed : Bool) :
    TurnOk first text c t U B (c.finish t failed) where
  una := h.una
  state := rfl
  nxt := ⟨N, h.nxt, h.order.2.1, h.order.2.2, fun c' hc => by simp [Send.finish] at hc⟩
  out := by simp [Send.finish]
  result n hn hpos := by
    have hlen := h.len
    have hdone := h.done
    have hord := h.order
    simp only [Send.finish, Option.some.injEq] at hn
    split at hn
    · omega
    split at hn
    · rw [← hn, hdone]
    · next hge =>
      have hge : c.len.toNat ≤ (t.sndUna - c.base).toNat := UInt32.not_lt.1 hge
      rw [← hn]
      omega

theorem loop_ok (h : Window first text c t U N B) : TurnOk first text c t U B (c.loop t) := by
  unfold Send.loop
  split
  · exact finish_ok h false
  · exact push_ok h _

theorem awake_ok (h : Window first text c t U N B) (unaBefore : UInt32) (now : UInt64) :
    TurnOk first text c t U B (c.awake t unaBefore now) := by
  unfold Send.awake
  split
  · exact finish_ok h true
  split
  · have hw : Window first text { c with lastProgress := now } (Send.opened t) U N B :=
      ⟨h.una, h.nxt, h.base, h.order, h.small, h.data⟩
    have hok := loop_ok hw
    exact ⟨hok.una, hok.state, hok.nxt, hok.out, hok.result⟩
  split
  · split
    · have hw : Window first text { c with retransmits := c.retransmits + 1 } t U N B :=
        ⟨h.una, h.nxt, h.base, h.order, h.small, h.data⟩
      have hok := finish_ok hw true
      exact ⟨hok.una, hok.state, hok.nxt, hok.out, hok.result⟩
    · have hord := h.order
      have hw : Window first text { c with retransmits := c.retransmits + 1, lastProgress := now }
          (Send.backedOff t) U U B :=
        ⟨h.una, h.una, h.base, by omega, h.small, h.data⟩
      have hok := loop_ok hw
      exact ⟨hok.una, hok.state, hok.nxt, hok.out, hok.result⟩
  · exact loop_ok h

theorem resume_ok (h : Window first text c t U N B) (hpc : PcOk text N c) (now : UInt64) :
    TurnOk first text c t U B (c.resume t now) := by
  unfold Send.resume
  split
  · next wnd chunk hc =>
    have hord := h.order
    have hend := hpc wnd chunk hc
    have hw : Window first text c { t with sndNxt := t.sndNxt + chunk } U (N + chunk.toNat) B :=
      ⟨h.una, by rw [← pos_add, ← h.nxt], h.base, by omega, h.small, h.data⟩
    have hok := push_ok hw wnd
    exact ⟨hok.una, hok.state, hok.nxt, hok.out, hok.result⟩
  · next unaBefore _ => exact awake_ok h unaBefore now

end

/-! ## The peer's segments -/

section

variable {first : UInt32} {t : Tcb} {U N : Nat}

/-- Past its handshake, a connection's place in its own stream changes by acknowledgements only. -/
theorem input_snd (t : Tcb) (s : Segment) (hst : t.state ≠ .synSent) :
    (t.input s).1.sndNxt = t.sndNxt ∧
      ((t.input s).1.sndUna = t.sndUna ∨ (t.input s).1.sndUna = (t.acked s).sndUna) := by
  by_cases hrst : s.flags.rst = true
  · unfold Tcb.input
    rw [if_pos hrst]
    exact ⟨rfl, Or.inl rfl⟩
  · have hkept := t.input_kept_acked (by simpa using hrst) hst
    exact ⟨hkept.sndNxt.trans (t.acked_sndNxt s), Or.inr hkept.sndUna⟩

/-- The answers to a segment carry no data. -/
theorem input_out (t : Tcb) (s : Segment) : ∀ o ∈ (t.input s).2, o.data = [] := by
  have hpure : ∀ u : Tcb, u.pureAck.data = [] := fun u => by simp [Tcb.pureAck, Tcb.outgoing]
  have hdeliver : ∀ u : Tcb, ∀ o ∈ (u.deliver s).2, o.data = [] := by
    intro u o ho
    rcases mem_append.1 ho with ho | ho
    · unfold Tcb.store at ho
      split at ho
      · simp at ho
      split at ho
      · rw [mem_singleton.1 ho, hpure]
      · simp at ho
    · unfold Tcb.answer at ho
      split at ho
      · rw [mem_singleton.1 ho, hpure]
      · simp at ho
  unfold Tcb.input
  split
  · simp
  dsimp only
  split
  · unfold Tcb.greet
    split
    · intro o ho
      rw [mem_singleton.1 ho, hpure]
    · simp
  · split
    · simp
    · exact hdeliver _
  · exact hdeliver _
  · exact hdeliver _
  · exact hdeliver _
  · simp
  · simp

/-- An acknowledgement of `k` bytes is taken where it lies between what is acknowledged and what is
    sent, and not otherwise. -/
theorem acked_una (hu : t.sndUna = pos first U) (hn : t.sndNxt = pos first N) (hUN : U ≤ N)
    (hN : N < 2 ^ 32) {s : Segment} {k : Nat} (hk : k < 2 ^ 32) (hs : s.ackNo = pos first k) :
    (t.acked s).sndUna = pos first U ∨
      s.flags.ack = true ∧ (t.acked s).sndUna = pos first k ∧ U < k ∧ k ≤ N := by
  unfold Tcb.acked
  split
  swap
  · exact Or.inl hu
  next hack =>
  dsimp only
  split
  · next hcmp =>
    simp only [seqGt, seqLeq, Bool.and_eq_true, Bool.or_eq_true, decide_eq_true_eq, hs, hu, hn] at hcmp
    exact Or.inr ⟨hack, hs, between_of_compare hUN hN hk hcmp.1.1 hcmp.1.2 hcmp.2⟩
  · exact Or.inl hu

end

/-! ## The invariant -/

/-- What a call may return after `past`. -/
def Lawful (past : List Event) : Event → Prop
  | .returned n => ∀ pre d mid, past = pre ++ .call d :: mid → (∀ e ∈ mid, e.isCall = false) →
    Reports pre d past n
  | _ => True

/-- The call under way is the last one of the history, and its buffer is the end of the text. -/
structure Running (h : List Event) (w : World) (text : Bytes) (U N : Nat) (c : Send) : Prop where
  pc : PcOk text N c
  began : ∃ pre mid, h = pre ++ .call c.data :: mid ∧ (∀ e ∈ mid, e.isCall = false) ∧
    c.base = pos w.first (acked pre) ∧ acked pre ≤ U ∧ text.drop (acked pre) = c.data

/-- `text` is what the connection has made of its sequence numbers: every transmitted segment is a
    stretch of it and the peer's stream is a prefix of it. `U` bytes are acknowledged and `N` sent. -/
structure Inv (h : List Event) (w : World) (text : Bytes) (U N : Nat) : Prop where
  una : w.tcb.sndUna = pos w.first U
  nxt : w.tcb.sndNxt = pos w.first N
  order : U ≤ N ∧ N ≤ text.length
  small : text.length < 2 ^ 32
  state : w.tcb.state ≠ .synSent
  wire : ∀ s ∈ w.wire, Stretch w.first text s
  stream : w.stream <+: text
  reach : ∀ n, (∀ s ∈ w.wire, s.data ≠ [] → (s.seq - w.first).toNat + s.data.length ≤ n) →
    w.stream.length ≤ n
  acks : U ≤ acked h ∧ acked h ≤ w.stream.length
  taken : taken h = w.stream
  sent : ∀ s, .sent s ∈ h → s ∈ w.wire
  lawful : Justified Lawful [] h
  call : ∀ c, w.call = some c → Running h w text U N c

theorem acked_append (h e : List Event) : acked (h ++ e) = max (acked h) (acked e) := by
  induction h with
  | nil => simp [acked]
  | cons x h ih => cases x <;> simp [acked, ih, max_assoc]

theorem taken_append (h e : List Event) : taken (h ++ e) = taken h ++ taken e := by
  induction h with
  | nil => simp [taken]
  | cons x h ih => cases x <;> simp [taken, ih]

/-- The events of a turn. -/
theorem turn_events (r : Turn) :
    acked (r.out.map .sent ++ (r.result.map Event.returned).toList) = 0 ∧
      taken (r.out.map .sent ++ (r.result.map Event.returned).toList) = [] ∧
      ∀ e ∈ r.out.map Event.sent ++ (r.result.map Event.returned).toList, e.isCall = false := by
  have hout : ∀ o : List Segment, acked (o.map .sent) = 0 ∧ taken (o.map .sent) = [] := by
    intro o
    induction o with
    | nil => exact ⟨rfl, rfl⟩
    | cons x o ih => exact ih
  rw [acked_append, taken_append, (hout _).1, (hout _).2]
  cases r.result with
  | none =>
    refine ⟨rfl, rfl, fun e he => ?_⟩
    obtain ⟨s, -, rfl⟩ := mem_map.1 (by simpa using he)
    rfl
  | some n =>
    refine ⟨rfl, rfl, fun e he => ?_⟩
    rcases mem_append.1 he with he | he
    · obtain ⟨s, -, rfl⟩ := mem_map.1 he
      rfl
    · obtain rfl := mem_singleton.1 he
      rfl

/-- The last call of a history is one. -/
theorem last_call {pre pre' mid mid' : List Event} {d d' : Bytes}
    (h : pre ++ .call d :: mid = pre' ++ .call d' :: mid') (hm : ∀ e ∈ mid, e.isCall = false)
    (hm' : ∀ e ∈ mid', e.isCall = false) : pre = pre' ∧ d = d' := by
  rcases split_cases h with ⟨h1, h2, -⟩ | ⟨c, -, rfl⟩ | ⟨c, -, rfl⟩
  · exact ⟨h1, by simpa using h2⟩
  · simpa [Event.isCall] using hm (.call d') (by simp)
  · simpa [Event.isCall] using hm' (.call d) (by simp)

section

variable {h : List Event} {w : World} {text : Bytes} {U N : Nat}

/-- A turn of a call keeps the invariant. -/
theorem Inv.turned (hi : Inv h w text U N) {c : Send} {pre mid : List Event} {B : Nat} {r : Turn}
    (hpre : h = pre ++ .call c.data :: mid) (hmid : ∀ e ∈ mid, e.isCall = false)
    (hbase : c.base = pos w.first B) (hB : acked pre = B) (hBU : B ≤ U) (hdata : text.drop B = c.data)
    (hr : TurnOk w.first text c w.tcb U B r) :
    ∃ N', Inv (h ++ (w.turned r).2) (w.turned r).1 text U N' := by
  obtain ⟨N', hnxt, hUN, hN, hcall⟩ := hr.nxt
  obtain ⟨hack, htak, hno⟩ := turn_events r
  have hack' : acked (h ++ (w.turned r).2) = acked h := by
    rw [acked_append]
    exact (congrArg _ hack).trans (by simp)
  have hstream : w.stream.length ≤ text.length := hi.stream.length_le
  refine ⟨N', ⟨hr.una, hnxt, ⟨hUN, hN⟩, hi.small, ?_, ?_, hi.stream, ?_, ?_, ?_, ?_, ?_, ?_⟩⟩
  · show r.tcb.state ≠ _
    rw [hr.state]
    exact hi.state
  · intro s hs
    rcases mem_append.1 hs with hs | hs
    · exact hi.wire s hs
    · exact hr.out s hs
  · intro n hn
    exact hi.reach n fun s hs => hn s (mem_append_left _ hs)
  · rw [hack']
    exact hi.acks
  · rw [taken_append]
    refine (congrArg _ htak).trans ?_
    rw [append_nil]
    exact hi.taken
  · intro s hs
    rcases mem_append.1 hs with hs | hs
    · exact mem_append_left _ (hi.sent s hs)
    · rcases mem_append.1 hs with hs | hs
      · obtain ⟨s', hs', he⟩ := mem_map.1 hs
        obtain rfl : s' = s := by simpa using he
        exact mem_append_right _ hs'
      · cases hres : r.result <;> simp [hres] at hs
  · refine (justified_append [] h _).2 ⟨hi.lawful, ?_⟩
    have hsent : Justified Lawful ([] ++ h) (r.out.map .sent) := by
      refine justified_of_forall fun past e he => ?_
      obtain ⟨s, -, rfl⟩ := mem_map.1 he
      trivial
    refine (justified_append _ _ _).2 ⟨hsent, ?_⟩
    cases hres : r.result with
    | none => trivial
    | some n =>
      refine ⟨?_, trivial⟩
      intro pre' d mid' hpast hmid' hpos
      -- the call that returns is the one under way
      have hsplit : pre ++ .call c.data :: (mid ++ r.out.map .sent) = pre' ++ .call d :: mid' := by
        rw [← hpast, hpre]
        simp
      have hmids : ∀ e ∈ mid ++ r.out.map Event.sent, e.isCall = false := by
        intro e he
        rcases mem_append.1 he with he | he
        · exact hmid e he
        · exact hno e (mem_append_left _ he)
      obtain ⟨rfl, rfl⟩ := last_call hsplit hmids hmid'
      have hn := hr.result n hres hpos
      have hout : acked (h ++ r.out.map .sent) = acked h ∧
          Sending.taken (h ++ r.out.map .sent) = w.stream := by
        have := turn_events { r with result := none }
        simp only [Option.map_none, Option.toList_none, append_nil] at this
        rw [acked_append, taken_append, this.1, this.2.1, hi.taken]
        simp
      rw [nil_append, hout.1, hout.2, hB]
      refine ⟨U - B, hn, ?_, ?_, ?_⟩
      · have := congrArg List.length hdata
        rw [length_drop] at this
        have := hi.order
        omega
      · have := hi.acks
        omega
      · obtain ⟨rest, hrest⟩ := hi.stream
        rw [← hdata, ← hrest, drop_append_of_le_length (by have := hi.acks; omega),
          take_append_of_le_length (by rw [length_drop]; have := hi.acks; omega)]
  · intro c' hc'
    obtain ⟨hd, hb, hpc⟩ := hcall c' hc'
    refine ⟨hpc, pre, mid ++ (w.turned r).2, ?_, ?_, ?_, ?_, ?_⟩
    · rw [hpre, hd]
      simp
    · intro e he
      rcases mem_append.1 he with he | he
      · exact hmid e he
      · exact hno e he
    · rw [hb, hbase, hB]
      rfl
    · omega
    · rw [hd, hB]
      exact hdata

theorem Running.window (hi : Inv h w text U N) {c : Send} {B : Nat}
    (hbase : c.base = pos w.first B) (hBU : B ≤ U) (hdata : text.drop B = c.data) :
    Window w.first text c w.tcb U N B :=
  ⟨hi.una, hi.nxt, hbase, ⟨hBU, hi.order.1, hi.order.2⟩, hi.small, hdata⟩

theorem Inv.resume (hi : Inv h w text U N) {c : Send} (hc : w.call = some c) (now : UInt64) :
    ∃ N', Inv (h ++ (w.turned (c.resume w.tcb now)).2) (w.turned (c.resume w.tcb now)).1 text U N' := by
  obtain ⟨hpc, pre, mid, hpre, hmid, hbase, hBU, hdata⟩ := hi.call c hc
  exact hi.turned hpre hmid hbase rfl hBU hdata
    (resume_ok (Running.window hi hbase hBU hdata) hpc now)

/-- What the peer takes of a transmitted segment is the text behind its stream. -/
theorem Inv.fresh_of_text (hi : Inv h w text U N) {s : Segment} (hs : s ∈ w.wire) (k : Nat) :
    w.stream ++ (w.fresh s).take k <+: text ∧
      ((w.fresh s).take k = [] ∨ s.data ≠ [] ∧
        (w.stream ++ (w.fresh s).take k).length ≤ (s.seq - w.first).toNat + s.data.length) := by
  have hlen := hi.stream.length_le
  have hsmall := hi.small
  rcases hi.wire s hs with hnil | ⟨p, hp, hpl, hdata⟩
  · simp [World.fresh, hnil, hi.stream]
  have hpos : (s.seq - w.first).toNat = p := by
    have := pos_sub_toNat (f := w.first) (Nat.zero_le p) (show p < 2 ^ 32 by omega)
    rwa [pos_zero, ← hp, Nat.sub_zero] at this
  by_cases hle : p ≤ w.stream.length
  · -- the segment reaches into the stream: its rest is the text behind it
    have hfresh : w.fresh s = ((text.drop p).take s.data.length).drop (w.stream.length - p) := by
      rw [World.fresh, hp, pos_sub_toNat hle (by omega), ← hdata]
    have hrest : w.fresh s = (text.drop w.stream.length).take (s.data.length - (w.stream.length - p)) := by
      rw [hfresh, drop_take, drop_drop]
      congr 2
      omega
    obtain ⟨rest, hrest'⟩ := hi.stream
    have htext : text.drop w.stream.length = rest := by rw [← hrest', drop_left]
    refine ⟨?_, ?_⟩
    · rw [hrest, htext, take_take]
      refine ⟨rest.drop (min k (s.data.length - (w.stream.length - p))), ?_⟩
      rw [append_assoc, take_append_drop, hrest']
    · by_cases hempty : (w.fresh s).take k = []
      · exact Or.inl hempty
      · refine Or.inr ⟨fun h => hempty (by simp [World.fresh, h]), ?_⟩
        rw [hpos, length_append, length_take, hrest, length_take]
        have hge : w.stream.length - p < s.data.length := by
          by_contra hge
          refine hempty ?_
          rw [hrest, show s.data.length - (w.stream.length - p) = 0 by omega]
          simp
        omega
  · -- the segment is ahead of the stream
    have hahead : (pos w.first w.stream.length - s.seq).toNat = 2 ^ 32 - (p - w.stream.length) := by
      rw [hp, pos_sub_toNat_mod]
      omega
    have hnone : w.fresh s = [] := by
      rw [World.fresh, hahead]
      exact drop_eq_nil_of_le (by omega)
    simp [hnone, hi.stream]

theorem Inv.arrive (hi : Inv h w text U N) {s : Segment} (hs : s ∈ w.wire) (k : Nat) :
    Inv (h ++ [.took ((w.fresh s).take k)]) { w with stream := w.stream ++ (w.fresh s).take k }
      text U N := by
  obtain ⟨hpre, hreach⟩ := hi.fresh_of_text hs k
  have hacked : acked (h ++ [.took ((w.fresh s).take k)]) = acked h := by
    rw [acked_append]
    simp [acked]
  refine ⟨hi.una, hi.nxt, hi.order, hi.small, hi.state, hi.wire, hpre, ?_, ?_, ?_, ?_, ?_, ?_⟩
  · intro n hn
    rcases hreach with hnil | ⟨hne, hle⟩
    · simp only [hnil, append_nil]
      exact hi.reach n hn
    · exact hle.trans (hn s hs hne)
  · have := hi.acks
    rw [hacked, length_append]
    omega
  · rw [taken_append, hi.taken]
    simp [Sending.taken]
  · intro s' hs'
    exact hi.sent s' (by simpa using hs')
  · exact (justified_append [] h _).2 ⟨hi.lawful, trivial, trivial⟩
  · intro c hc
    obtain ⟨hpc, pre, mid, hpre, hmid, hbase, hBU, hdata⟩ := hi.call c hc
    refine ⟨hpc, pre, mid ++ [.took ((w.fresh s).take k)], by rw [hpre]; simp, ?_, hbase, hBU, hdata⟩
    intro e he
    rcases mem_append.1 he with he | he
    · exact hmid e he
    · obtain rfl := mem_singleton.1 he
      rfl

/-- The events of a segment of the peer. -/
theorem segment_events (ack : Bool) (n : Nat) (o : List Segment) :
    acked ((if ack then [Event.ack n] else []) ++ o.map .sent) = (if ack then n else 0) ∧
      Sending.taken ((if ack then [Event.ack n] else []) ++ o.map .sent) = [] ∧
      ∀ e ∈ (if ack then [Event.ack n] else []) ++ o.map Event.sent, e.isCall = false ∧
        ∀ past, Lawful past e := by
  have hout := turn_events ⟨Tcb.zero, none, none, o⟩
  simp only [Option.map_none, Option.toList_none, append_nil] at hout
  rw [acked_append, taken_append, hout.1, hout.2.1]
  refine ⟨by cases ack <;> simp [acked], by cases ack <;> simp [Sending.taken], fun e he => ?_⟩
  rcases mem_append.1 he with he | he
  · cases ack
    · simp at he
    · obtain rfl := mem_singleton.1 he
      exact ⟨rfl, fun _ => trivial⟩
  · obtain ⟨s, -, rfl⟩ := mem_map.1 he
    exact ⟨rfl, fun _ => trivial⟩

theorem Inv.segment (hi : Inv h w text U N) (s : Segment) (k : Nat) :
    ∃ U', U ≤ U' ∧ Inv (h ++ (w.step (.segment s k)).2) (w.step (.segment s k)).1 text U' N := by
  set n := min k w.stream.length with hn
  set r := w.tcb.input (w.acknowledging s k) with hr
  have hlen := hi.stream.length_le
  have hsmall := hi.small
  have hord := hi.order
  have hack := hi.acks
  obtain ⟨hacked, htaken, hev⟩ := segment_events s.flags.ack n r.2
  have hsnd := input_snd w.tcb (w.acknowledging s k) hi.state
  -- the bytes acknowledged now
  obtain ⟨U', hU', hUU, hUN, hUack⟩ : ∃ U', r.1.sndUna = pos w.first U' ∧ U ≤ U' ∧ U' ≤ N ∧
      U' ≤ max (acked h) (if s.flags.ack then n else 0) := by
    have hu := acked_una hi.una hi.nxt hord.1 (by omega) (show n < 2 ^ 32 by omega)
      (show (w.acknowledging s k).ackNo = pos w.first n from rfl)
    rcases hsnd.2 with hsame | hmoved
    · exact ⟨U, hsame.trans hi.una, le_rfl, hord.1, by omega⟩
    · rcases hu with hu | ⟨hf, hu, hlt, hle⟩
      · exact ⟨U, hmoved.trans hu, le_rfl, hord.1, by omega⟩
      · have hf : s.flags.ack = true := hf
        exact ⟨n, hmoved.trans hu, hlt.le, hle, by simp [hf]⟩
  have hacked' : acked (h ++ (w.step (.segment s k)).2) = max (acked h) (if s.flags.ack then n else 0) := by
    rw [acked_append]
    exact congrArg _ hacked
  refine ⟨U', hUU, ⟨hU', hsnd.1.trans hi.nxt, ⟨hUN, hord.2⟩, hsmall, ?_, ?_, hi.stream, ?_, ?_, ?_, ?_, ?_, ?_⟩⟩
  · exact (Tcb.input_leads w.tcb _).ne_synSent hi.state
  · intro o ho
    rcases mem_append.1 ho with ho | ho
    · exact hi.wire o ho
    · exact Or.inl (input_out _ _ o ho)
  · exact fun m hm => hi.reach m fun o ho => hm o (mem_append_left _ ho)
  · rw [hacked']
    refine ⟨hUack, ?_⟩
    show _ ≤ w.stream.length
    split <;> omega
  · rw [taken_append]
    refine (congrArg _ htaken).trans ?_
    rw [append_nil]
    exact hi.taken
  · intro o ho
    rcases mem_append.1 ho with ho | ho
    · exact mem_append_left _ (hi.sent o ho)
    · rcases mem_append.1 ho with ho | ho
      · split at ho <;> simp at ho
      · obtain ⟨o', ho', he⟩ := mem_map.1 ho
        obtain rfl : o' = o := by simpa using he
        exact mem_append_right _ ho'
  · refine (justified_append [] h _).2 ⟨hi.lawful, ?_⟩
    exact justified_of_forall fun past e he => (hev e he).2 past
  · intro c hc
    obtain ⟨hpc, pre, mid, hpre, hmid, hbase, hBU, hdata⟩ := hi.call c hc
    refine ⟨hpc, pre, mid ++ (w.step (.segment s k)).2, ?_, ?_, hbase, hBU.trans hUU, hdata⟩
    · rw [hpre]
      simp
    · intro e he
      rcases mem_append.1 he with he | he
      · exact hmid e he
      · exact (hev e he).1

/-- A call that gets as far as sending begins where everything is acknowledged. -/
theorem Inv.begin_ (hi : Inv h w text U N) (hc : w.call = none) {d : Bytes} {t : Tcb}
    (hu : t.sndUna = w.tcb.sndUna) (hnx : t.sndNxt = w.tcb.sndNxt) (hst : t.state = w.tcb.state)
    (hdr : w.Drained) (hd : (w.tcb.sndUna - w.first).toNat + d.length < 2 ^ 32) :
    acked h = U ∧ Inv (h ++ [.call d]) { w with tcb := t } (text.take U ++ d) U U := by
  have hord := hi.order
  have hsmall := hi.small
  have hUpos : (w.tcb.sndUna - w.first).toNat = U := by
    have := pos_sub_toNat (f := w.first) (Nat.zero_le U) (show U < 2 ^ 32 by omega)
    rwa [pos_zero, ← hi.una, Nat.sub_zero] at this
  rw [hUpos] at hd
  have hNU : N = U := by
    refine pos_inj (f := w.first) (by omega) (by omega) ?_
    rw [← hi.nxt, ← hi.una, hdr.1]
  have htop : ∀ s ∈ w.wire, s.data ≠ [] → (s.seq - w.first).toNat + s.data.length ≤ U := by
    intro s hs hne
    have := hdr.2 s hs hne
    omega
  have hstream := hi.reach U htop
  have hacks := hi.acks
  have hlen : (text.take U).length = U := by
    rw [length_take]
    omega
  refine ⟨by omega, ⟨hu.trans hi.una, ?_, ⟨le_rfl, ?_⟩, ?_, hst ▸ hi.state, ?_, ?_, hi.reach, ?_, ?_, ?_, ?_, ?_⟩⟩
  · rw [← hNU]
    exact hnx.trans hi.nxt
  · rw [length_append, hlen]
    omega
  · rw [length_append, hlen]
    omega
  · intro s hs
    refine (hi.wire s hs).congr (n := U) ?_ ?_ hsmall (htop s hs)
    · rw [take_append_of_le_length (by omega), take_take, min_self]
    · rw [length_append]
      omega
  · obtain ⟨rest, hrest⟩ := hi.stream
    refine ⟨d, ?_⟩
    congr 1
    rw [← hrest, take_append_of_le_length (by omega), take_of_length_le (by omega)]
  · rw [acked_append]
    simpa [acked] using hi.acks
  · rw [taken_append]
    simpa [Sending.taken] using hi.taken
  · intro s hs
    exact hi.sent s (by simpa using hs)
  · exact (justified_append [] h _).2 ⟨hi.lawful, trivial, trivial⟩
  · intro c hc'
    have : w.call = some c := hc'
    simp [hc] at this

/-- A call that is refused. -/
theorem Inv.refused (hi : Inv h w text U N) (hc : w.call = none) (d : Bytes) :
    Inv (h ++ [.call d, .returned (-1)]) { w with call := none, wire := w.wire ++ [] } text U N := by
  rw [append_nil]
  refine ⟨hi.una, hi.nxt, hi.order, hi.small, hi.state, hi.wire, hi.stream, hi.reach, ?_, ?_, ?_, ?_, ?_⟩
  · rw [acked_append]
    simpa [acked] using hi.acks
  · rw [taken_append]
    simpa [Sending.taken] using hi.taken
  · intro s hs
    exact hi.sent s (by simpa using hs)
  · refine (justified_append [] h _).2 ⟨hi.lawful, trivial, fun _ _ _ _ _ hpos => ?_, trivial⟩
    omega
  · intro c hc'
    simp at hc'

theorem Inv.send (hi : Inv h w text U N) {d : Bytes} {hd : d.length < 2 ^ 32} {now : UInt64}
    (hs : w.Sane (.send d hd now)) :
    ∃ text' U' N', Inv (h ++ (w.step (.send d hd now)).2) (w.step (.send d hd now)).1 text' U' N' := by
  unfold World.step
  dsimp only
  split
  · refine ⟨text, U, N, ?_⟩
    rw [append_nil]
    exact hi
  next hcall =>
  have hcall : w.call = none := by simpa using hcall
  unfold Tcb.send
  split
  · exact ⟨text, U, N, hi.refused hcall d⟩
  next hgo =>
  simp only [Bool.or_eq_true, Bool.not_eq_true', Bool.and_eq_true, decide_eq_true_eq, not_or,
    not_and, Bool.not_eq_false, not_not] at hgo
  have hst : w.tcb.state = .established ∨ w.tcb.state = .closeWait := by
    by_cases he : w.tcb.state = .established
    · exact Or.inl he
    · exact Or.inr (hgo.2 he)
  obtain ⟨hdr, hroom⟩ := hs hcall hst
  dsimp only
  set t := if w.tcb.cwnd = 0 then { w.tcb with cwnd := 4 * mss, ssthresh := 65535 } else w.tcb with ht
  have hsame : t.sndUna = w.tcb.sndUna ∧ t.sndNxt = w.tcb.sndNxt ∧ t.state = w.tcb.state := by
    rw [ht]
    split <;> exact ⟨rfl, rfl, rfl⟩
  obtain ⟨hack, hbegun⟩ := hi.begin_ hcall (d := d) hsame.1 hsame.2.1 hsame.2.2 hdr hroom
  set c : Send := Send.mk d t.sndNxt 0 now (.waiting t.sndUna)
  have hbase : c.base = pos w.first U := hbegun.nxt
  have hdata : (text.take U ++ d).drop U = c.data := by
    have hlen : (text.take U).length = U := by
      rw [length_take]
      have := hi.order
      omega
    rw [drop_append_of_le_length (by omega), drop_of_length_le (by omega)]
    rfl
  have hlast : h ++ [.call d] = h ++ .call c.data :: [] := rfl
  obtain ⟨N', hnext⟩ := hbegun.turned hlast (by simp) hbase hack le_rfl hdata
    (loop_ok (Running.window hbegun hbase le_rfl hdata))
  refine ⟨text.take U ++ d, U, N', ?_⟩
  rw [append_cons]
  exact hnext

/-- One step of a sane run. -/
theorem Inv.step (hi : Inv h w text U N) {i : Input} (hs : w.Sane i) :
    ∃ text' U' N', Inv (h ++ (machine.step w i).2) (machine.step w i).1 text' U' N' := by
  cases i with
  | send d hd now => exact hi.send hs
  | resume now =>
    show ∃ text' U' N', Inv (h ++ (w.step (.resume now)).2) (w.step (.resume now)).1 text' U' N'
    unfold World.step
    dsimp only
    cases hc : w.call with
    | none =>
      refine ⟨text, U, N, ?_⟩
      rw [append_nil]
      exact hi
    | some c => exact ⟨text, U, hi.resume hc now⟩
  | arrive j k =>
    show ∃ text' U' N', Inv (h ++ (w.step (.arrive j k)).2) (w.step (.arrive j k)).1 text' U' N'
    unfold World.step
    dsimp only
    cases hj : w.wire[j]? with
    | none =>
      refine ⟨text, U, N, ?_⟩
      rw [append_nil]
      exact hi
    | some s => exact ⟨text, U, N, hi.arrive (mem_of_getElem? hj) k⟩
  | segment s k =>
    obtain ⟨U', -, hnext⟩ := hi.segment s k
    exact ⟨text, U', N, hnext⟩

theorem Inv.exact (hi : Inv h w text U N) : Exact h where
  same s₁ s₂ h₁ h₂ i j hii hjj hpos :=
    Stretch.agree hi.small (hi.wire s₁ (hi.sent s₁ h₁)) (hi.wire s₂ (hi.sent s₂ h₂)) hii hjj hpos
  returns pre d mid n post he hmid := by
    have he' : h = (pre ++ .call d :: mid) ++ .returned n :: post := by rw [he]; simp
    exact hi.lawful.at_event he' pre d mid rfl hmid

end

/-- An established connection before its first call. -/
def opened (t : Tcb) : World := ⟨t, none, t.sndNxt, [], []⟩

theorem opened_inv {t : Tcb} (hst : t.state = .established ∨ t.state = .closeWait)
    (huna : t.sndUna = t.sndNxt) : Inv [] (opened t) [] 0 0 := by
  have hne : t.state ≠ .synSent := by rcases hst with h | h <;> rw [h] <;> simp
  refine ⟨?_, ?_, ⟨le_rfl, le_rfl⟩, by simp, hne, by simp [opened], by simp [opened], ?_, ?_, rfl,
    by simp, trivial, by simp [opened]⟩
  · simpa [opened] using huna
  · simp [opened]
  · simp [opened]
  · simp [acked, opened]

/-- On every connection, in every run whose calls begin with everything acknowledged, sending is
    exact. -/
theorem exact_of_run (t : Tcb) (hst : t.state = .established ∨ t.state = .closeWait)
    (huna : t.sndUna = t.sndNxt) (is : List Input)
    (hsane : machine.Admits World.Sane (opened t) is) : Exact (machine.run (opened t) is).2 := by
  obtain ⟨text, U, N, hi⟩ := Machine.run_invariant_of (m := machine)
    (I := fun h w => ∃ text U N, Inv h w text U N)
    (fun h w i hI hs => by
      obtain ⟨text, U, N, hi⟩ := hI
      exact hi.step hs)
    is [] (opened t) ⟨[], 0, 0, opened_inv hst huna⟩ hsane
  exact hi.exact

/-! ## A call after one that failed -/

/-- A connection after its handshake. -/
def sample : Tcb := { Tcb.zero with inUse := true, state := .established, sndUna := 8, sndNxt := 8 }

/-- One byte is sent, taken and acknowledged. -/
def delivery : List Input :=
  [.send [1] (by decide) 0, .resume 0, .arrive 0 1,
   .segment ⟨80, 40000, 0, 0, { ack := true }, 1000, []⟩ 1, .resume 1]

theorem exact_of_delivery :
    (sample.state = .established ∨ sample.state = .closeWait) ∧ sample.sndUna = sample.sndNxt ∧
      machine.Admits World.Sane (opened sample) delivery ∧
      Exact (machine.run (opened sample) delivery).2 := by
  have hsane : machine.Admits World.Sane (opened sample) delivery := by
    refine ⟨fun _ _ => ⟨⟨rfl, ?_⟩, ?_⟩, trivial, trivial, trivial, trivial, trivial⟩
    · intro s hs
      simp [opened] at hs
    · decide
  exact ⟨Or.inl rfl, rfl, hsane, exact_of_run sample (Or.inl rfl) rfl delivery hsane⟩

/-- A byte is sent into the void until the retransmissions run out, and a second call is made. -/
def silence : List Input :=
  [.send [1] (by decide) 0, .resume 0] ++
    (List.range 7).flatMap (fun n => [.resume (UInt64.ofNat (51 * n + 51)), .resume 0]) ++
    [.send [2] (by decide) 400]

/-- The second call reports its byte, which was never sent. -/
theorem silent_call_reports : ¬ Exact (machine.run (opened sample) silence).2 := by
  have hend : (machine.run (opened sample) silence).2.drop 9 = [.call [2], .returned 1] ∧
      acked (machine.run (opened sample) silence).2 = 0 := by decide +kernel
  generalize (machine.run (opened sample) silence).2 = h at hend
  intro hex
  have hsplit : h = h.take 9 ++ .call [2] :: ([] ++ .returned 1 :: []) := by
    rw [nil_append, ← hend.1, take_append_drop]
  have hack : acked (h.take 9 ++ [.call [2]]) = 0 := by
    have := hend.2
    rw [hsplit, append_cons, acked_append] at this
    omega
  obtain ⟨m, hm, -, hle, -⟩ := hex.returns _ _ _ _ _ hsplit (by simp) (by decide)
  omega

end Sending

end EmbLinkOs.Tcp
