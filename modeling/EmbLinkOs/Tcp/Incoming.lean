import EmbLinkOs.Ip.Ipv4
import EmbLinkOs.Tcp.Table
import EmbLinkOs.Tcp.Transitions

set_option autoImplicit false

/-! # Segments off the wire

How a packet reaches a control block: `ip_input`, the header fields `tcp_input` reads, and the
control block of the connection. The checksum is a field of the header that no one reads, and the
sequence number is compared for data and for a FIN only; so what a segment changes depends on its
flags, its acknowledgement and its window wherever its sequence numbers lie. -/

namespace EmbLinkOs.Tcp

open Ip

/-- The flags of the header. -/
def Flags.ofByte (b : UInt8) : Flags :=
  { fin := b &&& 0x01 ≠ 0, syn := b &&& 0x02 ≠ 0, rst := b &&& 0x04 ≠ 0, psh := b &&& 0x08 ≠ 0,
    ack := b &&& 0x10 ≠ 0 }

/-- `doff`. -/
def dataOff (seg : Bytes) : Nat := (byteAt seg 12 >>> 4).toNat * 4

/-- The fields `tcp_input` reads; `none` is a segment too short for its header. -/
def Segment.ofBytes (seg : Bytes) : Option Segment :=
  if seg.length < 20 then none
  else if dataOff seg < 20 || seg.length < dataOff seg then none
  else some
    { srcPort := rd16 seg 0, dstPort := rd16 seg 2, seq := rd32 seg 4, ackNo := rd32 seg 8,
      flags := Flags.ofByte (byteAt seg 13), window := rd16 seg 14, data := seg.drop (dataOff seg) }

/-- `tcp_input`. -/
def Table.tcpInput (T : Table) (src : UInt32) (seg : Bytes) : Table × List Packet :=
  match Segment.ofBytes seg with
  | none => (T, [])
  | some s => T.input src s

/-- What a packet does to the connections. -/
def Table.ipInput (T : Table) (pkt : Bytes) : Table × List Packet :=
  match Ip.ipInput T.ip pkt with
  | none => (T, [])
  | some d => if d.proto = protoTcp then T.tcpInput d.src d.payload else (T, [])

/-! ## Segments that ought to change nothing -/

/-- The checksum is the one `tcp_seg` would have stored. -/
def ChecksumOk (d : Datagram) : Prop :=
  netL4Checksum d.src d.dst protoTcp ((d.payload.set 16 0).set 17 0) =
    (byteAt d.payload 16).toUInt16 + (byteAt d.payload 17).toUInt16 * 256

instance (d : Datagram) : Decidable (ChecksumOk d) := inferInstanceAs (Decidable (_ = _))

/-- How many sequence numbers the segment takes. -/
def Segment.span (s : Segment) : Nat := s.data.length + s.flags.syn.toNat + s.flags.fin.toNat

/-- The sequence range; a segment that takes no number stands at its own. -/
def Segment.Covers (s : Segment) (n : UInt32) : Prop :=
  ∃ k < max 1 s.span, n = s.seq + UInt32.ofNat k

namespace Tcb

/-- The states past the handshake. -/
def Synchronised (t : Tcb) : Prop :=
  t.state ∈ [.established, .finWait1, .finWait2, .closing, .closeWait, .lastAck, State.timeWait]

instance (t : Tcb) : Decidable t.Synchronised := inferInstanceAs (Decidable (_ ∈ _))

/-- No sequence number of the segment is in the window the peer was told last. -/
def Outside (t : Tcb) (s : Segment) : Prop := ∀ n, s.Covers n → ¬ n - t.rcvNxt < t.advWnd

/-- The connection is as it was. -/
structure Unchanged (t u : Tcb) : Prop where
  state : u.state = t.state
  reset : u.reset = t.reset
  sndUna : u.sndUna = t.sndUna
  sndWnd : u.sndWnd = t.sndWnd
  rcvNxt : u.rcvNxt = t.rcvNxt
  rx : u.rx = t.rx

/-- Data and FIN are looked at. -/
def Receiving (t : Tcb) : Prop := t.state ∈ [.established, .finWait1, State.finWait2]

instance (t : Tcb) : Decidable t.Receiving := inferInstanceAs (Decidable (_ ∈ _))

/-- The acknowledgement is nothing new. -/
def AckIdle (t : Tcb) (s : Segment) : Prop :=
  s.flags.ack = true →
    (seqGt s.ackNo t.sndUna && seqLeq s.ackNo t.sndNxt) = false ∧ s.window.toUInt32 = t.sndWnd

/-- The data is not next in the stream, or there is no room, and no FIN is next. -/
def DataIdle (t : Tcb) (s : Segment) : Prop :=
  (s.data ≠ [] → s.seq = t.rcvNxt → t.fits s = 0) ∧
    (s.flags.fin = true → s.seq + s.len ≠ t.rcvNxt)

/-- The segment changes nothing: it is no RST, its acknowledgement and window are those known, it
    carries nothing that is next in the stream, and our own FIN was not acknowledged before. -/
structure Harmless (t : Tcb) (s : Segment) : Prop where
  rst : s.flags.rst = false
  ack : t.AckIdle s
  data : t.Receiving → t.DataIdle s
  fin : t.state = .finWait1 ∨ t.state = .lastAck → t.sndUna ≠ t.sndNxt

/-! ## What each part of `tcp_input` changes -/

variable {t u : Tcb} {s : Segment}

/-- The answer and our own FIN leave the stream of the peer alone. -/
theorem answer_settle_in (t : Tcb) (s : Segment) :
    (t.answer s).1.settle.rx = t.rx ∧ (t.answer s).1.settle.rcvNxt = t.rcvNxt := by
  have hsettle : ∀ u : Tcb, u.settle.rx = u.rx ∧ u.settle.rcvNxt = u.rcvNxt := by
    intro u
    unfold settle
    dsimp only
    split <;> split <;> exact ⟨rfl, rfl⟩
  rw [(hsettle _).1, (hsettle _).2]
  unfold answer
  split
  · obtain ⟨x, hx⟩ := t.advertised_eq
    rw [hx]
    exact ⟨rfl, rfl⟩
  · exact ⟨rfl, rfl⟩

/-! ### Acknowledgements -/

theorem acked_of_idle (h : t.AckIdle s) : t.acked s = t := by
  unfold acked
  split
  · next hack =>
    obtain ⟨hno, hwnd⟩ := h hack
    rw [hno, hwnd]
    rfl
  · rfl

theorem idle_of_acked (huna : (t.acked s).sndUna = t.sndUna) (hwnd : (t.acked s).sndWnd = t.sndWnd) :
    t.AckIdle s := by
  intro hack
  unfold acked at huna hwnd
  rw [if_pos hack] at huna hwnd
  refine ⟨?_, hwnd⟩
  by_contra hcmp
  rw [Bool.not_eq_false] at hcmp
  dsimp only at huna
  rw [if_pos hcmp] at huna
  -- A number that compares after `snd_una` is another one.
  simp [huna, seqGt] at hcmp

/-! ### Data and FIN -/

/-- Where nothing is stored the stream of the peer stays where it is. -/
theorem store_of_idle (h : s.data ≠ [] → s.seq = t.rcvNxt → t.fits s = 0) :
    (t.store s).1.rx = t.rx ∧ (t.store s).1.rcvNxt = t.rcvNxt := by
  unfold store
  split
  · next hin =>
    simp only [Bool.and_eq_true, decide_eq_true_eq] at hin
    simp [h hin.1 hin.2]
  split
  · obtain ⟨x, hx⟩ := t.advertised_eq
    rw [hx]
    exact ⟨rfl, rfl⟩
  · exact ⟨rfl, rfl⟩

theorem idle_of_store (h : (t.store s).1.rx = t.rx) (hdata : s.data ≠ [])
    (hseq : s.seq = t.rcvNxt) : t.fits s = 0 := by
  unfold store at h
  rw [if_pos (by simp [hdata, hseq])] at h
  have htake : s.data.take (t.fits s).toNat = [] := by simpa using h
  rcases List.take_eq_nil_iff.1 htake with h0 | h0
  · exact UInt32.toNat_inj.1 h0
  · exact absurd h0 hdata

theorem finish_of_idle (h : s.flags.fin = true → s.seq + s.len ≠ t.rcvNxt) : t.finish s = t := by
  unfold finish
  rw [if_neg (by simpa using h)]

theorem settle_state_eq_iff (t : Tcb) (h : t.Receiving) :
    t.settle.state = t.state ↔ (t.state = .finWait1 → t.sndUna ≠ t.sndNxt) := by
  unfold settle
  dsimp only
  have hc : t.state ≠ .closing := by
    intro hc
    simp [Receiving, hc] at h
  by_cases h1 : t.state = .finWait1 <;> by_cases h2 : t.sndUna = t.sndNxt <;> simp [h1, h2, hc]

/-- Data and FIN change the connection unless nothing in the segment is next in the stream. -/
theorem deliver_unchanged_iff (h : t.Receiving) :
    t.Unchanged (t.deliver s).1 ↔
      t.DataIdle s ∧ (t.state = .finWait1 → t.sndUna ≠ t.sndNxt) := by
  have hkept := t.deliver_kept s
  have hin := answer_settle_in ((t.store s).1.finish s) s
  have hmid := ((t.store_kept s).trans (finish_kept (t.store s).1 s)).trans (answer_kept _ s)
  have hd : (t.deliver s).1 = (((t.store s).1.finish s).answer s).1.settle := rfl
  constructor
  · rintro ⟨hst, -, -, -, hrcv, hrx⟩
    rw [hd, hin.1] at hrx
    rw [hd, hin.2] at hrcv
    have hrx' : (t.store s).1.rx = t.rx := by
      rw [← hrx]
      unfold finish
      split <;> rfl
    have hdata : s.data ≠ [] → s.seq = t.rcvNxt → t.fits s = 0 := idle_of_store hrx'
    have hrcv' := (store_of_idle hdata).2
    have hfin : s.flags.fin = true → s.seq + s.len ≠ (t.store s).1.rcvNxt := by
      intro hf hpos
      unfold finish at hrcv
      rw [if_pos (by simp [hf, hpos])] at hrcv
      dsimp only at hrcv
      rw [hrcv'] at hrcv
      simp at hrcv
    refine ⟨⟨hdata, hrcv' ▸ hfin⟩, ?_⟩
    rw [hd, finish_of_idle hfin] at hst
    rw [finish_of_idle hfin] at hmid
    have hstate : ((t.store s).1.answer s).1.state = t.state := by simp
    rw [← hstate, settle_state_eq_iff _ (by rw [Receiving, hstate]; exact h), hstate, hmid.sndUna,
      hmid.sndNxt] at hst
    exact hst
  · rintro ⟨⟨hdata, hfin⟩, hown⟩
    obtain ⟨hrx, hrcv⟩ := store_of_idle hdata
    have hfin' : (t.store s).1.finish s = (t.store s).1 := finish_of_idle (hrcv ▸ hfin)
    rw [hfin'] at hin hmid hd
    have hstate : ((t.store s).1.answer s).1.state = t.state := by simp
    refine ⟨?_, hkept.reset, hkept.sndUna, hkept.sndWnd, ?_, ?_⟩
    · rw [hd, ← hstate, settle_state_eq_iff _ (by rw [Receiving, hstate]; exact h), hstate,
        hmid.sndUna, hmid.sndNxt]
      exact hown
    · rw [hd, hin.2, hrcv]
    · rw [hd, hin.1, hrx]

/-! ### The whole of `tcp_input` -/

/-- Past the handshake `tcp_input` is the acknowledgement and then what the state asks for. -/
theorem input_eq (hrst : s.flags.rst = false) (h : t.Synchronised) :
    t.input s =
      if (t.acked s).Receiving then (t.acked s).deliver s
      else if t.state = .lastAck ∧ (t.acked s).sndUna = t.sndNxt then
        ({ t.acked s with state := .closed }, [])
      else (t.acked s, []) := by
  have hst : (t.acked s).state = t.state := acked_state t s
  unfold input
  rw [if_neg (by simp [hrst])]
  dsimp only
  simp only [Synchronised, List.mem_cons, List.not_mem_nil, or_false] at h
  rcases h with h | h | h | h | h | h | h <;> rw [hst, h] <;> simp [Receiving, h]
  split <;> rfl

theorem input_rst_state (hrst : s.flags.rst = true) : (t.input s).1.state = .closed := by
  unfold input
  rw [if_pos hrst]

/-- A segment leaves a connection past its handshake as it was exactly where it is harmless. -/
theorem input_unchanged_iff (h : t.Synchronised) : t.Unchanged (t.input s).1 ↔ t.Harmless s := by
  have hclosed : t.state ≠ .closed := by
    intro hc
    simp [Synchronised, hc] at h
  by_cases hrst : s.flags.rst = true
  · constructor
    · intro hu
      exact absurd (hu.state.symm.trans (input_rst_state hrst)) hclosed
    · intro hh
      exact absurd (hrst.symm.trans hh.rst) (by simp)
  rw [Bool.not_eq_true] at hrst
  have hsyn : t.state ≠ .synSent := by
    intro hs
    simp [Synchronised, hs] at h
  have hkept := input_kept_acked hrst hsyn
  by_cases hidle : t.AckIdle s
  swap
  · constructor
    · intro hu
      exact absurd (idle_of_acked (hkept.sndUna.symm.trans hu.sndUna)
        (hkept.sndWnd.symm.trans hu.sndWnd)) hidle
    · intro hh
      exact absurd hh.ack hidle
  rw [input_eq hrst h, acked_of_idle hidle]
  by_cases hr : t.Receiving
  · rw [if_pos hr, deliver_unchanged_iff hr]
    have hlast : t.state ≠ .lastAck := by
      intro hl
      simp [Receiving, hl] at hr
    constructor
    · rintro ⟨hd, hown⟩
      exact ⟨hrst, hidle, fun _ => hd, fun hs => hown (hs.resolve_right hlast)⟩
    · intro hh
      exact ⟨hh.data hr, fun hs => hh.fin (Or.inl hs)⟩
  have hfw : t.state ≠ .finWait1 := by
    intro hl
    simp [Receiving, hl] at hr
  rw [if_neg hr]
  by_cases hl : t.state = .lastAck ∧ t.sndUna = t.sndNxt
  · rw [if_pos hl]
    constructor
    · intro hu
      exact absurd hu.state.symm hclosed
    · intro hh
      exact absurd hl.2 (hh.fin (Or.inr hl.1))
  · rw [if_neg hl]
    constructor
    · intro _
      exact ⟨hrst, hidle, fun hc => absurd hc hr,
        fun hs => fun he => hl ⟨hs.resolve_left hfw, he⟩⟩
    · intro _
      exact ⟨rfl, rfl, rfl, rfl, rfl, rfl⟩

/-- Nothing outside an open window is next in the stream. -/
theorem Outside.dataIdle (h : t.Outside s) (hwnd : t.advWnd ≠ 0) : t.DataIdle s := by
  have hpos : ¬ s.Covers t.rcvNxt := by
    intro hc
    apply h _ hc
    rw [UInt32.sub_self]
    exact UInt32.pos_iff_ne_zero.2 hwnd
  constructor
  · intro _ hseq
    exact absurd ⟨0, by omega, by simp [hseq]⟩ hpos
  · intro hfin hseq
    refine hpos ⟨s.data.length, ?_, hseq.symm⟩
    simp only [Segment.span, hfin, Bool.toNat_true]
    omega

/-- What is sent in answer is an acknowledgement without data. -/
theorem input_answers (h : t.Synchronised) :
    ∀ o ∈ (t.input s).2, o.flags = { ack := true } ∧ o.data = [] := by
  have hpure : ∀ u : Tcb, u.pureAck.flags = { ack := true } ∧ u.pureAck.data = [] :=
    fun u => ⟨rfl, by simp [pureAck, outgoing]⟩
  have hstore : ∀ u : Tcb, ∀ o ∈ (u.store s).2, o = u.pureAck := by
    intro u o ho
    unfold store at ho
    split at ho
    · simp at ho
    split at ho
    · exact List.mem_singleton.1 ho
    · simp at ho
  have hanswer : ∀ u : Tcb, ∀ o ∈ (u.answer s).2, o = u.pureAck := by
    intro u o ho
    unfold answer at ho
    split at ho
    · exact List.mem_singleton.1 ho
    · simp at ho
  intro o ho
  by_cases hrst : s.flags.rst = true
  · unfold input at ho
    rw [if_pos hrst] at ho
    simp at ho
  rw [Bool.not_eq_true] at hrst
  rw [input_eq hrst h] at ho
  split at ho
  · rcases List.mem_append.1 ho with ho | ho
    · exact hstore _ o ho ▸ hpure _
    · exact hanswer _ o ho ▸ hpure _
  split at ho <;> simp at ho

end Tcb

/-! ## From the wire -/

/-- The packet is a segment for the connection `i`. -/
structure Reaches (T : Table) (pkt : Bytes) (d : Datagram) (s : Segment) (i : Fin 4) : Prop where
  datagram : Ip.ipInput T.ip pkt = some d
  proto : d.proto = protoTcp
  segment : Segment.ofBytes d.payload = some s
  conn : T.find s.dstPort d.src s.srcPort = some i

theorem Reaches.ipInput {T : Table} {pkt : Bytes} {d : Datagram} {s : Segment} {i : Fin 4}
    (h : Reaches T pkt d s i) (hsync : (T.tcbs i).Synchronised) :
    (T.ipInput pkt).1.tcbs i = ((T.tcbs i).input s).1 ∧
      (T.ipInput pkt).2 = ((T.tcbs i).input s).2.map fun o => ⟨(T.tcbs i).remoteIp, o⟩ := by
  have hjoin : (T.tcbs i).joins s = false := by
    have hne : (T.tcbs i).state ≠ .synReceived := by
      intro hr
      simp [Tcb.Synchronised, hr] at hsync
    simp [Tcb.joins, hne]
  unfold Table.ipInput
  rw [h.datagram]
  dsimp only
  rw [if_pos h.proto, Table.tcpInput, h.segment]
  dsimp only
  rw [Table.input, h.conn]
  dsimp only
  rw [hjoin]
  simp [Table.set]

/-- Wherever a segment lies and whatever its checksum, it changes nothing and is answered with
    acknowledgements at most exactly where it is harmless. Outside an open window its data and FIN
    are; its RST, its acknowledgement and its window need not be. -/
theorem outside_unchanged_iff (T : Table) (pkt : Bytes) (d : Datagram) (s : Segment) (i : Fin 4)
    (h : Reaches T pkt d s i) (hsync : (T.tcbs i).Synchronised) :
    ((T.tcbs i).Unchanged ((T.ipInput pkt).1.tcbs i) ∧
        (∀ o ∈ (T.ipInput pkt).2, o.segment.flags = { ack := true } ∧ o.segment.data = []) ↔
      (T.tcbs i).Harmless s) ∧
    ((T.tcbs i).Outside s → (T.tcbs i).advWnd ≠ 0 → (T.tcbs i).DataIdle s) := by
  obtain ⟨htcb, hout⟩ := h.ipInput hsync
  refine ⟨?_, Tcb.Outside.dataIdle⟩
  rw [htcb, hout, Tcb.input_unchanged_iff hsync]
  constructor
  · exact fun hh => hh.1
  · intro hh
    refine ⟨hh, ?_⟩
    intro o ho
    obtain ⟨o', ho', rfl⟩ := List.mem_map.1 ho
    exact Tcb.input_answers hsync o' ho'

/-! ## A RST far from the window -/

/-- A connection of port 40000 to port 80 of `10.0.2.2`, which may send 65535 bytes from 100 on. -/
def web : Tcb :=
  { Tcb.zero with
    inUse := true, state := .established, localIp := 0x0A00020F, remoteIp := 0x0A000202,
    localPort := 40000, remotePort := 80, sndUna := 8, sndNxt := 8, rcvNxt := 100, advWnd := 65535 }

def webTable : Table := ⟨fun i => if i.val = 0 then web else Tcb.zero, 0x0A00020F, 40001, 0x1000, 0x5000⟩

/-- A segment without data from `10.0.2.2`, at sequence number `seq <<< 24` and with the window of
    the connection. -/
def bareHeader (seq flags check : UInt8) : Bytes :=
  [0, 80, 0x9C, 0x40, seq, 0, 0, 0, 0, 0, 0, 8, 0x50, flags, 0, 0, 0xEB, check, 0, 0]

def barePacket (seq flags check : UInt8) : Bytes :=
  [0x45, 0, 0, 40, 0, 0, 0, 0, 64, 6, 0, 0, 10, 0, 2, 2, 10, 0, 2, 15] ++ bareHeader seq flags check

def bareSegment (seq flags : UInt8) : Segment :=
  ⟨80, 40000, seq.toUInt32 * 0x1000000, 8, Flags.ofByte flags, 0, []⟩

def bareDatagram (seq flags check : UInt8) : Datagram :=
  ⟨0x0A000202, 0x0A00020F, protoTcp, bareHeader seq flags check⟩

/-- An acknowledgement far from the window that says nothing new is harmless. -/
theorem outside_unchanged_farAck :
    Reaches webTable (barePacket 0x10 0x10 0x2B) (bareDatagram 0x10 0x10 0x2B)
        (bareSegment 0x10 0x10) 0 ∧
      (webTable.tcbs 0).Synchronised ∧ web.Harmless (bareSegment 0x10 0x10) ∧
      web.Unchanged ((webTable.ipInput (barePacket 0x10 0x10 0x2B)).1.tcbs 0) := by
  have h : Reaches webTable (barePacket 0x10 0x10 0x2B) (bareDatagram 0x10 0x10 0x2B)
      (bareSegment 0x10 0x10) 0 := ⟨by decide, by decide, by decide, by decide⟩
  have hsync : (webTable.tcbs 0).Synchronised := by decide
  have hh : web.Harmless (bareSegment 0x10 0x10) :=
    ⟨by decide, fun _ => by decide, fun _ => ⟨by simp [bareSegment], by decide⟩, by decide⟩
  exact ⟨h, hsync, hh, ((outside_unchanged_iff _ _ _ _ 0 h hsync).1.2 hh).1⟩

/-- A RST far from the window closes the connection. -/
theorem far_rst_closes :
    Reaches webTable (barePacket 0x10 0x04 0x37) (bareDatagram 0x10 0x04 0x37)
        (bareSegment 0x10 0x04) 0 ∧
      web.Synchronised ∧ web.Outside (bareSegment 0x10 0x04) ∧
      ChecksumOk (bareDatagram 0x10 0x04 0x37) ∧
      ((webTable.ipInput (barePacket 0x10 0x04 0x37)).1.tcbs 0).state = .closed ∧
      ¬ web.Unchanged ((webTable.ipInput (barePacket 0x10 0x04 0x37)).1.tcbs 0) := by
  have hclosed : ((webTable.ipInput (barePacket 0x10 0x04 0x37)).1.tcbs 0).state = .closed := by
    decide
  refine ⟨⟨by decide, by decide, by decide, by decide⟩, by decide, ?_, by decide, hclosed, ?_⟩
  · rintro n ⟨k, hk, rfl⟩
    have hspan : (bareSegment 0x10 0x04).span = 0 := by decide
    have hzero : k = 0 := by omega
    subst hzero
    decide
  · intro hu
    have := hu.state
    rw [hclosed] at this
    exact absurd this (by decide)

end EmbLinkOs.Tcp
