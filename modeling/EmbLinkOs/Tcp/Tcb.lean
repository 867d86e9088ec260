import EmbLinkOs.Lib.Machine

set_option autoImplicit false

/-! # The TCP control block

`net/tcp/tcp.c` for one connection: what a segment of the peer does to a control block, the window
the sender keeps over a caller's buffer, and what the receiving calls take out. Sequence numbers are
machine words and every comparison is the source's. A segment is its header fields and its data; the
fixed header length and the checksum are left out. A blocking call is cut at the places where it
waits: what it does from one wait to the next is one function here, and the clock it reads is an
argument. -/

namespace EmbLinkOs.Tcp

abbrev Bytes := List UInt8

/-- `TCP_RXBUF`, `TCP_MSS`, `RETRIES`, `TCP_ACCEPT_MAX`, `NET_RTX_TICKS`. -/
def rxBuf : UInt32 := 65536
def mss : UInt32 := 1400
def retries : Nat := 6
def acceptMax : Nat := 8
def rtxTicks : UInt64 := 50

/-- `enum tcp_state`. -/
inductive State
  | closed | synSent | established | finWait1 | finWait2 | closing | closeWait | lastAck | timeWait
  | listen | synReceived
  deriving DecidableEq, Repr

/-- `SEQ_LT`, `SEQ_LEQ` and `SEQ_GT`: the sign of the difference as a signed word. -/
def seqLt (a b : UInt32) : Bool := 0x80000000 ≤ a - b
def seqLeq (a b : UInt32) : Bool := a - b = 0 || 0x80000000 ≤ a - b
def seqGt (a b : UInt32) : Bool := a - b ≠ 0 && a - b < 0x80000000

/-- `TCP_FIN` .. `TCP_ACK`. -/
structure Flags where
  syn : Bool := false
  ack : Bool := false
  fin : Bool := false
  rst : Bool := false
  psh : Bool := false
  deriving DecidableEq

structure Segment where
  srcPort : UInt16
  dstPort : UInt16
  seq : UInt32
  ackNo : UInt32
  flags : Flags
  window : UInt16
  data : Bytes
  deriving DecidableEq

/-- `datalen`. -/
def Segment.len (s : Segment) : UInt32 := UInt32.ofNat s.data.length

/-- `struct tcb`; `rx` is `rxbuf` up to `rx_len`, `acceptQ` is `accept_q` up to `accept_n`. -/
structure Tcb where
  inUse : Bool
  state : State
  localIp : UInt32
  remoteIp : UInt32
  localPort : UInt16
  remotePort : UInt16
  sndUna : UInt32
  sndNxt : UInt32
  rcvNxt : UInt32
  sndWnd : UInt32
  advWnd : UInt32
  cwnd : UInt32
  ssthresh : UInt32
  peerFin : Bool
  reset : Bool
  rx : Bytes
  acceptQ : List (Fin 4)
  parentListener : Option (Fin 4)
  deriving DecidableEq

/-- A control block after `memset`. -/
def Tcb.zero : Tcb :=
  { inUse := false, state := .closed, localIp := 0, remoteIp := 0, localPort := 0, remotePort := 0,
    sndUna := 0, sndNxt := 0, rcvNxt := 0, sndWnd := 0, advWnd := 0, cwnd := 0, ssthresh := 0,
    peerFin := false, reset := false, rx := [], acceptQ := [], parentListener := some 0 }

namespace Tcb

/-! ## Sending a segment -/

/-- `TCP_RXBUF - t->rx_len`. -/
def room (t : Tcb) : UInt32 := rxBuf - UInt32.ofNat t.rx.length

/-- The window `tcp_seg` advertises. -/
def window (t : Tcb) : UInt32 := if 65535 < t.room then 65535 else t.room

/-- The segment `tcp_seg` sends. -/
def outgoing (t : Tcb) (flags : Flags) (seq : UInt32) (data : Bytes) : Segment :=
  { srcPort := t.localPort, dstPort := t.remotePort, seq, ackNo := t.rcvNxt, flags,
    window := t.window.toUInt16, data := data.take mss.toNat }

/-- The control block after `tcp_seg`. -/
def advertised (t : Tcb) : Tcb := { t with advWnd := t.window }

/-- `tcp_seg(t, TCP_ACK, t->snd_nxt, 0, 0)`. -/
def pureAck (t : Tcb) : Segment := t.outgoing { ack := true } t.sndNxt []

/-! ## Receiving a segment -/

/-- The acknowledgement and the window of a segment. -/
def acked (t : Tcb) (s : Segment) : Tcb :=
  if s.flags.ack then
    { t with
      sndUna := if seqGt s.ackNo t.sndUna && seqLeq s.ackNo t.sndNxt then s.ackNo else t.sndUna
      sndWnd := s.window.toUInt32 }
  else t

/-- How many bytes of an in-order segment are stored. -/
def fits (t : Tcb) (s : Segment) : UInt32 := if s.len < t.room then s.len else t.room

/-- The data of a segment: what is in order is stored as far as there is room, what is old is
    acknowledged again. -/
def store (t : Tcb) (s : Segment) : Tcb × List Segment :=
  if s.data ≠ [] && s.seq = t.rcvNxt then
    ({ t with rx := t.rx ++ s.data.take (t.fits s).toNat, rcvNxt := t.rcvNxt + t.fits s }, [])
  else if s.data ≠ [] && seqLt s.seq t.rcvNxt then (t.advertised, [t.pureAck])
  else (t, [])

/-- The state in which the peer's FIN leaves the connection. -/
def finState : State → State
  | .established => .closeWait
  | .finWait1 => .closing
  | .finWait2 => .timeWait
  | st => st

/-- The FIN of a segment. -/
def finish (t : Tcb) (s : Segment) : Tcb :=
  if s.flags.fin && s.seq + s.len = t.rcvNxt then
    { t with rcvNxt := t.rcvNxt + 1, peerFin := true, state := finState t.state }
  else t

/-- The answer to data or a FIN. -/
def answer (t : Tcb) (s : Segment) : Tcb × List Segment :=
  if s.data ≠ [] || s.flags.fin then (t.advertised, [t.pureAck]) else (t, [])

/-- The acknowledgement of our own FIN. -/
def settle (t : Tcb) : Tcb :=
  let t := if t.state = .finWait1 && t.sndUna = t.sndNxt then { t with state := .finWait2 } else t
  if t.state = .closing && t.sndUna = t.sndNxt then { t with state := .timeWait } else t

/-- The part of `tcp_input` that takes data and FIN. -/
def deliver (t : Tcb) (s : Segment) : Tcb × List Segment :=
  let a := t.store s
  let b := (a.1.finish s).answer s
  (b.1.settle, a.2 ++ b.2)

/-- A handshake segment in `TCP_SYN_SENT`. -/
def greet (t : Tcb) (s : Segment) : Tcb × List Segment :=
  if s.flags.syn && s.flags.ack && s.ackNo = t.sndNxt then
    let t := { t with rcvNxt := s.seq + 1, sndUna := s.ackNo, state := .established }
    (t.advertised, [t.pureAck])
  else (t, [])

/-- The segment completes the passive handshake. -/
def joins (t : Tcb) (s : Segment) : Bool :=
  !s.flags.rst && t.state = .synReceived && s.flags.ack && s.ackNo = t.sndNxt

/-- `tcp_input` once the control block has been found; the accept queue of the listener is left to
    the table. -/
def input (t : Tcb) (s : Segment) : Tcb × List Segment :=
  if s.flags.rst then ({ t with reset := true, state := .closed }, [])
  else
    let t := t.acked s
    match t.state with
    | .synSent => t.greet s
    | .synReceived =>
      if !(s.flags.ack && s.ackNo = t.sndNxt) then (t, [])
      else deliver { t with state := .established } s
    | .established => t.deliver s
    | .finWait1 => t.deliver s
    | .finWait2 => t.deliver s
    | .lastAck => (if t.sndUna = t.sndNxt then { t with state := .closed } else t, [])
    | _ => (t, [])

/-! ## Receiving calls -/

/-- `tcp_window_update`. -/
def windowUpdate (t : Tcb) (freed : Nat) : Tcb × List Segment :=
  if freed = 0 || t.state ≠ .established then (t, [])
  else if t.advWnd < mss && 2 * mss ≤ t.window then (t.advertised, [t.pureAck])
  else (t, [])

/-- There is nothing to wait for: the end of the stream, a reset or a closed connection. -/
def ended (t : Tcb) : Bool := t.peerFin || t.reset || t.state = .closed

/-- The bytes a call with a buffer of `cap` bytes takes. -/
def taken (t : Tcb) (cap : UInt32) : Bytes := t.rx.take cap.toNat

/-- The control block without the bytes taken, and the window update they may cause. -/
def drain (t : Tcb) (cap : UInt32) : Tcb × List Segment :=
  windowUpdate { t with rx := t.rx.drop cap.toNat } (t.taken cap).length

end Tcb

/-- What a receiving call returns: its code and the bytes in the caller's buffer. -/
structure Received where
  code : Int
  bytes : Bytes
  deriving DecidableEq

namespace Tcb

/-- `net_tcp_recv_nb`. -/
def recvNb (t : Tcb) (cap : UInt32) : Tcb × Received × List Segment :=
  if !t.inUse then (t, ⟨-1, []⟩, [])
  else if t.rx = [] then (t, ⟨if t.ended then 0 else -2, []⟩, [])
  else ((t.drain cap).1, ⟨(t.taken cap).length, t.taken cap⟩, (t.drain cap).2)

/-- The loop of `net_tcp_recv` at the head, and the copy behind it; `none` is a wait. -/
def recvTry (t : Tcb) (cap : UInt32) (late : Bool) : Tcb × Option Received × List Segment :=
  if t.rx = [] && !t.ended then (t, if late then some ⟨-2, []⟩ else none, [])
  else if (t.taken cap).length = 0 then (t, some ⟨0, []⟩, [])
  else ((t.drain cap).1, some ⟨(t.taken cap).length, t.taken cap⟩, (t.drain cap).2)

end Tcb

/-! ## Sending calls -/

/-- Where a call of `net_tcp_send` waits: in `tcp_seg` with a chunk, or for progress. -/
inductive Pc
  | pushed (wnd chunk : UInt32)
  | waiting (unaBefore : UInt32)
  deriving DecidableEq

/-- A call of `net_tcp_send` under way. -/
structure Send where
  data : Bytes
  base : UInt32
  retransmits : Nat
  lastProgress : UInt64
  pc : Pc
  deriving DecidableEq

/-- What a call does until it waits again or returns. -/
structure Turn where
  tcb : Tcb
  call : Option Send
  result : Option Int
  out : List Segment

namespace Send

/-- `len`. -/
def len (c : Send) : UInt32 := UInt32.ofNat c.data.length

/-- The chunk the inner loop would send next. -/
def chunk (c : Send) (t : Tcb) (wnd : UInt32) : UInt32 :=
  let off := t.sndNxt - c.base
  let inflight := t.sndNxt - t.sndUna
  let chunk := if mss < c.len - off then mss else c.len - off
  if wnd < inflight + chunk then wnd - inflight else chunk

/-- The inner loop at the head: one more chunk, or the wait. -/
def push (c : Send) (t : Tcb) (wnd : UInt32) : Turn :=
  let off := t.sndNxt - c.base
  let inflight := t.sndNxt - t.sndUna
  let chunk := c.chunk t wnd
  if c.len ≤ off || wnd ≤ inflight || chunk = 0 then
    ⟨t, some { c with pc := .waiting t.sndUna }, none, []⟩
  else
    ⟨t.advertised, some { c with pc := .pushed wnd chunk }, none,
      [t.outgoing { psh := true, ack := true } t.sndNxt ((c.data.drop off.toNat).take chunk.toNat)]⟩

/-- The end of the call. -/
def finish (c : Send) (t : Tcb) (failed : Bool) : Turn :=
  let done := t.sndUna - c.base
  let ret : Int := if failed && done = 0 then -1 else if done < c.len then done.toNat else c.len.toNat
  ⟨t, none, some ret, []⟩

/-- The effective window. -/
def window (t : Tcb) : UInt32 :=
  let wnd := if t.sndWnd ≠ 0 then t.sndWnd else mss
  if t.cwnd < wnd then t.cwnd else wnd

/-- The outer loop at the head. -/
def loop (c : Send) (t : Tcb) : Turn :=
  if c.len ≤ t.sndUna - c.base then c.finish t false else c.push t (window t)

/-- The congestion window after progress. -/
def opened (t : Tcb) : Tcb :=
  let cwnd := if t.cwnd < t.ssthresh then t.cwnd + mss else t.cwnd + (mss * mss / t.cwnd + 1)
  { t with cwnd := if 65535 < cwnd then 65535 else cwnd }

/-- A retransmission timeout. -/
def backedOff (t : Tcb) : Tcb :=
  { t with
    ssthresh := if t.cwnd / 2 < 2 * mss then 2 * mss else t.cwnd / 2
    cwnd := mss
    sndNxt := t.sndUna }

/-- The call once `net_wait` has returned. -/
def awake (c : Send) (t : Tcb) (unaBefore : UInt32) (now : UInt64) : Turn :=
  if t.reset then c.finish t true
  else if t.sndUna ≠ unaBefore then loop { c with lastProgress := now } (opened t)
  else if rtxTicks < now - c.lastProgress then
    if retries < c.retransmits + 1 then finish { c with retransmits := c.retransmits + 1 } t true
    else loop { c with retransmits := c.retransmits + 1, lastProgress := now } (backedOff t)
  else c.loop t

/-- The call from where it waits on. -/
def resume (c : Send) (t : Tcb) (now : UInt64) : Turn :=
  match c.pc with
  | .pushed wnd chunk => c.push { t with sndNxt := t.sndNxt + chunk } wnd
  | .waiting unaBefore => c.awake t unaBefore now

end Send

/-- `net_tcp_send` up to its first wait. -/
def Tcb.send (t : Tcb) (data : Bytes) (now : UInt64) : Turn :=
  if !t.inUse || (t.state ≠ .established && t.state ≠ .closeWait) then ⟨t, none, some (-1), []⟩
  else
    let t := if t.cwnd = 0 then { t with cwnd := 4 * mss, ssthresh := 65535 } else t
    Send.loop
      { data, base := t.sndNxt, retransmits := 0, lastProgress := now, pc := .waiting t.sndUna } t

/-! ## Closing -/

/-- `net_tcp_close` up to its wait; it does not wait where it sends no FIN. -/
def Tcb.close (t : Tcb) : Tcb × Bool × List Segment :=
  if t.state = .established || t.state = .closeWait then
    let t := { t with state := if t.state = State.closeWait then State.lastAck else State.finWait1 }
    ({ t.advertised with sndNxt := t.sndNxt + 1 }, true,
      [t.outgoing { fin := true, ack := true } t.sndNxt []])
  else ({ t with inUse := false }, false, [])

end EmbLinkOs.Tcp
