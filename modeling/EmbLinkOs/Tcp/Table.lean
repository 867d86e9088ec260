import EmbLinkOs.Tcp.Tcb

set_option autoImplicit false

/-! # The connection table

The control blocks of `net/tcp/tcp.c` and the calls that allocate and free them, with the
applications around them: what an application holds is what `listen`, `connect` or `accept` returned
to it and it has not closed. A blocking call (`connect`, `accept`, `close`) is in the world from its
first wait to its return, and each of its turns is an input, as are the segments that arrive. -/

namespace EmbLinkOs.Tcp

open Function

/-- A segment and the address it is sent to. -/
structure Packet where
  dst : UInt32
  segment : Segment
  deriving DecidableEq

/-- `tcbs`, the address of the interface and the counters for ports and initial sequence numbers. -/
structure Table where
  tcbs : Fin 4 → Tcb
  ip : UInt32
  nextPort : UInt16
  nextIsn : UInt32
  srvIsn : UInt32

namespace Table

def set (T : Table) (i : Fin 4) (t : Tcb) : Table := { T with tcbs := update T.tcbs i t }

/-- The control block is that of the connection `(port, rip, rport)`. -/
def isConn (t : Tcb) (port : UInt16) (rip : UInt32) (rport : UInt16) : Bool :=
  t.inUse && t.state ≠ .listen && t.localPort = port && t.remoteIp = rip && t.remotePort = rport

def isListener (t : Tcb) (port : UInt16) : Bool :=
  t.inUse && t.state = .listen && t.localPort = port

/-- `tcb_find`. -/
def find (T : Table) (port : UInt16) (rip : UInt32) (rport : UInt16) : Option (Fin 4) :=
  (List.finRange 4).find? fun i => isConn (T.tcbs i) port rip rport

/-- `tcb_find_listener`. -/
def findListener (T : Table) (port : UInt16) : Option (Fin 4) :=
  (List.finRange 4).find? fun i => isListener (T.tcbs i) port

/-- The first control block that is not in use. -/
def findFree (T : Table) : Option (Fin 4) := (List.finRange 4).find? fun i => !(T.tcbs i).inUse

/-! ## Segments -/

/-- The control block `tcp_accept_syn` makes. -/
def child (T : Table) (l : Fin 4) (src : UInt32) (sport : UInt16) (seq : UInt32) : Tcb :=
  { Tcb.zero with
    inUse := true, localIp := T.ip, localPort := (T.tcbs l).localPort, remoteIp := src,
    remotePort := sport, rcvNxt := seq + 1, sndUna := T.srvIsn + 0x7C31, sndNxt := T.srvIsn + 0x7C31,
    state := .synReceived, parentListener := some l }

/-- `tcp_accept_syn`. -/
def acceptSyn (T : Table) (l : Fin 4) (src : UInt32) (sport : UInt16) (seq : UInt32) :
    Table × List Packet :=
  match T.findFree with
  | none => (T, [])
  | some i =>
    let t := T.child l src sport seq
    ({ T.set i { t.advertised with sndNxt := t.sndUna + 1 } with srvIsn := T.srvIsn + 0x7C31 },
      [⟨src, t.outgoing { syn := true, ack := true } t.sndUna []⟩])

/-- `tcp_send_rst`. -/
def sendRst (src : UInt32) (s : Segment) : Packet :=
  let seg : Segment :=
    { srcPort := s.dstPort, dstPort := s.srcPort, seq := 0, ackNo := 0, flags := {}, window := 0,
      data := [] }
  if s.flags.ack then ⟨src, { seg with seq := s.ackNo, flags := { rst := true } }⟩
  else
    ⟨src, { seg with
      ackNo := s.seq + s.len + (if s.flags.syn then 1 else 0), flags := { rst := true, ack := true } }⟩

/-- A child that has completed its handshake joins the queue of its listener. -/
def enqueue (T : Table) (i : Fin 4) : Table :=
  match (T.tcbs i).parentListener with
  | none => T
  | some l =>
    let lis := T.tcbs l
    if lis.inUse && lis.state = .listen && lis.acceptQ.length < acceptMax then
      T.set l { lis with acceptQ := lis.acceptQ ++ [i] }
    else T

/-- The listener a segment for no connection begins a handshake with. -/
def greeted (T : Table) (s : Segment) : Option (Fin 4) :=
  if s.flags.syn && !s.flags.ack then T.findListener s.dstPort else none

/-- `tcp_input`, from the parsed header on. -/
def input (T : Table) (src : UInt32) (s : Segment) : Table × List Packet :=
  match T.find s.dstPort src s.srcPort with
  | some i =>
    let t := T.tcbs i
    let r := t.input s
    let T := T.set i r.1
    (if t.joins s then T.enqueue i else T, r.2.map fun o => ⟨t.remoteIp, o⟩)
  | none =>
    match T.greeted s with
    | some l => T.acceptSyn l src s.srcPort s.seq
    | none => (T, if s.flags.rst then [] else [sendRst src s])

/-! ## Calls -/

/-- The control block `net_tcp_connect_start` makes. -/
def client (T : Table) (dst : UInt32) (dport : UInt16) : Tcb :=
  { Tcb.zero with
    inUse := true, localIp := T.ip, remoteIp := dst, localPort := T.nextPort, remotePort := dport,
    sndUna := T.nextIsn + 0x9E3F, sndNxt := T.nextIsn + 0x9E3F, state := .synSent }

/-- `net_tcp_connect_start`; `none` is `-1`. -/
def connectStart (T : Table) (dst : UInt32) (dport : UInt16) :
    Table × Option (Fin 4) × List Packet :=
  match T.findFree with
  | none => (T, none, [])
  | some i =>
    let t := T.client dst dport
    ({ T.set i { t.advertised with sndNxt := t.sndUna + 1 } with
        nextPort := T.nextPort + 1, nextIsn := T.nextIsn + 0x9E3F },
      some i, [⟨dst, t.outgoing { syn := true } t.sndUna []⟩])

/-- The SYN `net_tcp_connect` sends again. -/
def resendSyn (T : Table) (i : Fin 4) : Table × List Packet :=
  let t := T.tcbs i
  (T.set i { t.advertised with sndNxt := t.sndUna + 1 },
    [⟨t.remoteIp, t.outgoing { syn := true } t.sndUna []⟩])

/-- The control block `net_tcp_listen` makes. -/
def listener (T : Table) (port : UInt16) : Tcb :=
  { Tcb.zero with
    inUse := true, state := .listen, localIp := T.ip, localPort := port, parentListener := none }

/-- `net_tcp_listen`. -/
def listen (T : Table) (port : UInt16) : Table × Option (Fin 4) :=
  match T.findFree with
  | none => (T, none)
  | some i => (T.set i (T.listener port), some i)

def isListening (T : Table) (l : Fin 4) : Bool := (T.tcbs l).inUse && (T.tcbs l).state = .listen

/-- The head of the accept queue, taken off. -/
def dequeue (T : Table) (l : Fin 4) : Table × Option (Fin 4) :=
  match (T.tcbs l).acceptQ with
  | [] => (T, none)
  | c :: q => (T.set l { T.tcbs l with acceptQ := q }, some c)

/-- `net_tcp_abort`. -/
def abort (T : Table) (i : Fin 4) : Table := T.set i { T.tcbs i with state := .closed, inUse := false }

/-- `t->in_use = false`. -/
def release (T : Table) (i : Fin 4) : Table := T.set i { T.tcbs i with inUse := false }

end Table

/-! ## The world -/

/-- The table, what the applications hold, and the calls that wait: a connection attempt with its
    round, a call of `accept` with its listener, and the connections being closed. -/
structure World where
  table : Table
  held : Finset (Fin 4)
  connecting : Fin 4 → Option Nat
  accepting : Nat → Option (Fin 4)
  closing : Finset (Fin 4)

/-- What happened: a SYN to the listener `l` began the connection `i`, a call of `accept` started and
    returned, and a control block was freed. -/
inductive Event
  | syn (i l : Fin 4)
  | accepting (call : Nat) (l : Fin 4)
  | accepted (call : Nat) (l i : Fin 4) (lis t : Tcb)
  | freed (i : Fin 4)

inductive Input
  | segment (src : UInt32) (s : Segment)
  | listen (port : UInt16)
  | connectStart (dst : UInt32) (dport : UInt16)
  | connect (dst : UInt32) (dport : UInt16)
  | connectTurn (i : Fin 4) (late : Bool)
  | accept (call : Nat) (l : Fin 4) (nonblock : Bool)
  | acceptTurn (call : Nat) (late : Bool)
  | close (i : Fin 4)
  | closeTurn (i : Fin 4) (late : Bool)
  | abort (i : Fin 4)

namespace World

def setTable (w : World) (T : Table) : World := { w with table := T }

/-- The connections whose handshake a segment began. -/
def begun (w : World) (src : UInt32) (s : Segment) : List Event :=
  match w.table.find s.dstPort src s.srcPort with
  | some _ => []
  | none =>
    match w.table.greeted s with
    | none => []
    | some l => (w.table.findFree.map fun i => Event.syn i l).toList

/-- `poll_until` at the head, and the end of `net_tcp_connect` behind it. -/
def connectPoll (w : World) (i : Fin 4) (r : Nat) : World × List Event :=
  if (w.table.tcbs i).reset then
    ({ w with table := w.table.release i, connecting := update w.connecting i none }, [.freed i])
  else if (w.table.tcbs i).state = .established then
    ({ w with held := insert i w.held, connecting := update w.connecting i none }, [])
  else ({ w with connecting := update w.connecting i (some r) }, [])

/-- The loop of `net_tcp_connect` where an interval has passed. -/
def connectLate (w : World) (i : Fin 4) (r : Nat) : World × List Event :=
  if (w.table.tcbs i).reset || retries ≤ r + 1 then
    ({ w with table := w.table.release i, connecting := update w.connecting i none }, [.freed i])
  else connectPoll (w.setTable (w.table.resendSyn i).1) i (r + 1)

/-- The loop of `accept_flags` at the head; `last` says that the call does not wait any more. -/
def acceptPoll (w : World) (call : Nat) (l : Fin 4) (last : Bool) : World × List Event :=
  if !w.table.isListening l then ({ w with accepting := update w.accepting call none }, [])
  else match (w.table.dequeue l).2 with
    | some c =>
      ({ w with
          table := (w.table.dequeue l).1, held := insert c w.held,
          accepting := update w.accepting call none },
        [.accepted call l c (w.table.tcbs l) (w.table.tcbs c)])
    | none =>
      ({ w with accepting := update w.accepting call (if last then none else some l) }, [])

/-- The wait of `net_tcp_close` is over. -/
def settled (t : Tcb) : Bool :=
  t.state = .closed || t.state = .timeWait || t.state = .finWait2 || t.reset

/-- One input. An application only closes what it holds, and a turn is that of a call that waits. -/
def step (w : World) : Input → World × List Event
  | .segment src s => (w.setTable (w.table.input src s).1, w.begun src s)
  | .listen port =>
    let r := w.table.listen port
    ({ w with table := r.1, held := w.held ∪ r.2.toFinset }, [])
  | .connectStart dst dport =>
    let r := w.table.connectStart dst dport
    ({ w with table := r.1, held := w.held ∪ r.2.1.toFinset }, [])
  | .connect dst dport =>
    let r := w.table.connectStart dst dport
    match r.2.1 with
    | none => (w.setTable r.1, [])
    | some i => ({ w with table := r.1, connecting := update w.connecting i (some 0) }, [])
  | .connectTurn i late =>
    match w.connecting i with
    | none => (w, [])
    | some r => if late then w.connectLate i r else w.connectPoll i r
  | .accept call l nonblock =>
    if (w.accepting call).isSome || !w.table.isListening l then (w, [])
    else
      let r := w.acceptPoll call l nonblock
      (r.1, .accepting call l :: r.2)
  | .acceptTurn call late =>
    match w.accepting call with
    | none => (w, [])
    | some l => w.acceptPoll call l late
  | .close i =>
    if i ∉ w.held then (w, [])
    else
      let r := (w.table.tcbs i).close
      let w := { w with table := w.table.set i r.1, held := w.held.erase i }
      if r.2.1 then ({ w with closing := insert i w.closing }, []) else (w, [.freed i])
  | .closeTurn i late =>
    if i ∈ w.closing && (late || settled (w.table.tcbs i)) then
      ({ w with table := w.table.release i, closing := w.closing.erase i }, [.freed i])
    else (w, [])
  | .abort i =>
    if i ∉ w.held then (w, [])
    else ({ w with table := w.table.abort i, held := w.held.erase i }, [.freed i])

end World

/-- The connection table with the applications. -/
def stack : Machine World Input Event := ⟨World.step⟩

end EmbLinkOs.Tcp
