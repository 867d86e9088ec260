import EmbLinkOs.Ip.Ipv4
import EmbLinkOs.Lib.Machine
import EmbLinkOs.Lib.RingBuffer

set_option autoImplicit false

/-! # UDP sockets and the kernel's capture

`net/udp/udp.c`: eight sockets of user programs, each with a port and a queue of four datagrams, and
one capture that the kernel's own clients (`net/dns`, `net/dhcp`, `net/ntp`) arm on a port of theirs
while they wait for an answer. Both share the port space. `udp_input` looks through the sockets
first.

A call holds the network lock except where it waits, so a run is a list of the parts between two
waits. Datagrams sent leave no trace here but for the port that `net_udp_sendto` gives a socket
without one. -/

namespace EmbLinkOs.Udp

abbrev Bytes := Ip.Bytes

/-- `UDP_SOCKS`, `UDP_QUEUE`, `UDP_DGRAM_MAX` and `UDP_CAP_MAX`. -/
abbrev udpSocks : Nat := 8
def udpQueue : Nat := 4
def udpDgramMax : Nat := 1472
def udpCapMax : Nat := 1024

/-- `struct udp_dgram`. -/
structure Dgram where
  srcIp : UInt32
  srcPort : UInt16
  data : Bytes
  deriving DecidableEq

/-- `struct udp_sock`. Port 0 is none. -/
structure Sock where
  inUse : Bool
  port : UInt16
  q : Nat → Dgram
  qHead : Nat
  qN : Nat

/-- A slot all of zeros. -/
def Sock.zero : Sock := ⟨false, 0, fun _ => ⟨0, 0, []⟩, 0, 0⟩

/-- `g_udp`. -/
structure Capture where
  armed : Bool
  port : UInt16
  fromIp : UInt32
  peerIp : UInt32
  peerPort : UInt16
  buf : Bytes
  got : Bool

/-- The sockets, the next port to give out, the capture, and `g_net_service`, which a client of the
    kernel holds as long as it waits. -/
structure Stack where
  socks : Fin udpSocks → Sock
  eph : UInt16
  cap : Capture
  service : Bool

/-- At boot. -/
def Stack.init : Stack := ⟨fun _ => .zero, 49152, ⟨false, 0, 0, 0, 0, [], false⟩, false⟩

def Stack.set (s : Stack) (us : Fin udpSocks) (x : Sock) : Stack :=
  { s with socks := Function.update s.socks us x }

/-! ## Datagrams in -/

/-- A UDP segment: the ports of its header and its data. -/
structure Segment where
  srcPort : UInt16
  dstPort : UInt16
  data : Bytes
  deriving DecidableEq

/-- The checks at the start of `udp_input`. -/
def Segment.ofBytes (seg : Bytes) : Option Segment :=
  if seg.length < 8 then none
  else
    let dlen := (Ip.rd16 seg 4).toNat
    if dlen < 8 || seg.length < dlen then none
    else some ⟨Ip.rd16 seg 0, Ip.rd16 seg 2, (seg.drop 8).take (dlen - 8)⟩

/-- A datagram at the end of a socket's queue. -/
def Sock.push (x : Sock) (d : Dgram) : Sock :=
  { x with q := Function.update x.q ((x.qHead + x.qN) % udpQueue) d, qN := x.qN + 1 }

/-- The capture takes an answer: from the peer if it asked for one, and only the first. -/
def Capture.take (c : Capture) (srcIp : UInt32) (g : Segment) : Capture :=
  if (c.peerIp ≠ 0 && c.peerIp ≠ srcIp) || (c.peerPort ≠ 0 && c.peerPort ≠ g.srcPort) then c
  else if c.got then c
  else { c with buf := g.data.take udpCapMax, fromIp := srcIp, got := true }

/-- What can be seen of the sockets and the ports. -/
inductive Event where
  | opened (us : Fin udpSocks)
  /-- A datagram went into a socket's queue. -/
  | queued (us : Fin udpSocks) (d : Dgram)
  /-- A datagram came out of it, and the bytes of it the caller got. -/
  | took (us : Fin udpSocks) (d : Dgram) (bytes : Bytes)
  /-- The port was closed. -/
  | unreachable
  deriving DecidableEq

namespace Stack

/-- The first socket on a port. -/
def listener (s : Stack) (port : UInt16) : Option (Fin udpSocks) :=
  (List.finRange udpSocks).find? fun us => (s.socks us).inUse && (s.socks us).port = port

/-- `udp_input` behind its checks. -/
def demux (s : Stack) (srcIp : UInt32) (g : Segment) : Stack × List Event :=
  match s.listener g.dstPort with
  | some us =>
    if (s.socks us).qN < udpQueue then
      let d : Dgram := ⟨srcIp, g.srcPort, g.data.take udpDgramMax⟩
      (s.set us ((s.socks us).push d), [.queued us d])
    else (s, [])
  | none =>
    if s.cap.armed && g.dstPort = s.cap.port then ({ s with cap := s.cap.take srcIp g }, [])
    else (s, [.unreachable])

/-- `udp_input`. A malformed segment is dropped. -/
def udpInput (s : Stack) (srcIp : UInt32) (seg : Bytes) : Stack × List Event :=
  match Segment.ofBytes seg with
  | none => (s, [])
  | some g => s.demux srcIp g

/-! ## Calls of programs -/

/-- `net_udp_open`. -/
def netUdpOpen (s : Stack) : Stack × List Event :=
  match (List.finRange udpSocks).find? fun us => !(s.socks us).inUse with
  | some us => (s.set us { Sock.zero with inUse := true }, [.opened us])
  | none => (s, [])

/-- `net_udp_bind`. -/
def netUdpBind (s : Stack) (us : Fin udpSocks) (port : UInt16) : Stack :=
  if (s.socks us).inUse then
    if (List.finRange udpSocks).any fun i =>
        i ≠ us && (s.socks i).inUse && port ≠ 0 && (s.socks i).port = port
    then s
    else s.set us { s.socks us with port }
  else s

/-- `net_udp_sendto`, up to the datagram it sends. -/
def netUdpSendto (s : Stack) (us : Fin udpSocks) : Stack :=
  if (s.socks us).inUse && (s.socks us).port = 0 then
    { s.set us { s.socks us with port := s.eph } with
      eph := if s.eph + 1 = 0 then 49152 else s.eph + 1 }
  else s

/-- A turn of the loop of `recvfrom_flags`, with room for `room` bytes. -/
def recvfrom (s : Stack) (us : Fin udpSocks) (room : Nat) : Stack × List Event :=
  let x := s.socks us
  if x.inUse && 0 < x.qN then
    (s.set us { x with qHead := (x.qHead + 1) % udpQueue, qN := x.qN - 1 },
      [.took us (x.q x.qHead) ((x.q x.qHead).data.take room)])
  else (s, [])

/-- `net_udp_close` and `net_udp_abort`. -/
def netUdpClose (s : Stack) (us : Fin udpSocks) : Stack :=
  s.set us { s.socks us with inUse := false }

/-! ## Exchanges of the kernel -/

/-- `udp_arm_peer`; `udp_arm` is the case without a peer. -/
def udpArmPeer (s : Stack) (port : UInt16) (ip : UInt32) (peerPort : UInt16) : Stack :=
  { s with cap := { s.cap with
      port, armed := true, buf := [], fromIp := 0, got := false, peerIp := ip, peerPort } }

/-- The end of `udp_collect`. -/
def udpCollect (s : Stack) : Stack :=
  if s.service then { s with cap := { s.cap with armed := false }, service := false } else s

end Stack

/-- The clients that wait on the capture. -/
inductive Exchange where
  | dns (server : UInt32)
  | dhcp
  | ntp
  deriving DecidableEq

/-- `DNS_EPH_PORT`, `DHCP_CLIENT_PORT` and `NTP_EPH_PORT`. -/
def Exchange.port : Exchange → UInt16
  | .dns _ => 0xC000
  | .dhcp => 68
  | .ntp => 0xC123

/-- Whom the answer is taken from. -/
def Exchange.peer : Exchange → UInt32 × UInt16
  | .dns server => (server, 53)
  | .dhcp => (0, 67)
  | .ntp => (0, 0)

/-- An exchange up to its wait: it takes `g_net_service`, arms the capture and sends. Where the send
    fails the client returns at once, without `udp_collect`. -/
def Stack.exchange (s : Stack) (x : Exchange) (sent : Bool) : Stack :=
  if s.service then s
  else { s.udpArmPeer x.port x.peer.1 x.peer.2 with service := sent }

/-! ## Runs -/

inductive Input where
  | socket
  | bind (us : Fin udpSocks) (port : UInt16)
  | sendto (us : Fin udpSocks)
  | recvfrom (us : Fin udpSocks) (room : Nat)
  | close (us : Fin udpSocks)
  | exchange (x : Exchange) (sent : Bool)
  | collect
  | datagram (srcIp : UInt32) (seg : Bytes)

def stack : Machine Stack Input Event where
  step s
    | .socket => s.netUdpOpen
    | .bind us port => (s.netUdpBind us port, [])
    | .sendto us => (s.netUdpSendto us, [])
    | .recvfrom us room => s.recvfrom us room
    | .close us => (s.netUdpClose us, [])
    | .exchange x sent => (s.exchange x sent, [])
    | .collect => (s.udpCollect, [])
    | .datagram srcIp seg => s.udpInput srcIp seg

/-! ## What programs may rely on -/

namespace Stack

/-- A socket is bound to a port. -/
def Bound (s : Stack) (us : Fin udpSocks) (port : UInt16) : Prop :=
  (s.socks us).inUse = true ∧ (s.socks us).port = port ∧ port ≠ 0

/-- An exchange of the kernel waits on a port. -/
def Pending (s : Stack) (port : UInt16) : Prop := s.service = true ∧ s.cap.port = port

instance (s : Stack) (us : Fin udpSocks) (port : UInt16) : Decidable (s.Bound us port) :=
  inferInstanceAs (Decidable (_ ∧ _ ∧ _))

instance (s : Stack) (port : UInt16) : Decidable (s.Pending port) :=
  inferInstanceAs (Decidable (_ ∧ _))

/-- No two open sockets have one port. -/
def Distinct (s : Stack) : Prop := ∀ j k port, s.Bound j port → s.Bound k port → j = k

/-- A datagram goes to the one socket or exchange that its port names, or to none. A full queue
    drops it. -/
structure Delivers (s : Stack) (srcIp : UInt32) (g : Segment) : Prop where
  socket : ∀ us, s.Bound us g.dstPort → (∀ j, s.Bound j g.dstPort → j = us) ∧
    ¬ s.Pending g.dstPort ∧ s.demux srcIp g =
      if (s.socks us).qN < udpQueue then
        (s.set us ((s.socks us).push ⟨srcIp, g.srcPort, g.data⟩),
          [.queued us ⟨srcIp, g.srcPort, g.data⟩])
      else (s, [])
  exchange : s.Pending g.dstPort → (∀ us, ¬ s.Bound us g.dstPort) ∧
    s.demux srcIp g = ({ s with cap := s.cap.take srcIp g }, [])
  nobody : (∀ us, ¬ s.Bound us g.dstPort) → ¬ s.Pending g.dstPort →
    s.demux srcIp g = (s, [.unreachable])

/-- A step leaves no two sockets on one port, gives out only a port that nobody uses, hands a
    datagram to the one it is for, and a caller the bytes of the datagram it has room for. -/
def Good (s : Stack) (i : Input) : Prop :=
  (stack.step s i).1.Distinct ∧
    match i with
    | .sendto us => (s.socks us).inUse = true → (s.socks us).port = 0 →
        ∀ port, (s.netUdpSendto us).Bound us port → (∀ k, ¬ s.Bound k port) ∧ ¬ s.Pending port
    | .recvfrom us room => ∀ d bytes, .took us d bytes ∈ (s.recvfrom us room).2 →
        bytes = d.data.take room
    | .datagram srcIp seg => ∀ g, Segment.ofBytes seg = some g → s.Delivers srcIp g
    | _ => True

/-- The steps on which the ports stay apart: a port is given out, bound or armed only where nobody
    uses it, an exchange waits once it has armed the capture, and a datagram fits a queue and names a
    port. -/
def Guarded (s : Stack) : Input → Prop
  | .bind _ port => ¬ s.Pending port
  | .sendto us => (s.socks us).inUse = true → (s.socks us).port = 0 →
      (∀ k, ¬ s.Bound k s.eph) ∧ ¬ s.Pending s.eph
  | .exchange x sent => sent = true ∧ ∀ k, ¬ s.Bound k x.port
  | .datagram _ seg => ∀ g, Segment.ofBytes seg = some g → g.data.length ≤ udpDgramMax ∧
      (g.dstPort = 0 → ∀ us, (s.socks us).inUse = true → (s.socks us).port ≠ 0)
  | _ => True

end Stack

/-- The datagrams that went into a socket's queue since it was opened. -/
def queued (us : Fin udpSocks) (h : List Event) : List Dgram :=
  h.foldl (fun ds e => match e with
    | .opened k => if k = us then [] else ds
    | .queued k d => if k = us then ds ++ [d] else ds
    | _ => ds) []

/-- The datagrams that came out of it since it was opened. -/
def returned (us : Fin udpSocks) (h : List Event) : List Dgram :=
  h.foldl (fun ds e => match e with
    | .opened k => if k = us then [] else ds
    | .took k d _ => if k = us then ds ++ [d] else ds
    | _ => ds) []

/-- Every socket returns its datagrams in the order they came. -/
def InOrder (h : List Event) : Prop := ∀ us, returned us h <+: queued us h

end EmbLinkOs.Udp
