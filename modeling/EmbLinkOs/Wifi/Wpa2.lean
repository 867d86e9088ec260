import EmbLinkOs.Lib.Machine
import EmbLinkOs.Wifi.Wpa2Crypto

set_option autoImplicit false

/-! # The WPA2 supplicant

`wpa2.c` as a machine. An input is a received EAPOL frame, a timer tick or a stop, together with what
the adapter's operations answer if the step calls them (each step calls each of them at most once);
the events are the frames taken up and the calls made. A zero return code of an operation is `true`.
The state holds as much of `reply` as `reply_len` counts, so `reply_len = 0` is the empty list. -/

namespace EmbLinkOs.Wifi

/-- `PAIR_M1` .. `GROUP_M2`: the key information fields of the six messages. -/
def pairM1 : Nat := 0x008a
def pairM2 : Nat := 0x010a
def pairM3 : Nat := 0x13ca
def pairM4 : Nat := 0x030a
def groupM1 : Nat := 0x1382
def groupM2 : Nat := 0x0302

def keyFixed : Nat := 99
def micAt : Nat := 81
def retryMs : UInt64 := 1000
def maxAttempts : UInt32 := 4
def eapolMax : Nat := 512
def rsnMax : Nat := 257

/-- `wifi_wpa2_station_rsn`. -/
def stationRsn : Bytes := [48, 20, 1, 0, 0, 15, 172, 4, 1, 0, 0, 15, 172, 4, 1, 0, 0, 15, 172, 2, 0, 0]

def be16 (p : Bytes) (i : Nat) : Nat := (byteAt p i).toNat * 256 + (byteAt p (i + 1)).toNat

def be64 (p : Bytes) (i : Nat) : Nat := (slice p i 8).foldl (fun v b => v * 256 + b.toNat) 0

def put16 (v : Nat) : Bytes := [UInt8.ofNat (v / 256), UInt8.ofNat v]

/-- `enum wifi_wpa2_state`. -/
inductive Phase
  | idle | m1 | m3 | m4 | connected | failed
  deriving DecidableEq, Repr

/-- `struct wifi_wpa2_keys`. -/
structure Keys where
  pairwise : Bool
  group : Bool
  gtkId : UInt8
  tk : Bytes
  gtk : Bytes
  groupRsc : Nat
  deriving DecidableEq, Repr

/-- `struct wifi_wpa2`. -/
structure Supplicant where
  phase : Phase
  sta : Bytes
  ap : Bytes
  pmk : Bytes
  ptk : Bytes
  snonce : Bytes
  anonce : Bytes
  apRsn : Bytes
  lastDigest : Bytes
  reply : Bytes
  attempts : UInt32
  replay : Nat
  deadline : UInt64
  haveReplay : Bool
  replyProtected : Bool
  authorized : Bool

/-- What a step shows: the frames it was given and its calls of `ops`. -/
inductive Event
  | rx (frame : Bytes)
  | random (nonce : Option Bytes)
  | send (frame : Bytes) (protect ok : Bool)
  | install (keys : Keys) (ok : Bool)
  | port (up : Bool)
  deriving DecidableEq

/-- A stimulus and the answers of the operations it may lead to. -/
inductive Input
  | rx (frame : Bytes) (now : UInt64) (random : Option Bytes) (installOk sendOk : Bool)
  | tick (now : UInt64) (sendOk : Bool)
  | stop

/-! ## The key data -/

/-- `plain[at]==221` and nothing but zeros behind it. -/
def isPadding (rest : Bytes) : Bool := byteAt rest 0 = 221 && !nonzero (rest.drop 1)

/-- The key identifier and the key of a GTK element. -/
def isGtk (ie : Bytes) : Bool :=
  byteAt ie 0 = 221 && 6 ≤ ie.length && byteAt ie 2 = 0 && byteAt ie 3 = 15 && byteAt ie 4 = 172 &&
    byteAt ie 5 = 1

/-- The loop of `key_data` over the elements that are left, with `rsn_seen` and the group key found.
    `none` is its `goto out`. -/
def scanKeyData (apRsn : Bytes) (rest : Bytes) (rsnSeen : Bool) (gtk : Option (UInt8 × Bytes)) :
    Option (Bool × Option (UInt8 × Bytes)) :=
  if rest.length = 0 then some (rsnSeen, gtk)
  else if isPadding rest then some (rsnSeen, gtk)
  else if h : rest.length < 2 ∨ rest.length - 2 < (byteAt rest 1).toNat then none
  else
    let len := (byteAt rest 1).toNat + 2
    let ie := rest.take len
    if byteAt ie 0 = 48 then
      if rsnSeen || ie ≠ apRsn then none else scanKeyData apRsn (rest.drop len) true gtk
    else if isGtk ie then
      if gtk.isSome || len ≠ 24 || byteAt ie 6 &&& ~~~7 ≠ 0 || byteAt ie 7 ≠ 0 then none
      else scanKeyData apRsn (rest.drop len) rsnSeen (some (byteAt ie 6 &&& 3, slice ie 8 16))
    else scanKeyData apRsn (rest.drop len) rsnSeen gtk
  termination_by rest.length
  decreasing_by all_goals (simp only [List.length_drop]; omega)

section

variable [Primitives]

/-- `key_data`: the group key, where the frame carries one and, for a pairwise message, the RSN
    element of the beacon. -/
def keyData (ptk apRsn data : Bytes) (pair : Bool) : Option (UInt8 × Bytes) :=
  match wpa2Unwrap (slice ptk 16 16) data 256 with
  | none => none
  | some plain =>
    match scanKeyData apRsn plain false none with
    | some (rsnSeen, some gtk) => if !pair || rsnSeen then some gtk else none
    | _ => none

/-! ## Frames -/

/-- A frame with the field of the integrity code cleared. -/
def clearMic (p : Bytes) : Bytes := p.take micAt ++ zeros 16 ++ p.drop (micAt + 16)

/-- `valid_mic`: the frame's integrity code is the one under the confirmation key of `ptk`. -/
def validMic (ptk p : Bytes) : Bool := wpa2Mic (ptk.take 16) (clearMic p) = slice p micAt 16

/-- `response` before its integrity code is put in. -/
def replyBody (in0 : UInt8) (replay : Bytes) (info : Nat) (nonce rsn : Bytes) : Bytes :=
  [in0, 3] ++ put16 (keyFixed + rsn.length - 4) ++ [2] ++ put16 info ++ zeros 2 ++ replay ++ nonce ++
    zeros 48 ++ put16 rsn.length ++ rsn

/-- `response`: the answer to the frame `p`, with the nonce and the element of the station or without
    both. -/
def response (ptk snonce p : Bytes) (info : Nat) (withRsn : Bool) : Bytes :=
  let body := replyBody (byteAt p 0) (slice p 9 8) info (if withRsn then snonce else zeros 32)
    (if withRsn then stationRsn else [])
  body.take micAt ++ wpa2Mic (ptk.take 16) body ++ body.drop (micAt + 16)

/-- The header checks `wifi_wpa2_rx` makes before it looks at its state. -/
def wellFormed (p : Bytes) : Bool :=
  keyFixed ≤ p.length && p.length ≤ eapolMax && 1 ≤ byteAt p 0 && byteAt p 0 ≤ 2 && byteAt p 1 = 3 &&
    be16 p 2 = p.length - 4 && byteAt p 4 = 2 && be16 p 97 = p.length - keyFixed

/-- The fields of a key frame. -/
def keyInfo (p : Bytes) : Nat := be16 p 5
def keyLength (p : Bytes) : Nat := be16 p 7
def replayOf (p : Bytes) : Nat := be64 p 9
def nonceOf (p : Bytes) : Bytes := slice p 17 32
def dataOf (p : Bytes) : Bytes := p.drop keyFixed

/-- The receive counter of the group key, 48 bits, little endian. -/
def groupRsc (p : Bytes) : Nat := ((slice p 65 6).reverse).foldl (fun v b => v * 256 + b.toNat) 0

/-! ## The state machine -/

namespace Supplicant

/-- `port`. -/
def port (s : Supplicant) (up : Bool) : Supplicant × List Event :=
  if s.authorized = up then (s, []) else ({ s with authorized := up }, [.port up])

/-- `fail`. -/
def fail (s : Supplicant) : Supplicant × List Event :=
  ({ (s.port false).1 with
      phase := .failed, reply := [], ptk := zeros 48, pmk := zeros 32, snonce := zeros 32 },
    (s.port false).2)

/-- `send_reply`. -/
def sendReply (s : Supplicant) (now : UInt64) (ok : Bool) : Supplicant × List Event :=
  let s := { s with deadline := now + retryMs, attempts := s.attempts + 1 }
  let sent := Event.send s.reply s.replyProtected ok
  if ok && s.phase = .m4 then
    ((port { s with phase := .connected } true).1, sent :: (port { s with phase := .connected } true).2)
  else (s, [sent])

/-- The end of `wifi_wpa2_rx`: the frame `p` is the last one answered. -/
def accept (s : Supplicant) (p : Bytes) (now : UInt64) (sendOk : Bool) : Supplicant × List Event :=
  sendReply { s with haveReplay := true, replay := replayOf p, lastDigest := sha1 p, attempts := 0 }
    now sendOk

/-- A frame with the replay counter of the last one answered. -/
def rxDuplicate (s : Supplicant) (p : Bytes) (now : UInt64) (sendOk : Bool) :
    Int × Supplicant × List Event :=
  if s.reply.isEmpty || sha1 p ≠ s.lastDigest then (0, s, [])
  else if s.phase ≠ .connected && maxAttempts ≤ s.attempts then (0, s, [])
  else (1, s.sendReply now sendOk)

/-- Message 1 of the pairwise handshake. It is not authenticated. -/
def rxPairM1 (s : Supplicant) (p : Bytes) (now : UInt64) (random : Option Bytes) (sendOk : Bool) :
    Int × Supplicant × List Event :=
  if (s.phase ≠ .m1 && s.phase ≠ .m3) || keyLength p ≠ 16 || !nonzero (nonceOf p) then (0, s, [])
  else match random with
    | none => (-1, s.fail.1, .random none :: s.fail.2)
    | some snonce =>
      if !nonzero snonce then (-1, s.fail.1, .random (some snonce) :: s.fail.2)
      else
        let ptk := wpa2Ptk s.pmk s.sta s.ap snonce (nonceOf p)
        let s := { s with
          snonce := snonce, anonce := nonceOf p, ptk := ptk,
          reply := response ptk snonce p pairM2 true, replyProtected := false, phase := .m3 }
        (1, (s.accept p now sendOk).1, .random (some snonce) :: (s.accept p now sendOk).2)

/-- The checks on a message that carries keys: message 3 or the group message 1, at its time and
    with a valid integrity code. -/
def takesKeys (s : Supplicant) (p : Bytes) : Bool :=
  let pair := keyInfo p = pairM3
  (pair || keyInfo p = groupM1) && keyLength p = 16 && 24 ≤ (dataOf p).length &&
    (!pair || s.phase = .m3) && (pair || s.phase = .connected) && (!pair || nonceOf p = s.anonce) &&
    validMic s.ptk p && byteAt p 71 = 0 && byteAt p 72 = 0

/-- Message 3 and the group message 1. -/
def rxKeys (s : Supplicant) (p : Bytes) (now : UInt64) (installOk sendOk : Bool) :
    Int × Supplicant × List Event :=
  if !s.takesKeys p then (0, s, [])
  else
    let pair : Bool := keyInfo p = pairM3
    match keyData s.ptk s.apRsn (dataOf p) pair with
    | none => (0, s, [])
    | some (gtkId, gtk) =>
      let keys : Keys :=
        { pairwise := pair, group := true, gtkId, gtk, groupRsc := groupRsc p,
          tk := if pair then slice s.ptk 32 16 else zeros 16 }
      if !installOk then (-1, s.fail.1, .install keys false :: s.fail.2)
      else
        let s := { s with
          reply := response s.ptk s.snonce p (if pair then pairM4 else groupM2) false
          replyProtected := !pair, phase := if pair then .m4 else s.phase }
        (1, (s.accept p now sendOk).1, .install keys true :: (s.accept p now sendOk).2)

/-- `wifi_wpa2_rx`. -/
def rx (s : Supplicant) (p : Bytes) (now : UInt64) (random : Option Bytes)
    (installOk sendOk : Bool) : Int × Supplicant × List Event :=
  if s.phase = .idle || s.phase = .failed || !wellFormed p then (0, s, [])
  else if s.haveReplay && replayOf p < s.replay then (0, s, [])
  else if s.haveReplay && replayOf p = s.replay then s.rxDuplicate p now sendOk
  else if keyInfo p = pairM1 then s.rxPairM1 p now random sendOk
  else s.rxKeys p now installOk sendOk

/-- `wifi_wpa2_tick`. -/
def tick (s : Supplicant) (now : UInt64) (sendOk : Bool) : Supplicant × List Event :=
  if s.phase = .idle || s.phase = .failed || s.phase = .connected || now < s.deadline then (s, [])
  else if s.reply.isEmpty || maxAttempts ≤ s.attempts then s.fail
  else s.sendReply now sendOk

/-- The erased object. -/
def idle : Supplicant :=
  { phase := .idle, sta := zeros 6, ap := zeros 6, pmk := zeros 32, ptk := zeros 48,
    snonce := zeros 32, anonce := zeros 32, apRsn := [], lastDigest := zeros 20, reply := [],
    attempts := 0, replay := 0, deadline := 0, haveReplay := false, replyProtected := false,
    authorized := false }

/-- `wifi_wpa2_stop`. -/
def stop (s : Supplicant) : Supplicant × List Event :=
  (idle, if s.authorized then [.port false] else [])

/-- `wifi_wpa2_start` on an RSN element of a beacon; `none` is its return code -1. -/
def start (sta ap pmk rsn : Bytes) (now : UInt64) : Option (Supplicant × List Event) :=
  if rsn.length < 2 || rsnMax < rsn.length || byteAt rsn 0 ≠ 48 ||
      (byteAt rsn 1).toNat ≠ rsn.length - 2 || !rsnCcmpPsk (rsn.drop 2) then none
  else some ({ idle with sta, ap, pmk, apRsn := rsn, phase := .m1, deadline := now + retryMs * 4 },
    [.port false])

/-- One stimulus. -/
def step (s : Supplicant) : Input → Supplicant × List Event
  | .rx p now random installOk sendOk =>
    ((s.rx p now random installOk sendOk).2.1, .rx p :: (s.rx p now random installOk sendOk).2.2)
  | .tick now sendOk => s.tick now sendOk
  | .stop => s.stop

end Supplicant

/-- The supplicant between `wifi_wpa2_start` and its end. -/
def supplicant : Machine Supplicant Input Event := ⟨Supplicant.step⟩

end

end EmbLinkOs.Wifi
