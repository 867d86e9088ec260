import EmbLinkOs.Lib.Machine
import EmbLinkOs.Lib.Registry

set_option autoImplicit false

/-! # Channels

Message channels between two ends. The queues, the flags and all waiting are guarded by one lock;
what a call does from taking it to giving it up is one step. A call that has to wait may have its
next turn at any moment, so every order of wake-ups is covered.

A channel is an object in memory, and a handle is a pointer to one of its two ends. A call looks its
handle up before it takes the lock and keeps the pointer; nothing counts that use. So the model has
addresses: a channel whose last end is released is gone, its address may be given to another channel,
and a call that still has the old pointer then works on the new one. -/

namespace EmbLinkOs.Ipc.Channels

open Function
open List

open Registry (update_eq_some Numbered)

/-- `CHAN_MSG_MAX_BYTES`. -/
def chanMsgMaxBytes : Nat := 4096

/-- `CHAN_MSG_MAX_HANDLES`. -/
def chanMsgMaxHandles : Nat := 8

/-- `CHAN_QUEUE_MAX`. -/
def chanQueueMax : Nat := 32

/-- `OBJ_HANDLE_MAX`. -/
def objHandleMax : Nat := 32

inductive Errno
  | einval | emsgsize | enomem | epipe | ecanceled | emfile
deriving DecidableEq, Repr

/-- What a handle points at: an end of the channel at an address, or something that is no channel. -/
inductive Obj
  | chanEnd (addr : Nat) (side : Bool)
  | other (n : Nat)
deriving DecidableEq, Repr

/-- `struct chan_handle_ref`, with the sender's slot it was taken from. -/
structure HandleRef where
  slot : Nat
  obj : Obj
  isMove : Bool
deriving DecidableEq, Repr

/-- `struct chan_msg`. -/
structure Msg where
  bytes : List UInt8
  handles : List HandleRef
deriving DecidableEq, Repr

/-- `struct channel`: the inbox of each end, whether its peer has hung up, and the number of ends
    that are open. -/
structure Chan where
  id : Nat
  inbox : Bool → List Msg
  peerClosed : Bool → Bool
  refcount : Int

inductive Op
  | send (msg : Msg)
  | recv (buflen : Nat)

/-- A call under way: the end it looked up, and the channel that end then belonged to. -/
structure Call where
  tid : Nat
  pid : Nat
  addr : Nat
  side : Bool
  id : Nat
  op : Op

structure Sys where
  chans : Nat → Option Chan
  nextId : Nat
  handles : Nat → Nat → Option Obj
  calls : List Call

/-- What the callers saw, by the channel a call was made on and the end its messages go to. -/
inductive Event
  | sent (id : Nat) (dst : Bool) (bytes : List UInt8)
  | received (id : Nat) (dst : Bool) (bytes : List UInt8)
  /-- A send or a receive failed once it had its end. -/
  | sendFailed (id : Nat) (dst : Bool) (e : Errno)
  | recvFailed (id : Nat) (dst : Bool) (e : Errno)
  /-- A call failed before it got that far. -/
  | refused (e : Errno)
deriving DecidableEq, Repr

def Chan.setInbox (ch : Chan) (side : Bool) (q : List Msg) : Chan :=
  { ch with inbox := update ch.inbox side q }

/-- The channel after `channel_release_raw_end_locked` of one end. -/
def Chan.released (ch : Chan) (side : Bool) : Chan :=
  { ch with
    inbox := update ch.inbox side [],
    peerClosed := update ch.peerClosed (!side) true,
    refcount := ch.refcount - 1 }

namespace Sys

def setHandle (s : Sys) (pid i : Nat) (o : Option Obj) : Sys :=
  { s with handles := update s.handles pid (update (s.handles pid) i o) }

/-- The slot `obj_handle_alloc` takes. -/
def freeSlot (s : Sys) (pid : Nat) : Option Nat :=
  (List.range objHandleMax).find? fun i => (s.handles pid i).isNone

/-- `obj_handle_alloc`, where a handle that has no slot is dropped. -/
def install (s : Sys) (pid : Nat) (o : Obj) : Sys :=
  match s.freeSlot pid with
  | some i => s.setHandle pid i (some o)
  | none => s

def setChan (s : Sys) (a : Nat) (c : Option Chan) : Sys :=
  { s with chans := update s.chans a c }

def endCall (s : Sys) (tid : Nat) : Sys := { s with calls := s.calls.filter (·.tid ≠ tid) }

/-- The identity of the channel at an address. -/
def idAt (s : Sys) (a : Nat) : Nat := ((s.chans a).map Chan.id).getD 0

def freshChan (id : Nat) : Chan := ⟨id, fun _ => [], fun _ => false, 2⟩

/-- `channel_create_pair` in memory that `kmalloc` found at `a`. -/
def channelCreatePair (s : Sys) (pid a : Nat) : Sys × List Event :=
  match s.chans a, (List.range objHandleMax).filter (fun i => (s.handles pid i).isNone) with
  | some _, _ => (s, [])
  | none, i :: j :: _ =>
    ((({ s with nextId := s.nextId + 1 }.setChan a (some (freshChan (s.nextId + 1)))).setHandle
      pid i (some (.chanEnd a false))).setHandle pid j (some (.chanEnd a true)), [])
  | none, _ => (s, [.refused .emfile])

/-- The handles of a message, looked up before the lock is taken. -/
def collect (s : Sys) (pid : Nat) : List (Nat × Bool) → Option (List HandleRef)
  | [] => some []
  | (i, move) :: rest => do
    let o ← s.handles pid i
    let refs ← s.collect pid rest
    pure (⟨i, o, move⟩ :: refs)

/-- `channel_send` up to the lock. -/
def enterSend (s : Sys) (tid pid h : Nat) (bytes : List UInt8) (hnds : List (Nat × Bool)) (oom : Bool) :
    Sys × List Event :=
  if s.calls.any (·.tid = tid) then (s, [])
  else match s.handles pid h with
    | some (.chanEnd a side) =>
      if chanMsgMaxBytes < bytes.length then (s, [.refused .emsgsize])
      else if chanMsgMaxHandles < hnds.length then (s, [.refused .einval])
      else if oom then (s, [.refused .enomem])
      else match s.collect pid hnds with
        | none => (s, [.refused .einval])
        | some refs =>
          ({ s with calls := ⟨tid, pid, a, side, s.idAt a, .send ⟨bytes, refs⟩⟩ :: s.calls }, [])
    | _ => (s, [.refused .einval])

/-- `channel_recv` up to the lock. -/
def enterRecv (s : Sys) (tid pid h buflen : Nat) : Sys × List Event :=
  if s.calls.any (·.tid = tid) then (s, [])
  else match s.handles pid h with
    | some (.chanEnd a side) =>
      ({ s with calls := ⟨tid, pid, a, side, s.idAt a, .recv buflen⟩ :: s.calls }, [])
    | _ => (s, [.refused .einval])

/-- The sender's slots of the handles that move are cleared. -/
def consume (s : Sys) (pid : Nat) (refs : List HandleRef) : Sys :=
  refs.foldl (fun s r => if r.isMove then s.setHandle pid r.slot none else s) s

/-- A turn of `channel_send` at the lock. -/
def sendTurn (s : Sys) (c : Call) (ch : Chan) (msg : Msg) (cancelled : Bool) : Sys × List Event :=
  if ch.peerClosed c.side then (s.endCall c.tid, [.sendFailed c.id (!c.side) .epipe])
  else if chanQueueMax ≤ (ch.inbox (!c.side)).length then
    if cancelled then (s.endCall c.tid, [.sendFailed c.id (!c.side) .ecanceled]) else (s, [])
  else
    (((s.consume c.pid msg.handles).setChan c.addr
        (some (ch.setInbox (!c.side) (ch.inbox (!c.side) ++ [msg])))).endCall c.tid,
      [.sent c.id (!c.side) msg.bytes])

/-- A turn of `channel_recv` at the lock, and the delivery that follows it. -/
def recvTurn (s : Sys) (c : Call) (ch : Chan) (buflen : Nat) (cancelled : Bool) : Sys × List Event :=
  match ch.inbox c.side with
  | m :: rest =>
    if buflen < m.bytes.length then (s.endCall c.tid, [.recvFailed c.id c.side .emsgsize])
    else
      (((m.handles.foldl (fun s r => s.install c.pid r.obj) s).setChan c.addr
          (some (ch.setInbox c.side rest))).endCall c.tid,
        [.received c.id c.side m.bytes])
  | [] =>
    if ch.peerClosed c.side then (s.endCall c.tid, [.recvFailed c.id c.side .epipe])
    else if cancelled then (s.endCall c.tid, [.recvFailed c.id c.side .ecanceled])
    else (s, [])

/-- A thread has a turn at the lock. What a call finds in memory that is not in use is not said. -/
def turn (s : Sys) (tid : Nat) (cancelled : Bool) : Sys × List Event :=
  match s.calls.find? (·.tid = tid) with
  | none => (s, [])
  | some c =>
    match s.chans c.addr with
    | none => (s, [])
    | some ch =>
      match c.op with
      | .send msg => s.sendTurn c ch msg cancelled
      | .recv buflen => s.recvTurn c ch buflen cancelled

/-- `channel_release_raw_end_locked`: the memory is given back with the last end. -/
def channelReleaseRawEndLocked (s : Sys) (a : Nat) (side : Bool) : Sys :=
  match s.chans a with
  | none => s
  | some ch => s.setChan a (if (ch.released side).refcount ≤ 0 then none else some (ch.released side))

/-- A handle is closed: `channel_close`, `sys_handle_close`, and one step of
    `obj_handles_release_all`. -/
def close (s : Sys) (pid i : Nat) : Sys × List Event :=
  match s.handles pid i with
  | none => (s, [.refused .einval])
  | some (.chanEnd a side) => ((s.channelReleaseRawEndLocked a side).setHandle pid i none, [])
  | some (.other _) => (s.setHandle pid i none, [])

/-- `channel_transfer_end_to`: an end goes to another process. -/
def channelTransferEndTo (s : Sys) (src i dst : Nat) : Sys × List Event :=
  match s.handles src i, s.freeSlot dst with
  | some (.chanEnd a side), some j =>
    ((s.setHandle dst j (some (.chanEnd a side))).setHandle src i none, [])
  | some (.chanEnd _ _), none => (s, [.refused .emfile])
  | _, _ => (s, [.refused .einval])

/-- No channel, no handle. -/
def init : Sys := ⟨fun _ => none, 0, fun _ _ => none, []⟩

end Sys

/-- What can happen next. `grant` gives a process a handle to something that is no channel. -/
inductive Input
  | create (pid addr : Nat)
  | grant (pid n : Nat)
  | enterSend (tid pid h : Nat) (bytes : List UInt8) (hnds : List (Nat × Bool)) (oom : Bool)
  | enterRecv (tid pid h buflen : Nat)
  | turn (tid : Nat) (cancelled : Bool)
  | close (pid i : Nat)
  | transfer (src i dst : Nat)

/-- The channels of the system as a machine. -/
def channels : Machine Sys Input Event where
  step s
    | .create pid a => s.channelCreatePair pid a
    | .grant pid n => (s.install pid (.other n), [])
    | .enterSend tid pid h bytes hnds oom => s.enterSend tid pid h bytes hnds oom
    | .enterRecv tid pid h buflen => s.enterRecv tid pid h buflen
    | .turn tid cancelled => s.turn tid cancelled
    | .close pid i => s.close pid i
    | .transfer src i dst => s.channelTransferEndTo src i dst

/-! ## What was sent and what was received -/

/-- The payloads sent to one end of a channel, in the order of the queue. -/
def sentTo (id : Nat) (dst : Bool) (h : List Event) : List (List UInt8) :=
  h.filterMap fun e => match e with
    | .sent i d bytes => if i = id ∧ d = dst then some bytes else none
    | _ => none

/-- The payloads received at one end of a channel, in the order they left the queue. -/
def receivedAt (id : Nat) (dst : Bool) (h : List Event) : List (List UInt8) :=
  h.filterMap fun e => match e with
    | .received i d bytes => if i = id ∧ d = dst then some bytes else none
    | _ => none

/-- A message carries a pointer to the end. -/
def Msg.Carries (m : Msg) (a : Nat) (side : Bool) : Prop := ∃ r ∈ m.handles, r.obj = .chanEnd a side

/-- Something in the system has a pointer to the end: a handle, a call, a message that is being sent,
    or a message that is queued. -/
def Sys.Refers (s : Sys) (a : Nat) (side : Bool) : Prop :=
  (∃ pid i, s.handles pid i = some (.chanEnd a side)) ∨
  (∃ c ∈ s.calls, c.addr = a ∧ c.side = side) ∨
  (∃ c ∈ s.calls, ∃ m, c.op = .send m ∧ m.Carries a side) ∨
  ∃ b ch d m, s.chans b = some ch ∧ m ∈ ch.inbox d ∧ m.Carries a side

/-- The condition on a step: a handle to an end is closed only when nothing else points to the
    end. -/
def Alone (s : Sys) : Input → Prop
  | .close pid i => ∀ a side, s.handles pid i = some (.chanEnd a side) →
      ¬(s.setHandle pid i none).Refers a side
  | _ => True

section

variable (id i : Nat) (dst d : Bool) (h : List Event) (bytes : List UInt8) (e : Errno)

@[simp] theorem sentTo_append (h' : List Event) : sentTo id dst (h ++ h') = sentTo id dst h ++ sentTo id dst h' :=
  filterMap_append

@[simp] theorem receivedAt_append (h' : List Event) :
    receivedAt id dst (h ++ h') = receivedAt id dst h ++ receivedAt id dst h' :=
  filterMap_append

@[simp] theorem sentTo_nil : sentTo id dst [] = [] := rfl

@[simp] theorem receivedAt_nil : receivedAt id dst [] = [] := rfl

@[simp] theorem sentTo_sent :
    sentTo id dst [.sent i d bytes] = if i = id ∧ d = dst then [bytes] else [] := by
  by_cases hi : i = id ∧ d = dst <;> simp [sentTo, hi]

@[simp] theorem receivedAt_received :
    receivedAt id dst [.received i d bytes] = if i = id ∧ d = dst then [bytes] else [] := by
  by_cases hi : i = id ∧ d = dst <;> simp [receivedAt, hi]

@[simp] theorem receivedAt_sent : receivedAt id dst [.sent i d bytes] = [] := rfl

@[simp] theorem sentTo_received : sentTo id dst [.received i d bytes] = [] := rfl

end

/-! ## What is kept -/

/-- The number of ends that are open: an end is open while its peer has not been told otherwise. -/
def Chan.openEnds (ch : Chan) : Int :=
  (if ch.peerClosed true then 0 else 1) + (if ch.peerClosed false then 0 else 1)

/-- A channel in use, with the messages sent and not yet received. -/
structure Chan.Ok (ch : Chan) (h : List Event) : Prop where
  count : ch.refcount = ch.openEnds
  isOpen : 0 < ch.refcount
  room : ∀ side, (ch.inbox side).length ≤ chanQueueMax
  stream : ∀ side, ch.peerClosed (!side) = false →
    sentTo ch.id side h = receivedAt ch.id side h ++ (ch.inbox side).map Msg.bytes

structure Inv (h : List Event) (s : Sys) : Prop where
  refs : ∀ a side, s.Refers a side → ∃ ch, s.chans a = some ch ∧ ch.peerClosed (!side) = false
  calls : ∀ c ∈ s.calls, ∀ ch, s.chans c.addr = some ch → ch.id = c.id
  chans : ∀ a ch, s.chans a = some ch → ch.Ok h
  bound : ∀ a ch, s.chans a = some ch → ch.id ≤ s.nextId
  distinct : ∀ a b ch ch', s.chans a = some ch → s.chans b = some ch' → ch.id = ch'.id → a = b
  inOrder : ∀ id side, receivedAt id side h <+: sentTo id side h
  fresh : ∀ id side, s.nextId < id → sentTo id side h = []

/-- What an event says about the states around it. A failed call has left the queues and the handles
    alone, and end of file is reported when everything sent was received. -/
def Legal (h : List Event) (s s' : Sys) : Event → Prop
  | .sendFailed _ _ _ => s'.chans = s.chans ∧ s'.handles = s.handles
  | .recvFailed id dst e => (s'.chans = s.chans ∧ s'.handles = s.handles) ∧
      (e = .epipe → receivedAt id dst h = sentTo id dst h)
  | .refused _ => s' = s
  | _ => True

/-- A step is sound. -/
def Sound (h : List Event) (s : Sys) (out : Sys × List Event) : Prop :=
  Inv (h ++ out.2) out.1 ∧ ∀ e ∈ out.2, Legal h s out.1 e

/-- Events that move no payload. -/
def Event.silent : Event → Bool
  | .sent .. => false
  | .received .. => false
  | _ => true

variable {es : List Event}

theorem sentTo_silent (hes : ∀ e ∈ es, e.silent = true) (id : Nat) (dst : Bool) :
    sentTo id dst es = [] := by
  refine filterMap_eq_nil_iff.2 fun e he => ?_
  have := hes e he
  cases e <;> simp_all [Event.silent]

theorem receivedAt_silent (hes : ∀ e ∈ es, e.silent = true) (id : Nat) (dst : Bool) :
    receivedAt id dst es = [] := by
  refine filterMap_eq_nil_iff.2 fun e he => ?_
  have := hes e he
  cases e <;> simp_all [Event.silent]

section

variable {h : List Event} {s : Sys} (hi : Inv h s)

include hi

/-- Steps that leave the channels alone and make no new pointers. -/
theorem Inv.quiet {s' : Sys} (hes : ∀ e ∈ es, e.silent = true) (hc : s'.chans = s.chans)
    (hn : s'.nextId = s.nextId) (hr : ∀ a side, s'.Refers a side → s.Refers a side)
    (hcalls : ∀ c ∈ s'.calls, ∀ ch, s'.chans c.addr = some ch → ch.id = c.id) :
    Inv (h ++ es) s' := by
  have hs := fun id dst => sentTo_silent hes id dst
  have hrec := fun id dst => receivedAt_silent hes id dst
  refine ⟨fun a side hr' => ?_, hcalls, fun a ch ha => ?_, fun a ch ha => ?_, ?_, fun id side => ?_,
    fun id side hid => ?_⟩
  · rw [hc]
    exact hi.refs a side (hr a side hr')
  · rw [hc] at ha
    obtain ⟨h1, h2, h3, h4⟩ := hi.chans a ch ha
    exact ⟨h1, h2, h3, by simpa [hs, hrec] using h4⟩
  · rw [hc] at ha
    rw [hn]
    exact hi.bound a ch ha
  · rw [hc]
    exact hi.distinct
  · simpa [hs, hrec] using hi.inOrder id side
  · rw [hn] at hid
    simpa [hs] using hi.fresh id side hid

end

/-! ## Where pointers come from -/

namespace Sys

variable {s s' : Sys} {a pid i : Nat} {side : Bool}

theorem Refers.of_handle (h : s.handles pid i = some (.chanEnd a side)) : s.Refers a side :=
  Or.inl ⟨pid, i, h⟩

theorem Refers.of_call {c : Call} (h : c ∈ s.calls) : s.Refers c.addr c.side :=
  Or.inr (Or.inl ⟨c, h, rfl, rfl⟩)

theorem Refers.of_sending {c : Call} (h : c ∈ s.calls) {m : Msg} (hm : c.op = .send m)
    (hc : m.Carries a side) : s.Refers a side :=
  Or.inr (Or.inr (Or.inl ⟨c, h, m, hm, hc⟩))

theorem Refers.of_queued {b : Nat} {ch : Chan} (h : s.chans b = some ch) {d : Bool} {m : Msg}
    (hm : m ∈ ch.inbox d) (hc : m.Carries a side) : s.Refers a side :=
  Or.inr (Or.inr (Or.inr ⟨b, ch, d, m, h, hm, hc⟩))

/-- Pointers of `s'` are pointers of `s`, if its handles, calls and queued messages are. -/
theorem Refers.mono (h : s'.Refers a side)
    (hh : ∀ pid i, s'.handles pid i = some (.chanEnd a side) → s.Refers a side)
    (hc : ∀ c ∈ s'.calls, c ∈ s.calls)
    (hq : ∀ b ch d m, s'.chans b = some ch → m ∈ ch.inbox d → m.Carries a side → s.Refers a side) :
    s.Refers a side := by
  rcases h with ⟨pid, i, h⟩ | ⟨c, h, rfl, rfl⟩ | ⟨c, h, m, hm, hcar⟩ | ⟨b, ch, d, m, hb, hm, hcar⟩
  · exact hh pid i h
  · exact .of_call (hc c h)
  · exact .of_sending (hc c h) hm hcar
  · exact hq b ch d m hb hm hcar

theorem handles_setHandle {o : Option Obj} {p j : Nat} {x : Obj}
    (h : (s.setHandle pid i o).handles p j = some x) : s.handles p j = some x ∨ o = some x := by
  by_cases hp : p = pid
  · subst hp
    by_cases hj : j = i
    · subst hj
      exact Or.inr (by simpa [setHandle] using h)
    · exact Or.inl (by simpa [setHandle, hj] using h)
  · exact Or.inl (by simpa [setHandle, hp] using h)

theorem install_eq (s : Sys) (pid : Nat) (o : Obj) :
    s.install pid o = s ∨ ∃ i, s.install pid o = s.setHandle pid i (some o) := by
  unfold install
  split
  · exact Or.inr ⟨_, rfl⟩
  · exact Or.inl rfl

theorem handles_install {o : Obj} {p j : Nat} {x : Obj} (h : (s.install pid o).handles p j = some x) :
    s.handles p j = some x ∨ o = x := by
  rcases s.install_eq pid o with he | ⟨i, he⟩
  · rw [he] at h
    exact Or.inl h
  · rw [he] at h
    exact (handles_setHandle h).imp_right Option.some.inj

theorem chans_install (s : Sys) (pid : Nat) (o : Obj) :
    (s.install pid o).chans = s.chans ∧ (s.install pid o).calls = s.calls ∧
      (s.install pid o).nextId = s.nextId := by
  rcases s.install_eq pid o with he | ⟨i, he⟩ <;> rw [he] <;> exact ⟨rfl, rfl, rfl⟩

/-- Handles that move leave the sender's table, and nothing else changes. -/
theorem consume_spec (refs : List HandleRef) (s : Sys) (pid : Nat) :
    ((s.consume pid refs).chans = s.chans ∧ (s.consume pid refs).calls = s.calls ∧
      (s.consume pid refs).nextId = s.nextId) ∧
      ∀ p j x, (s.consume pid refs).handles p j = some x → s.handles p j = some x := by
  induction refs generalizing s with
  | nil => exact ⟨⟨rfl, rfl, rfl⟩, fun _ _ _ h => h⟩
  | cons r refs ih =>
    have hcons : s.consume pid (r :: refs)
        = (if r.isMove then s.setHandle pid r.slot none else s).consume pid refs := rfl
    rw [hcons]
    split_ifs with hm
    · obtain ⟨h1, h2⟩ := ih (s.setHandle pid r.slot none)
      refine ⟨h1, fun p j x h => ?_⟩
      rcases handles_setHandle (h2 p j x h) with h | h
      · exact h
      · cases h
    · exact ih s

/-- The handles of a message are installed, and nothing else changes. -/
theorem installAll_spec (refs : List HandleRef) (s : Sys) (pid : Nat) :
    ((refs.foldl (fun s r => s.install pid r.obj) s).chans = s.chans ∧
      (refs.foldl (fun s r => s.install pid r.obj) s).calls = s.calls ∧
      (refs.foldl (fun s r => s.install pid r.obj) s).nextId = s.nextId) ∧
      ∀ p j x, (refs.foldl (fun s r => s.install pid r.obj) s).handles p j = some x →
        s.handles p j = some x ∨ ∃ r ∈ refs, r.obj = x := by
  induction refs generalizing s with
  | nil => exact ⟨⟨rfl, rfl, rfl⟩, fun _ _ _ h => Or.inl h⟩
  | cons r refs ih =>
    obtain ⟨h1, h2⟩ := ih (s.install pid r.obj)
    obtain ⟨g1, g2, g3⟩ := s.chans_install pid r.obj
    refine ⟨⟨h1.1.trans g1, h1.2.1.trans g2, h1.2.2.trans g3⟩, fun p j x h => ?_⟩
    rcases h2 p j x h with h | ⟨y, hy, rfl⟩
    · exact (handles_install h).imp_right fun h => ⟨r, by simp, h⟩
    · exact Or.inr ⟨y, by simp [hy], rfl⟩

theorem collect_spec {hnds : List (Nat × Bool)} {refs : List HandleRef}
    (h : s.collect pid hnds = some refs) : ∀ r ∈ refs, s.handles pid r.slot = some r.obj := by
  induction hnds generalizing refs with
  | nil =>
    obtain rfl := Option.some.inj h
    simp
  | cons x hnds ih =>
    obtain ⟨i, move⟩ := x
    simp only [collect, Option.bind_eq_bind, Option.bind_eq_some_iff, Option.pure_def,
      Option.some.injEq] at h
    obtain ⟨o, ho, refs', hrefs, rfl⟩ := h
    intro r hr
    rcases mem_cons.1 hr with rfl | hr
    · exact ho
    · exact ih hrefs r hr

end Sys

/-! ## Steps -/

section

variable {h : List Event} {s : Sys} (hi : Inv h s) {c : Call} {ch : Chan}

include hi

theorem sound_refused (e : Errno) : Sound h s (s, [.refused e]) :=
  ⟨hi.quiet (by simp [Event.silent]) rfl rfl (fun _ _ h => h) hi.calls, by simp [Legal]⟩

theorem sound_idle : Sound h s (s, []) := ⟨by simpa using hi, by simp⟩

/-- A call that ends without having done anything. -/
theorem sound_give_up (tid : Nat) {e : Event} (he : e.silent = true) (hl : Legal h s (s.endCall tid) e) :
    Sound h s (s.endCall tid, [e]) := by
  refine ⟨hi.quiet (by simpa using he) rfl rfl (fun a side hr => ?_) (fun c hc => ?_), by simpa using hl⟩
  · exact hr.mono (fun _ _ h => .of_handle h) (fun c hc => mem_of_mem_filter hc)
      (fun b ch d m hb hm hcar => .of_queued hb hm hcar)
  · exact hi.calls c (mem_of_mem_filter hc)

/-- A call that begins with pointers it found in handles. -/
theorem sound_enter (hc : ∃ pid i, s.handles pid i = some (.chanEnd c.addr c.side))
    (hid : c.id = s.idAt c.addr)
    (hmsg : ∀ m, c.op = .send m → ∀ a side, m.Carries a side → s.Refers a side) :
    Sound h s ({ s with calls := c :: s.calls }, []) := by
  refine ⟨hi.quiet (by simp) rfl rfl (fun a side hr => ?_) (fun c' hc' ch hch => ?_), by simp⟩
  · rcases hr with ⟨pid, i, hh⟩ | ⟨c', hc', rfl, rfl⟩ | ⟨c', hc', m, hm, hcar⟩ |
      ⟨b, ch, d, m, hb, hm, hcar⟩
    · exact .of_handle hh
    · rcases mem_cons.1 hc' with rfl | hc'
      · obtain ⟨pid, i, hh⟩ := hc
        exact .of_handle hh
      · exact .of_call hc'
    · rcases mem_cons.1 hc' with rfl | hc'
      · exact hmsg m hm a side hcar
      · exact .of_sending hc' hm hcar
    · exact .of_queued hb hm hcar
  · rcases mem_cons.1 hc' with rfl | hc'
    · have hch' : s.chans c'.addr = some ch := hch
      rw [hid, Sys.idAt, hch']
      rfl
    · exact hi.calls c' hc' ch hch

theorem sound_enterSend (tid pid n : Nat) (bytes : List UInt8) (hnds : List (Nat × Bool)) (oom : Bool) :
    Sound h s (s.enterSend tid pid n bytes hnds oom) := by
  unfold Sys.enterSend
  split
  · exact sound_idle hi
  · split
    · next a side hh =>
      split_ifs
      · exact sound_refused hi _
      · exact sound_refused hi _
      · exact sound_refused hi _
      · split
        · exact sound_refused hi _
        · next refs hrefs =>
          refine sound_enter hi ⟨pid, n, hh⟩ rfl ?_
          rintro m hm a' side' ⟨r, hr, hobj⟩
          obtain rfl := Op.send.inj hm
          exact .of_handle ((Sys.collect_spec hrefs r hr).trans (congrArg some hobj))
    · exact sound_refused hi _

theorem sound_enterRecv (tid pid n buflen : Nat) : Sound h s (s.enterRecv tid pid n buflen) := by
  unfold Sys.enterRecv
  split
  · exact sound_idle hi
  · split
    · next a side hh => exact sound_enter hi ⟨pid, n, hh⟩ rfl (fun m hm => by cases hm)
    · exact sound_refused hi _

/-- Handles are moved about. -/
theorem sound_rehandle {s' : Sys} (hc : s'.chans = s.chans) (hcalls : s'.calls = s.calls)
    (hn : s'.nextId = s.nextId)
    (hh : ∀ pid i a side, s'.handles pid i = some (.chanEnd a side) → s.Refers a side) :
    Sound h s (s', []) := by
  refine ⟨hi.quiet (by simp) hc hn (fun a side hr => ?_) (fun c hcl => ?_), by simp⟩
  · exact hr.mono (fun pid i h => hh pid i a side h) (fun c h => by rwa [hcalls] at h)
      (fun b ch d m hb hm hcar => .of_queued (by rwa [hc] at hb) hm hcar)
  · rw [hcalls] at hcl
    rw [hc]
    exact hi.calls c hcl

theorem sound_transfer (src i dst : Nat) : Sound h s (s.channelTransferEndTo src i dst) := by
  unfold Sys.channelTransferEndTo
  split
  · next a side j hh _ =>
    refine sound_rehandle hi rfl rfl rfl fun pid k b d hb => ?_
    rcases Sys.handles_setHandle hb with hb | hb
    · rcases Sys.handles_setHandle hb with hb | hb
      · exact .of_handle hb
      · obtain ⟨rfl, rfl⟩ := Obj.chanEnd.inj (Option.some.inj hb)
        exact .of_handle hh
    · cases hb
  · exact sound_refused hi _
  · exact sound_refused hi _

theorem sound_grant (pid n : Nat) : Sound h s (s.install pid (.other n), []) := by
  obtain ⟨h1, h2, h3⟩ := s.chans_install pid (.other n)
  refine sound_rehandle hi h1 h2 h3 fun p j a side hh => ?_
  rcases Sys.handles_install hh with hh | hh
  · exact .of_handle hh
  · cases hh

/-- The channels in memory, by their numbers. -/
theorem Inv.numbered : Numbered s.chans Chan.id s.nextId := ⟨hi.bound, hi.distinct⟩

/-- One queue of one channel changes and a payload is seen to move on it. -/
theorem Inv.requeue {s' : Sys} {a : Nat} (ha : s.chans a = some ch) {side : Bool} {q : List Msg}
    (hc : s'.chans = update s.chans a (some (ch.setInbox side q)))
    (hn : s'.nextId = s.nextId) (hroom : q.length ≤ chanQueueMax)
    (hstream : ∀ d, ch.peerClosed (!d) = false → sentTo ch.id d (h ++ es)
      = receivedAt ch.id d (h ++ es) ++ ((ch.setInbox side q).inbox d).map Msg.bytes)
    (hes : ∀ id dst, id ≠ ch.id → sentTo id dst es = [] ∧ receivedAt id dst es = [])
    (horder : ∀ dst, receivedAt ch.id dst (h ++ es) <+: sentTo ch.id dst (h ++ es))
    (hr : ∀ a side, s'.Refers a side → s.Refers a side) (hcalls : ∀ c ∈ s'.calls, c ∈ s.calls) :
    Inv (h ++ es) s' := by
  have hat : ∀ b ch₁, s'.chans b = some ch₁ →
      (b = a ∧ ch₁ = ch.setInbox side q) ∨ (b ≠ a ∧ s.chans b = some ch₁) := by
    intro b ch₁ hb
    rw [hc] at hb
    exact (update_eq_some hb).imp_left fun hx => ⟨hx.1, (Option.some.inj hx.2).symm⟩
  have hnum := hi.numbered.change ha (x := some (ch.setInbox side q)) fun z hz => by
    rw [← Option.some.inj hz]
    rfl
  rw [← hc] at hnum
  refine ⟨fun b d hb => ?_, fun c hcl ch₁ hch₁ => ?_, fun b ch₁ hb => ?_, fun b ch₁ hb => ?_,
    fun b b' ch₁ ch₂ hb hb' hids => ?_, fun id dst => ?_, fun id dst hlt => ?_⟩
  · obtain ⟨ch₁, h1, h2⟩ := hi.refs b d (hr b d hb)
    rw [hc]
    by_cases hba : b = a
    · subst hba
      obtain rfl := Option.some.inj (ha.symm.trans h1)
      exact ⟨_, update_self .., h2⟩
    · exact ⟨ch₁, by rw [update_of_ne hba]; exact h1, h2⟩
  · rcases hat _ _ hch₁ with ⟨hba, rfl⟩ | ⟨-, hb⟩
    · exact hi.calls c (hcalls c hcl) ch (by rw [hba]; exact ha)
    · exact hi.calls c (hcalls c hcl) ch₁ hb
  · rcases hat _ _ hb with ⟨-, rfl⟩ | ⟨hne, hb⟩
    · obtain ⟨h1, h2, h3, -⟩ := hi.chans a ch ha
      refine ⟨h1, h2, fun d => ?_, hstream⟩
      by_cases hd : d = side
      · subst hd
        simpa [Chan.setInbox] using hroom
      · simpa [Chan.setInbox, hd] using h3 d
    · have hdiff : ch₁.id ≠ ch.id := fun he => hne (hi.distinct b a ch₁ ch hb ha he)
      obtain ⟨h1, h2, h3, h4⟩ := hi.chans b ch₁ hb
      exact ⟨h1, h2, h3, by simpa [(hes ch₁.id _ hdiff).1, (hes ch₁.id _ hdiff).2] using h4⟩
  · rw [hn]
    exact hnum.bound b ch₁ hb
  · exact hnum.distinct b b' ch₁ ch₂ hb hb' hids
  · by_cases hd : id = ch.id
    · subst hd
      exact horder dst
    · simpa [(hes id dst hd).1, (hes id dst hd).2] using hi.inOrder id dst
  · rw [hn] at hlt
    have hd : id ≠ ch.id := by
      have := hi.bound a ch ha
      omega
    simpa [(hes id dst hd).1] using hi.fresh id dst hlt

omit hi in
/-- The messages in a changed queue. -/
theorem mem_setInbox {a b : Nat} {ch₁ : Chan} (ha : s.chans a = some ch) {side d : Bool}
    {q : List Msg} (hb : update s.chans a (some (ch.setInbox side q)) b = some ch₁)
    {m : Msg} (hm : m ∈ ch₁.inbox d) :
    (∃ ch₀ d₀, s.chans b = some ch₀ ∧ m ∈ ch₀.inbox d₀) ∨ m ∈ q := by
  rcases update_eq_some hb with ⟨rfl, hx⟩ | ⟨-, hb⟩
  · obtain rfl := Option.some.inj hx
    by_cases hd : d = side
    · subst hd
      exact Or.inr (by simpa [Chan.setInbox] using hm)
    · exact Or.inl ⟨ch, d, ha, by simpa [Chan.setInbox, hd] using hm⟩
  · exact Or.inl ⟨ch₁, d, hb, hm⟩

theorem sound_sendTurn (hc : c ∈ s.calls) {msg : Msg} (hop : c.op = .send msg)
    (ha : s.chans c.addr = some ch) (cancelled : Bool) :
    Sound h s (s.sendTurn c ch msg cancelled) := by
  have hid : ch.id = c.id := hi.calls c hc ch ha
  unfold Sys.sendTurn
  split_ifs with hclosed hfull hcan
  · exact sound_give_up hi _ rfl ⟨rfl, rfl⟩
  · exact sound_give_up hi _ rfl ⟨rfl, rfl⟩
  · exact sound_idle hi
  · obtain ⟨⟨g1, g2, g3⟩, gh⟩ := Sys.consume_spec msg.handles s c.pid
    have hstream := (hi.chans c.addr ch ha).stream
    have hchans : (((s.consume c.pid msg.handles).setChan c.addr
        (some (ch.setInbox (!c.side) (ch.inbox (!c.side) ++ [msg])))).endCall c.tid).chans
        = update s.chans c.addr
          (some (ch.setInbox (!c.side) (ch.inbox (!c.side) ++ [msg]))) := by
      rw [← g1]
      rfl
    refine ⟨hi.requeue ha hchans g3 ?_ (fun d hd => ?_) (fun id dst hne => ?_) (fun dst => ?_)
      (fun a side hr => ?_) (fun c' hc' => ?_), by simp [Legal]⟩
    · rw [length_append, length_singleton]
      omega
    · have hold := hstream d hd
      by_cases hs : d = !c.side
      · subst hs
        simp [Chan.setInbox, ← hid, hold]
      · simp [Chan.setInbox, hs, Ne.symm hs, hold]
    · rw [hid] at hne
      simp [Ne.symm hne]
    · rw [receivedAt_append, receivedAt_sent, append_nil, sentTo_append]
      exact (hi.inOrder ch.id dst).trans (prefix_append _ _)
    · refine hr.mono (fun pid i hh => .of_handle (gh pid i _ hh))
        (fun c' hc' => g2 ▸ mem_of_mem_filter hc') (fun b ch₁ d m hb hm hcar => ?_)
      rw [hchans] at hb
      rcases mem_setInbox ha hb hm with ⟨ch₀, d₀, hb₀, hm₀⟩ | hm
      · exact .of_queued hb₀ hm₀ hcar
      · rcases mem_append.1 hm with hm | hm
        · exact .of_queued ha hm hcar
        · obtain rfl := mem_singleton.1 hm
          exact .of_sending hc hop hcar
    · exact g2 ▸ mem_of_mem_filter hc'

theorem sound_recvTurn (hc : c ∈ s.calls) (ha : s.chans c.addr = some ch) (buflen : Nat)
    (cancelled : Bool) : Sound h s (s.recvTurn c ch buflen cancelled) := by
  have hid : ch.id = c.id := hi.calls c hc ch ha
  have hopen : ch.peerClosed (!c.side) = false := by
    obtain ⟨ch₀, h₀, hopen⟩ := hi.refs _ _ (.of_call hc)
    obtain rfl := Option.some.inj (ha.symm.trans h₀)
    exact hopen
  have hstream := (hi.chans c.addr ch ha).stream
  have hroom := (hi.chans c.addr ch ha).room c.side
  unfold Sys.recvTurn
  split
  · next m rest hq =>
    split_ifs with hbig
    · exact sound_give_up hi _ rfl ⟨⟨rfl, rfl⟩, fun he => by cases he⟩
    · obtain ⟨⟨g1, g2, g3⟩, gh⟩ := Sys.installAll_spec m.handles s c.pid
      have hchans : (((m.handles.foldl (fun s r => s.install c.pid r.obj) s).setChan c.addr
          (some (ch.setInbox c.side rest))).endCall c.tid).chans
          = update s.chans c.addr (some (ch.setInbox c.side rest)) := by
        rw [← g1]
        rfl
      have hfirst := hstream c.side hopen
      rw [hq, map_cons] at hfirst
      have hmem : m ∈ ch.inbox c.side := by simp [hq]
      refine ⟨hi.requeue ha hchans g3 ?_ (fun d hd => ?_) (fun id dst hne => ?_) (fun dst => ?_)
        (fun a side hr => ?_) (fun c' hc' => ?_), by simp [Legal]⟩
      · rw [hq, length_cons] at hroom
        omega
      · by_cases hs : d = c.side
        · subst hs
          simp [Chan.setInbox, ← hid, hfirst]
        · simp [Chan.setInbox, hs, Ne.symm hs, hstream d hd]
      · rw [hid] at hne
        simp [Ne.symm hne]
      · rw [receivedAt_append, receivedAt_received, sentTo_append, sentTo_received, append_nil]
        by_cases hs : c.id = ch.id ∧ c.side = dst
        · obtain ⟨-, rfl⟩ := hs
          rw [if_pos ⟨hid.symm, rfl⟩, hfirst]
          exact ⟨rest.map Msg.bytes, by simp⟩
        · rw [if_neg hs, append_nil]
          exact hi.inOrder ch.id dst
      · refine hr.mono (fun pid i hh => ?_) (fun c' hc' => g2 ▸ mem_of_mem_filter hc')
          (fun b ch₁ d m' hb hm hcar => ?_)
        · rcases gh pid i _ hh with hh | hobj
          · exact .of_handle hh
          · exact .of_queued ha hmem hobj
        · rw [hchans] at hb
          rcases mem_setInbox ha hb hm with ⟨ch₀, d₀, hb₀, hm₀⟩ | hm
          · exact .of_queued hb₀ hm₀ hcar
          · exact .of_queued ha (by rw [hq]; exact mem_cons_of_mem _ hm) hcar
      · exact g2 ▸ mem_of_mem_filter hc'
  · next hq =>
    split_ifs with hclosed hcan
    · refine sound_give_up hi _ rfl ⟨⟨rfl, rfl⟩, fun _ => ?_⟩
      have hall := hstream c.side hopen
      rw [hq, map_nil, append_nil, hid] at hall
      exact hall.symm
    · exact sound_give_up hi _ rfl ⟨⟨rfl, rfl⟩, fun he => by cases he⟩
    · exact sound_idle hi

theorem sound_turn (tid : Nat) (cancelled : Bool) : Sound h s (s.turn tid cancelled) := by
  unfold Sys.turn
  split
  · exact sound_idle hi
  · next c hfind =>
    have hc : c ∈ s.calls := mem_of_find?_eq_some hfind
    split
    · exact sound_idle hi
    · next ch ha =>
      split
      · next msg hop => exact sound_sendTurn hi hc hop ha cancelled
      · exact sound_recvTurn hi hc ha _ cancelled

/-- The last pointer to an end is given up. -/
theorem sound_release {pid i a : Nat} {side : Bool} (hh : s.handles pid i = some (.chanEnd a side))
    (halone : ¬(s.setHandle pid i none).Refers a side) :
    Sound h s ((s.channelReleaseRawEndLocked a side).setHandle pid i none, []) := by
  obtain ⟨ch, ha, hopen⟩ := hi.refs a side (.of_handle hh)
  obtain ⟨hcount, hpos, hroom, hstream⟩ := hi.chans a ch ha
  -- What is left in memory at `a`, if anything, is the channel with this end closed.
  have hchans : ((s.channelReleaseRawEndLocked a side).setHandle pid i none).chans
      = update s.chans a
        (if (ch.released side).refcount ≤ 0 then none else some (ch.released side)) := by
    simp only [Sys.channelReleaseRawEndLocked, ha]
    rfl
  have hrest : ((s.channelReleaseRawEndLocked a side).setHandle pid i none).calls = s.calls ∧
      ((s.channelReleaseRawEndLocked a side).setHandle pid i none).nextId = s.nextId ∧
      ((s.channelReleaseRawEndLocked a side).setHandle pid i none).handles
        = (s.setHandle pid i none).handles := by
    simp only [Sys.channelReleaseRawEndLocked, ha]
    exact ⟨rfl, rfl, rfl⟩
  generalize (s.channelReleaseRawEndLocked a side).setHandle pid i none = s' at hchans hrest ⊢
  obtain ⟨hcalls, hn, hhandles⟩ := hrest
  have hat : ∀ b ch₁, s'.chans b = some ch₁ →
      (b = a ∧ 0 < ch.refcount - 1 ∧ ch₁ = ch.released side) ∨ (b ≠ a ∧ s.chans b = some ch₁) := by
    intro b ch₁ hb
    rw [hchans] at hb
    refine (update_eq_some hb).imp_left fun hx => ?_
    obtain ⟨rfl, hx⟩ := hx
    split_ifs at hx with hle
    exact ⟨rfl, not_le.1 hle, (Option.some.inj hx).symm⟩
  have hnum := hi.numbered.change ha
    (x := if (ch.released side).refcount ≤ 0 then none else some (ch.released side)) fun z hz => by
      split_ifs at hz
      rw [← Option.some.inj hz]
      rfl
  rw [← hchans] at hnum
  have hrefs : ∀ b d, s'.Refers b d → (s.setHandle pid i none).Refers b d := by
    intro b d hr
    refine hr.mono (fun p j hp => .of_handle (by rwa [hhandles] at hp)) (fun c hc => by rwa [hcalls] at hc)
      (fun b' ch₁ d' m hb hm hcar => ?_)
    rcases hat _ _ hb with ⟨rfl, -, rfl⟩ | ⟨-, hb⟩
    · refine .of_queued (s := s.setHandle pid i none) (d := d') ha ?_ hcar
      by_cases hd : d' = side
      · subst hd
        simp [Chan.released] at hm
      · simpa [Chan.released, hd] using hm
    · exact .of_queued (s := s.setHandle pid i none) hb hm hcar
  have hrefs' : ∀ b d, s'.Refers b d → s.Refers b d := by
    intro b d hr
    refine (hrefs b d hr).mono (fun p j hp => ?_) (fun c hc => hc)
      (fun b' ch₁ d' m hb hm hcar => .of_queued hb hm hcar)
    rcases Sys.handles_setHandle hp with hp | hp
    · exact .of_handle hp
    · cases hp
  have hends : (ch.released side).openEnds = ch.openEnds - 1 := by
    cases side <;> simp_all [Chan.openEnds, Chan.released]
  refine ⟨⟨fun b d hr => ?_, fun c hc ch₁ hch₁ => ?_, fun b ch₁ hb => ?_, fun b ch₁ hb => ?_,
    fun b b' ch₁ ch₂ hb hb' hids => ?_, by simpa using hi.inOrder, ?_⟩, by simp⟩
  · obtain ⟨ch₀, h₀, hd⟩ := hi.refs b d (hrefs' b d hr)
    rw [hchans]
    by_cases hba : b = a
    · subst hba
      obtain rfl := Option.some.inj (ha.symm.trans h₀)
      -- The pointer is to the other end, which is open, so the channel stays.
      obtain rfl : d = !side := by
        by_contra hne
        obtain rfl : d = side := by cases d <;> cases side <;> simp_all
        exact halone (hrefs b d hr)
      rw [Bool.not_not] at hd
      have htwo : ch.openEnds = 2 := by
        cases side <;> simp_all [Chan.openEnds]
      have hstay : ¬(ch.released side).refcount ≤ 0 := by
        show ¬ch.refcount - 1 ≤ 0
        omega
      refine ⟨ch.released side, by rw [update_self, if_neg hstay], ?_⟩
      cases side <;> simpa [Chan.released] using hd
    · exact ⟨ch₀, by rw [update_of_ne hba]; exact h₀, hd⟩
  · rw [hcalls] at hc
    rcases hat _ _ hch₁ with ⟨hba, -, rfl⟩ | ⟨-, hb⟩
    · exact hi.calls c hc ch (by rw [hba]; exact ha)
    · exact hi.calls c hc ch₁ hb
  · rw [append_nil]
    rcases hat _ _ hb with ⟨-, hleft, rfl⟩ | ⟨-, hb⟩
    · refine ⟨?_, hleft, fun d => ?_, fun d hd => ?_⟩
      · show ch.refcount - 1 = _
        rw [hends, hcount]
      · by_cases hds : d = side
        · subst hds
          simp [Chan.released]
        · simpa [Chan.released, hds] using hroom d
      · have hds : d ≠ side := by
          rintro rfl
          simp [Chan.released] at hd
        have hd' : ch.peerClosed (!d) = false := by
          cases d <;> cases side <;> simp_all [Chan.released]
        simpa [Chan.released, hds] using hstream d hd'
    · exact hi.chans b ch₁ hb
  · rw [hn]
    exact hnum.bound b ch₁ hb
  · exact hnum.distinct b b' ch₁ ch₂ hb hb' hids
  · rw [hn, append_nil]
    exact hi.fresh

theorem sound_close (pid i : Nat) (halone : Alone s (.close pid i)) : Sound h s (s.close pid i) := by
  unfold Sys.close
  split
  · exact sound_refused hi _
  · next a side hh => exact sound_release hi hh (halone a side hh)
  · refine sound_rehandle hi rfl rfl rfl fun p j a side hp => ?_
    rcases Sys.handles_setHandle hp with hp | hp
    · exact .of_handle hp
    · cases hp

theorem sound_create (pid a : Nat) : Sound h s (s.channelCreatePair pid a) := by
  unfold Sys.channelCreatePair
  split
  · exact sound_idle hi
  · next i j _ ha _ =>
    have hnew : ∀ b ch₁, update s.chans a (some (Sys.freshChan (s.nextId + 1))) b = some ch₁ →
        (b = a ∧ ch₁ = Sys.freshChan (s.nextId + 1)) ∨ (b ≠ a ∧ s.chans b = some ch₁) := by
      intro b ch₁ hb
      exact (update_eq_some hb).imp_left fun hx => ⟨hx.1, (Option.some.inj hx.2).symm⟩
    have hnum := hi.numbered.add (a := a) (y := Sys.freshChan (s.nextId + 1)) (Nat.lt_succ_self _)
    have hnone : ∀ d, ¬s.Refers a d := by
      intro d hr
      obtain ⟨ch, hch, -⟩ := hi.refs a d hr
      rw [ha] at hch
      cases hch
    have hfresh : ∀ d, sentTo (s.nextId + 1) d h = [] := fun d => hi.fresh _ d (Nat.lt_succ_self _)
    have hfresh' : ∀ d, receivedAt (s.nextId + 1) d h = [] := by
      intro d
      have hpre := hi.inOrder (s.nextId + 1) d
      rw [hfresh] at hpre
      exact prefix_nil.1 hpre
    refine ⟨⟨fun b d hr => ?_, fun c hc ch₁ hch₁ => ?_, fun b ch₁ hb => ?_, fun b ch₁ hb => ?_,
      fun b b' ch₁ ch₂ hb hb' hids => ?_, by simpa using hi.inOrder, fun id d hlt => ?_⟩, by simp⟩
    · have hold : b ≠ a → s.Refers b d := by
        intro hba
        refine hr.mono (fun p k hp => ?_) (fun c hc => hc) (fun b' ch₁ d' m hb hm hcar => ?_)
        · rcases Sys.handles_setHandle hp with hp | hp
          · rcases Sys.handles_setHandle hp with hp | hp
            · exact .of_handle hp
            · exact absurd (Obj.chanEnd.inj (Option.some.inj hp)).1.symm hba
          · exact absurd (Obj.chanEnd.inj (Option.some.inj hp)).1.symm hba
        · rcases hnew b' ch₁ hb with ⟨-, rfl⟩ | ⟨-, hb⟩
          · simp [Sys.freshChan] at hm
          · exact .of_queued hb hm hcar
      by_cases hba : b = a
      · subst hba
        exact ⟨_, update_self .., rfl⟩
      · obtain ⟨ch, hch, hd⟩ := hi.refs b d (hold hba)
        exact ⟨ch, (update_of_ne hba ..).trans hch, hd⟩
    · rcases hnew _ _ hch₁ with ⟨hca, -⟩ | ⟨-, hb⟩
      · exact absurd (hca ▸ Sys.Refers.of_call hc) (hnone c.side)
      · exact hi.calls c hc ch₁ hb
    · rw [append_nil]
      rcases hnew _ _ hb with ⟨-, rfl⟩ | ⟨-, hb⟩
      · refine ⟨rfl, by simp [Sys.freshChan], fun d => by simp [Sys.freshChan], fun d _ => ?_⟩
        show sentTo (s.nextId + 1) d h = receivedAt (s.nextId + 1) d h ++ [].map Msg.bytes
        rw [hfresh, hfresh']
        rfl
      · exact hi.chans b ch₁ hb
    · exact hnum.bound b ch₁ hb
    · exact hnum.distinct b b' ch₁ ch₂ hb hb' hids
    · rw [append_nil]
      exact hi.fresh id d (lt_of_le_of_lt (Nat.le_succ _) hlt)
  · exact sound_refused hi _

/-- A step that closes no end others point to is sound. -/
theorem sound_step (x : Input) (hx : Alone s x) : Sound h s (channels.step s x) := by
  cases x with
  | create pid a => exact sound_create hi pid a
  | grant pid n => exact sound_grant hi pid n
  | enterSend tid pid n bytes hnds oom => exact sound_enterSend hi tid pid n bytes hnds oom
  | enterRecv tid pid n buflen => exact sound_enterRecv hi tid pid n buflen
  | turn tid cancelled => exact sound_turn hi tid cancelled
  | close pid i => exact sound_close hi pid i hx
  | transfer src i dst => exact sound_transfer hi src i dst

end

end EmbLinkOs.Ipc.Channels
