import EmbLinkOs.Lib.Machine
import EmbLinkOs.Lib.RingBuffer

set_option autoImplicit false

/-! # Pipes

The pipe table of the kernel: 32 slots, each a ring of 1024 bytes with a count of readers and a
count of writers. A count is a number of *holders*, descriptors and handles, and a holder does not
let go of its reference while a call of its own is under way (a system call borrows the descriptor,
which is a reference). All shared data is guarded by one lock; what a call does from taking that
lock to giving it up is one step here, so a call that has to wait is a call that takes several.

A holder is an entry of a table of fixed size (64 processes of 64 descriptors, 256 threads with one
loan, 64 pipe ends), so the counts stay far below the bound of their `int32_t`. -/

namespace EmbLinkOs.Ipc.Pipes

open Function
open List

/-- `PIPE_BUF_SIZE`. -/
def pipeBufSize : Nat := 1024

/-- `PIPE_MAX`. -/
def pipeMax : Nat := 32

inductive Errno
  | ecanceled | eagain | epipe | enfile
deriving DecidableEq, Repr

/-- The `side` of an end: 0 reads, 1 writes. -/
inductive Side
  | read | write
deriving DecidableEq, Repr

def Side.other : Side → Side
  | .read => .write
  | .write => .read

/-- `struct pipe`, but for its wait queues, which are read off the calls. -/
structure Pipe where
  ring : RingBuffer UInt8
  nReaders : Int
  nWriters : Int
  used : Bool

/-- What has a reference: an entry of `g_pipe_ends`, or a descriptor. -/
inductive Holder
  | pipeEnd (i : Nat)
  | fd (n : Nat)
deriving DecidableEq, Repr

/-- A reference to one side of a slot. -/
structure Ref where
  holder : Holder
  slot : Nat
  side : Side
deriving DecidableEq, Repr

/-- What a call asks for. -/
inductive Op
  | read (len : Nat) (nonblock : Bool)
  | write (data : List UInt8) (nonblock atomicSmall : Bool)
deriving DecidableEq, Repr

def Op.side : Op → Side
  | .read .. => .read
  | .write .. => .write

/-- A call under way. A call that sleeps is on the wait queue of its side. -/
structure Call where
  tid : Nat
  ref : Ref
  op : Op
  asleep : Bool
deriving DecidableEq

structure Sys where
  pipes : Nat → Pipe
  refs : List Ref
  calls : List Call

/-- What was observed of the table. -/
inductive Event
  /-- The slot was given to a new pipe. -/
  | created (slot : Nat)
  /-- A read of up to `len` bytes returned `EMBK_OK` with `bytes`. -/
  | gave (slot len : Nat) (bytes : List UInt8)
  /-- A write of `data` returned `EMBK_OK` with the count `n`. -/
  | took (slot : Nat) (data : List UInt8) (n : Nat) (atomicSmall : Bool)
  /-- A call failed. -/
  | failed (slot : Nat) (e : Errno)
  /-- The slot may be given to another pipe. -/
  | freed (slot : Nat)
deriving DecidableEq, Repr

/-! ## What happens under the lock -/

/-- How a turn at the lock ends: the call returns, or it goes to sleep. -/
inductive Turn (α : Type)
  | returns (r : Except Errno α)
  | blocks

/-- One turn of `pipe_read_flags`, for a non-zero `len`. -/
def pipeReadFlags (p : Pipe) (len : Nat) (nonblock cancelled : Bool) : Turn (List UInt8) × Pipe :=
  if p.ring.count = 0 then
    if p.nWriters = 0 then (.returns (.ok []), p)
    else if cancelled then (.returns (.error .ecanceled), p)
    else if nonblock then (.returns (.error .eagain), p)
    else (.blocks, p)
  else
    (.returns (.ok (p.ring.popMany pipeBufSize len).1),
      { p with ring := (p.ring.popMany pipeBufSize len).2 })

/-- The condition under which a write waits. -/
def noRoom (p : Pipe) (len : Nat) (atomicSmall : Bool) : Bool :=
  p.ring.count = pipeBufSize ||
    (atomicSmall && decide (len ≤ pipeBufSize) && decide (pipeBufSize - p.ring.count < len))

/-- One turn of `pipe_write_flags`, for non-empty data. -/
def pipeWriteFlags (p : Pipe) (data : List UInt8) (nonblock atomicSmall cancelled : Bool) :
    Turn Nat × Pipe :=
  if noRoom p data.length atomicSmall then
    if p.nReaders = 0 then (.returns (.error .epipe), p)
    else if cancelled then (.returns (.error .ecanceled), p)
    else if nonblock then (.returns (.error .eagain), p)
    else (.blocks, p)
  else if p.nReaders = 0 then (.returns (.error .epipe), p)
  else
    (.returns (.ok (p.ring.pushMany pipeBufSize data).1),
      { p with ring := (p.ring.pushMany pipeBufSize data).2 })

/-- `pipe_ref_locked`. -/
def pipeRefLocked (p : Pipe) : Side → Pipe
  | .read => { p with nReaders := p.nReaders + 1 }
  | .write => { p with nWriters := p.nWriters + 1 }

/-- The count of one side. -/
def Pipe.holders (p : Pipe) : Side → Int
  | .read => p.nReaders
  | .write => p.nWriters

/-- The counting part of `pipe_unref_locked`. -/
def Pipe.drop (p : Pipe) : Side → Pipe
  | .read => { p with nReaders := p.nReaders - 1 }
  | .write => { p with nWriters := p.nWriters - 1 }

/-- `pipe_unref_locked`, and whether the other side has to be woken. -/
def pipeUnrefLocked (p : Pipe) (side : Side) : Bool × Pipe :=
  (decide ((p.drop side).holders side = 0),
    if (p.drop side).nReaders = 0 ∧ (p.drop side).nWriters = 0 then { p.drop side with used := false }
    else p.drop side)

/-! ## The table -/

namespace Sys

/-- `wait_queue_wake_all` on the queue of the calls of `side` on the slot. -/
def wake (s : Sys) (slot : Nat) (side : Side) : Sys :=
  { s with calls := s.calls.map fun c =>
      if c.ref.slot = slot ∧ c.ref.side = side then { c with asleep := false } else c }

def setPipe (s : Sys) (slot : Nat) (p : Pipe) : Sys :=
  { s with pipes := update s.pipes slot p }

def endCall (s : Sys) (tid : Nat) : Sys := { s with calls := s.calls.filter (·.tid ≠ tid) }

/-- `sched_block_current_locked` on the queue of the call's side. -/
def sleep (s : Sys) (c : Call) : Sys :=
  { s with calls := s.calls.map fun d => if d = c then { d with asleep := true } else d }

def endUsed (s : Sys) (i : Nat) : Bool := s.refs.any (·.holder = .pipeEnd i)

/-- The pipe a fresh slot holds. -/
def freshPipe : Pipe := ⟨RingBuffer.empty 0, 1, 1, true⟩

/-- `pipe_create` up to the handles: the first slot that is not in use and the first two ends. When
    there is no room in the caller's handle table, the two ends are released again. -/
def pipeCreate (s : Sys) : Sys × List Event :=
  match (List.range pipeMax).find? (fun i => !(s.pipes i).used),
    (List.range (pipeMax * 2)).filter (fun i => !s.endUsed i) with
  | some slot, re :: we :: _ =>
    ({ s.setPipe slot freshPipe with
        refs := ⟨.pipeEnd re, slot, .read⟩ :: ⟨.pipeEnd we, slot, .write⟩ :: s.refs },
      [.created slot])
  | _, _ => (s, [])

/-- A holder's reference is copied into the free descriptor `n`: `pipe_fd_inherit`,
    `install_pipe`. -/
def inherit (s : Sys) (h : Holder) (n : Nat) : Sys × List Event :=
  match s.refs.find? (·.holder = h) with
  | none => (s, [])
  | some r =>
    if s.refs.any (·.holder = .fd n) then (s, [])
    else
      ({ s.setPipe r.slot (pipeRefLocked (s.pipes r.slot) r.side) with
          refs := ⟨.fd n, r.slot, r.side⟩ :: s.refs }, [])

/-- A holder that has no call under way gives up its reference: `pipe_fd_close`,
    `pipe_release_for_handle`. -/
def release (s : Sys) (h : Holder) : Sys × List Event :=
  match s.refs.find? (·.holder = h) with
  | none => (s, [])
  | some r =>
    if s.calls.any (·.ref = r) then (s, [])
    else
      let out := pipeUnrefLocked (s.pipes r.slot) r.side
      let s' := { s.setPipe r.slot out.2 with refs := s.refs.erase r }
      (if out.1 then s'.wake r.slot r.side.other else s',
        if out.2.used then [] else [.freed r.slot])

/-- A thread makes a call through a holder of the right side. Empty requests are answered before
    the lock is taken. -/
def enter (s : Sys) (tid : Nat) (h : Holder) (op : Op) : Sys × List Event :=
  match s.refs.find? (·.holder = h) with
  | none => (s, [])
  | some r =>
    if r.side ≠ op.side ∨ s.calls.any (·.tid = tid) then (s, [])
    else match op with
      | .read 0 _ => (s, [.gave r.slot 0 []])
      | .write [] _ atomicSmall => (s, [.took r.slot [] 0 atomicSmall])
      | op => ({ s with calls := ⟨tid, r, op, false⟩ :: s.calls }, [])

/-- What follows a turn of a read. Space was freed, so writers retry. -/
def endRead (s : Sys) (c : Call) (len : Nat) (out : Turn (List UInt8) × Pipe) : Sys × List Event :=
  match out.1 with
  | .blocks => (s.sleep c, [])
  | .returns (.error e) => (s.endCall c.tid, [.failed c.ref.slot e])
  | .returns (.ok bytes) =>
    if bytes = [] then (s.endCall c.tid, [.gave c.ref.slot len []])
    else (((s.setPipe c.ref.slot out.2).wake c.ref.slot .write).endCall c.tid,
      [.gave c.ref.slot len bytes])

/-- What follows a turn of a write. There are bytes, so readers retry. -/
def endWrite (s : Sys) (c : Call) (data : List UInt8) (atomicSmall : Bool) (out : Turn Nat × Pipe) :
    Sys × List Event :=
  match out.1 with
  | .blocks => (s.sleep c, [])
  | .returns (.error e) => (s.endCall c.tid, [.failed c.ref.slot e])
  | .returns (.ok n) =>
    (((s.setPipe c.ref.slot out.2).wake c.ref.slot .read).endCall c.tid,
      [.took c.ref.slot data n atomicSmall])

/-- A thread that is not asleep has a turn at the lock. -/
def turn (s : Sys) (tid : Nat) (cancelled : Bool) : Sys × List Event :=
  match s.calls.find? (·.tid = tid) with
  | none => (s, [])
  | some c =>
    if c.asleep then (s, [])
    else match c.op with
      | .read len nonblock =>
        s.endRead c len (pipeReadFlags (s.pipes c.ref.slot) len nonblock cancelled)
      | .write data nonblock atomicSmall =>
        s.endWrite c data atomicSmall
          (pipeWriteFlags (s.pipes c.ref.slot) data nonblock atomicSmall cancelled)

/-- A sleeping thread is woken by something else: its process is cancelled. -/
def rouse (s : Sys) (tid : Nat) : Sys :=
  { s with calls := s.calls.map fun c => if c.tid = tid then { c with asleep := false } else c }

/-- No pipe is in use. -/
def init : Sys := ⟨fun _ => ⟨RingBuffer.empty 0, 0, 0, false⟩, [], []⟩

end Sys

/-- What can happen next. -/
inductive Input
  | create
  | inherit (h : Holder) (n : Nat)
  | release (h : Holder)
  | enter (tid : Nat) (h : Holder) (op : Op)
  | turn (tid : Nat) (cancelled : Bool)
  | rouse (tid : Nat)

/-- The pipe table as a machine: any interleaving of the calls is a list of inputs. -/
def table : Machine Sys Input Event where
  step s
    | .create => s.pipeCreate
    | .inherit h n => s.inherit h n
    | .release h => s.release h
    | .enter tid h op => s.enter tid h op
    | .turn tid cancelled => s.turn tid cancelled
    | .rouse tid => (s.rouse tid, [])

/-! ## What went in and what came out -/

/-- The bytes accepted on a slot since it was last given to a pipe. -/
def accepted (slot : Nat) (h : List Event) : List UInt8 :=
  h.foldl (fun acc e => match e with
    | .created i => if i = slot then [] else acc
    | .took i data n _ => if i = slot then acc ++ data.take n else acc
    | _ => acc) []

/-- The bytes returned on a slot since it was last given to a pipe. -/
def delivered (slot : Nat) (h : List Event) : List UInt8 :=
  h.foldl (fun acc e => match e with
    | .created i => if i = slot then [] else acc
    | .gave i _ bytes => if i = slot then acc ++ bytes else acc
    | _ => acc) []

section

variable (slot i len n : Nat) (h : List Event) (data bytes : List UInt8) (a : Bool) (e : Errno)

@[simp] theorem accepted_created :
    accepted slot (h ++ [.created i]) = if i = slot then [] else accepted slot h := by
  simp [accepted]

@[simp] theorem accepted_took :
    accepted slot (h ++ [.took i data n a])
      = if i = slot then accepted slot h ++ data.take n else accepted slot h := by
  simp [accepted]

@[simp] theorem accepted_gave : accepted slot (h ++ [.gave i len bytes]) = accepted slot h := by
  simp [accepted]

@[simp] theorem accepted_failed : accepted slot (h ++ [.failed i e]) = accepted slot h := by
  simp [accepted]

@[simp] theorem accepted_freed : accepted slot (h ++ [.freed i]) = accepted slot h := by
  simp [accepted]

@[simp] theorem delivered_created :
    delivered slot (h ++ [.created i]) = if i = slot then [] else delivered slot h := by
  simp [delivered]

@[simp] theorem delivered_gave :
    delivered slot (h ++ [.gave i len bytes])
      = if i = slot then delivered slot h ++ bytes else delivered slot h := by
  simp [delivered]

@[simp] theorem delivered_took : delivered slot (h ++ [.took i data n a]) = delivered slot h := by
  simp [delivered]

@[simp] theorem delivered_failed : delivered slot (h ++ [.failed i e]) = delivered slot h := by
  simp [delivered]

@[simp] theorem delivered_freed : delivered slot (h ++ [.freed i]) = delivered slot h := by
  simp [delivered]

end

/-! ## Turns at the lock -/

theorem pipeReadFlags_snd (p : Pipe) (len : Nat) (nonblock cancelled : Bool) :
    (pipeReadFlags p len nonblock cancelled).2
      = { p with ring := (pipeReadFlags p len nonblock cancelled).2.ring } := by
  unfold pipeReadFlags
  split_ifs <;> rfl

theorem pipeWriteFlags_snd (p : Pipe) (data : List UInt8) (nonblock atomicSmall cancelled : Bool) :
    (pipeWriteFlags p data nonblock atomicSmall cancelled).2
      = { p with ring := (pipeWriteFlags p data nonblock atomicSmall cancelled).2.ring } := by
  unfold pipeWriteFlags
  split_ifs <;> rfl

variable {nonblock : Bool}

variable {cancelled : Bool}

theorem pipeReadFlags_blocks {p : Pipe} {len : Nat}
    (h : (pipeReadFlags p len nonblock cancelled).1 = .blocks) :
    p.ring.count = 0 ∧ p.nWriters ≠ 0 := by
  unfold pipeReadFlags at h
  split_ifs at h with h0 h1
  exact ⟨h0, h1⟩

theorem pipeWriteFlags_blocks {p : Pipe} {data : List UInt8} {atomicSmall : Bool}
    (h : (pipeWriteFlags p data nonblock atomicSmall cancelled).1 = .blocks) :
    noRoom p data.length atomicSmall = true ∧ p.nReaders ≠ 0 := by
  unfold pipeWriteFlags at h
  split_ifs at h with h0 h1
  exact ⟨h0, h1⟩

section

variable {p : Pipe} {xs : List UInt8} (hp : p.ring.Holds pipeBufSize xs)

include hp

/-- A read that returns took the front of the queue, and returned nothing only at the end. -/
theorem pipeReadFlags_ok {len : Nat} (hlen : len ≠ 0) {bytes : List UInt8}
    (hok : (pipeReadFlags p len nonblock cancelled).1 = .returns (.ok bytes)) :
    bytes = xs.take len ∧
      ((pipeReadFlags p len nonblock cancelled).2.ring.Holds pipeBufSize (xs.drop len)) ∧
      (bytes = [] → p.ring.count = 0 ∧ p.nWriters = 0) := by
  have hcount := hp.count
  unfold pipeReadFlags at hok ⊢
  split_ifs at hok ⊢ with h0 hw
  · obtain rfl : xs = [] := length_eq_zero_iff.1 (hcount.symm.trans h0)
    simp only [Turn.returns.injEq, Except.ok.injEq] at hok
    subst hok
    exact ⟨by simp, by simpa using hp, fun _ => ⟨h0, hw⟩⟩
  · cases hok
  · cases hok
  · obtain ⟨hpop, hrest⟩ := hp.popMany len
    simp only [Turn.returns.injEq, Except.ok.injEq] at hok
    rw [hpop] at hok
    subst hok
    refine ⟨rfl, hrest, fun hnil => ?_⟩
    rcases take_eq_nil_iff.1 hnil with h | rfl
    · exact absurd h hlen
    · exact absurd hcount h0

/-- A write that returns put as much as fits behind the queue, all of it if it was to be put in at
    once, and there was a reader. -/
theorem pipeWriteFlags_ok {data : List UInt8} {atomicSmall : Bool} {n : Nat}
    (hok : (pipeWriteFlags p data nonblock atomicSmall cancelled).1 = .returns (.ok n)) :
    ((pipeWriteFlags p data nonblock atomicSmall cancelled).2.ring.Holds pipeBufSize
      (xs ++ data.take n)) ∧ p.nReaders ≠ 0 ∧
      (atomicSmall = true → data.length ≤ pipeBufSize → n = data.length) := by
  have hcount := hp.count
  unfold pipeWriteFlags at hok ⊢
  split_ifs at hok ⊢ with hroom h1 h2 h3 hr
  · cases hok
  · cases hok
  · cases hok
  · cases hok
  · obtain ⟨hn, hrest⟩ := hp.pushMany data
    simp only [Turn.returns.injEq, Except.ok.injEq] at hok
    rw [hn] at hok
    subst hok
    refine ⟨by rwa [Nat.min_comm, ← take_eq_take_min], hr, fun ha hle => ?_⟩
    simp [noRoom, ha, hle] at hroom
    omega

end

/-! ## What every interleaving keeps -/

/-- The number of references to one side of a slot. -/
def Sys.refCount (s : Sys) (slot : Nat) (side : Side) : Nat :=
  s.refs.countP fun r => r.slot = slot ∧ r.side = side

/-- There is something to do under the lock. -/
def Op.Proper : Op → Prop
  | .read len _ => len ≠ 0
  | .write data _ _ => data ≠ []

/-- The condition under which a call sleeps. -/
def Op.Waits (p : Pipe) : Op → Prop
  | .read .. => p.ring.count = 0 ∧ p.nWriters ≠ 0
  | .write data _ atomicSmall => noRoom p data.length atomicSmall = true ∧ p.nReaders ≠ 0

/-- The references, the counts and the calls fit together, and no one sleeps who could go on. -/
structure Wf (s : Sys) : Prop where
  counts : ∀ i side, (s.pipes i).holders side = s.refCount i side
  idle : ∀ i, (s.pipes i).used = false → ∀ r ∈ s.refs, r.slot ≠ i
  calls : ∀ c ∈ s.calls, c.ref ∈ s.refs ∧ c.ref.side = c.op.side ∧ c.op.Proper
  sleepers : ∀ c ∈ s.calls, c.asleep = true → c.op.Waits (s.pipes c.ref.slot)

/-- Every slot holds what was accepted and not yet returned. -/
def Streams (h : List Event) (s : Sys) : Prop :=
  ∀ i, ∃ xs, (s.pipes i).ring.Holds pipeBufSize xs ∧ accepted i h = delivered i h ++ xs

theorem Streams.of_pipes {h : List Event} {s s' : Sys} (hs : Streams h s) (hp : s'.pipes = s.pipes) :
    Streams (h ++ []) s' := by
  intro i
  rw [hp, append_nil]
  exact hs i

namespace Sys

variable {s : Sys} {slot tid : Nat} {side : Side} {p : Pipe} {c : Call}

theorem mem_calls_wake (hc : c ∈ (s.wake slot side).calls) :
    ∃ c₀ ∈ s.calls, c.ref = c₀.ref ∧ c.op = c₀.op ∧
      (c.asleep = true → c₀.asleep = true ∧ ¬(c₀.ref.slot = slot ∧ c₀.ref.side = side)) := by
  obtain ⟨c₀, h₀, rfl⟩ := mem_map.1 hc
  refine ⟨c₀, h₀, ?_⟩
  split_ifs with h
  · exact ⟨rfl, rfl, by simp⟩
  · exact ⟨rfl, rfl, fun hs => ⟨hs, h⟩⟩

theorem mem_calls_endCall (hc : c ∈ (s.endCall tid).calls) : c ∈ s.calls := mem_of_mem_filter hc

end Sys

section

variable {s s' : Sys} (hw : Wf s)

include hw

/-- Calls that end or are woken leave everything in order. -/
theorem Wf.fewer (hp : s'.pipes = s.pipes) (hr : s'.refs = s.refs)
    (hc : ∀ c ∈ s'.calls, ∃ c₀ ∈ s.calls, c.ref = c₀.ref ∧ c.op = c₀.op ∧
      (c.asleep = true → c₀.asleep = true)) : Wf s' := by
  refine ⟨?_, ?_, fun c h => ?_, fun c h hs => ?_⟩
  · intro i side
    rw [Sys.refCount, hp, hr]
    exact hw.counts i side
  · rw [hp, hr]
    exact hw.idle
  · obtain ⟨c₀, h₀, href, hop, -⟩ := hc c h
    rw [href, hop, hr]
    exact hw.calls c₀ h₀
  · obtain ⟨c₀, h₀, href, hop, hsl⟩ := hc c h
    rw [href, hop, hp]
    exact hw.sleepers c₀ h₀ (hsl hs)

/-- The ring of one slot changes. -/
theorem Wf.setRing {slot : Nat} {ring : RingBuffer UInt8} (hr : s'.refs = s.refs)
    (hp : s'.pipes = update s.pipes slot { s.pipes slot with ring := ring })
    (hc : ∀ c ∈ s'.calls, ∃ c₀ ∈ s.calls, c.ref = c₀.ref ∧ c.op = c₀.op ∧
      (c.asleep = true → c₀.asleep = true ∧
        (c₀.ref.slot = slot → c₀.op.Waits { s.pipes slot with ring := ring }))) : Wf s' := by
  have hfields : ∀ i, (s'.pipes i).nReaders = (s.pipes i).nReaders ∧
      (s'.pipes i).nWriters = (s.pipes i).nWriters ∧ (s'.pipes i).used = (s.pipes i).used := by
    intro i
    rw [hp]
    by_cases hi : i = slot
    · subst hi
      simp
    · simp [hi]
  refine ⟨fun i side => ?_, fun i hu => ?_, fun c h => ?_, fun c h hs => ?_⟩
  · have hcount := hw.counts i side
    obtain ⟨h1, h2, -⟩ := hfields i
    rw [Sys.refCount, hr]
    cases side with
    | read => exact h1.trans hcount
    | write => exact h2.trans hcount
  · rw [hr]
    exact hw.idle i ((hfields i).2.2.symm.trans hu)
  · obtain ⟨c₀, h₀, href, hop, -⟩ := hc c h
    rw [href, hop, hr]
    exact hw.calls c₀ h₀
  · obtain ⟨c₀, h₀, href, hop, hsl⟩ := hc c h
    obtain ⟨hs₀, hwait⟩ := hsl hs
    rw [href, hop, hp]
    by_cases hi : c₀.ref.slot = slot
    · rw [hi, update_self]
      exact hwait hi
    · rw [update_of_ne hi]
      exact hw.sleepers c₀ h₀ hs₀

end

section

variable (p : Pipe) (side side' : Side)

@[simp] theorem ring_pipeRefLocked : (pipeRefLocked p side).ring = p.ring := by
  cases side <;> rfl

@[simp] theorem used_pipeRefLocked : (pipeRefLocked p side).used = p.used := by
  cases side <;> rfl

theorem holders_pipeRefLocked :
    (pipeRefLocked p side).holders side' = p.holders side' + if side = side' then 1 else 0 := by
  cases side <;> cases side' <;> simp [pipeRefLocked, Pipe.holders]

@[simp] theorem ring_drop : (p.drop side).ring = p.ring := by
  cases side <;> rfl

@[simp] theorem used_drop : (p.drop side).used = p.used := by
  cases side <;> rfl

theorem holders_drop :
    (p.drop side).holders side' = p.holders side' - if side = side' then 1 else 0 := by
  cases side <;> cases side' <;> simp [Pipe.drop, Pipe.holders]

end

/-- Another holder makes no one's wait shorter. -/
theorem Op.Waits.ref {p : Pipe} {op : Op} (h : op.Waits p) (hr : 0 ≤ p.holders .read)
    (hwr : 0 ≤ p.holders .write) (side : Side) : op.Waits (pipeRefLocked p side) := by
  cases op with
  | read len nonblock =>
    have h2 := h.2
    refine ⟨by simpa using h.1, ?_⟩
    cases side with
    | read => exact h2
    | write =>
      simp only [Pipe.holders] at hwr
      simp only [pipeRefLocked]
      omega
  | write data nonblock a =>
    have h2 := h.2
    refine ⟨by simpa [noRoom] using h.1, ?_⟩
    cases side with
    | read =>
      simp only [Pipe.holders] at hr
      simp only [pipeRefLocked]
      omega
    | write => exact h2

section

variable (p : Pipe) (side side' : Side)

@[simp] theorem ring_pipeUnrefLocked : (pipeUnrefLocked p side).2.ring = p.ring := by
  unfold pipeUnrefLocked
  dsimp only
  split_ifs <;> simp

theorem holders_pipeUnrefLocked : (pipeUnrefLocked p side).2.holders side'
    = p.holders side' - if side = side' then 1 else 0 := by
  rw [← holders_drop]
  unfold pipeUnrefLocked
  dsimp only
  split_ifs <;> cases side' <;> rfl

variable {p side}

/-- A slot in use is given up when the last holder of either side is gone. -/
theorem counts_of_not_used (hp : p.used = true) (h : (pipeUnrefLocked p side).2.used = false) :
    ∀ side', (pipeUnrefLocked p side).2.holders side' = 0 := by
  unfold pipeUnrefLocked at h ⊢
  dsimp only at h ⊢
  split_ifs at h ⊢ with h0
  · intro side'
    cases side' with
    | read => exact h0.1
    | write => exact h0.2
  · rw [used_drop, hp] at h
    cases h

/-- A call that is not woken by the loss of a holder has to wait on. -/
theorem Op.Waits.unref {op : Op} (h : op.Waits p)
    (hwake : ¬((pipeUnrefLocked p side).1 = true ∧ op.side = side.other)) :
    op.Waits (pipeUnrefLocked p side).2 := by
  have hread := holders_pipeUnrefLocked p side .read
  have hwrite := holders_pipeUnrefLocked p side .write
  simp only [Pipe.holders] at hread hwrite
  have hzero : (pipeUnrefLocked p side).1 = decide ((p.drop side).holders side = 0) := rfl
  rw [hzero, holders_drop, decide_eq_true_eq] at hwake
  cases op with
  | read len nonblock =>
    refine ⟨by simpa using h.1, ?_⟩
    have h2 := h.2
    cases side with
    | read => simpa [hwrite] using h2
    | write => simpa [hwrite, Pipe.holders, Op.side, Side.other] using hwake
  | write data nonblock a =>
    refine ⟨by simpa [noRoom] using h.1, ?_⟩
    have h2 := h.2
    cases side with
    | read => simpa [hread, Pipe.holders, Op.side, Side.other] using hwake
    | write => simpa [hread] using h2

end

/-- What an event says about the state `s` it came from and the state `s'` it led to. An empty answer
    means that there is nothing left and no one to write; bytes are accepted only while there is a
    reader, and those to be accepted at once are accepted whole; a slot is freed when it has no
    holder. -/
def Legal (s s' : Sys) : Event → Prop
  | .created _ => True
  | .gave slot len bytes => len ≠ 0 → bytes = [] →
      (s.pipes slot).ring.count = 0 ∧ s.refCount slot .write = 0
  | .took slot data n atomicSmall =>
    (data ≠ [] → s.refCount slot .read ≠ 0) ∧
      (atomicSmall = true → data.length ≤ pipeBufSize → n = data.length)
  | .failed _ _ => True
  | .freed slot => (s'.pipes slot).nReaders = 0 ∧ (s'.pipes slot).nWriters = 0

/-- A step is sound: it keeps the invariant and its events are legal. -/
def Sound (h : List Event) (s : Sys) (out : Sys × List Event) : Prop :=
  Wf out.1 ∧ Streams (h ++ out.2) out.1 ∧ ∀ e ∈ out.2, Legal s out.1 e

section

variable {h : List Event} {s : Sys} (hw : Wf s) (hs : Streams h s)

include hw hs

theorem sound_same : Sound h s (s, []) := ⟨hw, by simpa using hs, by simp⟩

theorem sound_create : Sound h s s.pipeCreate := by
  unfold Sys.pipeCreate
  split
  · next slot re we _ hslot _ =>
    have hused : (s.pipes slot).used = false := by
      simpa using find?_some hslot
    have hnone := hw.idle slot hused
    have hcount : ∀ side, s.refCount slot side = 0 := by
      intro side
      rw [Sys.refCount, countP_eq_zero]
      intro r hr
      simp [hnone r hr]
    refine ⟨⟨fun i side => ?_, fun i hu r hr => ?_, fun c hc => ?_, fun c hc hsl => ?_⟩, fun i => ?_,
      by simp [Legal]⟩
    · by_cases hi : i = slot
      · subst hi
        have h0 := hcount side
        rw [Sys.refCount] at h0 ⊢
        rw [countP_cons, countP_cons, h0]
        cases side <;> simp [Sys.setPipe, Sys.freshPipe, Pipe.holders]
      · have h0 := hw.counts i side
        simp only [Sys.refCount] at h0 ⊢
        simpa [Sys.setPipe, hi, Ne.symm hi] using h0
    · have hi : i ≠ slot := by
        rintro rfl
        simp [Sys.setPipe, Sys.freshPipe] at hu
      have hu' : (s.pipes i).used = false := by simpa [Sys.setPipe, hi] using hu
      rcases mem_cons.1 hr with rfl | hr
      · exact Ne.symm hi
      · rcases mem_cons.1 hr with rfl | hr
        · exact Ne.symm hi
        · exact hw.idle i hu' r hr
    · obtain ⟨hr, hrest⟩ := hw.calls c hc
      exact ⟨mem_cons_of_mem _ (mem_cons_of_mem _ hr), hrest⟩
    · have hne : c.ref.slot ≠ slot := hnone c.ref (hw.calls c hc).1
      simpa [Sys.setPipe, hne] using hw.sleepers c hc hsl
    · by_cases hi : i = slot
      · subst hi
        exact ⟨[], by simpa [Sys.setPipe, Sys.freshPipe] using RingBuffer.holds_empty (by decide) 0,
          by simp⟩
      · simpa [Sys.setPipe, hi, Ne.symm hi] using hs i
  · exact sound_same hw hs

theorem sound_inherit (x : Holder) (n : Nat) : Sound h s (s.inherit x n) := by
  unfold Sys.inherit
  split
  · exact sound_same hw hs
  · next r hr =>
    have hmem : r ∈ s.refs := mem_of_find?_eq_some hr
    split_ifs with hfd
    · exact sound_same hw hs
    · refine ⟨⟨fun i side => ?_, fun i hu y hy => ?_, fun c hc => ?_, fun c hc hsl => ?_⟩,
        fun i => ?_, by simp⟩
      · have hcount := hw.counts i side
        rw [Sys.refCount] at hcount ⊢
        rw [countP_cons]
        by_cases hi : i = r.slot
        · subst hi
          simp [Sys.setPipe, holders_pipeRefLocked, hcount]
        · simpa [Sys.setPipe, hi, Ne.symm hi] using hcount
      · have hu' : (s.pipes i).used = false := by
          by_cases hi : i = r.slot
          · subst hi
            simpa [Sys.setPipe] using hu
          · simpa [Sys.setPipe, hi] using hu
        rcases mem_cons.1 hy with rfl | hy
        · exact hw.idle i hu' r hmem
        · exact hw.idle i hu' y hy
      · obtain ⟨hr, hrest⟩ := hw.calls c hc
        exact ⟨mem_cons_of_mem _ hr, hrest⟩
      · have hwait := hw.sleepers c hc hsl
        by_cases hi : c.ref.slot = r.slot
        · have hpos : ∀ side, 0 ≤ (s.pipes r.slot).holders side := by
            intro side
            rw [hw.counts]
            exact Int.natCast_nonneg _
          rw [hi] at hwait ⊢
          simpa [Sys.setPipe] using hwait.ref (hpos _) (hpos _) r.side
        · simpa [Sys.setPipe, hi] using hwait
      · by_cases hi : i = r.slot
        · subst hi
          simpa [Sys.setPipe] using hs r.slot
        · simpa [Sys.setPipe, hi] using hs i

theorem sound_release (x : Holder) : Sound h s (s.release x) := by
  unfold Sys.release
  split
  · exact sound_same hw hs
  · next r hr =>
    have hmem : r ∈ s.refs := mem_of_find?_eq_some hr
    split_ifs with hcall
    · exact sound_same hw hs
    · have hcalls : ∀ c ∈ s.calls, c.ref ≠ r := by simpa using hcall
      have hused : (s.pipes r.slot).used = true := by
        cases hu : (s.pipes r.slot).used with
        | true => rfl
        | false => exact absurd rfl (hw.idle r.slot hu r hmem)
      dsimp only
      generalize hout : (if (pipeUnrefLocked (s.pipes r.slot) r.side).1 = true then _ else _) = s'
      -- The slot's counts and the references change; calls may be woken.
      obtain ⟨hp', hr', hc'⟩ : s'.pipes
            = update s.pipes r.slot (pipeUnrefLocked (s.pipes r.slot) r.side).2 ∧
          s'.refs = s.refs.erase r ∧ ∀ c ∈ s'.calls, ∃ c₀ ∈ s.calls, c.ref = c₀.ref ∧ c.op = c₀.op ∧
            (c.asleep = true → c₀.asleep = true ∧ (c₀.ref.slot = r.slot →
              ¬((pipeUnrefLocked (s.pipes r.slot) r.side).1 = true ∧ c₀.ref.side = r.side.other))) := by
        rw [← hout]
        split_ifs with hz
        · refine ⟨rfl, rfl, fun c hc => ?_⟩
          obtain ⟨c₀, h₀, href, hop, hsl⟩ := Sys.mem_calls_wake hc
          exact ⟨c₀, h₀, href, hop, fun h => ⟨(hsl h).1, fun hi hh => (hsl h).2 ⟨hi, hh.2⟩⟩⟩
        · exact ⟨rfl, rfl, fun c hc => ⟨c, hc, rfl, rfl, fun h => ⟨h, fun _ hh => hz hh.1⟩⟩⟩
      have hcounts : ∀ i side, (s'.pipes i).holders side = s'.refCount i side := by
        intro i side
        have hcount := hw.counts i side
        rw [Sys.refCount] at hcount ⊢
        rw [hp', hr', countP_erase]
        by_cases hi : i = r.slot
        · subst hi
          rw [update_self, holders_pipeUnrefLocked, hcount]
          by_cases hside : r.side = side
          · have hpos : 0 < s.refs.countP (fun y => y.slot = r.slot ∧ y.side = side) :=
              countP_pos_iff.2 ⟨r, hmem, by simp [hside]⟩
            simp only [hmem, hside, and_self, decide_true, if_true]
            omega
          · simp [hside]
        · rw [update_of_ne hi]
          simpa [Ne.symm hi] using hcount
      have hfree : (s'.pipes r.slot).used = false → ∀ side, (s'.pipes r.slot).holders side = 0 := by
        rw [hp', update_self]
        exact counts_of_not_used hused
      refine ⟨⟨hcounts, fun i hu y hy => ?_, fun c hc => ?_, fun c hc hsl => ?_⟩, fun i => ?_, ?_⟩
      · by_cases hi : i = r.slot
        · subst hi
          intro hslot
          have h0 := (hcounts r.slot y.side).symm.trans (hfree hu y.side)
          rw [Int.natCast_eq_zero, Sys.refCount, countP_eq_zero] at h0
          exact h0 y hy (by simp [hslot])
        · rw [hp', update_of_ne hi] at hu
          rw [hr'] at hy
          exact hw.idle i hu y (mem_of_mem_erase hy)
      · obtain ⟨c₀, h₀, href, hop, -⟩ := hc' c hc
        obtain ⟨h1, h2⟩ := hw.calls c₀ h₀
        rw [href, hop, hr']
        exact ⟨(mem_erase_of_ne (hcalls c₀ h₀)).2 h1, h2⟩
      · obtain ⟨c₀, h₀, href, hop, hwoken⟩ := hc' c hc
        have hwait := hw.sleepers c₀ h₀ (hwoken hsl).1
        rw [href, hop, hp']
        by_cases hi : c₀.ref.slot = r.slot
        · rw [hi] at hwait ⊢
          rw [update_self]
          refine hwait.unref ?_
          rw [← (hw.calls c₀ h₀).2.1]
          exact (hwoken hsl).2 hi
        · rw [update_of_ne hi]
          exact hwait
      · obtain ⟨xs, hxs, hstream⟩ := hs i
        refine ⟨xs, ?_, ?_⟩
        · rw [hp']
          by_cases hi : i = r.slot
          · subst hi
            simpa using hxs
          · simpa [hi] using hxs
        · split_ifs <;> simpa using hstream
      · intro e he
        split_ifs at he with hu
        · cases he
        · obtain rfl := mem_singleton.1 he
          have hu' : (s'.pipes r.slot).used = false := by
            rw [hp', update_self]
            simpa using hu
          exact ⟨hfree hu' .read, hfree hu' .write⟩

theorem sound_enter (tid : Nat) (x : Holder) (op : Op) : Sound h s (s.enter tid x op) := by
  unfold Sys.enter
  split
  · exact sound_same hw hs
  · next r hr =>
    have hmem : r ∈ s.refs := mem_of_find?_eq_some hr
    split_ifs with hno
    · exact sound_same hw hs
    · have hside : r.side = op.side := by
        by_contra hne
        exact hno (Or.inl hne)
      -- A call that has something to do is put on the list, awake.
      have hadd : op.Proper → Sound h s ({ s with calls := ⟨tid, r, op, false⟩ :: s.calls }, []) := by
        intro hproper
        refine ⟨⟨hw.counts, hw.idle, fun c hc => ?_, fun c hc hsl => ?_⟩, hs.of_pipes rfl, by simp⟩
        · rcases mem_cons.1 hc with rfl | hc
          · exact ⟨hmem, hside, hproper⟩
          · exact hw.calls c hc
        · rcases mem_cons.1 hc with rfl | hc
          · cases hsl
          · exact hw.sleepers c hc hsl
      split
      · exact ⟨hw, fun i => by simpa using hs i, by simp [Legal]⟩
      · exact ⟨hw, fun i => by simpa using hs i, by simp [Legal]⟩
      · next hread hwrite =>
        refine hadd ?_
        cases op with
        | read len nonblock =>
          rintro rfl
          exact hread nonblock rfl
        | write data nonblock a =>
          rintro rfl
          exact hwrite nonblock a rfl

theorem sound_rouse (tid : Nat) : Sound h s (s.rouse tid, []) := by
  refine ⟨hw.fewer rfl rfl fun c hc => ?_, hs.of_pipes rfl, by simp⟩
  obtain ⟨c₀, h₀, rfl⟩ := mem_map.1 hc
  refine ⟨c₀, h₀, ?_⟩
  split_ifs <;> simp


/-- A turn that ends in sleep. -/
theorem sound_sleep {c : Call} (hwait : c.op.Waits (s.pipes c.ref.slot)) :
    Sound h s (s.sleep c, []) := by
  refine ⟨⟨hw.counts, hw.idle, fun d hd => ?_, fun d hd hsl => ?_⟩, hs.of_pipes rfl, by simp⟩
  · obtain ⟨d₀, h₀, rfl⟩ := mem_map.1 hd
    split_ifs <;> exact hw.calls d₀ h₀
  · obtain ⟨d₀, h₀, rfl⟩ := mem_map.1 hd
    split_ifs at hsl ⊢ with ht
    · subst ht
      exact hwait
    · exact hw.sleepers d₀ h₀ hsl

/-- A turn that ends the call and leaves the pipe alone. -/
theorem sound_quit (tid : Nat) {e : Event} (hlegal : Legal s (s.endCall tid) e)
    (ha : ∀ i, accepted i (h ++ [e]) = accepted i h)
    (hd : ∀ i, delivered i (h ++ [e]) = delivered i h) : Sound h s (s.endCall tid, [e]) := by
  refine ⟨hw.fewer rfl rfl fun c hc => ⟨c, Sys.mem_calls_endCall hc, rfl, rfl, id⟩, fun i => ?_, ?_⟩
  · rw [ha, hd]
    exact hs i
  · simpa using hlegal

theorem sound_read {c : Call} (hc : c ∈ s.calls) {len : Nat} (hop : c.op = .read len nonblock)
    (cancelled : Bool) :
    Sound h s (s.endRead c len (pipeReadFlags (s.pipes c.ref.slot) len nonblock cancelled)) := by
  obtain ⟨-, -, hproper⟩ := hw.calls c hc
  have hlen : len ≠ 0 := by rwa [hop] at hproper
  obtain ⟨xs, hxs, hstream⟩ := hs c.ref.slot
  unfold Sys.endRead
  split
  · next hout => exact sound_sleep hw hs (by rw [hop]; exact pipeReadFlags_blocks hout)
  · exact sound_quit hw hs _ trivial (by simp) (by simp)
  · next bytes hout =>
    obtain ⟨hbytes, hrest, heof⟩ := pipeReadFlags_ok hxs hlen hout
    split_ifs with hnil
    · refine sound_quit hw hs _ (fun _ _ => ?_) (by simp) (by simp)
      obtain ⟨h0, hwr⟩ := heof hnil
      refine ⟨h0, ?_⟩
      have hcount := hw.counts c.ref.slot .write
      simp only [Pipe.holders, hwr] at hcount
      exact_mod_cast hcount.symm
    · refine ⟨hw.setRing rfl (congrArg (update s.pipes c.ref.slot)
        (pipeReadFlags_snd _ _ _ _)) fun d hd => ?_, fun i => ?_,
        by simp [Legal, hnil]⟩
      · obtain ⟨d₀, h₀, href, hdop, hsl⟩ := Sys.mem_calls_wake (Sys.mem_calls_endCall hd)
        refine ⟨d₀, h₀, href, hdop, fun hasleep => ⟨(hsl hasleep).1, fun hslot => ?_⟩⟩
        -- A reader that slept on this slot had found it empty.
        obtain ⟨-, hside, -⟩ := hw.calls d₀ h₀
        have hwait := hw.sleepers d₀ h₀ (hsl hasleep).1
        cases hd₀ : d₀.op with
        | read len' nonblock' =>
          rw [hd₀, hslot] at hwait
          obtain rfl : xs = [] := length_eq_zero_iff.1 (hxs.count.symm.trans hwait.1)
          exact absurd (by simpa using hbytes) hnil
        | write data nonblock' a =>
          rw [hd₀] at hside
          exact absurd ⟨hslot, hside⟩ (hsl hasleep).2
      · by_cases hi : i = c.ref.slot
        · subst hi
          refine ⟨xs.drop len, by simpa [Sys.setPipe, Sys.wake, Sys.endCall] using hrest, ?_⟩
          rw [accepted_gave, delivered_gave, if_pos rfl, hstream, hbytes, append_assoc,
            take_append_drop]
        · simpa [Sys.setPipe, Sys.wake, Sys.endCall, hi, Ne.symm hi] using hs i

theorem sound_write {c : Call} {data : List UInt8} {atomicSmall : Bool}
    (hop : c.op = .write data nonblock atomicSmall) (cancelled : Bool) :
    Sound h s (s.endWrite c data atomicSmall
      (pipeWriteFlags (s.pipes c.ref.slot) data nonblock atomicSmall cancelled)) := by
  obtain ⟨xs, hxs, hstream⟩ := hs c.ref.slot
  unfold Sys.endWrite
  split
  · next hout => exact sound_sleep hw hs (by rw [hop]; exact pipeWriteFlags_blocks hout)
  · exact sound_quit hw hs _ trivial (by simp) (by simp)
  · next n hout =>
    obtain ⟨hrest, hreader, hwhole⟩ := pipeWriteFlags_ok hxs hout
    refine ⟨hw.setRing rfl (congrArg (update s.pipes c.ref.slot)
      (pipeWriteFlags_snd _ _ _ _ _)) fun d hd => ?_, fun i => ?_,
      ?_⟩
    · obtain ⟨d₀, h₀, href, hdop, hsl⟩ := Sys.mem_calls_wake (Sys.mem_calls_endCall hd)
      refine ⟨d₀, h₀, href, hdop, fun hasleep => ⟨(hsl hasleep).1, fun hslot => ?_⟩⟩
      -- A writer that slept on this slot had too little room, and has less now.
      obtain ⟨-, hside, -⟩ := hw.calls d₀ h₀
      have hwait := hw.sleepers d₀ h₀ (hsl hasleep).1
      cases hd₀ : d₀.op with
      | read len nonblock' =>
        rw [hd₀] at hside
        exact absurd ⟨hslot, hside⟩ (hsl hasleep).2
      | write data' nonblock' a =>
        rw [hd₀, hslot] at hwait
        refine ⟨?_, hwait.2⟩
        have hfull := hwait.1
        have hcount := hxs.count
        have hcount' := hrest.count
        have hroom := hrest.room
        rw [length_append] at hcount' hroom
        simp only [noRoom, Bool.or_eq_true, Bool.and_eq_true, decide_eq_true_eq] at hfull ⊢
        rcases hfull with hall | ⟨hsmall, hlittle⟩
        · exact Or.inl (by omega)
        · exact Or.inr ⟨hsmall, by omega⟩
    · by_cases hi : i = c.ref.slot
      · subst hi
        refine ⟨xs ++ data.take n, by simpa [Sys.setPipe, Sys.wake, Sys.endCall] using hrest, ?_⟩
        rw [accepted_took, delivered_took, if_pos rfl, hstream, append_assoc]
      · simpa [Sys.setPipe, Sys.wake, Sys.endCall, hi, Ne.symm hi] using hs i
    · intro e he
      obtain rfl := mem_singleton.1 he
      refine ⟨fun _ h0 => hreader ?_, hwhole⟩
      have hcount := hw.counts c.ref.slot .read
      rw [h0] at hcount
      exact hcount

theorem sound_turn (tid : Nat) (cancelled : Bool) : Sound h s (s.turn tid cancelled) := by
  unfold Sys.turn
  split
  · exact sound_same hw hs
  · next c hfind =>
    have hc : c ∈ s.calls := mem_of_find?_eq_some hfind
    split_ifs
    · exact sound_same hw hs
    · split
      · next hop => exact sound_read hw hs hc hop cancelled
      · next hop => exact sound_write hw hs hop cancelled

/-- Whatever happens next keeps the table in order. -/
theorem sound_step (x : Input) : Sound h s (table.step s x) := by
  cases x with
  | create => exact sound_create hw hs
  | inherit y n => exact sound_inherit hw hs y n
  | release y => exact sound_release hw hs y
  | enter tid y op => exact sound_enter hw hs tid y op
  | turn tid cancelled => exact sound_turn hw hs tid cancelled
  | rouse tid => exact sound_rouse hw hs tid

end

theorem wf_init : Wf Sys.init where
  counts _ side := by cases side <;> rfl
  idle _ _ r hr := absurd hr (by simp [Sys.init])
  calls c hc := absurd hc (by simp [Sys.init])
  sleepers c hc := absurd hc (by simp [Sys.init])

/-- Every interleaving leaves the table in order. -/
theorem sound_run (is : List Input) :
    Wf (table.run Sys.init is).1 ∧ Streams (table.run Sys.init is).2 (table.run Sys.init is).1 := by
  have hrun := Machine.run_invariant (m := table) (I := fun h s => Wf s ∧ Streams h s)
    (fun h s x hI => ⟨(sound_step hI.1 hI.2 x).1, (sound_step hI.1 hI.2 x).2.1⟩) is [] Sys.init
    ⟨wf_init, fun i => ⟨[], RingBuffer.holds_empty (by decide) 0, rfl⟩⟩
  simpa using hrun

/-- **Pipes.** In every interleaving, what was returned on a slot is a prefix of what was accepted
    on it, and every event of the next step is legal: end of file means an empty pipe without
    writers, bytes are accepted only while there is a reader and whole where that was asked for, and
    a slot is given up only when both counts are zero; by then no reference to it is left. -/
theorem pipe_fifo_of_run (is : List Input) (x : Input) :
    (∀ slot, delivered slot (table.run Sys.init is).2 <+: accepted slot (table.run Sys.init is).2) ∧
    (∀ e ∈ (table.step (table.run Sys.init is).1 x).2,
      Legal (table.run Sys.init is).1 (table.step (table.run Sys.init is).1 x).1 e) ∧
    ∀ slot, ((table.run Sys.init is).1.pipes slot).used = false →
      ∀ r ∈ (table.run Sys.init is).1.refs, r.slot ≠ slot := by
  obtain ⟨hw, hs⟩ := sound_run is
  refine ⟨fun slot => ?_, (sound_step hw hs x).2.2, hw.idle⟩
  obtain ⟨xs, -, hstream⟩ := hs slot
  exact ⟨xs, hstream.symm⟩

/-- In every interleaving the counts of a pipe are the references to its ends, and no call sleeps that
    could go on. -/
theorem pipe_counts_of_run (is : List Input) :
    (∀ slot side, ((table.run Sys.init is).1.pipes slot).holders side =
      (table.run Sys.init is).1.refCount slot side) ∧
    ∀ c ∈ (table.run Sys.init is).1.calls, c.asleep = true →
      c.op.Waits ((table.run Sys.init is).1.pipes c.ref.slot) :=
  ⟨(sound_run is).1.counts, (sound_run is).1.sleepers⟩

/-- A writer whose reader is gone. -/
def readerGone : List Input := [.create, .release (.pipeEnd 0)]

/-- A write of no bytes succeeds without a reader. -/
theorem empty_write_without_reader :
    (table.run Sys.init readerGone).1.refCount 0 .read = 0 ∧
      (table.step (table.run Sys.init readerGone).1 (.enter 1 (.pipeEnd 1) (.write [] false true))).2
        = [.took 0 [] 0 true] := by
  decide +kernel

end EmbLinkOs.Ipc.Pipes
