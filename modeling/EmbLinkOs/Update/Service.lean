import EmbLinkOs.Lib.Machine
import EmbLinkOs.Update.Protocol

set_option autoImplicit false

/-! # The update service and the boot dispatcher

`update/service.c` and `boot/uefi/update_boot.c` over one disk: the two journal pages, the two root
partitions and the sectors of the EFI system partition that hold the slots' boot images. The machine
is powered off or runs a session with the service's memory; an input is a boot, a call of the
service, a health report or the loss of power, together with everything the environment decides.

A journal write ends in one of three ways: it is `done` and read back, it `failed` with an error, or
power was lost. In the last two cases the page holds the old record, the new one or bytes that fail
their checks. Reads of the journal succeed. The texts of the service's status, its progress counts
and the release names it shows are left out. -/

namespace EmbLinkOs.Update

/-! ## Hashes -/

/-- The compression of whole 64-byte blocks, up to the digest `sha256_final` reads off the state. -/
class Sha256 where
  blocks : Bytes → Digest

/-- What `sha256_final` appends to `n` bytes: a one bit, zeros up to 56 bytes in the block and the
    number of bits. -/
def shaPad (n : Nat) : Bytes :=
  0x80 :: List.replicate ((119 - n % 64) % 64) 0 ++ (Codec.leBytes 8 (n * 8 % 2 ^ 64)).reverse

section

variable [Sha256]

/-- `sha256_final`: the digest, and the context it leaves, which has absorbed the padding. A context
    is the bytes it has absorbed. -/
def shaFinal (ctx : Bytes) : Digest × Bytes :=
  (Sha256.blocks (ctx ++ shaPad ctx.length), ctx ++ shaPad ctx.length)

/-- `sha256`. -/
def sha256 (p : Bytes) : Digest := (shaFinal p).1

end

/-! ## The disk -/

/-- Where the boot images lie on the EFI system partition: what `fat32_fixed_map` returns for the
    files of the slots and for the dispatcher, and the sizes of the root partitions in sectors. A
    map names each sector once. -/
structure Layout where
  slotMap : UInt8 → List Nat
  bootMap : List Nat
  rootSectors : UInt8 → Nat
  nodup : ∀ i, (slotMap i).Nodup
  length : ∀ i, (slotMap i).length = 32768

structure Disk where
  control : Bool → Bytes
  factory : Bytes
  root : UInt8 → Nat → UInt8
  esp : Nat → Nat → UInt8

namespace Disk

def rootImage (d : Disk) (s : UInt8) (n : Nat) : Bytes := (List.range n).map (d.root s)

/-- The byte at offset `i` of a file whose sectors are `map`. -/
def fileByte (d : Disk) (map : List Nat) (i : Nat) : UInt8 := d.esp (map.getD (i / 512) 0) (i % 512)

def fileImage (d : Disk) (map : List Nat) (n : Nat) : Bytes := (List.range n).map (d.fileByte map)

def setControl (d : Disk) (i : Bool) (p : Bytes) : Disk :=
  { d with control := Function.update d.control i p }

/-- The record in force. -/
def chosen (d : Disk) : Option (Bool × State) := choose (d.control false) (d.control true)

/-- The bytes from `off` on in the root partition of `s`. -/
def writeRoot (d : Disk) (s : UInt8) (off : Nat) (data : Bytes) : Disk :=
  { d with root := Function.update d.root s fun i =>
      if off ≤ i ∧ i < off + data.length then data.getD (i - off) 0 else d.root s i }

/-- The sectors of the file `map` from offset `off` on; the last one is padded with zeros. -/
def writeFile (d : Disk) (map : List Nat) (off : Nat) (data : Bytes) : Disk :=
  (List.range ((data.length + 511) / 512)).foldl
    (fun d k =>
      { d with esp := Function.update d.esp (map.getD ((off + k * 512) / 512) 0) fun j =>
          data.getD (k * 512 + j) 0 })
    d

end Disk

/-- What a journal page holds after a write that did not end well. -/
inductive Landed
  | old
  | new
  | torn (p : Bytes) (h : decode p = none)

inductive Outcome
  | done
  | failed (l : Landed)
  | crashed (l : Landed)

/-- The page after a write of `x` over `p`. -/
def Landed.bytes (l : Landed) (p x : Bytes) : Bytes :=
  match l with
  | .old => p
  | .new => x
  | .torn t _ => t

/-- What an image write left when it did not end well: any bytes in the sectors it was to write. -/
inductive ImageOutcome
  | done
  | failed (left : Bytes)
  | crashed (left : Bytes)

/-! ## History -/

inductive Kind
  | beginWrite | stage | reject | spend | confirm | rollback
  deriving DecidableEq, Repr

/-- The installation, a record that reached the journal, the start of a slot's boot image, a write into the images of a
    slot, the embedded recovery system and a boot that halts. -/
inductive Event
  | installed (s : State)
  | journal (k : Kind) (before after : State)
  | start (slot : UInt8)
  | imageWrite (slot : UInt8)
  | embedded
  | halt
  deriving DecidableEq

namespace Outcome

/-- The page after a write of `x` over `p`. -/
def bytes (o : Outcome) (p x : Bytes) : Bytes :=
  match o with
  | .done => x
  | .failed l => l.bytes p x
  | .crashed l => l.bytes p x

/-- The new record is on the page. -/
def landed : Outcome → Bool
  | .done => true
  | .failed .new => true
  | .crashed .new => true
  | _ => false

def events (o : Outcome) (e : Event) : List Event := if o.landed then [e] else []

end Outcome

/-- The disk after the copy that is not `r` was written. -/
def Disk.record (d : Disk) (r : Bool) (p : Bytes) (o : Outcome) : Disk :=
  d.setControl (!r) (o.bytes (d.control !r) p)

/-! ## The service -/

/-- The memory of the service, `u` in the source. -/
structure Service where
  ready : Bool
  record : Bool
  state : State
  worker : Option Nat
  writing : Bool
  candidate : Slot
  target : UInt8
  efiMap : List Nat
  rootDone : Nat
  efiDone : Nat
  verifyMode : Nat
  verifyDone : Nat
  verifyHash : Bytes
  trial : Bool
  job : Bool
  healthySince : UInt64

/-- What the boot protocol tells the kernel about the slot that was started. -/
structure BootInfo where
  slot : UInt8
  revision : UInt64
  rootGuid : Guid
  dataGuid : Guid
  recovery : Bool

structure Session where
  info : BootInfo
  u : Service

structure World where
  disk : Disk
  session : Option Session

/-- The service after `memset`. -/
def Service.unavailable (s : State) : Service :=
  { ready := false, record := false, state := s, worker := none, writing := false,
    candidate := s.slot0, target := 0, efiMap := [], rootDone := 0, efiDone := 0, verifyMode := 0,
    verifyDone := 0, verifyHash := [], trial := false, job := false, healthySince := 0 }

/-- A call's result: the disk, the service's memory if power is still on, the return code (`true` is
    zero) and what happened. -/
structure Reply where
  disk : Disk
  u : Option Service
  ok : Bool
  events : List Event

/-- `persist`. -/
def persist (d : Disk) (u : Service) (k : Kind) (next : State) (o : Outcome) : Reply :=
  match encode next with
  | none => ⟨d, some u, false, []⟩
  | some p =>
    let d := d.record u.record p o
    let e := o.events (.journal k u.state next)
    match o with
    | .done => ⟨d, some { u with state := next, record := !u.record }, true, e⟩
    | .failed _ => ⟨d, some { u with ready := false }, false, e⟩
    | .crashed _ => ⟨d, none, false, e⟩

/-- `staging_clear`. -/
def Service.stagingClear (u : Service) : Service :=
  { u with efiMap := [], writing := false, verifyMode := 0 }

/-- `struct embk_update_image`. -/
structure Image where
  release : UInt64
  rootBytes : UInt64
  efiBytes : UInt64
  version : Vector UInt8 32
  rootSha256 : Digest
  efiSha256 : Digest

/-- The candidate slot `begin` makes of an image. -/
def Service.candidateOf (u : Service) (image : Image) (target : UInt8) : Slot :=
  { rootGuid := (u.state.slot target).rootGuid, release := image.release,
    rootBytes := image.rootBytes, efiBytes := image.efiBytes, version := image.version,
    efiSha256 := image.efiSha256, rootSha256 := image.rootSha256 }

/-- `begin`; `mounted` says that a volume on the target partition is mounted, `mapped` that the
    boot files could be mapped. -/
def begin_ (L : Layout) (d : Disk) (u : Service) (image : Image) (mounted mapped : Bool)
    (o : Outcome) : Reply :=
  if u.writing || u.state.pending ≠ noSlot then ⟨d, some u, false, []⟩
  else
    let target := 1 - u.state.active
    let u := { u with target := target }
    let candidate := u.candidateOf image target
    match stage u.state target candidate with
    | .error _ => ⟨d, some u, false, []⟩
    | .ok _ =>
      if L.rootSectors target < candidate.rootBytes.toNat / 512 || mounted || !mapped ||
          (L.slotMap target).any (· ∈ L.slotMap u.state.active) ||
          (L.slotMap target).any (· ∈ L.bootMap) then ⟨d, some u.stagingClear, false, []⟩
      else match beginWrite u.state target with
        | .error _ => ⟨d, some u.stagingClear, false, []⟩
        | .ok next =>
          let r := persist d u .beginWrite next o
          { r with u := r.u.map fun u =>
              if r.ok then
                { u with
                  candidate := candidate, rootDone := 0, efiDone := 0, writing := true,
                  efiMap := L.slotMap target }
              else u.stagingClear }

/-- `EMBK_UPDATE_CHUNK`. -/
def chunk : Nat := 32768

/-- The checks of `write_image`. -/
def Service.accepts (u : Service) (efi : Bool) (len : Nat) : Bool :=
  let done := if efi then u.efiDone else u.rootDone
  let total := if efi then u.candidate.efiBytes.toNat else u.candidate.rootBytes.toNat
  u.writing && len ≠ 0 && len ≤ chunk && done ≤ total && len ≤ total - done && done % 512 = 0 &&
    (len % 512 = 0 || (efi && len = total - done))

/-- The disk with `data` at the place `write_image` has reached. -/
def Service.put (u : Service) (d : Disk) (efi : Bool) (data : Bytes) : Disk :=
  if efi then d.writeFile u.efiMap u.efiDone data else d.writeRoot u.target u.rootDone data

def Service.advance (u : Service) (efi : Bool) (len : Nat) : Service :=
  if efi then { u with efiDone := u.efiDone + len } else { u with rootDone := u.rootDone + len }

/-- `write_image`. A write that did not end well leaves any bytes where it was to write. -/
def writeImage (d : Disk) (u : Service) (efi : Bool) (data : Bytes) (o : ImageOutcome) : Reply :=
  if !u.accepts efi data.length then ⟨d, some u, false, []⟩
  else
    let e := [Event.imageWrite u.target]
    match o with
    | .done => ⟨u.put d efi data, some (u.advance efi data.length), true, e⟩
    | .failed left => ⟨u.put d efi (left.take data.length), some u, false, e⟩
    | .crashed left => ⟨u.put d efi (left.take data.length), none, false, e⟩

section

variable [Sha256]

/-- The image `commit_image` reads back. -/
def Service.image (u : Service) (d : Disk) (efi : Bool) : Bytes :=
  if efi then d.fileImage u.efiMap u.candidate.efiBytes.toNat
  else d.rootImage u.target u.candidate.rootBytes.toNat

/-- The digest it is to have. -/
def Service.digest (u : Service) (efi : Bool) : Digest :=
  if efi then u.candidate.efiSha256 else u.candidate.rootSha256

/-- The service when the readback starts. -/
def Service.verifying (u : Service) : Service :=
  if u.verifyMode = 0 then { u with verifyMode := 1, verifyDone := 0, verifyHash := [] } else u

/-- The readback of one call: up to a chunk, in pieces of 4096 bytes of which `reads` succeed. -/
def Service.readBack (u : Service) (d : Disk) (reads : Nat) : Service :=
  let image := u.image d (u.verifyMode = 2)
  let n := min (min (u.verifyDone + chunk) image.length - u.verifyDone) (4096 * reads)
  { u with verifyDone := u.verifyDone + n, verifyHash := u.verifyHash ++ (image.drop u.verifyDone).take n }

/-- The readback of this call got as far as it was to. -/
def Service.readAll (u : Service) (d : Disk) (reads : Nat) : Bool :=
  let image := u.image d (u.verifyMode = 2)
  min (u.verifyDone + chunk) image.length - u.verifyDone ≤ 4096 * reads

/-- The end of `commit_image`, where the image has been read back: its digest is compared, and after
    the boot image's the candidate is staged. -/
def settle (d : Disk) (u : Service) (o : Outcome) : Reply :=
  let efi : Bool := u.verifyMode = 2
  let digest := (shaFinal u.verifyHash).1
  let u := { u with verifyHash := (shaFinal u.verifyHash).2 }
  if digest ≠ u.digest efi then ⟨d, some u, false, []⟩
  else if !efi then
    ⟨d, some { u with verifyMode := 2, verifyDone := 0, verifyHash := [] }, true, []⟩
  else match stage u.state u.target u.candidate with
    | .error _ => ⟨d, some u, false, []⟩
    | .ok next =>
      let r := persist d u .stage next o
      { r with u := r.u.map fun u => if r.ok then u.stagingClear else u }

/-- `commit_image`; `flushed` is the flush before the readback. -/
def commitImage (d : Disk) (u : Service) (flushed : Bool) (reads : Nat) (o : Outcome) : Reply :=
  if !u.writing || u.rootDone ≠ u.candidate.rootBytes.toNat ||
      u.efiDone ≠ u.candidate.efiBytes.toNat then ⟨d, some u, false, []⟩
  else if u.verifyMode = 0 && !flushed then ⟨d, some u, false, []⟩
  else
    let u := u.verifying
    let v := u.readBack d reads
    if !u.readAll d reads then ⟨d, some v, false, []⟩
    else if v.verifyDone < (v.image d (v.verifyMode = 2)).length then ⟨d, some v, true, []⟩
    else settle d v o

end

/-- Who calls `update_service_control`: an administrator, a process outside all sessions with the
    session capability, its pid, and whether the registered worker is alive. -/
structure Caller where
  admin : Bool
  privileged : Bool
  pid : Nat
  workerAlive : Bool

inductive Op
  | worker
  | request
  | rollback
  | job
  | report (done : Bool)
  | begin (image : Image) (mounted mapped : Bool)
  | write (efi : Bool) (data : Bytes) (o : ImageOutcome)
  | commit (flushed : Bool) (reads : Nat)
  | abort

/-- An installation under way is rejected and cleared, as `EMBK_UPDATE_WORKER` and
    `EMBK_UPDATE_ABORT` do. -/
def dropWriting (d : Disk) (u : Service) (o : Outcome) : Reply :=
  if !u.writing then ⟨d, some u, true, []⟩
  else match reject u.state writeFailed with
    | .error _ => ⟨d, some u.stagingClear, false, []⟩
    | .ok next =>
      let r := persist d u .reject next o
      { r with u := r.u.map Service.stagingClear }

/-- The operations of the worker process. -/
def workerOp [Sha256] (L : Layout) (d : Disk) (u : Service) (op : Op) (o : Outcome) : Reply :=
  match op with
  | .job => ⟨d, some u, true, []⟩
  | .report done => ⟨d, some (if done then { u with job := false } else u), true, []⟩
  | .begin image mounted mapped => begin_ L d u image mounted mapped o
  | .write efi data io => writeImage d u efi data io
  | .commit flushed reads => commitImage d u flushed reads o
  | .abort =>
    let r := dropWriting d u o
    { r with u := r.u.map fun u => { u with job := false } }
  | _ => ⟨d, some u, false, []⟩

/-- `update_service_control`, without the status call. -/
def control [Sha256] (L : Layout) (d : Disk) (u : Service) (op : Op) (c : Caller) (o : Outcome) :
    Reply :=
  if !u.ready then ⟨d, some u, false, []⟩
  else match op with
    | .worker =>
      if !c.privileged || (u.worker.isSome && c.workerAlive) then ⟨d, some u, false, []⟩
      else
        let r := dropWriting d u o
        { r with u := r.u.map fun u =>
            if r.ok then { u with job := false, worker := some c.pid } else u }
    | .request =>
      if !c.admin || u.writing || u.job || u.trial || u.state.pending ≠ noSlot ||
          !(u.worker.isSome && c.workerAlive) then ⟨d, some u, false, []⟩
      else ⟨d, some { u with job := true }, true, []⟩
    | .rollback =>
      if !c.admin || u.writing || u.job || u.trial then ⟨d, some u, false, []⟩
      else match Update.rollback u.state with
        | .error _ => ⟨d, some u, false, []⟩
        | .ok next => persist d u .rollback next o
    | op => if u.worker ≠ some c.pid then ⟨d, some u, false, []⟩ else workerOp L d u op o

/-- `update_service_health`. -/
def health (d : Disk) (info : BootInfo) (u : Service) (healthy alive : Bool) (now : UInt64)
    (o : Outcome) : Reply :=
  if !u.ready || !u.trial then ⟨d, some u, true, []⟩
  else if !healthy || u.worker.isNone || !alive then
    ⟨d, some { u with healthySince := 0 }, true, []⟩
  else if u.healthySince = 0 then ⟨d, some { u with healthySince := now }, true, []⟩
  else if now - u.healthySince < 5000 then ⟨d, some u, true, []⟩
  else match confirm u.state info.slot with
    | .error _ => ⟨d, some u, false, []⟩
    | .ok next =>
      let r := persist d u .confirm next o
      { r with u := r.u.map fun u => if r.ok then { u with trial := false } else u }

/-- `update_service_init`; `devices` says that the partitions were found, could be read and carry the
    identifiers of the record. -/
def serviceInit (d : Disk) (info : BootInfo) (devices : Bool) (s : State) : Service :=
  if info.recovery || !devices then .unavailable s
  else match d.chosen with
    | none => .unavailable s
    | some (r, st) =>
      if info.dataGuid ≠ st.dataGuid || 1 < info.slot ||
          info.rootGuid ≠ (st.slot info.slot).rootGuid || info.revision ≠ st.revision then
        .unavailable s
      else { Service.unavailable st with
        ready := true, record := r, trial := st.pending ≠ noSlot && info.slot = st.pending }

/-! ## The dispatcher -/

/-- `BOOT_MODE_NORMAL` .. `BOOT_MODE_LIVE`. -/
inductive Mode
  | normal | recovery | diagnostics | live
  deriving DecidableEq, Repr

/-- What the firmware decides in one boot: whether the partition opens, whether an image can be read,
    allocated and loaded, whether a started image returns, and how the journal writes end. -/
structure Firmware where
  mode : Mode
  opens : Bool
  loads : UInt8 → Bool
  returns : UInt8 → Bool
  bootWrite : Outcome
  rejectWrite : Outcome
  devices : Bool

/-- Where a boot ends: power is off (or the loader has halted), or a kernel runs. -/
structure Booted where
  disk : Disk
  info : Option BootInfo
  events : List Event

/-- `update_boot_fill`. -/
def bootFill (s : State) (slot : UInt8) (recovery : Bool) : BootInfo :=
  { slot, revision := s.revision, rootGuid := (s.slot slot).rootGuid, dataGuid := s.dataGuid, recovery }

/-- `boot_recovery_mode` in the kernel that was started. -/
def Mode.isRecovery : Mode → Bool
  | .recovery => true
  | .diagnostics => true
  | _ => false

/-- The check of `update_boot_child`. -/
def childAccepts (s : State) (slot : UInt8) : Bool :=
  slot ≤ 1 && (slot = s.active || (slot = s.pending && s.attempts = 0))

/-- The embedded system, as recovery. -/
def embedded (d : Disk) (s : State) (e : List Event) : Booted :=
  ⟨d, some (bootFill s s.active true), e ++ [.embedded]⟩

section

variable [Sha256]

/-- `chain` up to `StartImage`. -/
def chains (L : Layout) (d : Disk) (fw : Firmware) (s : State) (slot : UInt8) : Bool :=
  let n := (s.slot slot).efiBytes
  n ≠ 0 && n ≤ maxEfiBytes && fw.loads slot &&
    sha256 (d.fileImage (L.slotMap slot) n.toNat) = (s.slot slot).efiSha256 && valid s

/-- `StartImage`, and the kernel behind it if the image does not return. -/
def started (d : Disk) (fw : Firmware) (s : State) (slot : UInt8) (recovery : Bool) :
    Option Booted :=
  if !childAccepts s slot then some ⟨d, none, [.start slot, .halt]⟩
  else if fw.returns slot then none
  else some ⟨d, some (bootFill s slot recovery), [.start slot]⟩

/-- `chain` of the confirmed slot, and the embedded system behind it. -/
def chainActive (L : Layout) (d : Disk) (fw : Firmware) (s : State) (recovery : Bool)
    (e : List Event) : Booted :=
  if chains L d fw s s.active then
    match started d fw s s.active recovery with
    | some b => { b with events := e ++ b.events }
    | none => embedded d s (e ++ [.start s.active])
  else embedded d s e

/-- The reaction to a trial image that cannot be loaded or returned. -/
def revert (L : Layout) (d : Disk) (fw : Firmware) (record : Option Bool) (s : State)
    (recovery : Bool) (e : List Event) : Booted :=
  match record, reject s imageFailed with
  | some r, .ok next =>
    match encode next with
    | none => chainActive L d fw s recovery e
    | some p =>
      let d := d.record r p fw.rejectWrite
      let e := e ++ fw.rejectWrite.events (.journal .reject s next)
      match fw.rejectWrite with
      | .done => chainActive L d fw next recovery e
      | .failed _ => chainActive L d fw s recovery e
      | .crashed _ => ⟨d, none, e⟩
  | _, _ => chainActive L d fw s recovery e

/-- The end of `update_boot_dispatch`: `slot` is to be started. -/
def launch (L : Layout) (d : Disk) (fw : Firmware) (record : Option Bool) (s : State) (slot : UInt8)
    (recovery : Bool) (e : List Event) : Booted :=
  if slot = s.active then chainActive L d fw s recovery e
  else if chains L d fw s slot then
    match started d fw s slot recovery with
    | some b => { b with events := e ++ b.events }
    | none => revert L d fw record s recovery (e ++ [.start slot])
  else revert L d fw record s recovery e

/-- `update_boot_dispatch` with a record in force. -/
def dispatchRecord (L : Layout) (d : Disk) (fw : Firmware) (r : Bool) (s : State) : Booted :=
  if fw.mode = .normal || fw.mode = .live then
    match boot s with
    | .error _ => ⟨d, none, [.halt]⟩
    | .ok ⟨slot, none⟩ => launch L d fw (some r) s slot false []
    | .ok ⟨slot, some next⟩ =>
      match encode next with
      | none => launch L d fw (some r) s s.active false []
      | some p =>
        let d := d.record r p fw.bootWrite
        let k := if slot = s.active then Kind.reject else .spend
        let e := fw.bootWrite.events (.journal k s next)
        match fw.bootWrite with
        | .done => launch L d fw (some !r) next slot false e
        | .failed _ => launch L d fw (some r) s s.active false e
        | .crashed _ => ⟨d, none, e⟩
  else launch L d fw (some r) s s.active fw.mode.isRecovery []

/-- `update_boot_dispatch`, and the embedded kernel where it returns. -/
def dispatch (L : Layout) (d : Disk) (fw : Firmware) : Booted :=
  if !fw.opens then ⟨d, none, [.embedded]⟩
  else match d.chosen with
    | some (r, s) => dispatchRecord L d fw r s
    | none =>
      match decode d.factory with
      | none => ⟨d, none, [.halt]⟩
      | some s => launch L d fw none s s.active true []

/-! ## The machine -/

inductive Input
  | boot (fw : Firmware)
  | control (op : Op) (c : Caller) (o : Outcome)
  | health (healthy alive : Bool) (now : UInt64) (o : Outcome)
  | crash

/-- A session after a reply. -/
def Reply.world (r : Reply) (info : BootInfo) : World :=
  ⟨r.disk, r.u.map fun u => ⟨info, u⟩⟩

/-- The kernel that was started, with its service. -/
def Booted.session (b : Booted) (devices : Bool) : Option Session :=
  match b.info, b.disk.chosen with
  | some info, some (_, s) => some ⟨info, serviceInit b.disk info devices s⟩
  | _, _ => none

/-- One input. A machine that is off only boots; a boot of a running machine is a restart. -/
def step (L : Layout) (w : World) : Input → World × List Event
  | .boot fw =>
    let b := dispatch L w.disk fw
    (⟨b.disk, b.session fw.devices⟩, b.events)
  | .crash => (⟨w.disk, none⟩, [])
  | .control op c o =>
    match w.session with
    | none => (w, [])
    | some x =>
      let r := control L w.disk x.u op c o
      (r.world x.info, r.events)
  | .health healthy alive now o =>
    match w.session with
    | none => (w, [])
    | some x =>
      let r := health w.disk x.info x.u healthy alive now o
      (r.world x.info, r.events)

/-- The machine with its update service. -/
def updater (L : Layout) : Machine World Input Event := ⟨step L⟩

end

end EmbLinkOs.Update
