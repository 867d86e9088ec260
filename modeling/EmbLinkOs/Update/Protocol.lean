import EmbLinkOs.Lib.Codec

set_option autoImplicit false

/-! # The boot journal

`update/protocol.c`: the record that says which system slot is confirmed, which one is on trial and
what an interrupted installation left behind, its checks, its 512-byte form and its transitions. A
transition of the source changes a record in place and returns a code; here it returns the changed
record or the code, and a record that is not changed is the one it was given. -/

namespace EmbLinkOs.Update

open List hiding Vector

abbrev Bytes := List UInt8
abbrev Guid := Vector UInt8 16
abbrev Digest := Vector UInt8 32

/-- `struct update_slot`. -/
structure Slot where
  rootGuid : Guid
  release : UInt64
  rootBytes : UInt64
  efiBytes : UInt64
  version : Vector UInt8 32
  efiSha256 : Digest
  rootSha256 : Digest
  deriving DecidableEq

/-- `struct update_state`. -/
structure State where
  revision : UInt64
  flags : UInt32
  active : UInt8
  pending : UInt8
  previous : UInt8
  attempts : UInt8
  dataGuid : Guid
  espGuid : Guid
  slot0 : Slot
  slot1 : Slot
  lastError : UInt32
  deriving DecidableEq

/-- `enum update_result` without `UPDATE_OK`. -/
inductive Refusal
  | invalid | busy | older | exhausted | notTrial
  deriving DecidableEq, Repr

/-- `UPDATE_NO_SLOT`. -/
def noSlot : UInt8 := 255

/-- `UPDATE_REVERTED`, `UPDATE_WRITING`. -/
def reverted : UInt32 := 1
def writingFlag : UInt32 := 2

/-- `UPDATE_BOOT_FAILED`, `UPDATE_IMAGE_FAILED`, `UPDATE_WRITE_FAILED`. -/
def bootFailed : UInt32 := 1
def imageFailed : UInt32 := 2
def writeFailed : UInt32 := 3

def recordBytes : Nat := 512
def maxEfiBytes : UInt64 := 16777216
def maxRootBytes : UInt64 := 8589934592
def maxRevision : UInt64 := 0xffffffffffffffff

def nonzero (p : Bytes) : Bool := p.any (· ≠ 0)

namespace State

/-- `s->slot[i]`. -/
def slot (s : State) (i : UInt8) : Slot := if i = 0 then s.slot0 else s.slot1

def setSlot (s : State) (i : UInt8) (x : Slot) : State :=
  if i = 0 then { s with slot0 := x } else { s with slot1 := x }

end State

/-! ## Checks -/

/-- The characters a version may have. -/
def versionChar (c : UInt8) : Bool :=
  (97 ≤ c && c ≤ 122) || (65 ≤ c && c ≤ 90) || (48 ≤ c && c ≤ 57) || c = 46 || c = 45 || c = 95

/-- The version is a zero-terminated name with nothing behind it. -/
def versionValid (v : Bytes) : Bool :=
  let name := v.takeWhile (· ≠ 0)
  name.all versionChar && name.length ≠ v.length && !nonzero (v.drop name.length)

/-- `slot_valid`. -/
def slotValid (s : Slot) (required : Bool) : Bool :=
  if !nonzero s.rootGuid.toList then false
  else if s.release = 0 then
    !required && s.rootBytes = 0 && s.efiBytes = 0 && !nonzero s.version.toList &&
      !nonzero s.efiSha256.toList && !nonzero s.rootSha256.toList
  else if s.rootBytes = 0 || maxRootBytes < s.rootBytes || s.rootBytes &&& 511 ≠ 0 ||
      s.efiBytes = 0 || maxEfiBytes < s.efiBytes || !nonzero s.efiSha256.toList ||
      !nonzero s.rootSha256.toList || s.version[0] = 0 then false
  else versionValid s.version.toList

/-- The checks of `update_state_valid` on one slot. -/
def slotFits (s : State) (i : UInt8) : Bool :=
  slotValid (s.slot i) (i = s.active) && (s.slot i).rootGuid ≠ s.dataGuid &&
    (s.slot i).rootGuid ≠ s.espGuid

/-- `update_state_valid`. With the flags at most `writingFlag`, a flag is set if it is the only one. -/
def valid (s : State) : Bool :=
  s.revision ≠ 0 && s.active ≤ 1 && s.flags ≤ writingFlag &&
    nonzero s.dataGuid.toList && nonzero s.espGuid.toList && s.dataGuid ≠ s.espGuid &&
    slotFits s 0 && slotFits s 1 && s.slot0.rootGuid ≠ s.slot1.rootGuid &&
    (s.pending = noSlot || (s.pending ≤ 1 && s.pending ≠ s.active &&
      slotValid (s.slot s.pending) true && s.attempts ≤ 1)) &&
    (s.pending ≠ noSlot || s.attempts = 0) &&
    (s.flags ≠ reverted || (s.pending = noSlot && s.lastError ≠ 0)) &&
    (s.flags = reverted || s.lastError = 0) &&
    (s.flags ≠ writingFlag || (s.pending = noSlot && s.previous = noSlot)) &&
    (s.previous = noSlot || (s.previous ≤ 1 && s.previous ≠ s.active &&
      slotValid (s.slot s.previous) true)) &&
    s.lastError ≤ writeFailed

/-! ## The record -/

/-- One byte of `update_crc32`. -/
def crcByte (crc : UInt32) (b : UInt8) : UInt32 :=
  (List.range 8).foldl
    (fun crc _ => (crc >>> 1) ^^^ (if crc &&& 1 = 1 then 0xedb88320 else 0)) (crc ^^^ b.toUInt32)

/-- `update_crc32`. -/
def crc32 (p : Bytes) : UInt32 := ~~~(p.foldl crcByte 0xffffffff)

/-- `"EMUPST1"` with its terminating zero. -/
def magic : Bytes := [69, 77, 85, 80, 83, 84, 49, 0]

open Codec in
def encodeSlot (s : Slot) : Bytes :=
  (vec 16).enc s.rootGuid ++ u64.enc s.release ++ u64.enc s.rootBytes ++ u64.enc s.efiBytes ++
    (vec 32).enc s.version ++ (vec 32).enc s.efiSha256 ++ (vec 32).enc s.rootSha256

open Codec in
/-- The fields of a record between its size and the reserved bytes. -/
def encodeFields (s : State) : Bytes :=
  u64.enc s.revision ++ u32.enc s.flags ++ u8.enc s.active ++ u8.enc s.pending ++
    u8.enc s.previous ++ u8.enc s.attempts ++ (vec 16).enc s.dataGuid ++ (vec 16).enc s.espGuid ++
    encodeSlot s.slot0 ++ encodeSlot s.slot1 ++ u32.enc s.lastError

/-- The first 508 bytes of a record. -/
def encodeBody (s : State) : Bytes :=
  magic ++ Codec.u32.enc 1 ++ Codec.u32.enc 512 ++ encodeFields s ++ List.replicate 168 0

/-- `update_state_encode`. -/
def encode (s : State) : Option Bytes :=
  if valid s then some (encodeBody s ++ Codec.u32.enc (crc32 (encodeBody s))) else none

open Codec in
def decodeSlot (p : Bytes) : Option (Slot × Bytes) := do
  let (rootGuid, p) ← (vec 16).dec p
  let (release, p) ← u64.dec p
  let (rootBytes, p) ← u64.dec p
  let (efiBytes, p) ← u64.dec p
  let (version, p) ← (vec 32).dec p
  let (efiSha256, p) ← (vec 32).dec p
  let (rootSha256, p) ← (vec 32).dec p
  pure ({ rootGuid, release, rootBytes, efiBytes, version, efiSha256, rootSha256 }, p)

open Codec in
def decodeFields (p : Bytes) : Option State := do
  let (revision, p) ← u64.dec p
  let (flags, p) ← u32.dec p
  let (active, p) ← u8.dec p
  let (pending, p) ← u8.dec p
  let (previous, p) ← u8.dec p
  let (attempts, p) ← u8.dec p
  let (dataGuid, p) ← (vec 16).dec p
  let (espGuid, p) ← (vec 16).dec p
  let (slot0, p) ← decodeSlot p
  let (slot1, p) ← decodeSlot p
  let (lastError, _) ← u32.dec p
  pure (State.mk revision flags active pending previous attempts dataGuid espGuid slot0 slot1 lastError)

/-- `get32(p+i)`. -/
def get32 (p : Bytes) (i : Nat) : UInt32 := UInt32.ofNat (Codec.leNat ((p.drop i).take 4))

/-- `update_state_decode`. -/
def decode (p : Bytes) : Option State :=
  if p.length ≠ recordBytes || p.take 8 ≠ magic || get32 p 8 ≠ 1 || get32 p 12 ≠ 512 ||
      get32 p 508 ≠ crc32 (p.take 508) || nonzero ((p.drop 340).take 168) then none
  else (decodeFields (p.drop 16)).filter valid

/-- `update_state_choose`: which of the two copies is in force, and what it says. -/
def choose (a b : Bytes) : Option (Bool × State) :=
  match decode a, decode b with
  | none, none => none
  | some x, none => some (false, x)
  | none, some y => some (true, y)
  | some x, some y =>
    if x.revision = y.revision && a ≠ b then none
    else if y.revision ≤ x.revision then some (false, x) else some (true, y)

/-! ## Transitions -/

/-- `bump`, after the check for the last revision. -/
def bump (s : State) : State := { s with revision := s.revision + 1 }

/-- `update_state_begin_write`. -/
def beginWrite (s : State) (inactive : UInt8) : Except Refusal State :=
  if !valid s || 1 < inactive || inactive = s.active then .error .invalid
  else if s.pending ≠ noSlot || s.flags &&& writingFlag ≠ 0 then .error .busy
  else if s.revision = maxRevision then .error .exhausted
  else .ok (bump { s with previous := noSlot, flags := writingFlag, lastError := 0 })

/-- The candidate is the release the slot is known to hold. -/
def sameContent (x y : Slot) : Bool :=
  x.rootBytes = y.rootBytes && x.efiBytes = y.efiBytes && x.version = y.version &&
    x.efiSha256 = y.efiSha256 && x.rootSha256 = y.rootSha256

/-- `update_state_stage`. -/
def stage (s : State) (slot : UInt8) (candidate : Slot) : Except Refusal State :=
  if !valid s || 1 < slot || slot = s.active || !slotValid candidate true ||
      (s.slot slot).rootGuid ≠ candidate.rootGuid then .error .invalid
  else if s.pending ≠ noSlot then .error .busy
  else if candidate.release ≤ (s.slot s.active).release then .error .older
  else if candidate.release < (s.slot slot).release then .error .older
  else if candidate.release = (s.slot slot).release && !sameContent candidate (s.slot slot) then
    .error .invalid
  else if s.revision = maxRevision then .error .exhausted
  else .ok (bump { s.setSlot slot candidate with
    pending := slot, previous := noSlot, attempts := 1, flags := 0, lastError := 0 })

/-- `update_state_reject`. -/
def reject (s : State) (reason : UInt32) : Except Refusal State :=
  if !valid s || reason < bootFailed || writeFailed < reason then .error .invalid
  else if s.pending = noSlot && s.flags &&& writingFlag = 0 then .error .notTrial
  else if s.revision = maxRevision then .error .exhausted
  else .ok (bump { s with pending := noSlot, attempts := 0, flags := reverted, lastError := reason })

/-- What `update_state_boot` decides: the slot to start and the record to persist before that, where
    it changed. -/
structure BootChoice where
  slot : UInt8
  next : Option State

/-- `update_state_boot`. -/
def boot (s : State) : Except Refusal BootChoice :=
  if !valid s then .error .invalid
  else if s.flags &&& writingFlag ≠ 0 then
    (reject s writeFailed).map fun next => ⟨s.active, some next⟩
  else if s.pending = noSlot then .ok ⟨s.active, none⟩
  else if s.revision = maxRevision then .error .exhausted
  else if s.attempts ≠ 0 then .ok ⟨s.pending, some (bump { s with attempts := 0 })⟩
  else (reject s bootFailed).map fun next => ⟨s.active, some next⟩

/-- `update_state_confirm`. -/
def confirm (s : State) (running : UInt8) : Except Refusal State :=
  if !valid s || 1 < running then .error .invalid
  else if s.pending ≠ running || s.attempts ≠ 0 then .error .notTrial
  else if s.revision = maxRevision then .error .exhausted
  else .ok (bump { s with
    previous := s.active, active := running, pending := noSlot, flags := 0, lastError := 0 })

/-- `update_state_rollback`. -/
def rollback (s : State) : Except Refusal State :=
  if !valid s || s.previous = noSlot then .error .invalid
  else if s.pending ≠ noSlot then .error .busy
  else if s.revision = maxRevision then .error .exhausted
  else .ok (bump { s with
    pending := s.previous, previous := noSlot, attempts := 1, flags := 0, lastError := 0 })

/-! ## Round trip -/

theorem decodeSlot_encodeSlot (s : Slot) (rest : Bytes) :
    decodeSlot (encodeSlot s ++ rest) = some (s, rest) := by
  simp [decodeSlot, encodeSlot, append_assoc]

theorem decodeFields_encodeFields (s : State) (rest : Bytes) :
    decodeFields (encodeFields s ++ rest) = some s := by
  simp [decodeFields, encodeFields, append_assoc, decodeSlot_encodeSlot]

@[simp] theorem length_encodeFields (s : State) : (encodeFields s).length = 324 := by
  simp [encodeFields, encodeSlot]

@[simp] theorem length_encodeBody (s : State) : (encodeBody s).length = 508 := by
  simp only [encodeBody, magic, length_append, length_cons, length_nil,
    Codec.length_enc_u32, length_encodeFields, length_replicate]

theorem slice_append {a b c : Bytes} {i n : Nat} (ha : a.length = i) (hb : b.length = n) :
    ((a ++ (b ++ c)).drop i).take n = b := by
  rw [drop_left' ha, take_left' hb]

theorem get32_append {a c : Bytes} {i : Nat} (ha : a.length = i) (v : UInt32) :
    get32 (a ++ (Codec.u32.enc v ++ c)) i = v := by
  unfold get32
  rw [slice_append ha (Codec.length_enc_u32 v)]
  simp [Codec.u32, Codec.leNat_leBytes 4 _ (show v.toNat < 256 ^ 4 from v.toNat_lt)]

/-- A record that was written is read back. -/
theorem decode_encode {s : State} {p : Bytes} (h : encode s = some p) : decode p = some s := by
  unfold encode at h
  split at h
  swap
  · exact absurd h (by simp)
  next hv =>
  simp only [Option.some.injEq] at h
  have hparts : p = magic ++ (Codec.u32.enc 1 ++ (Codec.u32.enc 512 ++ (encodeFields s ++
      (List.replicate 168 0 ++ Codec.u32.enc (crc32 (encodeBody s)))))) := by
    rw [← h, encodeBody]
    simp only [append_assoc]
  have hlen : p.length = recordBytes := by
    rw [← h, length_append, length_encodeBody, Codec.length_enc_u32, recordBytes]
  have hmagic : p.take 8 = magic := by
    rw [hparts]
    exact take_left' rfl
  have hversion : get32 p 8 = 1 := by
    rw [hparts]
    exact get32_append rfl 1
  have hsize : get32 p 12 = 512 := by
    rw [hparts, ← append_assoc]
    exact get32_append (by simp [magic]) 512
  have hcrc : get32 p 508 = crc32 (p.take 508) := by
    rw [← h, take_left' (length_encodeBody s)]
    have := get32_append (c := []) (length_encodeBody s) (crc32 (encodeBody s))
    rwa [append_nil] at this
  have hreserved : (p.drop 340).take 168 = List.replicate 168 0 := by
    rw [hparts, ← append_assoc, ← append_assoc, ← append_assoc]
    exact slice_append (by simp [magic]) (length_replicate)
  have hfields : p.drop 16 = encodeFields s ++
      (List.replicate 168 0 ++ Codec.u32.enc (crc32 (encodeBody s))) := by
    rw [hparts, ← append_assoc, ← append_assoc]
    exact drop_left' (by simp [magic])
  have hzero : nonzero (List.replicate 168 0) = false := by
    simp only [nonzero, any_eq_false, mem_replicate]
    rintro x ⟨-, rfl⟩
    simp
  rw [decode, hlen, hmagic, hversion, hsize, hcrc, hreserved, hzero, hfields,
    decodeFields_encodeFields]
  simp [hv]

theorem decode_valid {p : Bytes} {s : State} (h : decode p = some s) : valid s = true := by
  unfold decode at h
  split at h
  · exact absurd h (by simp)
  · exact (Option.filter_eq_some_iff.1 h).2

end EmbLinkOs.Update
