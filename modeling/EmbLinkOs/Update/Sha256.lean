import EmbLinkOs.Update.Service

set_option autoImplicit false

/-! # SHA-256

The hash of `crypto/sha256.c`, the one the update service and the dispatcher are built with. A
context is modelled by the bytes it has absorbed; `blocks` runs the transform over them. -/

namespace EmbLinkOs.Update.Sha256

/-- The round constants. -/
def K : List UInt32 :=
  [0x428a2f98, 0x71374491, 0xb5c0fbcf, 0xe9b5dba5, 0x3956c25b, 0x59f111f1, 0x923f82a4, 0xab1c5ed5,
   0xd807aa98, 0x12835b01, 0x243185be, 0x550c7dc3, 0x72be5d74, 0x80deb1fe, 0x9bdc06a7, 0xc19bf174,
   0xe49b69c1, 0xefbe4786, 0x0fc19dc6, 0x240ca1cc, 0x2de92c6f, 0x4a7484aa, 0x5cb0a9dc, 0x76f988da,
   0x983e5152, 0xa831c66d, 0xb00327c8, 0xbf597fc7, 0xc6e00bf3, 0xd5a79147, 0x06ca6351, 0x14292967,
   0x27b70a85, 0x2e1b2138, 0x4d2c6dfc, 0x53380d13, 0x650a7354, 0x766a0abb, 0x81c2c92e, 0x92722c85,
   0xa2bfe8a1, 0xa81a664b, 0xc24b8b70, 0xc76c51a3, 0xd192e819, 0xd6990624, 0xf40e3585, 0x106aa070,
   0x19a4c116, 0x1e376c08, 0x2748774c, 0x34b0bcb5, 0x391c0cb3, 0x4ed8aa4a, 0x5b9cca4f, 0x682e6ff3,
   0x748f82ee, 0x78a5636f, 0x84c87814, 0x8cc70208, 0x90befffa, 0xa4506ceb, 0xbef9a3f7, 0xc67178f2]

def rotr32 (x n : UInt32) : UInt32 := (x >>> n) ||| (x <<< (32 - n))

/-- `ctx->state`. -/
structure Words where
  (a b c d e f g h : UInt32)

/-- `sha256_init`. -/
def init : Words :=
  ⟨0x6a09e667, 0xbb67ae85, 0x3c6ef372, 0xa54ff53a, 0x510e527f, 0x9b05688c, 0x1f83d9ab, 0x5be0cd19⟩

/-- The big-endian word at offset `i`. -/
def word (p : Bytes) (i : Nat) : UInt32 :=
  (p.getD i 0).toUInt32 <<< 24 ||| (p.getD (i + 1) 0).toUInt32 <<< 16 |||
    (p.getD (i + 2) 0).toUInt32 <<< 8 ||| (p.getD (i + 3) 0).toUInt32

/-- The next word of the schedule, from the last sixteen, the oldest first. -/
def expand (w : List UInt32) : UInt32 :=
  let x := w.getD 1 0
  let y := w.getD 14 0
  let s0 := rotr32 x 7 ^^^ rotr32 x 18 ^^^ (x >>> 3)
  let s1 := rotr32 y 17 ^^^ rotr32 y 19 ^^^ (y >>> 10)
  w.getD 0 0 + s0 + w.getD 9 0 + s1

/-- One round with the constant `k` and the schedule's word `w`. -/
def round (s : Words) (k w : UInt32) : Words :=
  let S1 := rotr32 s.e 6 ^^^ rotr32 s.e 11 ^^^ rotr32 s.e 25
  let ch := (s.e &&& s.f) ^^^ (~~~s.e &&& s.g)
  let temp1 := s.h + S1 + ch + k + w
  let S0 := rotr32 s.a 2 ^^^ rotr32 s.a 13 ^^^ rotr32 s.a 22
  let maj := (s.a &&& s.b) ^^^ (s.a &&& s.c) ^^^ (s.b &&& s.c)
  let temp2 := S0 + maj
  ⟨temp1 + temp2, s.a, s.b, s.c, s.d + temp1, s.e, s.f, s.g⟩

/-- The rounds over the constants `ks`, with the sixteen words of the schedule that come next. -/
def rounds : List UInt32 → Words → List UInt32 → Words
  | [], s, _ => s
  | k :: ks, s, w => rounds ks (round s k (w.getD 0 0)) (w.tail ++ [expand w])

/-- `sha256_transform`. -/
def transform (s : Words) (block : Bytes) : Words :=
  let t := rounds K s ((List.range 16).map fun i => word block (i * 4))
  ⟨s.a + t.a, s.b + t.b, s.c + t.c, s.d + t.d, s.e + t.e, s.f + t.f, s.g + t.g, s.h + t.h⟩

/-- The transform over the first `n` blocks. -/
def absorb : Nat → Words → Bytes → Words
  | 0, s, _ => s
  | n + 1, s, p => absorb n (transform s (p.take 64)) (p.drop 64)

/-- The bytes `sha256_final` stores for a word. -/
def bytes (x : UInt32) : Bytes :=
  [(x >>> 24).toUInt8, (x >>> 16).toUInt8, (x >>> 8).toUInt8, x.toUInt8]

def Words.digest (s : Words) : Digest :=
  ⟨(bytes s.a ++ bytes s.b ++ bytes s.c ++ bytes s.d ++ bytes s.e ++ bytes s.f ++ bytes s.g ++
    bytes s.h).toArray, rfl⟩

/-- The hash of `crypto/sha256.c`. -/
abbrev crypto : Sha256 := ⟨fun p => (absorb (p.length / 64) init p).digest⟩

/-- The first test vector of `sha256_run_selftests`. -/
example : (@sha256 crypto []).toList.take 4 = [0xe3, 0xb0, 0xc4, 0x42] := by decide +kernel

end EmbLinkOs.Update.Sha256

/-! ## A small installed system

One confirmed slot whose root image is a sector of zeros and whose boot image is a zero byte. -/

namespace EmbLinkOs.Update.Small

/-- The digest of a sector of zeros. -/
def rootDigest : Digest :=
  #v[7, 106, 39, 199, 158, 90, 206, 42, 61, 71, 249, 221, 46, 131, 228, 255, 110, 168, 135, 43, 60,
    34, 24, 246, 108, 146, 184, 155, 85, 243, 101, 96]

/-- The digest of a zero byte. -/
def efiDigest : Digest :=
  #v[110, 52, 11, 156, 255, 179, 122, 152, 156, 165, 68, 230, 187, 120, 10, 44, 120, 144, 29, 63, 179,
    55, 56, 118, 133, 17, 163, 6, 23, 175, 160, 29]

/-- The digest of the padded sector of zeros: what a second `sha256_final` stores. -/
def paddedDigest : Digest :=
  #v[137, 118, 102, 125, 76, 141, 65, 230, 251, 69, 217, 65, 138, 9, 17, 103, 150, 122, 114, 193, 241,
    222, 139, 184, 20, 139, 45, 112, 143, 132, 86, 56]

/-- What a context has absorbed after `sha256_final`. -/
def padded (p : Bytes) : Bytes := p ++ shaPad p.length

def sector : Bytes := List.replicate 512 0

theorem blocks_sector : Sha256.crypto.blocks (padded sector) = rootDigest := by decide +kernel

theorem blocks_byte : Sha256.crypto.blocks (padded [0]) = efiDigest := by decide +kernel

theorem blocks_padded : Sha256.crypto.blocks (padded (padded sector)) = paddedDigest := by
  decide +kernel

/-- The hash with these three digests looked up, so that a run hashes no block twice. -/
abbrev known : Sha256 :=
  ⟨fun p =>
    if p = padded sector then rootDigest
    else if p = padded [0] then efiDigest
    else if p = padded (padded sector) then paddedDigest
    else Sha256.crypto.blocks p⟩

theorem crypto_eq_known : Sha256.crypto = known := by
  have hblocks : Sha256.crypto.blocks = known.blocks := by
    funext p
    show _ = if p = padded sector then rootDigest else _
    split_ifs with hsector hbyte hpadded
    · rw [hsector, blocks_sector]
    · rw [hbyte, blocks_byte]
    · rw [hpadded, blocks_padded]
    · rfl
  exact congrArg Sha256.mk hblocks

/-- The version `a`. -/
def version : Vector UInt8 32 :=
  #v[97, 0, 0, 0, 0, 0, 0, 0, 0, 0, 0, 0, 0, 0, 0, 0, 0, 0, 0, 0, 0, 0, 0, 0, 0, 0, 0, 0, 0, 0, 0, 0]

def guid (b : UInt8) : Guid := Vector.replicate 16 b

def slot0 : Slot :=
  { rootGuid := guid 1, release := 1, rootBytes := 512, efiBytes := 1, version,
    efiSha256 := efiDigest, rootSha256 := rootDigest }

def slot1 : Slot :=
  { rootGuid := guid 2, release := 0, rootBytes := 0, efiBytes := 0, version := Vector.replicate 32 0,
    efiSha256 := Vector.replicate 32 0, rootSha256 := Vector.replicate 32 0 }

def state : State :=
  { revision := 1, flags := 0, active := 0, pending := noSlot, previous := noSlot, attempts := 0,
    dataGuid := guid 3, espGuid := guid 4, slot0, slot1, lastError := 0 }

/-- Each boot file in sectors of its own. -/
def layout : Layout where
  slotMap i := List.range' (i.toNat * 32768) 32768
  bootMap := []
  rootSectors _ := 1
  nodup _ := List.nodup_range'
  length _ := List.length_range'

def disk : Disk :=
  { control := fun i => if i then [] else (encode state).getD [], factory := [], root := fun _ _ => 0,
    esp := fun _ _ => 0 }

theorem disk_chosen : disk.chosen = some (false, state) := by decide +kernel

/-- A firmware that works. -/
def firmware : Firmware :=
  { mode := .normal, opens := true, loads := fun _ => true, returns := fun _ => false,
    bootWrite := .done, rejectWrite := .done, devices := true }

/-- The service after the boot of the confirmed slot. -/
def service : Service := { Service.unavailable state with ready := true }

def session : Session := ⟨bootFill state 0 false, service⟩

theorem boot_state : boot state = .ok ⟨0, none⟩ := rfl

/-- The first boot starts the confirmed slot and leaves the disk as it is. -/
theorem step_boot : @step Sha256.crypto layout ⟨disk, none⟩ (.boot firmware) =
    (⟨disk, some session⟩, [.start 0]) := by
  have hch : @chains Sha256.crypto layout disk firmware state state.active = true := by
    rw [crypto_eq_known]
    decide +kernel
  have hdispatch : @dispatch Sha256.crypto layout disk firmware =
      ⟨disk, some (bootFill state 0 false), [.start 0]⟩ := by
    unfold dispatch
    rw [if_neg (by simp [firmware]), disk_chosen]
    show @dispatchRecord Sha256.crypto layout disk firmware false state = _
    unfold dispatchRecord
    rw [if_pos (by rfl), boot_state]
    show @launch Sha256.crypto layout disk firmware (some false) state 0 false [] = _
    unfold launch chainActive
    rw [if_pos (show (0 : UInt8) = state.active from rfl), if_pos hch]
    rfl
  have hsession : Booted.session ⟨disk, some (bootFill state 0 false), [.start 0]⟩ true =
      some session := by
    rw [Booted.session, disk_chosen]
    show some (Session.mk _ (serviceInit disk (bootFill state 0 false) true state)) = _
    rw [serviceInit, if_neg (by simp [bootFill]), disk_chosen]
    rfl
  unfold step
  dsimp only
  rw [hdispatch]
  exact Prod.ext (congrArg (World.mk disk) hsession) rfl

end EmbLinkOs.Update.Small
