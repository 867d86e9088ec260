import EmbLinkOs.Lib.Codec
import EmbLinkOs.Lib.Machine
import EmbLinkOs.Wifi.Wpa2Crypto

set_option autoImplicit false

/-! # CCMP

`ccmp.c`: AES-CCM over 802.11 data frames. A key is installed, `wifi_ccmp_seal` encrypts frames under
packet numbers that count up, `wifi_ccmp_open` takes back a frame whose packet number is above the
last one of its traffic class. The block cipher is any function of a key and a block.

A buffer is its bytes, its capacity their number; input and output are two buffers. -/

namespace EmbLinkOs.Wifi.Ccmp

open Function
open List hiding Vector

abbrev Block := Vector UInt8 16

/-- Bytes as a block, filled up with zeros. -/
def block (p : Bytes) : Block := Vector.ofFn fun i => p.getD i 0

/-- `WIFI_MPDU_MAX` and `WIFI_CCMP_PN_MAX`. -/
def mpduMax : Nat := 1600
def pnMax : Nat := 0xffffffffffff

/-- `struct wifi_ccmp_key`: a counter for each of the 16 traffic classes and one for frames without
    one. -/
structure Key where
  tk : Block
  id : UInt8
  installed : Bool
  txPn : Nat
  rxPn : Fin 17 → Nat

/-- `wifi_ccmp_clear`. -/
def Key.clear : Key := ⟨block [], 0, false, 0, fun _ => 0⟩

/-- `wifi_ccmp_install`, and whether it succeeds. -/
def Key.install (k : Key) (tk : Block) (id : Nat) (rsc : Nat) : Key × Bool :=
  if 3 < id || pnMax < rsc then (k, false)
  else if k.installed && k.id.toNat = id && k.tk = tk then
    ({ k with rxPn := fun i => if k.rxPn i < rsc then rsc else k.rxPn i }, true)
  else ({ Key.clear with tk, id := UInt8.ofNat id, installed := true, rxPn := fun _ => rsc }, true)

/-! ## Frames -/

/-- `header`: the length of the header and the traffic class. -/
def header (p : Bytes) : Option (Nat × Fin 17) :=
  if p.length < 24 || (byteAt p 0 ≠ 0x08 && byteAt p 0 ≠ 0x88) || byteAt p 1 &&& 3 = 3 ||
      byteAt p 1 &&& 3 = 0 || byteAt p 1 &&& 0x84 ≠ 0 || byteAt p 22 &&& 15 ≠ 0 then none
  else if byteAt p 0 &&& 0x80 ≠ 0 then
    if p.length < 26 || byteAt p 24 &&& 0x80 ≠ 0 || byteAt p 25 ≠ 0 then none
    else some (26, Fin.ofNat 17 (byteAt p 24 &&& 15).toNat)
  else some (24, 16)

/-- `parameters`: the nonce. -/
def nonce (h : Bytes) (tid : Fin 17) (pn : Nat) : Bytes :=
  (if tid = 16 then 0 else UInt8.ofNat tid) :: slice h 10 6 ++ (Codec.leBytes 6 pn).reverse

/-- `parameters`: the additional data. -/
def aad (h : Bytes) (hl : Nat) (tid : Fin 17) : Bytes :=
  [byteAt h 0 &&& 0x8f, byteAt h 1 &&& 0xc7] ++ slice h 4 18 ++ [byteAt h 22 &&& 15, 0] ++
    if hl = 26 then [UInt8.ofNat tid, 0] else []

/-- The high and the low byte of a length or a counter. -/
def pair (n : Nat) : Bytes := [UInt8.ofNat (n / 256), UInt8.ofNat n]

def xor (a b : Bytes) : Bytes := List.zipWith (· ^^^ ·) a b

section Cipher

variable (aes : Block → Block → Block) (tk : Block)

/-- `mac_block`. -/
def macBlock (state b : Block) : Block := aes tk (Vector.zipWith (· ^^^ ·) state b)

/-- The loop of `ccm_mac`, over the first argument's number of blocks. -/
def macBlocks : Nat → Block → Bytes → Block
  | 0, tag, _ => tag
  | left + 1, tag, p => macBlocks left (macBlock aes tk tag (block (p.take 16))) (p.drop 16)

/-- `ccm_mac`. -/
def ccmMac (nonce aad p : Bytes) : Block :=
  let tag := macBlock aes tk (block []) (block (0x59 :: nonce ++ pair p.length))
  let head := pair aad.length ++ aad
  let tag := macBlock aes tk tag (block (head.take 16))
  let tag := macBlock aes tk tag (block (head.drop 16))
  macBlocks aes tk ((p.length + 15) / 16) tag p

/-- `ctr_block`. -/
def ctrBlock (nonce : Bytes) (i : Nat) : Block := aes tk (block (1 :: nonce ++ pair i))

/-- The loop of `crypt`, over the first argument's number of blocks. -/
def cryptBlocks (nonce : Bytes) : Nat → Nat → Bytes → Bytes
  | 0, _, _ => []
  | left + 1, i, src =>
    xor (src.take 16) (ctrBlock aes tk nonce i).toList ++ cryptBlocks nonce left (i + 1) (src.drop 16)

/-- `crypt`. -/
def crypt (nonce src : Bytes) : Bytes := cryptBlocks aes tk nonce ((src.length + 15) / 16) 1 src

/-- The tag as it is sent. -/
def mic (nonce aad p : Bytes) : Bytes :=
  xor ((ccmMac aes tk nonce aad p).toList.take 8) ((ctrBlock aes tk nonce 0).toList.take 8)

end Cipher

namespace Key

/-- The byte of the packet number's field that names the key. -/
def idByte (k : Key) : UInt8 := (0x20 : UInt8) ||| k.id <<< (6 : UInt8)

/-- The checks of `wifi_ccmp_seal`, with `cap` bytes of room. -/
def sealable (k : Key) (inp : Bytes) (cap : Nat) : Option (Nat × Fin 17) :=
  if !k.installed || mpduMax - 16 < inp.length || cap < inp.length + 16 then none
  else (header inp).filter fun _ => byteAt inp 1 &&& 0x40 = 0 && k.txPn ≠ pnMax

/-- The header of a sealed frame: the protected bit is set. -/
def sealedHeader (inp : Bytes) (hl : Nat) : Bytes := (inp.take hl).set 1 (byteAt inp 1 ||| 0x40)

/-- The packet number between header and body. -/
def iv (k : Key) (pn : Nat) : Bytes :=
  let b := Codec.leBytes 6 pn
  [byteAt b 0, byteAt b 1, 0, k.idByte, byteAt b 2, byteAt b 3, byteAt b 4, byteAt b 5]

/-- The checks of `wifi_ccmp_open`, and the packet number. -/
def openable (k : Key) (inp : Bytes) (cap : Nat) : Option (Nat × Fin 17 × Nat) :=
  match header inp with
  | none => none
  | some (hl, tid) =>
    if !k.installed || mpduMax < inp.length || inp.length < hl + 16 || cap < inp.length - 16 ||
        byteAt inp 1 &&& 0x40 = 0 then none
    else
      let b := slice inp hl 8
      if byteAt b 2 ≠ 0 || byteAt b 3 ≠ k.idByte then none
      else
        let pn := Codec.leNat
          [byteAt b 0, byteAt b 1, byteAt b 4, byteAt b 5, byteAt b 6, byteAt b 7]
        if pn = 0 || pn ≤ k.rxPn tid then none else some (hl, tid, pn)

variable (aes : Block → Block → Block)

/-- The frame that `wifi_ccmp_seal` writes. -/
def sealedFrame (k : Key) (inp : Bytes) (hl : Nat) (tid : Fin 17) : Bytes :=
  let pn := k.txPn + 1
  let h := sealedHeader inp hl
  let n := nonce h tid pn
  h ++ (k.iv pn ++ (crypt aes k.tk n (inp.drop hl) ++ mic aes k.tk n (aad h hl tid) (inp.drop hl)))

/-- `wifi_ccmp_seal`: the key and the output buffer afterwards, and the length unless it fails. -/
def ccmpSeal (k : Key) (inp out : Bytes) : Key × Bytes × Option Nat :=
  match k.sealable inp out.length with
  | none => (k, out, none)
  | some (hl, tid) =>
    let c := k.sealedFrame aes inp hl tid
    ({ k with txPn := k.txPn + 1 }, c ++ out.drop c.length, some (inp.length + 16))

/-- The frame that `wifi_ccmp_open` gives back, if the tag is right. -/
def openedFrame (k : Key) (inp : Bytes) (hl : Nat) (tid : Fin 17) (pn : Nat) : Option Bytes :=
  let n := nonce inp tid pn
  let plain := crypt aes k.tk n (slice inp (hl + 8) (inp.length - hl - 16))
  if mic aes k.tk n (aad inp hl tid) plain = slice inp (inp.length - 8) 8 then
    some ((inp.take hl).set 1 (byteAt inp 1 &&& 0xbf) ++ plain)
  else none

/-- `wifi_ccmp_open`. -/
def ccmpOpen (k : Key) (inp out : Bytes) : Key × Bytes × Option Nat :=
  match k.openable inp out.length with
  | none => (k, out, none)
  | some (hl, tid, pn) =>
    match k.openedFrame aes inp hl tid pn with
    | none => (k, out, none)
    | some f =>
      ({ k with rxPn := update k.rxPn tid pn }, f ++ out.drop f.length,
        some (inp.length - 16))

end Key

/-! ## Histories of a key -/

inductive Input where
  | install (tk : Block) (id rsc : Nat)
  | ccmpSeal (inp out : Bytes)
  | ccmpOpen (inp out : Bytes)

/-- What happened under which key. -/
inductive Event where
  | installed (tk : Block) (id : UInt8) (rsc : Nat)
  | sealed (tk : Block) (id : UInt8) (nonce : Bytes)
  | opened (tk : Block) (id : UInt8) (tid : Fin 17) (pn : Nat)

/-- The key of an event. -/
def Event.key : Event → Block × UInt8
  | .installed tk id _ => (tk, id)
  | .sealed tk id _ => (tk, id)
  | .opened tk id _ _ => (tk, id)

def ccmp (aes : Block → Block → Block) : Machine Key Input Event where
  step k
    | .install tk id rsc => ((k.install tk id rsc).1,
        if (k.install tk id rsc).2 then [.installed tk (UInt8.ofNat id) rsc] else [])
    | .ccmpSeal inp out => ((k.ccmpSeal aes inp out).1,
        match k.sealable inp out.length with
        | none => []
        | some (hl, tid) =>
          [.sealed k.tk k.id (nonce (Key.sealedHeader inp hl) tid (k.txPn + 1))])
    | .ccmpOpen inp out => ((k.ccmpOpen aes inp out).1,
        match k.openable inp out.length with
        | none => []
        | some (hl, tid, pn) =>
          match k.openedFrame aes inp hl tid pn with
          | none => []
          | some _ => [.opened k.tk k.id tid pn])

/-- No other key was installed in `b` than the one of `e`. -/
def Since (e : Event) (b : List Event) : Prop :=
  ∀ tk id rsc, Event.installed tk id rsc ∈ b → (tk, id) = e.key

/-- What an earlier event under the same key forbids: a nonce is not used again, a packet number is
    accepted only above those before it and above the counter installed. -/
def Fresh : Event → Event → Prop
  | .sealed _ _ n, .sealed _ _ n' => n ≠ n'
  | .opened _ _ tid pn, .opened _ _ tid' pn' => tid = tid' → pn < pn'
  | .installed _ _ rsc, .opened _ _ _ pn => rsc < pn
  | _, _ => True

/-! ## Opening what was sealed -/

theorem xor_xor_self {a b : Bytes} (h : a.length ≤ b.length) : xor (xor a b) b = a := by
  induction a generalizing b with
  | nil => rfl
  | cons x a ih =>
    cases b with
    | nil => simp at h
    | cons y b =>
      simp only [xor, zipWith_cons_cons, List.cons.injEq] at ih ⊢
      exact ⟨by rw [UInt8.xor_assoc, UInt8.xor_self, UInt8.xor_zero], ih (by simpa using h)⟩

@[simp] theorem length_xor (a b : Bytes) : (xor a b).length = min a.length b.length := by
  simp [xor]

section Cipher

variable {aes : Block → Block → Block} {tk : Block} {n : Bytes}

theorem length_cryptBlocks {left i : Nat} {src : Bytes} (h : src.length ≤ 16 * left) :
    (cryptBlocks aes tk n left i src).length = src.length := by
  induction left generalizing i src with
  | zero =>
    rw [cryptBlocks, length_nil]
    omega
  | succ left ih =>
    have hrest : (src.drop 16).length ≤ 16 * left := by rw [length_drop]; omega
    rw [cryptBlocks, length_append, ih hrest, length_xor, length_take, length_drop,
      Vector.length_toList]
    omega

/-- A block and what follows it, taken apart again. -/
theorem take_drop_block {src x rest : Bytes} (hx : x.length = min 16 src.length)
    (hrest : rest.length = src.length - 16) : (x ++ rest).take 16 = x ∧ (x ++ rest).drop 16 = rest := by
  rcases Nat.lt_or_ge src.length 16 with hlt | hge
  · obtain rfl : rest = [] := length_eq_zero_iff.1 (by omega)
    rw [append_nil]
    exact ⟨take_of_length_le (by omega), drop_eq_nil_of_le (by omega)⟩
  · have h16 : x.length = 16 := by omega
    exact ⟨take_left' h16, drop_left' h16⟩

/-- The second pass takes the key stream off again. -/
theorem cryptBlocks_self {left i : Nat} {src : Bytes} (h : src.length ≤ 16 * left) :
    cryptBlocks aes tk n left i (cryptBlocks aes tk n left i src) = src := by
  induction left generalizing i src with
  | zero =>
    rw [length_eq_zero_iff.1 (Nat.le_zero.1 h)]
    rfl
  | succ left ih =>
    have hrest : (src.drop 16).length ≤ 16 * left := by rw [length_drop]; omega
    have hx : (xor (src.take 16) (ctrBlock aes tk n i).toList).length = min 16 src.length := by
      rw [length_xor, length_take, Vector.length_toList]
      omega
    have hr : (cryptBlocks aes tk n left (i + 1) (src.drop 16)).length = src.length - 16 := by
      rw [length_cryptBlocks hrest, length_drop]
    obtain ⟨htake, hdrop⟩ := take_drop_block hx hr
    have hks : (src.take 16).length ≤ (ctrBlock aes tk n i).toList.length := by
      rw [length_take, Vector.length_toList]
      omega
    simp only [cryptBlocks]
    rw [htake, hdrop, ih hrest, xor_xor_self hks, take_append_drop]

@[simp] theorem length_crypt (src : Bytes) : (crypt aes tk n src).length = src.length :=
  length_cryptBlocks (by omega)

@[simp] theorem crypt_crypt (src : Bytes) : crypt aes tk n (crypt aes tk n src) = src := by
  rw [crypt, length_crypt]
  exact cryptBlocks_self (by omega)

@[simp] theorem length_mic (a p : Bytes) : (mic aes tk n a p).length = 8 := by
  simp [mic]

end Cipher

/-! ### The header of a sealed frame -/

theorem protected_bits (x : UInt8) : (x ||| 0x40) &&& 3 = x &&& 3 ∧
    (x ||| 0x40) &&& 0x84 = x &&& 0x84 ∧ (x ||| 0x40) &&& 0x40 ≠ 0 ∧
    (x &&& 0x40 = 0 → (x ||| 0x40) &&& 0xbf = x) := by
  have h : ∀ n : Fin 256, (UInt8.ofFin n ||| 0x40) &&& 3 = UInt8.ofFin n &&& 3 ∧
      (UInt8.ofFin n ||| 0x40) &&& 0x84 = UInt8.ofFin n &&& 0x84 ∧
      (UInt8.ofFin n ||| 0x40) &&& 0x40 ≠ 0 ∧
      (UInt8.ofFin n &&& 0x40 = 0 → (UInt8.ofFin n ||| 0x40) &&& 0xbf = UInt8.ofFin n) := by
    decide +kernel
  exact h x.toFin

theorem header_length {p : Bytes} {hl : Nat} {tid : Fin 17} (h : header p = some (hl, tid)) :
    24 ≤ hl ∧ hl ≤ 26 ∧ hl ≤ p.length := by
  unfold header at h
  split_ifs at h with h₁ h₂ h₃
  · simp only [Option.some.injEq, Prod.mk.injEq] at h
    simp only [Bool.or_eq_true, decide_eq_true_eq] at h₃
    omega
  · simp only [Option.some.injEq, Prod.mk.injEq] at h
    simp only [Bool.or_eq_true, decide_eq_true_eq] at h₁
    omega

/-- The protected bit is not one of those the header is checked for. -/
theorem header_protected {p q : Bytes} {hl : Nat} {tid : Fin 17} (h : header p = some (hl, tid))
    (hlen : p.length ≤ q.length) (hbytes : ∀ i < hl, i ≠ 1 → byteAt q i = byteAt p i)
    (hone : byteAt q 1 = byteAt p 1 ||| 0x40) : header q = some (hl, tid) := by
  obtain ⟨hlo, hhi, hin⟩ := header_length h
  obtain ⟨hlow, hhigh, -, -⟩ := protected_bits (byteAt p 1)
  have h0 := hbytes 0 (by omega) (by omega)
  have h22 := hbytes 22 (by omega) (by omega)
  have hp24 : decide (p.length < 24) = false := decide_eq_false (by omega)
  have hq24 : decide (q.length < 24) = false := decide_eq_false (by omega)
  unfold header at h ⊢
  rw [hp24] at h
  rw [hq24, h0, h22, hone, hlow, hhigh]
  split_ifs at h ⊢ with h₁ h₂ h₃ h₄
  · simp only [Option.some.injEq, Prod.mk.injEq] at h
    have hp26 : decide (p.length < 26) = false := decide_eq_false (by omega)
    have hq26 : decide (q.length < 26) = false := decide_eq_false (by omega)
    rw [hp26] at h₄
    rw [hq26, hbytes 24 (by omega) (by omega), hbytes 25 (by omega) (by omega)] at h₃
    exact absurd h₃ h₄
  · simp only [Option.some.injEq, Prod.mk.injEq] at h
    rw [hbytes 24 (by omega) (by omega)]
    exact congrArg some (Prod.ext h.1 h.2)
  · exact h

section RoundTrip

variable {aes : Block → Block → Block} {k : Key} {inp : Bytes} {cap hl : Nat} {tid : Fin 17}

theorem byteAt_append {a b : Bytes} {i : Nat} (h : i < a.length) :
    byteAt (a ++ b) i = byteAt a i := by
  rw [byteAt, byteAt, getD_eq_getElem?_getD, getD_eq_getElem?_getD,
    getElem?_append_left h]

theorem slice_append {a b : Bytes} {i m : Nat} (h : i + m ≤ a.length) :
    slice (a ++ b) i m = slice a i m := by
  rw [slice, slice, drop_append_of_le_length (by omega),
    take_append_of_le_length (by rw [length_drop]; omega)]

theorem slice_middle {a b c : Bytes} {i m : Nat} (hi : a.length = i) (hm : b.length = m) :
    slice (a ++ (b ++ c)) i m = b := by
  rw [slice, drop_left' hi, take_left' hm]

theorem length_sealedHeader (h : hl ≤ inp.length) : (Key.sealedHeader inp hl).length = hl := by
  simp [Key.sealedHeader, h]

theorem byteAt_sealedHeader {i : Nat} (hi : i < hl) (h : hl ≤ inp.length) :
    byteAt (Key.sealedHeader inp hl) i =
      if i = 1 then byteAt inp 1 ||| 0x40 else byteAt inp i := by
  have hlt : i < inp.length := by omega
  unfold Key.sealedHeader
  by_cases h1 : i = 1
  · subst h1
    simp [byteAt, getD_eq_getElem?_getD, hi, hlt]
  · rw [if_neg h1, byteAt, getD_eq_getElem?_getD, getElem?_set_ne (Ne.symm h1),
      getElem?_take_of_lt hi, ← getD_eq_getElem?_getD]
    rfl

/-- The checks passed by a sealed frame. -/
theorem sealable_spec (h : k.sealable inp cap = some (hl, tid)) :
    header inp = some (hl, tid) ∧ k.installed = true ∧ inp.length ≤ mpduMax - 16 ∧
      inp.length + 16 ≤ cap ∧ byteAt inp 1 &&& 0x40 = 0 ∧ k.txPn ≠ pnMax := by
  unfold Key.sealable at h
  split_ifs at h with hbad
  simp only [Bool.or_eq_true, Bool.not_eq_true', decide_eq_true_eq, not_or] at hbad
  obtain ⟨hhead, hok⟩ := Option.filter_eq_some_iff.1 h
  simp only [Bool.and_eq_true, decide_eq_true_eq] at hok
  refine ⟨hhead, by simpa using hbad.1.1, by omega, by omega, hok.1, hok.2⟩

theorem length_sealedFrame (h : hl ≤ inp.length) :
    (k.sealedFrame aes inp hl tid).length = inp.length + 16 := by
  simp only [Key.sealedFrame, length_append, length_sealedHeader h, length_crypt, length_mic,
    length_drop, Key.iv, length_cons, length_nil]
  omega

theorem leBytes_iv (pn : Nat) (h : pn ≤ pnMax) :
    Codec.leNat [byteAt (k.iv pn) 0, byteAt (k.iv pn) 1, byteAt (k.iv pn) 4, byteAt (k.iv pn) 5,
      byteAt (k.iv pn) 6, byteAt (k.iv pn) 7] = pn := by
  have hlt : pn < 256 ^ 6 := by
    rw [pnMax] at h
    omega
  exact Codec.leNat_leBytes 6 pn hlt

/-- A receiver below the packet number passes the checks of a sealed frame. -/
theorem openable_sealed {r : Key} {room : Nat} (h : k.sealable inp cap = some (hl, tid))
    (hpn : k.txPn < pnMax) (hinst : r.installed = true) (hid : r.id = k.id)
    (hrx : r.rxPn tid < k.txPn + 1) (hroom : inp.length ≤ room) :
    r.openable (k.sealedFrame aes inp hl tid) room = some (hl, tid, k.txPn + 1) := by
  obtain ⟨hhead, -, hmax, -, hbit, -⟩ := sealable_spec h
  obtain ⟨hlo, hhi, hin⟩ := header_length hhead
  have hlen : (k.sealedFrame aes inp hl tid).length = inp.length + 16 := length_sealedFrame hin
  have hbyte : ∀ i < hl, byteAt (k.sealedFrame aes inp hl tid) i =
      if i = 1 then byteAt inp 1 ||| 0x40 else byteAt inp i := by
    intro i hi
    rw [Key.sealedFrame, byteAt_append (by rw [length_sealedHeader hin]; exact hi),
      byteAt_sealedHeader hi hin]
  have hone : byteAt (k.sealedFrame aes inp hl tid) 1 = byteAt inp 1 ||| 0x40 := hbyte 1 (by omega)
  have hhead' : header (k.sealedFrame aes inp hl tid) = some (hl, tid) := by
    refine header_protected hhead (by omega) (fun i hi h1 => ?_) hone
    rw [hbyte i hi, if_neg h1]
  have hiv : slice (k.sealedFrame aes inp hl tid) hl 8 = k.iv (k.txPn + 1) :=
    slice_middle (length_sealedHeader hin) rfl
  have hidb : byteAt (k.iv (k.txPn + 1)) 3 = r.idByte := by
    rw [Key.idByte, hid]
    rfl
  have hzero : byteAt (k.iv (k.txPn + 1)) 2 = 0 := rfl
  have hset := (protected_bits (byteAt inp 1)).2.2.1
  rw [mpduMax] at hmax
  simp only [Key.openable, hhead', hiv, hone, hidb, hzero, leBytes_iv _ hpn, hinst, hlen, mpduMax]
  have h1584 : ¬ 1600 < inp.length + 16 := by omega
  have hlong : ¬ inp.length + 16 < hl + 16 := by omega
  have hnew : ¬ k.txPn + 1 ≤ r.rxPn tid := by omega
  simp [h1584, hlong, hroom, hset, hnew]

/-- Opening gives back the frame that was sealed. -/
theorem openedFrame_sealed {r : Key} (h : k.sealable inp cap = some (hl, tid)) (htk : r.tk = k.tk) :
    r.openedFrame aes (k.sealedFrame aes inp hl tid) hl tid (k.txPn + 1) = some inp := by
  obtain ⟨hhead, -, -, -, hbit, -⟩ := sealable_spec h
  obtain ⟨hlo, hhi, hin⟩ := header_length hhead
  have hh := length_sealedHeader hin
  have hlen : (k.sealedFrame aes inp hl tid).length = inp.length + 16 := length_sealedFrame hin
  have hbyte : ∀ i < hl, byteAt (k.sealedFrame aes inp hl tid) i =
      byteAt (Key.sealedHeader inp hl) i := fun i hi => byteAt_append (by rw [hh]; exact hi)
  have hnonce : nonce (k.sealedFrame aes inp hl tid) tid (k.txPn + 1) =
      nonce (Key.sealedHeader inp hl) tid (k.txPn + 1) := by
    rw [nonce, nonce, Key.sealedFrame, slice_append (by omega)]
  have haad : aad (k.sealedFrame aes inp hl tid) hl tid = aad (Key.sealedHeader inp hl) hl tid := by
    rw [aad, aad, hbyte 0 (by omega), hbyte 1 (by omega), hbyte 22 (by omega), Key.sealedFrame,
      slice_append (by omega)]
  have hbody : slice (k.sealedFrame aes inp hl tid) (hl + 8) (inp.length - hl) =
      crypt aes k.tk (nonce (Key.sealedHeader inp hl) tid (k.txPn + 1)) (inp.drop hl) := by
    rw [Key.sealedFrame, ← append_assoc]
    refine slice_middle ?_ (by rw [length_crypt, length_drop])
    rw [length_append, hh]
    rfl
  have hmic : slice (k.sealedFrame aes inp hl tid) (inp.length + 8) 8 =
      mic aes k.tk (nonce (Key.sealedHeader inp hl) tid (k.txPn + 1))
        (aad (Key.sealedHeader inp hl) hl tid) (inp.drop hl) := by
    rw [Key.sealedFrame, slice, ← append_assoc, ← append_assoc, drop_left',
      take_of_length_le (by rw [length_mic])]
    rw [length_append, length_append, hh, length_crypt, length_drop]
    show hl + 8 + (inp.length - hl) = inp.length + 8
    omega
  have hfront : ((k.sealedFrame aes inp hl tid).take hl).set 1
      (byteAt (k.sealedFrame aes inp hl tid) 1 &&& 0xbf) = inp.take hl := by
    rw [hbyte 1 (by omega), byteAt_sealedHeader (by omega) hin, if_pos rfl,
      (protected_bits _).2.2.2 hbit, Key.sealedFrame, take_left' hh, Key.sealedHeader,
      set_set]
    have hlt : 1 < (inp.take hl).length := by
      rw [length_take]
      omega
    have hat : byteAt inp 1 = (inp.take hl)[1] := by
      rw [getElem_take, byteAt, getD_eq_getElem _ _ (by omega)]
    rw [hat, set_getElem_self]
  have hsize : inp.length + 16 - hl - 16 = inp.length - hl := by omega
  have hend : inp.length + 16 - 8 = inp.length + 8 := by omega
  unfold Key.openedFrame
  simp only [hlen, htk, hnonce, haad, hfront, hsize, hend, hbody, hmic, crypt_crypt, ↓reduceIte,
    take_append_drop]

end RoundTrip

/-! ## Packet numbers over a history -/

/-- A nonce tells its packet number. -/
theorem nonce_inj {h h' : Bytes} {tid tid' : Fin 17} {pn pn' : Nat} (hpn : pn ≤ pnMax)
    (hpn' : pn' ≤ pnMax) (heq : nonce h tid pn = nonce h' tid' pn') : pn = pn' := by
  have hlt : ∀ n ≤ pnMax, n < 256 ^ 6 := by
    intro n hn
    rw [pnMax] at hn
    omega
  obtain ⟨-, htail⟩ := List.cons.inj heq
  obtain ⟨-, hrev⟩ := append_inj' htail (by simp)
  have hbytes := reverse_inj.1 hrev
  rw [← Codec.leNat_leBytes 6 pn (hlt pn hpn), hbytes, Codec.leNat_leBytes 6 pn' (hlt pn' hpn')]

/-- The counters of a key are past an event under it. -/
def Remembers (k : Key) (e : Event) : Prop :=
  k.installed = true ∧ (k.tk, k.id) = e.key ∧
    match e with
    | .installed _ _ rsc => ∀ tid, rsc ≤ k.rxPn tid
    | .sealed _ _ n => ∃ h tid pn, n = nonce h tid pn ∧ pn ≤ k.txPn
    | .opened _ _ tid pn => pn ≤ k.rxPn tid

/-- An event that breaks no law after `past`. -/
def Allowed (past : List Event) (e : Event) : Prop :=
  ∀ a e₀ b, past = a ++ e₀ :: b → Since e₀ b → Fresh e₀ e

/-- A key after a history of it. -/
structure Tracks (h : List Event) (k : Key) : Prop where
  allowed : History.Justified Allowed [] h
  remembered : ∀ a e b, h = a ++ e :: b → Since e b → Remembers k e
  bound : k.txPn ≤ pnMax

section Histories

variable {aes : Block → Block → Block} {h : List Event} {k k' : Key} {e : Event}

theorem Tracks.quiet (ht : Tracks h k) : Tracks (h ++ []) k := by
  rwa [append_nil]

theorem Tracks.snoc (ht : Tracks h k) (hfresh : ∀ e₀, Remembers k e₀ → Fresh e₀ e)
    (hnew : Remembers k' e) (hkeep : ∀ e₀, Remembers k e₀ → Since e₀ [e] → Remembers k' e₀)
    (hbound : k'.txPn ≤ pnMax) : Tracks (h ++ [e]) k' where
  allowed := by
    rw [History.justified_append]
    refine ⟨ht.allowed, ?_, trivial⟩
    rw [nil_append]
    intro a e₀ b hsplit hsince
    exact hfresh e₀ (ht.remembered a e₀ b hsplit hsince)
  remembered a e₀ b hsplit hsince := by
    rcases eq_nil_or_concat b with rfl | ⟨b', x, rfl⟩
    · obtain ⟨-, hx⟩ := append_inj' hsplit rfl
      obtain rfl := singleton_inj.1 hx
      exact hnew
    · have hsplit' : h ++ [e] = (a ++ e₀ :: b') ++ [x] := by rw [hsplit]; simp
      obtain ⟨rfl, hx⟩ := append_inj' hsplit' rfl
      obtain rfl := singleton_inj.1 hx
      refine hkeep e₀ (ht.remembered a e₀ b' rfl fun tk id rsc hm => ?_) fun tk id rsc hm => ?_
      · exact hsince tk id rsc (by simp [hm])
      · exact hsince tk id rsc (by simp [mem_singleton.1 hm])
  bound := hbound

/-- What an installation does. -/
theorem install_cases (k : Key) (tk : Block) (id rsc : Nat) :
    k.install tk id rsc = (k, false) ∨
    (k.installed = true ∧ (k.tk, k.id) = (tk, UInt8.ofNat id) ∧ k.install tk id rsc =
      ({ k with rxPn := fun i => max (k.rxPn i) rsc }, true)) ∨
    (¬ (k.installed = true ∧ (k.tk, k.id) = (tk, UInt8.ofNat id)) ∧ k.install tk id rsc =
      (⟨tk, UInt8.ofNat id, true, 0, fun _ => rsc⟩, true)) := by
  unfold Key.install
  by_cases hbad : (3 < id || pnMax < rsc) = true
  · exact .inl (if_pos hbad)
  rw [if_neg hbad]
  simp only [Bool.or_eq_true, decide_eq_true_eq, not_or] at hbad
  by_cases hsame : (k.installed && k.id.toNat = id && k.tk = tk) = true
  · rw [if_pos hsame]
    simp only [Bool.and_eq_true, decide_eq_true_eq] at hsame
    refine .inr (.inl ⟨hsame.1.1, ?_, ?_⟩)
    · rw [hsame.2, ← hsame.1.2, UInt8.ofNat_toNat]
    · congr 2
      funext i
      split_ifs <;> omega
  · rw [if_neg hsame]
    refine .inr (.inr ⟨fun h => hsame ?_, rfl⟩)
    obtain ⟨htk, hid⟩ := Prod.mk.inj h.2
    have hlt : (UInt8.ofNat id).toNat = id := by
      rw [UInt8.toNat_ofNat']
      omega
    simp [h.1, htk, hid, hlt]

theorem Tracks.install (ht : Tracks h k) (tk : Block) (id rsc : Nat) :
    Tracks (h ++ ((ccmp aes).step k (.install tk id rsc)).2)
      ((ccmp aes).step k (.install tk id rsc)).1 := by
  have hanyway : ∀ e₀, Fresh e₀ (.installed tk (UInt8.ofNat id) rsc) := by
    intro e₀
    cases e₀ <;> trivial
  show Tracks (h ++ if (k.install tk id rsc).2 then _ else _) (k.install tk id rsc).1
  rcases install_cases k tk id rsc with hi | ⟨hinst, hkey, hi⟩ | ⟨hother, hi⟩
  · rw [hi]
    exact ht.quiet
  · rw [hi]
    refine ht.snoc (fun e₀ _ => hanyway e₀) ⟨hinst, hkey, fun tid => le_max_right _ _⟩
      (fun e₀ hr _ => ⟨hr.1, hr.2.1, ?_⟩) ht.bound
    have hcount := hr.2.2
    cases e₀ with
    | installed _ _ rsc' => exact fun tid => le_max_of_le_left (hcount tid)
    | sealed _ _ n => exact hcount
    | opened _ _ tid pn => exact le_max_of_le_left hcount
  · rw [hi]
    refine ht.snoc (fun e₀ _ => hanyway e₀) ⟨rfl, rfl, fun tid => le_rfl⟩ (fun e₀ hr hsince => ?_)
      (Nat.zero_le _)
    -- what is remembered was under another key
    exact absurd ⟨hr.1, hr.2.1.trans (hsince _ _ _ (mem_singleton.2 rfl)).symm⟩ hother

theorem Tracks.ccmpSeal (ht : Tracks h k) (inp out : Bytes) :
    Tracks (h ++ ((ccmp aes).step k (.ccmpSeal inp out)).2)
      ((ccmp aes).step k (.ccmpSeal inp out)).1 := by
  unfold ccmp
  dsimp only
  unfold Key.ccmpSeal
  cases hs : k.sealable inp out.length with
  | none => exact ht.quiet
  | some x =>
    obtain ⟨hl, tid⟩ := x
    obtain ⟨-, hinst, -, -, -, hmax⟩ := sealable_spec hs
    have hlt : k.txPn < pnMax := lt_of_le_of_ne ht.bound hmax
    refine ht.snoc (fun e₀ hr => ?_) ⟨hinst, rfl, _, _, _, rfl, le_rfl⟩ (fun e₀ hr _ => ?_) hlt
    · have hcount := hr.2.2
      cases e₀ with
      | sealed _ _ n =>
        obtain ⟨h', tid', pn, rfl, hpn⟩ := hcount
        intro heq
        have := nonce_inj (by omega) hlt heq
        omega
      | installed => trivial
      | opened => trivial
    · refine ⟨hr.1, hr.2.1, ?_⟩
      have hcount := hr.2.2
      cases e₀ with
      | sealed _ _ n =>
        obtain ⟨h', tid', pn, hn, hpn⟩ := hcount
        exact ⟨h', tid', pn, hn, Nat.le_succ_of_le hpn⟩
      | installed => exact hcount
      | opened => exact hcount

/-- A packet number that passes the checks is above the counter. -/
theorem openable_spec {inp : Bytes} {cap hl pn : Nat} {tid : Fin 17}
    (h : k.openable inp cap = some (hl, tid, pn)) : k.installed = true ∧ k.rxPn tid < pn := by
  unfold Key.openable at h
  cases hh : header inp with
  | none => simp [hh] at h
  | some x =>
    obtain ⟨hl', tid'⟩ := x
    simp only [hh] at h
    split_ifs at h with hbad hiv hpn
    simp only [Option.some.injEq, Prod.mk.injEq] at h
    obtain ⟨rfl, rfl, rfl⟩ := h
    simp only [Bool.or_eq_true, decide_eq_true_eq, not_or, Bool.not_eq_true'] at hbad hpn
    exact ⟨by simpa using hbad.1.1.1.1, by omega⟩

theorem Tracks.ccmpOpen (ht : Tracks h k) (inp out : Bytes) :
    Tracks (h ++ ((ccmp aes).step k (.ccmpOpen inp out)).2)
      ((ccmp aes).step k (.ccmpOpen inp out)).1 := by
  unfold ccmp
  dsimp only
  unfold Key.ccmpOpen
  cases hs : k.openable inp out.length with
  | none => exact ht.quiet
  | some x =>
    obtain ⟨hl, tid, pn⟩ := x
    obtain ⟨hinst, hpn⟩ := openable_spec hs
    dsimp only
    cases k.openedFrame aes inp hl tid pn with
    | none => exact ht.quiet
    | some f =>
      have hraised : ∀ tid', k.rxPn tid' ≤ update k.rxPn tid pn tid' := by
        intro tid'
        by_cases heq : tid' = tid
        · subst heq
          rw [update_self]
          exact hpn.le
        · rw [update_of_ne heq]
      refine ht.snoc (fun e₀ hr => ?_) ⟨hinst, rfl, ?_⟩ (fun e₀ hr _ => ⟨hr.1, hr.2.1, ?_⟩) ht.bound
      · have hcount := hr.2.2
        cases e₀ with
        | installed _ _ rsc => exact (hcount tid).trans_lt hpn
        | sealed => trivial
        | opened _ _ tid' pn' =>
          rintro rfl
          exact lt_of_le_of_lt hcount hpn
      · exact (update_self tid pn k.rxPn).ge
      · have hcount := hr.2.2
        cases e₀ with
        | installed _ _ rsc => exact fun tid' => (hcount tid').trans (hraised tid')
        | sealed => exact hcount
        | opened _ _ tid' pn' => exact le_trans hcount (hraised tid')

theorem tracks_run (aes : Block → Block → Block) (is : List Input) :
    Tracks ((ccmp aes).run .clear is).2 ((ccmp aes).run .clear is).1 := by
  have hinit : Tracks [] Key.clear :=
    ⟨trivial, fun a e b hsplit => by simp at hsplit, Nat.zero_le _⟩
  have hrun := Machine.run_invariant (m := ccmp aes) (I := Tracks) (fun h k i ht => ?_) is [] .clear
    hinit
  · exact hrun
  · cases i with
    | install tk id rsc => exact ht.install tk id rsc
    | ccmpSeal inp out => exact ht.ccmpSeal inp out
    | ccmpOpen inp out => exact ht.ccmpOpen inp out

end Histories

/-! ## The laws -/

/-- What a key `k` with the history `h` and any other key guarantee. -/
structure Laws (aes : Block → Block → Block) (h : List Event) (k : Key) : Prop where
  /-- Under one installed key no nonce is used twice, and packet numbers are accepted in rising order
      per traffic class, above the counter installed. -/
  fresh : ∀ a e b e' c, h = a ++ e :: (b ++ e' :: c) → Since e b → Fresh e e'
  /-- A frame that was sealed opens to itself at a key that has not seen its packet number. -/
  opens : ∀ (r k' : Key) (inp out c buf : Bytes) (n hl : Nat) (tid : Fin 17),
    header inp = some (hl, tid) → k.ccmpSeal aes inp out = (k', c, some n) →
    r.installed = true → r.tk = k.tk → r.id = k.id → r.rxPn tid < k'.txPn →
    inp.length ≤ buf.length →
    r.ccmpOpen aes (c.take n) buf = ({ r with rxPn := update r.rxPn tid k'.txPn },
      inp ++ buf.drop inp.length, some inp.length)
  /-- A frame that is refused changes nothing. -/
  refused : ∀ (r : Key) (inp out : Bytes), (r.ccmpOpen aes inp out).2.2 = none →
    r.ccmpOpen aes inp out = (r, out, none)

theorem ccmpOpen_refused {aes : Block → Block → Block} {r : Key} {inp out : Bytes}
    (h : (r.ccmpOpen aes inp out).2.2 = none) : r.ccmpOpen aes inp out = (r, out, none) := by
  unfold Key.ccmpOpen at h ⊢
  cases hs : r.openable inp out.length with
  | none => rfl
  | some x =>
    obtain ⟨hl, tid, pn⟩ := x
    rw [hs] at h
    dsimp only at h ⊢
    cases hf : r.openedFrame aes inp hl tid pn with
    | none => rfl
    | some f => simp [hf] at h

theorem ccmpOpen_sealed {aes : Block → Block → Block} {r k k' : Key} {inp out c buf : Bytes}
    {n hl : Nat} {tid : Fin 17} (hbound : k.txPn ≤ pnMax) (hhead : header inp = some (hl, tid))
    (hseal : k.ccmpSeal aes inp out = (k', c, some n)) (hinst : r.installed = true)
    (htk : r.tk = k.tk) (hid : r.id = k.id) (hrx : r.rxPn tid < k'.txPn)
    (hroom : inp.length ≤ buf.length) :
    r.ccmpOpen aes (c.take n) buf = ({ r with rxPn := update r.rxPn tid k'.txPn },
      inp ++ buf.drop inp.length, some inp.length) := by
  unfold Key.ccmpSeal at hseal
  cases hs : k.sealable inp out.length with
  | none => simp [hs] at hseal
  | some x =>
    obtain ⟨hl', tid'⟩ := x
    obtain ⟨hhead', -, -, -, -, hmax⟩ := sealable_spec hs
    rw [hhead] at hhead'
    obtain ⟨rfl, rfl⟩ := Prod.mk.inj (Option.some.inj hhead')
    have hlen : (k.sealedFrame aes inp hl tid).length = inp.length + 16 :=
      length_sealedFrame (header_length hhead).2.2
    simp only [hs, Prod.mk.injEq, Option.some.injEq] at hseal
    obtain ⟨rfl, rfl, rfl⟩ := hseal
    have hframe : (k.sealedFrame aes inp hl tid ++
        out.drop (k.sealedFrame aes inp hl tid).length).take (inp.length + 16) =
        k.sealedFrame aes inp hl tid := take_left' hlen
    rw [hframe]
    unfold Key.ccmpOpen
    rw [openable_sealed hs (lt_of_le_of_ne hbound hmax) hinst hid hrx hroom]
    dsimp only
    rw [openedFrame_sealed hs htk]
    dsimp only
    rw [hlen, Nat.add_sub_cancel]

/-- The laws hold for every key that was only installed, sealed with and opened with. -/
theorem ccmp_laws (aes : Block → Block → Block) (is : List Input) :
    Laws aes ((ccmp aes).run .clear is).2 ((ccmp aes).run .clear is).1 where
  fresh a e b e' c hsplit hsince := by
    have hlate := (tracks_run aes is).allowed.at_event
      (hsplit.trans (append_assoc a (e :: b) (e' :: c)).symm)
    exact hlate a e b rfl hsince
  opens r k' inp out c buf n hl tid hhead hseal hinst htk hid hrx hroom :=
    ccmpOpen_sealed (tracks_run aes is).bound hhead hseal hinst htk hid hrx hroom
  refused r inp out h := ccmpOpen_refused h

end EmbLinkOs.Wifi.Ccmp
