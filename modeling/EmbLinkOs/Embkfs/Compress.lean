import Mathlib

set_option autoImplicit false

/-! # The extent compressor

`embkfs_compress.c`: a greedy LZ77 coder in the style of LZ4. The output is a sequence of tokens; a
token's high nibble is the number of literal bytes that follow it, its low nibble the length of the
match after those, and 15 in a nibble is continued by bytes of 255. The decoder has no end marker:
it stops when the expected number of bytes is there. Positions are 32-bit: sources of `2 ^ 32 - 4`
bytes and more, where `pos + EMBKZ_MINMATCH` can wrap, are not modelled.

`compress` checks the room left before it writes. Writes are modelled with a check of their own,
`Stop.outside`, so that "no write leaves the buffer" is a statement about the model:
`compress_decompress` says so, and that what was written decodes to the source. -/

namespace EmbLinkOs.Embkfs.Compress

open List

/-! ## The encoder -/

/-- `EMBKZ_MINMATCH`, `EMBKZ_MAX_OFFSET`, `EMBKZ_MAX_MATCH`. -/
def minMatch : Nat := 4
def maxOffset : Nat := 65535
def maxMatch : Nat := 0x00FFFFFF

def byteAt (src : List UInt8) (i : Nat) : UInt8 := src.getD i 0

/-- `read_u32le`. -/
def readU32le (src : List UInt8) (i : Nat) : UInt32 :=
  (byteAt src i).toUInt32 ||| ((byteAt src (i + 1)).toUInt32 <<< 8) |||
    ((byteAt src (i + 2)).toUInt32 <<< 16) ||| ((byteAt src (i + 3)).toUInt32 <<< 24)

/-- `hash4`, with `EMBKZ_HASH_BITS` bits. -/
def hash4 (x : UInt32) : Nat := ((x * 2654435761) >>> 18).toNat

/-- `emit_length_ext`: the bytes it appends. -/
def emitLengthExt (len : Nat) : List UInt8 :=
  if 255 ≤ len then 255 :: emitLengthExt (len - 255) else [UInt8.ofNat len]
  termination_by len

/-- `match_length` of the source at `a` and at `b`. -/
def matchLength (src : List UInt8) : Nat → Nat → Nat → Nat
  | _, _, 0 => 0
  | a, b, max + 1 =>
    if byteAt src a = byteAt src b then 1 + matchLength src (a + 1) (b + 1) max else 0

/-- Why emitting stopped: a write would have left the destination buffer, or the encoder saw that
    there is no room and set `overflowed`. -/
inductive Stop
  | outside | overflowed
  deriving DecidableEq, Repr

/-- The bytes written to the destination so far, from its start on. -/
abbrev Emit := Except Stop (List UInt8)

/-- The check `dst + k > dst_end`. -/
def reserve (cap k : Nat) (out : List UInt8) : Emit :=
  if cap < out.length + k then .error .overflowed else .ok out

/-- Writing through `dst`. -/
def write (cap : Nat) (bytes out : List UInt8) : Emit :=
  if out.length + bytes.length ≤ cap then .ok (out ++ bytes) else .error .outside

/-- The continuation of a length that does not fit its nibble, after its check. -/
def emitExt (cap len : Nat) (out : List UInt8) : Emit :=
  if 15 ≤ len then do
    let out ← reserve cap ((len - 15) / 255 + 1) out
    write cap (emitLengthExt (len - 15)) out
  else .ok out

/-- The token and the literals of a sequence; the final sequence has the match nibble 0. -/
def emitLiterals (cap matchNib : Nat) (lits out : List UInt8) : Emit := do
  let out ← reserve cap 1 out
  let out ← write cap [UInt8.ofNat ((min lits.length 15 <<< 4) ||| matchNib)] out
  let out ← emitExt cap lits.length out
  let out ← reserve cap lits.length out
  write cap lits out

/-- The match of a sequence. -/
def emitMatch (cap offset code : Nat) (out : List UInt8) : Emit := do
  let out ← reserve cap 2 out
  let out ← write cap [UInt8.ofNat (offset % 256), UInt8.ofNat (offset / 256 % 256)] out
  emitExt cap code out

/-- The variables of the encoder's loop; `table` has `none` for the entries that are `-1`. -/
structure Enc where
  pos : Nat
  literalStart : Nat
  table : Nat → Option Nat
  out : List UInt8

/-- The match the table offers at `pos`: its offset and length, 0 when there is none. -/
def candidate (src : List UInt8) (pos : Nat) : Option Nat → Nat × Nat
  | none => (0, 0)
  | some cand =>
    let offset := pos - cand
    if 1 ≤ offset ∧ offset ≤ maxOffset then
      (offset, matchLength src pos cand (min (src.length - pos) maxMatch))
    else (offset, 0)

/-- An entry is an `int32_t`; a position that does not fit one becomes negative and offers
    nothing. -/
def setEntry (table : Nat → Option Nat) (h pos : Nat) : Nat → Option Nat :=
  fun h' => if h' = h then (if pos < 2 ^ 31 then some pos else none) else table h'

/-- The loop of `embk_compress`; every iteration moves `pos`, so the source's length is enough
    fuel. -/
def encodeLoop (src : List UInt8) (cap : Nat) : Nat → Enc → Except Stop Enc
  | 0, e => .ok e
  | fuel + 1, e =>
    if e.pos + minMatch ≤ src.length then
      let h := hash4 (readU32le src e.pos)
      let (offset, mlen) := candidate src e.pos (e.table h)
      let table := setEntry e.table h e.pos
      if minMatch ≤ mlen then do
        let lits := (src.drop e.literalStart).take (e.pos - e.literalStart)
        let out ← emitLiterals cap (min (mlen - minMatch) 15) lits e.out
        let out ← emitMatch cap offset (mlen - minMatch) out
        let pos := e.pos + mlen
        let table := if pos + minMatch ≤ src.length then
          setEntry table (hash4 (readU32le src (pos - 1))) (pos - 1) else table
        encodeLoop src cap fuel ⟨pos, pos, table, out⟩
      else encodeLoop src cap fuel { e with pos := e.pos + 1, table := table }
    else .ok e

/-- `embk_compress`: `none` when it returns false. Its table is taken to have been allocated. -/
def compress (src : List UInt8) (cap : Nat) : Except Stop (Option (List UInt8)) :=
  if src.length < minMatch + 1 then .ok none
  else
    let r := do
      let e ← encodeLoop src cap src.length ⟨0, 0, fun _ => none, []⟩
      emitLiterals cap 0 (src.drop e.literalStart) e.out
    match r with
    | .error .outside => .error .outside
    | .error .overflowed => .ok none
    | .ok out => if src.length ≤ out.length then .ok none else .ok (some out)

/-! ## The decoder -/

/-- `read_length_ext`: the sum, in 32 bits, and what is left of the input. -/
def readLengthExt : List UInt8 → Nat → Option (Nat × List UInt8)
  | [], _ => none
  | b :: rest, total =>
    let total := (total + b.toNat) % 2 ^ 32
    if b ≠ 255 then some (total, rest) else readLengthExt rest total

/-- A nibble with its continuation, if it has one. -/
def readNibble (nib : Nat) (inp : List UInt8) : Option (Nat × List UInt8) :=
  if nib = 15 then (readLengthExt inp 0).map (fun r => ((15 + r.1) % 2 ^ 32, r.2))
  else some (nib, inp)

/-- Copy `len` bytes from `offset` back, byte by byte: a match may overlap what it produces. -/
def copyMatch (offset : Nat) : Nat → List UInt8 → List UInt8
  | 0, dst => dst
  | len + 1, dst => copyMatch offset len (dst ++ [dst.getD (dst.length - offset) 0])

/-- The match section of a sequence. -/
def decodeMatch (expected matchNib : Nat) (inp dst : List UInt8) :
    Option (List UInt8 × List UInt8) :=
  match inp with
  | lo :: hi :: inp =>
    let offset := lo.toNat + 256 * hi.toNat
    if offset = 0 ∨ dst.length < offset then none
    else do
      let (len, inp) ← readNibble matchNib inp
      let len := (len + minMatch) % 2 ^ 32
      if expected - dst.length < len then none else some (inp, copyMatch offset len dst)
  | _ => none

/-- The loop of `embk_decompress`; every iteration takes a byte of the input. -/
def decodeLoop (expected : Nat) : Nat → List UInt8 → List UInt8 → Option (List UInt8)
  | 0, _, _ => none
  | fuel + 1, inp, dst =>
    if dst.length < expected then
      match inp with
      | [] => none
      | token :: inp => do
        let (len, inp) ← readNibble (token.toNat / 16) inp
        if expected - dst.length < len ∨ inp.length < len then none
        else
          let dst := dst ++ inp.take len
          if dst.length = expected then some dst
          else
            let (inp, dst) ← decodeMatch expected (token.toNat % 16) (inp.drop len) dst
            decodeLoop expected fuel inp dst
    else if dst.length = expected then some dst else none

/-- `embk_decompress`: the bytes it left in the destination when it returns true. -/
def decompress (src : List UInt8) (expected : Nat) : Option (List UInt8) :=
  decodeLoop expected (src.length + 1) src []

/-! ## What is emitted -/

/-- The continuation bytes of a length. -/
def extBytes (len : Nat) : List UInt8 := if 15 ≤ len then emitLengthExt (len - 15) else []

def literalBytes (matchNib : Nat) (lits : List UInt8) : List UInt8 :=
  UInt8.ofNat ((min lits.length 15 <<< 4) ||| matchNib) :: (extBytes lits.length ++ lits)

def matchBytes (offset code : Nat) : List UInt8 :=
  [UInt8.ofNat (offset % 256), UInt8.ofNat (offset / 256 % 256)] ++ extBytes code

/-- Append if there is room. -/
def append (cap : Nat) (bytes out : List UInt8) : Emit :=
  if cap < out.length + bytes.length then .error .overflowed else .ok (out ++ bytes)

theorem length_emitLengthExt (len : Nat) : (emitLengthExt len).length = len / 255 + 1 := by
  induction len using emitLengthExt.induct with
  | case1 len h ih =>
    rw [emitLengthExt, if_pos h, length_cons, ih]
    omega
  | case2 len h =>
    rw [emitLengthExt, if_neg h, length_singleton, Nat.div_eq_of_lt (by omega)]

variable {cap : Nat} {src : List UInt8}

/-- A write of as many bytes as were reserved. -/
theorem reserve_write {k : Nat} {bytes : List UInt8} (out : List UInt8) (h : bytes.length = k) :
    (do let out ← reserve cap k out; write cap bytes out) = append cap bytes out := by
  subst h
  unfold reserve append
  by_cases hc : cap < out.length + bytes.length
  · rw [if_pos hc, if_pos hc]
    rfl
  · rw [if_neg hc, if_neg hc]
    show write cap bytes out = _
    rw [write, if_pos (by omega)]

theorem append_append (cap : Nat) (a b out : List UInt8) :
    (do let out ← append cap a out; append cap b out) = append cap (a ++ b) out := by
  unfold append
  by_cases ha : cap < out.length + a.length
  · rw [if_pos ha, if_pos (by rw [length_append]; omega)]
    rfl
  · rw [if_neg ha]
    show append cap b (out ++ a) = _
    simp only [append, length_append, append_assoc, Nat.add_assoc]

theorem append_nil (cap : Nat) (out : List UInt8) (h : out.length ≤ cap) :
    append cap [] out = .ok out := by
  rw [append, if_neg (by simpa using h), List.append_nil]

theorem append_ok {bytes out out' : List UInt8} (h : append cap bytes out = .ok out') :
    out' = out ++ bytes ∧ out'.length ≤ cap := by
  unfold append at h
  split at h
  · exact absurd h (by simp)
  · next hc =>
      cases h
      exact ⟨rfl, by rw [length_append]; omega⟩

theorem append_not_outside (cap : Nat) (bytes out : List UInt8) :
    append cap bytes out ≠ .error .outside := by
  unfold append
  split <;> simp

theorem emitExt_eq {len : Nat} {out : List UInt8} (h : out.length ≤ cap) :
    emitExt cap len out = append cap (extBytes len) out := by
  unfold emitExt extBytes
  by_cases hl : 15 ≤ len
  · rw [if_pos hl, if_pos hl]
    exact reserve_write out (length_emitLengthExt _)
  · rw [if_neg hl, if_neg hl, append_nil cap out h]

/-- Continuing after an append, which leaves the buffer within its capacity. -/
theorem append_bind_congr {bytes out : List UInt8} {f g : List UInt8 → Emit}
    (h : ∀ out, out.length ≤ cap → f out = g out) :
    (append cap bytes out >>= f) = (append cap bytes out >>= g) := by
  unfold append
  split
  · rfl
  · next hc => exact h _ (by rw [length_append]; omega)

theorem emitLiterals_eq (cap nib : Nat) (lits out : List UInt8) :
    emitLiterals cap nib lits out = append cap (literalBytes nib lits) out := by
  have hlits : ∀ out, (do let out ← reserve cap lits.length out; write cap lits out)
      = append cap lits out := fun out => reserve_write out rfl
  calc emitLiterals cap nib lits out
      = (append cap [UInt8.ofNat ((min lits.length 15 <<< 4) ||| nib)] out >>= fun out =>
          emitExt cap lits.length out >>= append cap lits) := by
        rw [← reserve_write (k := 1) out rfl, bind_assoc]
        unfold emitLiterals
        simp only [hlits]
    _ = (append cap [UInt8.ofNat ((min lits.length 15 <<< 4) ||| nib)] out >>= fun out =>
          append cap (extBytes lits.length) out >>= append cap lits) :=
        append_bind_congr (fun out h => by rw [emitExt_eq h])
    _ = append cap (literalBytes nib lits) out := by
        simp only [append_append]
        rfl

theorem emitMatch_eq (cap offset code : Nat) (out : List UInt8) :
    emitMatch cap offset code out = append cap (matchBytes offset code) out := by
  calc emitMatch cap offset code out
      = (append cap [UInt8.ofNat (offset % 256), UInt8.ofNat (offset / 256 % 256)] out >>=
          emitExt cap code) := by
        rw [← reserve_write (k := 2) out rfl, bind_assoc]
        rfl
    _ = (append cap [UInt8.ofNat (offset % 256), UInt8.ofNat (offset / 256 % 256)] out >>=
          append cap (extBytes code)) := append_bind_congr (fun out h => emitExt_eq h)
    _ = append cap (matchBytes offset code) out := append_append ..

/-! ## What is read back -/

theorem readLengthExt_emit (len : Nat) (rest : List UInt8) {total : Nat}
    (h : total + len < 2 ^ 32) :
    readLengthExt (emitLengthExt len ++ rest) total = some (total + len, rest) := by
  induction len using emitLengthExt.induct generalizing total with
  | case1 len hlen ih =>
    rw [emitLengthExt, if_pos hlen, cons_append, readLengthExt]
    have h255 : (255 : UInt8).toNat = 255 := rfl
    rw [h255, Nat.mod_eq_of_lt (by omega), if_neg (by simp), ih (by omega),
      show total + 255 + (len - 255) = total + len by omega]
  | case2 len hlen =>
    have hto : (UInt8.ofNat len).toNat = len := by
      rw [UInt8.toNat_ofNat']
      omega
    have hne : UInt8.ofNat len ≠ 255 := by
      intro hh
      have := congrArg UInt8.toNat hh
      rw [hto] at this
      exact absurd this (by show len ≠ 255; omega)
    rw [emitLengthExt, if_neg hlen, singleton_append, readLengthExt, hto,
      Nat.mod_eq_of_lt h, if_pos hne]

/-- A nibble and its continuation give back the length. -/
theorem readNibble_emit {len : Nat} (h : len < 2 ^ 32) (rest : List UInt8) :
    readNibble (min len 15) (extBytes len ++ rest) = some (len, rest) := by
  unfold readNibble extBytes
  by_cases hl : 15 ≤ len
  · rw [if_pos (by omega), if_pos hl, readLengthExt_emit _ _ (by omega), Option.map_some,
      show (15 + (0 + (len - 15))) % 2 ^ 32 = len by omega]
  · rw [if_neg (by omega), if_neg hl, nil_append, min_eq_left (by omega)]

/-- The two nibbles of a token. -/
theorem token_nibbles {a b : Nat} (ha : a ≤ 15) (hb : b ≤ 15) :
    (UInt8.ofNat ((a <<< 4) ||| b)).toNat / 16 = a ∧
      (UInt8.ofNat ((a <<< 4) ||| b)).toNat % 16 = b := by
  have hall : ∀ a ≤ 15, ∀ b ≤ 15, (UInt8.ofNat ((a <<< 4) ||| b)).toNat / 16 = a ∧
      (UInt8.ofNat ((a <<< 4) ||| b)).toNat % 16 = b := by decide
  exact hall a ha b hb

theorem byteAt_eq {i : Nat} (h : i < src.length) : byteAt src i = src[i] := by
  simp [byteAt, getD_eq_getElem?_getD, h]

/-- The comparison loop stops at the first difference. -/
theorem matchLength_spec (src : List UInt8) (a b max : Nat) :
    matchLength src a b max ≤ max ∧
      ∀ i < matchLength src a b max, byteAt src (a + i) = byteAt src (b + i) := by
  induction max generalizing a b with
  | zero => simp [matchLength]
  | succ max ih =>
    unfold matchLength
    split
    · next heq =>
        obtain ⟨hle, hall⟩ := ih (a + 1) (b + 1)
        refine ⟨by omega, fun i hi => ?_⟩
        cases i with
        | zero => exact heq
        | succ i =>
          have := hall i (by omega)
          rw [Nat.add_right_comm a 1 i, Nat.add_right_comm b 1 i] at this
          exact this
    · simp

/-- Copying a match extends a prefix of the source whose bytes were compared. -/
theorem copyMatch_take {pos offset : Nat} (h1 : 1 ≤ offset) (hle : offset ≤ pos) (len : Nat)
    (hlen : pos + len ≤ src.length)
    (heq : ∀ i < len, byteAt src (pos + i) = byteAt src (pos - offset + i)) :
    copyMatch offset len (src.take pos) = src.take (pos + len) := by
  induction len generalizing pos with
  | zero => rfl
  | succ len ih =>
    have hlt : pos < src.length := by omega
    have hstep : src.take pos ++ [(src.take pos).getD ((src.take pos).length - offset) 0]
        = src.take (pos + 1) := by
      have hbyte : (src.take pos).getD (pos - offset) 0 = src[pos] := by
        have := heq 0 (by omega)
        rw [Nat.add_zero, Nat.add_zero, byteAt_eq hlt] at this
        rw [this, byteAt, getD_eq_getElem?_getD, getD_eq_getElem?_getD,
          getElem?_take_of_lt (by omega)]
      rw [length_take, min_eq_left hlt.le, hbyte, take_add_one,
        getElem?_eq_getElem hlt]
      rfl
    rw [copyMatch, hstep, ih (by omega) (by omega), Nat.add_right_comm, Nat.add_assoc]
    intro i hi
    have := heq (i + 1) (by omega)
    rw [show pos + 1 + i = pos + (i + 1) by omega,
      show pos + 1 - offset + i = pos - offset + (i + 1) by omega]
    exact this

/-! ## Sequences decode -/

/-- The decoder takes a sequence with a match off the input and carries it out. -/
theorem decodeLoop_sequence {n offset code : Nat} {lits dst : List UInt8} (hn : n < 2 ^ 32)
    (hfit : dst.length + lits.length + (code + minMatch) ≤ n) (h1 : 1 ≤ offset)
    (hmax : offset ≤ maxOffset) (hle : offset ≤ dst.length + lits.length) (fuel : Nat)
    (rest : List UInt8) :
    decodeLoop n (fuel + 1)
        (literalBytes (min code 15) lits ++ (matchBytes offset code ++ rest)) dst
      = decodeLoop n fuel rest (copyMatch offset (code + minMatch) (dst ++ lits)) := by
  unfold minMatch at hfit
  unfold maxOffset at hmax
  obtain ⟨hhi, hlo⟩ := token_nibbles (min_le_right lits.length 15) (min_le_right code 15)
  have hlit := readNibble_emit (show lits.length < 2 ^ 32 by omega)
    (lits ++ (matchBytes offset code ++ rest))
  have hcode := readNibble_emit (show code < 2 ^ 32 by omega) rest
  have hoff : (UInt8.ofNat (offset % 256)).toNat + 256 * (UInt8.ofNat (offset / 256 % 256)).toNat
      = offset := by
    rw [UInt8.toNat_ofNat', UInt8.toNat_ofNat']
    omega
  have hlen : (code + minMatch) % 2 ^ 32 = code + minMatch := by
    unfold minMatch
    omega
  have hmatch : decodeMatch n (min code 15) (matchBytes offset code ++ rest) (dst ++ lits)
      = some (rest, copyMatch offset (code + minMatch) (dst ++ lits)) := by
    simp only [matchBytes, cons_append, nil_append, decodeMatch, hoff, hcode,
      Option.bind_eq_bind, Option.bind_some, hlen]
    rw [if_neg (by rw [length_append]; omega),
      if_neg (by rw [length_append]; unfold minMatch; omega)]
  simp only [literalBytes, cons_append, append_assoc]
  rw [decodeLoop, if_pos (by omega)]
  simp only [hhi, hlit, hlo, Option.bind_eq_bind, Option.bind_some]
  rw [if_neg (by simp only [length_append]; omega), take_left, drop_left,
    if_neg (by rw [length_append]; omega), hmatch]
  rfl

/-- The final sequence completes the output. -/
theorem decodeLoop_final {n : Nat} {lits dst : List UInt8} (hn : n < 2 ^ 32)
    (hfit : dst.length + lits.length = n) (fuel : Nat) :
    decodeLoop n (fuel + 1) (literalBytes 0 lits) dst = some (dst ++ lits) := by
  unfold literalBytes
  rw [decodeLoop]
  by_cases hl : dst.length < n
  · obtain ⟨hhi, -⟩ := token_nibbles (min_le_right lits.length 15) (Nat.zero_le 15)
    have hlit := readNibble_emit (show lits.length < 2 ^ 32 by omega) lits
    rw [if_pos hl]
    simp only [hhi, hlit, Option.bind_eq_bind, Option.bind_some]
    rw [if_neg (by omega), take_length, if_pos (by rw [length_append]; omega)]
  · have hnil : lits = [] := length_eq_zero_iff.1 (by omega)
    subst hnil
    rw [if_neg hl, if_pos (by simpa using hfit), List.append_nil]

/-! ## The encoder's loop -/

/-- What has been emitted so far makes the decoder produce the source up to the first literal that
    is still to be emitted. -/
structure Encoded (src : List UInt8) (cap : Nat) (e : Enc) : Prop where
  start : e.literalStart ≤ e.pos
  pos : e.pos ≤ src.length
  room : e.out.length ≤ cap
  decodes : ∃ k ≤ e.out.length, ∀ fuel rest,
    decodeLoop src.length (k + fuel) (e.out ++ rest) []
      = decodeLoop src.length fuel rest (src.take e.literalStart)

/-- A match the table offered is one. -/
theorem candidate_spec {pos : Nat} {cand : Option Nat} {offset mlen : Nat}
    (h : candidate src pos cand = (offset, mlen)) (hm : minMatch ≤ mlen) :
    1 ≤ offset ∧ offset ≤ maxOffset ∧ offset ≤ pos ∧ mlen ≤ src.length - pos ∧
      ∀ i < mlen, byteAt src (pos + i) = byteAt src (pos - offset + i) := by
  have hpos : 0 < mlen := Nat.lt_of_lt_of_le (by decide) hm
  cases cand with
  | none =>
    simp only [candidate, Prod.mk.injEq] at h
    omega
  | some c =>
    simp only [candidate] at h
    split at h
    · next hoff =>
        obtain ⟨rfl, rfl⟩ := Prod.mk.inj h
        obtain ⟨hle, hall⟩ := matchLength_spec src pos c (min (src.length - pos) maxMatch)
        refine ⟨hoff.1, hoff.2, by omega, by omega, fun i hi => ?_⟩
        rw [show pos - (pos - c) + i = c + i by omega]
        exact hall i hi
    · obtain ⟨-, rfl⟩ := Prod.mk.inj h
      omega

theorem setEntry_eq_some {table : Nat → Option Nat} {h pos h' c : Nat}
    (hc : setEntry table h pos h' = some c) : c < 2 ^ 31 ∨ table h' = some c := by
  unfold setEntry at hc
  split at hc
  · split at hc
    · next hlt =>
      cases hc
      exact Or.inl hlt
    · exact absurd hc (by simp)
  · exact Or.inr hc

/-- Emitting a sequence keeps the emitted bytes decodable. -/
theorem Encoded.emit {e : Enc} (he : Encoded src cap e) (hn : src.length < 2 ^ 32)
    {offset mlen : Nat}
    (hc : candidate src e.pos (e.table (hash4 (readU32le src e.pos))) = (offset, mlen))
    (hm : minMatch ≤ mlen) {out : List UInt8}
    (hout : append cap (literalBytes (min (mlen - minMatch) 15)
        ((src.drop e.literalStart).take (e.pos - e.literalStart))
      ++ matchBytes offset (mlen - minMatch)) e.out = .ok out) (table : Nat → Option Nat) :
    Encoded src cap ⟨e.pos + mlen, e.pos + mlen, table, out⟩ := by
  obtain ⟨h1, hmax, hle, hlen, heq⟩ := candidate_spec hc hm
  obtain ⟨rfl, hroom⟩ := append_ok hout
  obtain ⟨k, hk, hdec⟩ := he.decodes
  have hpos := he.pos
  have hstart := he.start
  set lits := (src.drop e.literalStart).take (e.pos - e.literalStart) with hlits
  have hlitlen : lits.length = e.pos - e.literalStart := by
    rw [hlits, length_take, length_drop]
    omega
  have htake : src.take e.literalStart ++ lits = src.take e.pos := by
    rw [hlits, ← take_add, Nat.add_sub_cancel' hstart]
  have hdst : (src.take e.literalStart).length = e.literalStart := by
    rw [length_take]
    omega
  refine ⟨le_refl _, by show e.pos + mlen ≤ src.length; omega, hroom, k + 1, ?_, fun fuel rest => ?_⟩
  · simp only [length_append, literalBytes, length_cons]
    omega
  · have hfit : (src.take e.literalStart).length + lits.length + (mlen - minMatch + minMatch)
        ≤ src.length := by
      rw [hdst, hlitlen, Nat.sub_add_cancel hm]
      omega
    have hseq := decodeLoop_sequence hn hfit h1 hmax (by rw [hdst, hlitlen]; omega) fuel rest
    rw [show k + 1 + fuel = k + (fuel + 1) by omega, append_assoc, hdec, append_assoc,
      hseq, htake, Nat.sub_add_cancel hm]
    exact congrArg _ (copyMatch_take h1 hle mlen (by omega) heq)

/-- The bytes of a sequence of the loop. -/
def sequence (src : List UInt8) (e : Enc) (offset mlen : Nat) : List UInt8 :=
  literalBytes (min (mlen - minMatch) 15) ((src.drop e.literalStart).take (e.pos - e.literalStart)) ++
    matchBytes offset (mlen - minMatch)

/-- The loop, for an invariant that its two kinds of iteration keep: it ends where no further match
    can start, or where a sequence does not fit. -/
theorem encodeLoop_cases {P : Enc → Prop}
    (hskip : ∀ e, P e → e.pos + minMatch ≤ src.length →
      P { e with pos := e.pos + 1, table := setEntry e.table (hash4 (readU32le src e.pos)) e.pos })
    (hemit : ∀ e offset mlen out table, P e →
      candidate src e.pos (e.table (hash4 (readU32le src e.pos))) = (offset, mlen) →
      minMatch ≤ mlen → append cap (sequence src e offset mlen) e.out = .ok out →
      (∀ h c, table h = some c → c < 2 ^ 31 ∨ e.table h = some c) →
      P ⟨e.pos + mlen, e.pos + mlen, table, out⟩)
    (fuel : Nat) {e : Enc} (he : P e) (hfuel : src.length < e.pos + fuel + minMatch) :
    (∃ e', encodeLoop src cap fuel e = .ok e' ∧ P e' ∧ src.length < e'.pos + minMatch) ∨
      ∃ e' offset mlen, encodeLoop src cap fuel e = .error .overflowed ∧ P e' ∧
        candidate src e'.pos (e'.table (hash4 (readU32le src e'.pos))) = (offset, mlen) ∧
        minMatch ≤ mlen ∧ append cap (sequence src e' offset mlen) e'.out = .error .overflowed := by
  induction fuel generalizing e with
  | zero => exact Or.inl ⟨e, rfl, he, by omega⟩
  | succ fuel ih =>
    rw [encodeLoop]
    by_cases hmore : e.pos + minMatch ≤ src.length
    · rw [if_pos hmore]
      rcases hc : candidate src e.pos (e.table (hash4 (readU32le src e.pos))) with ⟨offset, mlen⟩
      simp only [hc]
      by_cases hm : minMatch ≤ mlen
      · have h4 : 0 < mlen := Nat.lt_of_lt_of_le (by decide) hm
        rw [if_pos hm]
        simp only [emitLiterals_eq, emitMatch_eq]
        rw [← bind_assoc, append_append]
        rcases hout : append cap (sequence src e offset mlen) e.out with r | out
        · cases r with
          | outside => exact absurd hout (append_not_outside _ _ _)
          | overflowed =>
            refine Or.inr ⟨e, offset, mlen, ?_, he, hc, hm, hout⟩
            unfold sequence at hout
            rw [hout]
            rfl
        · unfold sequence at hout
          rw [hout]
          refine ih (hemit e offset mlen out _ he hc hm hout fun h c hh => ?_) (by dsimp only; omega)
          split at hh
          · exact (setEntry_eq_some hh).elim Or.inl setEntry_eq_some
          · exact setEntry_eq_some hh
      · rw [if_neg hm]
        exact ih (hskip e he hmore) (by dsimp only; omega)
    · rw [if_neg hmore]
      exact Or.inl ⟨e, rfl, he, by omega⟩

/-- **The loop.** No write of it leaves the buffer, it keeps the invariant, and it ends where no
    further match can start. -/
theorem encodeLoop_spec (hn : src.length < 2 ^ 32) (fuel : Nat) {e : Enc} (he : Encoded src cap e)
    (hfuel : src.length < e.pos + fuel + minMatch) :
    encodeLoop src cap fuel e ≠ .error .outside ∧
      ∀ e', encodeLoop src cap fuel e = .ok e' →
        Encoded src cap e' ∧ src.length < e'.pos + minMatch := by
  have hskip : ∀ e, Encoded src cap e → e.pos + minMatch ≤ src.length → Encoded src cap
      { e with pos := e.pos + 1, table := setEntry e.table (hash4 (readU32le src e.pos)) e.pos } := by
    intro e he hmore
    unfold minMatch at hmore
    exact ⟨he.start.trans (Nat.le_succ _), by show e.pos + 1 ≤ _; omega, he.room, he.decodes⟩
  rcases encodeLoop_cases hskip (fun e _ _ _ table he hc hm hout _ => he.emit hn hc hm hout table)
    fuel he hfuel with ⟨e', hr, he', hend⟩ | ⟨-, -, -, hr, -⟩ <;> rw [hr]
  · refine ⟨by simp, fun e'' h => ?_⟩
    cases h
    exact ⟨he', hend⟩
  · exact ⟨by simp, fun e' h => absurd h (by simp)⟩

/-- Encoding and decoding, for every length the 32-bit positions can name. -/
theorem compress_spec (hmin : 5 ≤ src.length) (hn : src.length < 2 ^ 32) (cap : Nat) :
    compress src cap ≠ .error .outside ∧
      ∀ c, compress src cap = .ok (some c) →
        c.length < src.length ∧ c.length ≤ cap ∧ decompress c src.length = some src := by
  have he₀ : Encoded src cap ⟨0, 0, fun _ => none, []⟩ :=
    ⟨le_refl _, Nat.zero_le _, Nat.zero_le _, 0, Nat.zero_le _, fun fuel rest => by simp⟩
  obtain ⟨hsafe, hloop⟩ := encodeLoop_spec hn src.length he₀ (by simp [minMatch])
  unfold compress
  rw [if_neg (by unfold minMatch; omega)]
  rcases hr : encodeLoop src cap src.length ⟨0, 0, fun _ => none, []⟩ with r | e
  · cases r with
    | outside => exact absurd hr hsafe
    | overflowed => exact ⟨by simp [bind, Except.bind], fun c h => absurd h (by simp [bind, Except.bind])⟩
  · obtain ⟨he, -⟩ := hloop e hr
    simp only [bind, Except.bind, emitLiterals_eq]
    rcases hout : append cap (literalBytes 0 (src.drop e.literalStart)) e.out with r | out
    · cases r with
      | outside => exact absurd hout (append_not_outside _ _ _)
      | overflowed => exact ⟨by simp, fun c h => absurd h (by simp)⟩
    · dsimp only
      split
      · exact ⟨by simp, fun c h => absurd h (by simp)⟩
      · next hshort =>
          refine ⟨by simp, fun c h => ?_⟩
          obtain rfl : out = c := by simpa using h
          obtain ⟨rfl, hroom⟩ := append_ok hout
          obtain ⟨k, hk, hdec⟩ := he.decodes
          refine ⟨by omega, hroom, ?_⟩
          have hls : e.literalStart ≤ src.length := he.start.trans he.pos
          -- `k` rounds bring the decoder to the final sequence, which needs one more.
          obtain ⟨fuel, hfuel⟩ : ∃ fuel,
              (e.out ++ literalBytes 0 (src.drop e.literalStart)).length + 1 = k + (fuel + 1) := by
            refine ⟨(e.out ++ literalBytes 0 (src.drop e.literalStart)).length - k, ?_⟩
            rw [length_append]
            omega
          rw [decompress, hfuel, hdec, decodeLoop_final hn, take_append_drop]
          rw [length_take, length_drop]
          omega

/-- **Round trip.** On a source of at most `2 ^ 31` bytes no write leaves the destination, and what
    `embk_compress` produces is shorter than the source, fits the destination, and is turned back
    into the source by `embk_decompress`. -/
theorem compress_decompress (src : List UInt8) (hmin : 5 ≤ src.length)
    (hn : src.length ≤ 2 ^ 31) (cap : Nat) :
    compress src cap ≠ .error .outside ∧
      ∀ c, compress src cap = .ok (some c) →
        c.length < src.length ∧ c.length ≤ cap ∧ decompress c src.length = some src :=
  compress_spec hmin (by omega) cap

/-- Twelve zero bytes: one literal, a match of eleven that overlaps itself, and an empty final
    sequence. -/
theorem compress_decompress_zeros :
    compress (List.replicate 12 0) 12 = .ok (some [0x17, 0, 1, 0, 0]) ∧
      decompress [0x17, 0, 1, 0, 0] 12 = some (List.replicate 12 0) :=
  ⟨by decide, ((compress_decompress (List.replicate 12 0) (by decide) (by decide) 12).2
    [0x17, 0, 1, 0, 0] (by decide)).2.2⟩

end EmbLinkOs.Embkfs.Compress
