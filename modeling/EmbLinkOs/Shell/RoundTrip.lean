import EmbLinkOs.Shell.Wire

set_option autoImplicit false

/-! # Values arrive as they were sent

What `wire_serialize` writes the reader hands back, whichever way the pipe cuts the bytes, as long
as every payload is within `WIRE_FRAME_MAX`. The writer has no such limit, so a value just above it
is sent without an error and breaks the stream at the other end (`reader_exact_iff`). -/

namespace EmbLinkOs.Shell

open List

/-! ## The primitive codec -/

theorem sshiftRight_sign (v : BitVec 64) :
    v.sshiftRight 63 = if v.msb then BitVec.allOnes 64 else 0#64 := by
  apply BitVec.eq_of_getElem_eq
  intro i hi
  rw [BitVec.getElem_sshiftRight]
  by_cases h : 63 + i < 64
  · have hi0 : i = 0 := by omega
    subst hi0
    rw [dif_pos h, ← BitVec.getLsbD_eq_getElem, ← BitVec.msb_eq_getLsbD_last]
    cases v.msb <;> simp
  · rw [dif_neg h]
    cases v.msb <;>
      simp only [Bool.false_eq_true, ↓reduceIte, BitVec.getElem_allOnes, BitVec.getElem_zero]

theorem toNat_and_one (x : BitVec 64) : (x &&& 1#64).toNat = x.toNat % 2 := by
  rw [BitVec.toNat_and]
  exact Nat.and_one_is_mod _

/-- Shifting the sign in at the bottom and taking it out again. -/
theorem zigzag_bits (v : BitVec 64) :
    (v <<< 1 ^^^ v.sshiftRight 63) >>> 1 ^^^ -((v <<< 1 ^^^ v.sshiftRight 63) &&& 1#64) = v := by
  rw [sshiftRight_sign]
  apply BitVec.eq_of_toNat_eq
  cases hm : v.msb with
  | false =>
    have hlt : v.toNat < 2 ^ 63 := by
      rw [BitVec.msb_eq_false_iff_two_mul_lt] at hm
      omega
    have hlow : v <<< 1 &&& 1#64 = 0#64 := by
      apply BitVec.eq_of_toNat_eq
      rw [toNat_and_one, BitVec.toNat_shiftLeft]
      simp only [Nat.shiftLeft_eq, BitVec.toNat_ofNat]
      omega
    simp only [Bool.false_eq_true, ↓reduceIte, BitVec.xor_zero, hlow, BitVec.neg_zero,
      BitVec.toNat_ushiftRight, BitVec.toNat_shiftLeft, Nat.shiftLeft_eq,
      Nat.shiftRight_eq_div_pow]
    omega
  | true =>
    have hge : 2 ^ 63 ≤ v.toNat := by
      rw [BitVec.msb_eq_true_iff_two_mul_ge] at hm
      omega
    have hlow : ~~~(v <<< 1) &&& 1#64 = 1#64 := by
      apply BitVec.eq_of_toNat_eq
      rw [toNat_and_one, BitVec.toNat_not, BitVec.toNat_shiftLeft]
      simp only [Nat.shiftLeft_eq, BitVec.toNat_ofNat]
      omega
    have hneg : -(1#64) = BitVec.allOnes 64 := by decide
    have hv := v.isLt
    simp only [↓reduceIte, BitVec.xor_allOnes, hlow, hneg, BitVec.toNat_not,
      BitVec.toNat_ushiftRight, BitVec.toNat_shiftLeft, Nat.shiftLeft_eq,
      Nat.shiftRight_eq_div_pow]
    omega

@[simp] theorem zigzagDecode_encode (v : Int64) : zigzagDecode (zigzagEncode v) = v := by
  apply Int64.toBitVec_inj.1
  simpa [zigzagDecode, zigzagEncode] using zigzag_bits _

@[simp] theorem rdUvarint_put (x : UInt64) (rest : Bytes) :
    rdUvarint (Leb128.put x ++ rest) = some (x, rest) := by
  simp [rdUvarint, Leb128.scan_put]

@[simp] theorem rdSvarint_put (v : Int64) (rest : Bytes) :
    rdSvarint (Leb128.put (zigzagEncode v) ++ rest) = some (v, rest) := by
  simp [rdSvarint]

@[simp] theorem rdDouble_enc (d : UInt64) (rest : Bytes) :
    rdDouble (Codec.u64.enc d ++ rest) = some (d, rest) :=
  Codec.u64.dec_enc d rest

theorem toNat_ofNat_of_le {n : Nat} (h : n ≤ 2 ^ 63) : (UInt64.ofNat n).toNat = n := by
  rw [UInt64.toNat_ofNat']
  exact Nat.mod_eq_of_lt (by omega)

theorem rdBytes_append {p : Bytes} (h : p.length ≤ 2 ^ 63) (rest : Bytes) :
    rdBytes (UInt64.ofNat p.length) (p ++ rest) = some (p, rest) := by
  rw [rdBytes, toNat_ofNat_of_le h]
  simp

/-! ## Records -/

variable {fs : Record} {v : Value} {tag : UInt8} {r : Reader}

/-- A name that is new stands last. -/
theorem recordSet_of_not_mem {name : Bytes} (h : name ∉ fs.map Prod.fst) :
    recordSet name v fs = fs ++ [(name, v)] := by
  induction fs with
  | nil => rfl
  | cons f fs ih =>
    rw [map_cons, mem_cons, not_or] at h
    rw [recordSet, if_neg (Ne.symm h.1), ih h.2, cons_append]

theorem takeWhile_of_not_mem {n : Bytes} (h : 0 ∉ n) :
    n.takeWhile (fun b => !decide (b = 0)) = n := by
  rw [takeWhile_eq_self_iff]
  intro b hb
  simp only [Bool.not_eq_true', decide_eq_false_iff_not]
  rintro rfl
  exact h hb

/-! ## One value -/

/-- Induction over the values nested in a value. -/
theorem Value.induction {P : Value → Prop} {I : List Value → Prop} {F : Record → Prop}
    {T : List Record → Prop} (null : P .null) (int : ∀ i, P (.int i)) (float : ∀ d, P (.float d))
    (bool : ∀ b, P (.bool b)) (string : ∀ s, P (.string s)) (filesize : ∀ n, P (.filesize n))
    (date : ∀ s, P (.date s)) (path : ∀ s, P (.path s)) (error : ∀ m, P (.error m))
    (list : ∀ items, I items → P (.list items)) (record : ∀ fields, F fields → P (.record fields))
    (table : ∀ rows, T rows → P (.table rows)) (items_nil : I [])
    (items_cons : ∀ v vs, P v → I vs → I (v :: vs)) (fields_nil : F [])
    (fields_cons : ∀ n v fs, P v → F fs → F ((n, v) :: fs)) (rows_nil : T [])
    (rows_cons : ∀ r rs, F r → T rs → T (r :: rs)) (v : Value) : P v :=
  @Value.rec P I F T (fun p => P p.2) null int float bool string list record table filesize date
    path error items_nil items_cons fields_nil (fun f fs hf => fields_cons f.1 f.2 fs hf) rows_nil
    rows_cons (fun _ _ h => h) v

/-- The buffer grew by `e` and is within what a `size_t` counts. -/
structure Appended (b b' e : Bytes) : Prop where
  eq : b' = b ++ e
  fits : b'.length ≤ 2 ^ 63

namespace Appended

variable {b b' b'' e e' : Bytes}

theorem length_le (h : Appended b b' e) : e.length ≤ 2 ^ 63 := by
  have hle := h.fits
  rw [h.eq, length_append] at hle
  omega

theorem trans (h : Appended b b' e) (h' : Appended b' b'' e') : Appended b b'' (e ++ e') :=
  ⟨by rw [h'.eq, h.eq, append_assoc], h'.fits⟩

theorem cons {x : UInt8} (h : Appended b b' [x]) (h' : Appended b' b'' e') :
    Appended b b'' (x :: e') := h.trans h'

end Appended

theorem appended_nil {b b' : Bytes} (hb : b.length ≤ 2 ^ 63) (h : some b = some b') :
    Appended b b' [] := by
  rw [Option.some.injEq] at h
  exact ⟨by rw [← h, append_nil], by rw [← h]; exact hb⟩

theorem appended_of_putBytes {b b' p : Bytes} (h : bufPutBytes b p = some b') :
    Appended b b' p := by
  rw [bufPutBytes] at h
  split_ifs at h with hle
  · rw [Option.some.injEq] at h
    exact ⟨h.symm, by rw [← h, length_append]; exact hle⟩

theorem appended_of_putU8 {b b' : Bytes} {x : UInt8} (h : bufPutU8 b x = some b') :
    Appended b b' [x] := appended_of_putBytes h

theorem appended_of_putUvarint {b b' : Bytes} {x : UInt64} (h : bufPutUvarint b x = some b') :
    Appended b b' (Leb128.put x) := appended_of_putBytes h

theorem appended_of_putSize {b b' : Bytes} {n : Nat} (h : bufPutSize b n = some b') :
    Appended b b' (Leb128.put (UInt64.ofNat n)) := appended_of_putBytes h

theorem appended_of_bytesField {b b' s : Bytes} (h : serBytesField b tag s = some b') :
    Appended b b' (tag :: (Leb128.put (UInt64.ofNat s.length) ++ s)) := by
  simp only [serBytesField, Option.bind_eq_bind, Option.bind_eq_some_iff] at h
  obtain ⟨b₁, h₁, b₂, h₂, h₃⟩ := h
  exact ((appended_of_putU8 h₁).trans ((appended_of_putSize h₂).trans (appended_of_putBytes h₃)))

/-- What `ser_value` does to the buffer, and that `de_value` undoes it in front of anything. -/
def Sends (v : Value) : Prop :=
  ∀ b b', serValue v b = some b' → ∃ e, Appended b b' e ∧ 1 ≤ e.length ∧
    (v.Named → ∀ depth rest, e.length ≤ depth → deValueTo depth (e ++ rest) = some (v, rest))

def SendsItems (vs : List Value) : Prop :=
  ∀ b b', b.length ≤ 2 ^ 63 → serItems vs b = some b' → ∃ e, Appended b b' e ∧ vs.length ≤ e.length ∧
    (NamedItems vs → ∀ depth acc rest, e.length ≤ depth →
      deItems (deValueTo depth) vs.length acc (e ++ rest) = some (acc ++ vs, rest))

def SendsFields (fs : Record) : Prop :=
  ∀ b b', b.length ≤ 2 ^ 63 → serFields fs b = some b' → ∃ e, Appended b b' e ∧ fs.length ≤ e.length ∧
    (NamedFields fs → ∀ depth acc rest, ((acc ++ fs).map Prod.fst).Nodup → e.length ≤ depth →
      deFields (deValueTo depth) fs.length acc (e ++ rest) = some (acc ++ fs, rest))

def SendsRows (rows : List Record) : Prop :=
  ∀ b b', b.length ≤ 2 ^ 63 → serRows rows b = some b' → ∃ e, Appended b b' e ∧ rows.length ≤ e.length ∧
    (NamedRows rows → ∀ depth acc rest, e.length ≤ depth →
      deRows (deValueTo depth) rows.length acc (e ++ rest) = some (acc ++ rows, rest))

/-- A tag and a body that the decoder reads back once it has seen the tag. -/
theorem sends_of_body {body : Bytes} {b b' : Bytes} (h : Appended b b' (tag :: body))
    (hde : v.Named → ∀ depth rest, body.length ≤ depth →
      deValueTo (depth + 1) (tag :: (body ++ rest)) = some (v, rest)) :
    ∃ e, Appended b b' e ∧ 1 ≤ e.length ∧
      (v.Named → ∀ depth rest, e.length ≤ depth → deValueTo depth (e ++ rest) = some (v, rest)) := by
  refine ⟨tag :: body, h, by simp, ?_⟩
  intro hn depth rest hle
  rw [length_cons] at hle
  obtain ⟨d, rfl⟩ : ∃ d, depth = d + 1 := ⟨depth - 1, by omega⟩
  exact hde hn d rest (by omega)

theorem sends_null : Sends .null := by
  intro b b' h
  have happ : Appended b b' (tagNull :: []) := appended_of_putU8 h
  apply sends_of_body happ
  intro _ depth rest _
  rfl

/-- The signed numbers: one tag each, one body. -/
theorem sends_svarint {c : Int64 → Value}
    (hser : ∀ i b, serValue (c i) b = (bufPutU8 b tag).bind fun b => bufPutSvarint b i)
    (hde : ∀ depth bs, deValueTo (depth + 1) (tag :: bs) =
      (rdSvarint bs).bind fun p => some (c p.1, p.2)) (i : Int64) : Sends (c i) := by
  intro b b' h
  rw [hser] at h
  obtain ⟨b₁, h₁, h₂⟩ := Option.bind_eq_some_iff.1 h
  apply sends_of_body ((appended_of_putU8 h₁).cons (appended_of_putUvarint h₂))
  intro _ depth rest _
  rw [hde, rdSvarint_put, Option.bind_some]

/-- Strings and paths. -/
theorem sends_bytesField {c : Bytes → Value}
    (hser : ∀ s b, serValue (c s) b = serBytesField b tag s)
    (hde : ∀ depth bs, deValueTo (depth + 1) (tag :: bs) =
      (rdUvarint bs).bind fun p => (rdBytes p.1 p.2).bind fun q => some (c q.1, q.2)) (s : Bytes) :
    Sends (c s) := by
  intro b b' h
  rw [hser] at h
  have happ := appended_of_bytesField h
  apply sends_of_body happ
  intro _ depth rest _
  have hlen : s.length ≤ 2 ^ 63 := by
    have := happ.length_le
    rw [length_cons, length_append] at this
    omega
  rw [hde, append_assoc, rdUvarint_put, Option.bind_some, rdBytes_append hlen,
    Option.bind_some]

theorem sends_float (d : UInt64) : Sends (.float d) := by
  intro b b' h
  simp only [serValue, Option.bind_eq_bind] at h
  obtain ⟨b₁, h₁, h₂⟩ := Option.bind_eq_some_iff.1 h
  apply sends_of_body ((appended_of_putU8 h₁).cons (appended_of_putBytes h₂))
  intro _ depth rest _
  simp [deValueTo, rdU8, deTagged, deScalar, tagList, tagRecord, tagTable, tagNull, tagBool, tagInt,
    tagFilesize, tagDate, tagFloat]

theorem sends_bool (v : Bool) : Sends (.bool v) := by
  intro b b' h
  simp only [serValue, Option.bind_eq_bind] at h
  obtain ⟨b₁, h₁, h₂⟩ := Option.bind_eq_some_iff.1 h
  apply sends_of_body ((appended_of_putU8 h₁).cons (appended_of_putU8 h₂))
  intro _ depth rest _
  cases v <;> simp [deValueTo, rdU8, deTagged, deScalar, tagList, tagRecord, tagTable, tagNull, tagBool]

theorem sends_list {items : List Value} (ih : SendsItems items) : Sends (.list items) := by
  intro b b' h
  simp only [serValue, Option.bind_eq_bind, Option.bind_eq_some_iff] at h
  obtain ⟨b₁, h₁, b₂, h₂, h₀⟩ := h
  obtain ⟨e, he, hlen, hde⟩ := ih _ _ (appended_of_putSize h₂).fits h₀
  apply sends_of_body ((appended_of_putU8 h₁).cons ((appended_of_putSize h₂).trans he))
  intro hn depth rest hdepth
  have hsize := toNat_ofNat_of_le (hlen.trans he.length_le)
  rw [length_append] at hdepth
  have := hde hn depth [] rest (by omega)
  simp [deValueTo, rdU8, deTagged, hsize, this]

/-- A record body, as `WT_RECORD` and every row of a table hold it. -/
theorem deRecordBody_append {e rest : Bytes} {depth : Nat} (hlen : fs.length ≤ 2 ^ 63)
    (hde : deFields (deValueTo depth) fs.length [] (e ++ rest) = some (fs, rest)) :
    deRecordBody (deValueTo depth) (Leb128.put (UInt64.ofNat fs.length) ++ (e ++ rest)) =
      some (fs, rest) := by
  simp [deRecordBody, toNat_ofNat_of_le hlen, hde]

theorem sends_record (ih : SendsFields fs) : Sends (.record fs) := by
  intro b b' h
  simp only [serValue, Option.bind_eq_bind, Option.bind_eq_some_iff] at h
  obtain ⟨b₁, h₁, b₂, h₂, h₀⟩ := h
  obtain ⟨e, he, hlen, hde⟩ := ih _ _ (appended_of_putSize h₂).fits h₀
  apply sends_of_body ((appended_of_putU8 h₁).cons ((appended_of_putSize h₂).trans he))
  intro hn depth rest hdepth
  rw [Value.Named] at hn
  rw [length_append] at hdepth
  have hbody := deRecordBody_append (hlen.trans he.length_le)
    (hde hn.2 depth [] rest (by simpa using hn.1) (by omega))
  simp [deValueTo, rdU8, deTagged, tagList, tagRecord, hbody]

theorem sends_table {rows : List Record} (ih : SendsRows rows) : Sends (.table rows) := by
  intro b b' h
  simp only [serValue, Option.bind_eq_bind, Option.bind_eq_some_iff] at h
  obtain ⟨b₁, h₁, b₂, h₂, h₀⟩ := h
  obtain ⟨e, he, hlen, hde⟩ := ih _ _ (appended_of_putSize h₂).fits h₀
  apply sends_of_body ((appended_of_putU8 h₁).cons ((appended_of_putSize h₂).trans he))
  intro hn depth rest hdepth
  have hsize := toNat_ofNat_of_le (hlen.trans he.length_le)
  rw [length_append] at hdepth
  have := hde hn depth [] rest (by omega)
  simp [deValueTo, rdU8, deTagged, tagList, tagRecord, tagTable, hsize, this]

theorem sendsItems_cons {vs : List Value} (hv : Sends v) (ih : SendsItems vs) :
    SendsItems (v :: vs) := by
  intro b b' _ h
  simp only [serItems, Option.bind_eq_bind, Option.bind_eq_some_iff] at h
  obtain ⟨b₁, h₁, h₂⟩ := h
  obtain ⟨e₁, he₁, hlen₁, hde₁⟩ := hv _ _ h₁
  obtain ⟨e₂, he₂, hlen₂, hde₂⟩ := ih _ _ he₁.fits h₂
  refine ⟨e₁ ++ e₂, he₁.trans he₂, by rw [length_cons, length_append]; omega, ?_⟩
  intro hn depth acc rest hdepth
  rw [NamedItems] at hn
  rw [length_append] at hdepth
  have hhead := hde₁ hn.1 depth (e₂ ++ rest) (by omega)
  have htail := hde₂ hn.2 depth (acc ++ [v]) rest (by omega)
  simp [deItems, hhead, htail]

theorem sendsFields_cons {n : Bytes} (hv : Sends v) (ih : SendsFields fs) :
    SendsFields ((n, v) :: fs) := by
  intro b b' _ h
  simp only [serFields, Option.bind_eq_bind, Option.bind_eq_some_iff] at h
  obtain ⟨b₁, h₁, b₂, h₂, b₃, h₃, h₄⟩ := h
  obtain ⟨e₁, he₁, hlen₁, hde₁⟩ := hv _ _ h₃
  obtain ⟨e₂, he₂, hlen₂, hde₂⟩ := ih _ _ he₁.fits h₄
  have hname := (appended_of_putBytes h₂).length_le
  refine ⟨Leb128.put (UInt64.ofNat n.length) ++ (n ++ (e₁ ++ e₂)),
    (appended_of_putSize h₁).trans ((appended_of_putBytes h₂).trans (he₁.trans he₂)),
    by simp only [length_cons, length_append]; omega, ?_⟩
  intro hn depth acc rest hnodup hdepth
  rw [NamedFields] at hn
  simp only [length_append] at hdepth
  have hhead := hde₁ hn.2.1 depth (e₂ ++ rest) (by omega)
  have hnew : n ∉ acc.map Prod.fst := by
    rw [map_append, map_cons, nodup_append] at hnodup
    intro hmem
    exact hnodup.2.2 n hmem n (by simp) rfl
  have htail := hde₂ hn.2.2 depth (acc ++ [(n, v)]) rest (by simpa using hnodup) (by omega)
  simp [deFields, rdBytes_append hname, hhead, takeWhile_of_not_mem hn.1,
    recordSet_of_not_mem hnew, htail]

theorem sendsRows_cons {r : Record} {rs : List Record} (hr : SendsFields r) (ih : SendsRows rs) :
    SendsRows (r :: rs) := by
  intro b b' _ h
  simp only [serRows, Option.bind_eq_bind, Option.bind_eq_some_iff] at h
  obtain ⟨b₁, h₁, b₂, h₂, h₀⟩ := h
  obtain ⟨e₁, he₁, hlen₁, hde₁⟩ := hr _ _ (appended_of_putSize h₁).fits h₂
  obtain ⟨e₂, he₂, hlen₂, hde₂⟩ := ih _ _ he₁.fits h₀
  have hcount := Leb128.length_put_pos (UInt64.ofNat r.length)
  refine ⟨Leb128.put (UInt64.ofNat r.length) ++ (e₁ ++ e₂),
    (appended_of_putSize h₁).trans (he₁.trans he₂),
    by simp only [length_cons, length_append]; omega, ?_⟩
  intro hn depth acc rest hdepth
  rw [NamedRows] at hn
  simp only [length_append] at hdepth
  have hhead := deRecordBody_append (hlen₁.trans he₁.length_le)
    (hde₁ hn.1.2 depth [] (e₂ ++ rest) (by simpa using hn.1.1) (by omega))
  have htail := hde₂ hn.2 depth (acc ++ [r]) rest (by omega)
  simp [deRows, hhead, htail]

/-- What `ser_value` writes `de_value` reads back. -/
theorem sends (v : Value) : Sends v := by
  induction v using Value.induction (I := SendsItems) (F := SendsFields) (T := SendsRows) with
  | null => exact sends_null
  | int i => exact sends_svarint (fun _ _ => rfl) (fun _ _ => rfl) i
  | float d => exact sends_float d
  | bool b => exact sends_bool b
  | string s => exact sends_bytesField (fun _ _ => rfl) (fun _ _ => rfl) s
  | filesize n => exact sends_svarint (fun _ _ => rfl) (fun _ _ => rfl) n
  | date s => exact sends_svarint (fun _ _ => rfl) (fun _ _ => rfl) s
  | path s => exact sends_bytesField (fun _ _ => rfl) (fun _ _ => rfl) s
  | error m => exact fun b b' h => absurd h (by simp [serValue])
  | list items ih => exact sends_list ih
  | record fields ih => exact sends_record ih
  | table rows ih => exact sends_table ih
  | items_nil => exact fun b b' hb h => ⟨[], appended_nil hb h, le_rfl, fun _ _ _ _ _ => by simp [deItems]⟩
  | items_cons v vs hv ih => exact sendsItems_cons hv ih
  | fields_nil =>
    exact fun b b' hb h => ⟨[], appended_nil hb h, le_rfl, fun _ _ _ _ _ _ => by simp [deFields]⟩
  | fields_cons n v fs hv ih => exact sendsFields_cons hv ih
  | rows_nil => exact fun b b' hb h => ⟨[], appended_nil hb h, le_rfl, fun _ _ _ _ _ => by simp [deRows]⟩
  | rows_cons r rs hr ih => exact sendsRows_cons hr ih

/-! ## One frame -/

/-- `wire_serialize` returns 0 and the payload is within `WIRE_FRAME_MAX`. -/
def Value.Fits (v : Value) : Prop := ∃ payload, serValue v [] = some payload ∧
  payload.length ≤ wireFrameMax

/-- A frame is the length of the payload and the payload. -/
theorem wireSerialize_eq {frame : Bytes} (h : wireSerialize v = some frame) :
    ∃ payload, serValue v [] = some payload ∧ payload.length ≤ 2 ^ 63 ∧
      frame = Leb128.put (UInt64.ofNat payload.length) ++ payload := by
  simp only [wireSerialize, Option.bind_eq_bind, Option.bind_eq_some_iff] at h
  obtain ⟨payload, hp, out, hout, hframe⟩ := h
  have happ := appended_of_putBytes hframe
  refine ⟨payload, hp, happ.length_le, ?_⟩
  rw [happ.eq, (appended_of_putSize hout).eq, nil_append]

theorem wireDeserialize_payload {payload : Bytes} (h : serValue v [] = some payload)
    (hn : v.Named) : wireDeserialize payload = some v := by
  obtain ⟨e, he, -, hde⟩ := sends v _ _ h
  have hpe : payload = e := by simpa using he.eq
  have hread := hde hn payload.length [] (by rw [hpe])
  rw [append_nil, ← hpe] at hread
  simp [wireDeserialize, deValue, hread]

/-- The buffer begins with a whole frame. -/
theorem next_of_frame {frame more : Bytes} (h : wireSerialize v = some frame) (hn : v.Named)
    (hfit : v.Fits) (hr : r.unconsumed = frame ++ more) :
    r.next.2 = .value v ∧ r.next.1.unconsumed = more := by
  obtain ⟨payload, hp, hsize, rfl⟩ := wireSerialize_eq h
  obtain ⟨payload', hp', hmax⟩ := hfit
  rw [hp, Option.some.injEq] at hp'
  subst hp'
  have hnat := toNat_ofNat_of_le hsize
  have hscan : Leb128.scan 0 0 r.unconsumed =
      .done (UInt64.ofNat payload.length) (payload ++ more) := by
    rw [hr, append_assoc, Leb128.scan_put]
  have hlen : ¬ (payload ++ more).length < payload.length := by
    rw [length_append]
    omega
  unfold Reader.next
  rw [hscan]
  simp only [hnat, Nat.not_lt.2 hmax, hlen, ↓reduceIte, take_left,
    wireDeserialize_payload hp hn, true_and]
  -- the header is what the scan took off the front
  have hdrop : r.unconsumed.drop (r.unconsumed.length - (payload ++ more).length +
      payload.length) = more := by
    rw [hr]
    apply drop_left'
    simp only [length_append]
    omega
  rw [Reader.unconsumed, drop_drop] at hdrop
  rw [Reader.unconsumed]
  exact hdrop

/-- The buffer ends within a frame. -/
theorem next_of_part {frame p q : Bytes} (h : wireSerialize v = some frame) (hfit : v.Fits)
    (hr : r.unconsumed = p) (hpq : frame = p ++ q) (hq : q ≠ []) : r.next = (r, .more) := by
  obtain ⟨payload, hp, hsize, rfl⟩ := wireSerialize_eq h
  obtain ⟨payload', hp', hmax⟩ := hfit
  rw [hp, Option.some.injEq] at hp'
  subst hp'
  have hnat := toNat_ofNat_of_le hsize
  have hscan := Leb128.scan_put (UInt64.ofNat payload.length) payload
  rw [hpq] at hscan
  unfold Reader.next
  rw [hr]
  rcases Nat.lt_or_ge payload.length q.length with hlt | hge
  · rw [(Leb128.scan_of_done hscan).1 hlt]
  · obtain ⟨rest, hrest, hsplit⟩ := (Leb128.scan_of_done hscan).2 hge
    have hshort : rest.length < payload.length := by
      have := length_pos_of_ne_nil hq
      rw [hsplit, length_append]
      omega
    rw [hrest]
    simp only [hnat, Nat.not_lt.2 hmax, hshort, ↓reduceIte]

/-- The buffer begins with a frame the reader refuses. -/
theorem next_of_large {frame more : Bytes} (h : wireSerialize v = some frame) (hfit : ¬ v.Fits)
    (hr : r.unconsumed = frame ++ more) : r.next = (r, .broken) := by
  obtain ⟨payload, hp, hsize, rfl⟩ := wireSerialize_eq h
  have hmax : wireFrameMax < payload.length := by
    by_contra hle
    exact hfit ⟨payload, hp, Nat.not_lt.1 hle⟩
  unfold Reader.next
  rw [hr, append_assoc, Leb128.scan_put]
  simp only [toNat_ofNat_of_le hsize, hmax, ↓reduceIte]

/-! ## The stream -/

section Stream

variable (vs : List Value) (frames : List Bytes)

/-- The frame of the value that is due next has arrived whole. -/
def Arrived (past : List Event) : Prop :=
  (returned past).length < frames.length ∧
    (frames.take ((returned past).length + 1)).flatten.length ≤ (fed past).length

/-- What the reader answers, in terms of what it was fed and what it returned before. -/
structure Exact (h : List Event) (r : Reader) : Prop where
  /-- The values come out in order, and no others do. -/
  ordered : returned h <+: vs
  /-- The stream never breaks, and the reader asks for more as long as a frame is incomplete. -/
  answers : History.Justified (fun past e => ∀ o, e = Event.asked o →
    o ≠ .broken ∧ (o = .more ↔ ¬ Arrived frames past)) [] h
  /-- Nothing is left behind the last value. -/
  drained : returned h = vs → r.unconsumed = []

end Stream

theorem fed_append (h e : List Event) : fed (h ++ e) = fed h ++ fed e := by
  induction h with
  | nil => rfl
  | cons x h ih => cases x <;> simp [fed, ih]

theorem returned_append (h e : List Event) : returned (h ++ e) = returned h ++ returned e := by
  induction h with
  | nil => rfl
  | cons x h ih =>
    cases x with
    | fed data => simp [returned, ih]
    | asked o => cases o <;> simp [returned, ih]

variable {vs : List Value} {frames : List Bytes} {h : List Event}

/-- The frames are those of the values. -/
abbrev Serialized (vs : List Value) (frames : List Bytes) : Prop :=
  List.Forall₂ (fun v f => wireSerialize v = some f) vs frames

/-- The reader is between two values: what it was fed is the frames of the values it returned and
what is still in its buffer. -/
structure Between (vs : List Value) (frames : List Bytes) (h : List Event) (r : Reader) : Prop where
  split : ∃ done rest fdone frest, vs = done ++ rest ∧ frames = fdone ++ frest ∧
    Serialized done fdone ∧ Serialized rest frest ∧ returned h = done ∧
    fed h = fdone.flatten ++ r.unconsumed
  answers : History.Justified (fun past e => ∀ o, e = Event.asked o →
    o ≠ .broken ∧ (o = .more ↔ ¬ Arrived frames past)) [] h

theorem Between.exact (hb : Between vs frames h r) (hfed : fed h <+: frames.flatten) :
    Exact vs frames h r := by
  obtain ⟨done, rest, fdone, frest, rfl, rfl, hdone, hrest, hret, hsplit⟩ := hb.split
  refine ⟨⟨rest, by rw [hret]⟩, hb.answers, fun hall => ?_⟩
  -- every value is out, so every frame is in front of the buffer
  rw [hret, self_eq_append_right] at hall
  subst hall
  cases hrest
  rw [hsplit, append_nil] at hfed
  exact prefix_nil.1 ((prefix_append_right_inj _).1 (by simpa using hfed))

/-- What is in the buffer is the front of what is still to come. -/
theorem unconsumed_of_fed {fdone frest : List Bytes}
    (hsplit : fed h = fdone.flatten ++ r.unconsumed) (hfed : fed h <+: (fdone ++ frest).flatten) :
    ∃ later, r.unconsumed ++ later = frest.flatten := by
  rw [hsplit, flatten_append, prefix_append_right_inj] at hfed
  exact hfed

theorem arrived_iff {fdone frest : List Bytes} {f : Bytes}
    (hcount : (returned h).length = fdone.length) (hsplit : fed h = fdone.flatten ++ r.unconsumed) :
    Arrived (fdone ++ f :: frest) h ↔ f.length ≤ r.unconsumed.length := by
  have htake : (fdone ++ f :: frest).take (fdone.length + 1) = fdone ++ [f] := by
    rw [take_length_add_append]
    simp
  rw [Arrived, hcount, htake, hsplit]
  simp only [flatten_append, flatten_singleton, length_append, length_cons]
  omega

theorem justified_concat {P : List Event → Event → Prop} {e : Event} (hj : History.Justified P [] h)
    (he : P h e) : History.Justified P [] (h ++ [e]) := by
  rw [History.justified_append]
  exact ⟨hj, he, trivial⟩

/-- Between two values the reader answers as it should and is between two values again. -/
theorem Between.next (hn : ∀ v ∈ vs, v.Named) (hfit : ∀ v ∈ vs, v.Fits) (hb : Between vs frames h r)
    (hfed : fed h <+: frames.flatten) : Between vs frames (h ++ [.asked r.next.2]) r.next.1 := by
  obtain ⟨done, rest, fdone, frest, rfl, rfl, hdone, hrest, hret, hsplit⟩ := hb.split
  have hcount : (returned h).length = fdone.length := by rw [hret, hdone.length_eq]
  obtain ⟨later, hlater⟩ := unconsumed_of_fed hsplit hfed
  -- asking for more leaves everything as it is
  have hmore : r.next = (r, .more) → ¬ Arrived (fdone ++ frest) h →
      Between (done ++ rest) (fdone ++ frest) (h ++ [.asked r.next.2]) r.next.1 := by
    intro hnext hnot
    rw [hnext]
    refine ⟨⟨done, rest, fdone, frest, rfl, rfl, hdone, hrest, ?_, ?_⟩,
      justified_concat hb.answers ?_⟩
    · rw [returned_append, hret]
      simp [returned]
    · rw [fed_append, hsplit]
      simp [fed]
    · rintro o ho
      rw [Event.asked.injEq] at ho
      subst ho
      exact ⟨by simp, by simpa using hnot⟩
  cases hrest with
  | nil =>
    -- every value is out and the buffer is empty
    have hempty : r.unconsumed = [] := by simpa using append_eq_nil_iff.1 hlater |>.1
    refine hmore ?_ ?_
    · simp [Reader.next, hempty, Leb128.scan]
    · rw [Arrived, hcount]
      simp
  | @cons v f rest frest hv hrest =>
    have hvn := hn v (by simp)
    have hvf := hfit v (by simp)
    have harr : Arrived (fdone ++ f :: frest) h ↔ f.length ≤ r.unconsumed.length :=
      arrived_iff hcount hsplit
    rw [flatten_cons] at hlater
    have hfront : f <+: r.unconsumed ++ later := ⟨frest.flatten, hlater.symm⟩
    rcases Nat.lt_or_ge r.unconsumed.length f.length with hlt | hge
    · obtain ⟨q, hq⟩ := prefix_of_prefix_length_le ⟨later, rfl⟩ hfront hlt.le
      have hne : q ≠ [] := by
        rintro rfl
        rw [← hq, append_nil] at hlt
        exact lt_irrefl _ hlt
      exact hmore (next_of_part hv hvf rfl hq.symm hne) (by rw [harr]; omega)
    · obtain ⟨more, hmore'⟩ := prefix_of_prefix_length_le hfront ⟨later, rfl⟩ hge
      obtain ⟨hval, hrest'⟩ := next_of_frame hv hvn hvf hmore'.symm
      refine ⟨⟨done ++ [v], rest, fdone ++ [f], frest, by simp, by simp,
        rel_append hdone (.cons hv .nil), hrest, ?_, ?_⟩, justified_concat hb.answers ?_⟩
      · rw [returned_append, hret, hval]
        rfl
      · rw [fed_append, hsplit, hrest', ← hmore']
        simp [fed]
      · rintro o ho
        rw [Event.asked.injEq] at ho
        subst ho
        rw [hval, harr]
        simpa using hge

theorem Between.feed (hb : Between vs frames h r) (data : Bytes) :
    Between vs frames (h ++ [.fed data]) (r.feed data) := by
  obtain ⟨done, rest, fdone, frest, hvs, hframes, hdone, hrest, hret, hsplit⟩ := hb.split
  refine ⟨⟨done, rest, fdone, frest, hvs, hframes, hdone, hrest, ?_, ?_⟩,
    justified_concat hb.answers ?_⟩
  · rw [returned_append, hret]
    simp [returned]
  · rw [fed_append, hsplit]
    simp [fed, Reader.feed, Reader.unconsumed]
  · rintro o ho
    cases ho

/-- Every run of the reader over frames within the limit. -/
theorem exact_of_fits (hser : Serialized vs frames) (hn : ∀ v ∈ vs, v.Named)
    (hfit : ∀ v ∈ vs, v.Fits) (is : List Input)
    (hfed : fed (reader.run .init is).2 <+: frames.flatten) :
    Exact vs frames (reader.run .init is).2 (reader.run .init is).1 := by
  have hstart : Between vs frames [] Reader.init :=
    ⟨⟨[], vs, [], frames, rfl, rfl, .nil, hser, rfl, rfl⟩, trivial⟩
  -- as long as what was fed is the front of the frames
  have hrun := Machine.run_invariant (m := reader)
    (I := fun h r => fed h <+: frames.flatten → Between vs frames h r)
    (fun h r i hI hpre => by
      cases i with
      | feed data =>
        have hpast : fed h <+: frames.flatten := by
          rw [fed_append] at hpre
          exact (prefix_append _ _).trans hpre
        exact (hI hpast).feed data
      | next =>
        have hpast : fed h <+: frames.flatten := by
          simpa [reader, fed_append, fed] using hpre
        exact (hI hpast).next hn hfit hpast) is [] .init (fun _ => hstart)
  exact (hrun hfed).exact hfed

/-- Frames fed at once are refused where the first payload is above the limit. -/
theorem broken_of_large (hser : Serialized vs frames) (hn : ∀ v ∈ vs, v.Named)
    (hbad : ∃ v ∈ vs, ¬ v.Fits) (hr : r.unconsumed = frames.flatten) :
    ∃ n, Event.asked .broken ∈ (reader.run r (List.replicate n .next)).2 := by
  induction hser generalizing r with
  | nil => simp at hbad
  | @cons v f vs frames hv hser ih =>
    rw [flatten_cons] at hr
    by_cases hfit : v.Fits
    · obtain ⟨hval, hrest⟩ := next_of_frame hv (hn v (by simp)) hfit hr
      have hbad' : ∃ w ∈ vs, ¬ w.Fits := by
        obtain ⟨w, hw, hwf⟩ := hbad
        rcases mem_cons.1 hw with rfl | hw
        · exact absurd hfit hwf
        · exact ⟨w, hw, hwf⟩
      obtain ⟨n, hbroken⟩ := ih (fun w hw => hn w (by simp [hw])) hbad' hrest
      refine ⟨n + 1, ?_⟩
      rw [replicate_succ, Machine.run_cons]
      exact mem_append_right _ hbroken
    · refine ⟨1, ?_⟩
      simp [reader, Machine.run_cons, next_of_large hv hfit hr]

/-- Every way of cutting the stream gives the values back exactly when every payload is within
`WIRE_FRAME_MAX`. -/
theorem reader_exact_iff (hser : Serialized vs frames) (hn : ∀ v ∈ vs, v.Named) :
    (∀ is, fed (reader.run .init is).2 <+: frames.flatten →
      Exact vs frames (reader.run .init is).2 (reader.run .init is).1) ↔ ∀ v ∈ vs, v.Fits := by
  constructor
  · intro hexact
    by_contra hnot
    push Not at hnot
    -- feed everything, then ask until the stream breaks
    have hstart : (Reader.init.feed frames.flatten).unconsumed = frames.flatten := by
      simp [Reader.feed, Reader.unconsumed, Reader.init]
    obtain ⟨n, hbroken⟩ := broken_of_large hser hn hnot hstart
    have hask : ∀ (n : Nat) (r : Reader), fed (reader.run r (List.replicate n .next)).2 = [] := by
      intro n
      induction n with
      | zero => exact fun r => rfl
      | succ n ih =>
        intro r
        rw [replicate_succ, Machine.run_cons, fed_append, ih]
        rfl
    have hfed : fed (reader.run .init (.feed frames.flatten :: List.replicate n .next)).2 =
        frames.flatten := by
      rw [Machine.run_cons, fed_append, hask]
      simp [reader, fed]
    have hrun := hexact _ (by rw [hfed])
    obtain ⟨a, b, hab⟩ :=
      append_of_mem (mem_append_right [Event.fed frames.flatten] hbroken)
    exact ((hrun.answers.at_event hab) _ rfl).1 rfl
  · intro hfit is hfed
    exact exact_of_fits hser hn hfit is hfed

/-- The payload of a string, from the number in front of it. -/
theorem serValue_string {s len : Bytes} (hlen : Leb128.put (UInt64.ofNat s.length) = len)
    (hfits : 1 + len.length + s.length ≤ 2 ^ 63) :
    serValue (.string s) [] = some (tagString :: (len ++ s)) := by
  simp only [serValue, serBytesField, bufPutU8, bufPutSize, bufPutUvarint, hlen, bufPutBytes,
    length_nil, length_cons, nil_append, Option.bind_eq_bind]
  rw [if_pos (by omega), Option.bind_some, if_pos (by simp; omega), Option.bind_some,
    if_pos (by simp; omega)]
  rfl

/-- The frame of a string, from the numbers in front of it. -/
theorem wireSerialize_string {s len size : Bytes}
    (hlen : Leb128.put (UInt64.ofNat s.length) = len)
    (hsize : Leb128.put (UInt64.ofNat (1 + len.length + s.length)) = size)
    (hfits : size.length + (1 + len.length + s.length) ≤ 2 ^ 63) :
    wireSerialize (.string s) = some (size ++ (tagString :: (len ++ s))) := by
  have hcount : (tagString :: (len ++ s)).length = 1 + len.length + s.length := by
    simp only [length_cons, length_append]
    omega
  simp only [wireSerialize, serValue_string hlen (by omega), Option.bind_eq_bind, Option.bind_some,
    bufPutSize, bufPutUvarint, hcount, hsize, bufPutBytes, length_nil, nil_append]
  rw [if_pos (by omega), Option.bind_some, if_pos hfits]

theorem wireSerialize_hi : wireSerialize (.string [104, 105]) = some [4, 4, 2, 104, 105] :=
  wireSerialize_string (Leb128.put_last (by decide)) (Leb128.put_last (by decide)) (by decide)

theorem reader_exact_of_hi :
    wireSerialize (.string [104, 105]) = some [4, 4, 2, 104, 105] ∧
      (∀ v ∈ [Value.string [104, 105]], v.Named) ∧
      ((∀ is, fed (reader.run .init is).2 <+: [[4, 4, 2, 104, 105]].flatten →
        Exact [.string [104, 105]] [[4, 4, 2, 104, 105]] (reader.run .init is).2
          (reader.run .init is).1) ↔ ∀ v ∈ [Value.string [104, 105]], v.Fits) := by
  have hnamed : ∀ v ∈ [Value.string [104, 105]], v.Named := by
    intro v hv
    rw [mem_singleton.1 hv]
    trivial
  exact ⟨wireSerialize_hi, hnamed, reader_exact_iff (.cons wireSerialize_hi .nil) hnamed⟩

/-- A string of 16 MiB: the tag and the length take the payload above the limit. -/
def large : Value := .string (List.replicate (16 * 1024 * 1024) 0)

def largeFrame : Bytes :=
  [133, 128, 128, 8] ++ (tagString :: ([128, 128, 128, 8] ++ List.replicate (16 * 1024 * 1024) 0))

theorem put_large : Leb128.put (UInt64.ofNat (List.replicate (16 * 1024 * 1024) (0 : UInt8)).length) =
    [128, 128, 128, 8] := by
  rw [length_replicate, Leb128.put_more (by decide), Leb128.put_more (by decide),
    Leb128.put_more (by decide), Leb128.put_last (by decide)]
  decide

theorem wireSerialize_large : wireSerialize large = some largeFrame := by
  apply wireSerialize_string put_large
  · rw [length_replicate, Leb128.put_more (by decide), Leb128.put_more (by decide),
      Leb128.put_more (by decide), Leb128.put_last (by decide)]
    decide
  · rw [length_replicate]
    decide

theorem not_fits_large : ¬ large.Fits := by
  rintro ⟨payload, hp, hmax⟩
  rw [large, serValue_string put_large (by rw [length_replicate]; decide),
    Option.some.injEq] at hp
  rw [← hp, length_cons, length_append, length_replicate] at hmax
  exact absurd hmax (by decide)

/-- A value above the limit is sent without an error, and the reader gives up on it. -/
theorem large_breaks_stream :
    wireSerialize large = some largeFrame ∧ large.Named ∧
      (reader.run .init [.feed largeFrame, .next]).2 = [.fed largeFrame, .asked .broken] ∧
      ¬ Exact [large] [largeFrame] (reader.run .init [.feed largeFrame, .next]).2
        (reader.run .init [.feed largeFrame, .next]).1 := by
  have hbuf : (Reader.init.feed largeFrame).unconsumed = largeFrame ++ [] := by
    simp [Reader.feed, Reader.unconsumed, Reader.init]
  have hnext := next_of_large wireSerialize_large not_fits_large hbuf
  have hrun : (reader.run .init [.feed largeFrame, .next]).2 =
      [.fed largeFrame, .asked .broken] := by
    simp [Machine.run_cons, reader, hnext]
  refine ⟨wireSerialize_large, trivial, hrun, fun hexact => ?_⟩
  have hj := hexact.answers
  rw [hrun] at hj
  exact (hj.2.1 _ rfl).1 rfl

end EmbLinkOs.Shell
