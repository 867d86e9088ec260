import EmbLinkOs.Lib.Codec
import EmbLinkOs.Lib.Leb128
import EmbLinkOs.Lib.Machine

set_option autoImplicit false

/-! # The shell's wire format

`src/shell/wire/wire.c` carries the values of a pipeline between processes. A value travels as one
frame: the length of its payload as a base-128 number, then the payload, a tag and a body that
follows the value's own shape. The reader at the other end takes bytes as the pipe delivers them and
hands out a value each time a frame is whole.

The cursor of the decoder is the list of bytes still to be read. Memory is there when it is asked
for, up to what a `size_t` can count. -/

namespace EmbLinkOs.Shell

abbrev Bytes := List UInt8

/-! ## Values -/

/-- `struct value`. A double is its bit pattern; a record is its fields in order. -/
inductive Value where
  | null
  | int (i : Int64)
  | float (bits : UInt64)
  | bool (b : Bool)
  | string (bytes : Bytes)
  | list (items : List Value)
  | record (fields : List (Bytes × Value))
  | table (rows : List (List (Bytes × Value)))
  | filesize (n : Int64)
  | date (s : Int64)
  | path (bytes : Bytes)
  | error (msg : Bytes)

abbrev Record := List (Bytes × Value)

/-- `value_record_set`: the field of that name is replaced, or a new one stands last. -/
def recordSet (name : Bytes) (v : Value) : Record → Record
  | [] => [(name, v)]
  | f :: fs => if f.1 = name then (name, v) :: fs else f :: recordSet name v fs

mutual

/-- The field names of every record in the value are C strings, each used once. -/
def Value.Named : Value → Prop
  | .list items => NamedItems items
  | .record fields => (fields.map Prod.fst).Nodup ∧ NamedFields fields
  | .table rows => NamedRows rows
  | _ => True

def NamedItems : List Value → Prop
  | [] => True
  | v :: vs => v.Named ∧ NamedItems vs

def NamedFields : List (Bytes × Value) → Prop
  | [] => True
  | (n, v) :: fs => 0 ∉ n ∧ v.Named ∧ NamedFields fs

def NamedRows : List (List (Bytes × Value)) → Prop
  | [] => True
  | r :: rs => ((r.map Prod.fst).Nodup ∧ NamedFields r) ∧ NamedRows rs

end

/-! ## Writing -/

/-- `buf_put_bytes`. The capacity doubles from 32, and the largest that a `size_t` holds is
`2 ^ 63`. -/
def bufPutBytes (b p : Bytes) : Option Bytes :=
  if b.length + p.length ≤ 2 ^ 63 then some (b ++ p) else none

/-- `buf_put_u8`. -/
def bufPutU8 (b : Bytes) (x : UInt8) : Option Bytes := bufPutBytes b [x]

/-- `buf_put_uvarint`. -/
def bufPutUvarint (b : Bytes) (x : UInt64) : Option Bytes := bufPutBytes b (Leb128.put x)

/-- `zigzag_encode`. -/
def zigzagEncode (v : Int64) : UInt64 := v.toUInt64 <<< 1 ^^^ (v >>> 63).toUInt64

/-- `zigzag_decode`. -/
def zigzagDecode (u : UInt64) : Int64 := (u >>> 1).toInt64 ^^^ -(u &&& 1).toInt64

/-- `buf_put_svarint`. -/
def bufPutSvarint (b : Bytes) (v : Int64) : Option Bytes := bufPutUvarint b (zigzagEncode v)

/-- `buf_put_double`. -/
def bufPutDouble (b : Bytes) (d : UInt64) : Option Bytes := bufPutBytes b (Codec.u64.enc d)

/-- A length or count, as a `size_t`. -/
def bufPutSize (b : Bytes) (n : Nat) : Option Bytes := bufPutUvarint b (UInt64.ofNat n)

/-- `enum wire_tag`. -/
def tagNull : UInt8 := 0
def tagInt : UInt8 := 1
def tagFloat : UInt8 := 2
def tagBool : UInt8 := 3
def tagString : UInt8 := 4
def tagList : UInt8 := 5
def tagRecord : UInt8 := 6
def tagTable : UInt8 := 7
def tagFilesize : UInt8 := 8
def tagDate : UInt8 := 9
def tagPath : UInt8 := 10

/-- `ser_bytes_field`. -/
def serBytesField (b : Bytes) (tag : UInt8) (bytes : Bytes) : Option Bytes := do
  let b ← bufPutU8 b tag
  let b ← bufPutSize b bytes.length
  bufPutBytes b bytes

mutual

/-- `ser_value`. -/
def serValue : Value → Bytes → Option Bytes
  | .null, b => bufPutU8 b tagNull
  | .int i, b => do bufPutSvarint (← bufPutU8 b tagInt) i
  | .filesize n, b => do bufPutSvarint (← bufPutU8 b tagFilesize) n
  | .date s, b => do bufPutSvarint (← bufPutU8 b tagDate) s
  | .float d, b => do bufPutDouble (← bufPutU8 b tagFloat) d
  | .bool v, b => do bufPutU8 (← bufPutU8 b tagBool) (if v then 1 else 0)
  | .string s, b => serBytesField b tagString s
  | .path s, b => serBytesField b tagPath s
  | .list items, b => do serItems items (← bufPutSize (← bufPutU8 b tagList) items.length)
  | .record fields, b => do
    serFields fields (← bufPutSize (← bufPutU8 b tagRecord) fields.length)
  | .table rows, b => do serRows rows (← bufPutSize (← bufPutU8 b tagTable) rows.length)
  | .error _, _ => none

def serItems : List Value → Bytes → Option Bytes
  | [], b => some b
  | v :: vs, b => do serItems vs (← serValue v b)

def serFields : List (Bytes × Value) → Bytes → Option Bytes
  | [], b => some b
  | (n, v) :: fs, b => do
    let b ← bufPutSize b n.length
    let b ← bufPutBytes b n
    serFields fs (← serValue v b)

def serRows : List (List (Bytes × Value)) → Bytes → Option Bytes
  | [], b => some b
  | r :: rs, b => do serRows rs (← serFields r (← bufPutSize b r.length))

end

/-- `wire_serialize`, into a fresh buffer: the frame of a value. -/
def wireSerialize (v : Value) : Option Bytes := do
  let payload ← serValue v []
  let out ← bufPutSize [] payload.length
  bufPutBytes out payload

/-! ## Reading -/

/-- `rd_u8`. -/
def rdU8 : Bytes → Option (UInt8 × Bytes)
  | [] => none
  | b :: bs => some (b, bs)

/-- `rd_uvarint`. -/
def rdUvarint (bs : Bytes) : Option (UInt64 × Bytes) :=
  match Leb128.scan 0 0 bs with
  | .done v rest => some (v, rest)
  | .more | .overlong => none

/-- `rd_svarint`. -/
def rdSvarint (bs : Bytes) : Option (Int64 × Bytes) := do
  let (u, bs) ← rdUvarint bs
  return (zigzagDecode u, bs)

/-- `rd_double`. -/
def rdDouble (bs : Bytes) : Option (UInt64 × Bytes) := Codec.u64.dec bs

/-- `rd_bytes`. A length for which `pos + n` wraps passes the check of the source: `Shell.Cursor`
follows the decoder from there, this reader fails. -/
def rdBytes (n : UInt64) (bs : Bytes) : Option (Bytes × Bytes) :=
  if bs.length < n.toNat then none else some (bs.take n.toNat, bs.drop n.toNat)

section Loops

variable (deValue : Bytes → Option (Value × Bytes))

/-- The loop of `WT_LIST`: `count` values, pushed in order. -/
def deItems : Nat → List Value → Bytes → Option (List Value × Bytes)
  | 0, items, bs => some (items, bs)
  | count + 1, items, bs => do
    let (v, bs) ← deValue bs
    deItems count (items ++ [v]) bs

/-- The loop of `de_record_body`: `count` fields, set in order. -/
def deFields : Nat → Record → Bytes → Option (Record × Bytes)
  | 0, fields, bs => some (fields, bs)
  | count + 1, fields, bs => do
    let (nlen, bs) ← rdUvarint bs
    let (name, bs) ← rdBytes nlen bs
    let (v, bs) ← deValue bs
    -- the copy of the name is a C string: it ends at its first zero byte
    deFields count (recordSet (name.takeWhile (· ≠ 0)) v fields) bs

/-- `de_record_body`. -/
def deRecordBody (bs : Bytes) : Option (Record × Bytes) := do
  let (count, bs) ← rdUvarint bs
  deFields deValue count.toNat [] bs

/-- The loop of `WT_TABLE`. -/
def deRows : Nat → List Record → Bytes → Option (List Record × Bytes)
  | 0, rows, bs => some (rows, bs)
  | count + 1, rows, bs => do
    let (row, bs) ← deRecordBody deValue bs
    deRows count (rows ++ [row]) bs

/-- The tags of `de_value` whose body holds no other value. -/
def deScalar (tag : UInt8) (bs : Bytes) : Option (Value × Bytes) :=
  if tag = tagNull then return (.null, bs)
  else if tag = tagBool then do
    let (b, bs) ← rdU8 bs
    return (.bool (b ≠ 0), bs)
  else if tag = tagInt then do
    let (i, bs) ← rdSvarint bs
    return (.int i, bs)
  else if tag = tagFilesize then do
    let (i, bs) ← rdSvarint bs
    return (.filesize i, bs)
  else if tag = tagDate then do
    let (i, bs) ← rdSvarint bs
    return (.date i, bs)
  else if tag = tagFloat then do
    let (d, bs) ← rdDouble bs
    return (.float d, bs)
  else if tag = tagString then do
    let (len, bs) ← rdUvarint bs
    let (s, bs) ← rdBytes len bs
    return (.string s, bs)
  else if tag = tagPath then do
    let (len, bs) ← rdUvarint bs
    let (s, bs) ← rdBytes len bs
    return (.path s, bs)
  else none

/-- `de_value` behind its tag. -/
def deTagged (tag : UInt8) (bs : Bytes) : Option (Value × Bytes) :=
  if tag = tagList then do
    let (count, bs) ← rdUvarint bs
    let (items, bs) ← deItems deValue count.toNat [] bs
    return (.list items, bs)
  else if tag = tagRecord then do
    let (fields, bs) ← deRecordBody deValue bs
    return (.record fields, bs)
  else if tag = tagTable then do
    let (count, bs) ← rdUvarint bs
    let (rows, bs) ← deRows deValue count.toNat [] bs
    return (.table rows, bs)
  else deScalar tag bs

end Loops

/-- `de_value`, the first argument bounding the depth of the calls. A call made from within another
one starts further along the input, so the length of the input is depth enough
(`deValueTo_eq`). -/
def deValueTo : Nat → Bytes → Option (Value × Bytes)
  | 0, _ => none
  | depth + 1, bs => do
    let (tag, bs) ← rdU8 bs
    deTagged (deValueTo depth) tag bs

/-- `de_value`. -/
def deValue (bs : Bytes) : Option (Value × Bytes) := deValueTo bs.length bs

/-- `wire_deserialize`. -/
def wireDeserialize (payload : Bytes) : Option Value := do
  let (v, rest) ← deValue payload
  if rest = [] then return v else none

/-! ## The incremental reader -/

/-- `WIRE_FRAME_MAX`. -/
def wireFrameMax : Nat := 16 * 1024 * 1024

/-- `struct wire_reader`. -/
structure Reader where
  buf : Bytes
  consumed : Nat

/-- The bytes no value has been made of yet. -/
def Reader.unconsumed (r : Reader) : Bytes := r.buf.drop r.consumed

/-- `wire_reader_init`. -/
def Reader.init : Reader := ⟨[], 0⟩

/-- `wire_reader_feed`. -/
def Reader.feed (r : Reader) (data : Bytes) : Reader := ⟨r.unconsumed ++ data, 0⟩

/-- What `wire_reader_next` answers: 1 with a value, 0 or -1. -/
inductive Next where
  | value (v : Value)
  | more
  | broken

/-- `wire_reader_next`. -/
def Reader.next (r : Reader) : Reader × Next :=
  match Leb128.scan 0 0 r.unconsumed with
  | .more => (r, .more)
  | .overlong => (r, .broken)
  | .done frameLen rest =>
    if wireFrameMax < frameLen.toNat then (r, .broken)
    else if rest.length < frameLen.toNat then (r, .more)
    else
      match wireDeserialize (rest.take frameLen.toNat) with
      | none => (r, .broken)
      | some v =>
        let hdr := r.unconsumed.length - rest.length
        ({ r with consumed := r.consumed + (hdr + frameLen.toNat) }, .value v)

/-! ## Runs of the reader -/

inductive Input where
  | feed (data : Bytes)
  | next

inductive Event where
  | fed (data : Bytes)
  | asked (answer : Next)

def reader : Machine Reader Input Event where
  step r
    | .feed data => (r.feed data, [.fed data])
    | .next => (r.next.1, [.asked r.next.2])

/-- The bytes the reader was fed. -/
def fed : List Event → Bytes
  | [] => []
  | .fed data :: h => data ++ fed h
  | .asked _ :: h => fed h

/-- The values the reader returned. -/
def returned : List Event → List Value
  | [] => []
  | .asked (.value v) :: h => v :: returned h
  | _ :: h => returned h

end EmbLinkOs.Shell
