import GammaRay.BsonEncoder

set_option autoImplicit false

/-!
# The BSON decoder

`bson-decoder.c`. The pointers the decoder hands out are offsets into the buffer of
the document. `size` and `position` are 64-bit counters and every update of them is
reduced; the lengths read from the document are signed 32-bit integers. `none` is a
read outside the buffer or a failed assertion.
-/
namespace GammaRay.Bson
open Bytes

/-- `struct bson_kv` as the decoder fills it. -/
structure BsonRef where
  type : UInt8
  subtype : UInt8
  size : ℤ
  key : ℕ
  data : ℕ
  deriving DecidableEq, Repr

def BsonType.all : List BsonType :=
  [.double, .string, .embeddedDocument, .array, .binary, .undefined, .objectid, .boolean,
    .utcDatetime, .null, .regex, .dbpointer, .js, .symbol, .jsCode, .int32, .timestamp,
    .int64, .min, .max]

def BsonType.ofByte (b : UInt8) : Option BsonType := BsonType.all.find? (fun t => t.code = b)

theorem BsonType.ofByte_code (t : BsonType) : BsonType.ofByte t.code = some t := by
  cases t <;> decide

/-- Both cursors of the decoder move together. -/
def advance (b : BsonInfo) (n : ℤ) : BsonInfo :=
  { b with position := u64 (b.position + n), size := u64 (b.size - n) }

/-- `strlen` of the C string at an offset, if its terminator lies in the buffer. -/
def strlen (buffer : List UInt8) (offset : ℕ) : Option ℕ :=
  let str := (buffer.drop offset).takeWhile (· ≠ 0)
  if str.length < (buffer.drop offset).length then some str.length else none

/-- The C string at an offset, without its terminator. -/
def cstringAt (buffer : List UInt8) (offset : ℕ) : List UInt8 :=
  (buffer.drop offset).takeWhile (· ≠ 0)

def int32At (buffer : List UInt8) (offset : ℕ) : Option ℤ :=
  if offset + 4 ≤ buffer.length then some (i32 (leNat ((buffer.drop offset).take 4))) else none

/-- The return value is `EXIT_SUCCESS` for `true`. -/
def deserializeCstring (b : BsonInfo) (kv : BsonRef) : Option (Bool × BsonInfo × BsonRef) := do
  let kv := { kv with data := b.position }
  let n ← strlen b.buffer kv.data
  let b := advance b (n + 1)
  some (¬ b.size < b.position, b, kv)

def deserializeString (b : BsonInfo) (kv : BsonRef) : Option (Bool × BsonInfo × BsonRef) := do
  let n ← int32At b.buffer b.position
  let b := advance b 4
  let kv := { kv with size := i32 (n - 1), data := b.position }
  let b := advance b (i32 (kv.size + 1))
  some (¬ b.size < b.position, b, kv)

def deserializeDocument (b : BsonInfo) (kv : BsonRef) : Option (Bool × BsonInfo × BsonRef) := do
  let n ← int32At b.buffer b.position
  let kv := { kv with size := n, data := b.position }
  some (true, advance b n, kv)

def deserializeBinary (b : BsonInfo) (value : BsonRef) : Option (BsonInfo × BsonRef) := do
  let n ← int32At b.buffer b.position
  let b := advance b 4
  let subtype ← b.buffer[b.position]?
  let b := advance b 1
  let value := { value with size := n, subtype := subtype, data := b.position }
  some (advance b n, value)

/-- The branches of `bson_deserialize` that set `data` and step over a fixed width. The
source sets `size` in some of them and leaves it at zero in the others. -/
def deserializeFixed (b : BsonInfo) (value : BsonRef) (width size : ℤ) : BsonInfo × BsonRef :=
  (advance b width, { value with data := b.position, size := size })

/-- The switch of `bson_deserialize`. -/
def deserializePayload (t : BsonType) (b : BsonInfo) (value value2 : BsonRef) :
    Option (BsonInfo × BsonRef × BsonRef) :=
  match t with
  | .double => let (b, value) := deserializeFixed b value 8 8; some (b, value, value2)
  | .string => do
    let (_, b, value) ← deserializeString b value
    some (b, value, value2)
  | .embeddedDocument => do
    let (_, b, value2) ← deserializeDocument b value2
    some (b, value, value2)
  | .array => do
    let (_, b, value2) ← deserializeDocument b value2
    some (b, value, value2)
  | .binary => do
    let (b, value) ← deserializeBinary b value
    some (b, value, value2)
  | .undefined => some (b, value, value2)
  | .objectid => let (b, value) := deserializeFixed b value 12 value.size; some (b, value, value2)
  | .boolean => let (b, value) := deserializeFixed b value 1 1; some (b, value, value2)
  | .utcDatetime => let (b, value) := deserializeFixed b value 8 value.size; some (b, value, value2)
  | .null => some (b, value, value2)
  | .regex => do
    let value2 := { value2 with key := value.key }
    let (_, b, value) ← deserializeCstring b value
    let (_, b, value2) ← deserializeCstring b value2
    some (b, value, value2)
  | .dbpointer => do
    let value2 := { value2 with key := value.key }
    let (_, b, value) ← deserializeString b value
    some (advance b 12, value, { value2 with data := b.position })
  | .js => do
    let (_, b, value) ← deserializeString b value
    some (b, value, value2)
  | .symbol => do
    let (_, b, value) ← deserializeString b value
    some (b, value, value2)
  | .jsCode => do
    let b := advance b 4
    let (_, b, value) ← deserializeString b value
    let value2 := { value2 with key := value.key }
    let (_, b, value2) ← deserializeDocument b value2
    some (b, value, value2)
  | .int32 => let (b, value) := deserializeFixed b value 4 4; some (b, value, value2)
  | .timestamp => let (b, value) := deserializeFixed b value 8 value.size; some (b, value, value2)
  | .int64 => let (b, value) := deserializeFixed b value 8 8; some (b, value, value2)
  | .min => some (b, value, value2)
  | .max => some (b, value, value2)

/-- Yields 0 at the end of the document, 1 with an element, -1 on an unknown type. -/
def bsonDeserialize (b : BsonInfo) (value value2 : BsonRef) :
    Option (ℤ × BsonInfo × BsonRef × BsonRef) :=
  if b.size < 1 then some (0, b, value, value2)
  else if b.size = 1 then
    if b.buffer[b.position]? = some 0 then some (0, advance b 1, value, value2) else none
  else do
    let type ← b.buffer[b.position]?
    let b := advance b 1
    let (_, b, value) ← deserializeCstring b { value with type := type }
    let value := { value with key := value.data, size := 0 }
    match BsonType.ofByte type with
    | none => some (-1, b, value, value2)
    | some t => (deserializePayload t b value value2).map fun r => (1, r)

/-- `EXIT_FAILURE` leaves the handle alone. -/
def bsonMakeReadable (b : BsonInfo) : Option (Bool × BsonInfo) :=
  if b.size < 5 then some (false, b)
  else do
    let n ← int32At b.buffer 0
    some (true, { b with size := u64 (n - 4), position := 4 })

/-- How every consumer opens a nested document: a handle of its own around a copy of the
`size` bytes behind `data`. -/
def openNested (h : Heap) (bytes : List UInt8) : Option (Bool × BsonInfo) :=
  bsonMakeReadable { bsonInit h with buffer := bytes }

end GammaRay.Bson
