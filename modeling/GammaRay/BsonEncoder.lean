import GammaRay.Bytes

set_option autoImplicit false

/-!
# The BSON encoder

`bson-encoder.c`. Allocation is taken to succeed, so the NULL tests of the source
are always false and every `serialize_*` function ends with `EXIT_SUCCESS`. `none`
stands for a call with no defined result: a copy outside its buffer, a signed shift
past `INT32_MAX`, a loop that never ends.
-/
namespace GammaRay.Bson
open Bytes

inductive BsonType where
  | double | string | embeddedDocument | array | binary | undefined | objectid
  | boolean | utcDatetime | null | regex | dbpointer | js | symbol | jsCode
  | int32 | timestamp | int64 | min | max
  deriving DecidableEq, Repr

def BsonType.code : BsonType → UInt8
  | .double => 0x01
  | .string => 0x02
  | .embeddedDocument => 0x03
  | .array => 0x04
  | .binary => 0x05
  | .undefined => 0x06
  | .objectid => 0x07
  | .boolean => 0x08
  | .utcDatetime => 0x09
  | .null => 0x0a
  | .regex => 0x0b
  | .dbpointer => 0x0c
  | .js => 0x0d
  | .symbol => 0x0e
  | .jsCode => 0x0f
  | .int32 => 0x10
  | .timestamp => 0x11
  | .int64 => 0x12
  | .min => 0xff
  | .max => 0x7f

/-- `struct bson_info`; the buffer is all of the allocation, used or not. -/
structure BsonInfo where
  size : ℕ
  fOffset : ℕ
  position : ℕ
  buffer : List UInt8
  deriving DecidableEq, Repr

/-- What `value->data` points at: plain bytes, a document, or the packed code string
of `BSON_JS_CODE` with its scope document behind it. -/
inductive BsonData where
  | bytes (b : List UInt8)
  | document (d : BsonInfo)
  | codeWithScope (b : List UInt8) (scope : BsonInfo)
  deriving DecidableEq, Repr

/-- `struct bson_kv` as the encoder reads it. -/
structure BsonKv where
  type : BsonType
  subtype : UInt8
  size : ℤ
  key : List UInt8
  data : BsonData
  deriving DecidableEq, Repr

def startSize : ℕ := 4096

def bsonInit (h : Heap) : BsonInfo := ⟨startSize, 0, 0, h.malloc startSize⟩

/-- The loop of `new_size`. A positive `int32_t` can be doubled at most thirty times. -/
def newSizeLoop : ℕ → ℤ → ℤ → Option ℤ
  | 0, old, needed => if old < needed then none else some old
  | fuel + 1, old, needed =>
    if old < needed then
      if 0 < old ∧ 2 * old < 2 ^ 31 then newSizeLoop fuel (2 * old) needed else none
    else some old

def newSize (oldSize neededSize : ℤ) : Option ℤ := newSizeLoop 31 oldSize neededSize

def resize (h : Heap) (b : BsonInfo) (neededSize : ℤ) : Option BsonInfo := do
  let oldSize := i32 b.size
  let size ← newSize oldSize neededSize
  if 0 ≤ oldSize ∧ oldSize ≤ b.buffer.length ∧ oldSize ≤ u64 size then
    some { b with
      size := u64 size
      buffer := b.buffer.take oldSize.toNat ++ (h.malloc (u64 size)).drop oldSize.toNat }
  else none

def checkSize (h : Heap) (b : BsonInfo) (addedSize : ℤ) : Option BsonInfo :=
  if b.size < u64 (b.position + addedSize) then
    resize h b (i32 (u64 (b.position + addedSize)))
  else some b

/-- `memcpy` to the write position, which then moves past the copy. -/
def put (src : List UInt8) (b : BsonInfo) : Option BsonInfo :=
  if b.position + src.length ≤ b.buffer.length then
    some { b with
      buffer := splice b.buffer b.position src
      position := b.position + src.length }
  else none

/-- The first `len` bytes behind a pointer, for a `len` that is a valid copy length. -/
def copyLen (len : ℤ) (src : List UInt8) : Option (List UInt8) :=
  if 0 ≤ len ∧ len ≤ src.length then some (src.take len.toNat) else none

def serializeCstring (h : Heap) (b : BsonInfo) (cstr : List UInt8) : Option BsonInfo := do
  let str := cstr.takeWhile (· ≠ 0)
  let b ← checkSize h b (i32 (str.length + 1))
  put (str ++ [0]) b

def serializeString (h : Heap) (b : BsonInfo) (len : ℤ) (str : List UInt8) :
    Option BsonInfo := do
  let strSize := i32 (len + 1)
  let b ← checkSize h b (i32 (strSize + 4))
  let b ← put (i32Bytes strSize) b
  let bytes ← copyLen len str
  let b ← put bytes b
  put [0] b

/-- The shape shared by the fixed-width payloads. -/
def serializeFixed (h : Heap) (b : BsonInfo) (width : ℕ) (data : List UInt8) :
    Option BsonInfo := do
  let b ← checkSize h b width
  let bytes ← copyLen width data
  put bytes b

def serializeDouble (h : Heap) (b : BsonInfo) (dbl : List UInt8) : Option BsonInfo :=
  serializeFixed h b 8 dbl

def serializeInt32 (h : Heap) (b : BsonInfo) (int32 : List UInt8) : Option BsonInfo :=
  serializeFixed h b 4 int32

def serializeInt64 (h : Heap) (b : BsonInfo) (int64 : List UInt8) : Option BsonInfo :=
  serializeFixed h b 8 int64

def serializeObjectid (h : Heap) (b : BsonInfo) (objectid : List UInt8) : Option BsonInfo :=
  serializeFixed h b 12 objectid

def serializeBoolean (h : Heap) (b : BsonInfo) (boolean : List UInt8) : Option BsonInfo := do
  let b ← checkSize h b 1
  let byte ← boolean.head?
  put [if byte ≠ 0 then 0x01 else 0x00] b

def serializeDocument (h : Heap) (b document : BsonInfo) : Option BsonInfo := do
  let b ← checkSize h b (i32 document.position)
  let bytes ← copyLen document.position document.buffer
  put bytes b

def serializeBinary (h : Heap) (b : BsonInfo) (len : ℤ) (subtype : UInt8)
    (binary : List UInt8) : Option BsonInfo := do
  let b ← checkSize h b (i32 (4 + 1 + len))
  let b ← put (i32Bytes len) b
  let b ← put [subtype] b
  let bytes ← copyLen len binary
  put bytes b

/-- `*((int32_t*) data)` at the front of a packed tuple. -/
def packedLen (data : List UInt8) : Option ℤ :=
  if 4 ≤ data.length then some (i32 (leNat (data.take 4))) else none

/-- `serialize_string` on a packed length and its bytes; yields what lies behind them. -/
def serializePacked (h : Heap) (b : BsonInfo) (data : List UInt8) :
    Option (BsonInfo × List UInt8) := do
  let len ← packedLen data
  let b ← serializeString h b len (data.drop 4)
  some (b, data.drop (4 + len.toNat))

/-- The part of `serialize_element` that follows the type byte and the key. -/
def serializePayload (h : Heap) (b : BsonInfo) (value : BsonKv) : Option BsonInfo :=
  match value.type, value.data with
  | .double, .bytes d => serializeDouble h b d
  | .string, .bytes d => serializeString h b value.size d
  | .embeddedDocument, .document d => serializeDocument h b d
  | .array, .document d => serializeDocument h b d
  | .binary, .bytes d => serializeBinary h b value.size value.subtype d
  | .undefined, _ => some b
  | .objectid, .bytes d => serializeObjectid h b d
  | .boolean, .bytes d => serializeBoolean h b d
  | .utcDatetime, .bytes d => serializeInt64 h b d
  | .null, _ => some b
  | .regex, .bytes d => do
    let (b, rest) ← serializePacked h b d
    let (b, _) ← serializePacked h b rest
    some b
  | .dbpointer, .bytes d => do
    let (b, rest) ← serializePacked h b d
    serializeObjectid h b rest
  | .js, .bytes d => do
    let (b, _) ← serializePacked h b d
    some b
  | .symbol, .bytes d => do
    let (b, _) ← serializePacked h b d
    some b
  | .jsCode, .codeWithScope d scope => do
    let (b, _) ← serializePacked h b d
    serializeDocument h b scope
  | .int32, .bytes d => serializeInt32 h b d
  | .timestamp, .bytes d => serializeInt64 h b d
  | .int64, .bytes d => serializeInt64 h b d
  | .min, _ => some b
  | .max, _ => some b
  | _, _ => none

def serializeElement (h : Heap) (b : BsonInfo) (value : BsonKv) : Option BsonInfo := do
  let b ← checkSize h b 1
  let b ← put [value.type.code] b
  let b ← serializeCstring h b value.key
  serializePayload h b value

def bsonSerialize (h : Heap) (b : BsonInfo) (value : BsonKv) : Option BsonInfo :=
  serializeElement h b value

/-- In place: the body moves up by four bytes to make room for the length prefix. -/
def bsonFinalize (h : Heap) (b : BsonInfo) : Option BsonInfo := do
  let b ← checkSize h b 5
  let totalBytes := i32 (b.position + 5)
  if b.position + 5 ≤ b.buffer.length then
    let moved := splice b.buffer 4 (b.buffer.take b.position)
    put [0] { b with
      buffer := splice moved 0 (i32Bytes totalBytes)
      position := b.position + 4 }
  else none

end GammaRay.Bson
