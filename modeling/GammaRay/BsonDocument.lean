import GammaRay.BsonEncoderBytes

set_option autoImplicit false

/-!
# Document trees and their encoding

A document tree is what a producer walks over: one `bson_serialize` per element, nested
documents serialised into a handle of their own and finalised first. `Document.body` is
the byte string of the elements by the layout of each type, with no buffer in sight.
-/
namespace GammaRay.Bson
open Bytes

/-- A key that survives as a C string. -/
structure Key where
  bytes : List UInt8
  noNul : 0 ∉ bytes

mutual

inductive Value where
  | double (b : Vector UInt8 8)
  | string (s : List UInt8)
  | embeddedDocument (d : Document)
  | array (d : Document)
  | binary (subtype : UInt8) (data : List UInt8)
  | undefined
  | objectid (b : Vector UInt8 12)
  | boolean (b : Bool)
  | utcDatetime (b : Vector UInt8 8)
  | null
  | dbpointer (s : List UInt8) (id : Vector UInt8 12)
  | js (s : List UInt8)
  | symbol (s : List UInt8)
  | int32 (b : Vector UInt8 4)
  | timestamp (b : Vector UInt8 8)
  | int64 (b : Vector UInt8 8)
  | min
  | max

inductive Document where
  | nil
  | cons (key : Key) (value : Value) (rest : Document)

end

def Value.type : Value → BsonType
  | .double _ => .double
  | .string _ => .string
  | .embeddedDocument _ => .embeddedDocument
  | .array _ => .array
  | .binary _ _ => .binary
  | .undefined => .undefined
  | .objectid _ => .objectid
  | .boolean _ => .boolean
  | .utcDatetime _ => .utcDatetime
  | .null => .null
  | .dbpointer _ _ => .dbpointer
  | .js _ => .js
  | .symbol _ => .symbol
  | .int32 _ => .int32
  | .timestamp _ => .timestamp
  | .int64 _ => .int64
  | .min => .min
  | .max => .max

/-- A key and a value with plain bytes behind `data`. -/
def plainKv (t : BsonType) (key : Key) (size : ℤ) (data : List UInt8) : BsonKv :=
  ⟨t, 0, size, key.bytes, .bytes data⟩

mutual

/-- The `struct bson_kv` a producer fills in for a value. The strings of the
packed types carry their own length. -/
def Value.kv (h : Heap) (key : Key) : Value → Option BsonKv
  | .double b => some (plainKv .double key 8 b.toList)
  | .string s => some (plainKv .string key s.length s)
  | .embeddedDocument d => do
    let b ← d.serialize h (bsonInit h)
    let b ← bsonFinalize h b
    some ⟨.embeddedDocument, 0, 0, key.bytes, .document b⟩
  | .array d => do
    let b ← d.serialize h (bsonInit h)
    let b ← bsonFinalize h b
    some ⟨.array, 0, 0, key.bytes, .document b⟩
  | .binary subtype data => some ⟨.binary, subtype, data.length, key.bytes, .bytes data⟩
  | .undefined => some (plainKv .undefined key 0 [])
  | .objectid b => some (plainKv .objectid key 12 b.toList)
  | .boolean b => some (plainKv .boolean key 1 [if b then 1 else 0])
  | .utcDatetime b => some (plainKv .utcDatetime key 8 b.toList)
  | .null => some (plainKv .null key 0 [])
  | .dbpointer s id => some (plainKv .dbpointer key 0 (i32Bytes s.length ++ (s ++ id.toList)))
  | .js s => some (plainKv .js key 0 (i32Bytes s.length ++ s))
  | .symbol s => some (plainKv .symbol key 0 (i32Bytes s.length ++ s))
  | .int32 b => some (plainKv .int32 key 4 b.toList)
  | .timestamp b => some (plainKv .timestamp key 8 b.toList)
  | .int64 b => some (plainKv .int64 key 8 b.toList)
  | .min => some (plainKv .min key 0 [])
  | .max => some (plainKv .max key 0 [])

def Document.serialize (h : Heap) : Document → BsonInfo → Option BsonInfo
  | .nil, b => some b
  | .cons key value rest, b => do
    let kv ← value.kv h key
    let b ← bsonSerialize h b kv
    rest.serialize h b

end

/-- A finished document in a fresh buffer. -/
def Document.encode (h : Heap) (d : Document) : Option BsonInfo := do
  let b ← d.serialize h (bsonInit h)
  bsonFinalize h b

mutual

def Value.payload : Value → List UInt8
  | .double b => b.toList
  | .string s => stringBytes s
  | .embeddedDocument d => frame d.body
  | .array d => frame d.body
  | .binary subtype data => i32Bytes data.length ++ ([subtype] ++ data)
  | .undefined => []
  | .objectid b => b.toList
  | .boolean b => [if b then 0x01 else 0x00]
  | .utcDatetime b => b.toList
  | .null => []
  | .dbpointer s id => stringBytes s ++ id.toList
  | .js s => stringBytes s
  | .symbol s => stringBytes s
  | .int32 b => b.toList
  | .timestamp b => b.toList
  | .int64 b => b.toList
  | .min => []
  | .max => []

/-- The elements of a document one after the other. -/
def Document.body : Document → List UInt8
  | .nil => []
  | .cons key value rest =>
    [value.type.code] ++ ((key.bytes ++ [0]) ++ (value.payload ++ rest.body))

end

/-- The descriptor of a value puts the payload of the value behind its key. -/
structure Describes (h : Heap) (key : Key) (v : Value) (kv : BsonKv) : Prop where
  type : kv.type = v.type
  key : kv.key = key.bytes
  appends : Appends (fun b => serializePayload h b kv) v.payload

theorem Describes.fixed (h : Heap) (key : Key) (v : Value) (kv : BsonKv) (width : ℕ)
    (data : List UInt8) (ht : kv.type = v.type) (hk : kv.key = key.bytes)
    (hs : ∀ b, serializePayload h b kv = serializeFixed h b width data)
    (hd : data.length = width) (hp : v.payload = data) : Describes h key v kv := by
  refine ⟨ht, hk, ?_⟩
  rw [hp, funext hs]
  exact serializeFixed_appends h width data hd

theorem Describes.empty (h : Heap) (key : Key) (v : Value) (kv : BsonKv)
    (ht : kv.type = v.type) (hk : kv.key = key.bytes)
    (hs : ∀ b, serializePayload h b kv = some b) (hp : v.payload = []) :
    Describes h key v kv := by
  refine ⟨ht, hk, ?_⟩
  rw [hp, funext hs]
  exact some_appends

theorem Describes.packed (h : Heap) (key : Key) (v : Value) (kv : BsonKv) (s : List UInt8)
    (ht : kv.type = v.type) (hk : kv.key = key.bytes)
    (hs : ∀ b, serializePayload h b kv =
      (serializePacked h b (i32Bytes s.length ++ s)).bind fun r => some r.1)
    (hp : v.payload = stringBytes s) : Describes h key v kv := by
  have hr := serializePacked_appends h s [] (g := fun _ => some) some_appends
  rw [List.append_nil, List.append_nil] at hr
  refine ⟨ht, hk, ?_⟩
  rw [hp, funext hs]
  exact hr

theorem Describes.nested (h : Heap) (key : Key) (v : Value) (kv : BsonKv) {d : BsonInfo}
    {body : List UInt8} (ht : kv.type = v.type) (hk : kv.key = key.bytes)
    (hs : ∀ b, serializePayload h b kv = serializeDocument h b d)
    (hd : Finished d (frame body)) (hp : v.payload = frame body) : Describes h key v kv := by
  refine ⟨ht, hk, ?_⟩
  rw [hp, funext hs]
  exact serializeDocument_appends h hd

theorem encode_finished (h : Heap) (d : Document) (hd : d.body.length + 5 ≤ maxSize)
    (ha : Appends (d.serialize h) d.body) :
    ∃ b, d.encode h = some b ∧ Finished b (frame d.body) := by
  obtain ⟨b, hb, hw⟩ := ha _ _ (bsonInit_holds h) (by rw [List.length_nil]; omega)
  obtain ⟨b', hb', hf⟩ := bsonFinalize_finished h hw hd
  refine ⟨b', ?_, hf⟩
  rw [Document.encode, hb]
  exact hb'

theorem kv_embeddedDocument (h : Heap) (key : Key) {d : Document} {b : BsonInfo}
    (hb : d.encode h = some b) :
    (Value.embeddedDocument d).kv h key =
      some ⟨.embeddedDocument, 0, 0, key.bytes, .document b⟩ := by
  rw [Document.encode, Option.bind_eq_bind] at hb
  rw [Value.kv, Option.bind_eq_bind, ← Option.bind_assoc, hb, Option.bind_some]

theorem kv_array (h : Heap) (key : Key) {d : Document} {b : BsonInfo}
    (hb : d.encode h = some b) :
    (Value.array d).kv h key = some ⟨.array, 0, 0, key.bytes, .document b⟩ := by
  rw [Document.encode, Option.bind_eq_bind] at hb
  rw [Value.kv, Option.bind_eq_bind, ← Option.bind_assoc, hb, Option.bind_some]

mutual

theorem Value.kv_describes (h : Heap) (key : Key) :
    ∀ v : Value, v.payload.length ≤ maxSize → ∃ kv, v.kv h key = some kv ∧ Describes h key v kv
  | .double b, _ =>
    ⟨_, rfl, .fixed h key _ _ 8 b.toList rfl rfl (fun _ => rfl) b.length_toList rfl⟩
  | .string s, _ => by
    have hr := serializeString_appends h s []
    rw [List.append_nil] at hr
    exact ⟨_, rfl, rfl, rfl, hr⟩
  | .embeddedDocument d, hv => by
    have hd : d.body.length + 5 ≤ maxSize := by simpa [Value.payload] using hv
    obtain ⟨b, hb, hf⟩ := encode_finished h d hd (Document.serialize_appends h d (by omega))
    exact ⟨_, kv_embeddedDocument h key hb, .nested h key _ _ rfl rfl (fun _ => rfl) hf rfl⟩
  | .array d, hv => by
    have hd : d.body.length + 5 ≤ maxSize := by simpa [Value.payload] using hv
    obtain ⟨b, hb, hf⟩ := encode_finished h d hd (Document.serialize_appends h d (by omega))
    exact ⟨_, kv_array h key hb, .nested h key _ _ rfl rfl (fun _ => rfl) hf rfl⟩
  | .binary subtype data, _ => ⟨_, rfl, rfl, rfl, serializeBinary_appends h subtype data⟩
  | .undefined, _ => ⟨_, rfl, .empty h key _ _ rfl rfl (fun _ => rfl) rfl⟩
  | .objectid b, _ =>
    ⟨_, rfl, .fixed h key _ _ 12 b.toList rfl rfl (fun _ => rfl) b.length_toList rfl⟩
  | .boolean b, _ => by
    have hr := serializeBoolean_appends h (if b then 1 else 0)
    refine ⟨_, rfl, rfl, rfl, ?_⟩
    cases b <;> exact hr
  | .utcDatetime b, _ =>
    ⟨_, rfl, .fixed h key _ _ 8 b.toList rfl rfl (fun _ => rfl) b.length_toList rfl⟩
  | .null, _ => ⟨_, rfl, .empty h key _ _ rfl rfl (fun _ => rfl) rfl⟩
  | .dbpointer s id, _ =>
    ⟨_, rfl, rfl, rfl, serializePacked_appends h s id.toList
      (g := fun rest b => serializeObjectid h b rest)
      (serializeFixed_appends h 12 id.toList id.length_toList)⟩
  | .js s, _ => ⟨_, rfl, .packed h key _ _ s rfl rfl (fun _ => rfl) rfl⟩
  | .symbol s, _ => ⟨_, rfl, .packed h key _ _ s rfl rfl (fun _ => rfl) rfl⟩
  | .int32 b, _ =>
    ⟨_, rfl, .fixed h key _ _ 4 b.toList rfl rfl (fun _ => rfl) b.length_toList rfl⟩
  | .timestamp b, _ =>
    ⟨_, rfl, .fixed h key _ _ 8 b.toList rfl rfl (fun _ => rfl) b.length_toList rfl⟩
  | .int64 b, _ =>
    ⟨_, rfl, .fixed h key _ _ 8 b.toList rfl rfl (fun _ => rfl) b.length_toList rfl⟩
  | .min, _ => ⟨_, rfl, .empty h key _ _ rfl rfl (fun _ => rfl) rfl⟩
  | .max, _ => ⟨_, rfl, .empty h key _ _ rfl rfl (fun _ => rfl) rfl⟩

theorem Document.serialize_appends (h : Heap) :
    ∀ d : Document, d.body.length ≤ maxSize → Appends (d.serialize h) d.body
  | .nil, _ => some_appends
  | .cons key value rest, hd => by
    have hlen := hd
    simp only [Document.body, List.length_append, List.length_cons, List.length_nil] at hlen
    obtain ⟨kv, hkv, hdesc⟩ := Value.kv_describes h key value (by omega)
    have hrest := Document.serialize_appends h rest (by omega)
    have hz : 0 ∉ kv.key := by rw [hdesc.key]; exact key.noNul
    have hr := (serializeElement_appends h kv hz hdesc.appends).bind hrest
    rw [hdesc.type, hdesc.key, List.append_assoc, List.append_assoc (key.bytes ++ [0])] at hr
    intro b w hb hroom
    obtain ⟨b', he, hb'⟩ := hr b w hb hroom
    refine ⟨b', ?_, hb'⟩
    rw [Document.serialize, hkv]
    exact he

end

theorem Document.encode_frame (h : Heap) (d : Document) (hd : (frame d.body).length ≤ maxSize) :
    ∃ b, d.encode h = some b ∧ Finished b (frame d.body) := by
  rw [frame_length] at hd
  exact encode_finished h d hd (d.serialize_appends h (by omega))

end GammaRay.Bson
