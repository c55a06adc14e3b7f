import GammaRay.BsonDecoder
import GammaRay.BsonDocument

set_option autoImplicit false

/-!
# Decoding what the encoder wrote

`Cursor` says where the decoder stands: what is still unread, and that both of its
counters agree with it. Each branch of `bson_deserialize` takes the payload of one
element off the front of the unread bytes.
-/
namespace GammaRay.Bson
open Bytes

/-- The bytes behind a pointer the decoder handed out. -/
def bytesAt (buffer : List UInt8) (offset len : ℕ) : List UInt8 := (buffer.drop offset).take len

structure Cursor (b : BsonInfo) (total : ℕ) (unread : List UInt8) : Prop where
  ahead : ∃ junk, b.buffer.drop b.position = unread ++ junk
  size : b.size = unread.length
  position : b.position + unread.length = total
  total_lt : total < 2 ^ 31

/-- Both counters after a step of `n` bytes that leaves `left` unread. -/
def BsonInfo.past (b : BsonInfo) (n left : ℕ) : BsonInfo :=
  { b with position := b.position + n, size := left }

section Step

variable {b : BsonInfo} {total : ℕ} {x y : List UInt8}

theorem Cursor.fits (hc : Cursor b total x) (hx : x ≠ []) :
    b.position + x.length ≤ b.buffer.length := by
  obtain ⟨junk, hj⟩ := hc.ahead
  have hl := congrArg List.length hj
  have hpos := List.length_pos_iff.mpr hx
  simp only [List.length_drop, List.length_append] at hl
  omega

theorem Cursor.advance_eq (hc : Cursor b total (x ++ y)) {n : ℤ} (hn : n = x.length) :
    advance b n = b.past x.length y.length := by
  have hp := hc.position
  have ht := hc.total_lt
  rw [List.length_append] at hp
  have hpos : u64 ((b.position : ℤ) + x.length) = b.position + x.length := by
    rw [← Nat.cast_add, u64_natCast (by omega)]
  have hsize : u64 ((b.size : ℤ) - x.length) = y.length := by
    have hcast : (b.size : ℤ) - x.length = ((y.length : ℕ) : ℤ) := by
      rw [hc.size, List.length_append]
      omega
    rw [hcast, u64_natCast (by omega)]
  rw [advance, hn, hpos, hsize, BsonInfo.past]

theorem Cursor.next (hc : Cursor b total (x ++ y)) :
    Cursor (b.past x.length y.length) total y := by
  obtain ⟨junk, hj⟩ := hc.ahead
  have hp := hc.position
  rw [List.length_append] at hp
  refine ⟨⟨junk, ?_⟩, rfl, ?_, hc.total_lt⟩
  · change b.buffer.drop (b.position + x.length) = _
    rw [← List.drop_drop, hj, List.append_assoc, List.drop_left]
  · change b.position + x.length + y.length = total
    omega

theorem Cursor.bytesAt (hc : Cursor b total (x ++ y)) :
    bytesAt b.buffer b.position x.length = x := by
  obtain ⟨junk, hj⟩ := hc.ahead
  rw [Bson.bytesAt, hj, List.append_assoc, List.take_left]

theorem Cursor.getElem (hc : Cursor b total (x ++ y)) {a : UInt8} (hx : x = [a]) :
    b.buffer[b.position]? = some a := by
  obtain ⟨junk, hj⟩ := hc.ahead
  have h0 : (b.buffer.drop b.position)[0]? = some a := by
    rw [hj, hx]
    rfl
  rwa [List.getElem?_drop, Nat.add_zero] at h0

theorem Cursor.int32At {n : ℤ} (hc : Cursor b total (i32Bytes n ++ y)) (hl : -2 ^ 31 ≤ n)
    (hu : n < 2 ^ 31) : int32At b.buffer b.position = some n := by
  have h4 : (i32Bytes n).length = 4 := i32Bytes_length n
  have hne : i32Bytes n ++ y ≠ [] := by
    intro he
    have := congrArg List.length he
    rw [List.length_append, h4, List.length_nil] at this
    omega
  have hfits := hc.fits hne
  rw [List.length_append, h4] at hfits
  have hb := hc.bytesAt
  rw [h4, Bson.bytesAt] at hb
  rw [Bson.int32At, if_pos (by omega), hb, i32_leNat_i32Bytes hl hu]

@[simp] theorem past_buffer (n left : ℕ) : (b.past n left).buffer = b.buffer := rfl

@[simp] theorem past_position (n left : ℕ) : (b.past n left).position = b.position + n := rfl

theorem past_past (m n k l : ℕ) : (b.past m k).past n l = b.past (m + n) l := by
  simp only [BsonInfo.past, Nat.add_assoc]

theorem deserializeCstring_cursor (kv : BsonRef) {str : List UInt8} (hz : 0 ∉ str)
    (hc : Cursor b total ((str ++ [0]) ++ y)) :
    cstringAt b.buffer b.position = str ∧ ∃ ok, deserializeCstring b kv =
      some (ok, b.past (str ++ [0]).length y.length, { kv with data := b.position }) := by
  obtain ⟨junk, hj⟩ := hc.ahead
  rw [List.append_assoc, List.append_assoc, List.singleton_append] at hj
  have hstr : cstringAt b.buffer b.position = str := by
    rw [cstringAt, hj, takeWhile_cstring str _ hz]
  have hlen : strlen b.buffer b.position = some str.length := by
    rw [strlen, hj, takeWhile_cstring str _ hz, if_pos (by simp)]
  have hadv := hc.advance_eq (n := (str.length : ℤ) + 1) (by simp)
  refine ⟨hstr, ?_⟩
  rw [deserializeCstring, hlen, Option.bind_eq_bind, Option.bind_some, hadv]
  exact ⟨_, rfl⟩

theorem deserializeString_cursor (kv : BsonRef) {s : List UInt8}
    (hc : Cursor b total (stringBytes s ++ y)) :
    bytesAt b.buffer (b.position + 4) s.length = s ∧ ∃ ok, deserializeString b kv =
      some (ok, b.past (stringBytes s).length y.length,
        { kv with size := s.length, data := b.position + 4 }) := by
  have hp := hc.position
  have ht := hc.total_lt
  have h4 : (i32Bytes ((s.length : ℤ) + 1)).length = 4 := i32Bytes_length _
  rw [List.length_append, stringBytes_length] at hp
  have hc₁ : Cursor b total (i32Bytes (s.length + 1) ++ ((s ++ [0]) ++ y)) := by
    rwa [stringBytes, List.append_assoc] at hc
  have hn := hc₁.int32At (by omega) (by omega)
  have ha₁ := hc₁.advance_eq (n := 4) (by rw [h4]; rfl)
  have hc₂ := hc₁.next
  rw [h4] at ha₁ hc₂
  have ha₂ := hc₂.advance_eq (n := (s.length : ℤ) + 1) (by simp)
  have hb := hc₂
  rw [List.append_assoc] at hb
  have hi₁ : i32 ((s.length : ℤ) + 1 - 1) = s.length := by
    rw [Int.add_sub_cancel]
    exact i32_of_range (by omega) (by omega)
  have hi₂ : i32 ((s.length : ℤ) + 1) = s.length + 1 := i32_of_range (by omega) (by omega)
  have hlen : 4 + (s ++ [(0 : UInt8)]).length = (stringBytes s).length := by
    simp only [stringBytes_length, List.length_append, List.length_singleton]
    omega
  refine ⟨hb.bytesAt, ?_⟩
  rw [deserializeString, hn, Option.bind_eq_bind, Option.bind_some]
  dsimp only
  rw [hi₁, hi₂, ha₁, ha₂, past_past, hlen]
  exact ⟨_, rfl⟩

theorem deserializeDocument_cursor (kv : BsonRef) {body : List UInt8}
    (hc : Cursor b total (frame body ++ y)) :
    deserializeDocument b kv = some (true, b.past (frame body).length y.length,
      { kv with size := (frame body).length, data := b.position }) := by
  have hp := hc.position
  have ht := hc.total_lt
  rw [List.length_append, frame_length] at hp
  have hc₁ : Cursor b total (i32Bytes (body.length + 5) ++ ((body ++ [0]) ++ y)) := by
    rwa [frame, List.append_assoc] at hc
  have hn := hc₁.int32At (by omega) (by omega)
  have ha := hc.advance_eq (n := (body.length : ℤ) + 5) (by rw [frame_length]; rfl)
  rw [deserializeDocument, hn, Option.bind_eq_bind, Option.bind_some, ha, frame_length]
  rfl

theorem deserializeBinary_cursor (kv : BsonRef) {subtype : UInt8} {data : List UInt8}
    (hc : Cursor b total ((i32Bytes data.length ++ ([subtype] ++ data)) ++ y)) :
    bytesAt b.buffer (b.position + 5) data.length = data ∧ deserializeBinary b kv =
      some (b.past (i32Bytes data.length ++ ([subtype] ++ data)).length y.length,
        { kv with size := data.length, subtype := subtype, data := b.position + 5 }) := by
  have hp := hc.position
  have ht := hc.total_lt
  have h4 : (i32Bytes (data.length : ℤ)).length = 4 := i32Bytes_length _
  rw [List.length_append, List.length_append, List.length_append, h4] at hp
  rw [List.append_assoc, List.append_assoc] at hc
  have hn := hc.int32At (by omega) (by omega)
  have ha₁ := hc.advance_eq (n := 4) (by rw [h4]; rfl)
  have hc₁ := hc.next
  rw [h4] at ha₁ hc₁
  have hs := hc₁.getElem rfl
  have ha₂ := hc₁.advance_eq (n := 1) rfl
  have hc₂ := hc₁.next
  have ha₃ := hc₂.advance_eq (n := (data.length : ℤ)) rfl
  refine ⟨hc₂.bytesAt, ?_⟩
  rw [deserializeBinary, hn, Option.bind_eq_bind, Option.bind_some]
  dsimp only
  rw [ha₁, hs, Option.bind_eq_bind, Option.bind_some, ha₂, ha₃]
  simp only [past_past, past_position, List.length_append, h4, List.length_singleton,
    Nat.add_assoc]

end Step

theorem bsonMakeReadable_frame {b : BsonInfo} {body : List UInt8} (hs : 5 ≤ b.size)
    (hb : b.buffer.take (frame body).length = frame body) (hle : (frame body).length < 2 ^ 31) :
    ∃ r, bsonMakeReadable b = some (true, r) ∧ r.buffer = b.buffer ∧
      Cursor r (frame body).length (body ++ [0]) ∧
      int32At r.buffer 0 = some ((frame body).length : ℤ) := by
  have h4 : (i32Bytes ((body.length : ℤ) + 5)).length = 4 := i32Bytes_length _
  have hstart : Cursor { b with position := 0, size := (frame body).length } (frame body).length
      (frame body) := by
    refine ⟨⟨b.buffer.drop (frame body).length, ?_⟩, rfl, Nat.zero_add _, by omega⟩
    have hsplit := List.take_append_drop (frame body).length b.buffer
    rw [hb] at hsplit
    exact hsplit.symm
  rw [frame_length] at hle
  have hc : Cursor { b with position := 0, size := (frame body).length } (frame body).length
      (i32Bytes (body.length + 5) ++ (body ++ [0])) := hstart
  have hn := hc.int32At (by omega) (by omega)
  have hlen : (body ++ [(0 : UInt8)]).length = body.length + 1 := by simp
  have hu : u64 ((body.length : ℤ) + 5 - 4) = body.length + 1 := by
    have hcast : (body.length : ℤ) + 5 - 4 = ((body.length + 1 : ℕ) : ℤ) := by push_cast; ring
    rw [hcast, u64_natCast (by omega)]
  have hnext := hc.next
  rw [h4, hlen] at hnext
  refine ⟨{ b with position := 4, size := body.length + 1 }, ?_, rfl, hnext, ?_⟩
  · rw [bsonMakeReadable, if_neg (by omega), hn, Option.bind_eq_bind, Option.bind_some, hu]
  · rw [frame_length]
    exact hn

/-- `size` bytes behind `data`. -/
def SizedAt (buffer : List UInt8) (r : BsonRef) (x : List UInt8) : Prop :=
  r.size = x.length ∧ bytesAt buffer r.data r.size.toNat = x

/-- A payload whose width the type fixes. -/
def FixedAt (buffer : List UInt8) (r : BsonRef) (width : ℕ) (x : List UInt8) : Prop :=
  bytesAt buffer r.data width = x

mutual

/-- The value comes back in `r`, its second part in `r2`. -/
def Value.Matches (h : Heap) (buffer : List UInt8) (r r2 : BsonRef) : Value → Prop
  | .double b => FixedAt buffer r 8 b.toList
  | .string s => SizedAt buffer r s
  | .embeddedDocument d =>
    ∃ n s, d.encode h = some n ∧ SizedAt buffer r2 (n.buffer.take n.position) ∧
      openNested h (bytesAt buffer r2.data r2.size.toNat) = some (true, s) ∧ d.Yields h s
  | .array d =>
    ∃ n s, d.encode h = some n ∧ SizedAt buffer r2 (n.buffer.take n.position) ∧
      openNested h (bytesAt buffer r2.data r2.size.toNat) = some (true, s) ∧ d.Yields h s
  | .binary subtype data => r.subtype = subtype ∧ SizedAt buffer r data
  | .undefined => True
  | .objectid b => FixedAt buffer r 12 b.toList
  | .boolean b => FixedAt buffer r 1 [if b then 1 else 0]
  | .utcDatetime b => FixedAt buffer r 8 b.toList
  | .null => True
  | .dbpointer s id => SizedAt buffer r s ∧ FixedAt buffer r2 12 id.toList
  | .js s => SizedAt buffer r s
  | .symbol s => SizedAt buffer r s
  | .int32 b => FixedAt buffer r 4 b.toList
  | .timestamp b => FixedAt buffer r 8 b.toList
  | .int64 b => FixedAt buffer r 8 b.toList
  | .min => True
  | .max => True

/-- Repeated `bson_deserialize` yields the elements of a document one by one, whatever
the two `bson_kv` held before, and then 0 with both counters at their end. -/
def Document.Yields (h : Heap) : Document → BsonInfo → Prop
  | .nil, b => ∀ r r2, ∃ b', bsonDeserialize b r r2 = some (0, b', r, r2) ∧ b'.size = 0 ∧
      int32At b.buffer 0 = some (b'.position : ℤ)
  | .cons key value rest, b => ∀ r r2, ∃ b' s s2,
      bsonDeserialize b r r2 = some (1, b', s, s2) ∧ b'.buffer = b.buffer ∧
      s.type = value.type.code ∧ cstringAt b.buffer s.key = key.bytes ∧
      value.Matches h b.buffer s s2 ∧ rest.Yields h b'

end

section Payload

variable {b : BsonInfo} {total : ℕ} {y : List UInt8}

/-- One payload taken off the front of the unread bytes. -/
def Parses (h : Heap) (v : Value) (b : BsonInfo) (total : ℕ) (y : List UInt8) (r r2 : BsonRef) :
    Prop :=
  ∃ s s2, deserializePayload v.type b r r2 =
      some (b.past v.payload.length y.length, s, s2) ∧
    s.type = r.type ∧ s.key = r.key ∧ (total ≤ maxSize → v.Matches h b.buffer s s2)

theorem Parses.fixed (h : Heap) (v : Value) (r r2 : BsonRef) (width : ℕ) (size : ℤ)
    {x : List UInt8} (hx : x.length = width) (hp : v.payload = x)
    (hd : deserializePayload v.type b r r2 =
      some (advance b width, { r with data := b.position, size := size }, r2))
    (hm : ∀ s s2, FixedAt b.buffer s width x → v.Matches h b.buffer s s2)
    (hc : Cursor b total (v.payload ++ y)) : Parses h v b total y r r2 := by
  subst hx
  refine ⟨{ r with data := b.position, size := size }, r2, ?_, rfl, rfl, fun _ => hm _ r2 ?_⟩
  · rw [hd, hc.advance_eq (by rw [hp])]
  · rw [hp] at hc
    exact hc.bytesAt

theorem Parses.empty (h : Heap) (v : Value) (r r2 : BsonRef) (hp : v.payload = [])
    (hd : deserializePayload v.type b r r2 = some (b, r, r2))
    (hm : v.Matches h b.buffer r r2) (hc : Cursor b total (v.payload ++ y)) :
    Parses h v b total y r r2 := by
  refine ⟨r, r2, ?_, rfl, rfl, fun _ => hm⟩
  have hs := hc.size
  rw [hp, List.nil_append] at hs
  rw [hd, hp, ← hs]
  rfl

theorem Parses.string (h : Heap) (v : Value) (r r2 : BsonRef) {s : List UInt8}
    (hp : v.payload = stringBytes s)
    (hd : deserializePayload v.type b r r2 = (deserializeString b r).bind
      fun p => some (p.2.1, p.2.2, r2))
    (hm : ∀ q q2, SizedAt b.buffer q s → v.Matches h b.buffer q q2)
    (hc : Cursor b total (v.payload ++ y)) : Parses h v b total y r r2 := by
  rw [hp] at hc
  obtain ⟨hb, ok, he⟩ := deserializeString_cursor r hc
  refine ⟨{ r with size := s.length, data := b.position + 4 }, r2, ?_, rfl, rfl,
    fun _ => hm _ r2 ⟨rfl, hb⟩⟩
  rw [hd, he, hp, Option.bind_some]

theorem Parses.nested (h : Heap) (v : Value) (d : Document) (r r2 : BsonRef)
    (hp : v.payload = frame d.body)
    (hd : deserializePayload v.type b r r2 = (deserializeDocument b r2).bind
      fun p => some (p.2.1, r, p.2.2))
    (hy : ∀ s n, n ≤ maxSize → Cursor s n (d.body ++ [0]) →
      int32At s.buffer 0 = some (n : ℤ) → d.Yields h s)
    (hm : ∀ q q2, (∃ n s, d.encode h = some n ∧ SizedAt b.buffer q2 (n.buffer.take n.position) ∧
      openNested h (bytesAt b.buffer q2.data q2.size.toNat) = some (true, s) ∧ d.Yields h s) →
      v.Matches h b.buffer q q2)
    (hc : Cursor b total (v.payload ++ y)) : Parses h v b total y r r2 := by
  rw [hp] at hc
  refine ⟨r, { r2 with size := (frame d.body).length, data := b.position }, ?_, rfl, rfl, ?_⟩
  · rw [hd, deserializeDocument_cursor r2 hc, hp, Option.bind_some]
  intro hmax
  have hle : (frame d.body).length ≤ maxSize := by
    have hpos := hc.position
    rw [List.length_append] at hpos
    omega
  obtain ⟨n, hn, hf⟩ := d.encode_frame h hle
  have htake : n.buffer.take n.position = frame d.body := by rw [hf.position, hf.contents]
  obtain ⟨s, hs, -, hcur, hint⟩ := bsonMakeReadable_frame
    (b := { bsonInit h with buffer := frame d.body }) (by simp [bsonInit, startSize])
    (List.take_length) (Nat.lt_of_le_of_lt hle (by decide))
  refine hm _ _ ⟨n, s, hn, ⟨?_, ?_⟩, ?_, hy s _ hle hcur hint⟩
  · rw [htake]
  · rw [htake]
    exact hc.bytesAt
  · rw [Int.toNat_natCast, hc.bytesAt]
    exact hs

theorem Parses.dbpointer (h : Heap) (s : List UInt8) (id : Vector UInt8 12) (r r2 : BsonRef)
    (hc : Cursor b total ((Value.dbpointer s id).payload ++ y)) :
    Parses h (.dbpointer s id) b total y r r2 := by
  rw [Value.payload, List.append_assoc] at hc
  obtain ⟨hb, ok, he⟩ := deserializeString_cursor r hc
  have ha := hc.next.advance_eq (n := 12) (by rw [id.length_toList]; rfl)
  have hid := hc.next.bytesAt
  rw [id.length_toList] at hid
  refine ⟨{ r with size := s.length, data := b.position + 4 },
    { r2 with key := r.key, data := b.position + (stringBytes s).length }, ?_, rfl, rfl,
    fun _ => ⟨⟨rfl, hb⟩, hid⟩⟩
  change (deserializeString b r).bind _ = _
  rw [he, Option.bind_some]
  dsimp only
  rw [ha, past_past, Value.payload, ← List.length_append]
  rfl

/-- The end of a document. -/
theorem Cursor.finish (r r2 : BsonRef) (hc : Cursor b total [0]) :
    bsonDeserialize b r r2 = some (0, b.past 1 0, r, r2) := by
  have hc₀ : Cursor b total ([0] ++ []) := hc
  have hs : b.size = 1 := hc.size
  rw [bsonDeserialize, if_neg (by omega), if_pos hs, if_pos (hc₀.getElem rfl),
    hc₀.advance_eq (n := 1) rfl]
  rfl

/-- The head of an element is read and the switch comes to its payload. -/
theorem bsonDeserialize_element (t : BsonType) (key : Key) (r r2 : BsonRef) {z : List UInt8}
    (hc : Cursor b total ([t.code] ++ ((key.bytes ++ [0]) ++ z))) :
    ∃ c q, bsonDeserialize b r r2 = (deserializePayload t c q r2).map (fun p => ((1 : ℤ), p)) ∧
      c.buffer = b.buffer ∧ Cursor c total z ∧ q.type = t.code ∧ q.size = 0 ∧
      cstringAt b.buffer q.key = key.bytes := by
  have hc₁ := hc.next
  have ha₁ := hc.advance_eq (n := 1) rfl
  have hsize : ¬ b.size < 1 ∧ b.size ≠ 1 := by
    have hs := hc.size
    simp only [List.length_append, List.length_cons] at hs
    omega
  obtain ⟨hkey, ok, hcstr⟩ := deserializeCstring_cursor { r with type := t.code } key.noNul hc₁
  refine ⟨(b.past 1 ((key.bytes ++ [0]) ++ z).length).past (key.bytes ++ [0]).length z.length,
    { r with type := t.code, key := b.position + 1, data := b.position + 1, size := 0 },
    ?_, rfl, hc₁.next, rfl, rfl, hkey⟩
  rw [bsonDeserialize, if_neg hsize.1, if_neg hsize.2, hc.getElem rfl, Option.bind_eq_bind,
    Option.bind_some, ha₁]
  dsimp only
  rw [hcstr, Option.bind_eq_bind, Option.bind_some]
  dsimp only
  rw [BsonType.ofByte_code]
  rfl

theorem bsonDeserialize_cons (h : Heap) (key : Key) (value : Value) (r r2 : BsonRef)
    (hc : Cursor b total ([value.type.code] ++ ((key.bytes ++ [0]) ++ (value.payload ++ y))))
    (hp : ∀ b r, Cursor b total (value.payload ++ y) → Parses h value b total y r r2) :
    ∃ b' s s2, bsonDeserialize b r r2 = some (1, b', s, s2) ∧ b'.buffer = b.buffer ∧
      s.type = value.type.code ∧ cstringAt b.buffer s.key = key.bytes ∧
      (total ≤ maxSize → value.Matches h b.buffer s s2) ∧ Cursor b' total y := by
  obtain ⟨c, q, he, hbuf, hcur, htype, -, hkey⟩ := bsonDeserialize_element value.type key r r2 hc
  obtain ⟨s, s2, hd, ht, hk, hm⟩ := hp c q hcur
  refine ⟨c.past value.payload.length y.length, s, s2, ?_, hbuf, ht.trans htype,
    by rw [hk]; exact hkey, hbuf ▸ hm, hcur.next⟩
  rw [he, hd]
  rfl

end Payload

mutual

theorem Value.parses (h : Heap) :
    ∀ (v : Value) (b : BsonInfo) (total : ℕ) (y : List UInt8) (r r2 : BsonRef),
      Cursor b total (v.payload ++ y) → Parses h v b total y r r2
  | .double x, _, _, _, r, r2, hc =>
    .fixed h _ r r2 8 8 x.length_toList rfl rfl (fun _ _ hx => hx) hc
  | .string _, _, _, _, r, r2, hc => .string h _ r r2 rfl rfl (fun _ _ hx => hx) hc
  | .embeddedDocument d, _, _, _, r, r2, hc =>
    .nested h _ d r r2 rfl rfl (fun s n hn => Document.yields h d s n hn) (fun _ _ hx => hx) hc
  | .array d, _, _, _, r, r2, hc =>
    .nested h _ d r r2 rfl rfl (fun s n hn => Document.yields h d s n hn) (fun _ _ hx => hx) hc
  | .binary subtype data, b, _, y, r, r2, hc => by
    obtain ⟨hb, he⟩ := deserializeBinary_cursor r hc
    refine ⟨{ r with size := data.length, subtype := subtype, data := b.position + 5 }, r2,
      ?_, rfl, rfl, fun _ => ⟨rfl, rfl, hb⟩⟩
    change (deserializeBinary b r).bind _ = _
    rw [he, Option.bind_some]
    rfl
  | .undefined, _, _, _, r, r2, hc => .empty h _ r r2 rfl rfl trivial hc
  | .objectid x, _, _, _, r, r2, hc =>
    .fixed h _ r r2 12 r.size x.length_toList rfl rfl (fun _ _ hx => hx) hc
  | .boolean x, _, _, _, r, r2, hc =>
    .fixed h _ r r2 1 1 rfl rfl rfl (fun _ _ hx => hx) hc
  | .utcDatetime x, _, _, _, r, r2, hc =>
    .fixed h _ r r2 8 r.size x.length_toList rfl rfl (fun _ _ hx => hx) hc
  | .null, _, _, _, r, r2, hc => .empty h _ r r2 rfl rfl trivial hc
  | .dbpointer s id, _, _, _, r, r2, hc => .dbpointer h s id r r2 hc
  | .js _, _, _, _, r, r2, hc => .string h _ r r2 rfl rfl (fun _ _ hx => hx) hc
  | .symbol _, _, _, _, r, r2, hc => .string h _ r r2 rfl rfl (fun _ _ hx => hx) hc
  | .int32 x, _, _, _, r, r2, hc =>
    .fixed h _ r r2 4 4 x.length_toList rfl rfl (fun _ _ hx => hx) hc
  | .timestamp x, _, _, _, r, r2, hc =>
    .fixed h _ r r2 8 r.size x.length_toList rfl rfl (fun _ _ hx => hx) hc
  | .int64 x, _, _, _, r, r2, hc =>
    .fixed h _ r r2 8 8 x.length_toList rfl rfl (fun _ _ hx => hx) hc
  | .min, _, _, _, r, r2, hc => .empty h _ r r2 rfl rfl trivial hc
  | .max, _, _, _, r, r2, hc => .empty h _ r r2 rfl rfl trivial hc

theorem Document.yields (h : Heap) :
    ∀ (d : Document) (b : BsonInfo) (total : ℕ), total ≤ maxSize →
      Cursor b total (d.body ++ [0]) → int32At b.buffer 0 = some (total : ℤ) → d.Yields h b
  | .nil, b, total, _, hc, hint => by
    intro r r2
    have hp : b.position + 1 = total := hc.position
    refine ⟨b.past 1 0, hc.finish r r2, rfl, ?_⟩
    rw [past_position, hp]
    exact hint
  | .cons key value rest, b, total, hmax, hc, hint => by
    intro r r2
    simp only [Document.body, List.append_assoc] at hc
    rw [← List.append_assoc key.bytes] at hc
    obtain ⟨b', s, s2, he, hb, ht, hk, hm, hc'⟩ := bsonDeserialize_cons h key value r r2 hc
      (fun b r => Value.parses h value b total (rest.body ++ [0]) r r2)
    exact ⟨b', s, s2, he, hb, ht, hk, hm hmax,
      Document.yields h rest b' total hmax hc' (by rw [hb]; exact hint)⟩

end

/-- A document tree survives serialisation, `bson_finalize`, `bson_make_readable` and
repeated `bson_deserialize`. -/
theorem Document.round_trip (h : Heap) (d : Document) (hd : (frame d.body).length < 2 ^ 30) :
    ∃ b r, d.encode h = some b ∧ b.buffer.take b.position = frame d.body ∧
      bsonMakeReadable b = some (true, r) ∧ d.Yields h r := by
  have hle : (frame d.body).length ≤ maxSize := by
    rw [maxSize]
    omega
  obtain ⟨b, hb, hf⟩ := d.encode_frame h hle
  have hs : 5 ≤ b.size := le_trans (by decide) hf.size_ge
  obtain ⟨r, hr, -, hc, hint⟩ := bsonMakeReadable_frame hs hf.contents (by omega)
  refine ⟨b, r, hb, ?_, hr, d.yields h r _ hle hc hint⟩
  rw [hf.position, hf.contents]

/-- An embedded document behind a plain element, with a DBPOINTER inside. -/
def nestedSample : Document :=
  .cons ⟨[0x6e], by decide⟩ (.int32 #v[7, 0, 0, 0])
    (.cons ⟨[0x64], by decide⟩
      (.embeddedDocument (.cons ⟨[], by decide⟩ (.dbpointer [0, 1] (Vector.replicate 12 9)) .nil))
      .nil)

theorem round_trip_nestedSample :
    (frame nestedSample.body).length < 2 ^ 30 ∧
      ∃ b r, nestedSample.encode zeroHeap = some b ∧
        b.buffer.take b.position = frame nestedSample.body ∧
        bsonMakeReadable b = some (true, r) ∧ nestedSample.Yields zeroHeap r := by
  have hlt : (frame nestedSample.body).length < 2 ^ 30 := by
    rw [frame_length]
    decide
  exact ⟨hlt, nestedSample.round_trip zeroHeap hlt⟩

end GammaRay.Bson
