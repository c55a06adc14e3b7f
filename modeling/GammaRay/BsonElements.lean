import GammaRay.BsonFile

set_option autoImplicit false

/-!
# What the readers of a document see

Every reader of a document takes the bytes behind `data` and `size` for the value of an
element, whatever its type, and opens what stands behind the second pair as a document. The
switch of `bson_deserialize` leaves `size` at zero for some types.
-/
namespace GammaRay.Bson
open Bytes

/-- The bytes `data` and `size` stand for. -/
def Value.raw : Value → List UInt8
  | .double b => b.toList
  | .string s => s
  | .binary _ data => data
  | .boolean b => [if b then 1 else 0]
  | .dbpointer s _ => s
  | .js s => s
  | .symbol s => s
  | .int32 b => b.toList
  | .int64 b => b.toList
  | .embeddedDocument _ | .array _ | .undefined | .objectid _ | .utcDatetime _ | .null
  | .timestamp _ | .min | .max => []

def Value.nested : Value → Option Document
  | .embeddedDocument d => some d
  | .array d => some d
  | _ => none

/-- The keys and values of a document, from first to last. -/
def Document.elements : Document → List (Key × Value)
  | .nil => []
  | .cons key value rest => (key, value) :: rest.elements

def Document.ofElements : List (Key × Value) → Document
  | [] => .nil
  | (key, value) :: rest => .cons key value (ofElements rest)

@[simp] theorem Document.elements_ofElements (l : List (Key × Value)) :
    (ofElements l).elements = l := by
  induction l with
  | nil => rfl
  | cons e l ih => rw [ofElements, elements, ih]

theorem Document.body_append (l l' : List (Key × Value)) :
    (ofElements (l ++ l')).body = (ofElements l).body ++ (ofElements l').body := by
  induction l with
  | nil => rfl
  | cons e l ih =>
    rw [List.cons_append, ofElements, ofElements, body, body, ih]
    simp only [List.append_assoc]

theorem Document.elements_length_le : ∀ d : Document, d.elements.length ≤ d.body.length
  | .nil => le_rfl
  | .cons key value rest => by
    have ih := rest.elements_length_le
    simp only [elements, body, List.length_cons, List.length_append]
    omega

/-- No payload is longer than the document. -/
theorem Document.payload_le :
    ∀ (d : Document), ∀ e ∈ d.elements, e.2.payload.length ≤ d.body.length
  | .nil, _, he => absurd he List.not_mem_nil
  | .cons key value rest, e, he => by
    simp only [body, List.length_append]
    rcases List.mem_cons.mp he with rfl | he
    · dsimp only
      omega
    · have ih := rest.payload_le e he
      omega

/-- What a reader sees of an element. -/
structure Seen (buffer : List UInt8) (v : Value) (s s2 : BsonRef) : Prop where
  raw : SizedAt buffer s v.raw
  nested : ∀ d, v.nested = some d → SizedAt buffer s2 (frame d.body)
  text : ∀ t, v = .string t → 0 ∉ t → cstringAt buffer s.data = t

/-- One payload taken off the front of the unread bytes, as its readers see it. -/
def Shows (v : Value) (b : BsonInfo) (y : List UInt8) (r r2 : BsonRef) : Prop :=
  ∃ s s2, deserializePayload v.type b r r2 = some (b.past v.payload.length y.length, s, s2) ∧
    s.key = r.key ∧ Seen b.buffer v s s2

section Payload

variable {b : BsonInfo} {total : ℕ} {y : List UInt8}

theorem SizedAt.empty {buffer : List UInt8} {r : BsonRef} (hr : r.size = 0) :
    SizedAt buffer r [] :=
  ⟨hr, by rw [hr]; exact List.take_zero⟩

theorem Cursor.text {s : List UInt8} (hs : 0 ∉ s) (hc : Cursor b total (stringBytes s ++ y)) :
    cstringAt b.buffer (b.position + 4) = s := by
  have h4 : (i32Bytes ((s.length : ℤ) + 1)).length = 4 := i32Bytes_length _
  rw [stringBytes, List.append_assoc] at hc
  have hnext := hc.next
  rw [h4] at hnext
  exact (deserializeCstring_cursor ⟨0, 0, 0, 0, 0⟩ hs hnext).1

theorem Shows.fixed (v : Value) (r r2 : BsonRef) (width : ℕ) {x : List UInt8}
    (hx : x.length = width) (hp : v.payload = x) (hraw : v.raw = x) (hn : v.nested = none)
    (ht : ∀ t, v ≠ .string t)
    (hd : deserializePayload v.type b r r2 =
      some (advance b width, { r with data := b.position, size := width }, r2))
    (hc : Cursor b total (v.payload ++ y)) : Shows v b y r r2 := by
  subst hx
  refine ⟨{ r with data := b.position, size := x.length }, r2, ?_, rfl, ⟨?_, ?_, ?_⟩⟩
  · rw [hd, hc.advance_eq (by rw [hp])]
  · rw [hp] at hc
    rw [hraw]
    exact ⟨rfl, hc.bytesAt⟩
  · intro d hd
    rw [hn] at hd
    cases hd
  · exact fun t hv => absurd hv (ht t)

/-- The types whose branch leaves `size` alone. -/
theorem Shows.unsized (v : Value) (r r2 : BsonRef) (width : ℕ) {x : List UInt8}
    (hx : x.length = width) (hp : v.payload = x) (hraw : v.raw = []) (hn : v.nested = none)
    (ht : ∀ t, v ≠ .string t)
    (hd : deserializePayload v.type b r r2 =
      some (advance b width, { r with data := b.position }, r2))
    (hr : r.size = 0) (hc : Cursor b total (v.payload ++ y)) : Shows v b y r r2 := by
  subst hx
  refine ⟨{ r with data := b.position }, r2, ?_, rfl, ⟨?_, ?_, ?_⟩⟩
  · rw [hd, hc.advance_eq (by rw [hp])]
  · rw [hraw]
    exact SizedAt.empty hr
  · intro d hd
    rw [hn] at hd
    cases hd
  · exact fun t hv => absurd hv (ht t)

theorem Shows.empty (v : Value) (r r2 : BsonRef) (hp : v.payload = []) (hraw : v.raw = [])
    (hn : v.nested = none) (ht : ∀ t, v ≠ .string t)
    (hd : deserializePayload v.type b r r2 = some (b, r, r2)) (hr : r.size = 0)
    (hc : Cursor b total (v.payload ++ y)) : Shows v b y r r2 := by
  have hs := hc.size
  rw [hp, List.nil_append] at hs
  refine ⟨r, r2, ?_, rfl, ⟨?_, ?_, ?_⟩⟩
  · rw [hd, hp, ← hs]
    rfl
  · rw [hraw]
    exact SizedAt.empty hr
  · intro d hd
    rw [hn] at hd
    cases hd
  · exact fun t hv => absurd hv (ht t)

theorem Shows.string (v : Value) (r r2 : BsonRef) {s : List UInt8}
    (hp : v.payload = stringBytes s) (hraw : v.raw = s) (hn : v.nested = none)
    (ht : ∀ t, v = .string t → t = s)
    (hd : deserializePayload v.type b r r2 = (deserializeString b r).bind
      fun p => some (p.2.1, p.2.2, r2))
    (hc : Cursor b total (v.payload ++ y)) : Shows v b y r r2 := by
  rw [hp] at hc
  obtain ⟨hb, ok, he⟩ := deserializeString_cursor r hc
  refine ⟨{ r with size := s.length, data := b.position + 4 }, r2, ?_, rfl, ⟨?_, ?_, ?_⟩⟩
  · rw [hd, he, hp, Option.bind_some]
  · rw [hraw]
    exact ⟨rfl, hb⟩
  · intro d hd
    rw [hn] at hd
    cases hd
  · intro t hv hz
    obtain rfl := ht t hv
    exact hc.text hz

theorem Shows.document (v : Value) (d : Document) (r r2 : BsonRef) (hp : v.payload = frame d.body)
    (hraw : v.raw = []) (hn : v.nested = some d) (ht : ∀ t, v ≠ .string t)
    (hd : deserializePayload v.type b r r2 = (deserializeDocument b r2).bind
      fun p => some (p.2.1, r, p.2.2))
    (hr : r.size = 0) (hc : Cursor b total (v.payload ++ y)) : Shows v b y r r2 := by
  rw [hp] at hc
  refine ⟨r, { r2 with size := (frame d.body).length, data := b.position }, ?_, rfl, ⟨?_, ?_, ?_⟩⟩
  · rw [hd, deserializeDocument_cursor r2 hc, hp, Option.bind_some]
  · rw [hraw]
    exact SizedAt.empty hr
  · intro e he
    rw [hn] at he
    cases he
    exact ⟨rfl, hc.bytesAt⟩
  · exact fun t hv => absurd hv (ht t)

theorem Value.shows (v : Value) (r r2 : BsonRef) (hr : r.size = 0)
    (hc : Cursor b total (v.payload ++ y)) : Shows v b y r r2 := by
  cases v with
  | double x => exact .fixed _ r r2 8 x.length_toList rfl rfl rfl (nofun) rfl hc
  | string s => exact .string _ r r2 rfl rfl rfl (fun t ht => (Value.string.inj ht).symm) rfl hc
  | embeddedDocument d => exact .document _ d r r2 rfl rfl rfl (nofun) rfl hr hc
  | array d => exact .document _ d r r2 rfl rfl rfl (nofun) rfl hr hc
  | binary subtype data =>
    obtain ⟨hb, he⟩ := deserializeBinary_cursor r hc
    refine ⟨{ r with size := data.length, subtype := subtype, data := b.position + 5 }, r2,
      ?_, rfl, ⟨⟨rfl, hb⟩, nofun, nofun⟩⟩
    change (deserializeBinary b r).bind _ = _
    rw [he, Option.bind_some]
    rfl
  | undefined => exact .empty _ r r2 rfl rfl rfl (nofun) rfl hr hc
  | objectid x => exact .unsized _ r r2 12 x.length_toList rfl rfl rfl (nofun) rfl hr hc
  | boolean x => exact .fixed _ r r2 1 rfl rfl rfl rfl (nofun) rfl hc
  | utcDatetime x => exact .unsized _ r r2 8 x.length_toList rfl rfl rfl (nofun) rfl hr hc
  | null => exact .empty _ r r2 rfl rfl rfl (nofun) rfl hr hc
  | dbpointer s id =>
    rw [Value.payload, List.append_assoc] at hc
    obtain ⟨hb, ok, he⟩ := deserializeString_cursor r hc
    have ha := hc.next.advance_eq (n := 12) (by rw [id.length_toList]; rfl)
    refine ⟨{ r with size := s.length, data := b.position + 4 },
      { r2 with key := r.key, data := b.position + (stringBytes s).length }, ?_, rfl,
      ⟨⟨rfl, hb⟩, nofun, nofun⟩⟩
    change (deserializeString b r).bind _ = _
    rw [he, Option.bind_some]
    dsimp only
    rw [ha, past_past, Value.payload, ← List.length_append]
    rfl
  | js s => exact .string _ r r2 rfl rfl rfl (nofun) rfl hc
  | symbol s => exact .string _ r r2 rfl rfl rfl (nofun) rfl hc
  | int32 x => exact .fixed _ r r2 4 x.length_toList rfl rfl rfl (nofun) rfl hc
  | timestamp x => exact .unsized _ r r2 8 x.length_toList rfl rfl rfl (nofun) rfl hr hc
  | int64 x => exact .fixed _ r r2 8 x.length_toList rfl rfl rfl (nofun) rfl hc
  | min => exact .empty _ r r2 rfl rfl rfl (nofun) rfl hr hc
  | max => exact .empty _ r r2 rfl rfl rfl (nofun) rfl hr hc

end Payload

section Document

variable {b : BsonInfo} {total : ℕ}

/-- A call of `bson_deserialize` at the front of a document that has an element left. -/
theorem Cursor.element {key : Key} {value : Value} {rest : Document} (r r2 : BsonRef)
    (hc : Cursor b total ((Document.cons key value rest).body ++ [0])) :
    ∃ b' s s2, bsonDeserialize b r r2 = some (1, b', s, s2) ∧ b'.buffer = b.buffer ∧
      cstringAt b.buffer s.key = key.bytes ∧ Seen b.buffer value s s2 ∧
      Cursor b' total (rest.body ++ [0]) := by
  simp only [Document.body, List.append_assoc] at hc
  rw [← List.append_assoc key.bytes] at hc
  obtain ⟨c, q, he, hbuf, hcur, -, hsize, hkey⟩ := bsonDeserialize_element value.type key r r2 hc
  obtain ⟨s, s2, hd, hk, hseen⟩ := value.shows q r2 hsize hcur
  refine ⟨c.past value.payload.length (rest.body ++ [0]).length, s, s2, ?_, hbuf, ?_,
    hbuf ▸ hseen, hcur.next⟩
  · rw [he, hd]
    rfl
  · rw [hk]
    exact hkey

end Document

end GammaRay.Bson
