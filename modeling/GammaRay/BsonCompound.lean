import GammaRay.BsonRoundTrip
import GammaRay.BsonStride

set_option autoImplicit false

/-!
# Elements of two parts

`BSON_REGEX` and `BSON_JS_CODE` beside the types that a document tree is made of. The encoder
puts a length in front of each string; the decoder reads the regular expression as two C
strings, and expects a length of its own in front of the code.
-/
namespace GammaRay.Bson
open Bytes

inductive Compound where
  | plain (v : Value)
  | regex (expr options : Key)
  | jsCode (code : List UInt8) (scope : Document)

namespace Compound

def type : Compound → BsonType
  | .plain v => v.type
  | .regex _ _ => .regex
  | .jsCode _ _ => .jsCode

/-- The `struct bson_kv` that a producer fills in, with the parts packed behind `data`. -/
def kv (h : Heap) (key : Key) : Compound → Option BsonKv
  | .plain v => v.kv h key
  | .regex expr options => some (plainKv .regex key 0 (i32Bytes expr.bytes.length ++
      (expr.bytes ++ (i32Bytes options.bytes.length ++ options.bytes))))
  | .jsCode code scope => do
    let b ← scope.encode h
    some ⟨.jsCode, 0, 0, key.bytes, .codeWithScope (i32Bytes code.length ++ code) b⟩

def payload : Compound → List UInt8
  | .plain v => v.payload
  | .regex expr options => stringBytes expr.bytes ++ stringBytes options.bytes
  | .jsCode code scope => stringBytes code ++ frame scope.body

def element (key : Key) (x : Compound) : List UInt8 :=
  [x.type.code] ++ ((key.bytes ++ [0]) ++ x.payload)

/-- Both parts come back, the first in `r` and the second in `r2`. -/
def Matches (h : Heap) (buffer : List UInt8) (r r2 : BsonRef) : Compound → Prop
  | .plain v => v.Matches h buffer r r2
  | .regex expr options =>
    cstringAt buffer r.data = expr.bytes ∧ cstringAt buffer r2.data = options.bytes
  | .jsCode code scope => SizedAt buffer r code ∧ SizedAt buffer r2 (frame scope.body)

/-- A call of `bson_deserialize` on an element with `left` bytes behind it returns its key and
its parts, and comes to the first of those bytes. -/
def Survives (h : Heap) (key : Key) (x : Compound) (b : BsonInfo) (left : ℕ) (r r2 : BsonRef) :
    Prop :=
  ∃ b' s s2, bsonDeserialize b r r2 = some (1, b', s, s2) ∧ s.type = x.type.code ∧
    cstringAt b.buffer s.key = key.bytes ∧ x.Matches h b.buffer s s2 ∧
    b'.position = b.position + (x.element key).length ∧ b'.size = left

end Compound

/-! ## Encoding -/

section Encoding

variable (h : Heap) (key : Key)

theorem regex_appends (expr options : Key) :
    ∃ kv, (Compound.regex expr options).kv h key = some kv ∧ kv.type = .regex ∧
      kv.key = key.bytes ∧ Appends (fun b => serializePayload h b kv)
        (Compound.regex expr options).payload := by
  refine ⟨_, rfl, rfl, rfl, ?_⟩
  have hsecond := serializePacked_appends h options.bytes [] (g := fun _ => some) some_appends
  rw [List.append_nil, List.append_nil] at hsecond
  exact serializePacked_appends h expr.bytes (i32Bytes options.bytes.length ++ options.bytes)
    (g := fun rest b => (serializePacked h b rest).bind fun p => some p.1) hsecond

theorem jsCode_appends (code : List UInt8) (scope : Document)
    (hroom : (frame scope.body).length ≤ maxSize) :
    ∃ kv, (Compound.jsCode code scope).kv h key = some kv ∧ kv.type = .jsCode ∧
      kv.key = key.bytes ∧ Appends (fun b => serializePayload h b kv)
        (Compound.jsCode code scope).payload := by
  obtain ⟨b, hb, hf⟩ := scope.encode_frame h hroom
  refine ⟨⟨.jsCode, 0, 0, key.bytes, .codeWithScope (i32Bytes code.length ++ code) b⟩, ?_, rfl,
    rfl, ?_⟩
  · rw [Compound.kv, Loop.bind_of_some hb]
  · have hdoc := serializePacked_appends h code [] (g := fun _ b' => serializeDocument h b' b)
      (serializeDocument_appends h hf)
    rw [List.append_nil] at hdoc
    exact hdoc

theorem Compound.appends (x : Compound) (hroom : x.payload.length ≤ maxSize) :
    ∃ kv, x.kv h key = some kv ∧ Appends (fun b => bsonSerialize h b kv) (x.element key) := by
  have hparts : ∃ kv, x.kv h key = some kv ∧ kv.type = x.type ∧ kv.key = key.bytes ∧
      Appends (fun b => serializePayload h b kv) x.payload := by
    cases x with
    | plain v =>
      obtain ⟨kv, hkv, hd⟩ := v.kv_describes h key hroom
      exact ⟨kv, hkv, hd.type, hd.key, hd.appends⟩
    | regex expr options => exact regex_appends h key expr options
    | jsCode code scope =>
      rw [Compound.payload, List.length_append] at hroom
      exact jsCode_appends h key code scope (by omega)
  obtain ⟨kv, hkv, htype, hkey, hp⟩ := hparts
  have happ := serializeElement_appends h kv (by rw [hkey]; exact key.noNul) hp
  rw [htype, hkey] at happ
  exact ⟨kv, hkv, happ⟩

end Encoding

/-! ## Decoding -/

section Decoding

variable {h : Heap} {key : Key} {b c b' : BsonInfo} {total : ℕ} {x y : List UInt8}
  {r r2 q s s2 : BsonRef}

/-- What `deserialize_cstring` steps over is the string it hands out. -/
theorem cstringStride_eq {k : ℤ} (hk : cstringStride b = some k) :
    k = (cstringAt b.buffer b.position).length + 1 := by
  obtain ⟨n, hn, rfl⟩ := Option.map_eq_some_iff.mp hk
  rw [strlen] at hn
  split at hn
  · rw [← Option.some.inj hn]
    rfl
  · cases hn

/-- The counters behind a regular expression whose parts came back. -/
theorem regex_stride {expr options : Key}
    (hd : deserializePayload .regex c q r2 = some (b', s, s2))
    (hm : (Compound.regex expr options).Matches h c.buffer s s2) :
    b' = advance c (expr.bytes.length + 1 + (options.bytes.length + 1)) := by
  rw [deserializePayload, deserializeCstring_eq] at hd
  cases hk : cstringStride c with
  | none =>
    rw [hk] at hd
    cases hd
  | some k =>
    rw [hk, Option.map_some, Loop.bind_of_some rfl] at hd
    dsimp only at hd
    rw [deserializeCstring_eq] at hd
    cases hk' : cstringStride (advance c k) with
    | none =>
      rw [hk'] at hd
      cases hd
    | some k' =>
      rw [hk', Option.map_some, Loop.bind_of_some rfl] at hd
      obtain ⟨rfl, hrest⟩ := Prod.mk.inj (Option.some.inj hd)
      obtain ⟨rfl, rfl⟩ := Prod.mk.inj hrest
      have h1 := cstringStride_eq hk
      have h2 := cstringStride_eq hk'
      rw [show cstringAt c.buffer c.position = expr.bytes from hm.1] at h1
      rw [show cstringAt (advance c k).buffer (advance c k).position = options.bytes from hm.2]
        at h2
      dsimp only
      rw [advance_advance, h1, h2]

/-- The counters behind a piece of code whose parts came back. -/
theorem jsCode_stride {code : List UInt8} {scope : Document} (hlen : code.length < 2 ^ 30)
    (hd : deserializePayload .jsCode c q r2 = some (b', s, s2))
    (hm : (Compound.jsCode code scope).Matches h c.buffer s s2) :
    b' = advance c (4 + (4 + (code.length + 1)) + (frame scope.body).length) := by
  rw [deserializePayload, deserializeString_eq] at hd
  cases hn : int32At (advance c 4).buffer (advance c 4).position with
  | none =>
    rw [hn] at hd
    cases hd
  | some n =>
    rw [hn, Option.map_some, Loop.bind_of_some rfl] at hd
    dsimp only at hd
    rw [deserializeDocument_eq] at hd
    cases hn' : int32At (advance (advance c 4) (4 + n)).buffer
        (advance (advance c 4) (4 + n)).position with
    | none =>
      rw [hn'] at hd
      cases hd
    | some n' =>
      rw [hn', Option.map_some, Loop.bind_of_some rfl] at hd
      obtain ⟨rfl, hrest⟩ := Prod.mk.inj (Option.some.inj hd)
      obtain ⟨rfl, rfl⟩ := Prod.mk.inj hrest
      have h1 : i32 (n - 1) = code.length := hm.1.1
      have h2 : n' = (frame scope.body).length := hm.2.1
      have hrange := int32At_range hn
      have hn1 : n = code.length + 1 := by
        unfold i32 at h1
        omega
      dsimp only
      rw [advance_advance, advance_advance, hn1, h2, ← Int.add_assoc]

/-- A part of the decoder that moves by the wrong number of bytes. -/
theorem advance_position_ne (hc : Cursor c total (x ++ y)) {a : ℤ} (ha : a ≠ x.length)
    (hlow : 0 ≤ a) (hhigh : a < 2 ^ 40) : (advance c a).position ≠ c.position + x.length := by
  have hpos := hc.position
  have hlt := hc.total_lt
  change u64 (c.position + a) ≠ _
  unfold u64
  omega

/-- An element that survives leaves the decoder behind its payload. -/
theorem Compound.Survives.payload {x : Compound} (hs : x.Survives h key b y.length r r2)
    (hc : Cursor b total (x.element key ++ y)) :
    ∃ c q b' s s2, Cursor c total (x.payload ++ y) ∧
      deserializePayload x.type c q r2 = some (b', s, s2) ∧ x.Matches h c.buffer s s2 ∧
      b'.position = c.position + x.payload.length := by
  obtain ⟨b', s, s2, hcall, -, -, hm, hpos, -⟩ := hs
  have hc' := hc
  rw [Compound.element, List.append_assoc, List.append_assoc] at hc'
  obtain ⟨c, q, he, hbuf, hcur, -, -, -⟩ := bsonDeserialize_element x.type key r r2 hc'
  rw [he] at hcall
  obtain ⟨p, hp, heq⟩ := Option.map_eq_some_iff.mp hcall
  obtain rfl := (Prod.mk.inj heq).2
  refine ⟨c, q, b', s, s2, hcur, hp, hbuf ▸ hm, ?_⟩
  have h1 := hc.position
  have h2 := hcur.position
  rw [List.length_append] at h1 h2
  omega

theorem regex_lost (expr options : Key)
    (hc : Cursor b total ((Compound.regex expr options).element key ++ y)) :
    ¬ (Compound.regex expr options).Survives h key b y.length r r2 := by
  intro hs
  obtain ⟨c, q, b', s, s2, hcur, hd, hm, hpos⟩ := hs.payload hc
  have hlen := hcur.position
  have hlt := hcur.total_lt
  have hstride := regex_stride hd hm
  have hpayload : (Compound.regex expr options).payload.length =
      expr.bytes.length + options.bytes.length + 10 := by
    rw [Compound.payload, List.length_append, stringBytes_length, stringBytes_length]
    omega
  rw [List.length_append] at hlen
  rw [hstride] at hpos
  exact advance_position_ne hcur (by omega) (by omega) (by omega) hpos

theorem jsCode_lost (code : List UInt8) (scope : Document) (htotal : total ≤ maxSize)
    (hc : Cursor b total ((Compound.jsCode code scope).element key ++ y)) :
    ¬ (Compound.jsCode code scope).Survives h key b y.length r r2 := by
  intro hs
  obtain ⟨c, q, b', s, s2, hcur, hd, hm, hpos⟩ := hs.payload hc
  have hlen := hcur.position
  have hmax : maxSize = 1073741824 := rfl
  have hpayload : (Compound.jsCode code scope).payload.length =
      code.length + 5 + (frame scope.body).length := by
    rw [Compound.payload, List.length_append, stringBytes_length]
  rw [List.length_append] at hlen
  have hstride := jsCode_stride (by omega) hd hm
  rw [hstride] at hpos
  exact advance_position_ne hcur (by omega) (by omega) (by omega) hpos

end Decoding

/-- An element survives just when it is neither a regular expression nor code with a scope. -/
theorem compound_survives_iff (h : Heap) (key : Key) (x : Compound)
    (hroom : x.payload.length ≤ maxSize) :
    ∃ kv, x.kv h key = some kv ∧ Appends (fun b => bsonSerialize h b kv) (x.element key) ∧
      ∀ (b : BsonInfo) (total : ℕ) (y : List UInt8) (r r2 : BsonRef), total ≤ maxSize →
        Cursor b total (x.element key ++ y) →
        (x.Survives h key b y.length r r2 ↔ x.type ≠ .regex ∧ x.type ≠ .jsCode) := by
  obtain ⟨kv, hkv, happ⟩ := x.appends h key hroom
  refine ⟨kv, hkv, happ, fun b total y r r2 htotal hc => ?_⟩
  cases x with
  | plain v =>
    have hplain : v.type ≠ .regex ∧ v.type ≠ .jsCode := by
      cases v <;> exact ⟨nofun, nofun⟩
    refine iff_of_true ?_ hplain
    have hpos := hc.position
    rw [Compound.element, List.append_assoc, List.append_assoc] at hc
    obtain ⟨b', s, s2, he, -, ht, hk, hm, hc'⟩ := bsonDeserialize_cons h key v r r2 hc
      (fun b r => Value.parses h v b total y r r2)
    refine ⟨b', s, s2, he, ht, hk, hm htotal, ?_, hc'.size⟩
    have hpos' := hc'.position
    rw [List.length_append] at hpos
    omega
  | regex expr options => exact iff_of_false (regex_lost expr options hc) fun hne => hne.1 rfl
  | jsCode code scope =>
    exact iff_of_false (jsCode_lost code scope htotal hc) fun hne => hne.2 rfl

def keyK : Key := ⟨[0x6b], by decide⟩

/-- A handle with one element in front of the end of the document. -/
def oneElement (x : Compound) : BsonInfo :=
  ⟨(x.element keyK ++ [0]).length, 0, 0, x.element keyK ++ [0]⟩

theorem oneElement_cursor (x : Compound) (hlen : (x.element keyK ++ [0]).length < 2 ^ 31) :
    Cursor (oneElement x) (x.element keyK ++ [0]).length (x.element keyK ++ [0]) :=
  ⟨⟨[], (List.append_nil _).symm⟩, rfl, Nat.zero_add _, hlen⟩

theorem compound_survives_js :
    ∃ kv, (Compound.plain (.js [97])).kv zeroHeap keyK = some kv ∧
      (Compound.plain (.js [97])).Survives zeroHeap keyK (oneElement (.plain (.js [97]))) 1 noRef
        noRef := by
  obtain ⟨kv, hkv, -, hiff⟩ := compound_survives_iff zeroHeap keyK (.plain (.js [97])) (by decide)
  exact ⟨kv, hkv, (hiff _ _ [0] noRef noRef (by decide) (oneElement_cursor _ (by decide))).mpr
    ⟨by decide, by decide⟩⟩

def letterA : Compound := .regex ⟨[97], by decide⟩ ⟨[105], by decide⟩

/-- Of `/a/i` the decoder makes the expression `\x02` without options, and it stops in the
middle of the element. -/
theorem regex_misread :
    ∃ kv, letterA.kv zeroHeap keyK = some kv ∧
      Appends (fun b => bsonSerialize zeroHeap b kv) (letterA.element keyK) ∧
      bsonDeserialize (oneElement letterA) noRef noRef =
        some (1, ⟨10, 0, 6, (oneElement letterA).buffer⟩, ⟨0x0b, 0, 0, 1, 3⟩, ⟨0, 0, 0, 1, 5⟩) ∧
      cstringAt (oneElement letterA).buffer 3 = [2] ∧
      cstringAt (oneElement letterA).buffer 5 = [] ∧ (letterA.element keyK).length = 15 ∧
      ¬ letterA.Survives zeroHeap keyK (oneElement letterA) 1 noRef noRef := by
  obtain ⟨kv, hkv, happ⟩ := letterA.appends zeroHeap keyK (by decide)
  exact ⟨kv, hkv, happ, by decide, by decide, by decide, by decide,
    regex_lost _ _ (oneElement_cursor letterA (by decide))⟩

end GammaRay.Bson
