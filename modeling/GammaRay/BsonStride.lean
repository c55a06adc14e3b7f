import GammaRay.BsonDecoder
import GammaRay.Loop

set_option autoImplicit false

/-!
# How far a call of the decoder moves

Every branch of `bson_deserialize` moves its two counters by one signed number of bytes, the
stride of the element, which the lengths in the document add up to. What the caller passes in
`value` and `value2` has no part in it.
-/
namespace GammaRay.Bson
open Bytes

/-! ## The counters -/

theorem u64_add_u64 (m n : ℤ) : u64 ((u64 m : ℤ) + n) = u64 (m + n) := by
  unfold u64
  omega

theorem u64_u64_sub (m n : ℤ) : u64 ((u64 m : ℤ) - n) = u64 (m - n) := by
  unfold u64
  omega

theorem advance_advance (b : BsonInfo) (m n : ℤ) : advance (advance b m) n = advance b (m + n) := by
  simp only [advance, u64_add_u64, u64_u64_sub, Int.add_assoc, Int.sub_sub]

@[simp] theorem advance_buffer (b : BsonInfo) (n : ℤ) : (advance b n).buffer = b.buffer := rfl

/-- Where the document ends does not move. -/
theorem advance_end (b : BsonInfo) (n : ℤ) :
    ((advance b n).position + (advance b n).size) % 2 ^ 64 = (b.position + b.size) % 2 ^ 64 := by
  change (u64 (b.position + n) + u64 (b.size - n)) % 2 ^ 64 = _
  unfold u64
  omega

/-! ## Strides -/

def cstringStride (b : BsonInfo) : Option ℤ :=
  (strlen b.buffer b.position).map fun n : ℕ => (n : ℤ) + 1

def stringStride (b : BsonInfo) : Option ℤ := (int32At b.buffer b.position).map (4 + ·)

def payloadStride (b : BsonInfo) : BsonType → Option ℤ
  | .double => some 8
  | .string => stringStride b
  | .embeddedDocument => int32At b.buffer b.position
  | .array => int32At b.buffer b.position
  | .binary => do
    let n ← int32At b.buffer b.position
    let _ ← b.buffer[(advance b 4).position]?
    some (5 + n)
  | .undefined => some 0
  | .objectid => some 12
  | .boolean => some 1
  | .utcDatetime => some 8
  | .null => some 0
  | .regex => do
    let m ← cstringStride b
    let n ← cstringStride (advance b m)
    some (m + n)
  | .dbpointer => (stringStride b).map (· + 12)
  | .js => stringStride b
  | .symbol => stringStride b
  | .jsCode => do
    let m ← stringStride (advance b 4)
    let n ← int32At b.buffer (advance b (4 + m)).position
    some (4 + m + n)
  | .int32 => some 4
  | .timestamp => some 8
  | .int64 => some 8
  | .min => some 0
  | .max => some 0

/-- The result of a call and the counters behind it. -/
def cursorStep (b : BsonInfo) : Option (ℤ × BsonInfo) :=
  if b.size < 1 then some (0, b)
  else if b.size = 1 then
    if b.buffer[b.position]? = some 0 then some (0, advance b 1) else none
  else do
    let type ← b.buffer[b.position]?
    let k ← cstringStride (advance b 1)
    match BsonType.ofByte type with
    | none => some (-1, advance b (1 + k))
    | some t => (payloadStride (advance b (1 + k)) t).map fun m => (1, advance b (1 + k + m))

/-! ## What the helpers do -/

section Helpers

variable (b : BsonInfo) (kv : BsonRef)

/-- The test at the end of both string helpers. -/
def judge (b : BsonInfo) : Bool := ¬ b.size < b.position

theorem int32At_range {buffer : List UInt8} {p : ℕ} {n : ℤ} (h : int32At buffer p = some n) :
    -2 ^ 31 ≤ n ∧ n < 2 ^ 31 := by
  rw [int32At] at h
  split at h
  · rw [← Option.some.inj h]
    unfold i32
    omega
  · cases h

theorem deserializeCstring_eq : deserializeCstring b kv =
    (cstringStride b).map fun a => (judge (advance b a), advance b a,
      { kv with data := b.position }) := by
  rw [deserializeCstring, cstringStride]
  cases strlen b.buffer b.position <;> rfl

theorem deserializeString_eq : deserializeString b kv =
    (int32At b.buffer b.position).map fun n => (judge (advance b (4 + n)), advance b (4 + n),
      { kv with size := i32 (n - 1), data := (advance b 4).position }) := by
  rw [deserializeString]
  cases hn : int32At b.buffer b.position with
  | none => rfl
  | some n =>
    obtain ⟨hl, hu⟩ := int32At_range hn
    have hback : i32 (i32 (n - 1) + 1) = n := by
      unfold i32
      omega
    rw [Loop.bind_of_some rfl]
    dsimp only
    rw [hback, advance_advance]
    rfl

theorem deserializeDocument_eq : deserializeDocument b kv =
    (int32At b.buffer b.position).map fun n =>
      (true, advance b n, { kv with size := n, data := b.position }) := by
  rw [deserializeDocument]
  cases int32At b.buffer b.position <;> rfl

theorem deserializeBinary_cursor_eq : (deserializeBinary b kv).map (·.1) =
    (payloadStride b .binary).map (advance b) := by
  rw [deserializeBinary, payloadStride]
  cases int32At b.buffer b.position with
  | none => rfl
  | some n =>
    rw [Loop.bind_of_some rfl, Loop.bind_of_some rfl]
    dsimp only [advance_buffer]
    cases b.buffer[(advance b 4).position]? with
    | none => rfl
    | some _ =>
      rw [Loop.bind_of_some rfl, Loop.bind_of_some rfl, Option.map_some, Option.map_some,
        advance_advance, advance_advance, ← Int.add_assoc]
      rfl

end Helpers

section Payload

variable (b : BsonInfo) (v v2 : BsonRef)

/-- The counters behind the switch are those in front of it, moved by the stride. -/
theorem deserializePayload_cursor (t : BsonType) (k : ℤ) :
    (deserializePayload t (advance b k) v v2).map (·.1) =
      (payloadStride (advance b k) t).map fun m => advance b (k + m) := by
  have hstay : advance b (k + 0) = advance b k := by rw [Int.add_zero]
  have hfixed : ∀ m, advance (advance b k) m = advance b (k + m) := advance_advance b k
  cases t with
  | double | objectid | boolean | utcDatetime | int32 | timestamp | int64 =>
    exact congrArg some (hfixed _)
  | undefined | null | min | max => exact congrArg some hstay.symm
  | string | js | symbol =>
    rw [deserializePayload, deserializeString_eq, payloadStride, stringStride]
    cases int32At (advance b k).buffer (advance b k).position with
    | none => rfl
    | some n => exact congrArg some (hfixed _)
  | embeddedDocument | array =>
    rw [deserializePayload, deserializeDocument_eq, payloadStride]
    cases int32At (advance b k).buffer (advance b k).position with
    | none => rfl
    | some n => exact congrArg some (hfixed _)
  | binary =>
    have hb : (deserializePayload .binary (advance b k) v v2).map (·.1) =
        (deserializeBinary (advance b k) v).map (·.1) := by
      rw [deserializePayload]
      cases deserializeBinary (advance b k) v <;> rfl
    rw [hb, deserializeBinary_cursor_eq, funext hfixed]
  | regex =>
    rw [deserializePayload, deserializeCstring_eq, payloadStride]
    cases cstringStride (advance b k) with
    | none => rfl
    | some m =>
      rw [Option.map_some, Loop.bind_of_some rfl, Loop.bind_of_some rfl]
      dsimp only
      rw [deserializeCstring_eq, hfixed]
      cases cstringStride (advance b (k + m)) with
      | none => rfl
      | some n =>
        change some (advance (advance b (k + m)) n) = some (advance b (k + (m + n)))
        rw [advance_advance, Int.add_assoc]
  | dbpointer =>
    rw [deserializePayload, deserializeString_eq, payloadStride, stringStride]
    cases int32At (advance b k).buffer (advance b k).position with
    | none => rfl
    | some n =>
      refine congrArg some ?_
      rw [hfixed, advance_advance, Int.add_assoc]
  | jsCode =>
    rw [deserializePayload, deserializeString_eq, payloadStride, stringStride]
    cases int32At (advance (advance b k) 4).buffer (advance (advance b k) 4).position with
    | none => rfl
    | some m =>
      rw [Option.map_some, Loop.bind_of_some rfl, Option.map_some, Loop.bind_of_some rfl]
      dsimp only
      rw [deserializeDocument_eq, advance_advance, advance_buffer]
      cases int32At (advance b k).buffer (advance (advance b k) (4 + (4 + m))).position with
      | none => rfl
      | some n =>
        change some (advance (advance (advance b k) (4 + (4 + m))) n) =
          some (advance b (k + (4 + (4 + m) + n)))
        rw [advance_advance, hfixed]

/-- What a call does to the counters. -/
theorem bsonDeserialize_cursor :
    (bsonDeserialize b v v2).map (fun r => (r.1, r.2.1)) = cursorStep b := by
  rw [bsonDeserialize, cursorStep]
  by_cases h0 : b.size < 1
  · rw [if_pos h0, if_pos h0]
    rfl
  rw [if_neg h0, if_neg h0]
  by_cases h1 : b.size = 1
  · rw [if_pos h1, if_pos h1]
    split <;> rfl
  rw [if_neg h1, if_neg h1]
  cases b.buffer[b.position]? with
  | none => rfl
  | some type =>
    rw [Loop.bind_of_some rfl, Loop.bind_of_some rfl]
    dsimp only
    rw [deserializeCstring_eq]
    cases cstringStride (advance b 1) with
    | none => rfl
    | some k =>
      rw [Option.map_some, Loop.bind_of_some rfl, Loop.bind_of_some rfl]
      dsimp only
      rw [advance_advance]
      cases BsonType.ofByte type with
      | none => rfl
      | some t =>
        dsimp only
        have hp := congrArg (Option.map fun c => ((1 : ℤ), c)) (deserializePayload_cursor b
          ⟨type, v.subtype, 0, (advance b 1).position, (advance b 1).position⟩ v2 t (1 + k))
        rw [Option.map_map, Option.map_map] at hp
        rw [Option.map_map]
        exact hp

end Payload

/-! ## The end of the document -/

/-- A call that returns, whatever it returns. -/
def Called (b b' : BsonInfo) : Prop :=
  ∃ r v v2 w w2, bsonDeserialize b v v2 = some (r, b', w, w2)

abbrev Reached : BsonInfo → BsonInfo → Prop := Relation.ReflTransGen Called

section Calls

variable {b b' : BsonInfo} {r : ℤ} {v v2 w w2 : BsonRef}

theorem cursorStep_of_call (h : bsonDeserialize b v v2 = some (r, b', w, w2)) :
    cursorStep b = some (r, b') := by
  rw [← bsonDeserialize_cursor b v v2, h]
  rfl

theorem cursorStep_moves (h : cursorStep b = some (r, b')) : b' = b ∨ ∃ a, b' = advance b a := by
  rw [cursorStep] at h
  split at h
  · exact .inl (Prod.mk.inj (Option.some.inj h)).2.symm
  right
  split at h
  · split at h
    · exact ⟨1, (Prod.mk.inj (Option.some.inj h)).2.symm⟩
    · cases h
  obtain ⟨type, -, h⟩ := Option.bind_eq_some_iff.mp h
  obtain ⟨k, -, h⟩ := Option.bind_eq_some_iff.mp h
  split at h
  · exact ⟨1 + k, (Prod.mk.inj (Option.some.inj h)).2.symm⟩
  · obtain ⟨m, -, h⟩ := Option.map_eq_some_iff.mp h
    exact ⟨1 + k + m, (Prod.mk.inj h).2.symm⟩

theorem Called.moves (h : Called b b') : b' = b ∨ ∃ a, b' = advance b a := by
  obtain ⟨r, v, v2, w, w2, h⟩ := h
  exact cursorStep_moves (cursorStep_of_call h)

theorem Called.end_eq (h : Called b b') :
    (b'.position + b'.size) % 2 ^ 64 = (b.position + b.size) % 2 ^ 64 := by
  rcases h.moves with rfl | ⟨a, rfl⟩
  · rfl
  · exact advance_end b a

theorem Called.position_lt (h : Called b b') (hb : b.position < 2 ^ 64) :
    b'.position < 2 ^ 64 := by
  rcases h.moves with rfl | ⟨a, rfl⟩
  · exact hb
  · exact u64_lt _

theorem Called.buffer_eq (h : Called b b') : b'.buffer = b.buffer := by
  rcases h.moves with rfl | ⟨a, rfl⟩
  · rfl
  · rfl

theorem Reached.end_eq (h : Reached b b') :
    (b'.position + b'.size) % 2 ^ 64 = (b.position + b.size) % 2 ^ 64 := by
  induction h with
  | refl => rfl
  | tail _ hcall ih => rw [hcall.end_eq, ih]

theorem Reached.position_lt (h : Reached b b') (hb : b.position < 2 ^ 64) :
    b'.position < 2 ^ 64 := by
  induction h with
  | refl => exact hb
  | tail _ hcall ih => exact hcall.position_lt ih

theorem Reached.buffer_eq (h : Reached b b') : b'.buffer = b.buffer := by
  induction h with
  | refl => rfl
  | tail _ hcall ih => rw [hcall.buffer_eq, ih]

end Calls

/-- No call moves the end of the document, and nothing is left only there. -/
theorem document_end_kept (start b b' : BsonInfo) (v v2 w w2 : BsonRef) (r : ℤ)
    (hreached : Reached start b) (hcall : bsonDeserialize b v v2 = some (r, b', w, w2)) :
    (b'.position + b'.size) % 2 ^ 64 = (b.position + b.size) % 2 ^ 64 ∧
      (b'.size = 0 → b'.position % 2 ^ 64 = (start.position + start.size) % 2 ^ 64) ∧
      (start.position + start.size < 2 ^ 64 → b'.size = 0 →
        b'.position = start.position + start.size) := by
  have hcalled : Called b b' := ⟨r, v, v2, w, w2, hcall⟩
  have hend := Reached.end_eq (hreached.tail hcalled)
  refine ⟨hcalled.end_eq, fun h0 => ?_, fun hlt h0 => ?_⟩
  · rw [h0, Nat.add_zero] at hend
    exact hend
  · have hpos := Reached.position_lt (hreached.tail hcalled) (by omega)
    rw [h0, Nat.add_zero, Nat.mod_eq_of_lt hpos, Nat.mod_eq_of_lt hlt] at hend
    exact hend

def noRef : BsonRef := ⟨0, 0, 0, 0, 0⟩

/-- An `int32` under an empty key, and the end. -/
def oneInt : BsonInfo := ⟨7, 0, 0, [0x10, 0, 7, 0, 0, 0, 0]⟩

theorem document_end_kept_oneInt :
    ∃ b w w2, bsonDeserialize oneInt noRef noRef = some (1, b, w, w2) ∧
      ∃ b', bsonDeserialize b w w2 = some (0, b', w, w2) ∧ b'.size = 0 ∧ b'.position = 7 := by
  refine ⟨⟨1, 0, 6, oneInt.buffer⟩, ⟨0x10, 0, 4, 1, 2⟩, noRef, by decide,
    ⟨0, 0, 7, oneInt.buffer⟩, by decide, rfl, ?_⟩
  exact (document_end_kept oneInt ⟨1, 0, 6, oneInt.buffer⟩ ⟨0, 0, 7, oneInt.buffer⟩
    ⟨0x10, 0, 4, 1, 2⟩ noRef ⟨0x10, 0, 4, 1, 2⟩ noRef 0
    (.single ⟨1, noRef, noRef, ⟨0x10, 0, 4, 1, 2⟩, noRef, by decide⟩) (by decide)).2.2
    (by decide) rfl

end GammaRay.Bson
