import GammaRay.BsonFile
import GammaRay.BsonStride

set_option autoImplicit false

/-!
# Malformed documents

The decoder believes every length it reads. When the loop of a consumer ends all the same,
and when the string helpers are right about the strings they reject.
-/
namespace GammaRay.Bson
open Bytes

/-! ## The loop of a consumer -/

/-- Calls that return 1, one after the other. -/
inductive Iterates : BsonInfo → ℕ → BsonInfo → Prop where
  | refl (b : BsonInfo) : Iterates b 0 b
  | next {b c d : BsonInfo} {t : ℕ} {v v2 w w2 : BsonRef}
      (h : bsonDeserialize b v v2 = some (1, c, w, w2)) (tail : Iterates c t d) :
      Iterates b (t + 1) d

/-- The next call returns something else than 1, or fails its assertion. -/
def Leaves (b : BsonInfo) : Prop :=
  (∃ r c v v2 w w2, r ≠ 1 ∧ bsonDeserialize b v v2 = some (r, c, w, w2)) ∨
    b.size = 1 ∧ ∃ x, x ≠ 0 ∧ b.buffer[b.position]? = some x

/-- Every call that returns 1 moves forward, and the loop is left after as many iterations as
the document has bytes at the latest. -/
def DecodingEnds (b : BsonInfo) : Prop :=
  (∀ t c d v v2 w w2, Iterates b t c → bsonDeserialize c v v2 = some (1, d, w, w2) →
    c.position < d.position) ∧
  ∃ t ≤ b.size, ∃ c, Iterates b t c ∧ Leaves c

/-- The element at the cursor has its type, its key and its lengths inside the buffer, and
takes up at least one byte but no more than are left of the document. -/
def Contained (b : BsonInfo) : Prop :=
  ∃ type k, b.buffer[b.position]? = some type ∧ cstringStride (advance b 1) = some k ∧
    ∀ t, BsonType.ofByte type = some t → ∃ m, payloadStride (advance b (1 + k)) t = some m ∧
      0 < 1 + k + m ∧ 1 + k + m ≤ b.size

/-- A handle with nothing but the body of a document in its buffer. -/
def bare (body : List UInt8) : BsonInfo := ⟨body.length, 0, 0, body⟩

/-- All elements that the loop comes to in a body are contained in it. -/
def Orderly (body : List UInt8) : Prop :=
  ∀ t c, Iterates (bare body) t c → 2 ≤ c.size → Contained c

section Steps

variable {b c d : BsonInfo} {r : ℤ}

theorem call_of_cursorStep (h : cursorStep b = some (r, c)) (v v2 : BsonRef) :
    ∃ w w2, bsonDeserialize b v v2 = some (r, c, w, w2) := by
  rw [← bsonDeserialize_cursor b v v2] at h
  obtain ⟨⟨r', c', w, w2⟩, hcall, heq⟩ := Option.map_eq_some_iff.mp h
  obtain ⟨rfl, rfl⟩ := Prod.mk.inj heq
  exact ⟨w, w2, hcall⟩

theorem Iterates.snoc {t : ℕ} (h : Iterates b t c) (hc : cursorStep c = some (1, d)) :
    Iterates b (t + 1) d := by
  induction h with
  | refl b =>
    obtain ⟨w, w2, hcall⟩ := call_of_cursorStep hc ⟨0, 0, 0, 0, 0⟩ ⟨0, 0, 0, 0, 0⟩
    exact .next hcall (.refl d)
  | next h _ ih => exact .next h (ih hc)

theorem Iterates.last {t : ℕ} (h : Iterates b (t + 1) d) :
    ∃ c, Iterates b t c ∧ cursorStep c = some (1, d) := by
  induction t generalizing b with
  | zero =>
    cases h with
    | next hcall tail =>
      cases tail
      exact ⟨b, .refl b, cursorStep_of_call hcall⟩
  | succ t ih =>
    cases h with
    | next hcall tail =>
      obtain ⟨c, hc, hstep⟩ := ih tail
      exact ⟨c, .next hcall hc, hstep⟩

/-- The calls from one state to another are a part of those that go further. -/
theorem Iterates.rest {t s : ℕ} (h : Iterates b t c) (h' : Iterates b s d) (hle : t ≤ s) :
    Iterates c (s - t) d := by
  induction h generalizing s with
  | refl b => exact h'
  | next hcall tail ih =>
    cases h' with
    | refl => omega
    | next hcall' tail' =>
      have heq := (cursorStep_of_call hcall).symm.trans (cursorStep_of_call hcall')
      obtain ⟨-, rfl⟩ := Prod.mk.inj (Option.some.inj heq)
      rw [Nat.add_sub_add_right]
      exact ih tail' (by omega)

theorem size_of_one (h : cursorStep b = some (1, c)) : 2 ≤ b.size := by
  rw [cursorStep] at h
  by_cases h0 : b.size < 1
  · rw [if_pos h0] at h
    cases (Prod.mk.inj (Option.some.inj h)).1
  rw [if_neg h0] at h
  by_cases h1 : b.size = 1
  · rw [if_pos h1] at h
    split at h
    · cases (Prod.mk.inj (Option.some.inj h)).1
    · cases h
  omega

theorem cursorStep_element {type : UInt8} {k : ℤ} (hsize : 2 ≤ b.size)
    (htype : b.buffer[b.position]? = some type) (hk : cstringStride (advance b 1) = some k) :
    cursorStep b = (BsonType.ofByte type).elim (some (-1, advance b (1 + k))) fun t =>
      (payloadStride (advance b (1 + k)) t).map fun m => (1, advance b (1 + k + m)) := by
  rw [cursorStep, if_neg (by omega), if_neg (by omega), Loop.bind_of_some htype,
    Loop.bind_of_some hk]
  cases BsonType.ofByte type <;> rfl

theorem cursorStep_head (hsize : 2 ≤ b.size) (h : cursorStep b = some (r, c)) :
    ∃ type k, b.buffer[b.position]? = some type ∧ cstringStride (advance b 1) = some k ∧
      ∀ t, BsonType.ofByte type = some t →
        ∃ m, payloadStride (advance b (1 + k)) t = some m ∧ r = 1 ∧ c = advance b (1 + k + m) := by
  have hrun := h
  rw [cursorStep, if_neg (by omega), if_neg (by omega)] at h
  obtain ⟨type, htype, h⟩ := Option.bind_eq_some_iff.mp h
  obtain ⟨k, hk, -⟩ := Option.bind_eq_some_iff.mp h
  refine ⟨type, k, htype, hk, fun t ht => ?_⟩
  rw [cursorStep_element hsize htype hk, ht, Option.elim_some] at hrun
  obtain ⟨m, hm, heq⟩ := Option.map_eq_some_iff.mp hrun
  obtain ⟨rfl, rfl⟩ := Prod.mk.inj heq
  exact ⟨m, hm, rfl, rfl⟩

/-- A contained element is returned, or is of no known type. -/
theorem Contained.step (hc : Contained b) (hsize : 2 ≤ b.size) :
    (∃ c, cursorStep b = some (-1, c)) ∨
      ∃ a : ℤ, 0 < a ∧ a ≤ b.size ∧ cursorStep b = some (1, advance b a) := by
  obtain ⟨type, k, htype, hk, hm⟩ := hc
  rw [cursorStep_element hsize htype hk]
  cases ht : BsonType.ofByte type with
  | none => exact .inl ⟨_, rfl⟩
  | some t =>
    obtain ⟨m, hm, hpos, hle⟩ := hm t ht
    refine .inr ⟨1 + k + m, hpos, hle, ?_⟩
    rw [Option.elim_some, hm]
    rfl

end Steps

/-! ## A larger buffer -/

section Buffer

variable {buffer : List UInt8} {p : ℕ} {b c : BsonInfo}

/-- The same counters over another buffer. -/
def BsonInfo.over (b : BsonInfo) (fOffset : ℕ) (buffer : List UInt8) : BsonInfo :=
  ⟨b.size, fOffset, b.position, buffer⟩

theorem strlen_append {n : ℕ} (h : strlen buffer p = some n) (tail : List UInt8) :
    strlen (buffer ++ tail) p = some n := by
  rw [strlen] at h
  split at h
  case isFalse => cases h
  case isTrue hlt =>
    have hp : p ≤ buffer.length := by
      rw [List.length_drop] at hlt
      omega
    have htake : ((buffer ++ tail).drop p).takeWhile (· ≠ 0) =
        (buffer.drop p).takeWhile (· ≠ 0) := by
      rw [List.drop_append_of_le_length hp, List.takeWhile_append, if_neg (by omega)]
    rw [strlen, htake, if_pos]
    · exact h
    · rw [List.drop_append_of_le_length hp, List.length_append]
      omega

theorem int32At_append {n : ℤ} (h : int32At buffer p = some n) (tail : List UInt8) :
    int32At (buffer ++ tail) p = some n := by
  rw [int32At] at h
  split at h
  case isFalse => cases h
  case isTrue hle =>
    rw [int32At, if_pos (by rw [List.length_append]; omega),
      List.drop_append_of_le_length (by omega),
      List.take_append_of_le_length (by rw [List.length_drop]; omega)]
    exact h

theorem getElem_append {x : UInt8} (h : buffer[p]? = some x) (tail : List UInt8) :
    (buffer ++ tail)[p]? = some x := by
  obtain ⟨hlt, -⟩ := List.getElem?_eq_some_iff.mp h
  rw [List.getElem?_append_left hlt]
  exact h

theorem cstringStride_over {a : ℤ} (h : cstringStride b = some a) (o : ℕ) (tail : List UInt8) :
    cstringStride (b.over o (b.buffer ++ tail)) = some a := by
  obtain ⟨n, hn, rfl⟩ := Option.map_eq_some_iff.mp h
  exact Option.map_eq_some_iff.mpr ⟨n, strlen_append hn tail, rfl⟩

theorem stringStride_over {a : ℤ} (h : stringStride b = some a) (o : ℕ) (tail : List UInt8) :
    stringStride (b.over o (b.buffer ++ tail)) = some a := by
  obtain ⟨n, hn, rfl⟩ := Option.map_eq_some_iff.mp h
  exact Option.map_eq_some_iff.mpr ⟨n, int32At_append hn tail, rfl⟩

theorem payloadStride_over {t : BsonType} {a : ℤ} (h : payloadStride b t = some a) (o : ℕ)
    (tail : List UInt8) : payloadStride (b.over o (b.buffer ++ tail)) t = some a := by
  cases t with
  | double | undefined | objectid | boolean | utcDatetime | null | int32 | timestamp | int64 |
    min | max => exact h
  | string | js | symbol => exact stringStride_over h o tail
  | embeddedDocument | array => exact int32At_append h tail
  | binary =>
    obtain ⟨n, hn, h⟩ := Option.bind_eq_some_iff.mp h
    obtain ⟨x, hx, h⟩ := Option.bind_eq_some_iff.mp h
    exact Option.bind_eq_some_iff.mpr ⟨n, int32At_append hn tail,
      Option.bind_eq_some_iff.mpr ⟨x, getElem_append hx tail, h⟩⟩
  | regex =>
    obtain ⟨m, hm, h⟩ := Option.bind_eq_some_iff.mp h
    obtain ⟨n, hn, h⟩ := Option.bind_eq_some_iff.mp h
    exact Option.bind_eq_some_iff.mpr ⟨m, cstringStride_over hm o tail,
      Option.bind_eq_some_iff.mpr ⟨n, cstringStride_over hn o tail, h⟩⟩
  | dbpointer =>
    obtain ⟨n, hn, rfl⟩ := Option.map_eq_some_iff.mp h
    exact Option.map_eq_some_iff.mpr ⟨n, stringStride_over hn o tail, rfl⟩
  | jsCode =>
    obtain ⟨m, hm, h⟩ := Option.bind_eq_some_iff.mp h
    obtain ⟨n, hn, h⟩ := Option.bind_eq_some_iff.mp h
    exact Option.bind_eq_some_iff.mpr ⟨m, stringStride_over hm o tail,
      Option.bind_eq_some_iff.mpr ⟨n, int32At_append hn tail, h⟩⟩

/-- What is contained in a buffer is contained in a larger one, and nothing more is read. -/
theorem Contained.over (h : Contained b) (o : ℕ) (tail : List UInt8) :
    Contained (b.over o (b.buffer ++ tail)) := by
  obtain ⟨type, k, htype, hk, hm⟩ := h
  refine ⟨type, k, getElem_append htype tail, cstringStride_over hk o tail, fun t ht => ?_⟩
  obtain ⟨m, hm, hpos, hle⟩ := hm t ht
  exact ⟨m, payloadStride_over hm o tail, hpos, hle⟩

theorem Contained.cursorStep_over {r : ℤ} (h : Contained b) (hsize : 2 ≤ b.size)
    (hstep : cursorStep b = some (r, c)) (o : ℕ) (tail : List UInt8) :
    cursorStep (b.over o (b.buffer ++ tail)) = some (r, c.over o (b.buffer ++ tail)) := by
  obtain ⟨type, k, htype, hk, hm⟩ := h
  rw [cursorStep_element hsize htype hk] at hstep
  rw [cursorStep_element (b := b.over o (b.buffer ++ tail)) hsize (getElem_append htype tail)
    (cstringStride_over hk o tail)]
  cases ht : BsonType.ofByte type with
  | none =>
    rw [ht] at hstep
    obtain ⟨rfl, rfl⟩ := Prod.mk.inj (Option.some.inj hstep)
    rfl
  | some t =>
    obtain ⟨m, hm, -, -⟩ := hm t ht
    have hm' := payloadStride_over hm o tail
    rw [ht, Option.elim_some, hm] at hstep
    obtain ⟨rfl, rfl⟩ := Prod.mk.inj (Option.some.inj hstep)
    rw [Option.elim_some]
    exact (congrArg (Option.map _) hm')

end Buffer

/-! ## Inside the body -/

structure Inside (body : List UInt8) (b : BsonInfo) : Prop where
  buffer : b.buffer = body
  left : b.position + b.size = body.length

section Inside

variable {body : List UInt8} {b c : BsonInfo}

theorem Inside.advance (hlen : body.length < 2 ^ 31) (hb : Inside body b) {a : ℤ} (hpos : 0 < a)
    (hle : a ≤ b.size) :
    Inside body (advance b a) ∧ b.position < (Bson.advance b a).position ∧
      (Bson.advance b a).size < b.size := by
  have hleft := hb.left
  have hp : (Bson.advance b a).position = b.position + a.toNat := by
    change u64 _ = _
    unfold u64
    omega
  have hs : (Bson.advance b a).size = b.size - a.toNat := by
    change u64 _ = _
    unfold u64
    omega
  exact ⟨⟨hb.buffer, by omega⟩, by omega, by omega⟩

theorem bare_inside (body : List UInt8) : Inside body (bare body) := ⟨rfl, Nat.zero_add _⟩

/-- Where the loop stands in an orderly body. -/
theorem Orderly.inside (hlen : body.length < 2 ^ 31) (ho : Orderly body) {t : ℕ}
    (h : Iterates (bare body) t c) : Inside body c ∧ t + c.size ≤ body.length := by
  induction t generalizing c with
  | zero =>
    cases h
    exact ⟨bare_inside body, (Nat.zero_add _).le⟩
  | succ t ih =>
    obtain ⟨d, hd, hstep⟩ := h.last
    obtain ⟨hin, hle⟩ := ih hd
    have hsize := size_of_one hstep
    rcases (ho t d hd hsize).step hsize with ⟨e, he⟩ | ⟨a, hpos, hle', he⟩
    · cases (Prod.mk.inj (Option.some.inj (he.symm.trans hstep))).1
    · obtain ⟨-, rfl⟩ := Prod.mk.inj (Option.some.inj (he.symm.trans hstep))
      obtain ⟨hin', -, hlt⟩ := hin.advance hlen hpos hle'
      exact ⟨hin', by omega⟩

/-- The loop does the same over a larger buffer. -/
theorem Orderly.iterates_over (hlen : body.length < 2 ^ 31) (ho : Orderly body) (o : ℕ)
    (tail : List UInt8) {t : ℕ} (h : Iterates ((bare body).over o (body ++ tail)) t c) :
    ∃ d, Iterates (bare body) t d ∧ c = d.over o (body ++ tail) := by
  induction t generalizing c with
  | zero =>
    cases h
    exact ⟨bare body, .refl _, rfl⟩
  | succ t ih =>
    obtain ⟨e, he, hstep⟩ := h.last
    obtain ⟨d, hd, rfl⟩ := ih he
    have hin := (ho.inside hlen hd).1
    have hsize := size_of_one (b := d.over o (body ++ tail)) hstep
    change 2 ≤ d.size at hsize
    have hc := ho t d hd hsize
    rcases hc.step hsize with ⟨f, hf⟩ | ⟨a, -, -, hf⟩
    · have hover := hc.cursorStep_over hsize hf o tail
      rw [hin.buffer] at hover
      cases (Prod.mk.inj (Option.some.inj (hover.symm.trans hstep))).1
    · have hover := hc.cursorStep_over hsize hf o tail
      rw [hin.buffer] at hover
      obtain ⟨-, rfl⟩ := Prod.mk.inj (Option.some.inj (hover.symm.trans hstep))
      exact ⟨_, hd.snoc hf, rfl⟩

theorem Orderly.iterates_into (hlen : body.length < 2 ^ 31) (ho : Orderly body) (o : ℕ)
    (tail : List UInt8) {t : ℕ} (h : Iterates (bare body) t c) :
    Iterates ((bare body).over o (body ++ tail)) t (c.over o (body ++ tail)) := by
  induction t generalizing c with
  | zero =>
    cases h
    exact .refl _
  | succ t ih =>
    obtain ⟨d, hd, hstep⟩ := h.last
    have hsize := size_of_one hstep
    have hover := (ho t d hd hsize).cursorStep_over hsize hstep o tail
    rw [(ho.inside hlen hd).1.buffer] at hover
    exact (ih hd).snoc hover

/-- The loop comes to the last byte of the document or to an element of no known type. -/
theorem Orderly.stops (hlen : body.length < 2 ^ 31) (ho : Orderly body) {m : ℕ} :
    ∀ {t : ℕ} {c : BsonInfo}, Iterates (bare body) t c → c.size = m →
      ∃ t' d, Iterates (bare body) t' d ∧
        (d.size < 2 ∨ 2 ≤ d.size ∧ ∃ e, cursorStep d = some (-1, e)) := by
  induction m using Nat.strong_induction_on with
  | _ m ih =>
    intro t c h hm
    by_cases hsize : c.size < 2
    · exact ⟨t, c, h, .inl hsize⟩
    rcases (ho t c h (by omega)).step (by omega) with hstop | ⟨a, hpos, hle, hstep⟩
    · exact ⟨t, c, h, .inr ⟨by omega, hstop⟩⟩
    · have hlt := ((ho.inside hlen h).1.advance hlen hpos hle).2.2
      exact ih _ (by omega) (h.snoc hstep) rfl

theorem leaves_of_small (hsize : c.size < 2) (hpos : c.size = 1 → c.position < c.buffer.length) :
    Leaves c := by
  have hreturns : ∀ d, cursorStep c = some (0, d) → Leaves c := by
    intro d hd
    obtain ⟨w, w2, hcall⟩ := call_of_cursorStep hd ⟨0, 0, 0, 0, 0⟩ ⟨0, 0, 0, 0, 0⟩
    exact .inl ⟨0, d, _, _, w, w2, by decide, hcall⟩
  by_cases h0 : c.size < 1
  · exact hreturns c (by rw [cursorStep, if_pos h0])
  have h1 : c.size = 1 := by omega
  by_cases hx : c.buffer[c.position]? = some 0
  · exact hreturns (Bson.advance c 1) (by rw [cursorStep, if_neg h0, if_pos h1, if_pos hx])
  · refine .inr ⟨h1, c.buffer.get ⟨c.position, hpos h1⟩, fun hz => hx ?_, ?_⟩
    · rw [← hz]
      exact List.getElem?_eq_getElem _
    · exact List.getElem?_eq_getElem _

/-- An orderly body is decoded to its end from every buffer that it is in. -/
theorem Orderly.decodingEnds (hlen : body.length < 2 ^ 31) (ho : Orderly body) (o : ℕ)
    (tail : List UInt8) : DecodingEnds ((bare body).over o (body ++ tail)) := by
  constructor
  · intro t e d v v2 w w2 he hcall
    obtain ⟨c, hc, rfl⟩ := ho.iterates_over hlen o tail he
    have hin := (ho.inside hlen hc).1
    have hstep := cursorStep_of_call hcall
    have hsize := size_of_one (b := c.over o (body ++ tail)) hstep
    change 2 ≤ c.size at hsize
    have hcont := ho t c hc hsize
    rcases hcont.step hsize with ⟨e, he⟩ | ⟨a, hpos, hle, he⟩
    · have hover := hcont.cursorStep_over hsize he o tail
      rw [hin.buffer] at hover
      cases (Prod.mk.inj (Option.some.inj (hover.symm.trans hstep))).1
    · have hover := hcont.cursorStep_over hsize he o tail
      rw [hin.buffer] at hover
      obtain ⟨-, rfl⟩ := Prod.mk.inj (Option.some.inj (hover.symm.trans hstep))
      exact (hin.advance hlen hpos hle).2.1
  · obtain ⟨t, c, hc, hstop⟩ := ho.stops hlen (.refl _) rfl
    obtain ⟨hin, hle⟩ := ho.inside hlen hc
    have hleft := hin.left
    refine ⟨t, by change t ≤ body.length; omega, _, ho.iterates_into hlen o tail hc, ?_⟩
    rcases hstop with hsmall | ⟨hsize, e, he⟩
    · refine leaves_of_small hsmall fun h1 => ?_
      change c.size = 1 at h1
      change c.position < (body ++ tail).length
      rw [List.length_append]
      omega
    · have hover := (ho t c hc hsize).cursorStep_over hsize he o tail
      rw [hin.buffer] at hover
      obtain ⟨w, w2, hcall⟩ := call_of_cursorStep hover ⟨0, 0, 0, 0, 0⟩ ⟨0, 0, 0, 0, 0⟩
      exact .inl ⟨-1, _, _, _, w, w2, by decide, hcall⟩

/-! ## Bodies whose decoding ends -/

theorem cstringStride_range {k : ℤ} (h : cstringStride b = some k) :
    0 < k ∧ k ≤ b.buffer.length := by
  obtain ⟨n, hn, rfl⟩ := Option.map_eq_some_iff.mp h
  rw [strlen] at hn
  split at hn
  case isFalse => cases hn
  case isTrue hlt =>
    have hle := Option.some.inj hn
    rw [hle, List.length_drop] at hlt
    omega

theorem stringStride_range {k : ℤ} (h : stringStride b = some k) :
    4 - 2 ^ 31 ≤ k ∧ k < 4 + 2 ^ 31 := by
  obtain ⟨n, hn, rfl⟩ := Option.map_eq_some_iff.mp h
  have hrange := int32At_range hn
  omega

theorem payloadStride_range {t : BsonType} {m : ℤ} (hlen : b.buffer.length < 2 ^ 31)
    (h : payloadStride b t = some m) : -2 ^ 40 < m ∧ m < 2 ^ 40 := by
  cases t with
  | double | undefined | objectid | boolean | utcDatetime | null | int32 | timestamp | int64 |
    min | max =>
    rw [← Option.some.inj h]
    decide
  | string | js | symbol =>
    have hr := stringStride_range h
    omega
  | embeddedDocument | array =>
    have hr := int32At_range h
    omega
  | binary =>
    obtain ⟨n, hn, h⟩ := Option.bind_eq_some_iff.mp h
    obtain ⟨x, -, h⟩ := Option.bind_eq_some_iff.mp h
    have hr := int32At_range hn
    have hm := Option.some.inj h
    omega
  | regex =>
    obtain ⟨k, hk, h⟩ := Option.bind_eq_some_iff.mp h
    obtain ⟨n, hn, h⟩ := Option.bind_eq_some_iff.mp h
    have hr := cstringStride_range hk
    have hr' := cstringStride_range hn
    rw [advance_buffer] at hr'
    have hm := Option.some.inj h
    omega
  | dbpointer =>
    obtain ⟨n, hn, rfl⟩ := Option.map_eq_some_iff.mp h
    have hr := stringStride_range hn
    omega
  | jsCode =>
    obtain ⟨k, hk, h⟩ := Option.bind_eq_some_iff.mp h
    obtain ⟨n, hn, h⟩ := Option.bind_eq_some_iff.mp h
    have hr := stringStride_range hk
    have hr' := int32At_range hn
    have hm := Option.some.inj h
    omega

/-- A state from which there is a next call that returns or fails its assertion. -/
def Answers (b : BsonInfo) : Prop := b.size = 0 ∨ b.position < b.buffer.length

theorem answers_of_cursorStep {r : ℤ} (h : cursorStep b = some (r, c)) : Answers b := by
  rw [cursorStep] at h
  by_cases h0 : b.size < 1
  · exact .inl (by omega)
  rw [if_neg h0] at h
  right
  by_cases h1 : b.size = 1
  · rw [if_pos h1] at h
    split at h
    case isTrue hx => exact (List.getElem?_eq_some_iff.mp hx).1
    case isFalse => cases h
  · rw [if_neg h1] at h
    obtain ⟨type, htype, -⟩ := Option.bind_eq_some_iff.mp h
    exact (List.getElem?_eq_some_iff.mp htype).1

theorem Leaves.answers (h : Leaves b) : Answers b := by
  rcases h with ⟨r, c, v, v2, w, w2, -, hcall⟩ | ⟨-, x, -, hx⟩
  · exact answers_of_cursorStep (cursorStep_of_call hcall)
  · exact .inr (List.getElem?_eq_some_iff.mp hx).1

/-- An element behind which the decoder finds its way was no longer than the document. -/
theorem stride_of_answers (hlen : body.length < 2 ^ 31) (hb : Inside body b) (hsize : 2 ≤ b.size)
    {a : ℤ} (ha : -2 ^ 41 < a ∧ a < 2 ^ 41) (hforward : b.position < (Bson.advance b a).position)
    (hnext : Answers (Bson.advance b a)) : 0 < a ∧ a ≤ b.size := by
  have hleft := hb.left
  rcases hnext with h0 | hlt
  · change u64 _ = 0 at h0
    unfold u64 at h0
    omega
  · change u64 _ < _ at hlt
    change _ < u64 _ at hforward
    rw [advance_buffer, hb.buffer] at hlt
    unfold u64 at hlt hforward
    omega

theorem contained_of_ends (hlen : body.length < 2 ^ 31) (hends : DecodingEnds (bare body)) {t : ℕ}
    (hb : Iterates (bare body) t b) (hin : Inside body b) (hsize : 2 ≤ b.size) : Contained b := by
  obtain ⟨hforward, T, -, e, he, hleave⟩ := hends
  have hlast : ∀ {s d}, Iterates e (s + 1) d → False := by
    intro s d h
    cases h with
    | next hcall _ =>
      have hstep := cursorStep_of_call hcall
      rcases hleave with ⟨r, c, v, v2, w, w2, hr, hcall'⟩ | ⟨h1, -⟩
      · exact hr (Prod.mk.inj (Option.some.inj ((cursorStep_of_call hcall').symm.trans hstep))).1
      · have h2 := size_of_one hstep
        omega
  have hle : t ≤ T := by
    by_contra hgt
    obtain ⟨s, hs⟩ : ∃ s, t - T = s + 1 := ⟨t - T - 1, by omega⟩
    exact hlast (hs ▸ he.rest hb (by omega))
  have hrest := hb.rest he hle
  generalize T - t = s at hrest
  cases hrest with
  | refl =>
    rcases hleave with ⟨r, c, v, v2, w, w2, hr, hcall⟩ | ⟨h1, -⟩
    · obtain ⟨type, k, htype, hk, hm⟩ := cursorStep_head hsize (cursorStep_of_call hcall)
      refine ⟨type, k, htype, hk, fun t' ht => ?_⟩
      obtain ⟨-, -, hone, -⟩ := hm t' ht
      exact absurd hone hr
    · omega
  | next hcall tail =>
    have hfwd := hforward t b _ _ _ _ _ hb hcall
    obtain ⟨type, k, htype, hk, hm⟩ := cursorStep_head hsize (cursorStep_of_call hcall)
    refine ⟨type, k, htype, hk, fun t' ht => ?_⟩
    obtain ⟨m, hstride, -, rfl⟩ := hm t' ht
    have hnext : Answers (Bson.advance b (1 + k + m)) := by
      cases tail with
      | refl => exact hleave.answers
      | next hcall' _ => exact answers_of_cursorStep (cursorStep_of_call hcall')
    have hk' := cstringStride_range hk
    have hm' := payloadStride_range (by rw [advance_buffer, hin.buffer]; exact hlen) hstride
    rw [advance_buffer, hin.buffer] at hk'
    exact ⟨m, hstride, stride_of_answers hlen hin hsize (by omega) hfwd hnext⟩

theorem orderly_of_ends (hlen : body.length < 2 ^ 31) (hends : DecodingEnds (bare body)) :
    Orderly body := by
  have hinside : ∀ {t c}, Iterates (bare body) t c → Inside body c := by
    intro t
    induction t with
    | zero =>
      intro c h
      cases h
      exact bare_inside body
    | succ t ih =>
      intro c h
      obtain ⟨d, hd, hstep⟩ := h.last
      have hsize := size_of_one hstep
      rcases (contained_of_ends hlen hends hd (ih hd) hsize).step hsize with
        ⟨e, he⟩ | ⟨a, hpos, hle, he⟩
      · cases (Prod.mk.inj (Option.some.inj (he.symm.trans hstep))).1
      · obtain ⟨-, rfl⟩ := Prod.mk.inj (Option.some.inj (he.symm.trans hstep))
        exact ((ih hd).advance hlen hpos hle).1
  exact fun t c h hsize => contained_of_ends hlen hends h (hinside h) hsize

end Inside

/-! ## Bodies from a file -/

theorem readBody_one {h : Heap} {b c : BsonInfo} {f f' : File} {size : ℤ}
    (hread : readBody h b f size = some (1, c, f')) :
    c.position = 0 ∧ c.size ≤ c.buffer.length := by
  rw [readBody] at hread
  split at hread
  · cases hread
  dsimp only at hread
  split at hread
  · cases hread
  case isFalse hroom =>
    split at hread
    · cases (Prod.mk.inj (Option.some.inj hread)).1
    · obtain ⟨rfl, -⟩ := Prod.mk.inj (Prod.mk.inj (Option.some.inj hread)).2
      refine ⟨rfl, ?_⟩
      have hdata := List.length_take_le size.toNat (f.bytes.drop f.position)
      dsimp only
      rw [splice_length (by omega)]
      omega

/-- What `bson_readf` leaves of a body. -/
theorem readf_over {h : Heap} {b c : BsonInfo} {f f' : File}
    (hread : bsonReadf h b f = some (1, c, f')) :
    ∃ tail, c = (bare (c.buffer.take c.size)).over c.fOffset (c.buffer.take c.size ++ tail) := by
  have hone : c.position = 0 ∧ c.size ≤ c.buffer.length := by
    rw [bsonReadf] at hread
    split at hread
    · cases (Prod.mk.inj (Option.some.inj hread)).1
    · exact readBody_one hread
  refine ⟨c.buffer.drop c.size, ?_⟩
  rw [List.take_append_drop, bare, BsonInfo.over, List.length_take, min_eq_left hone.2, ← hone.1]

theorem readf_bare (h : Heap) {body : List UInt8} (hlen : body.length + 4 < 2 ^ 31) :
    ∃ f', bsonReadf h ⟨0, 0, 0, []⟩ ⟨i32Bytes (body.length + 4) ++ body, 0⟩ =
      some (1, bare body, f') := by
  have h4 : (i32Bytes ((body.length : ℤ) + 4)).length = 4 := i32Bytes_length _
  have hroom : ∃ buf : List UInt8, makeRoom h ⟨0, 0, 0, []⟩ body.length = ⟨0, 0, 0, buf⟩ ∧
      buf.length = body.length := by
    rw [makeRoom]
    split
    · exact ⟨_, rfl, h.malloc_length _⟩
    · exact ⟨[], rfl, (Nat.eq_zero_of_not_pos ‹_›).symm⟩
  obtain ⟨buf, hroom, hbuf⟩ := hroom
  have hsize : i32 (i32 (leNat (i32Bytes ((body.length : ℤ) + 4))) - 4) = body.length := by
    rw [i32_leNat_i32Bytes (by omega) (by omega), i32_of_range (by omega) (by omega)]
    omega
  have hsplice : splice buf 0 body = body := by
    rw [splice, List.take_zero, List.nil_append, Nat.zero_add, List.drop_eq_nil_of_le hbuf.le,
      List.append_nil]
  refine ⟨⟨i32Bytes (body.length + 4) ++ body, 4 + body.length⟩, ?_⟩
  rw [bsonReadf, List.drop_zero, if_neg (by rw [List.length_append]; omega)]
  have htake : (i32Bytes ((body.length : ℤ) + 4) ++ body).take 4 =
      i32Bytes ((body.length : ℤ) + 4) := by
    rw [← h4, List.take_left]
  have hdrop : (i32Bytes ((body.length : ℤ) + 4) ++ body).drop (0 + 4) = body := by
    rw [Nat.zero_add, ← h4, List.drop_left]
  rw [htake, hsize, readBody, if_neg (by omega), Int.toNat_natCast, hroom]
  dsimp only
  rw [if_neg (by omega), hdrop, List.take_length, if_neg (lt_irrefl _), hsplice]
  rfl

/-- The loop of a consumer ends for every handle that a body is read into just when the
elements it comes to are contained in the body. -/
theorem decoding_ends_iff (body : List UInt8) (hlen : body.length + 4 < 2 ^ 31) :
    (∀ (h : Heap) (b c : BsonInfo) (f f' : File), bsonReadf h b f = some (1, c, f') →
      c.buffer.take c.size = body → DecodingEnds c) ↔
    Orderly body := by
  constructor
  · intro hends
    obtain ⟨f', hread⟩ := readf_bare zeroHeap hlen
    exact orderly_of_ends (by omega) (hends zeroHeap _ _ _ f' hread List.take_length)
  · intro ho h b c f f' hread hbody
    obtain ⟨tail, hc⟩ := readf_over hread
    rw [hc, hbody]
    exact ho.decodingEnds (by omega) _ tail

/-- A null under an empty key, and the end. -/
def oneNull : List UInt8 := [0x0a, 0, 0]

theorem oneNull_orderly : Orderly oneNull := by
  have hstep : cursorStep (bare oneNull) = some (1, ⟨1, 0, 2, oneNull⟩) := by decide
  intro t c h hsize
  cases h with
  | refl =>
    refine ⟨0x0a, 1, by decide, by decide, fun t ht => ?_⟩
    obtain rfl : BsonType.null = t := Option.some.inj ((by decide : _ = _).trans ht)
    exact ⟨0, rfl, by decide, by decide⟩
  | next hcall tail =>
    have heq := (cursorStep_of_call hcall).symm.trans hstep
    obtain ⟨-, rfl⟩ := Prod.mk.inj (Option.some.inj heq)
    cases tail with
    | refl => exact absurd hsize (by decide)
    | next hcall' _ => exact absurd (size_of_one (cursorStep_of_call hcall')) (by decide)

theorem decoding_ends_oneNull :
    Orderly oneNull ∧ ∀ (h : Heap) (b c : BsonInfo) (f f' : File),
      bsonReadf h b f = some (1, c, f') → c.buffer.take c.size = oneNull → DecodingEnds c :=
  ⟨oneNull_orderly, (decoding_ends_iff oneNull (by decide)).mpr oneNull_orderly⟩

/-- A string of length -6 under an empty key. -/
def endless : List UInt8 := [0x02, 0, 0xfa, 0xff, 0xff, 0xff, 0]

/-- The decoder comes back to where it was, and the loop is never left. -/
theorem endless_decoding :
    (∃ f', bsonReadf zeroHeap ⟨0, 0, 0, []⟩ ⟨[11, 0, 0, 0] ++ endless, 0⟩ =
      some (1, bare endless, f')) ∧
    (∀ t, Iterates (bare endless) t (bare endless)) ∧ ¬ DecodingEnds (bare endless) := by
  have hstep : cursorStep (bare endless) = some (1, bare endless) := by decide +kernel
  have hturns : ∀ t, Iterates (bare endless) t (bare endless) := by
    intro t
    induction t with
    | zero => exact .refl _
    | succ t ih => exact ih.snoc hstep
  refine ⟨readf_bare zeroHeap (by decide), hturns, fun hends => ?_⟩
  obtain ⟨w, w2, hcall⟩ := call_of_cursorStep hstep ⟨0, 0, 0, 0, 0⟩ ⟨0, 0, 0, 0, 0⟩
  exact absurd (hends.1 0 _ _ _ _ _ _ (.refl _) hcall) (lt_irrefl _)

/-! ## Strings that are rejected -/

/-- `deserialize_cstring` or `deserialize_string`. -/
inductive StringHelper where
  | cstring
  | string
  deriving DecidableEq, Repr

namespace StringHelper

def call : StringHelper → BsonInfo → BsonRef → Option (Bool × BsonInfo × BsonRef)
  | .cstring => deserializeCstring
  | .string => deserializeString

/-- The string, terminator included, lies in front of the end of the document. -/
def Within (stop : ℕ) (b : BsonInfo) : StringHelper → Prop
  | .cstring => ∃ n, strlen b.buffer b.position = some n ∧ b.position + n + 1 ≤ stop
  | .string => ∃ n : ℤ, int32At b.buffer b.position = some n ∧ 1 ≤ n ∧ b.position + 4 + n ≤ stop

/-- The string ends in the first half of what lies in front of the end of the document. -/
def InFirstHalf (stop : ℕ) (b : BsonInfo) : StringHelper → Prop
  | .cstring => ∃ n, strlen b.buffer b.position = some n ∧ 2 * (b.position + n + 1) ≤ stop
  | .string => ∃ n : ℤ, int32At b.buffer b.position = some n ∧ 1 ≤ n ∧
      2 * (b.position + 4 + n) ≤ stop

def Defined (b : BsonInfo) : StringHelper → Prop
  | .cstring => ∃ n, strlen b.buffer b.position = some n
  | .string => ∃ n, int32At b.buffer b.position = some n

end StringHelper

/-- The helpers that the switch calls, each with the handle it is called on. -/
def payloadHelpers (b : BsonInfo) : BsonType → List (StringHelper × BsonInfo)
  | .string => [(.string, b)]
  | .regex => (.cstring, b) :: ((cstringStride b).map fun k => (.cstring, advance b k)).toList
  | .dbpointer => [(.string, b)]
  | .js => [(.string, b)]
  | .symbol => [(.string, b)]
  | .jsCode => [(.string, advance b 4)]
  | _ => []

/-- The helpers that a call of `bson_deserialize` calls. -/
def helperCalls (b : BsonInfo) : List (StringHelper × BsonInfo) :=
  if b.size < 2 then []
  else (.cstring, advance b 1) ::
    (((cstringStride (advance b 1)).bind fun k => b.buffer[b.position]?.bind fun type =>
      (BsonType.ofByte type).map (payloadHelpers (advance b (1 + k)))).getD [])

/-- The helpers accept just the strings inside the document, and a call in which one of them
rejects its string returns -1. -/
def JudgedRight (stop : ℕ) (b : BsonInfo) (r : ℤ) : Prop :=
  ∀ x ∈ helperCalls b, ∀ kv ok c kv', x.1.call x.2 kv = some (ok, c, kv') →
    (ok = true ↔ x.1.Within stop x.2) ∧ (ok = false → r = -1)

section Judge

variable {b b' c : BsonInfo} {r : ℤ} {stop : ℕ}

/-- A state of the decoder in a document that ends at `stop`. -/
structure Tracks (stop : ℕ) (b : BsonInfo) : Prop where
  end_eq : (b.position + b.size) % 2 ^ 64 = stop
  inside : stop ≤ b.buffer.length
  buffer_lt : b.buffer.length < 2 ^ 62

theorem Tracks.advance (hb : Tracks stop b) (a : ℤ) : Tracks stop (advance b a) :=
  ⟨(advance_end b a).trans hb.end_eq, hb.inside, hb.buffer_lt⟩

theorem payloadHelpers_spec {t : BsonType} {m : ℤ} (hm : payloadStride b t = some m)
    {x : StringHelper × BsonInfo} (hx : x ∈ payloadHelpers b t) :
    (x.2 = b ∨ ∃ a, x.2 = advance b a) ∧ x.1.Defined x.2 := by
  have hstring : ∀ {c : BsonInfo} {k : ℤ}, stringStride c = some k →
      StringHelper.string.Defined c := by
    intro c k hk
    obtain ⟨n, hn, -⟩ := Option.map_eq_some_iff.mp hk
    exact ⟨n, hn⟩
  have hcstring : ∀ {c : BsonInfo} {k : ℤ}, cstringStride c = some k →
      StringHelper.cstring.Defined c := by
    intro c k hk
    obtain ⟨n, hn, -⟩ := Option.map_eq_some_iff.mp hk
    exact ⟨n, hn⟩
  cases t with
  | double | embeddedDocument | array | binary | undefined | objectid | boolean | utcDatetime |
    null | int32 | timestamp | int64 | min | max => exact absurd hx List.not_mem_nil
  | string | js | symbol =>
    obtain rfl := List.mem_singleton.mp hx
    exact ⟨.inl rfl, hstring hm⟩
  | dbpointer =>
    obtain rfl := List.mem_singleton.mp hx
    obtain ⟨k, hk, -⟩ := Option.map_eq_some_iff.mp hm
    exact ⟨.inl rfl, hstring hk⟩
  | regex =>
    obtain ⟨k, hk, hm⟩ := Option.bind_eq_some_iff.mp hm
    obtain ⟨k', hk', -⟩ := Option.bind_eq_some_iff.mp hm
    rw [payloadHelpers, hk] at hx
    rcases List.mem_cons.mp hx with rfl | hx
    · exact ⟨.inl rfl, hcstring hk⟩
    · obtain rfl := List.mem_singleton.mp hx
      exact ⟨.inr ⟨k, rfl⟩, hcstring hk'⟩
  | jsCode =>
    obtain rfl := List.mem_singleton.mp hx
    obtain ⟨k, hk, -⟩ := Option.bind_eq_some_iff.mp hm
    exact ⟨.inr ⟨4, rfl⟩, hstring hk⟩

/-- The helpers of a call that returns have returned themselves, and `deserialize_string` is
only called for types that are known. -/
theorem helperCalls_spec (h : cursorStep b = some (r, b')) {x : StringHelper × BsonInfo}
    (hx : x ∈ helperCalls b) :
    (∃ a, x.2 = advance b a) ∧ x.1.Defined x.2 ∧ (x.1 = .string → r = 1) := by
  rw [helperCalls] at hx
  by_cases hsize : b.size < 2
  · rw [if_pos hsize] at hx
    exact absurd hx List.not_mem_nil
  rw [if_neg hsize] at hx
  obtain ⟨type, k, htype, hk, hm⟩ := cursorStep_head (by omega) h
  rw [hk, Option.bind_some, htype, Option.bind_some] at hx
  rcases List.mem_cons.mp hx with rfl | hx
  · obtain ⟨n, hn, -⟩ := Option.map_eq_some_iff.mp hk
    exact ⟨⟨1, rfl⟩, ⟨n, hn⟩, fun h => by cases h⟩
  cases ht : BsonType.ofByte type with
  | none =>
    rw [ht] at hx
    exact absurd hx List.not_mem_nil
  | some t =>
    rw [ht] at hx
    obtain ⟨m, hm, hone, -⟩ := hm t ht
    obtain ⟨hstate, hdef⟩ := payloadHelpers_spec hm hx
    refine ⟨?_, hdef, fun _ => hone⟩
    rcases hstate with h | ⟨a, h⟩
    · exact ⟨_, h⟩
    · exact ⟨_, h.trans (advance_advance b _ a)⟩

theorem judge_cstring (hc : Tracks stop c) {n : ℕ}
    (hn : strlen c.buffer c.position = some n) :
    judge (advance c (n + 1)) = true ↔
      2 * (c.position + n + 1) ≤ stop ∨ stop < c.position + n + 1 := by
  have hend := hc.end_eq
  have hin := hc.inside
  have hlt := hc.buffer_lt
  have hlen : c.position + n + 1 ≤ c.buffer.length := by
    rw [strlen] at hn
    split at hn
    case isFalse => cases hn
    case isTrue h =>
      rw [Option.some.inj hn, List.length_drop] at h
      omega
  rw [judge, decide_eq_true_iff, Nat.not_lt]
  change u64 ((c.position : ℤ) + ((n : ℤ) + 1)) ≤ u64 ((c.size : ℤ) - ((n : ℤ) + 1)) ↔ _
  unfold u64
  omega

theorem judge_string (hc : Tracks stop c) {n : ℤ}
    (hn : int32At c.buffer c.position = some n) :
    judge (advance c (4 + n)) = true ↔
      0 ≤ c.position + 4 + n ∧ 2 * (c.position + 4 + n) ≤ stop ∨ stop < c.position + 4 + n := by
  have hend := hc.end_eq
  have hin := hc.inside
  have hlt := hc.buffer_lt
  have hrange := int32At_range hn
  have hlen : c.position + 4 ≤ c.buffer.length := by
    rw [int32At] at hn
    split at hn
    case isFalse => cases hn
    case isTrue h => exact h
  rw [judge, decide_eq_true_iff, Nat.not_lt]
  change u64 (c.position + (4 + n)) ≤ u64 (c.size - (4 + n)) ↔ _
  unfold u64
  omega

theorem cstring_right_iff (hc : Tracks stop c) {n : ℕ} (hn : strlen c.buffer c.position = some n) :
    (∀ kv ok d kv', deserializeCstring c kv = some (ok, d, kv') →
      (ok = true ↔ StringHelper.cstring.Within stop c) ∧ (ok = false → r = -1)) ↔
    StringHelper.cstring.InFirstHalf stop c := by
  have hjudge := judge_cstring hc hn
  have hcall : ∀ kv, deserializeCstring c kv = some (judge (advance c (n + 1)),
      advance c (n + 1), { kv with data := c.position }) := by
    intro kv
    rw [deserializeCstring_eq, cstringStride, hn]
    rfl
  constructor
  · intro h
    obtain ⟨hiff, -⟩ := h ⟨0, 0, 0, 0, 0⟩ _ _ _ (hcall _)
    refine ⟨n, hn, ?_⟩
    by_cases hin : c.position + n + 1 ≤ stop
    · rcases hjudge.mp (hiff.mpr ⟨n, hn, hin⟩) with hle | hgt
      · exact hle
      · omega
    · obtain ⟨m, hm, hle⟩ := hiff.mp (hjudge.mpr (.inr (by omega)))
      obtain rfl := Option.some.inj (hn.symm.trans hm)
      exact absurd hle hin
  · rintro ⟨m, hm, hle⟩ kv ok d kv' hret
    obtain rfl := Option.some.inj (hn.symm.trans hm)
    rw [hcall] at hret
    have hok : ok = true := (Prod.mk.inj (Option.some.inj hret)).1 ▸ hjudge.mpr (.inl hle)
    exact ⟨⟨fun _ => ⟨n, hn, by omega⟩, fun _ => hok⟩, fun hfalse => by
      rw [hok] at hfalse
      cases hfalse⟩

theorem string_right_iff (hc : Tracks stop c) {n : ℤ} (hn : int32At c.buffer c.position = some n)
    (hone : r = 1) :
    (∀ kv ok d kv', deserializeString c kv = some (ok, d, kv') →
      (ok = true ↔ StringHelper.string.Within stop c) ∧ (ok = false → r = -1)) ↔
    StringHelper.string.InFirstHalf stop c := by
  have hjudge := judge_string hc hn
  have hcall : ∀ kv, deserializeString c kv = some (judge (advance c (4 + n)),
      advance c (4 + n), { kv with size := i32 (n - 1), data := (advance c 4).position }) := by
    intro kv
    rw [deserializeString_eq, hn]
    rfl
  constructor
  · intro h
    obtain ⟨hiff, hfail⟩ := h ⟨0, 0, 0, 0, 0⟩ _ _ _ (hcall _)
    have hok : judge (advance c (4 + n)) = true := by
      refine Bool.eq_true_of_not_eq_false fun hfalse => ?_
      have hminus := hfail hfalse
      omega
    obtain ⟨m, hm, hpos, hin⟩ := hiff.mp hok
    obtain rfl := Option.some.inj (hn.symm.trans hm)
    refine ⟨n, hn, hpos, ?_⟩
    rcases hjudge.mp hok with ⟨-, hle⟩ | hgt
    · exact hle
    · omega
  · rintro ⟨m, hm, hpos, hle⟩ kv ok d kv' hret
    obtain rfl := Option.some.inj (hn.symm.trans hm)
    rw [hcall] at hret
    have hok : ok = true :=
      (Prod.mk.inj (Option.some.inj hret)).1 ▸ hjudge.mpr (.inl ⟨by omega, hle⟩)
    exact ⟨⟨fun _ => ⟨n, hn, hpos, by omega⟩, fun _ => hok⟩, fun hfalse => by
      rw [hok] at hfalse
      cases hfalse⟩

end Judge

/-- In a call that returns, the strings are judged right just when they all end in the first
half of the document. -/
theorem judged_right_iff (start b b' : BsonInfo) (v v2 w w2 : BsonRef) (r : ℤ)
    (hstart : start.position + start.size ≤ start.buffer.length)
    (hlen : start.buffer.length < 2 ^ 62) (hreached : Reached start b)
    (hcall : bsonDeserialize b v v2 = some (r, b', w, w2)) :
    JudgedRight (start.position + start.size) b r ↔
      ∀ x ∈ helperCalls b, x.1.InFirstHalf (start.position + start.size) x.2 := by
  have hb : Tracks (start.position + start.size) b := by
    refine ⟨?_, ?_, ?_⟩
    · rw [hreached.end_eq]
      exact Nat.mod_eq_of_lt (by omega)
    · rw [hreached.buffer_eq]
      exact hstart
    · rw [hreached.buffer_eq]
      exact hlen
  have hstep := cursorStep_of_call hcall
  refine forall₂_congr fun x hx => ?_
  obtain ⟨⟨a, ha⟩, hdef, hone⟩ := helperCalls_spec hstep hx
  obtain ⟨helper, c⟩ := x
  have hc : Tracks (start.position + start.size) c := by
    rw [show c = advance b a from ha]
    exact hb.advance a
  cases helper with
  | cstring =>
    obtain ⟨n, hn⟩ := hdef
    exact cstring_right_iff hc hn
  | string =>
    obtain ⟨n, hn⟩ := hdef
    exact string_right_iff hc hn (hone rfl)

/-- Two nulls under empty keys, and the end. -/
def twoNulls : List UInt8 := [0x0a, 0, 0x0a, 0, 0]

theorem judged_right_twoNulls : JudgedRight 5 (bare twoNulls) 1 := by
  refine (judged_right_iff (bare twoNulls) (bare twoNulls) ⟨3, 0, 2, twoNulls⟩ noRef noRef
    ⟨0x0a, 0, 0, 1, 1⟩ noRef 1 (by decide) (by decide) .refl (by decide)).mpr fun x hx => ?_
  rw [show helperCalls (bare twoNulls) = [(.cstring, ⟨4, 0, 1, twoNulls⟩)] by decide] at hx
  obtain rfl := List.mem_singleton.mp hx
  exact ⟨0, by decide, by decide⟩

/-- The key of the one element lies inside the document and is rejected, which does not keep
the call from returning 1; and a string of a hundred bytes is accepted where five are left. -/
theorem verdicts_reversed :
    (∃ c kv, deserializeCstring (advance (bare oneNull) 1) noRef = some (false, c, kv)) ∧
      StringHelper.cstring.Within 3 (advance (bare oneNull) 1) ∧
      (∃ b w w2, bsonDeserialize (bare oneNull) noRef noRef = some (1, b, w, w2)) ∧
      ¬ JudgedRight 3 (bare oneNull) 1 ∧
      (∃ c kv, deserializeString ⟨5, 0, 2, [0x02, 0, 100, 0, 0, 0, 0]⟩ noRef =
        some (true, c, kv)) ∧
      ¬ StringHelper.string.Within 7 ⟨5, 0, 2, [0x02, 0, 100, 0, 0, 0, 0]⟩ := by
  have hcall : deserializeCstring (advance (bare oneNull) 1) noRef =
      some (false, ⟨1, 0, 2, oneNull⟩, ⟨0, 0, 0, 0, 1⟩) := by decide
  have hwithin : StringHelper.cstring.Within 3 (advance (bare oneNull) 1) :=
    ⟨0, by decide, by decide⟩
  refine ⟨⟨_, _, hcall⟩, hwithin, ⟨⟨1, 0, 2, oneNull⟩, ⟨0x0a, 0, 0, 1, 1⟩, noRef, by decide⟩,
    fun hright => ?_, ⟨⟨2 ^ 64 - 99, 0, 106, [0x02, 0, 100, 0, 0, 0, 0]⟩, ⟨0, 0, 99, 0, 6⟩,
      by decide +kernel⟩, ?_⟩
  · have hiff := (hright (.cstring, advance (bare oneNull) 1) List.mem_cons_self noRef _ _ _
      hcall).1
    exact absurd (hiff.mpr hwithin) (by decide)
  · rintro ⟨n, hn, -, hle⟩
    rw [show int32At [0x02, 0, 100, 0, 0, 0, 0] 2 = some 100 by decide +kernel] at hn
    rw [← Option.some.inj hn] at hle
    exact absurd hle (by decide)

end GammaRay.Bson
