import GammaRay.BsonEncoder

set_option autoImplicit false

/-!
# What the encoder appends

Every function of the encoder appends a fixed byte string to what the handle already
holds, wherever the buffer has to be reallocated on the way. `Fills` is that statement
for a copy into room already reserved, `Appends` for a call that reserves its own room.
-/
namespace GammaRay.Bson
open Bytes

/-- The largest buffer that `new_size` can reach without leaving `int32_t`. -/
def maxSize : ℕ := 1073741824

structure Holds (b : BsonInfo) (written : List UInt8) : Prop where
  position : b.position = written.length
  contents : b.buffer.take written.length = written
  size : b.size = b.buffer.length
  power : ∃ k, 12 ≤ k ∧ k ≤ 30 ∧ b.size = 2 ^ k

theorem Holds.fits {b : BsonInfo} {w : List UInt8} (hb : Holds b w) :
    w.length ≤ b.buffer.length := by
  have h := congrArg List.length hb.contents
  simp only [List.length_take] at h
  omega

theorem Holds.size_le {b : BsonInfo} {w : List UInt8} (hb : Holds b w) : b.size ≤ maxSize := by
  obtain ⟨k, _, hk, hs⟩ := hb.power
  have hp : (2 : ℕ) ^ k ≤ 2 ^ 30 := Nat.pow_le_pow_right (by decide) hk
  rw [hs, maxSize]
  omega

theorem Holds.unique {b : BsonInfo} {w w' : List UInt8} (h : Holds b w) (h' : Holds b w') :
    w = w' := by
  rw [← h.contents, ← h'.contents, ← h.position, ← h'.position]

theorem bsonInit_holds (h : Heap) : Holds (bsonInit h) [] := by
  refine ⟨rfl, rfl, ?_, 12, le_refl _, by decide, rfl⟩
  simp [bsonInit]

theorem newSizeLoop_power (fuel k : ℕ) (needed : ℤ) (hk : k ≤ 30) (hf : 30 ≤ fuel + k)
    (hn : needed ≤ 2 ^ 30) :
    ∃ j, k ≤ j ∧ j ≤ 30 ∧ needed ≤ 2 ^ j ∧ newSizeLoop fuel (2 ^ k) needed = some (2 ^ j) := by
  induction fuel generalizing k with
  | zero =>
    have hk30 : k = 30 := by omega
    subst hk30
    have hge : ¬ (2 : ℤ) ^ 30 < needed := by omega
    exact ⟨30, le_refl _, le_refl _, hn, by simp only [newSizeLoop, hge, ↓reduceIte]⟩
  | succ fuel ih =>
    by_cases hlt : (2 : ℤ) ^ k < needed
    · have hk' : k < 30 := by
        by_contra hge
        have hk30 : k = 30 := by omega
        subst hk30
        omega
      have hp : (2 : ℤ) ^ (k + 1) ≤ 2 ^ 30 := pow_le_pow_right₀ (by norm_num) hk'
      have hd : 2 * (2 : ℤ) ^ k = 2 ^ (k + 1) := by rw [pow_succ]; ring
      obtain ⟨j, hkj, hj, hnj, he⟩ := ih (k + 1) (by omega) (by omega)
      refine ⟨j, by omega, hj, hnj, ?_⟩
      have hpos : (0 : ℤ) < 2 ^ k := by positivity
      have hbound : 2 * (2 : ℤ) ^ k < 2 ^ 31 := by rw [hd]; omega
      simp only [newSizeLoop, hlt, hpos, hbound, and_self, ↓reduceIte]
      rw [hd, he]
    · exact ⟨k, le_refl _, hk, by omega, by simp only [newSizeLoop, hlt, ↓reduceIte]⟩

theorem newSize_power (k : ℕ) (needed : ℤ) (hk : k ≤ 30) (hn : needed ≤ 2 ^ 30) :
    ∃ j, k ≤ j ∧ j ≤ 30 ∧ needed ≤ 2 ^ j ∧ newSize (2 ^ k) needed = some (2 ^ j) :=
  newSizeLoop_power 31 k needed hk (by omega) hn

/-- What `new_size` comes to decides what `resize` leaves. -/
theorem resize_of_newSize (h : Heap) {b : BsonInfo} {w : List UInt8} {k j : ℕ} {needed : ℤ}
    (hb : Holds b w) (hs : b.size = 2 ^ k) (hk12 : 12 ≤ k) (hkj : k ≤ j) (hj : j ≤ 30)
    (he : newSize (2 ^ k) needed = some (2 ^ j)) :
    ∃ b', resize h b needed = some b' ∧ Holds b' w ∧ b'.buffer.length = 2 ^ j := by
  have hk : (2 : ℕ) ^ k ≤ 2 ^ 30 := Nat.pow_le_pow_right (by decide) (hkj.trans hj)
  have hfit := hb.fits
  have hlen := hb.size
  rw [hs] at hlen
  have hkc : ((2 : ℤ) ^ k) = ((2 ^ k : ℕ) : ℤ) := by push_cast; rfl
  have hold : i32 (b.size : ℤ) = 2 ^ k := by
    rw [hs, hkc, i32_of_range (by omega) (by omega)]
  have hj30 : (2 : ℕ) ^ j ≤ 2 ^ 30 := Nat.pow_le_pow_right (by decide) hj
  have hkj' : (2 : ℕ) ^ k ≤ 2 ^ j := Nat.pow_le_pow_right (by decide) hkj
  have hu : u64 ((2 : ℤ) ^ j) = 2 ^ j := by
    have hc : ((2 : ℤ) ^ j) = ((2 ^ j : ℕ) : ℤ) := by push_cast; rfl
    rw [hc, u64_natCast (by omega)]
  have ht : ((2 : ℤ) ^ k).toNat = 2 ^ k := by rw [hkc, Int.toNat_natCast]
  have hguard : (0 : ℤ) ≤ 2 ^ k ∧ (2 : ℤ) ^ k ≤ b.buffer.length ∧
      (2 : ℤ) ^ k ≤ (u64 ((2 : ℤ) ^ j) : ℤ) := by
    rw [hu, hkc, ← hlen]
    exact ⟨by omega, le_refl _, by omega⟩
  have hbuf : (b.buffer.take (2 ^ k) ++ (h.malloc (2 ^ j)).drop (2 ^ k)).length = 2 ^ j := by
    simp only [List.length_append, List.length_take, List.length_drop, Heap.malloc_length]
    omega
  refine ⟨{ b with size := 2 ^ j, buffer := b.buffer.take (2 ^ k) ++ (h.malloc (2 ^ j)).drop (2 ^ k) },
    ?_, ⟨hb.position, ?_, hbuf.symm, j, by omega, hj, rfl⟩, hbuf⟩
  · simp only [resize, hold, he, Option.bind_eq_bind, Option.bind_some]
    rw [if_pos hguard, hu, ht]
  · rw [List.take_append_of_le_length (by simp; omega), List.take_take, min_eq_left (by omega)]
    exact hb.contents

theorem resize_holds (h : Heap) {b : BsonInfo} {w : List UInt8} {n : ℕ} (hb : Holds b w)
    (hn : n ≤ maxSize) :
    ∃ b', resize h b n = some b' ∧ Holds b' w ∧ n ≤ b'.buffer.length := by
  obtain ⟨k, hk12, hk30, hs⟩ := hb.power
  have hn30 : (n : ℤ) ≤ 2 ^ 30 := by rw [maxSize] at hn; omega
  obtain ⟨j, hkj, hj, hnj, he⟩ := newSize_power k n hk30 hn30
  obtain ⟨b', hr, hb', hlen⟩ := resize_of_newSize h hb hs hk12 hkj hj he
  refine ⟨b', hr, hb', ?_⟩
  rw [hlen]
  exact_mod_cast hnj

theorem checkSize_holds (h : Heap) {b : BsonInfo} {w : List UInt8} {n : ℕ} (hb : Holds b w)
    (hn : w.length + n ≤ maxSize) :
    ∃ b', checkSize h b n = some b' ∧ Holds b' w ∧ w.length + n ≤ b'.buffer.length := by
  have hmax : maxSize = 1073741824 := rfl
  have hu : u64 ((b.position : ℤ) + n) = w.length + n := by
    rw [hb.position]
    have hc : ((w.length : ℤ) + n) = ((w.length + n : ℕ) : ℤ) := by push_cast; rfl
    rw [hc, u64_natCast (by omega)]
  by_cases hlt : b.size < w.length + n
  · obtain ⟨b', he, hb', hfit⟩ := resize_holds h hb hn
    have hi : i32 ((w.length + n : ℕ) : ℤ) = ((w.length + n : ℕ) : ℤ) :=
      i32_of_range (by omega) (by omega)
    exact ⟨b', by rw [checkSize, hu, if_pos hlt, hi, he], hb', hfit⟩
  · refine ⟨b, ?_, hb, ?_⟩
    · rw [checkSize, hu, if_neg hlt]
    · rw [← hb.size]
      omega

/-- A copy into room that is already there. -/
def Fills (f : BsonInfo → Option BsonInfo) (bytes : List UInt8) : Prop :=
  ∀ b w, Holds b w → w.length + bytes.length ≤ b.buffer.length →
    ∃ b', f b = some b' ∧ Holds b' (w ++ bytes) ∧ b'.buffer.length = b.buffer.length

/-- A call that reserves the room it needs. -/
def Appends (f : BsonInfo → Option BsonInfo) (bytes : List UInt8) : Prop :=
  ∀ b w, Holds b w → w.length + bytes.length ≤ maxSize →
    ∃ b', f b = some b' ∧ Holds b' (w ++ bytes)

theorem put_fills (src : List UInt8) : Fills (put src) src := by
  intro b w hb hroom
  have hlen : (splice b.buffer b.position src).length = b.buffer.length :=
    splice_length (by rw [hb.position]; exact hroom)
  refine ⟨{ b with buffer := splice b.buffer b.position src, position := b.position + src.length },
    ?_, ⟨?_, ?_, ?_, hb.power⟩, hlen⟩
  · rw [put, if_pos (by rw [hb.position]; exact hroom)]
  · simp [hb.position]
  · simp only [List.length_append]
    rw [hb.position, splice_take hb.fits, hb.contents]
  · rw [hlen]
    exact hb.size

theorem Fills.bind {f g : BsonInfo → Option BsonInfo} {x y : List UInt8} (hf : Fills f x)
    (hg : Fills g y) : Fills (fun b => (f b).bind g) (x ++ y) := by
  intro b w hb hroom
  simp only [List.length_append] at hroom
  obtain ⟨b₁, h₁, hb₁, hl₁⟩ := hf b w hb (by omega)
  obtain ⟨b₂, h₂, hb₂, hl₂⟩ := hg b₁ (w ++ x) hb₁ (by simp only [List.length_append]; omega)
  refine ⟨b₂, ?_, ?_, by omega⟩
  · simp only [h₁, Option.bind_some, h₂]
  · rw [← List.append_assoc]
    exact hb₂

theorem Fills.reserve (h : Heap) {f : BsonInfo → Option BsonInfo} {bytes : List UInt8} {n : ℤ}
    (hf : Fills f bytes) (hn : n = bytes.length) :
    Appends (fun b => (checkSize h b n).bind f) bytes := by
  intro b w hb hroom
  subst hn
  obtain ⟨b₁, h₁, hb₁, hl₁⟩ := checkSize_holds h hb hroom
  obtain ⟨b₂, h₂, hb₂, _⟩ := hf b₁ w hb₁ hl₁
  exact ⟨b₂, by simp only [h₁, Option.bind_some, h₂], hb₂⟩

theorem Appends.bind {f g : BsonInfo → Option BsonInfo} {x y : List UInt8} (hf : Appends f x)
    (hg : Appends g y) : Appends (fun b => (f b).bind g) (x ++ y) := by
  intro b w hb hroom
  simp only [List.length_append] at hroom
  obtain ⟨b₁, h₁, hb₁⟩ := hf b w hb (by omega)
  obtain ⟨b₂, h₂, hb₂⟩ := hg b₁ (w ++ x) hb₁ (by simp only [List.length_append]; omega)
  refine ⟨b₂, by simp only [h₁, Option.bind_some, h₂], ?_⟩
  rw [← List.append_assoc]
  exact hb₂

theorem some_appends : Appends some [] := by
  intro b w hb _
  exact ⟨b, rfl, by simpa using hb⟩

theorem copyLen_left (src rest : List UInt8) : copyLen src.length (src ++ rest) = some src := by
  rw [copyLen, if_pos ⟨by omega, by simp⟩]
  simp

theorem serializeCstring_appends (h : Heap) (str : List UInt8) (hz : 0 ∉ str) :
    Appends (fun b => serializeCstring h b str) (str ++ [0]) := by
  have hmax : maxSize = 1073741824 := rfl
  have htw := takeWhile_of_notMem str hz
  have hlen : ((str ++ [0]).length : ℤ) = str.length + 1 := by simp
  intro b w hb hroom
  have hi : i32 ((str.length : ℤ) + 1) = ((str ++ [0]).length : ℤ) := by
    rw [hlen]
    exact i32_of_range (by omega) (by omega)
  obtain ⟨b', he, hb'⟩ := (put_fills (str ++ [0])).reserve h hi b w hb hroom
  refine ⟨b', ?_, hb'⟩
  simpa only [serializeCstring, htw, Option.bind_eq_bind] using he

/-- `string ::= int32 (byte*) "\x00"`. -/
def stringBytes (s : List UInt8) : List UInt8 := i32Bytes (s.length + 1) ++ (s ++ [0])

@[simp] theorem stringBytes_length (s : List UInt8) : (stringBytes s).length = s.length + 5 := by
  simp only [stringBytes, List.length_append, i32Bytes_length, List.length_cons, List.length_nil]
  omega

theorem serializeString_appends (h : Heap) (s rest : List UInt8) :
    Appends (fun b => serializeString h b s.length (s ++ rest)) (stringBytes s) := by
  have hmax : maxSize = 1073741824 := rfl
  have hlen : ((stringBytes s).length : ℤ) = s.length + 1 + 4 := by simp; omega
  intro b w hb hroom
  have hsize : i32 ((s.length : ℤ) + 1) = s.length + 1 := i32_of_range (by omega) (by omega)
  have hadd : i32 ((s.length : ℤ) + 1 + 4) = ((stringBytes s).length : ℤ) := by
    rw [hlen]
    exact i32_of_range (by omega) (by omega)
  have hr := ((put_fills (i32Bytes (s.length + 1))).bind
    ((put_fills s).bind (put_fills [0]))).reserve h hadd
  obtain ⟨b', he, hb'⟩ := hr b w hb hroom
  refine ⟨b', ?_, hb'⟩
  simpa only [serializeString, hsize, copyLen_left, Option.bind_eq_bind, Option.bind_some] using he

/-- A fixed-width payload is copied from the front of what `data` points at. -/
theorem serializeFixed_appends_left (h : Heap) (data rest : List UInt8) :
    Appends (fun b => serializeFixed h b data.length (data ++ rest)) data := by
  have hr := (put_fills data).reserve h rfl
  intro b w hb hroom
  obtain ⟨b', he, hb'⟩ := hr b w hb hroom
  refine ⟨b', ?_, hb'⟩
  simpa only [serializeFixed, copyLen_left, Option.bind_eq_bind, Option.bind_some] using he

theorem serializeFixed_appends (h : Heap) (width : ℕ) (data : List UInt8)
    (hd : data.length = width) : Appends (fun b => serializeFixed h b width data) data := by
  have hr := serializeFixed_appends_left h data []
  rw [List.append_nil, hd] at hr
  exact hr

theorem serializeBoolean_appends (h : Heap) (byte : UInt8) :
    Appends (fun b => serializeBoolean h b [byte]) [if byte ≠ 0 then 0x01 else 0x00] :=
  (put_fills _).reserve h rfl

theorem serializeBinary_appends_left (h : Heap) (subtype : UInt8) (data rest : List UInt8) :
    Appends (fun b => serializeBinary h b data.length subtype (data ++ rest))
      (i32Bytes data.length ++ ([subtype] ++ data)) := by
  have hmax : maxSize = 1073741824 := rfl
  have hlen : ((i32Bytes data.length ++ ([subtype] ++ data)).length : ℤ) =
      4 + 1 + (data.length : ℤ) := by simp; omega
  intro b w hb hroom
  have hadd : i32 (4 + 1 + (data.length : ℤ)) =
      ((i32Bytes data.length ++ ([subtype] ++ data)).length : ℤ) := by
    rw [hlen]
    exact i32_of_range (by omega) (by omega)
  have hr := ((put_fills (i32Bytes data.length)).bind
    ((put_fills [subtype]).bind (put_fills data))).reserve h hadd
  obtain ⟨b', he, hb'⟩ := hr b w hb hroom
  refine ⟨b', ?_, hb'⟩
  simpa only [serializeBinary, copyLen_left, Option.bind_eq_bind, Option.bind_some] using he

theorem serializeBinary_appends (h : Heap) (subtype : UInt8) (data : List UInt8) :
    Appends (fun b => serializeBinary h b data.length subtype data)
      (i32Bytes data.length ++ ([subtype] ++ data)) := by
  have hr := serializeBinary_appends_left h subtype data []
  rw [List.append_nil] at hr
  exact hr

/-- A finished document: its bytes stand at the front of the buffer. -/
structure Finished (b : BsonInfo) (bytes : List UInt8) : Prop where
  position : b.position = bytes.length
  contents : b.buffer.take bytes.length = bytes
  size : b.size = b.buffer.length
  size_ge : startSize ≤ b.size

theorem serializeDocument_appends (h : Heap) {d : BsonInfo} {bytes : List UInt8}
    (hd : Finished d bytes) : Appends (fun b => serializeDocument h b d) bytes := by
  have hmax : maxSize = 1073741824 := rfl
  have hcopy : copyLen (bytes.length : ℤ) d.buffer = some bytes := by
    have hle : bytes.length ≤ d.buffer.length := by
      have hl := congrArg List.length hd.contents
      simp only [List.length_take] at hl
      omega
    rw [copyLen, if_pos ⟨by omega, by omega⟩, Int.toNat_natCast, hd.contents]
  intro b w hb hroom
  have hi : i32 (bytes.length : ℤ) = (bytes.length : ℤ) := i32_of_range (by omega) (by omega)
  obtain ⟨b', he, hb'⟩ := (put_fills bytes).reserve h rfl b w hb hroom
  refine ⟨b', ?_, hb'⟩
  simpa only [serializeDocument, hd.position, hi, hcopy, Option.bind_eq_bind,
    Option.bind_some] using he

theorem packedLen_append (s rest : List UInt8) (hs : s.length ≤ maxSize) :
    packedLen (i32Bytes s.length ++ (s ++ rest)) = some (s.length : ℤ) := by
  have hmax : maxSize = 1073741824 := rfl
  have h4 : (i32Bytes (s.length : ℤ)).length = 4 := i32Bytes_length _
  rw [packedLen, if_pos (by simp)]
  have ht : (i32Bytes (s.length : ℤ) ++ (s ++ rest)).take 4 = i32Bytes s.length := by
    rw [← h4, List.take_left]
  have hv : i32 (leNat (i32Bytes (s.length : ℤ))) = s.length :=
    i32_leNat_i32Bytes (by omega) (by omega)
  rw [ht, hv]

/-- The packed string comes off the front of the tuple; `rest` is what lies behind it. -/
theorem serializePacked_holds (h : Heap) (s rest : List UInt8) {b : BsonInfo} {w : List UInt8}
    (hb : Holds b w) (hroom : w.length + (stringBytes s).length ≤ maxSize) :
    ∃ b', serializePacked h b (i32Bytes s.length ++ (s ++ rest)) = some (b', rest) ∧
      Holds b' (w ++ stringBytes s) := by
  have hs : s.length + 5 ≤ maxSize := by
    rw [stringBytes_length] at hroom
    omega
  have h4 : (i32Bytes (s.length : ℤ)).length = 4 := i32Bytes_length _
  have hlen := packedLen_append s rest (by omega)
  have hdrop : (i32Bytes (s.length : ℤ) ++ (s ++ rest)).drop 4 = s ++ rest := by
    rw [← h4, List.drop_left]
  have hrest : (i32Bytes (s.length : ℤ) ++ (s ++ rest)).drop (4 + s.length) = rest := by
    rw [← List.drop_drop, hdrop, List.drop_left]
  obtain ⟨b', he, hb'⟩ := serializeString_appends h s rest b w hb hroom
  refine ⟨b', ?_, hb'⟩
  beta_reduce at he
  rw [serializePacked, hlen, Option.bind_eq_bind, Option.bind_some, hdrop, he,
    Option.bind_eq_bind, Option.bind_some, Int.toNat_natCast, hrest]

theorem serializePacked_appends (h : Heap) (s rest : List UInt8)
    {g : List UInt8 → BsonInfo → Option BsonInfo} {y : List UInt8} (hg : Appends (g rest) y) :
    Appends (fun b => (serializePacked h b (i32Bytes s.length ++ (s ++ rest))).bind
      fun r => g r.2 r.1) (stringBytes s ++ y) := by
  intro b w hb hroom
  rw [List.length_append] at hroom
  obtain ⟨b₁, h₁, hb₁⟩ := serializePacked_holds h s rest hb (by omega)
  obtain ⟨b₂, h₂, hb₂⟩ := hg b₁ _ hb₁ (by rw [List.length_append]; omega)
  refine ⟨b₂, ?_, ?_⟩
  · beta_reduce
    rw [h₁, Option.bind_some, h₂]
  · rw [← List.append_assoc]
    exact hb₂

theorem serializeElement_appends (h : Heap) (kv : BsonKv) {payload : List UInt8}
    (hz : 0 ∉ kv.key) (hp : Appends (fun b => serializePayload h b kv) payload) :
    Appends (fun b => bsonSerialize h b kv)
      ([kv.type.code] ++ ((kv.key ++ [0]) ++ payload)) := by
  have hr := ((put_fills [kv.type.code]).reserve h rfl).bind
    ((serializeCstring_appends h kv.key hz).bind hp)
  intro b w hb hroom
  obtain ⟨b', he, hb'⟩ := hr b w hb hroom
  refine ⟨b', ?_, hb'⟩
  beta_reduce at he
  rw [Option.bind_assoc] at he
  exact he

/-- `document ::= int32 e_list "\x00"`, the length counting itself and the terminator. -/
def frame (body : List UInt8) : List UInt8 := i32Bytes (body.length + 5) ++ (body ++ [0])

@[simp] theorem frame_length (body : List UInt8) : (frame body).length = body.length + 5 := by
  simp only [frame, List.length_append, i32Bytes_length, List.length_cons, List.length_nil]
  omega

theorem finalize_buffer (n : ℤ) (w buf : List UInt8) (hfit : w.length + 5 ≤ buf.length) :
    (splice (splice buf 4 w) 0 (i32Bytes n)).take (w.length + 4) = i32Bytes n ++ w := by
  have hlen : (splice buf 4 w).length = buf.length := splice_length (by omega)
  have h4 : (i32Bytes n).length = 4 := i32Bytes_length n
  have hmoved : ((splice buf 4 w).drop 4).take w.length = w := by
    have ht := @splice_take buf w 4 (by omega)
    have hd := congrArg (List.drop 4) ht
    rw [List.drop_take, Nat.add_sub_cancel_left] at hd
    rw [hd, List.drop_left' (by rw [List.length_take]; omega)]
  rw [splice, List.take_zero, List.nil_append, Nat.zero_add, h4, Nat.add_comm, ← h4,
    List.take_length_add_append, h4, hmoved]

theorem bsonFinalize_holds (h : Heap) {b : BsonInfo} {w : List UInt8} (hb : Holds b w)
    (hroom : w.length + 5 ≤ maxSize) :
    ∃ b', bsonFinalize h b = some b' ∧ Holds b' (frame w) := by
  have hmax : maxSize = 1073741824 := rfl
  obtain ⟨b₁, h₁, hb₁, hfit⟩ := checkSize_holds h hb hroom
  have hi : i32 ((w.length : ℤ) + 5) = w.length + 5 := i32_of_range (by omega) (by omega)
  set buf := splice (splice b₁.buffer 4 w) 0 (i32Bytes (w.length + 5)) with hbuf
  have hblen : buf.length = b₁.buffer.length := by
    have hm : (splice b₁.buffer 4 w).length = b₁.buffer.length := splice_length (by omega)
    rw [hbuf, splice_length (by rw [hm, i32Bytes_length]; omega), hm]
  have hfit' : w.length + 4 + [(0 : UInt8)].length ≤ buf.length := by
    rw [hblen, List.length_singleton]
    omega
  have hout : (splice buf (w.length + 4) [0]).length = b₁.buffer.length := by
    rw [splice_length hfit', hblen]
  refine ⟨{ b₁ with buffer := splice buf (w.length + 4) [0], position := w.length + 4 + 1 },
    ?_, ?_, ?_, ?_, ?_⟩
  · rw [bsonFinalize]
    change (checkSize h b ((5 : ℕ) : ℤ)).bind _ = _
    rw [h₁, Option.bind_some]
    dsimp only
    rw [hb₁.position, hi, hb₁.contents, if_pos hfit]
    change put [0] { b₁ with buffer := buf, position := w.length + 4 } = _
    rw [put, if_pos hfit']
    rfl
  · rw [frame_length]
  · have ht := @splice_take buf [0] (w.length + 4) (by omega)
    rw [frame_length, frame, ← List.append_assoc, ← finalize_buffer _ w b₁.buffer hfit]
    exact ht
  · rw [hout]
    exact hb₁.size
  · exact hb₁.power

theorem bsonFinalize_finished (h : Heap) {b : BsonInfo} {w : List UInt8} (hb : Holds b w)
    (hroom : w.length + 5 ≤ maxSize) :
    ∃ b', bsonFinalize h b = some b' ∧ Finished b' (frame w) := by
  obtain ⟨b', hf, hb'⟩ := bsonFinalize_holds h hb hroom
  refine ⟨b', hf, hb'.position, hb'.contents, hb'.size, ?_⟩
  obtain ⟨k, hk, _, hs⟩ := hb'.power
  have hp : (2 : ℕ) ^ 12 ≤ 2 ^ k := Nat.pow_le_pow_right (by decide) hk
  rw [hs, startSize]
  omega

/-! ## What a call that returns has appended -/

theorem newSizeLoop_some (fuel k : ℕ) {needed z : ℤ} (hk : k ≤ 30)
    (h : newSizeLoop fuel (2 ^ k) needed = some z) :
    ∃ j, k ≤ j ∧ j ≤ 30 ∧ z = 2 ^ j ∧ needed ≤ z := by
  induction fuel generalizing k with
  | zero =>
    rw [newSizeLoop] at h
    split at h
    · cases h
    · obtain rfl := Option.some.inj h
      exact ⟨k, le_refl _, hk, rfl, by omega⟩
  | succ fuel ih =>
    rw [newSizeLoop] at h
    split at h
    · split at h
      · rename_i hdouble
        have hsucc : 2 * (2 : ℤ) ^ k = 2 ^ (k + 1) := by ring
        have hk' : k + 1 ≤ 30 := by
          by_contra hge
          have hk30 : k = 30 := by omega
          subst hk30
          omega
        rw [hsucc] at h
        obtain ⟨j, hkj, hj, hz⟩ := ih (k + 1) hk' h
        exact ⟨j, by omega, hj, hz⟩
      · cases h
    · obtain rfl := Option.some.inj h
      exact ⟨k, le_refl _, hk, rfl, by omega⟩

theorem checkSize_keeps (h : Heap) {b b' : BsonInfo} {w : List UInt8} {n : ℤ} (hb : Holds b w)
    (hc : checkSize h b n = some b') : Holds b' w := by
  rw [checkSize] at hc
  split at hc
  · obtain ⟨k, hk12, hk30, hs⟩ := hb.power
    have hold : i32 (b.size : ℤ) = 2 ^ k := by
      have hk : (2 : ℕ) ^ k ≤ 2 ^ 30 := Nat.pow_le_pow_right (by decide) hk30
      rw [hs, i32_of_range (by omega) (by omega)]
      push_cast
      rfl
    cases hn : newSize (2 ^ k) (i32 (u64 (b.position + n))) with
    | none =>
      rw [resize, hold, hn] at hc
      cases hc
    | some z =>
      obtain ⟨j, hkj, hj, rfl, -⟩ := newSizeLoop_some 31 k hk30 hn
      obtain ⟨b₁, hr, hb₁, -⟩ := resize_of_newSize h hb hs hk12 hkj hj hn
      rw [hr] at hc
      rw [← Option.some.inj hc]
      exact hb₁
  · rw [← Option.some.inj hc]
    exact hb

/-- A call that appends these bytes if it returns. -/
def Writes (f : BsonInfo → Option BsonInfo) (bytes : List UInt8) : Prop :=
  ∀ b w b', Holds b w → f b = some b' → Holds b' (w ++ bytes)

theorem checkSize_writes (h : Heap) (n : ℤ) : Writes (fun b => checkSize h b n) [] := by
  intro b w b' hb hc
  rw [List.append_nil]
  exact checkSize_keeps h hb hc

theorem put_writes (src : List UInt8) : Writes (put src) src := by
  intro b w b' hb hp
  have hroom : b.position + src.length ≤ b.buffer.length := by
    by_contra hno
    rw [put, if_neg hno] at hp
    cases hp
  obtain ⟨b₁, hp₁, hb₁, -⟩ := put_fills src b w hb (by rw [← hb.position]; exact hroom)
  rw [hp] at hp₁
  rw [Option.some.inj hp₁]
  exact hb₁

theorem Writes.bind {f g : BsonInfo → Option BsonInfo} {x y : List UInt8} (hf : Writes f x)
    (hg : Writes g y) : Writes (fun b => (f b).bind g) (x ++ y) := by
  intro b w b' hb he
  obtain ⟨b₁, h₁, h₂⟩ := Option.bind_eq_some_iff.mp he
  rw [← List.append_assoc]
  exact hg b₁ (w ++ x) b' (hf b w b₁ hb h₁) h₂

theorem serializeCstring_writes (h : Heap) (str : List UInt8) (hz : 0 ∉ str) :
    Writes (fun b => serializeCstring h b str) (str ++ [0]) := by
  have hw := (checkSize_writes h (i32 (str.length + 1))).bind (put_writes (str ++ [0]))
  intro b w b' hb he
  refine hw b w b' hb ?_
  simpa only [serializeCstring, takeWhile_of_notMem str hz, Option.bind_eq_bind] using he

theorem serializeFixed_writes (h : Heap) (data rest : List UInt8) :
    Writes (fun b => serializeFixed h b data.length (data ++ rest)) data := by
  have hw := (checkSize_writes h data.length).bind (put_writes data)
  intro b w b' hb he
  refine hw b w b' hb ?_
  simpa only [serializeFixed, copyLen_left, Option.bind_eq_bind, Option.bind_some] using he

theorem serializeDocument_writes (h : Heap) {d : BsonInfo} {bytes : List UInt8}
    (hd : Finished d bytes) : Writes (fun b => serializeDocument h b d) bytes := by
  have hcopy : copyLen (bytes.length : ℤ) d.buffer = some bytes := by
    have hle : bytes.length ≤ d.buffer.length := by
      have hl := congrArg List.length hd.contents
      simp only [List.length_take] at hl
      omega
    rw [copyLen, if_pos ⟨by omega, by omega⟩, Int.toNat_natCast, hd.contents]
  have hw := (checkSize_writes h (i32 bytes.length)).bind (put_writes bytes)
  intro b w b' hb he
  refine hw b w b' hb ?_
  simpa only [serializeDocument, hd.position, hcopy, Option.bind_eq_bind, Option.bind_some] using he

theorem serializeElement_writes (h : Heap) (kv : BsonKv) {payload : List UInt8} (hz : 0 ∉ kv.key)
    (hp : Writes (fun b => serializePayload h b kv) payload) :
    Writes (fun b => bsonSerialize h b kv) ([kv.type.code] ++ ((kv.key ++ [0]) ++ payload)) := by
  have hw := (checkSize_writes h 1).bind ((put_writes [kv.type.code]).bind
    ((serializeCstring_writes h kv.key hz).bind hp))
  intro b w b' hb he
  refine hw b w b' hb ?_
  exact he

/-- What is finalised has room for its length and its terminator. -/
theorem bsonFinalize_returns (h : Heap) {b b' : BsonInfo} {w : List UInt8} (hb : Holds b w)
    (hf : bsonFinalize h b = some b') :
    Finished b' (frame w) ∧ (frame w).length ≤ maxSize := by
  have hroom : (frame w).length ≤ maxSize := by
    obtain ⟨b₁, h₁, h₂⟩ := Option.bind_eq_some_iff.mp hf
    have hb₁ := checkSize_keeps h hb h₁
    have hpos := hb₁.position
    have hsize := hb₁.size
    have hle := hb₁.size_le
    dsimp only at h₂
    split at h₂
    · rw [frame_length]
      omega
    · cases h₂
  refine ⟨?_, hroom⟩
  rw [frame_length] at hroom
  obtain ⟨b₁, h₁, hfin⟩ := bsonFinalize_finished h hb hroom
  rw [hf] at h₁
  rw [Option.some.inj h₁]
  exact hfin

end GammaRay.Bson
