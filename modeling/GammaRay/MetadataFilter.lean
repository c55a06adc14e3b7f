import GammaRay.Bitarray
import GammaRay.BsonElements
import GammaRay.KvStore
import GammaRay.Loop

set_option autoImplicit false

/-!
# The metadata filter in a file

`bitarray_serialize` and `qemu_load_md_filter`. The crawler writes the filter, the queuer
reads it in another process with memory of its own.
-/
namespace GammaRay
open Bytes Bson
open KvStore (ascii)

/-- `struct bson_kv value` of `bitarray_serialize`, whose `subtype` is never set. -/
def typeKv (subtype : UInt8) : BsonKv :=
  ⟨.string, subtype, 15, ascii "type", .bytes (ascii "metadata_filter")⟩

def bitarrayKv (subtype : UInt8) (bits : Bitarray) : BsonKv :=
  ⟨.binary, subtype, i32 (bits.len / 8 : ℕ), ascii "bitarray", .bytes bits.array⟩

/-- `true` is `EXIT_SUCCESS`. -/
def Bitarray.serialize (h : Heap) (subtype : UInt8) (bits : Bitarray) (file : List UInt8) :
    Option (Bool × List UInt8) :=
  if bits.len = 0 then some (false, file)
  else do
    let serialized ← bsonSerialize h (bsonInit h) (typeKv subtype)
    let serialized ← bsonSerialize h serialized (bitarrayKv subtype bits)
    let serialized ← bsonFinalize h serialized
    some (true, bsonWritef serialized file)

/-- One round of the loop of `qemu_load_md_filter`, which leaves with a filter or with
`EXIT_FAILURE`. -/
def mdFilterRound (h : Heap) :
    BsonInfo × File × BsonRef × BsonRef →
      Option ((BsonInfo × File × BsonRef × BsonRef) ⊕ Option Bitarray)
  | (bson, index, value1, value2) => do
    let (ret, bson, index) ← bsonReadf h bson index
    if ret ≠ 1 then some (.inr none)
    else
      let (ret, bson, value1, value2) ← bsonDeserialize bson value1 value2
      if ret ≠ 1 then some (.inr none)
      else if cstringAt bson.buffer value1.key ≠ ascii "type" then some (.inr none)
      else if cstringAt bson.buffer value1.data = ascii "metadata_filter" then do
        let (ret, bson, value1, _) ← bsonDeserialize bson value1 value2
        if ret ≠ 1 then some (.inr none)
        else if cstringAt bson.buffer value1.key = ascii "bitarray" then
          (Bitarray.initData h (bson.buffer.drop value1.data) (u64 value1.size)).map
            fun bits => .inr (some bits)
        else some (.inr none)
      else some (.inl (bson, index, value1, value2))

def QemuLoadMdFilter (h : Heap) (file : List UInt8) (value1 value2 : BsonRef) :
    Option Bitarray → Prop :=
  Loop.Ends (mdFilterRound h) (bsonInit h, ⟨file, 0⟩, value1, value2)

/-- The filter reads the same before and after, whatever the memory of either process held. -/
def RoundTrips (bits : Bitarray) : Prop :=
  ∀ (h h' : Heap) (subtype : UInt8) (value1 value2 : BsonRef), ∃ file bits',
    bits.serialize h subtype [] = some (true, file) ∧
      QemuLoadMdFilter h' file value1 value2 (some bits') ∧
      ∀ i, bits'.getBit i = bits.getBit i

def typeKey : Key := ⟨ascii "type", by decide⟩

def bitarrayKey : Key := ⟨ascii "bitarray", by decide⟩

/-- What `bitarray_serialize` writes. -/
def filterDocument (subtype : UInt8) (data : List UInt8) : Document :=
  .cons typeKey (.string (ascii "metadata_filter"))
    (.cons bitarrayKey (.binary subtype data) .nil)

theorem filterDocument_length (subtype : UInt8) (data : List UInt8) :
    (frame (filterDocument subtype data).body).length = data.length + 46 := by
  have htype : (ascii "type").length = 4 := rfl
  have hname : (ascii "metadata_filter").length = 15 := rfl
  have hbits : (ascii "bitarray").length = 8 := rfl
  simp only [frame_length, filterDocument, Document.body, Value.payload, typeKey, bitarrayKey,
    List.length_append, stringBytes_length, i32Bytes_length, List.length_singleton,
    List.length_nil, htype, hname, hbits]
  omega

section Write

variable {h : Heap} {bits : Bitarray} {subtype : UInt8}

theorem typeKv_appends (h : Heap) (subtype : UInt8) :
    Appends (fun b => bsonSerialize h b (typeKv subtype))
      ([BsonType.string.code] ++ ((ascii "type" ++ [0]) ++
        stringBytes (ascii "metadata_filter"))) := by
  have hp := serializeString_appends h (ascii "metadata_filter") []
  rw [List.append_nil] at hp
  exact serializeElement_appends h (typeKv subtype) typeKey.noNul hp

/-- With a size that `data` has, the document is written. -/
theorem serialize_document {data : List UInt8} (hpos : bits.len ≠ 0)
    (hkv : ∀ b, bsonSerialize h b (bitarrayKv subtype bits) =
      bsonSerialize h b ⟨.binary, subtype, data.length, ascii "bitarray", .bytes data⟩)
    (hsmall : data.length + 46 ≤ maxSize) :
    bits.serialize h subtype [] = some (true, frame (filterDocument subtype data).body) := by
  have hlen := filterDocument_length subtype data
  have hbody : [] ++ ([BsonType.string.code] ++
      ((ascii "type" ++ [0]) ++ stringBytes (ascii "metadata_filter"))) ++
      ([BsonType.binary.code] ++ ((ascii "bitarray" ++ [0]) ++
        (i32Bytes data.length ++ ([subtype] ++ data)))) = (filterDocument subtype data).body := by
    simp only [filterDocument, Document.body, Value.payload, Value.type, typeKey, bitarrayKey,
      List.append_assoc, List.nil_append, List.append_nil]
  have hb := congrArg List.length hbody
  rw [frame_length] at hlen
  rw [List.length_append] at hb
  obtain ⟨b₁, h₁, hb₁⟩ := typeKv_appends h subtype (bsonInit h) [] (bsonInit_holds h)
    (by rw [List.nil_append] at hb; rw [List.length_nil]; omega)
  obtain ⟨b₂, h₂, hb₂⟩ := serializeElement_appends h
    ⟨.binary, subtype, data.length, ascii "bitarray", .bytes data⟩ bitarrayKey.noNul
    (serializeBinary_appends h subtype data) b₁ _ hb₁ (by rw [hb]; omega)
  rw [hbody] at hb₂
  obtain ⟨b₃, h₃, hf⟩ := bsonFinalize_finished h hb₂ (by omega)
  rw [Bitarray.serialize, if_neg hpos, Loop.bind_of_some h₁, hkv, Loop.bind_of_some h₂,
    Loop.bind_of_some h₃, bsonWritef, hf.position, hf.contents, List.nil_append]

end Write

section Read

variable {h : Heap} {data : List UInt8}

/-- `bitarray_init_data` looks at an eighth of the bytes it is given the number of. -/
theorem initData_eq {k : ℕ} (hk : highestSetBit64 data.length = k)
    (hfit : data.length / 8 ≤ (2 ^ k + 7) / 8) :
    ∃ bits : Bitarray, bits.len = 2 ^ k ∧
      bits.array = data.take (data.length / 8) ++ (h.malloc ((2 ^ k + 7) / 8)).drop (data.length / 8) ∧
      ∀ tail, Bitarray.initData h (data ++ tail) data.length = some bits := by
  subst hk
  have hle : data.length / 8 ≤ data.length := Nat.div_le_self _ _
  refine ⟨⟨2 ^ highestSetBit64 data.length, data.take (data.length / 8) ++
    (h.malloc ((2 ^ highestSetBit64 data.length + 7) / 8)).drop (data.length / 8), ?_⟩,
    rfl, rfl, fun tail => ?_⟩
  · rw [List.length_append, List.length_take, List.length_drop, Heap.malloc_length]
    omega
  · have hfits : data.length / 8 ≤ (data ++ tail).length ∧
        data.length / 8 ≤ (2 ^ highestSetBit64 data.length + 7) / 8 := by
      refine ⟨?_, hfit⟩
      rw [List.length_append]
      omega
    rw [Bitarray.initData, dif_pos hfits]
    simp only [List.take_append_of_le_length hle]

/-- The first document of the file is the filter. -/
theorem load_document {subtype : UInt8} {value1 value2 : BsonRef} {bits : Bitarray}
    (hsmall : data.length + 46 < 2 ^ 31)
    (hbits : ∀ tail, Bitarray.initData h (data ++ tail) data.length = some bits) :
    QemuLoadMdFilter h (frame (filterDocument subtype data).body) value1 value2 (some bits) := by
  have hlen := filterDocument_length subtype data
  obtain ⟨b, hread, hdoc⟩ := @readf_document h (bsonInit h)
    ⟨frame (filterDocument subtype data).body, 0⟩ (filterDocument subtype data) []
    (by omega) (h.malloc_length startSize).ge (List.append_nil _).symm
  obtain ⟨b₁, s, s2, he₁, hbuf₁, hkey₁, hseen₁, hc₁⟩ :=
    (hdoc.cursor (by omega)).element value1 value2
  obtain ⟨b₂, t, t2, he₂, hbuf₂, hkey₂, hseen₂, -⟩ := hc₁.element s s2
  have htype : cstringAt b₁.buffer s.key = ascii "type" := by
    rw [hbuf₁]
    exact hkey₁
  have htext : cstringAt b₁.buffer s.data = ascii "metadata_filter" := by
    rw [hbuf₁]
    exact hseen₁.text _ rfl (by decide)
  have hname : cstringAt b₂.buffer t.key = ascii "bitarray" := by
    rw [hbuf₂]
    exact hkey₂
  have hraw : SizedAt b₁.buffer t data := hseen₂.raw
  have hinit : Bitarray.initData h (b₂.buffer.drop t.data) (u64 t.size) = some bits := by
    have htake : (b₂.buffer.drop t.data).take data.length = data := by
      have hdata := hraw.2
      rw [hraw.1, Int.toNat_natCast] at hdata
      rw [hbuf₂]
      exact hdata
    rw [hraw.1, u64_natCast (by omega),
      ← List.take_append_drop data.length (b₂.buffer.drop t.data), htake]
    exact hbits _
  refine .leave ?_
  rw [mdFilterRound, Loop.bind_of_some hread]
  dsimp only
  rw [if_neg (by decide), Loop.bind_of_some he₁]
  dsimp only
  rw [if_neg (by decide), htype, if_neg (fun hne => hne rfl), htext, if_pos rfl,
    Loop.bind_of_some he₂]
  dsimp only
  rw [if_neg (by decide), hname, if_pos rfl, hinit]
  rfl

end Read

section Lengths

variable {bits : Bitarray} {j : ℕ}

theorem array_length (hlen : bits.len = 2 ^ (j + 6)) : bits.array.length = 2 ^ (j + 3) := by
  have hpow : 2 ^ (j + 6) = 8 * 2 ^ (j + 3) := by
    rw [Nat.pow_add, Nat.pow_add]
    ring
  rw [bits.covers, hlen, hpow]
  omega

theorem len_eighth (hlen : bits.len = 2 ^ (j + 6)) : bits.len / 8 = bits.array.length := by
  have hc := bits.covers
  have hpow : bits.len = 8 * 2 ^ (j + 3) := by
    rw [hlen, Nat.pow_add, Nat.pow_add]
    ring
  omega

/-- Of the bits, the first eighth comes back. -/
theorem loaded_getBit (h : Heap) (hj : j + 6 < 64) (hlen : bits.len = 2 ^ (j + 6)) :
    ∃ bits' : Bitarray, (∀ tail, Bitarray.initData h (bits.array ++ tail) bits.array.length =
        some bits') ∧
      ∀ i, bits'.getBit i = (decide (i < bits.array.length) && bits.getBit i) := by
  have hn := array_length hlen
  have hpow : 2 ^ (j + 3) = 8 * 2 ^ j := by
    rw [Nat.pow_add]
    ring
  have hsb : highestSetBit64 bits.array.length = j + 3 := by
    rw [hn, highestSetBit64_pow (by omega)]
  obtain ⟨bits', hlen', harray, hinit⟩ := @initData_eq h bits.array (j + 3) hsb (by omega)
  refine ⟨bits', hinit, fun i => ?_⟩
  have hc := bits.covers
  have hl := len_eighth hlen
  by_cases hi : i < bits.array.length
  · have hbyte : bits'.array.getD (i / 8) 0 = bits.array.getD (i / 8) 0 := by
      have hlt : i / 8 < (bits.array.take (bits.array.length / 8)).length := by
        rw [List.length_take]
        omega
      rw [harray, List.getD_eq_getElem?_getD, List.getElem?_append_left hlt,
        List.getElem?_take_of_lt (by omega), List.getD_eq_getElem?_getD]
    rw [Bitarray.getBit, if_pos (by omega), hbyte, decide_eq_true hi, Bool.true_and,
      Bitarray.getBit, if_pos (by omega)]
  · rw [Bitarray.getBit, if_neg (by omega), decide_eq_false hi, Bool.false_and]

/-- A document of more than a GiB would need a buffer that `new_size` does not get to. -/
theorem newSizeLoop_stuck (fuel k : ℕ) {needed : ℤ} (hk : k ≤ 30) (hn : 2 ^ 30 < needed) :
    newSizeLoop fuel (2 ^ k) needed = none := by
  rw [Option.eq_none_iff_forall_ne_some]
  intro z hz
  obtain ⟨j, -, hj, rfl, hle⟩ := newSizeLoop_some fuel k hk hz
  have hpow : (2 : ℤ) ^ j ≤ 2 ^ 30 := pow_le_pow_right₀ (by norm_num) hj
  omega

theorem serializeBinary_stuck (h : Heap) {b : BsonInfo} {w : List UInt8} (hb : Holds b w)
    (hw : w.length < 2 ^ 20) (subtype : UInt8) (data : List UInt8) :
    serializeBinary h b (2 ^ 30) subtype data = none := by
  obtain ⟨k, -, hk, hs⟩ := hb.power
  have hp : (2 : ℕ) ^ k ≤ 2 ^ 30 := Nat.pow_le_pow_right (by decide) hk
  have hadd : i32 (4 + 1 + 2 ^ 30) = 2 ^ 30 + 5 := by decide
  have hu : u64 ((b.position : ℤ) + (2 ^ 30 + 5)) = w.length + (2 ^ 30 + 5) := by
    rw [hb.position]
    unfold u64
    omega
  have hneed : i32 ((w.length + (2 ^ 30 + 5) : ℕ) : ℤ) = w.length + (2 ^ 30 + 5) := by
    rw [i32_of_range (by omega) (by omega)]
    push_cast
    ring
  have hold : i32 (b.size : ℤ) = 2 ^ k := by
    rw [hs, i32_of_range (by omega) (by omega)]
    push_cast
    rfl
  have hnew : newSize (2 ^ k) ((w.length : ℤ) + (2 ^ 30 + 5)) = none :=
    newSizeLoop_stuck 31 k hk (by omega)
  have hcheck : checkSize h b (i32 (4 + 1 + 2 ^ 30)) = none := by
    rw [hadd, checkSize, hu, if_pos (by omega), hneed, resize, hold, hnew]
    rfl
  rw [serializeBinary, Loop.bind_of_none hcheck]

theorem serializeBinary_negative (h : Heap) (b : BsonInfo) {len : ℤ} (hlen : len < 0)
    (subtype : UInt8) (data : List UInt8) : serializeBinary h b len subtype data = none := by
  have hcopy : copyLen len data = none := by
    rw [copyLen, if_neg (by omega)]
  simp only [serializeBinary, hcopy, Option.bind_eq_bind, Option.bind_none, Option.bind_fun_none]

/-- The filter cannot be written if its bytes cannot. -/
theorem serialize_none (h : Heap) (subtype : UInt8) (hpos : bits.len ≠ 0)
    (hpay : ∀ b w, Holds b w → w.length < 2 ^ 20 →
      serializePayload h b (bitarrayKv subtype bits) = none) :
    bits.serialize h subtype [] = none := by
  have htype : (ascii "type").length = 4 := rfl
  have hname : (ascii "metadata_filter").length = 15 := rfl
  have hbits : (ascii "bitarray").length = 8 := rfl
  obtain ⟨b₁, h₁, hb₁⟩ := typeKv_appends h subtype (bsonInit h) [] (bsonInit_holds h)
    (by simp only [List.length_append, List.length_nil, List.length_singleton, stringBytes_length,
          htype, hname]; decide)
  obtain ⟨b₂, h₂, hb₂⟩ := ((put_fills [BsonType.binary.code]).reserve h rfl).bind
    (serializeCstring_appends h (ascii "bitarray") bitarrayKey.noNul) b₁ _ hb₁
    (by simp only [List.length_append, List.length_nil, List.length_singleton, stringBytes_length,
          htype, hname, hbits]; decide)
  have hnone := hpay b₂ _ hb₂ (by
    simp only [List.length_append, List.length_nil, List.length_singleton, stringBytes_length,
      htype, hname, hbits]
    decide)
  have helement : bsonSerialize h b₁ (bitarrayKv subtype bits) = none := by
    beta_reduce at h₂
    rw [Option.bind_assoc] at h₂
    change (checkSize h b₁ 1).bind (fun b => (put [BsonType.binary.code] b).bind fun b =>
      (serializeCstring h b (ascii "bitarray")).bind fun b =>
        serializePayload h b (bitarrayKv subtype bits)) = none
    have hassoc := congrArg (fun x : Option BsonInfo =>
      x.bind fun b => serializePayload h b (bitarrayKv subtype bits)) h₂
    beta_reduce at hassoc
    rw [Option.bind_some, hnone, Option.bind_assoc] at hassoc
    simp only [Option.bind_assoc] at hassoc
    exact hassoc
  rw [Bitarray.serialize, if_neg hpos, Loop.bind_of_some h₁, Loop.bind_of_none helement]

theorem i32_pow_zero {m : ℕ} (hm : 32 ≤ m) : i32 ((2 ^ m : ℕ) : ℤ) = 0 := by
  obtain ⟨n, rfl⟩ := Nat.exists_eq_add_of_le hm
  have hpow : (2 : ℕ) ^ (32 + n) = 2 ^ 32 * 2 ^ n := Nat.pow_add ..
  rw [hpow]
  generalize (2 : ℕ) ^ n = x
  unfold i32
  omega

end Lengths

theorem roundTrips_of_small {bits : Bitarray} {j : ℕ} (hj : j + 6 ≤ 32)
    (hlen : bits.len = 2 ^ (j + 6)) :
    RoundTrips bits ↔ ∀ i, 2 ^ (j + 6) / 8 ≤ i → bits.getBit i = false := by
  have hn := array_length hlen
  have hl := len_eighth hlen
  have hpow : (2 : ℕ) ^ (j + 3) ≤ 2 ^ 29 := Nat.pow_le_pow_right (by decide) (by omega)
  have hpos : bits.len ≠ 0 := by
    rw [hlen]
    positivity
  have hsize : i32 ((bits.len / 8 : ℕ) : ℤ) = bits.array.length := by
    rw [hl, i32_of_range (by omega) (by omega)]
  have hwrite : ∀ (h : Heap) (subtype : UInt8), bits.serialize h subtype [] =
      some (true, frame (filterDocument subtype bits.array).body) := by
    intro h subtype
    refine serialize_document hpos (fun b => ?_) ?_
    · rw [bitarrayKv, hsize]
    · rw [maxSize]
      omega
  rw [← hlen, hl]
  constructor
  · intro hrt i hi
    obtain ⟨file, bits', hser, hload, hbits⟩ := hrt zeroHeap zeroHeap 0 ⟨0, 0, 0, 0, 0⟩
      ⟨0, 0, 0, 0, 0⟩
    obtain ⟨loaded, hinit, hget⟩ := loaded_getBit zeroHeap (by omega) hlen
    rw [hwrite] at hser
    obtain ⟨-, rfl⟩ := Prod.mk.inj (Option.some.inj hser)
    have hloaded := @load_document zeroHeap bits.array 0 ⟨0, 0, 0, 0, 0⟩
      ⟨0, 0, 0, 0, 0⟩ loaded (by omega) hinit
    obtain rfl := Option.some.inj (hload.unique hloaded)
    rw [← hbits i, hget, decide_eq_false (by omega), Bool.false_and]
  · intro hclear h h' subtype value1 value2
    obtain ⟨loaded, hinit, hget⟩ := loaded_getBit h' (by omega) hlen
    refine ⟨_, loaded, hwrite h subtype, load_document (by omega) hinit, fun i => ?_⟩
    rw [hget]
    by_cases hi : i < bits.array.length
    · rw [decide_eq_true hi, Bool.true_and]
    · rw [decide_eq_false hi, Bool.false_and, hclear i (by omega)]

theorem not_roundTrips_of_none {bits : Bitarray}
    (hnone : bits.serialize zeroHeap 0 [] = none) : ¬ RoundTrips bits := by
  intro hrt
  obtain ⟨file, bits', hser, -, -⟩ := hrt zeroHeap zeroHeap 0 ⟨0, 0, 0, 0, 0⟩ ⟨0, 0, 0, 0, 0⟩
  rw [hnone] at hser
  cases hser

/-- The size comes out as zero, and the filter that is loaded has one bit from nowhere. -/
theorem not_roundTrips_of_zero {bits : Bitarray} (hpos : bits.len ≠ 0)
    (hzero : i32 ((bits.len / 8 : ℕ) : ℤ) = 0) : ¬ RoundTrips bits := by
  intro hrt
  obtain ⟨c, hc⟩ : ∃ c : UInt8, c.toNat.testBit 0 ≠ bits.getBit 0 := by
    cases bits.getBit 0
    · exact ⟨1, by decide⟩
    · exact ⟨0, by decide⟩
  obtain ⟨file, bits', hser, hload, hbits⟩ := hrt zeroHeap (fillHeap c) 0 ⟨0, 0, 0, 0, 0⟩
    ⟨0, 0, 0, 0, 0⟩
  have hwrite : bits.serialize zeroHeap 0 [] = some (true, frame (filterDocument 0 []).body) := by
    refine serialize_document hpos (fun b => ?_) (by decide)
    rw [bitarrayKv, hzero]
    rfl
  rw [hwrite] at hser
  obtain ⟨-, rfl⟩ := Prod.mk.inj (Option.some.inj hser)
  obtain ⟨loaded, hlen, harray, hinit⟩ := @initData_eq (fillHeap c) [] 0 rfl (by decide)
  have hloaded := @load_document (fillHeap c) [] 0 ⟨0, 0, 0, 0, 0⟩
    ⟨0, 0, 0, 0, 0⟩ _ (by decide) hinit
  obtain rfl := Option.some.inj (hload.unique hloaded)
  refine hc ?_
  rw [← hbits 0, Bitarray.getBit, hlen, if_pos (by decide), harray]
  rfl

/-- A filter survives its file just when it has no bit set beyond the first eighth and a
length that `int32_t` sizes of documents allow for. -/
theorem filter_round_trip_iff {bits : Bitarray} {k : ℕ} (hk : 6 ≤ k) (hk' : k < 64)
    (hlen : bits.len = 2 ^ k) :
    RoundTrips bits ↔ k ≤ 32 ∧ ∀ i, 2 ^ k / 8 ≤ i → bits.getBit i = false := by
  obtain ⟨j, rfl⟩ : ∃ j, k = j + 6 := ⟨k - 6, by omega⟩
  have hpos : bits.len ≠ 0 := by
    rw [hlen]
    positivity
  have hl := len_eighth hlen
  have hn := array_length hlen
  rcases Nat.lt_trichotomy (j + 6) 33 with hlt | heq | hgt
  · rw [roundTrips_of_small (by omega) hlen, and_iff_right (by omega)]
  · have hj : j = 27 := by omega
    subst hj
    refine iff_of_false (not_roundTrips_of_none ?_) (fun h => absurd h.1 (by decide))
    refine serialize_none zeroHeap 0 hpos fun b w hb hw => ?_
    have hsize : i32 ((bits.len / 8 : ℕ) : ℤ) = 2 ^ 30 := by
      rw [hl, hn]
      decide
    have hstuck := serializeBinary_stuck zeroHeap hb hw 0 bits.array
    rw [bitarrayKv, hsize]
    exact hstuck
  · refine iff_of_false ?_ (fun h => absurd h.1 (by omega))
    by_cases h34 : j + 6 = 34
    · have hj : j = 28 := by omega
      subst hj
      refine not_roundTrips_of_none (serialize_none zeroHeap 0 hpos fun b w _ _ => ?_)
      have hsize : i32 ((bits.len / 8 : ℕ) : ℤ) < 0 := by
        rw [hl, hn]
        decide
      exact serializeBinary_negative zeroHeap b hsize 0 bits.array
    · refine not_roundTrips_of_zero hpos ?_
      rw [hl, hn]
      exact i32_pow_zero (by omega)

/-- Sixty-four bits of which only the given byte is set. -/
def byteFilter (n : Fin 8) (byte : UInt8) : Bitarray :=
  ⟨64, (List.replicate 8 0).set n byte, by rw [List.length_set]; rfl⟩

theorem filter_round_trip_lowBit :
    (byteFilter 0 8).len = 2 ^ 6 ∧ (byteFilter 0 8).getBit 3 = true ∧
      RoundTrips (byteFilter 0 8) := by
  refine ⟨rfl, rfl, (filter_round_trip_iff (k := 6) le_rfl (by decide) rfl).mpr ⟨by decide, ?_⟩⟩
  intro i hi
  by_cases h64 : i < 64
  · have hall : ∀ i < 64, 2 ^ 6 / 8 ≤ i → (byteFilter 0 8).getBit i = false := by decide
    exact hall i h64 hi
  · exact if_neg h64

/-- Bit 8 is lost. -/
theorem bit_eight_lost : ¬ RoundTrips (byteFilter 1 1) := by
  rw [roundTrips_of_small (j := 0) (by decide) rfl]
  intro h
  exact absurd (h 8 (by decide)) (by decide)

end GammaRay
