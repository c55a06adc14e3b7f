import GammaRay.QueueBlocks

set_option autoImplicit false

/-!
# Data inside the file

How much of a block `__emit_file_bytes` publishes: the difference between the size of the file
and the start of the block is taken in 64 bits without sign, so it clips a block that starts
inside the file only.
-/
namespace GammaRay.Bson
open Bytes

theorem i32Bytes_i32 (n : ℤ) : i32Bytes (i32 n) = i32Bytes n := by
  have hu : u32 (i32 n) = u32 n := by
    unfold u32 i32
    omega
  rw [i32Bytes, hu, i32Bytes]

theorem serializeString_writes (h : Heap) (s rest : List UInt8) :
    Writes (fun b => serializeString h b s.length (s ++ rest)) (stringBytes s) := by
  have hw := (checkSize_writes h (i32 (i32 (s.length + 1) + 4))).bind
    ((put_writes (i32Bytes (i32 (s.length + 1)))).bind ((put_writes s).bind (put_writes [0])))
  intro b w b' hb he
  rw [stringBytes, ← i32Bytes_i32]
  refine hw b w b' hb ?_
  simpa only [serializeString, copyLen_left, Option.bind_eq_bind, Option.bind_some] using he

theorem serializeBinary_writes (h : Heap) (subtype : UInt8) {len : ℤ} {binary bytes : List UInt8}
    (hbytes : copyLen len binary = some bytes) :
    Writes (fun b => serializeBinary h b len subtype binary)
      (i32Bytes len ++ ([subtype] ++ bytes)) := by
  have hw := (checkSize_writes h (i32 (4 + 1 + len))).bind
    ((put_writes (i32Bytes len)).bind ((put_writes [subtype]).bind (put_writes bytes)))
  intro b w b' hb he
  refine hw b w b' hb ?_
  simpa only [serializeBinary, hbytes, Option.bind_eq_bind, Option.bind_some] using he

theorem copyLen_of_serializeBinary {h : Heap} {b b' : BsonInfo} {len : ℤ} {subtype : UInt8}
    {binary : List UInt8} (he : serializeBinary h b len subtype binary = some b') :
    ∃ bytes, copyLen len binary = some bytes := by
  obtain ⟨_, -, he⟩ := Option.bind_eq_some_iff.mp he
  obtain ⟨_, -, he⟩ := Option.bind_eq_some_iff.mp he
  obtain ⟨_, -, he⟩ := Option.bind_eq_some_iff.mp he
  obtain ⟨bytes, hbytes, -⟩ := Option.bind_eq_some_iff.mp he
  exact ⟨bytes, hbytes⟩

theorem serializePayload_of_bsonSerialize {h : Heap} {b b' : BsonInfo} {kv : BsonKv}
    (he : bsonSerialize h b kv = some b') : ∃ b₁, serializePayload h b₁ kv = some b' := by
  obtain ⟨_, -, he⟩ := Option.bind_eq_some_iff.mp he
  obtain ⟨_, -, he⟩ := Option.bind_eq_some_iff.mp he
  obtain ⟨b₁, -, he⟩ := Option.bind_eq_some_iff.mp he
  exact ⟨b₁, he⟩

end GammaRay.Bson

namespace GammaRay.Inspect
open Bytes Decimal Redis KvStore Bson Ext4 Total
open Loader (keyNamed int64Of)

/-- A call of `bson_serialize` that appends an element if it returns. -/
def Renders (h : Heap) (kv : BsonKv) (e : Bson.Key × Bson.Value) : Prop :=
  Writes (fun b => bsonSerialize h b kv) (elementBytes e)

section Renders

variable (h : Heap)

theorem Renders.of_payload {kv : BsonKv} {e : Bson.Key × Bson.Value} (hk : kv.key = e.1.bytes)
    (ht : kv.type = e.2.type) (hp : Writes (fun b => serializePayload h b kv) e.2.payload) :
    Renders h kv e := by
  have hw := serializeElement_writes h kv (by rw [hk]; exact e.1.noNul) hp
  rw [ht, hk] at hw
  exact hw

theorem stringKv_renders (key : String) (hk : 0 ∉ ascii key) (text : List UInt8) :
    Renders h (stringKv key text) (keyNamed key hk, .string text) := by
  have hp := serializeString_writes h text []
  rw [List.append_nil] at hp
  exact .of_payload h rfl rfl hp

theorem int64Kv_renders (key : String) (hk : 0 ∉ ascii key) (n : ℕ) :
    Renders h (int64Kv key n) (keyNamed key hk, int64Of n) := by
  have hp := serializeFixed_writes h (leBytes 8 n) []
  rw [List.append_nil, leBytes_length] at hp
  exact .of_payload h rfl rfl hp

theorem serializeAll_writes {kvs : List BsonKv} {es : List (Bson.Key × Bson.Value)}
    (hes : List.Forall₂ (Renders h) kvs es) :
    Writes (fun b => serializeAll h b kvs) (Document.ofElements es).body := by
  induction hes with
  | nil =>
    intro b w b' hb he
    rw [← Option.some.inj he]
    exact (List.append_nil w).symm ▸ hb
  | cons he _ ih =>
    rw [body_cons]
    exact he.bind ih

theorem serializeAll_mem {kvs : List BsonKv} {b b' : BsonInfo}
    (hb : serializeAll h b kvs = some b') {kv : BsonKv} (hkv : kv ∈ kvs) :
    ∃ b₁ b₂, bsonSerialize h b₁ kv = some b₂ := by
  induction kvs generalizing b with
  | nil => cases hkv
  | cons first rest ih =>
    obtain ⟨b₁, h₁, h₂⟩ := Option.bind_eq_some_iff.mp hb
    rcases List.mem_cons.mp hkv with rfl | hkv
    · exact ⟨b, b₁, h₁⟩
    · exact ih h₂ hkv

theorem dataKvs_renders (start stop : ℕ) (subtype : UInt8) {write bytes : List UInt8} {len : ℕ}
    (hbytes : copyLen (i32 len) write = some bytes) (writeCounter : ℕ) :
    List.Forall₂ (Renders h) (Inspector.dataKvs start stop subtype write len writeCounter)
      (dataElements start stop subtype bytes writeCounter) := by
  have hlen : i32 len = bytes.length := by
    unfold copyLen at hbytes
    split at hbytes
    · rename_i hle
      rw [← Option.some.inj hbytes, List.length_take]
      omega
    · cases hbytes
  have hwrite : Renders h ⟨.binary, subtype, i32 len, ascii "write", .bytes write⟩
      (keyNamed "write" (by decide), .binary subtype bytes) := by
    refine .of_payload h rfl rfl ?_
    rw [Bson.Value.payload, ← hlen]
    exact serializeBinary_writes h subtype hbytes
  exact .cons (stringKv_renders _ _ _ _) <| .cons (int64Kv_renders _ _ _ _) <|
    .cons (int64Kv_renders _ _ _ _) <| .cons (int64Kv_renders _ _ _ _) <| .cons hwrite .nil

/-- The message that is built holds as many bytes as its length tells, and fits. -/
theorem dataKvs_returns {b b' : BsonInfo} {start stop len writeCounter : ℕ}
    {subtype : UInt8} {write : List UInt8}
    (hb : serializeAll h (bsonInit h)
      (Inspector.dataKvs start stop subtype write len writeCounter) = some b)
    (hf : bsonFinalize h b = some b') :
    ∃ bytes, copyLen (i32 len) write = some bytes ∧
      b'.buffer.take b'.position = dataDocument start stop subtype bytes writeCounter ∧
      bytes.length + 81 ≤ maxSize := by
  obtain ⟨b₁, b₂, hlast⟩ := serializeAll_mem h hb
    (show (⟨.binary, subtype, i32 len, ascii "write", .bytes write⟩ : BsonKv) ∈ _ by
      simp [Inspector.dataKvs])
  obtain ⟨b₃, hpayload⟩ := serializePayload_of_bsonSerialize hlast
  obtain ⟨bytes, hbytes⟩ := copyLen_of_serializeBinary hpayload
  have hholds := serializeAll_writes h (dataKvs_renders h start stop subtype hbytes writeCounter) _ _ _
    (bsonInit_holds h) hb
  rw [List.nil_append] at hholds
  obtain ⟨hfin, hroom⟩ := bsonFinalize_returns h hholds hf
  refine ⟨bytes, hbytes, ?_, ?_⟩
  · rw [hfin.position, hfin.contents]
    rfl
  · rw [← dataDocument_length start stop subtype bytes writeCounter]
    exact hroom

end Renders

/-- What a block at `start` may show of a file of `size` bytes. -/
def insideFile (start size len : ℕ) (write : List UInt8) : List UInt8 :=
  write.take (if start ≤ size then min len (size - start) else 0)

namespace Inspector

variable {σ : Type} {c : Inspector σ} (L : Lawful c.service) {s : State σ} {d : Db KvStore.Key}

/-- The call publishes one data message, with the bytes of the block that lie in the file. -/
def PublishesInside (s : State σ) (path : List UInt8) (start stop file size : ℕ)
    (write : List UInt8) (len writeCounter sector : ℕ) : Prop :=
  Ensures (c.emitFileBytes write writeCounter (dataPointer start stop file) len sector) s
    fun _ t => ∃ message,
      (L.db t.store).messages =
        (L.db s.store).messages ++ [(c.constructChannelName path, message)] ∧
      readData message = some (start, insideFile start size len write)

theorem emitFileBytes_publishes (hs : L.At s d) {path write : List UInt8}
    {start stop file size len : ℕ} (hknown : Known d file path size) (hlen : len ≤ write.length)
    (writeCounter sector : ℕ) :
    ∃ t e subtype, L.At t e ∧ e.messages = d.messages ∧
      c.emitFileBytes write writeCounter (dataPointer start stop file) len sector s =
        c.publish (c.constructChannelName path)
          (dataKvs start stop subtype write (min (u64 (size - start)) len) writeCounter) t := by
  unfold emitFileBytes
  obtain ⟨_, t₁, ⟨⟨n, rfl⟩, ht₁⟩, h₁⟩ := (enter_at L hs).bind_eq
  rw [h₁, tokens_dataPointer]
  simp only [List.getElem?_cons_succ, List.getElem?_cons_zero, scanInto_dec]
  obtain ⟨_, t₂, ⟨rfl, ht₂⟩, h₂⟩ := (@query_at σ c L t₁ d (redisFileSectorGet file (ascii "path"))
    ht₁ (by simp [redisFileSectorGet]) rfl).bind_eq
  rw [h₂, hknown.path_eq, if_neg hknown.path_lt.ne]
  obtain ⟨_, t₃, ⟨rfl, ht₃⟩, h₃⟩ := (@getField_at σ c L t₂ d ht₂ redisFileSectorGet file "size"
    (by simp [redisFileSectorGet]) rfl (junk (c.stack n) 24 8)).bind_eq
  rw [h₃, show (junk (c.stack n) 24 8).length = 8 from rfl, hknown.size_overlay]
  obtain ⟨_, t₄, ht₄, h₄⟩ := (keepLastBlock_at L ht₃ hlen (u64 (size - start)) sector).bind_eq
  rw [h₄]
  obtain ⟨_, t₅, ht₅, h₅⟩ := (dropInnerBlock_at L ht₄ stop size sector).bind_eq
  rw [h₅, ← min_def]
  refine ⟨t₅, _, c.stack n 32, ht₅, ?_, rfl⟩
  split <;> split <;> rfl

theorem publish_dataKvs_yields (hs : L.At s d) (channel : List UInt8) (start stop : ℕ)
    (subtype : UInt8) (write : List UInt8) (len writeCounter : ℕ) :
    Yields (c.publish channel (dataKvs start stop subtype write len writeCounter)) s fun _ t =>
      ∃ bytes, copyLen (i32 len) write = some bytes ∧ bytes.length + 81 ≤ maxSize ∧
        L.At t (d.after (.publish channel
          (dataDocument start stop subtype bytes writeCounter))) := by
  refine (defined_yields _).bind ?_
  rintro b _ ⟨hb, rfl⟩
  refine (defined_yields _).bind ?_
  rintro b' _ ⟨hf, rfl⟩
  obtain ⟨bytes, hbytes, hdoc, hroom⟩ := dataKvs_returns c.heap hb hf
  rw [hdoc]
  exact (tell_at L hs (by simp)).yields.mono fun _ t ht => ⟨bytes, hbytes, hroom, ht⟩

omit L in
theorem rest_eq {start size : ℕ} (hstart : start < 2 ^ 64) (hsize : size < 2 ^ 64) :
    u64 ((size : ℤ) - start) = if start ≤ size then size - start else 2 ^ 64 + size - start := by
  unfold u64
  split <;> omega

theorem publish_dataKvs_at (hs : L.At s d) (channel : List UInt8) (start stop : ℕ)
    (subtype : UInt8) {write : List UInt8} {len : ℕ} (hlen : len ≤ write.length)
    (hroom : len + 81 ≤ maxSize) (writeCounter : ℕ) :
    Ensures (c.publish channel (dataKvs start stop subtype write len writeCounter)) s fun _ t =>
      L.At t (d.after (.publish channel
        (dataDocument start stop subtype (write.take len) writeCounter))) := by
  have hmax : maxSize = 1073741824 := rfl
  refine publish_at L hs (dataKvs_encodes c.heap start stop subtype hlen (by omega) writeCounter) ?_
  have hdoc := dataDocument_length start stop subtype (write.take len) writeCounter
  rw [dataDocument, List.length_take] at hdoc
  omega

omit L in
theorem length_of_copyLen {len : ℤ} {src bytes : List UInt8} (h : copyLen len src = some bytes) :
    len = bytes.length := by
  unfold copyLen at h
  split at h
  · rw [← Option.some.inj h, List.length_take]
    omega
  · cases h

omit L in
theorem messages_publish (d : Db KvStore.Key) (channel message : List UInt8) :
    (d.after (.publish channel message)).messages = d.messages ++ [(channel, message)] := rfl

omit L in
theorem i32_eq_zero_iff (n : ℕ) : i32 n = 0 ↔ 2 ^ 32 ∣ n := by
  unfold i32
  omega

/-- The bytes that are published are those inside the file if the block starts inside it and
the message can be built. A block behind the end is clipped to a length of almost `2 ^ 64`, so
it has to be empty, as an `int` tells its length. -/
theorem publishesInside_iff (hs : L.At s d) {path write : List UInt8}
    {start file size len : ℕ} (hknown : Known d file path size) (hstart : start < 2 ^ 64)
    (hlen : len ≤ write.length) (stop writeCounter sector : ℕ) :
    PublishesInside L s path start stop file size write len writeCounter sector ↔
      (start ≤ size ∧ min len (size - start) + 81 ≤ maxSize) ∨
        (size < start ∧ 2 ^ 32 ∣ min len (2 ^ 64 + size - start)) := by
  obtain ⟨t, e, subtype, ht, hmessages, hrun⟩ :=
    @emitFileBytes_publishes σ c L s d hs path write start stop file size len hknown hlen
      writeCounter sector
  set shown := min (u64 (size - start)) len with hshown
  rw [rest_eq hstart hknown.size_lt] at hshown
  have hmax : maxSize = 1073741824 := rfl
  have hinside : (insideFile start size len write).length =
      if start ≤ size then min len (size - start) else 0 := by
    unfold insideFile
    rw [List.length_take]
    split <;> omega
  constructor
  · rintro ⟨_, u, hu, message, hnew, hread⟩
    rw [hrun] at hu
    obtain ⟨bytes, hbytes, hroom, -, hdb⟩ := publish_dataKvs_yields L ht _ _ _ _ _ _ _ _ u hu
    have hmessage : message = dataDocument start stop subtype bytes writeCounter := by
      rw [hdb, hs.2, ← hmessages, messages_publish] at hnew
      have hpair := List.head_eq_of_cons_eq (List.append_cancel_left hnew)
      exact (Prod.mk.inj hpair).2.symm
    rw [hmessage, readData_dataDocument hstart stop subtype (by omega) writeCounter] at hread
    have hdata := congrArg List.length (Prod.mk.inj (Option.some.inj hread)).2
    have hcount := length_of_copyLen hbytes
    rw [hinside] at hdata
    by_cases hle : start ≤ size
    · rw [if_pos hle] at hdata
      rw [hdata] at hroom
      exact .inl ⟨hle, hroom⟩
    · rw [if_neg hle] at hdata hshown
      rw [hdata, Nat.cast_zero, i32_eq_zero_iff, hshown, min_comm] at hcount
      exact .inr ⟨Nat.lt_of_not_le hle, hcount⟩
  · intro hcond
    have hpublish : Ensures (c.publish (c.constructChannelName path)
        (dataKvs start stop subtype write shown writeCounter)) t fun _ u =>
          L.At u (e.after (.publish (c.constructChannelName path)
            (dataDocument start stop subtype (insideFile start size len write) writeCounter))) := by
      rcases hcond with ⟨hle, hroom⟩ | ⟨hlt, hdvd⟩
      · rw [if_pos hle] at hshown
        rw [insideFile, if_pos hle, min_comm, ← hshown]
        exact publish_dataKvs_at L ht _ _ _ _ (by omega) (by omega) _
      · -- the length wraps to zero as an `int`
        rw [if_neg (by omega)] at hshown
        have hzero : i32 shown = i32 (0 : ℕ) := by
          rw [(i32_eq_zero_iff shown).mpr (by rw [hshown, min_comm]; exact hdvd),
            (i32_eq_zero_iff 0).mpr (dvd_zero _)]
        have hkvs : dataKvs start stop subtype write shown writeCounter =
            dataKvs start stop subtype write 0 writeCounter := by
          unfold dataKvs
          rw [hzero]
        rw [insideFile, if_neg (by omega), hkvs]
        exact publish_dataKvs_at L ht _ _ _ _ (Nat.zero_le _) (by omega) _
    obtain ⟨_, u, hu, hut⟩ := hpublish
    refine ⟨_, u, hrun.trans hu,
      dataDocument start stop subtype (insideFile start size len write) writeCounter, ?_, ?_⟩
    · rw [hut.2, hs.2, ← hmessages, messages_publish]
    · refine readData_dataDocument hstart stop subtype ?_ writeCounter
      rw [hinside]
      split <;> omega

/-- A file of 100 bytes. -/
def shortDb : Db KvStore.Key :=
  Db.empty.replay [.hset (.file 1) (ascii "path") (ascii "/a"),
    .hset (.file 1) (ascii "size") (leBytes 8 100)]

def shortState : State Handle := ⟨redisInit shortDb 0, 0⟩

def shortInspector : Inspector Handle where
  heap := zeroHeap
  hostname := ascii "host"
  vmname := ascii "vm"
  blockSize := 512
  partitionOffset := 0
  service := handleService
  stack _ _ := 0

theorem shortDb_known : Known shortDb 1 (ascii "/a") 100 :=
  ⟨by decide +kernel, by decide, by decide +kernel, by decide⟩

theorem publishesInside_short :
    PublishesInside (c := shortInspector) handleLawful shortState (ascii "/a") 0 512 1 100
      (List.replicate 512 7) 512 0 40 :=
  (publishesInside_iff (c := shortInspector) handleLawful (s := shortState)
    ⟨redisInit_settled shortDb 0, rfl⟩ shortDb_known (by decide)
    (List.length_replicate ▸ le_rfl) 512 0 40).mpr (.inl ⟨by decide, by decide⟩)

/-- A block behind the end of the file is published. -/
theorem behindEnd_not_publishesInside :
    ¬ PublishesInside (c := shortInspector) handleLawful shortState (ascii "/a") 512 1024 1 100
      [7] 1 0 40 := by
  have hrun : (shortInspector.emitFileBytes [7] 0 (dataPointer 512 1024 1) 1 40 shortState).map
      (fun p => p.2.store.db.messages.map fun m => readData m.2) = some [some (512, [7])] := by
    decide +kernel
  rintro ⟨_, t, ht, message, hnew, hread⟩
  rw [ht, Option.map_some, Option.some.injEq] at hrun
  have hmessages : t.store.db.messages =
      [(shortInspector.constructChannelName (ascii "/a"), message)] := hnew
  rw [hmessages, List.map_singleton, hread] at hrun
  exact absurd hrun (by decide)

end Inspector

end GammaRay.Inspect
