import GammaRay.CrawlDocuments
import GammaRay.RecordFields

set_option autoImplicit false

/-!
# Partition offsets

`mbr_get_next_partition` and `mbr_serialize_pte` of the crawler and `qemu_get_pt_offset` of the
inferencer. Both programs multiply the first sector of a partition by 512 in 32 bits.
-/
namespace GammaRay.Mbr
open Bytes Bson KvStore Loader
open Ext4 (stringKv int32Kv serializeAll Encodes stringKv_encodes int32Kv_encodes
  serializeAll_appends)
open Redis (Db Command)
open Inspect (copyString_of_le)

/-- The fields of `struct mbr_partition_table_entry` that the functions below read. -/
structure PartitionTableEntry where
  partitionType : ℕ
  firstSectorLba : ℕ
  sectorCount : ℕ
  type_lt : partitionType < 2 ^ 8
  first_lt : firstSectorLba < 2 ^ 32
  count_lt : sectorCount < 2 ^ 32

/-- `struct pte`. -/
structure Pte where
  ptNum : ℕ
  ptOff : ℤ
  pteInfo : PartitionTableEntry

/-- The value of the static `pte_num` goes in and out; without a result the function returns
`false`. The product is one of 32 bits. -/
def mbrGetNextPartition (pt : Vector PartitionTableEntry 4) (pteNum : ℕ) : Option (Pte × ℕ) :=
  pt[pteNum]?.map fun entry =>
    (⟨pteNum, entry.firstSectorLba * 512 % 2 ^ 32, entry⟩, pteNum + 1)

def mbrSerializePte (h : Heap) (pte : Pte) : Option BsonInfo := do
  let serialized ← serializeAll h (bsonInit h)
    [stringKv "type" (ascii "partition"), int32Kv "pte_num" pte.ptNum,
      int32Kv "partition_type" pte.pteInfo.partitionType,
      int32Kv "first_sector_lba" pte.pteInfo.firstSectorLba,
      int32Kv "final_sector_lba" (pte.pteInfo.firstSectorLba + pte.pteInfo.sectorCount)]
  bsonFinalize h serialized

/-- `sector_offset` is 0 before the field is copied into it. -/
def qemuGetPtOffset (store : Handle) (ptId : ℕ) : Option (ℕ × Handle) := do
  let (data, store) ←
    redisHashFieldGet redisSuperblockSectorGet ptId (ascii "first_sector_lba") 4 store
  some (leNat (data ++ (leBytes 4 0).drop data.length) * 512 % 2 ^ 32, store)

/-! ## The document of a partition -/

def partitionFields (entry : PartitionTableEntry) : List (Bson.Key × Value) :=
  [(keyNamed "partition_type" (by decide), int32Of entry.partitionType),
    (keyNamed "first_sector_lba" (by decide), int32Of entry.firstSectorLba),
    (keyNamed "final_sector_lba" (by decide), int32Of (entry.firstSectorLba + entry.sectorCount))]

def partitionDocument (pte : Pte) : Document :=
  .cons (keyNamed "type" type_noNul) (.string (ascii "partition"))
    (.cons (keyNamed "pte_num" pteNum_noNul) (int32Of pte.ptNum)
      (.ofElements (partitionFields pte.pteInfo)))

theorem partitionDocument_length (pte : Pte) :
    (frame (partitionDocument pte).body).length = 102 := by
  rw [frame_length]
  simp only [partitionDocument, partitionFields, Document.ofElements, Document.body,
    List.length_append, Value.payload, keyNamed, int32Of, Vector.length_toList,
    List.length_singleton]
  decide +kernel

theorem partition_encodes (h : Heap) (pte : Pte) :
    List.Forall₂ (Encodes h)
      [stringKv "type" (ascii "partition"), int32Kv "pte_num" pte.ptNum,
        int32Kv "partition_type" pte.pteInfo.partitionType,
        int32Kv "first_sector_lba" pte.pteInfo.firstSectorLba,
        int32Kv "final_sector_lba" (pte.pteInfo.firstSectorLba + pte.pteInfo.sectorCount)]
      ((keyNamed "type" (by decide), .string (ascii "partition")) ::
        (keyNamed "pte_num" (by decide), int32Of pte.ptNum) :: partitionFields pte.pteInfo) :=
  .cons (stringKv_encodes _ _ _ _) <| .cons (int32Kv_encodes _ _ _ _) <|
    .cons (int32Kv_encodes _ _ _ _) <| .cons (int32Kv_encodes _ _ _ _) <|
    .cons (int32Kv_encodes _ _ _ _) .nil

theorem mbrSerializePte_finished (h : Heap) (pte : Pte) :
    ∃ finished, mbrSerializePte h pte = some finished ∧
      Finished finished (frame (partitionDocument pte).body) := by
  have hlength := partitionDocument_length pte
  rw [frame_length] at hlength
  have hmax : maxSize = 1073741824 := rfl
  have hroom : 0 + (partitionDocument pte).body.length ≤ maxSize := by omega
  obtain ⟨serialized, hs, hholds⟩ :=
    serializeAll_appends h (partition_encodes h pte) (bsonInit h) [] (bsonInit_holds h) hroom
  obtain ⟨finished, hf, hfinished⟩ := bsonFinalize_finished h (w := (partitionDocument pte).body)
    hholds (by omega)
  refine ⟨finished, ?_, hfinished⟩
  rw [mbrSerializePte, Loop.bind_of_some hs, hf]

/-! ## The document in the store -/

section Load

variable (heap : Heap) {fuel : ℕ} (locals : Locals) {bson : BsonInfo} {offset : ℕ} (st : Statics)
  {store : Handle}

def partitionCommands (pte : Pte) : List (Command KvStore.Key) :=
  (partitionFields pte.pteInfo).map fun e => redisSuperblockSectorInsert pte.ptNum e.1.bytes e.2.raw

theorem partition_serves (id : ℕ) (e : Bson.Key × Value)
    (hname : e.1.bytes ≠ ascii "superblock_sector") :
    Serves (recordElement "superblock_sector"
        (fun n => redisReversePointerSet redisSuperblockInsert n id) redisSuperblockSectorInsert id)
      InDb e fun db => db.after (redisSuperblockSectorInsert id e.1.bytes e.2.raw) := by
  rintro bson vars store db hkey hseen ⟨hs, rfl⟩
  obtain ⟨h₁, e₁, d₁, s₁⟩ := setField_issues id redisSuperblockSectorInsert hkey hseen.raw nofun
    store hs
  refine ⟨vars, h₁, ?_, s₁, d₁⟩
  rw [recordElement, hkey, if_neg hname]
  exact Loop.bind_of_some e₁ _

theorem load_partition (pte : Pte) (hnum : pte.ptNum < 2 ^ 32) (hfuel : 102 < fuel)
    (hread : Read bson (partitionDocument pte) offset) (hs : Settled store) :
    ∃ bson' store', qemuLoadDocument heap fuel locals bson st store =
        some (true, bson', { st with fsId := pte.ptNum }, store') ∧
      InDb store' (store.db.replay (partitionCommands pte)) := by
  have hlength := partitionDocument_length pte
  obtain ⟨bson₁, v1, v2, bson₂, w1, w2, he₁, hname₁, htype, he₂, hname₂, hid, hc₂⟩ :=
    numbered_document locals "partition" (by decide) hnum (hread.cursor (by omega))
  have hnames : ∀ e ∈ partitionFields pte.pteInfo, e.1.bytes ≠ ascii "superblock_sector" := by
    intro e he
    have hkeys : ((partitionFields pte.pteInfo).map fun e => e.1.bytes) =
        [ascii "partition_type", ascii "first_sector_lba", ascii "final_sector_lba"] := rfl
    have hmem : e.1.bytes ∈ (partitionFields pte.pteInfo).map fun e => e.1.bytes :=
      List.mem_map_of_mem he
    rw [hkeys] at hmem
    exact ne_of_mem_of_not_mem hmem (by decide)
  obtain ⟨bson', vars', s', hw, hz, hs'⟩ := whileDeserialize_elements (· ≠ 0) rfl rfl
    (partitionFields pte.pteInfo) (fun e he => partition_serves pte.ptNum e (hnames e he))
    locals.vars (by rw [Document.elements_ofElements, List.map_id'])
    (show (partitionFields pte.pteInfo).length < fuel by
      rw [show (partitionFields pte.pteInfo).length = 3 from rfl]
      omega) hc₂ ⟨hs, rfl⟩
  refine ⟨bson', s', ?_, ?_⟩
  · rw [qemuLoadDocument, Loop.bind_of_some he₁]
    dsimp only
    rw [if_neg (fun h => h rfl), if_neg (fun h => h hname₁), htype, if_neg (by decide),
      if_neg (by decide), if_neg (by decide), if_pos rfl, Loop.bind_of_some he₂]
    dsimp only
    rw [if_neg (fun h => h rfl), if_neg (fun h => h hname₂), Loop.bind_of_some hid,
      deserializePartition, Loop.bind_of_some hw]
  · rw [Db.replay, partitionCommands, List.foldl_map]
    exact hs'

/-- The field that the inferencer reads back. -/
theorem partition_hash (pte : Pte) {db : Db KvStore.Key}
    {m : List UInt8 → Option (List UInt8)} (hm : db.hashAt (.fs pte.ptNum) = some m) :
    ∃ m', (db.replay (partitionCommands pte)).hashAt (.fs pte.ptNum) = some m' ∧
      m' (ascii "first_sector_lba") = some (leBytes 4 pte.pteInfo.firstSectorLba) := by
  have hinserts : ∀ c ∈ partitionCommands pte, c.Inserts Key.kind :=
    List.forall_mem_map.mpr fun _ _ => rfl
  refine ⟨_, Redis.hashAt_replay (.of_inserts hinserts rfl) hm, ?_⟩
  have hassigned : Redis.assigned (.fs pte.ptNum) (partitionCommands pte) =
      [(ascii "partition_type", leBytes 4 pte.pteInfo.partitionType),
        (ascii "first_sector_lba", leBytes 4 pte.pteInfo.firstSectorLba),
        (ascii "final_sector_lba",
          leBytes 4 (pte.pteInfo.firstSectorLba + pte.pteInfo.sectorCount))] := by
    simp [partitionCommands, partitionFields, keyNamed]
  rw [hassigned]
  rfl

theorem qemuGetPtOffset_of_hash {id lba : ℕ} {m : List UInt8 → Option (List UInt8)}
    (hs : Settled store) (hm : store.db.hashAt (.fs id) = some m)
    (hlba : m (ascii "first_sector_lba") = some (leBytes 4 lba)) (hlt : lba < 2 ^ 32) :
    ∃ store', qemuGetPtOffset store id = some (lba * 512 % 2 ^ 32, store') := by
  have hexec : Redis.exec store.db (redisSuperblockSectorGet id (ascii "first_sector_lba")) =
      some (.string (leBytes 4 lba), store.db) := by
    simp only [redisSuperblockSectorGet, Redis.exec, hm, hlba]
  obtain ⟨store', ha, -, -⟩ := ask_total hs (copyString 4) hexec
  refine ⟨store', ?_⟩
  rw [qemuGetPtOffset, redisHashFieldGet, Loop.bind_of_some ha]
  dsimp only
  rw [copyString_of_le (leBytes_length 4 lba).le, leBytes_length,
    List.drop_of_length_le (leBytes_length 4 0).le, List.append_nil, leNat_leBytes_of_lt hlt]

end Load

/-! ## The offsets -/

/-- An entry of the table on its way from the disk to the inferencer, with the two offsets. -/
def Passed (h heap : Heap) (pt : Vector PartitionTableEntry 4) (k fuel : ℕ) (locals : Locals)
    (st : Statics) (store : Handle) (ptOff : ℤ) (partitionOffset : ℕ) : Prop :=
  ∃ pte finished bson index bson' st' store' store'',
    mbrGetNextPartition pt k = some (pte, k + 1) ∧ pte.ptOff = ptOff ∧
    mbrSerializePte h pte = some finished ∧
    bsonReadf heap (bsonInit heap) ⟨bsonWritef finished [], 0⟩ = some (1, bson, index) ∧
    qemuLoadDocument heap fuel locals bson st store = some (true, bson', st', store') ∧
    qemuGetPtOffset store' pte.ptNum = some (partitionOffset, store'')

/-- Both programs compute the product in 32 bits. -/
theorem passed_run (h heap : Heap) (pt : Vector PartitionTableEntry 4) {k : ℕ} (hk : k < 4)
    {fuel : ℕ} (hfuel : 102 < fuel) (locals : Locals) (st : Statics) {store : Handle}
    (hs : Settled store) {m : List UInt8 → Option (List UInt8)}
    (hm : store.db.hashAt (.fs k) = some m) :
    Passed h heap pt k fuel locals st store (pt[k].firstSectorLba * 512 % 2 ^ 32)
      (pt[k].firstSectorLba * 512 % 2 ^ 32) := by
  obtain ⟨pte, hpte⟩ : ∃ pte : Pte,
      pte = ⟨k, pt[k].firstSectorLba * 512 % 2 ^ 32, pt[k]⟩ := ⟨_, rfl⟩
  have hnext : mbrGetNextPartition pt k = some (pte, k + 1) := by
    rw [mbrGetNextPartition, Vector.getElem?_eq_getElem hk, hpte, Option.map_some]
  have hnum : pte.ptNum = k := by rw [hpte]
  have hentry : pte.pteInfo = pt[k] := by rw [hpte]
  have hlength := partitionDocument_length pte
  obtain ⟨finished, hserialize, hfinished⟩ := mbrSerializePte_finished h pte
  have hfile : bsonWritef finished [] = frame (partitionDocument pte).body := by
    rw [bsonWritef, List.nil_append, hfinished.position, hfinished.contents]
  obtain ⟨bson, hread, hr⟩ := readf_document heap (b := bsonInit heap)
    (f := ⟨frame (partitionDocument pte).body, 0⟩) (by omega) (heap.malloc_length startSize).ge
    (List.append_nil _).symm
  obtain ⟨bson', store', hload, hs', hdb⟩ :=
    load_partition heap locals st pte (by omega) hfuel hr hs
  rw [← hnum] at hm
  obtain ⟨m', hm', hlba⟩ := partition_hash pte hm
  rw [← hdb] at hm'
  obtain ⟨store'', hget⟩ := qemuGetPtOffset_of_hash hs' hm' hlba pte.pteInfo.first_lt
  rw [hentry] at hget
  exact ⟨pte, finished, bson, _, bson', _, store', store'', hnext, by rw [hpte], hserialize,
    hfile ▸ hread, hload, hget⟩

theorem Passed.ptOff_eq {h heap : Heap} {pt : Vector PartitionTableEntry 4} {k fuel : ℕ}
    {locals : Locals} {st : Statics} {store : Handle} {ptOff : ℤ} {partitionOffset : ℕ}
    (hp : Passed h heap pt k fuel locals st store ptOff partitionOffset) (hk : k < 4) :
    ptOff = pt[k].firstSectorLba * 512 % 2 ^ 32 := by
  obtain ⟨pte, -, -, -, -, -, -, -, hnext, hoff, -⟩ := hp
  rw [mbrGetNextPartition, Vector.getElem?_eq_getElem hk, Option.map_some,
    Option.some.injEq] at hnext
  rw [← hoff, ← (Prod.mk.inj hnext).1]

/-- Crawler and inferencer place a partition where it is if it starts below sector 2^23. -/
theorem offsets_exact_iff (h heap : Heap) (pt : Vector PartitionTableEntry 4) (k : ℕ) (hk : k < 4)
    (fuel : ℕ) (hfuel : 102 < fuel) (locals : Locals) (st : Statics) (store : Handle)
    (hs : Settled store) (m : List UInt8 → Option (List UInt8))
    (hm : store.db.hashAt (.fs k) = some m) :
    Passed h heap pt k fuel locals st store (512 * pt[k].firstSectorLba)
        (512 * pt[k].firstSectorLba) ↔
      pt[k].firstSectorLba < 2 ^ 23 := by
  constructor
  · intro hp
    have hoff := hp.ptOff_eq hk
    omega
  · intro hlt
    have hrun := passed_run h heap pt hk hfuel locals st hs hm
    have hproduct : pt[k].firstSectorLba * 512 % 2 ^ 32 = 512 * pt[k].firstSectorLba := by omega
    have hcast : (pt[k].firstSectorLba * 512 % 2 ^ 32 : ℤ) = 512 * pt[k].firstSectorLba := by omega
    rwa [hproduct, hcast] at hrun

/-- Four partitions that begin at the same sector. -/
def sameStart (lba : Fin (2 ^ 32)) : Vector PartitionTableEntry 4 :=
  Vector.replicate 4 ⟨0x83, lba, 2048, by decide, lba.isLt, by decide⟩

def blankLocals : Locals := ⟨⟨⟨0, 0, 0, 0, 0⟩, ⟨0, 0, 0, 0, 0⟩⟩, ⟨0, 0, 0, 0, 0, 0⟩⟩

def blankStatics : Statics := ⟨0, 0, 0, ⟨0, 0, 0, 0, 0, 0⟩⟩

theorem offsets_at_2048 :
    Passed zeroHeap zeroHeap (sameStart 2048) 0 200 blankLocals blankStatics
      (redisInit Db.empty 0) 1048576 1048576 :=
  (offsets_exact_iff zeroHeap zeroHeap (sameStart 2048) 0 (by decide) 200 (by decide) blankLocals
    blankStatics (redisInit Db.empty 0) (redisInit_settled Db.empty 0) _ rfl).mpr (by decide)

/-- At 4 GiB both offsets are 0. -/
theorem offsets_at_4GiB :
    Passed zeroHeap zeroHeap (sameStart 8388608) 0 200 blankLocals blankStatics
        (redisInit Db.empty 0) 0 0 ∧
      ¬ Passed zeroHeap zeroHeap (sameStart 8388608) 0 200 blankLocals blankStatics
        (redisInit Db.empty 0) (512 * 8388608) (512 * 8388608) := by
  have hrun := passed_run zeroHeap zeroHeap (sameStart 8388608) (Nat.zero_lt_succ 3)
    (show 102 < 200 by decide) blankLocals blankStatics (redisInit_settled Db.empty 0) rfl
  have hlba : (sameStart 8388608)[0].firstSectorLba = 8388608 := rfl
  have hzero : ((8388608 : ℕ) : ℤ) * 512 % 2 ^ 32 = 0 := by norm_num
  have hzero' : 8388608 * 512 % 2 ^ 32 = 0 := by norm_num
  rw [hlba, hzero, hzero'] at hrun
  refine ⟨hrun, fun hp => ?_⟩
  have hoff := hp.ptOff_eq (Nat.zero_lt_succ 3)
  rw [hlba, hzero] at hoff
  omega

end GammaRay.Mbr
