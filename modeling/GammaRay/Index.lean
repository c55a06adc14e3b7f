import GammaRay.LoadIndex
import GammaRay.Mbr
import GammaRay.MetadataFilter

set_option autoImplicit false

/-!
# Whole indexes

The documents that a crawl leaves behind: the partition table, its partitions and their file
systems, block groups, files, and the metadata filter. `qemu_load_index` takes them in any order;
what it makes of one depends on those before it.
-/
namespace GammaRay.Loader
open Bytes Decimal Bson KvStore
open Redis (Db Command)
open Inspect (copyString_of_le)

/-! ## Records with a sector -/

/-- The fields of a record go into one hash, but for the one that names a sector. -/
structure SectorRecord (sectorKey : String) where
  fields : List (Bson.Key × Value)
  sector : ∀ e ∈ fields, e.1.bytes = ascii sectorKey → ∃ n < 2 ^ 32, e.2 = int32Of n

namespace SectorRecord

variable {sectorKey : String}

def fieldCommands (sectorKey : String) (point : ℕ → List (Command KvStore.Key))
    (fmt : ℕ → List UInt8 → List UInt8 → Command KvStore.Key) (id : ℕ) (e : Bson.Key × Value) :
    List (Command KvStore.Key) :=
  if e.1.bytes = ascii sectorKey then point (leNat e.2.raw) else [fmt id e.1.bytes e.2.raw]

def commands (r : SectorRecord sectorKey) (point : ℕ → List (Command KvStore.Key))
    (fmt : ℕ → List UInt8 → List UInt8 → Command KvStore.Key) (id : ℕ) :
    List (Command KvStore.Key) :=
  r.fields.flatMap (fieldCommands sectorKey point fmt id)

def document (type : String) (r : SectorRecord sectorKey) : Document :=
  .cons (keyNamed "type" type_noNul) (.string (ascii type)) (.ofElements r.fields)

end SectorRecord

section Load

variable {sectorKey : String} {call : ℕ → Handle → Option Handle}
  {point : ℕ → List (Command KvStore.Key)}
  {fmt : ℕ → List UInt8 → List UInt8 → Command KvStore.Key}

theorem record_serves (hpoint : ∀ n, Issues (call n) (point n))
    (hfmt : ∀ id field x k, fmt id field x ≠ .brpop k) (id : ℕ) (e : Bson.Key × Value)
    (hsector : e.1.bytes = ascii sectorKey → ∃ n < 2 ^ 32, e.2 = int32Of n) :
    Serves (recordElement sectorKey call fmt id) InDb e
      fun db => db.replay (SectorRecord.fieldCommands sectorKey point fmt id e) := by
  rintro bson vars store db hkey hseen ⟨hs, rfl⟩
  by_cases hname : e.1.bytes = ascii sectorKey
  · obtain ⟨n, hn, hv⟩ := hsector hname
    have hraw : e.2.raw = leBytes 4 n := by rw [hv, int32Of_raw]
    have hread := uintOf_sized 4 0 (hraw ▸ hseen.raw) hn
    obtain ⟨h₁, e₁, d₁, s₁⟩ := hpoint n store hs
    refine ⟨vars, h₁, ?_, s₁, ?_⟩
    · rw [recordElement, hkey, if_pos hname, Loop.bind_of_some hread]
      exact Loop.bind_of_some e₁ _
    · rw [d₁, SectorRecord.fieldCommands, if_pos hname, hraw, leNat_leBytes_of_lt hn]
  · obtain ⟨h₁, e₁, d₁, s₁⟩ := setField_issues id fmt hkey hseen.raw (hfmt id _ _) store hs
    refine ⟨vars, h₁, ?_, s₁, ?_⟩
    · rw [recordElement, hkey, if_neg hname]
      exact Loop.bind_of_some e₁ _
    · rw [d₁, SectorRecord.fieldCommands, if_neg hname]

variable (fmt) in
theorem record_loop (hpoint : ∀ n, Issues (call n) (point n))
    (hfmt : ∀ id field x k, fmt id field x ≠ .brpop k) (id : ℕ) (r : SectorRecord sectorKey)
    {total fuel : ℕ} {bson : BsonInfo} (vars : Vars) {store : Handle}
    (hfuel : r.fields.length < fuel) (hs : Settled store)
    (hc : Cursor bson total ((Document.ofElements r.fields).body ++ [0])) :
    ∃ bson' vars' store', whileDeserialize (· ≠ 0) (recordElement sectorKey call fmt id) fuel bson
        vars store = some (true, bson', vars', store') ∧ bson'.size = 0 ∧
      InDb store' (store.db.replay (r.commands point fmt id)) := by
  obtain ⟨bson', vars', s', hw, hz, hs', hdb⟩ := whileDeserialize_elements (· ≠ 0) rfl rfl r.fields
    (fun e he => record_serves hpoint hfmt id e (r.sector e he)) vars
    (by rw [Document.elements_ofElements, List.map_id']) hfuel hc ⟨hs, rfl⟩
  refine ⟨bson', vars', s', hw, hz, hs', ?_⟩
  rw [hdb, Redis.foldl_replay]
  rfl

variable (locals : Locals) {bson : BsonInfo}

/-- The head of a document: its type. -/
theorem typed_document (type : String) (htype : 0 ∉ ascii type) {rest : Document} {total : ℕ}
    (hc : Cursor bson total ((Document.cons (keyNamed "type" type_noNul) (.string (ascii type))
      rest).body ++ [0])) :
    ∃ bson₁ v1 v2,
      bsonDeserialize bson locals.vars.value1 locals.vars.value2 = some (1, bson₁, v1, v2) ∧
      keyOf bson₁ v1 = ascii "type" ∧ cstringAt bson₁.buffer v1.data = ascii type ∧
      Cursor bson₁ total (rest.body ++ [0]) := by
  obtain ⟨bson₁, v1, v2, he₁, hbuf₁, hkey₁, hseen₁, hc₁⟩ :=
    hc.element locals.vars.value1 locals.vars.value2
  refine ⟨bson₁, v1, v2, he₁, ?_, ?_, hc₁⟩
  · rw [keyOf, hbuf₁]
    exact hkey₁
  · rw [hbuf₁]
    exact hseen₁.text _ rfl htype

theorem fields_lt_of_frame {fields : List (Bson.Key × Value)} {type : String} {fuel : ℕ}
    (hfuel : (frame (Document.cons (keyNamed "type" type_noNul) (.string (ascii type))
      (.ofElements fields)).body).length < fuel) : fields.length < fuel := by
  have hcount := (Document.ofElements fields).elements_length_le
  rw [Document.elements_ofElements] at hcount
  rw [frame_length] at hfuel
  simp only [Document.body, List.length_append] at hfuel
  omega

end Load

/-! ## The geometry -/

/-- The fields of a file system that the loader and the inferencer read back. -/
def SuperInfo.fields (super : SuperInfo) : List (String × ℕ) :=
  [("superblock_sector", super.superblockSector), ("superblock_offset", super.superblockOffset),
    ("block_size", super.blockSize), ("blocks_per_group", super.blocksPerGroup),
    ("inodes_per_group", super.inodesPerGroup), ("inode_size", super.inodeSize)]

/-- A hash with these fields, of eight bytes each. -/
def SuperInfo.In (super : SuperInfo) (db : Db KvStore.Key) (id : ℕ) : Prop :=
  ∃ m, db.hashAt (.fs id) = some m ∧
    ∀ f ∈ super.fields, m (ascii f.1) = some (leBytes 8 f.2) ∧ f.2 < 2 ^ 64

section Superinfo

variable {store : Handle} {id : ℕ} {m : List UInt8 → Option (List UInt8)}

theorem getField_of_hash (hs : Settled store) (hm : store.db.hashAt (.fs id) = some m)
    (field : String) {n : ℕ} (hn : m (ascii field) = some (leBytes 8 n) ∧ n < 2 ^ 64) (old : ℕ) :
    ∃ store', getField redisSuperblockSectorGet id field old store = some (n, store') ∧
      InDb store' store.db := by
  have hexec : Redis.exec store.db (redisSuperblockSectorGet id (ascii field)) =
      some (.string (leBytes 8 n), store.db) := by
    simp only [redisSuperblockSectorGet, Redis.exec, hm, hn.1]
  obtain ⟨h₁, ha, hdb, hs₁⟩ := ask_total hs (copyString 8) hexec
  refine ⟨h₁, ?_, hs₁, hdb⟩
  rw [getField, redisHashFieldGet, Loop.bind_of_some ha]
  dsimp only
  rw [copyString_of_le (leBytes_length 8 n).le, leBytes_length,
    List.drop_of_length_le (leBytes_length 8 old).le, List.append_nil, leNat_leBytes_of_lt hn.2]

/-- Whatever the variables hold before. -/
theorem qemuGetSuperinfo_of_hash {super : SuperInfo} (hs : Settled store)
    (hsuper : super.In store.db id) (old : SuperInfo) :
    ∃ store', qemuGetSuperinfo store old id = some (super, store') ∧ InDb store' store.db := by
  obtain ⟨m, hm, hfields⟩ := hsuper
  simp only [SuperInfo.fields, List.forall_mem_cons, List.not_mem_nil, false_imp_iff,
    implies_true, and_true] at hfields
  obtain ⟨f₁, f₂, f₃, f₄, f₅, f₆⟩ := hfields
  obtain ⟨h₁, e₁, s₁, d₁⟩ := getField_of_hash hs hm "superblock_sector" f₁ old.superblockSector
  obtain ⟨h₂, e₂, s₂, d₂⟩ := getField_of_hash s₁ (d₁ ▸ hm) "superblock_offset" f₂
    old.superblockOffset
  rw [d₁] at d₂
  obtain ⟨h₃, e₃, s₃, d₃⟩ := getField_of_hash s₂ (d₂ ▸ hm) "block_size" f₃ old.blockSize
  rw [d₂] at d₃
  obtain ⟨h₄, e₄, s₄, d₄⟩ := getField_of_hash s₃ (d₃ ▸ hm) "blocks_per_group" f₄
    old.blocksPerGroup
  rw [d₃] at d₄
  obtain ⟨h₅, e₅, s₅, d₅⟩ := getField_of_hash s₄ (d₄ ▸ hm) "inodes_per_group" f₅
    old.inodesPerGroup
  rw [d₄] at d₅
  obtain ⟨h₆, e₆, s₆, d₆⟩ := getField_of_hash s₅ (d₅ ▸ hm) "inode_size" f₆ old.inodeSize
  rw [d₅] at d₆
  refine ⟨h₆, ?_, s₆, d₆⟩
  rw [qemuGetSuperinfo]
  dsimp only
  rw [Loop.bind_of_some e₁, Loop.bind_of_some e₂, Loop.bind_of_some e₃, Loop.bind_of_some e₄,
    Loop.bind_of_some e₅, Loop.bind_of_some e₆]

end Superinfo

/-- A document of type `fs` in which the geometry can be found. -/
structure FsEntry extends FsRecord where
  super : SuperInfo
  distinct : (fields.map fun e => e.1.bytes).Nodup
  describes : ∀ f ∈ super.fields, ∃ e ∈ fields, e.1.bytes = ascii f.1 ∧ e.2 = int64Of f.2
  range : ∀ f ∈ super.fields, f.2 < 2 ^ 64

section Fs

variable (r : FsEntry)

theorem fs_assigned_self : Redis.assigned (.fs r.pteNum) r.commands =
    r.fields.map fun e => (e.1.bytes, e.2.raw) := by
  rw [FsRecord.commands, Redis.assigned_flatMap, List.map_eq_flatMap]
  congr 1
  funext e
  rw [fsFieldCommands, Redis.assigned_append]
  split <;> simp

theorem fs_lastAssigned {f : String × ℕ} (hf : f ∈ r.super.fields) :
    Redis.lastAssigned (Redis.assigned (.fs r.pteNum) r.commands) (ascii f.1) =
      some (leBytes 8 f.2) := by
  obtain ⟨e, he, hkey, hvalue⟩ := r.describes f hf
  rw [fs_assigned_self]
  refine Redis.lastAssigned_of_unique (List.mem_map.mpr ⟨e, he, ?_⟩) fun v hv => ?_
  · rw [hkey, hvalue, int64Of_raw]
  · obtain ⟨e', he', heq⟩ := List.mem_map.mp hv
    obtain ⟨hkey', rfl⟩ := Prod.mk.inj heq
    obtain rfl : e' = e := List.inj_on_of_nodup_map r.distinct he' he (hkey'.trans hkey.symm)
    rw [hvalue, int64Of_raw]

/-- What a file system's document says is in the store after it, whatever was there before. -/
theorem fs_superinfo {db : Db KvStore.Key} {m : List UInt8 → Option (List UInt8)}
    (hm : db.hashAt (.fs r.pteNum) = some m) : r.super.In (db.replay r.commands) r.pteNum := by
  refine ⟨_, Redis.hashAt_replay (.of_inserts (fs_inserts r.toFsRecord) rfl) hm, fun f hf => ?_⟩
  refine ⟨?_, r.range f hf⟩
  rw [fs_lastAssigned r hf]
  rfl

end Fs

/-! ## Entries -/

inductive Entry where
  | mbr (r : SectorRecord "sector")
  | partition (pteNum : ℕ) (pteNum_lt : pteNum < 2 ^ 32) (r : SectorRecord "superblock_sector")
  | fs (r : FsEntry)
  | bgd (r : SectorRecord "sector")
  | file (r : FileRecord)
  | filter (subtype : UInt8) (data : List UInt8)

namespace Entry

def document : Entry → Document
  | mbr r => r.document "mbr"
  | partition pteNum _ r =>
    .cons (keyNamed "type" type_noNul) (.string (ascii "partition"))
      (.cons (keyNamed "pte_num" pteNum_noNul) (int32Of pteNum) (.ofElements r.fields))
  | fs r => r.document
  | bgd r => r.document "bgd"
  | file r => r.document
  | filter subtype data => filterDocument subtype data

def commands (st : Statics) : Entry → List (Command KvStore.Key)
  | mbr r => r.commands (fun n => [redisMbrInsert n (0 : ℕ)]) redisMbrSectorInsert 0
  | partition pteNum _ r =>
    r.commands (fun n => [redisSuperblockInsert n pteNum]) redisSuperblockSectorInsert pteNum
  | fs r => r.commands
  | bgd r => r.commands (fun n => [redisBgdsInsert n st.bgdCounter, redisBgdsSectorInsert n n])
      redisBgdSectorInsert st.bgdCounter
  | file r => r.commands st.super.blockSize st.fileCounter
  | filter _ data => [.set .metadataFilter data]

/-- The static variables after the entry. -/
def next (st : Statics) : Entry → Statics
  | mbr _ => st
  | partition pteNum _ _ => { st with fsId := pteNum }
  | fs r => { st with fsId := r.pteNum, super := r.super }
  | bgd _ => { st with bgdCounter := (st.bgdCounter + 1) % 2 ^ 64 }
  | file _ => { st with fileCounter := (st.fileCounter + 1) % 2 ^ 64 }
  | filter _ _ => st

end Entry

def entriesCommands : Statics → List Entry → List (Command KvStore.Key)
  | _, [] => []
  | st, e :: es => e.commands st ++ entriesCommands (e.next st) es

theorem bgds_issues (id n : ℕ) : Issues (fun store => do
    let store ← redisReversePointerSet redisBgdsInsert n id store
    redisReversePointerSet redisBgdsSectorInsert n n store)
    [redisBgdsInsert n id, redisBgdsSectorInsert n n] :=
  Issues.bind (pipelined_issues (c := redisBgdsInsert n id) (by simp))
    (pipelined_issues (c := redisBgdsSectorInsert n n) (by simp))

section LoadEntry

variable (heap : Heap) {fuel : ℕ} (locals : Locals) {bson : BsonInfo} {offset : ℕ} (st : Statics)
  {store : Handle}

theorem load_mbr (r : SectorRecord "sector") (hlen : (frame (r.document "mbr").body).length < 2 ^ 31)
    (hfuel : (frame (r.document "mbr").body).length < fuel)
    (hread : Read bson (r.document "mbr") offset) (hs : Settled store) :
    ∃ bson' store', qemuLoadDocument heap fuel locals bson st store =
        some (true, bson', (Entry.mbr r).next st, store') ∧ bson'.size = 0 ∧
      InDb store' (store.db.replay ((Entry.mbr r).commands st)) := by
  obtain ⟨bson₁, v1, v2, he, hname, htype, hc⟩ := typed_document locals "mbr" (by decide)
    (hread.cursor hlen)
  obtain ⟨bson', vars', store', hw, hz, hin⟩ := record_loop redisMbrSectorInsert
    (fun n => pipelined_issues (c := redisMbrInsert n (0 : ℕ)) (by simp)) (by simp) 0 r
    locals.vars (fields_lt_of_frame hfuel) hs hc
  refine ⟨bson', store', ?_, hz, hin⟩
  rw [qemuLoadDocument, Loop.bind_of_some he]
  dsimp only
  rw [if_neg (fun h => h rfl), if_neg (fun h => h hname), htype, if_neg (by decide),
    if_neg (by decide), if_neg (by decide), if_neg (by decide), if_pos rfl, deserializeMbr]
  exact Loop.bind_of_some hw _

theorem load_bgd (r : SectorRecord "sector") (hlen : (frame (r.document "bgd").body).length < 2 ^ 31)
    (hfuel : (frame (r.document "bgd").body).length < fuel)
    (hread : Read bson (r.document "bgd") offset) (hs : Settled store) :
    ∃ bson' store', qemuLoadDocument heap fuel locals bson st store =
        some (true, bson', (Entry.bgd r).next st, store') ∧ bson'.size = 0 ∧
      InDb store' (store.db.replay ((Entry.bgd r).commands st)) := by
  obtain ⟨bson₁, v1, v2, he, hname, htype, hc⟩ := typed_document locals "bgd" (by decide)
    (hread.cursor hlen)
  obtain ⟨bson', vars', store', hw, hz, hin⟩ := record_loop redisBgdSectorInsert
    (bgds_issues st.bgdCounter) (by simp) st.bgdCounter r locals.vars (fields_lt_of_frame hfuel) hs
    hc
  refine ⟨bson', store', ?_, hz, hin⟩
  rw [qemuLoadDocument, Loop.bind_of_some he]
  dsimp only
  rw [if_neg (fun h => h rfl), if_neg (fun h => h hname), htype, if_neg (by decide), if_pos rfl,
    deserializeBgd]
  exact Loop.bind_of_some hw _

theorem load_partition_record (pteNum : ℕ) (hnum : pteNum < 2 ^ 32)
    (r : SectorRecord "superblock_sector")
    (hlen : (frame (Entry.partition pteNum hnum r).document.body).length < 2 ^ 31)
    (hfuel : (frame (Entry.partition pteNum hnum r).document.body).length < fuel)
    (hread : Read bson (Entry.partition pteNum hnum r).document offset) (hs : Settled store) :
    ∃ bson' store', qemuLoadDocument heap fuel locals bson st store =
        some (true, bson', (Entry.partition pteNum hnum r).next st, store') ∧ bson'.size = 0 ∧
      InDb store' (store.db.replay ((Entry.partition pteNum hnum r).commands st)) := by
  obtain ⟨bson₁, v1, v2, bson₂, w1, w2, he₁, hname₁, htype, he₂, hname₂, hid, hc⟩ :=
    numbered_document locals "partition" (by decide) hnum (hread.cursor hlen)
  have hlt : r.fields.length < fuel := by
    have hcount := (Document.ofElements r.fields).elements_length_le
    rw [Document.elements_ofElements] at hcount
    rw [frame_length] at hfuel
    simp only [Entry.document, Document.body, List.length_append] at hfuel
    omega
  obtain ⟨bson', vars', store', hw, hz, hin⟩ := record_loop redisSuperblockSectorInsert
    (fun n => pipelined_issues (c := redisSuperblockInsert n pteNum) (by simp)) (by simp) pteNum r
    locals.vars hlt hs hc
  refine ⟨bson', store', ?_, hz, hin⟩
  rw [qemuLoadDocument, Loop.bind_of_some he₁]
  dsimp only
  rw [if_neg (fun h => h rfl), if_neg (fun h => h hname₁), htype, if_neg (by decide),
    if_neg (by decide), if_neg (by decide), if_pos rfl, Loop.bind_of_some he₂]
  dsimp only
  rw [if_neg (fun h => h rfl), if_neg (fun h => h hname₂), Loop.bind_of_some hid,
    deserializePartition]
  exact Loop.bind_of_some hw _

theorem load_filter (subtype : UInt8) (data : List UInt8)
    (hlen : (frame (filterDocument subtype data).body).length < 2 ^ 31)
    (hfuel : (frame (filterDocument subtype data).body).length < fuel)
    (hread : Read bson (filterDocument subtype data) offset) (hs : Settled store) :
    ∃ bson' store', qemuLoadDocument heap fuel locals bson st store =
        some (true, bson', (Entry.filter subtype data).next st, store') ∧ bson'.size = 0 ∧
      InDb store' (store.db.replay ((Entry.filter subtype data).commands st)) := by
  have hdoc : filterDocument subtype data = .cons (keyNamed "type" type_noNul)
      (.string (ascii "metadata_filter")) (.ofElements [(bitarrayKey, .binary subtype data)]) := rfl
  rw [hdoc] at hread hlen hfuel
  obtain ⟨bson₁, v1, v2, he, hname, htype, hc⟩ := typed_document locals "metadata_filter"
    (by decide) (hread.cursor hlen)
  have hserves : ∀ e ∈ [(bitarrayKey, Value.binary subtype data)], Serves bitarrayElement InDb e
      fun db => db.replay [.set .metadataFilter e.2.raw] := by
    rw [List.forall_mem_singleton]
    rintro bson vars store db hkey hseen ⟨hs, rfl⟩
    have hbits : keyOf bson vars.value1 = ascii "bitarray" := hkey
    obtain ⟨h₁, e₁, d₁, s₁⟩ := pipelined_issues (c := .set .metadataFilter data) (by simp) store hs
    refine ⟨vars, h₁, ?_, s₁, d₁⟩
    rw [bitarrayElement, if_pos hbits, Loop.bind_of_some (dataOf_sized hseen.raw)]
    exact Loop.bind_of_some e₁ _
  obtain ⟨bson', vars', store', hw, hz, hin⟩ := whileDeserialize_elements (· ≠ 0) rfl rfl
    [(bitarrayKey, Value.binary subtype data)] hserves locals.vars
    (by rw [Document.elements_ofElements, List.map_id']) (fields_lt_of_frame hfuel) hc ⟨hs, rfl⟩
  refine ⟨bson', store', ?_, hz, hin⟩
  rw [qemuLoadDocument, Loop.bind_of_some he]
  dsimp only
  rw [if_neg (fun h => h rfl), if_neg (fun h => h hname), htype, if_neg (by decide),
    if_neg (by decide), if_neg (by decide), if_neg (by decide), if_neg (by decide), if_pos rfl,
    deserializeBitarray]
  exact Loop.bind_of_some hw _

/-- One entry of an index. A file system has to find a hash, or nothing, where its fields go. -/
theorem load_entry (e : Entry) (hlen : (frame e.document.body).length < 2 ^ 31)
    (hfuel : (frame e.document.body).length < fuel) (hread : Read bson e.document offset)
    (hs : Settled store) (hcount : st.fileCounter + 1 < 2 ^ 64)
    (hhash : ∀ id, ∃ m, store.db.hashAt (.fs id) = some m) :
    ∃ bson' store', qemuLoadDocument heap fuel locals bson st store =
        some (true, bson', e.next st, store') ∧ bson'.size = 0 ∧
      InDb store' (store.db.replay (e.commands st)) := by
  cases e with
  | mbr r => exact load_mbr heap locals st r hlen hfuel hread hs
  | partition pteNum hnum r =>
    exact load_partition_record heap locals st pteNum hnum r hlen hfuel hread hs
  | bgd r => exact load_bgd heap locals st r hlen hfuel hread hs
  | filter subtype data => exact load_filter heap locals st subtype data hlen hfuel hread hs
  | file r =>
    rw [Entry.next, Nat.mod_eq_of_lt hcount]
    exact load_file heap locals st r hlen hfuel hread hs hcount
  | fs r =>
    obtain ⟨m, hm⟩ := hhash r.pteNum
    obtain ⟨bson', super, store', hl, hz, hin, rfl⟩ := load_fs_super (Q := (· = r.super)) heap
      locals st r.toFsRecord hlen hfuel hread hs fun h hin => by
        obtain ⟨h', hg, hin'⟩ := qemuGetSuperinfo_of_hash hin.1
          (hin.2.symm ▸ fs_superinfo r hm) locals.super
        exact ⟨r.super, h', hg, hin', rfl⟩
    exact ⟨bson', store', hl, hz, hin⟩

end LoadEntry

/-! ## The run -/

theorem SectorRecord.commands_forall {sectorKey : String} {P : Command KvStore.Key → Prop}
    {point : ℕ → List (Command KvStore.Key)}
    {fmt : ℕ → List UInt8 → List UInt8 → Command KvStore.Key} {id : ℕ}
    (hpoint : ∀ n, ∀ c ∈ point n, P c) (hfmt : ∀ field x, P (fmt id field x))
    (r : SectorRecord sectorKey) : ∀ c ∈ r.commands point fmt id, P c := by
  intro c hc
  obtain ⟨e, -, hc⟩ := List.mem_flatMap.mp hc
  unfold SectorRecord.fieldCommands at hc
  split at hc
  · exact hpoint _ c hc
  · rw [List.mem_singleton.mp hc]
    exact hfmt _ _

theorem entry_inserts (st : Statics) (e : Entry) : ∀ c ∈ e.commands st, c.Inserts Key.kind := by
  cases e with
  | mbr r =>
    exact r.commands_forall (by simp [Command.Inserts, Key.kind])
      (by simp [Command.Inserts, Key.kind])
  | partition pteNum hnum r =>
    exact r.commands_forall (by simp [Command.Inserts, Key.kind])
      (by simp [Command.Inserts, Key.kind])
  | fs r => exact fs_inserts r.toFsRecord
  | bgd r =>
    exact r.commands_forall (by simp [Command.Inserts, Key.kind])
      (by simp [Command.Inserts, Key.kind])
  | file r => exact record_inserts _ _ r
  | filter subtype data => simp [Entry.commands, Command.Inserts, Key.kind]

theorem entries_inserts (st : Statics) (entries : List Entry) :
    ∀ c ∈ entriesCommands st entries, c.Inserts Key.kind := by
  induction entries generalizing st with
  | nil => simp [entriesCommands]
  | cons e entries ih =>
    intro c hc
    rcases List.mem_append.mp hc with hc | hc
    · exact entry_inserts st e c hc
    · exact ih _ c hc

/-- In a store into which only such commands went, what is to be a hash is one. -/
theorem hash_of_inserts {past : List (Command KvStore.Key)}
    (hpast : ∀ c ∈ past, c.Inserts Key.kind) (id : ℕ) :
    ∃ m, (Db.empty.replay past).hashAt (.fs id) = some m :=
  ⟨_, Redis.hashAt_replay (.of_inserts hpast rfl) rfl⟩

theorem next_fileCounter_le (st : Statics) (e : Entry) :
    (e.next st).fileCounter ≤ st.fileCounter + 1 := by
  cases e with
  | file r => exact Nat.mod_le _ _
  | _ => exact Nat.le_succ _

section Run

variable (heap : Heap) {fuel : ℕ} (locals : ℕ → Locals)

theorem loadDocuments_entries (entries : List Entry)
    (hlen : ∀ e ∈ entries, (frame e.document.body).length < 2 ^ 31)
    (hfuel : ∀ e ∈ entries, (frame e.document.body).length < fuel) {rounds : ℕ} {bson : BsonInfo}
    (index : File) (st : Statics) {store : Handle} {past : List (Command KvStore.Key)}
    (hrounds : entries.length < rounds) (hbson : bson.size ≤ bson.buffer.length)
    (hindex : index.bytes.drop index.position = stream (entries.map Entry.document))
    (hin : InDb store (Db.empty.replay past)) (hpast : ∀ c ∈ past, c.Inserts Key.kind)
    (hcount : st.fileCounter + entries.length < 2 ^ 64) :
    ∃ store', loadDocuments heap fuel locals rounds bson index st st.fileCounter store =
        some ((entries.foldl Entry.next st).fileCounter, entries.foldl Entry.next st, store') ∧
      InDb store' (Db.empty.replay (past ++ entriesCommands st entries)) := by
  induction entries generalizing rounds bson index st store past with
  | nil =>
    refine ⟨store, loadDocuments_end heap locals hindex hrounds, ?_⟩
    rw [entriesCommands, List.append_nil]
    exact hin
  | cons e entries ih =>
    rw [List.map_cons, stream_cons] at hindex
    rw [List.length_cons] at hcount hrounds
    cases rounds with
    | zero => exact absurd hrounds (Nat.not_lt_zero _)
    | succ rounds =>
      obtain ⟨bson', index', st', store', hnext, hz, hrest, rfl, hin'⟩ :=
        loadDocuments_next (P := fun st' store' => st' = e.next st ∧
            InDb store' (Db.empty.replay (past ++ e.commands st)))
          heap locals index st.fileCounter (hlen e List.mem_cons_self) hbson hindex
          (fun b' locals hread => by
            obtain ⟨bson', store', hl, hz, hin'⟩ := load_entry heap locals st e
              (hlen e List.mem_cons_self) (hfuel e List.mem_cons_self) hread hin.1 (by omega)
              (hin.2 ▸ hash_of_inserts hpast)
            rw [hin.2, ← Redis.replay_append] at hin'
            exact ⟨bson', _, store', hl, hz, rfl, hin'⟩)
      have hle := next_fileCounter_le st e
      obtain ⟨store'', hl, hin''⟩ := ih (fun e he => hlen e (List.mem_cons_of_mem _ he))
        (fun e he => hfuel e (List.mem_cons_of_mem _ he)) index' (e.next st)
        (Nat.lt_of_succ_lt_succ hrounds) (by rw [hz]; exact Nat.zero_le _) hrest hin'
        (fun c hc => (List.mem_append.mp hc).elim (hpast c) (entry_inserts st e c)) (by omega)
      refine ⟨store'', hnext.trans hl, ?_⟩
      rwa [List.append_assoc] at hin''

/-- Everything that an index leaves in an empty store. -/
def indexed (entries : List Entry) : List (Command KvStore.Key) :=
  entriesCommands .fresh entries ++
    [.set .fcounter (dec (entries.foldl Entry.next .fresh).fileCounter)]

theorem indexed_inserts (entries : List Entry) :
    ∀ c ∈ indexed entries, c.Inserts Key.kind := by
  intro c hc
  rcases List.mem_append.mp hc with hc | hc
  · exact entries_inserts _ _ c hc
  · rw [List.mem_singleton.mp hc]
    rfl

theorem entries_loaded (entries : List Entry) (bytes : ℕ)
    (hlen : ∀ e ∈ entries, (frame e.document.body).length < 2 ^ 31)
    (hfile : (stream (entries.map Entry.document)).length < 2 ^ 63)
    (hfuel : (stream (entries.map Entry.document)).length < fuel) :
    ∃ store, qemuLoadIndex heap fuel locals ⟨stream (entries.map Entry.document), 0⟩ .fresh
        (redisInit Db.empty bytes) = some (entries.foldl Entry.next .fresh, store) ∧
      InDb store (Db.empty.replay (indexed entries)) := by
  have hcount := length_le_stream (entries.map Entry.document)
  rw [List.length_map] at hcount
  have hinit : (bsonInit heap).size ≤ (bsonInit heap).buffer.length :=
    (heap.malloc_length startSize).ge
  have hempty : InDb (redisInit Db.empty bytes) (Db.empty.replay []) :=
    ⟨redisInit_settled Db.empty bytes, rfl⟩
  obtain ⟨store₁, hl, hs₁, hdb₁⟩ := loadDocuments_entries heap locals entries hlen
    (fun e he => (frame_le_stream (List.mem_map_of_mem he)).trans_lt hfuel)
    ⟨_, 0⟩ .fresh (hcount.trans_lt hfuel) hinit rfl hempty (by simp)
    (by change 0 + entries.length < 2 ^ 64; omega)
  obtain ⟨store₂, hset, hdb₂, hs₂⟩ := command_issues
    (c := .set .fcounter (dec (entries.foldl Entry.next .fresh).fileCounter)) (by simp) store₁ hs₁
  obtain ⟨store₃, hflush, hdb₃, hs₃⟩ := flush_issues store₂ hs₂
  refine ⟨store₃, ?_, hs₃, ?_⟩
  · rw [qemuLoadIndex]
    refine (Loop.bind_of_some hl _).trans ?_
    dsimp only
    rw [redisSetFcounter, Loop.bind_of_some hset, Loop.bind_of_some hflush]
  · rw [hdb₃, Redis.replay_nil, hdb₂, hdb₁, ← Redis.replay_append, List.nil_append, indexed]

end Run

end GammaRay.Loader
