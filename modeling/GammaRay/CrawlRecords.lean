import GammaRay.Crawler
import GammaRay.IndexLayout

set_option autoImplicit false

/-!
# The records of a crawl

What the crawler writes for a partition table, a file system, a block group and a node of a
directory tree, as the records that the loader reads.
-/
namespace GammaRay.Crawler
open Bytes Decimal Bson Ext4 Mbr
open KvStore (ascii)
open Loader (keyNamed decKey int32Of int64Of Scalar reserved SectorRecord FsEntry FileRecord
  SuperInfo type_noNul pteNum_noNul sector_noNul superblockSector_noNul superblockOffset_noNul
  blockSize_noNul blocksPerGroup_noNul inodesPerGroup_noNul inodeSize_noNul)

theorem write_finished {finished : BsonInfo} {bytes : List UInt8} (hfin : Finished finished bytes)
    (out : Output) : out.write finished = ⟨out.bits, out.written ++ [bytes]⟩ := by
  rw [Output.write, bsonWritef, List.nil_append, hfin.position, hfin.contents]

theorem serialize_written (h : Heap) {kvs : List BsonKv} {es : List (Bson.Key × Value)}
    (hes : List.Forall₂ (Encodes h) kvs es)
    (hroom : (Document.ofElements es).body.length + 5 ≤ maxSize) :
    ∃ serialized finished, serializeAll h (bsonInit h) kvs = some serialized ∧
      bsonFinalize h serialized = some finished ∧ ∀ out : Output,
        out.write finished = ⟨out.bits, out.written ++ [frame (Document.ofElements es).body]⟩ := by
  obtain ⟨serialized, hs, hholds⟩ := serializeAll_appends h hes (bsonInit h) [] (bsonInit_holds h)
    (by rw [List.length_nil]; omega)
  obtain ⟨finished, hf, hfin⟩ := bsonFinalize_finished h hholds hroom
  exact ⟨serialized, finished, hs, hf, write_finished hfin⟩

theorem other_key {P : Prop} {name sectorKey : String} {hname : 0 ∉ ascii name} {value : Value}
    (hkey : (keyNamed name hname, value).1.bytes = ascii sectorKey)
    (hne : ascii name ≠ ascii sectorKey) : P := absurd hkey hne

/-! ## The partition table -/

theorem gpt_noNul : 0 ∉ ascii "gpt" := by decide

abbrev firstEntry (pt : Vector PartitionTableEntry 4) : PartitionTableEntry := pt.head

def mbrRecord (pt : Vector PartitionTableEntry 4) : SectorRecord "sector" where
  fields := [(keyNamed "gpt" gpt_noNul, .boolean ((firstEntry pt).partitionType = 0xee)),
    (keyNamed "sector" sector_noNul, int32Of 0)]
  sector e he hkey := by
    simp only [List.mem_cons, List.not_mem_nil, or_false] at he
    rcases he with rfl | rfl
    · exact other_key hkey (by decide)
    · exact ⟨0, by decide, rfl⟩

theorem mbrDocument_le (pt : Vector PartitionTableEntry 4) :
    ((mbrRecord pt).document "mbr").body.length + 5 ≤ maxSize := by
  simp only [SectorRecord.document, mbrRecord, Document.ofElements, Document.body,
    List.length_append, Value.payload, keyNamed, int32Of, Vector.length_toList,
    List.length_singleton]
  decide

theorem mbrSerializePt_eq (h : Heap) (pt : Vector PartitionTableEntry 4) (out : Output) :
    mbrSerializePt h pt out = some ⟨out.bits.setBit 0,
      out.written ++ [frame ((mbrRecord pt).document "mbr").body]⟩ := by
  obtain ⟨serialized, finished, hs, hf, hw⟩ := serialize_written h
    (.cons (stringKv_encodes h "type" type_noNul (ascii "mbr")) <|
      .cons (booleanKv_encodes h "gpt" gpt_noNul (pt[0].partitionType = 0xee)) <|
      .cons (int32Kv_encodes h "sector" sector_noNul 0) .nil) (mbrDocument_le pt)
  rw [mbrSerializePt, Loop.bind_of_some hs, Loop.bind_of_some hf, hw]
  rfl

def partitionRecord (entry : PartitionTableEntry) : SectorRecord "superblock_sector" where
  fields := partitionFields entry
  sector e he hkey := by
    simp only [partitionFields, List.mem_cons, List.not_mem_nil, or_false] at he
    rcases he with rfl | rfl | rfl <;> exact other_key hkey (by decide)

/-! ## The file system -/

def superInfo (v : Volume) (info : SuperblockInfo) : SuperInfo :=
  ⟨superblockSector v, sectorSize * 2, ext4BlockSize v.superblock, v.superblock.sBlocksPerGroup,
    v.superblock.sInodesPerGroup, info.sInodeSize⟩

theorem fs_noNul : 0 ∉ ascii "fs" := by decide

theorem mountPoint_noNul : 0 ∉ ascii "mount_point" := by decide

theorem numBlockGroups_noNul : 0 ∉ ascii "num_block_groups" := by decide

theorem numFiles_noNul : 0 ∉ ascii "num_files" := by decide

def fsFields (v : Volume) (info : SuperblockInfo) (mountPoint : List UInt8) :
    List (Bson.Key × Value) :=
  [(keyNamed "fs" fs_noNul, .string (ascii "ext4")),
    (keyNamed "mount_point" mountPoint_noNul, .string mountPoint),
    (keyNamed "num_block_groups" numBlockGroups_noNul, int32Of (ext4NumBlockGroups v.superblock)),
    (keyNamed "num_files" numFiles_noNul,
      int32Of (u32 (info.sInodesCount - info.sFreeInodesCount - info.sFirstIno + 2))),
    (keyNamed "superblock_sector" superblockSector_noNul, int64Of (superblockSector v)),
    (keyNamed "superblock_offset" superblockOffset_noNul, int64Of (sectorSize * 2)),
    (keyNamed "block_size" blockSize_noNul, int64Of (ext4BlockSize v.superblock)),
    (keyNamed "blocks_per_group" blocksPerGroup_noNul, int64Of v.superblock.sBlocksPerGroup),
    (keyNamed "inodes_per_group" inodesPerGroup_noNul, int64Of v.superblock.sInodesPerGroup),
    (keyNamed "inode_size" inodeSize_noNul, int64Of info.sInodeSize)]

theorem fsFields_keys (v : Volume) (info : SuperblockInfo) (mountPoint : List UInt8) :
    ((fsFields v info mountPoint).map fun e => e.1.bytes) =
      ["fs", "mount_point", "num_block_groups", "num_files", "superblock_sector",
        "superblock_offset", "block_size", "blocks_per_group", "inodes_per_group",
        "inode_size"].map ascii := rfl

def fsEntry (v : Volume) (info : SuperblockInfo) (mountPoint : List UInt8) (pteNum : ℕ)
    (hnum : pteNum < 2 ^ 32) (hrange : ∀ f ∈ (superInfo v info).fields, f.2 < 2 ^ 64) :
    FsEntry where
  pteNum := pteNum
  pteNum_lt := hnum
  fields := fsFields v info mountPoint
  scalar := by simp [fsFields, int64Of, int32Of, Scalar]
  sector e he hkey := by
    have hsector := hrange ("superblock_sector", superblockSector v) List.mem_cons_self
    simp only [fsFields, List.mem_cons, List.not_mem_nil, or_false] at he
    rcases he with rfl | rfl | rfl | rfl | rfl | rfl | rfl | rfl | rfl | rfl
    case inr.inr.inr.inr.inl => exact ⟨_, hsector, rfl⟩
    all_goals exact other_key hkey (by decide)
  super := superInfo v info
  distinct := by
    rw [fsFields_keys]
    decide
  describes := by simp [SuperInfo.fields, superInfo, fsFields, keyNamed]
  range := hrange

section Fs

variable (h : Heap) (v : Volume) (info : SuperblockInfo) (pteNum : ℕ) (hnum : pteNum < 2 ^ 32)
  (hrange : ∀ f ∈ (superInfo v info).fields, f.2 < 2 ^ 64)

theorem fsDocument_le :
    (fsEntry v info lastMounted pteNum hnum hrange).document.body.length + 5 ≤ maxSize := by
  simp only [Loader.FsRecord.document, fsEntry, fsFields, Document.ofElements, Document.body,
    List.length_append, Value.payload, keyNamed, int32Of, int64Of, Vector.length_toList,
    List.length_singleton]
  decide +kernel

theorem ext4SerializeFs_eq (hgrouped : v.superblock.sBlocksPerGroup ≠ 0)
    (hsize : ext4BlockSize v.superblock ≠ 0) (out : Output) :
    ext4SerializeFs h v info pteNum lastMounted out =
      some ⟨out.bits.setBit (superblockSector v / ext4BlockSize v.superblock),
        out.written ++ [frame (fsEntry v info lastMounted pteNum hnum hrange).document.body]⟩ := by
  obtain ⟨serialized, finished, hs, hf, hw⟩ := serialize_written h
    (.cons (stringKv_encodes h "type" type_noNul (ascii "fs")) <|
      .cons (int32Kv_encodes h "pte_num" pteNum_noNul pteNum) <|
      .cons (stringKv_encodes h "fs" fs_noNul (ascii "ext4")) <|
      .cons (stringKv_encodes h "mount_point" mountPoint_noNul lastMounted) <|
      .cons (int32Kv_encodes h "num_block_groups" numBlockGroups_noNul
        (ext4NumBlockGroups v.superblock)) <|
      .cons (int32Kv_encodes h "num_files" numFiles_noNul
        (u32 (info.sInodesCount - info.sFreeInodesCount - info.sFirstIno + 2))) <|
      .cons (int64Kv_encodes h "superblock_sector" superblockSector_noNul (superblockSector v)) <|
      .cons (int64Kv_encodes h "superblock_offset" superblockOffset_noNul (sectorSize * 2)) <|
      .cons (int64Kv_encodes h "block_size" blockSize_noNul (ext4BlockSize v.superblock)) <|
      .cons (int64Kv_encodes h "blocks_per_group" blocksPerGroup_noNul
        v.superblock.sBlocksPerGroup) <|
      .cons (int64Kv_encodes h "inodes_per_group" inodesPerGroup_noNul
        v.superblock.sInodesPerGroup) <|
      .cons (int64Kv_encodes h "inode_size" inodeSize_noNul info.sInodeSize) .nil)
    (fsDocument_le v info pteNum hnum hrange)
  rw [ext4SerializeFs, if_neg (not_or.mpr ⟨hgrouped, hsize⟩), Loop.bind_of_some hs,
    Loop.bind_of_some hf, hw]
  rfl

end Fs

/-! ## Block groups -/

def bgdRecord (v : Volume) (i : ℕ) : SectorRecord "sector" where
  fields := bgdElements v i
  sector e he hkey := by
    simp only [bgdElements, List.mem_cons, List.not_mem_nil, or_false] at he
    rcases he with rfl | rfl | rfl | rfl | rfl
    · exact ⟨bgdSector v i, Nat.mod_lt _ (Nat.two_pow_pos 32), rfl⟩
    all_goals exact other_key hkey (by decide)

theorem bgdDocument_eq (v : Volume) (i : ℕ) :
    bgdDocument v [] i = frame ((bgdRecord v i).document "bgd").body := by
  rw [bgdDocument, bgdBody, List.nil_append, ← Document.body_append]
  rfl

theorem record_len (v : Volume) (bits : Bitarray) (sectors : List ℕ) :
    (record v bits sectors).len = bits.len := by
  induction sectors generalizing bits with
  | nil => rfl
  | cons s sectors ih => exact (ih _).trans (bits.setBit_len _)

/-- The filter with the sectors of these groups. -/
def markGroups (v : Volume) (bits : Bitarray) (groups : List ℕ) : Bitarray :=
  groups.foldl (fun bits i => record v bits (bgdSector v i :: bgdSectors v (groupDescriptor v i)))
    bits

theorem markGroups_len (v : Volume) (bits : Bitarray) (groups : List ℕ) :
    (markGroups v bits groups).len = bits.len := by
  induction groups generalizing bits with
  | nil => rfl
  | cons i groups ih => exact (ih _).trans (record_len v bits _)

section Bits

variable {h : Heap} {fs : FileSystem h} {cache : Buffer}
  (hcache : ext4CacheBgds h fs.volume = some cache) {s : BgdState}

include hcache

theorem bgdStep_bits {r : BgdState ⊕ ℕ × Output}
    (hsector : s.i < fs.numGroups → bgdSector fs.volume s.i ≠ 0)
    (hstep : ext4SerializeBgdsStep h fs.volume fs.leftover cache s = some r) :
    if s.i < fs.numGroups then ∃ bson written,
      r = .inl ⟨(s.i + 1) % 2 ^ 32, bson, ⟨markGroups fs.volume s.out.bits [s.i], written⟩⟩
    else r = .inr (s.i, s.out) := by
  split
  · rename_i hi
    rw [ext4SerializeBgdsStep, Loop.bind_of_some (next_of_lt hcache hi)] at hstep
    dsimp only at hstep
    rw [if_neg (hsector hi)] at hstep
    obtain ⟨bson, -, hstep⟩ := Option.bind_eq_some_iff.mp hstep
    obtain ⟨finished, -, hstep⟩ := Option.bind_eq_some_iff.mp hstep
    exact ⟨_, _, (Option.some.inj hstep).symm⟩
  · rename_i hi
    exact Option.some.inj (hstep.symm.trans (step_done (Nat.le_of_not_lt hi)))

theorem serializeBgds_bits (hnum : fs.numGroups < 2 ^ 32)
    (hsector : ∀ k < fs.numGroups, bgdSector fs.volume k ≠ 0) {r : ℕ × Output}
    (hends : Loop.Ends (ext4SerializeBgdsStep h fs.volume fs.leftover cache) s r) :
    r.2.bits = markGroups fs.volume s.out.bits (List.range' s.i (fs.numGroups - s.i)) := by
  induction hends with
  | @leave s r hstep =>
    have hr := bgdStep_bits hcache (hsector s.i) hstep
    split at hr
    · obtain ⟨_, _, heq⟩ := hr
      cases heq
    · obtain rfl := Sum.inr.inj hr
      rw [Nat.sub_eq_zero_of_le (by omega)]
      rfl
  | @again s s' r hstep _ ih =>
    have hr := bgdStep_bits hcache (hsector s.i) hstep
    split at hr
    · rename_i hi
      obtain ⟨_, _, heq⟩ := hr
      obtain rfl := Sum.inl.inj heq
      dsimp only at ih
      rw [ih, Nat.mod_eq_of_lt (by omega),
        show fs.numGroups - s.i = fs.numGroups - (s.i + 1) + 1 by omega, List.range'_succ]
      rfl
    · cases hr

end Bits

/-! ## Nodes -/

/-- A field that the loader copies as it is. -/
def namedField (name : String) (hname : 0 ∉ ascii name ∧ ascii name ∉ reserved) (value : Value)
    (hvalue : Scalar value) : Loader.Field :=
  .scalar (keyNamed name hname.1) value hvalue hname.2

/-- The loader keeps the sector of an inode in 32 bits, and so its number. -/
structure Indexable (c : TreeCrawl) (x : List UInt8 × FsTree) : Prop where
  num : x.2.info.num < 2 ^ 32
  sector : c.inodeSector x.2.info.num x.2.info.table < 2 ^ 31

section Node

variable (c : TreeCrawl)

def headFields (path : List UInt8) (info : NodeInfo) (hnum : info.num < 2 ^ 32)
    (hsector : c.inodeSector info.num info.table < 2 ^ 31) : List Loader.Field :=
  [.inodeSector (c.inodeSector info.num info.table) hsector,
    namedField "inode_offset" (by decide)
      (int64Of (c.inodePlace info.num info.table % c.blockSize)) trivial,
    .inodeNum info.num hnum, .path path,
    namedField "is_dir" (by decide) (.boolean (info.inode.iMode &&& 0x4000 = 0x4000)) trivial,
    namedField "size" (by decide) (int64Of (ext4FileSize info.inode)) trivial,
    namedField "mode" (by decide) (int64Of info.inode.iMode) trivial,
    namedField "link_count" (by decide) (int64Of info.stat.iLinksCount) trivial,
    namedField "uid" (by decide) (int64Of info.stat.iUid) trivial,
    namedField "gid" (by decide) (int64Of info.stat.iGid) trivial,
    namedField "atime" (by decide) (int64Of info.stat.iAtime) trivial,
    namedField "mtime" (by decide) (int64Of info.stat.iMtime) trivial,
    namedField "ctime" (by decide) (int64Of info.stat.iCtime) trivial]

def sectorsField (info : NodeInfo) (n : ℕ) : Loader.Field :=
  .sectors ((List.range n).map fun b => (decKey b, info.sector c.volume b))

def extentsField : Loader.Field := .extents [] nofun

theorem sector_lt (v : Volume) (info : NodeInfo) (b : ℕ) : info.sector v b < 2 ^ 64 :=
  (Nat.div_le_self _ _).trans_lt (u64_lt _)

theorem dirSector_lt (v : Volume) (info : NodeInfo) (blocks : Blocks) (i : ℕ) :
    ∀ f ∈ blocks.files v info i, f.1 < 2 ^ 64 := by
  intro f hf
  match blocks with
  | .nil => cases hf
  | .cons slots rest =>
    rcases List.mem_append.mp hf with hf | hf
    · obtain ⟨g, -, rfl⟩ := List.mem_map.mp hf
      exact sector_lt v info i
    · exact dirSector_lt v info rest (i + 1) f hf

/-- The entries of a directory with the bytes that are kept of each. -/
def filesField (path : List UInt8) (info : NodeInfo) (blocks : Blocks) : Loader.Field :=
  .files ((blocks.files c.volume info 0).map fun f =>
    (f.1, c.subtype path, leBytes 8 f.2.1 ++ f.2.2))
    (List.forall_mem_map.mpr (dirSector_lt c.volume info blocks 0))

def linkField (info : NodeInfo) : Loader.Field :=
  namedField "link_name" (by decide)
    (.string (info.inode.iBlock.toList.take (ext4FileSize info.inode))) trivial

/-- The blocks for which the document of a node has a sector. -/
def listed : FsTree → ℕ
  | .leaf info => if info.IsLink then 0 else numBlocks c.volume info.inode
  | .directory info _ => numBlocks c.volume info.inode

/-- What a node has besides the fields that all of them have. -/
def ownFields (path : List UInt8) : FsTree → List Loader.Field × List Loader.Field
  | .leaf info => (if info.IsLink then [linkField info] else [], [])
  | .directory info blocks => ([], [filesField c path info blocks])

def nodeFields (x : List UInt8 × FsTree) (hx : Indexable c x) : List Loader.Field :=
  headFields c x.1 x.2.info hx.num hx.sector ++ (ownFields c x.1 x.2).1 ++
    [sectorsField c x.2.info (listed c x.2), extentsField] ++ (ownFields c x.1 x.2).2

theorem sectorsField_element (info : NodeInfo) (n : ℕ) :
    (sectorsField c info n).element = sectorsElement c.volume info n := by
  rw [sectorsElement, Loader.Field.element, sectorsField, Loader.Field.value, List.map_map]
  rfl

theorem filesField_element (path : List UInt8) (info : NodeInfo) (blocks : Blocks) :
    (filesField c path info blocks).element =
      filesElement (c.subtype path) (blocks.files c.volume info 0) := by
  rw [filesElement, Loader.Field.element, filesField, Loader.Field.value, List.map_map]
  rfl

theorem nodeElements_eq (x : List UInt8 × FsTree) (hx : Indexable c x) :
    nodeElements c x.1 x.2 = (keyNamed "type" type_noNul, .string (ascii "file")) ::
      (nodeFields c x hx).map Loader.Field.element := by
  obtain ⟨path, info | ⟨info, blocks⟩⟩ := x
  · by_cases hlink : info.IsLink
    · simp only [nodeElements, nodeFields, ownFields, listed, if_pos hlink, List.map_append,
        List.map_cons, sectorsField_element]
      rfl
    · simp only [nodeElements, nodeFields, ownFields, listed, if_neg hlink, List.map_append,
        List.map_cons, sectorsField_element]
      rfl
  · simp only [nodeElements, nodeFields, ownFields, listed, List.map_append, List.map_cons,
      sectorsField_element, filesField_element]
    rfl

def headKeys : List String :=
  ["inode_sector", "inode_offset", "inode_num", "path", "is_dir", "size", "mode", "link_count",
    "uid", "gid", "atime", "mtime", "ctime"]

/-- The keys of a link, a file and a directory. -/
def nodeKeys : List (List (List UInt8)) :=
  [headKeys ++ ["link_name", "sectors", "extents"], headKeys ++ ["sectors", "extents"],
    headKeys ++ ["sectors", "extents", "files"]].map (List.map ascii)

theorem nodeKeys_distinct : ∀ l ∈ nodeKeys, l.Nodup ∧ ascii "type" ∉ l := by decide +kernel

theorem nodeFields_keys (x : List UInt8 × FsTree) (hx : Indexable c x) :
    ((nodeFields c x hx).map fun f => f.key.bytes) ∈ nodeKeys := by
  obtain ⟨path, info | ⟨info, blocks⟩⟩ := x
  · by_cases hlink : info.IsLink
    · simp only [nodeFields, ownFields, if_pos hlink]
      exact List.mem_cons_self
    · simp only [nodeFields, ownFields, if_neg hlink]
      exact List.mem_cons_of_mem _ List.mem_cons_self
  · exact List.mem_cons_of_mem _ (List.mem_cons_of_mem _ List.mem_cons_self)

theorem path_mem_nodeFields (x : List UInt8 × FsTree) (hx : Indexable c x) :
    .path x.1 ∈ nodeFields c x hx := by
  simp [nodeFields, headFields]

def nodeRecord (x : List UInt8 × FsTree) (hx : Indexable c x) : FileRecord where
  fields := nodeFields c x hx
  distinct := (nodeKeys_distinct _ (nodeFields_keys c x hx)).1
  noType f hf := by
    have hmem : f.key.bytes ∈ (nodeFields c x hx).map fun f => f.key.bytes :=
      List.mem_map_of_mem hf
    exact ne_of_mem_of_not_mem hmem (nodeKeys_distinct _ (nodeFields_keys c x hx)).2
  path := x.1
  hasPath := path_mem_nodeFields c x hx

theorem nodeDocument_eq (x : List UInt8 × FsTree) (hx : Indexable c x) :
    nodeDocument c x = frame (nodeRecord c x hx).document.body := by
  rw [nodeDocument, nodeElements_eq c x hx]
  rfl

theorem nodeRecord_sectors (x : List UInt8 × FsTree) (hx : Indexable c x) :
    (nodeRecord c x hx).sectors =
      (List.range (listed c x.2)).map fun b => i32 (x.2.info.sector c.volume b) := by
  refine Loader.asSectors_of_mem (f := sectorsField c x.2.info (listed c x.2)) ?_ ?_
  · simp [nodeRecord, nodeFields]
  · rw [sectorsField, Loader.Field.asSectors, List.map_map]
    rfl

theorem size_mem_scalars (x : List UInt8 × FsTree) (hx : Indexable c x) :
    (ascii "size", leBytes 8 (ext4FileSize x.2.info.inode)) ∈ (nodeRecord c x hx).scalars := by
  refine List.mem_filterMap.mpr ⟨namedField "size" (by decide)
    (int64Of (ext4FileSize x.2.info.inode)) trivial, ?_, rfl⟩
  simp [nodeRecord, nodeFields, headFields]

end Node

end GammaRay.Crawler
