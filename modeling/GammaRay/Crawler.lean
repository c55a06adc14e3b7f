import GammaRay.InodeCache
import GammaRay.Mbr
import GammaRay.MetadataFilter

set_option autoImplicit false

/-!
# The crawler

`main` of `gray-crawler.c` with the partition table of an MBR and any table of crawlers for file
systems, and the crawler for ext4. Outcomes the source leaves undefined are left out: a division by
zero, and every use of a partition table entry that has been freed.
-/
namespace GammaRay.Crawler
open Bytes Bson Ext4 Mbr
open KvStore (ascii)

/-! ## The partition table -/

/-- An entry of the table that begins here. -/
def entryAt (disk : Disk) (place : ℕ) : PartitionTableEntry where
  partitionType := diskField disk (place + 4) 1
  firstSectorLba := diskField disk (place + 8) 4
  sectorCount := diskField disk (place + 12) 4
  type_lt := diskField_lt disk (place + 4) 1
  first_lt := diskField_lt disk (place + 8) 4
  count_lt := diskField_lt disk (place + 12) 4

def mbrProbe (disk : Disk) : Option (Vector PartitionTableEntry 4) :=
  if disk.size < 512 then none
  else if disk.byte 510 ≠ 0x55 ∨ disk.byte 511 ≠ 0xaa then none
  else some (Vector.ofFn fun k => entryAt disk (446 + 16 * k))

def mbrSerializePt (h : Heap) (pt : Vector PartitionTableEntry 4) (out : Output) :
    Option Output := do
  let serialized ← serializeAll h (bsonInit h)
    [stringKv "type" (ascii "mbr"), booleanKv "gpt" (pt[0].partitionType = 0xee),
      int32Kv "sector" 0]
  let serialized ← bsonFinalize h serialized
  some (Output.write { out with bits := out.bits.setBit 0 } serialized)

/-! ## Ext4 -/

/-- `struct ext4_superblock`, as far as the crawler looks at it. -/
structure SuperblockInfo where
  superblock : Superblock
  sInodesCount : ℕ
  sFreeInodesCount : ℕ
  sFirstIno : ℕ
  sInodeSize : ℕ

def superblockOn (disk : Disk) (place : ℕ) : SuperblockInfo where
  superblock := ⟨diskField disk (place + 24) 4, diskField disk (place + 4) 4,
    diskField disk (place + 336) 4, diskField disk (place + 20) 4, diskField disk (place + 32) 4,
    diskField disk (place + 40) 4⟩
  sInodesCount := diskField disk place 4
  sFreeInodesCount := diskField disk (place + 16) 4
  sFirstIno := diskField disk (place + 84) 4
  sInodeSize := diskField disk (place + 88) 2

/-- The superblock, if it has the magic number and features that ext3 does not have. -/
def ext4Probe (disk : Disk) (ptOff : ℤ) : Option SuperblockInfo :=
  let place := (ptOff + 1024).toNat
  if ptOff = 0 ∨ ptOff + 1024 < 0 ∨ disk.size < place + 1024 then none
  else if diskField disk (place + 56) 2 ≠ 0xef53 ∨
      diskField disk (place + 100) 4 &&& 0xfffffff8 = 0 ∨
      diskField disk (place + 96) 4 &&& 0xffffffe9 = 0 then none
  else some (superblockOn disk place)

/-- The offset is one of the partition, and so are the sector and the bit. -/
def ext4SerializeFs (h : Heap) (v : Volume) (info : SuperblockInfo) (pteNum : ℕ)
    (mountPoint : List UInt8) (out : Output) : Option Output :=
  let blockSize := ext4BlockSize v.superblock
  if v.superblock.sBlocksPerGroup = 0 ∨ blockSize = 0 then none
  else do
    let serialized ← serializeAll h (bsonInit h)
      [stringKv "type" (ascii "fs"), int32Kv "pte_num" pteNum, stringKv "fs" (ascii "ext4"),
        stringKv "mount_point" mountPoint,
        int32Kv "num_block_groups" (ext4NumBlockGroups v.superblock),
        int32Kv "num_files" (u32 (info.sInodesCount - info.sFreeInodesCount - info.sFirstIno + 2)),
        int64Kv "superblock_sector" (superblockSector v),
        int64Kv "superblock_offset" (sectorSize * 2), int64Kv "block_size" blockSize,
        int64Kv "blocks_per_group" v.superblock.sBlocksPerGroup,
        int64Kv "inodes_per_group" v.superblock.sInodesPerGroup,
        int64Kv "inode_size" info.sInodeSize]
    let serialized ← bsonFinalize h serialized
    some (Output.write
      { out with bits := out.bits.setBit (superblockSector v / blockSize) } serialized)

/-- The copy of a path in `strlen(mount) + 1` bytes. The terminator is put behind them, so that the
last byte is the one that `malloc` has left there. -/
def rootPath (h : Heap) (mount : List UInt8) : List UInt8 :=
  mount ++ ((h.malloc (mount.length + 1)).drop mount.length).takeWhile (· ≠ 0)

def SerializeFrom (c : TreeCrawl) (inodeNum : ℕ) (mount : List UInt8) (out out' : Output) : Prop :=
  ∃ node bson, ext4ReadInodeSerialized c inodeNum (bsonInit c.heap) = some (node, bson) ∧
    Ext4SerializeTree c node (rootPath c.heap mount) bson out out'

def Ext4SerializeFsTree (c : TreeCrawl) : List UInt8 → Output → Output → Prop := SerializeFrom c 2

def Ext4SerializeJournal (c : TreeCrawl) : List UInt8 → Output → Output → Prop := SerializeFrom c 8

/-- What the stack holds where variables are not set. -/
structure Leftovers where
  vBgd : Leftover
  dentry : List UInt8 → UInt8

/-- The path that `main` puts in the place of the last mount point. -/
def lastMounted : List UInt8 := [47]

/-- `ext4_serialize`, with the counter of `ext4_next_block_group_descriptor`. -/
def Ext4Serialize (h : Heap) (left : Leftovers) (disk : Disk) (ptOff : ℤ) (pteNum : ℕ)
    (info : SuperblockInfo) (s : ℕ × Output) (r : Bool × ℕ × Output) : Prop :=
  let v : Volume := ⟨disk, ptOff, info.superblock⟩
  ∃ out bcache ok icache, ext4SerializeFs h v info pteNum lastMounted s.2 = some out ∧
    ext4CacheBgds h v = some bcache ∧
    ext4CacheInodes v info.sInodeSize h bcache = some (ok, icache) ∧
    if ok then
      let c : TreeCrawl := ⟨h, v, info.sInodeSize, icache, bcache, left.dentry⟩
      ∃ i out₁ out₂ out₃, Ext4SerializeBgds h v left.vBgd bcache s.1 out (i, out₁) ∧
        Ext4SerializeFsTree c lastMounted out₁ out₂ ∧
        Ext4SerializeJournal c (ascii "journal") out₂ out₃ ∧ r = (true, i, out₃)
    else r = (false, s.1, out)

/-! ## The main program -/

/-- `struct gray_fs_crawler`. A crawler that recognises a file system has what it needs of it; it
has static variables, and returns `true` for success. -/
structure FsCrawler (σ : Type) where
  Info : Type
  probe : Disk → ℤ → Option Info
  Serialize : Disk → ℤ → ℕ → Info → σ × Output → Bool × σ × Output → Prop

def ext4Crawler (h : Heap) (left : Leftovers) : FsCrawler ℕ where
  Info := SuperblockInfo
  probe := ext4Probe
  Serialize := Ext4Serialize h left

section Main

variable {σ : Type} (h : Heap) (disk : Disk)

/-- The loop over the crawlers. The entry of the partition table is freed behind every one of
them; `live` says that it has not been freed yet. -/
inductive Attempts (pte : Pte) :
    List (FsCrawler σ) → Bool → σ × Output → Bool × σ × Output → Prop where
  | exhausted {live : Bool} {s : σ × Output} : Attempts pte [] live s (true, s)
  | missed {c : FsCrawler σ} {rest : List (FsCrawler σ)} {s : σ × Output} {r : Bool × σ × Output}
      (probe : c.probe disk pte.ptOff = none) (next : Attempts pte rest false s r) :
      Attempts pte (c :: rest) true s r
  | found {c : FsCrawler σ} {rest : List (FsCrawler σ)} {s : σ × Output} {r : Bool × σ × Output}
      {info : c.Info} {finished : BsonInfo} (probe : c.probe disk pte.ptOff = some info)
      (entry : mbrSerializePte h pte = some finished)
      (serialize : c.Serialize disk pte.ptOff pte.ptNum info (s.1, s.2.write finished) r) :
      Attempts pte (c :: rest) true s r

/-- The loop over the partitions, from an entry of the table on. -/
inductive Partitions (crawlers : List (FsCrawler σ)) (pt : Vector PartitionTableEntry 4) :
    ℕ → σ × Output → Bool × σ × Output → Prop where
  | done {k : ℕ} {s : σ × Output} (none : mbrGetNextPartition pt k = none) :
      Partitions crawlers pt k s (true, s)
  | skipped {k k' : ℕ} {pte : Pte} {s : σ × Output} {r : Bool × σ × Output}
      (next : mbrGetNextPartition pt k = some (pte, k')) (empty : pte.ptOff ≤ 0)
      (rest : Partitions crawlers pt k' s r) : Partitions crawlers pt k s r
  | crawled {k k' : ℕ} {pte : Pte} {s s' : σ × Output} {r : Bool × σ × Output}
      (next : mbrGetNextPartition pt k = some (pte, k')) (used : 0 < pte.ptOff)
      (attempts : Attempts h disk pte crawlers true s (true, s'))
      (rest : Partitions crawlers pt k' s' r) : Partitions crawlers pt k s r
  | failed {k k' : ℕ} {pte : Pte} {s s' : σ × Output}
      (next : mbrGetNextPartition pt k = some (pte, k')) (used : 0 < pte.ptOff)
      (attempts : Attempts h disk pte crawlers true s (false, s')) :
      Partitions crawlers pt k s (false, s')

/-- From the open files on: whether the program exits with success, and what it leaves in the
index file. -/
def Crawl (crawlers : List (FsCrawler σ)) (s : σ) (subtype : UInt8) (success : Bool)
    (file : List UInt8) : Prop :=
  (mbrProbe disk).elim (success = false ∧ file = []) fun pt =>
    ∃ out s', mbrSerializePt h pt ⟨Bitarray.init h (disk.size / 4096), []⟩ = some out ∧
      Partitions h disk crawlers pt 0 (s, out) (success, s') ∧
      if success then
        ∃ ret, s'.2.bits.serialize h subtype s'.2.written.flatten = some (ret, file)
      else file = s'.2.written.flatten

/-! ## The table of crawlers -/

variable {h disk} {pte : Pte} {first second : FsCrawler σ} {rest : List (FsCrawler σ)}
  {s s' : σ × Output} {r : Bool × σ × Output}

/-- The second crawler would be tried with an entry that has been freed. -/
theorem attempts_two_iff : Attempts h disk pte (first :: second :: rest) true s r ↔
    Attempts h disk pte [first] true s r ∧ (first.probe disk pte.ptOff).isSome := by
  constructor
  · intro ha
    cases ha with
    | missed probe next => cases next
    | found probe entry serialize =>
      exact ⟨.found probe entry serialize, Option.isSome_iff_exists.mpr ⟨_, probe⟩⟩
  · rintro ⟨ha, hsome⟩
    cases ha with
    | missed probe next =>
      rw [probe] at hsome
      cases hsome
    | found probe entry serialize => exact .found probe entry serialize

variable (first disk) in
/-- The first crawler recognises what the entries from this one on lead to. -/
def Recognised (pt : Vector PartitionTableEntry 4) (k : ℕ) : Prop :=
  ∀ j pte j', k ≤ j → mbrGetNextPartition pt j = some (pte, j') → 0 < pte.ptOff →
    (first.probe disk pte.ptOff).isSome

variable {pt : Vector PartitionTableEntry 4} {k k' : ℕ}

theorem next_eq (h : mbrGetNextPartition pt k = some (pte, k')) : k' = k + 1 := by
  obtain ⟨entry, -, heq⟩ := Option.map_eq_some_iff.mp h
  exact (Prod.mk.inj heq).2.symm

theorem recognised_done (h : mbrGetNextPartition pt k = none) : Recognised disk first pt k := by
  intro j pte j' hj hnext
  rw [mbrGetNextPartition, Option.map_eq_none_iff, Vector.getElem?_eq_none_iff] at h
  obtain ⟨entry, hentry, -⟩ := Option.map_eq_some_iff.mp hnext
  obtain ⟨hlt, -⟩ := Vector.getElem?_eq_some_iff.mp hentry
  omega

theorem recognised_next (h : mbrGetNextPartition pt k = some (pte, k')) :
    Recognised disk first pt k ↔
      (0 < pte.ptOff → (first.probe disk pte.ptOff).isSome) ∧ Recognised disk first pt k' := by
  obtain rfl := next_eq h
  constructor
  · intro hall
    exact ⟨hall k pte _ le_rfl h, fun j pte j' hj => hall j pte j' (by omega)⟩
  · rintro ⟨hpte, hall⟩ j pte' j' hj hnext hpos
    rcases Nat.eq_or_lt_of_le hj with rfl | hlt
    · obtain ⟨rfl, -⟩ := Prod.mk.inj (Option.some.inj (h.symm.trans hnext))
      exact hpte hpos
    · exact hall j pte' j' hlt hnext hpos

theorem partitions_two_iff : Partitions h disk (first :: second :: rest) pt k s (true, s') ↔
    Partitions h disk [first] pt k s (true, s') ∧ Recognised disk first pt k := by
  constructor
  · intro hp
    generalize hr : (true, s') = r at hp
    induction hp with
    | done none => exact ⟨.done none, recognised_done none⟩
    | skipped next empty rest ih =>
      obtain ⟨hp, hrest⟩ := ih hr
      exact ⟨.skipped next empty hp,
        (recognised_next next).mpr ⟨fun hpos => absurd empty (by omega), hrest⟩⟩
    | crawled next used attempts rest ih =>
      obtain ⟨hp, hrest⟩ := ih hr
      obtain ⟨ha, hsome⟩ := attempts_two_iff.mp attempts
      exact ⟨.crawled next used ha hp, (recognised_next next).mpr ⟨fun _ => hsome, hrest⟩⟩
    | failed next used attempts => cases hr
  · rintro ⟨hp, hall⟩
    generalize hr : (true, s') = r at hp
    induction hp with
    | done none => exact .done none
    | skipped next empty rest ih =>
      exact .skipped next empty (ih ((recognised_next next).mp hall).2 hr)
    | crawled next used attempts rest ih =>
      obtain ⟨hsome, hrest⟩ := (recognised_next next).mp hall
      exact .crawled next used (attempts_two_iff.mpr ⟨attempts, hsome used⟩) (ih hrest hr)
    | failed next used attempts => cases hr

end Main

end GammaRay.Crawler
