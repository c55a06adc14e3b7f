import GammaRay.CrawlRecords

set_option autoImplicit false

/-!
# From a disk to a running system

A disk with one ext4 file system. The crawler writes its index, the inferencer loads it, and every
block of a file that is nothing else besides is then known under the path of the file.
-/
namespace GammaRay.Crawler
open Bytes Bson Ext4 Mbr
open KvStore (ascii redisInit)
open Redis (Db)
open Loader (int32Of SuperInfo Entry CrawlIndex FileRecord)

/-! ## Disks -/

/-- A disk with one entry of its partition table in use, and a superblock where it leads. -/
structure OnePartition where
  disk : Disk
  pt : Vector PartitionTableEntry 4
  probed : mbrProbe disk = some pt
  used : 0 < (firstEntry pt).firstSectorLba
  low : (firstEntry pt).firstSectorLba < 2 ^ 23
  others : ∀ k entry, pt[k]? = some entry → 0 < k → entry.firstSectorLba * 512 % 2 ^ 32 = 0
  info : SuperblockInfo
  found : ext4Probe disk ((firstEntry pt).firstSectorLba * 512 : ℕ) = some info

def OnePartition.start (d : OnePartition) : ℕ := (firstEntry d.pt).firstSectorLba

def OnePartition.volume (d : OnePartition) : Volume :=
  ⟨d.disk, (d.start * 512 : ℕ), d.info.superblock⟩

/-- The descriptors and the inode tables of the file system can be read. -/
structure CachedVolume (h : Heap) extends OnePartition where
  grouped : 0 < info.superblock.sBlocksPerGroup
  blockSize : info.superblock.sLogBlockSize ≤ 19
  onDisk : OnDisk toOnePartition.volume
  groups_lt : ext4NumBlockGroups info.superblock < 2 ^ 32
  groups : ∀ k < ext4NumBlockGroups info.superblock, bgdSector toOnePartition.volume k ≠ 0
  bcache : Buffer
  icache : Buffer
  bcached : ext4CacheBgds h toOnePartition.volume = some bcache
  icached : ext4CacheInodes toOnePartition.volume info.sInodeSize h bcache = some (true, icache)

def CachedVolume.crawl {h : Heap} (d : CachedVolume h) (left : Leftovers) : TreeCrawl :=
  ⟨h, d.volume, d.info.sInodeSize, d.icache, d.bcache, left.dentry⟩

/-- The disk holds a root directory and a journal, whose documents have room. The paths of the two
end where they should, which is up to `malloc`, and `v_bgd` adds nothing to a document. -/
structure CrawledDisk (h : Heap) (left : Leftovers) extends CachedVolume h where
  leftover : left.vBgd = .unknown
  root : FsTree
  journal : FsTree
  rootNum : root.info.num = 2
  journalNum : journal.info.num = 8
  rootStored : root.Stored (toCachedVolume.crawl left)
  journalStored : journal.Stored (toCachedVolume.crawl left)
  rootPath_eq : rootPath h lastMounted = lastMounted
  journalPath_eq : rootPath h (ascii "journal") = ascii "journal"
  fits : ∀ x ∈ root.nodes extendPath lastMounted ++ journal.nodes extendPath (ascii "journal"),
    Fits (toCachedVolume.crawl left) x
  indexable : ∀ x ∈ root.nodes extendPath lastMounted ++
    journal.nodes extendPath (ascii "journal"), Indexable (toCachedVolume.crawl left) x
  size_ge : 2 ^ 15 ≤ disk.size
  size_lt : disk.size < 2 ^ 44

section Outcome

variable {h : Heap} {left : Leftovers} {disk : Disk}

theorem SerializeFrom.unique {c : TreeCrawl} {n : ℕ} {mount : List UInt8} {out r r' : Output}
    (hs : SerializeFrom c n mount out r) (hs' : SerializeFrom c n mount out r') : r = r' := by
  obtain ⟨node, bson, hread, htree⟩ := hs
  obtain ⟨node', bson', hread', htree'⟩ := hs'
  obtain ⟨rfl, rfl⟩ := Prod.mk.inj (Option.some.inj (hread.symm.trans hread'))
  exact htree.unique htree'

theorem Ext4Serialize.unique {ptOff : ℤ} {pteNum : ℕ} {info : SuperblockInfo} {s : ℕ × Output}
    {r r' : Bool × ℕ × Output} (hs : Ext4Serialize h left disk ptOff pteNum info s r)
    (hs' : Ext4Serialize h left disk ptOff pteNum info s r') : r = r' := by
  obtain ⟨out, bcache, ok, icache, hfs, hbgds, hinodes, hrest⟩ := hs
  obtain ⟨out', bcache', ok', icache', hfs', hbgds', hinodes', hrest'⟩ := hs'
  obtain rfl := Option.some.inj (hfs.symm.trans hfs')
  obtain rfl := Option.some.inj (hbgds.symm.trans hbgds')
  obtain ⟨rfl, rfl⟩ := Prod.mk.inj (Option.some.inj (hinodes.symm.trans hinodes'))
  cases ok with
  | false =>
    rw [if_neg Bool.false_ne_true] at hrest hrest'
    rw [hrest, hrest']
  | true =>
    rw [if_pos rfl] at hrest hrest'
    obtain ⟨i, out₁, out₂, out₃, hgroups, htree, hjournal, rfl⟩ := hrest
    obtain ⟨i', out₁', out₂', out₃', hgroups', htree', hjournal', rfl⟩ := hrest'
    obtain ⟨rfl, rfl⟩ := Prod.mk.inj (hgroups.unique hgroups')
    obtain rfl := SerializeFrom.unique htree htree'
    rw [SerializeFrom.unique hjournal hjournal']

/-- With a crawler that recognises the file system there is nothing to choose. -/
theorem Attempts.unique_of_found {σ : Type} {pte : Pte} {c : FsCrawler σ}
    {rest : List (FsCrawler σ)} {s : σ × Output} {r r' : Bool × σ × Output} {info : c.Info}
    (hprobe : c.probe disk pte.ptOff = some info)
    (hunique : ∀ s r r', c.Serialize disk pte.ptOff pte.ptNum info s r →
      c.Serialize disk pte.ptOff pte.ptNum info s r' → r = r')
    (ha : Attempts h disk pte (c :: rest) true s r)
    (ha' : Attempts h disk pte (c :: rest) true s r') : r = r' := by
  cases ha with
  | missed probe _ => cases probe.symm.trans hprobe
  | found probe entry serialize =>
    obtain rfl := Option.some.inj (probe.symm.trans hprobe)
    cases ha' with
    | missed probe' _ => cases probe'.symm.trans hprobe
    | found probe' entry' serialize' =>
      obtain rfl := Option.some.inj (probe'.symm.trans hprobe)
      obtain rfl := Option.some.inj (entry.symm.trans entry')
      exact hunique _ _ _ serialize serialize'

end Outcome

section Range

theorem probe_info {disk : Disk} {ptOff : ℤ} {info : SuperblockInfo}
    (hprobe : ext4Probe disk ptOff = some info) : ∃ place, info = superblockOn disk place := by
  rw [ext4Probe] at hprobe
  split at hprobe
  · cases hprobe
  · split at hprobe
    · cases hprobe
    · exact ⟨_, (Option.some.inj hprobe).symm⟩

theorem blockSize_range {v : Volume} (hlog : v.superblock.sLogBlockSize ≤ 19) :
    0 < ext4BlockSize v.superblock ∧ ext4BlockSize v.superblock < 2 ^ 64 := by
  obtain ⟨heq, hle⟩ := ext4BlockSize_of_le hlog
  have hpos := Nat.two_pow_pos (v.superblock.sLogBlockSize + 1)
  omega

theorem superInfo_range {v : Volume} {info : SuperblockInfo} {place : ℕ}
    (hlog : v.superblock.sLogBlockSize ≤ 19) (hv : v.superblock = info.superblock)
    (hinfo : info = superblockOn v.disk place) :
    ∀ f ∈ (superInfo v info).fields, f.2 < 2 ^ 64 := by
  have hfour : ∀ p, diskField v.disk p 4 < 2 ^ 32 := fun p => diskField_lt v.disk p 4
  have hbpg : v.superblock.sBlocksPerGroup < 2 ^ 32 := by
    rw [hv, hinfo]
    exact hfour _
  have hipg : v.superblock.sInodesPerGroup < 2 ^ 32 := by
    rw [hv, hinfo]
    exact hfour _
  have hsize : info.sInodeSize < 2 ^ 16 := by
    rw [hinfo]
    exact diskField_lt v.disk _ 2
  have hsector : superblockSector v < 2 ^ 64 := u64_lt _
  have hblock := (blockSize_range hlog).2
  simp only [SuperInfo.fields, superInfo, List.forall_mem_cons, List.not_mem_nil, false_imp_iff,
    implies_true, and_true]
  exact ⟨hsector, by decide, hblock, by omega, by omega, by omega⟩

end Range

/-! ## The index of a disk -/

theorem noJunk_room : ([] : List UInt8).length + 256 ≤ maxSize := by decide

theorem firstNum_lt : 0 < 2 ^ 32 := Nat.two_pow_pos 32

theorem start_described (pt : Vector PartitionTableEntry 4) (v : Volume) (info : SuperblockInfo)
    (mountPoint : List UInt8) (e : Bson.Key × Value)
    (he : e ∈ partitionFields (firstEntry pt) ++ fsFields v info mountPoint)
    (hkey : e.1.bytes = ascii "first_sector_lba") :
    e.2 = int32Of (firstEntry pt).firstSectorLba := by
  simp only [partitionFields, fsFields, List.cons_append, List.nil_append, List.mem_cons,
    List.not_mem_nil, or_false] at he
  rcases he with rfl | rfl | rfl | rfl | rfl | rfl | rfl | rfl | rfl | rfl | rfl | rfl | rfl
  case inr.inl => rfl
  all_goals exact other_key hkey (by decide)

theorem entries_frames (x : CrawlIndex) : (x.entries.map fun e => frame e.document.body) =
    [frame (x.mbr.document "mbr").body,
      frame (Entry.partition x.fs.pteNum x.fs.pteNum_lt x.partition).document.body,
      frame x.fs.document.body] ++ (x.bgds.map fun r => frame (r.document "bgd").body) ++
      (x.files.map fun r => frame r.document.body) ++
      [frame (filterDocument x.subtype x.filter).body] := by
  rw [CrawlIndex.entries, CrawlIndex.front, List.map_append, List.map_append, List.map_append,
    List.map_map, List.map_map]
  rfl

namespace CrawledDisk

variable {h : Heap} {left : Leftovers} (d : CrawledDisk h left)

include d in
theorem survives (b : BsonInfo) (hb : Holds b (Document.ofElements [bgdType]).body) :
    ∃ b', serializeLeftover h b left.vBgd = some b' ∧
      Holds b' ((Document.ofElements [bgdType]).body ++ []) := by
  obtain ⟨b', hc, hb', -⟩ := checkSize_holds h (n := 1) hb (by decide)
  rw [d.leftover, List.append_nil]
  exact ⟨b', hc, hb'⟩

def fs : FileSystem h where
  volume := d.volume
  leftover := left.vBgd
  junk := []
  survives := d.survives
  room := noJunk_room
  grouped := d.grouped
  blockSize := d.blockSize
  offset := d.onDisk.offset
  table := d.onDisk.table
  size := d.onDisk.size

def nodes : List (List UInt8 × FsTree) :=
  d.root.nodes extendPath lastMounted ++ d.journal.nodes extendPath (ascii "journal")

theorem range : ∀ f ∈ (superInfo d.volume d.info).fields, f.2 < 2 ^ 64 := by
  obtain ⟨place, hinfo⟩ := probe_info d.found
  exact superInfo_range (v := d.volume) d.blockSize rfl hinfo

/-- The filter at the end of the crawl. -/
def bits : Bitarray :=
  markGroups d.volume (((Bitarray.init h (d.disk.size / 4096)).setBit 0).setBit
    (superblockSector d.volume / ext4BlockSize d.volume.superblock)) (List.range d.fs.numGroups)

/-- What the crawler makes of the disk. -/
def index (subtype : UInt8) : CrawlIndex where
  mbr := mbrRecord d.pt
  partition := partitionRecord (firstEntry d.pt)
  fs := fsEntry d.volume d.info lastMounted 0 firstNum_lt d.range
  start := (firstEntry d.pt).firstSectorLba
  start_lt := (firstEntry d.pt).first_lt
  starts := ⟨_, List.mem_cons_of_mem _ List.mem_cons_self, rfl⟩
  start_eq := start_described d.pt d.volume d.info lastMounted
  bgds := (List.range d.fs.numGroups).map (bgdRecord d.volume)
  files := d.nodes.pmap (nodeRecord (d.crawl left)) d.indexable
  subtype := subtype
  filter := d.bits.array

/-! ## The crawl -/

theorem bits_len : ∃ k, 3 ≤ k ∧ k < 32 ∧ d.bits.len = 2 ^ k := by
  have hge := d.size_ge
  have hlt := d.size_lt
  have hpos : d.disk.size / 4096 ≠ 0 := by omega
  refine ⟨Nat.log 2 (d.disk.size / 4096), ?_, ?_, ?_⟩
  · exact Nat.le_log_of_pow_le (by decide) (by omega)
  · exact Nat.log_lt_of_lt_pow hpos (by omega)
  · rw [bits, markGroups_len, Bitarray.setBit_len, Bitarray.setBit_len,
      ← highestSetBit64_eq_log hpos (by omega)]
    rfl

theorem serialize_file (bits : Bitarray) (subtype : UInt8) (file : List UInt8) :
    bits.serialize h subtype file =
      (bits.serialize h subtype []).map fun r => (r.1, file ++ r.2) := by
  unfold Bitarray.serialize
  split
  · simp
  · simp [Option.map_bind, bsonWritef]

/-- The bytes of the filter, all of which are written. -/
theorem bits_array : d.bits.len ≠ 0 ∧ d.bits.len / 8 = d.bits.array.length ∧
    d.bits.array.length ≤ 2 ^ 28 := by
  obtain ⟨k, hk, hlt, hlen⟩ := d.bits_len
  obtain ⟨j, rfl⟩ := Nat.exists_eq_add_of_le hk
  have hpow : 2 ^ (3 + j) = 8 * 2 ^ j := Nat.pow_add ..
  have hle : 2 ^ j ≤ 2 ^ 28 := Nat.pow_le_pow_right (by decide) (by omega)
  have hpos := Nat.two_pow_pos j
  have hcovers := d.bits.covers
  omega

theorem filter_written (subtype : UInt8) (file : List UInt8) :
    d.bits.serialize h subtype file =
      some (true, file ++ frame (filterDocument subtype d.bits.array).body) := by
  obtain ⟨hpos, heighth, hle⟩ := d.bits_array
  have hi32 : i32 ((d.bits.len / 8 : ℕ) : ℤ) = d.bits.array.length := by
    rw [heighth]
    exact i32_of_range (by omega) (by omega)
  have hmax : maxSize = 2 ^ 30 := rfl
  have hwritten : d.bits.serialize h subtype [] =
      some (true, frame (filterDocument subtype d.bits.array).body) :=
    serialize_document hpos (fun b => by rw [bitarrayKv, hi32]) (by omega)
  rw [serialize_file, hwritten]
  rfl

theorem next_first : mbrGetNextPartition d.pt 0 =
    some (⟨0, (d.start * 512 : ℕ), firstEntry d.pt⟩, 1) := by
  have hlow := d.low
  have hoff : ((firstEntry d.pt).firstSectorLba : ℤ) * 512 % 2 ^ 32 =
      (((firstEntry d.pt).firstSectorLba * 512 : ℕ) : ℤ) := by omega
  have hget : d.pt[0]? = some (firstEntry d.pt) := rfl
  rw [mbrGetNextPartition, hget, Option.map_some, hoff]
  rfl

theorem start_pos : 0 < ((d.start * 512 : ℕ) : ℤ) := by
  have hpos := d.used
  unfold OnePartition.start
  omega

theorem rest_skipped {σ : Type} (crawlers : List (FsCrawler σ)) (s : σ × Output) (n k : ℕ)
    (hn : 4 - k = n) (hk : 0 < k) : Partitions h d.disk crawlers d.pt k s (true, s) := by
  induction n generalizing k with
  | zero =>
    refine .done ?_
    rw [mbrGetNextPartition, Vector.getElem?_eq_none (by omega)]
    rfl
  | succ n ih =>
    obtain ⟨entry, hget⟩ : ∃ entry, d.pt[k]? = some entry :=
      ⟨_, Vector.getElem?_eq_getElem (by omega)⟩
    have hzero := d.others k entry hget hk
    refine .skipped (congrArg (Option.map _) hget) ?_ (ih (k + 1) (by omega) (by omega))
    dsimp only
    omega

theorem tree_written {t : FsTree} (ht : t.Stored (d.crawl left)) {mount : List UInt8}
    (hmount : rootPath h mount = mount) (hextend : Extendable mount)
    (hfits : ∀ x ∈ t.nodes extendPath mount, Fits (d.crawl left) x) (out : Output) :
    SerializeFrom (d.crawl left) t.info.num mount out
      ⟨out.bits, out.written ++ (t.nodes extendPath mount).map (nodeDocument (d.crawl left))⟩ := by
  rw [← t.nodes_crawlPath hextend] at hfits ⊢
  obtain ⟨bson, hread, hrun⟩ := crawl_runs (c := d.crawl left)
    (blockSize_range (v := d.volume) d.blockSize).1 ht mount hfits out.bits out.written
  refine ⟨t.info.node, bson, hread, ?_⟩
  rw [show rootPath (d.crawl left).heap mount = mount from hmount]
  exact hrun

theorem groups_written (out : Output) : ∃ i, Ext4SerializeBgds h d.volume left.vBgd d.bcache 0 out
    (i, ⟨markGroups d.volume out.bits (List.range d.fs.numGroups),
      out.written ++ d.fs.documents⟩) := by
  have hcached : ext4CacheBgds h d.fs.volume = some d.bcache := d.bcached
  obtain ⟨i, bits, hends, -⟩ := serializeBgds_ends hcached d.groups_lt _ 0 (bsonInit h) out rfl
    (bsonInit_holds h)
  have hbits := serializeBgds_bits hcached d.groups_lt d.groups hends
  dsimp only at hbits
  rw [Nat.sub_zero, ← List.range_eq_range'] at hbits
  rw [(documents_iff d.fs 0).mpr (.inr ⟨rfl, d.groups⟩), hbits] at hends
  exact ⟨i, hends⟩

theorem bgds_frames (subtype : UInt8) :
    ((d.index subtype).bgds.map fun r => frame (r.document "bgd").body) = d.fs.documents := by
  refine (List.map_map ..).trans (List.map_congr_left fun i _ => ?_)
  exact (bgdDocument_eq d.volume i).symm

theorem files_frames (subtype : UInt8) :
    ((d.index subtype).files.map fun r => frame r.document.body) =
      d.nodes.map (nodeDocument (d.crawl left)) := by
  have hmap := List.pmap_eq_map (f := nodeDocument (d.crawl left)) (l := d.nodes) d.indexable
  refine ((List.map_pmap ..).trans (List.pmap_congr_left _ fun x _ hx _ => ?_)).trans hmap
  exact (nodeDocument_eq _ x hx).symm

theorem documents_eq (subtype : UInt8) :
    ((d.index subtype).entries.map fun e => frame e.document.body) =
      [frame ((mbrRecord d.pt).document "mbr").body,
        frame (partitionDocument ⟨0, (d.start * 512 : ℕ), firstEntry d.pt⟩).body,
        frame (fsEntry d.volume d.info lastMounted 0 firstNum_lt d.range).document.body] ++
        d.fs.documents ++ d.nodes.map (nodeDocument (d.crawl left)) ++
        [frame (filterDocument subtype d.bits.array).body] := by
  rw [entries_frames, d.bgds_frames, d.files_frames]
  rfl

theorem stream_eq (subtype : UInt8) : stream ((d.index subtype).entries.map Entry.document) =
    ([frame ((mbrRecord d.pt).document "mbr").body,
        frame (partitionDocument ⟨0, (d.start * 512 : ℕ), firstEntry d.pt⟩).body,
        frame (fsEntry d.volume d.info lastMounted 0 firstNum_lt d.range).document.body] ++
        d.fs.documents ++ d.nodes.map (nodeDocument (d.crawl left))).flatten ++
      frame (filterDocument subtype d.bits.array).body := by
  have hflatten := congrArg List.flatten (d.documents_eq subtype)
  rw [List.flatten_append, List.flatten_singleton] at hflatten
  rw [stream, List.map_map]
  exact hflatten

theorem volume_written (out : Output) :
    ∃ i, Ext4Serialize h left d.disk (d.start * 512 : ℕ) 0 d.info (0, out) (true, i,
      ⟨markGroups d.volume (out.bits.setBit
          (superblockSector d.volume / ext4BlockSize d.volume.superblock))
          (List.range d.fs.numGroups),
        out.written ++
          [frame (fsEntry d.volume d.info lastMounted 0 firstNum_lt d.range).document.body] ++
          d.fs.documents ++ d.nodes.map (nodeDocument (d.crawl left))⟩) := by
  have hsize := (blockSize_range (v := d.volume) d.blockSize).1.ne'
  have hfs := ext4SerializeFs_eq h d.volume d.info 0 firstNum_lt d.range d.grouped.ne' hsize out
  obtain ⟨i, hgroups⟩ := d.groups_written _
  have hroot := fun out => d.tree_written d.rootStored d.rootPath_eq (.inl rfl)
    (fun x hx => d.fits x (List.mem_append_left _ hx)) out
  have hjournal := fun out => d.tree_written d.journalStored d.journalPath_eq (.inr (by decide))
    (fun x hx => d.fits x (List.mem_append_right _ hx)) out
  rw [d.rootNum] at hroot
  rw [d.journalNum] at hjournal
  rw [nodes, List.map_append, ← List.append_assoc]
  exact ⟨i, _, d.bcache, true, d.icache, hfs, d.bcached, d.icached, (if_pos rfl).mpr
    ⟨i, _, _, _, hgroups, hroot _, hjournal _, rfl⟩⟩

/-- The crawler ends with success, whatever crawlers are behind the one for ext4. -/
theorem crawled (rest : List (FsCrawler ℕ)) (subtype : UInt8) :
    Crawl h d.disk (ext4Crawler h left :: rest) 0 subtype true
      (stream ((d.index subtype).entries.map Entry.document)) := by
  obtain ⟨finished, hpte, hfin⟩ :=
    mbrSerializePte_finished h ⟨0, (d.start * 512 : ℕ), firstEntry d.pt⟩
  obtain ⟨i, hvolume⟩ := d.volume_written (Output.write
    ⟨(Bitarray.init h (d.disk.size / 4096)).setBit 0,
      [frame ((mbrRecord d.pt).document "mbr").body]⟩ finished)
  rw [Crawl, d.probed, Option.elim_some]
  refine ⟨_, _, mbrSerializePt_eq h d.pt _, .crawled d.next_first d.start_pos
    (.found d.found hpte hvolume) (d.rest_skipped _ _ 3 1 rfl (by decide)), (if_pos rfl).mpr ?_⟩
  refine ⟨true, ?_⟩
  rw [d.stream_eq, write_finished hfin]
  exact d.filter_written subtype _

theorem ptOff_eq_zero {k k' : ℕ} {pte : Pte} (hk : 0 < k)
    (hnext : mbrGetNextPartition d.pt k = some (pte, k')) : pte.ptOff = 0 := by
  obtain ⟨entry, hget, heq⟩ := Option.map_eq_some_iff.mp hnext
  obtain ⟨rfl, -⟩ := Prod.mk.inj heq
  have hzero := d.others k entry hget hk
  dsimp only
  omega

theorem rest_unique {σ : Type} {crawlers : List (FsCrawler σ)} {k : ℕ} {s : σ × Output}
    {r : Bool × σ × Output} (hp : Partitions h d.disk crawlers d.pt k s r) (hk : 0 < k) :
    r = (true, s) := by
  induction hp with
  | done _ => rfl
  | skipped next _ _ ih => exact ih (by rw [next_eq next]; omega)
  | crawled next used _ _ _ => exact absurd (d.ptOff_eq_zero hk next) used.ne'
  | failed next used _ => exact absurd (d.ptOff_eq_zero hk next) used.ne'

theorem first_attempted {σ : Type} {crawlers : List (FsCrawler σ)} {s : σ × Output}
    {r : Bool × σ × Output} (hp : Partitions h d.disk crawlers d.pt 0 s r) :
    Attempts h d.disk ⟨0, (d.start * 512 : ℕ), firstEntry d.pt⟩ crawlers true s r := by
  have hfirst := d.next_first
  cases hp with
  | done none => cases none.symm.trans hfirst
  | skipped next empty _ =>
    obtain ⟨rfl, -⟩ := Prod.mk.inj (Option.some.inj (next.symm.trans hfirst))
    exact absurd d.start_pos (Int.not_lt.mpr empty)
  | crawled next _ attempts rest =>
    obtain ⟨rfl, rfl⟩ := Prod.mk.inj (Option.some.inj (next.symm.trans hfirst))
    rw [d.rest_unique rest Nat.one_pos]
    exact attempts
  | failed next _ attempts =>
    obtain ⟨rfl, -⟩ := Prod.mk.inj (Option.some.inj (next.symm.trans hfirst))
    exact attempts

/-- This is all that the crawler can do. -/
theorem crawl_outcome_iff (rest : List (FsCrawler ℕ)) (subtype : UInt8) (success : Bool)
    (file : List UInt8) :
    Crawl h d.disk (ext4Crawler h left :: rest) 0 subtype success file ↔
      success = true ∧ file = stream ((d.index subtype).entries.map Entry.document) := by
  constructor
  · intro hc
    have hc' := d.crawled rest subtype
    rw [Crawl, d.probed, Option.elim_some] at hc hc'
    obtain ⟨out, s, hout, hp, hfile⟩ := hc
    obtain ⟨out', s', hout', hp', hfile'⟩ := hc'
    obtain rfl := Option.some.inj (hout.symm.trans hout')
    obtain ⟨rfl, rfl⟩ := Prod.mk.inj (Attempts.unique_of_found d.found
      (fun _ _ _ => Ext4Serialize.unique) (d.first_attempted hp) (d.first_attempted hp'))
    rw [if_pos rfl] at hfile hfile'
    obtain ⟨ret, hfile⟩ := hfile
    obtain ⟨ret', hfile'⟩ := hfile'
    exact ⟨rfl, (Prod.mk.inj (Option.some.inj (hfile.symm.trans hfile'))).2⟩
  · rintro ⟨rfl, rfl⟩
    exact d.crawled rest subtype

/-! ## The system -/

theorem documents_lt (subtype : UInt8) :
    ∀ e ∈ (d.index subtype).entries, (frame e.document.body).length < 2 ^ 31 := by
  intro e he
  have hmax : maxSize = 2 ^ 30 := rfl
  have hmem : frame e.document.body ∈
      (d.index subtype).entries.map fun e => frame e.document.body := List.mem_map_of_mem he
  rw [d.documents_eq] at hmem
  simp only [List.mem_append, List.mem_cons, List.not_mem_nil, or_false] at hmem
  rcases hmem with (((heq | heq | heq) | hmem) | hmem) | heq
  · have hle := mbrDocument_le d.pt
    rw [heq, frame_length]
    omega
  · rw [heq, partitionDocument_length]
    decide
  · have hle := fsDocument_le d.volume d.info 0 firstNum_lt d.range
    rw [heq, frame_length]
    omega
  · obtain ⟨i, -, heq⟩ := List.mem_map.mp hmem
    have hle := bgdBody_length d.fs i
    rw [← heq, bgdDocument, frame_length]
    omega
  · obtain ⟨x, hx, heq⟩ := List.mem_map.mp hmem
    have hle := (d.fits x hx).document
    rw [← heq]
    omega
  · have hle := d.bits_array.2.2
    rw [heq, filterDocument_length]
    omega

/-- The number of a node is the one of its record, and its blocks are where it has them. -/
theorem block_of_node (subtype : UInt8) {x : List UInt8 × FsTree} (hx : x ∈ d.nodes) {b : ℕ}
    (hb : b < listed (d.crawl left) x.2) (hsector : x.2.info.sector d.volume b < 2 ^ 31) :
    ∃ k r, (d.index subtype).files[k]? = some r ∧ r.path = x.1 ∧
      (x.2.info.sector d.volume b, k, b) ∈ (d.index subtype).blocks := by
  obtain ⟨k, hk⟩ := List.mem_iff_getElem?.mp hx
  have hfile : (d.index subtype).files[k]? =
      some (nodeRecord (d.crawl left) x (d.indexable x hx)) := by
    obtain ⟨hlt, rfl⟩ := List.getElem?_eq_some_iff.mp hk
    have hlength : k < (d.index subtype).files.length := hlt.trans_eq (List.length_pmap ..).symm
    rw [List.getElem?_eq_getElem hlength]
    exact congrArg some (List.getElem_pmap ..)
  refine ⟨k, _, hfile, rfl, (Loader.mem_blocks _).mpr ⟨_, i32 (x.2.info.sector d.volume b), hfile,
    ?_, ?_⟩⟩
  · rw [nodeRecord_sectors, List.getElem?_map, List.getElem?_range hb]
    rfl
  · rw [i32_of_range (by omega) (by omega), u64_natCast (by omega)]

end CrawledDisk

theorem place_of_block {x : CrawlIndex} (hclean : x.Clean) {s k i : ℕ}
    (hb : (s, k, i) ∈ x.dataBlocks) : x.place s = some (k, i * x.blockSize) := by
  cases hplace : x.place s with
  | none => exact absurd hb (CrawlIndex.not_mem_of_place hplace k i)
  | some p =>
    obtain ⟨f, start⟩ := p
    obtain ⟨i', hb', rfl⟩ := CrawlIndex.mem_of_place hplace
    obtain ⟨rfl, rfl⟩ := hclean.unique hb hb'
    rfl

open Monitor (Node Initial)

/-- The bytes of the first of these pieces that reaches here. -/
def pieceByte (pieces : List (ℕ × List UInt8)) (i : ℕ) : UInt8 :=
  (pieces.findSome? fun p => if p.1 ≤ i then p.2[i - p.1]? else none).getD 0

/-- An extent node for block 0 of the file in this block. -/
def oneExtent (block : ℕ) : Vector UInt8 60 :=
  ⟨⟨leBytes 2 0xf30a ++ leBytes 2 1 ++ leBytes 2 4 ++ List.replicate 6 0 ++ leBytes 4 0 ++
    leBytes 2 1 ++ leBytes 2 0 ++ leBytes 4 block ++ List.replicate 36 0⟩, by simp⟩

/-- A partition at sector 1 with blocks of 1024 bytes: the group descriptor in block 2, the inode
table in block 4, the root directory in block 5, a file in block 6 and the journal in block 7. -/
def smallDisk : Disk where
  size := 2 ^ 16
  byte := pieceByte [(454, leBytes 4 1), (510, [0x55, 0xaa]), (1536, leBytes 4 16),
    (1540, leBytes 4 16), (1556, leBytes 4 1), (1568, leBytes 4 8192), (1576, leBytes 4 8),
    (1592, leBytes 2 0xef53), (1620, leBytes 4 11), (1624, leBytes 2 128), (1632, leBytes 4 0x40),
    (1636, leBytes 4 8), (2568, leBytes 4 4), (4736, inodeImage 0x41ed 1024 (oneExtent 5).toList),
    (4864, inodeImage 0x81a4 1000 (oneExtent 6).toList),
    (5504, inodeImage 0x8180 1024 (oneExtent 7).toList), (5632, [3, 0, 0, 0, 0, 4, 1, 1, 98])]

def smallNode (num mode size block : ℕ) : NodeInfo where
  num := num
  table := 4
  inode := ⟨mode, size, 0, 0x80000, oneExtent block⟩
  stat := ⟨0, 0, 0, 0, 0, 1⟩
  extents := [⟨0, 1, block⟩]

def smallTree : FsTree :=
  .directory (smallNode 2 0x41ed 1024 5)
    (.cons (.child nameB 1024 (.leaf (smallNode 3 0x81a4 1000 6)) .nil) .nil)

def smallJournal : FsTree := .leaf (smallNode 8 0x8180 1024 7)

def smallSuperblock : SuperblockInfo := ⟨⟨0, 16, 0, 1, 8192, 8⟩, 16, 0, 11, 128⟩

def smallTable : Vector PartitionTableEntry 4 := .ofFn fun k => entryAt smallDisk (446 + 16 * k)

theorem smallTable_start : (firstEntry smallTable).firstSectorLba = 1 := by decide

theorem smallTable_others (k : ℕ) (entry : PartitionTableEntry)
    (hget : smallTable[k]? = some entry) (hk : 0 < k) :
    entry.firstSectorLba * 512 % 2 ^ 32 = 0 := by
  have hall : ∀ k < 4, 0 < k →
      smallTable[k]?.elim 0 (fun e => e.firstSectorLba * 512 % 2 ^ 32) = 0 := by decide
  have hzero := hall k (Vector.getElem?_eq_some_iff.mp hget).1 hk
  rwa [hget] at hzero

theorem smallDisk_superblock : superblockOn smallDisk 1536 = smallSuperblock := rfl

theorem smallDisk_found :
    ext4Probe smallDisk ((firstEntry smallTable).firstSectorLba * 512 : ℕ) =
      some smallSuperblock := by
  have hplace : (((1 * 512 : ℕ) : ℤ) + 1024).toNat = 1536 := rfl
  rw [smallTable_start, ext4Probe, hplace, if_neg (by decide), if_neg (by decide),
    smallDisk_superblock]

def smallPart : OnePartition where
  disk := smallDisk
  pt := smallTable
  probed := rfl
  used := by rw [smallTable_start]; decide
  low := by rw [smallTable_start]; decide
  others := smallTable_others
  info := smallSuperblock
  found := smallDisk_found

theorem smallPart_onDisk : OnDisk smallPart.volume where
  offset := by decide
  table := by decide
  size := by decide

theorem smallPart_groups : ∀ k < ext4NumBlockGroups smallPart.info.superblock,
    bgdSector smallPart.volume k ≠ 0 := by decide

theorem smallPart_bgds : (ext4CacheBgds zeroHeap smallPart.volume).isSome := by decide

def smallBcache : Buffer := (ext4CacheBgds zeroHeap smallPart.volume).get smallPart_bgds

theorem smallPart_inodes : (ext4CacheInodes smallPart.volume 128 zeroHeap smallBcache).isSome := by
  decide

def smallCache : Bool × Buffer :=
  (ext4CacheInodes smallPart.volume 128 zeroHeap smallBcache).get smallPart_inodes

theorem smallCache_whole : smallCache.1 = true := by decide

def smallVolume : CachedVolume zeroHeap where
  toOnePartition := smallPart
  grouped := by decide
  blockSize := by decide
  onDisk := smallPart_onDisk
  groups_lt := by decide
  groups := smallPart_groups
  bcache := smallBcache
  icache := smallCache.2
  bcached := (Option.some_get _).symm
  icached := (Option.some_get smallPart_inodes).symm.trans
    (congrArg some (Prod.ext smallCache_whole rfl))

def smallLeft : Leftovers := ⟨.unknown, fun _ => 0⟩

def smallCrawl : TreeCrawl := smallVolume.crawl smallLeft

def smallNodes : List (List UInt8 × FsTree) :=
  [([47, 98], .leaf (smallNode 3 0x81a4 1000 6)), ([47], smallTree),
    (ascii "journal", smallJournal)]

theorem smallNodes_cached : ∀ x ∈ smallNodes, Cached smallCrawl x.2.info := by
  have htable : ∀ x ∈ smallNodes,
      x.2.info.num ≠ 0 ∧ smallCrawl.inodeTable x.2.info.num = some x.2.info.table := by decide
  have hinode : ∀ x ∈ smallNodes, inodeAt smallCrawl.icache
      (smallCrawl.icacheOffset x.2.info.num) = some x.2.info.node := by decide +kernel
  exact fun x hx => ⟨(htable x hx).1, by decide, (htable x hx).2, hinode x hx⟩

theorem smallNode_root (num mode size : ℕ) {block : ℕ} (hblock : block ∈ [5, 6, 7]) :
    HoldsNode (rootBuffer (smallNode num mode size block).inode)
      (Tree.leaf (smallNode num mode size block).extents) := by
  simp only [List.mem_cons, List.not_mem_nil, or_false] at hblock
  rcases hblock with rfl | rfl | rfl
  all_goals
    refine ⟨rfl, fun i m hm => ?_⟩
    obtain ⟨hi, rfl⟩ := List.getElem?_eq_some_iff.mp hm
    obtain rfl : i = 0 := Nat.lt_one_iff.mp hi
    rfl

theorem smallNode_mapped {num mode size block : ℕ} (hblock : block ∈ [5, 6, 7])
    (hone : numBlocks smallCrawl.volume (smallNode num mode size block).inode = 1) :
    Mapped smallCrawl.volume (smallNode num mode size block) where
  flag := (by decide : 0x80000 &&& 0x80000 ≠ 0)
  wellFormed := by
    have hle : ∀ b ∈ [5, 6, 7], b + 1 ≤ 2 ^ 32 := by decide
    refine ⟨List.pairwise_singleton _ _, fun m hm => ?_⟩
    rw [List.mem_singleton.mp hm]
    exact ⟨le_rfl, (by decide : 0 + 1 ≤ 2 ^ 32 - 1), (by decide : 1 ≤ 32768), hle block hblock⟩
  root := smallNode_root num mode size hblock
  dense b hb := by
    obtain rfl : b = 0 := by omega
    exact ⟨_, List.mem_singleton_self _, Nat.zero_le _, Nat.one_pos⟩

/-- The block of the directory, whatever was in the buffer before. -/
theorem smallDisk_read (buf : Buffer) {i : ℕ} (hi : i < 1024) :
    ext4ReadBlock smallCrawl.volume 5 buf i = some (smallDisk.byte (5632 + i)) := by
  have hoff : u64 (ext4BlockOffset 5 smallCrawl.volume.superblock +
      smallCrawl.volume.partitionOffset) = 5632 := by decide
  have hsize : 5632 + i < smallCrawl.volume.disk.size := by
    change 5632 + i < 65536
    omega
  rw [ext4ReadBlock, hoff, if_neg (by decide), if_pos ⟨hi, hsize⟩]
  rfl

theorem smallDisk_mapM (buf : Buffer) {position len : ℕ} (hlen : position + len ≤ 1024) :
    ((List.range len).mapM fun i => ext4ReadBlock smallCrawl.volume 5 buf (position + i)) =
      (List.range len).mapM fun i => some (smallDisk.byte (5632 + (position + i))) := by
  refine mapM_congr_mem fun i hi => ?_
  have hlt := List.mem_range.mp hi
  exact smallDisk_read buf (by omega)

theorem smallEntry_held (buf : Buffer) :
    EntryHeld smallCrawl (ext4ReadBlock smallCrawl.volume 5 buf) 0 3 1024 [98] where
  inode := by
    rw [field, smallDisk_mapM buf (by decide)]
    decide
  used := by decide
  stride := by
    rw [field, smallDisk_mapM buf (by decide)]
    decide
  len := by
    rw [field, smallDisk_mapM buf (by decide)]
    decide
  named := by
    rw [nameAt, smallDisk_mapM buf (by decide)]
    decide
  room := by decide
  inside := by decide

theorem smallTree_stored : smallTree.Stored smallCrawl :=
  ⟨smallNodes_cached ([47], smallTree) (.tail _ (.head _)), rfl,
    smallNode_mapped (by decide) (by decide), by decide,
    ⟨fun buf => ⟨smallEntry_held buf, rfl⟩, trivial⟩,
    ⟨⟨smallNodes_cached ([47, 98], .leaf _) (.head _),
      .inr ⟨rfl, smallNode_mapped (by decide) (by decide)⟩⟩, trivial⟩, trivial⟩

theorem smallJournal_stored : smallJournal.Stored smallCrawl :=
  ⟨smallNodes_cached (_, smallJournal) (.tail _ (.tail _ (.head _))),
    .inr ⟨rfl, smallNode_mapped (by decide) (by decide)⟩⟩

theorem smallNodes_fit : ∀ x ∈ smallNodes, Fits smallCrawl x := by
  have hpath : ∀ x ∈ smallNodes, x.1.length < 8189 := by decide
  have hdocument : ∀ x ∈ smallNodes, (nodeDocument smallCrawl x).length ≤ maxSize := by
    decide +kernel
  exact fun x hx => ⟨(hpath x hx).trans (by decide), fun _ => hpath x hx, hdocument x hx⟩

theorem smallNodes_indexable : ∀ x ∈ smallNodes, Indexable smallCrawl x := by
  have hlt : ∀ x ∈ smallNodes, x.2.info.num < 2 ^ 32 ∧
      smallCrawl.inodeSector x.2.info.num x.2.info.table < 2 ^ 31 := by decide
  exact fun x hx => ⟨(hlt x hx).1, (hlt x hx).2⟩

theorem smallDisk_ge : 2 ^ 15 ≤ smallDisk.size := by decide

theorem smallDisk_lt : smallDisk.size < 2 ^ 44 := by decide

def smallCrawled : CrawledDisk zeroHeap smallLeft where
  toCachedVolume := smallVolume
  leftover := rfl
  root := smallTree
  journal := smallJournal
  rootNum := rfl
  journalNum := rfl
  rootStored := smallTree_stored
  journalStored := smallJournal_stored
  rootPath_eq := rfl
  journalPath_eq := rfl
  fits := smallNodes_fit
  indexable := smallNodes_indexable
  size_ge := smallDisk_ge
  size_lt := smallDisk_lt

theorem smallCrawled_clean : (smallCrawled.index 0).Clean where
  count := by decide
  blockSize_pos := by decide
  apart := by decide
  range := by decide
  names := by decide
  paths := by decide
  sizes r hr := by
    obtain ⟨x, hx, rfl⟩ := List.mem_pmap.mp hr
    have hlt : ∀ x ∈ smallNodes, ext4FileSize x.2.info.inode < 2 ^ 64 := by decide
    exact ⟨_, hlt x hx, size_mem_scalars _ x _⟩

theorem smallCrawled_sectors : ∀ x ∈ smallNodes, ∀ b < listed smallCrawl x.2,
    x.2.info.sector smallCrawl.volume b < 2 ^ 31 := by decide

end GammaRay.Crawler
