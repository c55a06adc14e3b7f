import GammaRay.BlockGroups
import GammaRay.WalkTermination

set_option autoImplicit false

/-!
# The inode cache

`ext4_cache_inodes` reads the inode tables of all groups one behind the other;
`ext4_read_inode_serialized` takes an inode from there and reports where on the disk it is.
-/
namespace GammaRay.Ext4
open Bytes Decimal Bson
open KvStore (ascii)
open Loader (keyNamed int32Of int64Of)

section Fill

variable (v : Volume) (sInodeSize : ℕ)

/-- `s_inode_size * s_inodes_per_group` in 32 bits. -/
def inodeTableSize : ℕ := sInodeSize * v.superblock.sInodesPerGroup % 2 ^ 32

/-- `inode_table_start`. -/
def inodeTableStart (table : ℕ) : ℕ :=
  u64 ((table * ext4BlockSize v.superblock : ℕ) + v.partitionOffset)

def partitionEnd : ℕ :=
  u64 (v.partitionOffset + (ext4BlockSize v.superblock * ext4SBlocksCount v.superblock : ℕ))

/-- What is left of a table that reaches past the end of the partition. -/
def clipTable (start size : ℕ) : ℕ :=
  if partitionEnd v ≤ (start + size) % 2 ^ 64 then
    u64 (size - ((start + size) % 2 ^ 64 - partitionEnd v : ℤ))
  else size

/-- `inode_table_size`, which one group cuts down for all that follow, and the cache. -/
structure TableCache where
  size : ℕ
  cache : Buffer

/-- The table of one group, and whether the loop goes on. The number of bytes read is kept in
an `int`; bytes past the end of the cache have no defined place. -/
def cacheTable (bcache : Buffer) (i : ℕ) (s : TableCache) : Option (Bool × TableCache) := do
  let table ← field bcache (i * bgdSize + 8) 4
  let start := inodeTableStart v table
  let size := clipTable v start s.size
  if 2 ^ 63 ≤ start then some (false, ⟨size, s.cache⟩)
  else
    let cachep := i * inodeTableSize v sInodeSize
    let got := min size (v.disk.size - start)
    if inodeTableSize v sInodeSize * ext4NumBlockGroups v.superblock < cachep + got then none
    else some (u64 (i32 got) = size, ⟨size, fun j =>
      if cachep ≤ j ∧ j < cachep + got then some (v.disk.byte (start + (j - cachep)))
      else s.cache j⟩)

def cacheTables (bcache : Buffer) : List ℕ → TableCache → Option (Bool × TableCache)
  | [], s => some (true, s)
  | i :: rest, s => do
    let (ok, s) ← cacheTable v sInodeSize bcache i s
    if ok then cacheTables bcache rest s else some (false, s)

/-- Whether it succeeds, and the cache. The 32-bit counter never reaches `2 ^ 32` groups. -/
def ext4CacheInodes (h : Heap) (bcache : Buffer) : Option (Bool × Buffer) :=
  let num := ext4NumBlockGroups v.superblock
  if v.superblock.sBlocksPerGroup = 0 ∨ 2 ^ 32 ≤ num then none
  else do
    let (ok, s) ← cacheTables v sInodeSize bcache (List.range num)
      ⟨inodeTableSize v sInodeSize, fun j => (h.malloc (inodeTableSize v sInodeSize * num))[j]?⟩
    some (ok, s.cache)

end Fill

/-- A file system all of whose inode tables lie in its partition, on a disk that can be read. -/
structure Tables (v : Volume) (sInodeSize : ℕ) : Prop extends OnDisk v where
  grouped : 0 < v.superblock.sBlocksPerGroup
  wide : inodeSize ≤ sInodeSize
  below : sInodeSize * v.superblock.sInodesPerGroup < 2 ^ 32
  partition : v.partitionOffset +
    (ext4BlockSize v.superblock * ext4SBlocksCount v.superblock : ℕ) ≤ v.disk.size
  inside : ∀ i < ext4NumBlockGroups v.superblock,
    (groupDescriptor v i).bgInodeTableLo * ext4BlockSize v.superblock +
        sInodeSize * v.superblock.sInodesPerGroup ≤
      ext4BlockSize v.superblock * ext4SBlocksCount v.superblock

/-- Where the inode table of a group begins on the disk. -/
def tablePlace (v : Volume) (i : ℕ) : ℕ :=
  (groupDescriptor v i).bgInodeTableLo * ext4BlockSize v.superblock + v.partitionOffset.toNat

section Tables

variable {v : Volume} {sInodeSize : ℕ} (hv : Tables v sInodeSize)

include hv

theorem Tables.tableSize : inodeTableSize v sInodeSize = sInodeSize * v.superblock.sInodesPerGroup :=
  Nat.mod_eq_of_lt hv.below

theorem Tables.start {i : ℕ} (hi : i < ext4NumBlockGroups v.superblock) :
    inodeTableStart v (groupDescriptor v i).bgInodeTableLo = tablePlace v i ∧
      tablePlace v i + inodeTableSize v sInodeSize ≤ partitionEnd v ∧
      partitionEnd v ≤ v.disk.size := by
  have h0 := hv.offset
  have hsize := hv.size
  have hpart := hv.partition
  have hin := hv.inside i hi
  rw [hv.tableSize]
  unfold inodeTableStart tablePlace partitionEnd u64
  omega

theorem Tables.clip {i : ℕ} (hi : i < ext4NumBlockGroups v.superblock) :
    clipTable v (tablePlace v i) (inodeTableSize v sInodeSize) =
      inodeTableSize v sInodeSize := by
  obtain ⟨-, hend, hdisk⟩ := hv.start hi
  have hsize := hv.size
  unfold clipTable u64
  split_ifs
  · omega
  · rfl

end Tables

/-! ## Filling the cache -/

/-- The cache with the table of group `i` read into it. -/
def tableOver (v : Volume) (sInodeSize i : ℕ) (cache : Buffer) : Buffer := fun j =>
  let cachep := i * inodeTableSize v sInodeSize
  if cachep ≤ j ∧ j < cachep + inodeTableSize v sInodeSize then
    some (v.disk.byte (tablePlace v i + (j - cachep)))
  else cache j

/-- The cache holds the table of a group. -/
def Filled (v : Volume) (sInodeSize i : ℕ) (cache : Buffer) : Prop :=
  ∀ j < inodeTableSize v sInodeSize,
    cache (i * inodeTableSize v sInodeSize + j) = some (v.disk.byte (tablePlace v i + j))

section Filled

variable {v : Volume} {sInodeSize : ℕ}

theorem tableOver_filled (i : ℕ) (cache : Buffer) :
    Filled v sInodeSize i (tableOver v sInodeSize i cache) := by
  intro j hj
  rw [tableOver, if_pos ⟨Nat.le_add_right _ _, Nat.add_lt_add_left hj _⟩,
    Nat.add_sub_cancel_left]

theorem tableOver_of_ne {i k j : ℕ} (cache : Buffer) (hne : k ≠ i)
    (hj : j < inodeTableSize v sInodeSize) :
    tableOver v sInodeSize i cache (k * inodeTableSize v sInodeSize + j) =
      cache (k * inodeTableSize v sInodeSize + j) := by
  refine if_neg ?_
  rintro ⟨hle, hlt⟩
  rcases Nat.lt_or_gt_of_ne hne with hk | hk
  · have hmul := Nat.mul_le_mul_right (inodeTableSize v sInodeSize) (Nat.succ_le_of_lt hk)
    rw [Nat.succ_mul] at hmul
    omega
  · have hmul := Nat.mul_le_mul_right (inodeTableSize v sInodeSize) (Nat.succ_le_of_lt hk)
    rw [Nat.succ_mul] at hmul
    omega

theorem Filled.tableOver {k : ℕ} {cache : Buffer} (hk : Filled v sInodeSize k cache) (i : ℕ) :
    Filled v sInodeSize k (tableOver v sInodeSize i cache) := by
  by_cases hne : k = i
  · rw [hne]
    exact tableOver_filled i cache
  · intro j hj
    rw [tableOver_of_ne cache hne hj, hk j hj]

theorem u64_i32_eq_iff {n : ℕ} (hn : n < 2 ^ 32) : u64 (i32 n) = n ↔ n < 2 ^ 31 := by
  unfold u64 i32
  omega

variable (hv : Tables v sInodeSize) {h : Heap} {bcache : Buffer}
  (hcache : ext4CacheBgds h v = some bcache)

include hv hcache

/-- A whole table is read; what `int` makes of its size decides whether the loop goes on. -/
theorem cacheTable_eq {i : ℕ} (hi : i < ext4NumBlockGroups v.superblock) (cache : Buffer) :
    cacheTable v sInodeSize bcache i ⟨inodeTableSize v sInodeSize, cache⟩ =
      some (decide (inodeTableSize v sInodeSize < 2 ^ 31),
        ⟨inodeTableSize v sInodeSize, tableOver v sInodeSize i cache⟩) := by
  obtain ⟨hstart, hend, hdisk⟩ := hv.start hi
  have hsize := hv.size
  have htable : field bcache (i * bgdSize + 8) 4 = some (groupDescriptor v i).bgInodeTableLo :=
    hv.cache_field hcache hi (by decide)
  have hroom : i * inodeTableSize v sInodeSize + inodeTableSize v sInodeSize ≤
      inodeTableSize v sInodeSize * ext4NumBlockGroups v.superblock := by
    rw [← Nat.succ_mul, Nat.mul_comm (inodeTableSize v sInodeSize)]
    exact Nat.mul_le_mul_right _ hi
  have hgot : min (inodeTableSize v sInodeSize) (v.disk.size - tablePlace v i) =
      inodeTableSize v sInodeSize := by omega
  have hint : (u64 (i32 (inodeTableSize v sInodeSize)) = inodeTableSize v sInodeSize) =
      (inodeTableSize v sInodeSize < 2 ^ 31) :=
    propext (u64_i32_eq_iff (Nat.mod_lt _ (by decide)))
  rw [cacheTable, Loop.bind_of_some htable]
  dsimp only
  rw [hstart, hv.clip hi, hgot, if_neg (by omega), if_neg (by omega)]
  simp only [hint]
  rfl

theorem cacheTables_filled (hsmall : inodeTableSize v sInodeSize < 2 ^ 31) (groups : List ℕ)
    (hgroups : ∀ i ∈ groups, i < ext4NumBlockGroups v.superblock) (cache : Buffer) :
    ∃ cache', cacheTables v sInodeSize bcache groups ⟨inodeTableSize v sInodeSize, cache⟩ =
        some (true, ⟨inodeTableSize v sInodeSize, cache'⟩) ∧
      ∀ k, k ∈ groups ∨ Filled v sInodeSize k cache → Filled v sInodeSize k cache' := by
  induction groups generalizing cache with
  | nil => exact ⟨cache, rfl, fun k hk => hk.resolve_left (List.not_mem_nil)⟩
  | cons i rest ih =>
    rw [List.forall_mem_cons] at hgroups
    obtain ⟨cache', hrun, hfilled⟩ := ih hgroups.2 (tableOver v sInodeSize i cache)
    refine ⟨cache', ?_, fun k hk => hfilled k ?_⟩
    · rw [cacheTables, Loop.bind_of_some (cacheTable_eq hv hcache hgroups.1 cache)]
      dsimp only
      rw [if_pos (decide_eq_true hsmall), hrun]
    · rw [List.mem_cons] at hk
      rcases hk with (rfl | hk) | hk
      · exact .inr (tableOver_filled k cache)
      · exact .inl hk
      · exact .inr (hk.tableOver i)

/-- A table of 2 GiB or more is the last one read. -/
theorem cacheTables_wide (hwide : ¬ inodeTableSize v sInodeSize < 2 ^ 31) {i : ℕ}
    (hi : i < ext4NumBlockGroups v.superblock) (rest : List ℕ) (cache : Buffer) :
    cacheTables v sInodeSize bcache (i :: rest) ⟨inodeTableSize v sInodeSize, cache⟩ =
      some (false, ⟨inodeTableSize v sInodeSize, tableOver v sInodeSize i cache⟩) := by
  rw [cacheTables, Loop.bind_of_some (cacheTable_eq hv hcache hi cache)]
  dsimp only
  rw [decide_eq_false hwide]
  exact if_neg Bool.false_ne_true

end Filled

/-- Both caches, filled in turn. -/
def CachesFilled (v : Volume) (sInodeSize : ℕ) (h : Heap) (bcache icache : Buffer) : Prop :=
  ext4CacheBgds h v = some bcache ∧
    ∃ ok, ext4CacheInodes v sInodeSize h bcache = some (ok, icache)

section Caches

variable {v : Volume} {sInodeSize : ℕ} (hv : Tables v sInodeSize) (h : Heap)

theorem CachesFilled.groups_lt {bcache icache : Buffer}
    (hc : CachesFilled v sInodeSize h bcache icache) :
    ext4NumBlockGroups v.superblock < 2 ^ 32 := by
  obtain ⟨hcache, -⟩ := hc
  rw [ext4CacheBgds] at hcache
  dsimp only at hcache
  split at hcache
  · cases hcache
  · rename_i hnum
    exact Nat.lt_of_not_le fun hle => hnum (.inr hle)

include hv

theorem cacheInodes_eq (hnum : ext4NumBlockGroups v.superblock < 2 ^ 32) (bcache : Buffer) :
    ext4CacheInodes v sInodeSize h bcache =
      (cacheTables v sInodeSize bcache (List.range (ext4NumBlockGroups v.superblock))
        ⟨inodeTableSize v sInodeSize, fun j =>
          (h.malloc (inodeTableSize v sInodeSize * ext4NumBlockGroups v.superblock))[j]?⟩).map
        fun r => (r.1, r.2.cache) := by
  rw [ext4CacheInodes]
  dsimp only
  rw [if_neg (not_or.mpr ⟨hv.grouped.ne', Nat.not_le.mpr hnum⟩), Option.map_eq_bind]
  rfl

theorem cachesFilled_small (hnum : ext4NumBlockGroups v.superblock < 2 ^ 32)
    (hsmall : inodeTableSize v sInodeSize < 2 ^ 31) :
    ∃ bcache icache, CachesFilled v sInodeSize h bcache icache ∧
      ∀ i < ext4NumBlockGroups v.superblock, Filled v sInodeSize i icache := by
  obtain ⟨bcache, hcache⟩ := (cache_some_iff (h := h) hv.grouped).mpr hnum
  obtain ⟨icache, hrun, hfilled⟩ := cacheTables_filled hv hcache hsmall
    (List.range (ext4NumBlockGroups v.superblock)) (fun i hi => List.mem_range.mp hi)
    fun j => (h.malloc (inodeTableSize v sInodeSize * ext4NumBlockGroups v.superblock))[j]?
  refine ⟨bcache, icache, ⟨hcache, true, ?_⟩,
    fun i hi => hfilled i (.inl (List.mem_range.mpr hi))⟩
  rw [cacheInodes_eq hv h hnum, hrun, Option.map_some]

theorem cachesFilled_wide (hnum : ext4NumBlockGroups v.superblock < 2 ^ 32)
    (hpos : 0 < ext4NumBlockGroups v.superblock)
    (hwide : ¬ inodeTableSize v sInodeSize < 2 ^ 31) {bcache : Buffer}
    (hcache : ext4CacheBgds h v = some bcache) :
    ext4CacheInodes v sInodeSize h bcache = some (false, tableOver v sInodeSize 0 fun j =>
      (h.malloc (inodeTableSize v sInodeSize * ext4NumBlockGroups v.superblock))[j]?) := by
  obtain ⟨m, hm⟩ := Nat.exists_eq_add_of_lt hpos
  have hrange : List.range (ext4NumBlockGroups v.superblock) =
      0 :: (List.range m).map Nat.succ := by
    rw [hm, Nat.zero_add, List.range_succ_eq_map]
  rw [cacheInodes_eq hv h hnum, hrange, cacheTables_wide hv hcache hwide hpos, Option.map_some]

end Caches

/-! ## Reading an inode -/

/-- Where the disk has an inode. -/
def inodeAddress (v : Volume) (sInodeSize n : ℕ) : ℕ :=
  tablePlace v ((n - 1) / v.superblock.sInodesPerGroup) +
    (n - 1) % v.superblock.sInodesPerGroup * sInodeSize

/-- The call for inode `n` returns what the disk has at the address it reports. -/
structure ReadsInode (c : TreeCrawl) (n : ℕ) (node : Inode × InodeStat) (bson : BsonInfo)
    (sector offset : ℕ) : Prop where
  read : ext4ReadInodeSerialized c n (bsonInit c.heap) = some (node, bson)
  reported : Holds bson (Document.ofElements
    [(keyNamed "type" (by decide), .string (ascii "file")),
      (keyNamed "inode_sector" (by decide), int64Of sector),
      (keyNamed "inode_offset" (by decide), int64Of offset),
      (keyNamed "inode_num" (by decide), int32Of n)]).body
  address : sector * sectorSize + offset = inodeAddress c.volume c.sInodeSize n
  bytes : ∀ j < inodeSize, c.icache (c.icacheOffset n + j) =
    some (c.volume.disk.byte (sector * sectorSize + offset + j))
  node : inodeAt (fun j => some (c.volume.disk.byte j)) (sector * sectorSize + offset) = some node

/-- The cache and the reported address agree on inode `n`, whatever memory holds. -/
def InodeAgrees (v : Volume) (sInodeSize n : ℕ) : Prop :=
  ∀ (h : Heap) (subtype : List UInt8 → UInt8), ∃ bcache icache,
    CachesFilled v sInodeSize h bcache icache ∧
    ∃ node bson sector offset,
      ReadsInode ⟨h, v, sInodeSize, icache, bcache, subtype⟩ n node bson sector offset

theorem field_congr {buf buf' : Buffer} {offset offset' width : ℕ}
    (h : ∀ j < width, buf (offset + j) = buf' (offset' + j)) :
    field buf offset width = field buf' offset' width := by
  rw [field, field, mapM_congr_mem fun j hj => h j (List.mem_range.mp hj)]

theorem inodeAt_congr {buf buf' : Buffer} {offset offset' : ℕ}
    (h : ∀ j < inodeSize, buf (offset + j) = buf' (offset' + j)) :
    inodeAt buf offset = inodeAt buf' offset' := by
  have hfield : ∀ o w, o + w ≤ inodeSize →
      field buf (offset + o) w = field buf' (offset' + o) w := fun o w how =>
    field_congr fun j hj => by
      rw [Nat.add_assoc, Nat.add_assoc]
      exact h (o + j) (by omega)
  have hblock : ((List.range 60).mapM fun i => buf (offset + 40 + i)) =
      (List.range 60).mapM fun i => buf' (offset' + 40 + i) := by
    refine mapM_congr_mem fun j hj => ?_
    have hlt := List.mem_range.mp hj
    rw [Nat.add_assoc, Nat.add_assoc]
    exact h (40 + j) (by unfold inodeSize; omega)
  have h0 : field buf offset 2 = field buf' offset' 2 := hfield 0 2 (by decide)
  unfold inodeAt
  rw [h0, hfield 2 2 (by decide), hfield 4 4 (by decide), hfield 8 4 (by decide),
    hfield 12 4 (by decide), hfield 16 4 (by decide), hfield 24 2 (by decide),
    hfield 26 2 (by decide), hfield 32 4 (by decide), hblock, hfield 108 4 (by decide)]

theorem inodeAt_full {buf : Buffer} (h : ∀ i, ∃ x, buf i = some x) (offset : ℕ) :
    ∃ node, inodeAt buf offset = some node := by
  have hfield := field_full h
  obtain ⟨mode, hmode⟩ := hfield offset 2
  obtain ⟨uid, huid⟩ := hfield (offset + 2) 2
  obtain ⟨sizeLo, hsizeLo⟩ := hfield (offset + 4) 4
  obtain ⟨atime, hatime⟩ := hfield (offset + 8) 4
  obtain ⟨ctime, hctime⟩ := hfield (offset + 12) 4
  obtain ⟨mtime, hmtime⟩ := hfield (offset + 16) 4
  obtain ⟨gid, hgid⟩ := hfield (offset + 24) 2
  obtain ⟨links, hlinks⟩ := hfield (offset + 26) 2
  obtain ⟨flags, hflags⟩ := hfield (offset + 32) 4
  obtain ⟨block, hblock, hlen⟩ := @mapM_full _ _ (fun i => buf (offset + 40 + i)) (List.range 60)
    fun i _ => h (offset + 40 + i)
  obtain ⟨sizeHigh, hsizeHigh⟩ := hfield (offset + 108) 4
  refine ⟨(⟨mode, sizeLo, sizeHigh, flags, ⟨block.toArray, hlen⟩⟩,
    ⟨uid, atime, ctime, mtime, gid, links⟩), ?_⟩
  rw [inodeAt, Loop.bind_of_some hmode, Loop.bind_of_some huid, Loop.bind_of_some hsizeLo,
    Loop.bind_of_some hatime, Loop.bind_of_some hctime, Loop.bind_of_some hmtime,
    Loop.bind_of_some hgid, Loop.bind_of_some hlinks, Loop.bind_of_some hflags,
    Loop.bind_of_some hblock, Loop.bind_of_some hsizeHigh]
  exact dif_pos hlen

theorem sectorSize_dvd_ext4BlockSize (superblock : Superblock) :
    sectorSize ∣ ext4BlockSize superblock := by
  refine (Nat.dvd_mod_iff (by decide)).mpr ?_
  exact Dvd.dvd.mul_right (by decide) _

/-- The sector is that of the block, the offset that in the block. -/
theorem sector_add_offset {bs : ℕ} (h : sectorSize ∣ bs) (place : ℕ) :
    place / sectorSize / (bs / sectorSize) * (bs / sectorSize) * sectorSize + place % bs =
      place := by
  rw [Nat.mul_assoc, Nat.div_mul_cancel h, Nat.div_div_eq_div_mul, Nat.mul_div_cancel' h,
    Nat.div_add_mod']

section Read

variable {v : Volume} {sInodeSize n : ℕ}

theorem inodeIndex_eq (h1 : 1 ≤ n) (h32 : n < 2 ^ 32) : TreeCrawl.inodeIndex n = n - 1 := by
  unfold TreeCrawl.inodeIndex
  omega

variable (hv : Tables v sInodeSize) (h1 : 1 ≤ n)
  (hn : n ≤ ext4NumBlockGroups v.superblock * v.superblock.sInodesPerGroup)

include h1 hn

theorem inodesPerGroup_pos : 0 < v.superblock.sInodesPerGroup := by
  refine Nat.pos_of_ne_zero fun h0 => ?_
  rw [h0, Nat.mul_zero] at hn
  omega

theorem group_lt : (n - 1) / v.superblock.sInodesPerGroup < ext4NumBlockGroups v.superblock := by
  rw [Nat.div_lt_iff_lt_mul (inodesPerGroup_pos h1 hn)]
  omega

include hv

theorem Tables.within : (n - 1) % v.superblock.sInodesPerGroup * sInodeSize + sInodeSize ≤
    inodeTableSize v sInodeSize := by
  have hlt := Nat.mod_lt (n - 1) (inodesPerGroup_pos h1 hn)
  rw [hv.tableSize, ← Nat.succ_mul, Nat.mul_comm sInodeSize]
  exact Nat.mul_le_mul_right _ hlt

theorem Tables.inodePlace (h32 : n < 2 ^ 32) {c : TreeCrawl} (hc : c.volume = v)
    (hs : c.sInodeSize = sInodeSize) :
    c.inodePlace n
        (groupDescriptor v ((n - 1) / v.superblock.sInodesPerGroup)).bgInodeTableLo =
      inodeAddress v sInodeSize n := by
  obtain ⟨hstart, hend, hdisk⟩ := hv.start (group_lt h1 hn)
  have hwithin := hv.within h1 hn
  have hsize := hv.size
  have h0 := hv.offset
  rw [TreeCrawl.inodePlace, TreeCrawl.inodeOffset, inodeIndex_eq h1 h32, hc, hs,
    ext4BlockOffset, inodeAddress]
  unfold tablePlace at *
  rw [Nat.mul_comm (ext4BlockSize v.superblock)]
  generalize (n - 1) % v.superblock.sInodesPerGroup * sInodeSize = o at *
  generalize (groupDescriptor v ((n - 1) / v.superblock.sInodesPerGroup)).bgInodeTableLo *
    ext4BlockSize v.superblock = t at *
  unfold u64
  omega

/-- With its table in the cache, an inode is read as the disk has it. -/
theorem readsInode_of_filled (h32 : n < 2 ^ 32) {h : Heap} {bcache icache : Buffer}
    (hcache : ext4CacheBgds h v = some bcache)
    (hfilled : Filled v sInodeSize ((n - 1) / v.superblock.sInodesPerGroup) icache)
    (subtype : List UInt8 → UInt8) :
    ∃ node bson sector offset,
      ReadsInode ⟨h, v, sInodeSize, icache, bcache, subtype⟩ n node bson sector offset := by
  obtain ⟨node, hnode⟩ := @inodeAt_full (fun j => some (v.disk.byte j)) (fun j => ⟨_, rfl⟩)
    (inodeAddress v sInodeSize n)
  set c : TreeCrawl := ⟨h, v, sInodeSize, icache, bcache, subtype⟩ with hc
  have hindex := inodeIndex_eq h1 h32
  have hoffset : c.icacheOffset n = (n - 1) / v.superblock.sInodesPerGroup *
      inodeTableSize v sInodeSize + (n - 1) % v.superblock.sInodesPerGroup * sInodeSize := by
    rw [TreeCrawl.icacheOffset, TreeCrawl.blockGroup, TreeCrawl.inodeOffset, hindex]
    rfl
  have hbytes : ∀ j < inodeSize, icache (c.icacheOffset n + j) =
      some (v.disk.byte (inodeAddress v sInodeSize n + j)) := by
    intro j hj
    have hwithin := hv.within h1 hn
    have hwide := hv.wide
    rw [hoffset, Nat.add_assoc, hfilled _ (by omega), inodeAddress, Nat.add_assoc]
  have hinode : inodeAt icache (c.icacheOffset n) = some node :=
    (inodeAt_congr hbytes).trans hnode
  have htable : c.inodeTable n =
      some (groupDescriptor v ((n - 1) / v.superblock.sInodesPerGroup)).bgInodeTableLo := by
    rw [TreeCrawl.inodeTable, TreeCrawl.blockGroup, hindex]
    exact hv.cache_field hcache (group_lt h1 hn) (by decide)
  have hcached : Cached c ⟨n, _, node.1, node.2, []⟩ :=
    ⟨Nat.ne_of_gt h1, (inodesPerGroup_pos h1 hn).ne', htable, hinode⟩
  obtain ⟨bson, hread, hholds⟩ := hcached.read
  have hplace := hv.inodePlace h1 hn h32 (c := c) rfl rfl
  have haddress : c.inodeSector n
        (groupDescriptor v ((n - 1) / v.superblock.sInodesPerGroup)).bgInodeTableLo * sectorSize +
      c.inodePlace n (groupDescriptor v ((n - 1) / v.superblock.sInodesPerGroup)).bgInodeTableLo %
        c.blockSize = inodeAddress v sInodeSize n := by
    rw [TreeCrawl.inodeSector, hplace]
    exact sector_add_offset (sectorSize_dvd_ext4BlockSize v.superblock) _
  refine ⟨node, bson, _, _, hread, hholds, haddress, fun j hj => ?_, ?_⟩
  · rw [haddress]
    exact hbytes j hj
  · rw [haddress]
    exact hnode

end Read

section Agree

variable {v : Volume} {sInodeSize n : ℕ} (hv : Tables v sInodeSize) (h1 : 1 ≤ n)
  (hn : n ≤ ext4NumBlockGroups v.superblock * v.superblock.sInodesPerGroup)

include hv h1 hn

theorem inodeAgrees_small (h32 : n < 2 ^ 32) (hnum : ext4NumBlockGroups v.superblock < 2 ^ 32)
    (hsmall : inodeTableSize v sInodeSize < 2 ^ 31) : InodeAgrees v sInodeSize n := by
  intro h subtype
  obtain ⟨bcache, icache, hc, hfilled⟩ := cachesFilled_small hv h hnum hsmall
  exact ⟨bcache, icache, hc,
    readsInode_of_filled hv h1 hn h32 hc.1 (hfilled _ (group_lt h1 hn)) subtype⟩

theorem inodeAgrees_first (h32 : n < 2 ^ 32) (hnum : ext4NumBlockGroups v.superblock < 2 ^ 32)
    (hwide : ¬ inodeTableSize v sInodeSize < 2 ^ 31)
    (hfirst : n ≤ v.superblock.sInodesPerGroup) : InodeAgrees v sInodeSize n := by
  intro h subtype
  have hgroup := group_lt h1 hn
  have hzero : (n - 1) / v.superblock.sInodesPerGroup = 0 := Nat.div_eq_of_lt (by omega)
  obtain ⟨bcache, hcache⟩ := (cache_some_iff (h := h) hv.grouped).mpr hnum
  refine ⟨bcache, _, ⟨hcache, false, cachesFilled_wide hv h hnum
    (Nat.zero_lt_of_lt hgroup) hwide hcache⟩, ?_⟩
  refine readsInode_of_filled hv h1 hn h32 hcache ?_ subtype
  rw [hzero]
  exact tableOver_filled 0 _

/-- Behind the first table of 2 GiB or more the cache holds what `malloc` has given. -/
theorem not_inodeAgrees_later (hwide : ¬ inodeTableSize v sInodeSize < 2 ^ 31)
    (h32 : n < 2 ^ 32) (hlater : v.superblock.sInodesPerGroup < n) :
    ¬ InodeAgrees v sInodeSize n := by
  intro hagree
  let stale := v.disk.byte (inodeAddress v sInodeSize n) + 1
  obtain ⟨bcache, icache, hc, node, bson, sector, offset, hr⟩ :=
    hagree ⟨fun m => List.replicate m stale, fun _ => List.length_replicate⟩ fun _ => 0
  have hgroup := group_lt h1 hn
  have hpos := inodesPerGroup_pos h1 hn
  have hwithin := hv.within h1 hn
  have hne : (n - 1) / v.superblock.sInodesPerGroup ≠ 0 :=
    (Nat.div_pos (by omega) hpos).ne'
  have hicache := cachesFilled_wide hv _ hc.groups_lt (Nat.zero_lt_of_lt hgroup) hwide hc.1
  obtain ⟨ok, hok⟩ := hc.2
  obtain ⟨-, rfl⟩ := Prod.mk.inj (Option.some.inj (hok.symm.trans hicache))
  have hbyte := hr.bytes 0 (by decide)
  have hroom : ((n - 1) / v.superblock.sInodesPerGroup + 1) * inodeTableSize v sInodeSize ≤
      ext4NumBlockGroups v.superblock * inodeTableSize v sInodeSize :=
    Nat.mul_le_mul_right _ hgroup
  rw [Nat.succ_mul, Nat.mul_comm (ext4NumBlockGroups v.superblock)] at hroom
  have hsize : 0 < sInodeSize := Nat.lt_of_lt_of_le (by decide) hv.wide
  rw [hr.address, Nat.add_zero, Nat.add_zero, TreeCrawl.icacheOffset, TreeCrawl.blockGroup,
    TreeCrawl.inodeOffset, inodeIndex_eq h1 h32] at hbyte
  change tableOver v sInodeSize 0 _ ((n - 1) / v.superblock.sInodesPerGroup *
    inodeTableSize v sInodeSize + (n - 1) % v.superblock.sInodesPerGroup * sInodeSize) = _ at hbyte
  rw [tableOver_of_ne _ hne (by omega), List.getElem?_replicate, if_pos (by omega),
    Option.some.injEq] at hbyte
  exact absurd hbyte (by simp [stale])

end Agree

/-- Two groups of 1024-byte blocks, the descriptors in block 2, the tables in block 4 and in
block `second`. -/
def twoGroups (blocks perGroup inodes second : ℕ) : Volume :=
  ⟨⟨1024 * blocks, fun j => if j = 2056 then 4 else
    if 2088 ≤ j ∧ j < 2092 then (leBytes 4 second).getD (j - 2088) 0 else 0⟩, 0,
    ⟨0, blocks, 0, 1, perGroup, inodes⟩⟩

theorem twoGroups_tables : Tables (twoGroups 64 32 8 36) 256 where
  offset := by decide
  table := by decide
  size := by decide
  grouped := by decide
  wide := by decide
  below := by decide
  partition := by decide
  inside := by decide

end GammaRay.Ext4
