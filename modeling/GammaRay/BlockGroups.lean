import GammaRay.CrawlDocuments
import GammaRay.MetadataSectors

set_option autoImplicit false

/-!
# Block group descriptors

`ext4_cache_bgds` and `ext4_serialize_bgds`. The counter of `ext4_next_block_group_descriptor`
is a static variable; it is handed on here from call to call, and so from one file system to
the next.
-/
namespace GammaRay.Ext4
open Bytes Decimal Bson
open KvStore (ascii)
open Loader (keyNamed int32Of int64Of type_noNul)

def bgdAt (cache : Buffer) (i : ℕ) : Option BlockGroupDescriptor := do
  some ⟨← field cache (i * bgdSize) 4, ← field cache (i * bgdSize + 4) 4,
    ← field cache (i * bgdSize + 8) 4⟩

/-- Where the descriptors begin in the file system. -/
def bgdTable (v : Volume) : ℕ :=
  (v.superblock.sFirstDataBlock + 1) % 2 ^ 32 * ext4BlockSize v.superblock

/-- A failed seek or a short read leaves what `malloc` has given. The 32-bit counter never
reaches `2 ^ 32` groups. -/
def ext4CacheBgds (h : Heap) (v : Volume) : Option Buffer :=
  let num := ext4NumBlockGroups v.superblock
  if v.superblock.sBlocksPerGroup = 0 ∨ 2 ^ 32 ≤ num then none
  else some fun j =>
    let place := u64 (v.partitionOffset + (bgdTable v + j / bgdSize * bgdSize : ℕ))
    if num * bgdSize ≤ j then none
    else if place < 2 ^ 63 ∧ place + j % bgdSize < v.disk.size then
      some (v.disk.byte (place + j % bgdSize))
    else (h.malloc (num * bgdSize))[j]?

/-- `*s_offset`. -/
def bgdOffset (v : Volume) (i : ℕ) : ℕ :=
  u64 (v.partitionOffset + (bgdTable v + i * bgdSize : ℕ)) % ext4BlockSize v.superblock % 2 ^ 32

/-- The next descriptor with its sector and its offset, if there is one, and the counter. -/
def ext4NextBlockGroupDescriptor (v : Volume) (cache : Buffer) (i : ℕ) :
    Option (Option (BlockGroupDescriptor × ℕ × ℕ) × ℕ) :=
  if i < ext4NumBlockGroups v.superblock then do
    let bgd ← bgdAt cache i
    some (some (bgd, bgdSector v i, bgdOffset v i), (i + 1) % 2 ^ 32)
  else some (none, i)

def ext4SerializeBgdSectors (h : Heap) (v : Volume) (bgd : BlockGroupDescriptor)
    (bson : BsonInfo) : Option BsonInfo :=
  serializeAll h bson
    [int64Kv "block_bitmap_sector_start" (blockSector v bgd.bgBlockBitmapLo 0),
      int64Kv "inode_bitmap_sector_start" (blockSector v bgd.bgInodeBitmapLo 0),
      int64Kv "inode_table_sector_start" (blockSector v bgd.bgInodeTableLo 0)]

/-- What the stack holds in `v_bgd`, which no one sets: a type that is none of BSON's, for which
`serialize_element` only looks for room, or one that is, with what its pointers lead to. -/
inductive Leftover where
  | unknown
  | kv (value : BsonKv)

def serializeLeftover (h : Heap) (bson : BsonInfo) : Leftover → Option BsonInfo
  | .unknown => checkSize h bson 1
  | .kv value => bsonSerialize h bson value

def bsonReset (b : BsonInfo) : BsonInfo := { b with position := 0 }

structure BgdState where
  i : ℕ
  bson : BsonInfo
  out : Output

section Serialize

variable (h : Heap) (v : Volume) (leftover : Leftover) (cache : Buffer)

def serializeBgd (bgd : BlockGroupDescriptor) (sector offset : ℕ) (bson : BsonInfo) :
    Option BsonInfo := do
  let bson ← bsonSerialize h bson (stringKv "type" (ascii "bgd"))
  let bson ← serializeLeftover h bson leftover
  let bson ← serializeAll h bson [int32Kv "sector" sector, int32Kv "offset" offset]
  ext4SerializeBgdSectors h v bgd bson

/-- The loop of `ext4_serialize_bgds`, which a sector 0 ends like the last descriptor. -/
def ext4SerializeBgdsStep (s : BgdState) : Option (BgdState ⊕ ℕ × Output) := do
  let (next, i) ← ext4NextBlockGroupDescriptor v cache s.i
  match next with
  | none => some (.inr (i, s.out))
  | some (bgd, sector, offset) =>
    if sector = 0 then some (.inr (i, s.out))
    else
      let bits := record v s.out.bits (sector :: bgdSectors v bgd)
      let bson ← serializeBgd h v leftover bgd sector offset s.bson
      let finished ← bsonFinalize h bson
      some (.inl ⟨i, bsonReset finished, Output.write ⟨bits, s.out.written⟩ finished⟩)

def Ext4SerializeBgds (i : ℕ) (out : Output) (r : ℕ × Output) : Prop :=
  Loop.Ends (ext4SerializeBgdsStep h v leftover cache) ⟨i, bsonInit h, out⟩ r

end Serialize

/-! ## The descriptors on the disk -/

def sectorOfBlock (v : Volume) (block : ℕ) : ℕ :=
  (((block * ext4BlockSize v.superblock : ℕ) + v.partitionOffset) / 512).toNat

def diskField (disk : Disk) (place width : ℕ) : ℕ :=
  leNat ((List.range width).map fun i => disk.byte (place + i))

def descriptorPlace (v : Volume) (i : ℕ) : ℕ :=
  (v.partitionOffset + (bgdTable v + i * bgdSize : ℕ)).toNat

def groupDescriptor (v : Volume) (i : ℕ) : BlockGroupDescriptor :=
  ⟨diskField v.disk (descriptorPlace v i) 4, diskField v.disk (descriptorPlace v i + 4) 4,
    diskField v.disk (descriptorPlace v i + 8) 4⟩

def bgdElements (v : Volume) (i : ℕ) : List (Bson.Key × Value) :=
  [(keyNamed "sector" (by decide), int32Of (bgdSector v i)),
    (keyNamed "offset" (by decide), int32Of (bgdOffset v i)),
    (keyNamed "block_bitmap_sector_start" (by decide),
      int64Of (sectorOfBlock v (groupDescriptor v i).bgBlockBitmapLo)),
    (keyNamed "inode_bitmap_sector_start" (by decide),
      int64Of (sectorOfBlock v (groupDescriptor v i).bgInodeBitmapLo)),
    (keyNamed "inode_table_sector_start" (by decide),
      int64Of (sectorOfBlock v (groupDescriptor v i).bgInodeTableLo))]

def bgdType : Bson.Key × Value := (keyNamed "type" type_noNul, .string (ascii "bgd"))

def bgdBody (v : Volume) (junk : List UInt8) (i : ℕ) : List UInt8 :=
  (Document.ofElements [bgdType]).body ++ (junk ++ (Document.ofElements (bgdElements v i)).body)

/-- The document of a group; `junk` is what `v_bgd` adds to it. -/
def bgdDocument (v : Volume) (junk : List UInt8) (i : ℕ) : List UInt8 := frame (bgdBody v junk i)

/-- A file system whose descriptors are on the disk, with a `v_bgd` that `bson_serialize`
survives. -/
structure FileSystem (h : Heap) where
  volume : Volume
  leftover : Leftover
  junk : List UInt8
  survives : ∀ b, Holds b (Document.ofElements [bgdType]).body →
    ∃ b', serializeLeftover h b leftover = some b' ∧
      Holds b' ((Document.ofElements [bgdType]).body ++ junk)
  room : junk.length + 256 ≤ maxSize
  grouped : 0 < volume.superblock.sBlocksPerGroup
  blockSize : volume.superblock.sLogBlockSize ≤ 19
  offset : 0 ≤ volume.partitionOffset
  table : volume.partitionOffset +
    (bgdTable volume + ext4NumBlockGroups volume.superblock * bgdSize : ℕ) ≤ volume.disk.size
  size : volume.disk.size < 2 ^ 63

/-- The descriptors of a file system can be read from its disk. -/
structure OnDisk (v : Volume) : Prop where
  offset : 0 ≤ v.partitionOffset
  table : v.partitionOffset + (bgdTable v + ext4NumBlockGroups v.superblock * bgdSize : ℕ) ≤
    v.disk.size
  size : v.disk.size < 2 ^ 63

section Descriptors

variable {v : Volume}

theorem OnDisk.place (hv : OnDisk v) {i : ℕ} (hi : i < ext4NumBlockGroups v.superblock) :
    u64 (v.partitionOffset + (bgdTable v + i * bgdSize : ℕ)) = descriptorPlace v i ∧
      descriptorPlace v i + bgdSize ≤ v.disk.size := by
  have h0 := hv.offset
  have htable := hv.table
  have hsize := hv.size
  have hmul : (i + 1) * bgdSize ≤ ext4NumBlockGroups v.superblock * bgdSize :=
    Nat.mul_le_mul_right _ hi
  rw [Nat.succ_mul] at hmul
  unfold descriptorPlace u64
  omega

theorem OnDisk.cache_field (hv : OnDisk v) {h : Heap} {cache : Buffer}
    (hcache : ext4CacheBgds h v = some cache) {i o w : ℕ}
    (hi : i < ext4NumBlockGroups v.superblock) (hw : o + w ≤ bgdSize) :
    field cache (i * bgdSize + o) w = some (diskField v.disk (descriptorPlace v i + o) w) := by
  obtain ⟨hplace, hin⟩ := hv.place hi
  have hsize := hv.size
  have hbyte : ∀ j < w, cache (i * bgdSize + o + j) =
      some (v.disk.byte (descriptorPlace v i + o + j)) := by
    intro j hj
    rw [ext4CacheBgds] at hcache
    dsimp only at hcache
    split at hcache
    · cases hcache
    rw [← Option.some.inj hcache]
    have hmul : (i + 1) * bgdSize ≤ ext4NumBlockGroups v.superblock * bgdSize :=
      Nat.mul_le_mul_right _ hi
    rw [Nat.succ_mul] at hmul
    have hdiv : (i * bgdSize + o + j) / bgdSize = i := by
      rw [Nat.add_assoc, Nat.add_comm, Nat.add_mul_div_right _ _ (by decide),
        Nat.div_eq_of_lt (by omega), Nat.zero_add]
    have hmod : (i * bgdSize + o + j) % bgdSize = o + j := by
      rw [Nat.add_assoc, Nat.add_comm, Nat.add_mul_mod_self_right, Nat.mod_eq_of_lt (by omega)]
    dsimp only
    rw [hdiv, hmod, hplace, if_neg (by omega), if_pos (by omega), Nat.add_assoc]
  have hmap := mapM_congr_mem fun j hj => hbyte j (List.mem_range.mp hj)
  rw [field, hmap]
  exact congrArg (Option.map leNat) (List.mapM_pure ..)

theorem OnDisk.bgdAt_cache (hv : OnDisk v) {h : Heap} {cache : Buffer}
    (hcache : ext4CacheBgds h v = some cache) {i : ℕ}
    (hi : i < ext4NumBlockGroups v.superblock) : bgdAt cache i = some (groupDescriptor v i) := by
  have h0 := hv.cache_field (o := 0) (w := 4) hcache hi (by decide)
  have h4 := hv.cache_field (o := 4) (w := 4) hcache hi (by decide)
  have h8 := hv.cache_field (o := 8) (w := 4) hcache hi (by decide)
  rw [Nat.add_zero, Nat.add_zero] at h0
  rw [bgdAt, Loop.bind_of_some h0, Loop.bind_of_some h4, Loop.bind_of_some h8]
  rfl

variable {h : Heap} (fs : FileSystem h)

def FileSystem.numGroups : ℕ := ext4NumBlockGroups fs.volume.superblock

theorem FileSystem.onDisk : OnDisk fs.volume := ⟨fs.offset, fs.table, fs.size⟩

theorem ext4BlockSize_of_le {v : Volume} (hlog : v.superblock.sLogBlockSize ≤ 19) :
    ext4BlockSize v.superblock = 512 * 2 ^ (v.superblock.sLogBlockSize + 1) ∧
      ext4BlockSize v.superblock ≤ 2 ^ 29 := by
  have hpow : 2 ^ v.superblock.sLogBlockSize ≤ 2 ^ 19 := Nat.pow_le_pow_right (by decide) hlog
  rw [ext4BlockSize, Nat.pow_succ]
  omega

theorem diskField_lt (disk : Disk) (place width : ℕ) : diskField disk place width < 256 ^ width := by
  have hlt := leNat_lt ((List.range width).map fun i => disk.byte (place + i))
  rw [List.length_map, List.length_range] at hlt
  exact hlt

theorem blockSector_eq {v : Volume} (hlog : v.superblock.sLogBlockSize ≤ 19)
    (h0 : 0 ≤ v.partitionOffset) (hlt : v.partitionOffset < 2 ^ 63) {block : ℕ}
    (hb : block < 2 ^ 32) : blockSector v block 0 = sectorOfBlock v block := by
  obtain ⟨-, hbs⟩ := ext4BlockSize_of_le hlog
  have hmul : block * ext4BlockSize v.superblock ≤ 2 ^ 32 * 2 ^ 29 := Nat.mul_le_mul hb.le hbs
  rw [blockSector, sectorOfBlock, Nat.add_zero, sectorSize]
  generalize block * ext4BlockSize v.superblock = n at hmul
  change u64 ((n : ℤ) + v.partitionOffset) / 512 = _
  unfold u64
  omega

theorem FileSystem.offset_lt (fs : FileSystem h) : fs.volume.partitionOffset < 2 ^ 63 := by
  have htable := fs.table
  have hsize := fs.size
  omega

end Descriptors

section Step

variable {h : Heap} {fs : FileSystem h}

theorem bgd_encodes (h : Heap) (fs : FileSystem h) (i : ℕ) :
    List.Forall₂ (Encodes h)
      [int32Kv "sector" (bgdSector fs.volume i), int32Kv "offset" (bgdOffset fs.volume i),
        int64Kv "block_bitmap_sector_start"
          (blockSector fs.volume (groupDescriptor fs.volume i).bgBlockBitmapLo 0),
        int64Kv "inode_bitmap_sector_start"
          (blockSector fs.volume (groupDescriptor fs.volume i).bgInodeBitmapLo 0),
        int64Kv "inode_table_sector_start"
          (blockSector fs.volume (groupDescriptor fs.volume i).bgInodeTableLo 0)]
      (bgdElements fs.volume i) := by
  have hsector : ∀ place, blockSector fs.volume (diskField fs.volume.disk place 4) 0 =
      sectorOfBlock fs.volume (diskField fs.volume.disk place 4) := fun place =>
    blockSector_eq fs.blockSize fs.offset fs.offset_lt (diskField_lt _ place 4)
  rw [bgdElements, groupDescriptor]
  dsimp only
  rw [hsector, hsector, hsector]
  exact .cons (int32Kv_encodes _ _ _ _) <| .cons (int32Kv_encodes _ _ _ _) <|
    .cons (int64Kv_encodes _ _ _ _) <| .cons (int64Kv_encodes _ _ _ _) <|
    .cons (int64Kv_encodes _ _ _ _) .nil

theorem bgdBody_length (fs : FileSystem h) (i : ℕ) :
    (bgdBody fs.volume fs.junk i).length + 5 ≤ maxSize := by
  have htype : (Document.ofElements [bgdType]).body.length = 14 := by decide
  have helements : (Document.ofElements (bgdElements fs.volume i)).body.length = 128 := by
    simp only [bgdElements, body_cons, List.length_append, elementBytes, Value.payload,
      keyNamed, int64Of, int32Of, Vector.length_toList, List.length_singleton]
    rfl
  have hroom := fs.room
  rw [bgdBody, List.length_append, List.length_append, htype, helements]
  omega

theorem serializeBgd_holds (fs : FileSystem h) (i : ℕ) {bson : BsonInfo} (hb : Holds bson []) :
    ∃ bson', serializeBgd h fs.volume fs.leftover (groupDescriptor fs.volume i)
        (bgdSector fs.volume i) (bgdOffset fs.volume i) bson = some bson' ∧
      Holds bson' (bgdBody fs.volume fs.junk i) := by
  have hroom := bgdBody_length fs i
  rw [bgdBody, List.length_append, List.length_append] at hroom
  obtain ⟨b₁, h₁, hb₁⟩ := stringKv_encodes h "type" (by decide) (ascii "bgd") bson [] hb (by decide)
  rw [List.nil_append, ← body_singleton] at hb₁
  obtain ⟨b₂, h₂, hb₂⟩ := fs.survives b₁ hb₁
  obtain ⟨b₃, h₃, hb₃⟩ := serializeAll_appends h (bgd_encodes h fs i) b₂ _ hb₂
    (by rw [List.length_append]; omega)
  rw [List.append_assoc] at hb₃
  refine ⟨b₃, ?_, hb₃⟩
  rw [serializeBgd, Loop.bind_of_some h₁, Loop.bind_of_some h₂]
  exact (List.foldlM_append ..).symm.trans h₃

theorem bsonReset_holds {b : BsonInfo} {w : List UInt8} (hb : Holds b w) :
    Holds (bsonReset b) [] :=
  ⟨rfl, rfl, hb.size, hb.power⟩

variable {cache : Buffer} {s : BgdState}

theorem step_done (hi : fs.numGroups ≤ s.i) :
    ext4SerializeBgdsStep h fs.volume fs.leftover cache s = some (.inr (s.i, s.out)) := by
  have hnext : ext4NextBlockGroupDescriptor fs.volume cache s.i = some (none, s.i) :=
    if_neg (Nat.not_lt.mpr hi)
  rw [ext4SerializeBgdsStep, Loop.bind_of_some hnext]

theorem next_of_lt (hcache : ext4CacheBgds h fs.volume = some cache) {i : ℕ}
    (hi : i < fs.numGroups) :
    ext4NextBlockGroupDescriptor fs.volume cache i =
      some (some (groupDescriptor fs.volume i, bgdSector fs.volume i, bgdOffset fs.volume i),
        (i + 1) % 2 ^ 32) := by
  rw [ext4NextBlockGroupDescriptor, if_pos (show i < ext4NumBlockGroups _ from hi),
    Loop.bind_of_some (fs.onDisk.bgdAt_cache hcache hi)]

theorem step_sectorZero (hcache : ext4CacheBgds h fs.volume = some cache) (hi : s.i < fs.numGroups)
    (hzero : bgdSector fs.volume s.i = 0) :
    ext4SerializeBgdsStep h fs.volume fs.leftover cache s =
      some (.inr ((s.i + 1) % 2 ^ 32, s.out)) := by
  rw [ext4SerializeBgdsStep, Loop.bind_of_some (next_of_lt hcache hi)]
  exact if_pos hzero

theorem step_group (hcache : ext4CacheBgds h fs.volume = some cache) (hi : s.i < fs.numGroups)
    (hsector : bgdSector fs.volume s.i ≠ 0) (hb : Holds s.bson []) :
    ∃ bits bson', Holds bson' [] ∧ ext4SerializeBgdsStep h fs.volume fs.leftover cache s =
      some (.inl ⟨(s.i + 1) % 2 ^ 32, bson',
        ⟨bits, s.out.written ++ [bgdDocument fs.volume fs.junk s.i]⟩⟩) := by
  have hroom := bgdBody_length fs s.i
  obtain ⟨bson, hserialize, hbson⟩ := serializeBgd_holds fs s.i hb
  obtain ⟨finished, hf, hfin⟩ := bsonFinalize_holds h hbson hroom
  refine ⟨record fs.volume s.out.bits (bgdSector fs.volume s.i ::
    bgdSectors fs.volume (groupDescriptor fs.volume s.i)), bsonReset finished,
    bsonReset_holds hfin, ?_⟩
  rw [ext4SerializeBgdsStep, Loop.bind_of_some (next_of_lt hcache hi)]
  refine (if_neg hsector).trans ?_
  rw [Loop.bind_of_some hserialize, Loop.bind_of_some hf, Output.write, bsonWritef,
    hfin.position, hfin.contents]
  rfl

end Step

/-- The groups from `i` on up to the first one whose descriptor is said to be in sector 0. -/
def groupsFrom {h : Heap} (fs : FileSystem h) (i : ℕ) : List ℕ :=
  (List.range' i (fs.numGroups - i)).takeWhile fun k => bgdSector fs.volume k ≠ 0

section Run

variable {h : Heap} {fs : FileSystem h}

theorem groupsFrom_of_lt {i : ℕ} (hi : i < fs.numGroups) :
    groupsFrom fs i =
      if bgdSector fs.volume i ≠ 0 then i :: groupsFrom fs (i + 1) else [] := by
  have hrange : List.range' i (fs.numGroups - i) =
      i :: List.range' (i + 1) (fs.numGroups - (i + 1)) := by
    rw [← List.range'_succ]
    congr 1
    omega
  rw [groupsFrom, hrange, List.takeWhile_cons]
  by_cases hne : bgdSector fs.volume i ≠ 0
  · rw [if_pos (decide_eq_true hne), if_pos hne]
    rfl
  · rw [if_neg (by rw [decide_eq_true_iff]; exact hne), if_neg hne]

theorem groupsFrom_of_ge {i : ℕ} (hi : fs.numGroups ≤ i) : groupsFrom fs i = [] := by
  rw [groupsFrom, Nat.sub_eq_zero_of_le hi]
  rfl

/-- One call of `ext4_serialize_bgds`: where the counter stands decides what it writes. -/
theorem serializeBgds_ends {cache : Buffer} (hcache : ext4CacheBgds h fs.volume = some cache)
    (hnum : fs.numGroups < 2 ^ 32) :
    ∀ (n i : ℕ) (bson : BsonInfo) (out : Output), fs.numGroups - i = n → Holds bson [] →
      ∃ i' bits, Loop.Ends (ext4SerializeBgdsStep h fs.volume fs.leftover cache) ⟨i, bson, out⟩
          (i', ⟨bits, out.written ++
            (groupsFrom fs i).map (bgdDocument fs.volume fs.junk)⟩) ∧
        ((∀ k, i ≤ k → k < fs.numGroups → bgdSector fs.volume k ≠ 0) →
          i' = max i fs.numGroups) := by
  intro n
  induction n with
  | zero =>
    intro i bson out hn _
    have hi : fs.numGroups ≤ i := by omega
    rw [groupsFrom_of_ge hi, List.map_nil, List.append_nil]
    exact ⟨i, out.bits, .leave (step_done hi), fun _ => (max_eq_left hi).symm⟩
  | succ n ih =>
    intro i bson out hn hb
    have hi : i < fs.numGroups := by omega
    rw [groupsFrom_of_lt hi]
    by_cases hsector : bgdSector fs.volume i ≠ 0
    · obtain ⟨bits, bson', hb', hstep⟩ := step_group (s := ⟨i, bson, out⟩) hcache hi hsector hb
      rw [Nat.mod_eq_of_lt (show i + 1 < 2 ^ 32 by omega)] at hstep
      obtain ⟨i', bits', hends, hcount⟩ := ih (i + 1) bson'
        ⟨bits, out.written ++ [bgdDocument fs.volume fs.junk i]⟩ (by omega) hb'
      rw [if_pos hsector, List.map_cons]
      refine ⟨i', bits', ?_, fun hall => ?_⟩
      · rw [List.append_cons]
        exact .again hstep hends
      · rw [hcount fun k hk => hall k (by omega)]
        omega
    · rw [if_neg hsector, List.map_nil, List.append_nil]
      refine ⟨_, out.bits, .leave (step_sectorZero (s := ⟨i, bson, out⟩) hcache hi
        (not_not.mp hsector)), fun hall => absurd (not_not.mp hsector) (hall i le_rfl hi)⟩

theorem groupsFrom_length (fs : FileSystem h) (i : ℕ) :
    (groupsFrom fs i).length ≤ fs.numGroups - i :=
  (List.takeWhile_prefix _).length_le.trans_eq List.length_range'

def FileSystem.documents (fs : FileSystem h) : List (List UInt8) :=
  (List.range fs.numGroups).map (bgdDocument fs.volume fs.junk)

/-- Nothing is left out just when there is nothing to write or the counter starts at 0. -/
theorem documents_iff (fs : FileSystem h) (i : ℕ) :
    (groupsFrom fs i).map (bgdDocument fs.volume fs.junk) = fs.documents ↔
      fs.numGroups = 0 ∨ i = 0 ∧ ∀ k < fs.numGroups, bgdSector fs.volume k ≠ 0 := by
  constructor
  · intro heq
    have hlen := congrArg List.length heq
    rw [FileSystem.documents, List.length_map, List.length_map, List.length_range] at hlen
    have hle := groupsFrom_length fs i
    by_cases h0 : fs.numGroups = 0
    · exact .inl h0
    obtain rfl : i = 0 := by omega
    refine .inr ⟨rfl, fun k hk => ?_⟩
    have hall : groupsFrom fs 0 = List.range' 0 (fs.numGroups - 0) :=
      (List.takeWhile_prefix _).eq_of_length (by rw [List.length_range']; exact hlen)
    have hmem : k ∈ groupsFrom fs 0 := by
      rw [hall, List.mem_range'_1]
      omega
    rw [groupsFrom] at hmem
    exact of_decide_eq_true (List.mem_takeWhile_imp hmem :)
  · rintro (h0 | ⟨rfl, hall⟩)
    · rw [groupsFrom_of_ge (by omega), FileSystem.documents, h0]
      rfl
    · have hself : groupsFrom fs 0 = List.range fs.numGroups := by
        rw [groupsFrom, Nat.sub_zero, ← List.range_eq_range', List.takeWhile_eq_self_iff]
        exact fun k hk => decide_eq_true (hall k (List.mem_range.mp hk))
      rw [hself, FileSystem.documents]

end Run

/-- The file systems of a disk are crawled one after the other, from a state of the counter on.
What each call of `ext4_serialize_bgds` writes is kept apart; `out` is all that was written
before it. -/
inductive CrawlBgds (h : Heap) : ℕ → List (FileSystem h) → List (List (List UInt8)) → Prop where
  | nil (i : ℕ) : CrawlBgds h i [] []
  | cons {i i' : ℕ} {fs : FileSystem h} {rest : List (FileSystem h)} {cache : Buffer}
      {out : Output} {bits : Bitarray} {docs : List (List UInt8)} {docss : List (List (List UInt8))}
      (cached : ext4CacheBgds h fs.volume = some cache)
      (serialize : Ext4SerializeBgds h fs.volume fs.leftover cache i out
        (i', ⟨bits, out.written ++ docs⟩))
      (tail : CrawlBgds h i' rest docss) : CrawlBgds h i (fs :: rest) (docs :: docss)

/-- Each file system has one document for each of its groups, in their order. -/
def GroupsIndexed (h : Heap) (fss : List (FileSystem h)) : Prop :=
  CrawlBgds h 0 fss (fss.map FileSystem.documents)

section Crawl

variable {h : Heap} {fs : FileSystem h} {rest : List (FileSystem h)} {i : ℕ}
  {docs : List (List UInt8)} {docss : List (List (List UInt8))}

theorem cache_some_iff {v : Volume} (hgrouped : 0 < v.superblock.sBlocksPerGroup) :
    (∃ cache, ext4CacheBgds h v = some cache) ↔ ext4NumBlockGroups v.superblock < 2 ^ 32 := by
  rw [ext4CacheBgds]
  dsimp only
  constructor
  · rintro ⟨cache, hcache⟩
    split at hcache
    · cases hcache
    · rename_i hnum
      exact Nat.lt_of_not_le fun hle => hnum (.inr hle)
  · intro hnum
    exact ⟨_, if_neg (not_or.mpr ⟨hgrouped.ne', Nat.not_le.mpr hnum⟩)⟩

theorem CrawlBgds.step (hcrawl : CrawlBgds h i (fs :: rest) (docs :: docss)) :
    fs.numGroups < 2 ^ 32 ∧ docs = (groupsFrom fs i).map (bgdDocument fs.volume fs.junk) ∧
      ∃ i', ((∀ k, i ≤ k → k < fs.numGroups → bgdSector fs.volume k ≠ 0) →
        i' = max i fs.numGroups) ∧ CrawlBgds h i' rest docss := by
  cases hcrawl with
  | @cons _ i' _ _ cache out bits _ _ cached serialize tail =>
    have hnum : fs.numGroups < 2 ^ 32 := (cache_some_iff fs.grouped).mp ⟨cache, cached⟩
    obtain ⟨i₁, bits₁, hends, hcount⟩ := serializeBgds_ends cached hnum _ i (bsonInit h) out rfl
      (bsonInit_holds h)
    obtain ⟨hi, hout⟩ := Prod.mk.inj (serialize.unique hends)
    obtain ⟨-, hwritten⟩ := Output.mk.inj hout
    exact ⟨hnum, List.append_cancel_left hwritten, i', hi ▸ hcount, tail⟩

theorem CrawlBgds.cons_groups (hnum : fs.numGroups < 2 ^ 32)
    (hall : ∀ k, i ≤ k → k < fs.numGroups → bgdSector fs.volume k ≠ 0)
    (tail : CrawlBgds h (max i fs.numGroups) rest docss) :
    CrawlBgds h i (fs :: rest)
      ((groupsFrom fs i).map (bgdDocument fs.volume fs.junk) :: docss) := by
  obtain ⟨cache, cached⟩ := (cache_some_iff fs.grouped).mpr hnum
  obtain ⟨i', bits, hends, hcount⟩ := serializeBgds_ends cached hnum _ i (bsonInit h)
    ⟨Bitarray.init h 0, []⟩ rfl (bsonInit_holds h)
  rw [hcount hall] at hends
  exact .cons cached hends tail

theorem crawl_iff (fss : List (FileSystem h)) (i : ℕ) :
    CrawlBgds h i fss (fss.map FileSystem.documents) ↔
      (∀ fs ∈ fss, fs.numGroups < 2 ^ 32 ∧ ∀ k < fs.numGroups, bgdSector fs.volume k ≠ 0) ∧
        (0 < i → ∀ fs ∈ fss, fs.numGroups = 0) ∧
        fss.Pairwise fun a b => a.numGroups = 0 ∨ b.numGroups = 0 := by
  induction fss generalizing i with
  | nil => exact iff_of_true (.nil i) ⟨by simp, by simp, .nil⟩
  | cons fs rest ih =>
    rw [List.map_cons]
    constructor
    · intro hcrawl
      obtain ⟨hnum, hdocs, i', hcount, tail⟩ := hcrawl.step
      have hcond := (documents_iff fs i).mp hdocs.symm
      have hsectors : ∀ k < fs.numGroups, bgdSector fs.volume k ≠ 0 := fun k hk =>
        (hcond.resolve_left (Nat.ne_zero_of_lt hk)).2 k hk
      rw [hcount fun k _ hk => hsectors k hk, ih] at tail
      obtain ⟨hrest, hlater, hpair⟩ := tail
      refine ⟨?_, fun hi => ?_, .cons (fun b hb => ?_) hpair⟩
      · rw [List.forall_mem_cons]
        exact ⟨⟨hnum, hsectors⟩, hrest⟩
      · rw [List.forall_mem_cons]
        exact ⟨hcond.resolve_right fun hc => hi.ne' hc.1, hlater (by omega)⟩
      · by_cases h0 : fs.numGroups = 0
        · exact .inl h0
        · exact .inr (hlater (by omega) b hb)
    · rintro ⟨hall, hi, hpair⟩
      rw [List.forall_mem_cons] at hall
      obtain ⟨⟨hnum, hsectors⟩, hrest⟩ := hall
      obtain ⟨hfirst, hpair⟩ := List.pairwise_cons.mp hpair
      have hdocs := (documents_iff fs i).mpr (by
        by_cases h0 : fs.numGroups = 0
        · exact .inl h0
        · refine .inr ⟨?_, hsectors⟩
          by_contra hne
          exact h0 (hi (Nat.pos_of_ne_zero hne) fs List.mem_cons_self))
      rw [← hdocs]
      refine .cons_groups hnum (fun k _ => hsectors k) ((ih _).mpr ⟨hrest, fun hpos => ?_, hpair⟩)
      intro fs' hmem
      rcases lt_max_iff.mp hpos with hpos | hpos
      · exact hi hpos fs' (List.mem_cons_of_mem fs hmem)
      · exact (hfirst fs' hmem).resolve_left hpos.ne'

end Crawl

/-- Every group is indexed just when no more than one file system has groups, no counter
overflows, and no descriptor is said to lie in sector 0. -/
theorem groups_indexed_iff (h : Heap) (fss : List (FileSystem h)) :
    GroupsIndexed h fss ↔
      (∀ fs ∈ fss, fs.numGroups < 2 ^ 32 ∧ ∀ k < fs.numGroups, bgdSector fs.volume k ≠ 0) ∧
        fss.Pairwise fun a b => a.numGroups = 0 ∨ b.numGroups = 0 := by
  rw [GroupsIndexed, crawl_iff]
  exact and_congr_right fun _ => and_iff_right fun h0 => absurd h0 (lt_irrefl 0)

def oneGroupVolume : Volume := ⟨⟨65536, fun _ => 0⟩, 1024, ⟨0, 8, 0, 1, 8192, 8⟩⟩

/-- A file system with one block group and blocks of 1024 bytes. -/
def oneGroup : FileSystem zeroHeap where
  volume := oneGroupVolume
  leftover := .unknown
  junk := []
  survives := fun b hb => by
    obtain ⟨b', hc, hb', -⟩ := checkSize_holds zeroHeap (n := 1) hb (by decide)
    exact ⟨b', hc, (List.append_nil _).symm ▸ hb'⟩
  room := by decide
  grouped := by decide
  blockSize := by decide
  offset := by decide
  table := by decide
  size := by decide

theorem groups_indexed_oneGroup : GroupsIndexed zeroHeap [oneGroup] := by
  refine (groups_indexed_iff zeroHeap [oneGroup]).mpr ⟨?_, List.pairwise_singleton ..⟩
  rw [List.forall_mem_singleton]
  decide

/-- Nothing is written for the second of two file systems. -/
theorem second_groups_skipped :
    CrawlBgds zeroHeap 0 [oneGroup, oneGroup] [oneGroup.documents, []] ∧
      oneGroup.documents.length = 1 ∧ ¬ GroupsIndexed zeroHeap [oneGroup, oneGroup] := by
  have hsectors : ∀ k < oneGroup.numGroups, bgdSector oneGroup.volume k ≠ 0 := by decide
  have hsecond : CrawlBgds zeroHeap 1 [oneGroup] [[]] :=
    .cons_groups (by decide) (fun k _ => hsectors k) (.nil _)
  refine ⟨.cons_groups (by decide) (fun k _ => hsectors k) hsecond, rfl, ?_⟩
  rw [GroupsIndexed, crawl_iff, List.pairwise_pair]
  exact fun hall => absurd hall.2.2 (by decide)

end GammaRay.Ext4
