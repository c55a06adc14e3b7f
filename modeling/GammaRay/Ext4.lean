import GammaRay.Bitarray
import GammaRay.BsonEncoder
import GammaRay.Decimal
import GammaRay.Loop

set_option autoImplicit false

/-!
# Extent-mapped blocks in the crawler

The three walkers of `ext4.c` over an extent tree: one reads a block, one finds its
sector, one records the sector in a document. They are separate copies in the source and
separate definitions here. Each is the body of its loop; what it comes to is the relation
`Loop.Ends`, since a damaged tree can keep a walker busy for ever.
-/
namespace GammaRay.Ext4
open Bytes Decimal Bson

/-- A disk image. A read past its end comes back short. -/
structure Disk where
  size : ℕ
  byte : ℕ → UInt8

/-- A buffer of the program, as far as its bytes are known. -/
abbrev Buffer := ℕ → Option UInt8

def blank : Buffer := fun _ => none

/-- A little-endian field of a packed structure. -/
def field (buf : Buffer) (offset width : ℕ) : Option ℕ :=
  ((List.range width).mapM fun i => buf (offset + i)).map leNat

theorem mapM_length {α β : Type} {f : α → Option β} {l : List α} {bs : List β}
    (h : l.mapM f = some bs) : bs.length = l.length := by
  induction l generalizing bs with
  | nil =>
    rw [← Option.some.inj h]
    rfl
  | cons x l ih =>
    simp only [List.mapM_cons, Option.pure_def, Option.bind_eq_bind, Option.bind_eq_some_iff,
      Option.some.injEq] at h
    obtain ⟨y, -, ys, hys, rfl⟩ := h
    rw [List.length_cons, List.length_cons, ih hys]

theorem mapM_congr_mem {α β : Type} {f g : α → Option β} {l : List α} (h : ∀ i ∈ l, f i = g i) :
    l.mapM f = l.mapM g := by
  induction l with
  | nil => rfl
  | cons i l ih =>
    rw [List.mapM_cons, List.mapM_cons, h i List.mem_cons_self,
      ih fun j hj => h j (List.mem_cons_of_mem i hj)]

theorem mapM_mono {α β : Type} {f g : α → Option β} (h : ∀ i x, f i = some x → g i = some x)
    {l : List α} {y : List β} (hl : l.mapM f = some y) : l.mapM g = some y := by
  induction l generalizing y with
  | nil => exact hl
  | cons i l ih =>
    rw [List.mapM_cons] at hl ⊢
    obtain ⟨x, hx, hl⟩ := Option.bind_eq_some_iff.mp hl
    obtain ⟨z, hz, hl⟩ := Option.bind_eq_some_iff.mp hl
    rw [h i x hx, ih hz]
    exact hl

theorem mapM_full {α β : Type} {f : α → Option β} {l : List α} (h : ∀ i ∈ l, ∃ x, f i = some x) :
    ∃ y, l.mapM f = some y ∧ y.length = l.length := by
  induction l with
  | nil => exact ⟨[], rfl, rfl⟩
  | cons i l ih =>
    obtain ⟨x, hx⟩ := h i List.mem_cons_self
    obtain ⟨y, hy, hlen⟩ := ih fun j hj => h j (List.mem_cons_of_mem i hj)
    refine ⟨x :: y, ?_, by rw [List.length_cons, List.length_cons, hlen]⟩
    rw [List.mapM_cons, hx, hy]
    rfl

theorem field_lt {buf : Buffer} {offset width n : ℕ} (h : field buf offset width = some n) :
    n < 256 ^ width := by
  unfold field at h
  rw [Option.map_eq_some_iff] at h
  obtain ⟨bytes, hb, rfl⟩ := h
  have hlen : bytes.length = width := by
    rw [mapM_length hb, List.length_range]
  rw [← hlen]
  exact leNat_lt bytes

structure Superblock where
  sLogBlockSize : ℕ
  sBlocksCountLo : ℕ
  sBlocksCountHi : ℕ
  sFirstDataBlock : ℕ
  sBlocksPerGroup : ℕ
  sInodesPerGroup : ℕ
  deriving DecidableEq, Repr

structure Inode where
  iMode : ℕ
  iSizeLo : ℕ
  iSizeHigh : ℕ
  iFlags : ℕ
  iBlock : Vector UInt8 60
  deriving DecidableEq, Repr

structure ExtentHeader where
  ehEntries : ℕ
  ehDepth : ℕ
  deriving DecidableEq, Repr

structure Extent where
  eeBlock : ℕ
  eeLen : ℕ
  eeStartHi : ℕ
  eeStartLo : ℕ
  deriving DecidableEq, Repr

structure ExtentIdx where
  eiBlock : ℕ
  eiLeafLo : ℕ
  eiLeafHi : ℕ
  deriving DecidableEq, Repr

def extentHeader (buf : Buffer) : Option ExtentHeader := do
  some ⟨← field buf 2 2, ← field buf 6 2⟩

/-- Entry `i` behind the header, in either reading. -/
def extentAt (buf : Buffer) (i : ℕ) : Option Extent := do
  some ⟨← field buf (12 + 12 * i) 4, ← field buf (16 + 12 * i) 2, ← field buf (18 + 12 * i) 2,
    ← field buf (20 + 12 * i) 4⟩

def extentIdxAt (buf : Buffer) (i : ℕ) : Option ExtentIdx := do
  some ⟨← field buf (12 + 12 * i) 4, ← field buf (16 + 12 * i) 4, ← field buf (20 + 12 * i) 2⟩

def sectorSize : ℕ := 512

def ext4BlockSize (superblock : Superblock) : ℕ := 1024 * 2 ^ superblock.sLogBlockSize % 2 ^ 64

def ext4BlockOffset (blockNum : ℕ) (superblock : Superblock) : ℕ :=
  ext4BlockSize superblock * blockNum % 2 ^ 64

/-- A file system on a disk: what every function of the crawler is passed. -/
structure Volume where
  disk : Disk
  partitionOffset : ℤ
  superblock : Superblock

/-- `ext4_read_block` into a buffer. A failed seek leaves it alone, a short read leaves its
rest alone; the walkers look at neither result. -/
def ext4ReadBlock (v : Volume) (blockNum : ℕ) (buf : Buffer) : Buffer :=
  let offset := u64 (ext4BlockOffset blockNum v.superblock + v.partitionOffset)
  if 2 ^ 63 ≤ offset then buf
  else fun i =>
    if i < ext4BlockSize v.superblock ∧ offset + i < v.disk.size then
      some (v.disk.byte (offset + i))
    else buf i

def ext4ExtentStart (extent : Extent) : ℕ := extent.eeStartHi <<< 48 ||| extent.eeStartLo

def ext4ExtentIndexLeaf (idx : ExtentIdx) : ℕ := idx.eiLeafHi <<< 48 ||| idx.eiLeafLo

/-- `memcpy(buf, inode.i_block, 60)` into a buffer with nothing known in it. -/
def rootBuffer (inode : Inode) : Buffer := fun i => inode.iBlock.toList[i]?

/-- `(uint32_t) 2 << 31`. -/
def sentinel : ℕ := 2 <<< 31 % 2 ^ 32

/-- Whether an extent takes a block, with the sum in 32 bits. -/
def Extent.takes (extent : Extent) (blockNum : ℕ) : Bool :=
  extent.eeBlock ≤ blockNum && blockNum < (extent.eeBlock + extent.eeLen) % 2 ^ 32

/-! ## Reading a block -/

/-- The header is a copy here, taken when a node is read. -/
structure ReadState where
  buf : Buffer
  hdr : ExtentHeader
  i : ℕ
  idx : ExtentIdx

/-- How `ext4_read_extent_block` comes to its buffer. -/
inductive ReadResult where
  | block (p : ℕ) (buf : Buffer)
  | hole (buf : Buffer)

def zeroFill (v : Volume) (buf : Buffer) : Buffer :=
  fun i => if i < ext4BlockSize v.superblock then some 0 else buf i

def ext4ReadExtentStep (v : Volume) (blockNum : ℕ) (s : ReadState) :
    Option (ReadState ⊕ ReadResult) :=
  if s.i < s.hdr.ehEntries then
    if s.hdr.ehDepth ≠ 0 then do
      let idx2 ← extentIdxAt s.buf s.i
      if s.hdr.ehEntries = 1 then
        let buf := ext4ReadBlock v (ext4ExtentIndexLeaf idx2) s.buf
        let hdr ← extentHeader buf
        some (.inl ⟨buf, hdr, 0, { s.idx with eiBlock := sentinel }⟩)
      else if blockNum < idx2.eiBlock ∧ s.idx.eiBlock ≤ blockNum then
        let buf := ext4ReadBlock v (ext4ExtentIndexLeaf s.idx) s.buf
        let hdr ← extentHeader buf
        some (.inl ⟨buf, hdr, 0, { s.idx with eiBlock := sentinel }⟩)
      else some (.inl { s with i := s.i + 1, idx := idx2 })
    else do
      let extent ← extentAt s.buf s.i
      if extent.takes blockNum then
        let p := ext4ExtentStart extent + (blockNum - extent.eeBlock)
        some (.inr (.block p (ext4ReadBlock v p s.buf)))
      else some (.inl { s with i := s.i + 1 })
  else some (.inr (.hole (zeroFill v s.buf)))

/-- `ext4_read_extent_block` ends with this result. -/
def Ext4ReadExtentBlock (v : Volume) (blockNum : ℕ) (inode : Inode) (r : ReadResult) : Prop :=
  ∃ hdr, extentHeader (rootBuffer inode) = some hdr ∧
    Loop.Ends (ext4ReadExtentStep v blockNum) ⟨rootBuffer inode, hdr, 0, ⟨sentinel, 0, 0⟩⟩ r

/-! ## Finding a sector -/

/-- The header is looked up in the buffer on every round. -/
structure WalkState where
  buf : Buffer
  i : ℕ
  idx : ExtentIdx

def ext4SectorFromBlock (block : ℕ) (v : Volume) : ℕ :=
  u64 ((block * ext4BlockSize v.superblock : ℕ) + v.partitionOffset) / sectorSize

def ext4SectorExtentStep (v : Volume) (blockNum : ℕ) (s : WalkState) :
    Option (WalkState ⊕ ℕ) := do
  let hdr ← extentHeader s.buf
  if s.i < hdr.ehEntries then
    if hdr.ehDepth ≠ 0 then
      let idx2 ← extentIdxAt s.buf s.i
      if hdr.ehEntries = 1 then
        some (.inl ⟨ext4ReadBlock v (ext4ExtentIndexLeaf idx2) s.buf, 0,
          { s.idx with eiBlock := sentinel }⟩)
      else if blockNum < idx2.eiBlock ∧ s.idx.eiBlock ≤ blockNum then
        some (.inl ⟨ext4ReadBlock v (ext4ExtentIndexLeaf s.idx) s.buf, 0,
          { s.idx with eiBlock := sentinel }⟩)
      else some (.inl { s with i := s.i + 1, idx := idx2 })
    else
      let extent ← extentAt s.buf s.i
      if extent.takes blockNum then
        some (.inr (ext4SectorFromBlock (ext4ExtentStart extent + (blockNum - extent.eeBlock)) v))
      else some (.inl { s with i := s.i + 1 })
  else some (.inr 0)

def Ext4SectorExtentBlock (v : Volume) (blockNum : ℕ) (inode : Inode) (sector : ℕ) : Prop :=
  Loop.Ends (ext4SectorExtentStep v blockNum) ⟨rootBuffer inode, 0, ⟨sentinel, 0, 0⟩⟩ sector

/-! ## Recording a sector -/

/-- What the recording walker works on besides its own buffer. -/
structure Records where
  bits : Bitarray
  sectors : BsonInfo
  data : BsonInfo
  extents : BsonInfo

def freshRecords : Records :=
  ⟨Bitarray.init zeroHeap 64, bsonInit zeroHeap, bsonInit zeroHeap, bsonInit zeroHeap⟩

structure SerializeState where
  walk : WalkState
  records : Records

/-- `subtype` is what the stack holds in the field of `data_value` that no one sets. -/
structure Options where
  heap : Heap
  subtype : UInt8
  saveData : Bool
  saveExtents : Bool

/-- The entry for an index block, made when the block number is the key that led to it. -/
def recordIndex (o : Options) (v : Volume) (blockNum : ℕ) (idx : ExtentIdx) (r : Records) :
    Option Records :=
  if o.saveExtents ∧ blockNum = idx.eiBlock then do
    let sectorsPerBlock := ext4BlockSize v.superblock / sectorSize
    let sector := u64 ((ext4ExtentIndexLeaf idx * sectorsPerBlock : ℕ) +
      v.partitionOffset.tdiv sectorSize)
    let extents ← bsonSerialize o.heap r.extents
      ⟨.int64, 0, 0, dec sector, .bytes (leBytes 8 sector)⟩
    some { r with
      bits := r.bits.setBit (sector / ext4BlockSize v.superblock)
      extents := extents }
  else some r

def wholeBuffer (v : Volume) (buf : Buffer) : Option (List UInt8) :=
  (List.range (ext4BlockSize v.superblock)).mapM buf

/-- The entries for a block that an extent takes. -/
def recordBlock (o : Options) (v : Volume) (blockNum : ℕ) (extent : Extent) (buf : Buffer)
    (r : Records) : Option Records := do
  let rebased := blockNum - extent.eeBlock
  let sector : ℕ := ext4ExtentStart extent + rebased
  let sector : ℕ := sector * ext4BlockSize v.superblock % 2 ^ 64
  let sector : ℕ := u64 (sector + v.partitionOffset)
  let sector : ℕ := sector / sectorSize
  let sectors ← bsonSerialize o.heap r.sectors
    ⟨.int32, 0, 0, dec ((rebased + extent.eeBlock) % 2 ^ 32), .bytes (leBytes 8 sector)⟩
  if o.saveData then
    let bytes ← wholeBuffer v (ext4ReadBlock v (ext4ExtentStart extent + rebased) buf)
    let data ← bsonSerialize o.heap r.data
      ⟨.binary, o.subtype, i32 (ext4BlockSize v.superblock), dec sector, .bytes bytes⟩
    some { r with
      bits := r.bits.setBit (sector / ext4BlockSize v.superblock)
      sectors := sectors
      data := data }
  else some { r with sectors := sectors }

def ext4SerializeExtentStep (o : Options) (v : Volume) (blockNum : ℕ) (s : SerializeState) :
    Option (SerializeState ⊕ (ℤ × Records)) := do
  let hdr ← extentHeader s.walk.buf
  if s.walk.i < hdr.ehEntries then
    if hdr.ehDepth ≠ 0 then
      let idx2 ← extentIdxAt s.walk.buf s.walk.i
      if hdr.ehEntries = 1 then
        let r ← recordIndex o v blockNum idx2 s.records
        some (.inl ⟨⟨ext4ReadBlock v (ext4ExtentIndexLeaf idx2) s.walk.buf, 0,
          { s.walk.idx with eiBlock := sentinel }⟩, r⟩)
      else if blockNum < idx2.eiBlock ∧ s.walk.idx.eiBlock ≤ blockNum then
        let r ← recordIndex o v blockNum s.walk.idx s.records
        some (.inl ⟨⟨ext4ReadBlock v (ext4ExtentIndexLeaf s.walk.idx) s.walk.buf, 0,
          { s.walk.idx with eiBlock := sentinel }⟩, r⟩)
      else some (.inl { s with walk := { s.walk with i := s.walk.i + 1, idx := idx2 } })
    else
      let extent ← extentAt s.walk.buf s.walk.i
      if extent.takes blockNum then
        let r ← recordBlock o v blockNum extent s.walk.buf s.records
        some (.inr (0, r))
      else some (.inl { s with walk := { s.walk with i := s.walk.i + 1 } })
  else some (.inr (-1, s.records))

def Ext4SerializeFileExtentSectors (o : Options) (v : Volume) (blockNum : ℕ) (inode : Inode)
    (r : Records) (ret : ℤ) (r' : Records) : Prop :=
  Loop.Ends (ext4SerializeExtentStep o v blockNum)
    ⟨⟨rootBuffer inode, 0, ⟨sentinel, 0, 0⟩⟩, r⟩ (ret, r')

end GammaRay.Ext4
