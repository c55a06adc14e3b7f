import GammaRay.Ext4

set_option autoImplicit false

/-!
# Block-mapped files in the crawler

The three functions of `ext4.c` that look a block up in `i_block`: one reads it, one records
its sector, one finds its sector. All three pick a slot of `i_block` and a list of indices by
the same ranges, and go down one block of pointers for each index. They differ in the width of
the range arithmetic and in the type of their buffer.
-/
namespace GammaRay.Ext4
open Bytes Decimal Bson

/-- `i_block[slot]`. -/
def Inode.pointer (inode : Inode) (slot : ℕ) : ℕ :=
  leNat ((inode.iBlock.toList.drop (4 * slot)).take 4)

/-- The slot and the indices for a block, with the ranges in integers of `w` bits. -/
def filePath (w addressesInBlock blockNum : ℕ) : Option (ℕ × List ℕ) :=
  let directHigh := 11
  let indirectLow := directHigh + 1
  let indirectHigh := (directHigh + addressesInBlock) % 2 ^ w
  let doubleLow := (indirectHigh + 1) % 2 ^ w
  let doubleHigh := (indirectHigh + addressesInBlock * addressesInBlock) % 2 ^ w
  let tripleLow := (doubleHigh + 1) % 2 ^ w
  let tripleHigh :=
    (doubleHigh + addressesInBlock * addressesInBlock * addressesInBlock) % 2 ^ w
  if tripleHigh < blockNum then none
  else if blockNum ≤ directHigh then some (blockNum, [])
  else if blockNum ≤ indirectHigh then some (12, [blockNum - indirectLow])
  else if blockNum ≤ doubleHigh then
    let blockNum := blockNum - doubleLow
    some (13, [blockNum / addressesInBlock, blockNum % addressesInBlock])
  else
    let blockNum := blockNum - tripleLow
    -- The second index is not reduced.
    some (14, [blockNum / (addressesInBlock * addressesInBlock % 2 ^ w),
      blockNum / addressesInBlock, blockNum % addressesInBlock])

def addressesInBlock (v : Volume) : ℕ := ext4BlockSize v.superblock / 4

/-- `buf[i]` of a block of pointers. -/
def pointerAt (v : Volume) (buf : Buffer) (i : ℕ) : Option ℕ :=
  if i < addressesInBlock v then field buf (4 * i) 4 else none

/-- `buf[i]` where the buffer is one of bytes. -/
def byteAt (v : Volume) (buf : Buffer) (i : ℕ) : Option ℕ :=
  if i < ext4BlockSize v.superblock then (buf i).map UInt8.toNat else none

/-- Down from a pointer, one block for each index. A pointer that is zero ends the way. -/
def followPath (v : Volume) (entry : Buffer → ℕ → Option ℕ) :
    Buffer → ℕ → List ℕ → Option (ℕ × Buffer)
  | buf, p, [] => some (p, buf)
  | buf, p, i :: is =>
    if p = 0 then some (0, buf)
    else do
      let buf := ext4ReadBlock v p buf
      let q ← entry buf i
      followPath v entry buf q is

/-! ## Reading a block -/

/-- How `ext4_read_file_block` returns: 0, 1 or -1. -/
inductive BlockResult where
  | block (p : ℕ) (buf : Buffer)
  | finished (buf : Buffer)
  | outside (buf : Buffer)

def BlockResult.ret : BlockResult → ℤ
  | .block _ _ => 0
  | .finished _ => 1
  | .outside _ => -1

def ext4ReadFileBlock (v : Volume) (blockNum : ℕ) (inode : Inode) (buf : Buffer) :
    Option BlockResult :=
  (filePath 64 (addressesInBlock v) blockNum).elim (some (.outside buf)) fun path => do
    let (p, buf) ← followPath v (pointerAt v) buf (inode.pointer path.1) path.2
    if p = 0 then some (.finished buf) else some (.block p (ext4ReadBlock v p buf))

/-! ## Finding a sector -/

/-- A buffer on the stack, with what it holds before anything is read into it. -/
def stackBuffer (v : Volume) (stack : ℕ → UInt8) : Buffer :=
  fun i => if i < ext4BlockSize v.superblock then some (stack i) else none

/-- The buffer is one of bytes, so a pointer is a single byte of the block. -/
def ext4SectorFileBlock (v : Volume) (stack : ℕ → UInt8) (blockNum : ℕ) (inode : Inode) :
    Option ℕ :=
  (filePath 64 (addressesInBlock v) blockNum).elim (some 0) fun path => do
    let (p, _) ← followPath v (byteAt v) (stackBuffer v stack) (inode.pointer path.1) path.2
    if p = 0 then some 0 else some (ext4SectorFromBlock p v)

/-! ## Recording a sector -/

/-- What the stack of the call holds: the buffer, and the field of `extent_value` that no one
sets. -/
structure BlockStack where
  buf : ℕ → UInt8
  subtype : UInt8

/-- The sector of a block, in 32 bits. -/
def fileSector (v : Volume) (p : ℕ) : ℕ := ext4SectorFromBlock p v % 2 ^ 32

/-- The sector of the block of pointers that `i_block` itself leads to. -/
def rootSector (v : Volume) (p : ℕ) : ℕ :=
  u32 ((p * (ext4BlockSize v.superblock / sectorSize) % 2 ^ 32 : ℕ) +
    v.partitionOffset.tdiv sectorSize)

/-- The entry for a block of pointers, made where its first pointer is used. -/
def recordPointers (o : Options) (v : Volume) (subtype : UInt8) (i sector : ℕ) (buf : Buffer)
    (r : Records) : Option Records :=
  if o.saveExtents ∧ i = 0 then do
    let bytes ← wholeBuffer v buf
    let extents ← bsonSerialize o.heap r.extents
      ⟨.binary, subtype, i32 (ext4BlockSize v.superblock), dec sector, .bytes bytes⟩
    some { r with
      bits := r.bits.setBit (sector / ext4BlockSize v.superblock)
      extents := extents }
  else some r

def sectorKv (count sector : ℕ) : BsonKv :=
  ⟨.int32, 0, 0, dec count, .bytes (leBytes 4 sector)⟩

/-- The entries for the block itself. -/
def recordFileBlock (o : Options) (v : Volume) (count p : ℕ) (buf : Buffer) (r : Records) :
    Option (ℤ × Records) := do
  let sector := fileSector v p
  let sectors ← bsonSerialize o.heap r.sectors (sectorKv count sector)
  if o.saveData then
    let bytes ← wholeBuffer v (ext4ReadBlock v p buf)
    let data ← bsonSerialize o.heap r.data
      ⟨.binary, o.subtype, i32 (ext4BlockSize v.superblock), dec count, .bytes bytes⟩
    some (0, { r with
      bits := r.bits.setBit (sector / ext4BlockSize v.superblock)
      sectors := sectors
      data := data })
  else some (0, { r with sectors := sectors })

/-- Below the block at `sector` that the pointer `p` leads to. -/
def serializePath (o : Options) (v : Volume) (subtype : UInt8) (count : ℕ) :
    Buffer → Records → ℕ → ℕ → List ℕ → Option (ℤ × Records)
  | buf, r, _, p, [] => recordFileBlock o v count p buf r
  | buf, r, sector, p, i :: is => do
    let buf := ext4ReadBlock v p buf
    let q ← pointerAt v buf i
    if q = 0 then some (1, r)
    else
      let r ← recordPointers o v subtype i sector buf r
      serializePath o v subtype count buf r (fileSector v q) q is

/-- The entry for a single block of pointers is made before the pointer is looked at. -/
def serializeIndirect (o : Options) (v : Volume) (subtype : UInt8) (count : ℕ) (buf : Buffer)
    (r : Records) (p i : ℕ) : Option (ℤ × Records) := do
  let buf := ext4ReadBlock v p buf
  let r ← recordPointers o v subtype i (rootSector v p) buf r
  let q ← pointerAt v buf i
  if q = 0 then some (1, r) else recordFileBlock o v count q buf r

def ext4SerializeFileBlockSectors (o : Options) (v : Volume) (stack : BlockStack) (blockNum : ℕ)
    (inode : Inode) (r : Records) : Option (ℤ × Records) :=
  let buf := stackBuffer v stack.buf
  let count := blockNum * (ext4BlockSize v.superblock / sectorSize) % 2 ^ 32
  (filePath 32 (addressesInBlock v) blockNum).elim (some (-1, r)) fun path =>
    let p := inode.pointer path.1
    if p = 0 then some (1, r)
    else
      match path.2 with
      | [i] => serializeIndirect o v stack.subtype count buf r p i
      | indices => serializePath o v stack.subtype count buf r (rootSector v p) p indices

end GammaRay.Ext4
