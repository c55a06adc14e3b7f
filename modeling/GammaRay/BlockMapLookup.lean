import GammaRay.BlockMap
import GammaRay.BsonEncoderBytes

set_option autoImplicit false

/-!
# Looking up blocks of block-mapped files

The lookup as the format means it, over the pointers on the disk, and how far the functions of
the crawler follow it.
-/
namespace GammaRay.Ext4
open Bytes Decimal Bson

/-! ## The format -/

/-- A pointer in a block, where it lies on the disk. -/
def pointerOn (v : Volume) (p i : ℕ) : Option ℕ := pointerAt v (ext4ReadBlock v p blank) i

/-- Twelve direct blocks, then those behind one, two and three blocks of pointers. -/
def ext2Path (addressesInBlock b : ℕ) : ℕ × List ℕ :=
  let A := addressesInBlock
  if b < 12 then (b, [])
  else if b < 12 + A then (12, [b - 12])
  else if b < 12 + A + A * A then (13, [(b - (12 + A)) / A, (b - (12 + A)) % A])
  else (14, [(b - (12 + A + A * A)) / (A * A), (b - (12 + A + A * A)) / A % A,
    (b - (12 + A + A * A)) % A])

def follow (v : Volume) : ℕ → List ℕ → Option ℕ
  | p, [] => some p
  | p, i :: is => if p = 0 then some 0 else (pointerOn v p i).bind fun q => follow v q is

/-- The block that a block of a file lies in, 0 if a pointer on the way is. -/
def ext2Lookup (v : Volume) (inode : Inode) (b : ℕ) : Option ℕ :=
  follow v (inode.pointer (ext2Path (addressesInBlock v) b).1) (ext2Path (addressesInBlock v) b).2

/-! ## Buffers -/

section Buffers

variable {v : Volume}

theorem readBlock_of_blank {p i : ℕ} {x : UInt8} (h : ext4ReadBlock v p blank i = some x)
    (buf : Buffer) : ext4ReadBlock v p buf i = some x := by
  rw [ext4ReadBlock] at h ⊢
  split at h
  · cases h
  · rw [if_neg ‹_›]
    dsimp only at h
    split at h
    · rw [if_pos ‹_›]
      exact h
    · cases h

/-- A pointer on the disk is read into every buffer. -/
theorem pointerAt_of_pointerOn {p i q : ℕ} (h : pointerOn v p i = some q) (buf : Buffer) :
    pointerAt v (ext4ReadBlock v p buf) i = some q := by
  rw [pointerOn, pointerAt] at h
  split at h
  case isFalse => cases h
  case isTrue hi =>
    obtain ⟨bytes, hbytes, rfl⟩ := Option.map_eq_some_iff.mp h
    rw [pointerAt, if_pos hi]
    exact Option.map_eq_some_iff.mpr ⟨bytes,
      mapM_mono (fun j x hx => readBlock_of_blank hx buf) hbytes, rfl⟩

theorem followPath_zero {entry : Buffer → ℕ → Option ℕ} {buf buf' : Buffer} {is : List ℕ} {q : ℕ}
    (h : followPath v entry buf 0 is = some (q, buf')) : q = 0 := by
  cases is with
  | nil => exact (Prod.mk.inj (Option.some.inj h)).1.symm
  | cons i is =>
    rw [followPath, if_pos rfl] at h
    exact (Prod.mk.inj (Option.some.inj h)).1.symm

theorem followPath_of_follow {is : List ℕ} {p q : ℕ} (h : follow v p is = some q) (buf : Buffer) :
    ∃ buf', followPath v (pointerAt v) buf p is = some (q, buf') := by
  induction is generalizing p buf with
  | nil =>
    obtain rfl := Option.some.inj h
    exact ⟨buf, rfl⟩
  | cons i is ih =>
    rw [follow] at h
    rw [followPath]
    by_cases hp : p = 0
    · rw [if_pos hp] at h ⊢
      obtain rfl := Option.some.inj h
      exact ⟨buf, rfl⟩
    · rw [if_neg hp] at h ⊢
      obtain ⟨q', hq', h⟩ := Option.bind_eq_some_iff.mp h
      rw [Loop.bind_of_some (pointerAt_of_pointerOn hq' buf)]
      exact ih h _

end Buffers

/-! ## Ranges -/

section Ranges

variable {w A b : ℕ}

theorem ranges_lt (hw : 32 ≤ w) (hA : A ≤ 1024) :
    A * A ≤ 2 ^ 20 ∧ A * A * A ≤ 2 ^ 30 ∧ 2 ^ 32 ≤ 2 ^ w := by
  have h2 : A * A ≤ 1024 * 1024 := Nat.mul_le_mul hA hA
  have h3 : A * A * A ≤ 1024 * 1024 * 1024 := Nat.mul_le_mul h2 hA
  exact ⟨h2, h3, Nat.pow_le_pow_right (by decide) hw⟩

/-- The ranges without the reductions, which do nothing for these block sizes. -/
theorem filePath_eq (hw : 32 ≤ w) (hA : A ≤ 1024) : filePath w A b =
    if 11 + A + A * A + A * A * A < b then none
    else if b ≤ 11 then some (b, [])
    else if b ≤ 11 + A then some (12, [b - 12])
    else if b ≤ 11 + A + A * A then
      some (13, [(b - (12 + A)) / A, (b - (12 + A)) % A])
    else some (14, [(b - (12 + A + A * A)) / (A * A), (b - (12 + A + A * A)) / A,
      (b - (12 + A + A * A)) % A]) := by
  obtain ⟨h2, h3, hp⟩ := ranges_lt hw hA
  have hi : (11 + A) % 2 ^ w = 11 + A := Nat.mod_eq_of_lt (by omega)
  have hd : (11 + A + A * A) % 2 ^ w = 11 + A + A * A := Nat.mod_eq_of_lt (by omega)
  have ht : (11 + A + A * A + A * A * A) % 2 ^ w = 11 + A + A * A + A * A * A :=
    Nat.mod_eq_of_lt (by omega)
  have hdl : (11 + A + 1) % 2 ^ w = 12 + A := by
    rw [Nat.mod_eq_of_lt (by omega)]
    omega
  have htl : (11 + A + A * A + 1) % 2 ^ w = 12 + A + A * A := by
    rw [Nat.mod_eq_of_lt (by omega)]
    omega
  have hs : A * A % 2 ^ w = A * A := Nat.mod_eq_of_lt (by omega)
  rw [filePath]
  dsimp only
  rw [hi, hd, ht, hdl, htl, hs]

/-- Up to double indirection the functions go the way of the format. -/
theorem filePath_low (hw : 32 ≤ w) (hA : A ≤ 1024) (hb : b ≤ 11 + A + A * A) :
    filePath w A b = some (ext2Path A b) := by
  rw [filePath_eq hw hA, if_neg (by omega), ext2Path]
  by_cases h1 : b ≤ 11
  · rw [if_pos h1, if_pos (show b < 12 by omega)]
  rw [if_neg h1, if_neg (show ¬ b < 12 by omega)]
  by_cases h2 : b ≤ 11 + A
  · rw [if_pos h2, if_pos (show b < 12 + A by omega)]
  rw [if_neg h2, if_neg (show ¬ b < 12 + A by omega), if_pos hb,
    if_pos (show b < 12 + A + A * A by omega)]

end Ranges

/-! ## Records -/

/-- The documents have room for the entries of one block, and for those of `n` blocks of
pointers. -/
structure Room (v : Volume) (n : ℕ) (r : Records) : Prop where
  sectors : ∃ w, Holds r.sectors w ∧ w.length + 32 ≤ maxSize
  data : ∃ w, Holds r.data w ∧ w.length + (ext4BlockSize v.superblock + 32) ≤ maxSize
  extents : ∃ w, Holds r.extents w ∧ w.length + n * (ext4BlockSize v.superblock + 32) ≤ maxSize

section Records

variable {o : Options} {v : Volume} {r : Records} {n : ℕ} {buf : Buffer}

/-- Every byte of the buffer is known. -/
def Full (v : Volume) (buf : Buffer) : Prop :=
  ∀ i < ext4BlockSize v.superblock, ∃ x, buf i = some x

theorem full_stack (stack : ℕ → UInt8) : Full v (stackBuffer v stack) :=
  fun i hi => ⟨stack i, if_pos hi⟩

theorem Full.read (hb : Full v buf) (p : ℕ) : Full v (ext4ReadBlock v p buf) := by
  intro i hi
  rw [ext4ReadBlock]
  split
  · exact hb i hi
  · dsimp only
    split
    · exact ⟨_, rfl⟩
    · exact hb i hi

theorem Full.bytes (hb : Full v buf) :
    ∃ bytes, wholeBuffer v buf = some bytes ∧ bytes.length = ext4BlockSize v.superblock := by
  obtain ⟨y, hy, hlen⟩ := mapM_full fun i hi => hb i (List.mem_range.mp hi)
  exact ⟨y, hy, hlen.trans List.length_range⟩

theorem binary_room (h : Heap) (subtype : UInt8) {count : ℕ} (hcount : count < 2 ^ 32)
    {bytes w : List UInt8} {b : BsonInfo} (hb : Holds b w) (hsize : bytes.length < 2 ^ 31)
    (hroom : w.length + (bytes.length + 32) ≤ maxSize) :
    ∃ b' w', bsonSerialize h b ⟨.binary, subtype, i32 bytes.length, dec count, .bytes bytes⟩ =
      some b' ∧ Holds b' w' ∧ w'.length ≤ w.length + (bytes.length + 32) := by
  rw [i32_of_range (by omega) (by omega)]
  have hdec : (dec count).length ≤ 10 := dec_length_le (by decide) (by omega)
  have happ := serializeElement_appends h
    ⟨.binary, subtype, bytes.length, dec count, .bytes bytes⟩ (dec_noNul count)
    (serializeBinary_appends h subtype bytes)
  have hlen : ([BsonType.binary.code] ++ ((dec count ++ [0]) ++
      (i32Bytes bytes.length ++ ([subtype] ++ bytes)))).length ≤ bytes.length + 32 := by
    simp only [List.length_append, List.length_singleton, i32Bytes_length]
    omega
  obtain ⟨b', hs, hh⟩ := happ b w hb (by dsimp only at hlen ⊢; omega)
  exact ⟨b', _, hs, hh, by rw [List.length_append]; dsimp only at hlen ⊢; omega⟩

theorem sectorKv_room (h : Heap) {count : ℕ} (hcount : count < 2 ^ 32) (sector : ℕ)
    {w : List UInt8} {b : BsonInfo} (hb : Holds b w) (hroom : w.length + 32 ≤ maxSize) :
    ∃ b', bsonSerialize h b (sectorKv count sector) = some b' := by
  have hdec : (dec count).length ≤ 10 := dec_length_le (by decide) (by omega)
  have happ := serializeElement_appends h (sectorKv count sector) (dec_noNul count)
    (serializeFixed_appends h 4 (leBytes 4 sector) (leBytes_length 4 sector))
  have hlen : ([BsonType.int32.code] ++ ((dec count ++ [0]) ++ leBytes 4 sector)).length ≤ 32 := by
    simp only [List.length_append, List.length_singleton, leBytes_length]
    omega
  obtain ⟨b', hs, -⟩ := happ b w hb (by dsimp only [sectorKv] at hlen ⊢; omega)
  exact ⟨b', hs⟩

theorem Room.mono {m : ℕ} (hr : Room v n r) (hm : m ≤ n) : Room v m r := by
  obtain ⟨w, hw, hroom⟩ := hr.extents
  have hle := Nat.mul_le_mul_right (ext4BlockSize v.superblock + 32) hm
  exact ⟨hr.sectors, hr.data, w, hw, by omega⟩

theorem recordPointers_room (hbs : ext4BlockSize v.superblock < 2 ^ 31) (hr : Room v (n + 1) r)
    (hb : Full v buf) (subtype : UInt8) (i : ℕ) {sector : ℕ} (hsector : sector < 2 ^ 32) :
    ∃ r', recordPointers o v subtype i sector buf r = some r' ∧ Room v n r' ∧
      r'.sectors = r.sectors := by
  rw [recordPointers]
  split
  · obtain ⟨bytes, hbytes, hlen⟩ := hb.bytes
    obtain ⟨w, hw, hroom⟩ := hr.extents
    rw [← hlen] at hbs hroom
    rw [Nat.add_mul] at hroom
    obtain ⟨b', w', hs, hh, hle⟩ := binary_room o.heap subtype hsector hw hbs (by omega)
    refine ⟨⟨r.bits.setBit (sector / ext4BlockSize v.superblock), r.sectors, r.data, b'⟩, ?_,
      ⟨hr.sectors, hr.data, w', hh, ?_⟩, rfl⟩
    · rw [Loop.bind_of_some hbytes, ← hlen, Loop.bind_of_some hs]
    · rw [← hlen]
      omega
  · exact ⟨r, rfl, hr.mono (Nat.le_succ n), rfl⟩

theorem recordFileBlock_room (hbs : ext4BlockSize v.superblock < 2 ^ 31) (hr : Room v n r)
    (hb : Full v buf) (p : ℕ) {count : ℕ} (hcount : count < 2 ^ 32) :
    ∃ r', recordFileBlock o v count p buf r = some (0, r') ∧
      bsonSerialize o.heap r.sectors (sectorKv count (fileSector v p)) = some r'.sectors := by
  obtain ⟨w, hw, hroom⟩ := hr.sectors
  obtain ⟨sectors, hsectors⟩ := sectorKv_room o.heap hcount (fileSector v p) hw hroom
  rw [recordFileBlock, Loop.bind_of_some hsectors]
  split
  · obtain ⟨bytes, hbytes, hlen⟩ := (hb.read p).bytes
    obtain ⟨w, hw, hroom⟩ := hr.data
    rw [← hlen] at hbs hroom
    obtain ⟨b', w', hs, -, -⟩ := binary_room o.heap o.subtype hcount hw hbs hroom
    refine ⟨⟨r.bits.setBit (fileSector v p / ext4BlockSize v.superblock), sectors, b', r.extents⟩,
      ?_, hsectors⟩
    rw [Loop.bind_of_some hbytes, ← hlen, Loop.bind_of_some hs]
  · exact ⟨⟨r.bits, sectors, r.data, r.extents⟩, rfl, hsectors⟩

/-- The call has returned 0 with one entry for the block `q`, or 1 without one. -/
def RecordsPath (o : Options) (v : Volume) (count q : ℕ) (r : Records)
    (result : Option (ℤ × Records)) :
    Prop :=
  (q ≠ 0 → ∃ r', result = some (0, r') ∧
    bsonSerialize o.heap r.sectors (sectorKv count (fileSector v q)) = some r'.sectors) ∧
  (q = 0 → ∃ r', result = some (1, r') ∧ r'.sectors = r.sectors)

theorem fileSector_lt (p : ℕ) : fileSector v p < 2 ^ 32 := Nat.mod_lt _ (by decide)

theorem rootSector_lt (p : ℕ) : rootSector v p < 2 ^ 32 := by
  unfold rootSector u32
  omega

theorem serializePath_recorded (hbs : ext4BlockSize v.superblock < 2 ^ 31) (subtype : UInt8)
    {count : ℕ} (hcount : count < 2 ^ 32) {is : List ℕ} {p q sector : ℕ} {buf' : Buffer}
    (hr : Room v is.length r) (hb : Full v buf) (hsector : sector < 2 ^ 32) (hp : p ≠ 0)
    (h : followPath v (pointerAt v) buf p is = some (q, buf')) :
    RecordsPath o v count q r (serializePath o v subtype count buf r sector p is) := by
  induction is generalizing buf r p sector with
  | nil =>
    obtain ⟨rfl, -⟩ := Prod.mk.inj (Option.some.inj h)
    exact ⟨fun _ => recordFileBlock_room hbs hr hb p hcount, fun h0 => absurd h0 hp⟩
  | cons i is ih =>
    rw [followPath, if_neg hp] at h
    obtain ⟨q', hq', h⟩ := Option.bind_eq_some_iff.mp h
    rw [serializePath, Loop.bind_of_some hq']
    by_cases h0 : q' = 0
    · rw [if_pos h0]
      exact ⟨fun hne => absurd (followPath_zero (h0 ▸ h)) hne, fun _ => ⟨r, rfl, rfl⟩⟩
    · rw [if_neg h0]
      obtain ⟨r₁, hr₁, hroom, hsame⟩ := recordPointers_room (o := o) hbs hr (hb.read p) subtype i
        hsector
      have hrec := ih hroom (hb.read p) (fileSector_lt (v := v) q') h0 h
      rw [Loop.bind_of_some hr₁]
      rw [RecordsPath, hsame] at hrec
      exact hrec

theorem serializeIndirect_recorded (hbs : ext4BlockSize v.superblock < 2 ^ 31) (subtype : UInt8)
    {count : ℕ} (hcount : count < 2 ^ 32) {p q i : ℕ} {buf' : Buffer} (hr : Room v 1 r)
    (hb : Full v buf) (hp : p ≠ 0)
    (h : followPath v (pointerAt v) buf p [i] = some (q, buf')) :
    RecordsPath o v count q r (serializeIndirect o v subtype count buf r p i) := by
  rw [followPath, if_neg hp] at h
  obtain ⟨q', hq', h⟩ := Option.bind_eq_some_iff.mp h
  obtain ⟨rfl, -⟩ := Prod.mk.inj (Option.some.inj h)
  obtain ⟨r₁, hr₁, hroom, hsame⟩ := recordPointers_room (o := o) hbs hr (hb.read p) subtype i
    (rootSector_lt p)
  rw [serializeIndirect, Loop.bind_of_some hr₁, Loop.bind_of_some hq']
  constructor
  · intro hne
    rw [if_neg hne, ← hsame]
    exact recordFileBlock_room hbs hroom (hb.read p) q' hcount
  · intro h0
    rw [if_pos h0]
    exact ⟨r₁, rfl, hsame⟩

/-- What a call of the recording function comes to, by the pointers it follows. -/
theorem serialize_recorded (hbs : ext4BlockSize v.superblock < 2 ^ 31) (stack : BlockStack)
    {b q : ℕ} {inode : Inode} {path : ℕ × List ℕ} {buf' : Buffer}
    (hpath : filePath 32 (addressesInBlock v) b = some path) (hr : Room v path.2.length r)
    (h : followPath v (pointerAt v) (stackBuffer v stack.buf) (inode.pointer path.1) path.2 =
      some (q, buf')) :
    RecordsPath o v (b * (ext4BlockSize v.superblock / sectorSize) % 2 ^ 32) q r
      (ext4SerializeFileBlockSectors o v stack b inode r) := by
  have hcount : b * (ext4BlockSize v.superblock / sectorSize) % 2 ^ 32 < 2 ^ 32 :=
    Nat.mod_lt _ (by decide)
  obtain ⟨slot, is⟩ := path
  rw [ext4SerializeFileBlockSectors, hpath, Option.elim_some]
  dsimp only at h ⊢
  by_cases h0 : inode.pointer slot = 0
  · rw [if_pos h0]
    rw [h0] at h
    exact ⟨fun hne => absurd (followPath_zero h) hne, fun _ => ⟨r, rfl, rfl⟩⟩
  · rw [if_neg h0]
    split
    · exact serializeIndirect_recorded hbs stack.subtype hcount hr (full_stack stack.buf) h0 h
    · exact serializePath_recorded hbs stack.subtype hcount hr (full_stack stack.buf)
        (rootSector_lt _) h0 h

end Records

/-! ## Up to double indirection -/

section Lookup

variable {v : Volume} {inode : Inode} {b p : ℕ} {path : ℕ × List ℕ}

theorem readFileBlock_of_follow (hpath : filePath 64 (addressesInBlock v) b = some path)
    (h : follow v (inode.pointer path.1) path.2 = some p) (buf : Buffer) :
    (p ≠ 0 → ∃ buf', ext4ReadFileBlock v b inode buf = some (.block p (ext4ReadBlock v p buf'))) ∧
      (p = 0 → ∃ buf', ext4ReadFileBlock v b inode buf = some (.finished buf')) := by
  obtain ⟨buf', hfollow⟩ := followPath_of_follow h buf
  rw [ext4ReadFileBlock, hpath, Option.elim_some, Loop.bind_of_some hfollow]
  exact ⟨fun hne => ⟨buf', if_neg hne⟩, fun h0 => ⟨buf', if_pos h0⟩⟩

theorem ext2Path_length (A b : ℕ) (hb : b ≤ 11 + A + A * A) : (ext2Path A b).2.length ≤ 2 := by
  rw [ext2Path]
  split
  · exact Nat.zero_le _
  split
  · exact Nat.le_succ _
  · rw [if_pos (by omega)]
    exact le_refl _

theorem fileSector_eq (hlow : 0 ≤ p * ext4BlockSize v.superblock + v.partitionOffset)
    (hhigh : (p * ext4BlockSize v.superblock + v.partitionOffset) / 512 < 2 ^ 32) :
    fileSector v p = ((p * ext4BlockSize v.superblock + v.partitionOffset) / 512).toNat := by
  rw [fileSector, ext4SectorFromBlock, sectorSize, Nat.cast_mul]
  unfold u64
  omega

end Lookup

/-- Up to double indirection, reading and recording a block follow the format. -/
theorem file_block_lookup (o : Options) (v : Volume)
    (hbs : ext4BlockSize v.superblock = 1024 ∨ ext4BlockSize v.superblock = 2048 ∨
      ext4BlockSize v.superblock = 4096) (inode : Inode) (b : ℕ)
    (hb : b ≤ 11 + addressesInBlock v + addressesInBlock v * addressesInBlock v) (p : ℕ)
    (hp : ext2Lookup v inode b = some p) (buf : Buffer) (stack : BlockStack) (r : Records)
    (hr : Room v 2 r) :
    (p ≠ 0 → 0 ≤ p * ext4BlockSize v.superblock + v.partitionOffset →
      (p * ext4BlockSize v.superblock + v.partitionOffset) / 512 < 2 ^ 32 →
      (∃ buf', ext4ReadFileBlock v b inode buf = some (.block p (ext4ReadBlock v p buf'))) ∧
      ∃ r', ext4SerializeFileBlockSectors o v stack b inode r = some (0, r') ∧
        bsonSerialize o.heap r.sectors
          (sectorKv (b * (ext4BlockSize v.superblock / sectorSize) % 2 ^ 32)
            ((p * ext4BlockSize v.superblock + v.partitionOffset) / 512).toNat) =
          some r'.sectors) ∧
    (p = 0 → (∃ buf', ext4ReadFileBlock v b inode buf = some (.finished buf')) ∧
      ∃ r', ext4SerializeFileBlockSectors o v stack b inode r = some (1, r') ∧
        r'.sectors = r.sectors) := by
  have hA : addressesInBlock v ≤ 1024 := by
    rw [addressesInBlock]
    omega
  have hread := readFileBlock_of_follow (filePath_low (by decide) hA hb) hp buf
  obtain ⟨buf', hfollow⟩ := followPath_of_follow hp (stackBuffer v stack.buf)
  have hrec := serialize_recorded (o := o) (by omega) stack (filePath_low (by decide) hA hb)
    (hr.mono (ext2Path_length _ b hb)) hfollow
  constructor
  · intro hne hlow hhigh
    rw [← fileSector_eq hlow hhigh]
    exact ⟨hread.1 hne, hrec.1 hne⟩
  · exact fun h0 => ⟨hread.2 h0, hrec.2 h0⟩

/-- A disk on which every pointer leads to block `0x01010101`. -/
def onesVolume : Volume := ⟨⟨2 ^ 40, fun _ => 1⟩, 0, ⟨0, 8, 0, 1, 8192, 8⟩⟩

def onesInode : Inode := ⟨0x81a4, 0, 0, 0, Vector.replicate 60 1⟩

def zeroStack : BlockStack := ⟨fun _ => 0, 0⟩

theorem freshRecords_room (n : ℕ) (hn : n ≤ 3) : Room onesVolume n freshRecords := by
  have hbs : ext4BlockSize onesVolume.superblock = 1024 := by decide
  have hmax : maxSize = 1073741824 := rfl
  refine ⟨⟨[], bsonInit_holds zeroHeap, ?_⟩, ⟨[], bsonInit_holds zeroHeap, ?_⟩,
    ⟨[], bsonInit_holds zeroHeap, ?_⟩⟩
  · decide
  · rw [hbs, hmax]
    decide
  · rw [hbs, hmax, List.length_nil]
    omega

theorem file_block_lookup_ones :
    ext2Lookup onesVolume onesInode 300 = some 16843009 ∧
      (∃ buf', ext4ReadFileBlock onesVolume 300 onesInode blank =
        some (.block 16843009 (ext4ReadBlock onesVolume 16843009 buf'))) ∧
      ∃ r', ext4SerializeFileBlockSectors ⟨zeroHeap, 0, false, true⟩ onesVolume zeroStack 300
        onesInode freshRecords = some (0, r') := by
  have hp : ext2Lookup onesVolume onesInode 300 = some 16843009 := by decide +kernel
  obtain ⟨hread, r', hrec, -⟩ := (file_block_lookup ⟨zeroHeap, 0, false, true⟩ onesVolume
    (.inl (by decide)) onesInode 300 (by decide) 16843009 hp blank zeroStack freshRecords
    (freshRecords_room 2 (by decide))).1 (by decide) (by decide) (by decide)
  exact ⟨hp, hread, r', hrec⟩

/-! ## Triple indirection -/

section Triple

variable {v : Volume} {A b : ℕ}

theorem filePath_triple {w : ℕ} (hw : 32 ≤ w) (hA : A ≤ 1024) (hlow : 12 + A + A * A ≤ b)
    (hhigh : b ≤ 11 + A + A * A + A * A * A) : filePath w A b =
      some (14, [(b - (12 + A + A * A)) / (A * A), (b - (12 + A + A * A)) / A,
        (b - (12 + A + A * A)) % A]) := by
  rw [filePath_eq hw hA, if_neg (by omega), if_neg (by omega), if_neg (by omega),
    if_neg (by omega)]

theorem ext2Path_triple (hlow : 12 + A + A * A ≤ b) : ext2Path A b =
    (14, [(b - (12 + A + A * A)) / (A * A), (b - (12 + A + A * A)) / A % A,
      (b - (12 + A + A * A)) % A]) := by
  rw [ext2Path, if_neg (by omega), if_neg (by omega), if_neg (by omega)]

theorem follow_ne_zero {is : List ℕ} {p q : ℕ} (h : follow v p is = some q) (hq : q ≠ 0) :
    p ≠ 0 := by
  rintro rfl
  cases is with
  | nil => exact hq (Option.some.inj h).symm
  | cons i is =>
    rw [follow, if_pos rfl] at h
    exact hq (Option.some.inj h).symm

/-- The way is lost at an index that the buffer does not have. -/
theorem followPath_lost {p q i j j' k : ℕ} (hj : addressesInBlock v ≤ j)
    (h : follow v p [i, j', k] = some q) (hq : q ≠ 0) (buf : Buffer) :
    followPath v (pointerAt v) buf p [i, j, k] = none := by
  have hp := follow_ne_zero h hq
  rw [follow, if_neg hp] at h
  obtain ⟨q₁, hq₁, h⟩ := Option.bind_eq_some_iff.mp h
  have hnone : pointerAt v (ext4ReadBlock v q₁ (ext4ReadBlock v p buf)) j = none :=
    if_neg (Nat.not_lt.mpr hj)
  rw [followPath, if_neg hp, Loop.bind_of_some (pointerAt_of_pointerOn hq₁ buf), followPath,
    if_neg (follow_ne_zero h hq), Loop.bind_of_none hnone]

theorem serializePath_lost {o : Options} {subtype : UInt8} {count p q sector i j j' k : ℕ}
    (hj : addressesInBlock v ≤ j) (h : follow v p [i, j', k] = some q) (hq : q ≠ 0) (buf : Buffer)
    (r : Records) : serializePath o v subtype count buf r sector p [i, j, k] = none := by
  have hp := follow_ne_zero h hq
  rw [follow, if_neg hp] at h
  obtain ⟨q₁, hq₁, h⟩ := Option.bind_eq_some_iff.mp h
  have hnone : pointerAt v (ext4ReadBlock v q₁ (ext4ReadBlock v p buf)) j = none :=
    if_neg (Nat.not_lt.mpr hj)
  rw [serializePath, Loop.bind_of_some (pointerAt_of_pointerOn hq₁ buf),
    if_neg (follow_ne_zero h hq)]
  cases recordPointers o v subtype i sector (ext4ReadBlock v p buf) r with
  | none => rfl
  | some r₁ => rw [Loop.bind_of_some rfl, serializePath, Loop.bind_of_none hnone]

end Triple

/-- Behind a triple indirection, reading and recording follow the format just as long as the
first index is zero; from then on the second one leads out of the buffer. -/
theorem triple_lookup_iff (o : Options) (v : Volume)
    (hbs : ext4BlockSize v.superblock = 1024 ∨ ext4BlockSize v.superblock = 2048 ∨
      ext4BlockSize v.superblock = 4096) (inode : Inode) (A b : ℕ) (hA : A = addressesInBlock v)
    (hlow : 12 + A + A * A ≤ b) (hhigh : b ≤ 11 + A + A * A + A * A * A) (p : ℕ)
    (hp : ext2Lookup v inode b = some p) (hne : p ≠ 0) (buf : Buffer) (stack : BlockStack)
    (r : Records) (hr : Room v 3 r) :
    ((∃ buf', ext4ReadFileBlock v b inode buf = some (.block p (ext4ReadBlock v p buf'))) ↔
      b - (12 + A + A * A) < A * A) ∧
    ((∃ r', ext4SerializeFileBlockSectors o v stack b inode r = some (0, r') ∧
        bsonSerialize o.heap r.sectors
          (sectorKv (b * (ext4BlockSize v.superblock / sectorSize) % 2 ^ 32) (fileSector v p)) =
          some r'.sectors) ↔
      b - (12 + A + A * A) < A * A) ∧
    ((∀ w ∈ [32, 64], ∀ path, filePath w A b = some path → ∀ i ∈ path.2, i < A) ↔
      b - (12 + A + A * A) < A * A) := by
  have hle : A ≤ 1024 := by
    rw [hA, addressesInBlock]
    omega
  have hpos : 0 < A := by
    rw [hA, addressesInBlock]
    omega
  have h64 := filePath_triple (w := 64) (by decide) hle hlow hhigh
  have h32 := filePath_triple (w := 32) (by decide) hle hlow hhigh
  have hn : b - (12 + A + A * A) < A * A * A := by omega
  rw [ext2Lookup, ← hA, ext2Path_triple hlow] at hp
  generalize b - (12 + A + A * A) = n at hp hn h32 h64 ⊢
  by_cases hlt : n < A * A
  · have hdiv : n / A < A := (Nat.div_lt_iff_lt_mul hpos).mpr hlt
    rw [Nat.mod_eq_of_lt hdiv] at hp
    refine ⟨iff_of_true ?_ hlt, iff_of_true ?_ hlt, iff_of_true ?_ hlt⟩
    · exact (readFileBlock_of_follow (hA ▸ h64) hp buf).1 hne
    · obtain ⟨buf', hfollow⟩ := followPath_of_follow hp (stackBuffer v stack.buf)
      exact (serialize_recorded (o := o) (by omega) stack (hA ▸ h32) hr hfollow).1 hne
    · intro w hw path hpath i hi
      have hsame : path = (14, [n / (A * A), n / A, n % A]) := by
        rcases List.mem_pair.mp hw with rfl | rfl
        · exact Option.some.inj (hpath.symm.trans h32)
        · exact Option.some.inj (hpath.symm.trans h64)
      rw [hsame] at hi
      have hfirst : n / (A * A) < A := Nat.div_lt_of_lt_mul hn
      rcases List.mem_cons.mp hi with rfl | hi
      · exact hfirst
      rcases List.mem_pair.mp hi with rfl | rfl
      · exact hdiv
      · exact Nat.mod_lt _ hpos
  · have hdiv : A ≤ n / A := (Nat.le_div_iff_mul_le hpos).mpr (Nat.not_lt.mp hlt)
    have hlost : addressesInBlock v ≤ n / A := hA ▸ hdiv
    have hpointer := follow_ne_zero hp hne
    refine ⟨iff_of_false ?_ hlt, iff_of_false ?_ hlt, iff_of_false ?_ hlt⟩
    · rintro ⟨buf', hread⟩
      rw [ext4ReadFileBlock, ← hA, h64, Option.elim_some,
        Loop.bind_of_none (followPath_lost hlost hp hne buf)] at hread
      cases hread
    · rintro ⟨r', hrec, -⟩
      rw [ext4SerializeFileBlockSectors, ← hA, h32, Option.elim_some] at hrec
      dsimp only at hrec hpointer
      rw [if_neg hpointer, serializePath_lost hlost hp hne] at hrec
      cases hrec
    · intro hidx
      have hsecond := hidx 32 (by decide) _ h32 (n / A) (by simp)
      omega

/-- The first block whose second index is not below the number of addresses. -/
theorem triple_index_outside :
    ext2Lookup onesVolume onesInode 131340 = some 16843009 ∧
      filePath 64 256 131340 = some (14, [1, 256, 0]) ∧ addressesInBlock onesVolume = 256 ∧
      ext4ReadFileBlock onesVolume 131340 onesInode blank = none ∧
      ext4SerializeFileBlockSectors ⟨zeroHeap, 0, false, true⟩ onesVolume zeroStack 131340
        onesInode freshRecords = none := by
  have haddr : addressesInBlock onesVolume = 256 := by decide
  have h64 : filePath 64 256 131340 = some (14, [1, 256, 0]) := by decide
  have h32 : filePath 32 256 131340 = some (14, [1, 256, 0]) := by decide
  have hfollow : follow onesVolume (onesInode.pointer 14) [1, 0, 0] = some 16843009 := by
    decide +kernel
  refine ⟨by decide +kernel, h64, haddr, ?_, ?_⟩
  · rw [ext4ReadFileBlock, haddr, h64, Option.elim_some,
      Loop.bind_of_none (followPath_lost haddr.le hfollow (by decide) blank)]
  · rw [ext4SerializeFileBlockSectors, haddr, h32, Option.elim_some]
    dsimp only
    rw [if_neg (by decide), serializePath_lost haddr.le hfollow (by decide)]

theorem triple_lookup_ones :
    ext2Lookup onesVolume onesInode 65804 = some 16843009 ∧
      ∃ buf', ext4ReadFileBlock onesVolume 65804 onesInode blank =
        some (.block 16843009 (ext4ReadBlock onesVolume 16843009 buf')) := by
  have hp : ext2Lookup onesVolume onesInode 65804 = some 16843009 := by decide +kernel
  exact ⟨hp, (triple_lookup_iff ⟨zeroHeap, 0, false, true⟩ onesVolume (.inl (by decide)) onesInode
    256 65804 (by decide) (by decide) (by decide) 16843009 hp (by decide) blank zeroStack
    freshRecords (freshRecords_room 3 (by decide))).1.mpr (by decide)⟩

/-! ## Sectors of block-mapped files -/

/-- The block that `ext4_sector_file_block` comes to, with a byte for each pointer. -/
def byteLookup (v : Volume) (stack : ℕ → UInt8) (inode : Inode) (b : ℕ) : Option ℕ :=
  (followPath v (byteAt v) (stackBuffer v stack)
    (inode.pointer (ext2Path (addressesInBlock v) b).1) (ext2Path (addressesInBlock v) b).2).map
    (·.1)

def BlockResult.number : BlockResult → ℕ
  | .block p _ => p
  | .finished _ => 0
  | .outside _ => 0

/-- A sector is found for a block that is read, and none where there is nothing to read. -/
def SectorAgrees (v : Volume) (res : BlockResult) (sector : Option ℕ) : Prop :=
  (∀ p buf, res = .block p buf →
    sector = some ((p * ext4BlockSize v.superblock + v.partitionOffset) / 512).toNat) ∧
  (res.ret = 1 → sector = some 0)

section Sectors

variable {v : Volume}

theorem Full.byteAt {buf : Buffer} (hb : Full v buf) {i : ℕ}
    (hi : i < ext4BlockSize v.superblock) : ∃ q, byteAt v buf i = some q ∧ q < 2 ^ 32 := by
  obtain ⟨x, hx⟩ := hb i hi
  refine ⟨x.toNat, ?_, ?_⟩
  · rw [Ext4.byteAt, if_pos hi, hx]
    rfl
  · have hlt := x.toNat_lt
    omega

theorem followPath_bytes {is : List ℕ} (his : ∀ i ∈ is, i < ext4BlockSize v.superblock)
    {buf : Buffer} (hb : Full v buf) {p : ℕ} (hp : p < 2 ^ 32) :
    ∃ q buf', followPath v (byteAt v) buf p is = some (q, buf') ∧ q < 2 ^ 32 := by
  induction is generalizing buf p with
  | nil => exact ⟨p, buf, rfl, hp⟩
  | cons i is ih =>
    rw [followPath]
    by_cases h0 : p = 0
    · rw [if_pos h0]
      exact ⟨0, buf, rfl, by decide⟩
    · rw [if_neg h0]
      obtain ⟨q, hq, hlt⟩ := (hb.read p).byteAt (his i List.mem_cons_self)
      rw [Loop.bind_of_some hq]
      exact ih (fun j hj => his j (List.mem_cons_of_mem i hj)) (hb.read p) hlt

theorem pointerAt_lt {buf : Buffer} {i q : ℕ} (h : pointerAt v buf i = some q) : q < 2 ^ 32 := by
  rw [pointerAt] at h
  split at h
  case isFalse => cases h
  case isTrue => exact field_lt h

theorem followPath_lt {is : List ℕ} {buf buf' : Buffer} {p q : ℕ} (hp : p < 2 ^ 32)
    (h : followPath v (pointerAt v) buf p is = some (q, buf')) : q < 2 ^ 32 := by
  induction is generalizing buf p with
  | nil =>
    obtain ⟨rfl, -⟩ := Prod.mk.inj (Option.some.inj h)
    exact hp
  | cons i is ih =>
    rw [followPath] at h
    by_cases h0 : p = 0
    · rw [if_pos h0] at h
      obtain ⟨rfl, -⟩ := Prod.mk.inj (Option.some.inj h)
      decide
    · rw [if_neg h0] at h
      obtain ⟨q', hq', h⟩ := Option.bind_eq_some_iff.mp h
      exact ih (pointerAt_lt hq') h

theorem pointer_lt (inode : Inode) (slot : ℕ) : inode.pointer slot < 2 ^ 32 := by
  have hlt := leNat_lt ((inode.iBlock.toList.drop (4 * slot)).take 4)
  have hlen := List.length_take_le 4 (inode.iBlock.toList.drop (4 * slot))
  exact hlt.trans_le (Nat.pow_le_pow_right (by decide) hlen)

/-- Sectors of different blocks differ, and only block 0 can have sector 0. -/
theorem sectorFromBlock_eq (hbs : ext4BlockSize v.superblock % 512 = 0)
    (hle : ext4BlockSize v.superblock ≤ 4096) (hpo : 0 ≤ v.partitionOffset)
    (hlt : v.partitionOffset < 2 ^ 63) {p : ℕ} (hp : p < 2 ^ 32) :
    ext4SectorFromBlock p v =
      p * (ext4BlockSize v.superblock / 512) + (v.partitionOffset / 512).toNat ∧
    ext4SectorFromBlock p v =
      ((p * ext4BlockSize v.superblock + v.partitionOffset) / 512).toNat := by
  obtain ⟨m, hm⟩ := Int.eq_ofNat_of_zero_le hpo
  obtain ⟨k, hk⟩ := Nat.dvd_of_mod_eq_zero hbs
  have hprod : p * ext4BlockSize v.superblock ≤ 2 ^ 32 * 4096 := Nat.mul_le_mul hp.le hle
  have hsum : ((p * ext4BlockSize v.superblock : ℕ) : ℤ) + v.partitionOffset =
      ((p * ext4BlockSize v.superblock + m : ℕ) : ℤ) := by
    rw [hm, Nat.cast_add]
  have hsector : ext4SectorFromBlock p v = (p * ext4BlockSize v.superblock + m) / 512 := by
    rw [ext4SectorFromBlock, hsum, u64_natCast (by omega)]
    rfl
  constructor
  · have hmul : p * (512 * k) = 512 * (p * k) := by ring
    rw [hsector, hk, hmul, Nat.mul_add_div (by decide), Nat.mul_div_cancel_left k (by decide), hm]
    omega
  · rw [hsector, ← Nat.cast_mul, hsum]
    omega

theorem ext2Path_lt {A b : ℕ} (hA : 0 < A) (hb : b ≤ 11 + A + A * A) :
    ∀ i ∈ (ext2Path A b).2, i < A := by
  rw [ext2Path]
  intro i hi
  split at hi
  · exact absurd hi List.not_mem_nil
  split at hi
  · rw [List.mem_singleton.mp hi]
    omega
  · rw [if_pos (by omega)] at hi
    rcases List.mem_pair.mp hi with rfl | rfl
    · exact (Nat.div_lt_iff_lt_mul hA).mpr (by omega)
    · exact Nat.mod_lt _ hA

/-- The sector that is found is that of the block at the end of the byte-wise way. -/
theorem sector_eq_iff (hbs : ext4BlockSize v.superblock % 512 = 0)
    (hpos : 512 ≤ ext4BlockSize v.superblock) (hle : ext4BlockSize v.superblock ≤ 4096)
    (hpo : 0 ≤ v.partitionOffset) (hlt : v.partitionOffset < 2 ^ 63) {p q : ℕ} (hp : p < 2 ^ 32)
    (hq : q < 2 ^ 32) :
    ((if q = 0 then 0 else ext4SectorFromBlock q v) =
      if p = 0 then 0 else ext4SectorFromBlock p v) ↔ q = p := by
  have hk : 0 < ext4BlockSize v.superblock / 512 := Nat.div_pos hpos (by decide)
  constructor
  · intro heq
    by_cases hq0 : q = 0
    · rw [if_pos hq0] at heq
      by_contra hne
      rw [if_neg (fun h0 => hne (hq0.trans h0.symm)),
        (sectorFromBlock_eq hbs hle hpo hlt hp).1] at heq
      have hmul := Nat.mul_pos (Nat.pos_of_ne_zero fun h0 => hne (hq0.trans h0.symm)) hk
      omega
    rw [if_neg hq0, (sectorFromBlock_eq hbs hle hpo hlt hq).1] at heq
    have hmul := Nat.mul_pos (Nat.pos_of_ne_zero hq0) hk
    by_cases hp0 : p = 0
    · rw [if_pos hp0] at heq
      omega
    · rw [if_neg hp0, (sectorFromBlock_eq hbs hle hpo hlt hp).1] at heq
      exact Nat.eq_of_mul_eq_mul_right hk (by omega)
  · rintro rfl
    rfl

end Sectors

end GammaRay.Ext4
