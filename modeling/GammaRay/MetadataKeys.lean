import GammaRay.BlockGroups

set_option autoImplicit false

/-!
# Under which sectors inodes and descriptors are recorded

A write of a block is looked up under the first sector of the block. The crawler rounds the
sector of an inode or of a descriptor down on the disk as a whole, not in its partition.
-/
namespace GammaRay.Ext4
open Bytes Decimal Bson
open KvStore (ascii)

/-- Rounding a place on the disk is rounding in the partition just when the partition begins
between two blocks of the disk. -/
theorem rounded_eq_iff {p step : ℕ} (hstep : 0 < step) (y : ℕ) :
    (512 * p + y) / 512 / step * step = p + y / (512 * step) * step ↔ p % step = 0 := by
  rw [Nat.mul_add_div (by decide), ← Nat.div_div_eq_div_mul]
  generalize y / 512 = j
  constructor
  · intro heq
    have hdvd : step ∣ p + j / step * step := heq ▸ Nat.dvd_mul_left _ _
    exact Nat.mod_eq_zero_of_dvd ((Nat.dvd_add_left (Nat.dvd_mul_left _ _)).mp hdvd)
  · intro hmod
    obtain ⟨q, rfl⟩ := Nat.dvd_of_mod_eq_zero hmod
    rw [Nat.mul_add_div hstep, Nat.add_mul, Nat.mul_comm q step]

/-- The block that holds an inode, from the start of its table. -/
def TreeCrawl.inodeBlock (c : TreeCrawl) (num table : ℕ) : ℕ :=
  table + c.inodeOffset num / c.blockSize

def bgdBlock (v : Volume) (i : ℕ) : ℕ :=
  v.superblock.sFirstDataBlock + 1 + i * bgdSize / ext4BlockSize v.superblock

section Keys

variable {v : Volume}

/-- A partition that begins at a sector. -/
structure Aligned (v : Volume) : Prop where
  blockSize : v.superblock.sLogBlockSize ≤ 19
  offset : 0 ≤ v.partitionOffset
  offset_lt : v.partitionOffset < 2 ^ 63
  sector : v.partitionOffset % 512 = 0

/-- The partition begins at sector `p`, and a block has `step` sectors. -/
structure Laid (v : Volume) (p step : ℕ) : Prop where
  offset : v.partitionOffset = (512 * p : ℕ)
  offset_lt : p < 2 ^ 54
  step_pos : 0 < step
  step_dvd : step ∣ 2 ^ 32
  blockSize : ext4BlockSize v.superblock = 512 * step
  blockSize_le : ext4BlockSize v.superblock ≤ 2 ^ 29

theorem Aligned.laid (ha : Aligned v) : ∃ p step, Laid v p step := by
  obtain ⟨hbs, hle⟩ := ext4BlockSize_of_le ha.blockSize
  have hlog := ha.blockSize
  have h0 := ha.offset
  have hlt := ha.offset_lt
  have hsector := ha.sector
  exact ⟨(v.partitionOffset / 512).toNat, _, by omega, by omega, Nat.two_pow_pos _,
    Nat.pow_dvd_pow 2 (by omega), hbs, hle⟩

variable {p step : ℕ}

theorem Laid.mod_iff (hl : Laid v p step) :
    p % step = 0 ↔ v.partitionOffset % ext4BlockSize v.superblock = 0 := by
  rw [hl.offset, hl.blockSize]
  norm_cast
  rw [Nat.mul_mod_mul_left]
  omega

theorem Laid.sectorOfBlock_eq (hl : Laid v p step) (block : ℕ) :
    sectorOfBlock v block = p + block * step := by
  have hmul : ((block * ext4BlockSize v.superblock : ℕ) : ℤ) + v.partitionOffset =
      (512 * (p + block * step) : ℕ) := by
    rw [hl.offset, hl.blockSize, ← Nat.cast_add]
    congr 1
    ring
  rw [sectorOfBlock, hmul]
  omega

theorem Laid.inodeSector_iff {c : TreeCrawl} (hl : Laid c.volume p step) {num table : ℕ}
    (htable : table < 2 ^ 32) (hsize : c.sInodeSize < 2 ^ 16) :
    c.inodeSector num table = sectorOfBlock c.volume (c.inodeBlock num table) ↔
      p % step = 0 := by
  have hbs := hl.blockSize
  have hle := hl.blockSize_le
  have hp := hl.offset_lt
  have hmul : ext4BlockSize c.volume.superblock * table ≤ 2 ^ 29 * 2 ^ 32 :=
    Nat.mul_le_mul hle htable.le
  have hindex : TreeCrawl.inodeIndex num % c.volume.superblock.sInodesPerGroup < 2 ^ 32 :=
    (Nat.mod_le _ _).trans_lt (Nat.mod_lt _ (by decide))
  have hoffset : c.inodeOffset num ≤ 2 ^ 32 * 2 ^ 16 := Nat.mul_le_mul hindex.le hsize.le
  have hplace : c.inodePlace num table =
      512 * p + (512 * step * table + c.inodeOffset num) := by
    rw [TreeCrawl.inodePlace, ext4BlockOffset, Nat.mod_eq_of_lt (by omega), hl.offset, ← hbs]
    unfold u64
    omega
  have hblock : c.inodeBlock num table =
      (512 * step * table + c.inodeOffset num) / (512 * step) := by
    have hpos := hl.step_pos
    rw [Nat.mul_add_div (by omega), TreeCrawl.inodeBlock, TreeCrawl.blockSize, hbs]
  have hstep : c.blockSize / sectorSize = step := by
    rw [TreeCrawl.blockSize, hbs]
    exact Nat.mul_div_cancel_left step (by decide)
  rw [TreeCrawl.inodeSector, hl.sectorOfBlock_eq, hblock, hplace]
  rw [hstep]
  exact rounded_eq_iff hl.step_pos _

/-- Cutting a sector number to 32 bits does not disturb the rounding to blocks. -/
theorem truncated_rounding (hpos : 0 < step) (hdvd : step ∣ 2 ^ 32) (x : ℕ) :
    x % 2 ^ 32 / step % 2 ^ 32 * step % 2 ^ 32 = x / step * step % 2 ^ 32 := by
  obtain ⟨m, hm⟩ := hdvd
  have hm0 : 0 < m := Nat.pos_of_ne_zero fun h0 => by rw [h0] at hm; omega
  have hle : m ≤ 2 ^ 32 := by
    rw [hm]
    exact Nat.le_mul_of_pos_left m hpos
  have hdiv : x % 2 ^ 32 / step = x / step % m := by
    rw [hm, Nat.mod_mul_right_div_self]
  have hlt : x / step % m < 2 ^ 32 := (Nat.mod_lt _ hm0).trans_le hle
  rw [hdiv, Nat.mod_eq_of_lt hlt, hm, Nat.mul_comm step m, Nat.mul_mod_mul_right,
    Nat.mul_mod_mul_right, Nat.mod_mod]

theorem Laid.bgdSector_iff (hl : Laid v p step) (hfirst : v.superblock.sFirstDataBlock + 1 < 2 ^ 32)
    {i : ℕ} (hi : i < 2 ^ 32) :
    bgdSector v i = sectorOfBlock v (bgdBlock v i) ↔
      p % step = 0 ∧ sectorOfBlock v (bgdBlock v i) < 2 ^ 32 := by
  have hbs := hl.blockSize
  have hle := hl.blockSize_le
  have hp := hl.offset_lt
  have hpos := hl.step_pos
  obtain ⟨y, hy⟩ : ∃ y, y = 512 * step * (v.superblock.sFirstDataBlock + 1) + i * bgdSize :=
    ⟨_, rfl⟩
  have hmul : 512 * step * (v.superblock.sFirstDataBlock + 1) ≤ 2 ^ 29 * 2 ^ 32 :=
    Nat.mul_le_mul (hbs ▸ hle) hfirst.le
  have hplace : u64 (v.partitionOffset + (((v.superblock.sFirstDataBlock + 1) % 2 ^ 32 *
      ext4BlockSize v.superblock + i * bgdSize : ℕ) : ℤ)) = 512 * p + y := by
    rw [Nat.mod_eq_of_lt hfirst, hl.offset, hbs, Nat.mul_comm _ (512 * step), ← hy]
    rw [bgdSize] at hy
    unfold u64
    omega
  have hstep : ext4BlockSize v.superblock / sectorSize = step := by
    rw [hbs]
    exact Nat.mul_div_cancel_left step (by decide)
  have hsector : bgdSector v i = (512 * p + y) / 512 / step * step % 2 ^ 32 := by
    rw [bgdSector]
    rw [hplace, hstep]
    exact truncated_rounding hpos hl.step_dvd _
  have hblock : bgdBlock v i = y / (512 * step) := by
    rw [bgdBlock, hbs, hy, Nat.mul_add_div (by omega)]
  rw [hsector, hl.sectorOfBlock_eq, hblock, ← rounded_eq_iff hpos y]
  constructor
  · intro heq
    have hdvd : step ∣ p + y / (512 * step) * step :=
      heq ▸ (Nat.dvd_mod_iff hl.step_dvd).mpr (Nat.dvd_mul_left _ _)
    have hmod := Nat.mod_eq_zero_of_dvd ((Nat.dvd_add_left (Nat.dvd_mul_left _ _)).mp hdvd)
    refine ⟨(rounded_eq_iff hpos y).mpr hmod, ?_⟩
    rw [← heq]
    exact Nat.mod_lt _ (by decide)
  · rintro ⟨heq, hlt⟩
    rw [heq, Nat.mod_eq_of_lt hlt]

end Keys

def oneFileCrawlAt (offset : ℤ) : TreeCrawl :=
  { oneFileCrawl with volume := { oneFileCrawl.volume with partitionOffset := offset } }

theorem rootInfo_cachedAt (offset : ℤ) : Cached (oneFileCrawlAt offset) rootInfo :=
  ⟨rootInfo_cached.used, rootInfo_cached.grouped, rootInfo_cached.table, rootInfo_cached.inode⟩

theorem oneFile_next (offset : ℤ) :
    ext4NextBlockGroupDescriptor (oneFileCrawlAt offset).volume (oneFileCrawlAt offset).bcache 0 =
      some (some (⟨0, 0, 3⟩, bgdSector (oneFileCrawlAt offset).volume 0,
        bgdOffset (oneFileCrawlAt offset).volume 0), 1) := by
  have hbgd : bgdAt oneFileCrawl.bcache 0 = some ⟨0, 0, 3⟩ := rfl
  have hnum : 0 < ext4NumBlockGroups oneFileCrawl.volume.superblock := by decide
  rw [ext4NextBlockGroupDescriptor]
  refine (if_pos hnum).trans ?_
  exact Loop.bind_of_some hbgd _

end GammaRay.Ext4
