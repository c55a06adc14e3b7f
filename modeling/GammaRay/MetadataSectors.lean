import GammaRay.AsyncEnqueue
import GammaRay.ExtentAgreement

set_option autoImplicit false

/-!
# Which sectors count as metadata

The crawler records a sector in the metadata filter under its number divided by the block
size, the queuer looks a sector up under its number divided by 4096.
-/
namespace GammaRay.Ext4
open Bytes KvStore

structure BlockGroupDescriptor where
  bgBlockBitmapLo : ℕ
  bgInodeBitmapLo : ℕ
  bgInodeTableLo : ℕ

/-- `sizeof(struct ext4_block_group_descriptor)`. -/
def bgdSize : ℕ := 32

/-- `sizeof(struct ext4_inode)`. -/
def inodeSize : ℕ := 156

def ext4SBlocksCount (superblock : Superblock) : ℕ :=
  superblock.sBlocksCountHi <<< 32 ||| superblock.sBlocksCountLo

def ext4NumBlockGroups (superblock : Superblock) : ℕ :=
  u64 (ext4SBlocksCount superblock + superblock.sBlocksPerGroup - 1) / superblock.sBlocksPerGroup

/-- `ext4_serialize_fs`, which is passed the offset of the partition. -/
def superblockSector (v : Volume) : ℕ := u64 (v.partitionOffset.tdiv sectorSize)

/-- `ext4_next_block_group_descriptor`: the block the descriptor lies in, as a 32-bit sector. -/
def bgdSector (v : Volume) (i : ℕ) : ℕ :=
  let blockSize := ext4BlockSize v.superblock
  let offset := (v.superblock.sFirstDataBlock + 1) % 2 ^ 32 * blockSize
  let sector := u64 (v.partitionOffset + (offset + i * bgdSize : ℕ)) / sectorSize % 2 ^ 32
  let sector := sector / (blockSize / sectorSize) % 2 ^ 32
  sector * (blockSize / sectorSize) % 2 ^ 32

/-- The sector of a block of the file system, from its byte offset. -/
def blockSector (v : Volume) (block extra : ℕ) : ℕ :=
  u64 ((block * ext4BlockSize v.superblock + extra : ℕ) + v.partitionOffset) / sectorSize

/-- What `ext4_serialize_bgd_sectors` takes for the end of the inode table. -/
def inodeTableEnd (v : Volume) (bgd : BlockGroupDescriptor) : ℕ :=
  u64 (blockSector v bgd.bgInodeTableLo (v.superblock.sInodesPerGroup * inodeSize) - 1)

/-- Its loop counts from zero to a sector number, not to a number of sectors. -/
def inodeTableSectors (v : Volume) (bgd : BlockGroupDescriptor) : List ℕ :=
  let step := ext4BlockSize v.superblock / sectorSize
  (List.range ((inodeTableEnd v bgd + step - 1) / step)).map fun j =>
    (blockSector v bgd.bgInodeTableLo 0 + j * step) % 2 ^ 64

/-- The sectors that `ext4_serialize_bgd_sectors` records. -/
def bgdSectors (v : Volume) (bgd : BlockGroupDescriptor) : List ℕ :=
  blockSector v bgd.bgBlockBitmapLo 0 :: blockSector v bgd.bgInodeBitmapLo 0 ::
    inodeTableSectors v bgd

/-- The groups that `ext4_serialize_bgds` gets to; a descriptor in sector 0 ends its loop. -/
def groups (v : Volume) : List ℕ :=
  (List.range (ext4NumBlockGroups v.superblock)).takeWhile fun i => bgdSector v i ≠ 0

def bgdsSectors (v : Volume) (descriptors : ℕ → BlockGroupDescriptor) : List ℕ :=
  (groups v).flatMap fun i => bgdSector v i :: bgdSectors v (descriptors i)

def record (v : Volume) (bits : Bitarray) (sectors : List ℕ) : Bitarray :=
  sectors.foldl (fun bits s => bits.setBit (s / ext4BlockSize v.superblock)) bits

theorem record_nil (v : Volume) (bits : Bitarray) : record v bits [] = bits := rfl

theorem record_append (v : Volume) (bits : Bitarray) (l l' : List ℕ) :
    record v bits (l ++ l') = record v (record v bits l) l' :=
  List.foldl_append

theorem getBit_record (v : Volume) (bits : Bitarray) (l : List ℕ) (i : ℕ) :
    (record v bits l).getBit i = true ↔
      bits.getBit i = true ∨ i < bits.len ∧ ∃ s ∈ l, s / ext4BlockSize v.superblock = i := by
  induction l generalizing bits with
  | nil => simp [record_nil]
  | cons s l ih =>
    change (record v (bits.setBit (s / ext4BlockSize v.superblock)) l).getBit i = true ↔ _
    rw [ih, Bitarray.getBit_setBit, Bitarray.setBit_len]
    simp only [Bool.or_eq_true, Bool.and_eq_true, decide_eq_true_eq, List.exists_mem_cons_iff,
      eq_comm (a := i)]
    tauto

/-! ## The walk over a file records nothing else -/

theorem recordIndex_bits {o : Options} {v : Volume} {blockNum : ℕ} {idx : ExtentIdx}
    {r r' : Records} (h : recordIndex o v blockNum idx r = some r') :
    ∃ l, r'.bits = record v r.bits l := by
  unfold recordIndex at h
  split at h
  · simp only [Option.bind_eq_bind, Option.bind_eq_some_iff, Option.some.injEq] at h
    obtain ⟨extents, -, rfl⟩ := h
    exact ⟨[_], rfl⟩
  · obtain rfl := Option.some.inj h
    exact ⟨[], rfl⟩

theorem recordBlock_bits {o : Options} {v : Volume} {blockNum : ℕ} {extent : Extent}
    {buf : Buffer} {r r' : Records} (h : recordBlock o v blockNum extent buf r = some r') :
    ∃ l, r'.bits = record v r.bits l := by
  simp only [recordBlock, Option.bind_eq_bind, Option.bind_eq_some_iff] at h
  obtain ⟨sectors, -, h⟩ := h
  split at h
  · simp only [Option.bind_eq_some_iff, Option.some.injEq] at h
    obtain ⟨bytes, -, data, -, rfl⟩ := h
    exact ⟨[_], rfl⟩
  · obtain rfl := Option.some.inj h
    exact ⟨[], rfl⟩

theorem pass_bits {o : Options} {v : Volume} {b : ℕ} {w : WalkState} {r r' : Records}
    (h : pass o v b w r = some r') : ∃ l, r'.bits = record v r.bits l := by
  unfold pass at h
  cases hf : followed b w with
  | none =>
    rw [hf] at h
    rw [← Option.some.inj h]
    exact ⟨[], rfl⟩
  | some idx =>
    rw [hf] at h
    exact recordIndex_bits h

theorem serializeExtent_bits {o : Options} {v : Volume} {b : ℕ} {s : SerializeState}
    {q : ℤ × Records} (h : Loop.Ends (ext4SerializeExtentStep o v b) s q) :
    ∃ l, q.2.bits = record v s.records.bits l := by
  induction h with
  | @leave s q h =>
    obtain ⟨ret, r'⟩ := q
    rcases serializeStep_leave_iff.mp h with ⟨e, buf, -, hb, -⟩ | ⟨buf, -, rfl, -⟩
    · exact recordBlock_bits hb
    · exact ⟨[], rfl⟩
  | @again s t q h _ ih =>
    obtain ⟨l, hl⟩ := ih
    obtain ⟨w, r', -, hp, rfl⟩ := serializeStep_again_iff.mp h
    obtain ⟨l', hl'⟩ := pass_bits hp
    refine ⟨l' ++ l, ?_⟩
    rw [record_append, ← hl', hl]

/-! ## Crawler and queuer -/

/-- A crawl of one partition. `files` are the sectors recorded on the walks over its files. -/
structure Crawl where
  volume : Volume
  logBlockSize : volume.superblock.sLogBlockSize ≤ 53
  mbr : Bool
  stSize : ℕ
  descriptors : ℕ → BlockGroupDescriptor
  files : List ℕ

namespace Crawl

def blockSize (c : Crawl) : ℕ := ext4BlockSize c.volume.superblock

/-- Every sector recorded. -/
def sectors (c : Crawl) : List ℕ :=
  superblockSector c.volume :: (bgdsSectors c.volume c.descriptors ++ c.files)

/-- `bitarray_init`, the bit of the MBR, and the partition. -/
def filter (c : Crawl) (h : Heap) : Bitarray :=
  let bits := Bitarray.init h (c.stSize / 4096)
  record c.volume (if c.mbr then bits.setBit 0 else bits) c.sectors

def filterLen (c : Crawl) : ℕ := 2 ^ highestSetBit64 (c.stSize / 4096)

/-- No write to a recorded sector is ever turned down. -/
def Agrees (c : Crawl) : Prop :=
  ∀ (h : Heap), ∀ s ∈ c.sectors, s < 2 ^ 63 → s / c.blockSize < c.filterLen →
    ∀ (connBusy cmdBusy : Bool) (data : List UInt8) (handle handle' : Handle) (ok : Bool),
      redisAsyncWriteEnqueue (AsyncEnqueue.Write.bit (c.filter h) ⟨s, data⟩) connBusy cmdBusy s data
        handle = some (ok, handle') → ok = true

/-- The number that a recorded sector is looked up under is one that was recorded. -/
def Covered (c : Crawl) : Prop :=
  ∀ s ∈ c.sectors, s < 2 ^ 63 → s / c.blockSize < c.filterLen →
    s / 4096 < c.filterLen ∧
      (c.mbr = true ∧ s / 4096 = 0 ∨ ∃ r ∈ c.sectors, r / c.blockSize = s / 4096)

end Crawl

theorem init_getBit_zeroHeap (len i : ℕ) : (Bitarray.init zeroHeap len).getBit i = false := by
  unfold Bitarray.getBit
  split
  · have hzero : (Bitarray.init zeroHeap len).array =
        List.replicate ((2 ^ highestSetBit64 len + 7) / 8) 0 := by
      change List.replicate _ 0 ++ (List.replicate _ 0).drop _ = _
      rw [List.drop_replicate, List.replicate_append_replicate]
      congr 1
      omega
    rw [hzero, List.getD_eq_getElem?_getD, List.getElem?_replicate]
    split <;> exact Nat.zero_testBit _
  · rfl

theorem Crawl.filter_getBit (c : Crawl) (h : Heap) (i : ℕ) :
    (c.filter h).getBit i = true ↔
      (Bitarray.init h (c.stSize / 4096)).getBit i = true ∨
        i < c.filterLen ∧ (c.mbr = true ∧ i = 0 ∨ ∃ r ∈ c.sectors, r / c.blockSize = i) := by
  rw [Crawl.filter, getBit_record]
  cases hm : c.mbr with
  | false => simp [Crawl.filterLen, Crawl.blockSize, Bitarray.init]
  | true =>
    simp only [if_true, Bitarray.getBit_setBit, Bitarray.setBit_len, Bool.or_eq_true,
      Bool.and_eq_true, decide_eq_true_eq, true_and]
    change (_ ∨ i = 0 ∧ i < c.filterLen) ∨ i < c.filterLen ∧ _ ↔ _
    rw [or_assoc, and_comm (a := i = 0), ← and_or_left]
    rfl

theorem enqueue_ok_iff (bit : Bool) (sector : ℤ) (data : List UInt8) :
    (∀ (connBusy cmdBusy : Bool) (handle handle' : Handle) (ok : Bool),
      redisAsyncWriteEnqueue bit connBusy cmdBusy sector data handle = some (ok, handle') →
        ok = true) ↔ bit = true := by
  constructor
  · intro h
    by_contra hbit
    rw [Bool.not_eq_true] at hbit
    subst hbit
    have := h true false (redisInit Redis.Db.empty 0) _ false rfl
    cases this
  · rintro rfl connBusy cmdBusy handle handle' ok he
    simp only [redisAsyncWriteEnqueue, Bool.not_true, Bool.and_false, Bool.false_eq_true,
      if_false, Option.bind_eq_bind, Option.bind_eq_some_iff] at he
    obtain ⟨h₁, -, h₂, -, he⟩ := he
    split at he <;> exact (Prod.mk.inj (Option.some.inj he)).1.symm

theorem write_bit {s : ℕ} (hs : s < 2 ^ 63) (bits : Bitarray) (data : List UInt8) :
    AsyncEnqueue.Write.bit bits ⟨s, data⟩ = bits.getBit (s / 4096) := by
  have hdiv : (s : ℤ).tdiv 4096 = ((s / 4096 : ℕ) : ℤ) := by
    rw [Int.tdiv_eq_ediv_of_nonneg (by omega)]
    rfl
  rw [AsyncEnqueue.Write.bit, hdiv, u64_natCast (by omega)]

theorem Crawl.agrees_iff (c : Crawl) : c.Agrees ↔ c.Covered := by
  constructor
  · intro h s hs hlt hin
    have hbit := (enqueue_ok_iff _ s []).mp fun connBusy cmdBusy handle handle' ok =>
      h zeroHeap s hs hlt hin connBusy cmdBusy [] handle handle' ok
    rw [write_bit hlt, c.filter_getBit, init_getBit_zeroHeap] at hbit
    exact hbit.resolve_left Bool.false_ne_true
  · intro h heap s hs hlt hin connBusy cmdBusy data handle handle' ok
    refine (enqueue_ok_iff _ s data).mpr ?_ connBusy cmdBusy handle handle' ok
    rw [write_bit hlt, c.filter_getBit]
    exact Or.inr (h s hs hlt hin)

theorem Crawl.covered_of_4096 (c : Crawl) (h : c.blockSize = 4096) : c.Covered := by
  intro s hs _ hin
  rw [h] at hin ⊢
  exact ⟨hin, Or.inr ⟨s, hs, rfl⟩⟩

/-- A partition at sector 40960 with one group, everything of which lies in its first block. -/
def strayCrawl (k : ℕ) (hk : k ≤ 53) : Crawl where
  volume := ⟨⟨0, fun _ => 0⟩, 20971520, ⟨k, 1, 0, 0, 1, 0⟩⟩
  logBlockSize := hk
  mbr := true
  stSize := 2 ^ 32
  descriptors := fun _ => ⟨0, 0, 0⟩
  files := []

theorem strayCrawl_blockSize (k : ℕ) (hk : k ≤ 53) :
    (strayCrawl k hk).blockSize = 1024 * 2 ^ k := by
  have hle : 2 ^ k ≤ 2 ^ 53 := Nat.pow_le_pow_right (by decide) hk
  change 1024 * 2 ^ k % 2 ^ 64 = _
  omega

theorem inodeTableSectors_spec {v : Volume} {bgd : BlockGroupDescriptor} {s : ℕ}
    (hs : s ∈ inodeTableSectors v bgd) :
    ∃ i < inodeTableEnd v bgd, s = (blockSector v bgd.bgInodeTableLo 0 + i) % 2 ^ 64 := by
  obtain ⟨j, hj, rfl⟩ := List.mem_map.mp hs
  rw [List.mem_range] at hj
  generalize ext4BlockSize v.superblock / sectorSize = step at hj
  refine ⟨j * step, ?_, rfl⟩
  rcases Nat.eq_zero_or_pos step with rfl | hpos
  · simp at hj
  · have hle := Nat.mul_le_of_le_div _ _ _ (Nat.succ_le_of_lt hj)
    rw [Nat.succ_mul] at hle
    omega

/-- All that it records lies from there to twice as far, but for the descriptor one block on. -/
theorem strayCrawl_sectors {k : ℕ} (hk : k ≤ 53) {s : ℕ} (hs : s ∈ (strayCrawl k hk).sectors) :
    40960 ≤ s ∧ s < 81920 ∨ s = bgdSector (strayCrawl k hk).volume 0 := by
  have hzero : blockSector (strayCrawl k hk).volume 0 0 = 40960 := by
    change u64 ((0 * _ + 0 : ℕ) + 20971520) / sectorSize = 40960
    rw [Nat.zero_mul]
    rfl
  rcases List.mem_cons.mp hs with rfl | hs
  · have hfirst : superblockSector (strayCrawl k hk).volume = 40960 := rfl
    exact Or.inl (by omega)
  rw [show (strayCrawl k hk).files = [] from rfl, List.append_nil] at hs
  obtain ⟨i, hi, hs⟩ := List.mem_flatMap.mp hs
  have hi0 : i = 0 := by
    have hmem := List.mem_range.mp ((List.takeWhile_sublist _).mem hi)
    have hn : ext4NumBlockGroups (strayCrawl k hk).volume.superblock = 1 := by
      change u64 ((0 <<< 32 ||| 1 : ℕ) + (1 : ℕ) - 1) / 1 = 1
      decide
    omega
  subst hi0
  rcases List.mem_cons.mp hs with rfl | hs
  · exact Or.inr rfl
  rcases List.mem_cons.mp hs with rfl | hs
  · exact Or.inl (by rw [show (strayCrawl k hk).descriptors 0 = ⟨0, 0, 0⟩ from rfl, hzero]; decide)
  rcases List.mem_cons.mp hs with rfl | hs
  · exact Or.inl (by rw [show (strayCrawl k hk).descriptors 0 = ⟨0, 0, 0⟩ from rfl, hzero]; decide)
  obtain ⟨j, hj, rfl⟩ := inodeTableSectors_spec hs
  have hend : inodeTableEnd (strayCrawl k hk).volume ((strayCrawl k hk).descriptors 0) = 40959 := by
    change u64 ((blockSector (strayCrawl k hk).volume 0 0 : ℤ) - 1) = 40959
    rw [hzero]
    rfl
  change 40960 ≤ (blockSector (strayCrawl k hk).volume 0 0 + j) % 2 ^ 64 ∧ _ ∨ _
  change 40960 ≤ (blockSector (strayCrawl k hk).volume 0 0 + j) % 2 ^ 64 ∧
    (blockSector (strayCrawl k hk).volume 0 0 + j) % 2 ^ 64 < 81920 ∨ _
  rw [hzero]
  exact Or.inl (by omega)

/-- A descriptor is looked for one block behind the start of the partition. -/
theorem strayCrawl_bgdSector {k : ℕ} (hk : k ≤ 53) :
    bgdSector (strayCrawl k hk).volume 0 ≤ 40960 + 2 * 2 ^ k ∧
      (k < 2 → 40960 ≤ bgdSector (strayCrawl k hk).volume 0) := by
  have hle : 2 ^ k ≤ 2 ^ 53 := Nat.pow_le_pow_right (by decide) hk
  have hbs : ext4BlockSize (strayCrawl k hk).volume.superblock = 1024 * 2 ^ k :=
    strayCrawl_blockSize k hk
  have hdiv : 1024 * 2 ^ k / sectorSize = 2 * 2 ^ k := by
    change 1024 * 2 ^ k / 512 = _
    omega
  have hsum : u64 ((strayCrawl k hk).volume.partitionOffset +
      ((0 + 1) % 2 ^ 32 * (1024 * 2 ^ k) + 0 * bgdSize : ℕ)) / sectorSize = 40960 + 2 * 2 ^ k := by
    have hnat : (strayCrawl k hk).volume.partitionOffset +
        ((0 + 1) % 2 ^ 32 * (1024 * 2 ^ k) + 0 * bgdSize : ℕ) =
          ((20971520 + 1024 * 2 ^ k : ℕ) : ℤ) := by
      change (20971520 : ℤ) + _ = _
      omega
    rw [hnat, u64_natCast (by omega)]
    change (20971520 + 1024 * 2 ^ k) / 512 = _
    omega
  have heq : bgdSector (strayCrawl k hk).volume 0 =
      (40960 + 2 * 2 ^ k) % 2 ^ 32 / (2 * 2 ^ k) % 2 ^ 32 * (2 * 2 ^ k) % 2 ^ 32 := by
    unfold bgdSector
    simp only [hbs, hdiv]
    exact congrArg (fun x => x % 2 ^ 32 / (2 * 2 ^ k) % 2 ^ 32 * (2 * 2 ^ k) % 2 ^ 32) hsum
  rw [heq]
  constructor
  · calc _ ≤ (40960 + 2 * 2 ^ k) % 2 ^ 32 / (2 * 2 ^ k) % 2 ^ 32 * (2 * 2 ^ k) := Nat.mod_le _ _
      _ ≤ (40960 + 2 * 2 ^ k) % 2 ^ 32 / (2 * 2 ^ k) * (2 * 2 ^ k) :=
        Nat.mul_le_mul_right _ (Nat.mod_le _ _)
      _ ≤ (40960 + 2 * 2 ^ k) % 2 ^ 32 := Nat.div_mul_le_self _ _
      _ ≤ _ := Nat.mod_le _ _
  · intro hk2
    interval_cases k <;> decide

/-- The superblock is looked up under 40960 / 4096 = 10, a number that nothing was recorded by. -/
theorem strayCrawl_stray {k : ℕ} (hk : k ≤ 53) (h : k ≠ 2) :
    ¬((strayCrawl k hk).mbr = true ∧ 40960 / 4096 = 0 ∨
      ∃ r ∈ (strayCrawl k hk).sectors, r / (strayCrawl k hk).blockSize = 40960 / 4096) := by
  rintro (⟨-, h0⟩ | ⟨r, hr, hbit⟩)
  · cases h0
  have hpos : 0 < 2 ^ k := Nat.two_pow_pos k
  obtain ⟨hup, hlow⟩ := strayCrawl_bgdSector hk
  rw [strayCrawl_blockSize, Nat.div_eq_iff (by omega)] at hbit
  rcases Nat.lt_or_gt_of_ne h with hk2 | hk2
  · have hsmall : 2 ^ k ≤ 2 ^ 1 := Nat.pow_le_pow_right (by decide) (by omega)
    have := hlow hk2
    rcases strayCrawl_sectors hk hr with h | h <;> omega
  · have hbig : 2 ^ 3 ≤ 2 ^ k := Nat.pow_le_pow_right (by decide) hk2
    rcases strayCrawl_sectors hk hr with h | h <;> omega

theorem strayCrawl_not_covered {k : ℕ} (hk : k ≤ 53) (h : k ≠ 2) :
    ¬(strayCrawl k hk).Covered := by
  intro hc
  have hpos : 0 < 2 ^ k := Nat.two_pow_pos k
  have hlen : (strayCrawl k hk).filterLen = 2 ^ 20 := by
    change 2 ^ highestSetBit64 (2 ^ 32 / 4096) = 2 ^ 20
    decide
  refine strayCrawl_stray hk h (hc 40960 List.mem_cons_self (by decide) ?_).2
  rw [hlen, strayCrawl_blockSize, Nat.div_lt_iff_lt_mul (by omega)]
  omega

/-- A recorded sector is always passed on just when its number over 4096 is again the number
over the block size of a recorded sector; only blocks of 4096 bytes ensure it. -/
theorem recorded_sectors_passed_iff (c : Crawl) (k : ℕ) (hk : k ≤ 53) :
    (c.Agrees ↔ c.Covered) ∧
      ((∀ c : Crawl, c.volume.superblock.sLogBlockSize = k → c.Agrees) ↔ k = 2) := by
  refine ⟨c.agrees_iff, ⟨fun h => ?_, ?_⟩⟩
  · by_contra hne
    exact strayCrawl_not_covered hk hne ((Crawl.agrees_iff _).mp (h (strayCrawl k hk) rfl))
  · rintro rfl c hc
    apply (Crawl.agrees_iff c).mpr
    apply c.covered_of_4096
    rw [Crawl.blockSize, ext4BlockSize, hc]
    decide

theorem recorded_sectors_passed_4096 : (strayCrawl 2 (by decide)).Agrees :=
  (recorded_sectors_passed_iff (strayCrawl 2 (by decide)) 2 (by decide)).2.mpr rfl _ rfl

/-- With blocks of 1024 bytes a write of the superblock is turned down on a busy connection. -/
theorem superblock_write_dropped :
    40960 ∈ (strayCrawl 0 (by decide)).sectors ∧
      redisAsyncWriteEnqueue
        (AsyncEnqueue.Write.bit ((strayCrawl 0 (by decide)).filter zeroHeap) ⟨40960, []⟩) true false
        40960 [] (redisInit Redis.Db.empty 0) = some (false, redisInit Redis.Db.empty 0) := by
  refine ⟨List.mem_cons_self, ?_⟩
  have hbit := write_bit (s := 40960) (by decide) ((strayCrawl 0 (by decide)).filter zeroHeap) []
  have hclear : ((strayCrawl 0 (by decide)).filter zeroHeap).getBit (40960 / 4096) = false := by
    rw [← Bool.not_eq_true, Crawl.filter_getBit, init_getBit_zeroHeap]
    exact not_or.mpr ⟨Bool.false_ne_true, fun h => strayCrawl_stray (by decide) (by decide) h.2⟩
  rw [hclear] at hbit
  exact congrArg (fun bit => redisAsyncWriteEnqueue bit true false 40960 []
    (redisInit Redis.Db.empty 0)) hbit

end GammaRay.Ext4
