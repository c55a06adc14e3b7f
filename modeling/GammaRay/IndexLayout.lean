import GammaRay.Index
import GammaRay.Monitor

set_option autoImplicit false

/-!
# The layout that an index describes

The index of a disk with one file system, loaded by the inferencer. If no sector is taken twice the
store then holds every block of every file where the index has it, and the system can start.
-/
namespace GammaRay.Loader
open Bytes Decimal Bson KvStore
open Redis (Db Command)
open Ext4 (sectorSize)
open Inspect (Layout)

/-! ## Pointers -/

/-- The sectors that a record names. -/
def SectorRecord.sectors {sectorKey : String} (r : SectorRecord sectorKey) : List ℕ :=
  r.fields.filterMap fun e => if e.1.bytes = ascii sectorKey then some (leNat e.2.raw) else none

def FsRecord.sectors (r : FsRecord) : List ℕ :=
  r.fields.filterMap fun e =>
    if e.1.bytes = ascii "superblock_sector" then some (leNat e.2.raw) else none

namespace Field

/-- The sectors of the metadata that a field is about. -/
def marks : Field → List ℕ
  | .inodeSector sector _ => [sector]
  | .files entries _ => entries.map Prod.fst
  | .extents entries _ => entries
  | _ => []

end Field

def FileRecord.marks (r : FileRecord) : List ℕ := r.fields.flatMap Field.marks

/-- What the store is to say of the block with this number of this file. -/
def blockPointer (blockSize file index : ℕ) : List UInt8 :=
  dataPointer (index * blockSize % 2 ^ 64) ((index + 1) * blockSize % 2 ^ 64) file

section Pointers

variable {s : ℕ} {v : List UInt8}

theorem pointer_of_sectorRecord {sectorKey : String} {r : SectorRecord sectorKey}
    {point : ℕ → List (Command KvStore.Key)}
    {fmt : ℕ → List UInt8 → List UInt8 → Command KvStore.Key} {id : ℕ}
    (hpoint : ∀ n, .set (.sector s) v ∈ point n → n = s)
    (hfmt : ∀ field x, fmt id field x ≠ .set (.sector s) v)
    (h : .set (.sector s) v ∈ r.commands point fmt id) : s ∈ r.sectors := by
  obtain ⟨e, he, h⟩ := List.mem_flatMap.mp h
  unfold SectorRecord.fieldCommands at h
  split at h
  · rename_i hkey
    exact List.mem_filterMap.mpr ⟨e, he, by rw [if_pos hkey, hpoint _ h]⟩
  · exact absurd (List.mem_singleton.mp h).symm (hfmt _ _)

theorem pointer_of_fs {r : FsRecord} (h : .set (.sector s) v ∈ r.commands) : s ∈ r.sectors := by
  obtain ⟨e, he, h⟩ := List.mem_flatMap.mp h
  rcases List.mem_append.mp h with h | h
  · split at h
    · rename_i hkey
      refine List.mem_filterMap.mpr ⟨e, he, ?_⟩
      simp only [redisSuperblockInsert, List.mem_singleton, Command.set.injEq,
        KvStore.Key.sector.injEq] at h
      rw [if_pos hkey, h.1]
    · cases h
  · simp at h

theorem pointer_of_field {blockSize id : ℕ} {f : Field}
    (h : .set (.sector s) v ∈ f.commands blockSize id) :
    s ∈ f.marks ∨ ∃ l i z, f.asSectors = some l ∧ l[i]? = some z ∧ u64 z = s ∧
      v = blockPointer blockSize id i := by
  cases f with
  | inodeSector sector hs =>
    simp only [Field.commands, redisFilesInsert, redisFilesSectorInsert, List.mem_cons,
      List.not_mem_nil, or_false, reduceCtorEq, false_or, Command.set.injEq,
      KvStore.Key.sector.injEq] at h
    exact .inl (List.mem_singleton.mpr h.1)
  | inodeNum num hn => simp [Field.commands] at h
  | path p => simp [Field.commands] at h
  | scalar key value hv hk => simp [Field.commands] at h
  | files entries he =>
    obtain ⟨e, he, h⟩ := List.mem_flatMap.mp h
    simp only [Field.filesCommands, redisDirSectorInsert, redisDirFilesInsert, redisDirInsert,
      List.mem_cons, List.not_mem_nil, or_false, reduceCtorEq, false_or, Command.set.injEq,
      KvStore.Key.sector.injEq] at h
    exact .inl (List.mem_map.mpr ⟨e, he, h.1.symm⟩)
  | extents entries he =>
    obtain ⟨e, he, h⟩ := List.mem_flatMap.mp h
    simp only [Field.extentsCommands, redisExtentSectorInsert, redisExtentsInsert,
      redisExtentsSectorInsert, List.mem_cons, List.not_mem_nil, or_false, reduceCtorEq, false_or,
      Command.set.injEq, KvStore.Key.sector.injEq] at h
    exact .inl (h.1 ▸ he)
  | sectors entries =>
    obtain ⟨e, he, h⟩ := List.mem_flatMap.mp h
    simp only [Field.sectorsCommands, redisFileSectorsInsert, List.mem_cons, List.not_mem_nil,
      or_false, reduceCtorEq, false_or, Command.set.injEq, KvStore.Key.sector.injEq] at h
    refine .inr ⟨_, e.2, i32 e.1.2, rfl, ?_, h.1.symm, h.2⟩
    rw [List.getElem?_map, List.mem_zipIdx_iff_getElem?.mp he, Option.map_some]

theorem asSectors_of_mem {r : FileRecord} {f : Field} {l : List ℤ} (hf : f ∈ r.fields)
    (hl : f.asSectors = some l) : r.sectors = l := by
  have hflat := flatMap_findSome asSectors_key (fun l => [l]) r.fields r.distinct
  have hmem : l ∈ r.fields.flatMap fun f => f.asSectors.elim [] fun l => [l] :=
    List.mem_flatMap.mpr ⟨f, hf, by rw [hl]; exact List.mem_singleton_self l⟩
  rw [hflat] at hmem
  rw [FileRecord.sectors]
  cases hfind : r.fields.findSome? Field.asSectors with
  | none =>
    rw [hfind] at hmem
    cases hmem
  | some l' =>
    rw [hfind] at hmem
    exact (List.mem_singleton.mp hmem).symm

theorem pointer_of_file {blockSize id : ℕ} {r : FileRecord}
    (h : .set (.sector s) v ∈ r.commands blockSize id) :
    s ∈ r.marks ∨ ∃ i z, r.sectors[i]? = some z ∧ u64 z = s ∧ v = blockPointer blockSize id i := by
  obtain ⟨f, hf, h⟩ := List.mem_flatMap.mp h
  rcases pointer_of_field h with hmark | ⟨l, i, z, hl, hz, hs, hv⟩
  · exact .inl (List.mem_flatMap.mpr ⟨f, hf, hmark⟩)
  · exact .inr ⟨i, z, asSectors_of_mem hf hl ▸ hz, hs, hv⟩

theorem block_pointed {blockSize id : ℕ} {r : FileRecord} {i : ℕ} {z : ℤ}
    (hz : r.sectors[i]? = some z) :
    .set (.sector (u64 z)) (blockPointer blockSize id i) ∈ r.commands blockSize id := by
  rw [FileRecord.sectors] at hz
  cases hfind : r.fields.findSome? Field.asSectors with
  | none => simp [hfind] at hz
  | some l =>
    rw [hfind, Option.getD_some] at hz
    obtain ⟨f, hf, hl⟩ := List.exists_of_findSome?_eq_some hfind
    refine List.mem_flatMap.mpr ⟨f, hf, ?_⟩
    cases f with
    | sectors entries =>
      obtain rfl := Option.some.inj hl
      rw [List.getElem?_map, Option.map_eq_some_iff] at hz
      obtain ⟨e, he, rfl⟩ := hz
      refine List.mem_flatMap.mpr ⟨(e, i), List.mem_zipIdx_iff_getElem?.mpr he, ?_⟩
      exact List.mem_cons_of_mem _ (List.mem_singleton_self _)
    | _ => cases hl

end Pointers

/-! ## An index of one file system -/

/-- The index of a disk whose one partition begins at the sector `start`. -/
structure CrawlIndex where
  mbr : SectorRecord "sector"
  partition : SectorRecord "superblock_sector"
  fs : FsEntry
  start : ℕ
  start_lt : start < 2 ^ 32
  starts : ∃ e ∈ partition.fields, e.1.bytes = ascii "first_sector_lba"
  start_eq : ∀ e ∈ partition.fields ++ fs.fields, e.1.bytes = ascii "first_sector_lba" →
    e.2 = int32Of start
  bgds : List (SectorRecord "sector")
  files : List FileRecord
  subtype : UInt8
  filter : List UInt8

namespace CrawlIndex

variable (x : CrawlIndex)

def front : List Entry :=
  [.mbr x.mbr, .partition x.fs.pteNum x.fs.pteNum_lt x.partition, .fs x.fs] ++ x.bgds.map .bgd

def entries : List Entry :=
  x.front ++ x.files.map .file ++ [.filter x.subtype x.filter]

def blockSize : ℕ := x.fs.super.blockSize

/-- The sectors of the metadata. -/
def marks : List ℕ :=
  x.mbr.sectors ++ x.partition.sectors ++ x.fs.sectors ++ x.bgds.flatMap SectorRecord.sectors ++
    x.files.flatMap FileRecord.marks

/-- The blocks of the files: the sector, the number of the file and the number in it. -/
def blocks : List (ℕ × ℕ × ℕ) :=
  x.files.zipIdx.flatMap fun p => p.1.sectors.zipIdx.map fun q => (u64 q.1, p.2, q.2)

/-- The blocks of a directory are among its metadata as well. -/
def dataBlocks : List (ℕ × ℕ × ℕ) := x.blocks.filter fun b => b.1 ∉ x.marks

end CrawlIndex

section Commands

theorem entriesCommands_append (st : Statics) (es es' : List Entry) :
    entriesCommands st (es ++ es') =
      entriesCommands st es ++ entriesCommands (es.foldl Entry.next st) es' := by
  induction es generalizing st with
  | nil => rfl
  | cons e es ih =>
    rw [List.cons_append, entriesCommands, entriesCommands, ih, List.append_assoc]
    rfl

theorem entriesCommands_files (files : List FileRecord) (st : Statics)
    (hcount : st.fileCounter + files.length < 2 ^ 64) :
    entriesCommands st (files.map .file) =
        indexCommands st.super.blockSize files st.fileCounter ∧
      (files.map Entry.file).foldl Entry.next st =
        { st with fileCounter := st.fileCounter + files.length } := by
  induction files generalizing st with
  | nil => exact ⟨rfl, rfl⟩
  | cons r files ih =>
    rw [List.length_cons] at hcount
    have hnext : (Entry.file r).next st = { st with fileCounter := st.fileCounter + 1 } := by
      rw [Entry.next, Nat.mod_eq_of_lt (by omega)]
    obtain ⟨hcommands, hfold⟩ := ih ((Entry.file r).next st) (by rw [hnext]; dsimp only; omega)
    rw [List.map_cons, entriesCommands, hcommands, List.foldl_cons, hfold, hnext,
      indexCommands_cons]
    refine ⟨rfl, ?_⟩
    dsimp only
    rw [List.length_cons, Nat.add_assoc, Nat.add_comm 1]

theorem foldl_bgds (bgds : List (SectorRecord "sector")) (st : Statics) :
    ((bgds.map Entry.bgd).foldl Entry.next st).super = st.super ∧
      ((bgds.map Entry.bgd).foldl Entry.next st).fileCounter = st.fileCounter := by
  induction bgds generalizing st with
  | nil => exact ⟨rfl, rfl⟩
  | cons r bgds ih => exact ih _

theorem mem_entriesCommands {es : List Entry} {st : Statics} {c : Command KvStore.Key}
    (h : c ∈ entriesCommands st es) : ∃ e ∈ es, ∃ st', c ∈ e.commands st' := by
  induction es generalizing st with
  | nil => cases h
  | cons e es ih =>
    rcases List.mem_append.mp h with h | h
    · exact ⟨e, List.mem_cons_self, st, h⟩
    · obtain ⟨e', he', h⟩ := ih h
      exact ⟨e', List.mem_cons_of_mem _ he', h⟩

theorem mem_entriesCommands_of_mem {es : List Entry} {e : Entry} (he : e ∈ es) (st : Statics) :
    ∃ st', ∀ c ∈ e.commands st', c ∈ entriesCommands st es := by
  induction es generalizing st with
  | nil => cases he
  | cons e' es ih =>
    rcases List.mem_cons.mp he with rfl | he
    · exact ⟨st, fun c hc => List.mem_append_left _ hc⟩
    · obtain ⟨st', h⟩ := ih he (e'.next st)
      exact ⟨st', fun c hc => List.mem_append_right _ (h c hc)⟩

variable (x : CrawlIndex) (hcount : x.files.length < 2 ^ 64)
include hcount

theorem indexed_entries : indexed x.entries = entriesCommands .fresh x.front ++
    (indexCommands x.blockSize x.files 0 ++
      [.set .metadataFilter x.filter, .set .fcounter (dec x.files.length)]) := by
  obtain ⟨hsuper, hcounter⟩ := foldl_bgds x.bgds
    { Statics.fresh with fsId := x.fs.pteNum, super := x.fs.super }
  have hfront : x.front.foldl Entry.next .fresh = (x.bgds.map Entry.bgd).foldl Entry.next
      { Statics.fresh with fsId := x.fs.pteNum, super := x.fs.super } := rfl
  have hzero : (x.front.foldl Entry.next .fresh).fileCounter = 0 := by rw [hfront, hcounter]; rfl
  obtain ⟨hcommands, hfold⟩ := entriesCommands_files x.files (x.front.foldl Entry.next .fresh)
    (by rw [hzero, Nat.zero_add]; exact hcount)
  have hsize : (x.front.foldl Entry.next .fresh).super.blockSize = x.blockSize := by
    rw [hfront, hsuper]
    rfl
  rw [indexed, CrawlIndex.entries, List.append_assoc, entriesCommands_append,
    entriesCommands_append, hcommands, hzero, hsize, List.foldl_append, List.foldl_append, hfold,
    hzero, Nat.zero_add]
  simp only [entriesCommands, Entry.commands, Entry.next, List.foldl_cons, List.foldl_nil,
    List.append_assoc, List.cons_append, List.nil_append]

omit hcount in
theorem mem_indexCommands {blockSize : ℕ} {records : List FileRecord} {c : Command KvStore.Key} :
    c ∈ indexCommands blockSize records 0 ↔
      ∃ k, ∃ r : FileRecord, records[k]? = some r ∧ c ∈ r.commands blockSize k := by
  rw [indexCommands, List.mem_flatMap]
  constructor
  · rintro ⟨p, hp, h⟩
    exact ⟨p.2, p.1, List.mem_zipIdx_iff_getElem?.mp hp, h⟩
  · rintro ⟨k, r, hr, h⟩
    exact ⟨(r, k), List.mem_zipIdx_iff_getElem?.mpr hr, h⟩

omit hcount in
theorem mem_blocks {s k i : ℕ} : (s, k, i) ∈ x.blocks ↔
    ∃ r z, x.files[k]? = some r ∧ r.sectors[i]? = some z ∧ u64 z = s := by
  rw [CrawlIndex.blocks, List.mem_flatMap]
  constructor
  · rintro ⟨p, hp, h⟩
    obtain ⟨q, hq, heq⟩ := List.mem_map.mp h
    simp only [Prod.mk.injEq] at heq
    obtain ⟨hs, rfl, rfl⟩ := heq
    exact ⟨p.1, q.1, List.mem_zipIdx_iff_getElem?.mp hp, List.mem_zipIdx_iff_getElem?.mp hq, hs⟩
  · rintro ⟨r, z, hr, hz, rfl⟩
    exact ⟨(r, k), List.mem_zipIdx_iff_getElem?.mpr hr,
      List.mem_map.mpr ⟨(z, i), List.mem_zipIdx_iff_getElem?.mpr hz, rfl⟩⟩

/-- The pointers of an index lead to its metadata or to a block of a file. -/
theorem pointer_of_index {s : ℕ} {v : List UInt8}
    (h : .set (.sector s) v ∈ indexed x.entries) :
    s ∈ x.marks ∨ ∃ k i, (s, k, i) ∈ x.blocks ∧ v = blockPointer x.blockSize k i := by
  rw [indexed_entries x hcount] at h
  rcases List.mem_append.mp h with h | h
  · left
    simp only [CrawlIndex.marks, List.mem_append]
    obtain ⟨e, he, st, h⟩ := mem_entriesCommands h
    simp only [CrawlIndex.front, List.mem_append, List.mem_cons, List.not_mem_nil, or_false,
      List.mem_map] at he
    rcases he with (rfl | rfl | rfl) | ⟨r, hr, rfl⟩
    · exact .inl (.inl (.inl (.inl (pointer_of_sectorRecord
        (fun n hn => by simp at hn; exact hn.1.symm) (by simp) h))))
    · exact .inl (.inl (.inl (.inr (pointer_of_sectorRecord
        (fun n hn => by simp at hn; exact hn.1.symm) (by simp) h))))
    · exact .inl (.inl (.inr (pointer_of_fs h)))
    · exact .inl (.inr (List.mem_flatMap.mpr ⟨r, hr, pointer_of_sectorRecord
        (fun n hn => by simp at hn; exact hn.1.symm) (by simp) h⟩))
  · rcases List.mem_append.mp h with h | h
    · obtain ⟨k, r, hr, h⟩ := mem_indexCommands.mp h
      rcases pointer_of_file h with hmark | ⟨i, z, hz, hs, hv⟩
      · exact .inl (List.mem_append_right _
          (List.mem_flatMap.mpr ⟨r, List.mem_of_getElem? hr, hmark⟩))
      · exact .inr ⟨k, i, (mem_blocks x).mpr ⟨r, z, hr, hz, hs⟩, hv⟩
    · simp at h

theorem block_in_index {s k i : ℕ} (h : (s, k, i) ∈ x.blocks) :
    .set (.sector s) (blockPointer x.blockSize k i) ∈ indexed x.entries := by
  obtain ⟨r, z, hr, hz, rfl⟩ := (mem_blocks x).mp h
  rw [indexed_entries x hcount]
  exact List.mem_append_right _ (List.mem_append_left _
    (mem_indexCommands.mpr ⟨k, r, hr, block_pointed hz⟩))

end Commands

/-! ## What the store holds -/

namespace Entry

/-- The keys that an entry may write. -/
def touches : Entry → KvStore.Key → Bool
  | .mbr _, .sector _ | .mbr _, .mbr _ => true
  | .partition .., .sector _ | .partition .., .fs _ => true
  | .fs _, .sector _ | .fs _, .fs _ => true
  | .bgd _, .sector _ | .bgd _, .bgd _ | .bgd _, .bgds _ => true
  | .file _, .sector _ | .file _, .file _ | .file _, .files _ | .file _, .inode _
  | .file _, .path _ | .file _, .filesectors _ | .file _, .extent _ | .file _, .extents _
  | .file _, .dirdata _ | .file _, .dirlist _ => true
  | .filter .., .metadataFilter => true
  | _, _ => false

end Entry

theorem field_touches (r : FileRecord) (blockSize id : ℕ) (f : Field) :
    ∀ c ∈ f.commands blockSize id, ∃ k, c.writes = some k ∧ (Entry.file r).touches k := by
  intro c hc
  cases f with
  | files entries he =>
    obtain ⟨e, -, hc⟩ := List.mem_flatMap.mp hc
    simp only [Field.filesCommands, List.mem_cons, List.not_mem_nil, or_false] at hc
    rcases hc with rfl | rfl | rfl <;> exact ⟨_, rfl, rfl⟩
  | sectors entries =>
    obtain ⟨e, -, hc⟩ := List.mem_flatMap.mp hc
    simp only [Field.sectorsCommands, List.mem_cons, List.not_mem_nil, or_false] at hc
    rcases hc with rfl | rfl <;> exact ⟨_, rfl, rfl⟩
  | extents entries he =>
    obtain ⟨e, -, hc⟩ := List.mem_flatMap.mp hc
    simp only [Field.extentsCommands, List.mem_cons, List.not_mem_nil, or_false] at hc
    rcases hc with rfl | rfl | rfl <;> exact ⟨_, rfl, rfl⟩
  | scalar key value hv hk =>
    obtain rfl := List.mem_singleton.mp hc
    exact ⟨_, rfl, rfl⟩
  | _ =>
    simp only [Field.commands, List.mem_cons, List.not_mem_nil, or_false] at hc
    rcases hc with rfl | rfl <;> exact ⟨_, rfl, rfl⟩

theorem entry_touches (st : Statics) (e : Entry) :
    ∀ c ∈ e.commands st, ∃ k, c.writes = some k ∧ e.touches k := by
  cases e with
  | mbr r =>
    refine r.commands_forall (fun n c hc => ?_) fun _ _ => ⟨_, rfl, rfl⟩
    rw [List.mem_singleton.mp hc]
    exact ⟨_, rfl, rfl⟩
  | partition pteNum hnum r =>
    refine r.commands_forall (fun n c hc => ?_) fun _ _ => ⟨_, rfl, rfl⟩
    rw [List.mem_singleton.mp hc]
    exact ⟨_, rfl, rfl⟩
  | fs r =>
    intro c hc
    obtain ⟨e, -, hc⟩ := List.mem_flatMap.mp hc
    rcases List.mem_append.mp hc with hc | hc
    · split at hc
      · rw [List.mem_singleton.mp hc]
        exact ⟨_, rfl, rfl⟩
      · cases hc
    · rw [List.mem_singleton.mp hc]
      exact ⟨_, rfl, rfl⟩
  | bgd r =>
    refine r.commands_forall (fun n c hc => ?_) fun _ _ => ⟨_, rfl, rfl⟩
    simp only [List.mem_cons, List.not_mem_nil, or_false] at hc
    rcases hc with rfl | rfl <;> exact ⟨_, rfl, rfl⟩
  | file r =>
    intro c hc
    obtain ⟨f, -, hc⟩ := List.mem_flatMap.mp hc
    exact field_touches r _ _ f c hc
  | filter subtype data =>
    intro c hc
    rw [List.mem_singleton.mp hc]
    exact ⟨_, rfl, rfl⟩

theorem entries_untouched {k : KvStore.Key} {es : List Entry} (hk : ∀ e ∈ es, e.touches k = false)
    (st : Statics) : ∀ c ∈ entriesCommands st es, c.writes ≠ some k := by
  induction es generalizing st with
  | nil => simp [entriesCommands]
  | cons e es ih =>
    intro c hc hw
    rcases List.mem_append.mp hc with hc | hc
    · obtain ⟨k', hk', ht⟩ := entry_touches st e c hc
      obtain rfl := Option.some.inj (hk'.symm.trans hw)
      rw [hk e List.mem_cons_self] at ht
      cases ht
    · exact ih (fun e he => hk e (List.mem_cons_of_mem _ he)) _ c hc hw

namespace CrawlIndex

variable (x : CrawlIndex)

def db : Db KvStore.Key := Db.empty.replay (indexed x.entries)

theorem front_touches {k : KvStore.Key} (hmbr : (Entry.mbr x.mbr).touches k = false)
    (hfs : (Entry.fs x.fs).touches k = false) (hbgd : ∀ r, (Entry.bgd r).touches k = false) :
    ∀ e ∈ x.front, e.touches k = false := by
  intro e he
  simp only [front, List.mem_append, List.mem_cons, List.not_mem_nil, or_false,
    List.mem_map] at he
  rcases he with (rfl | rfl | rfl) | ⟨r, -, rfl⟩
  · exact hmbr
  · cases k <;> first | rfl | cases hfs
  · exact hfs
  · exact hbgd r

theorem queue_empty : x.db.listAt .writequeue = some [] := by
  have hkeys : x.db.keys .writequeue = none := by
    refine (Redis.keys_replay_of_untouched fun c hc => ?_).trans rfl
    rcases List.mem_append.mp hc with hc | hc
    · refine entries_untouched (fun e _ => ?_) _ c hc
      cases e <;> rfl
    · rw [List.mem_singleton.mp hc]
      simp [Command.writes]
  rw [Db.listAt, hkeys]

variable (hcount : x.files.length < 2 ^ 64)
include hcount

theorem hash_of_file {k : ℕ} {r : FileRecord} (hr : x.files[k]? = some r) :
    x.db.hashAt (.file k) = some fun field => Redis.lastAssigned r.scalars field := by
  have hfront : Redis.assigned (.file k) (entriesCommands .fresh x.front) = [] := by
    rw [List.eq_nil_iff_forall_not_mem]
    exact fun e he => entries_untouched (x.front_touches rfl rfl fun _ => rfl) _ _
      (Redis.mem_assigned.mp he) rfl
  rw [db, Redis.hashAt_replay (.of_inserts (indexed_inserts _) rfl) rfl, indexed_entries x hcount,
    Redis.assigned_append, Redis.assigned_append, hfront, index_file x.blockSize hr]
  simp only [List.nil_append, Redis.assigned_set, Redis.assigned_nil, List.append_nil]
  congr 1
  funext field
  exact Option.or_none

omit hcount in
/-- The geometry that the inferencer will read. -/
theorem superinfo : x.fs.super.In x.db x.fs.pteNum := by
  obtain ⟨head, rest, hentries, htouch⟩ : ∃ head rest, x.entries = head ++ .fs x.fs :: rest ∧
      ∀ e ∈ rest, e.touches (.fs x.fs.pteNum) = false := by
    refine ⟨[.mbr x.mbr, .partition x.fs.pteNum x.fs.pteNum_lt x.partition],
      x.bgds.map .bgd ++ x.files.map .file ++ [.filter x.subtype x.filter], ?_, fun e he => ?_⟩
    · simp [entries, front]
    · simp only [List.mem_append, List.mem_map, List.mem_singleton] at he
      rcases he with (⟨r, -, rfl⟩ | ⟨r, -, rfl⟩) | rfl <;> rfl
  obtain ⟨m, hm⟩ := hash_of_inserts (entries_inserts .fresh head) x.fs.pteNum
  obtain ⟨m', hm', hfields⟩ := fs_superinfo x.fs hm
  refine ⟨m', ?_, hfields⟩
  rw [← hm', db, indexed, hentries, entriesCommands_append, entriesCommands, List.append_assoc,
    List.append_assoc, Redis.replay_append, Redis.replay_append, Db.hashAt, Db.hashAt,
    Redis.keys_replay_of_untouched]
  · rfl
  · intro c hc
    rcases List.mem_append.mp hc with hc | hc
    · exact entries_untouched htouch _ c hc
    · rw [List.mem_singleton.mp hc]
      simp [Command.writes]

omit hcount in
theorem assigned_fs {field value : List UInt8}
    (h : .hset (.fs x.fs.pteNum) field value ∈ indexed x.entries) :
    ∃ e ∈ x.partition.fields ++ x.fs.fields, e.1.bytes = field ∧ e.2.raw = value := by
  rcases List.mem_append.mp h with h | h
  · obtain ⟨e, he, st, h⟩ := mem_entriesCommands h
    obtain ⟨k, hk, ht⟩ := entry_touches st e _ h
    obtain rfl := Option.some.inj hk
    simp only [entries, front, List.mem_append, List.mem_cons, List.not_mem_nil, or_false,
      List.mem_map] at he
    rcases he with (((rfl | rfl | rfl) | ⟨r, -, rfl⟩) | ⟨r, -, rfl⟩) | rfl
    · cases ht
    · obtain ⟨e, he, h⟩ := List.mem_flatMap.mp h
      refine ⟨e, List.mem_append_left _ he, ?_⟩
      unfold SectorRecord.fieldCommands at h
      split at h
      · simp at h
      · simp at h
        exact ⟨h.1.symm, h.2.symm⟩
    · obtain ⟨e, he, h⟩ := List.mem_flatMap.mp h
      refine ⟨e, List.mem_append_right _ he, ?_⟩
      rcases List.mem_append.mp h with h | h
      · split at h <;> simp at h
      · simp at h
        exact ⟨h.1.symm, h.2.symm⟩
    · cases ht
    · cases ht
    · cases ht
  · simp at h

omit hcount in
/-- The sector at which the inferencer will take the partition to begin. -/
theorem partition_start : ∃ m, x.db.hashAt (.fs x.fs.pteNum) = some m ∧
    m (ascii "first_sector_lba") = some (leBytes 4 x.start) := by
  refine ⟨_, Redis.hashAt_replay (.of_inserts (indexed_inserts _) rfl) rfl, ?_⟩
  have hlast : Redis.lastAssigned (Redis.assigned (.fs x.fs.pteNum) (indexed x.entries))
      (ascii "first_sector_lba") = some (leBytes 4 x.start) := by
    refine Redis.lastAssigned_of_unique (Redis.mem_assigned.mpr ?_) fun v hv => ?_
    · obtain ⟨e, he, hkey⟩ := x.starts
      have hmem : .partition x.fs.pteNum x.fs.pteNum_lt x.partition ∈ x.entries := by
        simp [entries, front]
      obtain ⟨st, hst⟩ := mem_entriesCommands_of_mem hmem .fresh
      refine List.mem_append_left _ (hst _ (List.mem_flatMap.mpr ⟨e, he, ?_⟩))
      rw [SectorRecord.fieldCommands, hkey, if_neg (by decide),
        x.start_eq e (List.mem_append_left _ he) hkey]
      exact List.mem_singleton_self _
    · obtain ⟨e, he, hkey, rfl⟩ := x.assigned_fs (Redis.mem_assigned.mp hv)
      rw [x.start_eq e he hkey, int32Of_raw]
  rw [hlast]
  rfl

end CrawlIndex

/-! ## The layout -/

def FileRecord.size (r : FileRecord) : ℕ :=
  (Redis.lastAssigned r.scalars (ascii "size")).elim 0 leNat

theorem last_of_scalar {r : FileRecord} {field value : List UInt8}
    (h : (field, value) ∈ r.scalars) : Redis.lastAssigned r.scalars field = some value :=
  Redis.lastAssigned_of_unique h fun _ hv =>
    congrArg Prod.snd (List.inj_on_of_nodup_map (scalars_distinct r) hv h rfl)

namespace CrawlIndex

variable (x : CrawlIndex)

/-- No block is taken twice, and the files can be told apart by their paths. -/
structure Clean : Prop where
  count : x.files.length < 2 ^ 64
  blockSize_pos : 0 < x.blockSize
  apart : x.dataBlocks.Pairwise fun a b => a.1 * sectorSize + x.blockSize ≤ b.1 * sectorSize ∨
    b.1 * sectorSize + x.blockSize ≤ a.1 * sectorSize
  range : ∀ b ∈ x.dataBlocks, (b.2.2 + 1) * x.blockSize < 2 ^ 64
  names : (x.files.map fun r => r.path.takeWhile (· ≠ 0)).Nodup
  paths : ∀ r ∈ x.files, r.path.length < 4096
  sizes : ∀ r ∈ x.files, ∃ n < 2 ^ 64, (ascii "size", leBytes 8 n) ∈ r.scalars

def place (s : ℕ) : Option (ℕ × ℕ) :=
  (x.dataBlocks.find? fun b => b.1 = s).map fun b => (b.2.1, b.2.2 * x.blockSize)

variable {x}

theorem mem_dataBlocks {b : ℕ × ℕ × ℕ} : b ∈ x.dataBlocks ↔ b ∈ x.blocks ∧ b.1 ∉ x.marks := by
  rw [dataBlocks, List.mem_filter, decide_eq_true_iff]

theorem mem_of_place {s f start : ℕ} (h : x.place s = some (f, start)) :
    ∃ i, (s, f, i) ∈ x.dataBlocks ∧ start = i * x.blockSize := by
  obtain ⟨b, hb, heq⟩ := Option.map_eq_some_iff.mp h
  have hs : b.1 = s := of_decide_eq_true (List.find?_some hb :)
  obtain ⟨rfl, rfl⟩ := Prod.mk.inj heq
  exact ⟨b.2.2, hs ▸ List.mem_of_find?_eq_some hb, rfl⟩

theorem not_mem_of_place {s : ℕ} (h : x.place s = none) (k i : ℕ) : (s, k, i) ∉ x.dataBlocks := by
  rw [place, Option.map_eq_none_iff, List.find?_eq_none] at h
  exact fun hb => h _ hb (decide_eq_true rfl)

variable (h : x.Clean)
include h

theorem Clean.disjoint {a b : ℕ × ℕ × ℕ} (ha : a ∈ x.dataBlocks) (hb : b ∈ x.dataBlocks)
    (hne : a ≠ b) :
    a.1 * sectorSize + x.blockSize ≤ b.1 * sectorSize ∨
      b.1 * sectorSize + x.blockSize ≤ a.1 * sectorSize := by
  have hsymm : Std.Symm fun a b : ℕ × ℕ × ℕ => a.1 * sectorSize + x.blockSize ≤ b.1 * sectorSize ∨
      b.1 * sectorSize + x.blockSize ≤ a.1 * sectorSize := ⟨fun _ _ => Or.symm⟩
  exact h.apart.forall ha hb hne

/-- A sector is the place of one block only. -/
theorem Clean.unique {s k i k' i' : ℕ} (ha : (s, k, i) ∈ x.dataBlocks)
    (hb : (s, k', i') ∈ x.dataBlocks) : k = k' ∧ i = i' := by
  by_contra hne
  have hpos := h.blockSize_pos
  have hdisjoint := h.disjoint ha hb (by simpa using hne)
  dsimp only at hdisjoint
  omega

/-- The layout that an index describes. -/
def layout : Layout x.blockSize where
  place := x.place
  path f := x.files[f]?.elim [] FileRecord.path
  size f := x.files[f]?.elim 0 FileRecord.size
  apart {s s'} hs hs' hne := by
    obtain ⟨⟨f, start⟩, hp⟩ := Option.isSome_iff_exists.mp hs
    obtain ⟨⟨f', start'⟩, hp'⟩ := Option.isSome_iff_exists.mp hs'
    obtain ⟨i, hb, -⟩ := mem_of_place hp
    obtain ⟨i', hb', -⟩ := mem_of_place hp'
    have hdisjoint := h.disjoint hb hb' fun heq => hne (congrArg Prod.fst heq)
    exact hdisjoint
  ordered {s s' f start start'} hp hp' hne := by
    obtain ⟨i, hb, rfl⟩ := mem_of_place hp
    obtain ⟨i', hb', rfl⟩ := mem_of_place hp'
    have hi : i ≠ i' := by
      rintro rfl
      obtain ⟨r, z, hr, hz, rfl⟩ := (mem_blocks x).mp (mem_dataBlocks.mp hb).1
      obtain ⟨r', z', hr', hz', rfl⟩ := (mem_blocks x).mp (mem_dataBlocks.mp hb').1
      obtain rfl := Option.some.inj (hr.symm.trans hr')
      exact hne (by rw [Option.some.inj (hz.symm.trans hz')])
    rcases Nat.lt_or_gt_of_ne hi with hlt | hlt
    · left
      rw [← Nat.succ_mul]
      exact Nat.mul_le_mul_right _ hlt
    · right
      rw [← Nat.succ_mul]
      exact Nat.mul_le_mul_right _ hlt
  names {s s' f g start start'} hp hp' heq := by
    obtain ⟨i, hb, -⟩ := mem_of_place hp
    obtain ⟨i', hb', -⟩ := mem_of_place hp'
    obtain ⟨r, z, hr, -⟩ := (mem_blocks x).mp (mem_dataBlocks.mp hb).1
    obtain ⟨r', z', hr', -⟩ := (mem_blocks x).mp (mem_dataBlocks.mp hb').1
    have hlt : f < (x.files.map fun r => r.path.takeWhile (· ≠ 0)).length := by
      rw [List.length_map]
      exact (List.getElem?_eq_some_iff.mp hr).1
    refine (List.getElem?_inj hlt h.names).mp ?_
    rw [hr, hr'] at heq
    rw [List.getElem?_map, List.getElem?_map, hr, hr']
    exact congrArg some heq

theorem pointer_of_block {s k i : ℕ} (hb : (s, k, i) ∈ x.dataBlocks) :
    x.db.keys (.sector s) = some (.string (blockPointer x.blockSize k i)) := by
  have hmem := mem_dataBlocks.mp hb
  refine Redis.keys_replay_of_unique (.of_inserts (indexed_inserts _) rfl)
    (block_in_index x h.count hmem.1) fun v hv => ?_
  rcases pointer_of_index x h.count hv with hmark | ⟨k', i', hb', rfl⟩
  · exact absurd hmark hmem.2
  · obtain ⟨rfl, rfl⟩ := h.unique hb (mem_dataBlocks.mpr ⟨hb', hmem.2⟩)
    rfl

theorem unknown {s : ℕ} (hmark : s ∉ x.marks) (hplace : x.place s = none) :
    x.db.keys (.sector s) = none := by
  have hnil : Redis.stored (.sector s) (indexed x.entries) = [] := by
    rw [List.eq_nil_iff_forall_not_mem]
    intro v hv
    rcases pointer_of_index x h.count (Redis.mem_stored.mp hv) with hm | ⟨k, i, hb, -⟩
    · exact hmark hm
    · exact not_mem_of_place hplace k i (mem_dataBlocks.mpr ⟨hb, hmark⟩)
  rw [db, Redis.keys_replay_stored (.of_inserts (indexed_inserts _) rfl), hnil]
  rfl

theorem known {k : ℕ} {r : FileRecord} (hr : x.files[k]? = some r) :
    Inspect.Inspector.Known x.db k r.path r.size := by
  have hmem := List.mem_of_getElem? hr
  obtain ⟨n, hn, hsize⟩ := h.sizes r hmem
  have hanswer : ∀ {field value : List UInt8}, (field, value) ∈ r.scalars →
      Inspect.answer x.db (redisFileSectorGet k field) = .string value := by
    intro field value hv
    simp only [Inspect.answer, redisFileSectorGet, Redis.exec, x.hash_of_file h.count hr,
      last_of_scalar hv, Option.elim_some]
  have hpath : (ascii "path", r.path) ∈ r.scalars :=
    List.mem_filterMap.mpr ⟨_, r.hasPath, rfl⟩
  have hn' : r.size = n := by
    rw [FileRecord.size, last_of_scalar hsize]
    exact leNat_leBytes_of_lt hn
  refine ⟨?_, h.paths r hmem, ?_, hn' ▸ hn⟩
  · rw [hanswer hpath, Inspect.copyString_of_le (h.paths r hmem).le]
  · rw [hanswer hsize, Inspect.copyString_of_le (leBytes_length 8 n).le, hn']

theorem held : (layout h).Held x.db where
  pointer {s f start} hp := by
    obtain ⟨i, hb, rfl⟩ := mem_of_place hp
    have hrange := h.range _ hb
    have hle : i * x.blockSize ≤ (i + 1) * x.blockSize := Nat.mul_le_mul_right _ (Nat.le_succ i)
    obtain ⟨r, -, hr, -⟩ := (mem_blocks x).mp (mem_dataBlocks.mp hb).1
    refine ⟨(i + 1) * x.blockSize, hle.trans_lt hrange, hrange,
      (List.getElem?_eq_some_iff.mp hr).1.trans h.count, ?_⟩
    rw [pointer_of_block h hb, blockPointer, Nat.mod_eq_of_lt (hle.trans_lt hrange),
      Nat.mod_eq_of_lt hrange]
  known {s f start} hp := by
    obtain ⟨i, hb, rfl⟩ := mem_of_place hp
    obtain ⟨r, -, hr, -⟩ := (mem_blocks x).mp (mem_dataBlocks.mp hb).1
    have hknown := known h hr
    have hpath : (layout h).path f = r.path := congrArg (Option.elim · [] FileRecord.path) hr
    have hsize : (layout h).size f = r.size := congrArg (Option.elim · 0 FileRecord.size) hr
    rwa [hpath, hsize]

omit h in
/-- With the variables in whatever state. -/
theorem enterLoop_geometry (p : Inspect.Process) (locals : SuperInfo) {store : Handle}
    (hin : InDb store x.db) (hnum : x.fs.pteNum = 0) :
    ∃ store', p.enterLoop locals store = some (⟨⟨p.heap, p.hostname, p.vmname, x.blockSize,
        x.start * 512 % 2 ^ 32⟩, Inspect.handleService, p.stack⟩, ⟨store', 0⟩) ∧
      InDb store' x.db := by
  obtain ⟨hs, hdb⟩ := hin
  have hsuper := x.superinfo
  obtain ⟨m, hm, hstart⟩ := x.partition_start
  rw [hnum] at hsuper hm
  rw [← hdb] at hsuper hm
  obtain ⟨h₁, e₁, s₁, d₁⟩ := qemuGetSuperinfo_of_hash hs hsuper locals
  have hexec : Redis.exec h₁.db (redisSuperblockSectorGet 0 (ascii "first_sector_lba")) =
      some (.string (leBytes 4 x.start), h₁.db) := by
    simp only [redisSuperblockSectorGet, Redis.exec, d₁, hm, hstart]
  obtain ⟨h₂, ha, d₂, s₂⟩ := ask_total s₁ (copyString 4) hexec
  have hoffset : Mbr.qemuGetPtOffset h₁ 0 = some (x.start * 512 % 2 ^ 32, h₂) := by
    rw [Mbr.qemuGetPtOffset, redisHashFieldGet, Loop.bind_of_some ha]
    dsimp only
    rw [Inspect.copyString_of_le (leBytes_length 4 x.start).le, leBytes_length,
      List.drop_of_length_le (leBytes_length 4 0).le, List.append_nil,
      leNat_leBytes_of_lt x.start_lt]
  refine ⟨h₂, ?_, s₂, (d₂.trans d₁).trans hdb⟩
  rw [Inspect.Process.enterLoop, Loop.bind_of_some e₁]
  exact Loop.bind_of_some hoffset _

end CrawlIndex

open Monitor (Node Initial)

/-- A partition at sector 2048 with a superblock and blocks of 1024 bytes. -/
def smallFs : FsEntry where
  pteNum := 0
  pteNum_lt := Nat.two_pow_pos 32
  fields := [(keyNamed "superblock_sector" superblockSector_noNul, int64Of 2050),
    (keyNamed "superblock_offset" superblockOffset_noNul, int64Of 1024),
    (keyNamed "block_size" blockSize_noNul, int64Of 1024),
    (keyNamed "blocks_per_group" blocksPerGroup_noNul, int64Of 8192),
    (keyNamed "inodes_per_group" inodesPerGroup_noNul, int64Of 16),
    (keyNamed "inode_size" inodeSize_noNul, int64Of 128)]
  scalar := by simp [int64Of, Scalar]
  sector e he h := by
    simp only [List.mem_cons, List.not_mem_nil, or_false] at he
    rcases he with rfl | rfl | rfl | rfl | rfl | rfl
    · exact ⟨2050, by decide, rfl⟩
    all_goals exact absurd h (by decide)
  super := ⟨2050, 1024, 1024, 8192, 16, 128⟩
  distinct := by decide
  describes := by simp [SuperInfo.fields, keyNamed]
  range := by decide

theorem smallSector_lt : 2060 < 2 ^ 31 := by decide

theorem size_unreserved : (keyNamed "size" size_noNul).bytes ∉ reserved := by decide

/-- Two blocks at the sectors 2100 and 2104. -/
def smallFile : FileRecord where
  fields := [.path (ascii "/a"), .inodeSector 2060 smallSector_lt,
    .sectors [(decKey 0, 2100), (decKey 1, 2104)],
    .scalar (keyNamed "size" size_noNul) (int64Of 1500) trivial size_unreserved]
  distinct := by decide
  noType := by decide
  path := ascii "/a"
  hasPath := by simp

def smallMbr : SectorRecord "sector" where
  fields := [(keyNamed "sector" sector_noNul, int32Of 0)]
  sector e he _ := by
    obtain rfl := List.mem_singleton.mp he
    exact ⟨0, by decide, rfl⟩

def smallPartition : SectorRecord "superblock_sector" where
  fields := [(keyNamed "first_sector_lba" firstSectorLba_noNul, int32Of 2048)]
  sector e he h := by
    obtain rfl := List.mem_singleton.mp he
    exact absurd h (by decide)

theorem smallStart_lt : 2048 < 2 ^ 32 := by decide

def smallIndex : CrawlIndex where
  mbr := smallMbr
  partition := smallPartition
  fs := smallFs
  start := 2048
  start_lt := smallStart_lt
  starts := ⟨_, List.mem_singleton_self _, rfl⟩
  start_eq e he h := by
    have hfs : ∀ e ∈ smallFs.fields, e.1.bytes ≠ ascii "first_sector_lba" := by decide
    rcases List.mem_append.mp he with he | he
    · rw [List.mem_singleton.mp he]
    · exact absurd h (hfs e he)
  bgds := []
  files := [smallFile]
  subtype := 0
  filter := [0, 0]

theorem smallIndex_clean : smallIndex.Clean where
  count := by decide
  blockSize_pos := by decide
  apart := by decide
  range := by decide
  names := by decide
  paths := by decide
  sizes := by
    intro r hr
    obtain rfl := List.mem_singleton.mp hr
    exact ⟨1500, by decide, by decide⟩

end GammaRay.Loader
