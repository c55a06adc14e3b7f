import GammaRay.BsonElements
import GammaRay.Schema

set_option autoImplicit false

/-!
# Loading an index

`qemu_load_index` and the functions below it in `deep_inspection.c`, on an index in memory of
its own and a store without I/O errors. `fuel` bounds the rounds of every loop; `none` is a
loop that runs out of it, a read outside a buffer or a store call that never returns.
-/
namespace GammaRay.Loader
open Bytes Bson KvStore
open Redis (Db Command)

/-- `value1` and `value2`, the variables that every reader decodes into. -/
structure Vars where
  value1 : BsonRef
  value2 : BsonRef

/-- `struct super_info`. -/
structure SuperInfo where
  superblockSector : ℕ
  superblockOffset : ℕ
  blockSize : ℕ
  blocksPerGroup : ℕ
  inodesPerGroup : ℕ
  inodeSize : ℕ

/-- What the local variables of a call hold before they are set. -/
structure Locals where
  vars : Vars
  super : SuperInfo

/-- `while (bson_deserialize(bson, &value1, &value2))`, or the same with `== 1`. A body that
yields `false` leaves with `EXIT_FAILURE`. -/
def whileDeserialize {σ : Type} (more : ℤ → Bool)
    (body : BsonInfo → Vars → σ → Option (Bool × Vars × σ)) :
    ℕ → BsonInfo → Vars → σ → Option (Bool × BsonInfo × Vars × σ)
  | 0, _, _, _ => none
  | fuel + 1, bson, vars, s => do
    let (ret, bson, value1, value2) ← bsonDeserialize bson vars.value1 vars.value2
    if more ret then
      let (ok, vars, s) ← body bson ⟨value1, value2⟩ s
      if ok then whileDeserialize more body fuel bson vars s else some (false, bson, vars, s)
    else some (true, bson, ⟨value1, value2⟩, s)

/-- `(const char*) value.key`. -/
def keyOf (bson : BsonInfo) (value : BsonRef) : List UInt8 := cstringAt bson.buffer value.key

/-- The `value.size` bytes behind `value.data`. -/
def dataOf (bson : BsonInfo) (value : BsonRef) : Option (List UInt8) :=
  let data := (bson.buffer.drop value.data).take value.size.toNat
  if value.size = data.length then some data else none

/-- An unsigned integer of `width` bytes behind `value.data`. -/
def uintOf (width : ℕ) (bson : BsonInfo) (value : BsonRef) : Option ℕ :=
  let data := (bson.buffer.drop value.data).take width
  if data.length = width then some (leNat data) else none

/-- The field of a hash that an element stands for. -/
def setField (fmt : ℕ → List UInt8 → List UInt8 → Command KvStore.Key) (id : ℕ) (bson : BsonInfo)
    (value1 : BsonRef) (store : Handle) : Option Handle := do
  let data ← dataOf bson value1
  redisHashFieldSet fmt id (keyOf bson value1) data store

/-- The body that most records share: one key names a sector, the others are fields. -/
def recordElement (sectorKey : String) (point : ℕ → Handle → Option Handle)
    (fmt : ℕ → List UInt8 → List UInt8 → Command KvStore.Key) (id : ℕ) (bson : BsonInfo) (vars : Vars)
    (store : Handle) : Option (Bool × Vars × Handle) := do
  let store ←
    if keyOf bson vars.value1 = ascii sectorKey then do
      let sector ← uintOf 4 bson vars.value1
      point sector store
    else setField fmt id bson vars.value1 store
  some (true, vars, store)

def deserializeMbr (fuel : ℕ) (bson : BsonInfo) (vars : Vars) (store : Handle) (id : ℕ) :
    Option (Bool × BsonInfo × Vars × Handle) :=
  whileDeserialize (· ≠ 0)
    (recordElement "sector" (fun n => redisReversePointerSet redisMbrInsert n id)
      redisMbrSectorInsert id) fuel bson vars store

def deserializePartition (fuel : ℕ) (bson : BsonInfo) (vars : Vars) (store : Handle) (id : ℕ) :
    Option (Bool × BsonInfo × Vars × Handle) :=
  whileDeserialize (· ≠ 0)
    (recordElement "superblock_sector" (fun n => redisReversePointerSet redisSuperblockInsert n id)
      redisSuperblockSectorInsert id) fuel bson vars store

def deserializeBgd (fuel : ℕ) (bson : BsonInfo) (vars : Vars) (store : Handle) (id : ℕ) :
    Option (Bool × BsonInfo × Vars × Handle) :=
  whileDeserialize (· ≠ 0)
    (recordElement "sector"
      (fun n store => do
        let store ← redisReversePointerSet redisBgdsInsert n id store
        redisReversePointerSet redisBgdsSectorInsert n n store)
      redisBgdSectorInsert id) fuel bson vars store

def bitarrayElement (bson : BsonInfo) (vars : Vars) (store : Handle) :
    Option (Bool × Vars × Handle) :=
  if keyOf bson vars.value1 = ascii "bitarray" then do
    let data ← dataOf bson vars.value1
    let store ← redisMetadataSet data store
    some (true, vars, store)
  else some (false, vars, store)

def deserializeBitarray (fuel : ℕ) (bson : BsonInfo) (vars : Vars) (store : Handle) :
    Option (Bool × BsonInfo × Vars × Handle) :=
  whileDeserialize (· ≠ 0) bitarrayElement fuel bson vars store

/-- `GET_FIELD` into a 64-bit variable, of which a shorter value leaves the upper bytes. -/
def getField (fmt : ℕ → List UInt8 → Command KvStore.Key) (id : ℕ) (field : String) (old : ℕ)
    (store : Handle) : Option (ℕ × Handle) := do
  let (data, store) ← redisHashFieldGet fmt id (ascii field) 8 store
  some (leNat (data ++ (leBytes 8 old).drop data.length), store)

def qemuGetSuperinfo (store : Handle) (locals : SuperInfo) (fsId : ℕ) :
    Option (SuperInfo × Handle) := do
  let get := getField redisSuperblockSectorGet fsId
  let (superblockSector, store) ← get "superblock_sector" locals.superblockSector store
  let (superblockOffset, store) ← get "superblock_offset" locals.superblockOffset store
  let (blockSize, store) ← get "block_size" locals.blockSize store
  let (blocksPerGroup, store) ← get "blocks_per_group" locals.blocksPerGroup store
  let (inodesPerGroup, store) ← get "inodes_per_group" locals.inodesPerGroup store
  let (inodeSize, store) ← get "inode_size" locals.inodeSize store
  some (⟨superblockSector, superblockOffset, blockSize, blocksPerGroup, inodesPerGroup, inodeSize⟩,
    store)

/-- Unlike the other records, a file system keeps its sector as a field as well. -/
def fsElement (id : ℕ) (bson : BsonInfo) (vars : Vars) (store : Handle) :
    Option (Bool × Vars × Handle) := do
  let store ←
    if keyOf bson vars.value1 = ascii "superblock_sector" then do
      let sector ← uintOf 8 bson vars.value1
      redisReversePointerSet redisSuperblockInsert sector id store
    else some store
  let store ← setField redisSuperblockSectorInsert id bson vars.value1 store
  some (true, vars, store)

def deserializeFs (fuel : ℕ) (bson : BsonInfo) (locals : Locals) (store : Handle) (id : ℕ) :
    Option (BsonInfo × SuperInfo × Handle) := do
  let (_, bson, _, store) ← whileDeserialize (· ≠ 0) (fsElement id) fuel bson locals.vars store
  let store ← redisFlushPipeline store
  let (super, store) ← qemuGetSuperinfo store locals.super id
  some (bson, super, store)

/-! ## File records -/

/-- `sscanf` with `%llu` into a variable that keeps its value if there is no number. -/
def scanInto (old : ℕ) (text : List UInt8) : ℕ := (scanU64 text).getD old

/-- An entry of `files`: a sector of the directory, with a directory entry in it. -/
def filesElement (id : ℕ) (bson : BsonInfo) (vars : Vars) (s : Handle × ℕ) :
    Option (Bool × Vars × Handle × ℕ) := do
  let sector := scanInto s.2 (keyOf bson vars.value1)
  let store ← redisHashFieldSet redisDirSectorInsert sector (ascii "file") (leBytes 8 id) s.1
  let data ← dataOf bson vars.value1
  let store ← redisBinaryInsert redisDirFilesInsert sector data store
  let store ← redisReversePointerSet redisDirInsert sector sector store
  some (true, vars, store, sector)

/-- An entry of `sectors`: the blocks are numbered by `counter`, whatever their keys. -/
def sectorsElement (blockSize id : ℕ) (bson : BsonInfo) (vars : Vars) (s : Handle × ℕ) :
    Option (Bool × Vars × Handle × ℕ) := do
  let sector ← int32At bson.buffer vars.value1.data
  let counter := s.2
  let store ← redisReversePointerSet redisFileSectorsInsert id sector s.1
  let stop := (counter + blockSize) % 2 ^ 64
  let store ← redisReverseFileDataPointerSet sector counter stop id store
  some (true, vars, store, stop)

/-- An entry of `extents`: the sector of an index block. -/
def extentsElement (id : ℕ) (bson : BsonInfo) (vars : Vars) (s : Handle × ℕ) :
    Option (Bool × Vars × Handle × ℕ) := do
  let sector := scanInto s.2 (keyOf bson vars.value1)
  let store ← redisHashFieldSet redisExtentSectorInsert sector (ascii "file") (leBytes 8 id) s.1
  let store ← redisReversePointerSet redisExtentsInsert id sector store
  let store ← redisReversePointerSet redisExtentsSectorInsert sector sector store
  some (true, vars, store, sector)

/-- A loop over the nested document behind `value2`, which decodes into the same variables. -/
def whileNested (heap : Heap) (fuel : ℕ)
    (body : BsonInfo → Vars → Handle × ℕ → Option (Bool × Vars × Handle × ℕ)) (bson : BsonInfo)
    (vars : Vars) (s : Handle × ℕ) : Option (Bool × Vars × Handle × ℕ) := do
  let data ← dataOf bson vars.value2
  let (_, bson2) ← openNested heap data
  let (ok, _, vars, s) ← whileDeserialize (· = 1) body fuel bson2 vars s
  some (ok, vars, s)

/-- The body of the loop of `__deserialize_file`, on the store and the variable `sector`. -/
def fileElement (heap : Heap) (fuel blockSize id : ℕ) (bson : BsonInfo) (vars : Vars)
    (s : Handle × ℕ) : Option (Bool × Vars × Handle × ℕ) :=
  let key := keyOf bson vars.value1
  if key = ascii "inode_sector" then do
    let sector ← uintOf 4 bson vars.value1
    let store ← redisReversePointerSet redisFilesInsert sector id s.1
    let store ← redisReversePointerSet redisFilesSectorInsert sector sector store
    some (true, vars, store, s.2)
  else if key = ascii "inode_num" then do
    let num ← uintOf 4 bson vars.value1
    let store ← redisReversePointerSet redisInodeInsert num id s.1
    let store ← setField redisFileSectorInsert id bson vars.value1 store
    some (true, vars, store, s.2)
  else if key = ascii "files" then whileNested heap fuel (filesElement id) bson vars s
  else if key = ascii "sectors" then do
    let (ok, vars, store, _) ← whileNested heap fuel (sectorsElement blockSize id) bson vars (s.1, 0)
    some (ok, vars, store, s.2)
  else if key = ascii "extents" then whileNested heap fuel (extentsElement id) bson vars s
  else if key = ascii "path" then do
    let store ← setField redisFileSectorInsert id bson vars.value1 s.1
    let data ← dataOf bson vars.value1
    let store ← redisPathSet data id store
    some (true, vars, store, s.2)
  else do
    let store ← setField redisFileSectorInsert id bson vars.value1 s.1
    some (true, vars, store, s.2)

def deserializeFile (heap : Heap) (fuel : ℕ) (super : SuperInfo) (bson : BsonInfo) (vars : Vars)
    (store : Handle) (id : ℕ) : Option (Bool × BsonInfo × Vars × Handle × ℕ) :=
  whileDeserialize (· ≠ 0) (fileElement heap fuel super.blockSize id) fuel bson vars (store, 0)

/-! ## Documents -/

/-- The static variables of `qemu_load_document`. -/
structure Statics where
  fsId : ℕ
  bgdCounter : ℕ
  fileCounter : ℕ
  super : SuperInfo

/-- `qemu_load_document` with `lazy_load` set. `true` is `EXIT_SUCCESS`, after which the two
counters of the caller are those of the statics. -/
def qemuLoadDocument (heap : Heap) (fuel : ℕ) (locals : Locals) (bson : BsonInfo) (st : Statics)
    (store : Handle) : Option (Bool × BsonInfo × Statics × Handle) := do
  let (ret, bson, value1, value2) ← bsonDeserialize bson locals.vars.value1 locals.vars.value2
  let type := cstringAt bson.buffer value1.data
  if ret ≠ 1 then some (false, bson, st, store)
  else if keyOf bson value1 ≠ ascii "type" then some (false, bson, st, store)
  else if type = ascii "file" then do
    let (_, bson, _, store, _) ←
      deserializeFile heap fuel st.super bson locals.vars store st.fileCounter
    some (true, bson, { st with fileCounter := (st.fileCounter + 1) % 2 ^ 64 }, store)
  else if type = ascii "bgd" then do
    let (_, bson, _, store) ← deserializeBgd fuel bson locals.vars store st.bgdCounter
    some (true, bson, { st with bgdCounter := (st.bgdCounter + 1) % 2 ^ 64 }, store)
  else if type = ascii "fs" then do
    let (ret, bson, value1, _) ← bsonDeserialize bson value1 value2
    if ret ≠ 1 then some (false, bson, st, store)
    else if keyOf bson value1 ≠ ascii "pte_num" then some (false, bson, st, store)
    else do
      let fsId ← uintOf 4 bson value1
      let (bson, super, store) ← deserializeFs fuel bson locals store fsId
      some (true, bson, { st with fsId := fsId, super := super }, store)
  else if type = ascii "partition" then do
    let (ret, bson, value1, _) ← bsonDeserialize bson value1 value2
    if ret ≠ 1 then some (false, bson, st, store)
    else if keyOf bson value1 ≠ ascii "pte_num" then some (false, bson, st, store)
    else do
      let fsId ← uintOf 4 bson value1
      let (_, bson, _, store) ← deserializePartition fuel bson locals.vars store fsId
      some (true, bson, { st with fsId := fsId }, store)
  else if type = ascii "mbr" then do
    let (ok, bson, _, store) ← deserializeMbr fuel bson locals.vars store 0
    some (ok, bson, st, store)
  else if type = ascii "metadata_filter" then do
    let (ok, bson, _, store) ← deserializeBitarray fuel bson locals.vars store
    some (ok, bson, st, store)
  else some (false, bson, st, store)

/-- The loop of `qemu_load_index`; `counter` is its `file_counter`. `locals` is indexed by the
position in the file, so that every call may find others. -/
def loadDocuments (heap : Heap) (fuel : ℕ) (locals : ℕ → Locals) :
    ℕ → BsonInfo → File → Statics → ℕ → Handle → Option (ℕ × Statics × Handle)
  | 0, _, _, _, _, _ => none
  | rounds + 1, bson, index, st, counter, store => do
    let (ret, bson, index) ← bsonReadf heap bson index
    if ret = 1 then
      let (ok, bson, st, store) ←
        qemuLoadDocument heap fuel (locals index.position) bson st store
      loadDocuments heap fuel locals rounds bson index st (if ok then st.fileCounter else counter)
        store
    else some (counter, st, store)

def qemuLoadIndex (heap : Heap) (fuel : ℕ) (locals : ℕ → Locals) (index : File) (st : Statics)
    (store : Handle) : Option (Statics × Handle) := do
  let (counter, st, store) ← loadDocuments heap fuel locals fuel (bsonInit heap) index st 0 store
  let store ← redisSetFcounter counter store
  let store ← redisFlushPipeline store
  some (st, store)

end GammaRay.Loader
