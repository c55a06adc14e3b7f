import GammaRay.BlockGroups
import GammaRay.Schema

set_option autoImplicit false

/-!
# The inference engine on an ext4 disk

`qemu_deep_inspect` and the handlers it dispatches a write to. `none` is an outcome the
source leaves undefined: a read behind the write, a write behind an array, `strtok` with
no token left, a recursion that does not end. Sectors whose records are loaded on demand
are left out; the loader of the index makes none.
-/
namespace GammaRay.Inspect
open Bytes Decimal Redis KvStore Bson Ext4

/-- The calls of `redis_queue.c`, by what they do with the reply: leave it in the pipeline,
look into it after a flush or without one, or only free it. -/
structure Service (σ : Type) where
  append : Command KvStore.Key → σ → Option σ
  query : Command KvStore.Key → σ → Option (Reply × σ)
  look : Command KvStore.Key → σ → Option (Reply × σ)
  tell : Command KvStore.Key → σ → Option σ
  flush : σ → Option σ

/-- The calls as they are written. -/
def handleService : Service Handle where
  append := pipelined
  query := KvStore.query
  look := interpretCommand
  tell c h := (redisCommand c h).map Prod.snd
  flush := redisFlushPipeline

/-- The calls when every one gets the reply to its own command. -/
def directService : Service (Db KvStore.Key) where
  append c db := (exec db c).map Prod.snd
  query c db := exec db c
  look c db := exec db c
  tell c db := (exec db c).map Prod.snd
  flush := some

/-- `frames` counts the calls with uninitialised variables so far. -/
structure State (σ : Type) where
  store : σ
  frames : ℕ

abbrev Act (σ : Type) := StateT (State σ) Option

/-- The machine and the disk under inspection. -/
structure Setup where
  heap : Heap
  hostname : List UInt8
  vmname : List UInt8
  blockSize : ℕ
  partitionOffset : ℕ

/-- What all functions are passed. `stack n` is what the variables of call number `n` hold
before they are set. -/
structure Inspector (σ : Type) extends Setup where
  service : Service σ
  stack : ℕ → ℕ → UInt8

/-- `struct qemu_bdrv_write`. -/
structure BdrvWrite where
  sectorNum : ℕ
  nbSectors : ℕ
  data : List UInt8

/-- The tokens `strtok` finds between colons. -/
def tokens (text : List UInt8) : List (List UInt8) :=
  ((text.takeWhile (· ≠ 0)).splitOn 58).filter (· ≠ [])

/-- `sscanf` with `%llu` into a variable, which keeps its value if there is no number. -/
def scanInto (old : ℕ) (token : List UInt8) : ℕ := (scanU64 token).getD old

/-- The variable a reply is copied into. -/
def overlay (old data : List UInt8) : List UInt8 := data ++ old.drop data.length

def junk (vars : ℕ → UInt8) (place width : ℕ) : List UInt8 :=
  (List.range width).map fun i => vars (place + i)

def bufferOf (data : List UInt8) : Buffer := fun i => data[i]?

/-- A field that may have changed. -/
structure Compared where
  name : String
  type : BsonType
  old : List UInt8
  new : List UInt8

/-- A row of fields with the values read from the store and those of the write. -/
def compareAll (names : List (String × BsonType)) (olds news : List (List UInt8)) :
    List Compared :=
  (names.zip (olds.zip news)).map fun p => ⟨p.1.1, p.1.2, p.2.1, p.2.2⟩

/-- The fields of `struct ext4_superblock` that are compared. -/
structure SuperblockUpdate where
  superblock : Superblock
  sInodesCount : ℕ
  sFreeInodesCount : ℕ
  sFirstIno : ℕ

def superblockAt (buf : Buffer) (o : ℕ) : Option SuperblockUpdate := do
  let sInodesCount ← field buf o 4
  let sBlocksCountLo ← field buf (o + 4) 4
  let sFreeInodesCount ← field buf (o + 16) 4
  let sFirstDataBlock ← field buf (o + 20) 4
  let sLogBlockSize ← field buf (o + 24) 4
  let sBlocksPerGroup ← field buf (o + 32) 4
  let sInodesPerGroup ← field buf (o + 40) 4
  let sFirstIno ← field buf (o + 84) 4
  let sBlocksCountHi ← field buf (o + 336) 4
  some ⟨⟨sLogBlockSize, sBlocksCountLo, sBlocksCountHi, sFirstDataBlock, sBlocksPerGroup,
    sInodesPerGroup⟩, sInodesCount, sFreeInodesCount, sFirstIno⟩

def redisFilesLget (sector : ℕ) : Command KvStore.Key := .lrange (.files sector) 0 (-1)

def redisBgdsLget (sector : ℕ) : Command KvStore.Key := .lrange (.bgds sector) 0 (-1)

def redisBgdSectorGet (id : ℕ) (field : List UInt8) : Command KvStore.Key := .hget (.bgd id) field

def redisExtentsLget (id : ℕ) : Command KvStore.Key := .lrange (.extents id) 0 (-1)

def redisExtentSectorGet (sector : ℕ) (field : List UInt8) : Command KvStore.Key :=
  .hget (.extent sector) field

def redisFileSectorsLlen (id : ℕ) : Command KvStore.Key := .llen (.filesectors id)

def redisFileSectorsLset (id index : ℕ) (sector : ℤ) : Command KvStore.Key :=
  .lset (.filesectors id) index (sectorText sector)

/-- The pivot is the index in the list, where `LINSERT` takes an element. -/
def redisExtentsLinsert (id index : ℕ) (sector : ℤ) : Command KvStore.Key :=
  .linsertBefore (.extents id) (dec index) (reference "extent:" sector)

def Setup.constructChannelName (u : Setup) (path : List UInt8) : List UInt8 :=
  u.hostname ++ [58] ++ u.vmname ++ [58] ++ path.takeWhile (· ≠ 0)

/-- A block of the partition as a sector of the disk. -/
def Setup.sectorOf (u : Setup) (block : ℕ) : ℕ :=
  u64 (block * u.blockSize + u.partitionOffset) / sectorSize

namespace Inspector

variable {σ : Type} (c : Inspector σ)

def append (command : Command KvStore.Key) : Act σ Unit := fun s => do
  let store ← c.service.append command s.store
  some ((), { s with store := store })

def query (command : Command KvStore.Key) : Act σ Reply := fun s => do
  let (r, store) ← c.service.query command s.store
  some (r, { s with store := store })

def look (command : Command KvStore.Key) : Act σ Reply := fun s => do
  let (r, store) ← c.service.look command s.store
  some (r, { s with store := store })

def tell (command : Command KvStore.Key) : Act σ Unit := fun s => do
  let store ← c.service.tell command s.store
  some ((), { s with store := store })

def flush : Act σ Unit := fun s => do
  let store ← c.service.flush s.store
  some ((), { s with store := store })

/-- The uninitialised variables of the next call. -/
def enter : Act σ (ℕ → UInt8) := fun s => some (c.stack s.frames, { s with frames := s.frames + 1 })

def defined {α : Type} (x : Option α) : Act σ α := fun s => x.map fun a => (a, s)

def publish (channel : List UInt8) (kvs : List BsonKv) : Act σ Unit := do
  let bson ← defined (serializeAll c.heap (bsonInit c.heap) kvs)
  let bson ← defined (bsonFinalize c.heap bson)
  c.tell (.publish channel (bson.buffer.take bson.position))

/-! ## The fields of records -/

def fieldKvs (field type : String) (bsonType : BsonType) (oldv newv : List UInt8)
    (transactionId : ℕ) : List BsonKv :=
  [stringKv "type" (ascii type), int64Kv "transaction" transactionId,
    stringKv "field" (ascii field), ⟨bsonType, 0, oldv.length, ascii "old", .bytes oldv⟩,
    ⟨bsonType, 0, newv.length, ascii "new", .bytes newv⟩]

def emitFieldUpdate (field type : String) (channel : List UInt8) (bsonType : BsonType)
    (oldv newv : List UInt8) (transactionId : ℕ) : Act σ Unit :=
  c.publish channel (fieldKvs field type bsonType oldv newv transactionId)

/-- `DIRECT_FIELD_COMPARE`. -/
def directFieldCompare (record : String) (channel : List UInt8) (transactionId : ℕ)
    (v : Compared) : Act σ Unit :=
  if v.old ≠ v.new then
    c.emitFieldUpdate (record ++ v.name) "metadata" channel v.type v.old v.new transactionId
  else pure ()

/-- `GET_FIELD`. -/
def getField (fmt : ℕ → List UInt8 → Command KvStore.Key) (id : ℕ) (name : String)
    (old : List UInt8) : Act σ (List UInt8) := do
  let r ← c.query (fmt id (ascii name))
  pure (overlay old (copyString old.length r))

/-- `SET_FIELD`. -/
def setField (fmt : ℕ → List UInt8 → List UInt8 → Command KvStore.Key) (id : ℕ) (v : Compared) :
    Act σ Unit :=
  if v.new ≠ v.old then c.append (fmt id (ascii v.name) v.new) else pure ()

/-- `strtok` up to the second token, which has to be there, and `sscanf`. -/
def pointerTarget (old : ℕ) (pointer : List UInt8) : Act σ ℕ := do
  let token ← defined (tokens pointer)[1]?
  pure (scanInto old token)

def diffSuperblock (write : List UInt8) (writeCounter : ℕ) (pointer : List UInt8) :
    Act σ Unit := do
  let vars ← c.enter
  let fs ← pointerTarget 0 pointer
  let blockSize ← c.getField redisSuperblockSectorGet fs "block_size" (junk vars 0 8)
  let numFiles ← c.getField redisSuperblockSectorGet fs "num_files" (junk vars 8 4)
  let numBlockGroups ← c.getField redisSuperblockSectorGet fs "num_block_groups" (junk vars 12 4)
  let offset ← c.getField redisSuperblockSectorGet fs "superblock_offset" (leBytes 8 0)
  let new ← defined (superblockAt (bufferOf write) (leNat offset))
  if new.superblock.sBlocksPerGroup = 0 then defined none
  else do
    let channel := c.constructChannelName []
    let all := compareAll
      [("block_size", .int64), ("num_block_groups", .int32), ("num_files", .int32)]
      [blockSize, numBlockGroups, numFiles]
      [leBytes 8 (ext4BlockSize new.superblock), leBytes 4 (ext4NumBlockGroups new.superblock),
        i32Bytes (new.sInodesCount - new.sFreeInodesCount - new.sFirstIno + 2)]
    all.forM (c.directFieldCompare "superblock." channel writeCounter)
    all.forM (c.setField redisSuperblockSectorInsert fs)

/-- The iterations of `__diff_bgds`. The fields are read into `len`, which is also the bound of
the loop: it is 8 from the first descriptor on. -/
def diffBgdsLoop (write : List UInt8) (writeCounter : ℕ) (list : List (List UInt8)) :
    ℕ → ℕ → ℕ → ℕ → List (List UInt8) → Act σ Unit
  | 0, _, _, _, _ => pure ()
  | fuel + 1, len, i, bgd, olds =>
    if i < len then do
      let element ← defined list[i]?
      let bgd ← pointerTarget bgd element
      let names := [("block_bitmap_sector_start", .int64), ("inode_bitmap_sector_start", .int64),
        ("inode_table_sector_start", .int64)]
      let olds ← (names.zip olds).mapM fun p => c.getField redisBgdSectorGet bgd p.1.1 p.2
      let new ← defined (bgdAt (bufferOf write) i)
      let news := [new.bgBlockBitmapLo, new.bgInodeBitmapLo, new.bgInodeTableLo].map fun block =>
        leBytes 8 (c.sectorOf block)
      let all := compareAll names olds news
      all.forM (c.directFieldCompare "bgd." (c.constructChannelName []) writeCounter)
      all.forM (c.setField redisBgdSectorInsert bgd)
      diffBgdsLoop write writeCounter list fuel 8 (i + 1) bgd olds
    else pure ()

def diffBgds (write : List UInt8) (writeCounter : ℕ) (pointer : List UInt8) : Act σ Unit := do
  let vars ← c.enter
  let lbgds ← pointerTarget 0 pointer
  let r ← c.query (redisBgdsLget lbgds)
  let list ← defined (asElements r)
  c.diffBgdsLoop write writeCounter list (list.length + 8) list.length 0 0
    [junk vars 0 8, junk vars 8 8, junk vars 16 8]

/-! ## The bytes of files -/

def dataKvs (start stop : ℕ) (subtype : UInt8) (write : List UInt8) (writeLen writeCounter : ℕ) :
    List BsonKv :=
  [stringKv "type" (ascii "data"), int64Kv "transaction" writeCounter, int64Kv "start" start,
    int64Kv "end" stop, ⟨.binary, subtype, i32 writeLen, ascii "write", .bytes write⟩]

/-- The last block of a file is always kept around. -/
def keepLastBlock (write : List UInt8) (rest writeLen sector : ℕ) : Act σ Unit :=
  if rest ≤ writeLen then do
    let kept ← defined (copyLen rest write)
    c.append (.setex (.qsector sector) defaultTimeout kept)
  else pure ()

def dropInnerBlock (stop fsize sector : ℕ) : Act σ Unit :=
  if stop < fsize then c.append (.del (.qsector sector)) else pure ()

def emitFileBytes (write : List UInt8) (writeCounter : ℕ) (pointer : List UInt8)
    (writeLen sector : ℕ) : Act σ Unit := do
  let vars ← c.enter
  match (tokens pointer)[1]?, (tokens pointer)[3]?, (tokens pointer)[5]? with
  | some start, some stop, some file => do
    let start := scanInto (leNat (junk vars 0 8)) start
    let stop := scanInto (leNat (junk vars 8 8)) stop
    let file := scanInto (leNat (junk vars 16 8)) file
    let r ← c.query (redisFileSectorGet file (ascii "path"))
    let path := copyString 4096 r
    -- the terminator of a path of 4096 bytes goes behind the array
    if path.length = 4096 then defined none
    else do
      let size ← c.getField redisFileSectorGet file "size" (junk vars 24 8)
      let rest := u64 (leNat size - start)
      c.keepLastBlock write rest writeLen sector
      c.dropInnerBlock stop (leNat size) sector
      c.publish (c.constructChannelName path)
        (dataKvs start stop (vars 32) write (if rest ≤ writeLen then rest else writeLen)
          writeCounter)
  | _, _, _ => pure ()

/-- `__reinspect_write`. The call inspects a whole block, of which the queue gives the first
bytes and the stack the others. -/
def reinspectWrite (inspect : BdrvWrite → Act σ Unit) (sector : ℕ) : Act σ Unit := do
  let vars ← c.enter
  let r ← c.look (.get (.qsector sector))
  c.tell (.del (.qsector sector))
  let data := copyString c.blockSize r
  if data = [] then pure ()
  else inspect ⟨sector, c.blockSize / sectorSize, overlay (junk vars 0 c.blockSize) data⟩

/-! ## Extents -/

/-- A block of an extent that is new to the list of the file, or that takes its place there. -/
def placeBlock (inspect : BdrvWrite → Act σ Unit) (file block sector : ℕ)
    (list : Command KvStore.Key) : Act σ Unit := do
  c.append list
  let start := u64 (block * c.blockSize)
  c.append (.set (.sector sector) (dataPointer start (u64 (start + c.blockSize)) file))
  c.reinspectWrite inspect sector

def diffExtent (inspect : BdrvWrite → Act σ Unit) (file oldFileLen : ℕ) (extent : Extent) :
    Act σ Unit :=
  let sector := fun i => c.sectorOf (ext4ExtentStart extent + i)
  if extent.eeBlock < oldFileLen then
    (List.range extent.eeLen).forM fun i =>
      c.placeBlock inspect file (i + extent.eeBlock) (sector i)
        (if i + extent.eeBlock < oldFileLen then
          redisFileSectorsLset file (i + extent.eeBlock) (i64 (sector i))
        else redisFileSectorsInsert file (i64 (sector i)))
  else do
    (List.range (extent.eeBlock - oldFileLen)).forM fun _ =>
      c.append (redisFileSectorsInsert file (-1))
    (List.range extent.eeLen).forM fun i =>
      c.placeBlock inspect file (i + extent.eeBlock) (sector i)
        (redisFileSectorsInsert file (i64 (sector i)))

/-- The search for a leaf among the old ones, which goes on behind the place it has found. -/
def insertLeaf (file sector : ℕ) : ℕ → List ℕ → Act σ Unit
  | _, [] => pure ()
  | i, old :: rest =>
    if sector = old then pure ()
    else if sector < old then do
      c.append (redisExtentsLinsert file i (i64 sector))
      insertLeaf file sector (i + 1) rest
    else insertLeaf file sector (i + 1) rest

/-- The first leaves of a file. -/
def newLeaf (inspect : BdrvWrite → Act σ Unit) (file sector : ℕ) : Act σ Unit := do
  c.append (redisExtentSectorInsert sector (ascii "file") (leBytes 8 file))
  c.append (redisExtentsInsert file (i64 sector))
  c.append (redisExtentsSectorInsert sector (i64 sector))
  c.reinspectWrite inspect sector

def diffExtentIdx (inspect : BdrvWrite → Act σ Unit) (file : ℕ) (extents : List ℕ)
    (idx : ExtentIdx) : Act σ Unit :=
  let sector := c.sectorOf (ext4ExtentIndexLeaf idx)
  if ext4ExtentIndexLeaf idx = 0 then pure ()
  else if extents.length = 0 then c.newLeaf inspect file sector
  else c.insertLeaf file sector 0 extents

def diffEntry (inspect : BdrvWrite → Act σ Unit) (file oldFileLen : ℕ) (extents : List ℕ)
    (hdr : ExtentHeader) (newb : Buffer) (newCounter : ℕ) : Act σ Unit :=
  if hdr.ehDepth ≠ 0 then do
    let idx ← defined (extentIdxAt newb newCounter)
    c.diffExtentIdx inspect file extents idx
  else do
    let extent ← defined (extentAt newb newCounter)
    c.diffExtent inspect file oldFileLen extent

/-- `__diff_ext4_extents` on a header and what follows it. -/
def diffExt4Extents (inspect : BdrvWrite → Act σ Unit) (file : ℕ) (newb : Buffer) :
    Act σ Unit := do
  let vars ← c.enter
  let magic ← defined (field newb 0 2)
  let hdr ← defined (if magic = 0xF30A then extentHeader newb else some ⟨0, 0⟩)
  let r ← c.query (redisFileSectorsLlen file)
  let oldFileLen := u64 (asCount r)
  let r ← c.query (redisExtentsLget file)
  let list ← defined (asElements r)
  let extents ← list.zipIdx.mapM fun p => pointerTarget (leNat (junk vars (8 * p.2) 8)) p.1
  (List.range hdr.ehEntries).forM (c.diffEntry inspect file oldFileLen extents hdr newb)
  c.flush

def diffExtentTree (inspect : BdrvWrite → Act σ Unit) (write pointer : List UInt8) :
    Act σ Unit := do
  let vars ← c.enter
  let id ← pointerTarget (leNat (junk vars 0 8)) pointer
  let file ← c.getField redisExtentSectorGet id "file" (junk vars 8 8)
  c.diffExt4Extents inspect (leNat file) (bufferOf write)

/-! ## Inodes -/

/-- The attributes in the order in which they are read, compared and set. -/
def attributes : List (String × BsonType) :=
  [("is_dir", .boolean), ("size", .int64), ("mode", .int64), ("link_count", .int64),
    ("uid", .int64), ("gid", .int64), ("atime", .int64), ("mtime", .int64), ("ctime", .int64)]

def newAttributes (node : Inode × InodeStat) : List (List UInt8) :=
  [if node.1.iMode &&& 0x4000 = 0x4000 then 1 else 0] ::
    [ext4FileSize node.1, node.1.iMode, node.2.iLinksCount, node.2.iUid, node.2.iGid,
      node.2.iAtime, node.2.iMtime, node.2.iCtime].map (leBytes 8)

/-- The variables that keep their value from one file of the list to the next. -/
structure InodeVars where
  file : ℕ
  offset : List UInt8
  olds : List (List UInt8)
  lastSector : ℕ

def inodeVars (vars : ℕ → UInt8) : InodeVars :=
  ⟨0, junk vars 0 8, junk vars 8 1 :: (List.range 8).map fun i => junk vars (9 + 8 * i) 8,
    leNat (junk vars 73 8)⟩

/-- A regular file or a directory. -/
def hasExtents (iMode : ℕ) : Prop :=
  (iMode &&& 0x8000 = 0x8000 ∨ iMode &&& 0x4000 = 0x4000) ∧
    ¬(iMode &&& 0x6000 = 0x6000 ∨ iMode &&& 0xa000 = 0xa000)

instance (iMode : ℕ) : Decidable (hasExtents iMode) := by unfold hasExtents; infer_instance

def diffInodeExtents (inspect : BdrvWrite → Act σ Unit) (write : List UInt8) (file offset : ℕ)
    (new : Inode) : Act σ Unit :=
  if hasExtents new.iMode then
    c.diffExt4Extents inspect file (bufferOf (write.drop (offset + 40)))
  else pure ()

/-- `redis_last_file_sector`. -/
def lastFileSector (file lastSector : ℕ) : Act σ ℕ := do
  let r ← c.query (.lindex (.filesectors file) (-1))
  let text := copyString 64 r
  if text = [] then pure lastSector else pointerTarget lastSector text

/-- A file that has grown has its last block inspected again. -/
def diffInodeSize (inspect : BdrvWrite → Act σ Unit) (file size newSize lastSector : ℕ) :
    Act σ ℕ :=
  if size < newSize then do
    let lastSector ← c.lastFileSector file lastSector
    c.reinspectWrite inspect lastSector
    pure lastSector
  else pure lastSector

def diffInode (inspect : BdrvWrite → Act σ Unit) (write : List UInt8) (writeCounter : ℕ)
    (v : InodeVars) (element : List UInt8) : Act σ InodeVars := do
  let file ← pointerTarget v.file element
  let r ← c.query (redisFileSectorGet file (ascii "path"))
  let path := copyString 4096 r
  if path.length = 4096 then defined none
  else do
    let offset ← c.getField redisFileSectorGet file "inode_offset" v.offset
    let channel := c.constructChannelName path
    let olds ← (attributes.zip v.olds).mapM fun p => c.getField redisFileSectorGet file p.1.1 p.2
    let new ← defined (inodeAt (bufferOf write) (leNat offset))
    let all := compareAll attributes olds (newAttributes new)
    all.forM (c.directFieldCompare "file." channel writeCounter)
    all.forM (c.setField redisFileSectorInsert file)
    c.diffInodeExtents inspect write file (leNat offset) new.1
    let lastSector ← c.diffInodeSize inspect file (leNat (olds.getD 1 [])) (ext4FileSize new.1)
      v.lastSector
    pure ⟨file, offset, olds, lastSector⟩

def diffInodes (inspect : BdrvWrite → Act σ Unit) (write : List UInt8) (writeCounter : ℕ)
    (pointer : List UInt8) : Act σ Unit := do
  let vars ← c.enter
  let lfiles ← pointerTarget 0 pointer
  let r ← c.query (redisFilesLget lfiles)
  let list ← defined (asElements r)
  let _ ← list.foldlM (c.diffInode inspect write writeCounter) (inodeVars vars)
  pure ()

/-! ## Dispatch -/

/-- `strncmp(pointer, name, strlen(name)) == 0`. -/
def named (name : String) (pointer : List UInt8) : Bool := (ascii name).isPrefixOf pointer

def dispatchWrite (inspect : BdrvWrite → Act σ Unit) (data : List UInt8) (writeCounter : ℕ)
    (pointer : List UInt8) (len sector : ℕ) : Act σ Unit :=
  if named "start" pointer then c.emitFileBytes data writeCounter pointer len sector
  else if named "fs" pointer then c.diffSuperblock data writeCounter pointer
  else if named "mbr" pointer then pure ()
  else if named "lbgds" pointer then c.diffBgds data writeCounter pointer
  else if named "lfiles" pointer then c.diffInodes inspect data writeCounter pointer
  else if named "bgd" pointer then pure ()
  else if named "extent" pointer then c.diffExtentTree inspect data pointer
  else if named "dirdata" pointer then pure ()
  else if named "load" pointer then defined none
  else pure ()

/-- What the loop does at sector `i` of a write. The handlers are passed the first sector of the
write, whichever block they are called for. -/
def inspectBlock (inspect : BdrvWrite → Act σ Unit) (write : BdrvWrite) (writeCounter i : ℕ) :
    Act σ Unit := do
  let sector := u64 (write.sectorNum + i)
  let r ← c.query (.get (.sector sector))
  let pointer := copyString 1024 r
  let data := write.data.drop (i * sectorSize)
  let size := min ((write.nbSectors - i) * sectorSize) c.blockSize
  if pointer = [] then do
    let bytes ← defined (copyLen size data)
    c.append (.setex (.qsector sector) defaultTimeout bytes)
  else if pointer.length = 1024 then defined none
  else c.dispatchWrite inspect data writeCounter pointer size write.sectorNum

/-- The sectors at which the blocks of a write begin. -/
def blockStarts (nbSectors : ℕ) : List ℕ :=
  (List.range ((nbSectors + c.blockSize / sectorSize - 1) / (c.blockSize / sectorSize))).map
    (· * (c.blockSize / sectorSize))

/-- `qemu_deep_inspect`, with a bound on the depth of the recursion. -/
def deepInspect (writeCounter : ℕ) : ℕ → BdrvWrite → Act σ Unit
  | 0, _ => defined none
  | fuel + 1, write =>
    if c.blockSize / sectorSize = 0 ∧ 0 < write.nbSectors then defined none
    else do
      (c.blockStarts write.nbSectors).forM
        (c.inspectBlock (deepInspect writeCounter fuel) write writeCounter)
      c.flush

end Inspector

end GammaRay.Inspect
