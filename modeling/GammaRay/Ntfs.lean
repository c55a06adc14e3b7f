import GammaRay.Ext4
import GammaRay.KvStore

set_option autoImplicit false

/-!
# NTFS records in the crawler

The functions of `ntfs.c` that take a file record apart: update sequences, data runs, the search
for an attribute and the stream of a non-resident attribute. Nothing in them checks a length, so a
record lies in a `Buffer` whose bytes may or may not be known behind its end. `none` is a use of
memory that is not there, a shift by more than the width, a failed assertion or a call of `exit`.
-/
namespace GammaRay.Ntfs
open Bytes Decimal Bson
open Ext4 (Buffer Disk)
open KvStore (ascii)

/-- The source of a `memcpy`. -/
def bytesAt (data : Buffer) (offset n : ℕ) : Option (List UInt8) :=
  (List.range n).mapM fun i => data (offset + i)

theorem mapM_getElem? {α β : Type} {f : α → Option β} {l : List α} {y : List β}
    (h : l.mapM f = some y) (i : ℕ) : y[i]? = l[i]?.bind f := by
  induction l generalizing y i with
  | nil =>
    rw [← Option.some.inj h]
    rfl
  | cons a l ih =>
    rw [List.mapM_cons, Option.bind_eq_bind, Option.bind_eq_some_iff] at h
    obtain ⟨b, hb, h⟩ := h
    rw [Option.bind_eq_bind, Option.bind_eq_some_iff] at h
    obtain ⟨bs, hbs, h⟩ := h
    rw [← Option.some.inj h]
    cases i with
    | zero => exact hb.symm
    | succ i => exact ih hbs i

theorem bytesAt_eq_some_iff {data : Buffer} {offset n : ℕ} {bytes : List UInt8} :
    bytesAt data offset n = some bytes ↔
      bytes.length = n ∧ ∀ i < n, data (offset + i) = bytes[i]? := by
  have hget : ∀ {y : List UInt8}, bytesAt data offset n = some y → ∀ i < n,
      data (offset + i) = y[i]? := by
    intro y hy i hi
    rw [mapM_getElem? hy, List.getElem?_range hi, Option.bind_some]
  constructor
  · intro h
    exact ⟨(Ext4.mapM_length h).trans List.length_range, hget h⟩
  · rintro ⟨hlen, hbytes⟩
    obtain ⟨y, hy, hylen⟩ := Ext4.mapM_full (f := fun i => data (offset + i)) (l := List.range n)
      fun i hi => ⟨_, (hbytes i (List.mem_range.mp hi)).trans
        (List.getElem?_eq_getElem (hlen ▸ List.mem_range.mp hi))⟩
    rw [List.length_range] at hylen
    rw [bytesAt, hy, Option.some.injEq]
    refine List.ext_getElem? fun i => ?_
    rcases Nat.lt_or_ge i n with hi | hi
    · rw [← hget hy i hi, hbytes i hi]
    · rw [List.getElem?_eq_none (by omega), List.getElem?_eq_none (by omega)]

theorem bytesAt_append {data : Buffer} {offset : ℕ} {front back : List UInt8} :
    bytesAt data offset (front ++ back).length = some (front ++ back) ↔
      bytesAt data offset front.length = some front ∧
        bytesAt data (offset + front.length) back.length = some back := by
  simp only [bytesAt_eq_some_iff, List.length_append, true_and]
  constructor
  · intro h
    refine ⟨fun i hi => ?_, fun i hi => ?_⟩
    · rw [h i (by omega), List.getElem?_append_left hi]
    · rw [Nat.add_assoc, h _ (by omega), List.getElem?_append_right (by omega),
        Nat.add_sub_cancel_left]
  · rintro ⟨hfront, hback⟩ i hi
    rcases Nat.lt_or_ge i front.length with hlt | hge
    · rw [hfront i hlt, List.getElem?_append_left hlt]
    · rw [List.getElem?_append_right hge, ← hback _ (by omega)]
      congr 1
      omega

theorem bytesAt_singleton {data : Buffer} {offset : ℕ} {byte : UInt8} :
    bytesAt data offset 1 = some [byte] ↔ data offset = some byte := by
  rw [bytesAt_eq_some_iff]
  constructor
  · intro h
    exact h.2 0 Nat.zero_lt_one
  · intro h
    refine ⟨rfl, fun i hi => ?_⟩
    obtain rfl : i = 0 := by omega
    exact h

/-- The fields of `struct ntfs_boot_file` that the functions below read. -/
structure BootFile where
  bytesPerSector : ℕ
  sectorsPerCluster : ℕ
  sector_lt : bytesPerSector < 2 ^ 16
  cluster_lt : sectorsPerCluster < 2 ^ 8

def clusterSize (bootf : BootFile) : ℕ := bootf.bytesPerSector * bootf.sectorsPerCluster

def lcnToOffset (bootf : BootFile) (partitionOffset : ℤ) (lcn : ℕ) : ℕ :=
  u64 ((lcn * clusterSize bootf % 2 ^ 64 : ℕ) + partitionOffset)

/-! ## Update sequences -/

/-- `struct ntfs_update_sequence`; `usnSize` counts bytes. -/
structure UpdateSequence where
  usnNum : ℕ
  usnSize : ℕ
  data : List UInt8

/-- No block has -2 bytes. -/
def readUpdateSequence (data : Buffer) (offset sizeUsn usnNum : ℕ) :
    Option (UpdateSequence × ℕ) :=
  if sizeUsn = 0 then none
  else do
    let buf ← bytesAt data offset (2 * sizeUsn - 2)
    some (⟨usnNum, (2 * sizeUsn - 2) % 2 ^ 16, buf⟩, u64 (offset + (2 * sizeUsn - 2 : ℕ)))

/-- `*((uint16_t*) &(data[i]))`. -/
def wordAt (data : List UInt8) (i : ℕ) : Option ℕ := do some (leNat [← data[i]?, ← data[i + 1]?])

/-- The loop of `ntfs_fixup_data`; `true` is `EXIT_SUCCESS`. -/
def fixupLoop (dataLen : ℕ) (seq : UpdateSequence) :
    ℕ → ℕ → ℕ → List UInt8 → Option (Bool × List UInt8)
  | 0, _, _, _ => none
  | fuel + 1, dataCounter, seqCounter, data =>
    if dataCounter < dataLen then
      if seqCounter < seq.usnSize then do
        let saw ← wordAt data dataCounter
        if saw ≠ seq.usnNum then some (false, data)
        else do
          let low ← seq.data[seqCounter]?
          let high ← seq.data[seqCounter + 1]?
          fixupLoop dataLen seq fuel (dataCounter + 512) (seqCounter + 2)
            ((data.set dataCounter low).set (dataCounter + 1) high)
      else some (true, data)
    else some (true, data)

def fixupData (data : List UInt8) (dataLen : ℕ) (seq : UpdateSequence) :
    Option (Bool × List UInt8) :=
  fixupLoop dataLen seq (dataLen / 512 + 2) 510 0 data

/-! ## Data runs -/

def topBitSet (byte : UInt8) : Bool := byte.toNat &&& 0x80 ≠ 0

/-- The shifts are those of a 32-bit `1U`. -/
def signExtend64 (val bits : ℕ) : Option ℤ :=
  if 1 ≤ bits ∧ bits < 32 then
    let m := 2 ^ (bits - 1)
    let val := val &&& (2 ^ bits - 1)
    some (i64 ((val ^^^ m : ℕ) - (m : ℤ)))
  else none

/-- `memcpy` over the first bytes of a 64-bit variable. -/
def overlay64 (old : ℕ) (bytes : List UInt8) : Option ℕ :=
  if bytes.length ≤ 8 then some (leNat (bytes ++ (leBytes 8 old).drop bytes.length)) else none

/-- The values of `*offset`, `*length` and `*lcn` after a call, and whether it returned 1. -/
structure DataRun where
  found : Bool
  offset : ℕ
  length : ℕ
  lcn : ℤ
  deriving DecidableEq, Repr

def parseDataRun (data : Buffer) (offset length : ℕ) (lcn : ℤ) : Option DataRun := do
  let packedSizes ← data offset
  let offset := u64 (offset + 1)
  if packedSizes = 0 then some ⟨false, offset, length, lcn⟩
  else do
    let offsetSize := (packedSizes.toNat &&& 0xf0) >>> 4
    let lenSize := packedSizes.toNat &&& 0x0f
    let lengthBytes ← bytesAt data offset lenSize
    let length ← overlay64 length lengthBytes
    let offset := u64 (offset + lenSize)
    let lcnBytes ← bytesAt data offset offsetSize
    let raw ← overlay64 (u64 lcn) lcnBytes
    let offset := u64 (offset + offsetSize)
    -- with no bytes at all this is the byte before the variable
    let top ← lcnBytes.getLast?
    let lcn ← if topBitSet top then signExtend64 raw (highestSetBit64 raw) else some (i64 raw)
    some ⟨true, offset, length, lcn⟩

/-! ## Attributes -/

inductive AttributeType where
  | standardInformation | attributeList | fileName | objectId | securityDescriptor | volumeName
  | volumeInformation | data | indexRoot | indexAllocation | bitmap | reparsePoint
  | eaInformation | ea | propertySet | loggedUtilityStream
  deriving DecidableEq, Repr

/-- `NTFS_VOLUME_VERSION` and `NTFS_SYMBOLIC_LINK` are other names of 0x40 and 0xC0. -/
def AttributeType.code : AttributeType → ℕ
  | .standardInformation => 0x10
  | .attributeList => 0x20
  | .fileName => 0x30
  | .objectId => 0x40
  | .securityDescriptor => 0x50
  | .volumeName => 0x60
  | .volumeInformation => 0x70
  | .data => 0x80
  | .indexRoot => 0x90
  | .indexAllocation => 0xA0
  | .bitmap => 0xB0
  | .reparsePoint => 0xC0
  | .eaInformation => 0xD0
  | .ea => 0xE0
  | .propertySet => 0xF0
  | .loggedUtilityStream => 0x100

/-- The fields of `struct ntfs_file_record` that the search reads. -/
structure FileRecord where
  magic : List UInt8
  offsetFirstAttribute : ℕ
  deriving DecidableEq, Repr

/-- `struct ntfs_standard_attribute_header`. -/
structure AttributeHeader where
  attributeType : ℕ
  length : ℕ
  nonResidentFlag : ℕ
  nameLength : ℕ
  nameOffset : ℕ
  flags : ℕ
  attributeId : ℕ
  lengthOfAttribute : ℕ
  offsetOfAttribute : ℕ
  indexedFlag : ℕ
  padding : ℕ
  deriving DecidableEq, Repr

def fileRecordSize : ℕ := 50

def attributeHeaderSize : ℕ := 24

/-- A field of a packed structure. -/
def fieldOf (bytes : List UInt8) (place width : ℕ) : ℕ := leNat ((bytes.drop place).take width)

def readFileRecordHeader (data : Buffer) (offset : ℕ) : Option (FileRecord × ℕ) := do
  let rec ← bytesAt data offset fileRecordSize
  some (⟨rec.take 4, fieldOf rec 20 2⟩, u64 (offset + fileRecordSize))

def attributeHeaderOf (bytes : List UInt8) : AttributeHeader where
  attributeType := fieldOf bytes 0 4
  length := fieldOf bytes 4 4
  nonResidentFlag := fieldOf bytes 8 1
  nameLength := fieldOf bytes 9 1
  nameOffset := fieldOf bytes 10 2
  flags := fieldOf bytes 12 2
  attributeId := fieldOf bytes 14 2
  lengthOfAttribute := fieldOf bytes 16 4
  offsetOfAttribute := fieldOf bytes 20 2
  indexedFlag := fieldOf bytes 22 1
  padding := fieldOf bytes 23 1

def readAttributeHeader (data : Buffer) (offset : ℕ) : Option (AttributeHeader × ℕ) := do
  let sah ← bytesAt data offset attributeHeaderSize
  some (attributeHeaderOf sah, u64 (offset + attributeHeaderSize))

/-- What is stored behind `attr`. -/
inductive Delivered where
  | header (sah : AttributeHeader)
  | fileName (bytes : List UInt8)
  deriving DecidableEq, Repr

/-- `sizeof(struct ntfs_file_name)`. -/
def fileNameSize : ℕ := 66

/-- The `switch` for an attribute of the type asked for; `none` inside is `EXIT_FAILURE`. -/
def deliver (data : Buffer) (type : AttributeType) (sah : AttributeHeader) (offset : ℕ) :
    Option (Option Delivered) :=
  match type with
  | .fileName => do
    let name ← bytesAt data (u64 ((offset : ℤ) + sah.offsetOfAttribute - attributeHeaderSize))
      fileNameSize
    some (some (.fileName name))
  | .indexAllocation | .indexRoot | .data => some (some (.header sah))
  | _ => some none

/-- One iteration of the loop in `ntfs_get_attribute`, on the value of `*offset`. -/
def getAttributeStep (data : Buffer) (type : AttributeType) (offset : ℕ) :
    Option (ℕ ⊕ (Option Delivered × ℕ)) := do
  let (sah, offset) ← readAttributeHeader data offset
  if sah.attributeType = type.code then do
    let attr ← deliver data type sah offset
    some (.inr (attr, offset))
  else do
    let offset := u64 ((offset : ℤ) + sah.length - attributeHeaderSize)
    let next ← bytesAt data offset 4
    if i32 (leNat next) = -1 then some (.inr (none, offset)) else some (.inl offset)

/-- `ntfs_get_attribute` returns with this behind `attr`, `none` for `EXIT_FAILURE`, and in
`*offset`. -/
def GetAttribute (data : Buffer) (offset : ℕ) (type : AttributeType)
    (r : Option Delivered × ℕ) : Prop :=
  ∃ rec offset', readFileRecordHeader data offset = some (rec, offset') ∧
    if rec.magic = ascii "FILE" then
      Loop.Ends (getAttributeStep data type) rec.offsetFirstAttribute r
    else r = (none, offset')

/-! ## Streams -/

/-- The fields of `struct ntfs_non_resident_header` that the handler reads. -/
structure NonResidentHeader where
  dataRunOffset : ℕ
  realSize : ℕ
  deriving DecidableEq, Repr

def nonResidentHeaderSize : ℕ := 40

def readNonResidentAttributeHeader (data : Buffer) (offset : ℕ) :
    Option (NonResidentHeader × ℕ) := do
  let nrh ← bytesAt data offset nonResidentHeaderSize
  some (⟨fieldOf nrh 8 2, fieldOf nrh 24 8⟩, u64 (offset + nonResidentHeaderSize))

/-- `fread(buf, n, 1, disk)`, if it returns 1. -/
def readDisk (disk : Disk) (position n : ℕ) : Option (List UInt8) :=
  if 0 < n ∧ position + n ≤ disk.size then
    some ((List.range n).map fun i => disk.byte (position + i))
  else none

/-- `memcpy` into a block. -/
def storeAt (block : List UInt8) (position : ℕ) (bytes : List UInt8) : Option (List UInt8) :=
  if position + bytes.length ≤ block.length then some (splice block position bytes) else none

/-- The variables of the loop over a run, with the position in the disk; `stream` is the block
behind `*stream`, or there is no `stream`. -/
structure CopyState where
  stream : Option (List UInt8)
  streamPosition : ℕ
  realSize : ℕ
  runLengthBytes : ℕ
  diskPosition : ℕ

/-- A chunk of at most 4096 bytes. The position in the stream advances by 4096 whatever its
length. -/
def copyChunk (disk : Disk) (s : CopyState) : Option CopyState :=
  let runLengthBytes := min s.runLengthBytes s.realSize
  let n := min runLengthBytes 4096
  match s.stream with
  | none => some { s with
      realSize := s.realSize - n
      runLengthBytes := runLengthBytes - n }
  | some stream => do
    let buf ← readDisk disk s.diskPosition n
    let stream ← storeAt stream s.streamPosition buf
    some ⟨some stream, s.streamPosition + 4096, s.realSize - n, runLengthBytes - n,
      s.diskPosition + n⟩

/-- `while (run_length_bytes)`. -/
def copyRun (disk : Disk) : ℕ → CopyState → Option CopyState
  | 0, s => if s.runLengthBytes = 0 then some s else none
  | fuel + 1, s => if s.runLengthBytes = 0 then some s else copyChunk disk s >>= copyRun disk fuel

/-- What is passed to the handler beside the record. -/
structure Handler where
  heap : Heap
  bootf : BootFile
  partitionOffset : ℤ
  disk : Disk
  saveSectors : Bool

/-- The variables of the loop over the runs; `bson` is the document that the sectors go into. -/
structure RunState where
  offset : ℕ
  prevLcn : ℤ
  realSize : ℕ
  stream : Option (List UInt8)
  streamPosition : ℕ
  sectors : BsonInfo
  sectorCounter : ℤ

/-- The entries for a run: every eighth of its sectors. -/
def saveRun (h : Heap) (runLcnBytes : ℤ) (runLengthBytes : ℕ) (s : RunState) : Option RunState :=
  (List.range ((runLengthBytes / 512 + 7) / 8)).foldlM (fun s k => do
    let sectors ← bsonSerialize h s.sectors
      ⟨.int32, 0, 0, dec (u32 s.sectorCounter), .bytes (i32Bytes (runLcnBytes.tdiv 512 + 8 * k))⟩
    some { s with sectors := sectors, sectorCounter := i32 (s.sectorCounter + 1) }) s

/-- The body of the loop for a run that `ntfs_parse_data_run` has found. -/
def handleRun (p : Handler) (bson : Option BsonInfo) (run : DataRun) (s : RunState) :
    Option RunState :=
  let runLengthBytes :=
    run.length * p.bootf.bytesPerSector % 2 ^ 64 * p.bootf.sectorsPerCluster % 2 ^ 64
  let lcn := s.prevLcn + run.lcn
  let runLcnBytes := i64 (lcnToOffset p.bootf p.partitionOffset (u64 lcn))
  if lcn < 0 ∨ 26214400 ≤ lcn then none
  else do
    let s ← if bson.isSome ∧ p.saveSectors then saveRun p.heap runLcnBytes runLengthBytes s
      else some s
    if s.stream.isSome ∧ runLcnBytes < 0 then none
    else do
      let c ← copyRun p.disk (runLengthBytes / 4096 + 1)
        ⟨s.stream, s.streamPosition, s.realSize, runLengthBytes, runLcnBytes.toNat⟩
      some { s with
        prevLcn := lcn
        realSize := c.realSize
        stream := c.stream
        streamPosition := c.streamPosition }

/-- One iteration of the loop over the runs, its condition included. -/
def nonResidentStep (p : Handler) (data : Buffer) (bson : Option BsonInfo) (s : RunState) :
    Option (RunState ⊕ RunState) := do
  let run ← parseDataRun data s.offset 0 0
  let s := { s with offset := run.offset }
  if run.found ∧ s.realSize ≠ 0 then (handleRun p bson run s).map .inl else some (.inr s)

/-- What `ntfs_handle_non_resident_data_attribute` leaves: `*offset`, `*stream` and `*stream_len`,
if they were set, and `bson`. -/
structure NonResidentResult where
  offset : ℕ
  stream : Option (List UInt8)
  streamLen : Option ℕ
  bson : Option BsonInfo

/-- The array of the sectors goes into the document. -/
def saveArray (p : Handler) (bson : Option BsonInfo) (s : RunState) : Option (Option BsonInfo) :=
  match bson with
  | none => some none
  | some b =>
    if p.saveSectors then do
      let sectors ← bsonFinalize p.heap s.sectors
      let b ← bsonSerialize p.heap b ⟨.array, 0, 0, ascii "sectors", .document sectors⟩
      some (some b)
    else some (some b)

/-- The variables before the first run. -/
def RunState.init (p : Handler) (nrh : NonResidentHeader) (offset : ℕ) (wanted : Bool) :
    RunState where
  offset := u64 ((offset : ℤ) + nrh.dataRunOffset - attributeHeaderSize - nonResidentHeaderSize)
  prevLcn := 0
  realSize := nrh.realSize
  stream := if wanted then some (p.heap.malloc nrh.realSize) else none
  streamPosition := 0
  sectors := bsonInit p.heap
  sectorCounter := 0

/-- `ntfs_handle_non_resident_data_attribute` returns; `wanted` tells whether it was passed a
`stream`. -/
def HandleNonResidentDataAttribute (p : Handler) (data : Buffer) (offset : ℕ) (wanted : Bool)
    (bson : Option BsonInfo) (r : NonResidentResult) : Prop :=
  ∃ nrh offset' s, readNonResidentAttributeHeader data offset = some (nrh, offset') ∧
    Loop.Ends (nonResidentStep p data bson) (.init p nrh offset' wanted) s ∧
    r.offset = s.offset ∧ r.stream = s.stream ∧
    r.streamLen = (if wanted then some nrh.realSize else none) ∧ saveArray p bson s = some r.bson

end GammaRay.Ntfs
