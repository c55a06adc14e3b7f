import GammaRay.FileSectors

set_option autoImplicit false

/-!
# Crawling a directory tree

`ext4_serialize_tree` on files mapped by extents, with both caches filled. Its loops are
relations over what stands for the recursive call, and the call itself is a relation by the
depth of the recursion, since a damaged directory can keep it busy for ever.
-/
namespace GammaRay.Ext4
open Bytes Decimal Bson
open KvStore (ascii)

/-- The fields of `struct ext4_inode` that only the tree looks at. -/
structure InodeStat where
  iUid : ℕ
  iAtime : ℕ
  iCtime : ℕ
  iMtime : ℕ
  iGid : ℕ
  iLinksCount : ℕ
  deriving DecidableEq, Repr

def inodeAt (cache : Buffer) (offset : ℕ) : Option (Inode × InodeStat) := do
  let iMode ← field cache offset 2
  let iUid ← field cache (offset + 2) 2
  let iSizeLo ← field cache (offset + 4) 4
  let iAtime ← field cache (offset + 8) 4
  let iCtime ← field cache (offset + 12) 4
  let iMtime ← field cache (offset + 16) 4
  let iGid ← field cache (offset + 24) 2
  let iLinksCount ← field cache (offset + 26) 2
  let iFlags ← field cache (offset + 32) 4
  let iBlock ← (List.range 60).mapM fun i => cache (offset + 40 + i)
  let iSizeHigh ← field cache (offset + 108) 4
  if h : iBlock.length = 60 then
    some (⟨iMode, iSizeLo, iSizeHigh, iFlags, ⟨iBlock.toArray, h⟩⟩,
      ⟨iUid, iAtime, iCtime, iMtime, iGid, iLinksCount⟩)
  else none

/-- What all calls share. `subtype` is what the stack of the call for a path holds in the
field of `dentry_value` that no one sets. -/
structure TreeCrawl where
  heap : Heap
  volume : Volume
  sInodeSize : ℕ
  icache : Buffer
  bcache : Buffer
  subtype : List UInt8 → UInt8

namespace TreeCrawl

variable (c : TreeCrawl)

def options : Options := ⟨c.heap, 0, false, true⟩

def blockSize : ℕ := ext4BlockSize c.volume.superblock

/-- `inode_num - 1` in 32 bits. -/
def inodeIndex (inodeNum : ℕ) : ℕ := (inodeNum + (2 ^ 32 - 1)) % 2 ^ 32

def blockGroup (inodeNum : ℕ) : ℕ := inodeIndex inodeNum / c.volume.superblock.sInodesPerGroup

def inodeOffset (inodeNum : ℕ) : ℕ :=
  inodeIndex inodeNum % c.volume.superblock.sInodesPerGroup * c.sInodeSize

def icacheOffset (inodeNum : ℕ) : ℕ :=
  c.blockGroup inodeNum * (c.sInodeSize * c.volume.superblock.sInodesPerGroup % 2 ^ 32) +
    c.inodeOffset inodeNum

/-- `bg_inode_table_lo` of the descriptor in the cache. -/
def inodeTable (inodeNum : ℕ) : Option ℕ := field c.bcache (c.blockGroup inodeNum * 32 + 8) 4

/-- The place of an inode on the disk. -/
def inodePlace (inodeNum table : ℕ) : ℕ :=
  u64 (c.volume.partitionOffset + ext4BlockOffset table c.volume.superblock +
    c.inodeOffset inodeNum)

def inodeSector (inodeNum table : ℕ) : ℕ :=
  let sectorsPerBlock := c.blockSize / sectorSize
  c.inodePlace inodeNum table / sectorSize / sectorsPerBlock * sectorsPerBlock

end TreeCrawl

def stringKv (key : String) (text : List UInt8) : BsonKv :=
  ⟨.string, 0, text.length, ascii key, .bytes text⟩

def booleanKv (key : String) (b : Bool) : BsonKv :=
  ⟨.boolean, 0, 0, ascii key, .bytes [if b then 1 else 0]⟩

def int32Kv (key : String) (n : ℕ) : BsonKv := ⟨.int32, 0, 0, ascii key, .bytes (leBytes 4 n)⟩

def int64Kv (key : String) (n : ℕ) : BsonKv := ⟨.int64, 0, 0, ascii key, .bytes (leBytes 8 n)⟩

def serializeAll (h : Heap) (b : BsonInfo) (kvs : List BsonKv) : Option BsonInfo :=
  kvs.foldlM (bsonSerialize h) b

def inodeKvs (c : TreeCrawl) (inodeNum table : ℕ) : List BsonKv :=
  [stringKv "type" (ascii "file"), int64Kv "inode_sector" (c.inodeSector inodeNum table),
    int64Kv "inode_offset" (c.inodePlace inodeNum table % c.blockSize),
    int32Kv "inode_num" inodeNum]

def ext4ReadInodeSerialized (c : TreeCrawl) (inodeNum : ℕ) (bson : BsonInfo) :
    Option ((Inode × InodeStat) × BsonInfo) :=
  if c.volume.superblock.sInodesPerGroup = 0 then none
  else do
    let table ← c.inodeTable inodeNum
    let inode ← inodeAt c.icache (c.icacheOffset inodeNum)
    let bson ← serializeAll c.heap bson (inodeKvs c inodeNum table)
    some (inode, bson)

/-- The fields that the three kinds of inode have in common. -/
def statKvs (path : List UInt8) (node : Inode × InodeStat) : List BsonKv :=
  [stringKv "path" path, booleanKv "is_dir" (node.1.iMode &&& 0x4000 = 0x4000),
    int64Kv "size" (ext4FileSize node.1), int64Kv "mode" node.1.iMode,
    int64Kv "link_count" node.2.iLinksCount, int64Kv "uid" node.2.iUid,
    int64Kv "gid" node.2.iGid, int64Kv "atime" node.2.iAtime, int64Kv "mtime" node.2.iMtime,
    int64Kv "ctime" node.2.iCtime]

def ReadResult.buffer : ReadResult → Buffer
  | .block _ buf => buf
  | .hole buf => buf

/-- What `value.data` points at for `link_name`. Nothing is known of a link of 4096 bytes or
more, for which the pointer is left over from another field. -/
def LinkName (c : TreeCrawl) (inode : Inode) (data : List UInt8) : Prop :=
  if ext4FileSize inode < 60 then data = inode.iBlock.toList
  else ext4FileSize inode < 4096 ∧
    ∃ r, Ext4ReadExtentBlock c.volume 0 inode r ∧ wholeBuffer c.volume r.buffer = some data

def linkKv (inode : Inode) (data : List UInt8) : BsonKv :=
  ⟨.string, 0, i32 (ext4FileSize inode), ascii "link_name", .bytes data⟩

/-- What the crawl leaves behind: the filter, and what each `bson_writef` has written. -/
structure Output where
  bits : Bitarray
  written : List (List UInt8)

def Output.write (out : Output) (bson : BsonInfo) : Output :=
  { out with written := out.written ++ [bsonWritef bson []] }

def SerializeFile (c : TreeCrawl) (inode : Inode) (bson : BsonInfo) (out out' : Output) : Prop :=
  ∃ bits bson' finished,
    Ext4SerializeFileSectors c.options c.volume out.bits inode bson bits bson' ∧
    bsonFinalize c.heap bson' = some finished ∧
    out' = Output.write { out with bits := bits } finished

/-! ## Directories -/

/-- `strcpy(path, prefix)`, and a slash behind all but the shortest. -/
def startPath (path : List UInt8) : List UInt8 := if 1 < path.length then path ++ [47] else path

def pathSize : ℕ := 8192

def dentryKv (c : TreeCrawl) (path : List UInt8) (sector inodeNum : ℕ) (name : List UInt8) :
    BsonKv :=
  ⟨.binary, c.subtype path, 8 + name.length, dec sector, .bytes (leBytes 8 inodeNum ++ name)⟩

def nameAt (buf : Buffer) (position len : ℕ) : Option (List UInt8) :=
  (List.range len).mapM fun i => buf (position + 8 + i)

structure DirState where
  dentries : BsonInfo
  out : Output

/-- What a recursive call does. -/
abbrev Recursion := Inode × InodeStat → List UInt8 → BsonInfo → Output → Output → Prop

section Directory

variable (c : TreeCrawl) (recurse : Recursion)

/-- The loop over the entries of a block. A path that overflows its buffer, or a name that
leaves no room for its terminator, has no defined outcome. -/
inductive DirEntries (path : List UInt8) (sector : ℕ) (buf : Buffer) :
    ℕ → DirState → DirState → Prop where
  | done {position : ℕ} {s : DirState} (h : c.blockSize ≤ position) :
      DirEntries path sector buf position s s
  | deleted {position recLen : ℕ} {s s' : DirState} (h : position < c.blockSize)
      (start : (startPath path).length < pathSize) (inode : field buf position 4 = some 0)
      (stride : field buf (position + 4) 2 = some recLen)
      (rest : DirEntries path sector buf (position + recLen) s s') :
      DirEntries path sector buf position s s'
  | entry {position recLen inodeNum nameLen : ℕ} {name : List UInt8} {dentries bson : BsonInfo}
      {child : Inode × InodeStat} {out : Output} {s s' : DirState} (h : position < c.blockSize)
      (start : (startPath path).length < pathSize)
      (inode : field buf position 4 = some inodeNum) (used : inodeNum ≠ 0)
      (stride : field buf (position + 4) 2 = some recLen)
      (len : field buf (position + 6) 1 = some nameLen) (short : nameLen < 255)
      (named : nameAt buf position nameLen = some name)
      (dentry : bsonSerialize c.heap s.dentries (dentryKv c path sector inodeNum name) =
        some dentries)
      (read : ext4ReadInodeSerialized c inodeNum (bsonInit c.heap) = some (child, bson))
      (fits : (startPath path ++ name.takeWhile (· ≠ 0)).length < pathSize)
      (descend : if name.takeWhile (· ≠ 0) ≠ [46] ∧ name.takeWhile (· ≠ 0) ≠ [46, 46] then
          recurse child (startPath path ++ name.takeWhile (· ≠ 0)) bson s.out out
        else out = s.out)
      (rest : DirEntries path sector buf (position + recLen) ⟨dentries, out⟩ s') :
      DirEntries path sector buf position s s'

/-- The loop over the blocks of a directory from block `i` on. -/
inductive DirBlocks (inode : Inode) (path : List UInt8) : ℕ → ℕ → DirState → DirState → Prop where
  | done {i : ℕ} {s : DirState} : DirBlocks inode path i 0 s s
  | next {i n sector : ℕ} {r : ReadResult} {s s₁ s' : DirState}
      (extents : inode.iFlags &&& 0x80000 ≠ 0)
      (read : Ext4ReadExtentBlock c.volume (i % 2 ^ 32) inode r)
      (place : Ext4SectorExtentBlock c.volume (i % 2 ^ 32) inode sector)
      (entries : DirEntries c recurse path sector r.buffer 0 s s₁)
      (rest : DirBlocks inode path (i + 1) n s₁ s') : DirBlocks inode path i (n + 1) s s'

/-- From `dentries = bson_init()` on. -/
def SerializeDirectory (inode : Inode) (path : List UInt8) (bson : BsonInfo)
    (out out' : Output) : Prop :=
  ∃ s bson' finished,
    DirBlocks c recurse inode path 0 (numBlocks c.volume inode) ⟨bsonInit c.heap, out⟩ s ∧
    serializeArray c.heap "files" s.dentries bson = some bson' ∧
    bsonFinalize c.heap bson' = some finished ∧ out' = s.out.write finished

end Directory

/-- `ext4_serialize_tree` returns with this output, within calls of this depth. -/
def SerializeTreeAt (c : TreeCrawl) : ℕ → Recursion
  | 0, _, _, _, _, _ => False
  | depth + 1, node, path, bson, out, out' =>
    let mode := node.1.iMode
    if mode &&& 0xa000 = 0xa000 then
      ∃ bson₁ bson₂ data, serializeAll c.heap bson (statKvs path node) = some bson₁ ∧
        LinkName c node.1 data ∧ bsonSerialize c.heap bson₁ (linkKv node.1 data) = some bson₂ ∧
        SerializeFile c node.1 bson₂ out out'
    else if mode &&& 0x8000 = 0x8000 then
      ∃ bson₁, serializeAll c.heap bson (statKvs path node) = some bson₁ ∧
        SerializeFile c node.1 bson₁ out out'
    else if mode &&& 0x4000 = 0x4000 then
      ∃ bson₁ bits bson₂, serializeAll c.heap bson (statKvs path node) = some bson₁ ∧
        Ext4SerializeFileSectors c.options c.volume out.bits node.1 bson₁ bits bson₂ ∧
        SerializeDirectory c (SerializeTreeAt c depth) node.1 path bson₂ { out with bits := bits }
          out'
    else SerializeDirectory c (SerializeTreeAt c depth) node.1 path bson out out'

def Ext4SerializeTree (c : TreeCrawl) (node : Inode × InodeStat) (path : List UInt8)
    (bson : BsonInfo) (out out' : Output) : Prop :=
  ∃ depth, SerializeTreeAt c depth node path bson out out'

/-! ## One outcome at most -/

theorem serializeBlocks_unique {o : Options} {v : Volume} {inode : Inode} {first n : ℕ}
    {r r₁ r₂ : Records} (h₁ : SerializeBlocks o v inode first n r r₁)
    (h₂ : SerializeBlocks o v inode first n r r₂) : r₁ = r₂ := by
  induction h₁ with
  | done =>
    cases h₂
    rfl
  | next round _ _ ih =>
    cases h₂ with
    | next round' _ rest' =>
      obtain ⟨-, rfl⟩ := Prod.mk.inj (Loop.Ends.unique round round')
      exact ih rest'

theorem serializeFileSectors_unique {o : Options} {v : Volume} {inode : Inode}
    {bits bits₁ bits₂ : Bitarray} {bson bson₁ bson₂ : BsonInfo}
    (h₁ : Ext4SerializeFileSectors o v bits inode bson bits₁ bson₁)
    (h₂ : Ext4SerializeFileSectors o v bits inode bson bits₂ bson₂) :
    bits₁ = bits₂ ∧ bson₁ = bson₂ := by
  obtain ⟨r, rfl, hr, h₁⟩ := h₁
  obtain ⟨r', rfl, hr', h₂⟩ := h₂
  have heq : r = r' := by
    split at h₁
    · rw [if_pos ‹_›] at h₂
      rw [h₁, h₂]
    · rw [if_neg ‹_›] at h₂
      exact serializeBlocks_unique h₁.2 h₂.2
  subst heq
  exact ⟨rfl, Option.some.inj (hr.symm.trans hr')⟩

theorem SerializeFile.unique {c : TreeCrawl} {inode : Inode} {bson : BsonInfo}
    {out out₁ out₂ : Output} (h₁ : SerializeFile c inode bson out out₁)
    (h₂ : SerializeFile c inode bson out out₂) : out₁ = out₂ := by
  obtain ⟨bits, bson', finished, hs, hf, rfl⟩ := h₁
  obtain ⟨bits', bson'', finished', hs', hf', rfl⟩ := h₂
  obtain ⟨rfl, rfl⟩ := serializeFileSectors_unique hs hs'
  rw [Option.some.inj (hf.symm.trans hf')]

theorem LinkName.unique {c : TreeCrawl} {inode : Inode} {data data' : List UInt8}
    (h : LinkName c inode data) (h' : LinkName c inode data') : data = data' := by
  unfold LinkName at h h'
  split at h
  · rw [if_pos ‹_›] at h'
    rw [h, h']
  · rw [if_neg ‹_›] at h'
    obtain ⟨-, r, ⟨hdr, hh, hr⟩, hdata⟩ := h
    obtain ⟨-, r', ⟨hdr', hh', hr'⟩, hdata'⟩ := h'
    obtain rfl := Option.some.inj (hh.symm.trans hh')
    obtain rfl := hr.unique hr'
    exact Option.some.inj (hdata.symm.trans hdata')

/-- Two recursions that never differ in their outcome. -/
def Recursion.Agree (R R' : Recursion) : Prop :=
  ∀ node path bson out out₁ out₂, R node path bson out out₁ → R' node path bson out out₂ →
    out₁ = out₂

section Unique

variable {c : TreeCrawl} {R R' : Recursion} (hR : R.Agree R')
include hR

theorem DirEntries.unique {path : List UInt8} {sector : ℕ} {buf : Buffer} {position : ℕ}
    {s s₁ s₂ : DirState} (h₁ : DirEntries c R path sector buf position s s₁)
    (h₂ : DirEntries c R' path sector buf position s s₂) : s₁ = s₂ := by
  induction h₁ with
  | done h =>
    cases h₂ with
    | done => rfl
    | deleted h' => exact absurd h (Nat.not_le.mpr h')
    | entry h' => exact absurd h (Nat.not_le.mpr h')
  | deleted h _ inode recLen _ ih =>
    cases h₂ with
    | done h' => exact absurd h (Nat.not_lt.mpr h')
    | deleted _ _ _ recLen' rest' =>
      obtain rfl := Option.some.inj (recLen.symm.trans recLen')
      exact ih rest'
    | entry _ _ inode' used => exact absurd (Option.some.inj (inode'.symm.trans inode)) used
  | entry h _ inode used recLen nameLen _ named dentry read _ descend _ ih =>
    cases h₂ with
    | done h' => exact absurd h (Nat.not_lt.mpr h')
    | deleted _ _ inode' => exact absurd (Option.some.inj (inode.symm.trans inode')) used
    | entry _ _ inode' _ recLen' nameLen' _ named' dentry' read' _ descend' rest' =>
      obtain rfl := Option.some.inj (inode.symm.trans inode')
      obtain rfl := Option.some.inj (recLen.symm.trans recLen')
      obtain rfl := Option.some.inj (nameLen.symm.trans nameLen')
      obtain rfl := Option.some.inj (named.symm.trans named')
      obtain rfl := Option.some.inj (dentry.symm.trans dentry')
      obtain ⟨rfl, rfl⟩ := Prod.mk.inj (Option.some.inj (read.symm.trans read'))
      split at descend
      · rw [if_pos ‹_›] at descend'
        obtain rfl := hR _ _ _ _ _ _ descend descend'
        exact ih rest'
      · rw [if_neg ‹_›] at descend'
        obtain rfl := descend.trans descend'.symm
        exact ih rest'

theorem DirBlocks.unique {inode : Inode} {path : List UInt8} {i n : ℕ} {s s₁ s₂ : DirState}
    (h₁ : DirBlocks c R inode path i n s s₁) (h₂ : DirBlocks c R' inode path i n s s₂) :
    s₁ = s₂ := by
  induction h₁ with
  | done =>
    cases h₂
    rfl
  | next _ read sector entries _ ih =>
    cases h₂ with
    | next _ read' sector' entries' rest' =>
      obtain ⟨hdr, hh, hr⟩ := read
      obtain ⟨hdr', hh', hr'⟩ := read'
      obtain rfl := Option.some.inj (hh.symm.trans hh')
      obtain rfl := hr.unique hr'
      obtain rfl := Loop.Ends.unique sector sector'
      obtain rfl := entries.unique hR entries'
      exact ih rest'

theorem SerializeDirectory.unique {inode : Inode} {path : List UInt8} {bson : BsonInfo}
    {out out₁ out₂ : Output} (h₁ : SerializeDirectory c R inode path bson out out₁)
    (h₂ : SerializeDirectory c R' inode path bson out out₂) : out₁ = out₂ := by
  obtain ⟨s, bson', finished, hb, ha, hf, rfl⟩ := h₁
  obtain ⟨s', bson'', finished', hb', ha', hf', rfl⟩ := h₂
  obtain rfl := hb.unique hR hb'
  obtain rfl := Option.some.inj (ha.symm.trans ha')
  rw [Option.some.inj (hf.symm.trans hf')]

end Unique

theorem serializeTreeAt_agree (c : TreeCrawl) (depth depth' : ℕ) :
    (SerializeTreeAt c depth).Agree (SerializeTreeAt c depth') := by
  induction depth generalizing depth' with
  | zero => exact fun _ _ _ _ _ _ h => h.elim
  | succ depth ih =>
    cases depth' with
    | zero => exact fun _ _ _ _ _ _ _ h' => h'.elim
    | succ depth' =>
      intro node path bson out out₁ out₂ h h'
      rw [SerializeTreeAt] at h h'
      split at h
      · rw [if_pos ‹_›] at h'
        obtain ⟨bson₁, bson₂, data, hs, hl, hb, h⟩ := h
        obtain ⟨bson₁', bson₂', data', hs', hl', hb', h'⟩ := h'
        obtain rfl := Option.some.inj (hs.symm.trans hs')
        obtain rfl := hl.unique hl'
        obtain rfl := Option.some.inj (hb.symm.trans hb')
        exact h.unique h'
      rw [if_neg ‹_›] at h'
      split at h
      · rw [if_pos ‹_›] at h'
        obtain ⟨bson₁, hs, h⟩ := h
        obtain ⟨bson₁', hs', h'⟩ := h'
        obtain rfl := Option.some.inj (hs.symm.trans hs')
        exact h.unique h'
      rw [if_neg ‹_›] at h'
      split at h
      · rw [if_pos ‹_›] at h'
        obtain ⟨bson₁, bits, bson₂, hs, hb, h⟩ := h
        obtain ⟨bson₁', bits', bson₂', hs', hb', h'⟩ := h'
        obtain rfl := Option.some.inj (hs.symm.trans hs')
        obtain ⟨rfl, rfl⟩ := serializeFileSectors_unique hb hb'
        exact h.unique (ih depth') h'
      · rw [if_neg ‹_›] at h'
        exact h.unique (ih depth') h'

/-- A call has one outcome at most. -/
theorem Ext4SerializeTree.unique {c : TreeCrawl} {node : Inode × InodeStat} {path : List UInt8}
    {bson : BsonInfo} {out out₁ out₂ : Output} (h₁ : Ext4SerializeTree c node path bson out out₁)
    (h₂ : Ext4SerializeTree c node path bson out out₂) : out₁ = out₂ := by
  obtain ⟨depth, h₁⟩ := h₁
  obtain ⟨depth', h₂⟩ := h₂
  exact serializeTreeAt_agree c depth depth' node path bson out out₁ out₂ h₁ h₂

end GammaRay.Ext4
