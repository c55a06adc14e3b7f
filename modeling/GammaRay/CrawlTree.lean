import GammaRay.FileRecord
import GammaRay.SerializeTree
import Mathlib.Data.List.Find

set_option autoImplicit false

/-!
# The documents of a directory tree

A directory tree as a file system means it, what it takes for a disk and its caches to hold
one, and the documents that `ext4_serialize_tree` writes for it: one for each node, the nodes
below a directory before the directory.
-/
namespace GammaRay.Ext4
open Bytes Decimal Bson
open KvStore (ascii)
open Loader (keyNamed decKey int32Of int64Of type_noNul inodeSector_noNul inodeNum_noNul
  files_noNul sectors_noNul extents_noNul path_noNul size_noNul)

/-! ## Trees -/

/-- An inode with its number, the inode table it is in, and the extents it holds itself. -/
structure NodeInfo where
  num : ℕ
  table : ℕ
  inode : Inode
  stat : InodeStat
  extents : List Mapping

/-- A name that a directory can give a node. -/
structure EntryName where
  bytes : List UInt8
  noNul : 0 ∉ bytes
  nonempty : bytes ≠ []
  short : bytes.length ≤ 254
  notSelf : bytes ≠ [46]
  notParent : bytes ≠ [46, 46]

inductive Dot where
  | self
  | parent

def Dot.name : Dot → List UInt8
  | .self => [46]
  | .parent => [46, 46]

mutual

/-- A file or a symbolic link, or a directory with its blocks. -/
inductive FsTree where
  | leaf (info : NodeInfo)
  | directory (info : NodeInfo) (blocks : Blocks)

inductive Blocks where
  | nil
  | cons (slots : Slots) (rest : Blocks)

/-- The entries of a block, in their order on disk. -/
inductive Slots where
  | nil
  | deleted (recLen : ℕ) (rest : Slots)
  | dot (num : ℕ) (dot : Dot) (recLen : ℕ) (rest : Slots)
  | child (name : EntryName) (recLen : ℕ) (node : FsTree) (rest : Slots)

end

def FsTree.info : FsTree → NodeInfo
  | .leaf info => info
  | .directory info _ => info

def FsTree.isDirectory : FsTree → Bool
  | .leaf _ => false
  | .directory _ _ => true

def Blocks.length : Blocks → ℕ
  | .nil => 0
  | .cons _ rest => rest.length + 1

mutual

/-- The nodes of a tree with their paths, children before their parents. -/
def FsTree.nodes (extend : List UInt8 → List UInt8 → List UInt8) (path : List UInt8) :
    FsTree → List (List UInt8 × FsTree)
  | .leaf info => [(path, .leaf info)]
  | .directory info blocks => blocks.nodes extend path ++ [(path, .directory info blocks)]

def Blocks.nodes (extend : List UInt8 → List UInt8 → List UInt8) (path : List UInt8) :
    Blocks → List (List UInt8 × FsTree)
  | .nil => []
  | .cons slots rest => slots.nodes extend path ++ rest.nodes extend path

def Slots.nodes (extend : List UInt8 → List UInt8 → List UInt8) (path : List UInt8) :
    Slots → List (List UInt8 × FsTree)
  | .nil => []
  | .deleted _ rest => rest.nodes extend path
  | .dot _ _ _ rest => rest.nodes extend path
  | .child name _ node rest => node.nodes extend (extend path name.bytes) ++ rest.nodes extend path

end

/-- A name behind a path, with a slash between them unless the path is the root. -/
def extendPath (path name : List UInt8) : List UInt8 :=
  if path = [47] then path ++ name else path ++ 47 :: name

/-- The same as the crawler does it. -/
def crawlPath (path name : List UInt8) : List UInt8 := startPath path ++ name

/-- The number and the name of each entry in use. -/
def Slots.files : Slots → List (ℕ × List UInt8)
  | .nil => []
  | .deleted _ rest => rest.files
  | .dot num d _ rest => (num, d.name) :: rest.files
  | .child name _ node rest => (node.info.num, name.bytes) :: rest.files

/-! ## Documents -/

namespace NodeInfo

def node (info : NodeInfo) : Inode × InodeStat := (info.inode, info.stat)

/-- The block on disk of a block of the file. -/
def physical (info : NodeInfo) (b : ℕ) : ℕ :=
  ((info.extents.find? fun m => m.Contains b).map fun m => m.start + (b - m.block)).getD 0

def sector (v : Volume) (info : NodeInfo) (b : ℕ) : ℕ := ext4SectorFromBlock (info.physical b) v

def IsLink (info : NodeInfo) : Prop := info.inode.iMode &&& 0xf000 = 0xa000

instance (info : NodeInfo) : Decidable info.IsLink := inferInstanceAs (Decidable (_ = _))

end NodeInfo

/-- The entries of a directory, each with the sector of its block. -/
def Blocks.files (v : Volume) (info : NodeInfo) : ℕ → Blocks → List (ℕ × ℕ × List UInt8)
  | _, .nil => []
  | i, .cons slots rest =>
    slots.files.map (fun f => (info.sector v i, f)) ++ rest.files v info (i + 1)

def inodeElements (c : TreeCrawl) (num table : ℕ) : List (Bson.Key × Value) :=
  [(keyNamed "type" type_noNul, .string (ascii "file")),
    (keyNamed "inode_sector" inodeSector_noNul, int64Of (c.inodeSector num table)),
    (keyNamed "inode_offset" (by decide), int64Of (c.inodePlace num table % c.blockSize)),
    (keyNamed "inode_num" inodeNum_noNul, int32Of num)]

def statElements (path : List UInt8) (node : Inode × InodeStat) : List (Bson.Key × Value) :=
  [(keyNamed "path" path_noNul, .string path),
    (keyNamed "is_dir" (by decide), .boolean (node.1.iMode &&& 0x4000 = 0x4000)),
    (keyNamed "size" size_noNul, int64Of (ext4FileSize node.1)),
    (keyNamed "mode" (by decide), int64Of node.1.iMode),
    (keyNamed "link_count" (by decide), int64Of node.2.iLinksCount),
    (keyNamed "uid" (by decide), int64Of node.2.iUid),
    (keyNamed "gid" (by decide), int64Of node.2.iGid),
    (keyNamed "atime" (by decide), int64Of node.2.iAtime),
    (keyNamed "mtime" (by decide), int64Of node.2.iMtime),
    (keyNamed "ctime" (by decide), int64Of node.2.iCtime)]

def sectorsElement (v : Volume) (info : NodeInfo) (n : ℕ) : Bson.Key × Value :=
  (keyNamed "sectors" sectors_noNul, .array (.ofElements ((List.range n).map
    fun b => (decKey b, int32Of (info.sector v b)))))

def extentsElement : Bson.Key × Value := (keyNamed "extents" extents_noNul, .array .nil)

def linkElement (info : NodeInfo) : Bson.Key × Value :=
  (keyNamed "link_name" (by decide), .string (info.inode.iBlock.toList.take
    (ext4FileSize info.inode)))

def dentryElement (subtype : UInt8) (f : ℕ × ℕ × List UInt8) : Bson.Key × Value :=
  (decKey f.1, .binary subtype (leBytes 8 f.2.1 ++ f.2.2))

def filesElement (subtype : UInt8) (files : List (ℕ × ℕ × List UInt8)) : Bson.Key × Value :=
  (keyNamed "files" files_noNul, .array (.ofElements (files.map (dentryElement subtype))))

def headElements (c : TreeCrawl) (path : List UInt8) (info : NodeInfo) :
    List (Bson.Key × Value) :=
  inodeElements c info.num info.table ++ statElements path info.node

/-- The fields of the document for a node. -/
def nodeElements (c : TreeCrawl) (path : List UInt8) : FsTree → List (Bson.Key × Value)
  | .leaf info =>
    if info.IsLink then
      headElements c path info ++ [linkElement info] ++
        [sectorsElement c.volume info 0, extentsElement]
    else headElements c path info ++
      [sectorsElement c.volume info (numBlocks c.volume info.inode), extentsElement]
  | .directory info blocks =>
    headElements c path info ++
        [sectorsElement c.volume info (numBlocks c.volume info.inode), extentsElement] ++
      [filesElement (c.subtype path) (blocks.files c.volume info 0)]

def nodeDocument (c : TreeCrawl) (x : List UInt8 × FsTree) : List UInt8 :=
  frame (Document.ofElements (nodeElements c x.1 x.2)).body

/-! ## Trees on a disk -/

/-- The caches hold an inode. -/
structure Cached (c : TreeCrawl) (info : NodeInfo) : Prop where
  used : info.num ≠ 0
  grouped : c.volume.superblock.sInodesPerGroup ≠ 0
  table : c.inodeTable info.num = some info.table
  inode : inodeAt c.icache (c.icacheOffset info.num) = some info.node

/-- The inode holds extents for all its blocks. -/
structure Mapped (v : Volume) (info : NodeInfo) : Prop where
  flag : info.inode.iFlags &&& 0x80000 ≠ 0
  wellFormed : (Tree.leaf info.extents).WellFormed 0 (2 ^ 32 - 1)
  root : HoldsNode (rootBuffer info.inode) (Tree.leaf info.extents)
  dense : ∀ b < numBlocks v info.inode, ∃ m ∈ info.extents, m.Contains b

/-- An entry in use, in front of whatever its record has room for. -/
structure EntryHeld (c : TreeCrawl) (buf : Buffer) (position num recLen : ℕ) (name : List UInt8) :
    Prop where
  inode : field buf position 4 = some num
  used : num ≠ 0
  stride : field buf (position + 4) 2 = some recLen
  len : field buf (position + 6) 1 = some name.length
  named : nameAt buf position name.length = some name
  room : 8 + name.length ≤ recLen
  inside : position + recLen ≤ c.blockSize

/-- A block holds these entries, from a position on and up to its end. -/
def Slots.Held (c : TreeCrawl) (buf : Buffer) : ℕ → Slots → Prop
  | position, .nil => position = c.blockSize
  | position, .deleted recLen rest =>
    field buf position 4 = some 0 ∧ field buf (position + 4) 2 = some recLen ∧ 8 ≤ recLen ∧
      position + recLen ≤ c.blockSize ∧ rest.Held c buf (position + recLen)
  | position, .dot num d recLen rest =>
    EntryHeld c buf position num recLen d.name ∧ rest.Held c buf (position + recLen)
  | position, .child name recLen node rest =>
    EntryHeld c buf position node.info.num recLen name.bytes ∧
      rest.Held c buf (position + recLen)

def Blocks.Held (c : TreeCrawl) (info : NodeInfo) : ℕ → Blocks → Prop
  | _, .nil => True
  | i, .cons slots rest =>
    (∀ buf, slots.Held c (ext4ReadBlock c.volume (info.physical i) buf) 0) ∧
      rest.Held c info (i + 1)

mutual

/-- A disk and its caches hold a tree. -/
def FsTree.Stored (c : TreeCrawl) : FsTree → Prop
  | .leaf info => Cached c info ∧
    (info.IsLink ∧ ext4FileSize info.inode < 60 ∨
      info.inode.iMode &&& 0xf000 = 0x8000 ∧ Mapped c.volume info)
  | .directory info blocks => Cached c info ∧ info.inode.iMode &&& 0xf000 = 0x4000 ∧
    Mapped c.volume info ∧ ext4FileSize info.inode = blocks.length * c.blockSize ∧
    blocks.Held c info 0 ∧ blocks.Stored c

def Blocks.Stored (c : TreeCrawl) : Blocks → Prop
  | .nil => True
  | .cons slots rest => slots.Stored c ∧ rest.Stored c

def Slots.Stored (c : TreeCrawl) : Slots → Prop
  | .nil => True
  | .deleted _ rest => rest.Stored c
  | .dot num _ _ rest => (∃ info : NodeInfo, info.num = num ∧ Cached c info) ∧ rest.Stored c
  | .child _ _ node rest => node.Stored c ∧ rest.Stored c

end

/-- The path of a node, with the entries of a directory behind it, has room in its buffer, and
so has its document. -/
structure Fits (c : TreeCrawl) (x : List UInt8 × FsTree) : Prop where
  path : x.1.length < 8190
  entries : x.2.isDirectory = true → x.1.length < 8189
  document : (nodeDocument c x).length ≤ maxSize

end GammaRay.Ext4
