import GammaRay.CrawlTree

set_option autoImplicit false

/-!
# What a crawl writes

Each part of a tree that a disk holds is crawled to its documents, by induction over the tree.
-/
namespace GammaRay.Ext4
open Bytes Decimal Bson
open KvStore (ascii)
open Loader (keyNamed decKey int32Of int64Of Field)

/-! ## Elements -/

def elementBytes (e : Bson.Key × Value) : List UInt8 :=
  [e.2.type.code] ++ ((e.1.bytes ++ [0]) ++ e.2.payload)

theorem body_cons (e : Bson.Key × Value) (es : List (Bson.Key × Value)) :
    (Document.ofElements (e :: es)).body = elementBytes e ++ (Document.ofElements es).body := by
  obtain ⟨key, value⟩ := e
  rw [Document.ofElements, Document.body, elementBytes]
  simp only [List.append_assoc]

theorem body_singleton (e : Bson.Key × Value) :
    (Document.ofElements [e]).body = elementBytes e := by
  rw [body_cons]
  exact List.append_nil _

/-- A call of `bson_serialize` that appends an element. -/
def Encodes (h : Heap) (kv : BsonKv) (e : Bson.Key × Value) : Prop :=
  Appends (fun b => bsonSerialize h b kv) (elementBytes e)

section Encodes

variable (h : Heap)

theorem Encodes.of_payload {kv : BsonKv} {e : Bson.Key × Value} (hk : kv.key = e.1.bytes)
    (ht : kv.type = e.2.type) (hp : Appends (fun b => serializePayload h b kv) e.2.payload) :
    Encodes h kv e := by
  have happ := serializeElement_appends h kv (by rw [hk]; exact e.1.noNul) hp
  rw [ht, hk] at happ
  exact happ

theorem stringKv_encodes (key : String) (hk : 0 ∉ ascii key) (text : List UInt8) :
    Encodes h (stringKv key text) (keyNamed key hk, .string text) := by
  have hp := serializeString_appends h text []
  rw [List.append_nil] at hp
  exact .of_payload h rfl rfl hp

theorem booleanKv_encodes (key : String) (hk : 0 ∉ ascii key) (b : Bool) :
    Encodes h (booleanKv key b) (keyNamed key hk, .boolean b) := by
  refine .of_payload h rfl rfl ?_
  cases b with
  | false => exact serializeBoolean_appends h 0
  | true => exact serializeBoolean_appends h 1

theorem int32Kv_encodes (key : String) (hk : 0 ∉ ascii key) (n : ℕ) :
    Encodes h (int32Kv key n) (keyNamed key hk, int32Of n) :=
  .of_payload h rfl rfl (serializeFixed_appends h 4 (leBytes 4 n) (leBytes_length 4 n))

theorem int64Kv_encodes (key : String) (hk : 0 ∉ ascii key) (n : ℕ) :
    Encodes h (int64Kv key n) (keyNamed key hk, int64Of n) :=
  .of_payload h rfl rfl (serializeFixed_appends h 8 (leBytes 8 n) (leBytes_length 8 n))

theorem serializeAll_appends {kvs : List BsonKv} {es : List (Bson.Key × Value)}
    (hes : List.Forall₂ (Encodes h) kvs es) :
    Appends (fun b => serializeAll h b kvs) (Document.ofElements es).body := by
  induction hes with
  | nil => exact some_appends
  | cons he _ ih =>
    rw [body_cons]
    exact he.bind ih

end Encodes

theorem inode_encodes (c : TreeCrawl) (num table : ℕ) :
    List.Forall₂ (Encodes c.heap) (inodeKvs c num table) (inodeElements c num table) :=
  .cons (stringKv_encodes _ _ _ _) <| .cons (int64Kv_encodes _ _ _ _) <| .cons (int64Kv_encodes _ _ _ _) <|
    .cons (int32Kv_encodes _ _ _ _) .nil

theorem stat_encodes (h : Heap) (path : List UInt8) (node : Inode × InodeStat) :
    List.Forall₂ (Encodes h) (statKvs path node) (statElements path node) :=
  .cons (stringKv_encodes _ _ _ _) <| .cons (booleanKv_encodes _ _ _ _) <| .cons (int64Kv_encodes _ _ _ _) <|
    .cons (int64Kv_encodes _ _ _ _) <| .cons (int64Kv_encodes _ _ _ _) <| .cons (int64Kv_encodes _ _ _ _) <|
    .cons (int64Kv_encodes _ _ _ _) <| .cons (int64Kv_encodes _ _ _ _) <| .cons (int64Kv_encodes _ _ _ _) <|
    .cons (int64Kv_encodes _ _ _ _) .nil

theorem linkKv_encodes (h : Heap) {info : NodeInfo} (hsize : ext4FileSize info.inode < 60) :
    Encodes h (linkKv info.inode info.inode.iBlock.toList) (linkElement info) := by
  have hlen : (info.inode.iBlock.toList.take (ext4FileSize info.inode)).length =
      ext4FileSize info.inode := by
    rw [List.length_take, Vector.length_toList]
    omega
  have hp := serializeString_appends h (info.inode.iBlock.toList.take (ext4FileSize info.inode))
    (info.inode.iBlock.toList.drop (ext4FileSize info.inode))
  rw [List.take_append_drop, hlen, ← i32_of_range (n := ext4FileSize info.inode) (by omega)
    (by omega)] at hp
  exact .of_payload h rfl rfl hp

theorem dentryKv_encodes (c : TreeCrawl) (path : List UInt8) (sector num : ℕ)
    (name : List UInt8) :
    Encodes c.heap (dentryKv c path sector num name)
      (dentryElement (c.subtype path) (sector, num, name)) := by
  have hp := serializeBinary_appends c.heap (c.subtype path) (leBytes 8 num ++ name)
  have hkv : dentryKv c path sector num name = ⟨.binary, c.subtype path,
      (leBytes 8 num ++ name).length, dec sector, .bytes (leBytes 8 num ++ name)⟩ := by
    rw [dentryKv, List.length_append, leBytes_length, Nat.cast_add]
    rfl
  rw [hkv]
  exact .of_payload c.heap rfl rfl hp

theorem Cached.read {c : TreeCrawl} {info : NodeInfo} (hc : Cached c info) :
    ∃ bson, ext4ReadInodeSerialized c info.num (bsonInit c.heap) = some (info.node, bson) ∧
      Holds bson (Document.ofElements (inodeElements c info.num info.table)).body := by
  have hlen : (Document.ofElements (inodeElements c info.num info.table)).body.length ≤ maxSize := by
    simp only [inodeElements, body_cons, List.length_append, elementBytes, Value.payload,
      keyNamed, stringBytes_length, int64Of, int32Of, Vector.length_toList, List.length_singleton]
    change _ + (_ + (_ + (_ + 0))) ≤ _
    decide
  obtain ⟨bson, hs, hb⟩ := serializeAll_appends c.heap (inode_encodes c info.num info.table)
    (bsonInit c.heap) [] (bsonInit_holds c.heap) (by rw [List.length_nil]; omega)
  refine ⟨bson, ?_, hb⟩
  rw [ext4ReadInodeSerialized, if_neg hc.grouped, Loop.bind_of_some hc.table,
    Loop.bind_of_some hc.inode, Loop.bind_of_some hs]

/-! ## Blocks that the inode maps -/

section Mapped

variable {v : Volume} {info : NodeInfo}

theorem Mapped.blocks (hm : Mapped v info) : numBlocks v info.inode < 2 ^ 32 := by
  by_contra hge
  obtain ⟨m, hmem, hb⟩ := hm.dense (2 ^ 32 - 1) (by omega)
  have hend := (hm.wellFormed.2 m hmem).2.1
  have hlt := hb.2
  omega

theorem Mapped.find (hm : Mapped v info) {b : ℕ} (hb : b < numBlocks v info.inode) :
    ∃ m, info.extents.find? (·.takes b) = some m ∧ info.physical b = m.start + (b - m.block) := by
  have hsame : info.extents.find? (·.takes b) = info.extents.find? fun m => m.Contains b := by
    refine List.find?_congr fun m hmem => ?_
    have hend := (hm.wellFormed.2 m hmem).2.1
    rw [Bool.eq_iff_iff, Mapping.takes_iff (by omega), decide_eq_true_eq]
    exact and_iff_left (by omega)
  obtain ⟨m, hmem, hcontains⟩ := hm.dense b hb
  cases hf : info.extents.find? fun m => m.Contains b with
  | none => exact absurd (decide_eq_true hcontains) (List.find?_eq_none.mp hf m hmem)
  | some m' =>
    refine ⟨m', hsame.trans hf, ?_⟩
    rw [NodeInfo.physical, hf]
    rfl

theorem Mapped.walk (hm : Mapped v info) {b : ℕ} (hb : b < numBlocks v info.inode) :
    ∃ e, leafWalk info.inode info.extents b = (some e, rootBuffer info.inode) ∧
      e.physical b = info.physical b := by
  obtain ⟨m, hf, hp⟩ := hm.find hb
  refine ⟨m.extent, ?_, ?_⟩
  · rw [leafWalk, hf]
    rfl
  · rw [hp, physical_extent]

theorem Mapped.ends (hm : Mapped v info) (b : ℕ) :
    Loop.Ends (walkStep v b) (rootState info.inode) (leafWalk info.inode info.extents b) := by
  refine walk_leaf hm.root.header (Nat.zero_add _).symm fun j m hmem => ?_
  rw [Nat.zero_add]
  exact hm.root.entries j m hmem

/-- Both walkers of a directory find a block where it lies. -/
theorem Mapped.read (hm : Mapped v info) {b : ℕ} (hb : b < numBlocks v info.inode) :
    Ext4ReadExtentBlock v b info.inode (.block (info.physical b)
        (ext4ReadBlock v (info.physical b) (rootBuffer info.inode))) ∧
      Ext4SectorExtentBlock v b info.inode (info.sector v b) := by
  obtain ⟨e, he, hp⟩ := hm.walk hb
  have hends := hm.ends b
  rw [he] at hends
  constructor
  · refine readExtentBlock_iff.mpr ⟨_, ?_, hends⟩
    rw [readResult, Option.elim_some, hp]
  · refine sector_ends_iff.mpr ⟨_, ?_, hends⟩
    rw [sectorResult, Option.elim_some, hp, NodeInfo.sector]

theorem Mapped.bytes (hm : Mapped v info) :
    blockBytes v (leafWalk info.inode info.extents) 0 (numBlocks v info.inode) =
      (Document.ofElements ((List.range (numBlocks v info.inode)).map
        fun b => (decKey b, int32Of (info.sector v b)))).body := by
  have hbytes := sectors_bytes
    ((List.range (numBlocks v info.inode)).map fun b => (b, info.sector v b))
  rw [List.flatMap_map, List.map_map] at hbytes
  refine Eq.trans ?_ hbytes
  rw [blockBytes, ← List.range_eq_range']
  refine List.flatMap_congr fun b hb => ?_
  obtain ⟨e, he, hp⟩ := hm.walk (List.mem_range.mp hb)
  rw [he, Option.elim_some, hp, NodeInfo.sector]

end Mapped

/-! ## The sectors of a node -/

theorem arrays_body (v : Volume) (info : NodeInfo) (n : ℕ) (es : List (Bson.Key × Value)) :
    (Document.ofElements (es ++ [sectorsElement v info n, extentsElement])).body =
      (Document.ofElements es).body ++
        ([0x04] ++ ((ascii "sectors" ++ [0]) ++ frame (Document.ofElements ((List.range n).map
          fun b => (decKey b, int32Of (info.sector v b)))).body)) ++
        ([0x04] ++ ((ascii "extents" ++ [0]) ++ frame [])) := by
  rw [Document.body_append, body_cons, body_singleton, ← List.append_assoc]
  rfl

section Sectors

variable {c : TreeCrawl} {info : NodeInfo} {bson : BsonInfo} {es : List (Bson.Key × Value)}

theorem Mapped.serialize (hm : Mapped c.volume info)
    (hmode : info.inode.iMode &&& 0xa000 ≠ 0xa000) (bits : Bitarray)
    (hb : Holds bson (Document.ofElements es).body)
    (hroom : (Document.ofElements (es ++ [sectorsElement c.volume info
      (numBlocks c.volume info.inode), extentsElement])).body.length ≤ maxSize) :
    ∃ bson', Ext4SerializeFileSectors c.options c.volume bits info.inode bson bits bson' ∧
      Holds bson' (Document.ofElements (es ++ [sectorsElement c.volume info
        (numBlocks c.volume info.inode), extentsElement])).body := by
  rw [arrays_body, ← hm.bytes] at hroom ⊢
  exact serializeFileSectors_total bits rfl rfl hm.root hb hmode hm.flag hm.blocks.le hroom

/-- A symbolic link has no sectors. -/
theorem link_serialize (hmode : info.inode.iMode &&& 0xa000 = 0xa000) (bits : Bitarray)
    (hb : Holds bson (Document.ofElements es).body)
    (hroom : (Document.ofElements (es ++ [sectorsElement c.volume info 0,
      extentsElement])).body.length ≤ maxSize) :
    ∃ bson', Ext4SerializeFileSectors c.options c.volume bits info.inode bson bits bson' ∧
      Holds bson' (Document.ofElements (es ++ [sectorsElement c.volume info 0,
        extentsElement])).body := by
  have hnil : (Document.ofElements ((List.range 0).map fun b =>
      (decKey b, int32Of (info.sector c.volume b)))).body = [] := rfl
  rw [arrays_body, hnil] at hroom ⊢
  obtain ⟨s₁, hs₁, hh₁⟩ := serializeArray_holds c.heap "sectors" (by decide)
    (bsonInit_holds c.heap) hb (by rw [List.length_append] at hroom; omega)
  obtain ⟨s₂, hs₂, hh₂⟩ := serializeArray_holds c.heap "extents" (by decide)
    (bsonInit_holds c.heap) hh₁ hroom
  refine ⟨s₂, ⟨.init c.heap bits, rfl, ?_, ?_⟩, hh₂⟩
  · exact serializeArrays_eq rfl rfl hs₁ hs₂
  · rw [if_pos hmode]
    rfl

/-- A document that is finished and written. -/
theorem finish_document (hb : Holds bson (Document.ofElements es).body)
    (hroom : (frame (Document.ofElements es).body).length ≤ maxSize) (out : Output) :
    ∃ finished, bsonFinalize c.heap bson = some finished ∧
      out.write finished = ⟨out.bits, out.written ++ [frame (Document.ofElements es).body]⟩ := by
  rw [frame_length] at hroom
  obtain ⟨finished, hf, hfin⟩ := bsonFinalize_finished c.heap hb hroom
  refine ⟨finished, hf, ?_⟩
  rw [Output.write, bsonWritef, List.nil_append, hfin.position, hfin.contents]

theorem serializeFile_runs {arrays : List (Bson.Key × Value)} {bits : Bitarray}
    (hs : ∃ bson', Ext4SerializeFileSectors c.options c.volume bits info.inode bson bits bson' ∧
      Holds bson' (Document.ofElements arrays).body)
    (hroom : (frame (Document.ofElements arrays).body).length ≤ maxSize)
    (written : List (List UInt8)) :
    SerializeFile c info.inode bson ⟨bits, written⟩
      ⟨bits, written ++ [frame (Document.ofElements arrays).body]⟩ := by
  obtain ⟨bson', hs, hb⟩ := hs
  obtain ⟨finished, hf, hw⟩ := finish_document (c := c) hb hroom ⟨bits, written⟩
  exact ⟨bits, bson', finished, hs, hf, hw.symm⟩

end Sectors

/-! ## Entries of a directory -/

/-- A part of the loop over the entries that appends elements to the dentries and writes
documents. -/
def Extends (es : List (Bson.Key × Value)) (docs : List (List UInt8))
    (R : DirState → DirState → Prop) : Prop :=
  ∀ (dentries : BsonInfo) (w : List UInt8) (bits : Bitarray) (written : List (List UInt8)),
    Holds dentries w → (w ++ (Document.ofElements es).body).length ≤ maxSize →
    ∃ dentries', R ⟨dentries, ⟨bits, written⟩⟩ ⟨dentries', ⟨bits, written ++ docs⟩⟩ ∧
      Holds dentries' (w ++ (Document.ofElements es).body)

theorem Extends.skip {R : DirState → DirState → Prop} (hR : ∀ s, R s s) : Extends [] [] R := by
  intro dentries w bits written hw _
  refine ⟨dentries, ?_, ?_⟩
  · rw [List.append_nil]
    exact hR _
  · rw [Document.ofElements, Document.body, List.append_nil]
    exact hw

theorem Extends.comp {es₁ es₂ : List (Bson.Key × Value)} {docs₁ docs₂ : List (List UInt8)}
    {R₁ R₂ R : DirState → DirState → Prop} (h₁ : Extends es₁ docs₁ R₁) (h₂ : Extends es₂ docs₂ R₂)
    (hR : ∀ s s₁ s', R₁ s s₁ → R₂ s₁ s' → R s s') : Extends (es₁ ++ es₂) (docs₁ ++ docs₂) R := by
  intro dentries w bits written hw hroom
  rw [Document.body_append, ← List.append_assoc] at hroom
  obtain ⟨d₁, hr₁, hd₁⟩ := h₁ dentries w bits written hw
    (by rw [List.length_append] at hroom; omega)
  obtain ⟨d₂, hr₂, hd₂⟩ := h₂ d₁ _ bits (written ++ docs₁) hd₁ hroom
  rw [List.append_assoc] at hr₂ hd₂
  rw [Document.body_append]
  exact ⟨d₂, hR _ _ _ hr₁ hr₂, hd₂⟩

theorem Extends.mono {es : List (Bson.Key × Value)} {docs : List (List UInt8)}
    {R R' : DirState → DirState → Prop} (h : Extends es docs R) (hR : ∀ s s', R s s' → R' s s') :
    Extends es docs R' := by
  intro dentries w bits written hw hroom
  obtain ⟨d, hr, hd⟩ := h dentries w bits written hw hroom
  exact ⟨d, hR _ _ hr, hd⟩

section Entries

variable {c : TreeCrawl} {path : List UInt8} {sector : ℕ} {buf : Buffer} {position : ℕ}

theorem startPath_length (path : List UInt8) : (startPath path).length ≤ path.length + 1 := by
  rw [startPath]
  split
  · rw [List.length_append, List.length_singleton]
  · exact Nat.le_succ _

theorem takeWhile_of_noNul {name : List UInt8} (h : 0 ∉ name) :
    name.takeWhile (· ≠ 0) = name :=
  List.takeWhile_eq_self_iff.mpr fun _ hx => decide_eq_true fun h0 => h (h0 ▸ hx)

/-- An entry in use, for a call that writes `docs` for the node it names. -/
theorem entry_extends {recurse : Recursion} {num recLen : ℕ} {name : List UInt8} {info : NodeInfo}
    {es : List (Bson.Key × Value)} {docs docs' : List (List UInt8)}
    (held : EntryHeld c buf position num recLen name) (noNul : 0 ∉ name)
    (short : name.length < 255) (cached : Cached c info) (hnum : info.num = num)
    (start : (startPath path).length < pathSize)
    (fits : (startPath path ++ name).length < pathSize)
    (descend : ∀ bson bits written,
      Holds bson (Document.ofElements (inodeElements c info.num info.table)).body →
      if name ≠ [46] ∧ name ≠ [46, 46] then
        recurse info.node (startPath path ++ name) bson ⟨bits, written⟩ ⟨bits, written ++ docs⟩
      else docs = [])
    (rest : Extends es docs' (DirEntries c recurse path sector buf (position + recLen))) :
    Extends (dentryElement (c.subtype path) (sector, num, name) :: es) (docs ++ docs')
      (DirEntries c recurse path sector buf position) := by
  obtain ⟨bson, hread, hb⟩ := cached.read
  rw [hnum] at hread
  have hname := takeWhile_of_noNul noNul
  have hpos : position < c.blockSize := by
    have hroom := held.room
    have hin := held.inside
    omega
  have hfirst : Extends [dentryElement (c.subtype path) (sector, num, name)] docs
      (fun s s₁ => bsonSerialize c.heap s.dentries (dentryKv c path sector num name) =
          some s₁.dentries ∧
        if name ≠ [46] ∧ name ≠ [46, 46] then
          recurse info.node (startPath path ++ name) bson s.out s₁.out
        else s₁.out = s.out) := by
    intro dentries w bits written hw hroom
    rw [body_singleton] at hroom ⊢
    obtain ⟨d, hd, hh⟩ := dentryKv_encodes c path sector num name dentries w hw
      (by rw [List.length_append] at hroom; exact hroom)
    refine ⟨d, ⟨hd, ?_⟩, hh⟩
    have hcall := descend bson bits written hb
    split at hcall
    · rw [if_pos ‹_›]
      exact hcall
    · rw [if_neg ‹_›, hcall, List.append_nil]
  refine hfirst.comp rest fun s s₁ s' hstep hrest => ?_
  refine .entry hpos start held.inode held.used held.stride held.len short held.named hstep.1
    hread ?_ ?_ hrest
  · rw [hname]
    exact fits
  · rw [hname]
    exact hstep.2

end Entries

/-! ## Trees -/

section Runs

variable (c : TreeCrawl)

/-- Deep enough calls write the documents of the tree. -/
def FsTree.Runs (t : FsTree) : Prop :=
  ∀ path, (∀ x ∈ t.nodes crawlPath path, Fits c x) → ∃ N, ∀ depth ≥ N, ∀ bson bits written,
    Holds bson (Document.ofElements (inodeElements c t.info.num t.info.table)).body →
    SerializeTreeAt c depth t.info.node path bson ⟨bits, written⟩
      ⟨bits, written ++ (t.nodes crawlPath path).map (nodeDocument c)⟩

def Slots.Runs (slots : Slots) : Prop :=
  ∀ path, path.length < 8189 → (∀ x ∈ slots.nodes crawlPath path, Fits c x) →
    ∃ N, ∀ depth ≥ N, ∀ sector buf position, slots.Held c buf position →
      Extends (slots.files.map fun f => dentryElement (c.subtype path) (sector, f))
        ((slots.nodes crawlPath path).map (nodeDocument c))
        (DirEntries c (SerializeTreeAt c depth) path sector buf position)

def Blocks.Runs (blocks : Blocks) : Prop :=
  ∀ path, path.length < 8189 → (∀ x ∈ blocks.nodes crawlPath path, Fits c x) →
    ∃ N, ∀ depth ≥ N, ∀ info i, Mapped c.volume info → blocks.Held c info i →
      i + blocks.length ≤ numBlocks c.volume info.inode →
      Extends ((blocks.files c.volume info i).map (dentryElement (c.subtype path)))
        ((blocks.nodes crawlPath path).map (nodeDocument c))
        (DirBlocks c (SerializeTreeAt c depth) info.inode path i blocks.length)

variable {c}

theorem Slots.runs_nil : Slots.nil.Runs c := by
  intro path _ _
  refine ⟨0, fun depth _ sector buf position hheld => ?_⟩
  exact .skip fun s => .done (Nat.le_of_eq hheld.symm)

theorem Slots.runs_deleted {recLen : ℕ} {rest : Slots} (hrest : rest.Runs c) :
    (Slots.deleted recLen rest).Runs c := by
  intro path hpath hfits
  have hstart := startPath_length path
  obtain ⟨N, hN⟩ := hrest path hpath hfits
  refine ⟨N, fun depth hd sector buf position hheld => ?_⟩
  obtain ⟨hinode, hstride, hlen, hinside, hheld⟩ := hheld
  refine (hN depth hd sector buf _ hheld).mono fun s s' hr => ?_
  exact .deleted (by omega) (by rw [pathSize]; omega) hinode hstride hr

theorem Slots.runs_dot {num recLen : ℕ} {d : Dot} {rest : Slots} {info : NodeInfo}
    (hnum : info.num = num) (hc : Cached c info) (hrest : rest.Runs c) :
    (Slots.dot num d recLen rest).Runs c := by
  intro path hpath hfits
  have hstart := startPath_length path
  obtain ⟨N, hN⟩ := hrest path hpath hfits
  refine ⟨N, fun depth hd sector buf position hheld => ?_⟩
  obtain ⟨hheld, hafter⟩ := hheld
  have hlen : d.name.length ≤ 2 := by cases d <;> decide
  have hdot : ¬ (d.name ≠ [46] ∧ d.name ≠ [46, 46]) := by
    cases d with
    | self => exact fun h => h.1 rfl
    | parent => exact fun h => h.2 rfl
  refine entry_extends hheld (by cases d <;> decide) (by omega) hc hnum
    (by rw [pathSize]; omega) (by rw [List.length_append, pathSize]; omega)
    (fun bson bits written _ => (if_neg hdot).mpr rfl) (hN depth hd sector buf _ hafter)

theorem FsTree.mem_nodes (extend : List UInt8 → List UInt8 → List UInt8) (path : List UInt8)
    (t : FsTree) : (path, t) ∈ t.nodes extend path := by
  cases t with
  | leaf info => exact List.mem_singleton_self _
  | directory info blocks => exact List.mem_append_right _ (List.mem_singleton_self _)

theorem FsTree.Stored.cached {t : FsTree} (h : t.Stored c) : Cached c t.info := by
  cases t with
  | leaf info => exact h.1
  | directory info blocks => exact h.1

theorem Slots.runs_child {name : EntryName} {recLen : ℕ} {node : FsTree} {rest : Slots}
    (hc : Cached c node.info) (hnode : node.Runs c) (hrest : rest.Runs c) :
    (Slots.child name recLen node rest).Runs c := by
  intro path hpath hfits
  have hstart := startPath_length path
  obtain ⟨N, hN⟩ := hnode (crawlPath path name.bytes) fun x hx =>
    hfits x (List.mem_append_left _ hx)
  obtain ⟨N', hN'⟩ := hrest path hpath fun x hx => hfits x (List.mem_append_right _ hx)
  have hfit := (hfits _ (List.mem_append_left _ (node.mem_nodes _ _))).path
  refine ⟨max N N', fun depth hd sector buf position hheld => ?_⟩
  obtain ⟨hheld, hafter⟩ := hheld
  rw [Slots.nodes, List.map_append]
  refine entry_extends hheld name.noNul (Nat.lt_succ_of_le name.short) hc rfl
    (by rw [pathSize]; omega) (hfit.trans (by decide)) ?_
    (hN' depth (le_of_max_le_right hd) sector buf _ hafter)
  intro bson bits written hb
  rw [if_pos ⟨name.notSelf, name.notParent⟩]
  exact hN depth (le_of_max_le_left hd) bson bits written hb

theorem Blocks.runs_nil : Blocks.nil.Runs c := by
  intro path _ _
  exact ⟨0, fun depth _ info i _ _ _ => .skip fun s => .done⟩

theorem Blocks.runs_cons {slots : Slots} {rest : Blocks} (hslots : slots.Runs c)
    (hrest : rest.Runs c) : (Blocks.cons slots rest).Runs c := by
  intro path hpath hfits
  obtain ⟨N, hN⟩ := hslots path hpath fun x hx => hfits x (List.mem_append_left _ hx)
  obtain ⟨N', hN'⟩ := hrest path hpath fun x hx => hfits x (List.mem_append_right _ hx)
  refine ⟨max N N', fun depth hd info i hm hheld hle => ?_⟩
  obtain ⟨hheld, hafter⟩ := hheld
  rw [Blocks.length] at hle
  have hblocks := hm.blocks
  have hi : i % 2 ^ 32 = i := Nat.mod_eq_of_lt (by omega)
  obtain ⟨hread, hplace⟩ := hm.read (b := i) (by omega)
  rw [Blocks.nodes, List.map_append, Blocks.files, List.map_append, List.map_map]
  refine (hN depth (le_of_max_le_left hd) (info.sector c.volume i) _ 0
    (hheld (rootBuffer info.inode))).comp
    (hN' depth (le_of_max_le_right hd) info (i + 1) hm hafter (by omega)) ?_
  intro s s₁ s' hentries hblocks
  refine .next (r := .block (info.physical i) _) hm.flag ?_ ?_ hentries hblocks
  · rw [hi]
    exact hread
  · rw [hi]
    exact hplace

theorem body_le_append (es es' : List (Bson.Key × Value)) :
    (Document.ofElements es).body.length ≤ (Document.ofElements (es ++ es')).body.length := by
  rw [Document.body_append, List.length_append]
  exact Nat.le_add_right _ _

theorem head_serialize {info : NodeInfo} {path : List UInt8} {bson : BsonInfo}
    (hb : Holds bson (Document.ofElements (inodeElements c info.num info.table)).body)
    (hroom : (Document.ofElements (headElements c path info)).body.length ≤ maxSize) :
    ∃ bson', serializeAll c.heap bson (statKvs path info.node) = some bson' ∧
      Holds bson' (Document.ofElements (headElements c path info)).body := by
  rw [headElements, Document.body_append] at hroom ⊢
  exact serializeAll_appends c.heap (stat_encodes c.heap path info.node) bson _ hb
    (by rw [List.length_append] at hroom; exact hroom)

theorem Fits.room {path : List UInt8} {t : FsTree} (h : Fits c (path, t))
    {es es' : List (Bson.Key × Value)} (hes : nodeElements c path t = es ++ es') :
    (Document.ofElements es).body.length ≤ maxSize := by
  have hdoc := h.document
  rw [nodeDocument, hes, frame_length] at hdoc
  have hle := body_le_append es es'
  omega

theorem Fits.room_all {path : List UInt8} {t : FsTree} (h : Fits c (path, t))
    {es : List (Bson.Key × Value)} (hes : nodeElements c path t = es) :
    (Document.ofElements es).body.length ≤ maxSize :=
  h.room (hes.trans (List.append_nil es).symm)

theorem FsTree.runs_link {info : NodeInfo} (hlink : info.IsLink)
    (hsize : ext4FileSize info.inode < 60) : (FsTree.leaf info).Runs c := by
  intro path hfits
  have hfit := hfits _ (List.mem_singleton_self _)
  have hes : nodeElements c path (.leaf info) = headElements c path info ++ [linkElement info] ++
      [sectorsElement c.volume info 0, extentsElement] := if_pos hlink
  have hmode : info.inode.iMode &&& 0xa000 = 0xa000 := mode_and hlink rfl
  refine ⟨1, fun depth hd bson bits written hb => ?_⟩
  obtain ⟨d, rfl⟩ := Nat.exists_eq_add_of_le' hd
  obtain ⟨bson₁, hs₁, hh₁⟩ := head_serialize hb (hfit.room (hes.trans (List.append_assoc ..)))
  obtain ⟨bson₂, hs₂, hh₂⟩ := linkKv_encodes c.heap hsize bson₁ _ hh₁ (by
    have hroom := hfit.room hes
    rw [Document.body_append, body_singleton, List.length_append] at hroom
    exact hroom)
  rw [← body_singleton, ← Document.body_append] at hh₂
  have hroom := hfit.document
  rw [nodeDocument, hes] at hroom
  have hfile := serializeFile_runs (link_serialize hmode bits hh₂ (hfit.room_all hes)) hroom
    written
  rw [SerializeTreeAt]
  refine (if_pos hmode).mpr ⟨bson₁, bson₂, info.inode.iBlock.toList, hs₁, ?_, hs₂, ?_⟩
  · exact (if_pos hsize).mpr rfl
  · rw [FsTree.nodes, List.map_singleton, nodeDocument, hes]
    exact hfile

theorem FsTree.runs_file {info : NodeInfo} (hfile : info.inode.iMode &&& 0xf000 = 0x8000)
    (hm : Mapped c.volume info) : (FsTree.leaf info).Runs c := by
  intro path hfits
  have hfit := hfits _ (List.mem_singleton_self _)
  have hes : nodeElements c path (.leaf info) = headElements c path info ++
      [sectorsElement c.volume info (numBlocks c.volume info.inode), extentsElement] :=
    if_neg fun hlink => absurd (hlink.symm.trans hfile) (by decide)
  have hmode : ¬info.inode.iMode &&& 0xa000 = 0xa000 := by
    rw [mode_and hfile rfl]
    decide
  refine ⟨1, fun depth hd bson bits written hb => ?_⟩
  obtain ⟨d, rfl⟩ := Nat.exists_eq_add_of_le' hd
  obtain ⟨bson₁, hs₁, hh₁⟩ := head_serialize hb (hfit.room hes)
  have hroom := hfit.document
  rw [nodeDocument, hes] at hroom
  have hruns := serializeFile_runs (hm.serialize hmode bits hh₁ (hfit.room_all hes)) hroom
    written
  rw [SerializeTreeAt]
  refine (if_neg hmode).mpr ((if_pos (mode_and hfile rfl)).mpr ⟨bson₁, hs₁, ?_⟩)
  rw [FsTree.nodes, List.map_singleton, nodeDocument, hes]
  exact hruns

theorem numBlocks_of_mul {v : Volume} {inode : Inode} {n : ℕ}
    (hpos : 0 < ext4BlockSize v.superblock)
    (hsize : ext4FileSize inode = n * ext4BlockSize v.superblock) : numBlocks v inode = n := by
  rw [numBlocks, hsize, Nat.mul_mod_left, Nat.mul_div_cancel n hpos]
  by_cases h0 : n * ext4BlockSize v.superblock = 0
  · rw [if_pos h0]
    exact ((Nat.mul_eq_zero.mp h0).resolve_right hpos.ne').symm
  · rw [if_neg h0, if_neg (fun h => h rfl)]

theorem FsTree.runs_directory {info : NodeInfo} {blocks : Blocks}
    (hdir : info.inode.iMode &&& 0xf000 = 0x4000) (hm : Mapped c.volume info)
    (hblocks : numBlocks c.volume info.inode = blocks.length) (hheld : blocks.Held c info 0)
    (hruns : blocks.Runs c) : (FsTree.directory info blocks).Runs c := by
  intro path hfits
  have hfit := hfits _ (FsTree.mem_nodes crawlPath path (.directory info blocks))
  have hes : nodeElements c path (.directory info blocks) = headElements c path info ++
      [sectorsElement c.volume info (numBlocks c.volume info.inode), extentsElement] ++
      [filesElement (c.subtype path) (blocks.files c.volume info 0)] := rfl
  have hmode : ¬info.inode.iMode &&& 0xa000 = 0xa000 := by
    rw [mode_and hdir rfl]
    decide
  have hmode' : ¬info.inode.iMode &&& 0x8000 = 0x8000 := by
    rw [mode_and hdir rfl]
    decide
  obtain ⟨N, hN⟩ := hruns path (hfit.entries rfl) fun x hx => hfits x (List.mem_append_left _ hx)
  refine ⟨N + 1, fun depth hd bson bits written hb => ?_⟩
  obtain ⟨d, rfl⟩ := Nat.exists_eq_add_of_le' (Nat.le_of_add_left_le hd)
  obtain ⟨bson₁, hs₁, hh₁⟩ := head_serialize hb (hfit.room (hes.trans (List.append_assoc ..)))
  obtain ⟨bson₂, hs₂, hh₂⟩ := hm.serialize hmode bits hh₁ (hfit.room hes)
  have hroom := hfit.room_all hes
  rw [Document.body_append, body_singleton] at hroom
  obtain ⟨dentries, hloop, hdentries⟩ := hN d (by omega) info 0 hm hheld
    (by rw [hblocks, Nat.zero_add]) (bsonInit c.heap) [] bits written (bsonInit_holds c.heap)
    (by
      rw [filesElement, elementBytes, Value.payload] at hroom
      simp only [List.length_append, frame_length] at hroom
      rw [List.nil_append]
      omega)
  obtain ⟨bson₃, hs₃, hh₃⟩ := serializeArray_holds c.heap "files" (by decide) hdentries hh₂ hroom
  have hdoc := hfit.document
  rw [nodeDocument, hes] at hdoc
  have hheld₃ : Holds bson₃ (Document.ofElements (headElements c path info ++
      [sectorsElement c.volume info (numBlocks c.volume info.inode), extentsElement] ++
      [filesElement (c.subtype path) (blocks.files c.volume info 0)])).body := by
    rw [Document.body_append, body_singleton]
    exact hh₃
  obtain ⟨finished, hf, hw⟩ := finish_document (c := c) hheld₃ hdoc
    ⟨bits, written ++ (blocks.nodes crawlPath path).map (nodeDocument c)⟩
  rw [SerializeTreeAt]
  refine (if_neg hmode).mpr ((if_neg hmode').mpr ((if_pos (mode_and hdir rfl)).mpr
    ⟨bson₁, bits, bson₂, hs₁, hs₂, ⟨dentries,
      ⟨bits, written ++ (blocks.nodes crawlPath path).map (nodeDocument c)⟩⟩, bson₃, finished, ?_,
      hs₃, hf, ?_⟩))
  · rw [← hblocks] at hloop
    exact hloop
  · rw [FsTree.nodes, List.map_append, List.map_singleton, ← List.append_assoc]
    exact hw.symm

mutual

theorem FsTree.runs_of_stored (hpos : 0 < c.blockSize) :
    ∀ t : FsTree, t.Stored c → t.Runs c
  | .leaf _, ⟨_, .inl ⟨hlink, hsize⟩⟩ => FsTree.runs_link hlink hsize
  | .leaf _, ⟨_, .inr ⟨hfile, hm⟩⟩ => FsTree.runs_file hfile hm
  | .directory _ blocks, ⟨_, hdir, hm, hsize, hheld, hstored⟩ =>
    FsTree.runs_directory hdir hm (numBlocks_of_mul hpos hsize) hheld
      (blocks.runs_of_stored hpos hstored)

theorem Blocks.runs_of_stored (hpos : 0 < c.blockSize) :
    ∀ blocks : Blocks, blocks.Stored c → blocks.Runs c
  | .nil, _ => Blocks.runs_nil
  | .cons slots rest, ⟨hslots, hrest⟩ =>
    Blocks.runs_cons (slots.runs_of_stored hpos hslots) (rest.runs_of_stored hpos hrest)

theorem Slots.runs_of_stored (hpos : 0 < c.blockSize) :
    ∀ slots : Slots, slots.Stored c → slots.Runs c
  | .nil, _ => Slots.runs_nil
  | .deleted _ rest, hrest => Slots.runs_deleted (rest.runs_of_stored hpos hrest)
  | .dot _ _ _ rest, ⟨⟨_, hnum, hc⟩, hrest⟩ =>
    Slots.runs_dot hnum hc (rest.runs_of_stored hpos hrest)
  | .child _ _ node rest, ⟨hnode, hrest⟩ =>
    Slots.runs_child (FsTree.Stored.cached hnode) (node.runs_of_stored hpos hnode)
      (rest.runs_of_stored hpos hrest)

end

end Runs

/-! ## Paths -/

/-- A path behind which the crawler puts its slashes right. -/
def Extendable (path : List UInt8) : Prop := path = [47] ∨ 2 ≤ path.length

theorem Extendable.crawlPath {path : List UInt8} (h : Extendable path) (name : List UInt8) :
    crawlPath path name = extendPath path name := by
  rw [Ext4.crawlPath, startPath, extendPath]
  rcases h with rfl | h
  · rfl
  · rw [if_pos (by omega), if_neg fun heq => by rw [heq] at h; exact absurd h (by decide),
      List.append_assoc]
    rfl

theorem Extendable.child {path : List UInt8} (h : Extendable path) (name : EntryName) :
    Extendable (extendPath path name.bytes) := by
  have hname := List.length_pos_iff.mpr name.nonempty
  have hpath : 1 ≤ path.length := by
    rcases h with rfl | h
    · exact le_refl 1
    · omega
  right
  rw [extendPath]
  split
  · rw [List.length_append]
    omega
  · rw [List.length_append, List.length_cons]
    omega

mutual

theorem FsTree.nodes_crawlPath {path : List UInt8} (h : Extendable path) :
    ∀ t : FsTree, t.nodes crawlPath path = t.nodes extendPath path
  | .leaf _ => rfl
  | .directory _ blocks => by
    rw [FsTree.nodes, FsTree.nodes, blocks.nodes_crawlPath h]

theorem Blocks.nodes_crawlPath {path : List UInt8} (h : Extendable path) :
    ∀ blocks : Blocks, blocks.nodes crawlPath path = blocks.nodes extendPath path
  | .nil => rfl
  | .cons slots rest => by
    rw [Blocks.nodes, Blocks.nodes, slots.nodes_crawlPath h, rest.nodes_crawlPath h]

theorem Slots.nodes_crawlPath {path : List UInt8} (h : Extendable path) :
    ∀ slots : Slots, slots.nodes crawlPath path = slots.nodes extendPath path
  | .nil => rfl
  | .deleted _ rest => rest.nodes_crawlPath h
  | .dot _ _ _ rest => rest.nodes_crawlPath h
  | .child name _ node rest => by
    rw [Slots.nodes, Slots.nodes, h.crawlPath, node.nodes_crawlPath (h.child name),
      rest.nodes_crawlPath h]

end

/-- A crawl does what the tree says, and ends. -/
theorem crawl_runs {c : TreeCrawl} (hpos : 0 < c.blockSize) {t : FsTree} (ht : t.Stored c)
    (path : List UInt8) (hfits : ∀ x ∈ t.nodes crawlPath path, Fits c x) (bits : Bitarray)
    (written : List (List UInt8)) :
    ∃ bson, ext4ReadInodeSerialized c t.info.num (bsonInit c.heap) = some (t.info.node, bson) ∧
      Ext4SerializeTree c t.info.node path bson ⟨bits, written⟩
        ⟨bits, written ++ (t.nodes crawlPath path).map (nodeDocument c)⟩ := by
  obtain ⟨bson, hread, hb⟩ := (FsTree.Stored.cached ht).read
  obtain ⟨N, hN⟩ := t.runs_of_stored hpos ht path hfits
  exact ⟨bson, hread, N, hN N le_rfl bson bits written hb⟩

/-- The crawl of a tree on disk ends, with one document for each of its nodes, children before
their parents. -/
theorem crawl_writes_nodes (c : TreeCrawl) (hpos : 0 < c.blockSize) (t : FsTree)
    (ht : t.Stored c) (path : List UInt8) (hpath : path = [47] ∨ 2 ≤ path.length)
    (hfits : ∀ x ∈ t.nodes extendPath path, Fits c x) (bits : Bitarray)
    (written : List (List UInt8)) :
    ∃ bson, ext4ReadInodeSerialized c t.info.num (bsonInit c.heap) = some (t.info.node, bson) ∧
      ∀ out, Ext4SerializeTree c t.info.node path bson ⟨bits, written⟩ out ↔
        out = ⟨bits, written ++ (t.nodes extendPath path).map (nodeDocument c)⟩ := by
  rw [← t.nodes_crawlPath hpath] at hfits ⊢
  obtain ⟨bson, hread, hrun⟩ := crawl_runs hpos ht path hfits bits written
  refine ⟨bson, hread, fun out => ⟨fun h => h.unique hrun, ?_⟩⟩
  rintro rfl
  exact hrun

/-! ## A directory with one file -/

/-- The bytes of an inode on disk. -/
def inodeImage (mode size : ℕ) (extents : List UInt8) : List UInt8 :=
  leBytes 2 mode ++ leBytes 2 0 ++ leBytes 4 size ++ List.replicate 18 0 ++ leBytes 2 1 ++
    List.replicate 4 0 ++ leBytes 4 0x80000 ++ List.replicate 4 0 ++ extents ++
    List.replicate 28 0

/-- An extent node with no entry, and one with block 0 of the file in block 5. -/
def noExtents : Vector UInt8 60 :=
  ⟨⟨leBytes 2 0xf30a ++ leBytes 2 0 ++ leBytes 2 4 ++ List.replicate 54 0⟩, by simp⟩

def blockFive : Vector UInt8 60 :=
  ⟨⟨leBytes 2 0xf30a ++ leBytes 2 1 ++ leBytes 2 4 ++ List.replicate 6 0 ++ leBytes 4 0 ++
    leBytes 2 1 ++ leBytes 2 0 ++ leBytes 4 5 ++ List.replicate 36 0⟩, by simp⟩

def rootInfo : NodeInfo where
  num := 2
  table := 3
  inode := ⟨0x41ed, 1024, 0, 0x80000, blockFive⟩
  stat := ⟨0, 0, 0, 0, 0, 1⟩
  extents := [⟨0, 1, 5⟩]

def fileInfo : NodeInfo where
  num := 3
  table := 3
  inode := ⟨0x81a4, 0, 0, 0x80000, noExtents⟩
  stat := ⟨0, 0, 0, 0, 0, 1⟩
  extents := []

def nameB : EntryName := ⟨[98], by decide, by decide, by decide, by decide, by decide⟩

def oneFile : FsTree := .directory rootInfo (.cons (.child nameB 1024 (.leaf fileInfo) .nil) .nil)

def oneFileDisk : Disk where
  size := 8192
  byte := fun i => if 5120 ≤ i then ([3, 0, 0, 0, 0, 4, 1, 1, 98].getD (i - 5120) 0) else 0

def oneFileCrawl : TreeCrawl where
  heap := zeroHeap
  volume := ⟨oneFileDisk, 0, ⟨0, 8, 0, 1, 8192, 8⟩⟩
  sInodeSize := 128
  icache := fun i => (List.replicate 128 0 ++ inodeImage 0x41ed 1024 blockFive.toList ++
    inodeImage 0x81a4 0 noExtents.toList)[i]?
  bcache := fun i => (List.replicate 8 0 ++ leBytes 4 3)[i]?
  subtype := fun _ => 0

theorem rootInfo_cached : Cached oneFileCrawl rootInfo where
  used := by decide
  grouped := by decide
  table := by decide
  inode := by decide

theorem fileInfo_cached : Cached oneFileCrawl fileInfo where
  used := by decide
  grouped := by decide
  table := by decide
  inode := by decide +kernel

theorem rootInfo_mapped : Mapped oneFileCrawl.volume rootInfo where
  flag := by decide
  wellFormed := ⟨List.pairwise_singleton _ _, fun m hm => by
    rw [List.mem_singleton.mp hm]
    decide⟩
  root := ⟨rfl, fun i m hm => by
    match i, hm with
    | 0, hm => rw [← Option.some.inj hm]; rfl⟩
  dense := by decide

theorem fileInfo_mapped : Mapped oneFileCrawl.volume fileInfo where
  flag := by decide
  wellFormed := ⟨List.Pairwise.nil, fun m hm => absurd hm List.not_mem_nil⟩
  root := ⟨rfl, fun i m hm => by cases hm⟩
  dense := by decide

/-- What the directory block holds, whatever was in the buffer before. -/
def oneFileBlock : Buffer := fun i => some ([3, 0, 0, 0, 0, 4, 1, 1, 98].getD i 0)

theorem oneFile_read (buf : Buffer) {i : ℕ} (hi : i < 1024) :
    ext4ReadBlock oneFileCrawl.volume 5 buf i = oneFileBlock i := by
  have hoff : u64 (ext4BlockOffset 5 oneFileCrawl.volume.superblock +
      oneFileCrawl.volume.partitionOffset) = 5120 := by decide
  have hsize : 5120 + i < oneFileCrawl.volume.disk.size := by
    change 5120 + i < 8192
    omega
  rw [ext4ReadBlock, hoff, if_neg (by decide), if_pos ⟨hi, hsize⟩]
  change some (if 5120 ≤ 5120 + i then _ else _) = _
  rw [if_pos (Nat.le_add_right _ _), Nat.add_sub_cancel_left]
  rfl

theorem oneFile_mapM (buf : Buffer) {position len : ℕ} (h : position + len ≤ 1024) :
    ((List.range len).mapM fun i => ext4ReadBlock oneFileCrawl.volume 5 buf (position + i)) =
      (List.range len).mapM fun i => oneFileBlock (position + i) := by
  refine mapM_congr_mem fun i hi => ?_
  have hlt := List.mem_range.mp hi
  exact oneFile_read buf (by omega)

theorem oneFile_held (buf : Buffer) :
    EntryHeld oneFileCrawl (ext4ReadBlock oneFileCrawl.volume 5 buf) 0 3 1024 [98] where
  inode := by
    rw [field, oneFile_mapM buf (by decide)]
    decide
  used := by decide
  stride := by
    rw [field, oneFile_mapM buf (by decide)]
    decide
  len := by
    rw [field, oneFile_mapM buf (by decide)]
    decide
  named := by
    rw [nameAt, oneFile_mapM buf (by decide)]
    decide
  room := by decide
  inside := by decide

theorem oneFile_stored : oneFile.Stored oneFileCrawl :=
  ⟨rootInfo_cached, rfl, rootInfo_mapped, by decide,
    ⟨fun buf => ⟨oneFile_held buf, rfl⟩, trivial⟩,
    ⟨⟨fileInfo_cached, .inr ⟨rfl, fileInfo_mapped⟩⟩, trivial⟩, trivial⟩

/-- The nodes of the tree, with the path of the file. -/
theorem oneFile_fits (path child : List UInt8) (hfile : Fits oneFileCrawl (child, .leaf fileInfo))
    (hroot : Fits oneFileCrawl (path, oneFile)) :
    ∀ x ∈ [(child, .leaf fileInfo), (path, oneFile)], Fits oneFileCrawl x := by
  simp [hfile, hroot]

theorem crawl_writes_oneFile :
    ∃ bson, ext4ReadInodeSerialized oneFileCrawl 2 (bsonInit zeroHeap) =
        some (rootInfo.node, bson) ∧
      ∀ out, Ext4SerializeTree oneFileCrawl rootInfo.node [47] bson
          ⟨Bitarray.init zeroHeap 64, []⟩ out ↔
        out = ⟨Bitarray.init zeroHeap 64, [nodeDocument oneFileCrawl ([47, 98], .leaf fileInfo),
          nodeDocument oneFileCrawl ([47], oneFile)]⟩ :=
  crawl_writes_nodes oneFileCrawl (by decide) oneFile oneFile_stored [47] (.inl rfl)
    (oneFile_fits [47] [47, 98] ⟨by decide, nofun, by decide +kernel⟩
      ⟨by decide, fun _ => by decide, by decide +kernel⟩) (Bitarray.init zeroHeap 64) []

/-- Behind a path of one letter the slash is left out. -/
theorem slash_left_out :
    oneFile.Stored oneFileCrawl ∧ (∀ x ∈ oneFile.nodes extendPath [97], Fits oneFileCrawl x) ∧
      ∃ bson, ext4ReadInodeSerialized oneFileCrawl 2 (bsonInit zeroHeap) =
          some (rootInfo.node, bson) ∧
        Ext4SerializeTree oneFileCrawl rootInfo.node [97] bson ⟨Bitarray.init zeroHeap 64, []⟩
          ⟨Bitarray.init zeroHeap 64, [nodeDocument oneFileCrawl ([97, 98], .leaf fileInfo),
            nodeDocument oneFileCrawl ([97], oneFile)]⟩ ∧
        ¬ Ext4SerializeTree oneFileCrawl rootInfo.node [97] bson ⟨Bitarray.init zeroHeap 64, []⟩
          ⟨Bitarray.init zeroHeap 64,
            (oneFile.nodes extendPath [97]).map (nodeDocument oneFileCrawl)⟩ := by
  have hroot : Fits oneFileCrawl ([97], oneFile) :=
    ⟨by decide, fun _ => by decide, by decide +kernel⟩
  obtain ⟨bson, hread, hrun⟩ := crawl_runs (c := oneFileCrawl) (by decide) oneFile_stored
    [97] (oneFile_fits [97] [97, 98] ⟨by decide, nofun, by decide +kernel⟩ hroot)
    (Bitarray.init zeroHeap 64) []
  refine ⟨oneFile_stored, oneFile_fits [97] [97, 47, 98] ⟨by decide, nofun, by decide +kernel⟩
    hroot, bson, hread, hrun, fun h => ?_⟩
  have hdocs := congrArg (fun out => out.written.map List.length) (hrun.unique h)
  exact absurd hdocs (by decide +kernel)

end GammaRay.Ext4
