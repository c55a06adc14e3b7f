import GammaRay.FileSectors
import GammaRay.LoadIndex

set_option autoImplicit false

/-!
# Where the index places the blocks of a file

The document that `ext4_serialize_file_sectors` completes for a file is loaded again. Its
entries are labelled with block numbers and leave out what is not found; the loader counts
entries.
-/
namespace GammaRay.Loader
open Bytes Decimal Bson KvStore Ext4
open Redis (Db Command)

/-! ## Entries in the order of their blocks -/

section Ordered

variable {l : List (ℕ × ℕ)} (first : ℕ)

/-- No entry comes later than its block. -/
theorem le_of_ordered (ho : l.Pairwise fun e e' => e.1 < e'.1) (hf : ∀ e ∈ l, first ≤ e.1)
    {j : ℕ} {e : ℕ × ℕ} (h : l[j]? = some e) : first + j ≤ e.1 := by
  induction l generalizing first j with
  | nil => cases h
  | cons x l ih =>
    obtain ⟨hx, ho⟩ := List.pairwise_cons.mp ho
    have hfirst := hf x List.mem_cons_self
    cases j with
    | zero =>
      rw [← Option.some.inj h]
      exact hfirst
    | succ j =>
      have hle := ih (x.1 + 1) ho hx (List.getElem?_cons_succ ▸ h)
      omega

/-- With an entry for every block up to this one, its entry comes in its place. -/
theorem getElem?_of_dense (ho : l.Pairwise fun e e' => e.1 < e'.1) (hf : ∀ e ∈ l, first ≤ e.1)
    {j : ℕ} (hall : ∀ k ≤ j, ∃ s, (first + k, s) ∈ l) : ∃ s, l[j]? = some (first + j, s) := by
  induction l generalizing first j with
  | nil =>
    obtain ⟨s, hs⟩ := hall j (le_refl j)
    exact absurd hs List.not_mem_nil
  | cons x l ih =>
    obtain ⟨hx, ho⟩ := List.pairwise_cons.mp ho
    have hhead : x.1 = first := by
      obtain ⟨s, hs⟩ := hall 0 (Nat.zero_le j)
      have hle := hf x List.mem_cons_self
      rcases List.mem_cons.mp hs with rfl | hs
      · rfl
      · have hlt := hx _ hs
        dsimp only at hlt
        omega
    cases j with
    | zero => exact ⟨x.2, by rw [← hhead]; rfl⟩
    | succ j =>
      rw [List.getElem?_cons_succ, ← Nat.add_assoc, Nat.add_right_comm]
      refine ih (first + 1) ho (fun e he => hhead ▸ hx e he) fun k hk => ?_
      obtain ⟨s, hs⟩ := hall (k + 1) (by omega)
      refine ⟨s, ?_⟩
      rw [Nat.add_right_comm, Nat.add_assoc]
      rcases List.mem_cons.mp hs with rfl | hs
      · dsimp only at hhead
        omega
      · exact hs

theorem dense_of_getElem? (ho : l.Pairwise fun e e' => e.1 < e'.1) (hf : ∀ e ∈ l, first ≤ e.1)
    {j s : ℕ} (h : l[j]? = some (first + j, s)) : ∀ k ≤ j, ∃ s, (first + k, s) ∈ l := by
  induction l generalizing first j with
  | nil => cases h
  | cons x l ih =>
    obtain ⟨hx, ho⟩ := List.pairwise_cons.mp ho
    intro k hk
    have hfirst := hf x List.mem_cons_self
    cases j with
    | zero =>
      obtain rfl := Nat.le_zero.mp hk
      exact ⟨s, List.mem_of_getElem? h⟩
    | succ j =>
      rw [List.getElem?_cons_succ] at h
      have hle := le_of_ordered (x.1 + 1) ho hx h
      obtain rfl : x.1 = first := by
        dsimp only at hle
        omega
      cases k with
      | zero => exact ⟨x.2, List.mem_cons_self⟩
      | succ k =>
        rw [← Nat.add_assoc, Nat.add_right_comm] at h ⊢
        obtain ⟨s', hs'⟩ := ih (x.1 + 1) ho hx h k (by omega)
        exact ⟨s', List.mem_cons_of_mem _ hs'⟩

end Ordered

/-! ## The document of a file -/

def sectorsField (found : List (ℕ × ℕ)) : Field := .sectors (found.map fun e => (decKey e.1, e.2))

theorem sectorsField_body (found : List (ℕ × ℕ)) :
    (sectorsField found).value = .array (.ofElements
      (found.map fun e => Field.sectorsEntry (decKey e.1, e.2))) := by
  rw [sectorsField, Field.value, List.map_map]
  rfl

theorem passes_lt {v : Volume} {b sector : ℕ} {w : WalkState} (h : Passes v b w sector) :
    sector < 2 ^ 64 := by
  induction h with
  | here => exact u64_lt _
  | later _ _ ih => exact ih

/-- The fields of a file behind those that stand in its document already. -/
theorem fileSectors_document {o : Options} {v : Volume} {bits bits' : Bitarray} {inode : Inode}
    {serialized serialized' : BsonInfo} {fields : List Field} (hd : o.saveData = false)
    (hsave : o.saveExtents = true) (hmode : inode.iMode &&& 0xa000 ≠ 0xa000)
    (hn : numBlocks v inode ≤ 2 ^ 32) (hfields : Holds serialized (fileDocument fields).body)
    (h : Ext4SerializeFileSectors o v bits inode serialized bits' serialized') :
    ∃ (found : List (ℕ × ℕ)) (passed : List ℕ) (hp : ∀ e ∈ passed, e < 2 ^ 64),
      Crawled v inode 0 (numBlocks v inode) found passed ∧
      Holds serialized'
        (fileDocument (fields ++ [sectorsField found, .extents passed hp])).body := by
  obtain ⟨r, -, hr, hloop⟩ := h
  rw [if_neg hmode] at hloop
  obtain ⟨found, passed, hc, hsec, hext⟩ := serializeBlocks_writes hd hsave hloop.2
    (by omega) (bsonInit_holds o.heap) (bsonInit_holds o.heap)
  have hp : ∀ e ∈ passed, e < 2 ^ 64 := by
    intro e he
    obtain ⟨b, -, -, hb⟩ := (hc.passed e).mp he
    exact passes_lt hb
  refine ⟨found, passed, hp, hc, ?_⟩
  rw [List.nil_append] at hsec hext
  simp only [serializeArrays, hd, hsave, if_true, Bool.false_eq_true, if_false,
    Option.bind_eq_bind, Option.bind_eq_some_iff] at hr
  obtain ⟨s₁, hs₁, _, hs₂, hs₃⟩ := hr
  obtain rfl := Option.some.inj hs₂
  have h₁ := serializeArray_writes o.heap (by decide) hsec hfields hs₁
  have h₂ := serializeArray_writes o.heap (by decide) hext h₁ hs₃
  have hbody : (fileDocument (fields ++ [sectorsField found, .extents passed hp])).body =
      (fileDocument fields).body ++
        ([0x04] ++ ((ascii "sectors" ++ [0]) ++
          frame (found.flatMap fun e => sectorBytes e.1 e.2))) ++
        ([0x04] ++ ((ascii "extents" ++ [0]) ++ frame (passed.flatMap indexBytes))) := by
    rw [sectors_bytes, indices_bytes, fileDocument, fileDocument, List.map_append, Document.body,
      Document.body, Document.body_append]
    simp only [List.map_cons, List.map_nil, Field.element, sectorsField_body, Document.ofElements,
      Document.body, List.append_assoc, List.append_nil]
    rfl
  rw [hbody]
  exact h₂

/-! ## The keys of a file -/

/-- What the last of the entries with a property comes to. -/
theorem getLast?_zipIdx {α γ : Type} (P : α → Prop) [DecidablePred P] (g : ℕ → γ) {l : List α}
    (first : ℕ) {j : ℕ} {x : α} (hx : l[j]? = some x) (hP : P x)
    (hlast : ∀ k y, j < k → l[k]? = some y → ¬ P y) :
    ((l.zipIdx first).flatMap fun e => if P e.1 then [g e.2] else []).getLast? =
      some (g (first + j)) := by
  induction l generalizing first j with
  | nil => cases hx
  | cons y l ih =>
    rw [List.zipIdx_cons, List.flatMap_cons, List.getLast?_append]
    cases j with
    | zero =>
      have hnone : ((l.zipIdx (first + 1)).flatMap fun e => if P e.1 then [g e.2] else []) = [] := by
        rw [List.flatMap_eq_nil_iff]
        rintro ⟨z, i⟩ hz
        obtain ⟨hi, hz⟩ := List.mem_zipIdx_iff_le_and_getElem?_sub.mp hz
        exact if_neg (hlast (i - (first + 1) + 1) z (Nat.succ_pos _) hz)
      obtain rfl : y = x := Option.some.inj hx
      rw [hnone, if_pos hP]
      rfl
    | succ j =>
      rw [ih (first + 1) hx fun k z hk hz => hlast (k + 1) z (by omega) hz, Option.some_or,
        Nat.add_right_comm, Nat.add_assoc]

theorem dataPointer_start {start stop file start' stop' file' : ℕ}
    (h : dataPointer start stop file = dataPointer start' stop' file') : start = start' := by
  have hscan : ∀ a b c : ℕ, scan ((dataPointer a b c).drop 6) = some a := by
    intro a b c
    have hdrop : (dataPointer a b c).drop 6 =
        dec a ++ (ascii ":end:" ++ dec b ++ ascii ":file:" ++ dec c) := by
      simp only [dataPointer, List.append_assoc]
      rfl
    rw [hdrop]
    refine scan_dec a _ fun x hx => ?_
    rw [← Option.some.inj hx]
    rfl
  have heq := congrArg (fun x => scan (x.drop 6)) h
  rw [hscan, hscan] at heq
  exact Option.some.inj heq

theorem reference_ne_dataPointer (sector : ℤ) (start stop file : ℕ) :
    reference "extent:" sector ≠ dataPointer start stop file := by
  intro h
  have hhead : some (101 : UInt8) = some 115 := congrArg List.head? h
  exact absurd hhead (by decide)

theorem sectorText_inj {m n : ℤ} (hm : -2 ^ 31 ≤ m ∧ m < 2 ^ 31) (hn : -2 ^ 31 ≤ n ∧ n < 2 ^ 31)
    (h : sectorText m = sectorText n) : m = n := by
  have hscan := congrArg scanU64 (List.append_cancel_left h)
  rw [scanU64_sdec m (by omega) (by omega), scanU64_sdec n (by omega) (by omega)] at hscan
  have hu := Option.some.inj hscan
  unfold u64 at hu
  omega

theorem i32_range (n : ℤ) : -2 ^ 31 ≤ i32 n ∧ i32 n < 2 ^ 31 := by
  unfold i32
  omega

section Keys

variable {blockSize id : ℕ} {db : Db KvStore.Key} {fields : List Field} {found : List (ℕ × ℕ)}
  {passed : List ℕ} {hp : ∀ e ∈ passed, e < 2 ^ 64}

def fileCommands (blockSize id : ℕ) (fields : List Field) : List (Command KvStore.Key) :=
  fields.flatMap (Field.commands blockSize id)

theorem fileCommands_inserts (fields : List Field) :
    ∀ c ∈ fileCommands blockSize id fields, c.Inserts Key.kind := by
  intro c hc
  obtain ⟨f, -, hc⟩ := List.mem_flatMap.mp hc
  exact field_inserts blockSize id f c hc

theorem file_filesectors (hnone : ∀ f ∈ fields, f.asSectors = none)
    (hempty : db.listAt (.filesectors id) = some []) :
    (db.replay (fileCommands blockSize id
        (fields ++ [sectorsField found, .extents passed hp]))).listAt (.filesectors id) =
      some (found.map fun e => sectorText (i32 e.2)) := by
  have hfields : (fields.flatMap fun f => Redis.pushed (.filesectors id)
      (f.commands blockSize id)) = [] := by
    rw [List.flatMap_eq_nil_iff]
    intro f hf
    rw [pushed_filesectors, hnone f hf, Option.elim_none]
  have honly : Redis.OnlyPushed (.filesectors id) (fileCommands blockSize id
      (fields ++ [sectorsField found, .extents passed hp])) :=
    Redis.OnlyPushed.of_inserts (fileCommands_inserts _) rfl
  rw [Redis.listAt_replay honly hempty, fileCommands, Redis.pushed_flatMap, List.flatMap_append,
    hfields, List.flatMap_cons, List.flatMap_singleton, pushed_filesectors, pushed_filesectors]
  rw [sectorsField, Field.asSectors, Option.elim_some, if_pos rfl, List.map_map, List.map_map]
  exact congrArg some (List.append_nil _)

theorem stored_sectors (sector : ℕ) :
    Redis.stored (.sector sector) ((sectorsField found).commands blockSize id) =
      found.zipIdx.flatMap fun e => if u64 (i32 e.1.2) = sector then
        [dataPointer (e.2 * blockSize % 2 ^ 64) ((e.2 + 1) * blockSize % 2 ^ 64) id] else [] := by
  rw [sectorsField, Field.commands, Redis.stored_flatMap, List.zipIdx_map, List.flatMap_map]
  refine List.flatMap_congr fun e _ => ?_
  rw [Field.sectorsCommands, redisFileSectorsInsert, Redis.stored_rpush, Redis.stored_set,
    Redis.stored_nil]
  by_cases h : u64 (i32 e.1.2) = sector
  · rw [if_pos h]
    exact if_pos (congrArg KvStore.Key.sector h)
  · rw [if_neg h]
    exact if_neg fun hk => h (KvStore.Key.sector.inj hk)

theorem stored_extents (sector : ℕ) :
    Redis.stored (.sector sector) ((Field.extents passed hp).commands blockSize id) =
      (passed.filter (· = sector)).map fun s : ℕ => reference "extent:" s := by
  rw [Field.commands, Redis.stored_flatMap, ← flatMap_ite (· = sector)]
  refine List.flatMap_congr fun e _ => ?_
  simp only [Field.extentsCommands, redisExtentSectorInsert, redisExtentsInsert,
    redisExtentsSectorInsert, Redis.stored_hset, Redis.stored_rpush, Redis.stored_set,
    Redis.stored_nil, KvStore.Key.sector.injEq]

theorem file_sector (sector : ℕ) :
    (db.replay (fileCommands blockSize id
        (fields ++ [sectorsField found, .extents passed hp]))).keys (.sector sector) =
      (((passed.filter (· = sector)).map fun s : ℕ => reference "extent:" s).getLast?.or
        ((Redis.stored (.sector sector) ((sectorsField found).commands blockSize id)).getLast?.or
          (Redis.stored (.sector sector) (fileCommands blockSize id fields)).getLast?)).elim
        (db.keys (.sector sector)) fun text => some (.string text) := by
  have honly : Redis.OnlyStored (.sector sector) (fileCommands blockSize id
      (fields ++ [sectorsField found, .extents passed hp])) :=
    Redis.OnlyStored.of_inserts (fileCommands_inserts _) rfl
  have hmap : ∀ text : Option (List UInt8), (text.map Redis.Value.string).or
      (db.keys (.sector sector)) = text.elim (db.keys (.sector sector)) fun text =>
        some (.string text) := by
    intro text
    cases text <;> rfl
  rw [Redis.keys_replay_stored honly, fileCommands, List.flatMap_append, Redis.stored_append,
    List.flatMap_cons, List.flatMap_cons,
    List.flatMap_nil, List.append_nil, Redis.stored_append, stored_extents, ← fileCommands,
    List.getLast?_append, List.getLast?_append, Option.or_assoc]
  exact hmap _

/-- A sector in `extents` is taken for an index block, whatever else it is. -/
theorem file_sector_passed {sector : ℕ} (h : sector ∈ passed) :
    (db.replay (fileCommands blockSize id
        (fields ++ [sectorsField found, .extents passed hp]))).keys (.sector sector) =
      some (.string (reference "extent:" sector)) := by
  have hlast : ((passed.filter (· = sector)).map fun s : ℕ => reference "extent:" s).getLast? =
      some (reference "extent:" sector) := by
    have hne : passed.filter (· = sector) ≠ [] :=
      List.ne_nil_of_mem (List.mem_filter.mpr ⟨h, decide_eq_true rfl⟩)
    have hmem := List.getLast_mem hne
    rw [List.getLast?_map, List.getLast?_eq_getLast_of_ne_nil hne, Option.map_some,
      of_decide_eq_true (List.mem_filter.mp hmem).2]
  rw [file_sector, hlast, Option.some_or, Option.elim_some]

theorem file_sector_last {sector j : ℕ} {e : ℕ × ℕ} (hpassed : sector ∉ passed)
    (he : found[j]? = some e) (hsector : u64 (i32 e.2) = sector)
    (hlast : ∀ k e', j < k → found[k]? = some e' → u64 (i32 e'.2) ≠ sector) :
    (db.replay (fileCommands blockSize id
        (fields ++ [sectorsField found, .extents passed hp]))).keys (.sector sector) =
      some (.string (dataPointer (j * blockSize % 2 ^ 64) ((j + 1) * blockSize % 2 ^ 64) id)) := by
  have hnone : passed.filter (· = sector) = [] := by
    rw [List.filter_eq_nil_iff]
    exact fun x hx heq => hpassed (of_decide_eq_true heq ▸ hx)
  have hpick := getLast?_zipIdx (fun e : ℕ × ℕ => u64 (i32 e.2) = sector)
    (fun k => dataPointer (k * blockSize % 2 ^ 64) ((k + 1) * blockSize % 2 ^ 64) id) 0
    he hsector hlast
  rw [Nat.zero_add] at hpick
  rw [file_sector, hnone, stored_sectors, hpick]
  rfl

end Keys

/-! ## Blocks that the tree maps -/

/-- The sector of a block by its mapping. -/
def sectorOf (v : Volume) (m : Mapping) (b : ℕ) : ℕ :=
  ext4SectorFromBlock (m.start + (b - m.block)) v

/-- An extent-mapped regular file on a disk of fewer than `2 ^ 31` sectors. -/
structure FileOnDisk (v : Volume) (inode : Inode) {d : ℕ} (t : Tree d) : Prop where
  regular : inode.iMode &&& 0xf000 = 0x8000
  extents : inode.iFlags &&& 0x80000 ≠ 0
  blocks : numBlocks v inode ≤ 2 ^ 32
  wellFormed : t.WellFormed 0 (2 ^ 32)
  root : HoldsNode (rootBuffer inode) t
  stored : Stored v t
  blockSize : v.superblock.sLogBlockSize ≤ 21
  partition : 0 ≤ v.partitionOffset
  onDisk : ∀ m ∈ t.mappings,
    ((m.start + m.len) * ext4BlockSize v.superblock : ℕ) + v.partitionOffset ≤ v.disk.size
  small : v.disk.size < 2 ^ 31 * sectorSize

section Mapped

variable {v : Volume} {inode : Inode} {d : ℕ} {t : Tree d} {b : ℕ}

theorem FileOnDisk.not_symlink (hf : FileOnDisk v inode t) :
    inode.iMode &&& 0xa000 ≠ 0xa000 := by
  rw [mode_and hf.regular rfl]
  decide

theorem FileOnDisk.blockSize_pos (hf : FileOnDisk v inode t) :
    0 < ext4BlockSize v.superblock ∧ ext4BlockSize v.superblock ≤ 2 ^ 31 := by
  have hpow : 2 ^ v.superblock.sLogBlockSize ≤ 2 ^ 21 :=
    Nat.pow_le_pow_right (by decide) hf.blockSize
  have hpos := Nat.two_pow_pos v.superblock.sLogBlockSize
  rw [ext4BlockSize_eq hf.blockSize]
  omega

theorem FileOnDisk.sectorOf_lt (hf : FileOnDisk v inode t) {m : Mapping} (hm : m ∈ t.mappings)
    (hb : m.Contains b) : sectorOf v m b < 2 ^ 31 := by
  obtain ⟨hle, hlt⟩ := hb
  have hpos := hf.blockSize_pos.1
  have hend : (m.start + (b - m.block) + 1) * ext4BlockSize v.superblock ≤
      (m.start + m.len) * ext4BlockSize v.superblock := Nat.mul_le_mul_right _ (by omega)
  rw [Nat.succ_mul] at hend
  have hdisk := hf.onDisk m hm
  have hsmall := hf.small
  have hpart := hf.partition
  rw [sectorOf, ext4SectorFromBlock]
  generalize (m.start + (b - m.block)) * ext4BlockSize v.superblock = offset at *
  generalize (m.start + m.len) * ext4BlockSize v.superblock = stop at *
  rw [sectorSize] at *
  rw [u64_of_range (by omega) (by omega)]
  omega

/-- Nothing from a mapped block on makes the walk stray. -/
theorem FileOnDisk.not_strays (hf : FileOnDisk v inode t) {m : Mapping} (hm : m ∈ t.mappings)
    (hb : m.Contains b) {c : ℕ} (hc : b ≤ c) : ¬ t.Strays c := by
  intro hs
  have hlt := hs.lt_block hf.wellFormed m hm
  have hle := hb.1
  omega

theorem FileOnDisk.mapped (hf : FileOnDisk v inode t) {sector : ℕ} (hs : ¬ t.Strays b)
    (h : Finds v inode b sector) :
    ∃ m ∈ t.mappings, m.Contains b ∧ sectorOf v m b = sector := by
  obtain ⟨p, buf, hread, rfl⟩ := h
  obtain ⟨m, hm, hb, rfl⟩ := walk_block (le_refl _) hf.wellFormed hf.stored hf.root
    (fun hst => absurd hst hs) ((readExtentBlock_enter hf.root).mp hread)
  exact ⟨m, hm, hb, rfl⟩

/-- A mapped block is found, and then at its sector, just when the walk reaches it. -/
theorem FileOnDisk.finds_iff_reaches (hf : FileOnDisk v inode t) {m : Mapping}
    (hm : m ∈ t.mappings) (hb : m.Contains b) :
    Finds v inode b (sectorOf v m b) ↔ t.Reaches b := by
  constructor
  · rintro ⟨p, buf, hread, -⟩
    obtain ⟨x, hx, -⟩ := readExtentBlock_iff.mp hread
    have hends := (readExtentBlock_enter hf.root).mp hread
    have hs := hf.not_strays hm hb (le_refl b)
    obtain ⟨m', hm', hb', rfl⟩ := walk_block (le_refl _) hf.wellFormed hf.stored hf.root
      (fun hst => absurd hst hs) hends
    by_contra hr
    refine walk_of_not_reaches (le_refl _) hf.wellFormed hf.stored hf.root hr
      (fun hst => absurd hst hs) hends ⟨fun m'' hm'' hb'' => ?_, iff_of_false ?_ ?_⟩
    · rw [Tree.mapping_unique hf.wellFormed hm'' hm' hb'' hb']
      obtain ⟨_ | e, buf'⟩ := x
      · cases hx
      · obtain ⟨hp, hbuf⟩ := ReadResult.block.inj hx
        exact ⟨buf', by rw [hbuf, hp]⟩
    · rintro ⟨_, h⟩
      cases h
    · exact fun hn => hn m' hm' hb'
  · intro hr
    obtain ⟨r, hends, hans⟩ := walk_of_reaches (le_refl _) hf.wellFormed hf.stored hf.root hr
    obtain ⟨buf, rfl⟩ := hans.block m hm hb
    exact ⟨_, _, (readExtentBlock_enter hf.root).mpr hends, rfl⟩

end Mapped

/-! ## Placement -/

/-- The store has a block of a file where the file has it. -/
structure PlacedAt (db : Db KvStore.Key) (id blockSize b sector : ℕ) : Prop where
  pointer : db.keys (.sector sector) =
    some (.string (dataPointer (b * blockSize) ((b + 1) * blockSize) id))
  element : (db.listAt (.filesectors id)).bind (fun l => l[b]?) = some (sectorText sector)

/-- What it takes for that: the walk gets to the block and finds every block before it, and
neither a later block nor an index block lies at its sector. -/
structure Placeable (v : Volume) (inode : Inode) {d : ℕ} (t : Tree d) (b sector : ℕ) : Prop where
  reaches : t.Reaches b
  dense : ∀ c < b, ∃ s, Finds v inode c s
  last : ∀ c, b < c → c < numBlocks v inode → ¬ Finds v inode c sector
  data : ∀ c < numBlocks v inode, ¬ PassesIndex v inode c sector

section Placement

variable {v : Volume} {inode : Inode} {d : ℕ} {t : Tree d} {found : List (ℕ × ℕ)}
  {passed : List ℕ} {hp : ∀ e ∈ passed, e < 2 ^ 64} {id : ℕ} {db : Db KvStore.Key}
  {fields : List Field}

theorem placed_of_placeable (hf : FileOnDisk v inode t)
    (hc : Crawled v inode 0 (numBlocks v inode) found passed)
    (hnone : ∀ f ∈ fields, f.asSectors = none) (hempty : db.listAt (.filesectors id) = some [])
    {b : ℕ} (hlt : b < numBlocks v inode) {m : Mapping} (hm : m ∈ t.mappings) (hb : m.Contains b)
    (h : Placeable v inode t b (sectorOf v m b)) :
    PlacedAt (db.replay (fileCommands (ext4BlockSize v.superblock) id
        (fields ++ [sectorsField found, .extents passed hp]))) id (ext4BlockSize v.superblock) b
      (sectorOf v m b) := by
  have hfinds := (hf.finds_iff_reaches hm hb).mpr h.reaches
  have hsmall := hf.sectorOf_lt hm hb
  have hlow : ∀ e ∈ found, 0 ≤ e.1 := fun e _ => Nat.zero_le _
  have hdense : ∀ k ≤ b, ∃ s, (0 + k, s) ∈ found := by
    intro k hk
    rw [Nat.zero_add]
    rcases Nat.lt_or_eq_of_le hk with hk | rfl
    · obtain ⟨s, hs⟩ := h.dense k hk
      exact ⟨s, (hc.found k s).mpr ⟨Nat.zero_le _, by omega, hs⟩⟩
    · exact ⟨_, (hc.found k _).mpr ⟨Nat.zero_le _, by omega, hfinds⟩⟩
  obtain ⟨s, hs⟩ := getElem?_of_dense 0 hc.ordered hlow hdense
  rw [Nat.zero_add] at hs
  obtain rfl := ((hc.found b s).mp (List.mem_of_getElem? hs)).2.2.unique hfinds
  have hi : i32 (sectorOf v m b) = sectorOf v m b := i32_of_range (by omega) (by omega)
  have hu : u64 (i32 (sectorOf v m b)) = sectorOf v m b := by
    rw [hi, u64_natCast (by omega)]
  constructor
  · have hpassed : sectorOf v m b ∉ passed := by
      intro hmem
      obtain ⟨c, -, hclt, hpass⟩ := (hc.passed _).mp hmem
      exact h.data c (by omega) hpass
    rw [file_sector_last hpassed hs hu]
    · have hbs := hf.blockSize_pos.2
      have hblocks := hf.blocks
      have hstop : (b + 1) * ext4BlockSize v.superblock ≤ 2 ^ 32 * 2 ^ 31 :=
        Nat.mul_le_mul (by omega) hbs
      have hstart : b * ext4BlockSize v.superblock ≤ 2 ^ 32 * 2 ^ 31 :=
        Nat.mul_le_mul (by omega) hbs
      rw [Nat.mod_eq_of_lt (by omega), Nat.mod_eq_of_lt (by omega)]
    · rintro k ⟨c, s'⟩ hk he heq
      have hle := le_of_ordered 0 hc.ordered hlow he
      obtain ⟨-, hclt, hfound⟩ := (hc.found c s').mp (List.mem_of_getElem? he)
      dsimp only at hle heq
      obtain ⟨m', hm', hb', rfl⟩ := hf.mapped (hf.not_strays hm hb (by omega)) hfound
      have hsmall' := hf.sectorOf_lt hm' hb'
      rw [i32_of_range (by omega) (by omega), u64_natCast (by omega)] at heq
      exact h.last c (by omega) (by omega) (heq ▸ hfound)
  · rw [file_filesectors hnone hempty, Option.bind_some, List.getElem?_map, hs, Option.map_some, hi]

theorem placeable_of_placed (hf : FileOnDisk v inode t)
    (hc : Crawled v inode 0 (numBlocks v inode) found passed)
    (hnone : ∀ f ∈ fields, f.asSectors = none) (hempty : db.listAt (.filesectors id) = some [])
    (hplaced : ∀ b < numBlocks v inode, ∀ m ∈ t.mappings, m.Contains b →
      PlacedAt (db.replay (fileCommands (ext4BlockSize v.superblock) id
          (fields ++ [sectorsField found, .extents passed hp]))) id (ext4BlockSize v.superblock) b
        (sectorOf v m b))
    {b : ℕ} (hlt : b < numBlocks v inode) {m : Mapping} (hm : m ∈ t.mappings)
    (hb : m.Contains b) : Placeable v inode t b (sectorOf v m b) := by
  have hsmall := hf.sectorOf_lt hm hb
  have hlow : ∀ e ∈ found, 0 ≤ e.1 := fun e _ => Nat.zero_le _
  have hat := hplaced b hlt m hm hb
  -- two blocks at one sector would need two pointers in one place
  have honce : ∀ c, b ≤ c → c < numBlocks v inode → Finds v inode c (sectorOf v m b) → c = b := by
    intro c hle hclt hfinds
    obtain ⟨m', hm', hb', hs⟩ := hf.mapped (hf.not_strays hm hb hle) hfinds
    have hat' := (hplaced c hclt m' hm' hb').pointer
    rw [hs, hat.pointer] at hat'
    have hstart := dataPointer_start (Redis.Value.string.inj (Option.some.inj hat'))
    exact (Nat.eq_of_mul_eq_mul_right hf.blockSize_pos.1 hstart).symm
  have helement := hat.element
  rw [file_filesectors hnone hempty, Option.bind_some, List.getElem?_map,
    Option.map_eq_some_iff] at helement
  obtain ⟨⟨c, s⟩, he, htext⟩ := helement
  have hle := le_of_ordered 0 hc.ordered hlow he
  obtain ⟨-, hclt, hfound⟩ := (hc.found c s).mp (List.mem_of_getElem? he)
  dsimp only at hle htext
  rw [Nat.zero_add] at hle hclt
  have hs : s = sectorOf v m b := by
    obtain ⟨m', hm', hb', rfl⟩ := hf.mapped (hf.not_strays hm hb hle) hfound
    have hsmall' := hf.sectorOf_lt hm' hb'
    have htext' := sectorText_inj (i32_range _) (by omega) htext
    rw [i32_of_range (by omega) (by omega)] at htext'
    exact_mod_cast htext'
  subst hs
  obtain rfl := honce c hle hclt hfound
  refine ⟨(hf.finds_iff_reaches hm hb).mp hfound, fun k hk => ?_, fun k hk hklt hfinds => ?_,
    fun k hk hpass => ?_⟩
  · obtain ⟨s, hs⟩ := dense_of_getElem? 0 hc.ordered hlow (by rw [Nat.zero_add]; exact he) k (by omega)
    rw [Nat.zero_add] at hs
    exact ⟨s, ((hc.found k s).mp hs).2.2⟩
  · have heq := honce k (by omega) hklt hfinds
    omega
  · have hmem := (hc.passed _).mpr ⟨k, Nat.zero_le _, by omega, hpass⟩
    have hpointer := hat.pointer
    rw [file_sector_passed hmem] at hpointer
    exact reference_ne_dataPointer _ _ _ _ (Redis.Value.string.inj (Option.some.inj hpointer))

theorem file_loaded {o : Options} (st : Statics) (hf : FileOnDisk v inode t)
    (hdata : o.saveData = false)
    (hsave : o.saveExtents = true) {bits bits' : Bitarray}
    {serialized serialized' finished : BsonInfo}
    (hfields : Holds serialized (fileDocument fields).body)
    (hcrawl : Ext4SerializeFileSectors o v bits inode serialized bits' serialized')
    (hfin : bsonFinalize o.heap serialized' = some finished)
    (heap : Heap) {fuel : ℕ} (hfuel : (bsonWritef finished []).length < fuel) (locals : Locals)
    (hblock : st.super.blockSize = ext4BlockSize v.superblock)
    (hcount : st.fileCounter + 1 < 2 ^ 64) {store : Handle} (hs : Settled store) :
    ∃ found passed hp bson index bson' st' store',
      Crawled v inode 0 (numBlocks v inode) found passed ∧
      bsonReadf heap (bsonInit heap) ⟨bsonWritef finished [], 0⟩ = some (1, bson, index) ∧
      qemuLoadDocument heap fuel locals bson st store = some (true, bson', st', store') ∧
      store'.db = store.db.replay (fileCommands (ext4BlockSize v.superblock) st.fileCounter
        (fields ++ [sectorsField found, .extents passed hp])) := by
  obtain ⟨found, passed, hp, hc, hholds⟩ := fileSectors_document hdata hsave hf.not_symlink
    hf.blocks hfields hcrawl
  obtain ⟨hfinished, hroom⟩ := bsonFinalize_returns o.heap hholds hfin
  have hmax : maxSize = 1073741824 := rfl
  have hfile : bsonWritef finished [] =
      frame (fileDocument (fields ++ [sectorsField found, .extents passed hp])).body := by
    rw [bsonWritef, List.nil_append, hfinished.position, hfinished.contents]
  rw [hfile] at hfuel ⊢
  have hinit : (bsonInit heap).size ≤ (bsonInit heap).buffer.length :=
    (heap.malloc_length startSize).ge
  obtain ⟨bson, hread, hr⟩ := readf_document heap
    (f := ⟨frame (fileDocument (fields ++ [sectorsField found, .extents passed hp])).body, 0⟩)
    (by omega) hinit (List.append_nil _).symm
  obtain ⟨bson', store', hload, -, -, hdb⟩ := load_fields heap locals st _ (by omega) hfuel hr hs
    hcount
  refine ⟨found, passed, hp, bson, _, bson', _, store', hc, hread, hload, ?_⟩
  rw [hdb, hblock]
  rfl

end Placement

/-- Every block of a file is placed where the file has it just when the walk finds all blocks
up to the last one it maps, each at a sector of its own that is no index block's. -/
theorem blocks_placed_iff (o : Options) (v : Volume) (inode : Inode) (d : ℕ) (t : Tree d)
    (hf : FileOnDisk v inode t) (hdata : o.saveData = false) (hsave : o.saveExtents = true)
    (fields : List Field) (hnone : ∀ f ∈ fields, f.asSectors = none) (bits bits' : Bitarray)
    (serialized serialized' finished : BsonInfo)
    (hfields : Holds serialized (fileDocument fields).body)
    (hcrawl : Ext4SerializeFileSectors o v bits inode serialized bits' serialized')
    (hfin : bsonFinalize o.heap serialized' = some finished)
    (heap : Heap) (fuel : ℕ) (hfuel : (bsonWritef finished []).length < fuel) (locals : Locals)
    (st : Statics) (hblock : st.super.blockSize = ext4BlockSize v.superblock)
    (hcount : st.fileCounter + 1 < 2 ^ 64) (store : Handle) (hs : Settled store)
    (hempty : store.db.listAt (.filesectors st.fileCounter) = some []) :
    ∃ bson index bson' st' store',
      bsonReadf heap (bsonInit heap) ⟨bsonWritef finished [], 0⟩ = some (1, bson, index) ∧
      qemuLoadDocument heap fuel locals bson st store = some (true, bson', st', store') ∧
      ((∀ b < numBlocks v inode, ∀ m ∈ t.mappings, m.Contains b →
          PlacedAt store'.db st.fileCounter (ext4BlockSize v.superblock) b (sectorOf v m b)) ↔
        ∀ b < numBlocks v inode, ∀ m ∈ t.mappings, m.Contains b →
          Placeable v inode t b (sectorOf v m b)) := by
  obtain ⟨found, passed, hp, bson, index, bson', st', store', hc, hread, hload, hdb⟩ :=
    file_loaded st hf hdata hsave hfields hcrawl hfin heap hfuel locals hblock hcount hs
  refine ⟨bson, index, bson', st', store', hread, hload, ?_⟩
  rw [hdb]
  exact ⟨fun hplaced b hlt m hm hb => placeable_of_placed hf hc hnone hempty hplaced hlt hm hb,
    fun h b hlt m hm hb => placed_of_placeable hf hc hnone hempty hlt hm hb (h b hlt m hm hb)⟩

/-! ## A file of two blocks -/

/-- Of its two blocks those from `first` on lie on disk, from block 100 on. -/
def twoBlocks (first : ℕ) : Inode where
  iMode := 0x81a4
  iSizeLo := 2048
  iSizeHigh := 0
  iFlags := 0x80000
  iBlock := ⟨⟨leBytes 2 0xf30a ++ leBytes 2 1 ++ leBytes 2 4 ++ leBytes 2 0 ++ leBytes 4 0 ++
    leBytes 4 first ++ leBytes 2 (2 - first) ++ leBytes 2 0 ++ leBytes 4 100 ++
    List.replicate 36 0⟩, by simp⟩

def twoBlocksMap (first : ℕ) : Tree 0 := .leaf [⟨first, 2 - first, 100⟩]

theorem twoBlocks_onDisk (first : ℕ) (h : first < 2) :
    FileOnDisk (blankVolume 1024) (twoBlocks first) (twoBlocksMap first) := by
  interval_cases first <;> exact {
    regular := rfl
    extents := by decide
    blocks := by decide
    wellFormed := ⟨List.pairwise_singleton _ _, fun m hm => by
      rw [List.mem_singleton.mp hm]
      decide⟩
    root := ⟨rfl, fun i m hm => by
      match i, hm with
      | 0, hm => rw [← Option.some.inj hm]; rfl⟩
    stored := trivial
    blockSize := by decide
    partition := by decide
    onDisk := fun m hm => by
      rw [List.mem_singleton.mp hm]
      decide
    small := by decide }

def crawlOptions : Options := ⟨zeroHeap, 0, false, true⟩

/-- The document is crawled and finished. -/
theorem twoBlocks_crawled (first : ℕ) (h : first < 2) (bits : Bitarray) :
    ∃ serialized serialized' finished,
      Holds serialized (fileDocument [Field.path [47, 97]]).body ∧
      Ext4SerializeFileSectors crawlOptions (blankVolume 1024) bits (twoBlocks first) serialized
        bits serialized' ∧
      bsonFinalize zeroHeap serialized' = some finished ∧ (bsonWritef finished []).length < 200 := by
  have hf := twoBlocks_onDisk first h
  obtain ⟨serialized, -, hser⟩ := (fileDocument [Field.path [47, 97]]).serialize_appends zeroHeap
    (by decide) (bsonInit zeroHeap) [] (bsonInit_holds zeroHeap) (by decide)
  rw [List.nil_append] at hser
  obtain ⟨serialized', hcrawl, hhold⟩ := serializeFileSectors_total (o := crawlOptions)
    (v := blankVolume 1024) bits rfl rfl hf.root hser hf.not_symlink hf.extents hf.blocks
    (by interval_cases first <;> decide)
  obtain ⟨finished, hfin, hfinished⟩ := bsonFinalize_finished zeroHeap hhold
    (by interval_cases first <;> decide)
  refine ⟨serialized, serialized', finished, hser, hcrawl, hfin, ?_⟩
  rw [bsonWritef, List.nil_append, hfinished.position, hfinished.contents]
  interval_cases first <;> decide

def bareLocals : Locals := ⟨⟨⟨0, 0, 0, 0, 0⟩, ⟨0, 0, 0, 0, 0⟩⟩, ⟨0, 0, 0, 0, 0, 0⟩⟩

/-- The statics behind a file system with blocks of 1024 bytes. -/
def smallBlocks : Statics := ⟨0, 0, 0, ⟨0, 0, 1024, 0, 0, 0⟩⟩

theorem twoBlocks_reaches (first b : ℕ) (h : first < 2) : (twoBlocksMap first).Reaches b := by
  intro m hm _
  rw [List.mem_singleton.mp hm]
  dsimp only
  omega

theorem twoBlocks_placeable {b : ℕ} (hb : b < 2) :
    Placeable (blankVolume 1024) (twoBlocks 0) (twoBlocksMap 0) b (202 + 2 * b) := by
  have hf := twoBlocks_onDisk 0 (by decide)
  have hm : (⟨0, 2, 100⟩ : Mapping) ∈ (twoBlocksMap 0).mappings := List.mem_singleton_self _
  have hsector : ∀ c < 2, sectorOf (blankVolume 1024) ⟨0, 2, 100⟩ c = 202 + 2 * c := by decide
  refine ⟨twoBlocks_reaches 0 b (by decide), fun c hc => ?_, fun c hlt hc hfinds => ?_,
    fun c _ => not_passes_leaf hf.root.header⟩
  · exact ⟨_, (hf.finds_iff_reaches hm ⟨Nat.zero_le c, by dsimp only; omega⟩).mpr
      (twoBlocks_reaches 0 c (by decide))⟩
  · have hfound := (hf.finds_iff_reaches hm ⟨Nat.zero_le c, by
      change c < 0 + 2
      exact lt_of_lt_of_eq hc (by decide)⟩).mpr (twoBlocks_reaches 0 c (by decide))
    have heq := hfound.unique hfinds
    rw [hsector c (lt_of_lt_of_eq hc (by decide))] at heq
    omega

theorem blocks_placed_twoBlocks :
    ∃ serialized serialized' finished bson index bson' st' store',
      Ext4SerializeFileSectors crawlOptions (blankVolume 1024) (Bitarray.init zeroHeap 64)
        (twoBlocks 0) serialized (Bitarray.init zeroHeap 64) serialized' ∧
      bsonFinalize zeroHeap serialized' = some finished ∧
      bsonReadf zeroHeap (bsonInit zeroHeap) ⟨bsonWritef finished [], 0⟩ = some (1, bson, index) ∧
      qemuLoadDocument zeroHeap 200 bareLocals bson smallBlocks (redisInit Db.empty 0) =
        some (true, bson', st', store') ∧
      PlacedAt store'.db 0 1024 0 202 ∧ PlacedAt store'.db 0 1024 1 204 := by
  obtain ⟨serialized, serialized', finished, hser, hcrawl, hfin, hlen⟩ :=
    twoBlocks_crawled 0 (by decide) (Bitarray.init zeroHeap 64)
  obtain ⟨bson, index, bson', st', store', hread, hload, hiff⟩ := blocks_placed_iff crawlOptions
    (blankVolume 1024) (twoBlocks 0) 0 (twoBlocksMap 0) (twoBlocks_onDisk 0 (by decide)) rfl rfl
    [.path [47, 97]] (by simp [Field.asSectors]) _ _ serialized serialized' finished hser hcrawl
    hfin zeroHeap 200 hlen bareLocals smallBlocks (by decide) (by decide) (redisInit Db.empty 0)
    (redisInit_settled Db.empty 0) rfl
  have hplaced := hiff.mpr fun b hb m hm _ => by
    have hb' : b < 2 := lt_of_lt_of_eq hb (by decide)
    rw [List.mem_singleton.mp hm]
    have hsector : sectorOf (blankVolume 1024) ⟨0, 2 - 0, 100⟩ b = 202 + 2 * b := by
      interval_cases b <;> decide
    rw [hsector]
    exact twoBlocks_placeable hb'
  exact ⟨serialized, serialized', finished, bson, index, bson', st', store', hcrawl, hfin, hread,
    hload, hplaced 0 (by decide) ⟨0, 2, 100⟩ (List.mem_singleton_self _) (by decide),
    hplaced 1 (by decide) ⟨0, 2, 100⟩ (List.mem_singleton_self _) (by decide)⟩

/-- With a hole in front of it a block is taken for the one before it. -/
theorem sparse_file_misplaced :
    ∃ serialized serialized' finished bson index bson' st' store',
      FileOnDisk (blankVolume 1024) (twoBlocks 1) (twoBlocksMap 1) ∧
      Holds serialized (fileDocument [Field.path [47, 97]]).body ∧
      Ext4SerializeFileSectors crawlOptions (blankVolume 1024) (Bitarray.init zeroHeap 64)
        (twoBlocks 1) serialized (Bitarray.init zeroHeap 64) serialized' ∧
      bsonFinalize zeroHeap serialized' = some finished ∧
      bsonReadf zeroHeap (bsonInit zeroHeap) ⟨bsonWritef finished [], 0⟩ = some (1, bson, index) ∧
      qemuLoadDocument zeroHeap 200 bareLocals bson smallBlocks (redisInit Db.empty 0) =
        some (true, bson', st', store') ∧
      (⟨1, 1, 100⟩ : Mapping) ∈ (twoBlocksMap 1).mappings ∧
      sectorOf (blankVolume 1024) ⟨1, 1, 100⟩ 1 = 202 ∧
      ¬ PlacedAt store'.db 0 1024 1 202 := by
  have hf := twoBlocks_onDisk 1 (by decide)
  obtain ⟨serialized, serialized', finished, hser, hcrawl, hfin, hlen⟩ :=
    twoBlocks_crawled 1 (by decide) (Bitarray.init zeroHeap 64)
  obtain ⟨found, passed, hp, bson, index, bson', st', store', hc, hread, hload, hdb⟩ :=
    file_loaded smallBlocks hf rfl rfl hser hcrawl hfin zeroHeap hlen bareLocals rfl
      (by decide) (redisInit_settled Db.empty 0)
  refine ⟨serialized, serialized', finished, bson, index, bson', st', store', hf, hser, hcrawl,
    hfin, hread, hload, List.mem_singleton_self _, by decide, fun hat => ?_⟩
  have hplaced : ∀ b < numBlocks (blankVolume 1024) (twoBlocks 1), ∀ m ∈ (twoBlocksMap 1).mappings,
      m.Contains b → PlacedAt store'.db 0 1024 b (sectorOf (blankVolume 1024) m b) := by
    intro b _ m hm hb
    rw [List.mem_singleton.mp hm] at hb ⊢
    obtain rfl : b = 1 := by
      obtain ⟨hle, hlt⟩ := hb
      dsimp only at hle hlt
      omega
    exact hat
  rw [hdb] at hplaced
  have hdense := (placeable_of_placed hf hc (by simp [Field.asSectors]) rfl hplaced (b := 1)
    (by decide) (List.mem_singleton_self _) (by decide)).dense 0 (by decide)
  obtain ⟨s, hs⟩ := hdense
  obtain ⟨m, hm, hb, -⟩ := hf.mapped (by simp only [Tree.Strays, not_false_eq_true]) hs
  rw [List.mem_singleton.mp hm] at hb
  exact absurd hb (by decide)

end GammaRay.Loader
