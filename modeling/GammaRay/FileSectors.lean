import GammaRay.ExtentAgreement
import GammaRay.ExtentLookup
import GammaRay.FileRecord

set_option autoImplicit false

/-!
# The sectors of a file

`ext4_serialize_file_sectors` on a file mapped by extents, and the entries that a call which
returns has appended: one for each block that the walk finds, in the order of the blocks, and
one for each index block that the walk passes at the key that leads there.
-/
namespace GammaRay.Ext4
open Bytes Decimal Bson
open KvStore (ascii)
open Loader (decKey Field)

def ext4FileSize (inode : Inode) : ℕ := inode.iSizeHigh <<< 32 ||| inode.iSizeLo

/-- `num_blocks`, before the loop counts it down. -/
def numBlocks (v : Volume) (inode : Inode) : ℕ :=
  let blockSize := ext4BlockSize v.superblock
  let fileSize := ext4FileSize inode
  if fileSize = 0 then 0
  else if fileSize % blockSize ≠ 0 then fileSize / blockSize + 1 else fileSize / blockSize

/-- The loop over the blocks from `count` on, for a file mapped by extents. A positive result
of a round ends the process. -/
inductive SerializeBlocks (o : Options) (v : Volume) (inode : Inode) :
    ℕ → ℕ → Records → Records → Prop where
  | done {count : ℕ} {r : Records} : SerializeBlocks o v inode count 0 r r
  | next {count n : ℕ} {ret : ℤ} {r r₁ r' : Records}
      (round : Ext4SerializeFileExtentSectors o v (count % 2 ^ 32) inode r ret r₁)
      (going : ret ≤ 0) (rest : SerializeBlocks o v inode (count + 1) n r₁ r') :
      SerializeBlocks o v inode count (n + 1) r r'

def arrayKv (key : String) (document : BsonInfo) : BsonKv :=
  ⟨.array, 0, 0, ascii key, .document document⟩

def serializeArray (h : Heap) (key : String) (array serialized : BsonInfo) : Option BsonInfo := do
  let array ← bsonFinalize h array
  bsonSerialize h serialized (arrayKv key array)

/-- What follows the label `skip`. -/
def serializeArrays (o : Options) (r : Records) (serialized : BsonInfo) : Option BsonInfo := do
  let serialized ← serializeArray o.heap "sectors" r.sectors serialized
  let serialized ←
    if o.saveData then serializeArray o.heap "data" r.data serialized else some serialized
  if o.saveExtents then serializeArray o.heap "extents" r.extents serialized else some serialized

def Records.init (h : Heap) (bits : Bitarray) : Records := ⟨bits, bsonInit h, bsonInit h, bsonInit h⟩

/-- `ext4_serialize_file_sectors` returns with these bits and this document. -/
def Ext4SerializeFileSectors (o : Options) (v : Volume) (bits : Bitarray) (inode : Inode)
    (serialized : BsonInfo) (bits' : Bitarray) (serialized' : BsonInfo) : Prop :=
  ∃ r : Records, r.bits = bits' ∧ serializeArrays o r serialized = some serialized' ∧
    if inode.iMode &&& 0xa000 = 0xa000 then r = .init o.heap bits
    else inode.iFlags &&& 0x80000 ≠ 0 ∧
      SerializeBlocks o v inode 0 (numBlocks v inode) (.init o.heap bits) r

/-- The bits of the mode that tell the kinds of inode apart. -/
theorem mode_and {mode kind bits : ℕ} (h : mode &&& 0xf000 = kind) (hb : 0xf000 &&& bits = bits) :
    mode &&& bits = kind &&& bits := by
  rw [← h, Nat.and_assoc, hb]

/-! ## One block -/

section Block

variable {o : Options} {v : Volume} {b : ℕ}

/-- The walk finds the block, and it lies at this sector. -/
def Finds (v : Volume) (inode : Inode) (b sector : ℕ) : Prop :=
  ∃ p buf, Ext4ReadExtentBlock v b inode (.block p buf) ∧ ext4SectorFromBlock p v = sector

/-- The sector of the index block that an entry leads to. -/
def indexSector (v : Volume) (idx : ExtentIdx) : ℕ :=
  u64 ((ext4ExtentIndexLeaf idx * (ext4BlockSize v.superblock / sectorSize) : ℕ) +
    v.partitionOffset.tdiv sectorSize)

/-- From here on the walk for block `b` follows an entry with the key `b` to this sector. -/
inductive Passes (v : Volume) (b : ℕ) : WalkState → ℕ → Prop where
  | here {w t : WalkState} {idx : ExtentIdx} (h : walkStep v b w = some (.inl t))
      (hf : followed b w = some idx) (hb : idx.eiBlock = b) : Passes v b w (indexSector v idx)
  | later {w t : WalkState} {sector : ℕ} (h : walkStep v b w = some (.inl t))
      (ht : Passes v b t sector) : Passes v b w sector

def PassesIndex (v : Volume) (inode : Inode) (b sector : ℕ) : Prop :=
  Passes v b (rootState inode) sector

def indexBytes (sector : ℕ) : List UInt8 :=
  [0x12] ++ ((dec sector ++ [0]) ++ leBytes 8 sector)

theorem finds_iff {inode : Inode} {sector : ℕ} :
    Finds v inode b sector ↔ ∃ e buf, Loop.Ends (walkStep v b) (rootState inode) (some e, buf) ∧
      ext4SectorFromBlock (e.physical b) v = sector := by
  constructor
  · rintro ⟨p, buf, hread, hsector⟩
    obtain ⟨⟨_ | e, buf'⟩, hx, hends⟩ := readExtentBlock_iff.mp hread
    · cases hx
    · obtain ⟨rfl, -⟩ := ReadResult.block.inj hx
      exact ⟨e, buf', hends, hsector⟩
  · rintro ⟨e, buf, hends, hsector⟩
    exact ⟨_, _, readExtentBlock_iff.mpr ⟨_, rfl, hends⟩, hsector⟩

theorem finds_of_ends {inode : Inode} {x : Option Extent × Buffer} {sector : ℕ}
    (hx : Loop.Ends (walkStep v b) (rootState inode) x) :
    Finds v inode b sector ↔ ∃ e ∈ x.1, ext4SectorFromBlock (e.physical b) v = sector := by
  rw [finds_iff]
  constructor
  · rintro ⟨e, buf, hends, hsector⟩
    obtain rfl := hx.unique hends
    exact ⟨e, rfl, hsector⟩
  · rintro ⟨e, he, hsector⟩
    obtain ⟨_, buf⟩ := x
    obtain rfl : _ = some e := he
    exact ⟨e, buf, hx, hsector⟩

theorem Finds.unique {inode : Inode} {sector sector' : ℕ} (h : Finds v inode b sector)
    (h' : Finds v inode b sector') : sector = sector' := by
  obtain ⟨e, buf, hends, rfl⟩ := finds_iff.mp h
  obtain ⟨e', he', rfl⟩ := (finds_of_ends hends).mp h'
  rw [Option.some.inj he']

theorem not_passes_of_leave {w : WalkState} {x : Option Extent × Buffer} {sector : ℕ}
    (h : walkStep v b w = some (.inr x)) : ¬ Passes v b w sector := by
  rintro (⟨ht, -, -⟩ | ⟨ht, -⟩)
  · cases h.symm.trans ht
  · cases h.symm.trans ht

theorem passes_again {w t : WalkState} {sector : ℕ} (h : walkStep v b w = some (.inl t)) :
    Passes v b w sector ↔
      (∃ idx, followed b w = some idx ∧ idx.eiBlock = b ∧ indexSector v idx = sector) ∨
        Passes v b t sector := by
  constructor
  · rintro (⟨-, hf, hb⟩ | ⟨ht, hp⟩)
    · exact Or.inl ⟨_, hf, hb, rfl⟩
    · obtain rfl := Sum.inl.inj (Option.some.inj (h.symm.trans ht))
      exact Or.inr hp
  · rintro (⟨idx, hf, hb, rfl⟩ | hp)
    · exact .here h hf hb
    · exact .later h hp

theorem recordIndex_writes {idx : ExtentIdx} {r r' : Records} {es : List UInt8}
    (hsave : o.saveExtents = true) (h : recordIndex o v b idx r = some r')
    (hes : Holds r.extents es) :
    Holds r'.extents (es ++ if idx.eiBlock = b then indexBytes (indexSector v idx) else []) := by
  unfold recordIndex at h
  by_cases hb : idx.eiBlock = b
  · rw [if_pos ⟨hsave, hb.symm⟩] at h
    simp only [Option.bind_eq_bind, Option.bind_eq_some_iff, Option.some.injEq] at h
    obtain ⟨s, hs, rfl⟩ := h
    rw [if_pos hb]
    have hp := serializeFixed_writes o.heap (leBytes 8 (indexSector v idx)) []
    rw [List.append_nil, leBytes_length] at hp
    exact serializeElement_writes o.heap ⟨.int64, 0, 0, dec (indexSector v idx),
      .bytes (leBytes 8 (indexSector v idx))⟩ (dec_noNul _) hp r.extents es s hes hs
  · rw [if_neg fun hc => hb hc.2.symm] at h
    rw [← Option.some.inj h, if_neg hb, List.append_nil]
    exact hes

theorem pass_writes {w : WalkState} {r r' : Records} {es : List UInt8}
    (hsave : o.saveExtents = true) (h : pass o v b w r = some r') (hes : Holds r.extents es) :
    ∃ l : List ℕ, Holds r'.extents (es ++ l.flatMap indexBytes) ∧ ∀ sector, sector ∈ l ↔
      ∃ idx, followed b w = some idx ∧ idx.eiBlock = b ∧ indexSector v idx = sector := by
  unfold pass at h
  cases hf : followed b w with
  | none =>
    rw [hf] at h
    obtain rfl := Option.some.inj h
    refine ⟨[], ?_, fun sector => iff_of_false List.not_mem_nil ?_⟩
    · rw [List.flatMap_nil, List.append_nil]
      exact hes
    · rintro ⟨_, hidx, -⟩
      cases hidx
  | some idx =>
    rw [hf] at h
    have hw := recordIndex_writes hsave h hes
    by_cases hb : idx.eiBlock = b
    · refine ⟨[indexSector v idx], ?_, fun sector => ?_⟩
      · rw [if_pos hb] at hw
        rw [List.flatMap_singleton]
        exact hw
      · rw [List.mem_singleton]
        constructor
        · rintro rfl
          exact ⟨idx, rfl, hb, rfl⟩
        · rintro ⟨_, hidx, -, rfl⟩
          rw [Option.some.inj hidx]
    · refine ⟨[], ?_, fun sector => iff_of_false List.not_mem_nil ?_⟩
      · rw [if_neg hb] at hw
        exact hw
      · rintro ⟨_, hidx, hb', -⟩
        exact hb (Option.some.inj hidx ▸ hb')

theorem recordBlock_writes {e : Extent} {buf : Buffer} {r r' : Records} {ws : List UInt8}
    (hd : o.saveData = false) (hb : b < 2 ^ 32) (ht : e.takes b = true)
    (h : recordBlock o v b e buf r = some r') (hws : Holds r.sectors ws) :
    Holds r'.sectors (ws ++ sectorBytes b (ext4SectorFromBlock (e.physical b) v)) ∧
      r'.extents = r.extents := by
  rw [recordBlock_eq hd hb ht, Option.map_eq_some_iff] at h
  obtain ⟨s, hs, rfl⟩ := h
  refine ⟨?_, rfl⟩
  have hsplit : leBytes 8 (ext4SectorFromBlock (e.physical b) v) =
      leBytes 4 (ext4SectorFromBlock (e.physical b) v) ++
        leBytes 4 (ext4SectorFromBlock (e.physical b) v / 256 / 256 / 256 / 256) := rfl
  have hp := serializeFixed_writes o.heap (leBytes 4 (ext4SectorFromBlock (e.physical b) v))
    (leBytes 4 (ext4SectorFromBlock (e.physical b) v / 256 / 256 / 256 / 256))
  rw [← hsplit, leBytes_length] at hp
  exact serializeElement_writes o.heap (sectorEntry b _) (dec_noNul b) hp r.sectors ws s hws hs

/-- What a round over one block has appended to the two arrays. -/
theorem serialize_writes (hd : o.saveData = false) (hsave : o.saveExtents = true)
    (hb : b < 2 ^ 32) {w : WalkState} {r r' : Records} {ret : ℤ} {ws es : List UInt8}
    (h : Loop.Ends (ext4SerializeExtentStep o v b) ⟨w, r⟩ (ret, r')) (hws : Holds r.sectors ws)
    (hes : Holds r.extents es) :
    ∃ (x : Option Extent × Buffer) (passed : List ℕ), Loop.Ends (walkStep v b) w x ∧
      Holds r'.sectors (ws ++ x.1.elim [] fun e =>
        sectorBytes b (ext4SectorFromBlock (e.physical b) v)) ∧
      Holds r'.extents (es ++ passed.flatMap indexBytes) ∧
      ∀ sector, sector ∈ passed ↔ Passes v b w sector := by
  generalize hs : (⟨w, r⟩ : SerializeState) = s at h
  generalize hy : (ret, r') = y at h
  induction h generalizing w r es with
  | leave h' =>
    subst hs hy
    rcases serializeStep_leave_iff.mp h' with ⟨e, buf, hw, hr, -⟩ | ⟨buf, hw, rfl, -⟩
    · obtain ⟨ht, -⟩ := walkStep_taken hw
      obtain ⟨hsec, hext⟩ := recordBlock_writes hd hb ht hr hws
      refine ⟨(some e, buf), [], .leave hw, hsec, ?_, fun sector =>
        iff_of_false List.not_mem_nil (not_passes_of_leave hw)⟩
      rw [hext, List.flatMap_nil, List.append_nil]
      exact hes
    · refine ⟨(none, buf), [], .leave hw, ?_, ?_, fun sector =>
        iff_of_false List.not_mem_nil (not_passes_of_leave hw)⟩
      · rw [Option.elim_none, List.append_nil]
        exact hws
      · rw [List.flatMap_nil, List.append_nil]
        exact hes
  | again h' _ ih =>
    subst hs
    obtain ⟨t, r₁, hw, hr, rfl⟩ := serializeStep_again_iff.mp h'
    obtain ⟨l, hl, hmem⟩ := pass_writes hsave hr hes
    obtain ⟨x, passed, hx, hsec, hext, hpass⟩ := ih
      (by rw [(pass_keeps hr).sectors]; exact hws) hl rfl hy
    refine ⟨x, l ++ passed, .again hw hx, hsec, ?_, fun sector => ?_⟩
    · rw [List.flatMap_append, ← List.append_assoc]
      exact hext
    · rw [List.mem_append, hmem, hpass, passes_again hw]

end Block

/-! ## All blocks -/

/-- The entries for `n` blocks from block `first` on. -/
structure Crawled (v : Volume) (inode : Inode) (first n : ℕ) (entries : List (ℕ × ℕ))
    (indices : List ℕ) : Prop where
  found : ∀ b sector, (b, sector) ∈ entries ↔ first ≤ b ∧ b < first + n ∧ Finds v inode b sector
  ordered : entries.Pairwise fun e e' => e.1 < e'.1
  passed : ∀ sector, sector ∈ indices ↔
    ∃ b, first ≤ b ∧ b < first + n ∧ PassesIndex v inode b sector

theorem Crawled.none {v : Volume} {inode : Inode} {first : ℕ} :
    Crawled v inode first 0 [] [] where
  found b sector := iff_of_false List.not_mem_nil (by omega)
  ordered := List.Pairwise.nil
  passed sector := iff_of_false List.not_mem_nil (by
    rintro ⟨b, hle, hlt, -⟩
    omega)

/-- One block more, in front. -/
theorem Crawled.cons {v : Volume} {inode : Inode} {first n : ℕ} {found : List (ℕ × ℕ)}
    {passed l : List ℕ} {x : Option Extent × Buffer} (h : Crawled v inode (first + 1) n found passed)
    (hx : Loop.Ends (walkStep v first) (rootState inode) x)
    (hl : ∀ sector, sector ∈ l ↔ PassesIndex v inode first sector) :
    Crawled v inode first (n + 1)
      ((x.1.map fun e => (first, ext4SectorFromBlock (e.physical first) v)).toList ++ found)
      (l ++ passed) := by
  have hhead : ∀ b sector,
      (b, sector) ∈ (x.1.map fun e => (first, ext4SectorFromBlock (e.physical first) v)).toList ↔
        b = first ∧ Finds v inode first sector := by
    intro b sector
    rw [Option.mem_toList, Option.map_eq_some_iff, finds_of_ends hx]
    constructor
    · rintro ⟨e, he, heq⟩
      obtain ⟨rfl, rfl⟩ := Prod.mk.inj heq
      exact ⟨rfl, e, he, rfl⟩
    · rintro ⟨rfl, e, he, rfl⟩
      exact ⟨e, he, rfl⟩
  refine ⟨fun b sector => ?_, ?_, fun sector => ?_⟩
  · rw [List.mem_append, hhead, h.found]
    constructor
    · rintro (⟨rfl, hf⟩ | ⟨hle, hlt, hf⟩)
      · exact ⟨le_refl _, by omega, hf⟩
      · exact ⟨by omega, by omega, hf⟩
    · rintro ⟨hle, hlt, hf⟩
      rcases Nat.eq_or_lt_of_le hle with rfl | hlt'
      · exact Or.inl ⟨rfl, hf⟩
      · exact Or.inr ⟨hlt', by omega, hf⟩
  · rw [List.pairwise_append]
    refine ⟨?_, h.ordered, ?_⟩
    · cases x.1 with
      | none => exact List.Pairwise.nil
      | some e => exact List.pairwise_singleton _ _
    · rintro ⟨b, sector⟩ he ⟨b', sector'⟩ he'
      obtain ⟨rfl, -⟩ := (hhead b sector).mp he
      exact ((h.found b' sector').mp he').1
  · rw [List.mem_append, hl, h.passed]
    constructor
    · rintro (hp | ⟨b, hle, hlt, hp⟩)
      · exact ⟨first, le_refl _, by omega, hp⟩
      · exact ⟨b, by omega, by omega, hp⟩
    · rintro ⟨b, hle, hlt, hp⟩
      rcases Nat.eq_or_lt_of_le hle with rfl | hlt'
      · exact Or.inl hp
      · exact Or.inr ⟨b, hlt', by omega, hp⟩

theorem serializeBlocks_writes {o : Options} {v : Volume} {inode : Inode} {first n : ℕ}
    {r r' : Records} {ws es : List UInt8} (hd : o.saveData = false) (hsave : o.saveExtents = true)
    (h : SerializeBlocks o v inode first n r r') (hend : first + n ≤ 2 ^ 32)
    (hws : Holds r.sectors ws) (hes : Holds r.extents es) :
    ∃ found passed, Crawled v inode first n found passed ∧
      Holds r'.sectors (ws ++ found.flatMap fun e => sectorBytes e.1 e.2) ∧
      Holds r'.extents (es ++ passed.flatMap indexBytes) := by
  induction h generalizing ws es with
  | done =>
    refine ⟨[], [], .none, ?_, ?_⟩
    · rw [List.flatMap_nil, List.append_nil]
      exact hws
    · rw [List.flatMap_nil, List.append_nil]
      exact hes
  | @next count n ret r r₁ r' hround hgoing hrest ih =>
    rw [Nat.mod_eq_of_lt (by omega)] at hround
    obtain ⟨x, l, hx, hsec, hext, hl⟩ := serialize_writes hd hsave (by omega) hround hws hes
    obtain ⟨found, passed, hc, hsec', hext'⟩ := ih (by omega) hsec hext
    refine ⟨_, _, hc.cons hx hl, ?_, ?_⟩
    · rw [List.flatMap_append, ← List.append_assoc]
      cases hx1 : x.1 with
      | none =>
        rw [hx1] at hsec'
        exact hsec'
      | some e =>
        rw [hx1] at hsec'
        rw [Option.map_some, Option.toList_some, List.flatMap_singleton]
        exact hsec'
    · rw [List.flatMap_append, ← List.append_assoc]
      exact hext'

/-! ## The arrays -/

theorem sectors_bytes (found : List (ℕ × ℕ)) :
    (found.flatMap fun e => sectorBytes e.1 e.2) =
      (Document.ofElements (found.map fun e => Field.sectorsEntry (decKey e.1, e.2))).body := by
  induction found with
  | nil => rfl
  | cons e found ih =>
    rw [List.flatMap_cons, ih, sectorBytes, List.append_assoc, List.append_assoc]
    rfl

theorem indices_bytes (passed : List ℕ) :
    passed.flatMap indexBytes = (Document.ofElements (passed.map Field.extentsEntry)).body := by
  induction passed with
  | nil => rfl
  | cons s passed ih =>
    rw [List.flatMap_cons, ih, indexBytes, List.append_assoc, List.append_assoc]
    rfl

theorem serializeArray_writes (h : Heap) {key : String} (hkey : 0 ∉ ascii key)
    {array serialized serialized' : BsonInfo} {w u : List UInt8} (hw : Holds array w)
    (hu : Holds serialized u) (hs : serializeArray h key array serialized = some serialized') :
    Holds serialized' (u ++ ([0x04] ++ ((ascii key ++ [0]) ++ frame w))) := by
  obtain ⟨finished, hf, hs⟩ := Option.bind_eq_some_iff.mp hs
  have hp := serializeDocument_writes h (bsonFinalize_returns h hw hf).1
  exact serializeElement_writes h (arrayKv key finished) hkey hp serialized u serialized' hu hs

/-! ## Files without index blocks -/

section Total

variable {o : Options} {v : Volume} {b : ℕ} {inode : Inode}

theorem Passes.of_leads {w t : WalkState} {sector : ℕ} (h : Loop.Leads (walkStep v b) w t)
    (ht : Passes v b t sector) : Passes v b w sector := by
  induction h with
  | refl => exact ht
  | step hs _ ih => exact .later hs (ih ht)

/-- A walk that passes no index block of its number records none. -/
theorem pass_of_quiet {w t u : WalkState} {r : Records} (hq : ∀ sector, ¬ Passes v b w sector)
    (ht : Loop.Leads (walkStep v b) w t) (hu : walkStep v b t = some (.inl u)) :
    pass o v b t r = some r := by
  rw [pass]
  cases hf : followed b t with
  | none => rfl
  | some idx =>
    rw [Option.elim_some, recordIndex, if_neg]
    exact fun hc => hq _ (.of_leads ht (.here hu hf hc.2.symm))

/-- What `n` blocks from `first` on add to `sectors`, by what the walk comes to for each. -/
def blockBytes (v : Volume) (x : ℕ → Option Extent × Buffer) (first n : ℕ) : List UInt8 :=
  (List.range' first n).flatMap fun b =>
    (x b).1.elim [] fun e => sectorBytes b (ext4SectorFromBlock (e.physical b) v)

theorem serializeBlocks_total {x : ℕ → Option Extent × Buffer} {first n : ℕ} {r : Records}
    {ws : List UInt8} (hd : o.saveData = false) (hend : first + n ≤ 2 ^ 32)
    (hx : ∀ b < first + n, Loop.Ends (walkStep v b) (rootState inode) (x b))
    (hq : ∀ b sector, ¬ PassesIndex v inode b sector) (hws : Holds r.sectors ws)
    (hroom : (ws ++ blockBytes v x first n).length ≤ maxSize) :
    ∃ r', SerializeBlocks o v inode first n r r' ∧
      Holds r'.sectors (ws ++ blockBytes v x first n) ∧ r'.extents = r.extents ∧
      r'.bits = r.bits := by
  induction n generalizing first r ws with
  | zero =>
    refine ⟨r, .done, ?_, rfl, rfl⟩
    rw [blockBytes, List.range'_zero, List.flatMap_nil, List.append_nil]
    exact hws
  | succ n ih =>
    have hsplit : ws ++ blockBytes v x first (n + 1) =
        (ws ++ (x first).1.elim [] fun e =>
          sectorBytes first (ext4SectorFromBlock (e.physical first) v)) ++
            blockBytes v x (first + 1) n := by
      rw [blockBytes, List.range'_succ, List.flatMap_cons, List.append_assoc, blockBytes]
    rw [hsplit] at hroom ⊢
    have hfirst := hx first (by omega)
    have hmod : first % 2 ^ 32 = first := Nat.mod_eq_of_lt (by omega)
    have hround : ∃ ret r₁, Ext4SerializeFileExtentSectors o v (first % 2 ^ 32) inode r ret r₁ ∧
        ret ≤ 0 ∧ Holds r₁.sectors (ws ++ (x first).1.elim [] fun e =>
          sectorBytes first (ext4SectorFromBlock (e.physical first) v)) ∧
        r₁.extents = r.extents ∧ r₁.bits = r.bits := by
      rw [hmod]
      generalize x first = y at hfirst hroom ⊢
      obtain ⟨_ | e, buf⟩ := y
      · refine ⟨-1, r, serialize_of_unrecorded hfirst (fun _ _ => pass_of_quiet (hq first))
          (fun e he => (by cases he)) (fun _ => rfl), by decide, ?_, rfl, rfl⟩
        rw [Option.elim_none, List.append_nil]
        exact hws
      · rw [Option.elim_some, List.length_append] at hroom
        obtain ⟨s, hs, hhold⟩ := sectorEntry_appends o.heap first
          (ext4SectorFromBlock (e.physical first) v) r.sectors ws hws
          (by rw [List.length_append] at hroom; omega)
        refine ⟨0, { r with sectors := s }, serialize_of_unrecorded hfirst
          (fun _ _ => pass_of_quiet (hq first)) ?_ (fun hn => (by cases hn)),
          by decide, hhold, rfl, rfl⟩
        intro e' he'
        obtain rfl := Option.some.inj he'
        dsimp only at hs
        rw [recordBlock_eq hd (by omega) (walk_taken hfirst).1, hs, Option.map_some]
    obtain ⟨ret, r₁, hr₁, hret, hsec, hext, hbits⟩ := hround
    obtain ⟨r', hrest, hsec', hext', hbits'⟩ := ih (by omega) (fun b hb => hx b (by omega)) hsec
      hroom
    exact ⟨r', .next hr₁ hret hrest, hsec', hext'.trans hext, hbits'.trans hbits⟩

theorem serializeArray_holds (h : Heap) (key : String) (hkey : 0 ∉ ascii key)
    {array serialized : BsonInfo} {w u : List UInt8} (hw : Holds array w) (hu : Holds serialized u)
    (hroom : (u ++ ([0x04] ++ ((ascii key ++ [0]) ++ frame w))).length ≤ maxSize) :
    ∃ serialized', serializeArray h key array serialized = some serialized' ∧
      Holds serialized' (u ++ ([0x04] ++ ((ascii key ++ [0]) ++ frame w))) := by
  have hroom' := hroom
  simp only [List.length_append, frame_length] at hroom'
  obtain ⟨finished, hf, hfin⟩ := bsonFinalize_finished h hw (by omega)
  have hp := serializeDocument_appends h hfin
  obtain ⟨serialized', hs, hhold⟩ := serializeElement_appends h (arrayKv key finished) hkey hp
    serialized u hu (by rw [List.length_append] at hroom; exact hroom)
  exact ⟨serialized', (Loop.bind_of_some hf _).trans hs, hhold⟩

theorem serializeArrays_eq {r : Records} {serialized s₁ s₂ : BsonInfo} (hd : o.saveData = false)
    (hsave : o.saveExtents = true)
    (hs₁ : serializeArray o.heap "sectors" r.sectors serialized = some s₁)
    (hs₂ : serializeArray o.heap "extents" r.extents s₁ = some s₂) :
    serializeArrays o r serialized = some s₂ := by
  rw [serializeArrays, Loop.bind_of_some hs₁, hd, if_neg Bool.false_ne_true,
    Loop.bind_of_some rfl, hsave]
  exact hs₂

/-- The extent as a leaf of the tree stores it. -/
def Mapping.extent (m : Mapping) : Extent := ⟨m.block, m.len, 0, m.start⟩

theorem physical_extent (m : Mapping) : m.extent.physical b = m.start + (b - m.block) := by
  rw [Extent.physical, Mapping.extent, extentStart_lo]

theorem walk_leaf {buf : Buffer} {ms : List Mapping} {idx : ExtentIdx} {n i : ℕ}
    (hh : extentHeader buf = some ⟨n, 0⟩) (hn : n = i + ms.length)
    (he : ∀ j m, ms[j]? = some m → extentAt buf (i + j) = some m.extent) :
    Loop.Ends (walkStep v b) ⟨buf, i, idx⟩ ((ms.find? (·.takes b)).map Mapping.extent, buf) := by
  induction ms generalizing i with
  | nil =>
    refine .leave ?_
    have hi : ¬ i < n := by
      rw [hn, List.length_nil]
      omega
    rw [walkStep, Loop.bind_of_some (x := extentHeader buf) hh, if_neg hi]
    rfl
  | cons m ms ih =>
    have hm := he 0 m rfl
    rw [Nat.add_zero] at hm
    have hstep : walkStep v b ⟨buf, i, idx⟩ = if m.takes b then some (.inr (some m.extent, buf))
        else some (.inl ⟨buf, i + 1, idx⟩) := by
      have hi : i < n := by
        rw [hn, List.length_cons]
        omega
      rw [walkStep, Loop.bind_of_some (x := extentHeader buf) hh, if_pos hi,
        if_neg (not_not.mpr rfl), Loop.bind_of_some (x := extentAt buf i) hm]
      rfl
    by_cases ht : m.takes b = true
    · rw [if_pos ht] at hstep
      rw [List.find?_cons_of_pos (p := fun x : Mapping => x.takes b) ht]
      exact .leave hstep
    · rw [if_neg ht] at hstep
      rw [List.find?_cons_of_neg (p := fun x : Mapping => x.takes b) ht]
      refine .again hstep (ih (by rw [hn, List.length_cons]; omega) fun j m' hm' => ?_)
      rw [Nat.add_right_comm, Nat.add_assoc]
      exact he (j + 1) m' hm'

/-- A leaf has no index entries to follow. -/
theorem not_passes_leaf {w : WalkState} {n sector : ℕ} (hh : extentHeader w.buf = some ⟨n, 0⟩) :
    ¬ Passes v b w sector := by
  have hfollowed : ∀ {w : WalkState}, extentHeader w.buf = some ⟨n, 0⟩ → followed b w = none := by
    intro w hh
    rw [followed, Loop.bind_of_some hh, if_neg fun hc => hc.2 rfl]
  intro hp
  induction hp with
  | here _ hf _ =>
    rw [hfollowed hh] at hf
    cases hf
  | @later w t sector h _ ih =>
    refine ih ?_
    rw [walkStep, Loop.bind_of_some hh] at h
    split at h
    · rw [if_neg (not_not.mpr rfl), Option.bind_eq_bind, Option.bind_eq_some_iff] at h
      obtain ⟨e, -, h⟩ := h
      split at h
      · cases h
      · rw [← Sum.inl.inj (Option.some.inj h)]
        exact hh
    · cases h

/-- What the walk comes to in an inode that holds all its extents itself. -/
def leafWalk (inode : Inode) (ms : List Mapping) (b : ℕ) : Option Extent × Buffer :=
  ((ms.find? (·.takes b)).map Mapping.extent, rootBuffer inode)

/-- `ext4_serialize_file_sectors` on such an inode. -/
theorem serializeFileSectors_total {ms : List Mapping} (bits : Bitarray) {serialized : BsonInfo}
    {u : List UInt8} (hd : o.saveData = false) (hsave : o.saveExtents = true)
    (hroot : HoldsNode (rootBuffer inode) (Tree.leaf ms)) (hu : Holds serialized u)
    (hmode : inode.iMode &&& 0xa000 ≠ 0xa000) (hflags : inode.iFlags &&& 0x80000 ≠ 0)
    (hn : numBlocks v inode ≤ 2 ^ 32)
    (hroom : (u ++ ([0x04] ++ ((ascii "sectors" ++ [0]) ++
        frame (blockBytes v (leafWalk inode ms) 0 (numBlocks v inode)))) ++
      ([0x04] ++ ((ascii "extents" ++ [0]) ++ frame []))).length ≤ maxSize) :
    ∃ serialized', Ext4SerializeFileSectors o v bits inode serialized bits serialized' ∧
      Holds serialized' (u ++ ([0x04] ++ ((ascii "sectors" ++ [0]) ++
          frame (blockBytes v (leafWalk inode ms) 0 (numBlocks v inode)))) ++
        ([0x04] ++ ((ascii "extents" ++ [0]) ++ frame []))) := by
  have hwalk : ∀ b < 0 + numBlocks v inode,
      Loop.Ends (walkStep v b) (rootState inode) (leafWalk inode ms b) := by
    intro b _
    refine walk_leaf hroot.header (Nat.zero_add _).symm fun j m hm => ?_
    rw [Nat.zero_add]
    exact hroot.entries j m hm
  have hroom' := hroom
  simp only [List.length_append, frame_length] at hroom'
  obtain ⟨r, hloop, hsec, hext, hbits⟩ := serializeBlocks_total (o := o)
    (r := .init o.heap bits) hd (by omega) hwalk (fun b sector => not_passes_leaf hroot.header)
    (bsonInit_holds o.heap) (by rw [List.nil_append]; omega)
  rw [List.nil_append] at hsec
  obtain ⟨s₁, hs₁, hh₁⟩ := serializeArray_holds o.heap "sectors" (by decide) hsec hu
    (by rw [List.length_append] at hroom; omega)
  have hempty : Holds r.extents [] := by
    rw [hext]
    exact bsonInit_holds o.heap
  obtain ⟨s₂, hs₂, hh₂⟩ := serializeArray_holds o.heap "extents" (by decide) hempty hh₁ hroom
  refine ⟨s₂, ⟨r, hbits, ?_, ?_⟩, hh₂⟩
  · exact serializeArrays_eq hd hsave hs₁ hs₂
  · rw [if_neg hmode]
    exact ⟨hflags, hloop⟩

end Total

end GammaRay.Ext4
