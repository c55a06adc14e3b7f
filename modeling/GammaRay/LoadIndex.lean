import GammaRay.FileRecord

set_option autoImplicit false

/-!
# What an index leaves in the store

The commands of all records are replayed on an empty database, and the keys of the schema
are read off one by one.
-/
namespace GammaRay.Loader
open Bytes Decimal Bson KvStore
open Redis (Db Command)

/-! ## What a record says -/

namespace Field

def asInodeSector : Field → Option ℕ
  | .inodeSector sector _ => some sector
  | _ => none

def asInodeNum : Field → Option ℕ
  | .inodeNum num _ => some num
  | _ => none

def asSectors : Field → Option (List ℤ)
  | .sectors entries => some (entries.map fun e => i32 e.2)
  | _ => none

def asExtents : Field → Option (List ℕ)
  | .extents entries _ => some entries
  | _ => none

def asPath : Field → Option (List UInt8)
  | .path p => some p
  | _ => none

/-- The name and the raw bytes of a scalar other than the sector of the inode. -/
def asScalar : Field → Option (List UInt8 × List UInt8)
  | .inodeNum num h => some ((Field.inodeNum num h).key.bytes, (Field.inodeNum num h).value.raw)
  | .path p => some ((Field.path p).key.bytes, (Field.path p).value.raw)
  | .scalar key value _ _ => some (key.bytes, value.raw)
  | _ => none

end Field

namespace FileRecord

def inodeSector (r : FileRecord) : Option ℕ := r.fields.findSome? Field.asInodeSector

def inodeNum (r : FileRecord) : Option ℕ := r.fields.findSome? Field.asInodeNum

def sectors (r : FileRecord) : List ℤ := (r.fields.findSome? Field.asSectors).getD []

def extents (r : FileRecord) : List ℕ := (r.fields.findSome? Field.asExtents).getD []

def scalars (r : FileRecord) : List (List UInt8 × List UInt8) := r.fields.filterMap Field.asScalar

end FileRecord

/-- The store after the index of these files. -/
structure Loaded (db : Db KvStore.Key) (records : List FileRecord) : Prop where
  fcounter : db.keys .fcounter = some (.string (dec records.length))
  path : ∀ k r, records[k]? = some r → db.keys (.path r.path) = some (.string (dec k))
  file : ∀ k r, records[k]? = some r →
    db.hashAt (.file k) = some fun field => (r.scalars.find? fun e => e.1 = field).map Prod.snd
  filesectors : ∀ k r, records[k]? = some r →
    db.listAt (.filesectors k) = some (r.sectors.map sectorText)
  extents : ∀ k r, records[k]? = some r →
    db.listAt (.extents k) = some (r.extents.map fun s : ℕ => reference "extent:" s)
  files : ∀ s, db.listAt (.files s) =
    some ((records.zipIdx.filter fun p => p.1.inodeSector = some s).map
      fun p => reference "file:" p.2)
  inode : ∀ n, db.listAt (.inode n) =
    some ((records.zipIdx.filter fun p => p.1.inodeNum = some n).map
      fun p => reference "file:" p.2)

section Commands

variable (blockSize id : ℕ) (f : Field)

theorem field_inserts : ∀ c ∈ f.commands blockSize id, c.Inserts Key.kind := by
  intro c hc
  cases f with
  | files entries h =>
    obtain ⟨e, -, hc⟩ := List.mem_flatMap.mp hc
    simp only [Field.filesCommands, List.mem_cons, List.not_mem_nil, or_false] at hc
    rcases hc with rfl | rfl | rfl <;> rfl
  | sectors entries =>
    obtain ⟨e, -, hc⟩ := List.mem_flatMap.mp hc
    simp only [Field.sectorsCommands, List.mem_cons, List.not_mem_nil, or_false] at hc
    rcases hc with rfl | rfl <;> rfl
  | extents entries h =>
    obtain ⟨e, -, hc⟩ := List.mem_flatMap.mp hc
    simp only [Field.extentsCommands, List.mem_cons, List.not_mem_nil, or_false] at hc
    rcases hc with rfl | rfl | rfl <;> rfl
  | inodeSector sector h =>
    simp only [Field.commands, List.mem_cons, List.not_mem_nil, or_false] at hc
    rcases hc with rfl | rfl <;> rfl
  | inodeNum num h =>
    simp only [Field.commands, List.mem_cons, List.not_mem_nil, or_false] at hc
    rcases hc with rfl | rfl <;> rfl
  | path p =>
    simp only [Field.commands, List.mem_cons, List.not_mem_nil, or_false] at hc
    rcases hc with rfl | rfl <;> rfl
  | scalar key value h hk =>
    obtain rfl := List.mem_singleton.mp hc
    rfl

theorem pushed_files (s : ℕ) : Redis.pushed (.files s) (f.commands blockSize id) =
    f.asInodeSector.elim [] fun x => if x = s then [reference "file:" id] else [] := by
  cases f <;> simp [Field.commands, Field.filesCommands, Field.sectorsCommands,
    Field.extentsCommands, Field.asInodeSector]

theorem pushed_inode (n : ℕ) : Redis.pushed (.inode n) (f.commands blockSize id) =
    f.asInodeNum.elim [] fun x => if x = n then [reference "file:" id] else [] := by
  cases f <;> simp [Field.commands, Field.filesCommands, Field.sectorsCommands,
    Field.extentsCommands, Field.asInodeNum]

theorem pushed_filesectors (k : ℕ) : Redis.pushed (.filesectors k) (f.commands blockSize id) =
    f.asSectors.elim [] fun l => if id = k then l.map sectorText else [] := by
  cases f with
  | sectors entries =>
    by_cases hk : id = k
    · simp only [Field.commands, Field.sectorsCommands, Field.asSectors, hk]
      simp only [Redis.pushed_flatMap, redisFileSectorsInsert, Redis.pushed_rpush, Redis.pushed_set,
        Redis.pushed_nil, if_true, Option.elim_some, List.map_map]
      rw [← List.map_eq_flatMap]
      conv_rhs => rw [← List.zipIdx_map_fst 0 entries, List.map_map]
      rfl
    · simp [Field.commands, Field.sectorsCommands, Field.asSectors, hk]
  | _ => simp [Field.commands, Field.filesCommands, Field.extentsCommands, Field.asSectors]

theorem pushed_extents (k : ℕ) : Redis.pushed (.extents k) (f.commands blockSize id) =
    f.asExtents.elim [] fun l =>
      if id = k then l.map fun s : ℕ => reference "extent:" s else [] := by
  cases f with
  | extents entries h =>
    by_cases hk : id = k
    · simp [Field.commands, Field.extentsCommands, Field.asExtents, hk, List.map_eq_flatMap]
    · simp [Field.commands, Field.extentsCommands, Field.asExtents, hk]
  | _ => simp [Field.commands, Field.filesCommands, Field.sectorsCommands, Field.asExtents]

theorem assigned_file (k : ℕ) : Redis.assigned (.file k) (f.commands blockSize id) =
    if id = k then f.asScalar.toList else [] := by
  by_cases hk : id = k
  · cases f with
    | path p => simp [Field.commands, Field.asScalar, Field.key, Field.value, hk, keyNamed, Value.raw]
    | _ => simp [Field.commands, Field.filesCommands, Field.sectorsCommands, Field.extentsCommands,
        Field.asScalar, Field.key, Field.value, hk, keyNamed]
  · cases f <;> simp [Field.commands, Field.filesCommands, Field.sectorsCommands,
      Field.extentsCommands, hk]

theorem stored_path (p : List UInt8) : Redis.stored (.path p) (f.commands blockSize id) =
    f.asPath.elim [] fun x => if x = p then [dec id] else [] := by
  cases f <;> simp [Field.commands, Field.filesCommands, Field.sectorsCommands,
    Field.extentsCommands, Field.asPath]

end Commands

/-! ## One record -/

theorem asInodeSector_key (f : Field) (h : f.asInodeSector.isSome) :
    f.key.bytes = ascii "inode_sector" := by
  cases f with
  | inodeSector => rfl
  | _ => cases h

theorem asInodeNum_key (f : Field) (h : f.asInodeNum.isSome) : f.key.bytes = ascii "inode_num" := by
  cases f with
  | inodeNum => rfl
  | _ => cases h

theorem asSectors_key (f : Field) (h : f.asSectors.isSome) : f.key.bytes = ascii "sectors" := by
  cases f with
  | sectors => rfl
  | _ => cases h

theorem asExtents_key (f : Field) (h : f.asExtents.isSome) : f.key.bytes = ascii "extents" := by
  cases f with
  | extents => rfl
  | _ => cases h

theorem asPath_key (f : Field) (h : f.asPath.isSome) : f.key.bytes = ascii "path" := by
  cases f with
  | path => rfl
  | _ => cases h

/-- With distinct keys at most one field can be of a kind that has a key of its own. -/
theorem flatMap_findSome {α β γ : Type} {key : α → List UInt8} {name : List UInt8}
    {sel : α → Option β} (hsel : ∀ x, (sel x).isSome → key x = name) (g : β → List γ) (l : List α)
    (hl : (l.map key).Nodup) :
    (l.flatMap fun x => (sel x).elim [] g) = (l.findSome? sel).elim [] g := by
  induction l with
  | nil => rfl
  | cons x l ih =>
    obtain ⟨hx, hl⟩ := List.nodup_cons.mp hl
    rw [List.flatMap_cons, ih hl, List.findSome?_cons]
    cases hs : sel x with
    | none => rfl
    | some b =>
      have hname := hsel x (by rw [hs]; rfl)
      have hnone : l.findSome? sel = none := by
        rw [List.findSome?_eq_none_iff]
        intro y hy
        by_contra hne
        have hkey := hsel y (Option.isSome_iff_ne_none.mpr hne)
        exact hx (List.mem_map.mpr ⟨y, hy, hkey.trans hname.symm⟩)
      rw [hnone]
      exact List.append_nil _

section Record

variable (blockSize id : ℕ) (r : FileRecord)

theorem record_inserts : ∀ c ∈ r.commands blockSize id, c.Inserts Key.kind := by
  intro c hc
  obtain ⟨f, -, hc⟩ := List.mem_flatMap.mp hc
  exact field_inserts blockSize id f c hc

theorem record_files (s : ℕ) : Redis.pushed (.files s) (r.commands blockSize id) =
    if r.inodeSector = some s then [reference "file:" id] else [] := by
  rw [FileRecord.commands, Redis.pushed_flatMap]
  simp only [pushed_files]
  rw [flatMap_findSome asInodeSector_key _ r.fields r.distinct, FileRecord.inodeSector]
  cases r.fields.findSome? Field.asInodeSector <;> simp

theorem record_inode (n : ℕ) : Redis.pushed (.inode n) (r.commands blockSize id) =
    if r.inodeNum = some n then [reference "file:" id] else [] := by
  rw [FileRecord.commands, Redis.pushed_flatMap]
  simp only [pushed_inode]
  rw [flatMap_findSome asInodeNum_key _ r.fields r.distinct, FileRecord.inodeNum]
  cases r.fields.findSome? Field.asInodeNum <;> simp

theorem record_filesectors (k : ℕ) : Redis.pushed (.filesectors k) (r.commands blockSize id) =
    if id = k then r.sectors.map sectorText else [] := by
  rw [FileRecord.commands, Redis.pushed_flatMap]
  simp only [pushed_filesectors]
  rw [flatMap_findSome asSectors_key _ r.fields r.distinct, FileRecord.sectors]
  cases r.fields.findSome? Field.asSectors <;> simp

theorem record_extents (k : ℕ) : Redis.pushed (.extents k) (r.commands blockSize id) =
    if id = k then r.extents.map fun s : ℕ => reference "extent:" s else [] := by
  rw [FileRecord.commands, Redis.pushed_flatMap]
  simp only [pushed_extents]
  rw [flatMap_findSome asExtents_key _ r.fields r.distinct, FileRecord.extents]
  cases r.fields.findSome? Field.asExtents <;> simp

theorem record_file (k : ℕ) : Redis.assigned (.file k) (r.commands blockSize id) =
    if id = k then r.scalars else [] := by
  rw [FileRecord.commands, Redis.assigned_flatMap]
  simp only [assigned_file]
  split
  · rw [FileRecord.scalars, List.filterMap_eq_flatMap_toList]
  · simp

theorem record_asPath : r.fields.findSome? Field.asPath = some r.path := by
  have hflat := flatMap_findSome asPath_key (fun p => [p]) r.fields r.distinct
  cases hf : r.fields.findSome? Field.asPath with
  | none =>
    rw [List.findSome?_eq_none_iff] at hf
    exact absurd (hf _ r.hasPath) (by simp [Field.asPath])
  | some p =>
    rw [hf] at hflat
    have hmem : r.path ∈ r.fields.flatMap fun f => f.asPath.elim [] fun p => [p] :=
      List.mem_flatMap.mpr ⟨.path r.path, r.hasPath, List.mem_singleton_self _⟩
    rw [hflat] at hmem
    rw [List.mem_singleton.mp hmem]

theorem record_path (p : List UInt8) : Redis.stored (.path p) (r.commands blockSize id) =
    if r.path = p then [dec id] else [] := by
  rw [FileRecord.commands, Redis.stored_flatMap]
  simp only [stored_path]
  rw [flatMap_findSome asPath_key _ r.fields r.distinct, record_asPath]
  rfl

/-- No two scalars have one name. -/
theorem scalars_distinct : (r.scalars.map Prod.fst).Nodup := by
  have hsub : (r.scalars.map Prod.fst).Sublist (r.fields.map fun f => f.key.bytes) := by
    rw [FileRecord.scalars]
    induction r.fields with
    | nil => exact .slnil
    | cons f l ih =>
      cases f with
      | inodeNum num h => exact ih.cons_cons _
      | path p => exact ih.cons_cons _
      | scalar key value h hk => exact ih.cons_cons _
      | _ => exact ih.cons _
  exact hsub.nodup r.distinct

end Record

/-! ## All records -/

def indexCommands (blockSize : ℕ) (records : List FileRecord) (first : ℕ) :
    List (Command KvStore.Key) :=
  (records.zipIdx first).flatMap fun p => p.1.commands blockSize p.2

theorem indexCommands_cons (blockSize : ℕ) (r : FileRecord) (records : List FileRecord)
    (first : ℕ) : indexCommands blockSize (r :: records) first =
      r.commands blockSize first ++ indexCommands blockSize records (first + 1) := by
  rw [indexCommands, List.zipIdx_cons, List.flatMap_cons, indexCommands]

/-- Where only the record with this number counts. -/
theorem flatMap_zipIdx {α γ : Type} (g : α → List γ) (k : ℕ) (l : List α) (first : ℕ) :
    ((l.zipIdx first).flatMap fun p => if p.2 = first + k then g p.1 else []) =
      (l[k]?).elim [] g := by
  induction l generalizing first k with
  | nil => rfl
  | cons x l ih =>
    rw [List.zipIdx_cons, List.flatMap_cons]
    cases k with
    | zero =>
      have hnone : ((l.zipIdx (first + 1)).flatMap
          fun p => if p.2 = first + 0 then g p.1 else []) = [] := by
        rw [List.flatMap_eq_nil_iff]
        intro p hp
        have hle := List.le_snd_of_mem_zipIdx hp
        rw [if_neg (by omega)]
      rw [hnone]
      simp
    | succ k =>
      have hk : first + (k + 1) = first + 1 + k := by omega
      rw [hk, ih, if_neg (by dsimp only; omega)]
      rfl

theorem flatMap_ite {α γ : Type} (P : α → Prop) [DecidablePred P] (g : α → γ) (l : List α) :
    (l.flatMap fun x => if P x then [g x] else []) = (l.filter fun x => P x).map g := by
  induction l with
  | nil => rfl
  | cons x l ih =>
    rw [List.flatMap_cons, ih]
    by_cases hx : P x <;> simp [hx]

section Index

variable (blockSize : ℕ) (records : List FileRecord)

theorem index_inserts (first : ℕ) :
    ∀ c ∈ indexCommands blockSize records first, c.Inserts Key.kind := by
  intro c hc
  obtain ⟨p, -, hc⟩ := List.mem_flatMap.mp hc
  exact record_inserts blockSize p.2 p.1 c hc

theorem index_files (s : ℕ) : Redis.pushed (.files s) (indexCommands blockSize records 0) =
    (records.zipIdx.filter fun p => p.1.inodeSector = some s).map
      fun p => reference "file:" p.2 := by
  rw [indexCommands, Redis.pushed_flatMap]
  simp only [record_files]
  exact flatMap_ite (fun p : FileRecord × ℕ => p.1.inodeSector = some s) _ _

theorem index_inode (n : ℕ) : Redis.pushed (.inode n) (indexCommands blockSize records 0) =
    (records.zipIdx.filter fun p => p.1.inodeNum = some n).map
      fun p => reference "file:" p.2 := by
  rw [indexCommands, Redis.pushed_flatMap]
  simp only [record_inode]
  exact flatMap_ite (fun p : FileRecord × ℕ => p.1.inodeNum = some n) _ _

variable {records} {k : ℕ} {r : FileRecord} (hr : records[k]? = some r)
include hr

theorem index_filesectors : Redis.pushed (.filesectors k) (indexCommands blockSize records 0) =
    r.sectors.map sectorText := by
  have h := flatMap_zipIdx (fun r => r.sectors.map sectorText) k records 0
  rw [Nat.zero_add, hr] at h
  rw [indexCommands, Redis.pushed_flatMap]
  simp only [record_filesectors]
  exact h

theorem index_extents : Redis.pushed (.extents k) (indexCommands blockSize records 0) =
    r.extents.map fun s : ℕ => reference "extent:" s := by
  have h := flatMap_zipIdx (fun r => r.extents.map fun s : ℕ => reference "extent:" s) k records 0
  rw [Nat.zero_add, hr] at h
  rw [indexCommands, Redis.pushed_flatMap]
  simp only [record_extents]
  exact h

theorem index_file : Redis.assigned (.file k) (indexCommands blockSize records 0) = r.scalars := by
  have h := flatMap_zipIdx FileRecord.scalars k records 0
  rw [Nat.zero_add, hr] at h
  rw [indexCommands, Redis.assigned_flatMap]
  simp only [record_file]
  exact h

theorem index_path (hpaths : (records.map FileRecord.path).Nodup) :
    Redis.stored (.path r.path) (indexCommands blockSize records 0) = [dec k] := by
  have hpick : ∀ p ∈ records.zipIdx, (if p.1.path = r.path then [dec p.2] else []) =
      if p.2 = 0 + k then [dec k] else [] := by
    intro p hp
    have hp' : records[p.2]? = some p.1 := List.mem_zipIdx_iff_getElem?.mp hp
    by_cases hk : p.2 = k
    · rw [hk, hr] at hp'
      rw [if_pos (congrArg FileRecord.path (Option.some.inj hp').symm), if_pos (by omega), hk]
    · rw [if_neg (c := p.2 = 0 + k) (by omega)]
      apply if_neg
      intro hpath
      apply hk
      have hlt : p.2 < (records.map FileRecord.path).length := by
        rw [List.length_map]
        exact (List.getElem?_eq_some_iff.mp hp').1
      apply (List.getElem?_inj hlt hpaths).mp
      rw [List.getElem?_map, List.getElem?_map, hp', hr, Option.map_some, Option.map_some, hpath]
  have h := flatMap_zipIdx (fun _ : FileRecord => [dec k]) k records 0
  rw [hr] at h
  rw [indexCommands, Redis.stored_flatMap]
  simp only [record_path]
  rw [List.flatMap_congr hpick]
  exact h

end Index

/-! ## The run -/

section Run

variable (heap : Heap) {fuel : ℕ} (locals : ℕ → Locals)

theorem loadDocuments_end {rounds : ℕ} {bson : BsonInfo} {index : File} {st : Statics}
    {counter : ℕ} {store : Handle} (hindex : index.bytes.drop index.position = [])
    (hrounds : 0 < rounds) :
    loadDocuments heap fuel locals rounds bson index st counter store =
      some (counter, st, store) := by
  obtain ⟨rounds, rfl⟩ := Nat.exists_eq_add_of_lt hrounds
  rw [loadDocuments, Loop.bind_of_some (readf_end heap hindex)]
  exact if_neg (by decide)

/-- One round on a document that is loaded. -/
theorem loadDocuments_next {rounds : ℕ} {bson : BsonInfo} (index : File) {st : Statics}
    {store : Handle} {d : Document} {rest : List UInt8} {P : Statics → Handle → Prop} (counter : ℕ)
    (hlen : (frame d.body).length < 2 ^ 31) (hbson : bson.size ≤ bson.buffer.length)
    (hindex : index.bytes.drop index.position = frame d.body ++ rest)
    (hload : ∀ b' (locals : Locals), Read b' d index.position → ∃ bson' st' store',
      qemuLoadDocument heap fuel locals b' st store = some (true, bson', st', store') ∧
        bson'.size = 0 ∧ P st' store') :
    ∃ bson' index' st' store',
      loadDocuments heap fuel locals (rounds + 1) bson index st counter store =
        loadDocuments heap fuel locals rounds bson' index' st' st'.fileCounter store' ∧
      bson'.size = 0 ∧ index'.bytes.drop index'.position = rest ∧ P st' store' := by
  obtain ⟨b', hr, hread⟩ := readf_document heap hlen hbson hindex
  obtain ⟨bson', st', store', hl, hz, hP⟩ := hload b'
    (locals (index.position + (frame d.body).length)) hread
  refine ⟨bson', { index with position := index.position + (frame d.body).length }, st', store',
    ?_, hz, ?_, hP⟩
  · rw [loadDocuments, Loop.bind_of_some hr]
    dsimp only
    rw [if_pos rfl, Loop.bind_of_some hl]
    rfl
  · rw [← List.drop_drop, hindex, List.drop_left]

theorem loadDocuments_files (records : List FileRecord)
    (hlen : ∀ r ∈ records, (frame r.document.body).length < 2 ^ 31)
    (hfuel : ∀ r ∈ records, (frame r.document.body).length < fuel) {rounds : ℕ} {bson : BsonInfo}
    {index : File} (st : Statics) {store : Handle} (hrounds : records.length < rounds)
    (hbson : bson.size ≤ bson.buffer.length)
    (hindex : index.bytes.drop index.position = stream (records.map FileRecord.document))
    (hs : Settled store) (hcount : st.fileCounter + records.length < 2 ^ 64) :
    ∃ st' store', loadDocuments heap fuel locals rounds bson index st st.fileCounter store =
        some (st.fileCounter + records.length, st', store') ∧
      InDb store' (store.db.replay (indexCommands st.super.blockSize records st.fileCounter)) := by
  induction records generalizing rounds bson index st store with
  | nil => exact ⟨st, store, loadDocuments_end heap locals hindex hrounds, hs, rfl⟩
  | cons r records ih =>
    rw [List.map_cons, stream_cons] at hindex
    rw [List.length_cons] at hcount hrounds
    cases rounds with
    | zero => exact absurd hrounds (Nat.not_lt_zero _)
    | succ rounds =>
      obtain ⟨bson', index', st', store', hnext, hz, hrest, rfl, hs', hdb'⟩ :=
        loadDocuments_next (P := fun st' store' =>
            st' = { st with fileCounter := st.fileCounter + 1 } ∧
              InDb store' (store.db.replay (r.commands st.super.blockSize st.fileCounter)))
          heap locals index st.fileCounter (hlen r List.mem_cons_self) hbson hindex
          (fun b' locals hread => by
            obtain ⟨bson', store', hl, hz, hin⟩ := load_file heap locals st r
              (hlen r List.mem_cons_self) (hfuel r List.mem_cons_self) hread hs (by omega)
            exact ⟨bson', _, store', hl, hz, rfl, hin⟩)
      obtain ⟨st'', store'', hl, hs'', hdb''⟩ := ih
        (fun r hr => hlen r (List.mem_cons_of_mem _ hr))
        (fun r hr => hfuel r (List.mem_cons_of_mem _ hr))
        { st with fileCounter := st.fileCounter + 1 } (Nat.lt_of_succ_lt_succ hrounds)
        (by rw [hz]; exact Nat.zero_le _) hrest hs' (by dsimp only; omega)
      refine ⟨st'', store'', ?_, hs'', ?_⟩
      · rw [hnext, hl, List.length_cons]
        dsimp only
        rw [Nat.add_assoc, Nat.add_comm 1]
      · rw [hdb'', hdb', indexCommands_cons, Redis.replay_append]

/-- The statics of a process that has loaded nothing yet. -/
def Statics.fresh : Statics := ⟨0, 0, 0, ⟨0, 0, 0, 0, 0, 0⟩⟩

theorem index_replayed (fs : FsRecord) (records : List FileRecord) {store : Handle}
    (hlen : ∀ d ∈ fs.document :: records.map FileRecord.document, (frame d.body).length < 2 ^ 31)
    (hfile : (stream (fs.document :: records.map FileRecord.document)).length < 2 ^ 63)
    (hfuel : (stream (fs.document :: records.map FileRecord.document)).length < fuel)
    (hs : Settled store) :
    ∃ st' store' blockSize, qemuLoadIndex heap fuel locals
        ⟨stream (fs.document :: records.map FileRecord.document), 0⟩ .fresh store =
          some (st', store') ∧
      store'.db = store.db.replay (fs.commands ++ indexCommands blockSize records 0 ++
        [.set .fcounter (dec records.length)]) := by
  have hcons := congrArg List.length
    (stream_cons fs.document (records.map FileRecord.document))
  rw [List.length_append] at hcons
  have hsum : ∀ r ∈ records, (frame r.document.body).length ≤
      (stream (records.map FileRecord.document)).length :=
    fun r hr => frame_le_stream (List.mem_map_of_mem hr)
  have hcount := length_le_stream (records.map FileRecord.document)
  rw [List.length_map] at hcount
  have hindex : (⟨stream (fs.document :: records.map FileRecord.document), 0⟩ : File).bytes.drop 0 =
      frame fs.document.body ++ stream (records.map FileRecord.document) := by
    rw [← stream_cons]
    rfl
  cases fuel with
  | zero => exact absurd hfuel (Nat.not_lt_zero _)
  | succ rounds =>
    have hfs : (frame fs.document.body).length < rounds + 1 := by omega
    have hpos := frame_length fs.document.body
    have hinit : (bsonInit heap).size ≤ (bsonInit heap).buffer.length :=
      (heap.malloc_length startSize).ge
    obtain ⟨bson', index', st', store₁, hnext, hz, hrest, ⟨super, rfl⟩, hs₁, hdb₁⟩ :=
      loadDocuments_next (P := fun st' store' =>
          (∃ super, st' = ⟨fs.pteNum, 0, 0, super⟩) ∧
            InDb store' (store.db.replay fs.commands))
        heap locals ⟨_, 0⟩ 0 (hlen _ List.mem_cons_self) hinit hindex
        (fun b' locals hread => by
          obtain ⟨bson', super, store', hl, hz, hin⟩ := load_fs heap locals .fresh fs
            (hlen _ List.mem_cons_self) hfs hread hs
          exact ⟨bson', _, store', hl, hz, ⟨super, rfl⟩, hin⟩)
    obtain ⟨st₂, store₂, hl, hs₂, hdb₂⟩ := loadDocuments_files heap locals records
      (fun r hr => hlen _ (List.mem_cons_of_mem _ (List.mem_map_of_mem hr)))
      (fun r hr => Nat.lt_of_le_of_lt (hsum r hr) (by omega : _ < rounds + 1))
      ⟨fs.pteNum, 0, 0, super⟩
      (by omega : records.length < rounds) (by rw [hz]; exact Nat.zero_le _) hrest hs₁
      (by dsimp only; omega)
    obtain ⟨store₃, hset, hdb₃, hs₃⟩ := command_issues
      (c := .set .fcounter (dec (0 + records.length))) nofun store₂ hs₂
    obtain ⟨store₄, hflush, hdb₄, -⟩ := flush_issues store₃ hs₃
    refine ⟨st₂, store₄, super.blockSize, ?_, ?_⟩
    · rw [qemuLoadIndex, hnext, Loop.bind_of_some hl]
      dsimp only
      rw [redisSetFcounter, Loop.bind_of_some hset, Loop.bind_of_some hflush]
    · rw [hdb₄, Redis.replay_nil, hdb₃, hdb₂, hdb₁, Redis.replay_append, Redis.replay_append,
        Nat.zero_add]

end Run

/-! ## The keys of the schema -/

section Fs

variable (fs : FsRecord)

theorem fs_inserts : ∀ c ∈ fs.commands, c.Inserts Key.kind := by
  intro c hc
  obtain ⟨e, -, hc⟩ := List.mem_flatMap.mp hc
  rcases List.mem_append.mp hc with hc | hc
  · split at hc
    · obtain rfl := List.mem_singleton.mp hc
      rfl
    · exact absurd hc List.not_mem_nil
  · obtain rfl := List.mem_singleton.mp hc
    rfl

theorem fs_pushed (k : KvStore.Key) : Redis.pushed k fs.commands = [] := by
  rw [FsRecord.commands, Redis.pushed_flatMap, List.flatMap_eq_nil_iff]
  intro e _
  rw [fsFieldCommands, Redis.pushed_append]
  split <;> simp

theorem fs_assigned (k : ℕ) : Redis.assigned (.file k) fs.commands = [] := by
  rw [FsRecord.commands, Redis.assigned_flatMap, List.flatMap_eq_nil_iff]
  intro e _
  rw [fsFieldCommands, Redis.assigned_append]
  split <;> simp

theorem fs_stored {k : KvStore.Key} (hk : ∀ n, k ≠ .sector n) : Redis.stored k fs.commands = [] := by
  rw [FsRecord.commands, Redis.stored_flatMap, List.flatMap_eq_nil_iff]
  intro e _
  rw [fsFieldCommands, Redis.stored_append]
  split <;> simp [Ne.symm (hk _)]

end Fs

theorem index_loaded (heap : Heap) (fuel : ℕ) (locals : ℕ → Locals) (bytes : ℕ) (fs : FsRecord)
    (records : List FileRecord) (hpaths : (records.map FileRecord.path).Nodup)
    (hlen : ∀ d ∈ fs.document :: records.map FileRecord.document, (frame d.body).length < 2 ^ 31)
    (hfile : (stream (fs.document :: records.map FileRecord.document)).length < 2 ^ 63)
    (hfuel : (stream (fs.document :: records.map FileRecord.document)).length < fuel) :
    ∃ st store, qemuLoadIndex heap fuel locals
        ⟨stream (fs.document :: records.map FileRecord.document), 0⟩ .fresh
          (redisInit Db.empty bytes) = some (st, store) ∧
      Loaded store.db records := by
  obtain ⟨st, store, blockSize, hload, hdb⟩ := index_replayed heap locals fs records hlen hfile
    hfuel (redisInit_settled Db.empty bytes)
  refine ⟨st, store, hload, ?_⟩
  have hins : ∀ c ∈ fs.commands ++ indexCommands blockSize records 0 ++
      [.set .fcounter (dec records.length)], c.Inserts Key.kind := by
    intro c hc
    rcases List.mem_append.mp hc with hc | hc
    · rcases List.mem_append.mp hc with hc | hc
      · exact fs_inserts fs c hc
      · exact index_inserts blockSize records 0 c hc
    · obtain rfl := List.mem_singleton.mp hc
      rfl
  have hlist : ∀ k : KvStore.Key, k.kind = .list → store.db.listAt k =
      some (Redis.pushed k (indexCommands blockSize records 0)) := by
    intro k hk
    rw [hdb, Redis.listAt_replay (Redis.OnlyPushed.of_inserts hins hk) rfl, Redis.pushed_append,
      Redis.pushed_append, fs_pushed, Redis.pushed_set, Redis.pushed_nil]
    simp
  have hstring : ∀ k : KvStore.Key, k.kind = .string → (∀ n, k ≠ .sector n) → store.db.keys k =
      ((Redis.stored k (indexCommands blockSize records 0 ++
        [.set .fcounter (dec records.length)])).getLast?.map .string) := by
    intro k hk hsector
    rw [hdb, List.append_assoc, Redis.keys_replay_stored (Redis.OnlyStored.of_inserts _ hk),
      Redis.stored_append, fs_stored fs hsector, List.nil_append]
    · exact Option.or_none
    · rw [← List.append_assoc]
      exact hins
  constructor
  · rw [hstring .fcounter rfl nofun, Redis.stored_append]
    simp
  · intro k r hr
    rw [hstring (.path r.path) rfl nofun, Redis.stored_append, index_path blockSize hr hpaths]
    simp
  · intro k r hr
    rw [hdb, Redis.hashAt_replay (Redis.OnlyAssigned.of_inserts hins rfl) rfl,
      Redis.assigned_append, Redis.assigned_append, fs_assigned, index_file blockSize hr,
      Redis.assigned_set, Redis.assigned_nil, List.nil_append, List.append_nil]
    congr 1
    funext field
    rw [Redis.lastAssigned_of_nodup (scalars_distinct r)]
    exact Option.or_none
  · intro k r hr
    rw [hlist _ rfl, index_filesectors blockSize hr]
  · intro k r hr
    rw [hlist _ rfl, index_extents blockSize hr]
  · intro s
    rw [hlist _ rfl, index_files]
  · intro n
    rw [hlist _ rfl, index_inode]

theorem pteNum_zero : 0 < 2 ^ 32 := by decide

def bareFs : FsRecord := ⟨0, pteNum_zero, [], nofun, nofun⟩

def rootFile : FileRecord where
  fields := [.inodeNum 2 (by decide), .path [47], .sectors [(decKey 0, 4096)],
    .inodeSector 2056 (by decide)]
  distinct := by decide
  noType := by decide
  path := [47]
  hasPath := by simp

theorem index_loaded_rootFile :
    ∃ st store, qemuLoadIndex zeroHeap 200
        (fun _ => ⟨⟨⟨0, 0, 0, 0, 0⟩, ⟨0, 0, 0, 0, 0⟩⟩, ⟨0, 0, 0, 0, 0, 0⟩⟩)
        ⟨stream [bareFs.document, rootFile.document], 0⟩ .fresh (redisInit Db.empty 0) =
          some (st, store) ∧
      Loaded store.db [rootFile] :=
  index_loaded zeroHeap 200 _ 0 bareFs [rootFile] (by decide) (by decide) (by decide) (by decide)

end GammaRay.Loader
