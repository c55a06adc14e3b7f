import GammaRay.Loader

set_option autoImplicit false

/-!
# Records of an index

The documents that the crawler writes for a file system and for its files, with their fields
in any order, and the commands that the loader turns each of them into.
-/
namespace GammaRay.Loader
open Bytes Decimal Bson KvStore
open Redis (Db Command)

/-! ## Loops over a document -/

section Loop

variable {σ τ A : Type}
  {body : BsonInfo → Vars → σ → Option (Bool × Vars × σ)} {R : σ → A → Prop} {step : A → τ → A}

/-- A body that takes an element takes one step in what `R` relates its state to. -/
def Serves (body : BsonInfo → Vars → σ → Option (Bool × Vars × σ)) (R : σ → A → Prop)
    (e : Bson.Key × Value) (step : A → A) : Prop :=
  ∀ (bson : BsonInfo) (vars : Vars) (s : σ) (a : A), keyOf bson vars.value1 = e.1.bytes →
    Seen bson.buffer e.2 vars.value1 vars.value2 → R s a →
      ∃ vars' s', body bson vars s = some (true, vars', s') ∧ R s' (step a)

theorem whileDeserialize_elements (more : ℤ → Bool) (h1 : more 1 = true) (h0 : more 0 = false)
    {element : τ → Bson.Key × Value} (l : List τ)
    (hbody : ∀ x ∈ l, Serves body R (element x) fun a => step a x) {total : ℕ} {fuel : ℕ}
    {d : Document} {bson : BsonInfo} (vars : Vars) {s : σ} {a : A}
    (hd : d.elements = l.map element) (hfuel : l.length < fuel)
    (hc : Cursor bson total (d.body ++ [0])) (hs : R s a) :
    ∃ bson' vars' s', whileDeserialize more body fuel bson vars s =
        some (true, bson', vars', s') ∧ bson'.size = 0 ∧ R s' (l.foldl step a) := by
  induction l generalizing fuel d bson vars s a with
  | nil =>
    cases d with
    | cons key value rest => cases hd
    | nil =>
      obtain ⟨fuel, rfl⟩ := Nat.exists_eq_add_of_lt hfuel
      refine ⟨bson.past 1 0, ⟨vars.value1, vars.value2⟩, s, ?_, rfl, hs⟩
      rw [whileDeserialize, Loop.bind_of_some (hc.finish vars.value1 vars.value2)]
      dsimp only
      rw [h0]
      rfl
  | cons x l ih =>
    cases d with
    | nil => cases hd
    | cons key value rest =>
      obtain ⟨hx, hrest⟩ := List.cons.inj hd
      obtain ⟨bson₁, v1, v2, he, hbuf, hkey, hseen, hc₁⟩ := hc.element vars.value1 vars.value2
      cases fuel with
      | zero => exact absurd hfuel (Nat.not_lt_zero _)
      | succ fuel =>
        obtain ⟨vars₁, s₁, hb, hs₁⟩ := hbody x List.mem_cons_self bson₁ ⟨v1, v2⟩ s a
          (by rw [← hx, keyOf, hbuf]; exact hkey) (by rw [← hx, hbuf]; exact hseen) hs
        obtain ⟨bson', vars', s', hw, hz, hs'⟩ := ih (fun y hy => hbody y (List.mem_cons_of_mem _ hy))
          vars₁ hrest (Nat.lt_of_succ_lt_succ hfuel) hc₁ hs₁
        refine ⟨bson', vars', s', ?_, hz, hs'⟩
        rw [whileDeserialize, Loop.bind_of_some he]
        dsimp only
        rw [h1, if_pos rfl, Loop.bind_of_some hb]
        exact hw

end Loop

theorem dataOf_sized {bson : BsonInfo} {value : BsonRef} {x : List UInt8}
    (h : SizedAt bson.buffer value x) : dataOf bson value = some x := by
  have hx : (bson.buffer.drop value.data).take value.size.toNat = x := h.2
  rw [dataOf, hx, if_pos h.1]

theorem uintOf_sized (width extra : ℕ) {bson : BsonInfo} {value : BsonRef} {n : ℕ}
    (h : SizedAt bson.buffer value (leBytes (width + extra) n)) (hn : n < 256 ^ width) :
    uintOf width bson value = some n := by
  have hx : (bson.buffer.drop value.data).take (width + extra) = leBytes (width + extra) n := by
    have h2 := h.2
    rwa [h.1, leBytes_length, Int.toNat_natCast] at h2
  have htake : (bson.buffer.drop value.data).take width = leBytes width n := by
    rw [← leBytes_take width extra n, ← hx, List.take_take, Nat.min_eq_left (Nat.le_add_right _ _)]
  rw [uintOf, htake, if_pos (leBytes_length width n), leNat_leBytes_of_lt hn]

theorem int32At_sized {bson : BsonInfo} {value : BsonRef} {n : ℕ}
    (h : SizedAt bson.buffer value (leBytes 4 n)) :
    int32At bson.buffer value.data = some (i32 n) := by
  have hx : (bson.buffer.drop value.data).take 4 = leBytes 4 n := by
    have h2 := h.2
    rwa [h.1, leBytes_length, Int.toNat_natCast] at h2
  have hlen := congrArg List.length hx
  rw [leBytes_length, List.length_take, List.length_drop] at hlen
  have hmod : i32 ((n % 256 ^ 4 : ℕ) : ℤ) = i32 n := by
    unfold i32
    omega
  rw [int32At, if_pos (by omega), hx, leNat_leBytes, hmod]

/-! ## Fields -/

def keyNamed (name : String) (h : 0 ∉ ascii name) : Bson.Key := ⟨ascii name, h⟩

/-! The names of elements that more than one document has. -/

theorem type_noNul : 0 ∉ ascii "type" := by decide

theorem pteNum_noNul : 0 ∉ ascii "pte_num" := by decide

theorem inodeSector_noNul : 0 ∉ ascii "inode_sector" := by decide

theorem inodeNum_noNul : 0 ∉ ascii "inode_num" := by decide

theorem files_noNul : 0 ∉ ascii "files" := by decide

theorem sectors_noNul : 0 ∉ ascii "sectors" := by decide

theorem extents_noNul : 0 ∉ ascii "extents" := by decide

theorem path_noNul : 0 ∉ ascii "path" := by decide

theorem size_noNul : 0 ∉ ascii "size" := by decide

theorem superblockSector_noNul : 0 ∉ ascii "superblock_sector" := by decide

theorem superblockOffset_noNul : 0 ∉ ascii "superblock_offset" := by decide

theorem blockSize_noNul : 0 ∉ ascii "block_size" := by decide

theorem blocksPerGroup_noNul : 0 ∉ ascii "blocks_per_group" := by decide

theorem inodesPerGroup_noNul : 0 ∉ ascii "inodes_per_group" := by decide

theorem inodeSize_noNul : 0 ∉ ascii "inode_size" := by decide

theorem sector_noNul : 0 ∉ ascii "sector" := by decide

theorem firstSectorLba_noNul : 0 ∉ ascii "first_sector_lba" := by decide

theorem transaction_noNul : 0 ∉ ascii "transaction" := by decide

def decKey (n : ℕ) : Bson.Key := ⟨dec n, dec_noNul n⟩

def int32Of (n : ℕ) : Value := .int32 ⟨(leBytes 4 n).toArray, leBytes_length 4 n⟩

def int64Of (n : ℕ) : Value := .int64 ⟨(leBytes 8 n).toArray, leBytes_length 8 n⟩

@[simp] theorem int32Of_raw (n : ℕ) : (int32Of n).raw = leBytes 4 n := rfl

@[simp] theorem int64Of_raw (n : ℕ) : (int64Of n).raw = leBytes 8 n := rfl

/-- A value that is read as a string of bytes. -/
def Scalar : Value → Prop
  | .double _ | .string _ | .binary _ _ | .boolean _ | .int32 _ | .int64 _ => True
  | _ => False

/-- The keys that `__deserialize_file` looks out for. -/
def reserved : List (List UInt8) :=
  [ascii "inode_sector", ascii "inode_num", ascii "files", ascii "sectors", ascii "extents",
    ascii "path"]

/-- A field of the document of a file, behind its type. The entries of `sectors` are 32-bit
sectors under a key of their own, those of `extents` and `files` have their sector for a key. -/
inductive Field where
  | inodeSector (sector : ℕ) (h : sector < 2 ^ 31)
  | inodeNum (num : ℕ) (h : num < 2 ^ 32)
  | files (entries : List (ℕ × UInt8 × List UInt8)) (h : ∀ e ∈ entries, e.1 < 2 ^ 64)
  | sectors (entries : List (Bson.Key × ℕ))
  | extents (entries : List ℕ) (h : ∀ e ∈ entries, e < 2 ^ 64)
  | path (path : List UInt8)
  | scalar (key : Bson.Key) (value : Value) (h : Scalar value) (hk : key.bytes ∉ reserved)

namespace Field

def key : Field → Bson.Key
  | .inodeSector _ _ => keyNamed "inode_sector" inodeSector_noNul
  | .inodeNum _ _ => keyNamed "inode_num" inodeNum_noNul
  | .files _ _ => keyNamed "files" files_noNul
  | .sectors _ => keyNamed "sectors" sectors_noNul
  | .extents _ _ => keyNamed "extents" extents_noNul
  | .path _ => keyNamed "path" path_noNul
  | .scalar key _ _ _ => key

def filesEntry (e : ℕ × UInt8 × List UInt8) : Bson.Key × Value := (decKey e.1, .binary e.2.1 e.2.2)

def sectorsEntry (e : Bson.Key × ℕ) : Bson.Key × Value := (e.1, int32Of e.2)

def extentsEntry (sector : ℕ) : Bson.Key × Value := (decKey sector, int64Of sector)

def value : Field → Value
  | .inodeSector sector _ => int64Of sector
  | .inodeNum num _ => int32Of num
  | .files entries _ => .array (.ofElements (entries.map filesEntry))
  | .sectors entries => .array (.ofElements (entries.map sectorsEntry))
  | .extents entries _ => .array (.ofElements (entries.map extentsEntry))
  | .path p => .string p
  | .scalar _ value _ _ => value

def element (f : Field) : Bson.Key × Value := (f.key, f.value)

/-! The commands for a field. -/

def filesCommands (id : ℕ) (e : ℕ × UInt8 × List UInt8) : List (Command KvStore.Key) :=
  [redisDirSectorInsert e.1 (ascii "file") (leBytes 8 id), redisDirFilesInsert e.1 e.2.2,
    redisDirInsert e.1 e.1]

/-- The entry with this number is taken for the block with this number. -/
def sectorsCommands (blockSize id index sector : ℕ) : List (Command KvStore.Key) :=
  [redisFileSectorsInsert id (i32 sector),
    .set (.sector (u64 (i32 sector)))
      (dataPointer (index * blockSize % 2 ^ 64) ((index + 1) * blockSize % 2 ^ 64) id)]

def extentsCommands (id sector : ℕ) : List (Command KvStore.Key) :=
  [redisExtentSectorInsert sector (ascii "file") (leBytes 8 id), redisExtentsInsert id sector,
    redisExtentsSectorInsert sector sector]

def commands (blockSize id : ℕ) : Field → List (Command KvStore.Key)
  | .inodeSector sector _ => [redisFilesInsert sector id, redisFilesSectorInsert sector sector]
  | .inodeNum num _ =>
    [redisInodeInsert num id, redisFileSectorInsert id (ascii "inode_num") (leBytes 4 num)]
  | .files entries _ => entries.flatMap (filesCommands id)
  | .sectors entries => entries.zipIdx.flatMap fun e => sectorsCommands blockSize id e.2 e.1.2
  | .extents entries _ => entries.flatMap (extentsCommands id)
  | .path p => [redisFileSectorInsert id (ascii "path") p, .set (.path p) (dec id)]
  | .scalar key value _ _ => [redisFileSectorInsert id key.bytes value.raw]

end Field

/-- A store with no flush jobs that holds this database. -/
def InDb (store : Handle) (db : Db KvStore.Key) : Prop := Settled store ∧ store.db = db

section Element

variable (heap : Heap) {fuel : ℕ} (blockSize id : ℕ)

theorem files_serves (e : ℕ × UInt8 × List UInt8) :
    Serves (filesElement id) (fun s => InDb s.1) (Field.filesEntry e)
      fun db => db.replay (Field.filesCommands id e) := by
  rintro bson vars s db hkey hseen ⟨hs, rfl⟩
  have hsector : scanInto s.2 (keyOf bson vars.value1) = e.1 := by
    rw [hkey]
    exact congrArg (Option.getD · _) (scanU64_dec _)
  obtain ⟨h₁, e₁, d₁, s₁⟩ := pipelined_issues
    (c := redisDirSectorInsert e.1 (ascii "file") (leBytes 8 id)) nofun s.1 hs
  obtain ⟨h₂, e₂, d₂, s₂⟩ := pipelined_issues (c := redisDirFilesInsert e.1 e.2.2) nofun h₁ s₁
  obtain ⟨h₃, e₃, d₃, s₃⟩ := pipelined_issues (c := redisDirInsert e.1 e.1) nofun h₂ s₂
  refine ⟨vars, (h₃, e.1), ?_, s₃, ?_⟩
  · rw [filesElement, hsector, redisHashFieldSet, Loop.bind_of_some e₁,
      Loop.bind_of_some (dataOf_sized hseen.raw), redisBinaryInsert]
    exact (Loop.bind_of_some e₂ _).trans (Loop.bind_of_some e₃ _)
  · rw [d₃, d₂, d₁]
    rfl

theorem extents_serves (sector : ℕ) :
    Serves (extentsElement id) (fun s => InDb s.1) (Field.extentsEntry sector)
      fun db => db.replay (Field.extentsCommands id sector) := by
  rintro bson vars s db hkey hseen ⟨hs, rfl⟩
  have hsector : scanInto s.2 (keyOf bson vars.value1) = sector := by
    rw [hkey]
    exact congrArg (Option.getD · _) (scanU64_dec _)
  obtain ⟨h₁, e₁, d₁, s₁⟩ := pipelined_issues
    (c := redisExtentSectorInsert sector (ascii "file") (leBytes 8 id)) nofun s.1 hs
  obtain ⟨h₂, e₂, d₂, s₂⟩ := pipelined_issues (c := redisExtentsInsert id sector) nofun h₁ s₁
  obtain ⟨h₃, e₃, d₃, s₃⟩ := pipelined_issues (c := redisExtentsSectorInsert sector sector) nofun
    h₂ s₂
  refine ⟨vars, (h₃, sector), ?_, s₃, ?_⟩
  · rw [extentsElement, hsector, redisHashFieldSet, Loop.bind_of_some e₁, redisReversePointerSet,
      Loop.bind_of_some e₂]
    exact Loop.bind_of_some e₃ _
  · rw [d₃, d₂, d₁]
    rfl

/-- The loop over `sectors` knows the number of an entry by its counter. -/
theorem sectors_serves (e : Bson.Key × ℕ) :
    Serves (sectorsElement blockSize id)
      (fun s a => InDb s.1 a.1 ∧ s.2 = a.2 * blockSize % 2 ^ 64) (Field.sectorsEntry e)
      fun a => (a.1.replay (Field.sectorsCommands blockSize id a.2 e.2), a.2 + 1) := by
  rintro bson vars ⟨store, counter⟩ ⟨db, index⟩ hkey hseen ⟨⟨hs, rfl⟩, hcounter⟩
  dsimp only at hs hcounter
  have hstop : (counter + blockSize) % 2 ^ 64 = (index + 1) * blockSize % 2 ^ 64 := by
    rw [hcounter, Nat.mod_add_mod, Nat.succ_mul]
  obtain ⟨h₁, e₁, d₁, s₁⟩ := pipelined_issues (c := redisFileSectorsInsert id (i32 e.2)) nofun
    store hs
  obtain ⟨h₂, e₂, d₂, s₂⟩ := pipelined_issues (c := .set (.sector (u64 (i32 e.2)))
    (dataPointer (index * blockSize % 2 ^ 64) ((index + 1) * blockSize % 2 ^ 64) id)) nofun h₁ s₁
  refine ⟨vars, (h₂, (index + 1) * blockSize % 2 ^ 64), ?_, ⟨s₂, ?_⟩, rfl⟩
  · rw [sectorsElement, Loop.bind_of_some (int32At_sized hseen.raw), redisReversePointerSet]
    dsimp only
    rw [Loop.bind_of_some e₁, hstop, redisReverseFileDataPointerSet, hcounter]
    exact Loop.bind_of_some e₂ _
  · rw [d₂, d₁]
    rfl

theorem foldl_sectors (l : List (Bson.Key × ℕ)) (db : Db KvStore.Key) (index : ℕ) :
    (l.foldl (fun a e => (a.1.replay (Field.sectorsCommands blockSize id a.2 e.2), a.2 + 1))
        (db, index)).1 =
      db.replay ((l.zipIdx index).flatMap
        fun e => Field.sectorsCommands blockSize id e.2 e.1.2) := by
  induction l generalizing db index with
  | nil => rfl
  | cons e l ih =>
    rw [List.foldl_cons, ih, List.zipIdx_cons, List.flatMap_cons, Redis.replay_append]

theorem whileNested_elements {τ A : Type} {R : Handle × ℕ → A → Prop} {step : A → τ → A}
    {body : BsonInfo → Vars → Handle × ℕ → Option (Bool × Vars × Handle × ℕ)}
    {element : τ → Bson.Key × Value} (l : List τ)
    (hbody : ∀ x ∈ l, Serves body R (element x) fun a => step a x)
    (hlen : (frame (Document.ofElements (l.map element)).body).length < 2 ^ 31)
    (hfuel : (frame (Document.ofElements (l.map element)).body).length < fuel)
    {bson : BsonInfo} {vars : Vars} {s : Handle × ℕ} {a : A}
    (hn : SizedAt bson.buffer vars.value2 (frame (Document.ofElements (l.map element)).body))
    (hs : R s a) :
    ∃ vars' s', whileNested heap fuel body bson vars s = some (true, vars', s') ∧
      R s' (l.foldl step a) := by
  have hcount := (Document.ofElements (l.map element)).elements_length_le
  rw [Document.elements_ofElements, List.length_map] at hcount
  have hlt : l.length < fuel := by
    rw [frame_length] at hfuel
    omega
  obtain ⟨bson2, ho, -, hc, -⟩ := bsonMakeReadable_frame
    (b := { bsonInit heap with buffer := frame (Document.ofElements (l.map element)).body })
    (by simp [bsonInit, startSize]) List.take_length hlen
  obtain ⟨bson', vars', s', hw, -, hs'⟩ := whileDeserialize_elements (· = 1)
    rfl rfl l hbody vars (Document.elements_ofElements _) hlt hc hs
  refine ⟨vars', s', ?_, hs'⟩
  rw [whileNested, Loop.bind_of_some (dataOf_sized hn), openNested, Loop.bind_of_some ho]
  dsimp only
  rw [Loop.bind_of_some hw]

theorem setField_issues (fmt : ℕ → List UInt8 → List UInt8 → Command KvStore.Key)
    {bson : BsonInfo} {value : BsonRef} {key x : List UInt8} (hkey : keyOf bson value = key)
    (hx : SizedAt bson.buffer value x) (hc : ∀ k, fmt id key x ≠ .brpop k) :
    Issues (setField fmt id bson value) [fmt id key x] := by
  intro h hs
  obtain ⟨h₁, e₁, d₁, s₁⟩ := pipelined_issues hc h hs
  refine ⟨h₁, ?_, d₁, s₁⟩
  rw [setField, Loop.bind_of_some (dataOf_sized hx), hkey]
  exact e₁

theorem field_serves (f : Field) (hlen : f.value.payload.length < 2 ^ 31)
    (hfuel : f.value.payload.length < fuel) :
    Serves (fileElement heap fuel blockSize id) (fun s => InDb s.1) f.element
      fun db => db.replay (f.commands blockSize id) := by
  rintro bson vars ⟨store, x⟩ db hkey hseen ⟨hs, rfl⟩
  dsimp only at hs
  cases f with
  | inodeSector sector h =>
    have hname : keyOf bson vars.value1 = ascii "inode_sector" := hkey
    have hsector := uintOf_sized 4 4 hseen.raw (Nat.lt_trans h (by decide))
    obtain ⟨h₁, e₁, d₁, s₁⟩ := pipelined_issues (c := redisFilesInsert sector id) nofun store hs
    obtain ⟨h₂, e₂, d₂, s₂⟩ := pipelined_issues (c := redisFilesSectorInsert sector sector) nofun
      h₁ s₁
    refine ⟨vars, (h₂, x), ?_, s₂, ?_⟩
    · rw [fileElement, hname]
      dsimp only
      rw [if_pos rfl, Loop.bind_of_some hsector, redisReversePointerSet, Loop.bind_of_some e₁]
      exact Loop.bind_of_some e₂ _
    · rw [d₂, d₁]
      rfl
  | inodeNum num h =>
    have hname : keyOf bson vars.value1 = ascii "inode_num" := hkey
    have hnum := uintOf_sized 4 0 hseen.raw h
    obtain ⟨h₁, e₁, d₁, s₁⟩ := pipelined_issues (c := redisInodeInsert num id) nofun store hs
    obtain ⟨h₂, e₂, d₂, s₂⟩ := setField_issues id redisFileSectorInsert hname
      hseen.raw nofun h₁ s₁
    refine ⟨vars, (h₂, x), ?_, s₂, ?_⟩
    · rw [fileElement, hname]
      dsimp only
      rw [if_neg (by decide), if_pos rfl, Loop.bind_of_some hnum, redisReversePointerSet,
        Loop.bind_of_some e₁]
      exact Loop.bind_of_some e₂ _
    · rw [d₂, d₁]
      rfl
  | files entries h =>
    have hname : keyOf bson vars.value1 = ascii "files" := hkey
    obtain ⟨vars', s', hw, hs'⟩ := whileNested_elements heap
      (R := fun s => InDb s.1) entries (fun e _ => files_serves id e) hlen hfuel
      (hseen.nested _ rfl) (s := (store, x)) ⟨hs, rfl⟩
    refine ⟨vars', s', ?_, ?_⟩
    · rw [fileElement, hname]
      dsimp only
      rw [if_neg (by decide), if_neg (by decide), if_pos rfl]
      exact hw
    · rw [Redis.foldl_replay] at hs'
      exact hs'
  | sectors entries =>
    have hname : keyOf bson vars.value1 = ascii "sectors" := hkey
    obtain ⟨vars', s', hw, hs', -⟩ := whileNested_elements heap entries
      (fun e _ => sectors_serves blockSize id e) hlen hfuel
      (hseen.nested _ rfl) (s := (store, 0)) (a := (store.db, 0)) ⟨⟨hs, rfl⟩, by simp⟩
    refine ⟨vars', (s'.1, x), ?_, ?_⟩
    · rw [fileElement, hname]
      dsimp only
      rw [if_neg (by decide), if_neg (by decide), if_neg (by decide), if_pos rfl,
        Loop.bind_of_some hw]
    · rw [foldl_sectors] at hs'
      exact hs'
  | extents entries h =>
    have hname : keyOf bson vars.value1 = ascii "extents" := hkey
    obtain ⟨vars', s', hw, hs'⟩ := whileNested_elements heap
      (R := fun s => InDb s.1) entries (fun e _ => extents_serves id e) hlen hfuel
      (hseen.nested _ rfl) (s := (store, x)) ⟨hs, rfl⟩
    refine ⟨vars', s', ?_, ?_⟩
    · rw [fileElement, hname]
      dsimp only
      rw [if_neg (by decide), if_neg (by decide), if_neg (by decide), if_neg (by decide), if_pos rfl]
      exact hw
    · rw [Redis.foldl_replay] at hs'
      exact hs'
  | path p =>
    have hname : keyOf bson vars.value1 = ascii "path" := hkey
    have hdata : dataOf bson vars.value1 = some p := dataOf_sized hseen.raw
    obtain ⟨h₁, e₁, d₁, s₁⟩ := setField_issues id redisFileSectorInsert hname
      hseen.raw nofun store hs
    obtain ⟨h₂, e₂, d₂, s₂⟩ := pipelined_issues (c := .set (.path p) (dec id)) nofun h₁ s₁
    refine ⟨vars, (h₂, x), ?_, s₂, ?_⟩
    · rw [fileElement, hname]
      dsimp only
      rw [if_neg (by decide), if_neg (by decide), if_neg (by decide), if_neg (by decide),
        if_neg (by decide), if_pos rfl, Loop.bind_of_some e₁, Loop.bind_of_some hdata]
      exact Loop.bind_of_some e₂ _
    · rw [d₂, d₁]
      rfl
  | scalar key value h hk =>
    have hname : keyOf bson vars.value1 = key.bytes := hkey
    obtain ⟨h₁, e₁, d₁, s₁⟩ := setField_issues id redisFileSectorInsert hname
      hseen.raw nofun store hs
    simp only [reserved, List.mem_cons, List.not_mem_nil, or_false, not_or] at hk
    refine ⟨vars, (h₁, x), ?_, s₁, d₁⟩
    rw [fileElement, hname]
    dsimp only
    rw [if_neg hk.1, if_neg hk.2.1, if_neg hk.2.2.1, if_neg hk.2.2.2.1, if_neg hk.2.2.2.2.1,
      if_neg hk.2.2.2.2.2]
    exact Loop.bind_of_some e₁ _

end Element

/-! ## Records -/

/-- A document of type `file`, by the fields behind its type. -/
def fileDocument (fields : List Field) : Document :=
  .cons (keyNamed "type" type_noNul) (.string (ascii "file"))
    (.ofElements (fields.map Field.element))

structure FileRecord where
  fields : List Field
  distinct : (fields.map fun f => f.key.bytes).Nodup
  noType : ∀ f ∈ fields, f.key.bytes ≠ ascii "type"
  path : List UInt8
  hasPath : .path path ∈ fields

def FileRecord.document (r : FileRecord) : Document := fileDocument r.fields

def FileRecord.commands (blockSize id : ℕ) (r : FileRecord) : List (Command KvStore.Key) :=
  r.fields.flatMap (Field.commands blockSize id)

/-- A document of type `fs`. -/
structure FsRecord where
  pteNum : ℕ
  pteNum_lt : pteNum < 2 ^ 32
  fields : List (Bson.Key × Value)
  scalar : ∀ e ∈ fields, Scalar e.2
  sector : ∀ e ∈ fields, e.1.bytes = ascii "superblock_sector" → ∃ n < 2 ^ 64, e.2 = int64Of n

def FsRecord.document (r : FsRecord) : Document :=
  .cons (keyNamed "type" type_noNul) (.string (ascii "fs"))
    (.cons (keyNamed "pte_num" pteNum_noNul) (int32Of r.pteNum) (.ofElements r.fields))

def fsFieldCommands (id : ℕ) (e : Bson.Key × Value) : List (Command KvStore.Key) :=
  (if e.1.bytes = ascii "superblock_sector" then [redisSuperblockInsert (leNat e.2.raw) id]
    else []) ++ [redisSuperblockSectorInsert id e.1.bytes e.2.raw]

def FsRecord.commands (r : FsRecord) : List (Command KvStore.Key) :=
  r.fields.flatMap (fsFieldCommands r.pteNum)

section Load

variable (heap : Heap) {fuel : ℕ} (locals : Locals) {bson : BsonInfo} {offset : ℕ} (st : Statics)
  {store : Handle}

theorem load_fields (fields : List Field) (hlen : (frame (fileDocument fields).body).length < 2 ^ 31)
    (hfuel : (frame (fileDocument fields).body).length < fuel)
    (hread : Read bson (fileDocument fields) offset) (hs : Settled store)
    (hcount : st.fileCounter + 1 < 2 ^ 64) :
    ∃ bson' store', qemuLoadDocument heap fuel locals bson st store =
        some (true, bson', { st with fileCounter := st.fileCounter + 1 }, store') ∧
      bson'.size = 0 ∧
      InDb store' (store.db.replay
        (fields.flatMap (Field.commands st.super.blockSize st.fileCounter))) := by
  obtain ⟨bson₁, v1, v2, he, hbuf, hkey, hseen, hc⟩ :=
    (hread.cursor hlen).element locals.vars.value1 locals.vars.value2
  have htype : cstringAt bson₁.buffer v1.data = ascii "file" := by
    rw [hbuf]
    exact hseen.text _ rfl (by decide)
  have hname : keyOf bson₁ v1 = ascii "type" := by
    rw [keyOf, hbuf]
    exact hkey
  have hbody : (Document.ofElements (fields.map Field.element)).body.length <
      (frame (fileDocument fields).body).length := by
    rw [frame_length]
    simp only [fileDocument, Document.body, List.length_append]
    omega
  have hcount' := (Document.ofElements (fields.map Field.element)).elements_length_le
  rw [Document.elements_ofElements, List.length_map] at hcount'
  have hlt : fields.length < fuel := by omega
  have hserves : ∀ f ∈ fields, Serves
      (fileElement heap fuel st.super.blockSize st.fileCounter) (fun s => InDb s.1) f.element
        fun db => db.replay (f.commands st.super.blockSize st.fileCounter) := by
    intro f hf
    have hp := (Document.ofElements (fields.map Field.element)).payload_le f.element
      (by rw [Document.elements_ofElements]; exact List.mem_map_of_mem hf)
    exact field_serves heap _ _ f (Nat.lt_trans (Nat.lt_of_le_of_lt hp hbody) hlen)
      (Nat.lt_trans (Nat.lt_of_le_of_lt hp hbody) hfuel)
  obtain ⟨bson', vars', s', hw, hz, hs'⟩ := whileDeserialize_elements (· ≠ 0) rfl rfl fields
    hserves locals.vars (Document.elements_ofElements _) hlt hc (s := (store, 0)) ⟨hs, rfl⟩
  refine ⟨bson', s'.1, ?_, hz, ?_⟩
  · rw [qemuLoadDocument, Loop.bind_of_some he]
    dsimp only
    rw [if_neg (fun h => h rfl), if_neg (fun h => h hname), if_pos htype, deserializeFile,
      Loop.bind_of_some hw]
    dsimp only
    rw [Nat.mod_eq_of_lt hcount]
  · rw [Redis.foldl_replay] at hs'
    exact hs'

theorem load_file (r : FileRecord) (hlen : (frame r.document.body).length < 2 ^ 31)
    (hfuel : (frame r.document.body).length < fuel) (hread : Read bson r.document offset)
    (hs : Settled store) (hcount : st.fileCounter + 1 < 2 ^ 64) :
    ∃ bson' store', qemuLoadDocument heap fuel locals bson st store =
        some (true, bson', { st with fileCounter := st.fileCounter + 1 }, store') ∧
      bson'.size = 0 ∧
      InDb store' (store.db.replay (r.commands st.super.blockSize st.fileCounter)) :=
  load_fields heap locals st r.fields hlen hfuel hread hs hcount

theorem fs_serves (id : ℕ) (e : Bson.Key × Value)
    (hsector : e.1.bytes = ascii "superblock_sector" → ∃ n < 2 ^ 64, e.2 = int64Of n) :
    Serves (fsElement id) InDb e fun db => db.replay (fsFieldCommands id e) := by
  rintro bson vars store db hkey hseen ⟨hs, rfl⟩
  by_cases hname : e.1.bytes = ascii "superblock_sector"
  · obtain ⟨n, hn, hv⟩ := hsector hname
    have hraw : e.2.raw = leBytes 8 n := by
      rw [hv]
      rfl
    have hnum : leNat e.2.raw = n := by
      rw [hraw, leNat_leBytes_of_lt hn]
    have hread := uintOf_sized 8 0 (hraw ▸ hseen.raw) hn
    obtain ⟨h₁, e₁, d₁, s₁⟩ := pipelined_issues (c := redisSuperblockInsert n id) nofun store hs
    obtain ⟨h₂, e₂, d₂, s₂⟩ := setField_issues id redisSuperblockSectorInsert hkey hseen.raw nofun
      h₁ s₁
    refine ⟨vars, h₂, ?_, s₂, ?_⟩
    · rw [fsElement, hkey, if_pos hname]
      rw [Loop.bind_of_some hread, redisReversePointerSet, Loop.bind_of_some e₁]
      exact Loop.bind_of_some e₂ _
    · rw [d₂, d₁, fsFieldCommands, if_pos hname, hnum]
      rfl
  · obtain ⟨h₁, e₁, d₁, s₁⟩ := setField_issues id redisSuperblockSectorInsert hkey hseen.raw nofun
      store hs
    refine ⟨vars, h₁, ?_, s₁, ?_⟩
    · rw [fsElement, hkey, if_neg hname]
      exact Loop.bind_of_some e₁ _
    · rw [d₁, fsFieldCommands, if_neg hname]
      rfl

theorem getField_total (id : ℕ) (field : String) (old : ℕ) (hs : Settled store) :
    ∃ n store', getField redisSuperblockSectorGet id field old store = some (n, store') ∧
      InDb store' store.db := by
  obtain ⟨r, he⟩ : ∃ r, Redis.exec store.db (redisSuperblockSectorGet id (ascii field)) =
      some (r, store.db) := Redis.exec_after nofun
  obtain ⟨h₁, ha, hdb, hs₁⟩ := ask_total hs (copyString 8) he
  refine ⟨leNat (copyString 8 r ++ (leBytes 8 old).drop (copyString 8 r).length), h₁, ?_, hs₁, hdb⟩
  rw [getField, redisHashFieldGet, Loop.bind_of_some ha]

theorem qemuGetSuperinfo_total (old : SuperInfo) (id : ℕ) (hs : Settled store) :
    ∃ super store', qemuGetSuperinfo store old id = some (super, store') ∧
      InDb store' store.db := by
  obtain ⟨a, h₁, e₁, s₁, d₁⟩ := getField_total id "superblock_sector" old.superblockSector hs
  obtain ⟨b, h₂, e₂, s₂, d₂⟩ := getField_total id "superblock_offset" old.superblockOffset s₁
  obtain ⟨c, h₃, e₃, s₃, d₃⟩ := getField_total id "block_size" old.blockSize s₂
  obtain ⟨d, h₄, e₄, s₄, d₄⟩ := getField_total id "blocks_per_group" old.blocksPerGroup s₃
  obtain ⟨e, h₅, e₅, s₅, d₅⟩ := getField_total id "inodes_per_group" old.inodesPerGroup s₄
  obtain ⟨f, h₆, e₆, s₆, d₆⟩ := getField_total id "inode_size" old.inodeSize s₅
  refine ⟨⟨a, b, c, d, e, f⟩, h₆, ?_, s₆, ?_⟩
  · rw [qemuGetSuperinfo]
    dsimp only
    rw [Loop.bind_of_some e₁, Loop.bind_of_some e₂, Loop.bind_of_some e₃, Loop.bind_of_some e₄,
      Loop.bind_of_some e₅, Loop.bind_of_some e₆]
  · rw [d₆, d₅, d₄, d₃, d₂, d₁]

/-- The head of a document about a partition: its type and the number of the partition. -/
theorem numbered_document (type : String) (htype : 0 ∉ ascii type) {pteNum : ℕ}
    (hnum : pteNum < 2 ^ 32) {rest : Document} {total : ℕ}
    (hc : Cursor bson total ((Document.cons (keyNamed "type" (by decide)) (.string (ascii type))
      (.cons (keyNamed "pte_num" (by decide)) (int32Of pteNum) rest)).body ++ [0])) :
    ∃ bson₁ v1 v2 bson₂ w1 w2,
      bsonDeserialize bson locals.vars.value1 locals.vars.value2 = some (1, bson₁, v1, v2) ∧
      keyOf bson₁ v1 = ascii "type" ∧ cstringAt bson₁.buffer v1.data = ascii type ∧
      bsonDeserialize bson₁ v1 v2 = some (1, bson₂, w1, w2) ∧ keyOf bson₂ w1 = ascii "pte_num" ∧
      uintOf 4 bson₂ w1 = some pteNum ∧ Cursor bson₂ total (rest.body ++ [0]) := by
  obtain ⟨bson₁, v1, v2, he₁, hbuf₁, hkey₁, hseen₁, hc₁⟩ :=
    hc.element locals.vars.value1 locals.vars.value2
  obtain ⟨bson₂, w1, w2, he₂, hbuf₂, hkey₂, hseen₂, hc₂⟩ := hc₁.element v1 v2
  refine ⟨bson₁, v1, v2, bson₂, w1, w2, he₁, ?_, ?_, he₂, ?_, ?_, hc₂⟩
  · rw [keyOf, hbuf₁]
    exact hkey₁
  · rw [hbuf₁]
    exact hseen₁.text _ rfl htype
  · rw [keyOf, hbuf₂]
    exact hkey₂
  · exact uintOf_sized 4 0 (hbuf₂ ▸ hseen₂.raw) hnum

/-- `Q` is what is known of the geometry that the loader reads back. -/
theorem load_fs_super (r : FsRecord) {Q : SuperInfo → Prop}
    (hlen : (frame r.document.body).length < 2 ^ 31)
    (hfuel : (frame r.document.body).length < fuel) (hread : Read bson r.document offset)
    (hs : Settled store) (hsuper : ∀ h, InDb h (store.db.replay r.commands) → ∃ super h',
      qemuGetSuperinfo h locals.super r.pteNum = some (super, h') ∧ InDb h' h.db ∧ Q super) :
    ∃ bson' super store', qemuLoadDocument heap fuel locals bson st store =
        some (true, bson', { st with fsId := r.pteNum, super := super }, store') ∧
      bson'.size = 0 ∧ InDb store' (store.db.replay r.commands) ∧ Q super := by
  obtain ⟨bson₁, v1, v2, bson₂, w1, w2, he₁, hname₁, htype, he₂, hname₂, hid, hc₂⟩ :=
    numbered_document locals "fs" (by decide) r.pteNum_lt (hread.cursor hlen)
  have hcount := (Document.ofElements r.fields).elements_length_le
  have hlt : r.fields.length < fuel := by
    rw [Document.elements_ofElements] at hcount
    rw [frame_length] at hfuel
    simp only [FsRecord.document, Document.body, List.length_append] at hfuel
    omega
  obtain ⟨bson', vars', s', hw, hz, hs', hdb'⟩ := whileDeserialize_elements (· ≠ 0) rfl rfl r.fields
    (fun e he => fs_serves r.pteNum e (r.sector e he)) locals.vars
    (by rw [Document.elements_ofElements, List.map_id']) hlt hc₂ ⟨hs, rfl⟩
  obtain ⟨h₁, hf, hdb₁, hs₁⟩ := flush_issues s' hs'
  have hdb : h₁.db = store.db.replay r.commands := by
    rw [hdb₁, Redis.replay_nil, hdb', Redis.foldl_replay]
    rfl
  obtain ⟨super, h₂, hg, ⟨hs₂, hdb₂⟩, hQ⟩ := hsuper h₁ ⟨hs₁, hdb⟩
  refine ⟨bson', super, h₂, ?_, hz, ⟨hs₂, hdb₂.trans hdb⟩, hQ⟩
  rw [qemuLoadDocument, Loop.bind_of_some he₁]
  dsimp only
  rw [if_neg (fun h => h rfl), if_neg (fun h => h hname₁), htype, if_neg (by decide),
    if_neg (by decide), if_pos rfl, Loop.bind_of_some he₂]
  dsimp only
  rw [if_neg (fun h => h rfl), if_neg (fun h => h hname₂), Loop.bind_of_some hid, deserializeFs,
    Loop.bind_of_some hw]
  dsimp only
  rw [Loop.bind_of_some hf, Loop.bind_of_some hg]
  rfl

theorem load_fs (r : FsRecord) (hlen : (frame r.document.body).length < 2 ^ 31)
    (hfuel : (frame r.document.body).length < fuel) (hread : Read bson r.document offset)
    (hs : Settled store) :
    ∃ bson' super store', qemuLoadDocument heap fuel locals bson st store =
        some (true, bson', { st with fsId := r.pteNum, super := super }, store') ∧
      bson'.size = 0 ∧ InDb store' (store.db.replay r.commands) := by
  obtain ⟨bson', super, store', hl, hz, hin, -⟩ := load_fs_super (Q := fun _ => True) heap locals
    st r hlen hfuel hread hs fun h hin => by
      obtain ⟨super, h', hg, hin'⟩ := qemuGetSuperinfo_total locals.super r.pteNum hin.1
      exact ⟨super, h', hg, hin', trivial⟩
  exact ⟨bson', super, store', hl, hz, hin⟩

end Load

end GammaRay.Loader
