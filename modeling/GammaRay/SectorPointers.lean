import GammaRay.FileData

set_option autoImplicit false

/-!
# Pointers of sectors

The texts that are stored under the keys of sectors, the order in which they are told apart,
and the numbers that the handlers take out of them again.
-/
namespace GammaRay.KvStore
open Redis

def redisBlockdmapInsert (sector : ℕ) (id : ℤ) : Command Key :=
  .set (.sector sector) (reference "bgd:" id)

def redisLoadLrecords (sector : ℕ) (id : ℤ) : Command Key :=
  .set (.sector sector) (reference "loadlist:" id)

def redisDataInsert (sector start stop file : ℕ) : Command Key :=
  .set (.sector sector) (dataPointer start stop file)

end GammaRay.KvStore

namespace GammaRay.Inspect
open Bytes Decimal Redis KvStore Inspector

/-- The handlers of `__qemu_dispatch_write`, in the order of its comparisons. -/
inductive PointerKind where
  | data
  | fs
  | mbr
  | lbgds
  | lfiles
  | bgd
  | extent
  | dirdata
  | loadlist
  | load
  deriving DecidableEq

namespace PointerKind

def all : List PointerKind :=
  [data, fs, mbr, lbgds, lfiles, bgd, extent, dirdata, loadlist, load]

def word : PointerKind → String
  | data => "start"
  | fs => "fs"
  | mbr => "mbr"
  | lbgds => "lbgds"
  | lfiles => "lfiles"
  | bgd => "bgd"
  | extent => "extent"
  | dirdata => "dirdata"
  | loadlist => "loadlist"
  | load => "load"

/-- The tokens that the handler scans. `__diff_mbr` and `__diff_bitmap` scan none. -/
def places : PointerKind → List ℕ
  | data => [1, 3, 5]
  | mbr | bgd => []
  | fs | lbgds | lfiles | extent | dirdata | loadlist | load => [1]

/-- The numbers that the handler reads into variables that hold `old`. -/
def parse (kind : PointerKind) (old : ℕ → ℕ) (pointer : List UInt8) : Option (List ℕ) :=
  kind.places.mapM fun j => (tokens pointer)[j]?.map (scanInto (old j))

end PointerKind

/-- The handler a pointer is dispatched to. -/
def pointerKind (pointer : List UInt8) : Option PointerKind :=
  PointerKind.all.find? fun kind => named kind.word pointer

theorem elim_find?_cons {α β : Type} (p : α → Bool) (a : α) (l : List α) (b : β) (f : α → β) :
    ((a :: l).find? p).elim b f = if p a then f a else (l.find? p).elim b f := by
  rw [List.find?_cons]
  cases p a <;> rfl

theorem named_load {pointer : List UInt8} (h : named "loadlist" pointer = true) :
    named "load" pointer = true := by
  obtain ⟨rest, rfl⟩ := List.isPrefixOf_iff_prefix.mp h
  rfl

namespace Inspector

variable {σ : Type} (c : Inspector σ)

def handle (kind : PointerKind) (inspect : BdrvWrite → Act σ Unit) (data : List UInt8)
    (writeCounter : ℕ) (pointer : List UInt8) (len sector : ℕ) : Act σ Unit :=
  match kind with
  | .data => c.emitFileBytes data writeCounter pointer len sector
  | .fs => c.diffSuperblock data writeCounter pointer
  | .lbgds => c.diffBgds data writeCounter pointer
  | .lfiles => c.diffInodes inspect data writeCounter pointer
  | .extent => c.diffExtentTree inspect data pointer
  | .mbr | .bgd | .dirdata => pure ()
  | .loadlist | .load => defined none

theorem dispatchWrite_eq (inspect : BdrvWrite → Act σ Unit) (data : List UInt8)
    (writeCounter : ℕ) (pointer : List UInt8) (len sector : ℕ) :
    c.dispatchWrite inspect data writeCounter pointer len sector =
      (pointerKind pointer).elim (pure ())
        fun kind => c.handle kind inspect data writeCounter pointer len sector := by
  simp only [pointerKind, PointerKind.all, elim_find?_cons, List.find?_nil, Option.elim_none,
    PointerKind.word, handle, dispatchWrite]
  by_cases hlist : named "loadlist" pointer = true
  · rw [if_pos hlist, if_pos (named_load hlist)]
  · rw [if_neg hlist]

theorem pointerTarget_eq_parse {kind : PointerKind} (h : kind.places = [1]) (old : ℕ → ℕ)
    (pointer : List UInt8) (s : State σ) :
    pointerTarget (old 1) pointer s =
      (kind.parse old pointer).bind fun ids => ids.head?.map fun id => (id, s) := by
  rw [PointerKind.parse, h, pointerTarget]
  simp only [List.mapM_cons, List.mapM_nil]
  cases (tokens pointer)[1]? <;> rfl

end Inspector

/-! ## What the program stores -/

/-- A pointer that is stored under the key of a sector. -/
inductive Pointer where
  | mbr (id : UInt64)
  | fs (id : UInt64)
  | lbgds (id : UInt64)
  | bgd (id : UInt64)
  | lfiles (id : UInt64)
  | extent (id : UInt64)
  | dirdata (id : UInt64)
  | loadlist (id : UInt64)
  | data (start stop file : UInt64)

/-- `%s:%llu`. -/
def recordText (kind : PointerKind) (id : UInt64) : List UInt8 :=
  ascii kind.word ++ [58] ++ dec id.toNat

namespace Pointer

def kind : Pointer → PointerKind
  | mbr _ => .mbr
  | fs _ => .fs
  | lbgds _ => .lbgds
  | bgd _ => .bgd
  | lfiles _ => .lfiles
  | extent _ => .extent
  | dirdata _ => .dirdata
  | loadlist _ => .loadlist
  | data .. => .data

def insert (sector : ℕ) : Pointer → Command KvStore.Key
  | mbr id => redisMbrInsert sector id.toNat
  | fs id => redisSuperblockInsert sector id.toNat
  | lbgds id => redisBgdsSectorInsert sector id.toNat
  | bgd id => redisBlockdmapInsert sector id.toNat
  | lfiles id => redisFilesSectorInsert sector id.toNat
  | extent id => redisExtentsSectorInsert sector id.toNat
  | dirdata id => redisDirInsert sector id.toNat
  | loadlist id => redisLoadLrecords sector id.toNat
  | data start stop file => redisDataInsert sector start.toNat stop.toNat file.toNat

/-- What a handler that scans the pointer has to find. -/
def ids : Pointer → List ℕ
  | mbr _ | bgd _ => []
  | fs id | lbgds id | lfiles id | extent id | dirdata id | loadlist id => [id.toNat]
  | data start stop file => [start.toNat, stop.toNat, file.toNat]

def text : Pointer → List UInt8
  | data start stop file => dataPointer start.toNat stop.toNat file.toNat
  | mbr id => recordText .mbr id
  | fs id => recordText .fs id
  | lbgds id => recordText .lbgds id
  | bgd id => recordText .bgd id
  | lfiles id => recordText .lfiles id
  | extent id => recordText .extent id
  | dirdata id => recordText .dirdata id
  | loadlist id => recordText .loadlist id

theorem insert_eq (p : Pointer) (sector : ℕ) : p.insert sector = .set (.sector sector) p.text := by
  have hid : ∀ id : UInt64, u64 id.toNat = id.toNat := fun id => u64_natCast id.toNat_lt
  cases p
  case data => rfl
  all_goals
    simp only [insert, text, recordText, redisMbrInsert, redisSuperblockInsert,
      redisBgdsSectorInsert, redisBlockdmapInsert, redisFilesSectorInsert,
      redisExtentsSectorInsert, redisDirInsert, redisLoadLrecords, reference, hid]
    rfl

theorem text_length (p : Pointer) : p.text.length < 1024 := by
  have hrecord : ∀ kind (id : UInt64), (recordText kind id).length < 1024 := by
    intro kind id
    have hid := dec_length_le (by decide)
      (show id.toNat < 10 ^ 20 from lt_trans id.toNat_lt (by decide))
    have hword : (ascii kind.word).length ≤ 8 := by cases kind <;> decide
    simp only [recordText, List.length_append, List.length_singleton]
    omega
  cases p
  case data start stop file =>
    exact dataPointer_length start.toNat_lt stop.toNat_lt file.toNat_lt
  all_goals exact hrecord _ _

theorem pointerKind_text (p : Pointer) : pointerKind p.text = some p.kind := by
  cases p <;> rfl

theorem parse_recordText {kind : PointerKind} (h : kind.places = [1]) (old : ℕ → ℕ) (id : UInt64) :
    kind.parse old (recordText kind id) = some [id.toNat] := by
  have hword : ascii kind.word ≠ [] ∧ 0 ∉ ascii kind.word ∧ 58 ∉ ascii kind.word := by
    cases kind <;> decide
  rw [PointerKind.parse, h, recordText, tokens_named hword.1 hword.2.1 hword.2.2]
  simp [scanInto_dec]

theorem parse_text (p : Pointer) (old : ℕ → ℕ) : p.kind.parse old p.text = some p.ids := by
  cases p
  case mbr | bgd => rfl
  case data start stop file =>
    simp [kind, text, ids, PointerKind.parse, PointerKind.places, tokens_dataPointer, scanInto_dec]
  all_goals exact parse_recordText rfl old _

end Pointer

end GammaRay.Inspect
