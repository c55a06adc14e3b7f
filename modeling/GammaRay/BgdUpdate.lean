import GammaRay.InodeUpdate
import GammaRay.FileClipping

set_option autoImplicit false

/-!
# A write to a block of group descriptors

`__diff_bgds` reads the fields of a descriptor into the variable that bounds its loop. The
descriptors it compares are the first eight, however long the list is.
-/
namespace GammaRay.Inspect
open Bytes Decimal Redis KvStore Bson Ext4 Total

/-! ## One descriptor -/

def bgdNames : List (String × BsonType) :=
  [("block_bitmap_sector_start", .int64), ("inode_bitmap_sector_start", .int64),
    ("inode_table_sector_start", .int64)]

def Setup.bgdValues (u : Setup) (new : BlockGroupDescriptor) : List (List UInt8) :=
  [new.bgBlockBitmapLo, new.bgInodeBitmapLo, new.bgInodeTableLo].map fun block =>
    leBytes 8 (u.sectorOf block)

/-- The three sectors of a descriptor as the store has them. -/
structure StoredBgd (d : Db KvStore.Key) (id : ℕ) (h : List UInt8 → Option (List UInt8))
    (values : List (List UInt8)) : Prop where
  hash : d.keys (.bgd id) = some (.hash h)
  fields : bgdNames.map (fun a => h (ascii a.1)) = values.map some
  widths : values.map List.length = [8, 8, 8]

/-- A descriptor of a write compared with the one in the store. -/
def Setup.bgdCompared (u : Setup) (h : List UInt8 → Option (List UInt8))
    (new : BlockGroupDescriptor) : List Compared :=
  compareAll bgdNames (bgdNames.map fun a => (h (ascii a.1)).getD []) (u.bgdValues new)

/-- What is left when the descriptor has been compared: a message for every field that changed,
and the new values. -/
def Setup.bgdStep (u : Setup) (writeCounter id : ℕ) (new : BlockGroupDescriptor)
    (d : Db KvStore.Key) : Db KvStore.Key :=
  match d.keys (.bgd id) with
  | some (.hash h) =>
    (announced d (notices (u.constructChannelName []) "bgd." writeCounter
      (u.bgdCompared h new))).put (.bgd id) (some (.hash ((u.bgdCompared h new).foldl assign h)))
  | _ => d

/-- The first `m` descriptors of a list, each compared with the one at its place in the write. -/
def Setup.bgdsAfter (u : Setup) (writeCounter : ℕ) (ids : List ℕ) (write : List UInt8) (m : ℕ)
    (d : Db KvStore.Key) : Db KvStore.Key :=
  (List.range m).foldl (fun d i =>
    match ids[i]?, bgdAt (bufferOf write) i with
    | some id, some new => u.bgdStep writeCounter id new d
    | _, _ => d) d

section Step

variable {u : Setup} {d : Db KvStore.Key} {id writeCounter : ℕ}
  {h : List UInt8 → Option (List UInt8)} {values : List (List UInt8)}
  {new : BlockGroupDescriptor}

theorem StoredBgd.compared (hst : StoredBgd d id h values) :
    u.bgdCompared h new = compareAll bgdNames values (u.bgdValues new) := by
  have hmap : (bgdNames.map fun a => (h (ascii a.1)).getD []) = values := by
    have hf := congrArg (List.map fun o => Option.getD o []) hst.fields
    simpa only [List.map_map, Function.comp_def, Option.getD_some, List.map_id'] using hf
  rw [Setup.bgdCompared, hmap]

theorem StoredBgd.step_eq (hst : StoredBgd d id h values) :
    u.bgdStep writeCounter id new d =
      (announced d (notices (u.constructChannelName []) "bgd." writeCounter
        (compareAll bgdNames values (u.bgdValues new)))).put (.bgd id)
          (some (.hash ((compareAll bgdNames values (u.bgdValues new)).foldl assign h))) := by
  rw [Setup.bgdStep, hst.hash]
  simp only [hst.compared]

theorem bgdValues_widths (u : Setup) (new : BlockGroupDescriptor) :
    (u.bgdValues new).map List.length = [8, 8, 8] := by
  simp [Setup.bgdValues]

theorem StoredBgd.step (hst : StoredBgd d id h values) :
    StoredBgd (u.bgdStep writeCounter id new d) id
      ((compareAll bgdNames values (u.bgdValues new)).foldl assign h) (u.bgdValues new) where
  hash := by
    rw [hst.step_eq]
    exact keys_put_self _
  fields := foldl_assign_compareAll (by decide) rfl hst.fields
  widths := bgdValues_widths u new

/-- The other descriptors stay as they are. -/
theorem StoredBgd.step_of_ne (hst : StoredBgd d id h values) {other : ℕ} (hne : id ≠ other)
    {k : List UInt8 → Option (List UInt8)} {vs : List (List UInt8)} (ho : StoredBgd d other k vs) :
    StoredBgd (u.bgdStep writeCounter other new d) id h values where
  hash := by
    rw [ho.step_eq, keys_put_of_ne (by simpa using hne)]
    exact hst.hash
  fields := hst.fields
  widths := hst.widths

end Step

/-- All descriptors of a list are in the store with all their fields. -/
def AllStored (d : Db KvStore.Key) (ids : List ℕ) : Prop :=
  ∀ id ∈ ids, ∃ h values, StoredBgd d id h values

theorem AllStored.step {u : Setup} {d : Db KvStore.Key} {ids : List ℕ} (hall : AllStored d ids)
    {id : ℕ} (hid : id ∈ ids) (writeCounter : ℕ) (new : BlockGroupDescriptor) :
    AllStored (u.bgdStep writeCounter id new d) ids := by
  intro other ho
  obtain ⟨h, values, hst⟩ := hall id hid
  obtain ⟨k, vs, hother⟩ := hall other ho
  by_cases he : other = id
  · rw [he]
    exact ⟨_, _, hst.step⟩
  · exact ⟨k, vs, hother.step_of_ne he hst⟩

section After

variable {u : Setup} {d : Db KvStore.Key} {writeCounter : ℕ} {ids : List ℕ} {write : List UInt8}

theorem bgdsAfter_succ {m id : ℕ} {new : BlockGroupDescriptor} (hid : ids[m]? = some id)
    (hnew : bgdAt (bufferOf write) m = some new) :
    u.bgdsAfter writeCounter ids write (m + 1) d =
      u.bgdStep writeCounter id new (u.bgdsAfter writeCounter ids write m d) := by
  rw [Setup.bgdsAfter, List.range_succ, List.foldl_append]
  simp only [List.foldl_cons, List.foldl_nil, hid, hnew]
  rfl

theorem AllStored.after (hall : AllStored d ids) (u : Setup) (writeCounter : ℕ)
    (write : List UInt8) (m : ℕ) :
    AllStored (u.bgdsAfter writeCounter ids write m d) ids := by
  induction m with
  | zero => exact hall
  | succ m ih =>
    rw [Setup.bgdsAfter, List.range_succ, List.foldl_append]
    change AllStored (List.foldl _ (u.bgdsAfter writeCounter ids write m d) [m]) ids
    rw [List.foldl_cons, List.foldl_nil]
    split
    · rename_i id new hid hnew
      exact ih.step (List.mem_of_getElem? hid) _ _
    · exact ih

end After

/-! ## The loop -/

namespace Inspector

variable {σ : Type} {c : Inspector σ} (L : Lawful c.service) {s : State σ} {d : Db KvStore.Key}
  {ids : List ℕ} {write : List UInt8} {writeCounter : ℕ}

def bgdList (ids : List ℕ) : List (List UInt8) := ids.map fun id : ℕ => reference "bgd:" id

/-- One iteration, after which the bound is 8. -/
theorem diffBgdsLoop_step (hs : L.At s d) {id : ℕ} (hid : id < 2 ^ 64)
    {h : List UInt8 → Option (List UInt8)} {values : List (List UInt8)}
    (hst : StoredBgd d id h values) {list olds : List (List UInt8)} {i len : ℕ} (hi : i < len)
    (helement : list[i]? = some (reference "bgd:" id)) {new : BlockGroupDescriptor}
    (hnew : bgdAt (bufferOf write) i = some new) (holds : olds.map List.length = [8, 8, 8])
    (writeCounter fuel bgd : ℕ) :
    ∃ t, L.At t (c.bgdStep writeCounter id new d) ∧
      c.diffBgdsLoop write writeCounter list (fuel + 1) len i bgd olds s =
        c.diffBgdsLoop write writeCounter list fuel 8 (i + 1) id values t := by
  have htoken := tokens_reference (show ascii "bgd:" = ascii "bgd" ++ [58] from rfl) (by decide)
    (by decide) (by decide) hid
  rw [diffBgdsLoop, if_pos hi, helement, hnew]
  have hname : pointerTarget bgd (reference "bgd:" id) s = some (id, s) := by
    rw [pointerTarget_eq htoken, scanInto_dec]
  have hread : Ensures ((bgdNames.zip olds).mapM fun p => c.getField redisBgdSectorGet id p.1.1 p.2)
      s fun vs t => vs = values ∧ L.At t d :=
    getFields_at L (fun _ => rfl) hs hst.hash
      (by rw [← List.length_map (f := List.length), holds]; rfl) (holds.trans hst.widths.symm)
      hst.fields
  obtain ⟨read, t₁, ⟨hvalues, ht₁⟩, hfetched⟩ := hread.bind_eq
  have hcompare : Ensures ((compareAll bgdNames values (c.bgdValues new)).forM
      (c.directFieldCompare "bgd." (c.constructChannelName []) writeCounter)) t₁ fun _ t =>
        L.At t (announced d (notices (c.constructChannelName []) "bgd." writeCounter
          (compareAll bgdNames values (c.bgdValues new)))) :=
    compareFields_at L (by decide) ht₁
      (compareAll_fits (by decide) hst.widths (bgdValues_widths c.toSetup new)) _ _
  obtain ⟨_, t₂, ht₂, hcompared⟩ := hcompare.bind_eq
  have hstore : Ensures ((compareAll bgdNames values (c.bgdValues new)).forM
      (c.setField redisBgdSectorInsert id)) t₂ fun _ t => L.At t ((announced d
        (notices (c.constructChannelName []) "bgd." writeCounter
          (compareAll bgdNames values (c.bgdValues new)))).put (.bgd id)
            (some (.hash ((compareAll bgdNames values (c.bgdValues new)).foldl assign h)))) :=
    setFields_at L (fun _ _ => rfl) ht₂ hst.hash _
  obtain ⟨_, t₃, ht₃, hstored⟩ := hstore.bind_eq
  refine ⟨t₃, ?_, ?_⟩
  · rw [hst.step_eq]
    exact ht₃
  · subst hvalues
    refine (bind_of_eq (a := reference "bgd:" id) (t := s) rfl _).trans ?_
    refine (bind_of_eq hname _).trans ?_
    refine (hfetched _).trans ?_
    refine (bind_of_eq (a := new) (t := t₁) rfl _).trans ?_
    refine (hcompared _).trans ?_
    exact hstored fun _ => c.diffBgdsLoop write writeCounter list fuel 8 (i + 1) id read

omit L in
theorem bgdAt_full {i : ℕ} (h : (i + 1) * bgdSize ≤ write.length) :
    ∃ new, bgdAt (bufferOf write) i = some new := by
  have hsize : bgdSize = 32 := rfl
  rw [hsize] at h
  have hfield : ∀ o, o + 4 ≤ write.length → ∃ n, field (bufferOf write) o 4 = some n := by
    intro o ho
    obtain ⟨bytes, hbytes, -⟩ := @mapM_full _ _ (fun j => bufferOf write (o + j)) (List.range 4)
      fun j hj => ⟨_, List.getElem?_eq_getElem (by rw [List.mem_range] at hj; omega)⟩
    exact ⟨leNat bytes, by rw [field, hbytes]; rfl⟩
  obtain ⟨x, hx⟩ := hfield (i * bgdSize) (by rw [hsize]; omega)
  obtain ⟨y, hy⟩ := hfield (i * bgdSize + 4) (by rw [hsize]; omega)
  obtain ⟨z, hz⟩ := hfield (i * bgdSize + 8) (by rw [hsize]; omega)
  exact ⟨⟨x, y, z⟩, by rw [bgdAt, hx, hy, hz]; rfl⟩

/-- Up to eight iterations. The bound is the length of the list for the first of them only. -/
theorem diffBgdsLoop_run (hs : L.At s d) (hids : ∀ id ∈ ids, id < 2 ^ 64) (hall : AllStored d ids)
    (hwrite : ids.length * bgdSize ≤ write.length) {olds : List (List UInt8)}
    (holds : olds.map List.length = [8, 8, 8]) (writeCounter fuel bgd : ℕ) {m : ℕ}
    (hm : m ≤ ids.length) (hm8 : m ≤ 8) :
    ∃ t bgd' olds', L.At t (c.bgdsAfter writeCounter ids write m d) ∧
      olds'.map List.length = [8, 8, 8] ∧
      c.diffBgdsLoop write writeCounter (bgdList ids) (fuel + m)
          ids.length 0 bgd olds s =
        c.diffBgdsLoop write writeCounter (bgdList ids) fuel
          (if m = 0 then ids.length else 8) m bgd' olds' t := by
  induction m generalizing fuel with
  | zero => exact ⟨s, bgd, olds, hs, holds, rfl⟩
  | succ m ih =>
    obtain ⟨t, bgd', olds', ht, hlen, hrun⟩ := ih (fuel + 1) (by omega) (by omega)
    obtain ⟨id, hid⟩ : ∃ id, ids[m]? = some id := ⟨_, List.getElem?_eq_getElem (by omega)⟩
    have hmem := List.mem_of_getElem? hid
    obtain ⟨new, hnew⟩ := @bgdAt_full write m
      (le_trans (Nat.mul_le_mul_right bgdSize hm) hwrite)
    obtain ⟨h, values, hst⟩ := hall.after c.toSetup writeCounter write m id hmem
    have hbound : m < if m = 0 then ids.length else 8 := by split <;> omega
    have helement : (bgdList ids)[m]? = some (reference "bgd:" id) := by
      rw [bgdList, List.getElem?_map, hid]
      rfl
    obtain ⟨t', ht', hstep⟩ := diffBgdsLoop_step L ht (hids id hmem) hst hbound helement hnew hlen
      writeCounter fuel bgd'
    refine ⟨t', id, values, ?_, hst.widths, ?_⟩
    · rw [bgdsAfter_succ hid hnew]
      exact ht'
    · rw [if_neg (Nat.succ_ne_zero m), ← hstep, ← hrun, Nat.add_right_comm, Nat.add_assoc]

/-- What the loop is started on. -/
theorem diffBgds_eq (hs : L.At s d) {lbgds : ℕ} (hlbgds : lbgds < 2 ^ 64)
    (hlist : d.listAt (.bgds lbgds) = some (bgdList ids)) (write : List UInt8)
    (writeCounter : ℕ) :
    ∃ t olds, L.At t d ∧ olds.map List.length = [8, 8, 8] ∧
      c.diffBgds write writeCounter (reference "lbgds:" lbgds) s =
        c.diffBgdsLoop write writeCounter (bgdList ids) (ids.length + 8) ids.length 0 0 olds t := by
  have htoken := tokens_reference (show ascii "lbgds:" = ascii "lbgds" ++ [58] from rfl) (by decide)
    (by decide) (by decide) hlbgds
  obtain ⟨vars, t₁, ⟨-, ht₁⟩, henter⟩ := (enter_at L hs).bind_eq
  have hname : pointerTarget 0 (reference "lbgds:" lbgds) t₁ = some (lbgds, t₁) := by
    rw [pointerTarget_eq htoken, scanInto_dec]
  obtain ⟨r, t₂, ⟨hr, ht₂⟩, hquery⟩ := (@query_at σ c L t₁ d (redisBgdsLget lbgds) ht₁
    (by simp [redisBgdsLget]) rfl).bind_eq
  rw [redisBgdsLget, answer_lrange hlist] at hr
  subst hr
  refine ⟨t₂, [junk vars 0 8, junk vars 8 8, junk vars 16 8], ht₂, rfl, ?_⟩
  unfold diffBgds
  refine (henter _).trans ((bind_of_eq hname _).trans ((hquery _).trans ?_))
  refine (bind_of_eq (a := bgdList ids) (t := t₂) rfl _).trans ?_
  rw [bgdList, List.length_map]

section Outcome

variable {lbgds : ℕ} (hs : L.At s d) (hlbgds : lbgds < 2 ^ 64)
  (hlist : d.listAt (.bgds lbgds) = some (bgdList ids)) (hids : ∀ id ∈ ids, id < 2 ^ 64)
  (hall : AllStored d ids) (hwrite : ids.length * bgdSize ≤ write.length)

include hs hlbgds hlist

theorem diffBgds_empty (hempty : ids = []) :
    Ensures (c.diffBgds write writeCounter (reference "lbgds:" lbgds)) s fun _ t => L.At t d := by
  obtain ⟨t, olds, ht, -, heq⟩ := diffBgds_eq L hs hlbgds hlist write writeCounter
  refine ⟨(), t, heq.trans ?_, ht⟩
  rw [hempty]
  rfl

include hids hall hwrite

/-- A long list is compared up to its eighth descriptor. -/
theorem diffBgds_long (hlong : 8 ≤ ids.length) :
    Ensures (c.diffBgds write writeCounter (reference "lbgds:" lbgds)) s fun _ t =>
      L.At t (c.bgdsAfter writeCounter ids write 8 d) := by
  obtain ⟨t, olds, ht, holds, heq⟩ := diffBgds_eq L hs hlbgds hlist write writeCounter
  obtain ⟨t', bgd', olds', ht', -, hrun⟩ := diffBgdsLoop_run L ht hids hall
    hwrite holds writeCounter ids.length 0 hlong le_rfl
  refine ⟨(), t', heq.trans (hrun.trans ?_), ht'⟩
  obtain ⟨n, hn⟩ := Nat.exists_eq_succ_of_ne_zero (show ids.length ≠ 0 by omega)
  rw [hn]
  rfl

/-- A short list is read behind its end. -/
theorem diffBgds_short (hne : ids ≠ []) (hshort : ids.length < 8) :
    c.diffBgds write writeCounter (reference "lbgds:" lbgds) s = none := by
  obtain ⟨t, olds, ht, holds, heq⟩ := diffBgds_eq L hs hlbgds hlist write writeCounter
  obtain ⟨t', bgd', olds', ht', -, hrun⟩ := diffBgdsLoop_run L ht hids hall
    hwrite holds writeCounter 8 0 le_rfl hshort.le
  have hlength : ids.length ≠ 0 := fun h => hne (List.eq_nil_of_length_eq_zero h)
  have hnone : (bgdList ids)[ids.length]? = none := by
    rw [bgdList, List.getElem?_map, List.getElem?_eq_none le_rfl]
    rfl
  rw [heq, Nat.add_comm, hrun, if_neg hlength, diffBgdsLoop, if_pos hshort, hnone]
  rfl

end Outcome

end Inspector

/-! ## Lists of other lengths -/

theorem bgdsAfter_congr {u : Setup} {writeCounter : ℕ} {ids : List ℕ} {w w' : List UInt8} {m : ℕ}
    (h : ∀ i < m, bgdAt (bufferOf w) i = bgdAt (bufferOf w') i) (d : Db KvStore.Key) :
    u.bgdsAfter writeCounter ids w m d = u.bgdsAfter writeCounter ids w' m d := by
  unfold Setup.bgdsAfter
  refine List.foldl_ext _ _ _ fun e i hi => ?_
  rw [h i (List.mem_range.mp hi)]

theorem bgdStep_messages (u : Setup) (writeCounter id : ℕ) (new : BlockGroupDescriptor)
    (d : Db KvStore.Key) : ∃ ms, (u.bgdStep writeCounter id new d).messages = d.messages ++ ms := by
  unfold Setup.bgdStep
  split
  · exact ⟨_, rfl⟩
  · exact ⟨[], (List.append_nil _).symm⟩

theorem bgdsAfter_messages (u : Setup) (writeCounter : ℕ) (ids : List ℕ) (write : List UInt8)
    (d : Db KvStore.Key) {m n : ℕ} (h : m ≤ n) :
    ∃ ms, (u.bgdsAfter writeCounter ids write n d).messages =
      (u.bgdsAfter writeCounter ids write m d).messages ++ ms := by
  induction h with
  | refl => exact ⟨[], (List.append_nil _).symm⟩
  | @step n _ ih =>
    obtain ⟨ms, hms⟩ := ih
    rw [Setup.bgdsAfter, List.range_succ, List.foldl_append]
    change ∃ _, (List.foldl _ (u.bgdsAfter writeCounter ids write n d) [n]).messages = _
    rw [List.foldl_cons, List.foldl_nil]
    split
    · obtain ⟨ns, hns⟩ := bgdStep_messages u writeCounter _ _ (u.bgdsAfter writeCounter ids write n d)
      exact ⟨ms ++ ns, by rw [hns, hms, List.append_assoc]⟩
    · exact ⟨ms, hms⟩

/-- Where a block starts depends on its number. -/
theorem sectorOf_zero_ne_one {u : Setup} (hpos : 0 < u.blockSize) (hdvd : sectorSize ∣ u.blockSize)
    (hlt : u.blockSize < 2 ^ 64) : u.sectorOf 0 ≠ u.sectorOf 1 := by
  obtain ⟨q, hq⟩ := hdvd
  have hs : sectorSize = 512 := rfl
  rw [hs] at hq
  unfold Setup.sectorOf u64
  rw [hs]
  push_cast
  omega

/-- Descriptors of zeros, up to a byte of the ninth. -/
def ninth (n : ℕ) (b : UInt8) : List UInt8 :=
  List.replicate 256 0 ++ b :: List.replicate (n * bgdSize - 257) 0

theorem ninth_length {n : ℕ} (hn : 8 < n) (b : UInt8) : (ninth n b).length = n * bgdSize := by
  have hs : bgdSize = 32 := rfl
  simp only [ninth, List.length_append, List.length_replicate, List.length_cons, hs]
  omega

theorem field_four {buf : Buffer} {o : ℕ} {a : UInt8} (ha : buf o = some a)
    (hz : ∀ j, o < j → j < o + 4 → buf j = some 0) : field buf o 4 = some a.toNat := by
  have h₁ := hz (o + 1) (by omega) (by omega)
  have h₂ := hz (o + 2) (by omega) (by omega)
  have h₃ := hz (o + 3) (by omega) (by omega)
  simp [field, List.range_succ, ha, h₁, h₂, h₃, leNat]

theorem ninth_front (n : ℕ) (b : UInt8) {i : ℕ} (hi : i < 8) :
    bgdAt (bufferOf (ninth n b)) i = some ⟨0, 0, 0⟩ := by
  have hbyte : ∀ j < 256, bufferOf (ninth n b) j = some 0 := by
    intro j hj
    rw [bufferOf, ninth, List.getElem?_append_left (by rw [List.length_replicate]; exact hj),
      List.getElem?_replicate, if_pos hj]
  have hs : bgdSize = 32 := rfl
  have hfield : ∀ o, o + 4 ≤ 256 → field (bufferOf (ninth n b)) o 4 = some 0 := fun o ho =>
    field_four (hbyte o (by omega)) fun j _ hj => hbyte j (by omega)
  rw [bgdAt, hs, hfield _ (by omega), hfield _ (by omega), hfield _ (by omega)]
  rfl

theorem ninth_eight {n : ℕ} (hn : 8 < n) (b : UInt8) :
    bgdAt (bufferOf (ninth n b)) 8 = some ⟨b.toNat, 0, 0⟩ := by
  have hs : bgdSize = 32 := rfl
  have hfirst : bufferOf (ninth n b) 256 = some b := by
    rw [bufferOf, ninth, List.getElem?_append_right (by rw [List.length_replicate]),
      List.length_replicate]
    rfl
  have hrest : ∀ j, 256 < j → j < 288 → bufferOf (ninth n b) j = some 0 := by
    intro j hj hlt
    obtain ⟨k, rfl⟩ := Nat.exists_eq_add_of_lt hj
    rw [bufferOf, ninth, List.getElem?_append_right (by rw [List.length_replicate]; omega),
      List.length_replicate, show 256 + k + 1 - 256 = k + 1 by omega, List.getElem?_cons_succ,
      List.getElem?_replicate, if_pos (by rw [hs]; omega)]
  rw [bgdAt, hs, field_four hfirst fun j hj hlt => hrest j hj (by omega),
    field_four (hrest 260 (by omega) (by omega)) fun j hj hlt => hrest j (by omega) (by omega),
    field_four (hrest 264 (by omega) (by omega)) fun j hj hlt => hrest j (by omega) (by omega)]
  rfl

namespace Inspector

variable {σ : Type} {c : Inspector σ} (L : Lawful c.service) {s : State σ} {d : Db KvStore.Key}
  {ids : List ℕ}

/-- Every descriptor of the list is compared with the one at its place in the write, once. -/
def ComparesBgds (s : State σ) (lbgds : ℕ) (ids : List ℕ) (writeCounter : ℕ)
    (write : List UInt8) : Prop :=
  Ensures (c.diffBgds write writeCounter (reference "lbgds:" lbgds)) s fun _ t =>
    L.At t (c.bgdsAfter writeCounter ids write ids.length (L.db s.store))

omit L in
/-- If the ninth descriptor is left out, its new sector has to be the one in the store. -/
theorem ninth_same (hlong : 8 < ids.length) {writeCounter id : ℕ} (hid : ids[8]? = some id)
    {h : List UInt8 → Option (List UInt8)} {values : List (List UInt8)}
    (hst : StoredBgd (c.bgdsAfter writeCounter ids (ninth ids.length 0) 8 d) id h values)
    (b : UInt8) (hsame : c.bgdsAfter writeCounter ids (ninth ids.length b) 8 d =
      c.bgdsAfter writeCounter ids (ninth ids.length b) ids.length d) :
    values[0]? = some (leBytes 8 (c.sectorOf b.toNat)) := by
  have hfront : c.bgdsAfter writeCounter ids (ninth ids.length b) 8 d =
      c.bgdsAfter writeCounter ids (ninth ids.length 0) 8 d :=
    bgdsAfter_congr (fun i hi => by rw [ninth_front _ _ hi, ninth_front _ _ hi]) d
  rw [← hfront] at hst
  obtain ⟨ms, hms⟩ := bgdsAfter_messages c.toSetup writeCounter ids (ninth ids.length b) d hlong
  rw [← hsame, bgdsAfter_succ hid (ninth_eight hlong b), hst.step_eq] at hms
  have hnone : notices (c.constructChannelName []) "bgd." writeCounter
      (compareAll bgdNames values (c.bgdValues ⟨b.toNat, 0, 0⟩)) = [] := by
    have hlen := congrArg List.length hms
    change _ = ((_ ++ notices _ _ _ _) ++ ms).length at hlen
    rw [List.length_append, List.length_append] at hlen
    exact List.eq_nil_of_length_eq_zero (by omega)
  cases values with
  | nil => exact absurd hst.widths (by simp)
  | cons v vs =>
    have hv := notices_eq_nil_iff.mp hnone ⟨_, _, v, leBytes 8 (c.sectorOf b.toNat)⟩
      List.mem_cons_self
    exact congrArg some hv

/-- A file system of one block group. -/
def oneGroupDb : Db KvStore.Key :=
  Db.empty.replay ([redisBgdsInsert 8 0] ++
    bgdNames.map fun a => redisBgdSectorInsert 0 (ascii a.1) (leBytes 8 16))

def oneGroupState : State Handle := ⟨redisInit oneGroupDb 0, 0⟩

def oneGroupInspector : Inspector Handle where
  heap := zeroHeap
  hostname := ascii "host"
  vmname := ascii "vm"
  blockSize := 1024
  partitionOffset := 0
  service := handleService
  stack _ _ := 0

theorem oneGroup_allStored : AllStored oneGroupDb [0] := by
  intro id hid
  obtain rfl := List.mem_singleton.mp hid
  exact ⟨_, [leBytes 8 16, leBytes 8 16, leBytes 8 16], rfl, by decide +kernel, by decide⟩

end Inspector

end GammaRay.Inspect
