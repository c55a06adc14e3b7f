import GammaRay.InspectCalls

set_option autoImplicit false

/-!
# The data of files

What a write to a block of a file leaves in the store, and what is left when a block that
waits in the queue is inspected again.
-/
namespace GammaRay.Inspect
open Bytes Decimal Redis KvStore Bson Ext4 Total
open Loader (keyNamed int64Of type_noNul transaction_noNul)

/-! ## Data messages -/

def dataElements (start stop : ℕ) (subtype : UInt8) (data : List UInt8) (writeCounter : ℕ) :
    List (Bson.Key × Bson.Value) :=
  [(keyNamed "type" type_noNul, .string (ascii "data")),
    (keyNamed "transaction" transaction_noNul, int64Of writeCounter),
    (keyNamed "start" (by decide), int64Of start), (keyNamed "end" (by decide), int64Of stop),
    (keyNamed "write" (by decide), .binary subtype data)]

def dataDocument (start stop : ℕ) (subtype : UInt8) (data : List UInt8) (writeCounter : ℕ) :
    List UInt8 :=
  frame (Document.ofElements (dataElements start stop subtype data writeCounter)).body

theorem dataKvs_encodes (h : Heap) (start stop : ℕ) (subtype : UInt8) {write : List UInt8} {len : ℕ}
    (hlen : len ≤ write.length) (hmax : len < 2 ^ 31) (writeCounter : ℕ) :
    List.Forall₂ (Encodes h) (Inspector.dataKvs start stop subtype write len writeCounter)
      (dataElements start stop subtype (write.take len) writeCounter) := by
  have hwrite : Encodes h ⟨.binary, subtype, i32 len, ascii "write", .bytes write⟩
      (keyNamed "write" (by decide), .binary subtype (write.take len)) := by
    have hp := serializeBinary_appends_left h subtype (write.take len) (write.drop len)
    rw [List.take_append_drop, List.length_take_of_le hlen] at hp
    rw [i32_of_range (by omega) (by omega)]
    refine .of_payload h rfl rfl ?_
    have hl : (write.take len).length = len := List.length_take_of_le hlen
    rw [Bson.Value.payload, hl]
    exact hp
  exact .cons (stringKv_encodes _ _ _ _) <| .cons (int64Kv_encodes _ _ _ _) <|
    .cons (int64Kv_encodes _ _ _ _) <| .cons (int64Kv_encodes _ _ _ _) <| .cons hwrite .nil

theorem dataDocument_length (start stop : ℕ) (subtype : UInt8) (data : List UInt8)
    (writeCounter : ℕ) :
    (dataDocument start stop subtype data writeCounter).length = data.length + 81 := by
  rw [dataDocument, frame_length]
  simp [dataElements, keyNamed, Document.ofElements, Document.body,
    Bson.Value.payload, int64Of, ascii, stringBytes]
  omega

def dataHead : List UInt8 := elementBytes (keyNamed "type" type_noNul, .string (ascii "data"))

/-- The place in the file and the bytes that a reader finds in a data message. -/
def readData (message : List UInt8) : Option (ℕ × List UInt8) :=
  if (message.drop 4).take 15 = dataHead then
    some (leNat ((message.drop 47).take 8),
      (message.drop 80).take (leNat ((message.drop 75).take 4)))
  else none

theorem dataDocument_eq (start stop : ℕ) (subtype : UInt8) (data : List UInt8)
    (writeCounter : ℕ) :
    dataDocument start stop subtype data writeCounter =
      i32Bytes (data.length + 81) ++ (dataHead ++ (([18] ++ ascii "transaction" ++ [0] ++
        leBytes 8 writeCounter ++ [18] ++ ascii "start" ++ [0]) ++ (leBytes 8 start ++
          (([18] ++ ascii "end" ++ [0] ++ leBytes 8 stop ++ [5] ++ ascii "write" ++ [0]) ++
            (i32Bytes data.length ++ ([subtype] ++ (data ++ [0]))))))) := by
  have hlen := dataDocument_length start stop subtype data writeCounter
  rw [dataDocument, frame_length] at hlen
  have hbody : (((Document.ofElements (dataElements start stop subtype data
      writeCounter)).body.length : ℤ) + 5) = data.length + 81 := by exact_mod_cast hlen
  rw [dataDocument, frame, hbody]
  simp [dataElements, Document.ofElements, Document.body, dataHead, elementBytes, keyNamed,
    Bson.Value.payload, int64Of, Bson.Value.type, BsonType.code]

theorem readData_dataDocument {start : ℕ} (hstart : start < 2 ^ 64) (stop : ℕ) (subtype : UInt8)
    {data : List UInt8} (hdata : data.length < 2 ^ 31) (writeCounter : ℕ) :
    readData (dataDocument start stop subtype data writeCounter) = some (start, data) := by
  rw [dataDocument_eq]
  set A := i32Bytes (data.length + 81) with hA
  set C := [18] ++ ascii "transaction" ++ [0] ++ leBytes 8 writeCounter ++ [18] ++
    ascii "start" ++ [0] with hC
  set D := [18] ++ ascii "end" ++ [0] ++ leBytes 8 stop ++ [5] ++ ascii "write" ++ [0] with hD
  have hA4 : A.length = 4 := i32Bytes_length _
  have hH : dataHead.length = 15 := rfl
  have hC28 : C.length = 28 := by simp [hC, ascii]
  have hD20 : D.length = 20 := by simp [hD, ascii]
  have hS8 : (leBytes 8 start).length = 8 := leBytes_length 8 start
  have hL4 : (i32Bytes (data.length : ℤ)).length = 4 := i32Bytes_length _
  set S := leBytes 8 start with hS
  set N := i32Bytes (data.length : ℤ) with hN
  have hsize : leNat N = data.length := by
    rw [hN, i32Bytes, show u32 (data.length : ℤ) = data.length by unfold u32; omega]
    exact leNat_leBytes_of_lt (by omega)
  have hhead : ((A ++ (dataHead ++ (C ++ (S ++ (D ++ (N ++ ([subtype] ++ (data ++ [0])))))))).drop
      4).take 15 = dataHead := field_append hA4 hH
  have hplace : ((A ++ (dataHead ++ (C ++ (S ++ (D ++ (N ++ ([subtype] ++ (data ++ [0])))))))).drop
      47).take 8 = S := by
    have h := @field_append (A ++ dataHead ++ C) S (D ++ (N ++ ([subtype] ++ (data ++ [0])))) 47 8
      (by simp only [List.length_append]; omega) hS8
    simpa only [List.append_assoc] using h
  have hcount : ((A ++ (dataHead ++ (C ++ (S ++ (D ++ (N ++ ([subtype] ++ (data ++ [0])))))))).drop
      75).take 4 = N := by
    have h := @field_append (A ++ dataHead ++ C ++ S ++ D) N ([subtype] ++ (data ++ [0])) 75 4
      (by simp only [List.length_append]; omega) hL4
    simpa only [List.append_assoc] using h
  have hbytes : ((A ++ (dataHead ++ (C ++ (S ++ (D ++ (N ++ ([subtype] ++ (data ++ [0])))))))).drop
      80).take data.length = data := by
    have h := @field_append (A ++ dataHead ++ C ++ S ++ D ++ N ++ [subtype]) data [0] 80 _
      (by simp only [List.length_append, List.length_singleton]; omega) rfl
    simpa only [List.append_assoc] using h
  rw [readData, if_pos hhead, hplace, hcount, hsize, hbytes, hS,
    leNat_leBytes_of_lt (by exact hstart)]

theorem readData_metadata (es : List (Bson.Key × Bson.Value)) :
    readData (frame (Document.ofElements
      ((keyNamed "type" (by decide), .string (ascii "metadata")) :: es)).body) = none := by
  have hhead : ∀ n : ℤ, ∀ rest : List UInt8,
      ((i32Bytes n ++ ((elementBytes (keyNamed "type" (by decide),
        .string (ascii "metadata")) ++ rest) ++ [0])).drop 4).take 15 ≠ dataHead := by
    intro n rest
    rw [List.drop_left' (i32Bytes_length n), List.append_assoc, List.take_append_of_le_length
      (by decide)]
    decide
  rw [readData, frame, body_cons, if_neg (hhead _ _)]

/-- What is left of a write of file data. -/
def Setup.emitted (u : Setup) (sector start stop size : ℕ) (path : List UInt8) (subtype : UInt8)
    (write : List UInt8) (len writeCounter : ℕ) (d : Db KvStore.Key) : Db KvStore.Key :=
  let rest := u64 (size - start)
  let data := write.take (if rest ≤ len then rest else len)
  let d := if rest ≤ len then d.after (.setex (.qsector sector) defaultTimeout data) else d
  let d := if stop < size then d.after (.del (.qsector sector)) else d
  d.after (.publish (u.constructChannelName path)
    (dataDocument start stop subtype data writeCounter))

/-- Blocks are whole sectors, and fit into a message. -/
structure Setup.Geometry (u : Setup) : Prop where
  pos : 0 < u.blockSize
  whole : sectorSize ∣ u.blockSize
  small : u.blockSize ≤ 2 ^ 29

/-- What the queue holds for a sector, as far as it can be read. -/
def Setup.entry (u : Setup) (d : Db KvStore.Key) (sector : ℕ) : List UInt8 :=
  copyString u.blockSize (answer d (.get (.qsector sector)))

namespace Inspector

variable {σ : Type} {c : Inspector σ} (L : Lawful c.service) {s : State σ} {d : Db KvStore.Key}

theorem getField_at (hs : L.At s d) {fmt : ℕ → List UInt8 → Command KvStore.Key} {id : ℕ}
    {name : String} (hc : ∀ k, fmt id (ascii name) ≠ .brpop k)
    (he : exec d (fmt id (ascii name)) = some (answer d (fmt id (ascii name)), d))
    (old : List UInt8) :
    Ensures (c.getField fmt id name old) s fun v t =>
      v = overlay old (copyString old.length (answer d (fmt id (ascii name)))) ∧ L.At t d := by
  refine (query_at L hs hc he).bind ?_
  rintro _ t ⟨rfl, ht⟩
  exact ensures_pure ⟨rfl, ht⟩

theorem keepLastBlock_at (hs : L.At s d) {write : List UInt8} {len : ℕ} (hlen : len ≤ write.length)
    (rest sector : ℕ) :
    Ensures (c.keepLastBlock write rest len sector) s fun _ t => L.At t
      (if rest ≤ len then d.after (.setex (.qsector sector) defaultTimeout (write.take rest))
        else d) := by
  unfold keepLastBlock
  split
  · rename_i h
    refine ensures_bind_of_eq (t := s) (a := write.take rest) ?_ (append_at L hs (by simp))
    rw [defined, copyLen, if_pos ⟨by omega, by omega⟩]
    rfl
  · exact ensures_pure hs

theorem dropInnerBlock_at (hs : L.At s d) (stop fsize sector : ℕ) :
    Ensures (c.dropInnerBlock stop fsize sector) s fun _ t => L.At t
      (if stop < fsize then d.after (.del (.qsector sector)) else d) := by
  unfold dropInnerBlock
  split
  · exact append_at L hs (by simp)
  · exact ensures_pure hs

theorem emitFileBytes_at (hs : L.At s d) {write : List UInt8} {start stop file len : ℕ}
    (hlen : len ≤ write.length) (hmax : len ≤ 2 ^ 29)
    (hpath : (copyString 4096 (answer d (redisFileSectorGet file (ascii "path")))).length ≠ 4096)
    (writeCounter sector : ℕ) :
    Ensures (c.emitFileBytes write writeCounter (dataPointer start stop file) len sector) s
      fun _ t => ∃ n, L.At t (c.emitted sector start stop
        (leNat (overlay (junk (c.stack n) 24 8)
          (copyString 8 (answer d (redisFileSectorGet file (ascii "size"))))))
        (copyString 4096 (answer d (redisFileSectorGet file (ascii "path"))))
        (c.stack n 32) write len writeCounter d) := by
  unfold emitFileBytes
  refine (enter_at L hs).bind ?_
  rintro _ t₁ ⟨⟨n, rfl⟩, ht₁⟩
  rw [tokens_dataPointer]
  simp only [List.getElem?_cons_succ, List.getElem?_cons_zero, scanInto_dec]
  refine (query_at L ht₁ (by simp [redisFileSectorGet]) rfl).bind ?_
  rintro _ t₂ ⟨rfl, ht₂⟩
  rw [if_neg hpath]
  refine (getField_at L ht₂ (by simp [redisFileSectorGet]) rfl _).bind ?_
  rintro _ t₃ ⟨rfl, ht₃⟩
  rw [show (junk (c.stack n) 24 8).length = 8 from rfl]
  refine (keepLastBlock_at L ht₃ hlen _ _).bind ?_
  intro _ t₄ ht₄
  refine (dropInnerBlock_at L ht₄ _ _ _).bind ?_
  intro _ t₅ ht₅
  set size := leNat (overlay (junk (c.stack n) 24 8)
    (copyString 8 (answer d (redisFileSectorGet file (ascii "size"))))) with hsize
  have hle : (if u64 (size - start) ≤ len then u64 (size - start) else len) ≤ len := by
    split
    · assumption
    · exact le_rfl
  refine (publish_at L ht₅ (dataKvs_encodes c.heap start stop _ (hle.trans hlen) (by omega) _)
    ?_).mono fun _ t ht => ⟨n, ?_⟩
  · have hdoc := dataDocument_length start stop (c.stack n 32)
      (write.take (if u64 (size - start) ≤ len then u64 (size - start) else len)) writeCounter
    rw [dataDocument, List.length_take] at hdoc
    rw [hdoc, maxSize]
    omega
  · unfold Setup.emitted
    rw [← hsize]
    by_cases h : u64 (size - start) ≤ len
    · simp only [h, if_true] at ht ⊢
      exact ht
    · simp only [h, if_false] at ht ⊢
      exact ht

/-! ## Blocks of a write -/

theorem dataPointer_length {start stop file : ℕ} (h₁ : start < 2 ^ 64) (h₂ : stop < 2 ^ 64)
    (h₃ : file < 2 ^ 64) : (dataPointer start stop file).length < 1024 := by
  have hdec : ∀ {n : ℕ}, n < 2 ^ 64 → (dec n).length ≤ 20 :=
    fun h => dec_length_le (by decide) (by omega)
  have hs : (ascii "start:").length = 6 := rfl
  have he : (ascii ":end:").length = 5 := rfl
  have hf : (ascii ":file:").length = 6 := rfl
  have := hdec h₁
  have := hdec h₂
  have := hdec h₃
  simp only [dataPointer, List.length_append]
  omega

/-- The bytes of the block at sector `i` of a write. -/
def blockSizeAt (c : Inspector σ) (write : BdrvWrite) (i : ℕ) : ℕ :=
  min ((write.nbSectors - i) * sectorSize) c.blockSize

theorem inspectBlock_unknown (hs : L.At s d) {write : BdrvWrite} {i : ℕ}
    (hp : copyString 1024 (answer d (.get (.sector (u64 (write.sectorNum + i))))) = [])
    (hlen : c.blockSizeAt write i ≤ (write.data.drop (i * sectorSize)).length)
    (inspect : BdrvWrite → Act σ Unit) (writeCounter : ℕ) :
    Ensures (c.inspectBlock inspect write writeCounter i) s fun _ t => L.At t
      (d.after (.setex (.qsector (u64 (write.sectorNum + i))) defaultTimeout
        ((write.data.drop (i * sectorSize)).take (c.blockSizeAt write i)))) := by
  unfold inspectBlock
  refine (query_at L hs (by simp) rfl).bind ?_
  rintro _ t ⟨rfl, ht⟩
  rw [if_pos hp]
  refine ensures_bind_of_eq (t := t)
    (a := (write.data.drop (i * sectorSize)).take (c.blockSizeAt write i)) ?_
    (append_at L ht (by simp))
  rw [blockSizeAt] at hlen ⊢
  rw [defined, copyLen, if_pos ⟨by omega, by omega⟩]
  rfl

/-- A block whose sector has a pointer is dispatched. -/
theorem inspectBlock_known (hs : L.At s d) (write : BdrvWrite) (i : ℕ) {pointer : List UInt8}
    (hp : d.keys (.sector (u64 (write.sectorNum + i))) = some (.string pointer))
    (hne : pointer ≠ []) (hlt : pointer.length < 1024) (inspect : BdrvWrite → Act σ Unit)
    (writeCounter : ℕ) :
    ∃ t, L.At t d ∧ c.inspectBlock inspect write writeCounter i s =
      c.dispatchWrite inspect (write.data.drop (i * sectorSize)) writeCounter pointer
        (c.blockSizeAt write i) write.sectorNum t := by
  have hanswer : copyString 1024 (answer d (.get (.sector (u64 (write.sectorNum + i))))) =
      pointer := by
    have he : answer d (.get (.sector (u64 (write.sectorNum + i)))) = .string pointer := by
      simp only [answer, exec, hp, Option.elim_some]
    rw [he, copyString, if_pos ⟨List.length_pos_of_ne_nil hne, hlt.le⟩]
  obtain ⟨_, t, ⟨rfl, ht⟩, hq⟩ :=
    (@query_at σ c L s d (.get (.sector (u64 (write.sectorNum + i)))) hs (by simp) rfl).bind_eq
  refine ⟨t, ht, ?_⟩
  unfold inspectBlock
  rw [hq, hanswer, if_neg hne, if_neg (by omega)]
  rfl

theorem inspectBlock_data (hs : L.At s d) {write : BdrvWrite} {i start stop file : ℕ}
    (hp : d.keys (.sector (u64 (write.sectorNum + i))) =
      some (.string (dataPointer start stop file)))
    (hstart : start < 2 ^ 64) (hstop : stop < 2 ^ 64) (hfile : file < 2 ^ 64)
    (hlen : c.blockSizeAt write i ≤ (write.data.drop (i * sectorSize)).length)
    (hmax : c.blockSize ≤ 2 ^ 29)
    (hpath : (copyString 4096 (answer d (redisFileSectorGet file (ascii "path")))).length ≠ 4096)
    (inspect : BdrvWrite → Act σ Unit) (writeCounter : ℕ) :
    Ensures (c.inspectBlock inspect write writeCounter i) s
      fun _ t => ∃ n, L.At t (c.emitted write.sectorNum start stop
        (leNat (overlay (junk (c.stack n) 24 8)
          (copyString 8 (answer d (redisFileSectorGet file (ascii "size"))))))
        (copyString 4096 (answer d (redisFileSectorGet file (ascii "path"))))
        (c.stack n 32) (write.data.drop (i * sectorSize)) (c.blockSizeAt write i) writeCounter
        d) := by
  have hlt := dataPointer_length hstart hstop hfile
  have hne : dataPointer start stop file ≠ [] := by simp [dataPointer, ascii]
  obtain ⟨t, ht, hrun⟩ := inspectBlock_known L hs write i hp hne hlt inspect writeCounter
  refine Ensures.of_outcome hrun ?_
  unfold dispatchWrite
  rw [if_pos (show named "start" (dataPointer start stop file) = true from rfl)]
  exact emitFileBytes_at L ht hlen (le_trans (Nat.min_le_right _ _) hmax) hpath _ _

theorem blockStarts_single (hc : c.Geometry) : c.blockStarts (c.blockSize / sectorSize) = [0] := by
  obtain ⟨k, hk⟩ := hc.whole
  have hpos := hc.pos
  have hk0 : 0 < k := Nat.pos_of_ne_zero fun h => by rw [hk, h] at hpos; exact absurd hpos (by simp)
  have hdiv : c.blockSize / sectorSize = k := by rw [hk]; exact Nat.mul_div_cancel_left k (by decide)
  have hone : (k + k - 1) / k = 1 := by
    rw [Nat.div_eq_iff hk0]
    omega
  rw [blockStarts, hdiv, hone]
  simp

theorem blockSizeAt_single (hc : c.Geometry) {write : BdrvWrite}
    (hnb : write.nbSectors = c.blockSize / sectorSize) : c.blockSizeAt write 0 = c.blockSize := by
  rw [blockSizeAt, hnb, Nat.sub_zero, Nat.div_mul_cancel hc.whole, Nat.min_self]

/-- A write of one block. -/
theorem deepInspect_eq_single (hc : c.Geometry) {write : BdrvWrite}
    (hnb : write.nbSectors = c.blockSize / sectorSize) (writeCounter fuel : ℕ) :
    c.deepInspect writeCounter (fuel + 1) write = (do
      c.inspectBlock (c.deepInspect writeCounter fuel) write writeCounter 0
      c.flush) := by
  have hpos : 0 < c.blockSize / sectorSize :=
    Nat.div_pos (Nat.le_of_dvd hc.pos hc.whole) (by decide)
  rw [deepInspect, if_neg (by omega), hnb, blockStarts_single hc]
  change ((_ >>= fun _ => pure ()) >>= fun _ => _) = _
  rw [bind_assoc]
  rfl

theorem deepInspect_single (hc : c.Geometry) {write : BdrvWrite} {writeCounter fuel : ℕ}
    (hnb : write.nbSectors = c.blockSize / sectorSize) {P : Db KvStore.Key → Prop}
    (h : Ensures (c.inspectBlock (c.deepInspect writeCounter fuel) write writeCounter 0) s
      fun _ t => ∃ e, P e ∧ L.At t e) :
    Ensures (c.deepInspect writeCounter (fuel + 1) write) s fun _ t => ∃ e, P e ∧ L.At t e := by
  rw [deepInspect_eq_single hc hnb]
  refine h.bind ?_
  rintro _ t ⟨e, he, ht⟩
  exact (flush_at L ht).mono fun _ u hu => ⟨e, he, hu⟩

/-! ## Inspecting a block again -/

theorem sector_zero {sector : ℕ} (h : sector < 2 ^ 64) :
    u64 ((sector : ℤ) + (0 : ℕ)) = sector := by
  rw [Nat.cast_zero, add_zero, u64_of_range (by omega) (by exact_mod_cast h)]
  rfl

/-- What the store says of a file whose data is written. -/
structure Known (d : Db KvStore.Key) (file : ℕ) (path : List UInt8) (size : ℕ) : Prop where
  path_eq : copyString 4096 (answer d (redisFileSectorGet file (ascii "path"))) = path
  path_lt : path.length < 4096
  size_eq : copyString 8 (answer d (redisFileSectorGet file (ascii "size"))) = leBytes 8 size
  size_lt : size < 2 ^ 64

theorem answer_hget_congr {d e : Db KvStore.Key} {k : KvStore.Key} (h : e.keys k = d.keys k)
    (field : List UInt8) : answer e (.hget k field) = answer d (.hget k field) := by
  simp only [answer, exec, Db.hashAt, h, Option.elim_some]

theorem Known.congr {d e : Db KvStore.Key} {file size : ℕ} {path : List UInt8}
    (h : Known d file path size) (hk : e.keys (.file file) = d.keys (.file file)) :
    Known e file path size := by
  refine ⟨?_, h.path_lt, ?_, h.size_lt⟩
  · rw [redisFileSectorGet, answer_hget_congr hk]
    exact h.path_eq
  · rw [redisFileSectorGet, answer_hget_congr hk]
    exact h.size_eq

theorem Known.size_overlay {file size : ℕ} {path : List UInt8} (h : Known d file path size)
    (vars : ℕ → UInt8) :
    leNat (overlay (junk vars 24 8)
      (copyString 8 (answer d (redisFileSectorGet file (ascii "size"))))) = size := by
  rw [h.size_eq, overlay, List.drop_eq_nil_of_le (by simp [junk]), List.append_nil,
    leNat_leBytes_of_lt h.size_lt]

/-- A block of a file that is inspected again: its sector, its place in the file if the store
knows it, and what the stack holds. -/
structure Pass where
  sector : ℕ
  place : Option (ℕ × ℕ)
  vars : ℕ → UInt8
  subtype : UInt8

def Pass.block (u : Setup) (p : Pass) (d : Db KvStore.Key) : List UInt8 :=
  overlay (junk p.vars 0 u.blockSize) (u.entry d p.sector)

def Pass.run (u : Setup) (path : List UInt8) (size writeCounter : ℕ) (p : Pass)
    (d : Db KvStore.Key) : Db KvStore.Key :=
  let cleared := d.after (.del (.qsector p.sector))
  if u.entry d p.sector = [] then cleared
  else match p.place with
    | none => cleared.after (.setex (.qsector p.sector) defaultTimeout (p.block u d))
    | some (start, stop) => u.emitted p.sector start stop size path p.subtype (p.block u d)
        u.blockSize writeCounter cleared

/-- What the store says of a sector of a file. -/
def Points (d : Db KvStore.Key) (file sector : ℕ) : Option (ℕ × ℕ) → Prop
  | none => d.keys (.sector sector) = none
  | some (start, stop) => start < 2 ^ 64 ∧ stop < 2 ^ 64 ∧
      d.keys (.sector sector) = some (.string (dataPointer start stop file))

/-- A variable keeps its size. -/
theorem overlay_copyString_length {old : List UInt8} {n : ℕ} (hold : old.length = n) (r : Reply) :
    (overlay old (copyString n r)).length = n := by
  have h : (copyString n r).length ≤ n := by
    cases r with
    | string b =>
      rw [copyString]
      split
      · rename_i h
        exact h.2
      · exact Nat.zero_le _
    | _ => exact Nat.zero_le _
  rw [overlay, List.length_append, List.length_drop]
  omega

theorem junk_length (vars : ℕ → UInt8) (place width : ℕ) : (junk vars place width).length = width := by
  simp [junk]

/-- The entry of the queue is deleted, and what the reply has of a block is inspected. -/
theorem reinspectWrite_outcome (hs : L.At s d) (inspect : BdrvWrite → Act σ Unit) (sector : ℕ) :
    ∃ t, L.At t (d.after (.del (.qsector sector))) ∧
      (c.reinspectWrite inspect sector s = some ((), t) ∨
        ∃ data, data.length = c.blockSize ∧ c.reinspectWrite inspect sector s =
          inspect ⟨sector, c.blockSize / sectorSize, data⟩ t) := by
  obtain ⟨vars, t₁, ⟨-, ht₁⟩, h₁⟩ := (enter_at L hs).bind_eq
  obtain ⟨r, t₂, ht₂, h₂⟩ := (@look_at σ c L t₁ d (.get (.qsector sector)) ht₁ nofun).bind_eq
  obtain ⟨_, t₃, ht₃, h₃⟩ := (@tell_at σ c L t₂ _ (.del (.qsector sector)) ht₂ nofun).bind_eq
  refine ⟨t₃, ht₃, ?_⟩
  unfold reinspectWrite
  rw [h₁, h₂, h₃]
  split
  · exact .inl rfl
  · exact .inr ⟨_, overlay_copyString_length (junk_length vars 0 _) r, rfl⟩

theorem Pass.block_length (u : Setup) (p : Pass) (d : Db KvStore.Key) :
    (p.block u d).length = u.blockSize :=
  overlay_copyString_length (junk_length p.vars 0 _) _

/-- The inspection of what the queue and the stack have given. -/
theorem deepInspect_again (hc : c.Geometry) {p : Pass}
    (hs : L.At s (d.after (.del (.qsector p.sector)))) {file size : ℕ} {path : List UInt8}
    (hfile : file < 2 ^ 64) (hk : Known d file path size) (hsector : p.sector < 2 ^ 64)
    (hp : Points d file p.sector p.place) (hentry : c.entry d p.sector ≠ [])
    (writeCounter fuel : ℕ) :
    Ensures (c.deepInspect writeCounter (fuel + 1)
      ⟨p.sector, c.blockSize / sectorSize, p.block c.toSetup d⟩) s fun _ t =>
        ∃ e, (∃ subtype, e = Pass.run c.toSetup path size writeCounter
            { p with subtype := subtype } d) ∧
          L.At t e := by
  obtain ⟨sector, place, vars, sub⟩ := p
  set e := d.after (.del (.qsector sector)) with he
  have hsec : e.keys (.sector sector) = d.keys (.sector sector) :=
    keys_after (by simp [Command.writes])
  have hke := hk.congr (e := e) (keys_after (by simp [Command.writes]))
  have hu : u64 ((sector : ℤ) + (0 : ℕ)) = sector := sector_zero hsector
  set block := Pass.block c.toSetup ⟨sector, place, vars, sub⟩ d with hblock
  have hlen : block.length = c.blockSize := Pass.block_length c.toSetup _ d
  have hsize : c.blockSizeAt ⟨sector, c.blockSize / sectorSize, block⟩ 0 = c.blockSize :=
    blockSizeAt_single hc rfl
  have htake : (block.drop (0 * sectorSize)).take c.blockSize = block := by
    rw [Nat.zero_mul, List.drop_zero, ← hlen, List.take_length]
  have hdrop : c.blockSize ≤ (block.drop (0 * sectorSize)).length := by
    rw [Nat.zero_mul, List.drop_zero, hlen]
  refine deepInspect_single L hc rfl ?_
  cases place with
  | none =>
    have hnone : copyString 1024 (answer e (.get (.sector sector))) = [] := by
      have hkey : e.keys (.sector sector) = none := hsec.trans hp
      simp only [answer, exec, hkey, Option.elim_some, copyString]
    refine (inspectBlock_unknown L hs (by rw [hu]; exact hnone) (by rw [hsize]; exact hdrop) _
      _).mono fun _ t ht => ⟨_, ⟨sub, ?_⟩, ht⟩
    rw [Pass.run, if_neg hentry, hu, hsize, htake]
  | some place =>
    obtain ⟨start, stop⟩ := place
    obtain ⟨hstart, hstop, hkey⟩ := hp
    refine (inspectBlock_data L hs (by rw [hu, hsec]; exact hkey) hstart hstop hfile
      (by rw [hsize]; exact hdrop) hc.small (by rw [hke.path_eq]; exact hke.path_lt.ne) _
      _).mono ?_
    rintro _ t ⟨n, ht⟩
    refine ⟨_, ⟨c.stack n 32, ?_⟩, ht⟩
    rw [Pass.run, if_neg hentry, hke.size_overlay, hke.path_eq, hsize, Nat.zero_mul,
      List.drop_zero]
    rfl

theorem reinspectWrite_at (hown : L.Own) (hc : c.Geometry) (hs : L.At s d) {file size : ℕ}
    {path : List UInt8} (hfile : file < 2 ^ 64) (hk : Known d file path size) {sector : ℕ}
    (hsector : sector < 2 ^ 64) {place : Option (ℕ × ℕ)} (hp : Points d file sector place)
    (writeCounter fuel : ℕ) :
    Ensures (c.reinspectWrite (c.deepInspect writeCounter (fuel + 1)) sector) s fun _ t =>
      ∃ p : Pass, p.sector = sector ∧ p.place = place ∧ (∃ n, p.vars = c.stack n) ∧
        L.At t (p.run c.toSetup path size writeCounter d) := by
  unfold reinspectWrite
  refine (enter_at L hs).bind ?_
  rintro _ t₁ ⟨⟨n, rfl⟩, ht₁⟩
  refine (look_own L hown ht₁ (by simp) rfl).bind ?_
  rintro _ t₂ ⟨rfl, ht₂⟩
  refine (tell_at L ht₂ (by simp)).bind ?_
  intro _ t₃ ht₃
  change Ensures (if c.entry d sector = [] then pure () else c.deepInspect writeCounter (fuel + 1)
    ⟨sector, c.blockSize / sectorSize, Pass.block c.toSetup ⟨sector, place, c.stack n, 0⟩ d⟩) t₃ _
  by_cases hentry : c.entry d sector = []
  · rw [if_pos hentry]
    refine ensures_pure ⟨⟨sector, place, c.stack n, 0⟩, rfl, rfl, ⟨n, rfl⟩, ?_⟩
    rw [Pass.run, if_pos hentry]
    exact ht₃
  · rw [if_neg hentry]
    refine (deepInspect_again L hc (p := ⟨sector, place, c.stack n, 0⟩) ht₃ hfile hk hsector hp
      hentry writeCounter fuel).mono ?_
    rintro _ t ⟨_, ⟨sub, rfl⟩, ht⟩
    exact ⟨_, rfl, rfl, ⟨n, rfl⟩, ht⟩

end Inspector

end GammaRay.Inspect
