import GammaRay.ExtentList
import GammaRay.Loop
import GammaRay.Mbr
import GammaRay.Mirror

set_option autoImplicit false

/-!
# The inferencer

`read_loop` of `gray-inferencer.c`: the geometry of the disk is read from the store, and then one
write after the other is taken off the queue and inspected. A round is `none` while the queue is
empty.
-/
namespace GammaRay.Inspect
open Bytes Decimal Redis KvStore Bson Ext4 Total Patch

/-- The process: its memory, and the names it publishes under. -/
structure Process where
  heap : Heap
  hostname : List UInt8
  vmname : List UInt8
  stack : ℕ → ℕ → UInt8

/-- What comes before the loop. The file system and the partition are those with the number 0. -/
def Process.enterLoop (p : Process) (locals : Loader.SuperInfo) (store : Handle) :
    Option (Inspector Handle × State Handle) := do
  let (super, store) ← Loader.qemuGetSuperinfo store locals 0
  let (partitionOffset, store) ← Mbr.qemuGetPtOffset store 0
  some (⟨⟨p.heap, p.hostname, p.vmname, super.blockSize, partitionOffset⟩, handleService, p.stack⟩,
    ⟨store, 0⟩)

/-- A round of the loop; the number is `write_counter`. It is left when a dequeue fails. -/
def Inspector.round (c : Inspector Handle) (fuel : ℕ) (s : State Handle × ℕ) :
    Option ((State Handle × ℕ) ⊕ State Handle) := do
  let (write, store) ← redisAsyncWriteDequeue s.1.store
  match write with
  | none => some (.inr { s.1 with store := store })
  | some (sectorNum, data) => do
    let (_, t) ← c.deepInspect s.2 fuel ⟨u64 sectorNum, data.length / sectorSize, data⟩
      { s.1 with store := store }
    some (.inl (t, u64 (s.2 + 1)))

/-! ## The queue -/

/-- A write in the queue. -/
structure QueuedWrite where
  sector : ℕ
  data : List UInt8
  sector_lt : sector < 2 ^ 63

namespace QueuedWrite

/-- The two elements of a write, in the order in which they are pushed. -/
def elements (w : QueuedWrite) : List (List UInt8) := [i64Bytes w.sector, w.data]

def write (w : QueuedWrite) : BdrvWrite := ⟨w.sector, w.data.length / sectorSize, w.data⟩

end QueuedWrite

/-- The list of the queue: writes are pushed at its head and taken off its tail. -/
def queueOf (ws : List QueuedWrite) : List (List UInt8) :=
  (ws.flatMap QueuedWrite.elements).reverse

theorem queueOf_cons (w : QueuedWrite) (ws : List QueuedWrite) :
    queueOf (w :: ws) = queueOf ws ++ [w.data, i64Bytes w.sector] := by
  rw [queueOf, List.flatMap_cons, List.reverse_append]
  rfl

section Dequeue

variable {h : Handle}

theorem interpretCommand_blocks {c : Command KvStore.Key} (he : exec h.db c = none) :
    interpretCommand c h = none := by
  have hc : redisCommand c h = none := Loop.bind_of_none (Loop.bind_of_none he _) _
  exact Loop.bind_of_none hc _

theorem query_blocks (hs : Settled h) {c : Command KvStore.Key} (he : exec h.db c = none) :
    query c h = none := by
  obtain ⟨h₁, hf, hdb, -⟩ := redisFlushPipeline_total hs
  rw [query, Loop.bind_of_some hf]
  exact interpretCommand_blocks (hdb ▸ he)

theorem exec_brpop {db : Db KvStore.Key} {k : KvStore.Key} {l : List (List UInt8)} {x : List UInt8}
    (hl : db.listAt k = some (l ++ [x])) :
    exec db (.brpop k) = some (.popped x, db.putList k l) := by
  simp only [exec, hl, List.getLast?_concat, List.dropLast_concat, Option.map_some]

theorem exec_brpop_nil {db : Db KvStore.Key} {k : KvStore.Key} (hl : db.listAt k = some []) :
    exec db (.brpop k) = none := by
  simp only [exec, hl, List.getLast?_nil, Option.map_none]

/-- The first of the two elements of a write has been taken off the queue. -/
theorem dequeue_sector (hs : Settled h) {rest : List (List UInt8)} {x : List UInt8}
    (hx : x.length = 8) (hq : h.db.listAt .writequeue = some (rest ++ [x])) :
    ∃ h', h'.db = h.db.putList .writequeue rest ∧ Settled h' ∧ h'.unread = [] ∧
      (interpretCommand (.brpop .writequeue) h' = none → redisAsyncWriteDequeue h = none) ∧
      ∀ data h'', interpretCommand (.brpop .writequeue) h' = some (.popped data, h'') →
        redisAsyncWriteDequeue h = some (some (i64 (leNat x), data), h'') := by
  obtain ⟨h', hread, hdb, hs', hu⟩ := query_of_exec hs (exec_brpop hq)
  refine ⟨h', hdb, hs', hu, fun hnone => ?_, fun data h'' hsome => ?_⟩
  · rw [redisAsyncWriteDequeue, Loop.bind_of_some hread]
    dsimp only [secondElement]
    rw [if_pos hx, Loop.bind_of_none hnone]
  · rw [redisAsyncWriteDequeue, Loop.bind_of_some hread]
    dsimp only [secondElement]
    rw [if_pos hx, Loop.bind_of_some hsome]

theorem dequeue_total (hs : Settled h) {rest : List (List UInt8)} {w : QueuedWrite}
    (hq : h.db.listAt .writequeue = some (rest ++ [w.data, i64Bytes w.sector])) :
    ∃ h', redisAsyncWriteDequeue h = some (some ((w.sector : ℤ), w.data), h') ∧ Settled h' ∧
      h'.db.listAt .writequeue = some rest ∧ h'.db.messages = h.db.messages ∧
      ∀ k ≠ KvStore.Key.writequeue, h'.db.keys k = h.db.keys k := by
  rw [show rest ++ [w.data, i64Bytes w.sector] = (rest ++ [w.data]) ++ [i64Bytes w.sector] by
    rw [List.append_assoc]; rfl] at hq
  obtain ⟨h₁, hdb₁, hs₁, hu₁, -, hrest⟩ := dequeue_sector hs (i64Bytes_length _) hq
  have hq₁ : h₁.db.listAt .writequeue = some (rest ++ [w.data]) := by rw [hdb₁, listAt_putList]
  obtain ⟨h₂, hread, hdb₂, -⟩ := interpretCommand_of_exec hu₁ (exec_brpop hq₁)
  have hsector : i64 (leNat (i64Bytes w.sector)) = w.sector :=
    i64_leNat_i64Bytes (by omega) (by have := w.sector_lt; omega)
  refine ⟨h₂, ?_, interpretCommand_settled hs₁ hread, ?_, ?_, ?_⟩
  · rw [hrest _ _ hread, hsector]
  · rw [hdb₂, listAt_putList]
  · rw [hdb₂, hdb₁]
    rfl
  · intro k hk
    rw [hdb₂, Db.putList, keys_put_of_ne hk, hdb₁, Db.putList, keys_put_of_ne hk]

/-- With less than a write in the queue the call waits. -/
theorem dequeue_empty (hs : Settled h) (hq : h.db.listAt .writequeue = some []) :
    redisAsyncWriteDequeue h = none :=
  Loop.bind_of_none (query_blocks hs (exec_brpop_nil hq)) _

theorem dequeue_half (hs : Settled h) {x : List UInt8} (hx : x.length = 8)
    (hq : h.db.listAt .writequeue = some [x]) : redisAsyncWriteDequeue h = none := by
  obtain ⟨h₁, hdb₁, -, -, hblocks, -⟩ := @dequeue_sector h hs [] x hx hq
  exact hblocks (interpretCommand_blocks (exec_brpop_nil (by rw [hdb₁, listAt_putList])))

end Dequeue

/-! ## The loop -/

namespace Inspector

variable {c : Inspector Handle} {l : Layout c.blockSize}

/-- One round: the oldest write is gone from the queue, and the copies are those of the disk with
that write. -/
theorem round_tracked (hservice : c.service = handleService) (hc : c.Geometry) {s : State Handle}
    (hs : Settled s.store) (hl : l.Held s.store.db) {w : QueuedWrite} {rest : List (List UInt8)}
    (hq : s.store.db.listAt .writequeue = some (rest ++ [w.data, i64Bytes w.sector]))
    (hw : c.PlainWrite l s.store.db w.write) (counter fuel : ℕ) :
    ∃ t, c.round (fuel + 1) (s, counter) = some (.inl (t, u64 (counter + 1))) ∧
      Settled t.store ∧ t.store.db.listAt .writequeue = some rest ∧
      (∀ k ≠ KvStore.Key.writequeue, (∀ n, k ≠ .qsector n) →
        t.store.db.keys k = s.store.db.keys k) ∧
      ∃ messages, t.store.db.messages = s.store.db.messages ++ messages ∧ ∀ disk copies,
        l.Mirrored disk copies →
          l.Mirrored (w.write.apply disk) (c.copiesAfter l.path messages copies) := by
  obtain ⟨h', hd, hs', hq', hm', hk'⟩ := dequeue_total hs hq
  have hsector : u64 (w.sector : ℤ) = w.sector := by
    have := w.sector_lt
    rw [u64_of_range (by omega) (by omega), Int.toNat_natCast]
  have hL : ∃ L : Lawful c.service, ∀ t : State Handle, ∀ e, L.At t e ↔
      Settled t.store ∧ t.store.db = e := by
    rw [hservice]
    exact ⟨handleLawful, fun _ _ => Iff.rfl⟩
  obtain ⟨L, hat⟩ := hL
  obtain ⟨_, t, hrun, e, htracked, ht⟩ := deepInspect_tracked L hc
    ((hat { s with store := h' } _).mpr ⟨hs', rfl⟩)
    (hl.congr (fun _ => hk' _ (by simp)) fun _ => hk' _ (by simp))
    (hw.congr fun _ => hk' _ (by simp)) counter fuel
  obtain ⟨hst, rfl⟩ := (hat t e).mp ht
  refine ⟨t, ?_, hst, ?_, ?_, ?_⟩
  · rw [round, Loop.bind_of_some hd]
    dsimp only
    rw [hsector]
    exact Loop.bind_of_some hrun _
  · rw [listAt_congr (htracked.keys (by simp)), hq']
  · intro k hk hkq
    rw [htracked.keys hkq, hk' k hk]
  · rw [← hm']
    exact htracked.mirrored

theorem loop_tracked (hservice : c.service = handleService) (hc : c.Geometry)
    (ws : List QueuedWrite) {newer : List (List UInt8)} {s : State Handle} (hs : Settled s.store)
    (hl : l.Held s.store.db) (hq : s.store.db.listAt .writequeue = some (newer ++ queueOf ws))
    (hws : ∀ w ∈ ws, c.PlainWrite l s.store.db w.write) (counter fuel : ℕ) :
    ∃ t n, Loop.Leads (c.round (fuel + 1)) (s, counter) (t, n) ∧
      t.store.db.listAt .writequeue = some newer ∧
      ∃ messages, t.store.db.messages = s.store.db.messages ++ messages ∧ ∀ disk copies,
        l.Mirrored disk copies →
          l.Mirrored (ws.foldl (fun disk w => w.write.apply disk) disk)
            (c.copiesAfter l.path messages copies) := by
  induction ws generalizing s counter with
  | nil =>
    refine ⟨s, counter, .refl _, ?_, [], (List.append_nil _).symm, fun _ _ h => h⟩
    rw [hq]
    exact congrArg some (List.append_nil newer)
  | cons w ws ih =>
    rw [queueOf_cons, ← List.append_assoc] at hq
    obtain ⟨t, hround, hst, hqt, hkeys, xs, hxs, hx⟩ := round_tracked hservice hc hs hl hq
      (hws w List.mem_cons_self) counter fuel
    obtain ⟨u, n, hleads, hqu, ys, hys, hy⟩ := ih hst
      (hl.congr (fun _ => hkeys _ (by simp) (by simp)) fun _ => hkeys _ (by simp) (by simp)) hqt
      (fun w' hw' => (hws w' (List.mem_cons_of_mem w hw')).congr
        fun n => hkeys _ (by simp) (by simp)) (u64 (counter + 1))
    refine ⟨u, n, .step hround hleads, hqu, xs ++ ys, ?_, fun disk copies hm => ?_⟩
    · rw [hys, hxs, List.append_assoc]
    · rw [Setup.copiesAfter_append]
      exact hy _ _ (hx _ _ hm)

end Inspector

/-! ## The process -/

section Process

variable {store : Handle}

theorem qemuGetPtOffset_total (id : ℕ) (hs : Settled store) :
    ∃ n store', Mbr.qemuGetPtOffset store id = some (n, store') ∧
      Loader.InDb store' store.db := by
  obtain ⟨r, he⟩ : ∃ r, exec store.db (redisSuperblockSectorGet id (ascii "first_sector_lba")) =
      some (r, store.db) := exec_after fun _ => by simp [redisSuperblockSectorGet]
  obtain ⟨h₁, ha, hdb, hs₁⟩ := ask_total hs (copyString 4) he
  refine ⟨leNat (copyString 4 r ++ (leBytes 4 0).drop (copyString 4 r).length) * 512 % 2 ^ 32, h₁,
    ?_, hs₁, hdb⟩
  rw [Mbr.qemuGetPtOffset, redisHashFieldGet, Loop.bind_of_some ha]

theorem Process.enterLoop_total (p : Process) (locals : Loader.SuperInfo) (hs : Settled store) :
    ∃ super partitionOffset store' store'',
      Loader.qemuGetSuperinfo store locals 0 = some (super, store') ∧
      p.enterLoop locals store = some (⟨⟨p.heap, p.hostname, p.vmname, super.blockSize,
        partitionOffset⟩, handleService, p.stack⟩, ⟨store'', 0⟩) ∧
      Loader.InDb store'' store.db := by
  obtain ⟨super, h₁, hsuper, hs₁, hdb₁⟩ := Loader.qemuGetSuperinfo_total locals 0 hs
  obtain ⟨offset, h₂, hoffset, hs₂, hdb₂⟩ := qemuGetPtOffset_total 0 hs₁
  refine ⟨super, offset, h₁, h₂, hsuper, ?_, hs₂, hdb₂.trans hdb₁⟩
  rw [enterLoop, Loop.bind_of_some hsuper]
  exact Loop.bind_of_some hoffset _

end Process

/-! A file of one block, and a write of it in the queue. -/

def oneBlock : Layout 512 where
  place s := if s = 2 then some (0, 0) else none
  path _ := ascii "/a"
  size _ := 512
  apart {s s'} h h' hne := by
    simp only [Option.isSome_ite] at h h'
    exact absurd (h.trans h'.symm) hne
  ordered {s s' f start start'} h h' hne := by
    simp only [Option.ite_none_right_eq_some] at h h'
    exact absurd (h.1.trans h'.1.symm) hne
  names {s s' f g start start'} h h' _ := by
    simp only [Option.ite_none_right_eq_some, Option.some.injEq, Prod.mk.injEq] at h h'
    exact h.2.1.symm.trans h'.2.1

def oneBlockWrite : QueuedWrite := ⟨2, List.replicate 512 7, by decide⟩

def oneBlockIndex : Db KvStore.Key :=
  Db.empty.replay [.hset (.fs 0) (ascii "block_size") (leBytes 8 512),
    .set (.sector 2) (dataPointer 0 512 0), .hset (.file 0) (ascii "path") (ascii "/a"),
    .hset (.file 0) (ascii "size") (leBytes 8 512)]

def oneBlockDb : Db KvStore.Key := oneBlockIndex.putList .writequeue (queueOf [oneBlockWrite])

theorem oneBlock_known : Inspector.Known oneBlockIndex 0 (ascii "/a") 512 :=
  ⟨by decide +kernel, by decide, by decide +kernel, by decide⟩

theorem oneBlock_held : oneBlock.Held oneBlockIndex where
  pointer {s f start} h := by
    simp only [oneBlock, Option.ite_none_right_eq_some, Option.some.injEq, Prod.mk.injEq] at h
    obtain ⟨rfl, rfl, rfl⟩ := h
    exact ⟨512, by decide, by decide, by decide, rfl⟩
  known {s f start} h := by
    simp only [oneBlock, Option.ite_none_right_eq_some, Option.some.injEq, Prod.mk.injEq] at h
    obtain ⟨rfl, rfl, rfl⟩ := h
    exact oneBlock_known

theorem oneBlock_plain (d : Db KvStore.Key) : oneBlock.Plain d 2 where
  fits s h hne := by
    simp only [oneBlock, Option.isSome_ite] at h
    exact absurd h hne
  unknown h := by simp [oneBlock] at h

def oneBlockProcess : Process := ⟨zeroHeap, ascii "host", ascii "vm", fun _ _ => 0⟩

def oneBlockInspector : Inspector Handle :=
  ⟨⟨zeroHeap, ascii "host", ascii "vm", 512, 0⟩, handleService, fun _ _ => 0⟩

theorem oneBlock_plainWrite (d : Db KvStore.Key) :
    oneBlockInspector.PlainWrite oneBlock d ⟨2, 1, List.replicate 512 7⟩ where
  range := by decide
  data := List.length_replicate ▸ by decide
  plain i hi := by
    have hstarts : oneBlockInspector.blockStarts 1 = [0] := by decide
    rw [hstarts, List.mem_singleton] at hi
    exact hi ▸ oneBlock_plain d

theorem oneBlockWrite_write : oneBlockWrite.write = ⟨2, 1, List.replicate 512 7⟩ := by
  have hlength : oneBlockWrite.data.length / sectorSize = 1 := by decide +kernel
  rw [QueuedWrite.write, hlength]
  rfl

theorem oneBlock_entered : ∃ s, oneBlockProcess.enterLoop ⟨0, 0, 0, 0, 0, 0⟩
    (redisInit oneBlockDb 0) = some (oneBlockInspector, s) := by
  obtain ⟨super, offset, -, store, -, henter, -⟩ := oneBlockProcess.enterLoop_total
    ⟨0, 0, 0, 0, 0, 0⟩ (redisInit_settled oneBlockDb 0)
  have hvalues : (oneBlockProcess.enterLoop ⟨0, 0, 0, 0, 0, 0⟩ (redisInit oneBlockDb 0)).map
      (fun p => (p.1.blockSize, p.1.partitionOffset)) = some (512, 0) := by decide +kernel
  rw [henter, Option.map_some, Option.some.injEq, Prod.mk.injEq] at hvalues
  obtain ⟨hsize, hoffset⟩ : super.blockSize = 512 ∧ offset = 0 := hvalues
  rw [henter, hsize, hoffset]
  exact ⟨_, rfl⟩

end GammaRay.Inspect
