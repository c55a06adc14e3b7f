import GammaRay.Loader
import GammaRay.Total

set_option autoImplicit false

/-!
# The steps of the loader

The commands that `qemu_load_index` can issue, whatever the index holds. What they keep holds of the
database when the load is over.
-/
namespace GammaRay.Loader
open Bytes Decimal Bson KvStore Total
open Redis (Db Command)

inductive IndexCommand : Command KvStore.Key → Prop where
  | setMbr (id : ℕ) (field data : List UInt8) : IndexCommand (redisMbrSectorInsert id field data)
  | setSuperblock (id : ℕ) (field data : List UInt8) :
    IndexCommand (redisSuperblockSectorInsert id field data)
  | setBgd (id : ℕ) (field data : List UInt8) : IndexCommand (redisBgdSectorInsert id field data)
  | setFile (id : ℕ) (field data : List UInt8) :
    IndexCommand (redisFileSectorInsert id field data)
  | setExtent (sector : ℕ) (field data : List UInt8) :
    IndexCommand (redisExtentSectorInsert sector field data)
  | setDir (sector : ℕ) (field data : List UInt8) :
    IndexCommand (redisDirSectorInsert sector field data)
  | pushBgd (sector : ℕ) (id : ℤ) : IndexCommand (redisBgdsInsert sector id)
  | pushFile (sector : ℕ) (id : ℤ) : IndexCommand (redisFilesInsert sector id)
  | pushInode (inode : ℕ) (id : ℤ) : IndexCommand (redisInodeInsert inode id)
  | pushExtent (id : ℕ) (sector : ℤ) : IndexCommand (redisExtentsInsert id sector)
  | pushSector (id : ℕ) (sector : ℤ) : IndexCommand (redisFileSectorsInsert id sector)
  | pushEntry (sector : ℕ) (data : List UInt8) : IndexCommand (redisDirFilesInsert sector data)
  | pointMbr (sector : ℕ) (id : ℤ) : IndexCommand (redisMbrInsert sector id)
  | pointSuperblock (sector : ℕ) (id : ℤ) : IndexCommand (redisSuperblockInsert sector id)
  | pointBgds (sector : ℕ) (id : ℤ) : IndexCommand (redisBgdsSectorInsert sector id)
  | pointFiles (sector : ℕ) (id : ℤ) : IndexCommand (redisFilesSectorInsert sector id)
  | pointExtent (sector : ℕ) (id : ℤ) : IndexCommand (redisExtentsSectorInsert sector id)
  | pointDir (sector : ℕ) (id : ℤ) : IndexCommand (redisDirInsert sector id)
  | pointData (sector start stop file : ℕ) :
    IndexCommand (.set (.sector sector) (dataPointer start stop file))
  | setPath (path : List UInt8) (id : ℕ) : IndexCommand (.set (.path path) (dec id))
  | setFilter (data : List UInt8) : IndexCommand (.set .metadataFilter data)
  | setCounter (counter : ℕ) : IndexCommand (.set .fcounter (dec counter))

theorem IndexCommand.plain {cmd : Command KvStore.Key} (h : IndexCommand cmd) : Plain cmd := by
  cases h <;> exact ⟨nofun, nofun⟩

/-- A handle without flush jobs on such a database. -/
structure Rests (J : Db KvStore.Key → Prop) (h : Handle) : Prop where
  settled : Settled h
  db : J h.db

section Calls

variable {J : Db KvStore.Key → Prop} {h : Handle} {cmd : Command KvStore.Key}

theorem rests_of_issues {call : Handle → Option Handle} {cs : List (Command KvStore.Key)}
    (hcall : Issues call cs) (hr : Rests J h) (hJ : J (h.db.replay cs)) :
    Gives (call h) (Rests J) := by
  obtain ⟨h', he, hdb, hs⟩ := hcall h hr.settled
  intro a ha
  obtain rfl := Option.some.inj (he.symm.trans ha)
  exact ⟨hs, hdb ▸ hJ⟩

theorem flush_rests (hr : Rests J h) : Gives (redisFlushPipeline h) (Rests J) :=
  rests_of_issues flush_issues hr hr.db

theorem getField_rests (hr : Rests J h) (id : ℕ) (field : String) (old : ℕ) :
    Gives (getField redisSuperblockSectorGet id field old h) fun p => Rests J p.2 := by
  obtain ⟨h', he, hdb, hs⟩ := ask_total hr.settled (copyString 8)
    (show Redis.exec h.db (redisSuperblockSectorGet id (ascii field)) = some (_, h.db) from rfl)
  refine Gives.bind (P := fun p => Rests J p.2) ?_ fun p hp => gives_some hp
  intro a ha
  obtain rfl := Option.some.inj (he.symm.trans ha)
  exact ⟨hs, hdb ▸ hr.db⟩

end Calls

/-! ## Documents -/

theorem whileDeserialize_gives {σ : Type} {more : ℤ → Bool}
    {body : BsonInfo → Vars → σ → Option (Bool × Vars × σ)} {I : σ → Prop}
    (hbody : ∀ bson vars s, I s → Gives (body bson vars s) fun p => I p.2.2) (fuel : ℕ)
    (bson : BsonInfo) (vars : Vars) {s : σ} (hs : I s) :
    Gives (whileDeserialize more body fuel bson vars s) fun p => I p.2.2.2 := by
  induction fuel generalizing bson vars s with
  | zero => exact gives_none
  | succ fuel ih =>
    refine gives_bind ?_
    rintro ⟨ret, bson, value1, value2⟩
    refine Gives.ite ((hbody _ _ _ hs).bind ?_) (gives_some hs)
    rintro ⟨ok, vars, s'⟩ hs'
    exact (ih _ _ hs').ite (gives_some hs')

section Records

variable {J : Db KvStore.Key → Prop} (hJ : ∀ cmd, IndexCommand cmd → ∀ d, J d → J (d.after cmd))
  {h : Handle}
include hJ

theorem pipelined_rests (hr : Rests J h) {cmd : Command KvStore.Key} (hcmd : IndexCommand cmd) :
    Gives (pipelined cmd h) (Rests J) :=
  rests_of_issues (pipelined_issues hcmd.plain.1) hr (hJ _ hcmd _ hr.db)

theorem setField_rests (hr : Rests J h)
    {fmt : ℕ → List UInt8 → List UInt8 → Command KvStore.Key} {id : ℕ}
    (hfmt : ∀ field data, IndexCommand (fmt id field data)) (bson : BsonInfo) (value1 : BsonRef) :
    Gives (setField fmt id bson value1 h) (Rests J) :=
  gives_bind fun _ => pipelined_rests hJ hr (hfmt _ _)

theorem recordElement_rests (hr : Rests J h) {sectorKey : String}
    {point : ℕ → Handle → Option Handle}
    {fmt : ℕ → List UInt8 → List UInt8 → Command KvStore.Key} {id : ℕ}
    (hpoint : ∀ n, Gives (point n h) (Rests J))
    (hfmt : ∀ field data, IndexCommand (fmt id field data))
    (bson : BsonInfo) (vars : Vars) :
    Gives (recordElement sectorKey point fmt id bson vars h) fun p => Rests J p.2.2 := by
  unfold recordElement
  refine Gives.ite ?_ ?_
  · exact gives_bind fun n => (hpoint n).bind fun _ hr => gives_some hr
  · exact (setField_rests hJ hr hfmt _ _).bind fun _ hr => gives_some hr

theorem deserializeMbr_rests (hr : Rests J h) (fuel : ℕ) (bson : BsonInfo) (vars : Vars)
    (id : ℕ) : Gives (deserializeMbr fuel bson vars h id) fun p => Rests J p.2.2.2 :=
  whileDeserialize_gives (I := Rests J) (fun _ _ _ hr => recordElement_rests hJ hr
    (fun n => pipelined_rests hJ hr (.pointMbr n id)) (.setMbr id) _ _) _ _ _ hr

theorem deserializePartition_rests (hr : Rests J h) (fuel : ℕ) (bson : BsonInfo) (vars : Vars)
    (id : ℕ) : Gives (deserializePartition fuel bson vars h id) fun p => Rests J p.2.2.2 :=
  whileDeserialize_gives (I := Rests J) (fun _ _ _ hr => recordElement_rests hJ hr
    (fun n => pipelined_rests hJ hr (.pointSuperblock n id)) (.setSuperblock id) _ _) _ _ _ hr

theorem deserializeBgd_rests (hr : Rests J h) (fuel : ℕ) (bson : BsonInfo) (vars : Vars)
    (id : ℕ) : Gives (deserializeBgd fuel bson vars h id) fun p => Rests J p.2.2.2 :=
  whileDeserialize_gives (I := Rests J) (fun _ _ _ hr => recordElement_rests hJ hr
    (fun n => (pipelined_rests hJ hr (.pushBgd n id)).bind fun _ hr =>
      pipelined_rests hJ hr (.pointBgds n n)) (.setBgd id) _ _) _ _ _ hr

theorem deserializeBitarray_rests (hr : Rests J h) (fuel : ℕ) (bson : BsonInfo) (vars : Vars) :
    Gives (deserializeBitarray fuel bson vars h) fun p => Rests J p.2.2.2 := by
  refine whileDeserialize_gives (I := Rests J) (fun bson vars s hr => ?_) _ _ _ hr
  refine Gives.ite (gives_bind fun data => ?_) (gives_some hr)
  exact (pipelined_rests hJ hr (.setFilter data)).bind fun _ hr => gives_some hr

omit hJ in
theorem qemuGetSuperinfo_rests (hr : Rests J h) (locals : SuperInfo) (fsId : ℕ) :
    Gives (qemuGetSuperinfo h locals fsId) fun p => Rests J p.2 := by
  refine (getField_rests hr _ _ _).bind fun _ hr => (getField_rests hr _ _ _).bind fun _ hr => ?_
  refine (getField_rests hr _ _ _).bind fun _ hr => (getField_rests hr _ _ _).bind fun _ hr => ?_
  refine (getField_rests hr _ _ _).bind fun _ hr => (getField_rests hr _ _ _).bind fun _ hr => ?_
  exact gives_some hr

theorem fsElement_rests (hr : Rests J h) (id : ℕ) (bson : BsonInfo) (vars : Vars) :
    Gives (fsElement id bson vars h) fun p => Rests J p.2.2 := by
  have hset : ∀ {h : Handle}, Rests J h →
      Gives (setField redisSuperblockSectorInsert id bson vars.value1 h >>= fun h =>
        some (true, vars, h)) fun p => Rests J p.2.2 := fun hr =>
    (setField_rests hJ hr (.setSuperblock id) _ _).bind fun _ hr => gives_some hr
  unfold fsElement
  refine Gives.ite (gives_bind fun sector => ?_) (hset hr)
  exact (pipelined_rests hJ hr (.pointSuperblock sector id)).bind fun _ hr => hset hr

theorem deserializeFs_rests (hr : Rests J h) (fuel : ℕ) (bson : BsonInfo) (locals : Locals)
    (id : ℕ) : Gives (deserializeFs fuel bson locals h id) fun p => Rests J p.2.2 := by
  refine (whileDeserialize_gives (I := Rests J)
    (fun _ _ _ hr => fsElement_rests hJ hr id _ _) _ _ _ hr).bind fun p hp => ?_
  refine (flush_rests hp).bind fun _ hr => ?_
  exact (qemuGetSuperinfo_rests hr _ _).bind fun _ hr => gives_some hr

omit hJ in
theorem whileNested_rests (heap : Heap) (fuel : ℕ)
    {body : BsonInfo → Vars → Handle × ℕ → Option (Bool × Vars × Handle × ℕ)}
    (hbody : ∀ bson vars s, Rests J s.1 → Gives (body bson vars s) fun p => Rests J p.2.2.1)
    (bson : BsonInfo) (vars : Vars) {s : Handle × ℕ} (hs : Rests J s.1) :
    Gives (whileNested heap fuel body bson vars s) fun p => Rests J p.2.2.1 := by
  refine gives_bind fun data => gives_bind fun q => ?_
  refine (whileDeserialize_gives (I := fun s : Handle × ℕ => Rests J s.1) hbody _ _ _ hs).bind ?_
  exact fun p hp => gives_some hp

theorem filesElement_rests (id : ℕ) (bson : BsonInfo) (vars : Vars) (s : Handle × ℕ)
    (hs : Rests J s.1) : Gives (filesElement id bson vars s) fun p => Rests J p.2.2.1 := by
  refine (pipelined_rests hJ hs (.setDir _ _ _)).bind fun _ hs => gives_bind fun data => ?_
  refine (pipelined_rests hJ hs (.pushEntry _ data)).bind fun _ hs => ?_
  exact (pipelined_rests hJ hs (.pointDir _ _)).bind fun _ hs => gives_some hs

theorem sectorsElement_rests (blockSize id : ℕ) (bson : BsonInfo) (vars : Vars)
    (s : Handle × ℕ) (hs : Rests J s.1) :
    Gives (sectorsElement blockSize id bson vars s) fun p => Rests J p.2.2.1 := by
  refine gives_bind fun sector => ?_
  refine (pipelined_rests hJ hs (.pushSector id sector)).bind fun _ hs => ?_
  exact (pipelined_rests hJ hs (.pointData _ _ _ id)).bind fun _ hs => gives_some hs

theorem extentsElement_rests (id : ℕ) (bson : BsonInfo) (vars : Vars) (s : Handle × ℕ)
    (hs : Rests J s.1) : Gives (extentsElement id bson vars s) fun p => Rests J p.2.2.1 := by
  refine (pipelined_rests hJ hs (.setExtent _ _ _)).bind fun _ hs => ?_
  refine (pipelined_rests hJ hs (.pushExtent id _)).bind fun _ hs => ?_
  exact (pipelined_rests hJ hs (.pointExtent _ _)).bind fun _ hs => gives_some hs

theorem fileElement_rests (heap : Heap) (fuel blockSize id : ℕ) (bson : BsonInfo) (vars : Vars)
    (s : Handle × ℕ) (hs : Rests J s.1) :
    Gives (fileElement heap fuel blockSize id bson vars s) fun p => Rests J p.2.2.1 := by
  have hfield : ∀ {h : Handle}, Rests J h →
      Gives (setField redisFileSectorInsert id bson vars.value1 h) (Rests J) :=
    fun hr => setField_rests hJ hr (.setFile id) _ _
  refine Gives.ite ?_ (Gives.ite ?_ (Gives.ite ?_ (Gives.ite ?_ (Gives.ite ?_ (Gives.ite ?_ ?_)))))
  · refine gives_bind fun sector => ?_
    refine (pipelined_rests hJ hs (.pushFile sector id)).bind fun _ hs => ?_
    exact (pipelined_rests hJ hs (.pointFiles sector sector)).bind fun _ hs => gives_some hs
  · refine gives_bind fun num => (pipelined_rests hJ hs (.pushInode num id)).bind fun _ hs => ?_
    exact (hfield hs).bind fun _ hs => gives_some hs
  · exact whileNested_rests heap fuel (filesElement_rests hJ id) bson vars hs
  · refine Gives.bind (whileNested_rests heap fuel (sectorsElement_rests hJ blockSize id) bson vars
      (s := (s.1, 0)) hs) fun p hp => gives_some hp
  · exact whileNested_rests heap fuel (extentsElement_rests hJ id) bson vars hs
  · refine (hfield hs).bind fun _ hs => gives_bind fun data => ?_
    exact (pipelined_rests hJ hs (.setPath data id)).bind fun _ hs => gives_some hs
  · exact (hfield hs).bind fun _ hs => gives_some hs

theorem qemuLoadDocument_rests (hr : Rests J h) (heap : Heap) (fuel : ℕ) (locals : Locals)
    (bson : BsonInfo) (st : Statics) :
    Gives (qemuLoadDocument heap fuel locals bson st h) fun p => Rests J p.2.2.2 := by
  refine gives_bind ?_
  rintro ⟨ret, bson, value1, value2⟩
  refine Gives.ite (gives_some hr) (Gives.ite (gives_some hr) ?_)
  refine Gives.ite ?_ (Gives.ite ?_ (Gives.ite ?_ (Gives.ite ?_ (Gives.ite ?_ (Gives.ite ?_
    (gives_some hr))))))
  · exact (whileDeserialize_gives (I := fun s : Handle × ℕ => Rests J s.1)
      (fileElement_rests hJ heap fuel st.super.blockSize st.fileCounter) _ _ _ hr).bind
        fun p hp => gives_some hp
  · exact (deserializeBgd_rests hJ hr _ _ _ _).bind fun p hp => gives_some hp
  · refine gives_bind ?_
    rintro ⟨ret, bson, value1, value2⟩
    refine Gives.ite (gives_some hr) (Gives.ite (gives_some hr) (gives_bind fun fsId => ?_))
    exact (deserializeFs_rests hJ hr _ _ _ _).bind fun p hp => gives_some hp
  · refine gives_bind ?_
    rintro ⟨ret, bson, value1, value2⟩
    refine Gives.ite (gives_some hr) (Gives.ite (gives_some hr) (gives_bind fun fsId => ?_))
    exact (deserializePartition_rests hJ hr _ _ _ _).bind fun p hp => gives_some hp
  · exact (deserializeMbr_rests hJ hr _ _ _ _).bind fun p hp => gives_some hp
  · exact (deserializeBitarray_rests hJ hr _ _ _).bind fun p hp => gives_some hp

theorem loadDocuments_rests (heap : Heap) (fuel : ℕ) (locals : ℕ → Locals) (rounds : ℕ)
    (bson : BsonInfo) (index : File) (st : Statics) (counter : ℕ) (hr : Rests J h) :
    Gives (loadDocuments heap fuel locals rounds bson index st counter h)
      fun p => Rests J p.2.2 := by
  induction rounds generalizing bson index st counter h with
  | zero => exact gives_none
  | succ rounds ih =>
    refine gives_bind ?_
    rintro ⟨ret, bson, index⟩
    refine Gives.ite ((qemuLoadDocument_rests hJ hr _ _ _ _ _).bind ?_) (gives_some hr)
    rintro ⟨ok, bson, st, store⟩ hstore
    exact ih _ _ _ _ hstore

theorem qemuLoadIndex_rests (heap : Heap) (fuel : ℕ) (locals : ℕ → Locals) (index : File)
    (st : Statics) (hr : Rests J h) :
    Gives (qemuLoadIndex heap fuel locals index st h) fun p => Rests J p.2 := by
  refine (loadDocuments_rests hJ heap fuel locals fuel _ index st 0 hr).bind ?_
  rintro ⟨counter, st, store⟩ hstore
  have hcounter := IndexCommand.setCounter counter
  refine (rests_of_issues (command_issues hcounter.plain.1) hstore
    (hJ _ hcounter _ hstore.db)).bind fun _ hr => ?_
  exact (flush_rests hr).bind fun _ hr => gives_some hr

end Records

end GammaRay.Loader
