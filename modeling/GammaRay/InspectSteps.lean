import GammaRay.InspectCalls
import GammaRay.Simulation

set_option autoImplicit false

/-!
# Inspections in step

One inspection on two stores. If the calls run in step, all handlers do; what is asked of the
calls depends on the commands they are given.
-/
namespace GammaRay.Inspect
open Bytes Decimal Redis KvStore Bson Ext4 Simulation

/-- A command that changes neither the queue nor the record of a file nor a list of files. -/
def Tame (cmd : Command KvStore.Key) : Prop :=
  (∀ k, cmd ≠ .brpop k) ∧ (∀ n, cmd.writes ≠ some (.qsector n)) ∧
    (∀ n, cmd.writes ≠ some (.file n)) ∧ ∀ n, cmd.writes ≠ some (.files n)

/-- A command with the way it is issued. -/
inductive Issue where
  | append (cmd : Command KvStore.Key)
  | query (cmd : Command KvStore.Key)
  | look (cmd : Command KvStore.Key)
  | tell (cmd : Command KvStore.Key)

def Issue.command : Issue → Command KvStore.Key
  | append cmd | query cmd | look cmd | tell cmd => cmd

/-- The calls of an inspection, but for those on the queue or the record of a file. -/
inductive Issued : Issue → Prop where
  | publish (channel message : List UInt8) : Issued (.tell (.publish channel message))
  | getSuperblock (id : ℕ) (field : List UInt8) : Issued (.query (redisSuperblockSectorGet id field))
  | getBgd (id : ℕ) (field : List UInt8) : Issued (.query (redisBgdSectorGet id field))
  | getFile (id : ℕ) (field : List UInt8) : Issued (.query (redisFileSectorGet id field))
  | getExtent (sector : ℕ) (field : List UInt8) :
    Issued (.query (redisExtentSectorGet sector field))
  | getSector (sector : ℕ) : Issued (.query (.get (.sector sector)))
  | lastSector (file : ℕ) : Issued (.query (.lindex (.filesectors file) (-1)))
  | countSectors (file : ℕ) : Issued (.query (redisFileSectorsLlen file))
  | listBgds (sector : ℕ) : Issued (.query (redisBgdsLget sector))
  | listFiles (sector : ℕ) : Issued (.query (redisFilesLget sector))
  | listExtents (file : ℕ) : Issued (.query (redisExtentsLget file))
  | setSuperblock (id : ℕ) (field data : List UInt8) :
    Issued (.append (redisSuperblockSectorInsert id field data))
  | setBgd (id : ℕ) (field data : List UInt8) :
    Issued (.append (redisBgdSectorInsert id field data))
  | setExtent (sector : ℕ) (field data : List UInt8) :
    Issued (.append (redisExtentSectorInsert sector field data))
  | pushSector (file : ℕ) (sector : ℤ) : Issued (.append (redisFileSectorsInsert file sector))
  | setSector (file index : ℕ) (sector : ℤ) :
    Issued (.append (redisFileSectorsLset file index sector))
  | pushExtent (file : ℕ) (sector : ℤ) : Issued (.append (redisExtentsInsert file sector))
  | insertExtent (file index : ℕ) (sector : ℤ) :
    Issued (.append (redisExtentsLinsert file index sector))
  | pointData (sector start stop file : ℕ) :
    Issued (.append (.set (.sector sector) (dataPointer start stop file)))
  | pointExtent (sector : ℕ) (id : ℤ) : Issued (.append (redisExtentsSectorInsert sector id))

theorem Issued.tame {issue : Issue} (h : Issued issue) : Tame issue.command := by
  cases h <;> exact ⟨nofun, nofun, nofun, nofun⟩

/-- The inspection with the calls of another store. -/
def Inspector.withService {σ τ : Type} (c : Inspector σ) (S : Service τ) : Inspector τ where
  toSetup := c.toSetup
  service := S
  stack := c.stack

/-- The calls with a property run in step, and those that every inspection issues have it. -/
structure InStep {σ τ : Type} (c : Inspector σ) (S : Service τ) (T : State σ → State τ → Prop)
    (P : Issue → Prop) : Prop where
  enter : Sim T c.enter (c.withService S).enter
  append : ∀ cmd, P (.append cmd) → Sim T (c.append cmd) ((c.withService S).append cmd)
  query : ∀ cmd, P (.query cmd) → Sim T (c.query cmd) ((c.withService S).query cmd)
  look : ∀ cmd, P (.look cmd) → Sim T (c.look cmd) ((c.withService S).look cmd)
  tell : ∀ cmd, P (.tell cmd) → Sim T (c.tell cmd) ((c.withService S).tell cmd)
  flush : Sim T c.flush (c.withService S).flush
  issued : ∀ issue, Issued issue → P issue

/-- The calls on the queue. -/
structure Queues (P : Issue → Prop) : Prop where
  peek : ∀ n, P (.look (.get (.qsector n)))
  enqueue : ∀ n value, P (.append (.setex (.qsector n) defaultTimeout value))
  drop : ∀ n, P (.append (.del (.qsector n)))
  delete : ∀ n, P (.tell (.del (.qsector n)))

namespace Inspector

section Calls

variable {σ τ : Type} {c : Inspector σ} {S : Service τ} {T : State σ → State τ → Prop}
  {P : Issue → Prop} (h : InStep c S T P)

theorem sim_defined {α : Type} (x : Option α) : Sim T (defined x) (defined x) := by
  intro s t hst
  cases x with
  | none => exact .none
  | some a => exact .some ⟨rfl, hst⟩

theorem sim_pointerTarget (old : ℕ) (pointer : List UInt8) :
    Sim T (pointerTarget old pointer) (pointerTarget old pointer) :=
  (sim_defined _).bind fun _ => sim_pure _

include h

theorem sim_publish (channel : List UInt8) (kvs : List BsonKv) :
    Sim T (c.publish channel kvs) ((c.withService S).publish channel kvs) :=
  (sim_defined _).bind fun _ => (sim_defined _).bind fun _ =>
    h.tell _ (h.issued _ (.publish _ _))

theorem sim_directFieldCompare (record : String) (channel : List UInt8) (transactionId : ℕ)
    (v : Compared) :
    Sim T (c.directFieldCompare record channel transactionId v)
      ((c.withService S).directFieldCompare record channel transactionId v) :=
  (sim_publish h _ _).ite (sim_pure _)

theorem sim_getField {fmt : ℕ → List UInt8 → Command KvStore.Key} {id : ℕ}
    (hf : ∀ name, P (.query (fmt id name))) (name : String) (old : List UInt8) :
    Sim T (c.getField fmt id name old) ((c.withService S).getField fmt id name old) :=
  (h.query _ (hf _)).bind fun _ => sim_pure _

theorem sim_setField {fmt : ℕ → List UInt8 → List UInt8 → Command KvStore.Key} {id : ℕ}
    (hf : ∀ name value, P (.append (fmt id name value))) (v : Compared) :
    Sim T (c.setField fmt id v) ((c.withService S).setField fmt id v) :=
  (h.append _ (hf _ _)).ite (sim_pure _)

theorem sim_diffSuperblock (write : List UInt8) (writeCounter : ℕ) (pointer : List UInt8) :
    Sim T (c.diffSuperblock write writeCounter pointer)
      ((c.withService S).diffSuperblock write writeCounter pointer) := by
  have hget : ∀ fs name, P (.query (redisSuperblockSectorGet fs name)) :=
    fun _ _ => h.issued _ (.getSuperblock _ _)
  have hset : ∀ fs name value, P (.append (redisSuperblockSectorInsert fs name value)) :=
    fun _ _ _ => h.issued _ (.setSuperblock _ _ _)
  refine h.enter.bind fun vars => (sim_pointerTarget _ _).bind fun fs => ?_
  refine (sim_getField h (hget fs) _ _).bind fun _ => (sim_getField h (hget fs) _ _).bind fun _ =>
    (sim_getField h (hget fs) _ _).bind fun _ => (sim_getField h (hget fs) _ _).bind fun _ => ?_
  refine (sim_defined _).bind fun new => (sim_defined _).ite ?_
  exact (sim_forM fun v => sim_directFieldCompare h _ _ _ v).bind fun _ =>
    sim_forM fun v => sim_setField h (hset fs) v

theorem sim_diffBgdsLoop (write : List UInt8) (writeCounter : ℕ) (list : List (List UInt8))
    (fuel len i bgd : ℕ) (olds : List (List UInt8)) :
    Sim T (c.diffBgdsLoop write writeCounter list fuel len i bgd olds)
      ((c.withService S).diffBgdsLoop write writeCounter list fuel len i bgd olds) := by
  have hget : ∀ bgd name, P (.query (redisBgdSectorGet bgd name)) :=
    fun _ _ => h.issued _ (.getBgd _ _)
  have hset : ∀ bgd name value, P (.append (redisBgdSectorInsert bgd name value)) :=
    fun _ _ _ => h.issued _ (.setBgd _ _ _)
  induction fuel generalizing len i bgd olds with
  | zero => exact sim_pure _
  | succ fuel ih =>
    unfold diffBgdsLoop
    refine Sim.ite ?_ (sim_pure _)
    refine (sim_defined _).bind fun _ => (sim_pointerTarget _ _).bind fun bgd => ?_
    refine (sim_mapM fun p => sim_getField h (hget bgd) _ _).bind fun olds => ?_
    refine (sim_defined _).bind fun new => ?_
    refine (sim_forM fun v => sim_directFieldCompare h _ _ _ v).bind fun _ => ?_
    exact (sim_forM fun v => sim_setField h (hset bgd) v).bind fun _ => ih _ _ _ _

theorem sim_diffBgds (write : List UInt8) (writeCounter : ℕ) (pointer : List UInt8) :
    Sim T (c.diffBgds write writeCounter pointer)
      ((c.withService S).diffBgds write writeCounter pointer) :=
  h.enter.bind fun _ => (sim_pointerTarget _ _).bind fun _ =>
    (h.query _ (h.issued _ (.listBgds _))).bind fun _ =>
      (sim_defined _).bind fun _ => sim_diffBgdsLoop h _ _ _ _ _ _ _ _

theorem sim_lastFileSector (file lastSector : ℕ) :
    Sim T (c.lastFileSector file lastSector) ((c.withService S).lastFileSector file lastSector) :=
  (h.query _ (h.issued _ (.lastSector _))).bind fun _ =>
    (sim_pure _).ite (sim_pointerTarget _ _)

theorem sim_insertLeaf (file sector i : ℕ) (l : List ℕ) :
    Sim T (c.insertLeaf file sector i l) ((c.withService S).insertLeaf file sector i l) := by
  induction l generalizing i with
  | nil => exact sim_pure _
  | cons old rest ih =>
    refine (sim_pure _).ite (Sim.ite ?_ (ih _))
    exact (h.append _ (h.issued _ (.insertExtent _ _ _))).bind fun _ => ih _

/-! ## Handlers that inspect again -/

section Again

variable {inspect : BdrvWrite → Act σ Unit} {inspect' : BdrvWrite → Act τ Unit}
  (hagain : ∀ sector, Sim T (c.reinspectWrite inspect sector)
    ((c.withService S).reinspectWrite inspect' sector))
include hagain

theorem sim_placeBlock (file block sector : ℕ) {list : Command KvStore.Key}
    (hlist : Issued (.append list)) :
    Sim T (c.placeBlock inspect file block sector list)
      ((c.withService S).placeBlock inspect' file block sector list) :=
  (h.append _ (h.issued _ hlist)).bind fun _ =>
    (h.append _ (h.issued _ (.pointData _ _ _ _))).bind fun _ => hagain _

theorem sim_diffExtent (file oldFileLen : ℕ) (extent : Extent) :
    Sim T (c.diffExtent inspect file oldFileLen extent)
      ((c.withService S).diffExtent inspect' file oldFileLen extent) := by
  refine Sim.ite (sim_forM fun i => sim_placeBlock h hagain _ _ _ ?_) ?_
  · split
    · exact .setSector _ _ _
    · exact .pushSector _ _
  · exact (sim_forM fun _ => h.append _ (h.issued _ (.pushSector _ _))).bind fun _ =>
      sim_forM fun i => sim_placeBlock h hagain _ _ _ (.pushSector _ _)

theorem sim_newLeaf (file sector : ℕ) :
    Sim T (c.newLeaf inspect file sector) ((c.withService S).newLeaf inspect' file sector) :=
  (h.append _ (h.issued _ (.setExtent _ _ _))).bind fun _ =>
    (h.append _ (h.issued _ (.pushExtent _ _))).bind fun _ =>
      (h.append _ (h.issued _ (.pointExtent _ _))).bind fun _ => hagain _

theorem sim_diffExtentIdx (file : ℕ) (extents : List ℕ) (idx : ExtentIdx) :
    Sim T (c.diffExtentIdx inspect file extents idx)
      ((c.withService S).diffExtentIdx inspect' file extents idx) :=
  (sim_pure _).ite ((sim_newLeaf h hagain _ _).ite (sim_insertLeaf h _ _ _ _))

theorem sim_diffEntry (file oldFileLen : ℕ) (extents : List ℕ) (hdr : ExtentHeader)
    (newb : Buffer) (newCounter : ℕ) :
    Sim T (c.diffEntry inspect file oldFileLen extents hdr newb newCounter)
      ((c.withService S).diffEntry inspect' file oldFileLen extents hdr newb newCounter) :=
  ((sim_defined _).bind fun _ => sim_diffExtentIdx h hagain _ _ _).ite
    ((sim_defined _).bind fun _ => sim_diffExtent h hagain _ _ _)

theorem sim_diffExt4Extents (file : ℕ) (newb : Buffer) :
    Sim T (c.diffExt4Extents inspect file newb)
      ((c.withService S).diffExt4Extents inspect' file newb) := by
  refine h.enter.bind fun vars => (sim_defined _).bind fun _ => (sim_defined _).bind fun hdr => ?_
  refine (h.query _ (h.issued _ (.countSectors _))).bind fun _ => ?_
  refine (h.query _ (h.issued _ (.listExtents _))).bind fun _ => ?_
  refine (sim_defined _).bind fun list => (sim_mapM fun p => sim_pointerTarget _ _).bind fun _ => ?_
  exact (sim_forM fun _ => sim_diffEntry h hagain _ _ _ _ _ _).bind fun _ => h.flush

theorem sim_diffExtentTree (write pointer : List UInt8) :
    Sim T (c.diffExtentTree inspect write pointer)
      ((c.withService S).diffExtentTree inspect' write pointer) :=
  h.enter.bind fun _ => (sim_pointerTarget _ _).bind fun _ =>
    (sim_getField h (fun _ => h.issued _ (.getExtent _ _)) _ _).bind fun _ =>
      sim_diffExt4Extents h hagain _ _

theorem sim_diffInodeExtents (write : List UInt8) (file offset : ℕ) (new : Inode) :
    Sim T (c.diffInodeExtents inspect write file offset new)
      ((c.withService S).diffInodeExtents inspect' write file offset new) :=
  (sim_diffExt4Extents h hagain _ _).ite (sim_pure _)

theorem sim_diffInodeSize (file size newSize lastSector : ℕ) :
    Sim T (c.diffInodeSize inspect file size newSize lastSector)
      ((c.withService S).diffInodeSize inspect' file size newSize lastSector) :=
  ((sim_lastFileSector h _ _).bind fun _ => (hagain _).bind fun _ => sim_pure _).ite (sim_pure _)

theorem sim_diffInode (hset : ∀ file name value, P (.append (redisFileSectorInsert file name value)))
    (write : List UInt8) (writeCounter : ℕ) (v : InodeVars) (element : List UInt8) :
    Sim T (c.diffInode inspect write writeCounter v element)
      ((c.withService S).diffInode inspect' write writeCounter v element) := by
  have hget : ∀ file name, P (.query (redisFileSectorGet file name)) :=
    fun _ _ => h.issued _ (.getFile _ _)
  refine (sim_pointerTarget _ _).bind fun file => ?_
  refine (h.query _ (hget _ _)).bind fun _ => (sim_defined _).ite ?_
  refine (sim_getField h (hget file) _ _).bind fun offset => ?_
  refine (sim_mapM fun p => sim_getField h (hget file) _ _).bind fun olds => ?_
  refine (sim_defined _).bind fun new => ?_
  refine (sim_forM fun v => sim_directFieldCompare h _ _ _ v).bind fun _ => ?_
  refine (sim_forM fun v => sim_setField h (hset file) v).bind fun _ => ?_
  refine (sim_diffInodeExtents h hagain _ _ _ _).bind fun _ => ?_
  exact (sim_diffInodeSize h hagain _ _ _ _).bind fun _ => sim_pure _

theorem sim_diffInodes
    (hset : ∀ file name value, P (.append (redisFileSectorInsert file name value)))
    (write : List UInt8) (writeCounter : ℕ) (pointer : List UInt8) :
    Sim T (c.diffInodes inspect write writeCounter pointer)
      ((c.withService S).diffInodes inspect' write writeCounter pointer) :=
  h.enter.bind fun _ => (sim_pointerTarget _ _).bind fun _ =>
    (h.query _ (h.issued _ (.listFiles _))).bind fun _ =>
      (sim_defined _).bind fun _ =>
        (sim_foldlM (fun v element => sim_diffInode h hagain hset _ _ v element) _).bind
          fun _ => sim_pure _

end Again

/-! ## Handlers that change the queue -/

variable (hq : Queues P)
include hq

theorem sim_keepLastBlock (write : List UInt8) (rest writeLen sector : ℕ) :
    Sim T (c.keepLastBlock write rest writeLen sector)
      ((c.withService S).keepLastBlock write rest writeLen sector) :=
  ((sim_defined _).bind fun _ => h.append _ (hq.enqueue _ _)).ite (sim_pure _)

theorem sim_dropInnerBlock (stop fsize sector : ℕ) :
    Sim T (c.dropInnerBlock stop fsize sector) ((c.withService S).dropInnerBlock stop fsize sector) :=
  (h.append _ (hq.drop _)).ite (sim_pure _)

theorem sim_emitFileBytes (write : List UInt8) (writeCounter : ℕ) (pointer : List UInt8)
    (writeLen sector : ℕ) :
    Sim T (c.emitFileBytes write writeCounter pointer writeLen sector)
      ((c.withService S).emitFileBytes write writeCounter pointer writeLen sector) := by
  have hget : ∀ file name, P (.query (redisFileSectorGet file name)) :=
    fun _ _ => h.issued _ (.getFile _ _)
  refine h.enter.bind fun vars => ?_
  split
  · refine (h.query _ (hget _ _)).bind fun _ => (sim_defined _).ite ?_
    refine (sim_getField h (hget _) _ _).bind fun _ => ?_
    exact (sim_keepLastBlock h hq _ _ _ _).bind fun _ =>
      (sim_dropInnerBlock h hq _ _ _).bind fun _ => sim_publish h _ _
  · exact sim_pure _

variable {inspect : BdrvWrite → Act σ Unit} {inspect' : BdrvWrite → Act τ Unit}
  (hi : ∀ w, Sim T (inspect w) (inspect' w))
include hi

theorem sim_reinspectWrite (sector : ℕ) :
    Sim T (c.reinspectWrite inspect sector) ((c.withService S).reinspectWrite inspect' sector) :=
  h.enter.bind fun _ => (h.look _ (hq.peek _)).bind fun _ =>
    (h.tell _ (hq.delete _)).bind fun _ => (sim_pure _).ite (hi _)

/-! ## Dispatch -/

variable (hinodes : ∀ write writeCounter pointer,
  Sim T (c.diffInodes inspect write writeCounter pointer)
    ((c.withService S).diffInodes inspect' write writeCounter pointer))
include hinodes

theorem sim_dispatchWrite (data : List UInt8) (writeCounter : ℕ) (pointer : List UInt8)
    (len sector : ℕ) :
    Sim T (c.dispatchWrite inspect data writeCounter pointer len sector)
      ((c.withService S).dispatchWrite inspect' data writeCounter pointer len sector) := by
  refine (sim_emitFileBytes h hq _ _ _ _ _).ite ((sim_diffSuperblock h _ _ _).ite ?_)
  refine (sim_pure _).ite ((sim_diffBgds h _ _ _).ite ?_)
  refine (hinodes _ _ _).ite ((sim_pure _).ite ?_)
  exact (sim_diffExtentTree h (sim_reinspectWrite h hq hi) _ _).ite
    ((sim_pure _).ite ((sim_defined _).ite (sim_pure _)))

theorem sim_inspectBlock (write : BdrvWrite) (writeCounter i : ℕ) :
    Sim T (c.inspectBlock inspect write writeCounter i)
      ((c.withService S).inspectBlock inspect' write writeCounter i) := by
  refine (h.query _ (h.issued _ (.getSector _))).bind fun _ => ?_
  refine Sim.ite ?_ ((sim_defined _).ite (sim_dispatchWrite h hq hi hinodes _ _ _ _ _))
  exact (sim_defined _).bind fun _ => h.append _ (hq.enqueue _ _)

omit hi hinodes in
theorem sim_deepInspect
    (hset : ∀ file name value, P (.append (redisFileSectorInsert file name value)))
    (writeCounter fuel : ℕ) (write : BdrvWrite) :
    Sim T (c.deepInspect writeCounter fuel write)
      ((c.withService S).deepInspect writeCounter fuel write) := by
  induction fuel generalizing write with
  | zero => exact sim_defined _
  | succ fuel ih =>
    refine (sim_defined _).ite ?_
    exact (sim_forM fun i => sim_inspectBlock h hq ih
      (sim_diffInodes h (sim_reinspectWrite h hq ih) hset) _ _ i).bind fun _ => h.flush

end Calls

/-- An inspection in step with itself, along a relation that its commands keep. -/
theorem inStep_along {σ : Type} {c : Inspector σ} {L : Lawful c.service}
    {Q : Db KvStore.Key → Db KvStore.Key → Prop} {P : Command KvStore.Key → Prop}
    (hrefl : ∀ d, Q d d) (htrans : ∀ {d e f}, Q d e → Q e f → Q d f)
    (hbr : ∀ cmd, P cmd → ∀ k, cmd ≠ .brpop k) (hstep : ∀ cmd, P cmd → ∀ d, Q d (d.after cmd))
    (hissued : ∀ issue, Issued issue → P issue.command) (d : Db KvStore.Key) :
    InStep c c.service (Along L.At Q d) fun issue => P issue.command where
  enter := sim_along htrans fun _ e hs =>
    (enter_at L hs).yields.mono fun _ _ ht => ⟨e, hrefl e, ht.2⟩
  append _ hp := sim_along htrans fun _ e hs =>
    (append_at L hs (hbr _ hp)).yields.mono fun _ _ ht => ⟨_, hstep _ hp e, ht⟩
  query _ hp := sim_along htrans fun _ e hs =>
    (query_after L hs (hbr _ hp)).yields.mono fun _ _ ht => ⟨_, hstep _ hp e, ht⟩
  look _ hp := sim_along htrans fun _ e hs =>
    (look_at L hs (hbr _ hp)).yields.mono fun _ _ ht => ⟨_, hstep _ hp e, ht⟩
  tell _ hp := sim_along htrans fun _ e hs =>
    (tell_at L hs (hbr _ hp)).yields.mono fun _ _ ht => ⟨_, hstep _ hp e, ht⟩
  flush := sim_along htrans fun _ e hs =>
    (flush_at L hs).yields.mono fun _ _ ht => ⟨e, hrefl e, ht⟩
  issued := hissued

end Inspector

end GammaRay.Inspect
