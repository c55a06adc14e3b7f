import GammaRay.Loop
import GammaRay.PipelineAccounting
import GammaRay.Replay

set_option autoImplicit false

/-!
# The schema of the store

The command formats of `redis_queue.h` as functions to commands, and what the calls of
`redis_queue.c` come to on a handle without flush jobs: every call returns, a command has
its effect on the database, and a synchronous call sees the reply to its own command.
-/
namespace GammaRay.KvStore
open Bytes Decimal Redis

def Key.kind : Key → Kind
  | .sector _ | .qsector _ | .path _ | .metadataFilter | .fcounter => .string
  | .bgds _ | .inode _ | .filesectors _ | .files _ | .extents _ | .dirlist _ | .loadlist _
  | .writequeue => .list
  | .mbr _ | .fs _ | .bgd _ | .file _ | .extent _ | .dirdata _ => .hash
  | .createset | .deleteset => .set

/-- `%lld`. -/
def sdec (n : ℤ) : List UInt8 := if n < 0 then 45 :: dec n.natAbs else dec n.natAbs

/-- A reference to another key in a value, `%llu` behind a name. -/
def reference (name : String) (id : ℤ) : List UInt8 := ascii name ++ dec (u64 id)

@[simp] def redisMbrSectorInsert (id : ℕ) (field data : List UInt8) : Command Key :=
  .hset (.mbr id) field data

@[simp] def redisMbrInsert (sector : ℕ) (id : ℤ) : Command Key :=
  .set (.sector sector) (reference "mbr:" id)

@[simp] def redisSuperblockSectorInsert (id : ℕ) (field data : List UInt8) : Command Key :=
  .hset (.fs id) field data

def redisSuperblockSectorGet (id : ℕ) (field : List UInt8) : Command Key := .hget (.fs id) field

@[simp] def redisSuperblockInsert (sector : ℕ) (id : ℤ) : Command Key :=
  .set (.sector sector) (reference "fs:" id)

@[simp] def redisBgdSectorInsert (id : ℕ) (field data : List UInt8) : Command Key :=
  .hset (.bgd id) field data

@[simp] def redisBgdsInsert (sector : ℕ) (id : ℤ) : Command Key :=
  .rpush (.bgds sector) (reference "bgd:" id)

@[simp] def redisBgdsSectorInsert (sector : ℕ) (id : ℤ) : Command Key :=
  .set (.sector sector) (reference "lbgds:" id)

@[simp] def redisInodeInsert (inode : ℕ) (id : ℤ) : Command Key :=
  .rpush (.inode inode) (reference "file:" id)

@[simp] def redisFileSectorInsert (id : ℕ) (field data : List UInt8) : Command Key :=
  .hset (.file id) field data

@[simp] def redisFilesInsert (sector : ℕ) (id : ℤ) : Command Key :=
  .rpush (.files sector) (reference "file:" id)

@[simp] def redisFilesSectorInsert (sector : ℕ) (id : ℤ) : Command Key :=
  .set (.sector sector) (reference "lfiles:" id)

@[simp] def redisExtentSectorInsert (sector : ℕ) (field data : List UInt8) : Command Key :=
  .hset (.extent sector) field data

@[simp] def redisExtentsInsert (id : ℕ) (sector : ℤ) : Command Key :=
  .rpush (.extents id) (reference "extent:" sector)

@[simp] def redisExtentsSectorInsert (sector : ℕ) (id : ℤ) : Command Key :=
  .set (.sector sector) (reference "extent:" id)

@[simp] def redisDirSectorInsert (sector : ℕ) (field data : List UInt8) : Command Key :=
  .hset (.dirdata sector) field data

@[simp] def redisDirFilesInsert (sector : ℕ) (data : List UInt8) : Command Key :=
  .rpush (.dirlist sector) data

@[simp] def redisDirInsert (sector : ℕ) (id : ℤ) : Command Key :=
  .set (.sector sector) (reference "dirdata:" id)

def redisFileSectorGet (id : ℕ) (field : List UInt8) : Command Key := .hget (.file id) field

def redisFileSectorsLgetVar (id : ℕ) (start stop : ℤ) : Command Key :=
  .lrange (.filesectors id) start stop

/-- `sector:%lld`. -/
def sectorText (sector : ℤ) : List UInt8 := ascii "sector:" ++ sdec sector

@[simp] def redisFileSectorsInsert (id : ℕ) (sector : ℤ) : Command Key :=
  .rpush (.filesectors id) (sectorText sector)

theorem sdec_noColon (n : ℤ) : ∀ b ∈ sdec n, b ≠ 58 := by
  intro b hb
  have hdigit : ∀ c ∈ dec n.natAbs, c ≠ 58 := by
    rintro c hc rfl
    exact absurd (dec_isDigit _ 58 hc) (by decide)
  unfold sdec at hb
  split at hb
  · rcases List.mem_cons.mp hb with rfl | hb
    · decide
    · exact hdigit b hb
  · exact hdigit b hb

theorem scanU64_sdec (n : ℤ) (hl : -2 ^ 63 ≤ n) (hu : n < 2 ^ 63) :
    scanU64 (sdec n) = some (u64 n) := by
  have hscan := scan_dec n.natAbs [] (by simp)
  rw [List.append_nil] at hscan
  unfold sdec
  split
  · rename_i h
    have hn : -(n.natAbs : ℤ) = n := by omega
    rw [scanU64, hscan]
    exact congrArg (fun x => some (u64 x)) hn
  · rename_i h
    have hn : u64 n = n.natAbs := by
      unfold u64
      omega
    rw [scanU64, hscan, hn]
    intro rest he
    have hd := dec_isDigit n.natAbs 45 (by rw [he]; exact List.mem_cons_self)
    exact absurd hd (by decide)

theorem scanU64_dec (n : ℕ) : scanU64 (dec n) = some n := by
  have hscan := scan_dec n [] (by simp)
  rw [List.append_nil] at hscan
  rw [scanU64, hscan]
  intro rest he
  have hd := dec_isDigit n 45 (by rw [he]; exact List.mem_cons_self)
  exact absurd hd (by decide)

theorem secondToken_sectorText (sector : ℤ) : secondToken (sectorText sector) = sdec sector := by
  have hname : sectorText sector = [115, 101, 99, 116, 111, 114] ++ 58 :: sdec sector := rfl
  rw [secondToken, hname]
  have htail : (sdec sector).takeWhile (· ≠ 58) = sdec sector := by
    rw [List.takeWhile_eq_self_iff]
    intro b hb
    exact decide_eq_true (sdec_noColon sector b hb)
  exact htail

section Settled

variable {h : Handle}

theorem redisFlushPipeline_total (hs : Settled h) :
    ∃ h', redisFlushPipeline h = some h' ∧ h'.db = h.db ∧ Settled h' ∧ h'.unread = [] ∧
      h'.outstandingPipelinedCmds = 0 := by
  obtain ⟨h', hf, hu, ho⟩ := flushLoop_total hs.count rfl
  exact ⟨h', hf, flushLoop_db hf, (redisFlushPipeline_settled hs hf).1, hu, ho⟩

theorem appendCommand_of_exec {c : Command Key} {r : Reply} {db : Db Key}
    (he : exec h.db c = some (r, db)) :
    appendCommand c h = some { h with
      db := db, unread := h.unread ++ [(h.issued, r)], issued := h.issued + 1 } := by
  rw [appendCommand, he]
  rfl

theorem pipelined_total (hs : Settled h) {c : Command Key} {r : Reply} {db : Db Key}
    (he : exec h.db c = some (r, db)) :
    ∃ h', pipelined c h = some h' ∧ h'.db = db ∧ Settled h' := by
  have ha := appendCommand_of_exec he
  have hcount := hs.count
  have hb := appendCommand_balanced hs.balanced ha
  by_cases hfull : defaultPipelined ≤ h.outstandingPipelinedCmds + 1
  · obtain ⟨h', hf, -, -⟩ := flushLoop_total (n := h.outstandingPipelinedCmds + 1)
      (h := { h with
        db := db, unread := h.unread ++ [(h.issued, r)], issued := h.issued + 1,
        outstandingPipelinedCmds := h.outstandingPipelinedCmds + 1 })
      (by rw [List.length_append, hcount]; rfl) rfl
    have hp : pipelined c h = some h' := by
      rw [pipelined, ha, Option.bind_eq_bind, Option.bind_some]
      dsimp only
      rw [if_pos hfull]
      exact hf
    exact ⟨h', hp, flushLoop_db hf, pipelined_settled hs hp⟩
  · have hp : pipelined c h = some { h with
        db := db, unread := h.unread ++ [(h.issued, r)], issued := h.issued + 1,
        outstandingPipelinedCmds := h.outstandingPipelinedCmds + 1 } := by
      rw [pipelined, ha, Option.bind_eq_bind, Option.bind_some]
      dsimp only
      rw [if_neg hfull]
    exact ⟨_, hp, rfl, pipelined_settled hs hp⟩

/-- With nothing unread a command gets its own reply. -/
theorem redisCommand_of_exec (hu : h.unread = []) {c : Command Key} {r : Reply} {db : Db Key}
    (he : exec h.db c = some (r, db)) :
    redisCommand c h = some ((h.issued, r), { h with
      db := db, unread := [], issued := h.issued + 1 }) := by
  rw [redisCommand, appendCommand_of_exec he, hu]
  rfl

theorem interpretCommand_of_exec (hu : h.unread = []) {c : Command Key} {r : Reply} {db : Db Key}
    (he : exec h.db c = some (r, db)) :
    ∃ h', interpretCommand c h = some (r, h') ∧ h'.db = db ∧ h'.unread = [] := by
  refine ⟨{ h with
    db := db, unread := [], issued := h.issued + 1
    interpreted := h.interpreted ++ [(h.issued, h.issued)] }, ?_, rfl, rfl⟩
  rw [interpretCommand, redisCommand_of_exec hu he]
  rfl

theorem query_of_exec (hs : Settled h) {c : Command Key} {r : Reply} {db : Db Key}
    (he : exec h.db c = some (r, db)) :
    ∃ h', query c h = some (r, h') ∧ h'.db = db ∧ Settled h' ∧ h'.unread = [] := by
  obtain ⟨h₁, hf, hdb, -, hu, -⟩ := redisFlushPipeline_total hs
  obtain ⟨h', hi, hdb', hu'⟩ := interpretCommand_of_exec hu (hdb ▸ he)
  have hq : query c h = some (r, h') := by
    rw [query, hf, Option.bind_eq_bind, Option.bind_some, hi]
  exact ⟨h', hq, hdb', query_settled hs hq, hu'⟩

theorem ask_total {β : Type} (hs : Settled h) {c : Command Key} {r : Reply} {db : Db Key}
    (f : Reply → β) (he : exec h.db c = some (r, db)) :
    ∃ h', ask c f h = some (f r, h') ∧ h'.db = db ∧ Settled h' := by
  obtain ⟨h', hq, hdb, hs', -⟩ := query_of_exec hs he
  exact ⟨h', by rw [ask, hq]; rfl, hdb, hs'⟩

end Settled

/-- A command that leaves the queue of writes as it is. -/
def Plain (cmd : Command Key) : Prop :=
  (∀ k, cmd ≠ .brpop k) ∧ ∀ n, cmd.writes ≠ some (.qsector n)

/-- The commands that a call leaves behind, on a handle without flush jobs. -/
def Issues (call : Handle → Option Handle) (cs : List (Command Key)) : Prop :=
  ∀ h, Settled h → ∃ h', call h = some h' ∧ h'.db = h.db.replay cs ∧ Settled h'

theorem pipelined_issues {c : Command Key} (hc : ∀ k, c ≠ .brpop k) : Issues (pipelined c) [c] := by
  intro h hs
  obtain ⟨r, he⟩ := exec_after hc
  exact pipelined_total hs he

theorem command_issues {c : Command Key} (hc : ∀ k, c ≠ .brpop k) : Issues (command c) [c] := by
  intro h hs
  obtain ⟨h₁, hf, hdb, hs₁, hu, -⟩ := redisFlushPipeline_total hs
  obtain ⟨r, he⟩ : ∃ r, exec h₁.db c = some (r, h₁.db.after c) := exec_after hc
  have hcmd : command c h = some { h₁ with
      db := h₁.db.after c, unread := [], issued := h₁.issued + 1 } := by
    rw [command, Loop.bind_of_some hf, Loop.bind_of_some (redisCommand_of_exec hu he)]
  refine ⟨_, hcmd, ?_, command_settled hs hcmd⟩
  rw [← hdb]
  rfl

theorem flush_issues : Issues redisFlushPipeline [] := by
  intro h hs
  obtain ⟨h₁, hf, hdb, hs₁, -, -⟩ := redisFlushPipeline_total hs
  exact ⟨h₁, hf, hdb, hs₁⟩

theorem Issues.bind {f g : Handle → Option Handle} {cs ds : List (Command Key)}
    (hf : Issues f cs) (hg : Issues g ds) : Issues (fun h => f h >>= g) (cs ++ ds) := by
  intro h hs
  obtain ⟨h₁, he₁, hdb₁, hs₁⟩ := hf h hs
  obtain ⟨h₂, he₂, hdb₂, hs₂⟩ := hg h₁ hs₁
  refine ⟨h₂, (Loop.bind_of_some he₁ g).trans he₂, ?_, hs₂⟩
  rw [hdb₂, hdb₁, replay_append]

end GammaRay.KvStore
