import GammaRay.InspectSteps

set_option autoImplicit false

/-!
# The commands of an inspection

The inspection with a record of the commands it issues. It runs in step with the one
without, and its commands lead from the database before to the one after.
-/
namespace GammaRay.Inspect
open Bytes Decimal Redis KvStore Bson Ext4 Simulation

/-- A service that keeps a record of the commands. -/
def Service.logged {σ : Type} (S : Service σ) : Service (σ × List (Command KvStore.Key)) where
  append cmd s := (S.append cmd s.1).map fun t => (t, s.2 ++ [cmd])
  query cmd s := (S.query cmd s.1).map fun p => (p.1, p.2, s.2 ++ [cmd])
  look cmd s := (S.look cmd s.1).map fun p => (p.1, p.2, s.2 ++ [cmd])
  tell cmd s := (S.tell cmd s.1).map fun t => (t, s.2 ++ [cmd])
  flush s := (S.flush s.1).map fun t => (t, s.2)

def Inspector.logged {σ : Type} (c : Inspector σ) :
    Inspector (σ × List (Command KvStore.Key)) where
  toSetup := c.toSetup
  service := c.service.logged
  stack := c.stack

/-- A command of an inspection: of those that change the queue there are two. -/
inductive Issuable : Command KvStore.Key → Prop where
  | plain {cmd : Command KvStore.Key} (h : Plain cmd) : Issuable cmd
  | enqueue (n : ℕ) (value : List UInt8) : Issuable (.setex (.qsector n) defaultTimeout value)
  | delete (n : ℕ) : Issuable (.del (.qsector n))

theorem Issuable.ne_brpop {cmd : Command KvStore.Key} (h : Issuable cmd) (k : KvStore.Key) :
    cmd ≠ .brpop k := by
  cases h with
  | plain h => exact h.1 k
  | enqueue => nofun
  | delete => nofun

/-- A state and one with a record. Started at `d`, the commands on record, which all have the
property `P`, lead to the database of the state. -/
structure Recorded {σ : Type} {S : Service σ} (L : Lawful S) (P : Command KvStore.Key → Prop)
    (d : Db KvStore.Key) (s : State σ) (t : State (σ × List (Command KvStore.Key))) : Prop where
  store : t.store.1 = s.store
  frames : t.frames = s.frames
  ok : L.Ok s.store
  db : L.db s.store = d.replay t.store.2
  issued : ∀ cmd ∈ t.store.2, P cmd

theorem Recorded.snoc {σ : Type} {S : Service σ} {L : Lawful S} {P : Command KvStore.Key → Prop}
    {d : Db KvStore.Key} {s : State σ} {t : State (σ × List (Command KvStore.Key))}
    (h : Recorded L P d s t) {cmd : Command KvStore.Key} (hp : P cmd) {store : σ}
    (hok : L.Ok store) (hdb : L.db store = (L.db s.store).after cmd) :
    Recorded L P d { s with store := store }
      { t with store := (store, t.store.2 ++ [cmd]) } where
  store := rfl
  frames := h.frames
  ok := hok
  db := by
    rw [hdb, h.db, replay_append]
    rfl
  issued x hx := by
    rcases List.mem_append.mp hx with hx | hx
    · exact h.issued x hx
    · rw [List.mem_singleton.mp hx]
      exact hp

theorem tame_plain {cmd : Command KvStore.Key} (h : Tame cmd) : Plain cmd := ⟨h.1, h.2.1⟩

theorem queues_issuable : Queues fun issue => Issuable issue.command :=
  ⟨fun _ => .plain ⟨nofun, nofun⟩, .enqueue, .delete, .delete⟩

namespace Inspector

section Calls

variable {σ : Type} {c : Inspector σ} {L : Lawful c.service} {P : Command KvStore.Key → Prop}
  {d : Db KvStore.Key}

/-- The inspection and the one with a record run in step. -/
theorem inStep_recorded (hbr : ∀ cmd, P cmd → ∀ k, cmd ≠ .brpop k) (htame : ∀ cmd, Tame cmd → P cmd) :
    InStep c c.service.logged (Recorded L P d) fun issue => P issue.command where
  enter s t h := by
    refine .some ⟨congrArg c.stack h.frames.symm, h.store, ?_, h.ok, h.db, h.issued⟩
    exact congrArg (· + 1) h.frames
  append cmd hp s t h := by
    obtain ⟨store, ht, hok, hdb⟩ := L.append_ok h.ok (hbr cmd hp)
    have hx : c.append cmd s = some ((), { s with store := store }) := by
      rw [append, ht]
      rfl
    have hy : c.logged.append cmd t =
        some ((), { t with store := (store, t.store.2 ++ [cmd]) }) := by
      simp only [append, logged, Service.logged, h.store, ht]
      rfl
    rw [hx]
    exact hy ▸ .some ⟨rfl, h.snoc hp hok hdb⟩
  query cmd hp s t h := by
    obtain ⟨r, store, ht, hok, hex⟩ := L.query_ok h.ok (hbr cmd hp)
    have hdb : L.db store = (L.db s.store).after cmd := by
      rw [Db.after, hex]
      rfl
    have hx : c.query cmd s = some (r, { s with store := store }) := by
      rw [query, ht]
      rfl
    have hy : c.logged.query cmd t =
        some (r, { t with store := (store, t.store.2 ++ [cmd]) }) := by
      simp only [query, logged, Service.logged, h.store, ht]
      rfl
    rw [hx]
    exact hy ▸ .some ⟨rfl, h.snoc hp hok hdb⟩
  look cmd hp s t h := by
    obtain ⟨r, store, ht, hok, hdb⟩ := L.look_ok h.ok (hbr cmd hp)
    have hx : c.look cmd s = some (r, { s with store := store }) := by
      rw [look, ht]
      rfl
    have hy : c.logged.look cmd t =
        some (r, { t with store := (store, t.store.2 ++ [cmd]) }) := by
      simp only [look, logged, Service.logged, h.store, ht]
      rfl
    rw [hx]
    exact hy ▸ .some ⟨rfl, h.snoc hp hok hdb⟩
  tell cmd hp s t h := by
    obtain ⟨store, ht, hok, hdb⟩ := L.tell_ok h.ok (hbr cmd hp)
    have hx : c.tell cmd s = some ((), { s with store := store }) := by
      rw [tell, ht]
      rfl
    have hy : c.logged.tell cmd t =
        some ((), { t with store := (store, t.store.2 ++ [cmd]) }) := by
      simp only [tell, logged, Service.logged, h.store, ht]
      rfl
    rw [hx]
    exact hy ▸ .some ⟨rfl, h.snoc hp hok hdb⟩
  flush s t h := by
    obtain ⟨store, ht, hok, hdb⟩ := L.flush_ok h.ok
    have hx : c.flush s = some ((), { s with store := store }) := by
      rw [flush, ht]
      rfl
    have hy : c.logged.flush t = some ((), { t with store := (store, t.store.2) }) := by
      simp only [flush, logged, Service.logged, h.store, ht]
      rfl
    rw [hx]
    exact hy ▸ .some ⟨rfl, rfl, h.frames, hok, hdb.trans h.db, h.issued⟩
  issued _ h := htame _ h.tame

theorem inStep_plain :
    InStep c c.service.logged (Recorded L Plain d) fun issue => Plain issue.command :=
  inStep_recorded (fun _ h => h.1) fun _ => tame_plain

theorem inStep_issuable :
    InStep c c.service.logged (Recorded L Issuable d) fun issue => Issuable issue.command :=
  inStep_recorded (fun _ h => h.ne_brpop) fun _ h => .plain (tame_plain h)

/-- The commands of the inspection of a block. -/
theorem sim_inspectBlock_issuable (writeCounter fuel : ℕ) (write : BdrvWrite) (i : ℕ) :
    Sim (Recorded L Issuable d)
      (c.inspectBlock (c.deepInspect writeCounter fuel) write writeCounter i)
      (c.logged.inspectBlock (c.logged.deepInspect writeCounter fuel) write writeCounter i) := by
  have hset : ∀ file name value, Issuable (redisFileSectorInsert file name value) :=
    fun _ _ _ => .plain ⟨nofun, nofun⟩
  have hi := sim_deepInspect (inStep_issuable (L := L) (d := d)) queues_issuable hset writeCounter
    fuel
  exact sim_inspectBlock inStep_issuable queues_issuable hi
    (sim_diffInodes inStep_issuable (sim_reinspectWrite inStep_issuable queues_issuable hi) hset)
    write writeCounter i

end Calls

end Inspector

end GammaRay.Inspect
