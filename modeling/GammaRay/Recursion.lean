import GammaRay.InspectSteps

set_option autoImplicit false

/-!
# How deep an inspection goes

`qemu_deep_inspect` calls itself for a block of the queue that has become a block of inodes or of
an extent tree. Every such call takes a reply off the connection that an entry of the queue has
gone into, and no block is queued in it that was not in the queue before.
-/
namespace GammaRay.Inspect
open Bytes Redis KvStore Ext4 Total Simulation

/-- A reply that can be taken for an entry of the queue. -/
def isText : Reply → Bool
  | .string _ => true
  | _ => false

def texts (unread : List (ℕ × Reply)) : ℕ := unread.countP fun r => isText r.2

/-- At most `n` blocks are in the queue or on the way from it. -/
def Room (n : ℕ) (h : Handle) : Prop :=
  Settled h ∧ ∃ queued : Finset ℕ, (∀ k, h.db.keys (.qsector k) ≠ none → k ∈ queued) ∧
    queued.card + texts h.unread ≤ n

section Handles

variable {n m : ℕ} {h h' : Handle} {cmd : Command KvStore.Key}

theorem texts_drop_le (k : ℕ) (l : List (ℕ × Reply)) : texts (l.drop k) ≤ texts l :=
  (List.drop_sublist k l).countP_le

theorem texts_snoc (l : List (ℕ × Reply)) (i : ℕ) (r : Reply) :
    texts (l ++ [(i, r)]) = texts l + (isText r).toNat := by
  rw [texts, List.countP_append, List.countP_singleton]
  cases isText r <;> rfl

theorem Room.mono (hr : Room m h) (hle : m ≤ n) : Room n h := by
  obtain ⟨hs, queued, hmem, hcard⟩ := hr
  exact ⟨hs, queued, hmem, hcard.trans hle⟩

theorem Room.of_le (hr : Room n h) (hs : Settled h')
    (hkeys : ∀ k, h'.db.keys (.qsector k) ≠ none → h.db.keys (.qsector k) ≠ none)
    (hunread : texts h'.unread ≤ texts h.unread) : Room n h' := by
  obtain ⟨-, queued, hmem, hcard⟩ := hr
  exact ⟨hs, queued, fun k hk => hmem k (hkeys k hk), by omega⟩

theorem flushLoop_unread {k : ℕ} (hf : flushLoop k h = some h') : h'.unread = h.unread.drop k := by
  induction k generalizing h with
  | zero =>
    obtain rfl := Option.some.inj hf
    rfl
  | succ k ih =>
    simp only [flushLoop, Option.bind_eq_bind, Option.bind_eq_some_iff, Prod.exists] at hf
    obtain ⟨a, r, h₁, hg, hf⟩ := hf
    obtain ⟨rest, hu, rfl⟩ := getReply_eq hg
    rw [ih hf, hu]
    rfl

theorem appendCommand_exec (ha : appendCommand cmd h = some h') :
    ∃ r, exec h.db cmd = some (r, h'.db) ∧ h'.unread = h.unread ++ [(h.issued, r)] := by
  simp only [appendCommand, Option.bind_eq_bind, Option.bind_eq_some_iff, Prod.exists,
    Option.some.injEq] at ha
  obtain ⟨r, db, he, rfl⟩ := ha
  exact ⟨r, he, rfl⟩

theorem pipelined_exec (hp : pipelined cmd h = some h') :
    ∃ r, exec h.db cmd = some (r, h'.db) ∧
      texts h'.unread ≤ texts h.unread + (isText r).toNat := by
  simp only [pipelined, Option.bind_eq_bind, Option.bind_eq_some_iff] at hp
  obtain ⟨h₁, ha, hp⟩ := hp
  obtain ⟨r, he, hu⟩ := appendCommand_exec ha
  split at hp
  · refine ⟨r, by rw [flushLoop_db hp]; exact he, ?_⟩
    rw [flushLoop_unread hp, ← texts_snoc, ← hu]
    exact texts_drop_le _ _
  · obtain rfl := Option.some.inj hp
    exact ⟨r, he, by rw [← texts_snoc, ← hu]⟩

theorem redisCommand_exec {first : ℕ × Reply} (hc : redisCommand cmd h = some (first, h')) :
    ∃ r, exec h.db cmd = some (r, h'.db) ∧
      texts h'.unread + (isText first.2).toNat = texts h.unread + (isText r).toNat := by
  simp only [redisCommand, Option.bind_eq_bind, Option.bind_eq_some_iff] at hc
  obtain ⟨h₁, ha, hg⟩ := hc
  obtain ⟨r, he, hu⟩ := appendCommand_exec ha
  obtain ⟨rest, hu', rfl⟩ := getReply_eq hg
  refine ⟨r, he, ?_⟩
  have hsnoc := texts_snoc h.unread h.issued r
  rw [← hu, hu'] at hsnoc
  rw [← hsnoc]
  cases hf : isText first.2 <;> simp [texts, hf]

/-- A command to change something is not answered with a text. -/
theorem not_text_of_writes (hw : cmd.writes ≠ none) {d e : Db KvStore.Key} {r : Reply}
    (he : exec d cmd = some (r, e)) : isText r = false := by
  cases cmd with
  | get | hget | llen | lindex | lrange | sdiff | publish => exact absurd rfl hw
  | brpop k =>
    simp only [exec] at he
    split at he
    · cases he
      rfl
    · obtain ⟨b, -, heq⟩ := Option.map_eq_some_iff.mp he
      cases heq
      rfl
  | _ =>
    simp only [exec, Option.some.injEq] at he
    repeat' split at he
    all_goals
      cases he
      rfl

/-- What is issued without a look at the reply: of the entries of the queue it can only delete. -/
def Sends (cmd : Command KvStore.Key) : Prop :=
  (∀ {d e : Db KvStore.Key} {r : Reply}, exec d cmd = some (r, e) → isText r = false) ∧
    ∀ k, cmd.writes = some (.qsector k) → cmd = .del (.qsector k)

theorem Sends.keys (hc : Sends cmd) {d e : Db KvStore.Key} {r : Reply}
    (he : exec d cmd = some (r, e)) {k : ℕ} (hk : e.keys (.qsector k) ≠ none) :
    d.keys (.qsector k) ≠ none := by
  have hafter : d.after cmd = e := by
    rw [Db.after, he]
    rfl
  by_cases hw : cmd.writes = some (.qsector k)
  · obtain rfl := hc.2 k hw
    cases he
    exact absurd (if_pos rfl) hk
  · rwa [← keys_after hw, hafter]

theorem pipelined_room (hr : Room n h) (hc : Sends cmd) : Gives (pipelined cmd h) (Room n) := by
  intro h' hp
  obtain ⟨r, he, htexts⟩ := pipelined_exec hp
  refine hr.of_le (pipelined_settled hr.1 hp) (fun k hk => hc.keys he hk) ?_
  rwa [hc.1 he] at htexts

theorem enqueue_room (hr : Room n h) (k : ℕ) (value : List UInt8) :
    Gives (pipelined (.setex (.qsector k) defaultTimeout value) h) (Room (n + 1)) := by
  intro h' hp
  obtain ⟨r, he, htexts⟩ := pipelined_exec hp
  obtain ⟨hs, queued, hmem, hcard⟩ := hr
  simp only [exec, Option.some.injEq, Prod.mk.injEq] at he
  obtain ⟨rfl, hdb⟩ := he
  refine ⟨pipelined_settled hs hp, insert k queued, fun k' hk' => ?_, ?_⟩
  · by_cases heq : k' = k
    · exact heq ▸ Finset.mem_insert_self k queued
    · rw [← hdb, keys_put_of_ne (by simpa using heq)] at hk'
      exact Finset.mem_insert_of_mem (hmem k' hk')
  · have hinsert := Finset.card_insert_le k queued
    change texts h'.unread ≤ texts h.unread at htexts
    omega

theorem redisCommand_room {first : ℕ × Reply} (hr : Room n h) (hc : Sends cmd)
    (hcmd : redisCommand cmd h = some (first, h')) : Room n h' := by
  obtain ⟨r, he, htexts⟩ := redisCommand_exec hcmd
  refine hr.of_le (redisCommand_settled hr.1 hcmd) (fun k hk => hc.keys he hk) ?_
  rw [hc.1 he] at htexts
  change _ = texts h.unread at htexts
  omega

theorem flush_room (hr : Room n h) : Gives (redisFlushPipeline h) (Room n) := by
  intro h' hf
  refine hr.of_le (redisFlushPipeline_settled hr.1 hf).1 (fun k hk => ?_) ?_
  · rwa [flushLoop_db hf] at hk
  · rw [flushLoop_unread hf]
    exact texts_drop_le _ _

/-- What is asked behind a flush. -/
theorem query_room {r : Reply} (hr : Room n h) (hw : cmd.writes = none)
    (hq : KvStore.query cmd h = some (r, h')) : Room n h' := by
  obtain ⟨r', he⟩ : ∃ r', exec h.db cmd = some (r', h.db.after cmd) :=
    exec_after fun k hk => by rw [hk] at hw; cases hw
  obtain ⟨h₁, hq₁, hdb, hs, hu⟩ := query_of_exec hr.1 he
  obtain ⟨-, rfl⟩ := Prod.mk.inj (Option.some.inj (hq₁.symm.trans hq))
  refine hr.of_le hs (fun k hk => ?_) ?_
  · rwa [hdb, keys_after (by rw [hw]; simp)] at hk
  · rw [hu]
    exact Nat.zero_le _

end Handles

def Within (n : ℕ) (s : State Handle) : Prop := Room n s.store

/-- Between the two commands that take a block out of the queue. -/
def Peeked (n sector : ℕ) (r : Reply) (s : State Handle) : Prop :=
  Settled s.store ∧ ∃ queued : Finset ℕ,
    (∀ k, s.store.db.keys (.qsector k) ≠ none → k ∈ queued) ∧
      (queued.erase sector).card + texts s.store.unread + (isText r).toNat ≤ n

/-- The calls that keep the number of blocks. -/
def Keeps : Issue → Prop
  | .append cmd | .tell cmd => Sends cmd
  | .query cmd => cmd.writes = none
  | .look _ => False

theorem sends_of_writes {cmd : Command KvStore.Key} (hw : cmd.writes ≠ none)
    (hq : ∀ k, cmd.writes ≠ some (.qsector k)) : Sends cmd :=
  ⟨not_text_of_writes hw, fun k hk => absurd hk (hq k)⟩

theorem sends_del (k : ℕ) : Sends (.del (.qsector k)) := by
  refine ⟨not_text_of_writes (by simp [Command.writes]), fun n hn => ?_⟩
  simp only [Command.writes, Option.some.injEq] at hn
  rw [hn]

theorem Issued.keeps {issue : Issue} (h : Issued issue) : Keeps issue := by
  cases h with
  | publish channel message =>
    refine ⟨fun he => ?_, by simp [Command.writes]⟩
    simp only [exec, Option.some.injEq, Prod.mk.injEq] at he
    rw [← he.1]
    rfl
  | setSuperblock | setBgd | setExtent | pushSector | setSector | pushExtent | insertExtent
  | pointData | pointExtent =>
    exact sends_of_writes (Option.some_ne_none _) (by simp [Command.writes, redisFileSectorsLset,
      redisExtentsLinsert])
  | _ => rfl

namespace Inspector

/-- `qemu_deep_inspect` down to a depth, with something else for the calls below. -/
def inspectDown {σ : Type} (c : Inspector σ) (bottom : BdrvWrite → Act σ Unit)
    (writeCounter : ℕ) : ℕ → BdrvWrite → Act σ Unit
  | 0, write => bottom write
  | depth + 1, write =>
    if c.blockSize / sectorSize = 0 ∧ 0 < write.nbSectors then defined none
    else do
      (c.blockStarts write.nbSectors).forM
        (c.inspectBlock (inspectDown c bottom writeCounter depth) write writeCounter)
      c.flush

theorem deepInspect_eq_inspectDown {σ : Type} (c : Inspector σ) (writeCounter fuel : ℕ) :
    c.deepInspect writeCounter fuel = c.inspectDown (fun _ => defined none) writeCounter fuel := by
  induction fuel with
  | zero => rfl
  | succ fuel ih =>
    funext write
    rw [deepInspect, inspectDown, ih]

variable {c : Inspector Handle} {n : ℕ} {cmd : Command KvStore.Key}

theorem within_succ {α : Type} {x y : Act Handle α}
    (h : Steady (Within n) (fun _ => Within n) x y) :
    Steady (Within n) (fun _ => Within (n + 1)) x y :=
  h.mono (fun _ => id) fun _ _ hs => hs.mono (Nat.le_succ n)

theorem pure_within : Steady (Within n) (fun _ => Within n) (pure () : Act Handle Unit) (pure ()) :=
  steady_of_yields fun _ hs => yields_pure hs

theorem defined_within {α : Type} (x : Option α) :
    Steady (Within n) (fun _ => Within n) (defined x : Act Handle α) (defined x) :=
  (sim_defined x).steady

section Calls

variable (hservice : c.service = handleService)
include hservice

omit hservice in
theorem yields_call {call : Handle → Option Handle} {Q : Handle → Prop} {s : State Handle}
    (h : Gives (call s.store) Q) : Yields (fun s : State Handle => do
      let store ← call s.store
      some ((), { s with store := store })) s fun _ t => Q t.store := by
  intro _ t ht
  obtain ⟨store, hstore, heq⟩ := Option.bind_eq_some_iff.mp ht
  cases heq
  exact h store hstore

theorem append_within (hc : Sends cmd) :
    Steady (Within n) (fun _ => Within n) (c.append cmd) (c.append cmd) :=
  steady_of_yields fun _ hs => yields_call (by rw [hservice]; exact pipelined_room hs hc)

theorem enqueue_within (k : ℕ) (value : List UInt8) :
    Steady (Within n) (fun _ => Within (n + 1))
      (c.append (.setex (.qsector k) defaultTimeout value))
      (c.append (.setex (.qsector k) defaultTimeout value)) :=
  steady_of_yields fun _ hs => yields_call (by rw [hservice]; exact enqueue_room hs k value)

theorem tell_within (hc : Sends cmd) :
    Steady (Within n) (fun _ => Within n) (c.tell cmd) (c.tell cmd) := by
  refine steady_of_yields fun _ hs => yields_call ?_
  rw [hservice]
  intro store ht
  obtain ⟨p, hp, rfl⟩ := Option.map_eq_some_iff.mp ht
  exact redisCommand_room hs hc hp

theorem flush_within : Steady (Within n) (fun _ => Within n) c.flush c.flush :=
  steady_of_yields fun _ hs => yields_call (by rw [hservice]; exact flush_room hs)

theorem query_within (hw : cmd.writes = none) :
    Steady (Within n) (fun _ => Within n) (c.query cmd) (c.query cmd) := by
  refine steady_of_yields fun s hs r t ht => ?_
  rw [query, hservice] at ht
  obtain ⟨p, hp, heq⟩ := Option.bind_eq_some_iff.mp ht
  cases heq
  exact query_room hs hw hp

omit hservice in
theorem enter_within : Steady (Within n) (fun _ => Within n) c.enter c.enter := by
  refine steady_of_yields fun s hs _ t ht => ?_
  cases ht
  exact hs

theorem inStep_within : InStep c c.service (Same (Within n)) Keeps where
  enter := enter_within.sim
  append _ hc := (append_within hservice hc).sim
  query _ hw := (query_within hservice hw).sim
  look _ h := h.elim
  tell _ hc := (tell_within hservice hc).sim
  flush := (flush_within hservice).sim
  issued _ h := h.keeps

theorem look_within (sector : ℕ) :
    Steady (Within n) (Peeked n sector) (c.look (.get (.qsector sector)))
      (c.look (.get (.qsector sector))) := by
  refine steady_of_yields fun s hs r t ht => ?_
  rw [look, hservice] at ht
  obtain ⟨p, hp, heq⟩ := Option.bind_eq_some_iff.mp ht
  cases heq
  have hsettled := interpretCommand_settled hs.1 hp
  obtain ⟨q, hq, heq⟩ := Option.bind_eq_some_iff.mp hp
  cases heq
  obtain ⟨r, he, htexts⟩ := redisCommand_exec hq
  obtain ⟨-, queued, hmem, hcard⟩ := hs
  simp only [exec, Option.some.injEq, Prod.mk.injEq] at he
  obtain ⟨hr, hdb⟩ := he
  refine ⟨hsettled, queued, fun k hk => hmem k (hdb ▸ hk), ?_⟩
  -- the entry is counted in the queue or, from now on, among the replies
  have herase : (queued.erase sector).card + (isText r).toNat ≤ queued.card := by
    cases htext : isText r with
    | false => exact Finset.card_erase_le
    | true =>
      have hsector : sector ∈ queued := by
        refine hmem sector fun hnone => ?_
        rw [hnone] at hr
        rw [← hr] at htext
        cases htext
      exact (Finset.card_erase_add_one hsector).le
  dsimp only
  omega

theorem delete_within (sector : ℕ) (r : Reply) :
    Steady (Peeked n sector r) (fun _ s => ∃ m, m + (isText r).toNat ≤ n ∧ Within m s)
      (c.tell (.del (.qsector sector))) (c.tell (.del (.qsector sector))) := by
  refine steady_of_yields fun s hs => yields_call
    (Q := fun h => ∃ m, m + (isText r).toNat ≤ n ∧ Room m h) ?_
  rw [hservice]
  intro store ht
  obtain ⟨p, hp, rfl⟩ := Option.map_eq_some_iff.mp ht
  obtain ⟨hsettled, queued, hmem, hcard⟩ := hs
  obtain ⟨r', he, htexts⟩ := redisCommand_exec hp
  simp only [exec, Option.some.injEq, Prod.mk.injEq] at he
  obtain ⟨rfl, hdb⟩ := he
  change _ = texts s.store.unread at htexts
  refine ⟨(queued.erase sector).card + texts p.2.unread, by omega,
    redisCommand_settled hsettled hp, queued.erase sector, fun k hk => ?_, le_refl _⟩
  have hne : k ≠ sector := by
    rintro rfl
    rw [← hdb] at hk
    exact hk (keys_put_self _)
  rw [← hdb, keys_put_of_ne (by simpa using hne)] at hk
  exact Finset.mem_erase.mpr ⟨hne, hmem k hk⟩

/-! ## Handlers -/

theorem getField_within {fmt : ℕ → List UInt8 → Command KvStore.Key} {id : ℕ}
    (hf : ∀ name, (fmt id name).writes = none) (name : String) (old : List UInt8) :
    Steady (Within n) (fun _ => Within n) (c.getField fmt id name old)
      (c.getField fmt id name old) :=
  (sim_getField (inStep_within hservice) hf name old).steady

theorem emitFileBytes_within (write : List UInt8) (writeCounter : ℕ) (pointer : List UInt8)
    (writeLen sector : ℕ) :
    Steady (Within n) (fun _ => Within (n + 1))
      (c.emitFileBytes write writeCounter pointer writeLen sector)
      (c.emitFileBytes write writeCounter pointer writeLen sector) := by
  unfold emitFileBytes
  refine enter_within.bind fun vars => ?_
  split
  · refine (query_within hservice rfl).bind fun _ => (within_succ (defined_within none)).ite ?_
    refine (getField_within hservice (fun _ => rfl) _ _).bind fun _ => ?_
    refine Steady.bind (J := fun _ => Within (n + 1)) ?_ fun _ => ?_
    · exact ((defined_within _).bind fun _ => enqueue_within hservice _ _).ite
        (within_succ pure_within)
    · refine Steady.bind (J := fun _ => Within (n + 1)) ?_ fun _ => ?_
      · exact (append_within hservice (sends_del _)).ite pure_within
      · exact (sim_publish (inStep_within hservice) _ _).steady
  · exact within_succ pure_within

section Again

variable {inspect inspect' : BdrvWrite → Act Handle Unit}
  (hagain : ∀ sector, Steady (Within n) (fun _ => Within n) (c.reinspectWrite inspect sector)
    (c.reinspectWrite inspect' sector))
include hagain

theorem dispatchWrite_within (data : List UInt8) (writeCounter : ℕ) (pointer : List UInt8)
    (len sector : ℕ) :
    Steady (Within n) (fun _ => Within (n + 1))
      (c.dispatchWrite inspect data writeCounter pointer len sector)
      (c.dispatchWrite inspect' data writeCounter pointer len sector) := by
  have h := inStep_within (n := n) hservice
  have hset : ∀ file name value, Keeps (.append (redisFileSectorInsert file name value)) :=
    fun _ _ _ => sends_of_writes (Option.some_ne_none _) (by simp [Command.writes])
  have hsim := fun sector => (hagain sector).sim
  refine (emitFileBytes_within hservice _ _ _ _ _).ite (within_succ ?_)
  refine (sim_diffSuperblock h _ _ _).steady.ite (pure_within.ite ?_)
  refine (sim_diffBgds h _ _ _).steady.ite ((sim_diffInodes h hsim hset _ _ _).steady.ite ?_)
  refine pure_within.ite ((sim_diffExtentTree h hsim _ _).steady.ite ?_)
  exact pure_within.ite ((defined_within none).ite pure_within)

theorem inspectBlock_within (write : BdrvWrite) (writeCounter i : ℕ) :
    Steady (Within n) (fun _ => Within (n + 1)) (c.inspectBlock inspect write writeCounter i)
      (c.inspectBlock inspect' write writeCounter i) := by
  refine (query_within hservice rfl).bind fun _ => Steady.ite ?_ ?_
  · exact (defined_within _).bind fun _ => enqueue_within hservice _ _
  · exact (within_succ (defined_within none)).ite
      (dispatchWrite_within hservice hagain _ _ _ _ _)

end Again

variable {bottom bottom' : BdrvWrite → Act Handle Unit} {writeCounter depth depth' : ℕ}

/-- A write, if every block of it can be inspected again. -/
theorem inspectDown_within (write : BdrvWrite)
    (hagain : ∀ k < (c.blockStarts write.nbSectors).length, ∀ sector,
      Steady (Within (n + k)) (fun _ => Within (n + k))
        (c.reinspectWrite (c.inspectDown bottom writeCounter depth) sector)
        (c.reinspectWrite (c.inspectDown bottom' writeCounter depth') sector)) :
    Steady (Within n) (fun _ => Within (n + (c.blockStarts write.nbSectors).length))
      (c.inspectDown bottom writeCounter (depth + 1) write)
      (c.inspectDown bottom' writeCounter (depth' + 1) write) := by
  refine Steady.ite ((defined_within none).mono (fun _ => id) fun _ _ hs =>
    hs.mono (Nat.le_add_right _ _)) ?_
  refine Steady.bind (steady_forM (I := Within) fun k hk i => ?_) fun _ => flush_within hservice
  exact inspectBlock_within hservice (hagain k hk) _ _ _

omit hservice in
theorem blockStarts_single_le :
    (c.blockStarts (c.blockSize / sectorSize)).length ≤ 1 := by
  rw [blockStarts, List.length_map, List.length_range]
  rcases Nat.eq_zero_or_pos (c.blockSize / sectorSize) with h | h
  · rw [h, Nat.div_zero]
    exact Nat.zero_le 1
  · exact Nat.le_of_lt_succ (Nat.div_lt_of_lt_mul (by omega))

theorem reinspectWrite_of_inspect {inspect inspect' : BdrvWrite → Act Handle Unit}
    (hi : ∀ m < n, ∀ w : BdrvWrite, w.nbSectors = c.blockSize / sectorSize →
      Steady (Within m) (fun _ => Within (m + 1)) (inspect w) (inspect' w)) (sector : ℕ) :
    Steady (Within n) (fun _ => Within n) (c.reinspectWrite inspect sector)
      (c.reinspectWrite inspect' sector) := by
  refine enter_within.bind fun vars => (look_within hservice sector).bind fun r =>
    (delete_within hservice sector r).bind fun _ => ?_
  by_cases hdata : copyString c.blockSize r = []
  · rw [if_pos hdata, if_pos hdata]
    rintro s ⟨m, hm, hs⟩
    exact ⟨rfl, yields_pure (hs.mono (by omega))⟩
  · rw [if_neg hdata, if_neg hdata]
    have htext : isText r = true := by
      cases r with
      | string b => rfl
      | _ => exact absurd rfl hdata
    rintro s ⟨m, hm, hs⟩
    rw [htext] at hm
    obtain ⟨heq, hyields⟩ := hi m hm ⟨sector, c.blockSize / sectorSize, _⟩ rfl s hs
    exact ⟨heq, hyields.mono fun _ _ ht => ht.mono hm⟩

/-- The block that is inspected again is no longer there for the calls below, so the bottom is
not reached. -/
theorem reinspectWrite_within (hle : n ≤ depth) (hle' : n ≤ depth') (sector : ℕ) :
    Steady (Within n) (fun _ => Within n)
      (c.reinspectWrite (c.inspectDown bottom writeCounter depth) sector)
      (c.reinspectWrite (c.inspectDown bottom' writeCounter depth') sector) := by
  induction n using Nat.strong_induction_on generalizing depth depth' sector with
  | h n ih =>
    refine reinspectWrite_of_inspect hservice (fun m hm w hw => ?_) sector
    obtain ⟨depth, rfl⟩ : ∃ k, depth = k + 1 := ⟨depth - 1, by omega⟩
    obtain ⟨depth', rfl⟩ : ∃ k, depth' = k + 1 := ⟨depth' - 1, by omega⟩
    have hone := blockStarts_single_le (c := c)
    rw [← hw] at hone
    refine (inspectDown_within hservice w fun k hk sector => ?_).mono (fun _ => id)
      fun _ _ hs => hs.mono (by omega)
    obtain rfl : k = 0 := by omega
    exact ih m hm (by omega) (by omega) sector

end Calls

/-- The number of blocks in some writes. -/
def blocksIn {σ : Type} (c : Inspector σ) (writes : List (ℕ × BdrvWrite)) : ℕ :=
  (writes.map fun w => (c.blockStarts w.2.nbSectors).length).sum

theorem inspectAll_within (hservice : c.service = handleService)
    {bottom bottom' : BdrvWrite → Act Handle Unit} {depth depth' : ℕ}
    (writes : List (ℕ × BdrvWrite)) (hle : n + c.blocksIn writes ≤ depth)
    (hle' : n + c.blocksIn writes ≤ depth') :
    Steady (Within n) (fun _ => Within (n + c.blocksIn writes))
      (writes.forM fun w => c.inspectDown bottom w.1 (depth + 1) w.2)
      (writes.forM fun w => c.inspectDown bottom' w.1 (depth' + 1) w.2) := by
  induction writes generalizing n with
  | nil => exact pure_within
  | cons w writes ih =>
    have hsum : c.blocksIn (w :: writes) =
        (c.blockStarts w.2.nbSectors).length + c.blocksIn writes := rfl
    refine (inspectDown_within hservice w.2 fun k hk sector =>
      reinspectWrite_within hservice (by omega) (by omega) sector).bind fun _ => ?_
    rw [hsum, ← Nat.add_assoc]
    exact ih (by omega) (by omega)

end Inspector

def emptyInspector : Inspector Handle :=
  ⟨⟨zeroHeap, ascii "host", ascii "vm", 512, 0⟩, handleService, fun _ _ => 0⟩

def twoWrites : List (ℕ × BdrvWrite) :=
  [(0, ⟨40, 2, List.replicate 1024 65⟩), (1, ⟨42, 1, List.replicate 512 66⟩)]

end GammaRay.Inspect
