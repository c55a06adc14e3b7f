import GammaRay.KvStore

set_option autoImplicit false

/-!
# Whose reply a call looks into

Between any two calls on a handle the periodic flusher may turn what is outstanding into
a job, a job may read a reply, and other clients may change the database.
-/
namespace GammaRay.KvStore
open Redis

/-- The calls of the API. -/
inductive Call where
  | enqueuePipelined (sectorNum : ℕ) (data : List UInt8)
  | publish (channel data : List UInt8)
  | dequeue (sectorNum cap : ℕ)
  | delqueuePipelined (sectorNum : ℕ)
  | reversePointerSet (fmt : ℕ → ℤ → Command Key) (src : ℕ) (dst : ℤ)
  | hashFieldSet (fmt : ℕ → List UInt8 → List UInt8 → Command Key) (src : ℕ)
      (field data : List UInt8)
  | hashFieldGet (fmt : ℕ → List UInt8 → Command Key) (src : ℕ) (field : List UInt8) (cap : ℕ)
  | lastFileSector (id : ℕ)
  | sectorLookup (src cap : ℕ)
  | listLen (fmt : ℕ → Command Key) (src : ℕ)
  | listSet (fmt : ℕ → ℕ → ℤ → Command Key) (src index : ℕ) (value : ℤ)
  | binaryInsert (fmt : ℕ → List UInt8 → Command Key) (src : ℕ) (data : List UInt8)
  | reverseFileDataPointerSet (src : ℤ) (start stop dst : ℕ)
  | pathSet (path : List UInt8) (id : ℕ)
  | pathGet (path : List UInt8)
  | metadataSet (data : List UInt8)
  | metadataGet
  | getFcounter
  | setFcounter (counter : ℕ)
  | listGet (fmt : ℕ → Command Key) (src : ℕ)
  | listGetVar (fmt : ℕ → ℤ → ℤ → Command Key) (src : ℕ) (start stop : ℤ)
  | asyncWriteEnqueue (bit connBusy cmdBusy : Bool) (sector : ℤ) (data : List UInt8)
  | asyncWriteDequeue
  | setAdd (fmt : ℕ → Command Key) (id : ℕ)
  | setRemove (fmt : ℕ → Command Key) (id : ℕ)
  | setReset
  | deleteKey (fmt : ℕ → Command Key) (id : ℕ)
  | flushPipeline

/-- What a call does to its handle. -/
def Call.perform (h : Handle) : Call → Option Handle
  | .enqueuePipelined sectorNum data => redisEnqueuePipelined sectorNum data h
  | .publish channel data => redisPublish channel data h
  | .dequeue sectorNum cap => (redisDequeue sectorNum cap h).map Prod.snd
  | .delqueuePipelined sectorNum => redisDelqueuePipelined sectorNum h
  | .reversePointerSet fmt src dst => redisReversePointerSet fmt src dst h
  | .hashFieldSet fmt src field data => redisHashFieldSet fmt src field data h
  | .hashFieldGet fmt src field cap => (redisHashFieldGet fmt src field cap h).map Prod.snd
  | .lastFileSector id => (redisLastFileSector id h).map Prod.snd
  | .sectorLookup src cap => (redisSectorLookup src cap h).map Prod.snd
  | .listLen fmt src => (redisListLen fmt src h).map Prod.snd
  | .listSet fmt src index value => redisListSet fmt src index value h
  | .binaryInsert fmt src data => redisBinaryInsert fmt src data h
  | .reverseFileDataPointerSet src start stop dst =>
    redisReverseFileDataPointerSet src start stop dst h
  | .pathSet path id => redisPathSet path id h
  | .pathGet path => (redisPathGet path h).map Prod.snd
  | .metadataSet data => redisMetadataSet data h
  | .metadataGet => (redisMetadataGet h).map Prod.snd
  | .getFcounter => (redisGetFcounter h).map Prod.snd
  | .setFcounter counter => redisSetFcounter counter h
  | .listGet fmt src => (redisListGet fmt src h).map Prod.snd
  | .listGetVar fmt src start stop => (redisListGetVar fmt src start stop h).map Prod.snd
  | .asyncWriteEnqueue bit connBusy cmdBusy sector data =>
    (redisAsyncWriteEnqueue bit connBusy cmdBusy sector data h).map Prod.snd
  | .asyncWriteDequeue => (redisAsyncWriteDequeue h).map Prod.snd
  | .setAdd fmt id => redisSetAdd fmt id h
  | .setRemove fmt id => (redisSetRemove fmt id h).map Prod.snd
  | .setReset => redisSetReset h
  | .deleteKey fmt id => redisDeleteKey fmt id h
  | .flushPipeline => redisFlushPipeline h

/-- Nothing that a call looks into can be someone else's: no job has replies left to read
when a call comes that looks into its reply, and nothing is outstanding either when that
call is `redis_dequeue`. -/
def Call.Ready (h : Handle) : Call → Prop
  | .dequeue _ _ => h.outstandingPipelinedCmds = 0 ∧ h.jobs.sum = 0
  | .hashFieldGet _ _ _ _ | .lastFileSector _ | .sectorLookup _ _ | .listLen _ _ | .pathGet _
  | .metadataGet | .getFcounter | .listGet _ _ | .listGetVar _ _ _ _ | .asyncWriteDequeue
  | .setRemove _ _ => h.jobs.sum = 0
  | _ => True

inductive Event where
  | call (c : Call)
  | periodicFlush
  | jobRead (i : ℕ)
  | other (db : Db Key)

/-- Nothing happens after the process has exited. -/
def Event.perform (h : Handle) (e : Event) : Option Handle :=
  if h.exited then none else
  match e with
  | .call c => c.perform h
  | .periodicFlush => some (KvStore.periodicFlush h)
  | .jobRead i => KvStore.jobRead i h
  | .other db => some { h with db := db }

def run : List Event → Handle → Option Handle
  | [], h => some h
  | e :: es, h => do
    let h ← e.perform h
    run es h

def Event.Ready (h : Handle) : Event → Prop
  | .call c => c.Ready h
  | _ => True

/-- Every call of a run comes when the handle is ready for it. -/
def AllReady : List Event → Handle → Prop
  | [], _ => True
  | e :: es, h => e.Ready h ∧ ∀ h', e.perform h = some h' → AllReady es h'

/-- The unread replies are those the handle still counts and those its jobs do. -/
structure Balanced (h : Handle) : Prop where
  count : h.unread.length = h.outstandingPipelinedCmds + h.jobs.sum
  old : ∀ r ∈ h.unread, r.1 < h.issued

def Matched (l : List (ℕ × ℕ)) : Prop := ∀ p ∈ l, p.1 = p.2

/-- `h'` follows `h`, and what was looked into on the way matched just when `m`. -/
def Follows (h h' : Handle) (m : Prop) : Prop :=
  Balanced h' ∧ ∃ l, h'.interpreted = h.interpreted ++ l ∧ (Matched l ↔ m)

theorem redisInit_balanced (db : Db Key) (bytes : ℕ) : Balanced (redisInit db bytes) :=
  ⟨rfl, fun _ hr => absurd hr List.not_mem_nil⟩

theorem Matched.append_iff {l l' : List (ℕ × ℕ)} :
    Matched (l ++ l') ↔ Matched l ∧ Matched l' := by
  simp only [Matched, List.mem_append, or_imp, forall_and]

theorem matched_singleton {a b : ℕ} : Matched [(a, b)] ↔ a = b := by
  simp only [Matched, List.mem_singleton, forall_eq]

theorem matched_nil : Matched [] := fun _ hp => absurd hp List.not_mem_nil

theorem Follows.trans {h h₁ h₂ : Handle} {m m' : Prop} (a : Follows h h₁ m)
    (b : Follows h₁ h₂ m') : Follows h h₂ (m ∧ m') := by
  obtain ⟨-, l, hl, hm⟩ := a
  obtain ⟨hb, l', hl', hm'⟩ := b
  refine ⟨hb, l ++ l', ?_, ?_⟩
  · rw [hl', hl, List.append_assoc]
  · rw [Matched.append_iff, hm, hm']

theorem follows_silent {h h' : Handle} (hb : Balanced h')
    (hi : h'.interpreted = h.interpreted) : Follows h h' True :=
  ⟨hb, [], by rw [hi, List.append_nil], by simp only [matched_nil]⟩

theorem Follows.congr {h h' : Handle} {m m' : Prop} (a : Follows h h' m) (hm : m ↔ m') :
    Follows h h' m' := by
  obtain ⟨hb, l, hl, h⟩ := a
  exact ⟨hb, l, hl, h.trans hm⟩

/-- What a primitive leaves alone. -/
structure Keeps (h h' : Handle) : Prop where
  jobs : h'.jobs = h.jobs
  interpreted : h'.interpreted = h.interpreted

theorem appendCommand_eq {c : Command Key} {h h' : Handle} (ha : appendCommand c h = some h') :
    ∃ r db, h' = { h with
      db := db, unread := h.unread ++ [(h.issued, r)], issued := h.issued + 1 } := by
  simp only [appendCommand, Option.bind_eq_bind, Option.bind_eq_some_iff, Prod.exists,
    Option.some.injEq] at ha
  obtain ⟨r, db, -, rfl⟩ := ha
  exact ⟨r, db, rfl⟩

theorem getReply_eq {h h' : Handle} {r : ℕ × Reply} (hg : getReply h = some (r, h')) :
    ∃ rest, h.unread = r :: rest ∧ h' = { h with unread := rest } := by
  unfold getReply at hg
  split at hg
  · cases hg
  · rename_i r' rest hu
    obtain ⟨rfl, rfl⟩ := Prod.mk.inj (Option.some.inj hg)
    exact ⟨rest, hu, rfl⟩

theorem appendCommand_balanced {c : Command Key} {h h' : Handle} (hb : Balanced h)
    (ha : appendCommand c h = some h') :
    Balanced { h' with outstandingPipelinedCmds := h'.outstandingPipelinedCmds + 1 } := by
  obtain ⟨r, db, rfl⟩ := appendCommand_eq ha
  refine ⟨?_, ?_⟩
  · simp only [List.length_append, List.length_singleton, hb.count]
    omega
  · intro x hx
    rcases List.mem_append.mp hx with hx | hx
    · exact Nat.lt_succ_of_lt (hb.old x hx)
    · rw [List.mem_singleton.mp hx]
      exact Nat.lt_succ_self _

/-- The reply that comes back is the command's own just when nothing else is unread. -/
theorem redisCommand_spec {c : Command Key} {h h' : Handle} {r : ℕ × Reply} (hb : Balanced h)
    (hc : redisCommand c h = some (r, h')) :
    Balanced h' ∧ Keeps h h' ∧ h'.outstandingPipelinedCmds = h.outstandingPipelinedCmds ∧
      (h.issued = r.1 ↔ h.outstandingPipelinedCmds = 0 ∧ h.jobs.sum = 0) := by
  simp only [redisCommand, Option.bind_eq_bind, Option.bind_eq_some_iff] at hc
  obtain ⟨h₁, ha, hg⟩ := hc
  have hb₁ := appendCommand_balanced hb ha
  obtain ⟨a, db, rfl⟩ := appendCommand_eq ha
  obtain ⟨rest, hu, rfl⟩ := getReply_eq hg
  have hlen := congrArg List.length hu
  simp only [List.length_append, List.length_cons, List.length_nil] at hlen
  have hcount := hb.count
  refine ⟨⟨?_, ?_⟩, ⟨rfl, rfl⟩, rfl, ?_⟩
  · simp only
    omega
  · intro x hx
    refine hb₁.old x ?_
    rw [show _ = r :: rest from hu]
    exact List.mem_cons_of_mem _ hx
  · replace hu : h.unread ++ [(h.issued, a)] = r :: rest := hu
    cases hv : h.unread with
    | nil =>
      simp only [hv, List.nil_append, List.cons.injEq] at hu
      simp only [hv, List.length_nil] at hcount
      rw [← hu.1]
      exact iff_of_true rfl (by omega)
    | cons y ys =>
      simp only [hv, List.cons_append, List.cons.injEq] at hu
      have hy := hb.old y (by rw [hv]; exact List.mem_cons_self)
      simp only [hv, List.length_cons] at hcount
      rw [← hu.1]
      exact iff_of_false (by omega) (by omega)

theorem flushLoop_spec {n : ℕ} {h h' : Handle} (hb : Balanced h)
    (hn : h.outstandingPipelinedCmds = n) (hf : flushLoop n h = some h') :
    Balanced h' ∧ Keeps h h' ∧ h'.outstandingPipelinedCmds = 0 := by
  induction n generalizing h with
  | zero =>
    obtain rfl := Option.some.inj hf
    exact ⟨hb, ⟨rfl, rfl⟩, hn⟩
  | succ n ih =>
    simp only [flushLoop, Option.bind_eq_bind, Option.bind_eq_some_iff, Prod.exists] at hf
    obtain ⟨a, r, h₁, hg, hf⟩ := hf
    obtain ⟨rest, hu, rfl⟩ := getReply_eq hg
    have hcount := hb.count
    simp only [hu, List.length_cons] at hcount
    have hb₁ : Balanced { h with
        unread := rest, outstandingPipelinedCmds := h.outstandingPipelinedCmds - 1 } :=
      ⟨by simp only; omega, fun x hx => hb.old x (by rw [hu]; exact List.mem_cons_of_mem _ hx)⟩
    obtain ⟨hb', hk, h0⟩ := ih hb₁ (by simp only; omega) hf
    exact ⟨hb', ⟨hk.jobs, hk.interpreted⟩, h0⟩

theorem redisFlushPipeline_spec {h h' : Handle} (hb : Balanced h)
    (hf : redisFlushPipeline h = some h') :
    Balanced h' ∧ Keeps h h' ∧ h'.outstandingPipelinedCmds = 0 :=
  flushLoop_spec hb rfl hf

theorem redisFlushPipeline_follows {h h' : Handle} (hb : Balanced h)
    (hf : redisFlushPipeline h = some h') : Follows h h' True := by
  obtain ⟨hb', hk, -⟩ := redisFlushPipeline_spec hb hf
  exact follows_silent hb' hk.interpreted

theorem redisCommand_follows {c : Command Key} {h h' : Handle} {r : ℕ × Reply}
    (hb : Balanced h) (hc : redisCommand c h = some (r, h')) : Follows h h' True := by
  obtain ⟨hb', hk, -, -⟩ := redisCommand_spec hb hc
  exact follows_silent hb' hk.interpreted

theorem pipelined_follows {c : Command Key} {h h' : Handle} (hb : Balanced h)
    (hp : pipelined c h = some h') : Follows h h' True := by
  simp only [pipelined, Option.bind_eq_bind, Option.bind_eq_some_iff] at hp
  obtain ⟨h₁, ha, hp⟩ := hp
  have hb₁ := appendCommand_balanced hb ha
  obtain ⟨r, db, rfl⟩ := appendCommand_eq ha
  split at hp
  · obtain ⟨hb', hk, -⟩ := redisFlushPipeline_spec hb₁ hp
    exact follows_silent hb' hk.interpreted
  · obtain rfl := Option.some.inj hp
    exact follows_silent hb₁ rfl

theorem command_follows {c : Command Key} {h h' : Handle} (hb : Balanced h)
    (hc : command c h = some h') : Follows h h' True := by
  simp only [command, Option.bind_eq_bind, Option.bind_eq_some_iff, Prod.exists,
    Option.some.injEq] at hc
  obtain ⟨h₁, hf, a, r, h₂, hc, rfl⟩ := hc
  have hf' := redisFlushPipeline_follows hb hf
  exact (hf'.trans (redisCommand_follows hf'.1 hc)).congr (and_self_iff)

theorem interpretCommand_spec {c : Command Key} {h h' : Handle} {r : Reply} (hb : Balanced h)
    (hc : interpretCommand c h = some (r, h')) :
    h'.jobs = h.jobs ∧ h'.outstandingPipelinedCmds = h.outstandingPipelinedCmds ∧
      Follows h h' (h.outstandingPipelinedCmds = 0 ∧ h.jobs.sum = 0) := by
  simp only [interpretCommand, Option.bind_eq_bind, Option.bind_eq_some_iff, Prod.exists,
    Option.some.injEq, Prod.mk.injEq] at hc
  obtain ⟨a, r', h₁, hc, rfl, rfl⟩ := hc
  obtain ⟨hb', hk, ho, hi⟩ := redisCommand_spec hb hc
  refine ⟨hk.jobs, ho, ⟨hb'.count, hb'.old⟩, [(h.issued, a)], ?_, ?_⟩
  · rw [← hk.interpreted]
  · rw [matched_singleton, hi]

theorem query_spec {c : Command Key} {h h' : Handle} {r : Reply} (hb : Balanced h)
    (hq : query c h = some (r, h')) :
    h'.jobs = h.jobs ∧ h'.outstandingPipelinedCmds = 0 ∧ Follows h h' (h.jobs.sum = 0) := by
  simp only [query, Option.bind_eq_bind, Option.bind_eq_some_iff] at hq
  obtain ⟨h₁, hf, hq⟩ := hq
  obtain ⟨hb₁, hk, h0⟩ := redisFlushPipeline_spec hb hf
  obtain ⟨hj, ho, hfol⟩ := interpretCommand_spec hb₁ hq
  rw [hk.jobs] at hj
  refine ⟨hj, by rw [ho, h0], ?_⟩
  refine ((follows_silent hb₁ hk.interpreted).trans hfol).congr ?_
  rw [h0, hk.jobs]
  simp only [true_and]

theorem ask_follows {β : Type} {c : Command Key} {f : Reply → β} {h h' : Handle}
    (hb : Balanced h) (ha : (ask c f h).map Prod.snd = some h') :
    Follows h h' (h.jobs.sum = 0) := by
  simp only [ask, Option.bind_eq_bind, Option.map_eq_some_iff, Option.bind_eq_some_iff,
    Prod.exists, Option.some.injEq, Prod.mk.injEq] at ha
  obtain ⟨_, _, ⟨r, h₁, hq, -, rfl⟩, rfl⟩ := ha
  exact (query_spec hb hq).2.2

theorem redisDequeue_follows {sectorNum cap : ℕ} {h h' : Handle} (hb : Balanced h)
    (hd : (redisDequeue sectorNum cap h).map Prod.snd = some h') :
    Follows h h' (h.outstandingPipelinedCmds = 0 ∧ h.jobs.sum = 0) := by
  simp only [redisDequeue, Option.bind_eq_bind, Option.map_eq_some_iff,
    Option.bind_eq_some_iff, Prod.exists, Option.some.injEq, Prod.mk.injEq] at hd
  obtain ⟨_, _, ⟨r, h₁, hi, a, r', h₂, hc, -, rfl⟩, rfl⟩ := hd
  have hf := (interpretCommand_spec hb hi).2.2
  exact (hf.trans (redisCommand_follows hf.1 hc)).congr (and_iff_left trivial)

theorem Follows.exit {h h' : Handle} {m : Prop} (a : Follows h h' m) :
    Follows h { h' with exited := true } m := by
  obtain ⟨hb, l, hl, hm⟩ := a
  exact ⟨⟨hb.count, hb.old⟩, l, hl, hm⟩

/-- Its second reply is its own whenever the first one is. -/
theorem redisAsyncWriteDequeue_follows {h h' : Handle} (hb : Balanced h)
    (hd : (redisAsyncWriteDequeue h).map Prod.snd = some h') :
    Follows h h' (h.jobs.sum = 0) := by
  simp only [redisAsyncWriteDequeue, Option.bind_eq_bind, Option.map_eq_some_iff,
    Option.bind_eq_some_iff, Prod.exists] at hd
  obtain ⟨w, _, ⟨r, h₁, hq, hd⟩, rfl⟩ := hd
  obtain ⟨hj, ho, hf⟩ := query_spec hb hq
  split at hd
  · obtain ⟨rfl, rfl⟩ := Prod.mk.inj (Option.some.inj hd)
    exact hf.exit
  · split at hd
    · simp only [Option.bind_eq_some_iff, Prod.exists] at hd
      obtain ⟨r', h₂, hi, hd⟩ := hd
      have hf₂ := hf.trans (interpretCommand_spec hf.1 hi).2.2
      rw [ho, hj] at hf₂
      have hboth : Follows h h₂ (h.jobs.sum = 0) :=
        hf₂.congr (by simp only [true_and, and_self])
      split at hd
      · obtain ⟨rfl, rfl⟩ := Prod.mk.inj (Option.some.inj hd)
        exact hboth.exit
      · obtain ⟨rfl, rfl⟩ := Prod.mk.inj (Option.some.inj hd)
        exact hboth
    · obtain ⟨rfl, rfl⟩ := Prod.mk.inj (Option.some.inj hd)
      exact hf.exit

theorem redisAsyncWriteEnqueue_follows {bit connBusy cmdBusy : Bool} {sector : ℤ}
    {data : List UInt8} {h h' : Handle} (hb : Balanced h)
    (he : (redisAsyncWriteEnqueue bit connBusy cmdBusy sector data h).map Prod.snd = some h') :
    Follows h h' True := by
  unfold redisAsyncWriteEnqueue at he
  split at he
  · obtain rfl := Option.some.inj he
    exact follows_silent hb rfl
  · split at he
    · obtain rfl := Option.some.inj he
      exact follows_silent hb rfl
    · simp only [Option.bind_eq_bind, Option.map_eq_some_iff, Option.bind_eq_some_iff,
        Prod.exists] at he
      obtain ⟨_, _, ⟨h₁, ha₁, h₂, ha₂, he⟩, rfl⟩ := he
      have hb₁ := appendCommand_balanced hb ha₁
      obtain ⟨r₁, db₁, rfl⟩ := appendCommand_eq ha₁
      obtain ⟨r₂, db₂, rfl⟩ := appendCommand_eq ha₂
      have hcount := hb.count
      have hold : ∀ x ∈ h.unread ++ [(h.issued, r₁)] ++ [(h.issued + 1, r₂)],
          x.1 < h.issued + 1 + 1 := by
        intro x hx
        rcases List.mem_append.mp hx with hx | hx
        · exact Nat.lt_succ_of_lt (hb₁.old x hx)
        · rw [List.mem_singleton.mp hx]
          exact Nat.lt_succ_self _
      split at he
      · obtain ⟨-, rfl⟩ := Prod.mk.inj (Option.some.inj he)
        refine follows_silent ⟨?_, hold⟩ rfl
        simp only [List.length_append, List.length_singleton, List.sum_append,
          List.sum_singleton]
        omega
      · obtain ⟨-, rfl⟩ := Prod.mk.inj (Option.some.inj he)
        refine follows_silent ⟨?_, hold⟩ rfl
        simp only [List.length_append, List.length_singleton]
        omega

theorem Call.perform_follows {c : Call} {h h' : Handle} (hb : Balanced h)
    (hp : c.perform h = some h') : Follows h h' (c.Ready h) := by
  cases c with
  | enqueuePipelined _ _ => exact pipelined_follows hb hp
  | publish channel data =>
    simp only [perform, redisPublish, Option.bind_eq_bind, Option.bind_eq_some_iff,
      Prod.exists, Option.some.injEq] at hp
    obtain ⟨a, r, h₁, hc, rfl⟩ := hp
    exact redisCommand_follows hb hc
  | dequeue _ _ => exact redisDequeue_follows hb hp
  | delqueuePipelined _ => exact pipelined_follows hb hp
  | reversePointerSet _ _ _ => exact pipelined_follows hb hp
  | hashFieldSet _ _ _ _ => exact pipelined_follows hb hp
  | hashFieldGet _ _ _ _ => exact ask_follows hb hp
  | lastFileSector _ => exact ask_follows hb hp
  | sectorLookup _ _ => exact ask_follows hb hp
  | listLen _ _ => exact ask_follows hb hp
  | listSet _ _ _ _ => exact pipelined_follows hb hp
  | binaryInsert _ _ _ => exact pipelined_follows hb hp
  | reverseFileDataPointerSet _ _ _ _ => exact pipelined_follows hb hp
  | pathSet _ _ => exact pipelined_follows hb hp
  | pathGet _ => exact ask_follows hb hp
  | metadataSet _ => exact pipelined_follows hb hp
  | metadataGet => exact ask_follows hb hp
  | getFcounter => exact ask_follows hb hp
  | setFcounter _ => exact command_follows hb hp
  | listGet _ _ => exact ask_follows hb hp
  | listGetVar _ _ _ _ => exact ask_follows hb hp
  | asyncWriteEnqueue _ _ _ _ _ => exact redisAsyncWriteEnqueue_follows hb hp
  | asyncWriteDequeue => exact redisAsyncWriteDequeue_follows hb hp
  | setAdd _ _ => exact command_follows hb hp
  | setRemove _ _ => exact ask_follows hb hp
  | setReset =>
    simp only [perform, redisSetReset, Option.bind_eq_bind, Option.bind_eq_some_iff,
      Prod.exists, Option.some.injEq] at hp
    obtain ⟨h₁, hc₁, a, r, h₂, hc₂, rfl⟩ := hp
    have hf := command_follows hb hc₁
    exact (hf.trans (redisCommand_follows hf.1 hc₂)).congr and_self_iff
  | deleteKey _ _ => exact pipelined_follows hb hp
  | flushPipeline => exact redisFlushPipeline_follows hb hp

theorem sum_set_pred {l : List ℕ} {i n : ℕ} (hi : l[i]? = some (n + 1)) :
    (l.set i n).sum + 1 = l.sum := by
  obtain ⟨hlt, hget⟩ := List.getElem?_eq_some_iff.mp hi
  have hset := List.sum_set l i n
  have hself := List.sum_set l i l[i]
  rw [List.set_getElem_self, if_pos hlt, hget] at hself
  rw [if_pos hlt] at hset
  omega

/-- A job takes the oldest reply, and one less is left for it. -/
theorem jobRead_eq {i : ℕ} {h h' : Handle} (hj : KvStore.jobRead i h = some h') :
    ∃ r rest n, h.unread = r :: rest ∧ h.jobs[i]? = some (n + 1) ∧
      h' = { h with unread := rest, jobs := h.jobs.set i n } := by
  unfold KvStore.jobRead at hj
  split at hj
  · rename_i n hi
    simp only [Option.bind_eq_bind, Option.bind_eq_some_iff, Prod.exists,
      Option.some.injEq] at hj
    obtain ⟨a, r, h₁, hg, rfl⟩ := hj
    obtain ⟨rest, hu, rfl⟩ := getReply_eq hg
    exact ⟨_, rest, n, hu, hi, rfl⟩
  · cases hj

theorem jobRead_follows {i : ℕ} {h h' : Handle} (hb : Balanced h)
    (hj : KvStore.jobRead i h = some h') : Follows h h' True := by
  obtain ⟨r, rest, n, hu, hi, rfl⟩ := jobRead_eq hj
  have hcount := hb.count
  simp only [hu, List.length_cons] at hcount
  have hsum := sum_set_pred hi
  refine follows_silent ⟨?_, ?_⟩ rfl
  · simp only
    omega
  · intro x hx
    exact hb.old x (by rw [hu]; exact List.mem_cons_of_mem _ hx)

theorem Event.perform_follows {e : Event} {h h' : Handle} (hb : Balanced h)
    (hp : e.perform h = some h') : Follows h h' (e.Ready h) := by
  unfold Event.perform at hp
  split at hp
  · cases hp
  · cases e with
    | call c => exact Call.perform_follows hb hp
    | periodicFlush =>
      obtain rfl := Option.some.inj hp
      refine follows_silent ⟨?_, hb.old⟩ rfl
      simp only [KvStore.periodicFlush, List.sum_append, List.sum_singleton, hb.count]
      omega
    | jobRead i => exact jobRead_follows hb hp
    | other db =>
      obtain rfl := Option.some.inj hp
      exact follows_silent ⟨hb.count, hb.old⟩ rfl

theorem run_follows {es : List Event} {h h' : Handle} (hb : Balanced h)
    (hr : run es h = some h') : Follows h h' (AllReady es h) := by
  induction es generalizing h with
  | nil =>
    obtain rfl := Option.some.inj hr
    exact follows_silent hb rfl
  | cons e es ih =>
    simp only [run, Option.bind_eq_bind, Option.bind_eq_some_iff] at hr
    obtain ⟨h₁, hp, hr⟩ := hr
    have hf := Event.perform_follows hb hp
    refine (hf.trans (ih hf.1 hr)).congr (and_congr_right fun _ => ?_)
    refine ⟨fun ha h₂ hp₂ => ?_, fun ha => ha h₁ hp⟩
    obtain rfl := Option.some.inj (hp.symm.trans hp₂)
    exact ha

theorem flushLoop_db {n : ℕ} {h h' : Handle} (hf : flushLoop n h = some h') : h'.db = h.db := by
  induction n generalizing h with
  | zero =>
    obtain rfl := Option.some.inj hf
    rfl
  | succ n ih =>
    simp only [flushLoop, Option.bind_eq_bind, Option.bind_eq_some_iff, Prod.exists] at hf
    obtain ⟨a, r, h₁, hg, hf⟩ := hf
    obtain ⟨rest, -, rfl⟩ := getReply_eq hg
    have hdb := ih hf
    exact hdb

theorem redisEnqueuePipelined_stores {sectorNum : ℕ} {data : List UInt8} {h h' : Handle}
    (he : redisEnqueuePipelined sectorNum data h = some h') :
    h'.db.keys (.qsector sectorNum) = some (.string data) := by
  simp only [redisEnqueuePipelined, pipelined, appendCommand, exec, Option.bind_eq_bind,
    Option.bind_some] at he
  have hdb : h'.db = h.db.put (.qsector sectorNum) (some (.string data)) := by
    split at he
    · exact flushLoop_db he
    · rw [← Option.some.inj he]
  rw [hdb]
  exact if_pos rfl

theorem redisDequeue_of_ready {sectorNum cap : ℕ} {data : List UInt8} {h : Handle}
    (hb : Balanced h) (hr : (Call.dequeue sectorNum cap).Ready h)
    (hk : h.db.keys (.qsector sectorNum) = some (.string data)) (hpos : 0 < data.length)
    (hcap : data.length ≤ cap) : ∃ h', redisDequeue sectorNum cap h = some (data, h') := by
  have hu : h.unread = [] := by
    have hcount := hb.count
    rw [hr.1, hr.2] at hcount
    exact List.length_eq_zero_iff.mp hcount
  simp only [redisDequeue, interpretCommand, redisCommand, appendCommand, getReply, exec, hu, hk,
    Option.bind_eq_bind, Option.bind_some, List.nil_append, copyString, hpos, hcap, and_self,
    if_true]
  exact ⟨_, rfl⟩

/-- For every run on a handle, every call gets to see the reply to its own command just when
it always comes at a ready handle; what is queued is then also what is dequeued. -/
theorem replies_matched_iff (db : Db Key) (bytes : ℕ) (es : List Event) (h : Handle)
    (hr : run es (redisInit db bytes) = some h) :
    (Matched h.interpreted ↔ AllReady es (redisInit db bytes)) ∧
      ∀ (sectorNum cap : ℕ) (data : List UInt8) (h₁ h₂ : Handle) (between : List Event),
        redisEnqueuePipelined sectorNum data h = some h₁ → run between h₁ = some h₂ →
        h₂.db.keys (.qsector sectorNum) = h₁.db.keys (.qsector sectorNum) →
        0 < data.length → data.length ≤ cap → (Call.dequeue sectorNum cap).Ready h₂ →
        ∃ h₃, redisDequeue sectorNum cap h₂ = some (data, h₃) := by
  have hf := run_follows (redisInit_balanced db bytes) hr
  refine ⟨?_, ?_⟩
  · obtain ⟨-, l, hl, hm⟩ := hf
    rw [hl]
    exact hm
  · intro sectorNum cap data h₁ h₂ between he hrun hkeep hpos hcap hready
    have hb₂ := (run_follows (pipelined_follows hf.1 he).1 hrun).1
    exact redisDequeue_of_ready hb₂ hready (hkeep.trans (redisEnqueuePipelined_stores he))
      hpos hcap

/-- A lookup between the two flushes the pipeline. -/
def flushedSample : List Event :=
  [.call (.enqueuePipelined 7 [1, 2]), .call (.sectorLookup 9 64), .call (.dequeue 7 512)]

theorem replies_matched_flushedSample :
    (∃ h, run flushedSample (redisInit Db.empty 0) = some h ∧ h.interpreted = [(1, 1), (2, 2)] ∧
      AllReady flushedSample (redisInit Db.empty 0)) ∧
    ∃ h₁ h₂ h₃, redisEnqueuePipelined 7 [1, 2] (redisInit Db.empty 0) = some h₁ ∧
      run [.call (.sectorLookup 9 64)] h₁ = some h₂ ∧
      redisDequeue 7 512 h₂ = some ([1, 2], h₃) := by
  constructor
  · refine ⟨_, rfl, rfl, ?_⟩
    refine (replies_matched_iff Db.empty 0 flushedSample _ rfl).1.mp ?_
    intro p hp
    rcases List.mem_cons.mp hp with rfl | hp
    · rfl
    · rw [List.mem_singleton.mp hp]
  · obtain ⟨h₃, hd⟩ := (replies_matched_iff Db.empty 0 [] _ rfl).2 7 512 [1, 2] _ _
      [.call (.sectorLookup 9 64)] rfl rfl rfl (by decide) (by decide) ⟨rfl, rfl⟩
    exact ⟨_, _, h₃, rfl, rfl, hd⟩

def unflushedSample : List Event :=
  [.call (.enqueuePipelined 7 [1, 2]), .call (.dequeue 7 512)]

/-- `redis_dequeue` right after `redis_enqueue_pipelined` looks into the reply to `SETEX`,
returns nothing and deletes the entry. -/
theorem dequeue_reads_status_of_enqueue :
    (∃ h, run unflushedSample (redisInit Db.empty 0) = some h ∧ h.interpreted = [(1, 0)] ∧
      h.db.keys (.qsector 7) = none) ∧
    (do let h ← redisEnqueuePipelined 7 [1, 2] (redisInit Db.empty 0)
        let (data, _) ← redisDequeue 7 512 h
        some data) = some [] :=
  ⟨⟨_, rfl, rfl, rfl⟩, rfl⟩

end GammaRay.KvStore
