import GammaRay.Pipeline

set_option autoImplicit false

/-!
# What a handle counts is what it has not read

Without background flushing and without `redis_async_write_enqueue` there are no flush jobs,
and the counter of a handle is the number of its unread replies.
-/
namespace GammaRay.KvStore
open Redis

/-- Between two calls, all unread replies are counted, and they are fewer than make a call
flush. -/
structure Settled (h : Handle) : Prop where
  balanced : Balanced h
  jobs : h.jobs = []
  below : h.outstandingPipelinedCmds < defaultPipelined

theorem Settled.count {h : Handle} (hs : Settled h) :
    h.unread.length = h.outstandingPipelinedCmds := by
  rw [hs.balanced.count, hs.jobs, List.sum_nil, Nat.add_zero]

theorem redisInit_settled (db : Db Key) (bytes : ℕ) : Settled (redisInit db bytes) :=
  ⟨redisInit_balanced db bytes, rfl, Nat.zero_lt_succ 16383⟩

section Call

variable {h h' : Handle}

theorem redisFlushPipeline_settled (hs : Settled h) (hf : redisFlushPipeline h = some h') :
    Settled h' ∧ h'.outstandingPipelinedCmds = 0 := by
  obtain ⟨hb, hk, h0⟩ := redisFlushPipeline_spec hs.balanced hf
  refine ⟨⟨hb, hk.jobs.trans hs.jobs, ?_⟩, h0⟩
  rw [h0]
  decide

theorem redisCommand_settled {c : Command Key} {r : ℕ × Reply} (hs : Settled h)
    (hc : redisCommand c h = some (r, h')) : Settled h' := by
  obtain ⟨hb, hk, ho, -⟩ := redisCommand_spec hs.balanced hc
  refine ⟨hb, hk.jobs.trans hs.jobs, ?_⟩
  rw [ho]
  exact hs.below

theorem interpretCommand_settled {c : Command Key} {r : Reply} (hs : Settled h)
    (hc : interpretCommand c h = some (r, h')) : Settled h' := by
  obtain ⟨hj, ho, hf⟩ := interpretCommand_spec hs.balanced hc
  refine ⟨hf.1, hj.trans hs.jobs, ?_⟩
  rw [ho]
  exact hs.below

theorem pipelined_settled {c : Command Key} (hs : Settled h) (hp : pipelined c h = some h') :
    Settled h' := by
  have hb' := (pipelined_follows hs.balanced hp).1
  simp only [pipelined, Option.bind_eq_bind, Option.bind_eq_some_iff] at hp
  obtain ⟨h₁, ha, hp⟩ := hp
  have hb₁ := appendCommand_balanced hs.balanced ha
  obtain ⟨r, db, rfl⟩ := appendCommand_eq ha
  split at hp
  · obtain ⟨-, hk, h0⟩ := redisFlushPipeline_spec hb₁ hp
    refine ⟨hb', hk.jobs.trans hs.jobs, ?_⟩
    rw [h0]
    decide
  · rename_i hlt
    obtain rfl := Option.some.inj hp
    exact ⟨hb', hs.jobs, Nat.not_le.mp hlt⟩

theorem query_settled {c : Command Key} {r : Reply} (hs : Settled h)
    (hq : query c h = some (r, h')) : Settled h' := by
  simp only [query, Option.bind_eq_bind, Option.bind_eq_some_iff] at hq
  obtain ⟨h₁, hf, hq⟩ := hq
  exact interpretCommand_settled (redisFlushPipeline_settled hs hf).1 hq

theorem ask_settled {β : Type} {c : Command Key} {f : Reply → β} (hs : Settled h)
    (ha : (ask c f h).map Prod.snd = some h') : Settled h' := by
  simp only [ask, Option.bind_eq_bind, Option.map_eq_some_iff, Option.bind_eq_some_iff,
    Prod.exists, Option.some.injEq, Prod.mk.injEq] at ha
  obtain ⟨_, _, ⟨r, h₁, hq, -, rfl⟩, rfl⟩ := ha
  exact query_settled hs hq

theorem command_settled {c : Command Key} (hs : Settled h) (hc : command c h = some h') :
    Settled h' := by
  simp only [command, Option.bind_eq_bind, Option.bind_eq_some_iff, Prod.exists,
    Option.some.injEq] at hc
  obtain ⟨h₁, hf, a, r, h₂, hc, rfl⟩ := hc
  exact redisCommand_settled (redisFlushPipeline_settled hs hf).1 hc

theorem redisDequeue_settled {sectorNum cap : ℕ} (hs : Settled h)
    (hd : (redisDequeue sectorNum cap h).map Prod.snd = some h') : Settled h' := by
  simp only [redisDequeue, Option.bind_eq_bind, Option.map_eq_some_iff,
    Option.bind_eq_some_iff, Prod.exists, Option.some.injEq, Prod.mk.injEq] at hd
  obtain ⟨_, _, ⟨r, h₁, hi, a, r', h₂, hc, -, rfl⟩, rfl⟩ := hd
  exact redisCommand_settled (interpretCommand_settled hs hi) hc

theorem Settled.exit (hs : Settled h) : Settled { h with exited := true } :=
  ⟨⟨hs.balanced.count, hs.balanced.old⟩, hs.jobs, hs.below⟩

theorem redisAsyncWriteDequeue_settled (hs : Settled h)
    (hd : (redisAsyncWriteDequeue h).map Prod.snd = some h') : Settled h' := by
  simp only [redisAsyncWriteDequeue, Option.bind_eq_bind, Option.map_eq_some_iff,
    Option.bind_eq_some_iff, Prod.exists] at hd
  obtain ⟨w, _, ⟨r, h₁, hq, hd⟩, rfl⟩ := hd
  have hs₁ := query_settled hs hq
  split at hd
  · obtain ⟨rfl, rfl⟩ := Prod.mk.inj (Option.some.inj hd)
    exact hs₁.exit
  · split at hd
    · simp only [Option.bind_eq_some_iff, Prod.exists] at hd
      obtain ⟨r', h₂, hi, hd⟩ := hd
      have hs₂ := interpretCommand_settled hs₁ hi
      split at hd
      · obtain ⟨rfl, rfl⟩ := Prod.mk.inj (Option.some.inj hd)
        exact hs₂.exit
      · obtain ⟨rfl, rfl⟩ := Prod.mk.inj (Option.some.inj hd)
        exact hs₂
    · obtain ⟨rfl, rfl⟩ := Prod.mk.inj (Option.some.inj hd)
      exact hs₁.exit

/-- Every call but `redis_async_write_enqueue`. -/
def Call.Foreground : Call → Prop
  | .asyncWriteEnqueue _ _ _ _ _ => False
  | _ => True

theorem Call.perform_settled {c : Call} (hc : c.Foreground) (hs : Settled h)
    (hp : c.perform h = some h') : Settled h' := by
  cases c with
  | enqueuePipelined _ _ | delqueuePipelined _ | reversePointerSet _ _ _ | hashFieldSet _ _ _ _
  | listSet _ _ _ _ | binaryInsert _ _ _ | reverseFileDataPointerSet _ _ _ _ | pathSet _ _
  | metadataSet _ | deleteKey _ _ => exact pipelined_settled hs hp
  | hashFieldGet _ _ _ _ | lastFileSector _ | sectorLookup _ _ | listLen _ _ | pathGet _
  | metadataGet | getFcounter | listGet _ _ | listGetVar _ _ _ _ | setRemove _ _ =>
    exact ask_settled hs hp
  | setFcounter _ | setAdd _ _ => exact command_settled hs hp
  | publish channel data =>
    simp only [perform, redisPublish, Option.bind_eq_bind, Option.bind_eq_some_iff,
      Prod.exists, Option.some.injEq] at hp
    obtain ⟨a, r, h₁, hc, rfl⟩ := hp
    exact redisCommand_settled hs hc
  | dequeue _ _ => exact redisDequeue_settled hs hp
  | asyncWriteEnqueue _ _ _ _ _ => exact absurd hc not_false
  | asyncWriteDequeue => exact redisAsyncWriteDequeue_settled hs hp
  | setReset =>
    simp only [perform, redisSetReset, Option.bind_eq_bind, Option.bind_eq_some_iff,
      Prod.exists, Option.some.injEq] at hp
    obtain ⟨h₁, hc₁, a, r, h₂, hc₂, rfl⟩ := hp
    exact redisCommand_settled (command_settled hs hc₁) hc₂
  | flushPipeline => exact (redisFlushPipeline_settled hs hp).1

end Call

/-- What can happen on a handle that was opened without background flushing. -/
def Event.Foreground : Event → Prop
  | .call c => c.Foreground
  | .other _ => True
  | _ => False

theorem Event.perform_settled {e : Event} {h h' : Handle} (he : e.Foreground) (hs : Settled h)
    (hp : e.perform h = some h') : Settled h' := by
  unfold Event.perform at hp
  split at hp
  · cases hp
  · cases e with
    | call c => exact Call.perform_settled he hs hp
    | periodicFlush => exact absurd he not_false
    | jobRead i => exact absurd he not_false
    | other db =>
      obtain rfl := Option.some.inj hp
      exact ⟨⟨hs.balanced.count, hs.balanced.old⟩, hs.jobs, hs.below⟩

theorem run_settled {es : List Event} {h h' : Handle} (hes : ∀ e ∈ es, e.Foreground)
    (hs : Settled h) (hr : run es h = some h') : Settled h' := by
  induction es generalizing h with
  | nil =>
    obtain rfl := Option.some.inj hr
    exact hs
  | cons e es ih =>
    simp only [run, Option.bind_eq_bind, Option.bind_eq_some_iff] at hr
    obtain ⟨h₁, hp, hr⟩ := hr
    exact ih (fun x hx => hes x (List.mem_cons_of_mem e hx))
      (Event.perform_settled (hes e List.mem_cons_self) hs hp) hr

/-- There is a reply for every command that is counted, so no read has to wait. -/
theorem flushLoop_total {n : ℕ} {h : Handle} (hn : h.unread.length = n)
    (ho : h.outstandingPipelinedCmds = n) :
    ∃ h', flushLoop n h = some h' ∧ h'.unread = [] ∧ h'.outstandingPipelinedCmds = 0 := by
  induction n generalizing h with
  | zero => exact ⟨h, rfl, List.length_eq_zero_iff.mp hn, ho⟩
  | succ n ih =>
    obtain ⟨r, rest, hu⟩ := List.exists_cons_of_length_eq_add_one hn
    have hg : getReply h = some (r, { h with unread := rest }) := by
      rw [getReply, hu]
    have hrest : rest.length = n := by
      rw [hu, List.length_cons] at hn
      omega
    obtain ⟨h', hf, hend⟩ := @ih { h with
      unread := rest, outstandingPipelinedCmds := h.outstandingPipelinedCmds - 1 } hrest
      (by change h.outstandingPipelinedCmds - 1 = n; omega)
    refine ⟨h', ?_, hend⟩
    rw [flushLoop, hg]
    exact hf

/-- After every call, what is outstanding is what is unread, and it is less than a call leaves
without a flush; a flush comes to its end with nothing left. -/
theorem pipeline_accounting (db : Db Key) (bytes : ℕ) (es : List Event)
    (hes : ∀ e ∈ es, e.Foreground) (h : Handle) (hr : run es (redisInit db bytes) = some h) :
    h.outstandingPipelinedCmds = h.unread.length ∧ h.outstandingPipelinedCmds < 16384 ∧
      ∃ h', redisFlushPipeline h = some h' ∧ h'.outstandingPipelinedCmds = 0 ∧
        h'.unread = [] := by
  have hs := run_settled hes (redisInit_settled db bytes) hr
  obtain ⟨h', hf, hu, ho⟩ := flushLoop_total hs.count rfl
  exact ⟨hs.count.symm, hs.below, h', hf, ho, hu⟩

theorem pipeline_accounting_unflushedSample :
    (∀ e ∈ unflushedSample, e.Foreground) ∧
      ∃ h, run unflushedSample (redisInit Db.empty 0) = some h ∧
        h.outstandingPipelinedCmds = h.unread.length := by
  have hes : ∀ e ∈ unflushedSample, e.Foreground := by
    intro e he
    rcases List.mem_cons.mp he with rfl | he
    · trivial
    · rw [List.mem_singleton.mp he]
      trivial
  exact ⟨hes, _, rfl, (pipeline_accounting Db.empty 0 unflushedSample hes _ rfl).1⟩

end GammaRay.KvStore
