import GammaRay.Bitarray
import GammaRay.Loop
import GammaRay.Pipeline

set_option autoImplicit false

/-!
# The threads around `redis_async_write_enqueue`

One thread enqueues, the periodic flusher turns what is outstanding into a job, and every
job has a thread that reads its replies. Steps are the sections between two operations on a
lock. The count of a job belongs to its thread alone, so it goes down in the section that
reads the reply.
-/
namespace GammaRay.AsyncEnqueue
open Bytes Redis KvStore

structure Write where
  sector : ℤ
  data : List UInt8

/-- What the metadata filter says about a write. -/
def Write.bit (bits : Bitarray) (w : Write) : Bool := bits.getBit (u64 (w.sector.tdiv 4096))

/-- Where the enqueuing thread stands in a call. -/
inductive Pc where
  | idle
  | wantsConn (w : Write)
  | holdsConn (w : Write)
  | wantsCmd (w : Write)
  | holdsBoth (w : Write)
  | pushedSector (w : Write)
  | pushedBoth (w : Write)

/-- Commands that were appended and not yet counted. -/
def Pc.uncounted : Pc → ℕ
  | .pushedSector _ => 1
  | .pushedBoth _ => 2
  | _ => 0

def Pc.holdsConnLock : Pc → Bool
  | .holdsConn _ | .wantsCmd _ | .holdsBoth _ | .pushedSector _ => true
  | _ => false

def Pc.holdsCmdLock : Pc → Bool
  | .holdsBoth _ | .pushedSector _ | .pushedBoth _ => true
  | _ => false

/-- What the call at hand has appended so far. -/
def Pc.begun : Pc → List (List UInt8)
  | .pushedSector w => [i64Bytes w.sector]
  | .pushedBoth w => [i64Bytes w.sector, w.data]
  | _ => []

inductive Owner where
  | enqueuer
  | flusher
  | job (i : ℕ)

inductive FlusherPc where
  | sleeping
  | holdsCmd
  | waitsFor (i : ℕ)

inductive Phase where
  | waiting
  | flushing
  | finished

/-- `pushed` and `results` are a record of what was appended and of how the calls ended. -/
structure State where
  handle : Handle
  pc : Pc
  flusher : FlusherPc
  phase : ℕ → Phase
  conn : Option Owner
  cmd : Option Owner
  flush : Option ℕ
  pushed : List (List UInt8)
  results : List (Write × Bool)

def start (db : Db Key) (bytes : ℕ) : State where
  handle := redisInit db bytes
  pc := .idle
  flusher := .sleeping
  phase := fun _ => .waiting
  conn := none
  cmd := none
  flush := none
  pushed := []
  results := []

/-- The counters after a write was appended, and the job that is started when they are high. -/
def counted (w : Write) (h : Handle) : Handle :=
  let h := { h with
    outstandingPipelinedCmds := h.outstandingPipelinedCmds + 2
    outstandingBytes := u64 (h.outstandingBytes + 8 + w.data.length) }
  if defaultPipelined ≤ h.outstandingPipelinedCmds ∨ defaultBytes < h.outstandingBytes then
    { h with
      jobs := h.jobs ++ [h.outstandingPipelinedCmds]
      outstandingPipelinedCmds := 0
      outstandingBytes := 0 }
  else h

/-- The steps of `redis_async_write_enqueue`. `true` is `EXIT_SUCCESS`. -/
inductive EnqueuerStep (bits : Bitarray) (s : State) : State → Prop where
  | takeConn (w : Write) (hpc : s.pc = .idle) (hl : s.conn = none) :
      EnqueuerStep bits s { s with pc := .holdsConn w, conn := some .enqueuer }
  | awaitConn (w : Write) (hpc : s.pc = .idle) (hl : s.conn ≠ none) (hbit : w.bit bits = true) :
      EnqueuerStep bits s { s with pc := .wantsConn w }
  | failConn (w : Write) (hpc : s.pc = .idle) (hl : s.conn ≠ none) (hbit : w.bit bits = false) :
      EnqueuerStep bits s { s with results := s.results ++ [(w, false)] }
  | lockConn (w : Write) (hpc : s.pc = .wantsConn w) (hl : s.conn = none) :
      EnqueuerStep bits s { s with pc := .holdsConn w, conn := some .enqueuer }
  | takeCmd (w : Write) (hpc : s.pc = .holdsConn w) (hl : s.cmd = none) :
      EnqueuerStep bits s { s with pc := .holdsBoth w, cmd := some .enqueuer }
  | awaitCmd (w : Write) (hpc : s.pc = .holdsConn w) (hl : s.cmd ≠ none)
      (hbit : w.bit bits = true) : EnqueuerStep bits s { s with pc := .wantsCmd w }
  | failCmd (w : Write) (hpc : s.pc = .holdsConn w) (hl : s.cmd ≠ none)
      (hbit : w.bit bits = false) : EnqueuerStep bits s
        { s with pc := .idle, conn := none, results := s.results ++ [(w, false)] }
  | lockCmd (w : Write) (hpc : s.pc = .wantsCmd w) (hl : s.cmd = none) :
      EnqueuerStep bits s { s with pc := .holdsBoth w, cmd := some .enqueuer }
  | pushSector (w : Write) (h : Handle) (hpc : s.pc = .holdsBoth w)
      (ha : appendCommand (.lpush .writequeue (i64Bytes w.sector)) s.handle = some h) :
      EnqueuerStep bits s
        { s with handle := h, pc := .pushedSector w, pushed := s.pushed ++ [i64Bytes w.sector] }
  | pushData (w : Write) (h : Handle) (hpc : s.pc = .pushedSector w)
      (ha : appendCommand (.lpush .writequeue w.data) s.handle = some h) :
      EnqueuerStep bits s
        { s with handle := h, pc := .pushedBoth w, conn := none, pushed := s.pushed ++ [w.data] }
  | count (w : Write) (hpc : s.pc = .pushedBoth w) : EnqueuerStep bits s
        { s with
          handle := counted w s.handle
          pc := .idle
          cmd := none
          results := s.results ++ [(w, true)] }

/-- The steps of `redis_periodic_flusher`, which works its own job off like any other. -/
inductive FlusherStep (s : State) : State → Prop where
  | lockCmd (hpc : s.flusher = .sleeping) (hl : s.cmd = none) :
      FlusherStep s { s with flusher := .holdsCmd, cmd := some .flusher }
  | takeCount (hpc : s.flusher = .holdsCmd) : FlusherStep s
      { s with
        handle := periodicFlush s.handle
        flusher := .waitsFor s.handle.jobs.length
        cmd := none }
  | wake (i : ℕ) (hpc : s.flusher = .waitsFor i) (hp : s.phase i = .finished) :
      FlusherStep s { s with flusher := .sleeping }

/-- The steps of `redis_flush_thread_pipeline`. -/
inductive JobStep (s : State) : State → Prop where
  | begin (i : ℕ) (hi : i < s.handle.jobs.length) (hp : s.phase i = .waiting)
      (hl : s.flush = none) : JobStep s
        { s with phase := Function.update s.phase i .flushing, flush := some i }
  | lockConn (i n : ℕ) (hf : s.flush = some i) (hn : s.handle.jobs[i]? = some (n + 1))
      (hl : s.conn = none) : JobStep s { s with conn := some (.job i) }
  | read (i : ℕ) (h : Handle) (hl : s.conn = some (.job i)) (hr : jobRead i s.handle = some h) :
      JobStep s { s with handle := h, conn := none }
  | finish (i : ℕ) (hf : s.flush = some i) (hn : s.handle.jobs[i]? = some 0) : JobStep s
        { s with phase := Function.update s.phase i .finished, flush := none }

inductive Step (bits : Bitarray) (s : State) : State → Prop where
  | enqueuer {t : State} (h : EnqueuerStep bits s t) : Step bits s t
  | flusher {t : State} (h : FlusherStep s t) : Step bits s t
  | job {t : State} (h : JobStep s t) : Step bits s t
  | other (db : Db Key) : Step bits s { s with handle := { s.handle with db := db } }

inductive Reachable (bits : Bitarray) (db : Db Key) (bytes : ℕ) : State → Prop where
  | start : Reachable bits db bytes (start db bytes)
  | step {s t : State} (hs : Reachable bits db bytes s) (h : Step bits s t) :
      Reachable bits db bytes t

/-- The two elements that a call which succeeds has appended. -/
def elements (r : Write × Bool) : List (List UInt8) :=
  if r.2 then [i64Bytes r.1.sector, r.1.data] else []

structure Consistent (bits : Bitarray) (s : State) : Prop where
  count : s.handle.unread.length =
    s.handle.outstandingPipelinedCmds + s.handle.jobs.sum + s.pc.uncounted
  conn : s.conn = some .enqueuer ↔ s.pc.holdsConnLock = true
  cmd : s.cmd = some .enqueuer ↔ s.pc.holdsCmdLock = true
  flusher : s.flusher = .holdsCmd → s.cmd = some .flusher
  reading : ∀ i, s.conn = some (.job i) → ∃ n, s.handle.jobs[i]? = some (n + 1)
  pushed : s.pushed = s.results.flatMap elements ++ s.pc.begun
  failures : ∀ r ∈ s.results, r.2 = false → r.1.bit bits = false

section Invariant

variable {bits : Bitarray} {s t : State}

theorem start_consistent (db : Db Key) (bytes : ℕ) : Consistent bits (start db bytes) where
  count := rfl
  conn := iff_of_false (fun h => nomatch h) Bool.false_ne_true
  cmd := iff_of_false (fun h => nomatch h) Bool.false_ne_true
  flusher := fun h => nomatch h
  reading := fun _ h => nomatch h
  pushed := rfl
  failures := fun _ h => absurd h List.not_mem_nil

theorem append_unread {c : Command Key} {h h' : Handle} (ha : appendCommand c h = some h') :
    h'.unread.length = h.unread.length + 1 ∧ h'.jobs = h.jobs ∧
      h'.outstandingPipelinedCmds = h.outstandingPipelinedCmds := by
  obtain ⟨r, db, rfl⟩ := appendCommand_eq ha
  exact ⟨by simp, rfl, rfl⟩

theorem counted_count (w : Write) (h : Handle) :
    (counted w h).unread = h.unread ∧
      (counted w h).outstandingPipelinedCmds + (counted w h).jobs.sum =
        h.outstandingPipelinedCmds + h.jobs.sum + 2 ∧
      ∃ l, (counted w h).jobs = h.jobs ++ l := by
  unfold counted
  dsimp only
  split
  · refine ⟨rfl, ?_, _, rfl⟩
    simp only [List.sum_append, List.sum_singleton]
    omega
  · exact ⟨rfl, by dsimp only; omega, [], (List.append_nil _).symm⟩

/-- A job that has replies to read keeps them when further jobs are started. -/
theorem reading_append {owner : Option Owner} {jobs l : List ℕ}
    (h : ∀ i, owner = some (.job i) → ∃ n, jobs[i]? = some (n + 1)) :
    ∀ i, owner = some (.job i) → ∃ n, (jobs ++ l)[i]? = some (n + 1) := by
  intro i hi
  obtain ⟨n, hn⟩ := h i hi
  have hlt := (List.getElem?_eq_some_iff.mp hn).1
  exact ⟨n, by rw [List.getElem?_append_left hlt, hn]⟩

theorem failures_append {results : List (Write × Bool)} {r : Write × Bool}
    (h : ∀ r ∈ results, r.2 = false → r.1.bit bits = false)
    (hr : r.2 = false → r.1.bit bits = false) :
    ∀ q ∈ results ++ [r], q.2 = false → q.1.bit bits = false := by
  intro q hq
  rcases List.mem_append.mp hq with hq | hq
  · exact h q hq
  · rw [List.mem_singleton.mp hq]
    exact hr

theorem enqueuer_consistent (hs : Consistent bits s) (h : EnqueuerStep bits s t) :
    Consistent bits t := by
  obtain ⟨hcount, hconn, hcmd, hflush, hread, hpushed, hfail⟩ := hs
  cases h with
  | takeConn w hpc hl | lockConn w hpc hl =>
    rw [hpc] at hcount hcmd hpushed
    exact ⟨hcount, iff_of_true rfl rfl, hcmd, hflush, (fun i hi => nomatch hi), hpushed, hfail⟩
  | awaitConn w hpc hl hbit | awaitCmd w hpc hl hbit =>
    rw [hpc] at hcount hconn hcmd hpushed
    exact ⟨hcount, hconn, hcmd, hflush, hread, hpushed, hfail⟩
  | failConn w hpc hl hbit =>
    refine ⟨hcount, hconn, hcmd, hflush, hread, ?_, failures_append hfail fun _ => hbit⟩
    rw [hpushed, List.flatMap_append]
    simp [elements]
  | takeCmd w hpc hl | lockCmd w hpc hl =>
    rw [hpc] at hcount hconn hpushed
    refine ⟨hcount, hconn, iff_of_true rfl rfl, fun h => ?_, hread, hpushed, hfail⟩
    rw [hflush h] at hl
    cases hl
  | failCmd w hpc hl hbit =>
    rw [hpc] at hcount hcmd hpushed
    refine ⟨hcount, iff_of_false (fun h => nomatch h) Bool.false_ne_true, hcmd, hflush,
      (fun i hi => nomatch hi), ?_, failures_append hfail fun _ => hbit⟩
    rw [hpushed, List.flatMap_append]
    simp [elements, Pc.begun]
  | pushSector w h hpc ha =>
    obtain ⟨hu, hj, ho⟩ := append_unread ha
    rw [hpc] at hcount hconn hcmd hpushed
    refine ⟨?_, hconn, hcmd, hflush, ?_, ?_, hfail⟩
    · simp only [hu, hj, ho, hcount, Pc.uncounted]
    · rwa [hj]
    · rw [hpushed]
      simp [Pc.begun]
  | pushData w h hpc ha =>
    obtain ⟨hu, hj, ho⟩ := append_unread ha
    rw [hpc] at hcount hcmd hpushed
    refine ⟨?_, iff_of_false (fun h => nomatch h) Bool.false_ne_true, hcmd, hflush,
      (fun i hi => nomatch hi), ?_, hfail⟩
    · simp only [hu, hj, ho, hcount, Pc.uncounted]
    · rw [hpushed]
      simp [Pc.begun]
  | count w hpc =>
    obtain ⟨hu, hsum, l, hl⟩ := counted_count w s.handle
    rw [hpc] at hcount hconn hcmd hpushed
    refine ⟨?_, hconn, iff_of_false (fun h => nomatch h) Bool.false_ne_true, fun h => ?_, ?_, ?_,
      failures_append hfail fun h => nomatch h⟩
    · simp only [hu, hcount, hsum, Pc.uncounted]
    · have howner := (hflush h).symm.trans (hcmd.mpr rfl)
      cases howner
    · rw [hl]
      exact reading_append hread
    · rw [hpushed, List.flatMap_append]
      simp [elements, Pc.begun]

theorem flusher_consistent (hs : Consistent bits s) (h : FlusherStep s t) :
    Consistent bits t := by
  obtain ⟨hcount, hconn, hcmd, hflush, hread, hpushed, hfail⟩ := hs
  cases h with
  | lockCmd hpc hl =>
    refine ⟨hcount, hconn, iff_of_false (by simp) fun h => ?_, fun _ => rfl, hread,
      hpushed, hfail⟩
    rw [hcmd.mpr h] at hl
    cases hl
  | takeCount hpc =>
    refine ⟨?_, hconn, iff_of_false (by simp) fun h => ?_, (by simp),
      reading_append hread, hpushed, hfail⟩
    · simp only [periodicFlush, List.sum_append, List.sum_singleton, hcount]
      omega
    · have howner := (hflush hpc).symm.trans (hcmd.mpr h)
      cases howner
  | wake i hpc hp => exact ⟨hcount, hconn, hcmd, (by simp), hread, hpushed, hfail⟩

theorem jobRead_spec {i : ℕ} {h h' : Handle} (hr : jobRead i h = some h') :
    h'.unread.length + 1 = h.unread.length ∧ h'.jobs.sum + 1 = h.jobs.sum ∧
      h'.outstandingPipelinedCmds = h.outstandingPipelinedCmds := by
  obtain ⟨r, rest, n, hu, hi, rfl⟩ := jobRead_eq hr
  exact ⟨by rw [hu]; rfl, sum_set_pred hi, rfl⟩

theorem job_consistent (hs : Consistent bits s) (h : JobStep s t) : Consistent bits t := by
  obtain ⟨hcount, hconn, hcmd, hflush, hread, hpushed, hfail⟩ := hs
  cases h with
  | begin i hi hp hl | finish i hf hn =>
    exact ⟨hcount, hconn, hcmd, hflush, hread, hpushed, hfail⟩
  | lockConn i n hf hn hl =>
    refine ⟨hcount, iff_of_false (fun h => nomatch h) fun h => ?_, hcmd, hflush, fun j hj => ?_,
      hpushed, hfail⟩
    · rw [hconn.mpr h] at hl
      cases hl
    · obtain rfl := Owner.job.inj (Option.some.inj hj)
      exact ⟨n, hn⟩
  | read i h hl hr =>
    obtain ⟨hu, hj, ho⟩ := jobRead_spec hr
    refine ⟨?_, iff_of_false (fun h => nomatch h) fun h => ?_, hcmd, hflush,
      (fun j hj => nomatch hj), hpushed, hfail⟩
    · simp only [ho]
      omega
    · have howner := hl.symm.trans (hconn.mpr h)
      cases howner

theorem step_consistent (hs : Consistent bits s) (h : Step bits s t) : Consistent bits t := by
  cases h with
  | enqueuer h => exact enqueuer_consistent hs h
  | flusher h => exact flusher_consistent hs h
  | job h => exact job_consistent hs h
  | other db =>
    exact ⟨hs.count, hs.conn, hs.cmd, hs.flusher, hs.reading, hs.pushed, hs.failures⟩

theorem Reachable.consistent {db : Db Key} {bytes : ℕ} (h : Reachable bits db bytes s) :
    Consistent bits s := by
  induction h with
  | start => exact start_consistent db bytes
  | step _ h ih => exact step_consistent ih h

/-- A job that is about to read has a reply to read. -/
theorem Consistent.job_reads (hs : Consistent bits s) {i : ℕ} (hi : s.conn = some (.job i)) :
    ∃ t, JobStep s t ∧ t.conn = none := by
  obtain ⟨n, hn⟩ := hs.reading i hi
  have hsum := sum_set_pred hn
  have hcount := hs.count
  obtain ⟨r, rest, hu⟩ := List.exists_cons_of_length_pos
    (show 0 < s.handle.unread.length by omega)
  have hr : jobRead i s.handle =
      some { s.handle with unread := rest, jobs := s.handle.jobs.set i n } := by
    simp only [jobRead, hn, getReply, hu, Option.bind_eq_bind, Option.bind_some]
  exact ⟨_, .read i _ hi hr, rfl⟩

/-- A call that fails has changed nothing and holds nothing. -/
theorem Consistent.failure (hs : Consistent bits s) (h : Step bits s t) {w : Write}
    (hr : t.results = s.results ++ [(w, false)]) :
    t.handle = s.handle ∧ t.pushed = s.pushed ∧ t.conn ≠ some .enqueuer ∧
      t.cmd ≠ some .enqueuer := by
  have ht := step_consistent hs h
  have hsame : s.results ≠ s.results ++ [(w, false)] := by
    intro he
    have hlen := congrArg List.length he
    rw [List.length_append, List.length_singleton] at hlen
    omega
  cases h with
  | enqueuer h =>
    cases h with
    | failConn w' hpc hl hbit =>
      refine ⟨rfl, rfl, fun hc => ?_, fun hc => ?_⟩
      · have hlock := ht.conn.mp hc
        simp only [hpc] at hlock
        cases hlock
      · have hlock := ht.cmd.mp hc
        simp only [hpc] at hlock
        cases hlock
    | failCmd w' hpc hl hbit =>
      exact ⟨rfl, rfl, (fun hc => nomatch hc), fun hc => Bool.false_ne_true (ht.cmd.mp hc)⟩
    | count w' hpc =>
      have hlast := List.append_cancel_left hr
      cases hlast
    | takeConn | awaitConn | lockConn | takeCmd | awaitCmd | lockCmd | pushSector | pushData =>
      exact absurd hr hsame
  | flusher h =>
    cases h with
    | lockCmd | takeCount | wake => exact absurd hr hsame
  | job h =>
    cases h with
    | begin | lockConn | read | finish => exact absurd hr hsame
  | other db => exact absurd hr hsame

/-- Up to the second lock a call leaves the handle alone. -/
theorem EnqueuerStep.handle_eq (h : EnqueuerStep bits s t) (hpc : s.pc.holdsCmdLock = false) :
    t.handle = s.handle := by
  cases h with
  | takeConn | awaitConn | failConn | lockConn | takeCmd | awaitCmd | failCmd | lockCmd => rfl
  | pushSector w h hpc' ha =>
    rw [hpc'] at hpc
    cases hpc
  | pushData w h hpc' ha =>
    rw [hpc'] at hpc
    cases hpc
  | count w hpc' =>
    rw [hpc'] at hpc
    cases hpc

end Invariant

section Sequential

variable {bits : Bitarray} {db : Db Key} {bytes : ℕ}

/-- Undisturbed, the steps of a call make up `redis_async_write_enqueue` as a whole. -/
theorem sequential_enqueue {s : State} (hs : Reachable bits db bytes s) (hpc : s.pc = .idle)
    (hconn : s.conn = none) (hcmd : s.cmd = none) (w : Write) :
    ∃ t, Reachable bits db bytes t ∧ t.pc = .idle ∧ t.results = s.results ++ [(w, true)] ∧
      redisAsyncWriteEnqueue (w.bit bits) false false w.sector w.data s.handle =
        some (true, t.handle) := by
  obtain ⟨h₁, ha₁⟩ : ∃ h, appendCommand (.lpush .writequeue (i64Bytes w.sector)) s.handle = some h :=
    ⟨_, rfl⟩
  obtain ⟨h₂, ha₂⟩ : ∃ h, appendCommand (.lpush .writequeue w.data) h₁ = some h := ⟨_, rfl⟩
  have r₁ := hs.step (.enqueuer (.takeConn w hpc hconn))
  have r₂ := r₁.step (.enqueuer (.takeCmd w rfl hcmd))
  have r₃ := r₂.step (.enqueuer (.pushSector w h₁ rfl ha₁))
  have r₄ := r₃.step (.enqueuer (.pushData w h₂ rfl ha₂))
  refine ⟨_, r₄.step (.enqueuer (.count w rfl)), rfl, rfl, ?_⟩
  rw [redisAsyncWriteEnqueue, Bool.false_and, if_neg Bool.false_ne_true,
    if_neg Bool.false_ne_true, Loop.bind_of_some ha₁, Loop.bind_of_some ha₂, counted]
  dsimp only
  split <;> rfl

end Sequential

end GammaRay.AsyncEnqueue
