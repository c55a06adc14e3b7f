import GammaRay.Inferencer
import GammaRay.NbdAtomic

set_option autoImplicit false

/-!
# From the clients' writes to the copies

The server and the inferencer run side by side and share one database: what the server pushes is
applied some time later, and the inferencer takes off what has been applied. Through all of it the
copies that a subscriber keeps follow the exported file.
-/
namespace GammaRay.Monitor
open Bytes Redis Nbd Inspect Observation Patch WriteQueue
open KvStore (Settled)
open Ext4 (sectorSize)

/-- Any number of clients on one server, the database with the connection of the inferencer, and
whether the inferencer has left its loop. -/
structure Node (ι : Type) where
  conns : ι → Conn
  world : World
  applied : ℕ
  inferencer : State KvStore.Handle
  counter : ℕ
  ended : Bool

variable {ι : Type}

def Node.conn (s : Node ι) (i : ι) : Conn := { s.conns i with world := s.world }

def Node.db (s : Node ι) : Db KvStore.Key := s.inferencer.store.db

def Node.setDb (s : Node ι) (db : Db KvStore.Key) : Node ι :=
  { s with inferencer := { s.inferencer with store := { s.inferencer.store with db := db } } }

/-- Bytes reach a client's connection, a client's handler does one iteration, Redis executes the
next command of the server, the inferencer does a round of its loop. -/
inductive Event (ι : Type) where
  | arrive (i : ι) (bytes : List UInt8)
  | iterate (i : ι)
  | apply
  | infer

/-- A round that would have to wait for the queue is not taken. -/
def step [DecidableEq ι] (S : Server) (c : Inspector KvStore.Handle) (fuel : ℕ) (s : Node ι) :
    Event ι → Option (Node ι)
  | .arrive i bytes => some { s with
      conns := Function.update s.conns i ((s.conns i).add bytes) }
  | .iterate i => (clientHandler S (s.conn i)).map fun r => { s with
      conns := Function.update s.conns i (r.elim id id)
      world := (r.elim id id).world }
  | .apply => do
    let x ← (pushes s.world)[s.applied]?
    let (_, db) ← exec s.db (.lpush .writequeue x)
    some { s.setDb db with applied := s.applied + 1 }
  | .infer =>
    if s.ended then none
    else (c.round fuel (s.inferencer, s.counter)).map fun r => r.elim
      (fun p => { s with inferencer := p.1, counter := p.2 })
      (fun t => { s with inferencer := t, ended := true })

deriving instance DecidableEq for Write

/-- What a client does to the exported file. -/
inductive Change where
  | write (x : Write)
  | trim (offset : ℤ) (length : ℕ)
  deriving DecidableEq

def trims : Option Operation → List Change
  | some (.trim offset length) => [.trim offset length]
  | _ => []

def changes (S : Server) (c : Conn) : List Change :=
  (executes S c).map .write ++ trims c.asks

def machine (S : Server) (c : Inspector KvStore.Handle) (fuel : ℕ) (ι : Type) [DecidableEq ι] :
    Machine (Node ι) (Event ι) Change where
  step := step S c fuel
  sees s
    | .iterate i => changes S (s.conn i)
    | _ => []

/-! ## The file -/

def diskOf (file : List UInt8) : ℕ → UInt8 := fun i => (file[i]?).getD 0

def writeOn (disk : ℕ → UInt8) (x : Write) : ℕ → UInt8 := patch disk x.offset x.data

theorem diskOf_written (file : List UInt8) (offset : ℕ) (data : List UInt8) :
    diskOf (written file offset data) = patch (diskOf file) offset data := by
  unfold written
  split
  · rename_i hnil
    rw [hnil, patch_nil]
  funext i
  unfold diskOf store
  rcases Nat.lt_or_ge i offset with hlt | hge
  · rw [patch_outside (.inl hlt), List.append_assoc, List.append_assoc]
    rcases Nat.lt_or_ge i file.length with hin | hout
    · rw [List.getElem?_append_left (by rw [List.length_take]; omega), List.getElem?_take_of_lt hlt]
    · rw [List.getElem?_append_right (by rw [List.length_take]; omega),
        List.getElem?_append_left (by rw [List.length_take, List.length_replicate]; omega),
        List.getElem?_replicate, List.getElem?_eq_none hout]
      split <;> rfl
  obtain ⟨j, rfl⟩ := Nat.exists_eq_add_of_le hge
  have hfront : (file.take offset ++ List.replicate (offset - file.length) 0).length = offset := by
    rw [List.length_append, List.length_take, List.length_replicate]
    omega
  rw [patch_add, List.append_assoc, List.getElem?_append_right (by omega), hfront,
    Nat.add_sub_cancel_left]
  rcases Nat.lt_or_ge j data.length with hin | hout
  · rw [List.getElem?_append_left hin, List.getElem?_eq_getElem hin, Option.getD_some,
      Option.getD_some]
  · rw [List.getElem?_append_right hout, List.getElem?_drop, List.getElem?_eq_none hout,
      Option.getD_none]
    congr 2
    omega

theorem diskOf_foldl (xs : List Write) (file : List UInt8) :
    diskOf (xs.foldl (fun file x => written file x.offset x.data) file) =
      xs.foldl writeOn (diskOf file) := by
  induction xs generalizing file with
  | nil => rfl
  | cons x xs ih =>
    rw [List.foldl_cons, ih, diskOf_written]
    rfl

section Iteration

variable {S : Server} {c : Conn} {r : Conn ⊕ Conn}

theorem executes_of_asks {x : Write} (hx : x ∈ executes S c) :
    c.asks = some (.write x.offset x.data) := by
  unfold executes at hx
  split at hx
  swap
  · cases hx
  rename_i peek hstate hp
  obtain ⟨hlen, hpeek, -⟩ := take_of_pullup hp
  subst hpeek
  change x ∈ executesRequest S c.request c at hx
  unfold executesRequest at hx
  split at hx
  swap
  · cases hx
  rename_i hwrite
  split at hx
  swap
  · cases hx
  rename_i c' hdone
  obtain rfl := List.mem_singleton.mp hx
  have hfull : 28 + c.request.length ≤ c.input.length := by
    by_contra hshort
    cases hb : S.memory.realloc c.client.buf c.request.length with
    | none =>
      have hnone : handleWrite S c.request c = none := Loop.bind_of_none hb _
      rw [hnone] at hdone
      cases hdone
    | some buf =>
      rw [handleWrite_short hb (by omega), Option.some.injEq, Prod.mk.injEq] at hdone
      exact absurd hdone.1 (by decide)
  rw [Conn.asks, if_pos ⟨hstate, hlen, hwrite.1⟩, hwrite.2]
  exact if_pos hfull

theorem executes_eq_nil (h : ∀ offset data, c.asks ≠ some (.write offset data)) :
    executes S c = [] :=
  List.eq_nil_iff_forall_not_mem.mpr fun _ hx => h _ _ (executes_of_asks hx)

/-- An executed write is in the file, and one that failed has done nothing. -/
theorem write_file (hS : S.kernel.Whole) (hr : RequestAt c .write)
    (h : clientHandler S c = some r) :
    (r.elim id id).world.file =
      (executes S c).foldl (fun file x => written file x.offset x.data) c.world.file := by
  have hc : c.closed = false := by
    by_contra hc
    rw [clientHandler_closed S (by simpa using hc)] at h
    cases h
  have hexecutes : executes S c = executesRequest S c.request c := by
    rw [executes, hr.state, pullup, if_neg (by have := hr.length; omega)]
    rfl
  rw [dispatch_of_request S hc hr, Option.map_eq_some_iff] at h
  obtain ⟨q, hq, rfl⟩ := h
  rw [proceed_elim, hexecutes]
  rw [dispatchRequest_write S hr.magic hr.type] at hq
  cases hw : handleWrite S c.request c with
  | none =>
    rw [Loop.bind_of_none hw] at hq
    cases hq
  | some p =>
    obtain ⟨err, c'⟩ := p
    rw [Loop.bind_of_some hw] at hq
    rw [executesRequest_write hr.magic hr.type hw]
    have hfile : q.2.world.file = c'.world.file := by
      dsimp only at hq
      split at hq
      · rw [← Option.some.inj hq]
      · rw [← Option.some.inj hq]
        exact sendResponse_file _ _ _ _ _
    rw [hfile]
    rcases handleWrite_cases hw with ⟨rfl, hworld⟩ | ⟨e, rfl, hseek⟩
    · rw [if_neg (by decide), hworld]
      rfl
    · obtain ⟨hoff, hlen⟩ := request_bounds c
      obtain ⟨hok, hfail⟩ := seekWrite_atomic hS
        ((List.length_take_le _ _).trans_lt hlen) hseek
      by_cases he : e = none
      · obtain ⟨hnonneg, hwritten⟩ := hok he
        rw [if_pos (errCode_eq_zero.mpr he), hwritten, i64_toNat_of_nonneg hoff hnonneg]
        rfl
      · rw [if_neg (fun h => he (errCode_eq_zero.mp h)), hfail he]
        rfl

theorem iterate_file (hS : S.kernel.Whole) (h : clientHandler S c = some r)
    (htrim : trims c.asks = []) :
    (r.elim id id).world.file =
      (executes S c).foldl (fun file x => written file x.offset x.data) c.world.file := by
  cases ha : c.asks with
  | none =>
    rw [executes_eq_nil (by simp [ha]), file_of_not_asks ha h]
    rfl
  | some operation =>
    obtain ⟨answer, -, -, hserves⟩ := replies_of_asks hS ha h
    rcases asks_cases ha with ⟨-, rfl⟩ | ⟨hr, -, rfl⟩ | ⟨-, rfl⟩ | ⟨-, rfl⟩
    · rw [executes_eq_nil (by simp [ha])]
      generalize (r.elim id id).world.file = file at hserves
      cases hserves <;> rfl
    · exact write_file hS hr h
    · rw [executes_eq_nil (by simp [ha])]
      generalize (r.elim id id).world.file = file at hserves
      cases hserves <;> rfl
    · rw [ha] at htrim
      cases htrim

end Iteration

/-! ## The queue -/

section Queue

variable {x : Write}

theorem elements_eq (hx : x.offset < 2 ^ 63) :
    x.elements = [i64Bytes ((x.offset / sectorSize : ℕ) : ℤ), x.data] := by
  rw [Write.elements, i64_of_range (by omega) (by omega), Int.tdiv_eq_ediv_of_nonneg (by omega)]
  rfl

def queued (x : Write) (hx : x.offset < 2 ^ 63) : QueuedWrite :=
  ⟨x.offset / sectorSize, x.data, (Nat.div_le_self _ _).trans_lt hx⟩

/-- The inferencer can make out a write that consists of whole sectors, and that changes blocks of
files or blocks the store has nothing about. -/
structure Plain (c : Inspector KvStore.Handle) (l : Layout c.blockSize) (d : Db KvStore.Key)
    (x : Write) : Prop where
  offset : sectorSize ∣ x.offset
  length : sectorSize ∣ x.data.length
  blocks : c.PlainWrite l d
    ⟨x.offset / sectorSize, x.data.length / sectorSize, x.data⟩

theorem queued_apply {c : Inspector KvStore.Handle} {l : Layout c.blockSize} {d : Db KvStore.Key}
    (hx : x.offset < 2 ^ 63) (hplain : Plain c l d x) (disk : ℕ → UInt8) :
    (queued x hx).write.apply disk = writeOn disk x := by
  rw [BdrvWrite.apply, writeOn, QueuedWrite.write, queued]
  dsimp only
  rw [Nat.div_mul_cancel hplain.offset, Nat.div_mul_cancel hplain.length, List.take_length]

end Queue

/-! ## Runs -/

/-- Nothing is under way between the server and the inferencer. -/
structure Initial (s : Node ι) : Prop where
  effects : s.world.effects = []
  applied : s.applied = 0
  queue : s.db.listAt .writequeue = some []
  settled : Settled s.inferencer.store
  running : s.ended = false

/-- Of the executed writes the inferencer has dealt with `done` and not with `todo`. -/
structure Accounts (c : Inspector KvStore.Handle) (l : Layout c.blockSize) (s₀ s : Node ι)
    (done todo : List Write) : Prop where
  bounds : ∀ x ∈ todo, x.offset < 2 ^ 63
  plain : ∀ x ∈ todo, Plain c l s₀.db x
  log : pushes s.world = (done ++ todo).flatMap Write.elements
  file : diskOf s.world.file = (done ++ todo).foldl writeOn (diskOf s₀.world.file)
  applied : s.applied ≤ (pushes s.world).length
  flow : ∃ list, s.db.listAt .writequeue = some list ∧
    done.flatMap Write.elements ++ list.reverse = (pushes s.world).take s.applied
  settled : Settled s.inferencer.store
  running : s.ended = false
  keys : ∀ k ≠ KvStore.Key.writequeue, (∀ n, k ≠ .qsector n) → s.db.keys k = s₀.db.keys k
  mirrored : ∃ messages, s.db.messages = s₀.db.messages ++ messages ∧ ∀ disk copies,
    l.Mirrored disk copies →
      l.Mirrored (done.foldl writeOn disk) (c.copiesAfter l.path messages copies)

section Accounts

variable {S : Server} {c : Inspector KvStore.Handle} {l : Layout c.blockSize} {s₀ s : Node ι}
  {done todo : List Write}

theorem Initial.accounts (h : Initial s) : Accounts c l s s [] [] := by
  have hp : pushes s.world = [] := by rw [pushes, h.effects, List.filterMap_nil]
  refine ⟨by simp, by simp, hp, rfl, by rw [h.applied]; omega, ⟨[], h.queue, ?_⟩, h.settled,
    h.running, fun _ _ _ => rfl, [], (List.append_nil _).symm, fun _ _ hm => hm⟩
  rw [hp, List.take_nil]
  rfl

theorem Accounts.iterate [DecidableEq ι] (h : Accounts c l s₀ s done todo) (hS : S.kernel.Whole)
    {i : ι} {r : Conn ⊕ Conn} (hr : clientHandler S (s.conn i) = some r)
    (htrim : trims (s.conn i).asks = [])
    (hplain : ∀ x ∈ executes S (s.conn i), Plain c l s₀.db x) :
    Accounts c l s₀ { s with
      conns := Function.update s.conns i (r.elim id id), world := (r.elim id id).world }
      done (todo ++ executes S (s.conn i)) := by
  have hp : pushes (r.elim id id).world = pushes s.world ++ _ := pushes_clientHandler hr
  obtain ⟨list, hlist, hflow⟩ := h.flow
  refine ⟨?_, ?_, ?_, ?_, ?_, ⟨list, hlist, ?_⟩, h.settled, h.running, h.keys, h.mirrored⟩
  · intro x hx
    rcases List.mem_append.mp hx with hx | hx
    · exact h.bounds x hx
    · exact (executes_bounds hx).1
  · intro x hx
    rcases List.mem_append.mp hx with hx | hx
    · exact h.plain x hx
    · exact hplain x hx
  · rw [hp, h.log, ← List.append_assoc, ← List.flatMap_append]
  · have hfile : diskOf (r.elim id id).world.file =
        (executes S (s.conn i)).foldl writeOn (diskOf s.world.file) := by
      rw [iterate_file hS hr htrim, diskOf_foldl]
      rfl
    rw [← List.append_assoc, List.foldl_append, ← h.file]
    exact hfile
  · rw [hp, List.length_append]
    exact Nat.le_add_right_of_le h.applied
  · rw [hp, List.take_append_of_le_length h.applied]
    exact hflow

/-- What another client does to the database does not change what is outstanding. -/
theorem settled_setDb {h : KvStore.Handle} (hs : Settled h) (db : Db KvStore.Key) :
    Settled { h with db := db } :=
  ⟨⟨hs.balanced.count, hs.balanced.old⟩, hs.jobs, hs.below⟩

theorem exec_lpush {db : Db KvStore.Key} {k : KvStore.Key} {list : List (List UInt8)}
    (hl : db.listAt k = some list) (x : List UInt8) :
    exec db (.lpush k x) = some (.integer (list.length + 1), db.putList k (x :: list)) := by
  simp only [exec, hl]

theorem Accounts.apply (h : Accounts c l s₀ s done todo) {x : List UInt8}
    (hx : (pushes s.world)[s.applied]? = some x) {reply : Reply} {db : Db KvStore.Key}
    (hexec : exec s.db (.lpush .writequeue x) = some (reply, db)) :
    Accounts c l s₀ { s.setDb db with applied := s.applied + 1 } done todo := by
  obtain ⟨list, hlist, hflow⟩ := h.flow
  obtain ⟨messages, hmessages, hmirrored⟩ := h.mirrored
  obtain ⟨hlt, hget⟩ := List.getElem?_eq_some_iff.mp hx
  rw [exec_lpush hlist, Option.some.injEq, Prod.mk.injEq] at hexec
  obtain ⟨-, rfl⟩ := hexec
  refine ⟨h.bounds, h.plain, h.log, h.file, hlt, ⟨x :: list, listAt_putList _ _ _, ?_⟩,
    settled_setDb h.settled _, h.running, ?_,
    ⟨messages, hmessages, hmirrored⟩⟩
  · rw [List.reverse_cons, ← List.append_assoc, hflow]
    exact (List.take_succ_eq_append_getElem hlt).symm ▸ hget ▸ rfl
  · intro k hk hkq
    exact (keys_put_of_ne hk _).trans (h.keys k hk hkq)

/-- What is in the queue belongs to the writes that are still to be dealt with. -/
theorem Accounts.queue_front (h : Accounts c l s₀ s done todo) {list : List (List UInt8)}
    (hflow : done.flatMap Write.elements ++ list.reverse = (pushes s.world).take s.applied) :
    list.reverse <+: todo.flatMap Write.elements := by
  have hpre := List.take_prefix s.applied (pushes s.world)
  rwa [← hflow, h.log, List.flatMap_append, List.prefix_append_right_inj] at hpre

/-- A round that does not wait finds a whole write in the queue. -/
theorem Accounts.next (h : Accounts c l s₀ s done todo) {fuel : ℕ} {r}
    (hr : c.round fuel (s.inferencer, s.counter) = some r) :
    ∃ x rest todo', todo = x :: todo' ∧
      s.db.listAt .writequeue = some (rest ++ x.elements.reverse) ∧
      (done ++ [x]).flatMap Write.elements ++ rest.reverse =
        (pushes s.world).take s.applied := by
  obtain ⟨list, hlist, hflow⟩ := h.flow
  have hpre := h.queue_front hflow
  have hblocked : KvStore.redisAsyncWriteDequeue s.inferencer.store ≠ none := by
    intro hnone
    have hround : c.round fuel (s.inferencer, s.counter) = none := Loop.bind_of_none hnone _
    rw [hround] at hr
    cases hr
  cases todo with
  | nil =>
    rw [List.flatMap_nil, List.prefix_nil, List.reverse_eq_nil_iff] at hpre
    exact absurd (dequeue_empty h.settled (hpre ▸ hlist)) hblocked
  | cons x todo =>
    rw [List.flatMap_cons, Write.elements, List.cons_append, List.cons_append] at hpre
    rcases hrev : list.reverse with _ | ⟨a, _ | ⟨b, rest⟩⟩
    · rw [List.reverse_eq_nil_iff] at hrev
      exact absurd (dequeue_empty h.settled (hrev ▸ hlist)) hblocked
    · rw [hrev, List.cons_prefix_cons] at hpre
      rw [List.reverse_eq_cons_iff, List.reverse_nil, List.nil_append] at hrev
      exact absurd (dequeue_half h.settled (i64Bytes_length _) (hpre.1 ▸ hrev ▸ hlist)) hblocked
    · rw [hrev, List.cons_prefix_cons, List.cons_prefix_cons] at hpre
      obtain ⟨rfl, rfl, -⟩ := hpre
      refine ⟨x, rest.reverse, todo, rfl, ?_, ?_⟩
      · rw [hlist, ← List.reverse_reverse list, hrev, Write.elements]
        simp
      · rw [← hflow, hrev, List.flatMap_append, List.flatMap_singleton, List.reverse_reverse,
          Write.elements, List.append_assoc]
        rfl

theorem Accounts.infer (h : Accounts c l s₀ s done todo) (hservice : c.service = handleService)
    (hc : c.Geometry) (hl : l.Held s₀.db) {fuel : ℕ} {r}
    (hr : c.round (fuel + 1) (s.inferencer, s.counter) = some r) :
    ∃ t n x todo', r = .inl (t, n) ∧ todo = x :: todo' ∧
      Accounts c l s₀ { s with inferencer := t, counter := n } (done ++ [x]) todo' := by
  obtain ⟨x, rest, todo, rfl, hlist, hflow⟩ := h.next hr
  obtain ⟨messages, hmessages, hmirrored⟩ := h.mirrored
  have hx := h.bounds x List.mem_cons_self
  have hplain := h.plain x List.mem_cons_self
  have hsame : ∀ n, s.db.keys (.sector n) = s₀.db.keys (.sector n) :=
    fun n => h.keys _ (by simp) (by simp)
  rw [elements_eq hx] at hlist
  obtain ⟨t, hround, hst, hlist', hkeys, new, hnew, hfollow⟩ := Inspector.round_tracked hservice hc
    h.settled (hl.congr hsame fun n => h.keys _ (by simp) (by simp)) (w := queued x hx) hlist
    (hplain.blocks.congr hsame) s.counter fuel
  rw [hround, Option.some.injEq] at hr
  refine ⟨t, _, x, todo, hr.symm, rfl, fun y hy => h.bounds y (List.mem_cons_of_mem x hy),
    fun y hy => h.plain y (List.mem_cons_of_mem x hy), ?_, ?_, h.applied, ⟨rest, hlist', hflow⟩,
    hst, h.running, ?_, messages ++ new, ?_, ?_⟩
  · rw [List.append_assoc]
    exact h.log
  · rw [List.append_assoc]
    exact h.file
  · intro k hk hkq
    exact (hkeys k hk hkq).trans (h.keys k hk hkq)
  · rw [← List.append_assoc, ← hmessages]
    exact hnew
  · intro disk copies hm
    rw [Setup.copiesAfter_append, List.foldl_append, List.foldl_cons, List.foldl_nil, ← queued_apply hx hplain]
    exact hfollow _ _ (hmirrored disk copies hm)

end Accounts

/-- The change is a write that the inferencer can make out. -/
def Seen (c : Inspector KvStore.Handle) (l : Layout c.blockSize) (d : Db KvStore.Key) :
    Change → Prop
  | .write x => Plain c l d x
  | .trim _ _ => False

theorem accounts_step [DecidableEq ι] {S : Server} (hS : S.kernel.Whole)
    {c : Inspector KvStore.Handle} (hservice : c.service = handleService) (hc : c.Geometry)
    {l : Layout c.blockSize} {fuel : ℕ} {s₀ : Node ι} (hl : l.Held s₀.db) (seen : List Change)
    (s : Node ι) (e : Event ι) (t : Node ι)
    (hs : ∃ done todo, seen = (done ++ todo).map .write ∧ Accounts c l s₀ s done todo)
    (hseen : ∀ o ∈ (machine S c (fuel + 1) ι).sees s e, Seen c l s₀.db o)
    (h : step S c (fuel + 1) s e = some t) :
    ∃ done todo, seen ++ (machine S c (fuel + 1) ι).sees s e = (done ++ todo).map .write ∧
      Accounts c l s₀ t done todo := by
  obtain ⟨done, todo, rfl, hacc⟩ := hs
  cases e with
  | arrive i bytes =>
    obtain rfl := Option.some.inj h
    exact ⟨done, todo, List.append_nil _, hacc.bounds, hacc.plain, hacc.log, hacc.file,
      hacc.applied, hacc.flow, hacc.settled, hacc.running, hacc.keys, hacc.mirrored⟩
  | iterate i =>
    obtain ⟨r, hr, rfl⟩ := Option.map_eq_some_iff.mp h
    have hsees : (machine S c (fuel + 1) ι).sees s (.iterate i) = changes S (s.conn i) := rfl
    rw [hsees] at hseen ⊢
    have htrim : trims (s.conn i).asks = [] := by
      cases ha : trims (s.conn i).asks with
      | nil => rfl
      | cons o os =>
        have ho := hseen o (List.mem_append_right _ (by rw [ha]; exact List.mem_cons_self))
        unfold trims at ha
        split at ha
        · rw [← (List.cons.inj ha).1] at ho
          exact ho.elim
        · cases ha
    refine ⟨done, todo ++ executes S (s.conn i), ?_, hacc.iterate hS hr htrim fun x hx =>
      hseen (.write x) (List.mem_append_left _ (List.mem_map_of_mem hx))⟩
    rw [changes, htrim, List.append_nil, ← List.append_assoc, ← List.map_append]
  | apply =>
    simp only [step] at h
    obtain ⟨x, hx, h⟩ := Option.bind_eq_some_iff.mp h
    obtain ⟨⟨reply, db⟩, hexec, h⟩ := Option.bind_eq_some_iff.mp h
    obtain rfl := Option.some.inj h
    exact ⟨done, todo, List.append_nil _, hacc.apply hx hexec⟩
  | infer =>
    rw [step, if_neg (by rw [hacc.running]; simp)] at h
    obtain ⟨r, hr, rfl⟩ := Option.map_eq_some_iff.mp h
    obtain ⟨t, n, x, todo, rfl, rfl, hnext⟩ := hacc.infer hservice hc hl hr
    refine ⟨done ++ [x], todo, ?_, hnext⟩
    rw [List.append_assoc]
    exact List.append_nil _

section CatchUp

variable [DecidableEq ι] {S : Server} {c : Inspector KvStore.Handle} {l : Layout c.blockSize}
  {fuel : ℕ} {s₀ s : Node ι} {done todo : List Write}

theorem apply_all (h : Accounts c l s₀ s done todo) :
    ∃ n t, (machine S c fuel ι).run (List.replicate n .apply) s = some t ∧ t.world = s.world ∧
      t.applied = (pushes t.world).length ∧ Accounts c l s₀ t done todo := by
  obtain ⟨n, hn⟩ := Nat.exists_eq_add_of_le h.applied
  induction n generalizing s with
  | zero => exact ⟨0, s, rfl, rfl, hn.symm, h⟩
  | succ n ih =>
    have hlt : s.applied < (pushes s.world).length := by omega
    obtain ⟨list, hlist, -⟩ := h.flow
    obtain ⟨x, hx⟩ : ∃ x, (pushes s.world)[s.applied]? = some x :=
      ⟨_, List.getElem?_eq_getElem hlt⟩
    have hexec := exec_lpush hlist x
    have hstep : step S c fuel s .apply = some { s.setDb (s.db.putList .writequeue (x :: list)) with
        applied := s.applied + 1 } := by
      rw [step, Loop.bind_of_some hx, Loop.bind_of_some hexec]
    obtain ⟨k, t, hrun, hworld, hall, hacc⟩ := ih (h.apply hx hexec) (by
      change (pushes s.world).length = s.applied + 1 + n
      omega)
    refine ⟨k + 1, t, ?_, hworld, hall, hacc⟩
    rw [List.replicate_succ, Machine.run]
    exact (congrArg (Option.bind · _) hstep).trans hrun

theorem infer_all (hservice : c.service = handleService) (hc : c.Geometry) (hl : l.Held s₀.db)
    (h : Accounts c l s₀ s done todo) (hall : s.applied = (pushes s.world).length) :
    ∃ t, (machine S c (fuel + 1) ι).run (List.replicate todo.length .infer) s = some t ∧
      t.world = s.world ∧ Accounts c l s₀ t (done ++ todo) [] := by
  induction todo generalizing s done with
  | nil => exact ⟨s, rfl, rfl, by rwa [List.append_nil]⟩
  | cons x todo ih =>
    obtain ⟨list, hlist, hflow⟩ := h.flow
    rw [hall, List.take_length, h.log, List.flatMap_append, List.append_cancel_left_eq,
      List.reverse_eq_iff, List.flatMap_cons, List.reverse_append,
      elements_eq (h.bounds x List.mem_cons_self)] at hflow
    have hsame : ∀ n, s.db.keys (.sector n) = s₀.db.keys (.sector n) :=
      fun n => h.keys _ (by simp) (by simp)
    obtain ⟨t, hround, -⟩ := Inspector.round_tracked hservice hc h.settled
      (hl.congr hsame fun n => h.keys _ (by simp) (by simp))
      (w := queued x (h.bounds x List.mem_cons_self)) (hflow ▸ hlist)
      ((h.plain x List.mem_cons_self).blocks.congr hsame) s.counter fuel
    obtain ⟨t', n, y, rest, hr, hcons, hacc⟩ := h.infer hservice hc hl hround
    obtain ⟨rfl, rfl⟩ := List.cons.inj hcons
    have hstep : step S c (fuel + 1) s .infer =
        some { s with inferencer := t', counter := n } := by
      rw [step, if_neg (by rw [h.running]; simp), hround, hr]
      rfl
    obtain ⟨u, hrun, hworld, hfinal⟩ := ih hacc hall
    refine ⟨u, ?_, hworld, by rwa [List.append_assoc] at hfinal⟩
    rw [List.length_cons, List.replicate_succ, Machine.run]
    exact (congrArg (Option.bind · _) hstep).trans hrun

end CatchUp

def oneBlockNode : Node Unit where
  conns _ := oldConn ⟨[], 0, 0, []⟩
  world := ⟨List.replicate 2048 0, 0, 0, []⟩
  applied := 0
  inferencer := ⟨KvStore.redisInit oneBlockIndex 0, 0⟩
  counter := 0
  ended := false

def oneBlockEvents : List (Event Unit) :=
  [.arrive () (header .write 1 1024 512 ++ List.replicate 512 7), .iterate (), .apply, .apply,
    .infer]

theorem oneBlockNode_initial : Initial oneBlockNode :=
  ⟨rfl, rfl, rfl, KvStore.redisInit_settled oneBlockIndex 0, rfl⟩

theorem oneBlock_trace : (machine wholeServer oneBlockInspector 1 Unit).trace oneBlockEvents
    oneBlockNode = [.write ⟨1024, List.replicate 512 7⟩] := by decide +kernel

theorem oneBlock_seen (d : Db KvStore.Key) : ∀ o ∈ (machine wholeServer oneBlockInspector 1
    Unit).trace oneBlockEvents oneBlockNode, Seen oneBlockInspector oneBlock d o := by
  rw [oneBlock_trace, List.forall_mem_singleton]
  refine ⟨by decide, by decide +kernel, ?_⟩
  have hsector : 1024 / sectorSize = 2 := by decide
  have hlength : 512 / sectorSize = 1 := by decide
  dsimp only
  rw [List.length_replicate, hsector, hlength]
  exact oneBlock_plainWrite d

theorem diskOf_zeros (n : ℕ) : diskOf (List.replicate n 0) = fun _ => 0 := by
  funext i
  rw [diskOf, List.getElem?_replicate]
  split <;> rfl

theorem oneBlock_zeros : oneBlock.Mirrored (diskOf oneBlockNode.world.file) fun _ _ => 0 := by
  have hfile : diskOf oneBlockNode.world.file = fun _ => 0 := diskOf_zeros 2048
  rw [hfile]
  exact fun _ _ _ _ _ _ => rfl

theorem oneBlock_ran : ∃ s, (machine wholeServer oneBlockInspector 1 Unit).run oneBlockEvents
    oneBlockNode = some s := by
  have hsome : ((machine wholeServer oneBlockInspector 1 Unit).run oneBlockEvents
      oneBlockNode).isSome := by decide +kernel
  exact Option.isSome_iff_exists.mp hsome

end GammaRay.Monitor
