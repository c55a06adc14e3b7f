import GammaRay.NbdTransfers
import GammaRay.Observation

set_option autoImplicit false

/-!
# One disk for all clients

The clients of the server share one file and one handler, which runs from a request to its reply
without a break. On a kernel that fails a transfer or moves all of it they see a disk that deals
with one operation at a time.
-/
namespace GammaRay.Nbd
open Bytes Loop Observation

/-! ## A disk -/

inductive Operation where
  | read (offset length : ℕ)
  | write (offset : ℕ) (data : List UInt8)
  | flush
  | trim (offset : ℤ) (length : ℕ)
  deriving DecidableEq, Repr

structure Answer where
  err : ℕ
  data : List UInt8

/-- A write of nothing leaves the disk as long as it was. -/
def written (disk : List UInt8) (offset : ℕ) (data : List UInt8) : List UInt8 :=
  if data = [] then disk else store disk offset data

/-- What a disk may answer to an operation, and what becomes of it. An operation that fails does
nothing. -/
inductive Serves (disk : List UInt8) : Operation → Answer → List UInt8 → Prop where
  | read {offset length : ℕ} {data : List UInt8} (hlen : data.length = length)
      (hdata : data = (disk.drop offset).take length) :
      Serves disk (.read offset length) ⟨0, data⟩ disk
  | write (offset : ℕ) (data : List UInt8) :
      Serves disk (.write offset data) ⟨0, []⟩ (written disk offset data)
  | flush : Serves disk .flush ⟨0, []⟩ disk
  | trim (offset : ℤ) (length : ℕ) :
      Serves disk (.trim offset length) ⟨0, []⟩ (punch disk offset length)
  | fail {operation : Operation} {answer : Answer} (herr : answer.err ≠ 0) :
      Serves disk operation answer disk

/-! ## What an observer of the server sees -/

/-- A request with all its data, and the bytes that were sent in the iteration that took it. -/
structure Completed (ι : Type) where
  client : ι
  handle : ℕ
  operation : Operation
  reply : List UInt8
  deriving DecidableEq

def Completed.Served {ι : Type} (disk : List UInt8) (x : Completed ι) (disk' : List UInt8) : Prop :=
  ∃ answer : Answer, answer.err < 2 ^ 32 ∧
    x.reply = replyHeader answer.err x.handle ++ answer.data ∧
    Serves disk x.operation answer disk'

/-- The operation that the front of the input asks for, once the request is all there. -/
def Conn.asks (c : Conn) : Option Operation :=
  if c.client.state = .dataPushing ∧ 28 ≤ c.input.length ∧ c.request.magic = reqMagic then
    match Cmd.ofCode c.request.type with
    | some .read => some (.read c.request.offset c.request.length)
    | some .write =>
      if 28 + c.request.length ≤ c.input.length then
        some (.write c.request.offset (payload c.request c))
      else none
    | some .flush => some .flush
    | some .trim => some (.trim (i64 c.request.offset) c.request.length)
    | _ => none
  else none

def completes {ι : Type} (S : Server) (i : ι) (c : Conn) : List (Completed ι) :=
  match c.asks, clientHandler S c with
  | some operation, some r =>
    [⟨i, c.request.handle, operation, (r.elim id id).world.sent.drop c.world.sent.length⟩]
  | _, _ => []

/-- The system of clients, list and consumer, with the completed requests in view. -/
def serverMachine (S : Server) (ι : Type) [DecidableEq ι] :
    Machine (WriteQueue.System ι) (WriteQueue.Event ι) (Completed ι) where
  step := WriteQueue.step S
  sees s
    | .iterate i => completes S i (s.conn i)
    | _ => []

/-! ## Transfers -/

/-- A transfer fails or moves as much as it is asked for: no request is longer. -/
structure Kernel.Whole (K : Kernel) : Prop where
  read : ∀ {n k : ℕ}, K.read n = .ok k → 2 ^ 32 ≤ k
  write : ∀ {n k : ℕ}, K.write n = .ok k → 2 ^ 32 ≤ k

section Transfers

variable {K : Kernel}

theorem read_file (K : Kernel) (w : World) (len : ℕ) : (w.read K len).2.file = w.file := by
  unfold World.read
  split <;> rfl

theorem readLoop_zero (fuel : ℕ) (buf : List UInt8) (w : World) :
    readLoop K fuel buf 0 w = some (none, buf, w) := by
  cases fuel <;> rfl

theorem readLoop_file {fuel len : ℕ} {buf buf' : List UInt8} {w w' : World} {err : Option Errno}
    (h : readLoop K fuel buf len w = some (err, buf', w')) : w'.file = w.file := by
  induction fuel generalizing buf len w with
  | zero =>
    cases len with
    | zero =>
      simp only [readLoop, Option.some.injEq, Prod.mk.injEq] at h
      rw [h.2.2]
    | succ len => simp [readLoop] at h
  | succ fuel ih =>
    cases len with
    | zero =>
      simp only [readLoop, Option.some.injEq, Prod.mk.injEq] at h
      rw [h.2.2]
    | succ len =>
      have hw := read_file K w (len + 1)
      rcases hr : w.read K (len + 1) with ⟨e | data, w₁⟩
      · simp only [readLoop, hr, Option.some.injEq, Prod.mk.injEq] at h
        rw [← h.2.2, ← hw, hr]
      · simp only [readLoop, hr] at h
        split at h
        · simp at h
        · rw [ih h, ← hw, hr]

/-- At the end of the file the loop does not report success. -/
theorem readLoop_at_end {fuel len : ℕ} {buf buf' : List UInt8} {w w' : World}
    (hpos : 0 < len) (hend : w.file.length ≤ w.position) :
    readLoop K fuel buf len w ≠ some (none, buf', w') := by
  obtain ⟨len, rfl⟩ := Nat.exists_eq_add_one.mpr hpos
  cases fuel with
  | zero => simp [readLoop]
  | succ fuel =>
    have hempty : w.file.drop w.position = [] := List.drop_eq_nil_of_le hend
    rw [readLoop, World.read]
    cases K.read w.calls with
    | error e => simp
    | ok k => simp [hempty]

/-- One call brings everything, or the loop does not succeed. -/
theorem readLoop_whole (hK : K.Whole) {len : ℕ} (hlen : len < 2 ^ 32) {buf buf' : List UInt8}
    {w w' : World} (hbuf : buf.length = len)
    (h : readLoop K len buf len w = some (none, buf', w')) :
    buf' = (w.file.drop w.position).take len ∧ buf'.length = len := by
  cases len with
  | zero =>
    simp only [readLoop, Option.some.injEq, Prod.mk.injEq] at h
    rw [← h.2.1, List.take_zero, hbuf]
    exact ⟨List.length_eq_zero_iff.mp hbuf, rfl⟩
  | succ len =>
    rw [readLoop, World.read] at h
    cases hr : K.read w.calls with
    | error e => simp [hr] at h
    | ok k =>
      have hk := hK.read hr
      rw [hr] at h
      dsimp only at h
      rw [show min (max 1 k) (len + 1) = len + 1 by omega] at h
      set data := (w.file.drop w.position).take (len + 1) with hdata
      have hle : data.length ≤ len + 1 := List.length_take_le _ _
      split at h
      · cases h
      · rcases Nat.lt_or_ge data.length (len + 1) with hshort | hfull
        · refine absurd h (readLoop_at_end (by omega) ?_)
          rw [hdata, List.length_take, List.length_drop] at hshort
          change w.file.length ≤ w.position + data.length
          rw [hdata, List.length_take, List.length_drop]
          omega
        · rw [Nat.sub_eq_zero_of_le hfull] at h
          have hall : data.length = len + 1 := by omega
          have hbuf' : buf' = data := by
            rw [readLoop_zero, Option.some.injEq, Prod.mk.injEq, Prod.mk.injEq] at h
            rw [← h.2.1, splice, List.take_zero, List.nil_append, Nat.zero_add,
              List.drop_eq_nil_of_le (by omega), List.append_nil]
          exact ⟨hbuf', hbuf' ▸ hall⟩

theorem seekRead_whole (hK : K.Whole) {len : ℕ} (hlen : len < 2 ^ 32) {buf buf' : List UInt8}
    {offset : ℤ} {w w' : World} {err : Option Errno} (hbuf : buf.length = len)
    (h : seekRead K offset len buf w = some (err, buf', w')) :
    w'.file = w.file ∧ (err = none → 0 ≤ offset ∧
      buf' = (w.file.drop offset.toNat).take len ∧ buf'.length = len) := by
  have hfile := lseek_file K w offset
  unfold seekRead at h
  by_cases hneg : offset < 0
  · rw [World.lseek, if_pos hneg] at h
    simp only [Option.some.injEq, Prod.mk.injEq] at h
    rw [← h.1, ← h.2.2]
    exact ⟨rfl, by simp⟩
  · rw [World.lseek, if_neg hneg] at h hfile
    cases hl : K.lseek w.calls with
    | some e =>
      simp only [hl, Option.some.injEq, Prod.mk.injEq] at h
      rw [← h.1, ← h.2.2]
      exact ⟨rfl, by simp⟩
    | none =>
      rw [hl] at h hfile
      dsimp only at h
      refine ⟨(readLoop_file h).trans rfl, fun herr => ⟨by omega, ?_⟩⟩
      rw [herr] at h
      exact readLoop_whole hK hlen hbuf h

variable {S : Server}

/-- One call takes everything, or fails and leaves the file alone. -/
theorem writeLoop_atomic (hS : S.kernel.Whole) {data : List UInt8} (hlen : data.length < 2 ^ 32)
    {w w' : World} {err : Option Errno}
    (h : writeLoop S data data.length data.length 0 w = some (err, w')) :
    w'.file = if err = none then written w.file w.position data else w.file := by
  unfold written
  rcases Nat.eq_zero_or_pos data.length with hzero | hpos
  · rw [hzero] at h
    simp only [writeLoop, lt_irrefl, if_false, Option.some.injEq, Prod.mk.injEq] at h
    rw [if_pos h.1.symm, if_pos (List.length_eq_zero_iff.mp hzero), h.2]
  have hne : data ≠ [] := List.length_pos_iff.mp hpos
  obtain ⟨m, hm⟩ := Nat.exists_eq_add_one.mpr hpos
  rw [hm, writeLoop, if_pos (Nat.succ_pos m), ← hm, List.drop_zero, List.take_left,
    World.write] at h
  cases hr : S.kernel.write w.calls with
  | error e =>
    simp only [hr, Option.some.injEq, Prod.mk.injEq] at h
    rw [if_neg (by rw [← h.1]; simp), ← h.2]
    rfl
  | ok k =>
    have hk := hS.write hr
    rw [hr] at h
    dsimp only at h
    rw [show max 1 (min k data.length) = data.length by omega, List.take_length] at h
    have hdone : ∀ v, writeLoop S data data.length m (0 + data.length) v = some (none, v) := by
      intro v
      cases m with
      | zero => rw [writeLoop, if_neg (by omega)]
      | succ m => rw [writeLoop, if_neg (by omega)]
    rw [hdone, Option.some.injEq, Prod.mk.injEq] at h
    rw [if_pos h.1.symm, if_neg hne, ← h.2]

theorem seekWrite_atomic (hS : S.kernel.Whole) {data : List UInt8} (hlen : data.length < 2 ^ 32)
    {offset : ℤ} {w w' : World} {err : Option Errno}
    (h : seekWrite S offset data w = some (err, w')) :
    (err = none → 0 ≤ offset ∧ w'.file = written w.file offset.toNat data) ∧
      (err ≠ none → w'.file = w.file) := by
  unfold seekWrite at h
  by_cases hneg : offset < 0
  · rw [World.lseek, if_pos hneg] at h
    simp only [Option.some.injEq, Prod.mk.injEq] at h
    rw [← h.1, ← h.2]
    exact ⟨by simp, fun _ => rfl⟩
  rw [World.lseek, if_neg hneg] at h
  cases hl : S.kernel.lseek w.calls with
  | some e =>
    simp only [hl, Option.some.injEq, Prod.mk.injEq] at h
    rw [← h.1, ← h.2]
    exact ⟨by simp, fun _ => rfl⟩
  | none =>
    rw [hl] at h
    dsimp only at h
    cases hw : writeLoop S data data.length data.length 0
        { w.called with position := offset.toNat } with
    | none => rw [bind_of_none hw] at h; cases h
    | some r =>
      obtain ⟨e, w₁⟩ := r
      rw [bind_of_some hw] at h
      have hfile := writeLoop_atomic hS hlen hw
      cases e with
      | none =>
        simp only [Option.some.injEq, Prod.mk.injEq] at h
        rw [← h.1, ← h.2]
        exact ⟨fun _ => ⟨by omega, hfile⟩, fun hne => absurd rfl hne⟩
      | some e =>
        simp only [Option.some.injEq, Prod.mk.injEq] at h
        rw [← h.1, ← h.2]
        exact ⟨by simp, fun _ => hfile⟩

end Transfers

/-! ## One iteration -/

section Iteration

variable {S : Server} {c t : Conn} {ret : Bool}

/-- The answer to an operation has gone out, and the file is what the disk would be. -/
def Replies (c t : Conn) (operation : Operation) : Prop :=
  ∃ answer : Answer, answer.err < 2 ^ 32 ∧
    t.world.sent = c.world.sent ++ (replyHeader answer.err c.request.handle ++ answer.data) ∧
    Serves c.world.file operation answer t.world.file

theorem request_bounds (c : Conn) : c.request.offset < 2 ^ 64 ∧ c.request.length < 2 ^ 32 := by
  constructor
  · refine (beNat_lt _).trans_le ((Nat.pow_le_pow_right (by decide) ?_).trans
      (by decide : 256 ^ 8 ≤ 2 ^ 64))
    exact List.length_take_le _ _
  · refine (beNat_lt _).trans_le ((Nat.pow_le_pow_right (by decide) ?_).trans
      (by decide : 256 ^ 4 ≤ 2 ^ 32))
    exact List.length_take_le _ _

theorem read_replies (hS : S.kernel.Whole) (hr : RequestAt c .read)
    (h : dispatchRequest S c.request c = some (ret, t)) :
    Replies c t (.read c.request.offset c.request.length) := by
  obtain ⟨hoff, hlen⟩ := request_bounds c
  rw [dispatchRequest_read S hr.magic hr.type] at h
  cases hb : S.memory.realloc c.client.buf c.request.length with
  | none =>
    have hnone : handleRead S c.request c = none := bind_of_none hb _
    rw [bind_of_none hnone] at h
    cases h
  | some buf =>
    cases hs : seekRead S.kernel (i64 c.request.offset) c.request.length buf c.world with
    | none =>
      have hnone : handleRead S c.request c = none := (bind_of_some hb _).trans (bind_of_none hs _)
      rw [bind_of_none hnone] at h
      cases h
    | some q =>
      obtain ⟨err, buf', w⟩ := q
      have hread : handleRead S c.request c =
          some (errCode err, { c.setBuf buf' with world := w }) :=
        (bind_of_some hb _).trans (bind_of_some hs _)
      rw [bind_of_some hread] at h
      dsimp only at h
      rw [if_neg (errCode_ne err), Option.some.injEq, Prod.mk.injEq] at h
      obtain ⟨hfile, hbytes⟩ := seekRead_whole hS hlen (realloc_length hb) hs
      have hsent : w.sent = c.world.sent := sent_of_onlyWrites (.of_eq (seekRead_effects hs))
      refine ⟨⟨errCode err, buf'.take c.request.length⟩, errCode_lt err, ?_, ?_⟩
      · rw [← h.2]
        exact (sent_sendResponse_data _ _ _ _ _).trans (by rw [hsent])
      · have hworld : t.world.file = c.world.file := by
          rw [← h.2]
          exact (sendResponse_file _ _ _ _ _).trans hfile
        rw [hworld]
        cases err with
        | some e => exact .fail (Nat.ne_of_gt e.pos)
        | none =>
          obtain ⟨hnonneg, hdata, hfull⟩ := hbytes rfl
          rw [i64_toNat_of_nonneg hoff hnonneg] at hdata
          rw [List.take_of_length_le hfull.le]
          exact .read hfull hdata

theorem write_replies (hS : S.kernel.Whole) (hr : RequestAt c .write)
    (hfull : 28 + c.request.length ≤ c.input.length)
    (h : dispatchRequest S c.request c = some (ret, t)) :
    Replies c t (.write c.request.offset (payload c.request c)) := by
  obtain ⟨hoff, hlen⟩ := request_bounds c
  rw [dispatchRequest_write S hr.magic hr.type] at h
  cases hb : S.memory.realloc c.client.buf c.request.length with
  | none =>
    have hnone : handleWrite S c.request c = none := bind_of_none hb _
    rw [bind_of_none hnone] at h
    cases h
  | some buf =>
    obtain ⟨err, w, hs, -⟩ := seekWrite_ends S (i64 c.request.offset) (payload c.request c) c.world
    have hwrite : handleWrite S c.request c =
        some (errCode err, { (c.drain 28).countWrite (payload c.request c) with world := w }) := by
      rw [handleWrite_full hb hfull]
      exact congrArg (Option.map _) hs
    rw [bind_of_some hwrite] at h
    dsimp only at h
    rw [if_neg (errCode_ne err), Option.some.injEq, Prod.mk.injEq] at h
    obtain ⟨hok, hfail⟩ := seekWrite_atomic hS (by rwa [payload_length hfull]) hs
    have hworld : t.world.file = w.file := by
      rw [← h.2]
      exact sendResponse_file _ _ _ _ _
    refine ⟨⟨errCode err, []⟩, errCode_lt err, ?_, ?_⟩
    · rw [← h.2]
      exact (sent_sendResponse _ _ _).trans (by rw [sent_seekWrite hs, List.append_nil])
    · rw [hworld]
      cases err with
      | some e =>
        rw [hfail (by simp)]
        exact .fail (Nat.ne_of_gt e.pos)
      | none =>
        obtain ⟨hnonneg, hfile⟩ := hok rfl
        rw [hfile, i64_toNat_of_nonneg hoff hnonneg]
        exact .write _ _

theorem flush_replies (hr : RequestAt c .flush)
    (h : dispatchRequest S c.request c = some (ret, t)) : Replies c t .flush := by
  rw [dispatchRequest_flush S hr.magic hr.type, Option.some.injEq, Prod.mk.injEq] at h
  have hsent : (c.world.fsync S.kernel).2.sent = c.world.sent :=
    (sent_emit _ _).trans (List.append_nil _)
  refine ⟨⟨errCode (c.world.fsync S.kernel).1, []⟩, errCode_lt _, ?_, ?_⟩
  · rw [← h.2]
    exact (sent_sendResponse _ _ _).trans (by rw [hsent, List.append_nil])
  · have hworld : t.world.file = c.world.file := by
      rw [← h.2]
      exact sendResponse_file _ _ _ _ _
    rw [hworld]
    cases (c.world.fsync S.kernel).1 with
    | some e => exact .fail (Nat.ne_of_gt e.pos)
    | none => exact .flush

theorem trim_replies (hr : RequestAt c .trim)
    (h : dispatchRequest S c.request c = some (ret, t)) :
    Replies c t (.trim (i64 c.request.offset) c.request.length) := by
  rw [dispatchRequest_trim S hr.magic hr.type, Option.some.injEq, Prod.mk.injEq] at h
  set r := c.world.fallocate S.kernel (i64 c.request.offset) c.request.length with hrdef
  have hworld : t.world.file = r.2.file := by
    rw [← h.2]
    exact sendResponse_file _ _ _ _ _
  have hsent : r.2.sent = c.world.sent := by
    rw [hrdef, World.fallocate]
    split
    · exact (sent_emit _ _).trans (List.append_nil _)
    · exact (sent_emit _ _).trans (List.append_nil _)
  refine ⟨⟨errCode r.1, []⟩, errCode_lt _, ?_, ?_⟩
  · rw [← h.2]
    exact (sent_sendResponse _ _ _).trans (by rw [hsent, List.append_nil])
  · rw [hworld, hrdef, World.fallocate]
    cases S.kernel.fallocate c.world.calls with
    | some e => exact .fail (Nat.ne_of_gt e.pos)
    | none => exact .trim _ _

theorem asks_cases {operation : Operation} (h : c.asks = some operation) :
    RequestAt c .read ∧ operation = .read c.request.offset c.request.length ∨
      (RequestAt c .write ∧ 28 + c.request.length ≤ c.input.length ∧
        operation = .write c.request.offset (payload c.request c)) ∨
      RequestAt c .flush ∧ operation = .flush ∨
      RequestAt c .trim ∧ operation = .trim (i64 c.request.offset) c.request.length := by
  unfold Conn.asks at h
  split at h
  swap
  · cases h
  rename_i hfront
  obtain ⟨hstate, hlen, hmagic⟩ := hfront
  split at h
  · exact .inl ⟨⟨hstate, hlen, hmagic, by assumption⟩, (Option.some.inj h).symm⟩
  · split at h
    · exact .inr (.inl ⟨⟨hstate, hlen, hmagic, by assumption⟩, by assumption,
        (Option.some.inj h).symm⟩)
    · cases h
  · exact .inr (.inr (.inl ⟨⟨hstate, hlen, hmagic, by assumption⟩, (Option.some.inj h).symm⟩))
  · exact .inr (.inr (.inr ⟨⟨hstate, hlen, hmagic, by assumption⟩, (Option.some.inj h).symm⟩))
  · cases h

/-- An operation that is asked for is answered in the same iteration. -/
theorem replies_of_asks (hS : S.kernel.Whole) {operation : Operation} {r : Conn ⊕ Conn}
    (ha : c.asks = some operation) (h : clientHandler S c = some r) :
    Replies c (r.elim id id) operation := by
  have hc : c.closed = false := by
    by_contra hc
    rw [clientHandler_closed S (by simpa using hc)] at h
    cases h
  have hdispatch : ∀ {cmd : Cmd}, RequestAt c cmd →
      ∃ ret, dispatchRequest S c.request c = some (ret, r.elim id id) := by
    intro cmd hr
    rw [dispatch_of_request S hc hr, Option.map_eq_some_iff] at h
    obtain ⟨⟨ret, t⟩, ht, rfl⟩ := h
    exact ⟨ret, by rw [WriteQueue.proceed_elim]; exact ht⟩
  rcases asks_cases ha with ⟨hr, rfl⟩ | ⟨hr, hfull, rfl⟩ | ⟨hr, rfl⟩ | ⟨hr, rfl⟩
  · exact read_replies hS hr (hdispatch hr).choose_spec
  · exact write_replies hS hr hfull (hdispatch hr).choose_spec
  · exact flush_replies hr (hdispatch hr).choose_spec
  · exact trim_replies hr (hdispatch hr).choose_spec

/-! ### Iterations that answer nothing -/

/-- What `check_zero_handshake` makes of a connection. -/
inductive HandshakeStep (c : Conn) : Conn → Prop where
  | wait : HandshakeStep c c
  | reject : HandshakeStep c (c.setState .disconnected)
  | accept {rest : List UInt8} (h : c.input = [0, 0, 0, 0] ++ rest) :
      HandshakeStep c ((c.drain 4).setState .zeroReceived)

theorem take_of_pullup {input peek : List UInt8} {n : ℕ} (h : pullup input n = some peek) :
    n ≤ input.length ∧ peek = input.take n ∧ peek.length = n := by
  unfold pullup at h
  split at h
  · cases h
  · have hle : n ≤ input.length := by omega
    obtain rfl := Option.some.inj h
    exact ⟨hle, rfl, List.length_take_of_le hle⟩

theorem checkZeroHandshake_step (c : Conn) : HandshakeStep c (checkZeroHandshake c).2 := by
  unfold checkZeroHandshake
  split
  · exact .wait
  · rename_i peek hp
    obtain ⟨-, hpeek, hlen⟩ := take_of_pullup hp
    split
    · exact .reject
    · rename_i hzero
      have hbytes := leBytes_leNat peek
      rw [not_not.mp hzero, hlen] at hbytes
      apply @HandshakeStep.accept c (c.input.drop 4)
      rw [show [0, 0, 0, 0] = leBytes 4 0 from rfl, hbytes, hpeek, List.take_append_drop]

/-- What `check_opt_header` makes of one. -/
inductive OptionStep (S : Server) (c : Conn) : Conn → Prop where
  | wait : OptionStep S c c
  | reject (n : ℕ) : OptionStep S c ((c.drain n).setState .disconnected)
  | unsupported (option : List UInt8) :
      OptionStep S c { c with world := sendUnsupportedOpt option c.world }
  | grant {name rest : List UInt8} (hlen : name.length = S.handle.nameLen)
      (hname : strncmpEq name.length name (S.handle.exportName ++ [0]))
      (h : c.input = exportOption name ++ (name ++ rest)) :
      OptionStep S c { ((c.drain 16).setState .dataPushing).drain name.length with
        world := sendExportInfo S.handle c.world }

theorem beBytes_beNat (bs : List UInt8) {w n : ℕ} (hlen : bs.length = w) (h : beNat bs = n) :
    bs = beBytes w n := by
  rw [← h, ← hlen, beBytes, beNat, ← List.length_reverse, leBytes_leNat, List.reverse_reverse]

theorem matchExportName_step {name : List UInt8} (hlen : name.length = S.handle.nameLen)
    (hi : c.input = exportOption name ++ c.input.drop 16) :
    OptionStep S c (matchExportName S name.length (c.drain 16)) := by
  unfold matchExportName
  split
  · exact .reject 16
  · rename_i peek hp
    obtain ⟨-, hpeek, hpl⟩ := take_of_pullup hp
    split
    · rename_i hname
      have hexport : exportOption peek = exportOption name := by
        rw [exportOption, exportOption, hpl]
      rw [← hpl] at hname ⊢
      apply @OptionStep.grant S c peek ((c.input.drop 16).drop name.length) (hpl.trans hlen) hname
      rw [hexport, hpeek]
      change c.input = exportOption name ++ ((c.input.drop 16).take name.length ++ _)
      rw [List.take_append_drop]
      exact hi
    · exact .reject 16

theorem checkOptHeader_step (S : Server) (c : Conn) : OptionStep S c (checkOptHeader S c).2 := by
  unfold checkOptHeader
  split
  · exact .wait
  · rename_i peek hp
    obtain ⟨h16, hpeek, hlen⟩ := take_of_pullup hp
    unfold dispatchOption
    dsimp only
    split
    swap
    · exact .reject 0
    rename_i hmagic
    split
    · rename_i hoption
      unfold checkExportName
      split
      · exact .reject 0
      · rename_i hname
        rw [not_not] at hname
        split
        · exact .wait
        · have hbytes : peek = exportOption (List.replicate (beNat (peek.drop 12)) 0) := by
            rw [exportOption, List.length_replicate,
              ← beBytes_beNat (peek.take 8) (by rw [List.length_take]; omega) hmagic,
              ← beBytes_beNat ((peek.drop 8).take 4)
                (by rw [List.length_take, List.length_drop]; omega) hoption,
              ← beBytes_beNat (peek.drop 12) (by rw [List.length_drop]; omega) rfl,
              show peek.drop 12 = (peek.drop 8).drop 4 by rw [List.drop_drop],
              List.take_append_drop, List.take_append_drop]
          have hstep := @matchExportName_step S c (List.replicate (beNat (peek.drop 12)) 0)
            (by rw [List.length_replicate, hname])
            (by rw [← hbytes, hpeek, List.take_append_drop])
          rwa [List.length_replicate] at hstep
    · split
      · exact .reject 0
      · exact .unsupported _

theorem HandshakeStep.file_eq (h : HandshakeStep c t) : t.world.file = c.world.file := by
  cases h <;> rfl

theorem OptionStep.file_eq (h : OptionStep S c t) : t.world.file = c.world.file := by
  cases h <;> rfl

/-- A request that waits for its data, ends the connection or is none. -/
theorem dispatchRequest_file (hstate : c.client.state = .dataPushing)
    (hlen : 28 ≤ c.input.length) (ha : c.asks = none)
    (h : dispatchRequest S c.request c = some (ret, t)) : t.world.file = c.world.file := by
  by_cases hmagic : c.request.magic = reqMagic
  swap
  · rw [dispatchRequest, if_neg hmagic, Option.some.injEq, Prod.mk.injEq] at h
    rw [← h.2]
  rw [Conn.asks, if_pos ⟨hstate, hlen, hmagic⟩] at ha
  cases hcmd : Cmd.ofCode c.request.type with
  | none =>
    rw [dispatchRequest, if_pos hmagic, hcmd, Option.some.injEq, Prod.mk.injEq] at h
    rw [← h.2, unknownCommand]
    cases pullup c.input (28 + c.request.length) <;> rfl
  | some cmd =>
    rw [hcmd] at ha
    cases cmd with
    | read => cases ha
    | flush => cases ha
    | trim => cases ha
    | disc =>
      rw [dispatchRequest, if_pos hmagic, hcmd, Option.some.injEq, Prod.mk.injEq] at h
      rw [← h.2]
      rfl
    | write =>
      have hshort : c.input.length < 28 + c.request.length := by
        by_contra hge
        rw [if_pos (by omega)] at ha
        cases ha
      rw [dispatchRequest_write S hmagic hcmd] at h
      cases hb : S.memory.realloc c.client.buf c.request.length with
      | none =>
        have hnone : handleWrite S c.request c = none := bind_of_none hb _
        rw [bind_of_none hnone] at h
        cases h
      | some buf =>
        rw [bind_of_some (handleWrite_short hb hshort)] at h
        dsimp only at h
        rw [if_pos rfl, Option.some.injEq, Prod.mk.injEq] at h
        rw [← h.2]
        rfl

theorem file_of_not_asks {r : Conn ⊕ Conn} (ha : c.asks = none)
    (h : clientHandler S c = some r) : (r.elim id id).world.file = c.world.file := by
  have hc : c.closed = false := by
    by_contra hc
    rw [clientHandler_closed S (by simpa using hc)] at h
    cases h
  by_cases hi : c.input = []
  · rw [clientHandler_idle S hc hi, Option.some.injEq] at h
    rw [← h]
    rfl
  rw [clientHandler_eq S hc hi, Option.map_eq_some_iff] at h
  obtain ⟨q, hq, rfl⟩ := h
  rw [WriteQueue.proceed_elim]
  cases hst : c.client.state with
  | handshakeSent =>
    rw [hst] at hq
    rw [← Option.some.inj hq]
    exact (checkZeroHandshake_step c).file_eq
  | zeroReceived =>
    rw [hst] at hq
    rw [← Option.some.inj hq]
    exact (checkOptHeader_step S c).file_eq
  | disconnected =>
    rw [hst] at hq
    rw [← Option.some.inj hq]
    rfl
  | optionSetting =>
    rw [hst] at hq
    rw [← Option.some.inj hq]
  | dataPushing =>
    rw [hst] at hq
    change checkRequest S c = some q at hq
    unfold checkRequest at hq
    split at hq
    · rw [← Option.some.inj hq]
    · rename_i peek hp
      obtain ⟨hlen, hpeek, -⟩ := take_of_pullup hp
      rw [hpeek] at hq
      exact dispatchRequest_file hst hlen ha hq

/-- What an iteration completes is what the disk would have done. -/
theorem completes_served {ι : Type} (hS : S.kernel.Whole) (i : ι) {r : Conn ⊕ Conn}
    (h : clientHandler S c = some r) :
    Explains Completed.Served c.world.file (completes S i c) (r.elim id id).world.file := by
  cases ha : c.asks with
  | none =>
    rw [completes, ha, file_of_not_asks ha h]
    exact .nil _
  | some operation =>
    obtain ⟨answer, herr, hsent, hserves⟩ := replies_of_asks hS ha h
    rw [completes, ha, h]
    refine explains_singleton ⟨answer, herr, ?_, hserves⟩
    dsimp only
    rw [hsent, List.drop_left]

end Iteration

/-! ## Runs -/

theorem serverMachine_run (S : Server) {ι : Type} [DecidableEq ι] (events : List (WriteQueue.Event ι))
    (s : WriteQueue.System ι) : (serverMachine S ι).run events s = WriteQueue.run S events s := by
  induction events generalizing s with
  | nil => rfl
  | cons e events ih =>
    rw [Machine.run, WriteQueue.run]
    exact congrArg _ (funext ih)

/-- Whatever the clients send and in whatever order they are served: the completed requests, in
the order of their completion, are dealt with as by one disk that starts with the content of the
file, and the file ends with that disk's. -/
theorem requests_served_as_disk (S : Server) (hS : S.kernel.Whole) {ι : Type} [DecidableEq ι]
    (events : List (WriteQueue.Event ι)) (s t : WriteQueue.System ι)
    (h : WriteQueue.run S events s = some t) :
    Explains Completed.Served s.world.file ((serverMachine S ι).trace events s) t.world.file := by
  rw [← serverMachine_run] at h
  refine explains_run (I := fun _ => True) (fun s => s.world.file) (fun _ _ _ _ _ => trivial) ?_
    trivial h
  intro s e t _ hstep
  cases e with
  | arrive i bytes =>
    obtain rfl := Option.some.inj hstep
    exact .nil _
  | iterate i =>
    obtain ⟨r, hr, rfl⟩ := Option.map_eq_some_iff.mp hstep
    exact completes_served hS i hr
  | apply =>
    obtain ⟨x, -, rfl⟩ := Option.map_eq_some_iff.mp hstep
    exact .nil _
  | pop =>
    have hkeep : t.world = s.world := by
      simp only [serverMachine, WriteQueue.step] at hstep
      split at hstep
      · cases hstep
      · obtain ⟨x, -, rfl⟩ := Option.map_eq_some_iff.mp hstep
        rfl
    rw [hkeep]
    exact .nil _

def wholeServer : Server where
  handle := ⟨8, [0x78], letter_noNul⟩
  kernel := ⟨fun _ => none, fun _ => .ok (2 ^ 32), fun _ => .ok (2 ^ 32), fun _ => none,
    fun _ => none⟩
  memory := { zeroHeap with behind := fun n => List.replicate n 0 }

theorem wholeServer_whole : wholeServer.kernel.Whole :=
  ⟨fun h => (Except.ok.inj h).le, fun h => (Except.ok.inj h).le⟩

/-- Two clients of the old style on a disk of eight bytes. -/
def twoClients : WriteQueue.System Bool where
  conns _ := oldConn ⟨[], 0, 0, []⟩
  world := ⟨List.replicate 8 0, 0, 0, []⟩
  executed := []
  applied := 0
  list := []
  consumer := ⟨.idle, []⟩

/-- The request of one client arrives in between the parts of the other's. -/
def twoClientsEvents : List (WriteQueue.Event Bool) :=
  [.arrive false (header .write 1 4 2 ++ [7]), .iterate false,
    .arrive true (header .read 2 3 4), .arrive false [8], .iterate false, .iterate true]

theorem requests_served_twoClients :
    ∃ t, WriteQueue.run wholeServer twoClientsEvents twoClients = some t ∧
      (serverMachine wholeServer Bool).trace twoClientsEvents twoClients =
        [⟨false, 1, .write 4 [7, 8], replyHeader 0 1⟩,
          ⟨true, 2, .read 3 4, replyHeader 0 2 ++ [0, 7, 8, 0]⟩] ∧
      Explains Completed.Served twoClients.world.file
        ((serverMachine wholeServer Bool).trace twoClientsEvents twoClients) t.world.file := by
  have hsome : (WriteQueue.run wholeServer twoClientsEvents twoClients).isSome := by
    decide +kernel
  obtain ⟨t, ht⟩ := Option.isSome_iff_exists.mp hsome
  exact ⟨t, ht, by decide +kernel,
    requests_served_as_disk wholeServer wholeServer_whole twoClientsEvents twoClients t ht⟩

end GammaRay.Nbd
