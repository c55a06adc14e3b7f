import GammaRay.NbdResume

set_option autoImplicit false

/-!
# The write log between the server and the inferencer

`handle_write` logs a write as two elements of the Redis list `writequeue`, its sector and
its data; `redis_async_write_dequeue` takes two elements off the other end. Redis applies
the commands of the server one by one and in their order, at any time after they were sent.
-/
namespace GammaRay.WriteQueue
open Bytes Loop Nbd

/-- A write of the exported file: `__handle_write` returned 0 for it. -/
structure Write where
  offset : ℕ
  data : List UInt8

/-- The fields of `struct qemu_bdrv_write` that a dequeue fills in. -/
structure Record where
  sectorNum : ℤ
  nbSectors : ℤ
  data : List UInt8
  deriving DecidableEq

/-- The two elements that stand for a write. -/
def Write.elements (x : Write) : List (List UInt8) :=
  [i64Bytes ((i64 x.offset).tdiv 512), x.data]

/-- Where the consumer is in `redis_async_write_dequeue`. -/
inductive Phase where
  | idle
  | got (sectorNum : ℤ)
  | exited
  deriving DecidableEq

structure Consumer where
  phase : Phase
  obtained : List Record

/-- The reply to a `BRPOP`: a sector number must have eight bytes. -/
def Consumer.receive (c : Consumer) (x : List UInt8) : Consumer :=
  match c.phase with
  | .idle =>
    if x.length = 8 then { c with phase := .got (i64 (leNat x)) } else { c with phase := .exited }
  | .got sectorNum =>
    ⟨.idle, c.obtained ++ [⟨sectorNum, i32 ((x.length / 512 : ℕ) : ℤ), x⟩]⟩
  | .exited => c

def pushed : Effect → Option (List UInt8)
  | .lpush bytes => some bytes
  | _ => none

/-- The `LPUSH` commands of the server so far. -/
def pushes (w : World) : List (List UInt8) := w.effects.filterMap pushed

/-- The write that a request executes, if it does. -/
def executesRequest (S : Server) (req : ReqHeader) (c : Conn) : List Write :=
  if req.magic = reqMagic ∧ Cmd.ofCode req.type = some .write then
    match handleWrite S req c with
    | some (0, _) => [⟨req.offset, (c.input.drop 28).take req.length⟩]
    | _ => []
  else []

/-- The same for one iteration of the client handler. -/
def executes (S : Server) (c : Conn) : List Write :=
  match c.client.state, pullup c.input 28 with
  | .dataPushing, some peek => executesRequest S (ReqHeader.parse peek) c
  | _, _ => []

/-- Any number of clients on one server, the list, and the one consumer. `executed` is what
an observer of the server notes down. -/
structure System (ι : Type) where
  conns : ι → Conn
  world : World
  executed : List Write
  applied : ℕ
  list : List (List UInt8)
  consumer : Consumer

/-- The connection of a client, seen with the world all clients share. -/
def System.conn {ι : Type} (s : System ι) (i : ι) : Conn := { s.conns i with world := s.world }

/-- Bytes reach a client's connection, a client's handler does one iteration, Redis applies
the next command of the server, the consumer gets the reply to a `BRPOP`. -/
inductive Event (ι : Type) where
  | arrive (i : ι) (bytes : List UInt8)
  | iterate (i : ι)
  | apply
  | pop

/-- `LPUSH` adds at the head of the list and `BRPOP`, which waits for an element, takes off
its tail. -/
def step {ι : Type} [DecidableEq ι] (S : Server) (s : System ι) : Event ι → Option (System ι)
  | .arrive i bytes => some { s with
      conns := Function.update s.conns i ((s.conns i).add bytes) }
  | .iterate i => (clientHandler S (s.conn i)).map fun r => { s with
      conns := Function.update s.conns i (r.elim id id)
      world := (r.elim id id).world
      executed := s.executed ++ executes S (s.conn i) }
  | .apply => (pushes s.world)[s.applied]?.map fun x => { s with
      applied := s.applied + 1
      list := x :: s.list }
  | .pop =>
    if s.consumer.phase = .exited then none
    else s.list.getLast?.map fun x => { s with
      list := s.list.dropLast
      consumer := s.consumer.receive x }

def run {ι : Type} [DecidableEq ι] (S : Server) : List (Event ι) → System ι → Option (System ι)
  | [], s => some s
  | e :: events, s => (step S s e).bind (run S events)

/-- Fresh connections of either style, an empty list and a consumer that has done nothing. -/
structure Initial {ι : Type} (s : System ι) : Prop where
  conns : ∀ i, ∃ w, s.conns i = newConn w ∨ s.conns i = oldConn w
  world : s.world.effects = []
  executed : s.executed = []
  applied : s.applied = 0
  list : s.list = []
  consumer : s.consumer = ⟨.idle, []⟩

section Pushes

variable {S : Server}

theorem pushes_emit_of_none {w : World} {e : Effect} (he : pushed e = none) :
    pushes (w.emit e) = pushes w := by
  simp [pushes, World.emit, he]

theorem pushes_emit_lpush (w : World) (x : List UInt8) :
    pushes (w.emit (.lpush x)) = pushes w ++ [x] := by
  simp [pushes, World.emit, pushed]

theorem pushes_lseek (K : Kernel) (w : World) (offset : ℤ) :
    pushes (w.lseek K offset).2 = pushes w := by
  unfold World.lseek
  split
  · rfl
  · split <;> rfl

theorem pushes_read (K : Kernel) (w : World) (len : ℕ) :
    pushes (w.read K len).2 = pushes w := by
  unfold World.read
  split <;> rfl

theorem pushes_write (K : Kernel) (w : World) (data : List UInt8) :
    pushes (w.write K data).2 = pushes w := by
  unfold World.write
  split
  · rfl
  · exact pushes_emit_of_none rfl

theorem pushes_readLoop {K : Kernel} {fuel : ℕ} {buf buf' : List UInt8} {len : ℕ} {w w' : World}
    {err : Option Errno} (h : readLoop K fuel buf len w = some (err, buf', w')) :
    pushes w' = pushes w := by
  induction fuel generalizing buf len w with
  | zero =>
    cases len with
    | zero =>
      simp only [readLoop, Option.some.injEq, Prod.mk.injEq] at h
      rw [h.2.2]
    | succ len => simp [readLoop] at h
  | succ fuel ih =>
    cases len with
    | zero =>
      simp only [readLoop, Option.some.injEq, Prod.mk.injEq] at h
      rw [h.2.2]
    | succ len =>
      have hw := pushes_read K w (len + 1)
      rcases hr : w.read K (len + 1) with ⟨e | data, w₁⟩
      · simp only [readLoop, hr, Option.some.injEq, Prod.mk.injEq] at h
        rw [← h.2.2, ← hw, hr]
      · simp only [readLoop, hr] at h
        split at h
        · simp at h
        · rw [ih h, ← hw, hr]

theorem pushes_writeLoop {buf : List UInt8} {len fuel pos : ℕ} {w w' : World}
    {err : Option Errno} (h : writeLoop S buf len fuel pos w = some (err, w')) :
    pushes w' = pushes w := by
  induction fuel generalizing pos w with
  | zero =>
    unfold writeLoop at h
    split at h
    · simp at h
    · simp only [Option.some.injEq, Prod.mk.injEq] at h
      rw [h.2]
  | succ fuel ih =>
    unfold writeLoop at h
    split at h
    · have hw := pushes_write S.kernel w ((buf.drop pos ++ S.memory.behind pos).take len)
      rcases hr : w.write S.kernel ((buf.drop pos ++ S.memory.behind pos).take len) with ⟨e | n, w₁⟩
      · simp only [hr, Option.some.injEq, Prod.mk.injEq] at h
        rw [← h.2, ← hw, hr]
      · simp only [hr] at h
        rw [ih h, ← hw, hr]
    · simp only [Option.some.injEq, Prod.mk.injEq] at h
      rw [h.2]

/-- A write that fails logs nothing, one that succeeds logs its two elements. -/
theorem pushes_seekWrite {offset : ℤ} {data : List UInt8} {w w' : World} {err : Option Errno}
    (h : seekWrite S offset data w = some (err, w')) :
    pushes w' = pushes w ++ if err = none then [i64Bytes (offset.tdiv 512), data] else [] := by
  have hl := pushes_lseek S.kernel w offset
  unfold seekWrite at h
  rcases hr : w.lseek S.kernel offset with ⟨e | e, w₁⟩
  · rw [hr] at h hl
    dsimp only at h hl
    cases hw : writeLoop S data data.length data.length 0 w₁ with
    | none => rw [bind_of_none hw] at h; cases h
    | some r =>
      obtain ⟨e', w₂⟩ := r
      rw [bind_of_some hw] at h
      have hp := pushes_writeLoop hw
      cases e' with
      | none =>
        simp only [Option.some.injEq, Prod.mk.injEq] at h
        obtain ⟨rfl, rfl⟩ := h
        rw [pushes_emit_lpush, pushes_emit_lpush, hp, hl]
        simp
      | some e =>
        simp only [Option.some.injEq, Prod.mk.injEq] at h
        obtain ⟨rfl, rfl⟩ := h
        rw [hp, hl]
        simp
  · rw [hr] at h hl
    simp only [Option.some.injEq, Prod.mk.injEq] at h
    obtain ⟨rfl, rfl⟩ := h
    rw [← hl]
    simp

theorem pushes_sendResponse (err handle : ℕ) (data : Option (List UInt8)) (len : ℕ) (w : World) :
    pushes (sendResponse err handle data len w) = pushes w := by
  unfold sendResponse
  cases data with
  | none => exact pushes_emit_of_none rfl
  | some d =>
    dsimp only
    split
    · exact pushes_emit_of_none rfl
    · rw [pushes_emit_of_none rfl, pushes_emit_of_none rfl]

theorem pushes_seekRead {K : Kernel} {offset : ℤ} {len : ℕ} {buf buf' : List UInt8}
    {w w' : World} {err : Option Errno} (h : seekRead K offset len buf w = some (err, buf', w')) :
    pushes w' = pushes w := by
  have hl := pushes_lseek K w offset
  unfold seekRead at h
  rcases hk : w.lseek K offset with ⟨e | e, w₁⟩
  · rw [hk] at h hl
    rw [← hl]
    exact pushes_readLoop h
  · rw [hk] at h hl
    simp only [Option.some.injEq, Prod.mk.injEq] at h
    rw [← hl, ← h.2.2]

theorem pushes_handleRead {req : ReqHeader} {c c' : Conn} {err : ℕ}
    (h : handleRead S req c = some (err, c')) : pushes c'.world = pushes c.world := by
  unfold handleRead at h
  cases hb : S.memory.realloc c.client.buf req.length with
  | none => rw [bind_of_none hb] at h; cases h
  | some buf =>
    rw [bind_of_some hb] at h
    cases hr : seekRead S.kernel (i64 req.offset) req.length buf c.world with
    | none => rw [bind_of_none hr] at h; cases h
    | some r =>
      obtain ⟨e, buf', w'⟩ := r
      rw [bind_of_some hr] at h
      simp only [Option.some.injEq, Prod.mk.injEq] at h
      rw [← h.2]
      exact pushes_seekRead hr

/-- What `handle_write` returns: it waits for its payload, or it has tried to write it. -/
theorem handleWrite_cases {req : ReqHeader} {c c' : Conn} {err : ℕ}
    (h : handleWrite S req c = some (err, c')) :
    (err = minusOne ∧ c'.world = c.world) ∨
      ∃ e, err = errCode e ∧
        seekWrite S (i64 req.offset) ((c.input.drop 28).take req.length) c.world =
          some (e, c'.world) := by
  cases hb : S.memory.realloc c.client.buf req.length with
  | none =>
    have hw : handleWrite S req c = none := bind_of_none hb _
    rw [hw] at h
    cases h
  | some buf =>
    by_cases hs : c.input.length < 28 + req.length
    · rw [handleWrite_short hb hs, Option.some.injEq, Prod.mk.injEq] at h
      obtain ⟨rfl, rfl⟩ := h
      exact .inl ⟨rfl, rfl⟩
    · rw [handleWrite_full hb (Nat.not_lt.mp hs), Option.map_eq_some_iff] at h
      obtain ⟨r, hr, he⟩ := h
      rw [Prod.mk.injEq] at he
      obtain ⟨rfl, rfl⟩ := he
      exact .inr ⟨r.1, rfl, hr⟩

theorem errCode_eq_zero {e : Option Errno} : errCode e = 0 ↔ e = none := by
  cases e with
  | none => simp [errCode]
  | some e =>
    have := e.pos
    simp only [errCode, Option.map_some, Option.getD_some, reduceCtorEq, iff_false]
    omega

theorem pushes_handleWrite {req : ReqHeader} {c c' : Conn} {err : ℕ}
    (h : handleWrite S req c = some (err, c')) :
    pushes c'.world = pushes c.world ++
      if err = 0 then (Write.mk req.offset ((c.input.drop 28).take req.length)).elements
      else [] := by
  rcases handleWrite_cases h with ⟨rfl, hw⟩ | ⟨e, rfl, hw⟩
  · rw [hw, if_neg (by decide), List.append_nil]
  · rw [pushes_seekWrite hw]
    simp only [errCode_eq_zero]
    rfl

theorem executesRequest_write {req : ReqHeader} {c c' : Conn} {err : ℕ}
    (hm : req.magic = reqMagic) (hcmd : Cmd.ofCode req.type = some .write)
    (h : handleWrite S req c = some (err, c')) :
    executesRequest S req c =
      if err = 0 then [⟨req.offset, (c.input.drop 28).take req.length⟩] else [] := by
  rw [executesRequest, if_pos ⟨hm, hcmd⟩, h]
  cases err <;> rfl

/-- The reply to a command goes to the client and not to Redis. -/
theorem pushes_answer {err handle len n : ℕ} {data : Option (List UInt8)} {c t : Conn} {ret : Bool}
    (h : (if err = minusOne then some (true, c)
      else some (false, { c.drain n with
        world := sendResponse err handle data len c.world })) = some (ret, t)) :
    pushes t.world = pushes c.world := by
  split at h
  · rw [Option.some.injEq, Prod.mk.injEq] at h
    rw [h.2]
  · rw [Option.some.injEq, Prod.mk.injEq] at h
    rw [← h.2]
    exact pushes_sendResponse _ _ _ _ _

theorem pushes_dispatchRequest_write {req : ReqHeader} {c t : Conn} {ret : Bool}
    (hm : req.magic = reqMagic) (hcmd : Cmd.ofCode req.type = some .write)
    (h : dispatchRequest S req c = some (ret, t)) :
    pushes t.world = pushes c.world ++ (executesRequest S req c).flatMap Write.elements := by
  rw [dispatchRequest_write S hm hcmd] at h
  cases hw : handleWrite S req c with
  | none => rw [bind_of_none hw] at h; cases h
  | some r =>
    obtain ⟨err, c'⟩ := r
    rw [bind_of_some hw] at h
    have hflat : (executesRequest S req c).flatMap Write.elements =
        if err = 0 then (Write.mk req.offset ((c.input.drop 28).take req.length)).elements
        else [] := by
      rw [executesRequest_write hm hcmd hw]
      split <;> simp
    rw [hflat, ← pushes_handleWrite hw]
    exact pushes_answer h

theorem pushes_dispatchRequest_read {req : ReqHeader} {c t : Conn} {ret : Bool}
    (hm : req.magic = reqMagic) (hcmd : Cmd.ofCode req.type = some .read)
    (h : dispatchRequest S req c = some (ret, t)) : pushes t.world = pushes c.world := by
  rw [dispatchRequest_read S hm hcmd] at h
  cases hr : handleRead S req c with
  | none => rw [bind_of_none hr] at h; cases h
  | some r =>
    obtain ⟨err, c'⟩ := r
    rw [bind_of_some hr] at h
    rw [← pushes_handleRead hr]
    exact pushes_answer h

/-- Only an executed write adds to the commands for Redis. -/
theorem pushes_dispatchRequest {req : ReqHeader} {c t : Conn} {ret : Bool}
    (h : dispatchRequest S req c = some (ret, t)) :
    pushes t.world = pushes c.world ++ (executesRequest S req c).flatMap Write.elements := by
  by_cases hm : req.magic = reqMagic
  swap
  · rw [dispatchRequest, if_neg hm, Option.some.injEq, Prod.mk.injEq] at h
    rw [executesRequest, if_neg (by simp [hm]), ← h.2]
    simp
  by_cases hcmd : Cmd.ofCode req.type = some .write
  · exact pushes_dispatchRequest_write hm hcmd h
  · rw [executesRequest, if_neg (by simp [hcmd]), List.flatMap_nil, List.append_nil]
    cases hc : Cmd.ofCode req.type with
    | none =>
      rw [dispatchRequest, if_pos hm, hc] at h
      simp only [Option.some.injEq, Prod.mk.injEq] at h
      rw [← h.2, unknownCommand]
      cases pullup c.input (28 + req.length) <;> rfl
    | some cmd =>
      cases cmd with
      | read => exact pushes_dispatchRequest_read hm hc h
      | write => exact absurd hc hcmd
      | disc =>
        rw [dispatchRequest, if_pos hm, hc] at h
        simp only [Option.some.injEq, Prod.mk.injEq] at h
        rw [← h.2]
        rfl
      | flush =>
        rw [dispatchRequest_flush S hm hc, Option.some.injEq, Prod.mk.injEq] at h
        rw [← h.2]
        exact (pushes_sendResponse _ _ _ _ _).trans (pushes_emit_of_none rfl)
      | trim =>
        rw [dispatchRequest_trim S hm hc, Option.some.injEq, Prod.mk.injEq] at h
        rw [← h.2]
        refine (pushes_sendResponse _ _ _ _ _).trans ?_
        unfold World.fallocate
        cases S.kernel.fallocate c.world.calls with
        | none => exact pushes_emit_of_none rfl
        | some e => exact pushes_emit_of_none rfl

theorem pushes_checkZeroHandshake (c : Conn) :
    pushes (checkZeroHandshake c).2.world = pushes c.world := by
  unfold checkZeroHandshake
  split
  · rfl
  · split <;> rfl

theorem pushes_checkOptHeader (c : Conn) :
    pushes (checkOptHeader S c).2.world = pushes c.world := by
  unfold checkOptHeader
  split
  · rfl
  · unfold dispatchOption
    dsimp only
    split
    · split
      · unfold checkExportName
        split
        · rfl
        · split
          · rfl
          · unfold matchExportName
            split
            · rfl
            · split
              · exact pushes_emit_of_none rfl
              · rfl
      · split
        · rfl
        · exact pushes_emit_of_none rfl
    · rfl

theorem proceed_elim (r : Bool × Conn) : (proceed r).elim id id = r.2 := by
  unfold proceed
  split <;> rfl

theorem pushes_clientHandler {c : Conn} {r : Conn ⊕ Conn} (h : clientHandler S c = some r) :
    pushes (r.elim id id).world = pushes c.world ++ (executes S c).flatMap Write.elements := by
  cases hc : c.closed with
  | true => simp [clientHandler_closed S hc] at h
  | false =>
    by_cases hi : c.input = []
    · rw [clientHandler_idle S hc hi, Option.some.injEq] at h
      have he : executes S c = [] := by
        have hp : pullup c.input 28 = none := by simp [pullup, hi]
        rw [executes, hp]
        cases c.client.state <;> rfl
      rw [he, ← h]
      simp
    · rw [clientHandler_eq S hc hi, Option.map_eq_some_iff] at h
      obtain ⟨q, hq, rfl⟩ := h
      rw [proceed_elim]
      cases hs : c.client.state with
      | handshakeSent =>
        rw [hs] at hq
        simp only [check, Option.some.injEq] at hq
        rw [← hq, pushes_checkZeroHandshake, executes, hs]
        simp
      | zeroReceived =>
        rw [hs] at hq
        simp only [check, Option.some.injEq] at hq
        rw [← hq, pushes_checkOptHeader, executes, hs]
        simp
      | dataPushing =>
        rw [hs] at hq
        change checkRequest S c = some q at hq
        unfold checkRequest at hq
        cases hp : pullup c.input 28 with
        | none =>
          rw [hp, Option.some.injEq] at hq
          rw [← hq, executes, hs, hp]
          simp
        | some peek =>
          rw [hp] at hq
          rw [executes, hs, hp]
          exact pushes_dispatchRequest hq
      | disconnected =>
        rw [hs] at hq
        simp only [check, Option.some.injEq] at hq
        rw [← hq, executes, hs]
        simp [Conn.teardown]
      | optionSetting =>
        rw [hs] at hq
        simp only [check, Option.some.injEq] at hq
        rw [← hq, executes, hs]
        simp

theorem seekWrite_offset {offset : ℤ} {data : List UInt8} {w w' : World}
    (h : seekWrite S offset data w = some (none, w')) : 0 ≤ offset := by
  by_contra hneg
  rw [seekWrite, World.lseek, if_pos (by omega)] at h
  simp at h

/-- `lseek` has accepted the offset of an executed write. -/
theorem executes_bounds {c : Conn} {x : Write} (hx : x ∈ executes S c) :
    x.offset < 2 ^ 63 ∧ x.data.length < 2 ^ 32 := by
  unfold executes at hx
  split at hx
  · rename_i peek _ _
    have hoff : (ReqHeader.parse peek).offset < 2 ^ 64 :=
      lt_of_lt_of_le (beNat_lt _) (by
        refine Nat.pow_le_pow_right (by decide) ?_ |>.trans (by decide : 256 ^ 8 ≤ 2 ^ 64)
        exact List.length_take_le _ _)
    have hlen : (ReqHeader.parse peek).length < 2 ^ 32 :=
      lt_of_lt_of_le (beNat_lt _) (by
        refine Nat.pow_le_pow_right (by decide) ?_ |>.trans (by decide : 256 ^ 4 ≤ 2 ^ 32)
        exact List.length_take_le _ _)
    unfold executesRequest at hx
    split at hx
    · split at hx
      · rename_i hw
        rw [List.mem_singleton] at hx
        subst hx
        refine ⟨?_, lt_of_le_of_lt (List.length_take_le _ _) hlen⟩
        rcases handleWrite_cases hw with ⟨h0, -⟩ | ⟨e, he, hsw⟩
        · exact absurd h0 (by decide)
        · rw [errCode_eq_zero.mp he.symm] at hsw
          have hnn := seekWrite_offset hsw
          unfold i64 at hnn
          change (ReqHeader.parse peek).offset < 2 ^ 63
          omega
      · simp at hx
    · simp at hx
  · simp at hx

end Pushes

def Write.record (x : Write) : Record :=
  ⟨i64 (leNat (i64Bytes ((i64 x.offset).tdiv 512))), i32 ((x.data.length / 512 : ℕ) : ℤ), x.data⟩

theorem receive_sector (acc : List Record) (n : ℤ) :
    (Consumer.mk .idle acc).receive (i64Bytes n) = ⟨.got (i64 (leNat (i64Bytes n))), acc⟩ := by
  unfold Consumer.receive
  exact if_pos (i64Bytes_length n)

theorem receive_pair (acc : List Record) (x : Write) :
    ((Consumer.mk .idle acc).receive (i64Bytes ((i64 x.offset).tdiv 512))).receive x.data =
      ⟨.idle, acc ++ [x.record]⟩ := by
  rw [receive_sector]
  rfl

/-- A consumer that has received part of the elements of some writes has all records of the
first writes, and perhaps the sector of the next one. -/
theorem receive_elements (xs : List Write) (popped rest : List (List UInt8)) (acc : List Record)
    (h : popped ++ rest = xs.flatMap Write.elements) :
    ∃ front back, xs = front ++ back ∧
      ((popped.foldl Consumer.receive ⟨.idle, acc⟩ = ⟨.idle, acc ++ front.map Write.record⟩ ∧
          rest = back.flatMap Write.elements) ∨
        ∃ x, popped.foldl Consumer.receive ⟨.idle, acc⟩ = ⟨.got x, acc ++ front.map Write.record⟩ ∧
          rest ≠ []) := by
  induction xs generalizing popped acc with
  | nil =>
    rw [List.flatMap_nil, List.append_eq_nil_iff] at h
    obtain ⟨rfl, rfl⟩ := h
    exact ⟨[], [], rfl, .inl ⟨by simp, rfl⟩⟩
  | cons x xs ih =>
    rw [List.flatMap_cons, Write.elements, List.cons_append, List.cons_append,
      List.nil_append] at h
    match popped, h with
    | [], h => exact ⟨[], x :: xs, rfl, .inl ⟨by simp, h⟩⟩
    | [a], h =>
      rw [List.singleton_append, List.cons.injEq] at h
      obtain ⟨rfl, hr⟩ := h
      refine ⟨[], x :: xs, rfl, .inr ⟨i64 (leNat (i64Bytes ((i64 x.offset).tdiv 512))), ?_,
        by rw [hr]; simp⟩⟩
      rw [List.foldl_cons, List.foldl_nil, receive_sector, List.map_nil, List.append_nil]
    | a :: b :: popped, h =>
      rw [List.cons_append, List.cons_append, List.cons.injEq, List.cons.injEq] at h
      obtain ⟨rfl, rfl, hr⟩ := h
      obtain ⟨front, back, hxs, hcase⟩ := ih popped (acc ++ [x.record]) hr
      refine ⟨x :: front, back, by rw [hxs]; rfl, ?_⟩
      rw [List.foldl_cons, List.foldl_cons, receive_pair, List.map_cons]
      simpa only [List.append_assoc, List.singleton_append] using hcase

/-- What holds between the server, the list and the consumer at all times. -/
structure Consistent {ι : Type} (s : System ι) : Prop where
  log : pushes s.world = s.executed.flatMap Write.elements
  bounds : ∀ x ∈ s.executed, x.offset < 2 ^ 63 ∧ x.data.length < 2 ^ 32
  applied : s.applied ≤ (pushes s.world).length
  flow : ∃ popped, popped ++ s.list.reverse = (pushes s.world).take s.applied ∧
    s.consumer = popped.foldl Consumer.receive ⟨.idle, []⟩

theorem Initial.consistent {ι : Type} {s : System ι} (hs : Initial s) : Consistent s := by
  have hp : pushes s.world = [] := by rw [pushes, hs.world, List.filterMap_nil]
  refine ⟨?_, ?_, ?_, [], ?_, hs.consumer⟩
  · rw [hp, hs.executed, List.flatMap_nil]
  · intro x hx
    rw [hs.executed] at hx
    cases hx
  · rw [hs.applied]
    exact Nat.zero_le _
  · rw [hs.list, hs.applied]
    rfl

theorem step_consistent {ι : Type} [DecidableEq ι] {S : Server} {s t : System ι} {e : Event ι}
    (hs : Consistent s) (h : step S s e = some t) : Consistent t := by
  obtain ⟨hlog, hbounds, happlied, popped, hflow, hcons⟩ := hs
  cases e with
  | arrive i bytes =>
    simp only [step, Option.some.injEq] at h
    subst h
    exact ⟨hlog, hbounds, happlied, popped, hflow, hcons⟩
  | iterate i =>
    simp only [step, Option.map_eq_some_iff] at h
    obtain ⟨r, hr, rfl⟩ := h
    have hp := pushes_clientHandler hr
    have hpre : pushes (s.conn i).world = pushes s.world := rfl
    rw [hpre] at hp
    refine ⟨?_, ?_, ?_, popped, ?_, hcons⟩
    · rw [hp, hlog, List.flatMap_append]
    · intro x hx
      rcases List.mem_append.mp hx with hx | hx
      · exact hbounds x hx
      · exact executes_bounds hx
    · rw [hp, List.length_append]
      exact Nat.le_add_right_of_le happlied
    · rw [hp, List.take_append_of_le_length happlied]
      exact hflow
  | apply =>
    simp only [step, Option.map_eq_some_iff] at h
    obtain ⟨x, hx, rfl⟩ := h
    obtain ⟨hlt, hget⟩ := List.getElem?_eq_some_iff.mp hx
    refine ⟨hlog, hbounds, hlt, popped, ?_, hcons⟩
    rw [List.reverse_cons, ← List.append_assoc, hflow, List.take_succ_eq_append_getElem hlt, hget]
  | pop =>
    simp only [step] at h
    split at h
    · cases h
    · rw [Option.map_eq_some_iff] at h
      obtain ⟨x, hx, rfl⟩ := h
      have hlist : s.list = s.list.dropLast ++ [x] := by
        rw [List.getLast?_eq_some_iff] at hx
        obtain ⟨ys, hys⟩ := hx
        rw [hys, List.dropLast_concat]
      refine ⟨hlog, hbounds, happlied, popped ++ [x], ?_, ?_⟩
      · rw [← hflow]
        conv_rhs => rw [hlist, List.reverse_append]
        simp
      · rw [List.foldl_append, ← hcons]
        rfl

theorem run_consistent {ι : Type} [DecidableEq ι] {S : Server} {s t : System ι}
    (events : List (Event ι)) (hs : Consistent s) (h : run S events s = some t) :
    Consistent t := by
  induction events generalizing s with
  | nil =>
    simp only [run, Option.some.injEq] at h
    exact h ▸ hs
  | cons e events ih =>
    simp only [run, Option.bind_eq_some_iff] at h
    obtain ⟨u, hu, ht⟩ := h
    exact ih (step_consistent hs hu) ht

/-- A record that stands for a write: the same data, and the sector and the number of
sectors of a write that lies on sector boundaries. -/
def Record.Of (o : Record) (x : Write) : Prop :=
  o.data = x.data ∧ (512 ∣ x.offset → o.sectorNum * 512 = x.offset) ∧
    (512 ∣ x.data.length → o.nbSectors * 512 = x.data.length)

theorem record_of (x : Write) (hx : x.offset < 2 ^ 63 ∧ x.data.length < 2 ^ 32) :
    x.record.Of x := by
  have hoff : i64 x.offset = x.offset := i64_of_range (by omega) (by omega)
  have hdiv : (x.offset : ℤ).tdiv 512 = ((x.offset / 512 : ℕ) : ℤ) := by
    rw [Int.tdiv_eq_ediv_of_nonneg (by omega)]
    omega
  have hsec : i64 (leNat (i64Bytes ((x.offset / 512 : ℕ) : ℤ))) = ((x.offset / 512 : ℕ) : ℤ) :=
    i64_leNat_i64Bytes (by omega) (by omega)
  have hnb : i32 ((x.data.length / 512 : ℕ) : ℤ) = ((x.data.length / 512 : ℕ) : ℤ) :=
    i32_of_range (by omega) (by omega)
  refine ⟨rfl, ?_, ?_⟩
  · rintro ⟨k, hk⟩
    change i64 (leNat (i64Bytes ((i64 x.offset).tdiv 512))) * 512 = x.offset
    rw [hoff, hdiv, hsec]
    omega
  · rintro ⟨k, hk⟩
    change i32 ((x.data.length / 512 : ℕ) : ℤ) * 512 = x.data.length
    rw [hnb]
    omega

/-- The consumer obtains the records of the first executed writes, in the order of their
execution, and of nothing else; once the list has run dry it has those of all of them. -/
theorem write_log_fidelity {ι : Type} [DecidableEq ι] (S : Server) (events : List (Event ι))
    (s₀ s : System ι) (h₀ : Initial s₀) (h : run S events s₀ = some s) :
    ∃ front rest, s.executed = front ++ rest ∧
      List.Forall₂ Record.Of s.consumer.obtained front ∧ s.consumer.phase ≠ .exited ∧
      (s.applied = (pushes s.world).length → s.list = [] → rest = []) := by
  obtain ⟨hlog, hbounds, happlied, popped, hflow, hcons⟩ :=
    run_consistent events h₀.consistent h
  have hall : popped ++ (s.list.reverse ++ (pushes s.world).drop s.applied) =
      s.executed.flatMap Write.elements := by
    rw [← List.append_assoc, hflow, List.take_append_drop, hlog]
  obtain ⟨front, back, hexec, hcase⟩ := receive_elements s.executed popped _ [] hall
  have hof : List.Forall₂ Record.Of (front.map Write.record) front := by
    rw [List.forall₂_map_left_iff, List.forall₂_same]
    intro x hx
    exact record_of x (hbounds x (by rw [hexec]; exact List.mem_append_left _ hx))
  refine ⟨front, back, hexec, ?_, ?_, ?_⟩
  · rcases hcase with ⟨hc, -⟩ | ⟨n, hc, -⟩ <;> rw [hcons, hc] <;> exact hof
  · rcases hcase with ⟨hc, -⟩ | ⟨n, hc, -⟩ <;> rw [hcons, hc] <;> simp
  · intro hend hempty
    have hdry : s.list.reverse ++ (pushes s.world).drop s.applied = [] := by
      rw [hempty, hend, List.drop_length]
      rfl
    rcases hcase with ⟨-, hrest⟩ | ⟨n, -, hrest⟩
    · rw [hdry] at hrest
      cases back with
      | nil => rfl
      | cons x back =>
        rw [List.flatMap_cons, Write.elements] at hrest
        simp at hrest
    · exact absurd hdry hrest

/-- One client of the old style, on a kernel that does what it is asked. -/
theorem nil_noNul : (0 : UInt8) ∉ ([] : List UInt8) := by decide

def plainServer : Server where
  handle := ⟨2048, [], nil_noNul⟩
  kernel := ⟨fun _ => none, fun _ => .ok 4096, fun _ => .ok 4096, fun _ => none, fun _ => none⟩
  memory := { zeroHeap with behind := fun n => List.replicate n 0 }

def plainSystem : System Unit where
  conns _ := oldConn ⟨[], 0, 0, []⟩
  world := ⟨List.replicate 2048 0, 0, 0, []⟩
  executed := []
  applied := 0
  list := []
  consumer := ⟨.idle, []⟩

/-- A write of sector 2, logged and dequeued. -/
def plainEvents : List (Event Unit) :=
  [.arrive () (beBytes 4 reqMagic ++ beBytes 4 Cmd.write.code ++ beBytes 8 1 ++ beBytes 8 1024 ++
      beBytes 4 512 ++ List.replicate 512 7),
    .iterate (), .apply, .apply, .pop, .pop]

theorem write_log_fidelity_plain :
    ∃ s, run plainServer plainEvents plainSystem = some s ∧
      s.consumer.obtained = [⟨2, 1, List.replicate 512 7⟩] ∧
      ∃ front rest, s.executed = front ++ rest ∧
        List.Forall₂ Record.Of s.consumer.obtained front ∧ s.consumer.phase ≠ .exited ∧
        (s.applied = (pushes s.world).length → s.list = [] → rest = []) := by
  have hob : (run plainServer plainEvents plainSystem).map (fun s => s.consumer.obtained) =
      some [⟨2, 1, List.replicate 512 7⟩] := by decide +kernel
  rw [Option.map_eq_some_iff] at hob
  obtain ⟨s, hs, ho⟩ := hob
  exact ⟨s, hs, ho, write_log_fidelity plainServer plainEvents plainSystem s
    ⟨fun _ => ⟨_, .inr rfl⟩, rfl, rfl, rfl, rfl, rfl⟩ hs⟩

end GammaRay.WriteQueue
