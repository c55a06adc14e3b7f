import GammaRay.Loop
import GammaRay.NbdServer

set_option autoImplicit false

/-!
# The handler does not see where segments end

An iteration that finds what it needs at the front of the input does the same when more
follows; one that finds too little leaves nothing behind but a buffer of the size it will
ask for again.
-/
namespace GammaRay.Nbd
open Bytes Loop

/-- More bytes arrive on a connection that is still there. -/
def Conn.add (c : Conn) (b : List UInt8) : Conn :=
  if c.closed then c else { c with input := c.input ++ b }

def Conn.Closed (c : Conn) : Prop := c.closed = true

theorem add_open {c : Conn} (hc : c.closed = false) (b : List UInt8) :
    c.add b = { c with input := c.input ++ b } := by
  simp [Conn.add, hc]

theorem add_closed {c : Conn} (hc : c.closed = true) (b : List UInt8) : c.add b = c := by
  simp [Conn.add, hc]

theorem add_add (c : Conn) (a b : List UInt8) : (c.add a).add b = c.add (a ++ b) := by
  cases hc : c.closed with
  | true => rw [add_closed hc, add_closed hc, add_closed hc]
  | false =>
    rw [add_open hc, add_open hc, add_open (by exact hc)]
    simp only [List.append_assoc]

theorem pullup_append {a p : List UInt8} {n : ℕ} (h : pullup a n = some p) (b : List UInt8) :
    pullup (a ++ b) n = some p := by
  unfold pullup at h ⊢
  split at h
  · simp at h
  · rename_i hn
    rw [not_or, Nat.not_lt] at hn
    rw [if_neg (by simp only [List.length_append]; omega),
      List.take_append_of_le_length hn.2]
    exact h

theorem pullup_length {a p : List UInt8} {n : ℕ} (h : pullup a n = some p) :
    0 < n ∧ n ≤ a.length := by
  unfold pullup at h
  split at h
  · simp at h
  · omega

theorem errCode_ne (err : Option Errno) : errCode err ≠ minusOne := by
  cases err with
  | none => decide
  | some e => exact Nat.ne_of_lt (lt_trans e.lt (by decide))

/-- What `handle_read` does, with nothing said about the input. -/
theorem handleRead_cases (S : Server) (req : ReqHeader) (c : Conn) :
    (handleRead S req c = none ∧ ∀ i, handleRead S req { c with input := i } = none) ∨
      ∃ err buf w, handleRead S req c = some (errCode err, { c.setBuf buf with world := w }) ∧
        ∀ i, handleRead S req { c with input := i } =
          some (errCode err, { c.setBuf buf with world := w, input := i }) := by
  cases hb : S.memory.realloc c.client.buf req.length with
  | none => exact .inl ⟨bind_of_none hb _, fun i => bind_of_none hb _⟩
  | some buf =>
    cases hr : seekRead S.kernel (i64 req.offset) req.length buf c.world with
    | none =>
      exact .inl ⟨(bind_of_some hb _).trans (bind_of_none hr _),
        fun i => (bind_of_some hb _).trans (bind_of_none hr _)⟩
    | some r =>
      exact .inr ⟨r.1, r.2.1, r.2.2, (bind_of_some hb _).trans (bind_of_some hr _),
        fun i => (bind_of_some hb _).trans (bind_of_some hr _)⟩

theorem realloc_realloc {m : Memory} {buf : Option (List UInt8)} {b : List UInt8} {len : ℕ}
    (hlen : len ≠ 0) (h : m.realloc buf len = some b) : m.realloc (some b) len = some b := by
  have hb : b.length = len := by
    cases buf with
    | none =>
      simp only [Memory.realloc, Option.some.injEq] at h
      rw [← h, Heap.malloc_length]
    | some a =>
      simp only [Memory.realloc, hlen, ↓reduceIte, Option.some.injEq] at h
      rw [← h, List.length_append, List.length_take, List.length_drop, Heap.malloc_length]
      omega
  rw [Memory.realloc, if_neg hlen, List.take_of_length_le (by omega),
    List.drop_eq_nil_of_le (by rw [Heap.malloc_length]; omega), List.append_nil]

/-- The payload has not arrived in full. -/
theorem handleWrite_short {S : Server} {req : ReqHeader} {c : Conn} {buf : List UInt8}
    (hb : S.memory.realloc c.client.buf req.length = some buf)
    (hs : c.input.length < 28 + req.length) :
    handleWrite S req c = some (minusOne, c.setBuf buf) := by
  rw [handleWrite, bind_of_some hb]
  exact if_pos hs

theorem handleWrite_setBuf {S : Server} {req : ReqHeader} {c : Conn} {buf : List UInt8}
    (hlen : req.length ≠ 0) (hb : S.memory.realloc c.client.buf req.length = some buf) :
    handleWrite S req (c.setBuf buf) = handleWrite S req c := by
  have hb' : S.memory.realloc (c.setBuf buf).client.buf req.length = some buf :=
    realloc_realloc hlen hb
  rw [handleWrite, bind_of_some hb', handleWrite, bind_of_some hb]
  rfl

/-- The payload is there: it is taken off the input, whatever follows it. -/
theorem handleWrite_full {S : Server} {req : ReqHeader} {c : Conn} {buf : List UInt8}
    (hb : S.memory.realloc c.client.buf req.length = some buf)
    (hs : 28 + req.length ≤ c.input.length) :
    handleWrite S req c =
      (seekWrite S (i64 req.offset) ((c.input.drop 28).take req.length) c.world).map fun r =>
        (errCode r.1, { (c.drain 28).countWrite ((c.input.drop 28).take req.length) with
          world := r.2 }) := by
  have hlen : ¬ ((c.input.drop 28).take req.length).length < req.length := by
    rw [List.length_take, List.length_drop]
    omega
  have hs' : ¬ (c.setBuf buf).input.length < 28 + req.length := Nat.not_lt.mpr hs
  rw [handleWrite, bind_of_some hb]
  refine (if_neg hs').trans ((if_neg hlen).trans ?_)
  cases hw : seekWrite S (i64 req.offset) ((c.input.drop 28).take req.length) c.world with
  | none => exact bind_of_none hw _
  | some r => exact bind_of_some hw _

/-- How a check of the front of the input takes more input behind it. -/
inductive Grows (f : Conn → Option (Bool × Conn)) (c : Conn) (b : List UInt8) : Prop where
  | stuck (h : f c = none) (hb : f (c.add b) = none)
  | again (t : Conn) (h : f c = some (false, t)) (hb : f (c.add b) = some (false, t.add b))
  | closed (t : Conn) (ht : t.closed = true) (h : f c = some (true, t))
      (hb : f (c.add b) = some (true, t))
  | wait (t : Conn) (ht : t.closed = false) (h : f c = some (true, t))
      (hi : t.input = c.input) (hs : t.client.state = c.client.state)
      (hb : f (c.add b) = f (t.add b))

theorem add_input {c : Conn} (hc : c.closed = false) (b : List UInt8) :
    (c.add b).input = c.input ++ b := by
  rw [add_open hc]

theorem setState_add {c : Conn} (st : ClientState) (b : List UInt8) :
    (c.setState st).add b = (c.add b).setState st := by
  unfold Conn.add Conn.setState
  split <;> rfl

theorem drain_add {c : Conn} {n : ℕ} (hc : c.closed = false) (hn : n ≤ c.input.length)
    (b : List UInt8) : (c.drain n).add b = (c.add b).drain n := by
  have hd : (c.drain n).closed = false := hc
  rw [add_open hd, add_open hc]
  simp only [Conn.drain, List.drop_append_of_le_length hn]

theorem matchExportName_add (S : Server) {nameLen : ℕ} {c : Conn} (hc : c.closed = false)
    (hn : nameLen ≤ c.input.length) (b : List UInt8) :
    matchExportName S nameLen (c.add b) = (matchExportName S nameLen c).add b := by
  cases hp : pullup c.input nameLen with
  | none =>
    have hz : nameLen = 0 := by
      by_contra hz
      simp [pullup, hz, Nat.not_lt.mpr hn] at hp
    have hp' : pullup (c.add b).input nameLen = none := by simp [pullup, hz]
    simp only [matchExportName, hp, hp', setState_add]
  | some name =>
    have hp' : pullup (c.add b).input nameLen = some name := by
      rw [add_input hc]
      exact pullup_append hp b
    by_cases hm : strncmpEq nameLen name (S.handle.exportName ++ [0])
    · simp only [matchExportName, hp, hp', hm, ↓reduceIte]
      simp only [Conn.add, Conn.setState, Conn.drain, hc, Bool.false_eq_true, ↓reduceIte,
        List.drop_append_of_le_length hn]
    · simp only [matchExportName, hp, hp', hm, Bool.false_eq_true, ↓reduceIte, setState_add]

theorem checkExportName_grows (S : Server) (nameLen : ℕ) {c : Conn} (hc : c.closed = false)
    (hlen : 16 ≤ c.input.length) (b : List UInt8) :
    Grows (fun c => some (checkExportName S nameLen c)) c b := by
  by_cases hn : nameLen = S.handle.nameLen
  · by_cases hs : c.input.length < 16 + nameLen
    · refine .wait c hc ?_ rfl rfl rfl
      rw [checkExportName, if_neg (not_not.mpr hn), if_pos hs]
    · have hs' : ¬ (c.add b).input.length < 16 + nameLen := by
        rw [add_input hc, List.length_append]
        omega
      have hname : nameLen ≤ (c.drain 16).input.length := by
        simp only [Conn.drain, List.length_drop]
        omega
      refine .again (matchExportName S nameLen (c.drain 16)) ?_ ?_
      · rw [checkExportName, if_neg (not_not.mpr hn), if_neg hs]
      · rw [checkExportName, if_neg (not_not.mpr hn), if_neg hs', ← drain_add hc hlen,
          matchExportName_add S (c := c.drain 16) hc hname]
  · refine .again (c.setState .disconnected) ?_ ?_
    · rw [checkExportName, if_pos hn]
    · rw [checkExportName, if_pos hn, setState_add]

theorem Grows.setState {f : Conn → Option (Bool × Conn)} {c : Conn} {b : List UInt8}
    (st : ClientState) (hf : ∀ t, f t = some (false, t.setState st)) : Grows f c b :=
  .again (c.setState st) (hf c) (by rw [hf, setState_add])

/-- A check that peeks at a header first. -/
theorem Grows.peek {f : Conn → Option (Bool × Conn)} {c : Conn} {b : List UInt8} (n : ℕ)
    (g : List UInt8 → Conn → Option (Bool × Conn)) (hc : c.closed = false)
    (hnone : ∀ t, pullup t.input n = none → f t = some (true, t))
    (hsome : ∀ t p, pullup t.input n = some p → f t = g p t)
    (hg : ∀ p, pullup c.input n = some p → Grows (g p) c b) : Grows f c b := by
  cases hp : pullup c.input n with
  | none => exact .wait c hc (hnone c hp) rfl rfl rfl
  | some p =>
    have hp' : ∀ t : Conn, t.closed = false → t.input = c.input →
        pullup (t.add b).input n = some p := by
      intro t ht hi
      rw [add_input ht, hi]
      exact pullup_append hp b
    have hadd := hsome _ p (hp' c hc rfl)
    cases hg p hp with
    | stuck h hb => exact .stuck (by rw [hsome c p hp, h]) (by rw [hadd, hb])
    | again t h hb => exact .again t (by rw [hsome c p hp, h]) (by rw [hadd, hb])
    | closed t ht h hb => exact .closed t ht (by rw [hsome c p hp, h]) (by rw [hadd, hb])
    | wait t ht h hi hs hb =>
      refine .wait t ht (by rw [hsome c p hp, h]) hi hs ?_
      rw [hadd, hsome _ p (hp' t ht hi), hb]

theorem checkZeroHandshake_grows {c : Conn} (hc : c.closed = false) (b : List UInt8) :
    Grows (fun c => some (checkZeroHandshake c)) c b := by
  refine .peek 4 (fun p t => some (if leNat p ≠ 0 then (false, t.setState .disconnected)
    else (false, (t.drain 4).setState .zeroReceived))) hc ?_ ?_ ?_
  · intro t ht
    simp only [checkZeroHandshake, ht]
  · intro t p ht
    simp only [checkZeroHandshake, ht]
  · intro p hp
    by_cases hz : leNat p = 0
    · refine .again ((c.drain 4).setState .zeroReceived) ?_ ?_
      · simp only [ne_eq, hz, not_true_eq_false, ↓reduceIte]
      · simp only [ne_eq, hz, not_true_eq_false, ↓reduceIte]
        rw [setState_add, drain_add hc (pullup_length hp).2]
    · refine .setState .disconnected ?_
      intro t
      simp only [ne_eq, hz, not_false_eq_true, ↓reduceIte]

theorem dispatchOption_grows (S : Server) (peek : List UInt8) {c : Conn}
    (hc : c.closed = false) (hlen : 16 ≤ c.input.length) (b : List UInt8) :
    Grows (fun c => some (dispatchOption S peek c)) c b := by
  by_cases hm : beNat (peek.take 8) = newProtocol
  swap
  · exact .setState .disconnected fun t => by rw [dispatchOption, if_neg hm]
  by_cases hn : beNat ((peek.drop 8).take 4) = optExportName
  · have hname : dispatchOption S peek = checkExportName S (beNat (peek.drop 12)) := by
      funext t
      rw [dispatchOption, if_pos hm, if_pos hn]
    rw [hname]
    exact checkExportName_grows S _ hc hlen b
  by_cases ha : beNat ((peek.drop 8).take 4) = optAbort
  · exact .setState .disconnected fun t => by
      rw [dispatchOption, if_pos hm, if_neg hn, if_pos ha]
  · have hf : ∀ t, dispatchOption S peek t =
        (false, { t with world := sendUnsupportedOpt ((peek.drop 8).take 4) t.world }) := by
      intro t
      rw [dispatchOption, if_pos hm, if_neg hn, if_neg ha]
    refine .again _ (congrArg some (hf c)) ?_
    rw [hf, add_open hc, add_open (by exact hc)]

theorem checkOptHeader_grows (S : Server) {c : Conn} (hc : c.closed = false) (b : List UInt8) :
    Grows (fun c => some (checkOptHeader S c)) c b := by
  refine .peek 16 (fun p t => some (dispatchOption S p t)) hc ?_ ?_ ?_
  · intro t ht
    simp only [checkOptHeader, ht]
  · intro t p ht
    simp only [checkOptHeader, ht]
  · intro p hp
    exact dispatchOption_grows S p hc (pullup_length hp).2 b

section Request

variable (S : Server) {req : ReqHeader} {c : Conn}

theorem dispatchRequest_read (hm : req.magic = reqMagic) (hcmd : Cmd.ofCode req.type = some .read)
    (t : Conn) :
    dispatchRequest S req t = (do
      let (err, c) ← handleRead S req t
      if err = minusOne then some (true, c)
      else some (false, { c.drain 28 with
        world := sendResponse err req.handle c.client.buf req.length c.world })) := by
  rw [dispatchRequest, if_pos hm, hcmd]

theorem dispatchRequest_write (hm : req.magic = reqMagic)
    (hcmd : Cmd.ofCode req.type = some .write) (t : Conn) :
    dispatchRequest S req t = (do
      let (err, c) ← handleWrite S req t
      if err = minusOne then some (true, c)
      else some (false, { c.drain req.length with
        world := sendResponse err req.handle none 0 c.world })) := by
  rw [dispatchRequest, if_pos hm, hcmd]

theorem dispatchRequest_flush (hm : req.magic = reqMagic)
    (hcmd : Cmd.ofCode req.type = some .flush) (t : Conn) :
    dispatchRequest S req t = some (false, { t.drain 28 with
      world := sendResponse (errCode (t.world.fsync S.kernel).1) req.handle none 0
        (t.world.fsync S.kernel).2 }) := by
  rw [dispatchRequest, if_pos hm, hcmd]

theorem dispatchRequest_trim (hm : req.magic = reqMagic)
    (hcmd : Cmd.ofCode req.type = some .trim) (t : Conn) :
    dispatchRequest S req t = some (false, { t.drain 28 with
      world := sendResponse
        (errCode (t.world.fallocate S.kernel (i64 req.offset) req.length).1) req.handle none 0
        (t.world.fallocate S.kernel (i64 req.offset) req.length).2 }) := by
  rw [dispatchRequest, if_pos hm, hcmd]

theorem read_grows (hm : req.magic = reqMagic) (hcmd : Cmd.ofCode req.type = some .read)
    (hc : c.closed = false) (hlen : 28 ≤ c.input.length) (b : List UInt8) :
    Grows (dispatchRequest S req) c b := by
  rcases handleRead_cases S req c with ⟨h, hi⟩ | ⟨err, buf, w, h, hi⟩
  · refine .stuck ?_ ?_
    · rw [dispatchRequest_read S hm hcmd, bind_of_none h]
    · rw [dispatchRequest_read S hm hcmd, add_open hc, bind_of_none (hi _)]
  · refine .again { (c.setBuf buf).drain 28 with
      world := sendResponse (errCode err) req.handle (some buf) req.length w } ?_ ?_
    · rw [dispatchRequest_read S hm hcmd, bind_of_some h]
      exact if_neg (errCode_ne err)
    · rw [dispatchRequest_read S hm hcmd, add_open hc, bind_of_some (hi _)]
      refine (if_neg (errCode_ne err)).trans ?_
      rw [add_open (by exact hc)]
      simp only [Conn.drain, Conn.setBuf, List.drop_append_of_le_length hlen]

theorem write_grows (hm : req.magic = reqMagic) (hcmd : Cmd.ofCode req.type = some .write)
    (hc : c.closed = false) (hlen : 28 ≤ c.input.length) (b : List UInt8) :
    Grows (dispatchRequest S req) c b := by
  cases hbuf : S.memory.realloc c.client.buf req.length with
  | none =>
    have hw : handleWrite S req c = none := bind_of_none hbuf _
    have hw' : handleWrite S req (c.add b) = none := by
      rw [add_open hc]
      exact bind_of_none hbuf _
    refine .stuck ?_ ?_
    · rw [dispatchRequest_write S hm hcmd, bind_of_none hw]
    · rw [dispatchRequest_write S hm hcmd, bind_of_none hw']
  | some buf =>
    have hbuf' : S.memory.realloc (c.add b).client.buf req.length = some buf := by
      rw [add_open hc]
      exact hbuf
    by_cases hs : c.input.length < 28 + req.length
    · refine .wait (c.setBuf buf) hc ?_ rfl rfl ?_
      · rw [dispatchRequest_write S hm hcmd, bind_of_some (handleWrite_short hbuf hs)]
        exact if_pos rfl
      · have hsame : (c.setBuf buf).add b = (c.add b).setBuf buf := by
          rw [add_open hc, add_open (by exact hc)]
          rfl
        rw [dispatchRequest_write S hm hcmd, dispatchRequest_write S hm hcmd, hsame,
          handleWrite_setBuf (by omega) hbuf']
    · have hfull := handleWrite_full hbuf (Nat.not_lt.mp hs)
      have hfull' := handleWrite_full hbuf' (by rw [add_input hc, List.length_append]; omega)
      have hdata : ((c.add b).input.drop 28).take req.length =
          (c.input.drop 28).take req.length := by
        rw [add_input hc, List.drop_append_of_le_length hlen,
          List.take_append_of_le_length (by rw [List.length_drop]; omega)]
      have hworld : (c.add b).world = c.world := by rw [add_open hc]
      rw [hdata, hworld] at hfull'
      cases hw : seekWrite S (i64 req.offset) ((c.input.drop 28).take req.length) c.world with
      | none =>
        rw [hw] at hfull hfull'
        refine .stuck ?_ ?_
        · rw [dispatchRequest_write S hm hcmd, bind_of_none hfull]
        · rw [dispatchRequest_write S hm hcmd, bind_of_none hfull']
      | some r =>
        rw [hw] at hfull hfull'
        refine .again { ((c.drain 28).countWrite ((c.input.drop 28).take req.length)).drain
          req.length with world := sendResponse (errCode r.1) req.handle none 0 r.2 } ?_ ?_
        · rw [dispatchRequest_write S hm hcmd, bind_of_some hfull]
          exact if_neg (errCode_ne r.1)
        · rw [dispatchRequest_write S hm hcmd, bind_of_some hfull']
          refine (if_neg (errCode_ne r.1)).trans ?_
          have hrest : (c.input ++ b).drop (28 + req.length) =
              c.input.drop (28 + req.length) ++ b :=
            List.drop_append_of_le_length (by omega)
          rw [add_open hc, add_open (by exact hc)]
          simp only [Conn.drain, Conn.countWrite, List.drop_drop, hrest]

theorem dispatchRequest_grows (hc : c.closed = false) (hlen : 28 ≤ c.input.length)
    (b : List UInt8) : Grows (dispatchRequest S req) c b := by
  by_cases hm : req.magic = reqMagic
  swap
  · exact .wait c hc (if_neg hm) rfl rfl rfl
  cases hcmd : Cmd.ofCode req.type with
  | none =>
    have hf : ∀ t, dispatchRequest S req t = some (true, unknownCommand req.length t) := by
      intro t
      rw [dispatchRequest, if_pos hm, hcmd]
    have hu : ∀ t, unknownCommand req.length t = (t.setState .disconnected).teardown := by
      intro t
      unfold unknownCommand
      cases pullup t.input (28 + req.length) <;> rfl
    refine .closed ((c.setState .disconnected).teardown) rfl (by rw [hf, hu]) ?_
    rw [hf, hu, add_open hc]
    rfl
  | some cmd =>
    cases cmd with
    | read => exact read_grows S hm hcmd hc hlen b
    | write => exact write_grows S hm hcmd hc hlen b
    | disc =>
      have hf : ∀ t, dispatchRequest S req t =
          some (false, ((t.setState .disconnected).drain 28).teardown) := by
        intro t
        rw [dispatchRequest, if_pos hm, hcmd]
      have ht : ((c.setState .disconnected).drain 28).teardown.closed = true := rfl
      refine .again _ (hf c) ?_
      rw [hf, add_closed ht, add_open hc]
      rfl
    | flush =>
      refine .again _ (dispatchRequest_flush S hm hcmd c) ?_
      rw [dispatchRequest_flush S hm hcmd, add_open hc, add_open (by exact hc)]
      simp only [Conn.drain, List.drop_append_of_le_length hlen]
    | trim =>
      refine .again _ (dispatchRequest_trim S hm hcmd c) ?_
      rw [dispatchRequest_trim S hm hcmd, add_open hc, add_open (by exact hc)]
      simp only [Conn.drain, List.drop_append_of_le_length hlen]

theorem checkRequest_grows (hc : c.closed = false) (b : List UInt8) :
    Grows (checkRequest S) c b := by
  refine .peek 28 (fun p t => dispatchRequest S (ReqHeader.parse p) t) hc ?_ ?_ ?_
  · intro t ht
    simp only [checkRequest, ht]
  · intro t p ht
    simp only [checkRequest, ht]
  · intro p hp
    exact dispatchRequest_grows S hc (pullup_length hp).2 b

end Request

/-- The check that the state of a client calls for. -/
def check (S : Server) : ClientState → Conn → Option (Bool × Conn)
  | .handshakeSent, c => some (checkZeroHandshake c)
  | .zeroReceived, c => some (checkOptHeader S c)
  | .dataPushing, c => checkRequest S c
  | .disconnected, c => some (true, c.teardown)
  | .optionSetting, c => some (true, c)

theorem clientHandler_eq (S : Server) {c : Conn} (hc : c.closed = false) (hi : c.input ≠ []) :
    clientHandler S c = (check S c.client.state c).map proceed := by
  have hlen : c.input.length ≠ 0 := by
    rwa [ne_eq, List.length_eq_zero_iff]
  unfold clientHandler
  rw [if_neg (by simp [hc]), if_neg hlen]
  cases c.client.state <;> rfl

theorem clientHandler_idle (S : Server) {c : Conn} (hc : c.closed = false) (hi : c.input = []) :
    clientHandler S c = some (.inr c) := by
  simp [clientHandler, hc, hi]

theorem clientHandler_closed (S : Server) {c : Conn} (hc : c.closed = true) :
    clientHandler S c = none := by
  simp [clientHandler, hc]

theorem check_grows (S : Server) {c : Conn} (hc : c.closed = false) (b : List UInt8) :
    Grows (check S c.client.state) c b := by
  cases c.client.state with
  | handshakeSent => exact checkZeroHandshake_grows hc b
  | zeroReceived => exact checkOptHeader_grows S hc b
  | dataPushing => exact checkRequest_grows S hc b
  | disconnected =>
    refine .closed c.teardown rfl rfl ?_
    rw [add_open hc]
    rfl
  | optionSetting => exact .wait c hc rfl rfl rfl rfl

theorem clientHandler_grown (S : Server) (c : Conn) (b : List UInt8) :
    Grown (clientHandler S) Conn.add Conn.Closed c b := by
  cases hc : c.closed with
  | true =>
    exact .stuck (clientHandler_closed S hc) (by rw [add_closed hc, clientHandler_closed S hc])
  | false =>
    by_cases hi : c.input = []
    · exact .leaveOpen c (by simp [Conn.Closed, hc]) (clientHandler_idle S hc hi) rfl
    · have hfront : ∀ t : Conn, t.closed = false → t.input = c.input →
          t.client.state = c.client.state →
          clientHandler S (t.add b) = (check S c.client.state (t.add b)).map proceed := by
        intro t ht hin hst
        have hne : (t.add b).input ≠ [] := by
          rw [add_input ht, hin]
          exact List.append_ne_nil_of_left_ne_nil hi b
        rw [clientHandler_eq S (by rw [add_open ht]; exact ht) hne, add_open ht]
        exact congrArg (fun st => (check S st _).map proceed) hst
      have hadd := hfront c hc rfl rfl
      have heq := clientHandler_eq S hc hi
      cases check_grows S hc b with
      | stuck h hb => exact .stuck (by rw [heq, h]; rfl) (by rw [hadd, hb]; rfl)
      | again t h hb => exact .again t (by rw [heq, h]; rfl) (by rw [hadd, hb]; rfl)
      | closed t ht h hb =>
        exact .leaveClosed t ht (by rw [heq, h]; rfl) (by rw [hadd, hb]; rfl)
      | wait t ht h hin hst hb =>
        exact .leaveOpen t (by simp [Conn.Closed, ht]) (by rw [heq, h]; rfl)
          (by rw [hadd, hfront t ht hin hst, hb])

theorem clientHandler_resumable (S : Server) :
    Resumable (clientHandler S) Conn.add Conn.Closed :=
  ⟨add_add, clientHandler_grown S⟩

end GammaRay.Nbd
