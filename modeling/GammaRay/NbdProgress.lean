import GammaRay.NbdSegmentation

set_option autoImplicit false

/-!
# Progress of the client handler

What one iteration of `nbd_client_handler` can do to a connection. Three of its branches
matter: an option the server does not support is answered and left in the input, a READ
past the end of the file never comes back, and DISC frees what the loop tests next.
-/
namespace GammaRay.Nbd
open Bytes Loop

/-- The request header at the front of the input. -/
def Conn.request (c : Conn) : ReqHeader := ReqHeader.parse (c.input.take 28)

/-- The iteration takes up a request of this kind. -/
structure RequestAt (c : Conn) (cmd : Cmd) : Prop where
  state : c.client.state = .dataPushing
  length : 28 ≤ c.input.length
  magic : c.request.magic = reqMagic
  type : Cmd.ofCode c.request.type = some cmd

/-- The iteration takes up an option that is neither EXPORT_NAME nor ABORT. -/
structure UnsupportedOption (c : Conn) : Prop where
  state : c.client.state = .zeroReceived
  length : 16 ≤ c.input.length
  magic : beNat ((c.input.take 16).take 8) = newProtocol
  exportName : beNat (((c.input.take 16).drop 8).take 4) ≠ optExportName
  abort : beNat (((c.input.take 16).drop 8).take 4) ≠ optAbort

/-- `assert(buf != NULL)` fails, which ends the process. -/
structure Aborts (S : Server) (c : Conn) : Prop where
  live : c.closed = false
  request : RequestAt c .read ∨ RequestAt c .write
  buffer : S.memory.realloc c.client.buf c.request.length = none

/-- The reads from call `calls` on get to the end of a file with `room` bytes left before
they have `len` bytes, and none of them fails on the way. -/
inductive RunsDry (K : Kernel) : ℕ → ℕ → ℕ → Prop where
  | dry {calls len k : ℕ} (hk : K.read calls = .ok k) : RunsDry K calls 0 (len + 1)
  | more {calls room len k : ℕ} (hk : K.read calls = .ok k)
      (tail : RunsDry K (calls + 1) (room + 1 - min (min (max 1 k) (len + 1)) (room + 1))
        (len + 1 - min (min (max 1 k) (len + 1)) (room + 1))) :
      RunsDry K calls (room + 1) (len + 1)

/-- A READ whose loop stays at the end of the file for ever. -/
structure EndlessRead (S : Server) (c : Conn) : Prop where
  request : RequestAt c .read
  buffer : S.memory.realloc c.client.buf c.request.length ≠ none
  offset : 0 ≤ i64 c.request.offset
  seek : S.kernel.lseek c.world.calls = none
  dry : RunsDry S.kernel (c.world.calls + 1)
    (c.world.file.length - (i64 c.request.offset).toNat) c.request.length

theorem RunsDry.read_ok {K : Kernel} {calls room len : ℕ} (h : RunsDry K calls room len) :
    0 < len ∧ ∃ k, K.read calls = .ok k := by
  cases h with
  | dry hk => exact ⟨Nat.succ_pos _, _, hk⟩
  | more hk _ => exact ⟨Nat.succ_pos _, _, hk⟩

theorem readLoop_none_iff (K : Kernel) (fuel : ℕ) (buf : List UInt8) (len : ℕ) (w : World)
    (hf : len ≤ fuel) :
    readLoop K fuel buf len w = none ↔
      RunsDry K w.calls (w.file.length - w.position) len := by
  induction fuel generalizing buf len w with
  | zero =>
    obtain rfl : len = 0 := by omega
    exact iff_of_false (by simp [readLoop]) fun h => absurd h.read_ok.1 (lt_irrefl 0)
  | succ fuel ih =>
    cases len with
    | zero =>
      exact iff_of_false (by simp [readLoop]) fun h => absurd h.read_ok.1 (lt_irrefl 0)
    | succ len =>
      cases hr : K.read w.calls with
      | error e =>
        refine iff_of_false (by simp [readLoop, World.read, hr]) ?_
        intro h
        obtain ⟨k, hk⟩ := h.read_ok.2
        rw [hr] at hk
        cases hk
      | ok k =>
        have hlen : ((w.file.drop w.position).take (min (max 1 k) (len + 1))).length =
            min (min (max 1 k) (len + 1)) (w.file.length - w.position) := by
          rw [List.length_take, List.length_drop]
        simp only [readLoop, World.read, hr]
        generalize (w.file.drop w.position).take (min (max 1 k) (len + 1)) = data at hlen ⊢
        cases hroom : w.file.length - w.position with
        | zero =>
          have hnil : data = [] := by
            rw [← List.length_eq_zero_iff, hlen, hroom, Nat.min_zero]
          rw [hnil]
          exact iff_of_true rfl (.dry hr)
        | succ room =>
          rw [hroom] at hlen
          have hne : data.isEmpty = false := by
            rw [List.isEmpty_eq_false_iff, ← List.length_pos_iff]
            omega
          rw [hne, if_neg Bool.false_ne_true, ih _ _ _ (by omega)]
          change RunsDry K (w.calls + 1) (w.file.length - (w.position + data.length)) _ ↔ _
          rw [Nat.sub_add_eq, hroom, hlen]
          constructor
          · exact .more hr
          · intro h
            cases h with
            | more hk tail =>
              obtain rfl := Except.ok.inj (hr.symm.trans hk)
              exact tail

theorem seekRead_none_iff (K : Kernel) (offset : ℤ) (len : ℕ) (buf : List UInt8) (w : World) :
    seekRead K offset len buf w = none ↔ 0 ≤ offset ∧ K.lseek w.calls = none ∧
      RunsDry K (w.calls + 1) (w.file.length - offset.toNat) len := by
  by_cases hneg : offset < 0
  · refine iff_of_false (by simp [seekRead, World.lseek, hneg]) ?_
    exact fun h => absurd h.1 (by omega)
  · cases hl : K.lseek w.calls with
    | some e => simp [seekRead, World.lseek, hneg, hl]
    | none =>
      simp only [seekRead, World.lseek, if_neg hneg, hl]
      rw [readLoop_none_iff K len buf len _ le_rfl]
      simp only [World.called, true_and, Int.not_lt.mp hneg]

/-- How far a state is from the end of the connection. -/
def ClientState.rank : ClientState → ℕ
  | .handshakeSent => 3
  | .zeroReceived => 2
  | .dataPushing => 1
  | .disconnected => 0
  | .optionSetting => 0

/-- Input was taken off, or the state moved on. -/
structure Moves (c t : Conn) : Prop where
  input : t.input.length ≤ c.input.length
  rank : t.client.state.rank ≤ c.client.state.rank
  forward : t.input.length < c.input.length ∨ t.client.state.rank < c.client.state.rank

/-- What one iteration can do. -/
inductive Iteration (S : Server) (c : Conn) : Prop where
  | aborts (h : Aborts S c) (hs : clientHandler S c = none)
  | endless (h : EndlessRead S c) (hs : clientHandler S c = none)
  | returns (r : Conn) (hs : clientHandler S c = some (.inr r))
  | stays (w : World) (h : UnsupportedOption c)
      (hs : clientHandler S c = some (.inl { c with world := w }))
  | moves (t : Conn) (hs : clientHandler S c = some (.inl t)) (hm : Moves c t)
      (hd : t.closed = true ↔ RequestAt c .disc)

section Iteration

variable (S : Server) {c : Conn}

theorem proceed_again (t : Conn) : (some (false, t)).map proceed = some (.inl t) := rfl

theorem proceed_return (t : Conn) : (some (true, t)).map proceed = some (.inr t) := rfl

theorem clientHandler_of_check {st : ClientState} (hc : c.closed = false) (hi : c.input ≠ [])
    (hst : c.client.state = st) : clientHandler S c = (check S st c).map proceed := by
  rw [clientHandler_eq S hc hi, hst]

/-- Outside the transmission phase, a step to a state of lower rank is a move. -/
theorem moves_of_rank {S : Server} {t : Conn} (hst : c.client.state ≠ .dataPushing)
    (hopen : t.closed = false) (hs : clientHandler S c = some (.inl t))
    (hi : t.input.length ≤ c.input.length)
    (hr : t.client.state.rank < c.client.state.rank) : Iteration S c := by
  refine .moves t hs ⟨hi, hr.le, .inr hr⟩ (iff_of_false ?_ fun h => hst h.state)
  rw [hopen]
  exact Bool.false_ne_true

theorem drain_length (n : ℕ) : (c.drain n).input.length ≤ c.input.length := by
  rw [Conn.drain, List.length_drop]
  omega

theorem handshake_iteration (hc : c.closed = false) (hi : c.input ≠ [])
    (hst : c.client.state = .handshakeSent) : Iteration S c := by
  have hch := clientHandler_of_check S hc hi hst
  have hne : c.client.state ≠ .dataPushing := by
    rw [hst]
    decide
  cases hp : pullup c.input 4 with
  | none =>
    refine .returns c (hch.trans ?_)
    simp only [check, checkZeroHandshake, hp, Option.map_some, proceed, if_true]
  | some peek =>
    by_cases hz : leNat peek ≠ 0
    · refine moves_of_rank (t := c.setState .disconnected) hne hc (hch.trans ?_) le_rfl ?_
      · simp only [check, checkZeroHandshake, hp, if_pos hz, Option.map_some, proceed,
          Bool.false_eq_true, if_false]
      · rw [hst]
        exact Nat.zero_lt_succ 2
    · refine moves_of_rank (t := (c.drain 4).setState .zeroReceived) hne hc (hch.trans ?_)
        (drain_length 4) ?_
      · simp only [check, checkZeroHandshake, hp, if_neg hz, Option.map_some, proceed,
          Bool.false_eq_true, if_false]
      · rw [hst]
        exact Nat.lt_succ_self 2

theorem matchExportName_moves (nameLen : ℕ) (t : Conn) :
    (matchExportName S nameLen t).closed = t.closed ∧
      (matchExportName S nameLen t).input.length ≤ t.input.length ∧
      (matchExportName S nameLen t).client.state.rank ≤ 1 := by
  unfold matchExportName
  split
  · exact ⟨rfl, le_rfl, Nat.zero_le 1⟩
  · split
    · exact ⟨rfl, drain_length nameLen, le_refl 1⟩
    · exact ⟨rfl, le_rfl, Nat.zero_le 1⟩

theorem pullup_of_le {input : List UInt8} {n : ℕ} (hn : 0 < n) (h : n ≤ input.length) :
    pullup input n = some (input.take n) := by
  rw [pullup, if_neg (by omega)]

theorem pullup_of_lt {input : List UInt8} {n : ℕ} (h : input.length < n) :
    pullup input n = none := by
  rw [pullup, if_pos (.inr h)]

theorem unsupported_stays (hc : c.closed = false) (h : UnsupportedOption c) :
    clientHandler S c = some (.inl { c with
      world := sendUnsupportedOpt (((c.input.take 16).drop 8).take 4) c.world }) := by
  have hlen := h.length
  have hi : c.input ≠ [] := by
    intro he
    rw [he, List.length_nil] at hlen
    omega
  have hp := pullup_of_le (n := 16) (by decide) hlen
  rw [clientHandler_of_check S hc hi h.state]
  simp only [check, checkOptHeader, hp, dispatchOption, if_pos h.magic, if_neg h.exportName,
    if_neg h.abort, proceed_again]

theorem option_iteration (hc : c.closed = false) (hi : c.input ≠ [])
    (hst : c.client.state = .zeroReceived) : Iteration S c := by
  have hch := clientHandler_of_check S hc hi hst
  have hne : c.client.state ≠ .dataPushing := by
    rw [hst]
    decide
  have hrank : c.client.state.rank = 2 := by
    rw [hst]
    rfl
  -- all branches that give up the connection
  have hfail : checkOptHeader S c = (false, c.setState .disconnected) → Iteration S c := by
    intro hf
    refine moves_of_rank (t := c.setState .disconnected) hne hc (hch.trans ?_) le_rfl ?_
    · simp only [check, hf, Option.map_some, proceed, Bool.false_eq_true, if_false]
    · rw [hrank]
      exact Nat.zero_lt_succ 1
  rcases Nat.lt_or_ge c.input.length 16 with hlen | hlen
  · refine .returns c (hch.trans ?_)
    simp only [check, checkOptHeader, pullup_of_lt hlen, Option.map_some, proceed, if_true]
  have hp := pullup_of_le (n := 16) (by decide) hlen
  by_cases hm : beNat ((c.input.take 16).take 8) = newProtocol
  · by_cases hx : beNat (((c.input.take 16).drop 8).take 4) = optExportName
    · by_cases hn : beNat ((c.input.take 16).drop 12) = S.handle.nameLen
      · by_cases hs : c.input.length < 16 + beNat ((c.input.take 16).drop 12)
        · refine .returns c (hch.trans ?_)
          simp only [check, checkOptHeader, hp, dispatchOption, if_pos hm, if_pos hx,
            checkExportName, if_neg (not_not.mpr hn), if_pos hs, Option.map_some, proceed, if_true]
        · obtain ⟨hclosed, hlen', hr⟩ :=
            matchExportName_moves S (beNat ((c.input.take 16).drop 12)) (c.drain 16)
          refine moves_of_rank hne (hclosed.trans hc) (hch.trans ?_)
            (hlen'.trans (drain_length 16)) (by omega)
          simp only [check, checkOptHeader, hp, dispatchOption, if_pos hm, if_pos hx,
            checkExportName, if_neg (not_not.mpr hn), if_neg hs, Option.map_some, proceed,
            Bool.false_eq_true, if_false]
      · apply hfail
        simp only [checkOptHeader, hp, dispatchOption, if_pos hm, if_pos hx, checkExportName,
          if_pos hn]
    · by_cases ha : beNat (((c.input.take 16).drop 8).take 4) = optAbort
      · apply hfail
        simp only [checkOptHeader, hp, dispatchOption, if_pos hm, if_neg hx, if_pos ha]
      · have hu : UnsupportedOption c := ⟨hst, hlen, hm, hx, ha⟩
        exact .stays _ hu (unsupported_stays S hc hu)
  · apply hfail
    simp only [checkOptHeader, hp, dispatchOption, if_neg hm]

/-- In the transmission phase, a step that takes a header off is a move. -/
theorem moves_of_drain {S : Server} {t : Conn} {cmd : Cmd} (hr : RequestAt c cmd)
    (hs : clientHandler S c = some (.inl t)) (hcmd : t.closed = true ↔ cmd = .disc)
    (hi : t.input.length ≤ c.input.length - 28) (hst : t.client.state.rank ≤ 1) :
    Iteration S c := by
  have hlen := hr.length
  have hrank : c.client.state.rank = 1 := by
    rw [hr.state]
    rfl
  refine .moves t hs ⟨by omega, by omega, .inl (by omega)⟩ (hcmd.trans ⟨?_, ?_⟩)
  · rintro rfl
    exact hr
  · exact fun h => Option.some.inj (hr.type.symm.trans h.type)

theorem dispatch_of_request {cmd : Cmd} (hc : c.closed = false) (hr : RequestAt c cmd) :
    clientHandler S c = (dispatchRequest S c.request c).map proceed := by
  have hlen := hr.length
  have hi : c.input ≠ [] := by
    rintro h
    rw [h, List.length_nil] at hlen
    omega
  rw [clientHandler_of_check S hc hi hr.state, check, checkRequest,
    pullup_of_le (by decide) hr.length]
  rfl

theorem aborts_none (h : Aborts S c) : clientHandler S c = none := by
  rcases h.request with hr | hr
  · have hread : handleRead S c.request c = none := bind_of_none h.buffer _
    rw [dispatch_of_request S h.live hr, dispatchRequest_read S hr.magic hr.type,
      bind_of_none hread, Option.map_none]
  · have hwrite : handleWrite S c.request c = none := bind_of_none h.buffer _
    rw [dispatch_of_request S h.live hr, dispatchRequest_write S hr.magic hr.type,
      bind_of_none hwrite, Option.map_none]

theorem endless_none (hc : c.closed = false) (h : EndlessRead S c) : clientHandler S c = none := by
  rw [dispatch_of_request S hc h.request, dispatchRequest_read S h.request.magic h.request.type]
  obtain ⟨buf, hb⟩ := Option.ne_none_iff_exists'.mp h.buffer
  have hs : seekRead S.kernel (i64 c.request.offset) c.request.length buf c.world = none :=
    (seekRead_none_iff _ _ _ _ _).mpr ⟨h.offset, h.seek, h.dry⟩
  have hread : handleRead S c.request c = none := (bind_of_some hb _).trans (bind_of_none hs _)
  rw [bind_of_none hread, Option.map_none]

theorem read_iteration (hc : c.closed = false) (hr : RequestAt c .read) : Iteration S c := by
  have hd := dispatch_of_request S hc hr
  rw [dispatchRequest_read S hr.magic hr.type] at hd
  cases hb : S.memory.realloc c.client.buf c.request.length with
  | none =>
    have ha : Aborts S c := ⟨hc, .inl hr, hb⟩
    exact .aborts ha (aborts_none S ha)
  | some buf =>
    cases hs : seekRead S.kernel (i64 c.request.offset) c.request.length buf c.world with
    | none =>
      obtain ⟨hpos, hseek, hdry⟩ := (seekRead_none_iff _ _ _ _ _).mp hs
      have he : EndlessRead S c := ⟨hr, by rw [hb]; exact Option.some_ne_none buf, hpos, hseek, hdry⟩
      exact .endless he (endless_none S hc he)
    | some r =>
      obtain ⟨err, buf', w⟩ := r
      have hread : handleRead S c.request c =
          some (errCode err, { c.setBuf buf' with world := w }) :=
        (bind_of_some hb _).trans (bind_of_some hs _)
      rw [bind_of_some hread] at hd
      dsimp only at hd
      rw [if_neg (errCode_ne err), proceed_again] at hd
      refine moves_of_drain hr hd (iff_of_false ?_ (by decide)) ?_ ?_
      · exact fun h => absurd (hc.symm.trans h) Bool.false_ne_true
      · exact (List.length_drop ..).le
      · exact (congrArg ClientState.rank hr.state).le

theorem write_iteration (hc : c.closed = false) (hr : RequestAt c .write) : Iteration S c := by
  have hd := dispatch_of_request S hc hr
  rw [dispatchRequest_write S hr.magic hr.type] at hd
  cases hb : S.memory.realloc c.client.buf c.request.length with
  | none =>
    have ha : Aborts S c := ⟨hc, .inr hr, hb⟩
    exact .aborts ha (aborts_none S ha)
  | some buf =>
    rcases Nat.lt_or_ge c.input.length (28 + c.request.length) with hshort | hfull
    · rw [bind_of_some (handleWrite_short hb hshort)] at hd
      dsimp only at hd
      rw [if_pos rfl, proceed_return] at hd
      exact .returns _ hd
    · obtain ⟨err, w, hs, -⟩ := seekWrite_ends S (i64 c.request.offset)
        ((c.input.drop 28).take c.request.length) c.world
      have hwrite := handleWrite_full hb hfull
      rw [hs, Option.map_some] at hwrite
      rw [bind_of_some hwrite] at hd
      dsimp only at hd
      rw [if_neg (errCode_ne err), proceed_again] at hd
      refine moves_of_drain hr hd (iff_of_false ?_ (by decide)) ?_ ?_
      · exact fun h => absurd (hc.symm.trans h) Bool.false_ne_true
      · change ((c.input.drop 28).drop c.request.length).length ≤ _
        rw [List.length_drop, List.length_drop]
        omega
      · exact (congrArg ClientState.rank hr.state).le

theorem command_iteration (hc : c.closed = false) {cmd : Cmd} (hr : RequestAt c cmd) :
    Iteration S c := by
  have hd := dispatch_of_request S hc hr
  have hopen : ¬ c.closed = true := by
    rw [hc]
    exact Bool.false_ne_true
  have hrank : c.client.state.rank ≤ 1 := (congrArg ClientState.rank hr.state).le
  cases cmd with
  | read => exact read_iteration S hc hr
  | write => exact write_iteration S hc hr
  | disc =>
    rw [dispatchRequest, if_pos hr.magic, hr.type, proceed_again] at hd
    exact moves_of_drain hr hd (iff_of_true rfl rfl) (Nat.zero_le _) (Nat.zero_le 1)
  | flush =>
    rw [dispatchRequest_flush S hr.magic hr.type, proceed_again] at hd
    exact moves_of_drain hr hd (iff_of_false hopen (by decide)) (List.length_drop ..).le hrank
  | trim =>
    rw [dispatchRequest_trim S hr.magic hr.type, proceed_again] at hd
    exact moves_of_drain hr hd (iff_of_false hopen (by decide)) (List.length_drop ..).le hrank

theorem request_iteration (hc : c.closed = false) (hi : c.input ≠ [])
    (hst : c.client.state = .dataPushing) : Iteration S c := by
  have hch := clientHandler_of_check S hc hi hst
  rcases Nat.lt_or_ge c.input.length 28 with hlen | hlen
  · refine .returns c (hch.trans ?_)
    rw [check, checkRequest, pullup_of_lt hlen, proceed_return]
  have hreq : checkRequest S c = dispatchRequest S c.request c := by
    rw [checkRequest, pullup_of_le (by decide) hlen]
    rfl
  by_cases hm : c.request.magic = reqMagic
  · cases ht : Cmd.ofCode c.request.type with
    | some cmd => exact command_iteration S hc ⟨hst, hlen, hm, ht⟩
    | none =>
      refine .returns (unknownCommand c.request.length c) (hch.trans ?_)
      rw [check, hreq, dispatchRequest, if_pos hm, ht, proceed_return]
  · refine .returns c (hch.trans ?_)
    rw [check, hreq, dispatchRequest, if_neg hm, proceed_return]

theorem iteration (hc : c.closed = false) : Iteration S c := by
  by_cases hi : c.input = []
  · exact .returns c (clientHandler_idle S hc hi)
  cases hst : c.client.state with
  | handshakeSent => exact handshake_iteration S hc hi hst
  | zeroReceived => exact option_iteration S hc hi hst
  | dataPushing => exact request_iteration S hc hi hst
  | disconnected => exact .returns _ (clientHandler_of_check S hc hi hst)
  | optionSetting => exact .returns _ (clientHandler_of_check S hc hi hst)

end Iteration

/-! ## Whole calls -/

/-- The iteration takes input off, moves the client to another state, or is the last one. -/
def Progresses (S : Server) (c : Conn) : Prop :=
  Aborts S c ∨ ∃ r, clientHandler S c = some r ∧
    ∀ t, r = .inl t → t.input.length < c.input.length ∨ t.client.state ≠ c.client.state

/-- The call comes to an iteration from which the handler returns, or which aborts. -/
def CallEnds (S : Server) (c : Conn) : Prop :=
  ∃ t, Leads (clientHandler S) c t ∧ (Aborts S t ∨ ∃ r, clientHandler S t = some (.inr r))

section Call

variable {S : Server} {c : Conn}

theorem not_aborts_of_unsupported (h : UnsupportedOption c) : ¬ Aborts S c := by
  intro ha
  rcases ha.request with hr | hr
  · exact absurd (h.state.symm.trans hr.state) (by decide)
  · exact absurd (h.state.symm.trans hr.state) (by decide)

theorem progresses_iff (hc : c.closed = false) :
    Progresses S c ↔ ¬ UnsupportedOption c ∧ ¬ EndlessRead S c := by
  constructor
  · rintro (ha | ⟨r, hr, hp⟩)
    · exact ⟨fun hu => not_aborts_of_unsupported hu ha, fun he => he.buffer ha.buffer⟩
    · refine ⟨fun hu => ?_, fun he => ?_⟩
      · rw [unsupported_stays S hc hu] at hr
        rcases hp _ (Option.some.inj hr).symm with hlt | hne
        · exact absurd hlt (lt_irrefl _)
        · exact hne rfl
      · rw [endless_none S hc he] at hr
        cases hr
  · rintro ⟨hu, he⟩
    rcases iteration S hc with ⟨h, -⟩ | ⟨h, -⟩ | ⟨r, hs⟩ | ⟨w, h, -⟩ | ⟨t, hs, hm, -⟩
    · exact .inl h
    · exact absurd h he
    · refine .inr ⟨_, hs, fun t ht => ?_⟩
      cases ht
    · exact absurd h hu
    · refine .inr ⟨_, hs, fun u hu => ?_⟩
      obtain rfl := Sum.inl.inj hu
      rcases hm.forward with hlt | hlt
      · exact .inl hlt
      · exact .inr fun heq => absurd (congrArg ClientState.rank heq) hlt.ne

/-- An unsupported option stays at the front of the input for ever. -/
theorem unsupported_trap {t : Conn} (hc : c.closed = false) (hu : UnsupportedOption c)
    (ht : Leads (clientHandler S) c t) : t.closed = false ∧ UnsupportedOption t := by
  refine ht.trapped (fun t => t.closed = false ∧ UnsupportedOption t) ?_ ⟨hc, hu⟩
  rintro s t ⟨hs, hus⟩ h
  rw [unsupported_stays S hs hus] at h
  obtain rfl := Sum.inl.inj (Option.some.inj h)
  exact ⟨hs, hus.state, hus.length, hus.magic, hus.exportName, hus.abort⟩

theorem leads_of_none {t : Conn} (h : clientHandler S c = none)
    (ht : Leads (clientHandler S) c t) : t = c := by
  cases ht with
  | refl => rfl
  | step h' _ =>
    rw [h] at h'
    cases h'

theorem not_callEnds_of_unsupported (hc : c.closed = false) (hu : UnsupportedOption c) :
    ¬ CallEnds S c := by
  rintro ⟨t, ht, ha | ⟨r, hr⟩⟩
  · exact not_aborts_of_unsupported (unsupported_trap hc hu ht).2 ha
  · obtain ⟨hopen, hut⟩ := unsupported_trap hc hu ht
    rw [unsupported_stays S hopen hut] at hr
    cases hr

theorem not_callEnds_of_endless (hc : c.closed = false) (he : EndlessRead S c) :
    ¬ CallEnds S c := by
  have hnone := endless_none S hc he
  rintro ⟨t, ht, hend⟩
  obtain rfl := leads_of_none hnone ht
  rcases hend with ha | ⟨r, hr⟩
  · exact he.buffer ha.buffer
  · rw [hnone] at hr
    cases hr

theorem not_callEnds_of_closed (hc : c.closed = true) : ¬ CallEnds S c := by
  have hnone := clientHandler_closed S hc
  rintro ⟨t, ht, hend⟩
  obtain rfl := leads_of_none hnone ht
  rcases hend with ha | ⟨r, hr⟩
  · exact absurd (hc.symm.trans ha.live) (by decide)
  · rw [hnone] at hr
    cases hr

theorem CallEnds.of_leads {t : Conn} (h : CallEnds S c) (ht : Leads (clientHandler S) c t) :
    CallEnds S t := by
  obtain ⟨u, hu, hend⟩ := h
  refine ⟨u, hu.through (fun v hv => ?_) ht, hend⟩
  rcases hend with ha | ⟨r, hr⟩
  · rw [aborts_none S ha] at hv
    cases hv
  · rw [hr] at hv
    cases hv

theorem callEnds_iff :
    CallEnds S c ↔ ∀ t, Leads (clientHandler S) c t →
      t.closed = false ∧ ¬ UnsupportedOption t ∧ ¬ EndlessRead S t := by
  constructor
  · intro h t ht
    have hend := h.of_leads ht
    have hopen : t.closed = false :=
      Bool.eq_false_iff.mpr fun hclosed => not_callEnds_of_closed hclosed hend
    exact ⟨hopen, fun hu => not_callEnds_of_unsupported hopen hu hend,
      fun he => not_callEnds_of_endless hopen he hend⟩
  · intro h
    refine leads_of_measure _ (fun t => t.input.length + t.client.state.rank) fun t ht => ?_
    obtain ⟨hopen, hu, he⟩ := h t ht
    rcases iteration S hopen with ⟨h, -⟩ | ⟨h, -⟩ | ⟨r, hs⟩ | ⟨w, h, -⟩ | ⟨t, hs, hm, -⟩
    · exact .inl (.inl h)
    · exact absurd h he
    · exact .inl (.inr ⟨r, hs⟩)
    · exact absurd h hu
    · refine .inr ⟨t, hs, ?_⟩
      have hi := hm.input
      have hr := hm.rank
      rcases hm.forward with hlt | hlt <;> omega

end Call

/-- A new connection on which these bytes have come in. -/
def received (st : ClientState) (input : List UInt8) : Conn :=
  ⟨⟨st, 0, 0, none⟩, input, false, ⟨[1, 2, 3, 4], 0, 0, []⟩⟩

/-- The option `NBD_OPT_LIST` with no data. -/
def listOption : List UInt8 := beBytes 8 newProtocol ++ beBytes 4 3 ++ beBytes 4 0

/-- The handler tests the input of a connection that was torn down just when it has
worked off a DISC. -/
theorem no_step_after_teardown_iff (S : Server) (c : Conn) (hc : c.closed = false) :
    (∀ t, Leads (clientHandler S) c t → t.closed = false) ↔
      ∀ t, Leads (clientHandler S) c t → ¬ RequestAt t .disc := by
  constructor
  · intro h t ht hdisc
    rcases iteration S (h t ht) with ⟨ha, -⟩ | ⟨he, -⟩ | ⟨r, hs⟩ | ⟨w, hu, -⟩ | ⟨u, hs, -, hd⟩
    · rcases ha.request with hr | hr
      · exact absurd (hdisc.type.symm.trans hr.type) (by decide)
      · exact absurd (hdisc.type.symm.trans hr.type) (by decide)
    · exact absurd (hdisc.type.symm.trans he.request.type) (by decide)
    · rw [dispatch_of_request S (h t ht) hdisc, dispatchRequest, if_pos hdisc.magic,
        hdisc.type] at hs
      cases hs
    · exact absurd (hu.state.symm.trans hdisc.state) (by decide)
    · exact absurd ((h u (ht.next hs)).symm.trans (hd.mpr hdisc)) (by decide)
  · intro h t ht
    refine (ht.trapped (fun t => t.closed = false ∧ Leads (clientHandler S) c t) ?_
      ⟨hc, .refl c⟩).1
    rintro s t ⟨hs, hl⟩ hst
    refine ⟨?_, hl.next hst⟩
    rcases iteration S hs with ⟨-, hn⟩ | ⟨-, hn⟩ | ⟨r, hn⟩ | ⟨w, -, hn⟩ | ⟨u, hn, -, hd⟩
    · rw [hn] at hst
      cases hst
    · rw [hn] at hst
      cases hst
    · rw [hn] at hst
      cases hst
    · rw [hn] at hst
      obtain rfl := Sum.inl.inj (Option.some.inj hst)
      exact hs
    · rw [hn] at hst
      obtain rfl := Sum.inl.inj (Option.some.inj hst)
      exact Bool.eq_false_iff.mpr fun hclosed => h s hl (hd.mp hclosed)

theorem no_step_after_teardown_flush :
    (received .dataPushing (header .flush 1 0 0)).closed = false ∧
      ∀ t, Leads (clientHandler sampleServer) (received .dataPushing (header .flush 1 0 0)) t →
        t.closed = false := by
  refine ⟨rfl, (no_step_after_teardown_iff sampleServer _ rfl).mpr fun t ht hdisc => ?_⟩
  cases ht with
  | refl => exact absurd hdisc.type (by decide)
  | step h tail =>
    obtain rfl := Sum.inl.inj (Option.some.inj h)
    cases tail with
    | refl => exact absurd hdisc.length (by decide)
    | step h' _ => cases h'

theorem disc_leaves_freed_input :
    ∃ t, Leads (clientHandler sampleServer) (received .dataPushing (header .disc 1 0 0)) t ∧
      t.closed = true := by
  have h : clientHandler sampleServer (received .dataPushing (header .disc 1 0 0)) =
      some (.inl (((received .dataPushing (header .disc 1 0 0)).setState .disconnected).drain
        28).teardown) := by decide
  exact ⟨_, .step h (.refl _), rfl⟩

end GammaRay.Nbd
