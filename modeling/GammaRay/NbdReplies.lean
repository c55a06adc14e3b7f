import GammaRay.NbdEffects
import GammaRay.NbdProgress

set_option autoImplicit false

/-!
# The reply stream

What the server sends for a stream of requests, against the frames a client expects: a
header for each request, and behind it the data of a READ that was answered without error.
-/
namespace GammaRay.Nbd
open Bytes Loop

def Effect.sent : Effect → List UInt8
  | .send bytes => bytes
  | _ => []

/-- Everything the server has sent. -/
def World.sent (w : World) : List UInt8 := w.effects.flatMap Effect.sent

def Request.handle : Request → ℕ
  | .read handle _ _ | .write handle _ _ | .flush handle _ _ | .trim handle _ _ => handle.toNat

/-- How much data a request asks for. -/
def Request.wants : Request → ℕ
  | .read _ _ length => length.toNat
  | _ => 0

def replyHeader (err handle : ℕ) : List UInt8 :=
  beBytes 4 repMagic ++ beBytes 4 err ++ beBytes 8 handle

/-- The bytes are one reply for each request, in order, each with the handle of its request.
Data follows only where a READ was answered with error 0. -/
def Framed : List Request → List UInt8 → Prop
  | [], bytes => bytes = []
  | r :: rs, bytes => ∃ err data rest, err < 2 ^ 32 ∧
      bytes = replyHeader err r.handle ++ (data ++ rest) ∧
      data.length = (if err = 0 then r.wants else 0) ∧ Framed rs rest

/-- The payload of a WRITE has a length that fits the header. -/
def Request.Sized : Request → Prop
  | .write _ _ payload => payload.length < 2 ^ 32
  | _ => True

/-- A READ of at least one byte is answered with an error. -/
structure FailedRead (S : Server) (c : Conn) : Prop where
  request : RequestAt c .read
  length : 0 < c.request.length
  fails : ∃ buf e buf' w, S.memory.realloc c.client.buf c.request.length = some buf ∧
    seekRead S.kernel (i64 c.request.offset) c.request.length buf c.world = some (some e, buf', w)

theorem sent_of_onlyWrites {w w' : World} (h : OnlyWrites w w') : w'.sent = w.sent := by
  obtain ⟨es, he, hes⟩ := h
  have hnil : es.flatMap Effect.sent = [] := by
    rw [List.flatMap_eq_nil_iff]
    intro e hmem
    obtain ⟨offset, data, rfl⟩ := hes e hmem
    rfl
  rw [World.sent, he, List.flatMap_append, hnil, List.append_nil, World.sent]

theorem sent_emit (w : World) (e : Effect) : (w.emit e).sent = w.sent ++ e.sent := by
  simp [World.sent, World.emit]

theorem sent_seekWrite {S : Server} {offset : ℤ} {data : List UInt8} {w w' : World}
    {err : Option Errno} (h : seekWrite S offset data w = some (err, w')) :
    w'.sent = w.sent := by
  obtain ⟨w₁, hw, he⟩ := seekWrite_effects h
  rw [← sent_of_onlyWrites hw, World.sent, he, List.flatMap_append]
  cases err <;> simp [World.sent, Effect.sent]

theorem sent_sendResponse (err handle : ℕ) (w : World) :
    (sendResponse err handle none 0 w).sent = w.sent ++ replyHeader err handle :=
  sent_emit w _

theorem sent_sendResponse_data (err handle : ℕ) (d : List UInt8) (len : ℕ) (w : World) :
    (sendResponse err handle (some d) len w).sent =
      w.sent ++ (replyHeader err handle ++ d.take len) := by
  unfold sendResponse
  dsimp only
  split
  · rename_i hz
    rw [hz, List.take_zero, List.append_nil]
    exact sent_emit w _
  · rw [sent_emit, sent_emit, List.append_assoc]
    rfl

/-! ## One request -/

theorem realloc_length {m : Memory} {buf : Option (List UInt8)} {b : List UInt8} {len : ℕ}
    (h : m.realloc buf len = some b) : b.length = len := by
  cases buf with
  | none =>
    simp only [Memory.realloc, Option.some.injEq] at h
    rw [← h, Heap.malloc_length]
  | some a =>
    simp only [Memory.realloc] at h
    split at h
    · cases h
    · rw [← Option.some.inj h, List.length_append, List.length_take, List.length_drop,
        Heap.malloc_length]
      omega

theorem read_length {K : Kernel} {w w' : World} {len : ℕ} {data : List UInt8}
    (h : w.read K len = (.ok data, w')) : data.length ≤ len := by
  unfold World.read at h
  split at h
  · cases h
  · rw [← Except.ok.inj (Prod.mk.inj h).1, List.length_take]
    omega

theorem readLoop_length {K : Kernel} {fuel : ℕ} {buf buf' : List UInt8} {len : ℕ}
    {w w' : World} {err : Option Errno} (hlen : len ≤ buf.length)
    (h : readLoop K fuel buf len w = some (err, buf', w')) : buf'.length = buf.length := by
  induction fuel generalizing buf len w with
  | zero =>
    cases len with
    | zero =>
      simp only [readLoop, Option.some.injEq, Prod.mk.injEq] at h
      rw [h.2.1]
    | succ len => simp [readLoop] at h
  | succ fuel ih =>
    cases len with
    | zero =>
      simp only [readLoop, Option.some.injEq, Prod.mk.injEq] at h
      rw [h.2.1]
    | succ len =>
      rcases hr : w.read K (len + 1) with ⟨e | data, w₁⟩
      · simp only [readLoop, hr, Option.some.injEq, Prod.mk.injEq] at h
        rw [h.2.1]
      · have hd := read_length hr
        simp only [readLoop, hr] at h
        split at h
        · cases h
        · have hsplice : (splice buf 0 data).length = buf.length := splice_length (by omega)
          rw [ih (by omega) h, hsplice]

theorem seekRead_length {K : Kernel} {offset : ℤ} {len : ℕ} {buf buf' : List UInt8}
    {w w' : World} {err : Option Errno} (hlen : len ≤ buf.length)
    (h : seekRead K offset len buf w = some (err, buf', w')) : buf'.length = buf.length := by
  unfold seekRead at h
  rcases hk : w.lseek K offset with ⟨e | e, w₁⟩
  · rw [hk] at h
    exact readLoop_length hlen h
  · rw [hk] at h
    simp only [Option.some.injEq, Prod.mk.injEq] at h
    rw [h.2.1]

section Request

variable {S : Server} {c : Conn} {n : ℕ} {rest : List UInt8}

theorem request_header {cmd : Cmd} {handle offset : UInt64} {length : ℕ} (hl : length < 2 ^ 32)
    (hc : Serving c (header cmd handle offset length ++ rest) n) :
    c.request = ⟨reqMagic, cmd.code, handle.toNat, offset.toNat, length⟩ ∧ RequestAt c cmd := by
  have hreq : c.request = ⟨reqMagic, cmd.code, handle.toNat, offset.toNat, length⟩ := by
    rw [Conn.request, hc.input, ← header_length cmd handle offset length, List.take_left,
      parse_header cmd handle offset hl]
  refine ⟨hreq, hc.state, ?_, ?_, ?_⟩
  · rw [hc.input, List.length_append, header_length]
    omega
  · rw [hreq]
  · rw [hreq]
    exact Cmd.ofCode_code cmd

/-- The server has dealt with a request: where it goes on, and what it has sent. -/
structure Answered (S : Server) (c : Conn) (r : Request) (rest : List UInt8) (n : ℕ)
    (t : Conn) (err : ℕ) (data : List UInt8) : Prop where
  step : clientHandler S c = some (.inl t)
  serving : Serving t rest n
  err_lt : err < 2 ^ 32
  sent : t.world.sent = c.world.sent ++ (replyHeader err r.handle ++ data)
  length : data.length = r.wants
  failed : FailedRead S c ↔ err ≠ 0 ∧ 0 < r.wants

theorem errCode_lt (e : Option Errno) : errCode e < 2 ^ 32 := by
  cases e with
  | none => decide
  | some e => exact e.lt.trans (by decide)

theorem errCode_ne_zero {e : Option Errno} : errCode e ≠ 0 ↔ ∃ x, e = some x := by
  cases e with
  | none => simp [errCode]
  | some e => exact iff_of_true (Nat.ne_of_gt e.pos) ⟨e, rfl⟩

theorem not_failedRead {cmd : Cmd} (hr : RequestAt c cmd) (hcmd : cmd ≠ .read) :
    ¬ FailedRead S c :=
  fun h => hcmd (Option.some.inj (hr.type.symm.trans h.request.type))

theorem read_answered {handle offset : UInt64} {length : UInt32}
    (hc : Serving c ((Request.read handle offset length).bytes ++ rest) 0) :
    (Aborts S c ∨ EndlessRead S c) ∨
      ∃ t err data, Answered S c (.read handle offset length) rest 0 t err data := by
  obtain ⟨hreq, hr⟩ := request_header length.toNat_lt hc
  cases hb : S.memory.realloc c.client.buf length.toNat with
  | none => exact .inl (.inl ⟨hc.live, .inl hr, by rw [hreq]; exact hb⟩)
  | some buf =>
    cases hs : seekRead S.kernel (i64 offset.toNat) length.toNat buf c.world with
    | none =>
      obtain ⟨hpos, hseek, hdry⟩ := (seekRead_none_iff _ _ _ _ _).mp hs
      refine .inl (.inr ⟨hr, ?_, ?_, hseek, ?_⟩)
      · rw [hreq]
        simp only [hb, ne_eq, reduceCtorEq, not_false_eq_true]
      · rwa [hreq]
      · rwa [hreq]
    | some q =>
      obtain ⟨err, buf', w⟩ := q
      have hread : handleRead S c.request c =
          some (errCode err, { c.setBuf buf' with world := w }) := by
        rw [hreq]
        exact (bind_of_some hb _).trans (bind_of_some hs _)
      have hlen : buf'.length = length.toNat := by
        rw [seekRead_length (realloc_length hb).ge hs, realloc_length hb]
      refine .inr ⟨{ (c.setBuf buf').drain 28 with
        world := sendResponse (errCode err) handle.toNat (some buf') length.toNat w },
        errCode err, buf'.take length.toNat, ?_, ⟨hc.live, hc.state, ?_, Nat.zero_le _⟩,
        errCode_lt err, ?_, ?_, ?_⟩
      · rw [dispatch_of_request S hc.live hr, dispatchRequest_read S hr.magic hr.type,
          bind_of_some hread]
        dsimp only
        rw [if_neg (errCode_ne err), proceed_again, hreq]
        rfl
      · change c.input.drop 28 = rest
        rw [hc.input, Request.bytes, ← header_length .read handle offset length.toNat,
          List.drop_left]
      · have hsent : w.sent = c.world.sent :=
          sent_of_onlyWrites (.of_eq (seekRead_effects hs))
        exact (sent_sendResponse_data _ _ _ _ _).trans (by rw [hsent]; rfl)
      · rw [List.length_take, hlen, Nat.min_self]
        rfl
      · rw [errCode_ne_zero]
        constructor
        · rintro ⟨-, hpos, buf₁, e, buf₂, w₁, hb₁, hs₁⟩
          rw [hreq] at hpos hb₁ hs₁
          obtain rfl := Option.some.inj (hb.symm.trans hb₁)
          rw [show seekRead S.kernel (i64 offset.toNat) length.toNat buf c.world = _ from hs₁,
            Option.some.injEq, Prod.mk.injEq] at hs
          exact ⟨⟨e, hs.1.symm⟩, hpos⟩
        · rintro ⟨⟨e, rfl⟩, hpos⟩
          refine ⟨hr, ?_, buf, e, buf', w, ?_, ?_⟩
          · rw [hreq]
            exact hpos
          · rw [hreq]
            exact hb
          · rw [hreq]
            exact hs

theorem write_answered {handle offset : UInt64} {payload : List UInt8}
    (hl : payload.length < 2 ^ 32)
    (hc : Serving c ((Request.write handle offset payload).bytes ++ rest) 0) :
    (Aborts S c ∨ EndlessRead S c) ∨
      ∃ t err data, Answered S c (.write handle offset payload) rest 0 t err data := by
  rw [Request.bytes, List.append_assoc] at hc
  obtain ⟨hreq, hr⟩ := request_header hl hc
  cases hb : S.memory.realloc c.client.buf payload.length with
  | none => exact .inl (.inl ⟨hc.live, .inr hr, by rw [hreq]; exact hb⟩)
  | some buf =>
    have hdrop : c.input.drop 28 = payload ++ rest := by
      rw [hc.input, ← header_length .write handle offset payload.length, List.drop_left]
    obtain ⟨err, w, hs, -⟩ := seekWrite_ends S (i64 offset.toNat) payload c.world
    have hwrite : handleWrite S c.request c =
        some (errCode err, { (c.drain 28).countWrite payload with world := w }) := by
      rw [hreq, handleWrite_full hb (by rw [hc.input]; simp)]
      dsimp only
      rw [hdrop, List.take_left, hs]
      rfl
    refine .inr ⟨{ ((c.drain 28).countWrite payload).drain payload.length with
      world := sendResponse (errCode err) handle.toNat none 0 w }, errCode err, [], ?_,
      ⟨hc.live, hc.state, ?_, Nat.zero_le _⟩, errCode_lt err, ?_, rfl,
      iff_of_false (not_failedRead hr (by decide)) fun h => absurd h.2 (lt_irrefl 0)⟩
    · rw [dispatch_of_request S hc.live hr, dispatchRequest_write S hr.magic hr.type,
        bind_of_some hwrite]
      dsimp only
      rw [if_neg (errCode_ne err), proceed_again, hreq]
      rfl
    · change (c.input.drop 28).drop payload.length = rest
      rw [hdrop, List.drop_left]
    · have hsent := sent_seekWrite hs
      exact (sent_sendResponse _ _ _).trans (by rw [hsent, List.append_nil]; rfl)

/-- The requests that are answered with a header whatever becomes of them. -/
theorem plain_answered {cmd : Cmd} {handle offset : UInt64} {length : UInt32} {r : Request}
    {err : Option Errno} {w : World} (hcmd : cmd ≠ .read) (hwants : r.wants = 0)
    (hhandle : r.handle = handle.toNat)
    (hc : Serving c (header cmd handle offset length.toNat ++ rest) 0)
    (hd : dispatchRequest S c.request c = some (false, { c.drain 28 with
      world := sendResponse (errCode err) handle.toNat none 0 w }))
    (hsent : w.sent = c.world.sent) : ∃ t e data, Answered S c r rest 0 t e data := by
  obtain ⟨-, hr⟩ := request_header length.toNat_lt hc
  refine ⟨{ c.drain 28 with world := sendResponse (errCode err) handle.toNat none 0 w },
    errCode err, [], ?_, ⟨hc.live, hc.state, ?_, Nat.zero_le _⟩, errCode_lt err, ?_, ?_,
    iff_of_false (not_failedRead hr hcmd) fun h => absurd h.2 (by omega)⟩
  · rw [dispatch_of_request S hc.live hr, hd, proceed_again]
  · change c.input.drop 28 = rest
    rw [hc.input, ← header_length cmd handle offset length.toNat, List.drop_left]
  · exact (sent_sendResponse _ _ _).trans (by rw [hsent, hhandle, List.append_nil])
  · rw [hwants]
    rfl

theorem request_answered {r : Request} (hs : r.Sized) (hc : Serving c (r.bytes ++ rest) 0) :
    (Aborts S c ∨ EndlessRead S c) ∨ ∃ t err data, Answered S c r rest 0 t err data := by
  cases r with
  | read handle offset length => exact read_answered hc
  | write handle offset payload => exact write_answered hs hc
  | flush handle offset length =>
    obtain ⟨hreq, hr⟩ := request_header length.toNat_lt hc
    have hd := dispatchRequest_flush S hr.magic hr.type c
    rw [show c.request.handle = handle.toNat by rw [hreq]] at hd
    refine .inr (plain_answered (by decide) rfl rfl hc hd ?_)
    exact (sent_emit _ _).trans (List.append_nil _)
  | trim handle offset length =>
    obtain ⟨hreq, hr⟩ := request_header length.toNat_lt hc
    have hd := dispatchRequest_trim S hr.magic hr.type c
    rw [show c.request.handle = handle.toNat by rw [hreq]] at hd
    refine .inr (plain_answered (by decide) rfl rfl hc hd ?_)
    unfold World.fallocate
    split
    · exact (sent_emit _ _).trans (List.append_nil _)
    · exact (sent_emit _ _).trans (List.append_nil _)

end Request

/-! ## Streams of requests -/

theorem Framed.length_le {rs : List Request} {bytes : List UInt8} (h : Framed rs bytes) :
    bytes.length ≤ (rs.map fun r => 16 + r.wants).sum := by
  induction rs generalizing bytes with
  | nil =>
    rw [Framed] at h
    rw [h]
    exact Nat.zero_le _
  | cons r rs ih =>
    obtain ⟨err, data, rest, -, rfl, hd, hrest⟩ := h
    have hle := ih hrest
    have h16 : (replyHeader err r.handle).length = 16 := by simp [replyHeader]
    simp only [List.length_append, List.map_cons, List.sum_cons, h16, hd]
    split <;> omega

theorem beBytes_inj {w m n : ℕ} (hm : m < 256 ^ w) (hn : n < 256 ^ w)
    (h : beBytes w m = beBytes w n) : m = n := by
  rw [← beNat_beBytes_of_lt hm, h, beNat_beBytes_of_lt hn]

theorem replyHeader_inj {err err' handle : ℕ} {x y : List UInt8} (he : err < 2 ^ 32)
    (he' : err' < 2 ^ 32) (h : replyHeader err handle ++ x = replyHeader err' handle ++ y) :
    err = err' ∧ x = y := by
  obtain ⟨hh, hxy⟩ := List.append_inj h (by simp [replyHeader])
  obtain ⟨hpre, -⟩ := List.append_inj hh (by simp)
  exact ⟨beBytes_inj he he' (List.append_inj hpre (by simp)).2, hxy⟩

/-- The server sends the data of every READ, so its frames are as long as they could be. A
stream of that length is framed only if no data is sent beside an error. -/
theorem framed_cons_iff {r : Request} {rs : List Request} {err : ℕ} {data rest : List UInt8}
    (he : err < 2 ^ 32) (hd : data.length = r.wants)
    (hrest : rest.length = (rs.map fun r => 16 + r.wants).sum) :
    Framed (r :: rs) (replyHeader err r.handle ++ (data ++ rest)) ↔
      ¬ (err ≠ 0 ∧ 0 < r.wants) ∧ Framed rs rest := by
  constructor
  · rintro ⟨err', data', rest', he', heq, hd', hf⟩
    obtain ⟨rfl, htail⟩ := replyHeader_inj he he' heq
    have hle := hf.length_le
    have hlen := congrArg List.length htail
    rw [List.length_append, List.length_append, hd, hd', hrest] at hlen
    have hdata : data.length = data'.length := by
      rw [hd, hd']
      split at hlen <;> split <;> omega
    obtain ⟨-, rfl⟩ := List.append_inj htail hdata
    refine ⟨?_, hf⟩
    rintro ⟨hne, hpos⟩
    rw [if_neg hne] at hlen
    omega
  · rintro ⟨hok, hf⟩
    refine ⟨err, data, rest, he, rfl, ?_, hf⟩
    rw [hd]
    split
    · rfl
    · rename_i hne
      by_contra hpos
      exact hok ⟨hne, by omega⟩

/-- No iteration of a call comes to a request that is never answered, or to a READ that is
answered with an error. -/
def AllAnswered (S : Server) (c : Conn) : Prop :=
  ∀ t, Leads (clientHandler S) c t → ¬ Aborts S t ∧ ¬ EndlessRead S t ∧ ¬ FailedRead S t

theorem leads_iff_of_step {S : Server} {c t : Conn} (h : clientHandler S c = some (.inl t))
    {P : Conn → Prop} :
    (∀ u, Leads (clientHandler S) c u → P u) ↔ P c ∧ ∀ u, Leads (clientHandler S) t u → P u := by
  constructor
  · intro hp
    exact ⟨hp c (.refl c), fun u hu => hp u (.step h hu)⟩
  · rintro ⟨hc, ht⟩ u hu
    cases hu with
    | refl => exact hc
    | step h' tail =>
      rw [h, Option.some.injEq, Sum.inl.injEq] at h'
      exact ht u (h' ▸ tail)

theorem requests_sent {S : Server} {c : Conn} {rs : List Request} (hs : ∀ r ∈ rs, r.Sized)
    (hc : Serving c (rs.map Request.bytes).flatten 0) :
    (∃ t, Leads (clientHandler S) c t ∧ clientHandler S t = none ∧
        (Aborts S t ∨ EndlessRead S t)) ∨
      ∃ t bytes, Ends (clientHandler S) c t ∧ t.world.sent = c.world.sent ++ bytes ∧
        bytes.length = (rs.map fun r => 16 + r.wants).sum ∧
        (Framed rs bytes ↔ ∀ u, Leads (clientHandler S) c u → ¬ FailedRead S u) := by
  induction rs generalizing c with
  | nil =>
    have hidle := clientHandler_idle S hc.live hc.input
    refine .inr ⟨c, [], .leave hidle, (List.append_nil _).symm, rfl, iff_of_true rfl ?_⟩
    intro u hu hf
    cases hu with
    | refl =>
      have hlen := hf.request.length
      rw [hc.input] at hlen
      exact absurd hlen (by decide)
    | step h' _ =>
      rw [hidle] at h'
      cases h'
  | cons r rs ih =>
    rcases request_answered (S := S) (hs r List.mem_cons_self) hc with (ha | he) | ⟨t, err, data, h⟩
    · exact .inl ⟨c, .refl c, aborts_none S ha, .inl ha⟩
    · exact .inl ⟨c, .refl c, endless_none S hc.live he, .inr he⟩
    · rcases ih (fun q hq => hs q (List.mem_cons_of_mem r hq)) h.serving with
        ⟨u, hu, hstuck⟩ | ⟨u, bytes, hends, hsent, hlen, hframed⟩
      · exact .inl ⟨u, .step h.step hu, hstuck⟩
      · refine .inr ⟨u, replyHeader err r.handle ++ (data ++ bytes), .again h.step hends, ?_, ?_,
          ?_⟩
        · rw [hsent, h.sent, List.append_assoc, List.append_assoc]
        · have h16 : (replyHeader err r.handle).length = 16 := by simp [replyHeader]
          simp only [List.length_append, h16, h.length, hlen, List.map_cons, List.sum_cons]
          omega
        · rw [framed_cons_iff h.err_lt h.length hlen, hframed, leads_iff_of_step h.step, h.failed]

/-- The bytes sent for a stream of complete requests are one frame for each request just when
every request is answered, and no READ of at least one byte with an error. -/
theorem reply_framing_iff (S : Server) (c : Conn) (rs : List Request) (hs : ∀ r ∈ rs, r.Sized)
    (hc : Serving c (rs.map Request.bytes).flatten 0) :
    (∃ t bytes, Ends (clientHandler S) c t ∧ t.world.sent = c.world.sent ++ bytes ∧
      Framed rs bytes) ↔ AllAnswered S c := by
  rcases requests_sent (S := S) hs hc with
    ⟨u, hu, hnone, hstuck⟩ | ⟨t, bytes, hends, hsent, -, hframed⟩
  · refine iff_of_false ?_ ?_
    · rintro ⟨t, bytes, hends, -⟩
      exact not_ends_of_none hnone (hends.of_leads hu)
    · intro hall
      rcases hstuck with ha | he
      · exact (hall u hu).1 ha
      · exact (hall u hu).2.1 he
  · constructor
    · rintro ⟨t', bytes', hends', hsent', hf⟩
      obtain rfl := hends.unique hends'
      obtain rfl := List.append_cancel_left (hsent.symm.trans hsent')
      have hlive : ∀ u, Leads (clientHandler S) c u → u.closed = false := by
        intro u hu
        refine Bool.eq_false_iff.mpr fun hclosed => ?_
        exact not_ends_of_none (clientHandler_closed S hclosed) (hends.of_leads hu)
      intro u hu
      refine ⟨fun ha => ?_, fun he => ?_, hframed.mp hf u hu⟩
      · exact not_ends_of_none (aborts_none S ha) (hends.of_leads hu)
      · exact not_ends_of_none (endless_none S (hlive u hu) he) (hends.of_leads hu)
    · intro hall
      exact ⟨t, bytes, hends, hsent, hframed.mpr fun u hu => (hall u hu).2.2⟩

/-- FLUSH and WRITE only, on a kernel whose second call fails. -/
def flushWrite : List Request := [.flush 1 0 0, .write 2 0 [7, 8]]

theorem reply_framing_flushWrite :
    (∀ r ∈ flushWrite, r.Sized) ∧ AllAnswered sampleServer
      (received .dataPushing (flushWrite.map Request.bytes).flatten) := by
  have hs : ∀ r ∈ flushWrite, r.Sized := by simp [flushWrite, Request.Sized]
  refine ⟨hs, (reply_framing_iff sampleServer _ flushWrite hs
    ⟨rfl, rfl, rfl, Nat.zero_le _⟩).mp ?_⟩
  refine ⟨_, replyHeader 0 1 ++ ([] ++ (replyHeader 22 2 ++ ([] ++ []))),
    .again rfl (.again rfl (.leave rfl)), by decide, ?_⟩
  exact ⟨0, [], _, by decide, rfl, rfl, 22, [], [], by decide, rfl, rfl, rfl⟩

/-- A kernel on which no seek succeeds. -/
def noSeekServer : Server where
  handle := ⟨4, [0x78], letter_noNul⟩
  kernel := { balkyKernel with lseek := fun _ => some einval }
  memory := { zeroHeap with behind := fun n => List.replicate n 0 }

/-- The READ that fails is answered with a header and two bytes no one has asked for. -/
theorem failed_read_sends_data :
    ∃ t bytes, Ends (clientHandler noSeekServer)
        (received .dataPushing (Request.read 5 0 2).bytes) t ∧
      t.world.sent = [] ++ bytes ∧ ¬ Framed [.read 5 0 2] bytes := by
  refine ⟨_, replyHeader 22 5 ++ ([0, 0] ++ []), .again rfl (.leave rfl), by decide, ?_⟩
  rw [show (5 : ℕ) = (Request.read 5 0 2).handle from rfl, framed_cons_iff (by decide) rfl rfl]
  exact fun h => h.1 (by decide)

end GammaRay.Nbd
