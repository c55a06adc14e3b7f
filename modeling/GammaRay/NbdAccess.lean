import GammaRay.NbdAtomic

set_option autoImplicit false

/-!
# Who is served

A client of the new style gets to the disk only by four zero bytes and the one option that names
the export; the server takes nothing else off its input before.
-/
namespace GammaRay.Nbd
open Bytes Loop Observation

/-- The bytes of a client, in the order in which they arrive. -/
def arrivals {ι : Type} [DecidableEq ι] (i : ι) (events : List (WriteQueue.Event ι)) : List UInt8 :=
  events.flatMap fun
    | .arrive j bytes => if j = i then bytes else []
    | _ => []

/-- How far a client has come, by the bytes that have arrived from it. -/
inductive Gate (opening stream : List UInt8) (c : Conn) : Prop where
  | greeted (hstate : c.client.state = .handshakeSent) (hlive : c.closed = false)
      (h : stream = c.input)
  | zeros (hstate : c.client.state = .zeroReceived) (hlive : c.closed = false)
      (h : stream = [0, 0, 0, 0] ++ c.input)
  | granted (hstate : c.client.state = .dataPushing) (h : opening <+: stream)
  | gone (hstate : c.client.state = .disconnected)

section Gate

variable {S : Server} {c t : Conn} {opening stream : List UInt8}

theorem Gate.arrive (h : Gate opening stream c) (bytes : List UInt8) :
    Gate opening (stream ++ bytes) (c.add bytes) := by
  have hstate : (c.add bytes).client.state = c.client.state := by
    unfold Conn.add
    split <;> rfl
  cases h with
  | greeted hs hlive h =>
    refine .greeted (hstate.trans hs) (by rw [add_open hlive]; exact hlive) ?_
    rw [add_input hlive, h]
  | zeros hs hlive h =>
    refine .zeros (hstate.trans hs) (by rw [add_open hlive]; exact hlive) ?_
    rw [add_input hlive, h, List.append_assoc]
  | granted hs h => exact .granted (hstate.trans hs) (h.trans (List.prefix_append _ _))
  | gone hs => exact .gone (hstate.trans hs)

theorem strncmpEq_eq {a b rest : List UInt8} (hlen : a.length = b.length) (hb : 0 ∉ b)
    (h : strncmpEq a.length a (b ++ rest)) : a = b := by
  induction a generalizing b with
  | nil => exact (List.length_eq_zero_iff.mp hlen.symm).symm
  | cons x a ih =>
    cases b with
    | nil => cases hlen
    | cons y b =>
      rw [List.mem_cons, not_or] at hb
      rw [List.length_cons, List.cons_append, strncmpEq] at h
      split at h
      · cases h
      · rename_i hxy
        rw [not_not] at hxy
        rw [if_neg (by rw [hxy]; exact Ne.symm hb.1)] at h
        rw [hxy, ih (Nat.succ.inj hlen) hb.2 h]

theorem nameLen_eq (hn : S.handle.exportName.length < 2 ^ 32) :
    S.handle.nameLen = S.handle.exportName.length := by
  unfold Handle.nameLen u32
  omega

theorem handleRead_state {req : ReqHeader} {err : ℕ} (h : handleRead S req c = some (err, t)) :
    t.client.state = c.client.state := by
  rcases handleRead_cases S req c with ⟨hnone, -⟩ | ⟨e, buf, w, hread, -⟩
  · rw [hnone] at h
    cases h
  · rw [hread, Option.some.injEq, Prod.mk.injEq] at h
    rw [← h.2]
    rfl

theorem handleWrite_state {req : ReqHeader} {err : ℕ} (h : handleWrite S req c = some (err, t)) :
    t.client.state = c.client.state := by
  cases hb : S.memory.realloc c.client.buf req.length with
  | none =>
    have hnone : handleWrite S req c = none := bind_of_none hb _
    rw [hnone] at h
    cases h
  | some buf =>
    rcases Nat.lt_or_ge c.input.length (28 + req.length) with hshort | hfull
    · rw [handleWrite_short hb hshort, Option.some.injEq, Prod.mk.injEq] at h
      rw [← h.2]
      rfl
    · rw [handleWrite_full hb hfull, Option.map_eq_some_iff] at h
      obtain ⟨r, -, he⟩ := h
      rw [← (Prod.mk.inj he).2]
      rfl

/-- A request leaves the client where it is or disconnects it. -/
theorem dispatchRequest_state {req : ReqHeader} {ret : Bool}
    (h : dispatchRequest S req c = some (ret, t)) :
    t.client.state = c.client.state ∨ t.client.state = .disconnected := by
  have hanswer : ∀ {u : Conn} {err n len : ℕ} {data : Option (List UInt8)},
      (if err = minusOne then some (true, u)
        else some (false, { u.drain n with
          world := sendResponse err req.handle data len u.world })) = some (ret, t) →
      t.client.state = u.client.state := by
    intro u err n len data hu
    split at hu
    · rw [← (Prod.mk.inj (Option.some.inj hu)).2]
    · rw [← (Prod.mk.inj (Option.some.inj hu)).2]
      rfl
  by_cases hm : req.magic = reqMagic
  swap
  · rw [dispatchRequest, if_neg hm, Option.some.injEq, Prod.mk.injEq] at h
    exact .inl (by rw [← h.2])
  cases hcmd : Cmd.ofCode req.type with
  | none =>
    rw [dispatchRequest, if_pos hm, hcmd, Option.some.injEq, Prod.mk.injEq] at h
    refine .inr ?_
    rw [← h.2]
    rfl
  | some cmd =>
    cases cmd with
    | read =>
      rw [dispatchRequest_read S hm hcmd] at h
      obtain ⟨⟨err, u⟩, hu, h⟩ := Option.bind_eq_some_iff.mp h
      exact .inl ((hanswer h).trans (handleRead_state hu))
    | write =>
      rw [dispatchRequest_write S hm hcmd] at h
      obtain ⟨⟨err, u⟩, hu, h⟩ := Option.bind_eq_some_iff.mp h
      exact .inl ((hanswer h).trans (handleWrite_state hu))
    | disc =>
      rw [dispatchRequest, if_pos hm, hcmd, Option.some.injEq, Prod.mk.injEq] at h
      refine .inr ?_
      rw [← h.2]
      rfl
    | flush =>
      rw [dispatchRequest_flush S hm hcmd, Option.some.injEq, Prod.mk.injEq] at h
      refine .inl ?_
      rw [← h.2]
      rfl
    | trim =>
      rw [dispatchRequest_trim S hm hcmd, Option.some.injEq, Prod.mk.injEq] at h
      refine .inl ?_
      rw [← h.2]
      rfl

/-- One iteration of the handler moves a client on by its own bytes only. -/
theorem Gate.iterate (hn : S.handle.exportName.length < 2 ^ 32) {r : Conn ⊕ Conn}
    (hg : Gate (Opening.new S.handle.exportName hn).bytes stream c)
    (h : clientHandler S c = some r) :
    Gate (Opening.new S.handle.exportName hn).bytes stream (r.elim id id) := by
  have hc : c.closed = false := by
    by_contra hc
    rw [clientHandler_closed S (by simpa using hc)] at h
    cases h
  by_cases hi : c.input = []
  · rw [clientHandler_idle S hc hi, Option.some.injEq] at h
    rw [← h]
    exact hg
  rw [clientHandler_eq S hc hi, Option.map_eq_some_iff] at h
  obtain ⟨q, hq, rfl⟩ := h
  rw [WriteQueue.proceed_elim]
  cases hg with
  | greeted hs _ hstream =>
    rw [hs] at hq
    rw [← Option.some.inj hq]
    have hstep := checkZeroHandshake_step c
    generalize (checkZeroHandshake c).2 = t at hstep
    cases hstep with
    | wait => exact .greeted hs hc hstream
    | reject => exact .gone rfl
    | accept hin =>
      refine .zeros rfl hc ?_
      change stream = _ ++ c.input.drop 4
      rw [hstream, hin]
      rfl
  | zeros hs _ hstream =>
    rw [hs] at hq
    rw [← Option.some.inj hq]
    have hstep := checkOptHeader_step S c
    generalize (checkOptHeader S c).2 = t at hstep
    cases hstep with
    | wait => exact .zeros hs hc hstream
    | reject n => exact .gone rfl
    | unsupported option => exact .zeros hs hc hstream
    | @grant name rest hlen hname hin =>
      have heq : name = S.handle.exportName :=
        strncmpEq_eq (hlen.trans (nameLen_eq hn)) S.handle.noNul hname
      refine .granted rfl ⟨rest, ?_⟩
      rw [hstream, hin, heq, Opening.bytes]
      simp only [List.append_assoc]
  | granted hs hprefix =>
    rw [hs] at hq
    change checkRequest S c = some q at hq
    unfold checkRequest at hq
    split at hq
    · rw [← Option.some.inj hq]
      exact .granted hs hprefix
    · obtain ⟨ret, t⟩ := q
      rcases dispatchRequest_state hq with ht | ht
      · exact .granted (ht.trans hs) hprefix
      · exact .gone ht
  | gone hs =>
    rw [hs] at hq
    rw [← Option.some.inj hq]
    exact .gone hs

theorem state_of_asks {operation : Operation} (h : c.asks = some operation) :
    c.client.state = .dataPushing := by
  rcases asks_cases h with ⟨hr, -⟩ | ⟨hr, -, -⟩ | ⟨hr, -⟩ | ⟨hr, -⟩ <;> exact hr.state

theorem Gate.opened (hg : Gate opening stream c) (hs : c.client.state = .dataPushing) :
    opening <+: stream := by
  cases hg with
  | granted _ h => exact h
  | greeted h => rw [h] at hs; cases hs
  | zeros h => rw [h] at hs; cases hs
  | gone h => rw [h] at hs; cases hs

end Gate

theorem conn_eq {ι : Type} {s : WriteQueue.System ι} {i : ι} {c : Conn} (h : s.conns i = c) :
    s.conn i = { c with world := s.world } := by
  rw [WriteQueue.System.conn, h]

theorem add_world (c : Conn) (bytes : List UInt8) (w : World) :
    ({ c with world := w } : Conn).add bytes = { c.add bytes with world := w } := by
  unfold Conn.add
  cases hc : c.closed <;> simp [hc]

theorem gate_step {S : Server} (hn : S.handle.exportName.length < 2 ^ 32) {ι : Type}
    [DecidableEq ι] (i : ι) (past : List (WriteQueue.Event ι)) (s : WriteQueue.System ι)
    (e : WriteQueue.Event ι) (t : WriteQueue.System ι)
    (hg : Gate (Opening.new S.handle.exportName hn).bytes (arrivals i past) (s.conn i))
    (h : WriteQueue.step S s e = some t) :
    Gate (Opening.new S.handle.exportName hn).bytes (arrivals i (past ++ [e])) (t.conn i) := by
  have hworld : ∀ {stream : List UInt8} {c : Conn} (w : World),
      Gate (Opening.new S.handle.exportName hn).bytes stream c →
      Gate (Opening.new S.handle.exportName hn).bytes stream { c with world := w } := by
    intro stream c w hg
    cases hg with
    | greeted hs hc h => exact .greeted hs hc h
    | zeros hs hc h => exact .zeros hs hc h
    | granted hs h => exact .granted hs h
    | gone hs => exact .gone hs
  have happend : arrivals i (past ++ [e]) = arrivals i past ++ arrivals i [e] := by
    rw [arrivals, List.flatMap_append]
    rfl
  rw [happend]
  cases e with
  | arrive j bytes =>
    obtain rfl := Option.some.inj h
    by_cases hij : j = i
    · subst hij
      have hnew : arrivals j [.arrive j bytes] = bytes := by simp [arrivals]
      rw [hnew, conn_eq (Function.update_self ..), ← add_world]
      exact hg.arrive bytes
    · have hnew : arrivals i [.arrive j bytes] = [] := by simp [arrivals, hij]
      rw [hnew, List.append_nil, conn_eq (Function.update_of_ne (Ne.symm hij) ..)]
      exact hg
  | iterate j =>
    obtain ⟨r, hr, rfl⟩ := Option.map_eq_some_iff.mp h
    have hnew : arrivals i [.iterate j] = [] := rfl
    rw [hnew, List.append_nil]
    by_cases hij : j = i
    · subst hij
      rw [conn_eq (Function.update_self ..)]
      exact hworld _ (hg.iterate hn hr)
    · rw [conn_eq (Function.update_of_ne (Ne.symm hij) ..)]
      exact hworld (c := s.conn i) _ hg
  | apply =>
    obtain ⟨x, -, rfl⟩ := Option.map_eq_some_iff.mp h
    rw [show arrivals i [.apply] = [] from rfl, List.append_nil]
    exact hg
  | pop =>
    rw [show arrivals i [.pop] = [] from rfl, List.append_nil]
    simp only [WriteQueue.step] at h
    split at h
    · cases h
    · obtain ⟨x, -, rfl⟩ := Option.map_eq_some_iff.mp h
      exact hg

/-- Whatever the other clients do, no request of a client of the new style is completed before
its bytes are the four zeros and the option with the name of the export. -/
theorem completed_after_opening (S : Server) (hn : S.handle.exportName.length < 2 ^ 32) {ι : Type}
    [DecidableEq ι] (events : List (WriteQueue.Event ι)) (s : WriteQueue.System ι) (w : World)
    (i : ι) (hi : s.conns i = newConn w) (x : Completed ι)
    (hx : x ∈ (serverMachine S ι).trace events s) (hclient : x.client = i) :
    (Opening.new S.handle.exportName hn).bytes <+: arrivals i events := by
  have hinit : Gate (Opening.new S.handle.exportName hn).bytes (arrivals i []) (s.conn i) := by
    have hconn : s.conn i = newConn s.world := by
      rw [WriteQueue.System.conn, hi]
      rfl
    rw [hconn]
    exact .greeted rfl rfl rfl
  have hmem := Machine.mem_trace (M := serverMachine S ι)
    (I := fun past s => Gate (Opening.new S.handle.exportName hn).bytes (arrivals i past)
      (s.conn i))
    (P := fun past x => x.client = i →
      (Opening.new S.handle.exportName hn).bytes <+: arrivals i past)
    (gate_step hn i) ?_ ?_ hinit hx hclient
  · rwa [List.nil_append] at hmem
  · intro past s e x hg hx hclient
    cases e with
    | iterate j =>
      change x ∈ completes S j (s.conn j) at hx
      unfold completes at hx
      split at hx
      · rename_i operation r ha hr
        obtain rfl := List.mem_singleton.mp hx
        obtain rfl : j = i := hclient
        exact hg.opened (state_of_asks ha)
      · cases hx
    | _ => cases hx
  · intro past e x h hclient
    refine (h hclient).trans ?_
    rw [arrivals, arrivals, List.flatMap_append]
    exact List.prefix_append _ _

/-- A client of the new style. -/
def newClient : WriteQueue.System Unit where
  conns _ := newConn ⟨[], 0, 0, []⟩
  world := ⟨[], 0, 0, []⟩
  executed := []
  applied := 0
  list := []
  consumer := ⟨.idle, []⟩

def newClientEvents : List (WriteQueue.Event Unit) :=
  [.arrive () [0, 0], .iterate (), .arrive () ([0, 0] ++ (exportOption [0x78] ++ [0x78])),
    .iterate (), .iterate (), .arrive () (header .flush 5 0 0), .iterate ()]

theorem completed_after_opening_newClient :
    ⟨(), 5, .flush, replyHeader 0 5⟩ ∈
        (serverMachine wholeServer Unit).trace newClientEvents newClient ∧
      [0, 0, 0, 0] ++ (exportOption [0x78] ++ [0x78]) <+: arrivals () newClientEvents := by
  have hmem : ⟨(), 5, .flush, replyHeader 0 5⟩ ∈
      (serverMachine wholeServer Unit).trace newClientEvents newClient := by decide +kernel
  exact ⟨hmem, completed_after_opening wholeServer (by decide) newClientEvents newClient _ () rfl
    _ hmem rfl⟩

end GammaRay.Nbd
