import GammaRay.NbdResume

set_option autoImplicit false

/-!
# Client streams and their segmentation

A stream of well-formed requests is worked off to its end, one iteration for each request.
Together with the resumption of the handler this makes every way of cutting the stream
end in one and the same connection, the record of all effects included.
-/
namespace GammaRay.Nbd
open Bytes Loop

/-- What a client may ask for once it is let in. -/
inductive Request where
  | read (handle offset : UInt64) (length : UInt32)
  | write (handle offset : UInt64) (payload : List UInt8)
  | flush (handle offset : UInt64) (length : UInt32)
  | trim (handle offset : UInt64) (length : UInt32)

def header (cmd : Cmd) (handle offset : UInt64) (length : ℕ) : List UInt8 :=
  beBytes 4 reqMagic ++ (beBytes 4 cmd.code ++ (beBytes 8 handle.toNat ++
    (beBytes 8 offset.toNat ++ beBytes 4 length)))

def Request.bytes : Request → List UInt8
  | .read handle offset length => header .read handle offset length.toNat
  | .write handle offset payload => header .write handle offset payload.length ++ payload
  | .flush handle offset length => header .flush handle offset length.toNat
  | .trim handle offset length => header .trim handle offset length.toNat

/-- Transfers are not empty, and reads stay inside the file. -/
def Request.Valid (fileSize : ℕ) : Request → Prop
  | .read _ offset length => 0 < length.toNat ∧ offset.toNat + length.toNat ≤ fileSize
  | .write _ _ payload => 0 < payload.length ∧ payload.length < 2 ^ 32
  | .flush _ _ _ => True
  | .trim _ _ _ => True

@[simp] theorem header_length (cmd : Cmd) (handle offset : UInt64) (length : ℕ) :
    (header cmd handle offset length).length = 28 := by
  simp [header]

theorem parse_header (cmd : Cmd) (handle offset : UInt64) {length : ℕ} (hl : length < 2 ^ 32) :
    ReqHeader.parse (header cmd handle offset length) =
      ⟨reqMagic, cmd.code, handle.toNat, offset.toNat, length⟩ := by
  have hm : beNat (beBytes 4 reqMagic) = reqMagic := beNat_beBytes_of_lt (by decide)
  have hc : beNat (beBytes 4 cmd.code) = cmd.code :=
    beNat_beBytes_of_lt (by cases cmd <;> decide)
  have hh : beNat (beBytes 8 handle.toNat) = handle.toNat := beNat_beBytes_of_lt handle.toNat_lt
  have ho : beNat (beBytes 8 offset.toNat) = offset.toNat := beNat_beBytes_of_lt offset.toNat_lt
  have hn : beNat (beBytes 4 length) = length := beNat_beBytes_of_lt hl
  have h₀ := @field_append [] (beBytes 4 reqMagic) (beBytes 4 cmd.code ++
    (beBytes 8 handle.toNat ++ (beBytes 8 offset.toNat ++ beBytes 4 length))) 0 4 rfl (by simp)
  have h₁ := @field_append (beBytes 4 reqMagic) (beBytes 4 cmd.code)
    (beBytes 8 handle.toNat ++ (beBytes 8 offset.toNat ++ beBytes 4 length)) 4 4 (by simp) (by simp)
  have h₂ := @field_append (beBytes 4 reqMagic ++ beBytes 4 cmd.code) (beBytes 8 handle.toNat)
    (beBytes 8 offset.toNat ++ beBytes 4 length) 8 8 (by simp) (by simp)
  have h₃ := @field_append (beBytes 4 reqMagic ++ beBytes 4 cmd.code ++ beBytes 8 handle.toNat)
    (beBytes 8 offset.toNat) (beBytes 4 length) 16 8 (by simp) (by simp)
  have h₄ := @field_append (beBytes 4 reqMagic ++ beBytes 4 cmd.code ++ beBytes 8 handle.toNat ++
    beBytes 8 offset.toNat) (beBytes 4 length) [] 24 4 (by simp) (by simp)
  simp only [List.append_assoc, List.nil_append, List.drop_zero, List.append_nil] at h₀ h₁ h₂ h₃ h₄
  simp only [ReqHeader.parse, header, h₀, h₁, h₂, h₃, h₄, hm, hc, hh, ho, hn]

theorem store_length (file : List UInt8) (offset : ℕ) (data : List UInt8) :
    file.length ≤ (store file offset data).length := by
  simp only [store, List.length_append, List.length_take, List.length_replicate,
    List.length_drop]
  omega

/-- Inside the file one `read` brings as much as the kernel gives at a time. -/
theorem readPart_length {file : List UInt8} {position len : ℕ} (k : ℕ)
    (hroom : position + len ≤ file.length) :
    ((file.drop position).take (min (max 1 k) len)).length = min (max 1 k) len := by
  rw [List.length_take, List.length_drop]
  omega

theorem readPart_isEmpty {file : List UInt8} {position len : ℕ} (k : ℕ) (hpos : 0 < len)
    (hroom : position + len ≤ file.length) :
    ((file.drop position).take (min (max 1 k) len)).isEmpty = false := by
  rw [List.isEmpty_eq_false_iff, ← List.length_pos_iff, readPart_length k hroom]
  omega

/-- Inside the file a read makes headway with every call, so it ends. -/
theorem readLoop_ends (K : Kernel) (fuel : ℕ) (buf : List UInt8) (len : ℕ) (w : World)
    (hf : len ≤ fuel) (hp : w.position + len ≤ w.file.length) :
    ∃ err buf' w', readLoop K fuel buf len w = some (err, buf', w') ∧ w'.file = w.file := by
  induction fuel generalizing buf len w with
  | zero =>
    have hz : len = 0 := by omega
    subst hz
    exact ⟨none, buf, w, rfl, rfl⟩
  | succ fuel ih =>
    cases len with
    | zero => exact ⟨none, buf, w, rfl, rfl⟩
    | succ len =>
      cases hr : K.read w.calls with
      | error e => exact ⟨some e, buf, w.called, by simp only [readLoop, World.read, hr], rfl⟩
      | ok k =>
        set data := (w.file.drop w.position).take (min (max 1 k) (len + 1)) with hdata
        have hlen : data.length = min (max 1 k) (len + 1) := readPart_length k hp
        have hne : data.isEmpty = false := readPart_isEmpty k (Nat.succ_pos len) hp
        obtain ⟨err, buf', w', he, hw⟩ := ih (splice buf 0 data) (len + 1 - data.length)
          { w.called with position := w.position + data.length } (by omega)
          (by change w.position + data.length + _ ≤ w.file.length; omega)
        refine ⟨err, buf', w', ?_, hw⟩
        simp only [readLoop, World.read, hr, ← hdata, hne, Bool.false_eq_true, ↓reduceIte, he]

theorem seekRead_ends (K : Kernel) (offset : ℤ) (len : ℕ) (buf : List UInt8) (w : World)
    (hp : 0 ≤ offset → offset.toNat + len ≤ w.file.length) :
    ∃ err buf' w', seekRead K offset len buf w = some (err, buf', w') ∧ w'.file = w.file := by
  by_cases hneg : offset < 0
  · exact ⟨some einval, buf, w.called, by simp only [seekRead, World.lseek, if_pos hneg], rfl⟩
  · cases hl : K.lseek w.calls with
    | some e =>
      exact ⟨some e, buf, w.called, by simp only [seekRead, World.lseek, if_neg hneg, hl], rfl⟩
    | none =>
      obtain ⟨err, buf', w', he, hw⟩ := readLoop_ends K len buf len
        { w.called with position := offset.toNat } le_rfl (hp (by omega))
      refine ⟨err, buf', w', ?_, hw⟩
      simp only [seekRead, World.lseek, if_neg hneg, hl, he]

/-- Every call of `write` moves on by at least a byte. -/
theorem writeLoop_ends (S : Server) (buf : List UInt8) (len fuel pos : ℕ) (w : World)
    (hf : len ≤ fuel + pos) :
    ∃ err w', writeLoop S buf len fuel pos w = some (err, w') ∧
      w.file.length ≤ w'.file.length := by
  induction fuel generalizing pos w with
  | zero =>
    have hge : ¬ pos < len := by omega
    exact ⟨none, w, by simp only [writeLoop, if_neg hge], le_rfl⟩
  | succ fuel ih =>
    by_cases hlt : pos < len
    · set data := (buf.drop pos ++ S.memory.behind pos).take len with hdata
      cases hr : S.kernel.write w.calls with
      | error e =>
        exact ⟨some e, w.called,
          by simp only [writeLoop, if_pos hlt, World.write, hr], le_rfl⟩
      | ok k =>
        have hn : 1 ≤ max 1 (min k data.length) := le_max_left _ _
        obtain ⟨err, w', he, hw⟩ := ih (pos + max 1 (min k data.length))
          { w.called.emit (.write w.position (data.take (max 1 (min k data.length)))) with
            file := store w.file w.position (data.take (max 1 (min k data.length)))
            position := w.position + max 1 (min k data.length) } (by omega)
        refine ⟨err, w', ?_, le_trans (store_length _ _ _) hw⟩
        simp only [writeLoop, if_pos hlt, World.write, hr, ← hdata, he]
    · exact ⟨none, w, by simp only [writeLoop, if_neg hlt], le_rfl⟩

theorem lseek_file (K : Kernel) (w : World) (offset : ℤ) :
    (w.lseek K offset).2.file = w.file := by
  unfold World.lseek
  split
  · rfl
  · split <;> rfl

theorem seekWrite_ends (S : Server) (offset : ℤ) (data : List UInt8) (w : World) :
    ∃ err w', seekWrite S offset data w = some (err, w') ∧
      w.file.length ≤ w'.file.length := by
  have hfile := lseek_file S.kernel w offset
  rcases hl : w.lseek S.kernel offset with ⟨e | e, w₁⟩
  · obtain ⟨err, w', he, hw⟩ := writeLoop_ends S data data.length data.length 0 w₁ le_rfl
    rw [hl] at hfile
    rw [← hfile]
    cases err with
    | none =>
      refine ⟨none, (w'.emit (.lpush (i64Bytes (offset.tdiv 512)))).emit (.lpush data), ?_, hw⟩
      simp only [seekWrite, hl, he, Option.bind_eq_bind, Option.bind_some]
    | some e =>
      refine ⟨some e, w', ?_, hw⟩
      simp only [seekWrite, hl, he, Option.bind_eq_bind, Option.bind_some]
  · rw [hl] at hfile
    exact ⟨some e, w₁, by simp only [seekWrite, hl], by rw [← hfile]⟩

/-- A client that was let in, its input, and how long the file is at least. -/
structure Serving (c : Conn) (input : List UInt8) (fileSize : ℕ) : Prop where
  live : c.closed = false
  state : c.client.state = .dataPushing
  input : c.input = input
  fileSize : fileSize ≤ c.world.file.length

theorem sendResponse_file (err handle : ℕ) (data : Option (List UInt8)) (len : ℕ) (w : World) :
    (sendResponse err handle data len w).file = w.file := by
  unfold sendResponse
  cases data with
  | none => rfl
  | some d =>
    dsimp only
    split <;> rfl

theorem realloc_pos (m : Memory) (buf : Option (List UInt8)) {len : ℕ} (h : 0 < len) :
    ∃ b, m.realloc buf len = some b := by
  cases buf with
  | none => exact ⟨_, rfl⟩
  | some b => exact ⟨_, if_neg (by omega)⟩

theorem clientHandler_request (S : Server) {c t : Conn} (cmd : Cmd) (handle offset : UInt64)
    {length n : ℕ} {rest : List UInt8} (hl : length < 2 ^ 32)
    (hc : Serving c (header cmd handle offset length ++ rest) n)
    (hd : dispatchRequest S ⟨reqMagic, cmd.code, handle.toNat, offset.toNat, length⟩ c =
      some (false, t)) :
    clientHandler S c = some (.inl t) := by
  have h28 := header_length cmd handle offset length
  have hp : pullup c.input 28 = some (header cmd handle offset length) := by
    rw [hc.input, pullup, if_neg (by simp), ← h28, List.take_left]
  have hne : c.input ≠ [] := by
    intro h
    rw [h] at hp
    simp [pullup] at hp
  rw [clientHandler_eq S hc.live hne, hc.state]
  have hcheck : checkRequest S c = some (false, t) := by
    rw [checkRequest, hp]
    dsimp only
    rw [parse_header cmd handle offset hl, hd]
  change (checkRequest S c).map proceed = _
  rw [hcheck]
  rfl

theorem read_step (S : Server) {c : Conn} (handle offset : UInt64) {length n : ℕ}
    {rest : List UInt8} (hpos : 0 < length) (hl : length < 2 ^ 32)
    (hin : offset.toNat + length ≤ n)
    (hc : Serving c (header .read handle offset length ++ rest) n) :
    ∃ t, clientHandler S c = some (.inl t) ∧ Serving t rest n := by
  obtain ⟨buf, hb⟩ := realloc_pos S.memory c.client.buf hpos
  have hfit : 0 ≤ i64 offset.toNat →
      (i64 offset.toNat).toNat + length ≤ c.world.file.length := by
    intro h0
    rw [i64_toNat_of_nonneg offset.toNat_lt h0]
    exact le_trans hin hc.fileSize
  obtain ⟨err, buf', w', hr, hw⟩ :=
    seekRead_ends S.kernel (i64 offset.toNat) length buf c.world hfit
  have hread : handleRead S ⟨reqMagic, Cmd.read.code, handle.toNat, offset.toNat, length⟩ c =
      some (errCode err, { c.setBuf buf' with world := w' }) :=
    (bind_of_some hb _).trans (bind_of_some hr _)
  refine ⟨{ (c.setBuf buf').drain 28 with
    world := sendResponse (errCode err) handle.toNat (some buf') length w' },
    clientHandler_request S .read handle offset hl hc ?_, hc.live, hc.state, ?_, ?_⟩
  · rw [dispatchRequest_read S rfl (Cmd.ofCode_code .read), bind_of_some hread]
    exact if_neg (errCode_ne err)
  · change c.input.drop 28 = rest
    rw [hc.input, ← header_length .read handle offset length, List.drop_left]
  · change n ≤ (sendResponse _ _ _ _ w').file.length
    rw [sendResponse_file, hw]
    exact hc.fileSize

theorem write_step (S : Server) {c : Conn} (handle offset : UInt64) {n : ℕ}
    {payload rest : List UInt8} (hpos : 0 < payload.length) (hl : payload.length < 2 ^ 32)
    (hc : Serving c (header .write handle offset payload.length ++ (payload ++ rest)) n) :
    ∃ t, clientHandler S c = some (.inl t) ∧ Serving t rest n := by
  obtain ⟨buf, hb⟩ := realloc_pos S.memory c.client.buf hpos
  obtain ⟨err, w', hr, hw⟩ := seekWrite_ends S (i64 offset.toNat) payload c.world
  have h28 := header_length .write handle offset payload.length
  have hdrop : c.input.drop 28 = payload ++ rest := by
    rw [hc.input, ← h28, List.drop_left]
  have hdata : (c.input.drop 28).take payload.length = payload := by
    rw [hdrop, List.take_left]
  have hwrite : handleWrite S
      ⟨reqMagic, Cmd.write.code, handle.toNat, offset.toNat, payload.length⟩ c =
      some (errCode err, { (c.drain 28).countWrite payload with world := w' }) := by
    rw [handleWrite_full hb (by rw [hc.input]; simp)]
    dsimp only
    rw [hdata, hr]
    rfl
  refine ⟨{ ((c.drain 28).countWrite payload).drain payload.length with
    world := sendResponse (errCode err) handle.toNat none 0 w' },
    clientHandler_request S .write handle offset hl hc ?_, hc.live, hc.state, ?_, ?_⟩
  · rw [dispatchRequest_write S rfl (Cmd.ofCode_code .write), bind_of_some hwrite]
    exact if_neg (errCode_ne err)
  · change (c.input.drop 28).drop payload.length = rest
    rw [hdrop, List.drop_left]
  · change n ≤ (sendResponse _ _ _ _ w').file.length
    rw [sendResponse_file]
    exact le_trans hc.fileSize hw

theorem punch_length (file : List UInt8) (offset : ℤ) (len : ℕ) :
    (punch file offset len).length = file.length := by
  simp [punch]

theorem fallocate_file_length (K : Kernel) (w : World) (offset : ℤ) (len : ℕ) :
    (w.fallocate K offset len).2.file.length = w.file.length := by
  unfold World.fallocate
  cases K.fallocate w.calls with
  | some e => rfl
  | none => exact punch_length w.file offset len

/-- One request, one iteration. -/
theorem request_step (S : Server) {c : Conn} {n : ℕ} {rest : List UInt8} (r : Request)
    (hr : r.Valid n) (hc : Serving c (r.bytes ++ rest) n) :
    ∃ t, clientHandler S c = some (.inl t) ∧ Serving t rest n := by
  cases r with
  | read handle offset length =>
    exact read_step S handle offset hr.1 length.toNat_lt hr.2 hc
  | write handle offset payload =>
    refine write_step S handle offset hr.1 hr.2 ?_
    rw [← List.append_assoc]
    exact hc
  | flush handle offset length =>
    refine ⟨_, clientHandler_request S .flush handle offset length.toNat_lt hc
      (dispatchRequest_flush S rfl (Cmd.ofCode_code .flush) c), hc.live, hc.state, ?_, ?_⟩
    · change c.input.drop 28 = rest
      rw [hc.input, Request.bytes, ← header_length .flush handle offset length.toNat,
        List.drop_left]
    · change n ≤ (sendResponse _ _ _ _ (c.world.fsync S.kernel).2).file.length
      rw [sendResponse_file]
      exact hc.fileSize
  | trim handle offset length =>
    refine ⟨_, clientHandler_request S .trim handle offset length.toNat_lt hc
      (dispatchRequest_trim S rfl (Cmd.ofCode_code .trim) c), hc.live, hc.state, ?_, ?_⟩
    · change c.input.drop 28 = rest
      rw [hc.input, Request.bytes, ← header_length .trim handle offset length.toNat,
        List.drop_left]
    · change n ≤ (sendResponse _ _ _ _ (c.world.fallocate S.kernel _ _).2).file.length
      rw [sendResponse_file, fallocate_file_length]
      exact hc.fileSize

theorem requests_end (S : Server) {c : Conn} {n : ℕ} (rs : List Request)
    (hrs : ∀ r ∈ rs, r.Valid n) (hc : Serving c (rs.map Request.bytes).flatten n) :
    ∃ r, Ends (clientHandler S) c r := by
  induction rs generalizing c with
  | nil => exact ⟨c, .leave (clientHandler_idle S hc.live hc.input)⟩
  | cons r rs ih =>
    obtain ⟨t, ht, hs⟩ := request_step S r (hrs r (List.mem_cons_self ..)) hc
    obtain ⟨q, hq⟩ := ih (fun r' hr' => hrs r' (List.mem_cons_of_mem _ hr')) hs
    exact ⟨q, .again ht hq⟩

/-- A client of the old style is let in at once; one of the new style sends four zero
bytes and names an export, rightly or wrongly. -/
inductive Opening where
  | old
  | new (name : List UInt8) (hn : name.length < 2 ^ 32)

def exportOption (name : List UInt8) : List UInt8 :=
  beBytes 8 newProtocol ++ (beBytes 4 optExportName ++ beBytes 4 name.length)

def Opening.bytes : Opening → List UInt8
  | .old => []
  | .new name _ => [0, 0, 0, 0] ++ (exportOption name ++ name)

def Opening.conn (w : World) : Opening → Conn
  | .old => oldConn w
  | .new _ _ => newConn w

@[simp] theorem exportOption_length (name : List UInt8) : (exportOption name).length = 16 := by
  simp [exportOption]

theorem dispatchOption_export (S : Server) {name : List UInt8} (hn : name.length < 2 ^ 32)
    (c : Conn) : dispatchOption S (exportOption name) c = checkExportName S name.length c := by
  have hm : beNat ((exportOption name).take 8) = newProtocol := by
    have h := @field_append [] (beBytes 8 newProtocol)
      (beBytes 4 optExportName ++ beBytes 4 name.length) 0 8 rfl (by simp)
    rw [List.nil_append, List.drop_zero] at h
    rw [exportOption, h]
    exact beNat_beBytes_of_lt (by decide)
  have ho : beNat (((exportOption name).drop 8).take 4) = optExportName := by
    rw [exportOption, field_append (by simp) (by simp)]
    exact beNat_beBytes_of_lt (by decide)
  have hl : beNat ((exportOption name).drop 12) = name.length := by
    rw [exportOption, ← List.append_assoc, List.drop_left' (by simp)]
    exact beNat_beBytes_of_lt hn
  rw [dispatchOption, if_pos hm, if_pos ho, hl]

theorem disconnected_ends (S : Server) {c : Conn} (hc : c.closed = false)
    (hs : c.client.state = .disconnected) : ∃ r, Ends (clientHandler S) c r := by
  by_cases hi : c.input = []
  · exact ⟨c, .leave (clientHandler_idle S hc hi)⟩
  · refine ⟨c.teardown, .leave ?_⟩
    rw [clientHandler_eq S hc hi, hs]
    rfl

theorem option_ends (S : Server) {c : Conn} {n : ℕ} {name : List UInt8}
    (hn : name.length < 2 ^ 32) (rs : List Request) (hrs : ∀ r ∈ rs, r.Valid n)
    (hc : c.closed = false) (hs : c.client.state = .zeroReceived)
    (hi : c.input = exportOption name ++ (name ++ (rs.map Request.bytes).flatten))
    (hf : n ≤ c.world.file.length) : ∃ r, Ends (clientHandler S) c r := by
  have h16 := exportOption_length name
  have hp : pullup c.input 16 = some (exportOption name) := by
    rw [hi, pullup, if_neg (by simp), ← h16, List.take_left]
  have hne : c.input ≠ [] := by
    intro h
    rw [h] at hp
    simp [pullup] at hp
  have hstep : clientHandler S c = some (proceed (checkExportName S name.length c)) := by
    rw [clientHandler_eq S hc hne, hs]
    change some (proceed (checkOptHeader S c)) = _
    rw [checkOptHeader, hp]
    dsimp only
    rw [dispatchOption_export S hn]
  by_cases hlen : name.length = S.handle.nameLen
  swap
  · rw [checkExportName, if_pos hlen] at hstep
    obtain ⟨r, hr⟩ := disconnected_ends S (c := c.setState .disconnected) hc rfl
    exact ⟨r, .again hstep hr⟩
  have hroom : ¬ c.input.length < 16 + name.length := by
    rw [hi]
    simp
  rw [checkExportName, if_neg (not_not.mpr hlen), if_neg hroom] at hstep
  have hdrop : (c.drain 16).input = name ++ (rs.map Request.bytes).flatten := by
    change c.input.drop 16 = _
    rw [hi, ← h16, List.drop_left]
  suffices h : ∃ r, Ends (clientHandler S) (matchExportName S name.length (c.drain 16)) r by
    obtain ⟨r, hr⟩ := h
    exact ⟨r, .again hstep hr⟩
  unfold matchExportName
  cases hname : pullup (c.drain 16).input name.length with
  | none => exact disconnected_ends S hc rfl
  | some p =>
    dsimp only
    split
    · refine requests_end S rs hrs ⟨hc, rfl, ?_, hf⟩
      change (c.drain 16).input.drop name.length = _
      rw [hdrop, List.drop_left]
    · exact disconnected_ends S hc rfl

/-- Every stream is worked off when it arrives in one piece. -/
theorem stream_ends (S : Server) (w : World) (o : Opening) (rs : List Request)
    (hrs : ∀ r ∈ rs, r.Valid w.file.length) :
    ∃ r, Ends (clientHandler S) ((o.conn w).add (o.bytes ++ (rs.map Request.bytes).flatten)) r := by
  cases o with
  | old => exact requests_end S rs hrs ⟨rfl, rfl, rfl, le_rfl⟩
  | new name hn =>
    set c := (newConn w).add
      ((Opening.new name hn).bytes ++ (rs.map Request.bytes).flatten) with hc
    have hinput : c.input = [0, 0, 0, 0] ++
        (exportOption name ++ (name ++ (rs.map Request.bytes).flatten)) := by
      rw [hc, add_input rfl, Opening.bytes, List.append_assoc, List.append_assoc]
      rfl
    have hp : pullup c.input 4 = some [0, 0, 0, 0] := by
      rw [hinput, pullup, if_neg (by simp)]
      rfl
    have hstep : clientHandler S c = some (.inl ((c.drain 4).setState .zeroReceived)) := by
      rw [clientHandler_eq S rfl (by rw [hinput]; simp)]
      change some (proceed (checkZeroHandshake c)) = _
      rw [checkZeroHandshake, hp]
      rfl
    obtain ⟨r, hr⟩ := option_ends S (c := (c.drain 4).setState .zeroReceived) hn rs hrs rfl rfl
      (by change c.input.drop 4 = _; rw [hinput]; rfl) le_rfl
    exact ⟨r, .again hstep hr⟩

/-- The handler, called after every segment of a client stream, ends each time, and where it
stands after the last one depends on the stream alone: `r` is the only final connection,
with its client record, its unconsumed input and the whole record of effects. -/
theorem segmentation_independent (S : Server) (w : World) (o : Opening) (rs : List Request)
    (hrs : ∀ r ∈ rs, r.Valid w.file.length) :
    ∃ r : Conn, ∀ segments : List (List UInt8),
      segments.flatten = o.bytes ++ (rs.map Request.bytes).flatten →
      ∀ q, Serves (clientHandler S) Conn.add Conn.Closed (o.conn w) segments q ↔ q = r := by
  have hopen : ¬ (o.conn w).Closed := by
    cases o <;> simp [Conn.Closed, Opening.conn, oldConn, newConn]
  obtain ⟨r, hr⟩ := stream_ends S w o rs hrs
  have hd : Delivers (clientHandler S) Conn.add Conn.Closed (o.conn w)
      (o.bytes ++ (rs.map Request.bytes).flatten) r := .inr ⟨hopen, hr⟩
  refine ⟨r, ?_⟩
  intro segments hseg q
  cases segments with
  | nil =>
    rw [← hseg, List.flatten_nil] at hr
    have hidle : clientHandler S ((o.conn w).add []) = some (.inr (o.conn w)) := by
      cases o <;> rfl
    rw [(ends_leave_iff hidle).mp hr]
    constructor
    · intro hq
      cases hq
      rfl
    · rintro rfl
      exact .nil _
  | cons a rest =>
    rw [(clientHandler_resumable S).serves_iff, ← List.flatten_cons, hseg]
    constructor
    · intro hq
      exact hq.unique hd
    · rintro rfl
      exact hd

/-- A kernel that fails the second call and cuts every transfer short. -/
def balkyKernel : Kernel where
  lseek i := if i = 1 then some einval else none
  write _ := .ok 1
  read _ := .ok 1
  fsync _ := none
  fallocate _ := none

theorem letter_noNul : (0 : UInt8) ∉ [(0x78 : UInt8)] := by decide

def sampleServer : Server where
  handle := ⟨4, [0x78], letter_noNul⟩
  kernel := balkyKernel
  memory := { zeroHeap with behind := fun n => List.replicate n 0 }

theorem segmentation_independent_sample :
    (∀ r ∈ [Request.write 1 0 [7, 8], .read 2 1 2, .flush 3 0 0], r.Valid 4) ∧
      ∃ r : Conn, ∀ segments : List (List UInt8),
        segments.flatten = (Opening.new [0x78] (by decide)).bytes ++
          ([Request.write 1 0 [7, 8], .read 2 1 2, .flush 3 0 0].map Request.bytes).flatten →
        ∀ q, Serves (clientHandler sampleServer) Conn.add Conn.Closed
          (newConn ⟨[1, 2, 3, 4], 0, 0, []⟩) segments q ↔ q = r := by
  have hrs : ∀ r ∈ [Request.write 1 0 [7, 8], .read 2 1 2, .flush 3 0 0], r.Valid 4 := by
    simp [Request.Valid]
  exact ⟨hrs, segmentation_independent sampleServer ⟨[1, 2, 3, 4], 0, 0, []⟩
    (.new [0x78] (by decide)) _ hrs⟩

end GammaRay.Nbd
