import GammaRay.Bytes

set_option autoImplicit false

/-!
# The NBD server

`nbd.c`, for a handle from `nbd_init_both`: the file descriptor is positive, the Redis
context is there and takes every command. What the kernel answers is a parameter, one
answer for each system call in the order of the calls. `none` is a failed assertion, a
loop that never ends, or a use of memory after its release.
-/
namespace GammaRay.Nbd
open Bytes

inductive ClientState where
  | handshakeSent | zeroReceived | optionSetting | dataPushing | disconnected
  deriving DecidableEq, Repr

inductive Cmd where
  | read | write | disc | flush | trim
  deriving DecidableEq, Repr

def Cmd.code : Cmd → ℕ
  | .read => 0x00
  | .write => 0x01
  | .disc => 0x02
  | .flush => 0x03
  | .trim => 0x04

def Cmd.ofCode (n : ℕ) : Option Cmd :=
  [Cmd.read, .write, .disc, .flush, .trim].find? (fun c => c.code = n)

theorem Cmd.ofCode_code (c : Cmd) : Cmd.ofCode c.code = some c := by
  cases c <;> decide

def newProtocol : ℕ := 0x49484156454F5054
def replyMagic : ℕ := 0x3e889045565a9
def reqMagic : ℕ := 0x25609513
def repMagic : ℕ := 0x67446698

def optExportName : ℕ := 0x01
def optAbort : ℕ := 0x02
def repErrUnsup : ℕ := 0x80000001

structure Errno where
  val : ℕ
  pos : 0 < val
  lt : val < 4096
  deriving DecidableEq

def einval : Errno := ⟨22, by decide, by decide⟩

/-- The answers of the kernel, by the number of the call. A count is a wish: the call
moves at least one byte, and no more than it was asked for or than there is. -/
structure Kernel where
  lseek : ℕ → Option Errno
  write : ℕ → Except Errno ℕ
  read : ℕ → Except Errno ℕ
  fsync : ℕ → Option Errno
  fallocate : ℕ → Option Errno

/-- The heap, and for a block the `n` bytes that lie behind it. -/
structure Memory extends Heap where
  behind : ℕ → List UInt8

/-- `struct nbd_handle`, as far as the client handler reads it. -/
structure Handle where
  size : ℕ
  exportName : List UInt8
  noNul : 0 ∉ exportName

def Handle.nameLen (h : Handle) : ℕ := u32 h.exportName.length

structure Server where
  handle : Handle
  kernel : Kernel
  memory : Memory

inductive Effect where
  | send (bytes : List UInt8)
  | write (offset : ℕ) (data : List UInt8)
  | lpush (bytes : List UInt8)
  | fsync
  | fallocate (offset : ℤ) (len : ℕ)
  deriving DecidableEq, Repr

/-- What lies behind the system calls: the exported file with its one file offset, how
many calls were made, and everything the server has done to the outside. -/
structure World where
  file : List UInt8
  position : ℕ
  calls : ℕ
  effects : List Effect
  deriving DecidableEq, Repr

/-- `struct nbd_client`; `buf` is the whole allocation, or NULL. -/
structure Client where
  state : ClientState
  writeCount : ℕ
  writeBytes : ℕ
  buf : Option (List UInt8)
  deriving DecidableEq, Repr

/-- A connection: the client record, its input buffer, and whether both were freed. -/
structure Conn where
  client : Client
  input : List UInt8
  closed : Bool
  world : World
  deriving DecidableEq, Repr

def World.emit (w : World) (e : Effect) : World := { w with effects := w.effects ++ [e] }

def World.called (w : World) : World := { w with calls := w.calls + 1 }

def World.lseek (K : Kernel) (w : World) (offset : ℤ) : Option Errno × World :=
  if offset < 0 then (some einval, w.called)
  else match K.lseek w.calls with
    | some e => (some e, w.called)
    | none => (none, { w.called with position := offset.toNat })

/-- Bytes stored at an offset of a file, which grows with zeros up to there. -/
def store (file : List UInt8) (offset : ℕ) (data : List UInt8) : List UInt8 :=
  file.take offset ++ List.replicate (offset - file.length) 0 ++ data ++
    file.drop (offset + data.length)

def World.write (K : Kernel) (w : World) (data : List UInt8) : Except Errno ℕ × World :=
  match K.write w.calls with
  | .error e => (.error e, w.called)
  | .ok k =>
    let n := max 1 (min k data.length)
    (.ok n, { w.called.emit (.write w.position (data.take n)) with
      file := store w.file w.position (data.take n)
      position := w.position + n })

def World.read (K : Kernel) (w : World) (len : ℕ) : Except Errno (List UInt8) × World :=
  match K.read w.calls with
  | .error e => (.error e, w.called)
  | .ok k =>
    let data := (w.file.drop w.position).take (min (max 1 k) len)
    (.ok data, { w.called with position := w.position + data.length })

def World.fsync (K : Kernel) (w : World) : Option Errno × World :=
  (K.fsync w.calls, w.called.emit .fsync)

/-- The hole that `fallocate` punches reads as zeros and the size of the file stays. -/
def punch (file : List UInt8) (offset : ℤ) (len : ℕ) : List UInt8 :=
  (List.range file.length).map fun i : ℕ =>
    if offset ≤ i ∧ (i : ℤ) < offset + len then 0 else file.getD i 0

def World.fallocate (K : Kernel) (w : World) (offset : ℤ) (len : ℕ) : Option Errno × World :=
  match K.fallocate w.calls with
  | some e => (some e, w.called.emit (.fallocate offset len))
  | none => (none, { w.called.emit (.fallocate offset len) with file := punch w.file offset len })

/-- `realloc` as glibc has it: a size of zero frees a block and yields NULL, but makes a
block out of NULL. -/
def Memory.realloc (m : Memory) (buf : Option (List UInt8)) (len : ℕ) : Option (List UInt8) :=
  match buf with
  | none => some (m.malloc len)
  | some b => if len = 0 then none else some (b.take len ++ (m.malloc len).drop b.length)

/-- `evbuffer_pullup`: the front of the buffer, or NULL for too long or empty a request. -/
def pullup (input : List UInt8) (n : ℕ) : Option (List UInt8) :=
  if n = 0 ∨ input.length < n then none else some (input.take n)

def Conn.drain (c : Conn) (n : ℕ) : Conn := { c with input := c.input.drop n }

def Conn.setState (c : Conn) (st : ClientState) : Conn :=
  { c with client := { c.client with state := st } }

def Conn.setBuf (c : Conn) (buf : List UInt8) : Conn :=
  { c with client := { c.client with buf := some buf } }

/-- `nbd_ev_handler` on `BEV_EVENT_EOF`: the buffers and the client record are freed. -/
def Conn.teardown (c : Conn) : Conn := { c with input := [], closed := true }

/-- `true` makes the handler return. -/
def checkZeroHandshake (c : Conn) : Bool × Conn :=
  match pullup c.input 4 with
  | none => (true, c)
  | some peek =>
    if leNat peek ≠ 0 then (false, c.setState .disconnected)
    else (false, (c.drain 4).setState .zeroReceived)

/-- HAS_FLAGS, SEND_FLUSH, SEND_FUA, ROTATIONAL and SEND_TRIM. -/
def exportFlags : ℕ := 0x01 ||| 0x04 ||| 0x08 ||| 0x10 ||| 0x20

def sendExportInfo (h : Handle) (w : World) : World :=
  w.emit (.send (beBytes 8 h.size ++ beBytes 2 exportFlags ++ List.replicate 124 0))

def sendUnsupportedOpt (option : List UInt8) (w : World) : World :=
  w.emit (.send (beBytes 8 replyMagic ++ option ++ beBytes 4 repErrUnsup ++ beBytes 4 0))

def sendResponse (err handle : ℕ) (data : Option (List UInt8)) (len : ℕ) (w : World) : World :=
  let w := w.emit (.send (beBytes 4 repMagic ++ beBytes 4 err ++ beBytes 8 handle))
  match data with
  | none => w
  | some d => if len = 0 then w else w.emit (.send (d.take len))

/-- `strncmp(a, b, n) == 0`. -/
def strncmpEq : ℕ → List UInt8 → List UInt8 → Bool
  | 0, _, _ => true
  | n + 1, a :: as, b :: bs => if a ≠ b then false else if a = 0 then true else strncmpEq n as bs
  | _ + 1, _, _ => false

/-- The name has arrived: the client is let in if it is the name of the export. -/
def matchExportName (S : Server) (nameLen : ℕ) (c : Conn) : Conn :=
  match pullup c.input nameLen with
  | none => c.setState .disconnected
  | some name =>
    if strncmpEq nameLen name (S.handle.exportName ++ [0]) then
      { (c.setState .dataPushing).drain nameLen with world := sendExportInfo S.handle c.world }
    else c.setState .disconnected

/-- The EXPORT_NAME branch of `check_opt_header`. -/
def checkExportName (S : Server) (nameLen : ℕ) (c : Conn) : Bool × Conn :=
  if nameLen ≠ S.handle.nameLen then (false, c.setState .disconnected)
  else if c.input.length < 16 + nameLen then (true, c)
  else (false, matchExportName S nameLen (c.drain 16))

/-- `check_opt_header` once the header is there. -/
def dispatchOption (S : Server) (peek : List UInt8) (c : Conn) : Bool × Conn :=
  let option := (peek.drop 8).take 4
  if beNat (peek.take 8) = newProtocol then
    if beNat option = optExportName then checkExportName S (beNat (peek.drop 12)) c
    else if beNat option = optAbort then (false, c.setState .disconnected)
    else (false, { c with world := sendUnsupportedOpt option c.world })
  else (false, c.setState .disconnected)

def checkOptHeader (S : Server) (c : Conn) : Bool × Conn :=
  match pullup c.input 16 with
  | none => (true, c)
  | some peek => dispatchOption S peek c

/-- `struct nbd_req_header` in host byte order. -/
structure ReqHeader where
  magic : ℕ
  type : ℕ
  handle : ℕ
  offset : ℕ
  length : ℕ
  deriving DecidableEq, Repr

def ReqHeader.parse (b : List UInt8) : ReqHeader where
  magic := beNat (b.take 4)
  type := beNat ((b.drop 4).take 4)
  handle := beNat ((b.drop 8).take 8)
  offset := beNat ((b.drop 16).take 8)
  length := beNat ((b.drop 24).take 4)

/-- The `uint32_t` that `return -1` yields. -/
def minusOne : ℕ := 2 ^ 32 - 1

/-- Every `read` stores at the front of the buffer; at the end of the file the loop
stays where it is. -/
def readLoop (K : Kernel) :
    ℕ → List UInt8 → ℕ → World → Option (Option Errno × List UInt8 × World)
  | _, buf, 0, w => some (none, buf, w)
  | 0, _, _ + 1, _ => none
  | fuel + 1, buf, len + 1, w =>
    match w.read K (len + 1) with
    | (.error e, w) => some (some e, buf, w)
    | (.ok data, w) =>
      if data.isEmpty then none
      else readLoop K fuel (splice buf 0 data) (len + 1 - data.length) w

/-- The part of `handle_read` that talks to the kernel. -/
def seekRead (K : Kernel) (offset : ℤ) (len : ℕ) (buf : List UInt8) (w : World) :
    Option (Option Errno × List UInt8 × World) :=
  match w.lseek K offset with
  | (some e, w) => some (some e, buf, w)
  | (none, w) => readLoop K len buf len w

/-- The value of `errno` on failure, 0 on success. -/
def errCode (err : Option Errno) : ℕ := (err.map Errno.val).getD 0

def handleRead (S : Server) (req : ReqHeader) (c : Conn) : Option (ℕ × Conn) := do
  let buf ← S.memory.realloc c.client.buf req.length
  let (err, buf, w) ← seekRead S.kernel (i64 req.offset) req.length buf c.world
  some (errCode err, { c.setBuf buf with world := w })

/-- Every `write` asks for `len` bytes from its place in the buffer, the last ones of
which lie behind the buffer once something has been written. -/
def writeLoop (S : Server) (buf : List UInt8) (len : ℕ) :
    ℕ → ℕ → World → Option (Option Errno × World)
  | 0, pos, w => if pos < len then none else some (none, w)
  | fuel + 1, pos, w =>
    if pos < len then
      match w.write S.kernel ((buf.drop pos ++ S.memory.behind pos).take len) with
      | (.error e, w) => some (some e, w)
      | (.ok n, w) => writeLoop S buf len fuel (pos + n) w
    else some (none, w)

/-- The part of `handle_write` that talks to the kernel and to Redis. -/
def seekWrite (S : Server) (offset : ℤ) (data : List UInt8) (w : World) :
    Option (Option Errno × World) :=
  match w.lseek S.kernel offset with
  | (some e, w) => some (some e, w)
  | (none, w) => do
    let (err, w) ← writeLoop S data data.length data.length 0 w
    match err with
    | some e => some (some e, w)
    | none =>
      some (none, (w.emit (.lpush (i64Bytes (offset.tdiv 512)))).emit (.lpush data))

/-- The counters of the client and its copy of the payload. -/
def Conn.countWrite (c : Conn) (data : List UInt8) : Conn :=
  { c with client := { c.client with
      buf := some data
      writeCount := u64 (c.client.writeCount + 1)
      writeBytes := u64 (c.client.writeBytes + data.length) } }

def handleWrite (S : Server) (req : ReqHeader) (c : Conn) : Option (ℕ × Conn) := do
  let buf ← S.memory.realloc c.client.buf req.length
  let c := c.setBuf buf
  if c.input.length < 28 + req.length then some (minusOne, c)
  else
    let c := c.drain 28
    let data := c.input.take req.length
    if data.length < req.length then some (minusOne, c.setBuf (splice buf 0 data))
    else
      let (err, w) ← seekWrite S (i64 req.offset) data c.world
      some (errCode err, { c.countWrite data with world := w })

/-- A command of no known type ends the connection. -/
def unknownCommand (len : ℕ) (c : Conn) : Conn :=
  let c := match pullup c.input (28 + len) with
    | some _ => c.drain (28 + len)
    | none => c
  (c.setState .disconnected).teardown

/-- `check_request` once the header is there. -/
def dispatchRequest (S : Server) (req : ReqHeader) (c : Conn) : Option (Bool × Conn) :=
  if req.magic = reqMagic then
    match Cmd.ofCode req.type with
    | some .read => do
      let (err, c) ← handleRead S req c
      if err = minusOne then some (true, c)
      else some (false, { c.drain 28 with
        world := sendResponse err req.handle c.client.buf req.length c.world })
    | some .write => do
      let (err, c) ← handleWrite S req c
      if err = minusOne then some (true, c)
      else some (false, { c.drain req.length with
        world := sendResponse err req.handle none 0 c.world })
    | some .disc => some (false, ((c.setState .disconnected).drain 28).teardown)
    | some .flush =>
      let (err, w) := c.world.fsync S.kernel
      some (false, { c.drain 28 with world := sendResponse (errCode err) req.handle none 0 w })
    | some .trim =>
      let (err, w) := c.world.fallocate S.kernel (i64 req.offset) req.length
      some (false, { c.drain 28 with world := sendResponse (errCode err) req.handle none 0 w })
    | none => some (true, unknownCommand req.length c)
  else some (true, c)

def checkRequest (S : Server) (c : Conn) : Option (Bool × Conn) :=
  match pullup c.input 28 with
  | none => some (true, c)
  | some peek => dispatchRequest S (ReqHeader.parse peek) c

/-- The handler goes round again (`inl`) or returns (`inr`), as a check told it. -/
def proceed (r : Bool × Conn) : Conn ⊕ Conn := if r.1 then .inr r.2 else .inl r.2

/-- One iteration of the loop in `nbd_client_handler`, its test of the input included. -/
def clientHandler (S : Server) (c : Conn) : Option (Conn ⊕ Conn) :=
  if c.closed then none
  else if c.input.length = 0 then some (.inr c)
  else match c.client.state with
    | .handshakeSent => some (proceed (checkZeroHandshake c))
    | .zeroReceived => some (proceed (checkOptHeader S c))
    | .dataPushing => (checkRequest S c).map proceed
    | .disconnected => some (.inr c.teardown)
    | .optionSetting => some (.inr c)

/-- `nbd_new_conn` and `nbd_old_conn`, once their own greeting is out. -/
def newConn (w : World) : Conn := ⟨⟨.handshakeSent, 0, 0, none⟩, [], false, w⟩

def oldConn (w : World) : Conn := ⟨⟨.dataPushing, 0, 0, none⟩, [], false, w⟩

end GammaRay.Nbd
