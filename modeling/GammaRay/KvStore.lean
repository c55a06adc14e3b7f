import GammaRay.Bytes
import GammaRay.Redis

set_option autoImplicit false

/-!
# The store handle

`redis_queue.c` on a connection without I/O errors. hiredis hands out replies in the
order of the commands, oldest first; every reply is kept here with the number of the
command it answers. A command is taken to be carried out when it is issued, which no
one who only sees replies can tell from the truth. `none` is a call that never returns.
-/
namespace GammaRay.KvStore
open Bytes Decimal Redis

/-- The keys of the schema. -/
inductive Key where
  | sector (n : ℕ)
  | qsector (n : ℕ)
  | mbr (n : ℕ)
  | fs (n : ℕ)
  | bgd (n : ℕ)
  | bgds (n : ℕ)
  | inode (n : ℕ)
  | file (n : ℕ)
  | filesectors (n : ℕ)
  | files (n : ℕ)
  | path (p : List UInt8)
  | extent (n : ℕ)
  | extents (n : ℕ)
  | dirdata (n : ℕ)
  | dirlist (n : ℕ)
  | loadlist (n : ℕ)
  | metadataFilter
  | fcounter
  | writequeue
  | createset
  | deleteset
  deriving DecidableEq, Repr

/-- `struct kv_store` with the other end of its connection. `jobs` are the counts of the
flush jobs that were started and have replies left to read. `interpreted` is a record of
every reply a call looked into: the number of the command it had issued for it, and the
number of the command it got the reply of. -/
structure Handle where
  db : Db Key
  unread : List (ℕ × Reply)
  issued : ℕ
  outstandingPipelinedCmds : ℕ
  outstandingBytes : ℕ
  jobs : List ℕ
  exited : Bool
  interpreted : List (ℕ × ℕ)

def defaultTimeout : ℕ := 30
def defaultPipelined : ℕ := 16384
def defaultBytes : ℕ := 262144000

/-- A handle from `redis_init`, which leaves `outstanding_bytes` as `malloc` gave it. -/
def redisInit (db : Db Key) (outstandingBytes : ℕ) : Handle :=
  ⟨db, [], 0, 0, outstandingBytes, [], false, []⟩

def appendCommand (c : Command Key) (h : Handle) : Option Handle := do
  let (r, db) ← exec h.db c
  some { h with db := db, unread := h.unread ++ [(h.issued, r)], issued := h.issued + 1 }

def getReply (h : Handle) : Option ((ℕ × Reply) × Handle) :=
  match h.unread with
  | [] => none
  | r :: rest => some (r, { h with unread := rest })

def redisCommand (c : Command Key) (h : Handle) : Option ((ℕ × Reply) × Handle) := do
  let h ← appendCommand c h
  getReply h

def flushLoop : ℕ → Handle → Option Handle
  | 0, h => some h
  | n + 1, h => do
    let (_, h) ← getReply h
    flushLoop n { h with outstandingPipelinedCmds := h.outstandingPipelinedCmds - 1 }

def redisFlushPipeline (h : Handle) : Option Handle := flushLoop h.outstandingPipelinedCmds h

/-- The shape of the pipelined calls. -/
def pipelined (c : Command Key) (h : Handle) : Option Handle := do
  let h ← appendCommand c h
  let h := { h with outstandingPipelinedCmds := h.outstandingPipelinedCmds + 1 }
  if defaultPipelined ≤ h.outstandingPipelinedCmds then redisFlushPipeline h else some h

/-- A command whose reply is looked into. -/
def interpretCommand (c : Command Key) (h : Handle) : Option (Reply × Handle) := do
  let (r, h') ← redisCommand c h
  some (r.2, { h' with interpreted := h'.interpreted ++ [(h.issued, r.1)] })

def query (c : Command Key) (h : Handle) : Option (Reply × Handle) := do
  let h ← redisFlushPipeline h
  interpretCommand c h

/-- The shape of the synchronous calls that look into their reply, which they read with `f`. -/
def ask {β : Type} (c : Command Key) (f : Reply → β) (h : Handle) : Option (β × Handle) := do
  let (r, h) ← query c h
  some (f r, h)

/-- The shape of the synchronous calls that only free their reply. -/
def command (c : Command Key) (h : Handle) : Option Handle := do
  let h ← redisFlushPipeline h
  let (_, h) ← redisCommand c h
  some h

/-- What a string reply leaves in a buffer of `cap` bytes, the new `*len` being its length. -/
def copyString (cap : ℕ) : Reply → List UInt8
  | .string b => if 0 < b.length ∧ b.length ≤ cap then b else []
  | _ => []

def redisEnqueuePipelined (sectorNum : ℕ) (data : List UInt8) : Handle → Option Handle :=
  pipelined (.setex (.qsector sectorNum) defaultTimeout data)

/-- No flush before it. -/
def redisPublish (channel data : List UInt8) (h : Handle) : Option Handle := do
  let (_, h) ← redisCommand (.publish channel data) h
  some h

/-- No flush before it, although it looks into the reply to its `GET`. -/
def redisDequeue (sectorNum cap : ℕ) (h : Handle) : Option (List UInt8 × Handle) := do
  let (r, h) ← interpretCommand (.get (.qsector sectorNum)) h
  let (_, h) ← redisCommand (.del (.qsector sectorNum)) h
  some (copyString cap r, h)

def redisDelqueuePipelined (sectorNum : ℕ) : Handle → Option Handle :=
  pipelined (.del (.qsector sectorNum))

def redisReversePointerSet (fmt : ℕ → ℤ → Command Key) (src : ℕ) (dst : ℤ) :
    Handle → Option Handle :=
  pipelined (fmt src dst)

def redisHashFieldSet (fmt : ℕ → List UInt8 → List UInt8 → Command Key) (src : ℕ)
    (field data : List UInt8) : Handle → Option Handle :=
  pipelined (fmt src field data)

def redisHashFieldGet (fmt : ℕ → List UInt8 → Command Key) (src : ℕ) (field : List UInt8)
    (cap : ℕ) : Handle → Option (List UInt8 × Handle) :=
  ask (fmt src field) (copyString cap)

/-- `sscanf` with `%llu`, which reads a minus sign as well. -/
def scanU64 : List UInt8 → Option ℕ
  | 45 :: rest => (scan rest).map fun n => u64 (-n)
  | text => scan text

/-- What follows the first colon, up to the next one. -/
def secondToken (text : List UInt8) : List UInt8 :=
  ((text.dropWhile (· ≠ 58)).drop 1).takeWhile (· ≠ 58)

def redisLastFileSector (id : ℕ) : Handle → Option (Option ℕ × Handle) :=
  ask (.lindex (.filesectors id) (-1)) fun r => scanU64 (secondToken (copyString 64 r))

def redisSectorLookup (src cap : ℕ) : Handle → Option (List UInt8 × Handle) :=
  ask (.get (.sector src)) (copyString cap)

/-- What an integer reply holds, and 0 for any other one. -/
def asCount : Reply → ℤ
  | .integer n => n
  | _ => 0

def redisListLen (fmt : ℕ → Command Key) (src : ℕ) : Handle → Option (ℤ × Handle) :=
  ask (fmt src) asCount

def redisListSet (fmt : ℕ → ℕ → ℤ → Command Key) (src index : ℕ) (value : ℤ) :
    Handle → Option Handle :=
  pipelined (fmt src index value)

def redisBinaryInsert (fmt : ℕ → List UInt8 → Command Key) (src : ℕ) (data : List UInt8) :
    Handle → Option Handle :=
  pipelined (fmt src data)

def ascii (text : String) : List UInt8 := text.toList.map fun c => UInt8.ofNat c.toNat

/-- `start:%llu:end:%llu:file:%llu`. -/
def dataPointer (start stop file : ℕ) : List UInt8 :=
  ascii "start:" ++ dec start ++ ascii ":end:" ++ dec stop ++ ascii ":file:" ++ dec file

def redisReverseFileDataPointerSet (src : ℤ) (start stop dst : ℕ) : Handle → Option Handle :=
  pipelined (.set (.sector (u64 src)) (dataPointer start stop dst))

def redisPathSet (path : List UInt8) (id : ℕ) : Handle → Option Handle :=
  pipelined (.set (.path path) (dec id))

def redisPathGet (path : List UInt8) : Handle → Option (Option ℕ × Handle) :=
  ask (.get (.path path)) fun
    | .string b => scanU64 b
    | _ => none

def redisMetadataSet (data : List UInt8) : Handle → Option Handle :=
  pipelined (.set .metadataFilter data)

def redisMetadataGet : Handle → Option (Option (List UInt8) × Handle) :=
  ask (.get .metadataFilter) fun
    | .string b => if 0 < b.length then some b else none
    | _ => none

def redisGetFcounter : Handle → Option (Option ℤ × Handle) :=
  ask (.incr .fcounter) fun
    | .integer n => some n
    | _ => none

def redisSetFcounter (counter : ℕ) : Handle → Option Handle :=
  command (.set .fcounter (dec counter))

def asElements : Reply → Option (List (List UInt8))
  | .array l => some l
  | _ => none

def redisListGet (fmt : ℕ → Command Key) (src : ℕ) :
    Handle → Option (Option (List (List UInt8)) × Handle) :=
  ask (fmt src) asElements

def redisListGetVar (fmt : ℕ → ℤ → ℤ → Command Key) (src : ℕ) (start stop : ℤ) :
    Handle → Option (Option (List (List UInt8)) × Handle) :=
  ask (fmt src start stop) asElements

/-- `bit` is the answer of the metadata filter for the sector; `connBusy` and `cmdBusy` say
whether the two `trylock`s find their lock taken. `true` is `EXIT_SUCCESS`. -/
def redisAsyncWriteEnqueue (bit connBusy cmdBusy : Bool) (sector : ℤ) (data : List UInt8)
    (h : Handle) : Option (Bool × Handle) :=
  if connBusy && !bit then some (false, h)
  else if cmdBusy && !bit then some (false, h)
  else do
    let h ← appendCommand (.lpush .writequeue (i64Bytes sector)) h
    let h ← appendCommand (.lpush .writequeue data) h
    let h := { h with
      outstandingPipelinedCmds := h.outstandingPipelinedCmds + 2
      outstandingBytes := u64 (h.outstandingBytes + 8 + data.length) }
    if defaultPipelined ≤ h.outstandingPipelinedCmds ∨ defaultBytes < h.outstandingBytes then
      some (true, { h with
        jobs := h.jobs ++ [h.outstandingPipelinedCmds]
        outstandingPipelinedCmds := 0
        outstandingBytes := 0 })
    else some (true, h)

/-- What `element[1]` of an array of two holds. -/
def secondElement : Reply → Option (List UInt8)
  | .popped b => some b
  | .array [_, b] => some b
  | _ => none

/-- A record of the write queue, or the end of the process: a first element that is no
sector number is answered with `exit`, and so is a second reply that is no element. -/
def redisAsyncWriteDequeue (h : Handle) : Option (Option (ℤ × List UInt8) × Handle) := do
  let (r, h) ← query (.brpop .writequeue) h
  match secondElement r with
  | none => some (none, { h with exited := true })
  | some b =>
    if b.length = 8 then
      let (r, h) ← interpretCommand (.brpop .writequeue) h
      match secondElement r with
      | none => some (none, { h with exited := true })
      | some data => some (some (i64 (leNat b), data), h)
    else some (none, { h with exited := true })

def redisSetAdd (fmt : ℕ → Command Key) (id : ℕ) : Handle → Option Handle := command (fmt id)

def redisSetRemove (fmt : ℕ → Command Key) (id : ℕ) : Handle → Option (ℤ × Handle) :=
  ask (fmt id) asCount

def redisSetReset (h : Handle) : Option Handle := do
  let h ← command (.del .createset) h
  let (_, h) ← redisCommand (.del .deleteset) h
  some h

def redisDeleteKey (fmt : ℕ → Command Key) (id : ℕ) : Handle → Option Handle :=
  pipelined (fmt id)

/-- `redis_periodic_flusher` makes a job of what is outstanding. -/
def periodicFlush (h : Handle) : Handle :=
  { h with jobs := h.jobs ++ [h.outstandingPipelinedCmds], outstandingPipelinedCmds := 0 }

/-- The thread of a flush job reads one reply. -/
def jobRead (i : ℕ) (h : Handle) : Option Handle :=
  match h.jobs[i]? with
  | some (n + 1) => do
    let (_, h) ← getReply h
    some { h with jobs := h.jobs.set i n }
  | _ => none

end GammaRay.KvStore
