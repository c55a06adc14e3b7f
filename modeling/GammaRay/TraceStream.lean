import GammaRay.Bytes
import GammaRay.Loop

set_option autoImplicit false

/-!
# The trace stream of the queuer

`read_loop` of `gray-ndb-queuer.c`. The stream is a list of bytes that `read` hands out in pieces
as large as the kernel likes; a call of `redis_async_write_enqueue` is noted down with its
arguments. `none` is an overflow of `int`.
-/
namespace GammaRay.TraceStream
open Bytes Loop

/-! ## Reading in pieces -/

/-- A file descriptor: what is still to come, and how many calls of `read` there were. -/
structure Stream where
  rest : List UInt8
  calls : ℕ
  deriving DecidableEq, Repr

/-- The answers of the kernel, by the number of the call; `none` is an error. A count is a wish:
a call brings at least one byte, and no more than it was asked for or than there is. -/
abbrev Answers := ℕ → Option ℕ

def Stream.read (answers : Answers) (s : Stream) (size : ℕ) : Option (List UInt8) × Stream :=
  match answers s.calls with
  | none => (none, ⟨s.rest, s.calls + 1⟩)
  | some k =>
    (some (s.rest.take (min (max 1 k) size)), ⟨s.rest.drop (min (max 1 k) size), s.calls + 1⟩)

/-- A `read` for `size` bytes, and further ones as long as they bring something and there is
something left to fill. The result is that of the last one, `none` for -1. -/
def fill (answers : Answers) (size : ℕ) :
    ℕ → List UInt8 → ℕ → Stream → Option (Option ℕ × List UInt8 × Stream)
  | 0, _, _, _ => none
  | fuel + 1, buf, total, s =>
    match s.read answers (size - total) with
    | (none, s) => some (none, buf, s)
    | (some data, s) =>
      if 0 < data.length ∧ total + data.length < size then
        fill answers size fuel (splice buf total data) (total + data.length) s
      else some (some data.length, splice buf total data, s)

section Fill

variable {answers : Answers} {counts : ℕ → ℕ} {whole buf : List UInt8} {size total fuel : ℕ}
  {s : Stream}

/-- The first `total` bytes of `whole` are in the buffer, the others are to come. -/
structure Filled (whole : List UInt8) (total : ℕ) (buf : List UInt8) (s : Stream) : Prop where
  taken : buf.take total = whole.take total
  rest : s.rest = whole.drop total

/-- One `read`. -/
theorem Filled.step (h : Filled whole total buf s) {n : ℕ} (hn : total + n ≤ whole.length)
    (hbuf : total + n ≤ buf.length) (calls : ℕ) :
    (s.rest.take n).length = n ∧ (splice buf total (s.rest.take n)).length = buf.length ∧
      Filled whole (total + n) (splice buf total (s.rest.take n)) ⟨s.rest.drop n, calls⟩ := by
  have hlen : (s.rest.take n).length = n := by
    rw [h.rest, List.length_take, List.length_drop]
    omega
  refine ⟨hlen, splice_length (by omega), ?_, ?_⟩
  · have htake := @splice_take buf (s.rest.take n) total (by omega)
    rw [hlen] at htake
    rw [htake, h.taken, h.rest, List.take_add]
  · rw [h.rest, List.drop_drop]

/-- How many bytes the next `read` brings. -/
def brought (counts : ℕ → ℕ) (s : Stream) (size : ℕ) : ℕ :=
  min (min (max 1 (counts s.calls)) size) s.rest.length

theorem read_eq (hanswers : ∀ n, answers n = some (counts n)) (size : ℕ) :
    s.read answers size = (some (s.rest.take (brought counts s size)),
      ⟨s.rest.drop (brought counts s size), s.calls + 1⟩) := by
  rw [Stream.read, hanswers, brought, ← List.take_eq_take_min, ← List.drop_eq_drop_min]

/-- One round of the loop. -/
theorem fill_round (hanswers : ∀ n, answers n = some (counts n)) (h : Filled whole total buf s)
    (htotal : total ≤ whole.length) (hbuf : size ≤ buf.length) (hsize : total < size) (fuel : ℕ) :
    ∃ n buf' s', n ≤ size - total ∧ n ≤ whole.length - total ∧ (total < whole.length → 0 < n) ∧
      buf'.length = buf.length ∧ Filled whole (total + n) buf' s' ∧
      fill answers size (fuel + 1) buf total s =
        if 0 < n ∧ total + n < size then fill answers size fuel buf' (total + n) s'
        else some (some n, buf', s') := by
  have hrest : s.rest.length = whole.length - total := by rw [h.rest, List.length_drop]
  have hn : brought counts s (size - total) =
      min (min (max 1 (counts s.calls)) (size - total)) (whole.length - total) := by
    rw [brought, hrest]
  obtain ⟨hlen, hsplice, hnext⟩ := h.step (n := brought counts s (size - total)) (by omega)
    (by omega) (s.calls + 1)
  refine ⟨_, _, _, by omega, by omega, by omega, hsplice, hnext, ?_⟩
  rw [fill, read_eq hanswers]
  dsimp only
  rw [hlen]

/-- A stream that has enough fills the buffer. -/
theorem fill_full (hanswers : ∀ n, answers n = some (counts n)) (hwhole : size ≤ whole.length)
    (hbuf : size ≤ buf.length) (htotal : total < size) (hfuel : size ≤ fuel + total)
    (h : Filled whole total buf s) :
    ∃ n buf' s', fill answers size fuel buf total s = some (some (n + 1), buf', s') ∧
      buf'.length = buf.length ∧ Filled whole size buf' s' := by
  induction fuel generalizing buf total s with
  | zero => omega
  | succ fuel ih =>
    obtain ⟨n, buf₁, s₁, hle, -, hpos, hlen, hnext, hround⟩ :=
      fill_round hanswers h (by omega) hbuf htotal fuel
    rw [hround]
    by_cases hmore : 0 < n ∧ total + n < size
    · rw [if_pos hmore]
      obtain ⟨m, buf', s', hfill, hlen', hfilled⟩ := ih (by omega) hmore.2 (by omega) hnext
      exact ⟨m, buf', s', hfill, hlen'.trans hlen, hfilled⟩
    · rw [if_neg hmore]
      have hend : total + n = size := by omega
      exact ⟨n - 1, buf₁, s₁, by rw [Nat.sub_add_cancel (by omega)], hlen, hend ▸ hnext⟩

/-- A stream that has not comes to its end. -/
theorem fill_short (hanswers : ∀ n, answers n = some (counts n)) (hwhole : whole.length < size)
    (hbuf : size ≤ buf.length) (htotal : total ≤ whole.length) (hfuel : size ≤ fuel + total)
    (h : Filled whole total buf s) :
    ∃ buf' s', fill answers size fuel buf total s = some (some 0, buf', s') := by
  induction fuel generalizing buf total s with
  | zero => omega
  | succ fuel ih =>
    obtain ⟨n, buf₁, s₁, -, hle, hpos, hlen, hnext, hround⟩ :=
      fill_round hanswers h htotal hbuf (by omega) fuel
    rw [hround]
    by_cases hmore : 0 < n
    · rw [if_pos ⟨hmore, by omega⟩]
      exact ih (by omega) (by omega) (by omega) hnext
    · obtain rfl : n = 0 := by omega
      rw [if_neg fun h => hmore h.1]
      exact ⟨buf₁, s₁, rfl⟩

theorem filled_zero (buf : List UInt8) (s : Stream) : Filled s.rest 0 buf s := ⟨rfl, rfl⟩

end Fill

/-! ## The loop over the records -/

/-- `struct qemu_bdrv_write_header`. -/
structure Header where
  sectorNum : ℤ
  nbSectors : ℤ
  deriving DecidableEq, Repr

def headerSize : ℕ := 12

def sectorSize : ℕ := 512

def qemuParseHeader (eventStream : List UInt8) : Header :=
  ⟨i64 (leNat (eventStream.take 8)), i32 (leNat ((eventStream.drop 8).take 4))⟩

/-- The arguments of a call of `redis_async_write_enqueue`. -/
structure Enqueue where
  sector : ℤ
  data : List UInt8
  len : ℕ
  deriving DecidableEq, Repr

/-- The variables of `read_loop`: `buf`, the block behind `write.data`, the descriptor and what
has been passed on. -/
structure State where
  buf : List UInt8
  data : List UInt8
  stream : Stream
  enqueued : List Enqueue

/-- The end of an iteration, after the data have been read. -/
def passOn (sector : ℤ) (len : ℕ) (s : State) :
    Option ℕ × List UInt8 × Stream → State ⊕ (Bool × List Enqueue)
  | (some (_ + 1), data, stream) =>
    .inl ⟨s.buf, data, stream, s.enqueued ++ [⟨sector, data, len⟩]⟩
  | _ => .inr (false, s.enqueued)

/-- The second half of an iteration, from the header on. -/
def readData (h : Heap) (answers : Answers) (header : Header) (s : State) :
    Option (State ⊕ (Bool × List Enqueue)) :=
  let size := header.nbSectors * sectorSize
  if size < -2 ^ 31 ∨ 2 ^ 31 ≤ size then none
  -- realloc of no bytes frees the block, and there is no block of a negative size
  else if size ≤ 0 then some (.inr (false, s.enqueued))
  else
    let len := size.toNat
    let data := s.data.take len ++ (h.malloc len).drop s.data.length
    (fill answers len len data 0 s.stream).map (passOn header.sectorNum len s)

/-- One iteration of `while (1)`; `true` is `EXIT_SUCCESS`. -/
def readLoop (h : Heap) (answers : Answers) (s : State) :
    Option (State ⊕ (Bool × List Enqueue)) := do
  let (ret, buf, stream) ← fill answers headerSize headerSize s.buf 0 s.stream
  match ret with
  | none => some (.inr (false, s.enqueued))
  | some 0 => some (.inr (true, s.enqueued))
  | some (_ + 1) => readData h answers (qemuParseHeader buf) { s with buf := buf, stream := stream }

/-- The variables at the start: `buf` has whatever was on the stack, `write.data` 4096 bytes. -/
def State.init (h : Heap) (stack : Vector UInt8 12) (bytes : List UInt8) : State :=
  ⟨stack.toList, h.malloc 4096, ⟨bytes, 0⟩, []⟩

/-- A record of the stream. -/
structure Record where
  sectorNum : ℤ
  nbSectors : ℕ
  data : List UInt8
  sector_range : -2 ^ 63 ≤ sectorNum ∧ sectorNum < 2 ^ 63
  nb_pos : 1 ≤ nbSectors
  nb_lt : nbSectors < 2 ^ 22
  data_length : data.length = nbSectors * sectorSize

namespace Record

def header (r : Record) : List UInt8 := i64Bytes r.sectorNum ++ i32Bytes r.nbSectors

def bytes (r : Record) : List UInt8 := r.header ++ r.data

def enqueue (r : Record) : Enqueue := ⟨r.sectorNum, r.data, r.nbSectors * sectorSize⟩

theorem header_length (r : Record) : r.header.length = headerSize := by
  rw [header, List.length_append, i64Bytes_length, i32Bytes_length]
  rfl

theorem parse_header (r : Record) : qemuParseHeader r.header = ⟨r.sectorNum, r.nbSectors⟩ := by
  have hn := r.nb_lt
  have htake : r.header.take 8 = i64Bytes r.sectorNum := List.take_left' (i64Bytes_length _)
  have hdrop : (r.header.drop 8).take 4 = i32Bytes r.nbSectors := by
    rw [header, List.drop_left' (i64Bytes_length _)]
    exact List.take_of_length_le (i32Bytes_length _).le
  rw [qemuParseHeader, htake, hdrop, i64_leNat_i64Bytes r.sector_range.1 r.sector_range.2,
    i32_leNat_i32Bytes (by omega) (by omega)]

end Record

/-- The beginning of a record, which may be nothing at all. -/
def Incomplete (bytes : List UInt8) : Prop := ∃ r : Record, bytes <+: r.bytes ∧ bytes ≠ r.bytes

section Records

variable {h : Heap} {answers : Answers} {counts : ℕ → ℕ} {s : State}

theorem readLoop_header (hanswers : ∀ n, answers n = some (counts n))
    (hbuf : s.buf.length = headerSize) {r : Record} {rest : List UInt8}
    (hrest : s.stream.rest = r.header ++ rest) :
    ∃ stream, stream.rest = rest ∧ readLoop h answers s =
      readData h answers ⟨r.sectorNum, r.nbSectors⟩
        { s with buf := r.header, stream := stream } := by
  have hlen := r.header_length
  have hwhole : headerSize ≤ s.stream.rest.length := by
    rw [hrest, List.length_append]
    omega
  obtain ⟨n, buf, stream, hfill, hlen', hfilled⟩ := @fill_full answers counts _ _ headerSize 0
    headerSize _ hanswers hwhole hbuf.ge (by decide) le_rfl (filled_zero s.buf s.stream)
  have hbytes : buf = r.header := by
    have htaken := hfilled.taken
    rwa [List.take_of_length_le (by omega), hrest, List.take_left' hlen] at htaken
  refine ⟨stream, by rw [hfilled.rest, hrest, List.drop_left' hlen], ?_⟩
  rw [readLoop, bind_of_some hfill]
  dsimp only
  rw [hbytes, r.parse_header]

/-- The stream ends where a header should be. -/
theorem readLoop_end (hanswers : ∀ n, answers n = some (counts n))
    (hbuf : s.buf.length = headerSize) (hrest : s.stream.rest.length < headerSize) :
    readLoop h answers s = some (.inr (true, s.enqueued)) := by
  obtain ⟨buf, stream, hfill⟩ := @fill_short answers counts _ _ headerSize 0 headerSize _ hanswers
    hrest hbuf.ge (Nat.zero_le _) le_rfl (filled_zero s.buf s.stream)
  rw [readLoop, bind_of_some hfill]

/-- The data of a record are read into a block of their size. -/
theorem readData_eq (h : Heap) (answers : Answers) (s : State) (r : Record) :
    ∃ data, data.length = r.data.length ∧ readData h answers ⟨r.sectorNum, r.nbSectors⟩ s =
      (fill answers r.data.length r.data.length data 0 s.stream).map
        (passOn r.sectorNum r.data.length s) := by
  have hpos := r.nb_pos
  have hlt := r.nb_lt
  have hsize : (r.nbSectors : ℤ) * (sectorSize : ℕ) = (r.data.length : ℕ) := by
    rw [r.data_length]
    push_cast
    rfl
  have hlen : r.data.length = r.nbSectors * 512 := r.data_length
  refine ⟨s.data.take r.data.length ++ (h.malloc r.data.length).drop s.data.length, ?_, ?_⟩
  · rw [List.length_append, List.length_take, List.length_drop, Heap.malloc_length]
    omega
  · rw [readData]
    dsimp only
    rw [hsize, if_neg (by omega), if_neg (by omega), Int.toNat_natCast]

theorem readData_full (hanswers : ∀ n, answers n = some (counts n)) {r : Record}
    {rest : List UInt8} (hrest : s.stream.rest = r.data ++ rest) :
    ∃ stream, stream.rest = rest ∧ readData h answers ⟨r.sectorNum, r.nbSectors⟩ s =
      some (.inl ⟨s.buf, r.data, stream, s.enqueued ++ [r.enqueue]⟩) := by
  obtain ⟨block, hblock, hdata⟩ := readData_eq h answers s r
  have hpos : 0 < r.data.length := by
    have hlen : r.data.length = r.nbSectors * 512 := r.data_length
    have := r.nb_pos
    omega
  have hwhole : r.data.length ≤ s.stream.rest.length := by
    rw [hrest, List.length_append]
    omega
  obtain ⟨n, data, stream, hfill, hlen, hfilled⟩ := @fill_full answers counts _ _ r.data.length 0
    r.data.length _ hanswers hwhole hblock.ge hpos le_rfl (filled_zero block s.stream)
  have hbytes : data = r.data := by
    have htaken := hfilled.taken
    rwa [List.take_of_length_le (by omega), hrest, List.take_left] at htaken
  refine ⟨stream, by rw [hfilled.rest, hrest, List.drop_left], ?_⟩
  rw [hdata, hfill, Option.map_some, hbytes, passOn, Record.enqueue, ← r.data_length]

/-- The stream ends among the data. -/
theorem readData_end (hanswers : ∀ n, answers n = some (counts n)) {r : Record}
    (hrest : s.stream.rest.length < r.data.length) :
    readData h answers ⟨r.sectorNum, r.nbSectors⟩ s = some (.inr (false, s.enqueued)) := by
  obtain ⟨block, hblock, hdata⟩ := readData_eq h answers s r
  obtain ⟨data, stream, hfill⟩ := @fill_short answers counts _ _ r.data.length 0 r.data.length _
    hanswers hrest hblock.ge (Nat.zero_le _) le_rfl (filled_zero block s.stream)
  rw [hdata, hfill, Option.map_some]
  rfl

/-- One record. -/
theorem readLoop_record (hanswers : ∀ n, answers n = some (counts n))
    (hbuf : s.buf.length = headerSize) {r : Record} {rest : List UInt8}
    (hrest : s.stream.rest = r.bytes ++ rest) :
    ∃ t, readLoop h answers s = some (.inl t) ∧ t.buf.length = headerSize ∧
      t.stream.rest = rest ∧ t.enqueued = s.enqueued ++ [r.enqueue] := by
  rw [Record.bytes, List.append_assoc] at hrest
  obtain ⟨stream, hstream, hloop⟩ := readLoop_header (h := h) hanswers hbuf hrest
  obtain ⟨stream', hstream', hdata⟩ := readData_full (h := h) hanswers
    (s := { s with buf := r.header, stream := stream }) hstream
  exact ⟨_, hloop.trans hdata, r.header_length, hstream', rfl⟩

theorem readLoop_incomplete (hanswers : ∀ n, answers n = some (counts n))
    (hbuf : s.buf.length = headerSize) (hrest : Incomplete s.stream.rest) :
    readLoop h answers s =
      some (.inr (decide (s.stream.rest.length < headerSize), s.enqueued)) := by
  by_cases hshort : s.stream.rest.length < headerSize
  · rw [decide_eq_true hshort, readLoop_end hanswers hbuf hshort]
  · rw [decide_eq_false hshort]
    obtain ⟨r, ⟨missing, hmissing⟩, hne⟩ := hrest
    have hlen := r.header_length
    obtain ⟨part, hpart⟩ : r.header <+: s.stream.rest := by
      refine List.prefix_of_prefix_length_le (List.prefix_append _ _) ⟨missing, hmissing⟩ ?_
      omega
    rw [← hpart, Record.bytes, List.append_assoc] at hmissing
    have hdata := List.append_cancel_left hmissing
    have hless : part.length < r.data.length := by
      rw [← hdata, List.length_append]
      refine Nat.lt_add_of_pos_right (List.length_pos_iff.mpr fun hnil => hne ?_)
      rw [← hpart, Record.bytes, ← hdata, hnil, List.append_nil]
    obtain ⟨stream, hstream, hloop⟩ := readLoop_header (h := h) hanswers hbuf hpart.symm
    exact hloop.trans (readData_end (s := { s with buf := r.header, stream := stream }) hanswers
      (by rwa [hstream]))

theorem readLoop_ends (hanswers : ∀ n, answers n = some (counts n))
    (hbuf : s.buf.length = headerSize) {records : List Record} {part : List UInt8}
    (hpart : Incomplete part) (hrest : s.stream.rest = records.flatMap Record.bytes ++ part) :
    Ends (readLoop h answers) s
      (decide (part.length < headerSize), s.enqueued ++ records.map Record.enqueue) := by
  induction records generalizing s with
  | nil =>
    rw [List.flatMap_nil, List.nil_append] at hrest
    have hend := readLoop_incomplete (h := h) hanswers hbuf (hrest ▸ hpart)
    rw [hrest] at hend
    rw [List.map_nil, List.append_nil]
    exact .leave hend
  | cons r records ih =>
    rw [List.flatMap_cons, List.append_assoc] at hrest
    obtain ⟨t, hstep, hbuf', hrest', henqueued⟩ := readLoop_record (h := h) hanswers hbuf hrest
    have htail := ih hbuf' hrest'
    rw [henqueued, List.append_assoc] at htail
    exact .again hstep htail

end Records

/-- However the stream is cut into pieces, the records that are complete are passed on, each once
and in their order. -/
theorem readLoop_passes_records (h : Heap) (stack : Vector UInt8 12) {answers : Answers}
    {counts : ℕ → ℕ} (hanswers : ∀ n, answers n = some (counts n)) (records : List Record)
    {part : List UInt8} (hpart : Incomplete part) :
    Ends (readLoop h answers) (State.init h stack (records.flatMap Record.bytes ++ part))
      (decide (part.length < headerSize), records.map Record.enqueue) :=
  readLoop_ends hanswers stack.length_toList hpart rfl

/-- A record of one sector of zeros. -/
def zeroRecord : Record where
  sectorNum := 7
  nbSectors := 1
  data := List.replicate 512 0
  sector_range := by decide
  nb_pos := le_rfl
  nb_lt := by decide
  data_length := List.length_replicate

theorem readLoop_passes_zeroRecord :
    Ends (readLoop zeroHeap fun n => some n)
      (State.init zeroHeap (Vector.replicate 12 0) ([zeroRecord].flatMap Record.bytes ++ [1]))
      (true, [⟨7, List.replicate 512 0, 512⟩]) :=
  readLoop_passes_records zeroHeap (Vector.replicate 12 0)
    (fun n => (rfl : some n = some (id n))) [zeroRecord]
    ⟨{ zeroRecord with sectorNum := 1, sector_range := by decide },
      ⟨(leBytes 8 1).drop 1 ++ (i32Bytes 1 ++ List.replicate 512 0), by decide +kernel⟩,
      by decide +kernel⟩

end GammaRay.TraceStream
