import GammaRay.BsonRoundTrip

set_option autoImplicit false

/-!
# Documents in a file

`bson_writef` and `bson_readf`. The field `size` of a handle is the length of its buffer
before the first document and what is left of the document later on, and it alone decides
whether the next document gets a buffer of its own.
-/
namespace GammaRay.Bson
open Bytes

/-- A file open for reading. -/
structure File where
  bytes : List UInt8
  position : ℕ
  deriving DecidableEq, Repr

/-- A call of `bson_writef` whose `fwrite` is complete. -/
def bsonWritef (b : BsonInfo) (file : List UInt8) : List UInt8 := file ++ b.buffer.take b.position

/-- The buffer for a document of this size. -/
def makeRoom (h : Heap) (b : BsonInfo) (size : ℕ) : BsonInfo :=
  if b.size < size then { b with buffer := h.malloc size } else b

/-- `bson_readf` behind the length prefix. `none` is a read past the end of the buffer, or a
negative length, for which there is no buffer. -/
def readBody (h : Heap) (b : BsonInfo) (f : File) (size : ℤ) : Option (ℤ × BsonInfo × File) :=
  if size < 0 then none
  else
    let b := makeRoom h b size.toNat
    let data := (f.bytes.drop f.position).take size.toNat
    if b.buffer.length < size.toNat then none
    else
      let b := { b with buffer := splice b.buffer 0 data }
      let f := { f with position := f.position + data.length }
      if data.length < size.toNat then some (-1, b, f)
      else some (1, { b with size := size.toNat, position := 0 }, f)

def bsonReadf (h : Heap) (b : BsonInfo) (f : File) : Option (ℤ × BsonInfo × File) :=
  let b := { b with fOffset := f.position }
  let rest := f.bytes.drop f.position
  if rest.length < 4 then some (0, b, { f with position := f.position + rest.length })
  else readBody h b { f with position := f.position + 4 } (i32 (i32 (leNat (rest.take 4)) - 4))

/-- A handle that holds a finished document. -/
structure Packed (b : BsonInfo) (d : Document) : Prop where
  contents : b.buffer.take b.position = frame d.body
  length : (frame d.body).length < 2 ^ 31

/-- What `bson_readf` leaves of a document. -/
structure Read (b : BsonInfo) (d : Document) (offset : ℕ) : Prop where
  size : b.size = d.body.length + 1
  contents : b.buffer.take b.size = d.body ++ [0]
  position : b.position = 0
  fOffset : b.fOffset = offset
  capacity : b.size ≤ b.buffer.length

theorem makeRoom_eq (h : Heap) {b : BsonInfo} (hb : b.size ≤ b.buffer.length) (size : ℕ) :
    ∃ buf, makeRoom h b size = { b with buffer := buf } ∧ size ≤ buf.length := by
  unfold makeRoom
  split
  · exact ⟨_, rfl, (h.malloc_length size).ge⟩
  · exact ⟨b.buffer, rfl, by omega⟩

theorem readBody_full (h : Heap) {b : BsonInfo} {f : File} {data rest : List UInt8}
    (hb : b.size ≤ b.buffer.length) (hf : f.bytes.drop f.position = data ++ rest) :
    ∃ buf, readBody h b f data.length =
        some (1, { b with size := data.length, position := 0, buffer := buf },
          { f with position := f.position + data.length }) ∧
      buf.take data.length = data ∧ data.length ≤ buf.length := by
  obtain ⟨buf, hroom, hcap⟩ := makeRoom_eq h hb data.length
  have hneg : ¬ (data.length : ℤ) < 0 := by omega
  have hsl : (splice buf 0 data).length = buf.length := splice_length (by omega)
  refine ⟨splice buf 0 data, ?_, ?_, by omega⟩
  · rw [readBody, if_neg hneg, Int.toNat_natCast, hf, List.take_left, hroom]
    dsimp only
    rw [if_neg (by omega), if_neg (lt_irrefl _)]
  · rw [splice, List.take_zero, List.nil_append, List.take_left]

theorem readf_document (h : Heap) {b : BsonInfo} {f : File} {d : Document} {rest : List UInt8}
    (hd : (frame d.body).length < 2 ^ 31) (hb : b.size ≤ b.buffer.length)
    (hf : f.bytes.drop f.position = frame d.body ++ rest) :
    ∃ b', bsonReadf h b f = some (1, b', { f with position := f.position + (frame d.body).length }) ∧
      Read b' d f.position := by
  have h4 : (i32Bytes ((d.body.length : ℤ) + 5)).length = 4 := i32Bytes_length _
  have hlen : (d.body ++ [(0 : UInt8)]).length = d.body.length + 1 := by simp
  rw [frame_length] at hd
  have hsize : i32 (i32 (leNat (i32Bytes ((d.body.length : ℤ) + 5))) - 4) =
      ((d.body ++ [(0 : UInt8)]).length : ℤ) := by
    rw [i32_leNat_i32Bytes (by omega) (by omega), i32_of_range (by omega) (by omega), hlen]
    push_cast
    ring
  have htake : (f.bytes.drop f.position).take 4 = i32Bytes (d.body.length + 5) := by
    rw [hf, frame, List.append_assoc, ← h4, List.take_left]
  have hdrop : f.bytes.drop (f.position + 4) = (d.body ++ [0]) ++ rest := by
    rw [← List.drop_drop, hf, frame, List.append_assoc, ← h4, List.drop_left]
  have hfour : ¬ (f.bytes.drop f.position).length < 4 := by
    rw [hf, List.length_append, frame_length]
    omega
  obtain ⟨buf, hread, hcontents, hcap⟩ := @readBody_full h { b with fOffset := f.position }
    { f with position := f.position + 4 } (d.body ++ [0]) rest hb hdrop
  refine ⟨⟨(d.body ++ [(0 : UInt8)]).length, f.position, 0, buf⟩, ?_, hlen, hcontents, rfl, rfl,
    hcap⟩
  rw [bsonReadf, if_neg hfour, htake, hsize, hread, hlen, frame_length]
  dsimp only
  rw [Nat.add_assoc, Nat.add_comm 4]

theorem readf_end (h : Heap) {b : BsonInfo} {f : File} (hf : f.bytes.drop f.position = []) :
    bsonReadf h b f = some (0, { b with fOffset := f.position }, f) := by
  rw [bsonReadf, hf]
  rfl

/-- The file the finished documents of these handles are appended to. -/
def written (handles : List BsonInfo) : List UInt8 :=
  handles.foldl (fun file b => bsonWritef b file) []

def stream (ds : List Document) : List UInt8 := (ds.map fun d => frame d.body).flatten

theorem stream_cons (d : Document) (ds : List Document) :
    stream (d :: ds) = frame d.body ++ stream ds := by
  rw [stream, List.map_cons, List.flatten_cons, stream]

theorem frame_le_stream {d : Document} {ds : List Document} (hd : d ∈ ds) :
    (frame d.body).length ≤ (stream ds).length := by
  induction ds with
  | nil => exact absurd hd List.not_mem_nil
  | cons e ds ih =>
    rw [stream_cons, List.length_append]
    rcases List.mem_cons.mp hd with rfl | hd
    · omega
    · have := ih hd
      omega

theorem length_le_stream (ds : List Document) : ds.length ≤ (stream ds).length := by
  induction ds with
  | nil => exact Nat.zero_le _
  | cons d ds ih =>
    rw [stream_cons, List.length_append, frame_length, List.length_cons]
    omega

/-- Where the document with this number starts. -/
def documentOffset (ds : List Document) (i : ℕ) : ℕ := (stream (ds.take i)).length

theorem foldl_bsonWritef (handles : List BsonInfo) (file : List UInt8) :
    handles.foldl (fun file b => bsonWritef b file) file =
      file ++ (handles.map fun b => b.buffer.take b.position).flatten := by
  induction handles generalizing file with
  | nil => simp
  | cons b handles ih => rw [List.foldl_cons, ih, bsonWritef, List.append_assoc]; rfl

theorem written_eq_stream {handles : List BsonInfo} {ds : List Document}
    (hp : List.Forall₂ Packed handles ds) : written handles = stream ds := by
  rw [written, foldl_bsonWritef, List.nil_append, stream]
  induction hp with
  | nil => rfl
  | cons hb _ ih => rw [List.map_cons, List.flatten_cons, ih, hb.contents]; rfl

theorem stream_split {ds : List Document} {i : ℕ} {d : Document} (hd : ds[i]? = some d) :
    stream ds = stream (ds.take i) ++ (frame d.body ++ stream (ds.drop (i + 1))) := by
  obtain ⟨hi, rfl⟩ := List.getElem?_eq_some_iff.mp hd
  conv_lhs => rw [← List.take_append_drop i ds, List.drop_eq_getElem_cons hi]
  simp only [stream, List.map_append, List.map_cons, List.flatten_append, List.flatten_cons]

theorem stream_drop_offset {ds : List Document} {i : ℕ} {d : Document} (hd : ds[i]? = some d) :
    (stream ds).drop (documentOffset ds i) = frame d.body ++ stream (ds.drop (i + 1)) := by
  rw [stream_split hd, documentOffset, List.drop_left]

theorem documentOffset_succ {ds : List Document} {i : ℕ} {d : Document} (hd : ds[i]? = some d) :
    documentOffset ds (i + 1) = documentOffset ds i + (frame d.body).length := by
  rw [documentOffset, documentOffset, List.take_add_one, hd, stream, List.map_append,
    List.flatten_append, List.length_append]
  simp [stream]

theorem stream_drop_length (ds : List Document) :
    (stream ds).drop (documentOffset ds ds.length) = [] := by
  rw [documentOffset, List.take_length, List.drop_length]

/-- What any number of `bson_deserialize` calls leave of a document. -/
def Midway (b : BsonInfo) : Prop := b.size = 0 ∨ ∃ total d, Cursor b total (Document.body d ++ [0])

theorem Read.cursor {b : BsonInfo} {d : Document} {offset : ℕ} (hr : Read b d offset)
    (hd : (frame d.body).length < 2 ^ 31) :
    Cursor b (d.body.length + 1) (d.body ++ [0]) := by
  have hlen : (d.body ++ [(0 : UInt8)]).length = d.body.length + 1 := by simp
  rw [frame_length] at hd
  refine ⟨⟨b.buffer.drop b.size, ?_⟩, ?_, ?_, by omega⟩
  · rw [hr.position, List.drop_zero, ← hr.contents, List.take_append_drop]
  · rw [hlen, hr.size]
  · rw [hlen, hr.position, Nat.zero_add]

theorem Read.midway {b : BsonInfo} {d : Document} {offset : ℕ} (hr : Read b d offset)
    (hd : (frame d.body).length < 2 ^ 31) : Midway b :=
  Or.inr ⟨_, d, hr.cursor hd⟩

theorem Midway.capacity {b : BsonInfo} (hb : Midway b) : b.size ≤ b.buffer.length := by
  rcases hb with hz | ⟨total, d, hc⟩
  · rw [hz]
    exact Nat.zero_le _
  · have hfits := hc.fits (by simp)
    have hs := hc.size
    omega

theorem Midway.deserialize (h : Heap) {b : BsonInfo} (hb : Midway b) (r r2 : BsonRef) :
    ∃ ret b' s s2, bsonDeserialize b r r2 = some (ret, b', s, s2) ∧ Midway b' := by
  rcases hb with hz | ⟨total, d, hc⟩
  · refine ⟨0, b, r, r2, ?_, Or.inl hz⟩
    rw [bsonDeserialize, if_pos (by omega)]
  cases d with
  | nil => exact ⟨0, b.past 1 0, r, r2, hc.finish r r2, Or.inl rfl⟩
  | cons key value rest =>
    simp only [Document.body, List.append_assoc] at hc
    rw [← List.append_assoc key.bytes] at hc
    obtain ⟨b', s, s2, he, -, -, -, -, hc'⟩ := bsonDeserialize_cons h key value r r2 hc
      (fun b r => value.parses h b total (rest.body ++ [0]) r r2)
    exact ⟨1, b', s, s2, he, Or.inr ⟨total, rest, hc'⟩⟩

/-- What a consumer does with one handle on the file: `bson_readf` at the current position,
`bson_deserialize` once there is a document, and seeks to where a document starts. -/
inductive Session (h : Heap) (file : List UInt8) (starts : Set ℕ) : Bool → BsonInfo → ℕ → Prop
  | start : Session h file starts false (bsonInit h) 0
  | read {loaded : Bool} {b b' : BsonInfo} {p : ℕ} {ret : ℤ} {f : File}
      (hs : Session h file starts loaded b p) (hr : bsonReadf h b ⟨file, p⟩ = some (ret, b', f)) :
      Session h file starts (loaded || ret == 1) b' f.position
  | deserialize {b b' : BsonInfo} {p : ℕ} {r r2 s s2 : BsonRef} {ret : ℤ}
      (hs : Session h file starts true b p)
      (hd : bsonDeserialize b r r2 = some (ret, b', s, s2)) : Session h file starts true b' p
  | seek {loaded : Bool} {b : BsonInfo} {p q : ℕ} (hs : Session h file starts loaded b p)
      (hq : q ∈ starts) : Session h file starts loaded b q

/-- Where the documents of a stream start. -/
def starts (ds : List Document) : Set ℕ := {p | ∃ i < ds.length, p = documentOffset ds i}

/-- At every point of a session. -/
structure Sound (ds : List Document) (loaded : Bool) (b : BsonInfo) (p : ℕ) : Prop where
  capacity : b.size ≤ b.buffer.length
  midway : loaded = true → Midway b
  position : ∃ i ≤ ds.length, p = documentOffset ds i

section Stream

variable {h : Heap} {ds : List Document} {loaded : Bool} {b : BsonInfo} {p : ℕ}

theorem readf_next (hb : b.size ≤ b.buffer.length) {i : ℕ} {d : Document} (hd : ds[i]? = some d)
    (hsmall : (frame d.body).length < 2 ^ 31) :
    ∃ b', bsonReadf h b ⟨stream ds, documentOffset ds i⟩ =
        some (1, b', ⟨stream ds, documentOffset ds (i + 1)⟩) ∧
      Read b' d (documentOffset ds i) := by
  rw [documentOffset_succ hd]
  exact @readf_document h b ⟨stream ds, documentOffset ds i⟩ d _ hsmall hb (stream_drop_offset hd)

theorem readf_last :
    bsonReadf h b ⟨stream ds, documentOffset ds ds.length⟩ =
      some (0, { b with fOffset := documentOffset ds ds.length },
        ⟨stream ds, documentOffset ds ds.length⟩) :=
  @readf_end h b ⟨stream ds, documentOffset ds ds.length⟩ (stream_drop_length ds)

theorem Midway.of_fOffset (hb : Midway b) (offset : ℕ) : Midway { b with fOffset := offset } := by
  rcases hb with hz | ⟨total, d, hc⟩
  · exact Or.inl hz
  · exact Or.inr ⟨total, d, hc.ahead, hc.size, hc.position, hc.total_lt⟩

theorem Sound.read (hsmall : ∀ d ∈ ds, (frame d.body).length < 2 ^ 31)
    (hs : Sound ds loaded b p) {ret : ℤ} {b' : BsonInfo} {f : File}
    (hr : bsonReadf h b ⟨stream ds, p⟩ = some (ret, b', f)) :
    Sound ds (loaded || ret == 1) b' f.position := by
  obtain ⟨i, hi, rfl⟩ := hs.position
  rcases hi.lt_or_eq with hlt | rfl
  · have hd : ds[i]? = some ds[i] := List.getElem?_eq_getElem hlt
    have hm := hsmall _ (List.getElem_mem hlt)
    obtain ⟨b₁, he, hread⟩ := readf_next (h := h) hs.capacity hd hm
    cases he.symm.trans hr
    exact ⟨hread.capacity, fun _ => hread.midway hm, i + 1, hlt, rfl⟩
  · cases readf_last.symm.trans hr
    refine ⟨hs.capacity, fun hl => ?_, ds.length, le_rfl, rfl⟩
    have hold : loaded = true := by simpa using hl
    exact (hs.midway hold).of_fOffset _

theorem Session.sound (hsmall : ∀ d ∈ ds, (frame d.body).length < 2 ^ 31)
    (hs : Session h (stream ds) (starts ds) loaded b p) : Sound ds loaded b p := by
  induction hs with
  | start => exact ⟨(h.malloc_length startSize).ge, (nomatch ·), 0, Nat.zero_le _, rfl⟩
  | read _ hr ih => exact ih.read hsmall hr
  | deserialize _ hd ih =>
    obtain ⟨ret, b₁, s, s2, he, hm⟩ := (ih.midway rfl).deserialize h _ _
    cases he.symm.trans hd
    exact ⟨hm.capacity, fun _ => hm, ih.position⟩
  | seek _ hq ih =>
    obtain ⟨i, hi, rfl⟩ := hq
    exact ⟨ih.capacity, ih.midway, i, hi.le, rfl⟩

end Stream

theorem Packed.small {handles : List BsonInfo} {ds : List Document}
    (hp : List.Forall₂ Packed handles ds) : ∀ d ∈ ds, (frame d.body).length < 2 ^ 31 := by
  induction hp with
  | nil => exact fun d hd => absurd hd List.not_mem_nil
  | cons hb _ ih => exact List.forall_mem_cons.mpr ⟨hb.length, ih⟩

/-- An empty document, which has nothing but its length and the terminator. -/
def emptyHandle : BsonInfo := ⟨5, 0, 5, [5, 0, 0, 0, 0]⟩

end GammaRay.Bson
