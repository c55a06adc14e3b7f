import GammaRay.NtfsRuns

set_option autoImplicit false

/-!
# Streams of non-resident attributes

The handler copies the runs of an attribute one behind the other, in chunks of 4096 bytes. Behind a
shorter chunk the position in the stream is too far ahead, and it stays so: if more is to come, the
last store ends behind the block.
-/
namespace GammaRay.Ntfs
open Bytes Bson
open Ext4 (Buffer Disk)

/-- How many bytes the clusters of a run have. -/
def Run.size (bootf : BootFile) (run : Run) : ℕ := run.clusters * clusterSize bootf

def diskBytes (disk : Disk) (position n : ℕ) : List UInt8 :=
  (List.range n).map fun i => disk.byte (position + i)

/-- Where a cluster begins. -/
def Handler.place (p : Handler) (lcn : ℤ) : ℤ := lcn * clusterSize p.bootf + p.partitionOffset

/-- The clusters of the runs, in order. -/
def content (p : Handler) : ℤ → List Run → List UInt8
  | _, [] => []
  | lcn, run :: runs =>
    diskBytes p.disk (p.place (lcn + run.delta)).toNat (run.size p.bootf) ++
      content p (lcn + run.delta) runs

def totalSize (bootf : BootFile) (runs : List Run) : ℕ := (runs.map (Run.size bootf)).sum

/-- The distances are not negative and the clusters are in the range that the handler asserts. -/
def InRange : ℤ → List Run → Prop
  | _, [] => True
  | lcn, run :: runs =>
    0 ≤ run.delta ∧ lcn + run.delta < 26214400 ∧ InRange (lcn + run.delta) runs

/-- Every byte that is wanted, `n` in all, is on the disk. -/
def FullReads (p : Handler) : ℤ → ℕ → List Run → Prop
  | _, _, [] => True
  | lcn, n, run :: runs =>
    (0 < n → 0 ≤ p.place (lcn + run.delta) ∧
      p.place (lcn + run.delta) + (min (run.size p.bootf) n : ℕ) ≤ p.disk.size) ∧
    FullReads p (lcn + run.delta) (n - run.size p.bootf) runs

/-- A run that is not the last one of a stream of `n` bytes has only full chunks. -/
def FullChunks (bootf : BootFile) : ℕ → List Run → Prop
  | _, [] => True
  | n, run :: runs =>
    (run.size bootf < n → 4096 ∣ run.size bootf) ∧ FullChunks bootf (n - run.size bootf) runs

/-- The runs in a record, with the byte that ends them. -/
def encodedRuns : List Run → List UInt8
  | [] => [0]
  | run :: runs => run.bytes ++ encodedRuns runs

instance decidableInRange : ∀ lcn runs, Decidable (InRange lcn runs)
  | _, [] => inferInstanceAs (Decidable True)
  | lcn, run :: runs =>
    have := decidableInRange (lcn + run.delta) runs
    inferInstanceAs (Decidable (_ ∧ _ ∧ _))

instance decidableFullReads (p : Handler) : ∀ lcn n runs, Decidable (FullReads p lcn n runs)
  | _, _, [] => inferInstanceAs (Decidable True)
  | lcn, n, run :: runs =>
    have := decidableFullReads p (lcn + run.delta) (n - run.size p.bootf) runs
    inferInstanceAs (Decidable ((_ → _ ∧ _) ∧ _))

instance decidableFullChunks (bootf : BootFile) : ∀ n runs, Decidable (FullChunks bootf n runs)
  | _, [] => inferInstanceAs (Decidable True)
  | n, run :: runs =>
    have := decidableFullChunks bootf (n - run.size bootf) runs
    inferInstanceAs (Decidable ((_ → _) ∧ _))

theorem diskBytes_length (disk : Disk) (position n : ℕ) :
    (diskBytes disk position n).length = n := by
  rw [diskBytes, List.length_map, List.length_range]

theorem diskBytes_add (disk : Disk) (position m n : ℕ) :
    diskBytes disk position (m + n) =
      diskBytes disk position m ++ diskBytes disk (position + m) n := by
  rw [diskBytes, List.range_add, List.map_append, List.map_map, diskBytes, diskBytes]
  congr 1
  refine List.map_congr_left fun i _ => ?_
  rw [Function.comp_apply, Nat.add_assoc]

theorem diskBytes_take {disk : Disk} {position n m : ℕ} (h : m ≤ n) :
    (diskBytes disk position n).take m = diskBytes disk position m := by
  obtain ⟨k, rfl⟩ := Nat.exists_eq_add_of_le h
  rw [diskBytes_add, List.take_left' (diskBytes_length disk position m)]

theorem readDisk_inside {disk : Disk} {position n : ℕ} (hn : 0 < n)
    (h : position + n ≤ disk.size) :
    readDisk disk position n = some (diskBytes disk position n) := by
  rw [readDisk, if_pos ⟨hn, h⟩, diskBytes]

/-! ## One run -/

section Copy

variable {disk : Disk} {front rest : List UInt8} {R L d : ℕ}

/-- A chunk into a stream that is filled up to its position. -/
theorem copyChunk_front (hrest : rest.length = R) (hL : 0 < L) (hR : 0 < R)
    (hdisk : d + min L R ≤ disk.size) :
    copyChunk disk ⟨some (front ++ rest), front.length, R, L, d⟩ =
      some ⟨some (front ++ diskBytes disk d (min (min L R) 4096) ++
          rest.drop (min (min L R) 4096)),
        front.length + 4096, R - min (min L R) 4096, min L R - min (min L R) 4096,
        d + min (min L R) 4096⟩ := by
  have hn : 0 < min (min L R) 4096 := by omega
  have hle : min (min L R) 4096 ≤ R := by omega
  have hlt : d + min (min L R) 4096 ≤ disk.size := by omega
  generalize hm : min (min L R) 4096 = n at hn hle hlt ⊢
  rw [copyChunk]
  dsimp only
  rw [hm, Loop.bind_of_some (readDisk_inside hn hlt), storeAt, diskBytes_length,
    if_pos (by rw [List.length_append, hrest]; omega), splice, diskBytes_length,
    List.take_left, List.drop_append, List.drop_of_length_le (by omega), List.nil_append,
    Nat.add_sub_cancel_left]
  rfl

theorem copyRun_done {s : CopyState} (h : s.runLengthBytes = 0) (fuel : ℕ) :
    copyRun disk fuel s = some s := by
  cases fuel with
  | zero => rw [copyRun, if_pos h]
  | succ fuel => rw [copyRun, if_pos h]

/-- A whole run: the bytes are stored one behind the other. -/
theorem copyRun_front {fuel : ℕ} (hrest : rest.length = R) (hR : 0 < R)
    (hdisk : d + min L R ≤ disk.size) (hfuel : min L R ≤ 4096 * fuel) :
    copyRun disk fuel ⟨some (front ++ rest), front.length, R, L, d⟩ =
      some ⟨some (front ++ diskBytes disk d (min L R) ++ rest.drop (min L R)),
        front.length + 4096 * ((min L R + 4095) / 4096), R - min L R, 0, d + min L R⟩ := by
  induction fuel generalizing front rest R L d with
  | zero =>
    obtain rfl : L = 0 := by omega
    simp [copyRun, diskBytes]
  | succ fuel ih =>
    rcases Nat.eq_zero_or_pos L with rfl | hL
    · simp [copyRun, diskBytes]
    rw [copyRun, if_neg (by dsimp only; omega),
      Loop.bind_of_some (copyChunk_front hrest hL hR hdisk)]
    rcases Nat.lt_or_ge 4096 (min L R) with hlong | hshort
    · obtain ⟨k, hk⟩ := Nat.exists_eq_add_of_lt hlong
      have hmin : min (min L R - 4096) (R - 4096) = k + 1 := by omega
      have hnext := @ih (front ++ diskBytes disk d 4096) (rest.drop 4096) (R - 4096)
        (min L R - 4096) (d + 4096) (by rw [List.length_drop, hrest]) (by omega) (by omega)
        (by omega)
      rw [hmin, List.length_append, diskBytes_length, List.drop_drop,
        List.append_assoc front _ (diskBytes disk (d + 4096) (k + 1)), ← diskBytes_add] at hnext
      have hceil : front.length + 4096 + 4096 * ((k + 1 + 4095) / 4096) =
          front.length + 4096 * ((4096 + k + 1 + 4095) / 4096) := by omega
      rw [Nat.min_eq_right hlong.le, hnext, hk, hceil, Nat.add_assoc d, Nat.sub_sub]
      rfl
    · have hceil : (min L R + 4095) / 4096 = 1 := by omega
      rw [Nat.min_eq_left hshort, copyRun_done (Nat.sub_self _), hceil, Nat.sub_self]

end Copy

/-! ## A stream that is ahead -/

/-- What is still wanted does not fit behind the position. -/
def Ahead (stream : Option (List UInt8)) (position realSize : ℕ) : Prop :=
  0 < realSize ∧ ∃ block, stream = some block ∧ block.length < position + realSize

section Ahead

variable {disk : Disk}

theorem readDisk_length {position n : ℕ} {buf : List UInt8}
    (h : readDisk disk position n = some buf) : buf.length = n := by
  rw [readDisk] at h
  split at h
  · rw [← Option.some.inj h, List.length_map, List.length_range]
  · exact absurd h nofun

theorem storeAt_length {block bytes block' : List UInt8} {position : ℕ}
    (h : storeAt block position bytes = some block') :
    position + bytes.length ≤ block.length ∧ block'.length = block.length := by
  rw [storeAt] at h
  split at h
  · next hfits => exact ⟨hfits, by rw [← Option.some.inj h, splice_length hfits]⟩
  · exact absurd h nofun

theorem copyChunk_ahead {s t : CopyState} (hs : Ahead s.stream s.streamPosition s.realSize)
    (h : copyChunk disk s = some t) :
    Ahead t.stream t.streamPosition t.realSize ∧
      t.realSize - t.runLengthBytes = s.realSize - s.runLengthBytes := by
  obtain ⟨hpos, block, hblock, hahead⟩ := hs
  rw [copyChunk, hblock] at h
  dsimp only at h
  obtain ⟨buf, hbuf, h⟩ := Option.bind_eq_some_iff.mp h
  obtain ⟨stream, hstream, h⟩ := Option.bind_eq_some_iff.mp h
  obtain ⟨hfits, hlength⟩ := storeAt_length hstream
  rw [readDisk_length hbuf] at hfits
  rw [← Option.some.inj h]
  dsimp only
  exact ⟨⟨by omega, stream, rfl, by omega⟩, by omega⟩

theorem copyRun_ahead {fuel : ℕ} {s t : CopyState}
    (hs : Ahead s.stream s.streamPosition s.realSize) (h : copyRun disk fuel s = some t) :
    Ahead t.stream t.streamPosition t.realSize ∧
      t.realSize = s.realSize - s.runLengthBytes := by
  induction fuel generalizing s with
  | zero =>
    rw [copyRun] at h
    split at h
    · next hzero =>
      rw [← Option.some.inj h]
      exact ⟨hs, by rw [hzero, Nat.sub_zero]⟩
    · exact absurd h nofun
  | succ fuel ih =>
    rcases Nat.eq_zero_or_pos s.runLengthBytes with hzero | hpos
    · rw [copyRun_done hzero, Option.some.injEq] at h
      rw [← h]
      exact ⟨hs, by rw [hzero, Nat.sub_zero]⟩
    · rw [copyRun, if_neg (by omega)] at h
      obtain ⟨u, hu, h⟩ := Option.bind_eq_some_iff.mp h
      obtain ⟨hahead, hleft⟩ := copyChunk_ahead hs hu
      obtain ⟨hnext, hsize⟩ := ih hahead h
      exact ⟨hnext, hsize.trans hleft⟩

end Ahead

/-! ## The runs of a record -/

/-- A stream of `n` bytes from the clusters of some runs that stand in a record. -/
structure Laid (p : Handler) (data : Buffer) (offset : ℕ) (lcn : ℤ) (n : ℕ)
    (runs : List Run) : Prop where
  encoded : bytesAt data offset (encodedRuns runs).length = some (encodedRuns runs)
  fits : offset + (encodedRuns runs).length < 2 ^ 64
  sizes : ∀ run ∈ runs, run.size p.bootf < 2 ^ 64
  inRange : InRange lcn runs
  reads : FullReads p lcn n runs
  enough : n ≤ totalSize p.bootf runs

section Laid

variable {p : Handler} {data : Buffer} {offset n : ℕ} {lcn : ℤ} {run : Run} {runs : List Run}

theorem Laid.tail (h : Laid p data offset lcn n (run :: runs)) :
    Laid p data (offset + run.bytes.length) (lcn + run.delta) (n - run.size p.bootf) runs where
  encoded := (bytesAt_append.mp h.encoded).2
  fits := by
    have hfits := h.fits
    rw [encodedRuns, List.length_append] at hfits
    omega
  sizes r hr := h.sizes r (List.mem_cons_of_mem _ hr)
  inRange := h.inRange.2.2
  reads := h.reads.2
  enough := by
    have henough := h.enough
    rw [totalSize, List.map_cons, List.sum_cons] at henough
    rw [totalSize]
    omega

theorem parseDataRun_zero (h : data offset = some 0) (hfit : offset + 1 < 2 ^ 64) :
    parseDataRun data offset 0 0 = some ⟨false, offset + 1, 0, 0⟩ := by
  rw [parseDataRun, Loop.bind_of_some h]
  dsimp only
  rw [if_pos rfl, ← Nat.cast_succ, u64_natCast hfit]

theorem parseDataRun_nonneg (hat : bytesAt data offset run.bytes.length = some run.bytes)
    (hfit : offset + run.bytes.length < 2 ^ 64) (hdelta : 0 ≤ run.delta) :
    parseDataRun data offset 0 0 =
      some ⟨true, offset + run.bytes.length, run.clusters, run.delta⟩ := by
  have hlt := leNat_lt run.offsetField
  have hpow : 256 ^ run.offsetField.length = 2 ^ (8 * run.offsetField.length) := by
    rw [Nat.pow_mul]
  have hcast : ((2 ^ (8 * run.offsetField.length) : ℕ) : ℤ) = 2 ^ (8 * run.offsetField.length) := by
    push_cast
    rfl
  have hbound : 2 ^ (8 * run.offsetField.length - 1) ≤ 2 ^ 63 := by
    have hle := run.offset_le
    exact Nat.pow_le_pow_right (by decide) (by omega)
  rw [parseDataRun_run hat hfit]
  rw [Run.delta, signedLe] at hdelta ⊢
  split at hdelta
  · omega
  · next hnonneg =>
    rw [if_neg hnonneg, if_neg hnonneg, i64_of_range (by omega) (by omega), Option.map_some]

theorem Laid.parse (h : Laid p data offset lcn n (run :: runs)) :
    parseDataRun data offset 0 0 =
      some ⟨true, offset + run.bytes.length, run.clusters, run.delta⟩ := by
  have hfits := h.fits
  rw [encodedRuns, List.length_append] at hfits
  exact parseDataRun_nonneg (bytesAt_append.mp h.encoded).1 (by omega) h.inRange.1

/-- The cluster number is turned into the position on the disk. -/
theorem i64_lcnToOffset (p : Handler) {lcn : ℤ} (hl : 0 ≤ lcn) (hu : lcn < 26214400)
    (hplace : 0 ≤ p.place lcn) (hsize : p.place lcn < 2 ^ 63) :
    i64 (lcnToOffset p.bootf p.partitionOffset (u64 lcn)) = p.place lcn := by
  have hlcn : u64 lcn = lcn.toNat := u64_of_range hl (by omega)
  have hcast : ((lcn.toNat * clusterSize p.bootf : ℕ) : ℤ) = lcn * clusterSize p.bootf := by
    rw [Nat.cast_mul, Int.toNat_of_nonneg hl]
  rw [Handler.place, ← hcast] at hplace hsize ⊢
  rw [lcnToOffset, hlcn]
  unfold i64 u64
  omega

theorem runLengthBytes_eq (bootf : BootFile) (h : run.size bootf < 2 ^ 64) :
    run.clusters * bootf.bytesPerSector % 2 ^ 64 * bootf.sectorsPerCluster % 2 ^ 64 =
      run.size bootf := by
  rw [Nat.mod_mul_mod, Nat.mul_assoc]
  exact Nat.mod_eq_of_lt h

/-- The handler's copy of a run. -/
theorem handleRun_eq {bson : Option BsonInfo} {s : RunState} (o : ℕ)
    (hsave : ¬ (bson.isSome ∧ p.saveSectors)) (hsize : run.size p.bootf < 2 ^ 64) :
    handleRun p bson ⟨true, o, run.clusters, run.delta⟩ s =
      if s.prevLcn + run.delta < 0 ∨ 26214400 ≤ s.prevLcn + run.delta then none
      else
        if s.stream.isSome ∧ i64 (lcnToOffset p.bootf p.partitionOffset
            (u64 (s.prevLcn + run.delta))) < 0 then none
        else
          (copyRun p.disk (run.size p.bootf / 4096 + 1) ⟨s.stream, s.streamPosition, s.realSize,
            run.size p.bootf, (i64 (lcnToOffset p.bootf p.partitionOffset
              (u64 (s.prevLcn + run.delta)))).toNat⟩).map fun c =>
            { s with
              prevLcn := s.prevLcn + run.delta
              realSize := c.realSize
              stream := c.stream
              streamPosition := c.streamPosition } := by
  rw [handleRun]
  dsimp only
  rw [runLengthBytes_eq p.bootf hsize, if_neg hsave]
  split
  · rfl
  · rw [Loop.bind_of_some rfl]
    split
    · rfl
    · exact Option.map_eq_bind.symm

theorem handleRun_ahead {bson : Option BsonInfo} {s t : RunState} {o : ℕ}
    (hsave : ¬ (bson.isSome ∧ p.saveSectors)) (hsize : run.size p.bootf < 2 ^ 64)
    (hs : Ahead s.stream s.streamPosition s.realSize)
    (h : handleRun p bson ⟨true, o, run.clusters, run.delta⟩ s = some t) :
    Ahead t.stream t.streamPosition t.realSize ∧ t.offset = s.offset ∧
      t.realSize = s.realSize - run.size p.bootf := by
  rw [handleRun_eq o hsave hsize] at h
  split at h
  · exact absurd h nofun
  split at h
  · exact absurd h nofun
  obtain ⟨c, hc, rfl⟩ := Option.map_eq_some_iff.mp h
  obtain ⟨hahead, hleft⟩ := copyRun_ahead hs hc
  exact ⟨hahead, rfl, hleft⟩

theorem handleRun_front {bson : Option BsonInfo} {s : RunState} {o : ℕ} {front rest : List UInt8}
    (hsave : ¬ (bson.isSome ∧ p.saveSectors)) (hdisk : p.disk.size < 2 ^ 63)
    (hlaid : Laid p data offset s.prevLcn s.realSize (run :: runs)) (hlcn : 0 ≤ s.prevLcn)
    (hstream : s.stream = some (front ++ rest)) (hposition : s.streamPosition = front.length)
    (hrest : rest.length = s.realSize) (hpos : 0 < s.realSize) :
    handleRun p bson ⟨true, o, run.clusters, run.delta⟩ s = some { s with
      prevLcn := s.prevLcn + run.delta
      realSize := s.realSize - min (run.size p.bootf) s.realSize
      stream := some (front ++ diskBytes p.disk (p.place (s.prevLcn + run.delta)).toNat
        (min (run.size p.bootf) s.realSize) ++ rest.drop (min (run.size p.bootf) s.realSize))
      streamPosition :=
        front.length + 4096 * ((min (run.size p.bootf) s.realSize + 4095) / 4096) } := by
  obtain ⟨hdelta, hlimit, -⟩ := hlaid.inRange
  obtain ⟨hplace, hread⟩ := hlaid.reads.1 hpos
  have hsize := hlaid.sizes run List.mem_cons_self
  rw [handleRun_eq o hsave hsize, if_neg (by omega),
    i64_lcnToOffset p (by omega) hlimit hplace (by omega), if_neg fun h => by omega, hstream,
    hposition, copyRun_front hrest hpos (by omega) (by omega), Option.map_some]

/-! ## The loop over the runs -/

theorem nonResidentStep_done (bson : Option BsonInfo) {s : RunState}
    (hlaid : Laid p data s.offset lcn n runs) (hdone : s.realSize = 0) :
    ∃ o, nonResidentStep p data bson s = some (.inr { s with offset := o }) := by
  cases runs with
  | nil =>
    have hat := bytesAt_singleton.mp hlaid.encoded
    refine ⟨s.offset + 1, ?_⟩
    rw [nonResidentStep, Loop.bind_of_some (parseDataRun_zero hat hlaid.fits)]
    exact if_neg fun h => absurd h.1 Bool.false_ne_true
  | cons run runs =>
    refine ⟨s.offset + run.bytes.length, ?_⟩
    rw [nonResidentStep, Loop.bind_of_some hlaid.parse]
    exact if_neg fun h => h.2 hdone

theorem nonResidentStep_run (bson : Option BsonInfo) {s : RunState}
    (hlaid : Laid p data s.offset lcn n (run :: runs)) (hpos : 0 < s.realSize) :
    nonResidentStep p data bson s =
      (handleRun p bson ⟨true, s.offset + run.bytes.length, run.clusters, run.delta⟩
        { s with offset := s.offset + run.bytes.length }).map .inl := by
  rw [nonResidentStep, Loop.bind_of_some hlaid.parse]
  exact if_pos ⟨rfl, hpos.ne'⟩

/-- Some store on the way ends behind the block. -/
theorem not_ends_ahead {bson : Option BsonInfo} {s : RunState}
    (hsave : ¬ (bson.isSome ∧ p.saveSectors)) (hlaid : Laid p data s.offset lcn s.realSize runs)
    (hs : Ahead s.stream s.streamPosition s.realSize) (t : RunState) :
    ¬ Loop.Ends (nonResidentStep p data bson) s t := by
  induction runs generalizing s lcn with
  | nil => exact absurd hs.1 (Nat.not_lt.mpr hlaid.enough)
  | cons run runs ih =>
    have hstep := nonResidentStep_run bson hlaid hs.1
    cases hnext : handleRun p bson ⟨true, s.offset + run.bytes.length, run.clusters, run.delta⟩
        { s with offset := s.offset + run.bytes.length } with
    | none =>
      rw [hnext] at hstep
      exact Loop.not_ends_of_none hstep
    | some u =>
      rw [hnext] at hstep
      obtain ⟨hahead, hoffset, hleft⟩ :=
        handleRun_ahead (s := { s with offset := s.offset + run.bytes.length }) hsave
          (hlaid.sizes run List.mem_cons_self) hs hnext
      rw [Loop.ends_again_iff hstep]
      have htail : Laid p data u.offset (lcn + run.delta) u.realSize runs := by
        rw [hoffset, hleft]
        exact hlaid.tail
      exact ih htail hahead

theorem fullChunks_zero (bootf : BootFile) (runs : List Run) : FullChunks bootf 0 runs := by
  induction runs with
  | nil => trivial
  | cons run runs ih => exact ⟨nofun, by rwa [Nat.zero_sub]⟩

/-- With nothing left to copy the loop ends where it is. -/
theorem ends_done (bson : Option BsonInfo) {s : RunState}
    (hlaid : Laid p data s.offset lcn n runs) (hdone : s.realSize = 0) :
    ∃ t, Loop.Ends (nonResidentStep p data bson) s t ∧ t.stream = s.stream := by
  obtain ⟨o, hstep⟩ := nonResidentStep_done bson hlaid hdone
  exact ⟨_, (Loop.ends_leave_iff hstep).mpr rfl, rfl⟩

/-- By induction on the runs, for a stream that is filled up to its position: a run keeps it so,
finishes it or puts it ahead. -/
theorem filled_iff {bson : Option BsonInfo} {s : RunState} {front rest : List UInt8}
    (hsave : ¬ (bson.isSome ∧ p.saveSectors)) (hdisk : p.disk.size < 2 ^ 63)
    (hlaid : Laid p data s.offset s.prevLcn s.realSize runs) (hlcn : 0 ≤ s.prevLcn)
    (hstream : s.stream = some (front ++ rest)) (hposition : s.streamPosition = front.length)
    (hrest : rest.length = s.realSize) :
    (∃ t, Loop.Ends (nonResidentStep p data bson) s t ∧
        t.stream = some (front ++ (content p s.prevLcn runs).take s.realSize)) ↔
      FullChunks p.bootf s.realSize runs := by
  rcases Nat.eq_zero_or_pos s.realSize with hzero | hpos
  · obtain ⟨t, hends, ht⟩ := ends_done bson hlaid hzero
    rw [hzero] at hrest ⊢
    rw [hstream, List.length_eq_zero_iff.mp hrest] at ht
    exact iff_of_true ⟨t, hends, ht⟩ (fullChunks_zero p.bootf runs)
  induction runs generalizing s front rest with
  | nil => exact absurd hpos (Nat.not_lt.mpr hlaid.enough)
  | cons run runs ih =>
    have hstep := nonResidentStep_run bson hlaid hpos
    rw [handleRun_front (s := { s with offset := s.offset + run.bytes.length }) hsave hdisk hlaid
      hlcn hstream hposition hrest hpos, Option.map_some] at hstep
    simp only [Loop.ends_again_iff hstep]
    have htail := hlaid.tail
    have hbytes := diskBytes_length p.disk (p.place (s.prevLcn + run.delta)).toNat
      (run.size p.bootf)
    rw [content, FullChunks]
    rcases Nat.lt_or_ge (run.size p.bootf) s.realSize with hshort | hlast
    · rw [Nat.min_eq_left hshort.le, List.take_append, hbytes, List.take_of_length_le (by omega),
        ← List.append_assoc]
      by_cases hdvd : 4096 ∣ run.size p.bootf
      · rw [and_iff_right fun _ => hdvd]
        obtain ⟨hdelta, -, -⟩ := hlaid.inRange
        refine ih (s := ⟨_, _, _, _, _, _, _⟩) htail (by dsimp only; omega) rfl ?_ ?_ ?_
        · rw [List.length_append, hbytes]
          dsimp only
          omega
        · rw [List.length_drop, hrest]
        · dsimp only
          omega
      · refine iff_of_false ?_ fun h => hdvd (h.1 hshort)
        rintro ⟨t, hends, -⟩
        refine not_ends_ahead (s := ⟨_, _, _, _, _, _, _⟩) hsave htail ⟨?_, _, rfl, ?_⟩ t hends
        · dsimp only
          omega
        · rw [List.length_append, List.length_append, hbytes, List.length_drop, hrest]
          dsimp only
          omega
    · have hfull : s.realSize - run.size p.bootf = 0 := by omega
      rw [hfull] at htail ⊢
      rw [Nat.min_eq_right hlast, Nat.sub_self, List.drop_of_length_le hrest.le, List.append_nil,
        List.take_append_of_le_length (by omega), diskBytes_take hlast]
      obtain ⟨t, hends, ht⟩ := ends_done bson (s := ⟨_, s.prevLcn + run.delta, 0,
        some (front ++ diskBytes p.disk (p.place (s.prevLcn + run.delta)).toNat s.realSize),
        front.length + 4096 * ((s.realSize + 4095) / 4096), s.sectors, s.sectorCounter⟩) htail rfl
      exact iff_of_true ⟨t, hends, ht⟩
        ⟨fun h => absurd h (Nat.not_lt.mpr hlast), fullChunks_zero p.bootf runs⟩

end Laid

theorem init_filled_iff {p : Handler} {data : Buffer} {offset' : ℕ} {bson : Option BsonInfo}
    {nrh : NonResidentHeader} {runs : List Run} (hsave : ¬ (bson.isSome ∧ p.saveSectors))
    (hdisk : p.disk.size < 2 ^ 63)
    (hlaid : Laid p data (RunState.init p nrh offset' true).offset 0 nrh.realSize runs) :
    (∃ t, Loop.Ends (nonResidentStep p data bson) (.init p nrh offset' true) t ∧
        t.stream = some ((content p 0 runs).take nrh.realSize)) ↔
      FullChunks p.bootf nrh.realSize runs :=
  filled_iff (s := .init p nrh offset' true) hsave hdisk hlaid le_rfl
    (congrArg some (List.nil_append (p.heap.malloc nrh.realSize)).symm) rfl
    (p.heap.malloc_length _)

/-- What the handler leaves in the stream is what its loop does. -/
theorem handles_iff {p : Handler} {data : Buffer} {offset offset' : ℕ} {bson : Option BsonInfo}
    {nrh : NonResidentHeader} (hsave : ¬ (bson.isSome ∧ p.saveSectors))
    (hnrh : readNonResidentAttributeHeader data offset = some (nrh, offset'))
    (stream : Option (List UInt8)) :
    (∃ r, HandleNonResidentDataAttribute p data offset true bson r ∧ r.stream = stream) ↔
      ∃ t, Loop.Ends (nonResidentStep p data bson) (.init p nrh offset' true) t ∧
        t.stream = stream := by
  have harray : ∀ s, saveArray p bson s = some bson := by
    intro s
    cases bson with
    | none => rfl
    | some b => exact if_neg fun h => hsave ⟨rfl, h⟩
  constructor
  · rintro ⟨r, ⟨nrh', o, s, hread, hends, -, hstream, -, -⟩, hr⟩
    obtain ⟨rfl, rfl⟩ := Prod.mk.inj (Option.some.inj (hnrh.symm.trans hread))
    exact ⟨s, hends, hstream.symm.trans hr⟩
  · rintro ⟨s, hends, hstream⟩
    exact ⟨⟨s.offset, s.stream, some nrh.realSize, bson⟩,
      ⟨nrh, offset', s, hnrh, hends, rfl, rfl, rfl, harray s⟩, hstream⟩

/-- A stream is what its runs hold if each run but the last consists of full chunks; otherwise a
store on the way ends behind the block, and the handler does not return. The sectors are not saved,
as in both calls that want a stream. -/
theorem stream_exact_iff (p : Handler) (data : Buffer) (offset : ℕ) (bson : Option BsonInfo)
    (hsave : ¬ (bson.isSome ∧ p.saveSectors)) (hdisk : p.disk.size < 2 ^ 63)
    (nrh : NonResidentHeader) (offset' : ℕ)
    (hnrh : readNonResidentAttributeHeader data offset = some (nrh, offset')) (runs : List Run)
    (hlaid : Laid p data (RunState.init p nrh offset' true).offset 0 nrh.realSize runs) :
    (∃ r, HandleNonResidentDataAttribute p data offset true bson r ∧
        r.stream = some ((content p 0 runs).take nrh.realSize)) ↔
      FullChunks p.bootf nrh.realSize runs :=
  (handles_iff hsave hnrh _).trans (init_filled_iff hsave hdisk hlaid)

/-! ## Two attributes of two runs -/

/-- One cluster, behind the one before. -/
def nextCluster : Run where
  lengthField := [1]
  offsetField := [1]
  length_le := by decide
  offset_ne := List.cons_ne_nil _ _
  offset_le := by decide

def sampleHandler (sectorsPerCluster : Fin (2 ^ 8)) : Handler where
  heap := zeroHeap
  bootf := ⟨512, sectorsPerCluster, by decide, sectorsPerCluster.isLt⟩
  partitionOffset := 1048576
  disk := ⟨2 ^ 21, fun i => UInt8.ofNat (i / 512)⟩
  saveSectors := false

def sampleAttribute (realSize : ℕ) : Buffer := fun i =>
  (List.replicate 8 0 ++ [64, 0] ++ List.replicate 14 0 ++ leBytes 8 realSize ++
    List.replicate 8 0 ++ encodedRuns [nextCluster, nextCluster])[i]?

theorem clusters_stream :
    ∃ r, HandleNonResidentDataAttribute (sampleHandler 8) (sampleAttribute 5000) 0 true none r ∧
      r.stream = some ((content (sampleHandler 8) 0 [nextCluster, nextCluster]).take 5000) :=
  (stream_exact_iff (sampleHandler 8) (sampleAttribute 5000) 0 none nofun (by decide) ⟨64, 5000⟩ 40
    (by decide +kernel) [nextCluster, nextCluster]
    ⟨by decide +kernel, by decide +kernel, by decide +kernel, by decide +kernel, by decide +kernel,
      by decide +kernel⟩).mpr (by decide +kernel)

/-- Clusters of 512 bytes: the second run is stored 4096 bytes behind the first. -/
theorem sectors_no_stream :
    Laid (sampleHandler 1) (sampleAttribute 1024) 40 0 1024 [nextCluster, nextCluster] ∧
      ¬ ∃ r, HandleNonResidentDataAttribute (sampleHandler 1) (sampleAttribute 1024) 0 true none r ∧
        r.stream = some ((content (sampleHandler 1) 0 [nextCluster, nextCluster]).take 1024) := by
  have hlaid : Laid (sampleHandler 1) (sampleAttribute 1024)
      (RunState.init (sampleHandler 1) ⟨64, 1024⟩ 40 true).offset 0 1024
      [nextCluster, nextCluster] :=
    ⟨by decide +kernel, by decide +kernel, by decide +kernel, by decide +kernel, by decide +kernel,
      by decide +kernel⟩
  have hnrh : readNonResidentAttributeHeader (sampleAttribute 1024) 0 = some (⟨64, 1024⟩, 40) := by
    decide +kernel
  have hsave : ¬ ((none : Option BsonInfo).isSome ∧ (sampleHandler 1).saveSectors) := by decide
  have hiff := init_filled_iff hsave (by decide) hlaid
  exact ⟨hlaid, fun h => absurd (hiff.mp ((handles_iff hsave hnrh _).mp h)) (by decide +kernel)⟩

end GammaRay.Ntfs
