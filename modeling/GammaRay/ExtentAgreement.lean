import GammaRay.BsonEncoderBytes
import GammaRay.Ext4

set_option autoImplicit false

/-!
# The three walkers agree

Each of the three copies of the walk over an extent tree is related to one walk that only
says which extent takes the block, and by that to the other two.
-/
namespace GammaRay.Ext4
open Bytes Decimal Bson

/-- The walk by itself: the extent that takes the block, if one does, and the buffer in
which it was looked at. -/
def walkStep (v : Volume) (blockNum : ℕ) (s : WalkState) :
    Option (WalkState ⊕ (Option Extent × Buffer)) := do
  let hdr ← extentHeader s.buf
  if s.i < hdr.ehEntries then
    if hdr.ehDepth ≠ 0 then
      let idx2 ← extentIdxAt s.buf s.i
      if hdr.ehEntries = 1 then
        some (.inl ⟨ext4ReadBlock v (ext4ExtentIndexLeaf idx2) s.buf, 0,
          { s.idx with eiBlock := sentinel }⟩)
      else if blockNum < idx2.eiBlock ∧ s.idx.eiBlock ≤ blockNum then
        some (.inl ⟨ext4ReadBlock v (ext4ExtentIndexLeaf s.idx) s.buf, 0,
          { s.idx with eiBlock := sentinel }⟩)
      else some (.inl { s with i := s.i + 1, idx := idx2 })
    else
      let extent ← extentAt s.buf s.i
      if extent.takes blockNum then some (.inr (some extent, s.buf))
      else some (.inl { s with i := s.i + 1 })
  else some (.inr (none, s.buf))

/-- The physical block that an extent gives a block of the file. -/
def Extent.physical (extent : Extent) (blockNum : ℕ) : ℕ :=
  ext4ExtentStart extent + (blockNum - extent.eeBlock)

variable {v : Volume} {b : ℕ}

/-! ## Finding a sector -/

def sectorResult (v : Volume) (b : ℕ) (x : Option Extent × Buffer) : ℕ :=
  x.1.elim 0 fun e => ext4SectorFromBlock (e.physical b) v

theorem sectorStep_eq (s : WalkState) :
    ext4SectorExtentStep v b s = (walkStep v b s).map (Sum.map id (sectorResult v b)) := by
  unfold ext4SectorExtentStep walkStep
  cases extentHeader s.buf with
  | none => rfl
  | some hdr =>
    change (if s.i < hdr.ehEntries then _ else _) =
      Option.map _ (if s.i < hdr.ehEntries then _ else _)
    by_cases hi : s.i < hdr.ehEntries
    · rw [if_pos hi, if_pos hi]
      by_cases hd : hdr.ehDepth ≠ 0
      · rw [if_pos hd, if_pos hd]
        cases extentIdxAt s.buf s.i with
        | none => rfl
        | some idx2 =>
          change (if hdr.ehEntries = 1 then _ else _) =
            Option.map _ (if hdr.ehEntries = 1 then _ else _)
          split_ifs <;> rfl
      · rw [if_neg hd, if_neg hd]
        cases extentAt s.buf s.i with
        | none => rfl
        | some e =>
          change (if e.takes b then _ else _) = Option.map _ (if e.takes b then _ else _)
          split_ifs <;> rfl
    · rw [if_neg hi, if_neg hi]
      rfl

theorem sector_ends_iff {s : WalkState} {sector : ℕ} :
    Loop.Ends (ext4SectorExtentStep v b) s sector ↔
      ∃ x, sector = sectorResult v b x ∧ Loop.Ends (walkStep v b) s x :=
  Loop.ends_map_iff id (sectorResult v b) sectorStep_eq

/-! ## Reading a block -/

def ReadState.walk (s : ReadState) : WalkState := ⟨s.buf, s.i, s.idx⟩

def readResult (v : Volume) (b : ℕ) (x : Option Extent × Buffer) : ReadResult :=
  x.1.elim (.hole (zeroFill v x.2)) fun e =>
    .block (e.physical b) (ext4ReadBlock v (e.physical b) x.2)

/-- The copy of the header is taken one round earlier than the others look at it. -/
theorem readStep_eq {s : ReadState} (h : extentHeader s.buf = some s.hdr) :
    ext4ReadExtentStep v b s = (walkStep v b s.walk).bind (Sum.elim
      (fun w => (extentHeader w.buf).map fun hdr => .inl ⟨w.buf, hdr, w.i, w.idx⟩)
      (fun x => some (.inr (readResult v b x)))) := by
  obtain ⟨buf, hdr, i, idx⟩ := s
  change extentHeader buf = some hdr at h
  change _ = (walkStep v b ⟨buf, i, idx⟩).bind _
  simp only [ext4ReadExtentStep, walkStep, h, Option.bind_eq_bind, Option.bind_some]
  by_cases hi : i < hdr.ehEntries
  · rw [if_pos hi, if_pos hi]
    by_cases hd : hdr.ehDepth ≠ 0
    · rw [if_pos hd, if_pos hd]
      cases extentIdxAt buf i with
      | none => rfl
      | some idx2 =>
        simp only [Option.bind_some]
        split_ifs
        · exact (Option.map_eq_bind ..).symm
        · exact (Option.map_eq_bind ..).symm
        · simp only [Option.bind_some, Sum.elim_inl, h, Option.map_some]
    · rw [if_neg hd, if_neg hd]
      cases extentAt buf i with
      | none => rfl
      | some e =>
        simp only [Option.bind_some]
        split_ifs
        · rfl
        · simp only [Option.bind_some, Sum.elim_inl, h, Option.map_some]
  · rw [if_neg hi, if_neg hi]
    rfl

theorem read_ends_iff {s : ReadState} {r : ReadResult} (h : extentHeader s.buf = some s.hdr) :
    Loop.Ends (ext4ReadExtentStep v b) s r ↔
      ∃ x, r = readResult v b x ∧ Loop.Ends (walkStep v b) s.walk x := by
  constructor
  · intro hr
    induction hr with
    | leave h' =>
      rw [readStep_eq h, Option.bind_eq_some_iff] at h'
      obtain ⟨w | x, hw, hx⟩ := h'
      · rw [Sum.elim_inl, Option.map_eq_some_iff] at hx
        obtain ⟨_, -, hx⟩ := hx
        cases hx
      · exact ⟨x, (Sum.inr.inj (Option.some.inj hx)).symm, .leave hw⟩
    | again h' _ ih =>
      rw [readStep_eq h, Option.bind_eq_some_iff] at h'
      obtain ⟨w | x, hw, hx⟩ := h'
      · rw [Sum.elim_inl, Option.map_eq_some_iff] at hx
        obtain ⟨hdr, hhdr, hx⟩ := hx
        obtain rfl := Sum.inl.inj hx
        obtain ⟨x, hr, hx⟩ := ih hhdr
        exact ⟨x, hr, .again hw hx⟩
      · cases hx
  · rintro ⟨x, rfl, hx⟩
    generalize hw : s.walk = w at hx
    induction hx generalizing s with
    | leave h' =>
      refine .leave ?_
      rw [readStep_eq h, hw, h', Option.bind_some, Sum.elim_inr]
    | @again w t x h' tail ih =>
      -- the walk goes on from `t`, so the header there can be read
      cases ht : extentHeader t.buf with
      | none =>
        refine absurd tail (Loop.not_ends_of_none ?_)
        rw [walkStep, Loop.bind_of_none ht]
      | some hdr =>
        refine .again ?_ (ih (s := ⟨t.buf, hdr, t.i, t.idx⟩) ht rfl)
        rw [readStep_eq h, hw, h', Option.bind_some, Sum.elim_inl, ht, Option.map_some]

/-! ## Recording a sector -/

section Record

variable {o : Options}

/-- What is recorded about the index blocks passed touches nothing else. -/
structure Records.Keeps (r r' : Records) : Prop where
  sectors : r'.sectors = r.sectors
  data : r'.data = r.data

theorem recordIndex_keeps {idx : ExtentIdx} {r r' : Records}
    (h : recordIndex o v b idx r = some r') : r.Keeps r' := by
  unfold recordIndex at h
  split at h
  · simp only [Option.bind_eq_bind, Option.bind_eq_some_iff, Option.some.injEq] at h
    obtain ⟨_, -, rfl⟩ := h
    exact ⟨rfl, rfl⟩
  · obtain rfl := Option.some.inj h
    exact ⟨rfl, rfl⟩

/-- The index entry that a round follows, if it follows one. -/
def followed (b : ℕ) (w : WalkState) : Option ExtentIdx := do
  let hdr ← extentHeader w.buf
  if w.i < hdr.ehEntries ∧ hdr.ehDepth ≠ 0 then
    let idx2 ← extentIdxAt w.buf w.i
    if hdr.ehEntries = 1 then some idx2
    else if b < idx2.eiBlock ∧ w.idx.eiBlock ≤ b then some w.idx
    else none
  else none

/-- What a round that goes on records. -/
def pass (o : Options) (v : Volume) (b : ℕ) (w : WalkState) (r : Records) : Option Records :=
  (followed b w).elim (some r) fun idx => recordIndex o v b idx r

theorem recordIndex_of_not_save {idx : ExtentIdx} {r : Records} (h : o.saveExtents = false) :
    recordIndex o v b idx r = some r := by
  rw [recordIndex, if_neg]
  rw [h]
  exact fun hc => Bool.false_ne_true hc.1

theorem pass_keeps {w : WalkState} {r r' : Records} (h : pass o v b w r = some r') :
    r.Keeps r' := by
  unfold pass at h
  cases hf : followed b w with
  | none =>
    rw [hf] at h
    rw [← Option.some.inj h]
    exact ⟨rfl, rfl⟩
  | some idx =>
    rw [hf] at h
    exact recordIndex_keeps h

theorem pass_of_not_save {w : WalkState} {r : Records} (h : o.saveExtents = false) :
    pass o v b w r = some r := by
  unfold pass
  cases followed b w with
  | none => rfl
  | some idx => exact recordIndex_of_not_save h

/-- A round of the recording walker against a round of the walk. -/
inductive Round (o : Options) (v : Volume) (b : ℕ) (w : WalkState) (r : Records) : Prop where
  | stuck (h : walkStep v b w = none)
      (hs : ext4SerializeExtentStep o v b ⟨w, r⟩ = none)
  | on (t : WalkState) (h : walkStep v b w = some (.inl t))
      (hs : ext4SerializeExtentStep o v b ⟨w, r⟩ = (pass o v b w r).map fun r' => .inl ⟨t, r'⟩)
  | taken (e : Extent) (buf : Buffer) (h : walkStep v b w = some (.inr (some e, buf)))
      (hs : ext4SerializeExtentStep o v b ⟨w, r⟩ =
        (recordBlock o v b e buf r).map fun r' => .inr (0, r'))
  | ended (buf : Buffer) (h : walkStep v b w = some (.inr (none, buf)))
      (hs : ext4SerializeExtentStep o v b ⟨w, r⟩ = some (.inr (-1, r)))

theorem round (w : WalkState) (r : Records) : Round o v b w r := by
  obtain ⟨buf, i, idx⟩ := w
  cases hh : extentHeader buf with
  | none => exact .stuck (Loop.bind_of_none hh _) (Loop.bind_of_none hh _)
  | some hdr =>
    by_cases hi : i < hdr.ehEntries
    · by_cases hd : hdr.ehDepth ≠ 0
      · cases hx : extentIdxAt buf i with
        | none =>
          refine .stuck ?_ ?_
          · rw [walkStep, Loop.bind_of_some hh, if_pos hi, if_pos hd, Loop.bind_of_none hx]
          · rw [ext4SerializeExtentStep, Loop.bind_of_some hh, if_pos hi, if_pos hd,
              Loop.bind_of_none hx]
        | some idx2 =>
          have hf : followed b ⟨buf, i, idx⟩ = if hdr.ehEntries = 1 then some idx2
              else if b < idx2.eiBlock ∧ idx.eiBlock ≤ b then some idx else none := by
            rw [followed, Loop.bind_of_some hh, if_pos ⟨hi, hd⟩, Loop.bind_of_some hx]
          by_cases h1 : hdr.ehEntries = 1
          · refine .on ⟨ext4ReadBlock v (ext4ExtentIndexLeaf idx2) buf, 0,
              { idx with eiBlock := sentinel }⟩ ?_ ?_
            · rw [walkStep, Loop.bind_of_some hh, if_pos hi, if_pos hd, Loop.bind_of_some hx,
                if_pos h1]
            · rw [ext4SerializeExtentStep, Loop.bind_of_some hh, if_pos hi, if_pos hd,
                Loop.bind_of_some hx, if_pos h1, pass, hf, if_pos h1, Option.elim_some,
                Option.map_eq_bind]
              rfl
          · by_cases hb : b < idx2.eiBlock ∧ idx.eiBlock ≤ b
            · refine .on ⟨ext4ReadBlock v (ext4ExtentIndexLeaf idx) buf, 0,
                { idx with eiBlock := sentinel }⟩ ?_ ?_
              · rw [walkStep, Loop.bind_of_some hh, if_pos hi, if_pos hd, Loop.bind_of_some hx,
                  if_neg h1, if_pos hb]
              · rw [ext4SerializeExtentStep, Loop.bind_of_some hh, if_pos hi, if_pos hd,
                  Loop.bind_of_some hx, if_neg h1, if_pos hb, pass, hf, if_neg h1, if_pos hb,
                  Option.elim_some, Option.map_eq_bind]
                rfl
            · refine .on ⟨buf, i + 1, idx2⟩ ?_ ?_
              · rw [walkStep, Loop.bind_of_some hh, if_pos hi, if_pos hd, Loop.bind_of_some hx,
                  if_neg h1, if_neg hb]
              · rw [ext4SerializeExtentStep, Loop.bind_of_some hh, if_pos hi, if_pos hd,
                  Loop.bind_of_some hx, if_neg h1, if_neg hb, pass, hf, if_neg h1, if_neg hb,
                  Option.elim_none, Option.map_some]
      · have hf : followed b ⟨buf, i, idx⟩ = none := by
          rw [followed, Loop.bind_of_some hh, if_neg fun h => hd h.2]
        cases hx : extentAt buf i with
        | none =>
          refine .stuck ?_ ?_
          · rw [walkStep, Loop.bind_of_some hh, if_pos hi, if_neg hd, Loop.bind_of_none hx]
          · rw [ext4SerializeExtentStep, Loop.bind_of_some hh, if_pos hi, if_neg hd,
              Loop.bind_of_none hx]
        | some e =>
          by_cases ht : e.takes b = true
          · refine .taken e buf ?_ ?_
            · rw [walkStep, Loop.bind_of_some hh, if_pos hi, if_neg hd, Loop.bind_of_some hx,
                if_pos ht]
            · rw [ext4SerializeExtentStep, Loop.bind_of_some hh, if_pos hi, if_neg hd,
                Loop.bind_of_some hx, if_pos ht, Option.map_eq_bind]
              rfl
          · refine .on ⟨buf, i + 1, idx⟩ ?_ ?_
            · rw [walkStep, Loop.bind_of_some hh, if_pos hi, if_neg hd, Loop.bind_of_some hx,
                if_neg ht]
            · rw [ext4SerializeExtentStep, Loop.bind_of_some hh, if_pos hi, if_neg hd,
                Loop.bind_of_some hx, if_neg ht, pass, hf, Option.elim_none, Option.map_some]
    · refine .ended buf ?_ ?_
      · rw [walkStep, Loop.bind_of_some hh, if_neg hi]
      · rw [ext4SerializeExtentStep, Loop.bind_of_some hh, if_neg hi]

/-- The recording walker goes on where the walk does, if what it has to record fits. -/
theorem serializeStep_again_iff {w : WalkState} {r : Records} {s : SerializeState} :
    ext4SerializeExtentStep o v b ⟨w, r⟩ = some (.inl s) ↔
      ∃ t r', walkStep v b w = some (.inl t) ∧ pass o v b w r = some r' ∧ s = ⟨t, r'⟩ := by
  rcases round (o := o) (v := v) (b := b) w r with
    ⟨hw, hs⟩ | ⟨t, hw, hs⟩ | ⟨e, buf, hw, hs⟩ | ⟨buf, hw, hs⟩
  · simp [hw, hs]
  · simp [hw, hs, eq_comm]
  · simp [hw, hs]
  · simp [hw, hs]

/-- It leaves where the walk does, with the block that was found recorded. -/
theorem serializeStep_leave_iff {w : WalkState} {r r' : Records} {ret : ℤ} :
    ext4SerializeExtentStep o v b ⟨w, r⟩ = some (.inr (ret, r')) ↔
      (∃ e buf, walkStep v b w = some (.inr (some e, buf)) ∧
        recordBlock o v b e buf r = some r' ∧ ret = 0) ∨
      ∃ buf, walkStep v b w = some (.inr (none, buf)) ∧ r' = r ∧ ret = -1 := by
  rcases round (o := o) (v := v) (b := b) w r with
    ⟨hw, hs⟩ | ⟨t, hw, hs⟩ | ⟨e, buf, hw, hs⟩ | ⟨buf, hw, hs⟩
  · simp [hw, hs]
  · simp [hw, hs]
  · simp [hw, hs, eq_comm, and_comm]
  · simp [hw, hs, eq_comm, and_comm]

/-- What the recording walker leaves, by what the walk came to. -/
def Recorded (o : Options) (v : Volume) (b : ℕ) (r : Records) :
    Option Extent × Buffer → ℤ × Records → Prop
  | (none, _), (ret, r') => ret = -1 ∧ r.Keeps r'
  | (some e, buf), (ret, r') => ret = 0 ∧ ∃ r₁, r.Keeps r₁ ∧ recordBlock o v b e buf r₁ = some r'

theorem Records.Keeps.trans {r r₁ r₂ : Records} (h : r.Keeps r₁) (h' : r₁.Keeps r₂) :
    r.Keeps r₂ :=
  ⟨h'.sectors.trans h.sectors, h'.data.trans h.data⟩

theorem Recorded.of_keeps {r r₁ : Records} {x : Option Extent × Buffer} {y : ℤ × Records}
    (h : r.Keeps r₁) (hr : Recorded o v b r₁ x y) : Recorded o v b r x y := by
  obtain ⟨_ | e, buf⟩ := x
  · exact ⟨hr.1, h.trans hr.2⟩
  · obtain ⟨hret, r₂, hk, hb⟩ := hr
    exact ⟨hret, r₂, h.trans hk, hb⟩

theorem serialize_ends {w : WalkState} {r : Records} {y : ℤ × Records}
    (h : Loop.Ends (ext4SerializeExtentStep o v b) ⟨w, r⟩ y) :
    ∃ x, Loop.Ends (walkStep v b) w x ∧ Recorded o v b r x y := by
  generalize hs : (⟨w, r⟩ : SerializeState) = s at h
  induction h generalizing w r with
  | @leave s y h' =>
    subst hs
    obtain ⟨ret, r'⟩ := y
    rcases serializeStep_leave_iff.mp h' with ⟨e, buf, hw, hr', rfl⟩ | ⟨buf, hw, rfl, rfl⟩
    · exact ⟨_, .leave hw, rfl, r, ⟨rfl, rfl⟩, hr'⟩
    · exact ⟨_, .leave hw, rfl, rfl, rfl⟩
  | again h' _ ih =>
    subst hs
    obtain ⟨t, r', hw, hp, rfl⟩ := serializeStep_again_iff.mp h'
    obtain ⟨x, hx, hrec⟩ := ih rfl
    exact ⟨x, .again hw hx, hrec.of_keeps (pass_keeps hp)⟩

/-- Where no index block is recorded on the way, the recording walker ends with the walk. -/
theorem serialize_of_unrecorded {w : WalkState} {r r' : Records} {x : Option Extent × Buffer}
    (h : Loop.Ends (walkStep v b) w x)
    (hpass : ∀ t u, Loop.Leads (walkStep v b) w t → walkStep v b t = some (.inl u) →
      pass o v b t r = some r)
    (hx : ∀ e ∈ x.1, recordBlock o v b e x.2 r = some r') (hn : x.1 = none → r' = r) :
    Loop.Ends (ext4SerializeExtentStep o v b) ⟨w, r⟩ (if x.1.isSome then 0 else -1, r') := by
  induction h with
  | @leave w x h' =>
    obtain ⟨_ | e, buf⟩ := x
    · exact .leave (serializeStep_leave_iff.mpr (.inr ⟨buf, h', hn rfl, rfl⟩))
    · exact .leave (serializeStep_leave_iff.mpr (.inl ⟨e, buf, h', hx e rfl, rfl⟩))
  | @again w t x h' _ ih =>
    refine .again ?_ (ih (fun t u ht => hpass t u (.step h' ht)) hx hn)
    exact serializeStep_again_iff.mpr ⟨t, r, h', hpass w t (.refl w) h', rfl⟩

end Record

/-! ## The extent that is taken -/

/-- The widths of the fields of `struct ext4_extent` that matter here. -/
structure Extent.Packed (e : Extent) : Prop where
  block : e.eeBlock < 2 ^ 32
  len : e.eeLen < 2 ^ 16
  startHi : e.eeStartHi < 2 ^ 16
  startLo : e.eeStartLo < 2 ^ 32

theorem extentAt_packed {buf : Buffer} {i : ℕ} {e : Extent} (h : extentAt buf i = some e) :
    e.Packed := by
  simp only [extentAt, Option.bind_eq_bind, Option.bind_eq_some_iff, Option.some.injEq] at h
  obtain ⟨block, hblock, len, hlen, hi, hhi, lo, hlo, rfl⟩ := h
  exact ⟨field_lt hblock, field_lt hlen, field_lt hhi, field_lt hlo⟩

theorem walkStep_taken {s : WalkState} {e : Extent} {buf : Buffer}
    (h : walkStep v b s = some (.inr (some e, buf))) : e.takes b = true ∧ e.Packed := by
  simp only [walkStep, Option.bind_eq_bind, Option.bind_eq_some_iff] at h
  obtain ⟨hdr, -, h⟩ := h
  split at h
  · split at h
    · rw [Option.bind_eq_some_iff] at h
      obtain ⟨idx2, -, h⟩ := h
      split_ifs at h <;> cases h
    · rw [Option.bind_eq_some_iff] at h
      obtain ⟨e', he', h⟩ := h
      split at h
      · rename_i ht
        obtain ⟨he, -⟩ := Prod.mk.inj (Sum.inr.inj (Option.some.inj h))
        rw [← Option.some.inj he]
        exact ⟨ht, extentAt_packed he'⟩
      · cases h
  · obtain ⟨he, -⟩ := Prod.mk.inj (Sum.inr.inj (Option.some.inj h))
    cases he

theorem walk_taken {s : WalkState} {e : Extent} {buf : Buffer}
    (h : Loop.Ends (walkStep v b) s (some e, buf)) : e.takes b = true ∧ e.Packed := by
  generalize hx : (some e, buf) = x at h
  induction h with
  | leave h' =>
    rw [← hx] at h'
    exact walkStep_taken h'
  | again _ _ ih => exact ih hx

theorem ext4BlockSize_eq (hlog : v.superblock.sLogBlockSize ≤ 21) :
    ext4BlockSize v.superblock = 1024 * 2 ^ v.superblock.sLogBlockSize := by
  refine Nat.mod_eq_of_lt ?_
  have hpow : 2 ^ v.superblock.sLogBlockSize ≤ 2 ^ 21 := Nat.pow_le_pow_right (by decide) hlog
  omega

/-- The start of an extent leaves the bits from 32 up to 47 of a block number clear, so no
sum with a partition offset wraps around to the sector that stands for a hole. -/
theorem sector_ne_zero {e : Extent} (hlow : 512 ≤ v.partitionOffset)
    (hhigh : v.partitionOffset < 2 ^ 41) (hlog : v.superblock.sLogBlockSize ≤ 21)
    (ht : e.takes b = true) (he : e.Packed) : ext4SectorFromBlock (e.physical b) v ≠ 0 := by
  have hstart : ext4ExtentStart e = e.eeStartHi * 2 ^ 48 + e.eeStartLo := by
    rw [ext4ExtentStart, ← Nat.shiftLeft_add_eq_or_of_lt (he.startLo.trans (by decide)),
      Nat.shiftLeft_eq]
  have hoff : b - e.eeBlock < 2 ^ 16 := by
    simp only [Extent.takes, Bool.and_eq_true, decide_eq_true_eq] at ht
    have hmod := Nat.mod_le (e.eeBlock + e.eeLen) (2 ^ 32)
    have hlen := he.len
    omega
  have hhi := he.startHi
  have hlo := he.startLo
  rw [ext4SectorFromBlock, Extent.physical, hstart, ext4BlockSize_eq hlog, sectorSize]
  generalize v.partitionOffset = po at *
  generalize b - e.eeBlock = rebased at *
  generalize v.superblock.sLogBlockSize = log at *
  unfold u64
  interval_cases log <;> omega

/-! ## The entry that is appended -/

theorem u64_mod_add (n : ℕ) (z : ℤ) : u64 ((n % 2 ^ 64 : ℕ) + z) = u64 (n + z) := by
  unfold u64
  omega

/-- The element for a block: its number as key and the sector as `BSON_INT32`. -/
def sectorEntry (b sector : ℕ) : BsonKv := ⟨.int32, 0, 0, dec b, .bytes (leBytes 8 sector)⟩

def sectorBytes (b sector : ℕ) : List UInt8 := [0x10] ++ ((dec b ++ [0]) ++ leBytes 4 sector)

/-- Of the eight bytes of the sector only the low four are written. -/
theorem sectorEntry_appends (h : Heap) (b sector : ℕ) :
    Appends (fun s => bsonSerialize h s (sectorEntry b sector)) (sectorBytes b sector) := by
  have hsplit : leBytes 8 sector =
      leBytes 4 sector ++ leBytes 4 (sector / 256 / 256 / 256 / 256) := rfl
  have hp := serializeFixed_appends_left h (leBytes 4 sector)
    (leBytes 4 (sector / 256 / 256 / 256 / 256))
  rw [← hsplit, leBytes_length] at hp
  exact serializeElement_appends h (sectorEntry b sector) (dec_noNul b) hp

theorem sectorEntry_holds (h : Heap) {b sector : ℕ} {s : BsonInfo} {w : List UInt8}
    (hw : Holds s w) (hroom : w.length + (dec b).length + 6 ≤ maxSize) :
    ∃ s', bsonSerialize h s (sectorEntry b sector) = some s' ∧
      Holds s' (w ++ sectorBytes b sector) := by
  refine sectorEntry_appends h b sector s w hw ?_
  simp only [sectorBytes, List.length_append, List.length_cons, List.length_nil, leBytes_length]
  omega

theorem recordBlock_eq {o : Options} {e : Extent} {buf : Buffer} {r : Records}
    (hd : o.saveData = false) (hb : b < 2 ^ 32) (ht : e.takes b = true) :
    recordBlock o v b e buf r =
      (bsonSerialize o.heap r.sectors
        (sectorEntry b (ext4SectorFromBlock (e.physical b) v))).map
          fun s => { r with sectors := s } := by
  have hnum : (b - e.eeBlock + e.eeBlock) % 2 ^ 32 = b := by
    simp only [Extent.takes, Bool.and_eq_true, decide_eq_true_eq] at ht
    rw [Nat.sub_add_cancel ht.1, Nat.mod_eq_of_lt hb]
  have hsector : u64 (((e.physical b * ext4BlockSize v.superblock % 2 ^ 64 : ℕ) : ℤ) +
      v.partitionOffset) / sectorSize = ext4SectorFromBlock (e.physical b) v := by
    rw [u64_mod_add, ext4SectorFromBlock]
  rw [recordBlock, hnum, ← Extent.physical, hsector, ← sectorEntry, Option.map_eq_bind]
  congr 1
  funext s
  rw [hd]
  rfl

/-! ## Agreement -/

/-- `ext4_read_extent_block` returns what lies at the offset of physical block `p`. -/
def ReadsAt (v : Volume) (b : ℕ) (inode : Inode) (p : ℕ) : Prop :=
  ∃ q buf, Ext4ReadExtentBlock v b inode (.block q buf) ∧
    ext4BlockOffset q v.superblock = ext4BlockOffset p v.superblock

def ReadsHole (v : Volume) (b : ℕ) (inode : Inode) : Prop :=
  ∃ buf, Ext4ReadExtentBlock v b inode (.hole (zeroFill v buf))

/-- Where all three walks start. -/
def rootState (inode : Inode) : WalkState := ⟨rootBuffer inode, 0, ⟨sentinel, 0, 0⟩⟩

theorem readExtentBlock_iff {inode : Inode} {r : ReadResult} :
    Ext4ReadExtentBlock v b inode r ↔
      ∃ x, r = readResult v b x ∧ Loop.Ends (walkStep v b) (rootState inode) x := by
  constructor
  · rintro ⟨hdr, hh, hends⟩
    exact (read_ends_iff hh).mp hends
  · rintro ⟨x, hr, hx⟩
    cases hh : extentHeader (rootBuffer inode) with
    | none =>
      refine absurd hx (Loop.not_ends_of_none ?_)
      rw [walkStep, Loop.bind_of_none (x := extentHeader (rootState inode).buf) hh]
    | some hdr => exact ⟨hdr, hh, (read_ends_iff hh).mpr ⟨x, hr, hx⟩⟩

/-- The offset of a block within its file system fixes its sector on the disk and is fixed
by it: block sizes are multiples of the sector size. -/
theorem sectorFromBlock_eq_iff {p q : ℕ} (hlog : v.superblock.sLogBlockSize ≤ 21) :
    ext4SectorFromBlock q v = ext4SectorFromBlock p v ↔
      ext4BlockOffset q v.superblock = ext4BlockOffset p v.superblock := by
  have hq : q * ext4BlockSize v.superblock = 512 * (q * (2 * 2 ^ v.superblock.sLogBlockSize)) := by
    rw [ext4BlockSize_eq hlog]
    ring
  have hp : p * ext4BlockSize v.superblock = 512 * (p * (2 * 2 ^ v.superblock.sLogBlockSize)) := by
    rw [ext4BlockSize_eq hlog]
    ring
  unfold ext4SectorFromBlock ext4BlockOffset
  rw [Nat.mul_comm _ q, Nat.mul_comm _ p, hq, hp, sectorSize]
  generalize q * (2 * 2 ^ v.superblock.sLogBlockSize) = m
  generalize p * (2 * 2 ^ v.superblock.sLogBlockSize) = n
  generalize v.partitionOffset = po
  unfold u64
  omega

theorem leBytes_four_inj {m n : ℕ} (h : leBytes 4 m = leBytes 4 n) : m % 2 ^ 32 = n % 2 ^ 32 := by
  have hv := congrArg leNat h
  rw [leNat_leBytes, leNat_leBytes] at hv
  exact hv

theorem leBytes_four_mod (n : ℕ) : leBytes 4 (n % 2 ^ 32) = leBytes 4 n := by
  have h := leBytes_leNat (leBytes 4 n)
  rw [leNat_leBytes, leBytes_length] at h
  exact h

section Agreement

variable {o : Options} {inode : Inode} {r : Records} {w : List UInt8}

/-- The recording walker does its part for whatever the walk comes to. -/
theorem serialize_total (hb : b < 2 ^ 32) (hdata : o.saveData = false) (hw : Holds r.sectors w)
    (hroom : w.length + (dec b).length + 6 ≤ maxSize)
    (hser : o.saveExtents = true → ∃ ret r', Ext4SerializeFileExtentSectors o v b inode r ret r')
    {x : Option Extent × Buffer} (hx : Loop.Ends (walkStep v b) (rootState inode) x) :
    ∃ ret r', Ext4SerializeFileExtentSectors o v b inode r ret r' := by
  by_cases hsave : o.saveExtents = true
  · exact hser hsave
  have hsave' : o.saveExtents = false := Bool.eq_false_iff.mpr hsave
  obtain ⟨_ | e, buf⟩ := x
  · exact ⟨_, r, serialize_of_unrecorded hx (fun _ _ _ _ => pass_of_not_save hsave')
      (fun e he => (by cases he)) fun _ => rfl⟩
  · obtain ⟨s, hs, -⟩ := sectorEntry_holds o.heap hw hroom
    refine ⟨_, { r with sectors := s }, serialize_of_unrecorded hx
      (fun _ _ _ _ => pass_of_not_save hsave') ?_ fun hn => (by cases hn)⟩
    intro e' he'
    obtain rfl := Option.some.inj he'
    rw [recordBlock_eq hdata hb (walk_taken hx).1, hs, Option.map_some]

/-- What the recording walker returns and appends. -/
theorem serialize_spec (hb : b < 2 ^ 32) (hdata : o.saveData = false) (hw : Holds r.sectors w)
    (hroom : w.length + (dec b).length + 6 ≤ maxSize) {x : Option Extent × Buffer}
    (hx : Loop.Ends (walkStep v b) (rootState inode) x) {ret : ℤ} {r' : Records}
    (h : Ext4SerializeFileExtentSectors o v b inode r ret r') :
    (x.1 = none → ret = -1 ∧ r'.sectors = r.sectors) ∧
      ∀ e ∈ x.1, ret = 0 ∧
        Holds r'.sectors (w ++ sectorBytes b (ext4SectorFromBlock (e.physical b) v)) := by
  obtain ⟨x', hx', hrec⟩ := serialize_ends h
  obtain rfl := hx.unique hx'
  obtain ⟨_ | e, buf⟩ := x
  · exact ⟨fun _ => ⟨hrec.1, hrec.2.sectors⟩, fun e he => (by cases he)⟩
  · refine ⟨fun hn => (by cases hn), fun e' he' => ?_⟩
    obtain rfl := Option.some.inj he'
    obtain ⟨hret, r₁, hk, hrec⟩ := hrec
    obtain ⟨s, hs, hhold⟩ := sectorEntry_holds o.heap (hk.sectors.symm ▸ hw) hroom
    rw [recordBlock_eq hdata hb (walk_taken hx).1, hs, Option.map_some] at hrec
    rw [← Option.some.inj hrec]
    exact ⟨hret, hhold⟩

end Agreement

/-- A file whose blocks 0 to 7 lie on disk from block `start` on. -/
def oneExtentInode (start : ℕ) : Inode where
  iMode := 0x81a4
  iSizeLo := 8192
  iSizeHigh := 0
  iFlags := 0x80000
  iBlock := ⟨⟨leBytes 2 0xf30a ++ leBytes 2 1 ++ leBytes 2 4 ++ leBytes 2 0 ++ leBytes 4 0 ++
    leBytes 4 0 ++ leBytes 2 8 ++ leBytes 2 0 ++ leBytes 4 start ++ List.replicate 36 0⟩, rfl⟩

def blankVolume (partitionOffset : ℤ) : Volume where
  disk := ⟨1048576, fun _ => 0⟩
  partitionOffset := partitionOffset
  superblock := ⟨0, 1023, 0, 1, 8192, 128⟩

def plainOptions : Options := ⟨zeroHeap, 0, false, false⟩

end GammaRay.Ext4
