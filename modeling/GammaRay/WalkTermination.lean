import GammaRay.SerializeTree

set_option autoImplicit false

/-!
# When the walks of the crawler end

Neither the walk over the entries of a directory block nor the walk down an extent tree has
a bound of its own: the first moves on by a field of the block, the second follows the
pointers of the blocks it reads. What is left is to say on which contents they end.
-/
namespace GammaRay.Ext4
open Bytes Decimal Bson

/-! ## The entries of a directory block -/

/-- A round of `while (position < block_size)`. A deleted and a live entry are left behind
alike, by `rec_len`. -/
def dirStep (superblock : Superblock) (buf : Buffer) (position : ℕ) : Option (ℕ ⊕ Unit) :=
  if position < ext4BlockSize superblock then do
    let _ ← field buf position 4
    let recLen ← field buf (position + 4) 2
    some (.inl (position + recLen))
  else some (.inr ())

theorem dirStep_within {superblock : Superblock} {buf : Buffer} {position inode recLen : ℕ}
    (h : position < ext4BlockSize superblock) (hinode : field buf position 4 = some inode)
    (hlen : field buf (position + 4) 2 = some recLen) :
    dirStep superblock buf position = some (.inl (position + recLen)) := by
  rw [dirStep, if_pos h, Loop.bind_of_some hinode, Loop.bind_of_some hlen]

theorem dirStep_past {superblock : Superblock} {buf : Buffer} {position : ℕ}
    (h : ext4BlockSize superblock ≤ position) :
    dirStep superblock buf position = some (.inr ()) := by
  rw [dirStep, if_neg (Nat.not_lt.mpr h)]

/-- Whenever the crawl gets through a block, so does the walk by itself. -/
theorem DirEntries.ends {c : TreeCrawl} {recurse : Recursion} {path : List UInt8}
    {sector position : ℕ} {buf : Buffer} {s s' : DirState}
    (h : DirEntries c recurse path sector buf position s s') :
    Loop.Ends (dirStep c.volume.superblock buf) position () := by
  induction h with
  | done h => exact .leave (dirStep_past h)
  | deleted h _ inode stride _ ih => exact .again (dirStep_within h inode stride) ih
  | entry h _ inode _ stride _ _ _ _ _ _ _ _ ih =>
    exact .again (dirStep_within h inode stride) ih

theorem field_memory (mem : ℕ → UInt8) (offset width : ℕ) :
    field (fun i => some (mem i)) offset width =
      some (leNat ((List.range width).map fun i => mem (offset + i))) := by
  have h : (List.range width).mapM (fun i => some (mem (offset + i))) =
      some ((List.range width).map fun i => mem (offset + i)) := List.mapM_pure
  rw [field, h, Option.map_some]

/-- An entry that takes no room holds the walk in place. -/
theorem not_dirWalk_ends {superblock : Superblock} {buf : Buffer} {position inode : ℕ}
    (h : position < ext4BlockSize superblock) (hinode : field buf position 4 = some inode)
    (hlen : field buf (position + 4) 2 = some 0) :
    ¬ Loop.Ends (dirStep superblock buf) position () := by
  refine Loop.not_ends_of_trap (· = position) ?_ rfl
  rintro _ rfl
  exact ⟨_, dirStep_within h hinode hlen, rfl⟩

theorem ext4BlockSize_ge {superblock : Superblock} (h : 0 < ext4BlockSize superblock) :
    1024 ≤ ext4BlockSize superblock := by
  refine Nat.le_of_dvd h ((Nat.dvd_mod_iff (by decide)).mpr ?_)
  exact Nat.dvd_mul_right 1024 _

theorem hole_zero {v : Volume} {b : ℕ} {inode : Inode} {buf : Buffer}
    (h : Ext4ReadExtentBlock v b inode (.hole buf)) {i : ℕ} (hi : i < ext4BlockSize v.superblock) :
    buf i = some 0 := by
  obtain ⟨hdr, hhdr, hends⟩ := h
  obtain ⟨⟨e, buf'⟩, hr, -⟩ := (read_ends_iff hhdr).mp hends
  cases e with
  | none =>
    rw [ReadResult.hole.inj hr]
    exact if_pos hi
  | some e => cases hr

/-- The zeros that stand for a hole are an entry of length zero: no directory with a hole is
ever crawled to its end. -/
theorem hole_not_dirEntries {c : TreeCrawl} {recurse : Recursion} {path : List UInt8}
    {b sector : ℕ} {inode : Inode} {buf : Buffer} {s s' : DirState} (hbs : 0 < c.blockSize)
    (h : Ext4ReadExtentBlock c.volume b inode (.hole buf)) :
    ¬ DirEntries c recurse path sector buf 0 s s' := by
  intro hd
  have hroom : 1024 ≤ ext4BlockSize c.volume.superblock := ext4BlockSize_ge hbs
  have hzero : ∀ i < 6, buf i = some 0 := fun i hi => hole_zero h (by omega)
  have hinode : field buf 0 4 = some 0 := by simp [field, List.range_succ, hzero, leNat]
  have hlen : field buf 4 2 = some 0 := by simp [field, List.range_succ, hzero, leNat]
  exact not_dirWalk_ends hbs hinode hlen hd.ends

def unmappedVolume : Volume := ⟨⟨0, fun _ => 0⟩, 0, ⟨0, 0, 0, 0, 0, 0⟩⟩

def unmappedInode : Inode := ⟨0x4000, 1024, 0, 0x80000, Vector.replicate 60 0⟩

/-- One deleted entry that takes the whole block. -/
def wholeEntry (i : ℕ) : UInt8 := if i = 5 then 4 else 0

/-- `memcpy(buf, inode.i_block, 60)` into a buffer that held `mem`. -/
def rootOver (inode : Inode) (mem : ℕ → UInt8) : Buffer :=
  fun i => some (inode.iBlock.toList.getD i (mem i))

def startState (inode : Inode) (mem : ℕ → UInt8) : WalkState :=
  ⟨rootOver inode mem, 0, ⟨sentinel, 0, 0⟩⟩

variable {v : Volume} {b : ℕ} {inode : Inode} {mem : ℕ → UInt8}

/-- The widths of the fields of `struct ext4_extent_idx`. -/
structure ExtentIdx.Packed (idx : ExtentIdx) : Prop where
  block : idx.eiBlock < 2 ^ 32
  leafLo : idx.eiLeafLo < 2 ^ 32
  leafHi : idx.eiLeafHi < 2 ^ 16

theorem extentIdxAt_packed {buf : Buffer} {i : ℕ} {idx : ExtentIdx}
    (h : extentIdxAt buf i = some idx) : idx.Packed := by
  simp only [extentIdxAt, Option.bind_eq_bind, Option.bind_eq_some_iff, Option.some.injEq] at h
  obtain ⟨block, hblock, lo, hlo, hi, hhi, rfl⟩ := h
  exact ⟨field_lt hblock, field_lt hlo, field_lt hhi⟩

theorem ExtentIdx.Packed.restart {idx : ExtentIdx} (h : idx.Packed) :
    ({ idx with eiBlock := sentinel } : ExtentIdx).Packed := by
  obtain ⟨block, lo, hi⟩ := idx
  exact ⟨(by decide : sentinel < 2 ^ 32), h.leafLo, h.leafHi⟩

/-- What the walk can never leave: its buffer changes in the bytes of a block only, and the
rest of its state is made of fields of that buffer. -/
structure Confined (v : Volume) (start : Buffer) (s : WalkState) : Prop where
  full : ∀ i, ∃ x, s.buf i = some x
  beyond : ∀ i, ext4BlockSize v.superblock ≤ i → s.buf i = start i
  index : s.i ≤ 2 ^ 16
  idx : s.idx.Packed

theorem startState_confined : Confined v (rootOver inode mem) (startState inode mem) where
  full _ := ⟨_, rfl⟩
  beyond _ _ := rfl
  index := Nat.zero_le _
  idx := ⟨(by decide : sentinel < 2 ^ 32), (by decide : 0 < 2 ^ 32), (by decide : 0 < 2 ^ 16)⟩

/-- The two ways for the walk to go on. -/
theorem walkStep_inl {s t : WalkState} (h : walkStep v b s = some (.inl t)) :
    (∃ leaf, t = ⟨ext4ReadBlock v leaf s.buf, 0, { s.idx with eiBlock := sentinel }⟩) ∨
    (∃ idx hdr, extentHeader s.buf = some hdr ∧ s.i < hdr.ehEntries ∧
      (idx = s.idx ∨ extentIdxAt s.buf s.i = some idx) ∧ t = ⟨s.buf, s.i + 1, idx⟩) := by
  simp only [walkStep, Option.bind_eq_bind, Option.bind_eq_some_iff] at h
  obtain ⟨hdr, hhdr, h⟩ := h
  split at h
  · rename_i hi
    split at h
    · obtain ⟨idx2, hidx, h⟩ := Option.bind_eq_some_iff.mp h
      split_ifs at h
      · exact .inl ⟨_, (Sum.inl.inj (Option.some.inj h)).symm⟩
      · exact .inl ⟨_, (Sum.inl.inj (Option.some.inj h)).symm⟩
      · exact .inr ⟨idx2, hdr, hhdr, hi, .inr hidx, (Sum.inl.inj (Option.some.inj h)).symm⟩
    · obtain ⟨e, -, h⟩ := Option.bind_eq_some_iff.mp h
      split_ifs at h
      · cases h
      · exact .inr ⟨s.idx, hdr, hhdr, hi, .inl rfl, (Sum.inl.inj (Option.some.inj h)).symm⟩
  · cases h

theorem field_full {buf : Buffer} (h : ∀ i, ∃ x, buf i = some x) (offset width : ℕ) :
    ∃ n, field buf offset width = some n := by
  obtain ⟨bytes, hbytes, -⟩ := @mapM_full _ _ (fun i => buf (offset + i)) (List.range width)
    fun i _ => h (offset + i)
  exact ⟨leNat bytes, by rw [field, hbytes, Option.map_some]⟩

theorem extentHeader_full {buf : Buffer} (h : ∀ i, ∃ x, buf i = some x) :
    ∃ hdr, extentHeader buf = some hdr := by
  obtain ⟨entries, hentries⟩ := field_full h 2 2
  obtain ⟨depth, hdepth⟩ := field_full h 6 2
  refine ⟨⟨entries, depth⟩, ?_⟩
  rw [extentHeader, Loop.bind_of_some hentries, Loop.bind_of_some hdepth]

theorem walkStep_defined {s : WalkState} (h : ∀ i, ∃ x, s.buf i = some x) :
    walkStep v b s ≠ none := by
  have hfield := field_full h
  obtain ⟨hdr, hhdr⟩ := extentHeader_full h
  rw [walkStep, Loop.bind_of_some hhdr]
  split
  · split
    · obtain ⟨block, hblock⟩ := hfield (12 + 12 * s.i) 4
      obtain ⟨lo, hlo⟩ := hfield (16 + 12 * s.i) 4
      obtain ⟨hi, hhi⟩ := hfield (20 + 12 * s.i) 2
      rw [extentIdxAt, Loop.bind_of_some hblock, Loop.bind_of_some hlo, Loop.bind_of_some hhi,
        Option.bind_eq_bind, Option.bind_some]
      split_ifs <;> exact Option.some_ne_none _
    · obtain ⟨block, hblock⟩ := hfield (12 + 12 * s.i) 4
      obtain ⟨len, hlen⟩ := hfield (16 + 12 * s.i) 2
      obtain ⟨hi, hhi⟩ := hfield (18 + 12 * s.i) 2
      obtain ⟨lo, hlo⟩ := hfield (20 + 12 * s.i) 4
      rw [extentAt, Loop.bind_of_some hblock, Loop.bind_of_some hlen, Loop.bind_of_some hhi,
        Loop.bind_of_some hlo, Option.bind_eq_bind, Option.bind_some]
      split_ifs <;> exact Option.some_ne_none _
  · exact Option.some_ne_none _

theorem extentHeader_entries_lt {buf : Buffer} {hdr : ExtentHeader}
    (h : extentHeader buf = some hdr) : hdr.ehEntries < 2 ^ 16 := by
  simp only [extentHeader, Option.bind_eq_bind, Option.bind_eq_some_iff, Option.some.injEq] at h
  obtain ⟨entries, hentries, depth, -, rfl⟩ := h
  exact field_lt hentries

theorem ext4ReadBlock_full {buf : Buffer} (h : ∀ i, ∃ x, buf i = some x) (leaf i : ℕ) :
    ∃ x, ext4ReadBlock v leaf buf i = some x := by
  unfold ext4ReadBlock
  split_ifs
  · exact h i
  · beta_reduce
    split_ifs
    · exact ⟨_, rfl⟩
    · exact h i

theorem ext4ReadBlock_beyond (buf : Buffer) (leaf : ℕ) {i : ℕ}
    (hi : ext4BlockSize v.superblock ≤ i) : ext4ReadBlock v leaf buf i = buf i := by
  unfold ext4ReadBlock
  split_ifs
  · rfl
  · exact if_neg fun h => absurd h.1 (Nat.not_lt.mpr hi)

theorem Confined.read {start : Buffer} {s : WalkState} (hs : Confined v start s) (leaf : ℕ) :
    Confined v start
      ⟨ext4ReadBlock v leaf s.buf, 0, { s.idx with eiBlock := sentinel }⟩ where
  full := ext4ReadBlock_full hs.full leaf
  beyond i hi := (ext4ReadBlock_beyond s.buf leaf hi).trans (hs.beyond i hi)
  index := Nat.zero_le _
  idx := hs.idx.restart

theorem Confined.next {start : Buffer} {s : WalkState} {idx : ExtentIdx} {hdr : ExtentHeader}
    (hs : Confined v start s) (hhdr : extentHeader s.buf = some hdr) (hi : s.i < hdr.ehEntries)
    (hidx : idx = s.idx ∨ extentIdxAt s.buf s.i = some idx) :
    Confined v start ⟨s.buf, s.i + 1, idx⟩ := by
  have hlt := extentHeader_entries_lt hhdr
  have hindex : s.i + 1 ≤ 2 ^ 16 := by omega
  have hpacked : idx.Packed := by
    rcases hidx with rfl | hidx
    · exact hs.idx
    · exact extentIdxAt_packed hidx
  exact ⟨hs.full, hs.beyond, hindex, hpacked⟩

theorem Confined.step {start : Buffer} {s t : WalkState} (hs : Confined v start s)
    (h : walkStep v b s = some (.inl t)) : Confined v start t := by
  rcases walkStep_inl h with ⟨leaf, rfl⟩ | ⟨idx, hdr, hhdr, hi, hidx, rfl⟩
  · exact hs.read leaf
  · exact hs.next hhdr hi hidx

theorem Confined.leads {start : Buffer} {s t : WalkState} (hs : Confined v start s)
    (h : Loop.Leads (walkStep v b) s t) : Confined v start t :=
  h.trapped (Confined v start) (fun _ _ => Confined.step) hs

theorem confined_finite (v : Volume) (start : Buffer) : {s | Confined v start s}.Finite := by
  let make : (Fin (ext4BlockSize v.superblock) → UInt8) × Fin (2 ^ 16 + 1) × Fin (2 ^ 32) ×
      Fin (2 ^ 32) × Fin (2 ^ 16) → WalkState := fun x =>
    ⟨fun i => if h : i < ext4BlockSize v.superblock then some (x.1 ⟨i, h⟩) else start i, x.2.1,
      ⟨x.2.2.1, x.2.2.2.1, x.2.2.2.2⟩⟩
  have : Finite UInt8 := Finite.of_injective UInt8.toFin fun _ _ h => UInt8.toFin_inj.mp h
  refine (Set.finite_range make).subset fun s hs => ?_
  choose byte hbyte using hs.full
  refine ⟨⟨fun i => byte i, ⟨s.i, Nat.lt_succ_of_le hs.index⟩, ⟨s.idx.eiBlock, hs.idx.block⟩,
    ⟨s.idx.eiLeafLo, hs.idx.leafLo⟩, ⟨s.idx.eiLeafHi, hs.idx.leafHi⟩⟩, ?_⟩
  have hbuf : (fun i => if i < ext4BlockSize v.superblock then some (byte i) else start i) =
      s.buf := by
    funext i
    split
    · exact (hbyte i).symm
    · exact (hs.beyond i (Nat.le_of_not_lt ‹_›)).symm
  change (⟨fun i => if i < ext4BlockSize v.superblock then some (byte i) else start i, s.i,
    s.idx⟩ : WalkState) = s
  rw [hbuf]

theorem walk_stops_iff :
    Loop.Stops (walkStep v b) (startState inode mem) ↔
      Loop.NoReturn (walkStep v b) (startState inode mem) :=
  Loop.stops_iff_noReturn ((confined_finite v (rootOver inode mem)).subset
    fun _ => startState_confined.leads)

theorem walk_ends_iff :
    (∃ x, Loop.Ends (walkStep v b) (startState inode mem) x) ↔
      Loop.NoReturn (walkStep v b) (startState inode mem) := by
  rw [← walk_stops_iff]
  constructor
  · rintro ⟨x, hx⟩
    exact hx.stops
  · intro h
    exact h.ends fun t ht => walkStep_defined (startState_confined.leads ht).full

/-! What is known of a buffer is enough for a walk that ends on it. -/

/-- All that is known of one buffer holds of the other. -/
def Buffer.Known (buf buf' : Buffer) : Prop := ∀ i x, buf i = some x → buf' i = some x

section Known

variable {buf buf' : Buffer}

theorem Buffer.Known.field (h : Buffer.Known buf buf') {offset width n : ℕ}
    (hn : Ext4.field buf offset width = some n) : Ext4.field buf' offset width = some n := by
  obtain ⟨bytes, hbytes, rfl⟩ := Option.map_eq_some_iff.mp hn
  rw [Ext4.field, mapM_mono (fun i x => h (offset + i) x) hbytes, Option.map_some]

theorem Buffer.Known.extentHeader (h : Buffer.Known buf buf') {hdr : ExtentHeader}
    (hhdr : Ext4.extentHeader buf = some hdr) : Ext4.extentHeader buf' = some hdr := by
  simp only [Ext4.extentHeader, Option.bind_eq_bind, Option.bind_eq_some_iff] at hhdr ⊢
  obtain ⟨entries, hentries, depth, hdepth, hhdr⟩ := hhdr
  exact ⟨entries, h.field hentries, depth, h.field hdepth, hhdr⟩

theorem Buffer.Known.extentIdxAt (h : Buffer.Known buf buf') {i : ℕ} {idx : ExtentIdx}
    (hidx : Ext4.extentIdxAt buf i = some idx) : Ext4.extentIdxAt buf' i = some idx := by
  simp only [Ext4.extentIdxAt, Option.bind_eq_bind, Option.bind_eq_some_iff] at hidx ⊢
  obtain ⟨block, hblock, lo, hlo, hi, hhi, hidx⟩ := hidx
  exact ⟨block, h.field hblock, lo, h.field hlo, hi, h.field hhi, hidx⟩

theorem Buffer.Known.extentAt (h : Buffer.Known buf buf') {i : ℕ} {e : Extent}
    (he : Ext4.extentAt buf i = some e) : Ext4.extentAt buf' i = some e := by
  simp only [Ext4.extentAt, Option.bind_eq_bind, Option.bind_eq_some_iff] at he ⊢
  obtain ⟨block, hblock, len, hlen, hi, hhi, lo, hlo, he⟩ := he
  exact ⟨block, h.field hblock, len, h.field hlen, hi, h.field hhi, lo, h.field hlo, he⟩

theorem Buffer.Known.readBlock (h : Buffer.Known buf buf') (leaf : ℕ) :
    Buffer.Known (ext4ReadBlock v leaf buf) (ext4ReadBlock v leaf buf') := by
  intro i x hx
  unfold ext4ReadBlock at hx ⊢
  split_ifs at hx ⊢
  · exact h i x hx
  · beta_reduce at hx ⊢
    split_ifs at hx ⊢
    · exact hx
    · exact h i x hx

theorem Buffer.Known.step (h : Buffer.Known buf buf') {i : ℕ} {idx : ExtentIdx}
    {y : WalkState ⊕ (Option Extent × Buffer)} (hy : walkStep v b ⟨buf, i, idx⟩ = some y) :
    ∃ y', walkStep v b ⟨buf', i, idx⟩ = some y' ∧
      Sum.LiftRel (fun t t' => Buffer.Known t.buf t'.buf ∧ t'.i = t.i ∧ t'.idx = t.idx)
        (fun x x' => x'.1 = x.1) y y' := by
  simp only [walkStep, Option.bind_eq_bind, Option.bind_eq_some_iff] at hy
  obtain ⟨hdr, hhdr, hy⟩ := hy
  rw [walkStep, Loop.bind_of_some (h.extentHeader hhdr)]
  split at hy
  · rename_i hi
    rw [if_pos hi]
    split at hy
    · rename_i hd
      obtain ⟨idx2, hidx, hy⟩ := Option.bind_eq_some_iff.mp hy
      rw [if_pos hd, Loop.bind_of_some (h.extentIdxAt hidx)]
      split_ifs at hy ⊢
      · obtain rfl := Option.some.inj hy
        exact ⟨_, rfl, .inl ⟨h.readBlock _, rfl, rfl⟩⟩
      · obtain rfl := Option.some.inj hy
        exact ⟨_, rfl, .inl ⟨h.readBlock _, rfl, rfl⟩⟩
      · obtain rfl := Option.some.inj hy
        exact ⟨_, rfl, .inl ⟨h, rfl, rfl⟩⟩
    · rename_i hd
      obtain ⟨e, he, hy⟩ := Option.bind_eq_some_iff.mp hy
      rw [if_neg hd, Loop.bind_of_some (h.extentAt he)]
      split_ifs at hy ⊢
      · obtain rfl := Option.some.inj hy
        exact ⟨_, rfl, .inr rfl⟩
      · obtain rfl := Option.some.inj hy
        exact ⟨_, rfl, .inl ⟨h, rfl, rfl⟩⟩
  · rename_i hi
    obtain rfl := Option.some.inj hy
    rw [if_neg hi]
    exact ⟨_, rfl, .inr rfl⟩

theorem Buffer.Known.ends {s : WalkState} {x : Option Extent × Buffer}
    (hx : Loop.Ends (walkStep v b) s x) (h : Buffer.Known s.buf buf') :
    ∃ x', x'.1 = x.1 ∧ Loop.Ends (walkStep v b) { s with buf := buf' } x' := by
  induction hx generalizing buf' with
  | leave h' =>
    obtain ⟨_, hy, hrel⟩ := h.step h'
    cases hrel with
    | inr hx' => exact ⟨_, hx', .leave hy⟩
  | again h' _ ih =>
    obtain ⟨_, hy, hrel⟩ := h.step h'
    cases hrel with
    | @inl _ t' ht =>
      obtain ⟨hbuf, hi, hidx⟩ := ht
      obtain ⟨x', hx', hends⟩ := ih hbuf
      refine ⟨x', hx', .again hy ?_⟩
      rwa [← hi, ← hidx] at hends

end Known

theorem rootBuffer_known (inode : Inode) (mem : ℕ → UInt8) :
    Buffer.Known (rootBuffer inode) (rootOver inode mem) := by
  intro i x hx
  rw [rootOver, List.getD_eq_getElem?_getD]
  change inode.iBlock.toList[i]? = some x at hx
  rw [hx, Option.getD_some]

/-- The recording walker stops where the walk does, or sooner. -/
theorem serialize_stops {o : Options} {w : WalkState} {x : Option Extent × Buffer}
    (h : Loop.Ends (walkStep v b) w x) (r : Records) :
    Loop.Stops (ext4SerializeExtentStep o v b) ⟨w, r⟩ := by
  induction h generalizing r with
  | leave h' =>
    refine ⟨_, .refl _, fun u hu => ?_⟩
    obtain ⟨t, r', hw, -, -⟩ := serializeStep_again_iff.mp hu
    cases h'.symm.trans hw
  | @again w t x h' _ ih =>
    cases hp : pass o v b w r with
    | none =>
      refine ⟨_, .refl _, fun u hu => ?_⟩
      obtain ⟨t, r', -, hpass, -⟩ := serializeStep_again_iff.mp hu
      cases hp.symm.trans hpass
    | some r' =>
      obtain ⟨u, hu, hstop⟩ := ih r'
      exact ⟨u, .step (serializeStep_again_iff.mpr ⟨t, r', h', hp, rfl⟩) hu, hstop⟩

/-- With no index block to record, it stops nowhere else. -/
theorem walk_stops_of_serialize {o : Options} (hsave : o.saveExtents = false) {w : WalkState}
    {r : Records} (h : Loop.Stops (ext4SerializeExtentStep o v b) ⟨w, r⟩) :
    Loop.Stops (walkStep v b) w := by
  obtain ⟨stop, hlead, hstop⟩ := h
  generalize hs : (⟨w, r⟩ : SerializeState) = s at hlead
  induction hlead generalizing w r with
  | refl =>
    subst hs
    refine ⟨w, .refl w, fun t ht => ?_⟩
    exact hstop _ (serializeStep_again_iff.mpr ⟨t, r, ht, pass_of_not_save hsave, rfl⟩)
  | step h' _ ih =>
    subst hs
    obtain ⟨t, r', hw, -, rfl⟩ := serializeStep_again_iff.mp h'
    obtain ⟨u, hu, hend⟩ := ih hstop rfl
    exact ⟨u, .step hw hu, hend⟩

/-- The loop of `ext4_read_extent_block` ends. -/
def ReadWalkEnds (v : Volume) (b : ℕ) (inode : Inode) (mem : ℕ → UInt8) : Prop :=
  ∃ hdr r, extentHeader (rootOver inode mem) = some hdr ∧
    Loop.Ends (ext4ReadExtentStep v b) ⟨rootOver inode mem, hdr, 0, ⟨sentinel, 0, 0⟩⟩ r

/-- The loop of `ext4_sector_extent_block` ends. -/
def SectorWalkEnds (v : Volume) (b : ℕ) (inode : Inode) (mem : ℕ → UInt8) : Prop :=
  ∃ sector, Loop.Ends (ext4SectorExtentStep v b) (startState inode mem) sector

/-- The loop of `ext4_serialize_file_extent_sectors` comes to a last round, whatever it is to
record and has recorded. An entry that no longer fits into its document is one. -/
def RecordWalkStops (v : Volume) (b : ℕ) (inode : Inode) (mem : ℕ → UInt8) : Prop :=
  ∀ o r, Loop.Stops (ext4SerializeExtentStep o v b) ⟨startState inode mem, r⟩

theorem readWalkEnds_iff :
    ReadWalkEnds v b inode mem ↔ Loop.NoReturn (walkStep v b) (startState inode mem) := by
  rw [← walk_ends_iff]
  constructor
  · rintro ⟨hdr, r, hhdr, hr⟩
    obtain ⟨x, -, hx⟩ := (read_ends_iff hhdr).mp hr
    exact ⟨x, hx⟩
  · rintro ⟨x, hx⟩
    obtain ⟨hdr, hhdr⟩ := extentHeader_full (@startState_confined v inode mem).full
    exact ⟨hdr, _, hhdr, (read_ends_iff hhdr).mpr ⟨x, rfl, hx⟩⟩

theorem sectorWalkEnds_iff :
    SectorWalkEnds v b inode mem ↔ Loop.NoReturn (walkStep v b) (startState inode mem) := by
  rw [← walk_ends_iff]
  constructor
  · rintro ⟨sector, h⟩
    obtain ⟨x, -, hx⟩ := sector_ends_iff.mp h
    exact ⟨x, hx⟩
  · rintro ⟨x, hx⟩
    exact ⟨_, sector_ends_iff.mpr ⟨x, rfl, hx⟩⟩

/-- A sector that the bytes of the inode and of the disk determine is found on any stack. -/
theorem Ext4SectorExtentBlock.walkEnds {sector : ℕ} (h : Ext4SectorExtentBlock v b inode sector)
    (mem : ℕ → UInt8) :
    Loop.Ends (ext4SectorExtentStep v b) (startState inode mem) sector := by
  obtain ⟨x, rfl, hx⟩ := sector_ends_iff.mp h
  obtain ⟨x', hx', hends⟩ := Buffer.Known.ends hx (rootBuffer_known inode mem)
  refine sector_ends_iff.mpr ⟨x', ?_, hends⟩
  rw [sectorResult, sectorResult, hx']

theorem recordWalkStops_iff :
    RecordWalkStops v b inode mem ↔ Loop.NoReturn (walkStep v b) (startState inode mem) := by
  constructor
  · intro h
    have hquiet := h ⟨zeroHeap, 0, false, false⟩ freshRecords
    exact walk_stops_iff.mp (walk_stops_of_serialize rfl hquiet)
  · intro h o r
    obtain ⟨x, hx⟩ := walk_ends_iff.mpr h
    exact serialize_stops hx r

/-- A node of one index entry, for block 1. -/
def selfPointing (i : ℕ) : UInt8 := if i = 2 ∨ i = 6 ∨ i = 16 then 1 else 0

/-- A disk with that node in block 1. -/
def cyclicVolume : Volume :=
  ⟨⟨2048, fun i => selfPointing (i - 1024)⟩, 0, ⟨0, 0, 0, 0, 0, 0⟩⟩

def cyclicInode : Inode := ⟨0x8000, 1024, 0, 0x80000, Vector.ofFn fun i => selfPointing i⟩

theorem cyclic_buffer : rootOver cyclicInode (fun _ => 0) = fun i => some (selfPointing i) := by
  funext i
  by_cases hi : i < 60
  · have hall : ∀ i < 60, cyclicInode.iBlock.toList.getD i 0 = selfPointing i := by decide
    exact congrArg some (hall i hi)
  · have hlen : cyclicInode.iBlock.toList.length ≤ i := by simpa using Nat.le_of_not_lt hi
    have hzero : selfPointing i = 0 := if_neg (by omega)
    rw [rootOver, List.getD_eq_getElem?_getD, List.getElem?_eq_none hlen, hzero]
    rfl

theorem cyclic_step :
    walkStep cyclicVolume 0 (startState cyclicInode fun _ => 0) =
      some (.inl (startState cyclicInode fun _ => 0)) := by
  have hread : ext4ReadBlock cyclicVolume 1 (fun i => some (selfPointing i)) =
      fun i => some (selfPointing i) := by
    have hoffset : u64 (ext4BlockOffset 1 cyclicVolume.superblock +
        cyclicVolume.partitionOffset) = 1024 := by decide
    funext i
    have hbyte : cyclicVolume.disk.byte (1024 + i) = selfPointing i := by simp [cyclicVolume]
    rw [ext4ReadBlock, hoffset, if_neg (by decide), hbyte, ite_self]
  have hstart : startState cyclicInode (fun _ => 0) =
      ⟨fun i => some (selfPointing i), 0, ⟨sentinel, 0, 0⟩⟩ := by
    rw [startState, cyclic_buffer]
  rw [hstart]
  change some (Sum.inl (⟨ext4ReadBlock cyclicVolume 1 (fun i => some (selfPointing i)), 0,
    ⟨sentinel, 0, 0⟩⟩ : WalkState)) = _
  rw [hread]

end GammaRay.Ext4
