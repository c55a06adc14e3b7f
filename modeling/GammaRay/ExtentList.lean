import GammaRay.InodeUpdate
import GammaRay.Segments

set_option autoImplicit false

/-!
# The sectors of a file

What `__diff_ext4_extents` makes of the list `filesectors` when it is given a leaf of an extent
tree. The blocks it inspects again on the way belong to the file and leave the list alone.
-/
namespace GammaRay.Inspect
open Bytes Decimal Redis KvStore Bson Ext4 Total

section Lists

variable {d : Db KvStore.Key} {k : KvStore.Key} {l : List (List UInt8)}

theorem listAt_putList (d : Db KvStore.Key) (k : KvStore.Key) (l : List (List UInt8)) :
    (d.putList k l).listAt k = some l := by
  rw [Db.listAt, Db.putList, keys_put_self]
  cases l with
  | nil => rfl
  | cons x l => rfl

theorem listAt_after_rpush (h : d.listAt k = some l) (v : List UInt8) :
    (d.after (.rpush k v)).listAt k = some (l ++ [v]) := by
  have he : d.after (.rpush k v) = d.putList k (l ++ [v]) := by
    simp only [Db.after, exec, h, Option.elim_some]
  rw [he, listAt_putList]

theorem listAt_after_lset (h : d.listAt k = some l) {i : ℕ} (hi : i < l.length) (v : List UInt8) :
    (d.after (.lset k i v)).listAt k = some (l.set i v) := by
  have hplace : place l.length i = i := if_neg (by omega)
  have he : d.after (.lset k i v) = d.putList k (l.set i v) := by
    simp only [Db.after, exec, h, Option.elim_some, hplace]
    rw [if_pos (by omega), Int.toNat_natCast]
  rw [he, listAt_putList]

end Lists

/-- The text of the list for a hole. -/
def holeText : List UInt8 := sectorText (-1)

/-- What an extent says of the list, as it is computed. -/
def Setup.segment (u : Setup) (e : Extent) : Segment (List UInt8) :=
  ⟨e.eeBlock, e.eeLen, fun i => sectorText (i64 (u.sectorOf (ext4ExtentStart e + i)))⟩

/-- The path of a file leaves room for its terminator. -/
def PathFits (d : Db KvStore.Key) (file : ℕ) : Prop :=
  (copyString 4096 (answer d (redisFileSectorGet file (ascii "path")))).length ≠ 4096

theorem PathFits.congr {d e : Db KvStore.Key} {file : ℕ} (h : PathFits d file)
    (hk : e.keys (.file file) = d.keys (.file file)) : PathFits e file := by
  unfold PathFits
  rw [redisFileSectorGet, Inspector.answer_hget_congr hk]
  exact h

/-- Only the pointers of sectors and the queue may differ. -/
def SameRecords (d e : Db KvStore.Key) : Prop :=
  ∀ k, (∀ n, k ≠ .sector n) → (∀ n, k ≠ .qsector n) → e.keys k = d.keys k

namespace Inspector

section Run

variable {σ : Type} {c : Inspector σ} (L : Lawful c.service) {s : State σ} {d : Db KvStore.Key}
  {file writeCounter fuel : ℕ}

/-- A block of file data is inspected again; the reply that is taken for it may be any. -/
theorem reinspectWrite_data (hc : c.Geometry) (hfile : file < 2 ^ 64) (hpath : PathFits d file)
    (hs : L.At s d) {sector start stop : ℕ} (hsector : sector < 2 ^ 64) (hstart : start < 2 ^ 64)
    (hstop : stop < 2 ^ 64)
    (hp : d.keys (.sector sector) = some (.string (dataPointer start stop file))) :
    Ensures (c.reinspectWrite (c.deepInspect writeCounter (fuel + 1)) sector) s fun _ t =>
      ∃ e, (∀ k, k ≠ .qsector sector → e.keys k = d.keys k) ∧ L.At t e := by
  have hdel : ∀ k, k ≠ .qsector sector →
      (d.after (.del (.qsector sector))).keys k = d.keys k := fun k hk =>
    keys_after fun h => hk (Option.some.inj h).symm
  obtain ⟨t₃, h₃, hempty | ⟨data, hlen, hrun⟩⟩ :=
    reinspectWrite_outcome L hs (c.deepInspect writeCounter (fuel + 1)) sector
  · exact .of_eq hempty ⟨_, hdel, h₃⟩
  · have hsize : c.blockSizeAt ⟨sector, c.blockSize / sectorSize, data⟩ 0 = c.blockSize :=
      blockSizeAt_single hc rfl
    refine Ensures.of_outcome hrun (deepInspect_single L hc rfl ?_)
    refine (inspectBlock_data L h₃
      (by rw [sector_zero hsector]; exact (hdel _ (by simp)).trans hp) hstart hstop hfile
      (by rw [hsize, Nat.zero_mul, List.drop_zero, hlen]) hc.small
      (hpath.congr (hdel _ (by simp))) _ _).mono ?_
    rintro _ t ⟨n, ht⟩
    exact ⟨_, fun k hk => (emitted_keys hk).trans (hdel k hk), ht⟩

theorem placeBlock_at (hc : c.Geometry) (hfile : file < 2 ^ 64) (hpath : PathFits d file)
    (hs : L.At s d) {sector : ℕ} (hsector : sector < 2 ^ 64) {list : Command KvStore.Key}
    (hlist : list.writes = some (.filesectors file)) (hbr : ∀ k, list ≠ .brpop k) (block : ℕ) :
    Ensures (c.placeBlock (c.deepInspect writeCounter (fuel + 1)) file block sector list) s
      fun _ t => ∃ e, SameRecords (d.after list) e ∧ L.At t e := by
  have hset : ∀ {e : Db KvStore.Key} {v : List UInt8} {k : KvStore.Key}, k ≠ .sector sector →
      (e.after (.set (.sector sector) v)).keys k = e.keys k := fun hk =>
    keys_put_of_ne hk _
  have hfiles : (d.after list).keys (.file file) = d.keys (.file file) :=
    keys_after (by rw [hlist]; simp)
  unfold placeBlock
  refine (append_at L hs hbr).bind fun _ t₁ h₁ => ?_
  refine (append_at L h₁ (by simp)).bind fun _ t₂ h₂ => ?_
  refine (reinspectWrite_data L hc hfile (hpath.congr ((hset (by simp)).trans hfiles)) h₂ hsector
    (u64_lt _) (u64_lt _) (keys_put_self _)).mono ?_
  rintro _ t ⟨e, he, ht⟩
  exact ⟨e, fun k hk hq => (he k (hq sector)).trans (hset (hk sector)), ht⟩

/-- The list of the file has come to be `l`. -/
def Listed (d : Db KvStore.Key) (file : ℕ) (l : List (List UInt8)) (t : State σ) : Prop :=
  ∃ e, e.listAt (.filesectors file) = some l ∧ e.keys (.file file) = d.keys (.file file) ∧ L.At t e

variable {m : ℕ} {l : List (List UInt8)}

theorem placeBlock_listed (hc : c.Geometry) (hfile : file < 2 ^ 64) (hpath : PathFits d file)
    (hl : m ≤ l.length) (hs : Listed L d file l s) (block : ℕ) {sector : ℕ}
    (hsector : sector < 2 ^ 64) :
    Ensures (c.placeBlock (c.deepInspect writeCounter (fuel + 1)) file block sector
      (if block < m then redisFileSectorsLset file block (i64 sector)
        else redisFileSectorsInsert file (i64 sector))) s fun _ t =>
      Listed L d file (Segment.putAt m l block (sectorText (i64 sector))) t := by
  obtain ⟨e, hlist, hrecord, hat⟩ := hs
  have hafter : ∀ {cmd : Command KvStore.Key}, cmd.writes = some (.filesectors file) →
      (∀ k, cmd ≠ .brpop k) →
      (e.after cmd).listAt (.filesectors file) =
        some (Segment.putAt m l block (sectorText (i64 sector))) →
      Ensures (c.placeBlock (c.deepInspect writeCounter (fuel + 1)) file block sector cmd) s
        fun _ t => Listed L d file (Segment.putAt m l block (sectorText (i64 sector))) t := by
    intro cmd hwrites hbr hl'
    refine (placeBlock_at L hc hfile (hpath.congr hrecord) hat hsector hwrites hbr block).mono ?_
    rintro _ t ⟨e', he', ht⟩
    refine ⟨e', (listAt_congr (he' _ (by simp) (by simp))).trans hl', ?_, ht⟩
    rw [he' _ (by simp) (by simp), keys_after (by rw [hwrites]; simp), hrecord]
  by_cases hb : block < m
  · rw [if_pos hb]
    refine hafter rfl (by simp [redisFileSectorsLset]) ?_
    rw [Segment.putAt, if_pos hb]
    exact listAt_after_lset hlist (by omega) _
  · rw [if_neg hb]
    refine hafter rfl (by simp [redisFileSectorsInsert]) ?_
    rw [Segment.putAt, if_neg hb]
    exact listAt_after_rpush hlist _

theorem appendHoles_listed (hs : Listed L d file l s) (n : ℕ) :
    Ensures ((List.range n).forM fun _ => c.append (redisFileSectorsInsert file (-1))) s
      fun _ t => Listed L d file (l ++ List.replicate n holeText) t := by
  have hfold : ∀ n, (List.range n).foldl (fun (l : List (List UInt8)) _ => l ++ [holeText]) l =
      l ++ List.replicate n holeText := by
    intro n
    induction n with
    | zero => exact (List.append_nil l).symm
    | succ n ih =>
      rw [List.range_succ, List.foldl_append, ih, List.replicate_succ', ← List.append_assoc]
      rfl
  rw [← hfold]
  refine ensures_forM_foldl (I := Listed L d file) ?_ hs
  rintro _ - l' t ⟨e, hlist, hrecord, hat⟩
  refine (append_at L hat (by simp [redisFileSectorsInsert])).mono fun _ t ht =>
    ⟨_, listAt_after_rpush hlist _, ?_, ht⟩
  rw [keys_after (by simp [Command.writes]), hrecord]

/-- The two branches for an extent do one thing: filling up to its first block, of which there
is none in the first branch, and then its blocks. -/
theorem diffExtent_eq (inspect : BdrvWrite → Act σ Unit) (e : Extent) :
    c.diffExtent inspect file m e = (do
      (List.range (e.eeBlock - m)).forM fun _ => c.append (redisFileSectorsInsert file (-1))
      (List.range e.eeLen).forM fun i =>
        c.placeBlock inspect file (i + e.eeBlock) (c.sectorOf (ext4ExtentStart e + i))
          (if i + e.eeBlock < m then redisFileSectorsLset file (i + e.eeBlock)
              (i64 (c.sectorOf (ext4ExtentStart e + i)))
            else redisFileSectorsInsert file (i64 (c.sectorOf (ext4ExtentStart e + i))))) := by
  unfold diffExtent
  by_cases h : e.eeBlock < m
  · rw [if_pos h, Nat.sub_eq_zero_of_le h.le]
    rfl
  · have hge : ∀ i, ¬ i + e.eeBlock < m := fun i => by omega
    rw [if_neg h]
    simp only [if_neg (hge _)]

theorem diffExtent_listed (hc : c.Geometry) (hfile : file < 2 ^ 64) (hpath : PathFits d file)
    (hl : m ≤ l.length) (hs : Listed L d file l s) (e : Extent) :
    Ensures (c.diffExtent (c.deepInspect writeCounter (fuel + 1)) file m e) s fun _ t =>
      Listed L d file ((c.segment e).extend holeText m l) t := by
  rw [diffExtent_eq]
  refine (appendHoles_listed L hs _).bind fun _ t ht => ?_
  have hrun := ensures_forM_foldl (l := List.range e.eeLen)
    (f := fun i => c.placeBlock (c.deepInspect writeCounter (fuel + 1)) file (i + e.eeBlock)
      (c.sectorOf (ext4ExtentStart e + i))
      (if i + e.eeBlock < m then redisFileSectorsLset file (i + e.eeBlock)
          (i64 (c.sectorOf (ext4ExtentStart e + i)))
        else redisFileSectorsInsert file (i64 (c.sectorOf (ext4ExtentStart e + i)))))
    (I := fun l t => m ≤ l.length ∧ Listed L d file l t)
    (g := fun l i => Segment.putAt m l (i + e.eeBlock)
      (sectorText (i64 (c.sectorOf (ext4ExtentStart e + i)))))
    (fun i _ l t h => (placeBlock_listed L hc hfile hpath h.1 h.2 _ (sectorOf_lt _ _)).mono
      fun _ u hu => ⟨Segment.le_length_putAt h.1 _ _, hu⟩)
    ⟨by rw [List.length_append]; omega, ht⟩
  exact hrun.mono fun _ u hu => hu.2

/-- A leaf of an extent tree, as `__diff_ext4_extents` is handed it. -/
structure LeafNode (newb : Buffer) (extents : List Extent) : Prop where
  magic : field newb 0 2 = some 0xF30A
  header : extentHeader newb = some ⟨extents.length, 0⟩
  entries : ∀ k e, extents[k]? = some e → extentAt newb k = some e

/-- What the store says of a file. -/
structure StoredLists (d : Db KvStore.Key) (file : ℕ) (l : List (List UInt8)) (leaves : List ℕ) :
    Prop where
  id_lt : file < 2 ^ 64
  path : PathFits d file
  sectors : d.listAt (.filesectors file) = some l
  sectors_length : l.length < 2 ^ 64
  stored : Leaves d file leaves

variable {leaves : List ℕ} {newb : Buffer} {extents : List Extent}

theorem diffExt4Extents_leaf (hc : c.Geometry) (hd : StoredLists d file l leaves)
    (hleaf : LeafNode newb extents) (hs : L.At s d) :
    Ensures (c.diffExt4Extents (c.deepInspect writeCounter (fuel + 1)) file newb) s fun _ t =>
      Listed L d file
        (Segment.extendAll holeText l.length l (extents.map c.segment)) t := by
  obtain ⟨t, ht, hrun⟩ := diffExt4Extents_entries L hs hleaf.magic hleaf.header hd.stored
    (c.deepInspect writeCounter (fuel + 1))
  rw [oldFileLen_eq hd.sectors hd.sectors_length] at hrun
  refine Ensures.of_outcome hrun (Ensures.bind (P := fun _ t => Listed L d file
    (Segment.extendAll holeText l.length l (extents.map c.segment)) t) ?_ ?_)
  swap
  · rintro _ t ⟨e, hlist, hrecord, hat⟩
    exact (flush_at L hat).mono fun _ u hu => ⟨e, hlist, hrecord, hu⟩
  · have hloop : (List.range extents.length).forM (c.diffEntry
        (c.deepInspect writeCounter (fuel + 1)) file l.length leaves ⟨extents.length, 0⟩ newb) =
        extents.forM (c.diffExtent (c.deepInspect writeCounter (fuel + 1)) file l.length) := by
      refine forM_range fun k e he => ?_
      unfold diffEntry
      rw [if_neg (by simp), hleaf.entries k e he]
      rfl
    rw [hloop, Segment.extendAll, List.foldl_map]
    have hrun := ensures_forM_foldl (l := extents)
      (f := c.diffExtent (c.deepInspect writeCounter (fuel + 1)) file l.length)
      (I := fun l' t => l.length ≤ l'.length ∧ Listed L d file l' t)
      (g := fun l' e => (c.segment e).extend holeText l.length l')
      (fun e _ l' t h => (diffExtent_listed L hc hd.id_lt hd.path h.1 h.2 e).mono
        fun _ u hu => ⟨(Segment.extend_drop h.1).1, hu⟩)
      ⟨le_rfl, d, hd.sectors, rfl, ht⟩
    exact hrun.mono fun _ u hu => hu.2

end Run

end Inspector

/-! ## Whether the list is right -/

/-- What an extent says of the list: the sectors of its blocks, not cut to 64 bits. -/
def Setup.exactSegment (u : Setup) (e : Extent) : Segment (List UInt8) :=
  ⟨e.eeBlock, e.eeLen, fun i => sectorText
    (((ext4ExtentStart e + i) * u.blockSize + u.partitionOffset) / sectorSize : ℕ)⟩

theorem sdec_natCast (n : ℕ) : sdec n = dec n := by
  rw [sdec, if_neg (by omega), Int.natAbs_natCast]

theorem sectorText_natCast_inj {a b : ℕ} (h : sectorText a = sectorText b) : a = b := by
  rw [sectorText, sectorText, sdec_natCast, sdec_natCast] at h
  exact dec_injective (List.append_cancel_left h)

theorem i64_sectorOf (u : Setup) (block : ℕ) : i64 (u.sectorOf block) = u.sectorOf block := by
  have hlt : u64 (block * u.blockSize + u.partitionOffset) < 2 ^ 64 := u64_lt _
  refine i64_of_range (by omega) ?_
  rw [Setup.sectorOf, sectorSize]
  omega

theorem sectorOf_eq_iff (u : Setup) (block : ℕ) :
    u.sectorOf block = (block * u.blockSize + u.partitionOffset) / sectorSize ↔
      block * u.blockSize + u.partitionOffset < 2 ^ 64 := by
  have hcast : ((block : ℤ) * u.blockSize + u.partitionOffset) =
      (block * u.blockSize + u.partitionOffset : ℕ) := by push_cast; rfl
  rw [Setup.sectorOf, hcast, sectorSize]
  generalize block * u.blockSize + u.partitionOffset = x
  unfold u64
  omega

section Exact

variable {u : Setup} {m : ℕ} {l : List (List UInt8)} {extents : List Extent}

theorem oneGrows_iff : Segment.OneGrows m (extents.map u.segment) ↔
    (extents.Pairwise fun a b => a.eeBlock + a.eeLen ≤ m ∨ b.eeBlock + b.eeLen ≤ m) ∧
      ∀ e ∈ extents, m < e.eeBlock + e.eeLen → e.eeLen ≠ 0 := by
  constructor
  · intro h
    have hone := h.one
    rw [List.pairwise_map] at hone
    exact ⟨hone, fun e he => h.covers _ (List.mem_map_of_mem he)⟩
  · rintro ⟨hone, hcovers⟩
    refine ⟨List.pairwise_map.mpr hone, fun s hs => ?_⟩
    obtain ⟨e, he, rfl⟩ := List.mem_map.mp hs
    exact hcovers e he

theorem coveredEnd_segments :
    Segment.coveredEnd (extents.map u.exactSegment) = Segment.coveredEnd (extents.map u.segment) :=
  Segment.coveredEnd_map_congr (f := u.exactSegment) (g := u.segment) (fun _ => rfl)
    (fun _ => rfl) extents

/-- The list is right just when it is as computed and no sector was cut. -/
theorem exact_iff_fits (hcomputed : Segment.Exact holeText m (extents.map u.segment) l) :
    Segment.Exact holeText m (extents.map u.exactSegment) l ↔
      ∀ e ∈ extents, ∀ i < e.eeLen,
        (ext4ExtentStart e + i) * u.blockSize + u.partitionOffset < 2 ^ 64 := by
  have hvalue : ∀ e i, (u.segment e).value i = (u.exactSegment e).value i ↔
      (ext4ExtentStart e + i) * u.blockSize + u.partitionOffset < 2 ^ 64 := by
    intro e i
    rw [← sectorOf_eq_iff, Setup.segment, Setup.exactSegment]
    dsimp only
    rw [i64_sectorOf]
    exact ⟨sectorText_natCast_inj, fun h => by rw [h]⟩
  constructor
  · intro h e he i hi
    have hcovered := hcomputed.covered _ (List.mem_map_of_mem he) (e.eeBlock + i)
      (Nat.le_add_right _ _) (Nat.add_lt_add_left hi _)
    have hexact := h.covered _ (List.mem_map_of_mem he) (e.eeBlock + i) (Nat.le_add_right _ _)
      (Nat.add_lt_add_left hi _)
    rw [hcovered, Option.some.injEq] at hexact
    have hsub : e.eeBlock + i - e.eeBlock = i := Nat.add_sub_cancel_left _ _
    have heq : (u.segment e).value i = (u.exactSegment e).value i := hsub ▸ hexact
    exact (hvalue e i).mp heq
  · intro hfits
    refine ⟨fun s hs p hfirst hstop => ?_, fun p hp hend hnot => ?_, ?_⟩
    · obtain ⟨e, he, rfl⟩ := List.mem_map.mp hs
      have hle : e.eeBlock ≤ p := hfirst
      have hlt : p < e.eeBlock + e.eeLen := hstop
      have hi : p - e.eeBlock < e.eeLen := by omega
      have hcovered : l[p]? = some ((u.segment e).value (p - e.eeBlock)) :=
        hcomputed.covered _ (List.mem_map_of_mem he) p hle hlt
      rw [hcovered, (hvalue e _).mpr (hfits e he _ hi)]
      rfl
    · refine hcomputed.holes p hp (coveredEnd_segments ▸ hend) fun s hs => ?_
      obtain ⟨e, he, rfl⟩ := List.mem_map.mp hs
      have hexact : ¬ (e.eeBlock ≤ p ∧ p < e.eeBlock + e.eeLen) :=
        hnot _ (List.mem_map_of_mem he)
      exact hexact
    · rw [coveredEnd_segments]
      exact hcomputed.length

end Exact

namespace Inspector

section Keeps

variable {σ : Type} (c : Inspector σ) (L : Lawful c.service) (writeCounter fuel : ℕ)

/-- The list of a file, of length `m` before, is right after a leaf has been inspected. -/
def KeepsSectors (file m : ℕ) (newb : Buffer) (extents : List Extent) (s : State σ) : Prop :=
  Ensures (c.diffExt4Extents (c.deepInspect writeCounter (fuel + 1)) file newb) s fun _ t =>
    ∃ l, (L.db t.store).listAt (.filesectors file) = some l ∧
      Segment.Exact holeText m (extents.map c.exactSegment) l

variable {c} {d : Db KvStore.Key} {s : State σ} {file : ℕ} {l : List (List UInt8)}
  {leaves : List ℕ} {newb : Buffer} {extents : List Extent}

theorem keepsSectors_iff_exact (hc : c.Geometry) (hd : StoredLists d file l leaves)
    (hleaf : LeafNode newb extents) (hs : L.At s d) :
    KeepsSectors c L writeCounter fuel file l.length newb extents s ↔
      Segment.Exact holeText l.length (extents.map c.exactSegment)
        (Segment.extendAll holeText l.length l (extents.map c.segment)) := by
  have hrun := @diffExt4Extents_leaf σ c L s d file writeCounter fuel l leaves newb extents hc hd
    hleaf hs
  constructor
  · intro h
    obtain ⟨_, t, -, ⟨l₁, hl₁, hexact⟩, e, hlist, -, -, hdb⟩ := h.and hrun
    rw [hdb, hlist, Option.some.injEq] at hl₁
    rw [hl₁]
    exact hexact
  · intro h
    refine hrun.mono ?_
    rintro _ t ⟨e, hlist, -, -, hdb⟩
    exact ⟨_, by rw [hdb]; exact hlist, h⟩

end Keeps

/-- The list of a file stays right just when no two extents of the leaf reach past its old end,
none that does is empty, and no sector number is cut to 64 bits. -/
theorem keepsSectors_iff {σ : Type} (c : Inspector σ) (L : Lawful c.service)
    (writeCounter fuel : ℕ) (hc : c.Geometry) {d : Db KvStore.Key} {file : ℕ}
    {l : List (List UInt8)} {leaves : List ℕ} (hd : StoredLists d file l leaves) {newb : Buffer}
    {extents : List Extent} (hleaf : LeafNode newb extents)
    (hsorted : extents.Pairwise fun a b => a.eeBlock + a.eeLen ≤ b.eeBlock) {s : State σ}
    (hs : L.At s d) :
    KeepsSectors c L writeCounter fuel file l.length newb extents s ↔
      (extents.Pairwise fun a b =>
          a.eeBlock + a.eeLen ≤ l.length ∨ b.eeBlock + b.eeLen ≤ l.length) ∧
        (∀ e ∈ extents, l.length < e.eeBlock + e.eeLen → e.eeLen ≠ 0) ∧
        ∀ e ∈ extents, ∀ i < e.eeLen,
          (ext4ExtentStart e + i) * c.blockSize + c.partitionOffset < 2 ^ 64 := by
  rw [keepsSectors_iff_exact L writeCounter fuel hc hd hleaf hs, ← and_assoc,
    ← oneGrows_iff (u := c.toSetup)]
  have hcomputed : ∀ h : Segment.OneGrows l.length (extents.map c.segment),
      Segment.Exact holeText l.length (extents.map c.segment)
        (Segment.extendAll holeText l.length l (extents.map c.segment)) := fun h =>
    Segment.extendAll_exact h (List.pairwise_map.mpr hsorted) rfl
  constructor
  · intro h
    have hlen := h.length
    rw [coveredEnd_segments, Segment.extendAll_length _ rfl, Segment.growth_eq_iff] at hlen
    exact ⟨hlen, (exact_iff_fits (hcomputed hlen)).mp h⟩
  · rintro ⟨hgrows, hfits⟩
    exact (exact_iff_fits (hcomputed hgrows)).mpr hfits

/-- A node of an inode with the given extents. -/
def leafBytes (extents : List Extent) : List UInt8 :=
  leBytes 2 0xF30A ++ leBytes 2 extents.length ++ leBytes 2 4 ++ leBytes 2 0 ++ leBytes 4 0 ++
    extents.flatMap fun e =>
      leBytes 4 e.eeBlock ++ leBytes 2 e.eeLen ++ leBytes 2 e.eeStartHi ++ leBytes 4 e.eeStartLo

def plainInspector : Inspector (Db KvStore.Key) where
  toSetup := ⟨zeroHeap, [], [], 1024, 0⟩
  service := directService
  stack _ _ := 0

theorem plainInspector_geometry : plainInspector.Geometry := ⟨by decide, by decide, by decide⟩

/-- A file of which nothing is known yet. -/
theorem storedLists_empty : StoredLists Db.empty 7 [] [] :=
  ⟨by decide, by unfold PathFits; decide, rfl, by decide, rfl, by simp⟩

/-- Block 0 and, behind a hole, block 2. -/
def holedExtents : List Extent := [⟨0, 1, 0, 10⟩, ⟨2, 1, 0, 20⟩]

theorem holedExtents_leaf : LeafNode (bufferOf (leafBytes holedExtents)) holedExtents where
  magic := by decide
  header := by decide
  entries k e he := by
    match k with
    | 0 =>
      rw [← Option.some.inj he]
      decide
    | 1 =>
      rw [← Option.some.inj he]
      decide
    | k + 2 => cases he

/-- The hole is filled twice, and block 2 ends up in place 3. -/
theorem holedExtents_not_keepsSectors :
    Ensures (plainInspector.diffExt4Extents (plainInspector.deepInspect 0 1) 7
        (bufferOf (leafBytes holedExtents))) ⟨Db.empty, 0⟩ (fun _ t =>
      t.store.listAt (.filesectors 7) =
        some [sectorText 20, holeText, holeText, sectorText 40]) ∧
    ¬ KeepsSectors plainInspector directLawful 0 0 7 0 (bufferOf (leafBytes holedExtents))
      holedExtents ⟨Db.empty, 0⟩ := by
  have hfinal : Segment.extendAll holeText 0 [] (holedExtents.map plainInspector.segment) =
      [sectorText 20, holeText, holeText, sectorText 40] := by decide +kernel
  constructor
  · refine (diffExt4Extents_leaf directLawful plainInspector_geometry storedLists_empty
      holedExtents_leaf ⟨trivial, rfl⟩).mono ?_
    rintro _ t ⟨e, hlist, -, -, rfl⟩
    rw [← hfinal]
    exact hlist
  · have hexact := keepsSectors_iff_exact directLawful 0 0 plainInspector_geometry
      storedLists_empty holedExtents_leaf (s := ⟨Db.empty, 0⟩) ⟨trivial, rfl⟩
    exact fun h => absurd (hexact.mp h).length (by decide)

def denseExtents : List Extent := [⟨0, 1, 0, 10⟩]

theorem denseExtents_leaf : LeafNode (bufferOf (leafBytes denseExtents)) denseExtents where
  magic := by decide
  header := by decide
  entries k e he := by
    match k with
    | 0 =>
      rw [← Option.some.inj he]
      decide
    | k + 1 => cases he

theorem keepsSectors_denseExtents :
    KeepsSectors plainInspector directLawful 0 0 7 0 (bufferOf (leafBytes denseExtents))
      denseExtents ⟨Db.empty, 0⟩ :=
  (keepsSectors_iff plainInspector directLawful 0 0 plainInspector_geometry storedLists_empty
    denseExtents_leaf (by decide) ⟨trivial, rfl⟩).mpr (by decide)

end Inspector

end GammaRay.Inspect
