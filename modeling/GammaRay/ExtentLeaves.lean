import GammaRay.ExtentList
import GammaRay.QueueBlocks

set_option autoImplicit false

/-!
# The leaves of an extent tree

What `__diff_ext4_extents` makes of the list `extents` when it is given an index node. The
first leaves of a file are entered, and their blocks inspected again if they wait in the queue;
of a file that has leaves already, no other is.
-/
namespace GammaRay.Inspect
open Bytes Decimal Redis KvStore Bson Ext4 Total

/-- The store takes a sector for a block of the file. -/
def HoldsData (d : Db KvStore.Key) (file n : ℕ) : Prop :=
  ∃ start stop, d.keys (.sector n) = some (.string (dataPointer start stop file))

/-- Only blocks of the file have been placed, and the queue may differ. -/
structure Mapped (file : ℕ) (d e : Db KvStore.Key) : Prop where
  keys : ∀ k, (∀ n, k ≠ .sector n) → (∀ n, k ≠ .qsector n) → (∀ n, k ≠ .filesectors n) →
    e.keys k = d.keys k
  sectors : ∀ n, e.keys (.sector n) = d.keys (.sector n) ∨ HoldsData e file n

theorem Mapped.refl (file : ℕ) (d : Db KvStore.Key) : Mapped file d d :=
  ⟨fun _ _ _ _ => rfl, fun _ => .inl rfl⟩

theorem Mapped.trans {file : ℕ} {d e f : Db KvStore.Key} (h : Mapped file d e)
    (h' : Mapped file e f) : Mapped file d f where
  keys k hs hq hf := (h'.keys k hs hq hf).trans (h.keys k hs hq hf)
  sectors n := by
    rcases h'.sectors n with hf | hf
    · rcases h.sectors n with he | ⟨start, stop, he⟩
      · exact .inl (hf.trans he)
      · exact .inr ⟨start, stop, hf.trans he⟩
    · exact .inr hf

theorem Mapped.of_queue {file n : ℕ} {d e : Db KvStore.Key}
    (h : ∀ k, k ≠ .qsector n → e.keys k = d.keys k) : Mapped file d e :=
  ⟨fun k _ hq _ => h k (hq n), fun _ => .inl (h _ (by simp))⟩

theorem Leaves.mapped {file : ℕ} {d e : Db KvStore.Key} {leaves : List ℕ}
    (h : Leaves d file leaves) (he : Mapped file d e) : Leaves e file leaves where
  list := (Inspector.listAt_congr (he.keys _ (by simp) (by simp) (by simp))).trans h.list
  lt := h.lt

/-- The record of a leaf names its file. -/
def NamesFile (d : Db KvStore.Key) (file n : ℕ) : Prop :=
  ∃ h, d.keys (.extent n) = some (.hash h) ∧ h (ascii "file") = some (leBytes 8 file)

namespace Inspector

section Again

variable {σ : Type} {c : Inspector σ} (L : Lawful c.service) {s : State σ} {d : Db KvStore.Key}
  {file writeCounter fuel : ℕ} {leaves : List ℕ}

/-- Blocks of the file have been placed since the store was `d`. -/
def MappedSince (file : ℕ) (d : Db KvStore.Key) (t : State σ) : Prop :=
  ∃ e, Mapped file d e ∧ L.At t e

/-- What is left of a block of file data, whatever the store says of the file. -/
theorem emitFileBytes_keys (hs : L.At s d) (write pointer : List UInt8) (len sector : ℕ) :
    Yields (c.emitFileBytes write writeCounter pointer len sector) s fun _ t =>
      ∃ e, (∀ k, k ≠ .qsector sector → e.keys k = d.keys k) ∧ L.At t e := by
  have hqueue : ∀ {e : Db KvStore.Key} {cmd : Command KvStore.Key} {k : KvStore.Key},
      cmd.writes = some (.qsector sector) → k ≠ .qsector sector →
      (e.after cmd).keys k = e.keys k := fun hw hk =>
    keys_after (by rw [hw]; exact fun h => hk (Option.some.inj h).symm)
  unfold emitFileBytes
  refine (enter_at L hs).yields.bind fun vars t₁ h₁ => ?_
  split
  · refine (query_at L h₁.2 (by simp [redisFileSectorGet]) rfl).yields.bind ?_
    rintro _ t₂ ⟨-, h₂⟩
    dsimp only
    split
    · exact undefined_yields
    refine (getField_at L h₂ (by simp [redisFileSectorGet]) rfl _).yields.bind ?_
    rintro _ t₃ ⟨-, h₃⟩
    refine (keepLastBlock_yields L h₃ _ _ _ _).bind fun _ t₄ h₄ => ?_
    refine (dropInnerBlock_at L h₄ _ _ _).yields.bind fun _ t₅ h₅ => ?_
    refine (publish_yields L h₅ _ _).mono ?_
    rintro _ t ⟨m, ht⟩
    refine ⟨_, fun k hk => ?_, ht⟩
    rw [keys_after (by simp [Command.writes])]
    split
    · rw [hqueue rfl hk]
      split
      · exact hqueue rfl hk
      · rfl
    · split
      · exact hqueue rfl hk
      · rfl
  · exact yields_pure ⟨d, fun _ _ => rfl, h₁.2⟩

/-- A block of the file is inspected again. -/
theorem reinspectWrite_block (hc : c.Geometry) (hfile : file < 2 ^ 64) (hs : L.At s d)
    {sector start stop : ℕ} (hsector : sector < 2 ^ 64) (hstart : start < 2 ^ 64)
    (hstop : stop < 2 ^ 64)
    (hp : d.keys (.sector sector) = some (.string (dataPointer start stop file))) :
    Yields (c.reinspectWrite (c.deepInspect writeCounter (fuel + 1)) sector) s fun _ t =>
      ∃ e, (∀ k, k ≠ .qsector sector → e.keys k = d.keys k) ∧ L.At t e := by
  have hdel : ∀ k, k ≠ .qsector sector →
      (d.after (.del (.qsector sector))).keys k = d.keys k := fun k hk =>
    keys_after fun h => hk (Option.some.inj h).symm
  have hpointer : (d.after (.del (.qsector sector))).keys (.sector (u64 ((sector : ℤ) + (0 : ℕ)))) =
      some (.string (dataPointer start stop file)) := by
    rw [sector_zero hsector]
    exact (hdel _ (by simp)).trans hp
  obtain ⟨t₁, h₁, hempty | ⟨data, -, hrun⟩⟩ :=
    reinspectWrite_outcome L hs (c.deepInspect writeCounter (fuel + 1)) sector
  · exact (Ensures.of_eq hempty ⟨_, hdel, h₁⟩).yields
  refine Yields.of_outcome hrun ?_
  rw [deepInspect_eq_single hc rfl]
  obtain ⟨t₂, h₂, hdispatch⟩ := inspectBlock_known L h₁
    ⟨sector, c.blockSize / sectorSize, data⟩ 0 hpointer (by simp [dataPointer, ascii])
    (dataPointer_length hstart hstop hfile) (c.deepInspect writeCounter fuel) writeCounter
  refine Yields.bind (Yields.of_outcome hdispatch (emitFileBytes_keys L h₂ _ _ _ _)) ?_
  rintro _ t₃ ⟨e, he, h₃⟩
  exact (flush_at L h₃).yields.mono fun _ t ht => ⟨e, fun k hk => (he k hk).trans (hdel k hk), ht⟩

theorem placeBlock_mapped (hc : c.Geometry) (hfile : file < 2 ^ 64) (hs : MappedSince L file d s)
    {sector : ℕ} (hsector : sector < 2 ^ 64) {list : Command KvStore.Key}
    (hlist : list.writes = some (.filesectors file)) (hbr : ∀ k, list ≠ .brpop k) (block : ℕ) :
    Yields (c.placeBlock (c.deepInspect writeCounter (fuel + 1)) file block sector list) s
      fun _ t => MappedSince L file d t := by
  obtain ⟨e, he, hat⟩ := hs
  have hset : ∀ {f : Db KvStore.Key} {v : List UInt8} {k : KvStore.Key}, k ≠ .sector sector →
      (f.after (.set (.sector sector) v)).keys k = f.keys k := fun hk => keys_put_of_ne hk _
  unfold placeBlock
  refine (append_at L hat hbr).yields.bind fun _ t₁ h₁ => ?_
  refine (append_at L h₁ (by simp)).yields.bind fun _ t₂ h₂ => ?_
  refine (reinspectWrite_block L hc hfile h₂ hsector (u64_lt _) (u64_lt _)
    (keys_put_self _)).mono ?_
  rintro _ t ⟨f, hf, ht⟩
  refine ⟨f, he.trans ⟨fun k h₁ h₂ h₃ => ?_, fun n => ?_⟩, ht⟩
  · rw [hf k (h₂ sector), hset (h₁ sector)]
    exact keys_after (by rw [hlist]; exact fun h => h₃ file (Option.some.inj h).symm)
  · by_cases hn : n = sector
    · rw [hn]
      exact .inr ⟨_, _, (hf _ (by simp)).trans (keys_put_self _)⟩
    · refine .inl ((hf _ (by simp)).trans ((hset (by simpa using hn)).trans ?_))
      exact keys_after (by rw [hlist]; simp)

theorem diffExtent_mapped (hc : c.Geometry) (hfile : file < 2 ^ 64)
    (hs : MappedSince L file d s) (m : ℕ) (extent : Extent) :
    Yields (c.diffExtent (c.deepInspect writeCounter (fuel + 1)) file m extent) s fun _ t =>
      MappedSince L file d t := by
  rw [diffExtent_eq]
  refine Yields.bind (P := fun _ t => MappedSince L file d t) (yields_forM ?_ hs) ?_
  · rintro _ - t ⟨e, he, ht⟩
    refine (append_at L ht (by simp)).yields.mono fun _ u hu => ⟨_, he.trans ⟨?_, ?_⟩, hu⟩
    · exact fun k _ _ hk => keys_after (by simpa [Command.writes] using (hk file).symm)
    · exact fun n => .inl (keys_after (by simp [Command.writes]))
  · refine fun _ t ht => yields_forM (fun i _ u hu => ?_) ht
    split
    · exact placeBlock_mapped L hc hfile hu (sectorOf_lt _ _) rfl
        (by simp [redisFileSectorsLset]) _
    · exact placeBlock_mapped L hc hfile hu (sectorOf_lt _ _) rfl (by simp) _

/-- An entry of an index node for a file that has leaves already. -/
theorem diffExtentIdx_known (hd : Leaves d file leaves) (hne : leaves ≠ []) (hs : L.At s d)
    (inspect : BdrvWrite → Act σ Unit) (idx : ExtentIdx) :
    Ensures (c.diffExtentIdx inspect file leaves idx) s fun _ t => L.At t d := by
  have hlen : leaves.length ≠ 0 := fun h => hne (List.eq_nil_of_length_eq_zero h)
  unfold diffExtentIdx
  dsimp only
  split
  · exact ensures_pure hs
  · exact insertLeaf_at L hd hs _ _ _

omit L in
theorem diffExt4Extents_header {inspect : BdrvWrite → Act σ Unit} {newb : Buffer}
    {p : Unit × State σ} (h : c.diffExt4Extents inspect file newb s = some p) :
    ∃ magic hdr, field newb 0 2 = some magic ∧
      (if magic = 0xF30A then extentHeader newb else some ⟨0, 0⟩) = some hdr := by
  obtain ⟨q, hq, h⟩ := Option.bind_eq_some_iff.mp h
  obtain ⟨q', hq', -⟩ := Option.bind_eq_some_iff.mp h
  obtain ⟨hmagic, -⟩ := defined_yields _ _ _ hq
  obtain ⟨hhdr, -⟩ := defined_yields _ _ _ hq'
  exact ⟨_, _, hmagic, hhdr⟩

/-- A node that is inspected again when the file has leaves. -/
theorem diffExt4Extents_again (hc : c.Geometry) (hfile : file < 2 ^ 64)
    (hd : Leaves d file leaves) (hne : leaves ≠ []) (hs : L.At s d) (newb : Buffer) :
    Yields (c.diffExt4Extents (c.deepInspect writeCounter (fuel + 1)) file newb) s fun _ t =>
      MappedSince L file d t := by
  intro a u hrun
  obtain ⟨magic, hdr, hmagic, hhdr⟩ := diffExt4Extents_header hrun
  obtain ⟨t, ht, heq⟩ := diffExt4Extents_entries L hs hmagic hhdr hd
    (c.deepInspect writeCounter (fuel + 1))
  revert a u
  refine Yields.of_outcome heq (Yields.bind (P := fun _ t => MappedSince L file d t)
    (yields_forM ?_ ⟨d, .refl file d, ht⟩) ?_)
  · rintro k - t ⟨e, he, ht⟩
    unfold diffEntry
    split
    · refine (defined_yields _).bind ?_
      rintro idx _ ⟨-, rfl⟩
      exact (diffExtentIdx_known L (hd.mapped he) hne ht _ idx).yields.mono
        fun _ u hu => ⟨e, he, hu⟩
    · refine (defined_yields _).bind ?_
      rintro extent _ ⟨-, rfl⟩
      exact diffExtent_mapped L hc hfile ⟨e, he, ht⟩ _ extent
  · rintro _ t ⟨e, he, ht⟩
    exact (flush_at L ht).yields.mono fun _ u hu => ⟨e, he, hu⟩

theorem reference_length {name : String} (hname : (ascii name).length ≤ 64) (id : ℤ) :
    (reference name id).length < 1024 := by
  have hdec : (dec (u64 id)).length ≤ 20 := dec_length_le (by decide) ((u64_lt id).trans (by decide))
  rw [reference, List.length_append]
  omega

/-- The block of a leaf that is inspected again. -/
theorem reinspectWrite_leaf (hc : c.Geometry) (hfile : file < 2 ^ 64) (hd : Leaves d file leaves)
    (hne : leaves ≠ []) (hs : L.At s d) {n : ℕ} (hn : n < 2 ^ 64)
    (hp : d.keys (.sector n) = some (.string (reference "extent:" n)))
    (hnames : NamesFile d file n) :
    Yields (c.reinspectWrite (c.deepInspect writeCounter (fuel + 2)) n) s fun _ t =>
      MappedSince L file d t := by
  obtain ⟨h, hh, hnamed⟩ := hnames
  have hdel : ∀ k, k ≠ .qsector n → (d.after (.del (.qsector n))).keys k = d.keys k :=
    fun k hk => keys_after fun h => hk (Option.some.inj h).symm
  have hmapped : Mapped file d (d.after (.del (.qsector n))) := .of_queue hdel
  have hpointer : (d.after (.del (.qsector n))).keys (.sector (u64 ((n : ℤ) + (0 : ℕ)))) =
      some (.string (reference "extent:" n)) := by
    rw [sector_zero hn]
    exact (hdel _ (by simp)).trans hp
  have htoken := tokens_reference (show ascii "extent:" = ascii "extent" ++ [58] from rfl)
    (by decide) (by decide) (by decide) hn
  obtain ⟨t₁, h₁, hempty | ⟨data, -, hrun⟩⟩ :=
    reinspectWrite_outcome L hs (c.deepInspect writeCounter (fuel + 2)) n
  · exact (Ensures.of_eq hempty ⟨_, hmapped, h₁⟩).yields
  refine Yields.of_outcome hrun ?_
  rw [deepInspect_eq_single hc rfl]
  obtain ⟨t₂, h₂, hdispatch⟩ := inspectBlock_known L h₁
    ⟨n, c.blockSize / sectorSize, data⟩ 0 hpointer (by simp [reference, ascii])
    (reference_length (by decide) n) (c.deepInspect writeCounter (fuel + 1)) writeCounter
  refine Yields.bind (P := fun _ t => MappedSince L file d t)
    (Yields.of_outcome hdispatch ?_) ?_
  · change Yields (c.diffExtentTree _ _ _) t₂ _
    unfold diffExtentTree
    refine (enter_at L h₂).yields.bind fun vars t₃ h₃ => ?_
    refine Yields.of_outcome (bind_of_eq (pointerTarget_eq htoken) _) ?_
    rw [scanInto_dec]
    refine (getField_hash L (fun _ => rfl) h₃.2 ((hdel _ (by simp)).trans hh) hnamed
      (by rw [leBytes_length]; rfl)).yields.bind ?_
    rintro _ t₄ ⟨rfl, h₄⟩
    rw [leNat_leBytes_of_lt hfile]
    refine (diffExt4Extents_again L hc hfile (hd.mapped hmapped) hne h₄ _).mono ?_
    rintro _ t ⟨e, he, ht⟩
    exact ⟨e, hmapped.trans he, ht⟩
  · rintro _ t ⟨e, he, ht⟩
    exact (flush_at L ht).yields.mono fun _ u hu => ⟨e, he, hu⟩

end Again

end Inspector

/-! ## Entering leaves -/

/-- The first leaves of a file, as far as they have been entered. A block that has been inspected
again may have taken the sector of a leaf for one of data. -/
structure Entered (d : Db KvStore.Key) (file : ℕ) (leaves : List ℕ) : Prop where
  stored : Leaves d file leaves
  hashes : ∀ n, ∃ h, d.hashAt (.extent n) = some h
  names : ∀ n ∈ leaves, NamesFile d file n
  pointers : ∀ n ∈ leaves,
    d.keys (.sector n) = some (.string (reference "extent:" n)) ∨ HoldsData d file n

section Entered

variable {d e : Db KvStore.Key} {file n : ℕ} {leaves : List ℕ}

theorem hashAt_congr {k : KvStore.Key} (h : e.keys k = d.keys k) : e.hashAt k = d.hashAt k := by
  simp only [Db.hashAt, h]

theorem Entered.mapped (h : Entered d file leaves) (he : Mapped file d e) :
    Entered e file leaves := by
  have hextent : ∀ m, e.keys (.extent m) = d.keys (.extent m) := fun m =>
    he.keys _ (by simp) (by simp) (by simp)
  refine ⟨h.stored.mapped he, fun m => ?_, fun m hm => ?_, fun m hm => ?_⟩
  · rw [hashAt_congr (hextent m)]
    exact h.hashes m
  · obtain ⟨fields, hfields, hnamed⟩ := h.names m hm
    exact ⟨fields, (hextent m).trans hfields, hnamed⟩
  · rcases he.sectors m with hsame | hdata
    · rcases h.pointers m hm with hp | ⟨start, stop, hp⟩
      · exact .inl (hsame.trans hp)
      · exact .inr ⟨start, stop, hsame.trans hp⟩
    · exact .inr hdata

/-- The three commands for a leaf. -/
def enterLeaf (d : Db KvStore.Key) (file n : ℕ) : Db KvStore.Key :=
  ((d.after (redisExtentSectorInsert n (ascii "file") (leBytes 8 file))).after
    (redisExtentsInsert file n)).after (redisExtentsSectorInsert n n)

theorem enterLeaf_pointer :
    (enterLeaf d file n).keys (.sector n) = some (.string (reference "extent:" n)) :=
  keys_put_self _

theorem enterLeaf_extent (h : ∃ h, d.hashAt (.extent n) = some h) (m : ℕ) :
    (enterLeaf d file n).keys (.extent m) = d.keys (.extent m) ∧ m ≠ n ∨
      m = n ∧ NamesFile (enterLeaf d file n) file n := by
  have hkeep : ∀ m, (enterLeaf d file n).keys (.extent m) =
      (d.after (redisExtentSectorInsert n (ascii "file") (leBytes 8 file))).keys (.extent m) :=
    fun m => (keys_after (by simp [Command.writes])).trans (keys_after (by simp [Command.writes]))
  by_cases hm : m = n
  · obtain ⟨fields, hfields⟩ := h
    refine .inr ⟨hm, fun f => if f = ascii "file" then some (leBytes 8 file) else fields f, ?_,
      if_pos rfl⟩
    rw [hkeep]
    simp only [redisExtentSectorInsert, Db.after, exec, hfields, Option.elim_some]
    exact keys_put_self _
  · exact .inl ⟨(hkeep m).trans (keys_after (by simpa [Command.writes] using Ne.symm hm)), hm⟩

theorem Entered.enterLeaf (h : Entered d file leaves) (hn : n < 2 ^ 64) :
    Entered (enterLeaf d file n) file (leaves ++ [n]) := by
  have hextent := @enterLeaf_extent d file n (h.hashes n)
  have hlist : (Inspect.enterLeaf d file n).listAt (.extents file) =
      some ((leaves ++ [n]).map fun n : ℕ => reference "extent:" n) := by
    rw [List.map_append, List.map_singleton]
    refine (Inspector.listAt_congr (keys_after (by simp [Command.writes]))).trans
      (listAt_after_rpush ?_ _)
    exact (Inspector.listAt_congr (keys_after (by simp [Command.writes]))).trans h.stored.list
  refine ⟨⟨hlist, fun m hm => ?_⟩, fun m => ?_, fun m hm => ?_, fun m hm => ?_⟩
  · rcases List.mem_append.mp hm with hm | hm
    · exact h.stored.lt m hm
    · rw [List.mem_singleton.mp hm]
      exact hn
  · rcases hextent m with ⟨hm, -⟩ | ⟨rfl, fields, hm, -⟩
    · rw [hashAt_congr hm]
      exact h.hashes m
    · exact ⟨fields, by simp only [Db.hashAt, hm]⟩
  · rcases hextent m with ⟨hsame, hne⟩ | ⟨rfl, hnames⟩
    · have hm : m ∈ leaves := (List.mem_append.mp hm).resolve_right (by simpa using hne)
      obtain ⟨fields, hfields, hnamed⟩ := h.names m hm
      exact ⟨fields, hsame.trans hfields, hnamed⟩
    · exact hnames
  · by_cases hne : m = n
    · rw [hne]
      exact .inl enterLeaf_pointer
    · have hm : m ∈ leaves := (List.mem_append.mp hm).resolve_right (by simpa using hne)
      have hsame : (Inspect.enterLeaf d file n).keys (.sector m) = d.keys (.sector m) :=
        (keys_after (by simpa [Command.writes] using Ne.symm hne)).trans
          ((keys_after (by simp [Command.writes])).trans (keys_after (by simp [Command.writes])))
      rcases h.pointers m hm with hp | ⟨start, stop, hp⟩
      · exact .inl (hsame.trans hp)
      · exact .inr ⟨start, stop, hsame.trans hp⟩

end Entered

/-- An index node, as `__diff_ext4_extents` is handed it. -/
structure IndexNode (newb : Buffer) (depth : ℕ) (children : List ExtentIdx) : Prop where
  magic : field newb 0 2 = some 0xF30A
  header : extentHeader newb = some ⟨children.length, depth⟩
  depth_pos : 0 < depth
  entries : ∀ k idx, children[k]? = some idx → extentIdxAt newb k = some idx
  leaf_ne : ∀ idx ∈ children, ext4ExtentIndexLeaf idx ≠ 0

/-- The sector of a child. -/
def Setup.leafSector (u : Setup) (idx : ExtentIdx) : ℕ := u.sectorOf (ext4ExtentIndexLeaf idx)

namespace Inspector

section Node

variable {σ : Type} {c : Inspector σ} (L : Lawful c.service) {s : State σ} {d : Db KvStore.Key}
  {file writeCounter fuel depth : ℕ} {leaves : List ℕ} {newb : Buffer} {children : List ExtentIdx}

theorem newLeaf_entered (hc : c.Geometry) (hfile : file < 2 ^ 64) (hd : Entered d file leaves)
    (hs : L.At s d) (idx : ExtentIdx) :
    Yields (c.newLeaf (c.deepInspect writeCounter (fuel + 2)) file (c.leafSector idx)) s
      fun _ t => ∃ e, Entered e file (leaves ++ [c.leafSector idx]) ∧ L.At t e := by
  set n := c.leafSector idx with hn
  have hlt : n < 2 ^ 64 := sectorOf_lt _ _
  have hi64 : i64 n = n := i64_sectorOf _ _
  have hentered := hd.enterLeaf hlt
  have hnames : NamesFile (enterLeaf d file n) file n := hentered.names n (by simp)
  unfold newLeaf
  rw [hi64]
  refine (append_at L hs (by simp)).yields.bind fun _ t₁ h₁ => ?_
  refine (append_at L h₁ (by simp)).yields.bind fun _ t₂ h₂ => ?_
  refine (append_at L h₂ (by simp)).yields.bind fun _ t₃ h₃ => ?_
  refine (reinspectWrite_leaf L hc hfile hentered.stored (by simp) h₃ hlt enterLeaf_pointer
    hnames).mono ?_
  rintro _ t ⟨e, he, ht⟩
  exact ⟨e, hentered.mapped he, ht⟩

/-- The loop over the entries of an index node. -/
theorem diffExt4Extents_index (hd : Leaves d file leaves) (hnode : IndexNode newb depth children)
    (hs : L.At s d) (inspect : BdrvWrite → Act σ Unit) :
    ∃ t, L.At t d ∧ c.diffExt4Extents inspect file newb s = (do
      children.forM (c.diffExtentIdx inspect file leaves)
      c.flush : Act σ Unit) t := by
  obtain ⟨t, ht, hrun⟩ := diffExt4Extents_entries L hs hnode.magic hnode.header hd inspect
  refine ⟨t, ht, hrun.trans ?_⟩
  have hdepth : depth ≠ 0 := hnode.depth_pos.ne'
  rw [forM_range (l := children) (g := c.diffExtentIdx inspect file leaves)]
  intro k idx hidx
  unfold diffEntry
  rw [if_pos hdepth, hnode.entries k idx hidx]
  rfl

/-- A file with leaves keeps just these. -/
theorem diffExt4Extents_known (hd : Leaves d file leaves) (hne : leaves ≠ [])
    (hnode : IndexNode newb depth children) (hs : L.At s d) (inspect : BdrvWrite → Act σ Unit) :
    Ensures (c.diffExt4Extents inspect file newb) s fun _ t => L.At t d := by
  obtain ⟨t, ht, hrun⟩ := diffExt4Extents_index L hd hnode hs inspect
  refine Ensures.of_outcome hrun (Ensures.bind (P := fun _ t => L.At t d) ?_
    fun _ u hu => flush_at L hu)
  exact ensures_forM (fun idx _ u hu => diffExtentIdx_known L hd hne hu inspect idx) ht

/-- The first leaves of a file are entered. -/
theorem diffExt4Extents_first (hc : c.Geometry) (hfile : file < 2 ^ 64) (hd : Entered d file [])
    (hnode : IndexNode newb depth children) (hs : L.At s d) :
    Yields (c.diffExt4Extents (c.deepInspect writeCounter (fuel + 2)) file newb) s fun _ t =>
      ∃ e, Entered e file (children.map c.leafSector) ∧ L.At t e := by
  obtain ⟨t, ht, hrun⟩ := diffExt4Extents_index L hd.stored hnode hs
    (c.deepInspect writeCounter (fuel + 2))
  refine Yields.of_outcome hrun (Yields.bind (P := fun _ t =>
    ∃ e, Entered e file (([] ++ children).map c.leafSector) ∧ L.At t e) ?_ ?_)
  · refine yields_forM_append (I := fun done t =>
      ∃ e, Entered e file (done.map c.leafSector) ∧ L.At t e) ?_ ⟨d, hd, ht⟩
    rintro idx hidx done u ⟨e, he, hu⟩
    have hidx : c.diffExtentIdx (c.deepInspect writeCounter (fuel + 2)) file [] idx =
        c.newLeaf (c.deepInspect writeCounter (fuel + 2)) file (c.leafSector idx) := by
      simp only [diffExtentIdx, if_neg (hnode.leaf_ne idx hidx), List.length_nil, if_true]
      rfl
    rw [hidx, List.map_append, List.map_singleton]
    exact newLeaf_entered L hc hfile he hu idx
  · rintro _ u ⟨e, he, hu⟩
    exact (flush_at L hu).yields.mono fun _ v hv => ⟨e, he, hv⟩

end Node

end Inspector

/-! ## Whether the leaves are registered -/

structure Registered (d : Db KvStore.Key) (file n : ℕ) : Prop where
  listed : ∃ l, d.listAt (.extents file) = some l ∧ reference "extent:" n ∈ l
  pointer : ∃ m : ℕ, d.keys (.sector n) = some (.string (reference "extent:" m))
  names : NamesFile d file n

theorem Registered.not_holdsData {d : Db KvStore.Key} {file n : ℕ} (h : Registered d file n) :
    ¬ HoldsData d file n := by
  obtain ⟨m, hm⟩ := h.pointer
  rintro ⟨start, stop, hp⟩
  rw [hm, Option.some.injEq, Redis.Value.string.injEq] at hp
  exact absurd (congrArg List.head? hp) (by simp [reference, dataPointer, ascii])

theorem Entered.registered {d : Db KvStore.Key} {file n : ℕ} {leaves : List ℕ}
    (h : Entered d file leaves) (hn : n ∈ leaves) (hdata : ¬ HoldsData d file n) :
    Registered d file n where
  listed := ⟨_, h.stored.list, List.mem_map.mpr ⟨n, hn, rfl⟩⟩
  pointer := ⟨n, (h.pointers n hn).resolve_right hdata⟩
  names := h.names n hn

namespace Inspector

section Registers

variable {σ : Type} (c : Inspector σ) (L : Lawful c.service) (writeCounter fuel : ℕ)

/-- After an index node has been inspected, its children are registered and the leaves there were
are in the list as often as before. -/
def RegistersLeaves (file : ℕ) (leaves : List ℕ) (newb : Buffer) (children : List ExtentIdx)
    (s : State σ) : Prop :=
  Ensures (c.diffExt4Extents (c.deepInspect writeCounter (fuel + 2)) file newb) s fun _ t =>
    (∀ idx ∈ children, Registered (L.db t.store) file (c.leafSector idx)) ∧
      ∃ l, (L.db t.store).listAt (.extents file) = some l ∧ ∀ n ∈ leaves,
        l.count (reference "extent:" n) =
          (leaves.map fun n : ℕ => reference "extent:" n).count (reference "extent:" n)

end Registers

/-- A node of a tree with the given children. -/
def indexBytes (children : List ExtentIdx) : List UInt8 :=
  leBytes 2 0xF30A ++ leBytes 2 children.length ++ leBytes 2 4 ++ leBytes 2 1 ++ leBytes 4 0 ++
    children.flatMap fun idx =>
      leBytes 4 idx.eiBlock ++ leBytes 4 idx.eiLeafLo ++ leBytes 2 idx.eiLeafHi ++ leBytes 2 0

/-- A tree that has grown a second leaf, at block 100. -/
def grownChildren : List ExtentIdx := [⟨0, 50, 0⟩, ⟨8, 100, 0⟩]

theorem grownChildren_node : IndexNode (bufferOf (indexBytes grownChildren)) 1 grownChildren where
  magic := by decide
  header := by decide
  depth_pos := by decide
  entries k idx hidx := by
    match k with
    | 0 =>
      rw [← Option.some.inj hidx]
      decide
    | 1 =>
      rw [← Option.some.inj hidx]
      decide
    | k + 2 => cases hidx
  leaf_ne := by decide

theorem entered_empty (file : ℕ) : Entered Db.empty file [] :=
  ⟨⟨rfl, by simp⟩, fun _ => ⟨_, rfl⟩, by simp, by simp⟩

/-- The store knows the first leaf. -/
def oneLeaf : Db KvStore.Key := enterLeaf Db.empty 7 100

theorem oneLeaf_entered : Entered oneLeaf 7 [100] := (entered_empty 7).enterLeaf (by decide)

theorem not_holdsData_of_answer {d : Db KvStore.Key} {n : ℕ} {b : List UInt8}
    (h : answer d (.get (.sector n)) = .string b) (hb : b.head? ≠ some 115) (file : ℕ) :
    ¬ HoldsData d file n := by
  rintro ⟨start, stop, hp⟩
  simp only [answer, exec, hp, Option.elim_some, Reply.string.injEq] at h
  rw [← h] at hb
  exact hb rfl

end Inspector

end GammaRay.Inspect
