import GammaRay.RecordFields

set_option autoImplicit false

/-!
# A write to a block of inodes

What `__diff_inodes` makes of an inode whose extents are those the store already has: it
reports and stores the attributes that changed, and inspects blocks of the file again.
-/
namespace GammaRay.Inspect
open Bytes Decimal Redis KvStore Bson Ext4 Total
open Loader (keyNamed int64Of)

/-! ## Commands that change nothing -/

section Same

variable {d : Db KvStore.Key} {k : KvStore.Key}

theorem listAt_some {l : List (List UInt8)} (h : d.listAt k = some l) (hne : l ≠ []) :
    d.keys k = some (.list l) := by
  unfold Db.listAt at h
  split at h
  · simp only [Option.some.injEq] at h
    exact absurd h.symm hne
  · rename_i hk
    rw [hk, Option.some.inj h]
  · cases h

theorem after_set_same {v : List UInt8} (h : d.keys k = some (.string v)) :
    d.after (.set k v) = d :=
  put_self h

theorem after_lset_same {l : List (List UInt8)} {i : ℕ} {v : List UInt8}
    (h : d.listAt k = some l) (hi : l[i]? = some v) : d.after (.lset k i v) = d := by
  have hlt : i < l.length := (List.getElem?_eq_some_iff.mp hi).1
  have hne : l ≠ [] := List.ne_nil_of_length_pos (by omega)
  have hplace : place l.length i = i := if_neg (by omega)
  have hset : l.set i v = l := by
    obtain ⟨hlt', he⟩ := List.getElem?_eq_some_iff.mp hi
    rw [← he, List.set_getElem_self]
  simp only [Db.after, exec, h, Option.elim_some, hplace]
  rw [if_pos (by omega), Int.toNat_natCast, hset, Db.putList, if_neg (by simpa using hne)]
  exact put_self (listAt_some h hne)

theorem insertBefore_none {pivot value : List UInt8} {l : List (List UInt8)} (h : pivot ∉ l) :
    insertBefore pivot value l = none := by
  induction l with
  | nil => rfl
  | cons x l ih =>
    rw [List.mem_cons, not_or] at h
    rw [insertBefore, if_neg (Ne.symm h.1), ih h.2]
    rfl

theorem after_linsert_same {l : List (List UInt8)} {pivot v : List UInt8}
    (h : d.listAt k = some l) (hp : pivot ∉ l) : d.after (.linsertBefore k pivot v) = d := by
  simp only [Db.after, exec, h, Option.elim_some]
  split
  · rfl
  · rw [insertBefore_none hp]

theorem answer_lrange {l : List (List UInt8)} (h : d.listAt k = some l) :
    answer d (.lrange k 0 (-1)) = .array l := by
  have hstop : (place l.length (-1) + 1).toNat = l.length := by
    rw [place, if_pos (by decide)]
    omega
  simp only [answer, exec, h, Option.elim_some, hstop, List.take_length]
  rfl

theorem answer_llen {l : List (List UInt8)} (h : d.listAt k = some l) :
    answer d (.llen k) = .integer l.length := by
  simp only [answer, exec, h, Option.elim_some]

theorem answer_lindex_last {l : List (List UInt8)} (h : d.listAt k = some l) {b : List UInt8}
    (hb : l.getLast? = some b) : answer d (.lindex k (-1)) = .string b := by
  have hlen : 0 < l.length := by
    cases l with
    | nil => cases hb
    | cons x l => exact Nat.succ_pos _
  have hplace : place l.length (-1) = (l.length - 1 : ℕ) := by
    rw [place, if_pos (by decide)]
    omega
  simp only [answer, exec, h, Option.elim_some, hplace]
  rw [if_neg (by omega), Int.toNat_natCast, ← List.getLast?_eq_getElem?, hb]

end Same

namespace Inspector

/-! ## Passes -/

section Passes

variable {u : Setup} {path : List UInt8} {size writeCounter : ℕ}
  {d : Db KvStore.Key} {k : KvStore.Key}

theorem emitted_keys {sector start stop len : ℕ} {subtype : UInt8} {write : List UInt8}
    (hk : k ≠ .qsector sector) :
    (u.emitted sector start stop size path subtype write len writeCounter d).keys k =
      d.keys k := by
  have hw : ∀ {e : Db KvStore.Key} {cmd : Command KvStore.Key}, cmd.writes = some (.qsector sector) →
      (e.after cmd).keys k = e.keys k := by
    intro e cmd hcmd
    exact keys_after (by rw [hcmd]; exact fun h => hk (Option.some.inj h).symm)
  simp only [Setup.emitted]
  rw [keys_after (by simp [Command.writes])]
  split
  · rw [hw rfl]
    split
    · exact hw rfl
    · rfl
  · split
    · exact hw rfl
    · rfl

theorem emitted_messages {sector start stop len : ℕ} {subtype : UInt8} {write : List UInt8} :
    (u.emitted sector start stop size path subtype write len writeCounter d).messages =
      d.messages ++ [(u.constructChannelName path, dataDocument start stop subtype
        (write.take (if u64 (size - start) ≤ len then u64 (size - start) else len))
        writeCounter)] := by
  simp only [Setup.emitted]
  change Db.messages (ite _ _ _) ++ _ = _
  congr 1
  split
  · change Db.messages (ite _ _ _) = _
    split
    · rfl
    · rfl
  · split
    · rfl
    · rfl

theorem Pass.run_keys {p : Pass} (hk : k ≠ .qsector p.sector) :
    (p.run u path size writeCounter d).keys k = d.keys k := by
  have hw : ∀ {e : Db KvStore.Key} {cmd : Command KvStore.Key},
      cmd.writes = some (.qsector p.sector) → (e.after cmd).keys k = e.keys k := by
    intro e cmd hcmd
    exact keys_after (by rw [hcmd]; exact fun h => hk (Option.some.inj h).symm)
  simp only [Pass.run]
  split
  · exact hw rfl
  · split
    · rw [hw rfl]
      exact hw rfl
    · rw [emitted_keys hk]
      exact hw rfl

/-- The messages of a pass are on the channel of its file. -/
theorem Pass.run_messages (p : Pass) : ∃ ms, (p.run u path size writeCounter d).messages =
    d.messages ++ ms ∧ ∀ m ∈ ms, m.1 = u.constructChannelName path := by
  simp only [Pass.run]
  split
  · exact ⟨[], (List.append_nil _).symm, by simp⟩
  · split
    · exact ⟨[], (List.append_nil _).symm, by simp⟩
    · exact ⟨_, emitted_messages, by simp⟩

def Pass.runAll (u : Setup) (path : List UInt8) (size writeCounter : ℕ) (ps : List Pass)
    (d : Db KvStore.Key) : Db KvStore.Key :=
  ps.foldl (fun e p => p.run u path size writeCounter e) d

theorem Pass.runAll_append (ps : List Pass) (p : Pass) :
    Pass.runAll u path size writeCounter (ps ++ [p]) d =
      p.run u path size writeCounter (Pass.runAll u path size writeCounter ps d) :=
  List.foldl_concat ..

theorem Pass.runAll_keys {ps : List Pass} (hk : ∀ p ∈ ps, k ≠ .qsector p.sector) :
    (Pass.runAll u path size writeCounter ps d).keys k = d.keys k := by
  induction ps generalizing d with
  | nil => rfl
  | cons p ps ih =>
    exact (ih fun q hq => hk q (List.mem_cons_of_mem p hq)).trans
      (Pass.run_keys (hk p List.mem_cons_self))

theorem Pass.runAll_messages (ps : List Pass) :
    ∃ ms, (Pass.runAll u path size writeCounter ps d).messages = d.messages ++ ms ∧
      ∀ m ∈ ms, m.1 = u.constructChannelName path := by
  induction ps generalizing d with
  | nil => exact ⟨[], (List.append_nil _).symm, by simp⟩
  | cons p ps ih =>
    obtain ⟨ms, hms, hch⟩ := @Pass.run_messages u path size writeCounter d p
    obtain ⟨ns, hns, hch'⟩ := ih (d := p.run u path size writeCounter d)
    refine ⟨ms ++ ns, ?_, ?_⟩
    · rw [← List.append_assoc, ← hms]
      exact hns
    · intro m hm
      rcases List.mem_append.mp hm with h | h
      · exact hch m h
      · exact hch' m h

end Passes

end Inspector

/-! ## The record of a file -/

def attributeWidths : List ℕ := Inspector.attributes.map fun a => attributeWidth a.2

/-- The fields of a file that the inspection reads. -/
structure Record where
  path : List UInt8
  offset : ℕ
  values : List (List UInt8)
  path_lt : path.length < 4096
  offset_lt : offset < 2 ^ 64
  widths : values.map List.length = attributeWidths

namespace Record

def size (r : Record) : ℕ := leNat (r.values.getD 1 [])

def In (r : Record) (d : Db KvStore.Key) (file : ℕ) : Prop :=
  ∃ h, d.keys (.file file) = some (.hash h) ∧ h (ascii "path") = some r.path ∧
    h (ascii "inode_offset") = some (leBytes 8 r.offset) ∧
    Inspector.attributes.map (fun a => h (ascii a.1)) = r.values.map some

def update (r : Record) (node : Inode × InodeStat) : Record :=
  { r with
    values := Inspector.newAttributes node
    widths := by simp [Inspector.newAttributes, attributeWidths,
      Inspector.attributes, attributeWidth] }

variable {r : Record} {d : Db KvStore.Key} {file : ℕ}

theorem answer_of_hash {h : List UInt8 → Option (List UInt8)}
    (hk : d.keys (.file file) = some (.hash h)) {field b : List UInt8} (hf : h field = some b) :
    answer d (redisFileSectorGet file field) = .string b := by
  simp only [answer, redisFileSectorGet, exec, Db.hashAt, hk, hf, Option.elim_some]

theorem In.known (hr : r.In d file) : Inspector.Known d file r.path r.size := by
  obtain ⟨h, hk, hpath, -, hvalues⟩ := hr
  obtain ⟨v, hv, hlen⟩ : ∃ v, h (ascii "size") = some v ∧ r.values.getD 1 [] = v ∧ v.length = 8 := by
    have hw := r.widths
    match hvals : r.values with
    | [] => rw [hvals] at hw; cases hw
    | [_] => rw [hvals] at hw; simp [attributeWidths, Inspector.attributes] at hw
    | v₀ :: v₁ :: rest =>
      rw [hvals, Inspector.attributes] at hvalues
      rw [hvals, attributeWidths, Inspector.attributes] at hw
      simp only [List.map_cons, List.cons.injEq] at hvalues hw
      exact ⟨v₁, hvalues.2.1, rfl, hw.2.1⟩
  obtain ⟨hget, hlen⟩ := hlen
  have hbytes : leBytes 8 r.size = v := by
    rw [size, hget, ← hlen, leBytes_leNat]
  refine ⟨?_, r.path_lt, ?_, ?_⟩
  · rw [answer_of_hash hk hpath, copyString_of_le r.path_lt.le]
  · rw [answer_of_hash hk hv, copyString_of_le hlen.le, hbytes]
  · have hlt := leNat_lt v
    rw [hlen] at hlt
    rw [size, hget]
    exact hlt

end Record

/-- The attributes of a file after an inode has been compared with them. -/
theorem Record.In.update {r : Record} {d : Db KvStore.Key} {file : ℕ} {node : Inode × InodeStat}
    {h : List UInt8 → Option (List UInt8)} (hpath : h (ascii "path") = some r.path)
    (hoffset : h (ascii "inode_offset") = some (leBytes 8 r.offset))
    (hvalues : Inspector.attributes.map (fun a => h (ascii a.1)) = r.values.map some) :
    (r.update node).In (d.put (.file file) (some (.hash ((compareAll Inspector.attributes r.values
      (Inspector.newAttributes node)).foldl assign h)))) file := by
  have hnot : ∀ field, field ∉ Inspector.attributes.map (fun a => ascii a.1) →
      (compareAll Inspector.attributes r.values (Inspector.newAttributes node)).foldl assign h field =
        h field := by
    intro field hf
    refine foldl_assign_of_notMem fun v hv he => hf ?_
    exact List.mem_map.mpr ⟨_, mem_compareAll_name hv, he.symm⟩
  refine ⟨_, keys_put_self _, ?_, ?_, ?_⟩
  · rw [hnot _ (by decide)]
    exact hpath
  · rw [hnot _ (by decide)]
    exact hoffset
  · exact foldl_assign_compareAll (by decide) rfl hvalues

/-- The leaves of the extent tree of a file, in the store. -/
structure Leaves (d : Db KvStore.Key) (file : ℕ) (leaves : List ℕ) : Prop where
  list : d.listAt (.extents file) = some (leaves.map fun n : ℕ => reference "extent:" n)
  lt : ∀ n ∈ leaves, n < 2 ^ 64

namespace Inspector

/-! ## Extents the store already has -/

/-- What the store says of a file: its record, the sectors of its blocks and the blocks of its
extent tree. -/
structure Tracked (d : Db KvStore.Key) (file : ℕ) (r : Record) (sectors : List ℤ)
    (leaves : List ℕ) : Prop where
  id_lt : file < 2 ^ 64
  record : r.In d file
  sectors_eq : d.listAt (.filesectors file) = some (sectors.map sectorText)
  sectors_range : ∀ z ∈ sectors, -2 ^ 63 ≤ z ∧ z < 2 ^ 63
  sectors_length : sectors.length < 2 ^ 32
  points : ∀ z ∈ sectors, ∃ place, Points d file (u64 z) place
  leaves_eq : d.listAt (.extents file) = some (leaves.map fun n => reference "extent:" n)
  leaves_lt : ∀ n ∈ leaves, n < 2 ^ 64

theorem Tracked.leaves {d : Db KvStore.Key} {file : ℕ} {r : Record} {sectors : List ℤ}
    {leaves : List ℕ} (h : Tracked d file r sectors leaves) : Leaves d file leaves :=
  ⟨by simpa [← List.map_eq_flatMap, Function.comp_def] using h.leaves_eq, h.leaves_lt⟩

/-- The blocks of an extent are in the list of the file, and the store knows where. -/
def SameBlocks (u : Setup) (d : Db KvStore.Key) (file : ℕ) (sectors : List ℤ)
    (extent : Extent) : Prop :=
  extent.eeBlock < sectors.length ∧ ∀ i < extent.eeLen,
    sectors[i + extent.eeBlock]? = some (i64 (u.sectorOf (ext4ExtentStart extent + i))) ∧
    d.keys (.sector (u.sectorOf (ext4ExtentStart extent + i))) = some (.string
      (dataPointer (u64 ((i + extent.eeBlock : ℕ) * u.blockSize))
        (u64 (u64 ((i + extent.eeBlock : ℕ) * u.blockSize) + u.blockSize)) file))

/-- An extent tree with nothing in it that the store does not have. -/
def SameExtents (u : Setup) (d : Db KvStore.Key) (file : ℕ) (sectors : List ℤ)
    (leaves : List ℕ) (newb : Buffer) : Prop :=
  ∃ magic, field newb 0 2 = some magic ∧ (magic = 0xF30A → ∃ hdr, extentHeader newb = some hdr ∧
    ∀ k < hdr.ehEntries,
      if hdr.ehDepth = 0 then
        ∃ extent, extentAt newb k = some extent ∧ SameBlocks u d file sectors extent
      else ∃ idx, extentIdxAt newb k = some idx ∧
        (ext4ExtentIndexLeaf idx = 0 ∨ u.sectorOf (ext4ExtentIndexLeaf idx) ∈ leaves))

section Extents

variable {σ : Type} {c : Inspector σ} (L : Lawful c.service) {s : State σ} {d : Db KvStore.Key}
  {file size : ℕ} {path : List UInt8} {sectors : List ℤ} {leaves : List ℕ}

/-- A pass over a block of the file. -/
structure Over (c : Inspector σ) (d : Db KvStore.Key) (file : ℕ) (sectors : List ℤ) (p : Pass) :
    Prop where
  listed : ∃ z ∈ sectors, p.sector = u64 z
  points : Points d file p.sector p.place
  vars : ∃ n, p.vars = c.stack n

/-- The state after passes over blocks of the file. -/
def Passed (d : Db KvStore.Key) (file : ℕ) (path : List UInt8) (size writeCounter : ℕ)
    (sectors : List ℤ) (t : State σ) : Prop :=
  ∃ ps, (∀ p ∈ ps, Over c d file sectors p) ∧
    L.At t (Pass.runAll c.toSetup path size writeCounter ps d)

theorem Points.congr {e : Db KvStore.Key} {sector : ℕ} {place : Option (ℕ × ℕ)}
    (h : Points d file sector place) (he : e.keys (.sector sector) = d.keys (.sector sector)) :
    Points e file sector place := by
  cases place with
  | none => exact he.trans h
  | some p => exact ⟨h.1, h.2.1, he.trans h.2.2⟩

theorem listAt_congr {e : Db KvStore.Key} {k : KvStore.Key} (h : e.keys k = d.keys k) :
    e.listAt k = d.listAt k := by
  simp only [Db.listAt, h]

/-- One more pass. -/
theorem reinspect_passed (hown : L.Own) (hc : c.Geometry) (hfile : file < 2 ^ 64)
    (hk : Known d file path size) {writeCounter fuel : ℕ} {z : ℤ} (hz : z ∈ sectors)
    {place : Option (ℕ × ℕ)} (hp : Points d file (u64 z) place)
    (hs : Passed L d file path size writeCounter sectors s) :
    Ensures (c.reinspectWrite (c.deepInspect writeCounter (fuel + 1)) (u64 z)) s fun _ t =>
      ∃ ps, (∀ p ∈ ps, Over c d file sectors p) ∧ (∃ p ∈ ps, p.sector = u64 z) ∧
        L.At t (Pass.runAll c.toSetup path size writeCounter ps d) := by
  obtain ⟨ps, hps, hat⟩ := hs
  have hkeys : ∀ {k : KvStore.Key}, (∀ n, k ≠ .qsector n) →
      (Pass.runAll c.toSetup path size writeCounter ps d).keys k = d.keys k :=
    fun hk => Pass.runAll_keys fun p _ => hk p.sector
  refine (reinspectWrite_at L hown hc hat hfile (hk.congr (hkeys (by simp))) (u64_lt z)
    (hp.congr (hkeys (by simp))) writeCounter fuel).mono ?_
  rintro _ t ⟨p, hsector, hplace, hvars, ht⟩
  refine ⟨ps ++ [p], ?_, ⟨p, by simp, hsector⟩, ?_⟩
  · intro q hq
    rcases List.mem_append.mp hq with h | h
    · exact hps q h
    · rw [List.mem_singleton] at h
      rw [h]
      exact ⟨⟨z, hz, hsector⟩, by rw [hsector, hplace]; exact hp, hvars⟩
  · rw [Pass.runAll_append]
    exact ht

theorem u64_i64 {n : ℕ} (h : n < 2 ^ 64) : u64 (i64 n) = n := by
  unfold u64 i64
  omega

theorem sectorOf_lt (u : Setup) (block : ℕ) : u.sectorOf block < 2 ^ 64 :=
  lt_of_le_of_lt (Nat.div_le_self _ _) (u64_lt _)

/-- A block that is put where it already is. -/
theorem placeBlock_passed (hown : L.Own) (hc : c.Geometry) (hfile : file < 2 ^ 64)
    (hk : Known d file path size) (hl : d.listAt (.filesectors file) = some (sectors.map sectorText))
    {writeCounter fuel : ℕ} {extent : Extent} (he : SameBlocks c.toSetup d file sectors extent) {i : ℕ}
    (hi : i < extent.eeLen) (hs : Passed L d file path size writeCounter sectors s) :
    Ensures (c.placeBlock (c.deepInspect writeCounter (fuel + 1)) file (i + extent.eeBlock)
      (c.sectorOf (ext4ExtentStart extent + i)) (redisFileSectorsLset file (i + extent.eeBlock)
        (i64 (c.sectorOf (ext4ExtentStart extent + i))))) s
      fun _ t => Passed L d file path size writeCounter sectors t := by
  obtain ⟨hsector, hpointer⟩ := he.2 i hi
  set x := c.sectorOf (ext4ExtentStart extent + i) with hx
  obtain ⟨ps, hps, hat⟩ := hs
  have hkeys : ∀ {k : KvStore.Key}, (∀ n, k ≠ .qsector n) →
      (Pass.runAll c.toSetup path size writeCounter ps d).keys k = d.keys k :=
    fun hk => Pass.runAll_keys fun p _ => hk p.sector
  have hlset : (Pass.runAll c.toSetup path size writeCounter ps d).after (redisFileSectorsLset file
      (i + extent.eeBlock) (i64 x)) = Pass.runAll c.toSetup path size writeCounter ps d := by
    refine after_lset_same ((listAt_congr (hkeys (by simp))).trans hl) ?_
    rw [List.getElem?_map, hsector]
    rfl
  unfold placeBlock
  refine (append_at L hat (by simp [redisFileSectorsLset])).bind fun _ t₁ ht₁ => ?_
  rw [hlset] at ht₁
  refine (append_at L ht₁ (by simp)).bind fun _ t₂ ht₂ => ?_
  rw [after_set_same ((hkeys (by simp)).trans hpointer)] at ht₂
  have hz : u64 (i64 x) = x := u64_i64 (sectorOf_lt c.toSetup _)
  have hmem : i64 x ∈ sectors := List.mem_of_getElem? hsector
  have hp : Points d file (u64 (i64 x)) (some (u64 ((i + extent.eeBlock : ℕ) * c.blockSize),
      u64 (u64 ((i + extent.eeBlock : ℕ) * c.blockSize) + c.blockSize))) := by
    rw [hz]
    exact ⟨u64_lt _, u64_lt _, hpointer⟩
  rw [← hz]
  refine (reinspect_passed L hown hc hfile hk hmem hp ⟨ps, hps, ht₂⟩).mono ?_
  rintro _ t ⟨qs, hqs, -, hat⟩
  exact ⟨qs, hqs, hat⟩

theorem diffExtent_passed (hown : L.Own) (hc : c.Geometry) (hfile : file < 2 ^ 64)
    (hk : Known d file path size) (hl : d.listAt (.filesectors file) = some (sectors.map sectorText))
    {writeCounter fuel : ℕ} {extent : Extent} (he : SameBlocks c.toSetup d file sectors extent)
    (hs : Passed L d file path size writeCounter sectors s) :
    Ensures (c.diffExtent (c.deepInspect writeCounter (fuel + 1)) file sectors.length extent) s
      fun _ t => Passed L d file path size writeCounter sectors t := by
  unfold diffExtent
  simp only [if_pos he.1]
  refine ensures_forM (fun i hi t ht => ?_) hs
  rw [List.mem_range] at hi
  have hlt : i + extent.eeBlock < sectors.length :=
    (List.getElem?_eq_some_iff.mp (he.2 i hi).1).1
  rw [if_pos hlt]
  exact placeBlock_passed L hown hc hfile hk hl he hi ht

/-- `LINSERT` does not find the number of an element in the list. -/
theorem dec_notMem_references (n : ℕ) (leaves : List ℕ) :
    dec n ∉ leaves.map fun m : ℕ => reference "extent:" m := by
  intro h
  obtain ⟨m, -, hm⟩ := List.mem_map.mp h
  have hfirst : (101 : UInt8) ∈ dec n := by
    rw [← hm]
    exact List.mem_append_left _ (by decide)
  exact absurd (dec_isDigit n 101 hfirst) (by decide)

theorem insertLeaf_at (hd : Leaves d file leaves) (hs : L.At s d) (sector i : ℕ) (rest : List ℕ) :
    Ensures (c.insertLeaf file sector i rest) s fun _ t => L.At t d := by
  induction rest generalizing s i with
  | nil => exact ensures_pure hs
  | cons old rest ih =>
    rw [insertLeaf]
    split
    · exact ensures_pure hs
    · split
      · refine (append_at L hs (by simp [redisExtentsLinsert])).bind fun _ t ht => ?_
        rw [redisExtentsLinsert, after_linsert_same hd.list (dec_notMem_references i leaves)] at ht
        exact ih ht _
      · exact ih hs _

theorem tokens_reference {name : String} {text : List UInt8} (hname : ascii name = text ++ [58])
    (hne : text ≠ []) (h0 : 0 ∉ text) (h58 : 58 ∉ text) {n : ℕ} (hn : n < 2 ^ 64) :
    (tokens (reference name n))[1]? = some (dec n) := by
  rw [reference, u64_of_range (by omega) (by exact_mod_cast hn), hname, Int.toNat_natCast,
    tokens_named hne h0 h58]
  rfl

theorem readLeaves_at (hs : L.At s d) (hlt : ∀ n ∈ leaves, n < 2 ^ 64) (vars : ℕ → UInt8) :
    Ensures ((leaves.map fun n : ℕ => reference "extent:" n).zipIdx.mapM fun p =>
      pointerTarget (leNat (junk vars (8 * p.2) 8)) p.1) s fun ns t => ns = leaves ∧ L.At t d := by
  refine ensures_mapM (I := fun t => L.At t d) ?_ hs
  generalize 0 = i
  induction leaves generalizing i with
  | nil => exact .nil
  | cons n leaves ih =>
    refine .cons (fun t ht => .of_eq (pointerTarget_eq (tokens_reference
      (show ascii "extent:" = ascii "extent" ++ [58] from rfl) (by decide) (by decide) (by decide)
      (hlt n List.mem_cons_self))) ⟨scanInto_dec _ n, ht⟩) ?_
    exact ih (fun m hm => hlt m (List.mem_cons_of_mem n hm)) (i + 1)

/-- An index entry whose leaf is in the list. -/
theorem diffExtentIdx_passed (hd : Leaves d file leaves) {writeCounter : ℕ} {idx : ExtentIdx}
    (hleaf : ext4ExtentIndexLeaf idx = 0 ∨ c.sectorOf (ext4ExtentIndexLeaf idx) ∈ leaves)
    (inspect : BdrvWrite → Act σ Unit) (hs : Passed L d file path size writeCounter sectors s) :
    Ensures (c.diffExtentIdx inspect file leaves idx) s fun _ t =>
      Passed L d file path size writeCounter sectors t := by
  unfold diffExtentIdx
  by_cases hzero : ext4ExtentIndexLeaf idx = 0
  · simp only [if_pos hzero]
    exact ensures_pure hs
  · have hmem := hleaf.resolve_left hzero
    have hlen : leaves.length ≠ 0 := fun h => by
      rw [List.eq_nil_of_length_eq_zero h] at hmem
      cases hmem
    simp only [if_neg hzero, if_neg hlen]
    obtain ⟨ps, hps, hat⟩ := hs
    have hkey : (Pass.runAll c.toSetup path size writeCounter ps d).keys (.extents file) =
        d.keys (.extents file) := Pass.runAll_keys fun p _ => by simp
    exact (insertLeaf_at L ⟨(listAt_congr hkey).trans hd.list, hd.lt⟩ hat _ _ _).mono
      fun _ t ht => ⟨ps, hps, ht⟩

theorem oldFileLen_eq {l : List (List UInt8)} (hl : d.listAt (.filesectors file) = some l)
    (hlen : l.length < 2 ^ 64) :
    u64 (asCount (answer d (redisFileSectorsLlen file))) = l.length := by
  rw [redisFileSectorsLlen, answer_llen hl, asCount, u64_of_range (by omega) (by omega)]
  rfl

/-- What comes before and after the loop over the entries of a node. -/
theorem diffExt4Extents_entries (hs : L.At s d) {newb : Buffer} {magic : ℕ}
    (hmagic : field newb 0 2 = some magic) {hdr : ExtentHeader}
    (hhdr : (if magic = 0xF30A then extentHeader newb else some ⟨0, 0⟩) = some hdr)
    (hd : Leaves d file leaves) (inspect : BdrvWrite → Act σ Unit) :
    ∃ t, L.At t d ∧ c.diffExt4Extents inspect file newb s = (do
      (List.range hdr.ehEntries).forM (c.diffEntry inspect file
        (u64 (asCount (answer d (redisFileSectorsLlen file)))) leaves hdr newb)
      c.flush : Act σ Unit) t := by
  obtain ⟨vars, t₁, ⟨-, ht₁⟩, h₁⟩ := (enter_at L hs).bind_eq
  obtain ⟨_, t₂, ⟨rfl, ht₂⟩, h₂⟩ :=
    (@query_at σ c L t₁ d (redisFileSectorsLlen file) ht₁ nofun rfl).bind_eq
  obtain ⟨_, t₃, ⟨rfl, ht₃⟩, h₃⟩ :=
    (@query_at σ c L t₂ d (redisExtentsLget file) ht₂ nofun rfl).bind_eq
  obtain ⟨ns, t₄, ⟨hns, ht₄⟩, h₄⟩ := (readLeaves_at L ht₃ hd.lt vars).bind_eq
  rw [hns] at h₄
  have helements : asElements (answer d (redisExtentsLget file)) =
      some (leaves.map fun n : ℕ => reference "extent:" n) := by
    rw [redisExtentsLget, answer_lrange hd.list]
    rfl
  refine ⟨t₄, ht₄, ?_⟩
  unfold diffExt4Extents
  rw [h₁, hmagic]
  refine (bind_of_eq (t := t₁) (a := magic) rfl _).trans ?_
  rw [hhdr]
  refine (bind_of_eq (t := t₁) (a := hdr) rfl _).trans ?_
  rw [h₂, h₃, helements]
  exact (bind_of_eq (t := t₃) rfl _).trans (h₄ _)

/-- An inode or a block of a tree that says what the store already says. -/
theorem diffExt4Extents_passed (hown : L.Own) (hc : c.Geometry) {r : Record}
    (ht : Tracked d file r sectors leaves) {writeCounter fuel : ℕ} {newb : Buffer}
    (hsame : SameExtents c.toSetup d file sectors leaves newb) (hs : L.At s d) :
    Ensures (c.diffExt4Extents (c.deepInspect writeCounter (fuel + 1)) file newb) s fun _ t =>
      Passed L d file r.path r.size writeCounter sectors t := by
  obtain ⟨magic, hmagic, hrest⟩ := hsame
  obtain ⟨hdr, hhdr, hentries⟩ : ∃ hdr,
      (if magic = 0xF30A then extentHeader newb else some ⟨0, 0⟩) = some hdr ∧
      ∀ k < hdr.ehEntries, if hdr.ehDepth = 0 then
        ∃ extent, extentAt newb k = some extent ∧ SameBlocks c.toSetup d file sectors extent
      else ∃ idx, extentIdxAt newb k = some idx ∧
        (ext4ExtentIndexLeaf idx = 0 ∨ c.sectorOf (ext4ExtentIndexLeaf idx) ∈ leaves) := by
    by_cases h : magic = 0xF30A
    · rw [if_pos h]
      exact hrest h
    · rw [if_neg h]
      exact ⟨⟨0, 0⟩, rfl, fun k hk => absurd hk (Nat.not_lt_zero k)⟩
  have hlen : (sectors.map sectorText).length < 2 ^ 64 := by
    have h := ht.sectors_length
    rw [List.length_map]
    omega
  obtain ⟨t₄, ht₄, hrun⟩ := diffExt4Extents_entries L hs hmagic hhdr ht.leaves
    (c.deepInspect writeCounter (fuel + 1))
  rw [oldFileLen_eq ht.sectors_eq hlen, List.length_map] at hrun
  refine Ensures.of_outcome hrun (Ensures.bind
    (P := fun _ t => Passed L d file r.path r.size writeCounter sectors t) ?_ ?_)
  swap
  · rintro _ t ⟨ps, hps, hat⟩
    exact (flush_at L hat).mono fun _ u hu => ⟨ps, hps, hu⟩
  refine ensures_forM (fun k hk t hpassed => ?_) ⟨[], by simp, ht₄⟩
  have hentry := hentries k (List.mem_range.mp hk)
  unfold diffEntry
  by_cases hdepth : hdr.ehDepth = 0
  · rw [if_pos hdepth] at hentry
    obtain ⟨extent, hextent, hblocks⟩ := hentry
    rw [if_neg (not_not.mpr hdepth), hextent]
    refine ensures_bind_of_eq (t := t) (a := extent) rfl ?_
    exact diffExtent_passed L hown hc ht.id_lt ht.record.known ht.sectors_eq hblocks hpassed
  · rw [if_neg hdepth] at hentry
    obtain ⟨idx, hidx, hleaf⟩ := hentry
    rw [if_pos hdepth, hidx]
    refine ensures_bind_of_eq (t := t) (a := idx) rfl ?_
    exact diffExtentIdx_passed L ht.leaves hleaf _ hpassed

end Extents

/-! ## An inode -/

section Inode

variable {σ : Type} {c : Inspector σ} (L : Lawful c.service) {s : State σ} {d : Db KvStore.Key}
  {file : ℕ} {r : Record} {sectors : List ℤ} {leaves : List ℕ}

theorem sdec_noNul (z : ℤ) : 0 ∉ sdec z := by
  unfold sdec
  split
  · rw [List.mem_cons, not_or]
    exact ⟨by decide, dec_noNul _⟩
  · exact dec_noNul _

theorem sdec_ne_nil (z : ℤ) : sdec z ≠ [] := by
  unfold sdec
  split
  · simp
  · exact dec_ne_nil _

theorem tokens_sectorText (z : ℤ) : tokens (sectorText z) = [ascii "sector", sdec z] := by
  have htext : sectorText z = ascii "sector" ++ [58] ++ sdec z := rfl
  have h58 : (58 : UInt8) ∉ sdec z := fun h => sdec_noColon z 58 h rfl
  refine tokens_of_intercalate (by simp [htext, List.intercalate]) (by simp) ?_ ?_ ?_
  · rw [htext, List.mem_append, List.mem_append, not_or, not_or]
    exact ⟨⟨by decide, by decide⟩, sdec_noNul z⟩
  · simp only [List.mem_cons, List.not_mem_nil, or_false, forall_eq_or_imp, forall_eq]
    exact ⟨by decide, h58⟩
  · simp only [List.mem_cons, List.not_mem_nil, or_false, forall_eq_or_imp, forall_eq]
    exact ⟨by decide, sdec_ne_nil z⟩

theorem sectorText_length {z : ℤ} (hl : -2 ^ 63 ≤ z) (hu : z < 2 ^ 63) :
    (sectorText z).length ≤ 64 := by
  have hdec : (dec z.natAbs).length ≤ 20 := dec_length_le (by decide) (by omega)
  have hsdec : (sdec z).length ≤ 21 := by
    unfold sdec
    split
    · rw [List.length_cons]
      omega
    · omega
  have hname : (ascii "sector:").length = 7 := rfl
  rw [sectorText, List.length_append]
  omega

theorem lastFileSector_at (hs : L.At s d)
    (hl : d.listAt (.filesectors file) = some (sectors.map sectorText)) {z : ℤ}
    (hz : sectors.getLast? = some z) (hrange : -2 ^ 63 ≤ z ∧ z < 2 ^ 63) (old : ℕ) :
    Ensures (c.lastFileSector file old) s fun a t => a = u64 z ∧ L.At t d := by
  have hlast : (sectors.map sectorText).getLast? = some (sectorText z) := by
    rw [List.getLast?_map, hz]
    rfl
  have htext : sectorText z ≠ [] := by simp [sectorText, ascii]
  unfold lastFileSector
  refine (query_at L hs (by simp) rfl).bind ?_
  rintro _ t ⟨rfl, ht⟩
  rw [answer_lindex_last hl hlast, copyString_of_le (sectorText_length hrange.1 hrange.2)]
  rw [if_neg htext]
  have htoken : (tokens (sectorText z))[1]? = some (sdec z) := by
    rw [tokens_sectorText]
    rfl
  refine .of_eq (pointerTarget_eq htoken) ⟨?_, ht⟩
  rw [scanInto, scanU64_sdec z hrange.1 hrange.2]
  rfl

/-- The variables have the sizes of what is read into them. -/
structure InodeVars.Sized (v : InodeVars) : Prop where
  offset : v.offset.length = 8
  olds : v.olds.map List.length = attributeWidths

theorem inodeVars_sized (vars : ℕ → UInt8) : (inodeVars vars).Sized := by
  constructor
  · simp [inodeVars, junk]
  · simp [inodeVars, junk, attributeWidths, attributes, attributeWidth, List.range_succ]

/-- The store after an inode has been compared with the record of a file. -/
structure Updated (u : Setup) (d : Db KvStore.Key) (file : ℕ) (r : Record)
    (node : Inode × InodeStat) (e : Db KvStore.Key) : Prop where
  keys : ∀ k, k ≠ .file file → e.keys k = d.keys k
  record : (r.update node).In e file
  messages : ∃ ms, Notices (u.constructChannelName r.path) ms ∧ e.messages = d.messages ++ ms

theorem Updated.tracked {node : Inode × InodeStat} {e : Db KvStore.Key}
    (hu : Updated c.toSetup d file r node e) (ht : Tracked d file r sectors leaves) :
    Tracked e file (r.update node) sectors leaves where
  id_lt := ht.id_lt
  record := hu.record
  sectors_eq := (listAt_congr (hu.keys _ (by simp))).trans ht.sectors_eq
  sectors_range := ht.sectors_range
  sectors_length := ht.sectors_length
  points z hz := by
    obtain ⟨place, hp⟩ := ht.points z hz
    exact ⟨place, hp.congr (hu.keys _ (by simp))⟩
  leaves_eq := (listAt_congr (hu.keys _ (by simp))).trans ht.leaves_eq
  leaves_lt := ht.leaves_lt

theorem SameExtents.congr {u : Setup} {e : Db KvStore.Key} {newb : Buffer}
    (h : SameExtents u d file sectors leaves newb)
    (he : ∀ n, e.keys (.sector n) = d.keys (.sector n)) :
    SameExtents u e file sectors leaves newb := by
  obtain ⟨magic, hmagic, hrest⟩ := h
  refine ⟨magic, hmagic, fun hm => ?_⟩
  obtain ⟨hdr, hhdr, hentries⟩ := hrest hm
  refine ⟨hdr, hhdr, fun k hk => ?_⟩
  have hentry := hentries k hk
  by_cases hdepth : hdr.ehDepth = 0
  · rw [if_pos hdepth] at hentry ⊢
    obtain ⟨extent, hextent, hlt, hblocks⟩ := hentry
    exact ⟨extent, hextent, hlt, fun i hi => ⟨(hblocks i hi).1, (he _).trans (hblocks i hi).2⟩⟩
  · rw [if_neg hdepth] at hentry ⊢
    exact hentry

theorem updated_of_put {h : List UInt8 → Option (List UInt8)} {ms : List (List UInt8 × List UInt8)}
    (hms : Notices (c.constructChannelName r.path) ms) (hpath : h (ascii "path") = some r.path)
    (hoffset : h (ascii "inode_offset") = some (leBytes 8 r.offset))
    (hvalues : attributes.map (fun a => h (ascii a.1)) = r.values.map some)
    (node : Inode × InodeStat) :
    Updated c.toSetup d file r node (({ d with messages := d.messages ++ ms } : Db KvStore.Key).put
      (.file file) (some (.hash ((compareAll attributes r.values (newAttributes node)).foldl
        assign h)))) where
  keys _ hk := keys_put_of_ne hk _
  record := Record.In.update hpath hoffset hvalues
  messages := ⟨ms, hms, rfl⟩

theorem attributes_compare (r : Record) (node : Inode × InodeStat) :
    ∀ v ∈ compareAll attributes r.values (newAttributes node), Fits v :=
  compareAll_fits (by decide) r.widths (r.update node).widths

/-- What is known of a file once its attributes have been compared. -/
structure InodeFound where
  file : ℕ
  offset : List UInt8
  olds : List (List UInt8)
  new : Inode × InodeStat

/-- The attributes of one file of a block of inodes. -/
def diffAttributes (c : Inspector σ) (write : List UInt8) (writeCounter : ℕ) (v : InodeVars)
    (element : List UInt8) : Act σ InodeFound := do
  let file ← pointerTarget v.file element
  let r ← c.query (redisFileSectorGet file (ascii "path"))
  let path := copyString 4096 r
  if path.length = 4096 then defined none
  else do
    let offset ← c.getField redisFileSectorGet file "inode_offset" v.offset
    let channel := c.constructChannelName path
    let olds ← (attributes.zip v.olds).mapM fun p => c.getField redisFileSectorGet file p.1.1 p.2
    let new ← defined (inodeAt (bufferOf write) (leNat offset))
    let all := compareAll attributes olds (newAttributes new)
    all.forM (c.directFieldCompare "file." channel writeCounter)
    all.forM (c.setField redisFileSectorInsert file)
    pure ⟨file, offset, olds, new⟩

/-- Its extents, and its last block if it has grown. -/
def diffBlocks (c : Inspector σ) (inspect : BdrvWrite → Act σ Unit) (write : List UInt8)
    (lastSector : ℕ) (n : InodeFound) : Act σ InodeVars := do
  c.diffInodeExtents inspect write n.file (leNat n.offset) n.new.1
  let lastSector ← c.diffInodeSize inspect n.file (leNat (n.olds.getD 1 [])) (ext4FileSize n.new.1)
    lastSector
  pure ⟨n.file, n.offset, n.olds, lastSector⟩

omit L in
theorem diffInode_eq (inspect : BdrvWrite → Act σ Unit) (write : List UInt8) (writeCounter : ℕ)
    (v : InodeVars) (element : List UInt8) :
    c.diffInode inspect write writeCounter v element =
      c.diffAttributes write writeCounter v element >>= c.diffBlocks inspect write v.lastSector := by
  unfold diffInode diffAttributes
  simp only [bind_assoc]
  congr 1
  funext file
  congr 1
  funext r
  by_cases hpath : (copyString 4096 r).length = 4096
  · rw [if_pos hpath, if_pos hpath]
    rfl
  · rw [if_neg hpath, if_neg hpath]
    simp only [bind_assoc, pure_bind]
    rfl

/-- The attributes that have changed are reported and stored. -/
theorem diffAttributes_at (hid : file < 2 ^ 64) (hr : r.In d file) (hs : L.At s d) {v : InodeVars}
    (hv : v.Sized) {write : List UInt8} {node : Inode × InodeStat}
    (hnode : inodeAt (bufferOf write) r.offset = some node) (writeCounter : ℕ) :
    Ensures (c.diffAttributes write writeCounter v (reference "file:" file)) s fun n t =>
      n = ⟨file, leBytes 8 r.offset, r.values, node⟩ ∧ ∃ e, Updated c.toSetup d file r node e ∧
        e.messages = d.messages ++ notices (c.constructChannelName r.path) "file." writeCounter
          (compareAll attributes r.values (newAttributes node)) ∧ L.At t e := by
  obtain ⟨h, hk, hpath, hoffset, hvalues⟩ := hr
  have hoff : leNat (leBytes 8 r.offset) = r.offset := leNat_leBytes_of_lt r.offset_lt
  have htoken := tokens_reference (show ascii "file:" = ascii "file" ++ [58] from rfl) (by decide)
    (by decide) (by decide) hid
  unfold diffAttributes
  refine ensures_bind_of_eq (pointerTarget_eq htoken) ?_
  rw [scanInto_dec]
  refine (query_at L hs (by simp [redisFileSectorGet]) rfl).bind ?_
  rintro _ t₁ ⟨rfl, ht₁⟩
  rw [Record.answer_of_hash hk hpath, copyString_of_le r.path_lt.le, if_neg r.path_lt.ne]
  refine (getField_hash L (fun _ => rfl) ht₁ hk hoffset (by rw [leBytes_length, hv.offset])).bind ?_
  rintro _ t₂ ⟨rfl, ht₂⟩
  refine (getFields_at L (fun _ => rfl) ht₂ hk
    (by rw [← List.length_map (f := List.length), hv.olds]; rfl) (hv.olds.trans r.widths.symm)
    hvalues).bind ?_
  rintro _ t₃ ⟨rfl, ht₃⟩
  rw [hoff, hnode]
  refine ensures_bind_of_eq (t := t₃) (a := node) rfl ?_
  refine (compareFields_at L (by decide) ht₃ (attributes_compare r node) _ _).bind ?_
  intro _ t₄ ht₄
  refine (setFields_at L (fun _ _ => rfl) ht₄ hk _).bind fun _ t₅ ht₅ => ?_
  exact ensures_pure ⟨rfl, _, updated_of_put (notices_notices _ _ _ _) hpath hoffset hvalues node,
    rfl, ht₅⟩

/-- The last block of a file that has grown. -/
theorem diffInodeSize_at (hown : L.Own) (hc : c.Geometry) (ht : Tracked d file r sectors leaves)
    {writeCounter fuel : ℕ} (hs : Passed L d file r.path r.size writeCounter sectors s)
    {size newSize : ℕ} (hgrow : size < newSize → sectors ≠ []) (lastSector : ℕ) :
    Ensures (c.diffInodeSize (c.deepInspect writeCounter (fuel + 1)) file size newSize lastSector) s
      fun _ t => ∃ ps, (∀ p ∈ ps, Over c d file sectors p) ∧
        (size < newSize → ∃ z, sectors.getLast? = some z ∧ ∃ p ∈ ps, p.sector = u64 z) ∧
        L.At t (Pass.runAll c.toSetup r.path r.size writeCounter ps d) := by
  obtain ⟨ps, hps, hat⟩ := hs
  unfold diffInodeSize
  by_cases hlt : size < newSize
  · rw [if_pos hlt]
    have hne := hgrow hlt
    obtain ⟨z, hz⟩ : ∃ z, sectors.getLast? = some z :=
      ⟨_, List.getLast?_eq_some_getLast hne⟩
    have hmem : z ∈ sectors := List.mem_of_getLast? hz
    have hkey : (Pass.runAll c.toSetup r.path r.size writeCounter ps d).keys (.filesectors file) =
        d.keys (.filesectors file) := Pass.runAll_keys fun p _ => by simp
    refine (lastFileSector_at L hat ((listAt_congr hkey).trans ht.sectors_eq) hz
      (ht.sectors_range z hmem) lastSector).bind ?_
    rintro _ t₁ ⟨rfl, ht₁⟩
    obtain ⟨place, hp⟩ := ht.points z hmem
    refine (reinspect_passed L hown hc ht.id_lt ht.record.known hmem hp ⟨ps, hps, ht₁⟩).bind ?_
    rintro _ t₂ ⟨qs, hqs, hlast, ht₂⟩
    exact ensures_pure ⟨qs, hqs, fun _ => ⟨z, hz, hlast⟩, ht₂⟩
  · rw [if_neg hlt]
    exact ensures_pure ⟨ps, hps, fun h => absurd h hlt, hat⟩

theorem diffInode_at (hown : L.Own) (hc : c.Geometry) (ht : Tracked d file r sectors leaves)
    (hs : L.At s d) {v : InodeVars} (hv : v.Sized) {write : List UInt8} {node : Inode × InodeStat}
    (hnode : inodeAt (bufferOf write) r.offset = some node)
    (hsame : hasExtents node.1.iMode →
      SameExtents c.toSetup d file sectors leaves (bufferOf (write.drop (r.offset + 40))))
    (hgrow : r.size < ext4FileSize node.1 → sectors ≠ []) (writeCounter fuel : ℕ) :
    Ensures (c.diffInode (c.deepInspect writeCounter (fuel + 1)) write writeCounter v
      (reference "file:" file)) s fun v' t => v'.Sized ∧ ∃ e ps, Updated c.toSetup d file r node e ∧
        (∀ p ∈ ps, Over c e file sectors p) ∧
        (r.size < ext4FileSize node.1 → ∃ z, sectors.getLast? = some z ∧ ∃ p ∈ ps, p.sector = u64 z) ∧
        L.At t (Pass.runAll c.toSetup r.path (r.update node).size writeCounter ps e) := by
  rw [diffInode_eq]
  refine (diffAttributes_at L ht.id_lt ht.record hs hv hnode writeCounter).bind ?_
  rintro _ t₅ ⟨rfl, e, hu, -, ht₅⟩
  have hte := hu.tracked ht
  have hoff : leNat (leBytes 8 r.offset) = r.offset := leNat_leBytes_of_lt r.offset_lt
  unfold diffBlocks
  dsimp only
  rw [hoff]
  have hextents : Ensures (c.diffInodeExtents (c.deepInspect writeCounter (fuel + 1)) write file
      r.offset node.1) t₅ fun _ t =>
        Passed L e file r.path (r.update node).size writeCounter sectors t := by
    unfold diffInodeExtents
    split
    · rename_i hmode
      exact diffExt4Extents_passed L hown hc hte
        ((hsame hmode).congr fun n => hu.keys _ (by simp)) ht₅
    · exact ensures_pure ⟨[], by simp, ht₅⟩
  refine hextents.bind fun _ t₆ ht₆ => ?_
  refine (diffInodeSize_at L hown hc hte ht₆ hgrow _).bind ?_
  rintro lastSector t₇ ⟨ps, hps, hlast, ht₇⟩
  refine ensures_pure ⟨⟨leBytes_length 8 _, r.widths⟩, e, ps, hu, hps, hlast, ht₇⟩

end Inode

end Inspector

end GammaRay.Inspect
