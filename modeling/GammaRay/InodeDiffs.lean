import GammaRay.InodeReports
import GammaRay.WriteOrder

set_option autoImplicit false

/-!
# Inspecting a block of inodes

`__diff_inodes` on a block whose files have their attributes in the store: whether it reports the
attributes that have changed and no others, leaves those of the inodes, and is silent when it is
given the same block again.
-/
namespace GammaRay.Inspect
open Bytes Decimal Redis KvStore Bson Ext4 Total Simulation

theorem reference_inj {name : String} {a b : ℕ} (ha : a < 2 ^ 64) (hb : b < 2 ^ 64)
    (h : reference name a = reference name b) : a = b := by
  rw [reference, reference, u64_of_range (by omega) (by exact_mod_cast ha),
    u64_of_range (by omega) (by exact_mod_cast hb)] at h
  exact dec_injective (List.append_cancel_left h)

theorem compareAll_same {names : List (String × BsonType)} {values : List (List UInt8)} :
    ∀ v ∈ compareAll names values values, v.old = v.new := by
  have hsame : ∀ q ∈ values.zip values, q.1 = q.2 := by
    induction values with
    | nil => simp
    | cons x values ih => simpa using ih
  intro v hv
  obtain ⟨p, hp, rfl⟩ := List.mem_map.mp hv
  exact hsame _ (List.of_mem_zip hp).2

namespace Record

variable {r r' : Record} {d e : Db KvStore.Key} {file : ℕ}

theorem In.congr (h : r.In d file) (he : e.keys (.file file) = d.keys (.file file)) :
    r.In e file := by
  obtain ⟨fields, hk, hrest⟩ := h
  exact ⟨fields, he.trans hk, hrest⟩

/-- The store has one record of a file. -/
theorem In.unique (h : r.In d file) (h' : r'.In d file) : r = r' := by
  obtain ⟨fields, hk, hpath, hoffset, hvalues⟩ := h
  obtain ⟨fields', hk', hpath', hoffset', hvalues'⟩ := h'
  rw [hk, Option.some.injEq, Redis.Value.hash.injEq] at hk'
  subst hk'
  rw [hpath, Option.some.injEq] at hpath'
  rw [hoffset, Option.some.injEq] at hoffset'
  have hread : leNat (leBytes 8 r.offset) = r.offset := leNat_leBytes_of_lt r.offset_lt
  have hread' : leNat (leBytes 8 r'.offset) = r'.offset := leNat_leBytes_of_lt r'.offset_lt
  have hoff : r.offset = r'.offset := by rw [← hread, hoffset', hread']
  have hvals : r.values = r'.values :=
    List.map_injective_iff.mpr (Option.some_injective _) (hvalues.symm.trans hvalues')
  cases r
  cases r'
  simp only [Record.mk.injEq]
  exact ⟨hpath', hoff, hvals⟩

end Record

/-- A message for every attribute in which the record and the inode of a file differ. -/
def Setup.attributeNotices (u : Setup) (writeCounter : ℕ) (r : Record)
    (node : Inode × InodeStat) : List (List UInt8 × List UInt8) :=
  notices (u.constructChannelName r.path) "file." writeCounter
    (compareAll Inspector.attributes r.values (Inspector.newAttributes node))

/-- One file is handled: the attributes that differ from those of its inode are reported, the
others are not, and those of the inode are stored. -/
def Setup.DiffsFile (u : Setup) (write : List UInt8) (writeCounter : ℕ) (element : List UInt8)
    (d e : Db KvStore.Key) : Prop :=
  ∃ file r node, file < 2 ^ 64 ∧ element = reference "file:" (file : ℕ) ∧ r.In d file ∧
    inodeAt (bufferOf write) r.offset = some node ∧
    metadata e = metadata d ++ u.attributeNotices writeCounter r node ∧
    (r.update node).In e file ∧ ∀ n ≠ file, e.keys (.file n) = d.keys (.file n)

/-- No report, and no record has changed. -/
def KeepsRecords (d e : Db KvStore.Key) : Prop :=
  metadata e = metadata d ∧ ∀ n, e.keys (.file n) = d.keys (.file n)

/-- The list of the files of a block, and what the store and the block say of them. -/
structure InodeList (d : Db KvStore.Key) (list : ℕ) (ids : List ℕ) (write : List UInt8) : Prop where
  list_lt : list < 2 ^ 64
  ids_lt : ∀ id ∈ ids, id < 2 ^ 64
  listed : d.listAt (.files list) = some (ids.map fun n : ℕ => reference "file:" n)
  records : ∀ id ∈ ids, ∃ (r : Record) (node : Inode × InodeStat), r.In d id ∧
    inodeAt (bufferOf write) r.offset = some node

namespace Inspector

section Def

variable {σ : Type} (c : Inspector σ) (L : Lawful c.service) (fuel : ℕ) (write pointer : List UInt8)

/-- The files of a block. -/
def listFiles : Act σ (List (List UInt8) × InodeVars) := do
  let vars ← c.enter
  let lfiles ← pointerTarget 0 pointer
  let r ← c.query (redisFilesLget lfiles)
  let list ← defined (asElements r)
  pure (list, inodeVars vars)

theorem diffInodes_eq (inspect : BdrvWrite → Act σ Unit) (writeCounter : ℕ) :
    c.diffInodes inspect write writeCounter pointer = (do
      let p ← c.listFiles pointer
      let _ ← p.1.foldlM (c.diffInode inspect write writeCounter) p.2
      pure ()) := by
  unfold diffInodes listFiles
  simp only [bind_assoc, pure_bind]

/-- A block of inodes is inspected, every file is handled as `R` says, and `Q` holds then. -/
def HandlesFiles (writeCounter : ℕ) (R : List UInt8 → Db KvStore.Key → Db KvStore.Key → Prop)
    (Q : State σ → Prop) (s : State σ) : Prop :=
  Ensures (c.listFiles pointer) s fun p t => Rounds (fun v element s K =>
    Ensures (c.diffInode (c.deepInspect writeCounter fuel) write writeCounter v element) s
      fun v' t => R element (L.db s.store) (L.db t.store) ∧ K v' t) Q p.1 p.2 t

/-- For every file of a block the inspection of its extents and of its last block returns and
publishes nothing about metadata. -/
def BlocksSilent (writeCounter : ℕ) (Q : State σ → Prop) (s : State σ) : Prop :=
  Ensures (c.listFiles pointer) s fun p t => Rounds (fun v element s K =>
    Ensures (c.diffAttributes write writeCounter v element) s fun n t =>
      Ensures (c.diffBlocks (c.deepInspect writeCounter fuel) write v.lastSector n) t
        fun v' u => metadata (L.db u.store) = metadata (L.db t.store) ∧ K v' u) Q p.1 p.2 t

/-- A block of inodes is inspected twice. -/
def DiffsExactly (writeCounter writeCounter' : ℕ) (s : State σ) : Prop :=
  HandlesFiles c L fuel write pointer writeCounter (c.DiffsFile write writeCounter)
    (HandlesFiles c L fuel write pointer writeCounter' (fun _ => KeepsRecords) fun _ => True) s

end Def

section Rounds

variable {σ : Type} {c : Inspector σ} (L : Lawful c.service) {fuel : ℕ} {write : List UInt8}
  {writeCounter list : ℕ} {ids : List ℕ} {s : State σ} {d : Db KvStore.Key}

theorem listFiles_at (hlist : list < 2 ^ 64)
    (hl : d.listAt (.files list) = some (ids.map fun n : ℕ => reference "file:" n))
    (hs : L.At s d) :
    Ensures (c.listFiles (reference "lfiles:" list)) s fun p t =>
      p.1 = (ids.map fun n : ℕ => reference "file:" n) ∧ p.2.Sized ∧ L.At t d := by
  have htoken := tokens_reference (show ascii "lfiles:" = ascii "lfiles" ++ [58] from rfl)
    (by decide) (by decide) (by decide) hlist
  unfold listFiles
  refine (enter_at L hs).bind fun vars t₁ h₁ => ?_
  refine ensures_bind_of_eq (pointerTarget_eq htoken) ?_
  rw [scanInto_dec]
  refine (query_at L h₁.2 (by simp [redisFilesLget]) rfl).bind ?_
  rintro _ t₂ ⟨rfl, h₂⟩
  rw [redisFilesLget, answer_lrange hl]
  refine ensures_bind_of_eq (t := t₂) (a := ids.map fun n : ℕ => reference "file:" n) rfl ?_
  exact ensures_pure ⟨rfl, inodeVars_sized vars, h₂⟩

/-- What a file leaves that is handled, if nothing happens to the records on the way through its
blocks. -/
structure Diffed (u : Setup) (writeCounter file : ℕ) (r : Record) (node : Inode × InodeStat)
    (d e : Db KvStore.Key) : Prop where
  updated : Updated u d file r node e
  metadata_eq : metadata e = metadata d ++ u.attributeNotices writeCounter r node
  reports : Reports d e

/-- One file: it is handled as `R` says just when its blocks are silent, if that is what `R` comes
to. -/
theorem round_iff {file : ℕ} (hid : file < 2 ^ 64) {r : Record} (hr : r.In d file)
    {node : Inode × InodeStat} (hnode : inodeAt (bufferOf write) r.offset = some node)
    (hs : L.At s d) {v : InodeVars} (hv : v.Sized)
    {R : Db KvStore.Key → Db KvStore.Key → Prop} {J : Db KvStore.Key → Prop}
    (hR : ∀ e f, Diffed c.toSetup writeCounter file r node d e → Reports e f →
      (R d f ↔ metadata f = metadata e) ∧ (metadata f = metadata e → J f))
    {K K' : InodeVars → State σ → Prop}
    (hK : ∀ v' t f, v'.Sized → J f → L.At t f → (K v' t ↔ K' v' t)) :
    Ensures (c.diffInode (c.deepInspect writeCounter fuel) write writeCounter v
        (reference "file:" file)) s
      (fun v' t => R (L.db s.store) (L.db t.store) ∧ K v' t) ↔
    Ensures (c.diffAttributes write writeCounter v (reference "file:" file)) s fun n t =>
      Ensures (c.diffBlocks (c.deepInspect writeCounter fuel) write v.lastSector n) t
        fun v' u => metadata (L.db u.store) = metadata (L.db t.store) ∧ K' v' u := by
  obtain ⟨n, t, ht, rfl, e, hu, hmessages, hat⟩ :=
    diffAttributes_at L hid hr hs hv hnode writeCounter
  obtain ⟨hsized, e', he, -, hdb⟩ := diffAttributes_reports hs hv write writeCounter _ _ t ht
  obtain rfl : e' = e := hdb.symm.trans hat.2
  have hdiffed : Diffed c.toSetup writeCounter file r node d e' :=
    ⟨hu, metadata_notices hmessages, he⟩
  rw [diffInode_eq, ensures_iff_of_eq ht, ensures_iff_outcome (bind_of_eq ht _)]
  refine Ensures.congr fun v' u hu => ?_
  obtain ⟨f, hf, hatf⟩ := diffBlocks_reports (fun d w => deepInspect_reports writeCounter fuel d w)
    hat write v.lastSector _ v' u hu
  have hv' := diffBlocks_sized _ write v.lastSector hsized v' u hu
  obtain ⟨hiff, hJ⟩ := hR e' f hdiffed hf
  rw [hs.2, hat.2, hatf.2, hiff]
  exact and_congr_right fun hsilent => hK v' u f hv' (hJ hsilent) hatf

/-- A whole block. -/
theorem handlesFiles_iff (hlist : list < 2 ^ 64)
    (hids : ∀ id ∈ ids, id < 2 ^ 64) {J : List (List UInt8) → Db KvStore.Key → Prop}
    (hl : d.listAt (.files list) = some (ids.map fun n : ℕ => reference "file:" n))
    {R : List UInt8 → Db KvStore.Key → Db KvStore.Key → Prop} {Q Q' : State σ → Prop}
    (hround : ∀ id ∈ ids, ∀ done d, J done d → ∃ r node, r.In d id ∧
      inodeAt (bufferOf write) r.offset = some node ∧
      ∀ e f, Diffed c.toSetup writeCounter id r node d e → Reports e f →
        (R (reference "file:" id) d f ↔ metadata f = metadata e) ∧
          (metadata f = metadata e → J (done ++ [reference "file:" id]) f))
    (hend : ∀ t e, J (ids.map fun n : ℕ => reference "file:" n) e → L.At t e → (Q t ↔ Q' t))
    (hd : J [] d) (hs : L.At s d) :
    HandlesFiles c L fuel write (reference "lfiles:" list) writeCounter R Q s ↔
      BlocksSilent c L fuel write (reference "lfiles:" list) writeCounter Q' s := by
  obtain ⟨⟨_, v⟩, t, ht, rfl, hv, hat⟩ := listFiles_at L hlist hl hs
  rw [HandlesFiles, BlocksSilent, ensures_iff_of_eq ht, ensures_iff_of_eq ht]
  refine rounds_iff (I := fun done v t => v.Sized ∧ ∃ e, J done e ∧ L.At t e) ?_ ?_
    ⟨hv, d, hd, hat⟩
  · rintro element helement done v t K K' ⟨hv, e, he, ht⟩ hK
    obtain ⟨id, hid, rfl⟩ := List.mem_map.mp helement
    obtain ⟨r, node, hr, hnode, hR⟩ := hround id hid done e he
    exact round_iff L (hids id hid) hr hnode ht hv hR fun v' u f hv' hf hu =>
      hK v' u ⟨hv', f, hf, hu⟩
  · rintro v t ⟨-, e, he, ht⟩
    exact hend t e he ht

end Rounds

section Exact

variable {σ : Type} {c : Inspector σ} (L : Lawful c.service) {fuel : ℕ} {write : List UInt8}
  {writeCounter writeCounter' list file : ℕ} {ids : List ℕ} {s : State σ}
  {d e f : Db KvStore.Key} {u : Setup} {r : Record} {node : Inode × InodeStat}

theorem diffsFile_iff (hfile : file < 2 ^ 64) (hr : r.In d file)
    (hnode : inodeAt (bufferOf write) r.offset = some node)
    (he : Diffed u writeCounter file r node d e) (hf : Reports e f) :
    u.DiffsFile write writeCounter (reference "file:" file) d f ↔ metadata f = metadata e := by
  constructor
  · rintro ⟨file', r', node', hfile', hname, hr', hnode', hmeta, -, -⟩
    obtain rfl := reference_inj hfile hfile' hname
    obtain rfl := hr.unique hr'
    obtain rfl : node = node' := Option.some.inj (hnode.symm.trans hnode')
    exact hmeta.trans he.metadata_eq.symm
  · intro hsilent
    have hkeys := hf.silent hsilent
    exact ⟨file, r, node, hfile, rfl, hr, hnode, hsilent.trans he.metadata_eq,
      he.updated.record.congr (hkeys file),
      fun n hn => (hkeys n).trans (he.updated.keys _ (by simpa using hn))⟩

theorem keepsRecords_iff (hr : r.values = newAttributes node)
    (he : Diffed u writeCounter file r node d e) (hf : Reports e f) :
    KeepsRecords d f ↔ metadata f = metadata e := by
  have hnone : u.attributeNotices writeCounter r node = [] := by
    rw [Setup.attributeNotices, hr]
    exact notices_eq_nil_iff.mpr compareAll_same
  have hmeta : metadata e = metadata d := by rw [he.metadata_eq, hnone, List.append_nil]
  refine ⟨fun h => h.1.trans hmeta.symm, fun h => ⟨h.trans hmeta, fun n => ?_⟩⟩
  rw [hf.silent h n, he.reports.silent hmeta n]

/-- The files of a block, of which those of `done` have the attributes of their inodes. -/
structure Handled (d : Db KvStore.Key) (list : ℕ) (ids : List ℕ) (write : List UInt8)
    (done : List (List UInt8)) : Prop where
  listed : d.listAt (.files list) = some (ids.map fun n : ℕ => reference "file:" n)
  records : ∀ id ∈ ids, ∃ (r : Record) (node : Inode × InodeStat), r.In d id ∧
    inodeAt (bufferOf write) r.offset = some node ∧
    (reference "file:" id ∈ done → r.values = newAttributes node)

theorem Handled.of_list (h : InodeList d list ids write) : Handled d list ids write [] where
  listed := h.listed
  records id hid := by
    obtain ⟨r, node, hr, hnode⟩ := h.records id hid
    exact ⟨r, node, hr, hnode, nofun⟩

/-- One more file. -/
theorem Handled.step {done : List (List UInt8)} (h : Handled d list ids write done)
    (hids : ∀ id ∈ ids, id < 2 ^ 64) (hfile : file ∈ ids)
    (hnode : inodeAt (bufferOf write) r.offset = some node)
    (he : Diffed u writeCounter file r node d e) (hf : Reports e f)
    (hsilent : metadata f = metadata e) :
    Handled f list ids write (done ++ [reference "file:" file]) where
  listed := (listAt_congr ((hf.lists list).trans (he.reports.lists list))).trans h.listed
  records id hid := by
    have hkeys := hf.silent hsilent id
    by_cases hsame : id = file
    · subst hsame
      exact ⟨r.update node, node, he.updated.record.congr hkeys, hnode, fun _ => rfl⟩
    · obtain ⟨r', node', hr', hnode', hdone⟩ := h.records id hid
      refine ⟨r', node', hr'.congr (hkeys.trans (he.updated.keys _ (by simpa using hsame))),
        hnode', fun hmem => hdone ?_⟩
      rcases List.mem_append.mp hmem with hmem | hmem
      · exact hmem
      · exact absurd (reference_inj (hids id hid) (hids file hfile) (List.mem_singleton.mp hmem))
          hsame

/-- A block of one file that has no extents and has not grown. -/
theorem blocksSilent_single (hlist : list < 2 ^ 64) (hfile : file < 2 ^ 64)
    (hl : d.listAt (.files list) = some ([file].map fun n : ℕ => reference "file:" n))
    (hr : r.In d file)
    (hnode : inodeAt (bufferOf write) r.offset = some node)
    (hplain : ¬ hasExtents node.1.iMode)
    (hsize : ext4FileSize node.1 ≤ leNat (r.values.getD 1 [])) (hs : L.At s d) {Q : State σ → Prop}
    (hQ : ∀ t e, Updated c.toSetup d file r node e → L.At t e → Q t) :
    BlocksSilent c L fuel write (reference "lfiles:" list) writeCounter Q s := by
  refine (listFiles_at L hlist hl hs).mono ?_
  rintro ⟨_, v⟩ t ⟨rfl, hv, ht⟩
  refine (diffAttributes_at L hfile hr ht hv hnode writeCounter).mono ?_
  rintro _ t' ⟨rfl, e, he, -, ht'⟩
  unfold diffBlocks diffInodeExtents diffInodeSize
  rw [if_neg hplain, pure_bind, if_neg (Nat.not_lt.mpr hsize), pure_bind]
  exact ensures_pure ⟨rfl, hQ t' e he ht'⟩

/-! ## The whole inspection -/

theorem HandlesFiles.run {R : List UInt8 → Db KvStore.Key → Db KvStore.Key → Prop}
    {Q : State σ → Prop}
    (h : HandlesFiles c L fuel write (reference "lfiles:" list) writeCounter R Q s)
    (hlist : list < 2 ^ 64)
    (hl : d.listAt (.files list) = some (ids.map fun n : ℕ => reference "file:" n))
    (hs : L.At s d) {I : List ℕ → Db KvStore.Key → Prop} (hd : I [] d)
    (hstep : ∀ done id rest, done ++ id :: rest = ids → ∀ d e, I done d →
      R (reference "file:" (id : ℕ)) d e → I (done ++ [id]) e) :
    Ensures (c.diffInodes (c.deepInspect writeCounter fuel) write writeCounter
      (reference "lfiles:" list)) s fun _ t => I ids (L.db t.store) ∧ Q t := by
  obtain ⟨⟨_, v⟩, t, ht, rfl, -, hat⟩ := listFiles_at L hlist hl hs
  rw [HandlesFiles, ensures_iff_of_eq ht, rounds_map] at h
  rw [diffInodes_eq]
  refine ensures_bind_of_eq ht ?_
  rw [List.foldlM_map]
  refine (h.foldlM (I := fun done t => I done (L.db t.store))
    (fun done id rest hw s t hs hR => hstep done id rest hw _ _ hs hR) rfl (hat.2 ▸ hd)).bind ?_
  exact fun _ u hu => ensures_pure hu

/-- What a block of different files leaves that is reported exactly. -/
theorem DiffsExactly.run (hx : DiffsExactly c L fuel write (reference "lfiles:" list) writeCounter
      writeCounter' s) (h : InodeList d list ids write) (hdistinct : ids.Nodup) (hs : L.At s d)
    {record : ℕ → Record} {inode : ℕ → Inode × InodeStat}
    (hrecord : ∀ id ∈ ids, (record id).In d id)
    (hinode : ∀ id ∈ ids, inodeAt (bufferOf write) (record id).offset = some (inode id)) :
    Ensures (c.diffInodes (c.deepInspect writeCounter fuel) write writeCounter
        (reference "lfiles:" list)) s fun _ t =>
      (metadata (L.db t.store) = metadata d ++
          ids.flatMap (fun id => c.attributeNotices writeCounter (record id) (inode id)) ∧
        ∀ id ∈ ids, ((record id).update (inode id)).In (L.db t.store) id) ∧
      Ensures (c.diffInodes (c.deepInspect writeCounter' fuel) write writeCounter'
        (reference "lfiles:" list)) t fun _ u => KeepsRecords (L.db t.store) (L.db u.store) := by
  have hfirst := HandlesFiles.run L hx h.list_lt h.listed hs
    (I := fun done e => metadata e = metadata d ++
        done.flatMap (fun id => c.attributeNotices writeCounter (record id) (inode id)) ∧
      (∀ id ∈ done, ((record id).update (inode id)).In e id) ∧
        ∀ id ∈ ids, id ∉ done → (record id).In e id)
    ⟨(List.append_nil _).symm, nofun, fun id hid _ => hrecord id hid⟩ ?_
  · obtain ⟨a, t, ht, ⟨hmeta, hdone, -⟩, hagain⟩ := hfirst
    refine ⟨a, t, ht, ⟨hmeta, hdone⟩, ?_⟩
    obtain ⟨e, he, hat⟩ := diffInodes_reports
      (fun d w => deepInspect_reports writeCounter fuel d w) hs write writeCounter _ a t ht
    have hlisted := (listAt_congr (he.lists list)).trans h.listed
    refine (HandlesFiles.run L hagain h.list_lt hlisted hat (I := fun _ f => KeepsRecords e f)
      ⟨rfl, fun _ => rfl⟩ ?_).mono fun _ u hu => hat.2 ▸ hu.1
    exact fun _ _ _ _ f g hf hg => ⟨hg.1.trans hf.1, fun n => (hg.2 n).trans (hf.2 n)⟩
  · rintro done id rest rfl e f ⟨hmeta, hdone, hrest⟩
      ⟨file, r, node, hfile, hname, hr, hnode, hmeta', hrecord', hothers⟩
    have hid : id ∈ done ++ id :: rest := by simp
    obtain rfl := reference_inj (h.ids_lt id hid) hfile hname
    have hnew : id ∉ done := fun hmem =>
      List.disjoint_of_nodup_append hdistinct hmem List.mem_cons_self
    obtain rfl := (hrest id hid hnew).unique hr
    obtain rfl : inode id = node := Option.some.inj ((hinode id hid).symm.trans hnode)
    refine ⟨?_, fun k hk => ?_, fun k hk hnot => ?_⟩
    · rw [hmeta', hmeta, List.flatMap_append, List.append_assoc, List.flatMap_singleton]
    · rcases List.mem_append.mp hk with hk | hk
      · exact (hdone k hk).congr (hothers k fun heq => hnew (heq ▸ hk))
      · exact List.mem_singleton.mp hk ▸ hrecord'
    · rw [List.mem_append, not_or, List.mem_singleton] at hnot
      exact (hrest k hk hnot.1).congr (hothers k hnot.2)

end Exact

open InodeBlock

/-! ## Two blocks with one inode, of a file of 10 bytes -/

/-- The node of a device. -/
def deviceInodes : List UInt8 :=
  leBytes 2 0x2000 ++ leBytes 2 0 ++ leBytes 4 10 ++ List.replicate 504 0

def deviceNode : Inode × InodeStat :=
  (⟨0x2000, 10, 0, 0, ⟨(List.replicate 60 0).toArray, by decide⟩⟩, ⟨0, 0, 0, 0, 0, 0⟩)

/-- A regular file with 200 extents, of which the block has room for 38. -/
def overrunInodes : List UInt8 :=
  leBytes 2 0x8000 ++ leBytes 2 0 ++ leBytes 4 10 ++ List.replicate 32 0 ++
    [0x0A, 0xF3, 200, 0, 4, 0, 0, 0, 0, 0, 0, 0] ++ List.replicate 460 0

def sampleInspector : Inspector (Db KvStore.Key) := sampleSetup.direct fun _ _ => 0

theorem sampleStore_inodeList {write : List UInt8} {node : Inode × InodeStat}
    (h : inodeAt (bufferOf write) 0 = some node) : InodeList sampleStore 1 [5] write where
  list_lt := by decide
  ids_lt := by decide
  listed := rfl
  records id hid := by
    obtain rfl := List.mem_singleton.mp hid
    exact ⟨sampleRecord, node, sampleBlock_ready.tracked.record, h⟩

theorem deviceNode_eq : inodeAt (bufferOf deviceInodes) 0 = some deviceNode := by decide +kernel

end Inspector

end GammaRay.Inspect
