import GammaRay.InodeUpdate
import GammaRay.InspectSteps

set_option autoImplicit false

/-!
# Changes of records

An inspection may lead to the inspection of other blocks, and so to any of the handlers. The
record of a file does not change without a message that says so.
-/
namespace GammaRay.Inspect
open Bytes Decimal Redis KvStore Bson Ext4 Total Simulation
open Loader (keyNamed int64Of type_noNul)

/-! ## Messages about metadata -/

def metadataHead : List UInt8 :=
  elementBytes (keyNamed "type" type_noNul, .string (ascii "metadata"))

def isMetadata (message : List UInt8) : Bool := (message.drop 4).take 19 = metadataHead

/-- The messages about metadata that have been published. -/
def metadata (d : Db KvStore.Key) : List (List UInt8 × List UInt8) :=
  d.messages.filter fun m => isMetadata m.2

theorem isMetadata_fieldDocument (record : String) (writeCounter : ℕ) (v : Compared) :
    isMetadata (fieldDocument record writeCounter v) = true := by
  refine decide_eq_true ?_
  rw [fieldDocument, fieldElements, frame, body_cons, List.drop_left' (i32Bytes_length _),
    List.append_assoc]
  exact List.take_left' rfl

theorem metadata_append {d e : Db KvStore.Key} {ms : List (List UInt8 × List UInt8)}
    (h : e.messages = d.messages ++ ms) :
    metadata e = metadata d ++ ms.filter fun m => isMetadata m.2 := by
  rw [metadata, h, List.filter_append]
  rfl

theorem metadata_notices {d e : Db KvStore.Key} {channel : List UInt8} {record : String}
    {writeCounter : ℕ} {l : List Compared}
    (h : e.messages = d.messages ++ notices channel record writeCounter l) :
    metadata e = metadata d ++ notices channel record writeCounter l := by
  rw [metadata_append h, List.filter_eq_self.mpr]
  intro m hm
  obtain ⟨v, -, rfl⟩ := List.mem_map.mp hm
  exact isMetadata_fieldDocument record writeCounter v

/-- Records change only where a message has been published; lists of files do not change. -/
structure Reports (d e : Db KvStore.Key) : Prop where
  grows : metadata d <+: metadata e
  silent : metadata e = metadata d → ∀ n, e.keys (.file n) = d.keys (.file n)
  lists : ∀ n, e.keys (.files n) = d.keys (.files n)

theorem Reports.refl (d : Db KvStore.Key) : Reports d d :=
  ⟨List.prefix_rfl, fun _ _ => rfl, fun _ => rfl⟩

theorem Reports.trans {d e f : Db KvStore.Key} (h : Reports d e) (h' : Reports e f) :
    Reports d f where
  grows := h.grows.trans h'.grows
  silent hf n := by
    have hle := h'.grows.length_le
    rw [hf] at hle
    have he := h.grows.eq_of_length_le hle
    rw [h'.silent (hf.trans he) n, h.silent he.symm n]
  lists n := (h'.lists n).trans (h.lists n)

/-- A command that changes no record and no list of files. -/
def Unrecorded (cmd : Command KvStore.Key) : Prop :=
  (∀ k, cmd ≠ .brpop k) ∧ (∀ n, cmd.writes ≠ some (.file n)) ∧ ∀ n, cmd.writes ≠ some (.files n)

theorem Unrecorded.reports {cmd : Command KvStore.Key} (h : Unrecorded cmd) (d : Db KvStore.Key) :
    Reports d (d.after cmd) := by
  obtain ⟨ms, hms⟩ := messages_after d cmd
  exact ⟨by rw [metadata_append hms]; exact List.prefix_append _ _,
    fun _ n => keys_after (h.2.1 n), fun n => keys_after (h.2.2 n)⟩

theorem queues_unrecorded : Queues fun issue => Unrecorded issue.command :=
  ⟨fun _ => ⟨nofun, nofun, nofun⟩, fun _ _ => ⟨nofun, nofun, nofun⟩,
    fun _ => ⟨nofun, nofun, nofun⟩, fun _ => ⟨nofun, nofun, nofun⟩⟩

namespace Inspector

variable {σ : Type} {c : Inspector σ} {L : Lawful c.service} {s : State σ} {d : Db KvStore.Key}

theorem inStep_reports :
    InStep c c.service (Along L.At Reports d) fun issue => Unrecorded issue.command :=
  inStep_along (Q := Reports) (P := Unrecorded) .refl Reports.trans (fun _ h => h.1)
    (fun _ h => h.reports) (fun _ h => ⟨h.tame.1, h.tame.2.2.1, h.tame.2.2.2⟩) d

/-! ## Inodes -/

/-- The values that have been read have the sizes of the variables. -/
structure InodeFound.Sized (n : InodeFound) : Prop where
  offset : n.offset.length = 8
  olds : n.olds.map List.length = attributeWidths

theorem newAttributes_widths (node : Inode × InodeStat) :
    (newAttributes node).map List.length = attributeWidths := by
  simp [newAttributes, attributeWidths, attributes, attributeWidth]

theorem setFields_same (hs : L.At s d) {fmt : ℕ → List UInt8 → List UInt8 → Command KvStore.Key}
    {id : ℕ} {l : List Compared} (hl : ∀ v ∈ l, v.old = v.new) :
    Ensures (l.forM (c.setField fmt id)) s fun _ t => L.At t d := by
  refine ensures_forM (I := fun t => L.At t d) (fun v hv t ht => ?_) hs
  rw [setField, if_neg (not_not.mpr (hl v hv).symm)]
  exact ensures_pure ht

theorem setFields_beside (hs : L.At s d) (file : ℕ) (l : List Compared) :
    Ensures (l.forM (c.setField redisFileSectorInsert file)) s fun _ t =>
      ∃ e, ((∃ ms, e.messages = d.messages ++ ms) ∧ ∀ n, e.keys (.files n) = d.keys (.files n)) ∧
        L.At t e := by
  refine ensures_forM (I := fun t => ∃ e, ((∃ ms, e.messages = d.messages ++ ms) ∧
    ∀ n, e.keys (.files n) = d.keys (.files n)) ∧ L.At t e) ?_
    ⟨d, ⟨⟨[], (List.append_nil _).symm⟩, fun _ => rfl⟩, hs⟩
  rintro v - t ⟨e, ⟨⟨ms, hms⟩, hlists⟩, ht⟩
  unfold setField
  split
  · refine (append_at L ht (by simp)).mono fun _ u hu => ⟨_, ⟨?_, fun n => ?_⟩, hu⟩
    · obtain ⟨ns, hns⟩ := messages_after e (redisFileSectorInsert file (ascii v.name) v.new)
      exact ⟨ms ++ ns, by rw [hns, hms, List.append_assoc]⟩
    · rw [keys_after (by simp [Command.writes]), hlists]
  · exact ensures_pure ⟨e, ⟨⟨ms, hms⟩, hlists⟩, ht⟩

theorem getField_yields (hs : L.At s d) (file : ℕ) (name : String) (old : List UInt8) :
    Yields (c.getField redisFileSectorGet file name old) s fun v t =>
      v.length = old.length ∧ L.At t d := by
  refine (getField_at L hs (by simp [redisFileSectorGet]) rfl old).yields.mono ?_
  rintro _ t ⟨rfl, ht⟩
  exact ⟨overlay_copyString_length rfl _, ht⟩

/-- Either no attribute has changed, or there is a message. -/
theorem diffAttributes_reports (hs : L.At s d) {v : InodeVars} (hv : v.Sized) (write : List UInt8)
    (writeCounter : ℕ) (element : List UInt8) :
    Yields (c.diffAttributes write writeCounter v element) s fun n t =>
      n.Sized ∧ ∃ e, Reports d e ∧ L.At t e := by
  have hlen : v.olds.length ≤ attributes.length := by
    rw [← List.length_map (f := List.length), hv.olds]
    rfl
  have hwidths : (attributes.zip v.olds).map (fun p => p.2.length) = attributeWidths := by
    rw [← hv.olds, ← List.map_snd_zip hlen, List.map_map, List.map_snd_zip hlen]
    rfl
  unfold diffAttributes
  refine (pointerTarget_yields _ _).bind ?_
  rintro file _ rfl
  refine (query_at L hs (by simp [redisFileSectorGet]) rfl).yields.bind ?_
  rintro _ t₁ ⟨-, ht₁⟩
  dsimp only
  split
  · exact undefined_yields
  refine (getField_yields ht₁ file _ _).bind ?_
  rintro offset t₂ ⟨hoffset, ht₂⟩
  refine (yields_mapM (g := fun p => p.2.length) (h := List.length) (I := fun t => L.At t d)
    (fun p _ t ht => getField_yields ht file _ _) ht₂).bind ?_
  rintro olds t₃ ⟨holds, ht₃⟩
  refine (defined_yields _).bind ?_
  rintro new _ ⟨-, rfl⟩
  have hfits := @compareAll_fits attributes olds (newAttributes new) (by decide)
    (holds.trans hwidths) (newAttributes_widths new)
  refine (compareFields_at L (by decide) ht₃ hfits _ _).yields.bind fun _ t₄ ht₄ => ?_
  have hsized : InodeFound.Sized ⟨file, offset, olds, new⟩ :=
    ⟨hoffset.trans hv.offset, holds.trans hwidths⟩
  by_cases hsame : ∀ w ∈ compareAll attributes olds (newAttributes new), w.old = w.new
  · refine (setFields_same ht₄ hsame).yields.bind fun _ t₅ ht₅ => ?_
    rw [notices_eq_nil_iff.mpr hsame, announced, List.append_nil] at ht₅
    exact yields_pure ⟨hsized, d, .refl d, ht₅⟩
  · refine (setFields_beside ht₄ file _).yields.bind ?_
    rintro _ t₅ ⟨e, ⟨⟨ms, hms⟩, hlists⟩, ht₅⟩
    refine yields_pure ⟨hsized, e, ⟨?_, fun he => ?_, hlists⟩, ht₅⟩
    · rw [metadata_append (hms.trans (List.append_assoc _ _ _))]
      exact List.prefix_append _ _
    · rw [metadata_append hms, metadata_notices (d := d) rfl, List.append_assoc,
        List.append_right_eq_self] at he
      exact absurd (notices_eq_nil_iff.mp (List.append_eq_nil_iff.mp he).1) hsame

theorem diffBlocks_sized (inspect : BdrvWrite → Act σ Unit) (write : List UInt8) (lastSector : ℕ)
    {n : InodeFound} (hn : n.Sized) :
    Yields (c.diffBlocks inspect write lastSector n) s fun v _ => v.Sized := by
  refine Yields.bind (P := fun _ _ => True) (fun _ _ _ => trivial) fun _ t _ => ?_
  refine Yields.bind (P := fun _ _ => True) (fun _ _ _ => trivial) fun _ u _ => ?_
  exact yields_pure ⟨hn.offset, hn.olds⟩

/-- The blocks of a file, if the blocks that are inspected again report. -/
theorem diffBlocks_reports {inspect : BdrvWrite → Act σ Unit}
    (hi : ∀ d w, Sim (Along L.At Reports d) (inspect w) (inspect w)) (hs : L.At s d)
    (write : List UInt8) (lastSector : ℕ) (n : InodeFound) :
    Yields (c.diffBlocks inspect write lastSector n) s fun _ t => ∃ e, Reports d e ∧ L.At t e := by
  have hagain := sim_reinspectWrite inStep_reports queues_unrecorded (hi d)
  have hsim : Sim (Along L.At Reports d) (c.diffBlocks inspect write lastSector n)
      (c.diffBlocks inspect write lastSector n) :=
    (sim_diffInodeExtents inStep_reports hagain _ _ _ _).bind fun _ =>
      (sim_diffInodeSize inStep_reports hagain _ _ _ _).bind fun _ => sim_pure _
  exact hsim.yields (.refl d) hs

/-- One file of a block of inodes. -/
theorem diffInode_reports {inspect : BdrvWrite → Act σ Unit}
    (hi : ∀ d w, Sim (Along L.At Reports d) (inspect w) (inspect w)) (hs : L.At s d)
    {v : InodeVars} (hv : v.Sized) (write : List UInt8) (writeCounter : ℕ)
    (element : List UInt8) :
    Yields (c.diffInode inspect write writeCounter v element) s fun v' t =>
      v'.Sized ∧ ∃ e, Reports d e ∧ L.At t e := by
  rw [diffInode_eq]
  refine (diffAttributes_reports hs hv write writeCounter element).bind ?_
  rintro n t ⟨hn, e, he, ht⟩
  intro v' u hu
  obtain ⟨f, hf, hat⟩ := diffBlocks_reports hi ht write v.lastSector n v' u hu
  exact ⟨diffBlocks_sized inspect write v.lastSector hn v' u hu, f, he.trans hf, hat⟩

theorem diffInodes_reports {inspect : BdrvWrite → Act σ Unit}
    (hi : ∀ d w, Sim (Along L.At Reports d) (inspect w) (inspect w)) (hs : L.At s d)
    (write : List UInt8) (writeCounter : ℕ) (pointer : List UInt8) :
    Yields (c.diffInodes inspect write writeCounter pointer) s fun _ t =>
      ∃ e, Reports d e ∧ L.At t e := by
  unfold diffInodes
  refine (enter_at L hs).yields.bind fun vars t₁ h₁ => ?_
  refine (pointerTarget_yields _ _).bind ?_
  rintro lfiles _ rfl
  refine (query_at L h₁.2 (by simp [redisFilesLget]) rfl).yields.bind ?_
  rintro _ t₂ ⟨-, h₂⟩
  refine (defined_yields _).bind ?_
  rintro list _ ⟨-, rfl⟩
  refine (yields_foldlM (I := fun v t => v.Sized ∧ ∃ e, Reports d e ∧ L.At t e) ?_
    ⟨inodeVars_sized vars, d, .refl d, h₂⟩).bind fun _ t ht => yields_pure ht.2
  rintro element - v t ⟨hv, e, he, ht⟩
  refine (diffInode_reports hi ht hv write writeCounter element).mono ?_
  rintro v' u ⟨hv', f, hf, hu⟩
  exact ⟨hv', f, he.trans hf, hu⟩

/-- Whatever is inspected, no record changes without a message. -/
theorem deepInspect_reports (writeCounter fuel : ℕ) (d : Db KvStore.Key) (write : BdrvWrite) :
    Sim (Along L.At Reports d) (c.deepInspect writeCounter fuel write)
      (c.deepInspect writeCounter fuel write) := by
  induction fuel generalizing d write with
  | zero => exact sim_defined _
  | succ fuel ih =>
    have hinodes : ∀ data counter pointer, Sim (Along L.At Reports d)
        (c.diffInodes (c.deepInspect writeCounter fuel) data counter pointer)
        (c.diffInodes (c.deepInspect writeCounter fuel) data counter pointer) :=
      fun data counter pointer => sim_along Reports.trans fun _ _ hs =>
        diffInodes_reports ih hs data counter pointer
    refine (sim_defined _).ite ?_
    exact (sim_forM fun i => sim_inspectBlock inStep_reports queues_unrecorded (ih d) hinodes _ _
      i).bind fun _ => inStep_reports.flush

end Inspector

end GammaRay.Inspect
