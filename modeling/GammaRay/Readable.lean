import GammaRay.IndexLayout
import GammaRay.InspectSteps
import GammaRay.LoadSteps
import GammaRay.SectorPointers
import GammaRay.Typed

set_option autoImplicit false

/-!
# What the inspection can read

The texts in the store that lead from one record to another: the pointers of the sectors and the
elements of the lists. Whatever the index is and whatever clients do, the inspection finds texts
it can take apart, and none that asks for a record to be loaded.
-/
namespace GammaRay.Inspect
open Bytes Decimal Redis KvStore Ext4 Total

/-- A pointer for one of the handlers that find all they need in the store. The numbers it scans do
not depend on what its variables hold. -/
def Handled (pointer : List UInt8) (kind : PointerKind) : Prop :=
  kind ∈ [.data, .fs, .mbr, .lbgds, .lfiles, .extent, .dirdata] ∧
    pointerKind pointer = some kind ∧ ∃ ids, ∀ old, kind.parse old pointer = some ids

/-- The texts of the store. What is in hashes, and in the keys not listed, can be anything. -/
def kvSchema : Schema KvStore.Key where
  kind := Key.kind
  Form
    | .sector _, text => ∃ kind, Handled text kind
    | .bgds _, text => ∃ id, text = reference "bgd:" id
    | .files _, text | .inode _, text => ∃ id, text = reference "file:" id
    | .extents _, text => ∃ sector, text = reference "extent:" sector
    | .filesectors _, text => ∃ sector, text = sectorText sector
    | _, _ => True

/-! ## The commands -/

theorem parse_reference {kind : PointerKind} (hplaces : kind.places = [1]) (id : ℤ)
    (old : ℕ → ℕ) : kind.parse old (ascii kind.word ++ [58] ++ dec (u64 id)) = some [u64 id] := by
  have hid : (UInt64.ofNat (u64 id)).toNat = u64 id := UInt64.toNat_ofNat_of_lt (u64_lt id)
  have hparse := Pointer.parse_recordText hplaces old (UInt64.ofNat (u64 id))
  rwa [recordText, hid] at hparse

theorem handled_data (start stop file : ℕ) : Handled (dataPointer start stop file) .data := by
  refine ⟨by decide, rfl, [start, stop, file], fun old => ?_⟩
  simp [PointerKind.parse, PointerKind.places, tokens_dataPointer, scanInto_dec]

theorem handled_extent (sector : ℤ) : Handled (reference "extent:" sector) .extent :=
  ⟨by decide, rfl, _, parse_reference rfl sector⟩

theorem indexCommand_permitted {cmd : Command KvStore.Key} (h : Loader.IndexCommand cmd) :
    kvSchema.Permits cmd := by
  cases h with
  | setMbr | setSuperblock | setBgd | setFile | setExtent | setDir => rfl
  | pushBgd sector id => exact ⟨rfl, id, rfl⟩
  | pushFile sector id => exact ⟨rfl, id, rfl⟩
  | pushInode inode id => exact ⟨rfl, id, rfl⟩
  | pushExtent id sector => exact ⟨rfl, sector, rfl⟩
  | pushSector id sector => exact ⟨rfl, sector, rfl⟩
  | pushEntry => exact ⟨rfl, trivial⟩
  | pointMbr sector id => exact ⟨rfl, .mbr, by decide, rfl, [], fun _ => rfl⟩
  | pointSuperblock sector id =>
    exact ⟨rfl, .fs, by decide, rfl, _, parse_reference rfl id⟩
  | pointBgds sector id =>
    exact ⟨rfl, .lbgds, by decide, rfl, _, parse_reference rfl id⟩
  | pointFiles sector id =>
    exact ⟨rfl, .lfiles, by decide, rfl, _, parse_reference rfl id⟩
  | pointExtent sector id => exact ⟨rfl, _, handled_extent id⟩
  | pointDir sector id =>
    exact ⟨rfl, .dirdata, by decide, rfl, _, parse_reference rfl id⟩
  | pointData sector start stop file => exact ⟨rfl, _, handled_data start stop file⟩
  | setPath | setFilter | setCounter => exact ⟨rfl, trivial⟩

theorem issued_permitted {issue : Issue} (h : Issued issue) : kvSchema.Permits issue.command := by
  cases h with
  | publish | getSuperblock | getBgd | getFile | getExtent | getSector | lastSector | countSectors
  | listBgds | listFiles | listExtents => trivial
  | setSuperblock | setBgd | setExtent => rfl
  | pushSector file sector => exact ⟨rfl, sector, rfl⟩
  | setSector file index sector => exact ⟨rfl, sector, rfl⟩
  | pushExtent file sector => exact ⟨rfl, sector, rfl⟩
  | insertExtent file index sector => exact ⟨rfl, sector, rfl⟩
  | pointData sector start stop file => exact ⟨rfl, _, handled_data start stop file⟩
  | pointExtent sector id => exact ⟨rfl, _, handled_extent id⟩

/-- A command that leaves the texts readable, and does not wait. -/
def Careful (cmd : Command KvStore.Key) : Prop :=
  (∀ k, cmd ≠ .brpop k) ∧ kvSchema.Permits cmd

theorem queues_careful : Queues fun issue => Careful issue.command :=
  ⟨fun _ => ⟨by simp [Issue.command], trivial⟩, fun _ _ => ⟨by simp [Issue.command], rfl, trivial⟩,
    fun _ => ⟨by simp [Issue.command], trivial⟩, fun _ => ⟨by simp [Issue.command], trivial⟩⟩

/-! ## The inspection -/

theorem deepInspect_holds {σ : Type} {c : Inspector σ} (L : Lawful c.service) {s : State σ}
    {d : Db KvStore.Key} (hs : L.At s d) (hd : kvSchema.Holds d) (writeCounter fuel : ℕ)
    (write : BdrvWrite) : Yields (c.deepInspect writeCounter fuel write) s fun _ t =>
      ∃ e, kvSchema.Holds e ∧ L.At t e := by
  have hstep := Inspector.inStep_along (c := c) (L := L) (P := Careful)
    (Q := fun d e => kvSchema.Holds d → kvSchema.Holds e) (fun _ => id)
    (fun hde hef hd => hef (hde hd)) (fun _ h => h.1) (fun _ h _ hd => hd.after h.2)
    (fun _ h => ⟨h.tame.1, issued_permitted h⟩) d
  have hsim := Inspector.sim_deepInspect hstep queues_careful
    (fun _ _ _ => ⟨by simp [Issue.command], rfl⟩) writeCounter fuel write
  exact (hsim.yields id hs).mono fun _ _ ⟨e, hde, ht⟩ => ⟨e, hde hd, ht⟩

/-- Two rounds of `BRPOP`, however the call ends. -/
theorem dequeue_rests {J : Db KvStore.Key → Prop}
    (hJ : ∀ d, J d → J (d.after (.brpop .writequeue))) {h : Handle} (hr : Loader.Rests J h) :
    Gives (redisAsyncWriteDequeue h) fun p => Loader.Rests J p.2 := by
  have hexit : ∀ {h : Handle}, Loader.Rests J h → Loader.Rests J { h with exited := true } :=
    fun hr => ⟨⟨⟨hr.settled.balanced.count, hr.settled.balanced.old⟩, hr.settled.jobs,
      hr.settled.below⟩, hr.db⟩
  have hafter : ∀ {d e : Db KvStore.Key} {r : Reply}, J d →
      exec d (.brpop .writequeue) = some (r, e) → J e := by
    intro d e r hd he
    have hJd := hJ d hd
    rwa [Db.after, he] at hJd
  unfold redisAsyncWriteDequeue
  cases he : exec h.db (.brpop .writequeue) with
  | none =>
    rw [Loop.bind_of_none (query_blocks hr.settled he)]
    exact gives_none
  | some p =>
    obtain ⟨r, db⟩ := p
    obtain ⟨h₁, hq, hdb, hs₁, hu⟩ := query_of_exec hr.settled he
    have hr₁ : Loader.Rests J h₁ := ⟨hs₁, hdb ▸ hafter hr.db he⟩
    rw [Loop.bind_of_some hq]
    dsimp only
    split
    · exact gives_some (hexit hr₁)
    refine Gives.ite ?_ (gives_some (hexit hr₁))
    cases he₁ : exec h₁.db (.brpop .writequeue) with
    | none =>
      rw [Loop.bind_of_none (interpretCommand_blocks he₁)]
      exact gives_none
    | some p =>
      obtain ⟨r, db⟩ := p
      obtain ⟨h₂, hi, hdb₂, -⟩ := interpretCommand_of_exec hu he₁
      have hr₂ : Loader.Rests J h₂ :=
        ⟨interpretCommand_settled hs₁ hi, hdb₂ ▸ hafter hr₁.db he₁⟩
      rw [Loop.bind_of_some hi]
      dsimp only
      split
      · exact gives_some (hexit hr₂)
      · exact gives_some hr₂

theorem round_rests {c : Inspector Handle} (hservice : c.service = handleService) (fuel : ℕ)
    {s : State Handle} (hs : Loader.Rests kvSchema.Holds s.store) (counter : ℕ) :
    Gives (c.round fuel (s, counter)) fun r =>
      Loader.Rests kvSchema.Holds (r.elim (fun p => p.1.store) fun t => t.store) := by
  refine (dequeue_rests (fun _ hd => hd.after trivial) hs).bind ?_
  rintro ⟨write, store⟩ hstore
  cases write with
  | none => exact gives_some hstore
  | some w =>
    refine Gives.bind (P := fun q => Loader.Rests kvSchema.Holds q.2.store) ?_
      fun _ ht => gives_some ht
    rintro ⟨_, t⟩ ht
    obtain ⟨⟨heap, hostname, vmname, blockSize, offset⟩, service, stack⟩ := c
    obtain rfl : service = handleService := hservice
    obtain ⟨e, he, hst, rfl⟩ := deepInspect_holds handleLawful (s := ⟨store, s.frames⟩)
      ⟨hstore.settled, rfl⟩ hstore.db _ _ _ _ _ ht
    exact ⟨hst, he⟩

/-! ## Dispatch -/

theorem inspectBlock_of_pointer {σ : Type} {c : Inspector σ} (L : Lawful c.service) {s : State σ}
    {d : Db KvStore.Key} (hs : L.At s d) (inspect : BdrvWrite → Act σ Unit) (write : BdrvWrite)
    (writeCounter i : ℕ) {pointer : List UInt8} {kind : PointerKind}
    (hp : d.keys (.sector (u64 (write.sectorNum + i))) = some (.string pointer))
    (hkind : pointerKind pointer = some kind) (hlen : pointer.length < 1024) :
    ∃ u, L.At u d ∧ c.inspectBlock inspect write writeCounter i s =
      c.handle kind inspect (write.data.drop (i * sectorSize)) writeCounter pointer
        (min ((write.nbSectors - i) * sectorSize) c.blockSize) write.sectorNum u := by
  have hread : Ensures (c.query (.get (.sector (u64 (write.sectorNum + i))))) s _ :=
    Inspector.query_at L hs (by simp) rfl
  obtain ⟨_, u, hu, rfl, hat⟩ := hread
  have hne : pointer ≠ [] := by
    rintro rfl
    cases hkind
  have hcopy :
      copyString 1024 (answer d (.get (.sector (u64 (write.sectorNum + i))))) = pointer := by
    rw [answer, exec, hp]
    exact if_pos ⟨List.length_pos_of_ne_nil hne, hlen.le⟩
  refine ⟨u, hat, ?_⟩
  rw [Inspector.inspectBlock, bind_of_eq hu, hcopy, if_neg hne, if_neg hlen.ne,
    Inspector.dispatchWrite_eq, hkind]
  rfl

/-! ## Lists -/

/-- Every element is a name and a number. -/
def Listed (name : String) (list : Option (List (List UInt8))) : Prop :=
  ∃ l, list = some l ∧ ∀ x ∈ l, ∃ n < 2 ^ 64, tokens x = [ascii name, dec n]

theorem listed_of_holds {d : Db KvStore.Key} (hd : kvSchema.Holds d) {k : KvStore.Key}
    (hk : k.kind = .list) {name colon : String} (hname : ascii colon = ascii name ++ [58])
    (hne : ascii name ≠ []) (h0 : 0 ∉ ascii name) (h58 : 58 ∉ ascii name)
    (hform : ∀ x, kvSchema.Form k x → ∃ id, x = reference colon id) :
    Listed name (d.listAt k) := by
  obtain ⟨l, hl, hall⟩ := hd.list hk
  refine ⟨l, hl, fun x hx => ?_⟩
  obtain ⟨id, rfl⟩ := hform x (hall x hx)
  exact ⟨u64 id, u64_lt id, by rw [reference, hname, tokens_named hne h0 h58]⟩

/-- The inspection can take apart what it finds, and knows what to do with it. -/
structure Readable (c : Inspector Handle) (s : State Handle) : Prop where
  sectors : ∀ (inspect : BdrvWrite → Act Handle Unit) (write : BdrvWrite) (writeCounter i : ℕ)
    value, s.store.db.keys (.sector (u64 (write.sectorNum + i))) = some value →
      ∃ pointer kind, value = .string pointer ∧ Handled pointer kind ∧ (pointer.length < 1024 →
        ∃ u, u.store.db = s.store.db ∧ c.inspectBlock inspect write writeCounter i s =
          c.handle kind inspect (write.data.drop (i * sectorSize)) writeCounter pointer
            (min ((write.nbSectors - i) * sectorSize) c.blockSize) write.sectorNum u)
  bgds : ∀ sector, Listed "bgd" (s.store.db.listAt (.bgds sector))
  files : ∀ sector, Listed "file" (s.store.db.listAt (.files sector))
  extents : ∀ id, Listed "extent" (s.store.db.listAt (.extents id))
  fileSectors : ∀ id, ∃ sectors : List ℤ,
    s.store.db.listAt (.filesectors id) = some (sectors.map sectorText)

theorem readable_of_rests {c : Inspector Handle} (hservice : c.service = handleService)
    {s : State Handle} (hs : Loader.Rests kvSchema.Holds s.store) : Readable c s where
  sectors inspect write writeCounter i value hvalue := by
    obtain ⟨setup, service, stack⟩ := c
    obtain rfl : service = handleService := hservice
    have hfits := hs.db _ _ hvalue
    cases value with
    | string text =>
      obtain ⟨-, kind, hkind⟩ := hfits
      refine ⟨text, kind, rfl, hkind, fun hlen => ?_⟩
      obtain ⟨u, hu, hrun⟩ := inspectBlock_of_pointer (c := ⟨setup, _, stack⟩) handleLawful
        (s := s) ⟨hs.settled, rfl⟩ inspect write writeCounter i hvalue hkind.2.1 hlen
      exact ⟨u, hu.2, hrun⟩
    | list l => cases hfits.1
    | hash m => cases hfits
    | set l => cases hfits.1
  bgds _ := listed_of_holds hs.db rfl rfl (by decide) (by decide) (by decide) fun _ h => h
  files _ := listed_of_holds hs.db rfl rfl (by decide) (by decide) (by decide) fun _ h => h
  extents _ := listed_of_holds hs.db rfl rfl (by decide) (by decide) (by decide) fun _ h => h
  fileSectors id := by
    obtain ⟨l, hl, hall⟩ := hs.db.list (k := .filesectors id) rfl
    choose! f hf using hall
    refine ⟨l.map f, hl.trans (congrArg some ?_)⟩
    rw [List.map_map]
    exact (List.map_id l).symm.trans (List.map_congr_left fun x hx => hf x hx)

end GammaRay.Inspect

namespace GammaRay.Monitor
open Bytes Bson Redis Nbd Inspect Observation

variable {ι : Type} [DecidableEq ι]

theorem rests_step {S : Server} {c : Inspector KvStore.Handle}
    (hservice : c.service = handleService) {fuel : ℕ} {s t : Node ι} {e : Event ι}
    (hs : Loader.Rests kvSchema.Holds s.inferencer.store) (h : step S c fuel s e = some t) :
    Loader.Rests kvSchema.Holds t.inferencer.store := by
  cases e with
  | arrive i bytes =>
    obtain rfl := Option.some.inj h
    exact hs
  | iterate i =>
    obtain ⟨r, -, rfl⟩ := Option.map_eq_some_iff.mp h
    exact hs
  | apply =>
    obtain ⟨x, -, h⟩ := Option.bind_eq_some_iff.mp h
    obtain ⟨⟨r, db⟩, he, h⟩ := Option.bind_eq_some_iff.mp h
    obtain rfl := Option.some.inj h
    have hafter : kvSchema.Holds (s.db.after (.lpush .writequeue x)) := hs.db.after ⟨rfl, trivial⟩
    rw [Db.after, he] at hafter
    exact ⟨settled_setDb hs.settled db, hafter⟩
  | infer =>
    rw [step] at h
    split at h
    · cases h
    obtain ⟨r, hr, rfl⟩ := Option.map_eq_some_iff.mp h
    have ht := round_rests hservice fuel hs s.counter r hr
    cases r with
    | inl p => exact ht
    | inr t => exact ht

/-- The first sector of the disk is written. -/
def firstSectorEvents : List (Event Unit) :=
  [.arrive () (header .write 1 0 512 ++ List.replicate 512 7), .iterate (), .apply, .apply, .infer]

def smallLocals : ℕ → Loader.Locals :=
  fun _ => ⟨⟨⟨0, 0, 0, 0, 0⟩, ⟨0, 0, 0, 0, 0⟩⟩, ⟨0, 0, 0, 0, 0, 0⟩⟩

def smallIndexFile : File :=
  ⟨stream (Loader.smallIndex.entries.map Loader.Entry.document), 0⟩

def smallRun : Option (Node Unit) := do
  let (_, store) ← Loader.qemuLoadIndex zeroHeap 1000 smallLocals smallIndexFile .fresh
    (KvStore.redisInit Db.empty 0)
  let (c, s) ← oneBlockProcess.enterLoop ⟨1, 2, 3, 4, 5, 6⟩ store
  (machine wholeServer c 1 Unit).run firstSectorEvents
    ⟨oneBlockNode.conns, oneBlockNode.world, 0, s, 0, false⟩

theorem smallRun_isSome : smallRun.isSome := by decide +kernel

end GammaRay.Monitor
