import GammaRay.InspectLog
import GammaRay.FileData

set_option autoImplicit false

/-!
# What a block does to the queue

`qemu_deep_inspect` goes through a write block by block. The queue holds the bytes of the
disk if every block leaves it so; whether a block does can be read off the store before it.
-/
namespace GammaRay.Inspect
open Bytes Decimal Redis KvStore Bson Ext4 Total Simulation

/-- The bytes most recently written at a sector. -/
abbrev Disk := ℕ → Option (List UInt8)

/-- `x` is a prefix of the bytes at sector `n`. -/
def Disk.Begins (disk : Disk) (n : ℕ) (x : List UInt8) : Prop :=
  ∃ bytes, disk n = some bytes ∧ x <+: bytes

/-- Every entry of the queue is a prefix of the bytes at its sector. -/
def QueueOk (disk : Disk) (d : Db KvStore.Key) : Prop :=
  ∀ n v, d.keys (.qsector n) = some v → ∃ x, v = .string x ∧ disk.Begins n x

/-- A block of a write that is inspected. -/
structure Block where
  writeCounter : ℕ
  write : BdrvWrite
  i : ℕ

namespace Block

def sector (b : Block) : ℕ := u64 (b.write.sectorNum + b.i)

def data (b : Block) : List UInt8 := b.write.data.drop (b.i * sectorSize)

def size (u : Setup) (b : Block) : ℕ := min ((b.write.nbSectors - b.i) * sectorSize) u.blockSize

/-- How many sectors behind the first of the block. -/
def offset (b : Block) (n : ℕ) : ℕ := u64 (n - (b.write.sectorNum + b.i))

def Covers (u : Setup) (b : Block) (n : ℕ) : Prop := b.offset n * sectorSize < b.size u

instance (u : Setup) (b : Block) (n : ℕ) : Decidable (b.Covers u n) := by
  unfold Covers
  infer_instance

def bytesAt (b : Block) (n : ℕ) : List UInt8 := b.data.drop (b.offset n * sectorSize)

/-- The disk once the block is written. -/
def written (u : Setup) (b : Block) (disk : Disk) : Disk :=
  fun n => if b.Covers u n then some (b.bytesAt n) else disk n

/-- An entry for sector `n` is a prefix of what the block writes there. -/
def Extends (b : Block) (d : Db KvStore.Key) (n : ℕ) : Prop :=
  ∀ v, d.keys (.qsector n) = some v → ∃ x, v = .string x ∧ x <+: b.bytesAt n

theorem offset_sector (b : Block) : b.offset b.sector = 0 := by
  unfold offset sector u64
  omega

theorem written_sector {u : Setup} {b : Block} (h : 0 < b.size u) (disk : Disk) :
    b.written u disk b.sector = some b.data := by
  have hcovers : b.Covers u b.sector := by
    rw [Covers, offset_sector, Nat.zero_mul]
    exact h
  rw [written, if_pos hcovers, bytesAt, offset_sector, Nat.zero_mul, List.drop_zero]

end Block

/-! ## Changes to the queue -/

/-- What happens to the entries of the queue: each is set, deleted or left alone. -/
abbrev QueueChange := ℕ → Option (Option (List UInt8))

def QueueChange.Leads (op : QueueChange) (d e : Db KvStore.Key) : Prop :=
  ∀ n, e.keys (.qsector n) = (op n).elim (d.keys (.qsector n)) (Option.map Value.string)

theorem queueOk_iff {u : Setup} {b : Block} {disk : Disk} {d e : Db KvStore.Key} {op : QueueChange}
    (hd : QueueOk disk d) (he : op.Leads d e) :
    QueueOk (b.written u disk) e ↔ (∀ n, op n = none → b.Covers u n → b.Extends d n) ∧
      ∀ n x, op n = some (some x) → (b.written u disk).Begins n x := by
  constructor
  · intro hq
    refine ⟨fun n hop hn v hv => ?_, fun n x hop => ?_⟩
    · obtain ⟨x, hx, bytes, hbytes, hle⟩ := hq n v (by rw [he n, hop]; exact hv)
      rw [Block.written, if_pos hn, Option.some.injEq] at hbytes
      exact ⟨x, hx, hbytes ▸ hle⟩
    · obtain ⟨y, hy, hbegins⟩ := hq n (.string x) (by rw [he n, hop]; rfl)
      obtain rfl := Value.string.inj hy
      exact hbegins
  · rintro ⟨hstale, hset⟩ n v hv
    rw [he n] at hv
    cases hop : op n with
    | none =>
      rw [hop, Option.elim_none] at hv
      by_cases hn : b.Covers u n
      · obtain ⟨x, hx, hle⟩ := hstale n hop hn v hv
        exact ⟨x, hx, b.bytesAt n, if_pos hn, hle⟩
      · obtain ⟨x, hx, bytes, hbytes, hle⟩ := hd n v hv
        exact ⟨x, hx, bytes, (if_neg hn).trans hbytes, hle⟩
    | some o =>
      rw [hop, Option.elim_some] at hv
      obtain ⟨x, rfl, rfl⟩ := Option.map_eq_some_iff.mp hv
      exact ⟨x, rfl, hset n x hop⟩

def QueueChange.nothing : QueueChange := fun _ => none

def QueueChange.only (n : ℕ) (op : Option (Option (List UInt8))) : QueueChange :=
  fun m => if m = n then op else none

/-- A change to one entry. -/
theorem QueueChange.only_iff {k : ℕ} {op : Option (Option (List UInt8))} {P : ℕ → Prop}
    {Q : ℕ → List UInt8 → Prop} :
    ((∀ n, only k op n = none → P n) ∧ ∀ n x, only k op n = some (some x) → Q n x) ↔
      (∀ n ≠ k, P n) ∧ op.elim (P k) fun kept => ∀ x, kept = some x → Q k x := by
  have hself : only k op k = op := if_pos rfl
  have hother : ∀ n ≠ k, only k op n = none := fun n hn => if_neg hn
  constructor
  · rintro ⟨hP, hQ⟩
    refine ⟨fun n hn => hP n (hother n hn), ?_⟩
    cases op with
    | none => exact hP k hself
    | some kept => exact fun x hx => hQ k x (hself.trans (congrArg some hx))
  · rintro ⟨hP, hk⟩
    refine ⟨fun n hn => ?_, fun n x hx => ?_⟩
    · by_cases hne : n = k
      · subst hne
        rw [hself] at hn
        rw [hn] at hk
        exact hk
      · exact hP n hne
    · by_cases hne : n = k
      · subst hne
        rw [hself] at hx
        rw [hx] at hk
        exact hk x rfl
      · rw [hother n hne] at hx
        cases hx

/-- The change a command makes. -/
def queueOp (n : ℕ) : Command KvStore.Key → Option (Option (List UInt8))
  | .setex (.qsector m) _ value => if m = n then some (some value) else none
  | .del (.qsector m) => if m = n then some none else none
  | _ => none

/-- The change that a list of commands makes. -/
def queueChange (cmds : List (Command KvStore.Key)) : QueueChange :=
  fun n => (cmds.filterMap (queueOp n)).getLast?

theorem queueOp_plain {cmd : Command KvStore.Key} (h : Plain cmd) (n : ℕ) :
    queueOp n cmd = none := by
  unfold queueOp
  split
  · exact absurd rfl (h.2 _)
  · exact absurd rfl (h.2 _)
  · rfl

theorem keys_after_issuable {cmd : Command KvStore.Key} (h : Issuable cmd) (d : Db KvStore.Key)
    (n : ℕ) : (d.after cmd).keys (.qsector n) =
      (queueOp n cmd).elim (d.keys (.qsector n)) (Option.map Value.string) := by
  cases h with
  | plain h =>
    rw [queueOp_plain h]
    exact keys_after (h.2 n)
  | enqueue m value =>
    by_cases hm : m = n
    · rw [queueOp, if_pos hm, hm]
      exact keys_put_self _
    · rw [queueOp, if_neg hm]
      exact keys_after (by simpa [Command.writes] using hm)
  | delete m =>
    by_cases hm : m = n
    · rw [queueOp, if_pos hm, hm]
      exact keys_put_self _
    · rw [queueOp, if_neg hm]
      exact keys_after (by simpa [Command.writes] using hm)

theorem queueChange_leads {cmds : List (Command KvStore.Key)} (h : ∀ cmd ∈ cmds, Issuable cmd)
    (d : Db KvStore.Key) : (queueChange cmds).Leads d (d.replay cmds) := by
  intro n
  induction cmds using List.reverseRecOn with
  | nil => rfl
  | append_singleton cmds cmd ih =>
    have hcmds := ih fun x hx => h x (List.mem_append_left _ hx)
    rw [replay_append]
    change ((d.replay cmds).after cmd).keys (.qsector n) = _
    rw [keys_after_issuable (h cmd (by simp)), hcmds, queueChange, queueChange,
      List.filterMap_append]
    cases hop : queueOp n cmd with
    | none => simp [hop]
    | some o => simp [hop]

theorem queueChange_plain {cmds : List (Command KvStore.Key)} (h : ∀ cmd ∈ cmds, Plain cmd) :
    queueChange cmds = .nothing := by
  funext n
  have hnone : cmds.filterMap (queueOp n) = [] :=
    List.filterMap_eq_nil_iff.mpr fun cmd hcmd => queueOp_plain (h cmd hcmd) n
  rw [queueChange, hnone]
  rfl

/-! ## What the source does to the queue -/

namespace Block

/-- What the store knows of the sector. -/
def pointer (b : Block) (d : Db KvStore.Key) : List UInt8 :=
  copyString 1024 (answer d (.get (.sector b.sector)))

/-- What `__emit_file_bytes` does to the entry of the first sector of the write. `vars` is what the
stack holds. -/
def retained (u : Setup) (b : Block) (d : Db KvStore.Key) (vars : ℕ → UInt8) :
    Option (Option (List UInt8)) :=
  match (tokens (b.pointer d))[1]?, (tokens (b.pointer d))[3]?, (tokens (b.pointer d))[5]? with
  | some start, some stop, some file =>
    let start := scanInto (leNat (junk vars 0 8)) start
    let stop := scanInto (leNat (junk vars 8 8)) stop
    let file := scanInto (leNat (junk vars 16 8)) file
    let size := leNat (overlay (junk vars 24 8)
      (copyString 8 (answer d (redisFileSectorGet file (ascii "size")))))
    if stop < size then some none
    else if u64 (size - start) ≤ b.size u then some (some (b.data.take (u64 (size - start))))
    else none
  | _, _, _ => none

def inspect {σ : Type} (c : Inspector σ) (fuel : ℕ) (b : Block) : Act σ Unit :=
  c.inspectBlock (c.deepInspect b.writeCounter fuel) b.write b.writeCounter b.i

/-- The commands that the inspection of a block issues. -/
def commands {σ : Type} (c : Inspector σ) (fuel : ℕ) (b : Block) (s : State σ) :
    List (Command KvStore.Key) :=
  (b.inspect c.logged fuel ⟨(s.store, []), s.frames⟩).elim [] fun p => p.2.store.2

/-- The sectors of blocks of inodes and of extents, whose inspection inspects other blocks. -/
def again (pointer : List UInt8) : Prop :=
  Inspector.named "lfiles" pointer ∨ Inspector.named "extent" pointer

instance (pointer : List UInt8) : Decidable (again pointer) := by unfold again; infer_instance

/-- The queue is as the disk after the block. A block of a sector that the store does not know is
queued itself, so only entries inside it are in the way. A block of a file leaves an entry for the
first sector of its write, or for none. -/
def Ok {σ : Type} {c : Inspector σ} (L : Lawful c.service) (fuel : ℕ) (disk : Disk) (b : Block)
    (s : State σ) : Prop :=
  let d := L.db s.store
  if b.pointer d = [] then ∀ n ≠ b.sector, b.Covers c.toSetup n → b.Extends d n
  else if Inspector.named "start" (b.pointer d) then
    (∀ n ≠ b.write.sectorNum, b.Covers c.toSetup n → b.Extends d n) ∧
      (b.retained c.toSetup d (c.stack s.frames)).elim
        (b.Covers c.toSetup b.write.sectorNum → b.Extends d b.write.sectorNum)
        (fun kept => ∀ x, kept = some x → (b.written c.toSetup disk).Begins b.write.sectorNum x)
  else if again (b.pointer d) then
    (∀ n, queueChange (b.commands c fuel s) n = none → b.Covers c.toSetup n → b.Extends d n) ∧
      ∀ n x, queueChange (b.commands c fuel s) n = some (some x) →
        (b.written c.toSetup disk).Begins n x
  else ∀ n, b.Covers c.toSetup n → b.Extends d n

end Block

namespace Inspector

section Effects

variable {σ : Type} {c : Inspector σ} (L : Lawful c.service) {s : State σ} {d : Db KvStore.Key}

/-- A call that only reads. -/
theorem query_yields (hs : L.At s d) {cmd : Command KvStore.Key} (hc : ∀ k, cmd ≠ .brpop k)
    (he : exec d cmd = some (answer d cmd, d)) :
    Yields (c.query cmd) s fun a t => a = answer d cmd ∧ t.frames = s.frames ∧ L.At t d := by
  intro a t h
  obtain ⟨ha, hat⟩ := (query_at L hs hc he).yields a t h
  obtain ⟨p, -, hp⟩ := Option.bind_eq_some_iff.mp h
  obtain ⟨-, rfl⟩ := Prod.mk.inj (Option.some.inj hp)
  exact ⟨ha, rfl, hat⟩

theorem copyLen_eq {len : ℕ} {src bytes : List UInt8} (h : copyLen len src = some bytes) :
    bytes = src.take len := by
  unfold copyLen at h
  split at h
  · exact (Option.some.inj h).symm
  · cases h

theorem keepLastBlock_yields (hs : L.At s d) (write : List UInt8) (rest len sector : ℕ) :
    Yields (c.keepLastBlock write rest len sector) s fun _ t => L.At t
      (if rest ≤ len then d.after (.setex (.qsector sector) defaultTimeout (write.take rest))
        else d) := by
  unfold keepLastBlock
  split
  · refine (defined_yields _).bind ?_
    rintro kept _ ⟨hkept, rfl⟩
    rw [copyLen_eq hkept]
    exact (append_at L hs (by simp)).yields
  · exact yields_pure hs

theorem publish_yields (hs : L.At s d) (channel : List UInt8) (kvs : List BsonKv) :
    Yields (c.publish channel kvs) s fun _ t => ∃ m, L.At t (d.after (.publish channel m)) := by
  refine (defined_yields _).bind ?_
  rintro b₁ _ ⟨-, rfl⟩
  refine (defined_yields _).bind ?_
  rintro b₂ _ ⟨-, rfl⟩
  exact (tell_at L hs (by simp)).yields.mono fun _ t ht => ⟨_, ht⟩

omit L in
/-- The last block is kept, and then a block that is not the last is deleted. -/
theorem only_leads {keep drop : Prop} [Decidable keep] [Decidable drop] (d : Db KvStore.Key)
    (sector : ℕ) (x channel m : List UInt8) :
    (QueueChange.only sector
      (if drop then some none else if keep then some (some x) else none)).Leads d
      ((if drop then (if keep then d.after (.setex (.qsector sector) defaultTimeout x)
          else d).after (.del (.qsector sector))
        else if keep then d.after (.setex (.qsector sector) defaultTimeout x) else d).after
          (.publish channel m)) := by
  intro n
  rw [keys_after (by simp [Command.writes]), QueueChange.only]
  by_cases hn : n = sector
  · subst hn
    rw [if_pos rfl]
    split
    · exact keys_put_self _
    · split
      · exact keys_put_self _
      · rfl
  · have hne : some (KvStore.Key.qsector sector) ≠ some (.qsector n) := by simpa using Ne.symm hn
    have hset : (d.after (.setex (.qsector sector) defaultTimeout x)).keys (.qsector n) =
        d.keys (.qsector n) := keys_after hne
    have hdel : ∀ e : Db KvStore.Key, (e.after (.del (.qsector sector))).keys (.qsector n) =
        e.keys (.qsector n) := fun e => keys_after hne
    have hkeep : (if keep then d.after (.setex (.qsector sector) defaultTimeout x) else d).keys
        (.qsector n) = d.keys (.qsector n) := by
      split
      · exact hset
      · rfl
    rw [if_neg hn]
    split
    · exact (hdel _).trans hkeep
    · exact hkeep

theorem emitFileBytes_yields (hs : L.At s d) (b : Block) (writeCounter : ℕ) :
    Yields (c.emitFileBytes b.data writeCounter (b.pointer d) (b.size c.toSetup) b.write.sectorNum)
      s fun _ t => (QueueChange.only b.write.sectorNum
        (b.retained c.toSetup d (c.stack s.frames))).Leads d (L.db t.store) := by
  unfold emitFileBytes
  refine Yields.bind (P := fun vars t => vars = c.stack s.frames ∧ L.At t d) ?_ ?_
  · intro vars t h
    obtain ⟨rfl, rfl⟩ := Prod.mk.inj (Option.some.inj h)
    exact ⟨rfl, hs⟩
  rintro _ t₁ ⟨rfl, ht₁⟩
  unfold Block.retained
  have hquiet : Yields (pure () : Act σ Unit) t₁ fun _ t =>
      (QueueChange.only b.write.sectorNum none).Leads d (L.db t.store) := by
    refine yields_pure ?_
    rw [ht₁.2]
    intro n
    rw [QueueChange.only, ite_self]
    rfl
  rcases (tokens (b.pointer d))[1]? with _ | start
  · exact hquiet
  rcases (tokens (b.pointer d))[3]? with _ | stop
  · exact hquiet
  rcases (tokens (b.pointer d))[5]? with _ | file
  · exact hquiet
  dsimp only
  refine (query_yields L ht₁ (by simp [redisFileSectorGet]) rfl).bind ?_
  rintro _ t₂ ⟨rfl, -, ht₂⟩
  split
  · intro a t h
    cases h
  refine (getField_at L ht₂ (by simp [redisFileSectorGet]) rfl _).yields.bind ?_
  rintro _ t₃ ⟨rfl, ht₃⟩
  refine (keepLastBlock_yields L ht₃ _ _ _ _).bind ?_
  intro _ t₄ ht₄
  refine (dropInnerBlock_at L ht₄ _ _ _).yields.bind ?_
  intro _ t₅ ht₅
  refine (publish_yields L ht₅ _ _).mono ?_
  rintro _ t ⟨m, -, hdb⟩
  rw [hdb]
  exact only_leads d _ _ _ m

/-! ## One block -/

/-- The handlers of the other metadata leave the queue as it is. -/
theorem dispatchWrite_quiet (hs : L.At s d) (inspect : BdrvWrite → Act σ Unit)
    {data pointer : List UInt8} {writeCounter len sector : ℕ}
    (hstart : named "start" pointer = false) (hagain : ¬ Block.again pointer) :
    Yields (c.dispatchWrite inspect data writeCounter pointer len sector) s fun _ t =>
      QueueChange.nothing.Leads d (L.db t.store) := by
  have hlfiles : named "lfiles" pointer = false := by
    simpa using fun h => hagain (.inl h)
  have hextent : named "extent" pointer = false := by
    simpa using fun h => hagain (.inr h)
  have hsim : Sim (Recorded L Plain d)
      (c.dispatchWrite inspect data writeCounter pointer len sector)
      (c.logged.dispatchWrite (fun _ => pure ()) data writeCounter pointer len sector) := by
    unfold dispatchWrite
    rw [hstart, hlfiles, hextent]
    simp only [Bool.false_eq_true, if_false]
    refine (sim_diffSuperblock inStep_plain _ _ _).ite ((sim_pure _).ite ?_)
    exact (sim_diffBgds inStep_plain _ _ _).ite
      ((sim_pure _).ite ((sim_pure _).ite ((sim_defined _).ite (sim_pure _))))
  intro _ t ht
  have hrec : Recorded L Plain d s ⟨(s.store, []), s.frames⟩ :=
    ⟨rfl, rfl, hs.1, hs.2, fun _ h => absurd h List.not_mem_nil⟩
  obtain ⟨t', -, hR⟩ := hsim.run hrec ht
  rw [hR.db, ← queueChange_plain hR.issued]
  exact queueChange_leads (fun cmd hcmd => .plain (hR.issued cmd hcmd)) d

end Effects

end Inspector

namespace Block
open Inspector

variable {σ : Type} {c : Inspector σ} (L : Lawful c.service) {s t : State σ} {b : Block} {fuel : ℕ}

theorem commands_lead (hs : L.Ok s.store) (h : b.inspect c fuel s = some ((), t)) :
    L.Ok t.store ∧ (queueChange (b.commands c fuel s)).Leads (L.db s.store) (L.db t.store) := by
  have hrec : Recorded L Issuable (L.db s.store) s ⟨(s.store, []), s.frames⟩ :=
    ⟨rfl, rfl, hs, rfl, fun _ h => absurd h List.not_mem_nil⟩
  obtain ⟨t', ht', hR⟩ := (sim_inspectBlock_issuable b.writeCounter fuel b.write b.i).run hrec h
  refine ⟨hR.ok, ?_⟩
  have hcmds : b.commands c fuel s = t'.store.2 := by
    unfold commands
    exact congrArg (fun o => Option.elim o [] fun p => p.2.store.2) ht'
  rw [hcmds, hR.db]
  exact queueChange_leads hR.issued _

theorem inspect_eq (c : Inspector σ) (fuel : ℕ) (b : Block) :
    b.inspect c fuel = c.query (.get (.sector b.sector)) >>= fun r =>
      if copyString 1024 r = [] then
        defined (copyLen (b.size c.toSetup) b.data) >>= fun bytes =>
          c.append (.setex (.qsector b.sector) defaultTimeout bytes)
      else if (copyString 1024 r).length = 1024 then defined none
      else c.dispatchWrite (c.deepInspect b.writeCounter fuel) b.data b.writeCounter
        (copyString 1024 r) (b.size c.toSetup) b.write.sectorNum := rfl

theorem inspect_unknown {d : Db KvStore.Key} (hs : L.At s d) (hp : b.pointer d = []) :
    Yields (b.inspect c fuel) s fun _ t =>
      (QueueChange.only b.sector (some (some (b.data.take (b.size c.toSetup))))).Leads d
        (L.db t.store) := by
  rw [inspect_eq]
  refine (query_yields L hs (by simp) rfl).bind ?_
  rintro _ t₁ ⟨rfl, -, ht₁⟩
  rw [if_pos (show copyString 1024 (answer d (.get (.sector b.sector))) = [] from hp)]
  refine (defined_yields _).bind ?_
  rintro bytes _ ⟨hbytes, rfl⟩
  rw [copyLen_eq hbytes]
  refine (append_at L ht₁ (by simp)).yields.mono ?_
  rintro _ t ⟨-, hdb⟩ n
  rw [hdb]
  by_cases hn : n = b.sector
  · rw [QueueChange.only, if_pos hn, hn]
    exact keys_put_self _
  · rw [QueueChange.only, if_neg hn]
    exact keys_after (by simpa [Command.writes] using Ne.symm hn)

/-- A block whose sector the store knows is dispatched. -/
theorem inspect_known {d : Db KvStore.Key} (hs : L.At s d) (hp : b.pointer d ≠ [])
    {Q : Unit → State σ → Prop}
    (h : ∀ t, t.frames = s.frames → L.At t d →
      Yields (c.dispatchWrite (c.deepInspect b.writeCounter fuel) b.data b.writeCounter
        (b.pointer d) (b.size c.toSetup) b.write.sectorNum) t Q) :
    Yields (b.inspect c fuel) s Q := by
  rw [inspect_eq]
  refine (query_yields L hs (by simp) rfl).bind ?_
  rintro _ t₁ ⟨rfl, hframes, ht₁⟩
  rw [if_neg (show ¬ copyString 1024 (answer d (.get (.sector b.sector))) = [] from hp)]
  split
  · intro _ t ht
    cases ht
  · exact h t₁ hframes ht₁

theorem inspect_start {d : Db KvStore.Key} (hs : L.At s d) (hp : b.pointer d ≠ [])
    (hstart : named "start" (b.pointer d) = true) :
    Yields (b.inspect c fuel) s fun _ t =>
      (QueueChange.only b.write.sectorNum (b.retained c.toSetup d (c.stack s.frames))).Leads d
        (L.db t.store) := by
  refine inspect_known L hs hp fun t₁ hframes ht₁ => ?_
  unfold dispatchWrite
  rw [if_pos hstart, ← hframes]
  exact emitFileBytes_yields L ht₁ b b.writeCounter

/-- One block of a write. -/
theorem ok_iff {disk : Disk} (hs : L.Ok s.store) (hsize : 0 < b.size c.toSetup)
    (h : b.inspect c fuel s = some ((), t)) (hq : QueueOk disk (L.db s.store)) :
    QueueOk (b.written c.toSetup disk) (L.db t.store) ↔ b.Ok L fuel disk s := by
  unfold Ok
  by_cases hp : b.pointer (L.db s.store) = []
  · rw [if_pos hp]
    rw [queueOk_iff hq (inspect_unknown L ⟨hs, rfl⟩ hp () t h), QueueChange.only_iff]
    refine and_iff_left fun x hx => ?_
    obtain rfl := Option.some.inj hx
    exact ⟨b.data, written_sector hsize disk, List.take_prefix _ _⟩
  rw [if_neg hp]
  by_cases hstart : named "start" (b.pointer (L.db s.store)) = true
  · rw [if_pos hstart]
    rw [queueOk_iff hq (inspect_start L ⟨hs, rfl⟩ hp hstart () t h), QueueChange.only_iff]
  rw [if_neg hstart]
  by_cases hagain : again (b.pointer (L.db s.store))
  · rw [if_pos hagain]
    exact queueOk_iff hq (commands_lead L hs h).2
  · rw [if_neg hagain]
    have hleads := inspect_known L ⟨hs, rfl⟩ hp (fun t₁ _ ht₁ =>
      dispatchWrite_quiet L ht₁ _ (by simpa using hstart) hagain) () t h
    rw [queueOk_iff hq hleads]
    simp [QueueChange.nothing]

end Block

end GammaRay.Inspect
