import GammaRay.InodeUpdate

set_option autoImplicit false

/-!
# Data and size in either order

A file grows within its last block. The write to the block and the write to its inode may
be inspected in either order; what a reader of the channel is told depends on it.
-/
namespace GammaRay.Inspect
open Bytes Decimal Redis KvStore Bson Ext4 Total Inspector

/-! ## What readers see of a block -/

/-- The bytes of a message for the block of a file that begins at `start`. -/
def dataFor (channel : List UInt8) (start : ℕ) (m : List UInt8 × List UInt8) :
    Option (List UInt8) :=
  if m.1 = channel then (readData m.2).bind fun p => if p.1 = start then some p.2 else none
  else none

/-- The bytes published for a block so far. -/
def published (channel : List UInt8) (start : ℕ) (d : Db KvStore.Key) : List (List UInt8) :=
  d.messages.filterMap (dataFor channel start)

section Published

variable {channel : List UInt8} {start : ℕ} {d e : Db KvStore.Key}
  {ms : List (List UInt8 × List UInt8)}

theorem published_append (h : e.messages = d.messages ++ ms) :
    published channel start e = published channel start d ++ ms.filterMap (dataFor channel start) := by
  rw [published, h, List.filterMap_append]
  rfl

theorem published_same (h : e.messages = d.messages ++ ms)
    (hms : ∀ m ∈ ms, dataFor channel start m = none) :
    published channel start e = published channel start d := by
  rw [published_append h, List.filterMap_eq_nil_iff.mpr hms, List.append_nil]

theorem dataFor_elsewhere {m : List UInt8 × List UInt8} (h : m.1 ≠ channel) :
    dataFor channel start m = none :=
  if_neg h

theorem dataFor_notice {m : List UInt8 × List UInt8} (h : readData m.2 = none) :
    dataFor channel start m = none := by
  rw [dataFor, h]
  exact ite_self _

theorem dataFor_dataDocument {start' : ℕ} (hstart : start' < 2 ^ 64) (stop : ℕ) (subtype : UInt8)
    {data : List UInt8} (hdata : data.length < 2 ^ 31) (writeCounter : ℕ) :
    dataFor channel start (channel, dataDocument start' stop subtype data writeCounter) =
      if start' = start then some data else none := by
  rw [dataFor, if_pos rfl, readData_dataDocument hstart stop subtype hdata]
  rfl

end Published

theorem dataPointer_injective {start stop file start' stop' file' : ℕ}
    (h : dataPointer start stop file = dataPointer start' stop' file') :
    start = start' ∧ stop = stop' ∧ file = file' := by
  have htokens := congrArg tokens h
  rw [tokens_dataPointer, tokens_dataPointer] at htokens
  simp only [List.cons.injEq, true_and, and_true] at htokens
  exact ⟨dec_injective htokens.1, dec_injective htokens.2.1, dec_injective htokens.2.2⟩

/-! ## Passes over the files of a block of inodes -/

/-- A file of a block of inodes, with what the store says of it and its new inode. -/
structure FileEntry where
  file : ℕ
  record : Record
  sectors : List ℤ
  leaves : List ℕ
  node : Inode × InodeStat

/-- The last block of a file, at sector `u64 z`. -/
structure LastBlock (u : Setup) (d : Db KvStore.Key) (x : FileEntry) (z : ℤ) (start : ℕ) :
    Prop where
  last : x.sectors.getLast? = some z
  pointer : d.keys (.sector (u64 z)) =
    some (.string (dataPointer start (start + u.blockSize) x.file))
  fits : start + u.blockSize < 2 ^ 64
  alone : ∀ y ∈ x.sectors, ∀ stop,
    d.keys (.sector (u64 y)) = some (.string (dataPointer start stop x.file)) → u64 y = u64 z

section Block

variable {u : Setup} {d : Db KvStore.Key} {x : FileEntry} {z : ℤ} {start size writeCounter : ℕ}
  {path : List UInt8}

theorem LastBlock.congr {e : Db KvStore.Key} (h : LastBlock u d x z start)
    (he : ∀ n, e.keys (.sector n) = d.keys (.sector n)) : LastBlock u e x z start where
  last := h.last
  pointer := (he _).trans h.pointer
  fits := h.fits
  alone y hy stop hk := h.alone y hy stop ((he _).symm.trans hk)

/-- A write to the last block of a file that ends in it. -/
theorem emitted_last (hfit : start + u.blockSize < 2 ^ 64) (hlt : start < size)
    (hle : size ≤ start + u.blockSize) (sector : ℕ) (subtype : UInt8) (write : List UInt8) :
    u.emitted sector start (start + u.blockSize) size path subtype write u.blockSize writeCounter
        d =
      (d.after (.setex (.qsector sector) defaultTimeout (write.take (size - start)))).after
        (.publish (u.constructChannelName path)
          (dataDocument start (start + u.blockSize) subtype (write.take (size - start))
            writeCounter)) := by
  have hrest : u64 ((size : ℤ) - start) = size - start := by
    rw [u64_of_range (by omega) (by omega)]
    omega
  have hkeep : size - start ≤ u.blockSize := by omega
  have hinner : ¬ start + u.blockSize < size := by omega
  simp only [Setup.emitted, hrest, hkeep, hinner, if_true, if_false]

/-- What is published when the queue holds `v` for the block and the stack `vars`. -/
def shown (u : Setup) (vars : ℕ → UInt8) (v : List UInt8) (len : ℕ) : List UInt8 :=
  (overlay (junk vars 0 u.blockSize) v).take len

theorem shown_length (u : Setup) (vars : ℕ → UInt8) {v : List UInt8} {len : ℕ}
    (hlen : len ≤ u.blockSize) : (shown u vars v len).length = len := by
  simp only [shown, overlay, junk, List.length_take, List.length_append, List.length_drop,
    List.length_map, List.length_range]
  omega

/-- Bytes that are long enough are published as they are. -/
theorem shown_of_le (u : Setup) (vars : ℕ → UInt8) {v : List UInt8} {len : ℕ}
    (hlen : len ≤ v.length) : shown u vars v len = v.take len := by
  rw [shown, overlay, List.take_append_of_le_length hlen]

theorem entry_congr {e : Db KvStore.Key} {n : ℕ} (h : e.keys (.qsector n) = d.keys (.qsector n)) :
    u.entry e n = u.entry d n := by
  simp only [Setup.entry, answer, exec, h, Option.elim_some]

theorem entry_of_keys {n : ℕ} {v : List UInt8} (h : d.keys (.qsector n) = some (.string v))
    (hlen : v.length ≤ u.blockSize) : u.entry d n = v := by
  have hanswer : answer d (.get (.qsector n)) = .string v := by
    simp only [answer, exec, h, Option.elim_some]
  rw [Setup.entry, hanswer, copyString_of_le hlen]

theorem entry_of_none {n : ℕ} (h : d.keys (.qsector n) = none) : u.entry d n = [] := by
  simp only [Setup.entry, answer, exec, h, Option.elim_some, copyString]

/-- What a reader knows after a write to the last block. -/
theorem emitted_last_shows (hfit : start + u.blockSize < 2 ^ 64) (hsmall : u.blockSize ≤ 2 ^ 29)
    (hlt : start < size) (hle : size ≤ start + u.blockSize) (sector : ℕ) (subtype : UInt8)
    (write : List UInt8) :
    let e := u.emitted sector start (start + u.blockSize) size path subtype write u.blockSize
      writeCounter d
    u.entry e sector = write.take (size - start) ∧
      published (u.constructChannelName path) start e =
        published (u.constructChannelName path) start d ++ [write.take (size - start)] := by
  have hlen : (write.take (size - start)).length ≤ u.blockSize := by
    rw [List.length_take]
    omega
  rw [emitted_last hfit hlt hle]
  constructor
  · refine entry_of_keys ?_ hlen
    exact (keys_after (by simp [Command.writes])).trans (keys_put_self _)
  · rw [published_append (d := d) rfl, List.filterMap_cons,
      dataFor_dataDocument (by omega) _ _ (by omega), if_pos rfl]
    rfl

/-- A pass over the block itself. -/
theorem run_block {p : Pass} (hfit : start + u.blockSize < 2 ^ 64)
    (hsmall : u.blockSize ≤ 2 ^ 29) (hlt : start < size) (hle : size ≤ start + u.blockSize)
    (hplace : p.place = some (start, start + u.blockSize)) (hv : u.entry d p.sector ≠ []) :
    let e := p.run u path size writeCounter d
    u.entry e p.sector = shown u p.vars (u.entry d p.sector) (size - start) ∧
      published (u.constructChannelName path) start e =
        published (u.constructChannelName path) start d ++
          [shown u p.vars (u.entry d p.sector) (size - start)] := by
  have h := @emitted_last_shows u (d.after (.del (.qsector p.sector))) start size writeCounter path
    hfit hsmall hlt hle p.sector p.subtype (p.block u d)
  simp only [Pass.run, if_neg hv, hplace]
  exact h

theorem run_empty {p : Pass} (hv : u.entry d p.sector = []) (channel : List UInt8) :
    let e := p.run u path size writeCounter d
    u.entry e p.sector = [] ∧ published channel start e = published channel start d := by
  simp only [Pass.run, if_pos hv]
  exact ⟨entry_of_none (keys_put_self _), rfl⟩

/-- A pass over another block of the file. -/
theorem run_elsewhere {p : Pass} (hsmall : u.blockSize ≤ 2 ^ 29)
    (hplace : ∀ a b, p.place = some (a, b) → a < 2 ^ 64 ∧ a ≠ start) (channel : List UInt8) :
    published channel start (p.run u path size writeCounter d) = published channel start d := by
  have hblock := Pass.block_length u p d
  simp only [Pass.run]
  split
  · rfl
  · split
    · rfl
    · rename_i a b hp
      obtain ⟨ha, hne⟩ := hplace a b hp
      refine published_same (d := d.after (.del (.qsector p.sector))) emitted_messages ?_
      intro m hm
      rw [List.mem_singleton] at hm
      rw [hm]
      by_cases hch : u.constructChannelName path = channel
      · rw [hch, dataFor_dataDocument ha _ _ (by rw [List.length_take]; omega), if_neg hne]
      · exact dataFor_elsewhere hch

variable {σ : Type} {c : Inspector σ}

/-- A pass over the last block knows its place, and no other pass has it. -/
theorem LastBlock.over (hb : LastBlock c.toSetup d x z start) {p : Pass}
    (hp : Over c d x.file x.sectors p) :
    (p.sector = u64 z → p.place = some (start, start + c.blockSize)) ∧
      (p.sector ≠ u64 z → ∀ a b, p.place = some (a, b) → a < 2 ^ 64 ∧ a ≠ start) := by
  have hpoints := hp.points
  constructor
  · intro hsector
    rw [hsector] at hpoints
    cases hplace : p.place with
    | none =>
      rw [hplace] at hpoints
      exact absurd (hpoints.symm.trans hb.pointer) (by simp)
    | some q =>
      rw [hplace] at hpoints
      have hkey := hpoints.2.2.symm.trans hb.pointer
      rw [Option.some.injEq, Redis.Value.string.injEq] at hkey
      obtain ⟨h₁, h₂, -⟩ := dataPointer_injective hkey
      rw [← h₂, ← h₁]
  · intro hsector a b hplace
    rw [hplace] at hpoints
    refine ⟨hpoints.1, ?_⟩
    rintro rfl
    obtain ⟨y, hy, hpy⟩ := hp.listed
    rw [hpy] at hpoints hsector
    exact hsector (hb.alone y hy b hpoints.2.2)

theorem Inspector.Over.congr {e : Db KvStore.Key} {file : ℕ} {sectors : List ℤ} {p : Pass}
    (h : Over c d file sectors p) (he : ∀ n, e.keys (.sector n) = d.keys (.sector n)) :
    Over c e file sectors p :=
  ⟨h.listed, h.points.congr (he _), h.vars⟩

theorem run_sector (p : Pass) (n : ℕ) :
    (p.run u path size writeCounter d).keys (.sector n) = d.keys (.sector n) :=
  Pass.run_keys (by simp)

/-- Passes that leave the last block out. -/
theorem runAll_away (hb : LastBlock c.toSetup d x z start) (hsmall : c.blockSize ≤ 2 ^ 29)
    {ps : List Pass} (hps : ∀ p ∈ ps, Over c d x.file x.sectors p)
    (haway : ∀ p ∈ ps, p.sector ≠ u64 z) (channel : List UInt8) :
    let e := Pass.runAll c.toSetup path size writeCounter ps d
    c.entry e (u64 z) = c.entry d (u64 z) ∧
      published channel start e = published channel start d := by
  induction ps generalizing d with
  | nil => exact ⟨rfl, rfl⟩
  | cons p ps ih =>
    have hp := haway p List.mem_cons_self
    obtain ⟨hentry, hpub⟩ := ih (d := p.run c.toSetup path size writeCounter d)
      (hb.congr (run_sector p))
      (fun q hq => (hps q (List.mem_cons_of_mem p hq)).congr (run_sector p))
      (fun q hq => haway q (List.mem_cons_of_mem p hq))
    constructor
    · refine hentry.trans (entry_congr (Pass.run_keys ?_))
      simpa using hp.symm
    · exact hpub.trans (run_elsewhere hsmall
        ((hb.over (hps p List.mem_cons_self)).2 hp) channel)

/-- Passes when the queue has nothing for the last block. -/
theorem runAll_empty (hb : LastBlock c.toSetup d x z start) (hsmall : c.blockSize ≤ 2 ^ 29)
    {ps : List Pass} (hps : ∀ p ∈ ps, Over c d x.file x.sectors p)
    (hv : c.entry d (u64 z) = []) (channel : List UInt8) :
    let e := Pass.runAll c.toSetup path size writeCounter ps d
    c.entry e (u64 z) = [] ∧ published channel start e = published channel start d := by
  induction ps generalizing d with
  | nil => exact ⟨hv, rfl⟩
  | cons p ps ih =>
    have hfirst : c.entry (p.run c.toSetup path size writeCounter d) (u64 z) = [] ∧
        published channel start (p.run c.toSetup path size writeCounter d) =
          published channel start d := by
      by_cases hp : p.sector = u64 z
      · rw [← hp] at hv ⊢
        exact run_empty hv channel
      · refine ⟨?_, run_elsewhere hsmall ((hb.over (hps p List.mem_cons_self)).2 hp) channel⟩
        rw [← hv]
        refine entry_congr (Pass.run_keys ?_)
        simpa using Ne.symm hp
    obtain ⟨hentry, hpub⟩ := ih (d := p.run c.toSetup path size writeCounter d)
      (hb.congr (run_sector p))
      (fun q hq => (hps q (List.mem_cons_of_mem p hq)).congr (run_sector p)) hfirst.1
    exact ⟨hentry, hpub.trans hfirst.2⟩

/-- Passes that take the last block in: what the first of them makes of the queue and the stack
is published by each. -/
theorem runAll_shows (hb : LastBlock c.toSetup d x z start) (hsmall : c.blockSize ≤ 2 ^ 29)
    (hlt : start < size) (hle : size ≤ start + c.blockSize) {ps : List Pass}
    (hps : ∀ p ∈ ps, Over c d x.file x.sectors p) (hmem : ∃ p ∈ ps, p.sector = u64 z)
    (hv : c.entry d (u64 z) ≠ []) :
    let e := Pass.runAll c.toSetup path size writeCounter ps d
    let channel := c.constructChannelName path
    ∃ n k, c.entry e (u64 z) = shown c.toSetup (c.stack n) (c.entry d (u64 z)) (size - start) ∧
      published channel start e = published channel start d ++
        List.replicate (k + 1) (shown c.toSetup (c.stack n) (c.entry d (u64 z)) (size - start)) := by
  have hlen : size - start ≤ c.blockSize := by omega
  induction ps generalizing d with
  | nil =>
    obtain ⟨p, hp, -⟩ := hmem
    cases hp
  | cons p ps ih =>
    set d₁ := p.run c.toSetup path size writeCounter d with hd₁
    have hb₁ : LastBlock c.toSetup d₁ x z start := hb.congr (run_sector p)
    have hps₁ : ∀ q ∈ ps, Over c d₁ x.file x.sectors q :=
      fun q hq => (hps q (List.mem_cons_of_mem p hq)).congr (run_sector p)
    obtain ⟨hplace, helse⟩ := hb.over (hps p List.mem_cons_self)
    by_cases hp : p.sector = u64 z
    · obtain ⟨n, hn⟩ := (hps p List.mem_cons_self).vars
      obtain ⟨hentry, hpub⟩ := @run_block c.toSetup d start size writeCounter path p hb.fits
        hsmall hlt hle (hplace hp) (by rw [hp]; exact hv)
      rw [hp, hn] at hentry hpub
      set w := shown c.toSetup (c.stack n) (c.entry d (u64 z)) (size - start) with hw
      have hwlen : w.length = size - start := shown_length _ _ hlen
      by_cases hmore : ∃ q ∈ ps, q.sector = u64 z
      · have hne : c.entry d₁ (u64 z) ≠ [] := by
          rw [hentry]
          exact List.ne_nil_of_length_pos (by omega)
        obtain ⟨m, k, hentry', hpub'⟩ := ih hb₁ hps₁ hmore hne
        have hagain : shown c.toSetup (c.stack m) (c.entry d₁ (u64 z)) (size - start) = w := by
          rw [hentry, shown_of_le _ _ hwlen.ge, ← hwlen, List.take_length]
        rw [hagain] at hentry' hpub'
        rw [hpub, List.append_assoc] at hpub'
        exact ⟨n, k + 1, hentry', hpub'⟩
      · have haway : ∀ q ∈ ps, q.sector ≠ u64 z := fun q hq he => hmore ⟨q, hq, he⟩
        obtain ⟨hentry', hpub'⟩ := runAll_away hb₁ hsmall hps₁ haway (c.constructChannelName path)
        exact ⟨n, 0, hentry'.trans hentry, hpub'.trans hpub⟩
    · have hmore : ∃ q ∈ ps, q.sector = u64 z := by
        obtain ⟨q, hq, hqs⟩ := hmem
        rcases List.mem_cons.mp hq with rfl | hq
        · exact absurd hqs hp
        · exact ⟨q, hq, hqs⟩
      have hentry : c.entry d₁ (u64 z) = c.entry d (u64 z) :=
        entry_congr (Pass.run_keys (by simpa using Ne.symm hp))
      have hpub := @run_elsewhere c.toSetup d start size writeCounter path p hsmall (helse hp)
        (c.constructChannelName path)
      obtain ⟨n, k, hentry', hpub'⟩ := ih hb₁ hps₁ hmore (by rw [hentry]; exact hv)
      rw [hentry] at hentry' hpub'
      rw [hpub] at hpub'
      exact ⟨n, k, hentry', hpub'⟩

end Block

/-- The inode of the file in the write has the extents that the store has. A file that grows has a
block. -/
structure FileEntry.Ready (u : Setup) (write : List UInt8) (d : Db KvStore.Key) (x : FileEntry) :
    Prop where
  tracked : Tracked d x.file x.record x.sectors x.leaves
  node : inodeAt (bufferOf write) x.record.offset = some x.node
  same : hasExtents x.node.1.iMode → SameExtents u d x.file x.sectors x.leaves
    (bufferOf (write.drop (x.record.offset + 40)))
  grows : x.record.size < ext4FileSize x.node.1 → x.sectors ≠ []

/-- What the inspection of an inode may change. -/
def FileEntry.Touches (x : FileEntry) (k : KvStore.Key) : Prop :=
  k = .file x.file ∨ ∃ z ∈ x.sectors, k = .qsector (u64 z)

/-- Nothing but what concerns the files has changed. -/
structure Beside (u : Setup) (l : List FileEntry) (d e : Db KvStore.Key) : Prop where
  keys : ∀ k, (∀ x ∈ l, ¬ x.Touches k) → e.keys k = d.keys k
  messages : ∃ ms, e.messages = d.messages ++ ms ∧
    ∀ m ∈ ms, ∃ x ∈ l, m.1 = u.constructChannelName x.record.path

section Files

variable {u : Setup} {d e f : Db KvStore.Key} {l : List FileEntry} {x y : FileEntry}
  {write : List UInt8}

theorem Beside.refl (u : Setup) (d : Db KvStore.Key) : Beside u [] d d :=
  ⟨fun _ _ => rfl, [], (List.append_nil _).symm, by simp⟩

theorem Beside.cons (h : Beside u [x] d e) (h' : Beside u l e f) : Beside u (x :: l) d f := by
  obtain ⟨ms, hms, hch⟩ := h.messages
  obtain ⟨ns, hns, hch'⟩ := h'.messages
  refine ⟨fun k hk => ?_, ms ++ ns, by rw [hns, hms, List.append_assoc], fun m hm => ?_⟩
  · rw [h'.keys k fun y hy => hk y (List.mem_cons_of_mem x hy)]
    exact h.keys k fun y hy => hk y (by rw [List.mem_singleton.mp hy]; exact List.mem_cons_self)
  · rcases List.mem_append.mp hm with hm | hm
    · obtain ⟨y, hy, hmy⟩ := hch m hm
      exact ⟨y, by rw [List.mem_singleton.mp hy]; exact List.mem_cons_self, hmy⟩
    · obtain ⟨y, hy, hmy⟩ := hch' m hm
      exact ⟨y, List.mem_cons_of_mem x hy, hmy⟩

theorem Inspector.Tracked.congr {file : ℕ} {r : Record} {sectors : List ℤ} {leaves : List ℕ}
    (h : Tracked d file r sectors leaves) (hfile : e.keys (.file file) = d.keys (.file file))
    (hlist : e.keys (.filesectors file) = d.keys (.filesectors file))
    (htree : e.keys (.extents file) = d.keys (.extents file))
    (hsector : ∀ n, e.keys (.sector n) = d.keys (.sector n)) :
    Tracked e file r sectors leaves where
  id_lt := h.id_lt
  record := by
    obtain ⟨fields, hk, hrest⟩ := h.record
    exact ⟨fields, hfile.trans hk, hrest⟩
  sectors_eq := (listAt_congr hlist).trans h.sectors_eq
  sectors_range := h.sectors_range
  sectors_length := h.sectors_length
  points z hz := by
    obtain ⟨place, hp⟩ := h.points z hz
    exact ⟨place, hp.congr (hsector _)⟩
  leaves_eq := (listAt_congr htree).trans h.leaves_eq
  leaves_lt := h.leaves_lt

theorem FileEntry.Ready.beside (h : y.Ready u write d) (hb : Beside u l d e)
    (hne : ∀ x ∈ l, y.file ≠ x.file) : y.Ready u write e := by
  have hsector : ∀ n, e.keys (.sector n) = d.keys (.sector n) :=
    fun n => hb.keys _ fun x _ => by simp [FileEntry.Touches]
  refine ⟨h.tracked.congr (hb.keys _ fun x hx => ?_) (hb.keys _ fun x _ => ?_)
    (hb.keys _ fun x _ => ?_) hsector, h.node, fun hm => ?_, h.grows⟩
  · simp [FileEntry.Touches, hne x hx]
  · simp [FileEntry.Touches]
  · simp [FileEntry.Touches]
  · exact (h.same hm).congr hsector

variable {σ : Type} {c : Inspector σ} (L : Lawful c.service) {s : State σ}

theorem Inspector.Updated.beside {ps : List Pass}
    (hu : Updated c.toSetup d x.file x.record x.node e)
    (hps : ∀ p ∈ ps, Over c e x.file x.sectors p) (writeCounter : ℕ) :
    Beside c.toSetup [x] d (Pass.runAll c.toSetup x.record.path (x.record.update x.node).size
      writeCounter ps e) := by
  obtain ⟨ms, hms, hmsg⟩ := hu.messages
  obtain ⟨ns, hns, hch⟩ := @Pass.runAll_messages c.toSetup x.record.path
    (x.record.update x.node).size writeCounter e ps
  refine ⟨fun k hk => ?_, ms ++ ns, by rw [hns, hmsg, List.append_assoc], fun m hm => ?_⟩
  · have hx := hk x (List.mem_singleton.mpr rfl)
    rw [FileEntry.Touches, not_or] at hx
    rw [Pass.runAll_keys, hu.keys k hx.1]
    intro p hp he
    obtain ⟨z, hz, hpz⟩ := (hps p hp).listed
    exact hx.2 ⟨z, hz, by rw [he, hpz]⟩
  · refine ⟨x, List.mem_singleton.mpr rfl, ?_⟩
    exact (List.mem_append.mp hm).elim (fun h => (hms m h).1) (hch m)

/-- The inodes of other files. -/
theorem diffInodes_beside (hown : L.Own) (hc : c.Geometry)
    (hready : ∀ x ∈ l, x.Ready c.toSetup write d)
    (hnd : (l.map FileEntry.file).Nodup) (hs : L.At s d) {v : InodeVars} (hv : v.Sized)
    (writeCounter fuel : ℕ) :
    Ensures ((l.map fun x => reference "file:" x.file).foldlM
      (c.diffInode (c.deepInspect writeCounter (fuel + 1)) write writeCounter) v) s fun v' t =>
        v'.Sized ∧ ∃ e, Beside c.toSetup l d e ∧ L.At t e := by
  induction l generalizing d s v with
  | nil => exact ensures_pure ⟨hv, d, .refl _ d, hs⟩
  | cons x l ih =>
    rw [List.map_cons, List.nodup_cons] at hnd
    have hx := hready x List.mem_cons_self
    rw [List.map_cons, List.foldlM_cons]
    refine (diffInode_at L hown hc hx.tracked hs hv hx.node hx.same hx.grows writeCounter fuel).bind ?_
    rintro v₁ t ⟨hv₁, e, ps, hu, hps, -, ht⟩
    have hbeside := hu.beside hps writeCounter
    refine (ih ?_ hnd.2 ht hv₁).mono ?_
    · intro y hy
      refine (hready y (List.mem_cons_of_mem x hy)).beside hbeside fun w hw => ?_
      rw [List.mem_singleton.mp hw]
      exact fun he => hnd.1 (he ▸ List.mem_map_of_mem hy)
    · rintro v₂ t₂ ⟨hv₂, f, hf, ht₂⟩
      exact ⟨hv₂, f, hbeside.cons hf, ht₂⟩

end Files

/-! ## A file that grows within its last block -/

/-- A write to a block of inodes, the file that grows, and its last block. -/
structure InodeBlock where
  sector : ℕ
  list : ℕ
  write : List UInt8
  before : List FileEntry
  target : FileEntry
  after : List FileEntry
  z : ℤ
  start : ℕ

namespace InodeBlock

def files (b : InodeBlock) : List FileEntry := b.before ++ b.target :: b.after

def oldSize (b : InodeBlock) : ℕ := b.target.record.size

def newSize (b : InodeBlock) : ℕ := ext4FileSize b.target.node.1

def path (b : InodeBlock) : List UInt8 := b.target.record.path

/-- The store before the writes. No other file of the block of inodes has the path of the file
or its last block. -/
structure Grows (u : Setup) (d : Db KvStore.Key) (b : InodeBlock) : Prop where
  sector_lt : b.sector < 2 ^ 64
  list_lt : b.list < 2 ^ 64
  write_length : b.write.length = u.blockSize
  pointer : d.keys (.sector b.sector) = some (.string (reference "lfiles:" b.list))
  listed : d.listAt (.files b.list) = some (b.files.map fun x => reference "file:" x.file)
  ready : ∀ x ∈ b.files, x.Ready u b.write d
  distinct : (b.files.map FileEntry.file).Nodup
  block : LastBlock u d b.target b.z b.start
  others : ∀ x ∈ b.before ++ b.after,
    u.constructChannelName x.record.path ≠ u.constructChannelName b.path ∧
      ∀ y ∈ x.sectors, u64 y ≠ u64 b.z
  starts : b.start < b.oldSize
  grows : b.oldSize < b.newSize
  ends : b.newSize ≤ b.start + u.blockSize

variable {u : Setup} {d e : Db KvStore.Key} {b : InodeBlock}

theorem Grows.congr (h : b.Grows u d) (he : ∀ k, (∀ n, k ≠ .qsector n) → e.keys k = d.keys k) :
    b.Grows u e where
  sector_lt := h.sector_lt
  list_lt := h.list_lt
  write_length := h.write_length
  pointer := (he _ (by simp)).trans h.pointer
  listed := (listAt_congr (he _ (by simp))).trans h.listed
  ready x hx := by
    have hr := h.ready x hx
    have hsector : ∀ n, e.keys (.sector n) = d.keys (.sector n) := fun n => he _ (by simp)
    exact ⟨hr.tracked.congr (he _ (by simp)) (he _ (by simp)) (he _ (by simp)) hsector, hr.node,
      fun hm => (hr.same hm).congr hsector, hr.grows⟩
  distinct := h.distinct
  block := h.block.congr fun n => he _ (by simp)
  others := h.others
  starts := h.starts
  grows := h.grows
  ends := h.ends

theorem Grows.newSize_lt (h : b.Grows u d) : b.newSize < 2 ^ 64 := by
  have h₁ := h.ends
  have h₂ := h.block.fits
  omega

theorem Grows.updated_size (h : b.Grows u d) :
    (b.target.record.update b.target.node).size = b.newSize :=
  leNat_leBytes_of_lt h.newSize_lt

theorem Grows.known (h : b.Grows u d) : Known d b.target.file b.path b.oldSize :=
  (h.ready b.target (by simp [files])).tracked.record.known

variable {σ : Type} {c : Inspector σ} (L : Lawful c.service) {s : State σ}

/-- What the write to the inodes makes of the last block. -/
structure Grown (c : Inspector σ) (b : InodeBlock) (d e : Db KvStore.Key) : Prop where
  sectors : ∀ n, e.keys (.sector n) = d.keys (.sector n)
  known : Known e b.target.file b.path b.newSize
  empty : c.entry d (u64 b.z) = [] →
    published (c.constructChannelName b.path) b.start e =
      published (c.constructChannelName b.path) b.start d
  shows : c.entry d (u64 b.z) ≠ [] → ∃ n k,
    published (c.constructChannelName b.path) b.start e =
      published (c.constructChannelName b.path) b.start d ++ List.replicate (k + 1)
        (shown c.toSetup (c.stack n) (c.entry d (u64 b.z)) (b.newSize - b.start))

theorem Grows.distinct_middle (h : b.Grows u d) :
    (∀ x ∈ b.before ++ b.after, x.file ≠ b.target.file) ∧
      ((b.before ++ b.after).map FileEntry.file).Nodup := by
  have hnd := h.distinct
  rw [files, List.map_append, List.map_cons, List.nodup_middle, List.nodup_cons,
    ← List.map_append] at hnd
  exact ⟨fun x hx he => hnd.1 (he ▸ List.mem_map_of_mem hx), hnd.2⟩

/-- The same to whoever only looks at the last block. -/
structure Alike (u : Setup) (b : InodeBlock) (d e : Db KvStore.Key) : Prop where
  sectors : ∀ n, e.keys (.sector n) = d.keys (.sector n)
  record : e.keys (.file b.target.file) = d.keys (.file b.target.file)
  entry : u.entry e (u64 b.z) = u.entry d (u64 b.z)
  published : published (u.constructChannelName b.path) b.start e =
    published (u.constructChannelName b.path) b.start d

/-- Other files keep clear of the last block. -/
theorem Grows.alike (h : b.Grows u d) {l : List FileEntry} (hl : ∀ x ∈ l, x ∈ b.before ++ b.after)
    {f : Db KvStore.Key} (hb : Beside u l f e) : b.Alike u f e := by
  obtain ⟨ms, hms, hch⟩ := hb.messages
  refine ⟨fun n => hb.keys _ fun x _ => by simp [FileEntry.Touches], hb.keys _ fun x hx => ?_,
    entry_congr (hb.keys _ fun x hx => ?_), published_same hms fun m hm => ?_⟩
  · simp [FileEntry.Touches, (h.distinct_middle.1 x (hl x hx)).symm]
  · simp only [FileEntry.Touches, reduceCtorEq, false_or, KvStore.Key.qsector.injEq]
    rintro ⟨y, hy, he⟩
    exact (h.others x (hl x hx)).2 y hy he.symm
  · obtain ⟨x, hx, hm⟩ := hch m hm
    exact dataFor_elsewhere (by rw [hm]; exact (h.others x (hl x hx)).1)

theorem Grown.alike {f g : Db KvStore.Key} (h : b.Grown c d e) (hd : b.Alike c.toSetup f d)
    (he : b.Alike c.toSetup e g) : b.Grown c f g where
  sectors n := ((he.sectors n).trans (h.sectors n)).trans (hd.sectors n)
  known := h.known.congr he.record
  empty hv := by
    rw [he.published, h.empty (hd.entry.trans hv), hd.published]
  shows hv := by
    obtain ⟨n, k, hshown⟩ := h.shows (by rw [hd.entry]; exact hv)
    rw [hd.entry] at hshown
    exact ⟨n, k, by rw [he.published, hshown, hd.published]⟩

/-- The inode of the file itself. -/
theorem Grows.target_grown {f : Db KvStore.Key} (h : b.Grows c.toSetup f)
    (hsmall : c.blockSize ≤ 2 ^ 29) (hblock : LastBlock c.toSetup d b.target b.z b.start)
    {ps : List Pass} (hu : Updated c.toSetup d b.target.file b.target.record b.target.node e)
    (hps : ∀ p ∈ ps, Over c e b.target.file b.target.sectors p)
    (hlast : ∃ p ∈ ps, p.sector = u64 b.z) (writeCounter : ℕ) :
    b.Grown c d (Pass.runAll c.toSetup b.path b.newSize writeCounter ps e) := by
  have hsector : ∀ n, e.keys (.sector n) = d.keys (.sector n) := fun n => hu.keys _ (by simp)
  have hentry : c.entry e (u64 b.z) = c.entry d (u64 b.z) := entry_congr (hu.keys _ (by simp))
  have hblock' := hblock.congr hsector
  obtain ⟨ms, hms, hmsg⟩ := hu.messages
  have hpub : Inspect.published (c.constructChannelName b.path) b.start e =
      Inspect.published (c.constructChannelName b.path) b.start d :=
    published_same hmsg fun m hm => dataFor_notice (hms m hm).2
  have hknown : Known e b.target.file b.path b.newSize := by
    rw [← h.updated_size]
    exact hu.record.known
  refine ⟨fun n => ?_, hknown.congr (Pass.runAll_keys fun p _ => by simp), fun hv => ?_,
    fun hv => ?_⟩
  · rw [Pass.runAll_keys fun p _ => by simp]
    exact hsector n
  · rw [← hentry] at hv
    exact (runAll_empty hblock' hsmall hps hv _).2.trans hpub
  · rw [← hentry] at hv
    obtain ⟨n, k, -, hshown⟩ := runAll_shows hblock' hsmall (h.starts.trans h.grows) h.ends hps
      hlast hv
    rw [hpub, hentry] at hshown
    exact ⟨n, k, hshown⟩

theorem diffInodes_grown (hown : L.Own) (hc : c.Geometry) (h : b.Grows c.toSetup d) (hs : L.At s d)
    (writeCounter fuel : ℕ) :
    Ensures (c.diffInodes (c.deepInspect writeCounter (fuel + 1)) b.write writeCounter
      (reference "lfiles:" b.list)) s fun _ t => ∃ e, b.Grown c d e ∧ L.At t e := by
  have htoken := tokens_reference (show ascii "lfiles:" = ascii "lfiles" ++ [58] from rfl)
    (by decide) (by decide) (by decide) h.list_lt
  obtain ⟨hother, hnd⟩ := h.distinct_middle
  rw [List.map_append] at hnd
  have hbefore : ∀ x ∈ b.before, x ∈ b.before ++ b.after := fun x => List.mem_append_left _
  have hafter : ∀ x ∈ b.after, x ∈ b.before ++ b.after := fun x => List.mem_append_right _
  have htarget : b.target ∈ b.files := by simp [files]
  unfold diffInodes
  refine (enter_at L hs).bind ?_
  rintro vars t₁ ⟨-, ht₁⟩
  refine ensures_bind_of_eq (pointerTarget_eq htoken) ?_
  rw [scanInto_dec]
  refine (query_at L ht₁ (by simp [redisFilesLget]) rfl).bind ?_
  rintro _ t₂ ⟨rfl, ht₂⟩
  rw [redisFilesLget, answer_lrange h.listed]
  refine ensures_bind_of_eq (t := t₂) (a := b.files.map fun x => reference "file:" x.file) rfl ?_
  refine Ensures.bind (P := fun _ t => ∃ e, b.Grown c d e ∧ L.At t e) ?_
    fun _ t ht => ensures_pure ht
  rw [files, List.map_append, List.map_cons, List.foldlM_append]
  -- the files before it
  refine (diffInodes_beside L hown hc (fun x hx => h.ready x (List.mem_append_left _ hx))
    (List.Nodup.of_append_left hnd) ht₂ (inodeVars_sized vars) writeCounter fuel).bind ?_
  rintro v₁ t₃ ⟨hv₁, d₁, hb₁, ht₃⟩
  have ha₁ := h.alike hbefore hb₁
  -- the file itself
  have hready := (h.ready b.target htarget).beside hb₁ fun x hx => (hother x (hbefore x hx)).symm
  rw [List.foldlM_cons]
  refine (diffInode_at L hown hc hready.tracked ht₃ hv₁ hready.node hready.same hready.grows
    writeCounter fuel).bind ?_
  rintro v₂ t₄ ⟨hv₂, e, ps, hu, hps, hlast, ht₄⟩
  obtain ⟨z, hz, hp⟩ := hlast h.grows
  rw [h.block.last, Option.some.injEq] at hz
  rw [← hz] at hp
  have hbeside := hu.beside hps writeCounter
  rw [h.updated_size] at ht₄ hbeside
  have hgrown := h.target_grown hc.small (h.block.congr ha₁.sectors) hu hps hp writeCounter
  -- the files after it
  refine (diffInodes_beside L hown hc ?_ (List.Nodup.of_append_right hnd) ht₄ hv₂ writeCounter
    fuel).mono ?_
  · intro x hx
    have hx₁ : x.Ready c.toSetup b.write d₁ :=
      (h.ready x (List.mem_append_right _ (List.mem_cons_of_mem _ hx))).beside hb₁ fun y hy =>
        ((List.nodup_append.mp hnd).2.2 _ (List.mem_map_of_mem hy) _ (List.mem_map_of_mem hx)).symm
    refine hx₁.beside hbeside fun y hy => ?_
    rw [List.mem_singleton.mp hy]
    exact hother x (hafter x hx)
  · rintro _ t ⟨-, d₂, hb₂, ht⟩
    exact ⟨d₂, hgrown.alike ha₁ (h.alike hafter hb₂), ht⟩

/-- The write to the block of inodes. -/
def inodeWrite (b : InodeBlock) (u : Setup) : BdrvWrite :=
  ⟨b.sector, u.blockSize / sectorSize, b.write⟩

/-- A write of a whole block to the last block of the file. -/
def dataWrite (b : InodeBlock) (u : Setup) (data : List UInt8) : BdrvWrite :=
  ⟨u64 b.z, u.blockSize / sectorSize, data⟩

theorem u64_add_zero {n : ℕ} (h : n < 2 ^ 64) : u64 ((n : ℤ) + (0 : ℕ)) = n := by
  rw [Nat.cast_zero, add_zero, u64_of_range (by omega) (by exact_mod_cast h)]
  rfl

theorem inodeWrite_grown (hown : L.Own) (hc : c.Geometry) (h : b.Grows c.toSetup d) (hs : L.At s d)
    (writeCounter fuel : ℕ) :
    Ensures (c.deepInspect writeCounter (fuel + 2) (b.inodeWrite c.toSetup)) s
      fun _ t => ∃ e, b.Grown c d e ∧ L.At t e := by
  have htext : reference "lfiles:" b.list = ascii "lfiles:" ++ dec b.list := by
    rw [reference, u64_of_range (by omega) (by exact_mod_cast h.list_lt)]
    rfl
  have hdec : (dec b.list).length ≤ 20 :=
    dec_length_le (by decide) (by have h := h.list_lt; omega)
  have hname : (ascii "lfiles:").length = 7 := rfl
  have hne : reference "lfiles:" b.list ≠ [] := by rw [htext]; simp [ascii]
  have hlen : (reference "lfiles:" b.list).length < 1024 := by
    rw [htext, List.length_append]
    omega
  refine deepInspect_single L hc rfl ?_
  unfold inspectBlock inodeWrite
  simp only [u64_add_zero h.sector_lt]
  refine (query_at L hs (by simp) rfl).bind ?_
  rintro _ t ⟨rfl, ht⟩
  have hanswer : answer d (.get (.sector b.sector)) = .string (reference "lfiles:" b.list) := by
    simp only [answer, exec, h.pointer, Option.elim_some]
  rw [hanswer, copyString_of_le hlen.le, if_neg hne, if_neg hlen.ne, Nat.zero_mul,
    List.drop_zero]
  unfold dispatchWrite
  have hnot : ∀ name ∈ ["start", "fs", "mbr", "lbgds"],
      named name (reference "lfiles:" b.list) = false := by
    intro name hname
    fin_cases hname
    all_goals rfl
  rw [if_neg (by rw [hnot "start" (by simp)]; simp), if_neg (by rw [hnot "fs" (by simp)]; simp),
    if_neg (by rw [hnot "mbr" (by simp)]; simp), if_neg (by rw [hnot "lbgds" (by simp)]; simp),
    if_pos (show named "lfiles" (reference "lfiles:" b.list) = true from rfl)]
  exact diffInodes_grown L hown hc h ht writeCounter fuel

/-- The write of data, while the file has a size within its last block. -/
theorem dataWrite_shows (hc : c.Geometry) (hblock : LastBlock c.toSetup d b.target b.z b.start)
    (hfile : b.target.file < 2 ^ 64) {size : ℕ} (hk : Known d b.target.file b.path size)
    (hlt : b.start < size) (hle : size ≤ b.start + c.blockSize) {data : List UInt8}
    (hdata : data.length = c.blockSize) (hs : L.At s d) (writeCounter fuel : ℕ) :
    Ensures (c.deepInspect writeCounter (fuel + 1) (b.dataWrite c.toSetup data)) s
      fun _ t => ∃ e, ((∀ k, (∀ n, k ≠ .qsector n) → e.keys k = d.keys k) ∧
        c.entry e (u64 b.z) = data.take (size - b.start) ∧
        published (c.constructChannelName b.path) b.start e =
          published (c.constructChannelName b.path) b.start d ++ [data.take (size - b.start)]) ∧
        L.At t e := by
  have hfits := hblock.fits
  have hsize : c.blockSizeAt (b.dataWrite c.toSetup data) 0 = c.blockSize := blockSizeAt_single hc rfl
  have hu : u64 ((u64 b.z : ℤ) + (0 : ℕ)) = u64 b.z := u64_add_zero (u64_lt _)
  refine deepInspect_single L hc rfl ?_
  refine (inspectBlock_data L hs (by rw [dataWrite, hu]; exact hblock.pointer) (by omega) (by omega)
    hfile (by rw [hsize, dataWrite, Nat.zero_mul, List.drop_zero, hdata]) hc.small
    (by rw [hk.path_eq]; exact hk.path_lt.ne) _ _).mono ?_
  rintro _ t ⟨n, ht⟩
  rw [hk.size_overlay, hk.path_eq, hsize, Nat.zero_mul, List.drop_zero] at ht
  obtain ⟨hentry, hpub⟩ := emitted_last_shows hfits hc.small hlt hle (u64 b.z) (c.stack n 32) data
  exact ⟨_, ⟨fun k hk => emitted_keys (hk _), hentry, hpub⟩, ht⟩

end InodeBlock

end GammaRay.Inspect
