import GammaRay.FileData
import GammaRay.Patch

set_option autoImplicit false

/-!
# Copies of files

A subscriber to the channel of a file can keep a copy of it: it stores the bytes of every data
message at the place the message gives. The copy is that of the file on the disk after any
sequence of writes to blocks of files.
-/
namespace GammaRay.Inspect
open Bytes Decimal Redis KvStore Bson Ext4 Total Patch
open Inspector (Known)

/-! ## Files on a disk -/

/-- Where the blocks of files lie: a sector of the disk belongs to a file from some place in it
on. Neither on the disk nor in a file do two blocks overlap. -/
structure Layout (blockSize : ℕ) where
  place : ℕ → Option (ℕ × ℕ)
  path : ℕ → List UInt8
  size : ℕ → ℕ
  apart : ∀ {s s' : ℕ}, (place s).isSome → (place s').isSome → s ≠ s' →
    s * sectorSize + blockSize ≤ s' * sectorSize ∨ s' * sectorSize + blockSize ≤ s * sectorSize
  ordered : ∀ {s s' f start start' : ℕ}, place s = some (f, start) → place s' = some (f, start') →
    s ≠ s' → start + blockSize ≤ start' ∨ start' + blockSize ≤ start
  names : ∀ {s s' f g start start' : ℕ}, place s = some (f, start) → place s' = some (g, start') →
    (path f).takeWhile (· ≠ 0) = (path g).takeWhile (· ≠ 0) → f = g

namespace Layout

variable {blockSize : ℕ} {l : Layout blockSize}

/-- What the copies have of the files is what the disk has. -/
def Mirrored (l : Layout blockSize) (disk : ℕ → UInt8) (copies : ℕ → ℕ → UInt8) : Prop :=
  ∀ s f start, l.place s = some (f, start) →
    Agree (copies f) start disk (s * sectorSize) (min blockSize (l.size f - start))

/-- A block at this sector is a block of a file or overlaps with none. -/
def Fits (l : Layout blockSize) (s : ℕ) : Prop :=
  ∀ s', (l.place s').isSome → s' ≠ s →
    s' * sectorSize + blockSize ≤ s * sectorSize ∨ s * sectorSize + blockSize ≤ s' * sectorSize

theorem Mirrored.write_elsewhere {disk : ℕ → UInt8} {copies : ℕ → ℕ → UInt8} {s : ℕ}
    {data : List UInt8} (h : l.Mirrored disk copies) (hfits : l.Fits s) (hnone : l.place s = none)
    (hlen : data.length ≤ blockSize) : l.Mirrored (patch disk (s * sectorSize) data) copies := by
  intro s' f start hp
  have hne : s' ≠ s := by
    rintro rfl
    rw [hnone] at hp
    cases hp
  have hout := hfits s' (by rw [hp]; rfl) hne
  exact (h s' f start hp).patch_right (by omega)

theorem Mirrored.write_block {disk : ℕ → UInt8} {copies : ℕ → ℕ → UInt8} {s f start k : ℕ}
    {data : List UInt8} (h : l.Mirrored disk copies) (hp : l.place s = some (f, start))
    (hlen : data.length ≤ blockSize) (hk : min blockSize (l.size f - start) ≤ k) :
    l.Mirrored (patch disk (s * sectorSize) data)
      (Function.update copies f (patch (copies f) start (data.take k))) := by
  intro s' g start' hp'
  have htake : (data.take k).length ≤ blockSize := (List.length_take_le' _ _).trans hlen
  by_cases hs : s' = s
  · subst hs
    obtain ⟨rfl, rfl⟩ := Prod.mk.inj (Option.some.inj (hp'.symm.trans hp))
    rw [Function.update_self]
    exact (h s' g start' hp).patch_take data hk
  have hdisk := l.apart (by rw [hp']; rfl) (by rw [hp]; rfl) hs
  by_cases hg : g = f
  · subst hg
    have hcopy := l.ordered hp' hp hs
    rw [Function.update_self]
    exact ((h s' g start' hp').patch_left (by omega)).patch_right (by omega)
  · rw [Function.update_of_ne hg]
    exact (h s' g start' hp').patch_right (by omega)

/-- The store knows the files of a layout and their blocks. -/
structure Held (l : Layout blockSize) (d : Db KvStore.Key) : Prop where
  pointer : ∀ {s f start : ℕ}, l.place s = some (f, start) → ∃ stop, start < 2 ^ 64 ∧
    stop < 2 ^ 64 ∧ f < 2 ^ 64 ∧ d.keys (.sector s) = some (.string (dataPointer start stop f))
  known : ∀ {s f start : ℕ}, l.place s = some (f, start) → Known d f (l.path f) (l.size f)

/-- A block at this sector is a block of a file, or no business of the store. -/
structure Plain (l : Layout blockSize) (d : Db KvStore.Key) (s : ℕ) : Prop where
  fits : l.Fits s
  unknown : l.place s = none → d.keys (.sector s) = none

variable {d e : Db KvStore.Key}

theorem Held.congr (h : l.Held d) (hsector : ∀ n, e.keys (.sector n) = d.keys (.sector n))
    (hfile : ∀ n, e.keys (.file n) = d.keys (.file n)) : l.Held e where
  pointer hp := by
    rw [hsector]
    exact h.pointer hp
  known hp := (h.known hp).congr (hfile _)

theorem Plain.congr {s : ℕ} (h : l.Plain d s)
    (hsector : ∀ n, e.keys (.sector n) = d.keys (.sector n)) : l.Plain e s :=
  ⟨h.fits, fun hn => (hsector s).trans (h.unknown hn)⟩

end Layout

/-! ## Messages -/

/-- What a subscriber to a channel makes of a message. -/
def follow (channel : List UInt8) (copy : ℕ → UInt8) (message : List UInt8 × List UInt8) :
    ℕ → UInt8 :=
  if message.1 = channel then (readData message.2).elim copy fun p => patch copy p.1 p.2 else copy

def Setup.copiesAfter (u : Setup) (path : ℕ → List UInt8)
    (messages : List (List UInt8 × List UInt8)) (copies : ℕ → ℕ → UInt8) : ℕ → ℕ → UInt8 :=
  fun f => messages.foldl (follow (u.constructChannelName (path f))) (copies f)

theorem Setup.copiesAfter_append (u : Setup) (path : ℕ → List UInt8)
    (xs ys : List (List UInt8 × List UInt8)) (copies : ℕ → ℕ → UInt8) :
    u.copiesAfter path (xs ++ ys) copies = u.copiesAfter path ys (u.copiesAfter path xs copies) :=
  funext fun _ => List.foldl_append

/-- The store has gone from `d` to `e` while the disk changed: nothing but the queue is another,
and who follows the messages has kept up with the disk. -/
structure Setup.Tracked (u : Setup) (l : Layout u.blockSize) (d e : Db KvStore.Key)
    (change : (ℕ → UInt8) → ℕ → UInt8) : Prop where
  keys : ∀ {k : KvStore.Key}, (∀ n, k ≠ .qsector n) → e.keys k = d.keys k
  mirrored : ∃ messages, e.messages = d.messages ++ messages ∧ ∀ disk copies,
    l.Mirrored disk copies → l.Mirrored (change disk) (u.copiesAfter l.path messages copies)

namespace Setup

variable {u : Setup} {l : Layout u.blockSize} {d e g : Db KvStore.Key}

theorem Tracked.refl (d : Db KvStore.Key) : u.Tracked l d d id :=
  ⟨fun _ => rfl, [], (List.append_nil _).symm, fun _ _ h => h⟩

theorem Tracked.trans {change change' : (ℕ → UInt8) → ℕ → UInt8} (h : u.Tracked l d e change)
    (h' : u.Tracked l e g change') : u.Tracked l d g fun disk => change' (change disk) := by
  obtain ⟨xs, hxs, hx⟩ := h.mirrored
  obtain ⟨ys, hys, hy⟩ := h'.mirrored
  refine ⟨fun hk => (h'.keys hk).trans (h.keys hk), xs ++ ys, ?_, fun disk copies hm => ?_⟩
  · rw [hys, hxs, List.append_assoc]
  · rw [copiesAfter_append]
    exact hy _ _ (hx _ _ hm)

theorem Tracked.held {change : (ℕ → UInt8) → ℕ → UInt8} (h : u.Tracked l d e change)
    (hl : l.Held d) : l.Held e :=
  hl.congr (fun _ => h.keys (by simp)) fun _ => h.keys (by simp)

theorem Tracked.plain {change : (ℕ → UInt8) → ℕ → UInt8} (h : u.Tracked l d e change) {s : ℕ}
    (hs : l.Plain d s) : l.Plain e s :=
  hs.congr fun _ => h.keys (by simp)

theorem constructChannelName_inj {p q : List UInt8}
    (h : u.constructChannelName p = u.constructChannelName q) :
    p.takeWhile (· ≠ 0) = q.takeWhile (· ≠ 0) :=
  List.append_cancel_left h

theorem emitted_keys {k : KvStore.Key} (hk : ∀ n, k ≠ .qsector n)
    (sector start stop size : ℕ) (path : List UInt8) (subtype : UInt8) (write : List UInt8)
    (len writeCounter : ℕ) (d : Db KvStore.Key) :
    (u.emitted sector start stop size path subtype write len writeCounter d).keys k = d.keys k := by
  have hq := Ne.symm (hk sector)
  unfold emitted
  dsimp only
  rw [keys_after (by simp [Command.writes])]
  split
  · rw [keys_after (by simpa [Command.writes] using hq)]
    split
    · exact keys_after (by simpa [Command.writes] using hq)
    · rfl
  · split
    · exact keys_after (by simpa [Command.writes] using hq)
    · rfl

theorem emitted_messages (sector start stop size : ℕ) (path : List UInt8) (subtype : UInt8)
    (write : List UInt8) (len writeCounter : ℕ) (d : Db KvStore.Key) :
    (u.emitted sector start stop size path subtype write len writeCounter d).messages =
      d.messages ++ [(u.constructChannelName path, dataDocument start stop subtype
        ((write.take len).take (u64 (size - start))) writeCounter)] := by
  have hdata : (if u64 (size - start) ≤ len then u64 (size - start) else len) =
      min (u64 (size - start)) len := (min_def _ _).symm
  rw [List.take_take, emitted, hdata]
  split <;> split <;> rfl

theorem copiesAfter_data {path : ℕ → List UInt8} {channel message data : List UInt8} {start : ℕ}
    (hread : readData message = some (start, data)) (copies : ℕ → ℕ → UInt8) (g : ℕ) :
    u.copiesAfter path [(channel, message)] copies g =
      if channel = u.constructChannelName (path g) then patch (copies g) start data
      else copies g := by
  rw [copiesAfter, List.foldl_cons, List.foldl_nil, follow, hread, Option.elim_some]

/-- A block of a file has been written. -/
theorem tracked_emitted (hl : l.Held d) {s f start : ℕ} (hp : l.place s = some (f, start))
    (sector stop : ℕ) (subtype : UInt8) {write : List UInt8} {len : ℕ}
    (hlen : len ≤ u.blockSize) (hmax : u.blockSize ≤ 2 ^ 29) (writeCounter : ℕ) :
    u.Tracked l d (u.emitted sector start stop (l.size f) (l.path f) subtype write len
        writeCounter d) fun disk => patch disk (s * sectorSize) (write.take len) := by
  obtain ⟨-, hstart, -⟩ := hl.pointer hp
  have hsize := (hl.known hp).size_lt
  refine ⟨fun hk => emitted_keys hk .., _, emitted_messages .., fun disk copies hm => ?_⟩
  have htake : (write.take len).length ≤ u.blockSize := (List.length_take_le _ _).trans hlen
  have hread := @readData_dataDocument start hstart stop subtype
    ((write.take len).take (u64 (l.size f - start)))
    (((List.length_take_le' _ _).trans htake).trans_lt (by omega)) writeCounter
  have hwindow : min u.blockSize (l.size f - start) ≤ u64 (l.size f - start) := by
    rcases Nat.lt_or_ge (l.size f) start with hlt | hge
    · omega
    · rw [u64_of_range (by omega) (by omega)]
      omega
  have hblock := hm.write_block hp htake hwindow
  intro s' g start' hp'
  have hwin := hblock s' g start' hp'
  rw [copiesAfter_data hread]
  by_cases hg : g = f
  · subst hg
    rw [Function.update_self] at hwin
    rwa [if_pos rfl]
  · rw [Function.update_of_ne hg] at hwin
    have hchannel : u.constructChannelName (l.path f) ≠ u.constructChannelName (l.path g) :=
      fun h => hg (l.names hp' hp (constructChannelName_inj h).symm)
    rwa [if_neg hchannel]

end Setup

/-! ## Writes -/

/-- A write as it changes the disk. -/
def BdrvWrite.apply (write : BdrvWrite) (disk : ℕ → UInt8) : ℕ → UInt8 :=
  patch disk (write.sectorNum * sectorSize) (write.data.take (write.nbSectors * sectorSize))

namespace Inspector

variable {σ : Type} {c : Inspector σ} (L : Lawful c.service) {s : State σ} {d : Db KvStore.Key}
  {l : Layout c.blockSize}

/-- The bytes of the block at sector `i` of a write. -/
def blockBytes (c : Inspector σ) (write : BdrvWrite) (i : ℕ) : List UInt8 :=
  (write.data.drop (i * sectorSize)).take (c.blockSizeAt write i)

theorem blockBytes_length_le (write : BdrvWrite) (i : ℕ) :
    (c.blockBytes write i).length ≤ c.blockSize :=
  (List.length_take_le _ _).trans (Nat.min_le_right _ _)

theorem inspectBlock_tracked (hc : c.Geometry) (hs : L.At s d) (hl : l.Held d) {write : BdrvWrite}
    {i sector : ℕ} (hsector : u64 (write.sectorNum + i) = sector) (hplain : l.Plain d sector)
    (hlen : c.blockSizeAt write i ≤ (write.data.drop (i * sectorSize)).length)
    (inspect : BdrvWrite → Act σ Unit) (writeCounter : ℕ) :
    Ensures (c.inspectBlock inspect write writeCounter i) s fun _ t => ∃ e,
      c.Tracked l d e (fun disk => patch disk (sector * sectorSize) (c.blockBytes write i)) ∧
        L.At t e := by
  subst hsector
  cases hp : l.place (u64 (write.sectorNum + i)) with
  | none =>
    have hnone : copyString 1024 (answer d (.get (.sector (u64 (write.sectorNum + i))))) = [] := by
      simp only [answer, exec, hplain.unknown hp, Option.elim_some, copyString]
    refine (inspectBlock_unknown L hs hnone hlen inspect writeCounter).mono
      fun _ t ht => ⟨_, ⟨fun hk => ?_, [], ?_, fun disk copies hm => ?_⟩, ht⟩
    · exact keys_after (by simpa [Command.writes] using Ne.symm (hk _))
    · exact (List.append_nil _).symm
    · exact hm.write_elsewhere hplain.fits hp (blockBytes_length_le write i)
  | some place =>
    obtain ⟨f, start⟩ := place
    obtain ⟨stop, hstart, hstop, hf, hpointer⟩ := hl.pointer hp
    have hknown := hl.known hp
    refine (inspectBlock_data L hs hpointer hstart hstop hf hlen hc.small
      (by rw [hknown.path_eq]; exact hknown.path_lt.ne) inspect writeCounter).mono ?_
    rintro _ t ⟨n, ht⟩
    refine ⟨_, ?_, ht⟩
    rw [hknown.size_overlay, hknown.path_eq]
    exact Setup.tracked_emitted hl hp _ _ _ (Nat.min_le_right _ _) hc.small _

/-- A write whose blocks are all plain. -/
structure PlainWrite (c : Inspector σ) (l : Layout c.blockSize) (d : Db KvStore.Key)
    (write : BdrvWrite) : Prop where
  range : write.sectorNum + write.nbSectors < 2 ^ 64
  data : write.nbSectors * sectorSize ≤ write.data.length
  plain : ∀ i ∈ c.blockStarts write.nbSectors, l.Plain d (write.sectorNum + i)

theorem PlainWrite.congr {e : Db KvStore.Key} {write : BdrvWrite} (h : c.PlainWrite l d write)
    (hsector : ∀ n, e.keys (.sector n) = d.keys (.sector n)) : c.PlainWrite l e write :=
  ⟨h.range, h.data, fun i hi => (h.plain i hi).congr hsector⟩

theorem mem_blockStarts (hc : c.Geometry) {nbSectors i : ℕ} (hi : i ∈ c.blockStarts nbSectors) :
    i < nbSectors := by
  obtain ⟨k, hk, rfl⟩ := List.mem_map.mp hi
  have hq : 0 < c.blockSize / sectorSize :=
    Nat.div_pos (Nat.le_of_dvd hc.pos hc.whole) (by decide)
  have hle := Nat.mul_le_of_le_div _ _ _ (Nat.succ_le_of_lt (List.mem_range.mp hk))
  rw [Nat.succ_mul] at hle
  omega

/-- The blocks of a write make up the write. -/
theorem foldl_blocks (hc : c.Geometry) {write : BdrvWrite}
    (hdata : write.nbSectors * sectorSize ≤ write.data.length) (disk : ℕ → UInt8) :
    (c.blockStarts write.nbSectors).foldl (fun disk i =>
      patch disk ((write.sectorNum + i) * sectorSize) (c.blockBytes write i)) disk =
        write.apply disk := by
  obtain ⟨q, hq⟩ := hc.whole
  have hpos := hc.pos
  have hdiv : c.blockSize / sectorSize = q := by
    rw [hq, Nat.mul_div_cancel_left _ (by decide)]
  have hq0 : 0 < q := Nat.pos_of_ne_zero fun h => by rw [hq, h] at hpos; exact absurd hpos (by simp)
  have hblocks : ∀ n, (n - 1) * q ≤ write.nbSectors → ((List.range n).map (· * q)).foldl
      (fun disk i => patch disk ((write.sectorNum + i) * sectorSize) (c.blockBytes write i)) disk =
        patch disk (write.sectorNum * sectorSize)
          (write.data.take (min (n * q) write.nbSectors * sectorSize)) := by
    intro n
    induction n with
    | zero =>
      intro _
      rw [List.range_zero, List.map_nil, List.foldl_nil, Nat.zero_mul, Nat.zero_min, Nat.zero_mul,
        List.take_zero, patch_nil]
    | succ n ih =>
      intro hn
      rw [Nat.add_sub_cancel] at hn
      have hprev : (n - 1) * q ≤ write.nbSectors :=
        (Nat.mul_le_mul_right _ (Nat.sub_le n 1)).trans hn
      have hsize : c.blockSizeAt write (n * q) =
          (min ((n + 1) * q) write.nbSectors - n * q) * sectorSize := by
        rw [blockSizeAt, hq, Nat.mul_comm sectorSize q, Nat.mul_min_mul_right, Nat.succ_mul]
        congr 1
        omega
      have hfront : n * q * sectorSize ≤ write.data.length :=
        (Nat.mul_le_mul_right _ hn).trans hdata
      have htake : write.data.take (min ((n + 1) * q) write.nbSectors * sectorSize) =
          write.data.take (n * q * sectorSize) ++ c.blockBytes write (n * q) := by
        have hsum : min ((n + 1) * q) write.nbSectors * sectorSize = n * q * sectorSize +
            (min ((n + 1) * q) write.nbSectors - n * q) * sectorSize := by
          rw [← Nat.add_mul]
          congr 1
          rw [Nat.succ_mul]
          omega
        rw [hsum, List.take_add, blockBytes, hsize]
      rw [List.range_succ, List.map_append, List.foldl_append, ih hprev, List.map_singleton,
        List.foldl_cons, List.foldl_nil, htake, patch_append, List.length_take_of_le hfront,
        Nat.min_eq_left hn, Nat.add_mul]
  have hcount := hblocks ((write.nbSectors + q - 1) / q) ?_
  · have hcover : write.nbSectors ≤ (write.nbSectors + q - 1) / q * q := by
      have hmod := Nat.mod_lt (write.nbSectors + q - 1) hq0
      have hdam := Nat.div_add_mod (write.nbSectors + q - 1) q
      rw [Nat.mul_comm] at hdam
      omega
    rw [Nat.min_eq_right hcover] at hcount
    rw [blockStarts, hdiv]
    exact hcount
  · have hle := Nat.div_mul_le_self (write.nbSectors + q - 1) q
    rw [Nat.sub_mul, Nat.one_mul]
    omega

/-- The messages about a write to blocks of files are what a follower needs. -/
theorem deepInspect_tracked (hc : c.Geometry) (hs : L.At s d) (hl : l.Held d) {write : BdrvWrite}
    (hw : c.PlainWrite l d write) (writeCounter fuel : ℕ) :
    Ensures (c.deepInspect writeCounter (fuel + 1) write) s fun _ t =>
      ∃ e, c.Tracked l d e write.apply ∧ L.At t e := by
  have hq : 0 < c.blockSize / sectorSize :=
    Nat.div_pos (Nat.le_of_dvd hc.pos hc.whole) (by decide)
  rw [deepInspect, if_neg (by omega)]
  refine (ensures_forM_foldl
    (I := fun (change : (ℕ → UInt8) → ℕ → UInt8) t => ∃ e, c.Tracked l d e change ∧ L.At t e)
    (g := fun change i disk => patch (change disk) ((write.sectorNum + i) * sectorSize)
      (c.blockBytes write i)) (b := id) ?_ ⟨d, .refl d, hs⟩).bind ?_
  · rintro i hi change t ⟨e, htracked, ht⟩
    have hlt := mem_blockStarts hc hi
    have hsector : u64 (write.sectorNum + i) = write.sectorNum + i := by
      have hrange := hw.range
      rw [u64_of_range (by omega) (by omega)]
      omega
    have hlen : c.blockSizeAt write i ≤ (write.data.drop (i * sectorSize)).length := by
      rw [List.length_drop, blockSizeAt, Nat.sub_mul]
      have := hw.data
      omega
    refine (inspectBlock_tracked L hc ht (htracked.held hl) hsector
      (htracked.plain (hw.plain i hi)) hlen _ _).mono ?_
    rintro _ u ⟨e', htracked', hu⟩
    exact ⟨e', htracked.trans htracked', hu⟩
  · rintro _ t ⟨e, htracked, ht⟩
    have hfold : ∀ (is : List ℕ) (change : (ℕ → UInt8) → ℕ → UInt8) (disk : ℕ → UInt8),
        is.foldl (fun change i disk => patch (change disk) ((write.sectorNum + i) * sectorSize)
          (c.blockBytes write i)) change disk = is.foldl (fun disk i => patch disk
            ((write.sectorNum + i) * sectorSize) (c.blockBytes write i)) (change disk) := by
      intro is
      induction is with
      | nil => exact fun _ _ => rfl
      | cons i is ih => exact fun change disk => ih _ disk
    rw [show (c.blockStarts write.nbSectors).foldl _ id = write.apply from
      funext fun disk => (hfold _ id disk).trans (foldl_blocks hc hw.data disk)] at htracked
    exact (flush_at L ht).mono fun _ u hu => ⟨e, htracked, hu⟩

end Inspector

end GammaRay.Inspect
