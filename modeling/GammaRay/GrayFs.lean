import GammaRay.Loop
import GammaRay.Schema

set_option autoImplicit false

/-!
# Reading a file through the FUSE view

`gray-fs.c`. The disk is read in full by every `read`. Of the attributes of a file only its
size is kept. `none` is a store outside the buffer of the caller or an entry of a block list
that is no pointer.
-/
namespace GammaRay.GrayFs
open Bytes Decimal Redis KvStore

def enoent : ℤ := 2
def einval : ℤ := 22

abbrev Disk := ℕ → UInt8

def readDisk (disk : Disk) (pos count : ℕ) : List UInt8 :=
  (List.range count).map fun i => disk (pos + i)

/-- The bytes of a variable after a field of the store was copied over its front. -/
def overlay (old new : List UInt8) : List UInt8 := new ++ old.drop new.length

def gammarayfsPathlookup (path : List UInt8) (h : Handle) : Option (ℤ × Handle) := do
  let (id, h) ← redisPathGet (path.take 4096) h
  some (id.elim (-enoent) fun n => i64 n, h)

/-- `junk` is what `field` holds before the size is read into it. -/
def gammarayfsGetattr (junk : Vector UInt8 8) (path : List UInt8) (h : Handle) :
    Option (Option ℤ × Handle) := do
  let (inodeNum, h) ← gammarayfsPathlookup path h
  if inodeNum < 0 then some (none, h)
  else
    let (size, h) ← redisHashFieldGet redisFileSectorGet (u64 inodeNum) (ascii "size") 8 h
    some (some (i64 (leNat (overlay junk.toList size))), h)

/-- The loop over the blocks. -/
def readBlocks (disk : Disk) (blockSize size : ℕ) :
    List (List UInt8) → ℕ → ℕ → List UInt8 → Option (ℕ × List UInt8)
  | [], _, position, buf => some (position, buf)
  | entry :: rest, offset, position, buf => do
    let sector ← scanU64 (secondToken entry)
    let toread := if 0 < offset then blockSize - offset else blockSize
    let left := u64 ((size : ℤ) - position)
    let toread := if left < toread then left else toread
    if toread = 0 then some (position, buf)
    else
      let data := if i64 sector < 0 then List.replicate toread 0
        else readDisk disk (sector * 512 + offset) toread
      if buf.length < position + toread then none
      else readBlocks disk blockSize size rest 0 (position + toread) (splice buf position data)

/-- The caller asks for as many bytes as its buffer has. -/
def gammarayfsRead (disk : Disk) (blockSize : ℕ) (junk : Vector UInt8 8) (path buf : List UInt8)
    (offset : ℕ) (h : Handle) : Option (ℤ × List UInt8 × Handle) := do
  let (inodeNum, h) ← gammarayfsPathlookup path h
  let (st, h) ← gammarayfsGetattr junk path h
  match st with
  | none => some (-enoent, buf, h)
  | some stSize =>
    if stSize < offset then some (-einval, buf, h)
    else
      let size := if u64 stSize < u64 (offset + buf.length) then u64 (stSize - offset)
        else buf.length
      let start := offset / 4096
      let stop := u64 (start + u64 (size + 4095) / 4096)
      let (list, h) ← redisListGetVar redisFileSectorsLgetVar (u64 inodeNum) start stop h
      let list ← list
      let (position, buf) ← readBlocks disk blockSize size list (offset % blockSize) 0 buf
      some (i32 position, buf, h)

/-- A block of the file: a disk sector, or -1 for a hole. -/
def contentByte (disk : Disk) (blocks : List ℤ) (k : ℕ) : UInt8 :=
  blocks[k / 4096]?.elim 0 fun s => if s < 0 then 0 else disk (s.toNat * 512 + k % 4096)

def content (disk : Disk) (blocks : List ℤ) (start count : ℕ) : List UInt8 :=
  (List.range count).map fun i => contentByte disk blocks (start + i)

/-- The bytes of a file in a file system with blocks of `bs` bytes. -/
def blockByte (bs : ℕ) (disk : Disk) (blocks : List ℤ) (k : ℕ) : UInt8 :=
  blocks[k / bs]?.elim 0 fun s => if s < 0 then 0 else disk (s.toNat * 512 + k % bs)

def blockContent (bs : ℕ) (disk : Disk) (blocks : List ℤ) (start count : ℕ) : List UInt8 :=
  (List.range count).map fun i => blockByte bs disk blocks (start + i)

theorem content_eq (disk : Disk) (blocks : List ℤ) (start count : ℕ) :
    content disk blocks start count = blockContent 4096 disk blocks start count := rfl

/-- What the store has to hold about a file. -/
structure Stored (db : Db Key) (path : List UInt8) (id size : ℕ) (blocks : List ℤ) : Prop where
  path : db.keys (.path (path.take 4096)) = some (.string (dec id))
  size : ∃ fields, db.hashAt (.file id) = some fields ∧
    fields (ascii "size") = some (leBytes 8 size)
  sectors : db.listAt (.filesectors id) = some (blocks.map sectorText)

def Block (s : ℤ) : Prop := s = -1 ∨ 0 ≤ s ∧ s * 512 + 4096 ≤ 2 ^ 63

/-- A hole, or a sector whose block of `bs` bytes a file offset can reach. -/
def BlockOf (bs : ℕ) (s : ℤ) : Prop := s = -1 ∨ 0 ≤ s ∧ s * 512 + bs ≤ 2 ^ 63

section Loop

variable (bs : ℕ) (disk : Disk) (blocks : List ℤ)

theorem blockContent_append (start x y : ℕ) :
    blockContent bs disk blocks start (x + y) =
      blockContent bs disk blocks start x ++ blockContent bs disk blocks (start + x) y := by
  rw [blockContent, List.range_add, List.map_append, List.map_map]
  congr 1
  exact List.map_congr_left fun i _ => by simp only [Function.comp_apply, Nat.add_assoc]

@[simp] theorem blockContent_length (start count : ℕ) :
    (blockContent bs disk blocks start count).length = count := by
  simp [blockContent]

theorem blockContent_take (start : ℕ) {n m : ℕ} (h : n ≤ m) :
    (blockContent bs disk blocks start m).take n = blockContent bs disk blocks start n := by
  obtain ⟨d, rfl⟩ := Nat.exists_eq_add_of_le h
  rw [blockContent_append, List.take_left' (blockContent_length ..)]

variable {bs disk blocks}

theorem blockContent_block {k o count : ℕ} {s : ℤ} (hk : blocks[k]? = some s)
    (hc : o + count ≤ bs) :
    blockContent bs disk blocks (bs * k + o) count =
      if s < 0 then List.replicate count 0 else readDisk disk (s.toNat * 512 + o) count := by
  have hbyte : ∀ i < count, blockByte bs disk blocks (bs * k + o + i) =
      if s < 0 then 0 else disk (s.toNat * 512 + o + i) := by
    intro i hi
    have hdiv : (bs * k + o + i) / bs = k := by
      rw [Nat.add_assoc, Nat.mul_add_div (by omega), Nat.div_eq_of_lt (by omega), Nat.add_zero]
    have hmod : (bs * k + o + i) % bs = o + i := by
      rw [Nat.add_assoc, Nat.mul_add_mod, Nat.mod_eq_of_lt (by omega)]
    rw [blockByte, hdiv, hmod, hk, Option.elim_some, Nat.add_assoc]
  split
  · rename_i hs
    rw [List.eq_replicate_iff]
    refine ⟨blockContent_length .., fun b hb => ?_⟩
    obtain ⟨i, hi, rfl⟩ := List.mem_map.mp hb
    rw [hbyte i (List.mem_range.mp hi), if_pos hs]
  · rename_i hs
    refine List.map_congr_left fun i hi => ?_
    rw [hbyte i (List.mem_range.mp hi), if_neg hs]

theorem entry_sector {s : ℤ} (hbs : 0 < bs) (hs : BlockOf bs s) :
    scanU64 (secondToken (sectorText s)) = some (u64 s) ∧ i64 (u64 s) = s ∧
      (0 ≤ s → u64 s = s.toNat) := by
  have hl : -2 ^ 63 ≤ s ∧ s < 2 ^ 63 := by
    rcases hs with rfl | ⟨h0, hs⟩
    · decide
    · omega
  rw [secondToken_sectorText, scanU64_sdec s hl.1 hl.2]
  refine ⟨rfl, ?_, ?_⟩
  · unfold i64 u64
    omega
  · intro h0
    unfold u64
    omega

/-- One round of the loop copies what the request and the block still have. -/
theorem readBlocks_round {size k o position toread : ℕ} {s : ℤ} {list : List (List UInt8)}
    {buf : List UInt8} (hbs : 0 < bs) (hsize : size < 2 ^ 64) (hs : BlockOf bs s) (ho : o < bs)
    (hget : blocks[k]? = some s) (hp : position ≤ size) (hb : size ≤ buf.length)
    (htoread : toread = min (size - position) (bs - o)) :
    readBlocks disk bs size (sectorText s :: list) o position buf =
      if toread = 0 then some (position, buf)
      else readBlocks disk bs size list 0 (position + toread)
        (splice buf position (blockContent bs disk blocks (bs * k + o) toread)) := by
  obtain ⟨hscan, hi64, hu64⟩ := entry_sector hbs hs
  have hleft : u64 ((size : ℤ) - position) = size - position := by
    unfold u64
    omega
  have hstep : (if size - position < (if 0 < o then bs - o else bs) then size - position
      else (if 0 < o then bs - o else bs)) = toread := by
    split <;> split at * <;> omega
  rw [readBlocks, Loop.bind_of_some hscan]
  dsimp only
  rw [hleft, hstep, hi64]
  split
  · rfl
  · have hdata : (if s < 0 then List.replicate toread 0
        else readDisk disk (u64 s * 512 + o) toread) =
        blockContent bs disk blocks (bs * k + o) toread := by
      rw [blockContent_block hget (by omega)]
      split
      · rfl
      · rw [hu64 (by omega)]
    rw [hdata, if_neg (by omega)]

/-- The loop fills the buffer up to the end of the request or of the list. -/
theorem readBlocks_spec {size : ℕ} (hbs : 0 < bs) (hsize : size < 2 ^ 64) (W : List ℤ) :
    ∀ (k o position : ℕ) (rest : List ℤ) (buf : List UInt8), (∀ s ∈ W, BlockOf bs s) → o < bs →
      blocks.drop k = W ++ rest → position ≤ size → size ≤ buf.length →
      ∃ buf', readBlocks disk bs size (W.map sectorText) o position buf =
          some (position + min (size - position) (bs * W.length - o), buf') ∧
        buf'.length = buf.length ∧
        buf'.take (position + min (size - position) (bs * W.length - o)) =
          buf.take position ++
            blockContent bs disk blocks (bs * k + o)
              (min (size - position) (bs * W.length - o)) := by
  induction W with
  | nil =>
    intro k o position rest buf _ _ _ _ _
    have hm : min (size - position) (bs * ([] : List ℤ).length - o) = 0 := by
      rw [List.length_nil]
      omega
    rw [hm]
    exact ⟨buf, rfl, rfl, (List.append_nil _).symm⟩
  | cons s W ih =>
    intro k o position rest buf hW ho hk hp hb
    have hget : blocks[k]? = some s := by
      have h0 := congrArg (·[0]?) hk
      simpa using h0
    have hdrop : blocks.drop (k + 1) = W ++ rest := by
      rw [← List.drop_drop, hk]
      rfl
    have hlength : bs * (s :: W).length = bs * W.length + bs := by
      rw [List.length_cons, Nat.mul_succ]
    obtain ⟨toread, htoread⟩ : ∃ n, n = min (size - position) (bs - o) := ⟨_, rfl⟩
    rw [List.map_cons, readBlocks_round hbs hsize (hW s List.mem_cons_self) ho hget hp hb htoread,
      hlength]
    by_cases hz : toread = 0
    · have hm : min (size - position) (bs * W.length + bs - o) = 0 := by omega
      rw [if_pos hz, hm]
      exact ⟨buf, rfl, rfl, (List.append_nil _).symm⟩
    · have hlen' : (splice buf position (blockContent bs disk blocks (bs * k + o) toread)).length =
          buf.length := by
        refine splice_length ?_
        rw [blockContent_length]
        omega
      obtain ⟨buf', hread, hlen, htake⟩ := ih (k + 1) 0 (position + toread) rest
        (splice buf position (blockContent bs disk blocks (bs * k + o) toread))
        (fun x hx => hW x (List.mem_cons_of_mem s hx)) hbs hdrop (by omega)
        (by rw [hlen']; exact hb)
      obtain ⟨m, hm⟩ : ∃ n, n = min (size - (position + toread)) (bs * W.length - 0) := ⟨_, rfl⟩
      have hsum : min (size - position) (bs * W.length + bs - o) = toread + m := by omega
      rw [← hm] at hread htake
      rw [if_neg hz]
      refine ⟨buf', ?_, hlen.trans hlen', ?_⟩
      · rw [hread, hsum, Nat.add_assoc]
      · have hsplice := @splice_take buf (blockContent bs disk blocks (bs * k + o) toread) position
          (by omega)
        rw [blockContent_length] at hsplice
        have hnext : blockContent bs disk blocks (bs * (k + 1) + 0) m =
            blockContent bs disk blocks (bs * k + o + toread) m := by
          rcases Nat.eq_zero_or_pos m with h0 | hpos
          · rw [h0]
            rfl
          · have hstart : bs * (k + 1) + 0 = bs * k + o + toread := by
              rw [Nat.mul_succ]
              omega
            rw [hstart]
        rw [hsum, ← Nat.add_assoc, htake, hsplice, blockContent_append, List.append_assoc, hnext]

end Loop

section Store

variable {h : Handle} {path : List UInt8} {id size : ℕ} {blocks : List ℤ}

theorem pathlookup_total (hs : Settled h) (hst : Stored h.db path id size blocks)
    (hid : id < 2 ^ 63) :
    ∃ h', gammarayfsPathlookup path h = some ((id : ℤ), h') ∧ h'.db = h.db ∧ Settled h' := by
  have he : exec h.db (.get (.path (path.take 4096))) = some (.string (dec id), h.db) := by
    rw [exec, hst.path]
  obtain ⟨h', ha, hdb, hs'⟩ : ∃ h', redisPathGet (path.take 4096) h =
      some (scanU64 (dec id), h') ∧ h'.db = h.db ∧ Settled h' := ask_total hs _ he
  have hi : i64 (id : ℤ) = id := i64_of_range (by omega) (by omega)
  refine ⟨h', ?_, hdb, hs'⟩
  rw [gammarayfsPathlookup, Loop.bind_of_some ha]
  dsimp only
  rw [scanU64_dec, Option.elim_some, hi]

theorem getattr_total (junk : Vector UInt8 8) (hs : Settled h)
    (hst : Stored h.db path id size blocks) (hid : id < 2 ^ 63) (hsize : size < 2 ^ 63) :
    ∃ h', gammarayfsGetattr junk path h = some (some (size : ℤ), h') ∧ h'.db = h.db ∧
      Settled h' := by
  obtain ⟨h₁, hp, hdb₁, hs₁⟩ := pathlookup_total hs hst hid
  obtain ⟨fields, hash, hfield⟩ := hst.size
  have he : exec h₁.db (redisFileSectorGet id (ascii "size")) =
      some (.string (leBytes 8 size), h₁.db) := by
    rw [hdb₁, redisFileSectorGet, exec, hash]
    dsimp only
    rw [hfield]
  obtain ⟨h₂, ha, hdb₂, hs₂⟩ := ask_total hs₁ (copyString 8) he
  have hcopy : copyString 8 (.string (leBytes 8 size)) = leBytes 8 size := by
    rw [copyString, leBytes_length]
    exact if_pos (by decide)
  have hval : overlay junk.toList (leBytes 8 size) = leBytes 8 size := by
    rw [overlay, leBytes_length, List.drop_eq_nil_of_le (junk.length_toList.le),
      List.append_nil]
  have hi : i64 (size : ℤ) = size := i64_of_range (by omega) (by omega)
  refine ⟨h₂, ?_, hdb₂.trans hdb₁, hs₂⟩
  rw [gammarayfsGetattr, Loop.bind_of_some hp]
  dsimp only
  rw [if_neg (by omega), u64_natCast (by omega), redisHashFieldGet, Loop.bind_of_some ha]
  dsimp only
  rw [hcopy, hval, leNat_leBytes_of_lt (by omega), hi]

/-- The inclusive window of a list. -/
def window (l : List ℤ) (start stop : ℕ) : List ℤ := (l.take (stop + 1)).drop start

theorem listGetVar_total (hs : Settled h) (hst : Stored h.db path id size blocks)
    (start stop : ℕ) :
    ∃ h', redisListGetVar redisFileSectorsLgetVar id start stop h =
        some (some ((window blocks start stop).map sectorText), h') ∧ h'.db = h.db ∧
      Settled h' := by
  have he : exec h.db (redisFileSectorsLgetVar id start stop) =
      some (.array ((window blocks start stop).map sectorText), h.db) := by
    have hstop : (place (blocks.map sectorText).length stop + 1).toNat = stop + 1 := by
      rw [place, if_neg (by omega)]
      omega
    have hstart : (place (blocks.map sectorText).length start).toNat = start := by
      rw [place, if_neg (by omega)]
      omega
    rw [redisFileSectorsLgetVar, exec, hst.sectors]
    dsimp only
    rw [hstop, hstart, window, List.map_drop, List.map_take]
  exact ask_total hs asElements he

/-- How many bytes the request is cut down to; a sum beyond 64 bits is not noticed. -/
def clipped (size offset len : ℕ) : ℕ := if size < u64 (offset + len) then size - offset else len

theorem read_past_end (disk : Disk) (bs : ℕ) (junk : Vector UInt8 8) (hs : Settled h)
    (hst : Stored h.db path id size blocks) (hid : id < 2 ^ 63) (hsize : size < 2 ^ 63)
    (buf : List UInt8) {offset : ℕ} (ho : size < offset) :
    ∃ h', gammarayfsRead disk bs junk path buf offset h = some (-einval, buf, h') := by
  obtain ⟨h₁, hp, hdb₁, hs₁⟩ := pathlookup_total hs hst hid
  obtain ⟨h₂, hg, -, -⟩ := getattr_total junk hs₁ (hdb₁ ▸ hst) hid hsize
  refine ⟨h₂, ?_⟩
  rw [gammarayfsRead, Loop.bind_of_some hp]
  dsimp only
  rw [Loop.bind_of_some hg]
  dsimp only
  rw [if_pos (by omega)]

theorem read_within (disk : Disk) (bs : ℕ) (junk : Vector UInt8 8) (hs : Settled h)
    (hst : Stored h.db path id size blocks) (hid : id < 2 ^ 63) (hsize : size < 2 ^ 63)
    (buf : List UInt8) {offset : ℕ} (ho : offset ≤ size) :
    ∃ h', gammarayfsRead disk bs junk path buf offset h =
      (readBlocks disk bs (clipped size offset buf.length)
        ((window blocks (offset / 4096) (u64 ((offset / 4096 : ℕ) +
          u64 ((clipped size offset buf.length : ℕ) + 4095) / 4096))).map sectorText)
        (offset % bs) 0 buf).map fun r => (i32 r.1, r.2, h') := by
  obtain ⟨h₁, hp, hdb₁, hs₁⟩ := pathlookup_total hs hst hid
  obtain ⟨h₂, hg, hdb₂, hs₂⟩ := getattr_total junk hs₁ (hdb₁ ▸ hst) hid hsize
  have hclip : (if u64 (size : ℤ) < u64 (offset + buf.length) then u64 ((size : ℤ) - offset)
      else buf.length) = clipped size offset buf.length := by
    rw [u64_natCast (by omega), ← Nat.cast_sub ho, u64_natCast (by omega)]
    rfl
  have hst₂ : Stored h₂.db path id size blocks := by
    rw [hdb₂, hdb₁]
    exact hst
  obtain ⟨h₃, hl, -, -⟩ := listGetVar_total hs₂ hst₂ (offset / 4096)
    (u64 ((offset / 4096 : ℕ) + u64 ((clipped size offset buf.length : ℕ) + 4095) / 4096))
  refine ⟨h₃, ?_⟩
  rw [gammarayfsRead, Loop.bind_of_some hp]
  dsimp only
  rw [Loop.bind_of_some hg]
  dsimp only
  rw [if_neg (by omega), hclip, u64_natCast (n := id) (by omega), Loop.bind_of_some hl]
  dsimp only
  rw [Option.bind_eq_bind, Option.bind_some]
  cases readBlocks disk bs (clipped size offset buf.length)
    ((window blocks (offset / 4096) (u64 ((offset / 4096 : ℕ) +
      u64 ((clipped size offset buf.length : ℕ) + 4095) / 4096))).map sectorText)
    (offset % bs) 0 buf <;> rfl

/-- How far the loop gets for a request of `len` bytes to a file of `n` blocks. -/
def delivered (size offset len n : ℕ) : ℕ :=
  if offset + len < 2 ^ 64 then min len (size - offset)
  else if len ≤ 2 ^ 64 - 4096 then min len (4096 * n - offset)
  else min (4096 - offset % 4096) (4096 * n - offset)

theorem clipped_of_lt {size offset len : ℕ} (ho : offset ≤ size) (h : offset + len < 2 ^ 64) :
    clipped size offset len = min len (size - offset) := by
  rw [clipped, ← Nat.cast_add, u64_natCast h]
  split <;> omega

theorem clipped_of_ge {size offset len : ℕ} (ho : offset ≤ size) (hsize : size < 2 ^ 63)
    (hlen : len < 2 ^ 64) (h : 2 ^ 64 ≤ offset + len) : clipped size offset len = len := by
  have hu : u64 ((offset : ℤ) + len) = offset + len - 2 ^ 64 := by
    unfold u64
    omega
  rw [clipped, hu, if_neg (by omega)]

theorem window_length (start stop : ℕ) :
    (window blocks start stop).length = min (blocks.length - start) (stop + 1 - start) := by
  rw [window, List.length_drop, List.length_take]
  omega

theorem drop_eq_window (blocks : List ℤ) (start stop : ℕ) :
    ∃ rest, blocks.drop start = window blocks start stop ++ rest := by
  refine ⟨(blocks.drop start).drop (stop + 1 - start), ?_⟩
  rw [window, List.drop_take, List.take_append_drop]

theorem mem_of_mem_window {start stop : ℕ} {s : ℤ} (h : s ∈ window blocks start stop) :
    s ∈ blocks :=
  List.mem_of_mem_take (List.mem_of_mem_drop h)

theorem clipped_le {offset len : ℕ} (ho : offset ≤ size) (hsize : size < 2 ^ 63)
    (hlen : len < 2 ^ 64) : clipped size offset len ≤ len := by
  by_cases hw : offset + len < 2 ^ 64
  · rw [clipped_of_lt ho hw]
    exact min_le_left _ _
  · rw [clipped_of_ge ho hsize hlen (by omega)]

theorem window_covers {offset len : ℕ} (ho : offset ≤ size) (hsize : size < 2 ^ 63)
    (hlen : len < 2 ^ 64) (hn : (size + 4095) / 4096 ≤ blocks.length) :
    ∃ stop, u64 ((offset / 4096 : ℕ) + u64 ((clipped size offset len : ℕ) + 4095) / 4096) = stop ∧
      clipped size offset len ≤ len ∧
      min (clipped size offset len)
          (4096 * (window blocks (offset / 4096) stop).length - offset % 4096) =
        delivered size offset len blocks.length := by
  obtain ⟨c, hc⟩ : ∃ c, c = clipped size offset len := ⟨_, rfl⟩
  obtain ⟨k, hk⟩ : ∃ k, k = u64 ((c : ℤ) + 4095) := ⟨_, rfl⟩
  have hk64 : k < 2 ^ 64 := hk ▸ u64_lt _
  have hstop : u64 ((offset / 4096 : ℕ) + (k : ℤ) / 4096) = offset / 4096 + k / 4096 := by
    have hcast : ((offset / 4096 : ℕ) : ℤ) + (k : ℤ) / 4096 =
        ((offset / 4096 + k / 4096 : ℕ) : ℤ) := by
      push_cast
      rfl
    rw [hcast, u64_natCast (by omega)]
  rw [← hc, ← hk]
  refine ⟨offset / 4096 + k / 4096, hstop, ?_, ?_⟩
  · rw [hc]
    exact clipped_le ho hsize hlen
  · rw [window_length, delivered]
    by_cases hw : offset + len < 2 ^ 64
    · have hcval := hc.trans (clipped_of_lt ho hw)
      have hkval : k = c + 4095 := by
        rw [hk]
        unfold u64
        omega
      rw [if_pos hw, hkval]
      omega
    · have hcval := hc.trans (clipped_of_ge ho hsize hlen (by omega))
      rw [if_neg hw, hcval]
      rw [hcval] at hk
      split
      · have hkval : k = len + 4095 - if len + 4095 < 2 ^ 64 then 0 else 2 ^ 64 := by
          rw [hk]
          unfold u64
          split <;> omega
        split at hkval <;> omega
      · have hkval : k = len + 4095 - 2 ^ 64 := by
          rw [hk]
          unfold u64
          omega
        omega

end Store

/-- `-EINVAL` behind the end of the file, and otherwise its bytes from the offset on, as many as
the buffer takes and the file has. -/
def ReadsContent (disk : Disk) (junk : Vector UInt8 8) (path : List UInt8) (h : Handle)
    (size : ℕ) (blocks : List ℤ) (offset : ℕ) (buf : List UInt8) : Prop :=
  ∃ ret buf' h', gammarayfsRead disk 4096 junk path buf offset h = some (ret, buf', h') ∧
    (size < offset → ret = -einval) ∧
    (offset ≤ size → ret = (min buf.length (size - offset) : ℕ) ∧
      buf'.take (min buf.length (size - offset)) =
        content disk blocks offset (min buf.length (size - offset)))

/-- The number of bytes fits an `int`, or the size of the request is such that it overflows with
the offset and what the loop delivers instead comes out right all the same. -/
def Representable (size offset len n : ℕ) : Prop :=
  if offset + len < 2 ^ 64 then min len (size - offset) < 2 ^ 31
  else i32 (delivered size offset len n) = (size - offset : ℕ)

theorem i32_delivered_iff {size offset len n : ℕ} (hsize : size < 2 ^ 63) :
    i32 (delivered size offset len n) = (min len (size - offset) : ℕ) ↔
      Representable size offset len n := by
  unfold Representable
  split
  · rename_i hw
    rw [delivered, if_pos hw]
    unfold i32
    omega
  · have hmin : min len (size - offset) = size - offset := by omega
    rw [hmin]

theorem le_of_i32_eq {c n : ℕ} (h : i32 c = n) : n ≤ c := by
  unfold i32 at h
  omega

theorem readsContent_iff_delivered (disk : Disk) (junk : Vector UInt8 8) {path : List UInt8}
    {h : Handle}
    {id size : ℕ} {blocks : List ℤ} (hs : Settled h) (hst : Stored h.db path id size blocks)
    (hid : id < 2 ^ 63) (hsize : size < 2 ^ 63) (hblocks : ∀ s ∈ blocks, Block s)
    (hn : (size + 4095) / 4096 ≤ blocks.length) (offset : ℕ) (buf : List UInt8)
    (hbuf : buf.length < 2 ^ 64) :
    ReadsContent disk junk path h size blocks offset buf ↔
      (offset ≤ size → i32 (delivered size offset buf.length blocks.length) =
        (min buf.length (size - offset) : ℕ)) := by
  by_cases ho : offset ≤ size
  · obtain ⟨h', hread⟩ := read_within disk 4096 junk hs hst hid hsize buf ho
    obtain ⟨stop, hstop, hclip, hdel⟩ := window_covers ho hsize hbuf hn
    obtain ⟨rest, hrest⟩ := drop_eq_window blocks (offset / 4096) stop
    obtain ⟨buf', hloop, hlen, htake⟩ := @readBlocks_spec 4096 disk blocks
      (clipped size offset buf.length) (by decide) (by omega) _ (offset / 4096) (offset % 4096) 0
      rest buf (fun s hs => hblocks s (mem_of_mem_window hs)) (by omega) hrest (Nat.zero_le _)
      hclip
    have hstart : 4096 * (offset / 4096) + offset % 4096 = offset := by omega
    rw [Nat.sub_zero, hdel, Nat.zero_add] at hloop htake
    rw [List.take_zero, List.nil_append, hstart] at htake
    rw [hstop, hloop, Option.map_some] at hread
    constructor
    · rintro ⟨ret, buf₁, h₁, he, -, hin⟩ -
      obtain ⟨hret, -⟩ := Prod.mk.inj (Option.some.inj (hread.symm.trans he))
      rw [← (hin ho).1, ← hret]
    · intro hret
      refine ⟨_, buf', h', hread, fun hlt => absurd hlt (by omega), fun _ => ⟨hret ho, ?_⟩⟩
      have hge := le_of_i32_eq (hret ho)
      have hcut : buf'.take (min buf.length (size - offset)) =
          (buf'.take (delivered size offset buf.length blocks.length)).take
            (min buf.length (size - offset)) := by
        rw [List.take_take, min_eq_left hge]
      rw [hcut, htake, blockContent_take _ _ _ _ hge, content_eq]
  · obtain ⟨h', hread⟩ := read_past_end disk 4096 junk hs hst hid hsize buf (Nat.lt_of_not_le ho)
    refine iff_of_true ⟨_, buf, h', hread, fun _ => rfl, fun hle => absurd hle ho⟩ ?_
    exact fun hle => absurd hle ho

/-- A read gives the bytes of the file, short of what its result cannot count. -/
theorem read_content_iff (disk : Disk) (junk : Vector UInt8 8) {path : List UInt8} {h : Handle}
    {id size : ℕ} {blocks : List ℤ} (hs : Settled h) (hst : Stored h.db path id size blocks)
    (hid : id < 2 ^ 63) (hsize : size < 2 ^ 63) (hblocks : ∀ s ∈ blocks, Block s)
    (hn : (size + 4095) / 4096 ≤ blocks.length) (offset : ℕ) (buf : List UInt8)
    (hbuf : buf.length < 2 ^ 64) :
    ReadsContent disk junk path h size blocks offset buf ↔
      (offset ≤ size → Representable size offset buf.length blocks.length) := by
  rw [readsContent_iff_delivered disk junk hs hst hid hsize hblocks hn offset buf hbuf,
    i32_delivered_iff hsize]

/-- A store with one file. -/
def fileStore (path : List UInt8) (size : ℕ) (blocks : List ℤ) : Db Key :=
  ⟨fun
    | .path p => if p = path then some (.string (dec 0)) else none
    | .file _ => some (.hash fun f => if f = ascii "size" then some (leBytes 8 size) else none)
    | .filesectors _ => some (.list (blocks.map sectorText))
    | _ => none, []⟩

theorem fileStore_stored (size : ℕ) (blocks : List ℤ) :
    Stored (fileStore [47] size blocks) [47] 0 size blocks :=
  ⟨rfl, ⟨_, rfl, if_pos rfl⟩, rfl⟩

theorem read_content_threeBytes :
    Settled (redisInit (fileStore [47] 5 [1]) 0) ∧
      Stored (fileStore [47] 5 [1]) [47] 0 5 [1] ∧ Block 1 ∧
      ReadsContent (fun n => UInt8.ofNat n) (Vector.replicate 8 0) [47]
        (redisInit (fileStore [47] 5 [1]) 0) 5 [1] 1 [0, 0, 0] := by
  have hs := redisInit_settled (fileStore [47] 5 [1]) 0
  have hst := fileStore_stored 5 [1]
  have hblock : Block 1 := Or.inr (by decide)
  refine ⟨hs, hst, hblock, ?_⟩
  refine (read_content_iff _ _ hs hst (by decide) (by decide) ?_ (by decide) 1 [0, 0, 0]
    (by decide)).mpr fun _ => ?_
  · intro s hmem
    rw [List.mem_singleton.mp hmem]
    exact hblock
  · rw [Representable, if_pos (by decide)]
    decide

/-- Two GiB of holes, read at once. -/
def holes : List ℤ := List.replicate (2 ^ 19) (-1)

/-- The result comes back as `-2 ^ 31`. -/
theorem two_gib_read_negative :
    ¬ ReadsContent (fun _ => 0) (Vector.replicate 8 0) [47]
      (redisInit (fileStore [47] (2 ^ 31) holes) 0) (2 ^ 31) holes 0
      (List.replicate (2 ^ 31) 0) := by
  have hlen : (List.replicate (2 ^ 31) (0 : UInt8)).length = 2 ^ 31 := List.length_replicate
  have hn : holes.length = 2 ^ 19 := List.length_replicate
  rw [readsContent_iff_delivered _ _ (redisInit_settled (fileStore [47] (2 ^ 31) holes) 0)
    (fileStore_stored (2 ^ 31) holes) (by decide) (by decide)
    (fun s hs => Or.inl (List.eq_of_mem_replicate hs)) (by rw [hn]; decide) 0 _
    (by rw [hlen]; decide), hlen, hn]
  intro h
  exact absurd (h (Nat.zero_le _)) (by decide)

end GammaRay.GrayFs
