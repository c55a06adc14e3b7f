import GammaRay.UpdateOrder

set_option autoImplicit false

/-!
# The write to the last block and the write to the inode

A reader sees the data of a file that grows within its last block only if the inode is
inspected first. In the other order the bytes behind the old end come from the stack.
-/
namespace GammaRay.Inspect
open Bytes Decimal Redis KvStore Bson Ext4 Total Inspector

/-- The inspection with a given stack, each call getting its own reply. -/
def Setup.direct (u : Setup) (stack : ℕ → ℕ → UInt8) : Inspector (Db KvStore.Key) :=
  ⟨u, directService, stack⟩

namespace InodeBlock

variable {u : Setup} {d e : Db KvStore.Key} {b : InodeBlock}
  {σ : Type} {c : Inspector σ} (L : Lawful c.service) {s : State σ}

inductive Order where
  | dataFirst
  | inodeFirst
  deriving DecidableEq, Repr

/-- The two writes, one after the other. -/
def inspectBoth (b : InodeBlock) (c : Inspector σ) (data : List UInt8) (first second fuel : ℕ) :
    Order → Act σ Unit
  | .dataFirst => do
    c.deepInspect first fuel (b.dataWrite c.toSetup data)
    c.deepInspect second fuel (b.inodeWrite c.toSetup)
  | .inodeFirst => do
    c.deepInspect first fuel (b.inodeWrite c.toSetup)
    c.deepInspect second fuel (b.dataWrite c.toSetup data)

/-- The bytes that a block has had at an offset, by the writes to it. -/
def WrittenAt (writes : List (List UInt8)) (j : ℕ) (byte : UInt8) : Prop :=
  ∃ w ∈ writes, w[j]? = some byte

/-- The last message for the block carries the data up to the new size, and none carries a byte
that was not written to the block. -/
def Right (b : InodeBlock) (u : Setup) (data : List UInt8) (writes : List (List UInt8))
    (d e : Db KvStore.Key) : Prop :=
  ∃ new, published (u.constructChannelName b.path) b.start e =
      published (u.constructChannelName b.path) b.start d ++ new ∧
    new.getLast? = some (data.take (b.newSize - b.start)) ∧
    ∀ m ∈ new, ∀ j byte, m[j]? = some byte → WrittenAt writes j byte

theorem dataFirst_shows (hown : L.Own) (hc : c.Geometry) (h : b.Grows c.toSetup d)
    {data : List UInt8} (hdata : data.length = c.blockSize) (hs : L.At s d) (first second fuel : ℕ) :
    Ensures (b.inspectBoth c data first second (fuel + 2) .dataFirst) s fun _ t => ∃ e, L.At t e ∧
      ∃ n k, published (c.constructChannelName b.path) b.start e =
        published (c.constructChannelName b.path) b.start d ++
          (data.take (b.oldSize - b.start) :: List.replicate (k + 1) (shown c.toSetup (c.stack n)
            (data.take (b.oldSize - b.start)) (b.newSize - b.start))) := by
  have hlt := h.starts
  have hgrows := h.grows
  have hends := h.ends
  have hid := (h.ready b.target (by simp [files])).tracked.id_lt
  refine (dataWrite_shows L hc h.block hid h.known hlt (by omega) hdata hs first (fuel + 1)).bind ?_
  rintro _ t₁ ⟨d₁, ⟨hkeys, hentry, hpub⟩, ht₁⟩
  refine (inodeWrite_grown L hown hc (h.congr hkeys) ht₁ second fuel).mono ?_
  rintro _ t₂ ⟨e, he, ht₂⟩
  have hne : c.entry d₁ (u64 b.z) ≠ [] := by
    rw [hentry]
    exact List.ne_nil_of_length_pos (by rw [List.length_take]; omega)
  obtain ⟨n, k, hshown⟩ := he.shows hne
  rw [hentry, hpub, List.append_assoc] at hshown
  exact ⟨e, ht₂, n, k, hshown⟩

theorem inodeFirst_shows (hown : L.Own) (hc : c.Geometry) (h : b.Grows c.toSetup d)
    {data : List UInt8} (hdata : data.length = c.blockSize) (hs : L.At s d) (first second fuel : ℕ) :
    Ensures (b.inspectBoth c data first second (fuel + 2) .inodeFirst) s fun _ t => ∃ e, L.At t e ∧
      ∃ shownFirst, published (c.constructChannelName b.path) b.start e =
        published (c.constructChannelName b.path) b.start d ++
          (shownFirst ++ [data.take (b.newSize - b.start)]) ∧
        (c.entry d (u64 b.z) = [] → shownFirst = []) ∧
        (c.entry d (u64 b.z) ≠ [] → ∃ n k, shownFirst = List.replicate (k + 1)
          (shown c.toSetup (c.stack n) (c.entry d (u64 b.z)) (b.newSize - b.start))) := by
  have hlt := h.starts
  have hgrows := h.grows
  have hid := (h.ready b.target (by simp [files])).tracked.id_lt
  refine (inodeWrite_grown L hown hc h hs first fuel).bind ?_
  rintro _ t₁ ⟨d₁, hd₁, ht₁⟩
  refine (dataWrite_shows L hc (h.block.congr hd₁.sectors) hid hd₁.known (by omega) h.ends hdata ht₁
    second (fuel + 1)).mono ?_
  rintro _ t₂ ⟨e, ⟨-, -, hpub⟩, ht₂⟩
  refine ⟨e, ht₂, ?_⟩
  by_cases hv : c.entry d (u64 b.z) = []
  · refine ⟨[], ?_, fun _ => rfl, fun h => absurd hv h⟩
    rw [hpub, hd₁.empty hv]
    rfl
  · obtain ⟨n, k, hshown⟩ := hd₁.shows hv
    refine ⟨_, ?_, fun h => absurd h hv, fun _ => ⟨n, k, rfl⟩⟩
    rw [hpub, hshown, List.append_assoc]

/-! ## Which order shows the data -/

theorem shown_getElem {vars : ℕ → UInt8} {v : List UInt8} {len j : ℕ} (hlen : len ≤ u.blockSize)
    (hj : j < len) :
    (shown u vars v len)[j]? = if j < v.length then v[j]? else some (vars j) := by
  rw [shown, overlay, List.getElem?_take, if_pos hj]
  split
  · rw [List.getElem?_append_left ‹_›]
  · have hrange : (List.range u.blockSize)[j]? = some j := List.getElem?_range (by omega)
    rw [List.getElem?_append_right (by omega), List.getElem?_drop,
      Nat.add_sub_cancel' (by omega), junk, List.getElem?_map, hrange, Option.map_some,
      Nat.zero_add]

/-- The bytes behind the old end come from the stack. -/
theorem not_right_of_stack (hu : u.Geometry) (h : b.Grows u d) {data : List UInt8}
    (hdata : data.length = u.blockSize) {byte : UInt8}
    (hbyte : data[b.oldSize - b.start]? ≠ some byte) (writes : List (List UInt8))
    (first second fuel : ℕ) :
    ¬ Ensures (b.inspectBoth (u.direct fun _ _ => byte) data first second (fuel + 2) .dataFirst)
      ⟨d, 0⟩ fun _ t => b.Right u data writes d t.store := by
  have hlt := h.starts
  have hgrows := h.grows
  have hends := h.ends
  intro hright
  obtain ⟨_, t, -, ⟨new, hnew, hlast, -⟩, e, ⟨-, rfl⟩, n, k, hshown⟩ :=
    hright.and (dataFirst_shows (c := u.direct fun _ _ => byte) directLawful directLawful_own hu h
      hdata ⟨trivial, rfl⟩ first second fuel)
  have heq := List.append_cancel_left (hnew.symm.trans hshown)
  rw [heq, List.replicate_succ', ← List.cons_append, List.getLast?_concat, Option.some.injEq]
    at hlast
  have hat := congrArg (·[b.oldSize - b.start]?) hlast
  have hbehind : ¬ b.oldSize - b.start < (data.take (b.oldSize - b.start)).length := by
    rw [List.length_take]
    omega
  simp only [shown_getElem (u := (u.direct fun _ _ => byte).toSetup)
    (show b.newSize - b.start ≤ u.blockSize by omega)
    (show b.oldSize - b.start < b.newSize - b.start by omega), if_neg hbehind,
    List.getElem?_take_of_lt (show b.oldSize - b.start < b.newSize - b.start by omega)] at hat
  exact hbyte hat.symm

theorem not_right_dataFirst (hu : u.Geometry) (h : b.Grows u d) {data : List UInt8}
    (hdata : data.length = u.blockSize) (writes : List (List UInt8)) (first second fuel : ℕ) :
    ¬ ∀ stack, Ensures (b.inspectBoth (u.direct stack) data first second (fuel + 2) .dataFirst)
      ⟨d, 0⟩ fun _ t => b.Right u data writes d t.store := by
  intro hall
  by_cases h0 : data[b.oldSize - b.start]? = some 0
  · have h1 : data[b.oldSize - b.start]? ≠ some 1 := by rw [h0]; decide
    exact not_right_of_stack hu h hdata h1 writes first second fuel (hall _)
  · exact not_right_of_stack hu h hdata h0 writes first second fuel (hall _)

/-- Every byte that an old entry of the queue can make known has been written. -/
def Covered (b : InodeBlock) (u : Setup) (writes : List (List UInt8)) (d : Db KvStore.Key) : Prop :=
  u.entry d (u64 b.z) ≠ [] → ∀ j < b.newSize - b.start, ∀ byte,
    (u.entry d (u64 b.z))[j]? = some byte ∨ (u.entry d (u64 b.z)).length ≤ j →
      WrittenAt writes j byte

theorem right_inodeFirst (hu : u.Geometry) (h : b.Grows u d) {data : List UInt8}
    (hdata : data.length = u.blockSize) {writes : List (List UInt8)} (hmem : data ∈ writes)
    (hcover : b.Covered u writes d) (first second fuel : ℕ) (stack : ℕ → ℕ → UInt8) :
    Ensures (b.inspectBoth (u.direct stack) data first second (fuel + 2) .inodeFirst)
      ⟨d, 0⟩ fun _ t => b.Right u data writes d t.store := by
  have hends := h.ends
  refine (inodeFirst_shows (c := u.direct stack) directLawful directLawful_own hu h hdata
    ⟨trivial, rfl⟩ first second fuel).mono ?_
  rintro _ t ⟨e, ⟨-, rfl⟩, old, hnew, hempty, hfull⟩
  refine ⟨_, hnew, List.getLast?_concat, fun m hm j byte hbyte => ?_⟩
  rcases List.mem_append.mp hm with hm | hm
  · by_cases hv : u.entry d (u64 b.z) = []
    · rw [hempty hv] at hm
      exact absurd hm List.not_mem_nil
    · obtain ⟨n, k, rfl⟩ := hfull hv
      have hlen : b.newSize - b.start ≤ u.blockSize := by omega
      obtain rfl := List.eq_of_mem_replicate hm
      have hj : j < b.newSize - b.start := by
        have hlt := (List.getElem?_eq_some_iff.mp hbyte).1
        exact lt_of_lt_of_eq hlt (shown_length u _ hlen)
      refine hcover hv j hj byte ?_
      by_cases hold : j < (u.entry d (u64 b.z)).length
      · exact .inl ((if_pos hold).symm.trans ((shown_getElem hlen hj).symm.trans hbyte))
      · exact .inr (by omega)
  · obtain rfl := List.mem_singleton.mp hm
    refine ⟨data, hmem, ?_⟩
    rw [List.getElem?_take] at hbyte
    split at hbyte
    · exact hbyte
    · cases hbyte

theorem covered_of_right (hu : u.Geometry) (h : b.Grows u d) {data : List UInt8}
    (hdata : data.length = u.blockSize) {writes : List (List UInt8)} {first second fuel : ℕ}
    (hall : ∀ stack, Ensures
      (b.inspectBoth (u.direct stack) data first second (fuel + 2) .inodeFirst)
      ⟨d, 0⟩ fun _ t => b.Right u data writes d t.store) : b.Covered u writes d := by
  have hends := h.ends
  intro hv j hj byte hbyte
  obtain ⟨_, t, -, ⟨new, hnew, -, hwritten⟩, e, ⟨-, rfl⟩, old, hold, -, hfull⟩ :=
    (hall fun _ _ => byte).and (inodeFirst_shows (c := u.direct fun _ _ => byte)
      directLawful directLawful_own hu h hdata ⟨trivial, rfl⟩ first second fuel)
  obtain ⟨n, k, rfl⟩ := hfull hv
  have heq := List.append_cancel_left (hnew.symm.trans hold)
  refine hwritten _ (heq ▸ List.mem_append_left _ (List.mem_replicate.mpr ⟨by omega, rfl⟩)) j byte ?_
  rw [shown_getElem (u := (u.direct fun _ _ => byte).toSetup)
    (show b.newSize - b.start ≤ u.blockSize by omega) hj]
  rcases hbyte with hbyte | hbehind
  · exact (if_pos (List.getElem?_eq_some_iff.mp hbyte).1).trans hbyte
  · exact if_neg (by exact Nat.not_lt.mpr hbehind)

def sampleSetup : Setup := ⟨zeroHeap, ascii "host", ascii "vm", 512, 0⟩

/-- A block of inodes with one inode: a regular file of 20 bytes at block 40. -/
def sampleInodes : List UInt8 :=
  leBytes 2 0x8000 ++ leBytes 2 0 ++ leBytes 4 20 ++ List.replicate 32 0 ++
    [0x0A, 0xF3, 1, 0, 4, 0, 0, 0, 0, 0, 0, 0] ++ [0, 0, 0, 0, 1, 0, 0, 0, 40, 0, 0, 0] ++
    List.replicate 448 0

def sampleRecord : Record where
  path := ascii "/a"
  offset := 0
  values := [0] :: [10, 0x8000, 0, 0, 0, 0, 0, 0].map (leBytes 8)
  path_lt := by decide
  offset_lt := by decide
  widths := by decide

def sampleNode : Inode × InodeStat :=
  (⟨0x8000, 20, 0, 0, ⟨((sampleInodes.drop 40).take 60).toArray, by decide⟩⟩, ⟨0, 0, 0, 0, 0, 0⟩)

def sampleBlock : InodeBlock :=
  ⟨8, 1, sampleInodes, [], ⟨5, sampleRecord, [40], [], sampleNode⟩, [], 40, 0⟩

def sampleFields : List (List UInt8 × List UInt8) :=
  (ascii "path", sampleRecord.path) :: (ascii "inode_offset", leBytes 8 0) ::
    (attributes.map fun a => ascii a.1).zip sampleRecord.values

def sampleStore : Db KvStore.Key where
  keys
    | .sector 8 => some (.string (reference "lfiles:" 1))
    | .sector 40 => some (.string (dataPointer 0 512 5))
    | .files 1 => some (.list [reference "file:" 5])
    | .file 5 => some (.hash fun f => sampleFields.lookup f)
    | .filesectors 5 => some (.list [sectorText 40])
    | _ => none
  messages := []

theorem sampleSetup_geometry : sampleSetup.Geometry := ⟨by decide, by decide, by decide⟩

theorem sampleNode_eq : inodeAt (bufferOf sampleInodes) 0 = some sampleNode := by decide

theorem sample_same : SameExtents sampleSetup sampleStore 5 [40] []
    (bufferOf (sampleInodes.drop 40)) := by
  refine ⟨0xF30A, by decide, fun _ => ⟨⟨1, 0⟩, by decide, fun k hk => ?_⟩⟩
  obtain rfl : k = 0 := Nat.lt_one_iff.mp hk
  refine ⟨⟨0, 1, 0, 40⟩, by decide, by decide, fun i hi => ?_⟩
  obtain rfl : i = 0 := Nat.lt_one_iff.mp hi
  exact ⟨by decide, rfl⟩

theorem sampleBlock_ready : sampleBlock.target.Ready sampleSetup sampleInodes sampleStore where
  tracked := {
    id_lt := by decide
    record := ⟨_, rfl, by decide, by decide, by decide⟩
    sectors_eq := rfl
    sectors_range := by decide
    sectors_length := by decide
    points := by
      intro z hz
      obtain rfl := List.mem_singleton.mp hz
      exact ⟨some (0, 512), by decide, by decide, rfl⟩
    leaves_eq := rfl
    leaves_lt := by decide }
  node := sampleNode_eq
  same _ := sample_same
  grows _ := by decide

theorem sampleBlock_grows : sampleBlock.Grows sampleSetup sampleStore where
  sector_lt := by decide
  list_lt := by decide
  write_length := by decide +kernel
  pointer := rfl
  listed := rfl
  ready x hx := by
    obtain rfl := List.mem_singleton.mp hx
    exact sampleBlock_ready
  distinct := by decide
  block := {
    last := rfl
    pointer := rfl
    fits := by decide
    alone y hy _ _ := by rw [List.mem_singleton.mp hy]; rfl }
  others := by simp [sampleBlock]
  starts := by decide
  grows := by decide
  ends := by decide

end InodeBlock

end GammaRay.Inspect
