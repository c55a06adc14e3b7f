import GammaRay.FileData

set_option autoImplicit false

/-!
# The blocks of an inspected write

`qemu_deep_inspect` steps through a write by sectors and works out the size of the last block
by itself. What it does comes to one action for each block of the bytes written.
-/
namespace GammaRay.Inspect
open Bytes Redis KvStore Bson Ext4

/-- A block of a write: its sector, its bytes, and what follows them in memory. -/
structure Chunk where
  sector : ℕ
  bytes : List UInt8
  behind : List UInt8

namespace Setup

variable (u : Setup)

def chunkEnd (write : BdrvWrite) (k : ℕ) : ℕ :=
  min ((k + 1) * u.blockSize) (write.nbSectors * sectorSize)

def chunk (write : BdrvWrite) (k : ℕ) : Chunk where
  sector := u64 (write.sectorNum + (k * u.blockSize / sectorSize : ℕ))
  bytes := (write.data.take (u.chunkEnd write k)).drop (k * u.blockSize)
  behind := write.data.drop (u.chunkEnd write k)

def chunks (write : BdrvWrite) : List Chunk :=
  (List.range ((write.nbSectors * sectorSize + u.blockSize - 1) / u.blockSize)).map (u.chunk write)

end Setup

/-- The pointer of a sector, as far as the lookup finds one. -/
def lookedUp (r : Reply) : Option (List UInt8) :=
  if copyString 1024 r = [] then none else some (copyString 1024 r)

namespace Inspector

variable {σ : Type} (c : Inspector σ)

/-- `result[len] = 0`. -/
def terminate (pointer : List UInt8) : Act σ Unit :=
  if pointer.length = 1024 then defined none else pure ()

/-- One block: the lookup, and then either the dispatcher or the queue. -/
def inspectChunk (inspect : BdrvWrite → Act σ Unit) (first writeCounter : ℕ) (k : Chunk) :
    Act σ Unit := do
  let r ← c.query (.get (.sector k.sector))
  match lookedUp r with
  | some pointer => do
    terminate pointer
    c.dispatchWrite inspect (k.bytes ++ k.behind) writeCounter pointer k.bytes.length first
  | none => c.append (.setex (.qsector k.sector) defaultTimeout k.bytes)

end Inspector

section Chunks

variable {u : Setup} {write : BdrvWrite}

theorem chunkEnd_le (hdata : write.nbSectors * sectorSize ≤ write.data.length) (k : ℕ) :
    u.chunkEnd write k ≤ write.data.length :=
  (Nat.min_le_right _ _).trans hdata

theorem chunk_bytes_length (hdata : write.nbSectors * sectorSize ≤ write.data.length) (k : ℕ) :
    (u.chunk write k).bytes.length =
      min (write.nbSectors * sectorSize - k * u.blockSize) u.blockSize := by
  have hle := chunkEnd_le (u := u) hdata k
  simp only [Setup.chunk, List.length_drop, List.length_take]
  unfold Setup.chunkEnd at hle ⊢
  rw [Nat.succ_mul] at hle ⊢
  omega

theorem chunk_bytes_behind (hdata : write.nbSectors * sectorSize ≤ write.data.length) {k : ℕ}
    (hk : k * u.blockSize ≤ write.nbSectors * sectorSize) :
    (u.chunk write k).bytes ++ (u.chunk write k).behind = write.data.drop (k * u.blockSize) := by
  have hle : k * u.blockSize ≤ u.chunkEnd write k := by
    unfold Setup.chunkEnd
    rw [Nat.succ_mul]
    omega
  have hlen : k * u.blockSize ≤ (write.data.take (u.chunkEnd write k)).length := by
    rw [List.length_take_of_le (chunkEnd_le hdata k)]
    exact hle
  simp only [Setup.chunk]
  rw [← List.drop_append_of_le_length hlen, List.take_append_drop]

/-- The first blocks hold the first bytes. -/
theorem flatten_chunks (n : ℕ) (hn : (n - 1) * u.blockSize ≤ write.nbSectors * sectorSize) :
    ((List.range n).map fun k => (u.chunk write k).bytes).flatten =
      write.data.take (min (n * u.blockSize) (write.nbSectors * sectorSize)) := by
  induction n with
  | zero => simp
  | succ n ih =>
    rw [Nat.add_sub_cancel] at hn
    have hprev : (n - 1) * u.blockSize ≤ write.nbSectors * sectorSize :=
      (Nat.mul_le_mul_right _ (Nat.sub_le n 1)).trans hn
    rw [List.range_succ, List.map_append, List.flatten_append, ih hprev, Nat.min_eq_left hn]
    simp only [List.map_singleton, List.flatten_singleton, Setup.chunk]
    have htake : write.data.take (n * u.blockSize) =
        (write.data.take (u.chunkEnd write n)).take (n * u.blockSize) := by
      rw [List.take_take, Nat.min_eq_left]
      unfold Setup.chunkEnd
      rw [Nat.succ_mul]
      omega
    rw [htake, List.take_append_drop]
    rfl

end Chunks

namespace Inspector

variable {σ : Type} (c : Inspector σ)

theorem forM_congr {α : Type} {l : List α} {f g : α → Act σ Unit} (h : ∀ a ∈ l, f a = g a) :
    l.forM f = l.forM g := by
  induction l with
  | nil => rfl
  | cons a l ih =>
    change (f a >>= fun _ => l.forM f) = (g a >>= fun _ => l.forM g)
    rw [h a List.mem_cons_self, ih fun b hb => h b (List.mem_cons_of_mem a hb)]

theorem inspectBlock_eq {write : BdrvWrite} (hdvd : sectorSize ∣ c.blockSize)
    (hdata : write.nbSectors * sectorSize ≤ write.data.length) {k : ℕ}
    (hk : k * c.blockSize ≤ write.nbSectors * sectorSize) (inspect : BdrvWrite → Act σ Unit)
    (writeCounter : ℕ) :
    c.inspectBlock inspect write writeCounter (k * (c.blockSize / sectorSize)) =
      c.inspectChunk inspect write.sectorNum writeCounter (c.chunk write k) := by
  have hsector : (c.chunk write k).sector =
      u64 (write.sectorNum + (k * (c.blockSize / sectorSize) : ℕ)) := by
    rw [Setup.chunk, Nat.mul_div_assoc k hdvd]
  have hoffset : k * (c.blockSize / sectorSize) * sectorSize = k * c.blockSize := by
    rw [Nat.mul_assoc, Nat.div_mul_cancel hdvd]
  have hsize : min ((write.nbSectors - k * (c.blockSize / sectorSize)) * sectorSize) c.blockSize =
      (c.chunk write k).bytes.length := by
    rw [chunk_bytes_length hdata, Nat.sub_mul, hoffset]
  have hcopy : copyLen (c.chunk write k).bytes.length (write.data.drop (k * c.blockSize)) =
      some (c.chunk write k).bytes := by
    rw [← chunk_bytes_behind hdata hk]
    exact copyLen_left _ _
  unfold inspectBlock inspectChunk
  simp only [hoffset, hsize, hcopy, hsector]
  refine bind_congr fun r => ?_
  rw [← chunk_bytes_behind hdata hk, lookedUp]
  split
  · rfl
  · dsimp only [terminate]
    split <;> rfl

theorem chunkCount_eq {write : BdrvWrite} (hpos : 0 < c.blockSize)
    (hdvd : sectorSize ∣ c.blockSize) :
    (write.nbSectors * sectorSize + c.blockSize - 1) / c.blockSize =
      (write.nbSectors + c.blockSize / sectorSize - 1) / (c.blockSize / sectorSize) := by
  obtain ⟨q, hq⟩ := hdvd
  have hs : sectorSize = 512 := rfl
  rw [hs] at hq ⊢
  have hdiv : c.blockSize / 512 = q := by omega
  have hceil : (write.nbSectors * 512 + 512 * q - 1) / 512 = write.nbSectors + q - 1 := by omega
  rw [hdiv, hq, ← Nat.div_div_eq_div_mul, hceil]

/-- Blocks of two sectors. -/
def pairInspector : Inspector Handle where
  heap := zeroHeap
  hostname := []
  vmname := []
  blockSize := 1024
  partitionOffset := 0
  service := handleService
  stack _ _ := 0

def threeSectors : BdrvWrite := ⟨7, 3, List.replicate 1536 1⟩

end Inspector

end GammaRay.Inspect
