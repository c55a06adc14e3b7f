import GammaRay.QueueBlocks
import GammaRay.LoadQueue
import GammaRay.LoadIndex

set_option autoImplicit false

/-!
# The queue of pending writes

Runs of `qemu_deep_inspect` on a store that was loaded from an index. Every entry of the
queue is a prefix of the bytes most recently written at its sector, at every point of a run,
if and only if each block of the run leaves the queue so.
-/
namespace GammaRay.Inspect
open Bytes Redis KvStore Ext4 Total Loader

/-- What `qemu_deep_inspect` does with a write: its blocks, and a flush. -/
inductive Step where
  | block (b : Block)
  | flush

namespace Step

def perform {σ : Type} (c : Inspector σ) (fuel : ℕ) : Step → Act σ Unit
  | .block b => b.inspect c fuel
  | .flush => c.flush

def written (u : Setup) : Step → Disk → Disk
  | .block b => b.written u
  | .flush => id

def Ok {σ : Type} {c : Inspector σ} (L : Lawful c.service) (fuel : ℕ) (disk : Disk) :
    Step → State σ → Prop
  | .block b => b.Ok L fuel disk
  | .flush => fun _ => True

end Step

/-- Writes, each with its number. -/
abbrev Writes := List (ℕ × BdrvWrite)

section Run

variable {σ : Type} (c : Inspector σ) (fuel : ℕ)

def stepsOf (w : ℕ × BdrvWrite) : List Step :=
  (c.blockStarts w.2.nbSectors).map (fun i => .block ⟨w.1, w.2, i⟩) ++ [.flush]

def steps (writes : Writes) : List Step := writes.flatMap (stepsOf c)

def run (l : List Step) : Act σ Unit := l.forM (Step.perform c fuel)

/-- What the disk holds after some steps, as far as they have written it. -/
def diskAfter (u : Setup) (l : List Step) : Disk :=
  l.foldl (fun disk step => step.written u disk) fun _ => none

theorem run_append (l l' : List Step) :
    run c fuel (l ++ l') = run c fuel l >>= fun _ => run c fuel l' := by
  simp [run]

/-- The steps are those of `qemu_deep_inspect`. -/
theorem deepInspect_steps (hc : c.blockSize / sectorSize ≠ 0) (w : ℕ × BdrvWrite) :
    c.deepInspect w.1 (fuel + 1) w.2 = run c fuel (stepsOf c w) := by
  rw [stepsOf, run_append, Inspector.deepInspect, if_neg (by tauto)]
  simp [run, Step.perform, Block.inspect]

theorem inspectAll_steps (hc : c.blockSize / sectorSize ≠ 0) (writes : Writes) :
    writes.forM (fun w => c.deepInspect w.1 (fuel + 1) w.2) = run c fuel (steps c writes) := by
  induction writes with
  | nil => rfl
  | cons w writes ih =>
    rw [steps, List.flatMap_cons, run_append, ← deepInspect_steps c fuel hc]
    exact congrArg (fun x => c.deepInspect w.1 (fuel + 1) w.2 >>= fun _ => x) ih

theorem blockStarts_lt {nbSectors i : ℕ} (h : i ∈ c.blockStarts nbSectors) :
    0 < c.blockSize / sectorSize ∧ i < nbSectors := by
  obtain ⟨j, hj, rfl⟩ := List.mem_map.mp h
  rw [List.mem_range] at hj
  rcases Nat.eq_zero_or_pos (c.blockSize / sectorSize) with hk | hk
  · rw [hk, Nat.div_zero] at hj
    exact absurd hj (Nat.not_lt_zero j)
  · refine ⟨hk, ?_⟩
    have hle := (Nat.le_div_iff_mul_le hk).mp (Nat.succ_le_of_lt hj)
    rw [Nat.succ_mul] at hle
    omega

theorem size_pos_of_mem {b : Block} {writes : Writes} (h : .block b ∈ steps c writes) :
    0 < b.size c.toSetup := by
  obtain ⟨w, -, hb⟩ := List.mem_flatMap.mp h
  rcases List.mem_append.mp hb with hb | hb
  · obtain ⟨i, hi, hib⟩ := List.mem_map.mp hb
    obtain rfl := Step.block.inj hib
    obtain ⟨hpos, hlt⟩ := blockStarts_lt c hi
    have hsize : 0 < c.blockSize := Nat.pos_of_ne_zero fun h0 => by simp [h0] at hpos
    have hrest : 0 < (w.2.nbSectors - i) * sectorSize := Nat.mul_pos (by omega) (by decide)
    exact lt_min hrest hsize
  · cases List.mem_singleton.mp hb

variable {c fuel} (L : Lawful c.service) {s t : State σ} {disk : Disk} {step : Step}

theorem perform_ok (hs : L.Ok s.store) (h : step.perform c fuel s = some ((), t)) :
    L.Ok t.store := by
  cases step with
  | block b => exact (Block.commands_lead L hs h).1
  | flush => exact ((Inspector.flush_at L ⟨hs, rfl⟩).yields () t h).1

/-- One step keeps the queue as the disk if it is one that does. -/
theorem perform_iff (hs : L.Ok s.store) (hsize : ∀ b, step = .block b → 0 < b.size c.toSetup)
    (h : step.perform c fuel s = some ((), t)) (hq : QueueOk disk (L.db s.store)) :
    QueueOk (step.written c.toSetup disk) (L.db t.store) ↔ step.Ok L fuel disk s := by
  cases step with
  | block b => exact Block.ok_iff L hs (hsize b rfl) h hq
  | flush =>
    rw [((Inspector.flush_at L ⟨hs, rfl⟩).yields () t h).2]
    exact iff_true_intro hq

theorem run_snoc_iff {l : List Step} :
    run c fuel (l ++ [step]) s = some ((), t) ↔
      ∃ m, run c fuel l s = some ((), m) ∧ step.perform c fuel m = some ((), t) := by
  rw [run_append]
  change ((run c fuel l s).bind fun p => run c fuel [step] p.2) = some ((), t) ↔ _
  rw [Option.bind_eq_some_iff]
  constructor
  · rintro ⟨⟨_, m⟩, hm, ht⟩
    refine ⟨m, hm, ?_⟩
    simpa [run] using ht
  · rintro ⟨m, hm, ht⟩
    refine ⟨((), m), hm, ?_⟩
    simpa [run] using ht

theorem run_ok (hs : L.Ok s.store) {l : List Step} (h : run c fuel l s = some ((), t)) :
    L.Ok t.store := by
  induction l using List.reverseRecOn generalizing t with
  | nil =>
    obtain ⟨-, rfl⟩ := Prod.mk.inj (Option.some.inj h)
    exact hs
  | append_singleton l step ih =>
    obtain ⟨m, hm, ht⟩ := run_snoc_iff.mp h
    exact perform_ok L (ih hm) ht

/-- At every point of a run the queue is as the disk, if and only if each step leaves it so. -/
theorem run_queueOk_iff (hs : L.Ok s.store) (hempty : ∀ n, (L.db s.store).keys (.qsector n) = none)
    (writes : Writes) :
    (∀ l t, l <+: steps c writes → run c fuel l s = some ((), t) →
      QueueOk (diskAfter c.toSetup l) (L.db t.store)) ↔
    ∀ l step m t, l ++ [step] <+: steps c writes → run c fuel l s = some ((), m) →
      step.perform c fuel m = some ((), t) → step.Ok L fuel (diskAfter c.toSetup l) m := by
  have hsize : ∀ {l : List Step} {step : Step}, l ++ [step] <+: steps c writes →
      ∀ b, step = .block b → 0 < b.size c.toSetup := by
    rintro l _ hl b rfl
    exact size_pos_of_mem c (hl.subset (by simp))
  have hsnoc : ∀ (l : List Step) (step : Step), diskAfter c.toSetup (l ++ [step]) =
      step.written c.toSetup (diskAfter c.toSetup l) := by
    intro l step
    rw [diskAfter, List.foldl_append]
    rfl
  constructor
  · intro hall l step m t hl hm ht
    have hbefore := hall l m ((List.prefix_append l [step]).trans hl) hm
    have hafter := hall (l ++ [step]) t hl (run_snoc_iff.mpr ⟨m, hm, ht⟩)
    rw [hsnoc] at hafter
    exact (perform_iff L (run_ok L hs hm) (hsize hl) ht hbefore).mp hafter
  · intro hall l
    induction l using List.reverseRecOn with
    | nil =>
      intro t _ h
      obtain ⟨-, rfl⟩ := Prod.mk.inj (Option.some.inj h)
      intro n v hv
      rw [hempty n] at hv
      cases hv
    | append_singleton l step ih =>
      intro t hl h
      obtain ⟨m, hm, ht⟩ := run_snoc_iff.mp h
      rw [hsnoc]
      refine (perform_iff L (run_ok L hs hm) (hsize hl) ht ?_).mpr (hall l step m t hl hm ht)
      exact ih m ((List.prefix_append l [step]).trans hl) hm

end Run

/-- The inspection on the handle of a store, with a given stack. -/
def Setup.inspector (u : Setup) (stack : ℕ → ℕ → UInt8) : Inspector Handle :=
  ⟨u, handleService, stack⟩

def twoBlockFs : FsRecord where
  pteNum := 0
  pteNum_lt := pteNum_zero
  fields := [(keyNamed "block_size" (by decide), int64Of 512)]
  scalar := by simp [int64Of, Scalar]
  sector e he h := by
    obtain rfl := List.mem_singleton.mp he
    exact absurd h (by decide)

/-- 600 bytes at sectors 40 and 41. -/
def twoBlockFile : FileRecord where
  fields := [.path (ascii "/a"), .sectors [(decKey 0, 40), (decKey 1, 41)],
    .scalar (keyNamed "size" size_noNul) (int64Of 600) trivial (by decide)]
  distinct := by decide
  noType := by decide
  path := ascii "/a"
  hasPath := by simp

def twoBlockLoad : Option (Statics × Handle) :=
  qemuLoadIndex zeroHeap 200
    (fun _ => ⟨⟨⟨0, 0, 0, 0, 0⟩, ⟨0, 0, 0, 0, 0⟩⟩, ⟨0, 0, 0, 0, 0, 0⟩⟩)
    ⟨Bson.stream [twoBlockFs.document, twoBlockFile.document], 0⟩ .fresh (redisInit Db.empty 0)

def twoBlockSetup : Setup := ⟨zeroHeap, ascii "host", ascii "vm", 512, 0⟩

def twoBlockInspector : Inspector Handle := twoBlockSetup.inspector fun _ _ => 0

/-- A block of 65 and one of 66. -/
def twoBlockWrites : Writes := [(0, ⟨40, 2, List.replicate 512 65 ++ List.replicate 512 66⟩)]

theorem keys_of_entry {u : Setup} {d : Db KvStore.Key} {n : ℕ} {x : List UInt8}
    (h : u.entry d n = x) (hx : x ≠ []) : d.keys (.qsector n) = some (.string x) := by
  cases hk : d.keys (.qsector n) with
  | none =>
    rw [Setup.entry, answer, exec, hk] at h
    exact absurd h.symm hx
  | some v =>
    rw [Setup.entry, answer, exec, hk] at h
    cases v with
    | string y =>
      change (if 0 < y.length ∧ y.length ≤ u.blockSize then y else []) = x at h
      split at h
      · rw [h]
      · exact absurd h.symm hx
    | _ => exact absurd h.symm hx

theorem twoBlock_entry : (twoBlockLoad.bind fun p =>
    (run twoBlockInspector 1 (steps twoBlockInspector twoBlockWrites) ⟨p.2, 0⟩).map fun q =>
      twoBlockSetup.entry q.2.store.db 40) = some (List.replicate 88 66) := by
  decide +kernel

end GammaRay.Inspect
