import GammaRay.LoadSteps

set_option autoImplicit false

/-!
# Loading leaves the queue empty

No command of `qemu_load_index` is about the queue of writes, whatever the index holds.
-/
namespace GammaRay.Loader
open Bytes Bson KvStore Total

/-- A handle whose store has nothing in the queue. -/
structure Unqueued (h : Handle) : Prop where
  settled : Settled h
  empty : ∀ n, h.db.keys (.qsector n) = none

theorem qemuLoadIndex_unqueued (heap : Heap) (fuel : ℕ) (locals : ℕ → Locals) (index : File)
    (st : Statics) {h : Handle} (hu : Unqueued h) :
    Gives (qemuLoadIndex heap fuel locals index st h) fun p => Unqueued p.2 := by
  intro p hp
  have hr := qemuLoadIndex_rests (J := fun d => ∀ n, d.keys (.qsector n) = none)
    (fun cmd hcmd d hd n => by rw [Redis.keys_after (hcmd.plain.2 n), hd n])
    heap fuel locals index st ⟨hu.settled, hu.empty⟩ p hp
  exact ⟨hr.settled, hr.db⟩

end GammaRay.Loader
