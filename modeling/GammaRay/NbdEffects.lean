import GammaRay.NbdServer
import GammaRay.Loop

set_option autoImplicit false

/-!
# What the file operations leave on record

Seeking and reading leave no trace among the effects of the server, and writing leaves
nothing but the writes themselves.
-/
namespace GammaRay.Nbd
open Bytes Loop

theorem lseek_effects (K : Kernel) (w : World) (offset : ℤ) :
    (w.lseek K offset).2.effects = w.effects := by
  unfold World.lseek
  split
  · rfl
  · split <;> rfl

theorem read_effects (K : Kernel) (w : World) (len : ℕ) :
    (w.read K len).2.effects = w.effects := by
  unfold World.read
  split <;> rfl

theorem readLoop_effects {K : Kernel} {fuel : ℕ} {buf buf' : List UInt8} {len : ℕ}
    {w w' : World} {err : Option Errno} (h : readLoop K fuel buf len w = some (err, buf', w')) :
    w'.effects = w.effects := by
  induction fuel generalizing buf len w with
  | zero =>
    cases len with
    | zero =>
      simp only [readLoop, Option.some.injEq, Prod.mk.injEq] at h
      rw [h.2.2]
    | succ len => simp [readLoop] at h
  | succ fuel ih =>
    cases len with
    | zero =>
      simp only [readLoop, Option.some.injEq, Prod.mk.injEq] at h
      rw [h.2.2]
    | succ len =>
      have hw := read_effects K w (len + 1)
      rcases hr : w.read K (len + 1) with ⟨e | data, w₁⟩
      · simp only [readLoop, hr, Option.some.injEq, Prod.mk.injEq] at h
        rw [← h.2.2, ← hw, hr]
      · simp only [readLoop, hr] at h
        split at h
        · simp at h
        · rw [ih h, ← hw, hr]

theorem seekRead_effects {K : Kernel} {offset : ℤ} {len : ℕ} {buf buf' : List UInt8}
    {w w' : World} {err : Option Errno} (h : seekRead K offset len buf w = some (err, buf', w')) :
    w'.effects = w.effects := by
  have hl := lseek_effects K w offset
  unfold seekRead at h
  rcases hk : w.lseek K offset with ⟨e | e, w₁⟩
  · rw [hk] at h hl
    rw [← hl]
    exact readLoop_effects h
  · rw [hk] at h hl
    simp only [Option.some.injEq, Prod.mk.injEq] at h
    rw [← hl, ← h.2.2]

/-- Nothing but writes to the file was added to the record. -/
def OnlyWrites (w w' : World) : Prop :=
  ∃ es, w'.effects = w.effects ++ es ∧ ∀ e ∈ es, ∃ offset data, e = .write offset data

theorem OnlyWrites.of_eq {w w' : World} (h : w'.effects = w.effects) : OnlyWrites w w' :=
  ⟨[], by rw [h, List.append_nil], fun _ he => absurd he List.not_mem_nil⟩

theorem OnlyWrites.trans {w w₁ w₂ : World} (h : OnlyWrites w w₁) (h' : OnlyWrites w₁ w₂) :
    OnlyWrites w w₂ := by
  obtain ⟨es, he, hes⟩ := h
  obtain ⟨es', he', hes'⟩ := h'
  refine ⟨es ++ es', by rw [he', he, List.append_assoc], ?_⟩
  intro e hmem
  rcases List.mem_append.mp hmem with hmem | hmem
  · exact hes e hmem
  · exact hes' e hmem

theorem write_onlyWrites (K : Kernel) (w : World) (data : List UInt8) :
    OnlyWrites w (w.write K data).2 := by
  unfold World.write
  split
  · exact .of_eq rfl
  · refine ⟨_, rfl, ?_⟩
    intro e he
    exact ⟨_, _, List.mem_singleton.mp he⟩

theorem writeLoop_onlyWrites {S : Server} {buf : List UInt8} {len fuel pos : ℕ} {w w' : World}
    {err : Option Errno} (h : writeLoop S buf len fuel pos w = some (err, w')) :
    OnlyWrites w w' := by
  induction fuel generalizing pos w with
  | zero =>
    unfold writeLoop at h
    split at h
    · simp at h
    · simp only [Option.some.injEq, Prod.mk.injEq] at h
      exact .of_eq (by rw [h.2])
  | succ fuel ih =>
    unfold writeLoop at h
    split at h
    · have hw := write_onlyWrites S.kernel w ((buf.drop pos ++ S.memory.behind pos).take len)
      rcases hr : w.write S.kernel ((buf.drop pos ++ S.memory.behind pos).take len) with ⟨e | n, w₁⟩
      · simp only [hr, Option.some.injEq, Prod.mk.injEq] at h
        rw [hr] at hw
        rwa [← h.2]
      · simp only [hr] at h
        rw [hr] at hw
        exact hw.trans (ih h)
    · simp only [Option.some.injEq, Prod.mk.injEq] at h
      exact .of_eq (by rw [h.2])

/-- A write that fails logs nothing, one that succeeds logs its two elements. -/
theorem seekWrite_effects {S : Server} {offset : ℤ} {data : List UInt8} {w w' : World}
    {err : Option Errno} (h : seekWrite S offset data w = some (err, w')) :
    ∃ w₁, OnlyWrites w w₁ ∧ w'.effects = w₁.effects ++
      if err = none then [.lpush (i64Bytes (offset.tdiv 512)), .lpush data] else [] := by
  have hl := OnlyWrites.of_eq (lseek_effects S.kernel w offset)
  unfold seekWrite at h
  rcases hr : w.lseek S.kernel offset with ⟨e | e, w₁⟩
  · rw [hr] at h hl
    dsimp only at h hl
    cases hw : writeLoop S data data.length data.length 0 w₁ with
    | none => rw [bind_of_none hw] at h; cases h
    | some r =>
      obtain ⟨e', w₂⟩ := r
      rw [bind_of_some hw] at h
      refine ⟨w₂, hl.trans (writeLoop_onlyWrites hw), ?_⟩
      cases e' with
      | none =>
        simp only [Option.some.injEq, Prod.mk.injEq] at h
        obtain ⟨rfl, rfl⟩ := h
        simp [World.emit]
      | some e =>
        simp only [Option.some.injEq, Prod.mk.injEq] at h
        obtain ⟨rfl, rfl⟩ := h
        simp
  · rw [hr] at h hl
    simp only [Option.some.injEq, Prod.mk.injEq] at h
    obtain ⟨rfl, rfl⟩ := h
    exact ⟨w₁, hl, by simp⟩

end GammaRay.Nbd
