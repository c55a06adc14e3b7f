import Mathlib.Data.List.Basic
import Mathlib.Tactic

set_option autoImplicit false

/-!
# Memories and their copies

Lists of values stored in a memory without bounds, and windows of two memories that agree.
-/
namespace GammaRay.Patch

variable {α : Type}

def patch (m : ℕ → α) (start : ℕ) (data : List α) : ℕ → α := fun i =>
  if start ≤ i then (data[i - start]?).getD (m i) else m i

theorem patch_outside {m : ℕ → α} {start i : ℕ} {data : List α}
    (h : i < start ∨ start + data.length ≤ i) : patch m start data i = m i := by
  unfold patch
  split
  · rw [List.getElem?_eq_none (by omega), Option.getD_none]
  · rfl

theorem patch_add (m : ℕ → α) (start j : ℕ) (data : List α) :
    patch m start data (start + j) = (data[j]?).getD (m (start + j)) := by
  rw [patch, if_pos (Nat.le_add_right _ _), Nat.add_sub_cancel_left]

theorem patch_nil (m : ℕ → α) (start : ℕ) : patch m start [] = m :=
  funext fun _ => patch_outside (by rw [List.length_nil]; omega)

theorem patch_append (m : ℕ → α) (start : ℕ) (xs ys : List α) :
    patch m start (xs ++ ys) = patch (patch m start xs) (start + xs.length) ys := by
  funext i
  rcases Nat.lt_or_ge i start with hlt | hge
  · rw [patch_outside (.inl hlt), patch_outside (.inl (by omega)), patch_outside (.inl hlt)]
  obtain ⟨j, rfl⟩ := Nat.exists_eq_add_of_le hge
  rcases Nat.lt_or_ge j xs.length with hx | hx
  · rw [patch_add, patch_outside (.inl (by omega)), patch_add, List.getElem?_append_left hx]
  · obtain ⟨k, rfl⟩ := Nat.exists_eq_add_of_le hx
    rw [patch_add, List.getElem?_append_right hx, ← Nat.add_assoc, patch_add,
      patch_outside (m := m) (.inr (by omega)), Nat.add_sub_cancel_left]

/-- `n` values of one memory are those of another. -/
def Agree (m : ℕ → α) (a : ℕ) (m' : ℕ → α) (b n : ℕ) : Prop := ∀ j < n, m (a + j) = m' (b + j)

variable {m m' : ℕ → α} {a b n : ℕ}

/-- Both get the same values, one of them perhaps only those that lie in the window. -/
theorem Agree.patch_take (h : Agree m a m' b n) (data : List α) {k : ℕ} (hk : n ≤ k) :
    Agree (patch m a (data.take k)) a (patch m' b data) b n := by
  intro j hj
  rw [patch_add, patch_add, List.getElem?_take_of_lt (by omega), h j hj]

theorem Agree.patch_left (h : Agree m a m' b n) {start : ℕ} {data : List α}
    (hout : a + n ≤ start ∨ start + data.length ≤ a) : Agree (patch m start data) a m' b n := by
  intro j hj
  rw [patch_outside (by omega), h j hj]

theorem Agree.patch_right (h : Agree m a m' b n) {start : ℕ} {data : List α}
    (hout : b + n ≤ start ∨ start + data.length ≤ b) : Agree m a (patch m' start data) b n := by
  intro j hj
  rw [patch_outside (by omega), h j hj]

end GammaRay.Patch
