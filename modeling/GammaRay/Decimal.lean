import Mathlib.Data.Nat.Digits.Lemmas
import Mathlib.Data.List.TakeWhile
import Mathlib.Tactic

set_option autoImplicit false

/-!
# Decimal numbers as text

What `printf` makes of an unsigned number, and what `scanf` reads back from the front of
a text.
-/
namespace GammaRay.Decimal

def digitByte (d : ℕ) : UInt8 := UInt8.ofNat (48 + d)

def isDigit (b : UInt8) : Bool := 48 ≤ b && b ≤ 57

/-- `printf("%llu", n)`. -/
def dec (n : ℕ) : List UInt8 :=
  if n = 0 then [48] else ((Nat.digits 10 n).map digitByte).reverse

/-- The number a row of digits stands for. -/
def number (text : List UInt8) : ℕ := text.foldl (fun acc b => 10 * acc + (b.toNat - 48)) 0

/-- `sscanf(text, "%llu", &n)`: the digits at the front, if there are any. -/
def scan (text : List UInt8) : Option ℕ :=
  let digits := text.takeWhile isDigit
  if digits.isEmpty then none else some (number digits)

theorem digitByte_toNat {d : ℕ} (h : d < 10) : (digitByte d).toNat = 48 + d := by
  simp only [digitByte, UInt8.toNat_ofNat']
  omega

theorem isDigit_digitByte {d : ℕ} (h : d < 10) : isDigit (digitByte d) = true := by
  have ht := digitByte_toNat h
  simp only [isDigit, Bool.and_eq_true, decide_eq_true_eq, UInt8.le_iff_toNat_le, ht]
  constructor
  · change 48 ≤ 48 + d
    omega
  · change 48 + d ≤ 57
    omega

theorem number_reverse (ds : List ℕ) (h : ∀ d ∈ ds, d < 10) :
    number (ds.map digitByte).reverse = Nat.ofDigits 10 ds := by
  induction ds with
  | nil => rfl
  | cons d ds ih =>
    have hd := digitByte_toNat (h d (List.mem_cons_self ..))
    have ih' := ih fun x hx => h x (List.mem_cons_of_mem _ hx)
    rw [number] at ih' ⊢
    rw [List.map_cons, List.reverse_cons, List.foldl_append, ih', List.foldl_cons, List.foldl_nil,
      hd, Nat.ofDigits_cons]
    omega

theorem number_dec (n : ℕ) : number (dec n) = n := by
  unfold dec
  split
  · rename_i h
    rw [h]
    rfl
  · rw [number_reverse _ fun d hd => Nat.digits_lt_base (by decide) hd, Nat.ofDigits_digits]

theorem dec_isDigit (n : ℕ) : ∀ b ∈ dec n, isDigit b = true := by
  intro b hb
  unfold dec at hb
  split at hb
  · rw [List.mem_singleton] at hb
    subst hb
    decide
  · rw [List.mem_reverse, List.mem_map] at hb
    obtain ⟨d, hd, rfl⟩ := hb
    exact isDigit_digitByte (Nat.digits_lt_base (by decide) hd)

theorem dec_noNul (n : ℕ) : 0 ∉ dec n := by
  intro h
  exact absurd (dec_isDigit n 0 h) (by decide)

theorem dec_ne_nil (n : ℕ) : dec n ≠ [] := by
  unfold dec
  split
  · simp
  · rename_i h
    simp only [ne_eq, List.reverse_eq_nil_iff, List.map_eq_nil_iff]
    exact Nat.digits_ne_nil_iff_ne_zero.mpr h

theorem dec_length_le {n k : ℕ} (hk : 0 < k) (h : n < 10 ^ k) : (dec n).length ≤ k := by
  rw [dec]
  split
  · exact hk
  · rw [List.length_reverse, List.length_map, Nat.digits_length_le_iff (by decide)]
    exact h

theorem dec_injective : Function.Injective dec := by
  intro m n h
  rw [← number_dec m, h, number_dec]

/-- A number is read back up to the first byte that is no digit. -/
theorem scan_dec (n : ℕ) (rest : List UInt8) (h : ∀ b ∈ rest.head?, isDigit b = false) :
    scan (dec n ++ rest) = some n := by
  have hrest : rest.takeWhile isDigit = [] := by
    cases rest with
    | nil => rfl
    | cons b rest => rw [List.takeWhile_cons_of_neg]; simp [h b rfl]
  have htake : (dec n ++ rest).takeWhile isDigit = dec n := by
    rw [List.takeWhile_append_of_pos (dec_isDigit n), hrest, List.append_nil]
  rw [scan, htake]
  simp [dec_ne_nil, number_dec]

end GammaRay.Decimal
