import Mathlib.Tactic
import Mathlib.Data.List.TakeWhile

set_option autoImplicit false

/-!
# Bytes, fixed-width integers and flat buffers

The arithmetic of a little-endian machine with 32-bit `int` and 64-bit `size_t`,
on natural numbers and integers reduced to their width where the reduction shows.
A buffer is a list of bytes; `splice` is a copy into it.
-/
namespace GammaRay.Bytes

/-- The little-endian image of `n` in `w` bytes, dropping what does not fit. -/
def leBytes : ℕ → ℕ → List UInt8
  | 0, _ => []
  | w + 1, n => UInt8.ofNat n :: leBytes w (n / 256)

def leNat : List UInt8 → ℕ
  | [] => 0
  | b :: bs => b.toNat + 256 * leNat bs

def beBytes (w n : ℕ) : List UInt8 := (leBytes w n).reverse

def beNat (bs : List UInt8) : ℕ := leNat bs.reverse

@[simp] theorem leBytes_length (w n : ℕ) : (leBytes w n).length = w := by
  induction w generalizing n with
  | zero => rfl
  | succ w ih => simp [leBytes, ih]

@[simp] theorem beBytes_length (w n : ℕ) : (beBytes w n).length = w := by
  simp [beBytes]

theorem leBytes_take (w v n : ℕ) : (leBytes (w + v) n).take w = leBytes w n := by
  induction w generalizing n with
  | zero => rfl
  | succ w ih =>
    rw [Nat.succ_add, leBytes, leBytes, List.take_succ_cons, ih]

theorem leNat_leBytes (w n : ℕ) : leNat (leBytes w n) = n % 256 ^ w := by
  induction w generalizing n with
  | zero => simp [leBytes, leNat, Nat.mod_one]
  | succ w ih =>
    have hb : (UInt8.ofNat n).toNat = n % 256 := by simp
    rw [leBytes, leNat, ih, hb, Nat.pow_succ, Nat.mul_comm (256 ^ w), Nat.mod_mul]

theorem leNat_leBytes_of_lt {w n : ℕ} (h : n < 256 ^ w) : leNat (leBytes w n) = n := by
  rw [leNat_leBytes, Nat.mod_eq_of_lt h]

theorem beNat_beBytes_of_lt {w n : ℕ} (h : n < 256 ^ w) : beNat (beBytes w n) = n := by
  simp [beNat, beBytes, leNat_leBytes_of_lt h]

theorem leNat_lt (bs : List UInt8) : leNat bs < 256 ^ bs.length := by
  induction bs with
  | nil => simp [leNat]
  | cons b bs ih =>
    have hb := b.toNat_lt
    rw [leNat, List.length_cons, Nat.pow_succ]
    omega

theorem leNat_append (as bs : List UInt8) :
    leNat (as ++ bs) = leNat as + 256 ^ as.length * leNat bs := by
  induction as with
  | nil => simp [leNat]
  | cons a as ih =>
    rw [List.cons_append, leNat, leNat, ih, List.length_cons, Nat.pow_succ]
    ring

theorem beNat_lt (bs : List UInt8) : beNat bs < 256 ^ bs.length := by
  simpa [beNat] using leNat_lt bs.reverse

theorem leBytes_leNat (bs : List UInt8) : leBytes bs.length (leNat bs) = bs := by
  induction bs with
  | nil => rfl
  | cons b bs ih =>
    have hb := b.toNat_lt
    have hd : (b.toNat + 256 * leNat bs) / 256 = leNat bs := by omega
    have hm : UInt8.ofNat (b.toNat + 256 * leNat bs) = b := by
      apply UInt8.toNat_inj.mp
      simp only [UInt8.toNat_ofNat']
      omega
    rw [List.length_cons, leBytes, leNat, hd, ih, hm]

/-- The value of an integer expression after conversion to `int32_t`. -/
def i32 (n : ℤ) : ℤ := (n + 2 ^ 31) % 2 ^ 32 - 2 ^ 31

/-- The value of an integer expression after conversion to `int64_t`. -/
def i64 (n : ℤ) : ℤ := (n + 2 ^ 63) % 2 ^ 64 - 2 ^ 63

def u32 (n : ℤ) : ℕ := (n % 2 ^ 32).toNat

def u64 (n : ℤ) : ℕ := (n % 2 ^ 64).toNat

theorem i32_of_range {n : ℤ} (hl : -2 ^ 31 ≤ n) (hu : n < 2 ^ 31) : i32 n = n := by
  unfold i32
  omega

theorem i64_of_range {n : ℤ} (hl : -2 ^ 63 ≤ n) (hu : n < 2 ^ 63) : i64 n = n := by
  unfold i64
  omega

theorem i64_toNat_of_nonneg {n : ℕ} (hn : n < 2 ^ 64) (h : 0 ≤ i64 n) : (i64 n).toNat = n := by
  unfold i64 at h ⊢
  omega

theorem u64_of_range {n : ℤ} (hl : 0 ≤ n) (hu : n < 2 ^ 64) : u64 n = n.toNat := by
  unfold u64
  omega

@[simp] theorem u64_natCast {n : ℕ} (h : n < 2 ^ 64) : u64 n = n := by
  unfold u64
  omega

theorem u64_lt (n : ℤ) : u64 n < 2 ^ 64 := by
  unfold u64
  omega

theorem u32_lt (n : ℤ) : u32 n < 2 ^ 32 := by
  unfold u32
  omega

/-- `int32_t` stored in memory: its two's-complement bytes. -/
def i32Bytes (n : ℤ) : List UInt8 := leBytes 4 (u32 n)

def i64Bytes (n : ℤ) : List UInt8 := leBytes 8 (u64 n)

@[simp] theorem i32Bytes_length (n : ℤ) : (i32Bytes n).length = 4 := leBytes_length 4 _

@[simp] theorem i64Bytes_length (n : ℤ) : (i64Bytes n).length = 8 := leBytes_length 8 _

theorem i32_leNat_i32Bytes {n : ℤ} (hl : -2 ^ 31 ≤ n) (hu : n < 2 ^ 31) :
    i32 (leNat (i32Bytes n)) = n := by
  rw [i32Bytes, leNat_leBytes_of_lt (u32_lt n)]
  unfold i32 u32
  omega

theorem i64_leNat_i64Bytes {n : ℤ} (hl : -2 ^ 63 ≤ n) (hu : n < 2 ^ 63) :
    i64 (leNat (i64Bytes n)) = n := by
  rw [i64Bytes, leNat_leBytes_of_lt (u64_lt n)]
  unfold i64 u64
  omega

/-- Memory from `malloc`: its contents are arbitrary, its size is what was asked for. -/
structure Heap where
  malloc : ℕ → List UInt8
  malloc_length : ∀ n, (malloc n).length = n

attribute [simp] Heap.malloc_length

def zeroHeap : Heap := ⟨fun n => List.replicate n 0, fun _ => List.length_replicate⟩

/-- Copy `src` over the bytes of `buf` that start at `off`. -/
def splice (buf : List UInt8) (off : ℕ) (src : List UInt8) : List UInt8 :=
  buf.take off ++ src ++ buf.drop (off + src.length)

/-- The field of a given width that stands behind `pre`. -/
theorem field_append {pre x post : List UInt8} {n m : ℕ} (hn : pre.length = n)
    (hm : x.length = m) : ((pre ++ (x ++ post)).drop n).take m = x := by
  rw [← hn, List.drop_left, ← hm, List.take_left]

theorem splice_length {buf src : List UInt8} {off : ℕ} (h : off + src.length ≤ buf.length) :
    (splice buf off src).length = buf.length := by
  simp only [splice, List.length_append, List.length_take, List.length_drop]
  omega

theorem splice_take {buf src : List UInt8} {off : ℕ} (h : off ≤ buf.length) :
    (splice buf off src).take (off + src.length) = buf.take off ++ src := by
  have hl : (buf.take off ++ src).length = off + src.length := by simp [h]
  rw [splice, ← hl, List.take_left]

theorem takeWhile_cstring (str rest : List UInt8) (h : 0 ∉ str) :
    (str ++ 0 :: rest).takeWhile (· ≠ 0) = str := by
  have hp : ∀ x ∈ str, decide (x ≠ 0) = true := by
    intro x hx
    simp only [decide_eq_true_eq]
    rintro rfl
    exact h hx
  rw [List.takeWhile_append_of_pos hp]
  simp

theorem takeWhile_of_notMem (str : List UInt8) (h : 0 ∉ str) :
    str.takeWhile (· ≠ 0) = str := by
  rw [List.takeWhile_eq_self_iff]
  intro x hx
  simp only [decide_eq_true_eq]
  rintro rfl
  exact h hx

end GammaRay.Bytes
