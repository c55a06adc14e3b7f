import GammaRay.Ntfs

set_option autoImplicit false

/-!
# Data runs

A run is a byte with two sizes, a number of clusters and a signed distance from the run before.
The sign is extended from the highest bit that is set, which is one below the width of the field.
-/
namespace GammaRay.Ntfs
open Bytes
open Ext4 (Buffer)

/-- The two's-complement value of a little-endian field. -/
def signedLe (bytes : List UInt8) : ℤ :=
  if 2 ^ (8 * bytes.length - 1) ≤ leNat bytes then (leNat bytes : ℤ) - 2 ^ (8 * bytes.length)
  else leNat bytes

/-- A data run whose fields fit the variables of the crawler. -/
structure Run where
  lengthField : List UInt8
  offsetField : List UInt8
  length_le : lengthField.length ≤ 8
  offset_ne : offsetField ≠ []
  offset_le : offsetField.length ≤ 8

namespace Run

def packedSizes (run : Run) : UInt8 :=
  UInt8.ofNat (16 * run.offsetField.length + run.lengthField.length)

def bytes (run : Run) : List UInt8 := run.packedSizes :: (run.lengthField ++ run.offsetField)

/-- How many clusters there are. -/
def clusters (run : Run) : ℕ := leNat run.lengthField

/-- How far they are from those of the run before. -/
def delta (run : Run) : ℤ := signedLe run.offsetField

theorem offset_pos (run : Run) : 0 < run.offsetField.length :=
  List.length_pos_of_ne_nil run.offset_ne

theorem bytes_length (run : Run) :
    run.bytes.length = 1 + run.lengthField.length + run.offsetField.length := by
  rw [bytes, List.length_cons, List.length_append]
  omega

theorem packedSizes_toNat (run : Run) :
    run.packedSizes.toNat = 16 * run.offsetField.length + run.lengthField.length := by
  have hlength := run.length_le
  have hoffset := run.offset_le
  rw [packedSizes, UInt8.toNat_ofNat', Nat.mod_eq_of_lt (by omega)]

end Run

/-! ## The nibbles and the top bit -/

theorem nibbles {o l : ℕ} (ho : o ≤ 8) (hl : l ≤ 8) :
    ((16 * o + l) &&& 0xf0) >>> 4 = o ∧ (16 * o + l) &&& 0x0f = l := by
  have hall : ∀ o ≤ 8, ∀ l ≤ 8,
      ((16 * o + l) &&& 0xf0) >>> 4 = o ∧ (16 * o + l) &&& 0x0f = l := by decide
  exact hall o ho l hl

theorem topBitSet_iff (byte : UInt8) : topBitSet byte = true ↔ 128 ≤ byte.toNat := by
  have hall : ∀ n < 256, (n &&& 0x80 ≠ 0) ↔ 128 ≤ n := by decide +kernel
  rw [topBitSet, decide_eq_true_iff]
  exact hall byte.toNat byte.toNat_lt

theorem overlay64_zero {bytes : List UInt8} (h : bytes.length ≤ 8) :
    overlay64 0 bytes = some (leNat bytes) := by
  have hrest : leNat ((leBytes 8 0).drop bytes.length) = 0 := by
    have hall : ∀ n ≤ 8, leNat ((leBytes 8 0).drop n) = 0 := by decide
    exact hall _ h
  rw [overlay64, if_pos h, leNat_append, hrest, Nat.mul_zero, Nat.add_zero]

/-- The top bit of the last byte is that of the field. -/
theorem topBitSet_getLast {bytes : List UInt8} {top : UInt8} (h : bytes.getLast? = some top) :
    topBitSet top = true ↔ 2 ^ (8 * bytes.length - 1) ≤ leNat bytes := by
  obtain ⟨front, rfl⟩ := List.getLast?_eq_some_iff.mp h
  have hfront := leNat_lt front
  have hpow : 2 ^ (8 * (front ++ [top]).length - 1) = 256 ^ front.length * 128 := by
    rw [List.length_append, List.length_singleton,
      show 8 * (front.length + 1) - 1 = 8 * front.length + 7 by omega, Nat.pow_add, Nat.pow_mul]
  rw [topBitSet_iff, leNat_append, hpow, leNat, leNat, Nat.mul_zero, Nat.add_zero]
  constructor
  · intro htop
    exact (Nat.mul_le_mul_left _ htop).trans (Nat.le_add_left _ _)
  · intro hle
    by_contra htop
    have hstep : 256 ^ front.length * top.toNat + 256 ^ front.length ≤
        256 ^ front.length * 128 := by
      rw [← Nat.mul_succ]
      exact Nat.mul_le_mul_left _ (by omega)
    omega

/-! ## Parsing -/

section Parse

variable {data : Buffer} {offset : ℕ} {run : Run}

theorem bytesAt_run :
    bytesAt data offset run.bytes.length = some run.bytes ↔
      data offset = some run.packedSizes ∧
      bytesAt data (offset + 1) run.lengthField.length = some run.lengthField ∧
      bytesAt data (offset + 1 + run.lengthField.length) run.offsetField.length =
        some run.offsetField := by
  have hbytes : run.bytes = [run.packedSizes] ++ (run.lengthField ++ run.offsetField) := rfl
  rw [hbytes, bytesAt_append, bytesAt_append, List.length_singleton, bytesAt_singleton]

/-- Everything but the sign. -/
theorem parseDataRun_run (hat : bytesAt data offset run.bytes.length = some run.bytes)
    (hfit : offset + run.bytes.length < 2 ^ 64) :
    parseDataRun data offset 0 0 =
      (if 2 ^ (8 * run.offsetField.length - 1) ≤ leNat run.offsetField then
        signExtend64 (leNat run.offsetField) (highestSetBit64 (leNat run.offsetField))
      else some (i64 (leNat run.offsetField))).map
        (⟨true, offset + run.bytes.length, run.clusters, ·⟩) := by
  obtain ⟨hpacked, hlength, hoffset⟩ := bytesAt_run.mp hat
  have hsizes := nibbles run.offset_le run.length_le
  rw [← run.packedSizes_toNat] at hsizes
  have hne : run.packedSizes ≠ 0 := by
    intro h
    have hzero := run.packedSizes_toNat
    have hpos := run.offset_pos
    rw [h, UInt8.toNat_zero] at hzero
    omega
  have htop := List.getLast?_eq_some_getLast run.offset_ne
  rw [run.bytes_length] at hfit ⊢
  have h₁ : u64 (offset + 1 : ℕ) = offset + 1 := u64_natCast (by omega)
  have h₂ : u64 (offset + 1 + run.lengthField.length : ℕ) =
    offset + 1 + run.lengthField.length := u64_natCast (by omega)
  have h₃ : u64 (offset + 1 + run.lengthField.length + run.offsetField.length : ℕ) =
    offset + 1 + run.lengthField.length + run.offsetField.length := u64_natCast (by omega)
  push_cast at h₁ h₂ h₃
  rw [parseDataRun, Loop.bind_of_some hpacked]
  dsimp only
  rw [if_neg hne, hsizes.1, hsizes.2, h₁, Loop.bind_of_some hlength,
    Loop.bind_of_some (overlay64_zero run.length_le)]
  push_cast
  have hzero : u64 0 = 0 := rfl
  rw [h₂, Loop.bind_of_some hoffset, hzero, Loop.bind_of_some (overlay64_zero run.offset_le),
    Loop.bind_of_some htop]
  push_cast
  rw [h₃]
  simp only [topBitSet_getLast htop]
  rw [← Nat.add_assoc, ← Nat.add_assoc]
  split
  · exact Option.map_eq_bind.symm
  · rfl

end Parse

/-! ## The sign -/

theorem xor_pow {v k : ℕ} (h : v < 2 ^ (k + 1)) :
    v ^^^ 2 ^ k = if v < 2 ^ k then v + 2 ^ k else v - 2 ^ k := by
  have hdiv := Nat.xor_div_two_pow (a := v) (b := 2 ^ k) (n := k)
  have hmod := Nat.xor_mod_two_pow (a := v) (b := 2 ^ k) (n := k)
  rw [Nat.div_self (by positivity)] at hdiv
  rw [Nat.mod_self, Nat.xor_zero] at hmod
  have hxor := Nat.div_add_mod (v ^^^ 2 ^ k) (2 ^ k)
  rw [hdiv, hmod] at hxor
  split
  · next hlow =>
    rw [Nat.div_eq_of_lt hlow, Nat.mod_eq_of_lt hlow, Nat.zero_xor, Nat.mul_one] at hxor
    omega
  · next hhigh =>
    rw [Nat.pow_succ] at h
    have hone : v / 2 ^ k = 1 := Nat.div_eq_of_lt_le (by omega) (by omega)
    rw [hone, Nat.xor_self, Nat.mul_zero, Nat.zero_add, Nat.mod_eq_sub_mod (by omega),
      Nat.mod_eq_of_lt (by omega)] at hxor
    exact hxor.symm

/-- The width passed is that of the field less one. -/
theorem signExtend64_highestSetBit64 {raw k : ℕ} (hk : k < 31) (hl : 2 ^ (k + 1) ≤ raw)
    (hu : raw < 2 ^ (k + 2)) :
    signExtend64 raw (highestSetBit64 raw) =
      some (if raw < 2 ^ (k + 1) + 2 ^ k then (raw : ℤ) - 2 ^ (k + 1) else raw - 2 ^ (k + 2)) := by
  have hdouble : 2 ^ (k + 1) = 2 * 2 ^ k := Nat.pow_succ'
  have hquad : 2 ^ (k + 2) = 4 * 2 ^ k := by rw [Nat.pow_succ', hdouble]; omega
  have hbound : 2 ^ k ≤ 2 ^ 30 := Nat.pow_le_pow_right (by decide) (by omega)
  have hmask : raw &&& (2 ^ (k + 1) - 1) = raw - 2 ^ (k + 1) := by
    rw [Nat.and_two_pow_sub_one_eq_mod, Nat.mod_eq_sub_mod hl, Nat.mod_eq_of_lt (by omega)]
  have hquad' : (2 : ℤ) ^ (k + 2) = 4 * 2 ^ k := by ring
  have hcast : ((2 ^ k : ℕ) : ℤ) = 2 ^ k := by push_cast; rfl
  rw [highestSetBit64_of_range (by omega) hl hu, signExtend64, if_pos (by omega)]
  dsimp only
  rw [hmask, Nat.add_sub_cancel, xor_pow (by omega), Option.some.injEq]
  split
  · rw [if_pos (by omega), i64_of_range (by omega) (by omega)]
    omega
  · rw [if_neg (by omega), i64_of_range (by omega) (by omega)]
    omega

/-- How a run is read whose offset has at most four bytes. -/
theorem parseDataRun_short {data : Buffer} {offset : ℕ} {run : Run}
    (hshort : run.offsetField.length ≤ 4)
    (hat : bytesAt data offset run.bytes.length = some run.bytes)
    (hfit : offset + run.bytes.length < 2 ^ 64) :
    parseDataRun data offset 0 0 = some ⟨true, offset + run.bytes.length, run.clusters,
      if run.delta < -2 ^ (8 * run.offsetField.length - 2) then
        run.delta + 2 ^ (8 * run.offsetField.length - 1)
      else run.delta⟩ := by
  have hpos := run.offset_pos
  have hlt := leNat_lt run.offsetField
  obtain ⟨k, hk⟩ : ∃ k, 8 * run.offsetField.length = k + 2 :=
    ⟨8 * run.offsetField.length - 2, by omega⟩
  have hpow : 256 ^ run.offsetField.length = 2 ^ (k + 2) := by rw [← hk, Nat.pow_mul]
  have hdouble : (2 : ℤ) ^ (k + 1) = 2 * 2 ^ k := pow_succ' 2 k
  have hquad : (2 : ℤ) ^ (k + 2) = 4 * 2 ^ k := by ring
  have hbound : 2 ^ (k + 2) ≤ 2 ^ 32 := Nat.pow_le_pow_right (by decide) (by omega)
  have hm : ((2 ^ (k + 1) : ℕ) : ℤ) = 2 ^ (k + 1) := by push_cast; rfl
  have hm' : ((2 ^ (k + 2) : ℕ) : ℤ) = 2 ^ (k + 2) := by push_cast; rfl
  rw [hpow] at hlt
  rw [parseDataRun_run hat hfit, Run.delta, signedLe, hk, Nat.add_sub_cancel,
    show k + 2 - 1 = k + 1 from rfl]
  split
  · next hneg =>
    rw [signExtend64_highestSetBit64 (by omega) hneg hlt, Option.map_some]
    congr 2
    split
    · rw [if_pos (by omega)]
      omega
    · rw [if_neg (by omega)]
  · next hnonneg =>
    have hp : 0 < (2 : ℤ) ^ k := by positivity
    rw [Option.map_some, i64_of_range (by omega) (by omega), if_neg (by omega)]

/-- A run is read as it was meant if its offset is not below half the least value. -/
theorem parseDataRun_signed_iff (run : Run) (hshort : run.offsetField.length ≤ 4) (data : Buffer)
    (offset : ℕ) (hat : bytesAt data offset run.bytes.length = some run.bytes)
    (hfit : offset + run.bytes.length < 2 ^ 64) :
    parseDataRun data offset 0 0 = some ⟨true,
        offset + 1 + run.lengthField.length + run.offsetField.length,
        leNat run.lengthField, signedLe run.offsetField⟩ ↔
      -2 ^ (8 * run.offsetField.length - 2) ≤ signedLe run.offsetField := by
  have hp : 0 < (2 : ℤ) ^ (8 * run.offsetField.length - 1) := by positivity
  rw [parseDataRun_short hshort hat hfit, run.bytes_length, Option.some.injEq, DataRun.mk.injEq,
    Nat.add_assoc offset 1, Nat.add_assoc offset, Run.clusters, Run.delta]
  split
  · next hlow =>
    refine iff_of_false (fun h => ?_) (not_le.mpr hlow)
    have hlcn := h.2.2.2
    omega
  · next hhigh => exact iff_of_true ⟨rfl, rfl, rfl, rfl⟩ (not_lt.mp hhigh)

/-- A run of 24 clusters whose offset is one byte. -/
def shortRun (byte : UInt8) : Run where
  lengthField := [24]
  offsetField := [byte]
  length_le := by decide
  offset_ne := List.cons_ne_nil _ _
  offset_le := Nat.one_le_ofNat

def shortBuffer (byte : UInt8) : Buffer := fun i => (shortRun byte).bytes[i]?

theorem shortRun_back :
    parseDataRun (shortBuffer 0xc0) 0 0 0 = some ⟨true, 3, 24, -64⟩ :=
  (parseDataRun_signed_iff (shortRun 0xc0) (by decide) (shortBuffer 0xc0) 0 (by decide)
    (by decide)).mpr (by decide)

/-- The least offset of one byte is read as zero. -/
theorem shortRun_least :
    bytesAt (shortBuffer 0x80) 0 3 = some (shortRun 0x80).bytes ∧
      signedLe (shortRun 0x80).offsetField = -128 ∧
      parseDataRun (shortBuffer 0x80) 0 0 0 = some ⟨true, 3, 24, 0⟩ := by
  decide +kernel

end GammaRay.Ntfs
