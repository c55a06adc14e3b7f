import GammaRay.Bytes

set_option autoImplicit false

/-!
# Bit arrays

`bitarray.c`. Allocation is taken to succeed and hands out bytes from a `Heap`.
-/
namespace GammaRay
open Bytes

/-- The loop of `highest_set_bit64`; 64 rounds shift every value out. -/
def highestSetBit64Loop : ℕ → ℕ → ℕ
  | 0, _ => 0
  | rounds + 1, val => if val / 2 = 0 then 0 else highestSetBit64Loop rounds (val / 2) + 1

def highestSetBit64 (val : ℕ) : ℕ := highestSetBit64Loop 64 val

theorem highestSetBit64Loop_of_range {rounds k val : ℕ} (hk : k < rounds) (hl : 2 ^ k ≤ val)
    (hu : val < 2 ^ (k + 1)) : highestSetBit64Loop rounds val = k := by
  induction rounds generalizing k val with
  | zero => omega
  | succ rounds ih =>
    rw [highestSetBit64Loop]
    cases k with
    | zero => rw [if_pos (by omega)]
    | succ k =>
      rw [Nat.pow_succ] at hl hu
      have hpos : 0 < 2 ^ k := by positivity
      rw [if_neg (by omega), ih (k := k) (by omega) (by omega) (by omega)]

theorem highestSetBit64_of_range {k val : ℕ} (hk : k < 64) (hl : 2 ^ k ≤ val)
    (hu : val < 2 ^ (k + 1)) : highestSetBit64 val = k :=
  highestSetBit64Loop_of_range hk hl hu

theorem highestSetBit64_pow {k : ℕ} (hk : k < 64) : highestSetBit64 (2 ^ k) = k :=
  highestSetBit64_of_range hk le_rfl (Nat.pow_lt_pow_right (by decide) k.lt_succ_self)

/-- The bit scan is the logarithm. -/
theorem highestSetBit64_eq_log {val : ℕ} (hpos : val ≠ 0) (hval : val < 2 ^ 64) :
    highestSetBit64 val = Nat.log 2 val := by
  have hk : Nat.log 2 val < 64 := Nat.log_lt_of_lt_pow hpos hval
  have hl : 2 ^ Nat.log 2 val ≤ val := Nat.pow_log_le_self 2 hpos
  have hu : val < 2 ^ (Nat.log 2 val + 1) := Nat.lt_pow_succ_log_self (by decide) val
  exact highestSetBit64_of_range hk hl hu

/-- Memory full of one byte. -/
def fillHeap (c : UInt8) : Heap := ⟨fun n => List.replicate n c, fun _ => List.length_replicate⟩

/-- `struct bitarray`; `len` counts bits. -/
structure Bitarray where
  len : ℕ
  array : List UInt8
  covers : array.length = (len + 7) / 8

namespace Bitarray

def getBit (bits : Bitarray) (bit : ℕ) : Bool :=
  if bit < bits.len then (bits.array.getD (bit / 8) 0).toNat.testBit (bit % 8) else false

/-- The byte that holds a bit is replaced. -/
def change (bits : Bitarray) (bit : ℕ) (f : ℕ → ℕ) : Bitarray where
  len := bits.len
  array := bits.array.set (bit / 8) (UInt8.ofNat (f (bits.array.getD (bit / 8) 0).toNat))
  covers := by rw [List.length_set]; exact bits.covers

def setBit (bits : Bitarray) (bit : ℕ) : Bitarray :=
  if bit < bits.len then bits.change bit (· ||| 1 <<< (bit % 8)) else bits

def unsetBit (bits : Bitarray) (bit : ℕ) : Bitarray :=
  if bit < bits.len then bits.change bit (· &&& (0xff ^^^ 1 <<< (bit % 8))) else bits

/-- `memset` of the bytes that the bits fill. -/
def fill (bits : Bitarray) (byte : UInt8) : Bitarray where
  len := bits.len
  array := List.replicate (bits.len / 8) byte ++ bits.array.drop (bits.len / 8)
  covers := by
    have hc := bits.covers
    rw [List.length_append, List.length_replicate, List.length_drop]
    omega

def setAll (bits : Bitarray) : Bitarray := bits.fill 0xff

def unsetAll (bits : Bitarray) : Bitarray := bits.fill 0x00

/-- `bitarray_init` for a length in bits, which is rounded down to a power of two. -/
def init (h : Heap) (len : ℕ) : Bitarray where
  len := 2 ^ highestSetBit64 len
  array := List.replicate (2 ^ highestSetBit64 len / 8) 0 ++
    (h.malloc ((2 ^ highestSetBit64 len + 7) / 8)).drop (2 ^ highestSetBit64 len / 8)
  covers := by
    rw [List.length_append, List.length_replicate, List.length_drop, Heap.malloc_length]
    omega

/-- `none` is a copy from outside `data` or past the end of the allocation. -/
def initData (h : Heap) (data : List UInt8) (len : ℕ) : Option Bitarray :=
  if fits : len / 8 ≤ data.length ∧ len / 8 ≤ (2 ^ highestSetBit64 len + 7) / 8 then
    some {
      len := 2 ^ highestSetBit64 len
      array := data.take (len / 8) ++
        (h.malloc ((2 ^ highestSetBit64 len + 7) / 8)).drop (len / 8)
      covers := by
        rw [List.length_append, List.length_take, List.length_drop, Heap.malloc_length]
        omega }
  else none

theorem getBit_change {bits : Bitarray} {i j : ℕ} {f : ℕ → ℕ} (hi : i < bits.len)
    (hf : ∀ x < 256, f x < 256) :
    (bits.change j f).getBit i =
      (if i / 8 = j / 8 then f (bits.array.getD (i / 8) 0).toNat
        else (bits.array.getD (i / 8) 0).toNat).testBit (i % 8) := by
  have hlt : i / 8 < bits.array.length := by
    have hc := bits.covers
    omega
  have hbyte : ∀ x : UInt8, (UInt8.ofNat (f x.toNat)).toNat = f x.toNat := by
    intro x
    exact Nat.mod_eq_of_lt (hf _ x.toNat_lt)
  rw [getBit, if_pos (show i < (bits.change j f).len from hi), change]
  simp only [List.getD_eq_getElem?_getD, List.getElem?_set]
  by_cases hij : j / 8 = i / 8
  · rw [if_pos hij, if_pos (hij ▸ hlt), if_pos hij.symm, Option.getD_some, hbyte, hij]
  · rw [if_neg hij, if_neg (Ne.symm hij)]

theorem setBit_len (bits : Bitarray) (j : ℕ) : (bits.setBit j).len = bits.len := by
  unfold setBit
  split <;> rfl

/-- Setting a bit sets it and no other one. -/
theorem getBit_setBit (bits : Bitarray) (i j : ℕ) :
    (bits.setBit j).getBit i = (bits.getBit i || (decide (i = j) && decide (i < bits.len))) := by
  by_cases hi : i < bits.len
  · unfold setBit
    by_cases hj : j < bits.len
    · rw [if_pos hj, getBit_change hi, getBit, if_pos hi, decide_eq_true hi, Bool.and_true]
      · by_cases hij : i / 8 = j / 8
        · rw [if_pos hij, Nat.testBit_or, Nat.one_shiftLeft, Nat.testBit_two_pow]
          congr 1
          exact decide_eq_decide.mpr (by omega)
        · rw [if_neg hij, decide_eq_false (by rintro rfl; exact hij rfl), Bool.or_false]
      · intro x hx
        refine Nat.or_lt_two_pow (n := 8) hx ?_
        rw [Nat.one_shiftLeft]
        exact Nat.pow_lt_pow_right (by decide) (Nat.mod_lt _ (by decide))
    · rw [if_neg hj, decide_eq_false (by omega), Bool.false_and, Bool.or_false]
  · rw [getBit, setBit_len, if_neg hi, getBit, if_neg hi, decide_eq_false hi, Bool.and_false,
      Bool.or_false]

theorem getBit_setBit_self (bits : Bitarray) (i : ℕ) :
    (bits.setBit i).getBit i = decide (i < bits.len) := by
  rw [getBit_setBit, decide_eq_true (rfl : i = i), Bool.true_and]
  by_cases hi : i < bits.len
  · rw [decide_eq_true hi, Bool.or_true]
  · rw [decide_eq_false hi, Bool.or_false, getBit, if_neg hi]

theorem getBit_of_len_le {bits : Bitarray} {i : ℕ} (h : bits.len ≤ i) : bits.getBit i = false :=
  if_neg (Nat.not_lt.mpr h)

theorem unsetBit_len (bits : Bitarray) (j : ℕ) : (bits.unsetBit j).len = bits.len := by
  unfold unsetBit
  split <;> rfl

/-- Unsetting a bit unsets it and no other one. -/
theorem getBit_unsetBit (bits : Bitarray) (i j : ℕ) :
    (bits.unsetBit j).getBit i = (bits.getBit i && decide (i ≠ j)) := by
  by_cases hi : i < bits.len
  · unfold unsetBit
    by_cases hj : j < bits.len
    · rw [if_pos hj, getBit_change hi fun x hx => Nat.and_lt_two_pow (n := 8) x ?_, getBit,
        if_pos hi]
      · by_cases hij : i / 8 = j / 8
        · have hmask : (0xff : ℕ).testBit (i % 8) = true := by
            have hlt : i % 8 < 8 := Nat.mod_lt _ (by decide)
            interval_cases i % 8 <;> rfl
          rw [if_pos hij, Nat.testBit_and, Nat.testBit_xor, hmask, Nat.one_shiftLeft,
            Nat.testBit_two_pow, Bool.true_xor, ← decide_not]
          congr 1
          exact decide_eq_decide.mpr (by omega)
        · rw [if_neg hij, decide_eq_true (by rintro rfl; exact hij rfl), Bool.and_true]
      · refine Nat.xor_lt_two_pow (n := 8) (by decide) ?_
        rw [Nat.one_shiftLeft]
        exact Nat.pow_lt_pow_right (by decide) (Nat.mod_lt _ (by decide))
    · rw [if_neg hj, decide_eq_true (by omega), Bool.and_true]
  · rw [getBit_of_len_le (by rw [unsetBit_len]; omega), getBit_of_len_le (by omega),
      Bool.false_and]

theorem getBit_fill {bits : Bitarray} {i : ℕ} (h : i / 8 < bits.len / 8) (byte : UInt8) :
    (bits.fill byte).getBit i = byte.toNat.testBit (i % 8) := by
  have hi : i < (bits.fill byte).len := by
    change i < bits.len
    omega
  rw [getBit, if_pos hi, fill, List.getD_eq_getElem?_getD,
    List.getElem?_append_left (by rwa [List.length_replicate]), List.getElem?_replicate, if_pos h,
    Option.getD_some]

/-! ## Sequences of calls -/

inductive Op where
  | setBit (bit : ℕ)
  | unsetBit (bit : ℕ)
  | setAll
  | unsetAll
  deriving DecidableEq, Repr

namespace Op

def run : Op → Bitarray → Bitarray
  | .setBit bit, bits => bits.setBit bit
  | .unsetBit bit, bits => bits.unsetBit bit
  | .setAll, bits => bits.setAll
  | .unsetAll, bits => bits.unsetAll

/-- What a call makes of a bit, if it concerns it. -/
def effect : Op → ℕ → Option Bool
  | .setBit bit, i => if i = bit then some true else none
  | .unsetBit bit, i => if i = bit then some false else none
  | .setAll, _ => some true
  | .unsetAll, _ => some false

theorem run_len (op : Op) (bits : Bitarray) : (op.run bits).len = bits.len := by
  cases op with
  | setBit bit => exact setBit_len bits bit
  | unsetBit bit => exact unsetBit_len bits bit
  | setAll => rfl
  | unsetAll => rfl

theorem run_of_len_le {bits : Bitarray} {bit : ℕ} (h : bits.len ≤ bit) :
    run (.setBit bit) bits = bits ∧ run (.unsetBit bit) bits = bits :=
  ⟨if_neg (Nat.not_lt.mpr h), if_neg (Nat.not_lt.mpr h)⟩

/-- One call, on an array of whole bytes. -/
theorem getBit_run (op : Op) {bits : Bitarray} (h8 : 8 ∣ bits.len) {i : ℕ} (hi : i < bits.len) :
    (op.run bits).getBit i = (op.effect i).getD (bits.getBit i) := by
  have hbyte : i / 8 < bits.len / 8 := by omega
  have hlt : i % 8 < 8 := Nat.mod_lt _ (by decide)
  cases op with
  | setBit bit =>
    rw [run, getBit_setBit, effect, decide_eq_true hi, Bool.and_true]
    by_cases hib : i = bit
    · rw [if_pos hib, decide_eq_true hib, Bool.or_true, Option.getD_some]
    · rw [if_neg hib, decide_eq_false hib, Bool.or_false, Option.getD_none]
  | unsetBit bit =>
    rw [run, getBit_unsetBit, effect]
    by_cases hib : i = bit
    · rw [if_pos hib, decide_eq_false (not_not.mpr hib), Bool.and_false, Option.getD_some]
    · rw [if_neg hib, decide_eq_true hib, Bool.and_true, Option.getD_none]
  | setAll =>
    rw [run, Bitarray.setAll, getBit_fill hbyte]
    interval_cases i % 8 <;> rfl
  | unsetAll =>
    rw [run, Bitarray.unsetAll, getBit_fill hbyte]
    exact Nat.zero_testBit _

end Op

def runAll (ops : List Op) (bits : Bitarray) : Bitarray :=
  ops.foldl (fun bits op => op.run bits) bits

/-- What the last call that concerns a bit makes of it. -/
def lastEffect : List Op → ℕ → Option Bool
  | [], _ => none
  | op :: ops, i => (lastEffect ops i).or (op.effect i)

theorem runAll_len (ops : List Op) (bits : Bitarray) : (runAll ops bits).len = bits.len := by
  induction ops generalizing bits with
  | nil => rfl
  | cons op ops ih => exact (ih (op.run bits)).trans (op.run_len bits)

theorem getBit_runAll (ops : List Op) {bits : Bitarray} (h8 : 8 ∣ bits.len) {i : ℕ}
    (hi : i < bits.len) : (runAll ops bits).getBit i = (lastEffect ops i).getD (bits.getBit i) := by
  induction ops generalizing bits with
  | nil => rfl
  | cons op ops ih =>
    have hlen := op.run_len bits
    change (runAll ops (op.run bits)).getBit i = _
    rw [ih (hlen ▸ h8) (hlen ▸ hi), op.getBit_run h8 hi, lastEffect]
    cases lastEffect ops i with
    | none => rw [Option.none_or, Option.getD_none]
    | some b => rfl

theorem init_len {k : ℕ} (hk : k < 64) (h : Heap) : (init h (2 ^ k)).len = 2 ^ k := by
  change 2 ^ highestSetBit64 (2 ^ k) = 2 ^ k
  rw [highestSetBit64_pow hk]

theorem init_eq_unsetAll (h : Heap) (len : ℕ) :
    init h len = unsetAll ⟨2 ^ highestSetBit64 len, h.malloc ((2 ^ highestSetBit64 len + 7) / 8),
      h.malloc_length _⟩ := rfl

/-- The bytes that a new array fills are cleared. -/
theorem getBit_init_of_lt (h : Heap) {len i : ℕ} (hi : i / 8 < 2 ^ highestSetBit64 len / 8) :
    (init h len).getBit i = false := by
  rw [init_eq_unsetAll, unsetAll, getBit_fill hi]
  exact Nat.zero_testBit _

/-- A bit array of at least a byte is a set of bits. -/
theorem runAll_init_bits (h : Heap) {k : ℕ} (h3 : 3 ≤ k) (hk : k < 64) (ops : List Op) :
    (∀ i, (runAll ops (init h (2 ^ k))).getBit i =
      if i < 2 ^ k then (lastEffect ops i).getD false else false) ∧
    ∀ bit ≥ 2 ^ k, (runAll (ops ++ [.setBit bit]) (init h (2 ^ k)) = runAll ops (init h (2 ^ k)) ∧
      runAll (ops ++ [.unsetBit bit]) (init h (2 ^ k)) = runAll ops (init h (2 ^ k))) := by
  have hlen := init_len hk h
  have hall := runAll_len ops (init h (2 ^ k))
  have h8 : 8 ∣ (init h (2 ^ k)).len := by
    rw [hlen]
    exact pow_dvd_pow 2 h3
  constructor
  · intro i
    by_cases hi : i < 2 ^ k
    · have hbyte : i / 8 < 2 ^ highestSetBit64 (2 ^ k) / 8 := by
        change i / 8 < (init h (2 ^ k)).len / 8
        omega
      rw [if_pos hi, getBit_runAll ops h8 (hlen.symm ▸ hi), getBit_init_of_lt h hbyte]
    · rw [if_neg hi, getBit_of_len_le (by omega)]
  · intro bit hbit
    have hout := Op.run_of_len_le ((hall.trans hlen).le.trans hbit)
    unfold runAll at hout ⊢
    rw [List.foldl_append, List.foldl_append]
    exact hout

theorem runAll_init_bits_eight :
    (runAll [.setBit 3, .setBit 9, .unsetBit 3, .setAll, .unsetBit 5]
      (init zeroHeap (2 ^ 3))).getBit 3 = true :=
  (runAll_init_bits zeroHeap le_rfl (by decide) _).1 3

/-! ## The capacity asked for -/

/-- Every bit below `n` of a new array is clear, and can be set. -/
def HonoursCapacity (h : Heap) (n : ℕ) : Prop :=
  ∀ i < n, (init h n).getBit i = false ∧ ((init h n).setBit i).getBit i = true

instance (h : Heap) (n : ℕ) : Decidable (HonoursCapacity h n) :=
  inferInstanceAs (Decidable (∀ i < n, _ ∧ _))

/-- All bits can be set if the length did not have to be rounded down, and only then. -/
theorem settable_iff (h : Heap) {n : ℕ} (hpos : n ≠ 0) (hn : n < 2 ^ 64) :
    (∀ i < n, ((init h n).setBit i).getBit i = true) ↔ ∃ k, n = 2 ^ k := by
  have hlen : (init h n).len = 2 ^ Nat.log 2 n := by
    rw [← highestSetBit64_eq_log hpos hn]
    rfl
  have hle : 2 ^ Nat.log 2 n ≤ n := Nat.pow_log_le_self 2 hpos
  simp only [getBit_setBit_self, hlen, decide_eq_true_eq]
  constructor
  · intro hall
    have hlast := hall (n - 1) (by omega)
    exact ⟨Nat.log 2 n, by omega⟩
  · rintro ⟨k, rfl⟩ i hi
    rwa [Nat.log_pow (by decide)]

/-- Less than a byte is not cleared: the bits are those that `malloc` returned. -/
theorem getBit_init_short (h : Heap) {k i : ℕ} (hk : k < 3) (hi : i < 2 ^ k) :
    (init h (2 ^ k)).getBit i = ((h.malloc 1).getD 0 0).toNat.testBit i := by
  have hshort : 2 ^ k < 8 := Nat.pow_lt_pow_right (by decide) hk
  have hone : (2 ^ k + 7) / 8 = 1 := by omega
  rw [getBit, if_pos (by rwa [init_len (by omega) h]), init]
  dsimp only
  rw [highestSetBit64_pow (by omega), hone, Nat.div_eq_of_lt hshort, List.replicate_zero,
    List.nil_append, List.drop_zero, Nat.div_eq_of_lt (by omega), Nat.mod_eq_of_lt (by omega)]

theorem clear_iff (h : Heap) {k : ℕ} (hk : k < 64) :
    (∀ i < 2 ^ k, (init h (2 ^ k)).getBit i = false) ↔
      (2 ^ k < 8 → ∀ i < 2 ^ k, ((h.malloc 1).getD 0 0).toNat.testBit i = false) := by
  rcases Nat.lt_or_ge k 3 with h3 | h3
  · have hshort : 2 ^ k < 8 := Nat.pow_lt_pow_right (by decide) h3
    rw [forall_prop_of_true hshort]
    refine forall₂_congr fun i hi => ?_
    rw [getBit_init_short h h3 hi]
  · have hbytes : 8 ∣ 2 ^ k := pow_dvd_pow 2 h3
    refine iff_of_true (fun i hi => getBit_init_of_lt h ?_) fun hshort => ?_
    · rw [highestSetBit64_pow hk]
      omega
    · exact absurd hshort (Nat.not_lt.mpr (Nat.le_of_dvd (by positivity) hbytes))

/-- The length is rounded down to a power of two, and less than a byte is never cleared. -/
theorem honoursCapacity_iff (h : Heap) {n : ℕ} (hpos : 1 ≤ n) (hn : n < 2 ^ 63) :
    HonoursCapacity h n ↔
      (∃ k, n = 2 ^ k) ∧
        (n < 8 → ∀ i < n, ((h.malloc 1).getD 0 0).toNat.testBit i = false) := by
  have hsettable := settable_iff h (n := n) (by omega) (by omega)
  constructor
  · intro hcap
    obtain ⟨k, rfl⟩ := hsettable.mp fun i hi => (hcap i hi).2
    have hk : k < 63 := (Nat.pow_lt_pow_iff_right (by decide)).mp hn
    exact ⟨⟨k, rfl⟩, (clear_iff h (by omega)).mp fun i hi => (hcap i hi).1⟩
  · rintro ⟨⟨k, rfl⟩, hjunk⟩ i hi
    have hk : k < 63 := (Nat.pow_lt_pow_iff_right (by decide)).mp hn
    exact ⟨(clear_iff h (by omega)).mpr hjunk i hi, hsettable.mpr ⟨k, rfl⟩ i hi⟩

theorem eightBits_honoursCapacity : HonoursCapacity (fillHeap 0xff) 8 :=
  (honoursCapacity_iff (fillHeap 0xff) (by decide) (by decide)).mpr
    ⟨⟨3, rfl⟩, fun hshort => absurd hshort (by decide)⟩

/-- Of three bits the last one cannot be set, and four bits come as the memory was. -/
theorem threeBits_not_honoursCapacity :
    ((init zeroHeap 3).setBit 2).getBit 2 = false ∧ ¬ HonoursCapacity zeroHeap 3 ∧
      (init (fillHeap 0xff) 4).getBit 0 = true ∧ ¬ HonoursCapacity (fillHeap 0xff) 4 := by
  decide

end Bitarray

end GammaRay
