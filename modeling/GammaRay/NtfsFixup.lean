import GammaRay.Ntfs

set_option autoImplicit false

/-!
# Update sequences undo the protection

A record is protected by saving the last word of each of its sectors and writing the update
sequence number there. `ntfs_fixup_data` checks the number and puts the words back.
-/
namespace GammaRay.Ntfs
open Bytes
open Ext4 (Buffer)

/-- The last words of the first `k` sectors are those of an array. -/
def patched (array record : List UInt8) (k : ℕ) : List UInt8 :=
  record.mapIdx fun i b =>
    if i < 512 * k ∧ 510 ≤ i % 512 then array.getD (2 * (i / 512) + (i % 512 - 510)) 0 else b

/-- The update sequence number in place of every last word. -/
def protect (u : ℕ) (record : List UInt8) : List UInt8 :=
  record.mapIdx fun i b =>
    if i % 512 = 510 then UInt8.ofNat u else if i % 512 = 511 then UInt8.ofNat (u / 256) else b

/-- The last words of the sectors, byte by byte. -/
def saved (record : List UInt8) : List UInt8 :=
  (List.range (2 * (record.length / 512))).map fun i => record.getD (512 * (i / 2) + 510 + i % 2) 0

/-- The last words of `n` sectors have been replaced, and nothing else. -/
structure Replaced (n : ℕ) (array record record' : List UInt8) : Prop where
  length : record'.length = record.length
  words : ∀ k < n, record'[512 * k + 510]? = array[2 * k]? ∧
    record'[512 * k + 511]? = array[2 * k + 1]?
  rest : ∀ i, i % 512 < 510 → record'[i]? = record[i]?

section Patched

variable {array record : List UInt8} {n : ℕ}

theorem patched_getElem? (array record : List UInt8) (k i : ℕ) :
    (patched array record k)[i]? = record[i]?.map fun b =>
      if i < 512 * k ∧ 510 ≤ i % 512 then array.getD (2 * (i / 512) + (i % 512 - 510)) 0
      else b := by
  rw [patched, List.getElem?_mapIdx]

theorem patched_length (array record : List UInt8) (k : ℕ) :
    (patched array record k).length = record.length := by
  rw [patched, List.length_mapIdx]

theorem patched_zero (array record : List UInt8) : patched array record 0 = record := by
  refine List.ext_getElem? fun i => ?_
  rw [patched_getElem?]
  cases record[i]? with
  | none => rfl
  | some b => rw [Option.map_some, if_neg (by omega)]

/-- A sector that has not been reached. -/
theorem patched_of_le {k i : ℕ} (h : 512 * k ≤ i) :
    (patched array record k)[i]? = record[i]? := by
  rw [patched_getElem?]
  cases record[i]? with
  | none => rfl
  | some b => rw [Option.map_some, if_neg (by omega)]

/-- One sector more. -/
theorem patched_succ {k : ℕ} (hk : 512 * (k + 1) ≤ record.length) {low high : UInt8}
    (hlow : array[2 * k]? = some low) (hhigh : array[2 * k + 1]? = some high) :
    ((patched array record k).set (510 + 512 * k) low).set (510 + 512 * k + 1) high =
      patched array record (k + 1) := by
  refine List.ext_getElem? fun i => ?_
  have hlen := patched_length array record k
  by_cases hi₁ : i = 510 + 512 * k + 1
  · subst hi₁
    have hplace : 2 * ((510 + 512 * k + 1) / 512) + ((510 + 512 * k + 1) % 512 - 510) =
        2 * k + 1 := by omega
    obtain ⟨b, hb⟩ : ∃ b, record[510 + 512 * k + 1]? = some b :=
      ⟨_, List.getElem?_eq_getElem (by omega)⟩
    rw [List.getElem?_set_self (by rw [List.length_set]; omega), patched_getElem?, hb,
      Option.map_some, if_pos (by omega), hplace, List.getD_eq_getElem?_getD, hhigh,
      Option.getD_some]
  rw [List.getElem?_set_ne (Ne.symm hi₁)]
  by_cases hi₀ : i = 510 + 512 * k
  · subst hi₀
    have hplace : 2 * ((510 + 512 * k) / 512) + ((510 + 512 * k) % 512 - 510) = 2 * k := by omega
    obtain ⟨b, hb⟩ : ∃ b, record[510 + 512 * k]? = some b :=
      ⟨_, List.getElem?_eq_getElem (by omega)⟩
    rw [List.getElem?_set_self (by omega), patched_getElem?, hb, Option.map_some,
      if_pos (by omega), hplace, List.getD_eq_getElem?_getD, hlow, Option.getD_some]
  rw [List.getElem?_set_ne (Ne.symm hi₀), patched_getElem?, patched_getElem?]
  congr 1
  funext b
  exact if_congr (by omega) rfl rfl

theorem patched_replaced (hrecord : record.length = n * 512) (harray : array.length = 2 * n) :
    Replaced n array record (patched array record n) where
  length := patched_length array record n
  words k hk := by
    have hplace : ∀ j < 2, (patched array record n)[512 * k + (510 + j)]? =
        array[2 * k + j]? := by
      intro j hj
      have hdiv : 2 * ((512 * k + (510 + j)) / 512) + ((512 * k + (510 + j)) % 512 - 510) =
          2 * k + j := by omega
      obtain ⟨b, hb⟩ : ∃ b, record[512 * k + (510 + j)]? = some b :=
        ⟨_, List.getElem?_eq_getElem (by omega)⟩
      rw [patched_getElem?, hb, Option.map_some, if_pos (by omega), hdiv,
        List.getD_eq_getElem?_getD, List.getElem?_eq_getElem (by omega), Option.getD_some]
    exact ⟨hplace 0 (by decide), hplace 1 (by decide)⟩
  rest i hi := by
    rw [patched_getElem?]
    cases record[i]? with
    | none => rfl
    | some b => rw [Option.map_some, if_neg (by omega)]

end Patched

/-! ## The loop -/

section Loop

variable {array record : List UInt8} {n u : ℕ}

/-- All sectors from `k` on carry the number. -/
def Protected (u n : ℕ) (record : List UInt8) (k : ℕ) : Prop :=
  ∀ j, k ≤ j → j < n → wordAt record (512 * j + 510) = some u

theorem protected_of_le {k : ℕ} (h : n ≤ k) : Protected u n record k :=
  fun _ hj hjn => absurd (h.trans hj) (Nat.not_le.mpr hjn)

theorem protected_step {k : ℕ} (h : k < n) :
    Protected u n record k ↔
      wordAt record (512 * k + 510) = some u ∧ Protected u n record (k + 1) := by
  constructor
  · intro hp
    exact ⟨hp k le_rfl h, fun j hj => hp j (by omega)⟩
  · rintro ⟨hword, hp⟩ j hj hjn
    rcases Nat.eq_or_lt_of_le hj with rfl | hlt
    · exact hword
    · exact hp j hlt hjn

theorem wordAt_patched (k : ℕ) :
    wordAt (patched array record k) (510 + 512 * k) = wordAt record (512 * k + 510) := by
  rw [wordAt, patched_of_le (by omega), patched_of_le (by omega), Nat.add_comm 510, wordAt]

theorem wordAt_inside {i : ℕ} (h : i + 1 < record.length) : ∃ saw, wordAt record i = some saw := by
  rw [wordAt, List.getElem?_eq_getElem (by omega), List.getElem?_eq_getElem h]
  exact ⟨_, rfl⟩

/-- Whether the rest of the sectors carry the number is decided before any of their words is
overwritten: the loop is ahead of its own stores. -/
theorem fixupLoop_run (hrecord : record.length = n * 512) (harray : array.length = 2 * n)
    {k fuel : ℕ} (hk : k ≤ n) (hfuel : n < fuel + k) :
    ∃ ok data, fixupLoop (n * 512) ⟨u, 2 * n, array⟩ fuel (510 + 512 * k) (2 * k)
        (patched array record k) = some (ok, data) ∧
      (ok = true ↔ Protected u n record k) ∧ (ok = true → data = patched array record n) := by
  induction fuel generalizing k with
  | zero => omega
  | succ fuel ih =>
    rw [fixupLoop]
    rcases Nat.lt_or_ge k n with hlt | hge
    · obtain ⟨saw, hsaw⟩ := wordAt_inside (show 512 * k + 510 + 1 < record.length by omega)
      rw [if_pos (by omega), if_pos (by dsimp only; omega), wordAt_patched,
        Loop.bind_of_some hsaw, protected_step hlt, hsaw, Option.some.injEq]
      by_cases heq : saw = u
      · obtain ⟨ok, data, hrun, hok, hdata⟩ := ih (k := k + 1) hlt (by omega)
        have hplace : 510 + 512 * (k + 1) = 510 + 512 * k + 512 := by omega
        rw [hplace, Nat.mul_succ 2 k] at hrun
        have hlow := List.getElem?_eq_getElem (l := array) (i := 2 * k) (by omega)
        have hhigh := List.getElem?_eq_getElem (l := array) (i := 2 * k + 1) (by omega)
        rw [if_neg (not_not.mpr heq), Loop.bind_of_some hlow, Loop.bind_of_some hhigh,
          patched_succ (by omega) hlow hhigh]
        exact ⟨ok, data, hrun, by rw [hok, and_iff_right heq], hdata⟩
      · rw [if_pos heq]
        exact ⟨false, _, rfl, iff_of_false Bool.false_ne_true fun h => heq h.1, nofun⟩
    · obtain rfl : k = n := by omega
      rw [if_neg (by omega)]
      exact ⟨true, _, rfl, iff_of_true rfl (protected_of_le le_rfl), fun _ => rfl⟩

end Loop

/-! ## The whole function -/

section Fixup

variable {array record : List UInt8} {n u offset : ℕ} {buf : Buffer}

theorem readUpdateSequence_run (hn : n < 32768) (harray : bytesAt buf offset (2 * n) = some array) :
    readUpdateSequence buf offset (n + 1) u =
      some (⟨u, 2 * n, array⟩, u64 (offset + (2 * n : ℕ))) := by
  have hsize : 2 * (n + 1) - 2 = 2 * n := by omega
  rw [readUpdateSequence, if_neg (by omega), hsize, Loop.bind_of_some harray,
    Nat.mod_eq_of_lt (show 2 * n < 2 ^ 16 by omega)]

theorem fixupData_run (hrecord : record.length = n * 512) (harray : array.length = 2 * n) :
    ∃ ok data, fixupData record (n * 512) ⟨u, 2 * n, array⟩ = some (ok, data) ∧
      (ok = true ↔ Protected u n record 0) ∧ (ok = true → data = patched array record n) := by
  have hrun := fixupLoop_run (u := u) hrecord harray (Nat.zero_le n) (show n < n + 2 + 0 by omega)
  rw [patched_zero] at hrun
  rw [fixupData, Nat.mul_div_cancel n (by decide)]
  exact hrun

end Fixup

/-! ## Protected records -/

section Restored

variable {record : List UInt8} {n u : ℕ}

theorem protect_getElem? (u : ℕ) (record : List UInt8) (i : ℕ) :
    (protect u record)[i]? = record[i]?.map fun b =>
      if i % 512 = 510 then UInt8.ofNat u
      else if i % 512 = 511 then UInt8.ofNat (u / 256) else b := by
  rw [protect, List.getElem?_mapIdx]

theorem protect_length (u : ℕ) (record : List UInt8) :
    (protect u record).length = record.length := by
  rw [protect, List.length_mapIdx]

theorem protect_protected (hrecord : record.length = n * 512) (hu : u < 2 ^ 16) :
    Protected u n (protect u record) 0 := by
  intro k _ hk
  rw [wordAt, protect_getElem?, protect_getElem?, List.getElem?_eq_getElem (by omega),
    List.getElem?_eq_getElem (by omega), Option.map_some, Option.map_some, if_pos (by omega),
    if_neg (by omega), if_pos (by omega)]
  exact congrArg some (leNat_leBytes_of_lt (w := 2) hu)

theorem patched_protect (hrecord : record.length = n * 512) :
    patched (saved record) (protect u record) n = record := by
  refine List.ext_getElem? fun i => ?_
  rw [patched_getElem?, protect_getElem?]
  rcases Nat.lt_or_ge i record.length with hi | hi
  · rw [List.getElem?_eq_getElem hi, Option.map_some, Option.map_some, Option.some.injEq]
    by_cases hword : 510 ≤ i % 512
    · have hplace : 512 * ((2 * (i / 512) + (i % 512 - 510)) / 2) + 510 +
          (2 * (i / 512) + (i % 512 - 510)) % 2 = i := by omega
      rw [if_pos ⟨by omega, hword⟩, saved, List.getD_eq_getElem?_getD, List.getElem?_map,
        List.getElem?_range (by omega), Option.map_some, Option.getD_some, hplace,
        List.getD_eq_getElem?_getD, List.getElem?_eq_getElem hi, Option.getD_some]
    · rw [if_neg fun h => hword h.2, if_neg (by omega), if_neg (by omega)]
  · rw [List.getElem?_eq_none hi, Option.map_none, Option.map_none]

end Restored

/-- `EXIT_SUCCESS` says that every sector carries the number; then exactly the last words are
replaced, and a protected record is what it was before. -/
theorem fixupData_inverts (n u : ℕ) (hn : n < 32768) (hu : u < 2 ^ 16) (record array : List UInt8)
    (hrecord : record.length = n * 512) (buf : Buffer) (offset : ℕ)
    (harray : bytesAt buf offset (2 * n) = some array) :
    ∃ seq offset' ok record', readUpdateSequence buf offset (n + 1) u = some (seq, offset') ∧
      fixupData record (n * 512) seq = some (ok, record') ∧
      (ok = true ↔ ∀ k < n, wordAt record (512 * k + 510) = some u) ∧
      (ok = true → Replaced n array record record') ∧
      ∀ original, original.length = n * 512 → record = protect u original →
        array = saved original → ok = true ∧ record' = original := by
  have hlength := (bytesAt_eq_some_iff.mp harray).1
  obtain ⟨ok, record', hrun, hok, hdata⟩ := fixupData_run (u := u) hrecord hlength
  refine ⟨_, _, ok, record', readUpdateSequence_run hn harray, hrun, ?_, ?_, ?_⟩
  · exact hok.trans ⟨fun h k hk => h k (Nat.zero_le k) hk, fun h k _ hk => h k hk⟩
  · intro htrue
    rw [hdata htrue]
    exact patched_replaced hrecord hlength
  · rintro original horiginal rfl rfl
    have htrue : ok = true := hok.mpr (protect_protected horiginal hu)
    exact ⟨htrue, by rw [hdata htrue, patched_protect horiginal]⟩

def zeroSector : List UInt8 := List.replicate 512 0

def zeroWord : Buffer := fun i => [0, 0][i]?

theorem zeroSector_restored :
    ∃ seq offset' ok record', readUpdateSequence zeroWord 0 2 1 = some (seq, offset') ∧
      fixupData (protect 1 zeroSector) 512 seq = some (ok, record') ∧ ok = true ∧
      Replaced 1 [0, 0] (protect 1 zeroSector) record' ∧ record' = zeroSector := by
  have hlength : zeroSector.length = 1 * 512 := List.length_replicate
  obtain ⟨seq, offset', ok, record', hseq, hrun, -, hreplaced, hrestored⟩ :=
    fixupData_inverts 1 1 (by decide) (by decide) (protect 1 zeroSector) [0, 0]
      (by rw [protect_length, hlength]) zeroWord 0 (by decide)
  obtain ⟨htrue, horiginal⟩ := hrestored zeroSector hlength rfl (by decide +kernel)
  exact ⟨seq, offset', ok, record', hseq, hrun, htrue, hreplaced htrue, horiginal⟩

end GammaRay.Ntfs
