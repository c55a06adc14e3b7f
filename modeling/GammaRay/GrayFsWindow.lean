import GammaRay.GrayFs

set_option autoImplicit false

/-!
# Which blocks a read of the FUSE view goes through

The entries of a block list are one block of the file system apart, whatever its block size
is; `gammarayfs_read` divides the offset by 4096 to find the first one.
-/
namespace GammaRay.GrayFs
open Bytes Decimal Redis KvStore

/-- The first half of `gammarayfs_read`: the command that fetches the block list, and the number
of bytes the request is cut down to, or the error that is returned instead. -/
def readCommand (junk : Vector UInt8 8) (path : List UInt8) (len offset : ℕ) (h : Handle) :
    Option ((ℤ ⊕ ℕ × Command Key) × Handle) := do
  let (inodeNum, h) ← gammarayfsPathlookup path h
  let (st, h) ← gammarayfsGetattr junk path h
  match st with
  | none => some (.inl (-enoent), h)
  | some stSize =>
    if stSize < offset then some (.inl (-einval), h)
    else
      let size := if u64 stSize < u64 (offset + len) then u64 (stSize - offset) else len
      let start := offset / 4096
      let stop := u64 (start + u64 (size + 4095) / 4096)
      some (.inr (size, redisFileSectorsLgetVar (u64 inodeNum) start stop), h)

theorem gammarayfsRead_eq (disk : Disk) (bs : ℕ) (junk : Vector UInt8 8) (path buf : List UInt8)
    (offset : ℕ) (h : Handle) :
    gammarayfsRead disk bs junk path buf offset h =
      (readCommand junk path buf.length offset h).bind fun r =>
        r.1.elim (fun err => some (err, buf, r.2)) fun c =>
          (ask c.2 asElements r.2).bind fun l => l.1.bind fun list =>
            (readBlocks disk bs c.1 list (offset % bs) 0 buf).map fun x => (i32 x.1, x.2, l.2) := by
  rw [gammarayfsRead, readCommand]
  cases gammarayfsPathlookup path h with
  | none => rfl
  | some found =>
    obtain ⟨inodeNum, h₁⟩ := found
    dsimp only [Option.bind_eq_bind, Option.bind_some]
    cases gammarayfsGetattr junk path h₁ with
    | none => rfl
    | some attr =>
      obtain ⟨st, h₂⟩ := attr
      cases st with
      | none => rfl
      | some stSize =>
        dsimp only [Option.bind_eq_bind, Option.bind_some]
        split
        · rfl
        · simp only [Option.map_eq_bind]
          rfl

/-- The list is fetched from the block that holds the offset on, and the bytes that are returned
are those of the file from there on. -/
def WindowMatches (disk : Disk) (bs : ℕ) (junk : Vector UInt8 8) (path : List UInt8) (h : Handle)
    (id : ℕ) (blocks : List ℤ) (offset : ℕ) (buf : List UInt8) : Prop :=
  (∃ n stop h', readCommand junk path buf.length offset h =
    some (.inr (n, redisFileSectorsLgetVar id (offset / bs : ℕ) stop), h')) ∧
  ∃ ret buf' h', gammarayfsRead disk bs junk path buf offset h = some (ret, buf', h') ∧
    buf'.take ret.toNat = blockContent bs disk blocks offset ret.toNat

theorem start_eq_iff (offset k : ℕ) :
    offset / 4096 = offset / (1024 <<< k) ↔ k = 2 ∨ offset < 1024 <<< k ∧ offset < 4096 := by
  rcases k with _ | _ | _ | k
  · change offset / 4096 = offset / 1024 ↔ _
    change _ ↔ 0 = 2 ∨ offset < 1024 ∧ offset < 4096
    omega
  · change offset / 4096 = offset / 2048 ↔ 1 = 2 ∨ offset < 2048 ∧ offset < 4096
    omega
  · exact iff_of_true rfl (.inl rfl)
  · have hbs : 1024 <<< (k + 3) = 4096 * 2 ^ (k + 1) := by
      rw [Nat.shiftLeft_eq, Nat.pow_add, Nat.pow_succ]
      omega
    have hm : 2 ≤ 2 ^ (k + 1) := Nat.le_self_pow (Nat.succ_ne_zero k) 2
    rw [hbs, ← Nat.div_div_eq_div_mul]
    constructor
    · intro heq
      have hlt : offset / 4096 = 0 := by
        by_contra hne
        exact absurd heq (Nat.div_lt_self (Nat.pos_of_ne_zero hne) hm).ne'
      omega
    · rintro (h2 | ⟨-, hlt⟩)
      · omega
      · rw [Nat.div_eq_of_lt hlt, Nat.zero_div]

section Window

variable {h : Handle} {path : List UInt8} {id size : ℕ} {blocks : List ℤ}

theorem readCommand_within (junk : Vector UInt8 8) (hs : Settled h)
    (hst : Stored h.db path id size blocks) (hid : id < 2 ^ 63) (hsize : size < 2 ^ 63)
    (len : ℕ) {offset : ℕ} (ho : offset ≤ size) :
    ∃ n stop h', readCommand junk path len offset h =
      some (.inr (n, redisFileSectorsLgetVar id (offset / 4096 : ℕ) stop), h') := by
  obtain ⟨h₁, hp, hdb₁, hs₁⟩ := pathlookup_total hs hst hid
  obtain ⟨h₂, hg, -, -⟩ := getattr_total junk hs₁ (hdb₁ ▸ hst) hid hsize
  rw [readCommand, Loop.bind_of_some hp]
  dsimp only
  rw [Loop.bind_of_some hg]
  dsimp only
  rw [if_neg (by omega), u64_natCast (n := id) (by omega)]
  exact ⟨_, _, _, rfl⟩

theorem i32_toNat_le (c : ℕ) : (i32 c).toNat ≤ c := by
  unfold i32
  omega

/-- Started at the right block, the loop returns bytes of the file only. -/
theorem read_bytes (disk : Disk) {bs : ℕ} (hbs : 0 < bs) (junk : Vector UInt8 8) (hs : Settled h)
    (hst : Stored h.db path id size blocks) (hid : id < 2 ^ 63) (hsize : size < 2 ^ 63)
    (hblocks : ∀ s ∈ blocks, BlockOf bs s) {offset : ℕ} (ho : offset ≤ size) (buf : List UInt8)
    (hbuf : buf.length < 2 ^ 64) (hstart : offset / 4096 = offset / bs) :
    ∃ ret buf' h', gammarayfsRead disk bs junk path buf offset h = some (ret, buf', h') ∧
      buf'.take ret.toNat = blockContent bs disk blocks offset ret.toNat := by
  obtain ⟨h', hread⟩ := read_within disk bs junk hs hst hid hsize buf ho
  have hclip := clipped_le ho hsize hbuf
  rw [hstart] at hread
  generalize u64 _ = stop at hread
  obtain ⟨rest, hrest⟩ := drop_eq_window blocks (offset / bs) stop
  obtain ⟨buf', hloop, -, htake⟩ := @readBlocks_spec bs disk blocks
    (clipped size offset buf.length) hbs (by omega) _ (offset / bs) (offset % bs) 0 rest buf
    (fun s hs => hblocks s (mem_of_mem_window hs)) (Nat.mod_lt _ hbs) hrest (Nat.zero_le _) hclip
  rw [Nat.zero_add] at hloop htake
  rw [List.take_zero, List.nil_append, Nat.div_add_mod] at htake
  rw [hloop, Option.map_some] at hread
  refine ⟨_, buf', h', hread, ?_⟩
  have hle := i32_toNat_le (min (clipped size offset buf.length - 0)
    (bs * (window blocks (offset / bs) stop).length - offset % bs))
  rw [← blockContent_take bs disk blocks offset hle, ← htake, List.take_take, min_eq_left hle]

end Window

end GammaRay.GrayFs
