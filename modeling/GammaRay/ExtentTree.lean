import GammaRay.Ext4

set_option autoImplicit false

/-!
# Looking a block up in an extent tree

An extent tree as a file system means it, what it takes for a volume to hold one, and what
`ext4_read_extent_block` finds in it.
-/
namespace GammaRay.Ext4

/-- An extent: `len` file blocks from `block` on lie on disk from `start` on. -/
structure Mapping where
  block : ℕ
  len : ℕ
  start : ℕ
  deriving DecidableEq, Repr

def Mapping.Contains (m : Mapping) (b : ℕ) : Prop := m.block ≤ b ∧ b < m.block + m.len

instance (m : Mapping) (b : ℕ) : Decidable (m.Contains b) :=
  inferInstanceAs (Decidable (_ ∧ _))

/-- An entry of an index node: the node at `block` answers for what begins at `key`. -/
structure Child (τ : Type) where
  key : ℕ
  block : ℕ
  node : τ

/-- Trees by their depth: all leaves lie equally deep. -/
def Tree : ℕ → Type
  | 0 => List Mapping
  | d + 1 => List (Child (Tree d))

namespace Tree

def leaf (ms : List Mapping) : Tree 0 := ms

def index {d : ℕ} (cs : List (Child (Tree d))) : Tree (d + 1) := cs

def extents (t : Tree 0) : List Mapping := t

def children {d : ℕ} (t : Tree (d + 1)) : List (Child (Tree d)) := t

/-- Everything the tree maps. -/
def mappings : {d : ℕ} → Tree d → List Mapping
  | 0, t => t.extents
  | _ + 1, t => t.children.flatMap fun c => c.node.mappings

/-- How many entries the root node has. -/
def count : {d : ℕ} → Tree d → ℕ
  | 0, t => t.extents.length
  | _ + 1, t => t.children.length

end Tree

section Children

variable {τ : Type}

/-- Where the range of an entry ends that these entries follow. -/
def nextKey (hi : ℕ) : List (Child τ) → ℕ
  | [] => hi
  | c :: _ => c.key

/-- Entries in the order of their keys, each with a node for the range up to the next key. -/
def Chain (P : ℕ → ℕ → τ → Prop) : ℕ → ℕ → List (Child τ) → Prop
  | _, _, [] => True
  | lo, hi, c :: cs =>
    lo ≤ c.key ∧ c.key < hi ∧ P c.key (nextKey hi cs) c.node ∧ Chain P (c.key + 1) hi cs

/-- The entry whose range holds `b`, if it is not the last one. -/
def childAt (b : ℕ) : List (Child τ) → Option (Child τ)
  | c :: c' :: cs => if b < c'.key then some c else childAt b (c' :: cs)
  | _ => none

/-- A single entry is always followed. Of several the first must not begin behind `b`; the
last one is never followed, so nothing below it may contain `b`. -/
def ReachesChild (P : τ → Prop) (maps : τ → List Mapping) (b : ℕ) : List (Child τ) → Prop
  | [] => True
  | [c] => P c.node
  | c :: c' :: cs => c.key ≤ b ∧
      (∀ x ∈ childAt b (c :: c' :: cs), P x.node) ∧
      (childAt b (c :: c' :: cs) = none →
        ∀ x ∈ (c' :: cs).getLast?, ∀ m ∈ maps x.node, ¬ m.Contains b)

/-- A single entry is followed; of several the first begins behind `b`. -/
def StraysChild (P : τ → Prop) (b : ℕ) : List (Child τ) → Prop
  | [] => False
  | [c] => P c.node
  | c :: _ :: _ => b < c.key

end Children

/-- A well-formed tree for the blocks from `lo` up to `hi`. -/
def Tree.WellFormed : {d : ℕ} → ℕ → ℕ → Tree d → Prop
  | 0, lo, hi, t =>
    t.extents.Pairwise (fun m m' => m.block + m.len ≤ m'.block) ∧
      ∀ m ∈ t.extents, lo ≤ m.block ∧ m.block + m.len ≤ hi ∧ m.len ≤ 32768 ∧
        m.start + m.len ≤ 2 ^ 32
  | _ + 1, lo, hi, t => Chain Tree.WellFormed lo hi t.children

/-- Entry `i` of the node in a buffer is entry `i` of the root of a tree. -/
def EntriesHeld (buf : Buffer) : {d : ℕ} → Tree d → Prop
  | 0, t => ∀ i m, t.extents[i]? = some m →
      extentAt buf i = some ⟨m.block, m.len, 0, m.start⟩
  | _ + 1, t => ∀ i c, t.children[i]? = some c →
      extentIdxAt buf i = some ⟨c.key, c.block, 0⟩

/-- A buffer holds the root node of a tree. -/
structure HoldsNode (buf : Buffer) {d : ℕ} (t : Tree d) : Prop where
  header : extentHeader buf = some ⟨t.count, d⟩
  entries : EntriesHeld buf t

/-- The blocks that the index nodes of a tree point to hold their nodes. -/
def Stored (v : Volume) : {d : ℕ} → Tree d → Prop
  | 0, _ => True
  | _ + 1, t => ∀ c ∈ t.children,
      (∀ buf, HoldsNode (ext4ReadBlock v c.block buf) c.node) ∧ Stored v c.node

/-- What the lookup of a block is for. -/
structure Answers (v : Volume) (ms : List Mapping) (b : ℕ) (r : ReadResult) : Prop where
  block : ∀ m ∈ ms, m.Contains b →
    ∃ buf, r = .block (m.start + (b - m.block)) (ext4ReadBlock v (m.start + (b - m.block)) buf)
  hole : (∃ buf, r = .hole (zeroFill v buf)) ↔ ∀ m ∈ ms, ¬ m.Contains b

/-- The walk gets to where block `b` is decided, and an extent that contains it does not run
up to `2 ^ 32`. -/
def Tree.Reaches (b : ℕ) : {d : ℕ} → Tree d → Prop
  | 0, t => ∀ m ∈ t.extents, m.Contains b → m.block + m.len < 2 ^ 32
  | _ + 1, t => ReachesChild (Tree.Reaches b) Tree.mappings b t.children

/-- The walk passes single entries down to an index node that begins behind `b`. -/
def Tree.Strays (b : ℕ) : {d : ℕ} → Tree d → Prop
  | 0, _ => False
  | _ + 1, t => StraysChild (Tree.Strays b) b t.children

/-- What the buffer holds when the walk strays. -/
def Tree.strayBuffer (v : Volume) : {d : ℕ} → Buffer → Tree d → Buffer
  | 0, buf, _ => buf
  | _ + 1, buf, t => match t.children with
    | [c] => c.node.strayBuffer v (ext4ReadBlock v c.block buf)
    | _ => buf

/-! ## One node -/

section Node

variable {v : Volume} {b : ℕ} {buf : Buffer} {r : ReadResult}

theorem sentinel_eq_zero : sentinel = 0 := by decide

theorem extentIndexLeaf_lo (key block : ℕ) : ext4ExtentIndexLeaf ⟨key, block, 0⟩ = block := by
  rw [ext4ExtentIndexLeaf, Nat.zero_shiftLeft, Nat.zero_or]

theorem extentStart_lo (block len start : ℕ) : ext4ExtentStart ⟨block, len, 0, start⟩ = start := by
  rw [ext4ExtentStart, Nat.zero_shiftLeft, Nat.zero_or]

def Mapping.takes (m : Mapping) (b : ℕ) : Bool := Extent.takes ⟨m.block, m.len, 0, m.start⟩ b

/-- What the scan of a leaf comes to. -/
def leafResult (v : Volume) (b : ℕ) (buf : Buffer) (ms : List Mapping) : ReadResult :=
  match ms.find? (·.takes b) with
  | some m => .block (m.start + (b - m.block)) (ext4ReadBlock v (m.start + (b - m.block)) buf)
  | none => .hole (zeroFill v buf)

/-- The 32-bit sum loses exactly the extents that run up to `2 ^ 32`. -/
theorem Mapping.takes_iff {m : Mapping} (hm : m.block + m.len ≤ 2 ^ 32) :
    m.takes b = true ↔ m.Contains b ∧ m.block + m.len < 2 ^ 32 := by
  unfold takes Extent.takes Contains
  simp only [Bool.and_eq_true, decide_eq_true_eq]
  rcases Nat.lt_or_eq_of_le hm with hlt | heq
  · rw [Nat.mod_eq_of_lt hlt]
    exact (and_iff_left hlt).symm
  · rw [heq, Nat.mod_self]
    omega

theorem leaf_ends {ms : List Mapping} {idx : ExtentIdx} {n i : ℕ} (hn : n = i + ms.length)
    (he : ∀ j m, ms[j]? = some m → extentAt buf (i + j) = some ⟨m.block, m.len, 0, m.start⟩) :
    Loop.Ends (ext4ReadExtentStep v b) ⟨buf, ⟨n, 0⟩, i, idx⟩ r ↔ r = leafResult v b buf ms := by
  induction ms generalizing i with
  | nil =>
    have hi : ¬ i < n := by
      rw [hn, List.length_nil]
      omega
    exact Loop.ends_leave_iff (if_neg hi)
  | cons m ms ih =>
    have hi : i < n := by
      rw [hn, List.length_cons]
      omega
    have hm := he 0 m rfl
    rw [Nat.add_zero] at hm
    have hstep : ext4ReadExtentStep v b ⟨buf, ⟨n, 0⟩, i, idx⟩ =
        if m.takes b then some (.inr (.block (m.start + (b - m.block))
          (ext4ReadBlock v (m.start + (b - m.block)) buf)))
        else some (.inl ⟨buf, ⟨n, 0⟩, i + 1, idx⟩) := by
      rw [ext4ReadExtentStep, if_pos hi, if_neg (not_not.mpr rfl), Loop.bind_of_some hm,
        extentStart_lo]
      rfl
    by_cases ht : m.takes b
    · rw [if_pos ht] at hstep
      rw [Loop.ends_leave_iff hstep, leafResult,
        List.find?_cons_of_pos (p := fun x : Mapping => x.takes b) ht]
    · rw [if_neg ht] at hstep
      rw [Loop.ends_again_iff hstep, ih (by rw [hn, List.length_cons]; omega),
        leafResult, leafResult, List.find?_cons_of_neg (p := fun x : Mapping => x.takes b) ht]
      intro j m' hm'
      rw [Nat.add_right_comm, Nat.add_assoc]
      exact he (j + 1) m' hm'

/-- Behind its first entry, the scan of an index node descends into the entry whose range
holds the block, and reports a hole if that is the last one. -/
theorem index_ends {τ : Type} {g : Child τ → ExtentHeader} {c : Child τ}
    {cs : List (Child τ)} {n d i : ℕ} (hn : n = i + cs.length) (h2 : n ≠ 1) (hc : c.key ≤ b)
    (he : ∀ j x, cs[j]? = some x → extentIdxAt buf (i + j) = some ⟨x.key, x.block, 0⟩)
    (hh : ∀ x ∈ c :: cs, extentHeader (ext4ReadBlock v x.block buf) = some (g x)) :
    Loop.Ends (ext4ReadExtentStep v b) ⟨buf, ⟨n, d + 1⟩, i, ⟨c.key, c.block, 0⟩⟩ r ↔
      (childAt b (c :: cs)).elim (r = .hole (zeroFill v buf)) fun x =>
        Loop.Ends (ext4ReadExtentStep v b)
          ⟨ext4ReadBlock v x.block buf, g x, 0, ⟨sentinel, x.block, 0⟩⟩ r := by
  induction cs generalizing i c with
  | nil =>
    have hi : ¬ i < n := by
      rw [hn, List.length_nil]
      omega
    exact Loop.ends_leave_iff (if_neg hi)
  | cons x cs ih =>
    have hi : i < n := by
      rw [hn, List.length_cons]
      omega
    have hx := he 0 x rfl
    rw [Nat.add_zero] at hx
    have hread := hh c List.mem_cons_self
    by_cases hb : b < x.key
    · have hstep : ext4ReadExtentStep v b ⟨buf, ⟨n, d + 1⟩, i, ⟨c.key, c.block, 0⟩⟩ =
          some (.inl ⟨ext4ReadBlock v c.block buf, g c, 0, ⟨sentinel, c.block, 0⟩⟩) := by
        rw [ext4ReadExtentStep, if_pos hi, if_pos (Nat.succ_ne_zero d), Loop.bind_of_some hx,
          if_neg h2, if_pos ⟨hb, hc⟩, extentIndexLeaf_lo, Loop.bind_of_some hread]
      rw [Loop.ends_again_iff hstep, childAt, if_pos hb, Option.elim_some]
    · have hstep : ext4ReadExtentStep v b ⟨buf, ⟨n, d + 1⟩, i, ⟨c.key, c.block, 0⟩⟩ =
          some (.inl ⟨buf, ⟨n, d + 1⟩, i + 1, ⟨x.key, x.block, 0⟩⟩) := by
        rw [ext4ReadExtentStep, if_pos hi, if_pos (Nat.succ_ne_zero d), Loop.bind_of_some hx,
          if_neg h2, if_neg (fun h => hb h.1)]
      rw [Loop.ends_again_iff hstep, childAt, if_neg hb]
      refine ih (by rw [hn, List.length_cons]; omega) (by omega) ?_ ?_
      · intro j y hy
        rw [Nat.add_right_comm, Nat.add_assoc]
        exact he (j + 1) y hy
      · intro y hy
        exact hh y (List.mem_cons_of_mem _ hy)

/-- The loop has just read the root of a tree. -/
def enter (buf : Buffer) {d : ℕ} (t : Tree d) (idx : ExtentIdx) : ReadState :=
  ⟨buf, ⟨t.count, d⟩, 0, idx⟩

theorem enter_leaf {t : Tree 0} {idx : ExtentIdx} (hbuf : HoldsNode buf t) :
    Loop.Ends (ext4ReadExtentStep v b) (enter buf t idx) r ↔
      r = leafResult v b buf t.extents := by
  refine leaf_ends (Nat.zero_add _).symm ?_
  intro j m hm
  rw [Nat.zero_add]
  exact hbuf.entries j m hm

variable {d : ℕ} {t : Tree (d + 1)} {idx : ExtentIdx}

theorem enter_empty (hc : t.children = []) :
    Loop.Ends (ext4ReadExtentStep v b) (enter buf t idx) r ↔ r = .hole (zeroFill v buf) := by
  refine Loop.ends_leave_iff (if_neg ?_)
  change ¬ 0 < t.children.length
  rw [hc]
  exact Nat.lt_irrefl 0

theorem step_single {c : Child (Tree d)} (hbuf : HoldsNode buf t) (hs : Stored v t)
    (hc : t.children = [c]) :
    ext4ReadExtentStep v b (enter buf t idx) =
      some (.inl (enter (ext4ReadBlock v c.block buf) c.node { idx with eiBlock := sentinel })) := by
  have hcount : t.count = 1 := congrArg List.length hc
  have hentry := hbuf.entries 0 c (by rw [hc]; rfl)
  have hread := ((hs c (by rw [hc]; exact List.mem_singleton_self c)).1 buf).header
  rw [ext4ReadExtentStep, enter, if_pos (by rw [hcount]; exact Nat.one_pos),
    if_pos (Nat.succ_ne_zero d), Loop.bind_of_some hentry, if_pos hcount, extentIndexLeaf_lo,
    Loop.bind_of_some hread]
  rfl

/-- At an index node that begins behind the block, the walk follows whatever entry it has
at hand. -/
theorem step_stray_eq {c c' : Child (Tree d)} {cs : List (Child (Tree d))}
    (hbuf : HoldsNode buf t) (hc : t.children = c :: c' :: cs) (hb : b < c.key)
    (hi : idx.eiBlock = sentinel) :
    ext4ReadExtentStep v b (enter buf t idx) =
      (extentHeader (ext4ReadBlock v (ext4ExtentIndexLeaf idx) buf)).bind fun hdr =>
        some (.inl ⟨ext4ReadBlock v (ext4ExtentIndexLeaf idx) buf, hdr, 0, idx⟩) := by
  have hcount : t.count = cs.length + 2 := congrArg List.length hc
  have hentry := hbuf.entries 0 c (by rw [hc]; rfl)
  have hidx : idx.eiBlock ≤ b := by
    rw [hi, sentinel_eq_zero]
    exact Nat.zero_le b
  rw [ext4ReadExtentStep, enter, if_pos (by rw [hcount]; exact Nat.succ_pos _),
    if_pos (Nat.succ_ne_zero d), Loop.bind_of_some hentry,
    if_neg (show ¬ t.count = 1 by omega), if_pos ⟨hb, hidx⟩, ← hi, Option.bind_eq_bind]

theorem step_stray {c c' : Child (Tree d)} {cs : List (Child (Tree d))} {hdr : ExtentHeader}
    (hbuf : HoldsNode buf t) (hc : t.children = c :: c' :: cs) (hb : b < c.key)
    (hi : idx.eiBlock = sentinel)
    (hread : extentHeader (ext4ReadBlock v (ext4ExtentIndexLeaf idx) buf) = some hdr) :
    ext4ReadExtentStep v b (enter buf t idx) =
      some (.inl ⟨ext4ReadBlock v (ext4ExtentIndexLeaf idx) buf, hdr, 0, idx⟩) := by
  rw [step_stray_eq hbuf hc hb hi, hread, Option.bind_some]

theorem step_stray_none {c c' : Child (Tree d)} {cs : List (Child (Tree d))}
    (hbuf : HoldsNode buf t) (hc : t.children = c :: c' :: cs) (hb : b < c.key)
    (hi : idx.eiBlock = sentinel)
    (hread : extentHeader (ext4ReadBlock v (ext4ExtentIndexLeaf idx) buf) = none) :
    ext4ReadExtentStep v b (enter buf t idx) = none := by
  rw [step_stray_eq hbuf hc hb hi, hread, Option.bind_none]

theorem enter_several {c c' : Child (Tree d)} {cs : List (Child (Tree d))}
    (hbuf : HoldsNode buf t) (hs : Stored v t) (hc : t.children = c :: c' :: cs)
    (hb : c.key ≤ b) :
    Loop.Ends (ext4ReadExtentStep v b) (enter buf t idx) r ↔
      (childAt b (c :: c' :: cs)).elim (r = .hole (zeroFill v buf)) fun x =>
        Loop.Ends (ext4ReadExtentStep v b)
          (enter (ext4ReadBlock v x.block buf) x.node ⟨sentinel, x.block, 0⟩) r := by
  have hcount : t.count = cs.length + 2 := congrArg List.length hc
  have hentry := hbuf.entries 0 c (by rw [hc]; rfl)
  have hstep : ext4ReadExtentStep v b (enter buf t idx) =
      some (.inl ⟨buf, ⟨t.count, d + 1⟩, 1, ⟨c.key, c.block, 0⟩⟩) := by
    rw [ext4ReadExtentStep, enter, if_pos (by rw [hcount]; exact Nat.succ_pos _),
      if_pos (Nat.succ_ne_zero d), Loop.bind_of_some hentry, if_neg (show ¬ t.count = 1 by omega),
      if_neg (fun h => absurd h.1 (Nat.not_lt.mpr hb))]
  rw [Loop.ends_again_iff hstep]
  have hrest : ∀ j x, (c' :: cs)[j]? = some x →
      extentIdxAt buf (1 + j) = some ⟨x.key, x.block, 0⟩ := by
    intro j x hx
    refine hbuf.entries (1 + j) x ?_
    rw [hc, Nat.add_comm, List.getElem?_cons_succ]
    exact hx
  have hheader : ∀ x ∈ c :: c' :: cs,
      extentHeader (ext4ReadBlock v x.block buf) = some ⟨x.node.count, d⟩ := by
    intro x hx
    exact ((hs x (by rw [hc]; exact hx)).1 buf).header
  have hn : t.count = 1 + (c' :: cs).length := by
    rw [hcount, List.length_cons]
    omega
  exact index_ends hn (by omega) hb hrest hheader

end Node

end GammaRay.Ext4
