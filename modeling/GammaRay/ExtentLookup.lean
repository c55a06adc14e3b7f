import GammaRay.ExtentTree

set_option autoImplicit false

/-!
# When the lookup is right

The walk of `ext4_read_extent_block` over a well-formed tree finds what it should just when
it reaches the node that decides; where it strays, it looks at block 0 of the file system
or goes round for ever.
-/
namespace GammaRay.Ext4
open Bytes

section Chain

variable {τ : Type} {P : ℕ → ℕ → τ → Prop} {maps : τ → List Mapping} {b lo hi : ℕ}
  {c : Child τ} {cs : List (Child τ)}

theorem Chain.nextKey_le (h : Chain P lo hi cs) : nextKey hi cs ≤ hi := by
  cases cs with
  | nil => exact le_refl hi
  | cons c cs => exact le_of_lt h.2.1

theorem Chain.le_key (h : Chain P lo hi cs) : ∀ y ∈ cs, lo ≤ y.key := by
  induction cs generalizing lo with
  | nil => exact fun y hy => absurd hy List.not_mem_nil
  | cons c cs ih =>
    intro y hy
    rcases List.mem_cons.mp hy with rfl | hy
    · exact h.1
    · have hle := ih h.2.2.2 y hy
      have hlo := h.1
      omega

theorem Chain.head_le_key (h : Chain P lo hi (c :: cs)) : ∀ y ∈ c :: cs, c.key ≤ y.key := by
  intro y hy
  rcases List.mem_cons.mp hy with rfl | hy
  · exact le_refl _
  · exact Nat.le_of_succ_le (h.2.2.2.le_key y hy)

theorem childAt_mem {x : Child τ} (h : childAt b cs = some x) : x ∈ cs := by
  induction cs with
  | nil => cases h
  | cons c cs ih =>
    cases cs with
    | nil => cases h
    | cons c' cs =>
      rw [childAt] at h
      split at h
      · rw [← Option.some.inj h]
        exact List.mem_cons_self
      · exact List.mem_cons_of_mem _ (ih h)

/-- Nodes map only what is in the range their parent gives them. -/
def Within (P : ℕ → ℕ → τ → Prop) (maps : τ → List Mapping) : Prop :=
  ∀ lo hi t, P lo hi t → ∀ m ∈ maps t, lo ≤ m.block ∧ m.block + m.len ≤ hi

theorem Chain.within (hP : Within P maps) (h : Chain P lo hi cs) :
    ∀ c ∈ cs, ∀ m ∈ maps c.node, c.key ≤ m.block ∧ m.block + m.len ≤ hi := by
  induction cs generalizing lo with
  | nil => exact fun c hc => absurd hc List.not_mem_nil
  | cons c cs ih =>
    obtain ⟨-, -, hc, hcs⟩ := h
    intro y hy m hm
    rcases List.mem_cons.mp hy with rfl | hy
    · obtain ⟨hlo, hend⟩ := hP _ _ _ hc m hm
      exact ⟨hlo, hend.trans hcs.nextKey_le⟩
    · exact ih hcs y hy m hm

/-- The node of each entry is one for some range inside the whole. -/
theorem Chain.range (h : Chain P lo hi cs) :
    ∀ c ∈ cs, ∃ lo' hi', hi' ≤ hi ∧ P lo' hi' c.node := by
  induction cs generalizing lo with
  | nil => exact fun c hc => absurd hc List.not_mem_nil
  | cons c cs ih =>
    obtain ⟨-, -, hc, hcs⟩ := h
    intro y hy
    rcases List.mem_cons.mp hy with rfl | hy
    · exact ⟨_, _, hcs.nextKey_le, hc⟩
    · exact ih hcs y hy

/-- What contains `b` lies below the entry whose range holds `b`. -/
theorem Chain.locate (hP : Within P maps) (h : Chain P lo hi (c :: cs)) {y : Child τ}
    (hy : y ∈ c :: cs) {m : Mapping} (hm : m ∈ maps y.node) (hb : m.Contains b) :
    (∀ x, childAt b (c :: cs) = some x → m ∈ maps x.node) ∧
      (childAt b (c :: cs) = none → ∀ x ∈ (c :: cs).getLast?, m ∈ maps x.node) := by
  induction cs generalizing c lo with
  | nil =>
    rw [List.mem_singleton.mp hy] at hm
    refine ⟨fun x hx => (by cases hx), fun _ x hx => ?_⟩
    rw [← Option.some.inj hx]
    exact hm
  | cons c' cs ih =>
    have htail := h.2.2.2
    by_cases hlt : b < c'.key
    · have hy' : y = c := by
        rcases List.mem_cons.mp hy with hy | hy
        · exact hy
        · have hkey := htail.head_le_key y hy
          have hblock := (htail.within hP y hy m hm).1
          have hle := hb.1
          omega
      subst hy'
      rw [childAt, if_pos hlt]
      exact ⟨fun x hx => Option.some.inj hx ▸ hm, fun hn => (by cases hn)⟩
    · have hy' : y ∈ c' :: cs := by
        rcases List.mem_cons.mp hy with rfl | hy
        · have hend := (hP _ _ _ h.2.2.1 m hm).2
          have hlt' := hb.2
          rw [nextKey] at hend
          omega
        · exact hy
      rw [childAt, if_neg hlt, List.getLast?_cons_cons]
      exact ih htail hy'

end Chain

theorem Tree.wellFormed_within {d : ℕ} :
    Within (Tree.WellFormed (d := d)) (Tree.mappings (d := d)) := by
  induction d with
  | zero =>
    intro lo hi t h m hm
    obtain ⟨hlo, hhi, -, -⟩ := h.2 m hm
    exact ⟨hlo, hhi⟩
  | succ d ih =>
    intro lo hi t h m hm
    obtain ⟨c, hc, hm⟩ := List.mem_flatMap.mp hm
    obtain ⟨hblock, hend⟩ := Chain.within ih h c hc m hm
    exact ⟨(Chain.le_key h c hc).trans hblock, hend⟩

/-! ## Answers -/

section Answers

variable {v : Volume} {b : ℕ} {buf : Buffer} {r : ReadResult} {ms ms' : List Mapping}

/-- Only the mappings that contain the block matter. -/
theorem Answers.congr (h : ∀ m, m.Contains b → (m ∈ ms ↔ m ∈ ms')) :
    Answers v ms b r ↔ Answers v ms' b r := by
  have key : ∀ {l l' : List Mapping}, (∀ m, m.Contains b → (m ∈ l ↔ m ∈ l')) →
      Answers v l b r → Answers v l' b r := by
    intro l l' h ha
    refine ⟨fun m hm hb => ha.block m ((h m hb).mpr hm) hb, ha.hole.trans ?_⟩
    exact ⟨fun hn m hm hb => hn m ((h m hb).mpr hm) hb,
      fun hn m hm hb => hn m ((h m hb).mp hm) hb⟩
  exact ⟨key h, key fun m hb => (h m hb).symm⟩

theorem answers_hole_iff :
    Answers v ms b (.hole (zeroFill v buf)) ↔ ∀ m ∈ ms, ¬ m.Contains b := by
  refine ⟨fun ha => ha.hole.mp ⟨buf, rfl⟩, fun hn => ⟨?_, ?_⟩⟩
  · exact fun m hm hb => absurd hb (hn m hm)
  · exact ⟨fun _ => hn, fun _ => ⟨buf, rfl⟩⟩

theorem answers_of_none (hn : ∀ m ∈ ms, ¬ m.Contains b) :
    Answers v ms b r ↔ ∃ buf, r = .hole (zeroFill v buf) := by
  refine ⟨fun ha => ha.hole.mpr hn, ?_⟩
  rintro ⟨buf, rfl⟩
  exact answers_hole_iff.mpr hn

theorem Mapping.contains_unique (hp : ms.Pairwise fun m m' => m.block + m.len ≤ m'.block)
    {m m' : Mapping} (hm : m ∈ ms) (hm' : m' ∈ ms) (hb : m.Contains b) (hb' : m'.Contains b) :
    m = m' := by
  induction hp with
  | nil => exact absurd hm List.not_mem_nil
  | cons hx _ ih =>
    unfold Mapping.Contains at hb hb'
    rcases List.mem_cons.mp hm with rfl | hl
    · rcases List.mem_cons.mp hm' with rfl | hl'
      · rfl
      · have hle := hx m' hl'
        omega
    · rcases List.mem_cons.mp hm' with rfl | hl'
      · have hle := hx m hl
        omega
      · exact ih hl hl'

/-- In a well-formed leaf the scan answers right unless the extent that contains the block
runs up to `2 ^ 32`. -/
theorem leafResult_answers_iff (hp : ms.Pairwise fun m m' => m.block + m.len ≤ m'.block)
    (hend : ∀ m ∈ ms, m.block + m.len ≤ 2 ^ 32) :
    Answers v ms b (leafResult v b buf ms) ↔
      ∀ m ∈ ms, m.Contains b → m.block + m.len < 2 ^ 32 := by
  unfold leafResult
  cases hf : ms.find? (·.takes b) with
  | none =>
    rw [answers_hole_iff]
    have hnone := List.find?_eq_none.mp hf
    refine forall₂_congr fun m hm => ⟨fun hn hb => absurd hb hn, fun hlt hb => ?_⟩
    exact hnone m hm ((Mapping.takes_iff (hend m hm)).mpr ⟨hb, hlt hb⟩)
  | some m =>
    have hm := List.mem_of_find?_eq_some hf
    obtain ⟨hb, hlt⟩ := (Mapping.takes_iff (hend m hm)).mp 
      (List.find?_some (p := fun x : Mapping => x.takes b) hf)
    refine iff_of_true ⟨?_, ?_⟩ ?_
    · intro m' hm' hb'
      obtain rfl := Mapping.contains_unique hp hm hm' hb hb'
      exact ⟨buf, rfl⟩
    · refine iff_of_false ?_ fun hn => hn m hm hb
      rintro ⟨_, h⟩
      cases h
    · intro m' hm' hb'
      rw [← Mapping.contains_unique hp hm hm' hb hb']
      exact hlt

end Answers

/-! ## The walk -/

section Walk

variable {v : Volume} {b : ℕ}

theorem mappings_single {d : ℕ} {t : Tree (d + 1)} {c : Child (Tree d)}
    (hc : t.children = [c]) : t.mappings = c.node.mappings := by
  rw [Tree.mappings, hc, List.flatMap_cons, List.flatMap_nil, List.append_nil]

/-- Everything the tree maps lies behind a block at which the walk strays. -/
theorem Tree.Strays.lt_block {d : ℕ} {t : Tree d} {lo hi : ℕ} (hs : t.Strays b)
    (hw : t.WellFormed lo hi) : ∀ m ∈ t.mappings, b < m.block := by
  induction d generalizing lo hi with
  | zero => exact absurd hs (by simp only [Tree.Strays, not_false_eq_true])
  | succ d ih =>
    rw [Tree.Strays] at hs
    rw [Tree.WellFormed] at hw
    rcases hc : t.children with _ | ⟨c, _ | ⟨c', cs⟩⟩
    · rw [hc] at hs
      exact absurd hs (by simp only [StraysChild, not_false_eq_true])
    · rw [hc] at hs hw
      rw [mappings_single hc]
      exact ih hs hw.2.2.1
    · rw [hc] at hs hw
      intro m hm
      obtain ⟨y, hy, hm⟩ := List.mem_flatMap.mp hm
      rw [hc] at hy
      have hkey := hw.head_le_key y hy
      have hblock := (hw.within Tree.wellFormed_within y hy m hm).1
      have hlt : b < c.key := hs
      omega

theorem Tree.Strays.not_contains {d : ℕ} {t : Tree d} {lo hi : ℕ} (hs : t.Strays b)
    (hw : t.WellFormed lo hi) : ∀ m ∈ t.mappings, ¬ m.Contains b :=
  fun m hm hb => absurd hb.1 (Nat.not_le.mpr (hs.lt_block hw m hm))

/-- No block is mapped twice. -/
theorem Tree.mapping_unique {d : ℕ} {t : Tree d} {lo hi : ℕ} (hw : t.WellFormed lo hi)
    {m m' : Mapping} (hm : m ∈ t.mappings) (hm' : m' ∈ t.mappings) (hb : m.Contains b)
    (hb' : m'.Contains b) : m = m' := by
  induction d generalizing lo hi with
  | zero => exact Mapping.contains_unique hw.1 hm hm' hb hb'
  | succ d ih =>
    obtain ⟨y, hy, hm⟩ := List.mem_flatMap.mp hm
    obtain ⟨y', hy', hm'⟩ := List.mem_flatMap.mp hm'
    rw [Tree.WellFormed] at hw
    rcases hc : t.children with _ | ⟨c, cs⟩
    · rw [hc] at hy
      exact absurd hy List.not_mem_nil
    · rw [hc] at hy hy' hw
      have hloc := hw.locate Tree.wellFormed_within hy hm hb
      have hloc' := hw.locate Tree.wellFormed_within hy' hm' hb'
      cases hx : childAt b (c :: cs) with
      | some x =>
        obtain ⟨lo', hi', -, hxw⟩ := Chain.range hw x (childAt_mem hx)
        exact ih hxw (hloc.1 x hx) (hloc'.1 x hx)
      | none =>
        obtain ⟨x, hlast⟩ := Option.isSome_iff_exists.mp
          (List.getLast?_isSome.mpr (List.cons_ne_nil c cs))
        obtain ⟨lo', hi', -, hxw⟩ := Chain.range hw x (List.mem_of_mem_getLast? hlast)
        exact ih hxw (hloc.2 hx x hlast) (hloc'.2 hx x hlast)

/-- Answers for a node are answers for its entry that decides. -/
theorem answers_child {d : ℕ} {t : Tree (d + 1)} {lo hi : ℕ} {c c' x : Child (Tree d)}
    {cs : List (Child (Tree d))} {r : ReadResult} (hw : t.WellFormed lo hi)
    (hc : t.children = c :: c' :: cs) (hx : childAt b (c :: c' :: cs) = some x) :
    Answers v t.mappings b r ↔ Answers v x.node.mappings b r := by
  rw [Tree.WellFormed, hc] at hw
  refine Answers.congr fun m hb => ⟨fun hm => ?_, fun hm => ?_⟩
  · obtain ⟨y, hy, hm⟩ := List.mem_flatMap.mp hm
    rw [hc] at hy
    exact (hw.locate Tree.wellFormed_within hy hm hb).1 x hx
  · refine List.mem_flatMap.mpr ⟨x, ?_, hm⟩
    rw [hc]
    exact childAt_mem hx

/-- Behind the last key a hole is the right answer just when it is one for the last entry. -/
theorem answers_last {d : ℕ} {t : Tree (d + 1)} {lo hi : ℕ} {c c' : Child (Tree d)}
    {cs : List (Child (Tree d))} {buf : Buffer} (hw : t.WellFormed lo hi)
    (hc : t.children = c :: c' :: cs) (hx : childAt b (c :: c' :: cs) = none) :
    Answers v t.mappings b (.hole (zeroFill v buf)) ↔
      ∀ x ∈ (c' :: cs).getLast?, ∀ m ∈ x.node.mappings, ¬ m.Contains b := by
  rw [answers_hole_iff]
  rw [Tree.WellFormed, hc] at hw
  refine ⟨fun hn x hx m hm => hn m ?_, fun hn m hm hb => ?_⟩
  · refine List.mem_flatMap.mpr ⟨x, ?_, hm⟩
    rw [hc]
    exact List.mem_cons_of_mem _ (List.mem_of_mem_getLast? hx)
  · obtain ⟨y, hy, hm⟩ := List.mem_flatMap.mp hm
    rw [hc] at hy
    have hloc := (hw.locate Tree.wellFormed_within hy hm hb).2 hx
    rw [List.getLast?_cons_cons] at hloc
    obtain ⟨x, hlast⟩ := Option.isSome_iff_exists.mp
      (List.getLast?_isSome.mpr (List.cons_ne_nil c' cs))
    exact hn x hlast m (hloc x hlast) hb

theorem walk_of_reaches {d : ℕ} {t : Tree d} {lo hi : ℕ} {buf : Buffer} {idx : ExtentIdx}
    (hhi : hi ≤ 2 ^ 32) (hw : t.WellFormed lo hi) (hs : Stored v t) (hbuf : HoldsNode buf t)
    (hr : t.Reaches b) :
    ∃ r, Loop.Ends (ext4ReadExtentStep v b) (enter buf t idx) r ∧
      Answers v t.mappings b r := by
  induction d generalizing lo hi buf idx with
  | zero =>
    refine ⟨_, (enter_leaf hbuf).mpr rfl, ?_⟩
    refine (leafResult_answers_iff hw.1 fun m hm => ?_).mpr hr
    exact (hw.2 m hm).2.1.trans hhi
  | succ d ih =>
    have hchain := hw
    rw [Tree.Reaches] at hr
    rw [Tree.WellFormed] at hchain
    rcases hc : t.children with _ | ⟨c, _ | ⟨c', cs⟩⟩
    · refine ⟨_, (enter_empty hc).mpr rfl, answers_hole_iff.mpr ?_⟩
      rw [Tree.mappings, hc]
      exact fun m hm => absurd hm List.not_mem_nil
    · rw [hc] at hr hchain
      obtain ⟨hread, hstored⟩ := hs c (by rw [hc]; exact List.mem_singleton_self c)
      obtain ⟨r, hends, hans⟩ := ih hhi hchain.2.2.1 hstored (hread buf) hr
      refine ⟨r, .again (step_single hbuf hs hc) hends, ?_⟩
      rw [mappings_single hc]
      exact hans
    · rw [hc] at hr hchain
      obtain ⟨hkey, hchild, hlast⟩ := hr
      cases hx : childAt b (c :: c' :: cs) with
      | none =>
        refine ⟨.hole (zeroFill v buf), ?_, (answers_last hw hc hx).mpr (hlast hx)⟩
        rw [enter_several hbuf hs hc hkey, hx, Option.elim_none]
      | some x =>
        have hmem : x ∈ t.children := by
          rw [hc]
          exact childAt_mem hx
        obtain ⟨hread, hstored⟩ := hs x hmem
        obtain ⟨lo', hi', hle, hxw⟩ := Chain.range hchain x (childAt_mem hx)
        obtain ⟨r, hends, hans⟩ :=
          ih (hle.trans hhi) hxw hstored (hread buf) (hchild x hx)
        refine ⟨r, ?_, (answers_child hw hc hx).mpr hans⟩
        rw [enter_several hbuf hs hc hkey, hx, Option.elim_some]
        exact hends

/-- A walk that strays below the entry it has at hand goes round for ever. -/
theorem stray_never_ends {d n : ℕ} {t : Tree d} {u : Tree n} {buf : Buffer} {block : ℕ}
    {r : ReadResult} (hu : ∀ buf, HoldsNode (ext4ReadBlock v block buf) u) (hus : Stored v u)
    (hub : u.Strays b) (hbuf : HoldsNode buf t) (hs : Stored v t) (ht : t.Strays b) :
    ¬ Loop.Ends (ext4ReadExtentStep v b) (enter buf t ⟨sentinel, block, 0⟩) r := by
  refine Loop.not_ends_of_trap (fun s => ∃ (k : ℕ) (w : Tree k) (buf' : Buffer),
    HoldsNode buf' w ∧ Stored v w ∧ w.Strays b ∧ s = enter buf' w ⟨sentinel, block, 0⟩)
    ?_ ⟨d, t, buf, hbuf, hs, ht, rfl⟩
  rintro s ⟨k, w, buf', hw, hws, hwb, rfl⟩
  cases k with
  | zero => exact absurd hwb (by simp only [Tree.Strays, not_false_eq_true])
  | succ k =>
    rw [Tree.Strays] at hwb
    rcases hc : w.children with _ | ⟨c, _ | ⟨c', cs⟩⟩
    · rw [hc] at hwb
      exact absurd hwb (by simp only [StraysChild, not_false_eq_true])
    · rw [hc] at hwb
      obtain ⟨hread, hstored⟩ := hws c (by rw [hc]; exact List.mem_singleton_self c)
      exact ⟨_, step_single hw hws hc, k, c.node, _, hread buf', hstored, hwb, rfl⟩
    · rw [hc] at hwb
      have hread := (hu buf').header
      rw [← extentIndexLeaf_lo sentinel block] at hread
      refine ⟨_, step_stray hw hc hwb rfl hread, n, u, _, ?_, hus, hub, rfl⟩
      rw [extentIndexLeaf_lo]
      exact hu buf'

/-- Where the walk neither reaches nor strays at once, it gives a wrong answer or none. -/
theorem walk_of_not_reaches {d : ℕ} {t : Tree d} {lo hi : ℕ} {buf : Buffer} {idx : ExtentIdx}
    {r : ReadResult} (hhi : hi ≤ 2 ^ 32) (hw : t.WellFormed lo hi) (hs : Stored v t)
    (hbuf : HoldsNode buf t) (hr : ¬ t.Reaches b)
    (hstray : t.Strays b → ∀ q, ¬ Loop.Ends (ext4ReadExtentStep v b) (enter buf t idx) q)
    (hends : Loop.Ends (ext4ReadExtentStep v b) (enter buf t idx) r) :
    ¬ Answers v t.mappings b r := by
  induction d generalizing lo hi buf idx with
  | zero =>
    rw [(enter_leaf hbuf).mp hends]
    intro ha
    refine hr ((leafResult_answers_iff hw.1 fun m hm => ?_).mp ha)
    exact (hw.2 m hm).2.1.trans hhi
  | succ d ih =>
    have hchain := hw
    rw [Tree.Reaches] at hr
    rw [Tree.Strays] at hstray
    rw [Tree.WellFormed] at hchain
    rcases hc : t.children with _ | ⟨c, _ | ⟨c', cs⟩⟩
    · rw [hc] at hr
      exact absurd trivial hr
    · rw [hc] at hr hchain hstray
      obtain ⟨hread, hstored⟩ := hs c (by rw [hc]; exact List.mem_singleton_self c)
      have hstep : ext4ReadExtentStep v b (enter buf t idx) = _ := step_single hbuf hs hc
      rw [mappings_single hc]
      refine ih hhi hchain.2.2.1 hstored (hread buf) hr ?_ ((Loop.ends_again_iff hstep).mp hends)
      exact fun hst q hq => hstray hst q ((Loop.ends_again_iff hstep).mpr hq)
    · rw [hc] at hr hchain hstray
      by_cases hkey : c.key ≤ b
      · rw [enter_several hbuf hs hc hkey] at hends
        cases hx : childAt b (c :: c' :: cs) with
        | none =>
          rw [hx, Option.elim_none] at hends
          rw [hends, answers_last hw hc hx]
          intro hlast
          refine hr ⟨hkey, ?_, fun _ => hlast⟩
          rw [hx]
          exact fun x hx => (by cases hx)
        | some x =>
          rw [hx, Option.elim_some] at hends
          have hmem : x ∈ t.children := by
            rw [hc]
            exact childAt_mem hx
          obtain ⟨hread, hstored⟩ := hs x hmem
          obtain ⟨lo', hi', hle, hxw⟩ := Chain.range hchain x (childAt_mem hx)
          rw [answers_child hw hc hx]
          refine ih (hle.trans hhi) hxw hstored (hread buf) ?_ ?_ hends
          · intro hxr
            refine hr ⟨hkey, ?_, fun hn => absurd (hx.symm.trans hn) (Option.some_ne_none x)⟩
            rw [hx]
            exact fun y hy => Option.some.inj hy ▸ hxr
          · exact fun hxs q => stray_never_ends hread hstored hxs (hread buf) hstored hxs
      · exact absurd hends (hstray (Nat.lt_of_not_le hkey) r)

/-- A walk that does not stray finds a block only where the tree maps it. -/
theorem walk_block {d : ℕ} {t : Tree d} {lo hi : ℕ} {buf buf' : Buffer} {idx : ExtentIdx} {p : ℕ}
    (hhi : hi ≤ 2 ^ 32) (hw : t.WellFormed lo hi) (hs : Stored v t) (hbuf : HoldsNode buf t)
    (hstray : t.Strays b → ∀ q, ¬ Loop.Ends (ext4ReadExtentStep v b) (enter buf t idx) q)
    (hends : Loop.Ends (ext4ReadExtentStep v b) (enter buf t idx) (.block p buf')) :
    ∃ m ∈ t.mappings, m.Contains b ∧ p = m.start + (b - m.block) := by
  induction d generalizing lo hi buf idx with
  | zero =>
    have hleaf := (enter_leaf hbuf).mp hends
    unfold leafResult at hleaf
    split at hleaf
    · rename_i m hf
      have hm := List.mem_of_find?_eq_some hf
      have htakes := List.find?_some (p := fun x : Mapping => x.takes b) hf
      have hend := (hw.2 m hm).2.1.trans hhi
      exact ⟨m, hm, ((Mapping.takes_iff hend).mp htakes).1, (ReadResult.block.inj hleaf).1⟩
    · cases hleaf
  | succ d ih =>
    have hchain := hw
    rw [Tree.Strays] at hstray
    rw [Tree.WellFormed] at hchain
    rcases hc : t.children with _ | ⟨c, _ | ⟨c', cs⟩⟩
    · cases (enter_empty hc).mp hends
    · rw [hc] at hchain hstray
      obtain ⟨hread, hstored⟩ := hs c (by rw [hc]; exact List.mem_singleton_self c)
      have hstep : ext4ReadExtentStep v b (enter buf t idx) = _ := step_single hbuf hs hc
      rw [mappings_single hc]
      refine ih hhi hchain.2.2.1 hstored (hread buf) ?_ ((Loop.ends_again_iff hstep).mp hends)
      exact fun hst q hq => hstray hst q ((Loop.ends_again_iff hstep).mpr hq)
    · rw [hc] at hchain hstray
      by_cases hkey : c.key ≤ b
      · rw [enter_several hbuf hs hc hkey] at hends
        cases hx : childAt b (c :: c' :: cs) with
        | none =>
          rw [hx, Option.elim_none] at hends
          cases hends
        | some x =>
          rw [hx, Option.elim_some] at hends
          have hmem : x ∈ t.children := by
            rw [hc]
            exact childAt_mem hx
          obtain ⟨hread, hstored⟩ := hs x hmem
          obtain ⟨lo', hi', hle, hxw⟩ := Chain.range hchain x (childAt_mem hx)
          obtain ⟨m, hm, hb⟩ := ih (hle.trans hhi) hxw hstored (hread buf)
            (fun hxs q => stray_never_ends hread hstored hxs (hread buf) hstored hxs) hends
          exact ⟨m, List.mem_flatMap.mpr ⟨x, hmem, hm⟩, hb⟩
      · exact absurd hends (hstray (Nat.lt_of_not_le hkey) _)

/-- The loop starts over with block 0 of the file system in its buffer. -/
def AtBlockZero (v : Volume) (b : ℕ) (buf : Buffer) (r : ReadResult) : Prop :=
  ∃ hdr, extentHeader (ext4ReadBlock v 0 buf) = some hdr ∧
    Loop.Ends (ext4ReadExtentStep v b) ⟨ext4ReadBlock v 0 buf, hdr, 0, ⟨sentinel, 0, 0⟩⟩ r

/-- A walk that strays before it has followed one of several entries goes to block 0. -/
theorem stray_ends_iff {d : ℕ} {t : Tree d} {buf : Buffer} {r : ReadResult}
    (hbuf : HoldsNode buf t) (hs : Stored v t) (ht : t.Strays b) :
    Loop.Ends (ext4ReadExtentStep v b) (enter buf t ⟨sentinel, 0, 0⟩) r ↔
      AtBlockZero v b (t.strayBuffer v buf) r := by
  induction d generalizing buf with
  | zero => exact absurd ht (by simp only [Tree.Strays, not_false_eq_true])
  | succ d ih =>
    rw [Tree.Strays] at ht
    rw [Tree.strayBuffer]
    rcases hc : t.children with _ | ⟨c, _ | ⟨c', cs⟩⟩
    · rw [hc] at ht
      exact absurd ht (by simp only [StraysChild, not_false_eq_true])
    · rw [hc] at ht
      obtain ⟨hread, hstored⟩ := hs c (by rw [hc]; exact List.mem_singleton_self c)
      rw [Loop.ends_again_iff (step_single hbuf hs hc)]
      exact ih (hread buf) hstored ht
    · rw [hc] at ht
      cases hh : extentHeader (ext4ReadBlock v 0 buf) with
      | some hdr =>
        rw [← extentIndexLeaf_lo sentinel 0] at hh
        rw [Loop.ends_again_iff (step_stray hbuf hc ht rfl hh), extentIndexLeaf_lo]
        rw [extentIndexLeaf_lo] at hh
        refine ⟨fun hends => ⟨hdr, hh, hends⟩, ?_⟩
        rintro ⟨hdr', hh', hends⟩
        obtain rfl := Option.some.inj (hh.symm.trans hh')
        exact hends
      | none =>
        refine iff_of_false (Loop.not_ends_of_none ?_) ?_
        · rw [← extentIndexLeaf_lo sentinel 0] at hh
          exact step_stray_none hbuf hc ht rfl hh
        · rintro ⟨hdr, hh', -⟩
          exact absurd (hh.symm.trans hh') (Option.some_ne_none hdr).symm

end Walk

theorem readExtentBlock_enter {v : Volume} {inode : Inode} {b d : ℕ} {t : Tree d}
    {r : ReadResult} (hroot : HoldsNode (rootBuffer inode) t) :
    Ext4ReadExtentBlock v b inode r ↔
      Loop.Ends (ext4ReadExtentStep v b) (enter (rootBuffer inode) t ⟨sentinel, 0, 0⟩) r := by
  refine ⟨?_, fun hends => ⟨_, hroot.header, hends⟩⟩
  rintro ⟨hdr, hh, hends⟩
  obtain rfl := Option.some.inj (hroot.header.symm.trans hh)
  exact hends

/-- `ext4_read_extent_block` answers right for a block of a well-formed tree just when its
walk reaches the node that decides, or when it strays to block 0 of the file system and
that, taken for a node, happens to lead to a hole. -/
theorem extent_lookup_iff (v : Volume) (inode : Inode) (b d : ℕ) (t : Tree d)
    (hw : t.WellFormed 0 (2 ^ 32)) (hroot : HoldsNode (rootBuffer inode) t) (hs : Stored v t) :
    (∃ r, Ext4ReadExtentBlock v b inode r ∧ Answers v t.mappings b r) ↔
      t.Reaches b ∨ t.Strays b ∧
        ∃ buf, AtBlockZero v b (t.strayBuffer v (rootBuffer inode)) (.hole (zeroFill v buf)) := by
  simp only [readExtentBlock_enter hroot]
  by_cases hr : t.Reaches b
  · exact iff_of_true (walk_of_reaches (le_refl _) hw hs hroot hr) (Or.inl hr)
  by_cases hst : t.Strays b
  · have hnone := hst.not_contains hw
    constructor
    · rintro ⟨r, hends, hans⟩
      obtain ⟨buf, rfl⟩ := (answers_of_none hnone).mp hans
      exact Or.inr ⟨hst, buf, (stray_ends_iff hroot hs hst).mp hends⟩
    · rintro (hr' | ⟨-, buf, hzero⟩)
      · exact absurd hr' hr
      · exact ⟨_, (stray_ends_iff hroot hs hst).mpr hzero, answers_hole_iff.mpr hnone⟩
  · refine iff_of_false ?_ (not_or.mpr ⟨hr, fun h => hst h.1⟩)
    rintro ⟨r, hends, hans⟩
    exact walk_of_not_reaches (le_refl _) hw hs hroot hr (fun h => absurd h hst) hends hans

/-! ## A root with two leaves -/

def nodeBytes (entries depth : ℕ) (rest : List (List UInt8)) : List UInt8 :=
  leBytes 2 0xf30a ++ leBytes 2 entries ++ leBytes 2 4 ++ leBytes 2 depth ++ leBytes 4 0 ++
    rest.flatten

def mappingBytes (m : Mapping) : List UInt8 :=
  leBytes 4 m.block ++ leBytes 2 m.len ++ leBytes 2 0 ++ leBytes 4 m.start

def entryBytes (key block : ℕ) : List UInt8 :=
  leBytes 4 key ++ leBytes 4 block ++ leBytes 2 0 ++ leBytes 2 0

def twoLeaves : Tree 1 :=
  .index [⟨0, 5, .leaf [⟨0, 8, 100⟩]⟩, ⟨8, 6, .leaf [⟨8, 4, 200⟩]⟩]

def twoLeavesInode : Inode where
  iMode := 0x81a4
  iSizeLo := 12288
  iSizeHigh := 0
  iFlags := 0x80000
  iBlock := ⟨⟨nodeBytes 2 1 [entryBytes 0 5, entryBytes 8 6, List.replicate 24 0]⟩, rfl⟩

/-- Blocks of 1024 bytes; the file system begins 1024 bytes into the disk. -/
def twoLeavesBlock : ℕ → List UInt8
  | 6 => nodeBytes 1 0 [mappingBytes ⟨0, 8, 100⟩]
  | 7 => nodeBytes 1 0 [mappingBytes ⟨8, 4, 200⟩]
  | _ => []

def twoLeavesVolume : Volume where
  disk := ⟨1048576, fun i => ((twoLeavesBlock (i / 1024))[i % 1024]?).getD 0⟩
  partitionOffset := 1024
  superblock := ⟨0, 1023, 0, 1, 8192, 128⟩

theorem twoLeaves_wellFormed : twoLeaves.WellFormed 0 (2 ^ 32) := by
  refine ⟨by decide, by decide, ⟨List.pairwise_singleton _ _, ?_⟩, by decide, by decide,
    ⟨List.pairwise_singleton _ _, ?_⟩, trivial⟩
  · intro m hm
    rw [List.mem_singleton.mp hm]
    decide
  · intro m hm
    rw [List.mem_singleton.mp hm]
    decide

theorem twoLeaves_root : HoldsNode (rootBuffer twoLeavesInode) twoLeaves := by
  refine ⟨rfl, fun i c hc => ?_⟩
  match i, hc with
  | 0, hc => rw [← Option.some.inj hc]; rfl
  | 1, hc => rw [← Option.some.inj hc]; rfl

theorem twoLeaves_stored : Stored twoLeavesVolume twoLeaves := by
  intro c hc
  rcases List.mem_cons.mp hc with rfl | hc
  · refine ⟨fun buf => ⟨rfl, fun i m hm => ?_⟩, trivial⟩
    match i, hm with
    | 0, hm => rw [← Option.some.inj hm]; rfl
  · rw [List.mem_singleton.mp hc]
    refine ⟨fun buf => ⟨rfl, fun i m hm => ?_⟩, trivial⟩
    match i, hm with
    | 0, hm => rw [← Option.some.inj hm]; rfl

theorem extent_lookup_twoLeaves :
    ∃ r, Ext4ReadExtentBlock twoLeavesVolume 3 twoLeavesInode r ∧
      Answers twoLeavesVolume twoLeaves.mappings 3 r := by
  refine (extent_lookup_iff twoLeavesVolume twoLeavesInode 3 1 twoLeaves twoLeaves_wellFormed
    twoLeaves_root twoLeaves_stored).mpr (Or.inl ⟨by decide, ?_, ?_⟩)
  · intro x hx m hm _
    rw [← Option.some.inj hx] at hm
    rw [List.mem_singleton.mp hm]
    decide
  · exact fun hn => absurd hn (by decide)

/-- The second leaf holds block 9, yet the lookup reports a hole. -/
theorem last_entry_not_followed :
    twoLeaves.WellFormed 0 (2 ^ 32) ∧ HoldsNode (rootBuffer twoLeavesInode) twoLeaves ∧
      Stored twoLeavesVolume twoLeaves ∧ ⟨8, 4, 200⟩ ∈ twoLeaves.mappings ∧
      Mapping.Contains ⟨8, 4, 200⟩ 9 ∧
      ∃ buf, Ext4ReadExtentBlock twoLeavesVolume 9 twoLeavesInode
        (.hole (zeroFill twoLeavesVolume buf)) := by
  refine ⟨twoLeaves_wellFormed, twoLeaves_root, twoLeaves_stored, by decide, by decide,
    rootBuffer twoLeavesInode, ⟨2, 1⟩, twoLeaves_root.header, ?_⟩
  exact (enter_several twoLeaves_root twoLeaves_stored rfl (by decide)).mpr rfl

end GammaRay.Ext4
