import Mathlib.Tactic
import Mathlib.Data.Option.Basic
import GammaRay.Total

set_option autoImplicit false

/-!
# Programs that run in step

Two programs on different states, started in related ones, are both undefined or end with
the same result in related states.
-/
namespace GammaRay.Simulation
open Total

variable {S T α β : Type} {R : S → T → Prop}

def Sim (R : S → T → Prop) (x : StateT S Option α) (y : StateT T Option α) : Prop :=
  ∀ s t, R s t → Option.Rel (fun p q => p.1 = q.1 ∧ R p.2 q.2) (x s) (y t)

theorem Sim.run {x : StateT S Option α} {y : StateT T Option α} (h : Sim R x y) {s s' : S} {t : T}
    {a : α} (hR : R s t) (hx : x s = some (a, s')) : ∃ t', y t = some (a, t') ∧ R s' t' := by
  have hrel := h s t hR
  rw [hx] at hrel
  generalize hy : y t = o at hrel
  cases hrel with
  | @some p q hq =>
    obtain ⟨b, t'⟩ := q
    obtain ⟨rfl, hR'⟩ := hq
    exact ⟨t', rfl, hR'⟩

theorem sim_pure (a : α) : Sim R (pure a) (pure a) := fun _ _ h => .some ⟨rfl, h⟩

theorem Sim.bind {x : StateT S Option α} {y : StateT T Option α} {f : α → StateT S Option β}
    {g : α → StateT T Option β} (h : Sim R x y) (hf : ∀ a, Sim R (f a) (g a)) :
    Sim R (x >>= f) (y >>= g) := by
  intro s t hR
  change Option.Rel _ (x s >>= fun p => f p.1 p.2) (y t >>= fun p => g p.1 p.2)
  have hrel := h s t hR
  generalize x s = o at hrel
  generalize y t = o' at hrel
  cases hrel with
  | none => exact .none
  | @some p q hq =>
    obtain ⟨a, s'⟩ := p
    obtain ⟨b, t'⟩ := q
    obtain ⟨rfl, hR'⟩ := hq
    exact hf a s' t' hR'

theorem Sim.ite {p : Prop} [Decidable p] {x x' : StateT S Option α} {y y' : StateT T Option α}
    (h : Sim R x y) (h' : Sim R x' y') : Sim R (if p then x else x') (if p then y else y') := by
  split
  · exact h
  · exact h'

theorem sim_forM {l : List α} {f : α → StateT S Option PUnit} {g : α → StateT T Option PUnit}
    (h : ∀ a, Sim R (f a) (g a)) : Sim R (l.forM f) (l.forM g) := by
  induction l with
  | nil => exact sim_pure _
  | cons a l ih => exact (h a).bind fun _ => ih

theorem sim_foldlM {l : List α} {f : β → α → StateT S Option β} {g : β → α → StateT T Option β}
    (h : ∀ b a, Sim R (f b a) (g b a)) (b : β) : Sim R (l.foldlM f b) (l.foldlM g b) := by
  induction l generalizing b with
  | nil => exact sim_pure _
  | cons a l ih =>
    rw [List.foldlM_cons, List.foldlM_cons]
    exact (h b a).bind ih

theorem sim_mapM {l : List α} {f : α → StateT S Option β} {g : α → StateT T Option β}
    (h : ∀ a, Sim R (f a) (g a)) : Sim R (l.mapM f) (l.mapM g) := by
  induction l with
  | nil => exact sim_pure _
  | cons a l ih =>
    rw [List.mapM_cons, List.mapM_cons]
    exact (h a).bind fun b => ih.bind fun bs => sim_pure _

/-! ## Programs along a relation -/

section Along

variable {D : Type} {At : S → D → Prop} {Q : D → D → Prop} {d : D} {x : StateT S Option α}

/-- In step with itself: the state shows what is related to `d`. -/
def Along (At : S → D → Prop) (Q : D → D → Prop) (d : D) (s t : S) : Prop :=
  t = s ∧ ∃ e, Q d e ∧ At s e

theorem Sim.yields (h : Sim (Along At Q d) x x) (hrefl : Q d d) {s : S} (hs : At s d) :
    Yields x s fun _ t => ∃ e, Q d e ∧ At t e := by
  intro a t hx
  obtain ⟨t', -, -, he⟩ := h.run ⟨rfl, d, hrefl, hs⟩ hx
  exact he

theorem sim_along (htrans : ∀ {d e f}, Q d e → Q e f → Q d f)
    (h : ∀ s e, At s e → Yields x s fun _ t => ∃ f, Q e f ∧ At t f) :
    Sim (Along At Q d) x x := by
  rintro _ s ⟨rfl, e, hde, hs⟩
  generalize hx : x s = o
  cases o with
  | none => exact .none
  | some p =>
    obtain ⟨f, hef, ht⟩ := h s e hs p.1 p.2 hx
    exact .some ⟨rfl, rfl, f, htrans hde hef, ht⟩

end Along

/-! ## Programs that do the same -/

section Steady

variable {I : S → Prop} {J J' : α → S → Prop} {K : β → S → Prop} {x y : StateT S Option α}

/-- From states with `I` the programs do the same, with the outcomes of `J`. -/
def Steady (I : S → Prop) (J : α → S → Prop) (x y : StateT S Option α) : Prop :=
  ∀ s, I s → x s = y s ∧ Yields x s J

/-- Both in one state. -/
def Same (I : S → Prop) (s t : S) : Prop := t = s ∧ I s

theorem Steady.sim (h : Steady I (fun _ => I) x y) : Sim (Same I) x y := by
  rintro s _ ⟨rfl, hs⟩
  obtain ⟨heq, hy⟩ := h _ hs
  rw [← heq]
  generalize hx : x _ = o at hy
  cases o with
  | none => exact .none
  | some p => exact .some ⟨rfl, rfl, hy p.1 p.2 hx⟩

theorem Sim.steady (h : Sim (Same I) x y) : Steady I (fun _ => I) x y := by
  intro s hs
  have hrel := h s s ⟨rfl, hs⟩
  generalize hx : x s = o at hrel
  generalize hy : y s = o' at hrel
  cases hrel with
  | none => exact ⟨rfl, fun a t ht => by cases hx.symm.trans ht⟩
  | @some p q hpq =>
    obtain ⟨h₁, h₂, hI⟩ := hpq
    refine ⟨congrArg some (Prod.ext h₁ h₂.symm), fun a t ht => ?_⟩
    obtain rfl := Option.some.inj (hx.symm.trans ht)
    exact hI

theorem steady_of_yields (h : ∀ s, I s → Yields x s J) : Steady I J x x :=
  fun s hs => ⟨rfl, h s hs⟩

theorem Steady.mono {I' : S → Prop} (h : Steady I J x y) (hI : ∀ s, I' s → I s)
    (hJ : ∀ a s, J a s → J' a s) : Steady I' J' x y :=
  fun s hs => ⟨(h s (hI s hs)).1, (h s (hI s hs)).2.mono hJ⟩

theorem Steady.bind {f g : α → StateT S Option β} (h : Steady I J x y)
    (hf : ∀ a, Steady (J a) K (f a) (g a)) : Steady I K (x >>= f) (y >>= g) := by
  intro s hs
  obtain ⟨heq, hy⟩ := h s hs
  refine ⟨?_, hy.bind fun a t ht => (hf a t ht).2⟩
  change (x s >>= fun p => f p.1 p.2) = y s >>= fun p => g p.1 p.2
  rw [← heq]
  generalize hx : x s = o at hy
  cases o with
  | none => rfl
  | some p => exact (hf p.1 p.2 (hy p.1 p.2 hx)).1

theorem Steady.ite {p : Prop} [Decidable p] {x' y' : StateT S Option α} (h : Steady I J x y)
    (h' : Steady I J x' y') : Steady I J (if p then x else x') (if p then y else y') := by
  split
  · exact h
  · exact h'

/-- A loop every round of which makes one step of what is counted. -/
theorem steady_forM {I : ℕ → S → Prop} {l : List α} {f g : α → StateT S Option PUnit} {n : ℕ}
    (h : ∀ k < l.length, ∀ a, Steady (I (n + k)) (fun _ => I (n + k + 1)) (f a) (g a)) :
    Steady (I n) (fun _ => I (n + l.length)) (l.forM f) (l.forM g) := by
  induction l generalizing n with
  | nil => exact steady_of_yields fun s hs => yields_pure hs
  | cons a l ih =>
    refine (h 0 (Nat.succ_pos _) a).bind fun _ => ?_
    rw [List.length_cons, Nat.add_comm l.length, ← Nat.add_assoc]
    refine ih fun k hk b => ?_
    rw [Nat.add_assoc n 1 k, Nat.add_comm 1 k]
    exact h (k + 1) (Nat.succ_lt_succ hk) b

end Steady

end GammaRay.Simulation
