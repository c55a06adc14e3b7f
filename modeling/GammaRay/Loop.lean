import Mathlib.Tactic

set_option autoImplicit false

/-!
# Loops whose end is not a matter of course

A loop body maps a state to `inl` of the next state, to `inr` of a result, or to `none`
when the iteration has no defined outcome. `Ends` is the relation of a loop to its result.
A resumable loop works off an input to which more can be added between two runs.
-/
namespace GammaRay.Loop

theorem bind_of_some {α β : Type} {x : Option α} {a : α} (h : x = some a) (f : α → Option β) :
    (x >>= f) = f a := by
  rw [h, Option.bind_eq_bind, Option.bind_some]

theorem bind_of_none {α β : Type} {x : Option α} (h : x = none) (f : α → Option β) :
    (x >>= f) = none := by
  rw [h, Option.bind_eq_bind, Option.bind_none]

variable {S R : Type*} {body : S → Option (S ⊕ R)}

inductive Ends (body : S → Option (S ⊕ R)) : S → R → Prop where
  | leave {s : S} {r : R} (h : body s = some (.inr r)) : Ends body s r
  | again {s t : S} {r : R} (h : body s = some (.inl t)) (tail : Ends body t r) : Ends body s r

theorem Ends.unique {s : S} {r q : R} (hr : Ends body s r) (hq : Ends body s q) : r = q := by
  induction hr with
  | leave h =>
    cases hq with
    | leave h' => simpa [h] using h'
    | again h' _ => simp [h] at h'
  | again h _ ih =>
    cases hq with
    | leave h' => simp [h] at h'
    | again h' tail =>
      rw [h, Option.some.injEq, Sum.inl.injEq] at h'
      subst h'
      exact ih tail

theorem ends_leave_iff {s : S} {r q : R} (h : body s = some (.inr r)) :
    Ends body s q ↔ q = r := by
  constructor
  · intro hq
    exact hq.unique (.leave h)
  · rintro rfl
    exact .leave h

theorem ends_again_iff {s t : S} {r : R} (h : body s = some (.inl t)) :
    Ends body s r ↔ Ends body t r := by
  constructor
  · intro hr
    cases hr with
    | leave h' => simp [h] at h'
    | again h' tail =>
      rw [h, Option.some.injEq, Sum.inl.injEq] at h'
      rwa [h']
  · exact .again h

theorem not_ends_of_none {s : S} {r : R} (h : body s = none) : ¬ Ends body s r := by
  intro hr
  cases hr with
  | leave h' => simp [h] at h'
  | again h' _ => simp [h] at h'

/-- A loop that stays among states from which it goes on never ends. -/
theorem not_ends_of_trap (I : S → Prop) (hI : ∀ s, I s → ∃ t, body s = some (.inl t) ∧ I t)
    {s : S} {r : R} (hs : I s) : ¬ Ends body s r := by
  intro h
  induction h with
  | leave h =>
    obtain ⟨t, ht, -⟩ := hI _ hs
    simp [h] at ht
  | again h _ ih =>
    obtain ⟨t, ht, hIt⟩ := hI _ hs
    rw [h, Option.some.injEq, Sum.inl.injEq] at ht
    exact ih (ht ▸ hIt)

/-- Loops whose bodies do the same under a map of states and of results end alike. -/
theorem ends_map_iff {S' R' : Type*} {body' : S' → Option (S' ⊕ R')} (f : S → S') (g : R → R')
    (h : ∀ s, body' (f s) = (body s).map (Sum.map f g)) {s : S} {q : R'} :
    Ends body' (f s) q ↔ ∃ r, q = g r ∧ Ends body s r := by
  constructor
  · intro hq
    generalize hu : f s = u at hq
    induction hq generalizing s with
    | leave h' =>
      rw [← hu, h, Option.map_eq_some_iff] at h'
      obtain ⟨x | r, hx, hr⟩ := h'
      · cases hr
      · exact ⟨r, (Sum.inr.inj hr).symm, .leave hx⟩
    | again h' _ ih =>
      rw [← hu, h, Option.map_eq_some_iff] at h'
      obtain ⟨t | r, ht, hr⟩ := h'
      · obtain ⟨r, hq, hr⟩ := ih (Sum.inl.inj hr)
        exact ⟨r, hq, .again ht hr⟩
      · cases hr
  · rintro ⟨r, rfl, hr⟩
    induction hr with
    | leave h' => exact .leave (by rw [h, h']; rfl)
    | again h' _ ih => exact .again (by rw [h, h']; rfl) ih

/-- The outcome of an iteration is all that matters about the state it starts from. -/
theorem ends_congr {s t : S} {r : R} (h : body s = body t) :
    Ends body s r ↔ Ends body t r := by
  have key : ∀ {u v : S}, body u = body v → Ends body u r → Ends body v r := by
    intro u v huv hu
    cases hu with
    | leave h' => exact .leave (huv ▸ h')
    | again h' tail => exact .again (huv ▸ h') tail
  exact ⟨key h, key h.symm⟩

/-- The iterations from one state to another. -/
inductive Leads (body : S → Option (S ⊕ R)) : S → S → Prop where
  | refl (s : S) : Leads body s s
  | step {s t u : S} (h : body s = some (.inl t)) (tail : Leads body t u) : Leads body s u

theorem Leads.next {s t u : S} (h : Leads body s t) (hu : body t = some (.inl u)) :
    Leads body s u := by
  induction h with
  | refl s => exact .step hu (.refl u)
  | step h _ ih => exact .step h (ih hu)

theorem Ends.of_leads {s t : S} {r : R} (h : Ends body s r) (ht : Leads body s t) :
    Ends body t r := by
  induction ht with
  | refl => exact h
  | step hs _ ih => exact ih ((ends_again_iff hs).mp h)

/-- A loop that stops nowhere but in states of a kind, and otherwise gets nearer to zero,
comes to such a state. -/
theorem leads_of_measure (Halts : S → Prop) (μ : S → ℕ) {s : S}
    (h : ∀ t, Leads body s t → Halts t ∨ ∃ u, body t = some (.inl u) ∧ μ u < μ t) :
    ∃ t, Leads body s t ∧ Halts t := by
  have key : ∀ n t, Leads body s t → μ t ≤ n → ∃ u, Leads body s u ∧ Halts u := by
    intro n
    induction n with
    | zero =>
      intro t ht hn
      rcases h t ht with hh | ⟨u, -, hlt⟩
      · exact ⟨t, ht, hh⟩
      · omega
    | succ n ih =>
      intro t ht hn
      rcases h t ht with hh | ⟨u, hu, hlt⟩
      · exact ⟨t, ht, hh⟩
      · exact ih u (ht.next hu) (by omega)
  exact key (μ s) s (.refl s) le_rfl

/-- From a trap, no state is reached but those of the trap. -/
theorem Leads.trapped (I : S → Prop) (hI : ∀ s t, I s → body s = some (.inl t) → I t) {s t : S}
    (h : Leads body s t) (hs : I s) : I t := by
  induction h with
  | refl => exact hs
  | step h _ ih => exact ih (hI _ _ hs h)

/-- A run to a state at which the loop cannot go on passes through every state led to. -/
theorem Leads.through {s t u : S} (hu : Leads body s u) (hstop : ∀ v, body u ≠ some (.inl v))
    (ht : Leads body s t) : Leads body t u := by
  induction ht with
  | refl => exact hu
  | step h _ ih =>
    cases hu with
    | refl => exact absurd h (hstop _)
    | step h' tail =>
      rw [h, Option.some.injEq, Sum.inl.injEq] at h'
      exact ih (h' ▸ tail)

theorem Leads.trans {s t u : S} (h : Leads body s t) (ht : Leads body t u) :
    Leads body s u := by
  induction h with
  | refl => exact ht
  | step h _ ih => exact .step h (ih ht)

theorem Leads.ends {s t : S} {r : R} (h : Leads body s t) (ht : Ends body t r) :
    Ends body s r := by
  induction h with
  | refl => exact ht
  | step h _ ih => exact .again h (ih ht)

section Termination

/-- The loop ends after at most so many iterations. -/
inductive EndsWithin (body : S → Option (S ⊕ R)) : ℕ → S → Prop where
  | leave {n : ℕ} {s : S} {r : R} (h : body s = some (.inr r)) : EndsWithin body n s
  | again {n : ℕ} {s t : S} (h : body s = some (.inl t)) (tail : EndsWithin body n t) :
      EndsWithin body (n + 1) s

theorem EndsWithin.ends {n : ℕ} {s : S} (h : EndsWithin body n s) : ∃ r, Ends body s r := by
  induction h with
  | leave h => exact ⟨_, .leave h⟩
  | again h _ ih =>
    obtain ⟨r, hr⟩ := ih
    exact ⟨r, .again h hr⟩

/-- A measure that every iteration lowers bounds their number. -/
theorem endsWithin_of_measure (μ : S → ℕ) {n : ℕ} {s : S} (hn : μ s ≤ n)
    (h : ∀ t, Leads body s t →
      (∃ r, body t = some (.inr r)) ∨ ∃ u, body t = some (.inl u) ∧ μ u < μ t) :
    EndsWithin body n s := by
  have key : ∀ n t, Leads body s t → μ t ≤ n → EndsWithin body n t := by
    intro n
    induction n with
    | zero =>
      intro t ht hn
      rcases h t ht with ⟨r, hr⟩ | ⟨u, -, hlt⟩
      · exact .leave hr
      · omega
    | succ n ih =>
      intro t ht hn
      rcases h t ht with ⟨r, hr⟩ | ⟨u, hu, hlt⟩
      · exact .leave hr
      · exact .again hu (ih u (ht.next hu) (by omega))
  exact key n s (.refl s) hn

/-- The loop comes to a state from which no other follows. -/
def Stops (body : S → Option (S ⊕ R)) (s : S) : Prop :=
  ∃ t, Leads body s t ∧ ∀ u, body t ≠ some (.inl u)

theorem Ends.stops {s : S} {r : R} (h : Ends body s r) : Stops body s := by
  induction h with
  | @leave s r h =>
    refine ⟨s, .refl s, fun u hu => ?_⟩
    rw [h] at hu
    cases hu
  | again h _ ih =>
    obtain ⟨t, ht, hstop⟩ := ih
    exact ⟨t, .step h ht, hstop⟩

theorem Stops.ends {s : S} (h : Stops body s) (hdef : ∀ t, Leads body s t → body t ≠ none) :
    ∃ r, Ends body s r := by
  obtain ⟨t, ht, hstop⟩ := h
  match hb : body t with
  | none => exact absurd hb (hdef t ht)
  | some (.inl u) => exact absurd hb (hstop u)
  | some (.inr r) => exact ⟨r, ht.ends (.leave hb)⟩

/-- No state is met twice. -/
def NoReturn (body : S → Option (S ⊕ R)) (s : S) : Prop :=
  ∀ t u, Leads body s t → body t = some (.inl u) → ¬ Leads body u t

theorem Stops.noReturn {s : S} (h : Stops body s) : NoReturn body s := by
  obtain ⟨stop, hs, hstop⟩ := h
  intro t u ht hu hback
  have hcycle : ∀ x y, Leads body x t → body x = some (.inl y) → Leads body y t := by
    intro x y hx hy
    cases hx with
    | refl =>
      rw [hu, Option.some.injEq, Sum.inl.injEq] at hy
      exact hy ▸ hback
    | step h' tail =>
      rw [h', Option.some.injEq, Sum.inl.injEq] at hy
      exact hy ▸ tail
  have hlast : Leads body stop t :=
    (hs.through hstop ht).trapped (fun x => Leads body x t) hcycle (.refl t)
  cases hlast with
  | refl => exact hstop u hu
  | step h' _ => exact hstop _ h'

/-- Among finitely many states, a loop that does not stop comes back. -/
theorem stops_iff_noReturn {s : S} (hfin : {t | Leads body s t}.Finite) :
    Stops body s ↔ NoReturn body s := by
  refine ⟨Stops.noReturn, fun hno => ?_⟩
  refine leads_of_measure (fun t => ∀ u, body t ≠ some (.inl u))
    (fun t => {u | Leads body t u}.ncard) fun t ht => ?_
  by_cases hstop : ∀ u, body t ≠ some (.inl u)
  · exact .inl hstop
  · simp only [not_forall, not_not] at hstop
    obtain ⟨u, hu⟩ := hstop
    have hfin' : {x | Leads body t x}.Finite := hfin.subset fun x hx => ht.trans hx
    refine .inr ⟨u, hu, Set.ncard_lt_ncard ⟨fun x hx => Leads.step hu hx, fun hsub => ?_⟩ hfin'⟩
    exact hno t u ht hu (hsub (Leads.refl t))

end Termination

section Resumable

variable {α : Type*} {body : S → Option (S ⊕ S)}

/-- How an iteration takes more input: it does the same and leaves the rest, or it gave
up for want of input and starts over. `closed` states get no further run. -/
inductive Grown (body : S → Option (S ⊕ S)) (add : S → List α → S) (closed : S → Prop) (s : S)
    (b : List α) : Prop where
  | stuck (h : body s = none) (hb : body (add s b) = none)
  | again (t : S) (h : body s = some (.inl t)) (hb : body (add s b) = some (.inl (add t b)))
  | leaveClosed (t : S) (ht : closed t) (h : body s = some (.inr t))
      (hb : body (add s b) = some (.inr t))
  | leaveOpen (t : S) (ht : ¬ closed t) (h : body s = some (.inr t))
      (hb : body (add s b) = body (add t b))

structure Resumable (body : S → Option (S ⊕ S)) (add : S → List α → S) (closed : S → Prop) :
    Prop where
  add_add : ∀ s a b, add (add s a) b = add s (a ++ b)
  grown : ∀ s b, Grown body add closed s b

/-- One more piece of input arrives and the loop runs. -/
def Delivers (body : S → Option (S ⊕ S)) (add : S → List α → S) (closed : S → Prop) (s : S)
    (a : List α) (r : S) : Prop :=
  (closed s ∧ r = s) ∨ (¬ closed s ∧ Ends body (add s a) r)

/-- The pieces arrive one after the other. -/
inductive Serves (body : S → Option (S ⊕ S)) (add : S → List α → S) (closed : S → Prop) :
    S → List (List α) → S → Prop where
  | nil (s : S) : Serves body add closed s [] s
  | cons {s t r : S} {a : List α} {rest : List (List α)} (h : Delivers body add closed s a t)
      (tail : Serves body add closed t rest r) : Serves body add closed s (a :: rest) r

variable {add : S → List α → S} {closed : S → Prop}

theorem Resumable.ends_add (hb : Resumable body add closed) {s t : S} (b : List α)
    (h : Ends body s t) (r : S) :
    Ends body (add s b) r ↔ Delivers body add closed t b r := by
  induction h with
  | @leave s t h =>
    cases hb.grown s b with
    | stuck h' _ => simp [h] at h'
    | again _ h' _ => simp [h] at h'
    | leaveClosed u hu h' hadd =>
      rw [h, Option.some.injEq, Sum.inr.injEq] at h'
      subst h'
      rw [ends_leave_iff hadd]
      simp [Delivers, hu]
    | leaveOpen u hu h' hadd =>
      rw [h, Option.some.injEq, Sum.inr.injEq] at h'
      subst h'
      rw [ends_congr hadd]
      simp [Delivers, hu]
  | @again s t r h _ ih =>
    cases hb.grown s b with
    | stuck h' _ => simp [h] at h'
    | again u h' hadd =>
      rw [h, Option.some.injEq, Sum.inl.injEq] at h'
      rw [ends_again_iff hadd, ← h', ih]
    | leaveClosed _ _ h' _ => simp [h] at h'
    | leaveOpen _ _ h' _ => simp [h] at h'

/-- A loop that ends with more input ends with less. -/
theorem Resumable.ends_of_add (hb : Resumable body add closed) {s r : S} (b : List α)
    (h : Ends body (add s b) r) : ∃ t, Ends body s t := by
  generalize hu : add s b = u at h
  induction h generalizing s with
  | leave h =>
    subst hu
    cases hb.grown s b with
    | stuck _ hadd => simp [hadd] at h
    | again _ _ hadd => simp [hadd] at h
    | leaveClosed t _ h' _ => exact ⟨t, .leave h'⟩
    | leaveOpen t _ h' _ => exact ⟨t, .leave h'⟩
  | again h _ ih =>
    subst hu
    cases hb.grown s b with
    | stuck _ hadd => simp [hadd] at h
    | again t h' hadd =>
      rw [hadd, Option.some.injEq, Sum.inl.injEq] at h
      obtain ⟨q, hq⟩ := ih h
      exact ⟨q, .again h' hq⟩
    | leaveClosed t _ h' _ => exact ⟨t, .leave h'⟩
    | leaveOpen t _ h' _ => exact ⟨t, .leave h'⟩

theorem Resumable.delivers_append (hb : Resumable body add closed) (s : S) (a b : List α)
    (r : S) :
    Delivers body add closed s (a ++ b) r ↔
      ∃ t, Delivers body add closed s a t ∧ Delivers body add closed t b r := by
  by_cases hc : closed s
  · simp [Delivers, hc]
  · constructor
    · rintro (⟨hcs, -⟩ | ⟨-, h⟩)
      · exact absurd hcs hc
      · rw [← hb.add_add] at h
        obtain ⟨t, ht⟩ := hb.ends_of_add b h
        exact ⟨t, .inr ⟨hc, ht⟩, (hb.ends_add b ht r).mp h⟩
    · rintro ⟨t, ⟨hcs, -⟩ | ⟨-, ht⟩, hr⟩
      · exact absurd hcs hc
      · refine .inr ⟨hc, ?_⟩
        rw [← hb.add_add]
        exact (hb.ends_add b ht r).mpr hr

/-- How an input is cut into pieces does not matter to a resumable loop. -/
theorem Resumable.serves_iff (hb : Resumable body add closed) (s : S) (a : List α)
    (rest : List (List α)) (r : S) :
    Serves body add closed s (a :: rest) r ↔
      Delivers body add closed s (a ++ rest.flatten) r := by
  induction rest generalizing s a with
  | nil =>
    rw [List.flatten_nil, List.append_nil]
    constructor
    · intro h
      cases h with
      | cons h tail =>
        cases tail
        exact h
    · intro h
      exact .cons h (.nil r)
  | cons b rest ih =>
    rw [List.flatten_cons, hb.delivers_append]
    constructor
    · intro h
      cases h with
      | cons h tail => exact ⟨_, h, (ih _ b).mp tail⟩
    · rintro ⟨t, h, tail⟩
      exact .cons h ((ih t b).mpr tail)

theorem Delivers.unique {s r q : S} {a : List α} (hr : Delivers body add closed s a r)
    (hq : Delivers body add closed s a q) : r = q := by
  rcases hr with ⟨hc, rfl⟩ | ⟨hc, hr⟩ <;> rcases hq with ⟨hc', rfl⟩ | ⟨hc', hq⟩
  · rfl
  · exact absurd hc hc'
  · exact absurd hc' hc
  · exact hr.unique hq

end Resumable

end GammaRay.Loop
