import Mathlib.Data.List.Basic

set_option autoImplicit false

/-!
# Machines under observation

A machine takes one event at a time, and an observer notes down some of what it does. Its runs
are compared with an object that deals with the observations one after the other.
-/
namespace GammaRay.Observation

variable {S E O σ : Type}

structure Machine (S E O : Type) where
  step : S → E → Option S
  sees : S → E → List O

namespace Machine

variable (M : Machine S E O)

def run : List E → S → Option S
  | [], s => some s
  | e :: es, s => (M.step s e).bind (run es)

/-- What is observed in a run, for as long as the machine goes on. -/
def trace : List E → S → List O
  | [], _ => []
  | e :: es, s => M.sees s e ++ (M.step s e).elim [] (trace es)

variable {M}

theorem run_cons {e : E} {es : List E} {s t : S} (h : M.run (e :: es) s = some t) :
    ∃ u, M.step s e = some u ∧ M.run es u = some t :=
  Option.bind_eq_some_iff.mp h

theorem run_invariant {I : S → Prop} (hstep : ∀ s e t, I s → M.step s e = some t → I t)
    {es : List E} {s t : S} (hs : I s) (h : M.run es s = some t) : I t := by
  induction es generalizing s with
  | nil => exact Option.some.inj h ▸ hs
  | cons e es ih =>
    obtain ⟨u, hu, h⟩ := run_cons h
    exact ih (hstep s e u hs hu) h

theorem run_append (es fs : List E) (s : S) :
    M.run (es ++ fs) s = (M.run es s).bind (M.run fs) := by
  induction es generalizing s with
  | nil => rfl
  | cons e es ih =>
    rw [List.cons_append, run, run, Option.bind_assoc]
    exact congrArg _ (funext ih)

theorem trace_cons {e : E} {es : List E} {s u : S} (h : M.step s e = some u) :
    M.trace (e :: es) s = M.sees s e ++ M.trace es u := by
  rw [trace, h, Option.elim_some]

/-- An invariant that knows what was seen so far, as long as all that is seen is of some kind. -/
theorem trace_invariant {I : List O → S → Prop} {P : O → Prop}
    (hstep : ∀ seen s e t, I seen s → (∀ o ∈ M.sees s e, P o) → M.step s e = some t →
      I (seen ++ M.sees s e) t) {es : List E} {seen : List O} {s t : S} (hs : I seen s)
    (hsees : ∀ o ∈ M.trace es s, P o) (h : M.run es s = some t) :
    I (seen ++ M.trace es s) t := by
  induction es generalizing seen s with
  | nil =>
    rw [trace, List.append_nil]
    exact Option.some.inj h ▸ hs
  | cons e es ih =>
    obtain ⟨u, hu, ht⟩ := run_cons h
    rw [trace_cons hu] at hsees ⊢
    rw [← List.append_assoc]
    have hu' := hstep seen s e u hs (fun o ho => hsees o (List.mem_append_left _ ho)) hu
    exact ih hu' (fun o ho => hsees o (List.mem_append_right _ ho)) ht

/-- What is seen in a run is seen at one of its steps, in a state with the invariant. -/
theorem mem_trace {I : List E → S → Prop} {P : List E → O → Prop}
    (hstep : ∀ past s e t, I past s → M.step s e = some t → I (past ++ [e]) t)
    (hsees : ∀ past s e o, I past s → o ∈ M.sees s e → P past o)
    (hmono : ∀ past e o, P past o → P (past ++ [e]) o) {es past : List E} {s : S} {o : O}
    (hs : I past s) (ho : o ∈ M.trace es s) : P (past ++ es) o := by
  have hlater : ∀ (es past : List E), P past o → P (past ++ es) o := by
    intro es
    induction es with
    | nil => exact fun past h => (List.append_nil past).symm ▸ h
    | cons e es ih =>
      intro past h
      have hrest := ih _ (hmono past e o h)
      rwa [List.append_assoc, List.singleton_append] at hrest
  induction es generalizing past s with
  | nil => cases ho
  | cons e es ih =>
    rw [trace] at ho
    rcases List.mem_append.mp ho with ho | ho
    · exact hlater _ _ (hsees past s e o hs ho)
    · cases hu : M.step s e with
      | none =>
        rw [hu, Option.elim_none] at ho
        cases ho
      | some u =>
        rw [hu, Option.elim_some] at ho
        have hrest := ih (hstep past s e u hs hu) ho
        rwa [List.append_assoc, List.singleton_append] at hrest

end Machine

/-! ## Accounts -/

/-- A list of observations that an object can go through one by one. -/
inductive Explains (A : σ → O → σ → Prop) : σ → List O → σ → Prop where
  | nil (a : σ) : Explains A a [] a
  | cons {a b c : σ} {o : O} {os : List O} (h : A a o b) (tail : Explains A b os c) :
      Explains A a (o :: os) c

variable {A : σ → O → σ → Prop}

theorem Explains.append {a b c : σ} {os ps : List O} (h : Explains A a os b)
    (h' : Explains A b ps c) : Explains A a (os ++ ps) c := by
  induction h with
  | nil _ => exact h'
  | cons h _ ih => exact .cons h (ih h')

theorem explains_singleton {a b : σ} {o : O} (h : A a o b) : Explains A a [o] b :=
  .cons h (.nil b)

/-- A machine whose steps are explained, as long as an invariant holds, has its runs
explained. -/
theorem explains_run {M : Machine S E O} {I : S → Prop} (abs : S → σ)
    (hkeep : ∀ s e t, I s → M.step s e = some t → I t)
    (hstep : ∀ s e t, I s → M.step s e = some t → Explains A (abs s) (M.sees s e) (abs t))
    {es : List E} {s t : S} (hs : I s) (h : M.run es s = some t) :
    Explains A (abs s) (M.trace es s) (abs t) := by
  induction es generalizing s with
  | nil => exact Option.some.inj h ▸ .nil _
  | cons e es ih =>
    obtain ⟨u, hu, ht⟩ := Machine.run_cons h
    rw [Machine.trace_cons hu]
    exact (hstep s e u hs hu).append (ih (hkeep s e u hs hu) ht)

end GammaRay.Observation
