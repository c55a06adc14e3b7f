import Mathlib.Tactic

set_option autoImplicit false

/-!
# Programs that return

Correctness of programs on a state whose outcome may be undefined. `Ensures`: a program started
in a state ends with a result, and something is known of the result and of the state it leaves.
`Yields`: the same of a program that may also be undefined.
-/
namespace GammaRay.Total

variable {S α β : Type}

def Ensures (x : StateT S Option α) (s : S) (Q : α → S → Prop) : Prop :=
  ∃ a t, x s = some (a, t) ∧ Q a t

theorem Ensures.of_eq {x : StateT S Option α} {s t : S} {a : α} {Q : α → S → Prop}
    (h : x s = some (a, t)) (hq : Q a t) : Ensures x s Q :=
  ⟨a, t, h, hq⟩

theorem Ensures.mono {x : StateT S Option α} {s : S} {P Q : α → S → Prop} (h : Ensures x s P)
    (hpq : ∀ a t, P a t → Q a t) : Ensures x s Q := by
  obtain ⟨a, t, he, hp⟩ := h
  exact ⟨a, t, he, hpq a t hp⟩

theorem Ensures.and {x : StateT S Option α} {s : S} {P Q : α → S → Prop} (hp : Ensures x s P)
    (hq : Ensures x s Q) : Ensures x s fun a t => P a t ∧ Q a t := by
  obtain ⟨a, t, ht, hP⟩ := hp
  obtain ⟨b, u, hu, hQ⟩ := hq
  rw [ht, Option.some.injEq, Prod.mk.injEq] at hu
  obtain ⟨rfl, rfl⟩ := hu
  exact ⟨a, t, ht, hP, hQ⟩

theorem ensures_iff_of_eq {x : StateT S Option α} {s t : S} {a : α} {Q : α → S → Prop}
    (h : x s = some (a, t)) : Ensures x s Q ↔ Q a t := by
  constructor
  · rintro ⟨b, u, hb, hq⟩
    rw [h, Option.some.injEq, Prod.mk.injEq] at hb
    obtain ⟨rfl, rfl⟩ := hb
    exact hq
  · exact Ensures.of_eq h

theorem Ensures.congr {x : StateT S Option α} {s : S} {P Q : α → S → Prop}
    (h : ∀ a t, x s = some (a, t) → (P a t ↔ Q a t)) : Ensures x s P ↔ Ensures x s Q := by
  constructor
  · rintro ⟨a, t, ht, hp⟩
    exact ⟨a, t, ht, (h a t ht).mp hp⟩
  · rintro ⟨a, t, ht, hq⟩
    exact ⟨a, t, ht, (h a t ht).mpr hq⟩

theorem ensures_pure {a : α} {s : S} {Q : α → S → Prop} (h : Q a s) :
    Ensures (pure a : StateT S Option α) s Q :=
  ⟨a, s, rfl, h⟩

theorem bind_of_eq {x : StateT S Option α} {s t : S} {a : α} (h : x s = some (a, t))
    (f : α → StateT S Option β) : (x >>= f) s = f a t := by
  change (x s >>= fun p => f p.1 p.2) = f a t
  rw [h]
  rfl

/-- Only the outcome matters. -/
theorem Ensures.of_outcome {x y : StateT S Option α} {s t : S} {Q : α → S → Prop} (h : x s = y t)
    (hy : Ensures y t Q) : Ensures x s Q := by
  obtain ⟨a, u, hu, hq⟩ := hy
  exact ⟨a, u, h.trans hu, hq⟩

theorem ensures_iff_outcome {x y : StateT S Option α} {s t : S} {Q : α → S → Prop}
    (h : x s = y t) : Ensures x s Q ↔ Ensures y t Q :=
  ⟨.of_outcome h.symm, .of_outcome h⟩

/-- What follows a first program that returns. -/
theorem Ensures.bind_eq {x : StateT S Option α} {s : S} {P : α → S → Prop} (h : Ensures x s P) :
    ∃ a t, P a t ∧ ∀ {β : Type} (f : α → StateT S Option β), (x >>= f) s = f a t := by
  obtain ⟨a, t, he, hp⟩ := h
  exact ⟨a, t, hp, bind_of_eq he⟩

theorem Ensures.bind {x : StateT S Option α} {f : α → StateT S Option β} {s : S}
    {P : α → S → Prop} {Q : β → S → Prop} (h : Ensures x s P)
    (hf : ∀ a t, P a t → Ensures (f a) t Q) : Ensures (x >>= f) s Q := by
  obtain ⟨a, t, he, hp⟩ := h
  obtain ⟨b, u, hb, hq⟩ := hf a t hp
  exact ⟨b, u, (bind_of_eq he f).trans hb, hq⟩

/-- A first program whose outcome is known exactly. -/
theorem ensures_bind_of_eq {x : StateT S Option α} {f : α → StateT S Option β} {s t : S} {a : α}
    {Q : β → S → Prop} (h : x s = some (a, t)) (hf : Ensures (f a) t Q) :
    Ensures (x >>= f) s Q := by
  refine Ensures.bind (P := fun b u => b = a ∧ u = t) ⟨a, t, h, rfl, rfl⟩ ?_
  rintro _ _ ⟨rfl, rfl⟩
  exact hf

theorem ensures_forM {l : List α} {f : α → StateT S Option PUnit} {I : S → Prop}
    (h : ∀ a ∈ l, ∀ s, I s → Ensures (f a) s fun _ t => I t) {s : S} (hs : I s) :
    Ensures (l.forM f) s fun _ t => I t := by
  induction l generalizing s with
  | nil => exact ensures_pure hs
  | cons a l ih =>
    change Ensures (f a >>= fun _ => l.forM f) s _
    refine (h a List.mem_cons_self s hs).bind ?_
    intro _ t ht
    exact ih (fun b hb => h b (List.mem_cons_of_mem a hb)) ht

/-- A loop whose rounds are followed by a function on what they establish. -/
theorem ensures_forM_foldl {l : List α} {f : α → StateT S Option PUnit} {I : β → S → Prop}
    {g : β → α → β} (h : ∀ a ∈ l, ∀ b s, I b s → Ensures (f a) s fun _ t => I (g b a) t) {b : β}
    {s : S} (hs : I b s) : Ensures (l.forM f) s fun _ t => I (l.foldl g b) t := by
  induction l generalizing b s with
  | nil => exact ensures_pure hs
  | cons a l ih =>
    change Ensures (f a >>= fun _ => l.forM f) s _
    refine (h a List.mem_cons_self b s hs).bind ?_
    intro _ t ht
    exact ih (fun a' ha => h a' (List.mem_cons_of_mem a ha)) ht

/-- A loop over the numbers of the elements of a list. -/
theorem forM_range {l : List α} {f : ℕ → StateT S Option PUnit} {g : α → StateT S Option PUnit}
    (h : ∀ k a, l[k]? = some a → f k = g a) : (List.range l.length).forM f = l.forM g := by
  have key : ∀ i, (∀ k a, l[k]? = some a → f (i + k) = g a) →
      (List.range' i l.length).forM f = l.forM g := by
    clear h
    induction l with
    | nil => exact fun _ _ => rfl
    | cons a l ih =>
      intro i h
      have hfirst : f i = g a := h 0 a rfl
      have hrest := ih (i + 1) fun k b hb => by
        rw [Nat.add_right_comm, Nat.add_assoc]
        exact h (k + 1) b hb
      change (f i >>= fun _ => (List.range' (i + 1) l.length).forM f) =
        (g a >>= fun _ => l.forM g)
      rw [hfirst, hrest]
  rw [List.range_eq_range']
  exact key 0 fun k a hk => by rw [Nat.zero_add]; exact h k a hk

theorem ensures_mapM {l : List α} {bs : List β} {f : α → StateT S Option β} {I : S → Prop}
    (h : List.Forall₂ (fun a b => ∀ s, I s → Ensures (f a) s fun x t => x = b ∧ I t) l bs) {s : S}
    (hs : I s) : Ensures (l.mapM f) s fun xs t => xs = bs ∧ I t := by
  induction h generalizing s with
  | nil => exact ensures_pure ⟨rfl, hs⟩
  | cons ha _ ih =>
    rw [List.mapM_cons]
    refine (ha s hs).bind ?_
    rintro _ t ⟨rfl, ht⟩
    refine (ih ht).bind ?_
    rintro _ u ⟨rfl, hu⟩
    exact ensures_pure ⟨rfl, hu⟩

/-! ## Programs that may be undefined -/

def Yields (x : StateT S Option α) (s : S) (Q : α → S → Prop) : Prop :=
  ∀ a t, x s = some (a, t) → Q a t

theorem Ensures.yields {x : StateT S Option α} {s : S} {Q : α → S → Prop} (h : Ensures x s Q) :
    Yields x s Q := by
  intro a t hx
  obtain ⟨b, u, hb, hq⟩ := h
  rw [hx, Option.some.injEq, Prod.mk.injEq] at hb
  obtain ⟨rfl, rfl⟩ := hb
  exact hq

theorem yields_pure {a : α} {s : S} {Q : α → S → Prop} (h : Q a s) :
    Yields (pure a : StateT S Option α) s Q :=
  (ensures_pure h).yields

theorem Yields.mono {x : StateT S Option α} {s : S} {P Q : α → S → Prop} (h : Yields x s P)
    (hpq : ∀ a t, P a t → Q a t) : Yields x s Q :=
  fun a t hx => hpq a t (h a t hx)

theorem Yields.bind {x : StateT S Option α} {f : α → StateT S Option β} {s : S}
    {P : α → S → Prop} {Q : β → S → Prop} (h : Yields x s P)
    (hf : ∀ a t, P a t → Yields (f a) t Q) : Yields (x >>= f) s Q := by
  intro b u hb
  obtain ⟨⟨a, t⟩, hx, hfa⟩ := Option.bind_eq_some_iff.mp hb
  exact hf a t (h a t hx) b u hfa

theorem Yields.of_outcome {x y : StateT S Option α} {s t : S} {Q : α → S → Prop} (h : x s = y t)
    (hy : Yields y t Q) : Yields x s Q :=
  fun a u hu => hy a u (h.symm.trans hu)

theorem yields_forM {l : List α} {f : α → StateT S Option PUnit} {I : S → Prop}
    (h : ∀ a ∈ l, ∀ s, I s → Yields (f a) s fun _ t => I t) {s : S} (hs : I s) :
    Yields (l.forM f) s fun _ t => I t := by
  induction l generalizing s with
  | nil => exact yields_pure hs
  | cons a l ih =>
    change Yields (f a >>= fun _ => l.forM f) s _
    refine (h a List.mem_cons_self s hs).bind ?_
    intro _ t ht
    exact ih (fun b hb => h b (List.mem_cons_of_mem a hb)) ht

/-- A loop that collects what it has gone through. -/
theorem yields_forM_append {l : List α} {f : α → StateT S Option PUnit} {I : List α → S → Prop}
    (h : ∀ a ∈ l, ∀ done s, I done s → Yields (f a) s fun _ t => I (done ++ [a]) t)
    {done : List α} {s : S} (hs : I done s) :
    Yields (l.forM f) s fun _ t => I (done ++ l) t := by
  induction l generalizing done s with
  | nil =>
    rw [List.append_nil]
    exact yields_pure hs
  | cons a l ih =>
    change Yields (f a >>= fun _ => l.forM f) s _
    refine (h a List.mem_cons_self done s hs).bind ?_
    intro _ t ht
    rw [List.append_cons]
    exact ih (fun b hb => h b (List.mem_cons_of_mem a hb)) ht

theorem yields_mapM {γ : Type} {l : List α} {f : α → StateT S Option β} {g : α → γ} {h : β → γ}
    {I : S → Prop} (hf : ∀ a ∈ l, ∀ s, I s → Yields (f a) s fun b t => h b = g a ∧ I t) {s : S}
    (hs : I s) : Yields (l.mapM f) s fun bs t => bs.map h = l.map g ∧ I t := by
  induction l generalizing s with
  | nil => exact yields_pure ⟨rfl, hs⟩
  | cons a l ih =>
    rw [List.mapM_cons]
    refine (hf a List.mem_cons_self s hs).bind ?_
    rintro b t ⟨hb, ht⟩
    refine (ih (fun a' ha => hf a' (List.mem_cons_of_mem a ha)) ht).bind ?_
    rintro bs u ⟨hbs, hu⟩
    refine yields_pure ⟨?_, hu⟩
    rw [List.map_cons, List.map_cons, hb, hbs]

theorem yields_foldlM {l : List α} {f : β → α → StateT S Option β} {I : β → S → Prop}
    (h : ∀ a ∈ l, ∀ b s, I b s → Yields (f b a) s I) {b : β} {s : S} (hs : I b s) :
    Yields (l.foldlM f b) s I := by
  induction l generalizing b s with
  | nil => exact yields_pure hs
  | cons a l ih =>
    rw [List.foldlM_cons]
    refine (h a List.mem_cons_self b s hs).bind ?_
    intro b' t ht
    exact ih (fun a' ha => h a' (List.mem_cons_of_mem a ha)) ht

/-! ## Rounds -/

/-- A loop of which every round has to do as `round` says, and leave what `Q` says. -/
def Rounds (round : β → α → S → (β → S → Prop) → Prop) (Q : S → Prop) : List α → β → S → Prop
  | [], _, s => Q s
  | a :: l, b, s => round b a s (Rounds round Q l)

theorem rounds_map {γ : Type} (round : β → α → S → (β → S → Prop) → Prop) (Q : S → Prop)
    (g : γ → α) (l : List γ) :
    Rounds round Q (l.map g) = Rounds (fun b a => round b (g a)) Q l := by
  induction l with
  | nil => rfl
  | cons a l ih =>
    funext b s
    exact congrArg (round b (g a) s) ih

/-- Two descriptions of the rounds that come to the same as long as an invariant holds, which may
mention what the loop has gone through. -/
theorem rounds_iff {round round' : β → α → S → (β → S → Prop) → Prop} {Q Q' : S → Prop}
    {I : List α → β → S → Prop} {l : List α}
    (hround : ∀ a ∈ l, ∀ done b s K K', I done b s →
      (∀ b' t, I (done ++ [a]) b' t → (K b' t ↔ K' b' t)) → (round b a s K ↔ round' b a s K'))
    {done : List α} (hend : ∀ b s, I (done ++ l) b s → (Q s ↔ Q' s)) {b : β} {s : S}
    (hs : I done b s) : Rounds round Q l b s ↔ Rounds round' Q' l b s := by
  induction l generalizing done b s with
  | nil =>
    rw [List.append_nil] at hend
    exact hend b s hs
  | cons a l ih =>
    refine hround a List.mem_cons_self done b s _ _ hs fun b' t ht => ?_
    refine ih (fun a' ha => hround a' (List.mem_cons_of_mem a ha)) (fun b'' u hu => ?_) ht
    rw [List.append_assoc] at hu
    exact hend b'' u hu

/-- The loop itself. -/
theorem Rounds.foldlM {f : β → α → StateT S Option β} {R : α → S → S → Prop} {Q : S → Prop}
    {I : List α → S → Prop} {whole : List α}
    (hstep : ∀ done a rest, done ++ a :: rest = whole → ∀ s t, I done s → R a s t →
      I (done ++ [a]) t) {l done : List α} (hwhole : done ++ l = whole) {b : β} {s : S}
    (hs : I done s)
    (h : Rounds (fun b a s K => Ensures (f b a) s fun b' t => R a s t ∧ K b' t) Q l b s) :
    Ensures (l.foldlM f b) s fun _ t => I whole t ∧ Q t := by
  induction l generalizing done b s with
  | nil =>
    rw [List.append_nil] at hwhole
    rw [← hwhole]
    exact ensures_pure ⟨hs, h⟩
  | cons a l ih =>
    rw [List.foldlM_cons]
    refine Ensures.bind h fun b' t ht => ?_
    refine ih ?_ (hstep done a l hwhole s t hs ht.1) ht.2
    rw [List.append_assoc]
    exact hwhole

/-! ## Outcomes that may be undefined -/

def Gives (x : Option α) (Q : α → Prop) : Prop := ∀ a, x = some a → Q a

theorem gives_some {a : α} {Q : α → Prop} (h : Q a) : Gives (some a) Q := by
  intro b hb
  rwa [← Option.some.inj hb]

theorem gives_none {Q : α → Prop} : Gives none Q := nofun

theorem Gives.bind {x : Option α} {f : α → Option β} {P : α → Prop} {Q : β → Prop}
    (h : Gives x P) (hf : ∀ a, P a → Gives (f a) Q) : Gives (x >>= f) Q := by
  intro b hb
  obtain ⟨a, ha, hfa⟩ := Option.bind_eq_some_iff.mp hb
  exact hf a (h a ha) b hfa

/-- A first outcome that does not matter. -/
theorem gives_bind {x : Option α} {f : α → Option β} {Q : β → Prop} (hf : ∀ a, Gives (f a) Q) :
    Gives (x >>= f) Q :=
  Gives.bind (P := fun _ => True) (fun _ _ => trivial) fun a _ => hf a

theorem Gives.ite {p : Prop} [Decidable p] {x y : Option α} {Q : α → Prop} (hx : Gives x Q)
    (hy : Gives y Q) : Gives (if p then x else y) Q := by
  split
  · exact hx
  · exact hy

end GammaRay.Total
