import Mathlib.Tactic

set_option autoImplicit false

/-!
# Lists brought up to date by segments

A list of length `m` is given segments of consecutive positions. What a segment says of
positions below `m` replaces what is there, the rest is appended behind as much filling as lies
between `m` and the segment. The length `m` is looked up once, before the first segment.
-/
namespace GammaRay

structure Segment (α : Type*) where
  first : ℕ
  len : ℕ
  value : ℕ → α

namespace Segment

variable {α : Type*}

/-- The first position behind the segment. -/
def stop (s : Segment α) : ℕ := s.first + s.len

/-- What is appended for a position from `m` on. -/
def textAt (hole : α) (s : Segment α) (p : ℕ) : α :=
  if p < s.first then hole else s.value (p - s.first)

def putAt (m : ℕ) (l : List α) (p : ℕ) (x : α) : List α :=
  if p < m then l.set p x else l ++ [x]

theorem le_length_putAt {m : ℕ} {l : List α} (hl : m ≤ l.length) (p : ℕ) (x : α) :
    m ≤ (putAt m l p x).length := by
  rw [putAt]
  split
  · rwa [List.length_set]
  · rw [List.length_append]
    omega

def extend (hole : α) (m : ℕ) (l : List α) (s : Segment α) : List α :=
  (List.range s.len).foldl (fun l i => putAt m l (i + s.first) (s.value i))
    (l ++ List.replicate (s.first - m) hole)

def extendAll (hole : α) (m : ℕ) (l : List α) (segments : List (Segment α)) : List α :=
  segments.foldl (extend hole m) l

/-- What a segment, as far as its first `n` positions go, adds to the list. -/
def tail (hole : α) (m : ℕ) (s : Segment α) (n : ℕ) : List α :=
  (List.range (s.first + n - m)).map fun j => s.textAt hole (m + j)

variable {hole : α} {m : ℕ} {l : List α} {s : Segment α}

theorem tail_zero : s.tail hole m 0 = List.replicate (s.first - m) hole := by
  rw [tail, Nat.add_zero]
  refine List.eq_replicate_iff.mpr ⟨by rw [List.length_map, List.length_range], ?_⟩
  intro x hx
  obtain ⟨j, hj, rfl⟩ := List.mem_map.mp hx
  have hlt := List.mem_range.mp hj
  exact if_pos (by omega)

theorem tail_succ_of_lt {n : ℕ} (h : n + s.first < m) :
    s.tail hole m (n + 1) = s.tail hole m n := by
  have h₁ : s.first + (n + 1) - m = 0 := by omega
  have h₂ : s.first + n - m = 0 := by omega
  rw [tail, tail, h₁, h₂]

theorem tail_succ_of_ge {n : ℕ} (h : m ≤ n + s.first) :
    s.tail hole m (n + 1) = s.tail hole m n ++ [s.value n] := by
  have hlast : m + (s.first + n - m) = s.first + n := by omega
  have hsucc : s.first + (n + 1) - m = s.first + n - m + 1 := by omega
  rw [tail, tail, hsucc, List.range_succ, List.map_append, List.map_singleton, hlast, textAt,
    if_neg (by omega), Nat.add_sub_cancel_left]

/-- The list after the first `n` positions of a segment. -/
def extendTo (hole : α) (m : ℕ) (l : List α) (s : Segment α) (n : ℕ) : List α :=
  (List.range n).foldl (fun l i => putAt m l (i + s.first) (s.value i))
    (l ++ List.replicate (s.first - m) hole)

theorem extendTo_succ (n : ℕ) : extendTo hole m l s (n + 1) =
    putAt m (extendTo hole m l s n) (n + s.first) (s.value n) := by
  rw [extendTo, List.range_succ, List.foldl_append]
  rfl

theorem extendTo_drop (hl : m ≤ l.length) (n : ℕ) :
    m ≤ (extendTo hole m l s n).length ∧
      (extendTo hole m l s n).drop m = l.drop m ++ s.tail hole m n := by
  induction n with
  | zero =>
    rw [tail_zero]
    change m ≤ (l ++ _).length ∧ (l ++ _).drop m = _
    rw [List.length_append, List.drop_append_of_le_length hl]
    exact ⟨by omega, rfl⟩
  | succ n ih =>
    obtain ⟨hlen, hdrop⟩ := ih
    rw [extendTo_succ, putAt]
    split
    · rename_i hlt
      rw [List.length_set, List.drop_set_of_lt hlt, hdrop, tail_succ_of_lt hlt]
      exact ⟨hlen, rfl⟩
    · rename_i hge
      rw [List.length_append, List.drop_append_of_le_length hlen, hdrop,
        tail_succ_of_ge (Nat.le_of_not_lt hge), List.append_assoc]
      exact ⟨by omega, rfl⟩

theorem extendTo_below (hl : m ≤ l.length) (n : ℕ) {p : ℕ} (hp : p < m) :
    (extendTo hole m l s n)[p]? =
      if s.first ≤ p ∧ p < s.first + n then some (s.value (p - s.first)) else l[p]? := by
  induction n with
  | zero =>
    rw [if_neg (by omega)]
    exact List.getElem?_append_left (by omega)
  | succ n ih =>
    have hlen := (@extendTo_drop α hole m l s hl n).1
    rw [extendTo_succ, putAt]
    by_cases heq : p = n + s.first
    · rw [if_pos (by omega), if_pos (by omega), ← heq, List.getElem?_set_self (by omega), heq,
        Nat.add_sub_cancel]
    · split
      · rw [List.getElem?_set_ne (Ne.symm heq), ih]
        exact if_congr (by omega) rfl rfl
      · rw [List.getElem?_append_left (by omega), ih]
        exact if_congr (by omega) rfl rfl

theorem extend_drop (hl : m ≤ l.length) :
    m ≤ (extend hole m l s).length ∧
      (extend hole m l s).drop m = l.drop m ++ s.tail hole m s.len :=
  extendTo_drop hl s.len

theorem extend_below (hl : m ≤ l.length) {p : ℕ} (hp : p < m) :
    (extend hole m l s)[p]? =
      if s.first ≤ p ∧ p < s.stop then some (s.value (p - s.first)) else l[p]? :=
  extendTo_below hl s.len hp

theorem extendAll_drop (segments : List (Segment α)) (hl : m ≤ l.length) :
    m ≤ (extendAll hole m l segments).length ∧
      (extendAll hole m l segments).drop m =
        l.drop m ++ segments.flatMap fun s => s.tail hole m s.len := by
  induction segments generalizing l with
  | nil => exact ⟨hl, (List.append_nil _).symm⟩
  | cons s segments ih =>
    obtain ⟨hlen, hdrop⟩ := @extend_drop α hole m l s hl
    obtain ⟨hlen', hdrop'⟩ := ih hlen
    refine ⟨hlen', hdrop'.trans ?_⟩
    rw [hdrop, List.flatMap_cons, List.append_assoc]

/-- Positions below `m` that no segment covers keep what they hold. -/
theorem extendAll_below_of_not (segments : List (Segment α)) (hl : m ≤ l.length) {p : ℕ}
    (hp : p < m) (hnot : ∀ s ∈ segments, ¬ (s.first ≤ p ∧ p < s.stop)) :
    (extendAll hole m l segments)[p]? = l[p]? := by
  induction segments generalizing l with
  | nil => rfl
  | cons s segments ih =>
    rw [List.forall_mem_cons] at hnot
    refine (ih (@extend_drop α hole m l s hl).1 hnot.2).trans ?_
    rw [extend_below hl hp, if_neg hnot.1]

theorem extendAll_below {segments : List (Segment α)}
    (hd : segments.Pairwise fun a b => a.stop ≤ b.first) (hl : m ≤ l.length) {p : ℕ} (hp : p < m)
    (hs : s ∈ segments) (hfirst : s.first ≤ p) (hstop : p < s.stop) :
    (extendAll hole m l segments)[p]? = some (s.value (p - s.first)) := by
  induction segments generalizing l with
  | nil => cases hs
  | cons a segments ih =>
    obtain ⟨ha, hd⟩ := List.pairwise_cons.mp hd
    have hlen := (@extend_drop α hole m l a hl).1
    rcases List.mem_cons.mp hs with rfl | hs
    · refine (extendAll_below_of_not segments hlen hp fun b hb h => ?_).trans ?_
      · have hle := ha b hb
        omega
      · rw [extend_below hl hp, if_pos ⟨hfirst, hstop⟩]
    · exact ih hd hlen hs

/-! ## How long the list gets -/

/-- One past the last position that a segment covers. -/
def coveredEnd : List (Segment α) → ℕ
  | [] => 0
  | s :: segments => if s.len = 0 then coveredEnd segments else max s.stop (coveredEnd segments)

/-- Only the places of segments matter. -/
theorem coveredEnd_map_congr {β γ : Type*} {f : γ → Segment α} {g : γ → Segment β}
    (hfirst : ∀ x, (f x).first = (g x).first) (hlen : ∀ x, (f x).len = (g x).len) (l : List γ) :
    coveredEnd (l.map f) = coveredEnd (l.map g) := by
  induction l with
  | nil => rfl
  | cons x l ih => rw [List.map_cons, List.map_cons, coveredEnd, coveredEnd, ih, hlen, stop, stop,
      hfirst, hlen]

/-- What the segments add to the length of the list. -/
def growth (m : ℕ) (segments : List (Segment α)) : ℕ := (segments.map fun s => s.stop - m).sum

theorem growth_cons (a : Segment α) (segments : List (Segment α)) :
    growth m (a :: segments) = (a.stop - m) + growth m segments :=
  List.sum_cons

theorem growth_eq_zero {segments : List (Segment α)} :
    growth m segments = 0 ↔ ∀ s ∈ segments, s.stop ≤ m := by
  rw [growth, List.sum_eq_zero_iff]
  simp only [List.mem_map, forall_exists_index, and_imp, forall_apply_eq_imp_iff₂,
    Nat.sub_eq_zero_iff_le]

theorem extendAll_length (segments : List (Segment α)) (hl : l.length = m) :
    (extendAll hole m l segments).length = m + growth m segments := by
  obtain ⟨hlen, hdrop⟩ := @extendAll_drop α hole m l segments hl.ge
  have hlength := congrArg List.length hdrop
  have htail : (segments.flatMap fun s => s.tail hole m s.len).length = growth m segments := by
    simp only [growth, List.length_flatMap, tail, List.length_map, List.length_range, stop]
  rw [List.length_drop, List.length_append, List.length_drop, htail] at hlength
  omega

theorem max_coveredEnd_le (segments : List (Segment α)) :
    max m (coveredEnd segments) ≤ m + growth m segments := by
  induction segments with
  | nil => exact (Nat.max_eq_left (Nat.zero_le m)).le
  | cons s segments ih =>
    rw [coveredEnd, growth_cons]
    split
    · omega
    · omega

/-- At most one segment reaches past `m`, and that one is not empty. -/
structure OneGrows (m : ℕ) (segments : List (Segment α)) : Prop where
  one : segments.Pairwise fun a b => a.stop ≤ m ∨ b.stop ≤ m
  covers : ∀ s ∈ segments, m < s.stop → s.len ≠ 0

theorem OneGrows.of_quiet {segments : List (Segment α)} (h : ∀ s ∈ segments, s.stop ≤ m) :
    OneGrows m segments where
  one := List.pairwise_of_forall_mem_list fun a ha _ _ => .inl (h a ha)
  covers s hs hlt := absurd (h s hs) (Nat.not_le.mpr hlt)

theorem growth_eq_iff (segments : List (Segment α)) :
    m + growth m segments = max m (coveredEnd segments) ↔ OneGrows m segments := by
  induction segments with
  | nil =>
    refine iff_of_true ?_ (.of_quiet (by simp))
    exact (Nat.max_eq_left (Nat.zero_le m)).symm
  | cons s segments ih =>
    have hle := @max_coveredEnd_le α m segments
    by_cases hgrows : s.stop ≤ m
    · have hsame : max m (coveredEnd (s :: segments)) = max m (coveredEnd segments) := by
        rw [coveredEnd]
        split
        · rfl
        · omega
      rw [growth_cons, Nat.sub_eq_zero_of_le hgrows, Nat.zero_add, hsame, ih]
      refine ⟨fun h => ⟨.cons (fun b _ => .inl hgrows) h.one, ?_⟩, fun h => ⟨?_, ?_⟩⟩
      · rw [List.forall_mem_cons]
        exact ⟨fun hlt => absurd hgrows (Nat.not_le.mpr hlt), h.covers⟩
      · exact (List.pairwise_cons.mp h.one).2
      · exact fun b hb => h.covers b (List.mem_cons_of_mem s hb)
    · rw [growth_cons]
      constructor
      · intro heq
        have hlen : s.len ≠ 0 := by
          intro h0
          rw [coveredEnd, if_pos h0] at heq
          omega
        rw [coveredEnd, if_neg hlen] at heq
        have hquiet : ∀ b ∈ segments, b.stop ≤ m := growth_eq_zero.mp (by omega)
        refine ⟨.cons (fun b hb => .inr (hquiet b hb)) (OneGrows.of_quiet hquiet).one, ?_⟩
        rw [List.forall_mem_cons]
        exact ⟨fun _ => hlen, (OneGrows.of_quiet hquiet).covers⟩
      · intro h
        have hlen := h.covers s List.mem_cons_self (Nat.lt_of_not_le hgrows)
        have hquiet : ∀ b ∈ segments, b.stop ≤ m := fun b hb =>
          ((List.pairwise_cons.mp h.one).1 b hb).resolve_left hgrows
        rw [growth_eq_zero.mpr hquiet] at hle ⊢
        rw [coveredEnd, if_neg hlen]
        omega

/-! ## What the list holds -/

/-- The list holds what the segments say, filling where they say nothing, and no more. -/
structure Exact (hole : α) (m : ℕ) (segments : List (Segment α)) (l : List α) : Prop where
  covered : ∀ s ∈ segments, ∀ p, s.first ≤ p → p < s.stop → l[p]? = some (s.value (p - s.first))
  holes : ∀ p, m ≤ p → p < coveredEnd segments →
    (∀ s ∈ segments, ¬ (s.first ≤ p ∧ p < s.stop)) → l[p]? = some hole
  length : l.length = max m (coveredEnd segments)

theorem OneGrows.flatMap_tail {segments : List (Segment α)} (h : OneGrows m segments)
    (hs : s ∈ segments) (hgrows : m < s.stop) :
    (segments.flatMap fun s => s.tail hole m s.len) = s.tail hole m s.len := by
  have hnil : ∀ {a : Segment α}, a.stop ≤ m → a.tail hole m a.len = [] := by
    intro a ha
    rw [tail, show a.first + a.len - m = 0 from Nat.sub_eq_zero_of_le ha]
    rfl
  induction segments with
  | nil => cases hs
  | cons a segments ih =>
    obtain ⟨ha, hone⟩ := List.pairwise_cons.mp h.one
    rw [List.flatMap_cons]
    rcases List.mem_cons.mp hs with rfl | hs
    · have hquiet : (segments.flatMap fun s => s.tail hole m s.len) = [] :=
        List.flatMap_eq_nil_iff.mpr fun b hb =>
          hnil ((ha b hb).resolve_left (Nat.not_le.mpr hgrows))
      rw [hquiet, List.append_nil]
    · rw [hnil ((ha s hs).resolve_right (Nat.not_le.mpr hgrows)), List.nil_append]
      exact ih ⟨hone, fun b hb => h.covers b (List.mem_cons_of_mem a hb)⟩ hs

theorem extendAll_above {segments : List (Segment α)} (h : OneGrows m segments)
    (hl : l.length = m) (hs : s ∈ segments) {p : ℕ} (hp : m ≤ p) (hstop : p < s.stop) :
    (extendAll hole m l segments)[p]? = some (s.textAt hole p) := by
  have hdrop := (@extendAll_drop α hole m l segments hl.ge).2
  rw [h.flatMap_tail hs (hp.trans_lt hstop), List.drop_eq_nil_of_le hl.le, List.nil_append] at hdrop
  have hget := congrArg (fun x => x[p - m]?) hdrop
  have hrange : p - m < s.first + s.len - m := by
    rw [stop] at hstop
    omega
  simp only [List.getElem?_drop, tail, List.getElem?_map, List.getElem?_range hrange,
    Nat.add_sub_cancel' hp, Option.map_some] at hget
  exact hget

theorem exists_stop_of_lt_coveredEnd {segments : List (Segment α)} {p : ℕ}
    (hp : p < coveredEnd segments) : ∃ s ∈ segments, p < s.stop := by
  induction segments with
  | nil => exact absurd hp (Nat.not_lt_zero p)
  | cons a segments ih =>
    rw [coveredEnd] at hp
    by_cases ha : p < a.stop
    · exact ⟨a, List.mem_cons_self, ha⟩
    · have hrest : p < coveredEnd segments := by
        split at hp
        · exact hp
        · omega
      obtain ⟨s, hs, hlt⟩ := ih hrest
      exact ⟨s, List.mem_cons_of_mem a hs, hlt⟩

theorem extendAll_exact {segments : List (Segment α)} (h : OneGrows m segments)
    (hd : segments.Pairwise fun a b => a.stop ≤ b.first) (hl : l.length = m) :
    Exact hole m segments (extendAll hole m l segments) where
  covered s hs p hfirst hstop := by
    by_cases hp : p < m
    · exact extendAll_below hd hl.ge hp hs hfirst hstop
    · rw [extendAll_above h hl hs (Nat.le_of_not_lt hp) hstop, textAt, if_neg (by omega)]
  holes p hp hend hnot := by
    obtain ⟨s, hs, hstop⟩ := exists_stop_of_lt_coveredEnd hend
    have hfirst : p < s.first := Nat.lt_of_not_le fun hle => hnot s hs ⟨hle, hstop⟩
    rw [extendAll_above h hl hs hp hstop, textAt, if_pos hfirst]
  length := by rw [extendAll_length segments hl, growth_eq_iff]; exact h

end Segment

end GammaRay
