import GammaRay.Replay

set_option autoImplicit false

/-!
# Databases with a schema

A schema says for every key what kind of value it holds, and of which form its strings and the
elements of its lists and sets are. The commands that respect it keep it.
-/
namespace GammaRay.Redis
open Decimal

variable {κ : Type}

structure Schema (κ : Type) where
  kind : κ → Kind
  Form : κ → List UInt8 → Prop

namespace Schema

variable (S : Schema κ)

def Fits (k : κ) : Value → Prop
  | .string b => S.kind k = .string ∧ S.Form k b
  | .list l => S.kind k = .list ∧ ∀ x ∈ l, S.Form k x
  | .hash _ => S.kind k = .hash
  | .set s => S.kind k = .set ∧ ∀ x ∈ s, S.Form k x

def Holds (db : Db κ) : Prop := ∀ k v, db.keys k = some v → S.Fits k v

/-- A command that puts in its place only what belongs there. -/
def Permits : Command κ → Prop
  | .set k value | .setex k _ value => S.kind k = .string ∧ S.Form k value
  | .incr k => S.kind k = .string ∧ ∀ n, S.Form k (dec n)
  | .hset k _ _ => S.kind k = .hash
  | .lpush k value | .rpush k value | .lset k _ value | .linsertBefore k _ value =>
    S.kind k = .list ∧ S.Form k value
  | .sadd k member => S.kind k = .set ∧ S.Form k member
  | _ => True

variable {S} {db : Db κ} {k : κ}

theorem holds_empty [DecidableEq κ] : S.Holds (Db.empty : Db κ) := fun _ _ h => by cases h

theorem Holds.list (h : S.Holds db) (hk : S.kind k = .list) :
    ∃ l, db.listAt k = some l ∧ ∀ x ∈ l, S.Form k x := by
  unfold Db.listAt
  cases hv : db.keys k with
  | none => exact ⟨[], rfl, fun x hx => by cases hx⟩
  | some v =>
    have hfits := h k v hv
    cases v with
    | list l => exact ⟨l, rfl, hfits.2⟩
    | string b => cases hk.symm.trans hfits.1
    | hash m => cases hk.symm.trans hfits
    | set s => cases hk.symm.trans hfits.1

theorem Holds.of_listAt (h : S.Holds db) {l : List (List UInt8)} (hl : db.listAt k = some l) :
    ∀ x ∈ l, S.kind k = .list ∧ S.Form k x := by
  unfold Db.listAt at hl
  split at hl
  · obtain rfl := Option.some.inj hl
    exact fun x hx => by cases hx
  · rename_i hv
    obtain rfl := Option.some.inj hl
    exact fun x hx => ⟨(h k _ hv).1, (h k _ hv).2 x hx⟩
  · cases hl

theorem Holds.of_setAt (h : S.Holds db) {s : List (List UInt8)} (hs : db.setAt k = some s) :
    ∀ x ∈ s, S.kind k = .set ∧ S.Form k x := by
  unfold Db.setAt at hs
  split at hs
  · obtain rfl := Option.some.inj hs
    exact fun x hx => by cases hx
  · rename_i hv
    obtain rfl := Option.some.inj hs
    exact fun x hx => ⟨(h k _ hv).1, (h k _ hv).2 x hx⟩
  · cases hs

theorem forall_insertBefore {P : List UInt8 → Prop} {pivot value : List UInt8}
    {l l' : List (List UInt8)} (h : insertBefore pivot value l = some l') (hvalue : P value)
    (hl : ∀ x ∈ l, P x) : ∀ x ∈ l', P x := by
  induction l generalizing l' with
  | nil => cases h
  | cons y l ih =>
    rw [List.forall_mem_cons] at hl
    unfold insertBefore at h
    split at h
    · obtain rfl := Option.some.inj h
      exact List.forall_mem_cons.mpr ⟨hvalue, List.forall_mem_cons.mpr hl⟩
    · obtain ⟨ys, hys, rfl⟩ := Option.map_eq_some_iff.mp h
      exact List.forall_mem_cons.mpr ⟨hl.1, ih hys hl.2⟩

variable [DecidableEq κ]

theorem Holds.put (h : S.Holds db) {v : Option Value} (hv : ∀ x, v = some x → S.Fits k x) :
    S.Holds (db.put k v) := by
  intro k' x hx
  by_cases hk : k' = k
  · subst hk
    rw [keys_put_self] at hx
    exact hv x hx
  · rw [keys_put_of_ne hk] at hx
    exact h k' x hx

theorem Holds.putList (h : S.Holds db) {l : List (List UInt8)} (hk : S.kind k = .list)
    (hl : ∀ x ∈ l, S.Form k x) : S.Holds (db.putList k l) := by
  refine h.put fun v hv => ?_
  split at hv
  · cases hv
  · obtain rfl := Option.some.inj hv
    exact ⟨hk, hl⟩

theorem Holds.putSet (h : S.Holds db) {s : List (List UInt8)} (hk : S.kind k = .set)
    (hs : ∀ x ∈ s, S.Form k x) : S.Holds (db.putSet k s) := by
  refine h.put fun v hv => ?_
  split at hv
  · cases hv
  · obtain rfl := Option.some.inj hv
    exact ⟨hk, hs⟩

theorem Holds.after (h : S.Holds db) {c : Command κ} (hc : S.Permits c) : S.Holds (db.after c) := by
  unfold Db.after
  cases c with
  | get | hget | llen | lindex | lrange | sdiff => exact h
  | publish channel message => exact h
  | set k value =>
    refine h.put fun x hx => ?_
    obtain rfl := Option.some.inj hx
    exact hc
  | setex k seconds value =>
    refine h.put fun x hx => ?_
    obtain rfl := Option.some.inj hx
    exact hc
  | del k => exact h.put fun x hx => by cases hx
  | incr k =>
    have hput : ∀ n, S.Holds (db.put k (some (.string (dec n)))) := fun n => h.put fun x hx => by
      obtain rfl := Option.some.inj hx
      exact ⟨hc.1, hc.2 n⟩
    simp only [exec, Option.elim_some]
    repeat' split
    · exact hput 1
    · exact hput _
    · exact h
    · exact h
  | hset k field value =>
    simp only [exec, Option.elim_some]
    split
    · exact h
    · refine h.put fun x hx => ?_
      obtain rfl := Option.some.inj hx
      exact hc
  | lpush k value =>
    simp only [exec, Option.elim_some]
    split
    · exact h
    · rename_i hl
      exact h.putList hc.1
        (List.forall_mem_cons.mpr ⟨hc.2, fun x hx => (h.of_listAt hl x hx).2⟩)
  | rpush k value =>
    simp only [exec, Option.elim_some]
    split
    · exact h
    · rename_i hl
      refine h.putList hc.1 fun x hx => ?_
      rcases List.mem_append.mp hx with hx | hx
      · exact (h.of_listAt hl x hx).2
      · rw [List.mem_singleton.mp hx]
        exact hc.2
  | brpop k =>
    simp only [exec]
    split
    · exact h
    · rename_i l hl
      cases hlast : l.getLast? with
      | none => exact h
      | some b =>
        exact h.putList (h.of_listAt hl b (List.mem_of_getLast? hlast)).1
          fun x hx => (h.of_listAt hl x (List.mem_of_mem_dropLast hx)).2
  | lset k index value =>
    simp only [exec, Option.elim_some]
    split
    · exact h
    · rename_i hl
      split
      · refine h.putList hc.1 fun x hx => ?_
        rcases List.mem_or_eq_of_mem_set hx with hx | rfl
        · exact (h.of_listAt hl x hx).2
        · exact hc.2
      · exact h
  | linsertBefore k pivot value =>
    simp only [exec, Option.elim_some]
    split
    · exact h
    · rename_i hl
      repeat' split
      · exact h
      · exact h
      · rename_i hinsert
        exact h.putList hc.1 (forall_insertBefore hinsert hc.2 fun x hx => (h.of_listAt hl x hx).2)
  | sadd k member =>
    simp only [exec, Option.elim_some]
    split
    · exact h
    · rename_i hs
      split
      · exact h
      · refine h.putSet hc.1 fun x hx => ?_
        rcases List.mem_append.mp hx with hx | hx
        · exact (h.of_setAt hs x hx).2
        · rw [List.mem_singleton.mp hx]
          exact hc.2
  | srem k member =>
    simp only [exec, Option.elim_some]
    split
    · exact h
    · rename_i s hs
      split
      · rename_i hmem
        exact h.putSet (h.of_setAt hs member hmem).1
          fun x hx => (h.of_setAt hs x (List.mem_of_mem_erase hx)).2
      · exact h

theorem Holds.replay (h : S.Holds db) {cs : List (Command κ)} (hcs : ∀ c ∈ cs, S.Permits c) :
    S.Holds (db.replay cs) := by
  induction cs generalizing db with
  | nil => exact h
  | cons c cs ih =>
    rw [List.forall_mem_cons] at hcs
    exact ih (h.after hcs.1) hcs.2

end Schema

end GammaRay.Redis
