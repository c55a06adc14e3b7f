import GammaRay.Redis

set_option autoImplicit false

/-!
# Replaying commands

What a list of commands leaves of a database, read off one key at a time: a key is only
changed by the commands that write it, and where these are all of one kind its value is a
matter of their arguments.
-/
namespace GammaRay.Redis

variable {κ : Type} [DecidableEq κ]

/-- What a command leaves of a database; one that waits leaves it alone. -/
def Db.after (db : Db κ) (c : Command κ) : Db κ := (exec db c).elim db Prod.snd

def Db.replay (db : Db κ) (cs : List (Command κ)) : Db κ := cs.foldl Db.after db

/-- The key that a command may change. -/
def Command.writes : Command κ → Option κ
  | .set k _ | .setex k _ _ | .del k | .incr k | .hset k _ _ | .lpush k _ | .rpush k _ | .brpop k
  | .lset k _ _ | .linsertBefore k _ _ | .sadd k _ | .srem k _ => some k
  | .get _ | .hget _ _ | .llen _ | .lindex _ _ | .lrange _ _ _ | .sdiff _ _ | .publish _ _ => none

variable {db : Db κ} {k : κ} {cs : List (Command κ)}

theorem replay_nil : db.replay [] = db := rfl

theorem replay_cons (c : Command κ) : db.replay (c :: cs) = (db.after c).replay cs := rfl

theorem replay_append (cs ds : List (Command κ)) :
    db.replay (cs ++ ds) = (db.replay cs).replay ds :=
  List.foldl_append

theorem foldl_replay {α : Type} (l : List α) (f : α → List (Command κ)) (db : Db κ) :
    l.foldl (fun db x => db.replay (f x)) db = db.replay (l.flatMap f) := by
  induction l generalizing db with
  | nil => rfl
  | cons x l ih => rw [List.foldl_cons, ih, List.flatMap_cons, replay_append]

theorem keys_put_of_ne {x : κ} (h : k ≠ x) (v : Option Value) : (db.put x v).keys k = db.keys k :=
  if_neg h

theorem keys_put_self (v : Option Value) : (db.put k v).keys k = v := if_pos rfl

/-- Only `BRPOP` may wait. -/
theorem exec_after {c : Command κ} (hc : ∀ x, c ≠ .brpop x) :
    ∃ r, exec db c = some (r, db.after c) := by
  have hsome : ∃ p, exec db c = some p := by
    cases c with
    | brpop x => exact absurd rfl (hc x)
    | _ => exact ⟨_, rfl⟩
  obtain ⟨p, hp⟩ := hsome
  refine ⟨p.1, ?_⟩
  rw [Db.after, hp]
  rfl

/-- A command changes nothing, puts a value under its key or publishes a message. -/
theorem after_cases (db : Db κ) (c : Command κ) :
    db.after c = db ∨ (∃ k v, c.writes = some k ∧ db.after c = db.put k v) ∨
      ∃ m, db.after c = { db with messages := db.messages ++ [m] } := by
  cases c with
  | get x => exact .inl rfl
  | hget x field => exact .inl rfl
  | llen x => exact .inl rfl
  | lindex x index => exact .inl rfl
  | lrange x start stop => exact .inl rfl
  | sdiff x y => exact .inl rfl
  | publish channel message => exact .inr (.inr ⟨_, rfl⟩)
  | set x value => exact .inr (.inl ⟨x, _, rfl, rfl⟩)
  | setex x seconds value => exact .inr (.inl ⟨x, _, rfl, rfl⟩)
  | del x => exact .inr (.inl ⟨x, _, rfl, rfl⟩)
  | incr x =>
    simp only [Db.after, exec, Option.elim_some]
    split
    · exact .inr (.inl ⟨x, _, rfl, rfl⟩)
    · split
      · exact .inr (.inl ⟨x, _, rfl, rfl⟩)
      · exact .inl rfl
    · exact .inl rfl
  | hset x field value =>
    simp only [Db.after, exec, Option.elim_some]
    split
    · exact .inl rfl
    · exact .inr (.inl ⟨x, _, rfl, rfl⟩)
  | lpush x value =>
    simp only [Db.after, exec, Option.elim_some]
    split
    · exact .inl rfl
    · exact .inr (.inl ⟨x, _, rfl, rfl⟩)
  | rpush x value =>
    simp only [Db.after, exec, Option.elim_some]
    split
    · exact .inl rfl
    · exact .inr (.inl ⟨x, _, rfl, rfl⟩)
  | brpop x =>
    simp only [Db.after, exec]
    split
    · exact .inl rfl
    · rename_i l _
      cases l.getLast? with
      | none => exact .inl rfl
      | some b => exact .inr (.inl ⟨x, _, rfl, rfl⟩)
  | lset x index value =>
    simp only [Db.after, exec, Option.elim_some]
    split
    · exact .inl rfl
    · split
      · exact .inr (.inl ⟨x, _, rfl, rfl⟩)
      · exact .inl rfl
  | linsertBefore x pivot value =>
    simp only [Db.after, exec, Option.elim_some]
    split
    · exact .inl rfl
    · split
      · exact .inl rfl
      · split
        · exact .inl rfl
        · exact .inr (.inl ⟨x, _, rfl, rfl⟩)
  | sadd x member =>
    simp only [Db.after, exec, Option.elim_some]
    split
    · exact .inl rfl
    · split
      · exact .inl rfl
      · exact .inr (.inl ⟨x, _, rfl, rfl⟩)
  | srem x member =>
    simp only [Db.after, exec, Option.elim_some]
    split
    · exact .inl rfl
    · split
      · exact .inr (.inl ⟨x, _, rfl, rfl⟩)
      · exact .inl rfl

/-- A command leaves every other key alone. -/
theorem keys_after {c : Command κ} (h : c.writes ≠ some k) : (db.after c).keys k = db.keys k := by
  rcases after_cases db c with he | ⟨x, v, hx, he⟩ | ⟨m, he⟩
  · rw [he]
  · rw [he]
    exact keys_put_of_ne (fun hk => h (hx.trans (congrArg some hk.symm))) v
  · rw [he]

theorem messages_after (db : Db κ) (c : Command κ) :
    ∃ ms, (db.after c).messages = db.messages ++ ms := by
  rcases after_cases db c with he | ⟨x, v, -, he⟩ | ⟨m, he⟩
  · exact ⟨[], by rw [he, List.append_nil]⟩
  · exact ⟨[], by rw [he, List.append_nil]; rfl⟩
  · exact ⟨[m], by rw [he]⟩

/-- What is pushed to the back of a list. -/
def pushed (k : κ) (cs : List (Command κ)) : List (List UInt8) :=
  cs.filterMap fun
    | .rpush x value => if x = k then some value else none
    | _ => none

/-- What is assigned to the fields of a hash. -/
def assigned (k : κ) (cs : List (Command κ)) : List (List UInt8 × List UInt8) :=
  cs.filterMap fun
    | .hset x field value => if x = k then some (field, value) else none
    | _ => none

/-- What a string is set to. -/
def stored (k : κ) (cs : List (Command κ)) : List (List UInt8) :=
  cs.filterMap fun
    | .set x value => if x = k then some value else none
    | _ => none

section Read

variable (k x : κ) (field value : List UInt8) (cs : List (Command κ))

@[simp] theorem pushed_nil : pushed k [] = [] := rfl

@[simp] theorem pushed_rpush :
    pushed k (.rpush x value :: cs) = if x = k then value :: pushed k cs else pushed k cs := by
  by_cases h : x = k <;> simp [pushed, h]

@[simp] theorem pushed_hset : pushed k (.hset x field value :: cs) = pushed k cs := rfl

@[simp] theorem pushed_set : pushed k (.set x value :: cs) = pushed k cs := rfl

@[simp] theorem assigned_nil : assigned k [] = [] := rfl

@[simp] theorem assigned_hset :
    assigned k (.hset x field value :: cs) =
      if x = k then (field, value) :: assigned k cs else assigned k cs := by
  by_cases h : x = k <;> simp [assigned, h]

@[simp] theorem assigned_rpush : assigned k (.rpush x value :: cs) = assigned k cs := rfl

@[simp] theorem assigned_set : assigned k (.set x value :: cs) = assigned k cs := rfl

@[simp] theorem stored_nil : stored k [] = [] := rfl

@[simp] theorem stored_set :
    stored k (.set x value :: cs) = if x = k then value :: stored k cs else stored k cs := by
  by_cases h : x = k <;> simp [stored, h]

@[simp] theorem stored_rpush : stored k (.rpush x value :: cs) = stored k cs := rfl

@[simp] theorem stored_hset : stored k (.hset x field value :: cs) = stored k cs := rfl

end Read

theorem pushed_append (cs ds : List (Command κ)) :
    pushed k (cs ++ ds) = pushed k cs ++ pushed k ds :=
  List.filterMap_append

theorem assigned_append (cs ds : List (Command κ)) :
    assigned k (cs ++ ds) = assigned k cs ++ assigned k ds :=
  List.filterMap_append

theorem stored_append (cs ds : List (Command κ)) :
    stored k (cs ++ ds) = stored k cs ++ stored k ds :=
  List.filterMap_append

@[simp] theorem pushed_flatMap {α : Type} (l : List α) (f : α → List (Command κ)) :
    pushed k (l.flatMap f) = l.flatMap fun x => pushed k (f x) :=
  List.filterMap_flatMap

@[simp] theorem assigned_flatMap {α : Type} (l : List α) (f : α → List (Command κ)) :
    assigned k (l.flatMap f) = l.flatMap fun x => assigned k (f x) :=
  List.filterMap_flatMap

@[simp] theorem stored_flatMap {α : Type} (l : List α) (f : α → List (Command κ)) :
    stored k (l.flatMap f) = l.flatMap fun x => stored k (f x) :=
  List.filterMap_flatMap

/-- Only pushed to the back. -/
def OnlyPushed (k : κ) (cs : List (Command κ)) : Prop :=
  ∀ c ∈ cs, c.writes = some k → ∃ value, c = .rpush k value

def OnlyAssigned (k : κ) (cs : List (Command κ)) : Prop :=
  ∀ c ∈ cs, c.writes = some k → ∃ field value, c = .hset k field value

def OnlyStored (k : κ) (cs : List (Command κ)) : Prop :=
  ∀ c ∈ cs, c.writes = some k → ∃ value, c = .set k value

theorem listAt_replay {l : List (List UInt8)} (h : OnlyPushed k cs) (hl : db.listAt k = some l) :
    (db.replay cs).listAt k = some (l ++ pushed k cs) := by
  induction cs generalizing db l with
  | nil => rw [replay_nil, pushed, List.filterMap_nil, List.append_nil, hl]
  | cons c cs ih =>
    have htail : OnlyPushed k cs := fun d hd => h d (List.mem_cons_of_mem _ hd)
    rw [replay_cons]
    by_cases hc : c.writes = some k
    · obtain ⟨value, rfl⟩ := h c List.mem_cons_self hc
      have hafter : (db.after (.rpush k value)).listAt k = some (l ++ [value]) := by
        simp only [Db.after, exec, hl, Option.elim_some, Db.putList, List.isEmpty_iff,
          List.append_eq_nil_iff, List.cons_ne_self, and_false, if_false]
        simp [Db.listAt, keys_put_self]
      rw [ih htail hafter]
      simp [pushed]
    · have hafter : (db.after c).listAt k = some l := by
        rw [Db.listAt, keys_after hc]
        exact hl
      rw [ih htail hafter]
      have hnone : pushed k (c :: cs) = pushed k cs := by
        apply List.filterMap_cons_none
        cases c with
        | rpush x value => exact if_neg fun hx => hc (congrArg some hx)
        | _ => rfl
      rw [hnone]

/-- The value that the last assignment to a field gave it. -/
def lastAssigned (l : List (List UInt8 × List UInt8)) (field : List UInt8) : Option (List UInt8) :=
  (l.reverse.find? fun e => e.1 = field).map Prod.snd

/-- Where every field is assigned once, there is nothing to choose from. -/
theorem lastAssigned_of_nodup {l : List (List UInt8 × List UInt8)} (hl : (l.map Prod.fst).Nodup)
    (field : List UInt8) :
    lastAssigned l field = (l.find? fun e => e.1 = field).map Prod.snd := by
  rw [lastAssigned]
  congr 1
  induction l with
  | nil => rfl
  | cons e l ih =>
    obtain ⟨he, hl⟩ := List.nodup_cons.mp hl
    rw [List.reverse_cons, List.find?_append, ih hl, List.find?_cons]
    by_cases hf : e.1 = field
    · have hnone : l.find? (fun e => e.1 = field) = none := by
        rw [List.find?_eq_none]
        intro x hx hxf
        exact he (List.mem_map.mpr ⟨x, hx, (of_decide_eq_true hxf).trans hf.symm⟩)
      rw [hnone]
      simp [hf]
    · simp [hf]

theorem hashAt_replay {m : List UInt8 → Option (List UInt8)} (h : OnlyAssigned k cs)
    (hm : db.hashAt k = some m) :
    (db.replay cs).hashAt k =
      some fun field => (lastAssigned (assigned k cs) field).or (m field) := by
  induction cs generalizing db m with
  | nil =>
    rw [replay_nil, hm]
    rfl
  | cons c cs ih =>
    have htail : OnlyAssigned k cs := fun d hd => h d (List.mem_cons_of_mem _ hd)
    rw [replay_cons]
    by_cases hc : c.writes = some k
    · obtain ⟨field, value, rfl⟩ := h c List.mem_cons_self hc
      have hafter : (db.after (.hset k field value)).hashAt k =
          some fun f => if f = field then some value else m f := by
        simp only [Db.after, exec, hm, Option.elim_some]
        simp [Db.hashAt, keys_put_self]
      have hcons : assigned k (.hset k field value :: cs) = (field, value) :: assigned k cs := by
        simp [assigned]
      rw [ih htail hafter, hcons]
      congr 1
      funext f
      rw [lastAssigned, lastAssigned, List.reverse_cons, List.find?_append]
      cases (assigned k cs).reverse.find? fun e => e.1 = f with
      | some e => rfl
      | none => by_cases hf : f = field <;> simp [hf, eq_comm]
    · have hafter : (db.after c).hashAt k = some m := by
        rw [Db.hashAt, keys_after hc]
        exact hm
      rw [ih htail hafter]
      have hnone : assigned k (c :: cs) = assigned k cs := by
        apply List.filterMap_cons_none
        cases c with
        | hset x field value => exact if_neg fun hx => hc (congrArg some hx)
        | _ => rfl
      rw [hnone]

theorem keys_replay_stored (h : OnlyStored k cs) :
    (db.replay cs).keys k = ((stored k cs).getLast?.map .string).or (db.keys k) := by
  induction cs generalizing db with
  | nil => rfl
  | cons c cs ih =>
    have htail : OnlyStored k cs := fun d hd => h d (List.mem_cons_of_mem _ hd)
    rw [replay_cons, ih htail]
    by_cases hc : c.writes = some k
    · obtain ⟨value, rfl⟩ := h c List.mem_cons_self hc
      have hafter : (db.after (.set k value)).keys k = some (.string value) := keys_put_self _
      have hcons : stored k (.set k value :: cs) = value :: stored k cs := by
        simp [stored]
      rw [hafter, hcons, List.getLast?_cons]
      cases (stored k cs).getLast? <;> rfl
    · have hnone : stored k (c :: cs) = stored k cs := by
        apply List.filterMap_cons_none
        cases c with
        | set x value => exact if_neg fun hx => hc (congrArg some hx)
        | _ => rfl
      rw [keys_after hc, hnone]

theorem mem_assigned {field value : List UInt8} :
    (field, value) ∈ assigned k cs ↔ .hset k field value ∈ cs := by
  rw [assigned, List.mem_filterMap]
  constructor
  · rintro ⟨c, hc, hv⟩
    cases c with
    | hset x field' value' =>
      simp only [Option.ite_none_right_eq_some, Option.some.injEq, Prod.mk.injEq] at hv
      rwa [← hv.1, ← hv.2.1, ← hv.2.2]
    | _ => cases hv
  · exact fun h => ⟨_, h, if_pos rfl⟩

theorem mem_stored {value : List UInt8} : value ∈ stored k cs ↔ .set k value ∈ cs := by
  rw [stored, List.mem_filterMap]
  constructor
  · rintro ⟨c, hc, hv⟩
    cases c with
    | set x value' =>
      simp only [Option.ite_none_right_eq_some, Option.some.injEq] at hv
      rwa [← hv.1, ← hv.2]
    | _ => cases hv
  · exact fun h => ⟨_, h, if_pos rfl⟩

theorem lastAssigned_of_unique {l : List (List UInt8 × List UInt8)} {field value : List UInt8}
    (hmem : (field, value) ∈ l) (hall : ∀ v, (field, v) ∈ l → v = value) :
    lastAssigned l field = some value := by
  rw [lastAssigned]
  cases hf : l.reverse.find? fun e => e.1 = field with
  | none =>
    rw [List.find?_eq_none] at hf
    exact absurd (decide_eq_true rfl) (hf _ (List.mem_reverse.mpr hmem))
  | some e =>
    have hfield : e.1 = field := of_decide_eq_true (List.find?_some hf :)
    have he : (field, e.2) ∈ l := hfield ▸ List.mem_reverse.mp (List.mem_of_find?_eq_some hf)
    rw [Option.map_some, hall e.2 he]

theorem keys_replay_of_unique {value : List UInt8} (h : OnlyStored k cs)
    (hmem : .set k value ∈ cs) (hall : ∀ v, .set k v ∈ cs → v = value) :
    (db.replay cs).keys k = some (.string value) := by
  rw [keys_replay_stored h]
  cases hl : (stored k cs).getLast? with
  | none =>
    rw [List.getLast?_eq_none_iff] at hl
    exact absurd (mem_stored.mpr hmem) (by rw [hl]; exact List.not_mem_nil)
  | some v =>
    rw [hall v (mem_stored.mp (List.mem_of_getLast? hl))]
    rfl

theorem keys_replay_of_untouched (h : ∀ c ∈ cs, c.writes ≠ some k) :
    (db.replay cs).keys k = db.keys k := by
  induction cs generalizing db with
  | nil => rfl
  | cons c cs ih =>
    rw [replay_cons, ih fun d hd => h d (List.mem_cons_of_mem _ hd),
      keys_after (h c List.mem_cons_self)]

inductive Kind where
  | string
  | list
  | hash
  | set
  deriving DecidableEq, Repr

/-- A command that adds to a key what belongs there. -/
def Command.Inserts (kind : κ → Kind) : Command κ → Prop
  | .set k _ => kind k = .string
  | .rpush k _ => kind k = .list
  | .hset k _ _ => kind k = .hash
  | _ => False

section Kinds

variable {kind : κ → Kind}

omit [DecidableEq κ]

theorem OnlyPushed.of_inserts (h : ∀ c ∈ cs, c.Inserts kind) (hk : kind k = .list) :
    OnlyPushed k cs := by
  intro c hc hw
  have hi := h c hc
  cases c with
  | rpush x value => exact ⟨value, by rw [Option.some.inj hw]⟩
  | set x value => cases hk.symm.trans ((congrArg kind (Option.some.inj hw)).symm.trans hi)
  | hset x field value => cases hk.symm.trans ((congrArg kind (Option.some.inj hw)).symm.trans hi)
  | _ => exact hi.elim

theorem OnlyAssigned.of_inserts (h : ∀ c ∈ cs, c.Inserts kind) (hk : kind k = .hash) :
    OnlyAssigned k cs := by
  intro c hc hw
  have hi := h c hc
  cases c with
  | hset x field value => exact ⟨field, value, by rw [Option.some.inj hw]⟩
  | set x value => cases hk.symm.trans ((congrArg kind (Option.some.inj hw)).symm.trans hi)
  | rpush x value => cases hk.symm.trans ((congrArg kind (Option.some.inj hw)).symm.trans hi)
  | _ => exact hi.elim

theorem OnlyStored.of_inserts (h : ∀ c ∈ cs, c.Inserts kind) (hk : kind k = .string) :
    OnlyStored k cs := by
  intro c hc hw
  have hi := h c hc
  cases c with
  | set x value => exact ⟨value, by rw [Option.some.inj hw]⟩
  | rpush x value => cases hk.symm.trans ((congrArg kind (Option.some.inj hw)).symm.trans hi)
  | hset x field value => cases hk.symm.trans ((congrArg kind (Option.some.inj hw)).symm.trans hi)
  | _ => exact hi.elim

end Kinds

end GammaRay.Redis
