import GammaRay.DeepInspection
import GammaRay.Total

set_option autoImplicit false

/-!
# What the inspection can rely on

The store under the inspection is a database behind calls that return; only the calls
without a flush may be given the reply to another command.
-/
namespace GammaRay.Inspect
open Bytes Decimal Redis KvStore Bson Ext4 Total

structure Lawful {σ : Type} (S : Service σ) where
  db : σ → Db KvStore.Key
  Ok : σ → Prop
  append_ok : ∀ {s : σ} {cmd : Command KvStore.Key}, Ok s → (∀ k, cmd ≠ .brpop k) →
    ∃ t, S.append cmd s = some t ∧ Ok t ∧ db t = (db s).after cmd
  query_ok : ∀ {s : σ} {cmd : Command KvStore.Key}, Ok s → (∀ k, cmd ≠ .brpop k) →
    ∃ r t, S.query cmd s = some (r, t) ∧ Ok t ∧ exec (db s) cmd = some (r, db t)
  look_ok : ∀ {s : σ} {cmd : Command KvStore.Key}, Ok s → (∀ k, cmd ≠ .brpop k) →
    ∃ r t, S.look cmd s = some (r, t) ∧ Ok t ∧ db t = (db s).after cmd
  tell_ok : ∀ {s : σ} {cmd : Command KvStore.Key}, Ok s → (∀ k, cmd ≠ .brpop k) →
    ∃ t, S.tell cmd s = some t ∧ Ok t ∧ db t = (db s).after cmd
  flush_ok : ∀ {s : σ}, Ok s → ∃ t, S.flush s = some t ∧ Ok t ∧ db t = db s

def directLawful : Lawful directService where
  db := id
  Ok _ := True
  append_ok _ hc := by
    obtain ⟨r, he⟩ := exec_after hc
    exact ⟨_, congrArg (Option.map Prod.snd) he, trivial, rfl⟩
  query_ok _ hc := by
    obtain ⟨r, he⟩ := exec_after hc
    exact ⟨r, _, he, trivial, he⟩
  look_ok _ hc := by
    obtain ⟨r, he⟩ := exec_after hc
    exact ⟨r, _, he, trivial, rfl⟩
  tell_ok _ hc := by
    obtain ⟨r, he⟩ := exec_after hc
    exact ⟨_, congrArg (Option.map Prod.snd) he, trivial, rfl⟩
  flush_ok _ := ⟨_, rfl, trivial, rfl⟩

theorem redisCommand_total {h : Handle} (hs : Settled h) {cmd : Command KvStore.Key}
    (hc : ∀ k, cmd ≠ .brpop k) :
    ∃ r h', redisCommand cmd h = some (r, h') ∧ Settled h' ∧ h'.db = h.db.after cmd := by
  obtain ⟨r, he⟩ : ∃ r, exec h.db cmd = some (r, h.db.after cmd) := exec_after hc
  have ha := appendCommand_of_exec he
  obtain ⟨first, rest, hu⟩ : ∃ first rest, h.unread ++ [(h.issued, r)] = first :: rest :=
    List.exists_cons_of_ne_nil (by simp)
  have hcmd : redisCommand cmd h = some (first, { h with
      db := h.db.after cmd, unread := rest, issued := h.issued + 1 }) := by
    rw [redisCommand, Loop.bind_of_some ha, getReply, hu]
  exact ⟨first, _, hcmd, redisCommand_settled hs hcmd, rfl⟩

def handleLawful : Lawful handleService where
  db := Handle.db
  Ok := Settled
  append_ok {s cmd} hs hc := by
    obtain ⟨r, he⟩ : ∃ r, exec s.db cmd = some (r, s.db.after cmd) := exec_after hc
    obtain ⟨t, ht, hdb, hst⟩ := pipelined_total hs he
    exact ⟨t, ht, hst, hdb⟩
  query_ok {s cmd} hs hc := by
    obtain ⟨r, he⟩ : ∃ r, exec s.db cmd = some (r, s.db.after cmd) := exec_after hc
    obtain ⟨t, ht, hdb, hst⟩ := ask_total hs id he
    have hq : KvStore.query cmd s = some (r, t) := by
      rw [ask] at ht
      obtain ⟨p, hp, hpt⟩ := Option.bind_eq_some_iff.mp ht
      rw [hp]
      exact hpt
    exact ⟨r, t, hq, hst, by rw [hdb]; exact he⟩
  look_ok {s cmd} hs hc := by
    obtain ⟨r, t, ht, hst, hdb⟩ := redisCommand_total hs hc
    have hl : interpretCommand cmd s = some (r.2, { t with
        interpreted := t.interpreted ++ [(s.issued, r.1)] }) := by
      rw [interpretCommand, Loop.bind_of_some ht]
    exact ⟨r.2, _, hl, interpretCommand_settled hs hl, hdb⟩
  tell_ok {s cmd} hs hc := by
    obtain ⟨r, t, ht, hst, hdb⟩ := redisCommand_total hs hc
    exact ⟨t, congrArg (Option.map Prod.snd) ht, hst, hdb⟩
  flush_ok hs := by
    obtain ⟨t, ht, hdb, hst, -, -⟩ := redisFlushPipeline_total hs
    exact ⟨t, ht, hst, hdb⟩

/-- The store of a state holds a database. -/
def Lawful.At {σ : Type} {S : Service σ} (L : Lawful S) (s : State σ) (d : Db KvStore.Key) : Prop :=
  L.Ok s.store ∧ L.db s.store = d

/-- Every call is given the reply to its own command. -/
def Lawful.Own {σ : Type} {S : Service σ} (L : Lawful S) : Prop :=
  ∀ {s t : σ} {cmd : Command KvStore.Key} {r : Reply}, L.Ok s → S.look cmd s = some (r, t) →
    exec (L.db s) cmd = some (r, L.db t)

theorem directLawful_own : directLawful.Own := fun _ h => h

/-- The reply to a command. -/
def answer (d : Db KvStore.Key) (cmd : Command KvStore.Key) : Reply := (exec d cmd).elim .nil Prod.fst

namespace Inspector

section Primitive

variable {σ : Type} {c : Inspector σ} (L : Lawful c.service) {s : State σ} {d : Db KvStore.Key}
  {cmd : Command KvStore.Key}

theorem append_at (hs : L.At s d) (hc : ∀ k, cmd ≠ .brpop k) :
    Ensures (c.append cmd) s fun _ t => L.At t (d.after cmd) := by
  obtain ⟨hok, rfl⟩ := hs
  obtain ⟨t, ht, hokt, hdb⟩ := L.append_ok hok hc
  exact .of_eq (Loop.bind_of_some ht _) ⟨hokt, hdb⟩

theorem query_at (hs : L.At s d) (hc : ∀ k, cmd ≠ .brpop k)
    (he : exec d cmd = some (answer d cmd, d)) :
    Ensures (c.query cmd) s fun a t => a = answer d cmd ∧ L.At t d := by
  obtain ⟨hok, rfl⟩ := hs
  obtain ⟨r', t, ht, hokt, he'⟩ := L.query_ok hok hc
  rw [he, Option.some.injEq, Prod.mk.injEq] at he'
  exact .of_eq (Loop.bind_of_some ht _) ⟨he'.1.symm, hokt, he'.2.symm⟩

theorem query_after (hs : L.At s d) (hc : ∀ k, cmd ≠ .brpop k) :
    Ensures (c.query cmd) s fun _ t => L.At t (d.after cmd) := by
  obtain ⟨hok, rfl⟩ := hs
  obtain ⟨r, t, ht, hokt, he⟩ := L.query_ok hok hc
  refine .of_eq (Loop.bind_of_some ht _) ⟨hokt, ?_⟩
  rw [Db.after, he]
  rfl

theorem look_at (hs : L.At s d) (hc : ∀ k, cmd ≠ .brpop k) :
    Ensures (c.look cmd) s fun _ t => L.At t (d.after cmd) := by
  obtain ⟨hok, rfl⟩ := hs
  obtain ⟨r, t, ht, hokt, hdb⟩ := L.look_ok hok hc
  exact .of_eq (Loop.bind_of_some ht _) ⟨hokt, hdb⟩

theorem look_own (hown : L.Own) (hs : L.At s d) (hc : ∀ k, cmd ≠ .brpop k)
    (he : exec d cmd = some (answer d cmd, d)) :
    Ensures (c.look cmd) s fun a t => a = answer d cmd ∧ L.At t d := by
  obtain ⟨hok, rfl⟩ := hs
  obtain ⟨r', t, ht, hokt, -⟩ := L.look_ok hok hc
  have he' := hown hok ht
  rw [he, Option.some.injEq, Prod.mk.injEq] at he'
  exact .of_eq (Loop.bind_of_some ht _) ⟨he'.1.symm, hokt, he'.2.symm⟩

theorem tell_at (hs : L.At s d) (hc : ∀ k, cmd ≠ .brpop k) :
    Ensures (c.tell cmd) s fun _ t => L.At t (d.after cmd) := by
  obtain ⟨hok, rfl⟩ := hs
  obtain ⟨t, ht, hokt, hdb⟩ := L.tell_ok hok hc
  exact .of_eq (Loop.bind_of_some ht _) ⟨hokt, hdb⟩

theorem flush_at (hs : L.At s d) : Ensures c.flush s fun _ t => L.At t d := by
  obtain ⟨hok, rfl⟩ := hs
  obtain ⟨t, ht, hokt, hdb⟩ := L.flush_ok hok
  exact .of_eq (Loop.bind_of_some ht _) ⟨hokt, hdb⟩

theorem enter_at (hs : L.At s d) :
    Ensures c.enter s fun vars t => (∃ n, vars = c.stack n) ∧ L.At t d :=
  .of_eq rfl ⟨⟨_, rfl⟩, hs⟩

theorem publish_at (hs : L.At s d) {channel : List UInt8} {kvs : List BsonKv}
    {es : List (Bson.Key × Bson.Value)} (hes : List.Forall₂ (Encodes c.heap) kvs es)
    (hroom : (frame (Document.ofElements es).body).length ≤ maxSize) :
    Ensures (c.publish channel kvs) s fun _ t =>
      L.At t (d.after (.publish channel (frame (Document.ofElements es).body))) := by
  rw [frame_length] at hroom
  obtain ⟨b₁, h₁, hb₁⟩ := serializeAll_appends c.heap hes _ _ (bsonInit_holds c.heap)
    (by rw [List.length_nil]; omega)
  rw [List.nil_append] at hb₁
  obtain ⟨b₂, h₂, hb₂⟩ := bsonFinalize_holds c.heap hb₁ hroom
  refine ensures_bind_of_eq (congrArg (Option.map _) h₁) ?_
  refine ensures_bind_of_eq (congrArg (Option.map _) h₂) ?_
  rw [hb₂.position, hb₂.contents]
  exact tell_at L hs (by simp)

theorem defined_yields {α : Type} (x : Option α) :
    Yields (defined x) s fun a t => x = some a ∧ t = s := by
  intro a t h
  obtain ⟨b, hb, hbt⟩ := Option.map_eq_some_iff.mp h
  obtain ⟨rfl, rfl⟩ := Prod.mk.inj hbt
  exact ⟨hb, rfl⟩

theorem undefined_yields {α : Type} {Q : α → State σ → Prop} : Yields (defined none) s Q := by
  intro a t h
  exact absurd h (Option.some_ne_none _).symm

theorem pointerTarget_eq {old : ℕ} {pointer token : List UInt8}
    (h : (tokens pointer)[1]? = some token) :
    pointerTarget old pointer s = some (scanInto old token, s) := by
  unfold pointerTarget
  rw [h]
  rfl

theorem pointerTarget_yields (old : ℕ) (pointer : List UInt8) :
    Yields (pointerTarget old pointer) s fun _ t => t = s := by
  refine (defined_yields _).bind ?_
  rintro token _ ⟨-, rfl⟩
  exact yields_pure rfl

end Primitive

end Inspector

/-! ## Pointers -/

theorem tokens_of_intercalate {text : List UInt8} {l : List (List UInt8)}
    (h : [58].intercalate l = text) (hne : l ≠ []) (hzero : 0 ∉ text) (hcolon : ∀ x ∈ l, 58 ∉ x)
    (hempty : ∀ x ∈ l, x ≠ []) : tokens text = l := by
  rw [tokens, takeWhile_of_notMem _ hzero, ← h, List.splitOn_intercalate _ hcolon hne]
  exact List.filter_eq_self.mpr fun x hx => decide_eq_true (hempty x hx)

theorem dec_noColon (n : ℕ) : 58 ∉ dec n :=
  fun h => absurd (dec_isDigit n 58 h) (by decide)

/-- A pointer of the form `name:number`. -/
theorem tokens_named {name : List UInt8} (hname : name ≠ []) (h0 : 0 ∉ name) (h58 : 58 ∉ name)
    (n : ℕ) : tokens (name ++ [58] ++ dec n) = [name, dec n] := by
  refine tokens_of_intercalate (by simp [List.intercalate]) (by simp) ?_ ?_ ?_
  · simp [h0, dec_noNul]
  · simp [h58, dec_noColon]
  · simp [hname, dec_ne_nil]

theorem tokens_dataPointer (start stop file : ℕ) : tokens (dataPointer start stop file) =
    [ascii "start", dec start, ascii "end", dec stop, ascii "file", dec file] := by
  refine tokens_of_intercalate ?_ (by simp) ?_ ?_ ?_
  · have hstart : ascii "start:" = ascii "start" ++ [58] := rfl
    have hend : ascii ":end:" = [58] ++ ascii "end" ++ [58] := rfl
    have hfile : ascii ":file:" = [58] ++ ascii "file" ++ [58] := rfl
    simp [List.intercalate, dataPointer, hstart, hend, hfile]
  · simp only [dataPointer, List.mem_append, not_or]
    exact ⟨⟨⟨⟨⟨by decide, dec_noNul _⟩, by decide⟩, dec_noNul _⟩, by decide⟩, dec_noNul _⟩
  · intro x hx
    fin_cases hx
    all_goals first | exact dec_noColon _ | decide
  · intro x hx
    fin_cases hx
    all_goals first | exact dec_ne_nil _ | decide

theorem scanInto_dec (old n : ℕ) : scanInto old (dec n) = n := by
  rw [scanInto, scanU64_dec]
  rfl

end GammaRay.Inspect
