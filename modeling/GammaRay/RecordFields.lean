import GammaRay.FileData

set_option autoImplicit false

/-!
# Fields of records

`GET_FIELD`, `DIRECT_FIELD_COMPARE` and `SET_FIELD` on a row of fields of one hash: the values
are read, a message is published for each field that has changed, and the new values are
stored.
-/
namespace GammaRay.Inspect
open Bytes Decimal Redis KvStore Bson Ext4 Total
open Loader (keyNamed int64Of type_noNul transaction_noNul)

theorem put_self {d : Db KvStore.Key} {k : KvStore.Key} {v : Option Redis.Value} (h : d.keys k = v) :
    d.put k v = d := by
  have hkeys : (fun x => if x = k then v else d.keys x) = d.keys := by
    funext x
    split
    · rename_i hx
      rw [hx, h]
    · rfl
  rw [Db.put, hkeys]

theorem put_put (d : Db KvStore.Key) (k : KvStore.Key) (v w : Option Redis.Value) :
    (d.put k v).put k w = d.put k w := by
  simp only [Db.put]
  congr 1
  funext x
  split
  · rfl
  · rfl

theorem answer_hget {d : Db KvStore.Key} {k : KvStore.Key} {h : List UInt8 → Option (List UInt8)}
    (hk : d.keys k = some (.hash h)) {field b : List UInt8} (hf : h field = some b) :
    answer d (.hget k field) = .string b := by
  simp only [answer, exec, Db.hashAt, hk, hf, Option.elim_some]

theorem copyString_of_le {cap : ℕ} {b : List UInt8} (hb : b.length ≤ cap) :
    copyString cap (.string b) = b := by
  rw [copyString]
  split
  · rfl
  · rename_i h
    exact (List.eq_nil_of_length_eq_zero (by omega)).symm

/-! ## Storing fields -/

/-- What `SET_FIELD` makes of a hash. -/
def assign (h : List UInt8 → Option (List UInt8)) (v : Compared) : List UInt8 → Option (List UInt8) :=
  if v.new ≠ v.old then fun f => if f = ascii v.name then some v.new else h f else h

theorem assign_of_ne {h : List UInt8 → Option (List UInt8)} {v : Compared} {field : List UInt8}
    (hf : field ≠ ascii v.name) : assign h v field = h field := by
  unfold assign
  split
  · exact if_neg hf
  · rfl

theorem assign_self {h : List UInt8 → Option (List UInt8)} {v : Compared}
    (hv : h (ascii v.name) = some v.old) : assign h v (ascii v.name) = some v.new := by
  unfold assign
  split
  · exact if_pos rfl
  · rename_i hne
    rw [hv, not_not.mp hne]

theorem foldl_assign_of_notMem {l : List Compared} {h : List UInt8 → Option (List UInt8)}
    {field : List UInt8} (hf : ∀ v ∈ l, field ≠ ascii v.name) : l.foldl assign h field = h field := by
  induction l generalizing h with
  | nil => rfl
  | cons v l ih =>
    rw [List.foldl_cons, ih fun w hw => hf w (List.mem_cons_of_mem v hw)]
    exact assign_of_ne (hf v List.mem_cons_self)

theorem compareAll_cons (a : String × BsonType) (names : List (String × BsonType))
    (o n : List UInt8) (olds news : List (List UInt8)) :
    compareAll (a :: names) (o :: olds) (n :: news) = ⟨a.1, a.2, o, n⟩ :: compareAll names olds news :=
  rfl

theorem mem_compareAll_name {names : List (String × BsonType)} {olds news : List (List UInt8)}
    {v : Compared} (hv : v ∈ compareAll names olds news) : (v.name, v.type) ∈ names := by
  obtain ⟨p, hp, rfl⟩ := List.mem_map.mp hv
  exact (List.of_mem_zip hp).1

theorem foldl_assign_compareAll {names : List (String × BsonType)} {olds news : List (List UInt8)}
    (hnd : (names.map fun a => ascii a.1).Nodup) (hlen : names.length = news.length)
    {h : List UInt8 → Option (List UInt8)}
    (hh : names.map (fun a => h (ascii a.1)) = olds.map some) :
    names.map (fun a => (compareAll names olds news).foldl assign h (ascii a.1)) =
      news.map some := by
  induction names generalizing olds news h with
  | nil =>
    rw [List.length_nil, eq_comm, List.length_eq_zero_iff] at hlen
    rw [hlen]
    rfl
  | cons a names ih =>
    obtain ⟨o, olds, rfl⟩ : ∃ o os, olds = o :: os :=
      List.exists_cons_of_ne_nil fun h => by rw [h] at hh; cases hh
    obtain ⟨n, news, rfl⟩ : ∃ n ns, news = n :: ns :=
      List.exists_cons_of_ne_nil fun h => by rw [h] at hlen; cases hlen
    rw [List.map_cons, List.nodup_cons] at hnd
    rw [List.map_cons, List.map_cons, List.cons.injEq] at hh
    obtain ⟨hfirst, hnd⟩ := hnd
    have hother : ∀ b ∈ names, ascii b.1 ≠ ascii a.1 := fun b hb he =>
      hfirst (List.mem_map.mpr ⟨b, hb, he⟩)
    rw [List.map_cons, List.map_cons, compareAll_cons, List.foldl_cons, List.cons.injEq]
    constructor
    · rw [foldl_assign_of_notMem]
      · exact assign_self hh.1
      · intro v hv he
        exact hother _ (mem_compareAll_name hv) he.symm
    · refine ih hnd (by simpa using hlen) ?_
      rw [← hh.2]
      exact List.map_congr_left fun b hb => assign_of_ne (hother b hb)

/-! ## Messages -/

def attributeWidth : BsonType → ℕ
  | .boolean => 1
  | _ => 8

/-- A field that can be compared: its values have the width of its type. -/
structure Fits (v : Compared) : Prop where
  type : v.type = .boolean ∨ v.type = .int64
  old : v.old.length = attributeWidth v.type
  new : v.new.length = attributeWidth v.type
  name : (ascii v.name).length ≤ 64

/-- A value as a message carries it. -/
def fieldValue (type : BsonType) (v : List UInt8) : Bson.Value :=
  if type = .boolean then .boolean (v ≠ [0]) else int64Of (leNat v)

def fieldElements (record : String) (writeCounter : ℕ) (v : Compared) :
    List (Bson.Key × Bson.Value) :=
  [(keyNamed "type" type_noNul, .string (ascii "metadata")),
    (keyNamed "transaction" transaction_noNul, int64Of writeCounter),
    (keyNamed "field" (by decide), .string (ascii (record ++ v.name))),
    (keyNamed "old" (by decide), fieldValue v.type v.old),
    (keyNamed "new" (by decide), fieldValue v.type v.new)]

def fieldDocument (record : String) (writeCounter : ℕ) (v : Compared) : List UInt8 :=
  frame (Document.ofElements (fieldElements record writeCounter v)).body

/-- The messages for the fields that have changed. -/
def notices (channel : List UInt8) (record : String) (writeCounter : ℕ) (l : List Compared) :
    List (List UInt8 × List UInt8) :=
  (l.filter fun v => v.old ≠ v.new).map fun v => (channel, fieldDocument record writeCounter v)

theorem notices_eq_nil_iff {channel : List UInt8} {record : String} {writeCounter : ℕ}
    {l : List Compared} : notices channel record writeCounter l = [] ↔ ∀ v ∈ l, v.old = v.new := by
  rw [notices, List.map_eq_nil_iff, List.filter_eq_nil_iff]
  simp

def announced (d : Db KvStore.Key) (ms : List (List UInt8 × List UInt8)) : Db KvStore.Key :=
  { d with messages := d.messages ++ ms }

/-- Messages that carry no data, on one channel. -/
def Notices (channel : List UInt8) (ms : List (List UInt8 × List UInt8)) : Prop :=
  ∀ m ∈ ms, m.1 = channel ∧ readData m.2 = none

theorem notices_notices (channel : List UInt8) (record : String) (writeCounter : ℕ)
    (l : List Compared) : Notices channel (notices channel record writeCounter l) := by
  intro m hm
  obtain ⟨v, -, rfl⟩ := List.mem_map.mp hm
  exact ⟨rfl, readData_metadata _⟩

theorem fieldValue_encodes (h : Heap) (key : String) (hk : 0 ∉ ascii key) {type : BsonType}
    {v : List UInt8} (ht : type = .boolean ∨ type = .int64) (hv : v.length = attributeWidth type) :
    Encodes h ⟨type, 0, v.length, ascii key, .bytes v⟩ (keyNamed key hk, fieldValue type v) ∧
      (fieldValue type v).payload.length ≤ 8 := by
  rcases ht with rfl | rfl
  · obtain ⟨b, rfl⟩ := List.length_eq_one_iff.mp hv
    refine ⟨.of_payload h rfl rfl ?_, by simp [fieldValue, Bson.Value.payload]⟩
    have hp := serializeBoolean_appends h b
    simp only [fieldValue, if_true, Bson.Value.payload, decide_eq_true_eq, ne_eq,
      List.cons.injEq, and_true]
    exact hp
  · have hpayload : (fieldValue .int64 v).payload = v := by
      have hle := leBytes_leNat v
      rw [hv] at hle
      exact hle
    refine ⟨.of_payload h rfl rfl ?_, by rw [hpayload]; exact hv.le⟩
    rw [hpayload]
    exact serializeFixed_appends h 8 v hv

theorem fieldKvs_encodes (h : Heap) (record : String) {v : Compared} (hv : Fits v)
    (writeCounter : ℕ) :
    List.Forall₂ (Encodes h) (Inspector.fieldKvs (record ++ v.name) "metadata" v.type v.old v.new
      writeCounter) (fieldElements record writeCounter v) :=
  .cons (stringKv_encodes _ _ _ _) <| .cons (int64Kv_encodes _ _ _ _) <|
    .cons (stringKv_encodes _ _ _ _) <|
      .cons (fieldValue_encodes h "old" (by decide) hv.type hv.old).1 <|
        .cons (fieldValue_encodes h "new" (by decide) hv.type hv.new).1 .nil

theorem fieldDocument_length (h : Heap) {record : String} (hrecord : (ascii record).length ≤ 64)
    {v : Compared} (hv : Fits v) (writeCounter : ℕ) :
    (fieldDocument record writeCounter v).length ≤ maxSize := by
  have hold := (fieldValue_encodes h "old" (by decide) hv.type hv.old).2
  have hnew := (fieldValue_encodes h "new" (by decide) hv.type hv.new).2
  have hname : (ascii (record ++ v.name)).length ≤ 128 := by
    have h := hv.name
    simp only [ascii, String.toList_append, List.map_append, List.length_append,
      List.length_map] at h hrecord ⊢
    omega
  have hpayload : ∀ text, (Bson.Value.string text).payload = stringBytes text := fun _ => rfl
  have hword : (int64Of writeCounter).payload.length = 8 := leBytes_length 8 writeCounter
  have hkeys : (ascii "type").length + (ascii "metadata").length + (ascii "transaction").length +
    (ascii "field").length + (ascii "old").length + (ascii "new").length = 34 := rfl
  simp only [fieldDocument, fieldElements, frame_length, List.length_append, keyNamed, hpayload,
    stringBytes_length, hword, Document.ofElements, Document.body, List.length_nil,
    List.length_singleton]
  rw [maxSize]
  omega

theorem compareAll_fits {names : List (String × BsonType)} {olds news : List (List UInt8)}
    (hnames : ∀ a ∈ names, (a.2 = .boolean ∨ a.2 = .int64) ∧ (ascii a.1).length ≤ 64)
    (holds : olds.map List.length = names.map fun a => attributeWidth a.2)
    (hnews : news.map List.length = names.map fun a => attributeWidth a.2) :
    ∀ v ∈ compareAll names olds news, Fits v := by
  induction names generalizing olds news with
  | nil => simp [compareAll]
  | cons a names ih =>
    obtain ⟨o, olds, rfl⟩ : ∃ o os, olds = o :: os :=
      List.exists_cons_of_ne_nil fun h => by rw [h] at holds; cases holds
    obtain ⟨n, news, rfl⟩ : ∃ n ns, news = n :: ns :=
      List.exists_cons_of_ne_nil fun h => by rw [h] at hnews; cases hnews
    rw [List.map_cons, List.map_cons, List.cons.injEq] at holds hnews
    have ha := hnames a List.mem_cons_self
    intro v hv
    rw [compareAll_cons, List.mem_cons] at hv
    rcases hv with rfl | hv
    · exact ⟨ha.1, holds.1, hnews.1, ha.2⟩
    · exact ih (fun b hb => hnames b (List.mem_cons_of_mem a hb)) holds.2 hnews.2 v hv

namespace Inspector

variable {σ : Type} {c : Inspector σ} (L : Lawful c.service) {s : State σ} {d : Db KvStore.Key}
  {k : KvStore.Key} {id : ℕ} {h : List UInt8 → Option (List UInt8)}

section Store

variable {fmt : ℕ → List UInt8 → List UInt8 → Command KvStore.Key}
  (hfmt : ∀ field value, fmt id field value = .hset k field value)

include hfmt

theorem setField_at (hs : L.At s d) (hk : d.keys k = some (.hash h)) (v : Compared) :
    Ensures (c.setField fmt id v) s fun _ t =>
      L.At t (d.put k (some (.hash (assign h v)))) := by
  unfold setField assign
  split
  · refine (append_at L hs (by simp [hfmt])).mono fun _ t ht => ?_
    have hafter : d.after (fmt id (ascii v.name) v.new) =
        d.put k (some (.hash fun f => if f = ascii v.name then some v.new else h f)) := by
      simp only [Db.after, hfmt, exec, Db.hashAt, hk, Option.elim_some]
    rw [← hafter]
    exact ht
  · rw [put_self hk]
    exact ensures_pure hs

theorem setFields_at (hs : L.At s d) (hk : d.keys k = some (.hash h)) (l : List Compared) :
    Ensures (l.forM (c.setField fmt id)) s fun _ t =>
      L.At t (d.put k (some (.hash (l.foldl assign h)))) := by
  induction l generalizing s d h with
  | nil =>
    rw [List.foldl_nil, put_self hk]
    exact ensures_pure hs
  | cons v l ih =>
    change Ensures (_ >>= fun _ => _) s _
    refine (setField_at L hfmt hs hk v).bind fun _ t ht => ?_
    refine (ih ht (keys_put_self _)).mono fun _ u hu => ?_
    rw [put_put] at hu
    exact hu

end Store

section Fetch

variable {fmt : ℕ → List UInt8 → Command KvStore.Key}
  (hfmt : ∀ field, fmt id field = .hget k field)

include hfmt

theorem getField_hash (hs : L.At s d) (hk : d.keys k = some (.hash h)) {name : String}
    {b old : List UInt8} (hb : h (ascii name) = some b) (hlen : b.length = old.length) :
    Ensures (c.getField fmt id name old) s fun v t => v = b ∧ L.At t d := by
  refine (getField_at L hs (by simp [hfmt]) (by rw [hfmt]; rfl) old).mono ?_
  rintro _ t ⟨rfl, ht⟩
  refine ⟨?_, ht⟩
  rw [hfmt, answer_hget hk hb, copyString_of_le hlen.le, overlay,
    List.drop_eq_nil_of_le hlen.ge, List.append_nil]

/-- Reading a row of fields into variables of their sizes. -/
theorem getFields_at (hs : L.At s d) (hk : d.keys k = some (.hash h))
    {names : List (String × BsonType)} {olds values : List (List UInt8)}
    (hlen : names.length = olds.length)
    (hwidths : olds.map List.length = values.map List.length)
    (hvalues : names.map (fun a => h (ascii a.1)) = values.map some) :
    Ensures ((names.zip olds).mapM fun p => c.getField fmt id p.1.1 p.2) s
      fun vs t => vs = values ∧ L.At t d := by
  refine ensures_mapM (I := fun t => L.At t d) ?_ hs
  induction names generalizing olds values with
  | nil =>
    rw [List.map_nil, eq_comm, List.map_eq_nil_iff] at hvalues
    rw [hvalues]
    exact .nil
  | cons a names ih =>
    obtain ⟨v, values, rfl⟩ : ∃ v vs, values = v :: vs :=
      List.exists_cons_of_ne_nil fun h => by rw [h] at hvalues; cases hvalues
    obtain ⟨o, olds, rfl⟩ : ∃ o os, olds = o :: os :=
      List.exists_cons_of_ne_nil fun h => by rw [h] at hlen; cases hlen
    rw [List.map_cons, List.map_cons, List.cons.injEq] at hwidths hvalues
    refine .cons (fun t ht => getField_hash L hfmt ht hk hvalues.1 hwidths.1.symm) ?_
    exact ih (by simpa using hlen) hwidths.2 hvalues.2

end Fetch

section Compare

variable {record : String} (hrecord : (ascii record).length ≤ 64)

include hrecord

theorem directFieldCompare_at (hs : L.At s d) {v : Compared} (hv : Fits v) (channel : List UInt8)
    (writeCounter : ℕ) :
    Ensures (c.directFieldCompare record channel writeCounter v) s fun _ t =>
      L.At t (announced d (notices channel record writeCounter [v])) := by
  unfold directFieldCompare
  split
  · rename_i hne
    have hone : notices channel record writeCounter [v] =
        [(channel, fieldDocument record writeCounter v)] := by
      rw [notices, List.filter_singleton, decide_eq_true hne]
      rfl
    rw [hone]
    exact publish_at L hs (fieldKvs_encodes c.heap record hv writeCounter)
      (fieldDocument_length c.heap hrecord hv writeCounter)
  · rename_i heq
    have hnone : notices channel record writeCounter [v] = [] := by
      rw [notices, List.filter_singleton, decide_eq_false heq]
      rfl
    rw [hnone, announced, List.append_nil]
    exact ensures_pure hs

/-- A message for every field of the row that has changed. -/
theorem compareFields_at (hs : L.At s d) {l : List Compared} (hl : ∀ v ∈ l, Fits v)
    (channel : List UInt8) (writeCounter : ℕ) :
    Ensures (l.forM (c.directFieldCompare record channel writeCounter)) s fun _ t =>
      L.At t (announced d (notices channel record writeCounter l)) := by
  induction l generalizing s d with
  | nil =>
    refine ensures_pure ?_
    rw [notices, List.filter_nil, List.map_nil, announced, List.append_nil]
    exact hs
  | cons v l ih =>
    change Ensures (_ >>= fun _ => _) s _
    refine (directFieldCompare_at L hrecord hs (hl v List.mem_cons_self) channel
      writeCounter).bind fun _ t ht => ?_
    refine (ih ht fun w hw => hl w (List.mem_cons_of_mem v hw)).mono fun _ u hu => ?_
    have hcons : notices channel record writeCounter (v :: l) =
        notices channel record writeCounter [v] ++ notices channel record writeCounter l := by
      rw [notices, notices, notices, ← List.map_append, ← List.filter_append, List.singleton_append]
    rw [hcons, announced, ← List.append_assoc]
    exact hu

end Compare

end Inspector

end GammaRay.Inspect
