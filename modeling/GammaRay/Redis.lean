import GammaRay.Decimal

set_option autoImplicit false

/-!
# Redis

The commands of a Redis server that the programs use, over any type of keys. A command
on a key that holds a value of another type is an error and changes nothing. Entries do
not expire.
-/
namespace GammaRay.Redis
open Decimal

inductive Value where
  | string (b : List UInt8)
  | list (l : List (List UInt8))
  | hash (h : List UInt8 → Option (List UInt8))
  | set (s : List (List UInt8))

/-- The keys of a database and the messages published so far, with their channels. -/
structure Db (κ : Type) where
  keys : κ → Option Value
  messages : List (List UInt8 × List UInt8)

inductive Command (κ : Type) where
  | get (k : κ)
  | set (k : κ) (value : List UInt8)
  | setex (k : κ) (seconds : ℕ) (value : List UInt8)
  | del (k : κ)
  | incr (k : κ)
  | hset (k : κ) (field value : List UInt8)
  | hget (k : κ) (field : List UInt8)
  | lpush (k : κ) (value : List UInt8)
  | rpush (k : κ) (value : List UInt8)
  | brpop (k : κ)
  | llen (k : κ)
  | lindex (k : κ) (index : ℤ)
  | lrange (k : κ) (start stop : ℤ)
  | lset (k : κ) (index : ℤ) (value : List UInt8)
  | linsertBefore (k : κ) (pivot value : List UInt8)
  | sadd (k : κ) (member : List UInt8)
  | srem (k : κ) (member : List UInt8)
  | sdiff (k l : κ)
  | publish (channel message : List UInt8)

/-- `popped` is the two-element array of `BRPOP`: the name of the list and an element. -/
inductive Reply where
  | status
  | error
  | nil
  | integer (n : ℤ)
  | string (b : List UInt8)
  | array (l : List (List UInt8))
  | popped (b : List UInt8)
  deriving DecidableEq, Repr

variable {κ : Type} [DecidableEq κ]

def Db.empty : Db κ := ⟨fun _ => none, []⟩

def Db.put (db : Db κ) (k : κ) (v : Option Value) : Db κ :=
  { db with keys := fun x => if x = k then v else db.keys x }

/-- The list under a key; a key that is not there counts as an empty list. -/
def Db.listAt (db : Db κ) (k : κ) : Option (List (List UInt8)) :=
  match db.keys k with
  | none => some []
  | some (.list l) => some l
  | some _ => none

def Db.hashAt (db : Db κ) (k : κ) : Option (List UInt8 → Option (List UInt8)) :=
  match db.keys k with
  | none => some fun _ => none
  | some (.hash h) => some h
  | some _ => none

def Db.setAt (db : Db κ) (k : κ) : Option (List (List UInt8)) :=
  match db.keys k with
  | none => some []
  | some (.set s) => some s
  | some _ => none

/-- A list that has lost its last element is no longer there. -/
def Db.putList (db : Db κ) (k : κ) (l : List (List UInt8)) : Db κ :=
  db.put k (if l.isEmpty then none else some (.list l))

def Db.putSet (db : Db κ) (k : κ) (s : List (List UInt8)) : Db κ :=
  db.put k (if s.isEmpty then none else some (.set s))

/-- An index from the front, or from the back if it is negative. -/
def place (len : ℕ) (index : ℤ) : ℤ := if index < 0 then index + len else index

def insertBefore (pivot value : List UInt8) : List (List UInt8) → Option (List (List UInt8))
  | [] => none
  | x :: xs =>
    if x = pivot then some (value :: x :: xs)
    else (insertBefore pivot value xs).map fun ys => x :: ys

/-- The reply to a command and what it leaves; `none` while `BRPOP` waits. -/
def exec (db : Db κ) : Command κ → Option (Reply × Db κ)
  | .get k => some (match db.keys k with
      | none => .nil
      | some (.string b) => .string b
      | some _ => .error, db)
  | .set k value => some (.status, db.put k (some (.string value)))
  | .setex k _ value => some (.status, db.put k (some (.string value)))
  | .del k => some (.integer (if (db.keys k).isSome then 1 else 0), db.put k none)
  | .incr k => some (match db.keys k with
      | none => (.integer 1, db.put k (some (.string (dec 1))))
      | some (.string b) =>
        match scan b with
        | some n => (.integer (n + 1), db.put k (some (.string (dec (n + 1)))))
        | none => (.error, db)
      | some _ => (.error, db))
  | .hset k field value => some (match db.hashAt k with
      | none => (.error, db)
      | some h => (.integer (if (h field).isSome then 0 else 1),
          db.put k (some (.hash fun f => if f = field then some value else h f))))
  | .hget k field => some (match db.hashAt k with
      | none => .error
      | some h => match h field with
        | none => .nil
        | some b => .string b, db)
  | .lpush k value => some (match db.listAt k with
      | none => (.error, db)
      | some l => (.integer (l.length + 1), db.putList k (value :: l)))
  | .rpush k value => some (match db.listAt k with
      | none => (.error, db)
      | some l => (.integer (l.length + 1), db.putList k (l ++ [value])))
  | .brpop k => match db.listAt k with
      | none => some (.error, db)
      | some l => l.getLast?.map fun b => (.popped b, db.putList k l.dropLast)
  | .llen k => some (match db.listAt k with
      | none => .error
      | some l => .integer l.length, db)
  | .lindex k index => some (match db.listAt k with
      | none => .error
      | some l =>
        let i := place l.length index
        if i < 0 then .nil else match l[i.toNat]? with
          | none => .nil
          | some b => .string b, db)
  | .lrange k start stop => some (match db.listAt k with
      | none => .error
      | some l => .array ((l.take (place l.length stop + 1).toNat).drop
          (place l.length start).toNat), db)
  | .lset k index value => some (match db.listAt k with
      | none => (.error, db)
      | some l =>
        let i := place l.length index
        if 0 ≤ i ∧ i < l.length then (.status, db.putList k (l.set i.toNat value))
        else (.error, db))
  | .linsertBefore k pivot value => some (match db.listAt k with
      | none => (.error, db)
      | some l =>
        if l.isEmpty then (.integer 0, db)
        else match insertBefore pivot value l with
          | none => (.integer (-1), db)
          | some l' => (.integer l'.length, db.putList k l'))
  | .sadd k member => some (match db.setAt k with
      | none => (.error, db)
      | some s =>
        if member ∈ s then (.integer 0, db) else (.integer 1, db.putSet k (s ++ [member])))
  | .srem k member => some (match db.setAt k with
      | none => (.error, db)
      | some s =>
        if member ∈ s then (.integer 1, db.putSet k (s.erase member)) else (.integer 0, db))
  | .sdiff k l => some (match db.setAt k, db.setAt l with
      | some s, some t => .array (s.filter fun x => x ∉ t)
      | _, _ => .error, db)
  | .publish channel message =>
    some (.integer 0, { db with messages := db.messages ++ [(channel, message)] })

end GammaRay.Redis
