import Postino.Lib.BTree
import Postino.Lib.Float64
import Postino.Id

/-!
# Values

What a key can hold: strings, lists, hashes, sets, sorted sets and streams,
each entry with an optional expiry. Collections are kept in Rust's ordered
maps; the index from member to score is a hash map there, and its order is
never looked at.
-/

namespace Postino

open Lib

/-- A member with its score, in the order a sorted set keeps them: by
`f64::total_cmp`, then by name. -/
abbrev Ranked := F64 ×ₗ String

instance ranked_trans : Std.TransCmp (compare : Ranked → Ranked → Ordering) := inferInstance

/-- Members ordered by (score, member), with an index from member to score. -/
structure ZSet where
  scores : BTreeMap String F64 := ∅
  order : BTreeSet Ranked := ∅
  deriving DecidableEq

namespace ZSet

/-- Sets a member's score; returns true when the member is new. -/
def insert (z : ZSet) (member : String) (score : F64) : Bool × ZSet :=
  -- -0 and +0 are the same score
  let score := score.canonical
  match z.scores[member]? with
  | some old =>
    (false, { scores := z.scores.insert member score
              order := (z.order.erase (toLex (old, member))).insert (toLex (score, member)) })
  | none =>
    (true, { scores := z.scores.insert member score
             order := z.order.insert (toLex (score, member)) })

def remove (z : ZSet) (member : String) : Bool × ZSet :=
  match z.scores[member]? with
  | some score =>
    (true, { scores := z.scores.erase member
             order := z.order.erase (toLex (score, member)) })
  | none => (false, z)

def len (z : ZSet) : Nat := z.scores.size

def is_empty (z : ZSet) : Bool := z.scores.isEmpty

/-- Members with a score between `min` and `max`, each given as
`(score, exclusive)`, in score order. -/
def by_score (z : ZSet) (min max : F64 × Bool) : List Ranked :=
  -- a score's first member sorts with the empty name
  let first (score : F64) : Ranked := toLex (score, "")
  let lower :=
    if min.2 then
      if min.1.eq .infinity then none else some (first min.1.next_up)
    else some (first min.1)
  let upper :=
    if max.2 then some (first max.1)
    else if max.1.eq .infinity then none else some (first max.1.next_up)
  match lower with
  | none => []
  | some lo => z.order.toList.filter fun r =>
      lo ≤ r && (match upper with | some hi => r < hi | none => true)

def rank (z : ZSet) (member : String) : Option Nat :=
  (z.scores[member]?).map fun score =>
    (z.order.toList.filter fun r => r < toLex (score, member)).length

end ZSet

structure Pending where
  consumer : String
  delivered : Nat
  count : Nat
  deriving DecidableEq

structure Consumer where
  seen : Nat := 0
  active : Option Nat := none
  deriving DecidableEq

structure Group where
  last_delivered : Id := .zero
  read : Nat := 0
  pending : BTreeMap Id Pending := ∅
  consumers : BTreeMap String Consumer := ∅
  deriving DecidableEq

structure Stream where
  entries : BTreeMap Id (List (String × String)) := ∅
  last_id : Id := .zero
  added : Nat := 0
  max_deleted : Id := .zero
  groups : BTreeMap String Group := ∅
  deriving DecidableEq

namespace Stream

def drop_oldest : Nat → Stream → Stream
  | 0, s => s
  | count + 1, s =>
    match s.entries.minEntry? with
    | some (id, _) =>
      drop_oldest count
        { s with entries := s.entries.erase id, max_deleted := max s.max_deleted id }
    | none => drop_oldest count s

/-- Keeps the newest `keep` entries; returns how many were dropped. -/
def trim_to (s : Stream) (keep : Nat) : Nat × Stream :=
  let excess := s.entries.size - keep
  (excess, s.drop_oldest excess)

/-- Drops the entries before `min`; returns how many there were. -/
def trim_before (s : Stream) (min : Id) : Nat × Stream :=
  let excess := (s.entries.below min).length
  (excess, s.drop_oldest excess)

end Stream

inductive Value where
  | string (s : String)
  | list (l : List String)
  | hash (h : BTreeMap String String)
  | set (s : BTreeSet String)
  | zset (z : ZSet)
  | stream (s : Stream)
  deriving DecidableEq

namespace Value

def type_name : Value → String
  | string _ => "string"
  | list _ => "list"
  | hash _ => "hash"
  | set _ => "set"
  | zset _ => "zset"
  | stream _ => "stream"

/-- Collections are deleted when they become empty; streams are kept. -/
def is_empty_collection : Value → Bool
  | list l => l.isEmpty
  | hash h => h.isEmpty
  | set s => s.isEmpty
  | zset z => z.is_empty
  | string _ | stream _ => false

end Value

structure Entry where
  value : Value
  expires : Option Nat := none
  deriving DecidableEq

/-- Whether an entry's time has come. -/
def Entry.expired (e : Entry) (now : Nat) : Bool :=
  match e.expires with
  | some at_ => at_ ≤ now
  | none => false

end Postino
