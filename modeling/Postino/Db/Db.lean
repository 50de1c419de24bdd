import Postino.Db.Value

/-!
# The keyspace

The keys with their entries, the times they expire at, and the capture of a
snapshot that goes on while they change. Every change to a key goes through a
function here that first calls `preserve`, which lets the capture write the key
as it was when the capture began.

Writing a key or an entry as JSON is the serializer's: `Json` stands for it.
Values the keyspace lets go of are freed in the background, which nothing here
observes.
-/

namespace Postino

open Lib

abbrev Bytes := List UInt8

/-- The JSON text of a key's name and of an entry; `none` when the serializer
fails. -/
class Json where
  key : String → Option Bytes
  entry : Entry → Option Bytes

/-- How much one part of a capture holds. -/
def CAPTURE_PART : Nat := 2 ^ 20

/-- Keys removed per batch of the expire cycle at most. -/
def EXPIRE_BATCH : Nat := 1000

/-- The keyspace as it was at one moment, being written out as JSON while it
goes on changing. -/
structure Capture where
  /-- Which capture this is, so whoever drives one never drives another. -/
  number : Nat
  /-- Complete parts not yet handed out, and the one being filled. -/
  parts : List Bytes
  out : Bytes
  /-- Bytes moved from `out` to `parts` so far. -/
  filled : Nat
  /-- The last key written in order; keys up to it are done. -/
  cursor : Option String
  /-- Keys written out of order because they were about to change, or found
  missing then: the in-order pass skips them. -/
  early : BTreeSet String
  /-- Every key is written. -/
  done : Bool
  written : Nat
  broken : Bool

namespace Capture

/-- Bytes serialized so far. -/
def size (c : Capture) : Nat := c.filled + c.out.length

def passed (c : Capture) (key : String) : Bool :=
  c.done || match c.cursor with
    | some cursor => key ≤ cursor
    | none => false

/-- Moves a full part out of the way. -/
def split_part (c : Capture) : Capture :=
  if CAPTURE_PART ≤ c.out.length then
    { c with filled := c.filled + c.out.length, parts := c.parts ++ [c.out], out := [] }
  else c

variable [Json]

def write (c : Capture) (key : String) (entry : Entry) : Capture :=
  let c := c.split_part
  let out := if c.written > 0 then c.out ++ [','.toUInt8] else c.out
  match Json.key key, Json.entry entry with
  | some keyText, some entryText =>
    { c with out := out ++ keyText ++ [':'.toUInt8] ++ entryText, written := c.written + 1 }
  | _, _ => { c with broken := true }

/-- Writes keys in order until `budget` bytes are written since `start`, or the
keys end. Also returns the last key it came to. A budget of `usize::MAX` is `⊤`:
no memory holds that many bytes. -/
def write_run (start : Nat) (budget : WithTop Nat) :
    List (String × Entry) → Option String → Capture → Option String × Capture
  | [], last, c =>
    if ((c.size - start : Nat) : WithTop Nat) < budget then (last, { c with done := true })
    else (last, c)
  | (key, entry) :: run, last, c =>
    if ((c.size - start : Nat) : WithTop Nat) < budget then
      -- written, or found missing, when it changed
      if key ∈ c.early then
        write_run start budget run (some key) { c with early := c.early.erase key }
      else write_run start budget run (some key) (c.write key entry)
    else (last, c)

end Capture

structure Db where
  keys : BTreeMap String Entry := ∅
  /-- When keys expire, soonest first: the heap of the code, as the list it
  pops. An entry goes stale when its key's expiry changes or the key goes away;
  the expire cycle skips those. -/
  deadlines : List (Nat ×ₗ String) := []
  capture : Option Capture := none
  captures : Nat := 0

namespace Db

variable [Json]

/-! ## The capture -/

/-- Before `key` changes: a capture that has not reached it writes it now, as it
was when the capture began, or notes that it did not exist. -/
def preserve (db : Db) (key : String) : Db :=
  match db.capture with
  | none => db
  | some c =>
    if c.passed key || c.early.contains key then db
    else
      let c := { c with early := c.early.insert key }
      match db.keys[key]? with
      | some entry => { db with capture := some (c.write key entry) }
      -- a key made since the capture began is not part of it
      | none => { db with capture := some c }

/-- Starts a capture of the keyspace, after `out`, which holds what comes before
the keys. Returns its number. -/
def begin_capture (db : Db) (out : Bytes) : Nat × Db :=
  let capture : Capture :=
    { number := db.captures + 1, parts := [], filled := 0, out, cursor := none
      early := ∅, done := false, written := 0, broken := false }
  (db.captures + 1, { db with captures := db.captures + 1, capture := some capture })

/-- The parts of the capture that are complete, for writing out. -/
def drain_capture (db : Db) : List Bytes × Db :=
  match db.capture with
  | some c => (c.parts, { db with capture := some { c with parts := [] } })
  | none => ([], db)

/-- Writes the next run of keys, about `budget` bytes of them, to the capture.
Returns whether every key is written. -/
def capture_step (db : Db) (budget : WithTop Nat) : Bool × Db :=
  match db.capture with
  | none => (true, db)
  | some c =>
    if c.done then (true, db)
    else
      let run := match c.cursor with
        | some cursor => db.keys.above cursor
        | none => db.keys.toList
      -- the run after the last one's end, from where keys may have come and gone
      let (last, c) := c.write_run c.size budget run none
      let c := match last with
        | some key => { c with cursor := some key }
        | none => c
      (c.done, { db with capture := some c })

/-- Ends the capture, writing whatever it has not reached, and returns the keys
as one JSON object after what came before them, in parts. -/
def end_capture (db : Db) : Except String (List Bytes) × Db :=
  let (_, db) := db.capture_step ⊤
  match db.capture with
  | none => (.error "no snapshot is being taken", db)
  | some c =>
    let db := { db with capture := none }
    if c.broken then (.error "a key could not be serialized", db)
    else (.ok (c.parts ++ [c.out ++ ['}'.toUInt8]]), db)

/-! ## Changing keys -/

def insert (db : Db) (key : String) (entry : Entry) : Db :=
  let db := db.preserve key
  { db with keys := db.keys.insert key entry }

/-- Replaces what `key` holds, expired or not. When it holds nothing, `entry` is
handed back. -/
def replace (db : Db) (key : String) (entry : Entry) : Option Entry × Db :=
  let db := db.preserve key
  match db.keys[key]? with
  | some _ => (none, { db with keys := db.keys.insert key entry })
  -- handed back, so that a caller can keep it
  | none => (some entry, db)

/-- Removes a key, expired or not. -/
def take (db : Db) (key : String) : Option Entry × Db :=
  let db := db.preserve key
  (db.keys[key]?, { db with keys := db.keys.erase key })

def clear (db : Db) : Db :=
  -- a capture in progress writes everything it has not reached first
  let (_, db) := db.capture_step ⊤
  { db with keys := ∅ }

/-- A live key, or `none` when it is missing or expired. -/
def get (db : Db) (key : String) (now : Nat) : Option Entry :=
  (db.keys[key]?).filter fun e => !e.expired now

/-- A live key for writing; an expired key is removed first. What it returns is
changed with `put`. -/
def get_mut (db : Db) (key : String) (now : Nat) : Option Entry × Db :=
  let db := db.preserve key
  match db.keys[key]? with
  | some e => if e.expired now then (none, { db with keys := db.keys.erase key }) else (some e, db)
  | none => (none, db)

/-- Writes through the reference `get_mut` returned. -/
def put (db : Db) (key : String) (entry : Entry) : Db :=
  { db with keys := db.keys.insert key entry }

def exists_ (db : Db) (key : String) (now : Nat) : Bool := (db.get key now).isSome

def remove (db : Db) (key : String) (now : Nat) : Option Entry × Db :=
  let (entry, db) := db.take key
  (entry.filter fun e => !e.expired now, db)

/-- Deletes a key, returning whether it was live. -/
def delete (db : Db) (key : String) (now : Nat) : Bool × Db :=
  match db.take key with
  | (none, db) => (false, db)
  | (some entry, db) => (!entry.expired now, db)

/-- Drops a collection key that has become empty. -/
def prune (db : Db) (key : String) : Db :=
  match db.keys[key]? with
  | some e => if e.value.is_empty_collection then (db.take key).2 else db
  | none => db

/-! ## Walking the keys -/

def live_keys (db : Db) (now : Nat) : List (String × Entry) :=
  db.keys.toList.filter fun e => !e.2.expired now

/-- Keys after `after` that start with one of `prefixes`, expired ones included.
The prefixes must be sorted and none may start with another. -/
def with_prefixes (db : Db) (prefixes : List String) (after : Option String) :
    List (String × Entry) :=
  prefixes.flatMap fun pre =>
    let run := match after with
      | some after =>
        -- a walk that stands within the prefix goes on from there
        if pre ≤ after then db.keys.above after else db.keys.toList.filter fun e => pre ≤ e.1
      | none => db.keys.toList.filter fun e => pre ≤ e.1
    run.takeWhile fun e => e.1.startsWith pre

/-! ## Expiry -/

/-- Rebuilds the deadlines from the keys. -/
def reindex_deadlines (db : Db) : Db :=
  let due := db.keys.toList.filterMap fun e => e.2.expires.map fun at_ => toLex (at_, e.1)
  { db with deadlines := due.insertionSort (· ≤ ·) }

/-- Notes that `key` now expires at `at_`. The deadlines are rebuilt once stale
ones outnumber the keys. -/
def deadline (db : Db) (key : String) (at_ : Nat) : Db :=
  let db := { db with deadlines := db.deadlines.orderedInsert (· ≤ ·) (toLex (at_, key)) }
  if db.deadlines.length > 2 * db.keys.size + 1024 then db.reindex_deadlines else db

/-- The loop of `expire_keys`, with `visits` deadlines left to look at. -/
def expire_loop (now : Nat) : Nat → List String → Db → List String × Db
  | 0, expired, db => (expired, db)
  | visits + 1, expired, db =>
    match db.deadlines with
    | [] => (expired, db)
    | due :: rest =>
      let at_ := (ofLex due).1
      let key := (ofLex due).2
      if expired.length < EXPIRE_BATCH ∧ at_ ≤ now then
        let db := { db with deadlines := rest }
        -- stale where the key expires at another time by now, or is gone
        if (db.keys[key]?).any fun e => e.expires = some at_ then
          expire_loop now visits (expired ++ [key]) (db.take key).2
        else expire_loop now visits expired db
      else (expired, db)

/-- Removes a batch of keys whose time has come, returning their names. It visits
only keys that are due, and a bounded number of stale deadlines. -/
def expire_keys (db : Db) (now : Nat) : List String × Db :=
  db.expire_loop now (4 * EXPIRE_BATCH) []

end Db

end Postino
