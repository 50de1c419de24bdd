import Postino.Commands.Strings

/-!
# Commands on hashes

Fields with values. A hash that has become empty is dropped with its key.
-/

namespace Postino

open Lib

namespace Exec

open Fallible

/-! ## Hashes -/

def hget (ctx : Ctx) (db : Db) : List String → Except Fault Reply
  | [_, key, field] =>
    (hash_ref db key ctx.now).map fun hash => bulk_or_nil (hash.bind fun h => h[field]?)
  | argv => .error (wrong_args_of argv)

def hmget (ctx : Ctx) (db : Db) : List String → Except Fault Reply
  | _ :: key :: field :: fields => do
    let hash ← hash_ref db key ctx.now
    values_within ((field :: fields).map fun field => hash.bind fun h => h[field]?)
  | argv => .error (wrong_args_of argv)

/-- The bytes of the pairs, counted as they are copied. -/
def pairs_within : Nat → List (String × String) → Except Fault Unit
  | _, [] => .ok ()
  | bytes, (f, v) :: pairs =>
    let bytes := bytes + (f.utf8ByteSize + v.utf8ByteSize + 8)
    match within_reply bytes with
    | .error e => .error e
    | .ok () => pairs_within bytes pairs

def hgetall (ctx : Ctx) (db : Db) : List String → Except Fault Reply
  | [_, key] => do
    let hash ← hash_ref db key ctx.now
    let pairs := hash.elim [] (·.toList)
    pairs_within 0 pairs
    pure (.map (pairs.map fun p => (p.1, .bulk p.2)))
  | argv => .error (wrong_args_of argv)

def hexists (ctx : Ctx) (db : Db) : List String → Except Fault Reply
  | [_, key, field] => (hash_ref db key ctx.now).map fun hash => .of_bool (hash.any (·.contains field))
  | argv => .error (wrong_args_of argv)

def hlen (ctx : Ctx) (db : Db) : List String → Except Fault Reply
  | [_, key] => (hash_ref db key ctx.now).map fun hash => .of_usize (hash.elim 0 (·.size))
  | argv => .error (wrong_args_of argv)

/-- HKEYS and HVALS. -/
def hlist (part : String × String → String) (ctx : Ctx) (db : Db) : List String → Except Fault Reply
  | [_, key] => do
    let hash ← hash_ref db key ctx.now
    collect_within ((hash.elim [] (·.toList)).map fun p => .bulk (part p))
  | argv => .error (wrong_args_of argv)

/-- Sets fields one after another; returns how many were new. -/
def put_fields : List (String × String) → BTreeMap String String → Nat × BTreeMap String String
  | [], hash => (0, hash)
  | (f, v) :: pairs, hash =>
    let (added, result) := put_fields pairs (hash.insert f v)
    (if hash.contains f then added else added + 1, result)

/-- Removes fields one after another; returns how many were there. -/
def remove_fields : List String → BTreeMap String String → Nat × BTreeMap String String
  | [], hash => (0, hash)
  | f :: fields, hash =>
    let (removed, result) := remove_fields fields (hash.erase f)
    (if hash.contains f then removed + 1 else removed, result)

section

variable [Json]

/-- HSET and HMSET. -/
def hset (name : String) (ctx : Ctx) : List String → Exec Error Reply
  | argv => do
    refuse (argv.length < 4 || argv.length % 2 = 1) (.fault (wrong_args name))
    let key := argv.getD 1 ""
    let pairs := chunks (argv.drop 2)
    let current ← reads (hash_ref · key ctx.now)
    within fun _ => room_for ctx (current.elim 0 (·.size)) pairs.length
    let added ← edit_or_create .hash ctx key fun hash =>
      let (added, hash) := put_fields pairs hash
      (.ok added, hash)
    let added ← require added
    touch ctx key "hset"
    pure (if name = "HMSET" then .ok else .of_usize added)

def hsetnx (ctx : Ctx) : List String → Exec Error Reply
  | [_, key, field, value] => do
    let current ← reads (hash_ref · key ctx.now)
    if current.any (·.contains field) then pure (.int 0)
    else do
      within fun _ => room_for ctx (current.elim 0 (·.size)) 1
      let done ← edit_or_create .hash ctx key fun hash => (.ok (), hash.insert field value)
      require done
      touch ctx key "hset"
      pure (.int 1)
  | argv => fail (.fault (wrong_args_of argv))

/-- What HINCRBY makes of a field: its text, and the reply. -/
def hincrby_next (existing : Option String) (amount : String) : Except Fault (String × Reply) := do
  let current ← match existing with
    | some v => (int v).mapError fun _ => .err "hash value is not an integer"
    | none => .ok 0
  let amount ← int amount
  match checked (current + amount) with
  | none => .error would_overflow
  | some next => .ok (toString next, .int next)

/-- What HINCRBYFLOAT makes of a field. -/
def hincrbyfloat_next (existing : Option String) (amount : String) : Except Fault (String × Reply) := do
  let current ← match existing with
    | some v => (float v).mapError fun _ => .err "hash value is not a float"
    | none => .ok F64.zero
  let amount ← float amount
  let next := F64.add current amount
  if next.isFinite then .ok (format_float next, .bulk (format_float next)) else .error not_finite

/-- HINCRBY and HINCRBYFLOAT. -/
def hincr (next : Option String → String → Except Fault (String × Reply)) (event : String) (ctx : Ctx) :
    List String → Exec Error Reply
  | [_, key, field, amount] => do
    let current ← reads (hash_ref · key ctx.now)
    let existing := current.bind fun h => h[field]?
    within fun _ =>
      if existing.isNone then room_for ctx (current.elim 0 (·.size)) 1 else .ok ()
    let (text, reply) ← attempt (next existing amount)
    let done ← edit_or_create .hash ctx key fun hash => (.ok (), hash.insert field text)
    require done
    touch ctx key event
    pure reply
  | argv => fail (.fault (wrong_args_of argv))

def hdel (ctx : Ctx) : List String → Exec Fault Reply
  | _ :: key :: field :: fields =>
    remove_counted .hash ctx key "hdel" (remove_fields (field :: fields))
  | argv => fail (wrong_args_of argv)

end

end Exec

end Postino
