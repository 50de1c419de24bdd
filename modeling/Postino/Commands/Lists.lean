import Postino.Commands.Hashes

/-!
# Commands on lists

Both ends of a list take and give elements, at once or waiting for one. A list that has
become empty is dropped with its key.
-/

namespace Postino

open Lib

namespace Exec

open Fallible

/-! ## Reading -/

def llen (ctx : Ctx) (db : Db) : List String → Except Fault Reply
  | [_, key] => (list_ref db key ctx.now).map fun list => .of_usize (list.elim 0 List.length)
  | argv => .error (wrong_args_of argv)

/-- The elements at the positions from `a` to `b`. -/
def slice {α : Type} (a b : Nat) (l : List α) : List α := (l.drop a).take (b - a + 1)

def lrange (ctx : Ctx) (db : Db) : List String → Except Fault Reply
  | [_, key, start, stop] => do
    let start ← int start
    let stop ← int stop
    let list ← list_ref db key ctx.now
    match list.bind fun l => (range_bounds start stop l.length).map fun range => (l, range) with
    | none => .ok (.array [])
    | some (l, (a, b)) => collect_within ((slice a b l).map .bulk)
  | argv => .error (wrong_args_of argv)

/-- The position an index counts to, from the end when it is negative. -/
def position (index : Int) (len : Nat) : Option Nat :=
  let i := if index < 0 then len + index else index
  if 0 ≤ i then some i.toNat else none

def lindex (ctx : Ctx) (db : Db) : List String → Except Fault Reply
  | [_, key, index] => do
    let index ← int index
    let list ← list_ref db key ctx.now
    pure (bulk_or_nil (list.bind fun l => (position index l.length).bind (l[·]?)))
  | argv => .error (wrong_args_of argv)

/-! ## Ends -/

/-- Adds items one after another, at the left end or the right. -/
def push_all (left : Bool) (items list : List String) : List String :=
  if left then items.reverse ++ list else list ++ items

/-- The item at an end, and the list without it. -/
def pop (left : Bool) : List String → Option String × List String
  | [] => (none, [])
  | item :: list =>
    if left then (some item, list)
    else (some ((item :: list).getLast (List.cons_ne_nil _ _)), (item :: list).dropLast)

/-- Up to `n` items, one after another. -/
def pop_many (left : Bool) : Nat → List String → List String × List String
  | 0, list => ([], list)
  | n + 1, list =>
    match pop left list with
    | (none, list) => ([], list)
    | (some item, list) =>
      let (items, list) := pop_many left n list
      (item :: items, list)

def push (left : Bool) (item : String) (list : List String) : List String :=
  if left then item :: list else list ++ [item]

/-- LREM from the left: drops the first `max` elements equal to `value`. -/
def remove_first (value : String) : Nat → List String → Nat × List String
  | 0, list => (0, list)
  | _ + 1, [] => (0, [])
  | max + 1, v :: list =>
    if v = value then
      let (removed, list) := remove_first value max list
      (removed + 1, list)
    else
      let (removed, list) := remove_first value (max + 1) list
      (removed, v :: list)

/-- LREM: from the right when `limit` is negative, without a bound when it is 0. -/
def remove_equal (limit : Int) (value : String) (list : List String) : Nat × List String :=
  let max := if limit = 0 then USIZE_MAX else limit.natAbs
  if 0 ≤ limit then remove_first value max list
  else
    let (removed, reversed) := remove_first value max list.reverse
    (removed, reversed.reverse)

def side (word : String) : Except Fault Bool :=
  if is word "LEFT" then .ok true else if is word "RIGHT" then .ok false else .error bad_syntax

/-- A timeout in seconds, as milliseconds rounded up. -/
def seconds_timeout (word : String) : Except Fault Nat :=
  match float word with
  | .error _ => .error (.err "timeout is not a float or out of range")
  | .ok seconds =>
    if F64.lt seconds .zero then .error (.err "timeout is negative")
    else
      let ms := (F64.mul seconds (.ofNat 1000)).ceil
      -- `i64::MAX as f64`
      if F64.lt (.ofNat (2 ^ 63)) ms then .error (.err "timeout is out of range")
      else .ok ms.toU64

section

variable [Json]

/-- LPUSH, RPUSH, LPUSHX and RPUSHX. -/
def lpush (left only_existing : Bool) (ctx : Ctx) : List String → Exec Error Reply
  | _ :: key :: item :: items => do
    let current ← reads (list_ref · key ctx.now)
    if only_existing && current.isNone then pure (.int 0)
    else do
      within fun _ => room_for ctx (current.elim 0 List.length) (item :: items).length
      let len ← edit_or_create .list ctx key fun list =>
        (.ok (push_all left (item :: items) list).length, push_all left (item :: items) list)
      let len ← require len
      touch ctx key (if left then "lpush" else "rpush")
      pure (.of_usize len)
  | argv => fail (.fault (wrong_args_of argv))

/-- LPOP and RPOP. -/
def lpop (left : Bool) (ctx : Ctx) (argv : List String) : Exec Fault Reply :=
  match argv with
  | _ :: key :: options => do
    refuse (1 < options.length) (wrong_args_of argv)
    let wanted ← attempt (options.head?.elim (.ok none) fun c => (count c).map some)
    let popped ← edit .list ctx key fun list =>
      let (popped, list) := pop_many left (wanted.getD 1) list
      (.ok popped, list)
    match popped with
    | none => pure .nil
    | some popped => do
      prune key
      provided (!popped.isEmpty) (touch ctx key (if left then "lpop" else "rpop"))
      pure (if wanted.isSome then Reply.bulks popped else bulk_or_nil popped.getLast?)
  | argv => fail (wrong_args_of argv)

def lset (ctx : Ctx) : List String → Exec Fault Reply
  | [_, key, index, value] => do
    let index ← attempt (int index)
    let done ← edit .list ctx key fun list =>
      match (position index list.length).filter (· < list.length) with
      | some i => (.ok (), list.set i value)
      | none => (.error (.err "index out of range"), list)
    match done with
    | none => fail no_such_key
    | some () => do
      touch ctx key "lset"
      pure .ok
  | argv => fail (wrong_args_of argv)

def lrem (ctx : Ctx) : List String → Exec Fault Reply
  | [_, key, limit, value] => do
    let limit ← attempt (int limit)
    remove_counted .list ctx key "lrem" (remove_equal limit value)
  | argv => fail (wrong_args_of argv)

/-- What LTRIM leaves of a list. -/
def trim_list (start stop : Int) (list : List String) : List String :=
  match range_bounds start stop list.length with
  | some (a, b) => (list.take (b + 1)).drop a
  | none => []

def ltrim (ctx : Ctx) : List String → Exec Fault Reply
  | [_, key, start, stop] => do
    let start ← attempt (int start)
    let stop ← attempt (int stop)
    let changed ← edit .list ctx key fun list =>
      (.ok (decide ((trim_list start stop list).length ≠ list.length)), trim_list start stop list)
    match changed with
    | none => pure .ok
    | some changed => do
      prune key
      provided changed (touch ctx key "ltrim")
      pure .ok
  | argv => fail (wrong_args_of argv)

/-- LINSERT's side of the pivot. -/
def before_pivot (word : String) : Except Fault Bool :=
  if is word "BEFORE" then .ok true else if is word "AFTER" then .ok false else .error bad_syntax

/-- The element beside its pivot, when the pivot is there and the list has room. -/
def insert_beside (ctx : Ctx) (before : Bool) (pivot value : String) (list : List String) :
    Except Error (Option Nat) × List String :=
  match list.idxOf? pivot with
  | none => (.ok none, list)
  | some at_ =>
    match room_for ctx list.length 1 with
    | .error e => (.error e, list)
    | .ok () => (.ok (some (list.length + 1)), list.insertIdx (if before then at_ else at_ + 1) value)

def linsert (ctx : Ctx) : List String → Exec Error Reply
  | [_, key, where_, pivot, value] => do
    let before ← attempt (before_pivot where_)
    let found ← edit .list ctx key (insert_beside ctx before pivot value)
    match found with
    | none => pure (.int 0)
    | some none => pure (.int (-1))
    | some (some len) => do
      touch ctx key "linsert"
      pure (.of_usize len)
  | argv => fail (.fault (wrong_args_of argv))

/-! ## Moving -/

/-- Moves an item from an end of one list to an end of another. Whatever can refuse the
move is checked before anything moves: an emptied source frees its key for a new
destination. -/
def lmove (ctx : Ctx) (src dst : String) (from_left to_left : Bool) : Exec Error Reply := do
  let source ← reads (list_ref · src ctx.now)
  match source.map List.length with
  | none => pure .nil
  | some source_len => do
    let dest ← reads (list_ref · dst ctx.now)
    let dest_len := dest.map List.length
    if source_len = 0 then pure .nil
    else do
      within fun db =>
        if src = dst then .ok ()
        else match room_for ctx (dest_len.getD 0) 1 with
          | .error e => .error e
          | .ok () => if dest_len.isNone && 1 < source_len then admit_ db dst ctx else .ok ()
      let item ← edit .list ctx src fun list => (.ok (pop from_left list).1, (pop from_left list).2)
      let item ← require item
      let item ← require item
      -- a list rotated onto itself keeps its key, and its expiry
      change fun db => if src = dst then db else db.prune src
      -- admitted above, or in the place of the emptied source
      change fun db => if dest_len.isNone then db.insert dst { value := .list [] } else db
      let done ← edit .list ctx dst fun list => (.ok (), push to_left item list)
      require done
      touch ctx src (if from_left then "lpop" else "rpop")
      touch ctx dst (if to_left then "lpush" else "rpush")
      pure (.bulk item)

def lmove_sides (ctx : Ctx) : List String → Exec Error Reply
  | [_, src, dst, from_side, to_side] => do
    let from_left ← attempt (side from_side)
    let to_left ← attempt (side to_side)
    lmove ctx src dst from_left to_left
  | argv => fail (.fault (wrong_args_of argv))

def rpoplpush (ctx : Ctx) : List String → Exec Error Reply
  | [_, src, dst] => lmove ctx src dst false true
  | argv => fail (.fault (wrong_args_of argv))

def blmove (ctx : Ctx) (argv : List String) : Exec Error Reply :=
  match argv with
  | [_, src, dst, from_side, to_side, timeout] => do
    let from_left ← attempt (side from_side)
    let to_left ← attempt (side to_side)
    let timeout ← attempt (seconds_timeout timeout)
    let source ← reads (list_ref · src ctx.now)
    if source.any fun l => !l.isEmpty then do
      let reply ← lmove ctx src dst from_left to_left
      let side (left : Bool) : String := if left then "LEFT" else "RIGHT"
      journal_as [["LMOVE", src, dst, side from_left, side to_left]]
      pure reply
    else do
      wait ctx argv timeout
      pure .nil
  | argv => fail (.fault (wrong_args_of argv))

/-- Pops from the first of `keys` that holds an item. -/
def blpop_keys (left : Bool) (ctx : Ctx) : List String → Exec Fault (Option Reply)
  | [] => pure none
  | key :: keys => do
    let item ← edit .list ctx key fun list => (.ok (pop left list).1, (pop left list).2)
    match item.join with
    | none => blpop_keys left ctx keys
    | some item => do
      prune key
      touch ctx key (if left then "lpop" else "rpop")
      journal_as [[if left then "LPOP" else "RPOP", key]]
      pure (some (Reply.bulks [key, item]))

/-- BLPOP and BRPOP. -/
def blpop (left : Bool) (ctx : Ctx) (argv : List String) : Exec Fault Reply := do
  refuse (argv.length < 3) (wrong_args_of argv)
  let timeout ← attempt (seconds_timeout (argv.getLastD ""))
  match ← blpop_keys left ctx argv.tail.dropLast with
  | some reply => pure reply
  | none => do
    wait ctx argv timeout
    pure .nil

end

end Exec

end Postino
