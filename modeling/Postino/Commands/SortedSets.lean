import Postino.Commands.Sets

/-!
# Commands on sorted sets

Members with scores, read in score order. A sorted set that has become empty is dropped
with its key.
-/

namespace Postino

open Lib

namespace Exec

open Fallible

/-! ## Reading -/

def score_reply (score : Option F64) : Reply := bulk_or_nil (score.map format_float)

def zscore (ctx : Ctx) (db : Db) : List String → Except Fault Reply
  | [_, key, member] =>
    (zset_ref db key ctx.now).map fun zset => score_reply (zset.bind fun z => z.scores[member]?)
  | argv => .error (wrong_args_of argv)

def zmscore (ctx : Ctx) (db : Db) : List String → Except Fault Reply
  | _ :: key :: member :: members =>
    (zset_ref db key ctx.now).map fun zset =>
      .array ((member :: members).map fun m => score_reply (zset.bind fun z => z.scores[m]?))
  | argv => .error (wrong_args_of argv)

def zcard (ctx : Ctx) (db : Db) : List String → Except Fault Reply
  | [_, key] => (zset_ref db key ctx.now).map fun zset => .of_usize (zset.elim 0 ZSet.len)
  | argv => .error (wrong_args_of argv)

def zcount (ctx : Ctx) (db : Db) : List String → Except Fault Reply
  | [_, key, min, max] => do
    let min ← score_bound min
    let max ← score_bound max
    let zset ← zset_ref db key ctx.now
    pure (.of_usize (zset.elim 0 fun z => (z.by_score min max).length))
  | argv => .error (wrong_args_of argv)

/-- ZRANK and ZREVRANK. -/
def zrank (rev : Bool) (ctx : Ctx) (db : Db) : List String → Except Fault Reply
  | [_, key, member] =>
    (zset_ref db key ctx.now).map fun zset =>
      match zset.bind fun z => (z.rank member).map fun r => if rev then z.len - 1 - r else r with
      | some r => .of_usize r
      | none => .nil
  | argv => .error (wrong_args_of argv)

/-- What ZRANGE and its older forms ask for. -/
structure RangeOptions where
  by_score : Bool
  rev : Bool
  with_scores : Bool := false
  /-- An offset and a count, which is without a bound when it is negative. -/
  limit : Option (Nat × Int) := none

/-- The options after the bounds. Only ZRANGE itself takes BYSCORE and REV. -/
def range_options (plain : Bool) : List String → RangeOptions → Except Fault RangeOptions
  | [], o => .ok o
  | word :: rest, o =>
    let word := to_ascii_uppercase word
    if word = "BYSCORE" ∧ plain then range_options plain rest { o with by_score := true }
    else if word = "REV" ∧ plain then range_options plain rest { o with rev := true }
    else if word = "WITHSCORES" then range_options plain rest { o with with_scores := true }
    else if word = "LIMIT" then
      match rest with
      | offset :: count :: rest => do
        let offset ← int offset
        let count ← int count
        range_options plain rest { o with limit := some ((max offset 0).toNat, count) }
      | [offset] => (int offset).bind fun _ => .error bad_syntax
      | [] => .error bad_syntax
    else .error bad_syntax

/-- The members a range of a sorted set picks. -/
def range_picked (o : RangeOptions) (low high : String) (zset : ZSet) : Except Fault (List Ranked) :=
  let turned (l : List Ranked) : List Ranked := if o.rev then l.reverse else l
  if o.by_score then do
    -- reverse ranges list the maximum before the minimum
    let min ← score_bound (if o.rev then high else low)
    let max ← score_bound (if o.rev then low else high)
    let matching := turned (zset.by_score min max)
    pure <| match o.limit with
      | some (offset, count) =>
        if 0 ≤ count then (matching.drop offset).take count.toNat else matching.drop offset
      | none => matching
  else if o.limit.isSome then
    .error (.err "syntax error, LIMIT is only supported in combination with either BYSCORE or BYLEX")
  else do
    let start ← int low
    let stop ← int high
    pure <| match range_bounds start stop zset.len with
      | some (a, b) => slice a b (turned zset.order.toList)
      | none => []

/-- ZRANGE key start stop [BYSCORE] [REV] [LIMIT offset count] [WITHSCORES], and the older
ZREVRANGE, ZRANGEBYSCORE and ZREVRANGEBYSCORE. -/
def zrange (plain by_score rev : Bool) (ctx : Ctx) (db : Db) : List String → Except Fault Reply
  | _ :: key :: low :: high :: options => do
    let o ← range_options plain options { by_score, rev }
    match ← zset_ref db key ctx.now with
    | none => pure (.array [])
    | some zset => do
      let picked ← range_picked o low high zset
      collect_within (picked.flatMap fun r =>
        if o.with_scores then [.bulk (ofLex r).2, .bulk (format_float (ofLex r).1)]
        else [.bulk (ofLex r).2])
  | argv => .error (wrong_args_of argv)

/-! ## Adding -/

structure ZAddOptions where
  nx : Bool := false
  xx : Bool := false
  gt : Bool := false
  lt : Bool := false
  ch : Bool := false
  incr : Bool := false

/-- The flags of ZADD, and what follows them. -/
def zadd_flags : List String → ZAddOptions → ZAddOptions × List String
  | [], o => (o, [])
  | word :: rest, o =>
    match to_ascii_uppercase word with
    | "NX" => zadd_flags rest { o with nx := true }
    | "XX" => zadd_flags rest { o with xx := true }
    | "GT" => zadd_flags rest { o with gt := true }
    | "LT" => zadd_flags rest { o with lt := true }
    | "CH" => zadd_flags rest { o with ch := true }
    | "INCR" => zadd_flags rest { o with incr := true }
    | _ => (o, word :: rest)

def score_pairs (words : List String) : Except Fault (List (F64 × String)) :=
  (chunks words).mapM fun p => (float p.1).map fun score => (score, p.2)

/-- ZADD's flags, with the scores and members. -/
def zadd_args (words : List String) : Except Fault (ZAddOptions × List (F64 × String)) :=
  let (o, rest) := zadd_flags words {}
  if rest.isEmpty || rest.length % 2 = 1 then .error bad_syntax
  else if o.nx && o.xx then .error (.err "XX and NX options at the same time are not compatible")
  else if (o.gt && o.lt) || (o.nx && (o.gt || o.lt)) then
    .error (.err "GT, LT, and/or NX options at the same time are not compatible")
  else if o.incr && rest.length ≠ 2 then
    .error (.err "INCR option supports a single increment-element pair")
  else (score_pairs rest).map fun pairs => (o, pairs)

/-- What ZADD has done so far. -/
structure Added where
  added : Nat := 0
  changed : Nat := 0
  last : Option F64 := none

/-- Whether ZADD may give `score` to a member that has the score `old`. -/
def ZAddOptions.allow (o : ZAddOptions) (old : Option F64) (score : F64) : Bool :=
  match old with
  | none => !o.xx
  | some old => !o.nx && (!o.gt || F64.lt old score) && (!o.lt || F64.lt score old)

def bad_score : Fault := .err "resulting score is not a number (NaN)"

def zadd_loop (o : ZAddOptions) : List (F64 × String) → Added → ZSet → Except Error Added × ZSet
  | [], done, zset => (.ok done, zset)
  | (score, member) :: pairs, done, zset =>
    let old := zset.scores[member]?
    let score := if o.incr then F64.add (old.getD .zero) score else score
    if score.isNaN then (.error (.fault bad_score), zset)
    else if !o.allow old score then zadd_loop o pairs done zset
    else
      let done : Added :=
        { added := if old.isNone then done.added + 1 else done.added
          changed := if old.any fun old => !F64.eq old score then done.changed + 1 else done.changed
          last := some score }
      zadd_loop o pairs done (zset.insert member score).2

/-- How many of the pairs name a member the sorted set, if there is one, does not hold. -/
def unknown_members (pairs : List (F64 × String)) (zset : Option ZSet) : Nat :=
  (pairs.filter fun p => !zset.any (·.scores.contains p.2)).length

section

variable [Json]

def zadd (ctx : Ctx) : List String → Exec Error Reply
  | _ :: key :: a :: b :: words => do
    let (o, pairs) ← attempt (zadd_args (a :: b :: words))
    let current ← reads (zset_ref · key ctx.now)
    within fun _ =>
      if o.xx then .ok () else room_for ctx (current.elim 0 ZSet.len) (unknown_members pairs current)
    if o.xx && current.isNone then pure (if o.incr then .nil else .int 0)
    else do
      let done ← edit_or_create .zset ctx key (zadd_loop o pairs {})
      let done ← require done
      prune key
      provided (0 < done.added + done.changed) (touch ctx key (if o.incr then "zincr" else "zadd"))
      pure (if o.incr then score_reply done.last
        else .of_usize (if o.ch then done.added + done.changed else done.added))
  | argv => fail (.fault (wrong_args_of argv))

def zincrby (ctx : Ctx) : List String → Exec Error Reply
  | [_, key, amount, member] => do
    let amount ← attempt (float amount)
    let current ← reads (zset_ref · key ctx.now)
    let old := current.bind fun z => z.scores[member]?
    within fun _ => if old.isNone then room_for ctx (current.elim 0 ZSet.len) 1 else .ok ()
    let next := F64.add (old.getD .zero) amount
    refuse next.isNaN (.fault bad_score)
    let done ← edit_or_create .zset ctx key fun zset => (.ok (), (zset.insert member next).2)
    require done
    touch ctx key "zincr"
    pure (.bulk (format_float next))
  | argv => fail (.fault (wrong_args_of argv))

/-! ## Removing -/

/-- Removes members one after another; returns how many were there. -/
def remove_ranked : List String → ZSet → Nat × ZSet
  | [], zset => (0, zset)
  | m :: members, zset =>
    let (there, zset) := zset.remove m
    let (removed, zset) := remove_ranked members zset
    (if there then removed + 1 else removed, zset)

def zrem (ctx : Ctx) : List String → Exec Fault Reply
  | _ :: key :: member :: members =>
    remove_counted .zset ctx key "zrem" (remove_ranked (member :: members))
  | argv => fail (wrong_args_of argv)

/-- ZREMRANGEBYSCORE and ZREMRANGEBYRANK drop the members `doomed` picks. -/
def remove_doomed (doomed : ZSet → List Ranked) (zset : ZSet) : Nat × ZSet :=
  ((doomed zset).length, (remove_ranked ((doomed zset).map fun r => (ofLex r).2) zset).2)

def zremrangebyscore (ctx : Ctx) : List String → Exec Fault Reply
  | [_, key, min, max] => do
    let min ← attempt (score_bound min)
    let max ← attempt (score_bound max)
    remove_counted .zset ctx key "zremrangebyscore" (remove_doomed (·.by_score min max))
  | argv => fail (wrong_args_of argv)

/-- The members whose rank is in a range. -/
def by_rank (start stop : Int) (zset : ZSet) : List Ranked :=
  match range_bounds start stop zset.len with
  | some (a, b) => slice a b zset.order.toList
  | none => []

def zremrangebyrank (ctx : Ctx) : List String → Exec Fault Reply
  | [_, key, start, stop] => do
    let start ← attempt (int start)
    let stop ← attempt (int stop)
    remove_counted .zset ctx key "zremrangebyrank" (remove_doomed (by_rank start stop))
  | argv => fail (wrong_args_of argv)

/-- Takes up to `n` members from the low end or the high one. -/
def pop_ranked (min : Bool) : Nat → ZSet → List Ranked × ZSet
  | 0, zset => ([], zset)
  | n + 1, zset =>
    match if min then zset.order.toList.head? else zset.order.toList.getLast? with
    | none => ([], zset)
    | some r =>
      let (popped, zset) := pop_ranked min n (zset.remove (ofLex r).2).2
      (r :: popped, zset)

def zpop (ctx : Ctx) (key : String) (min : Bool) (n : Nat) : Exec Fault (List Reply) := do
  let popped ← edit .zset ctx key fun zset =>
    let (popped, zset) := pop_ranked min n zset
    (.ok popped, zset)
  match popped with
  | none => pure []
  | some popped => do
    prune key
    provided (!popped.isEmpty) (touch ctx key (if min then "zpopmin" else "zpopmax"))
    pure (popped.flatMap fun r => [.bulk (ofLex r).2, .bulk (format_float (ofLex r).1)])

/-- ZPOPMIN and ZPOPMAX. -/
def zpop_one (min : Bool) (ctx : Ctx) (argv : List String) : Exec Fault Reply :=
  match argv with
  | _ :: key :: options => do
    refuse (1 < options.length) (wrong_args_of argv)
    let n ← attempt (options.head?.elim (.ok 1) count)
    let popped ← zpop ctx key min n
    pure (.array popped)
  | argv => fail (wrong_args_of argv)

/-- Pops from the first of `keys` that holds a member. -/
def bzpop_keys (min : Bool) (ctx : Ctx) : List String → Exec Fault (Option Reply)
  | [] => pure none
  | key :: keys => do
    let zset ← reads (zset_ref · key ctx.now)
    if zset.any fun z => !z.is_empty then do
      let popped ← zpop ctx key min 1
      journal_as [[if min then "ZPOPMIN" else "ZPOPMAX", key]]
      pure (some (.array (.bulk key :: popped)))
    else bzpop_keys min ctx keys

/-- BZPOPMIN and BZPOPMAX. -/
def bzpop (min : Bool) (ctx : Ctx) (argv : List String) : Exec Fault Reply := do
  refuse (argv.length < 3) (wrong_args_of argv)
  let timeout ← attempt (seconds_timeout (argv.getLastD ""))
  match ← bzpop_keys min ctx argv.tail.dropLast with
  | some reply => pure reply
  | none => do
    wait ctx argv timeout
    pure .nil

end

end Exec

end Postino
