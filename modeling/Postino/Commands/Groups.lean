import Postino.Commands.Streams

/-!
# Commands on consumer groups

A group hands a stream's entries out to its consumers, and keeps each as pending until it
is acknowledged, claimed by another consumer, or found deleted.
-/

namespace Postino

open Lib

namespace Exec

open Fallible

/-! ## Groups and consumers -/

def xgroup_help : Reply :=
  Reply.bulks
    ["XGROUP CREATE <key> <group> <id|$> [MKSTREAM] [ENTRIESREAD <n>]",
     "XGROUP SETID <key> <group> <id|$>",
     "XGROUP DESTROY <key> <group>",
     "XGROUP CREATECONSUMER <key> <group> <consumer>",
     "XGROUP DELCONSUMER <key> <group> <consumer>"]

/-- The id a group starts after. -/
def resolve (s : Stream) (id : String) : Except Fault Id :=
  if id = "$" then .ok s.last_id else parse_id id 0

def key_required : Fault :=
  .err "The XGROUP subcommand requires the key to exist. Note that for CREATE you may want to use the MKSTREAM option to create an empty stream automatically."

def create_group (group id : String) (s : Stream) : Except Error Unit × Stream :=
  if s.groups.contains group then
    (.error (.fault ⟨"BUSYGROUP Consumer Group name already exists", by decide⟩), s)
  else match resolve s id with
    | .error f => (.error (.fault f), s)
    | .ok last_delivered => (.ok (), { s with groups := s.groups.insert group { last_delivered } })

/-- `edit` of a group of a stream, which may not be there. -/
def on_group {ε α : Type} (group : String) (absent : Except ε α) (f : Group → Except ε α × Group)
    (s : Stream) : Except ε α × Stream :=
  match s.groups[group]? with
  | none => (absent, s)
  | some record =>
    let (result, record) := f record
    (result, { s with groups := s.groups.insert group record })

/-- Whether a consumer is new to a group; it is known to it afterwards. -/
def create_consumer (now : Nat) (consumer : String) (record : Group) : Bool × Group :=
  if record.consumers.contains consumer then (false, record)
  else (true, { record with consumers := record.consumers.insert consumer { seen := now } })

/-- Drops a consumer with its pending entries: how many there were, and whether it was known. -/
def delete_consumer (consumer : String) (record : Group) : (Nat × Bool) × Group :=
  let pending := record.pending.filter fun _ p => p.consumer ≠ consumer
  ((record.pending.size - pending.size, record.consumers.contains consumer),
    { record with pending, consumers := record.consumers.erase consumer })

section

variable [Json]

def xgroup_create (ctx : Ctx) (key group id : String) (options : List String) : Exec Error Reply := do
  -- a bad id must fail before MKSTREAM creates anything
  attempt (if id = "$" then .ok () else (parse_id id 0).map fun _ => ())
  let s ← reads (stream_ref · key ctx.now)
  refuse (s.isNone && !options.any (is · "MKSTREAM")) (.fault key_required)
  let done ← edit_or_create .stream ctx key (create_group group id)
  require done
  touch ctx key "xgroup-create"
  pure .ok

def xgroup_setid (ctx : Ctx) (key group id : String) : Exec Error Reply := do
  let done ← edit .stream ctx key fun s =>
    match resolve s id with
    | .error f => (.error (.fault f), s)
    | .ok id =>
      on_group group (.error (.fault (nogroup key group "XGROUP")))
        (fun record => (.ok (), { record with last_delivered := id })) s
  match done with
  | none => fail (.fault (nogroup key group "XGROUP"))
  | some () => do
    touch ctx key "xgroup-setid"
    pure .ok

def xgroup_destroy (ctx : Ctx) (key group : String) : Exec Error Reply := do
  let removed ← edit .stream ctx key fun s =>
    (.ok (s.groups.contains group), { s with groups := s.groups.erase group })
  match removed with
  | none => pure (.int 0)
  | some removed => do
    provided removed (touch ctx key "xgroup-destroy")
    pure (.of_bool removed)

def xgroup_createconsumer (ctx : Ctx) (key group consumer : String) : Exec Error Reply := do
  let created ← edit .stream ctx key <|
    on_group group (.error (.fault (nogroup key group "XGROUP"))) fun record =>
      (.ok (create_consumer ctx.now consumer record).1, (create_consumer ctx.now consumer record).2)
  match created with
  | none => fail (.fault (nogroup key group "XGROUP"))
  | some created => do
    provided created (touch ctx key "xgroup-createconsumer")
    pure (.of_bool created)

def xgroup_delconsumer (ctx : Ctx) (key group consumer : String) : Exec Error Reply := do
  let deleted ← edit .stream ctx key <|
    on_group group (.error (.fault (nogroup key group "XGROUP"))) fun record =>
      (.ok (delete_consumer consumer record).1, (delete_consumer consumer record).2)
  match deleted with
  | none => fail (.fault (nogroup key group "XGROUP"))
  | some (pending, known) => do
    provided known (touch ctx key "xgroup-delconsumer")
    pure (.of_usize pending)

def xgroup (ctx : Ctx) (argv : List String) : Exec Error Reply :=
  match argv with
  | name :: sub :: args =>
    let arity : Exec Error Reply := fail (.fault (wrong_args name))
    if to_ascii_uppercase sub = "HELP" then pure xgroup_help
    else match args with
      | key :: group :: args =>
        match to_ascii_uppercase sub, args with
        | "CREATE", id :: options => xgroup_create ctx key group id options
        | "CREATE", [] => arity
        | "SETID", id :: _ => xgroup_setid ctx key group id
        | "SETID", [] => arity
        | "DESTROY", _ => xgroup_destroy ctx key group
        | "CREATECONSUMER", [consumer] => xgroup_createconsumer ctx key group consumer
        | "CREATECONSUMER", _ => arity
        | "DELCONSUMER", [consumer] => xgroup_delconsumer ctx key group consumer
        | "DELCONSUMER", _ => arity
        | _, _ => fail (.fault (.err s!"unknown subcommand '{sub}'. Try XGROUP HELP."))
      | _ => arity
  | argv => fail (.fault (wrong_args_of argv))

end

/-! ## Handing entries out -/

/-- A consumer's pending entries after an id. -/
def history (consumer : String) (after : Id) (limit : Nat) (record : Group) : List Id :=
  (((record.pending.above after).filter fun p => p.2.consumer = consumer).take limit).map Prod.fst

/-- The entries no consumer of the group was handed. -/
def fresh (limit : Nat) (s : Stream) (record : Group) : List (Id × List (String × String)) :=
  (s.entries.above record.last_delivered).take limit

/-- Hands entries out one after another. -/
def hand_out (consumer : String) (now : Nat) (noack : Bool) : List Id → Group → Group
  | [], record => record
  | id :: ids, record =>
    -- NOACK: handed out, and not waited for
    let pending := if noack then record.pending
      else record.pending.insert id { consumer, delivered := now, count := 1 }
    hand_out consumer now noack ids
      { record with last_delivered := id, read := record.read + 1, pending }

/-- The pending entries asked for again, and what became of their entries. -/
def history_replies (s : Stream) (ids : List Id) : List Reply :=
  ids.map fun id =>
    match s.entries[id]? with
    | some fields => entry_reply id fields
    -- deleted since, and still pending
    | none => .array [.bulk id.display, .nil]

/-- What a stream gives a reader. -/
structure Handed where
  items : List Reply
  /-- Whether the reader was new to the group. -/
  created : Bool

/-- The reader's seat, once it has read. -/
def seat (record : Group) (consumer : String) (now : Nat) (active : Bool) : Consumer :=
  let seat := (record.consumers[consumer]?).getD {}
  { seen := now, active := if active then some now else seat.active }

/-- Hands a stream's entries to a reader: those after `after` it was handed before, or,
without one, the next. -/
def hand_group (consumer : String) (now limit : Nat) (noack : Bool) (after : Option Id) (s : Stream)
    (record : Group) : Handed × Group :=
  let created := !record.consumers.contains consumer
  match after with
  | none =>
    let entries := fresh limit s record
    let seat := seat record consumer now (!entries.isEmpty)
    let record := { record with consumers := record.consumers.insert consumer seat }
    ({ items := entries.map fun e => entry_reply e.1 e.2, created },
      hand_out consumer now noack (entries.map Prod.fst) record)
  | some after =>
    let seat := seat record consumer now false
    let record := { record with consumers := record.consumers.insert consumer seat }
    ({ items := history_replies s (history consumer after limit record), created }, record)

def hand (group consumer : String) (now limit : Nat) (noack : Bool) (after : Option Id) (s : Stream) :
    Except Fault Handed × Stream :=
  on_group group (.error bad_syntax)
    (fun record =>
      (.ok (hand_group consumer now limit noack after s record).1,
        (hand_group consumer now limit noack after s record).2)) s

/-- The id entries are asked for again after; none for the next ones. -/
def asked_after (id : String) : Except Fault (Option Id) :=
  if id = ">" then .ok none else (parse_id id 0).map some

/-- Checks every stream and group named, and the size of the pending entries asked for
again, before anything changes. -/
def check_streams (ctx : Ctx) (db : Db) (group consumer : String) (limit : Nat) :
    List String → Nat → List (String × String) → Except Fault Unit
  | _, _, [] => .ok ()
  | seen, bytes, (key, id) :: rest =>
    if key ∈ seen then .error (.err s!"stream {debug key} is named twice; name each stream once")
    else do
      let s ← stream_ref db key ctx.now
      -- no stream and no group are one error
      match s.bind fun s => (s.groups[group]?).map fun record => (s, record) with
      | none => .error (nogroup key group "XREADGROUP")
      | some (s, record) => do
        match ← asked_after id with
        | none => check_streams ctx db group consumer limit (seen ++ [key]) bytes rest
        | some after => do
          -- what is asked for again is measured before anything changes
          let again := history consumer after limit record
          let bytes ← read_within bytes <|
            again.filterMap fun id => (s.entries[id]?).map fun fields => (id, fields)
          check_streams ctx db group consumer limit (seen ++ [key]) bytes rest

section

variable [Json]

/-- Reads the streams named, one after another: the replies, and whether any is new. -/
def read_groups (ctx : Ctx) (group consumer : String) (limit : Nat) (noack : Bool) :
    List (String × String) → Exec Fault (List Reply × Bool)
  | [] => pure ([], false)
  | (key, id) :: rest => do
    let after ← attempt (asked_after id)
    let handed ← edit .stream ctx key (hand group consumer ctx.now limit noack after)
    let handed ← require handed
    let new := !handed.items.isEmpty && after.isNone
    provided (handed.created || new) mark
    let (out, any_new) ← read_groups ctx group consumer limit noack rest
    -- a stream with nothing new is left out, one asked again never is
    let out := if after.isSome || !handed.items.isEmpty then
        .array [.bulk key, .array handed.items] :: out
      else out
    pure (out, new || any_new)

def xreadgroup (ctx : Ctx) (argv : List String) : Exec Fault Reply :=
  match argv with
  | _ :: word :: group :: consumer :: a :: b :: c :: words => do
    refuse (!is word "GROUP") bad_syntax
    let o ← attempt (read_options 4 (a :: b :: c :: words) {})
    let named := o.keys.zip o.ids
    reads (check_streams ctx · group consumer o.limit [] 0 named)
    let (out, any_new) ← read_groups ctx group consumer o.limit o.noack named
    -- only a read that asks for new entries, and found none, waits
    if !any_new && o.ids.all (· = ">") then
      match o.block with
      | none => pure .nil
      | some timeout_ms => do
        provided ctx.blocking (block_on { retry := o.without_block argv, timeout_ms })
        pure .nil
    else pure (.array out)
  | argv => fail (wrong_args_of argv)

/-! ## Acknowledging -/

/-- Removes pending entries one after another; returns how many were there. -/
def ack_all : List Id → Group → Nat × Group
  | [], record => (0, record)
  | id :: ids, record =>
    let (acked, result) := ack_all ids { record with pending := record.pending.erase id }
    (if record.pending.contains id then acked + 1 else acked, result)

def xack (ctx : Ctx) : List String → Exec Fault Reply
  | _ :: key :: group :: id :: ids => do
    let ids ← attempt (parse_ids (id :: ids))
    let acked ← edit .stream ctx key <|
      on_group group (.ok 0) fun record => (.ok (ack_all ids record).1, (ack_all ids record).2)
    match acked with
    | none => pure (.int 0)
    | some acked => do
      provided (0 < acked) mark
      pure (.of_usize acked)
  | argv => fail (wrong_args_of argv)

end

/-! ## Claiming -/

/-- What a claim asks for: whose the entries become, how long they must have been idle,
and what is set on those taken. -/
structure Claim where
  consumer : String
  min_idle : Nat
  delivered : Nat
  retry : Option Nat := none
  force : Bool := false
  justid : Bool := false
  deriving DecidableEq

/-- The ids at the front of some words, and the words after them. -/
def leading_ids : List String → List Id × List String
  | [] => ([], [])
  | word :: rest =>
    match parse_id word 0 with
    | .ok id =>
      let (ids, words) := leading_ids rest
      (id :: ids, words)
    | .error _ => ([], word :: rest)

/-- XCLAIM's options: `[IDLE ms] [TIME ms] [RETRYCOUNT n] [FORCE] [JUSTID] [LASTID id]`. -/
def claim_options (now : Nat) : List String → Claim → Except Fault Claim
  | [], c => .ok c
  | word :: rest, c =>
    let word := to_ascii_uppercase word
    if word = "FORCE" then claim_options now rest { c with force := true }
    else if word = "JUSTID" then claim_options now rest { c with justid := true }
    else match rest with
      -- LASTID is taken and ignored, even as the last word
      | [] => if word = "LASTID" then .ok c else .error bad_syntax
      | value :: rest =>
        if word = "IDLE" then do
          let idle ← count value
          claim_options now rest { c with delivered := now - idle }
        else if word = "TIME" then do
          let delivered ← count value
          claim_options now rest { c with delivered }
        else if word = "RETRYCOUNT" then do
          let retry ← count value
          claim_options now rest { c with retry := some retry }
        else if word = "LASTID" then claim_options now rest c
        else .error bad_syntax

/-- XCLAIM's arguments after the consumer: what it asks for, and of which entries. -/
def claim_args (now : Nat) (consumer min_idle : String) (words : List String) :
    Except Fault (Claim × List Id) := do
  let min_idle ← count min_idle
  let (ids, options) := leading_ids words
  let c ← claim_options now options { consumer, min_idle, delivered := now }
  pure (c, ids)

/-- The entry a claim leaves in place of one it takes. -/
def Claim.taken (c : Claim) (p : Pending) : Pending :=
  { consumer := c.consumer
    delivered := c.delivered
    count := c.retry.getD (if c.justid then p.count else p.count + 1) }

def Claim.reply (c : Claim) (id : Id) (fields : List (String × String)) : Reply :=
  if c.justid then .bulk id.display else entry_reply id fields

/-- Claims entries one after another: the replies, whether a deleted one was found, and
what is pending then. -/
def claim_loop (c : Claim) (now : Nat) (s : Stream) :
    List Id → BTreeMap Id Pending → (List Reply × Bool) × BTreeMap Id Pending
  | [], pending => (([], false), pending)
  | id :: ids, pending =>
    -- FORCE makes an entry pending that was not
    match (pending[id]?).or (if c.force && s.entries.contains id then
        some { consumer := c.consumer, delivered := c.delivered, count := 0 } else none) with
    | none => claim_loop c now s ids pending
    | some p =>
      match s.entries[id]? with
      | none =>
        let ((out, _), pending) := claim_loop c now s ids (pending.erase id)
        ((out, true), pending)
      | some fields =>
        -- too soon; one never handed out, such as FORCE makes, is taken at once
        if now - p.delivered < c.min_idle ∧ 0 < p.count then
          claim_loop c now s ids (pending.insert id p)
        else
          let ((out, deleted), pending) := claim_loop c now s ids (pending.insert id (c.taken p))
          ((c.reply id fields :: out, deleted), pending)

/-- The consumers once one of them has been seen. -/
def saw (consumer : String) (now : Nat) (record : Group) : BTreeMap String Consumer :=
  record.consumers.insert consumer { (record.consumers[consumer]?).getD {} with seen := now }

/-- XCLAIM on a group: the replies, and whether anything changed. -/
def claim_group (c : Claim) (now : Nat) (ids : List Id) (s : Stream) (record : Group) :
    (List Reply × Bool) × Group :=
  let ((out, deleted), pending) := claim_loop c now s ids record.pending
  let record := { record with pending }
  -- a consumer that claims nothing is not seen
  if out.isEmpty then ((out, deleted), record)
  else ((out, true), { record with consumers := saw c.consumer now record })

/-- XAUTOCLAIM's options. -/
def autoclaim_options : List String → Nat → Bool → Except Fault (Nat × Bool)
  | [], limit, justid => .ok (limit, justid)
  | word :: rest, limit, justid =>
    if to_ascii_uppercase word = "JUSTID" then autoclaim_options rest limit true
    else if to_ascii_uppercase word = "COUNT" then
      match rest with
      | [] => .error bad_syntax
      | n :: rest => do
        let n ← count n
        autoclaim_options rest (max n 1) justid
    else .error bad_syntax

/-- What XAUTOCLAIM has found: the entries claimed, and the ids of those deleted. -/
structure AutoClaimed where
  claimed : List Reply := []
  deleted : List Reply := []

/-- Goes through candidates, all of them pending. -/
def autoclaim_loop (c : Claim) (now : Nat) (s : Stream) :
    List Id → BTreeMap Id Pending → AutoClaimed × BTreeMap Id Pending
  | [], pending => ({}, pending)
  | id :: ids, pending =>
    match s.entries[id]?, pending[id]? with
    | none, _ =>
      let (found, pending) := autoclaim_loop c now s ids (pending.erase id)
      ({ found with deleted := .bulk id.display :: found.deleted }, pending)
    | some _, none => autoclaim_loop c now s ids pending
    | some fields, some p =>
      if now - p.delivered < c.min_idle then autoclaim_loop c now s ids pending
      else
        let (found, pending) := autoclaim_loop c now s ids (pending.insert id (c.taken p))
        ({ found with claimed := c.reply id fields :: found.claimed }, pending)

/-- The pending entries an XAUTOCLAIM considers. -/
def candidates (start : Id) (limit : Nat) (pending : BTreeMap Id Pending) : List Id :=
  ((pending.toList.filter fun p => start ≤ p.1).take limit).map Prod.fst

/-- Where the next XAUTOCLAIM starts: `0-0` once nothing is left. -/
def next_start (considered : List Id) (pending : BTreeMap Id Pending) : Id :=
  match considered.getLast? with
  | none => .zero
  -- what is pending after the last one considered, whoever has it
  | some last => ((pending.above last).head?).elim .zero Prod.fst

def autoclaim_group (c : Claim) (now : Nat) (start : Id) (limit : Nat) (s : Stream) (record : Group) :
    (Reply × Bool) × Group :=
  let considered := candidates start limit record.pending
  let next := next_start considered record.pending
  let (found, pending) := autoclaim_loop c now s considered record.pending
  let record := { record with pending }
  let changed := !found.claimed.isEmpty || !found.deleted.isEmpty
  ((.array [.bulk next.display, .array found.claimed, .array found.deleted], changed),
    if changed then { record with consumers := saw c.consumer now record } else record)

section

variable [Json]

/-- XCLAIM key group consumer min-idle-time id.. [IDLE ms] [TIME ms] [RETRYCOUNT n] [FORCE]
[JUSTID] [LASTID id] -/
def xclaim (ctx : Ctx) : List String → Exec Fault Reply
  | _ :: key :: group :: consumer :: min_idle :: id :: words => do
    let (c, ids) ← attempt (claim_args ctx.now consumer min_idle (id :: words))
    let done ← edit .stream ctx key fun s =>
      on_group group (.error (nogroup key group "XCLAIM"))
        (fun record => (.ok (claim_group c ctx.now ids s record).1, (claim_group c ctx.now ids s record).2))
        s
    match done with
    | none => fail (nogroup key group "XCLAIM")
    | some (out, changed) => do
      provided changed mark
      pure (.array out)
  | argv => fail (wrong_args_of argv)

/-- XAUTOCLAIM's arguments after the consumer: what it asks for, from where, and of how many. -/
def autoclaim_args (now : Nat) (consumer min_idle start : String) (options : List String) :
    Except Fault (Claim × Id × Nat) := do
  let min_idle ← count min_idle
  let start ← range_start start
  let (limit, justid) ← autoclaim_options options 100 false
  pure ({ consumer, min_idle, delivered := now, justid }, start, limit)

/-- XAUTOCLAIM key group consumer min-idle-time start [COUNT n] [JUSTID] -/
def xautoclaim (ctx : Ctx) : List String → Exec Fault Reply
  | _ :: key :: group :: consumer :: min_idle :: start :: options => do
    let (c, start, limit) ← attempt (autoclaim_args ctx.now consumer min_idle start options)
    let done ← edit .stream ctx key fun s =>
      on_group group (.error (nogroup key group "XAUTOCLAIM"))
        (fun record => (.ok (autoclaim_group c ctx.now start limit s record).1,
          (autoclaim_group c ctx.now start limit s record).2))
        s
    match done with
    | none => fail (nogroup key group "XAUTOCLAIM")
    | some (reply, changed) => do
      provided changed mark
      pure reply
  | argv => fail (wrong_args_of argv)

end

/-! ## What is pending -/

/-- How many pending entries each consumer has, by name. -/
def per_consumer (pending : BTreeMap Id Pending) : BTreeMap String Nat :=
  pending.toList.foldl (fun per p => per.insert p.2.consumer ((per[p.2.consumer]?).getD 0 + 1)) ∅

def pending_summary (record : Group) : Reply :=
  if record.pending.isEmpty then .array [.int 0, .nil, .nil, .nil]
  else
    let ids := record.pending.toList.map Prod.fst
    .array
      [.of_usize record.pending.size,
       .bulk (ids.head?.elim "" Id.display),
       .bulk (ids.getLast?.elim "" Id.display),
       .array ((per_consumer record.pending).toList.map fun c => Reply.bulks [c.1, toString c.2])]

/-- XPENDING's range: `[IDLE ms] start end count [consumer]`. -/
def pending_range (now : Nat) (record : Group) (words : List String) : Except Fault Reply := do
  let (min_idle, words) ← match words with
    | word :: rest =>
      if is word "IDLE" then do
        let idle ← (value? rest).bind count
        pure (idle, rest.tail)
      else pure (0, word :: rest)
    | [] => pure (0, [])
  match words with
  | start :: last :: limit :: rest => do
    let start ← range_start start
    match ← range_end last with
    | none => pure (.array [])
    | some last => do
      let limit ← count limit
      let wanted (p : Id × Pending) : Bool :=
        rest.head?.all (· = p.2.consumer) && min_idle ≤ now - p.2.delivered
      let range := record.pending.toList.filter fun p => start ≤ p.1 ∧ p.1 ≤ last
      pure (.array (((range.filter wanted).take limit).map fun p =>
        .array [.bulk p.1.display, .bulk p.2.consumer, .int (as_i64 (now - p.2.delivered)),
          .int (as_i64 p.2.count)]))
  | _ => .error bad_syntax

def xpending (ctx : Ctx) (db : Db) : List String → Except Fault Reply
  | _ :: key :: group :: words => do
    let s ← stream_ref db key ctx.now
    match s.bind fun s => s.groups[group]? with
    | none => .error (nogroup key group "XPENDING")
    | some record => if words.isEmpty then pure (pending_summary record) else pending_range ctx.now record words
  | argv => .error (wrong_args_of argv)

/-! ## XINFO -/

/-- Goes over the marks in order, with the ids after the first that are left. -/
def lag_loop : List Id → Nat → List Id → List (Id × Nat)
  | [], _, _ => []
  | mark :: marks, remaining, walk =>
    let passed := walk.takeWhile (· ≤ mark)
    let remaining := remaining - passed.length
    (mark, remaining) :: lag_loop marks remaining (walk.drop passed.length)

/-- How many entries each group of a stream has yet to read, by the last id it read. -/
def lags (s : Stream) : List (Id × Nat) :=
  let marks := ((s.groups.toList.map fun g => g.2.last_delivered).insertionSort (· ≤ ·)).dedup
  match marks with
  | [] => []
  | first :: _ =>
    let walk := (s.entries.above first).map Prod.fst
    lag_loop marks walk.length walk

def stream_info (s : Stream) : Reply :=
  let edge (entry : Option (Id × List (String × String))) : Reply :=
    match entry with
    | some (id, fields) => entry_reply id fields
    | none => .nil
  .map
    [("length", .of_usize s.entries.size),
     ("last-generated-id", .bulk s.last_id.display),
     ("max-deleted-entry-id", .bulk s.max_deleted.display),
     ("entries-added", .int (as_i64 s.added)),
     ("groups", .of_usize s.groups.size),
     ("first-entry", edge s.entries.toList.head?),
     ("last-entry", edge s.entries.toList.getLast?)]

def groups_info (s : Stream) : Reply :=
  .array (s.groups.toList.map fun g =>
    .map
      [("name", .bulk g.1),
       ("consumers", .of_usize g.2.consumers.size),
       ("pending", .of_usize g.2.pending.size),
       ("last-delivered-id", .bulk g.2.last_delivered.display),
       ("entries-read", .int (as_i64 g.2.read)),
       ("lag", .of_usize (((lags s).lookup g.2.last_delivered).getD 0))])

def consumers_info (now : Nat) (record : Group) : Reply :=
  let pending := per_consumer record.pending
  .array (record.consumers.toList.map fun c =>
    .map
      [("name", .bulk c.1),
       ("pending", .of_usize ((pending[c.1]?).getD 0)),
       ("idle", .int (as_i64 (now - c.2.seen))),
       ("inactive", .int (c.2.active.elim (-1) fun active => as_i64 (now - active)))])

def xinfo_help : Reply :=
  Reply.bulks ["XINFO STREAM <key>", "XINFO GROUPS <key>", "XINFO CONSUMERS <key> <group>"]

def xinfo (ctx : Ctx) (db : Db) (argv : List String) : Except Fault Reply :=
  match argv with
  | name :: sub :: args =>
    let word := to_ascii_uppercase sub
    if word = "HELP" then .ok xinfo_help
    else if word ∉ ["STREAM", "GROUPS", "CONSUMERS"] then .error (.err s!"unknown subcommand '{sub}'")
    else match args with
      | [] => .error (wrong_args name)
      | key :: args => do
        match ← stream_ref db key ctx.now with
        | none => .error no_such_key
        | some s =>
          if word = "STREAM" then pure (stream_info s)
          else if word = "GROUPS" then pure (groups_info s)
          else match args with
            | [group] =>
              match s.groups[group]? with
              | none => .error (nogroup key group "XINFO")
              | some record => pure (consumers_info ctx.now record)
            | _ => .error (wrong_args name)
  | argv => .error (wrong_args_of argv)

end Exec

end Postino
