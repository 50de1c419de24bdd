import Postino.Commands.Groups

/-!
# The command language

Every command by its name; what one execution comes to; and what is known of a command
from its words alone: the keys it names, whether it may change them, and whether it may
make the keyspace bigger.

* `table_names` — the commands run here are those the keyspace understands, but for the
  three answered elsewhere.
-/

namespace Postino

open Lib

/-- A command's name in upper case. One longer than any command's reads as empty, which no
command is called. -/
def Name.of_ (argv : List String) : String :=
  let word := argv.headD ""
  if word.utf8ByteSize ≤ 24 then to_ascii_uppercase word else ""

/-! ## Where a command names its keys -/

inductive Keys where
  | none
  /-- The first argument. -/
  | first (write : Bool)
  /-- Every argument. -/
  | all (write : Bool)
  /-- `key value [key value ...]`. -/
  | pairs
  /-- A source and a destination, both changed. -/
  | two
  /-- Every argument but the trailing timeout. -/
  | all_but_last
  /-- The keys after `STREAMS`, reading options from this argument on. -/
  | streams (start : Nat) (write : Bool)
  /-- The argument after a subcommand. -/
  | second (write : Bool)

def key_spec (name : String) : Option Keys :=
  if name ∈ ["COMMAND", "DBSIZE", "ECHO", "FLUSHALL", "FLUSHDB", "INFO", "KEYS", "PING", "PUBLISH",
      "PUBSUB", "SCAN", "TIME"] then some .none
  else if name ∈ ["EXISTS", "MGET", "SDIFF", "SINTER", "SUNION"] then some (.all false)
  else if name ∈ ["DEL", "UNLINK"] then some (.all true)
  else if name ∈ ["MSET", "MSETNX"] then some .pairs
  else if name ∈ ["BLMOVE", "LMOVE", "RENAME", "RENAMENX", "RPOPLPUSH", "SMOVE"] then some .two
  else if name ∈ ["BLPOP", "BRPOP", "BZPOPMAX", "BZPOPMIN"] then some .all_but_last
  else if name = "XREAD" then some (.streams 1 false)
  else if name = "XREADGROUP" then some (.streams 4 true)
  else if name = "XGROUP" then some (.second true)
  else if name = "XINFO" then some (.second false)
  else if name ∈ ["EXPIRETIME", "GET", "HEXISTS", "HGET", "HGETALL", "HKEYS", "HLEN", "HMGET", "HVALS",
      "LINDEX", "LLEN", "LRANGE", "PEXPIRETIME", "PTTL", "SCARD", "SISMEMBER", "SMEMBERS", "SMISMEMBER",
      "SRANDMEMBER", "STRLEN", "TTL", "TYPE", "XLEN", "XPENDING", "XRANGE", "XREVRANGE", "ZCARD",
      "ZCOUNT", "ZMSCORE", "ZRANGE", "ZRANGEBYSCORE", "ZRANK", "ZREVRANGE", "ZREVRANGEBYSCORE",
      "ZREVRANK", "ZSCORE"] then some (.first false)
  else if name ∈ ["APPEND", "DECR", "DECRBY", "DELIFEQ", "EXPIRE", "EXPIREAT", "GETDEL", "GETEX",
      "GETSET", "HDEL", "HINCRBY", "HINCRBYFLOAT", "HMSET", "HSET", "HSETNX", "INCR", "INCRBY",
      "INCRBYFLOAT", "LINSERT", "LPOP", "LPUSH", "LPUSHX", "LREM", "LSET", "LTRIM", "PERSIST",
      "PEXPIRE", "PEXPIREAT", "PSETEX", "RPOP", "RPUSH", "RPUSHX", "SADD", "SET", "SETEX", "SETNX",
      "SPOP", "SREM", "XACK", "XADD", "XAUTOCLAIM", "XCLAIM", "XDEL", "XTRIM", "ZADD", "ZINCRBY",
      "ZPOPMAX", "ZPOPMIN", "ZREM", "ZREMRANGEBYRANK", "ZREMRANGEBYSCORE"] then some (.first true)
  else none

/-- The words from `i` on that follow options, where the stream keys are: the start of the
range and its length. -/
def stream_keys_loop : Nat → List String → Nat × Nat
  | _, [] => (0, 0)
  | i, word :: rest =>
    match to_ascii_uppercase word with
    | "COUNT" | "BLOCK" =>
      match rest with
      | _ :: rest => stream_keys_loop (i + 2) rest
      | [] => (0, 0)
    | "NOACK" => stream_keys_loop (i + 1) rest
    | "STREAMS" => (i + 1, rest.length / 2)
    | _ => (0, 0)

/-- The stream keys of `[COUNT n] [BLOCK ms] [NOACK] STREAMS k1.. id1..`, walked exactly as
the stream readers parse it. -/
def stream_keys (argv : List String) (start : Nat) : Nat × Nat := stream_keys_loop start (argv.drop start)

/-- The arguments of a command that are keys, each with whether the command may change it;
`none` for a command the keyspace does not know. -/
def key_args (argv : List String) : Option (List (Nat × Bool)) :=
  let len := argv.length
  let keys (start count : Nat) (write : Bool) : List (Nat × Bool) :=
    ((List.range' start count).filter (· < len)).map fun i => (i, write)
  (key_spec (Name.of_ argv)).map fun
    | .none => []
    | .first write => keys 1 1 write
    | .all write => keys 1 (len - 1) write
    | .pairs => (List.range' 1 (len / 2) 2).map fun i => (i, true)
    | .two => keys 1 2 true
    | .all_but_last => keys 1 (max (len - 1) 1 - 1) true
    | .streams start write => keys (stream_keys argv start).1 (stream_keys argv start).2 write
    -- checked after HELP too
    | .second write => keys 2 1 write

/-- Whether a command may change the keyspace. -/
def writes (argv : List String) : Bool :=
  let name := Name.of_ argv
  if name = "FLUSHALL" ∨ name = "FLUSHDB" then true
  else
    let len := argv.length
    match key_spec name with
    | none => false
    | some .none => false
    | some (.first write) | some (.all write) => write && 1 < len
    | some .pairs => 1 < len
    | some .two => 1 < len
    | some .all_but_last => 2 < len
    | some (.streams start write) =>
      let keys := stream_keys argv start
      write && keys.1 < len && keys.2 ≠ 0
    | some (.second write) => write && 2 < len

/-! ## Running a command -/

/-- How a command runs: it only looks, or it changes keys, which a limit may refuse. -/
inductive Handler where
  | looks (run : Ctx → Db → List String → Except Fault Reply)
  | changes (run : Ctx → List String → Exec Fault Reply)
  | limited (run : Ctx → List String → Exec Error Reply)

namespace Handler

open Exec

/-- A handler's faults are among all errors. -/
def run (h : Handler) (ctx : Ctx) (argv : List String) : Exec Error Reply :=
  match h with
  | looks f => reads fun db => f ctx db argv
  | changes f => fun r =>
    match f ctx argv r with
    | (.ok reply, r) => (.ok reply, r)
    | (.error f, r) => (.error (.fault f), r)
  | limited f => f ctx argv

end Handler

namespace Exec

open Handler

def looking_commands : List (String × Handler) :=
  [("PING", looks ping), ("ECHO", looks echo), ("TIME", looks time), ("DBSIZE", looks dbsize),
   ("COMMAND", looks command), ("EXISTS", looks exists_), ("TYPE", looks type),
   ("TTL", looks (ttl "TTL")), ("PTTL", looks (ttl "PTTL")), ("EXPIRETIME", looks (ttl "EXPIRETIME")),
   ("PEXPIRETIME", looks (ttl "PEXPIRETIME")), ("KEYS", looks keys), ("SCAN", looks scan),
   ("GET", looks get), ("MGET", looks mget), ("STRLEN", looks strlen),
   ("HGET", looks hget), ("HMGET", looks hmget), ("HGETALL", looks hgetall), ("HEXISTS", looks hexists),
   ("HLEN", looks hlen), ("HKEYS", looks (hlist Prod.fst)), ("HVALS", looks (hlist Prod.snd)),
   ("LLEN", looks llen), ("LRANGE", looks lrange), ("LINDEX", looks lindex),
   ("SMEMBERS", looks smembers), ("SISMEMBER", looks sismember), ("SMISMEMBER", looks smismember),
   ("SCARD", looks scard), ("SRANDMEMBER", looks srandmember), ("SINTER", looks (set_algebra "SINTER")),
   ("SUNION", looks (set_algebra "SUNION")), ("SDIFF", looks (set_algebra "SDIFF")),
   ("ZSCORE", looks zscore), ("ZMSCORE", looks zmscore), ("ZCARD", looks zcard), ("ZCOUNT", looks zcount),
   ("ZRANK", looks (zrank false)), ("ZREVRANK", looks (zrank true)),
   ("ZRANGE", looks (zrange true false false)), ("ZREVRANGE", looks (zrange false false true)),
   ("ZRANGEBYSCORE", looks (zrange false true false)),
   ("ZREVRANGEBYSCORE", looks (zrange false true true)),
   ("XLEN", looks xlen), ("XRANGE", looks (xrange false)), ("XREVRANGE", looks (xrange true)),
   ("XPENDING", looks xpending), ("XINFO", looks xinfo)]

section

variable [Json]

/-- Commands that leave less of what a key holds, or the same. -/
def removing_commands : List (String × Handler) :=
  [("DEL", changes del), ("UNLINK", changes del),
   ("EXPIRE", changes (expire "EXPIRE")), ("PEXPIRE", changes (expire "PEXPIRE")),
   ("EXPIREAT", changes (expire "EXPIREAT")), ("PEXPIREAT", changes (expire "PEXPIREAT")),
   ("PERSIST", changes persist), ("GETDEL", changes getdel), ("GETEX", changes getex),
   ("DELIFEQ", changes delifeq),
   ("HDEL", changes hdel),
   ("LPOP", changes (lpop true)), ("RPOP", changes (lpop false)), ("LSET", changes lset),
   ("LREM", changes lrem), ("LTRIM", changes ltrim), ("BLPOP", changes (blpop true)),
   ("BRPOP", changes (blpop false)),
   ("SREM", changes srem), ("SPOP", changes spop),
   ("ZREM", changes zrem), ("ZREMRANGEBYSCORE", changes zremrangebyscore),
   ("ZREMRANGEBYRANK", changes zremrangebyrank), ("ZPOPMIN", changes (zpop_one true)),
   ("ZPOPMAX", changes (zpop_one false)), ("BZPOPMIN", changes (bzpop true)),
   ("BZPOPMAX", changes (bzpop false)),
   ("XDEL", changes xdel), ("XTRIM", changes xtrim), ("XACK", changes xack)]

/-- Commands that put a string, or more elements, under a key. -/
def storing_commands : List (String × Handler) :=
  [("SET", limited set), ("SETNX", limited setnx), ("SETEX", limited (setex "SETEX")),
   ("PSETEX", limited (setex "PSETEX")), ("GETSET", limited getset), ("MSET", limited (mset "MSET")),
   ("MSETNX", limited (mset "MSETNX")), ("APPEND", limited append),
   ("INCR", limited (incr_one 1)), ("DECR", limited (incr_one (-1))),
   ("INCRBY", limited (incrby false)), ("DECRBY", limited (incrby true)),
   ("INCRBYFLOAT", limited incrbyfloat),
   ("HSET", limited (hset "HSET")), ("HMSET", limited (hset "HMSET")), ("HSETNX", limited hsetnx),
   ("HINCRBY", limited (hincr hincrby_next "hincrby")),
   ("HINCRBYFLOAT", limited (hincr hincrbyfloat_next "hincrbyfloat")),
   ("LPUSH", limited (lpush true false)), ("RPUSH", limited (lpush false false)),
   ("LPUSHX", limited (lpush true true)), ("RPUSHX", limited (lpush false true)),
   ("LINSERT", limited linsert), ("SADD", limited sadd),
   ("ZADD", limited zadd), ("ZINCRBY", limited zincrby)]

/-- Commands that move what one key holds to another. -/
def moving_commands : List (String × Handler) :=
  [("RENAME", changes (rename false)), ("RENAMENX", changes (rename true)),
   ("LMOVE", limited lmove_sides), ("RPOPLPUSH", limited rpoplpush), ("BLMOVE", limited blmove),
   ("SMOVE", limited smove)]

def stream_commands : List (String × Handler) :=
  [("XADD", limited xadd), ("XREAD", changes xread), ("XGROUP", limited xgroup),
   ("XREADGROUP", changes xreadgroup), ("XCLAIM", changes xclaim), ("XAUTOCLAIM", changes xautoclaim)]

def flushing_commands : List (String × Handler) :=
  [("FLUSHDB", changes flush), ("FLUSHALL", changes flush)]

def commands : List (String × Handler) :=
  looking_commands ++ removing_commands ++ storing_commands ++ moving_commands ++ stream_commands ++
    flushing_commands

def unknown_command (argv : List String) : Fault :=
  let args := " ".intercalate ((argv.tail.take 3).map fun a => s!"'{a}'")
  let name := argv.headD ""
  .err s!"unknown command '{name}', with args beginning with: {args}"

def dispatch (name : String) (ctx : Ctx) (argv : List String) : Exec Error Reply :=
  match commands.lookup name with
  | some h => h.run ctx argv
  | none => Fallible.fail (.fault (unknown_command argv))

end

end Exec

/-- What one execution comes to. -/
structure Outcome where
  reply : Reply
  dirty : Bool
  /-- Commands to journal instead of the original. -/
  propagate : Option (List (List String))
  /-- Changed keys with the event name. -/
  events : List (String × String)
  block : Option Block

/-- The commands to journal for an execution, if it changed anything. -/
def Outcome.journal (o : Outcome) (argv : List String) : List (List String) :=
  if !o.dirty || o.reply.is_error then []
  else match o.propagate with
    | some commands => commands
    | none => [argv]

section

variable [Json]

namespace Db

/-- How a command ends, on a keyspace. -/
def run (db : Db) (argv : List String) (ctx : Ctx) : Except Error Reply × Run :=
  match argv with
  | [] => (.error (.fault (.err "empty command")), { db })
  | argv => Exec.dispatch (Name.of_ argv) ctx argv { db }

def exec (db : Db) (argv : List String) (ctx : Ctx) : Outcome × Db :=
  let (result, r) := db.run argv ctx
  let reply : Reply := match result with
    | .ok reply => reply
    | .error e => .error e.text
  ({ reply, dirty := r.dirty && !reply.is_error, propagate := r.propagate, events := r.events
     block := r.block }, r.db)

end Db

/-- The commands run here, with the three the broker answers, are those understood. -/
theorem table_names (name : String) :
    name ∈ Exec.COMMANDS ↔
      name ∈ Exec.commands.map Prod.fst ∨ name ∈ ["INFO", "PUBLISH", "PUBSUB"] := by
  -- the names do not depend on the serializer
  have hNames : Exec.commands.map Prod.fst =
      (@Exec.commands ⟨fun _ => none, fun _ => none⟩).map Prod.fst := by
    simp only [Exec.commands, Exec.removing_commands, Exec.storing_commands, Exec.moving_commands,
      Exec.stream_commands, Exec.flushing_commands, List.map_append, List.map_cons, List.map_nil]
  have hPerm : Exec.COMMANDS.Perm
      ((@Exec.commands ⟨fun _ => none, fun _ => none⟩).map Prod.fst ++ ["INFO", "PUBLISH", "PUBSUB"]) := by
    decide +kernel
  rw [hNames, hPerm.mem_iff, List.mem_append]

end

end Postino
