import Postino.Commands.Args

/-!
# Commands on keys

Listing, deleting, renaming and expiring keys whatever they hold, and the commands that
name no key. Those that only look are functions of the keyspace.
-/

namespace Postino

open Lib

/-- Keys a walk that has to run whole, as in a batch, may look at. -/
def WALK_WHOLE : Nat := 10000

namespace Exec

open Fallible

/-! ## No key -/

/-- Every command the keyspace understands, for `COMMAND`. -/
def COMMANDS : List String :=
  ["APPEND", "BLMOVE", "BLPOP", "BRPOP", "BZPOPMAX", "BZPOPMIN", "COMMAND", "DBSIZE", "DECR", "DECRBY",
   "DEL", "DELIFEQ", "ECHO", "EXISTS", "EXPIRE", "EXPIREAT", "EXPIRETIME", "FLUSHALL", "FLUSHDB", "GET",
   "GETDEL", "GETEX", "GETSET", "HDEL", "HEXISTS", "HGET", "HGETALL", "HINCRBY", "HINCRBYFLOAT", "HKEYS",
   "HLEN", "HMGET", "HMSET", "HSET", "HSETNX", "HVALS", "INCR", "INCRBY", "INCRBYFLOAT", "INFO", "KEYS",
   "LINDEX", "LINSERT", "LLEN", "LMOVE", "LPOP", "LPUSH", "LPUSHX", "LRANGE", "LREM", "LSET", "LTRIM",
   "MGET", "MSET", "MSETNX", "PERSIST", "PEXPIRE", "PEXPIREAT", "PEXPIRETIME", "PING", "PSETEX", "PTTL",
   "PUBLISH", "PUBSUB", "RENAME", "RENAMENX", "RPOP", "RPOPLPUSH", "RPUSH", "RPUSHX", "SADD", "SCAN",
   "SCARD", "SDIFF", "SET", "SETEX", "SETNX", "SINTER", "SISMEMBER", "SMEMBERS", "SMISMEMBER", "SMOVE",
   "SPOP", "SRANDMEMBER", "SREM", "STRLEN", "SUNION", "TIME", "TTL", "TYPE", "UNLINK", "XACK", "XADD",
   "XAUTOCLAIM", "XCLAIM", "XDEL", "XGROUP", "XINFO", "XLEN", "XPENDING", "XRANGE", "XREAD",
   "XREADGROUP", "XREVRANGE", "XTRIM", "ZADD", "ZCARD", "ZCOUNT", "ZINCRBY", "ZMSCORE", "ZPOPMAX",
   "ZPOPMIN", "ZRANGE", "ZRANGEBYSCORE", "ZRANK", "ZREM", "ZREMRANGEBYRANK", "ZREMRANGEBYSCORE",
   "ZREVRANGE", "ZREVRANGEBYSCORE", "ZREVRANK", "ZSCORE"]

def ping (_ctx : Ctx) (_db : Db) : List String → Except Fault Reply
  | [_] => .ok (.simple "PONG")
  | [_, message] => .ok (.bulk message)
  | _ => .error (wrong_args "ping")

def echo (_ctx : Ctx) (_db : Db) : List String → Except Fault Reply
  | [_, message] => .ok (.bulk message)
  | argv => .error (wrong_args_of argv)

def time (ctx : Ctx) (_db : Db) (_argv : List String) : Except Fault Reply :=
  let micros := ctx.now * 1000 % 2 ^ 64
  .ok (Reply.bulks [toString (micros / 1000000), toString (micros % 1000000)])

def command (_ctx : Ctx) (_db : Db) (argv : List String) : Except Fault Reply :=
  if (argv[1]?).any (to_ascii_uppercase · = "COUNT") then .ok (.of_usize COMMANDS.length)
  else .ok (Reply.bulks (COMMANDS.map to_ascii_lowercase))

/-- The error of a walk in a batch that would look at more than `WALK_WHOLE` keys. -/
def too_long (command : String) : String :=
  s!"{command} in a batch looks at {WALK_WHOLE} keys at most, while every other request waits; send it alone"

def dbsize (ctx : Ctx) (db : Db) (_argv : List String) : Except Fault Reply :=
  let scope := ctx.access.scope
  -- every key held, counted without visiting them
  if scope.is_all then .ok (.of_usize db.keys.size)
  else match walk db scope "" none (WALK_WHOLE + 1) ctx.now (fun _ _ keys => (true, keys + 1)) 0 with
    | (some _, _) => .error (.err (too_long "DBSIZE"))
    | (none, keys) => .ok (.of_usize keys)

def keys (ctx : Ctx) (db : Db) : List String → Except Fault Reply
  | [_, pattern] => do
    let pattern ← glob_client pattern
    let list (key : String) (_ : Entry) (keys : List String) : Bool × List String :=
      (true, if pattern.matches_ key then keys ++ [key] else keys)
    match walk db ctx.access.scope (literal_prefix_ pattern.source) none (WALK_WHOLE + 1) ctx.now list []
      with
    | (some _, _) => .error (.err (too_long "KEYS" ++ ", or page through the keys with SCAN"))
    | (none, keys) => collect_within (keys.map .bulk)
  | argv => .error (wrong_args_of argv)

/-- Errors of a SCAN's options are no limit's. -/
theorem scan_options_error (words : List String) (scan : Scan) (e : String)
    (h : scan.options words = .error e) : e.toList.head? ≠ some 'O' := by
  have hSyntax : SYNTAX.toList.head? ≠ some 'O' := by decide
  induction words using List.twoStepInduction generalizing scan with
  | nil => cases h
  | singleton => cases h; exact hSyntax
  | cons_cons name value rest ih _ =>
    unfold Scan.options at h
    split at h
    · split at h
      · exact ih _ h
      · next hClient =>
        cases h
        unfold Glob.client at hClient
        split at hClient
        · cases hClient
          exact no_limit_of_head (head_append (head_append (show _ = some 'E' by decide))) (by decide)
        · cases hClient
    · split at h
      · split at h
        · exact ih _ h
        · cases h; exact hSyntax
      · next hInt =>
        cases h
        unfold Postino.int at hInt
        split at hInt
        · cases hInt
        · cases hInt
          decide
    · exact ih _ h
    · cases h; exact hSyntax

theorem scan_new_error (argv : List String) (e : String) (h : Scan.new argv = .error e) :
    e.toList.head? ≠ some 'O' := by
  unfold Scan.new at h
  split at h
  · split at h
    · exact scan_options_error _ _ _ h
    · next hDecode =>
      cases h
      unfold Scan.decode at hDecode
      split at hDecode
      · cases hDecode
      · split at hDecode
        · cases hDecode
        · cases hDecode
          decide
  · cases h
    exact (wrong_args _).no_limit

def scan (ctx : Ctx) (db : Db) (argv : List String) : Except Fault Reply := do
  let scan ← said (Scan.new argv) (scan_new_error argv)
  match (scan.run ctx.access.scope { db, now := ctx.now, most := WALK_WHOLE + 1 }).1 with
  | some reply => .ok reply
  | none => .error (.err (too_long "SCAN"))

section

variable [Json]

def flush (ctx : Ctx) (_argv : List String) : Exec Fault Reply := do
  refuse (!ctx.access.admin)
    ⟨"NOPERM this command requires the administrator token", by decide⟩
  let db ← look id
  if db.keys.isEmpty then pure .ok
  else do
    change Db.clear
    mark
    pure .ok

/-! ## Any key -/

/-- Deletes `keys`, `removed` being gone already; returns how many were live. -/
def del_loop (ctx : Ctx) : List String → Nat → Exec Fault Nat
  | [], removed => pure removed
  | key :: keys, removed => do
    let live ← look fun db => (db.delete key ctx.now).1
    change fun db => (db.delete key ctx.now).2
    if live then do
      touch ctx key "del"
      del_loop ctx keys (removed + 1)
    else del_loop ctx keys removed

def del (ctx : Ctx) : List String → Exec Fault Reply
  | _ :: key :: keys => do
    let removed ← del_loop ctx (key :: keys) 0
    pure (.of_usize removed)
  | argv => fail (wrong_args_of argv)

def exists_ (ctx : Ctx) (db : Db) : List String → Except Fault Reply
  | _ :: key :: keys => .ok (.of_usize ((key :: keys).filter fun k => db.exists_ k ctx.now).length)
  | argv => .error (wrong_args_of argv)

def type (ctx : Ctx) (db : Db) : List String → Except Fault Reply
  | [_, key] =>
    match db.get key ctx.now with
    | none => .ok (.simple "none")
    | some e => .ok (.simple e.value.type_name)
  | argv => .error (wrong_args_of argv)

/-- The entry of a live key, for changing it; an expired one is removed. -/
def get_mut {ε : Type} (ctx : Ctx) (key : String) : Exec ε (Option Entry) := fun r =>
  let (entry, db) := r.db.get_mut key ctx.now
  (.ok entry, { r with db })

/-! ### Expiry -/

/-- When EXPIRE and its kin let a key expire: milliseconds, as an `i64`. -/
def expire_time (name : String) (now : Nat) (amount : Int) : Except Fault Int :=
  let time := match name with
    | "EXPIRE" => (checked (amount * 1000)).bind fun ms => checked (ms + as_i64 now)
    | "PEXPIRE" => checked (amount + as_i64 now)
    | "EXPIREAT" => checked (amount * 1000)
    | _ => some amount
  match time with
  | some time => .ok time
  | none => .error (.err s!"invalid expire time in '{to_ascii_lowercase name}' command")

structure ExpireFlags where
  nx : Bool := false
  xx : Bool := false
  gt : Bool := false
  lt : Bool := false

def expire_flags : List String → ExpireFlags → Except Fault ExpireFlags
  | [], flags =>
    if (flags.nx && (flags.xx || flags.gt || flags.lt)) || (flags.gt && flags.lt) then
      .error (.err "NX and XX, GT or LT options at the same time are not compatible")
    else .ok flags
  | flag :: rest, flags =>
    match to_ascii_uppercase flag with
    | "NX" => expire_flags rest { flags with nx := true }
    | "XX" => expire_flags rest { flags with xx := true }
    | "GT" => expire_flags rest { flags with gt := true }
    | "LT" => expire_flags rest { flags with lt := true }
    | _ => .error (.err s!"Unsupported option {flag}")

/-- Whether the flags let a key that expires at `current` expire at `time`. -/
def ExpireFlags.allow (flags : ExpireFlags) (current : Option Nat) (time : Int) : Bool :=
  match current with
  | none => !flags.xx && !flags.gt
  | some existing =>
    let existing : Int := min (existing : Int) (2 ^ 63 - 1)
    !flags.nx && (!flags.gt || existing < time) && (!flags.lt || time < existing)

def expire (name : String) (ctx : Ctx) : List String → Exec Fault Reply
  | _ :: key :: amount :: flags => do
    let amount ← attempt (int amount)
    let time ← attempt (expire_time name ctx.now amount)
    let flags ← attempt (expire_flags flags {})
    match ← get_mut ctx key with
    | none => pure (.int 0)
    | some entry =>
      if !flags.allow entry.expires time then pure (.int 0)
      else if time ≤ as_i64 ctx.now then do
        change fun db => (db.delete key ctx.now).2
        touch ctx key "del"
        pure (.int 1)
      else do
        -- `as u64`
        let at_ := (time % 2 ^ 64).toNat
        change fun db => (db.put key { entry with expires := some at_ }).deadline key at_
        touch ctx key "expire"
        pure (.int 1)
  | argv => fail (wrong_args_of argv)

def ttl (name : String) (ctx : Ctx) (db : Db) : List String → Except Fault Reply
  | [_, key] =>
    match db.get key ctx.now with
    | none => .ok (.int (-2))
    | some { expires := none, .. } => .ok (.int (-1))
    | some { expires := some at_, .. } =>
      let now : Int := ctx.now
      let value : Int := match name with
        | "TTL" => (at_ - now + 500).tdiv 1000
        | "PTTL" => at_ - now
        | "EXPIRETIME" => (at_ : Int).tdiv 1000
        | _ => at_
      .ok (.int (min value (2 ^ 63 - 1)))
  | argv => .error (wrong_args_of argv)

def persist (ctx : Ctx) : List String → Exec Fault Reply
  | [_, key] => do
    match ← get_mut ctx key with
    | none => pure (.int 0)
    | some entry =>
      if entry.expires.isSome then do
        change (·.put key { entry with expires := none })
        touch ctx key "persist"
        pure (.int 1)
      else pure (.int 0)
  | argv => fail (wrong_args_of argv)

/-! ### Renaming -/

def no_such_key : Fault := .err "no such key"

/-- Moves what `source` holds, and its expiry, to `target`. -/
def move_key (ctx : Ctx) (source target : String) : Exec Fault Unit := do
  let entry ← look fun db => (db.remove source ctx.now).1
  change fun db => (db.remove source ctx.now).2
  match entry with
  | none => fail no_such_key
  | some entry => do
    change fun db => (db.note target entry.expires).insert target entry
    touch ctx source "rename_from"
    touch ctx target "rename_to"

def rename (nx : Bool) (ctx : Ctx) : List String → Exec Fault Reply
  | [_, source, target] => do
    let db ← look id
    if !db.exists_ source ctx.now then fail no_such_key
    else if source = target then pure (if nx then .int 0 else .ok)
    else if nx && db.exists_ target ctx.now then pure (.int 0)
    else do
      move_key ctx source target
      pure (if nx then .int 1 else .ok)
  | argv => fail (wrong_args_of argv)

end

end Exec

end Postino
