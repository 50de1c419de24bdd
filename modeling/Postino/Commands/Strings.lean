import Postino.Commands.Keys

/-!
# Commands on strings

A string is written whole, whatever the key held. `SET` with `IFEQ` is a compare-and-set.
-/

namespace Postino

open Lib

namespace Exec

open Fallible

def get (ctx : Ctx) (db : Db) : List String → Except Fault Reply
  | [_, key] => (string_ref db key ctx.now).map bulk_or_nil
  | argv => .error (wrong_args_of argv)

def mget (ctx : Ctx) (db : Db) : List String → Except Fault Reply
  | _ :: key :: keys =>
    values_within ((key :: keys).map fun key =>
      match db.get key ctx.now with
      | some { value := .string s, .. } => some s
      | _ => none)
  | argv => .error (wrong_args_of argv)

def strlen (ctx : Ctx) (db : Db) : List String → Except Fault Reply
  | [_, key] => (string_ref db key ctx.now).map fun s => .of_usize (s.elim 0 String.utf8ByteSize)
  | argv => .error (wrong_args_of argv)

def string_too_long : Fault := .err "string exceeds maximum allowed size (16 MiB)"

/-! ### SET's options -/

def invalid_expire (command : String) : Fault := .err s!"invalid expire time in '{command}' command"

/-- When a key given the option `word` with an amount expires: EX and EXAT count seconds,
PX and PXAT milliseconds, the two with AT from the Unix epoch. -/
def option_expiry (command word : String) (now : Nat) (amount : Int) : Except Fault Nat :=
  if amount ≤ 0 then .error (invalid_expire command)
  else match expiry_at now amount (if word.startsWith "E" then 1000 else 1) (word.endsWith "AT") with
    | some at_ => .ok at_
    | none => .error (invalid_expire command)

structure SetOptions where
  nx : Bool := false
  xx : Bool := false
  get : Bool := false
  keep : Bool := false
  ifeq : Option String := none
  expires : Option Nat := none

namespace SetOptions

/-- Whether options that exclude each other are all given. -/
def conflict (o : SetOptions) : Bool :=
  1 < ([o.nx, o.xx, o.ifeq.isSome].filter id).length || (o.keep && o.expires.isSome)

/-- Whether the key has to be looked at first. -/
def looks (o : SetOptions) : Bool := o.nx || o.xx || o.get || o.keep || o.ifeq.isSome

/-- Whether a key that exists or not, with the string it holds, may be written. -/
def allow (o : SetOptions) (exists_ : Bool) (old : Option String) : Bool :=
  (!o.nx || !exists_) && (!o.xx || exists_) && o.ifeq.all fun want => old = some want

end SetOptions

def set_options (now : Nat) : List String → SetOptions → Except Fault SetOptions
  | [], o => if o.conflict then .error bad_syntax else .ok o
  | word :: rest, o =>
    let word := to_ascii_uppercase word
    if word = "NX" then set_options now rest { o with nx := true }
    else if word = "XX" then set_options now rest { o with xx := true }
    else if word = "GET" then set_options now rest { o with get := true }
    else if word = "KEEPTTL" then set_options now rest { o with keep := true }
    else if word ∈ ["EX", "PX", "EXAT", "PXAT"] then
      match rest with
      | [] => .error bad_syntax
      | amount :: rest => do
        let amount ← int amount
        let at_ ← option_expiry "set" word now amount
        set_options now rest { o with expires := some at_ }
    else if word = "IFEQ" then
      match rest with
      | [] => .error bad_syntax
      | want :: rest => set_options now rest { o with ifeq := some want }
    else .error bad_syntax

/-- What GETEX does to the expiry: nothing, or sets it to a time or to none. -/
def getex_options (now : Nat) : List String → Option (Option Nat) → Except Fault (Option (Option Nat))
  | [], option => .ok option
  | word :: rest, _ =>
    let word := to_ascii_uppercase word
    if word = "PERSIST" then getex_options now rest (some none)
    else match rest with
      | [] => .error bad_syntax
      | amount :: rest => do
        let amount ← int amount
        if amount ≤ 0 then .error (invalid_expire "getex")
        else if word ∉ ["EX", "PX", "EXAT", "PXAT"] then .error bad_syntax
        else do
          let at_ ← option_expiry "getex" word now amount
          getex_options now rest (some (some at_))

section

variable [Json]

/-! ### Writing -/

def store_string (ctx : Ctx) (key value : String) (expires : Option Nat) : Exec Error Unit := do
  refuse (MAX_STRING < value.utf8ByteSize) (.fault string_too_long)
  let entry : Entry := { value := .string value, expires }
  -- a key already held needs no room
  let new ← look fun db => (db.replace key entry).1.isSome
  change fun db => (db.replace key entry).2
  provided new do
    within (admit_ · key ctx)
    change (·.insert key entry)
  change (·.note key expires)
  touch ctx key "set"

def write_string_keep_ttl (ctx : Ctx) (key value : String) : Exec Error Unit := do
  let expires ← look fun db => (db.get key ctx.now).bind (·.expires)
  within (admit_ · key ctx)
  change (·.insert key { value := .string value, expires })

def setnx (ctx : Ctx) : List String → Exec Error Reply
  | [_, key, value] => do
    let held ← look fun db => db.exists_ key ctx.now
    if held then pure (.int 0)
    else do
      store_string ctx key value none
      pure (.int 1)
  | argv => fail (.fault (wrong_args_of argv))

def setex (name : String) (ctx : Ctx) : List String → Exec Error Reply
  | [_, key, amount, value] => do
    let amount ← attempt (int amount)
    let command := to_ascii_lowercase name
    refuse (amount ≤ 0) (.fault (invalid_expire command))
    match expiry_at ctx.now amount (if name = "SETEX" then 1000 else 1) false with
    | none => fail (.fault (invalid_expire command))
    | some expires => do
      store_string ctx key value (some expires)
      pure .ok
  | argv => fail (.fault (wrong_args_of argv))

def getset (ctx : Ctx) : List String → Exec Error Reply
  | [_, key, value] => do
    let old ← reads (string_ref · key ctx.now)
    store_string ctx key value none
    pure (bulk_or_nil old)
  | argv => fail (.fault (wrong_args_of argv))

/-- SET key value [NX | XX | IFEQ current] [GET] [EX s | PX ms | EXAT ts | PXAT ms-ts |
KEEPTTL]. -/
def set (ctx : Ctx) : List String → Exec Error Reply
  | _ :: key :: value :: options => do
    let o ← attempt (set_options ctx.now options {})
    -- nothing to look at first: whatever the key holds is replaced
    if !o.looks then do
      store_string ctx key value o.expires
      pure .ok
    else do
      let current ← look fun db => db.get key ctx.now
      let old ← attempt <| match current.map Entry.value with
        | some (.string s) => .ok (some s)
        | some _ => if o.get || o.ifeq.isSome then .error WRONGTYPE else .ok none
        | none => .ok none
      let allowed := o.allow current.isSome old
      provided allowed
        (store_string ctx key value (if o.keep then current.bind (·.expires) else o.expires))
      pure (if o.get then bulk_or_nil old else if allowed then .ok else .nil)
  | argv => fail (.fault (wrong_args_of argv))

/-- Writes pairs one after another. -/
def store_pairs (ctx : Ctx) : List (String × String) → Exec Error Unit
  | [] => pure ()
  | (key, value) :: pairs => do
    store_string ctx key value none
    store_pairs ctx pairs

def mset (name : String) (ctx : Ctx) : List String → Exec Error Reply
  | argv => do
    refuse (argv.length < 3 || argv.length % 2 = 0) (.fault (wrong_args name))
    let pairs := chunks argv.tail
    let db ← look id
    if name = "MSETNX" && pairs.any fun p => db.exists_ p.1 ctx.now then pure (.int 0)
    else match pairs.find? fun p => MAX_STRING < p.2.utf8ByteSize with
      | some (key, _) =>
        fail (.fault (.err s!"string for {debug key} exceeds maximum allowed size (16 MiB)"))
      | none => do
        within (admit_all · (pairs.map Prod.fst) ctx)
        store_pairs ctx pairs
        pure (if name = "MSET" then .ok else .int 1)

def append (ctx : Ctx) : List String → Exec Error Reply
  | [_, key, suffix] => do
    let current ← reads (string_ref · key ctx.now)
    refuse (MAX_STRING < current.elim 0 String.utf8ByteSize + suffix.utf8ByteSize) (.fault string_too_long)
    let len ← edit_or_create .string ctx key fun value =>
      (.ok (value ++ suffix).utf8ByteSize, value ++ suffix)
    let len ← require len
    touch ctx key "append"
    pure (.of_usize len)
  | argv => fail (.fault (wrong_args_of argv))

/-- The error of a sum that does not fit. -/
def would_overflow : Fault := .err "increment or decrement would overflow"

def incr (ctx : Ctx) (key : String) (amount : Int) : Exec Error Reply := do
  let current ← reads (string_ref · key ctx.now)
  let current ← attempt (current.elim (.ok 0) int)
  match checked (current + amount) with
  | none => fail (.fault would_overflow)
  | some next => do
    write_string_keep_ttl ctx key (toString next)
    touch ctx key "incrby"
    pure (.int next)

/-- INCR and DECR. -/
def incr_one (amount : Int) (ctx : Ctx) : List String → Exec Error Reply
  | [_, key] => incr ctx key amount
  | argv => fail (.fault (wrong_args_of argv))

/-- INCRBY, and DECRBY, whose amount is taken away. -/
def incrby (negate : Bool) (ctx : Ctx) : List String → Exec Error Reply
  | [_, key, amount] => do
    let amount ← attempt (int amount)
    match checked (if negate then -amount else amount) with
    | none => fail (.fault ⟨NOT_INT, by decide⟩)
    | some amount => incr ctx key amount
  | argv => fail (.fault (wrong_args_of argv))

/-- The error of a sum that is no finite number. -/
def not_finite : Fault := .err "increment would produce NaN or Infinity"

def incrbyfloat (ctx : Ctx) : List String → Exec Error Reply
  | [_, key, amount] => do
    let amount ← attempt (float amount)
    let current ← reads (string_ref · key ctx.now)
    let current ← attempt (current.elim (.ok F64.zero) float)
    let next := F64.add current amount
    refuse (!next.isFinite) (.fault not_finite)
    let text := format_float next
    write_string_keep_ttl ctx key text
    touch ctx key "incrbyfloat"
    pure (.bulk text)
  | argv => fail (.fault (wrong_args_of argv))

/-! ### Removing -/

/-- Removes a key that is there. -/
def take (ctx : Ctx) (key : String) : Exec Fault Unit := do
  change fun db => (db.take key).2
  touch ctx key "del"

def getdel (ctx : Ctx) : List String → Exec Fault Reply
  | [_, key] => do
    let old ← reads (string_ref · key ctx.now)
    provided old.isSome (take ctx key)
    pure (bulk_or_nil old)
  | argv => fail (wrong_args_of argv)

def delifeq (ctx : Ctx) : List String → Exec Fault Reply
  | [_, key, want] => do
    let value ← reads (string_ref · key ctx.now)
    let equal := value.any (· = want)
    provided equal (take ctx key)
    pure (.of_bool equal)
  | argv => fail (wrong_args_of argv)

def getex (ctx : Ctx) : List String → Exec Fault Reply
  | _ :: key :: options => do
    let value ← reads (string_ref · key ctx.now)
    let option ← attempt (getex_options ctx.now options none)
    match option, value with
    | some expires, some s => do
      match ← get_mut ctx key with
      | none => pure (.bulk s)
      | some entry => do
        change fun db => (db.put key { entry with expires }).note key expires
        touch ctx key (if expires.isSome then "expire" else "persist")
        pure (.bulk s)
    | _, value => pure (bulk_or_nil value)
  | argv => fail (wrong_args_of argv)

end

end Exec

end Postino
