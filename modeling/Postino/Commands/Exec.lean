import Postino.Commands.Scan
import Postino.Lib.Fallible
import Postino.Lib.Text

/-!
# How a command runs

A command runs over the keyspace and what it reports: whether anything changed, what to
journal in its place, the keys it changed, and whether it waits. It fails with a text;
only the errors of the two limits begin with `OOM`, so every other text is a `Fault`,
which carries that it does not. What a command did before it failed stays done.

Looking at a key does not change the keyspace (`typed_ref`); changing a typed value is
`edit`, or `edit_or_create` where a missing key is made.
-/

namespace Postino

open Lib

/-! ## Errors -/

/-- The text of an error that no limit makes. -/
structure Fault where
  text : String
  no_limit : text.toList.head? ≠ some 'O'

/-- A text begins as its first part does. -/
theorem head_append {s t : String} {c : Char} (h : s.toList.head? = some c) :
    (s ++ t).toList.head? = some c := by
  rw [String.toList_append, List.head?_append, h, Option.some_or]

theorem no_limit_of_head {s : String} {c : Char} (h : s.toList.head? = some c) (hC : c ≠ 'O') :
    s.toList.head? ≠ some 'O' := by
  rw [h]
  exact fun hEq => hC (Option.some.inj hEq)

namespace Fault

def err (text : String) : Fault :=
  ⟨"ERR " ++ text, no_limit_of_head (head_append (show _ = some 'E' by decide)) (by decide)⟩
def nogroup (text : String) : Fault :=
  ⟨"NOGROUP " ++ text, no_limit_of_head (head_append (show _ = some 'N' by decide)) (by decide)⟩

end Fault

/-- Why a command fails: some fault, or a limit that is reached. -/
inductive Error where
  | fault (f : Fault)
  | key_limit (max_keys : Nat)
  | element_limit (max_elements : Nat)

def Error.text : Error → String
  | fault f => f.text
  | key_limit max_keys =>
    s!"OOM key limit reached ({max_keys} keys); raise POSTINO_MAX_KEYS or delete keys"
  | element_limit max_elements =>
    s!"OOM a collection holds at most {max_elements} elements (POSTINO_MAX_ELEMENTS)"

/-- Errors a fault is among. -/
class Faults (ε : Type) where
  said : Fault → ε

instance : Faults Fault := ⟨id⟩
instance : Faults Error := ⟨.fault⟩

/-- A result whose errors no limit makes. -/
def said {α : Type} (result : Except String α)
    (h : ∀ e, result = .error e → e.toList.head? ≠ some 'O') : Except Fault α :=
  match result, h with
  | .ok a, _ => .ok a
  | .error e, h => .error ⟨e, h e rfl⟩

def bad_syntax : Fault := ⟨SYNTAX, by decide⟩
def NOT_FLOAT : Fault := .err "value is not a valid float"
def BAD_ID : Fault := .err "Invalid stream ID specified as stream command argument"
def WRONGTYPE : Fault :=
  ⟨"WRONGTYPE Operation against a key holding the wrong kind of value", by decide⟩
def MAX_STRING : Nat := 16 * 2 ^ 20

/-! ## Replies -/

/-- The largest `usize`. -/
def USIZE_MAX : Nat := 2 ^ 64 - 1

namespace Reply

/-- `Reply::int`. -/
def of_usize (n : Nat) : Reply := int (min n (2 ^ 63 - 1))

/-- `Reply::bool`. -/
def of_bool (b : Bool) : Reply := int (if b then 1 else 0)

end Reply

/-! ## Running -/

/-- The random numbers a command draws, by the number of the draw: one below a bound, and
some indices below a length, each once. -/
structure Random where
  below : Nat → Nat → Nat
  below_lt : ∀ draw bound, 0 < bound → below draw bound < bound
  sample_distinct : Nat → Nat → List Nat
  sample_nodup : ∀ len n, (sample_distinct len n).Nodup
  sample_lt : ∀ len n, ∀ i ∈ sample_distinct len n, i < len
  sample_length : ∀ len n, (sample_distinct len n).length = min n len

/-- The draws that take what comes first. -/
def Random.first : Random where
  below _ _ := 0
  below_lt _ _ h := h
  sample_distinct len n := List.range (min n len)
  sample_nodup _ _ := List.nodup_range
  sample_lt _ _ _ hIn := (List.mem_range.mp hIn).trans_le (min_le_right _ _)
  sample_length _ _ := List.length_range

/-- Who runs a command: whether it may flush, and which keys it sees. -/
structure Access where
  admin : Bool
  scope : Scope

/-- How a command runs: its clock, and whether it may block or enforce limits. -/
structure Ctx where
  now : Fin (2 ^ 64)
  /-- Replaying the journal: limits are not enforced, nothing blocks. -/
  replay : Bool
  blocking : Bool
  access : Access
  max_keys : Nat
  max_elements : Nat
  /-- Whether the changed keys are recorded. -/
  events : Bool
  random : Random

/-- A blocking command that found nothing: `retry` is tried again until it yields a value
or `timeout_ms` passes. -/
structure Block where
  retry : List String
  /-- 0 waits as long as the transport allows. -/
  timeout_ms : Nat

/-- A command under way: the keyspace, and what is to be reported. -/
structure Run where
  db : Db
  dirty : Bool := false
  propagate : Option (List (List String)) := none
  events : List (String × String) := []
  block : Option Block := none

abbrev Exec (ε α : Type) : Type := Fallible Run ε α

namespace Exec

open Fallible

variable {ε α : Type}

/-- The keyspace, read. -/
def look (f : Db → α) : Exec ε α := fun r => (.ok (f r.db), r)

def change (f : Db → Db) : Exec ε Unit := modify fun r => { r with db := f r.db }

section

variable [Faults ε]

/-- What a reference found, which is there. -/
def require (found : Option α) : Exec ε α :=
  match found with
  | some a => pure a
  | none => fail (Faults.said bad_syntax)

/-- A result, or its fault. -/
def attempt (result : Except Fault α) : Exec ε α :=
  match result with
  | .ok a => pure a
  | .error f => fail (Faults.said f)

/-- What is read off the keyspace, or its fault. -/
def reads (f : Db → Except Fault α) : Exec ε α := fun r => attempt (f r.db) r

end

/-- What a limit lets pass. -/
def within (result : Db → Except Error Unit) : Exec Error Unit := fun r =>
  match result r.db with
  | .ok () => (.ok (), r)
  | .error e => (.error e, r)

/-- Marks a change to `key`. -/
def touch (ctx : Ctx) (key event : String) : Exec ε Unit :=
  modify fun r =>
    { r with dirty := true, events := if ctx.events then r.events ++ [(key, event)] else r.events }

def provided (c : Bool) (m : Exec ε Unit) : Exec ε Unit := if c then m else pure ()

/-- Marks a change that is announced to nobody. -/
def mark : Exec ε Unit := modify fun r => { r with dirty := true }

/-- Commands to journal in place of the one that runs. -/
def journal_as (commands : List (List String)) : Exec ε Unit :=
  modify fun r => { r with propagate := some commands }

def block_on (block : Block) : Exec ε Unit := modify fun r => { r with block := some block }

/-- Asks for `argv` to be tried again when the keyspace changes. -/
def wait (ctx : Ctx) (argv : List String) (timeout_ms : Nat) : Exec ε Unit :=
  if ctx.blocking then block_on { retry := argv, timeout_ms } else pure ()

def prune [Json] (key : String) : Exec ε Unit := change (·.prune key)

end Exec

/-! ## Limits -/

/-- Whether `keys` may be written together: all fit, or none is written. The key limit
counts every key held in memory, expired ones included until they are removed. -/
def admit_all (db : Db) (keys : List String) (ctx : Ctx) : Except Error Unit :=
  let new := (keys.filter fun k => k ∉ db.keys).dedup
  if !ctx.replay && min (db.keys.size + new.length) USIZE_MAX > ctx.max_keys && !new.isEmpty then
    .error (.key_limit ctx.max_keys)
  else .ok ()

def admit_ (db : Db) (key : String) (ctx : Ctx) : Except Error Unit := admit_all db [key] ctx

/-- Whether a collection of `len` may take `adding` more. -/
def room_for (ctx : Ctx) (len adding : Nat) : Except Error Unit :=
  if !ctx.replay && min (len + adding) USIZE_MAX > ctx.max_elements then
    .error (.element_limit ctx.max_elements)
  else .ok ()

/-! ## Typed values -/

/-- One kind of value: how it is wrapped, and what a new one is. -/
structure Typed (T : Type) where
  of_ : T → Value
  value : Value → Option T
  new : T
  value_eq : ∀ v t, value v = some t ↔ v = of_ t

namespace Typed

def string : Typed String where
  of_ := .string
  value | .string s => some s | _ => none
  new := ""
  value_eq v t := by cases v <;> simp

def list : Typed (List String) where
  of_ := .list
  value | .list l => some l | _ => none
  new := []
  value_eq v t := by cases v <;> simp

def hash : Typed (BTreeMap String String) where
  of_ := .hash
  value | .hash h => some h | _ => none
  new := ∅
  value_eq v t := by cases v <;> simp

def set : Typed (BTreeSet String) where
  of_ := .set
  value | .set s => some s | _ => none
  new := ∅
  value_eq v t := by cases v <;> simp

def zset : Typed ZSet where
  of_ := .zset
  value | .zset z => some z | _ => none
  new := {}
  value_eq v t := by cases v <;> simp

def stream : Typed Stream where
  of_ := .stream
  value | .stream s => some s | _ => none
  new := {}
  value_eq v t := by cases v <;> simp

end Typed

section

variable {T : Type} (K : Typed T)

/-- The value `key` holds, if it is live, which has to be of the kind. -/
def typed_ref (db : Db) (key : String) (now : Nat) : Except Fault (Option T) :=
  match db.get key now with
  | none => .ok none
  | some e =>
    match K.value e.value with
    | some v => .ok (some v)
    | none => .error WRONGTYPE

def string_ref := typed_ref Typed.string
def list_ref := typed_ref Typed.list
def hash_ref := typed_ref Typed.hash
def set_ref := typed_ref Typed.set
def zset_ref := typed_ref Typed.zset
def stream_ref := typed_ref Typed.stream

/-- Notes when `key` expires, if it does. -/
def Db.note (db : Db) (key : String) (expires : Option Nat) : Db :=
  match expires with
  | some at_ => db.deadline key at_
  | none => db

variable [Json]

/-- Writes through the reference to a live key's value. -/
def Db.update (db : Db) (key : String) (now : Nat) (value : Value) : Db :=
  match db.get_mut key now with
  | (some e, db) => db.put key { e with value }
  | (none, db) => db

namespace Exec

variable {ε α : Type} [Faults ε]

/-- What `f` does to the value `key` holds, when it holds one: the `_mut` accessor of the
kind, and what is done through the reference it returns. -/
def edit (ctx : Ctx) (key : String) (f : T → Except ε α × T) : Exec ε (Option α) := fun r =>
  match typed_ref K r.db key ctx.now with
  | .error e => (.error (Faults.said e), r)
  | .ok none => (.ok none, r)
  | .ok (some v) =>
    ((f v).1.map some, { r with db := r.db.update key ctx.now (K.of_ (f v).2) })

/-- `edit`, making the key first when it is missing. -/
def edit_or_create (ctx : Ctx) (key : String) (f : T → Except Error α × T) :
    Exec Error (Option α) := fun r =>
  match typed_ref K r.db key ctx.now with
  | .ok none =>
    match admit_ r.db key ctx with
    | .error e => (.error e, r)
    | .ok () => edit K ctx key f { r with db := r.db.insert key { value := K.of_ K.new } }
  | _ => edit K ctx key f r

/-- Removes elements of what `key` holds, as `f` does, which also counts them. A collection
that has become empty goes with its key. -/
def remove_counted (ctx : Ctx) (key event : String) (f : T → Nat × T) : Exec Fault Reply := do
  let removed ← edit K ctx key fun v => (.ok (f v).1, (f v).2)
  match removed with
  | none => pure (.int 0)
  | some removed => do
    prune key
    provided (0 < removed) (touch ctx key event)
    pure (.of_usize removed)

end Exec

end

end Postino
