import Postino.Forum.Store

/-!
# What the forum shows

Messages, posts and broadcasts as JSON, in events and in replies. An object keeps
its fields sorted by name, each once.
-/

namespace Postino.Forum

open Lib

/-! ## Values -/

inductive JsonValue where
  | null
  | bool (b : Bool)
  | number (n : Nat)
  | string (s : String)
  | array (items : List JsonValue)
  | object (fields : List (String × JsonValue))

namespace JsonValue

/-- `fields` with the field `name` set. -/
def set_field (name : String) (value : JsonValue) :
    List (String × JsonValue) → List (String × JsonValue)
  | [] => [(name, value)]
  | field :: fields =>
    if name < field.1 then (name, value) :: field :: fields
    else if name = field.1 then (name, value) :: fields
    else field :: set_field name value fields

/-- An object of these fields: of two with one name, the later counts. -/
def of_fields (fields : List (String × JsonValue)) : JsonValue :=
  .object (fields.foldl (fun fields f => set_field f.1 f.2 fields) [])

def strings (items : List String) : JsonValue := .array (items.map string)

/-- `null` for nothing. -/
def of_option {α : Type} (f : α → JsonValue) (value : Option α) : JsonValue := value.elim .null f

/-- A field there only when it has a value. -/
def optional {α : Type} (name : String) (f : α → JsonValue) (value : Option α) :
    List (String × JsonValue) :=
  value.elim [] fun value => [(name, f value)]

def hex_digit (d : Nat) : Char := Char.ofNat (if d < 10 then 48 + d else 87 + d)

/-- A character as it stands in a JSON string. -/
def escape (c : Char) : String :=
  if c = '"' then "\\\""
  else if c = '\\' then "\\\\"
  else if c = '\n' then "\\n"
  else if c = '\r' then "\\r"
  else if c = '\t' then "\\t"
  else if c.toNat = 8 then "\\b"
  else if c.toNat = 12 then "\\f"
  else if c.toNat < 32 then
    String.ofList ['\\', 'u', '0', '0', hex_digit (c.toNat / 16), hex_digit (c.toNat % 16)]
  else String.singleton c

def quote (s : String) : String := "\"" ++ String.join (s.toList.map escape) ++ "\""

mutual

def display : JsonValue → String
  | null => "null"
  | bool b => if b then "true" else "false"
  | number n => toString n
  | string s => quote s
  | array items => "[" ++ ",".intercalate (display_items items) ++ "]"
  | object fields => "\x7b" ++ ",".intercalate (display_fields fields) ++ "\x7d"

def display_items : List JsonValue → List String
  | [] => []
  | item :: items => display item :: display_items items

def display_fields : List (String × JsonValue) → List String
  | [] => []
  | (name, value) :: fields => (quote name ++ ":" ++ display value) :: display_fields fields

end

end JsonValue

open JsonValue

/-! ## Times -/

/-- A number of at least `width` digits. -/
def padded (width n : Nat) : String :=
  let digits := toString n
  String.ofList (List.replicate (width - digits.length) '0') ++ digits

/-- The date a day is, counted from 1970-01-01. -/
def civil_from_days (days : Nat) : Nat × Nat × Nat :=
  let z := days + 719468
  let era := z / 146097
  let doe := z % 146097
  let yoe := (doe - doe / 1460 + doe / 36524 - doe / 146096) / 365
  let doy := doe - (365 * yoe + yoe / 4 - yoe / 100)
  let mp := (5 * doy + 2) / 153
  let day := doy - (153 * mp + 2) / 5 + 1
  let month := if mp < 10 then mp + 3 else mp - 9
  let year := yoe + era * 400 + if month ≤ 2 then 1 else 0
  (year, month, day)

def iso8601 (ms : Nat) : String :=
  let secs := ms / 1000
  let (year, month, day) := civil_from_days (secs / 86400)
  let rem := secs % 86400
  let date := padded 4 year ++ "-" ++ padded 2 month ++ "-" ++ padded 2 day
  let time := padded 2 (rem / 3600) ++ ":" ++ padded 2 (rem % 3600 / 60) ++ ":" ++ padded 2 (rem % 60)
  date ++ "T" ++ time ++ "." ++ padded 3 (ms % 1000) ++ "Z"

example : iso8601 951827696789 = "2000-02-29T12:34:56.789Z" := by decide +kernel

def time (ms : Nat) : JsonValue := .string (iso8601 ms)

/-! ## The names of what is enumerated -/

def State.display : State → String
  | .Queued => "queued"
  | .Leased => "leased"
  | .Acked => "acked"
  | .Dead => "dead"
  | .Expired => "expired"

def Role.display : Role → String
  | .Owner => "owner"
  | .Member => "member"

def Kind.display : Kind → String
  | .Note => "note"
  | .Question => "question"
  | .Answer => "answer"
  | .Event => "event"

def Status.display : Status → String
  | .Open => "open"
  | .Resolved => "resolved"
  | .Withdrawn => "withdrawn"
  | .Expired => "expired"

/-! ## Records -/

def message_json (message : Message) : JsonValue :=
  of_fields <|
    [("id", .string message.id.display), ("from", .string message.from_),
      ("to", .string message.to_), ("body", .string message.body),
      ("timestamp", time message.created), ("thread", .string message.thread.display)] ++
    optional "replyTo" (fun id => .string (Id.display id)) message.reply_to ++
    [("state", .string message.state.display), ("deliveries", .number message.deliveries)] ++
    optional "consumer" (fun lease => .string (Lease.consumer lease)) message.lease ++
    (if message.state = .Leased then
      optional "leaseExpiresAt" (fun lease => time (Lease.until_ lease)) message.lease
    else []) ++
    optional "settledAt" time message.settled ++
    if message.state.is_pending then [("expiresAt", time message.expires)] else []

def answer_json (answer : Post) : JsonValue :=
  of_fields
    [("id", .string answer.id.display), ("from", .string answer.from_),
      ("body", .string answer.body), ("choice", of_option .string answer.choice)]

def ask_json (room : Room) (post : Post) (ask : Ask) : JsonValue :=
  of_fields <|
    [("status", .string ask.status.display), ("to", strings ask.to_),
      ("options", strings ask.options), ("answers", .array ((room.answers post.id).map answer_json)),
      ("expiresAt", time ask.expires)] ++
    (if ask.status = .Open then [("waitingOn", strings (room.waiting_on post))] else []) ++
    optional "closedAt" time ask.closed

def post_json (room : Room) (post : Post) : JsonValue :=
  of_fields <|
    [("id", .string post.id.display), ("room", .string room.name), ("from", .string post.from_),
      ("kind", .string post.kind.display), ("body", .string post.body),
      ("timestamp", time post.created)] ++
    optional "replyTo" (fun id => .string (Id.display id)) post.reply_to ++
    optional "about" .string post.about ++ optional "choice" .string post.choice ++
    optional "question" (ask_json room post) post.ask

def broadcast_json (broadcast : Broadcast) : JsonValue :=
  of_fields
    [("id", .string broadcast.id.display), ("from", .string broadcast.from_),
      ("body", .string broadcast.body), ("timestamp", time broadcast.created),
      ("expiresAt", time broadcast.expires)]

end Postino.Forum
