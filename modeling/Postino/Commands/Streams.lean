import Postino.Commands.SortedSets

/-!
# Commands on streams

Entries under ids that only grow, trimmed from the oldest on, and read after an id. A
stream that has become empty is kept.
-/

namespace Postino

open Lib

namespace Exec

open Fallible

/-! ## Trimming -/

inductive Trim where
  | maxlen (n : Nat)
  | minid (id : Id)
  deriving DecidableEq

/-- Drops the entries that are too many or too old; returns how many. -/
def Trim.apply (trim : Trim) (s : Stream) : Nat × Stream :=
  match trim with
  | maxlen n => s.trim_to n
  | minid id => s.trim_before id

/-- A trim after its first word, `MAXLEN` or `MINID`, and the words that follow it. -/
def trim_spec (kind : String) (words : List String) : Except Fault (Trim × List String) := do
  let words := if words.head? = some "=" || words.head? = some "~" then words.tail else words
  match words with
  | [] => .error bad_syntax
  | threshold :: rest => do
    let trim ← match to_ascii_uppercase kind with
      | "MAXLEN" => (count threshold).map Trim.maxlen
      | "MINID" => (parse_id threshold 0).map Trim.minid
      | _ => .error bad_syntax
    match rest with
    | word :: rest =>
      if is word "LIMIT" then
        match rest with
        | _ :: rest => pure (trim, rest)
        | [] => .error bad_syntax
      else pure (trim, word :: rest)
    | [] => pure (trim, [])

/-! ## Adding -/

/-- What XADD is given. -/
structure XAdd where
  nomkstream : Bool
  trim : Option Trim
  id : String
  fields : List (String × String)

/-- The words of XADD after its key, of which the options are at most `rounds`. -/
def xadd_args : Nat → List String → Bool → Option Trim → Except Fault XAdd
  | 0, _, _, _ => .error bad_syntax
  | _, [], _, _ => .error bad_syntax
  | rounds + 1, word :: rest, nomkstream, trim =>
    if to_ascii_uppercase word = "NOMKSTREAM" then xadd_args rounds rest true trim
    else if to_ascii_uppercase word = "MAXLEN" ∨ to_ascii_uppercase word = "MINID" then do
      let (trim, rest) ← trim_spec word rest
      xadd_args rounds rest nomkstream (some trim)
    else if rest.isEmpty || rest.length % 2 = 1 then .error (wrong_args "xadd")
    else .ok { nomkstream, trim, id := word, fields := chunks rest }

def id_too_small : Fault :=
  .err "The ID specified in XADD is equal or smaller than the target stream top item"

/-- What precedes `-*`, which asks for a sequence. -/
def without_sequence (s : String) : Option (List Char) :=
  match s.toList.reverse with
  | '*' :: '-' :: rest => some rest.reverse
  | _ => none

/-- The id an entry is given: the clock's, a millisecond's next, or the one named. -/
def named_id (arg : String) (last : Id) (now : Fin (2 ^ 64)) : Except Fault Id :=
  if arg = "*" then
    match Id.next_after last now with
    | some id => .ok id
    | none => .error (.err "The stream has exhausted the last possible ID, unable to add more items")
  else match without_sequence arg with
    | none => parse_id arg 0
    | some ms =>
      match Id.parse_u64 ms with
      | none => .error BAD_ID
      | some ms =>
        if h : ms < 2 ^ 64 then
          if last.ms < ms then .ok { ms, seq := 0, ms_lt := h, seq_lt := Id.zero_lt_word }
          else if ms = last.ms then
            if hSeq : last.seq + 1 < 2 ^ 64 then
              .ok { ms, seq := last.seq + 1, ms_lt := h, seq_lt := hSeq }
            else .error BAD_ID
          else .error id_too_small
        else .error BAD_ID

/-- The id of a new entry, which has to be greater than the last. -/
def new_id (arg : String) (last : Id) (now : Fin (2 ^ 64)) : Except Fault Id :=
  match named_id arg last now with
  | .error f => .error f
  | .ok id =>
    if id = .zero then .error (.err "The ID specified in XADD must be greater than 0-0")
    else if id ≤ last then .error id_too_small
    else .ok id

/-- How many entries the trim drops once the new one is in. -/
def dropped (trim : Option Trim) (existing : Option Stream) (id : Id) : Nat :=
  let len := existing.elim 0 (·.entries.size)
  match trim with
  | none => 0
  | some (.maxlen n) => len + 1 - n
  | some (.minid least) =>
    existing.elim 0 (fun s => (s.entries.below least).length) + (if id < least then 1 else 0)

/-- A stream with a new entry, and trimmed. -/
def add_entry (id : Id) (fields : List (String × String)) (trim : Option Trim) (s : Stream) : Stream :=
  let s := { s with entries := s.entries.insert id fields, last_id := id, added := s.added + 1 }
  match trim with
  | some trim => (trim.apply s).2
  | none => s

section

variable [Json]

def xadd (ctx : Ctx) : List String → Exec Error Reply
  | _ :: key :: a :: b :: c :: words => do
    let args ← attempt (xadd_args (words.length + 3) (a :: b :: c :: words) false none)
    let existing ← reads (stream_ref · key ctx.now)
    if existing.isNone && args.nomkstream then pure .nil
    else do
      let id ← attempt (new_id args.id (existing.elim .zero (·.last_id)) ctx.now)
      -- what has to fit is the stream once trimmed
      within fun _ =>
        if dropped args.trim existing id = 0 then room_for ctx (existing.elim 0 (·.entries.size)) 1
        else .ok ()
      let done ← edit_or_create .stream ctx key fun s => (.ok (), add_entry id args.fields args.trim s)
      require done
      touch ctx key "xadd"
      pure (.bulk id.display)
  | argv => fail (.fault (wrong_args_of argv))

/-! ## Removing -/

def parse_ids (words : List String) : Except Fault (List Id) := words.mapM fun s => parse_id s 0

/-- Removes entries one after another; returns how many were there. -/
def remove_entries : List Id → Stream → Nat × Stream
  | [], s => (0, s)
  | id :: ids, s =>
    if s.entries.contains id then
      let (removed, s) :=
        remove_entries ids { s with entries := s.entries.erase id, max_deleted := max s.max_deleted id }
      (removed + 1, s)
    else remove_entries ids s

def xdel (ctx : Ctx) : List String → Exec Fault Reply
  | _ :: key :: id :: ids => do
    let ids ← attempt (parse_ids (id :: ids))
    let removed ← edit .stream ctx key fun s =>
      let (removed, s) := remove_entries ids s
      (.ok removed, s)
    match removed with
    | none => pure (.int 0)
    | some removed => do
      provided (0 < removed) (touch ctx key "xdel")
      pure (.of_usize removed)
  | argv => fail (wrong_args_of argv)

def xtrim (ctx : Ctx) : List String → Exec Fault Reply
  | _ :: key :: kind :: threshold :: words => do
    let (trim, rest) ← attempt (trim_spec kind (threshold :: words))
    refuse (!rest.isEmpty) bad_syntax
    let removed ← edit .stream ctx key fun s =>
      let (removed, s) := trim.apply s
      (.ok removed, s)
    match removed with
    | none => pure (.int 0)
    | some removed => do
      provided (0 < removed) (touch ctx key "xtrim")
      pure (.of_usize removed)
  | argv => fail (wrong_args_of argv)

end

/-! ## Reading -/

def xlen (ctx : Ctx) (db : Db) : List String → Except Fault Reply
  | [_, key] => (stream_ref db key ctx.now).map fun s => .of_usize (s.elim 0 (·.entries.size))
  | argv => .error (wrong_args_of argv)

/-- XRANGE and XREVRANGE. -/
def xrange (rev : Bool) (ctx : Ctx) (db : Db) : List String → Except Fault Reply
  | _ :: key :: a :: b :: options => do
    let start ← range_start (if rev then b else a)
    let last ← range_end (if rev then a else b)
    let limit ← match options with
      | [] => .ok USIZE_MAX
      | word :: rest => if is word "COUNT" then (value? rest).bind count else .error bad_syntax
    match ← stream_ref db key ctx.now with
    | none => pure (.array [])
    | some s =>
      match last.filter (start ≤ ·) with
      | none => pure (.array [])
      | some last =>
        let range := s.entries.toList.filter fun e => start ≤ e.1 ∧ e.1 ≤ last
        let range := if rev then range.reverse else range
        collect_within ((range.take limit).map fun e => entry_reply e.1 e.2)
  | argv => .error (wrong_args_of argv)

/-- The options of the stream readers, with where they stand among the words. -/
structure ReadOptions where
  count : Option Nat := none
  block : Option Nat := none
  block_at : Option Nat := none
  noack : Bool := false
  keys : List String := []
  ids : List String := []
  ids_at : Nat := 0

/-- Splits `[COUNT n] [BLOCK ms] [NOACK] STREAMS k1.. id1..`, from the word at `i` on. -/
def read_options : Nat → List String → ReadOptions → Except Fault ReadOptions
  | _, [], _ => .error bad_syntax
  | i, word :: rest, o =>
    let word := to_ascii_uppercase word
    if word = "COUNT" then
      match rest with
      | [] => .error bad_syntax
      | n :: rest => do
        let n ← count n
        read_options (i + 2) rest { o with count := some n }
    else if word = "BLOCK" then
      match rest with
      | [] => .error bad_syntax
      | ms :: rest => do
        let ms ← (int ms).mapError fun _ => .err "timeout is not an integer or out of range"
        if ms < 0 then .error (.err "timeout is negative")
        else read_options (i + 2) rest { o with block := some ms.toNat, block_at := some i }
    else if word = "NOACK" then read_options (i + 1) rest { o with noack := true }
    else if word = "STREAMS" then
      if rest.isEmpty || rest.length % 2 = 1 then
        .error (.err "Unbalanced 'xread' list of streams: for each stream key an ID or '$' must be specified.")
      else
        let half := rest.length / 2
        .ok { o with keys := rest.take half, ids := rest.drop half, ids_at := i + 1 + half }
    else .error bad_syntax

namespace ReadOptions

/-- How many entries of each stream are read. -/
def limit (o : ReadOptions) : Nat := max (o.count.getD USIZE_MAX) 1

/-- Words without the BLOCK option among them. -/
def without_block (o : ReadOptions) (words : List String) : List String :=
  match o.block_at with
  | some at_ => words.take at_ ++ words.drop (at_ + 2)
  | none => words

end ReadOptions

/-- The entries read, their bytes counted as they are copied: how many bytes it has come to. -/
def read_within : Nat → List (Id × List (String × String)) → Except Fault Nat
  | bytes, [] => .ok bytes
  | bytes, (_, fields) :: entries =>
    match within_reply (bytes + entry_size fields) with
    | .error f => .error f
    | .ok () => read_within (bytes + entry_size fields) entries

/-- The ids XREAD reads after: `$` is the newest entry's. -/
def read_after (ctx : Ctx) (db : Db) : List (String × String) → Except Fault (List Id)
  | [] => .ok []
  | (key, id) :: rest => do
    let s ← stream_ref db key ctx.now
    let after ← if id = "$" then .ok (s.elim .zero (·.last_id)) else parse_id id 0
    let more ← read_after ctx db rest
    pure (after :: more)

/-- What XREAD finds in the streams named, after an id each. -/
def read_streams (ctx : Ctx) (db : Db) (limit : Nat) :
    Nat → List (String × Id) → Except Fault (List Reply)
  | _, [] => .ok []
  | bytes, (key, after) :: rest => do
    match ← stream_ref db key ctx.now with
    | none => read_streams ctx db limit bytes rest
    | some s => do
      let entries := (s.entries.above after).take limit
      let bytes ← read_within bytes entries
      let more ← read_streams ctx db limit bytes rest
      if entries.isEmpty then pure more
      else pure (.array [.bulk key, .array (entries.map fun e => entry_reply e.1 e.2)] :: more)

def xread (ctx : Ctx) (argv : List String) : Exec Fault Reply := do
  refuse (argv.length < 4) (wrong_args_of argv)
  let o ← attempt (read_options 1 (argv.drop 1) {})
  let after ← reads (read_after ctx · (o.keys.zip o.ids))
  let out ← reads (read_streams ctx · o.limit 0 (o.keys.zip after))
  if !out.isEmpty then pure (.array out)
  else match o.block with
    | none => pure .nil
    | some timeout_ms => do
      -- retry with `$` resolved, so entries added while waiting are seen
      provided ctx.blocking <| block_on
        { retry := o.without_block (argv.take o.ids_at) ++ after.map Id.display, timeout_ms }
      pure .nil

end Exec

end Postino
