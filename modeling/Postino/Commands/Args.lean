import Postino.Commands.Exec

/-!
# Arguments

How the words of a command are read: numbers, times, ranges, stream ids and score bounds,
each with its error; and the replies that are built of many.

* `range_bounds_spec` — a range with negative indexes, as positions of the collection.
-/

namespace Postino

open Lib

namespace Exec

/-- `str::parse::<i64>`, or the error of an argument that is no integer. -/
def int (s : String) : Except Fault Int :=
  said (Postino.int s) fun e h => by
    unfold Postino.int at h
    split at h
    · cases h
    · cases h
      decide

def within_reply (bytes : Nat) : Except Fault Unit :=
  said (Postino.within_reply bytes) fun e h => by
    unfold Postino.within_reply at h
    split at h
    · cases h
      exact no_limit_of_head (head_append (head_append (show _ = some 'E' by decide))) (by decide)
    · cases h

def wrong_args (name : String) : Fault :=
  ⟨Postino.wrong_args name,
    no_limit_of_head (head_append (head_append (show _ = some 'E' by decide))) (by decide)⟩

/-- The name a command was sent under. -/
def wrong_args_of (argv : List String) : Fault := wrong_args (argv.headD "")

def glob_client (pattern : String) : Except Fault Glob :=
  said (Glob.client pattern) fun e h => by
    unfold Glob.client at h
    split at h
    · cases h
      exact no_limit_of_head (head_append (head_append (show _ = some 'E' by decide))) (by decide)
    · cases h

/-- The value, when it fits a signed 64-bit number. -/
def checked (n : Int) : Option Int := if -(2 ^ 63) ≤ n ∧ n < 2 ^ 63 then some n else none

/-- `as i64`, of an unsigned 64-bit number. -/
def as_i64 (n : Nat) : Int := if n < 2 ^ 63 then n else (n : Int) - 2 ^ 64

def count (s : String) : Except Fault Nat :=
  match int s with
  | .error f => .error f
  | .ok n => if 0 ≤ n then .ok n.toNat else .error (.err "value is out of range, must be positive")

/-- An option's value, where the words may end before it. -/
def value? (words : List String) : Except Fault String :=
  match words with
  | value :: _ => .ok value
  | [] => .error bad_syntax

def float (s : String) : Except Fault F64 :=
  let text := to_ascii_lowercase s
  let value :=
    if text ∈ ["inf", "+inf", "infinity", "+infinity"] then some F64.infinity
    else if text ∈ ["-inf", "-infinity"] then some F64.negInfinity
    else F64.parse text
  match value with
  | some value => if value.isNaN then .error NOT_FLOAT else .ok value
  | none => .error NOT_FLOAT

/-- Formats a float for replies. -/
def format_float (value : F64) : String :=
  if value.isInfinite then
    if F64.lt .zero value then "inf" else "-inf"
  else value.display

/-- When a key given `amount` seconds (`unit` 1000) or milliseconds (`unit` 1), from now or
as a Unix time, expires; `none` when that time does not fit. -/
def expiry_at (now : Nat) (amount unit : Int) (absolute : Bool) : Option Nat := do
  let ms ← checked (amount * unit)
  let time ← if absolute then some ms else
    -- a clock past the signed numbers fits nothing
    (checked now).bind fun now => checked (ms + now)
  if 0 ≤ time then some time.toNat else none

def is (arg word : String) : Bool := to_ascii_lowercase arg = to_ascii_lowercase word

/-- Normalizes a range with negative indexes counting from the end into `0..len`. -/
def range_bounds (start stop : Int) (len : Nat) : Option (Nat × Nat) :=
  let start := if start < 0 then max (len + start) 0 else start
  let stop := if stop < 0 then len + stop else min stop (len - 1)
  if start ≤ stop ∧ start < len then some (start.toNat, stop.toNat) else none

/-- The bounds found are positions of the collection, in order. -/
theorem range_bounds_spec {start stop : Int} {len a b : Nat} (h : range_bounds start stop len = some (a, b)) :
    a ≤ b ∧ b < len := by
  unfold range_bounds at h
  extract_lets start' stop' at h
  obtain ⟨⟨hLe, hLt⟩, hEq⟩ := Option.ite_none_right_eq_some.mp h
  obtain ⟨rfl, rfl⟩ := Prod.mk.inj (Option.some.inj hEq)
  have hStart : 0 ≤ start' := by
    show 0 ≤ if start < 0 then max (len + start) 0 else start
    split <;> omega
  have hStop : stop' < len := by
    show (if stop < 0 then len + stop else min stop (len - 1)) < (len : Int)
    split <;> omega
  omega

/-! ## Stream ids -/

def parse_id (s : String) (missing_seq : Fin (2 ^ 64)) : Except Fault Id :=
  let ms := s.toList.takeWhile (· ≠ '-')
  let seq := match s.toList.drop ms.length with
    | [] => some missing_seq.val
    | _ :: seq => Id.parse_u64 seq
  match Id.parse_u64 ms, seq with
  | some ms, some seq =>
    match Id.of_words ms seq with
    | some id => .ok id
    | none => .error BAD_ID
  | _, _ => .error BAD_ID

/-- An id is read back as it was written. -/
theorem parse_id_display (id : Id) (missing_seq : Fin (2 ^ 64)) : parse_id id.display missing_seq = .ok id := by
  have hDrop : id.display.toList.drop (Nat.toDigits 10 id.ms).length = '-' :: Nat.toDigits 10 id.seq := by
    rw [Id.toList_display, List.drop_left']
    rfl
  simp only [parse_id, Id.takeWhile_display, hDrop, Id.parse_u64_digits id.ms_lt, Id.parse_u64_digits id.seq_lt]
  rw [Id.of_words_parts]

/-- What follows an opening bracket, which excludes a bound. -/
def exclusive (s : String) : Option String :=
  match s.toList with
  | '(' :: rest => some (String.ofList rest)
  | _ => none

def range_start (s : String) : Except Fault Id :=
  if s = "-" then .ok .zero
  else if s = "+" then .ok .MAX
  else match exclusive s with
    | some rest =>
      match parse_id rest 0 with
      | .error f => .error f
      | .ok id =>
        match id.after with
        | some id => .ok id
        | none => .error (.err "invalid start ID for the interval")
    | none => parse_id s 0

/-- A written id is no sign for an end of the range, and includes itself. -/
theorem range_start_display (id : Id) : range_start id.display = .ok id := by
  obtain ⟨c, rest, hDigits⟩ := List.exists_cons_of_ne_nil (@Nat.toDigits_ne_nil id.ms 10)
  have hHead : id.display.toList.head? = some c := by
    rw [Id.toList_display, hDigits]
    rfl
  have hNe (sign : Char) (hSign : sign.isDigit = false) : c ≠ sign :=
    Id.ne_of_digit (hDigits ▸ List.mem_cons_self : c ∈ _) hSign
  have hOther (sign : Char) (hSign : sign.isDigit = false) {word : String} (hWord : word.toList.head? = some sign) :
      id.display ≠ word := fun hEq => by
    rw [← hEq, hHead] at hWord
    exact hNe sign hSign (Option.some.inj hWord)
  have hIncluded : exclusive id.display = none := by
    unfold exclusive
    split
    · next hParen =>
      rw [hParen] at hHead
      exact absurd (Option.some.inj hHead).symm (hNe _ (by decide))
    · rfl
  unfold range_start
  rw [if_neg (hOther '-' (by decide) (by decide)), if_neg (hOther '+' (by decide) (by decide)), hIncluded]
  exact parse_id_display id 0

/-- The largest id less than `id`; `0-0` has none. -/
def before (id : Id) : Option Id :=
  if id.ms = 0 ∧ id.seq = 0 then none
  else if id.seq = 0 then
    some { ms := id.ms - 1, seq := 2 ^ 64 - 1, ms_lt := Nat.lt_of_le_of_lt (Nat.sub_le _ _) id.ms_lt
           seq_lt := Id.last_lt_word }
  else some { id with seq := id.seq - 1, seq_lt := Nat.lt_of_le_of_lt (Nat.sub_le _ _) id.seq_lt }

def range_end (s : String) : Except Fault (Option Id) :=
  if s = "-" then .ok (some .zero)
  else if s = "+" then .ok (some .MAX)
  else match exclusive s with
    | some rest => (parse_id rest (Fin.last _)).map before
    | none => (parse_id s (Fin.last _)).map some

/-- A score bound: a number, or `(n` for an exclusive bound. -/
def score_bound (s : String) : Except Fault (F64 × Bool) :=
  let (text, excluded) := match exclusive s with
    | some rest => (rest, true)
    | none => (s, false)
  match float text with
  | .ok value => .ok (value, excluded)
  | .error _ => .error (.err "min or max is not a float")

/-! ## Replies of many -/

/-- The replies made, one at a time, refused as soon as together they would be more than
one response may carry. -/
def collect_loop : Nat → List Reply → Except Fault Unit
  | _, [] => .ok ()
  | bytes, item :: items =>
    match within_reply (bytes + item.size) with
    | .error f => .error f
    | .ok () => collect_loop (bytes + item.size) items

def collect_within (items : List Reply) : Except Fault Reply :=
  (collect_loop 0 items).map fun _ => .array items

theorem said_ok {α : Type} {result : Except String α} {a : α} {h} (hOk : result = .ok a) : said result h = .ok a := by
  subst hOk
  rfl

theorem said_error {α : Type} {result : Except String α} {e : String} {h} (hError : result = .error e) :
    said result h = .error ⟨e, h e hError⟩ := by
  subst hError
  rfl

theorem within_reply_ok {bytes : Nat} (h : bytes ≤ MAX_REPLY_BYTES) : within_reply bytes = .ok () := by
  refine said_ok ?_
  unfold Postino.within_reply
  rw [if_neg (by omega)]

theorem within_reply_error {bytes : Nat} (h : MAX_REPLY_BYTES < bytes) : ∃ f, within_reply bytes = .error f := by
  have hError : ∃ e, Postino.within_reply bytes = .error e := by
    unfold Postino.within_reply
    rw [if_pos h]
    exact ⟨_, rfl⟩
  obtain ⟨e, hError⟩ := hError
  exact ⟨_, said_error hError⟩

theorem collect_loop_ok {items : List Reply} {bytes : Nat} (h : bytes + Reply.sizes items ≤ MAX_REPLY_BYTES) :
    collect_loop bytes items = .ok () := by
  induction items generalizing bytes with
  | nil => rfl
  | cons item items ih =>
    rw [Reply.sizes] at h
    rw [collect_loop, within_reply_ok (by omega)]
    exact ih (by omega)

theorem collect_loop_error {items : List Reply} {bytes : Nat} (hNow : bytes ≤ MAX_REPLY_BYTES)
    (h : MAX_REPLY_BYTES < bytes + Reply.sizes items) : ∃ f, collect_loop bytes items = .error f := by
  induction items generalizing bytes with
  | nil =>
    rw [Reply.sizes] at h
    omega
  | cons item items ih =>
    rw [Reply.sizes] at h
    rw [collect_loop]
    by_cases hFits : bytes + item.size ≤ MAX_REPLY_BYTES
    · rw [within_reply_ok hFits]
      exact ih hFits (by omega)
    · obtain ⟨f, hError⟩ := within_reply_error (not_le.mp hFits)
      rw [hError]
      exact ⟨f, rfl⟩

/-- The replies are carried just when all together are no more than one response may be. -/
theorem collect_within_ok {items : List Reply} (h : Reply.sizes items ≤ MAX_REPLY_BYTES) :
    collect_within items = .ok (.array items) := by
  unfold collect_within
  rw [collect_loop_ok (by omega)]
  rfl

theorem collect_within_error {items : List Reply} (h : MAX_REPLY_BYTES < Reply.sizes items) :
    ∃ f, collect_within items = .error f := by
  obtain ⟨f, hError⟩ := @collect_loop_error items 0 (Nat.zero_le _) (by omega)
  unfold collect_within
  rw [hError]
  exact ⟨f, rfl⟩

/-- The values found, their bytes counted as they are copied. -/
def values_within (items : List (Option String)) : Except Fault Reply :=
  let rec go : Nat → List (Option String) → Except Fault Unit
    | _, [] => .ok ()
    | bytes, none :: items => go bytes items
    | bytes, some s :: items =>
      match within_reply (bytes + s.utf8ByteSize) with
      | .error f => .error f
      | .ok () => go (bytes + s.utf8ByteSize) items
  (go 0 items).map fun _ => .array (items.map fun | some s => .bulk s | none => .nil)

def bulk_or_nil : Option String → Reply
  | some s => .bulk s
  | none => .nil

def entry_size (fields : List (String × String)) : Nat :=
  (fields.map fun f => f.1.utf8ByteSize + f.2.utf8ByteSize).sum + 24

def entry_reply (id : Id) (fields : List (String × String)) : Reply :=
  .array [.bulk id.display, .array (fields.flatMap fun f => [.bulk f.1, .bulk f.2])]

def nogroup (key group command : String) : Fault :=
  .nogroup s!"No such key '{key}' or consumer group '{group}' in {command} with GROUP option"

/-- The words of an argument list, two by two; the last is dropped where they do not
come even. -/
def chunks : List String → List (String × String)
  | a :: b :: rest => (a, b) :: chunks rest
  | _ => []

end Exec

end Postino
