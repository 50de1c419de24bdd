import Postino.Db.Db

/-!
# Replies and arguments

What a command replies, and how the words of a command are read: numbers, options
and counts, with the errors of each.
-/

namespace Postino

inductive Reply where
  | simple (s : String)
  | int (n : Int)
  | bulk (s : String)
  | nil
  | array (items : List Reply)
  | map (pairs : List (String × Reply))
  | error (e : String)

namespace Reply

mutual
/-- About how many bytes the reply takes to send. -/
def size : Reply → Nat
  | simple s | bulk s | error s => s.utf8ByteSize + 4
  | int _ => 8
  | nil => 4
  | array items => sizes items + 2
  | map pairs => pair_sizes pairs + 2
def sizes : List Reply → Nat
  | [] => 0
  | item :: items => item.size + sizes items
def pair_sizes : List (String × Reply) → Nat
  | [] => 0
  | (k, v) :: pairs => k.utf8ByteSize + 4 + v.size + pair_sizes pairs
end

def ok : Reply := simple "OK"

/-- The text that a reply is. -/
def text : Reply → Option String
  | bulk s => some s
  | _ => none

/-- The number that a reply is. -/
def number : Reply → Option Int
  | int n => some n
  | _ => none

theorem text_eq_some {reply : Reply} {s : String} (h : reply.text = some s) : reply = bulk s := by
  unfold text at h
  split at h
  · cases h
    rfl
  · cases h

theorem number_eq_some {reply : Reply} {n : Int} (h : reply.number = some n) : reply = int n := by
  unfold number at h
  split at h
  · cases h
    rfl
  · cases h

def bulks (items : List String) : Reply := array (items.map bulk)

/-- The texts that a list reply holds. -/
def texts : Reply → Option (List String)
  | array items => items.mapM text
  | _ => none

theorem texts_eq_some {reply : Reply} {items : List String} (h : reply.texts = some items) :
    reply = bulks items := by
  unfold texts at h
  split at h
  · next replies =>
    refine congrArg array ?_
    induction replies generalizing items with
    | nil =>
      cases h
      rfl
    | cons reply replies ih =>
      rw [List.mapM_cons] at h
      obtain ⟨s, hText, h⟩ := Option.bind_eq_some_iff.mp h
      obtain ⟨rest, hRest, h⟩ := Option.bind_eq_some_iff.mp h
      cases h
      rw [text_eq_some hText, ih hRest, List.map_cons]
  · cases h

theorem sizes_append (front back : List Reply) : sizes (front ++ back) = sizes front + sizes back := by
  induction front with
  | nil => rw [List.nil_append, sizes, Nat.zero_add]
  | cons item front ih => rw [List.cons_append, sizes, sizes, ih, Nat.add_assoc]

def is_error : Reply → Bool
  | error _ => true
  | _ => false

end Reply

def SYNTAX : String := "ERR syntax error"
def NOT_INT : String := "ERR value is not an integer or out of range"

/-- The most one response may carry. -/
def MAX_REPLY_BYTES : Nat := 64 * 2 ^ 20

/-- The items as one reply, or an error where they are more than one response may carry. -/
def Replies (reply : Reply) (items : List Reply) : Prop :=
  if Reply.sizes items ≤ MAX_REPLY_BYTES then reply = .array items else reply.is_error = true

/-- Refuses a reply that has grown to `bytes`. -/
def within_reply (bytes : Nat) : Except String Unit :=
  if bytes > MAX_REPLY_BYTES then
    .error s!"ERR the reply would exceed {MAX_REPLY_BYTES / 2 ^ 20} MiB; read less at a time, with a range, COUNT, or SCAN"
  else .ok ()

def to_ascii_uppercase (s : String) : String := String.ofList (s.toList.map Char.toUpper)

def to_ascii_lowercase (s : String) : String := String.ofList (s.toList.map Char.toLower)

def wrong_args (name : String) : String :=
  s!"ERR wrong number of arguments for '{to_ascii_lowercase name}' command"

/-! ## Numbers -/

/-- The value of decimal digits, at least one. -/
def digits (s : List Char) : Option Nat :=
  if s.isEmpty || !s.all Char.isDigit then none
  else some (s.foldl (fun n c => 10 * n + (c.toNat - '0'.toNat)) 0)

/-- `str::parse::<i64>`: an optional sign, then digits. -/
def parse_i64 (s : String) : Option Int :=
  let value : Option Int := match s.toList with
    | '-' :: rest => (digits rest).map fun n => -(n : Int)
    | '+' :: rest => (digits rest).map fun n => (n : Int)
    | all => (digits all).map fun n => (n : Int)
  value.filter fun n => -(2 ^ 63) ≤ n && n < 2 ^ 63

def int (s : String) : Except String Int :=
  match parse_i64 s with
  | some n => .ok n
  | none => .error NOT_INT

/-! ## Hexadecimal -/

/-- The bytes of a string. -/
def utf8 (s : String) : List UInt8 := s.toUTF8.data.toList

/-- `String::from_utf8`. -/
def from_utf8 (bytes : List UInt8) : Option String := String.fromUTF8? ⟨bytes.toArray⟩

def HEX_DIGITS : List Char := "0123456789abcdef".toList

def hex_digit (n : Nat) : Char := HEX_DIGITS.getD n '0'

def to_hex (bytes : List UInt8) : String :=
  String.ofList (bytes.flatMap fun b => [hex_digit (b.toNat / 16), hex_digit (b.toNat % 16)])

/-- The value of a digit, in either case. -/
def digit_value (c : UInt8) : Option Nat :=
  let n := c.toNat
  if 48 ≤ n ∧ n ≤ 57 then some (n - 48)
  else if 97 ≤ n ∧ n ≤ 102 then some (n - 87)
  else if 65 ≤ n ∧ n ≤ 70 then some (n - 55)
  else none

/-- `u8::from_str_radix` at two bytes, which may be a sign and one digit. -/
def byte_of (a b : UInt8) : Option UInt8 :=
  if a.toNat = 43 then (digit_value b).map UInt8.ofNat
  else (digit_value a).bind fun high => (digit_value b).map fun low => UInt8.ofNat (16 * high + low)

def from_hex_bytes : List UInt8 → Option (List UInt8)
  | [] => some []
  | [_] => none
  | a :: b :: rest => (byte_of a b).bind fun byte => (from_hex_bytes rest).map (byte :: ·)

def from_hex (text : String) : Option (List UInt8) := from_hex_bytes (utf8 text)

theorem from_utf8_utf8 (s : String) : from_utf8 (utf8 s) = some s :=
  dif_pos s.isValidUTF8

theorem utf8_ofList (l : List Char) : utf8 (String.ofList l) = l.flatMap String.utf8EncodeChar := by
  show (String.ofList l).toByteArray.data.toList = _
  rw [String.toByteArray_ofList]
  exact congrArg Array.toList List.data_toByteArray

/-- A digit is one byte, and has the value it was written for. -/
theorem digit_value_hex {n : Nat} (hN : n < 16) :
    String.utf8EncodeChar (hex_digit n) = [UInt8.ofNat (hex_digit n).toNat] ∧
      (UInt8.ofNat (hex_digit n).toNat).toNat ≠ 43 ∧
      digit_value (UInt8.ofNat (hex_digit n).toNat) = some n := by
  interval_cases n <;> decide

theorem from_hex_to_hex (bytes : List UInt8) : from_hex (to_hex bytes) = some bytes := by
  unfold from_hex to_hex
  rw [utf8_ofList, List.flatMap_assoc]
  induction bytes with
  | nil => rfl
  | cons byte bytes ih =>
    have hByte : byte.toNat < 256 := byte.toNat_lt
    obtain ⟨hHigh, hSign, hHighValue⟩ := digit_value_hex (n := byte.toNat / 16) (by omega)
    obtain ⟨hLow, -, hLowValue⟩ := digit_value_hex (n := byte.toNat % 16) (by omega)
    have hJoin : UInt8.ofNat (16 * (byte.toNat / 16) + byte.toNat % 16) = byte := by
      rw [Nat.div_add_mod, UInt8.ofNat_toNat]
    rw [List.flatMap_cons, List.flatMap_cons, List.flatMap_singleton, hHigh, hLow]
    show (byte_of _ _).bind _ = _
    unfold byte_of
    rw [if_neg hSign, hHighValue, hLowValue]
    show (from_hex_bytes (bytes.flatMap _)).map _ = _
    rw [ih]
    exact congrArg (fun b => some (b :: bytes)) hJoin

end Postino
