import Postino.Journal.Line

/-!
# Percent-encoding

Text as it stands in a path or a query: the bytes of its UTF-8, those that are not plain
as `%` and two hexadecimal digits.

* `decode_loop_encoded` — the bytes that were encoded, back;
* `percent_decode_encode` — the text, whichever way `+` is taken.
-/

namespace Postino.Http

open Journal (toDigit)

/-! ## UTF-8 -/

/-- The bytes of a text. -/
def bytes (s : String) : Bytes := s.toList.flatMap String.utf8EncodeChar

/-- `String::from_utf8`. -/
def from_utf8 (b : Bytes) : Option String := String.fromUTF8? b.toByteArray

/-- How many bytes the character has that starts with `a`; 0 when none does. -/
def width (a : UInt8) : Nat :=
  if a < 0x80 then 1
  else if 0xc2 ≤ a && a ≤ 0xdf then 2
  else if 0xe0 ≤ a && a ≤ 0xef then 3
  else if 0xf0 ≤ a && a ≤ 0xf4 then 4
  else 0

def continues (b : UInt8) : Bool := 0x80 ≤ b && b ≤ 0xbf

/-- Whether `b` may come second after `a`. -/
def second (a b : UInt8) : Bool :=
  if a = 0xe0 then 0xa0 ≤ b && b ≤ 0xbf
  else if a = 0xed then 0x80 ≤ b && b ≤ 0x9f
  else if a = 0xf0 then 0x90 ≤ b && b ≤ 0xbf
  else if a = 0xf4 then 0x80 ≤ b && b ≤ 0x8f
  else continues b

/-- How many bytes, from `a` on, may be the start of a character. -/
def started (a : UInt8) : Bytes → Nat
  | b :: rest =>
    if 2 ≤ width a && second a b then 2 + ((rest.take (width a - 2)).takeWhile continues).length else 1
  | [] => 1

/-- `String::from_utf8_lossy`: what starts no character, or only the start of one, becomes
the replacement character. The text is no longer than `length`. -/
def lossy_loop : Nat → Bytes → List Char
  | 0, _ => []
  | _, [] => []
  | length + 1, a :: rest =>
    let taken := started a rest
    let char := (a :: rest).take taken
    let text := if taken = width a then (from_utf8 char).elim [] String.toList else [Char.ofNat 0xfffd]
    text ++ lossy_loop length ((a :: rest).drop taken)

def from_utf8_lossy (b : Bytes) : String := String.ofList (lossy_loop b.length b)

/-! ## Encoding and decoding -/

/-- Bytes that stand for themselves. -/
def plain (b : UInt8) : Bool :=
  48 ≤ b && b ≤ 57 || 65 ≤ b && b ≤ 90 || 97 ≤ b && b ≤ 122 || b = 45 || b = 95 || b = 46 || b = 126

def percent : UInt8 := '%'.toUInt8
def plus : UInt8 := '+'.toUInt8

/-- A hexadecimal digit, in capitals. -/
def hex (d : Nat) : Char := Char.ofNat (if d < 10 then 48 + d else 55 + d)

def encode_byte (b : UInt8) : List Char :=
  if plain b then [Char.ofNat b.toNat] else ['%', hex (b.toNat / 16), hex (b.toNat % 16)]

def percent_encode (input : String) : String := String.ofList ((bytes input).flatMap encode_byte)

/-- The byte an escape stands for, when `b` and what follows are one. -/
def escape (b : UInt8) (rest : Bytes) : Option UInt8 :=
  if b = percent then
    match rest with
    | hi :: lo :: _ => do
      let hi ← toDigit hi
      let lo ← toDigit lo
      some (UInt8.ofNat (16 * hi + lo))
    | _ => none
  else none

/-- The bytes decoded, once the next `skip` of an escape are passed. -/
def decode_loop (plus_as_space : Bool) : Nat → Bytes → Bytes
  | _, [] => []
  | skip + 1, _ :: rest => decode_loop plus_as_space skip rest
  | 0, b :: rest =>
    match escape b rest with
    | some byte => byte :: decode_loop plus_as_space 2 rest
    | none => (if b = plus && plus_as_space then 32 else b) :: decode_loop plus_as_space 0 rest

def percent_decode (input : String) (plus_as_space : Bool) : String :=
  -- most of what comes in has nothing to decode
  if !(bytes input).any fun b => b = percent || plus_as_space && b = plus then input
  else
    let out := decode_loop plus_as_space 0 (bytes input)
    (from_utf8 out).getD (from_utf8_lossy out)

/-! ## Bytes of a text -/

theorem bytes_toByteArray (s : String) : (bytes s).toByteArray = s.toByteArray := String.utf8Encode_toList

theorem from_utf8_bytes (s : String) : from_utf8 (bytes s) = some s := by
  unfold from_utf8 String.fromUTF8?
  rw [bytes_toByteArray, dif_pos s.isValidUTF8]
  rfl

theorem bytes_injective {s t : String} (h : bytes s = bytes t) : s = t := by
  have hSame := from_utf8_bytes s
  rw [h, from_utf8_bytes] at hSame
  exact (Option.some.inj hSame).symm

theorem utf8_ascii {c : Char} (h : c.toNat < 128) : String.utf8EncodeChar c = [UInt8.ofNat c.toNat] := by
  unfold String.utf8EncodeChar
  have hLow : c.val.toNat ≤ 127 := by
    have : c.val.toNat = c.toNat := rfl
    omega
  simp only [hLow, if_true]
  rfl

/-- ASCII characters are a byte each. -/
theorem bytes_ascii {cs : List Char} (h : ∀ c ∈ cs, c.toNat < 128) :
    bytes (String.ofList cs) = cs.map fun c => UInt8.ofNat c.toNat := by
  unfold bytes
  rw [String.toList_ofList]
  induction cs with
  | nil => rfl
  | cons c cs ih =>
    obtain ⟨hC, hRest⟩ := List.forall_mem_cons.mp h
    rw [List.flatMap_cons, utf8_ascii hC, ih hRest]
    rfl

/-! ## What encoding leaves -/

theorem hex_ascii {d : Nat} (h : d < 16) : (hex d).toNat < 128 := by
  have hAll : ∀ d : Fin 16, (hex d).toNat < 128 := by decide
  exact hAll ⟨d, h⟩

theorem toDigit_hex {d : Nat} (h : d < 16) : toDigit (UInt8.ofNat (hex d).toNat) = some d := by
  have hAll : ∀ d : Fin 16, toDigit (UInt8.ofNat (hex d).toNat) = some d.val := by decide
  exact hAll ⟨d, h⟩

theorem plain_ascii {b : UInt8} (h : plain b = true) : b.toNat < 128 := by
  simp only [plain, Bool.or_eq_true, Bool.and_eq_true, decide_eq_true_eq, UInt8.le_iff_toNat_le, ← UInt8.toNat_inj] at h
  simp only [UInt8.reduceToNat] at h
  omega

/-- The character of an ASCII byte. -/
theorem toNat_char {n : Nat} (h : n < 128) : (Char.ofNat n).toNat = n := by
  have hAll : ∀ n : Fin 128, (Char.ofNat n).toNat = n.val := by decide
  exact hAll ⟨n, h⟩

theorem encode_byte_ascii (b : UInt8) : ∀ c ∈ encode_byte b, c.toNat < 128 := by
  have hB := b.toNat_lt
  unfold encode_byte
  split
  · next hPlain =>
    intro c hC
    rw [List.mem_singleton.mp hC, toNat_char (plain_ascii hPlain)]
    exact plain_ascii hPlain
  · intro c hC
    simp only [List.mem_cons, List.not_mem_nil, or_false] at hC
    rcases hC with rfl | rfl | rfl
    · decide
    · exact hex_ascii (by omega)
    · exact hex_ascii (by omega)

/-- The bytes of one that was encoded. -/
def encoded (b : UInt8) : Bytes := (encode_byte b).map fun c => UInt8.ofNat c.toNat

theorem bytes_encoded (s : String) : bytes (percent_encode s) = (bytes s).flatMap encoded := by
  have hAscii : ∀ c ∈ (bytes s).flatMap encode_byte, c.toNat < 128 := by
    intro c hMem
    obtain ⟨b, -, hC⟩ := List.mem_flatMap.mp hMem
    exact encode_byte_ascii b c hC
  unfold percent_encode
  rw [bytes_ascii hAscii, List.map_flatMap]
  rfl

theorem encoded_plain {b : UInt8} (h : plain b = true) : encoded b = [b] := by
  unfold encoded encode_byte
  rw [if_pos h, List.map_singleton, toNat_char (plain_ascii h), UInt8.ofNat_toNat]

theorem encoded_other {b : UInt8} (h : plain b = false) : ∃ hi lo, encoded b = [percent, hi, lo] ∧
    ∀ rest, escape percent (hi :: lo :: rest) = some b := by
  have hB := b.toNat_lt
  refine ⟨UInt8.ofNat (hex (b.toNat / 16)).toNat, UInt8.ofNat (hex (b.toNat % 16)).toNat, ?_, fun rest => ?_⟩
  · unfold encoded encode_byte
    rw [h]
    rfl
  · have hBack : 16 * (b.toNat / 16) + b.toNat % 16 = b.toNat := Nat.div_add_mod _ _
    show (toDigit (UInt8.ofNat (hex (b.toNat / 16)).toNat)).bind (fun hi =>
      (toDigit (UInt8.ofNat (hex (b.toNat % 16)).toNat)).bind fun lo => some (UInt8.ofNat (16 * hi + lo))) = some b
    rw [toDigit_hex (show b.toNat / 16 < 16 by omega), toDigit_hex (show b.toNat % 16 < 16 by omega)]
    show some (UInt8.ofNat (16 * (b.toNat / 16) + b.toNat % 16)) = some b
    rw [hBack, UInt8.ofNat_toNat]

/-! ## Round trips -/

/-- One byte that was encoded, back. -/
theorem decode_encoded (plus_as_space : Bool) (b : UInt8) (rest : Bytes) :
    decode_loop plus_as_space 0 (encoded b ++ rest) = b :: decode_loop plus_as_space 0 rest := by
  cases hPlain : plain b with
  | true =>
    have hPercent : b ≠ percent := fun h => by rw [h] at hPlain; exact absurd hPlain (by decide)
    have hPlus : b ≠ plus := fun h => by rw [h] at hPlain; exact absurd hPlain (by decide)
    rw [encoded_plain hPlain]
    have hEscape : escape b rest = none := if_neg hPercent
    show decode_loop plus_as_space 0 (b :: rest) = _
    rw [decode_loop, hEscape, decide_eq_false hPlus]
    rfl
  | false =>
    obtain ⟨hi, lo, hEncoded, hEscape⟩ := encoded_other hPlain
    rw [hEncoded]
    show decode_loop plus_as_space 0 (percent :: hi :: lo :: rest) = _
    rw [decode_loop, hEscape]
    rfl

/-- **The bytes that were encoded, back.** -/
theorem decode_loop_encoded (plus_as_space : Bool) (bs : Bytes) :
    decode_loop plus_as_space 0 (bs.flatMap encoded) = bs := by
  induction bs with
  | nil => rfl
  | cons b bs ih => rw [List.flatMap_cons, decode_encoded, ih]

/-- Where there is nothing to decode, decoding changes nothing. -/
theorem decode_loop_nothing (plus_as_space : Bool) {bs : Bytes}
    (h : bs.any (fun b => b = percent || plus_as_space && b = plus) = false) :
    decode_loop plus_as_space 0 bs = bs := by
  induction bs with
  | nil => rfl
  | cons b bs ih =>
    rw [List.any_cons, Bool.or_eq_false_iff, Bool.or_eq_false_iff] at h
    obtain ⟨⟨hPercent, hPlus⟩, hRest⟩ := h
    have hEscape : escape b bs = none := if_neg (of_decide_eq_false hPercent)
    rw [decode_loop, hEscape]
    dsimp only
    rw [ih hRest, Bool.and_comm, hPlus]
    rfl

/-- **Percent-encoding round-trips.** -/
theorem percent_decode_encode (s : String) (plus_as_space : Bool) :
    percent_decode (percent_encode s) plus_as_space = s := by
  have hBack := decode_loop_encoded plus_as_space (bytes s)
  rw [← bytes_encoded] at hBack
  unfold percent_decode
  split
  · next hNothing =>
    -- nothing in it was an escape, so nothing was encoded
    rw [decode_loop_nothing plus_as_space (by simpa using hNothing)] at hBack
    exact bytes_injective hBack
  · dsimp only
    rw [hBack, from_utf8_bytes, Option.getD_some]

end Postino.Http
