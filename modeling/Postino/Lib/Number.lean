import Postino.Lib.Float64
import Postino.Lib.Json

/-!
# The numbers of JSON text

A number is a machine integer where it is written as one and fits, and else a
double-precision number. How a double is written, and what number a decimal is read as,
are parameters.

* `machine_int` — a 64-bit integer is read as it was written.
-/

namespace Lib

inductive Number where
  | int (n : Int)
  | float (x : F64)
  deriving DecidableEq, Repr

namespace Number

open JsonTree

def write_int (n : Int) : List Char :=
  if n < 0 then '-' :: Nat.toDigits 10 n.natAbs else Nat.toDigits 10 n.natAbs

/-- What follows a fraction, if there is one. -/
def skip_fraction : List Char → Option (List Char)
  | '.' :: rest =>
    let (digits, rest) := F64.digits rest
    if digits = [] then none else some rest
  | rest => some rest

/-- What follows an exponent, if there is one. -/
def skip_exponent : List Char → Option (List Char)
  | c :: rest =>
    if c = 'e' ∨ c = 'E' then
      let unsigned := match rest with
        | '+' :: rest => rest
        | '-' :: rest => rest
        | rest => rest
      let (digits, rest) := F64.digits unsigned
      if digits = [] then none else some rest
    else some (c :: rest)
  | [] => some []

/-- Whether an integer of these digits is a machine integer: unsigned, or signed below zero. -/
def fits (negative : Bool) (n : Nat) : Bool :=
  if negative then 0 < n && n ≤ 2 ^ 63 else n < 2 ^ 64

def read (decimal : List Char → Option F64) (text : List Char) : Option (Number × List Char) :=
  let negative : Bool := text.head? = some '-'
  let (whole, rest) := F64.digits (if negative then text.tail else text)
  if whole = [] ∨ (1 < whole.length ∧ whole.head? = some '0') then none
  else do
    let rest' ← skip_fraction rest
    let rest' ← skip_exponent rest'
    let n := Nat.ofDigitChars 10 whole 0
    if rest'.length = rest.length ∧ fits negative n then
      some (.int (if negative then -n else n), rest')
    else do
      let x ← decimal (text.take (text.length - rest'.length))
      some (.float x, rest')

/-- Numbers as JSON has them. What is not finite is written as `null`. -/
def machine (shortest : F64 → List Char) (decimal : List Char → Option F64) : Numerals Number where
  write
    | .int n => write_int n
    | .float x => if x.isFinite then shortest x else ['n', 'u', 'l', 'l']
  read := read decimal

/-! ## Integers -/

theorem digit_toDigits {n : Nat} {c : Char} (h : c ∈ Nat.toDigits 10 n) : c.isDigit = true :=
  Nat.isDigit_of_mem_toDigits (by decide) (by decide) h

/-- Only zero is written with a zero in front. -/
theorem head_toDigits {n : Nat} (h : (Nat.toDigits 10 n).head? = some '0') : n = 0 := by
  induction n using Nat.strongRecOn with
  | _ n ih =>
    by_cases hSmall : n < 10
    · rw [Nat.toDigits_of_lt_base hSmall] at h
      have hAll : ∀ n < 10, [Nat.digitChar n].head? = some '0' → n = 0 := by decide
      exact hAll n hSmall h
    · rw [Nat.toDigits_of_base_le (by decide) (by omega)] at h
      have hHead : (Nat.toDigits 10 (n / 10)).head? = some '0' := by
        obtain ⟨c, rest, hEq⟩ := List.exists_cons_of_ne_nil (@Nat.toDigits_ne_nil (n / 10) 10)
        rw [hEq, List.cons_append] at h
        rw [hEq]
        exact h
      have hZero := ih (n / 10) (by omega) hHead
      omega

theorem closes_not_digit {rest : List Char} (h : Closes rest) {c : Char} (hHead : rest.head? = some c) :
    c.isDigit = false ∧ c ≠ '.' ∧ c ≠ 'e' ∧ c ≠ 'E' := by
  have hMem := h c hHead
  simp only [List.mem_cons, List.not_mem_nil, or_false] at hMem
  rcases hMem with rfl | rfl | rfl <;> decide

theorem digits_append {ds rest : List Char} (hDigits : ∀ c ∈ ds, c.isDigit = true) (h : Closes rest) :
    F64.digits (ds ++ rest) = (ds, rest) := by
  unfold F64.digits
  cases rest with
  | nil =>
    rw [List.append_nil, List.takeWhile_eq_self_iff.mpr hDigits, List.dropWhile_eq_nil_iff.mpr hDigits]
  | cons c rest =>
    have hStop := (closes_not_digit h rfl).1
    rw [List.takeWhile_append_of_pos hDigits, List.dropWhile_append_of_pos hDigits,
      List.takeWhile_cons_of_neg (by simp [hStop]), List.dropWhile_cons_of_neg (by simp [hStop]),
      List.append_nil]

theorem skip_closed {rest : List Char} (h : Closes rest) :
    skip_fraction rest = some rest ∧ skip_exponent rest = some rest := by
  cases rest with
  | nil => exact ⟨rfl, rfl⟩
  | cons c rest =>
    obtain ⟨-, hPoint, hLower, hUpper⟩ := closes_not_digit h rfl
    constructor
    · unfold skip_fraction
      split
      · next hEq => exact absurd (List.cons.inj hEq).1 hPoint
      · rfl
    · exact if_neg (by simp [hLower, hUpper])

/-- Digits are read as the number they write, if it fits. -/
theorem read_digits (decimal : List Char → Option F64) {text rest : List Char} {n : Nat}
    (hText : (if text.head? = some '-' then text.tail else text) = Nat.toDigits 10 n ++ rest)
    (hFits : fits (decide (text.head? = some '-')) n = true) (h : Closes rest) :
    read decimal text = some (.int (if text.head? = some '-' then -(n : Int) else n), rest) := by
  have hWhole : ¬(Nat.toDigits 10 n = [] ∨ (1 < (Nat.toDigits 10 n).length ∧ (Nat.toDigits 10 n).head? = some '0')) := by
    rintro (hNil | ⟨hLong, hHead⟩)
    · exact Nat.toDigits_ne_nil hNil
    · rw [head_toDigits hHead] at hLong
      exact absurd hLong (by decide)
  obtain ⟨hFraction, hExponent⟩ := skip_closed h
  unfold read
  simp only [decide_eq_true_eq, hText, digits_append (fun _ => digit_toDigits) h, hFraction, hExponent,
    Option.bind_eq_bind, Option.bind_some, Nat.ofDigitChars_toDigits (by decide : 1 < 10) (by decide : 10 ≤ 10), hFits]
  rw [if_neg hWhole, if_pos ⟨trivial, trivial⟩]

/-- A 64-bit integer is read as it was written. -/
theorem machine_int (shortest : F64 → List Char) (decimal : List Char → Option F64) {n : Int}
    (hLow : -2 ^ 63 ≤ n) (hHigh : n < 2 ^ 63) :
    (machine shortest decimal).Reads (.int n) (.int n) := by
  have hMinus : (Nat.toDigits 10 n.natAbs).head? ≠ some '-' := fun hHead =>
    absurd (digit_toDigits (List.mem_of_mem_head? hHead)) (by decide)
  constructor
  · show ∃ c tail, write_int n = c :: tail ∧ _
    unfold write_int
    split
    · exact ⟨'-', _, rfl, Or.inl rfl⟩
    · obtain ⟨c, tail, hEq⟩ := List.exists_cons_of_ne_nil (@Nat.toDigits_ne_nil n.natAbs 10)
      exact ⟨c, tail, hEq, Or.inr (digit_toDigits (hEq ▸ List.mem_cons_self))⟩
  · intro rest hCloses
    show read decimal (write_int n ++ rest) = some (.int n, rest)
    unfold write_int
    split
    · next hNeg =>
      rw [@read_digits decimal ('-' :: Nat.toDigits 10 n.natAbs ++ rest) rest n.natAbs rfl
        (by simp [fits]; omega) hCloses]
      simp only [List.cons_append, List.head?_cons, if_true]
      congr 3
      omega
    · next hPos =>
      have hHead : (Nat.toDigits 10 n.natAbs ++ rest).head? ≠ some '-' := by
        obtain ⟨c, tail, hEq⟩ := List.exists_cons_of_ne_nil (@Nat.toDigits_ne_nil n.natAbs 10)
        rw [hEq] at hMinus ⊢
        exact hMinus
      rw [@read_digits decimal (Nat.toDigits 10 n.natAbs ++ rest) rest n.natAbs (if_neg hHead)
        (by rw [decide_eq_false hHead, fits, if_neg Bool.false_ne_true, decide_eq_true_eq]; omega) hCloses,
        if_neg hHead]
      congr 3
      omega

end Number

end Lib
