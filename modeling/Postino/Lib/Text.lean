import Mathlib

/-!
# Texts

What the standard library of the code makes of text: blank characters and trimming, texts
that are the same but for the case of ASCII letters, and `{:?}`.

* `same_lower` — what is the same for all letters does not see their case.
-/

namespace Lib

/-! ## White space -/

/-- `char::is_whitespace`. -/
def isWhitespace (c : Char) : Bool :=
  let n := c.toNat
  (9 ≤ n && n ≤ 13) || n = 0x20 || n = 0x85 || n = 0xa0 || n = 0x1680 ||
    (0x2000 ≤ n && n ≤ 0x200a) || n = 0x2028 || n = 0x2029 || n = 0x202f || n = 0x205f || n = 0x3000

/-- `str::trim`. -/
def trim (s : String) : String :=
  String.ofList ((((s.toList.dropWhile isWhitespace).reverse).dropWhile isWhitespace).reverse)

/-! ## As it is written for `{:?}` -/

/-- Whether `{:?}` writes a character by its number. Beyond Latin-1 only the spaces are seen:
format, combining and unassigned characters, which are in tables of their own, are not. -/
def unprintable (c : Char) : Bool :=
  c.toNat < 0x20 || (0x7f ≤ c.toNat && c.toNat < 0xa0) || c.toNat = 0xad || (isWhitespace c && c ≠ ' ')

/-- A string as `format!` writes it for `{:?}`. -/
def debug (s : String) : String :=
  let escape (c : Char) : String :=
    if c = '"' then "\\\"" else if c = '\\' then "\\\\" else if c = '\n' then "\\n"
    else if c = '\r' then "\\r" else if c = '\t' then "\\t" else if c.toNat = 0 then "\\0"
    else if unprintable c then "\\u\x7b" ++ String.ofList (Nat.toDigits 16 c.toNat) ++ "\x7d"
    else String.singleton c
  "\"" ++ String.join (s.toList.map escape) ++ "\""

example : debug "a\"\u007f\u00e9" = "\"a\\\"\\u\x7b7f\x7d\u00e9\"" := by decide +kernel

/-! ## But for the case of letters -/

/-- `str::eq_ignore_ascii_case`. -/
def eq_ignore_ascii_case (a b : String) : Bool :=
  a.toList.map Char.toLower = b.toList.map Char.toLower

theorem eq_ignore_ascii_case_iff {a b : String} :
    eq_ignore_ascii_case a b = true ↔ a.toList.map Char.toLower = b.toList.map Char.toLower := decide_eq_true_iff

theorem eq_ignore_ascii_case_congr {a b : String} (h : eq_ignore_ascii_case a b = true) (c : String) :
    eq_ignore_ascii_case a c = eq_ignore_ascii_case b c ∧ eq_ignore_ascii_case c a = eq_ignore_ascii_case c b := by
  unfold eq_ignore_ascii_case
  rw [eq_ignore_ascii_case_iff.mp h]
  exact ⟨rfl, rfl⟩

/-- What is the same for all letters does not see their case. -/
theorem same_lower {p : Char → Bool} {b : Bool} (h : ∀ c, c.isAlpha = true → p c = b) : p ∘ Char.toLower = p := by
  funext c
  show p c.toLower = p c
  by_cases hUpper : c.isUpper = true
  · have hAlpha : c.isAlpha = true := by rw [Char.isAlpha, hUpper, Bool.true_or]
    rw [h c hAlpha, h c.toLower (by rw [Char.isAlpha_toLower_eq_isAlpha, hAlpha])]
  · rw [Char.toLower_eq_of_not_isUpper hUpper]

theorem ne_lower {d : Char} (h : d.isAlpha = false) :
    (fun c : Char => decide (c ≠ d)) ∘ Char.toLower = fun c => decide (c ≠ d) := by
  refine same_lower (b := true) fun c hAlpha => decide_eq_true ?_
  rintro rfl
  rw [h] at hAlpha
  cases hAlpha

theorem eq_lower {d : Char} (h : d.isAlpha = false) :
    (fun c : Char => decide (c = d)) ∘ Char.toLower = fun c => decide (c = d) := by
  refine same_lower (b := false) fun c hAlpha => decide_eq_false ?_
  rintro rfl
  rw [h] at hAlpha
  cases hAlpha

theorem isDigit_lower : Char.isDigit ∘ Char.toLower = Char.isDigit := by
  refine same_lower (b := false) fun c hAlpha => ?_
  by_contra hDigit
  rw [Bool.not_eq_false] at hDigit
  simp only [Char.isAlpha, Char.isUpper, Char.isLower, Char.isDigit, Bool.or_eq_true, Bool.and_eq_true,
    decide_eq_true_eq, UInt32.le_iff_toNat_le] at hAlpha hDigit
  simp at hAlpha hDigit
  omega

end Lib
