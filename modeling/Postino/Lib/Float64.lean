import Mathlib

/-!
# Double-precision numbers as bit patterns

An IEEE 754 double is its 64 bits. Arithmetic is exact: a finite double is an
integer number of *units* of 2^-1074 (the smallest positive double), results are
computed as integers or quotients of integers, and `roundMag` rounds to the
nearest double, ties to even, once at the end.

* `totalKey` — the order of `f64::total_cmp`, as an integer;
* `lt`, `eq`, `le` — the numeric comparisons, false on a NaN;
* `add`, `mul`, `ceil` — correctly rounded;
* `parse`, `display` — decimal text, read with correct rounding and written with
  as few digits as read back to the same number, without an exponent.

The facts at the end are the only ones about arithmetic the development relies
on: the total order is the numeric one where there is no negative zero
(`le_iff_numKey`), and nothing lies between a number and the next
(`numKey_next_up`).
-/

namespace Lib

structure F64 where
  bits : Fin (2 ^ 64)
  deriving DecidableEq, Repr

namespace F64

/-! ## Fields -/

/-- The sign bit. -/
def neg (x : F64) : Bool := 2 ^ 63 ≤ x.bits.val

/-- Everything but the sign bit: magnitudes order as the numbers do. -/
def mag (x : F64) : Nat := x.bits.val % 2 ^ 63

/-- The magnitude of infinity; a NaN's is larger. -/
def infMag : Nat := 2047 * 2 ^ 52

def ofMag (neg : Bool) (mag : Nat) : F64 :=
  ⟨⟨((if neg then 2 ^ 63 else 0) + mag) % 2 ^ 64, Nat.mod_lt _ (by decide)⟩⟩

def zero : F64 := ofMag false 0
def negZero : F64 := ofMag true 0
def infinity : F64 := ofMag false infMag
def negInfinity : F64 := ofMag true infMag
def nan : F64 := ofMag false (infMag + 2 ^ 51)

def isNaN (x : F64) : Bool := infMag < x.mag
def isInfinite (x : F64) : Bool := x.mag = infMag
def isFinite (x : F64) : Bool := x.mag < infMag

/-- The key `f64::total_cmp` compares by: negative patterns in reverse. -/
def totalKey (x : F64) : Int :=
  if x.neg then -(x.mag : Int) - 1 else x.mag

/-- The key the numeric comparisons compare by: both zeros are one number. -/
def numKey (x : F64) : Int :=
  if x.neg then -(x.mag : Int) else x.mag

def lt (x y : F64) : Bool := !x.isNaN && !y.isNaN && x.numKey < y.numKey

def eq (x y : F64) : Bool := !x.isNaN && !y.isNaN && x.numKey == y.numKey

def le (x y : F64) : Bool := !x.isNaN && !y.isNaN && x.numKey ≤ y.numKey

theorem totalKey_injective : Function.Injective totalKey := by
  rintro ⟨⟨a, ha⟩⟩ ⟨⟨b, hb⟩⟩ h
  simp only [totalKey, neg, mag, decide_eq_true_eq] at h
  have : a = b := by
    split at h <;> split at h <;> omega
  subst this
  rfl

instance : LinearOrder F64 := LinearOrder.lift' totalKey totalKey_injective

/-! ## Rounding -/

/-- A finite magnitude, in units of 2^-1074. -/
def units (mag : Nat) : Nat :=
  if mag / 2 ^ 52 = 0 then mag % 2 ^ 52
  else (2 ^ 52 + mag % 2 ^ 52) * 2 ^ (mag / 2 ^ 52 - 1)

def roundHalfEven (n d : Nat) : Nat :=
  if d < 2 * (n % d) ∨ (2 * (n % d) = d ∧ n / d % 2 = 1) then n / d + 1 else n / d

/-- The magnitude nearest to `num / den` units. A mantissa that rounds up to
2^53 carries into the exponent by itself, and an exponent past the largest is
infinity. -/
def roundMag (num den : Nat) : Nat :=
  let shift := (num / den).log2 + 1 - 53
  min (shift * 2 ^ 52 + roundHalfEven num (den * 2 ^ shift)) infMag

/-- One, in units. -/
def one : Nat := 2 ^ 1074

def ofNat (n : Nat) : F64 := ofMag false (roundMag (n * one) 1)

/-! ## Arithmetic -/

/-- A finite number, in units. -/
def toUnits (x : F64) : Int := if x.neg then -(units x.mag : Int) else units x.mag

def add (x y : F64) : F64 :=
  if x.isNaN || y.isNaN then nan
  else if x.isInfinite then
    if y.isInfinite && x.neg != y.neg then nan else x
  else if y.isInfinite then y
  else
    let sum := x.toUnits + y.toUnits
    if sum = 0 then ofMag (x.neg && y.neg) 0
    else ofMag (sum < 0) (roundMag sum.natAbs 1)

def mul (x y : F64) : F64 :=
  if x.isNaN || y.isNaN then nan
  else if x.isInfinite || y.isInfinite then
    if x.mag = 0 || y.mag = 0 then nan else ofMag (x.neg != y.neg) infMag
  else ofMag (x.neg != y.neg) (roundMag (units x.mag * units y.mag) one)

def ceil (x : F64) : F64 :=
  if x.isFinite then
    let whole := units x.mag / one
    let up := !x.neg && units x.mag % one != 0
    ofMag x.neg (roundMag ((if up then whole + 1 else whole) * one) 1)
  else x

/-- The least number greater than this one; infinity and a NaN stay. -/
def next_up (x : F64) : F64 :=
  if x.isNaN ∨ x = infinity then x
  else if x.mag = 0 then ofMag false 1
  else if x.neg then ofMag true (x.mag - 1)
  else ofMag false (x.mag + 1)

/-- `as u64`: towards zero, and the nearest bound for what does not fit. -/
def toU64 (x : F64) : Nat :=
  if x.isNaN || x.neg then 0
  else if x.isInfinite then 2 ^ 64 - 1
  else min (units x.mag / one) (2 ^ 64 - 1)

/-- A number next to this one: towards zero, or above it. -/
def beside (x : F64) : F64 := if x.mag = 0 then ofMag false 1 else ofMag x.neg (x.mag - 1)

/-! ## Decimal text -/

/-- The digits at the front, and what follows them. -/
def digits (s : List Char) : List Char × List Char :=
  (s.takeWhile Char.isDigit, s.dropWhile Char.isDigit)

def digitsToNat (ds : List Char) : Nat :=
  ds.foldl (fun n c => 10 * n + (c.toNat - 48)) 0

/-- The magnitude nearest to `n * 10 ^ e`. Numbers far outside the range need no
arithmetic. -/
def decimalMag (n : Nat) (e : Int) : Nat :=
  if n = 0 then 0
  else if 400 < e then infMag
  else if e + n.log2 + 1 < -400 then 0
  else if 0 ≤ e then roundMag (n * 10 ^ e.toNat * one) 1
  else roundMag (n * one) (10 ^ (-e).toNat)

/-- An exponent, after its `e`. -/
def parseExponent : List Char → Option Int
  | '-' :: ds => if ds ≠ [] ∧ ds.all Char.isDigit then some (-(digitsToNat ds : Int)) else none
  | '+' :: ds => if ds ≠ [] ∧ ds.all Char.isDigit then some (digitsToNat ds) else none
  | ds => if ds ≠ [] ∧ ds.all Char.isDigit then some (digitsToNat ds) else none

/-- `f64::from_str` after the sign: digits with at most one point among them, at
least one digit, and an optional exponent; or a name. -/
def parseMag (s : List Char) : Option Nat :=
  let name := s.map Char.toLower
  if name = "inf".toList ∨ name = "infinity".toList then some infMag
  else if name = "nan".toList then some nan.mag
  else
    let (whole, rest) := digits s
    let (fraction, rest) := match rest with
      | '.' :: rest => digits rest
      | rest => ([], rest)
    if whole = [] ∧ fraction = [] then none
    else
      let n := digitsToNat (whole ++ fraction)
      let at_ (e : Int) := decimalMag n (e - fraction.length)
      match rest with
      | [] => some (at_ 0)
      | c :: rest => if c = 'e' ∨ c = 'E' then (parseExponent rest).map at_ else none

def parse (s : String) : Option F64 :=
  match s.toList with
  | '-' :: rest => (parseMag rest).map (ofMag true)
  | '+' :: rest => (parseMag rest).map (ofMag false)
  | rest => (parseMag rest).map (ofMag false)

/-- The multiple of `10 ^ e` nearest to a finite magnitude, the larger of two
equally near, and the other one next to the magnitude. -/
def nearestMultiples (mag : Nat) (e : Int) : Nat × Nat :=
  let (n, d) := if 0 ≤ e then (units mag, one * 10 ^ e.toNat)
    else (units mag * 10 ^ (-e).toNat, one)
  if d ≤ 2 * (n % d) then (n / d + 1, n / d) else (n / d, n / d + 1)

/-- The shortest decimal `n * 10 ^ e` that reads back to a finite magnitude: the
largest power of ten with a multiple that does. The first power tried is above
the magnitude, and seventeen digits are always enough. -/
def shortest (mag : Nat) : Nat × Int :=
  let top := ((units mag).log2 - 1074 : Int) * 30103 / 100000 + 1
  let candidates := (List.range 20).flatMap fun i : Nat =>
    let (n, n') := nearestMultiples mag (top - i)
    [(n, top - i), (n', top - i)]
  (candidates.find? fun c => mag ≠ 0 ∧ c.1 ≠ 0 ∧ decimalMag c.1 c.2 = mag).getD (0, 0)

/-- A finite magnitude in positional notation. -/
def displayMag (mag : Nat) : List Char :=
  let (n, e) := shortest mag
  let ds := Nat.toDigits 10 n
  if 0 ≤ e then ds ++ (if n = 0 then [] else List.replicate e.toNat '0')
  else
    let places := (-e).toNat
    let ds := List.replicate (places + 1 - ds.length) '0' ++ ds
    ds.take (ds.length - places) ++ '.' :: ds.drop (ds.length - places)

/-- `format!("{x}")`. -/
def display (x : F64) : String :=
  if x.isNaN then "NaN"
  else
    let text := if x.isInfinite then "inf".toList else displayMag x.mag
    String.ofList (if x.neg then '-' :: text else text)

/-! ## Facts about comparison and zero -/

theorem mag_ofMag {neg : Bool} {m : Nat} (h : m < 2 ^ 63) : (ofMag neg m).mag = m := by
  simp only [mag, ofMag]
  cases neg <;> simp <;> omega

theorem neg_ofMag {neg : Bool} {m : Nat} (h : m < 2 ^ 63) : (ofMag neg m).neg = neg := by
  simp only [F64.neg, ofMag]
  cases neg <;> simp <;> omega

theorem ext_mag {x y : F64} (hNeg : x.neg = y.neg) (hMag : x.mag = y.mag) : x = y := by
  refine totalKey_injective ?_
  rw [totalKey, totalKey, hNeg, hMag]

/-- A zero made positive, as a score is kept. -/
def canonical (x : F64) : F64 := if x.eq zero then zero else x

/-! ## The two orders -/

theorem ne_negZero_iff {x : F64} : x ≠ negZero ↔ (x.neg = true → x.mag ≠ 0) := by
  have hZero : negZero.neg = true ∧ negZero.mag = 0 := by decide
  constructor
  · intro hNe hNeg hMag
    exact hNe (ext_mag (hNeg.trans hZero.1.symm) (hMag.trans hZero.2.symm))
  · rintro h rfl
    exact h hZero.1 hZero.2

/-- Above a number other than the negative zero, the total order is the numeric one. -/
theorem le_iff_numKey {x y : F64} (hY : y ≠ negZero) : x ≤ y ↔ x.numKey ≤ y.numKey := by
  have hMag := ne_negZero_iff.mp hY
  show x.totalKey ≤ y.totalKey ↔ _
  unfold totalKey numKey
  cases hnx : x.neg <;> cases hny : y.neg <;> simp [hny] at hMag ⊢ <;> omega

theorem lt_iff_numKey {x y : F64} (hX : x ≠ negZero) : x < y ↔ x.numKey < y.numKey := by
  rw [← not_le, le_iff_numKey hX, not_le]

theorem isNaN_eq_false {x : F64} : x.isNaN = false ↔ x.mag ≤ infMag := by
  simp [isNaN]

theorem numKey_infinity : infinity.numKey = infMag := by decide

/-- Infinity is the largest number. -/
theorem numKey_le_infinity {x : F64} (h : x.isNaN = false) : x.numKey ≤ infinity.numKey := by
  rw [numKey_infinity]
  have hMag := isNaN_eq_false.mp h
  unfold numKey
  split <;> omega

/-- **The next number is one further**, so nothing lies between the two. -/
theorem numKey_next_up {x : F64} (h : x.isNaN = false) (hTop : x ≠ infinity) :
    x.next_up.numKey = x.numKey + 1 := by
  have hMag := isNaN_eq_false.mp h
  have hBound : infMag + 1 < 2 ^ 63 := by decide
  unfold next_up
  rw [if_neg (by simp [h, hTop])]
  split
  · next hZero =>
    have hOne : (ofMag false 1).numKey = 1 := by decide
    rw [hOne, numKey, hZero]
    simp
  · next hNonzero =>
    unfold numKey
    cases hNeg : x.neg with
    | true =>
      rw [if_pos rfl, neg_ofMag (by omega), mag_ofMag (by omega), if_pos rfl, if_pos rfl]
      omega
    | false =>
      rw [if_neg Bool.false_ne_true, neg_ofMag (by omega), mag_ofMag (by omega), if_neg Bool.false_ne_true,
        if_neg Bool.false_ne_true]
      omega

/-- Both zeros are one number. -/
theorem numKey_canonical (x : F64) : x.canonical.numKey = x.numKey := by
  have hZero : zero.numKey = 0 := by decide
  unfold canonical
  split
  · next hEq =>
    simp only [eq, Bool.and_eq_true, beq_iff_eq] at hEq
    rw [hEq.2]
  · rfl

/-- The number beside a finite one is finite, and one step away. -/
theorem beside_finite {x : F64} (h : x.isFinite = true) :
    x.beside.isFinite = true ∧ (x.beside.numKey - x.numKey).natAbs = 1 := by
  have hBound : infMag < 2 ^ 63 := by decide
  rw [isFinite, decide_eq_true_eq] at h
  unfold beside
  split
  · next hZero =>
    have hOne : (ofMag false 1).isFinite = true ∧ (ofMag false 1).numKey = 1 := by decide
    refine ⟨hOne.1, ?_⟩
    rw [hOne.2, numKey, hZero]
    simp
  · next hNonzero =>
    have hMag : (ofMag x.neg (x.mag - 1)).mag = x.mag - 1 := mag_ofMag (by omega)
    have hNeg : (ofMag x.neg (x.mag - 1)).neg = x.neg := neg_ofMag (by omega)
    refine ⟨?_, ?_⟩
    · rw [isFinite, decide_eq_true_eq]
      omega
    · rw [numKey, numKey, hNeg, hMag]
      split <;> omega

theorem isNaN_canonical {x : F64} (h : x.isNaN = false) : x.canonical.isNaN = false := by
  unfold canonical
  split
  · decide
  · exact h

theorem canonical_ne_negZero (x : F64) : x.canonical ≠ negZero := by
  unfold canonical
  split
  · decide
  · next hNot =>
    rintro rfl
    exact hNot (by decide)

example : ((parse "0.1").bind fun x => (parse "0.2").map (add x)).map display
    = some "0.30000000000000004" := by decide +kernel

end F64

end Lib
