import Mathlib

/-!
# Sets of numbers as words of bits

A set of small numbers is a list of 64-bit words, number `i` being bit `i % 64` of
word `i / 64`. Moving every number up by one shifts each word, with a bit carried
from each to the next.

* `bit_set_bit` — reading after adding a number;
* `bit_zipWith` — operations that work on each number alone;
* `bit_shift` — moving every number up by one.
-/

namespace Lib.Words

abbrev Word := BitVec 64

/-- Whether `i` is in the set. -/
def bit (ws : List Word) (i : Nat) : Bool := (ws[i / 64]?.getD 0#64).getLsbD (i % 64)

/-- Adds `i` to the set. -/
def set_bit (ws : List Word) (i : Nat) : List Word :=
  ws.modify (i / 64) fun w => w ||| 1#64 <<< (i % 64)

/-- Moves every number up by one; `carry` comes in at the bottom. -/
def shift : Word → List Word → List Word
  | _, [] => []
  | carry, w :: ws => (w <<< 1 ||| carry) :: shift (w >>> 63) ws

theorem bit_cons (w : Word) (ws : List Word) (i : Nat) :
    bit (w :: ws) i = if i < 64 then w.getLsbD i else bit ws (i - 64) := by
  unfold bit
  split
  · next hLow => simp [Nat.div_eq_of_lt hLow, Nat.mod_eq_of_lt hLow]
  · next hHigh =>
    have hDiv : i / 64 = (i - 64) / 64 + 1 := by omega
    have hMod : i % 64 = (i - 64) % 64 := by omega
    rw [hDiv, hMod, List.getElem?_cons_succ]

@[simp]
theorem bit_replicate (n i : Nat) : bit (List.replicate n 0#64) i = false := by
  unfold bit
  rw [List.getElem?_replicate]
  split <;> simp

@[simp]
theorem length_set_bit (ws : List Word) (i : Nat) : (set_bit ws i).length = ws.length := by
  simp [set_bit]

@[simp]
theorem length_shift (carry : Word) (ws : List Word) : (shift carry ws).length = ws.length := by
  induction ws generalizing carry with
  | nil => rfl
  | cons w ws ih => simp [shift, ih]

theorem bit_set_bit {ws : List Word} {i : Nat} (hIn : i < 64 * ws.length) (j : Nat) :
    bit (set_bit ws i) j = (bit ws j || i == j) := by
  unfold bit set_bit
  rw [List.getElem?_modify]
  by_cases hWord : i / 64 = j / 64
  · have hGet : ws[j / 64]? = some ws[j / 64] := List.getElem?_eq_getElem (by omega)
    simp only [hGet, hWord, if_true, Option.map_eq_map, Option.map_some, Option.getD_some,
      BitVec.getLsbD_or]
    have hOne : (1#64 <<< (i % 64)).getLsbD (j % 64) = (i == j) := by
      rw [BitVec.getLsbD_shiftLeft, BitVec.getLsbD_one]
      have hLt : j % 64 < 64 := Nat.mod_lt _ (by omega)
      by_cases hEq : i = j
      · subst hEq
        simp [hLt]
      · have hNe : (i == j) = false := by simpa using hEq
        rw [hNe]
        simp
        omega
    rw [hOne]
  · simp only [hWord, if_false, Option.map_eq_map]
    have hNe : (i == j) = false := by
      simp only [beq_eq_false_iff_ne]
      rintro rfl
      exact hWord rfl
    simp [hNe]

/-- Operations on each bit alone. -/
theorem bit_zipWith (f : Word → Word → Word) (g : Bool → Bool → Bool)
    (hBits : ∀ v w j, j < 64 → (f v w).getLsbD j = g (v.getLsbD j) (w.getLsbD j))
    {vs ws : List Word} (hLength : vs.length = ws.length) {i : Nat} (hIn : i < 64 * vs.length) :
    bit (List.zipWith f vs ws) i = g (bit vs i) (bit ws i) := by
  unfold bit
  have hWord : i / 64 < vs.length := by omega
  rw [List.getElem?_zipWith, List.getElem?_eq_getElem hWord,
    List.getElem?_eq_getElem (hLength ▸ hWord)]
  exact hBits _ _ _ (Nat.mod_lt _ (by omega))

/-- What is moved up from below a word. -/
def incoming (carry : Word) (ws : List Word) (i : Nat) : Bool :=
  if i = 0 then carry.getLsbD 0 else bit ws (i - 1)

/-- **Every number moves up by one.** -/
theorem bit_shift {carry : Word} (hCarry : ∀ j, 0 < j → carry.getLsbD j = false) (ws : List Word)
    {i : Nat} (hIn : i < 64 * ws.length) : bit (shift carry ws) i = incoming carry ws i := by
  induction ws generalizing carry i with
  | nil => simp at hIn
  | cons w ws ih =>
    unfold shift incoming
    rw [bit_cons]
    by_cases hLow : i < 64
    · rw [if_pos hLow, BitVec.getLsbD_or, BitVec.getLsbD_shiftLeft]
      by_cases hZero : i = 0
      · simp [hZero]
      · rw [if_neg hZero, hCarry i (by omega), bit_cons, if_pos (by omega)]
        have hOne : ¬ i < 1 := by omega
        simp [hLow, hOne]
    · have hHigh : ∀ j, 0 < j → (w >>> 63).getLsbD j = false := by
        intro j hj
        rw [BitVec.getLsbD_ushiftRight]
        exact BitVec.getLsbD_of_ge _ _ (by omega)
      rw [if_neg hLow, ih hHigh (by simp at hIn; omega), if_neg (by omega), bit_cons]
      unfold incoming
      by_cases hNext : i = 64
      · subst hNext
        simp
      · rw [if_neg (by omega), if_neg (by omega), show i - 1 - 64 = i - 64 - 1 by omega]

end Lib.Words
