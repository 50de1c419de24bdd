import Mathlib

/-!
# Cyclic redundancy checks

The remainder of a division of polynomials over GF(2), in a register of `w` bits that takes
bytes low bit first. A tick moves the register down by one bit, and adds the polynomial
when a bit falls out; a byte is added to the low end and followed by eight ticks.

* `tick_xor` — a tick is linear;
* `tick_injective` — and loses nothing, when the polynomial has its top bit;
* `feed_table` — eight ticks by a table of the low byte;
* `feeds_word` — bytes that fit in the register may be added all at once;
* `feeds_ne` — bytes that differ only within the width of the register leave different
  remainders.
-/

namespace Lib.Crc

variable {w : Nat} (p : BitVec w)

/-! ## One bit -/

def tick (x : BitVec w) : BitVec w := if x.getLsbD 0 then (x >>> 1) ^^^ p else x >>> 1

theorem tick_even {x : BitVec w} (h : x.getLsbD 0 = false) : tick p x = x >>> 1 := by
  unfold tick
  rw [h]
  rfl

theorem tick_xor (x y : BitVec w) : tick p (x ^^^ y) = tick p x ^^^ tick p y := by
  unfold tick
  rw [BitVec.getLsbD_xor, BitVec.ushiftRight_xor_distrib]
  cases x.getLsbD 0 <;> cases y.getLsbD 0
  · rfl
  · exact BitVec.xor_assoc _ _ _
  · show x >>> 1 ^^^ y >>> 1 ^^^ p = x >>> 1 ^^^ p ^^^ y >>> 1
    rw [BitVec.xor_assoc, BitVec.xor_comm (y >>> 1), ← BitVec.xor_assoc]
  · show x >>> 1 ^^^ y >>> 1 = x >>> 1 ^^^ p ^^^ (y >>> 1 ^^^ p)
    rw [BitVec.xor_assoc, BitVec.xor_comm p, BitVec.xor_assoc (y >>> 1), BitVec.xor_self, BitVec.xor_zero]

/-- What ticks to nothing is nothing: the top bit says whether a bit fell out. -/
theorem tick_eq_zero (hTop : p.msb = true) {x : BitVec w} (h : tick p x = 0#w) : x = 0#w := by
  have hWidth : 0 < w := by
    rcases Nat.eq_zero_or_pos w with rfl | hWidth
    · simp [BitVec.msb] at hTop
    · exact hWidth
  have hLast : p.getLsbD (w - 1) = true := by rwa [← BitVec.msb_eq_getLsbD_last]
  have hEven : x.getLsbD 0 = false := by
    cases hBit : x.getLsbD 0 with
    | false => rfl
    | true =>
      have hBits := congrArg (fun y : BitVec w => y.getLsbD (w - 1)) h
      unfold tick at hBits
      rw [hBit] at hBits
      have hOut : x.getLsbD (1 + (w - 1)) = false := BitVec.getLsbD_of_ge x _ (by omega)
      simp only [if_true, BitVec.getLsbD_xor, BitVec.getLsbD_ushiftRight, hLast, BitVec.getLsbD_zero, hOut,
        Bool.false_xor] at hBits
      exact absurd hBits (by decide)
  rw [tick_even p hEven] at h
  refine BitVec.eq_of_getLsbD_eq fun i hi => ?_
  cases i with
  | zero => rw [hEven, BitVec.getLsbD_zero]
  | succ i =>
    have hBits := congrArg (fun y : BitVec w => y.getLsbD i) h
    simp only [BitVec.getLsbD_ushiftRight, BitVec.getLsbD_zero] at hBits
    rw [Nat.add_comm, hBits, BitVec.getLsbD_zero]

theorem tick_injective (hTop : p.msb = true) : Function.Injective (tick p) := by
  intro x y h
  have hZero : tick p (x ^^^ y) = 0#w := by rw [tick_xor, h, BitVec.xor_self]
  have hEq := tick_eq_zero p hTop hZero
  rwa [BitVec.xor_eq_zero_iff] at hEq

/-! ## Several bits -/

theorem ticks_xor (n : Nat) (x y : BitVec w) : (tick p)^[n] (x ^^^ y) = (tick p)^[n] x ^^^ (tick p)^[n] y := by
  induction n generalizing x y with
  | zero => rfl
  | succ n ih => rw [Function.iterate_succ_apply, tick_xor, ih, ← Function.iterate_succ_apply,
      ← Function.iterate_succ_apply]

/-- While the bits that fall out are clear, the register only moves down. -/
theorem ticks_clear {n : Nat} {x : BitVec w} (h : ∀ i < n, x.getLsbD i = false) : (tick p)^[n] x = x >>> n := by
  induction n with
  | zero => rw [Function.iterate_zero_apply, BitVec.ushiftRight_zero]
  | succ n ih =>
    rw [Function.iterate_succ_apply', ih fun i hi => h i (by omega)]
    have hLow : (x >>> n).getLsbD 0 = false := by
      rw [BitVec.getLsbD_ushiftRight]
      exact h n (by omega)
    rw [tick_even p hLow, BitVec.shiftRight_add]

/-! ## Bytes -/

/-- The byte, at the low end of the register. -/
def low (byte : UInt8) : BitVec w := byte.toBitVec.setWidth w

def feed (x : BitVec w) (byte : UInt8) : BitVec w := (tick p)^[8] (x ^^^ low byte)

def feeds (x : BitVec w) (bytes : List UInt8) : BitVec w := bytes.foldl (feed p) x

theorem feed_injective (hTop : p.msb = true) (byte : UInt8) : Function.Injective (feed p · byte) := by
  intro x y h
  exact (BitVec.xor_left_inj _).mp ((tick_injective p hTop).iterate 8 h)

theorem feeds_injective (hTop : p.msb = true) (bytes : List UInt8) : Function.Injective (feeds p · bytes) := by
  induction bytes with
  | nil => exact fun _ _ h => h
  | cons byte bytes ih => exact fun _ _ h => feed_injective p hTop byte (ih h)

theorem feeds_append (x : BitVec w) (a b : List UInt8) : feeds p x (a ++ b) = feeds p (feeds p x a) b :=
  List.foldl_append

theorem getLsbD_255 (i : Nat) : (BitVec.ofNat w 255).getLsbD i = (decide (i < w) && decide (i < 8)) := by
  rw [BitVec.getLsbD_ofNat, show 255 = 2 ^ 8 - 1 by rfl, Nat.testBit_two_pow_sub_one]

/-- The low byte and the rest. -/
theorem split_low (x : BitVec w) : x = (x &&& BitVec.ofNat w 255) ^^^ (x &&& ~~~BitVec.ofNat w 255) := by
  refine BitVec.eq_of_getLsbD_eq fun i hi => ?_
  rw [BitVec.getLsbD_xor, BitVec.getLsbD_and, BitVec.getLsbD_and, BitVec.getLsbD_not, decide_eq_true hi, Bool.true_and]
  cases x.getLsbD i <;> cases (BitVec.ofNat w 255).getLsbD i <;> rfl

/-- **A byte at a time from a table** of what eight ticks make of the low byte. -/
theorem feed_table (x : BitVec w) (byte : UInt8) :
    feed p x byte = (tick p)^[8] ((x ^^^ low byte) &&& BitVec.ofNat w 255) ^^^ ((x ^^^ low byte) >>> 8) := by
  unfold feed
  generalize x ^^^ low byte = y
  have hClear : ∀ i < 8, (y &&& ~~~BitVec.ofNat w 255).getLsbD i = false := by
    intro i hi
    rw [BitVec.getLsbD_and, BitVec.getLsbD_not, getLsbD_255, decide_eq_true hi]
    cases decide (i < w) <;> simp
  have hHigh : (y &&& ~~~BitVec.ofNat w 255) >>> 8 = y >>> 8 := by
    refine BitVec.eq_of_getLsbD_eq fun i hi => ?_
    rw [BitVec.getLsbD_ushiftRight, BitVec.getLsbD_ushiftRight, BitVec.getLsbD_and, BitVec.getLsbD_not, getLsbD_255,
      decide_eq_false (show ¬8 + i < 8 by omega), Bool.and_false, Bool.not_false, Bool.and_true]
    by_cases hIn : 8 + i < w
    · rw [decide_eq_true hIn, Bool.and_true]
    · rw [BitVec.getLsbD_of_ge y _ (by omega), Bool.false_and]
  conv => lhs; rw [split_low y]
  rw [ticks_xor, ticks_clear p hClear, hHigh]

/-! ## Bytes all at once -/

/-- Bytes as one word, the first lowest. -/
def word : List UInt8 → BitVec w
  | [] => 0#w
  | byte :: bytes => low byte ^^^ word bytes <<< 8

theorem low_high (byte : UInt8) {i : Nat} (h : 8 ≤ i) : (low byte : BitVec w).getLsbD i = false := by
  unfold low
  rw [BitVec.getLsbD_setWidth, BitVec.getLsbD_of_ge _ _ h, Bool.and_false]

theorem word_high (bytes : List UInt8) {i : Nat} (h : 8 * bytes.length ≤ i) : (word bytes : BitVec w).getLsbD i = false := by
  induction bytes generalizing i with
  | nil => exact BitVec.getLsbD_zero
  | cons byte bytes ih =>
    rw [List.length_cons] at h
    unfold word
    rw [BitVec.getLsbD_xor, low_high byte (by omega), BitVec.getLsbD_shiftLeft, ih (by omega), Bool.and_false,
      Bool.xor_false]

/-- What is moved up stays whole, where there is room. -/
theorem shift_word {bytes : List UInt8} (h : 8 * (bytes.length + 1) ≤ w) :
    (word bytes <<< 8 : BitVec w) >>> 8 = word bytes := by
  refine BitVec.eq_of_getLsbD_eq fun i hi => ?_
  rw [BitVec.getLsbD_ushiftRight, BitVec.getLsbD_shiftLeft, Nat.add_sub_cancel_left]
  by_cases hIn : 8 + i < w
  · rw [decide_eq_true hIn, decide_eq_false (show ¬8 + i < 8 by omega), Bool.not_false, Bool.and_true, Bool.true_and]
  · rw [word_high bytes (by omega), Bool.and_false]

theorem shift_clear (x : BitVec w) : ∀ i < 8, (x <<< 8).getLsbD i = false := by
  intro i hi
  rw [BitVec.getLsbD_shiftLeft, decide_eq_true hi, Bool.not_true, Bool.and_false, Bool.false_and]

/-- **Bytes that fit in the register may be added all at once.** -/
theorem feeds_word {bytes : List UInt8} (h : 8 * bytes.length ≤ w) (x : BitVec w) :
    feeds p x bytes = (tick p)^[8 * bytes.length] (x ^^^ word bytes) := by
  induction bytes generalizing x with
  | nil => exact (BitVec.xor_zero).symm
  | cons byte bytes ih =>
    rw [List.length_cons] at h ⊢
    have hLater : (tick p)^[8] (word bytes <<< 8) = word bytes := by
      rw [ticks_clear p (shift_clear _), shift_word h]
    calc feeds p x (byte :: bytes)
        = (tick p)^[8 * bytes.length] (feed p x byte ^^^ word bytes) := ih (by omega) _
      _ = (tick p)^[8 * bytes.length] ((tick p)^[8] ((x ^^^ low byte) ^^^ word bytes <<< 8)) := by
          rw [ticks_xor p 8, hLater]
          rfl
      _ = (tick p)^[8 * (bytes.length + 1)] (x ^^^ word (byte :: bytes)) := by
          rw [← Function.iterate_add_apply, BitVec.xor_assoc]
          rfl

theorem word_injective {a b : List UInt8} (hLength : a.length = b.length) (hFits : 8 * a.length ≤ w)
    (h : (word a : BitVec w) = word b) : a = b := by
  induction a generalizing b with
  | nil => exact (List.length_eq_zero_iff.mp hLength.symm).symm
  | cons x a ih =>
    obtain ⟨y, b, rfl⟩ := List.exists_cons_of_length_eq_add_one hLength.symm
    rw [List.length_cons] at hFits
    have hLength' : a.length = b.length := Nat.succ.inj hLength
    unfold word at h
    have hBits : ∀ i, ((low x : BitVec w).getLsbD i ^^ (word a <<< 8 : BitVec w).getLsbD i) =
        ((low y : BitVec w).getLsbD i ^^ (word b <<< 8 : BitVec w).getLsbD i) := fun i => by
      rw [← BitVec.getLsbD_xor, ← BitVec.getLsbD_xor, h]
    have hByte : x = y := by
      refine UInt8.toBitVec_inj.mp (BitVec.eq_of_getLsbD_eq fun i hi => ?_)
      have hBit := hBits i
      rw [shift_clear _ i hi, shift_clear _ i hi, Bool.xor_false, Bool.xor_false] at hBit
      unfold low at hBit
      rwa [BitVec.getLsbD_setWidth, BitVec.getLsbD_setWidth, decide_eq_true (show i < w by omega), Bool.true_and,
        Bool.true_and] at hBit
    subst hByte
    have hRest : (word a <<< 8 : BitVec w) = word b <<< 8 := (BitVec.xor_right_inj _).mp h
    rw [ih hLength' (by omega) (by
      rw [← @shift_word w a (by omega), ← @shift_word w b (by omega), hRest])]

/-- **Bytes that differ only within the width of the register** leave different remainders. -/
theorem feeds_ne (hTop : p.msb = true) {start a b rest : List UInt8} (hLength : a.length = b.length)
    (hFits : 8 * a.length ≤ w) (hNe : a ≠ b) (x : BitVec w) :
    feeds p x (start ++ (a ++ rest)) ≠ feeds p x (start ++ (b ++ rest)) := by
  intro h
  simp only [feeds_append] at h
  have hWords : feeds p (feeds p x start) a = feeds p (feeds p x start) b := feeds_injective p hTop rest h
  generalize feeds p x start = y at hWords
  have hFits' : 8 * b.length ≤ w := by rwa [← hLength]
  rw [feeds_word p hFits, feeds_word p hFits', ← hLength] at hWords
  have hWord := (tick_injective p hTop).iterate _ hWords
  exact hNe (word_injective hLength hFits ((BitVec.xor_right_inj _).mp hWord))

end Lib.Crc
