import Mathlib

/-!
# Entry ids

Ids `<milliseconds>-<sequence>`, ordered lexicographically. A new id is the
clock's, or the next one after the last when the clock has not passed it.

* `lt_of_next_after` — a new id is greater than the last, whatever the clock
  says.
-/

namespace Postino

/-- An entry id. Both halves are 64-bit. -/
structure Id where
  ms : Nat
  seq : Nat
  ms_lt : ms < 2 ^ 64 := by decide
  seq_lt : seq < 2 ^ 64 := by decide
  deriving DecidableEq, Repr

namespace Id

/-! ## Machine words -/

instance word_ne_zero : NeZero (2 ^ 64) := ⟨by decide⟩

theorem zero_lt_word : 0 < 2 ^ 64 := by decide

theorem last_lt_word : 2 ^ 64 - 1 < 2 ^ 64 := by decide

/-- The id of two numbers, if they are machine words. -/
def of_words (ms seq : Nat) : Option Id :=
  if h : ms < 2 ^ 64 ∧ seq < 2 ^ 64 then some { ms, seq, ms_lt := h.1, seq_lt := h.2 } else none

theorem of_words_parts (id : Id) : of_words id.ms id.seq = some id := dif_pos ⟨id.ms_lt, id.seq_lt⟩

/-! ## Order -/

/-- The order of ids: by milliseconds, then by sequence. -/
def key (id : Id) : Nat ×ₗ Nat := toLex (id.ms, id.seq)

theorem key_injective : Function.Injective key := by
  rintro ⟨ms, seq, _, _⟩ ⟨ms', seq', _, _⟩ h
  obtain ⟨rfl, rfl⟩ : ms = ms' ∧ seq = seq' := by simpa [key] using h
  rfl

instance : LinearOrder Id := LinearOrder.lift' key key_injective

theorem lt_iff (a b : Id) : a < b ↔ a.ms < b.ms ∨ (a.ms = b.ms ∧ a.seq < b.seq) :=
  Prod.Lex.toLex_lt_toLex

theorem le_iff (a b : Id) : a ≤ b ↔ a.ms < b.ms ∨ (a.ms = b.ms ∧ a.seq ≤ b.seq) :=
  Prod.Lex.toLex_le_toLex

/-- `0-0`, the default. -/
def zero : Id := { ms := 0, seq := 0 }

def MAX : Id := { ms := 2 ^ 64 - 1, seq := 2 ^ 64 - 1 }

/-- The smallest id greater than `id`; the largest id has none. -/
def after (id : Id) : Option Id :=
  if h : id.seq + 1 < 2 ^ 64 then some { id with seq := id.seq + 1, seq_lt := h }
  else if h : id.ms + 1 < 2 ^ 64 then
    some { ms := id.ms + 1, seq := 0, ms_lt := h }
  else none

/-- The id for a new entry: the clock, or the next id after `last` when the
clock has not passed it. -/
def next_after (last : Id) (now_ms : Fin (2 ^ 64)) : Option Id :=
  if last.ms < now_ms then some { ms := now_ms, seq := 0, ms_lt := now_ms.isLt }
  else after last

/-- `str::parse::<u64>`: decimal digits, after a plus sign if any. -/
def parse_u64 (s : List Char) : Option Nat :=
  let digits := match s with
    | '+' :: rest => rest
    | s => s
  if digits = [] || !digits.all Char.isDigit then none
  else
    let n := Nat.ofDigitChars 10 digits 0
    if n < 2 ^ 64 then some n else none

/-- An id as it is written; without a sequence, that is 0. -/
def parse (s : String) : Option Id :=
  let ms := s.toList.takeWhile (· ≠ '-')
  let seq := match s.toList.drop ms.length with
    | [] => ['0']
    | _ :: seq => seq
  match parse_u64 ms, parse_u64 seq with
  | some ms, some seq => of_words ms seq
  | _, _ => none

def display (id : Id) : String := s!"{id.ms}-{id.seq}"

theorem zero_le (id : Id) : zero ≤ id := by
  rw [le_iff]
  simp only [zero]
  omega

theorem le_MAX (id : Id) : id ≤ MAX := by
  have hMs := id.ms_lt
  have hSeq := id.seq_lt
  rw [le_iff]
  simp only [MAX]
  omega

theorem lt_of_after {id next : Id} (h : after id = some next) : id < next := by
  unfold after at h
  rw [lt_iff]
  split at h
  · cases h
    exact .inr ⟨rfl, Nat.lt_succ_self _⟩
  · split at h
    · cases h
      exact .inl (Nat.lt_succ_self _)
    · cases h

/-- A new id is greater than every one before it. -/
theorem lt_of_next_after {last next : Id} {now_ms : Fin (2 ^ 64)}
    (h : next_after last now_ms = some next) : last < next := by
  unfold next_after at h
  split at h
  · next hNow =>
    cases h
    exact (lt_iff _ _).mpr (.inl hNow)
  · exact lt_of_after h

/-- While sequences have room, there is a next id, and it takes one of them. -/
theorem next_after_of_room {last : Id} (now_ms : Fin (2 ^ 64)) (h : last.seq + 1 < 2 ^ 64) :
    ∃ next, next_after last now_ms = some next ∧ next.seq ≤ last.seq + 1 := by
  unfold next_after
  split
  · exact ⟨_, rfl, Nat.zero_le _⟩
  · exact ⟨{ last with seq := last.seq + 1, seq_lt := h }, by rw [after, dif_pos h], le_rfl⟩

/-- Only the largest id has none after it. -/
theorem after_eq_none_iff (id : Id) : after id = none ↔ id = MAX := by
  obtain ⟨ms, seq, hMs, hSeq⟩ := id
  simp only [after, MAX, mk.injEq]
  constructor
  · intro h
    split at h
    · cases h
    · split at h
      · cases h
      · omega
  · rintro ⟨rfl, rfl⟩
    simp

/-! ## Read back -/

theorem toList_display (id : Id) : id.display.toList = Nat.toDigits 10 id.ms ++ '-' :: Nat.toDigits 10 id.seq := by
  have hRepr (n : Nat) : (toString n).toList = Nat.toDigits 10 n := Nat.toList_repr
  unfold display
  simp only [String.toList_append, hRepr, List.append_assoc]
  rfl

/-- A digit is none of the signs ids are written with. -/
theorem ne_of_digit {c sign : Char} {n : Nat} (h : c ∈ Nat.toDigits 10 n) (hSign : sign.isDigit = false) :
    c ≠ sign := by
  rintro rfl
  rw [Nat.isDigit_of_mem_toDigits (by decide) (by decide) h] at hSign
  cases hSign

theorem parse_u64_digits {n : Nat} (h : n < 2 ^ 64) : parse_u64 (Nat.toDigits 10 n) = some n := by
  have hDigits : ∀ c ∈ Nat.toDigits 10 n, c.isDigit = true := fun c hMem =>
    Nat.isDigit_of_mem_toDigits (by decide) (by decide) hMem
  have hPlain : (match Nat.toDigits 10 n with
      | '+' :: rest => rest
      | s => s) = Nat.toDigits 10 n := by
    split
    · next rest hEq => exact absurd rfl (ne_of_digit (hEq ▸ List.mem_cons_self : '+' ∈ _) (by decide))
    · rfl
  unfold parse_u64
  simp only [hPlain, Nat.ofDigitChars_toDigits (by decide : 1 < 10) (by decide : 10 ≤ 10)]
  rw [if_neg, if_pos h]
  simp only [Bool.or_eq_true, decide_eq_true_eq, Bool.not_eq_true', not_or, Bool.not_eq_false]
  exact ⟨Nat.toDigits_ne_nil, List.all_eq_true.mpr hDigits⟩

theorem takeWhile_display (id : Id) : id.display.toList.takeWhile (· ≠ '-') = Nat.toDigits 10 id.ms := by
  rw [toList_display, List.takeWhile_append_of_pos]
  · simp
  · exact fun c hMem => by simpa using ne_of_digit hMem (by decide)

/-- An id is read back as it was written. -/
theorem parse_display (id : Id) : parse id.display = some id := by
  have hDrop : id.display.toList.drop (Nat.toDigits 10 id.ms).length = '-' :: Nat.toDigits 10 id.seq := by
    rw [toList_display, List.drop_left']
    rfl
  simp only [parse, takeWhile_display, hDrop, parse_u64_digits id.ms_lt, parse_u64_digits id.seq_lt]
  exact of_words_parts id

theorem display_injective : Function.Injective display := fun a b h => by
  have hParse := congrArg parse h
  rw [parse_display, parse_display] at hParse
  exact Option.some.inj hParse

end Id

end Postino
