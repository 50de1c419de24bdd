import Postino.Lib.BTree

/-!
# JSON text

JSON values over any kind of number, their compact text, and a reader of such texts. How
numbers are written and read is a parameter; how deep a text may nest is an argument of the
reader.

* `read_chars_escape` — a string is read as it was written;
* `read_write` — a value is read as it was written, where each of its numbers is, and refused
  exactly where it nests too deep.
-/

namespace Lib

namespace BTreeMap

variable {K V W : Type} [LinearOrder K]

/-- A map made of a sorted list lists it. -/
theorem toList_ofList {l : List (K × V)} (h : l.Pairwise fun e e' => e.1 < e'.1) :
    (Std.ExtTreeMap.ofList l compare : BTreeMap K V).toList = l := by
  refine toList_eq_of_sorted h fun k v => ⟨fun hMem => ?_, mem_of_ofList⟩
  refine Std.ExtTreeMap.getElem?_ofList_of_mem (k := k) (by simp) ?_ hMem
  refine h.imp fun hLt hEq => ?_
  exact absurd (compare_eq_iff_eq.mp hEq) (ne_of_lt hLt)

/-- The values of a map made of a list can be changed before or after. -/
theorem toList_ofList_map (f : V → W) (l : List (K × V)) :
    (Std.ExtTreeMap.ofList (l.map fun e => (e.1, f e.2)) compare : BTreeMap K W).toList =
      (Std.ExtTreeMap.ofList l compare : BTreeMap K V).toList.map fun e => (e.1, f e.2) := by
  have hGet (k : K) : (Std.ExtTreeMap.ofList (l.map fun e => (e.1, f e.2)) compare : BTreeMap K W)[k]? =
      (Std.ExtTreeMap.ofList l compare : BTreeMap K V)[k]?.map f := by
    simp only [Std.ExtTreeMap.ofList_eq_foldl]
    induction l using List.reverseRecOn with
    | nil => simp
    | append_singleton l e ih =>
      simp only [List.map_append, List.map_cons, List.map_nil, List.foldl_append, List.foldl_cons,
        List.foldl_nil, get_insert, ih]
      split <;> rfl
  refine toList_eq_of_sorted ?_ fun k w => ?_
  · exact List.pairwise_map.mpr (sorted_toList _)
  · rw [hGet, List.mem_map, Option.map_eq_some_iff]
    constructor
    · rintro ⟨⟨k', v⟩, hMem, hEq⟩
      cases hEq
      exact ⟨v, (mem_toList _ _ _).mp hMem, rfl⟩
    · rintro ⟨v, hV, rfl⟩
      exact ⟨(k, v), (mem_toList _ _ _).mpr hV, rfl⟩

end BTreeMap

inductive JsonTree (N : Type) where
  | null
  | bool (b : Bool)
  | number (n : N)
  | string (s : String)
  | array (items : List (JsonTree N))
  | object (fields : List (String × JsonTree N))

/-- How numbers are written, and read from the front of a text. -/
structure Numerals (N : Type) where
  write : N → List Char
  read : List Char → Option (N × List Char)

namespace JsonTree

variable {N : Type}

/-- An object of these fields: sorted by name, and of two with one name the later counts. -/
def of_fields (fields : List (String × JsonTree N)) : JsonTree N :=
  .object (Std.ExtTreeMap.ofList fields compare : BTreeMap String (JsonTree N)).toList

/-! ## Writing -/

def hex_digit (d : Nat) : Char := Char.ofNat (if d < 10 then 48 + d else 87 + d)

/-- A character as it stands in a string. -/
def escape (c : Char) : List Char :=
  if c = '"' then ['\\', '"']
  else if c = '\\' then ['\\', '\\']
  else if c = '\n' then ['\\', 'n']
  else if c = '\r' then ['\\', 'r']
  else if c = '\t' then ['\\', 't']
  else if c.toNat = 8 then ['\\', 'b']
  else if c.toNat = 12 then ['\\', 'f']
  else if c.toNat < 32 then ['\\', 'u', '0', '0', hex_digit (c.toNat / 16), hex_digit (c.toNat % 16)]
  else [c]

def quoted (s : String) : List Char := '"' :: (s.toList.flatMap escape ++ ['"'])

/-- The parts with a comma between any two. -/
def listed : List (List Char) → List Char
  | [] => []
  | [part] => part
  | part :: part' :: parts => part ++ ',' :: listed (part' :: parts)

def bracketed (parts : List (List Char)) : List Char := '[' :: (listed parts ++ [']'])

def member (name : String) (value : List Char) : List Char := quoted name ++ ':' :: value

def braced (members : List (List Char)) : List Char := '\x7b' :: (listed members ++ ['\x7d'])

mutual
def write (numerals : Numerals N) : JsonTree N → List Char
  | null => ['n', 'u', 'l', 'l']
  | bool true => ['t', 'r', 'u', 'e']
  | bool false => ['f', 'a', 'l', 's', 'e']
  | number n => numerals.write n
  | string s => quoted s
  | array items => bracketed (write_items numerals items)
  | object fields => braced (write_fields numerals fields)
def write_items (numerals : Numerals N) : List (JsonTree N) → List (List Char)
  | [] => []
  | item :: items => item.write numerals :: write_items numerals items
def write_fields (numerals : Numerals N) : List (String × JsonTree N) → List (List Char)
  | [] => []
  | (name, value) :: fields => member name (value.write numerals) :: write_fields numerals fields
end

theorem write_fields_eq (numerals : Numerals N) (fields : List (String × JsonTree N)) :
    write_fields numerals fields = fields.map fun e => member e.1 (e.2.write numerals) := by
  induction fields with
  | nil => rfl
  | cons field fields ih => rw [write_fields, ih, List.map_cons]

/-! ## Reading -/

def is_white (c : Char) : Bool := c = ' ' || c = '\n' || c = '\t' || c = '\r'

def skip_white (text : List Char) : List Char := text.dropWhile is_white

/-- What follows `word` at the front of a text. -/
def after (word text : List Char) : Option (List Char) :=
  if word <+: text then some (text.drop word.length) else none

def hex_value (c : Char) : Option Nat :=
  if '0' ≤ c ∧ c ≤ '9' then some (c.toNat - 48)
  else if 'a' ≤ c ∧ c ≤ 'f' then some (c.toNat - 87)
  else if 'A' ≤ c ∧ c ≤ 'F' then some (c.toNat - 55)
  else none

def read_hex4 : List Char → Option (Nat × List Char)
  | a :: b :: c :: d :: rest => do
    let a ← hex_value a
    let b ← hex_value b
    let c ← hex_value c
    let d ← hex_value d
    some (((a * 16 + b) * 16 + c) * 16 + d, rest)
  | _ => none

/-- The character written as `\u` and these digits. One past the sixteen-bit range is two such,
a high and a low half. -/
def read_unicode (text : List Char) : Option (Char × List Char) := do
  let (high, rest) ← read_hex4 text
  if 0xDC00 ≤ high ∧ high < 0xE000 then none
  else if 0xD800 ≤ high ∧ high < 0xDC00 then do
    let rest ← after ['\\', 'u'] rest
    let (low, rest) ← read_hex4 rest
    if 0xDC00 ≤ low ∧ low < 0xE000 then
      some (Char.ofNat (0x10000 + (high - 0xD800) * 0x400 + (low - 0xDC00)), rest)
    else none
  else some (Char.ofNat high, rest)

/-- The character a backslash and what follows it stand for. -/
def unescape : List Char → Option (Char × List Char)
  | '"' :: rest => some ('"', rest)
  | '\\' :: rest => some ('\\', rest)
  | '/' :: rest => some ('/', rest)
  | 'b' :: rest => some (Char.ofNat 8, rest)
  | 'f' :: rest => some (Char.ofNat 12, rest)
  | 'n' :: rest => some ('\n', rest)
  | 'r' :: rest => some ('\r', rest)
  | 't' :: rest => some ('\t', rest)
  | 'u' :: rest => read_unicode rest
  | _ => none

/-- The characters before the closing quote, and what follows it. -/
def read_chars : Nat → List Char → Option (List Char × List Char)
  | 0, _ => none
  | _ + 1, [] => none
  | fuel + 1, c :: rest =>
    if c = '"' then some ([], rest)
    else if c = '\\' then do
      let (c, rest) ← unescape rest
      let (cs, rest) ← read_chars fuel rest
      some (c :: cs, rest)
    else if c.toNat < 32 then none
    else do
      let (cs, rest) ← read_chars fuel rest
      some (c :: cs, rest)

/-- The rest of a string whose opening quote has been read. -/
def read_string (text : List Char) : Option (String × List Char) := do
  let (cs, rest) ← read_chars (text.length + 1) text
  some (String.ofList cs, rest)

/-- What is left of a limit on nesting, one level further in. -/
def deeper : Option Nat → Option (Option Nat)
  | none => some none
  | some 0 => none
  | some (limit + 1) => some (some limit)

mutual
/-- The value at the front of a text, and what follows it. It may nest `limit` deep. -/
def read (numerals : Numerals N) : Nat → Option Nat → List Char → Option (JsonTree N × List Char)
  | 0, _, _ => none
  | fuel + 1, limit, text =>
    match skip_white text with
    | 'n' :: rest => (after ['u', 'l', 'l'] rest).map fun rest => (null, rest)
    | 't' :: rest => (after ['r', 'u', 'e'] rest).map fun rest => (bool true, rest)
    | 'f' :: rest => (after ['a', 'l', 's', 'e'] rest).map fun rest => (bool false, rest)
    | '"' :: rest => (read_string rest).map fun (s, rest) => (string s, rest)
    | '[' :: rest =>
      match deeper limit with
      | none => none
      | some limit =>
        match skip_white rest with
        | ']' :: rest => some (array [], rest)
        | rest => (read_items numerals fuel limit rest).map fun (items, rest) => (array items, rest)
    | '\x7b' :: rest =>
      match deeper limit with
      | none => none
      | some limit =>
        match skip_white rest with
        | '\x7d' :: rest => some (of_fields [], rest)
        | rest => (read_fields numerals fuel limit rest).map fun (fields, rest) => (of_fields fields, rest)
    | text => (numerals.read text).map fun (n, rest) => (number n, rest)
/-- The items up to the closing bracket, at least one. -/
def read_items (numerals : Numerals N) : Nat → Option Nat → List Char → Option (List (JsonTree N) × List Char)
  | 0, _, _ => none
  | fuel + 1, limit, text => do
    let (item, rest) ← read numerals fuel limit text
    match skip_white rest with
    | ',' :: rest => do
      let (items, rest) ← read_items numerals fuel limit rest
      some (item :: items, rest)
    | ']' :: rest => some ([item], rest)
    | _ => none
/-- The fields up to the closing brace, at least one. -/
def read_fields (numerals : Numerals N) :
    Nat → Option Nat → List Char → Option (List (String × JsonTree N) × List Char)
  | 0, _, _ => none
  | fuel + 1, limit, text => do
    let rest ← after ['"'] (skip_white text)
    let (name, rest) ← read_string rest
    let rest ← after [':'] (skip_white rest)
    let (value, rest) ← read numerals fuel limit rest
    match skip_white rest with
    | ',' :: rest => do
      let (fields, rest) ← read_fields numerals fuel limit rest
      some ((name, value) :: fields, rest)
    | '\x7d' :: rest => some ([(name, value)], rest)
    | _ => none
end

/-- The value a text is, with nothing but white space around it. -/
def from_text (numerals : Numerals N) (limit : Option Nat) (text : List Char) : Option (JsonTree N) := do
  let (value, rest) ← read numerals (2 * text.length + 1) limit text
  if skip_white rest = [] then some value else none

/-! ## Strings -/

theorem hex_value_digit {d : Nat} (h : d < 16) : hex_value (hex_digit d) = some d := by
  have hAll : ∀ d < 16, hex_value (hex_digit d) = some d := by decide
  exact hAll d h

theorem after_append (word rest : List Char) : after word (word ++ rest) = some rest := by
  simp [after]

/-- A control character is read from its four digits. -/
theorem read_control {c : Char} (h : c.toNat < 32) (rest : List Char) :
    read_unicode ('0' :: '0' :: hex_digit (c.toNat / 16) :: hex_digit (c.toNat % 16) :: rest) =
      some (c, rest) := by
  have hHigh := hex_value_digit (d := c.toNat / 16) (by omega)
  have hLow := hex_value_digit (d := c.toNat % 16) (by omega)
  have hZero : hex_value '0' = some 0 := by decide
  have hHex : read_hex4 ('0' :: '0' :: hex_digit (c.toNat / 16) :: hex_digit (c.toNat % 16) :: rest) =
      some (c.toNat, rest) := by
    simp only [read_hex4, hHigh, hLow, hZero, Option.bind_eq_bind, Option.bind_some]
    congr 2
    omega
  simp only [read_unicode, hHex, Option.bind_eq_bind, Option.bind_some]
  rw [if_neg (by omega), if_neg (by omega), Char.ofNat_toNat]

/-- A character is read from its escape. -/
theorem read_chars_cons (fuel : Nat) (c : Char) (rest : List Char) :
    read_chars (fuel + 1) (escape c ++ rest) = (read_chars fuel rest).map fun (cs, rest) => (c :: cs, rest) := by
  have hMap (c : Char) : (read_chars fuel rest).map (fun (cs, rest) => (c :: cs, rest)) =
      (read_chars fuel rest).bind fun (cs, rest) => some (c :: cs, rest) := by
    rw [Option.map_eq_bind]
    rfl
  unfold escape
  split_ifs with hQuote hBack hLine hReturn hTab hBackspace hFeed hControl
  · subst hQuote
    simp [read_chars, unescape, hMap]
  · subst hBack
    simp [read_chars, unescape, hMap]
  · subst hLine
    simp [read_chars, unescape, hMap]
  · subst hReturn
    simp [read_chars, unescape, hMap]
  · subst hTab
    simp [read_chars, unescape, hMap]
  · have hC : c = Char.ofNat 8 := by rw [← hBackspace, Char.ofNat_toNat]
    subst hC
    simp [read_chars, unescape, hMap]
  · have hC : c = Char.ofNat 12 := by rw [← hFeed, Char.ofNat_toNat]
    subst hC
    simp [read_chars, unescape, hMap]
  · simp [read_chars, unescape, read_control hControl, hMap]
  · simp [read_chars, hQuote, hBack, hControl, hMap]

/-- A string is read as it was written. -/
theorem read_chars_escape (cs rest : List Char) {fuel : Nat} (h : cs.length < fuel) :
    read_chars fuel (cs.flatMap escape ++ '"' :: rest) = some (cs, rest) := by
  induction cs generalizing fuel with
  | nil =>
    obtain ⟨fuel, rfl⟩ := Nat.exists_eq_add_one.mpr (Nat.lt_of_le_of_lt (Nat.zero_le _) h)
    simp [read_chars]
  | cons c cs ih =>
    obtain ⟨fuel, rfl⟩ := Nat.exists_eq_add_one.mpr (Nat.lt_of_le_of_lt (Nat.zero_le _) h)
    rw [List.flatMap_cons, List.append_assoc, read_chars_cons, ih (by simpa using h)]
    rfl

theorem length_escape (c : Char) : 1 ≤ (escape c).length := by
  unfold escape
  split_ifs <;> simp

theorem length_escapes (cs : List Char) : cs.length ≤ (cs.flatMap escape).length := by
  induction cs with
  | nil => simp
  | cons c cs ih =>
    have hC := length_escape c
    simp only [List.flatMap_cons, List.length_append, List.length_cons]
    omega

theorem read_string_quoted (s : String) (rest : List Char) :
    read_string (s.toList.flatMap escape ++ '"' :: rest) = some (s, rest) := by
  have hLength := length_escapes s.toList
  unfold read_string
  rw [read_chars_escape _ _ (by simp only [List.length_append]; omega)]
  simp

/-! ## Values -/

/-- What may follow a value. -/
def Closes (rest : List Char) : Prop := ∀ c, rest.head? = some c → c ∈ [',', ']', '\x7d']

theorem closes_nil : Closes [] := fun _ h => nomatch h

theorem closes_cons {c : Char} (h : c ∈ [',', ']', '\x7d']) (rest : List Char) : Closes (c :: rest) := by
  intro c' hHead
  cases hHead
  exact h

end JsonTree

/-- The number `n`, once written, is read as `m`. -/
structure Numerals.Reads {N : Type} (numerals : Numerals N) (n m : N) : Prop where
  starts : ∃ c tail, numerals.write n = c :: tail ∧ (c = '-' ∨ c.isDigit = true)
  reads : ∀ rest, JsonTree.Closes rest → numerals.read (numerals.write n ++ rest) = some (m, rest)

namespace JsonTree

variable {N : Type}

mutual
/-- The numbers are all `P`, and no object has a name twice or its names out of order. -/
def Proper (P : N → Prop) : JsonTree N → Prop
  | null | bool _ | string _ => True
  | number n => P n
  | array items => ProperItems P items
  | object fields => (fields.Pairwise fun e e' => e.1 < e'.1) ∧ ProperFields P fields
def ProperItems (P : N → Prop) : List (JsonTree N) → Prop
  | [] => True
  | item :: items => item.Proper P ∧ ProperItems P items
def ProperFields (P : N → Prop) : List (String × JsonTree N) → Prop
  | [] => True
  | (_, value) :: fields => value.Proper P ∧ ProperFields P fields
end

theorem properItems_iff {P : N → Prop} {items : List (JsonTree N)} :
    ProperItems P items ↔ ∀ item ∈ items, item.Proper P := by
  induction items with
  | nil => simp [ProperItems]
  | cons item items ih => rw [ProperItems, ih, List.forall_mem_cons]

theorem properFields_iff {P : N → Prop} {fields : List (String × JsonTree N)} :
    ProperFields P fields ↔ ∀ e ∈ fields, e.2.Proper P := by
  induction fields with
  | nil => simp [ProperFields]
  | cons field fields ih => rw [ProperFields, ih, List.forall_mem_cons]

mutual
/-- How deep a value nests. -/
def depth : JsonTree N → Nat
  | null | bool _ | string _ | number _ => 0
  | array items => depth_items items + 1
  | object fields => depth_fields fields + 1
def depth_items : List (JsonTree N) → Nat
  | [] => 0
  | item :: items => max item.depth (depth_items items)
def depth_fields : List (String × JsonTree N) → Nat
  | [] => 0
  | (_, value) :: fields => max value.depth (depth_fields fields)
end

mutual
/-- A value with its numbers changed. -/
def renumber (g : N → N) : JsonTree N → JsonTree N
  | null => null
  | bool b => bool b
  | number n => number (g n)
  | string s => string s
  | array items => array (renumber_items g items)
  | object fields => object (renumber_fields g fields)
def renumber_items (g : N → N) : List (JsonTree N) → List (JsonTree N)
  | [] => []
  | item :: items => item.renumber g :: renumber_items g items
def renumber_fields (g : N → N) : List (String × JsonTree N) → List (String × JsonTree N)
  | [] => []
  | (name, value) :: fields => (name, value.renumber g) :: renumber_fields g fields
end

mutual
/-- The steps it takes to read a value. -/
def cost : JsonTree N → Nat
  | null | bool _ | string _ | number _ => 1
  | array items => cost_items items + 1
  | object fields => cost_fields fields + 1
def cost_items : List (JsonTree N) → Nat
  | [] => 0
  | item :: items => item.cost + cost_items items + 1
def cost_fields : List (String × JsonTree N) → Nat
  | [] => 0
  | (_, value) :: fields => value.cost + cost_fields fields + 1
end

/-- Whether a limit on nesting admits a depth. -/
def within : Option Nat → Nat → Bool
  | none, _ => true
  | some limit, depth => depth ≤ limit

theorem within_zero (limit : Option Nat) : within limit 0 = true := by
  cases limit with
  | none => rfl
  | some limit => exact decide_eq_true (Nat.zero_le limit)

theorem within_max (limit : Option Nat) (d d' : Nat) :
    within limit (max d d') = (within limit d && within limit d') := by
  cases limit with
  | none => rfl
  | some limit =>
    rw [Bool.eq_iff_iff]
    simp [within]

theorem within_deeper {limit limit' : Option Nat} (h : deeper limit = some limit') (d : Nat) :
    within limit (d + 1) = within limit' d := by
  match limit, h with
  | none, h =>
    cases h
    rfl
  | some (limit + 1), h =>
    cases h
    rw [Bool.eq_iff_iff]
    simp [within]

theorem within_too_deep {limit : Option Nat} (h : deeper limit = none) (d : Nat) :
    within limit (d + 1) = false := by
  match limit, h with
  | some 0, _ => simp [within]

theorem skip_white_cons {c : Char} (h : is_white c = false) (rest : List Char) :
    skip_white (c :: rest) = c :: rest := by
  rw [skip_white, List.dropWhile_cons_of_neg (by simp [h])]

theorem listed_cons (part : List Char) {parts : List (List Char)} (h : parts ≠ []) :
    listed (part :: parts) = part ++ ',' :: listed parts := by
  obtain ⟨part', parts, rfl⟩ := List.exists_cons_of_ne_nil h
  rfl

variable {numerals : Numerals N} {g : N → N}

theorem read_number {n m : N} (h : numerals.Reads n m) (fuel : Nat) (limit : Option Nat) {rest : List Char}
    (hCloses : Closes rest) : read numerals (fuel + 1) limit (numerals.write n ++ rest) = some (number m, rest) := by
  obtain ⟨c, tail, hWrite, hStart⟩ := h.starts
  have hRead := h.reads rest hCloses
  have hApart (d : Char) (hMinus : d ≠ '-') (hDigit : d.isDigit = false) : c ≠ d := by
    rintro rfl
    rcases hStart with hEq | hEq
    · exact hMinus hEq
    · rw [hDigit] at hEq
      exact Bool.noConfusion hEq
  have hWhite : is_white c = false := by
    have h₁ := hApart ' ' (by decide) (by decide)
    have h₂ := hApart '\n' (by decide) (by decide)
    have h₃ := hApart '\t' (by decide) (by decide)
    have h₄ := hApart '\r' (by decide) (by decide)
    simp [is_white, h₁, h₂, h₃, h₄]
  rw [hWrite, List.cons_append] at hRead ⊢
  rw [read, skip_white_cons hWhite]
  split
  · next hEq => exact absurd (List.cons.inj hEq).1 (hApart 'n' (by decide) (by decide))
  · next hEq => exact absurd (List.cons.inj hEq).1 (hApart 't' (by decide) (by decide))
  · next hEq => exact absurd (List.cons.inj hEq).1 (hApart 'f' (by decide) (by decide))
  · next hEq => exact absurd (List.cons.inj hEq).1 (hApart '"' (by decide) (by decide))
  · next hEq => exact absurd (List.cons.inj hEq).1 (hApart '[' (by decide) (by decide))
  · next hEq => exact absurd (List.cons.inj hEq).1 (hApart '\x7b' (by decide) (by decide))
  · rw [hRead]
    rfl

/-- How the text of a value begins. -/
theorem write_starts {v : JsonTree N} (h : v.Proper fun n => numerals.Reads n (g n)) :
    ∃ c tail, v.write numerals = c :: tail ∧ is_white c = false ∧ c ≠ ']' := by
  cases v with
  | null => exact ⟨'n', _, rfl, by decide, by decide⟩
  | bool b =>
    cases b with
    | false => exact ⟨'f', _, rfl, by decide, by decide⟩
    | true => exact ⟨'t', _, rfl, by decide, by decide⟩
  | number n =>
    rw [Proper] at h
    obtain ⟨c, tail, hWrite, hStart⟩ := h.starts
    refine ⟨c, tail, hWrite, ?_, ?_⟩
    · rcases hStart with rfl | hDigit
      · decide
      · rw [Bool.eq_false_iff]
        intro hWhite
        simp only [is_white, Bool.or_eq_true, decide_eq_true_eq] at hWhite
        rcases hWhite with ((rfl | rfl) | rfl) | rfl <;> exact absurd hDigit (by decide)
    · rintro rfl
      rcases hStart with hEq | hDigit
      · exact absurd hEq (by decide)
      · exact absurd hDigit (by decide)
  | string s => exact ⟨'"', _, rfl, by decide, by decide⟩
  | array items => exact ⟨'[', _, rfl, by decide, by decide⟩
  | object fields => exact ⟨'\x7b', _, rfl, by decide, by decide⟩

theorem write_items_ne_nil {items : List (JsonTree N)} (h : items ≠ []) : write_items numerals items ≠ [] := by
  obtain ⟨item, items, rfl⟩ := List.exists_cons_of_ne_nil h
  exact List.cons_ne_nil _ _

theorem write_fields_ne_nil {fields : List (String × JsonTree N)} (h : fields ≠ []) :
    write_fields numerals fields ≠ [] := by
  obtain ⟨⟨name, value⟩, fields, rfl⟩ := List.exists_cons_of_ne_nil h
  exact List.cons_ne_nil _ _

theorem names_renumber (g : N → N) (fields : List (String × JsonTree N)) :
    (renumber_fields g fields).map Prod.fst = fields.map Prod.fst := by
  induction fields with
  | nil => rfl
  | cons field fields ih => rw [renumber_fields, List.map_cons, List.map_cons, ih]

/-- Fields that are sorted by name make an object as they are. -/
theorem of_fields_sorted {fields : List (String × JsonTree N)} (h : fields.Pairwise fun e e' => e.1 < e'.1) :
    of_fields fields = object fields := by
  rw [of_fields, BTreeMap.toList_ofList h]

theorem of_fields_renumber {fields : List (String × JsonTree N)} (h : fields.Pairwise fun e e' => e.1 < e'.1)
    (g : N → N) : of_fields (renumber_fields g fields) = object (renumber_fields g fields) := by
  refine of_fields_sorted ?_
  rw [← List.pairwise_map (f := Prod.fst) (R := (· < ·)), names_renumber, List.pairwise_map]
  exact h

section

variable {fuel : Nat} {limit : Option Nat} {text rest : List Char}

theorem read_null : read numerals (fuel + 1) limit ('n' :: rest) =
    (after ['u', 'l', 'l'] rest).map fun rest => (null, rest) := rfl

theorem read_true : read numerals (fuel + 1) limit ('t' :: rest) =
    (after ['r', 'u', 'e'] rest).map fun rest => (bool true, rest) := rfl

theorem read_false : read numerals (fuel + 1) limit ('f' :: rest) =
    (after ['a', 'l', 's', 'e'] rest).map fun rest => (bool false, rest) := rfl

theorem read_quote : read numerals (fuel + 1) limit ('"' :: rest) =
    (read_string rest).map fun (s, rest) => (string s, rest) := rfl

theorem read_bracket : read numerals (fuel + 1) limit ('[' :: rest) =
    (deeper limit).bind fun limit =>
      match skip_white rest with
      | ']' :: rest => some (array [], rest)
      | rest => (read_items numerals fuel limit rest).map fun (items, rest) => (array items, rest) := by
  rw [read, skip_white_cons (by decide)]
  cases deeper limit <;> rfl

theorem read_brace : read numerals (fuel + 1) limit ('\x7b' :: rest) =
    (deeper limit).bind fun limit =>
      match skip_white rest with
      | '\x7d' :: rest => some (of_fields [], rest)
      | rest => (read_fields numerals fuel limit rest).map fun (fields, rest) => (of_fields fields, rest) := by
  rw [read, skip_white_cons (by decide)]
  cases deeper limit <;> rfl

/-- An array with an item in it: one level deeper, up to the closing bracket. -/
theorem read_bracketed {c : Char} (hWhite : is_white c = false) (hClose : c ≠ ']') :
    read numerals (fuel + 1) limit ('[' :: c :: rest) =
      (deeper limit).bind fun limit =>
        (read_items numerals fuel limit (c :: rest)).map fun (items, rest) => (array items, rest) := by
  rw [read_bracket, skip_white_cons hWhite]
  refine congrArg (deeper limit).bind (funext fun limit => ?_)
  split
  · next hEq => exact absurd (List.cons.inj hEq).1 hClose
  · rfl

/-- An object with a field in it: one level deeper, up to the closing brace. -/
theorem read_braced : read numerals (fuel + 1) limit ('\x7b' :: '"' :: rest) =
    (deeper limit).bind fun limit =>
      (read_fields numerals fuel limit ('"' :: rest)).map fun (fields, rest) => (of_fields fields, rest) := by
  rw [read_brace, skip_white_cons (by decide)]
  refine congrArg (deeper limit).bind (funext fun limit => ?_)
  split
  · next hEq => exact absurd (List.cons.inj hEq).1 (by decide)
  · rfl

/-- The items are what is read first, and what comes after its comma. -/
theorem read_items_eq : read_items numerals (fuel + 1) limit text =
    (read numerals fuel limit text).bind fun (item, rest) =>
      match skip_white rest with
      | ',' :: rest => (read_items numerals fuel limit rest).bind fun (items, rest) => some (item :: items, rest)
      | ']' :: rest => some ([item], rest)
      | _ => none := rfl

theorem read_items_more {item : JsonTree N} (h : read numerals fuel limit text = some (item, ',' :: rest)) :
    read_items numerals (fuel + 1) limit text =
      (read_items numerals fuel limit rest).map fun (items, rest) => (item :: items, rest) := by
  rw [read_items_eq, h, Option.map_eq_bind]
  rfl

theorem read_items_last {item : JsonTree N} (h : read numerals fuel limit text = some (item, ']' :: rest)) :
    read_items numerals (fuel + 1) limit text = some ([item], rest) := by
  rw [read_items_eq, h]
  rfl

theorem read_items_refused (h : read numerals fuel limit text = none) :
    read_items numerals (fuel + 1) limit text = none := by
  rw [read_items_eq, h]
  rfl

/-- A field is read up to its value alike, whatever follows. -/
theorem read_member (name : String) : read_fields numerals (fuel + 1) limit (member name text) =
    (read numerals fuel limit text).bind fun (value, rest) =>
      match skip_white rest with
      | ',' :: rest => (read_fields numerals fuel limit rest).bind fun (fields, rest) =>
        some ((name, value) :: fields, rest)
      | '\x7d' :: rest => some ([(name, value)], rest)
      | _ => none := by
  have hQuote (rest : List Char) : after ['"'] ('"' :: rest) = some rest := after_append ['"'] rest
  have hColon (rest : List Char) : after [':'] (':' :: rest) = some rest := after_append [':'] rest
  rw [member, quoted, List.cons_append, List.append_assoc, List.singleton_append, read_fields,
    skip_white_cons (by decide)]
  simp only [Option.bind_eq_bind, hQuote, Option.bind_some, read_string_quoted]
  rw [skip_white_cons (by decide), hColon, Option.bind_some]

theorem read_fields_more {value : JsonTree N} (name : String)
    (h : read numerals fuel limit text = some (value, ',' :: rest)) :
    read_fields numerals (fuel + 1) limit (member name text) =
      (read_fields numerals fuel limit rest).map fun (fields, rest) => ((name, value) :: fields, rest) := by
  rw [read_member, h, Option.map_eq_bind]
  rfl

theorem read_fields_last {value : JsonTree N} (name : String)
    (h : read numerals fuel limit text = some (value, '\x7d' :: rest)) :
    read_fields numerals (fuel + 1) limit (member name text) = some ([(name, value)], rest) := by
  rw [read_member, h]
  rfl

theorem read_fields_refused (name : String) (h : read numerals fuel limit text = none) :
    read_fields numerals (fuel + 1) limit (member name text) = none := by
  rw [read_member, h]
  rfl

end

theorem member_append (name : String) (value rest : List Char) :
    member name value ++ rest = member name (value ++ rest) := by
  simp [member]

/-- How the text of an array's items begins. -/
theorem listed_starts {items : List (JsonTree N)} (hItems : items ≠ [])
    (h : ProperItems (fun n => numerals.Reads n (g n)) items) (rest : List Char) :
    ∃ c tail, listed (write_items numerals items) ++ rest = c :: tail ∧ is_white c = false ∧ c ≠ ']' := by
  obtain ⟨item, items, rfl⟩ := List.exists_cons_of_ne_nil hItems
  rw [ProperItems] at h
  obtain ⟨c, tail, hWrite, hWhite, hClose⟩ := write_starts h.1
  rw [write_items]
  cases write_items numerals items with
  | nil => exact ⟨c, _, by rw [listed, hWrite]; rfl, hWhite, hClose⟩
  | cons part parts => exact ⟨c, _, by rw [listed, hWrite]; rfl, hWhite, hClose⟩

theorem listed_fields_start {fields : List (String × JsonTree N)} (hFields : fields ≠ []) (rest : List Char) :
    ∃ tail, listed (write_fields numerals fields) ++ rest = '"' :: tail := by
  obtain ⟨⟨name, value⟩, fields, rfl⟩ := List.exists_cons_of_ne_nil hFields
  rw [write_fields]
  cases write_fields numerals fields with
  | nil => exact ⟨_, rfl⟩
  | cons part parts => exact ⟨_, rfl⟩

mutual

/-- A value is read as it was written, up to what becomes of its numbers, unless it nests too
deep. -/
theorem read_write : ∀ (v : JsonTree N) (limit : Option Nat) (fuel : Nat) (rest : List Char),
    (v.Proper fun n => numerals.Reads n (g n)) → v.cost ≤ fuel → Closes rest →
      read numerals fuel limit (v.write numerals ++ rest) =
        if within limit v.depth then some (v.renumber g, rest) else none
  | v, _, 0, _, _, hCost, _ => by
    cases v <;> simp [cost] at hCost
  | .null, limit, fuel + 1, rest, _, _, _ => by
    rw [depth, within_zero, if_pos rfl]
    exact read_null.trans (congrArg (Option.map fun rest => (null, rest)) (after_append ['u', 'l', 'l'] rest))
  | .bool true, limit, fuel + 1, rest, _, _, _ => by
    rw [depth, within_zero, if_pos rfl]
    exact read_true.trans (congrArg (Option.map fun rest => (bool true, rest)) (after_append ['r', 'u', 'e'] rest))
  | .bool false, limit, fuel + 1, rest, _, _, _ => by
    rw [depth, within_zero, if_pos rfl]
    exact read_false.trans (congrArg (Option.map fun rest => (bool false, rest)) (after_append ['a', 'l', 's', 'e'] rest))
  | .number n, limit, fuel + 1, rest, hProper, _, hCloses => by
    rw [Proper] at hProper
    rw [depth, within_zero, if_pos rfl, write, read_number hProper fuel limit hCloses, renumber]
  | .string s, limit, fuel + 1, rest, _, _, _ => by
    rw [depth, within_zero, if_pos rfl, write, quoted, List.cons_append, List.append_assoc,
      List.singleton_append, read_quote, read_string_quoted]
    rfl
  | .array items, limit, fuel + 1, rest, hProper, hCost, _ => by
    rw [Proper] at hProper
    rw [cost] at hCost
    rw [depth, write, bracketed, List.cons_append, List.append_assoc, List.singleton_append, renumber]
    by_cases hItems : items = []
    · subst hItems
      rw [write_items, listed, List.nil_append, read_bracket, skip_white_cons (by decide)]
      cases hDeeper : deeper limit with
      | none => rw [within_too_deep hDeeper, Option.bind_none, if_neg Bool.false_ne_true]
      | some limit' =>
        rw [within_deeper hDeeper, depth_items, within_zero, if_pos rfl, Option.bind_some]
        rfl
    · obtain ⟨c, tail, hText, hWhite, hClose⟩ := listed_starts hItems hProper (']' :: rest)
      have hRead (limit : Option Nat) := read_write_items items limit fuel rest hItems hProper (by omega)
      rw [hText] at hRead ⊢
      rw [read_bracketed hWhite hClose]
      cases hDeeper : deeper limit with
      | none => rw [within_too_deep hDeeper, Option.bind_none, if_neg Bool.false_ne_true]
      | some limit' =>
        rw [within_deeper hDeeper, Option.bind_some, hRead]
        split <;> rfl
  | .object fields, limit, fuel + 1, rest, hProper, hCost, _ => by
    rw [Proper] at hProper
    rw [cost] at hCost
    rw [depth, write, braced, List.cons_append, List.append_assoc, List.singleton_append, renumber,
      ← of_fields_renumber hProper.1 g]
    by_cases hFields : fields = []
    · subst hFields
      rw [write_fields, listed, List.nil_append, read_brace, skip_white_cons (by decide)]
      cases hDeeper : deeper limit with
      | none => rw [within_too_deep hDeeper, Option.bind_none, if_neg Bool.false_ne_true]
      | some limit' =>
        rw [within_deeper hDeeper, depth_fields, within_zero, if_pos rfl, Option.bind_some]
        rfl
    · obtain ⟨tail, hText⟩ := @listed_fields_start _ numerals _ hFields ('\x7d' :: rest)
      have hRead (limit : Option Nat) := read_write_fields fields limit fuel rest hFields hProper.2 (by omega)
      rw [hText] at hRead ⊢
      rw [read_braced]
      cases hDeeper : deeper limit with
      | none => rw [within_too_deep hDeeper, Option.bind_none, if_neg Bool.false_ne_true]
      | some limit' =>
        rw [within_deeper hDeeper, Option.bind_some, hRead]
        split <;> rfl

theorem read_write_items : ∀ (items : List (JsonTree N)) (limit : Option Nat) (fuel : Nat) (rest : List Char),
    items ≠ [] → (ProperItems (fun n => numerals.Reads n (g n)) items) → cost_items items ≤ fuel →
      read_items numerals fuel limit (listed (write_items numerals items) ++ ']' :: rest) =
        if within limit (depth_items items) then some (renumber_items g items, rest) else none
  | [], _, _, _, hItems, _, _ => absurd rfl hItems
  | _ :: _, _, 0, _, _, _, hCost => by
    simp [cost_items] at hCost
  | item :: items, limit, fuel + 1, rest, _, hProper, hCost => by
    rw [ProperItems] at hProper
    rw [cost_items] at hCost
    rw [depth_items, within_max, write_items, renumber_items]
    by_cases hItems : items = []
    · subst hItems
      have hRead := read_write item limit fuel (']' :: rest) hProper.1 (by omega) (closes_cons (by decide) _)
      rw [depth_items, within_zero, Bool.and_true, write_items, listed]
      split at hRead
      · next hWithin => rw [read_items_last hRead, if_pos hWithin, renumber_items]
      · next hWithin => rw [read_items_refused hRead, if_neg hWithin]
    · have hRead := read_write item limit fuel (',' :: (listed (write_items numerals items) ++ ']' :: rest))
        hProper.1 (by omega) (closes_cons (by decide) _)
      have hMore := read_write_items items limit fuel rest hItems hProper.2 (by omega)
      rw [listed_cons _ (write_items_ne_nil hItems), List.append_assoc, List.cons_append]
      split at hRead
      · next hWithin =>
        rw [read_items_more hRead, hMore, hWithin, Bool.true_and]
        split <;> rfl
      · next hWithin => rw [read_items_refused hRead, Bool.eq_false_iff.mpr hWithin, Bool.false_and, if_neg Bool.false_ne_true]

theorem read_write_fields : ∀ (fields : List (String × JsonTree N)) (limit : Option Nat) (fuel : Nat) (rest : List Char),
    fields ≠ [] → (ProperFields (fun n => numerals.Reads n (g n)) fields) → cost_fields fields ≤ fuel →
      read_fields numerals fuel limit (listed (write_fields numerals fields) ++ '\x7d' :: rest) =
        if within limit (depth_fields fields) then some (renumber_fields g fields, rest) else none
  | [], _, _, _, hFields, _, _ => absurd rfl hFields
  | _ :: _, _, 0, _, _, _, hCost => by
    simp [cost_fields] at hCost
  | (name, value) :: fields, limit, fuel + 1, rest, _, hProper, hCost => by
    rw [ProperFields] at hProper
    rw [cost_fields] at hCost
    rw [depth_fields, within_max, write_fields, renumber_fields]
    by_cases hFields : fields = []
    · subst hFields
      have hRead := read_write value limit fuel ('\x7d' :: rest) hProper.1 (by omega) (closes_cons (by decide) _)
      rw [depth_fields, within_zero, Bool.and_true, write_fields, listed, member_append]
      split at hRead
      · next hWithin => rw [read_fields_last name hRead, if_pos hWithin, renumber_fields]
      · next hWithin => rw [read_fields_refused name hRead, if_neg hWithin]
    · have hRead := read_write value limit fuel (',' :: (listed (write_fields numerals fields) ++ '\x7d' :: rest))
        hProper.1 (by omega) (closes_cons (by decide) _)
      have hMore := read_write_fields fields limit fuel rest hFields hProper.2 (by omega)
      rw [listed_cons _ (write_fields_ne_nil hFields), List.append_assoc, List.cons_append, member_append]
      split at hRead
      · next hWithin =>
        rw [read_fields_more name hRead, hMore, hWithin, Bool.true_and]
        split <;> rfl
      · next hWithin => rw [read_fields_refused name hRead, Bool.eq_false_iff.mpr hWithin, Bool.false_and, if_neg Bool.false_ne_true]

end

mutual

theorem cost_le : ∀ v : JsonTree N, (v.Proper fun n => numerals.Reads n (g n)) → v.cost ≤ 2 * (v.write numerals).length
  | .null, _ => by simp [cost, write]
  | .bool true, _ => by simp [cost, write]
  | .bool false, _ => by simp [cost, write]
  | .number n, h => by
    rw [Proper] at h
    obtain ⟨c, tail, hWrite, -⟩ := h.starts
    rw [cost, write, hWrite, List.length_cons]
    omega
  | .string s, _ => by
    simp only [cost, write, quoted, List.length_cons, List.length_append]
    omega
  | .array items, h => by
    rw [Proper] at h
    have hItems := cost_items_le items h
    simp only [cost, write, bracketed, List.length_cons, List.length_append]
    omega
  | .object fields, h => by
    rw [Proper] at h
    have hFields := cost_fields_le fields h.2
    simp only [cost, write, braced, List.length_cons, List.length_append]
    omega

theorem cost_items_le : ∀ items : List (JsonTree N), ProperItems (fun n => numerals.Reads n (g n)) items →
    cost_items items ≤ 2 * (listed (write_items numerals items)).length + 1
  | [], _ => by simp [cost_items]
  | item :: items, h => by
    rw [ProperItems] at h
    have hItem := cost_le item h.1
    have hRest := cost_items_le items h.2
    rw [cost_items, write_items]
    by_cases hItems : items = []
    · subst hItems
      rw [cost_items, write_items, listed]
      omega
    · rw [listed_cons _ (write_items_ne_nil hItems), List.length_append, List.length_cons]
      omega

theorem cost_fields_le : ∀ fields : List (String × JsonTree N), ProperFields (fun n => numerals.Reads n (g n)) fields →
    cost_fields fields ≤ 2 * (listed (write_fields numerals fields)).length + 1
  | [], _ => by simp [cost_fields]
  | (name, value) :: fields, h => by
    rw [ProperFields] at h
    have hValue := cost_le value h.1
    have hRest := cost_fields_le fields h.2
    have hMember : (member name (value.write numerals)).length =
        (quoted name).length + (value.write numerals).length + 1 := by
      simp only [member, List.length_append, List.length_cons]
      omega
    rw [cost_fields, write_fields]
    by_cases hFields : fields = []
    · subst hFields
      rw [cost_fields, write_fields, listed]
      omega
    · rw [listed_cons _ (write_fields_ne_nil hFields), List.length_append, List.length_cons]
      omega

end

/-- The text of a value is that value, up to what becomes of its numbers. A reader with a limit
on nesting refuses exactly what nests deeper. -/
theorem from_text_write {v : JsonTree N} (h : v.Proper fun n => numerals.Reads n (g n)) (limit : Option Nat) :
    from_text numerals limit (v.write numerals) = if within limit v.depth then some (v.renumber g) else none := by
  have hRead := read_write v limit (2 * (v.write numerals).length + 1) [] h
    (Nat.le_succ_of_le (cost_le v h)) closes_nil
  rw [List.append_nil] at hRead
  rw [from_text, hRead]
  split <;> rfl

mutual
theorem renumber_id : ∀ v : JsonTree N, v.renumber id = v
  | .null | .bool _ | .number _ | .string _ => rfl
  | .array items => by rw [renumber, renumber_items_id items]
  | .object fields => by rw [renumber, renumber_fields_id fields]
theorem renumber_items_id : ∀ items : List (JsonTree N), renumber_items id items = items
  | [] => rfl
  | item :: items => by rw [renumber_items, renumber_id item, renumber_items_id items]
theorem renumber_fields_id : ∀ fields : List (String × JsonTree N), renumber_fields id fields = fields
  | [] => rfl
  | (name, value) :: fields => by rw [renumber_fields, renumber_id value, renumber_fields_id fields]
end

end JsonTree

end Lib
