import Postino.Lib.Words

/-!
# Glob patterns

`*` matches any run of characters, `?` one character, `[abc]`, `[a-z]` and
`[^...]` one of a set, and `\` makes the next character literal. A class that is
never closed matches nothing. A pattern is compiled once: to a comparison of
strings when it is simple enough, else to an automaton run with one bit for each
state.

* `Matches` — what a pattern's atoms match.
* `classify_matches` — the compiled pattern matches the same, whatever it was
  compiled to.
* `matches_start` — what matches starts with the pattern's literal prefix.
-/

namespace Postino

open Lib

/-- The longest pattern, in bytes, a client may send. -/
def MAX_PATTERN : Nat := 256

inductive Atom where
  | star
  | one
  | char (c : Char)
  | set (negate : Bool) (ranges : List (Char × Char))
  deriving DecidableEq

def Atom.accepts (atom : Atom) (c : Char) : Bool :=
  match atom with
  | star | one => true
  | char x => x == c
  | set negate ranges => (ranges.any fun (lo, hi) => lo ≤ c && c ≤ hi) != negate

/-! ## Reading a pattern -/

/-- A character of a class, and what follows it: `\` makes the next one literal. -/
def escaped (c : Char) (p : List Char) : Char × List Char :=
  match c, p with
  | '\\', lo :: p => (lo, p)
  | c, p => (c, p)

theorem escaped_length (c : Char) (p : List Char) : (escaped c p).2.length ≤ p.length := by
  unfold escaped
  split <;> simp

/-- The ranges of a class and what follows its end; `first` tells a `]` that belongs
to the class. -/
def class_ranges (ranges : List (Char × Char)) (first : Bool) (p : List Char) :
    Option (List (Char × Char) × List Char) :=
  match p with
  | [] => none
  | c :: p =>
    if c = ']' ∧ ¬ first then some (ranges, p)
    else
      let lo := (escaped c p).1
      match _h : (escaped c p).2 with
      | x :: hi :: rest =>
        if x = '-' ∧ hi ≠ ']' then
          class_ranges (ranges ++ [if lo ≤ hi then (lo, hi) else (hi, lo)]) false rest
        else class_ranges (ranges ++ [(lo, lo)]) false (x :: hi :: rest)
      | rest => class_ranges (ranges ++ [(lo, lo)]) false rest
termination_by p.length
decreasing_by
  all_goals
    have hShorter := escaped_length c p
    simp_all
    try omega

/-- The class after its opening, and the pattern after it. -/
def class_ (p : List Char) : Option (Atom × List Char) :=
  let (negate, p) := match p with
    | '^' :: p => (true, p)
    | p => (false, p)
  (class_ranges [] true p).map fun (ranges, p) => (.set negate ranges, p)

theorem class_ranges_shorter {ranges : List (Char × Char)} {first : Bool} {p : List Char}
    {found : List (Char × Char) × List Char} (h : class_ranges ranges first p = some found) :
    found.2.length < p.length := by
  fun_induction class_ranges ranges first p with
  | case1 => cases h
  | case2 ranges first c p hEnd =>
    cases h
    simp
  | case3 ranges first c p hEnd lo x hi rest hEscaped hRange ih =>
    have hShort := escaped_length c p
    have := ih h
    simp [hEscaped] at hShort
    simp
    omega
  | case4 ranges first c p hEnd lo x hi rest hEscaped hRange ih =>
    have hShort := escaped_length c p
    have := ih h
    simp [hEscaped] at hShort this
    simp
    omega
  | case5 ranges first c p hEnd lo hNot ih =>
    have hShort := escaped_length c p
    have := ih h
    simp
    omega

theorem class_shorter {p : List Char} {found : Atom × List Char} (h : class_ p = some found) :
    found.2.length ≤ p.length := by
  obtain ⟨⟨ranges, rest⟩, hRanges, rfl⟩ := Option.map_eq_some_iff.mp h
  have hShort := class_ranges_shorter hRanges
  dsimp only at hShort ⊢
  split at hShort
  · simp at hShort ⊢
    omega
  · exact hShort.le

/-- The atoms of what is left of a pattern after `out`, with runs of `*` merged;
`none` when a class is never closed. -/
def atoms_from (out : List Atom) (p : List Char) : Option (List Atom) :=
  match p with
  | [] => some out
  | '*' :: p => atoms_from (if out.getLast? = some .star then out else out ++ [.star]) p
  | '?' :: p => atoms_from (out ++ [.one]) p
  | '[' :: p =>
    match _h : class_ p with
    | none => none
    | some (atom, next) => atoms_from (out ++ [atom]) next
  | '\\' :: c :: p => atoms_from (out ++ [.char c]) p
  | c :: p => atoms_from (out ++ [.char c]) p
termination_by p.length
decreasing_by all_goals (try have := class_shorter _h); simp_all; try omega

def atoms (pattern : String) : Option (List Atom) := atoms_from [] pattern.toList

/-! ## The automaton -/

/-- The atoms as a nondeterministic automaton run with one bit for each state: state
`i` means that the first `i` atoms have matched. -/
structure Automaton where
  atoms : List Atom
  words : Nat
  /-- Bit `i`: atom `i` is a star, so state `i` stays live on any character. -/
  stars : List Words.Word
  /-- For each ASCII character, bit `i`: atom `i` is not a star and accepts it. -/
  ascii : List Words.Word

/-- The characters each in its own run of `words` words. -/
def ascii_bits (words : Nat) (atom : Atom) (i : Nat) (ascii : List Words.Word) :
    List Words.Word :=
  (List.range 128).foldl (fun ascii c =>
    if atom.accepts (Char.ofNat c) then Words.set_bit ascii (64 * (c * words) + i) else ascii) ascii

namespace Automaton

def new (atoms : List Atom) : Automaton :=
  let words := atoms.length / 64 + 1
  let stars := List.replicate words 0#64
  let ascii := List.replicate (128 * words) 0#64
  let (stars, ascii) := atoms.zipIdx.foldl (fun (stars, ascii) (atom, i) =>
    if atom = .star then (Words.set_bit stars i, ascii)
    else (stars, ascii_bits words atom i ascii)) (stars, ascii)
  { atoms, words, stars, ascii }

/-- Adds the states a star reaches by matching nothing. Runs of stars are merged,
so one step reaches them all. -/
def close (a : Automaton) (state : List Words.Word) : List Words.Word :=
  List.zipWith (· ||| ·) state (Words.shift 0#64 (List.zipWith (· &&& ·) state a.stars))

/-- The atoms that accept a character. -/
def accepts (a : Automaton) (c : Char) : List Words.Word :=
  if c.toNat < 128 then (a.ascii.drop (c.toNat * a.words)).take a.words
  else
    a.atoms.zipIdx.foldl (fun mask (atom, i) =>
      if atom ≠ .star ∧ atom.accepts c then Words.set_bit mask i else mask)
      (List.replicate a.words 0#64)

/-- The states after one more character, before closing. -/
def next (a : Automaton) (state : List Words.Word) (c : Char) : List Words.Word :=
  List.zipWith (· ||| ·) (Words.shift 0#64 (List.zipWith (· &&& ·) state (a.accepts c)))
    (List.zipWith (· &&& ·) state a.stars)

def run (a : Automaton) (state : List Words.Word) : List Char → Bool
  | [] => Words.bit state a.atoms.length
  | c :: text =>
    let next := a.next state c
    if next.all (· == 0#64) then false else a.run (a.close next) text

def matches_ (a : Automaton) (text : String) : Bool :=
  a.run (a.close (Words.set_bit (List.replicate a.words 0#64) 0)) text.toList

end Automaton

/-! ## Compiled patterns -/

inductive Kind where
  | any
  | exact (s : List Char)
  | pre (s : List Char)
  | suffix (s : List Char)
  | contains (s : List Char)
  | never
  | automaton (a : Automaton)

/-- The text that atoms spell, when all are characters. -/
def literal (atoms : List Atom) : Option (List Char) :=
  atoms.mapM fun
    | .char c => some c
    | _ => none

/-- The cheapest way to match these atoms. -/
def classify (atoms : List Atom) : Kind :=
  if atoms = [.star] then .any
  else
    match literal atoms with
    | some s => .exact s
    | none =>
      let head := atoms.head? = some .star
      let tail := atoms.getLast? = some .star
      let inner := (atoms.drop (if head then 1 else 0)).take
        (atoms.length - (if tail then 1 else 0) - (if head then 1 else 0))
      if atoms.length ≥ 2 then
        match literal inner with
        | some s =>
          if head then (if tail then .contains s else .suffix s)
          else if tail then .pre s else .automaton (.new atoms)
        | none => .automaton (.new atoms)
      else .automaton (.new atoms)

structure Glob where
  source : String
  kind : Kind

namespace Glob

def new (pattern : String) : Glob where
  source := pattern
  kind := match atoms pattern with
    | none => .never
    | some atoms => classify atoms

/-- A client's pattern, refused when longer than `MAX_PATTERN`. -/
def client (pattern : String) : Except String Glob :=
  if pattern.utf8ByteSize > MAX_PATTERN then
    .error s!"ERR patterns are at most {MAX_PATTERN} bytes long"
  else .ok (new pattern)

def matches_ (glob : Glob) (text : String) : Bool :=
  match glob.kind with
  | .any => true
  | .exact s => text.toList = s
  | .pre s => s <+: text.toList
  | .suffix s => s <:+ text.toList
  | .contains s => s <:+: text.toList
  | .never => false
  | .automaton a => a.matches_ text

end Glob

/-! ## What patterns match -/

/-- What one atom may stand for. -/
def Atom.Fits (atom : Atom) (part : List Char) : Prop :=
  atom = .star ∨ ∃ c, part = [c] ∧ atom.accepts c = true

/-- A text matches atoms when it is cut into what each of them may stand for. -/
def Matches (atoms : List Atom) (text : List Char) : Prop :=
  ∃ parts, List.Forall₂ Atom.Fits atoms parts ∧ parts.flatten = text

theorem matches_nil (text : List Char) : Matches [] text ↔ text = [] := by
  constructor
  · rintro ⟨parts, hFits, rfl⟩
    cases hFits
    rfl
  · rintro rfl
    exact ⟨[], .nil, rfl⟩

theorem matches_append (as bs : List Atom) (text : List Char) :
    Matches (as ++ bs) text ↔ ∃ u v, text = u ++ v ∧ Matches as u ∧ Matches bs v := by
  constructor
  · rintro ⟨parts, hFits, rfl⟩
    have hUs := List.forall₂_take as.length hFits
    have hVs := List.forall₂_drop as.length hFits
    rw [List.take_left] at hUs
    rw [List.drop_left] at hVs
    refine ⟨_, _, ?_, ⟨_, hUs, rfl⟩, ⟨_, hVs, rfl⟩⟩
    rw [← List.flatten_append, List.take_append_drop]
  · rintro ⟨-, -, rfl, ⟨us, hUs, rfl⟩, ⟨vs, hVs, rfl⟩⟩
    exact ⟨us ++ vs, List.rel_append hUs hVs, List.flatten_append⟩

theorem matches_star (text : List Char) : Matches [.star] text :=
  ⟨[text], .cons (.inl rfl) .nil, List.append_nil text⟩

theorem matches_single {atom : Atom} (hAtom : atom ≠ .star) (text : List Char) :
    Matches [atom] text ↔ ∃ c, text = [c] ∧ atom.accepts c = true := by
  constructor
  · rintro ⟨parts, hFits, rfl⟩
    obtain ⟨part, rest, hPart, hRest, rfl⟩ := List.forall₂_cons_left_iff.mp hFits
    cases hRest
    obtain ⟨c, rfl, hAccepts⟩ := hPart.resolve_left hAtom
    exact ⟨c, rfl, hAccepts⟩
  · rintro ⟨c, rfl, hAccepts⟩
    exact ⟨[[c]], .cons (.inr ⟨c, rfl, hAccepts⟩) .nil, rfl⟩

theorem matches_chars (s text : List Char) : Matches (s.map .char) text ↔ text = s := by
  induction s generalizing text with
  | nil => exact matches_nil text
  | cons c s ih =>
    rw [List.map_cons, ← List.singleton_append, matches_append]
    constructor
    · rintro ⟨u, v, rfl, hU, hV⟩
      obtain ⟨x, rfl, hAccepts⟩ := (matches_single (by simp) u).mp hU
      rw [(ih v).mp hV]
      simpa [Atom.accepts] using (beq_iff_eq.mp hAccepts).symm
    · rintro rfl
      exact ⟨[c], s, rfl, (matches_single (by simp) _).mpr ⟨c, rfl, by simp [Atom.accepts]⟩,
        (ih s).mpr rfl⟩

/-- A last atom other than a star takes the last character. -/
theorem matches_snoc {atom : Atom} (hAtom : atom ≠ .star) (as : List Atom) (text : List Char)
    (c : Char) :
    Matches (as ++ [atom]) (text ++ [c]) ↔ Matches as text ∧ atom.accepts c = true := by
  rw [matches_append]
  constructor
  · rintro ⟨u, v, hText, hU, hV⟩
    obtain ⟨x, rfl, hAccepts⟩ := (matches_single hAtom v).mp hV
    obtain ⟨rfl, hX⟩ := List.append_inj' hText rfl
    cases hX
    exact ⟨hU, hAccepts⟩
  · rintro ⟨hText, hAccepts⟩
    exact ⟨text, [c], rfl, hText, (matches_single hAtom _).mpr ⟨c, rfl, hAccepts⟩⟩

/-- A last star takes the last character, or nothing. -/
theorem matches_snoc_star (as : List Atom) (text : List Char) (c : Char) :
    Matches (as ++ [.star]) (text ++ [c]) ↔
      Matches (as ++ [.star]) text ∨ Matches as (text ++ [c]) := by
  simp only [matches_append as [.star]]
  constructor
  · rintro ⟨u, v, hText, hU, -⟩
    rcases List.eq_nil_or_concat v with rfl | ⟨v, x, rfl⟩
    · rw [List.append_nil] at hText
      exact .inr (hText ▸ hU)
    · rw [List.concat_eq_append, ← List.append_assoc] at hText
      obtain ⟨rfl, -⟩ := List.append_inj' hText rfl
      exact .inl ⟨u, v, rfl, hU, matches_star v⟩
  · rintro (⟨u, v, rfl, hU, -⟩ | hText)
    · exact ⟨u, v ++ [c], List.append_assoc .., hU, matches_star _⟩
    · exact ⟨text ++ [c], [], (List.append_nil _).symm, hText, matches_star []⟩

theorem matches_nil_snoc {atom : Atom} (hAtom : atom ≠ .star) (as : List Atom) :
    ¬ Matches (as ++ [atom]) [] := by
  rw [matches_append]
  rintro ⟨u, v, hText, -, hV⟩
  obtain ⟨c, rfl, -⟩ := (matches_single hAtom v).mp hV
  simp at hText

/-! ## The automaton's tables -/

/-- Numbering the atoms that have a property. -/
theorem bit_fold (p : Atom → Bool) (ws : List Words.Word) (as : List Atom) (start : Nat)
    (hFit : start + as.length ≤ 64 * ws.length) (j : Nat) :
    Words.bit ((as.zipIdx start).foldl
        (fun ws (x : Atom × Nat) => if p x.1 then Words.set_bit ws x.2 else ws) ws) j =
      (Words.bit ws j || (start ≤ j && (as[j - start]?).any p)) := by
  induction as generalizing ws start with
  | nil => simp
  | cons atom as ih =>
    rw [List.length_cons] at hFit
    rw [List.zipIdx_cons, List.foldl_cons]
    have hRest : ∀ ws' : List Words.Word, ws'.length = ws.length →
        start + 1 + as.length ≤ 64 * ws'.length := by
      intro ws' hLength
      omega
    by_cases hAtom : p atom = true
    · rw [if_pos hAtom, ih _ _ (hRest _ (Words.length_set_bit ..)),
        Words.bit_set_bit (by omega)]
      rcases Nat.lt_trichotomy start j with hLt | rfl | hGt
      · have hIndex : j - start = j - (start + 1) + 1 := by omega
        have hNe : (start == j) = false := by simpa using hLt.ne
        rw [hIndex, List.getElem?_cons_succ, hNe]
        simp [hLt.le, Nat.succ_le_of_lt hLt]
      · simp [hAtom]
      · have hNe : (start == j) = false := by simpa using hGt.ne'
        simp [hNe, Nat.not_le.mpr hGt, Nat.not_le.mpr (Nat.lt_succ_of_lt hGt)]
    · rw [if_neg hAtom, ih _ _ (hRest _ rfl)]
      rcases Nat.lt_trichotomy start j with hLt | rfl | hGt
      · have hIndex : j - start = j - (start + 1) + 1 := by omega
        rw [hIndex, List.getElem?_cons_succ]
        simp [hLt.le, Nat.succ_le_of_lt hLt]
      · simp [hAtom]
      · simp [Nat.not_le.mpr hGt, Nat.not_le.mpr (Nat.lt_succ_of_lt hGt)]

/-- Folding a pair whose halves do not meet. -/
theorem foldl_pair {α β γ : Type} (f : α → γ → α) (g : β → γ → β) (a : α) (b : β) (l : List γ) :
    l.foldl (fun (x : α × β) c => (f x.1 c, g x.2 c)) (a, b) = (l.foldl f a, l.foldl g b) := by
  induction l generalizing a b with
  | nil => rfl
  | cons c l ih => exact ih (f a c) (g b c)

/-- Folding with steps that keep how many words there are. -/
theorem length_foldl {γ : Type} (f : List Words.Word → γ → List Words.Word)
    (hStep : ∀ ws c, (f ws c).length = ws.length) (l : List γ) (ws : List Words.Word) :
    (l.foldl f ws).length = ws.length := by
  induction l generalizing ws with
  | nil => rfl
  | cons c l ih => exact (ih (f ws c)).trans (hStep ws c)

theorem length_ascii_bits (words : Nat) (atom : Atom) (i : Nat) (ascii : List Words.Word) :
    (ascii_bits words atom i ascii).length = ascii.length := by
  refine length_foldl _ (fun ws c => ?_) _ _
  split
  · exact Words.length_set_bit ..
  · rfl

/-- The rows of the table for ASCII do not overlap. -/
theorem row_beq {words i j : Nat} (hI : i < 64 * words) (hJ : j < 64 * words) (n c : Nat) :
    (64 * (n * words) + i == 64 * (c * words) + j) = (i == j && c == n) := by
  have hRows : 64 * (n * words) + i = 64 * (c * words) + j ↔ i = j ∧ c = n := by
    constructor
    · intro h
      have hMul : ∀ k, 64 * (k * words) = 64 * words * k := fun k => by ring
      rw [hMul, hMul] at h
      have hPos : 0 < 64 * words := by omega
      have hDiv := Nat.mul_add_div hPos n i
      have hDiv' := Nat.mul_add_div hPos c j
      rw [h, Nat.div_eq_of_lt hI] at hDiv
      rw [Nat.div_eq_of_lt hJ] at hDiv'
      obtain rfl : n = c := by omega
      exact ⟨by omega, rfl⟩
    · rintro ⟨rfl, rfl⟩
      rfl
  rw [Bool.eq_iff_iff]
  simpa using hRows

/-- Running over the first `n` characters for one atom. -/
theorem bit_ascii_run {words i : Nat} (hI : i < 64 * words) (atom : Atom)
    {ascii : List Words.Word} (hLength : ascii.length = 128 * words) {n : Nat} (hn : n ≤ 128)
    {result : List Words.Word}
    (hResult : result = (List.range n).foldl (fun ascii c => if atom.accepts (Char.ofNat c)
      then Words.set_bit ascii (64 * (c * words) + i) else ascii) ascii) :
    result.length = 128 * words ∧ ∀ c j, j < 64 * words →
      Words.bit result (64 * (c * words) + j) = (Words.bit ascii (64 * (c * words) + j) ||
        (i == j && c < n && atom.accepts (Char.ofNat c))) := by
  -- on the characters gone over: each sets its own bit, where the atom accepts it
  induction n generalizing result with
  | zero => simp [hResult, hLength]
  | succ n ih =>
    rw [List.range_succ, List.foldl_concat] at hResult
    obtain ⟨hLen, hBits⟩ := ih (by omega) rfl
    have hLast : ∀ c, (decide (c < n + 1)) = (decide (c < n) || c == n) := by
      intro c
      rw [Bool.eq_iff_iff]
      simp
      omega
    have hRoom : 64 * (n * words) + i < 64 * (128 * words) := by
      have hLe : (n + 1) * words ≤ 128 * words := Nat.mul_le_mul_right _ hn
      rw [Nat.succ_mul] at hLe
      omega
    split at hResult
    · next hAccepts =>
      rw [hResult]
      refine ⟨by rw [Words.length_set_bit, hLen], fun c j hj => ?_⟩
      rw [Words.bit_set_bit (hLen ▸ hRoom), hBits c j hj, row_beq hI hj, hLast c]
      by_cases hc : c = n
      · subst hc
        simp [hAccepts]
      · have hNe : (c == n) = false := by simpa using hc
        simp [hNe]
    · next hRefuses =>
      rw [hResult]
      refine ⟨hLen, fun c j hj => ?_⟩
      rw [hBits c j hj, hLast c]
      by_cases hc : c = n
      · subst hc
        simp [hRefuses]
      · have hNe : (c == n) = false := by simpa using hc
        simp [hNe]

theorem bit_ascii_bits {words i : Nat} (hI : i < 64 * words) (atom : Atom)
    {ascii : List Words.Word} (hLength : ascii.length = 128 * words) :
    (ascii_bits words atom i ascii).length = 128 * words ∧
    ∀ c j, c < 128 → j < 64 * words →
      Words.bit (ascii_bits words atom i ascii) (64 * (c * words) + j) =
        (Words.bit ascii (64 * (c * words) + j) || (i == j && atom.accepts (Char.ofNat c))) := by
  obtain ⟨hLen, hBits⟩ := bit_ascii_run hI atom hLength le_rfl rfl
  refine ⟨hLen, fun c j hc hj => ?_⟩
  rw [ascii_bits, hBits c j hj]
  simp [hc]

/-- Every atom's rows. -/
theorem bit_ascii_fold {words : Nat} (as : List Atom) (start : Nat)
    (hFit : start + as.length ≤ 64 * words) {ascii : List Words.Word}
    (hLength : ascii.length = 128 * words) {c j : Nat} (hc : c < 128) (hj : j < 64 * words) :
    Words.bit ((as.zipIdx start).foldl (fun ascii (x : Atom × Nat) =>
        if x.1 = .star then ascii else ascii_bits words x.1 x.2 ascii) ascii)
        (64 * (c * words) + j) =
      (Words.bit ascii (64 * (c * words) + j) ||
        (start ≤ j && (as[j - start]?).any fun a => a ≠ .star && a.accepts (Char.ofNat c))) := by
  induction as generalizing ascii start with
  | nil => simp
  | cons atom as ih =>
    rw [List.length_cons] at hFit
    rw [List.zipIdx_cons, List.foldl_cons]
    have hNext : start < j → (atom :: as)[j - start]? = as[j - (start + 1)]? := by
      intro hLt
      rw [show j - start = j - (start + 1) + 1 by omega, List.getElem?_cons_succ]
    by_cases hStar : atom = .star
    · rw [if_pos hStar, ih _ (by omega) hLength]
      rcases Nat.lt_trichotomy start j with hLt | rfl | hGt
      · rw [hNext hLt]
        simp [hLt.le, Nat.succ_le_of_lt hLt]
      · simp [hStar]
      · simp [Nat.not_le.mpr hGt, Nat.not_le.mpr (Nat.lt_succ_of_lt hGt)]
    · obtain ⟨hLen, hBits⟩ := bit_ascii_bits (i := start) (by omega) atom hLength
      rw [if_neg hStar, ih _ (by omega) hLen, hBits c j hc hj]
      rcases Nat.lt_trichotomy start j with hLt | rfl | hGt
      · have hNe : (start == j) = false := by simpa using hLt.ne
        rw [hNext hLt, hNe]
        simp [hLt.le, Nat.succ_le_of_lt hLt]
      · simp [hStar]
      · have hNe : (start == j) = false := by simpa using hGt.ne'
        simp [hNe, Nat.not_le.mpr hGt, Nat.not_le.mpr (Nat.lt_succ_of_lt hGt)]

namespace Automaton

theorem new_eq (as : List Atom) :
    Automaton.new as =
      { atoms := as
        words := as.length / 64 + 1
        stars := as.zipIdx.foldl
          (fun ws (x : Atom × Nat) => if x.1 = .star then Words.set_bit ws x.2 else ws)
          (List.replicate (as.length / 64 + 1) 0#64)
        ascii := as.zipIdx.foldl
          (fun ascii (x : Atom × Nat) =>
            if x.1 = .star then ascii else ascii_bits (as.length / 64 + 1) x.1 x.2 ascii)
          (List.replicate (128 * (as.length / 64 + 1)) 0#64) } := by
  have hStep : (fun (p : List Words.Word × List Words.Word) (x : Atom × Nat) =>
      if x.1 = .star then (Words.set_bit p.1 x.2, p.2)
      else (p.1, ascii_bits (as.length / 64 + 1) x.1 x.2 p.2)) =
      fun p x => (if x.1 = .star then Words.set_bit p.1 x.2 else p.1,
        if x.1 = .star then p.2 else ascii_bits (as.length / 64 + 1) x.1 x.2 p.2) := by
    funext p x
    split <;> rfl
  unfold Automaton.new
  dsimp only
  rw [hStep, foldl_pair (fun ws (x : Atom × Nat) => if x.1 = .star then Words.set_bit ws x.2 else ws)
    (fun ascii (x : Atom × Nat) =>
      if x.1 = .star then ascii else ascii_bits (as.length / 64 + 1) x.1 x.2 ascii)]

theorem length_stars (as : List Atom) : (new as).stars.length = as.length / 64 + 1 := by
  rw [new_eq]
  refine (length_foldl _ (fun ws x => ?_) _ _).trans (List.length_replicate ..)
  split
  · exact Words.length_set_bit ..
  · rfl

theorem length_ascii (as : List Atom) : (new as).ascii.length = 128 * (as.length / 64 + 1) := by
  rw [new_eq]
  refine (length_foldl _ (fun ws x => ?_) _ _).trans (List.length_replicate ..)
  split
  · rfl
  · exact length_ascii_bits ..

/-- The stars of the table are those of the pattern. -/
theorem bit_stars (as : List Atom) (i : Nat) :
    Words.bit (new as).stars i = (as[i]?).any fun a => a = .star := by
  rw [new_eq]
  have hFold := bit_fold (fun a => a = .star) (List.replicate (as.length / 64 + 1) 0#64) as 0
    (by simp; omega) i
  simpa [Words.bit_replicate] using hFold

/-- The characters of the table are accepted as the atoms accept them. -/
theorem bit_accepts (as : List Atom) (c : Char) {i : Nat} (hI : i < 64 * (as.length / 64 + 1)) :
    Words.bit ((new as).accepts c) i = (as[i]?).any fun a => a ≠ .star && a.accepts c := by
  unfold accepts
  split
  · next hAscii =>
    rw [new_eq]
    have hRow : ∀ ws : List Words.Word, Words.bit ((ws.drop (c.toNat * (as.length / 64 + 1))).take
        (as.length / 64 + 1)) i = Words.bit ws (64 * (c.toNat * (as.length / 64 + 1)) + i) := by
      intro ws
      unfold Words.bit
      rw [List.getElem?_take_of_lt (by omega), List.getElem?_drop,
        Nat.mul_add_div (by omega), Nat.mul_add_mod]
    rw [hRow, bit_ascii_fold as 0 (by omega) (List.length_replicate ..) hAscii hI,
      Words.bit_replicate, Char.ofNat_toNat]
    simp
  · rw [new_eq]
    have hFold := bit_fold (fun a => a ≠ .star ∧ a.accepts c)
      (List.replicate (as.length / 64 + 1) 0#64) as 0 (by simp; omega) i
    simpa [Words.bit_replicate] using hFold

theorem length_accepts (as : List Atom) (c : Char) :
    ((new as).accepts c).length = as.length / 64 + 1 := by
  unfold accepts
  split
  · next hAscii =>
    have hLength := length_ascii as
    have hWords : (new as).words = as.length / 64 + 1 := by rw [new_eq]
    rw [List.length_take, List.length_drop, hLength, hWords]
    have hLe : (c.toNat + 1) * (as.length / 64 + 1) ≤ 128 * (as.length / 64 + 1) :=
      Nat.mul_le_mul_right _ hAscii
    rw [Nat.succ_mul] at hLe
    omega
  · rw [new_eq]
    refine (length_foldl _ (fun ws x => ?_) _ _).trans (List.length_replicate ..)
    obtain ⟨atom, i⟩ := x
    dsimp only
    split
    · exact Words.length_set_bit ..
    · rfl

end Automaton

/-! ## Running the automaton -/

/-- Atom `i` is a star. -/
def star_at (as : List Atom) (i : Nat) : Prop := as[i]? = some .star

instance (as : List Atom) (i : Nat) : Decidable (star_at as i) :=
  inferInstanceAs (Decidable (as[i]? = some .star))

/-- Runs of stars are merged. -/
def Merged (as : List Atom) : Prop := ∀ i, star_at as i → ¬ star_at as (i + 1)

/-- State `i` is live after a text: the first `i` atoms match it, the star after them
included. -/
def Live (as : List Atom) (i : Nat) (text : List Char) : Prop :=
  i ≤ as.length ∧ Matches (as.take (if star_at as i then i + 1 else i)) text

/-- State `i` is live after one more character, before closing. -/
def Advances (as : List Atom) (i : Nat) (text : List Char) (c : Char) : Prop :=
  (∃ k a, i = k + 1 ∧ Live as k text ∧ as[k]? = some a ∧ a ≠ .star ∧ a.accepts c = true) ∨
    star_at as i ∧ Live as i text

theorem take_star {as : List Atom} {i : Nat} (hStar : star_at as i) :
    as.take (i + 1) = as.take i ++ [.star] := by
  rw [List.take_add_one, hStar]
  rfl

/-- The atom before a state takes the last character. -/
theorem matches_take_snoc {as : List Atom} {k : Nat} (hNot : ¬ star_at as k) (hLe : k + 1 ≤ as.length)
    (text : List Char) (c : Char) :
    Matches (as.take (k + 1)) (text ++ [c]) ↔
      ∃ a, Live as k text ∧ as[k]? = some a ∧ a ≠ .star ∧ a.accepts c = true := by
  have hGet : as[k]? = some as[k] := List.getElem?_eq_getElem hLe
  have hAtom : as[k] ≠ .star := fun h => hNot (by rw [star_at, hGet, h])
  rw [List.take_add_one, hGet, Option.toList_some, matches_snoc hAtom]
  constructor
  · rintro ⟨hText, hAccepts⟩
    exact ⟨as[k], ⟨by omega, by rwa [if_neg hNot]⟩, rfl, hAtom, hAccepts⟩
  · rintro ⟨a, ⟨-, hText⟩, hA, -, hAccepts⟩
    rw [if_neg hNot] at hText
    cases hA
    exact ⟨hText, hAccepts⟩

/-- A state whose atom before it is no star. -/
theorem live_snoc {as : List Atom} {i : Nat} (hNot : ∀ k, i = k + 1 → ¬ star_at as k)
    (text : List Char) (c : Char) : Live as i (text ++ [c]) ↔ Advances as i text c := by
  -- the atoms up to here take the last character only by the last of them
  have hShort : ∀ (hLe : i ≤ as.length), Matches (as.take i) (text ++ [c]) ↔
      ∃ k a, i = k + 1 ∧ Live as k text ∧ as[k]? = some a ∧ a ≠ .star ∧ a.accepts c = true := by
    intro hLe
    cases i with
    | zero =>
      rw [List.take_zero, matches_nil]
      simp
    | succ k =>
      rw [matches_take_snoc (hNot k rfl) hLe]
      constructor
      · rintro ⟨a, hA⟩
        exact ⟨k, a, rfl, hA⟩
      · rintro ⟨k', a, hK, hA⟩
        cases hK
        exact ⟨a, hA⟩
  unfold Advances
  -- a star is live with what is before it, and stays live
  by_cases hStar : star_at as i
  · have hLe : i ≤ as.length := (List.getElem?_eq_some_iff.mp hStar).1.le
    rw [← hShort hLe]
    unfold Live
    rw [if_pos hStar, take_star hStar, matches_snoc_star]
    constructor
    · rintro ⟨-, hText | hText⟩
      · exact .inr ⟨hStar, hLe, hText⟩
      · exact .inl hText
    · rintro (hText | ⟨-, -, hText⟩)
      · exact ⟨hLe, .inr hText⟩
      · exact ⟨hLe, .inl hText⟩
  · constructor
    · rintro ⟨hLe, hText⟩
      rw [if_neg hStar] at hText
      exact .inl ((hShort hLe).mp hText)
    · rintro (⟨k, a, rfl, hLive, hA, hRest⟩ | ⟨hStar', -⟩)
      · have hLe : k + 1 ≤ as.length := (List.getElem?_eq_some_iff.mp hA).1
        refine ⟨hLe, ?_⟩
        rw [if_neg hStar]
        exact (hShort hLe).mpr ⟨k, a, rfl, hLive, hA, hRest⟩
      · exact absurd hStar' hStar

/-- **One more character.** A state after a star is live when the star's is. -/
theorem live_step {as : List Atom} (hMerged : Merged as) (i : Nat) (text : List Char) (c : Char) :
    Live as i (text ++ [c]) ↔
      Advances as i text c ∨ ∃ k, i = k + 1 ∧ star_at as k ∧ Advances as k text c := by
  by_cases hStar : ∃ k, i = k + 1 ∧ star_at as k
  · obtain ⟨k, rfl, hStar⟩ := hStar
    have hNext : ¬ star_at as (k + 1) := hMerged k hStar
    have hBefore : ∀ j, k = j + 1 → ¬ star_at as j := by
      rintro j rfl hj
      exact hMerged j hj hStar
    have hSame : Live as (k + 1) (text ++ [c]) ↔ Live as k (text ++ [c]) := by
      have hLt : k < as.length := (List.getElem?_eq_some_iff.mp hStar).1
      unfold Live
      rw [if_neg hNext, if_pos hStar]
      exact and_congr_left fun _ => ⟨fun _ => hLt.le, fun _ => hLt⟩
    rw [hSame, live_snoc hBefore]
    constructor
    · exact fun h => .inr ⟨k, rfl, hStar, h⟩
    · rintro ((⟨j, a, hJ, -, hA, hNot, -⟩ | ⟨hStar', -⟩) | ⟨j, hJ, -, h⟩)
      · cases hJ
        rw [hStar] at hA
        cases hA
        exact absurd rfl hNot
      · exact absurd hStar' hNext
      · cases hJ
        exact h
  · have hNot : ∀ k, i = k + 1 → ¬ star_at as k := fun k hk h => hStar ⟨k, hk, h⟩
    rw [live_snoc hNot]
    refine ⟨.inl, fun h => h.resolve_right ?_⟩
    rintro ⟨k, hk, hs, -⟩
    exact hNot k hk hs

/-- Before any text, the first state is live, and the one after a leading star. -/
theorem live_nil {as : List Atom} (hMerged : Merged as) (i : Nat) :
    Live as i [] ↔ i = 0 ∨ i = 1 ∧ star_at as 0 := by
  constructor
  · rintro ⟨hLe, hText⟩
    -- the last of the atoms matched is a star, so the one before it is none
    by_contra hOther
    obtain ⟨hZero, hOne⟩ := not_or.mp hOther
    obtain ⟨k, rfl⟩ := Nat.exists_eq_succ_of_ne_zero hZero
    have hNoStar : ∀ j, j < as.length → ¬ star_at as j → ¬ Matches (as.take (j + 1)) [] := by
      intro j hj hNot
      have hGet : as[j]? = some as[j] := List.getElem?_eq_getElem hj
      rw [List.take_add_one, hGet]
      exact matches_nil_snoc (fun h => hNot (by rw [star_at, hGet, h])) _
    have hStarred : ∀ j, star_at as (j + 1) → ¬ Matches (as.take (j + 2)) [] := by
      intro j hj hText
      rw [take_star hj, matches_append] at hText
      obtain ⟨u, v, hNil, hU, -⟩ := hText
      obtain ⟨rfl, -⟩ := List.append_eq_nil_iff.mp hNil.symm
      have hLt : j < as.length := by
        have := (List.getElem?_eq_some_iff.mp hj).1
        omega
      exact hNoStar j hLt (fun h => hMerged j h hj) hU
    by_cases hStar : star_at as (k + 1)
    · rw [if_pos hStar] at hText
      exact hStarred k hStar hText
    · rw [if_neg hStar] at hText
      by_cases hLast : star_at as k
      · cases k with
        | zero => exact hOne ⟨rfl, hLast⟩
        | succ k => exact hStarred k hLast hText
      · exact hNoStar k hLe hLast hText
  · rintro (rfl | ⟨rfl, hStar⟩)
    · refine ⟨Nat.zero_le _, ?_⟩
      split
      · next hStar =>
        rw [take_star hStar]
        exact matches_star []
      · exact (matches_nil _).mpr rfl
    · refine ⟨(List.getElem?_eq_some_iff.mp hStar).1, ?_⟩
      rw [if_neg (hMerged 0 hStar), take_star hStar]
      exact matches_star []

namespace Automaton

/-- The words hold exactly the states that are live after a text. -/
structure Holds (as : List Atom) (state : List Words.Word) (text : List Char) : Prop where
  length : state.length = as.length / 64 + 1
  bits : ∀ i < 64 * (as.length / 64 + 1), Words.bit state i = true ↔ Live as i text

variable {as : List Atom}

theorem bit_and (vs ws : List Words.Word) (hLength : vs.length = ws.length) {i : Nat}
    (hI : i < 64 * vs.length) :
    Words.bit (List.zipWith (· &&& ·) vs ws) i = (Words.bit vs i && Words.bit ws i) :=
  Words.bit_zipWith _ _ (fun _ _ _ _ => BitVec.getLsbD_and) hLength hI

theorem bit_or (vs ws : List Words.Word) (hLength : vs.length = ws.length) {i : Nat}
    (hI : i < 64 * vs.length) :
    Words.bit (List.zipWith (· ||| ·) vs ws) i = (Words.bit vs i || Words.bit ws i) :=
  Words.bit_zipWith _ _ (fun _ _ _ _ => BitVec.getLsbD_or) hLength hI

/-- Moving states up by one, none coming in. -/
theorem bit_up (ws : List Words.Word) {i : Nat} (hI : i < 64 * ws.length) :
    Words.bit (Words.shift 0#64 ws) i = true ↔ ∃ k, i = k + 1 ∧ Words.bit ws k = true := by
  rw [Words.bit_shift (fun j _ => by simp) ws hI]
  unfold Words.incoming
  cases i with
  | zero => simp
  | succ k => simp

/-- Closing adds the states after the stars that are live. -/
theorem bit_close {state : List Words.Word} (hLength : state.length = as.length / 64 + 1) {i : Nat}
    (hI : i < 64 * (as.length / 64 + 1)) :
    ((new as).close state).length = as.length / 64 + 1 ∧
    (Words.bit ((new as).close state) i = true ↔ Words.bit state i = true ∨
      ∃ k, i = k + 1 ∧ star_at as k ∧ Words.bit state k = true) := by
  have hStars := length_stars as
  have hBoth : (List.zipWith (· &&& ·) state (new as).stars).length = as.length / 64 + 1 := by
    rw [List.length_zipWith, hLength, hStars, Nat.min_self]
  unfold close
  refine ⟨by rw [List.length_zipWith, Words.length_shift, hBoth, hLength, Nat.min_self], ?_⟩
  rw [bit_or _ _ (by rw [hLength, Words.length_shift, hBoth]) (hLength ▸ hI), Bool.or_eq_true,
    bit_up _ (hBoth ▸ hI)]
  refine or_congr_right (exists_congr fun k => and_congr_right fun hK => ?_)
  rw [bit_and _ _ (hLength.trans hStars.symm) (by omega), bit_stars, Bool.and_eq_true]
  unfold star_at
  cases as[k]? <;> simp [and_comm]

theorem bit_next {state : List Words.Word} {text : List Char} (hState : Holds as state text)
    (c : Char) :
    ((new as).next state c).length = as.length / 64 + 1 ∧
    ∀ i < 64 * (as.length / 64 + 1),
      Words.bit ((new as).next state c) i = true ↔ Advances as i text c := by
  have hLength := hState.length
  have hStars := length_stars as
  have hAccepts := length_accepts as c
  have hBoth : (List.zipWith (· &&& ·) state (new as).stars).length = as.length / 64 + 1 := by
    rw [List.length_zipWith, hLength, hStars, Nat.min_self]
  have hMoved : (List.zipWith (· &&& ·) state ((new as).accepts c)).length =
      as.length / 64 + 1 := by
    rw [List.length_zipWith, hLength, hAccepts, Nat.min_self]
  unfold next
  refine ⟨by rw [List.length_zipWith, Words.length_shift, hMoved, hBoth, Nat.min_self],
    fun i hI => ?_⟩
  rw [bit_or _ _ (by rw [Words.length_shift, hMoved, hBoth])
      (by rw [Words.length_shift, hMoved]; exact hI), Bool.or_eq_true, bit_up _ (hMoved ▸ hI),
    bit_and _ _ (hLength.trans hStars.symm) (hLength ▸ hI), bit_stars, Bool.and_eq_true,
    hState.bits i hI]
  unfold Advances
  refine or_congr (exists_congr fun k => ?_) ?_
  · constructor
    · rintro ⟨rfl, hBit⟩
      rw [bit_and _ _ (hLength.trans hAccepts.symm) (by omega), Bool.and_eq_true,
        hState.bits k (by omega), bit_accepts as c (by omega), Option.any_eq_true] at hBit
      obtain ⟨hLive, a, hA, hTakes⟩ := hBit
      rw [Bool.and_eq_true, decide_eq_true_eq] at hTakes
      exact ⟨a, rfl, hLive, hA, hTakes.1, hTakes.2⟩
    · rintro ⟨a, rfl, hLive, hA, hNot, hTakes⟩
      refine ⟨rfl, ?_⟩
      rw [bit_and _ _ (hLength.trans hAccepts.symm) (by omega), Bool.and_eq_true,
        hState.bits k (by omega), bit_accepts as c (by omega), hA]
      exact ⟨hLive, by simp [hNot, hTakes]⟩
  · unfold star_at
    cases as[i]? <;> simp [and_comm]

/-- **One character**: the states live after it are those the words hold. -/
theorem holds_step (hMerged : Merged as) {state : List Words.Word} {text : List Char}
    (hState : Holds as state text) (c : Char) :
    Holds as ((new as).close ((new as).next state c)) (text ++ [c]) := by
  obtain ⟨hLength, hBits⟩ := bit_next hState c
  refine ⟨(bit_close hLength (i := 0) (by omega)).1, fun i hI => ?_⟩
  rw [(bit_close hLength hI).2, hBits i hI, live_step hMerged]
  refine or_congr_right (exists_congr fun k => and_congr_right fun hK => and_congr_right fun _ => ?_)
  exact hBits k (by omega)

/-- With no state live, none comes alive. -/
theorem dead_step (hMerged : Merged as) {text : List Char} (hDead : ∀ i, ¬ Live as i text)
    (more : List Char) (i : Nat) : ¬ Live as i (text ++ more) := by
  induction more generalizing text with
  | nil => rw [List.append_nil]; exact hDead i
  | cons c more ih =>
    rw [List.append_cons]
    refine ih fun i hLive => ?_
    have hNone : ∀ k, ¬ Advances as k text c := by
      rintro k (⟨j, a, -, hLive, -⟩ | ⟨-, hLive⟩)
      · exact hDead j hLive
      · exact hDead k hLive
    rcases (live_step hMerged i text c).mp hLive with h | ⟨k, -, -, h⟩
    · exact hNone i h
    · exact hNone k h

theorem run_holds (hMerged : Merged as) {state : List Words.Word} {text : List Char}
    (hState : Holds as state text) (more : List Char) :
    (new as).run state more = true ↔ Matches as (text ++ more) := by
  have hEnd : ∀ t, Live as as.length t ↔ Matches as t := by
    intro t
    have hNot : ¬ star_at as as.length := by
      unfold star_at
      rw [List.getElem?_eq_none le_rfl]
      exact fun h => nomatch h
    unfold Live
    rw [if_neg hNot, List.take_length]
    exact and_iff_right le_rfl
  induction more generalizing state text with
  | nil =>
    have hAtoms : (new as).atoms = as := by rw [new_eq]
    show Words.bit state (new as).atoms.length = true ↔ _
    rw [hAtoms, hState.bits _ (by omega), hEnd, List.append_nil]
  | cons c more ih =>
    unfold run
    dsimp only
    split
    · next hZero =>
      -- no state is left
      obtain ⟨hLength, hBits⟩ := bit_next hState c
      have hEmpty : ∀ i, Words.bit ((new as).next state c) i = false := by
        intro i
        unfold Words.bit
        cases hGet : ((new as).next state c)[i / 64]? with
        | none => simp
        | some w =>
          have hW := List.all_eq_true.mp hZero w (List.mem_of_getElem? hGet)
          simp [beq_iff_eq.mp hW]
      have hNone : ∀ i, ¬ Live as i (text ++ [c]) := by
        intro i hLive
        have hLe := hLive.1
        rcases (live_step hMerged i text c).mp hLive with h | ⟨k, rfl, -, h⟩
        · have := (hBits i (by omega)).mpr h
          rw [hEmpty] at this
          cases this
        · have := (hBits k (by omega)).mpr h
          rw [hEmpty] at this
          cases this
      rw [← hEnd, List.append_cons]
      exact iff_of_false (fun h => nomatch h) (dead_step hMerged hNone more _)
    · rw [List.append_cons]
      exact ih (holds_step hMerged hState c)

/-- **The automaton matches what its atoms match.** -/
theorem matches_iff (hMerged : Merged as) (text : String) :
    (new as).matches_ text = true ↔ Matches as text.toList := by
  have hWords : (new as).words = as.length / 64 + 1 := by rw [new_eq]
  have hFirst : Holds as ((new as).close
      (Words.set_bit (List.replicate (new as).words 0#64) 0)) [] := by
    have hLength : (Words.set_bit (List.replicate (new as).words 0#64) 0).length =
        as.length / 64 + 1 := by
      rw [Words.length_set_bit, List.length_replicate, hWords]
    have hBit : ∀ j, Words.bit (Words.set_bit (List.replicate (new as).words 0#64) 0) j = true ↔
        j = 0 := by
      intro j
      rw [Words.bit_set_bit (by rw [List.length_replicate, hWords]; omega), Words.bit_replicate,
        Bool.false_or, beq_iff_eq, eq_comm]
    refine ⟨(bit_close hLength (i := 0) (by omega)).1, fun i hI => ?_⟩
    rw [(bit_close hLength hI).2, hBit, live_nil hMerged]
    refine or_congr_right ⟨?_, ?_⟩
    · rintro ⟨k, rfl, hStar, hK⟩
      obtain rfl := (hBit k).mp hK
      exact ⟨rfl, hStar⟩
    · rintro ⟨rfl, hStar⟩
      exact ⟨0, rfl, hStar, (hBit 0).mpr rfl⟩
  exact run_holds hMerged hFirst text.toList

end Automaton

/-! ## Compiled patterns match what their atoms match -/

theorem literal_eq {as : List Atom} {s : List Char} (h : literal as = some s) :
    as = s.map .char := by
  induction as generalizing s with
  | nil =>
    cases h
    rfl
  | cons a as ih =>
    unfold literal at h
    rw [List.mapM_cons] at h
    cases a with
    | char c =>
      obtain ⟨rest, hRest, hS⟩ := Option.bind_eq_some_iff.mp (show (literal as).bind
        (fun rest => some (c :: rest)) = some s from h)
      cases hS
      rw [ih hRest]
      rfl
    | _ => cases h

/-- The stars at the ends, and what is between. -/
theorem split_ends {as : List Atom} (hTwo : as.length ≥ 2) :
    as = (if as.head? = some .star then [.star] else []) ++
      (as.drop (if as.head? = some .star then 1 else 0)).take
        (as.length - (if as.getLast? = some .star then 1 else 0) -
          (if as.head? = some .star then 1 else 0)) ++
      (if as.getLast? = some .star then [.star] else []) := by
  obtain ⟨a, mid, b, rfl⟩ : ∃ a mid b, as = a :: (mid ++ [b]) := by
    match as, hTwo with
    | a :: x :: rest, _ =>
      exact ⟨a, (x :: rest).dropLast, (x :: rest).getLast (by simp),
        by rw [List.dropLast_append_getLast]⟩
  have hHead : (a :: (mid ++ [b])).head? = some .star ↔ a = .star := by simp
  have hLast : (a :: (mid ++ [b])).getLast? = some .star ↔ b = .star := by
    rw [← List.cons_append, List.getLast?_concat]
    simp
  simp only [hHead, hLast]
  have hTake : ∀ l : List Atom, (l ++ [b]).take l.length = l := fun l => List.take_left
  by_cases hA : a = .star
  · by_cases hB : b = .star
    · subst hA hB
      simp
    · simp [hA, hB]
  · by_cases hB : b = .star
    · have hMid := hTake (a :: mid)
      simp [hA, hB] at hMid ⊢
    · simp [hA, hB]

theorem matches_start_iff (s text : List Char) :
    Matches (s.map .char ++ [.star]) text ↔ s <+: text := by
  rw [matches_append]
  constructor
  · rintro ⟨u, v, rfl, hU, -⟩
    rw [(matches_chars s u).mp hU]
    exact List.prefix_append ..
  · rintro ⟨v, rfl⟩
    exact ⟨s, v, rfl, (matches_chars s s).mpr rfl, matches_star v⟩

theorem matches_suffix_iff (s text : List Char) :
    Matches ([.star] ++ s.map .char) text ↔ s <:+ text := by
  rw [matches_append]
  constructor
  · rintro ⟨u, v, rfl, -, hV⟩
    rw [(matches_chars s v).mp hV]
    exact List.suffix_append ..
  · rintro ⟨u, rfl⟩
    exact ⟨u, s, rfl, matches_star u, (matches_chars s s).mpr rfl⟩

theorem matches_infix_iff (s text : List Char) :
    Matches ([.star] ++ s.map .char ++ [.star]) text ↔ s <:+: text := by
  rw [List.append_assoc, matches_append]
  constructor
  · rintro ⟨u, v, rfl, -, hV⟩
    exact ((matches_start_iff s v).mp hV).isInfix.trans (List.suffix_append ..).isInfix
  · rintro ⟨u, v, rfl⟩
    exact ⟨u, s ++ v, List.append_assoc .., matches_star u,
      (matches_start_iff s _).mpr (List.prefix_append ..)⟩

/-- **The shortcuts are no change.** -/
theorem classify_matches {as : List Atom} (hMerged : Merged as) (source text : String) :
    ({ source, kind := classify as } : Glob).matches_ text = true ↔ Matches as text.toList := by
  have hAutomaton := Automaton.matches_iff hMerged text
  unfold classify
  split
  · next hAny =>
    rw [hAny]
    exact iff_of_true rfl (matches_star _)
  · split
    · next s hLiteral =>
      rw [literal_eq hLiteral, matches_chars]
      exact decide_eq_true_iff
    · dsimp only
      split
      · next hTwo =>
        have hSplit := split_ends hTwo
        split
        · next s hInner =>
          rw [literal_eq hInner] at hSplit
          by_cases hHead : as.head? = some .star
          · by_cases hTail : as.getLast? = some .star
            · rw [if_pos hHead, if_pos hTail] at hSplit ⊢
              rw [hSplit, matches_infix_iff]
              exact decide_eq_true_iff
            · rw [if_pos hHead, if_neg hTail] at hSplit ⊢
              rw [hSplit, List.append_nil, matches_suffix_iff]
              exact decide_eq_true_iff
          · by_cases hTail : as.getLast? = some .star
            · rw [if_neg hHead, if_pos hTail] at hSplit ⊢
              rw [hSplit, List.nil_append, matches_start_iff]
              exact decide_eq_true_iff
            · rw [if_neg hHead, if_neg hTail]
              exact hAutomaton
        · exact hAutomaton
      · exact hAutomaton

/-! ## What a pattern's matches start with -/

/-- The text every match of a glob pattern starts with: everything before its first
wildcard or escape. -/
def literal_prefix_ (pattern : String) : String :=
  String.ofList (pattern.toList.takeWhile fun c => c ∉ ['*', '?', '[', '\\'])

theorem Merged.append {as : List Atom} (hMerged : Merged as) {a : Atom}
    (hLast : a = .star → as.getLast? ≠ some .star) : Merged (as ++ [a]) := by
  intro i hStar hNext
  unfold star_at at hStar hNext
  rcases Nat.lt_trichotomy (i + 1) as.length with hLt | hEq | hGt
  · rw [List.getElem?_append_left (by omega)] at hStar
    rw [List.getElem?_append_left hLt] at hNext
    exact hMerged i hStar hNext
  · rw [List.getElem?_append_left (by omega)] at hStar
    rw [hEq, List.getElem?_concat_length] at hNext
    refine hLast (Option.some.inj hNext) ?_
    rw [List.getLast?_eq_getElem?, ← hStar, ← hEq]
    rfl
  · rw [List.getElem?_eq_none (by simp; omega)] at hNext
    cases hNext

theorem class_ne_star {p next : List Char} {atom : Atom} (h : class_ p = some (atom, next)) :
    atom ≠ .star := by
  obtain ⟨⟨ranges, rest⟩, -, hFound⟩ := Option.map_eq_some_iff.mp h
  cases hFound
  exact fun hStar => nomatch hStar

/-- What is read stays as it is, and stars stay merged. -/
theorem atoms_from_out {out as : List Atom} {p : List Char} (hMerged : Merged out)
    (h : atoms_from out p = some as) : Merged as ∧ out <+: as := by
  have hAppend : ∀ {out : List Atom} {a : Atom}, out ++ [a] <+: as → out <+: as :=
    fun h => (List.prefix_append ..).trans h
  fun_induction atoms_from out p with
  | case1 out =>
    cases h
    exact ⟨hMerged, List.prefix_refl _⟩
  | case2 out p ih =>
    split at ih
    · next hLast =>
      rw [if_pos hLast] at h
      exact ih hMerged h
    · next hLast =>
      rw [if_neg hLast] at h
      obtain ⟨hMerged', hPrefix⟩ := ih (hMerged.append fun _ => hLast) h
      exact ⟨hMerged', hAppend hPrefix⟩
  | case3 out p ih =>
    obtain ⟨hMerged', hPrefix⟩ := ih (hMerged.append fun hA => nomatch hA) h
    exact ⟨hMerged', hAppend hPrefix⟩
  | case4 out p hClass => cases h
  | case5 out p atom next hClass ih =>
    obtain ⟨hMerged', hPrefix⟩ := ih (hMerged.append fun hA => absurd hA (class_ne_star hClass)) h
    exact ⟨hMerged', hAppend hPrefix⟩
  | case6 out c p ih =>
    obtain ⟨hMerged', hPrefix⟩ := ih (hMerged.append fun hA => nomatch hA) h
    exact ⟨hMerged', hAppend hPrefix⟩
  | case7 out c p hStar hOne hClass hEscape ih =>
    obtain ⟨hMerged', hPrefix⟩ := ih (hMerged.append fun hA => nomatch hA) h
    exact ⟨hMerged', hAppend hPrefix⟩

theorem merged_atoms {pattern : String} {as : List Atom} (h : atoms pattern = some as) :
    Merged as :=
  (atoms_from_out (fun _ hStar => by simp [star_at] at hStar) h).1

/-- **A compiled pattern matches what its atoms match**, and nothing when a class is
never closed. -/
theorem new_matches (pattern text : String) :
    (Glob.new pattern).matches_ text = true ↔
      ∃ as, atoms pattern = some as ∧ Matches as text.toList := by
  cases h : atoms pattern with
  | none =>
    have hNew : Glob.new pattern = { source := pattern, kind := .never } := by
      unfold Glob.new
      rw [h]
    rw [hNew]
    exact iff_of_false (fun h => nomatch h) (by simp)
  | some as =>
    have hNew : Glob.new pattern = { source := pattern, kind := classify as } := by
      unfold Glob.new
      rw [h]
    rw [hNew, classify_matches (merged_atoms h)]
    simp

/-- Characters that are no wildcards are read as they are. -/
theorem atoms_from_literal (out : List Atom) (s p : List Char)
    (hPlain : ∀ c ∈ s, c ∉ ['*', '?', '[', '\\']) :
    atoms_from out (s ++ p) = atoms_from (out ++ s.map .char) p := by
  induction s generalizing out with
  | nil => simp
  | cons c s ih =>
    have hC := hPlain c List.mem_cons_self
    have hStep : atoms_from out (c :: (s ++ p)) = atoms_from (out ++ [.char c]) (s ++ p) := by
      rw [atoms_from.eq_def]
      split <;> simp_all
    rw [List.cons_append, hStep, ih _ fun c hc => hPlain c (List.mem_cons_of_mem _ hc)]
    simp

/-- **What matches a pattern starts with its literal prefix.** -/
theorem matches_start {pattern text : String} (h : (Glob.new pattern).matches_ text = true) :
    (literal_prefix_ pattern).toList <+: text.toList := by
  obtain ⟨as, hAtoms, hText⟩ := (new_matches pattern text).mp h
  unfold literal_prefix_
  rw [String.toList_ofList]
  set s := pattern.toList.takeWhile fun c => c ∉ ['*', '?', '[', '\\'] with hS
  have hPattern : pattern.toList = s ++ pattern.toList.dropWhile fun c => c ∉ ['*', '?', '[', '\\'] :=
    List.takeWhile_append_dropWhile.symm
  have hPlain : ∀ c ∈ s, c ∉ ['*', '?', '[', '\\'] := by
    intro c hc
    simpa using List.mem_takeWhile_imp hc
  unfold atoms at hAtoms
  rw [hPattern, atoms_from_literal [] s _ hPlain, List.nil_append] at hAtoms
  have hMerged : Merged (s.map Atom.char) := by
    intro i hStar
    unfold star_at at hStar
    rw [List.getElem?_map] at hStar
    obtain ⟨c, -, hC⟩ := Option.map_eq_some_iff.mp hStar
    cases hC
  obtain ⟨-, rest, rfl⟩ := atoms_from_out hMerged hAtoms
  obtain ⟨u, v, hUV, hU, -⟩ := (matches_append _ _ _).mp hText
  rw [(matches_chars s u).mp hU] at hUV
  exact ⟨v, hUV.symm⟩

example : ((Glob.new "h[^e]?l*o").matches_ "hallooo", (Glob.new "[^]x]").matches_ "]") = (true, false) := by
  decide +kernel

end Postino
