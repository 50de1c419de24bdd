import Postino.Db.Db

/-!
# Journal lines

One line for each effect: a checksum of the rest of the line, the effect's
sequence number, and the effect as JSON. Reading a journal takes its lines in
order and stops at the first one that does not make sense; that is fine when it
is the last one, cut short by a crash.

The effects' JSON is the serializer's: `EffectJson` stands for it.

* `intact_write_line` — a line that was written matches its checksum;
* `scan_written` — reading whole lines followed by a torn one gives back what
  was written.
-/

namespace Postino

/-- The JSON of an effect, and what reading a whole line as JSON gives: the
sequence number and the effect in it. -/
class EffectJson (ε : Type) where
  text : ε → Option Bytes
  line_of : Bytes → Option (Nat × ε)

namespace Journal

/-! ## The checksum -/

def crcBit (crc : BitVec 32) : BitVec 32 :=
  if crc &&& 1 = 1 then (crc >>> 1) ^^^ 0x82f63b78 else crc >>> 1

/-- The checksum of one byte. -/
def TABLE (i : BitVec 32) : BitVec 32 := crcBit^[8] i

def crc32c_step (crc : BitVec 32) (byte : UInt8) : BitVec 32 :=
  TABLE ((crc ^^^ byte.toBitVec.zeroExtend 32) &&& 0xff) ^^^ (crc >>> 8)

/-- The CRC-32C of the bytes `crc` is the CRC-32C of, followed by `bytes`. -/
def crc32c_extend (crc : BitVec 32) (bytes : Bytes) : BitVec 32 :=
  ~~~ bytes.foldl crc32c_step (~~~ crc)

def crc32c (bytes : Bytes) : BitVec 32 := crc32c_extend 0 bytes

def hexDigit (d : Nat) : UInt8 := if d < 10 then UInt8.ofNat (48 + d) else UInt8.ofNat (87 + d)

/-- The eight digits that hold a checksum. -/
def write_hex (crc : BitVec 32) : Bytes :=
  (List.range 8).map fun i => hexDigit (crc.toNat / 16 ^ (7 - i) % 16)

/-- `char::to_digit(16)`. -/
def toDigit (b : UInt8) : Option Nat :=
  if 48 ≤ b ∧ b ≤ 57 then some (b.toNat - 48)
  else if 97 ≤ b ∧ b ≤ 102 then some (b.toNat - 87)
  else if 65 ≤ b ∧ b ≤ 70 then some (b.toNat - 55)
  else none

/-- The checksum hexadecimal digits hold: each shifts the ones before it. -/
def read_hex (digits : Bytes) : Option (BitVec 32) :=
  digits.foldlM (fun crc digit => do
    let d ← toDigit digit
    some (BitVec.ofNat 32 (16 * crc.toNat + d))) 0#32

theorem toDigit_hexDigit {d : Nat} (h : d < 16) : toDigit (hexDigit d) = some d := by
  have hAll : ∀ d : Fin 16, toDigit (hexDigit d) = some d.val := by decide
  exact hAll ⟨d, h⟩

theorem read_hex_write_hex (crc : BitVec 32) : read_hex (write_hex crc) = some crc := by
  have hDigit (k : Nat) : toDigit (hexDigit (crc.toNat / k % 16)) = some (crc.toNat / k % 16) :=
    toDigit_hexDigit (Nat.mod_lt _ (by omega))
  have hRange : List.range 8 = [0, 1, 2, 3, 4, 5, 6, 7] := rfl
  simp only [read_hex, write_hex, hRange, List.map_cons, List.map_nil, List.foldlM_cons,
    List.foldlM_nil, hDigit, Option.pure_def, Option.bind_eq_bind, Option.bind_some]
  refine congrArg some (BitVec.eq_of_toNat_eq ?_)
  have hBound := crc.isLt
  simp only [BitVec.toNat_ofNat]
  omega

/-! ## Writing a line -/

/-- The bytes of a text of ASCII characters. -/
def ascii (text : String) : Bytes := text.toList.map Char.toUInt8

/-- `{"c":"`, what each line starts with; its checksum follows. -/
def CHECKSUM : Bytes := ascii "\x7b\"c\":\""

/-- What stands between the checksum and the text it is of: `",`. -/
def CHECKSUM_END : Bytes := ascii "\","

/-- A number in decimal. -/
def decimal (n : Nat) : Bytes := (Nat.toDigits 10 n).map Char.toUInt8

def newline : UInt8 := '\n'.toUInt8

variable {ε : Type} [EffectJson ε]

/-- The line for `effect`, numbered `seq`. -/
def write_line (seq : Nat) (effect : ε) : Option Bytes := do
  let text ← EffectJson.text effect
  let body := ascii "\"s\":" ++ decimal seq ++ ascii ",\"e\":" ++ text ++
    ascii "\x7d"
  some (CHECKSUM ++ write_hex (crc32c body) ++ CHECKSUM_END ++ body ++ [newline])

/-- What follows `start` in `text`, if it starts with it. -/
def strip_start (start text : Bytes) : Option Bytes :=
  if start.isPrefixOf text then some (text.drop start.length) else none

/-- Whether a line is as it was written, matching the checksum it starts with. -/
def intact (line : Bytes) : Bool :=
  let line := if line.getLast? = some newline then line.dropLast else line
  match strip_start CHECKSUM line with
  | none => false
  | some rest =>
    let written := if 8 ≤ rest.length then read_hex (rest.take 8) else none
    let body := if 8 ≤ rest.length then strip_start CHECKSUM_END (rest.drop 8) else none
    match written, body with
    | some written, some body => written == crc32c body
    | _, _ => false

omit [EffectJson ε] in
theorem strip_start_append (start text : Bytes) : strip_start start (start ++ text) = some text := by
  have hStart : start.isPrefixOf (start ++ text) = true := by
    rw [List.isPrefixOf_iff_prefix]
    exact List.prefix_append _ _
  simp [strip_start, hStart]

omit [EffectJson ε] in
theorem length_write_hex (crc : BitVec 32) : (write_hex crc).length = 8 := by
  simp [write_hex]

omit [EffectJson ε] in
/-- Whether a line is intact is whether its digits hold the checksum of its text. -/
theorem intact_iff {digits : Bytes} (hDigits : digits.length = 8) (body : Bytes) :
    intact (CHECKSUM ++ digits ++ CHECKSUM_END ++ body ++ [newline]) = true ↔
      read_hex digits = some (crc32c body) := by
  simp only [intact, List.getLast?_concat, if_true, List.dropLast_concat]
  rw [List.append_assoc, List.append_assoc, strip_start_append]
  simp only [List.length_append, hDigits, List.take_left' hDigits, List.drop_left' hDigits, strip_start_append]
  rw [if_pos (Nat.le_add_right _ _), if_pos (Nat.le_add_right _ _)]
  cases read_hex digits with
  | none => exact iff_of_false Bool.false_ne_true nofun
  | some written => simp

/-- A line that was written matches its checksum. -/
theorem intact_write_line {seq : Nat} {effect : ε} {line : Bytes}
    (h : write_line seq effect = some line) : intact line = true := by
  obtain ⟨text, -, hLine⟩ := Option.bind_eq_some_iff.mp h
  obtain rfl := Option.some.inj hLine
  exact (intact_iff (length_write_hex _) _).mpr (read_hex_write_hex _)

/-! ## Reading a journal -/

/-- What `read_until(b'\n')` returns, call after call. -/
def readLines : Bytes → List Bytes
  | [] => []
  | b :: rest =>
    if b = newline then [b] :: readLines rest
    else match readLines rest with
      | [] => [[b]]
      | line :: lines => (b :: line) :: lines

/-- `u8::is_ascii_whitespace`. -/
def isAsciiWhitespace (b : UInt8) : Bool := b = 32 ∨ b = 9 ∨ b = 10 ∨ b = 12 ∨ b = 13

/-- What reading a journal found: the last sequence number, how many bytes of
whole lines make sense, and the number of the first line that does not, unless
it is the last and only torn, by a crash mid-write. -/
structure Scan where
  seq : Nat
  valid : Nat
  lines : Nat
  corrupt : Option Nat
  deriving DecidableEq, Repr

variable {σ : Type}

/-- The loop of `scan` over the lines left, with what it found so far and what
it applied them to. -/
def scan_loop (snapshot_seq : Nat) (apply : σ → ε → σ) : List Bytes → Scan → σ → Scan × σ
  | [], found, state => (found, state)
  | line :: rest, found, state =>
    let whole := line.getLast? = some newline ∧ intact line
    match EffectJson.line_of (ε := ε) line, decide whole with
    | some (s, e), true =>
      scan_loop snapshot_seq apply rest
        { found with
          seq := max found.seq s
          valid := found.valid + line.length
          lines := found.lines + 1 }
        (if s > snapshot_seq then apply state e else state)
    | _, _ =>
      let torn := rest.flatten.all isAsciiWhitespace
      ({ found with corrupt := if torn then none else some (found.lines + 1) }, state)

def scan (snapshot_seq : Nat) (apply : σ → ε → σ) (file : Bytes) (state : σ) : Scan × σ :=
  scan_loop snapshot_seq apply (readLines file)
    { seq := snapshot_seq, valid := 0, lines := 0, corrupt := none } state

/-! ## Reading back what was written -/

variable (ε) in
/-- What the serializer promises: an effect's JSON is on one line, and a line
that was written reads as its number and effect. -/
structure Lawful : Prop where
  no_newline : ∀ (e : ε) text, EffectJson.text e = some text → newline ∉ text
  reads : ∀ seq (e : ε) line, write_line seq e = some line → EffectJson.line_of line = some (seq, e)

/-- A line that was written holds no newline but the one it ends with. -/
theorem write_line_newline (hLawful : Lawful ε) {seq : Nat} {effect : ε} {line : Bytes}
    (h : write_line seq effect = some line) : ∃ body, line = body ++ [newline] ∧ newline ∉ body := by
  obtain ⟨text, hText, hLine⟩ := Option.bind_eq_some_iff.mp h
  obtain rfl := Option.some.inj hLine
  refine ⟨_, rfl, ?_⟩
  have hHex (crc : BitVec 32) : newline ∉ write_hex crc := by
    intro hMem
    obtain ⟨i, -, hDigit⟩ := List.mem_map.mp hMem
    have hAll : ∀ d : Fin 16, hexDigit d ≠ newline := by decide
    exact hAll ⟨_, Nat.mod_lt _ (by omega)⟩ hDigit
  have hDecimal : newline ∉ decimal seq := by
    intro hMem
    obtain ⟨c, hc, hDigit⟩ := List.mem_map.mp hMem
    have hRange := Nat.isDigit_of_mem_toDigits (by omega) (by omega) hc
    simp only [Char.isDigit, Bool.and_eq_true, decide_eq_true_eq] at hRange
    have hLe : c.val.toNat ≤ 57 := hRange.2
    have hGe : 48 ≤ c.val.toNat := hRange.1
    have := congrArg UInt8.toNat hDigit
    simp only [Char.toUInt8, newline, UInt32.toNat_toUInt8] at this
    have hTen : '\n'.val.toNat % 2 ^ 8 = 10 := by decide
    omega
  have hFixed : newline ∉ CHECKSUM ∧ newline ∉ CHECKSUM_END ∧ newline ∉ ascii "\"s\":" ∧
      newline ∉ ascii ",\"e\":" ∧ newline ∉ ascii "\x7d" := by decide
  obtain ⟨h₁, h₂, h₃, h₄, h₅⟩ := hFixed
  simp only [List.mem_append, not_or]
  exact ⟨⟨⟨h₁, hHex _⟩, h₂⟩, ⟨⟨⟨h₃, hDecimal⟩, h₄⟩, hLawful.no_newline _ _ hText⟩, h₅⟩

omit [EffectJson ε] in
theorem readLines_line (body rest : Bytes) (h : newline ∉ body) :
    readLines (body ++ [newline] ++ rest) = (body ++ [newline]) :: readLines rest := by
  induction body with
  | nil => simp [readLines]
  | cons b body ih =>
    obtain ⟨hHead, hTail⟩ := not_or.mp (mt List.mem_cons.mpr h)
    rw [List.cons_append, List.cons_append, readLines, if_neg (Ne.symm hHead), ih hTail]

omit [EffectJson ε] in
theorem readLines_torn (torn : Bytes) (h : newline ∉ torn) (hSome : torn ≠ []) :
    readLines torn = [torn] := by
  induction torn with
  | nil => exact absurd rfl hSome
  | cons b torn ih =>
    obtain ⟨hHead, hTail⟩ := not_or.mp (mt List.mem_cons.mpr h)
    rw [readLines, if_neg (Ne.symm hHead)]
    cases torn with
    | nil => rfl
    | cons c torn => rw [ih hTail (by simp)]

/-- `text` is the lines of `entries`, one after another. -/
def Written (entries : List (Nat × ε)) (text : Bytes) : Prop :=
  ∃ lines : List Bytes, entries.map (fun p => write_line p.1 p.2) = lines.map some ∧
    text = lines.flatten

/-- What reading `entries` does: those above the snapshot are applied. -/
def applyAbove (snapshot_seq : Nat) (apply : σ → ε → σ) (entries : List (Nat × ε)) (state : σ) : σ :=
  entries.foldl (fun state p => if p.1 > snapshot_seq then apply state p.2 else state) state

/-- Whole lines are read, and then what follows them. -/
theorem scan_loop_front (hLawful : Lawful ε) (snapshot_seq : Nat) (apply : σ → ε → σ)
    (tail : Bytes) (entries : List (Nat × ε)) :
    ∀ (text : Bytes) (found : Scan) (state : σ), Written entries text →
      scan_loop snapshot_seq apply (readLines (text ++ tail)) found state
        = scan_loop snapshot_seq apply (readLines tail)
            { found with
              seq := (entries.map Prod.fst).foldl max found.seq
              valid := found.valid + text.length
              lines := found.lines + entries.length }
            (applyAbove snapshot_seq apply entries state) := by
  induction entries with
  | nil =>
    intro text found state ⟨lines, hLines, hText⟩
    obtain rfl : lines = [] := by simpa using hLines.symm
    obtain rfl : text = [] := hText
    rfl
  | cons entry entries ih =>
    intro text found state ⟨lines, hLines, hText⟩
    obtain ⟨s, e⟩ := entry
    cases lines with
    | nil => simp at hLines
    | cons line lines =>
      obtain ⟨hLine, hRest⟩ : write_line s e = some line ∧ _ = lines.map some := by
        simpa using hLines
      obtain ⟨body, hBody, hNewline⟩ := write_line_newline hLawful hLine
      have hWhole : line.getLast? = some newline ∧ intact line = true :=
        ⟨by rw [hBody, List.getLast?_concat], intact_write_line hLine⟩
      have hRead : readLines (text ++ tail) = line :: readLines (lines.flatten ++ tail) := by
        rw [hText, List.flatten_cons, List.append_assoc, hBody, readLines_line _ _ hNewline]
      rw [hRead, scan_loop, hLawful.reads s e line hLine, decide_eq_true hWhole]
      dsimp only
      rw [ih lines.flatten { found with
          seq := max found.seq s, valid := found.valid + line.length, lines := found.lines + 1 }
        _ ⟨lines, hRest, rfl⟩, hText]
      simp [applyAbove, Nat.add_assoc, Nat.add_comm 1]

/-- A line without a newline is not whole, and nothing follows it. -/
theorem scan_loop_torn (snapshot_seq : Nat) (apply : σ → ε → σ) {torn : Bytes}
    (hTorn : newline ∉ torn) {found : Scan} (hCorrupt : found.corrupt = none) (state : σ) :
    scan_loop snapshot_seq apply (readLines torn) found state = (found, state) := by
  obtain ⟨seq, valid, lines, corrupt⟩ := found
  obtain rfl : corrupt = none := hCorrupt
  by_cases hNil : torn = []
  · subst hNil
    rfl
  · rw [readLines_torn torn hTorn hNil]
    have hLast : torn.getLast? ≠ some newline := fun h => hTorn (List.mem_of_getLast? h)
    simp [scan_loop, hLast]

/-- Reading whole lines and then a torn one gives back the whole ones. -/
theorem scan_written (hLawful : Lawful ε) (snapshot_seq : Nat) (apply : σ → ε → σ)
    {entries : List (Nat × ε)} {text torn : Bytes} (hWritten : Written entries text)
    (hTorn : newline ∉ torn) (state : σ) :
    scan snapshot_seq apply (text ++ torn) state
      = ({ seq := (entries.map Prod.fst).foldl max snapshot_seq
           valid := text.length
           lines := entries.length
           corrupt := none },
          applyAbove snapshot_seq apply entries state) := by
  rw [scan, scan_loop_front hLawful snapshot_seq apply torn entries _ _ _ hWritten]
  rw [scan_loop_torn snapshot_seq apply hTorn rfl]
  simp

/-! ## A serializer of two effects -/

/-- Forgetting the agent `a` or `b`. -/
inductive Forget where
  | a
  | b
  deriving DecidableEq, Repr

def Forget.text : Forget → Bytes
  | a => ascii "\x7b\"op\":\"forget\",\"agent\":\"a\"\x7d"
  | b => ascii "\x7b\"op\":\"forget\",\"agent\":\"b\"\x7d"

def isDecimal (b : UInt8) : Bool := 48 ≤ b ∧ b ≤ 57

/-- The number decimal digits are of. -/
def read_decimal (digits : Bytes) : Nat :=
  Nat.ofDigitChars 10 (digits.map fun b => Char.ofNat b.toNat) 0

/-- The digits of a number are single bytes. -/
theorem decimal_digit {n : Nat} {c : Char} (h : c ∈ Nat.toDigits 10 n) :
    isDecimal c.toUInt8 = true ∧ Char.ofNat c.toUInt8.toNat = c := by
  have hDigit := Nat.isDigit_of_mem_toDigits (by omega) (by omega) h
  simp only [Char.isDigit, Bool.and_eq_true, decide_eq_true_eq] at hDigit
  have hGe : 48 ≤ c.val.toNat := hDigit.1
  have hLe : c.val.toNat ≤ 57 := hDigit.2
  have hByte : c.toUInt8.toNat = c.val.toNat := by
    simp only [Char.toUInt8, UInt32.toNat_toUInt8]
    omega
  constructor
  · simp only [isDecimal, decide_eq_true_eq, UInt8.le_iff_toNat_le, hByte]
    exact ⟨hGe, hLe⟩
  · rw [hByte]
    exact Char.ofNat_toNat c

theorem isDecimal_of_mem_decimal {n : Nat} {b : UInt8} (h : b ∈ decimal n) : isDecimal b = true := by
  obtain ⟨c, hc, rfl⟩ := List.mem_map.mp h
  exact (decimal_digit hc).1

theorem read_decimal_decimal (n : Nat) : read_decimal (decimal n) = n := by
  have hBack : (decimal n).map (fun b => Char.ofNat b.toNat) = Nat.toDigits 10 n := by
    rw [decimal, List.map_map]
    refine (List.map_congr_left fun c hc => ?_).trans (List.map_id _)
    exact (decimal_digit hc).2
  rw [read_decimal, hBack]
  exact Nat.ofDigitChars_toDigits (by omega) (by omega)

/-- What follows the sequence number in a line. -/
def Forget.rest (effect : Forget) : Bytes :=
  ascii ",\"e\":" ++ effect.text ++ ascii "\x7d" ++ [newline]

/-- The number and the effect of a line; the checksum in front is not looked
at. -/
def Forget.line_of (line : Bytes) : Option (Nat × Forget) :=
  let numbered := line.drop 20
  let seq := read_decimal (numbered.takeWhile isDecimal)
  let rest := numbered.dropWhile isDecimal
  if rest = Forget.a.rest then some (seq, .a)
  else if rest = Forget.b.rest then some (seq, .b)
  else none

instance : EffectJson Forget where
  text effect := some effect.text
  line_of := Forget.line_of

theorem lawful_forget : Lawful Forget where
  no_newline effect text h := by
    obtain rfl := Option.some.inj h
    cases effect <;> decide
  reads seq effect line h := by
    obtain rfl := Option.some.inj h
    generalize hCrc : crc32c _ = crc
    have hFront : (CHECKSUM ++ write_hex crc ++ CHECKSUM_END ++ ascii "\"s\":").length = 20 := by
      rw [List.length_append, List.length_append, List.length_append, length_write_hex]
      rfl
    have hSplit : CHECKSUM ++ write_hex crc ++ CHECKSUM_END ++ (ascii "\"s\":" ++ decimal seq ++
        ascii ",\"e\":" ++ effect.text ++ ascii "\x7d") ++ [newline]
        = CHECKSUM ++ write_hex crc ++ CHECKSUM_END ++ ascii "\"s\":" ++
          (decimal seq ++ effect.rest) := by
      simp only [Forget.rest, List.append_assoc]
    have hRest : ∃ tail, effect.rest = ','.toUInt8 :: tail := ⟨_, rfl⟩
    obtain ⟨tail, hTail⟩ := hRest
    have hComma : isDecimal ','.toUInt8 = false := by decide
    have hTake : (decimal seq ++ effect.rest).takeWhile isDecimal = decimal seq := by
      rw [List.takeWhile_append_of_pos fun b hb => isDecimal_of_mem_decimal hb, hTail,
        List.takeWhile_cons_of_neg (by simp [hComma]), List.append_nil]
    have hDrop : (decimal seq ++ effect.rest).dropWhile isDecimal = effect.rest := by
      rw [List.dropWhile_append_of_pos fun b hb => isDecimal_of_mem_decimal hb, hTail,
        List.dropWhile_cons_of_neg (by simp [hComma])]
    show Forget.line_of _ = _
    rw [Forget.line_of, hSplit, List.drop_left' hFront, hTake, hDrop, read_decimal_decimal]
    cases effect
    · rfl
    · rw [if_neg (by decide), if_pos rfl]

end Journal

end Postino
