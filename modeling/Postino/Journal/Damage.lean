import Postino.Journal.Line

/-!
# What reading a journal finds

Whole lines and the torn one after them give back what was written. Bytes that stand where a
line stood are corruption when their first line does not read and something comes after it:
reading stops there, names it, and applies nothing from it on. A last line that does not read
counts as torn, also where it ends with a newline.

* `scan_loop_stops` — where reading stops;
* `scan_exact` — what whole lines, torn and damaged ones come to.
-/

namespace Postino

namespace Journal

variable {ε σ : Type} [EffectJson ε]

omit [EffectJson ε] in
theorem flatten_readLines (text : Bytes) : (readLines text).flatten = text := by
  induction text with
  | nil => rfl
  | cons b text ih =>
    rw [readLines]
    split
    · rw [List.flatten_cons, ih, List.singleton_append]
    · cases hLines : readLines text with
      | nil =>
        rw [hLines, List.flatten_nil] at ih
        rw [← ih]
        rfl
      | cons line lines =>
        rw [hLines, List.flatten_cons] at ih
        rw [List.flatten_cons, List.cons_append, ih]

omit [EffectJson ε] in
/-- What reading does is apply the effects above the snapshot, in order. -/
theorem applyAbove_filter (snapshot_seq : Nat) (apply : σ → ε → σ) (entries : List (Nat × ε)) (state : σ) :
    applyAbove snapshot_seq apply entries state =
      ((entries.filter fun p => p.1 > snapshot_seq).map Prod.snd).foldl apply state := by
  unfold applyAbove
  rw [List.foldl_map, List.foldl_filter]
  simp only [decide_eq_true_eq]

variable (ε) in
/-- Whether a line reads: it is as it was written, and its JSON is an effect's. -/
def Reads (line : Bytes) : Prop := intact line = true ∧ (EffectJson.line_of (ε := ε) line).isSome = true

variable (ε) in
/-- Whether what is left of a journal shows that it is damaged: its first line does not read, and
there is more after it than white space. -/
def Noticed (left : Bytes) : Prop :=
  ¬Reads ε (left.takeWhile (· ≠ newline) ++ [newline]) ∧
    (left.dropWhile (· ≠ newline)).tail.all isAsciiWhitespace = false

instance (line : Bytes) : Decidable (Reads ε line) := inferInstanceAs (Decidable (_ ∧ _))

instance (left : Bytes) : Decidable (Noticed ε left) := inferInstanceAs (Decidable (_ ∧ _))

omit [EffectJson ε] in
/-- What a newline is in is a line and what follows it. -/
theorem split_line {left : Bytes} (h : newline ∈ left) :
    newline ∉ left.takeWhile (· ≠ newline) ∧
      left = left.takeWhile (· ≠ newline) ++ [newline] ++ (left.dropWhile (· ≠ newline)).tail := by
  refine ⟨fun hIn => ?_, ?_⟩
  · have hNe := List.mem_takeWhile_imp hIn
    simp at hNe
  · have hSome : left.dropWhile (· ≠ newline) ≠ [] := by
      intro hNil
      have hAll := List.dropWhile_eq_nil_iff.mp hNil newline h
      simp at hAll
    obtain ⟨b, rest, hRest⟩ := List.exists_cons_of_ne_nil hSome
    have hHead : b = newline := by
      have hFirst := List.head?_dropWhile_not (· ≠ newline) left
      rw [hRest] at hFirst
      simpa using hFirst
    conv_lhs => rw [← List.takeWhile_append_dropWhile (p := (· ≠ newline)) (l := left)]
    rw [hRest, hHead, List.append_assoc]
    rfl

/-- Reading goes on past a line that reads. -/
theorem scan_loop_goes_on (snapshot_seq : Nat) (apply : σ → ε → σ) {line : Bytes} (hLast : line.getLast? = some newline)
    (hReads : Reads ε line) (rest : List Bytes) (found : Scan) (state : σ) :
    ∃ seq state', scan_loop snapshot_seq apply (line :: rest) found state =
      scan_loop snapshot_seq apply rest
        { found with seq := seq, valid := found.valid + line.length, lines := found.lines + 1 } state' := by
  obtain ⟨hIntact, hSome⟩ := hReads
  obtain ⟨⟨s, e⟩, hLine⟩ := Option.isSome_iff_exists.mp hSome
  refine ⟨max found.seq s, if s > snapshot_seq then apply state e else state, ?_⟩
  rw [scan_loop, hLine, decide_eq_true ⟨hLast, hIntact⟩]

/-- Reading stops at a line that does not read. What follows it tells a torn line from
corruption. -/
theorem scan_loop_stops (snapshot_seq : Nat) (apply : σ → ε → σ) {line : Bytes} (hNot : ¬Reads ε line)
    (rest : List Bytes) (found : Scan) (state : σ) :
    scan_loop snapshot_seq apply (line :: rest) found state =
      ({ found with corrupt := if rest.flatten.all isAsciiWhitespace then none else some (found.lines + 1) },
        state) := by
  rw [scan_loop]
  split
  · next s e hLine hWhole =>
    exact absurd ⟨(of_decide_eq_true hWhole).2, by rw [hLine]; rfl⟩ hNot
  · rfl

/-- The line that is named comes after those that were read. -/
theorem lines_lt_of_corrupt (snapshot_seq : Nat) (apply : σ → ε → σ) {found : Scan} (hNone : found.corrupt = none)
    {lines : List Bytes} {state : σ} {n : Nat}
    (h : (scan_loop snapshot_seq apply lines found state).1.corrupt = some n) : found.lines < n := by
  induction lines generalizing found state with
  | nil => cases hNone.symm.trans h
  | cons line rest ih =>
    rw [scan_loop] at h
    split at h
    · have hLater := ih (by exact hNone) h
      exact Nat.lt_of_succ_lt hLater
    · dsimp only at h
      split at h
      · cases h
      · cases h
        exact Nat.lt_succ_self _

/-- A part of a line that was written, short of its end, holds no newline. -/
theorem newline_not_mem_torn (hLawful : Lawful ε) {seq : Nat} {effect : ε} {line torn : Bytes}
    (h : write_line seq effect = some line) (hTorn : torn <+: line) (hShort : torn ≠ line) : newline ∉ torn := by
  obtain ⟨body, rfl, hBody⟩ := write_line_newline hLawful h
  rcases List.prefix_concat_iff.mp hTorn with rfl | hPrefix
  · exact absurd rfl hShort
  · exact fun hIn => hBody (hPrefix.subset hIn)

/-- **Reading a journal gives back what was written, and nothing else where damage shows.** Whole
lines followed by a torn one are read whole, and the effects above the snapshot applied. Where
other bytes stand in the place of a line after them, with another line to follow, the line is
named as corrupt and no more is applied exactly when their first line does not read and is not
the last. -/
theorem scan_exact (hLawful : Lawful ε) (snapshot_seq : Nat) (apply : σ → ε → σ) (state : σ)
    {entries : List (Nat × ε)} {text : Bytes} (hWritten : Written entries text) :
    (∀ seq (effect : ε) line torn, write_line seq effect = some line → torn <+: line → torn ≠ line →
      scan snapshot_seq apply (text ++ torn) state =
        ({ seq := (entries.map Prod.fst).foldl max snapshot_seq, valid := text.length, lines := entries.length
           corrupt := none },
          ((entries.filter fun p => p.1 > snapshot_seq).map Prod.snd).foldl apply state)) ∧
    (∀ damaged seq (effect : ε) line more, write_line seq effect = some line →
      let read := scan snapshot_seq apply (text ++ (damaged ++ (line ++ more))) state
      let before := ((entries.filter fun p => p.1 > snapshot_seq).map Prod.snd).foldl apply state
      (read.1.corrupt = some (entries.length + 1) ∧ read.2 = before ↔ Noticed ε (damaged ++ (line ++ more))) ∧
      (Noticed ε (damaged ++ (line ++ more)) → read =
        ({ seq := (entries.map Prod.fst).foldl max snapshot_seq, valid := text.length, lines := entries.length
           corrupt := some (entries.length + 1) }, before))) := by
  -- a line cut short has no newline, so it is the rest of the file
  constructor
  · intro seq effect line torn hLine hTorn hShort
    have hNewline := newline_not_mem_torn hLawful hLine hTorn hShort
    rw [scan_written hLawful snapshot_seq apply hWritten hNewline, applyAbove_filter]
  · intro damaged seq effect line more hLine read before
    set left := damaged ++ (line ++ more) with hLeft
    -- the damage reaches up to the first newline, which the next line has at the latest
    have hIn : newline ∈ left := by
      obtain ⟨body, rfl, -⟩ := write_line_newline hLawful hLine
      simp [hLeft]
    obtain ⟨hBody, hSplit⟩ := split_line hIn
    set body := left.takeWhile (· ≠ newline) with hBodyEq
    set rest := (left.dropWhile (· ≠ newline)).tail with hRest
    -- what was found before: every line in front of it
    obtain ⟨found, hFound⟩ : ∃ found : Scan, found =
        { seq := (entries.map Prod.fst).foldl max snapshot_seq, valid := text.length, lines := entries.length
          corrupt := none } := ⟨_, rfl⟩
    have hNone : found.corrupt = none := by rw [hFound]
    have hLines : found.lines = entries.length := by rw [hFound]
    have hRead : read = scan_loop snapshot_seq apply ((body ++ [newline]) :: readLines rest) found before := by
      show scan snapshot_seq apply (text ++ left) state = _
      rw [scan, scan_loop_front hLawful snapshot_seq apply left entries _ _ _ hWritten, applyAbove_filter]
      conv_lhs => rw [hSplit]
      rw [readLines_line body rest hBody, Nat.zero_add, Nat.zero_add, hFound]
    by_cases hReads : Reads ε (body ++ [newline])
    · -- it reads, and what is found later is not this line
      refine ⟨⟨fun hBoth => ?_, fun hNoticed => absurd hReads hNoticed.1⟩, fun hNoticed => absurd hReads hNoticed.1⟩
      obtain ⟨seq', state', hOn⟩ := scan_loop_goes_on snapshot_seq apply List.getLast?_concat hReads (readLines rest)
        found before
      have hCorrupt := hBoth.1
      rw [hRead, hOn] at hCorrupt
      have hLess := lines_lt_of_corrupt snapshot_seq apply (by exact hNone) hCorrupt
      rw [← hLines] at hLess
      exact absurd hLess (lt_irrefl _)
    · rw [hRead, scan_loop_stops snapshot_seq apply hReads, flatten_readLines, hLines]
      -- unreadable, with nothing but blanks behind: taken for a line cut short
      by_cases hBlank : rest.all isAsciiWhitespace = true
      · have hNot : ¬Noticed ε left := fun hNoticed => Bool.noConfusion (hBlank.symm.trans hNoticed.2)
        rw [if_pos hBlank]
        refine ⟨⟨fun hBoth => ?_, fun hNoticed => absurd hNoticed hNot⟩, fun hNoticed => absurd hNoticed hNot⟩
        cases hBoth.1
      · rw [if_neg hBlank, hFound]
        exact ⟨⟨fun _ => ⟨hReads, Bool.eq_false_iff.mpr hBlank⟩, fun _ => ⟨rfl, rfl⟩⟩, fun _ => rfl⟩

/-- A line and a torn one; and after it, in the place of the next line but one, a byte alone,
a byte on a line of its own, and a byte alone with one line more. -/
theorem scan_exact_torn :
    let read (text : Bytes) := scan 0 (fun found (effect : Forget) => found ++ [effect]) text []
    ∃ line, write_line 3 Forget.a = some line ∧
      read (line ++ line.dropLast) = ({ seq := 3, valid := line.length, lines := 1, corrupt := none }, [Forget.a]) ∧
      ¬((read (line ++ ([120] ++ (line ++ [])))).1.corrupt = some 2 ∧
        (read (line ++ ([120] ++ (line ++ [])))).2 = [Forget.a]) ∧
      read (line ++ ([120, newline] ++ (line ++ []))) =
        ({ seq := 3, valid := line.length, lines := 1, corrupt := some 2 }, [Forget.a]) ∧
      read (line ++ ([120] ++ (line ++ line))) =
        ({ seq := 3, valid := line.length, lines := 1, corrupt := some 2 }, [Forget.a]) := by
  intro read
  obtain ⟨line, hLine, hAlone, hOwn, hMore⟩ : ∃ line, write_line 3 Forget.a = some line ∧
      ¬Noticed Forget ([120] ++ (line ++ [])) ∧ Noticed Forget ([120, newline] ++ (line ++ [])) ∧
      Noticed Forget ([120] ++ (line ++ line)) :=
    ⟨_, rfl, by decide +kernel⟩
  have hWritten : Written [(3, Forget.a)] line := ⟨[line], by simp [hLine], by simp⟩
  have hShort : line.dropLast ≠ line := by
    obtain ⟨body, rfl, -⟩ := write_line_newline lawful_forget hLine
    simp
  obtain ⟨hTorn, hDamaged⟩ := scan_exact lawful_forget 0 (fun found effect => found ++ [effect]) [] hWritten
  exact ⟨line, hLine, hTorn 3 .a line line.dropLast hLine (List.dropLast_prefix line) hShort,
    fun h => hAlone ((hDamaged [120] 3 .a line [] hLine).1.mp h),
    (hDamaged [120, newline] 3 .a line [] hLine).2 hOwn, (hDamaged [120] 3 .a line line hLine).2 hMore⟩

/-- A line replaced by a byte with no newline becomes one with the last line after it, and is
taken for the torn end of the journal: nothing of the journal is kept, and nothing is said. -/
theorem scan_joined :
    ∃ line, write_line 2 Forget.b = some line ∧ intact [120] = false ∧
      scan 0 (fun found effect => found ++ [effect]) ([120] ++ line) ([] : List Forget) =
        ({ seq := 0, valid := 0, lines := 0, corrupt := none }, []) :=
  ⟨_, rfl, by decide, by decide +kernel⟩

end Journal

end Postino
