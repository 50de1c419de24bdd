import Postino.Journal.Journal

/-!
# The order of journal lines

Lines are in five places: the journals set aside, `journal.log`, the lines the
disk refused, the lines taken to be written and the lines pending. Read in that
order they are the lines of the effects journaled so far, numbered from one,
whatever the threads do and however writes fail.

* `Tidy` — the journal's files hold whole lines, each file with what a failed
  write left behind them, and the tail's handle is at the end of the last;
* `Stored` — what the files hold, then what the disk refused;
* `stored_append_tail` / `stored_write` / `stored_finish_append` /
  `stored_finish_rewrite` — one lemma for each way lines move to the files;
* `Ordered` — the invariant of a `World`, kept by every step (`ordered_step`);
* `journal_order` — the result, for every run.
-/

namespace Postino.Journal

open Lib

variable {ε : Type} [EffectJson ε]

/-! ## Numbered lines -/

/-- `lines` are the lines of `effects`, numbered from one. -/
def Numbered (lines : List Bytes) (effects : List ε) : Prop :=
  lines.map some = (effects.zipIdx 1).map fun p => write_line p.2 p.1

theorem numbered_append {lines : List Bytes} {effects : List ε} {line : Bytes} {effect : ε}
    (h : Numbered lines effects)
    (hLine : write_line (effects.length + 1) effect = some line) :
    Numbered (lines ++ [line]) (effects ++ [effect]) := by
  unfold Numbered at *
  rw [List.map_append, h, List.zipIdx_append, List.map_append, Nat.add_comm 1]
  simp [hLine]

theorem Numbered.length_eq {lines : List Bytes} {effects : List ε} (h : Numbered lines effects) :
    lines.length = effects.length := by
  simpa using congrArg List.length h

theorem Numbered.ne_nil {lines : List Bytes} {effects : List ε} (h : Numbered lines effects)
    {line : Bytes} (hLine : line ∈ lines) : line ≠ [] := by
  have hMem : some line ∈ lines.map some := List.mem_map_of_mem hLine
  rw [h] at hMem
  obtain ⟨p, -, hWrite⟩ := List.mem_map.mp hMem
  obtain ⟨text, -, hText⟩ := Option.bind_eq_some_iff.mp hWrite
  rw [← Option.some.inj hText]
  simp

omit [EffectJson ε] in
/-- Lines that are not empty take up room. -/
theorem flatten_eq_nil {lines : List Bytes} (hNe : ∀ line ∈ lines, line ≠ [])
    (h : lines.flatten = []) : lines = [] := by
  cases lines with
  | nil => rfl
  | cons line lines =>
    rw [List.flatten_cons, List.append_eq_nil_iff] at h
    exact absurd h.1 (hNe line List.mem_cons_self)

/-! ## What the files hold -/

/-- What a file holds: whole lines, and behind them what a failed write left
there that could not be cut off again. -/
structure Contents where
  lines : List Bytes
  torn : Bytes := []

def Contents.bytes (c : Contents) : Bytes := c.lines.flatten ++ c.torn

/-- The lines of the journals set aside. -/
def lines_of (aside : List (Nat × Contents)) : List Bytes := aside.flatMap fun s => s.2.lines

omit [EffectJson ε] in
@[simp] theorem lines_of_append (front back : List (Nat × Contents)) :
    lines_of (front ++ back) = lines_of front ++ lines_of back := List.flatMap_append

omit [EffectJson ε] in
@[simp] theorem lines_of_singleton (n : Nat) (c : Contents) : lines_of [(n, c)] = c.lines := by
  simp [lines_of]

/-- The journals set aside hold `aside`, by number, and `journal.log` holds
`log`. The tail's handle is at the end of the last of them; the one set aside
last, when a fresh one could not take its place. Nothing torn is left behind
when each failed write is cut off, which is `whole`. -/
structure Tidy (whole : Prop) (j : Journal) (aside : List (Nat × Contents)) (log : Contents) : Prop where
  aside_eq : j.files.aside.toList = aside.map fun s => (s.1, s.2.bytes)
  log_eq : j.files.log.getD [] = log.bytes
  /-- No set-aside journal has a number beyond the lines set aside. -/
  numbers : ∀ s ∈ aside, s.1 ≤ (lines_of aside).length
  bytes : j.tail.torn = false → j.tail.bytes = (j.files.read j.tail.file).length
  /-- The tail writes behind whole lines only. -/
  handle : (j.tail.file = .log ∧ j.files.log.isSome ∧ (j.tail.torn = false → log.torn = [])) ∨
    (∃ n front last, j.tail.file = .aside n ∧ aside = front ++ [(n, last)] ∧
      j.files.log = none ∧ log = { lines := [] } ∧ (j.tail.torn = false → last.torn = []))
  sound : whole → j.tail.torn = false ∧ log.torn = [] ∧ ∀ s ∈ aside, s.2.torn = []

/-- The files hold the lines `filed`, and the disk refused the lines
`refused`. -/
def Stored (whole : Prop) (j : Journal) (filed refused : List Bytes) : Prop :=
  ∃ aside log, Tidy whole j aside log ∧ filed = lines_of aside ++ log.lines ∧
    j.tail.refused = refused.flatten

variable {whole : Prop} {j : Journal} {aside : List (Nat × Contents)} {log : Contents}
  {filed refused lines : List Bytes}

/-- A change of the tail's other fields leaves the files as they are. -/
theorem Stored.congr {j' : Journal} {refused' : List Bytes} (h : Stored whole j filed refused)
    (hFiles : j'.files = j.files) (hFile : j'.tail.file = j.tail.file)
    (hBytes : j'.tail.bytes = j.tail.bytes) (hTorn : j'.tail.torn = j.tail.torn)
    (hRefused : j'.tail.refused = refused'.flatten) : Stored whole j' filed refused' := by
  obtain ⟨aside, log, hTidy, hFiled, -⟩ := h
  refine ⟨aside, log, ⟨?_, ?_, hTidy.numbers, ?_, ?_, ?_⟩, hFiled, hRefused⟩
  · rw [hFiles, hTidy.aside_eq]
  · rw [hFiles, hTidy.log_eq]
  · rw [hTorn, hFiles, hFile, hBytes]
    exact hTidy.bytes
  · rw [hTorn, hFiles, hFile]
    exact hTidy.handle
  · rw [hTorn]
    exact hTidy.sound

theorem Stored.refused_eq (h : Stored whole j filed refused) : j.tail.refused = refused.flatten := by
  obtain ⟨-, -, -, -, hRefused⟩ := h
  exact hRefused

omit [EffectJson ε] in
theorem Tidy.read_aside {n : Nat} {front : List (Nat × Contents)} {last : Contents}
    (h : Tidy whole j (front ++ [(n, last)]) log) : j.files.aside[n]? = some last.bytes := by
  rw [← BTreeMap.mem_toList, h.aside_eq]
  simp

/-- What a file holds when text is put behind its whole lines. -/
theorem Tidy.put (h : Tidy whole j aside log) (hSound : j.tail.torn = false) {j' : Journal}
    {more : List Bytes} {torn : Bytes} (hWhole : whole → torn = [])
    (hFiles : j'.files = j.files.write (j.files.read j.tail.file ++ (more.flatten ++ torn)) j.tail.file)
    (hFile : j'.tail.file = j.tail.file)
    (hBytes : j'.tail.torn = false → j'.tail.bytes = j.tail.bytes + more.flatten.length ∧ torn = [])
    (hTorn : whole → j'.tail.torn = false) (hRefused : j'.tail.refused = refused.flatten) :
    Stored whole j' (lines_of aside ++ log.lines ++ more) refused := by
  rcases h.handle with ⟨hHandle, hLog, hNone⟩ | ⟨n, front, last, hHandle, hAside, hLog, rfl, hNone⟩
  · -- onto the end of journal.log
    have hNone := hNone hSound
    have hRead : j.files.read j.tail.file = log.lines.flatten := by
      rw [hHandle, Files.read, h.log_eq, Contents.bytes, hNone, List.append_nil]
    rw [hRead, hHandle] at hFiles
    refine ⟨aside, { lines := log.lines ++ more, torn }, ⟨?_, ?_, h.numbers, fun hStill => ?_, ?_, fun hAll => ?_⟩,
      List.append_assoc _ _ _, hRefused⟩
    · rw [hFiles]
      exact h.aside_eq
    · rw [hFiles]
      simp [Files.write, Contents.bytes]
    · obtain ⟨hEnd, rfl⟩ := hBytes hStill
      rw [hEnd, h.bytes hSound, hRead, hFile, hHandle, hFiles]
      simp [Files.read, Files.write]
    · refine .inl ⟨hFile.trans hHandle, ?_, fun hStill => (hBytes hStill).2⟩
      rw [hFiles]
      rfl
    · exact ⟨hTorn hAll, hWhole hAll, (h.sound hAll).2.2⟩
  · -- onto the end of the journal set aside last
    subst hAside
    have hNone := hNone hSound
    have hText := h.read_aside
    have hRead : j.files.read j.tail.file = last.lines.flatten := by
      rw [hHandle, Files.read, hText, Contents.bytes, hNone, List.append_nil]
      rfl
    have hList : j.files.aside.toList = (front.map fun s => (s.1, s.2.bytes)) ++ [(n, last.bytes)] := by
      rw [h.aside_eq, List.map_append]
      rfl
    rw [hRead, hHandle] at hFiles
    -- a file set aside keeps its number and loses no line
    have hNumbers : ∀ s ∈ front ++ [(n, { lines := last.lines ++ more, torn })],
        s.1 ≤ (lines_of (front ++ [(n, ({ lines := last.lines ++ more, torn } : Contents))])).length := by
      intro s hs
      have hOld : ∃ s' ∈ front ++ [(n, last)], s'.1 = s.1 := by
        rcases List.mem_append.mp hs with hs | hs
        · exact ⟨s, List.mem_append_left _ hs, rfl⟩
        · obtain rfl := List.mem_singleton.mp hs
          exact ⟨(n, last), by simp, rfl⟩
      obtain ⟨s', hs', hEq⟩ := hOld
      have hLe := h.numbers s' hs'
      simp only [lines_of_append, lines_of_singleton, List.length_append] at hLe ⊢
      omega
    refine ⟨front ++ [(n, { lines := last.lines ++ more, torn })], { lines := [] },
      ⟨?_, ?_, hNumbers, fun hStill => ?_, ?_, fun hAll => ?_⟩, by simp, hRefused⟩
    · rw [hFiles, Files.write, BTreeMap.toList_update_last _ hList, List.map_append, List.map_singleton]
      simp [Contents.bytes]
    · rw [hFiles]
      exact h.log_eq
    · obtain ⟨hEnd, rfl⟩ := hBytes hStill
      rw [hEnd, h.bytes hSound, hRead, hFile, hHandle, hFiles]
      simp [Files.read, Files.write]
    · refine .inr ⟨n, front, _, hFile.trans hHandle, rfl, ?_, rfl, fun hStill => (hBytes hStill).2⟩
      rw [hFiles]
      exact hLog
    · refine ⟨hTorn hAll, rfl, fun s hs => ?_⟩
      rcases List.mem_append.mp hs with hs | hs
      · exact (h.sound hAll).2.2 s (List.mem_append_left _ hs)
      · obtain rfl := List.mem_singleton.mp hs
        exact hWhole hAll

/-- Lines written whole follow the others. -/
theorem stored_append_written (h : Stored whole j filed refused) (hSound : j.tail.torn = false) :
    Stored whole (j.append_tail lines.flatten .written).2 (filed ++ lines) refused := by
  obtain ⟨aside, log, hTidy, rfl, hRefused⟩ := h
  refine @Tidy.put _ _ _ _ _ hTidy hSound _ lines [] (fun _ => rfl) ?_ ?_ (fun _ => ⟨?_, rfl⟩) (fun _ => ?_) ?_ <;>
    simp [append_tail, hSound, hRefused]

/-- A write that fails leaves the files as they were, once it is cut off. -/
theorem stored_append_failed (h : Stored whole j filed refused) (hSound : j.tail.torn = false)
    (text : Bytes) (bytes : Nat) (why : String) :
    Stored whole (j.append_tail text (.failed bytes why true)).2 filed refused := by
  obtain ⟨aside, log, hTidy, hFiled, hRefused⟩ := h
  -- `set_len` back to the counted bytes drops just what this write brought
  have hKept : (j.files.read j.tail.file ++ text.take bytes).take j.tail.bytes
      = j.files.read j.tail.file := by
    rw [hTidy.bytes hSound, List.take_left']
    rfl
  -- and writing what a file holds changes nothing
  have hSame : j.files.write (j.files.read j.tail.file) j.tail.file = j.files := by
    rcases hTidy.handle with ⟨hFile, hLog, -⟩ | ⟨n, front, last, hFile, hAside, -⟩
    · obtain ⟨text, hText⟩ := Option.isSome_iff_exists.mp hLog
      rw [hFile]
      simp only [Files.read, Files.write, hText, Option.getD_some]
      rw [← hText]
    · subst hAside
      rw [hFile]
      simp only [Files.read, Files.write, hTidy.read_aside, Option.getD_some]
      rw [BTreeMap.insert_get _ hTidy.read_aside]
  refine Stored.congr ⟨aside, log, hTidy, hFiled, hRefused⟩ ?_ ?_ ?_ ?_ ?_ <;>
    simp only [append_tail, hSound, Bool.false_eq_true, if_false]
  · rw [if_pos trivial, hKept, hSame]
  · rfl
  · exact hRefused

/-- Where it cannot be cut off, what reached the file stays there. -/
theorem stored_append_torn (h : Stored whole j filed refused) (hSound : j.tail.torn = false)
    (hNot : ¬whole) (text : Bytes) (bytes : Nat) (why : String) :
    Stored whole (j.append_tail text (.failed bytes why false)).2 filed refused := by
  obtain ⟨aside, log, hTidy, rfl, hRefused⟩ := h
  have hPut := @Tidy.put _ _ _ _ refused hTidy hSound (j.append_tail text (.failed bytes why false)).2 []
    (text.take bytes) (fun hAll => absurd hAll hNot) (by simp [append_tail, hSound]) (by simp [append_tail, hSound])
    (by simp [append_tail, hSound]) (fun hAll => absurd hAll hNot) (by simp [append_tail, hSound, hRefused])
  rwa [List.append_nil] at hPut

/-! ## Moving lines to the files -/

/-- A write cut short is cut off again. -/
def Attempt.CutsOff : Attempt → Prop
  | .written => True
  | .failed _ _ cut => cut = true

/-- An append writes its lines whole, or counts none of them. -/
theorem stored_append_tail (h : Stored whole j filed refused) {attempt : Attempt}
    (hCut : whole → attempt.CutsOff) :
    (∃ j', j.append_tail lines.flatten attempt = (.ok (), j') ∧
      Stored whole j' (filed ++ lines) refused) ∨
    (∃ why j', j.append_tail lines.flatten attempt = (.error why, j') ∧
      Stored whole j' filed refused) := by
  cases hTorn : j.tail.torn with
  | true => exact .inr ⟨_, j, if_pos hTorn, h⟩
  | false =>
    cases attempt with
    | written =>
      refine .inl ⟨_, Prod.ext ?_ rfl, stored_append_written h hTorn⟩
      simp [append_tail, hTorn]
    | failed bytes why cut =>
      refine .inr ⟨why, _, Prod.ext ?_ rfl, ?_⟩
      · simp [append_tail, hTorn]
      · cases cut with
        | true => exact stored_append_failed h hTorn _ bytes why
        | false => exact stored_append_torn h hTorn (fun hAll => Bool.false_ne_true (hCut hAll)) _ bytes why

theorem stored_note (h : Stored whole j filed refused) : Stored whole j.note filed refused :=
  h.congr rfl rfl rfl rfl h.refused_eq

theorem stored_with_refused (h : Stored whole j filed refused) (lines : List Bytes) :
    Stored whole (j.with_refused lines.flatten) filed lines :=
  h.congr rfl rfl rfl rfl rfl

/-- What writing does not touch. -/
theorem append_tail_frame (j : Journal) (text : Bytes) (attempt : Attempt) :
    (j.append_tail text attempt).2.seq = j.seq ∧
      (j.append_tail text attempt).2.pending = j.pending := by
  unfold append_tail
  split
  · exact ⟨rfl, rfl⟩
  · cases attempt <;> exact ⟨rfl, rfl⟩

theorem write_frame (j : Journal) (text : Bytes) (attempt : Attempt) :
    (j.write text attempt).2.seq = j.seq ∧ (j.write text attempt).2.pending = j.pending := by
  have hKept := append_tail_frame (j.with_refused []) (j.tail.refused ++ text) attempt
  unfold write
  dsimp only
  split
  · exact ⟨rfl, rfl⟩
  · split
    · next hEq => rwa [hEq] at hKept
    · next hEq => rwa [hEq] at hKept

/-- Lines handed to the tail follow the refused ones: into the files all of
them, or to the refused ones all of them. -/
theorem stored_write (h : Stored whole j filed refused) (hNe : ∀ line ∈ refused ++ lines, line ≠ [])
    {attempt : Attempt} (hCut : whole → attempt.CutsOff) :
    ∃ filed' refused', Stored whole (j.write lines.flatten attempt).2 filed' refused' ∧
      filed' ++ refused' = filed ++ refused ++ lines ∧
      ((j.write lines.flatten attempt).1 = .ok () → refused' = []) := by
  have hAll : j.tail.refused ++ lines.flatten = (refused ++ lines).flatten := by
    rw [h.refused_eq, List.flatten_append]
  have hEmptied : Stored whole (j.with_refused []) filed [] := stored_with_refused h []
  unfold write
  rw [hAll]
  dsimp only
  by_cases hNil : (refused ++ lines).flatten = []
  · -- there is nothing to write
    obtain ⟨rfl, rfl⟩ := List.append_eq_nil_iff.mp (flatten_eq_nil hNe hNil)
    exact ⟨filed, [], stored_note hEmptied, by simp, fun _ => rfl⟩
  · rw [if_neg (by simpa using hNil)]
    rcases @stored_append_tail _ _ _ _ (refused ++ lines) hEmptied _ hCut with
      ⟨j', hEq, hStored⟩ | ⟨why, j', hEq, hStored⟩
    · rw [hEq]
      exact ⟨filed ++ (refused ++ lines), [], stored_note hStored, by simp, fun _ => rfl⟩
    · rw [hEq]
      exact ⟨filed, refused ++ lines, stored_note (stored_with_refused hStored _), by simp,
        fun h => nomatch h⟩

/-- A line for a change not made yet goes after all the others, or nowhere. -/
theorem stored_finish_append (h : Stored whole j filed refused)
    (hNe : ∀ line ∈ refused ++ lines, line ≠ []) (line : Bytes)
    {first retry new : Attempt} (hFirst : whole → first.CutsOff) (hRetry : whole → retry.CutsOff)
    (hNew : whole → new.CutsOff) :
    (∃ j' filed', j.finish_append lines.flatten line first retry new = (.ok (), j') ∧
      Stored whole j' filed' [] ∧ filed' = filed ++ refused ++ lines ++ [line] ∧
      j'.seq = j.seq + 1 ∧ j'.pending = j.pending) ∨
    (∃ why j' filed' refused', j.finish_append lines.flatten line first retry new = (.error why, j') ∧
      Stored whole j' filed' refused' ∧ filed' ++ refused' = filed ++ refused ++ lines ∧
      j'.seq = j.seq ∧ j'.pending = j.pending) := by
  obtain ⟨filed₁, refused₁, hStored₁, hLines₁, hOk₁⟩ := stored_write h hNe hFirst
  obtain ⟨hSeq₁, hPending₁⟩ := write_frame j lines.flatten first
  unfold finish_append
  generalize j.write lines.flatten first = result₁ at *
  rcases result₁ with ⟨why | ⟨⟨⟩⟩, j₁⟩
  · -- what was pending is refused, and the new line is not tried
    exact .inr ⟨why, j₁, filed₁, refused₁, rfl, hStored₁, hLines₁, hSeq₁, hPending₁⟩
  · obtain rfl := hOk₁ rfl
    rw [List.append_nil] at hLines₁
    obtain ⟨filed₂, refused₂, hStored₂, hLines₂, hOk₂⟩ :=
      @stored_write whole j₁ filed₁ [] [] hStored₁ (by simp) retry hRetry
    obtain ⟨hSeq₂, hPending₂⟩ := write_frame j₁ [] retry
    rw [List.append_nil, List.append_nil, hLines₁] at hLines₂
    unfold write_new
    rw [List.flatten_nil] at hStored₂ hOk₂
    dsimp only at hSeq₁ hPending₁ ⊢
    generalize j₁.write [] retry = result₂ at *
    rcases result₂ with ⟨why | ⟨⟨⟩⟩, j₂⟩
    · -- the retry of the refused lines fails: the new one is not tried
      refine .inr ⟨why, j₂.note, filed₂, refused₂, rfl, stored_note hStored₂, hLines₂, ?_, ?_⟩
      · exact hSeq₂.trans hSeq₁
      · exact hPending₂.trans hPending₁
    · -- nothing is refused any more, and the new line is tried alone
      obtain rfl := hOk₂ rfl
      rw [List.append_nil] at hLines₂
      obtain ⟨hSeq₃, hPending₃⟩ := append_tail_frame j₂ line new
      have hTail := @stored_append_tail whole j₂ filed₂ [] [line] hStored₂ new hNew
      rw [List.flatten_cons, List.flatten_nil, List.append_nil] at hTail
      dsimp only at hSeq₂ hPending₂ ⊢
      rcases hTail with ⟨j₃, hEq, hStored₃⟩ | ⟨why, j₃, hEq, hStored₃⟩
      · rw [hEq] at hSeq₃ hPending₃ ⊢
        refine .inl ⟨_, filed₂ ++ [line], rfl, ?_, by rw [hLines₂], ?_, ?_⟩
        · exact hStored₃.congr rfl rfl rfl rfl hStored₃.refused_eq
        · show j₃.seq + 1 = j.seq + 1
          rw [hSeq₃, hSeq₂, hSeq₁]
        · exact hPending₃.trans (hPending₂.trans hPending₁)
      · rw [hEq] at hSeq₃ hPending₃ ⊢
        refine .inr ⟨why, _, filed₂, [], rfl, stored_note hStored₃, by simpa using hLines₂, ?_, ?_⟩
        · exact hSeq₃.trans (hSeq₂.trans hSeq₁)
        · exact hPending₃.trans (hPending₂.trans hPending₁)

/-! ## Setting the journal aside -/

/-- What a rewrite may do to the files. -/
theorem rewrite_ops_cases (files : Files) (seq : Nat) (fault : Option Fault) :
    (∃ ops, rewrite_ops files seq fault = (ops, false) ∧
      ∀ op ∈ ops, op = .removeNext ∨ op = .createNext) ∨
    (seq ∉ files.aside ∧ files.log.isSome ∧
      (rewrite_ops files seq fault
          = ([.removeNext, .createNext, .setAside seq, .removeNext], false) ∨
        rewrite_ops files seq fault
          = ([.removeNext, .createNext, .setAside seq, .restore seq, .removeNext], false) ∨
        rewrite_ops files seq fault
          = ([.removeNext, .createNext, .setAside seq, .publish], true))) ∨
    (seq ∈ files.aside ∧
      rewrite_ops files seq fault = ([.removeNext, .createNext, .publish], true)) := by
  -- set aside under this number already: it is not renamed again
  by_cases hAside : seq ∈ files.aside
  · have hContains : files.aside.contains seq = true := hAside
    cases fault with
    | none => exact .inr (.inr ⟨hAside, by simp [rewrite_ops, hContains]⟩)
    | some fault =>
      cases fault with
      | setAside => exact .inr (.inr ⟨hAside, by simp [rewrite_ops, hContains]⟩)
      | publish restored => exact .inl ⟨_, by simp [rewrite_ops, hContains]; rfl, by simp⟩
      | _ => exact .inl ⟨_, rfl, by simp⟩
  · have hContains : files.aside.contains seq = false := by
      rw [← Bool.not_eq_true]
      exact hAside
    -- without a journal.log the rename fails, whatever else would
    cases hLog : files.log with
    | none =>
      refine .inl ⟨(rewrite_ops files seq fault).1, Prod.ext rfl ?_, ?_⟩
      · cases fault with
        | none => simp [rewrite_ops, hContains, hLog]
        | some fault => cases fault <;> simp [rewrite_ops, hContains, hLog]
      · cases fault with
        | none => simp [rewrite_ops, hContains, hLog]
        | some fault => cases fault <;> simp [rewrite_ops, hContains, hLog]
    | some text =>
      cases fault with
      | none => exact .inr (.inl ⟨hAside, rfl, .inr (.inr (by simp [rewrite_ops, hContains, hLog]))⟩)
      | some fault =>
        cases fault with
        | setAside => exact .inl ⟨_, by simp [rewrite_ops, hContains]; rfl, by simp⟩
        | publish restored =>
          refine .inr (.inl ⟨hAside, rfl, ?_⟩)
          cases restored
          · exact .inl (by simp [rewrite_ops, hContains, hLog])
          · exact .inr (.inl (by simp [rewrite_ops, hContains, hLog]))
        | _ => exact .inl ⟨_, rfl, by simp⟩

/-- Making or removing `journal.next` is not seen by the other files. -/
theorem foldl_next (ops : List FileOp) (hOps : ∀ op ∈ ops, op = .removeNext ∨ op = .createNext)
    (files : Files) (handle : Handle) :
    (ops.foldl FileOp.run files).aside = files.aside ∧
      (ops.foldl FileOp.run files).log = files.log ∧ ops.foldl Handle.follow handle = handle := by
  induction ops generalizing files with
  | nil => exact ⟨rfl, rfl, rfl⟩
  | cons op ops ih =>
    obtain ⟨hHead, hTail⟩ := List.forall_mem_cons.mp hOps
    obtain ⟨hAside, hLog, hHandle⟩ := ih hTail (op.run files)
    rw [List.foldl_cons, List.foldl_cons, hAside, hLog]
    rcases hHead with rfl | rfl
    · exact ⟨rfl, rfl, hHandle⟩
    · exact ⟨rfl, rfl, hHandle⟩

/-- A journal set aside takes its lines with it. -/
theorem Tidy.set_aside (h : Tidy whole j aside log) (hNew : j.seq ∉ j.files.aside)
    (hAll : (lines_of aside ++ log.lines).length = j.seq) :
    (j.files.aside.insert j.seq log.bytes).toList
        = (aside ++ [(j.seq, log)]).map (fun s => (s.1, s.2.bytes)) ∧
      ∀ s ∈ aside ++ [(j.seq, log)], s.1 ≤ (lines_of (aside ++ [(j.seq, log)])).length := by
  have hLength : (lines_of (aside ++ [(j.seq, log)])).length = j.seq := by
    rw [← hAll]
    simp
  have hFront : ∀ s ∈ aside, s.1 ≤ j.seq := by
    intro s hs
    have hNumber := h.numbers s hs
    rw [List.length_append] at hAll
    omega
  constructor
  · rw [BTreeMap.toList_insert_last, h.aside_eq, List.map_append]
    · rfl
    · intro n hn
      obtain ⟨text, hText⟩ := (BTreeMap.mem_iff_get _ n).mp hn
      rw [← BTreeMap.mem_toList, h.aside_eq] at hText
      obtain ⟨s, hs, hEq⟩ := List.mem_map.mp hText
      have hNumber : s.1 = n := congrArg Prod.fst hEq
      have hLe := hFront s hs
      have hNe : n ≠ j.seq := by
        rintro rfl
        exact hNew hn
      omega
  · intro s hs
    rw [hLength]
    rcases List.mem_append.mp hs with hs | hs
    · exact hFront s hs
    · obtain rfl := List.mem_singleton.mp hs
      exact le_refl _

/-- A rewrite moves the lines, if anywhere, from `journal.log` to a journal set
aside, with what is torn behind them. The number it sets it aside under is that
of the last line. -/
theorem stored_finish_rewrite (h : Stored whole j filed refused)
    (hNe : ∀ line ∈ refused ++ lines, line ≠ []) (hAll : (filed ++ refused ++ lines).length = j.seq)
    {first : Attempt} (hFirst : whole → first.CutsOff) (fault : Option Fault) :
    (∃ filed' refused', Stored whole (j.finish_rewrite lines.flatten first fault).2 filed' refused' ∧
      filed' ++ refused' = filed ++ refused ++ lines) ∧
    (j.finish_rewrite lines.flatten first fault).2.seq = j.seq ∧
    (j.finish_rewrite lines.flatten first fault).2.pending = j.pending := by
  obtain ⟨filed₁, refused₁, hStored, hLines, hOk⟩ := stored_write h hNe hFirst
  obtain ⟨hSeq, hPending⟩ := write_frame j lines.flatten first
  unfold finish_rewrite
  generalize j.write lines.flatten first = result at *
  rcases result with ⟨why | ⟨⟨⟩⟩, j₁⟩
  · exact ⟨⟨filed₁, refused₁, hStored, hLines⟩, hSeq, hPending⟩
  obtain rfl := hOk rfl
  rw [List.append_nil] at hLines
  dsimp only at hSeq hPending hStored ⊢
  obtain ⟨aside, log, hTidy, hFiled, hRefused⟩ := hStored
  have hCount : (lines_of aside ++ log.lines).length = j₁.seq := by
    rw [← hFiled, hLines, hAll, hSeq]
  rcases rewrite_ops_cases j₁.files j₁.seq fault with
    ⟨ops, hOps, hNext⟩ | ⟨hNew, hLog, hOps⟩ | ⟨hOld, hOps⟩
  · -- it failed before anything was renamed
    obtain ⟨hAside', hLog', hHandle'⟩ := foldl_next ops hNext j₁.files j₁.tail.file
    rw [hOps]
    refine ⟨⟨filed₁, [], ⟨aside, log, ⟨?_, ?_, hTidy.numbers, ?_, ?_, hTidy.sound⟩, hFiled, hRefused⟩,
      by simpa using hLines⟩, hSeq, hPending⟩
    · exact (congrArg _ hAside').trans hTidy.aside_eq
    · exact (congrArg (Option.getD · []) hLog').trans hTidy.log_eq
    · have hRead : (ops.foldl FileOp.run j₁.files).read = j₁.files.read := by
        funext handle
        cases handle
        · simp only [Files.read, hLog']
        · simp only [Files.read, hAside']
      simp only [Bool.false_eq_true, if_false, hRead, hHandle']
      exact hTidy.bytes
    · simp only [Bool.false_eq_true, if_false, hHandle', hLog']
      exact hTidy.handle
  · -- it was renamed, so the tail was at the end of journal.log
    obtain ⟨text, hText⟩ := Option.isSome_iff_exists.mp hLog
    obtain ⟨hFile, hNone⟩ : j₁.tail.file = .log ∧ (j₁.tail.torn = false → log.torn = []) := by
      rcases hTidy.handle with ⟨hFile, -, hNone⟩ | ⟨n, front, last, -, -, hMissing, -⟩
      · exact ⟨hFile, hNone⟩
      · rw [hText] at hMissing
        cases hMissing
    obtain rfl : text = log.bytes := by
      have hLogEq := hTidy.log_eq
      rwa [hText] at hLogEq
    have hBytes : j₁.tail.torn = false → j₁.tail.bytes = log.bytes.length := by
      intro hSound
      rw [hTidy.bytes hSound, hFile, Files.read, hText]
      rfl
    obtain ⟨hMoved, hNumbers⟩ := hTidy.set_aside hNew hCount
    have hLines' : lines_of (aside ++ [(j₁.seq, log)]) = lines_of aside ++ log.lines := by simp
    have hTorn : whole → ∀ s ∈ aside ++ [(j₁.seq, log)], s.2.torn = [] := by
      intro hWhole s hs
      obtain ⟨-, hLogTorn, hAsideTorn⟩ := hTidy.sound hWhole
      rcases List.mem_append.mp hs with hs | hs
      · exact hAsideTorn s hs
      · obtain rfl := List.mem_singleton.mp hs
        exact hLogTorn
    rcases hOps with hOps | hOps | hOps <;> rw [hOps]
    · -- set aside, and not put back: the tail goes on writing to it
      refine ⟨⟨filed₁, [], ⟨aside ++ [(j₁.seq, log)], { lines := [] }, ⟨?_, ?_, hNumbers, ?_,
        .inr ⟨j₁.seq, aside, log, ?_, rfl, ?_, rfl, hNone⟩,
        fun hWhole => ⟨(hTidy.sound hWhole).1, rfl, hTorn hWhole⟩⟩, ?_, hRefused⟩, by simpa using hLines⟩,
        hSeq, hPending⟩
      · simpa [FileOp.run, hText] using hMoved
      · simp [FileOp.run, hText, Contents.bytes]
      · simpa [FileOp.run, hText, Handle.follow, hFile, Files.read] using hBytes
      · simp [Handle.follow, hFile]
      · simp [FileOp.run, hText]
      · rw [hFiled, hLines', List.append_nil]
    · -- put back
      have hBack : (j₁.files.aside.insert j₁.seq log.bytes).erase j₁.seq = j₁.files.aside := by
        refine BTreeMap.ext_get fun a => ?_
        rw [BTreeMap.get_erase, BTreeMap.get_insert]
        split
        · next hEq =>
          subst hEq
          exact (Std.ExtTreeMap.getElem?_eq_none hNew).symm
        · rfl
      refine ⟨⟨filed₁, [], ⟨aside, log, ⟨?_, ?_, hTidy.numbers, ?_, .inl ⟨?_, ?_, hNone⟩, hTidy.sound⟩,
        hFiled, hRefused⟩, by simpa using hLines⟩, hSeq, hPending⟩
      · simp [FileOp.run, hText, hBack, hTidy.aside_eq]
      · simp [FileOp.run, hText]
      · simpa [FileOp.run, hText, Handle.follow, hFile, Files.read] using hBytes
      · simp [Handle.follow, hFile]
      · simp [FileOp.run, hText]
    · -- the fresh journal took over
      refine ⟨⟨filed₁, [], ⟨aside ++ [(j₁.seq, log)], { lines := [] }, ⟨?_, ?_, hNumbers, fun _ => ?_,
        .inl ⟨rfl, ?_, fun _ => rfl⟩, fun hWhole => ⟨rfl, rfl, hTorn hWhole⟩⟩, ?_, hRefused⟩, by simpa using hLines⟩,
        hSeq, hPending⟩
      · simpa [note, FileOp.run, hText] using hMoved
      · simp [note, FileOp.run, hText, Contents.bytes]
      · simp [note, FileOp.run, hText, Files.read]
      · simp [note, FileOp.run, hText]
      · rw [hFiled, hLines', List.append_nil]
  · -- every line was set aside under this number before
    have hNumber : j₁.seq ≤ (lines_of aside).length := by
      obtain ⟨text, hText⟩ := (BTreeMap.mem_iff_get _ _).mp hOld
      rw [← BTreeMap.mem_toList, hTidy.aside_eq] at hText
      obtain ⟨s, hs, hEq⟩ := List.mem_map.mp hText
      have hNumber : s.1 = j₁.seq := congrArg Prod.fst hEq
      rw [← hNumber]
      exact hTidy.numbers s hs
    have hNone : log.lines = [] := by
      rw [List.length_append] at hCount
      exact List.length_eq_zero_iff.mp (by omega)
    rw [hNone] at hFiled
    rw [hOps]
    refine ⟨⟨filed₁, [], ⟨aside, { lines := [] }, ⟨?_, ?_, hTidy.numbers, fun _ => ?_, .inl ⟨rfl, ?_, fun _ => rfl⟩,
      fun hWhole => ⟨rfl, rfl, (hTidy.sound hWhole).2.2⟩⟩, hFiled, hRefused⟩, by simpa using hLines⟩, hSeq, hPending⟩
    · simp [note, FileOp.run, hTidy.aside_eq]
    · simp [note, FileOp.run, Contents.bytes]
    · simp [note, FileOp.run, Files.read]
    · simp [note, FileOp.run]

/-! ## Every step keeps the order -/

/-- The lines a thread writes that holds the tail, and those of one that waits
for it. -/
def World.held (w : World ε) : Bytes := w.holder.getD []

def World.taken (w : World ε) : Bytes := (w.request.map Prod.snd).getD []

/-- The five places, read in order, hold the lines of `effects`. -/
structure Placed (whole : Prop) (w : World ε) (effects : List ε)
    (filed refused held taken pending : List Bytes) : Prop where
  stored : Stored whole w.journal filed refused
  held_eq : w.held = held.flatten
  taken_eq : w.taken = taken.flatten
  pending_eq : w.journal.pending = pending.flatten
  numbered : Numbered (filed ++ refused ++ held ++ taken ++ pending) effects
  seq_eq : w.journal.seq = effects.length
  /-- A thread that waits for the tail took what was pending, and the line it
  brings is the next. -/
  waiting : ∀ request lines, w.request = some (request, lines) →
    w.journal.pending = [] ∧
    ∀ line effect, request = .append line effect →
      write_line (w.journal.seq + 1) effect = some line

/-- The five places are in order, with `settled` lines in the files or refused
and `held` lines being written. -/
def Ordered (whole : Prop) (w : World ε) (effects : List ε) (settled held : Nat) : Prop :=
  ∃ filed refused writing taken pending, Placed whole w effects filed refused writing taken pending ∧
    settled = (filed ++ refused).length ∧ held = writing.length

def Action.CutsOff : Action ε → Prop
  | .finish answers => answers.first.CutsOff ∧ answers.retry.CutsOff ∧ answers.new.CutsOff
  | .write attempt => attempt.CutsOff
  | _ => True

variable {w w' : World ε} {effects : List ε} {events : List (Event ε)} {settled held : Nat}

theorem ordered_fresh (whole : Prop) (fsync : Fsync) : Ordered whole (fresh fsync : World ε) [] 0 0 := by
  refine ⟨[], [], [], [], [], ⟨⟨[], { lines := [] }, ⟨rfl, rfl, by simp, fun _ => rfl, .inl ⟨rfl, rfl, fun _ => rfl⟩,
    fun _ => ⟨rfl, rfl, by simp⟩⟩, rfl, rfl⟩,
    rfl, rfl, rfl, rfl, rfl, ?_⟩, rfl, rfl⟩
  intro request lines h
  cases h

/-- A place whose bytes are none has no lines. -/
theorem Placed.eq_nil {filed refused writing taken pending place : List Bytes}
    (h : Placed whole w effects filed refused writing taken pending)
    (hPlace : ∀ line ∈ place, line ∈ filed ++ refused ++ writing ++ taken ++ pending)
    (hNil : place.flatten = []) : place = [] :=
  flatten_eq_nil (fun line hLine => h.numbered.ne_nil (hPlace line hLine)) hNil

/-- With nothing pending and nobody waiting, every line is settled or held. -/
theorem Ordered.total (h : Ordered whole w effects settled held) (hFree : w.request = none)
    (hPending : w.journal.pending = []) : settled + held = effects.length := by
  obtain ⟨filed, refused, writing, taken, pending, h, rfl, rfl⟩ := h
  have hTaken : taken = [] := by
    refine h.eq_nil (fun line hLine => by simp [hLine]) ?_
    rw [← h.taken_eq, World.taken, hFree]
    rfl
  have hNone : pending = [] := by
    refine h.eq_nil (fun line hLine => by simp [hLine]) ?_
    rw [← h.pending_eq, hPending]
  have hLength := h.numbered.length_eq
  subst hTaken hNone
  rw [List.append_nil, List.append_nil, List.length_append] at hLength
  exact hLength

theorem Ordered.held_eq_zero (h : Ordered whole w effects settled held) (hHolder : w.holder = none) :
    held = 0 := by
  obtain ⟨filed, refused, writing, taken, pending, h, rfl, rfl⟩ := h
  have hWriting : writing = [] := by
    refine h.eq_nil (fun line hLine => by simp [hLine]) ?_
    rw [← h.held_eq, World.held, hHolder]
    rfl
  rw [hWriting]
  rfl

theorem ordered_wait (h : Ordered whole w effects settled held) (hFree : w.request = none)
    (request : Request ε) (hLine : ∀ line effect, request = .append line effect →
      write_line (w.journal.seq + 1) effect = some line) :
    Ordered whole (w.wait request) effects settled held := by
  obtain ⟨filed, refused, writing, taken, pending, h, hSettled, hHeld⟩ := h
  have hTaken : taken = [] := by
    refine h.eq_nil (fun line hLine => by simp [hLine]) ?_
    rw [← h.taken_eq, World.taken, hFree]
    rfl
  subst hTaken
  refine ⟨filed, refused, writing, pending, [], ⟨h.stored.congr rfl rfl rfl rfl h.stored.refused_eq,
    h.held_eq, h.pending_eq, rfl, by simpa using h.numbered, h.seq_eq, ?_⟩, hSettled, hHeld⟩
  intro request' lines hRequest
  cases hRequest
  exact ⟨rfl, hLine⟩

theorem ordered_push (h : Ordered whole w effects settled held) (hFree : w.request = none) {effect : ε}
    {journal : Journal} (hPush : w.journal.push effect = some journal) :
    Ordered whole { w with journal } (effects ++ [effect]) settled held := by
  obtain ⟨filed, refused, writing, taken, pending, h, hSettled, hHeld⟩ := h
  obtain ⟨line, hLine, hJournal⟩ := Option.bind_eq_some_iff.mp hPush
  obtain rfl := Option.some.inj hJournal
  refine ⟨filed, refused, writing, taken, pending ++ [line],
    ⟨h.stored.congr rfl rfl rfl rfl h.stored.refused_eq, h.held_eq, h.taken_eq, ?_, ?_, ?_, ?_⟩,
    hSettled, hHeld⟩
  · rw [List.flatten_append, ← h.pending_eq]
    simp
  · rw [h.seq_eq] at hLine
    rw [← List.append_assoc]
    exact numbered_append h.numbered hLine
  · show w.journal.seq + 1 = (effects ++ [effect]).length
    rw [h.seq_eq, List.length_append]
    rfl
  · intro request lines hRequest
    rw [show w.request = some (request, lines) from hRequest] at hFree
    cases hFree

theorem ordered_flush_pending (h : Ordered whole w effects settled held) (hFree : w.request = none)
    (busy : Bool) : Ordered whole (w.flush_pending busy) effects settled held := by
  unfold World.flush_pending
  split
  · exact h
  · exact ordered_wait h hFree .flush fun _ _ hEq => nomatch hEq

/-- Starting an operation moves pending lines to the thread that waits, and
adds lines after all the others. -/
theorem ordered_start (h : Ordered whole w effects settled held) (hFree : w.request = none)
    {action : Action ε} (hStart : w.start action = some (events, w')) :
    Ordered whole w' (effects ++ accepted events) settled held := by
  have hNone : effects ++ accepted ([] : List (Event ε)) = effects := List.append_nil _
  cases action with
  -- the line is made, and the thread waits for the tail with it
  | append effect =>
    simp only [World.start] at hStart
    split at hStart
    · cases hStart
      simpa [accepted] using h
    · split at hStart
      · cases hStart
        simpa [accepted] using h
      · next line hLine =>
        cases hStart
        rw [hNone]
        refine ordered_wait h hFree _ ?_
        rintro _ _ ⟨⟩
        exact hLine
  -- the change is made in memory, and its line waits among the pending ones
  | defer effect =>
    simp only [World.start] at hStart
    split at hStart
    · next hPush =>
      cases hStart
      exact ordered_push h hFree hPush
    · cases hStart
      simpa [accepted] using h
  | appendApplied effect busy =>
    simp only [World.start] at hStart
    split at hStart
    · next hPush =>
      cases hStart
      exact ordered_flush_pending (ordered_push h hFree hPush) hFree busy
    · cases hStart
      simpa [accepted] using h
  | flushPending busy =>
    cases hStart
    simpa [accepted] using ordered_flush_pending h hFree busy
  | takePending holding_up =>
    simp only [World.start] at hStart
    split at hStart
    · cases hStart
      simpa [accepted] using h
    · cases hStart
      rw [hNone]
      exact ordered_wait h hFree .take fun _ _ hEq => nomatch hEq
  | startRewrite =>
    cases hStart
    rw [hNone]
    exact ordered_wait h hFree .rewrite fun _ _ hEq => nomatch hEq
  | synced failure =>
    cases hStart
    obtain ⟨filed, refused, writing, taken, pending, h, hSettled, hHeld⟩ := h
    rw [hNone]
    exact ⟨filed, refused, writing, taken, pending,
      ⟨h.stored.congr rfl rfl rfl rfl h.stored.refused_eq, h.held_eq, h.taken_eq, h.pending_eq,
        h.numbered, h.seq_eq, h.waiting⟩, hSettled, hHeld⟩
  | finish answers => cases hStart
  | write attempt => cases hStart

/-- A thread that got the tail moves the lines it took to the files or the
refused ones, with all before them, or keeps them to write. -/
theorem ordered_finish (h : Ordered whole w effects settled held) (hHolder : w.holder = none)
    {request : Request ε} {lines : Bytes} (hRequest : w.request = some (request, lines))
    {answers : Answers} (hCut : whole → (Action.finish answers : Action ε).CutsOff) :
    ∃ settled' held', Ordered whole (w.finish answers lines request).2
        (effects ++ accepted (w.finish answers lines request).1) settled' held' ∧
      (w.finish answers lines request).2.journal.pending = [] ∧ settled ≤ settled' ∧
      (request = .take → settled' = settled) ∧
      (request ≠ .take → (w.finish answers lines request).2.holder = none) := by
  obtain ⟨filed, refused, writing, taken, pending, h, rfl, -⟩ := h
  obtain ⟨hPending, hLine⟩ := h.waiting request lines hRequest
  have hFirst := fun hWhole => (hCut hWhole).1
  have hRetry := fun hWhole => (hCut hWhole).2.1
  have hNew := fun hWhole => (hCut hWhole).2.2
  -- nobody else holds the tail, and the waiting thread took all that was pending
  have hWriting : writing = [] := by
    refine h.eq_nil (fun line hMem => by simp [hMem]) ?_
    rw [← h.held_eq, World.held, hHolder]
    rfl
  have hNothing : pending = [] := by
    refine h.eq_nil (fun line hMem => by simp [hMem]) ?_
    rw [← h.pending_eq, hPending]
  subst hWriting hNothing
  have hTaken : lines = taken.flatten := by
    have := h.taken_eq
    rwa [World.taken, hRequest] at this
  subst hTaken
  have hNumbered : Numbered (filed ++ refused ++ taken) effects := by simpa using h.numbered
  have hMoved : ∀ line ∈ refused ++ taken, line ≠ [] := by
    intro line hMem
    refine h.numbered.ne_nil ?_
    rcases List.mem_append.mp hMem with hMem | hMem <;> simp [hMem]
  have hNone : effects ++ accepted ([] : List (Event ε)) = effects := List.append_nil _
  have hHeld : (w.holder.getD [] : Bytes) = ([] : List Bytes).flatten := by
    rw [hHolder]
    rfl
  -- where the lines end up, and nobody waits any more
  have hDone {journal : Journal} {filed' refused' more : List Bytes} {effects' : List ε}
      (hStored : Stored whole journal filed' refused')
      (hFiled : filed' ++ refused' = filed ++ refused ++ taken ++ more)
      (hNumbered' : Numbered (filed ++ refused ++ taken ++ more) effects')
      (hSeq : journal.seq = effects'.length) (hNothing : journal.pending = []) :
      ∃ settled' held', Ordered whole { w with journal, request := none } effects' settled' held' ∧
        journal.pending = [] ∧ (filed ++ refused).length ≤ settled' := by
    refine ⟨_, _, ⟨filed', refused', [], [], [], ⟨hStored, hHeld, rfl, hNothing,
      by simpa [hFiled] using hNumbered', hSeq, ?_⟩, rfl, rfl⟩, hNothing, ?_⟩
    · intro request lines hEq
      cases hEq
    · rw [hFiled]
      simp only [List.length_append]
      omega
  cases request with
  | append line effect =>
    have hLine' := hLine line effect rfl
    rw [h.seq_eq] at hLine'
    rcases stored_finish_append h.stored hMoved line hFirst hRetry hNew with
      ⟨j', filed', hEq, hStored, hFiled, hSeq, hKept⟩ |
      ⟨why, j', filed', refused', hEq, hStored, hFiled, hSeq, hKept⟩
    · simp only [World.finish, hEq]
      obtain ⟨settled', held', hOrdered, hRest⟩ := hDone hStored
        (by rw [List.append_nil, hFiled]) (numbered_append hNumbered hLine')
        (by rw [hSeq, h.seq_eq, List.length_append]; rfl) (hKept.trans hPending)
      exact ⟨settled', held', hOrdered, hRest.1, hRest.2, by rintro ⟨⟩, fun _ => hHolder⟩
    · simp only [World.finish, hEq]
      obtain ⟨settled', held', hOrdered, hRest⟩ := hDone hStored
        (hFiled.trans (List.append_nil _).symm) (by rwa [List.append_nil])
        (hSeq.trans h.seq_eq) (hKept.trans hPending)
      refine ⟨settled', held', ?_, hRest.1, hRest.2, by rintro ⟨⟩, fun _ => hHolder⟩
      rwa [show effects ++ accepted [Event.refused effect] = effects from List.append_nil _]
  | flush =>
    obtain ⟨filed', refused', hStored, hFiled, -⟩ := stored_write h.stored hMoved hFirst
    obtain ⟨hSeq, hKept⟩ := write_frame w.journal taken.flatten answers.first
    simp only [World.finish, hNone]
    obtain ⟨settled', held', hOrdered, hRest⟩ := hDone hStored
      (hFiled.trans (List.append_nil _).symm) (by rwa [List.append_nil])
      (hSeq.trans h.seq_eq) (hKept.trans hPending)
    exact ⟨settled', held', hOrdered, hRest.1, hRest.2, by rintro ⟨⟩, fun _ => hHolder⟩
  -- the thread keeps the tail, and writes what it took later
  | take =>
    simp only [World.finish, hNone]
    refine ⟨_, _, ⟨filed, refused, taken, [], [], ⟨h.stored, rfl, rfl, hPending,
      by simpa using hNumbered, h.seq_eq, ?_⟩, rfl, rfl⟩, hPending, le_refl _, fun _ => rfl, ?_⟩
    · intro request lines hEq
      cases hEq
    · exact fun hNe => absurd rfl hNe
  -- all lines are settled by then, so the number a journal is set aside under is their last
  | rewrite =>
    have hAll : (filed ++ refused ++ taken).length = w.journal.seq := by
      rw [hNumbered.length_eq, h.seq_eq]
    obtain ⟨⟨filed', refused', hStored, hFiled⟩, hSeq, hKept⟩ :=
      stored_finish_rewrite h.stored hMoved hAll hFirst answers.fault
    simp only [World.finish, hNone]
    obtain ⟨settled', held', hOrdered, hRest⟩ := hDone hStored
      (hFiled.trans (List.append_nil _).symm) (by rwa [List.append_nil])
      (hSeq.trans h.seq_eq) (hKept.trans hPending)
    exact ⟨settled', held', hOrdered, hRest.1, hRest.2, by rintro ⟨⟩, fun _ => hHolder⟩

/-- The thread that took lines writes them after those the disk refused. -/
theorem ordered_write (h : Ordered whole w effects settled held) {lines : Bytes}
    (hHolder : w.holder = some lines) {attempt : Attempt} (hCut : whole → attempt.CutsOff) :
    Ordered whole { w with journal := (w.journal.write lines attempt).2, holder := none } effects
      (settled + held) 0 := by
  obtain ⟨filed, refused, writing, taken, pending, h, rfl, rfl⟩ := h
  have hHeld : lines = writing.flatten := by
    have := h.held_eq
    rwa [World.held, hHolder] at this
  subst hHeld
  have hMoved : ∀ line ∈ refused ++ writing, line ≠ [] := by
    intro line hMem
    refine h.numbered.ne_nil ?_
    rcases List.mem_append.mp hMem with hMem | hMem <;> simp [hMem]
  obtain ⟨filed', refused', hStored, hFiled, -⟩ := stored_write h.stored hMoved hCut
  obtain ⟨hSeq, hKept⟩ := write_frame w.journal writing.flatten attempt
  refine ⟨filed', refused', [], taken, pending, ⟨hStored, rfl, h.taken_eq,
    hKept.trans h.pending_eq, ?_, hSeq.trans h.seq_eq, ?_⟩, ?_, rfl⟩
  · rw [List.append_nil, hFiled]
    exact h.numbered
  · intro request lines hRequest
    obtain ⟨hPending, hLine⟩ := h.waiting request lines hRequest
    refine ⟨hKept.trans hPending, ?_⟩
    show ∀ line effect, _ → write_line ((w.journal.write writing.flatten attempt).2.seq + 1) effect = _
    rw [hSeq]
    exact hLine
  · rw [hFiled]
    exact List.length_append.symm

theorem ordered_step (h : Ordered whole w effects settled held) {action : Action ε}
    (hCut : whole → action.CutsOff) (hStep : w.step action = some (events, w')) :
    ∃ settled' held', Ordered whole w' (effects ++ accepted events) settled' held' := by
  have hStart (hStep : (if w.request.isNone then w.start action else none) = some (events, w')) :
      ∃ settled' held', Ordered whole w' (effects ++ accepted events) settled' held' := by
    split at hStep
    · next hFree => exact ⟨_, _, ordered_start h (Option.isNone_iff_eq_none.mp hFree) hStep⟩
    · cases hStep
  cases action with
  | finish answers =>
    simp only [World.step] at hStep
    split at hStep
    · next hRequest hHolder =>
      obtain ⟨settled', held', hFinish, -⟩ := ordered_finish h hHolder hRequest hCut
      rw [Option.some.inj hStep] at hFinish
      exact ⟨settled', held', hFinish⟩
    · cases hStep
  | write attempt =>
    simp only [World.step] at hStep
    split at hStep
    · next hHolder =>
      cases hStep
      refine ⟨settled + held, 0, ?_⟩
      rw [show effects ++ accepted ([] : List (Event ε)) = effects from List.append_nil _]
      exact ordered_write h hHolder hCut
    · cases hStep
  | _ => exact hStart hStep

theorem ordered_run (actions : List (Action ε)) :
    ∀ (w : World ε) (effects : List ε) (settled held : Nat) {events : List (Event ε)}
      {w' : World ε}, Ordered whole w effects settled held →
      (whole → ∀ action ∈ actions, action.CutsOff) → w.run actions = some (events, w') →
      ∃ settled' held', Ordered whole w' (effects ++ accepted events) settled' held' := by
  -- on the actions: the effects of the first stand before those of the rest
  induction actions with
  | nil =>
    intro w effects settled held events w' h _ hRun
    cases hRun
    exact ⟨settled, held, by simpa [accepted] using h⟩
  | cons action actions ih =>
    intro w effects settled held events w' h hCut hRun
    obtain ⟨⟨now, w₁⟩, hStep, hRest⟩ := Option.bind_eq_some_iff.mp hRun
    obtain ⟨⟨more, w₂⟩, hMore, hEq⟩ := Option.bind_eq_some_iff.mp hRest
    obtain ⟨rfl, rfl⟩ := Prod.mk.inj (Option.some.inj hEq)
    have hHead := fun hWhole => (List.forall_mem_cons.mp (hCut hWhole)).1
    have hTail := fun hWhole => (List.forall_mem_cons.mp (hCut hWhole)).2
    obtain ⟨settled₁, held₁, hFirst⟩ := ordered_step h hHead hStep
    obtain ⟨settled₂, held₂, hNext⟩ := ih w₁ _ settled₁ held₁ hFirst hTail hMore
    refine ⟨settled₂, held₂, ?_⟩
    rw [accepted, List.filterMap_append]
    rwa [List.append_assoc] at hNext

/-- At every moment of every run, the journals set aside, `journal.log`, the
refused lines, those being written, those taken to be written and the pending
ones, read in that order, are the lines of the effects journaled so far,
numbered from one to the journal's number, each once and whole. An append that
failed is not among the effects journaled. -/
theorem journal_order (fsync : Fsync) (actions : List (Action ε)) {events : List (Event ε)}
    {w : World ε} (hRun : (fresh fsync).run actions = some (events, w))
    (hCut : ∀ action ∈ actions, action.CutsOff) :
    ∃ (aside : List (Nat × List Bytes)) (log refused held taken pending : List Bytes),
      w.journal.files.aside.toList = aside.map (fun s => (s.1, s.2.flatten)) ∧
      w.journal.files.log.getD [] = log.flatten ∧
      w.journal.tail.refused = refused.flatten ∧
      w.held = held.flatten ∧ w.taken = taken.flatten ∧ w.journal.pending = pending.flatten ∧
      (aside.flatMap Prod.snd ++ log ++ refused ++ held ++ taken ++ pending).map some
        = ((accepted events).zipIdx 1).map (fun p => write_line p.2 p.1) ∧
      w.journal.seq = (accepted events).length := by
  obtain ⟨-, -, filed, refused, writing, taken, pending, h, -, -⟩ :=
    ordered_run actions (fresh fsync) [] 0 0 (ordered_fresh True fsync) (fun _ => hCut) hRun
  obtain ⟨aside, log, hTidy, rfl, hRefused⟩ := h.stored
  obtain ⟨-, hLog, hAside⟩ := hTidy.sound trivial
  -- with nothing torn, the files hold lines and no more
  obtain ⟨whole, hWhole⟩ : ∃ whole : List (Nat × List Bytes), whole = aside.map fun s => (s.1, s.2.lines) := ⟨_, rfl⟩
  have hLines : lines_of aside = whole.flatMap Prod.snd := by
    rw [hWhole, List.flatMap_map]
    rfl
  have hNumbered := h.numbered
  rw [hLines, List.nil_append] at hNumbered
  refine ⟨whole, log.lines, refused, writing, taken, pending, ?_, ?_, hRefused,
    h.held_eq, h.taken_eq, h.pending_eq, hNumbered, h.seq_eq⟩
  · rw [hTidy.aside_eq, hWhole, List.map_map]
    refine List.map_congr_left fun s hs => ?_
    rw [Contents.bytes, hAside s hs, List.append_nil]
    rfl
  · rw [hTidy.log_eq, Contents.bytes, hLog, List.append_nil]

/-- An append that fails, a change taken and then refused by the disk, a rewrite
that writes it, and an append after that. -/
def diskFull : List (Action Forget) :=
  [.append .a, .finish { new := .failed 5 "no space left on device" true },
    .defer .b, .takePending false, .finish {}, .write (.failed 3 "no space left on device" true),
    .startRewrite, .finish {}, .append .a, .finish {}]

theorem journal_order_diskFull :
    ∃ events w, (fresh .everySec).run diskFull = some (events, w) ∧
      ∃ (aside : List (Nat × List Bytes)) (log refused held taken pending : List Bytes),
        w.journal.files.aside.toList = aside.map (fun s => (s.1, s.2.flatten)) ∧
        w.journal.files.log.getD [] = log.flatten ∧
        w.journal.tail.refused = refused.flatten ∧
        w.held = held.flatten ∧ w.taken = taken.flatten ∧ w.journal.pending = pending.flatten ∧
        (aside.flatMap Prod.snd ++ log ++ refused ++ held ++ taken ++ pending).map some
          = ((accepted events).zipIdx 1).map (fun p => write_line p.2 p.1) ∧
        w.journal.seq = (accepted events).length := by
  have hCut : ∀ action ∈ diskFull, action.CutsOff := by
    simp [diskFull, Action.CutsOff, Attempt.CutsOff]
  have hRun : ((fresh .everySec).run diskFull).isSome := by decide +kernel
  obtain ⟨⟨events, w⟩, hRun⟩ := Option.isSome_iff_exists.mp hRun
  exact ⟨events, w, hRun, journal_order .everySec diskFull hRun hCut⟩

end Postino.Journal
