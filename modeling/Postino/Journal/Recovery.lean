import Postino.Journal.Open
import Postino.Lib.Crash

/-!
# Recovery

However often the process dies and starts again, and wherever in its own work
each time, starting it gives back every effect whose append completed.

Each journal holds consecutive lines of the history (`entries`): the one set
aside as `seq` ends at line `seq`, and `journal.log` at the last. Read in order,
from the snapshot's number on, each begins where the ones before it ended
(`Chain`), so that no line above that number is read twice, or missed.

* `DiskSound` — what the files of the directory hold, at every moment;
* `open_journal_sound` — what opening such a directory gives;
* `rewrite_continues` / `open_continues` — a rewrite, and opening a journal, keep
  `DiskSound` wherever they are cut;
* `sound_append` / `sound_land` / `sound_removeAside` — what happens while the
  process runs;
* `open_recovers` — the result.
-/

namespace Postino.Journal

open Lib

variable {ε σ : Type} [EffectJson ε]

/-! ## Slices of the history -/

/-- Effects with their numbers, the first `seq + 1`. -/
def entries (seq : Nat) : List ε → List (Nat × ε)
  | [] => []
  | effect :: effects => (seq + 1, effect) :: entries (seq + 1) effects

/-- The lines after number `a` up to `b`. -/
def slice (history : List ε) (a b : Nat) : List (Nat × ε) :=
  entries a ((history.take b).drop a)

variable {history effects : List ε} {apply : σ → ε → σ} {text torn : Bytes} {a b S r e M seq : Nat}

omit [EffectJson ε] in
theorem entries_append (seq : Nat) (xs ys : List ε) :
    entries seq (xs ++ ys) = entries seq xs ++ entries (seq + xs.length) ys := by
  induction xs generalizing seq with
  | nil => rfl
  | cons x xs ih =>
    rw [List.cons_append, entries, entries, ih, List.length_cons, List.cons_append]
    rw [Nat.add_right_comm, Nat.add_assoc]

omit [EffectJson ε] in
/-- Lines up to a number stay as they are when more follow. -/
theorem slice_append (h : b ≤ history.length) : slice (history ++ effects) a b = slice history a b := by
  rw [slice, List.take_append_of_le_length h, slice]

omit [EffectJson ε] in
theorem slice_all (h : a ≤ history.length) :
    slice (history ++ effects) a (history ++ effects).length
      = slice history a history.length ++ entries history.length effects := by
  rw [slice, List.take_length, List.drop_append_of_le_length h, entries_append, slice,
    List.take_length, List.length_drop, Nat.add_sub_cancel' h]

omit [EffectJson ε] in
/-- Of numbered effects, those above the snapshot's number are applied. -/
theorem applyAbove_entries (S : Nat) (apply : σ → ε → σ) (effects : List ε) :
    ∀ (seq : Nat) (store : σ),
      applyAbove S apply (entries seq effects) store = (effects.drop (S - seq)).foldl apply store := by
  induction effects with
  | nil => intro seq store; simp [entries, applyAbove]
  | cons effect effects ih =>
    intro seq store
    show applyAbove S apply (entries (seq + 1) effects)
      (if seq + 1 > S then apply store effect else store) = _
    rw [ih]
    split
    · next hAbove =>
      rw [show S - seq = 0 by omega, show S - (seq + 1) = 0 by omega]
      rfl
    · next hAbove =>
      rw [show S - seq = S - (seq + 1) + 1 by omega]
      rfl

omit [EffectJson ε] in
theorem max_entries (m : Nat) (effects : List ε) :
    ∀ seq, ((entries seq effects).map Prod.fst).foldl max m
      = if effects = [] then m else max m (seq + effects.length) := by
  induction effects generalizing m with
  | nil => intro seq; rfl
  | cons effect effects ih =>
    intro seq
    rw [entries, List.map_cons, List.foldl_cons, ih, if_neg (List.cons_ne_nil _ _), List.length_cons]
    split
    · next hNil => rw [hNil, List.length_nil]
    · omega

omit [EffectJson ε] in
/-- Reading a slice that begins where the ones before it ended, at `r`. -/
theorem applyAbove_slice (empty : σ) (hStart : max a S = r) (hEnd : b ≤ history.length) :
    applyAbove S apply (slice history a b) ((history.take r).foldl apply empty)
      = (history.take (max r b)).foldl apply empty := by
  have hDrop : a + (S - a) = r := by omega
  rw [slice, applyAbove_entries, List.drop_drop, hDrop, ← List.foldl_append]
  congr 1
  by_cases hLe : r ≤ b
  · have hSplit := List.take_append_drop r (history.take b)
    rw [List.take_take, min_eq_left hLe] at hSplit
    rw [max_eq_right hLe, hSplit]
  · rw [max_eq_left (by omega), List.drop_eq_nil_of_le (by rw [List.length_take]; omega),
      List.append_nil]

omit [EffectJson ε] in
theorem max_slice (hOrder : a ≤ b) (hStart : max a S = r) (hEnd : b ≤ history.length) :
    max r (((slice history a b).map Prod.fst).foldl max S) = max r b := by
  rw [slice, max_entries]
  have hLength : ((history.take b).drop a).length = b - a := by
    rw [List.length_drop, List.length_take, min_eq_left hEnd]
  split
  · next hNil =>
    rw [hNil, List.length_nil] at hLength
    omega
  · rw [hLength]
    omega

/-! ## Written slices -/

theorem Written.append {xs ys : List (Nat × ε)} {more : Bytes} (h : Written xs text)
    (hMore : Written ys more) : Written (xs ++ ys) (text ++ more) := by
  obtain ⟨lines, hLines, rfl⟩ := h
  obtain ⟨lines', hLines', rfl⟩ := hMore
  exact ⟨lines ++ lines', by rw [List.map_append, hLines, hLines', List.map_append],
    (List.flatten_append).symm⟩

theorem written_nil : Written ([] : List (Nat × ε)) [] := ⟨[], rfl, rfl⟩

theorem written_lines {lines : List Bytes} (h : write_lines seq effects = some lines) :
    Written (entries seq effects) lines.flatten := by
  induction effects generalizing seq lines with
  | nil =>
    cases h
    exact written_nil
  | cons effect effects ih =>
    obtain ⟨line, hLine, hRest⟩ := Option.bind_eq_some_iff.mp h
    obtain ⟨rest, hLines, hEq⟩ := Option.bind_eq_some_iff.mp hRest
    obtain rfl := Option.some.inj hEq
    have hHead : Written [(seq + 1, effect)] line := ⟨[line], by simp [hLine], by simp⟩
    exact hHead.append (ih hLines)

/-- What is left of lines cut anywhere: the whole ones, and a torn one. -/
theorem written_cut (hLawful : Lawful ε) {lines : List Bytes} (bytes : Nat)
    (h : write_lines seq effects = some lines) :
    ∃ text torn, lines.flatten.take bytes = text ++ torn ∧
      Written (entries seq (effects.take (whole lines bytes))) text ∧ newline ∉ torn := by
  induction effects generalizing seq lines bytes with
  | nil =>
    cases h
    exact ⟨[], [], by simp, written_nil, List.not_mem_nil⟩
  | cons effect effects ih =>
    obtain ⟨line, hLine, hRest⟩ := Option.bind_eq_some_iff.mp h
    obtain ⟨rest, hLines, hEq⟩ := Option.bind_eq_some_iff.mp hRest
    obtain rfl := Option.some.inj hEq
    rw [List.flatten_cons, List.take_append, whole]
    split
    · next hWhole =>
      obtain ⟨text, torn, hCut, hWritten, hTorn⟩ := ih (bytes - line.length) hLines
      have hHead : Written [(seq + 1, effect)] line := ⟨[line], by simp [hLine], by simp⟩
      refine ⟨line ++ text, torn, ?_, hHead.append hWritten, hTorn⟩
      rw [List.take_of_length_le hWhole, hCut, List.append_assoc]
    · next hCut =>
      -- cut before the newline the line ends with
      obtain ⟨body, hBody, hNewline⟩ := write_line_newline hLawful hLine
      refine ⟨[], line.take bytes, ?_, written_nil, ?_⟩
      · rw [show bytes - line.length = 0 by omega, List.take_zero, List.append_nil, List.nil_append]
      · have hShort : bytes ≤ body.length := by
          rw [hBody, List.length_append, List.length_singleton] at hCut
          omega
        rw [hBody, List.take_append_of_le_length hShort]
        exact fun hMem => hNewline (List.mem_of_mem_take hMem)

/-! ## What the directory holds -/

/-- The journals set aside as `keys`, each with the lines after its `start`: read
in order from number `r` on, each begins where the ones before it ended, and the
last ends at `e`. What begins at or below `S` counts from there. -/
def Chain (S : Nat) (start : Nat → Nat) : Nat → List Nat → Nat → Prop
  | r, [], e => r = e
  | r, M :: keys, e => start M ≤ M ∧ max (start M) S = r ∧ Chain S start (max r M) keys e

variable {start : Nat → Nat} {keys : List Nat} {files : Files}

theorem Chain.append_last (h : Chain S start r keys e) (hOrder : start M ≤ M)
    (hStart : max (start M) S = e) : Chain S start r (keys ++ [M]) (max e M) := by
  induction keys generalizing r with
  | nil =>
    obtain rfl := h
    exact ⟨hOrder, hStart, rfl⟩
  | cons N keys ih => exact ⟨h.1, h.2.1, ih h.2.2⟩

theorem Chain.congr {start' : Nat → Nat} (h : Chain S start r keys e)
    (hSame : ∀ M ∈ keys, start' M = start M) : Chain S start' r keys e := by
  induction keys generalizing r with
  | nil => exact h
  | cons M keys ih =>
    obtain ⟨hHead, hTail⟩ := List.forall_mem_cons.mp hSame
    rw [Chain, hHead]
    exact ⟨h.1, h.2.1, ih h.2.2 hTail⟩

theorem Chain.le (h : Chain S start r keys e) : r ≤ e := by
  induction keys generalizing r with
  | nil => exact h.le
  | cons M keys ih => exact (le_max_left _ _).trans (ih h.2.2)

theorem Chain.le_of_mem (h : Chain S start r keys e) (hM : M ∈ keys) : start M ≤ M ∧ M ≤ e := by
  induction keys generalizing r with
  | nil => cases hM
  | cons N keys ih =>
    rcases List.mem_cons.mp hM with rfl | hM
    · exact ⟨h.1, (le_max_right _ _).trans h.2.2.le⟩
    · exact ih h.2.2 hM

/-- A journal the snapshot covers is not missed. -/
theorem Chain.remove (h : Chain S start r keys e) (hS : S ≤ r) (hM : M ≤ S) :
    Chain S start r (keys.filter (· ≠ M)) e := by
  induction keys generalizing r with
  | nil => exact h
  | cons N keys ih =>
    have hRest := ih h.2.2 (hS.trans (le_max_left _ _))
    by_cases hEq : N = M
    · subst hEq
      rw [List.filter_cons_of_neg (by simp)]
      rwa [max_eq_left (by omega)] at hRest
    · rw [List.filter_cons_of_pos (by simpa using hEq)]
      exact ⟨h.1, h.2.1, hRest⟩

/-- Once a snapshot covers all of them, they add nothing. -/
theorem Chain.cover (h : Chain S start r keys e) {S' : Nat} (hKeys : ∀ M ∈ keys, M ≤ S') :
    Chain S' start S' keys S' := by
  induction keys generalizing r with
  | nil => rfl
  | cons M keys ih =>
    obtain ⟨hHead, hTail⟩ := List.forall_mem_cons.mp hKeys
    refine ⟨h.1, max_eq_right (h.1.trans hHead), ?_⟩
    rw [max_eq_left hHead]
    exact ih h.2.2 hTail

/-- The journals hold the lines of `history` above number `S`, with `journal.log`
those after `a` and a torn line. -/
structure Filed (history : List ε) (S : Nat) (start : Nat → Nat) (a : Nat) (torn : Bytes)
    (files : Files) : Prop where
  aside : ∀ M text, files.aside[M]? = some text →
    M ≤ history.length ∧ Written (slice history (start M) M) text
  chain : Chain S start S (files.aside.toList.map Prod.fst) (max a S)
  a_le : a ≤ history.length
  log : ∃ text, files.log.getD [] = text ++ torn ∧ Written (slice history a history.length) text
  no_newline : newline ∉ torn

theorem Filed.mem_keys (files : Files) :
    M ∈ files.aside.toList.map Prod.fst ↔ ∃ text, files.aside[M]? = some text := by
  rw [List.mem_map]
  constructor
  · rintro ⟨⟨N, text⟩, hMem, rfl⟩
    exact ⟨text, (BTreeMap.mem_toList _ _ _).mp hMem⟩
  · rintro ⟨text, hText⟩
    exact ⟨(M, text), (BTreeMap.mem_toList _ _ _).mpr hText, rfl⟩

theorem Filed.congr {files' : Files} (h : Filed history S start a torn files)
    (hAside : files'.aside = files.aside) (hLog : files'.log.getD [] = files.log.getD []) :
    Filed history S start a torn files' := by
  refine ⟨?_, ?_, h.a_le, ?_, h.no_newline⟩
  · rw [hAside]
    exact h.aside
  · rw [hAside]
    exact h.chain
  · rw [hLog]
    exact h.log

theorem Filed.removeAside (h : Filed history S start a torn files) (hM : M ≤ S) :
    Filed history S start a torn { files with aside := files.aside.erase M } := by
  refine ⟨fun N text hText => h.aside N text ?_, ?_, h.a_le, h.log, h.no_newline⟩
  · rw [BTreeMap.get_erase] at hText
    split at hText
    · cases hText
    · exact hText
  · show Chain S start S ((files.aside.erase M).toList.map Prod.fst) (max a S)
    have hKeys : ((files.aside.erase M).toList.map Prod.fst)
        = (files.aside.toList.map Prod.fst).filter (· ≠ M) := by
      rw [BTreeMap.toList_erase, List.filter_map]
      rfl
    rw [hKeys]
    exact h.chain.remove (le_refl S) hM

/-- Lines written whole follow those of `journal.log`, and what is cut off of the
last is torn. -/
theorem Filed.append {more torn : Bytes} (h : Filed history S start a [] files)
    (hMore : Written (entries history.length effects) more) (hTorn : newline ∉ torn) :
    Filed (history ++ effects) S start a torn (files.append (more ++ torn)) := by
  obtain ⟨text, hLog, hText⟩ := h.log
  refine ⟨fun M file hFile => ?_, h.chain, ?_, ⟨text ++ more, ?_, ?_⟩, hTorn⟩
  · obtain ⟨hLe, hWritten⟩ := h.aside M file hFile
    rw [slice_append hLe, List.length_append]
    exact ⟨hLe.trans (Nat.le_add_right _ _), hWritten⟩
  · rw [List.length_append]
    exact h.a_le.trans (Nat.le_add_right _ _)
  · show files.log.getD [] ++ (more ++ torn) = _
    rw [hLog, List.append_nil, List.append_assoc]
  · rw [slice_all h.a_le]
    exact hText.append hMore

/-- Setting `journal.log` aside as the last number. -/
theorem Filed.set_aside (h : Filed history S start a [] files)
    (hS : S ≤ history.length) (hNew : history.length ∉ files.aside) (hLog : files.log = some text) :
    Filed history S (Function.update start history.length a) history.length []
      { files with aside := files.aside.insert history.length text, log := none } := by
  obtain ⟨text', hText', hWritten⟩ := h.log
  obtain rfl : text = text' := by simpa [hLog] using hText'
  -- the numbers set aside before are below this one, which is new
  have hOther {M : Nat} {file : Bytes} (hFile : files.aside[M]? = some file) : M < history.length := by
    refine lt_of_le_of_ne (h.aside M file hFile).1 ?_
    rintro rfl
    exact hNew ((BTreeMap.mem_iff_get _ _).mpr ⟨file, hFile⟩)
  refine ⟨fun M file hFile => ?_, ?_, le_refl _, ⟨[], rfl, ?_⟩, List.not_mem_nil⟩
  · rw [BTreeMap.get_insert] at hFile
    split at hFile
    · next hEq =>
      obtain rfl := Option.some.inj hFile
      subst hEq
      rw [Function.update_self]
      exact ⟨le_refl _, hWritten⟩
    · have hLt := hOther hFile
      rw [Function.update_of_ne hLt.ne]
      exact h.aside M file hFile
  · show Chain S _ S ((files.aside.insert history.length text).toList.map Prod.fst) _
    rw [BTreeMap.toList_insert_last, List.map_append]
    · -- the chain of files that was there, with this one behind it
      have hChain : Chain S (Function.update start history.length a) S
          (files.aside.toList.map Prod.fst) (max a S) := by
        refine h.chain.congr fun M hM => ?_
        obtain ⟨file, hFile⟩ := (Filed.mem_keys files).mp hM
        exact Function.update_of_ne (hOther hFile).ne _ _
      have hLast := hChain.append_last (M := history.length)
        (by rw [Function.update_self]; exact h.a_le) (by rw [Function.update_self])
      rwa [show max (max a S) history.length = max history.length S by have := h.a_le; omega] at hLast
    · intro M hM
      obtain ⟨file, hFile⟩ := (BTreeMap.mem_iff_get _ _).mp hM
      exact hOther hFile
  · rw [slice, List.take_length, List.drop_length]
    exact written_nil

/-- A fresh `journal.log` in the place of one that is empty, or covered. -/
theorem Filed.publish (h : Filed history S start a [] files) (hS : S ≤ history.length)
    (hAll : history.length ∈ files.aside ∨ a = history.length) :
    Filed history S start history.length [] { files with log := some [] } := by
  refine ⟨h.aside, ?_, le_refl _, ⟨[], rfl, ?_⟩, List.not_mem_nil⟩
  · have hEnd : max a S = max history.length S := by
      rcases hAll with hMem | hEq
      · obtain ⟨text, hText⟩ := (BTreeMap.mem_iff_get _ _).mp hMem
        have hLe := (h.chain.le_of_mem ((Filed.mem_keys files).mpr ⟨text, hText⟩)).2
        have hA := h.a_le
        omega
      · rw [hEq]
    show Chain S start S (files.aside.toList.map Prod.fst) _
    rw [← hEnd]
    exact h.chain
  · rw [slice, List.take_length, List.drop_length]
    exact written_nil

theorem Filed.cover (h : Filed history S start a torn files) {S' : Nat} (hA : a ≤ S')
    (hKeys : ∀ M text, files.aside[M]? = some text → M ≤ S') :
    Filed history S' start a torn files := by
  refine ⟨h.aside, ?_, h.a_le, h.log, h.no_newline⟩
  rw [max_eq_right hA]
  refine h.chain.cover fun M hM => ?_
  obtain ⟨text, hText⟩ := (Filed.mem_keys files).mp hM
  exact hKeys M text hText

/-! ## Opening -/

/-- The files are sound, with the snapshot's number `S`. -/
def FilesSound (history : List ε) (S : Nat) (files : Files) : Prop :=
  ∃ start a torn, Filed history S start a torn files

/-- Sound, and there is a `journal.log` without a torn line. -/
def FilesReady (history : List ε) (S : Nat) (files : Files) : Prop :=
  files.log.isSome ∧ ∃ start a, Filed history S start a [] files

variable (empty : σ) (apply) in
/-- `snapshot.json` holds the store at its number, if it is there. -/
def Kept (history : List ε) (S : Nat) (disk : Disk σ) : Prop :=
  S ≤ history.length ∧ disk.snapshot.getD (0, empty) = (S, (history.take S).foldl apply empty)

variable (empty : σ) (apply) in
def DiskSound (history : List ε) (disk : Disk σ) : Prop :=
  ∃ S, Kept apply empty history S disk ∧ FilesSound history S disk.files

variable (empty : σ) (apply) in
def DiskReady (history : List ε) (disk : Disk σ) : Prop :=
  ∃ S, Kept apply empty history S disk ∧ FilesReady history S disk.files

variable {empty : σ} {disk : Disk σ}

/-- Replaying a journal whose slice begins where the ones before it ended. -/
theorem replay_slice (hLawful : Lawful ε) (path : Handle) (hWritten : Written (slice history a b) text)
    (hTorn : newline ∉ torn) (hOrder : a ≤ b) (hStart : max a S = r) (hEnd : b ≤ history.length) :
    ∃ replayed, max r replayed = max r b ∧
      replay S apply path (text ++ torn) ((history.take r).foldl apply empty)
        = .ok (replayed, text.length, (history.take (max r b)).foldl apply empty) := by
  refine ⟨_, max_slice hOrder hStart hEnd, ?_⟩
  rw [replay, scan_written hLawful S apply hWritten hTorn, applyAbove_slice empty hStart hEnd]

theorem open_aside_sound (hLawful : Lawful ε) (files : List (Nat × Bytes)) :
    ∀ r, S ≤ r → Chain S start r (files.map Prod.fst) e →
      (∀ f ∈ files, f.1 ≤ history.length ∧ Written (slice history (start f.1) f.1) f.2) →
      ∃ removed, (∀ op ∈ removed, ∃ M ≤ S, op = DiskOp.removeAside M) ∧
        open_aside S apply files r ((history.take r).foldl apply empty)
          = (removed, .ok (e, (history.take e).foldl apply empty)) := by
  induction files with
  | nil =>
    intro r _ hChain _
    obtain rfl := hChain
    exact ⟨[], by simp, rfl⟩
  | cons file files ih =>
    obtain ⟨M, text⟩ := file
    intro r hS hChain hFiles
    obtain ⟨hOrder, hStart, hRest⟩ := hChain
    obtain ⟨⟨hEnd, hWritten⟩, hTail⟩ := List.forall_mem_cons.mp hFiles
    obtain ⟨removed, hRemoved, hOpen⟩ := ih (max r M) (hS.trans (le_max_left _ _)) hRest hTail
    rw [open_aside]
    split
    · next hCovered =>
      rw [max_eq_left (by omega)] at hOpen
      rw [hOpen]
      refine ⟨.removeAside M :: removed, ?_, rfl⟩
      exact List.forall_mem_cons.mpr ⟨⟨M, hCovered, rfl⟩, hRemoved⟩
    · obtain ⟨replayed, hMax, hReplay⟩ := @replay_slice _ _ _ _ apply text [] _ _ S r empty hLawful
        (.aside M) hWritten List.not_mem_nil hOrder hStart hEnd
      rw [List.append_nil] at hReplay
      rw [hReplay]
      dsimp only
      rw [hMax, hOpen]
      exact ⟨removed, hRemoved, rfl⟩

/-- What opening a sound directory does to it: what is covered or left over is
removed, and the torn line cut off. -/
theorem open_continues {removed : List DiskOp} {tmp : List (Nat × Nat)}
    (hRemoved : ∀ op ∈ removed, ∃ M ≤ S, op = .removeAside M)
    (hKept : Kept apply empty history S disk) (hFiled : Filed history S start a torn disk.files)
    (hLog : disk.files.log.getD [] = text ++ torn)
    (hWritten : Written (slice history a history.length) text) :
    Continues DiskOp.run (DiskSound apply empty history) (DiskReady apply empty history)
      (removed ++ tmp.map .removeTmp ++ [.file .removeNext, .createLog] ++
        (if text.length < (text ++ torn).length then [.truncate text.length] else [])) disk := by
  -- until a line is cut off, no step of the cleaning changes what a later open would read
  let Inv (d : Disk σ) : Prop := Kept apply empty history S d ∧
    Filed history S start a torn d.files ∧ d.files.log.getD [] = text ++ torn
  have hClean : Continues DiskOp.run Inv Inv (removed ++ tmp.map .removeTmp) disk := by
    refine continues_of_forall ?_ ⟨hKept, hFiled, hLog⟩
    rintro op hOp d ⟨hKept, hFiled, hLog⟩
    rcases List.mem_append.mp hOp with hOp | hOp
    · obtain ⟨M, hM, rfl⟩ := hRemoved op hOp
      exact ⟨hKept, hFiled.removeAside hM, hLog⟩
    · obtain ⟨name, -, rfl⟩ := List.mem_map.mp hOp
      exact ⟨hKept, hFiled, hLog⟩
  have hSound {d : Disk σ} (h : Inv d) : DiskSound apply empty history d :=
    ⟨S, h.1, start, a, torn, h.2.1⟩
  rw [List.append_assoc (removed ++ _)]
  refine (hClean.mono (fun _ => hSound) fun _ => id).append ?_
  rintro d ⟨hKept, hFiled, hLog⟩
  -- from here on there is a journal.log
  have hNext : Inv (DiskOp.run d (.file .removeNext)) := ⟨hKept, hFiled.congr rfl rfl, hLog⟩
  have hCreated : Inv (DiskOp.run (DiskOp.run d (.file .removeNext)) .createLog) :=
    ⟨hKept, hFiled.congr rfl rfl, hLog⟩
  refine ⟨hSound hNext, hSound hCreated, ?_⟩
  split
  · -- the torn line is cut off
    have hCut : Filed history S start a []
        { d.files with log := some ((text ++ torn).take text.length), next := none } := by
      refine ⟨hFiled.aside, hFiled.chain, hFiled.a_le, ⟨text, ?_, hWritten⟩, List.not_mem_nil⟩
      simp
    have hDisk : DiskOp.run (DiskOp.run (DiskOp.run d (.file .removeNext)) .createLog)
        (.truncate text.length)
        = { d with files := { d.files with
              log := some ((text ++ torn).take text.length), next := none } } := by
      rw [← hLog]
      rfl
    have hReady : DiskReady apply empty history (DiskOp.run (DiskOp.run (DiskOp.run d
        (.file .removeNext)) .createLog) (.truncate text.length)) := by
      rw [hDisk]
      exact ⟨S, hKept, rfl, start, a, hCut⟩
    obtain ⟨S', hKept', -, start', a', hFiled'⟩ := hReady
    exact ⟨⟨S', hKept', start', a', [], hFiled'⟩, ⟨S', hKept', by rw [hDisk]; rfl, start', a', hFiled'⟩⟩
  · next hWhole =>
    obtain rfl : torn = [] := by
      rw [List.length_append] at hWhole
      exact List.length_eq_zero_iff.mp (by omega)
    exact ⟨S, hKept, rfl, start, a, hCreated.2.1⟩

/-- Opening a sound directory succeeds: every line of the history counts once. -/
theorem open_journal_sound (hLawful : Lawful ε) (h : DiskSound apply empty history disk) :
    (open_journal empty apply disk).2 = .ok (history.length, history.foldl apply empty) ∧
      Continues DiskOp.run (DiskSound apply empty history) (DiskReady apply empty history)
        (open_journal empty apply disk).1 disk := by
  obtain ⟨S, ⟨hS, hSnapshot⟩, start, a, torn, hFiled⟩ := h
  have hFiles : ∀ f ∈ disk.files.aside.toList,
      f.1 ≤ history.length ∧ Written (slice history (start f.1) f.1) f.2 :=
    fun f hMem => hFiled.aside f.1 f.2 ((BTreeMap.mem_toList _ _ _).mp hMem)
  obtain ⟨removed, hRemoved, hOpen⟩ :=
    @open_aside_sound _ _ _ _ apply S _ start empty hLawful _ S (le_refl S) hFiled.chain hFiles
  obtain ⟨text, hLog, hWritten⟩ := hFiled.log
  obtain ⟨replayed, hMax, hReplay⟩ := @replay_slice _ _ _ _ apply text torn a history.length S
    (max a S) empty hLawful .log hWritten hFiled.no_newline hFiled.a_le rfl (le_refl _)
  -- the journals set aside reach up to where journal.log begins
  have hLast : max (max a S) history.length = history.length := by
    have := hFiled.a_le
    omega
  have hStore : history.take (max (max a S) history.length) = history := by
    rw [hLast, List.take_length]
  have hEnd : max (max (max a S) replayed) S = history.length := by
    rw [hMax, hLast]
    omega
  have hEq : open_journal empty apply disk =
      (removed ++ disk.tmp.map .removeTmp ++ [.file .removeNext, .createLog] ++
        (if text.length < (text ++ torn).length then [.truncate text.length] else []),
        .ok (history.length, history.foldl apply empty)) := by
    rw [open_journal, hSnapshot]
    dsimp only
    rw [hOpen, hLog]
    dsimp only
    rw [hReplay, hStore]
    dsimp only
    rw [hEnd]
  rw [hEq]
  exact ⟨rfl, open_continues hRemoved ⟨hS, hSnapshot⟩ hFiled hLog hWritten⟩

/-! ## A rewrite -/

/-- Setting the journal aside and starting a fresh one. -/
theorem rewrite_continues (hReady : FilesReady history S files) (hS : S ≤ history.length) :
    Continues FileOp.run (FilesSound history S) (FilesReady history S)
      (rewrite_ops files history.length none).1 files := by
  obtain ⟨hSome, start, a, hFiled⟩ := hReady
  obtain ⟨text, hText⟩ := Option.isSome_iff_exists.mp hSome
  have hNext : FilesSound history S { files with next := none } :=
    ⟨start, a, [], hFiled.congr rfl rfl⟩
  have hFresh : Filed history S start a [] { files with next := some [] } := hFiled.congr rfl rfl
  by_cases hAside : history.length ∈ files.aside
  · -- every line was set aside under this number before
    have hContains : files.aside.contains history.length = true := hAside
    have hDone := hFresh.publish hS (.inl hAside)
    have hLast : Filed history S start history.length []
        { files with log := some [], next := none } := hDone.congr rfl rfl
    simp only [rewrite_ops, hContains, Bool.not_true, Bool.false_and, Bool.false_eq_true, if_false,
      if_true, List.append_nil, List.cons_append, List.nil_append]
    exact ⟨hNext, ⟨start, a, [], hFresh⟩, ⟨start, _, [], hLast⟩, rfl, start, _, hLast⟩
  · have hContains : files.aside.contains history.length = false := by
      rw [← Bool.not_eq_true]
      exact hAside
    have hMoved := hFresh.set_aside hS hAside hText
    have hDone := hMoved.publish hS (.inr rfl)
    have hLast : Filed history S (Function.update start history.length a) history.length []
        { aside := files.aside.insert history.length text, log := some [], next := none } :=
      hDone.congr rfl rfl
    have hAsideStep : FileOp.run { files with next := some [] } (.setAside history.length)
        = { aside := files.aside.insert history.length text, log := none, next := some [] } := by
      simp only [FileOp.run, hText]
    simp only [rewrite_ops, hContains, hText, Option.isNone_some, Bool.not_false, Bool.true_and,
      Bool.or_false, reduceCtorEq, decide_false, Bool.false_eq_true, if_false, List.cons_append,
      List.nil_append]
    refine ⟨hNext, ⟨start, a, [], hFresh⟩, ?_⟩
    show _ ∧ _
    rw [show FileOp.run (FileOp.run files .removeNext) .createNext = { files with next := some [] }
      from rfl, hAsideStep]
    exact ⟨⟨_, _, [], hMoved⟩, ⟨_, _, [], hLast⟩, rfl, _, _, hLast⟩

/-! ## A running process -/

/-- The snapshot a process takes or writes: it covers every journal set aside,
and `journal.log` starts at its number, or before. -/
structure Covers (apply : σ → ε → σ) (empty : σ) (history : List ε) (S a : Nat) (files : Files)
    (snapshot : Snapshot σ) : Prop where
  seq_le : snapshot.seq ≤ history.length
  state : snapshot.state = (history.take snapshot.seq).foldl apply empty
  a_le : a ≤ snapshot.seq
  aside : ∀ M text, files.aside[M]? = some text → M ≤ snapshot.seq
  covered : ∀ covered, snapshot.stage = .persisting covered → ∀ M ∈ covered, M ≤ snapshot.seq
  landed : ∀ covered, snapshot.stage = .landed covered → ∀ M ∈ covered, M ≤ S

/-- A running process has the whole history in its store. -/
structure Running (apply : σ → ε → σ) (empty : σ) (history : List ε) (disk : Disk σ)
    (p : Process σ) : Prop where
  seq_eq : p.seq = history.length
  store_eq : p.store = history.foldl apply empty
  idle : p.rewriting = none → ∃ S start a, Kept apply empty history S disk ∧
    disk.files.log.isSome ∧ Filed history S start a [] disk.files ∧
    ∀ snapshot, p.snapshot = some snapshot → Covers apply empty history S a disk.files snapshot
  rewriting : ∀ ops fresh, p.rewriting = some (ops, fresh) → p.snapshot = none ∧
    ∃ S, Kept apply empty history S disk ∧
      Continues FileOp.run (FilesSound history S) (FilesReady history S) ops disk.files

def ModeSound (apply : σ → ε → σ) (empty : σ) (history : List ε) (disk : Disk σ) : Mode σ → Prop
  | .down => True
  | .opening ops opened => opened = .ok (history.length, history.foldl apply empty) ∧
      Continues DiskOp.run (DiskSound apply empty history) (DiskReady apply empty history) ops disk
  | .refused _ => False
  | .up p => Running apply empty history disk p

/-- The directory is sound, whoever uses it. -/
structure NodeSound (apply : σ → ε → σ) (empty : σ) (node : Node ε σ) : Prop where
  sound : DiskSound apply empty node.journaled node.disk
  mode : ModeSound apply empty node.journaled node.disk node.mode

omit [EffectJson ε] in
theorem kept_append (h : Kept apply empty history S disk) (effects : List ε) :
    Kept apply empty (history ++ effects) S disk := by
  refine ⟨?_, ?_⟩
  · rw [List.length_append]
    exact h.1.trans (Nat.le_add_right _ _)
  · rw [List.take_append_of_le_length h.1]
    exact h.2

variable {p : Process σ} {node node' : Node ε σ}

theorem Running.idle_sound (h : Running apply empty history disk p) (hIdle : p.rewriting = none) :
    DiskSound apply empty history disk := by
  obtain ⟨S, start, a, hKept, -, hFiled, -⟩ := h.idle hIdle
  exact ⟨S, hKept, start, a, [], hFiled⟩

/-- A process that is not in a rewrite, with `journal.log` and its snapshot as
they are to be. -/
theorem running_idle (hSeq : p.seq = history.length) (hStore : p.store = history.foldl apply empty)
    (hIdle : p.rewriting = none) (hKept : Kept apply empty history S disk)
    (hLog : disk.files.log.isSome) (hFiled : Filed history S start a [] disk.files)
    (hCovers : ∀ snapshot, p.snapshot = some snapshot →
      Covers apply empty history S a disk.files snapshot) :
    Running apply empty history disk p := by
  refine ⟨hSeq, hStore, fun _ => ⟨S, start, a, hKept, hLog, hFiled, hCovers⟩, ?_⟩
  intro ops fresh hEq
  rw [hIdle] at hEq
  cases hEq

theorem sound_append (h : Running apply empty history disk p) (hIdle : p.rewriting = none)
    {lines : List Bytes} (hLines : write_lines p.seq effects = some lines) :
    Running apply empty (history ++ effects)
      { disk with files := disk.files.append lines.flatten }
      { p with seq := p.seq + effects.length, store := effects.foldl apply p.store } := by
  obtain ⟨S, start, a, hKept, hLog, hFiled, hCovers⟩ := h.idle hIdle
  have hWritten := written_lines hLines
  rw [h.seq_eq] at hWritten
  have hAppended := hFiled.append hWritten List.not_mem_nil
  rw [List.append_nil] at hAppended
  refine running_idle ?_ ?_ hIdle (kept_append hKept effects) rfl hAppended ?_
  · rw [List.length_append, ← h.seq_eq]
  · rw [List.foldl_append, ← h.store_eq]
  · intro snapshot hSnapshot
    obtain ⟨hSeq, hState, hA, hAside, hCovered, hLanded⟩ := hCovers snapshot hSnapshot
    refine ⟨?_, ?_, hA, hAside, hCovered, hLanded⟩
    · rw [List.length_append]
      exact hSeq.trans (Nat.le_add_right _ _)
    · rw [List.take_append_of_le_length hSeq]
      exact hState

theorem sound_interrupt (hLawful : Lawful ε) (h : Running apply empty history disk p)
    (hIdle : p.rewriting = none) {lines : List Bytes}
    (hLines : write_lines p.seq effects = some lines) (bytes : Nat) :
    DiskSound apply empty (history ++ effects.take (whole lines bytes))
      { disk with files := disk.files.append (lines.flatten.take bytes) } := by
  obtain ⟨S, start, a, hKept, hLog, hFiled, -⟩ := h.idle hIdle
  obtain ⟨text, torn, hCut, hWritten, hTorn⟩ := written_cut hLawful bytes hLines
  rw [h.seq_eq] at hWritten
  rw [hCut]
  exact ⟨S, kept_append hKept _, start, a, torn, hFiled.append hWritten hTorn⟩

theorem sound_startRewrite (h : Running apply empty history disk p) (hIdle : p.rewriting = none)
    (hNone : p.snapshot = none) :
    Running apply empty history disk
      { p with rewriting := some (rewrite_ops disk.files p.seq none) } := by
  obtain ⟨S, start, a, hKept, hLog, hFiled, -⟩ := h.idle hIdle
  refine ⟨h.seq_eq, h.store_eq, by rintro ⟨⟩, fun ops fresh hEq => ⟨hNone, S, hKept, ?_⟩⟩
  have hContinues := rewrite_continues ⟨hLog, start, a, hFiled⟩ hKept.1
  rw [← h.seq_eq, Option.some.inj hEq] at hContinues
  exact hContinues

/-- A rewrite that is through goes on as an idle process; the snapshot it starts,
if any, is of the whole history. -/
theorem sound_rewritten (h : Running apply empty history disk p) {fresh : Bool}
    (hDone : p.rewriting = some ([], fresh)) {p' : Process σ} (hIdle : p'.rewriting = none)
    (hSeq : p'.seq = p.seq) (hStore : p'.store = p.store)
    (hSnapshot : ∀ snapshot, p'.snapshot = some snapshot →
      snapshot.seq = p.seq ∧ snapshot.state = p.store ∧ snapshot.stage = .taking) :
    Running apply empty history disk p' := by
  obtain ⟨hNone, S, hKept, hLog, start, a, hFiled⟩ := h.rewriting [] fresh hDone
  refine running_idle (hSeq.trans h.seq_eq) (hStore.trans h.store_eq) hIdle hKept hLog hFiled ?_
  intro snapshot hTaking
  obtain ⟨hNumber, hState, hStage⟩ := hSnapshot snapshot hTaking
  rw [h.seq_eq] at hNumber
  refine ⟨hNumber.le, ?_, ?_, ?_, ?_, ?_⟩
  · rw [hState, h.store_eq, hNumber, List.take_length]
  · rw [hNumber]
    exact hFiled.a_le
  · intro M text hText
    rw [hNumber]
    exact (hFiled.aside M text hText).1
  · intro covered hEq
    rw [hStage] at hEq
    cases hEq
  · intro covered hEq
    rw [hStage] at hEq
    cases hEq

/-- Temporary files are nobody's but their snapshot's. -/
theorem Running.congr (h : Running apply empty history disk p) {disk' : Disk σ} {p' : Process σ}
    (hFiles : disk'.files = disk.files) (hSnapshot : disk'.snapshot = disk.snapshot)
    (hSeq : p'.seq = p.seq) (hStore : p'.store = p.store) (hRewriting : p'.rewriting = p.rewriting)
    (hTaken : p'.snapshot = p.snapshot ∨ p'.snapshot = none) :
    Running apply empty history disk' p' := by
  have hKept {S : Nat} (h : Kept apply empty history S disk) : Kept apply empty history S disk' := by
    rw [Kept, hSnapshot]
    exact h
  refine ⟨hSeq.trans h.seq_eq, hStore.trans h.store_eq, fun hIdle => ?_, fun ops fresh hOps => ?_⟩
  · obtain ⟨S, start, a, hKeptOld, hLog, hFiled, hCovers⟩ := h.idle (hRewriting.symm.trans hIdle)
    rw [hFiles]
    refine ⟨S, start, a, hKept hKeptOld, hLog, hFiled, fun snapshot hEq => ?_⟩
    rcases hTaken with hTaken | hTaken
    · exact hCovers snapshot (hTaken.symm.trans hEq)
    · rw [hTaken] at hEq
      cases hEq
  · obtain ⟨hNone, S, hKeptOld, hContinues⟩ := h.rewriting ops fresh (hRewriting.symm.trans hOps)
    rw [hFiles]
    refine ⟨?_, S, hKept hKeptOld, hContinues⟩
    rcases hTaken with hTaken | hTaken
    · rw [hTaken, hNone]
    · exact hTaken

/-- A snapshot goes on only outside a rewrite. -/
theorem Running.idle_of_snapshot (h : Running apply empty history disk p) {snapshot : Snapshot σ}
    (hSnapshot : p.snapshot = some snapshot) : p.rewriting = none := by
  cases hRewriting : p.rewriting with
  | none => rfl
  | some rewriting =>
    have hNone := (h.rewriting rewriting.1 rewriting.2 hRewriting).1
    rw [hSnapshot] at hNone
    cases hNone

theorem sound_persist (h : Running apply empty history disk p) {snapshot : Snapshot σ}
    (hSnapshot : p.snapshot = some snapshot) {covered : List Nat}
    (hCovered : ∀ M ∈ covered, M ≤ snapshot.seq) :
    Running apply empty history disk
      { p with snapshot := some { snapshot with stage := .persisting covered } } := by
  have hIdle := h.idle_of_snapshot hSnapshot
  obtain ⟨S, start, a, hKept, hLog, hFiled, hCovers⟩ := h.idle hIdle
  obtain ⟨hSeq, hState, hA, hAside, -, -⟩ := hCovers snapshot hSnapshot
  refine running_idle h.seq_eq h.store_eq hIdle hKept hLog hFiled ?_
  rintro _ ⟨⟩
  exact ⟨hSeq, hState, hA, hAside, by rintro _ ⟨⟩; exact hCovered, by rintro _ ⟨⟩⟩

/-- Once a snapshot has landed, only `journal.log` counts. -/
theorem sound_land (h : Running apply empty history disk p) {snapshot : Snapshot σ}
    (hSnapshot : p.snapshot = some snapshot) {covered : List Nat}
    (hStage : snapshot.stage = .persisting covered) {tmp : List (Nat × Nat)} :
    Running apply empty history
      { disk with tmp, snapshot := some (snapshot.seq, snapshot.state) }
      { p with snapshot := some { snapshot with stage := .landed covered } } := by
  have hIdle := h.idle_of_snapshot hSnapshot
  obtain ⟨S, start, a, hKept, hLog, hFiled, hCovers⟩ := h.idle hIdle
  obtain ⟨hSeq, hState, hA, hAside, hCovered, -⟩ := hCovers snapshot hSnapshot
  refine running_idle h.seq_eq h.store_eq hIdle (S := snapshot.seq) ⟨hSeq, ?_⟩ hLog
    (hFiled.cover hA hAside) ?_
  · show (snapshot.seq, snapshot.state) = _
    rw [hState]
  · rintro _ ⟨⟩
    exact ⟨hSeq, hState, hA, hAside, by rintro _ ⟨⟩, by rintro _ ⟨⟩; exact hCovered covered hStage⟩

theorem sound_removeAside (h : Running apply empty history disk p) {snapshot : Snapshot σ}
    (hSnapshot : p.snapshot = some snapshot) {covered : List Nat}
    (hStage : snapshot.stage = .landed (M :: covered)) :
    Running apply empty history (DiskOp.run disk (.removeAside M))
      { p with snapshot := some { snapshot with stage := .landed covered } } := by
  have hIdle := h.idle_of_snapshot hSnapshot
  obtain ⟨S, start, a, hKept, hLog, hFiled, hCovers⟩ := h.idle hIdle
  obtain ⟨hSeq, hState, hA, hAside, -, hLanded⟩ := hCovers snapshot hSnapshot
  obtain ⟨hHead, hTail⟩ := List.forall_mem_cons.mp (hLanded _ hStage)
  refine running_idle h.seq_eq h.store_eq hIdle hKept hLog (hFiled.removeAside hHead) ?_
  rintro _ ⟨⟩
  refine ⟨hSeq, hState, hA, fun N text hText => hAside N text ?_, by rintro _ ⟨⟩,
    by rintro _ ⟨⟩; exact hTail⟩
  have hText' : (disk.files.aside.erase M)[N]? = some text := hText
  rw [BTreeMap.get_erase] at hText'
  split at hText'
  · cases hText'
  · exact hText'

/-! ## Any step -/

theorem up_sound (hSound : DiskSound apply empty history disk)
    {disk' : Disk σ} {p' : Process σ} (hUp : Running apply empty history disk' p')
    (hFiles : disk'.files = disk.files) (hSnapshot : disk'.snapshot = disk.snapshot) :
    NodeSound apply empty { disk := disk', mode := .up p', journaled := history } := by
  obtain ⟨S, hKept, hFiled⟩ := hSound
  refine ⟨⟨S, ?_, ?_⟩, hUp⟩
  · show Kept apply empty history S disk'
    rw [Kept, hSnapshot]
    exact hKept
  · show FilesSound history S disk'.files
    rw [hFiles]
    exact hFiled

/-- A process that is not in a rewrite leaves the directory sound. -/
theorem idle_sound {disk : Disk σ} {p : Process σ} (hIdle : p.rewriting = none)
    (h : Running apply empty history disk p) :
    NodeSound apply empty { disk, mode := .up p, journaled := history } :=
  ⟨h.idle_sound hIdle, h⟩

theorem process_step (hLawful : Lawful ε) {move : NodeMove ε}
    (hSound : DiskSound apply empty node.journaled node.disk)
    (h : Running apply empty node.journaled node.disk p) (hMode : node.mode = .up p)
    (hStep : p.step apply node move = some node') : NodeSound apply empty node' := by
  cases move with
  | start => cases hStep
  -- whatever was being written, the disk is as sound as before
  | crash =>
    cases hStep
    exact ⟨hSound, trivial⟩
  | append effects =>
    obtain ⟨_, hGuard, hRest⟩ := Option.bind_eq_some_iff.mp hStep
    obtain ⟨lines, hLines, hEq⟩ := Option.bind_eq_some_iff.mp hRest
    obtain rfl := Option.some.inj hEq
    have hIdle : p.rewriting = none := by simpa using hGuard
    exact idle_sound hIdle (sound_append h hIdle hLines)
  -- a crash in the middle of a write: some of its bytes are there
  | interrupt effects bytes =>
    obtain ⟨_, hGuard, hRest⟩ := Option.bind_eq_some_iff.mp hStep
    obtain ⟨lines, hLines, hEq⟩ := Option.bind_eq_some_iff.mp hRest
    obtain rfl := Option.some.inj hEq
    have hIdle : p.rewriting = none := by simpa using hGuard
    exact ⟨sound_interrupt hLawful h hIdle hLines bytes, trivial⟩
  | startRewrite =>
    obtain ⟨_, hGuard, hEq⟩ := Option.bind_eq_some_iff.mp hStep
    obtain rfl := Option.some.inj hEq
    obtain ⟨hIdle, hNone⟩ : p.rewriting = none ∧ p.snapshot = none := by simpa using hGuard
    exact ⟨hSound, sound_startRewrite h hIdle hNone⟩
  -- the next file operation of a rewrite, or its end
  | go =>
    simp only [Process.step] at hStep
    split at hStep
    · next op ops fresh hOps =>
      obtain rfl := Option.some.inj hStep
      obtain ⟨hNone, S, hKept, hNow, hRest⟩ := h.rewriting _ _ hOps
      refine ⟨⟨S, hKept, hNow⟩, h.seq_eq, h.store_eq, by rintro ⟨⟩, ?_⟩
      rintro _ _ ⟨⟩
      exact ⟨hNone, S, hKept, hRest⟩
    · next hDone =>
      obtain rfl := Option.some.inj hStep
      refine ⟨hSound, sound_rewritten h hDone rfl rfl rfl ?_⟩
      rintro _ ⟨⟩
      exact ⟨rfl, rfl, rfl⟩
    · next hDone =>
      obtain rfl := Option.some.inj hStep
      obtain ⟨hNone, -⟩ := h.rewriting _ _ hDone
      refine ⟨hSound, sound_rewritten h hDone rfl rfl rfl ?_⟩
      intro snapshot hEq
      rw [show p.snapshot = some snapshot from hEq] at hNone
      cases hNone
    · cases hStep
  | flush =>
    obtain ⟨snapshot, hSnapshot, hEq⟩ := Option.bind_eq_some_iff.mp hStep
    obtain rfl := Option.some.inj hEq
    have hRunning : Running apply empty node.journaled
        (DiskOp.run node.disk (.createTmp snapshot.tmp)) p :=
      h.congr rfl rfl rfl rfl rfl (.inl rfl)
    have hUp := up_sound hSound hRunning rfl rfl
    rw [← hMode] at hUp
    exact hUp
  -- the snapshot is synced under its temporary name: no file counts it yet
  | persist =>
    obtain ⟨snapshot, hSnapshot, hEq⟩ := Option.bind_eq_some_iff.mp hStep
    split at hEq
    · obtain rfl := Option.some.inj hEq
      refine ⟨hSound, sound_persist h hSnapshot fun M hM => ?_⟩
      simpa using (List.mem_filter.mp hM).2
    · cases hEq
  -- renamed: from here on it stands for the journals it covers
  | land =>
    obtain ⟨snapshot, hSnapshot, hEq⟩ := Option.bind_eq_some_iff.mp hStep
    split at hEq
    · next hStage =>
      obtain ⟨-, -, hEq⟩ := Option.bind_eq_some_iff.mp hEq
      obtain rfl := Option.some.inj hEq
      exact idle_sound (h.idle_of_snapshot hSnapshot) (sound_land h hSnapshot hStage)
    · cases hEq
  -- only journals it covers go
  | removeCovered =>
    obtain ⟨snapshot, hSnapshot, hEq⟩ := Option.bind_eq_some_iff.mp hStep
    split at hEq
    · next hStage =>
      obtain rfl := Option.some.inj hEq
      exact idle_sound (h.idle_of_snapshot hSnapshot) (sound_removeAside h hSnapshot hStage)
    · cases hEq
  | finish =>
    obtain ⟨snapshot, hSnapshot, hEq⟩ := Option.bind_eq_some_iff.mp hStep
    split at hEq
    · obtain rfl := Option.some.inj hEq
      exact up_sound hSound (h.congr rfl rfl rfl rfl rfl (.inr rfl)) rfl rfl
    · cases hEq
  | abandon =>
    obtain ⟨snapshot, hSnapshot, hEq⟩ := Option.bind_eq_some_iff.mp hStep
    obtain rfl := Option.some.inj hEq
    exact up_sound hSound (h.congr rfl rfl rfl rfl rfl (.inr rfl)) rfl rfl
  | giveUp =>
    obtain ⟨snapshot, hSnapshot, hEq⟩ := Option.bind_eq_some_iff.mp hStep
    split at hEq
    · obtain rfl := Option.some.inj hEq
      exact up_sound hSound (h.congr rfl rfl rfl rfl rfl (.inr rfl)) rfl rfl
    · cases hEq
  -- a write that was given up goes on for a while, under its temporary name
  | flushGivenUp name =>
    obtain ⟨-, -, hEq⟩ := Option.bind_eq_some_iff.mp hStep
    obtain rfl := Option.some.inj hEq
    have hRunning : Running apply empty node.journaled
        (DiskOp.run node.disk (.createTmp name)) p :=
      h.congr rfl rfl rfl rfl rfl (.inl rfl)
    have hUp := up_sound hSound hRunning rfl rfl
    rw [← hMode] at hUp
    exact hUp
  | abandonGivenUp name =>
    obtain ⟨-, -, hEq⟩ := Option.bind_eq_some_iff.mp hStep
    obtain rfl := Option.some.inj hEq
    exact up_sound hSound (h.congr rfl rfl rfl rfl rfl (.inl rfl)) rfl rfl

theorem node_step (hLawful : Lawful ε) {move : NodeMove ε} (h : NodeSound apply empty node)
    (hStep : node.step empty apply move = some node') : NodeSound apply empty node' := by
  obtain ⟨hSound, hMode⟩ := h
  unfold Node.step at hStep
  split at hStep
  · obtain rfl := Option.some.inj hStep
    exact ⟨hSound, open_journal_sound hLawful hSound⟩
  · next op ops opened hOpening =>
    obtain rfl := Option.some.inj hStep
    rw [hOpening] at hMode
    exact ⟨hMode.2.1, hMode.1, hMode.2.2⟩
  · next seq store hOpening =>
    -- the process starts with what it read
    obtain rfl := Option.some.inj hStep
    rw [hOpening] at hMode
    obtain ⟨hOpened, S, hKept, hLog, start, a, hFiled⟩ := hMode
    obtain ⟨rfl, rfl⟩ := Prod.mk.inj (Except.ok.inj hOpened)
    refine ⟨hSound, running_idle rfl rfl rfl hKept hLog hFiled ?_⟩
    rintro _ ⟨⟩
  · next why hOpening =>
    rw [hOpening] at hMode
    cases hMode.1
  · obtain rfl := Option.some.inj hStep
    exact ⟨hSound, trivial⟩
  · next process move hUp =>
    rw [hUp] at hMode
    exact process_step hLawful hSound hMode hUp hStep
  · cases hStep

theorem node_run (hLawful : Lawful ε) (moves : List (NodeMove ε)) :
    ∀ {node node' : Node ε σ}, NodeSound apply empty node →
      node.run empty apply moves = some node' → NodeSound apply empty node' := by
  induction moves with
  | nil =>
    intro node node' h hRun
    obtain rfl := Option.some.inj hRun
    exact h
  | cons move moves ih =>
    intro node node' h hRun
    obtain ⟨next, hStep, hRest⟩ := Option.bind_eq_some_iff.mp hRun
    exact ih (node_step hLawful h hStep) hRest

theorem sound_empty : NodeSound apply empty ({} : Node ε σ) := by
  refine ⟨⟨0, ⟨le_refl _, rfl⟩, fun _ => 0, 0, [], ?_⟩, trivial⟩
  refine ⟨fun M text hText => ?_, rfl, le_refl _, ⟨[], rfl, written_nil⟩, List.not_mem_nil⟩
  simp at hText

/-- What a process starts with, or why it did not; then its number and its
store. -/
def Mode.found : Mode σ → Option (Except Corrupt (Nat × σ))
  | .down => none
  | .opening _ opened => some opened
  | .refused why => some (.error why)
  | .up process => some (.ok (process.seq, process.store))

/-- In every run from an empty directory, with a crash wherever there is one, and
again wherever the next start is: starting now would succeed, and so does a start
under way, with every effect whose append completed applied once, in order, and
their number; and a running process has just these. -/
theorem open_recovers (hLawful : Lawful ε) (empty : σ) (apply : σ → ε → σ) (moves : List (NodeMove ε))
    {node : Node ε σ} (hRun : ({} : Node ε σ).run empty apply moves = some node) :
    (open_journal empty apply node.disk).2
      = .ok (node.journaled.length, node.journaled.foldl apply empty) ∧
    ∀ found, node.mode.found = some found →
      found = .ok (node.journaled.length, node.journaled.foldl apply empty) := by
  obtain ⟨hSound, hMode⟩ := node_run hLawful moves sound_empty hRun
  refine ⟨(open_journal_sound hLawful hSound).1, fun found hFound => ?_⟩
  cases hNow : node.mode with
  | down =>
    rw [hNow] at hFound
    cases hFound
  | opening ops opened =>
    rw [hNow] at hFound hMode
    rw [← Option.some.inj hFound, hMode.1]
  | refused why =>
    rw [hNow] at hMode
    cases hMode
  | up process =>
    rw [hNow] at hFound hMode
    rw [← Option.some.inj hFound, hMode.seq_eq, hMode.store_eq]

/-- A crash in a rewrite, one while starting after it, one in an append, then a
snapshot with an append after it, and a crash before all it covers is removed. -/
def troubled : List (NodeMove Forget) :=
  [.start, .go, .go, .go, .append [.a, .b], .startRewrite, .go, .go, .go, .crash,
    .start, .go, .crash, .start, .go, .go, .go, .interrupt [.b, .a, .a] 150,
    .start, .go, .go, .go, .go, .append [.b], .startRewrite, .go, .go, .go, .go, .go,
    .flush, .append [.a], .persist, .land, .removeCovered, .crash, .start, .go, .go]

theorem open_recovers_troubled :
    ∃ node, ({} : Node Forget (List Forget)).run [] (fun store effect => store ++ [effect]) troubled
        = some node ∧
      (open_journal [] (fun store effect => store ++ [effect]) node.disk).2
        = .ok (node.journaled.length,
            node.journaled.foldl (fun store effect => store ++ [effect]) []) ∧
      ∀ found, node.mode.found = some found →
        found = .ok (node.journaled.length,
          node.journaled.foldl (fun store effect => store ++ [effect]) []) := by
  have hRun : (({} : Node Forget (List Forget)).run [] (fun store effect => store ++ [effect])
      troubled).isSome := by decide +kernel
  obtain ⟨node, hRun⟩ := Option.isSome_iff_exists.mp hRun
  exact ⟨node, hRun, open_recovers lawful_forget [] _ troubled hRun⟩

end Postino.Journal
