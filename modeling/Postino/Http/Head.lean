import Postino.Http.Request
import Postino.Lib.Scanner

/-!
# Request heads

The end of a head is found in two ways: a thread reads line after line off the socket
(`read_head`), and a loop that never waits looks for it in what has arrived so far
(`HeadScan`) and then parses it (`parse_head`).

Both are the scan `next` of the bytes, which knows of the lines before only whether one of
them was not blank, and of this line what has come (`read_head_eq`, `end_eq`). So where
the head ends does not depend on how the bytes arrive, and the two agree
(`heads_agree`).
-/

namespace Postino.Http

open Lib

/-! ## A thread reads a head -/

/-- Reads one line, after the start of it that is there, from what the socket delivers:
the line, and what is left. -/
def read_line (budget : Nat) : Bytes → List Bytes → Except ReadError (Bytes × List Bytes)
  | _, [] => .error .Closed
  | line, available :: rest =>
    if available = [] then .error .Closed
    else match position available with
    | some end_ =>
      if line.length + (end_ + 1) > budget then .error (.Status 431 "request head too large")
      else
        let left := available.drop (end_ + 1)
        .ok (line ++ available.take (end_ + 1), if left = [] then rest else left :: rest)
    | none =>
      if line.length + available.length > budget then .error (.Status 431 "request head too large")
      else read_line budget (line ++ available) rest

/-- Reads on through the blank line that ends the head. Each line takes some of the
budget. -/
def read_rest : Nat → Nat → Bytes → List Bytes → Except ReadError (Bytes × List Bytes)
  | 0, _, _, _ => .error (.Status 431 "request head too large")
  | lines + 1, budget, head, reader => do
    let (line, reader) ← read_line budget [] reader
    if trim_eol line = [] then .ok (head ++ line, reader)
    else read_rest lines (budget - line.length) (head ++ line) reader

/-- Reads past the blank lines before a request line, and then the head. -/
def read_lines : Nat → Nat → List Bytes → Except ReadError (Bytes × List Bytes)
  | 0, _, _ => .error (.Status 431 "request head too large")
  | lines + 1, budget, reader => do
    let (line, reader) ← read_line budget [] reader
    if trim_eol line = [] then read_lines lines (budget - line.length) reader
    else read_rest lines (budget - line.length) line reader

/-- Reads a head: the request, the length of its body, and what is left. -/
def read_head (reader : List Bytes) (max_body : Nat) : Except ReadError ((Request × Nat) × List Bytes) := do
  let (head, reader) ← read_lines (MAX_HEAD + 1) MAX_HEAD reader
  let parsed ← parse head max_body
  pure (parsed, reader)

/-! ## A loop finds its end -/

/-- Finds where a head ends in bytes that arrive a few at a time. -/
structure HeadScan where
  /-- Where the line being read starts. -/
  line : Nat := 0
  /-- How far the search for its end has looked. -/
  scanned : Nat := 0
  /-- Whether the request line has been seen. -/
  started : Bool := false
  deriving DecidableEq

/-- Looks at one line after another. There are no more lines than bytes. -/
def HeadScan.end_loop : Nat → HeadScan → Bytes → Option Nat × HeadScan
  | 0, scan, _ => (none, scan)
  | lines + 1, scan, buf =>
    match position (buf.drop scan.scanned) with
    | none => (none, { scan with scanned := buf.length })
    | some at_ =>
      let newline := scan.scanned + at_
      let blank := trim_eol ((buf.take (newline + 1)).drop scan.line) = []
      if blank && scan.started then (some (newline + 1), { scan with line := newline + 1, scanned := newline + 1 })
      else HeadScan.end_loop lines ⟨newline + 1, newline + 1, scan.started || !blank⟩ buf

/-- The length of the head at the start of `buf` once its blank line has arrived. -/
def HeadScan.end_ (scan : HeadScan) (buf : Bytes) : Option Nat × HeadScan := scan.end_loop (buf.length + 1) buf

def head_too_long (bytes : Nat) : Bool := bytes > MAX_HEAD

/-- Leaves out the blank lines at the start. -/
def skip_blank : Nat → Bytes → Bytes
  | 0, head => head
  | lines + 1, head =>
    match position head with
    | none => head
    | some at_ => if trim_eol (head.take (at_ + 1)) ≠ [] then head else skip_blank lines (head.drop (at_ + 1))

/-- Parses a head that has arrived whole. -/
def parse_head (head : Bytes) (max_body : Nat) : Except ReadError (Request × Nat) :=
  if head.length > MAX_HEAD then .error (.Status 431 "request head too large")
  else
    let rest := skip_blank (head.length + 1) head
    if rest.getLast? ≠ some newline then .error .Closed
    else if trim_eol (rest.drop (rest.dropLast.length - (rest.dropLast.reverse.takeWhile (· ≠ newline)).length)) ≠ [] then
      .error .Closed
    else parse rest max_body

/-- Reads a head as a connection does, from what arrives after `buf`: whenever more has
come it looks for the end, and gives up once there is too much of it. -/
def scan_head (scan : HeadScan) (buf : Bytes) (max_body : Nat) :
    List Bytes → Except ReadError ((Request × Nat) × Bytes)
  | [] => .error .Closed
  | piece :: rest =>
    match scan.end_ (buf ++ piece) with
    | (some end_, _) => do
      let parsed ← parse_head ((buf ++ piece).take end_) max_body
      pure (parsed, (buf ++ piece).drop end_ ++ rest.flatten)
    | (none, scan) =>
      if head_too_long (buf ++ piece).length then .error (.Status 431 "request head too large")
      else scan_head scan (buf ++ piece) max_body rest

/-! ## Lines -/

/-- What a scan of a head knows: whether a line that is not blank has come, and what has
come of this one. -/
def next : Bool × Bytes → UInt8 → Option (Bool × Bytes)
  | (started, line), b =>
    if b ≠ newline then some (started, line ++ [b])
    else if trim_eol (line ++ [newline]) = [] then if started then none else some (false, [])
    else some (true, [])

theorem position_none {b : Bytes} (h : position b = none) : newline ∉ b := by
  intro hMem
  have hNe := List.findIdx?_eq_none_iff.mp h newline hMem
  simp at hNe

theorem position_some {b : Bytes} {n : Nat} (h : position b = some n) :
    newline ∉ b.take n ∧ b = b.take n ++ newline :: b.drop (n + 1) ∧ n < b.length := by
  obtain ⟨hLt, hAt, hBefore⟩ := List.findIdx?_eq_some_iff_getElem.mp h
  have hAt : b[n] = newline := by simpa using hAt
  refine ⟨?_, ?_, hLt⟩
  · intro hMem
    obtain ⟨i, hi, hEq⟩ := List.mem_iff_getElem.mp hMem
    rw [List.length_take] at hi
    rw [List.getElem_take] at hEq
    have := hBefore i (by omega)
    simp [hEq] at this
  · rw [← hAt, List.cons_getElem_drop_succ, List.take_append_drop]

theorem take_line {b : Bytes} {n : Nat} (h : position b = some n) :
    b.take (n + 1) = b.take n ++ [newline] := by
  obtain ⟨-, hSplit, hLt⟩ := position_some h
  have hLength : (b.take n).length = n := by rw [List.length_take]; omega
  conv => lhs; rw [hSplit]
  rw [List.take_append, hLength, Nat.add_sub_cancel_left, List.take_of_length_le (by omega)]
  rfl

/-- Within a line, a scan knows what has come of it. -/
theorem after_plain {xs : Bytes} (h : newline ∉ xs) (started : Bool) (line : Bytes) :
    Scanner.after next (started, line) xs = some (started, line ++ xs) := by
  induction xs generalizing line with
  | nil => rw [List.append_nil]; rfl
  | cons b rest ih =>
    rw [List.mem_cons, not_or] at h
    have hStep : next (started, line) b = some (started, line ++ [b]) := if_pos (Ne.symm h.1)
    rw [Scanner.after_cons_some hStep, ih h.2, List.append_assoc]
    rfl

theorem ends_none {xs : Bytes} (h : position xs = none) (started : Bool) (line : Bytes) :
    Scanner.ends next (started, line) xs = none :=
  Scanner.ends_eq_none_iff.mpr ⟨_, after_plain (position_none h) started line⟩

/-- **A scan, a line at a time.** -/
theorem ends_line {xs : Bytes} {n : Nat} (h : position xs = some n) (started : Bool) (line : Bytes) :
    Scanner.ends next (started, line) xs =
      if trim_eol (line ++ xs.take (n + 1)) = [] ∧ started = true then some (n + 1)
      else (Scanner.ends next (started || !decide (trim_eol (line ++ xs.take (n + 1)) = []), [])
        (xs.drop (n + 1))).map (· + (n + 1)) := by
  obtain ⟨hPlain, hSplit, hLt⟩ := position_some h
  have hLength : (xs.take n).length = n := by rw [List.length_take]; omega
  rw [take_line h, ← List.append_assoc]
  conv => lhs; rw [hSplit]
  rw [Scanner.ends_append (after_plain hPlain started line), hLength]
  generalize line ++ xs.take n = cur
  have hSum : ((· + n) ∘ (· + 1) : Nat → Nat) = (· + (n + 1)) := by
    funext m
    simp only [Function.comp_apply]
    omega
  by_cases hBlank : trim_eol (cur ++ [newline]) = []
  · cases started with
    | true =>
      have hStep : next (true, cur) newline = none := by simp [next, hBlank]
      rw [Scanner.ends_cons_none hStep, if_pos ⟨hBlank, rfl⟩, Option.map_some, Nat.add_comm]
    | false =>
      have hStep : next (false, cur) newline = some (false, []) := by simp [next, hBlank]
      rw [Scanner.ends_cons_some hStep, if_neg (by simp), Option.map_map, hSum, decide_eq_true hBlank]
      rfl
  · have hStep : next (started, cur) newline = some (true, []) := by simp [next, hBlank]
    rw [Scanner.ends_cons_some hStep, if_neg (fun h => hBlank h.1), Option.map_map, hSum, decide_eq_false hBlank,
      Bool.not_false, Bool.or_true]

theorem after_line {xs : Bytes} {n : Nat} (h : position xs = some n) {started : Bool} {line : Bytes}
    (hGo : ¬(trim_eol (line ++ xs.take (n + 1)) = [] ∧ started = true)) :
    Scanner.after next (started, line) xs =
      Scanner.after next (started || !decide (trim_eol (line ++ xs.take (n + 1)) = []), []) (xs.drop (n + 1)) := by
  obtain ⟨hPlain, hSplit, -⟩ := position_some h
  rw [take_line h, ← List.append_assoc] at *
  conv => lhs; rw [hSplit]
  rw [Scanner.after_append, after_plain hPlain started line, Option.bind_some]
  generalize line ++ xs.take n = cur at *
  refine Scanner.after_cons_some ?_
  by_cases hBlank : trim_eol (cur ++ [newline]) = []
  · have hNot : started = false := by
      cases started with
      | false => rfl
      | true => exact absurd ⟨hBlank, rfl⟩ hGo
    simp [next, hBlank, hNot]
  · simp [next, hBlank]

/-! ## What a thread reads -/

/-- Where a head that has `length` bytes so far is cut, if it ends, within a budget. -/
def cut (budget length : Nat) : Option Nat → Except ReadError Nat
  | some n => if n ≤ budget then .ok n else .error (.Status 431 "request head too large")
  | none => if length ≤ budget then .error .Closed else .error (.Status 431 "request head too large")

theorem cut_within {budget n : Nat} (h : n ≤ budget) (length : Nat) : cut budget length (some n) = .ok n := if_pos h

theorem cut_past {budget n : Nat} (h : budget < n) (length : Nat) :
    cut budget length (some n) = .error (.Status 431 "request head too large") := if_neg (by omega)

theorem cut_shift {budget length k : Nat} (h : k ≤ budget) (found : Option Nat) :
    cut budget (k + length) (found.map (· + k)) = (cut (budget - k) length found).map (· + k) := by
  cases found with
  | none =>
    by_cases hFits : length ≤ budget - k
    · rw [Option.map_none, cut, cut, if_pos hFits, if_pos (by omega)]
      rfl
    · rw [Option.map_none, cut, cut, if_neg hFits, if_neg (by omega)]
      rfl
  | some n =>
    by_cases hFits : n ≤ budget - k
    · rw [Option.map_some, cut, cut, if_pos hFits, if_pos (by omega)]
      rfl
    · rw [Option.map_some, cut, cut, if_neg hFits, if_neg (by omega)]
      rfl

theorem cut_over {budget length k : Nat} (h : budget < k) (found : Option Nat) :
    cut budget (k + length) (found.map (· + k)) = .error (.Status 431 "request head too large") := by
  cases found with
  | none => exact if_neg (by omega)
  | some n =>
    rw [Option.map_some]
    exact if_neg (by omega)

theorem map_map {α β γ : Type} (result : Except ReadError α) (f : α → β) (g : β → γ) :
    (result.map f).map g = result.map (g ∘ f) := by
  cases result <;> rfl

/-- What was read, and that the socket goes on to deliver the rest. -/
structure Delivered {α : Type} (result : Except ReadError (α × List Bytes)) (read : Except ReadError (α × Bytes)) :
    Prop where
  same : result.map (fun r => (r.1, r.2.flatten)) = read
  full : ∀ r, result = .ok r → ∀ piece ∈ r.2, piece ≠ []

theorem delivered_error {α : Type} (e : ReadError) :
    Delivered (.error e : Except ReadError (α × List Bytes)) (.error e) :=
  ⟨rfl, fun r h => by cases h⟩

theorem Delivered.elim {α : Type} {result : Except ReadError (α × List Bytes)} {a : α} {left : Bytes}
    (h : Delivered result (.ok (a, left))) :
    ∃ reader, result = .ok (a, reader) ∧ reader.flatten = left ∧ ∀ piece ∈ reader, piece ≠ [] := by
  obtain ⟨hSame, hFull⟩ := h
  cases result with
  | error e => cases hSame
  | ok r =>
    obtain ⟨b, reader⟩ := r
    cases hSame
    exact ⟨reader, rfl, rfl, hFull _ rfl⟩

theorem Delivered.elim_error {α : Type} {result : Except ReadError (α × List Bytes)} {e : ReadError}
    (h : Delivered result (.error e)) : result = .error e := by
  obtain ⟨hSame, -⟩ := h
  cases result with
  | error e' =>
    cases hSame
    rfl
  | ok r => cases hSame

theorem position_append_left {xs : Bytes} {n : Nat} (h : position xs = some n) (ys : Bytes) :
    position (xs ++ ys) = some n := by
  unfold position at *
  rw [List.findIdx?_append, h]
  rfl

theorem position_append {xs : Bytes} (h : newline ∉ xs) (ys : Bytes) :
    position (xs ++ ys) = (position ys).map (· + xs.length) := by
  have hNone : xs.findIdx? (· = newline) = none := by
    refine List.findIdx?_eq_none_iff.mpr fun b hb => decide_eq_false ?_
    rintro rfl
    exact h hb
  unfold position
  rw [List.findIdx?_append, hNone]
  rfl

/-- **A line is read whole**, however it arrives. -/
theorem read_line_eq (budget : Nat) (reader : List Bytes) (line : Bytes) (hPlain : newline ∉ line)
    (hFits : line.length ≤ budget) (hFull : ∀ piece ∈ reader, piece ≠ []) :
    Delivered (read_line budget line reader)
      ((cut budget (line ++ reader.flatten).length ((position (line ++ reader.flatten)).map (· + 1))).map fun n =>
        ((line ++ reader.flatten).take n, (line ++ reader.flatten).drop n)) := by
  induction reader generalizing line with
  | nil =>
    have hNone : position line = none := by
      have hAll := position_append hPlain []
      rwa [List.append_nil] at hAll
    rw [List.flatten_nil, List.append_nil, hNone, Option.map_none, cut, if_pos hFits]
    exact delivered_error _
  | cons available rest ih =>
    rw [List.forall_mem_cons] at hFull
    unfold read_line
    rw [if_neg hFull.1, List.flatten_cons, ← List.append_assoc]
    cases hAt : position available with
    | none =>
      dsimp only
      have hPlain' : newline ∉ line ++ available := by
        rw [List.mem_append, not_or]
        exact ⟨hPlain, position_none hAt⟩
      split
      · next hOver =>
        -- the line is too long already, wherever it ends
        have hCut : cut budget (line ++ available ++ rest.flatten).length
            ((position (line ++ available ++ rest.flatten)).map (· + 1)) =
              .error (.Status 431 "request head too large") := by
          rw [position_append hPlain', Option.map_map]
          cases position rest.flatten with
          | none =>
            refine if_neg ?_
            simp only [List.length_append]
            omega
          | some n =>
            refine if_neg ?_
            simp only [Function.comp_apply, List.length_append]
            omega
        rw [hCut]
        exact delivered_error _
      · next hUnder => exact ih _ hPlain' (by rw [List.length_append]; omega) hFull.2
    | some n =>
      dsimp only
      obtain ⟨-, -, hLt⟩ := position_some hAt
      have hWhole : position (line ++ available ++ rest.flatten) = some (n + line.length) := by
        rw [List.append_assoc, position_append hPlain, position_append_left hAt]
        rfl
      rw [hWhole, Option.map_some]
      by_cases hOver : line.length + (n + 1) > budget
      · rw [if_pos hOver, cut_past (by omega)]
        exact delivered_error _
      · rw [if_neg hOver, cut_within (by omega)]
        have hTake : (line ++ available ++ rest.flatten).take (n + line.length + 1) =
            line ++ available.take (n + 1) := by
          rw [List.append_assoc, show n + line.length + 1 = line.length + (n + 1) by omega,
            List.take_length_add_append, List.take_append_of_le_length (by omega)]
        have hDrop : (line ++ available ++ rest.flatten).drop (n + line.length + 1) =
            available.drop (n + 1) ++ rest.flatten := by
          rw [List.append_assoc, show n + line.length + 1 = line.length + (n + 1) by omega,
            List.drop_length_add_append, List.drop_append_of_le_length (by omega)]
        dsimp only [Except.map]
        rw [hTake, hDrop]
        by_cases hLeft : available.drop (n + 1) = []
        · rw [if_pos hLeft, hLeft]
          refine ⟨rfl, ?_⟩
          rintro _ ⟨⟩
          exact hFull.2
        · rw [if_neg hLeft]
          refine ⟨rfl, ?_⟩
          rintro _ ⟨⟩
          rw [List.forall_mem_cons]
          exact ⟨hLeft, hFull.2⟩

/-- The lines of a head after its first, as a scan cuts them. -/
theorem read_rest_eq (lines budget : Nat) (head : Bytes) (reader : List Bytes) (hLines : budget < lines)
    (hFull : ∀ piece ∈ reader, piece ≠ []) :
    Delivered (read_rest lines budget head reader)
      ((cut budget reader.flatten.length (Scanner.ends next (true, []) reader.flatten)).map fun n =>
        (head ++ reader.flatten.take n, reader.flatten.drop n)) := by
  induction lines generalizing budget head reader with
  | zero => omega
  | succ lines ih =>
    unfold read_rest
    have hLine := read_line_eq budget reader [] List.not_mem_nil (Nat.zero_le _) hFull
    rw [List.nil_append] at hLine
    generalize reader.flatten = total at hLine ⊢
    cases hAt : position total with
    | none =>
      rw [hAt] at hLine
      rw [ends_none hAt]
      rw [Option.map_none, cut] at hLine
      unfold cut
      split at hLine
      · next hFits =>
        rw [hLine.elim_error, if_pos hFits]
        exact delivered_error _
      · next hOver =>
        rw [hLine.elim_error, if_neg hOver]
        exact delivered_error _
    | some n =>
      obtain ⟨-, -, hLt⟩ := position_some hAt
      rw [hAt, Option.map_some, cut] at hLine
      rw [ends_line hAt, List.nil_append]
      split at hLine
      · next hFits =>
        obtain ⟨reader', hRead, hRest, hFull'⟩ := hLine.elim
        rw [hRead]
        dsimp only [bind, Except.bind]
        have hLength : (total.take (n + 1)).length = n + 1 := by rw [List.length_take]; omega
        split
        · next hBlank =>
          rw [if_pos ⟨hBlank, rfl⟩, cut_within hFits]
          refine ⟨?_, ?_⟩
          · dsimp only [Except.map]
            rw [hRest]
          · rintro _ ⟨⟩
            exact hFull'
        · next hBlank =>
          rw [if_neg (fun h => hBlank h.1), Bool.true_or, hLength]
          have hGoOn := ih (budget - (n + 1)) (head ++ total.take (n + 1)) reader' (by omega) hFull'
          rw [hRest] at hGoOn
          rw [show total.length = n + 1 + (total.drop (n + 1)).length by rw [List.length_drop]; omega,
            cut_shift hFits, map_map]
          have hSame : (fun m => (head ++ total.take (n + 1) ++ (total.drop (n + 1)).take m,
              (total.drop (n + 1)).drop m)) =
              (fun m => (head ++ total.take m, total.drop m)) ∘ (· + (n + 1)) := by
            funext m
            have hTake : total.take (m + (n + 1)) = total.take (n + 1) ++ (total.drop (n + 1)).take m := by
              rw [Nat.add_comm, List.take_add]
            have hDrop : (total.drop (n + 1)).drop m = total.drop (m + (n + 1)) := by
              rw [List.drop_drop, Nat.add_comm]
            rw [Function.comp_apply, hTake, hDrop, List.append_assoc]
          rw [hSame] at hGoOn
          exact hGoOn
      · next hOver =>
        rw [hLine.elim_error]
        split
        · rw [cut_past (by omega)]
          exact delivered_error _
        · rw [show total.length = n + 1 + (total.drop (n + 1)).length by rw [List.length_drop]; omega,
            cut_over (by omega)]
          exact delivered_error _

theorem position_take {xs : Bytes} {i n : Nat} (h : position xs = some i) (hLt : i < n) :
    position (xs.take n) = some i := by
  obtain ⟨hIn, hAt, hBefore⟩ := List.findIdx?_eq_some_iff_getElem.mp h
  refine List.findIdx?_eq_some_iff_getElem.mpr ⟨by rw [List.length_take]; omega, ?_, fun j hj => ?_⟩
  · rw [List.getElem_take]
    exact hAt
  · rw [List.getElem_take]
    exact hBefore j hj

/-- The blank lines before a request line are passed. -/
theorem skip_blank_line {xs : Bytes} {i n : Nat} (h : position xs = some i) (hLt : i < n)
    (hBlank : trim_eol (xs.take (i + 1)) = []) (lines : Nat) :
    skip_blank (lines + 1) (xs.take n) = skip_blank lines ((xs.drop (i + 1)).take (n - (i + 1))) := by
  have hFirst : (xs.take n).take (i + 1) = xs.take (i + 1) := by
    rw [List.take_take, min_eq_left (by omega)]
  rw [skip_blank, position_take h hLt]
  dsimp only
  rw [hFirst, if_neg (not_not.mpr hBlank), List.drop_take]

theorem skip_blank_stop {xs : Bytes} {i n : Nat} (h : position xs = some i) (hLt : i < n)
    (hBlank : trim_eol (xs.take (i + 1)) ≠ []) (lines : Nat) : skip_blank (lines + 1) (xs.take n) = xs.take n := by
  have hFirst : (xs.take n).take (i + 1) = xs.take (i + 1) := by
    rw [List.take_take, min_eq_left (by omega)]
  rw [skip_blank, position_take h hLt]
  dsimp only
  rw [hFirst, if_pos hBlank]

/-- **What a thread reads** is where the scan ends, whatever pieces it comes in. -/
theorem read_lines_eq (lines budget : Nat) (reader : List Bytes) (hLines : budget < lines)
    (hFull : ∀ piece ∈ reader, piece ≠ []) {fuel : Nat} (hFuel : reader.flatten.length < fuel) :
    Delivered (read_lines lines budget reader)
      ((cut budget reader.flatten.length (Scanner.ends next (false, []) reader.flatten)).map fun n =>
        (skip_blank fuel (reader.flatten.take n), reader.flatten.drop n)) := by
  induction lines generalizing budget reader fuel with
  | zero => omega
  | succ lines ih =>
    unfold read_lines
    have hLine := read_line_eq budget reader [] List.not_mem_nil (Nat.zero_le _) hFull
    rw [List.nil_append] at hLine
    generalize reader.flatten = total at hLine hFuel ⊢
    cases hAt : position total with
    | none =>
      rw [hAt, Option.map_none, cut] at hLine
      rw [ends_none hAt]
      unfold cut
      split at hLine
      · next hFits =>
        rw [hLine.elim_error, if_pos hFits]
        exact delivered_error _
      · next hOver =>
        rw [hLine.elim_error, if_neg hOver]
        exact delivered_error _
    | some n =>
      obtain ⟨-, -, hLt⟩ := position_some hAt
      have hLength : total.length = n + 1 + (total.drop (n + 1)).length := by rw [List.length_drop]; omega
      rw [hAt, Option.map_some] at hLine
      rw [ends_line hAt, List.nil_append, if_neg (by simp), hLength]
      by_cases hOver : budget < n + 1
      · rw [cut_past hOver] at hLine
        rw [hLine.elim_error, cut_over hOver]
        exact delivered_error _
      · rw [cut_within (by omega)] at hLine
        obtain ⟨reader', hRead, hRest, hFull'⟩ := hLine.elim
        rw [hRead, cut_shift (by omega), map_map]
        dsimp only [bind, Except.bind]
        have hTaken : (total.take (n + 1)).length = n + 1 := by rw [List.length_take]; omega
        have hDrop : ∀ m, (total.drop (n + 1)).drop m = total.drop (m + (n + 1)) := fun m => by
          rw [List.drop_drop, Nat.add_comm]
        have hTake : ∀ m, total.take (m + (n + 1)) = total.take (n + 1) ++ (total.drop (n + 1)).take m := fun m => by
          rw [Nat.add_comm, List.take_add]
        obtain ⟨fuel, rfl⟩ : ∃ fuel', fuel = fuel' + 1 := ⟨fuel - 1, by omega⟩
        rw [hTaken]
        split
        · next hBlank =>
          have hGoOn := ih (budget - (n + 1)) reader' (by omega) hFull' (show reader'.flatten.length < fuel by rw [hRest]; omega)
          rw [hRest] at hGoOn
          have hSame : (fun m => (skip_blank fuel ((total.drop (n + 1)).take m), (total.drop (n + 1)).drop m)) =
              (fun m => (skip_blank (fuel + 1) (total.take m), total.drop m)) ∘ (· + (n + 1)) := by
            funext m
            rw [Function.comp_apply, skip_blank_line hAt (by omega) hBlank, Nat.add_sub_cancel, hDrop]
          rw [hSame] at hGoOn
          rw [decide_eq_true hBlank]
          exact hGoOn
        · next hBlank =>
          have hGoOn := read_rest_eq lines (budget - (n + 1)) (total.take (n + 1)) reader' (by omega) hFull'
          rw [hRest] at hGoOn
          have hSame : (fun m => (total.take (n + 1) ++ (total.drop (n + 1)).take m, (total.drop (n + 1)).drop m)) =
              (fun m => (skip_blank (fuel + 1) (total.take m), total.drop m)) ∘ (· + (n + 1)) := by
            funext m
            rw [Function.comp_apply, skip_blank_stop hAt (by omega) hBlank, hDrop, hTake]
          rw [hSame] at hGoOn
          rw [decide_eq_false hBlank]
          exact hGoOn

/-! ## What a loop finds -/

/-- What a `HeadScan` that has looked through `buf` knows, as a scan. -/
structure HeadScan.Knows (scan : HeadScan) (buf : Bytes) (s : Bool × Bytes) : Prop where
  line : scan.line ≤ buf.length
  scanned : scan.scanned = buf.length
  started : scan.started = s.1
  read : buf.drop scan.line = s.2

theorem knows_start : HeadScan.Knows {} [] (false, []) := ⟨le_rfl, rfl, rfl, rfl⟩

theorem end_loop_eq (lines : Nat) (scan : HeadScan) (buf : Bytes) (hLine : scan.line ≤ scan.scanned)
    (hScanned : scan.scanned ≤ buf.length) (hLines : buf.length < scan.scanned + lines) :
    (scan.end_loop lines buf).1 =
        (Scanner.ends next (scan.started, (buf.take scan.scanned).drop scan.line) (buf.drop scan.scanned)).map
          (· + scan.scanned) ∧
      ∀ s, Scanner.after next (scan.started, (buf.take scan.scanned).drop scan.line) (buf.drop scan.scanned) = some s →
        (scan.end_loop lines buf).2.Knows buf s := by
  induction lines generalizing scan with
  | zero => omega
  | succ lines ih =>
    obtain ⟨line, scanned, started⟩ := scan
    dsimp only at *
    unfold HeadScan.end_loop
    dsimp only
    cases hAt : position (buf.drop scanned) with
    | none =>
      rw [ends_none hAt]
      refine ⟨rfl, fun s hAfter => ?_⟩
      rw [after_plain (position_none hAt)] at hAfter
      cases hAfter
      refine ⟨by dsimp only; omega, rfl, rfl, ?_⟩
      dsimp only
      conv => lhs; rw [← List.take_append_drop scanned buf]
      rw [List.drop_append_of_le_length]
      rw [List.length_take]
      omega
    | some n =>
      obtain ⟨hPlain, hSplit, hLt⟩ := position_some hAt
      rw [List.length_drop] at hLt
      have hSeen : (buf.take scanned).drop line ++ (buf.drop scanned).take (n + 1) =
          (buf.take (scanned + n + 1)).drop line := by
        rw [Nat.add_assoc, List.take_add (i := scanned), List.drop_append_of_le_length]
        rw [List.length_take]
        omega
      have hRest : (buf.drop scanned).drop (n + 1) = buf.drop (scanned + n + 1) := by
        rw [List.drop_drop, Nat.add_assoc]
      rw [ends_line hAt, hSeen, hRest]
      dsimp only
      by_cases hEnd : trim_eol ((buf.take (scanned + n + 1)).drop line) = [] ∧ started = true
      · rw [if_pos hEnd, if_pos (by simp [hEnd])]
        refine ⟨by rw [Option.map_some, Nat.add_comm scanned, Nat.add_right_comm], fun s hAfter => ?_⟩
        -- a scan that ends knows nothing after
        have hNone := Scanner.ends_eq_none_iff.mpr ⟨s, hAfter⟩
        rw [ends_line hAt, hSeen, if_pos hEnd] at hNone
        cases hNone
      · have hNot : ¬(decide (trim_eol ((buf.take (scanned + n + 1)).drop line) = []) && started) = true := by
          simpa using hEnd
        have hGoOn := ih ⟨scanned + n + 1, scanned + n + 1,
          started || !decide (trim_eol ((buf.take (scanned + n + 1)).drop line) = [])⟩ le_rfl (by dsimp only; omega)
          (by dsimp only; omega)
        dsimp only at hGoOn
        have hNew : (buf.take (scanned + n + 1)).drop (scanned + n + 1) = [] :=
          List.drop_eq_nil_of_le (by rw [List.length_take]; omega)
        rw [hNew] at hGoOn
        rw [if_neg hEnd, if_neg hNot, Option.map_map]
        have hSum : ((· + scanned) ∘ (· + (n + 1)) : Nat → Nat) = (· + (scanned + n + 1)) := by
          funext m
          simp only [Function.comp_apply]
          omega
        rw [hSum, after_line hAt (by rw [hSeen]; exact hEnd), hSeen, hRest]
        exact hGoOn

/-- **A loop finds the end a scan finds**, going on from where it looked. -/
theorem end_eq {scan : HeadScan} {buf : Bytes} {s : Bool × Bytes} (h : scan.Knows buf s) (piece : Bytes) :
    (scan.end_ (buf ++ piece)).1 = (Scanner.ends next s piece).map (· + buf.length) ∧
      ∀ s', Scanner.after next s piece = some s' → (scan.end_ (buf ++ piece)).2.Knows (buf ++ piece) s' := by
  obtain ⟨hLine, hScanned, hStarted, hRead⟩ := h
  have hLoop := end_loop_eq ((buf ++ piece).length + 1) scan (buf ++ piece) (by omega)
    (by rw [List.length_append]; omega) (by omega)
  rw [hScanned, List.take_left, List.drop_left, hRead, hStarted] at hLoop
  exact hLoop

/-! ## A head that has come whole -/

/-- A whole head ends in a line break, and its last line is blank. -/
theorem ended_blank {xs line : Bytes} (hLine : newline ∉ line)
    (h : Scanner.ends next (true, line) xs = some xs.length) :
    ∃ before last, line ++ xs = before ++ last ++ [newline] ∧ newline ∉ last ∧ trim_eol (last ++ [newline]) = [] ∧
      (before = [] ∨ before.getLast? = some newline) := by
  induction hLength : xs.length using Nat.strong_induction_on generalizing xs line with
  | _ length ih =>
    cases hAt : position xs with
    | none =>
      rw [ends_none hAt] at h
      cases h
    | some n =>
      obtain ⟨hPlain, hSplit, hLt⟩ := position_some hAt
      have hTake := take_line hAt
      rw [ends_line hAt] at h
      split at h
      · next hBlank =>
        have hAll : xs.take (n + 1) = xs := List.take_of_length_le (by have := Option.some.inj h; omega)
        refine ⟨[], line ++ xs.take n, ?_, ?_, ?_, .inl rfl⟩
        · rw [List.nil_append, List.append_assoc, ← hTake, hAll]
        · rw [List.mem_append, not_or]
          exact ⟨hLine, hPlain⟩
        · rw [List.append_assoc, ← hTake]
          exact hBlank.1
      · rw [Bool.true_or] at h
        obtain ⟨m, hm, hSum⟩ := Option.map_eq_some_iff.mp h
        have hRest : m = (xs.drop (n + 1)).length := by rw [List.length_drop]; omega
        rw [hRest] at hm
        obtain ⟨before, last, hEq, hLast, hBlank, hBefore⟩ := ih (xs.drop (n + 1)).length
          (by rw [List.length_drop]; omega) List.not_mem_nil hm rfl
        rw [List.nil_append] at hEq
        refine ⟨line ++ xs.take (n + 1) ++ before, last, ?_, hLast, hBlank, .inr ?_⟩
        · rw [List.append_assoc _ before, List.append_assoc _ (before ++ last), ← hEq]
          rw [List.append_assoc, List.take_append_drop]
        · rcases hBefore with rfl | hBefore
          · rw [List.append_nil, hTake, ← List.append_assoc, List.getLast?_concat]
          · rw [List.getLast?_append, hBefore]
            rfl

/-- The blank lines at its start are left out of a head, which still ends. -/
theorem skip_blank_ends (lines : Nat) {head : Bytes} (hLines : head.length < lines)
    (h : Scanner.ends next (false, []) head = some head.length) :
    ∃ before last, skip_blank lines head = before ++ last ++ [newline] ∧ newline ∉ last ∧
      trim_eol (last ++ [newline]) = [] ∧ (before = [] ∨ before.getLast? = some newline) := by
  induction lines generalizing head with
  | zero => omega
  | succ lines ih =>
    cases hAt : position head with
    | none =>
      rw [ends_none hAt] at h
      cases h
    | some n =>
      obtain ⟨hPlain, hSplit, hLt⟩ := position_some hAt
      have hWhole : head.take head.length = head := List.take_length
      rw [ends_line hAt, List.nil_append, if_neg (by simp)] at h
      obtain ⟨m, hm, hSum⟩ := Option.map_eq_some_iff.mp h
      have hRest : m = (head.drop (n + 1)).length := by rw [List.length_drop]; omega
      rw [hRest] at hm
      by_cases hBlank : trim_eol (head.take (n + 1)) = []
      · have hSkip := skip_blank_line hAt hLt hBlank lines
        rw [hWhole, List.take_of_length_le (by rw [List.length_drop])] at hSkip
        rw [hSkip]
        rw [decide_eq_true hBlank] at hm
        exact ih (by rw [List.length_drop]; omega) hm
      · have hStop := skip_blank_stop hAt hLt hBlank lines
        rw [hWhole] at hStop
        rw [hStop]
        rw [decide_eq_false hBlank] at hm
        obtain ⟨before, last, hEq, hLast, hLastBlank, hBefore⟩ := ended_blank List.not_mem_nil hm
        rw [List.nil_append] at hEq
        refine ⟨head.take (n + 1) ++ before, last, ?_, hLast, hLastBlank, .inr ?_⟩
        · rw [List.append_assoc _ before, List.append_assoc _ (before ++ last), ← hEq,
            List.take_append_drop]
        · rcases hBefore with rfl | hBefore
          · rw [List.append_nil, take_line hAt, List.getLast?_concat]
          · rw [List.getLast?_append, hBefore]
            rfl

/-- **A head that has come whole is parsed without the blank lines before it.** -/
theorem parse_head_eq {head : Bytes} (h : Scanner.ends next (false, []) head = some head.length)
    (hFits : head.length ≤ MAX_HEAD) (max_body : Nat) :
    parse_head head max_body = parse (skip_blank (head.length + 1) head) max_body := by
  obtain ⟨before, last, hRest, hLast, hBlank, hBefore⟩ := skip_blank_ends (head.length + 1) (by omega) h
  unfold parse_head
  rw [if_neg (by omega)]
  dsimp only
  rw [hRest, List.getLast?_concat, if_neg (not_not.mpr rfl), List.dropLast_concat, List.reverse_append]
  have hTail : (last.reverse ++ before.reverse).takeWhile (· ≠ newline) = last.reverse := by
    have hAll : ∀ b ∈ last.reverse, decide (b ≠ newline) = true := by
      intro b hb
      refine decide_eq_true ?_
      rintro rfl
      exact hLast (List.mem_reverse.mp hb)
    rw [List.takeWhile_append_of_pos hAll]
    rcases hBefore with rfl | hBefore
    · simp
    · obtain ⟨start, hStart⟩ := List.getLast?_eq_some_iff.mp hBefore
      rw [hStart, List.reverse_append]
      simp
  rw [hTail, List.length_reverse, List.length_append, Nat.add_sub_cancel, List.append_assoc, List.drop_left,
    if_neg (not_not.mpr hBlank)]

/-! ## The two agree -/

/-- What a head comes to that starts what is received, in one piece. -/
def head_of (total : Bytes) (max_body : Nat) : Except ReadError ((Request × Nat) × Bytes) := do
  let n ← cut MAX_HEAD total.length (Scanner.ends next (false, []) total)
  let parsed ← parse (skip_blank (total.length + 1) (total.take n)) max_body
  pure (parsed, total.drop n)

/-- More fuel than lines changes nothing. -/
theorem skip_blank_fuel {fuel : Nat} {head : Bytes} (h : head.length < fuel) :
    skip_blank fuel head = skip_blank (head.length + 1) head := by
  induction hLength : head.length using Nat.strong_induction_on generalizing head fuel with
  | _ length ih =>
    obtain ⟨fuel, rfl⟩ : ∃ fuel', fuel = fuel' + 1 := ⟨fuel - 1, by omega⟩
    unfold skip_blank
    cases hAt : position head with
    | none => rfl
    | some n =>
      obtain ⟨-, -, hLt⟩ := position_some hAt
      dsimp only
      split
      · rfl
      · have hShorter : (head.drop (n + 1)).length < length := by rw [List.length_drop]; omega
        rw [ih _ hShorter (by omega) rfl]
        exact (ih _ hShorter (by omega) rfl).symm

theorem read_head_eq {reader : List Bytes} (hFull : ∀ piece ∈ reader, piece ≠ []) (max_body : Nat) :
    (read_head reader max_body).map (fun r => (r.1, r.2.flatten)) = head_of reader.flatten max_body := by
  have hLines := read_lines_eq (MAX_HEAD + 1) MAX_HEAD reader (Nat.lt_succ_self _) hFull (Nat.lt_succ_self _)
  unfold read_head head_of
  cases hCut : cut MAX_HEAD reader.flatten.length (Scanner.ends next (false, []) reader.flatten) with
  | error e =>
    rw [hCut] at hLines
    rw [hLines.elim_error]
    rfl
  | ok n =>
    rw [hCut] at hLines
    obtain ⟨left, hRead, hLeft, -⟩ := hLines.elim
    rw [hRead]
    dsimp only [bind, Except.bind]
    cases parse (skip_blank (reader.flatten.length + 1) (reader.flatten.take n)) max_body with
    | error e => rfl
    | ok parsed =>
      dsimp only [pure, Except.pure, Except.map]
      rw [hLeft]

/-- What is read in one piece. -/
theorem read_whole (bytes : Bytes) (max_body : Nat) :
    (read_head [bytes] max_body).map (fun r => (r.1, r.2.flatten)) = head_of bytes max_body := by
  by_cases hEmpty : bytes = []
  · subst hEmpty
    rfl
  · have hRead := @read_head_eq [bytes] (by simpa using hEmpty) max_body
    rwa [List.flatten_singleton] at hRead

/-- A head that has come whole is parsed as it stands, whatever follows it. -/
theorem head_found {buf : Bytes} {n : Nat} (h : Scanner.ends next (false, []) buf = some n) (more : Bytes)
    (max_body : Nat) :
    head_of (buf ++ more) max_body = (parse_head (buf.take n) max_body).map fun parsed => (parsed, buf.drop n ++ more) := by
  obtain ⟨-, hLe⟩ := Scanner.ends_le h
  have hTaken : (buf.take n).length = n := by rw [List.length_take, min_eq_left hLe]
  unfold head_of
  rw [Scanner.ends_append_left h]
  by_cases hOver : MAX_HEAD < n
  · rw [cut_past hOver]
    unfold parse_head
    rw [hTaken, if_pos hOver]
    rfl
  · rw [cut_within (by omega)]
    dsimp only [bind, Except.bind]
    have hWhole : Scanner.ends next (false, []) (buf.take n) = some (buf.take n).length := by
      rw [Scanner.ends_take h, hTaken]
    rw [List.take_append_of_le_length hLe, List.drop_append_of_le_length hLe,
      parse_head_eq hWhole (by rw [hTaken]; omega), @skip_blank_fuel ((buf ++ more).length + 1)]
    · cases parse (skip_blank ((buf.take n).length + 1) (buf.take n)) max_body <;> rfl
    · rw [List.length_append]
      omega

theorem parse_head_status {buf : Bytes} {n max_body : Nat} {e : ReadError}
    (h : Scanner.ends next (false, []) buf = some n) (hParse : parse_head (buf.take n) max_body = .error e) :
    ∃ status message, e = .Status status message := by
  obtain ⟨-, hLe⟩ := Scanner.ends_le h
  have hTaken : (buf.take n).length = n := by rw [List.length_take, min_eq_left hLe]
  by_cases hOver : MAX_HEAD < n
  · unfold parse_head at hParse
    rw [hTaken, if_pos hOver] at hParse
    cases hParse
    exact ⟨_, _, rfl⟩
  · have hWhole : Scanner.ends next (false, []) (buf.take n) = some (buf.take n).length := by
      rw [Scanner.ends_take h, hTaken]
    rw [parse_head_eq hWhole (by rw [hTaken]; omega)] at hParse
    exact parse_status hParse

/-- One that is too long already is refused, wherever it ends. -/
theorem head_long {buf : Bytes} {s : Bool × Bytes} (h : Scanner.after next (false, []) buf = some s)
    (hLong : MAX_HEAD < buf.length) (more : Bytes) (max_body : Nat) :
    head_of (buf ++ more) max_body = .error (.Status 431 "request head too large") := by
  unfold head_of
  rw [Scanner.ends_append h, List.length_append, cut_over hLong]
  rfl

theorem head_unfinished {buf : Bytes} {s : Bool × Bytes} (h : Scanner.after next (false, []) buf = some s)
    (hFits : buf.length ≤ MAX_HEAD) (max_body : Nat) : head_of buf max_body = .error .Closed := by
  unfold head_of
  rw [Scanner.ends_eq_none_iff.mpr ⟨s, h⟩, cut, if_pos hFits]
  rfl

theorem scan_head_eq (pieces : List Bytes) {scan : HeadScan} {buf : Bytes} {s : Bool × Bytes}
    (hKnows : scan.Knows buf s) (hAfter : Scanner.after next (false, []) buf = some s) (hFits : buf.length ≤ MAX_HEAD)
    (max_body : Nat) : scan_head scan buf max_body pieces = head_of (buf ++ pieces.flatten) max_body := by
  induction pieces generalizing scan buf s with
  | nil =>
    rw [List.flatten_nil, List.append_nil, head_unfinished hAfter hFits]
    rfl
  | cons piece rest ih =>
    obtain ⟨hFound, hGoOn⟩ := end_eq hKnows piece
    rw [List.flatten_cons, ← List.append_assoc]
    unfold scan_head
    cases hEnds : Scanner.ends next s piece with
    | some n =>
      rw [hEnds, Option.map_some] at hFound
      have hBoth : Scanner.ends next (false, []) (buf ++ piece) = some (n + buf.length) := by
        rw [Scanner.ends_append hAfter, hEnds]
        rfl
      generalize scan.end_ (buf ++ piece) = result at hFound
      obtain ⟨found, scan'⟩ := result
      cases hFound
      rw [head_found hBoth]
      dsimp only
      cases parse_head ((buf ++ piece).take (n + buf.length)) max_body <;> rfl
    | none =>
      obtain ⟨s', hStep⟩ := Scanner.ends_eq_none_iff.mp hEnds
      rw [hEnds, Option.map_none] at hFound
      have hKnows' := hGoOn s' hStep
      have hAfter' : Scanner.after next (false, []) (buf ++ piece) = some s' := by
        rw [Scanner.after_append, hAfter, Option.bind_some, hStep]
      generalize scan.end_ (buf ++ piece) = result at hFound hKnows'
      obtain ⟨found, scan'⟩ := result
      cases hFound
      dsimp only at hKnows' ⊢
      by_cases hOver : (buf ++ piece).length > MAX_HEAD
      · have hLong : head_too_long (buf ++ piece).length = true := decide_eq_true hOver
        rw [if_pos hLong, head_long hAfter' hOver]
      · rw [if_neg (by unfold head_too_long; simpa using hOver)]
        exact ih hKnows' hAfter' (by omega)

/-- **The two readers agree**, whatever pieces each of them gets the bytes in: on the
request, the length of its body and what is left, or on what is wrong. -/
theorem heads_agree {reader pieces : List Bytes} (hSame : reader.flatten = pieces.flatten)
    (hFull : ∀ piece ∈ reader, piece ≠ []) (max_body : Nat) :
    (read_head reader max_body).map (fun r => (r.1, r.2.flatten)) = scan_head {} [] max_body pieces := by
  rw [read_head_eq hFull, scan_head_eq pieces knows_start rfl (Nat.zero_le _), List.nil_append, hSame]

/-- A request that comes at once, and one that comes cut in a line break. -/
theorem heads_agree_cut :
    (read_head [Journal.ascii "\r\nGET / HTTP/1.1\r\nHost: a\r\n\r\nrest"] 0).map (fun r => (r.1, r.2.flatten)) =
      scan_head {} [] 0 [Journal.ascii "\r\nGET / HTTP/1.1\r", Journal.ascii "\nHost: a\r\n\r", Journal.ascii "\nrest"] :=
  heads_agree (by decide) (by decide) 0

end Postino.Http
