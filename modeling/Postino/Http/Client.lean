import Postino.Forum.Core
import Postino.Http.Connection
import Postino.Lib.Trim

/-!
# The client

How a client writes a request, and reads the response.

* `request_read` — the server reads what the client asked for;
* `response_read` — the client reads what the server answered, and no header of it adds
  another or moves where it ends;
* `exchange` — so what a service answers comes back.

Connecting is left out.
-/

namespace Postino.Http.Client

open Lib
open Journal (toDigit)

def VERSION : String := "0.1.0"

/-! ## Writing a request -/

/-- Where a broker is. -/
structure Target where
  host : String
  port : Nat
  base : String
  deriving DecidableEq

def Target.authority (target : Target) : String :=
  if ':' ∈ target.host.toList then s!"[{target.host}]:{target.port}" else s!"{target.host}:{target.port}"

def write_request (target : Target) (method path : String) (headers : List (String × String)) (body : Option Bytes) :
    Bytes :=
  let head := s!"{method} {target.base}{path} HTTP/1.1\r\nHost: {target.authority}\r\nUser-Agent: postino/{VERSION}\r\nConnection: close\r\n"
  let head := headers.foldl (fun head h => head ++ s!"{h.1}: {clean h.2}\r\n") head
  let head := head ++ body.elim "" fun body =>
    s!"Content-Type: application/json\r\nContent-Length: {body.length}\r\n"
  bytes (head ++ "\r\n") ++ body.getD []

/-! ## Reading a response -/

/-- What may go wrong once connected. -/
inductive Transport where
  | invalid_response
  | invalid_chunk_size
  | invalid_utf8
  | unexpected_eof
  deriving DecidableEq

/-- `BufRead::read_line`: a line with its break, or what is left. -/
def read_line (received : Bytes) : Except Transport (String × Bytes) :=
  let n := (position received).elim received.length (· + 1)
  match from_utf8 (received.take n) with
  | some line => .ok (line, received.drop n)
  | none => .error .invalid_utf8

/-- `BufRead::read_exact`. -/
def read_exact (n : Nat) (received : Bytes) : Except Transport (Bytes × Bytes) :=
  if received.length < n then .error .unexpected_eof else .ok (received.take n, received.drop n)

/-- `str::trim_end`. -/
def trim_end (s : String) : String := String.ofList (s.toList.rdropWhile isWhitespace)

/-- `str::parse::<u16>`. -/
def parse_u16 (s : String) : Option Nat := (Id.parse_u64 s.toList).filter (· < 2 ^ 16)

/-- Headers, up to the first blank line, after those read so far. -/
def headers_loop : Nat → Bytes → List (String × String) → Except Transport (List (String × String) × Bytes)
  | 0, _, _ => .error .invalid_response
  | lines + 1, received, headers => do
    let (line, rest) ← read_line received
    if line = "" then .error .invalid_response
    else
      let trimmed := trim_end line
      if trimmed = "" then .ok (headers, rest)
      else
        let header := (split_once ':' trimmed).map fun (name, value) =>
          (to_ascii_lowercase (trim name), trim value)
        headers_loop lines rest (headers ++ header.toList)

/-- There are no more lines than bytes. -/
def read_status_and_headers (received : Bytes) : Except Transport ((Nat × List (String × String)) × Bytes) := do
  let (line, rest) ← read_line received
  match (split ' ' line)[1]?.bind parse_u16 with
  | none => .error .invalid_response
  | some status =>
    let (headers, rest) ← headers_loop (rest.length + 1) rest []
    .ok ((status, headers), rest)

/-- `usize::from_str_radix` of base 16. -/
def parse_hex (s : String) : Option Nat :=
  let digits := if s.toList.head? = some '+' then s.toList.tail else s.toList
  if digits = [] then none
  else do
    let digits ← digits.mapM fun c => if c.toNat < 128 then toDigit c.toUInt8 else none
    let n := digits.foldl (fun n d => 16 * n + d) 0
    if n < 2 ^ 64 then some n else none

/-- What follows the last chunk, up to a blank line. -/
def skip_trailers : Nat → Bytes → Except Transport Bytes
  | 0, received => .ok received
  | lines + 1, received => do
    let (line, rest) ← read_line received
    if line = "" || trim line = "" then .ok rest else skip_trailers lines rest

def chunk_loop : Nat → Bytes → Bytes → Except Transport (Bytes × Bytes)
  | 0, _, _ => .error .invalid_chunk_size
  | chunks + 1, received, body => do
    let (line, rest) ← read_line received
    match parse_hex ((split ';' (trim line)).headD "") with
    | none => .error .invalid_chunk_size
    | some 0 => do
      let rest ← skip_trailers (rest.length + 1) rest
      .ok (body, rest)
    | some size => do
      let (chunk, rest) ← read_exact size rest
      let (_, rest) ← read_line rest
      chunk_loop chunks rest (body ++ chunk)

def read_chunked (received : Bytes) : Except Transport (Bytes × Bytes) := chunk_loop (received.length + 1) received []

structure ClientResponse where
  status : Nat
  body : Bytes
  deriving DecidableEq

/-- The body, as the headers frame it. -/
def read_body (headers : List (String × String)) (received : Bytes) : Except Transport (Bytes × Bytes) :=
  if (values headers "transfer-encoding").head?.any (eq_ignore_ascii_case · "chunked") then read_chunked received
  else
    match (values headers "content-length").head?.bind fun value => Id.parse_u64 value.toList with
    | some length => read_exact length received
    | none => .ok (received, [])

/-- A response, and what follows it. -/
def read_response (received : Bytes) : Except Transport (ClientResponse × Bytes) := do
  let ((status, headers), rest) ← read_status_and_headers received
  let (body, rest) ← read_body headers rest
  .ok ({ status, body }, rest)

/-- Sends a request to what answers with these bytes, and reads the response. -/
def send (respond : Bytes → Bytes) (target : Target) (method path : String) (headers : List (String × String))
    (body : Option Bytes) : Except Transport ClientResponse := do
  let (response, _) ← read_response (respond (write_request target method path headers body))
  .ok response

/-! ## Lines -/

/-- A line that a head may have: it is not blank, and its break is its end. -/
structure Line (line : String) : Prop where
  nonempty : line ≠ ""
  whole : '\n' ∉ line.toList

theorem bytes_break : bytes "\r\n" = [13, newline] := by decide

theorem position_break {line : String} (h : '\n' ∉ line.toList) (rest : Bytes) :
    position (bytes (line ++ "\r\n") ++ rest) = some ((bytes line).length + 1) := by
  have hPlain : newline ∉ bytes line := fun hMem => h (newline_mem.mp hMem)
  have hRest : position ([13, newline] ++ rest) = some 1 := rfl
  rw [bytes_append, bytes_break, List.append_assoc, position_append hPlain, hRest, Option.map_some, Nat.add_comm]

theorem break_length (line : String) : (bytes (line ++ "\r\n")).length = (bytes line).length + 1 + 1 := by
  rw [bytes_append, bytes_break, List.length_append]
  rfl

theorem trim_break (line : String) : trim_eol (bytes (line ++ "\r\n")) = bytes line := by
  have hLast : bytes (line ++ "\r\n") = (bytes line ++ [13]) ++ [newline] := by
    rw [bytes_append, bytes_break, List.append_assoc]
    rfl
  unfold trim_eol
  rw [hLast, List.getLast?_concat, if_pos rfl, List.dropLast_concat]
  dsimp only
  rw [List.getLast?_concat, if_pos rfl, List.dropLast_concat]

theorem bytes_ne_nil {s : String} (h : s ≠ "") : bytes s ≠ [] := by
  intro hNil
  exact h (bytes_injective (hNil.trans (by decide)))

/-- A scan ends with the blank line that ends the head. -/
theorem ends_head {lines : List String} (h : ∀ line ∈ lines, Line line) {started : Bool}
    (hStarted : started = true ∨ lines ≠ []) (more : Bytes) :
    Scanner.ends next (started, []) (bytes (head_text lines) ++ more) = some (bytes (head_text lines)).length := by
  induction lines generalizing started with
  | nil =>
    obtain rfl := hStarted.resolve_right (not_not.mpr rfl)
    rfl
  | cons line rest ih =>
    obtain ⟨hLine, hRest⟩ := List.forall_mem_cons.mp h
    have hSplit : bytes (head_text (line :: rest)) = bytes (line ++ "\r\n") ++ bytes (head_text rest) := by
      unfold head_text
      rw [broken_cons, String.append_assoc, bytes_append]
    rw [hSplit, List.append_assoc, ends_line (position_break hLine.whole _), ← break_length, List.take_left, List.drop_left,
      List.nil_append, trim_break, if_neg (fun hBoth => bytes_ne_nil hLine.nonempty hBoth.1),
      decide_eq_false (bytes_ne_nil hLine.nonempty), Bool.not_false, Bool.or_true, ih hRest (.inl rfl), Option.map_some,
      List.length_append, Nat.add_comm]

theorem skip_blank_head {line : String} (hLine : Line line) (lines : List String) (fuel : Nat) :
    skip_blank (fuel + 1) (bytes (head_text (line :: lines))) = bytes (head_text (line :: lines)) := by
  have hSplit : bytes (head_text (line :: lines)) = bytes (line ++ "\r\n") ++ bytes (head_text lines) := by
    unfold head_text
    rw [broken_cons, String.append_assoc, bytes_append]
  unfold skip_blank
  rw [hSplit, position_break hLine.whole]
  dsimp only
  rw [← break_length, List.take_left, trim_break, if_pos (bytes_ne_nil hLine.nonempty)]

/-- **The lines of a head**, and what stands around its last break. -/
theorem lines_head {ls : List String} (h : ∀ line ∈ ls, Line line) : lines (head_text ls) = ls ++ ["", ""] := by
  have hEnd : ∀ chars : List Char, strip_return (String.ofList (chars ++ ['\r'])) = String.ofList chars := by
    intro chars
    unfold strip_return
    rw [String.toList_ofList, List.getLast?_concat, if_pos rfl, List.dropLast_concat]
  induction ls with
  | nil => decide
  | cons line rest ih =>
    obtain ⟨hLine, hRest⟩ := List.forall_mem_cons.mp h
    have hChars : (head_text (line :: rest)).toList = (line.toList ++ ['\r']) ++ '\n' :: (head_text rest).toList := by
      unfold head_text
      rw [broken_cons]
      simp only [String.toList_append, List.append_assoc]
      rfl
    have hPlain : '\n' ∉ line.toList ++ ['\r'] := by
      rw [List.mem_append, List.mem_singleton, not_or]
      exact ⟨hLine.whole, by decide⟩
    unfold lines split at ih ⊢
    rw [hChars, List.splitOn_append_cons_self_of_not_mem hPlain, List.map_cons, List.map_cons, ih hRest, hEnd,
      String.ofList_toList]
    rfl

/-- **A head is read by its lines**, whatever follows it. -/
theorem head_of_text {line : String} {ls : List String} (h : ∀ l ∈ line :: ls, Line l)
    (hFits : (bytes (head_text (line :: ls))).length ≤ MAX_HEAD) (more : Bytes) (max_body : Nat) :
    head_of (bytes (head_text (line :: ls)) ++ more) max_body =
      (parse_lines (line :: ls ++ ["", ""]) max_body).map fun parsed => (parsed, more) := by
  unfold head_of
  rw [ends_head h (.inr (List.cons_ne_nil _ _)), cut_within hFits]
  dsimp only [bind, Except.bind]
  rw [List.take_left, List.drop_left, skip_blank_head (h line List.mem_cons_self)]
  unfold parse
  rw [from_utf8_bytes]
  dsimp only
  rw [lines_head h]
  cases parse_lines (line :: ls ++ ["", ""]) max_body <;> rfl

/-! ## Headers -/

theorem values_append (xs ys : List (String × String)) (name : String) :
    values (xs ++ ys) name = values xs name ++ values ys name := by
  unfold values
  rw [List.filter_append, List.map_append]

theorem values_none {headers : List (String × String)} {name : String} (h : ∀ x ∈ headers, x.1 ≠ name) :
    values headers name = [] := by
  unfold values
  rw [List.filter_eq_nil_iff.mpr, List.map_nil]
  intro x hX hEq
  exact h x hX (of_decide_eq_true hEq)

/-- The characters of a token. -/
theorem token_char {name : String} (h : is_token name = true) {c : Char} (hC : c ∈ name.toList) :
    33 ≤ c.toNat ∧ c.toNat ≤ 126 ∧ c ≠ ':' := by
  have hBytes := (Bool.and_eq_true_iff.mp h).2
  -- `is_token` looks at bytes, each of them one of a character
  have hMem : ∀ b ∈ String.utf8EncodeChar c, b ∈ bytes name := fun b hB => List.mem_flatMap.mpr ⟨c, hC, hB⟩
  have hToken : ∀ n : Fin 256, (48 ≤ UInt8.ofNat n && UInt8.ofNat n ≤ 57 || 65 ≤ UInt8.ofNat n && UInt8.ofNat n ≤ 90 ||
      97 ≤ UInt8.ofNat n && UInt8.ofNat n ≤ 122 || decide (UInt8.ofNat n ∈ Journal.ascii "!#$%&'*+-.^_`|~")) = true →
      33 ≤ n.val ∧ n.val ≤ 126 ∧ n.val ≠ 58 := by decide +kernel
  have hByte : ∀ b ∈ String.utf8EncodeChar c, 33 ≤ b.toNat ∧ b.toNat ≤ 126 ∧ b.toNat ≠ 58 := by
    intro b hB
    have hThis := List.all_eq_true.mp hBytes b (hMem b hB)
    refine hToken ⟨b.toNat, b.toNat_lt⟩ ?_
    rw [UInt8.ofNat_toNat]
    exact hThis
  by_cases hLow : c.toNat < 128
  · rw [utf8_ascii hLow] at hByte
    have hThis := hByte _ List.mem_cons_self
    rw [UInt8.toNat_ofNat', Nat.mod_eq_of_lt (by omega)] at hThis
    refine ⟨hThis.1, hThis.2.1, ?_⟩
    rintro rfl
    exact hThis.2.2 rfl
  · -- the bytes of a character that is no ASCII are in no token
    obtain ⟨b, rest, hSome⟩ := List.exists_cons_of_ne_nil (@String.utf8EncodeChar_ne_nil c)
    have hB : b ∈ String.utf8EncodeChar c := by rw [hSome]; exact List.mem_cons_self
    have hHigh := utf8_high (Nat.le_of_not_lt hLow) b hB
    have := hByte b hB
    omega

theorem has_control_append (s t : String) : has_control (s ++ t) = (has_control s || has_control t) := by
  unfold has_control
  rw [bytes_append, List.any_append]

theorem has_control_number (n : Nat) : has_control (toString n) = false := by
  have hDigits : (toString n).toList = Nat.toDigits 10 n := Nat.toList_repr
  refine List.any_eq_false.mpr fun b hB => ?_
  rw [← push_number_eq] at hB
  obtain ⟨c, hC, rfl⟩ := List.mem_map.mp hB
  have hDecimal := (Journal.decimal_digit hC).1
  simp only [Journal.isDecimal, decide_eq_true_eq, UInt8.le_iff_toNat_le, UInt8.reduceToNat] at hDecimal
  simp only [Bool.or_eq_true, Bool.and_eq_true, decide_eq_true_eq, UInt8.lt_iff_toNat_lt, ← UInt8.toNat_inj,
    UInt8.reduceToNat]
  omega

/-- A text without control characters has no line break. -/
theorem no_break {text : String} (h : has_control text = false) : '\n' ∉ text.toList := by
  intro hMem
  have hByte := List.any_eq_false.mp h newline (newline_mem.mpr hMem)
  exact hByte (by decide)

/-- A header as the server keeps it. -/
def kept (h : String × String) : String × String := (to_ascii_lowercase h.1, trim_blanks h.2)

/-- A header whose text can be sent. -/
structure Sent (h : String × String) : Prop where
  name : is_token h.1 = true
  value : has_control h.2 = false

theorem Sent.line {h : String × String} (hSent : Sent h) : Line (header_line h) := by
  have hChars : (header_line h).toList = h.1.toList ++ ':' :: ' ' :: h.2.toList := by
    unfold header_line
    simp only [String.toList_append, List.append_assoc]
    rfl
  refine ⟨fun hEmpty => ?_, ?_⟩
  · rw [hEmpty] at hChars
    exact absurd (congrArg List.length hChars) (by simp)
  · rw [hChars]
    simp only [List.mem_append, List.mem_cons, not_or]
    refine ⟨fun hMem => ?_, by decide, by decide, no_break hSent.value⟩
    have := (token_char hSent.name hMem).1
    exact absurd this (by decide)

theorem Sent.parse {h : String × String} (hSent : Sent h) : parse_header (header_line h) = .ok (kept h) := by
  have hText : header_line h = String.ofList (h.1.toList ++ ':' :: ' ' :: h.2.toList) := by
    refine String.toList_injective ?_
    unfold header_line
    rw [String.toList_ofList]
    simp only [String.toList_append, List.append_assoc]
    rfl
  have hSpace : String.ofList (' ' :: h.2.toList) = " " ++ h.2 := by
    refine String.toList_injective ?_
    rw [String.toList_ofList, String.toList_append]
    rfl
  have hControl : has_control (" " ++ h.2) = false := by rw [has_control_append, hSent.value]; decide
  have hTrim : trim_blanks (" " ++ h.2) = trim_blanks h.2 := by
    unfold trim_blanks
    rw [String.toList_append]
    rfl
  unfold parse_header
  rw [hText, split_once_some fun hMem => (token_char hSent.name hMem).2.2 rfl]
  dsimp only
  rw [String.ofList_toList, hSpace, hSent.name, hControl, hTrim]
  rfl

/-- **Headers are read as they were written.** -/
theorem read_headers_sent {hs read : List (String × String)} (hSent : ∀ h ∈ hs, Sent h)
    (hCount : read.length + hs.length ≤ MAX_HEADERS) (rest : List String) :
    read_headers (hs.map header_line ++ "" :: rest) read = .ok (read ++ hs.map kept) := by
  induction hs generalizing read with
  | nil =>
    rw [List.map_nil, List.map_nil, List.append_nil]
    rfl
  | cons h hs ih =>
    obtain ⟨hFirst, hRest⟩ := List.forall_mem_cons.mp hSent
    rw [List.length_cons] at hCount
    rw [List.map_cons, List.cons_append, read_headers, if_neg hFirst.line.nonempty, if_neg (by omega), hFirst.parse]
    have hMore := @ih (read ++ [kept h]) hRest (by rw [List.length_append, List.length_singleton]; omega)
    rw [List.append_assoc] at hMore
    exact hMore

/-! ## The server reads a request -/

/-- The request line of a request. -/
def request_line (target : Target) (method path : String) : String :=
  method ++ " " ++ (target.base ++ path) ++ " HTTP/1.1"

/-- The headers of a request, as they are written. -/
def request_headers (target : Target) (headers : List (String × String)) (body : Option Bytes) : List (String × String) :=
  [("Host", target.authority), ("User-Agent", "postino/" ++ VERSION), ("Connection", "close")] ++
    headers.map (fun h => (h.1, clean h.2)) ++
    body.elim [] fun body => [("Content-Type", "application/json"), ("Content-Length", toString body.length)]

theorem write_request_eq (target : Target) (method path : String) (headers : List (String × String))
    (body : Option Bytes) :
    write_request target method path headers body =
      bytes (head_text (request_line target method path :: (request_headers target headers body).map header_line)) ++
        body.getD [] := by
  -- the caller's headers follow the client's own, one to a line
  have hHeaders : ∀ head : String, headers.foldl (fun head h => head ++ s!"{h.1}: {clean h.2}\r\n") head =
      head ++ broken ((headers.map fun h => (h.1, clean h.2)).map header_line) := by
    induction headers with
    | nil =>
      intro head
      exact String.append_empty.symm
    | cons h headers ih =>
      intro head
      rw [List.foldl_cons, ih, List.map_cons, List.map_cons, broken_cons]
      simp only [header_line, toString_text, String.append_assoc]
  unfold write_request
  dsimp only
  rw [hHeaders]
  -- the text the code writes, cut into lines
  have hHost : " HTTP/1.1\r\nHost: " = " HTTP/1.1" ++ ("\r\n" ++ ("Host" ++ ": ")) := by decide
  have hAgent : "\r\nUser-Agent: postino/" = "\r\n" ++ ("User-Agent" ++ (": " ++ "postino/")) := by decide
  have hClose : "\r\nConnection: close\r\n" = "\r\n" ++ ("Connection" ++ (": " ++ ("close" ++ "\r\n"))) := by decide
  have hJson : "Content-Type: application/json\r\nContent-Length: " =
      "Content-Type" ++ (": " ++ ("application/json" ++ ("\r\n" ++ ("Content-Length" ++ ": ")))) := by decide
  have hNone : broken [] = "" := rfl
  refine congrArg (bytes · ++ _) ?_
  unfold head_text request_headers request_line
  cases body <;>
    simp only [List.cons_append, List.nil_append, List.map_cons, List.map_append, List.map_nil, broken_cons, broken_append,
      header_line, Option.elim, toString_text, String.append_assoc, String.empty_append, hHost, hAgent, hClose, hJson,
      hNone]

/-- What can be sent: no header stands in for one that frames the request, and the server
takes what is sent. -/
structure Sendable (target : Target) (headers : List (String × String)) (body : Option Bytes) (max_body : Nat) : Prop where
  host : has_control target.host = false
  sent : ∀ h ∈ headers, Sent (h.1, clean h.2)
  framing : ∀ h ∈ headers, to_ascii_lowercase h.1 ∉ ["host", "content-length", "transfer-encoding"]
  count : headers.length + 5 ≤ MAX_HEADERS
  length : (body.getD []).length ≤ max_body
  word : max_body < 2 ^ 64

section

variable {target : Target} {method path : String} {asked : Http.Target} {headers : List (String × String)}
  {body : Option Bytes} {max_body : Nat}

theorem no_control_authority (h : has_control target.host = false) : has_control target.authority = false := by
  unfold Target.authority
  split
  · simp only [toString_text, has_control_append, h, has_control_number]
    decide
  · simp only [toString_text, has_control_append, h, has_control_number]
    decide

theorem Sendable.request (h : Sendable target headers body max_body) : ∀ x ∈ request_headers target headers body, Sent x := by
  intro x hX
  unfold request_headers at hX
  simp only [List.mem_append, List.mem_cons, List.not_mem_nil, or_false] at hX
  rcases hX with ((rfl | rfl | rfl) | hX) | hX
  · exact ⟨show is_token "Host" = true by decide, no_control_authority h.host⟩
  · exact ⟨by decide, by decide⟩
  · exact ⟨by decide, by decide⟩
  · obtain ⟨y, hY, rfl⟩ := List.mem_map.mp hX
    exact h.sent y hY
  · cases body with
    | none => exact nomatch hX
    | some body =>
      simp only [Option.elim, List.mem_cons, List.not_mem_nil, or_false] at hX
      rcases hX with rfl | rfl
      · exact ⟨by decide, by decide⟩
      · exact ⟨show is_token "Content-Length" = true by decide, has_control_number _⟩

theorem Sendable.few (h : Sendable target headers body max_body) :
    (request_headers target headers body).length ≤ MAX_HEADERS := by
  have hCount := h.count
  unfold request_headers
  cases body <;> simp only [List.length_append, List.length_map, List.length_cons, List.length_nil, Option.elim] <;> omega

theorem trim_blanks_number (n : Nat) : trim_blanks (toString n) = toString n := by
  have hDigits : (toString n).toList = Nat.toDigits 10 n := Nat.toList_repr
  have hNone : ∀ c ∈ (toString n).toList, blank c = false := by
    rw [hDigits]
    intro c hC
    have hDigit := Nat.isDigit_of_mem_toDigits (by decide) (by decide) hC
    refine Bool.eq_false_iff.mpr fun hBlank => ?_
    simp only [blank, Bool.or_eq_true, decide_eq_true_eq] at hBlank
    rcases hBlank with rfl | rfl <;> exact absurd hDigit (by decide)
  exact (congrArg String.ofList (Trim.trim_of_none hNone)).trans String.ofList_toList

theorem parse_length_number {n : Nat} (h : n < 2 ^ 64) : parse_length (toString n) = some n := by
  have hDigits : (toString n).toList = Nat.toDigits 10 n := Nat.toList_repr
  have hAll : (toString n).toList.all Char.isDigit = true := by
    rw [hDigits]
    exact List.all_eq_true.mpr fun c hC => Nat.isDigit_of_mem_toDigits (by decide) (by decide) hC
  have hNe : toString n ≠ "" := by
    intro hEmpty
    rw [hEmpty] at hDigits
    exact Nat.toDigits_ne_nil hDigits.symm
  unfold parse_length
  rw [hAll, decide_eq_true hNe, Bool.and_self, if_pos rfl, hDigits, Id.parse_u64_digits h]

theorem values_kept (written value name : String) :
    values [kept (written, value)] name = if to_ascii_lowercase written = name then [trim_blanks value] else [] := by
  unfold values kept
  rw [List.filter_cons]
  split <;> simp_all

/-- The values of a header that only the client writes. -/
theorem values_request (h : Sendable target headers body max_body) {name : String}
    (hName : name ∈ ["host", "content-length", "transfer-encoding"]) :
    values ((request_headers target headers body).map kept) name =
      values [kept ("Host", target.authority)] name ++
        values ((body.elim [] fun body => [("Content-Length", toString body.length)]).map kept) name := by
  -- the caller may not frame the request itself
  have hNone : values ((headers.map fun h => (h.1, clean h.2)).map kept) name = [] := by
    refine values_none fun x hX => ?_
    rw [List.map_map] at hX
    obtain ⟨y, hY, rfl⟩ := List.mem_map.mp hX
    rintro rfl
    exact h.framing y hY hName
  have hFixed : ∀ name ∈ ["host", "content-length", "transfer-encoding"],
      "user-agent" ≠ name ∧ "connection" ≠ name ∧ "content-type" ≠ name := by decide
  obtain ⟨hAgent, hStays, hType⟩ := hFixed name hName
  have hFirst : values ([("Host", target.authority), ("User-Agent", "postino/" ++ VERSION), ("Connection", "close")].map kept)
      name = values [kept ("Host", target.authority)] name := by
    rw [List.map_cons, ← List.singleton_append, values_append, @values_none (List.map kept _) _, List.append_nil]
    intro x hX
    simp only [List.map_cons, List.map_nil, List.mem_cons, List.not_mem_nil, or_false] at hX
    rcases hX with rfl | rfl
    · exact hAgent
    · exact hStays
  unfold request_headers
  rw [List.map_append, List.map_append, values_append, values_append, hNone, hFirst, List.append_nil]
  refine congrArg _ ?_
  cases body with
  | none => rfl
  | some body =>
    simp only [Option.elim]
    rw [List.map_cons, ← List.singleton_append, values_append, @values_none [kept _] _, List.nil_append]
    intro x hX
    rw [List.mem_singleton.mp hX]
    exact hType

theorem body_length_request (h : Sendable target headers body max_body) :
    body_length ((request_headers target headers body).map kept) max_body = .ok (body.getD []).length := by
  have hHost : values ((request_headers target headers body).map kept) "host" = [trim_blanks target.authority] := by
    rw [values_request h (by decide), values_kept, if_pos (by decide)]
    cases body with
    | none => rfl
    | some body =>
      simp only [Option.elim, List.map_cons, List.map_nil]
      rw [values_kept, if_neg (by decide), List.append_nil]
  have hCoding : values ((request_headers target headers body).map kept) "transfer-encoding" = [] := by
    rw [values_request h (by decide), values_kept, if_neg (by decide)]
    cases body with
    | none => rfl
    | some body =>
      simp only [Option.elim, List.map_cons, List.map_nil]
      rw [values_kept, if_neg (by decide), List.append_nil]
  have hLength : values ((request_headers target headers body).map kept) "content-length" =
      (body.elim [] fun body => [toString body.length]) := by
    rw [values_request h (by decide), values_kept, if_neg (by decide)]
    cases body with
    | none => rfl
    | some body =>
      simp only [Option.elim, List.map_cons, List.map_nil]
      rw [values_kept, if_pos (by decide), trim_blanks_number, List.nil_append]
  -- one Host, no coding, and the body's length where there is one
  have hTakes := h.length
  have hWord := h.word
  unfold body_length
  rw [hCoding, hHost, hLength, if_neg (not_not.mpr rfl), List.length_singleton, if_neg (by decide)]
  cases body with
  | none => rfl
  | some body =>
    simp only [Option.getD_some] at hTakes ⊢
    have hParsed : content_length none [toString body.length] = .ok (some body.length) := by
      rw [content_length, parse_length_number (by omega)]
      rfl
    simp only [Option.elim]
    rw [hParsed]
    dsimp only [bind, Except.bind, Option.getD_some]
    rw [if_neg (by omega)]

/-- What the server makes of a request. -/
def read_as (target : Target) (method : String) (asked : Http.Target) (headers : List (String × String))
    (body : Option Bytes) : Request :=
  { method, path := String.ofList (path_of asked.segments), headers := (request_headers target headers body).map kept
    query := asked.query, body := [], http10 := false, segments := asked.segments }

theorem path_written_of (asked : Http.Target) :
    ((split_once '?' asked.written).getD (asked.written, "")).1 = String.ofList (path_of asked.segments) := by
  have hPath := not_mem_path asked.segments (c := '?') (by decide)
  unfold Http.Target.written
  by_cases hNone : asked.query = []
  · rw [if_pos hNone, List.append_nil, split_once_none (by rwa [String.toList_ofList])]
    rfl
  · rw [if_neg hNone, split_once_some hPath]
    rfl

/-- **The server reads what the client asked for**, whatever comes after it. -/
theorem request_read (hMethod : is_token method = true) (hPath : target.base ++ path = asked.written)
    (hSome : asked.segments ≠ []) (hEach : ∀ s ∈ asked.segments, s ≠ "") (h : Sendable target headers body max_body)
    (hFits : (write_request target method path headers body).length ≤ MAX_HEAD + (body.getD []).length) (more : Bytes) :
    head_of (write_request target method path headers body ++ more) max_body =
      .ok ((read_as target method asked headers body, (body.getD []).length), body.getD [] ++ more) := by
  rw [write_request_eq] at hFits ⊢
  have hLine : Line (request_line target method path) := by
    have hWhole : '\n' ∉ (method ++ " " ++ asked.written ++ " HTTP/1.1").toList := by
      simp only [String.toList_append, List.mem_append, not_or]
      refine ⟨⟨⟨fun hMem => ?_, by decide⟩, no_break no_control⟩, by decide⟩
      exact absurd (token_char hMethod hMem).1 (by decide)
    unfold request_line
    rw [hPath]
    refine ⟨fun hEmpty => ?_, hWhole⟩
    have hLength := congrArg (fun s => s.toList.length) hEmpty
    simp only [String.toList_append, List.length_append] at hLength
    exact absurd hLength (by simp)
  -- no line of the head has a break in it, so it is cut where it was joined
  have hLines : ∀ l ∈ request_line target method path :: (request_headers target headers body).map header_line, Line l := by
    refine List.forall_mem_cons.mpr ⟨hLine, fun l hL => ?_⟩
    obtain ⟨x, hX, rfl⟩ := List.mem_map.mp hL
    exact (h.request x hX).line
  have hHead : parse_request_line (request_line target method path) = .ok (method, asked.written, false) := by
    unfold request_line
    rw [hPath]
    exact request_line_written hMethod hSome
  have hHeaders := @read_headers_sent _ [] h.request (by rw [List.length_nil, Nat.zero_add]; exact h.few) [""]
  rw [List.length_append] at hFits
  rw [List.append_assoc, head_of_text hLines (by omega)]
  unfold parse_lines
  rw [List.cons_append, List.headD_cons, List.tail_cons, hHead, hHeaders]
  dsimp only [Except.mapError, bind, Except.bind]
  rw [List.nil_append, body_length_request h]
  dsimp only [pure, Except.pure, Except.map]
  rw [path_written_of, parse_written hEach]
  rfl

end

/-- A client posts for an agent. -/
theorem request_read_post :
    let target : Target := { host := "::1", port := 2790, base := "" }
    let asked : Http.Target := { segments := ["api", "a/b"], query := [("x", "1 2")] }
    let headers := [("Authorization", "Bearer 0123456789abcdef"), ("X-Postino-Agent", "ann\r\n")]
    head_of (write_request target "POST" "/api/a%2Fb?x=1%202" headers (some [123, 125]) ++ [0]) 100 =
      .ok ((read_as target "POST" asked headers (some [123, 125]), 2), [123, 125] ++ [0]) := by
  refine request_read (by decide) (by decide +kernel) (by decide) (by decide) ⟨by decide, ?_, by decide, by decide, by decide,
    by decide⟩ (by decide +kernel) [0]
  rw [List.forall_mem_cons, List.forall_mem_cons]
  exact ⟨⟨by decide, by decide +kernel⟩, ⟨by decide, by decide +kernel⟩, List.forall_mem_nil _⟩

/-! ## The client reads a response -/

theorem read_line_break {line : String} (h : '\n' ∉ line.toList) (rest : Bytes) :
    read_line (bytes (line ++ "\r\n") ++ rest) = .ok (line ++ "\r\n", rest) := by
  unfold read_line
  rw [position_break h]
  dsimp only [Option.elim]
  rw [← break_length, List.take_left, List.drop_left, from_utf8_bytes]

/-- A header as the client reads it. -/
def got (h : String × String) : String × String := (to_ascii_lowercase h.1, trim h.2)

/-- A header whose line ends where its break is. -/
structure Answered (h : String × String) : Prop where
  name : is_token h.1 = true
  whole : '\n' ∉ h.2.toList

theorem header_chars (h : String × String) : (header_line h).toList = h.1.toList ++ ':' :: ' ' :: h.2.toList := by
  unfold header_line
  simp only [String.toList_append, List.append_assoc]
  rfl

theorem Answered.line {h : String × String} (hRead : Answered h) : '\n' ∉ (header_line h).toList := by
  rw [header_chars]
  simp only [List.mem_append, List.mem_cons, not_or]
  refine ⟨fun hMem => ?_, by decide, by decide, hRead.whole⟩
  exact absurd (token_char hRead.name hMem).1 (by decide)

/-- No character of a token is white. -/
theorem token_black {name : String} (h : is_token name = true) : ∀ c ∈ name.toList, isWhitespace c = false := by
  intro c hC
  obtain ⟨hLow, hHigh, -⟩ := token_char h hC
  simp only [isWhitespace, Bool.or_eq_false_iff, Bool.and_eq_false_iff, decide_eq_false_iff_not]
  omega

/-- Its line without its break, before the colon and after it. -/
theorem trim_end_line (h : String × String) :
    trim_end (header_line h ++ "\r\n") =
      String.ofList (h.1.toList ++ ':' :: (' ' :: h.2.toList ++ ['\r', '\n']).rdropWhile isWhitespace) := by
  have hChars : (header_line h ++ "\r\n").toList = h.1.toList ++ ':' :: (' ' :: h.2.toList ++ ['\r', '\n']) := by
    rw [String.toList_append, header_chars, List.append_assoc]
    rfl
  unfold trim_end
  rw [hChars, Trim.rdropWhile_append_cons (by decide)]

theorem trim_eq (s : String) : trim s = String.ofList (Trim.trim isWhitespace s.toList) := rfl

theorem Answered.got {h : String × String} (hRead : Answered h) :
    (split_once ':' (trim_end (header_line h ++ "\r\n"))).map
        (fun p => (to_ascii_lowercase (trim p.1), trim p.2)) = some (got h) := by
  have hBreak : ∀ c ∈ ['\r', '\n'], isWhitespace c = true := by simp [isWhitespace]
  have hSpace : ∀ c ∈ [' '], isWhitespace c = true := by simp [isWhitespace]
  have hName : trim h.1 = h.1 := by
    rw [trim_eq, Trim.trim_of_none (token_black hRead.name), String.ofList_toList]
  have hValue : trim (String.ofList ((' ' :: h.2.toList ++ ['\r', '\n']).rdropWhile isWhitespace)) = trim h.2 := by
    rw [trim_eq, trim_eq, String.toList_ofList, Trim.trim_rdropWhile, Trim.trim_append_right _ hBreak, ← List.singleton_append,
      Trim.trim_append_left hSpace]
  rw [trim_end_line h, split_once_some fun hMem => (token_char hRead.name hMem).2.2 rfl, Option.map_some,
    String.ofList_toList, hName, hValue]
  rfl

/-- **Headers are read as they were written**, up to the blank line. -/
theorem headers_loop_eq {hs : List (String × String)} (hRead : ∀ h ∈ hs, Answered h) {fuel : Nat} (hFuel : hs.length < fuel)
    (read : List (String × String)) (rest : Bytes) :
    headers_loop fuel (bytes (head_text (hs.map header_line)) ++ rest) read = .ok (read ++ hs.map got, rest) := by
  -- on the headers: each is one line, and the blank one ends them
  induction hs generalizing fuel read with
  | nil =>
    obtain ⟨fuel, rfl⟩ : ∃ fewer, fuel = fewer + 1 := ⟨fuel - 1, by omega⟩
    have hBlank := @read_line_break "" (by decide) rest
    have hText : bytes (head_text (List.map header_line [])) = bytes ("" ++ "\r\n") := rfl
    rw [hText, headers_loop, hBlank]
    dsimp only [bind, Except.bind]
    rw [if_neg (by decide), if_pos (by decide), List.map_nil, List.append_nil]
  | cons h hs ih =>
    obtain ⟨hFirst, hRest⟩ := List.forall_mem_cons.mp hRead
    rw [List.length_cons] at hFuel
    obtain ⟨fuel, rfl⟩ : ∃ fewer, fuel = fewer + 1 := ⟨fuel - 1, by omega⟩
    have hSplit : bytes (head_text ((h :: hs).map header_line)) =
        bytes (header_line h ++ "\r\n") ++ bytes (head_text (hs.map header_line)) := by
      unfold head_text
      rw [List.map_cons, broken_cons, String.append_assoc, bytes_append]
    have hLine : header_line h ++ "\r\n" ≠ "" := by
      intro hEmpty
      have hLength := congrArg (fun s => s.toList.length) hEmpty
      simp only [String.toList_append, List.length_append] at hLength
      exact absurd hLength (by simp)
    have hTrimmed : trim_end (header_line h ++ "\r\n") ≠ "" := by
      rw [trim_end_line h]
      intro hEmpty
      have hLength := congrArg String.toList hEmpty
      rw [String.toList_ofList] at hLength
      exact absurd hLength (by simp)
    have hGot := hFirst.got
    rw [hSplit, List.append_assoc, headers_loop, read_line_break hFirst.line]
    dsimp only [bind, Except.bind]
    rw [if_neg hLine, if_neg hTrimmed, hGot, Option.toList_some, ih hRest (by omega), List.append_assoc]
    rfl

/-! ## A whole response -/

/-- A response whose own headers leave its framing alone. -/
structure Answerable (response : Response) : Prop where
  status : response.status < 2 ^ 16
  names : ∀ h ∈ response.headers, is_token h.1 = true
  framing : ∀ h ∈ response.headers, to_ascii_lowercase h.1 ∉ ["content-length", "transfer-encoding"]
  length : response.body.length < 2 ^ 64

theorem clean_whole (text : String) : '\n' ∉ (clean text).toList := by
  unfold clean
  rw [String.toList_ofList]
  intro hMem
  have hKeeps := (List.mem_filter.mp hMem).2
  exact absurd hKeeps (by decide)

theorem clean_token {name : String} (h : is_token name = true) : clean name = name := by
  unfold clean
  rw [List.filter_eq_self.mpr, String.ofList_toList]
  intro c hC
  obtain ⟨hLow, -, -⟩ := token_char h hC
  simp only [Bool.and_eq_true, decide_eq_true_eq]
  constructor
  · rintro rfl
    exact absurd hLow (by decide)
  · rintro rfl
    exact absurd hLow (by decide)

theorem number_whole (n : Nat) : '\n' ∉ (toString n).toList := no_break (has_control_number n)

theorem Answerable.answered {response : Response} (h : Answerable response) (keep_alive : Bool) :
    ∀ x ∈ written_headers response keep_alive, Answered x := by
  intro x hX
  unfold written_headers at hX
  simp only [List.mem_append, List.mem_map, List.mem_cons, List.not_mem_nil, or_false] at hX
  rcases hX with ⟨y, hY, rfl⟩ | rfl | rfl
  · refine ⟨?_, clean_whole _⟩
    rw [clean_token (h.names y hY)]
    exact h.names y hY
  · exact ⟨show is_token "Content-Length" = true by decide, number_whole _⟩
  · refine ⟨show is_token "Connection" = true by decide, ?_⟩
    cases keep_alive <;> decide

/-- The headers of a response, as the client reads them. -/
def read_headers_of (response : Response) (keep_alive : Bool) : List (String × String) :=
  response.headers.map (fun h => (to_ascii_lowercase h.1, trim (clean h.2))) ++
    [("content-length", toString response.body.length), ("connection", if keep_alive then "keep-alive" else "close")]

theorem got_written {response : Response} (h : Answerable response) (keep_alive : Bool) :
    (written_headers response keep_alive).map got = read_headers_of response keep_alive := by
  -- a name is a token, so cleaning leaves it as it is
  have hOwn : (response.headers.map fun h => (clean h.1, clean h.2)).map got =
      response.headers.map fun h => (to_ascii_lowercase h.1, trim (clean h.2)) := by
    rw [List.map_map]
    refine List.map_congr_left fun x hX => ?_
    show (to_ascii_lowercase (clean x.1), trim (clean x.2)) = _
    rw [clean_token (h.names x hX)]
  have hLength : trim (toString response.body.length) = toString response.body.length := by
    rw [trim_eq, Trim.trim_of_none, String.ofList_toList]
    intro c hC
    have hDigits : (toString response.body.length).toList = Nat.toDigits 10 response.body.length := Nat.toList_repr
    rw [hDigits] at hC
    have hDigit := Nat.isDigit_of_mem_toDigits (by decide) (by decide) hC
    simp only [Char.isDigit, Bool.and_eq_true, decide_eq_true_eq] at hDigit
    have hGe : 48 ≤ c.toNat := hDigit.1
    have hLe : c.toNat ≤ 57 := hDigit.2
    simp only [isWhitespace, Bool.or_eq_false_iff, Bool.and_eq_false_iff, decide_eq_false_iff_not]
    omega
  have hStays : trim (if keep_alive then "keep-alive" else "close") = if keep_alive then "keep-alive" else "close" := by
    cases keep_alive <;> decide
  have hNames : to_ascii_lowercase "Content-Length" = "content-length" ∧ to_ascii_lowercase "Connection" = "connection" := by
    decide
  unfold written_headers read_headers_of
  rw [List.map_append, hOwn]
  simp only [List.map_cons, List.map_nil, got, hLength, hStays, hNames.1, hNames.2]

theorem status_read {status : Nat} (h : status < 2 ^ 16) :
    (split ' ' (status_line status ++ "\r\n"))[1]?.bind parse_u16 = some status := by
  have hDigits : (toString status).toList = Nat.toDigits 10 status := Nat.toList_repr
  have hChars : (status_line status ++ "\r\n").toList =
      "HTTP/1.1".toList ++ ' ' :: ((toString status).toList ++ ' ' :: ((reason status).toList ++ ['\r', '\n'])) := by
    unfold status_line
    simp only [String.toList_append, List.append_assoc]
    rfl
  have hPlain : ' ' ∉ (toString status).toList := by
    rw [hDigits]
    intro hMem
    exact absurd (Nat.isDigit_of_mem_toDigits (by decide) (by decide) hMem) (by decide)
  unfold split
  rw [hChars, List.splitOn_append_cons_self_of_not_mem (by decide), List.splitOn_append_cons_self_of_not_mem hPlain,
    List.map_cons, List.map_cons, List.getElem?_cons_succ, List.getElem?_cons_zero, Option.bind_some, String.ofList_toList]
  unfold parse_u16
  rw [hDigits, Id.parse_u64_digits (by omega), Option.filter_some, if_pos (decide_eq_true h)]

theorem status_whole (status : Nat) : '\n' ∉ (status_line status).toList := by
  have hReason : '\n' ∉ (reason status).toList := by
    unfold reason
    split <;> decide
  unfold status_line
  simp only [String.toList_append, List.mem_append, not_or]
  exact ⟨⟨⟨by decide, number_whole status⟩, by decide⟩, hReason⟩

/-- A head is no shorter than its lines are many. -/
theorem lines_le (ls : List String) : ls.length ≤ (bytes (head_text ls)).length := by
  induction ls with
  | nil => exact Nat.zero_le _
  | cons line ls ih =>
    have hSplit : bytes (head_text (line :: ls)) = bytes (line ++ "\r\n") ++ bytes (head_text ls) := by
      unfold head_text
      rw [broken_cons, String.append_assoc, bytes_append]
    rw [hSplit, List.length_append, break_length, List.length_cons]
    omega

theorem read_head_of {response : Response} (h : Answerable response) (keep_alive : Bool) (rest : Bytes) :
    read_status_and_headers (push_response_head response keep_alive ++ rest) =
      .ok ((response.status, read_headers_of response keep_alive), rest) := by
  have hSplit : push_response_head response keep_alive ++ rest = bytes (status_line response.status ++ "\r\n") ++
      (bytes (head_text ((written_headers response keep_alive).map header_line)) ++ rest) := by
    rw [push_response_head_eq]
    unfold head_text
    rw [broken_cons, String.append_assoc, bytes_append, List.append_assoc]
  have hFuel : (written_headers response keep_alive).length <
      (bytes (head_text ((written_headers response keep_alive).map header_line)) ++ rest).length + 1 := by
    have hLe := lines_le ((written_headers response keep_alive).map header_line)
    rw [List.length_map] at hLe
    rw [List.length_append]
    omega
  unfold read_status_and_headers
  rw [hSplit, read_line_break (status_whole _)]
  dsimp only [bind, Except.bind]
  rw [status_read h.status]
  dsimp only
  rw [headers_loop_eq (h.answered keep_alive) hFuel, List.nil_append, got_written h]

/-- **The client reads what was answered**: the status, each header in its place and no
other, and the body, whatever comes after it. -/
theorem response_read {response : Response} (h : Answerable response) (keep_alive : Bool) (more : Bytes) :
    read_status_and_headers (encode_response response keep_alive false ++ more) =
        .ok ((response.status, read_headers_of response keep_alive), response.body ++ more) ∧
      read_response (encode_response response keep_alive false ++ more) =
        .ok ({ status := response.status, body := response.body }, more) := by
  have hHead : read_status_and_headers (encode_response response keep_alive false ++ more) =
      .ok ((response.status, read_headers_of response keep_alive), response.body ++ more) := by
    unfold encode_response
    rw [if_neg Bool.false_ne_true, List.append_assoc, read_head_of h]
  -- the service does not frame its answer itself
  have hOwn : ∀ name ∈ ["content-length", "transfer-encoding"],
      values (response.headers.map fun h => (to_ascii_lowercase h.1, trim (clean h.2))) name = [] := by
    intro name hName
    refine values_none fun x hX => ?_
    obtain ⟨y, hY, rfl⟩ := List.mem_map.mp hX
    rintro rfl
    exact h.framing y hY hName
  have hCoding : values (read_headers_of response keep_alive) "transfer-encoding" = [] := by
    unfold read_headers_of
    rw [values_append, hOwn _ (by decide)]
    rfl
  have hLength : values (read_headers_of response keep_alive) "content-length" = [toString response.body.length] := by
    unfold read_headers_of
    rw [values_append, hOwn _ (by decide)]
    rfl
  have hDigits : (toString response.body.length).toList = Nat.toDigits 10 response.body.length := Nat.toList_repr
  have hBody : read_body (read_headers_of response keep_alive) (response.body ++ more) = .ok (response.body, more) := by
    unfold read_body
    rw [hCoding, hLength, if_neg (by simp), List.head?_cons, Option.bind_some, hDigits, Id.parse_u64_digits h.length]
    unfold read_exact
    dsimp only
    rw [if_neg (by rw [List.length_append]; omega), List.take_left, List.drop_left]
  refine ⟨hHead, ?_⟩
  unfold read_response
  rw [hHead]
  dsimp only [bind, Except.bind]
  rw [hBody]

/-- A value with a line break in it adds no header. -/
theorem response_read_break :
    read_status_and_headers (encode_response { status := 200, headers := [("X-Note", "a\r\nX-Other: 1")], body := [7] }
        true false ++ [8]) =
      .ok ((200, [("x-note", "aX-Other: 1"), ("content-length", "1"), ("connection", "keep-alive")]), [7] ++ [8]) := by
  have hRead := (@response_read { status := 200, headers := [("X-Note", "a\r\nX-Other: 1")], body := [7] }
    ⟨by decide, by decide, by decide, by decide⟩ true [8]).1
  rw [hRead]
  decide +kernel

/-! ## An exchange -/

section

variable {service : Service} {target : Target} {method path : String} {asked : Http.Target}
  {headers : List (String × String)} {body : Option Bytes} {limits : Limits} {response : Response}

/-- A client asks to close, so the server keeps nothing open for it. -/
theorem closes (request : Request)
    (hSame : request.headers = (request_headers target headers body).map kept) (hOld : request.http10 = false) :
    request.keep_alive = false := by
  have hFirst : request.header "connection" = some "close" := by
    unfold Request.header
    rw [hSame]
    unfold request_headers
    rw [List.append_assoc, List.map_append, values_append]
    have hStays : values (List.map kept [("Host", target.authority), ("User-Agent", "postino/" ++ VERSION),
        ("Connection", "close")]) "connection" = ["close"] := by
      rw [List.map_cons, ← List.singleton_append, values_append, values_kept, if_neg (by decide), List.nil_append]
      decide
    rw [hStays]
    rfl
  unfold Request.keep_alive
  rw [hFirst, hOld]
  decide

/-- **What a service answers comes back to the client**: when it is served in one go, and
when a loop serves it, however the request arrives there and its reply is taken, whether or not
the client has closed its end, unless the loop gives up on the client or drops it. -/
theorem exchange (hMethod : is_token method = true) (hBody : method ≠ "HEAD") (hPath : target.base ++ path = asked.written)
    (hSome : asked.segments ≠ []) (hEach : ∀ s ∈ asked.segments, s ≠ "")
    (h : Sendable target headers body limits.max_body)
    (hFits : (write_request target method path headers body).length ≤ MAX_HEAD + (body.getD []).length)
    (hTaken : body.getD [] ≠ [] → service.refuse 0 (read_as target method asked headers body) = none)
    (hAnswer : service.answer 0 { read_as target method asked headers body with body := body.getD [] } = .reply response)
    (hResponse : Answerable response) :
    send (fun sent => (serve service limits.max_body 0 sent).1.flatten) target method path headers body =
        .ok { status := response.status, body := response.body } ∧
      ∀ (opened : Nat) (events : List Event), (Served.run service limits opened events).conn.received =
          write_request target method path headers body →
        (Served.run service limits opened events).gone = some (.closed .done) →
        read_response (Served.run service limits opened events).conn.sent =
          .ok ({ status := response.status, body := response.body }, []) := by
  have hRead := request_read hMethod hPath hSome hEach h hFits []
  rw [List.append_nil, List.append_nil] at hRead
  have hServed : serve service limits.max_body 0 (write_request target method path headers body) =
      ([encode_response response false false], .closed) := by
    have hRefuse : (if (body.getD []).length > 0 then service.refuse 0 (read_as target method asked headers body) else none) =
        none := by
      split
      · next hLong => exact hTaken (List.ne_nil_of_length_pos hLong)
      · rfl
    have hCloses := closes { read_as target method asked headers body with body := body.getD [] } rfl rfl
    have hMethodIs : ({ read_as target method asked headers body with body := body.getD [] } : Request).method = method := rfl
    rw [serve_ok hRead, hRefuse]
    unfold finish
    dsimp only [Option.elim]
    rw [if_neg (by omega), List.take_length, hAnswer]
    dsimp only
    rw [hCloses, hMethodIs, decide_eq_false hBody, if_neg Bool.false_ne_true]
  have hBack := (response_read hResponse false []).2
  rw [List.append_nil] at hBack
  constructor
  · unfold send
    dsimp only [bind, Except.bind]
    rw [hServed, List.flatten_singleton, hBack]
  · intro opened events hReceived hGone
    obtain ⟨replies, hSent, hPrefix, hAll, hPiled, hClosing, hLate, hDone, -⟩ :=
      Served.run_faithful service limits opened events
    generalize Served.run service limits opened events = s at *
    rw [hReceived, hServed] at hPrefix hAll hClosing hLate
    obtain ⟨hNothing, hWhy⟩ := hDone hGone
    -- a thread would close here, where one that is told it is too slow is in a request
    have hTold : s.conn.late = none := by
      by_contra hNot
      obtain ⟨⟨now, message⟩, hNot⟩ := Option.ne_none_iff_exists'.mp hNot
      cases (hLate now message hNot).1
    have hReplies : replies = [encode_response response false false] := by
      rcases hWhy with hCloses | -
      · exact (Prod.mk.inj (hClosing hCloses hTold)).1.symm
      · by_cases hMore : s.conn.full = true ∨ s.again = true
        · -- it had filled up, so the one reply there is was among what it wrote
          have hSome : replies ≠ [] := by
            rintro rfl
            exact absurd (hPiled hMore) (by decide)
          obtain ⟨reply, replies, rfl⟩ := List.exists_cons_of_ne_nil hSome
          obtain ⟨rfl, hRest⟩ := List.cons_prefix_cons.mp hPrefix
          rw [List.prefix_nil.mp hRest]
        · obtain ⟨hFull, hAgain⟩ := not_or.mp hMore
          exact hAll (Bool.eq_false_iff.mpr hFull) (Bool.eq_false_iff.mpr hAgain)
    have hNotice : s.conn.notice service = [] := by
      unfold Conn.notice
      rw [hTold]
      rfl
    rw [hNothing, hNotice, hReplies, List.append_nil, List.append_nil, List.flatten_singleton] at hSent
    rw [hSent, hBack]

end

/-- A service that echoes, and a client that closes its end behind its request: the loop gets the
request in two pieces, and the client takes the reply in two. -/
theorem exchange_echo :
    let service : Service :=
      { refuse := fun _ _ => none, answer := fun _ request => .reply { status := 200, headers := [], body := request.body }
        failure := fun status _ => { status, headers := [], body := [] } }
    let limits : Limits := { max_body := 100, idle := 20 * SECOND, head := 15 * SECOND, write := 30 * SECOND }
    let target : Target := { host := "localhost", port := 2790, base := "" }
    let sent := write_request target "POST" "/api" [] (some [1, 2])
    let events : List Event := [.receive 1 (some [.bytes (sent.take 40) true]),
      .receive 2 (some [.bytes (sent.drop 40) false, .ended]), .reply 3 ⟨60, false⟩ ⟨0, false⟩, .reply 4 ⟨60, false⟩ ⟨0, false⟩]
    let s := Served.run service limits 0 events
    send (fun sent => (serve service 100 0 sent).1.flatten) target "POST" "/api" [] (some [1, 2]) =
        .ok { status := 200, body := [1, 2] } ∧
      s.conn.ended = true ∧ read_response s.conn.sent = .ok ({ status := 200, body := [1, 2] }, []) := by
  intro service limits target sent events s
  obtain ⟨hReceived, hEnded, hDone⟩ : s.conn.received = sent ∧ s.conn.ended = true ∧ s.gone = some (.closed .done) := by
    decide +kernel +revert
  obtain ⟨hServed, hLooped⟩ := @exchange service target "POST" "/api" { segments := ["api"] } [] (some [1, 2]) limits
    { status := 200, headers := [], body := [1, 2] } (by decide) (by decide) (by decide +kernel) (by decide) (by decide)
    ⟨by decide, List.forall_mem_nil _, List.forall_mem_nil _, by decide, by decide, by decide⟩
    (by decide +kernel) (fun _ => rfl) (by rfl) ⟨by decide, by decide, by decide, by decide⟩
  have hRun : Served.run service limits 0 events = s := rfl
  have hLooped := hLooped 0 events
  rw [hRun] at hLooped
  clear_value s
  exact ⟨hServed, hEnded, hLooped hReceived hDone⟩

end Postino.Http.Client
