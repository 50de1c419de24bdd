import Postino.Commands.Exec
import Postino.Http.Target

/-!
# Requests

What a whole head says: the request line, the headers and the length of the body. Anything
that a proxy in front might read differently is refused rather than read one way.

* `parse` — the request a head describes, and the length its body has;
* `parse_framed` — what is accepted has one way to be read.
-/

namespace Postino.Http

/-- A response: a status, headers and a body. -/
structure Response where
  status : Nat
  headers : List (String × String)
  body : Bytes
  deriving DecidableEq

structure Request where
  method : String
  path : String
  /-- The names in lower case. -/
  headers : List (String × String)
  query : List (String × String)
  body : Bytes
  http10 : Bool
  segments : List String
  deriving DecidableEq

inductive ReadError where
  | Closed
  | Status (code : Nat) (message : String)
  /-- Refused from its head; the body was read past, not kept. -/
  | Refused (response : Response)
  deriving DecidableEq

def MAX_HEAD : Nat := 16 * 1024
def MAX_HEADERS : Nat := 64

def newline : UInt8 := 10

/-- Where the first newline is. -/
def position (b : Bytes) : Option Nat := b.findIdx? (· = newline)

def trim_eol (line : Bytes) : Bytes :=
  let line := if line.getLast? = some newline then line.dropLast else line
  if line.getLast? = some 13 then line.dropLast else line

/-! ## The headers -/

/-- The values of every header called `name`, a name in lower case. -/
def values (headers : List (String × String)) (name : String) : List String :=
  (headers.filter fun h => h.1 = name).map Prod.snd

namespace Request

def header (request : Request) (name : String) : Option String := (values request.headers name).head?

/-- Whether the text has this word, whatever the case of either. -/
def mentions (connection option : String) : Bool :=
  (connection.toList.map Char.toLower).tails.any fun tail => option.toList.isPrefixOf tail

def keep_alive (request : Request) : Bool :=
  let connection := (request.header "connection").getD ""
  if request.http10 then mentions connection "keep-alive" else !mentions connection "close"

end Request

def blank (c : Char) : Bool := c = ' ' || c = '\t'

/-- `str::trim_matches` of blanks and tabs. -/
def trim_blanks (s : String) : String :=
  String.ofList ((s.toList.dropWhile blank).reverse.dropWhile blank).reverse

def parse_header (line : String) : Except ReadError (String × String) :=
  match split_once ':' line with
  | some (name, value) =>
    if is_token name && !has_control value then .ok (to_ascii_lowercase name, trim_blanks value)
    else .error (.Status 400 "invalid header")
  | none => .error (.Status 400 "invalid header")

/-- The headers, up to the first blank line, after those read so far. -/
def read_headers : List String → List (String × String) → Except ReadError (List (String × String))
  | [], headers => .ok headers
  | line :: rest, headers =>
    if line = "" then .ok headers
    else if headers.length = MAX_HEADERS then .error (.Status 431 "too many headers")
    else do
      let header ← parse_header line
      read_headers rest (headers ++ [header])

/-! ## The framing -/

/-- A length in plain digits. -/
def parse_length (value : String) : Option Nat :=
  if value ≠ "" && value.toList.all Char.isDigit then Id.parse_u64 value.toList else none

/-- The one length the headers give, after those read so far gave `length`. -/
def content_length : Option Nat → List String → Except ReadError (Option Nat)
  | length, [] => .ok length
  | length, value :: rest =>
    match parse_length value with
    | none => .error (.Status 400 "invalid Content-Length")
    | some parsed =>
      if length.any (· ≠ parsed) then .error (.Status 400 "conflicting Content-Length")
      else content_length (some parsed) rest

/-- The length of the body, as the headers give it. -/
def body_length (headers : List (String × String)) (max_body : Nat) : Except ReadError Nat :=
  if values headers "transfer-encoding" ≠ [] then
    .error (.Status 501 "chunked request bodies are not supported; send Content-Length")
  else if (values headers "host").length > 1 then .error (.Status 400 "more than one Host header")
  else do
    let length ← content_length none (values headers "content-length")
    if length.getD 0 > max_body then .error (.Status 413 "request body too large")
    else .ok (length.getD 0)

/-! ## A whole head -/

/-- A line without the carriage return it ends with, if it does. -/
def strip_return (line : String) : String :=
  if line.toList.getLast? = some '\r' then String.ofList line.toList.dropLast else line

/-- The lines of a head, without their line breaks. -/
def lines (head : String) : List String := (split '\n' head).map strip_return

/-- `Utf8Error::valid_up_to`: the length of the longest start that is UTF-8. -/
def valid_up_to (b : Bytes) : Nat :=
  ((List.range (b.length + 1)).reverse.find? fun n => (from_utf8 (b.take n)).isSome).getD 0

/-- The request a head describes in its lines, and the length its body has. -/
def parse_lines (lines : List String) (max_body : Nat) : Except ReadError (Request × Nat) := do
  let (method, target, http10) ←
    (parse_request_line (lines.headD "")).mapError fun e => ReadError.Status e.1 e.2
  let headers ← read_headers lines.tail []
  let length ← body_length headers max_body
  let asked := parse_target target
  pure ({ method, path := ((split_once '?' target).getD (target, "")).1, headers, query := asked.query
          body := [], http10, segments := asked.segments }, length)

/-- The request a whole head describes, and the length its body has. -/
def parse (head : Bytes) (max_body : Nat) : Except ReadError (Request × Nat) :=
  let first := (position head).elim head.length (· + 1)
  match from_utf8 head with
  | none => .error (.Status 400 (if valid_up_to head < first then "invalid request line" else "invalid header"))
  | some text => parse_lines (lines text) max_body

/-! ## What is accepted -/

/-- A header as it is kept: its name is a token in lower case, and its value is trimmed and
without control characters but tabs. -/
structure Header.Kept (h : String × String) : Prop where
  token : ∃ name, is_token name = true ∧ h.1 = to_ascii_lowercase name
  value : ∃ value, has_control value = false ∧ h.2 = trim_blanks value

theorem parse_header_kept {line : String} {h : String × String} (hRead : parse_header line = .ok h) :
    Header.Kept h := by
  unfold parse_header at hRead
  split at hRead
  · next name value _ =>
    split at hRead
    · next hBoth =>
      cases hRead
      rw [Bool.and_eq_true, Bool.not_eq_true'] at hBoth
      exact ⟨⟨name, hBoth.1, rfl⟩, ⟨value, hBoth.2, rfl⟩⟩
    · cases hRead
  · cases hRead

theorem read_headers_kept {lines : List String} {headers read : List (String × String)}
    (hRead : read_headers lines headers = .ok read) (hCount : headers.length ≤ MAX_HEADERS)
    (hKept : ∀ h ∈ headers, Header.Kept h) : read.length ≤ MAX_HEADERS ∧ ∀ h ∈ read, Header.Kept h := by
  induction lines generalizing headers with
  | nil =>
    cases hRead
    exact ⟨hCount, hKept⟩
  | cons line rest ih =>
    unfold read_headers at hRead
    split at hRead
    · cases hRead
      exact ⟨hCount, hKept⟩
    · split at hRead
      · cases hRead
      · next hNe =>
        cases hLine : parse_header line with
        | error e =>
          rw [hLine] at hRead
          cases hRead
        | ok h =>
          rw [hLine] at hRead
          refine ih hRead ?_ ?_
          · rw [List.length_append, List.length_singleton]
            omega
          · intro k hK
            rcases List.mem_append.mp hK with hK | hK
            · exact hKept k hK
            · rw [List.mem_singleton.mp hK]
              exact parse_header_kept hLine

/-- All the lengths given are the one length. -/
theorem content_length_one {lengths : List String} {length found : Option Nat}
    (hRead : content_length length lengths = .ok found) :
    (∀ n, length = some n → found = some n) ∧ (∀ value ∈ lengths, parse_length value = found) ∧
      (lengths = [] → found = length) := by
  induction lengths generalizing length with
  | nil =>
    cases hRead
    exact ⟨fun n h => h, List.forall_mem_nil _, fun _ => rfl⟩
  | cons value rest ih =>
    unfold content_length at hRead
    split at hRead
    · cases hRead
    · next parsed hParsed =>
      split at hRead
      · cases hRead
      · next hSame =>
        obtain ⟨hKeeps, hRest, -⟩ := ih hRead
        have hFound : found = some parsed := hKeeps parsed rfl
        refine ⟨?_, ?_, by rintro ⟨⟩⟩
        · rintro n rfl
          simp only [Option.any_some, ne_eq, decide_eq_true_eq, not_not] at hSame
          rw [hFound, hSame]
        · rw [List.forall_mem_cons]
          exact ⟨hParsed.trans hFound.symm, hRest⟩

/-- A request that can be read in one way only: no transfer coding, at most one host, and
the body as long as every length given says, or empty when none is given. -/
structure Framed (request : Request) (length max_body : Nat) : Prop where
  method : is_token request.method = true
  headers : request.headers.length ≤ MAX_HEADERS
  kept : ∀ h ∈ request.headers, Header.Kept h
  coding : values request.headers "transfer-encoding" = []
  host : (values request.headers "host").length ≤ 1
  lengths : ∀ value ∈ values request.headers "content-length", parse_length value = some length
  empty : values request.headers "content-length" = [] → length = 0
  bound : length ≤ max_body
  segments : request.segments = ((split '/' request.path).filter (· ≠ "")).map fun s => percent_decode s false
  body : request.body = []

theorem body_length_framed {headers : List (String × String)} {max_body length : Nat}
    (hRead : body_length headers max_body = .ok length) :
    values headers "transfer-encoding" = [] ∧ (values headers "host").length ≤ 1 ∧
      (∀ value ∈ values headers "content-length", parse_length value = some length) ∧
      (values headers "content-length" = [] → length = 0) ∧ length ≤ max_body := by
  unfold body_length at hRead
  split at hRead
  · cases hRead
  · next hCoding =>
    split at hRead
    · cases hRead
    · next hHost =>
      cases hFound : content_length none (values headers "content-length") with
      | error e =>
        rw [hFound] at hRead
        cases hRead
      | ok found =>
        rw [hFound] at hRead
        obtain ⟨-, hSame, hNone⟩ := content_length_one hFound
        dsimp only [bind, Except.bind] at hRead
        split at hRead
        · cases hRead
        · next hBound =>
          cases hRead
          refine ⟨not_not.mp hCoding, by omega, ?_, ?_, by omega⟩
          · intro value hValue
            have hThis := hSame value hValue
            cases found with
            | some n => exact hThis
            | none =>
              -- a value that is no length is refused
              exfalso
              obtain ⟨first, rest, hList⟩ := List.exists_cons_of_ne_nil (List.ne_nil_of_mem hValue)
              rw [hList, content_length, hSame first (by rw [hList]; exact List.mem_cons_self)] at hFound
              cases hFound
          · intro hEmpty
            rw [hNone hEmpty]
            rfl

theorem parse_request_line_token {line method target : String} {http10 : Bool}
    (hRead : parse_request_line line = .ok (method, target, http10)) :
    is_token method = true ∧ has_control target = false ∧ target.startsWith "/" = true := by
  unfold parse_request_line at hRead
  split at hRead
  · split at hRead
    · cases hRead
    · split at hRead
      · cases hRead
      · next hFine =>
        cases hRead
        simp only [Bool.or_eq_true, Bool.not_eq_true', not_or, Bool.not_eq_false, Bool.not_eq_true] at hFine
        exact ⟨hFine.1.1, hFine.2, hFine.1.2⟩
  · cases hRead

theorem parse_lines_framed {lines : List String} {max_body length : Nat} {request : Request}
    (hRead : parse_lines lines max_body = .ok (request, length)) : Framed request length max_body := by
  unfold parse_lines at hRead
  cases hLine : parse_request_line (lines.headD "") with
  | error e =>
    rw [hLine] at hRead
    cases hRead
  | ok asked =>
    obtain ⟨method, target, http10⟩ := asked
    cases hHeaders : read_headers lines.tail [] with
    | error e =>
      rw [hLine, hHeaders] at hRead
      cases hRead
    | ok headers =>
      cases hLength : body_length headers max_body with
      | error e =>
        rw [hLine, hHeaders] at hRead
        dsimp only [Except.mapError, bind, Except.bind] at hRead
        rw [hLength] at hRead
        cases hRead
      | ok n =>
        rw [hLine, hHeaders] at hRead
        dsimp only [Except.mapError, bind, Except.bind] at hRead
        rw [hLength] at hRead
        cases hRead
        obtain ⟨hCount, hKept⟩ := read_headers_kept hHeaders (Nat.zero_le _) (List.forall_mem_nil _)
        obtain ⟨hCoding, hHost, hSame, hEmpty, hBound⟩ := body_length_framed hLength
        exact ⟨(parse_request_line_token hLine).1, hCount, hKept, hCoding, hHost, hSame, hEmpty, hBound, rfl, rfl⟩

/-- **What is accepted has one way to be read**, whatever the bytes are. -/
theorem parse_framed {head : Bytes} {max_body length : Nat} {request : Request}
    (hRead : parse head max_body = .ok (request, length)) : Framed request length max_body := by
  unfold parse at hRead
  dsimp only at hRead
  split at hRead
  · cases hRead
  · exact parse_lines_framed hRead

/-- A request with a body. -/
theorem parse_framed_post :
    Framed { method := "POST", path := "/api", headers := [("host", "a"), ("content-length", "2")], query := [("x", "1")]
             body := [], http10 := false, segments := ["api"] } 2 5 := by
  have hRead : (parse (Journal.ascii "POST /api?x=1 HTTP/1.1\r\nHost: a\r\nContent-Length: 2\r\n\r\n") 5).toOption =
      some ({ method := "POST", path := "/api", headers := [("host", "a"), ("content-length", "2")], query := [("x", "1")]
              body := [], http10 := false, segments := ["api"] }, 2) := by decide +kernel
  cases hParse : parse (Journal.ascii "POST /api?x=1 HTTP/1.1\r\nHost: a\r\nContent-Length: 2\r\n\r\n") 5 with
  | error e =>
    rw [hParse] at hRead
    cases hRead
  | ok read =>
    rw [hParse] at hRead
    cases hRead
    exact parse_framed hParse

/-! ## What is refused -/

theorem read_headers_status {lines : List String} {headers : List (String × String)} {e : ReadError}
    (h : read_headers lines headers = .error e) : ∃ status message, e = .Status status message := by
  induction lines generalizing headers with
  | nil => cases h
  | cons line rest ih =>
    unfold read_headers at h
    split at h
    · cases h
    · split at h
      · cases h
        exact ⟨_, _, rfl⟩
      · cases hLine : parse_header line with
        | ok header =>
          rw [hLine] at h
          exact ih h
        | error e' =>
          rw [hLine] at h
          cases h
          unfold parse_header at hLine
          split at hLine
          · split at hLine
            · cases hLine
            · cases hLine
              exact ⟨_, _, rfl⟩
          · cases hLine
            exact ⟨_, _, rfl⟩

theorem content_length_status {lengths : List String} {length : Option Nat} {e : ReadError}
    (h : content_length length lengths = .error e) : ∃ status message, e = .Status status message := by
  induction lengths generalizing length with
  | nil => cases h
  | cons value rest ih =>
    unfold content_length at h
    split at h
    · cases h
      exact ⟨_, _, rfl⟩
    · split at h
      · cases h
        exact ⟨_, _, rfl⟩
      · exact ih h

theorem body_length_status {headers : List (String × String)} {max_body : Nat} {e : ReadError}
    (h : body_length headers max_body = .error e) : ∃ status message, e = .Status status message := by
  unfold body_length at h
  split at h
  · cases h
    exact ⟨_, _, rfl⟩
  · split at h
    · cases h
      exact ⟨_, _, rfl⟩
    · cases hFound : content_length none (values headers "content-length") with
      | error e' =>
        rw [hFound] at h
        cases h
        exact content_length_status hFound
      | ok found =>
        rw [hFound] at h
        dsimp only [bind, Except.bind] at h
        split at h
        · cases h
          exact ⟨_, _, rfl⟩
        · cases h

/-- **A head that is refused is refused with a status and a message.** -/
theorem parse_status {head : Bytes} {max_body : Nat} {e : ReadError} (h : parse head max_body = .error e) :
    ∃ status message, e = .Status status message := by
  unfold parse at h
  dsimp only at h
  split at h
  · cases h
    exact ⟨_, _, rfl⟩
  · next text _ =>
    unfold parse_lines at h
    cases hLine : parse_request_line ((lines text).headD "") with
    | error e' =>
      rw [hLine] at h
      cases h
      exact ⟨_, _, rfl⟩
    | ok asked =>
      rw [hLine] at h
      dsimp only [Except.mapError, bind, Except.bind] at h
      cases hHeaders : read_headers (lines text).tail [] with
      | error e' =>
        rw [hHeaders] at h
        cases h
        exact read_headers_status hHeaders
      | ok headers =>
        rw [hHeaders] at h
        dsimp only at h
        cases hLength : body_length headers max_body with
        | error e' =>
          rw [hLength] at h
          cases h
          exact body_length_status hLength
        | ok length =>
          rw [hLength] at h
          cases h

end Postino.Http
