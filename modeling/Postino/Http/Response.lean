import Postino.Http.Request

/-!
# Responses

How a response is written: its status line, its headers, then its length and whether the
connection stays open, and its body. No header text holds a line break, so a head is its
lines and nothing else (`push_response_head_eq`).
-/

namespace Postino.Http

open Journal (ascii)

def reason (status : Nat) : String :=
  match status with
  | 200 => "OK"
  | 204 => "No Content"
  | 400 => "Bad Request"
  | 401 => "Unauthorized"
  | 403 => "Forbidden"
  | 404 => "Not Found"
  | 405 => "Method Not Allowed"
  | 408 => "Request Timeout"
  | 409 => "Conflict"
  | 413 => "Content Too Large"
  | 429 => "Too Many Requests"
  | 431 => "Request Header Fields Too Large"
  | 500 => "Internal Server Error"
  | 501 => "Not Implemented"
  | 503 => "Service Unavailable"
  | 505 => "HTTP Version Not Supported"
  | _ => "Unknown"

/-- Header text with any line break taken out. -/
def push_clean (text : String) : Bytes := (bytes text).filter fun b => b ≠ 13 && b ≠ newline

/-- The same as text. -/
def clean (value : String) : String := String.ofList (value.toList.filter fun c => c ≠ '\r' && c ≠ '\n')

def push_number (n : Nat) : Bytes := (Nat.toDigits 10 n).map Char.toUInt8

def push_header (header : String × String) : Bytes :=
  push_clean header.1 ++ ascii ": " ++ push_clean header.2 ++ ascii "\r\n"

def push_head (status : Nat) (headers : List (String × String)) : Bytes :=
  ascii "HTTP/1.1 " ++ push_number status ++ ascii " " ++ ascii (reason status) ++ ascii "\r\n" ++
    headers.flatMap push_header

/-- A response's head: its headers, then its length and whether the connection stays
open. -/
def push_response_head (response : Response) (keep_alive : Bool) : Bytes :=
  push_head response.status response.headers ++ ascii "Content-Length: " ++ push_number response.body.length ++
    if keep_alive then ascii "\r\nConnection: keep-alive\r\n\r\n" else ascii "\r\nConnection: close\r\n\r\n"

def encode_response (response : Response) (keep_alive head_only : Bool) : Bytes :=
  push_response_head response keep_alive ++ if head_only then [] else response.body

theorem encode_response_ne_nil (response : Response) (keep_alive head_only : Bool) :
    encode_response response keep_alive head_only ≠ [] := by
  have hStatus : ascii "HTTP/1.1 " ≠ [] := by decide
  unfold encode_response push_response_head push_head
  simp [hStatus]

/-! ## Texts and their bytes -/

theorem bytes_append (s t : String) : bytes (s ++ t) = bytes s ++ bytes t := by
  unfold bytes
  rw [String.toList_append, List.flatMap_append]

/-- A character that is no ASCII has no ASCII byte. -/
theorem utf8_high {c : Char} (h : 128 ≤ c.toNat) : ∀ b ∈ String.utf8EncodeChar c, 128 ≤ b.toNat := by
  have hHigh : ¬ c.val.toNat ≤ 0x7f := by
    have : c.val.toNat = c.toNat := rfl
    omega
  unfold String.utf8EncodeChar
  dsimp only
  rw [if_neg hHigh]
  intro b hB
  split at hB
  · simp only [List.mem_cons, List.not_mem_nil, or_false] at hB
    rcases hB with rfl | rfl <;> rw [UInt8.toNat_ofNat'] <;> omega
  · split at hB
    · simp only [List.mem_cons, List.not_mem_nil, or_false] at hB
      rcases hB with rfl | rfl | rfl <;> rw [UInt8.toNat_ofNat'] <;> omega
    · simp only [List.mem_cons, List.not_mem_nil, or_false] at hB
      rcases hB with rfl | rfl | rfl | rfl <;> rw [UInt8.toNat_ofNat'] <;> omega

/-- An ASCII byte of a text is a character of it. -/
theorem mem_bytes {s : String} {b : UInt8} (hAscii : b.toNat < 128) : b ∈ bytes s ↔ Char.ofNat b.toNat ∈ s.toList := by
  have hBack : (Char.ofNat b.toNat).toNat = b.toNat := toNat_char hAscii
  unfold bytes
  rw [List.mem_flatMap]
  constructor
  · rintro ⟨c, hC, hB⟩
    by_cases hLow : c.toNat < 128
    · rw [utf8_ascii hLow, List.mem_singleton] at hB
      have hSame : b.toNat = c.toNat := by
        rw [hB, UInt8.toNat_ofNat']
        omega
      rw [hSame, Char.ofNat_toNat]
      exact hC
    · have := utf8_high (Nat.le_of_not_lt hLow) b hB
      omega
  · intro hC
    refine ⟨_, hC, ?_⟩
    rw [utf8_ascii (by omega), hBack, List.mem_singleton, UInt8.ofNat_toNat]

theorem newline_mem {s : String} : newline ∈ bytes s ↔ '\n' ∈ s.toList := mem_bytes (b := newline) (by decide)

/-- Taking bytes of line breaks out of a text takes the characters out. -/
theorem push_clean_eq (text : String) : push_clean text = bytes (clean text) := by
  unfold push_clean clean bytes
  rw [String.toList_ofList]
  induction text.toList with
  | nil => rfl
  | cons c cs ih =>
    rw [List.flatMap_cons, List.filter_append, ih, List.filter_cons]
    by_cases hBreak : c = '\r' ∨ c = '\n'
    · rcases hBreak with rfl | rfl
      · rfl
      · rfl
    · have hKeeps : (decide (c ≠ '\r') && decide (c ≠ '\n')) = true := by
        simp only [Bool.and_eq_true, decide_eq_true_eq]
        exact not_or.mp hBreak
      rw [if_pos hKeeps, List.flatMap_cons]
      refine congrArg (· ++ _) (List.filter_eq_self.mpr fun b hB => ?_)
      -- a byte of a line break is that line break
      have hChar : b.toNat < 128 → c = Char.ofNat b.toNat := by
        intro hAscii
        have hMem : b ∈ bytes (String.ofList [c]) := by
          unfold bytes
          rw [String.toList_ofList]
          exact List.mem_flatMap.mpr ⟨c, List.mem_singleton_self c, hB⟩
        have hC := (mem_bytes hAscii).mp hMem
        rw [String.toList_ofList, List.mem_singleton] at hC
        exact hC.symm
      simp only [Bool.and_eq_true, decide_eq_true_eq]
      constructor
      · rintro rfl
        exact hBreak (.inl (hChar (by decide)))
      · rintro rfl
        exact hBreak (.inr (hChar (by decide)))

theorem ascii_eq {s : String} (h : ∀ c ∈ s.toList, c.toNat < 128) : ascii s = bytes s := by
  have hBytes := bytes_ascii h
  rw [String.ofList_toList] at hBytes
  rw [hBytes]
  refine List.map_congr_left fun c hC => ?_
  rw [← UInt8.toNat_inj, UInt8.toNat_ofNat', Char.toUInt8, UInt32.toNat_toUInt8]
  rfl

theorem push_number_eq (n : Nat) : push_number n = bytes (toString n) := by
  have hDigits : (toString n).toList = Nat.toDigits 10 n := Nat.toList_repr
  rw [← ascii_eq]
  · unfold ascii push_number
    rw [hDigits]
  · intro c hC
    rw [hDigits] at hC
    have hDigit := Nat.isDigit_of_mem_toDigits (by decide) (by decide) hC
    simp only [Char.isDigit, Bool.and_eq_true, decide_eq_true_eq] at hDigit
    have hLe : c.toNat ≤ 57 := hDigit.2
    omega

/-! ## A head in lines -/

/-- A header as a line has it. -/
def header_line (header : String × String) : String := header.1 ++ ": " ++ header.2

/-- Lines, each with its line break. -/
def broken (lines : List String) : String := String.join (lines.map (· ++ "\r\n"))

/-- A head: its lines, and the blank one that ends it. -/
def head_text (lines : List String) : String := broken lines ++ "\r\n"

theorem broken_cons (line : String) (lines : List String) : broken (line :: lines) = line ++ "\r\n" ++ broken lines := by
  unfold broken
  rw [List.map_cons, String.join_cons]

theorem broken_append (xs ys : List String) : broken (xs ++ ys) = broken xs ++ broken ys := by
  unfold broken
  rw [List.map_append, String.join_append]

/-- The status line of a response. -/
def status_line (status : Nat) : String := "HTTP/1.1 " ++ toString status ++ " " ++ reason status

/-- The headers of a response, as they are written. -/
def written_headers (response : Response) (keep_alive : Bool) : List (String × String) :=
  response.headers.map (fun h => (clean h.1, clean h.2)) ++
    [("Content-Length", toString response.body.length), ("Connection", if keep_alive then "keep-alive" else "close")]

theorem reason_bytes (status : Nat) : ascii (reason status) = bytes (reason status) := by
  unfold reason
  split <;> decide

/-- **A head is its lines**: the status line, a line for each header, and the blank one. -/
theorem push_response_head_eq (response : Response) (keep_alive : Bool) :
    push_response_head response keep_alive =
      bytes (head_text (status_line response.status :: (written_headers response keep_alive).map header_line)) := by
  have hVersion : ascii "HTTP/1.1 " = bytes "HTTP/1.1 " := by decide
  have hBlank : ascii " " = bytes " " := by decide
  have hColon : ascii ": " = bytes ": " := by decide
  have hBreak : ascii "\r\n" = bytes "\r\n" := by decide
  have hLength : ascii "Content-Length: " = bytes "Content-Length: " := by decide
  have hKeep : ascii "\r\nConnection: keep-alive\r\n\r\n" = bytes "\r\nConnection: keep-alive\r\n\r\n" := by decide
  have hClose : ascii "\r\nConnection: close\r\n\r\n" = bytes "\r\nConnection: close\r\n\r\n" := by decide
  have hHeaders : response.headers.flatMap push_header =
      bytes (broken (response.headers.map (header_line ∘ fun h => (clean h.1, clean h.2)))) := by
    induction response.headers with
    | nil => rfl
    | cons h headers ih =>
      rw [List.flatMap_cons, ih, List.map_cons, broken_cons, bytes_append, bytes_append]
      unfold push_header header_line
      rw [push_clean_eq, push_clean_eq, hColon, hBreak]
      simp only [Function.comp_apply, bytes_append, List.append_assoc]
  have hLast : bytes (toString response.body.length) ++
        (if keep_alive then ascii "\r\nConnection: keep-alive\r\n\r\n" else ascii "\r\nConnection: close\r\n\r\n") =
      bytes (toString response.body.length ++ "\r\n" ++ ("Connection: " ++ if keep_alive then "keep-alive" else "close") ++
        "\r\n" ++ "\r\n") := by
    cases keep_alive with
    | true => rw [if_pos rfl, if_pos rfl, hKeep, ← bytes_append]; simp only [String.append_assoc]; rfl
    | false => rw [if_neg Bool.false_ne_true, if_neg Bool.false_ne_true, hClose, ← bytes_append]; simp only [String.append_assoc]; rfl
  unfold push_response_head push_head head_text status_line written_headers
  rw [hHeaders, hVersion, hBlank, hBreak, hLength, reason_bytes, push_number_eq, push_number_eq, List.append_assoc, hLast,
    broken_cons, List.map_append, List.map_map, broken_append]
  have hLengthName : bytes "Content-Length: " = bytes "Content-Length" ++ bytes ": " := by decide
  have hStays : bytes "Connection: " = bytes "Connection" ++ bytes ": " := by decide
  have hNone : bytes (broken []) = [] := rfl
  simp only [List.map_cons, List.map_nil, broken_cons, header_line, bytes_append, List.append_assoc, hLengthName, hStays,
    hNone, List.nil_append]

end Postino.Http
