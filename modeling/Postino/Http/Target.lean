import Postino.Http.Percent

/-!
# Request targets

What a request asks for: the segments of its path, and the pairs of its query. The MCP
adapter writes what its tools were given into paths and queries, and the server reads it
back.

* `parse_written` — segments and pairs that were encoded, back;
* `request_line_written` — nothing in them ends the target early;
* `path_written` — every path of the adapter is written so.
-/

namespace Postino.Http

/-! ## Reading a target -/

/-- `str::split`. -/
def split (c : Char) (s : String) : List String := (s.toList.splitOn c).map String.ofList

/-- `str::split_once`. -/
def split_once (c : Char) (s : String) : Option (String × String) :=
  match s.toList.dropWhile (· ≠ c) with
  | [] => none
  | _ :: after => some (String.ofList (s.toList.takeWhile (· ≠ c)), String.ofList after)

/-- What a target asks for. -/
structure Target where
  segments : List String
  query : List (String × String) := []
  deriving DecidableEq

def parse_pair (pair : String) : String × String :=
  let (key, value) := (split_once '=' pair).getD (pair, "")
  (percent_decode key true, percent_decode value true)

def parse_target (target : String) : Target :=
  let (path, query) := (split_once '?' target).getD (target, "")
  { segments := ((split '/' path).filter (· ≠ "")).map fun segment => percent_decode segment false
    query := ((split '&' query).filter (· ≠ "")).map parse_pair }

def is_token (value : String) : Bool :=
  value ≠ "" && (bytes value).all fun b =>
    48 ≤ b && b ≤ 57 || 65 ≤ b && b ≤ 90 || 97 ≤ b && b ≤ 122 || b ∈ Journal.ascii "!#$%&'*+-.^_`|~"

/-- Whether a text holds a control character other than a tab. -/
def has_control (text : String) : Bool := (bytes text).any fun b => b < 0x20 && b ≠ 9 || b = 0x7f

/-- The method and the target of a request line, and whether it is HTTP/1.0; or the status
and the text that refuse it. -/
def parse_request_line (line : String) : Except (Nat × String) (String × String × Bool) :=
  match split ' ' line with
  | [method, target, version] =>
    if version ≠ "HTTP/1.1" ∧ version ≠ "HTTP/1.0" then .error (505, "HTTP version not supported")
    else if !is_token method || !target.startsWith "/" || has_control target then
      .error (400, "invalid request line")
    else .ok (method, target, version = "HTTP/1.0")
  | _ => .error (400, "invalid request line")

/-! ## Writing one -/

/-- The segments, each after a slash. -/
def path_of (segments : List String) : List Char := segments.flatMap fun s => '/' :: (percent_encode s).toList

def pair_of (pair : String × String) : List Char :=
  (percent_encode pair.1).toList ++ '=' :: (percent_encode pair.2).toList

def query_of (query : List (String × String)) : List Char := ['&'].intercalate (query.map pair_of)

/-- A target that asks for this. -/
def Target.written (t : Target) : String :=
  String.ofList (path_of t.segments ++ if t.query = [] then [] else '?' :: query_of t.query)

/-! ## Reading it back -/

/-- What encoding writes is plain, or the start of an escape. -/
def Written (c : Char) : Prop := c = '%' ∨ plain (UInt8.ofNat c.toNat) = true ∧ c.toNat < 128

theorem hex_written {d : Nat} (h : d < 16) : Written (hex d) := by
  have hAll : ∀ d : Fin 16, plain (UInt8.ofNat (hex d).toNat) = true := by decide
  exact .inr ⟨hAll ⟨d, h⟩, hex_ascii h⟩

theorem written_encode (s : String) : ∀ c ∈ (percent_encode s).toList, Written c := by
  unfold percent_encode
  rw [String.toList_ofList]
  intro c hC
  obtain ⟨b, -, hC⟩ := List.mem_flatMap.mp hC
  have hB := b.toNat_lt
  unfold encode_byte at hC
  split at hC
  · next hPlain =>
    rw [List.mem_singleton.mp hC]
    have hAscii := plain_ascii hPlain
    refine .inr ⟨?_, ?_⟩
    · rw [toNat_char hAscii, UInt8.ofNat_toNat]
      exact hPlain
    · rw [toNat_char hAscii]
      exact hAscii
  · simp only [List.mem_cons, List.not_mem_nil, or_false] at hC
    rcases hC with rfl | rfl | rfl
    · exact .inl rfl
    · exact hex_written (by omega)
    · exact hex_written (by omega)

/-- Nothing that stands between parts is written by encoding. -/
theorem not_mem_encode {c : Char} (h : c ∈ ['/', '?', '&', '=', ' ']) (s : String) : c ∉ (percent_encode s).toList := by
  intro hMem
  simp only [List.mem_cons, List.not_mem_nil, or_false] at h
  rcases written_encode s c hMem with rfl | ⟨hPlain, -⟩
  · exact absurd h (by decide)
  · rcases h with rfl | rfl | rfl | rfl | rfl <;> exact absurd hPlain (by decide)

theorem encode_ne_nil {s : String} (h : s ≠ "") : (percent_encode s).toList ≠ [] := by
  intro hNil
  have hBack := percent_decode_encode s true
  rw [show percent_encode s = "" from String.toList_injective hNil] at hBack
  exact h (hBack.symm.trans (by decide))

theorem split_once_some {c : Char} {a : List Char} (h : c ∉ a) (b : List Char) :
    split_once c (String.ofList (a ++ c :: b)) = some (String.ofList a, String.ofList b) := by
  have hAll : ∀ x ∈ a, (decide (x ≠ c)) = true := fun x hX => decide_eq_true fun hEq => h (hEq ▸ hX)
  have hStop : (decide (c ≠ c)) = false := decide_eq_false (fun h => h rfl)
  unfold split_once
  rw [String.toList_ofList, List.dropWhile_append_of_pos hAll, List.takeWhile_append_of_pos hAll, List.dropWhile_cons,
    List.takeWhile_cons, hStop]
  simp only [Bool.false_eq_true, if_false, List.append_nil]

theorem split_once_none {c : Char} {s : String} (h : c ∉ s.toList) : split_once c s = none := by
  have hAll : ∀ x ∈ s.toList, (decide (x ≠ c)) = true := fun x hX => decide_eq_true fun hEq => h (hEq ▸ hX)
  unfold split_once
  rw [List.dropWhile_eq_nil_iff.mpr hAll]

/-- **A path splits into its segments**, and what stands before the first slash. -/
theorem split_path (segments : List String) {before : List Char} (h : '/' ∉ before) :
    (before ++ path_of segments).splitOn '/' = before :: segments.map fun s => (percent_encode s).toList := by
  induction segments generalizing before with
  | nil =>
    show (before ++ []).splitOn '/' = [before]
    rw [List.append_nil, List.splitOn_eq_singleton h]
  | cons s segments ih =>
    show (before ++ '/' :: ((percent_encode s).toList ++ path_of segments)).splitOn '/' = _
    rw [List.splitOn_append_cons_self_of_not_mem h, ih (not_mem_encode (by decide) s)]
    rfl

theorem parse_pair_of (pair : String × String) : parse_pair (String.ofList (pair_of pair)) = pair := by
  unfold parse_pair pair_of
  rw [split_once_some (not_mem_encode (by decide) pair.1)]
  simp only [Option.getD_some, String.ofList_toList, percent_decode_encode]

theorem and_not_mem_pair (pair : String × String) : '&' ∉ pair_of pair := by
  unfold pair_of
  simp only [List.mem_append, List.mem_cons, not_or]
  exact ⟨not_mem_encode (by decide) pair.1, by decide, not_mem_encode (by decide) pair.2⟩

theorem pair_of_ne_empty (pair : String × String) : String.ofList (pair_of pair) ≠ "" := by
  intro h
  have hNil := congrArg String.toList h
  rw [String.toList_ofList] at hNil
  unfold pair_of at hNil
  exact absurd hNil (by simp)

/-- **A query splits into its pairs.** -/
theorem parse_query (query : List (String × String)) :
    ((split '&' (String.ofList (query_of query))).filter (· ≠ "")).map parse_pair = query := by
  rcases eq_or_ne query [] with rfl | hQuery
  · decide
  · unfold split query_of
    rw [String.toList_ofList, List.splitOn_intercalate '&' (fun l hL => ?_) (by simpa using hQuery)]
    · have hKept : ((query.map pair_of).map String.ofList).filter (· ≠ "") = (query.map pair_of).map String.ofList := by
        refine List.filter_eq_self.mpr fun text hText => ?_
        obtain ⟨l, hL, rfl⟩ := List.mem_map.mp hText
        obtain ⟨pair, -, rfl⟩ := List.mem_map.mp hL
        exact decide_eq_true (pair_of_ne_empty pair)
      rw [hKept, List.map_map, List.map_map]
      have hBack : ∀ pair, ((parse_pair ∘ String.ofList) ∘ pair_of) pair = pair := fun pair => by
        rw [Function.comp_apply, Function.comp_apply, parse_pair_of]
      exact List.map_id'' hBack query
    · obtain ⟨pair, -, rfl⟩ := List.mem_map.mp hL
      exact and_not_mem_pair pair

theorem parse_segments {segments : List String} (h : ∀ s ∈ segments, s ≠ "") :
    ((split '/' (String.ofList (path_of segments))).filter (· ≠ "")).map (fun s => percent_decode s false) = segments := by
  have hSplit := split_path segments (List.not_mem_nil (a := '/'))
  rw [List.nil_append] at hSplit
  unfold split
  rw [String.toList_ofList, hSplit, List.map_cons, List.map_map]
  have hFirst : ((String.ofList [] :: segments.map (String.ofList ∘ fun s => (percent_encode s).toList)).filter (· ≠ "")) =
      segments.map percent_encode := by
    rw [List.filter_cons_of_neg (by decide)]
    have hSame : segments.map (String.ofList ∘ fun s => (percent_encode s).toList) = segments.map percent_encode :=
      List.map_congr_left fun s _ => String.ofList_toList
    rw [hSame]
    refine List.filter_eq_self.mpr fun text hText => ?_
    obtain ⟨s, hS, rfl⟩ := List.mem_map.mp hText
    refine decide_eq_true fun hEmpty => encode_ne_nil (h s hS) ?_
    rw [hEmpty]
    rfl
  rw [hFirst, List.map_map]
  have hBack : ∀ s, ((fun s => percent_decode s false) ∘ percent_encode) s = s := fun s => by
    rw [Function.comp_apply, percent_decode_encode]
  exact List.map_id'' hBack segments

theorem not_mem_path (segments : List String) {c : Char} (h : c ∈ ['?', '&', '=', ' ']) : c ∉ path_of segments := by
  intro hMem
  obtain ⟨s, -, hC⟩ := List.mem_flatMap.mp hMem
  rcases List.mem_cons.mp hC with rfl | hC
  · exact absurd h (by decide)
  · exact not_mem_encode (List.mem_cons_of_mem _ h) s hC

/-- **What was asked for is read back**: no value adds a segment or a pair. -/
theorem parse_written {t : Target} (h : ∀ s ∈ t.segments, s ≠ "") : parse_target t.written = t := by
  have hPath := not_mem_path t.segments (c := '?') (by decide)
  have hRead : ∀ query : String, ((split '&' query).filter (· ≠ "")).map parse_pair = t.query →
      ({ segments := ((split '/' (String.ofList (path_of t.segments))).filter (· ≠ "")).map fun s => percent_decode s false
         query := ((split '&' query).filter (· ≠ "")).map parse_pair } : Target) = t := by
    intro query hQuery
    rw [parse_segments h, hQuery]
  unfold parse_target Target.written
  by_cases hNone : t.query = []
  · rw [if_pos hNone, List.append_nil, split_once_none (by rwa [String.toList_ofList])]
    refine hRead "" ?_
    rw [hNone]
    decide
  · rw [if_neg hNone, split_once_some hPath]
    exact hRead _ (parse_query t.query)

/-! ## The request line -/

theorem mem_query_of {query : List (String × String)} {c : Char} (h : c ∈ query_of query) :
    c = '&' ∨ ∃ pair ∈ query, c ∈ pair_of pair := by
  induction query with
  | nil => exact nomatch h
  | cons pair query ih =>
    cases query with
    | nil =>
      have hC : c ∈ pair_of pair := by simpa [query_of, List.intercalate] using h
      exact .inr ⟨pair, List.mem_cons_self, hC⟩
    | cons next query =>
      have hSplit : query_of (pair :: next :: query) = pair_of pair ++ ('&' :: query_of (next :: query)) := by
        simp [query_of, List.intercalate]
      rw [hSplit] at h
      rcases List.mem_append.mp h with hC | hC
      · exact .inr ⟨pair, List.mem_cons_self, hC⟩
      · rcases List.mem_cons.mp hC with rfl | hC
        · exact .inl rfl
        · exact (ih hC).imp_right fun ⟨pair, hPair, hC⟩ => ⟨pair, List.mem_cons_of_mem _ hPair, hC⟩

/-- The characters of a target that was written. -/
theorem mem_written {t : Target} {c : Char} (h : c ∈ t.written.toList) : c ∈ ['/', '?', '&', '='] ∨ Written c := by
  unfold Target.written at h
  rw [String.toList_ofList] at h
  rcases List.mem_append.mp h with hPath | hQuery
  · obtain ⟨s, -, hC⟩ := List.mem_flatMap.mp hPath
    rcases List.mem_cons.mp hC with rfl | hC
    · exact .inl (by decide)
    · exact .inr (written_encode s c hC)
  · split at hQuery
    · exact nomatch hQuery
    · rcases List.mem_cons.mp hQuery with rfl | hQuery
      · exact .inl (by decide)
      · rcases mem_query_of hQuery with rfl | ⟨pair, -, hC⟩
        · exact .inl (by decide)
        · rcases List.mem_append.mp hC with hC | hC
          · exact .inr (written_encode pair.1 c hC)
          · rcases List.mem_cons.mp hC with rfl | hC
            · exact .inl (by decide)
            · exact .inr (written_encode pair.2 c hC)

/-- A byte that stands for itself is printed. -/
theorem plain_printed {b : UInt8} (h : plain b = true) : 45 ≤ b.toNat ∧ b.toNat ≤ 126 := by
  simp only [plain, Bool.or_eq_true, Bool.and_eq_true, decide_eq_true_eq, UInt8.le_iff_toNat_le, ← UInt8.toNat_inj] at h
  simp only [UInt8.reduceToNat] at h
  omega

/-- They are printed, each in one byte. -/
theorem printed_written {t : Target} {c : Char} (h : c ∈ t.written.toList) : 33 ≤ c.toNat ∧ c.toNat ≤ 126 := by
  rcases mem_written h with hMark | rfl | ⟨hPlain, hAscii⟩
  · simp only [List.mem_cons, List.not_mem_nil, or_false] at hMark
    rcases hMark with rfl | rfl | rfl | rfl <;> decide
  · decide
  · have hByte := plain_printed hPlain
    rw [UInt8.toNat_ofNat', Nat.mod_eq_of_lt (by omega)] at hByte
    omega

theorem no_control {t : Target} : has_control t.written = false := by
  have hBytes : bytes t.written = t.written.toList.map fun c => UInt8.ofNat c.toNat := by
    conv => lhs; rw [← String.ofList_toList (s := t.written)]
    refine bytes_ascii fun c hC => ?_
    have := printed_written hC
    omega
  unfold has_control
  rw [hBytes, List.any_map]
  refine List.any_eq_false.mpr fun c hC => ?_
  have hPrinted := printed_written hC
  have hByte : (UInt8.ofNat c.toNat).toNat = c.toNat := by
    rw [UInt8.toNat_ofNat', Nat.mod_eq_of_lt (by omega)]
  simp only [Function.comp_apply, Bool.or_eq_true, Bool.and_eq_true, decide_eq_true_eq, UInt8.lt_iff_toNat_lt,
    ← UInt8.toNat_inj, hByte, UInt8.reduceToNat]
  omega

/-- **Nothing ends the target early**: a request line has it whole. -/
theorem request_line_written {method : String} (hMethod : is_token method = true) {t : Target} (h : t.segments ≠ []) :
    parse_request_line (method ++ " " ++ t.written ++ " HTTP/1.1") = .ok (method, t.written, false) := by
  have hToken : ' ' ∉ method.toList := by
    intro hMem
    have hAll := (Bool.and_eq_true_iff.mp hMethod).2
    have hByte := List.all_eq_true.mp hAll 32 (List.mem_flatMap.mpr ⟨' ', hMem, by decide⟩)
    exact absurd hByte (by decide)
  have hTarget : ' ' ∉ t.written.toList := fun hMem => absurd (printed_written hMem).1 (by decide)
  have hSplit : split ' ' (method ++ " " ++ t.written ++ " HTTP/1.1") = [method, t.written, "HTTP/1.1"] := by
    have hLine : (method ++ " " ++ t.written ++ " HTTP/1.1").toList =
        method.toList ++ ' ' :: (t.written.toList ++ ' ' :: "HTTP/1.1".toList) := by
      simp only [String.toList_append, List.append_assoc]
      rfl
    unfold split
    rw [hLine, List.splitOn_append_cons_self_of_not_mem hToken, List.splitOn_append_cons_self_of_not_mem hTarget,
      List.splitOn_eq_singleton (show ' ' ∉ "HTTP/1.1".toList by decide)]
    simp only [List.map_cons, List.map_nil, String.ofList_toList]
  have hStart : t.written.startsWith "/" = true := by
    obtain ⟨s, segments, hSegments⟩ := List.exists_cons_of_ne_nil h
    have hPath : path_of (s :: segments) = '/' :: ((percent_encode s).toList ++ path_of segments) := rfl
    unfold Target.written
    rw [String.startsWith_string_iff, show "/".toList = ['/'] by decide, String.toList_ofList, hSegments, hPath,
      List.cons_append]
    exact List.cons_prefix_cons.mpr ⟨rfl, List.nil_prefix⟩
  unfold parse_request_line
  rw [hSplit]
  dsimp only
  rw [hMethod, hStart, no_control]
  rfl

/-! ## The requests of the adapter -/

/-- A text that a tool was given: names are valid, and an empty argument is taken for none. -/
structure Given where
  text : String
  given : text ≠ ""

/-- What the adapter asks the server for. -/
inductive Call where
  | presence (me : Given)
  | leave (me session : Given)
  | check (me : Given)
  | agents
  | rooms (me : Given)
  | send
  | read (me : Given)
  | ack (me : Given)
  | history (me : Given) (limit : Nat) (peer thread : Option Given)
  | broadcast
  | broadcasts (me : Given)
  | rename (me : Given)
  | db
  | multi
  | join
  | leave_room (room me : Given)
  | posts_about (room me about : Given) (limit : Nat)
  | read_room (room : Given)
  | post (room : Given)
  | ask (room : Given)
  | question (room id me : Given) (wait : Nat)
  | answer (room id : Given)
  | board (room me : Given)
  | set_board (room key : Given)
  | clear_board (room key me : Given) (version : Option Nat)

/-- A value in a path or a query. -/
def Given.path (v : Given) : String := percent_encode v.text

/-- The path of a request, as the adapter formats it. -/
def Call.path : Call → String
  | presence me => s!"/api/agents/{me.path}/presence"
  | leave me session => s!"/api/agents/{me.path}/presence/{session.path}"
  | check me => s!"/api/check/{me.path}"
  | agents => "/api/agents"
  | rooms me => s!"/api/rooms?agent={me.path}"
  | send => "/api/messages"
  | read me => s!"/api/messages/{me.path}/read"
  | ack me => s!"/api/messages/{me.path}/ack"
  | history me limit peer thread =>
    s!"/api/history?agent={me.path}&limit={limit}" ++ peer.elim "" (fun peer => s!"&peer={peer.path}") ++
      thread.elim "" fun thread => s!"&thread={thread.path}"
  | broadcast => "/api/broadcasts"
  | broadcasts me => s!"/api/broadcasts/{me.path}/read"
  | rename me => s!"/api/agents/{me.path}/rename"
  | db => "/api/db"
  | multi => "/api/db/multi"
  | join => "/api/rooms"
  | leave_room room me => s!"/api/rooms/{room.path}/members/{me.path}?from={me.path}"
  | posts_about room me about limit =>
    s!"/api/rooms/{room.path}/posts?agent={me.path}&about={about.path}&limit={limit}"
  | read_room room => s!"/api/rooms/{room.path}/read"
  | post room => s!"/api/rooms/{room.path}/posts"
  | ask room => s!"/api/rooms/{room.path}/questions"
  | question room id me wait => s!"/api/rooms/{room.path}/questions/{id.path}?agent={me.path}&wait={wait}"
  | answer room id => s!"/api/rooms/{room.path}/questions/{id.path}/answers"
  | board room me => s!"/api/rooms/{room.path}/board?agent={me.path}"
  | set_board room key => s!"/api/rooms/{room.path}/board/{key.path}"
  | clear_board room key me version =>
    s!"/api/rooms/{room.path}/board/{key.path}?from={me.path}" ++ version.elim "" fun version => s!"&version={version}"

/-- What it is to ask for. -/
def Call.means : Call → Target
  | presence me => { segments := ["api", "agents", me.text, "presence"] }
  | leave me session => { segments := ["api", "agents", me.text, "presence", session.text] }
  | check me => { segments := ["api", "check", me.text] }
  | agents => { segments := ["api", "agents"] }
  | rooms me => { segments := ["api", "rooms"], query := [("agent", me.text)] }
  | send => { segments := ["api", "messages"] }
  | read me => { segments := ["api", "messages", me.text, "read"] }
  | ack me => { segments := ["api", "messages", me.text, "ack"] }
  | history me limit peer thread =>
    { segments := ["api", "history"]
      query := [("agent", me.text), ("limit", toString limit)] ++ peer.elim [] (fun peer => [("peer", peer.text)]) ++
        thread.elim [] fun thread => [("thread", thread.text)] }
  | broadcast => { segments := ["api", "broadcasts"] }
  | broadcasts me => { segments := ["api", "broadcasts", me.text, "read"] }
  | rename me => { segments := ["api", "agents", me.text, "rename"] }
  | db => { segments := ["api", "db"] }
  | multi => { segments := ["api", "db", "multi"] }
  | join => { segments := ["api", "rooms"] }
  | leave_room room me =>
    { segments := ["api", "rooms", room.text, "members", me.text], query := [("from", me.text)] }
  | posts_about room me about limit =>
    { segments := ["api", "rooms", room.text, "posts"]
      query := [("agent", me.text), ("about", about.text), ("limit", toString limit)] }
  | read_room room => { segments := ["api", "rooms", room.text, "read"] }
  | post room => { segments := ["api", "rooms", room.text, "posts"] }
  | ask room => { segments := ["api", "rooms", room.text, "questions"] }
  | question room id me wait =>
    { segments := ["api", "rooms", room.text, "questions", id.text]
      query := [("agent", me.text), ("wait", toString wait)] }
  | answer room id => { segments := ["api", "rooms", room.text, "questions", id.text, "answers"] }
  | board room me => { segments := ["api", "rooms", room.text, "board"], query := [("agent", me.text)] }
  | set_board room key => { segments := ["api", "rooms", room.text, "board", key.text] }
  | clear_board room key me version =>
    { segments := ["api", "rooms", room.text, "board", key.text]
      query := ("from", me.text) :: version.elim [] fun version => [("version", toString version)] }

/-- What is plain throughout is written as it is. -/
theorem encode_plain {s : String} (h : (bytes s).all plain = true) : percent_encode s = s := by
  refine bytes_injective ?_
  rw [bytes_encoded]
  generalize bytes s = bs at h ⊢
  induction bs with
  | nil => rfl
  | cons b bs ih =>
    obtain ⟨hB, hRest⟩ := Bool.and_eq_true_iff.mp (List.all_cons.symm.trans h)
    rw [List.flatMap_cons, encoded_plain hB, ih hRest]
    rfl

/-- The words the adapter's paths and queries are made of. -/
def WORDS : List String :=
  ["api", "agents", "presence", "check", "rooms", "messages", "read", "ack", "history", "broadcasts", "rename", "db",
    "multi", "members", "posts", "questions", "answers", "board", "agent", "from", "limit", "peer", "thread", "about",
    "wait", "version"]

theorem encode_words : WORDS.map percent_encode = WORDS := by decide +kernel

theorem encode_number (n : Nat) : (percent_encode n.repr).toList = Nat.toDigits 10 n := by
  have hDigits : n.repr.toList = Nat.toDigits 10 n := String.toList_ofList
  rw [encode_plain, hDigits]
  unfold bytes
  rw [hDigits]
  refine List.all_eq_true.mpr fun b hB => ?_
  obtain ⟨c, hC, hByte⟩ := List.mem_flatMap.mp hB
  obtain ⟨hDecimal, hChar⟩ := Journal.decimal_digit hC
  have hDigit := Nat.isDigit_of_mem_toDigits (by omega) (by omega) hC
  simp only [Char.isDigit, Bool.and_eq_true, decide_eq_true_eq] at hDigit
  have hLe : c.toNat ≤ 57 := hDigit.2
  rw [utf8_ascii (by omega)] at hByte
  rw [List.mem_singleton.mp hByte]
  have hSame : UInt8.ofNat c.toNat = c.toUInt8 := by
    rw [← UInt8.toNat_inj, UInt8.toNat_ofNat', Char.toUInt8, UInt32.toNat_toUInt8]
    rfl
  rw [hSame]
  simp only [Journal.isDecimal, decide_eq_true_eq] at hDecimal
  simp only [plain, hDecimal, decide_true, Bool.true_and, Bool.true_or]

theorem toString_text (s : String) : toString s = s := rfl

/-- **The adapter formats what it asks for.** -/
theorem path_written (call : Call) : call.path = call.means.written := by
  have hWords := encode_words
  simp only [WORDS, List.map_cons, List.map_nil, List.cons.injEq, and_true] at hWords
  refine String.toList_injective ?_
  unfold Target.written
  rw [String.toList_ofList]
  cases call with
  | history me limit peer thread =>
    unfold Call.path Call.means
    cases peer <;> cases thread <;>
      simp [path_of, query_of, pair_of, Given.path, hWords, encode_number, List.intercalate, toString_text]
  | clear_board room key me version =>
    unfold Call.path Call.means
    cases version <;>
      simp [path_of, query_of, pair_of, Given.path, hWords, encode_number, List.intercalate, toString_text]
  | _ =>
    unfold Call.path Call.means
    simp [path_of, query_of, pair_of, Given.path, hWords, encode_number, List.intercalate, toString_text]

/-- Every segment of a request is there. -/
theorem means_segments (call : Call) : call.means.segments ≠ [] ∧ ∀ s ∈ call.means.segments, s ≠ "" := by
  have hGiven : ∀ v : Given, v.text ≠ "" := Given.given
  cases call <;> simp [Call.means, hGiven]

/-- **Percent-encoding round-trips**, however `+` is taken. So the server reads back what the
adapter was given: each value is one segment, or the value of one pair. -/
theorem percent_round_trips :
    (∀ s plus_as_space, percent_decode (percent_encode s) plus_as_space = s) ∧
    ∀ call : Call, parse_target call.path = call.means ∧
      ∀ method, is_token method = true →
        parse_request_line (method ++ " " ++ call.path ++ " HTTP/1.1") = .ok (method, call.path, false) := by
  refine ⟨percent_decode_encode, fun call => ?_⟩
  obtain ⟨hSome, hEach⟩ := means_segments call
  rw [path_written]
  exact ⟨parse_written hEach, fun method hMethod => request_line_written hMethod hSome⟩

/-- A key with everything in it that stands between parts. -/
theorem percent_round_trips_key :
    let call : Call := .set_board ⟨"ops", by decide⟩ ⟨"a/b?c=d&e f", by decide⟩
    parse_target call.path = { segments := ["api", "rooms", "ops", "board", "a/b?c=d&e f"] } ∧
      parse_request_line ("PUT" ++ " " ++ call.path ++ " HTTP/1.1") = .ok ("PUT", call.path, false) :=
  ⟨(percent_round_trips.2 _).1, (percent_round_trips.2 _).2 "PUT" (by decide)⟩

end Postino.Http
