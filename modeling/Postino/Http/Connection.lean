import Postino.Http.Head
import Postino.Http.Response

/-!
# Connections

A loop serves many connections without ever waiting on one: it reads what has arrived,
answers each request that is complete, and writes what the client takes. A `Conn` so gets
its bytes in pieces, stops when its replies pile up, and goes on when they are written.

What it does is told by the plain way to serve the same bytes (`serve`): a thread that
has all of them reads one request after another and answers it. A service is what a
connection finds of it: what it says to the n-th request.

* `turn_sound`, `receive_fine`, `reply_fine`, `sweep_fine` — what one step keeps;
* `run_faithful` — what goes out is what the thread would write, and after a deadline at most
  one reply that says so.

Instants and durations are counted in nanoseconds. The room that buffers keep, and with it
which of the slow readers a loop drops, are left out: it may drop any of them.
-/

namespace Postino.Http

open Lib

/-- Bytes a connection reads at a time. -/
def READ_SIZE : Nat := 64 * 1024
/-- Reply bytes that may wait to be written before it answers no more. -/
def MAX_OUTPUT : Nat := 64 * 1024
def SECOND : Nat := 1000000000
/-- How long it goes without a byte before it gives back its buffers. -/
def QUIET : Nat := 2 * SECOND
def BODY_MIN_BYTES_PER_SEC : Nat := 64 * 1024

/-- How much longer than its head a body may take to arrive. -/
def body_time (length : Nat) : Nat := length / BODY_MIN_BYTES_PER_SEC * SECOND

structure Limits where
  max_body : Nat
  /-- How long a connection may send nothing. -/
  idle : Nat
  /-- How long a request head may take to arrive. -/
  head : Nat
  /-- How long a reply may wait without the client taking any of it. -/
  write : Nat

/-! ## The service -/

/-- What the service says to a whole request. -/
inductive Answer where
  | reply (response : Response)
  /-- It has to wait, on a thread of its own. -/
  | wait
  | panicked

structure Service where
  /-- Judges a request with a body from its head alone. -/
  refuse : Nat → Request → Option Response
  answer : Nat → Request → Answer
  failure : Nat → String → Response

/-! ## A thread serves -/

/-- Where serving comes to. -/
inductive Ending where
  /-- More bytes are needed. -/
  | unfinished
  | closed
  | moved (request : Request) (left : Bytes)

/-- The end of a connection: a last reply. -/
def last_reply (response : Response) : List Bytes × Ending := ([encode_response response false false], .closed)

/-- Reads past the body of a refused request. -/
def refused (length : Nat) (response : Response) (left : Bytes) : List Bytes × Ending :=
  if left.length < length then ([], .unfinished) else last_reply response

/-- Reads the body of a request and answers it, and goes on if the connection stays. -/
def finish (service : Service) (go : Nat → Bytes → List Bytes × Ending) (n : Nat) (request : Request) (length : Nat)
    (left : Bytes) : List Bytes × Ending :=
  if left.length < length then ([], .unfinished)
  else
    let request := { request with body := left.take length }
    match service.answer n request with
    | .reply response =>
      let reply := encode_response response request.keep_alive (request.method = "HEAD")
      if request.keep_alive then (reply :: (go (n + 1) (left.drop length)).1, (go (n + 1) (left.drop length)).2)
      else ([reply], .closed)
    | .wait => ([], .moved request (left.drop length))
    | .panicked => last_reply (service.failure 500 "internal error")

/-- Serves what is received, from the n-th request on: the replies it writes, and where it
comes to. There are no more requests than bytes. -/
def serve_loop (service : Service) (max_body : Nat) : Nat → Nat → Bytes → List Bytes × Ending
  | 0, _, _ => ([], .unfinished)
  | requests + 1, n, received =>
    match read_head [received] max_body with
    | .error (.Status status message) => last_reply (service.failure status message)
    | .error _ => ([], .unfinished)
    | .ok ((request, length), left) =>
      match if length > 0 then service.refuse n request else none with
      | some response => refused length response left.flatten
      | none => finish service (serve_loop service max_body requests) n request length left.flatten

def serve (service : Service) (max_body : Nat) (n : Nat) (received : Bytes) : List Bytes × Ending :=
  serve_loop service max_body (received.length + 1) n received

/-! ## A connection -/

/-- Where a connection is in the request it is reading. -/
inductive Phase where
  | Idle
  | Head (started : Nat) (scan : HeadScan)
  | Body (request : Request) (length by_ : Nat)
  /-- The body of a refused request, read past and dropped. -/
  | Refused (remaining : Nat) (response : Response) (by_ : Nat)

structure Conn where
  input : Bytes := []
  /-- Where the part of `input` still to be answered starts. -/
  start : Nat := 0
  output : Bytes := []
  written : Nat := 0
  phase : Phase := .Idle
  /-- When bytes last went in or out. -/
  since : Nat
  /-- The client closed its end: it sends nothing more. -/
  ended : Bool := false
  /-- Close once the replies are written. -/
  closing : Bool := false
  /-- Stopped answering because its replies filled up. -/
  full : Bool := false
  /-- A request to hand off once the replies before it are written. -/
  moving : Option Request := none
  /-- What the client took, and what it sent. -/
  sent : Bytes := []
  received : Bytes := []
  /-- How many requests were answered. -/
  answered : Nat := 0
  /-- When the client was told that it is too slow, and how. -/
  late : Option (Nat × String) := none

/-- Why a connection stopped answering for now. -/
inductive Stop where
  | Input
  | Output
  | Closing
  | HandOff (request : Request)

/-- Why a connection is closed. -/
inductive Cause where
  /-- There is nothing more to do for it. -/
  | done
  /-- The socket failed. -/
  | failed
  /-- A deadline had passed. -/
  | expired (now : Nat)
  /-- The loop dropped it. -/
  | dropped
  deriving DecidableEq

inductive Step where
  | Keep
  | Again
  | Close (cause : Cause)
  | HandOff (request : Request)

/-- What a read of the socket comes to: bytes, and whether they were all there were; the
client's end; or an error. After these it would block. -/
inductive Arrival where
  | bytes (piece : Bytes) (short : Bool)
  | ended
  | failed

/-- What a write to the socket comes to: how many bytes the client takes, until it would
block or fails. -/
structure Taking where
  taken : Nat
  fails : Bool

namespace Conn

/-- What is still to be answered. -/
def unread (conn : Conn) : Bytes := conn.input.drop conn.start

/-- The replies still to be written. -/
def unwritten (conn : Conn) : Bytes := conn.output.drop conn.written

def pending (conn : Conn) : Bool := conn.written < conn.output.length

def wants_read (conn : Conn) : Bool :=
  let need := match conn.phase with
    | .Body _ length _ => length + READ_SIZE
    | .Refused _ _ _ => READ_SIZE
    | .Idle | .Head _ _ => max READ_SIZE (MAX_HEAD + 1)
  !conn.ended && !conn.closing && conn.moving.isNone && !conn.pending && conn.input.length - conn.start < need

/-- When to give up on the client. -/
def deadline (limits : Limits) (conn : Conn) : Nat :=
  if conn.pending then conn.since + limits.write
  else
    let silent := conn.since + limits.idle
    match conn.phase with
    | .Idle => silent
    | .Head started _ => min silent (started + limits.head)
    | .Body _ _ by_ | .Refused _ _ by_ => min silent by_

/-- Queues a response that ends the connection. -/
def fail (conn : Conn) (response : Response) : Conn :=
  { conn with output := conn.output ++ encode_response response false false, closing := true }

/-- One turn of answering: why it stops, if it does. -/
def turn (service : Service) (limits : Limits) (now : Nat) (conn : Conn) : Option Stop × Conn :=
  if conn.closing then (some .Closing, conn)
  else if conn.moving.isSome then (some .Input, conn)
  else if conn.output.length - conn.written ≥ MAX_OUTPUT then (some .Output, conn)
  else
    let unread := conn.input.length - conn.start
    match conn.phase with
    | .Idle => if unread = 0 then (some .Input, conn) else (none, { conn with phase := .Head now {} })
    | .Head started scan =>
      match scan.end_ conn.unread with
      -- the head goes on
      | (none, scan) =>
        let conn := { conn with phase := .Head started scan }
        (some .Input, if head_too_long unread then conn.fail (service.failure 431 "request head too large") else conn)
      | (some end_, scan) =>
        let conn := { conn with phase := .Head started scan }
        match parse_head (conn.unread.take end_) limits.max_body with
        | .error (.Status status message) => (none, conn.fail (service.failure status message))
        -- an error without a status, which a whole head never gives
        | .error _ => (none, { conn with closing := true })
        | .ok (request, length) =>
          let by_ := started + limits.head + body_time length
          -- refused by its head alone, before its body came
          let refusal := if length > 0 then service.refuse conn.answered request else none
          (none, { conn with
            start := conn.start + end_
            phase := match refusal with
              | some response => .Refused length response by_
              | none => .Body request length by_ })
    | .Body request length _ =>
      if unread < length then (some .Input, conn)
      else
        let request := { request with body := conn.unread.take length }
        let conn := { conn with start := conn.start + length, phase := .Idle }
        match service.answer conn.answered request with
        | .reply response =>
          let reply := encode_response response request.keep_alive (request.method = "HEAD")
          (none, { conn with
            output := conn.output ++ reply, closing := !request.keep_alive, answered := conn.answered + 1 })
        -- a stream or a wait needs a thread of its own
        | .wait => (some (.HandOff request), conn)
        | .panicked => (none, conn.fail (service.failure 500 "internal error"))
    | .Refused remaining response by_ =>
      -- the body of a refused request is read and dropped
      let skipped := min remaining unread
      let conn := { conn with start := conn.start + skipped, phase := .Refused (remaining - skipped) response by_ }
      if remaining - skipped > 0 then (some .Input, conn)
      else (none, { conn with phase := .Idle }.fail response)

/-- Turn after turn, until it stops. -/
def answer_loop (service : Service) (limits : Limits) (now : Nat) : Nat → Conn → Stop × Conn
  | 0, conn => (.Input, conn)
  | turns + 1, conn =>
    match conn.turn service limits now with
    | (some stop, conn) => (stop, conn)
    | (none, conn) => answer_loop service limits now turns conn

/-- Answers the requests that have arrived whole, in order, until one needs more bytes,
replies pile up, or one has to wait. Each takes three turns, and a byte. -/
def answer (service : Service) (limits : Limits) (now : Nat) (conn : Conn) : Stop × Conn :=
  answer_loop service limits now (3 * conn.unread.length + 4) conn

def read_loop (now : Nat) : List Arrival → Conn → Option Conn
  | [], conn => some conn
  | .ended :: _, conn => some { conn with ended := true }
  | .failed :: _, _ => none
  | .bytes piece short :: rest, conn =>
    let conn := { conn with input := conn.input ++ piece, received := conn.received ++ piece, since := now }
    if short || !conn.wants_read then some conn else read_loop now rest conn

/-- Reads what has arrived, unless the socket fails. -/
def read (now : Nat) (arrivals : List Arrival) (conn : Conn) : Option Conn :=
  if conn.start = conn.input.length then read_loop now arrivals { conn with input := [], start := 0 }
  else if conn.start ≥ READ_SIZE then
    read_loop now arrivals { conn with input := conn.input.drop conn.start, start := 0 }
  else read_loop now arrivals conn

/-- Reads what has arrived, when something has, and answers what it can. A request that
has to wait comes back, to be handed off. -/
def receive (service : Service) (limits : Limits) (now : Nat) (arrivals : Option (List Arrival)) (conn : Conn) :
    Option (Option Request × Conn) := do
  let conn ← match arrivals with
    | some arrivals => if conn.wants_read then conn.read now arrivals else some conn
    | none => some conn
  match conn.answer service limits now with
  | (.HandOff request, conn) =>
    -- a thread is not left to write, blocking, what the loop can
    if conn.pending then pure (none, { conn with moving := some request }) else pure (some request, conn)
  | (.Output, conn) => pure (none, { conn with full := true })
  | (_, conn) => pure (none, conn)

/-- Writes what the client takes, unless the socket fails with some of it left. -/
def write (now : Nat) (taking : Taking) (conn : Conn) : Bool × Conn :=
  if conn.pending then
    let n := min taking.taken conn.unwritten.length
    let conn := { conn with
      written := conn.written + n, sent := conn.sent ++ conn.unwritten.take n
      since := if n = 0 then conn.since else now }
    if conn.pending then (!taking.fails, conn) else (true, { conn with output := [], written := 0 })
  else (true, { conn with output := [], written := 0 })

/-- A deadline passed. A client that went silent, or takes none of a reply, is dropped; one
that is still sending a request too slowly is told so first. -/
def expire (service : Service) (limits : Limits) (now : Nat) (taking : Taking) (conn : Conn) : Step × Conn :=
  let message :=
    if conn.pending || conn.since + limits.idle ≤ now then none
    else match conn.phase with
      | .Idle => none
      | .Head _ _ => some "request head took too long"
      | .Body _ _ _ | .Refused _ _ _ => some "request body took too long"
  match message with
  | none => (.Close (.expired now), conn)
  | some message =>
    match { conn.fail (service.failure 408 message) with late := some (now, message) }.write now taking with
    | (true, conn) => if conn.pending then (.Keep, conn) else (.Close .done, conn)
    | (false, conn) => (.Close .failed, conn)

/-- Writes the replies answered so far, and says what comes next. Where that is too late,
`last` is what comes of writing so. -/
def reply (service : Service) (limits : Limits) (now : Nat) (taking last : Taking) (conn : Conn) : Step × Conn :=
  match conn.write now taking with
  | (false, conn) => (.Close .failed, conn)
  | (true, conn) =>
    if conn.pending then (.Keep, conn)
    else match conn.moving with
      | some request => (.HandOff request, conn)
      | none =>
        if conn.closing || conn.ended then (.Close .done, conn)
        else if conn.full then (.Again, { conn with full := false })
        else if conn.deadline limits ≤ now then conn.expire service limits now last
        else (.Keep, conn)

/-- Gives back the room of the buffers a quiet connection holds empty. -/
def rest (now : Nat) (conn : Conn) : Conn :=
  match conn.phase with
  | .Idle =>
    if now < conn.since + QUIET || conn.moving.isSome then conn
    else
      let conn := if conn.start = conn.input.length then { conn with input := [], start := 0 } else conn
      if conn.pending then conn else { conn with output := [], written := 0 }
  | _ => conn

end Conn

/-! ## What a loop does with it -/

/-- How a connection leaves its loop. -/
inductive Gone where
  | closed (cause : Cause)
  | moved (request : Request)
  deriving DecidableEq

/-- A connection, whether it is to answer again, and whether it has left. -/
structure Served where
  conn : Conn
  again : Bool := false
  gone : Option Gone := none

/-- What happens to a connection: it is ready; its replies go out; the loop sweeps; or it is
dropped, as one that reads too slowly, or as one that can no longer be watched. -/
inductive Event where
  | receive (now : Nat) (arrivals : Option (List Arrival))
  | reply (now : Nat) (taking last : Taking)
  | sweep (now : Nat) (taking : Taking)
  | drop

namespace Served

def receive (service : Service) (limits : Limits) (now : Nat) (arrivals : Option (List Arrival)) (s : Served) : Served :=
  match s.conn.receive service limits now arrivals with
  | none => { s with gone := some (.closed .failed) }
  | some (some request, conn) => { conn := { conn with moving := some request }, gone := some (.moved request) }
  | some (none, conn) => { conn }

/-- Does what a connection's step calls for. -/
def settle (again : Bool) : Step × Conn → Served
  | (.Keep, conn) => { conn, again }
  | (.Again, conn) => { conn, again := true }
  | (.Close cause, conn) => { conn, again, gone := some (.closed cause) }
  | (.HandOff request, conn) => { conn, again, gone := some (.moved request) }

/-- Gives up on the connection when its deadline has passed. -/
def sweep (service : Service) (limits : Limits) (now : Nat) (taking : Taking) (s : Served) : Served :=
  if s.conn.deadline limits ≤ now then settle s.again (s.conn.expire service limits now taking)
  else { s with conn := s.conn.rest now }

def step (service : Service) (limits : Limits) (s : Served) (event : Event) : Served :=
  match s.gone with
  | some _ => s
  | none =>
    match event with
    | .receive now arrivals => s.receive service limits now arrivals
    | .reply now taking last => settle s.again (s.conn.reply service limits now taking last)
    | .sweep now taking => s.sweep service limits now taking
    | .drop => { s with gone := some (.closed .dropped) }

/-- A connection that is opened at an instant, and what happens to it. -/
def run (service : Service) (limits : Limits) (opened : Nat) (events : List Event) : Served :=
  events.foldl (step service limits) { conn := { since := opened } }

end Served

/-! ## Serving, a request at a time -/

section

variable {service : Service} {max_body n : Nat} {received left more : Bytes} {request : Request} {length : Nat}

/-- Nothing is read past a head that is refused. -/
theorem serve_loop_error {requests : Nat} {e : ReadError} (h : head_of received max_body = .error e) :
    serve_loop service max_body (requests + 1) n received =
      match e with
      | .Status status message => last_reply (service.failure status message)
      | _ => ([], .unfinished) := by
  have hRead := read_whole received max_body
  rw [h] at hRead
  rw [serve_loop]
  cases hHead : read_head [received] max_body with
  | error e' =>
    rw [hHead] at hRead
    cases hRead
    cases e <;> rfl
  | ok r =>
    rw [hHead] at hRead
    cases hRead

theorem serve_error {status : Nat} {message : String}
    (h : head_of received max_body = .error (.Status status message)) :
    serve service max_body n received = last_reply (service.failure status message) :=
  serve_loop_error h

theorem serve_closed (h : head_of received max_body = .error .Closed) :
    serve service max_body n received = ([], .unfinished) :=
  serve_loop_error h

theorem finish_congr {go go' : Nat → Bytes → List Bytes × Ending}
    (h : ∀ rest : Bytes, rest.length ≤ left.length → go (n + 1) rest = go' (n + 1) rest) :
    finish service go n request length left = finish service go' n request length left := by
  unfold finish
  rw [h _ (by rw [List.length_drop]; omega)]

/-- Reading a head takes some of the bytes. -/
theorem head_of_shorter {parsed : Request × Nat} (h : head_of received max_body = .ok (parsed, left)) :
    left.length < received.length := by
  unfold head_of at h
  cases hEnds : Scanner.ends next (false, []) received with
  | none =>
    rw [hEnds, cut] at h
    split at h <;> cases h
  | some m =>
    obtain ⟨hPos, hLe⟩ := Scanner.ends_le hEnds
    rw [hEnds, cut] at h
    split at h
    · dsimp only [bind, Except.bind] at h
      split at h
      · cases h
      · cases h
        rw [List.length_drop]
        omega
    · cases h

theorem serve_loop_ok {requests : Nat} (h : head_of received max_body = .ok ((request, length), left)) :
    serve_loop service max_body (requests + 1) n received =
      (if length > 0 then service.refuse n request else none).elim
        (finish service (serve_loop service max_body requests) n request length left)
        fun response => refused length response left := by
  have hRead := read_whole received max_body
  rw [h] at hRead
  rw [serve_loop]
  cases hHead : read_head [received] max_body with
  | error e =>
    rw [hHead] at hRead
    cases hRead
  | ok r =>
    obtain ⟨⟨request', length'⟩, reader⟩ := r
    rw [hHead] at hRead
    cases hRead
    dsimp only
    cases (if length > 0 then service.refuse n request else none) <;> rfl

/-- There are no more requests than bytes. -/
theorem serve_loop_eq {requests : Nat} (h : received.length < requests) (n : Nat) :
    serve_loop service max_body requests n received = serve service max_body n received := by
  induction hLength : received.length using Nat.strong_induction_on generalizing received requests n with
  | _ size ih =>
    obtain ⟨requests, rfl⟩ : ∃ fewer, requests = fewer + 1 := ⟨requests - 1, by omega⟩
    cases hHead : head_of received max_body with
    | error e =>
      unfold serve
      rw [serve_loop_error hHead, serve_loop_error hHead]
    | ok r =>
      obtain ⟨⟨request, length⟩, left⟩ := r
      have hShorter := head_of_shorter hHead
      unfold serve
      rw [serve_loop_ok hHead, serve_loop_ok hHead]
      congr 1
      refine finish_congr fun rest hRest => ?_
      rw [ih rest.length (by omega) (by omega) _ rfl, ih rest.length (by omega) (by omega) _ rfl]

theorem serve_ok (h : head_of received max_body = .ok ((request, length), left)) :
    serve service max_body n received =
      (if length > 0 then service.refuse n request else none).elim
        (finish service (serve service max_body) n request length left)
        fun response => refused length response left := by
  have hShorter := head_of_shorter h
  unfold serve
  rw [serve_loop_ok h]
  congr 1
  exact finish_congr fun rest hRest => serve_loop_eq (by omega) _

end

/-! ## What a connection keeps -/

namespace Conn

section

variable (service : Service) (max_body : Nat)

/-- How a thread would go on from where the connection is, once `more` has come. -/
def resume (conn : Conn) (more : Bytes) : List Bytes × Ending :=
  if conn.closing then ([], .closed)
  else match conn.moving with
  | some request => ([], .moved request (conn.unread ++ more))
  | none =>
    match conn.phase with
    | .Idle | .Head _ _ => serve service max_body conn.answered (conn.unread ++ more)
    | .Body request length _ =>
      finish service (serve service max_body) conn.answered request length (conn.unread ++ more)
    | .Refused remaining response _ => refused remaining response (conn.unread ++ more)

/-- A connection that reads a head knows how much of it has come. -/
def Scanned (conn : Conn) : Prop :=
  conn.closing = false → ∀ started scan, conn.phase = .Head started scan → ∃ seen piece s,
    conn.unread = seen ++ piece ∧ scan.Knows seen s ∧ Scanner.after next (false, []) seen = some s

/-- Whatever comes after, a thread would write the replies there are, and what it would write
from where the connection is. -/
structure Faithful (replies : List Bytes) (conn : Conn) : Prop where
  queued : conn.sent ++ conn.unwritten = replies.flatten
  served : ∀ more, serve service max_body 0 (conn.received ++ more) =
    (replies ++ (conn.resume service max_body more).1, (conn.resume service max_body more).2)

/-- **What is kept** while the connection stays. -/
structure Sound (replies : List Bytes) (conn : Conn) : Prop extends Faithful service max_body replies conn where
  start : conn.start ≤ conn.input.length
  written : conn.written ≤ conn.output.length
  scanned : conn.Scanned
  -- the replies fill up with the one that was written last, between two requests
  roomy : conn.closing = false → MAX_OUTPUT ≤ conn.output.length - conn.written → conn.phase = .Idle
  -- it says something before it closes
  heard : conn.closing = true → conn.pending = true

/-- Everything that has come whole is answered. -/
structure Settled (conn : Conn) : Prop where
  nothing : (conn.resume service max_body []).1 = []
  unfinished : conn.closing = false → conn.moving = none → (conn.resume service max_body []).2 = .unfinished

end

variable {service : Service} {limits : Limits} {max_body now : Nat} {replies : List Bytes} {conn conn' : Conn}

theorem sound_start (opened : Nat) : Sound service max_body [] { since := opened } where
  queued := rfl
  served _ := rfl
  start := le_rfl
  written := le_rfl
  scanned := by rintro _ _ scan ⟨⟩
  roomy _ _ := rfl
  heard := by rintro ⟨⟩

theorem unread_length (conn : Conn) : conn.unread.length = conn.input.length - conn.start := List.length_drop

theorem unwritten_nil (h : conn.pending = false) : conn.unwritten = [] := by
  unfold pending at h
  exact List.drop_eq_nil_of_le (by simpa using h)

/-- A step that answers: `new` goes out, and the rest is left to do. -/
theorem Sound.answered (h : Sound service max_body replies conn) (new : List Bytes)
    (hStart : conn'.start ≤ conn'.input.length) (hOutput : conn'.output = conn.output ++ new.flatten)
    (hWritten : conn'.written = conn.written) (hSent : conn'.sent = conn.sent)
    (hReceived : conn'.received = conn.received) (hScanned : conn'.Scanned)
    (hRoomy : conn'.closing = false → MAX_OUTPUT ≤ conn'.output.length - conn'.written → conn'.phase = .Idle)
    (hHeard : conn'.closing = true → new.flatten ≠ [])
    (hResume : ∀ more, conn.resume service max_body more =
      (new ++ (conn'.resume service max_body more).1, (conn'.resume service max_body more).2)) :
    Sound service max_body (replies ++ new) conn' := by
  have hWithin := h.written
  have hLength : conn'.output.length = conn.output.length + new.flatten.length := by rw [hOutput, List.length_append]
  have hUnwritten : conn'.unwritten = conn.unwritten ++ new.flatten := by
    unfold unwritten
    rw [hOutput, hWritten, List.drop_append_of_le_length hWithin]
  refine ⟨⟨?_, fun more => ?_⟩, hStart, by omega, hScanned, hRoomy, fun hClosing => ?_⟩
  · rw [hSent, hUnwritten, ← List.append_assoc, h.queued, List.flatten_append]
  · rw [hReceived, h.served more, hResume more, List.append_assoc]
  · have hNew := List.length_pos_of_ne_nil (hHeard hClosing)
    exact decide_eq_true (by omega)

/-! ### Receiving -/

theorem resume_arrive (hStart : conn.start ≤ conn.input.length) (piece received more : Bytes) (since : Nat) :
    resume service max_body { conn with input := conn.input ++ piece, received, since } more =
      conn.resume service max_body (piece ++ more) := by
  unfold resume unread
  dsimp only
  rw [List.drop_append_of_le_length hStart, List.append_assoc]

/-- Bytes that arrive are what came after. -/
theorem Sound.arrive (h : Sound service max_body replies conn) (piece : Bytes) (since : Nat) :
    Sound service max_body replies
      { conn with input := conn.input ++ piece, received := conn.received ++ piece, since } := by
  have hStart := h.start
  refine ⟨⟨h.queued, fun more => ?_⟩, ?_, h.written, fun hOpen started scan hPhase => ?_, h.roomy, h.heard⟩
  · rw [resume_arrive hStart, List.append_assoc]
    exact h.served (piece ++ more)
  · dsimp only
    rw [List.length_append]
    omega
  · obtain ⟨seen, rest, s, hUnread, hKnows, hAfter⟩ := h.scanned hOpen started scan hPhase
    refine ⟨seen, rest ++ piece, s, ?_, hKnows, hAfter⟩
    unfold unread at *
    dsimp only
    rw [List.drop_append_of_le_length hStart, hUnread, List.append_assoc]

/-- How a thread goes on is told by what is unread. -/
theorem resume_same {input output sent : Bytes} {start written since : Nat} {full : Bool}
    (hUnread : input.drop start = conn.unread) (more : Bytes) :
    resume service max_body { conn with input, start, output, written, sent, since, full } more =
      conn.resume service max_body more := by
  have hSame : unread { conn with input, start, output, written, sent, since, full } = conn.unread := hUnread
  unfold resume
  rw [hSame]

theorem Faithful.same (h : Faithful service max_body replies conn) {input output sent : Bytes}
    {start written since : Nat} {full : Bool} (hUnread : input.drop start = conn.unread)
    (hSent : sent ++ output.drop written = conn.sent ++ conn.unwritten) :
    Faithful service max_body replies { conn with input, start, output, written, sent, since, full } := by
  refine ⟨hSent.trans h.queued, fun more => ?_⟩
  rw [resume_same hUnread]
  exact h.served more

theorem Settled.same (h : Settled service max_body conn) {input output sent : Bytes} {start written since : Nat}
    {full : Bool} (hUnread : input.drop start = conn.unread) :
    Settled service max_body { conn with input, start, output, written, sent, since, full } :=
  ⟨by rw [resume_same hUnread]; exact h.nothing, fun hOpen hStays => by rw [resume_same hUnread]; exact h.unfinished hOpen hStays⟩

/-- Buffers change, but not what is unread, nor what is written with what is to be written. -/
theorem Sound.same (h : Sound service max_body replies conn) {input output sent : Bytes}
    {start written since : Nat} {full : Bool} (hUnread : input.drop start = conn.unread)
    (hSent : sent ++ output.drop written = conn.sent ++ conn.unwritten) (hStart : start ≤ input.length)
    (hWritten : written ≤ output.length) (hLess : output.length - written ≤ conn.output.length - conn.written)
    (hHeard : conn.closing = true → written < output.length) :
    Sound service max_body replies { conn with input, start, output, written, sent, since, full } := by
  refine ⟨h.toFaithful.same hUnread hSent, hStart, hWritten, fun hOpen started scan hPhase => ?_,
    fun hOpen hFull => h.roomy hOpen (hFull.trans hLess), fun hClosing => decide_eq_true (hHeard hClosing)⟩
  show ∃ seen piece s, input.drop start = seen ++ piece ∧ _
  rw [hUnread]
  exact h.scanned hOpen started scan hPhase

theorem Sound.compact (h : Sound service max_body replies conn) {input : Bytes} (hInput : input = conn.unread) :
    Sound service max_body replies { conn with input, start := 0 } :=
  h.same hInput rfl (Nat.zero_le _) h.written le_rfl fun hClosing => of_decide_eq_true (h.heard hClosing)

theorem unread_all (hAll : conn.start = conn.input.length) : conn.unread = [] := by
  unfold unread
  rw [hAll, List.drop_length]

theorem read_loop_sound (arrivals : List Arrival) (h : Sound service max_body replies conn)
    (hRead : read_loop now arrivals conn = some conn') : Sound service max_body replies conn' := by
  induction arrivals generalizing conn with
  | nil =>
    cases hRead
    exact h
  | cons arrival rest ih =>
    cases arrival with
    | ended =>
      cases hRead
      exact ⟨⟨h.queued, h.served⟩, h.start, h.written, h.scanned, h.roomy, h.heard⟩
    | failed => cases hRead
    | bytes piece short =>
      unfold read_loop at hRead
      dsimp only at hRead
      split at hRead
      · cases hRead
        exact h.arrive piece now
      · exact ih (h.arrive piece now) hRead

theorem read_sound (arrivals : List Arrival) (h : Sound service max_body replies conn)
    (hRead : conn.read now arrivals = some conn') : Sound service max_body replies conn' := by
  unfold read at hRead
  split at hRead
  · next hAll => exact read_loop_sound arrivals (h.compact (unread_all hAll).symm) hRead
  · split at hRead
    · exact read_loop_sound arrivals (h.compact rfl) hRead
    · exact read_loop_sound arrivals h hRead

/-! ### Answering -/

theorem resume_closing (h : conn.closing = true) (more : Bytes) : conn.resume service max_body more = ([], .closed) :=
  if_pos h

theorem resume_moving {request : Request} (hClosing : conn.closing = false) (hMoving : conn.moving = some request)
    (more : Bytes) : conn.resume service max_body more = ([], .moved request (conn.unread ++ more)) := by
  simp [resume, hClosing, hMoving]

section

variable (hClosing : conn.closing = false) (hMoving : conn.moving = none)

include hClosing hMoving

/-- Between requests, and within a head. -/
theorem resume_idle (hPhase : conn.phase = .Idle ∨ ∃ started scan, conn.phase = .Head started scan) (more : Bytes) :
    conn.resume service max_body more = serve service max_body conn.answered (conn.unread ++ more) := by
  rcases hPhase with hPhase | ⟨started, scan, hPhase⟩
  · simp [resume, hClosing, hMoving, hPhase]
  · simp [resume, hClosing, hMoving, hPhase]

theorem resume_body {request : Request} {length by_ : Nat} (hPhase : conn.phase = .Body request length by_) (more : Bytes) :
    conn.resume service max_body more =
      finish service (serve service max_body) conn.answered request length (conn.unread ++ more) := by
  simp [resume, hClosing, hMoving, hPhase]

theorem resume_refused {remaining by_ : Nat} {response : Response}
    (hPhase : conn.phase = .Refused remaining response by_) (more : Bytes) : conn.resume service max_body more = refused remaining response (conn.unread ++ more) := by
  simp [resume, hClosing, hMoving, hPhase]

end

/-- How a connection that stopped is left, which had written some replies. -/
inductive Stopped (service : Service) (max_body : Nat) (replies : List Bytes) : Stop → Conn → Prop where
  | input {conn : Conn} {replies' : List Bytes} (more : replies <+: replies')
    (sound : Sound service max_body replies' conn) (settled : Settled service max_body conn) :
    Stopped service max_body replies .Input conn
  | output {conn : Conn} {replies' : List Bytes} (more : replies <+: replies')
    (sound : Sound service max_body replies' conn) (stays : conn.closing = false)
    (filled : MAX_OUTPUT ≤ conn.output.length - conn.written) : Stopped service max_body replies .Output conn
  | closing {conn : Conn} {replies' : List Bytes} (more : replies <+: replies')
    (sound : Sound service max_body replies' conn) (closes : conn.closing = true) :
    Stopped service max_body replies .Closing conn
  | hand_off {conn : Conn} {replies' : List Bytes} {request : Request} (more : replies <+: replies')
    (stays : conn.closing = false) (sound : Sound service max_body replies' { conn with moving := some request }) :
    Stopped service max_body replies (.HandOff request) conn

theorem Stopped.earlier {stop : Stop} {replies' : List Bytes} (h : Stopped service max_body replies' stop conn)
    (hMore : replies <+: replies') : Stopped service max_body replies stop conn := by
  cases h with
  | input more sound settled => exact .input (hMore.trans more) sound settled
  | output more sound stays filled => exact .output (hMore.trans more) sound stays filled
  | closing more sound closes => exact .closing (hMore.trans more) sound closes
  | hand_off more stays sound => exact .hand_off (hMore.trans more) stays sound

/-- What there is to do: three turns for each byte, at most. -/
def work (conn : Conn) : Nat :=
  if conn.closing then 0
  else 3 * conn.unread.length + match conn.phase with
    | .Idle => 2
    | .Head _ _ | .Refused _ _ _ => 1
    | .Body _ _ _ => 3

/-- What a turn comes to. -/
inductive Turned (service : Service) (max_body : Nat) (replies : List Bytes) (conn : Conn) : Option Stop × Conn → Prop where
  | stops {stop : Stop} {conn' : Conn} (stopped : Stopped service max_body replies stop conn') :
    Turned service max_body replies conn (some stop, conn')
  | goes_on {conn' : Conn} {replies' : List Bytes} (more : replies <+: replies')
    (sound : Sound service max_body replies' conn') (less : conn'.work < conn.work) :
    Turned service max_body replies conn (none, conn')

/-- A step that answers nothing, where there is room for more replies. -/
theorem Sound.moves_on (h : Sound service max_body replies conn)
    (hRoom : ¬conn.output.length - conn.written ≥ MAX_OUTPUT) (hClosing : conn'.closing = false)
    (hStart : conn'.start ≤ conn'.input.length) (hOutput : conn'.output = conn.output)
    (hWritten : conn'.written = conn.written) (hSent : conn'.sent = conn.sent)
    (hReceived : conn'.received = conn.received) (hScanned : conn'.Scanned)
    (hResume : ∀ more, conn.resume service max_body more = conn'.resume service max_body more) :
    Sound service max_body replies conn' := by
  have hSound := h.answered [] hStart (hOutput.trans (List.append_nil _).symm) hWritten hSent hReceived hScanned
    (fun _ hFull => absurd hFull (by rwa [hOutput, hWritten])) (fun hCloses => absurd hCloses (by simp [hClosing])) hResume
  rwa [List.append_nil] at hSound

/-- A connection that fails writes one last reply. -/
theorem Sound.fail (h : Sound service max_body replies conn) {response : Response}
    (hStart : conn'.start ≤ conn'.input.length) (hOutput : conn'.output = conn.output)
    (hWritten : conn'.written = conn.written) (hSent : conn'.sent = conn.sent)
    (hReceived : conn'.received = conn.received)
    (hResume : ∀ more, conn.resume service max_body more = last_reply response) :
    Sound service max_body (replies ++ [encode_response response false false]) (conn'.fail response) := by
  refine h.answered [encode_response response false false] hStart ?_ hWritten hSent hReceived ?_ ?_ (fun _ => ?_) ?_
  · rw [List.flatten_singleton, ← hOutput]
    rfl
  · rintro ⟨⟩
  · rintro ⟨⟩
  · rw [List.flatten_singleton]
    exact encode_response_ne_nil response false false
  · intro more
    rw [hResume, resume_closing rfl]
    rfl

theorem settled_closing (h : conn.closing = true) : Settled service max_body conn :=
  ⟨by rw [resume_closing h], fun hOpen => absurd h (by simp [hOpen])⟩

theorem settled_moving {request : Request} (hClosing : conn.closing = false) (hMoving : conn.moving = some request) :
    Settled service max_body conn :=
  ⟨by rw [resume_moving hClosing hMoving], fun _ hNone => by rw [hMoving] at hNone; cases hNone⟩

theorem settled_unfinished (h : conn.resume service max_body [] = ([], .unfinished)) : Settled service max_body conn :=
  ⟨congrArg Prod.fst h, fun _ _ => congrArg Prod.snd h⟩

theorem turn_idle (h : Sound service max_body replies conn) (hClosing : conn.closing = false)
    (hMoving : conn.moving = none) (hPhase : conn.phase = .Idle)
    (hRoom : ¬conn.output.length - conn.written ≥ MAX_OUTPUT) :
    Turned service max_body replies conn (conn.turn service limits now) := by
  unfold turn
  rw [if_neg (by simp [hClosing]), if_neg (by simp [hMoving]), if_neg hRoom, hPhase]
  dsimp only
  split
  · next hNone =>
    refine .stops (.input List.prefix_rfl h (settled_unfinished ?_))
    have hUnread : conn.unread = [] := List.eq_nil_of_length_eq_zero (by rw [unread_length, hNone])
    rw [resume_idle hClosing hMoving (.inl hPhase), hUnread]
    rfl
  · refine .goes_on List.prefix_rfl ?_ ?_
    · refine h.moves_on hRoom hClosing h.start rfl rfl rfl rfl ?_ fun more => ?_
      · rintro _ started scan ⟨⟩
        exact ⟨[], conn.unread, _, rfl, knows_start, rfl⟩
      · rw [resume_idle hClosing hMoving (.inl hPhase), resume_idle]
        · rfl
        · exact hClosing
        · exact hMoving
        · exact .inr ⟨_, _, rfl⟩
    · simp only [work, hClosing, hPhase]
      show 3 * conn.unread.length + 1 < 3 * conn.unread.length + 2
      omega

theorem turn_body (h : Sound service max_body replies conn) (hClosing : conn.closing = false)
    (hMoving : conn.moving = none) {request : Request} {length by_ : Nat} (hPhase : conn.phase = .Body request length by_)
    (hRoom : ¬conn.output.length - conn.written ≥ MAX_OUTPUT) :
    Turned service max_body replies conn (conn.turn service limits now) := by
  have hStart := h.start
  unfold turn
  rw [if_neg (by simp [hClosing]), if_neg (by simp [hMoving]), if_neg hRoom, hPhase]
  dsimp only
  split
  · next hShort =>
    refine .stops (.input List.prefix_rfl h (settled_unfinished ?_))
    rw [resume_body hClosing hMoving hPhase, List.append_nil, finish, if_pos (by rw [unread_length]; exact hShort)]
  · next hWhole =>
    have hLength : ¬conn.unread.length < length := by rw [unread_length]; exact hWhole
    have hUnread : ∀ (output : Bytes) (phase : Phase) (closing : Bool) (moving : Option Request) (answered : Nat),
        unread { conn with start := conn.start + length, output, phase, closing, moving, answered } =
          conn.unread.drop length := by
      intro output phase closing moving answered
      unfold unread
      rw [List.drop_drop]
    have hStart' : conn.start + length ≤ conn.input.length := by
      rw [unread_length] at hLength
      omega
    have hDropped : (conn.unread.drop length).length = conn.unread.length - length := List.length_drop
    have hNone : ∀ (phase : Phase) (hIdle : phase = .Idle) (started : Nat) (scan : HeadScan),
        phase ≠ .Head started scan := by
      rintro _ rfl started scan ⟨⟩
    -- what a thread does with the body, whatever comes after it
    have hResume : ∀ more, conn.resume service max_body more =
        finish service (serve service max_body) conn.answered request length (conn.unread ++ more) :=
      resume_body hClosing hMoving hPhase
    have hTake : ∀ more, (conn.unread ++ more).take length = conn.unread.take length := fun more =>
      List.take_append_of_le_length (by omega)
    have hDrop : ∀ more, (conn.unread ++ more).drop length = conn.unread.drop length ++ more := fun more =>
      List.drop_append_of_le_length (by omega)
    have hEnough : ∀ more : Bytes, ¬(conn.unread ++ more).length < length := fun more => by
      rw [List.length_append]
      omega
    cases hAnswer : service.answer conn.answered { request with body := conn.unread.take length } with
    -- the answer goes behind the others, and the next request begins
    | reply response =>
      dsimp only
      cases hKeep : Request.keep_alive { request with body := conn.unread.take length } with
      | true =>
        refine .goes_on (List.prefix_append _ _) (h.answered
          [encode_response response true (decide (request.method = "HEAD"))] hStart' ?_ rfl rfl rfl
          (fun _ started scan hScan => absurd hScan (hNone _ rfl started scan)) (fun _ _ => rfl) ?_ fun more => ?_) ?_
        · rw [List.flatten_singleton]
        · rintro ⟨⟩
        · rw [hResume, resume_idle, finish, if_neg (hEnough more)]
          · simp only [hTake, hDrop, hAnswer, hKeep, if_true]
            rw [hUnread]
            rfl
          · rfl
          · exact hMoving
          · exact .inl rfl
        · simp only [work, hClosing, hPhase, Bool.not_true]
          rw [hUnread, hDropped]
          simp only [Bool.false_eq_true, if_false]
          omega
      | false =>
        refine .goes_on (List.prefix_append _ _) (h.answered
          [encode_response response false (decide (request.method = "HEAD"))] hStart' ?_ rfl rfl rfl
          (fun _ started scan hScan => absurd hScan (hNone _ rfl started scan)) (fun _ _ => rfl) (fun _ => ?_)
          fun more => ?_) ?_
        · rw [List.flatten_singleton]
        · rw [List.flatten_singleton]
          exact encode_response_ne_nil _ _ _
        · rw [hResume, resume_closing rfl, finish, if_neg (hEnough more)]
          simp only [hTake, hAnswer, hKeep, Bool.false_eq_true, if_false, List.append_nil]
        · simp only [work, hClosing, hPhase, Bool.not_false, if_true, Bool.false_eq_true, if_false]
          omega
    | wait =>
      refine .stops (.hand_off List.prefix_rfl hClosing ?_)
      refine h.moves_on hRoom hClosing hStart' rfl rfl rfl rfl
        (fun _ started scan hScan => absurd hScan (hNone _ rfl started scan)) fun more => ?_
      rw [hResume, resume_moving, finish, if_neg (hEnough more)]
      · simp only [hTake, hDrop, hAnswer]
        rw [hUnread]
      · exact hClosing
      · rfl
    | panicked =>
      refine .goes_on (List.prefix_append _ _) (h.fail hStart' rfl rfl rfl rfl fun more => ?_) ?_
      · rw [hResume, finish, if_neg (hEnough more)]
        simp only [hTake, hAnswer]
      · simp only [work, hClosing, hPhase, fail, if_true, Bool.false_eq_true, if_false]
        omega

theorem turn_refused (h : Sound service max_body replies conn) (hClosing : conn.closing = false)
    (hMoving : conn.moving = none) {remaining by_ : Nat} {response : Response}
    (hPhase : conn.phase = .Refused remaining response by_) (hRoom : ¬conn.output.length - conn.written ≥ MAX_OUTPUT) :
    Turned service max_body replies conn (conn.turn service limits now) := by
  have hStart := h.start
  have hLength := conn.unread_length
  have hResume : ∀ more, conn.resume service max_body more = refused remaining response (conn.unread ++ more) :=
    resume_refused hClosing hMoving hPhase
  unfold turn
  rw [if_neg (by simp [hClosing]), if_neg (by simp [hMoving]), if_neg hRoom, hPhase]
  dsimp only
  split
  · next hLeft =>
    -- all that came of the body is passed, and more of it is to come
    have hSkipped : min remaining (conn.input.length - conn.start) = conn.unread.length := by
      rw [hLength]
      omega
    rw [hSkipped] at hLeft ⊢
    have hUnread : unread { conn with
        start := conn.start + conn.unread.length, phase := .Refused (remaining - conn.unread.length) response by_ } = [] := by
      unfold unread
      exact List.drop_eq_nil_of_le (by dsimp only; rw [List.length_drop]; omega)
    have hNext : ∀ more, resume service max_body { conn with
        start := conn.start + conn.unread.length, phase := .Refused (remaining - conn.unread.length) response by_ } more =
          refused (remaining - conn.unread.length) response more := by
      intro more
      have hPassed := @resume_refused service max_body { conn with
        start := conn.start + conn.unread.length, phase := .Refused (remaining - conn.unread.length) response by_ }
        hClosing hMoving _ _ _ rfl more
      rwa [hUnread, List.nil_append] at hPassed
    refine .stops (.input List.prefix_rfl ?_ (settled_unfinished ?_))
    · refine h.moves_on hRoom hClosing ?_ rfl rfl rfl rfl ?_ fun more => ?_
      · show conn.start + conn.unread.length ≤ conn.input.length
        omega
      · rintro _ started scan ⟨⟩
      · rw [hResume, hNext]
        unfold refused
        rw [List.length_append]
        by_cases hShort : conn.unread.length + more.length < remaining
        · rw [if_pos hShort, if_pos (by omega)]
        · rw [if_neg hShort, if_neg (by omega)]
    · rw [hNext, refused]
      exact if_pos hLeft
  · next hPassed =>
    have hSkipped : min remaining (conn.input.length - conn.start) = remaining := by omega
    rw [hSkipped]
    refine .goes_on (List.prefix_append _ _) (h.fail (by dsimp only; omega) rfl rfl rfl rfl fun more => ?_) ?_
    · rw [hResume, refused, if_neg]
      rw [List.length_append]
      omega
    · simp only [work, hClosing, hPhase, fail, if_true, Bool.false_eq_true, if_false]
      omega

theorem turn_head (h : Sound service limits.max_body replies conn) (hClosing : conn.closing = false)
    (hMoving : conn.moving = none) {started : Nat} {scan : HeadScan} (hPhase : conn.phase = .Head started scan)
    (hRoom : ¬conn.output.length - conn.written ≥ MAX_OUTPUT) :
    Turned service limits.max_body replies conn (conn.turn service limits now) := by
  have hStart := h.start
  have hLength := conn.unread_length
  obtain ⟨seen, piece, s, hUnread, hKnows, hAfter⟩ := h.scanned hClosing started scan hPhase
  obtain ⟨hFound, hGoOn⟩ := end_eq hKnows piece
  -- a thread reads the head from its start, not from where the scan stands
  have hResume : ∀ more, conn.resume service limits.max_body more =
      serve service limits.max_body conn.answered (conn.unread ++ more) :=
    resume_idle hClosing hMoving (.inr ⟨_, _, hPhase⟩)
  have hScan : ∀ (scan' : HeadScan) (more : Bytes), resume service limits.max_body { conn with phase := .Head started scan' } more =
      serve service limits.max_body conn.answered (conn.unread ++ more) :=
    fun scan' more => resume_idle (by exact hClosing) (by exact hMoving) (.inr ⟨_, _, rfl⟩) more
  rw [← hUnread] at hFound hGoOn
  unfold turn
  rw [if_neg (by simp [hClosing]), if_neg (by simp [hMoving]), if_neg hRoom, hPhase]
  dsimp only
  cases hEnds : Scanner.ends next s piece with
  -- no end yet: too long by now, or more is waited for
  | none =>
    obtain ⟨s', hStep⟩ := Scanner.ends_eq_none_iff.mp hEnds
    have hAfter' : Scanner.after next (false, []) conn.unread = some s' := by
      rw [hUnread, Scanner.after_append, hAfter, Option.bind_some, hStep]
    have hKnows' := hGoOn s' hStep
    rw [hEnds, Option.map_none] at hFound
    generalize scan.end_ conn.unread = result at hFound hKnows'
    obtain ⟨found, scan'⟩ := result
    cases hFound
    dsimp only at hKnows' ⊢
    have hScanned : Scanned { conn with phase := .Head started scan' } := by
      rintro _ _ _ ⟨⟩
      exact ⟨conn.unread, [], s', (List.append_nil _).symm, hKnows', hAfter'⟩
    refine .stops ?_
    by_cases hLong : MAX_HEAD < conn.unread.length
    · have hTooLong : head_too_long (conn.input.length - conn.start) = true := by
        rw [← hLength]
        exact decide_eq_true hLong
      rw [if_pos hTooLong]
      refine .input (List.prefix_append _ _) (h.fail hStart rfl rfl rfl rfl fun more => ?_) (settled_closing rfl)
      rw [hResume, serve_error (head_long hAfter' hLong more limits.max_body)]
    · have hNotLong : ¬head_too_long (conn.input.length - conn.start) = true := by
        rw [← hLength]
        simpa [head_too_long] using hLong
      rw [if_neg hNotLong]
      refine .input List.prefix_rfl ?_ (settled_unfinished ?_)
      · refine h.moves_on hRoom hClosing hStart rfl rfl rfl rfl hScanned fun more => ?_
        rw [hResume, hScan]
      · rw [hScan, List.append_nil, serve_closed (head_unfinished hAfter' (by omega) limits.max_body)]
  -- the head is whole, and parsed as the thread parses it
  | some m =>
    have hWhole : Scanner.ends next (false, []) conn.unread = some (m + seen.length) := by
      rw [hUnread, Scanner.ends_append hAfter, hEnds]
      rfl
    obtain ⟨hPos, hLe⟩ := Scanner.ends_le hWhole
    rw [hEnds, Option.map_some] at hFound
    generalize scan.end_ conn.unread = result at hFound
    obtain ⟨found, scan'⟩ := result
    cases hFound
    dsimp only
    have hHead : ∀ more, head_of (conn.unread ++ more) limits.max_body =
        (parse_head (conn.unread.take (m + seen.length)) limits.max_body).map fun parsed =>
          (parsed, conn.unread.drop (m + seen.length) ++ more) := fun more => head_found hWhole more limits.max_body
    have hStart' : conn.start + (m + seen.length) ≤ conn.input.length := by omega
    -- the head is passed, so there is less to do
    have hLess : ∀ (phase : Phase) (hTurns : (∃ request length by_, phase = .Body request length by_) ∨
        ∃ remaining response by_, phase = .Refused remaining response by_),
        work { conn with start := conn.start + (m + seen.length), phase } < conn.work := by
      intro phase hTurns
      have hDropped : ∀ closing, (unread { conn with start := conn.start + (m + seen.length), phase, closing }).length =
          conn.unread.length - (m + seen.length) := by
        intro closing
        unfold unread
        rw [← List.drop_drop, List.length_drop]
      rcases hTurns with ⟨request, length, by_, rfl⟩ | ⟨remaining, response, by_, rfl⟩
      · simp only [work, hClosing, hPhase, hDropped, Bool.false_eq_true, if_false]
        omega
      · simp only [work, hClosing, hPhase, hDropped, Bool.false_eq_true, if_false]
        omega
    rw [show unread { conn with phase := .Head started scan' } = conn.unread from rfl]
    cases hParse : parse_head (conn.unread.take (m + seen.length)) limits.max_body with
    | error e =>
      obtain ⟨status, message, rfl⟩ := parse_head_status hWhole hParse
      refine .goes_on (List.prefix_append _ _) (h.fail hStart rfl rfl rfl rfl fun more => ?_) ?_
      · rw [hResume, serve_error]
        rw [hHead, hParse]
        rfl
      · simp only [work, hClosing, hPhase, fail, if_true, Bool.false_eq_true, if_false]
        omega
    | ok parsed =>
      obtain ⟨request, length⟩ := parsed
      dsimp only
      have hServe : ∀ more, conn.resume service limits.max_body more =
          (if length > 0 then service.refuse conn.answered request else none).elim
            (finish service (serve service limits.max_body) conn.answered request length
              (conn.unread.drop (m + seen.length) ++ more))
            fun response => refused length response (conn.unread.drop (m + seen.length) ++ more) := by
        intro more
        rw [hResume]
        refine serve_ok ?_
        rw [hHead, hParse]
        rfl
      have hUnread' : ∀ phase, unread { conn with start := conn.start + (m + seen.length), phase } =
          conn.unread.drop (m + seen.length) := by
        intro phase
        unfold unread
        rw [List.drop_drop]
      cases hRefusal : if length > 0 then service.refuse conn.answered request else none with
      | some response =>
        refine .goes_on List.prefix_rfl ?_ (hLess _ (.inr ⟨_, _, _, rfl⟩))
        refine h.moves_on hRoom hClosing hStart' rfl rfl rfl rfl ?_ fun more => ?_
        · rintro _ _ _ ⟨⟩
        · have hNext := @resume_refused service limits.max_body
            { conn with start := conn.start + (m + seen.length), phase := .Refused length response (started + limits.head + body_time length) }
            hClosing hMoving _ _ _ rfl more
          rw [hServe, hRefusal, hNext, hUnread']
          rfl
      | none =>
        refine .goes_on List.prefix_rfl ?_ (hLess _ (.inl ⟨_, _, _, rfl⟩))
        refine h.moves_on hRoom hClosing hStart' rfl rfl rfl rfl ?_ fun more => ?_
        · rintro _ _ _ ⟨⟩
        · have hNext := @resume_body service limits.max_body
            { conn with start := conn.start + (m + seen.length), phase := .Body request length (started + limits.head + body_time length) }
            hClosing hMoving _ _ _ rfl more
          rw [hServe, hRefusal, hNext, hUnread']
          rfl

/-- **One turn** stops, leaving things in order, or leaves less to do. -/
theorem turn_sound (h : Sound service limits.max_body replies conn) :
    Turned service limits.max_body replies conn (conn.turn service limits now) := by
  cases hClosing : conn.closing with
  | true =>
    unfold turn
    rw [if_pos hClosing]
    exact .stops (.closing List.prefix_rfl h hClosing)
  | false =>
    cases hMoving : conn.moving with
    | some request =>
      unfold turn
      rw [if_neg (by simp [hClosing]), if_pos (by simp [hMoving])]
      exact .stops (.input List.prefix_rfl h (settled_moving hClosing hMoving))
    | none =>
      by_cases hRoom : conn.output.length - conn.written ≥ MAX_OUTPUT
      · unfold turn
        rw [if_neg (by simp [hClosing]), if_neg (by simp [hMoving]), if_pos hRoom]
        exact .stops (.output List.prefix_rfl h hClosing hRoom)
      · cases hPhase : conn.phase with
        | Idle => exact turn_idle h hClosing hMoving hPhase hRoom
        | Head started scan => exact turn_head h hClosing hMoving hPhase hRoom
        | Body request length by_ => exact turn_body h hClosing hMoving hPhase hRoom
        | Refused remaining response by_ => exact turn_refused h hClosing hMoving hPhase hRoom

theorem answer_loop_stopped (turns : Nat) (h : Sound service limits.max_body replies conn) (hTurns : conn.work < turns) :
    Stopped service limits.max_body replies (conn.answer_loop service limits now turns).1
      (conn.answer_loop service limits now turns).2 := by
  induction turns generalizing conn replies with
  | zero => omega
  | succ turns ih =>
    have hTurn := @turn_sound service limits now _ _ h
    unfold answer_loop
    generalize conn.turn service limits now = result at hTurn
    cases hTurn with
    | stops stopped => exact stopped
    | goes_on more sound less => exact (ih sound (by omega)).earlier more

/-- **A connection answers until it has to stop.** -/
theorem answer_stopped (h : Sound service limits.max_body replies conn) :
    Stopped service limits.max_body replies (conn.answer service limits now).1
      (conn.answer service limits now).2 := by
  refine answer_loop_stopped _ h ?_
  unfold work
  split
  · omega
  · cases conn.phase <;> simp

/-- What neither reading nor answering changes. -/
structure Kept (conn conn' : Conn) : Prop where
  moving : conn'.moving = conn.moving
  full : conn'.full = conn.full
  late : conn'.late = conn.late

theorem Kept.trans {conn'' : Conn} (h : Kept conn conn') (h' : Kept conn' conn'') : Kept conn conn'' :=
  ⟨h'.moving.trans h.moving, h'.full.trans h.full, h'.late.trans h.late⟩

theorem turn_kept (conn : Conn) : Kept conn (conn.turn service limits now).2 := by
  unfold turn
  split
  · exact ⟨rfl, rfl, rfl⟩
  · split
    · exact ⟨rfl, rfl, rfl⟩
    · split
      · exact ⟨rfl, rfl, rfl⟩
      · dsimp only
        split
        · split <;> exact ⟨rfl, rfl, rfl⟩
        · split
          · split <;> exact ⟨rfl, rfl, rfl⟩
          · split <;> exact ⟨rfl, rfl, rfl⟩
        · split
          · exact ⟨rfl, rfl, rfl⟩
          · split <;> exact ⟨rfl, rfl, rfl⟩
        · split <;> exact ⟨rfl, rfl, rfl⟩

theorem answer_loop_kept (turns : Nat) (conn : Conn) : Kept conn (conn.answer_loop service limits now turns).2 := by
  induction turns generalizing conn with
  | zero => exact ⟨rfl, rfl, rfl⟩
  | succ turns ih =>
    have hTurn := @turn_kept service limits now conn
    unfold answer_loop
    generalize conn.turn service limits now = result at hTurn
    obtain ⟨stop, conn'⟩ := result
    cases stop with
    | some stop => exact hTurn
    | none => exact hTurn.trans (ih conn')

theorem answer_kept (conn : Conn) : Kept conn (conn.answer service limits now).2 := answer_loop_kept _ conn

theorem answer_closing (hClosing : conn.closing = true) : conn.answer service limits now = (.Closing, conn) := by
  have hTurn : conn.turn service limits now = (some .Closing, conn) := if_pos hClosing
  unfold answer answer_loop
  rw [hTurn]

/-- One that waits to be handed off answers nothing. -/
theorem answer_waiting {request : Request} (hClosing : conn.closing = false) (hMoving : conn.moving = some request) :
    conn.answer service limits now = (.Input, conn) := by
  have hTurn : conn.turn service limits now = (some .Input, conn) := by
    unfold turn
    rw [if_neg (by simp [hClosing]), if_pos (by simp [hMoving])]
  unfold answer answer_loop
  rw [hTurn]

theorem read_loop_kept (arrivals : List Arrival) (hRead : read_loop now arrivals conn = some conn') : Kept conn conn' := by
  induction arrivals generalizing conn with
  | nil =>
    cases hRead
    exact ⟨rfl, rfl, rfl⟩
  | cons arrival rest ih =>
    cases arrival with
    | ended =>
      cases hRead
      exact ⟨rfl, rfl, rfl⟩
    | failed => cases hRead
    | bytes piece short =>
      unfold read_loop at hRead
      dsimp only at hRead
      split at hRead
      · cases hRead
        exact ⟨rfl, rfl, rfl⟩
      · have hKept := ih hRead
        exact ⟨hKept.moving, hKept.full, hKept.late⟩

theorem read_kept (arrivals : List Arrival) (hRead : conn.read now arrivals = some conn') : Kept conn conn' := by
  unfold read at hRead
  split at hRead
  · have hKept := read_loop_kept arrivals hRead
    exact ⟨hKept.moving, hKept.full, hKept.late⟩
  · split at hRead
    · have hKept := read_loop_kept arrivals hRead
      exact ⟨hKept.moving, hKept.full, hKept.late⟩
    · exact read_loop_kept arrivals hRead

/-! ### Replying -/

/-- What is written moves from what is to be written to what was. -/
theorem write_eq (now : Nat) (taking : Taking) (h : conn.written ≤ conn.output.length) :
    ∃ output written sent since, (conn.write now taking).2 = { conn with output, written, sent, since } ∧
      sent ++ output.drop written = conn.sent ++ conn.unwritten ∧ written ≤ output.length ∧
      output.length - written ≤ conn.output.length - conn.written := by
  unfold write
  split
  · have hLength : conn.unwritten.length = conn.output.length - conn.written := List.length_drop
    dsimp only
    -- what the client takes comes off the front of what is unwritten
    have hTaken : conn.sent ++ conn.unwritten.take (min taking.taken conn.unwritten.length) ++
        conn.output.drop (conn.written + min taking.taken conn.unwritten.length) = conn.sent ++ conn.unwritten := by
      rw [← List.drop_drop, List.append_assoc]
      exact congrArg _ (List.take_append_drop _ _)
    generalize (if min taking.taken conn.unwritten.length = 0 then conn.since else now) = since
    split
    · exact ⟨_, _, _, _, rfl, hTaken, by omega, by omega⟩
    · next hAll =>
      have hRest : conn.output.drop (conn.written + min taking.taken conn.unwritten.length) = [] := by
        refine List.drop_eq_nil_of_le ?_
        simpa [pending] using hAll
      rw [hRest, List.append_nil] at hTaken
      exact ⟨_, _, _, _, rfl, by rw [hTaken]; exact List.append_nil _, le_rfl, Nat.zero_le _⟩
  · next hNone =>
    refine ⟨_, _, conn.sent, conn.since, rfl, ?_, le_rfl, Nat.zero_le _⟩
    rw [unwritten_nil (by simpa using hNone)]
    rfl

/-- Where the buffers of a quiet connection are given back, nothing was in them. -/
theorem rest_eq (now : Nat) (hStart : conn.start ≤ conn.input.length) (hWritten : conn.written ≤ conn.output.length) :
    ∃ input start output written, conn.rest now = { conn with input, start, output, written } ∧
      input.drop start = conn.unread ∧ output.drop written = conn.unwritten ∧ start ≤ input.length ∧
      written ≤ output.length ∧ output.length - written = conn.output.length - conn.written := by
  -- where no buffer is given back
  have hSame : ∃ input start output written, conn = { conn with input, start, output, written } ∧
      input.drop start = conn.unread ∧ output.drop written = conn.unwritten ∧ start ≤ input.length ∧
      written ≤ output.length ∧ output.length - written = conn.output.length - conn.written :=
    ⟨_, _, _, _, rfl, rfl, rfl, hStart, hWritten, rfl⟩
  have hEmptied : conn.pending = false → conn.output.length - conn.written = 0 := by
    intro hNone
    have hNot := of_decide_eq_false hNone
    omega
  unfold rest
  split
  · split
    · exact hSame
    · dsimp only
      split
      · next hAll =>
        split
        · exact ⟨_, _, _, _, rfl, (unread_all hAll).symm, rfl, le_rfl, hWritten, rfl⟩
        · next hNone =>
          have hNone : conn.pending = false := Bool.eq_false_iff.mpr hNone
          exact ⟨_, _, _, _, rfl, (unread_all hAll).symm, (unwritten_nil hNone).symm, le_rfl, le_rfl, (hEmptied hNone).symm⟩
      · split
        · exact hSame
        · next hNone =>
          have hNone : conn.pending = false := Bool.eq_false_iff.mpr hNone
          exact ⟨_, _, _, _, rfl, rfl, (unwritten_nil hNone).symm, hStart, le_rfl, (hEmptied hNone).symm⟩
  · exact hSame

/-- A request that was not sent in time, and what is said of it. -/
def Overdue (limits : Limits) (now : Nat) (message : String) (conn : Conn) : Prop :=
  match conn.phase with
  | .Idle => False
  | .Head started _ => message = "request head took too long" ∧ started + limits.head ≤ now
  | .Body _ _ by_ | .Refused _ _ by_ => message = "request body took too long" ∧ by_ ≤ now

/-- One that was told so has nothing else to do than to write it. -/
structure Told (service : Service) (limits : Limits) (replies : List Bytes) (now : Nat) (message : String)
    (conn : Conn) : Prop where
  queued : conn.sent ++ conn.unwritten = replies.flatten ++ encode_response (service.failure 408 message) false false
  plain : serve service limits.max_body 0 conn.received = (replies, .unfinished)
  closing : conn.closing = true
  overdue : conn.Overdue limits now message

/-- What it was told, if it was too slow. -/
def notice (service : Service) (conn : Conn) : Bytes :=
  conn.late.elim [] fun told => encode_response (service.failure 408 told.2) false false

/-- **What is kept of a connection**, also once it has left. -/
structure Held (service : Service) (limits : Limits) (replies : List Bytes) (again : Bool) (conn : Conn) : Prop where
  written : conn.written ≤ conn.output.length
  faithful : conn.late = none → Faithful service limits.max_body replies conn
  told : ∀ now message, conn.late = some (now, message) → Told service limits replies now message conn
  settled : conn.late = none → conn.full = false → again = false → Settled service limits.max_body conn
  -- there are requests to answer only where it stopped between two of them
  resting : conn.late = none → Settled service limits.max_body conn ∨ conn.phase = .Idle
  piled : conn.full = true ∨ again = true → MAX_OUTPUT ≤ replies.flatten.length
  apart : conn.moving ≠ none → conn.closing = false

/-- Only one that closes was told that it is late. -/
theorem Held.late_none {again : Bool} (h : Held service limits replies again conn) (hOpen : conn.closing = false) :
    conn.late = none := by
  by_contra hSome
  obtain ⟨⟨told, message⟩, hSome⟩ := Option.ne_none_iff_exists'.mp hSome
  have hClosing := (h.told told message hSome).closing
  rw [hOpen] at hClosing
  cases hClosing

theorem Held.same {again : Bool} (h : Held service limits replies again conn) {input output sent : Bytes}
    {start written since : Nat} (hUnread : input.drop start = conn.unread)
    (hSent : sent ++ output.drop written = conn.sent ++ conn.unwritten) (hWritten : written ≤ output.length) :
    Held service limits replies again { conn with input, start, output, written, sent, since } := by
  refine ⟨hWritten, fun hLate => (h.faithful hLate).same hUnread hSent, fun told message hLate => ?_,
    fun hLate hFull hAgain => (h.settled hLate hFull hAgain).same hUnread,
    fun hLate => (h.resting hLate).imp_left fun hSettled => hSettled.same hUnread, h.piled, h.apart⟩
  have hTold := h.told told message hLate
  exact ⟨hSent.trans hTold.queued, hTold.plain, hTold.closing, hTold.overdue⟩

end Conn

namespace Served

open Conn

variable {service : Service} {limits : Limits} {now : Nat} {replies : List Bytes}

/-- What a loop keeps of a connection, and how it leaves. -/
inductive Fine (service : Service) (limits : Limits) (replies : List Bytes) : Served → Prop where
  | stays {conn : Conn} {again : Bool} (held : Held service limits replies again conn)
    (sound : conn.late = none → Sound service limits.max_body replies conn)
    (waits : conn.closing = true ∨ conn.moving ≠ none → conn.pending = true) :
    Fine service limits replies { conn, again }
  | done {conn : Conn} {again : Bool} (held : Held service limits replies again conn) (written : conn.pending = false)
    (closes : conn.closing = true ∨ conn.ended = true) :
    Fine service limits replies { conn, again, gone := some (.closed .done) }
  | failed {conn : Conn} {again : Bool} (held : Held service limits replies again conn) :
    Fine service limits replies { conn, again, gone := some (.closed .failed) }
  | dropped {conn : Conn} {again : Bool} (held : Held service limits replies again conn) :
    Fine service limits replies { conn, again, gone := some (.closed .dropped) }
  | expired {conn : Conn} {again : Bool} {now : Nat} (held : Held service limits replies again conn)
    (late : (if conn.pending then conn.since + limits.write else conn.since + limits.idle) ≤ now) :
    Fine service limits replies { conn, again, gone := some (.closed (.expired now)) }
  | moved {conn : Conn} {again : Bool} {request : Request} (held : Held service limits replies again conn)
    (written : conn.pending = false) (moving : conn.moving = some request) :
    Fine service limits replies { conn, again, gone := some (.moved request) }

theorem Fine.held {s : Served} (h : Fine service limits replies s) : Held service limits replies s.again s.conn := by
  cases h <;> assumption

theorem fine_start (opened : Nat) : Fine service limits [] { conn := { since := opened } } := by
  have hSound := @sound_start service limits.max_body opened
  have hSettled : Settled service limits.max_body { since := opened } := settled_unfinished rfl
  refine .stays ⟨le_rfl, fun _ => hSound.toFaithful, ?_, fun _ _ _ => hSettled, fun _ => .inl hSettled, ?_, ?_⟩
    (fun _ => hSound) ?_
  · rintro now message ⟨⟩
  · rintro (⟨⟨⟩⟩ | ⟨⟨⟩⟩)
  · exact fun hMoves => absurd rfl hMoves
  · rintro (⟨⟨⟩⟩ | hMoves)
    exact absurd rfl hMoves

/-! ### Receiving, in the loop -/

/-- What a connection that has answered is left as. -/
def answered : Stop × Conn → Served
  | (.HandOff request, conn) =>
    if conn.pending then { conn := { conn with moving := some request } }
    else { conn := { conn with moving := some request }, gone := some (.moved request) }
  | (.Output, conn) => { conn := { conn with full := true } }
  | (_, conn) => { conn }

theorem flatten_le {replies' : List Bytes} (h : replies <+: replies') : replies.flatten.length ≤ replies'.flatten.length := by
  obtain ⟨more, rfl⟩ := h
  rw [List.flatten_append, List.length_append]
  omega

theorem answered_fine {stop : Stop} {conn : Conn} (h : Stopped service limits.max_body replies stop conn)
    (hLate : conn.late = none) (hMoving : conn.moving = none)
    (hPiled : conn.full = true → MAX_OUTPUT ≤ replies.flatten.length) :
    ∃ replies', Fine service limits replies' (answered (stop, conn)) := by
  have hNever : ∀ now message, conn.late ≠ some (now, message) := by
    intro now message hSome
    rw [hLate] at hSome
    cases hSome
  -- what a connection is left as that has no request to hand off
  have hStays : ∀ {replies'} (more : replies <+: replies') (sound : Sound service limits.max_body replies' conn)
      (settled : Settled service limits.max_body conn), Fine service limits replies' { conn } := by
    intro replies' more sound settled
    refine .stays ⟨sound.written, fun _ => sound.toFaithful, fun _ _ hSome => absurd hSome (hNever _ _),
      fun _ _ _ => settled, fun _ => .inl settled, ?_, fun hNe => absurd hMoving hNe⟩ (fun _ => sound) ?_
    · rintro (hFull | ⟨⟨⟩⟩)
      exact (hPiled hFull).trans (flatten_le more)
    · rintro (hCloses | hNe)
      · exact sound.heard hCloses
      · exact absurd hMoving hNe
  cases h with
  | input more sound settled => exact ⟨_, hStays more sound settled⟩
  | closing more sound closes => exact ⟨_, hStays more sound (settled_closing closes)⟩
  | @output _ replies' more sound stays filled =>
    have hFull : Sound service limits.max_body replies' { conn with full := true } :=
      sound.same rfl rfl sound.start sound.written le_rfl fun hCloses => absurd hCloses (by simp [stays])
    have hLength : MAX_OUTPUT ≤ replies'.flatten.length := by
      have hUnwritten : conn.unwritten.length = conn.output.length - conn.written := List.length_drop
      rw [← sound.queued, List.length_append]
      omega
    refine ⟨_, .stays ⟨sound.written, fun _ => hFull.toFaithful, fun _ _ hSome => absurd hSome (hNever _ _), ?_,
      fun _ => .inr (sound.roomy stays filled), fun _ => hLength, fun hNe => absurd hMoving hNe⟩ (fun _ => hFull) ?_⟩
    · rintro _ ⟨⟩
    · rintro (hCloses | hNe)
      · exact absurd (hCloses.symm.trans stays) (by decide)
      · exact absurd hMoving hNe
  | @hand_off _ replies' request more stays sound =>
    have hSettled := @settled_moving service limits.max_body { conn with moving := some request } request stays rfl
    have hHeld : Held service limits replies' false { conn with moving := some request } := by
      refine ⟨sound.written, fun _ => sound.toFaithful, fun _ _ hSome => absurd hSome (hNever _ _),
        fun _ _ _ => hSettled, fun _ => .inl hSettled, ?_, fun _ => stays⟩
      rintro (hFull | ⟨⟨⟩⟩)
      exact (hPiled hFull).trans (flatten_le more)
    unfold answered
    dsimp only
    split
    · next hPending => exact ⟨_, .stays hHeld (fun _ => sound) fun _ => hPending⟩
    · next hPending => exact ⟨_, .moved hHeld (Bool.eq_false_iff.mpr hPending) rfl⟩

/-- What has come of the bytes that arrived, unless the socket failed. -/
def arrived (now : Nat) (arrivals : Option (List Arrival)) (conn : Conn) : Option Conn :=
  arrivals.elim (some conn) fun arrivals => if conn.wants_read then conn.read now arrivals else some conn

theorem receive_eq (arrivals : Option (List Arrival)) (s : Served) :
    s.receive service limits now arrivals =
      (arrived now arrivals s.conn).elim { s with gone := some (.closed .failed) } fun read =>
        answered (read.answer service limits now) := by
  -- `receive` reads first, and then answers what came
  have hRead : (arrived now arrivals s.conn).bind (fun read => read.receive service limits now none) =
      s.conn.receive service limits now arrivals := by
    unfold Conn.receive arrived
    cases arrivals with
    | none => rfl
    | some arrivals =>
      rw [Option.elim_some]
      dsimp only
      by_cases hWants : s.conn.wants_read = true
      · rw [if_pos hWants, if_pos hWants]
        cases s.conn.read now arrivals <;> rfl
      · rw [if_neg hWants, if_neg hWants]
        rfl
  unfold receive
  rw [← hRead]
  cases arrived now arrivals s.conn with
  | none => rfl
  | some read =>
    rw [Option.bind_some, Option.elim_some]
    unfold Conn.receive
    dsimp only [bind, Option.bind]
    rcases read.answer service limits now with ⟨stop, conn'⟩
    cases stop with
    | HandOff request =>
      unfold answered
      by_cases hPending : conn'.pending = true
      · simp only [hPending, if_true]
        rfl
      · simp only [hPending]
        rfl
    | Input | Output | Closing => rfl

theorem arrived_sound (arrivals : Option (List Arrival)) {conn read : Conn}
    (h : Sound service limits.max_body replies conn) (hRead : arrived now arrivals conn = some read) :
    Sound service limits.max_body replies read ∧ Kept conn read := by
  unfold arrived at hRead
  cases arrivals with
  | none =>
    cases hRead
    exact ⟨h, rfl, rfl, rfl⟩
  | some arrivals =>
    rw [Option.elim_some] at hRead
    split at hRead
    · exact ⟨read_sound arrivals h hRead, read_kept arrivals hRead⟩
    · cases hRead
      exact ⟨h, rfl, rfl, rfl⟩

/-- One that closes, or waits to be handed off, neither reads nor answers. -/
theorem receive_busy (arrivals : Option (List Arrival)) {conn : Conn} {again : Bool}
    (h : Held service limits replies again conn) (hBusy : conn.closing = true ∨ conn.moving ≠ none) :
    receive service limits now arrivals { conn, again } = { conn } := by
  have hWants : conn.wants_read = false := by
    unfold wants_read
    rcases hBusy with hClosing | hMoving
    · simp [hClosing]
    · obtain ⟨request, hMoving⟩ := Option.ne_none_iff_exists'.mp hMoving
      simp [hMoving]
  have hArrived : arrived now arrivals conn = some conn := by
    unfold arrived
    cases arrivals with
    | none => rfl
    | some arrivals => exact if_neg (by simp [hWants])
  rw [receive_eq, hArrived, Option.elim_some]
  rcases hBusy with hClosing | hMoving
  · rw [answer_closing hClosing]
    rfl
  · obtain ⟨request, hSome⟩ := Option.ne_none_iff_exists'.mp hMoving
    rw [answer_waiting (h.apart hMoving) hSome]
    rfl

/-- **Receiving keeps it so.** -/
theorem receive_fine (arrivals : Option (List Arrival)) {conn : Conn} {again : Bool}
    (h : Fine service limits replies { conn, again }) :
    ∃ replies', Fine service limits replies' (receive service limits now arrivals { conn, again }) := by
  have hStays : Held service limits replies again conn ∧
      (conn.late = none → Sound service limits.max_body replies conn) ∧
      (conn.closing = true ∨ conn.moving ≠ none → conn.pending = true) := by
    cases h with
    | stays held sound waits => exact ⟨held, sound, waits⟩
  obtain ⟨hHeld, hSound, hWaits⟩ := hStays
  by_cases hBusy : conn.closing = true ∨ conn.moving ≠ none
  -- nothing is read or answered any more: only the mark to answer again goes
  · rw [receive_busy arrivals hHeld hBusy]
    have hSettled : Settled service limits.max_body conn := by
      rcases hBusy with hClosing | hMoving
      · exact settled_closing hClosing
      · obtain ⟨request, hSome⟩ := Option.ne_none_iff_exists'.mp hMoving
        exact settled_moving (hHeld.apart hMoving) hSome
    refine ⟨_, .stays { hHeld with settled := fun _ _ _ => hSettled, piled := ?_ } hSound hWaits⟩
    rintro (hFull | ⟨⟨⟩⟩)
    exact hHeld.piled (.inl hFull)
  · obtain ⟨hOpen, hHere⟩ := not_or.mp hBusy
    have hHere := not_ne_iff.mp hHere
    have hLate := hHeld.late_none (Bool.eq_false_iff.mpr hOpen)
    rw [receive_eq]
    cases hRead : arrived now arrivals conn with
    | none => exact ⟨_, .failed hHeld⟩
    | some read =>
      obtain ⟨hSound, hKept⟩ := arrived_sound arrivals (hSound hLate) hRead
      have hKept := hKept.trans (@answer_kept service limits now read)
      exact answered_fine (answer_stopped hSound) (hKept.late.trans hLate) (hKept.moving.trans hHere)
        fun hFull => hHeld.piled (.inl (hKept.full.symm.trans hFull))

/-! ### Replying, in the loop -/

theorem write_failed {taking : Taking} {conn : Conn} (h : (conn.write now taking).1 = false) :
    (conn.write now taking).2.pending = true := by
  unfold write at h ⊢
  split at h
  · next hPending =>
    rw [if_pos hPending]
    dsimp only at h ⊢
    generalize (if min taking.taken conn.unwritten.length = 0 then conn.since else now) = since at h ⊢
    split at h
    · next hLeft =>
      rw [if_pos hLeft]
      exact hLeft
    · cases h
  · cases h

/-- One that is told it is too slow has been told everything else. -/
theorem told_held {conn : Conn} {again : Bool} {message : String} (h : Held service limits replies again conn)
    (hLate : conn.late = none) (hOpen : conn.closing = false) (hMoving : conn.moving = none)
    (hOverdue : conn.Overdue limits now message) :
    Held service limits replies again { conn.fail (service.failure 408 message) with late := some (now, message) } := by
  -- between two requests there is nothing to be late with, so it has answered all it can
  have hBetween : conn.phase ≠ .Idle := by
    intro hIdle
    unfold Overdue at hOverdue
    rw [hIdle] at hOverdue
    exact hOverdue
  have hSettled := (h.resting hLate).resolve_right hBetween
  have hFaithful := h.faithful hLate
  have hPlain := hFaithful.served []
  rw [List.append_nil, hSettled.nothing, hSettled.unfinished hOpen hMoving, List.append_nil] at hPlain
  have hQueued : conn.sent ++ (conn.output ++ encode_response (service.failure 408 message) false false).drop conn.written =
      replies.flatten ++ encode_response (service.failure 408 message) false false := by
    rw [List.drop_append_of_le_length h.written, ← List.append_assoc]
    exact congrArg (· ++ _) hFaithful.queued
  have hWritten : conn.written ≤ (conn.output ++ encode_response (service.failure 408 message) false false).length := by
    rw [List.length_append]
    exact h.written.trans (Nat.le_add_right _ _)
  refine ⟨hWritten, ?_, fun told said hSome => ?_, ?_, ?_, h.piled, fun hNe => absurd hMoving hNe⟩
  · rintro ⟨⟩
  · cases hSome
    exact ⟨hQueued, hPlain, rfl, hOverdue⟩
  · rintro ⟨⟩
  · rintro ⟨⟩

/-- **Giving up keeps it so**: it is dropped when it went silent, or took none of a reply, for
too long; else it is told. -/
theorem expire_fine (taking : Taking) {conn : Conn} {again : Bool} (h : Fine service limits replies { conn, again })
    (hDue : conn.deadline limits ≤ now) :
    Fine service limits replies (settle again (conn.expire service limits now taking)) := by
  have hStays : Held service limits replies again conn ∧
      (conn.closing = true ∨ conn.moving ≠ none → conn.pending = true) := by
    cases h with
    | stays held sound waits => exact ⟨held, waits⟩
  obtain ⟨hHeld, hWaits⟩ := hStays
  unfold deadline at hDue
  unfold expire
  by_cases hPending : conn.pending = true
  -- none of a reply was taken
  · rw [if_pos hPending] at hDue
    rw [if_pos (by simp [hPending])]
    exact .expired hHeld (by rwa [if_pos hPending])
  · rw [if_neg hPending] at hDue
    by_cases hSilent : conn.since + limits.idle ≤ now
    -- it went silent
    · rw [if_pos (by simp [hSilent])]
      exact .expired hHeld (by rwa [if_neg hPending])
    · rw [if_neg (by simp [hPending, hSilent])]
      -- with nothing to write it neither closes nor waits to be handed off
      have hBusy : ¬(conn.closing = true ∨ conn.moving ≠ none) := fun hBusy => hPending (hWaits hBusy)
      obtain ⟨hOpen, hMoving⟩ := not_or.mp hBusy
      have hOpen := Bool.eq_false_iff.mpr hOpen
      have hMoving := not_ne_iff.mp hMoving
      have hLate := hHeld.late_none hOpen
      -- it says so, and goes when that is written
      have hTold : ∀ {message}, conn.Overdue limits now message →
          Fine service limits replies (settle again
            (match { conn.fail (service.failure 408 message) with late := some (now, message) }.write now taking with
              | (true, conn) => if conn.pending then (.Keep, conn) else (.Close .done, conn)
              | (false, conn) => (.Close .failed, conn))) := by
        intro message hOverdue
        have hNew := told_held hHeld hLate hOpen hMoving hOverdue
        obtain ⟨output, written, sent, since, hWrite, hSame, hWithin, -⟩ := write_eq now taking hNew.written
        have hNew := @Held.same service limits _ _ _ hNew _ output sent _ written since rfl hSame hWithin
        rw [← hWrite] at hNew
        generalize Conn.write now taking _ = result at hWrite hNew
        obtain ⟨done, conn'⟩ := result
        dsimp only at hWrite hNew
        cases done with
        | false => exact .failed hNew
        | true =>
          dsimp only
          split
          · next hLeft =>
            refine .stays hNew (fun hNone => ?_) fun _ => hLeft
            rw [hWrite] at hNone
            cases hNone
          · next hLeft =>
            refine .done hNew (Bool.eq_false_iff.mpr hLeft) (.inl ?_)
            rw [hWrite]
            rfl
      cases hPhase : conn.phase with
      | Idle =>
        rw [hPhase] at hDue
        exact absurd hDue hSilent
      -- it is not silent, so it is the request that is not sent in time
      | Head | Body | Refused =>
        rw [hPhase] at hDue
        refine hTold ?_
        unfold Overdue
        rw [hPhase]
        exact ⟨rfl, (min_le_iff.mp hDue).resolve_left hSilent⟩

/-- **Replying keeps it so.** -/
theorem reply_fine (taking last : Taking) {conn : Conn} {again : Bool} (h : Fine service limits replies { conn, again }) :
    Fine service limits replies (settle again (conn.reply service limits now taking last)) := by
  have hStays : Held service limits replies again conn ∧ (conn.late = none → Sound service limits.max_body replies conn) := by
    cases h with
    | stays held sound waits => exact ⟨held, sound⟩
  obtain ⟨hHeld, hSound⟩ := hStays
  have hFailed := @write_failed now taking conn
  obtain ⟨output, written, sent, since, hWrite, hSame, hWithin, hLess⟩ := write_eq now taking hHeld.written
  have hHeld' := @Held.same service limits _ _ _ hHeld _ output sent _ written since rfl hSame hWithin
  have hSound' : ∀ full, conn.late = none → (conn.closing = true → written < output.length) →
      Sound service limits.max_body replies { conn with output, written, sent, since, full } := fun full hLate hHeard =>
    (hSound hLate).same rfl hSame (hSound hLate).start hWithin hLess hHeard
  unfold Conn.reply
  generalize conn.write now taking = result at hWrite hFailed
  obtain ⟨done, conn'⟩ := result
  dsimp only at hWrite hFailed
  rw [← hWrite] at hHeld'
  cases done with
  | false => exact .failed hHeld'
  | true =>
    dsimp only
    split
    · next hPending =>
      refine .stays hHeld' (fun hLate => ?_) fun _ => hPending
      subst hWrite
      exact hSound' conn.full hLate fun _ => of_decide_eq_true hPending
    · next hPending =>
      have hWritten := Bool.eq_false_iff.mpr hPending
      -- one that filled up goes on with what it has read
      have hGoesOn : conn'.full = true → ¬(conn'.closing = true ∨ conn'.moving ≠ none) →
          Fine service limits replies { conn := { conn' with full := false }, again := true } := by
        intro hFull hBusy
        refine .stays ⟨hHeld'.written, fun hLate => (hHeld'.faithful hLate).same rfl rfl, fun told message hLate => ?_, ?_,
          fun hLate => (hHeld'.resting hLate).imp_left fun hSettled => hSettled.same rfl,
          fun _ => hHeld'.piled (.inl hFull), hHeld'.apart⟩ (fun hLate => ?_) fun hNow => absurd hNow hBusy
        · have hTold := hHeld'.told told message hLate
          exact ⟨hTold.queued, hTold.plain, hTold.closing, hTold.overdue⟩
        · rintro _ _ ⟨⟩
        · subst hWrite
          exact hSound' false hLate fun hClosing => absurd (.inl hClosing) hBusy
      cases hMoving : conn'.moving with
      | some request => exact .moved hHeld' hWritten hMoving
      | none =>
        dsimp only
        split
        · next hOver => exact .done hHeld' hWritten ((Bool.or_eq_true _ _).mp hOver)
        · next hOpen =>
          obtain ⟨hOpen, -⟩ := not_or.mp (mt (Bool.or_eq_true _ _).mpr hOpen)
          have hBusy : ¬(conn'.closing = true ∨ conn'.moving ≠ none) := not_or.mpr ⟨hOpen, not_ne_iff.mpr hMoving⟩
          have hStill : conn'.late = none → Sound service limits.max_body replies conn' := by
            subst hWrite
            exact fun hLate => hSound' conn.full hLate fun hClosing => absurd hClosing hOpen
          have hFine : Fine service limits replies { conn := conn', again } :=
            .stays hHeld' hStill fun hNow => absurd hNow hBusy
          split
          · next hFull =>
            have hNext := hGoesOn hFull hBusy
            rwa [hMoving] at hNext
          · split
            · next hDue => exact expire_fine last hFine hDue
            · exact hFine

/-- **Sweeping keeps it so.** -/
theorem sweep_fine (taking : Taking) {conn : Conn} {again : Bool} (h : Fine service limits replies { conn, again }) :
    Fine service limits replies (sweep service limits now taking { conn, again }) := by
  unfold sweep
  split
  · next hDue => exact expire_fine taking h hDue
  · cases h with
    | stays held sound waits =>
      cases hLate : conn.late with
      | some told =>
        -- one that was told is in a request, and keeps its buffers
        have hTold := held.told told.1 told.2 hLate
        have hRest : conn.rest now = conn := by
          have hOverdue := hTold.overdue
          unfold Overdue at hOverdue
          unfold rest
          cases hPhase : conn.phase with
          | Idle =>
            rw [hPhase] at hOverdue
            exact hOverdue.elim
          | Head | Body | Refused => rfl
        dsimp only
        rw [hRest]
        exact .stays held sound waits
      | none =>
        have hSound := sound hLate
        obtain ⟨input, start, output, written, hRest, hUnread, hUnwritten, hStart, hWithin, hSame⟩ :=
          rest_eq now hSound.start hSound.written
        have hSent : conn.sent ++ output.drop written = conn.sent ++ conn.unwritten := congrArg _ hUnwritten
        -- compacting moves the buffers, not what is in them
        have hPending : written < output.length ↔ conn.pending = true := by
          rw [pending, decide_eq_true_eq]
          omega
        dsimp only
        rw [hRest]
        exact .stays (held.same hUnread hSent hWithin) (fun _ => hSound.same hUnread hSent hStart hWithin hSame.le
          fun hClosing => hPending.mpr (hSound.heard hClosing)) fun hBusy => decide_eq_true (hPending.mpr (waits hBusy))

theorem step_fine {s : Served} (h : Fine service limits replies s) (event : Event) :
    ∃ replies', Fine service limits replies' (step service limits s event) := by
  obtain ⟨conn, again, gone⟩ := s
  cases gone with
  | some gone => exact ⟨_, h⟩
  | none =>
    cases event with
    | receive now arrivals => exact receive_fine arrivals h
    | reply now taking last => exact ⟨_, reply_fine taking last h⟩
    | sweep now taking => exact ⟨_, sweep_fine taking h⟩
    | drop => exact ⟨_, .dropped h.held⟩

theorem run_fine (opened : Nat) (events : List Event) : ∃ replies, Fine service limits replies (run service limits opened events) := by
  unfold run
  induction events using List.reverseRecOn with
  | nil => exact ⟨_, fine_start opened⟩
  | append_singleton events event ih =>
    rw [List.foldl_append]
    obtain ⟨replies, hFine⟩ := ih
    exact step_fine hFine event

/-- **However a connection's bytes arrive and its replies are taken, and whenever its deadlines
pass**, what went out and waits to go out are the first of the replies that a thread would
write that has all the bytes, and they are all of them unless replies filled up. Only where a
request was not sent in time does one more reply say so, behind all that the thread would have
written by then. The connection marks itself closing only where the thread would stop, or
behind that reply; it is done with only when the client has taken everything; it is given up
only when nothing came for too long, or none of a reply was taken; and it hands off the request
that the thread would, with what came behind it, once the replies are taken. -/
theorem run_faithful (service : Service) (limits : Limits) (opened : Nat) (events : List Event) :
    let s := run service limits opened events
    let plain := serve service limits.max_body 0 s.conn.received
    ∃ replies, s.conn.sent ++ s.conn.unwritten = replies.flatten ++ s.conn.notice service ∧
      replies <+: plain.1 ∧
      (s.conn.full = false → s.again = false → replies = plain.1) ∧
      (s.conn.full = true ∨ s.again = true → MAX_OUTPUT ≤ replies.flatten.length) ∧
      (s.conn.closing = true → s.conn.late = none → plain = (replies, .closed)) ∧
      (∀ now message, s.conn.late = some (now, message) →
        plain = (replies, .unfinished) ∧ s.conn.closing = true ∧ s.conn.Overdue limits now message) ∧
      (s.gone = some (.closed .done) → s.conn.unwritten = [] ∧ (s.conn.closing = true ∨ s.conn.ended = true)) ∧
      (∀ now, s.gone = some (.closed (.expired now)) →
        (if s.conn.pending then s.conn.since + limits.write else s.conn.since + limits.idle) ≤ now) ∧
      ∀ request, s.gone = some (.moved request) →
        s.conn.unwritten = [] ∧ plain = (replies, .moved request s.conn.unread) := by
  intro s plain
  obtain ⟨replies, hFine⟩ : ∃ replies, Fine service limits replies s := run_fine opened events
  have hHeld := hFine.held
  -- a connection that is not late has the thread's replies, and what it would still answer
  have hPlain : s.conn.late = none → plain = (replies ++ (s.conn.resume service limits.max_body []).1,
      (s.conn.resume service limits.max_body []).2) := by
    intro hLate
    have hServed := (hHeld.faithful hLate).served []
    rwa [List.append_nil] at hServed
  refine ⟨replies, ?_, ?_, fun hFull hAgain => ?_, hHeld.piled, fun hClosing hLate => ?_, fun now message hLate => ?_,
    fun hDone => ?_, fun now hExpired => ?_, fun request hMoved => ?_⟩
  · unfold notice
    cases hLate : s.conn.late with
    | none => exact (hHeld.faithful hLate).queued.trans (List.append_nil _).symm
    | some told => exact (hHeld.told told.1 told.2 hLate).queued
  · cases hLate : s.conn.late with
    | none =>
      rw [hPlain hLate]
      exact List.prefix_append _ _
    | some told =>
      rw [show plain = _ from (hHeld.told told.1 told.2 hLate).plain]
  · cases hLate : s.conn.late with
    | none => rw [hPlain hLate, (hHeld.settled hLate hFull hAgain).nothing, List.append_nil]
    | some told => rw [show plain = _ from (hHeld.told told.1 told.2 hLate).plain]
  · rw [hPlain hLate, resume_closing hClosing, List.append_nil]
  · have hTold := hHeld.told now message hLate
    exact ⟨hTold.plain, hTold.closing, hTold.overdue⟩
  · generalize s = s at hFine hDone
    cases hFine with
    | done held written closes => exact ⟨unwritten_nil written, closes⟩
    | stays | failed | dropped | expired | moved => cases hDone
  · generalize s = s at hFine hExpired
    cases hFine with
    | expired held late =>
      cases hExpired
      exact late
    | stays | done | failed | dropped | moved => cases hExpired
  · obtain ⟨hWritten, hMoving⟩ : s.conn.pending = false ∧ s.conn.moving = some request := by
      generalize s = s at hFine hMoved
      cases hFine with
      | moved held written moving =>
        cases hMoved
        exact ⟨written, moving⟩
      | stays | done | failed | dropped | expired => cases hMoved
    -- what waits to be handed off does not close, so it was not told that it is late
    have hOpen := hHeld.apart (by rw [hMoving]; exact Option.some_ne_none _)
    have hLate := hHeld.late_none hOpen
    rw [hPlain hLate, resume_moving hOpen hMoving, List.append_nil, List.append_nil]
    exact ⟨unwritten_nil hWritten, rfl⟩

/-- A client sends one request and the beginning of another, takes the reply in two pieces, and
then sends nothing for as long as a head may take. -/
theorem run_faithful_slow :
    let service : Service :=
      { refuse := fun _ _ => none, answer := fun _ request => .reply { status := 200, headers := [], body := bytes request.path }
        failure := fun status _ => { status, headers := [], body := [] } }
    let limits : Limits := { max_body := 100, idle := 20 * SECOND, head := 15 * SECOND, write := 30 * SECOND }
    let s := run service limits 0 [.receive 1 (some [.bytes (bytes "GET /a HTTP/1.1\r\n\r\nGET /b HT") true]),
      .reply 2 ⟨3, false⟩ ⟨0, false⟩, .reply 3 ⟨100, false⟩ ⟨0, false⟩, .sweep (15 * SECOND) ⟨100, false⟩,
      .sweep (15 * SECOND + 1) ⟨100, false⟩]
    s.conn.late = some (15 * SECOND + 1, "request head took too long") ∧
      s.conn.sent = encode_response { status := 200, headers := [], body := bytes "/a" } true false ++
        encode_response { status := 408, headers := [], body := [] } false false ∧
      (serve service 100 0 s.conn.received).2 = .unfinished := by
  intro service limits s
  obtain ⟨hLate, hWritten, hOnly⟩ : s.conn.late = some (15 * SECOND + 1, "request head took too long") ∧
      s.conn.unwritten = [] ∧ (serve service 100 0 s.conn.received).1 =
        [encode_response { status := 200, headers := [], body := bytes "/a" } true false] := by
    decide +kernel +revert
  obtain ⟨replies, hSent, -, -, -, -, hTold, -⟩ := run_faithful service limits 0 _
  obtain ⟨hPlain, -, -⟩ := hTold _ _ hLate
  refine ⟨hLate, ?_, congrArg Prod.snd hPlain⟩
  have hReplies : replies = _ := (congrArg Prod.fst hPlain).symm.trans hOnly
  have hSent : s.conn.sent ++ s.conn.unwritten = replies.flatten ++ s.conn.notice service := hSent
  rw [hWritten, List.append_nil, hReplies, List.flatten_singleton] at hSent
  rw [hSent]
  unfold Conn.notice
  rw [hLate]
  rfl

end Served

end Postino.Http
