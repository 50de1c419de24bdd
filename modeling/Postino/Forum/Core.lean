import Postino.Lib.Fallible
import Postino.Lib.Text
import Postino.Forum.Events
import Postino.Forum.Json

/-!
# Operations of the forum

What agents ask of the broker, each run as a whole. A change is an effect that
`commit` journals and then applies; after it come the events it publishes and the
requests it wakes. An operation that fails leaves what it had committed.

The keyspace is left out. Where the code draws random tokens or looks at the
memory in use, the model reads them off the core.
-/

namespace Postino.Forum

open Lib Fallible

/-! ## The core -/

structure Limits where
  msg_ttl_ms : Nat := 86400000
  lease_ms : Nat := 30000
  max_inbox : Nat := 1000
  max_agents : Nat := 1000
  max_broadcasts : Nat := 500
  history_limit : Nat := 200
  max_deliveries : Nat := 10
  max_rooms : Nat := 200
  room_history : Nat := 1000
  /-- Bytes the process may hold before writes that grow it are refused; 0 means
  no limit. -/
  max_memory : Nat := 0

inductive Error where
  | BadRequest (text : String)
  | Forbidden (text : String)
  | NotFound (text : String)
  | Conflict (text : String)
  | Full (text : String)
  | OutOfMemory (text : String)
  | Storage (text : String)
  deriving DecidableEq, Repr

/-- What a blocked request waits for: a change to it wakes the request. -/
inductive Topic where
  | Inbox (name : String)
  | Room (name : String)
  | Key (name : String)
  deriving DecidableEq, Repr

structure Core where
  store : Store := {}
  limits : Limits := {}
  /-- Why each of the next appends to the journal fails, if it does; those after
  them succeed. -/
  journal : List (Option String) := []
  /-- What was journaled. -/
  journaled : List Effect := []
  events : Events := { next := 0 }
  /-- What changed in the current operation, for the waiters to see. -/
  wake : List Topic := []
  /-- Agents with a token, known before they first connect. -/
  token_agents : List String := []
  /-- A thread panicked while it held the lock. -/
  halted : Bool := false
  /-- Bytes in use. -/
  memory : Nat := 0
  /-- What the random generator gives, draw after draw, and how many were
  drawn. -/
  random : Nat → String := fun _ => ""
  drawn : Nat := 0

abbrev Op : Type → Type := Fallible Core Error

/-- What one sweep settles of each kind that fell due. -/
def SWEEP_BATCH : Nat := 1000
def MAX_SESSIONS_PER_AGENT : Nat := 32
def MAX_MEMBERS : Nat := 256
def MAX_BOARD_KEYS : Nat := 256
def MAX_ADDRESSEES : Nat := 32
def MAX_OPTIONS : Nat := 16
/-- Questions one room holds open at once. -/
def MAX_OPEN_QUESTIONS : Nat := 128
def OPERATOR : String := "operator"

def HALTED : String :=
  "READONLY a request failed partway through a change, which may be left half made; no more changes are taken until the server restarts"

/-- The part of a shared limit one agent may take: a quarter. -/
def share (limit : Nat) : Nat := max (limit / 4) 1

/-! ## Texts -/

/-- Bytes in mebibytes, to one place. -/
def mib (bytes : Nat) : String :=
  let tenths := bytes * 10 / 2 ^ 20
  let rest := bytes * 10 % 2 ^ 20 * 2
  let tenths := if rest > 2 ^ 20 ∨ (rest = 2 ^ 20 ∧ tenths % 2 = 1) then tenths + 1 else tenths
  s!"{tenths / 10}.{tenths % 10} MiB"

/-- A list as messages name it: with `, ` between. -/
def join_names (names : List String) : String := ", ".intercalate names

/-! ## Committing -/

/-- The core once `effect` is journaled and applied. -/
def Core.applied (core : Core) (effect : Effect) : Core :=
  { core with store := core.store.apply effect, journaled := core.journaled ++ [effect] }

@[simp] theorem Core.applied_store (core : Core) (effect : Effect) :
    (core.applied effect).store = core.store.apply effect := rfl

/-- Journals an effect and applies it. -/
def commit (effect : Effect) : Op Unit := fun core =>
  if core.halted then (.error (.Storage HALTED), core)
  else
    match core.journal with
    | some e :: rest =>
      (.error (.Storage s!"journal write failed: {e}"), { core with journal := rest })
    | none :: rest => (.ok (), { core.applied effect with journal := rest })
    | [] => (.ok (), core.applied effect)

/-- Why the next commit is refused, if it is. -/
def Core.refusal (core : Core) : Option String :=
  if core.halted then some HALTED else core.journal.head?.join.map fun e => s!"journal write failed: {e}"

theorem commit_taken {core : Core} (h : core.refusal = none) (effect : Effect) :
    ∃ core', commit effect core = (.ok (), core') ∧ core'.store = core.store.apply effect ∧
      core'.journaled = core.journaled ++ [effect] := by
  unfold Core.refusal at h
  unfold commit
  cases hHalted : core.halted with
  | true => rw [hHalted] at h; cases h
  | false =>
    rw [hHalted] at h
    rcases hJournal : core.journal with - | ⟨fault, rest⟩
    · exact ⟨_, rfl, rfl, rfl⟩
    · cases fault with
      | none => exact ⟨_, rfl, rfl, rfl⟩
      | some e => rw [hJournal] at h; cases h

theorem commit_refused {core : Core} {text : String} (h : core.refusal = some text) (effect : Effect) :
    ∃ core', commit effect core = (.error (.Storage text), core') ∧ core'.store = core.store ∧
      core'.journaled = core.journaled := by
  unfold Core.refusal at h
  unfold commit
  cases hHalted : core.halted with
  | true =>
    rw [hHalted] at h
    cases h
    exact ⟨_, rfl, rfl, rfl⟩
  | false =>
    rw [hHalted] at h
    rcases hJournal : core.journal with - | ⟨fault, rest⟩
    · rw [hJournal] at h
      cases h
    · rw [hJournal] at h
      cases fault with
      | none => cases h
      | some e =>
        cases h
        exact ⟨_, rfl, rfl, rfl⟩

/-- Where a commit comes to: the effect applied, or an error and the store as it
was. -/
theorem sat_commit_any (effect : Effect) (core : Core) :
    Sat (commit effect) core (fun _ core' => core'.store = core.store.apply effect)
      (fun core' => core'.store = core.store) := by
  unfold Sat
  cases hRefusal : core.refusal with
  | none =>
    obtain ⟨core', hRun, hStore, -⟩ := commit_taken hRefusal effect
    rw [hRun]
    exact hStore
  | some text =>
    obtain ⟨core', hRun, hStore, -⟩ := commit_refused hRefusal effect
    rw [hRun]
    exact hStore

/-- What an effect keeps, committing it keeps. -/
theorem keeps_commit {P : Store → Prop} {effect : Effect} (h : ∀ store, P store → P (store.apply effect)) :
    Keeps (fun core : Core => P core.store) (commit effect) := by
  intro core hP
  refine (sat_commit_any effect core).mono (fun _ core' hStore => ?_) fun core' hStore => ?_
  · show P core'.store
    exact hStore ▸ h _ hP
  · show P core'.store
    exact hStore ▸ hP

/-- Presence changes the store without the journal. -/
def change_store (change : Store → Store) : Op Unit :=
  modify fun core => { core with store := change core.store }

/-! ## Publishing -/

/-- What an event says, as JSON: its number, its type and when, and its data. -/
def event_json (kind : String) (data : List (String × JsonValue)) (now id : Nat) : String :=
  (JsonValue.of_fields <|
    [("id", .number id), ("type", .string kind), ("at", time now)] ++ data).display

def publish_event (kind : String) (scope : Option (List String)) (data : List (String × JsonValue))
    (now : Nat) : Op Unit :=
  modify fun core =>
    { core with events := (core.events.publish_event scope (event_json kind data now)).2 }

def emit (kind : String) (scope : List String) (data : List (String × JsonValue)) (now : Nat) :
    Op Unit :=
  publish_event kind (some scope) data now

def emit_all (kind : String) (data : List (String × JsonValue)) (now : Nat) : Op Unit :=
  publish_event kind none data now

def hand_over (name : String) : Op Unit :=
  modify fun core => { core with events := core.events.hand_over name }

/-- `topic` changed. -/
def wake (topic : Topic) : Op Unit :=
  modify fun core => { core with wake := core.wake ++ [topic] }

/-- `random_hex`: the next token. -/
def random_hex : Op String := fun core =>
  (.ok (core.random core.drawn), { core with drawn := core.drawn + 1 })

section Publishing

variable {core : Core} {Done : Unit → Core → Prop} {Failed : Core → Prop} {kind : String}
  {data : List (String × JsonValue)} {now : Nat}

/-- Publishing changes the events, and never fails. -/
theorem sat_emit {scope : List String} (h : ∀ events, Done () { core with events }) :
    Sat (emit kind scope data now) core Done Failed := h _

theorem sat_hand_over {name : String} (h : ∀ events, Done () { core with events }) :
    Sat (hand_over name) core Done Failed := h _

theorem sat_wake {topic : Topic} (h : ∀ wake, Done () { core with wake }) :
    Sat (wake topic) core Done Failed := h _

end Publishing

/-- Refuses to store more once the process is past its memory limit. -/
def room_to_grow : Op Unit := do
  let core ← read
  refuse (core.limits.max_memory > 0 && core.memory > core.limits.max_memory) <| .OutOfMemory
    s!"OOM the server is using {mib core.memory} of its {mib core.limits.max_memory} limit (POSTINO_MAX_MEMORY); delete data or raise the limit"

/-! ## Agents -/

namespace Core

/-- Agents nobody would miss: not online, in no open room, nothing waiting; the
one not seen for longest first. -/
def removable (core : Core) (now : Fin (2 ^ 64)) : List String :=
  let candidates := core.store.agents.toList.filter fun a =>
    !core.store.is_online a.2.name now && !core.store.room_members.contains a.2.name &&
      (core.store.counts a.2.name).pending = 0
  -- sorted stably, so agents seen at the same time go in the order of their names
  (candidates.mergeSort fun a b => a.2.last_seen ≤ b.2.last_seen).map fun a => a.2.name

/-- Whether the server knows `name`: an agent it has seen, one with a token, or
the operator. -/
def known (core : Core) (name : String) : Bool :=
  name = OPERATOR || core.store.agents.contains name || core.token_agents.contains name

end Core

def forget_agent (name : String) (now : Fin (2 ^ 64)) : Op Unit := do
  commit (.Forget name)
  emit "removed" [name] [("agent", .string name)] now
  hand_over name

def add_agent (name : String) (now : Fin (2 ^ 64)) : Op Unit := do
  commit (.Agent name now)
  emit "agent" [name] [("agent", .string name)] now

def ensure_agents (names : List String) (now : Fin (2 ^ 64)) : Op Unit := do
  let core ← read
  let missing := (names.filter fun name => !core.store.agents.contains name).eraseDups
  if missing = [] then pure ()
  else
    -- those named are never the ones to go
    let overflow := core.store.agents.size + missing.length - core.limits.max_agents
    let removable := if overflow > 0 then
        (core.removable now).filter fun name => !names.contains name
      else []
    refuse (removable.length < overflow) <|
      .Full s!"agent namespace is full (maximum {core.limits.max_agents})"
    (removable.take overflow).forM fun name => forget_agent name now
    missing.forM fun name => add_agent name now

def cleanup (now : Fin (2 ^ 64)) : Op (List String) := do
  let core ← read
  let removed := core.removable now
  removed.forM fun name => forget_agent name now
  pure removed

def forget (name : String) (now : Fin (2 ^ 64)) : Op Unit := do
  let core ← read
  refuse (!core.store.agents.contains name) <| .NotFound s!"unknown agent {debug name}"
  forget_agent name now

structure PresenceRequest where
  agent : String
  session : String
  client : String
  pid : Option Nat := none
  host : Option String := none
  ttl_ms : Nat

/-- Sessions of `agent`, the soonest to expire first. -/
def Store.own_sessions (store : Store) (agent : String) : List (Nat × String) :=
  ((store.sessions.toList.filter fun s => s.2.agent = agent).map fun s => (s.2.expires, s.1)).mergeSort
    fun a b => a.1 < b.1 || (a.1 = b.1 && a.2 ≤ b.2)

def Store.see (store : Store) (agent : String) (now : Nat) : Store :=
  match store.agents[agent]? with
  | some record =>
    { store with agents := store.agents.insert agent { record with last_seen := now } }
  | none => store

/-- `agent` came online, or went. -/
def emit_presence (agent : String) (online : Bool) (now : Fin (2 ^ 64)) : Op Unit :=
  emit "presence" [agent] [("agent", .string agent), ("online", .bool online)] now

def presence (req : PresenceRequest) (now : Fin (2 ^ 64)) : Op Nat := do
  let core ← read
  refuse ((core.store.sessions[req.session]?).any fun s => s.agent ≠ req.agent) <|
    .Conflict "session id belongs to another agent"
  ensure_agents [req.agent] now
  let core ← read
  let expires := (now : Nat) + req.ttl_ms
  change_store fun store =>
    let known := store.sessions[req.session]?
    let own := store.own_sessions req.agent
    -- a new session of an agent that has too many takes the place of the soonest to end
    let evicted := if known.isNone && MAX_SESSIONS_PER_AGENT ≤ own.length then
        own.take (own.length - MAX_SESSIONS_PER_AGENT + 1)
      else []
    let sessions := evicted.foldl (fun sessions s => sessions.erase s.2) store.sessions
    -- a session that goes on keeps its start
    let started := ((sessions[req.session]?).filter fun s => s.agent = req.agent).elim ↑now
      Session.started
    let session : Session :=
      { agent := req.agent, client := req.client, started, expires, pid := req.pid, host := req.host }
    { store with sessions := sessions.insert req.session session }.see req.agent now
  if !core.store.is_online req.agent now then emit_presence req.agent true now
  pure expires

def leave (agent session : String) (now : Fin (2 ^ 64)) : Op Unit := do
  let core ← read
  if (core.store.sessions[session]?).any fun s => s.agent = agent then
    change_store fun store =>
      { store with sessions := store.sessions.erase session }.see agent now
    let core ← read
    if !core.store.is_online agent now then emit_presence agent false now

def rename (from_ to_ : String) (now : Fin (2 ^ 64)) : Op Unit := do
  if from_ = to_ then pure ()
  else
    let core ← read
    refuse (!core.store.agents.contains from_) <| .NotFound s!"unknown agent {debug from_}"
    let live := core.store.live_sessions from_ now
    refuse (live > 1) <|
      .Conflict s!"cannot rename {debug from_} while {live} instances are online"
    -- the other name is taken over only from an agent that nobody would miss
    if core.store.agents.contains to_ then
      refuse (core.store.is_online to_ now || (core.store.counts to_).pending > 0) <|
        .Conflict s!"agent name {debug to_} is already in use"
      commit (.Forget to_)
    commit (.Rename from_ to_)
    -- the messages queued for the old name now wait under the new one
    wake (.Inbox to_)
    emit "rename" [from_, to_] [("from", .string from_), ("to", .string to_)] now
    hand_over from_
    hand_over to_

/-- Refuses a name the server does not know, listing some it does. -/
def require_known (name : String) : Op Unit := do
  let core ← read
  let names := (core.store.agents.toList.map Prod.fst).take 25
  refuse (!core.known name) <| .NotFound <|
    if names = [] then s!"unknown agent {debug name}; no agents are registered yet"
    else s!"unknown agent {debug name}; known agents: {join_names names}"

/-! ## Direct messages -/

structure SendRequest where
  from_ : String
  to_ : Option String
  body : String
  reply_to : Option Id := none
  key : Option String := none
  /-- Reject unknown recipients instead of creating their inbox. -/
  strict : Bool := false
  /-- Sent with the administrator token: not held to one sender's share of the
  recipient's inbox. -/
  admin : Bool := false

def trim_history (agent : String) : Op Unit := do
  let core ← read
  let excess := (core.store.counts agent).settled - core.limits.history_limit
  if excess > 0 then commit (.Drop ((core.store.settled agent).take excess))
  else pure ()

/-- The message to `to_`, once nothing speaks against it. -/
def send_new (req : SendRequest) (to_ : String) (parent : Option Message) (now : Fin (2 ^ 64)) :
    Op (Message × Bool) := do
  if req.strict then require_known to_
  let core ← read
  refuse (core.limits.max_inbox ≤ (core.store.counts to_).pending) <| .Full
    s!"inbox {debug to_} is full ({core.limits.max_inbox} pending messages)"
  let quota := share core.limits.max_inbox
  refuse (!req.admin && to_ ≠ req.from_ && quota ≤ core.store.pending_from to_ req.from_) <| .Full
    s!"{req.from_} already has {quota} messages waiting in {debug to_}'s inbox, a quarter of it; wait until {to_} reads some"
  ensure_agents [req.from_, to_] now
  let core ← read
  let id := core.store.next_id now
  let message : Message :=
    { id, from_ := req.from_, to_, body := req.body, created := now
      expires := (now : Nat) + core.limits.msg_ttl_ms
      -- a reply joins its parent's thread only when the sender can see the parent
      thread := parent.elim id Message.thread
      reply_to := req.reply_to, key := req.key, state := .Queued, deliveries := 0
      lease := none, settled := none }
  commit (.Message message)
  trim_history to_
  emit "message" [message.to_, message.from_] [("message", message_json message)] now
  wake (.Inbox message.to_)
  pure (message, true)

/-- The message a request replies to, for those who can see it. -/
def Store.parent (store : Store) (req : SendRequest) : Option Message :=
  (req.reply_to.bind fun id => store.messages[id]?).filter fun p =>
    p.to_ = req.from_ || p.from_ = req.from_

def send (req : SendRequest) (now : Fin (2 ^ 64)) : Op (Message × Bool) := do
  room_to_grow
  let core ← read
  let parent := core.store.parent req
  match req.to_.or (parent.map Message.from_) with
  | none =>
    fail <| match req.reply_to with
      | some id => .NotFound
        s!"message {id.display} not found; pass \"to\" to reply to a message that has been trimmed"
      | none => .BadRequest "\"to\" is required"
  | some to_ =>
    match req.key.bind fun key => core.store.message_by_key to_ req.from_ key with
    | some existing => pure (existing, false)
    | none => send_new req to_ parent now

/-- What `reclaim` does with a lease that ran out. -/
def requeue (now : Fin (2 ^ 64)) (message : Message) : Op Unit := do
  let core ← read
  let dead : Bool := core.limits.max_deliveries ≤ message.deliveries
  commit (.Settle message.id (if dead then .Dead else .Queued) now)
  emit (if dead then "dead" else "requeue") [message.to_]
    [("inbox", .string message.to_), ("ids", .strings [message.id.display]),
      ("deliveries", .number message.deliveries)] now
  if dead then trim_history message.to_ else wake (.Inbox message.to_)

/-- Returns a batch of expired leases to the queue, dead-lettering entries that
reached the delivery limit. Returns whether more are due. -/
def reclaim (now : Fin (2 ^ 64)) : Op Bool := do
  let core ← read
  let expired := ((core.store.leases_due now).take SWEEP_BATCH).filterMap fun id =>
    core.store.messages[id]?
  expired.forM (requeue now)
  let core ← read
  pure !(core.store.leases_due now).isEmpty

/-- Settles a batch of pending messages that expired. Returns whether more
did. -/
def expire (now : Fin (2 ^ 64)) : Op Bool := do
  let core ← read
  let expired := ((core.store.expired_due now).take SWEEP_BATCH).filterMap fun id =>
    core.store.messages[id]?
  expired.forM fun message => do
    commit (.Settle message.id .Expired now)
    emit "expired" [message.to_]
      [("inbox", .string message.to_), ("ids", .strings [message.id.display])] now
    trim_history message.to_
  let core ← read
  pure !(core.store.expired_due now).isEmpty

structure Leased where
  message : Message
  receipt : String

/-- The ids a lease hands out. -/
def Store.leasable (store : Store) (inbox : String) (limit : Nat) (only : Option (List Id))
    (now : Nat) : List Id :=
  -- one that expired but that no sweep has settled yet is not handed out
  let live (id : Id) : Bool := (store.messages[id]?).any fun m => m.expires > now
  match only with
  | none => ((store.queued inbox).filter live).take limit
  | some wanted =>
    let ids := wanted.filter fun id =>
      ((store.messages[id]?).any fun m => m.to_ = inbox && m.state = .Queued) && live id
    ((ids.mergeSort (· ≤ ·)).eraseDups).take limit

/-- Hands out messages one after another. -/
def lease_each (consumer : String) (now : Fin (2 ^ 64)) (until_ : Nat) : List Id → Op (List Leased)
  | [] => pure []
  | id :: ids => do
    let token ← random_hex
    commit (.Lease id consumer token now until_)
    let core ← read
    let rest ← lease_each consumer now until_ ids
    match core.store.messages[id]? with
    | some message => pure ({ message, receipt := s!"{id.display}.{token}" } :: rest)
    | none => pure rest

def lease_where (inbox consumer : String) (limit : Nat) (only : Option (List Id))
    (now : Fin (2 ^ 64)) : Op (List Leased) := do
  let _ ← reclaim now
  let _ ← expire now
  let core ← read
  let ids := core.store.leasable inbox limit only now
  let until_ := (now : Nat) + core.limits.lease_ms
  let leased ← lease_each consumer now until_ ids
  if leased ≠ [] then
    emit "lease" [inbox]
      [("inbox", .string inbox), ("ids", .strings (leased.map fun l => l.message.id.display)),
        ("consumer", .string consumer), ("until", time until_)] now
  pure leased

def lease (inbox consumer : String) (limit : Nat) (now : Fin (2 ^ 64)) : Op (List Leased) :=
  lease_where inbox consumer limit none now

/-- Leases specific queued messages, for a reader that handles one at a time. -/
def lease_ids (inbox consumer : String) (ids : List Id) (now : Fin (2 ^ 64)) : Op (List Leased) :=
  lease_where inbox consumer ids.length (some ids) now

structure AckOutcome where
  acknowledged : List String := []
  rejected : List String := []
  deriving DecidableEq, Repr

/-- A receipt's id and, in the form `<id>.<token>`, its token. -/
def split_receipt (receipt : String) : String × Option String :=
  let id := receipt.toList.takeWhile (· ≠ '.')
  match receipt.toList.drop id.length with
  | [] => (receipt, none)
  | _ :: token => (String.ofList id, some (String.ofList token))

/-- Whether a receipt is for the lease a message is under, or was under last. -/
def Message.matches (message : Message) (token : Option String) (consumer : Option String) : Bool :=
  message.state.is_pending && message.lease.any fun lease =>
    match token with
    | some token => lease.token = token
    | none => consumer = some lease.consumer

/-- The rounds of `ack`, with the outcome so far and the ids of what was
settled. -/
def ack_each (inbox : String) (consumer : Option String) (now : Fin (2 ^ 64)) :
    List String → AckOutcome → List String → Op (AckOutcome × List String)
  | [], outcome, acked => pure (outcome, acked)
  | receipt :: receipts, outcome, acked => do
    let core ← read
    let (raw_id, token) := split_receipt receipt
    let rejected := { outcome with rejected := outcome.rejected ++ [receipt] }
    let acknowledged := { outcome with acknowledged := outcome.acknowledged ++ [receipt] }
    match (Id.parse raw_id).bind fun id => core.store.messages[id]? with
    | none => ack_each inbox consumer now receipts rejected acked
    | some message =>
      if message.to_ ≠ inbox then ack_each inbox consumer now receipts rejected acked
      else if message.state = .Acked then ack_each inbox consumer now receipts acknowledged acked
      else if !message.matches token consumer then
        ack_each inbox consumer now receipts rejected acked
      else do
        commit (.Settle message.id .Acked now)
        ack_each inbox consumer now receipts acknowledged (acked ++ [message.id.display])

/-- Acknowledges by receipt. A bare id is accepted when the caller names the
consumer that holds the lease. -/
def ack (inbox : String) (receipts : List String) (consumer : Option String)
    (now : Fin (2 ^ 64)) : Op AckOutcome := do
  let (outcome, acked) ← ack_each inbox consumer now receipts {} []
  if acked ≠ [] then
    trim_history inbox
    emit "ack" [inbox] [("inbox", .string inbox), ("ids", .strings acked)] now
  pure outcome

def purge (inbox : String) (now : Fin (2 ^ 64)) : Op Nat := do
  let core ← read
  let ids := (core.store.inbox_messages inbox).map Message.id
  if ids.length > 0 then commit (.Drop ids)
  emit "purge" [inbox] [("inbox", .string inbox)] now
  pure ids.length

end Postino.Forum
