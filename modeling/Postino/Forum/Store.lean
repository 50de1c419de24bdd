import Postino.Lib.BTree
import Postino.Id

/-!
# The forum's state

Inboxes, broadcasts and rooms. Every change goes through `Store.apply` with an
`Effect`. Beside what they index, the store keeps indexes that are written with
every change: the idempotency keys, what each inbox holds by state, and when
messages fall due.

Keyspace commands, which are effects too, change nothing here and are left out.
A hash map that is only ever looked up is a function.
-/

namespace Postino.Forum

open Lib

/-! ## Messages -/

inductive State where
  | Queued
  | Leased
  | Acked
  | Dead
  | Expired
  deriving DecidableEq, Repr

def State.is_pending : State → Bool
  | Queued | Leased => true
  | _ => false

structure Lease where
  consumer : String
  token : String
  at_ : Nat
  until_ : Nat
  deriving DecidableEq, Repr

structure Message where
  id : Id
  from_ : String
  to_ : String
  body : String
  created : Nat
  expires : Nat
  thread : Id
  reply_to : Option Id
  key : Option String
  state : State
  deliveries : Nat
  /-- The most recent delivery. Kept after settlement so a late acknowledgement
  for a requeued entry still matches. -/
  lease : Option Lease
  settled : Option Nat
  deriving DecidableEq, Repr

structure Broadcast where
  id : Id
  from_ : String
  body : String
  created : Nat
  expires : Nat
  key : Option String
  deriving DecidableEq, Repr

structure Counts where
  queued : Nat := 0
  leased : Nat := 0
  dead : Nat := 0
  settled : Nat := 0
  deriving DecidableEq, Repr

def Counts.pending (c : Counts) : Nat := c.queued + c.leased

/-! ## Agents -/

structure Agent where
  name : String
  created : Nat
  last_seen : Nat
  cursor : Option Id := none
  /-- Ids of entries addressed to this agent. -/
  inbox : BTreeSet Id := ∅
  /-- The queued and the settled part of the inbox, and its counts. -/
  queued : BTreeSet Id := ∅
  settled : BTreeSet Id := ∅
  counts : Counts := {}
  /-- Pending messages in the inbox, by sender. -/
  senders : BTreeMap String Nat := ∅
  deriving DecidableEq

def Agent.new (name : String) (at_ : Nat) : Agent := { name, created := at_, last_seen := at_ }

/-! ## Rooms -/

inductive Role where
  | Owner
  | Member
  deriving DecidableEq, Repr

structure Member where
  role : Role
  joined : Nat
  /-- The newest post this member has read. -/
  cursor : Option Id
  deriving DecidableEq, Repr

inductive Kind where
  | Note
  | Question
  | Answer
  /-- Written by the broker when the room changes: joins, topic, board. -/
  | Event
  deriving DecidableEq, Repr

inductive Status where
  | Open
  | Resolved
  | Withdrawn
  | Expired
  deriving DecidableEq, Repr

structure Ask where
  /-- Members who must answer; empty means any member but the asker. -/
  to_ : List String
  options : List String
  expires : Nat
  status : Status
  closed : Option Nat
  deriving DecidableEq, Repr

structure Post where
  id : Id
  from_ : String
  kind : Kind
  body : String
  created : Nat
  reply_to : Option Id
  /-- What the post concerns, so whoever picks that item up later can find every
  decision about it. -/
  about : Option String
  choice : Option String
  ask : Option Ask
  key : Option String
  deriving DecidableEq, Repr

def Post.is_open_question (p : Post) : Bool := p.ask.any fun a => a.status = .Open

/-- A key of a room's board. -/
structure Entry where
  value : String
  by_ : String
  at_ : Nat
  version : Nat
  deriving DecidableEq, Repr

structure Room where
  name : String
  topic : String
  created : Nat
  created_by : String
  /-- Private rooms are joined by invitation from an owner. -/
  private_ : Bool
  closed : Option Nat := none
  members : BTreeMap String Member := ∅
  board : BTreeMap String Entry := ∅
  posts : BTreeMap Id Post := ∅
  /-- Ids of the questions still open. -/
  open_ : BTreeSet Id := ∅
  deriving DecidableEq

namespace Room

/-- The questions still open, oldest first. -/
def open_questions (r : Room) : List Post := r.open_.toList.filterMap fun id => r.posts[id]?

def is_open (r : Room) : Bool := r.closed.isNone

def is_owner (r : Room) (agent : String) : Bool :=
  (r.members[agent]?).any fun m => m.role = .Owner

def answers (r : Room) (question : Id) : List Post :=
  (r.posts.toList.filter fun p => question ≤ p.1 ∧ p.2.kind = .Answer ∧
    p.2.reply_to = some question).map Prod.snd

/-- Addressees of an open question who have not answered yet. -/
def waiting_on (r : Room) (question : Post) : List String :=
  match question.ask with
  | none => []
  | some ask =>
    let answered := (r.answers question.id).map Post.from_
    ask.to_.filter fun name => !answered.contains name

/-- Whether a trim must keep `post`: an open question, or an answer to one, which
its question still counts. -/
def keeps (r : Room) (post : Post) : Bool :=
  post.is_open_question ||
    (post.kind = .Answer &&
      (post.reply_to.bind fun q => r.posts[q]?).any Post.is_open_question)

end Room

/-- Presence session. Never journaled, re-created by the next heartbeat after a
restart. -/
structure Session where
  agent : String
  client : String
  started : Nat
  expires : Nat
  pid : Option Nat
  host : Option String
  deriving DecidableEq

/-! ## Effects -/

inductive Effect where
  | Agent (name : String) (at_ : Nat)
  | Message (message : Message)
  | Lease (id : Id) (consumer token : String) (at_ until_ : Nat)
  | Settle (id : Id) (state : State) (at_ : Nat)
  | Drop (ids : List Id)
  | Broadcast (broadcast : Broadcast)
  | DropBroadcasts (ids : List Id)
  | Cursor (agent : String) (id : Id)
  | Rename (from_ to_ : String)
  | Forget (agent : String)
  | Room (room : Room)
  | Member (room agent : String) (member : Option Member)
  | RoomCursor (room agent : String) (id : Id)
  | Post (room : String) (post : Post)
  | Question (room : String) (id : Id) (status : Status) (at_ : Nat)
  | DropPosts (room : String) (ids : List Id)
  | Topic (room topic : String)
  | Close (room : String) (at_ : Option Nat)
  | Board (room key : String) (entry : Option Entry)
  | DropRoom (room : String)

/-! ## What a message contributes to the indexes -/

instance due_trans : Std.TransCmp (compare : Nat ×ₗ Id → Nat ×ₗ Id → Ordering) := inferInstance

/-- When messages fall due, soonest first. -/
structure Due where
  /-- Leased messages by lease end. -/
  leases : BTreeSet (Nat ×ₗ Id) := ∅
  /-- Pending messages by expiry. -/
  expiry : BTreeSet (Nat ×ₗ Id) := ∅
  /-- Settled messages by settlement time. -/
  settled : BTreeSet (Nat ×ₗ Id) := ∅
  deriving DecidableEq

/-- Adds to, or with `add` false removes from, a set. -/
def flip {K : Type} [LinearOrder K] (add : Bool) (set : BTreeSet K) (k : K) : BTreeSet K :=
  if add then set.insert k else set.erase k

/-- One more, or with `add` false one less. -/
def tick (add : Bool) (n : Nat) : Nat := if add then n + 1 else n - 1

def Due.track (due : Due) (message : Message) (add : Bool) : Due :=
  let expiry := flip add due.expiry (toLex (message.expires, message.id))
  match message.state with
  | .Leased =>
    { due with
      leases := match message.lease with
        | some lease => flip add due.leases (toLex (lease.until_, message.id))
        | none => due.leases
      expiry }
  | .Queued => { due with expiry }
  | .Acked | .Dead | .Expired =>
    let at_ := message.settled.getD message.created
    { due with settled := flip add due.settled (toLex (at_, message.id)) }

def Counts.track (counts : Counts) (state : State) (add : Bool) : Counts :=
  match state with
  | .Queued => { counts with queued := tick add counts.queued }
  | .Leased => { counts with leased := tick add counts.leased }
  | .Dead => { counts with dead := tick add counts.dead }
  | .Acked | .Expired => { counts with settled := tick add counts.settled }

def Agent.track (agent : Agent) (message : Message) (add : Bool) : Agent :=
  let sent := tick add ((agent.senders[message.from_]?).getD 0)
  let senders :=
    if !message.state.is_pending then agent.senders
    else if !add && sent = 0 then agent.senders.erase message.from_
    else agent.senders.insert message.from_ sent
  { agent with
    counts := agent.counts.track message.state add
    senders
    queued := if message.state = .Queued then flip add agent.queued message.id else agent.queued
    settled := if message.state.is_pending then agent.settled
      else flip add agent.settled message.id }

/-- Adds, or with `add` false removes, what one message contributes to its
inbox's sets and counts and to the due indexes. -/
def track (agents : BTreeMap String Agent) (due : Due) (message : Message) (add : Bool) :
    BTreeMap String Agent × Due :=
  let due := due.track message add
  match agents[message.to_]? with
  | some agent => (agents.insert message.to_ (agent.track message add), due)
  | none => (agents, due)

/-! ## The store -/

structure Store where
  last_id : Id := .zero
  messages : BTreeMap Id Message := ∅
  agents : BTreeMap String Agent := ∅
  broadcasts : BTreeMap Id Broadcast := ∅
  sessions : BTreeMap String Session := ∅
  rooms : BTreeMap String Room := ∅
  /-- Idempotency keys belong to whoever used them: (inbox, sender, key),
  (sender, key), and (room, author, key). -/
  msg_keys : String × String × String → Option Id := fun _ => none
  bc_keys : String × String → Option Id := fun _ => none
  post_keys : String × String × String → Option Id := fun _ => none
  due : Due := {}

/-- A hash map with one key set, or removed. -/
def set {K : Type} [DecidableEq K] (map : K → Option Id) (k : K) (v : Option Id) : K → Option Id :=
  Function.update map k v

/-- A hash map collected from pairs: the last of those with one key stays. -/
def collect {K : Type} [DecidableEq K] (pairs : List (K × Id)) : K → Option Id :=
  pairs.foldl (fun map p => set map p.1 (some p.2)) fun _ => none

namespace Store

def next_id (store : Store) (now : Fin (2 ^ 64)) : Id :=
  -- ids follow the clock, which never comes near the largest one
  (Id.next_after store.last_id now).getD .MAX

/-- The message `from_` sent to `to_` under an idempotency key. -/
def message_by_key (store : Store) (to_ from_ key : String) : Option Message :=
  (store.msg_keys (to_, from_, key)).bind fun id => store.messages[id]?

def broadcast_by_key (store : Store) (from_ key : String) : Option Broadcast :=
  (store.bc_keys (from_, key)).bind fun id => store.broadcasts[id]?

def post_by_key (store : Store) (room from_ key : String) : Option Post :=
  (store.post_keys (room, from_, key)).bind fun id =>
    (store.rooms[room]?).bind fun r => r.posts[id]?

/-- Agents that belong to at least one open room. -/
def room_members (store : Store) : List String :=
  (store.rooms.toList.filter fun r => r.2.is_open).flatMap fun r => r.2.members.toList.map Prod.fst

/-- Removes or adds what `message` contributes. -/
def track (store : Store) (message : Message) (add : Bool) : Store :=
  let (agents, due) := Forum.track store.agents store.due message add
  { store with agents, due }

/-- Changes the room `name`, if there is one. -/
def with_room (store : Store) (name : String) (change : Room → Room) : Store :=
  match store.rooms[name]? with
  | some room => { store with rooms := store.rooms.insert name (change room) }
  | none => store

/-- Changes the message `id`, if there is one, with what it contributes. -/
def with_message (store : Store) (id : Id) (change : Message → Message) : Store :=
  match store.messages[id]? with
  | some message =>
    let store := store.track message false
    let message := change message
    { store.track message true with messages := store.messages.insert id message }
  | none => store

def remove_message (store : Store) (id : Id) : Store :=
  match store.messages[id]? with
  | none => store
  | some message =>
    let store := { store with messages := store.messages.erase id }.track message false
    let agents := match store.agents[message.to_]? with
      | some agent => store.agents.insert message.to_ { agent with inbox := agent.inbox.erase id }
      | none => store.agents
    { store with
      agents
      msg_keys := match message.key with
        | some key => set store.msg_keys (message.to_, message.from_, key) none
        | none => store.msg_keys }

def remove_broadcast (store : Store) (id : Id) : Store :=
  match store.broadcasts[id]? with
  | none => store
  | some broadcast =>
    { store with
      broadcasts := store.broadcasts.erase id
      bc_keys := match broadcast.key with
        | some key => set store.bc_keys (broadcast.from_, key) none
        | none => store.bc_keys }

/-- The room's part of dropping a post, and the store's. -/
def remove_post (store : Store) (room : String) (id : Id) : Store :=
  match store.rooms[room]? with
  | none => store
  | some record =>
    let post := record.posts[id]?
    let record := { record with open_ := record.open_.erase id, posts := record.posts.erase id }
    { store with
      rooms := store.rooms.insert room record
      post_keys := match post with
        | some post =>
          match post.key with
          | some key => set store.post_keys (room, post.from_, key) none
          | none => store.post_keys
        | none => store.post_keys }

/-- Rebuilds the idempotency indexes after names change. -/
def reindex (store : Store) : Store :=
  { store with
    msg_keys := collect <| store.messages.toList.filterMap fun m =>
      m.2.key.map fun key => ((m.2.to_, m.2.from_, key), m.2.id)
    bc_keys := collect <| store.broadcasts.toList.filterMap fun b =>
      b.2.key.map fun key => ((b.2.from_, key), b.2.id)
    post_keys := collect <| store.rooms.toList.flatMap fun r =>
      r.2.posts.toList.filterMap fun p =>
        p.2.key.map fun key => ((r.2.name, p.2.from_, key), p.2.id) }

/-- Rebuilds every inbox's sets and counts and the due indexes. -/
def retrack (store : Store) : Store :=
  let cleared := store.agents.map fun _ agent =>
    { agent with queued := ∅, settled := ∅, counts := {}, senders := ∅ }
  store.messages.toList.foldl (fun store m => store.track m.2 true)
    { store with due := {}, agents := cleared }

end Store

/-- `name`, unless it is `from_`: then `to_`. -/
def renamed (from_ to_ name : String) : String := if name = from_ then to_ else name

/-- A room in which `from_` is now `to_`. -/
def Room.rename (from_ to_ : String) (room : Room) : Room :=
  let members := match room.members[from_]? with
    | none => room.members
    | some member =>
      let members := room.members.erase from_
      let member := match members[to_]? with
        | some existing =>
          { member with
            role := if existing.role = .Owner then .Owner else member.role
            cursor := match member.cursor, existing.cursor with
              | some a, some b => some (max a b)
              | some a, none => some a
              | none, b => b }
        | none => member
      members.insert to_ member
  { room with
    created_by := renamed from_ to_ room.created_by
    members
    posts := room.posts.map fun _ post =>
      { post with
        from_ := renamed from_ to_ post.from_
        ask := post.ask.map fun ask => { ask with to_ := ask.to_.map (renamed from_ to_) } }
    board := room.board.map fun _ entry => { entry with by_ := renamed from_ to_ entry.by_ } }

namespace Store

def rename (store : Store) (from_ to_ : String) : Store :=
  match store.agents[from_]? with
  | none => store
  | some agent =>
    let agents := store.agents.erase from_
    let agent := match agents[to_]? with
      | some existing => { agent with inbox := agent.inbox.insertMany existing.inbox.toList }
      | none => agent
    let store : Store := { store with
      agents := agents.insert to_ { agent with name := to_ }
      messages := store.messages.map fun _ m =>
        { m with to_ := renamed from_ to_ m.to_, from_ := renamed from_ to_ m.from_ }
      broadcasts := store.broadcasts.map fun _ b => { b with from_ := renamed from_ to_ b.from_ }
      sessions := store.sessions.map fun _ s => { s with agent := renamed from_ to_ s.agent }
      rooms := store.rooms.map fun _ r => r.rename from_ to_ }
    store.reindex.retrack

def forget (store : Store) (agent : String) : Store :=
  let store := match store.agents[agent]? with
    | some record =>
      record.inbox.toList.foldl remove_message { store with agents := store.agents.erase agent }
    | none => store
  { store with
    sessions := store.sessions.filter fun _ s => s.agent ≠ agent
    rooms := store.rooms.map fun _ r => { r with members := r.members.erase agent } }

def apply (store : Store) : Effect → Store
  | .Agent name at_ =>
    if name ∈ store.agents then store
    else { store with agents := store.agents.insert name (.new name at_) }
  | .Message message =>
    let store := { store with last_id := max store.last_id message.id }
    -- a message that is replaced leaves the indexes first
    let store := match store.messages[message.id]? with
      | some old => store.track old false
      | none => store
    let agent := (store.agents[message.to_]?).getD (.new message.to_ message.created)
    let agents := store.agents.insert message.to_
      { agent with inbox := agent.inbox.insert message.id }
    let msg_keys := match message.key with
      | some key => set store.msg_keys (message.to_, message.from_, key) (some message.id)
      | none => store.msg_keys
    let store := { store with agents, msg_keys }.track message true
    { store with messages := store.messages.insert message.id message }
  | .Lease id consumer token at_ until_ =>
    store.with_message id fun message =>
      { message with
        state := .Leased
        deliveries := message.deliveries + 1
        settled := none
        -- the token is the one drawn when it was journaled
        lease := some { consumer, token, at_, until_ } }
  | .Settle id state at_ =>
    store.with_message id fun message =>
      { message with state, settled := if state.is_pending then none else some at_ }
  | .Drop ids => ids.foldl remove_message store
  | .Broadcast broadcast =>
    { store with
      last_id := max store.last_id broadcast.id
      bc_keys := match broadcast.key with
        | some key => set store.bc_keys (broadcast.from_, key) (some broadcast.id)
        | none => store.bc_keys
      broadcasts := store.broadcasts.insert broadcast.id broadcast }
  | .DropBroadcasts ids => ids.foldl remove_broadcast store
  | .Cursor agent id =>
    match store.agents[agent]? with
    | some record =>
      { store with agents := store.agents.insert agent { record with cursor := some id } }
    | none => store
  | .Rename from_ to_ => store.rename from_ to_
  | .Forget agent => store.forget agent
  | .Room room =>
    -- a room may come with posts, out of a snapshot: what is not written of them is made again
    let last_id := match room.posts.toList.getLast? with
      | some (last, _) => max store.last_id last
      | none => store.last_id
    let post_keys := room.posts.toList.foldl (fun keys p =>
      match p.2.key with
      | some key => set keys (room.name, p.2.from_, key) (some p.2.id)
      | none => keys) store.post_keys
    let open_ := (room.posts.toList.filter fun p => p.2.is_open_question).map fun p => p.2.id
    { store with
      last_id
      post_keys
      rooms := store.rooms.insert room.name { room with open_ := .ofList open_ } }
  | .Member room agent member =>
    store.with_room room fun r =>
      { r with members := match member with
          | some member => r.members.insert agent member
          | none => r.members.erase agent }
  | .RoomCursor room agent id =>
    store.with_room room fun r =>
      match r.members[agent]? with
      | some member => { r with members := r.members.insert agent { member with cursor := some id } }
      | none => r
  | .Post room post =>
    match store.rooms[room]? with
    | none => store
    | some record =>
      { store with
        last_id := max store.last_id post.id
        post_keys := match post.key with
          | some key => set store.post_keys (room, post.from_, key) (some post.id)
          | none => store.post_keys
        rooms := store.rooms.insert room { record with
          open_ := if post.is_open_question then record.open_.insert post.id else record.open_
          posts := record.posts.insert post.id post } }
  | .Question room id status at_ =>
    store.with_room room fun r =>
      match r.posts[id]? with
      | none => r
      | some post =>
        match post.ask with
        | none => r
        | some ask =>
          let ask := { ask with status, closed := if status = .Open then none else some at_ }
          { r with
            posts := r.posts.insert id { post with ask := some ask }
            open_ := if status = .Open then r.open_.insert id else r.open_.erase id }
  | .DropPosts room ids => ids.foldl (fun store id => store.remove_post room id) store
  | .Topic room topic => store.with_room room fun r => { r with topic }
  | .Close room at_ => store.with_room room fun r => { r with closed := at_ }
  | .Board room key entry =>
    store.with_room room fun r =>
      { r with board := match entry with
          | some entry => r.board.insert key entry
          | none => r.board.erase key }
  | .DropRoom room =>
    { store with
      rooms := store.rooms.erase room
      post_keys := fun k => if k.1 = room then none else store.post_keys k }

/-! ## Reading -/

/-- An inbox's messages. -/
def inbox_messages (store : Store) (agent : String) : List Message :=
  match store.agents[agent]? with
  | some record => record.inbox.toList.filterMap fun id => store.messages[id]?
  | none => []

/-- An inbox's counts; `settled` includes the dead letters. -/
def counts (store : Store) (agent : String) : Counts :=
  match store.agents[agent]? with
  | some record => { record.counts with settled := record.counts.settled + record.counts.dead }
  | none => {}

/-- The queued messages of an inbox, oldest first. -/
def queued (store : Store) (agent : String) : List Id :=
  match store.agents[agent]? with
  | some record => record.queued.toList
  | none => []

/-- How many of `agent`'s pending messages came from `from_`. -/
def pending_from (store : Store) (agent from_ : String) : Nat :=
  ((store.agents[agent]?).bind fun record => record.senders[from_]?).getD 0

/-- An inbox's handled messages, oldest first. -/
def settled (store : Store) (agent : String) : List Id :=
  match store.agents[agent]? with
  | some record => record.settled.toList
  | none => []

/-- The ids of what is due by `now`, soonest first. -/
def due_by (due : BTreeSet (Nat ×ₗ Id)) (now : Nat) : List Id :=
  (due.toList.takeWhile fun d => (ofLex d).1 ≤ now).map fun d => (ofLex d).2

/-- Leased messages whose lease ended by `now`. -/
def leases_due (store : Store) (now : Nat) : List Id := due_by store.due.leases now

/-- Pending messages that expired by `now`. -/
def expired_due (store : Store) (now : Nat) : List Id := due_by store.due.expiry now

/-- Handled messages settled at or before `at_`. -/
def settled_before (store : Store) (at_ : Nat) : List Id := due_by store.due.settled at_

def live_sessions (store : Store) (agent : String) (now : Nat) : Nat :=
  (store.sessions.toList.filter fun s => s.2.agent = agent ∧ s.2.expires > now).length

/-- Whether `agent` has a session `online_counts` counts. -/
def is_online (store : Store) (agent : String) (now : Nat) : Bool := store.live_sessions agent now > 0

end Store

/-! ## Snapshots -/

/-- A snapshot's forum, as it is read back: what is rebuilt on load is not in
it. -/
structure SnapshotOwned where
  last_id : Id
  agents : List Agent
  messages : List Message
  broadcasts : List Broadcast
  rooms : List Room

def Store.snapshot (store : Store) : SnapshotOwned where
  last_id := store.last_id
  agents := store.agents.toList.map fun a =>
    { name := a.2.name, created := a.2.created, last_seen := a.2.last_seen, cursor := a.2.cursor }
  messages := store.messages.toList.map Prod.snd
  broadcasts := store.broadcasts.toList.map Prod.snd
  rooms := store.rooms.toList.map fun r => { r.2 with open_ := ∅ }

def Store.from_snapshot (snapshot : SnapshotOwned) : Store :=
  let agents := snapshot.agents.foldl (fun agents agent => agents.insert agent.name agent) ∅
  let store : Store := { last_id := snapshot.last_id, agents }
  let store := snapshot.messages.foldl (fun store message => store.apply (.Message message)) store
  let store := snapshot.broadcasts.foldl (fun store b => store.apply (.Broadcast b)) store
  snapshot.rooms.foldl (fun store room => store.apply (.Room room)) store

end Postino.Forum
