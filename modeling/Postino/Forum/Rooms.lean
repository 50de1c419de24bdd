import Postino.Forum.Core

/-!
# Broadcasts, rooms and the sweep

The rest of the forum's operations. A check that fails does so before the
operation has changed anything, except where it follows a change in the source.

A room is looked up once for each operation that reads it, as in the source: what
is read from `record` later is what the room was then.
-/

namespace Postino.Forum

open Lib Fallible

/-! ## Broadcasts -/

/-- The first pass of a trim: the oldest broadcasts of whoever holds more than
`quota`, up to `excess`. -/
def over_share (quota excess : Nat) : List Broadcast → (String → Nat) → List Id → List Id
  | [], _, ids => ids
  | b :: rest, held, ids =>
    -- enough is picked: the rest stay, whoever sent them
    if ids.length = excess then ids
    else if held b.from_ > quota then
      over_share quota excess rest (Function.update held b.from_ (held b.from_ - 1)) (ids ++ [b.id])
    else over_share quota excess rest held ids

/-- The second pass: whatever is oldest. -/
def fill_up (excess : Nat) : List Id → List Id → List Id
  | [], ids => ids
  | id :: rest, ids =>
    if ids.length = excess then ids
    else if ids.contains id then fill_up excess rest ids
    else fill_up excess rest (ids ++ [id])

/-- The broadcasts a trim drops. -/
def Core.trimmed_broadcasts (core : Core) : List Id :=
  let excess := core.store.broadcasts.size - core.limits.max_broadcasts
  let all := core.store.broadcasts.toList.map Prod.snd
  let held (name : String) : Nat := (all.filter fun b => b.from_ = name).length
  let ids := over_share (share core.limits.max_broadcasts) excess all held []
  fill_up excess (core.store.broadcasts.toList.map Prod.fst) ids

/-- Trims the broadcasts to their limit, oldest first. Senders holding more than
a quarter of them lose theirs first, so one agent's flood does not push out
everyone else's. -/
def trim_broadcasts : Op Unit := do
  let core ← read
  if core.store.broadcasts.size - core.limits.max_broadcasts = 0 then pure ()
  else commit (.DropBroadcasts core.trimmed_broadcasts)

def broadcast (from_ body : String) (key : Option String) (now : Fin (2 ^ 64)) :
    Op (Broadcast × Bool) := do
  let core ← read
  match key.bind fun key => core.store.broadcast_by_key from_ key with
  -- sent before under this key: the first one is what counts
  | some existing => pure (existing, false)
  | none =>
    room_to_grow
    ensure_agents [from_] now
    let core ← read
    -- chosen once the sender is an agent, which may drop another
    let broadcast : Broadcast :=
      { id := core.store.next_id now, from_, body, created := now
        expires := (now : Nat) + core.limits.msg_ttl_ms, key }
    commit (.Broadcast broadcast)
    trim_broadcasts
    emit_all "broadcast" [("broadcast", broadcast_json broadcast)] now
    pure (broadcast, true)

/-- Unseen broadcasts for `agent` (all retained when `all`), optionally moving
its cursor past the newest entry. -/
def read_broadcasts (agent : String) (all advance : Bool) : Op (List Broadcast × Nat) := do
  let core ← read
  let cursor := (core.store.agents[agent]?).bind Agent.cursor
  let items := (core.store.broadcasts.toList.map Prod.snd).filter fun b =>
    all || (cursor.all (fun c => b.id > c) && b.from_ ≠ agent)
  match core.store.broadcasts.toList.getLast? with
  | some (newest, _) =>
    -- a cursor that is there already is not journaled again
    if advance && core.store.agents.contains agent && cursor ≠ some newest then
      commit (.Cursor agent newest)
  | none => pure ()
  let core ← read
  pure (items, core.store.broadcasts.size)

def clear_broadcasts (now : Fin (2 ^ 64)) : Op Unit := do
  let core ← read
  let ids := core.store.broadcasts.toList.map Prod.fst
  if ids ≠ [] then commit (.DropBroadcasts ids)
  emit_all "broadcasts_cleared" [] now

/-! ## Rooms -/

/-- Who performs a room operation. Administrators manage every room and read
private ones; agents manage the rooms they own. -/
structure Actor where
  name : String
  admin : Bool
  /-- An agent rather than the administrator token. -/
  strict : Bool

def room (name : String) : Op Room := do
  let core ← read
  match core.store.rooms[name]? with
  | some room => pure room
  | none => fail <| .NotFound s!"unknown room {debug name}"

def open_room (name : String) : Op Room := do
  let room ← room name
  refuse (!room.is_open) <| .Conflict s!"room {debug name} is closed"
  pure room

def manages (room : Room) (actor : Actor) : Bool := actor.admin || room.is_owner actor.name

def require_owner (room : Room) (actor : Actor) : Op Unit :=
  refuse (!manages room actor) <| .Forbidden
    s!"only owners of room {debug room.name} can do that"

/-- A room as `actor` may see it. Outsiders learn only that a private room
exists. -/
def visible_room (name : String) (actor : Actor) : Op Room := do
  let room ← room name
  refuse (!(actor.admin || !room.private_ || room.members.contains actor.name)) <| .Forbidden
    s!"room {debug name} is private to its members; an owner has to add you"
  pure room

def can_view (name : String) (actor : Actor) : Op Unit := do
  let _ ← visible_room name actor
  pure ()

/-- Whom a room's events concern. -/
def Store.room_scope (store : Store) (name : String) : List String :=
  (store.rooms[name]?).elim [] fun room => room.members.toList.map Prod.fst

/-- An event for a room's members. -/
def emit_room (kind name : String) (data : List (String × JsonValue)) (now : Fin (2 ^ 64)) :
    Op Unit := do
  let core ← read
  emit kind (core.store.room_scope name) ([("room", .string name)] ++ data) now

theorem sat_emit_room {core : Core} {kind name : String} {data : List (String × JsonValue)}
    {now : Fin (2 ^ 64)} {Done : Unit → Core → Prop} {Failed : Core → Prop}
    (h : ∀ events, Done () { core with events }) :
    Sat (emit_room kind name data now) core Done Failed := sat_read (sat_emit h)

/-- The posts a trim drops: those it need not keep, oldest first. -/
def Room.trimmed (room : Room) (excess : Nat) : List Id :=
  (((room.posts.toList.map Prod.snd).filter fun p => !room.keeps p).take excess).map Post.id

def trim_room (name : String) : Op Unit := do
  let core ← read
  match core.store.rooms[name]? with
  | none => pure ()
  | some record =>
    let ids := record.trimmed (record.posts.size - core.limits.room_history)
    if ids ≠ [] then commit (.DropPosts name ids)

def append (name : String) (post : Post) (now : Fin (2 ^ 64)) : Op Unit := do
  commit (.Post name post)
  -- the trim may take the post just made, so what is told is the room after it
  trim_room name
  let core ← read
  emit_room "post" name
    ((core.store.rooms[name]?).elim [] fun room => [("post", post_json room post)]) now
  wake (.Room name)

/-- Records a change to the room in its timeline. -/
def log (name from_ body : String) (now : Fin (2 ^ 64)) : Op Unit := do
  let core ← read
  append name
    { id := core.store.next_id now, from_, kind := .Event, body, created := now
      reply_to := none, about := none, choice := none, ask := none, key := none }
    now

def set_question (name : String) (id : Id) (status : Status) (now : Fin (2 ^ 64)) : Op Unit := do
  commit (.Question name id status now)
  emit_room "question" name
    [("id", .string id.display), ("status", .string status.display)] now
  wake (.Room name)

def drop_room (name : String) (now : Fin (2 ^ 64)) : Op Unit := do
  let core ← read
  -- those who were in it are told
  let scope := core.store.room_scope name
  commit (.DropRoom name)
  emit "room" scope [("room", .string name), ("change", .string "deleted")] now
  wake (.Room name)

/-- A new member, or one whose role changes; `none` when nothing does. -/
def joining_member (name agent : String) (role : Option Role) (actor : Actor) (record : Room)
    (now : Fin (2 ^ 64)) : Op (Option Member) := do
  let manages := manages record actor
  match record.members[agent]? with
  | some member =>
    match role with
    | some role =>
      if role ≠ member.role then do
        refuse (!manages) <| .Forbidden s!"only owners of room {debug name} can change roles"
        pure (some { member with role })
      else pure none
    | none => pure none
  | none =>
    -- a name mistyped by an agent must not make a new one
    if agent ≠ actor.name ∧ actor.strict then require_known agent
    ensure_agents [agent] now
    pure (some { role := role.getD .Member, joined := now, cursor := none })

/-- Adds `agent` to a room. Agents join public rooms by themselves; owners add
anyone and change roles. Returns whether anything changed. -/
def join (name agent : String) (role : Option Role) (actor : Actor) (now : Fin (2 ^ 64)) :
    Op Bool := do
  let _ ← visible_room name actor
  let record ← open_room name
  let manages := manages record actor
  refuse (agent ≠ actor.name && !manages) <| .Forbidden
    s!"only owners of room {debug name} can add other agents"
  refuse (role = some .Owner && !manages) <| .Forbidden
    s!"only owners of room {debug name} can appoint owners"
  -- whoever is in may join again: only newcomers are held to a private or a full room
  let known := record.members.contains agent
  refuse (!known && record.private_ && !manages) <| .Forbidden
    s!"room {debug name} is private; an owner has to add you"
  refuse (!known && MAX_MEMBERS ≤ record.members.size) <| .Full
    s!"room {debug name} is full ({MAX_MEMBERS} members)"
  match ← joining_member name agent role actor record now with
  | none => pure false
  | some member =>
    let core ← read
    -- the room is looked at again, as making the agent may have changed it
    let joined := !((core.store.rooms[name]?).any fun r => r.members.contains agent)
    commit (.Member name agent (some member))
    emit_room "member" name
      [("agent", .string agent), ("joined", .bool true), ("role", .string member.role.display)] now
    let body := match joined, decide (agent = actor.name), member.role with
      | true, true, _ => "joined"
      | true, false, _ => s!"added {agent}"
      | false, _, .Owner => s!"made {agent} an owner"
      | false, _, .Member => s!"made {agent} a member"
    log name actor.name body now
    pure true

structure CreateRoom where
  name : String
  topic : String
  private_ : Bool
  members : List String
  /-- Join the room instead of failing when it already exists. -/
  join : Bool

/-- The room closed longest ago. -/
def Store.oldest_closed (store : Store) : Option String :=
  let closed := store.rooms.toList.filterMap fun r => r.2.closed.map fun at_ => (at_, r.2.name)
  (closed.mergeSort fun a b => a.1 < b.1 || (a.1 = b.1 && a.2 ≤ b.2)).head?.map Prod.snd

/-- Which room makes way for a new one, if one has to. -/
def make_way : Op (Option String) := do
  let core ← read
  if core.store.rooms.size < core.limits.max_rooms then pure none
  else
    match core.store.oldest_closed with
    | some name => pure (some name)
    | none =>
      fail (.Full s!"room limit reached (maximum {core.limits.max_rooms}); close or delete a room first")

def create_room (req : CreateRoom) (actor : Actor) (now : Fin (2 ^ 64)) : Op Bool := do
  room_to_grow
  let core ← read
  if core.store.rooms.contains req.name then
    refuse (!req.join) <| .Conflict s!"room {debug req.name} already exists; join it instead"
    let _ ← join req.name actor.name none actor now
    pure false
  else
    let others := (req.members.filter fun name => name ≠ actor.name).eraseDups
    let names := actor.name :: others
    refuse (names.length > MAX_MEMBERS) <| .BadRequest
      s!"a room holds at most {MAX_MEMBERS} members"
    if actor.strict then
      others.forM require_known
      let created := (core.store.rooms.toList.filter fun r =>
        r.2.is_open && r.2.created_by = actor.name).length
      refuse (share core.limits.max_rooms ≤ created) <| .Full
        s!"{actor.name} already created {created} open rooms, a quarter of the {core.limits.max_rooms} the server holds; close one first"
    let evict ← make_way
    ensure_agents names now
    -- at the limit, the room closed longest ago makes way, once nothing else can fail
    match evict with
    | some name => drop_room name now
    | none => pure ()
    let member (name : String) : String × Member :=
      (name, { role := if name = actor.name then .Owner else .Member, joined := now, cursor := none })
    commit (.Room
      { name := req.name, topic := req.topic, created := now, created_by := actor.name
        private_ := req.private_, members := .ofList (names.map member) })
    emit_room "room" req.name [("change", .string "created")] now
    log req.name actor.name
      (if req.topic = "" then "created the room" else s!"created the room: {req.topic}") now
    pure true

def leave_room (name agent : String) (actor : Actor) (now : Fin (2 ^ 64)) : Op Unit := do
  let record ← visible_room name actor
  if agent ≠ actor.name then require_owner record actor
  refuse (!record.members.contains agent) <| .NotFound
    s!"{debug agent} is not a member of room {debug name}"
  let core ← read
  -- the one who goes is told too
  let scope := core.store.room_scope name
  commit (.Member name agent none)
  emit "member" scope
    [("room", .string name), ("agent", .string agent), ("joined", .bool false)] now
  if record.is_open then
    log name actor.name (if agent = actor.name then "left" else s!"removed {agent}") now

/-- The room `name` as it is now. -/
def Core.is_open (core : Core) (name : String) : Bool := (core.store.rooms[name]?).any Room.is_open

def reopen (name : String) (record : Room) (actor : Actor) (now : Fin (2 ^ 64)) : Op Unit :=
  if record.is_open then pure ()
  else do
    commit (.Close name none)
    log name actor.name "reopened the room" now

def set_topic (name topic : String) (actor : Actor) (now : Fin (2 ^ 64)) : Op Unit := do
  let core ← read
  if (core.store.rooms[name]?).any fun r => topic ≠ r.topic then
    let _ ← open_room name
    commit (.Topic name topic)
    log name actor.name (if topic = "" then "cleared the topic" else s!"set the topic: {topic}") now

/-- Closing withdraws open questions so agents waiting on them are released. -/
def close (name : String) (actor : Actor) (now : Fin (2 ^ 64)) : Op Unit := do
  let core ← read
  if core.is_open name then
    -- the note comes before the questions are withdrawn, and the room is closed last
    log name actor.name "closed the room" now
    let core ← read
    let open_ := (core.store.rooms[name]?).elim [] fun r => r.open_.toList
    open_.forM fun id => set_question name id .Withdrawn now
    commit (.Close name (some now))

/-- Changes the topic, or closes or reopens the room. -/
def update_room (name : String) (topic : Option String) (closed : Option Bool) (actor : Actor)
    (now : Fin (2 ^ 64)) : Op Unit := do
  let record ← visible_room name actor
  require_owner record actor
  if closed = some false then reopen name record actor now
  match topic with
  | some topic => set_topic name topic actor now
  | none => pure ()
  if closed = some true then close name actor now
  emit_room "room" name [("change", .string "updated")] now

def delete_room (name : String) (actor : Actor) (now : Fin (2 ^ 64)) : Op Unit := do
  let record ← visible_room name actor
  require_owner record actor
  drop_room name now

/-! ## Posts -/

structure AskRequest where
  to_ : List String
  options : List String
  ttl_ms : Option Nat

structure PostRequest where
  room : String
  body : String
  reply_to : Option Id
  about : Option String
  key : Option String
  ask : Option AskRequest

structure AnswerRequest where
  room : String
  question : Id
  /-- May be empty when `choice` says it all. -/
  body : String
  choice : Option String
  key : Option String

/-- Whom a question names, each once. -/
def addressees (asker : String) : List String → List String → Op (List String)
  | [], to_ => pure to_
  | name :: rest, to_ =>
    -- nobody asks themselves
    if name = asker then fail <| .BadRequest "a question cannot be addressed to its asker"
    else addressees asker rest (if to_.contains name then to_ else to_ ++ [name])

/-- A question's options, trimmed, each once. -/
def distinct_options : List String → List String → Op (List String)
  | [], options => pure options
  | option :: rest, options =>
    let option := trim option
    if option = "" ∨ option.length > 200 then
      fail <| .BadRequest "options must be 1 to 200 characters"
    else distinct_options rest
      (if options.any fun o => eq_ignore_ascii_case o option then options else options ++ [option])

/-- What a post asks. -/
def asking (req : Option AskRequest) (asker : String) (now : Fin (2 ^ 64)) : Op (Option Ask) := do
  match req with
  | none => pure none
  | some req =>
    let core ← read
    let to_ ← addressees asker req.to_ []
    let options ← distinct_options req.options []
    refuse (to_.length > MAX_ADDRESSEES || options.length > MAX_OPTIONS) <| .BadRequest
      s!"a question names at most {MAX_ADDRESSEES} members and {MAX_OPTIONS} options"
    let ttl := min (req.ttl_ms.getD core.limits.msg_ttl_ms) core.limits.msg_ttl_ms
    pure (some { to_, options, expires := (now : Nat) + ttl, status := .Open, closed := none })

/-- Checks a new question before anything changes: whom it names, and how many
questions the room and the asker have open. -/
def admit_question (record : Room) (ask : Ask) (actor : Actor) : Op Unit := do
  match ask.to_.find? fun name => !record.members.contains name with
  | some outsider =>
    -- a question brings in whom it names, which only owners of a private room may do
    refuse (record.private_ && !manages record actor) <| .Forbidden
      s!"{outsider} is not a member of private room {debug record.name}; only owners can add agents"
  | none => pure ()
  if actor.strict then ask.to_.forM require_known
  let open_ := record.open_questions.length
  let own := (record.open_questions.filter fun p => p.from_ = actor.name).length
  refuse (MAX_OPEN_QUESTIONS ≤ open_) <| .Full
    s!"room {debug record.name} has {MAX_OPEN_QUESTIONS} open questions; answer or withdraw some first"
  refuse (actor.strict && share MAX_OPEN_QUESTIONS ≤ own) <| .Full
    s!"{actor.name} has {own} open questions in room {debug record.name}, a quarter of what it holds; withdraw one first"

/-- The post a reply is to. -/
def replied_to (name : String) (record : Room) : Option Id → Op (Option Post)
  | none => pure none
  | some id =>
    match record.posts[id]? with
    | some post => pure (some post)
    | none => fail <| .NotFound s!"post {id.display} is not in room {debug name}"

/-- The post, once no post of the key is found. -/
def post_new (req : PostRequest) (record : Room) (actor : Actor) (now : Fin (2 ^ 64)) :
    Op (Post × Bool) := do
  let parent ← replied_to req.room record req.reply_to
  -- a reply is about what its parent is about
  let about := req.about.or (parent.bind Post.about)
  let ask ← asking req.ask actor.name now
  match ask with
  | some ask => admit_question record ask actor
  | none => pure ()
  -- posting joins a public room, and a question brings in whoever has to answer it
  let joining := (actor.name :: ask.elim [] Ask.to_).filter fun name => !record.members.contains name
  refuse (record.members.size + joining.length > MAX_MEMBERS) <| .Full
    s!"room {debug req.room} is full ({MAX_MEMBERS} members)"
  ensure_agents joining now
  -- whoever is asked is let in by the question, not by the asker's own right
  let inviter : Actor := { name := actor.name, admin := true, strict := false }
  joining.forM fun name => do
    let _ ← join req.room name none (if name = actor.name then actor else inviter) now
    pure ()
  let core ← read
  let post : Post :=
    { id := core.store.next_id now, from_ := actor.name
      kind := if ask.isSome then .Question else .Note
      body := req.body, created := now, reply_to := req.reply_to, about, choice := none, ask
      key := req.key }
  append req.room post now
  pure (post, true)

/-- Posts a note, or a question when `ask` is set. -/
def post (req : PostRequest) (actor : Actor) (now : Fin (2 ^ 64)) : Op (Post × Bool) := do
  let _ ← visible_room req.room actor
  room_to_grow
  let record ← open_room req.room
  let core ← read
  match req.key.bind fun key => core.store.post_by_key req.room actor.name key with
  | some existing => pure (existing, false)
  | none => post_new req record actor now

/-- The question asked, and what it asks, if it can still be answered. -/
def asked_question (name : String) (question : Id) (record : Room) (actor : Actor) :
    Op (Post × Ask) := do
  match (record.posts[question]?).filter fun p => p.kind = .Question with
  | none => fail <| .NotFound s!"question {question.display} is not in room {debug name}"
  | some asked =>
    match asked.ask with
    | none => fail <| .NotFound s!"question {question.display} has no ask"
    | some ask =>
      refuse (ask.status ≠ .Open) <| .Conflict
        s!"question {question.display} is already {ask.status.display}"
      refuse (asked.from_ = actor.name) <| .Conflict
        "you cannot answer your own question; withdraw it instead"
      -- one that names nobody may be answered by anyone
      refuse (ask.to_ ≠ [] && !ask.to_.contains actor.name) <| .Forbidden
        s!"question {question.display} is addressed to {join_names ask.to_}"
      refuse ((record.answers question).any fun a => a.from_ = actor.name) <| .Conflict
        s!"you already answered question {question.display}"
      pure (asked, ask)

/-- The option picked, as the question has it. -/
def chosen (options : List String) (choice : Option String) : Op (Option String) :=
  match options, choice with
  | [], choice => pure choice
  | options, some choice =>
    match options.find? fun o => eq_ignore_ascii_case o (trim choice) with
    | some option => pure (some option)
    | none => fail <| .BadRequest s!"choice must be one of: {join_names options}"
  | options, none => fail <| .BadRequest s!"pick a choice: {join_names options}"

/-- Whether everyone a question waits for has answered. -/
def Room.resolved (record : Room) (question : Id) : Bool :=
  (record.posts[question]?).any fun asked =>
    asked.ask.any (fun a => a.to_ = []) || (record.waiting_on asked = [])

/-- The answer, once no post of the key is found. -/
def answer_new (req : AnswerRequest) (record : Room) (actor : Actor) (now : Fin (2 ^ 64)) :
    Op (Post × Bool) := do
  let (asked, ask) ← asked_question req.room req.question record actor
  let choice ← chosen ask.options req.choice
  let body := if req.body = "" then choice.getD "" else req.body
  refuse (body = "") <| .BadRequest "\"body\" is required"
  if !record.members.contains actor.name then
    let _ ← join req.room actor.name none actor now
  let core ← read
  let post : Post :=
    { id := core.store.next_id now, from_ := actor.name, kind := .Answer, body, created := now
      reply_to := some req.question, about := asked.about, choice, ask := none, key := req.key }
  append req.room post now
  let core ← read
  let resolved := (core.store.rooms[req.room]?).any fun record => record.resolved req.question
  -- answered by all it waits for
  if resolved then set_question req.room req.question .Resolved now
  pure (post, resolved)

/-- Answers an open question. It resolves when every addressee has answered, or
on the first answer when it names nobody. -/
def answer (req : AnswerRequest) (actor : Actor) (now : Fin (2 ^ 64)) : Op (Post × Bool) := do
  room_to_grow
  let _ ← visible_room req.room actor
  let record ← open_room req.room
  let core ← read
  match req.key.bind fun key => core.store.post_by_key req.room actor.name key with
  | some existing => pure (existing, false)
  | none => answer_new req record actor now

def withdraw (name : String) (question : Id) (actor : Actor) (now : Fin (2 ^ 64)) : Op Unit := do
  let record ← visible_room name actor
  match (record.posts[question]?).filter fun p => p.kind = .Question with
  | none => fail <| .NotFound s!"question {question.display} is not in room {debug name}"
  | some asked =>
    if asked.from_ ≠ actor.name then require_owner record actor
    refuse (!asked.is_open_question) <| .Conflict
      s!"question {question.display} is no longer open"
    set_question name question .Withdrawn now

/-- The rounds of `read_room`: the posts for the reader, the last post passed,
and how many posts for the reader remain. -/
def read_posts (agent : String) (limit : Nat) :
    List (Id × Post) → List Post → Option Id → Nat → List Post × Option Id × Nat
  | [], items, last, remaining => (items, last, remaining)
  | (id, post) :: rest, items, last, remaining =>
    -- the page is full: what is left is only counted
    if items.length = limit then
      read_posts agent limit rest items last
        (if post.from_ ≠ agent then remaining + 1 else remaining)
    else
      read_posts agent limit rest (if post.from_ ≠ agent then items ++ [post] else items)
        (some id) remaining

/-- Unread posts for a member, oldest first, moving its cursor past what was
returned. The member's own posts are skipped but count as read. Returns the posts
and how many unread posts remain. -/
def read_room (name agent : String) (limit : Nat) : Op (List Post × Nat) := do
  let record ← room name
  match record.members[agent]? with
  | none => fail <| .Forbidden s!"{debug agent} is not a member of room {debug name}; join it first"
  | some member =>
    let range := record.posts.toList.filter fun p => member.cursor.all fun c => p.1 > c
    let (items, last, remaining) := read_posts agent limit range [] none 0
    match last with
    | some id => commit (.RoomCursor name agent id)
    | none => pure ()
    pure (items, remaining)

/-- What a write leaves under a board key, and the line it logs; nothing when the
key holds the value already. -/
def board_entry (name key : String) (value : Option String) (record : Room) (actor : Actor)
    (now : Fin (2 ^ 64)) : Op (Option (Option Entry × String)) := do
  let current := record.board[key]?
  let version := current.elim 0 Entry.version
  match value with
  | none =>
    refuse current.isNone <| .NotFound s!"board key {debug key} is not set in room {debug name}"
    pure (some (none, s!"removed {key} from the board"))
  | some value =>
    -- the same value again is no write, and no new version
    if current.any fun e => e.value = value then pure none
    else
      refuse (current.isNone && MAX_BOARD_KEYS ≤ record.board.size) <| .Full
        s!"the board of room {debug name} holds at most {MAX_BOARD_KEYS} keys"
      pure (some (some { value, by_ := actor.name, at_ := now, version := version + 1 },
        s!"set {key} on the board (version {version + 1})"))

/-- The write, at the version it named. -/
def board_write (name key : String) (value : Option String) (record : Room) (actor : Actor)
    (now : Fin (2 ^ 64)) : Op (Option Entry) := do
  match ← board_entry name key value record actor now with
  | none => pure record.board[key]?
  | some (entry, body) =>
    commit (.Board name key entry)
    emit_room "board" name
      [("key", .string key), ("version", .of_option (fun e => .number (Entry.version e)) entry)] now
    log name actor.name body now
    pure entry

/-- Refuses a write that names another version than the key is at. -/
def expect_version (key : String) (version : Nat) : Option Nat → Op Unit
  | some expect => refuse (expect ≠ version) <| .Conflict
      s!"board key {debug key} is at version {version}, not {expect}"
  | none => pure ()

def board_set (name key : String) (value : Option String) (expect : Option Nat) (actor : Actor)
    (now : Fin (2 ^ 64)) : Op (Option Entry) := do
  let _ ← visible_room name actor
  -- removing a key is let through when memory is short
  if value.isSome then room_to_grow
  let record ← open_room name
  refuse (!actor.admin && !record.members.contains actor.name) <| .Forbidden
    s!"join room {debug name} before writing its board"
  expect_version key ((record.board[key]?).elim 0 Entry.version) expect
  board_write name key value record actor now

/-! ## Maintenance -/

/-- Settles a batch of each kind of what fell due: leases that ran out, messages
that expired or were kept long enough once settled. Returns whether more are
due. -/
def sweep_due (now : Fin (2 ^ 64)) : Op Bool := do
  let leases ← reclaim now
  let expired ← expire now
  let core ← read
  let kept_until := (now : Nat) - core.limits.msg_ttl_ms
  let stale := (core.store.settled_before kept_until).take SWEEP_BATCH
  if stale ≠ [] then commit (.Drop stale)
  let core ← read
  let settled := !(core.store.settled_before kept_until).isEmpty
  pure (leases || expired || settled)

/-- The open questions nobody may answer any more, with their rooms. -/
def Store.expired_questions (store : Store) (now : Nat) : List (String × Id) :=
  (store.rooms.toList.map Prod.snd).flatMap fun r =>
    (r.open_questions.filter fun p => p.ask.any fun a => a.expires ≤ now).map fun p => (r.name, p.id)

/-- The rooms closed long enough ago. -/
def Store.stale_rooms (store : Store) (now ttl : Nat) : List String :=
  ((store.rooms.toList.map Prod.snd).filter fun r => r.closed.any fun at_ => at_ + ttl ≤ now).map
    Room.name

def sweep_rooms (now : Fin (2 ^ 64)) : Op Unit := do
  let core ← read
  (core.store.expired_questions now).forM fun q => set_question q.1 q.2 .Expired now
  let core ← read
  -- looked up after the questions, as the source does
  (core.store.stale_rooms now core.limits.msg_ttl_ms).forM fun name => drop_room name now

/-- Ends the sessions that ran out; an agent that has none left went offline. -/
def sweep_sessions (now : Fin (2 ^ 64)) : Op Unit := do
  let core ← read
  let expired := core.store.sessions.toList.filter fun s => s.2.expires ≤ (now : Nat)
  expired.forM fun s => do
    change_store fun store => { store with sessions := store.sessions.erase s.1 }
    let core ← read
    if !core.store.is_online s.2.agent now then emit_presence s.2.agent false now

/-- The active expire cycle: presence, leases, message TTLs, and retention.
Returns whether more fell due than one sweep settles. -/
def sweep (now : Fin (2 ^ 64)) : Op Bool := do
  sweep_sessions now
  let more ← sweep_due now
  let core ← read
  let old := ((core.store.broadcasts.toList.map Prod.snd).filter fun b => b.expires ≤ (now : Nat)).map
    Broadcast.id
  if old ≠ [] then commit (.DropBroadcasts old)
  sweep_rooms now
  pure more

/-! ## The checks

Each leaves the core as it was, whether it passes or not. -/

section Checks

variable (core : Core) (name : String) (actor : Actor)

theorem sat_room_to_grow : Sat room_to_grow core (fun u core' => u = () ∧ core' = core)
    (fun core' => core' = core) :=
  sat_read (sat_refuse (fun _ => rfl) fun _ => ⟨rfl, rfl⟩)

theorem sat_room : Sat (room name) core
    (fun record core' => core' = core ∧ core.store.rooms[name]? = some record)
    (fun core' => core' = core) := by
  unfold room
  refine sat_read ?_
  cases hRoom : core.store.rooms[name]? with
  | none => exact sat_fail rfl
  | some record => exact sat_pure ⟨rfl, rfl⟩

theorem sat_open_room : Sat (open_room name) core
    (fun record core' => core' = core ∧ core.store.rooms[name]? = some record ∧
      record.is_open = true)
    (fun core' => core' = core) := by
  unfold open_room
  refine sat_bind ((sat_room core name).mono (fun record core' h => ?_) fun _ => id)
  obtain ⟨rfl, hRoom⟩ := h
  refine sat_bind (sat_refuse (fun _ => rfl) fun hOpen => sat_pure ⟨rfl, hRoom, ?_⟩)
  simpa using hOpen

theorem sat_visible_room : Sat (visible_room name actor) core
    (fun record core' => core' = core ∧ core.store.rooms[name]? = some record ∧
      (actor.admin || !record.private_ || record.members.contains actor.name) = true)
    (fun core' => core' = core) := by
  unfold visible_room
  refine sat_bind ((sat_room core name).mono (fun record core' h => ?_) fun _ => id)
  obtain ⟨rfl, hRoom⟩ := h
  refine sat_bind (sat_refuse (fun _ => rfl) fun hSeen => sat_pure ⟨rfl, hRoom, ?_⟩)
  exact (Bool.not_eq_false' _).mp hSeen

end Checks

end Postino.Forum
