import Postino.Forum.Indexes

/-!
# What each effect leaves alone

* `apply_room` — what an effect makes of one room depends on that room alone.
* `apply_broadcast` — what an effect makes of one broadcast.
* `apply_cursor` — what an agent has read of the broadcasts moves by `Cursor` alone.
* `apply_last_id` — the last id never goes back.
-/

namespace Postino.Forum

open Lib

/-! ## Rooms -/

theorem with_room_get (store : Store) (name : String) (change : Room → Room) (i : String) :
    (store.with_room name change).rooms[i]? =
      if name = i then (store.rooms[i]?).map change else store.rooms[i]? := by
  unfold Store.with_room
  cases hRoom : store.rooms[name]? with
  | none =>
    show store.rooms[i]? = _
    split
    · next hi =>
      subst hi
      simp [hRoom]
    · rfl
  | some room =>
    show (store.rooms.insert name (change room))[i]? = _
    rw [BTreeMap.get_insert]
    split
    · next hi =>
      subst hi
      simp [hRoom]
    · rfl

/-- The room's part of dropping a post. -/
def Room.remove_post (room : Room) (id : Id) : Room :=
  { room with open_ := room.open_.erase id, posts := room.posts.erase id }

theorem remove_post_get (store : Store) (name : String) (id : Id) (i : String) :
    (store.remove_post name id).rooms[i]? =
      if name = i then (store.rooms[i]?).map fun r => r.remove_post id else store.rooms[i]? := by
  unfold Store.remove_post
  cases hRoom : store.rooms[name]? with
  | none =>
    show store.rooms[i]? = _
    split
    · next hi =>
      subst hi
      simp [hRoom]
    · rfl
  | some room =>
    dsimp only
    rw [BTreeMap.get_insert]
    split
    · next hi =>
      subst hi
      rw [hRoom]
      rfl
    · rfl

/-- A change to the room `name`. -/
def on_one (name i : String) (change : Room → Room) (room : Option Room) : Option Room :=
  if name = i then room.map change else room

/-- What an effect makes of the room `i`. Names change only by `Rename`, which
looks at the agents too. -/
def Effect.on_room (i : String) (room : Option Forum.Room) : Effect → Option Forum.Room
  | .Forget agent => room.map fun r => { r with members := r.members.erase agent }
  | .Room new =>
    if new.name = i then
      let open_ := (new.posts.toList.filter fun p => p.2.is_open_question).map fun p => p.2.id
      some { new with open_ := .ofList open_ }
    else room
  | .Member name agent member =>
    on_one name i (fun r =>
      { r with members := match member with
          | some member => r.members.insert agent member
          | none => r.members.erase agent }) room
  | .RoomCursor name agent id =>
    on_one name i (fun r =>
      match r.members[agent]? with
      | some member => { r with members := r.members.insert agent { member with cursor := some id } }
      | none => r) room
  | .Post name post =>
    on_one name i (fun r =>
      { r with
        open_ := if post.is_open_question then r.open_.insert post.id else r.open_
        posts := r.posts.insert post.id post }) room
  | .Question name id status at_ =>
    on_one name i (fun r =>
      match r.posts[id]? with
      | none => r
      | some post =>
        match post.ask with
        | none => r
        | some ask =>
          let ask := { ask with status, closed := if status = .Open then none else some at_ }
          { r with
            posts := r.posts.insert id { post with ask := some ask }
            open_ := if status = .Open then r.open_.insert id else r.open_.erase id }) room
  | .DropPosts name ids => on_one name i (fun r => ids.foldl Forum.Room.remove_post r) room
  | .Topic name topic => on_one name i (fun r => { r with topic }) room
  | .Close name at_ => on_one name i (fun r => { r with closed := at_ }) room
  | .Board name key entry =>
    on_one name i (fun r =>
      { r with board := match entry with
          | some entry => r.board.insert key entry
          | none => r.board.erase key }) room
  | .DropRoom name => if name = i then none else room
  | _ => room

def Effect.is_rename : Effect → Bool
  | .Rename .. => true
  | _ => false

theorem remove_messages_rooms (ids : List Id) (store : Store) :
    (ids.foldl Store.remove_message store).rooms = store.rooms := by
  induction ids generalizing store with
  | nil => rfl
  | cons id ids ih =>
    rw [List.foldl_cons, ih]
    unfold Store.remove_message
    cases store.messages[id]? <;> rfl

theorem remove_broadcasts_rooms (ids : List Id) (store : Store) :
    (ids.foldl Store.remove_broadcast store).rooms = store.rooms := by
  induction ids generalizing store with
  | nil => rfl
  | cons id ids ih =>
    rw [List.foldl_cons, ih]
    unfold Store.remove_broadcast
    cases store.broadcasts[id]? <;> rfl

theorem with_message_rooms (store : Store) (id : Id) (change : Message → Message) :
    (store.with_message id change).rooms = store.rooms := by
  unfold Store.with_message
  cases store.messages[id]? <;> rfl

theorem drop_posts_get (store : Store) (name : String) (ids : List Id) (i : String) :
    (ids.foldl (fun store id => store.remove_post name id) store).rooms[i]? =
      on_one name i (fun r => ids.foldl Room.remove_post r) store.rooms[i]? := by
  unfold on_one
  induction ids generalizing store with
  | nil =>
    split
    · exact (Option.map_id' ..).symm
    · rfl
  | cons id ids ih =>
    rw [List.foldl_cons, ih, remove_post_get]
    split
    · rw [Option.map_map]
      rfl
    · rfl

/-- **What an effect makes of a room depends on that room alone.** -/
theorem apply_room (store : Store) {effect : Effect} (h : effect.is_rename = false) (i : String) :
    (store.apply effect).rooms[i]? = effect.on_room i store.rooms[i]? := by
  cases effect with
  | Rename => cases h
  | Agent name at_ =>
    unfold Store.apply
    dsimp only
    split <;> rfl
  | Message m =>
    unfold Store.apply
    dsimp only
    cases store.messages[m.id]? <;> rfl
  | Lease => exact congrArg (·[i]?) (with_message_rooms store _ _)
  | Settle => exact congrArg (·[i]?) (with_message_rooms store _ _)
  | Drop ids => exact congrArg (·[i]?) (remove_messages_rooms ids store)
  | Broadcast => rfl
  | DropBroadcasts ids => exact congrArg (·[i]?) (remove_broadcasts_rooms ids store)
  | Cursor agent id =>
    unfold Store.apply
    dsimp only
    cases store.agents[agent]? <;> rfl
  | Forget agent =>
    show (store.forget agent).rooms[i]? = _
    unfold Store.forget
    dsimp only
    rw [Std.ExtTreeMap.getElem?_map]
    cases store.agents[agent]? with
    | none => rfl
    | some record =>
      dsimp only
      rw [remove_messages_rooms]
      rfl
  -- the only effects that change a room are those that name it
  | Room room =>
    show (store.rooms.insert room.name _)[i]? = _
    rw [BTreeMap.get_insert]
    rfl
  | Post name post =>
    unfold Store.apply Effect.on_room on_one
    dsimp only
    cases hRoom : store.rooms[name]? with
    | none =>
      dsimp only
      split
      · next hi =>
        subst hi
        rw [hRoom]
        rfl
      · rfl
    | some record =>
      dsimp only
      rw [BTreeMap.get_insert]
      split
      · next hi =>
        subst hi
        rw [hRoom]
        rfl
      · rfl
  | DropPosts name ids => exact drop_posts_get store name ids i
  | DropRoom name =>
    show (store.rooms.erase name)[i]? = _
    rw [BTreeMap.get_erase]
    rfl
  | Member | RoomCursor | Question | Topic | Close | Board => exact with_room_get store _ _ i

/-! ## What stands beside the posts -/

/-- A room but for its posts. -/
def Room.standing (room : Room) : Room := { room with posts := ∅, open_ := ∅ }

theorem remove_posts_standing (ids : List Id) (room : Room) :
    (ids.foldl Room.remove_post room).standing = room.standing := by
  induction ids generalizing room with
  | nil => rfl
  | cons id ids ih => exact ih (room.remove_post id)

theorem remove_posts_get (ids : List Id) (room : Room) (id : Id) :
    (ids.foldl Room.remove_post room).posts[id]? = if id ∈ ids then none else room.posts[id]? := by
  induction ids generalizing room with
  | nil => simp
  | cons i ids ih =>
    rw [List.foldl_cons, ih, show (room.remove_post i).posts = room.posts.erase i from rfl,
      BTreeMap.get_erase]
    by_cases hIds : id ∈ ids
    · simp [hIds]
    · by_cases hi : i = id
      · simp [hi]
      · simp [hIds, hi, Ne.symm hi]

def Effect.of_posts : Effect → Bool
  | .Post .. | .Question .. | .DropPosts .. => true
  | _ => false

/-- Whether the rooms stand as they did, but for their posts, and the agents are the
same. -/
structure SameStanding (store store' : Store) : Prop where
  rooms : ∀ i : String, (store'.rooms[i]?).map Room.standing = (store.rooms[i]?).map Room.standing
  agents : store'.agents = store.agents

theorem SameStanding.refl (store : Store) : SameStanding store store := ⟨fun _ => rfl, rfl⟩

theorem SameStanding.trans {a b c : Store} (h : SameStanding a b) (h' : SameStanding b c) :
    SameStanding a c := ⟨fun i => (h'.rooms i).trans (h.rooms i), h'.agents.trans h.agents⟩

/-- Posts leave all but themselves as it is. -/
theorem posts_standing (store : Store) {effect : Effect} (h : effect.of_posts = true) :
    SameStanding store (store.apply effect) := by
  have hOne : ∀ (name i : String) (change : Room → Room), (∀ r, (change r).standing = r.standing) →
      (on_one name i change store.rooms[i]?).map Room.standing =
        (store.rooms[i]?).map Room.standing := by
    intro name i change hChange
    unfold on_one
    split
    · rw [Option.map_map]
      exact Option.map_congr fun r _ => hChange r
    · rfl
  cases effect with
  | Post name post =>
    refine ⟨fun i => ?_, (apply_same store rfl).agents⟩
    rw [apply_room store rfl]
    exact hOne name i _ fun _ => rfl
  | Question name id status at_ =>
    refine ⟨fun i => ?_, (apply_same store rfl).agents⟩
    rw [apply_room store rfl]
    refine hOne name i _ fun r => ?_
    dsimp only
    split
    · rfl
    · split <;> rfl
  | DropPosts name ids =>
    refine ⟨fun i => ?_, (apply_same store rfl).agents⟩
    rw [apply_room store rfl]
    exact hOne name i _ (remove_posts_standing ids)
  | _ => cases h

/-- A room that is there now, from how it stood. -/
theorem SameStanding.room {store store' : Store} (h : SameStanding store store') {name : String}
    {r : Room} (hRoom : store.rooms[name]? = some r) :
    ∃ r', store'.rooms[name]? = some r' ∧ r'.standing = r.standing := by
  have hSame := h.rooms name
  rw [hRoom] at hSame
  exact Option.map_eq_some_iff.mp hSame

/-! ## Agents -/

theorem forget_agents (store : Store) (agent name : String) :
    name ∈ (store.apply (.Forget agent)).agents ↔ agent ≠ name ∧ name ∈ store.agents := by
  show name ∈ (store.forget agent).agents ↔ _
  unfold Store.forget
  cases ha : store.agents[agent]? with
  | none =>
    refine ⟨fun h => ⟨?_, h⟩, And.right⟩
    rintro rfl
    obtain ⟨a, hA⟩ := (BTreeMap.mem_iff_get _ _).mp h
    exact absurd (hA.symm.trans ha) (by simp)
  | some record =>
    dsimp only
    rw [remove_messages_mem]
    exact Std.ExtTreeMap.mem_erase.trans (and_congr_left fun _ => by simp)

theorem agent_agents (store : Store) (agent : String) (at_ : Nat) (name : String) :
    name ∈ (store.apply (.Agent agent at_)).agents ↔ agent = name ∨ name ∈ store.agents := by
  unfold Store.apply
  dsimp only
  split
  · next hMem =>
    refine ⟨.inr, ?_⟩
    rintro (rfl | h)
    · exact hMem
    · exact h
  · exact Std.ExtTreeMap.mem_insert.trans (or_congr_left (by simp))

/-! ## Broadcasts -/

/-- What an effect makes of the broadcast `i`. -/
def Effect.on_broadcast (i : Id) (stored : Option Forum.Broadcast) : Effect → Option Forum.Broadcast
  | .Broadcast b => if b.id = i then some b else stored
  | .DropBroadcasts ids => if i ∈ ids then none else stored
  | _ => stored

theorem remove_broadcasts_get (ids : List Id) (store : Store) (i : Id) :
    (ids.foldl Store.remove_broadcast store).broadcasts[i]? =
      if i ∈ ids then none else store.broadcasts[i]? := by
  induction ids generalizing store with
  | nil => simp
  | cons id ids ih =>
    have hOne : (store.remove_broadcast id).broadcasts = store.broadcasts.erase id := by
      unfold Store.remove_broadcast
      cases hb : store.broadcasts[id]? with
      | none => exact (BTreeMap.erase_of_get_none _ hb).symm
      | some b => rfl
    rw [List.foldl_cons, ih, hOne, BTreeMap.get_erase]
    by_cases hIds : i ∈ ids
    · simp [hIds]
    · by_cases hi : id = i
      · simp [hi]
      · simp [hIds, hi, Ne.symm hi]

theorem remove_messages_broadcasts (ids : List Id) (store : Store) :
    (ids.foldl Store.remove_message store).broadcasts = store.broadcasts := by
  induction ids generalizing store with
  | nil => rfl
  | cons id ids ih =>
    rw [List.foldl_cons, ih]
    unfold Store.remove_message
    cases store.messages[id]? <;> rfl

theorem with_message_broadcasts (store : Store) (id : Id) (change : Message → Message) :
    (store.with_message id change).broadcasts = store.broadcasts := by
  unfold Store.with_message
  cases store.messages[id]? <;> rfl

theorem with_room_broadcasts (store : Store) (name : String) (change : Room → Room) :
    (store.with_room name change).broadcasts = store.broadcasts := by
  unfold Store.with_room
  cases store.rooms[name]? <;> rfl

theorem remove_posts_broadcasts (name : String) (ids : List Id) (store : Store) :
    (ids.foldl (fun store id => store.remove_post name id) store).broadcasts = store.broadcasts := by
  induction ids generalizing store with
  | nil => rfl
  | cons id ids ih =>
    rw [List.foldl_cons, ih]
    unfold Store.remove_post
    cases store.rooms[name]? <;> rfl

/-- **What an effect makes of a broadcast depends on that broadcast alone.** -/
theorem apply_broadcast (store : Store) {effect : Effect} (h : effect.is_rename = false) (i : Id) :
    (store.apply effect).broadcasts[i]? = effect.on_broadcast i store.broadcasts[i]? := by
  cases effect with
  | Rename => cases h
  | Agent name at_ =>
    unfold Store.apply
    dsimp only
    split <;> rfl
  | Message m =>
    unfold Store.apply
    dsimp only
    cases store.messages[m.id]? <;> rfl
  | Lease | Settle =>
    show (store.with_message _ _).broadcasts[i]? = _
    rw [with_message_broadcasts]
    rfl
  | Drop ids =>
    show (ids.foldl Store.remove_message store).broadcasts[i]? = _
    rw [remove_messages_broadcasts]
    rfl
  | Broadcast b =>
    show (store.broadcasts.insert b.id b)[i]? = if b.id = i then some b else store.broadcasts[i]?
    rw [BTreeMap.get_insert]
    split <;> rfl
  | DropBroadcasts ids => exact remove_broadcasts_get ids store i
  | Cursor agent id =>
    unfold Store.apply
    dsimp only
    cases store.agents[agent]? <;> rfl
  | Forget agent =>
    show (store.forget agent).broadcasts[i]? = store.broadcasts[i]?
    unfold Store.forget
    cases store.agents[agent]? with
    | none => rfl
    | some record =>
      dsimp only
      rw [remove_messages_broadcasts]
  | Room | DropRoom => rfl
  | Post name post =>
    unfold Store.apply
    dsimp only
    cases store.rooms[name]? <;> rfl
  | DropPosts name ids =>
    show (ids.foldl (fun store id => store.remove_post name id) store).broadcasts[i]? = _
    rw [remove_posts_broadcasts]
    rfl
  | Member | RoomCursor | Question | Topic | Close | Board =>
    show (store.with_room _ _).broadcasts[i]? = _
    rw [with_room_broadcasts]
    rfl

/-! ## Records of agents -/

/-- An agent's record but for its inbox, and what its messages contribute. -/
def Agent.record (a : Agent) : Agent :=
  { name := a.name, created := a.created, last_seen := a.last_seen, cursor := a.cursor }

def record_of (agents : BTreeMap String Agent) (name : String) : Option Agent :=
  (agents[name]?).map Agent.record

theorem record_of_insert (agents : BTreeMap String Agent) (k : String) (a : Agent) (name : String) :
    record_of (agents.insert k a) name = if k = name then some a.record else record_of agents name := by
  unfold record_of
  rw [BTreeMap.get_insert]
  split <;> rfl

theorem record_of_erase (agents : BTreeMap String Agent) (k name : String) :
    record_of (agents.erase k) name = if k = name then none else record_of agents name := by
  unfold record_of
  rw [BTreeMap.get_erase]
  split <;> rfl

/-- Tracking a message changes no record. -/
theorem record_of_track (agents : BTreeMap String Agent) (due : Due) (m : Message) (add : Bool)
    (name : String) : record_of (track agents due m add).1 name = record_of agents name := by
  unfold record_of
  rw [track_get]
  split
  · rw [Option.map_map]
    rfl
  · rfl

theorem record_of_remove_messages (ids : List Id) (store : Store) (name : String) :
    record_of (ids.foldl Store.remove_message store).agents name = record_of store.agents name := by
  induction ids generalizing store with
  | nil => rfl
  | cons id ids ih =>
    rw [List.foldl_cons, ih]
    cases hm : store.messages[id]? with
    | none =>
      unfold Store.remove_message
      rw [hm]
    | some m =>
      unfold record_of
      rw [remove_message_get store id hm]
      split
      · rw [Option.map_map]
        rfl
      · rfl

theorem record_of_with_message (store : Store) (id : Id) (change : Message → Message) (name : String) :
    record_of (store.with_message id change).agents name = record_of store.agents name := by
  unfold Store.with_message
  cases store.messages[id]? with
  | none => rfl
  | some m => exact (record_of_track _ _ _ true name).trans (record_of_track _ _ _ false name)

/-- The agents a message is put to, with its recipient there and holding it. -/
theorem message_agents (store : Store) (m : Message) :
    ∃ agents due, (∀ name, record_of agents name = record_of store.agents name) ∧
      (store.apply (.Message m)).agents = (track (agents.insert m.to_
        { (agents[m.to_]?).getD (.new m.to_ m.created) with
          inbox := ((agents[m.to_]?).getD (.new m.to_ m.created)).inbox.insert m.id }) due m true).1 := by
  unfold Store.apply
  dsimp only
  cases store.messages[m.id]? with
  | none => exact ⟨store.agents, store.due, fun _ => rfl, rfl⟩
  | some old => exact ⟨_, _, record_of_track store.agents store.due old false, rfl⟩

/-- What an effect makes of the record of `name`. -/
def Effect.on_record (name : String) (record : Option Forum.Agent) : Effect → Option Forum.Agent
  | .Agent agent at_ => if agent = name then some (record.getD (.new agent at_)) else record
  | .Message m => if m.to_ = name then some (record.getD (.new m.to_ m.created)) else record
  | .Cursor agent id => if agent = name then record.map fun a => { a with cursor := some id } else record
  | .Forget agent => if agent = name then none else record
  | _ => record

/-- **What an effect makes of an agent's record depends on that record alone.** -/
theorem apply_record (store : Store) {effect : Effect} (hRename : effect.is_rename = false)
    (name : String) : record_of (store.apply effect).agents name =
      effect.on_record name (record_of store.agents name) := by
  cases effect with
  | Rename => cases hRename
  | Agent agent at_ =>
    unfold Store.apply Effect.on_record
    dsimp only
    split
    · next hMem =>
      obtain ⟨a, ha⟩ := (BTreeMap.mem_iff_get _ _).mp hMem
      split
      · next hName =>
        subst hName
        unfold record_of
        rw [ha]
        rfl
      · rfl
    · next hNew =>
      rw [record_of_insert]
      split
      · next hName =>
        subst hName
        unfold record_of
        rw [Std.ExtTreeMap.getElem?_eq_none hNew]
        rfl
      · rfl
  -- a message makes its recipient an agent
  | Message m =>
    obtain ⟨agents, due, hSame, hAgents⟩ := message_agents store m
    rw [hAgents, record_of_track, record_of_insert, ← hSame name]
    unfold Effect.on_record
    dsimp only
    split
    · next hTo =>
      subst hTo
      unfold record_of
      cases agents[m.to_]? <;> rfl
    · rfl
  | Lease => exact record_of_with_message store _ _ name
  | Settle => exact record_of_with_message store _ _ name
  | Drop ids => exact record_of_remove_messages ids store name
  | Cursor agent id =>
    unfold Store.apply Effect.on_record
    dsimp only
    cases ha : store.agents[agent]? with
    | none =>
      dsimp only
      split
      · next hName =>
        subst hName
        unfold record_of
        rw [ha]
        rfl
      · rfl
    | some record =>
      dsimp only
      rw [record_of_insert]
      split
      · next hName =>
        subst hName
        unfold record_of
        rw [ha]
        rfl
      · rfl
  | Forget agent =>
    show record_of (store.forget agent).agents name = if agent = name then none else _
    unfold Store.forget
    cases ha : store.agents[agent]? with
    | none =>
      dsimp only
      split
      · next hName =>
        subst hName
        unfold record_of
        rw [ha]
        rfl
      · rfl
    | some record =>
      dsimp only
      rw [record_of_remove_messages]
      exact record_of_erase _ _ _
  | Broadcast | DropBroadcasts | Room | Post | DropPosts | DropRoom | Member | RoomCursor | Question |
    Topic | Close | Board =>
    rw [(apply_same store rfl).agents]
    rfl

/-! ## Cursors of agents -/

/-- What the agent `name` has read of the broadcasts, if there is one. -/
def cursor_of (agents : BTreeMap String Agent) (name : String) : Option (Option Id) :=
  (agents[name]?).map Agent.cursor

theorem cursor_of_eq (agents : BTreeMap String Agent) (name : String) :
    cursor_of agents name = (record_of agents name).map Agent.cursor := by
  unfold cursor_of record_of
  rw [Option.map_map]
  rfl

theorem cursor_of_insert (agents : BTreeMap String Agent) (k : String) (a : Agent) (name : String) :
    cursor_of (agents.insert k a) name = if k = name then some a.cursor else cursor_of agents name := by
  unfold cursor_of
  rw [BTreeMap.get_insert]
  split <;> rfl

theorem cursor_of_erase (agents : BTreeMap String Agent) (k name : String) :
    cursor_of (agents.erase k) name = if k = name then none else cursor_of agents name := by
  unfold cursor_of
  rw [BTreeMap.get_erase]
  split <;> rfl

/-- Tracking a message moves no cursor. -/
theorem cursor_of_track (agents : BTreeMap String Agent) (due : Due) (m : Message) (add : Bool)
    (name : String) : cursor_of (track agents due m add).1 name = cursor_of agents name := by
  rw [cursor_of_eq, cursor_of_eq, record_of_track]

/-- What an effect makes of what `name` has read. -/
def Effect.on_cursor (name : String) (read : Option (Option Id)) : Effect → Option (Option Id)
  | .Agent agent _ => if agent = name then some (read.getD none) else read
  | .Message m => if m.to_ = name then some (read.getD none) else read
  | .Cursor agent id => if agent = name then read.map fun _ => some id else read
  | .Forget agent => if agent = name then none else read
  | _ => read

/-- **What an agent has read of the broadcasts moves by its `Cursor` alone.** -/
theorem apply_cursor (store : Store) {effect : Effect} (hRename : effect.is_rename = false)
    (name : String) : cursor_of (store.apply effect).agents name =
      effect.on_cursor name (cursor_of store.agents name) := by
  rw [cursor_of_eq, cursor_of_eq, apply_record store hRename]
  unfold Effect.on_record Effect.on_cursor
  cases effect with
  | Agent | Message | Cursor | Forget =>
    dsimp only
    split
    · cases record_of store.agents name <;> rfl
    · rfl
  | _ => rfl

/-! ## Ids -/

/-- What a rebuild of the inboxes leaves as it is. -/
structure SameBeside (store store' : Store) : Prop where
  last_id : store'.last_id = store.last_id
  messages : store'.messages = store.messages
  broadcasts : store'.broadcasts = store.broadcasts
  rooms : store'.rooms = store.rooms
  cursors : ∀ name, cursor_of store'.agents name = cursor_of store.agents name

theorem retrack_beside (store : Store) : SameBeside store store.retrack := by
  have hEach : ∀ (messages : List (Id × Message)) (start : Store), SameBeside store start →
      SameBeside store (messages.foldl (fun store m => store.track m.2 true) start) := by
    intro messages
    induction messages with
    | nil => exact fun _ => id
    | cons m messages ih =>
      exact fun start h => ih (start.track m.2 true)
        { h with cursors := fun name => (cursor_of_track _ _ _ true name).trans (h.cursors name) }
  refine hEach _ _ ⟨rfl, rfl, rfl, rfl, fun name => ?_⟩
  unfold cursor_of
  rw [Std.ExtTreeMap.getElem?_map, Option.map_map]
  rfl

/-- **The last id never goes back.** -/
theorem apply_last_id (store : Store) (effect : Effect) :
    store.last_id ≤ (store.apply effect).last_id := by
  cases effect with
  | Agent name at_ =>
    unfold Store.apply
    dsimp only
    split <;> exact le_rfl
  | Message m =>
    unfold Store.apply
    dsimp only
    cases store.messages[m.id]? <;> exact le_max_left _ _
  | Lease => exact (with_message_last_id store _ _).ge
  | Settle => exact (with_message_last_id store _ _).ge
  | Drop ids => exact (remove_messages_last_id ids store).ge
  | Cursor agent id =>
    unfold Store.apply
    dsimp only
    split <;> exact le_rfl
  | Rename from_ to_ =>
    show _ ≤ (store.rename from_ to_).last_id
    unfold Store.rename
    split
    · exact le_rfl
    · dsimp only
      rw [(retrack_beside _).last_id]
      exact le_rfl
  | Forget agent =>
    show _ ≤ (store.forget agent).last_id
    unfold Store.forget
    split
    · dsimp only
      rw [remove_messages_last_id]
    · exact le_rfl
  | Broadcast | DropBroadcasts | Room | Post | DropPosts | DropRoom | Member | RoomCursor | Question |
    Topic | Close | Board => exact (apply_same store rfl).last_id

/-! ## Which rooms are there -/

/-- Whether an effect makes a room, or takes one away. -/
def Effect.of_rooms : Effect → Bool
  | .Room _ | .DropRoom _ => true
  | _ => false

/-- Rooms come and go by themselves alone. -/
theorem apply_rooms_mem (store : Store) {effect : Effect} (h : effect.of_rooms = false) (i : String) :
    i ∈ (store.apply effect).rooms ↔ i ∈ store.rooms := by
  have hSome : ∀ {a b : Option Forum.Room}, a.isSome = b.isSome → (a.isSome = true ↔ b.isSome = true) :=
    fun h => by rw [h]
  rw [Std.ExtTreeMap.mem_iff_isSome_getElem?, Std.ExtTreeMap.mem_iff_isSome_getElem?]
  refine hSome ?_
  cases effect with
  | Rename from_ to_ =>
    show ((store.rename from_ to_).rooms[i]?).isSome = _
    unfold Store.rename
    cases store.agents[from_]? with
    | none => rfl
    | some agent =>
      dsimp only
      rw [(retrack_beside _).rooms]
      show ((store.rooms.map fun _ r => r.rename from_ to_)[i]?).isSome = _
      rw [Std.ExtTreeMap.getElem?_map, Option.isSome_map]
  | Room => cases h
  | DropRoom => cases h
  | Forget agent =>
    rw [apply_room store rfl]
    exact Option.isSome_map
  | Member | RoomCursor | Post | Question | DropPosts | Topic | Close | Board =>
    rw [apply_room store rfl]
    show (on_one _ i _ store.rooms[i]?).isSome = _
    unfold on_one
    split
    · exact Option.isSome_map
    · rfl
  | Agent | Message | Lease | Settle | Drop | Broadcast | DropBroadcasts | Cursor =>
    rw [apply_room store rfl]
    rfl

/-! ## Messages -/

/-- What of a message no change to it touches. -/
structure SameLetter (m m' : Message) : Prop where
  id : m'.id = m.id
  from_ : m'.from_ = m.from_
  to_ : m'.to_ = m.to_
  key : m'.key = m.key

theorem SameLetter.refl (m : Message) : SameLetter m m := ⟨rfl, rfl, rfl, rfl⟩

theorem with_message_of {store : Store} {id i : Id} {change : Message → Message} {m' : Message}
    (h : (store.with_message id change).messages[i]? = some m') (hChange : ∀ m, SameLetter m (change m)) :
    ∃ m, store.messages[i]? = some m ∧ SameLetter m m' := by
  unfold Store.with_message at h
  cases hm : store.messages[id]? with
  | none =>
    rw [hm] at h
    exact ⟨m', h, .refl m'⟩
  | some m =>
    rw [hm] at h
    have h : (store.messages.insert id (change m))[i]? = some m' := h
    rw [BTreeMap.get_insert] at h
    split at h
    · next hi =>
      cases h
      exact ⟨m, hi ▸ hm, hChange m⟩
    · exact ⟨m', h, .refl m'⟩

theorem remove_messages_of {store : Store} {ids : List Id} {i : Id} {m' : Message}
    (h : (ids.foldl Store.remove_message store).messages[i]? = some m') :
    store.messages[i]? = some m' := by
  rw [remove_messages_get] at h
  split at h
  · cases h
  · exact h

/-- **A message that is there was there before, or is the one that came.** -/
theorem apply_message_of {store : Store} {effect : Effect} (hRename : effect.is_rename = false)
    {i : Id} {m' : Message} (h : (store.apply effect).messages[i]? = some m') :
    (effect = .Message m' ∧ m'.id = i) ∨ ∃ m, store.messages[i]? = some m ∧ SameLetter m m' := by
  have hSame : store.messages[i]? = some m' → ∃ m, store.messages[i]? = some m ∧ SameLetter m m' :=
    fun h => ⟨m', h, .refl m'⟩
  cases effect with
  | Rename => cases hRename
  | Agent name at_ =>
    refine .inr (hSame ?_)
    unfold Store.apply at h
    dsimp only at h
    split at h <;> exact h
  | Message m =>
    have h : (store.messages.insert m.id m)[i]? = some m' := by
      unfold Store.apply at h
      dsimp only at h
      cases hOld : store.messages[m.id]? with
      | none =>
        rw [hOld] at h
        exact h
      | some old =>
        rw [hOld] at h
        exact h
    rw [BTreeMap.get_insert] at h
    split at h
    · next hi =>
      cases h
      exact .inl ⟨rfl, hi⟩
    · exact .inr (hSame h)
  -- a lease or a settlement leaves what the letter says
  | Lease => exact .inr (with_message_of h fun m => ⟨rfl, rfl, rfl, rfl⟩)
  | Settle => exact .inr (with_message_of h fun m => ⟨rfl, rfl, rfl, rfl⟩)
  | Drop ids => exact .inr (hSame (remove_messages_of h))
  | Cursor agent id =>
    refine .inr (hSame ?_)
    unfold Store.apply at h
    dsimp only at h
    split at h <;> exact h
  | Forget agent =>
    refine .inr (hSame ?_)
    have h : (store.forget agent).messages[i]? = some m' := h
    unfold Store.forget at h
    split at h
    · dsimp only at h
      rw [remove_messages_get] at h
      split at h
      · cases h
      · exact h
    · exact h
  | Broadcast | DropBroadcasts | Room | Post | DropPosts | DropRoom | Member | RoomCursor | Question |
    Topic | Close | Board =>
    rw [(apply_same store rfl).messages] at h
    exact .inr (hSame h)

end Postino.Forum
