import Postino.Captured
import Postino.Forum.Frames

/-!
# A snapshot of the whole store

The three captures of a snapshot run together: the rooms, the messages and the keyspace,
each holding back what has changed since. The parts are taken from them in that order.

* `Effect.room_changes`, `Effect.message_changes` — what an effect does to the captured
  maps, and that the store says the same;
* `Captures` — a store with its three captures;
* `Snapshotting` — the invariant: which parts came from which capture;
* `snapshot_of_one_moment` — the result.
-/

namespace Postino.Forum

open Lib

/-! ## What an effect does to the captured maps -/

/-- The changes an effect makes to the rooms. -/
def Effect.room_changes (store : Store) : Effect → List (Change String Forum.Room)
  | .Forget agent => [.values_mut fun _ r => { r with members := r.members.erase agent }]
  | .Rename from_ to_ =>
    match store.agents[from_]? with
    | some _ => [.values_mut fun _ r => r.rename from_ to_]
    | none => []
  | .Room room =>
    let open_ := (room.posts.toList.filter fun p => p.2.is_open_question).map fun p => p.2.id
    [.insert room.name { room with open_ := .ofList open_ }]
  | .Member name agent member =>
    [.get_mut name fun r =>
      { r with members := match member with
          | some member => r.members.insert agent member
          | none => r.members.erase agent }]
  | .RoomCursor name agent id =>
    [.get_mut name fun r =>
      match r.members[agent]? with
      | some member => { r with members := r.members.insert agent { member with cursor := some id } }
      | none => r]
  | .Post name post =>
    [.get_mut name fun r =>
      { r with
        open_ := if post.is_open_question then r.open_.insert post.id else r.open_
        posts := r.posts.insert post.id post }]
  | .Question name id status at_ =>
    [.get_mut name fun r =>
      match r.posts[id]? with
      | none => r
      | some post =>
        match post.ask with
        | none => r
        | some ask =>
          let ask := { ask with status, closed := if status = .Open then none else some at_ }
          { r with
            posts := r.posts.insert id { post with ask := some ask }
            open_ := if status = .Open then r.open_.insert id else r.open_.erase id }]
  | .DropPosts name ids => [.get_mut name fun r => ids.foldl Forum.Room.remove_post r]
  | .Topic name topic => [.get_mut name fun r => { r with topic }]
  | .Close name at_ => [.get_mut name fun r => { r with closed := at_ }]
  | .Board name key entry =>
    [.get_mut name fun r =>
      { r with board := match entry with
          | some entry => r.board.insert key entry
          | none => r.board.erase key }]
  | .DropRoom name => [.remove name]
  | _ => []

/-- The changes an effect makes to the messages. -/
def Effect.message_changes (store : Store) : Effect → List (Change Id Forum.Message)
  | .Message message => [.insert message.id message]
  | .Lease id consumer token at_ until_ =>
    [.get_mut id fun message =>
      { message with
        state := .Leased
        deliveries := message.deliveries + 1
        settled := none
        lease := some { consumer, token, at_, until_ } }]
  | .Settle id state at_ =>
    [.get_mut id fun message =>
      { message with state, settled := if state.is_pending then none else some at_ }]
  | .Drop ids => ids.map .remove
  | .Forget agent =>
    match store.agents[agent]? with
    | some record => record.inbox.toList.map .remove
    | none => []
  | .Rename from_ to_ =>
    match store.agents[from_]? with
    | some _ =>
      [.values_mut fun _ m => { m with to_ := renamed from_ to_ m.to_, from_ := renamed from_ to_ m.from_ }]
    | none => []
  | _ => []

theorem get_mut_get (rooms : BTreeMap String Room) (name i : String) (change : Room → Room) :
    ((Change.get_mut name change).apply rooms)[i]? = on_one name i change rooms[i]? := by
  simp only [Change.apply, on_one]
  split
  · next room hRoom =>
    rw [BTreeMap.get_insert]
    split
    · next hi =>
      subst hi
      rw [hRoom]
      rfl
    · rfl
  · next hRoom =>
    split
    · next hi =>
      subst hi
      rw [hRoom]
      rfl
    · rfl

/-- **The changes of the rooms are what the effect makes of them.** -/
theorem room_changes_eq (store : Store) (effect : Effect) :
    (effect.room_changes store).foldl Change.apply store.rooms = (store.apply effect).rooms := by
  by_cases hRename : effect.is_rename = true
  · cases effect with
    | Rename from_ to_ =>
      show _ = (store.rename from_ to_).rooms
      cases hAgent : store.agents[from_]? with
      | none => simp only [Effect.room_changes, Store.rename, hAgent, List.foldl_nil]
      | some agent =>
        simp only [Effect.room_changes, Store.rename, hAgent]
        rw [(retrack_beside _).rooms]
        rfl
    | _ => cases hRename
  · refine BTreeMap.ext_get fun i => ?_
    rw [apply_room store (by simpa using hRename)]
    cases effect with
    | Rename => exact absurd rfl hRename
    | Forget agent => exact Std.ExtTreeMap.getElem?_map
    | Room room => exact BTreeMap.get_insert _ _ _ _
    | DropRoom name => exact BTreeMap.get_erase _ _ _
    | Member | RoomCursor | Post | Question | DropPosts | Topic | Close | Board => exact get_mut_get _ _ i _
    | _ => rfl

theorem with_message_messages (store : Store) (id : Id) (change : Message → Message) :
    (store.with_message id change).messages = (Change.get_mut id change).apply store.messages := by
  simp only [Store.with_message, Change.apply]
  cases store.messages[id]? <;> rfl

theorem remove_messages_messages (ids : List Id) (store : Store) :
    (ids.foldl Store.remove_message store).messages =
      (ids.map Change.remove).foldl Change.apply store.messages := by
  induction ids generalizing store with
  | nil => rfl
  | cons id ids ih =>
    rw [List.foldl_cons, ih, List.map_cons, List.foldl_cons]
    congr 1
    unfold Store.remove_message
    cases hMessage : store.messages[id]? with
    | none => exact (BTreeMap.erase_of_get_none _ hMessage).symm
    | some message => rfl

/-- **The changes of the messages are what the effect makes of them.** -/
theorem message_changes_eq (store : Store) (effect : Effect) :
    (effect.message_changes store).foldl Change.apply store.messages = (store.apply effect).messages := by
  cases effect with
  | Message m =>
    unfold Store.apply
    dsimp only
    cases store.messages[m.id]? <;> rfl
  | Lease => exact (with_message_messages store _ _).symm
  | Settle => exact (with_message_messages store _ _).symm
  | Drop ids => exact (remove_messages_messages ids store).symm
  | Forget agent =>
    show _ = (store.forget agent).messages
    cases hAgent : store.agents[agent]? with
    | none => simp only [Effect.message_changes, Store.forget, hAgent, List.foldl_nil]
    | some record =>
      simp only [Effect.message_changes, Store.forget, hAgent]
      exact (remove_messages_messages _ { store with agents := store.agents.erase agent }).symm
  | Rename from_ to_ =>
    show _ = (store.rename from_ to_).messages
    cases hAgent : store.agents[from_]? with
    | none => simp only [Effect.message_changes, Store.rename, hAgent, List.foldl_nil]
    | some agent =>
      simp only [Effect.message_changes, Store.rename, hAgent]
      rw [(retrack_beside _).messages]
      rfl
  | Agent name at_ =>
    unfold Store.apply
    dsimp only
    split <;> rfl
  | Cursor agent id =>
    unfold Store.apply
    dsimp only
    split <;> rfl
  | Broadcast | DropBroadcasts | Room | Member | RoomCursor | Post | Question | DropPosts | Topic | Close
    | Board | DropRoom => exact (apply_same store rfl).messages.symm

/-! ## A store with its captures -/

variable [Json] [Serialize Room] [Serialize Message]

/-- A store whose rooms, messages and keyspace may be captured while it changes. -/
structure Captures where
  store : Store
  rooms : Captured String Room
  messages : Captured Id Message
  db : Db
  rooms_held : rooms.map = store.rooms
  messages_held : messages.map = store.messages

namespace Captures

/-- A store no capture of which is in progress. -/
def of (store : Store) (db : Db) : Captures where
  store
  rooms := { map := store.rooms }
  messages := { map := store.messages }
  db
  rooms_held := rfl
  messages_held := rfl

/-- Starts a capture of the rooms, the messages and the keyspace as they are now, in that
order, after `head`, which holds what comes before them inside the same object. -/
def begin_capture (c : Captures) (head : Bytes) : Captures :=
  { c with
    rooms := c.rooms.begin_capture (head ++ ",\"rooms\":[".toUTF8.toList)
    messages := c.messages.begin_capture "],\"messages\":[".toUTF8.toList
    db := (c.db.begin_capture "],\"keys\":\x7b".toUTF8.toList).2 }

/-- Writes the next run of the capture, about `budget` bytes of it. Returns whether all
of it is written. -/
def capture_step (c : Captures) (budget : WithTop Nat) : Bool × Captures :=
  let rooms := c.rooms.capture_step budget
  let c := { c with
    rooms := rooms.2
    rooms_held := (Captured.map_capture_step c.rooms budget).trans c.rooms_held }
  if !rooms.1 then (false, c)
  else
    let messages := c.messages.capture_step budget
    let c := { c with
      messages := messages.2
      messages_held := (Captured.map_capture_step c.messages budget).trans c.messages_held }
    if !messages.1 then (false, c)
    else
      let db := c.db.capture_step budget
      (db.1, { c with db := db.2 })

/-- The parts of the capture ready to be written out, in order: none of one before all of
the one ahead of it. -/
def drain_capture (c : Captures) : Except String (List Bytes) × Captures :=
  let rooms := c.rooms.drain_capture
  let c := { c with
    rooms := rooms.2
    rooms_held := (Captured.map_drain_capture c.rooms).trans c.rooms_held }
  match rooms.1 with
  | .error e => (.error e, c)
  | .ok (parts, false) => (.ok parts, c)
  | .ok (parts, true) =>
    let messages := c.messages.drain_capture
    let c := { c with
      messages := messages.2
      messages_held := (Captured.map_drain_capture c.messages).trans c.messages_held }
    match messages.1 with
    | .error e => (.error e, c)
    | .ok (more, false) => (.ok (parts ++ more), c)
    | .ok (more, true) =>
      let db := c.db.drain_capture
      (.ok (parts ++ more ++ db.1), { c with db := db.2 })

/-- Ends the capture, writing whatever it has not reached, and returns the rest of it,
the keyspace closed. -/
def end_capture (c : Captures) : Except String (List Bytes) × Captures :=
  let rooms := c.rooms.end_capture
  let c := { c with
    rooms := rooms.2
    rooms_held := (Captured.map_end_capture c.rooms).trans c.rooms_held }
  match rooms.1 with
  | .error e => (.error e, c)
  | .ok parts =>
    let messages := c.messages.end_capture
    let c := { c with
      messages := messages.2
      messages_held := (Captured.map_end_capture c.messages).trans c.messages_held }
    match messages.1 with
    | .error e => (.error e, c)
    | .ok more =>
      let db := c.db.end_capture
      match db.1 with
      | .error e => (.error e, { c with db := db.2 })
      | .ok keys => (.ok (parts ++ more ++ keys), { c with db := db.2 })

/-- Applies an effect, whose changes to the rooms and the messages go through the
captured maps. -/
def apply (c : Captures) (effect : Effect) : Captures where
  store := c.store.apply effect
  rooms := (effect.room_changes c.store).foldl Captured.change c.rooms
  messages := (effect.message_changes c.store).foldl Captured.change c.messages
  db := c.db
  rooms_held := by rw [Captured.map_changes, c.rooms_held, room_changes_eq]
  messages_held := by rw [Captured.map_changes, c.messages_held, message_changes_eq]

/-- What may happen during a capture: a change, of the forum or of a key, or a turn of
the snapshot. -/
inductive Op where
  | apply (effect : Effect)
  | keyspace (op : CaptureOp) (changes : op.drains = false)
  | capture_step (budget : WithTop Nat)
  | drain_capture

/-- One operation; only `drain_capture` hands out parts. -/
def Op.run (c : Captures) : Op → List Bytes × Captures
  | .apply effect => ([], c.apply effect)
  | .keyspace op _ => ([], { c with db := (op.run c.db).2 })
  | .capture_step budget => ([], (c.capture_step budget).2)
  | .drain_capture =>
    match c.drain_capture with
    | (.ok parts, c) => (parts, c)
    | (.error _, c) => ([], c)

/-- Operations one after another, and the parts they hand out in order. -/
def run_ops : List Op → Captures → List Bytes × Captures
  | [], c => ([], c)
  | op :: ops, c =>
    let (drained, c) := op.run c
    let (more, c) := run_ops ops c
    (drained ++ more, c)

/-- The texts of the keys of `orig` and their entries, each once. -/
def Keys (orig : BTreeMap String Postino.Entry) (texts : List Bytes) : Prop :=
  ∃ pairs : List (String × Postino.Entry), pairs.Perm orig.toList ∧ pairs.map pairText = texts.map some

/-! ## Which parts come from which capture -/

variable {rooms : BTreeMap String Room} {messages : BTreeMap Id Message} {keys : BTreeMap String Postino.Entry}
  {head : Bytes} {drained : List Bytes} {c : Captures}

/-- The parts handed out are those of the rooms, then those of the messages, then those of
the keys: none of one while the one ahead of it is in progress. -/
structure Snapshotting (rooms : BTreeMap String Room) (messages : BTreeMap Id Message)
    (keys : BTreeMap String Postino.Entry) (head : Bytes) (ofRooms ofMessages ofKeys : List Bytes)
    (c : Captures) : Prop where
  rooms : Captured.Capturing rooms (head ++ ",\"rooms\":[".toUTF8.toList) ofRooms c.rooms
  messages : Captured.Capturing messages "],\"messages\":[".toUTF8.toList ofMessages c.messages
  keys : Postino.Capturing keys "],\"keys\":\x7b".toUTF8.toList ofKeys c.db
  after_rooms : c.rooms.capture ≠ none → ofMessages = [] ∧ ofKeys = []
  after_messages : c.messages.capture ≠ none → ofKeys = []

variable {ofRooms ofMessages ofKeys : List Bytes}

theorem snapshotting_begin_capture (c : Captures) (head : Bytes) :
    Snapshotting c.store.rooms c.store.messages c.db.keys head [] [] [] (c.begin_capture head) where
  rooms := c.rooms_held ▸ Captured.capturing_begin_capture c.rooms _
  messages := c.messages_held ▸ Captured.capturing_begin_capture c.messages _
  keys := Postino.capturing_begin_capture c.db _
  after_rooms := fun _ => ⟨rfl, rfl⟩
  after_messages := fun _ => rfl

theorem snapshotting_apply (hRooms : Serialize.Total Room) (hMessages : Serialize.Total Message)
    (h : Snapshotting rooms messages keys head ofRooms ofMessages ofKeys c) (effect : Effect) :
    Snapshotting rooms messages keys head ofRooms ofMessages ofKeys (c.apply effect) where
  rooms := Captured.capturing_changes hRooms h.rooms _
  messages := Captured.capturing_changes hMessages h.messages _
  keys := h.keys
  after_rooms := fun hOpen => h.after_rooms fun hNone => hOpen ((Captured.ended_changes _ _).mpr hNone)
  after_messages := fun hOpen => h.after_messages fun hNone => hOpen ((Captured.ended_changes _ _).mpr hNone)

/-- What changes a key hands out nothing. -/
theorem snapshotting_keyspace (hJson : Json.Total)
    (h : Snapshotting rooms messages keys head ofRooms ofMessages ofKeys c) (op : CaptureOp)
    (hChanges : op.drains = false) :
    Snapshotting rooms messages keys head ofRooms ofMessages ofKeys { c with db := (op.run c.db).2 } := by
  refine { h with keys := ?_ }
  have hOp := capturing_op hJson h.keys op
  have hNothing : (op.run c.db).1 = [] := by
    cases op with
    | drainCapture => cases hChanges
    | getMut key now change =>
      simp only [CaptureOp.run]
      split <;> rfl
    | _ => rfl
  rwa [hNothing, List.append_nil] at hOp

theorem snapshotting_capture_step (hRooms : Serialize.Total Room) (hMessages : Serialize.Total Message)
    (hJson : Json.Total) (h : Snapshotting rooms messages keys head ofRooms ofMessages ofKeys c)
    (budget : WithTop Nat) :
    Snapshotting rooms messages keys head ofRooms ofMessages ofKeys (c.capture_step budget).2 := by
  have hOfRooms := Captured.capturing_capture_step hRooms h.rooms budget
  have hOfMessages := Captured.capturing_capture_step hMessages h.messages budget
  have hOfKeys := Postino.capturing_capture_step hJson h.keys budget
  have hAfterRooms := h.after_rooms
  have hAfterMessages := h.after_messages
  rw [Ne, ← Captured.ended_capture_step c.rooms budget] at hAfterRooms
  rw [Ne, ← Captured.ended_capture_step c.messages budget] at hAfterMessages
  unfold capture_step
  dsimp only
  split
  · exact { h with rooms := hOfRooms, after_rooms := hAfterRooms }
  · split
    · exact ⟨hOfRooms, hOfMessages, h.keys, hAfterRooms, hAfterMessages⟩
    · exact ⟨hOfRooms, hOfMessages, hOfKeys, hAfterRooms, hAfterMessages⟩

/-- **A drain takes up where the one before it stopped.** -/
theorem snapshotting_drain (hRooms : Serialize.Total Room) (hMessages : Serialize.Total Message)
    (hJson : Json.Total) (h : Snapshotting rooms messages keys head ofRooms ofMessages ofKeys c) :
    ∃ moreRooms moreMessages moreKeys, c.drain_capture.1 = .ok (moreRooms ++ moreMessages ++ moreKeys) ∧
      Snapshotting rooms messages keys head (ofRooms ++ moreRooms) (ofMessages ++ moreMessages)
        (ofKeys ++ moreKeys) c.drain_capture.2 ∧
      ofRooms ++ ofMessages ++ ofKeys ++ (moreRooms ++ moreMessages ++ moreKeys) =
        (ofRooms ++ moreRooms) ++ (ofMessages ++ moreMessages) ++ (ofKeys ++ moreKeys) := by
  obtain ⟨partsRooms, endedRooms, hOkRooms, -, hOfRooms, hEndedRooms, hOverRooms⟩ :=
    Captured.capturing_drain hRooms h.rooms
  obtain ⟨partsMessages, endedMessages, hOkMessages, -, hOfMessages, hEndedMessages, hOverMessages⟩ :=
    Captured.capturing_drain hMessages h.messages
  have hOfKeys := capturing_op hJson h.keys .drainCapture
  unfold drain_capture
  dsimp only
  rw [hOkRooms]
  cases endedRooms with
  | false =>
    -- the rooms are not over: nothing of the others has been handed out
    have hOpen : c.rooms.capture ≠ none := fun hNone => by simp [Captured.drain_capture, hNone] at hOkRooms
    obtain ⟨rfl, rfl⟩ := h.after_rooms hOpen
    refine ⟨partsRooms, [], [], by simp, ⟨hOfRooms, h.messages, h.keys, fun _ => ⟨rfl, rfl⟩, fun _ => rfl⟩, by simp⟩
  | true =>
    have hRoomsOver := hEndedRooms.mp rfl
    -- the rooms ended now, or before anything of the others was handed out
    have hFirst : partsRooms = [] ∨ (ofMessages = [] ∧ ofKeys = []) := by
      by_cases hNone : c.rooms.capture = none
      · exact .inl (hOverRooms hNone)
      · exact .inr (h.after_rooms hNone)
    dsimp only
    rw [hOkMessages]
    cases endedMessages with
    | false =>
      have hOpen : c.messages.capture ≠ none := fun hNone => by
        simp [Captured.drain_capture, hNone] at hOkMessages
      obtain rfl := h.after_messages hOpen
      refine ⟨partsRooms, partsMessages, [], by simp, ⟨hOfRooms, hOfMessages, h.keys, ?_, fun _ => rfl⟩, ?_⟩
      · exact fun hStill => absurd hRoomsOver hStill
      · rcases hFirst with rfl | ⟨rfl, -⟩ <;> simp
    | true =>
      have hMessagesOver := hEndedMessages.mp rfl
      -- and so the messages before the keys
      have hSecond : partsMessages = [] ∨ ofKeys = [] := by
        by_cases hNone : c.messages.capture = none
        · exact .inl (hOverMessages hNone)
        · exact .inr (h.after_messages hNone)
      refine ⟨partsRooms, partsMessages, c.db.drain_capture.1, rfl, ⟨hOfRooms, hOfMessages, hOfKeys, ?_, ?_⟩, ?_⟩
      · exact fun hStill => absurd hRoomsOver hStill
      · exact fun hStill => absurd hMessagesOver hStill
      · rcases hFirst with rfl | ⟨rfl, rfl⟩
        · rcases hSecond with rfl | rfl <;> simp
        · simp

theorem snapshotting_op (hRooms : Serialize.Total Room) (hMessages : Serialize.Total Message)
    (hJson : Json.Total) (h : Snapshotting rooms messages keys head ofRooms ofMessages ofKeys c) (op : Op) :
    ∃ ofRooms' ofMessages' ofKeys',
      Snapshotting rooms messages keys head ofRooms' ofMessages' ofKeys' (op.run c).2 ∧
      ofRooms ++ ofMessages ++ ofKeys ++ (op.run c).1 = ofRooms' ++ ofMessages' ++ ofKeys' := by
  cases op with
  | apply effect => exact ⟨_, _, _, snapshotting_apply hRooms hMessages h effect, List.append_nil _⟩
  | keyspace op hChanges => exact ⟨_, _, _, snapshotting_keyspace hJson h op hChanges, List.append_nil _⟩
  | capture_step budget =>
    exact ⟨_, _, _, snapshotting_capture_step hRooms hMessages hJson h budget, List.append_nil _⟩
  | drain_capture =>
    obtain ⟨moreRooms, moreMessages, moreKeys, hOk, hAfter, hParts⟩ :=
      snapshotting_drain hRooms hMessages hJson h
    refine ⟨ofRooms ++ moreRooms, ofMessages ++ moreMessages, ofKeys ++ moreKeys, ?_, ?_⟩
    · simp only [Op.run]
      rcases hDrain : c.drain_capture with ⟨result, c'⟩
      rw [hDrain] at hOk hAfter
      dsimp only at hOk hAfter
      subst hOk
      exact hAfter
    · simp only [Op.run]
      rcases hDrain : c.drain_capture with ⟨result, c'⟩
      rw [hDrain] at hOk
      dsimp only at hOk
      subst hOk
      exact hParts

theorem snapshotting_run_ops (hRooms : Serialize.Total Room) (hMessages : Serialize.Total Message)
    (hJson : Json.Total) (ops : List Op) :
    ∀ (c : Captures) (ofRooms ofMessages ofKeys : List Bytes),
      Snapshotting rooms messages keys head ofRooms ofMessages ofKeys c →
      ∃ ofRooms' ofMessages' ofKeys',
        Snapshotting rooms messages keys head ofRooms' ofMessages' ofKeys' (run_ops ops c).2 ∧
        ofRooms ++ ofMessages ++ ofKeys ++ (run_ops ops c).1 = ofRooms' ++ ofMessages' ++ ofKeys' := by
  induction ops with
  | nil => exact fun c _ _ _ h => ⟨_, _, _, h, List.append_nil _⟩
  | cons op ops ih =>
    intro c ofRooms ofMessages ofKeys h
    obtain ⟨_, _, _, hStep, hParts⟩ := snapshotting_op hRooms hMessages hJson h op
    obtain ⟨_, _, _, hRest, hMore⟩ := ih _ _ _ _ hStep
    refine ⟨_, _, _, hRest, ?_⟩
    rw [← hMore, ← hParts, List.append_assoc _ (op.run c).1]
    rfl

/-- The end of the three captures hands out the rest of each. -/
theorem snapshotting_end (hRooms : Serialize.Total Room) (hMessages : Serialize.Total Message)
    (hJson : Json.Total) (h : Snapshotting rooms messages keys head ofRooms ofMessages ofKeys c) :
    ∃ parts roomTexts messageTexts keyTexts, c.end_capture.1 = .ok parts ∧
      Captured.Listing rooms roomTexts ∧ Captured.Listing messages messageTexts ∧
      Keys keys keyTexts ∧
      (ofRooms ++ ofMessages ++ ofKeys ++ parts).flatten =
        head ++ ",\"rooms\":[".toUTF8.toList ++ objectText roomTexts ++
          "],\"messages\":[".toUTF8.toList ++ objectText messageTexts ++
          "],\"keys\":\x7b".toUTF8.toList ++ objectText keyTexts ++ ['}'.toUInt8] := by
  obtain ⟨partsRooms, hOkRooms, hRoomsOver, -, roomTexts, hRoomTexts, hRoomBytes⟩ :=
    Captured.capturing_end hRooms h.rooms
  obtain ⟨partsMessages, hOkMessages, hMessagesOver, -, messageTexts, hMessageTexts, hMessageBytes⟩ :=
    Captured.capturing_end hMessages h.messages
  obtain ⟨partsKeys, pairs, keyTexts, hOkKeys, hPairs, hKeyTexts, hKeyBytes⟩ := capturing_end hJson h.keys
  refine ⟨partsRooms ++ partsMessages ++ partsKeys, roomTexts, messageTexts, keyTexts, ?_, hRoomTexts,
    hMessageTexts, ⟨pairs, hPairs, hKeyTexts⟩, ?_⟩
  · unfold end_capture
    dsimp only
    rw [hOkRooms]
    dsimp only
    rw [hOkMessages]
    dsimp only
    rw [hOkKeys]
  · -- what a capture that is over still hands out is nothing
    have hOrder : ofRooms ++ ofMessages ++ ofKeys ++ (partsRooms ++ partsMessages ++ partsKeys) =
        (ofRooms ++ partsRooms) ++ (ofMessages ++ partsMessages) ++ (ofKeys ++ partsKeys) := by
      -- the rooms end now or have ended, and then hand out nothing
      have hFirst : partsRooms = [] ∨ (ofMessages = [] ∧ ofKeys = []) := by
        by_cases hNone : c.rooms.capture = none
        · exact .inl (Captured.end_of_ended hNone hOkRooms)
        · exact .inr (h.after_rooms hNone)
      have hSecond : partsMessages = [] ∨ ofKeys = [] := by
        by_cases hNone : c.messages.capture = none
        · exact .inl (Captured.end_of_ended hNone hOkMessages)
        · exact .inr (h.after_messages hNone)
      rcases hFirst with rfl | ⟨rfl, rfl⟩
      · rcases hSecond with rfl | rfl <;> simp
      · simp
    rw [hOrder, List.flatten_append, List.flatten_append, hRoomBytes, hMessageBytes, hKeyBytes]
    simp only [List.append_assoc]

end Captures

/-- **The rooms and messages of a snapshot are those of one moment, in file order.**
A captured map hands out the values it held when the capture began, whatever is done to it
meanwhile; and a store's three captures together hand out all of the rooms, then all of
the messages, then all of the keys. -/
theorem snapshot_of_one_moment (hRooms : Serialize.Total Room) (hMessages : Serialize.Total Message)
    (hJson : Json.Total) :
    (∀ (K V : Type) [LinearOrder K] [Serialize V], Serialize.Total V →
      ∀ (m : Captured K V) (head : Bytes) (ops : List (Captured.Op K V)),
        let run := Captured.run_ops ops (m.begin_capture head)
        (run.2.capture = none → Captured.Complete m.map head run.1) ∧
          ∃ parts, run.2.end_capture.1 = .ok parts ∧ Captured.Complete m.map head (run.1 ++ parts)) ∧
    ∀ (c : Captures) (head : Bytes) (ops : List Captures.Op),
      let run := Captures.run_ops ops (c.begin_capture head)
      ∃ parts roomTexts messageTexts keyTexts, run.2.end_capture.1 = .ok parts ∧
        Captured.Listing c.store.rooms roomTexts ∧ Captured.Listing c.store.messages messageTexts ∧
        Captures.Keys c.db.keys keyTexts ∧
        (run.1 ++ parts).flatten =
          head ++ ",\"rooms\":[".toUTF8.toList ++ objectText roomTexts ++
            "],\"messages\":[".toUTF8.toList ++ objectText messageTexts ++
            "],\"keys\":\x7b".toUTF8.toList ++ objectText keyTexts ++ ['}'.toUInt8] := by
  refine ⟨fun K V _ _ hTotal => Captured.captured_exact hTotal, ?_⟩
  intro c head ops run
  obtain ⟨_, _, _, hRun, hParts⟩ := Captures.snapshotting_run_ops hRooms hMessages hJson ops _ _ _ _
    (Captures.snapshotting_begin_capture c head)
  obtain ⟨parts, hEnd⟩ := Captures.snapshotting_end hRooms hMessages hJson hRun
  refine ⟨parts, ?_⟩
  rw [← hParts] at hEnd
  exact hEnd

/-- The serializer on rooms with no members, board or posts and nothing to escape. -/
@[reducible] def plainRoom : Serialize Room where
  text r :=
    let closed := match r.closed with
      | some at_ => s!",\"closed\":{at_}"
      | none => ""
    some (String.toUTF8 (s!"\x7b\"name\":\"{r.name}\",\"topic\":\"{r.topic}\",\"created\":{r.created}," ++
      s!"\"created_by\":\"{r.created_by}\",\"private\":{r.private_}" ++ closed ++
      ",\"members\":\x7b\x7d,\"board\":\x7b\x7d,\"posts\":\x7b\x7d\x7d")).toList

/-- The serializer on queued messages with no key and nothing to escape. -/
@[reducible] def plainMessage : Serialize Message where
  text m :=
    some (String.toUTF8 (s!"\x7b\"id\":\"{m.id.display}\",\"from\":\"{m.from_}\",\"to\":\"{m.to_}\"," ++
      s!"\"body\":\"{m.body}\",\"created\":{m.created},\"expires\":{m.expires}," ++
      s!"\"thread\":\"{m.thread.display}\",\"state\":\"queued\",\"deliveries\":{m.deliveries}\x7d")).toList

omit [Json] [Serialize Room] [Serialize Message] in
/-- A room's topic changes before the capture comes to it, and every value may change once
the rooms are written. -/
theorem snapshot_of_one_moment_renamed :
    let _ : Json := plainJson
    let _ : Serialize Room := plainRoom
    let _ : Serialize Message := plainMessage
    let hall : Room := { name := "hall", topic := "one", created := 5, created_by := "ann", private_ := false }
    let message : Message :=
      { id := { ms := 7, seq := 0 }, from_ := "ann", to_ := "bob", body := "hi", created := 7, expires := 99
        thread := { ms := 7, seq := 0 }, reply_to := none, key := none, state := .Queued, deliveries := 0
        lease := none, settled := none }
    let store := (({ } : Store).apply (.Room hall)).apply (.Message message)
    let c := Captures.of store { }
    let ops := [.apply (.Topic "hall" "two"), .capture_step 10, .drain_capture, .apply (.Rename "bob" "cy")]
    let run := Captures.run_ops ops (c.begin_capture "\x7b".toUTF8.toList)
    ∃ parts roomTexts messageTexts keyTexts, run.2.end_capture.1 = .ok parts ∧
      Captured.Listing c.store.rooms roomTexts ∧ Captured.Listing c.store.messages messageTexts ∧
      Captures.Keys c.db.keys keyTexts ∧
      (run.1 ++ parts).flatten =
        "\x7b".toUTF8.toList ++ ",\"rooms\":[".toUTF8.toList ++ objectText roomTexts ++
          "],\"messages\":[".toUTF8.toList ++ objectText messageTexts ++
          "],\"keys\":\x7b".toUTF8.toList ++ objectText keyTexts ++ ['}'.toUInt8] := by
  intro json rooms messages hall message store c ops
  exact (@snapshot_of_one_moment json rooms messages (fun _ => rfl) (fun _ => rfl) plainJson_total).2 c _ ops

end Postino.Forum
