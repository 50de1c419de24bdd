import Postino.Forum.Writes

/-!
# Ids in the store

Messages, broadcasts and posts are numbered from one counter, the store's last id.
Every effect an operation may write keeps what is filed under its id, and all ids up
to the last.

* `Orderly.apply` — nothing in the store is numbered above its last
  id.
* `next_id_fresh` — what comes is numbered above everything there.
-/

namespace Postino.Forum

open Lib Fallible

/-! ## Everything is numbered up to the last id -/

/-- A room whose posts are filed under their ids, and that holds no id above
`last`. -/
structure Room.UpTo (room : Room) (last : Id) : Prop where
  posts : ∀ (id : Id) post, room.posts[id]? = some post → post.id = id ∧ id ≤ last
  cursors : ∀ (agent : String) member c, room.members[agent]? = some member →
    member.cursor = some c → c ≤ last

theorem Room.UpTo.mono {room : Room} {last last' : Id} (h : room.UpTo last) (hLast : last ≤ last') :
    room.UpTo last' where
  posts := fun id post hPost => ⟨(h.posts id post hPost).1, (h.posts id post hPost).2.trans hLast⟩
  cursors := fun agent member c hMember hc => (h.cursors agent member c hMember hc).trans hLast

/-- Messages, posts and broadcasts are filed under their ids, and no id is above the
store's last. -/
structure Orderly (store : Store) : Prop where
  messages : ∀ (id : Id) m, store.messages[id]? = some m → m.id = id ∧ id ≤ store.last_id
  rooms : ∀ (name : String) room, store.rooms[name]? = some room → room.UpTo store.last_id
  broadcasts : ∀ (id : Id) b, store.broadcasts[id]? = some b → b.id = id ∧ id ≤ store.last_id
  agents : ∀ name c, cursor_of store.agents name = some (some c) → c ≤ store.last_id

theorem Orderly.empty : Orderly {} where
  messages := fun _ _ h => by simp at h
  rooms := fun _ _ h => by simp at h
  broadcasts := fun _ _ h => by simp at h
  agents := fun _ _ h => by simp [cursor_of] at h

/-- What the reads write: how far was read, which is not past the last id. -/
def ReadUpTo (store : Store) : Effect → Prop
  | .Cursor _ id => id ≤ store.last_id
  | .RoomCursor _ _ id => id ≤ store.last_id
  | _ => False

/-- Whatever an operation may write. -/
def MayWrite (now : Fin (2 ^ 64)) (store : Store) (effect : Effect) : Prop :=
  Writable now .all store effect ∨ ReadUpTo store effect

section

variable {store : Store} {last : Id}

theorem Room.UpTo.insert_post {room : Room} (h : room.UpTo last) {post : Post} (open_ : BTreeSet Id)
    (hPost : post.id ≤ last) :
    ({ room with open_, posts := room.posts.insert post.id post } : Room).UpTo last where
  posts := by
    intro id p hp
    have hp : (room.posts.insert post.id post)[id]? = some p := hp
    rw [BTreeMap.get_insert] at hp
    split at hp
    · next hId =>
      cases hp
      exact ⟨hId, hId ▸ hPost⟩
    · exact h.posts id p hp
  cursors := h.cursors

theorem Room.UpTo.remove_posts {room : Room} (h : room.UpTo last) (ids : List Id) :
    (ids.foldl Room.remove_post room).UpTo last := by
  induction ids generalizing room with
  | nil => exact h
  | cons i ids ih =>
    refine ih ⟨fun id p hp => ?_, h.cursors⟩
    have hp : (room.posts.erase i)[id]? = some p := hp
    rw [BTreeMap.get_erase] at hp
    split at hp
    · cases hp
    · exact h.posts id p hp

theorem Room.UpTo.set_members {room : Room} (h : room.UpTo last) (members : BTreeMap String Member)
    (hMembers : ∀ (agent : String) member c, members[agent]? = some member →
      member.cursor = some c → c ≤ last) : ({ room with members } : Room).UpTo last :=
  ⟨h.posts, hMembers⟩

theorem Room.UpTo.insert_member {room : Room} (h : room.UpTo last) (agent : String)
    {member : Member} (hMember : ∀ c, member.cursor = some c → c ≤ last) :
    ({ room with members := room.members.insert agent member } : Room).UpTo last := by
  refine h.set_members _ fun a m c hm hc => ?_
  rw [BTreeMap.get_insert] at hm
  split at hm
  · cases hm
    exact hMember c hc
  · exact h.cursors a m c hm hc

theorem Room.UpTo.erase_member {room : Room} (h : room.UpTo last) (agent : String) :
    ({ room with members := room.members.erase agent } : Room).UpTo last := by
  refine h.set_members _ fun a m c hm hc => ?_
  rw [BTreeMap.get_erase] at hm
  split at hm
  · cases hm
  · exact h.cursors a m c hm hc

theorem Room.UpTo.rename {room : Room} (h : room.UpTo last) (from_ to_ : String) :
    (room.rename from_ to_).UpTo last where
  posts := by
    intro id p hp
    obtain ⟨old, hOld, rfl⟩ := Option.map_eq_some_iff.mp
      ((Std.ExtTreeMap.getElem?_map (t := room.posts)).symm.trans hp)
    exact h.posts id old hOld
  cursors := by
    have hErase : ∀ (agent : String) member c, (room.members.erase from_)[agent]? = some member →
        member.cursor = some c → c ≤ last := fun agent member c hm =>
      (h.erase_member from_).cursors agent member c hm
    unfold Room.rename
    dsimp only
    cases hFrom : room.members[from_]? with
    | none => exact h.cursors
    | some member =>
      have hMember : ∀ c, member.cursor = some c → c ≤ last := fun c => h.cursors from_ member c hFrom
      dsimp only
      intro agent m c hm hc
      rw [BTreeMap.get_insert] at hm
      split at hm
      · -- the cursor is one of the two, or the later of both
        cases hm
        cases hTo : (room.members.erase from_)[to_]? with
        | none =>
          rw [hTo] at hc
          exact hMember c hc
        | some existing =>
          rw [hTo] at hc
          dsimp only at hc
          cases ha : member.cursor with
          | none =>
            rw [ha] at hc
            exact hErase to_ existing c hTo hc
          | some a =>
            cases hb : existing.cursor with
            | none =>
              rw [ha, hb] at hc
              exact hMember c (ha.trans hc)
            | some b =>
              rw [ha, hb] at hc
              cases hc
              exact max_le (hMember a ha) (hErase to_ existing b hTo hb)
      · exact hErase agent m c hm hc

/-- Where a room after a change to one room comes from. -/
theorem of_on_one {name i : String} {change : Room → Room} {room : Option Room} {r' : Room}
    (h : on_one name i change room = some r') :
    (name = i ∧ ∃ r, room = some r ∧ r' = change r) ∨ room = some r' := by
  unfold on_one at h
  split at h
  · next hName =>
    obtain ⟨r, hr, rfl⟩ := Option.map_eq_some_iff.mp h
    exact .inl ⟨hName, r, hr, rfl⟩
  · exact .inr h

theorem post_last_id (store : Store) (name : String) (post : Post) {r : Room}
    (hRoom : store.rooms[name]? = some r) :
    (store.apply (.Post name post)).last_id = max store.last_id post.id := by
  unfold Store.apply
  dsimp only
  rw [hRoom]

variable {now : Fin (2 ^ 64)} {effect : Effect}

theorem Orderly.apply_rooms (h : Orderly store) (hMay : MayWrite now store effect)
    (hRename : effect.is_rename = false) {i : String} {r' : Room}
    (hr' : (store.apply effect).rooms[i]? = some r') : r'.UpTo (store.apply effect).last_id := by
  have hOld : ∀ r, store.rooms[i]? = some r → r.UpTo (store.apply effect).last_id := fun r hr =>
    (h.rooms i r hr).mono (apply_last_id store effect)
  rw [apply_room store hRename] at hr'
  cases effect with
  | Rename => cases hRename
  | Forget agent =>
    obtain ⟨r, hr, rfl⟩ := Option.map_eq_some_iff.mp hr'
    exact (hOld r hr).erase_member agent
  | Room room =>
    dsimp only [Effect.on_room] at hr'
    split at hr'
    · -- a new room has no posts, and nobody has read any
      cases hr'
      obtain ⟨-, hNone, hUnread⟩ := hMay.resolve_right id
      refine ⟨fun id post hPost => ?_, fun agent member c hMember hc => ?_⟩
      · have hPost : room.posts[id]? = some post := hPost
        rw [hNone] at hPost
        simp at hPost
      · rw [hUnread agent member hMember] at hc
        cases hc
    · exact hOld r' hr'
  | Member name agent member =>
    rcases of_on_one hr' with ⟨rfl, r, hr, rfl⟩ | hr
    · cases member with
      | none => exact (hOld r hr).erase_member agent
      | some member =>
        refine (hOld r hr).insert_member agent fun c hc => ?_
        have hCursor : member.cursor = store.room_cursor name agent := hMay.resolve_right id
        rw [hCursor] at hc
        unfold Store.room_cursor at hc
        rw [hr] at hc
        obtain ⟨m, hm, hc⟩ := Option.bind_eq_some_iff.mp hc
        exact (hOld r hr).cursors agent m c hm hc
    · exact hOld r' hr
  -- a cursor goes to an id that is taken
  | RoomCursor name agent id =>
    rcases of_on_one hr' with ⟨rfl, r, hr, rfl⟩ | hr
    · split
      · refine (hOld r hr).insert_member agent ?_
        rintro c ⟨⟩
        have hUpTo : id ≤ store.last_id := hMay.resolve_left fun hNot => hNot
        exact hUpTo.trans (apply_last_id store _)
      · exact hOld r hr
    · exact hOld r' hr
  -- a post raises the last id to its own
  | Post name post =>
    rcases of_on_one hr' with ⟨rfl, r, hr, rfl⟩ | hr
    · refine (hOld r hr).insert_post _ ?_
      rw [post_last_id store name post hr]
      exact le_max_right _ _
    · exact hOld r' hr
  | Question name id status at_ =>
    rcases of_on_one hr' with ⟨rfl, r, hr, rfl⟩ | hr
    · dsimp only
      split
      · exact hOld r hr
      · next post hPost =>
        split
        · exact hOld r hr
        · obtain ⟨rfl, hId⟩ := (hOld r hr).posts id post hPost
          exact @Room.UpTo.insert_post _ r (hOld r hr) { post with ask := some _ } _ hId
    · exact hOld r' hr
  | DropPosts name ids =>
    rcases of_on_one hr' with ⟨rfl, r, hr, rfl⟩ | hr
    · exact (hOld r hr).remove_posts ids
    · exact hOld r' hr
  | Topic | Close | Board =>
    rcases of_on_one hr' with ⟨rfl, r, hr, rfl⟩ | hr
    · exact ⟨(hOld r hr).posts, (hOld r hr).cursors⟩
    · exact hOld r' hr
  | DropRoom name =>
    dsimp only [Effect.on_room] at hr'
    split at hr'
    · cases hr'
    · exact hOld r' hr'
  | Agent | Message | Lease | Settle | Drop | Broadcast | DropBroadcasts | Cursor => exact hOld r' hr'

/-- What renaming makes of the messages and the broadcasts: only names change. -/
theorem rename_messages {from_ to_ : String} {i : Id} {m' : Message}
    (h : (store.rename from_ to_).messages[i]? = some m') :
    ∃ m, store.messages[i]? = some m ∧ m'.id = m.id := by
  unfold Store.rename at h
  cases ha : store.agents[from_]? with
  | none =>
    rw [ha] at h
    exact ⟨m', h, rfl⟩
  | some agent =>
    rw [ha] at h
    dsimp only at h
    rw [(retrack_beside _).messages] at h
    obtain ⟨m, hm, rfl⟩ := Option.map_eq_some_iff.mp
      ((Std.ExtTreeMap.getElem?_map (t := store.messages)).symm.trans h)
    exact ⟨m, hm, rfl⟩

theorem rename_broadcasts {from_ to_ : String} {i : Id} {b' : Broadcast}
    (h : (store.rename from_ to_).broadcasts[i]? = some b') :
    ∃ b, store.broadcasts[i]? = some b ∧ b'.id = b.id := by
  unfold Store.rename at h
  cases ha : store.agents[from_]? with
  | none =>
    rw [ha] at h
    exact ⟨b', h, rfl⟩
  | some agent =>
    rw [ha] at h
    dsimp only at h
    rw [(retrack_beside _).broadcasts] at h
    obtain ⟨b, hb, rfl⟩ := Option.map_eq_some_iff.mp
      ((Std.ExtTreeMap.getElem?_map (t := store.broadcasts)).symm.trans h)
    exact ⟨b, hb, rfl⟩

/-- Whatever the effect, messages are filed under their ids, up to the last one. -/
theorem apply_messages_upTo (h : ∀ (id : Id) m, store.messages[id]? = some m → m.id = id ∧ id ≤ store.last_id)
    (effect : Effect) {i : Id} {m' : Message} (hm' : (store.apply effect).messages[i]? = some m') :
    m'.id = i ∧ i ≤ (store.apply effect).last_id := by
  have hLast := apply_last_id store effect
  cases hRename : effect.is_rename with
  | true =>
    cases effect with
    | Rename from_ to_ =>
      obtain ⟨m, hm, hId⟩ := rename_messages hm'
      exact ⟨hId.trans (h i m hm).1, (h i m hm).2.trans hLast⟩
    | _ => cases hRename
  | false =>
    rcases apply_message_of hRename hm' with ⟨rfl, rfl⟩ | ⟨m, hm, hSame⟩
    · rw [(apply_message store _).1]
      exact ⟨rfl, le_max_right _ _⟩
    · exact ⟨hSame.id.trans (h i m hm).1, (h i m hm).2.trans hLast⟩

/-- And so are broadcasts. -/
theorem apply_broadcasts_upTo
    (h : ∀ (id : Id) b, store.broadcasts[id]? = some b → b.id = id ∧ id ≤ store.last_id) (effect : Effect)
    {i : Id} {b' : Broadcast} (hb' : (store.apply effect).broadcasts[i]? = some b') :
    b'.id = i ∧ i ≤ (store.apply effect).last_id := by
  have hLast := apply_last_id store effect
  have hOld : store.broadcasts[i]? = some b' → b'.id = i ∧ i ≤ (store.apply effect).last_id :=
    fun hb => ⟨(h i b' hb).1, (h i b' hb).2.trans hLast⟩
  cases hRename : effect.is_rename with
  | true =>
    cases effect with
    | Rename from_ to_ =>
      obtain ⟨b, hb, hId⟩ := rename_broadcasts hb'
      exact ⟨hId.trans (h i b hb).1, (h i b hb).2.trans hLast⟩
    | _ => cases hRename
  | false =>
    rw [apply_broadcast store hRename] at hb'
    cases effect with
    | Broadcast b =>
      dsimp only [Effect.on_broadcast] at hb'
      split at hb'
      · next hi =>
        cases hb'
        exact ⟨hi, hi ▸ le_max_right _ _⟩
      · exact hOld hb'
    | DropBroadcasts ids =>
      dsimp only [Effect.on_broadcast] at hb'
      split at hb'
      · cases hb'
      · exact hOld hb'
    | _ => exact hOld hb'

theorem Orderly.apply_agents (h : Orderly store) (hMay : MayWrite now store effect)
    (hRename : effect.is_rename = false) {name : String} {c : Id}
    (hc : cursor_of (store.apply effect).agents name = some (some c)) :
    c ≤ (store.apply effect).last_id := by
  have hLast := apply_last_id store effect
  have hOld : cursor_of store.agents name = some (some c) → c ≤ (store.apply effect).last_id :=
    fun hc => (h.agents name c hc).trans hLast
  have hNew : some ((cursor_of store.agents name).getD none) = some (some c) →
      c ≤ (store.apply effect).last_id := by
    intro hc
    cases hWas : cursor_of store.agents name with
    | none =>
      -- it is new, and has read nothing
      rw [hWas] at hc
      cases hc
    | some read =>
      rw [hWas] at hc
      exact hOld (hWas.trans hc)
  rw [apply_cursor store hRename] at hc
  cases effect with
  | Agent agent at_ =>
    dsimp only [Effect.on_cursor] at hc
    split at hc
    · exact hNew hc
    · exact hOld hc
  | Message m =>
    dsimp only [Effect.on_cursor] at hc
    split at hc
    · exact hNew hc
    · exact hOld hc
  | Cursor agent id =>
    dsimp only [Effect.on_cursor] at hc
    split at hc
    · have hUpTo : id ≤ store.last_id := hMay.resolve_left fun hNot => hNot
      obtain ⟨_, -, hEq⟩ := Option.map_eq_some_iff.mp hc
      cases hEq
      exact hUpTo.trans hLast
    · exact hOld hc
  | Forget agent =>
    dsimp only [Effect.on_cursor] at hc
    split at hc
    · cases hc
    · exact hOld hc
  | _ => exact hOld hc

theorem rename_last_id (store : Store) (from_ to_ : String) :
    (store.rename from_ to_).last_id = store.last_id := by
  unfold Store.rename
  cases store.agents[from_]? with
  | none => rfl
  | some agent =>
    dsimp only
    rw [(retrack_beside _).last_id]
    rfl

/-- What renaming makes of a room: nothing, when nobody has the old name. -/
theorem rename_rooms (store : Store) (from_ to_ : String) (i : String) :
    (store.rename from_ to_).rooms[i]? =
      if from_ ∈ store.agents then (store.rooms[i]?).map (Room.rename from_ to_) else store.rooms[i]? := by
  unfold Store.rename
  cases ha : store.agents[from_]? with
  | none =>
    refine (if_neg fun hMem => ?_).symm
    obtain ⟨agent, hAgent⟩ := (BTreeMap.mem_iff_get _ _).mp hMem
    rw [ha] at hAgent
    cases hAgent
  | some agent =>
    rw [if_pos ((BTreeMap.mem_iff_get _ _).mpr ⟨agent, ha⟩)]
    dsimp only
    rw [(retrack_beside _).rooms]
    exact Std.ExtTreeMap.getElem?_map

theorem Orderly.rename (h : Orderly store) (from_ to_ : String) :
    Orderly (store.apply (.Rename from_ to_)) := by
  have hLast := rename_last_id store from_ to_
  refine ⟨fun _ _ => apply_messages_upTo h.messages _, fun name room hRoom => ?_,
    fun _ _ => apply_broadcasts_upTo h.broadcasts _, fun name c hc => ?_⟩
  · show room.UpTo (store.rename from_ to_).last_id
    rw [hLast]
    have hRoom : (store.rename from_ to_).rooms[name]? = some room := hRoom
    rw [rename_rooms] at hRoom
    split at hRoom
    · obtain ⟨old, hOld, rfl⟩ := Option.map_eq_some_iff.mp hRoom
      exact (h.rooms name old hOld).rename from_ to_
    · exact h.rooms name room hRoom
  · show c ≤ (store.rename from_ to_).last_id
    rw [hLast]
    have hc : cursor_of (store.rename from_ to_).agents name = some (some c) := hc
    unfold Store.rename at hc
    cases ha : store.agents[from_]? with
    | none =>
      rw [ha] at hc
      exact h.agents name c hc
    | some agent =>
      rw [ha] at hc
      dsimp only at hc
      rw [(retrack_beside _).cursors] at hc
      have hc : cursor_of ((store.agents.erase from_).insert to_ _) name = some (some c) := hc
      rw [cursor_of_insert] at hc
      split at hc
      · -- the agent under the new name has read what it had
        refine h.agents from_ c ?_
        unfold cursor_of
        rw [ha]
        rw [← hc]
        cases (store.agents.erase from_)[to_]? <;> rfl
      · rw [cursor_of_erase] at hc
        split at hc
        · cases hc
        · exact h.agents name c hc

theorem Orderly.apply (h : Orderly store) (hMay : MayWrite now store effect) :
    Orderly (store.apply effect) := by
  by_cases hRename : effect.is_rename = true
  · cases effect with
    | Rename from_ to_ => exact h.rename from_ to_
    | _ => cases hRename
  · have hRename := Bool.eq_false_iff.mpr hRename
    exact
      { messages := fun _ _ => apply_messages_upTo h.messages effect
        rooms := fun _ _ => h.apply_rooms hMay hRename
        broadcasts := fun _ _ => apply_broadcasts_upTo h.broadcasts effect
        agents := fun _ _ => h.apply_agents hMay hRename }

theorem cursor_of_see (store : Store) (agent : String) (at_ : Nat) (name : String) :
    cursor_of (store.see agent at_).agents name = cursor_of store.agents name := by
  unfold Store.see
  cases ha : store.agents[agent]? with
  | none => rfl
  | some record =>
    dsimp only
    rw [cursor_of_insert]
    split
    · next hName =>
      subst hName
      unfold cursor_of
      rw [ha]
      rfl
    · rfl

theorem Orderly.see (h : Orderly store) (agent : String) (at_ : Nat) :
    Orderly (store.see agent at_) := by
  have hSame : (store.see agent at_).messages = store.messages ∧
      (store.see agent at_).rooms = store.rooms ∧
      (store.see agent at_).broadcasts = store.broadcasts ∧
      (store.see agent at_).last_id = store.last_id := by
    unfold Store.see
    cases store.agents[agent]? <;> exact ⟨rfl, rfl, rfl, rfl⟩
  obtain ⟨hMessages, hRooms, hBroadcasts, hLast⟩ := hSame
  refine ⟨?_, ?_, ?_, fun name c hc => ?_⟩
  · rw [hMessages, hLast]
    exact h.messages
  · rw [hRooms, hLast]
    exact h.rooms
  · rw [hBroadcasts, hLast]
    exact h.broadcasts
  · rw [cursor_of_see] at hc
    rw [hLast]
    exact h.agents name c hc

/-- A new id, as long as ids have not run out. -/
theorem next_id_fresh (hIds : store.last_id ≠ .MAX) (now : Fin (2 ^ 64)) :
    store.last_id < store.next_id now := by
  unfold Store.next_id
  cases hNext : Id.next_after store.last_id now with
  | some id => exact Id.lt_of_next_after hNext
  | none =>
    unfold Id.next_after at hNext
    split at hNext
    · cases hNext
    · exact absurd ((Id.after_eq_none_iff _).mp hNext) hIds

theorem ids_left {store' : Store} (hLast : store.last_id ≤ store'.last_id)
    (hIds : store'.last_id ≠ .MAX) : store.last_id ≠ .MAX := by
  intro hMax
  rw [hMax] at hLast
  exact hIds (le_antisymm (Id.le_MAX _) hLast)

end

end Postino.Forum
