import Postino.Forum.Faults
import Postino.Forum.Runs

/-!
# Ids over restarts

Whatever is created takes the next id after the last one the store knows of. That id is
not lowered when what has it is dropped, and it is the same again after a restart: what
is replayed, from the first line of the journal or on top of a snapshot, raises it as it
was raised before.

* `apply_raises` — how far an effect raises the last id.
* `from_snapshot_alike` — a snapshot remembers the last id.
* `ids_fresh` — ids grow over any operations and restarts.
-/

namespace Postino.Forum

open Lib Fallible

/-! ## How far effects raise the last id -/

/-- The id of what an effect creates. -/
def Effect.creates : Effect → Option Id
  | .Message m => some m.id
  | .Broadcast b => some b.id
  | .Post _ post => some post.id
  | _ => none

/-- Up to where an effect raises the last id, in a store with these rooms. -/
def Effect.raises (rooms : BTreeMap String Forum.Room) : Effect → Option Id
  | .Message m => some m.id
  | .Broadcast b => some b.id
  | .Post name post => if name ∈ rooms then some post.id else none
  | .Room room => room.posts.toList.getLast?.map Prod.fst
  | _ => none

theorem apply_raises (store : Store) (effect : Effect) :
    (store.apply effect).last_id = (effect.raises store.rooms).elim store.last_id (max store.last_id) := by
  cases effect with
  | Message m => exact (apply_message store m).1
  | Broadcast => rfl
  | Post name post =>
    cases hr : store.rooms[name]? with
    | none =>
      have hOut : name ∉ store.rooms := fun hMem => by
        obtain ⟨r, hRoom⟩ := (BTreeMap.mem_iff_get _ _).mp hMem
        rw [hr] at hRoom
        cases hRoom
      -- a post to a room that is not there raises nothing
      unfold Effect.raises Store.apply
      dsimp only
      rw [hr, if_neg hOut]
      rfl
    | some r =>
      rw [post_last_id store name post hr]
      unfold Effect.raises
      dsimp only
      rw [if_pos ((BTreeMap.mem_iff_get _ _).mpr ⟨r, hr⟩)]
      rfl
  | Room room =>
    unfold Effect.raises Store.apply
    dsimp only
    -- a room out of a snapshot raises it as far as its last post
    cases room.posts.toList.getLast? <;> rfl
  | Rename from_ to_ => exact rename_last_id store from_ to_
  | Agent name at_ =>
    unfold Store.apply
    dsimp only
    split <;> rfl
  | Lease | Settle => exact with_message_last_id store _ _
  | Drop ids => exact remove_messages_last_id ids store
  | DropBroadcasts ids => exact drop_broadcasts_last_id store ids
  | Cursor agent id =>
    unfold Store.apply
    dsimp only
    split <;> rfl
  | Forget agent =>
    show (store.forget agent).last_id = store.last_id
    unfold Store.forget
    split
    · dsimp only
      rw [remove_messages_last_id]
    · rfl
  | DropPosts name ids => exact drop_posts_last_id store name ids
  | DropRoom => rfl
  | Member | RoomCursor | Question | Topic | Close | Board => exact with_room_last_id store _ _

/-! ## Stores that number alike -/

/-- What comes next is numbered the same in both stores. -/
structure Alike (a b : Store) : Prop where
  last_id : b.last_id = a.last_id
  rooms : SameRooms a b

theorem Alike.refl (store : Store) : Alike store store := ⟨rfl, fun _ => Iff.rfl⟩

theorem Alike.trans {a b c : Store} (h : Alike a b) (h' : Alike b c) : Alike a c :=
  ⟨h'.last_id.trans h.last_id, h.rooms.trans h'.rooms⟩

theorem Alike.apply {a b : Store} (h : Alike a b) (effect : Effect) : Alike (a.apply effect) (b.apply effect) := by
  have hRaises : effect.raises b.rooms = effect.raises a.rooms := by
    cases effect with
    | Post name post =>
      unfold Effect.raises
      dsimp only
      rw [if_congr (h.rooms name) rfl rfl]
    | _ => rfl
  refine ⟨?_, fun i => ?_⟩
  · rw [apply_raises, apply_raises, hRaises, h.last_id]
  · cases hRooms : effect.of_rooms with
    | false => rw [apply_rooms_mem b hRooms, apply_rooms_mem a hRooms, h.rooms]
    | true =>
      cases effect with
      | Room room =>
        show i ∈ b.rooms.insert room.name _ ↔ i ∈ a.rooms.insert room.name _
        rw [Std.ExtTreeMap.mem_insert, Std.ExtTreeMap.mem_insert, h.rooms]
      | DropRoom name =>
        show i ∈ b.rooms.erase name ↔ i ∈ a.rooms.erase name
        rw [Std.ExtTreeMap.mem_erase, Std.ExtTreeMap.mem_erase, h.rooms]
      | _ => cases hRooms

theorem Alike.wrote {Allowed : Store → Effect → Prop} {Seen : Prop} {a store store' : Store}
    {effects : List Effect} (h : Alike a store) (hWrote : Wrote Allowed Seen store effects store') :
    Alike (effects.foldl Store.apply a) store' := by
  induction hWrote with
  | nothing => exact h
  | effect _ _ ih =>
    rw [List.foldl_append]
    exact ih.apply _
  | sessions _ _ ih => exact ⟨ih.last_id, ih.rooms⟩
  | see agent now _ _ ih =>
    refine ⟨(see_last_id _ _ _).trans ih.last_id, fun i => ?_⟩
    rw [see_rooms]
    exact ih.rooms i

/-! ## Snapshots -/

/-- Nothing is numbered above the last id, and rooms are filed under their names. -/
structure Bounded (store : Store) : Prop where
  messages : ∀ (id : Id) m, store.messages[id]? = some m → m.id = id ∧ id ≤ store.last_id
  broadcasts : ∀ (id : Id) b, store.broadcasts[id]? = some b → b.id = id ∧ id ≤ store.last_id
  rooms : ∀ (name : String) r, store.rooms[name]? = some r →
    r.name = name ∧ ∀ (id : Id) post, r.posts[id]? = some post → id ≤ store.last_id

theorem Bounded.empty (last_id : Id) (agents : BTreeMap String Agent) : Bounded { last_id, agents } where
  messages := fun _ _ h => by simp at h
  broadcasts := fun _ _ h => by simp at h
  rooms := fun _ _ h => by simp at h

section

variable {store : Store} {effect : Effect}

/-- What a changed room still is. -/
theorem Bounded.on_room (h : Bounded store) (hRename : effect.is_rename = false) {name : String} {r' : Room}
    (hr' : (store.apply effect).rooms[name]? = some r') :
    r'.name = name ∧ ∀ (id : Id) post, r'.posts[id]? = some post → id ≤ (store.apply effect).last_id := by
  have hLast := apply_last_id store effect
  -- whatever an effect leaves alone is bounded as before
  have hOld : ∀ r, store.rooms[name]? = some r →
      r.name = name ∧ ∀ (id : Id) post, r.posts[id]? = some post → id ≤ (store.apply effect).last_id :=
    fun r hr => ⟨(h.rooms name r hr).1, fun id post hPost => ((h.rooms name r hr).2 id post hPost).trans hLast⟩
  rw [apply_room store hRename] at hr'
  cases effect with
  | Rename => cases hRename
  | Forget agent =>
    obtain ⟨r, hr, rfl⟩ := Option.map_eq_some_iff.mp hr'
    exact hOld r hr
  | Room room =>
    dsimp only [Effect.on_room] at hr'
    split at hr'
    · next hName =>
      cases hr'
      refine ⟨hName, fun id post hPost => ?_⟩
      have hPost : room.posts[id]? = some post := hPost
      -- it is not after the last of the room's posts
      rw [apply_raises]
      show id ≤ (room.posts.toList.getLast?.map Prod.fst).elim _ _
      have hMem := (BTreeMap.mem_toList _ _ _).mpr hPost
      obtain ⟨init, last, hList⟩ : ∃ init last, room.posts.toList = init ++ [last] :=
        (List.eq_nil_or_concat' _).resolve_left (List.ne_nil_of_mem hMem)
      have hSorted := BTreeMap.sorted_toList room.posts
      rw [hList] at hMem hSorted ⊢
      rw [List.getLast?_concat]
      refine le_trans ?_ (le_max_right _ _)
      rcases List.mem_append.mp hMem with hIn | hIn
      · exact ((List.pairwise_append.mp hSorted).2.2 _ hIn last List.mem_cons_self).le
      · rw [← List.mem_singleton.mp hIn]
    · exact hOld r' hr'
  | Post name post =>
    rcases of_on_one hr' with ⟨rfl, r, hr, rfl⟩ | hr
    · refine ⟨(hOld r hr).1, fun id p hp => ?_⟩
      have hp : (r.posts.insert post.id post)[id]? = some p := hp
      rw [BTreeMap.get_insert] at hp
      split at hp
      · next hId =>
        -- the new post raises the last id as far as its own
        rw [post_last_id store _ post hr, ← hId]
        exact le_max_right _ _
      · exact (hOld r hr).2 id p hp
    · exact hOld r' hr
  | Question name id status at_ =>
    rcases of_on_one hr' with ⟨rfl, r, hr, rfl⟩ | hr
    · dsimp only
      split
      · exact hOld r hr
      · next post hPost =>
        split
        · exact hOld r hr
        · refine ⟨(hOld r hr).1, fun i p hp => ?_⟩
          have hp : (r.posts.insert id _)[i]? = some p := hp
          rw [BTreeMap.get_insert] at hp
          split at hp
          · next hId => exact (hOld r hr).2 i post (hId ▸ hPost)
          · exact (hOld r hr).2 i p hp
    · exact hOld r' hr
  | DropPosts name ids =>
    rcases of_on_one hr' with ⟨rfl, r, hr, rfl⟩ | hr
    · refine ⟨(congrArg Room.name (remove_posts_standing ids r)).trans (hOld r hr).1, fun id p hp => ?_⟩
      rw [remove_posts_get] at hp
      split at hp
      · cases hp
      · exact (hOld r hr).2 id p hp
    · exact hOld r' hr
  | RoomCursor name agent id =>
    rcases of_on_one hr' with ⟨rfl, r, hr, rfl⟩ | hr
    · split
      · exact hOld r hr
      · exact hOld r hr
    · exact hOld r' hr
  | Member | Topic | Close | Board =>
    rcases of_on_one hr' with ⟨rfl, r, hr, rfl⟩ | hr
    · exact hOld r hr
    · exact hOld r' hr
  | DropRoom name =>
    dsimp only [Effect.on_room] at hr'
    split at hr'
    · cases hr'
    · exact hOld r' hr'
  | Agent | Message | Lease | Settle | Drop | Broadcast | DropBroadcasts | Cursor => exact hOld r' hr'

theorem Bounded.apply (h : Bounded store) (effect : Effect) : Bounded (store.apply effect) := by
  refine ⟨fun _ _ => apply_messages_upTo h.messages effect, fun _ _ => apply_broadcasts_upTo h.broadcasts effect,
    fun name r' hr' => ?_⟩
  cases hRename : effect.is_rename with
  | false => exact h.on_room hRename hr'
  | true =>
    cases effect with
    | Rename from_ to_ =>
      have hLast := apply_last_id store (.Rename from_ to_)
      have hr' : (store.rename from_ to_).rooms[name]? = some r' := hr'
      rw [rename_rooms] at hr'
      split at hr'
      · obtain ⟨r, hr, rfl⟩ := Option.map_eq_some_iff.mp hr'
        refine ⟨(h.rooms name r hr).1, fun id post hPost => ?_⟩
        obtain ⟨old, hOld, -⟩ := Option.map_eq_some_iff.mp
          ((Std.ExtTreeMap.getElem?_map (t := r.posts)).symm.trans hPost)
        exact ((h.rooms name r hr).2 id old hOld).trans hLast
      · exact ⟨(h.rooms name r' hr').1, fun id post hPost => ((h.rooms name r' hr').2 id post hPost).trans hLast⟩
    | _ => cases hRename

theorem Bounded.see (h : Bounded store) (agent : String) (at_ : Nat) : Bounded (store.see agent at_) := by
  have hSame : (store.see agent at_).messages = store.messages ∧
      (store.see agent at_).broadcasts = store.broadcasts := by
    unfold Store.see
    cases store.agents[agent]? <;> exact ⟨rfl, rfl⟩
  refine ⟨?_, ?_, ?_⟩
  · rw [hSame.1, see_last_id]
    exact h.messages
  · rw [hSame.2, see_last_id]
    exact h.broadcasts
  · rw [see_rooms, see_last_id]
    exact h.rooms

theorem Bounded.replay (h : Bounded store) (effects : List Effect) :
    Bounded (effects.foldl Store.apply store) := by
  induction effects generalizing store with
  | nil => exact h
  | cons effect effects ih => exact ih (h.apply effect)

end

/-- The effects that a snapshot is loaded by. -/
def SnapshotOwned.effects (snapshot : SnapshotOwned) : List Effect :=
  snapshot.messages.map .Message ++ snapshot.broadcasts.map .Broadcast ++ snapshot.rooms.map .Room

theorem from_snapshot_eq (snapshot : SnapshotOwned) :
    Store.from_snapshot snapshot = snapshot.effects.foldl Store.apply
      { last_id := snapshot.last_id
        agents := snapshot.agents.foldl (fun agents agent => agents.insert agent.name agent) ∅ } := by
  unfold Store.from_snapshot SnapshotOwned.effects
  rw [List.foldl_append, List.foldl_append, List.foldl_map, List.foldl_map, List.foldl_map]

theorem from_snapshot_bounded (snapshot : SnapshotOwned) : Bounded (Store.from_snapshot snapshot) := by
  rw [from_snapshot_eq]
  exact (Bounded.empty _ _).replay _

/-- What raises the last id no further leaves it. -/
theorem replay_last_id (effects : List Effect) (store : Store)
    (h : ∀ effect ∈ effects, ∀ rooms id, effect.raises rooms = some id → id ≤ store.last_id) :
    (effects.foldl Store.apply store).last_id = store.last_id := by
  induction effects generalizing store with
  | nil => rfl
  | cons effect effects ih =>
    have hThis : (store.apply effect).last_id = store.last_id := by
      rw [apply_raises]
      cases hRaises : effect.raises store.rooms with
      | none => rfl
      | some id => exact max_eq_left (h effect List.mem_cons_self _ id hRaises)
    rw [List.foldl_cons, ih, hThis]
    intro effect hMem
    rw [hThis]
    exact h effect (List.mem_cons_of_mem _ hMem)

/-- The rooms that effects make. -/
theorem replay_rooms (effects : List Effect) (store : Store) (hKeep : ∀ name, .DropRoom name ∉ effects) (i : String) :
    i ∈ (effects.foldl Store.apply store).rooms ↔
      i ∈ store.rooms ∨ ∃ room, .Room room ∈ effects ∧ room.name = i := by
  induction effects generalizing store with
  | nil => simp
  | cons effect effects ih =>
    rw [List.foldl_cons, ih _ fun name hMem => hKeep name (List.mem_cons_of_mem _ hMem)]
    -- one effect makes the room it names, or none
    have hThis : i ∈ (store.apply effect).rooms ↔
        i ∈ store.rooms ∨ ∃ room, .Room room = effect ∧ room.name = i := by
      cases hRooms : effect.of_rooms with
      | false =>
        rw [apply_rooms_mem store hRooms]
        refine (or_iff_left ?_).symm
        rintro ⟨room, rfl, -⟩
        cases hRooms
      | true =>
        cases effect with
        | Room room =>
          show i ∈ store.rooms.insert room.name _ ↔ _
          rw [Std.ExtTreeMap.mem_insert, compare_eq_iff_eq, or_comm]
          refine or_congr_right ⟨fun hEq => ⟨room, rfl, hEq⟩, ?_⟩
          rintro ⟨_, ⟨⟩, hEq⟩
          exact hEq
        | DropRoom name => exact absurd List.mem_cons_self (hKeep name)
        | _ => cases hRooms
    rw [hThis, or_assoc]
    refine or_congr_right ⟨?_, ?_⟩
    · rintro (⟨room, rfl, hEq⟩ | ⟨room, hMem, hEq⟩)
      · exact ⟨room, List.mem_cons_self, hEq⟩
      · exact ⟨room, List.mem_cons_of_mem _ hMem, hEq⟩
    · rintro ⟨room, hMem, hEq⟩
      rcases List.mem_cons.mp hMem with hIs | hIn
      · exact .inl ⟨room, hIs, hEq⟩
      · exact .inr ⟨room, hIn, hEq⟩

/-- **A snapshot remembers the last id**, although what had it may be gone. -/
theorem from_snapshot_alike {store : Store} (h : Bounded store) :
    Alike store (Store.from_snapshot store.snapshot) := by
  -- a snapshot is written as messages, broadcasts and rooms, each as it is stored
  have hEffects : ∀ effect ∈ store.snapshot.effects,
      (∃ (id : Id) (m : Message), store.messages[id]? = some m ∧ effect = .Message m) ∨
      (∃ (id : Id) (b : Broadcast), store.broadcasts[id]? = some b ∧ effect = .Broadcast b) ∨
      ∃ (name : String) (r : Room), store.rooms[name]? = some r ∧ effect = .Room { r with open_ := ∅ } := by
    intro effect hMem
    rcases List.mem_append.mp hMem with hMem | hRoom
    · rcases List.mem_append.mp hMem with hMessage | hBroadcast
      · obtain ⟨_, hm, rfl⟩ := List.mem_map.mp hMessage
        obtain ⟨e, he, rfl⟩ := List.mem_map.mp hm
        exact .inl ⟨e.1, e.2, (BTreeMap.mem_toList _ _ _).mp he, rfl⟩
      · obtain ⟨_, hb, rfl⟩ := List.mem_map.mp hBroadcast
        obtain ⟨e, he, rfl⟩ := List.mem_map.mp hb
        exact .inr (.inl ⟨e.1, e.2, (BTreeMap.mem_toList _ _ _).mp he, rfl⟩)
    · obtain ⟨_, hr, rfl⟩ := List.mem_map.mp hRoom
      obtain ⟨e, he, rfl⟩ := List.mem_map.mp hr
      exact .inr (.inr ⟨e.1, e.2, (BTreeMap.mem_toList _ _ _).mp he, rfl⟩)
  rw [from_snapshot_eq]
  refine ⟨replay_last_id _ _ fun effect hMem rooms id hRaises => ?_, fun i => ?_⟩
  · rcases hEffects effect hMem with ⟨_, m, hm, rfl⟩ | ⟨_, b, hb, rfl⟩ | ⟨name, r, hr, rfl⟩
    · -- none of them raises the last id past what the snapshot says
      cases hRaises
      obtain ⟨rfl, hUpTo⟩ := h.messages _ m hm
      exact hUpTo
    · cases hRaises
      obtain ⟨rfl, hUpTo⟩ := h.broadcasts _ b hb
      exact hUpTo
    · obtain ⟨last, hLast, rfl⟩ := Option.map_eq_some_iff.mp hRaises
      exact (h.rooms name r hr).2 _ _ ((BTreeMap.mem_toList _ _ _).mp (List.mem_of_getLast? hLast))
  · rw [replay_rooms]
    · constructor
      · rintro (hNone | ⟨room, hMem, rfl⟩)
        · exact absurd hNone Std.ExtTreeMap.not_mem_empty
        · rcases hEffects _ hMem with ⟨_, _, _, hEq⟩ | ⟨_, _, _, hEq⟩ | ⟨name, r, hr, hEq⟩
          · cases hEq
          · cases hEq
          · cases hEq
            rw [show ({ r with open_ := ∅ } : Room).name = r.name from rfl, (h.rooms name r hr).1]
            exact (BTreeMap.mem_iff_get _ _).mpr ⟨r, hr⟩
      · intro hMem
        obtain ⟨r, hr⟩ := (BTreeMap.mem_iff_get _ _).mp hMem
        refine .inr ⟨{ r with open_ := ∅ }, List.mem_append_right _ (List.mem_map.mpr ⟨_, ?_, rfl⟩),
          (h.rooms i r hr).1⟩
        exact List.mem_map.mpr ⟨(i, r), (BTreeMap.mem_toList _ _ _).mpr hr, rfl⟩
    · -- no effect of a snapshot drops a room
      intro name hMem
      rcases hEffects _ hMem with ⟨_, _, _, hEq⟩ | ⟨_, _, _, hEq⟩ | ⟨_, _, _, hEq⟩ <;> cases hEq

/-! ## Operations and restarts -/

/-- What operations write: what is created takes the next id, and is posted to a room
that is there. -/
def Numbers (now : Fin (2 ^ 64)) (store : Store) (effect : Effect) : Prop :=
  (∀ id, effect.creates = some id → id = store.next_id now) ∧
    ∀ name post, effect = .Post name post → name ∈ store.rooms

theorem numbers_of_writable {now : Fin (2 ^ 64)} {may : May} (store : Store) (effect : Effect)
    (h : Writable now may store effect) : Numbers now store effect := by
  cases effect with
  | Message | Broadcast =>
    refine ⟨fun id hId => ?_, fun name post hPost => ?_⟩
    · cases hId
      exact h
    · cases hPost
  | Post name post =>
    refine ⟨?_, ?_⟩
    · rintro _ ⟨⟩
      exact h.2.1
    · rintro _ _ ⟨⟩
      exact h.1
  | _ =>
    refine ⟨fun id hId => ?_, fun name post hPost => ?_⟩
    · cases hId
    · cases hPost

theorem numbers_of_cursor {now : Fin (2 ^ 64)} (store : Store) (effect : Effect)
    (h : effect.is_cursor = true) : Numbers now store effect := by
  cases effect with
  | Cursor | RoomCursor =>
    refine ⟨fun id hId => ?_, fun name post hPost => ?_⟩
    · cases hId
    · cases hPost
  | _ => cases h

/-- What an operation writes, if what is writable and what a read leaves are both allowed. -/
theorem perform_allowed {now : Fin (2 ^ 64)} {Allowed : Store → Effect → Prop}
    (hWritable : ∀ store effect, Writable now .all store effect → Allowed store effect)
    (hCursor : ∀ store effect, effect.is_cursor = true → Allowed store effect) (op : Operation) (core : Core) :
    Traced Allowed True core (op.perform now core).2 := by
  cases hRead : op.is_read with
  | false =>
    obtain ⟨effects, h⟩ := (perform_writes op hRead now core).traced
    exact ⟨effects, h.wrote.mono (fun store effect h => hWritable store effect h.all) fun _ => trivial,
      h.journaled, h.limits, h.stopped, h.healthy⟩
  | true =>
    cases op with
    | read_room name agent limit =>
      obtain ⟨effects, h⟩ := (discard_writes (@read_room_writes core True name agent limit)).traced
      exact ⟨effects, h.wrote.mono hCursor id, h.journaled, h.limits, h.stopped, h.healthy⟩
    | read_broadcasts agent all advance =>
      obtain ⟨effects, h⟩ := (discard_writes (@read_broadcasts_writes core True agent all advance)).traced
      exact ⟨effects, h.wrote.mono hCursor id, h.journaled, h.limits, h.stopped, h.healthy⟩
    | _ => cases hRead

theorem perform_numbers (op : Operation) (now : Fin (2 ^ 64)) (core : Core) :
    Traced (Numbers now) True core (op.perform now core).2 :=
  perform_allowed numbers_of_writable numbers_of_cursor op core

/-- Ids grow from one effect to the next. -/
theorem Wrote.created {now : Fin (2 ^ 64)} {Seen : Prop} {store store' : Store} {effects : List Effect}
    (h : Wrote (Numbers now) Seen store effects store') (hIds : store'.last_id ≠ .MAX) :
    store.last_id ≤ store'.last_id ∧ (effects.filterMap Effect.creates).Pairwise (· < ·) ∧
      ∀ id ∈ effects.filterMap Effect.creates, store.last_id < id ∧ id ≤ store'.last_id := by
  induction h with
  | nothing => exact ⟨le_rfl, List.Pairwise.nil, nofun⟩
  | @effect effects store₁ effect _ hNumbers ih =>
    have hLast := apply_last_id store₁ effect
    have hIds₁ := ids_left hLast hIds
    obtain ⟨hUp, hSorted, hNew⟩ := ih hIds₁
    refine ⟨hUp.trans hLast, ?_⟩
    rw [List.filterMap_append]
    cases hCreates : effect.creates with
    | none =>
      have hNone : List.filterMap Effect.creates [effect] = [] := by simp [hCreates]
      rw [hNone, List.append_nil]
      exact ⟨hSorted, fun id hId => ⟨(hNew id hId).1, (hNew id hId).2.trans hLast⟩⟩
    | some new =>
      have hOne : List.filterMap Effect.creates [effect] = [new] := by simp [hCreates]
      -- ids are handed out past the last one
      have hAfter : store₁.last_id < new := by
        rw [hNumbers.1 new hCreates]
        exact next_id_fresh hIds₁ now
      -- what it creates raises the last id as far as that
      have hRaised : (store₁.apply effect).last_id = max store₁.last_id new := by
        rw [apply_raises]
        cases effect with
        | Message | Broadcast =>
          cases hCreates
          rfl
        | Post name post =>
          cases hCreates
          unfold Effect.raises
          dsimp only
          rw [if_pos (hNumbers.2 name post rfl)]
          rfl
        | _ => cases hCreates
      rw [hOne]
      refine ⟨List.pairwise_append.mpr ⟨hSorted, List.pairwise_singleton _ _, fun id hId last hLast => ?_⟩,
        fun id hId => ?_⟩
      · rw [List.mem_singleton.mp hLast]
        exact (hNew id hId).2.trans_lt hAfter
      · rcases List.mem_append.mp hId with hOld | hThis
        · exact ⟨(hNew id hOld).1, (hNew id hOld).2.trans hLast⟩
        · rw [List.mem_singleton.mp hThis, hRaised]
          exact ⟨hUp.trans_lt hAfter, le_max_right _ _⟩
  | sessions _ _ ih => exact ih hIds
  | see agent at_ _ _ ih =>
    rw [see_last_id] at hIds ⊢
    exact ih hIds

/-- A server and its disk: all lines of its journal, the snapshots taken, each with how
many lines it covers, and the ids of all that was ever created, in order. -/
structure Server where
  core : Core
  journal : List Effect := []
  snapshots : List (Nat × SnapshotOwned) := []
  created : List Id := []

/-- What happens to a server. -/
inductive Turn where
  | operation (asked : Asked)
  | snapshot
  /-- Loads the `chosen` snapshot and the lines after it, or the whole journal, into a
  core that is otherwise new. -/
  | restart (new : Core) (chosen : Option Nat)

namespace Server

/-- What is loaded from disk. -/
def load (s : Server) (chosen : Option Nat) : Store :=
  match chosen.bind fun i => s.snapshots[i]? with
  | some (covered, snapshot) => (s.journal.drop covered).foldl Store.apply (.from_snapshot snapshot)
  | none => s.journal.foldl Store.apply {}

def step (s : Server) : Turn → Server
  | .operation asked =>
    let core := s.core.perform asked
    let effects := s.core.since core
    { s with core, journal := s.journal ++ effects, created := s.created ++ effects.filterMap Effect.creates }
  | .snapshot => { s with snapshots := s.snapshots ++ [(s.journal.length, s.core.store.snapshot)] }
  | .restart new chosen => { s with core := { new with store := s.load chosen } }

def run (s : Server) (turns : List Turn) : Server := turns.foldl step s

/-- Ids grew, and whatever is loaded numbers as the server does. -/
structure Growing (s : Server) : Prop where
  bounded : Bounded s.core.store
  journal : Alike (s.journal.foldl Store.apply {}) s.core.store
  snapshots : ∀ x ∈ s.snapshots, x.1 ≤ s.journal.length ∧
    Alike ((s.journal.drop x.1).foldl Store.apply (.from_snapshot x.2)) s.core.store
  created : s.core.store.last_id ≠ .MAX →
    s.created.Pairwise (· < ·) ∧ ∀ id ∈ s.created, id ≤ s.core.store.last_id

variable {s : Server}

theorem Growing.load (h : s.Growing) (chosen : Option Nat) :
    Alike s.core.store (s.load chosen) ∧ Bounded (s.load chosen) := by
  have hSymm : ∀ {a b : Store}, Alike a b → Alike b a := fun h =>
    ⟨h.last_id.symm, fun i => (h.rooms i).symm⟩
  unfold Server.load
  cases hChosen : chosen.bind fun i => s.snapshots[i]? with
  | none => exact ⟨hSymm h.journal, (Bounded.empty _ ∅).replay _⟩
  | some x =>
    obtain ⟨i, -, hi⟩ := Option.bind_eq_some_iff.mp hChosen
    exact ⟨hSymm (h.snapshots x (List.mem_of_getElem? hi)).2, (from_snapshot_bounded x.2).replay _⟩

theorem Growing.operation (h : s.Growing) (asked : Asked) : (s.step (.operation asked)).Growing := by
  obtain ⟨effects, hTrace⟩ := perform_numbers asked.op asked.now { s.core with memory := asked.memory }
  have hSince : s.core.since (s.core.perform asked) = effects := since_eq hTrace.journaled
  have hWrote : Wrote (Numbers asked.now) True s.core.store effects (s.core.perform asked).store := hTrace.wrote
  show Server.Growing { s with
    core := s.core.perform asked
    journal := s.journal ++ s.core.since (s.core.perform asked)
    created := s.created ++ (s.core.since (s.core.perform asked)).filterMap Effect.creates }
  rw [hSince]
  refine ⟨?_, ?_, fun x hx => ?_, fun hIds => ?_⟩
  · -- what the operation wrote keeps the store bounded
    refine hWrote.keeps (fun _ effect _ _ h => h.apply effect)
      (fun _ _ h => ⟨h.messages, h.broadcasts, h.rooms⟩) (fun store agent at_ h => ?_) h.bounded
    exact h.see agent at_
  · show Alike ((s.journal ++ effects).foldl Store.apply {}) _
    rw [List.foldl_append]
    exact h.journal.wrote hWrote
  · -- an earlier snapshot is followed by the new lines as well
    obtain ⟨hCovered, hAlike⟩ := h.snapshots x hx
    show x.1 ≤ (s.journal ++ effects).length ∧ Alike (((s.journal ++ effects).drop x.1).foldl Store.apply _) _
    rw [List.drop_append_of_le_length hCovered, List.foldl_append, List.length_append]
    exact ⟨hCovered.trans (Nat.le_add_right _ _), hAlike.wrote hWrote⟩
  · -- the new ids come after all the old ones
    obtain ⟨hUp, hSorted, hNew⟩ := hWrote.created hIds
    obtain ⟨hOldSorted, hOld⟩ := h.created (ids_left hUp hIds)
    refine ⟨List.pairwise_append.mpr ⟨hOldSorted, hSorted, fun a ha b hb => ?_⟩, fun id hId => ?_⟩
    · exact (hOld a ha).trans_lt (hNew b hb).1
    · rcases List.mem_append.mp hId with hIn | hIn
      · exact (hOld id hIn).trans hUp
      · exact (hNew id hIn).2

theorem Growing.snapshot (h : s.Growing) : (s.step .snapshot).Growing := by
  refine ⟨h.bounded, h.journal, fun x hx => ?_, h.created⟩
  rcases List.mem_append.mp hx with hOld | hNew
  · exact h.snapshots x hOld
  · rw [List.mem_singleton.mp hNew]
    refine ⟨le_rfl, ?_⟩
    show Alike ((s.journal.drop s.journal.length).foldl Store.apply _) s.core.store
    rw [List.drop_length]
    have hAlike := from_snapshot_alike h.bounded
    exact ⟨hAlike.last_id.symm, fun i => (hAlike.rooms i).symm⟩

theorem Growing.restart (h : s.Growing) (new : Core) (chosen : Option Nat) :
    (s.step (.restart new chosen)).Growing := by
  obtain ⟨hAlike, hBounded⟩ := h.load chosen
  refine ⟨hBounded, h.journal.trans hAlike, fun x hx => ?_, fun hIds => ?_⟩
  · exact ⟨(h.snapshots x hx).1, (h.snapshots x hx).2.trans hAlike⟩
  · have hLast : (s.load chosen).last_id = s.core.store.last_id := hAlike.last_id
    show s.created.Pairwise _ ∧ ∀ id ∈ s.created, id ≤ (s.load chosen).last_id
    have hIds : (s.load chosen).last_id ≠ .MAX := hIds
    rw [hLast] at hIds ⊢
    exact h.created hIds

theorem Growing.start {core : Core} (hEmpty : core.store = {}) : ({ core } : Server).Growing := by
  refine ⟨?_, ?_, nofun, fun _ => ⟨List.Pairwise.nil, nofun⟩⟩
  · show Bounded core.store
    rw [hEmpty]
    exact Bounded.empty _ ∅
  · show Alike {} core.store
    rw [hEmpty]
    exact .refl _

theorem Growing.run (h : s.Growing) (turns : List Turn) : (s.run turns).Growing := by
  induction turns generalizing s with
  | nil => exact h
  | cons turn turns ih =>
    refine ih ?_
    cases turn with
    | operation asked => exact h.operation asked
    | snapshot => exact h.snapshot
    | restart new chosen => exact h.restart new chosen

end Server

/-- **Ids are fresh forever**: over any operations at any times, and any restarts in
between, each message, broadcast and post takes an id above those of all that were
created before it, as long as ids do not run out. -/
theorem ids_fresh (core : Core) (hEmpty : core.store = {}) (turns : List Turn)
    (hIds : (Server.run { core } turns).core.store.last_id ≠ .MAX) :
    (Server.run { core } turns).created.Pairwise (· < ·) := by
  exact (((Server.Growing.start hEmpty).run turns).created hIds).1

/-- A message that is dropped, a clock that goes back, and restarts from a snapshot and
from the journal. -/
def dropped_and_restarted : List Turn :=
  let note : Operation := .broadcast "alice" "hello" none
  [.operation { op := note, now := 9 }, .operation { op := .clear_broadcasts, now := 9 }, .snapshot,
    .operation { op := note, now := 3 }, .operation { op := .clear_broadcasts, now := 3 },
    .restart {} (some 0), .operation { op := note, now := 1 }, .restart {} none,
    .operation { op := note, now := 1 }]

theorem ids_fresh_dropped :
    (Server.run { core := {} } dropped_and_restarted).created.Pairwise (· < ·) ∧
    (Server.run { core := {} } dropped_and_restarted).created.length = 4 :=
  ⟨ids_fresh {} rfl dropped_and_restarted (by decide +kernel), by decide +kernel⟩

end Postino.Forum
