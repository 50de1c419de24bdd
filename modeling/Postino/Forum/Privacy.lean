import Postino.Forum.Refusals

/-!
# What outsiders learn about a private room

Whoever is neither an administrator nor a member of a private room gets one answer to
whatever it asks of the room, whatever the room holds.

* `visible_room_hidden` — the check every operation makes first;
* `outsiders_learn_nothing` — the operations, over two states that differ in the room alone.
-/

namespace Postino.Forum

open Lib Fallible

/-- What can be asked of a room. -/
inductive RoomRequest where
  | create (topic : String) (private_ : Bool) (members : List String) (join : Bool)
  | join (agent : String) (role : Option Role)
  | leave (agent : String)
  | update (topic : Option String) (closed : Option Bool)
  | delete
  | post (body : String) (reply_to : Option Id) (about key : Option String) (ask : Option AskRequest)
  | answer (question : Id) (body : String) (choice key : Option String)
  | withdraw (question : Id)
  | board_set (key : String) (value : Option String) (expect : Option Nat)
  | can_view
  | read_room (limit : Nat)

/-- What came of a request, but for what it returns when it succeeds. -/
def outcome {α : Type} (m : Op α) : Op Unit := m >>= fun _ => pure ()

/-- A request made of the room `name`. -/
def RoomRequest.run (name : String) (actor : Actor) (now : Fin (2 ^ 64)) : RoomRequest → Op Unit
  | create topic private_ members joins =>
    outcome (create_room { name, topic, private_, members, join := joins } actor now)
  | join agent role => outcome (Forum.join name agent role actor now)
  | leave agent => leave_room name agent actor now
  | update topic closed => update_room name topic closed actor now
  | delete => delete_room name actor now
  | post body reply_to about key ask =>
    outcome (Forum.post { room := name, body, reply_to, about, key, ask } actor now)
  | answer question body choice key =>
    outcome (Forum.answer { room := name, question, body, choice, key } actor now)
  | withdraw question => Forum.withdraw name question actor now
  | board_set key value expect => outcome (Forum.board_set name key value expect actor now)
  | can_view => Forum.can_view name actor
  | read_room limit => outcome (Forum.read_room name actor.name limit)

/-- Two states that differ in what one private room holds, and in the idempotency keys of its
posts. -/
structure DifferIn (name : String) (core core' : Core) : Prop where
  rest : core' = { core with
    store := { core.store with rooms := core'.store.rooms, post_keys := core'.store.post_keys } }
  others : ∀ other ≠ name, core'.store.rooms[other]? = core.store.rooms[other]?
  room : ∃ r r', core.store.rooms[name]? = some r ∧ core'.store.rooms[name]? = some r' ∧ r.private_ = true ∧
    r' = { r with topic := r'.topic, closed := r'.closed, members := r'.members, board := r'.board
                  posts := r'.posts, open_ := r'.open_ }

/-- The room is private, and the actor is kept out of it. -/
def Outside (name : String) (actor : Actor) (core : Core) : Prop :=
  actor.admin = false ∧ ∃ r, core.store.rooms[name]? = some r ∧ r.private_ = true ∧ actor.name ∉ r.members

/-- What an outsider is told. -/
def hidden (name : String) : Error :=
  .Forbidden s!"room {debug name} is private to its members; an owner has to add you"

section

variable {name : String} {actor : Actor} {now : Fin (2 ^ 64)} {core : Core}

theorem visible_room_hidden (h : Outside name actor core) : visible_room name actor core = (.error (hidden name), core) := by
  obtain ⟨hAdmin, r, hRoom, hPrivate, hOut⟩ := h
  have hFound : room name core = (.ok r, core) := room_eq hRoom
  have hNot : r.members.contains actor.name = false :=
    Bool.eq_false_iff.mpr fun hIn => hOut (Std.ExtTreeMap.contains_iff_mem.mp hIn)
  unfold visible_room
  rw [bind_of_ok hFound, hAdmin, hPrivate, hNot]
  rfl

theorem outcome_error {α : Type} {m : Op α} {e : Error} (h : m core = (.error e, core)) :
    outcome m core = (.error e, core) := bind_of_error h

theorem join_hidden (h : Outside name actor core) (agent : String) (role : Option Role) :
    join name agent role actor now core = (.error (hidden name), core) :=
  bind_of_error (visible_room_hidden h)

/-- The answer to each request. -/
def RoomRequest.told (name : String) (actor : Actor) (core : Core) : RoomRequest → Error
  | create _ _ _ joins =>
    match (room_to_grow core).1 with
    | .error e => e
    | .ok _ =>
      if joins then hidden name else .Conflict s!"room {debug name} already exists; join it instead"
  | answer .. =>
    match (room_to_grow core).1 with
    | .error e => e
    | .ok _ => hidden name
  | read_room _ => .Forbidden s!"{debug actor.name} is not a member of room {debug name}; join it first"
  | _ => hidden name

theorem room_to_grow_state (core : Core) : (room_to_grow core).2 = core := by
  unfold room_to_grow
  show (refuse _ _ core).2 = core
  unfold refuse
  split <;> rfl

/-- An operation that first looks whether there is room to grow. -/
theorem after_room_to_grow {α : Type} {k : Unit → Op α} {e : Error} (h : k () core = (.error e, core)) :
    (room_to_grow >>= k) core =
      (.error (match (room_to_grow core).1 with
        | .error e => e
        | .ok _ => e), core) := by
  have hState := room_to_grow_state core
  rcases hGrow : room_to_grow core with ⟨e' | u, core'⟩
  · rw [hGrow] at hState
    cases hState
    exact bind_of_error hGrow
  · rw [hGrow] at hState
    cases hState
    rw [bind_of_ok hGrow]
    exact h

/-- **An outsider is told one thing, and nothing changes.** -/
theorem run_hidden (h : Outside name actor core) (request : RoomRequest) :
    request.run name actor now core = (.error (request.told name actor core), core) := by
  have hVisible := visible_room_hidden h
  have hJoin : join name actor.name none actor now core = (.error (hidden name), core) := join_hidden h actor.name none
  obtain ⟨-, r, hRoom, -, hOut⟩ := h
  cases request with
  | create topic private_ members joins =>
    refine (outcome_error (after_room_to_grow (e := if joins then hidden name else
      .Conflict s!"room {debug name} already exists; join it instead") ?_)).trans ?_
    · have hThere : core.store.rooms.contains name = true :=
        (BTreeMap.contains_iff_get _ _).mpr ⟨r, hRoom⟩
      show (if core.store.rooms.contains name then _ else _ : Op Bool) core = _
      rw [if_pos hThere]
      cases joins with
      | false => rfl
      | true => exact (bind_of_ok rfl).trans (bind_of_error hJoin)
    · unfold RoomRequest.told
      rfl
  | join agent role => exact outcome_error (bind_of_error hVisible)
  | leave agent => exact bind_of_error hVisible
  | update topic closed => exact bind_of_error hVisible
  | delete => exact bind_of_error hVisible
  | post body reply_to about key ask => exact outcome_error (bind_of_error hVisible)
  | answer question body choice key => exact outcome_error (after_room_to_grow (bind_of_error hVisible))
  | withdraw question => exact bind_of_error hVisible
  | board_set key value expect => exact outcome_error (bind_of_error hVisible)
  | can_view => exact bind_of_error hVisible
  | read_room limit =>
    refine outcome_error ?_
    have hFound : Forum.room name core = (.ok r, core) := room_eq hRoom
    have hNone : r.members[actor.name]? = none := Std.ExtTreeMap.getElem?_eq_none hOut
    unfold Forum.read_room
    rw [bind_of_ok hFound, hNone]
    rfl

end

/-- **Outsiders learn nothing about a private room.** Over two states that differ in what one
private room holds, whoever is neither an administrator nor a member in either is told the same
whatever it asks of the room, and nothing changes. -/
theorem outsiders_learn_nothing {name : String} {actor : Actor} {core core' : Core} (h : DifferIn name core core')
    (hOut : Outside name actor core) (hOut' : Outside name actor core') (request : RoomRequest)
    (now : Fin (2 ^ 64)) :
    ∃ e, request.run name actor now core = (.error e, core) ∧ request.run name actor now core' = (.error e, core') := by
  have hGrow : (room_to_grow core').1 = (room_to_grow core).1 := by
    rw [h.rest]
    unfold room_to_grow
    show (refuse _ _ _).1 = (refuse _ _ _).1
    unfold refuse
    dsimp only
    split <;> rfl
  have hTold : request.told name actor core' = request.told name actor core := by
    cases request <;> simp only [RoomRequest.told, hGrow]
  refine ⟨request.told name actor core, run_hidden hOut request, ?_⟩
  rw [← hTold]
  exact run_hidden hOut' request

/-- A room with a member, and the same room with another topic, nobody in it, and closed. -/
theorem outsiders_learn_nothing_den :
    let den : Room :=
      { name := "den", topic := "plans", created := 1, created_by := "ann", private_ := true
        members := (∅ : BTreeMap String Member).insert "ann" { role := .Owner, joined := 1, cursor := none } }
    let core : Core := { store := { rooms := (∅ : BTreeMap String Room).insert "den" den } }
    let core' : Core :=
      { store := { rooms := (∅ : BTreeMap String Room).insert "den" { den with topic := "", members := ∅, closed := some 5 } } }
    let eve : Actor := { name := "eve", admin := false, strict := true }
    ∃ e, (RoomRequest.withdraw .zero).run "den" eve 9 core = (.error e, core) ∧
      (RoomRequest.withdraw .zero).run "den" eve 9 core' = (.error e, core') := by
  intro den core core' eve
  have hRoom : core.store.rooms["den"]? = some den := by simp [core]
  have hRoom' : core'.store.rooms["den"]? = some { den with topic := "", members := ∅, closed := some 5 } := by
    simp [core']
  have hDiffer : DifferIn "den" core core' := by
    refine ⟨rfl, fun other hNe => ?_, den, _, hRoom, hRoom', rfl, rfl⟩
    simp only [core, core', BTreeMap.get_insert_ne _ _ hNe.symm]
  have hOut : "eve" ∉ den.members := by decide +kernel
  have hOut' : "eve" ∉ ({ den with topic := "", members := ∅, closed := some 5 } : Room).members := by decide +kernel
  exact outsiders_learn_nothing hDiffer ⟨rfl, den, hRoom, rfl, hOut⟩ ⟨rfl, _, hRoom', rfl, hOut'⟩ (.withdraw .zero) 9

end Postino.Forum
