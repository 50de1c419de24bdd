import Postino.Forum.Frames
import Postino.Forum.Operations

/-!
# Reading a private room

What the handlers of one agent's reads show, each taking the lock as often as the
source does, among any other operations. A read of the room, its posts or its board
checks and reads in one go. A read of the agent's unread posts checks at every
attempt. A read of a question checks once, before it may wait.

* `private_reads` — all that is shown is shown to a member, as long as nothing takes
  the room out of the agent's sight while a question is read.
* `private_reads_removed` — a member that is removed meanwhile still gets the question.
-/

namespace Postino.Forum

open Lib Fallible JsonValue

/-! ## What is shown of a room -/

def Room.unread (room : Room) (agent : String) : Nat :=
  let cursor := (room.members[agent]?).bind Member.cursor
  (room.posts.toList.filter fun p => cursor.all (fun c => p.1 > c) && p.2.from_ ≠ agent).length

/-- Open questions that name `agent` and still wait for its answer. -/
def Room.waiting_for (room : Room) (agent : String) : Nat :=
  let posts := room.posts.toList.map Prod.snd
  let answered := (posts.filter fun p => p.kind = .Answer && p.from_ = agent).filterMap Post.reply_to
  (posts.filter fun p =>
    p.ask.any (fun a => a.status = .Open && a.to_.contains agent) && !answered.contains p.id).length

def entry_json (key : String) (entry : Entry) : JsonValue :=
  of_fields
    [("key", .string key), ("value", .string entry.value), ("by", .string entry.by_),
      ("version", .number entry.version), ("updatedAt", time entry.at_)]

def board_json (name : String) : Op JsonValue := do
  let record ← room name
  pure (.array (record.board.toList.map fun e => entry_json e.1 e.2))

def Store.room_summary (store : Store) (room : Room) (viewer : String) (now : Nat) :
    List (String × JsonValue) :=
  let last := (room.posts.toList.getLast?).elim room.created fun p => p.2.created
  let online := (room.members.toList.filter fun m => store.is_online m.1 now).length
  [("name", .string room.name), ("topic", .string room.topic), ("private", .bool room.private_),
    ("open", .bool room.is_open), ("memberCount", .number room.members.size),
    ("onlineCount", .number online), ("postCount", .number room.posts.size),
    ("openQuestions", .number room.open_.size), ("member", .bool (room.members.contains viewer)),
    ("role", of_option (fun m => .string (Member.role m).display) room.members[viewer]?),
    ("unread", .number (if room.members.contains viewer then room.unread viewer else 0)),
    ("waiting", .number (room.waiting_for viewer)), ("lastActivity", time last)]

def Store.member_json (store : Store) (room : Room) (name : String) (member : Member) (now : Nat) :
    JsonValue :=
  of_fields
    [("name", .string name), ("role", .string member.role.display),
      ("online", .bool (store.is_online name now)), ("unread", .number (room.unread name)),
      ("joinedAt", time member.joined)]

def room_json (name viewer : String) (now : Nat) : Op JsonValue := do
  let record ← room name
  let core ← read
  let board ← board_json name
  pure <| of_fields <| core.store.room_summary record viewer now ++
    [("createdAt", time record.created), ("createdBy", .string record.created_by),
      ("closedAt", of_option time record.closed),
      ("members", .array (record.members.toList.map fun m => core.store.member_json record m.1 m.2 now)),
      ("board", board), ("questions", .array (record.open_questions.map (post_json record)))]

structure PostQuery where
  before : Option Id := none
  about : Option String := none
  kind : Option Kind := none
  limit : Nat

/-- A newest-last page of a room's timeline, scanning back from `before`. -/
def room_posts (name : String) (query : PostQuery) : Op (List JsonValue × Option Id) := do
  let record ← room name
  let range := record.posts.toList.filter fun p => query.before.all fun before => p.1 < before
  let found := ((range.reverse.map Prod.snd).filter fun p =>
    query.about.all (p.about = some ·) && query.kind.all (p.kind = ·)).take (query.limit + 1)
  let items := found.take query.limit
  let next := if found.length > query.limit then (items.getLast?).map Post.id else none
  pure (items.reverse.map (post_json record), next)

/-- The question `id`, with its room. -/
def question_post (name : String) (id : Id) : Op (Room × Post) := do
  let record ← room name
  match (record.posts[id]?).filter fun p => p.kind = .Question with
  | some post => pure (record, post)
  | none => fail <| .NotFound s!"question {id.display} is not in room {debug name}"

def question (name : String) (id : Id) : Op JsonValue := do
  let (record, post) ← question_post name id
  pure (post_json record post)

/-! ## The handlers -/

inductive View where
  | room
  | posts (query : PostQuery)
  | board
  | question (id : Id)
  | read (limit : Nat)

/-- A request that may wait, between two times it has the lock. -/
inductive Waiting where
  | question (id : Id)
  | read (limit : Nat)
  deriving DecidableEq

/-- An attempt of `room_wait`. -/
def read_attempt (name agent : String) (limit : Nat) : Op (Option JsonValue) := do
  let core ← read
  let (items, remaining) ← read_room name agent limit
  let shown := (core.store.rooms[name]?).elim [] fun record => items.map (post_json record)
  if items = [] then pure none
  else pure (some (of_fields [("items", .array shown), ("remaining", .number remaining)]))

/-- An attempt of `question_wait`. -/
def question_attempt (name : String) (id : Id) : Op (Option JsonValue) := do
  let (record, post) ← question_post name id
  if post.is_open_question then pure none
  else pure (some (of_fields [("question", post_json record post)]))

/-- What a request does when it first has the lock: it shows something, or waits. -/
def View.start (name : String) (actor : Actor) (now : Nat) : View → Op (JsonValue ⊕ Waiting)
  | .room => do
    can_view name actor
    let value ← room_json name actor.name now
    pure (.inl value)
  | .posts query => do
    can_view name actor
    let (items, next) ← room_posts name query
    pure (.inl (of_fields
      [("items", .array items), ("next", of_option (fun id => .string (Id.display id)) next)]))
  | .board => do
    can_view name actor
    let items ← board_json name
    pure (.inl (of_fields [("items", items)]))
  | .question id => do
    can_view name actor
    pure (.inr (.question id))
  | .read limit => do
    match ← read_attempt name actor.name limit with
    | some shown => pure (.inl shown)
    | none => pure (.inr (.read limit))

/-- What it does when it has the lock again. -/
def Waiting.retry (name : String) (actor : Actor) : Waiting → Op (Option JsonValue)
  | .question id => question_attempt name id
  | .read limit => read_attempt name actor.name limit

/-- What it shows once it does not wait any longer. -/
def Waiting.give_up (name : String) : Waiting → Op (Option JsonValue)
  | .question id => do
    let shown ← Forum.question name id
    pure (some (of_fields [("question", shown)]))
  | .read _ => pure none

/-! ## Runs -/

/-- The core, the actor's requests that wait, and what was shown to it, with the core
as it was then. -/
structure Reading where
  core : Core
  waiting : List Waiting := []
  shown : List (Core × JsonValue) := []

inductive Move where
  | operation (operation : Operation) (now : Fin (2 ^ 64))
  | request (view : View) (now : Nat)
  | retry (i : Nat)
  | give_up (i : Nat)

namespace Reading

variable (name : String) (actor : Actor)

def step (s : Reading) : Move → Reading
  | .operation operation now => { s with core := (operation.perform now s.core).2 }
  | .request view now =>
    match view.start name actor now s.core with
    | (.ok (.inl value), core) => { s with core, shown := s.shown ++ [(s.core, value)] }
    | (.ok (.inr waiting), core) => { s with core, waiting := s.waiting ++ [waiting] }
    | (.error _, core) => { s with core }
  | .retry i =>
    match s.waiting[i]? with
    | none => s
    | some waiting =>
      match waiting.retry name actor s.core with
      | (.ok (some value), core) =>
        { core, waiting := s.waiting.eraseIdx i, shown := s.shown ++ [(s.core, value)] }
      | (.ok none, core) => { s with core }
      | (.error _, core) => { s with core, waiting := s.waiting.eraseIdx i }
  | .give_up i =>
    match s.waiting[i]? with
    | none => s
    | some waiting =>
      match waiting.give_up name s.core with
      | (.ok (some value), core) =>
        { core, waiting := s.waiting.eraseIdx i, shown := s.shown ++ [(s.core, value)] }
      | (_, core) => { s with core, waiting := s.waiting.eraseIdx i }

def run (s : Reading) (moves : List Move) : Reading := moves.foldl (step name actor) s

end Reading

/-- The room is not private, or `actor` is a member. -/
def InSight (name : String) (actor : Actor) (core : Core) : Prop :=
  ∀ record, core.store.rooms[name]? = some record → record.private_ = true →
    actor.name ∈ record.members

instance (name : String) (actor : Actor) (core : Core) : Decidable (InSight name actor core) :=
  decidable_of_iff ((core.store.rooms[name]?).all fun record =>
    !record.private_ || record.members.contains actor.name) <| by
      unfold InSight
      cases core.store.rooms[name]? with
      | none => simp
      | some record =>
        rw [Option.all_some, Bool.or_eq_true]
        constructor
        · rintro hShown _ ⟨⟩ hPrivate
          exact hShown.resolve_left (by simp [hPrivate])
        · intro h
          cases hPrivate : record.private_ with
          | false => exact .inl rfl
          | true => exact .inr (h record rfl hPrivate)

/-- While the actor reads a question, no operation takes the room out of its sight. -/
def Undisturbed (name : String) (actor : Actor) : Reading → List Move → Prop
  | _, [] => True
  | s, move :: moves =>
    (match move with
      | .operation operation now => (∃ id, .question id ∈ s.waiting) → InSight name actor s.core →
          InSight name actor (operation.perform now s.core).2
      | _ => True) ∧ Undisturbed name actor (s.step name actor move) moves

/-! ## What the handlers check -/

section

variable {name : String} {actor : Actor} {core : Core}

theorem checks_can_view (hAgent : actor.admin = false) :
    Checks (can_view name actor) core fun _ => InSight name actor core := by
  unfold can_view
  refine checks_bind (sat_visible_room core name actor) fun record h => checks_pure ?_
  obtain ⟨hRoom, hShown⟩ := h
  intro record' hRoom' hPrivate
  obtain rfl : record = record' := Option.some.inj (hRoom.symm.trans hRoom')
  rw [hAgent, hPrivate] at hShown
  exact hShown

theorem checks_room : Checks (room name) core fun record => core.store.rooms[name]? = some record :=
  sat_room core name

theorem checks_board_json : Checks (board_json name) core fun _ => True :=
  checks_bind checks_room fun _ _ => checks_pure trivial

theorem checks_room_json (viewer : String) (now : Nat) :
    Checks (room_json name viewer now) core fun _ => True :=
  checks_bind checks_room fun _ _ => sat_read (checks_bind checks_board_json fun _ _ =>
    checks_pure trivial)

theorem checks_room_posts (query : PostQuery) :
    Checks (room_posts name query) core fun _ => True :=
  checks_bind checks_room fun _ _ => checks_pure trivial

theorem checks_question_post (id : Id) : Checks (question_post name id) core fun _ => True := by
  unfold question_post
  refine checks_bind checks_room fun record _ => ?_
  split
  · exact checks_pure trivial
  · exact checks_fail

theorem checks_question_attempt (id : Id) :
    Checks (question_attempt name id) core fun _ => True := by
  unfold question_attempt
  refine checks_bind (checks_question_post id) fun found _ => ?_
  dsimp only
  split
  · exact checks_pure trivial
  · exact checks_pure trivial

/-- A reader's cursor changes nobody's membership. -/
theorem cursor_inSight (h : InSight name actor core) {core' : Core} {room agent : String} {id : Id}
    (hStore : core'.store = core.store.apply (.RoomCursor room agent id)) :
    InSight name actor core' := by
  intro record hRoom hPrivate
  rw [hStore, apply_room core.store rfl] at hRoom
  unfold Effect.on_room on_one at hRoom
  dsimp only at hRoom
  split at hRoom
  · obtain ⟨r, hR, rfl⟩ := Option.map_eq_some_iff.mp hRoom
    split at hPrivate
    · exact Std.ExtTreeMap.mem_insert.mpr (.inr (h r hR hPrivate))
    · exact h r hR hPrivate
  · exact h record hRoom hPrivate

/-- **A read of unread posts checks that the reader is a member.** -/
theorem read_attempt_sat (limit : Nat) :
    Sat (read_attempt name actor.name limit) core
      (fun _ core' => InSight name actor core ∧ InSight name actor core')
      (fun core' => InSight name actor core → InSight name actor core') := by
  unfold read_attempt read_room
  refine sat_read (sat_bind (sat_bind ((sat_room core name).mono (fun record core₁ h => ?_) ?_)))
  · obtain ⟨rfl, hRoom⟩ := h
    cases hMember : record.members[actor.name]? with
    | none => exact sat_fail id
    | some member =>
      -- the room found a member of that name, so the reader may see it
      have hSees : InSight name actor core₁ := by
        intro record' hRoom' _
        obtain rfl : record = record' := Option.some.inj (hRoom.symm.trans hRoom')
        exact (BTreeMap.mem_iff_get _ _).mpr ⟨member, hMember⟩
      -- what is shown or not shown then changes nothing
      have hEnd : ∀ (items : List Post) (remaining : Nat) core₂, InSight name actor core₂ →
          Sat (do
            let shown := (core₁.store.rooms[name]?).elim [] fun record => items.map (post_json record)
            if items = [] then pure none
            else pure (some (of_fields [("items", .array shown), ("remaining", .number remaining)]))
              : Op (Option JsonValue)) core₂
            (fun _ core' => InSight name actor core₁ ∧ InSight name actor core')
            (fun core' => InSight name actor core₁ → InSight name actor core') := by
        intro items remaining core₂ h₂
        dsimp only
        split
        · exact sat_pure ⟨hSees, h₂⟩
        · exact sat_pure ⟨hSees, h₂⟩
      dsimp only
      -- the cursor is moved when there is something to read
      split
      · refine sat_bind ((sat_commit_any _ core₁).mono (fun _ core₂ h₂ => ?_) fun core₂ h₂ => ?_)
        · exact sat_pure (hEnd _ _ core₂ (cursor_inSight hSees h₂))
        · -- a commit that is refused leaves the room as it is
          intro _ record' hRoom'
          exact hSees record' (h₂ ▸ hRoom')
      · exact sat_pure (hEnd _ _ core₁ hSees)
  · rintro _ rfl
    exact id

/-- What a request shows at once it shows to a member, and it waits only if it is
one. -/
theorem start_sat (hAgent : actor.admin = false) (view : View) (now : Nat) :
    Sat (view.start name actor now) core
      (fun _ core' => InSight name actor core ∧ InSight name actor core')
      (fun core' => InSight name actor core → InSight name actor core') := by
  -- a request that only checks leaves everything as it was
  have hOf : ∀ {α : Type} {m : Op α}, Checks m core (fun _ => InSight name actor core) →
      Sat m core (fun _ core' => InSight name actor core ∧ InSight name actor core')
        (fun core' => InSight name actor core → InSight name actor core') := by
    intro α m h
    refine h.mono (fun _ core' hDone => ?_) fun core' hSame => ?_
    · obtain ⟨rfl, hSees⟩ := hDone
      exact ⟨hSees, hSees⟩
    · subst hSame
      exact id
  cases view with
  | room =>
    exact hOf (checks_bind (checks_can_view hAgent) fun _ h => checks_bind (checks_room_json _ now)
      fun _ _ => checks_pure h)
  | posts query =>
    exact hOf (checks_bind (checks_can_view hAgent) fun _ h => checks_bind (checks_room_posts query)
      fun _ _ => checks_pure h)
  | board =>
    exact hOf (checks_bind (checks_can_view hAgent) fun _ h => checks_bind checks_board_json
      fun _ _ => checks_pure h)
  | question id => exact hOf (checks_bind (checks_can_view hAgent) fun _ h => checks_pure h)
  | read limit =>
    refine sat_bind ((read_attempt_sat limit).mono (fun shown core' h => ?_) fun _ => id)
    split
    · exact sat_pure h
    · exact sat_pure h

/-! ## Runs -/

/-- All that was shown was shown while the room was in sight; it is in sight for as
long as a question is read. -/
structure ReadingInv (name : String) (actor : Actor) (s : Reading) : Prop where
  shown : ∀ p ∈ s.shown, InSight name actor p.1
  waiting : (∃ id, .question id ∈ s.waiting) → InSight name actor s.core

theorem ReadingInv.erase {s : Reading} (h : ReadingInv name actor s) {core' : Core} (i : Nat)
    (hCore : InSight name actor s.core → InSight name actor core') :
    ReadingInv name actor { s with core := core', waiting := s.waiting.eraseIdx i } :=
  ⟨h.shown, fun ⟨id, hId⟩ => hCore (h.waiting ⟨id, List.mem_of_mem_eraseIdx hId⟩)⟩

theorem ReadingInv.show {s : Reading} (h : ReadingInv name actor s) {core' : Core} {value : JsonValue}
    (hSees : InSight name actor s.core) (hCore : InSight name actor core') (waiting : List Waiting) :
    ReadingInv name actor { core := core', waiting, shown := s.shown ++ [(s.core, value)] } := by
  refine ⟨fun p hp => ?_, fun _ => hCore⟩
  rcases List.mem_append.mp hp with hp | hp
  · exact h.shown p hp
  · obtain rfl := List.mem_singleton.mp hp
    exact hSees

/-- A question is read only while the room is in sight; an attempt leaves it there. -/
theorem question_sat {α : Type} {m : Op α} (hChecks : Checks m core fun _ => True)
    (hSees : InSight name actor core) :
    Sat m core (fun _ core' => InSight name actor core ∧ InSight name actor core')
      (fun core' => InSight name actor core → InSight name actor core') := by
  refine hChecks.mono (fun _ core' hDone => ?_) fun core' hSame => ?_
  · obtain ⟨rfl, -⟩ := hDone
    exact ⟨hSees, hSees⟩
  · subst hSame
    exact id

/-- **One move.** -/
theorem step_reading {s : Reading} (h : ReadingInv name actor s) (hAgent : actor.admin = false)
    (move : Move) (hKept : ∀ operation now, move = .operation operation now →
      (∃ id, .question id ∈ s.waiting) → InSight name actor s.core →
      InSight name actor (operation.perform now s.core).2) :
    ReadingInv name actor (s.step name actor move) := by
  cases move with
  | operation operation now =>
    -- only an operation can put the room out of sight of a reader who waits
    exact ⟨h.shown, fun hWaits => hKept operation now rfl hWaits (h.waiting hWaits)⟩
  | request view now =>
    unfold Reading.step
    dsimp only
    rcases (@start_sat _ _ s.core hAgent view now).elim with
      ⟨value | waiting, core', hResult, hSees, hCore⟩ | ⟨_, core', hResult, hCore⟩
    · rw [hResult]
      exact h.show hSees hCore s.waiting
    · rw [hResult]
      exact ⟨h.shown, fun _ => hCore⟩
    · rw [hResult]
      exact ⟨h.shown, fun hWaits => hCore (h.waiting hWaits)⟩
  | retry i =>
    unfold Reading.step
    dsimp only
    cases hWaiting : s.waiting[i]? with
    | none => exact h
    | some waiting =>
      dsimp only
      -- a question is asked again without a look at the members, so what it shows rests on what was in sight
      have hRetry : Sat (waiting.retry name actor) s.core
          (fun _ core' => InSight name actor s.core ∧ InSight name actor core')
          (fun core' => InSight name actor s.core → InSight name actor core') := by
        cases waiting with
        | question id =>
          exact question_sat (checks_question_attempt id)
            (h.waiting ⟨id, List.mem_of_getElem? hWaiting⟩)
        | read limit => exact read_attempt_sat limit
      rcases hRetry.elim with ⟨- | value, core', hResult, hSees, hCore⟩ | ⟨_, core', hResult, hCore⟩
      · rw [hResult]
        exact ⟨h.shown, fun _ => hCore⟩
      · rw [hResult]
        exact h.show hSees hCore _
      · rw [hResult]
        exact h.erase i hCore
  | give_up i =>
    unfold Reading.step
    dsimp only
    cases hWaiting : s.waiting[i]? with
    | none => exact h
    | some waiting =>
      dsimp only
      cases waiting with
      | question id =>
        -- the last look at a question, when its time is up
        have hSees := h.waiting ⟨id, List.mem_of_getElem? hWaiting⟩
        have hChecks : Checks (Waiting.give_up name (.question id)) s.core fun _ => True :=
          checks_bind (P := fun _ => True)
            (checks_bind (checks_question_post id) fun _ _ => checks_pure trivial)
            fun _ _ => checks_pure trivial
        rcases (question_sat hChecks hSees).elim with
          ⟨- | value, core', hResult, -, hCore⟩ | ⟨_, core', hResult, hCore⟩
        · rw [hResult]
          exact h.erase i fun _ => hCore
        · rw [hResult]
          exact h.show hSees hCore _
        · rw [hResult]
          exact h.erase i hCore
      | read limit => exact h.erase i id

theorem run_reading (hAgent : actor.admin = false) (moves : List Move) {s : Reading}
    (h : ReadingInv name actor s) (hKept : Undisturbed name actor s moves) :
    ReadingInv name actor (s.run name actor moves) := by
  induction moves generalizing s with
  | nil => exact h
  | cons move moves ih =>
    obtain ⟨hMove, hRest⟩ := hKept
    refine ih (step_reading h hAgent move fun operation now hOperation => ?_) hRest
    subst hOperation
    exact hMove

end

/-- **What an agent is shown of a private room, it is shown as a member**, in every
run in which nothing takes the room out of its sight while it reads a question. -/
theorem private_reads (name : String) (actor : Actor) (hAgent : actor.admin = false) (core : Core)
    (moves : List Move) (hKept : Undisturbed name actor { core } moves) :
    ∀ p ∈ (Reading.run name actor { core } moves).shown, InSight name actor p.1 :=
  (run_reading hAgent moves ⟨List.forall_mem_nil _, fun ⟨_, h⟩ => absurd h List.not_mem_nil⟩ hKept).shown

/-! ## A member removed while it reads -/

def alice : Actor := { name := "alice", admin := false, strict := false }

def bob : Actor := { name := "bob", admin := false, strict := true }

/-- Alice's private room with Bob in it, and the question she asks there. -/
def private_room : Core × Id :=
  let room : CreateRoom :=
    { name := "plans", topic := "", private_ := true, members := ["bob"], join := false }
  let ask : PostRequest :=
    { room := "plans", body := "Which day?", reply_to := none, about := none, key := none
      ask := some { to_ := [], options := [], ttl_ms := none } }
  let core := (create_room room alice 1 {}).2
  match post ask alice 2 core with
  | (.ok (asked, _), core) => (core, asked.id)
  | (.error _, core) => (core, .zero)

/-- Bob reads the question; meanwhile Alice may remove him, and then withdraws it. -/
def question_moves (removed : Bool) : List Move :=
  [.request (.question private_room.2) 3, .retry 0] ++
    (if removed then [.operation (.leave_room "plans" "bob" alice) 4] else []) ++
    [.operation (.withdraw "plans" private_room.2 alice) 5, .retry 0]

theorem private_reads_kept :
    (Reading.run "plans" bob { core := private_room.1 } (question_moves false)).shown.length = 1 ∧
      ∀ p ∈ (Reading.run "plans" bob { core := private_room.1 } (question_moves false)).shown,
        InSight "plans" bob p.1 := by
  refine ⟨by decide +kernel, private_reads "plans" bob rfl private_room.1 _ ?_⟩
  have hKept : InSight "plans" bob (Operation.perform 5 (.withdraw "plans" private_room.2 alice)
      ((Reading.run "plans" bob { core := private_room.1 }
        [.request (.question private_room.2) 3, .retry 0]).core)).2 := by decide +kernel
  exact ⟨trivial, trivial, fun _ _ => hKept, trivial, trivial⟩

theorem private_reads_removed :
    ¬ ∀ (name : String) (actor : Actor), actor.admin = false → ∀ (core : Core) (moves : List Move),
      ∀ p ∈ (Reading.run name actor { core } moves).shown, InSight name actor p.1 := by
  intro h
  exact absurd (h "plans" bob rfl private_room.1 (question_moves true)) (by decide +kernel)

end Postino.Forum
