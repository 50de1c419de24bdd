import Postino.Forum.Restarts

/-!
# Indexes and rebuilds

The store keeps its indexes with every change, and rebuilds them all only when an agent
is renamed and when a snapshot is loaded. What it keeps is what a rebuild makes:
the messages and the records of the agents decide every index.

* `Sound.unique` — two stores with the same messages and records have the same indexes.
* `Sound.retrack` — a rebuild makes the indexes, whatever was there.
* `Tidy.apply` — the indexes are those of a rebuild after any effect.
* `indexes_rebuilt` — over any sequence of effects, and a restart from a snapshot.
-/

namespace Postino.Forum

open Lib

/-! ## What the messages decide -/

section Unique

variable {messages : BTreeMap Id Message} {C : Message → Prop} {P P' : Id → Prop}
  {agents agents' : BTreeMap String Agent} {due due' : Due}

theorem Tracks.unique (h : Tracks messages C P) (h' : Tracks messages C P') (id : Id) :
    P id ↔ P' id := (h id).trans (h' id).symm

/-- A set of times and ids is known by what it holds for each time. -/
theorem due_set_unique {C : Nat → Message → Prop} {set set' : BTreeSet (Nat ×ₗ Id)}
    (h : ∀ t, Tracks messages (C t) fun id => toLex (t, id) ∈ set)
    (h' : ∀ t, Tracks messages (C t) fun id => toLex (t, id) ∈ set') : set = set' :=
  BTreeSet.ext_mem fun k => (h (ofLex k).1).unique (h' (ofLex k).1) (ofLex k).2

theorem Agent.eq_of_record {a b : Agent} (hRecord : a.record = b.record) (hInbox : a.inbox = b.inbox)
    (hQueued : a.queued = b.queued) (hSettled : a.settled = b.settled) (hCounts : a.counts = b.counts)
    (hSenders : a.senders = b.senders) : a = b := by
  cases a
  cases b
  simp_all [Agent.record]

/-- **Messages and records decide the rest.** -/
theorem Indexed.unique (h : Indexed messages agents due) (hHoused : Housed messages agents)
    (h' : Indexed messages agents' due') (hHoused' : Housed messages agents')
    (hRecords : ∀ name, record_of agents' name = record_of agents name) :
    agents' = agents ∧ due' = due := by
  refine ⟨BTreeMap.ext_get fun name => ?_, ?_⟩
  · have hRecord := hRecords name
    unfold record_of at hRecord
    cases ha : agents[name]? with
    | none =>
      rw [ha] at hRecord
      exact Option.map_eq_none_iff.mp hRecord
    | some a =>
      rw [ha] at hRecord
      obtain ⟨a', ha', hSame⟩ := Option.map_eq_some_iff.mp hRecord
      rw [ha']
      -- each index lists what the messages say, in both
      refine congrArg some (Agent.eq_of_record hSame ?_ ?_ ?_ ?_ ?_)
      · exact BTreeSet.ext_mem ((hHoused'.inbox name a' ha').unique (hHoused.inbox name a ha))
      · exact BTreeSet.ext_mem ((h'.queued name a' ha').unique (h.queued name a ha))
      · exact BTreeSet.ext_mem ((h'.settled name a' ha').unique (h.settled name a ha))
      · rw [h'.counts name a' ha', h.counts name a ha]
      · refine BTreeMap.ext_get fun from_ => ?_
        rw [h'.senders name a' ha', h.senders name a ha]
  · -- so do the sets of what is due
    have hLeases := due_set_unique h'.leases_due h.leases_due
    have hExpiry := due_set_unique h'.expiry_due h.expiry_due
    have hSettled := due_set_unique h'.settled_due h.settled_due
    cases due
    cases due'
    simp_all

end Unique

theorem Sound.unique {store store' : Store} (h : Sound store) (h' : Sound store')
    (hMessages : store'.messages = store.messages)
    (hRecords : ∀ name, record_of store'.agents name = record_of store.agents name) :
    store'.agents = store.agents ∧ store'.due = store.due := by
  have hIndexed := h'.indexed
  have hHoused := h'.housed
  rw [hMessages] at hIndexed hHoused
  exact h.indexed.unique h.housed hIndexed hHoused hRecords

/-! ## A rebuild -/

/-- Tracking messages one after the other. -/
theorem track_all (all : BTreeMap Id Message) (entries : List (Id × Message))
    (hKeyed : ∀ e ∈ entries, e.2.id = e.1) (hNodup : (entries.map Prod.fst).Nodup)
    {messages : BTreeMap Id Message} (hNew : ∀ e ∈ entries, messages[e.1]? = none) (store : Store)
    (h : Indexed messages store.agents store.due) (hHoused : Housed all store.agents) :
    let store' := entries.foldl (fun store m => store.track m.2 true) store
    Indexed (entries.foldl (fun m e => m.insert e.1 e.2) messages) store'.agents store'.due ∧
      Housed all store'.agents := by
  induction entries generalizing messages store with
  | nil => exact ⟨h, hHoused⟩
  | cons e entries ih =>
    rw [List.map_cons, List.nodup_cons] at hNodup
    obtain ⟨hOut, hNodup⟩ := hNodup
    have hId : e.2.id = e.1 := hKeyed e List.mem_cons_self
    have hTracked : Indexed (messages.insert e.1 e.2) (store.track e.2 true).agents
        (store.track e.2 true).due := by
      have hFresh : messages[e.2.id]? = none := hId ▸ hNew e List.mem_cons_self
      rw [← hId]
      exact h.track hFresh
    -- none that is still to come is there yet
    have hNew' : ∀ e' ∈ entries, (messages.insert e.1 e.2)[e'.1]? = none := by
      intro e' hMem
      have hNe : e.1 ≠ e'.1 := fun hEq => hOut (hEq ▸ List.mem_map_of_mem hMem)
      rw [BTreeMap.get_insert_ne _ _ hNe]
      exact hNew e' (List.mem_cons_of_mem _ hMem)
    exact ih (fun e' hMem => hKeyed e' (List.mem_cons_of_mem _ hMem)) hNodup hNew' _ hTracked
      (hHoused.track e.2 true)

theorem retrack_record (store : Store) (name : String) :
    record_of store.retrack.agents name = record_of store.agents name := by
  have hEach : ∀ (messages : List (Id × Message)) (start : Store),
      record_of (messages.foldl (fun store m => store.track m.2 true) start).agents name =
        record_of start.agents name := by
    intro messages
    induction messages with
    | nil => exact fun _ => rfl
    | cons m messages ih => exact fun start => (ih _).trans (record_of_track _ _ _ true name)
  refine (hEach _ _).trans ?_
  unfold record_of
  rw [Std.ExtTreeMap.getElem?_map, Option.map_map]
  rfl

/-- **A rebuild makes the indexes**, whatever they were. -/
theorem Sound.retrack {store : Store}
    (hKnown : ∀ (id : Id) m, store.messages[id]? = some m → m.id = id ∧ id ≤ store.last_id)
    (hHoused : Housed store.messages store.agents) :
    Sound store.retrack := by
  -- the rebuild starts from agents with empty indexes
  set cleared := store.agents.map fun _ agent =>
    { agent with queued := ∅, settled := ∅, counts := {}, senders := ∅ } with hCleared
  have hGet : ∀ (name : String) a, cleared[name]? = some a → ∃ a', store.agents[name]? = some a' ∧
      a = { a' with queued := ∅, settled := ∅, counts := {}, senders := ∅ } := by
    intro name a ha
    rw [hCleared, Std.ExtTreeMap.getElem?_map] at ha
    obtain ⟨a', ha', rfl⟩ := Option.map_eq_some_iff.mp ha
    exact ⟨a', ha', rfl⟩
  have hEmpty : Indexed ∅ cleared {} := by
    refine { Sound.empty.indexed with queued := ?_, settled := ?_, counts := ?_, senders := ?_ }
    · intro name a ha id
      obtain ⟨a', -, rfl⟩ := hGet name a ha
      simp
    · intro name a ha id
      obtain ⟨a', -, rfl⟩ := hGet name a ha
      simp
    · intro name a ha
      obtain ⟨a', -, rfl⟩ := hGet name a ha
      rfl
    · intro name a ha from_
      obtain ⟨a', -, rfl⟩ := hGet name a ha
      rfl
  -- the inboxes are not rebuilt, and stay as they are
  have hHousedCleared : Housed store.messages cleared := by
    refine ⟨fun name a ha => ?_, fun id m hm => ?_⟩
    · obtain ⟨a', ha', rfl⟩ := hGet name a ha
      exact hHoused.inbox name a' ha'
    · exact Std.ExtTreeMap.mem_map.mpr (hHoused.agent id m hm)
  -- and tracks every message from there
  have hAll := track_all store.messages store.messages.toList
    (fun e he => (hKnown e.1 e.2 ((BTreeMap.mem_toList _ _ _).mp he)).1) (BTreeMap.nodup_keys _)
    (fun _ _ => by simp) { store with due := {}, agents := cleared } hEmpty hHousedCleared
  rw [BTreeMap.foldl_insert] at hAll
  have hBeside := retrack_beside store
  refine ⟨?_, ?_, ?_⟩
  · rw [hBeside.messages]
    exact hAll.1
  · rw [hBeside.messages]
    exact hAll.2
  · rw [hBeside.messages, hBeside.last_id]
    exact fun id m hm => (hKnown id m hm).2

/-! ## Every effect -/

section Effects

variable {store : Store}

/-- When an agent was seen, and what it has read, is none of the messages' business. -/
theorem Sound.record (h : Sound store) {agent : String} {record changed : Agent}
    (ha : store.agents[agent]? = some record)
    (hChanged : changed = { record with last_seen := changed.last_seen, cursor := changed.cursor }) :
    Sound { store with agents := store.agents.insert agent changed } := by
  have hGet : ∀ (name : String) a, (store.agents.insert agent changed)[name]? = some a →
      ∃ a', store.agents[name]? = some a' ∧ a = { a' with last_seen := a.last_seen, cursor := a.cursor } := by
    intro name a hName
    rw [BTreeMap.get_insert] at hName
    split at hName
    · next hIs =>
      cases hName
      exact ⟨record, hIs ▸ ha, hChanged⟩
    · exact ⟨a, hName, rfl⟩
  refine ⟨h.indexed.agents_congr fun name a hName => ?_, ⟨fun name a hName => ?_, fun i m hm => ?_⟩, h.known⟩
  · obtain ⟨a', ha', hSame⟩ := hGet name a hName
    rw [hSame]
    exact ⟨a', ha', rfl, rfl, rfl, rfl⟩
  · obtain ⟨a', ha', hSame⟩ := hGet name a hName
    rw [hSame]
    exact h.housed.inbox name a' ha'
  · exact Std.ExtTreeMap.mem_insert.mpr (.inr (h.housed.agent i m hm))

theorem Sound.cursor (h : Sound store) (agent : String) (id : Id) :
    Sound (store.apply (.Cursor agent id)) := by
  unfold Store.apply
  dsimp only
  cases ha : store.agents[agent]? with
  | none => exact h
  | some record => exact h.record ha rfl

theorem Sound.see (h : Sound store) (agent : String) (at_ : Nat) : Sound (store.see agent at_) := by
  unfold Store.see
  cases ha : store.agents[agent]? with
  | none => exact h
  | some record => exact h.record ha rfl

theorem Tracks.map_messages {messages : BTreeMap Id Message} {C C' : Message → Prop} {P : Id → Prop}
    (h : Tracks messages C P) (f : Message → Message)
    (hSame : ∀ (id : Id) m, messages[id]? = some m → (C' (f m) ↔ C m)) :
    Tracks (messages.map fun _ m => f m) C' P := by
  intro id
  rw [h id, Std.ExtTreeMap.getElem?_map]
  constructor
  · rintro ⟨m, hm, hC⟩
    exact ⟨f m, Option.map_eq_some_iff.mpr ⟨m, hm, rfl⟩, (hSame id m hm).mpr hC⟩
  · rintro ⟨_, hm', hC'⟩
    obtain ⟨m, hm, rfl⟩ := Option.map_eq_some_iff.mp hm'
    exact ⟨m, hm, (hSame id m hm).mp hC'⟩

theorem Tracks.or {messages : BTreeMap Id Message} {C C' : Message → Prop} {P P' : Id → Prop}
    (h : Tracks messages C P) (h' : Tracks messages C' P') :
    Tracks messages (fun m => C m ∨ C' m) fun id => P id ∨ P' id := by
  intro id
  refine (or_congr (h id) (h' id)).trans ?_
  constructor
  · rintro (⟨m, hm, hC⟩ | ⟨m, hm, hC'⟩)
    · exact ⟨m, hm, .inl hC⟩
    · exact ⟨m, hm, .inr hC'⟩
  · rintro ⟨m, hm, hC | hC'⟩
    · exact .inl ⟨m, hm, hC⟩
    · exact .inr ⟨m, hm, hC'⟩

/-- Who has the new name: who had the old one, or had it before. -/
theorem renamed_eq_iff (from_ to_ name : String) : renamed from_ to_ name = to_ ↔ name = from_ ∨ name = to_ := by
  unfold renamed
  split
  · next hFrom => simp [hFrom]
  · next hFrom => simp [hFrom]

/-- Renamed messages are in the inbox that took over that of the old name. -/
theorem Housed.rename {from_ to_ : String} {agent : Agent} (h : Housed store.messages store.agents)
    (hAgent : store.agents[from_]? = some agent) :
    let agents := store.agents.erase from_
    let merged := match agents[to_]? with
      | some existing => { agent with inbox := agent.inbox.insertMany existing.inbox.toList }
      | none => agent
    Housed (store.messages.map fun _ m =>
        { m with to_ := renamed from_ to_ m.to_, from_ := renamed from_ to_ m.from_ })
      (agents.insert to_ { merged with name := to_ }) := by
  intro agents merged
  refine ⟨fun name a ha => ?_, fun id m' hm' => ?_⟩
  · rw [BTreeMap.get_insert] at ha
    split at ha
    · next hName =>
      subst hName
      cases ha
      have hMine := h.inbox from_ agent hAgent
      show Tracks _ _ (· ∈ merged.inbox)
      have hErase : agents[to_]? = if from_ = to_ then none else store.agents[to_]? := BTreeMap.get_erase _ _ _
      cases hOther : agents[to_]? with
      | none =>
        -- nobody had the new name, so no message was to it
        have hMerged : merged = agent := by
          show (match agents[to_]? with
            | some existing => { agent with inbox := agent.inbox.insertMany existing.inbox.toList }
            | none => agent) = agent
          rw [hOther]
        rw [hMerged]
        refine hMine.map_messages _ fun id m hm => ?_
        rw [renamed_eq_iff]
        refine or_iff_left_of_imp fun hTo' => ?_
        rw [hOther] at hErase
        split at hErase
        · next hSame => rw [hTo', hSame]
        · obtain ⟨b, hb⟩ := (BTreeMap.mem_iff_get _ _).mp (h.agent id m hm)
          rw [hTo', ← hErase] at hb
          cases hb
      | some existing =>
        have hMerged : merged.inbox = agent.inbox.insertMany existing.inbox.toList := by
          show (match agents[to_]? with
            | some existing => { agent with inbox := agent.inbox.insertMany existing.inbox.toList }
            | none => agent).inbox = _
          rw [hOther]
        rw [hOther] at hErase
        split at hErase
        · cases hErase
        · -- the inbox of the name taken over is merged in
          have hTheirs := h.inbox to_ existing hErase.symm
          refine Tracks.map_messages (fun id => Iff.trans ?_ (hMine.or hTheirs id)) _
            fun id m hm => renamed_eq_iff from_ to_ m.to_
          rw [hMerged, Std.ExtTreeSet.mem_insertMany_list, List.contains_iff_mem, Std.ExtTreeSet.mem_toList]
    · -- nobody else's messages change hands
      next hName =>
      rw [BTreeMap.get_erase] at ha
      split at ha
      · cases ha
      · next hFrom =>
        refine (h.inbox name a ha).map_messages _ fun id m hm => ?_
        show renamed from_ to_ m.to_ = name ↔ _
        unfold renamed
        split
        · next hIs => exact iff_of_false hName fun h => hFrom (hIs.symm.trans h)
        · rfl
  · rw [Std.ExtTreeMap.getElem?_map] at hm'
    obtain ⟨m, hm, rfl⟩ := Option.map_eq_some_iff.mp hm'
    show renamed from_ to_ m.to_ ∈ agents.insert to_ _
    unfold renamed
    split
    · exact Std.ExtTreeMap.mem_insert_self
    · next hFrom =>
      -- a message to another agent keeps it: only the old name is gone
      refine Std.ExtTreeMap.mem_insert.mpr (.inr (Std.ExtTreeMap.mem_erase.mpr ⟨?_, h.agent id m hm⟩))
      simpa using Ne.symm hFrom

theorem Sound.rename (h : Sound store) (from_ to_ : String) : Sound (store.apply (.Rename from_ to_)) := by
  show Sound (store.rename from_ to_)
  unfold Store.rename
  cases ha : store.agents[from_]? with
  | none => exact h
  | some agent =>
    refine Sound.retrack (fun id m' hm' => ?_) (h.housed.rename ha)
    have hm' : (store.messages.map _)[id]? = some m' := hm'
    rw [Std.ExtTreeMap.getElem?_map] at hm'
    obtain ⟨m, hm, rfl⟩ := Option.map_eq_some_iff.mp hm'
    exact ⟨h.indexed.id_eq id m hm, h.known id m hm⟩

/-- What is created takes an id that nothing has, and a room comes with its posts under
their ids. -/
def Store.admits (store : Store) : Effect → Prop
  | .Message m => m.id ∉ store.messages
  | .Post name post => ∀ room, store.rooms[name]? = some room → post.id ∉ room.posts
  | .Room room => ∀ (id : Id) post, room.posts[id]? = some post → post.id = id
  | _ => True

theorem get_none_of_notMem {K V : Type} [LinearOrder K] {m : BTreeMap K V} {k : K} (h : k ∉ m) :
    m[k]? = none := Std.ExtTreeMap.getElem?_eq_none h

theorem Sound.apply (h : Sound store) {effect : Effect} (hAdmits : store.admits effect) :
    Sound (store.apply effect) := by
  cases effect with
  | Agent name at_ => exact h.agent name at_
  | Message m => exact h.message m (get_none_of_notMem hAdmits)
  | Lease | Settle => exact h.with_message _ _ fun _ => ⟨rfl, rfl⟩
  | Drop ids => exact h.drop ids
  | Cursor agent id => exact h.cursor agent id
  | Rename from_ to_ => exact h.rename from_ to_
  | Forget agent => exact h.forget agent
  | Broadcast | DropBroadcasts | Room | Post | DropPosts | DropRoom | Member | RoomCursor | Question |
    Topic | Close | Board => exact (apply_same store rfl).sound h

end Effects

/-! ## The questions of a room -/

/-- Posts are filed under their ids, and the open questions are listed. -/
structure Room.Listed (room : Room) : Prop where
  keyed : ∀ (id : Id) post, room.posts[id]? = some post → post.id = id
  open_ : ∀ id : Id, id ∈ room.open_ ↔ ∃ post, room.posts[id]? = some post ∧ post.is_open_question = true

namespace Room.Listed

variable {room : Room}

theorem of_same {room' : Room} (h : room.Listed) (hPosts : room'.posts = room.posts)
    (hOpen : room'.open_ = room.open_) : room'.Listed := by
  refine ⟨?_, ?_⟩
  · rw [hPosts]
    exact h.keyed
  · rw [hPosts, hOpen]
    exact h.open_

/-- A post comes in, or takes the place of that with its id. -/
theorem insert {open_ : BTreeSet Id} (h : room.Listed) (post : Post)
    (hOpen : ∀ id, id ∈ open_ ↔
      if post.id = id then post.is_open_question = true else id ∈ room.open_) :
    ({ room with posts := room.posts.insert post.id post, open_ } : Room).Listed := by
  refine ⟨fun id p hp => ?_, fun id => ?_⟩
  · have hp : (room.posts.insert post.id post)[id]? = some p := hp
    rw [BTreeMap.get_insert] at hp
    split at hp
    · next hId =>
      cases hp
      exact hId
    · exact h.keyed id p hp
  · show id ∈ open_ ↔ ∃ p, (room.posts.insert post.id post)[id]? = some p ∧ _
    rw [hOpen, BTreeMap.get_insert]
    split
    · simp
    · exact h.open_ id

theorem remove_post (h : room.Listed) (id : Id) : (room.remove_post id).Listed := by
  refine ⟨fun i p hp => ?_, fun i => ?_⟩
  · have hp : (room.posts.erase id)[i]? = some p := hp
    rw [BTreeMap.get_erase] at hp
    split at hp
    · cases hp
    · exact h.keyed i p hp
  · show i ∈ room.open_.erase id ↔ ∃ p, (room.posts.erase id)[i]? = some p ∧ _
    rw [BTreeSet.mem_erase, BTreeMap.get_erase]
    split
    · next hIs => simp [hIs]
    · next hIs => rw [and_iff_right hIs, h.open_ i]

theorem remove_posts (h : room.Listed) (ids : List Id) : (ids.foldl Room.remove_post room).Listed := by
  induction ids generalizing room with
  | nil => exact h
  | cons id ids ih => exact ih (h.remove_post id)

/-- Who wrote what may change, but not what is asked still. -/
theorem rename (h : room.Listed) (from_ to_ : String) : (room.rename from_ to_).Listed := by
  have hOpen : ∀ post : Post, ({ post with
      from_ := renamed from_ to_ post.from_
      ask := post.ask.map fun ask => { ask with to_ := ask.to_.map (renamed from_ to_) } } : Post).is_open_question =
        post.is_open_question := by
    intro post
    unfold Post.is_open_question
    dsimp only
    rw [Option.any_map]
  refine ⟨fun id p hp => ?_, fun id => ?_⟩
  · obtain ⟨old, hOld, rfl⟩ := Option.map_eq_some_iff.mp
      ((Std.ExtTreeMap.getElem?_map (t := room.posts)).symm.trans hp)
    exact h.keyed id old hOld
  · show id ∈ room.open_ ↔ ∃ p, (room.posts.map _)[id]? = some p ∧ _
    rw [h.open_, Std.ExtTreeMap.getElem?_map]
    constructor
    · rintro ⟨post, hPost, hStill⟩
      exact ⟨_, Option.map_eq_some_iff.mpr ⟨post, hPost, rfl⟩, (hOpen post).trans hStill⟩
    · rintro ⟨_, hNew, hStill⟩
      obtain ⟨post, hPost, rfl⟩ := Option.map_eq_some_iff.mp hNew
      exact ⟨post, hPost, (hOpen post).symm.trans hStill⟩

end Room.Listed

/-- The questions a room lists when it is loaded. -/
def Room.reopened (room : Room) : Room :=
  let open_ := (room.posts.toList.filter fun p => p.2.is_open_question).map fun p => p.2.id
  { room with open_ := .ofList open_ }

theorem Room.reopened_listed {room : Room}
    (hKeyed : ∀ (id : Id) post, room.posts[id]? = some post → post.id = id) : room.reopened.Listed := by
  refine ⟨hKeyed, fun id => ?_⟩
  show id ∈ (Std.ExtTreeSet.ofList ((room.posts.toList.filter fun p => p.2.is_open_question).map fun p => p.2.id) _) ↔
    ∃ post, room.posts[id]? = some post ∧ post.is_open_question = true
  rw [Std.ExtTreeSet.mem_ofList, List.contains_iff_mem, List.mem_map]
  constructor
  · rintro ⟨⟨i, post⟩, hMem, rfl⟩
    obtain ⟨hPost, hOpen⟩ := List.mem_filter.mp hMem
    have hPost := (BTreeMap.mem_toList _ _ _).mp hPost
    have hId : post.id = i := hKeyed i post hPost
    exact ⟨post, hId.symm ▸ hPost, hOpen⟩
  · rintro ⟨post, hPost, hOpen⟩
    exact ⟨(id, post), List.mem_filter.mpr ⟨(BTreeMap.mem_toList _ _ _).mpr hPost, hOpen⟩, hKeyed id post hPost⟩

/-- What a room lists is what it lists when it is loaded. -/
theorem Room.Listed.reopened {room : Room} (h : room.Listed) :
    ({ room with open_ := ∅ } : Room).reopened = room := by
  have hListed := @Room.reopened_listed { room with open_ := ∅ } h.keyed
  have hOpen : ({ room with open_ := ∅ } : Room).reopened.open_ = room.open_ :=
    BTreeSet.ext_mem fun id => (hListed.open_ id).trans (h.open_ id).symm
  show { room with open_ := ({ room with open_ := ∅ } : Room).reopened.open_ } = room
  rw [hOpen]

section Rooms

variable {store : Store} {effect : Effect} {name : String} {room' : Room}

theorem listed_on_room (h : ∀ (name : String) room, store.rooms[name]? = some room → room.Listed)
    (hAdmits : store.admits effect) (hRename : effect.is_rename = false)
    (hRoom : (store.apply effect).rooms[name]? = some room') : room'.Listed := by
  rw [apply_room store hRename] at hRoom
  cases effect with
  | Rename => cases hRename
  | Forget agent =>
    obtain ⟨r, hr, rfl⟩ := Option.map_eq_some_iff.mp hRoom
    exact (h name r hr).of_same rfl rfl
  | Room room =>
    dsimp only [Effect.on_room] at hRoom
    split at hRoom
    · cases hRoom
      exact Room.reopened_listed hAdmits
    · exact h name room' hRoom
  | Post i post =>
    rcases of_on_one hRoom with ⟨rfl, r, hr, rfl⟩ | hr
    · have hNew : r.posts[post.id]? = none := get_none_of_notMem (hAdmits r hr)
      have hListed := h _ r hr
      -- the new post is listed when it is an open question
      refine hListed.insert post fun id => ?_
      by_cases hOpen : post.is_open_question = true
      · rw [if_pos hOpen, BTreeSet.mem_insert]
        by_cases hId : post.id = id
        · simp [hId, hOpen]
        · simp [hId]
      · rw [if_neg hOpen]
        by_cases hId : post.id = id
        · subst hId
          simp [hOpen, hListed.open_, hNew]
        · simp [hId]
    · exact h name room' hr
  | Question i id status at_ =>
    rcases of_on_one hRoom with ⟨rfl, r, hr, rfl⟩ | hr
    · have hListed := h _ r hr
      dsimp only
      split
      · exact hListed
      · next post hPost =>
        split
        · exact hListed
        · next ask hAsk =>
          obtain rfl : post.id = id := hListed.keyed id post hPost
          -- the question is listed as long as its status is open
          refine hListed.insert { post with ask := some _ } fun i => ?_
          show i ∈ _ ↔ if post.id = i then _ else _
          by_cases hStatus : status = .Open
          · rw [if_pos hStatus, BTreeSet.mem_insert]
            by_cases hId : post.id = i
            · simp [hId, Post.is_open_question, hStatus]
            · simp [hId]
          · rw [if_neg hStatus, BTreeSet.mem_erase]
            by_cases hId : post.id = i
            · simp [hId, Post.is_open_question, hStatus]
            · simp [hId]
    · exact h name room' hr
  | DropPosts i ids =>
    rcases of_on_one hRoom with ⟨rfl, r, hr, rfl⟩ | hr
    · exact (h _ r hr).remove_posts ids
    · exact h name room' hr
  | RoomCursor i agent id =>
    rcases of_on_one hRoom with ⟨rfl, r, hr, rfl⟩ | hr
    · split
      · exact (h _ r hr).of_same rfl rfl
      · exact h _ r hr
    · exact h name room' hr
  | Member | Topic | Close | Board =>
    rcases of_on_one hRoom with ⟨rfl, r, hr, rfl⟩ | hr
    · exact (h _ r hr).of_same rfl rfl
    · exact h name room' hr
  | DropRoom i =>
    dsimp only [Effect.on_room] at hRoom
    split at hRoom
    · cases hRoom
    · exact h name room' hRoom
  | Agent | Message | Lease | Settle | Drop | Broadcast | DropBroadcasts | Cursor => exact h name room' hRoom

end Rooms

/-! ## Any effects -/

/-- The store's indexes are those a rebuild makes, and everything is filed under its
own name or id. -/
structure Tidy (store : Store) : Prop where
  sound : Sound store
  bounded : Bounded store
  listed : ∀ (name : String) room, store.rooms[name]? = some room → room.Listed
  named : ∀ name a, record_of store.agents name = some a → a.name = name

section

variable {store : Store} {effect : Effect}

theorem named_apply (h : ∀ name a, record_of store.agents name = some a → a.name = name) {name : String}
    {a : Agent} (ha : record_of (store.apply effect).agents name = some a) : a.name = name := by
  cases hRename : effect.is_rename with
  | false =>
    rw [apply_record store hRename] at ha
    cases effect with
    | Rename => cases hRename
    | Agent | Message =>
      dsimp only [Effect.on_record] at ha
      split at ha
      · next hName =>
        cases hWas : record_of store.agents name with
        | none =>
          rw [hWas] at ha
          cases ha
          exact hName
        | some record =>
          rw [hWas] at ha
          cases ha
          exact h name record hWas
      · exact h name a ha
    | Cursor =>
      dsimp only [Effect.on_record] at ha
      split at ha
      · obtain ⟨record, hWas, rfl⟩ := Option.map_eq_some_iff.mp ha
        exact h name record hWas
      · exact h name a ha
    | Forget =>
      dsimp only [Effect.on_record] at ha
      split at ha
      · cases ha
      · exact h name a ha
    | _ => exact h name a ha
  | true =>
    cases effect with
    | Rename from_ to_ =>
      have ha : record_of (store.rename from_ to_).agents name = some a := ha
      -- the one moved takes the new name with it
      unfold Store.rename at ha
      cases hAgent : store.agents[from_]? with
      | none =>
        rw [hAgent] at ha
        exact h name a ha
      | some agent =>
        rw [hAgent] at ha
        dsimp only at ha
        rw [retrack_record] at ha
        have ha : record_of ((store.agents.erase from_).insert to_ _) name = some a := ha
        rw [record_of_insert, record_of_erase] at ha
        split at ha
        · next hName =>
          cases ha
          exact hName
        · split at ha
          · cases ha
          · exact h name a ha
    | _ => cases hRename

theorem Tidy.apply (h : Tidy store) (hAdmits : store.admits effect) : Tidy (store.apply effect) := by
  refine ⟨h.sound.apply hAdmits, h.bounded.apply effect, fun name room hRoom => ?_, fun _ _ => named_apply h.named⟩
  cases hRename : effect.is_rename with
  | false => exact listed_on_room h.listed hAdmits hRename hRoom
  | true =>
    cases effect with
    | Rename from_ to_ =>
      have hRoom : (store.rename from_ to_).rooms[name]? = some room := hRoom
      rw [rename_rooms] at hRoom
      split at hRoom
      · obtain ⟨r, hr, rfl⟩ := Option.map_eq_some_iff.mp hRoom
        exact (h.listed name r hr).rename from_ to_
      · exact h.listed name room hRoom
    | _ => cases hRename

end

/-- Effects that each create what is new when they are applied. -/
def Store.Admitted (store : Store) : List Effect → Prop
  | [] => True
  | effect :: effects => store.admits effect ∧ (store.apply effect).Admitted effects

theorem Store.Admitted.append {store : Store} {effects effects' : List Effect} (h : store.Admitted effects)
    (h' : (effects.foldl Store.apply store).Admitted effects') : store.Admitted (effects ++ effects') := by
  induction effects generalizing store with
  | nil => exact h'
  | cons effect effects ih => exact ⟨h.1, ih h.2 h'⟩

theorem Tidy.replay {store : Store} (h : Tidy store) {effects : List Effect} (hAdmitted : store.Admitted effects) :
    Tidy (effects.foldl Store.apply store) := by
  induction effects generalizing store with
  | nil => exact h
  | cons effect effects ih => exact ih (h.apply hAdmitted.1) hAdmitted.2

theorem Tidy.empty : Tidy {} where
  sound := .empty
  bounded := .empty _ _
  listed := fun _ _ h => by simp at h
  named := fun _ _ h => by simp [record_of] at h

/-! ## A snapshot and back -/

/-- Messages of different ids may come one after the other. -/
theorem admitted_messages (messages : List Message) (hNodup : (messages.map Message.id).Nodup) {store : Store}
    (hNew : ∀ m ∈ messages, m.id ∉ store.messages) : store.Admitted (messages.map .Message) := by
  induction messages generalizing store with
  | nil => trivial
  | cons m messages ih =>
    rw [List.map_cons, List.nodup_cons] at hNodup
    refine ⟨hNew m List.mem_cons_self, ih hNodup.2 fun m' hMem => ?_⟩
    rw [(apply_message store m).2]
    refine fun hIn => (Std.ExtTreeMap.mem_insert.mp hIn).elim (fun hEq => ?_)
      (hNew m' (List.mem_cons_of_mem _ hMem))
    exact hNodup.1 (compare_eq_iff_eq.mp hEq ▸ List.mem_map_of_mem hMem)

theorem admitted_rooms (rooms : List Room) (h : ∀ room ∈ rooms, ∀ (id : Id) post,
    room.posts[id]? = some post → post.id = id) {store : Store} : store.Admitted (rooms.map .Room) := by
  induction rooms generalizing store with
  | nil => trivial
  | cons room rooms ih =>
    exact ⟨h room List.mem_cons_self, ih fun room hMem => h room (List.mem_cons_of_mem _ hMem)⟩

theorem admitted_broadcasts (broadcasts : List Broadcast) {store : Store} :
    store.Admitted (broadcasts.map .Broadcast) := by
  induction broadcasts generalizing store with
  | nil => trivial
  | cons b broadcasts ih => exact ⟨trivial, ih⟩

/-- What a part of the store is after effects of one kind, when each changes it by
itself. -/
theorem replay_part {α β : Type} (part : Store → β) {make : α → Effect} (step : β → α → β)
    (h : ∀ store a, part (store.apply (make a)) = step (part store) a) (items : List α) (store : Store) :
    part ((items.map make).foldl Store.apply store) = items.foldl step (part store) := by
  induction items generalizing store with
  | nil => rfl
  | cons a items ih =>
    rw [List.map_cons, List.foldl_cons, List.foldl_cons, ih, h]

theorem replay_same {α β : Type} (part : Store → β) {make : α → Effect}
    (h : ∀ store a, part (store.apply (make a)) = part store) (items : List α) (store : Store) :
    part ((items.map make).foldl Store.apply store) = part store := by
  refine (replay_part part (fun b _ => b) h items store).trans ?_
  induction items with
  | nil => rfl
  | cons a items ih => exact ih

section Snapshot

variable {store : Store} (h : Tidy store)

include h

/-- The agents a snapshot is loaded with: their records. -/
theorem Tidy.snapshot_agents :
    store.snapshot.agents.foldl (fun agents agent => agents.insert agent.name agent) ∅ =
      store.agents.map fun _ a => a.record := by
  refine BTreeMap.foldl_insert_key store.agents Agent.record Agent.name fun name a ha => ?_
  refine h.named name a.record ?_
  unfold record_of
  rw [ha]
  rfl

/-- The store a snapshot's effects are replayed on. -/
theorem Tidy.snapshot_start :
    Tidy { last_id := store.last_id, agents := store.agents.map fun _ a => a.record } := by
  have hGet : ∀ (name : String) a, (store.agents.map fun _ a => a.record : BTreeMap String Agent)[name]? = some a →
      ∃ a', store.agents[name]? = some a' ∧ a = a'.record := by
    intro name a ha
    rw [Std.ExtTreeMap.getElem?_map] at ha
    obtain ⟨a', ha', rfl⟩ := Option.map_eq_some_iff.mp ha
    exact ⟨a', ha', rfl⟩
  refine ⟨⟨?_, ⟨fun name a ha id => ?_, fun id m hm => by simp at hm⟩, fun id m hm => by simp at hm⟩,
    .empty _ _, fun _ _ hr => by simp at hr, fun name a ha => ?_⟩
  · -- without messages every index is empty
    refine { Sound.empty.indexed with queued := ?_, settled := ?_, counts := ?_, senders := ?_ }
    · intro name a ha id
      obtain ⟨a', -, rfl⟩ := hGet name a ha
      simp [Agent.record]
    · intro name a ha id
      obtain ⟨a', -, rfl⟩ := hGet name a ha
      simp [Agent.record]
    · intro name a ha
      obtain ⟨a', -, rfl⟩ := hGet name a ha
      rfl
    · intro name a ha from_
      obtain ⟨a', -, rfl⟩ := hGet name a ha
      rfl
  · obtain ⟨a', -, rfl⟩ := hGet name a ha
    simp [Agent.record]
  · refine h.named name a ?_
    unfold record_of at ha ⊢
    rw [Std.ExtTreeMap.getElem?_map, Option.map_map] at ha
    exact ha

/-- Nothing in a snapshot is there twice. -/
theorem Tidy.snapshot_admitted (start : Store) (hNone : ∀ id : Id, id ∉ start.messages) :
    start.Admitted store.snapshot.effects := by
  refine ((admitted_messages _ ?_ fun m _ => hNone m.id).append (admitted_broadcasts _)).append
    (admitted_rooms _ fun room hMem => ?_)
  · have hIds : store.snapshot.messages.map Message.id = store.messages.toList.map Prod.fst := by
      show (store.messages.toList.map Prod.snd).map Message.id = _
      rw [List.map_map]
      exact List.map_congr_left fun e he =>
        h.sound.indexed.id_eq e.1 e.2 ((BTreeMap.mem_toList _ _ _).mp he)
    rw [hIds]
    exact BTreeMap.nodup_keys _
  · obtain ⟨e, he, rfl⟩ := List.mem_map.mp hMem
    exact (h.listed e.1 e.2 ((BTreeMap.mem_toList _ _ _).mp he)).keyed

theorem Tidy.from_snapshot : Tidy (.from_snapshot store.snapshot) := by
  rw [from_snapshot_eq, h.snapshot_agents]
  exact h.snapshot_start.replay (h.snapshot_admitted _ fun id => by simp)

theorem Tidy.restored_messages : (Store.from_snapshot store.snapshot).messages = store.messages := by
  rw [from_snapshot_eq]
  unfold SnapshotOwned.effects
  rw [List.foldl_append, List.foldl_append,
    replay_same Store.messages fun store room => (apply_same store rfl).messages,
    replay_same Store.messages fun store b => (apply_same store rfl).messages,
    replay_part Store.messages (fun messages m => messages.insert m.id m) fun store m => (apply_message store m).2]
  refine (BTreeMap.foldl_insert_key store.messages id Message.id h.sound.indexed.id_eq).trans ?_
  exact Std.ExtTreeMap.map_id

theorem Tidy.restored_broadcasts : (Store.from_snapshot store.snapshot).broadcasts = store.broadcasts := by
  have hBeside : ∀ (store : Store) (m : Message), (store.apply (.Message m)).broadcasts = store.broadcasts := by
    intro store m
    exact BTreeMap.ext_get fun i => apply_broadcast store rfl i
  rw [from_snapshot_eq]
  unfold SnapshotOwned.effects
  rw [List.foldl_append, List.foldl_append, replay_same Store.broadcasts fun store room => rfl,
    replay_part Store.broadcasts (fun broadcasts b => broadcasts.insert b.id b) fun store b => rfl,
    replay_same Store.broadcasts hBeside]
  refine (BTreeMap.foldl_insert_key store.broadcasts id Broadcast.id fun id b hb => (h.bounded.broadcasts id b hb).1).trans ?_
  exact Std.ExtTreeMap.map_id

theorem Tidy.restored_rooms : (Store.from_snapshot store.snapshot).rooms = store.rooms := by
  have hBeside : ∀ (store : Store) (m : Message), (store.apply (.Message m)).rooms = store.rooms := by
    intro store m
    exact BTreeMap.ext_get fun i => apply_room store rfl i
  rw [from_snapshot_eq]
  unfold SnapshotOwned.effects
  rw [List.foldl_append, List.foldl_append,
    replay_part Store.rooms (fun rooms room => rooms.insert room.name room.reopened) fun store b => rfl,
    replay_same Store.rooms fun store b => rfl, replay_same Store.rooms hBeside]
  -- each is put back as it was, its open questions listed again
  show (store.rooms.toList.map fun r => { r.2 with open_ := ∅ }).foldl
    (fun (rooms : BTreeMap String Room) room => rooms.insert room.name room.reopened) ∅ = _
  rw [List.foldl_map]
  conv_rhs => rw [← BTreeMap.foldl_insert store.rooms]
  refine List.foldl_ext _ _ _ fun rooms e he => ?_
  have hRoom := (BTreeMap.mem_toList _ _ _).mp he
  rw [(h.listed e.1 e.2 hRoom).reopened, show ({ e.2 with open_ := ∅ } : Room).name = e.1 from
    (h.bounded.rooms e.1 e.2 hRoom).1]

/-- A snapshot's messages are to agents of the snapshot. -/
theorem Tidy.restored_records (name : String) :
    record_of (Store.from_snapshot store.snapshot).agents name = record_of store.agents name := by
  have hEach : ∀ (messages : List Message) (start : Store),
      (∀ m ∈ messages, ∃ a, record_of start.agents m.to_ = some a) →
      record_of ((messages.map Effect.Message).foldl Store.apply start).agents name =
        record_of start.agents name := by
    intro messages
    induction messages with
    | nil => exact fun _ _ => rfl
    | cons m messages ih =>
      intro start hThere
      have hSame : ∀ i, record_of (start.apply (.Message m)).agents i = record_of start.agents i := by
        intro i
        obtain ⟨a, ha⟩ := hThere m List.mem_cons_self
        rw [apply_record start rfl]
        dsimp only [Effect.on_record]
        split
        · next hTo =>
          subst hTo
          rw [ha]
          rfl
        · rfl
      refine (ih _ fun m' hMem => ?_).trans (hSame name)
      rw [hSame]
      exact hThere m' (List.mem_cons_of_mem _ hMem)
  have hRecord : ∀ i, record_of (store.agents.map fun _ a => a.record) i = record_of store.agents i := by
    intro i
    unfold record_of
    rw [Std.ExtTreeMap.getElem?_map, Option.map_map]
    rfl
  rw [from_snapshot_eq, h.snapshot_agents]
  unfold SnapshotOwned.effects
  rw [List.foldl_append, List.foldl_append,
    replay_same Store.agents fun store room => (apply_same store rfl).agents,
    replay_same Store.agents fun store b => (apply_same store rfl).agents]
  refine (hEach _ _ fun m hMem => ?_).trans (hRecord name)
  obtain ⟨e, he, rfl⟩ := List.mem_map.mp hMem
  have hTo := h.sound.housed.agent e.1 e.2 ((BTreeMap.mem_toList _ _ _).mp he)
  obtain ⟨a, ha⟩ := (BTreeMap.mem_iff_get _ _).mp hTo
  refine ⟨a.record, (hRecord _).trans ?_⟩
  unfold record_of
  rw [ha]
  rfl

end Snapshot

/-- **The indexes are those of a rebuild**, and of a restart from a snapshot, after any
effects. -/
theorem indexes_rebuilt (effects : List Effect) (hAdmitted : Store.Admitted {} effects) :
    let store := effects.foldl Store.apply {}
    let restarted := Store.from_snapshot store.snapshot
    (store.retrack.agents = store.agents ∧ store.retrack.due = store.due) ∧
    (∀ (name : String) agent, store.agents[name]? = some agent →
      ∀ id, id ∈ agent.inbox ↔ ∃ m, store.messages[id]? = some m ∧ m.to_ = name) ∧
    (∀ (name : String) room, store.rooms[name]? = some room → ∀ id, id ∈ room.open_ ↔
      ∃ post, room.posts[id]? = some post ∧ post.id = id ∧ post.is_open_question = true) ∧
    (restarted.agents = store.agents ∧ restarted.messages = store.messages ∧
      restarted.broadcasts = store.broadcasts ∧ restarted.rooms = store.rooms ∧
      restarted.last_id = store.last_id ∧ restarted.due = store.due) := by
  intro store restarted
  have h : Tidy store := Tidy.empty.replay hAdmitted
  have hRetrack : Sound store.retrack :=
    .retrack (fun id m hm => ⟨h.sound.indexed.id_eq id m hm, h.sound.known id m hm⟩) h.sound.housed
  have hRestarted := h.sound.unique h.from_snapshot.sound h.restored_messages h.restored_records
  refine ⟨h.sound.unique hRetrack (retrack_beside store).messages (retrack_record store), h.sound.housed.inbox,
    fun name room hRoom id => ?_, hRestarted.1, h.restored_messages, h.restored_broadcasts, h.restored_rooms,
    (from_snapshot_alike h.bounded).last_id, hRestarted.2⟩
  have hListed := h.listed name room hRoom
  rw [hListed.open_]
  constructor
  · rintro ⟨post, hPost, hOpen⟩
    exact ⟨post, hPost, hListed.keyed id post hPost, hOpen⟩
  · rintro ⟨post, hPost, -, hOpen⟩
    exact ⟨post, hPost, hOpen⟩

/-- Two agents become one; what was settled under the old name is settled under the new. -/
theorem indexes_rebuilt_renamed :
    let message : Message :=
      { id := { ms := 1, seq := 0 }, from_ := "b", to_ := "a", body := "", created := 1, expires := 9, thread := { ms := 1, seq := 0 }
        reply_to := none, key := none, state := .Queued, deliveries := 0, lease := none, settled := none }
    let store := [.Message message, .Agent "b" 2, .Settle { ms := 1, seq := 0 } .Acked 3, .Rename "a" "b"].foldl Store.apply {}
    store.retrack.due = store.due ∧ { ms := 1, seq := 0 } ∈ store.due.settled.toList.map fun d => (ofLex d).2 := by
  intro message store
  refine ⟨(indexes_rebuilt [.Message message, .Agent "b" 2, .Settle { ms := 1, seq := 0 } .Acked 3, .Rename "a" "b"]
    ⟨?_, trivial, trivial, trivial, trivial⟩).1.2, by decide +kernel⟩
  exact Std.ExtTreeMap.not_mem_empty

/-- A room that comes with a question under another id goes on listing it when it is
dropped. -/
theorem misfiled_question_listed :
    let question : Post :=
      { id := { ms := 2, seq := 0 }, from_ := "a", kind := .Question, body := "", created := 1, reply_to := none, about := none
        choice := none, key := none
        ask := some { to_ := [], options := [], expires := 9, status := .Open, closed := none } }
    let room : Room :=
      { name := "r", topic := "", created := 1, created_by := "a", private_ := false
        posts := (∅ : BTreeMap Id Post).insert { ms := 1, seq := 0 } question }
    let store := [Effect.Room room, .DropPosts "r" [{ ms := 1, seq := 0 }]].foldl Store.apply {}
    ∃ room, store.rooms["r"]? = some room ∧ { ms := 2, seq := 0 } ∈ room.open_ ∧ room.posts.toList = [] := by
  intro question room store
  refine ⟨(store.rooms["r"]?).get (by decide +kernel), (Option.some_get _).symm, ?_, ?_⟩
  · decide +kernel
  · decide +kernel

end Postino.Forum
