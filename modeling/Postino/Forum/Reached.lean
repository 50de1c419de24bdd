import Postino.Forum.Rebuilds

/-!
# What a server comes to

Whatever is asked of a server, and however often it restarts, its store stays in order:
the indexes are those a rebuild makes, everything is filed under its own name or id, and
every session is that of an agent the store knows.

* `Attended` — whose the sessions are, which no effect changes;
* `Wrote.tidy` — what an operation writes is new, in the store and in any it is replayed to;
* `reached` — what holds after any turns.
-/

namespace Postino.Forum

open Lib Fallible

/-! ## Sessions -/

section Sessions

variable {store : Store} {effect : Effect}

/-- What no round of a loop changes, the loop does not. -/
theorem part_foldl {α β : Type} (part : Store → β) {f : Store → α → Store}
    (h : ∀ store a, part (f store a) = part store) (items : List α) (store : Store) :
    part (items.foldl f store) = part store := by
  induction items generalizing store with
  | nil => rfl
  | cons a items ih => exact (ih _).trans (h store a)

theorem with_room_sessions (store : Store) (name : String) (change : Room → Room) :
    (store.with_room name change).sessions = store.sessions := by
  unfold Store.with_room
  cases store.rooms[name]? <;> rfl

theorem with_message_sessions (store : Store) (id : Id) (change : Message → Message) :
    (store.with_message id change).sessions = store.sessions := by
  unfold Store.with_message
  cases store.messages[id]? <;> rfl

theorem remove_message_sessions (store : Store) (id : Id) : (store.remove_message id).sessions = store.sessions := by
  unfold Store.remove_message
  cases store.messages[id]? <;> rfl

theorem remove_broadcast_sessions (store : Store) (id : Id) :
    (store.remove_broadcast id).sessions = store.sessions := by
  unfold Store.remove_broadcast
  cases store.broadcasts[id]? <;> rfl

theorem remove_post_sessions (room : String) (store : Store) (id : Id) :
    (store.remove_post room id).sessions = store.sessions := by
  unfold Store.remove_post
  cases store.rooms[room]? <;> rfl

theorem retrack_sessions (store : Store) : store.retrack.sessions = store.sessions :=
  @part_foldl (Id × Message) _ Store.sessions (fun store m => store.track m.2 true) (fun _ _ => rfl)
    store.messages.toList _

theorem rename_sessions (store : Store) (from_ to_ : String) : (store.rename from_ to_).sessions =
    if from_ ∈ store.agents then store.sessions.map fun _ s => { s with agent := renamed from_ to_ s.agent }
    else store.sessions := by
  unfold Store.rename
  cases ha : store.agents[from_]? with
  | none => rw [if_neg (fun hMem => by obtain ⟨a, h⟩ := (BTreeMap.mem_iff_get _ _).mp hMem; rw [ha] at h; cases h)]
  | some agent =>
    rw [if_pos ((BTreeMap.mem_iff_get _ _).mpr ⟨agent, ha⟩)]
    exact retrack_sessions _

/-- The sessions an effect leaves. -/
def Effect.on_sessions (sessions : BTreeMap String Session) (agents : BTreeMap String Forum.Agent) :
    Effect → BTreeMap String Session
  | .Forget agent => sessions.filter fun _ s => s.agent ≠ agent
  | .Rename from_ to_ =>
    if from_ ∈ agents then sessions.map fun _ s => { s with agent := renamed from_ to_ s.agent } else sessions
  | _ => sessions

theorem apply_sessions (store : Store) (effect : Effect) :
    (store.apply effect).sessions = effect.on_sessions store.sessions store.agents := by
  cases effect with
  | Agent name at_ =>
    show (if name ∈ store.agents then store else _).sessions = store.sessions
    split <;> rfl
  | Message m =>
    unfold Store.apply
    dsimp only
    split <;> rfl
  | Lease | Settle => exact with_message_sessions _ _ _
  | Drop ids => exact part_foldl Store.sessions remove_message_sessions ids store
  | DropBroadcasts ids => exact part_foldl Store.sessions remove_broadcast_sessions ids store
  | Cursor agent id =>
    unfold Store.apply
    dsimp only
    split <;> rfl
  | Rename from_ to_ => exact rename_sessions store from_ to_
  | Forget agent =>
    show (store.forget agent).sessions = _
    unfold Store.forget
    cases store.agents[agent]? with
    | none => rfl
    | some record =>
      show (Store.sessions _).filter _ = _
      rw [part_foldl Store.sessions remove_message_sessions]
      rfl
  | Post name post =>
    unfold Store.apply
    dsimp only
    split <;> rfl
  | DropPosts name ids => exact part_foldl Store.sessions (remove_post_sessions name) ids store
  | Member | RoomCursor | Question | Topic | Close | Board => exact with_room_sessions _ _ _
  | Broadcast | Room | DropRoom => rfl

/-- Every session is that of an agent the store knows. -/
def Store.Attended (store : Store) : Prop := ∀ (k : String) s, store.sessions[k]? = some s → s.agent ∈ store.agents

theorem mem_iff_record (agents : BTreeMap String Agent) (name : String) :
    name ∈ agents ↔ record_of agents name ≠ none := by
  rw [BTreeMap.mem_iff_get]
  unfold record_of
  cases agents[name]? <;> simp

/-- Agents go only when they are forgotten or renamed. -/
theorem mem_apply (hRename : effect.is_rename = false) {name : String} (hForget : effect ≠ .Forget name)
    (h : name ∈ store.agents) : name ∈ (store.apply effect).agents := by
  rw [mem_iff_record] at h ⊢
  rw [apply_record store hRename]
  cases effect with
  | Rename => cases hRename
  | Agent | Message =>
    dsimp only [Effect.on_record]
    split
    · exact Option.some_ne_none _
    · exact h
  | Cursor =>
    dsimp only [Effect.on_record]
    split
    · exact fun hNone => h (Option.map_eq_none_iff.mp hNone)
    · exact h
  | Forget agent =>
    dsimp only [Effect.on_record]
    split
    · next hIs => exact absurd (hIs ▸ rfl) hForget
    · exact h
  | _ => exact h

theorem mem_rename {from_ to_ name : String} (hFrom : from_ ∈ store.agents) (h : name ∈ store.agents) :
    renamed from_ to_ name ∈ (store.rename from_ to_).agents := by
  obtain ⟨agent, ha⟩ := (BTreeMap.mem_iff_get _ _).mp hFrom
  unfold Store.rename
  rw [ha, mem_iff_record]
  dsimp only
  rw [retrack_record, ← mem_iff_record]
  show renamed from_ to_ name ∈ (store.agents.erase from_).insert to_ _
  by_cases hName : name = from_
  · rw [renamed, if_pos hName]
    exact Std.ExtTreeMap.mem_insert_self
  · rw [renamed, if_neg hName]
    refine Std.ExtTreeMap.mem_insert.mpr (.inr (Std.ExtTreeMap.mem_erase.mpr ⟨?_, h⟩))
    simpa using Ne.symm hName

theorem Store.Attended.apply (h : store.Attended) (effect : Effect) : (store.apply effect).Attended := by
  intro k s hs
  rw [apply_sessions] at hs
  cases effect with
  | Forget agent =>
    have hs : (store.sessions.filter fun _ s => s.agent ≠ agent)[k]? = some s := hs
    rw [Std.ExtTreeMap.getElem?_filter'] at hs
    obtain ⟨hs, hOther⟩ := Option.filter_eq_some_iff.mp hs
    refine mem_apply rfl ?_ (h k s hs)
    rintro ⟨⟩
    simp at hOther
  | Rename from_ to_ =>
    show s.agent ∈ (store.rename from_ to_).agents
    dsimp only [Effect.on_sessions] at hs
    split at hs
    · next hFrom =>
      rw [Std.ExtTreeMap.getElem?_map] at hs
      obtain ⟨was, hWas, rfl⟩ := Option.map_eq_some_iff.mp hs
      exact mem_rename hFrom (h k was hWas)
    · next hFrom =>
      have hSame : store.rename from_ to_ = store := by
        unfold Store.rename
        rw [get_none_of_notMem hFrom]
      rw [hSame]
      exact h k s hs
  | _ => exact mem_apply rfl (by simp) (h k s hs)

theorem Store.Attended.see (h : store.Attended) (agent : String) (at_ : Nat) : (store.see agent at_).Attended := by
  unfold Store.see
  cases store.agents[agent]? with
  | none => exact h
  | some record => exact fun k s hs => Std.ExtTreeMap.mem_insert.mpr (.inr (h k s hs))

theorem Store.Attended.replay (h : store.Attended) (effects : List Effect) :
    (effects.foldl Store.apply store).Attended := by
  induction effects generalizing store with
  | nil => exact h
  | cons effect effects ih => exact ih (h.apply effect)

theorem from_snapshot_attended (snapshot : SnapshotOwned) : (Store.from_snapshot snapshot).Attended := by
  rw [from_snapshot_eq]
  exact Store.Attended.replay (fun k s hs => by simp at hs) _

end Sessions

/-! ## Operations -/

/-- What operations write: what is created takes the next id, and a new room has no posts. -/
def Creates (now : Fin (2 ^ 64)) (store : Store) (effect : Effect) : Prop :=
  (∀ id, effect.creates = some id → id = store.next_id now) ∧ ∀ room, effect = .Room room → room.posts = ∅

section Operations

variable {now : Fin (2 ^ 64)} {store store' copy : Store} {effect : Effect} {effects : List Effect}

theorem creates_of_writable {may : May} (store : Store) (effect : Effect) (h : Writable now may store effect) :
    Creates now store effect := by
  refine ⟨(numbers_of_writable store effect h).1, ?_⟩
  rintro room rfl
  exact h.2.1

theorem creates_of_cursor (store : Store) (effect : Effect) (h : effect.is_cursor = true) :
    Creates now store effect := by
  refine ⟨(numbers_of_cursor store effect h).1, ?_⟩
  rintro room rfl
  cases h

/-- What is new in a store is new in any that numbers alike. -/
theorem Creates.admits (h : Creates now store effect) (hAlike : Alike copy store) (hTidy : Tidy copy)
    (hIds : store.last_id ≠ .MAX) : copy.admits effect := by
  have hAbove : ∀ id, effect.creates = some id → copy.last_id < id := by
    intro id hId
    rw [h.1 id hId, ← hAlike.last_id]
    exact next_id_fresh hIds now
  cases effect with
  | Message m =>
    intro hMem
    obtain ⟨old, hOld⟩ := (BTreeMap.mem_iff_get _ _).mp hMem
    exact (hAbove m.id rfl).not_ge (hTidy.bounded.messages m.id old hOld).2
  | Post name post =>
    intro room hRoom hMem
    obtain ⟨old, hOld⟩ := (BTreeMap.mem_iff_get _ _).mp hMem
    exact (hAbove post.id rfl).not_ge ((hTidy.bounded.rooms name room hRoom).2 post.id old hOld)
  | Room room =>
    intro id post hPost
    rw [h.2 room rfl] at hPost
    simp at hPost
  | _ => trivial

theorem Tidy.see (h : Tidy store) (agent : String) (at_ : Nat) : Tidy (store.see agent at_) := by
  refine ⟨h.sound.see agent at_, h.bounded.see agent at_, ?_, fun name a ha => ?_⟩
  · rw [see_rooms]
    exact h.listed
  · unfold Store.see at ha
    cases hWas : store.agents[agent]? with
    | none =>
      rw [hWas] at ha
      exact h.named name a ha
    | some record =>
      rw [hWas] at ha
      have ha : record_of (store.agents.insert agent _) name = some a := ha
      rw [record_of_insert] at ha
      split at ha
      · next hName =>
        cases ha
        subst hName
        exact h.named agent record.record (by unfold record_of; rw [hWas]; rfl)
      · exact h.named name a ha

/-- **What an operation leaves is in order**, while ids last. -/
theorem Wrote.tidy (h : Wrote (Creates now) True store effects store') (hTidy : Tidy store)
    (hIds : store'.last_id ≠ .MAX) : Tidy store' := by
  refine h.keeps_hosts (P := fun store => store.last_id ≠ .MAX → Tidy store) (fun store effect _ hNew ih hIds => ?_)
    (fun store sessions _ ih hIds => ?_) (fun store agent at_ ih hIds => ?_) (fun _ => hTidy) hIds
  · have hBefore := ids_left (apply_last_id store effect) hIds
    exact (ih hBefore).apply (hNew.admits (.refl store) (ih hBefore) hBefore)
  · have h := ih hIds
    exact ⟨⟨h.sound.indexed, h.sound.housed, h.sound.known⟩, ⟨h.bounded.messages, h.bounded.broadcasts, h.bounded.rooms⟩,
      h.listed, h.named⟩
  · rw [see_last_id] at hIds
    exact (ih hIds).see agent at_

/-- Replaying what an operation wrote keeps order in a store that numbers alike. -/
theorem Wrote.replayed (h : Wrote (Creates now) True store effects store') (hTidy : Tidy copy)
    (hAlike : Alike copy store) (hIds : store'.last_id ≠ .MAX) : Tidy (effects.foldl Store.apply copy) := by
  induction h with
  | nothing => exact hTidy
  | @effect effects store₁ effect h hNew ih =>
    have hBefore := ids_left (apply_last_id store₁ effect) hIds
    rw [List.foldl_append]
    exact (ih hBefore).apply (hNew.admits (hAlike.wrote h) (ih hBefore) hBefore)
  | sessions _ _ ih => exact ih hIds
  | see agent at_ _ _ ih =>
    rw [see_last_id] at hIds
    exact ih hIds

theorem Wrote.attended {Allowed : Store → Effect → Prop} {Seen : Prop} (h : Wrote Allowed Seen store effects store')
    (hAttended : store.Attended) : store'.Attended :=
  h.keeps_hosts (fun _ effect _ _ h => h.apply effect)
    (fun _ _ hHosts h k s hs => (hHosts k s hs).elim (h k s) id) (fun _ agent at_ h => h.see agent at_) hAttended

end Operations

/-! ## Turns -/

namespace Server

/-- A server's store is in order, and so is whatever it may load. -/
structure Filed (s : Server) : Prop where
  growing : s.Growing
  attended : s.core.store.Attended
  live : s.core.store.last_id ≠ .MAX → Tidy s.core.store
  journal : s.core.store.last_id ≠ .MAX → Tidy (s.journal.foldl Store.apply {})
  snapshots : s.core.store.last_id ≠ .MAX → ∀ x ∈ s.snapshots,
    Tidy ((s.journal.drop x.1).foldl Store.apply (.from_snapshot x.2))

variable {s : Server}

theorem Filed.operation (h : s.Filed) (asked : Asked) : (s.step (.operation asked)).Filed := by
  obtain ⟨effects, hTrace⟩ := @perform_allowed asked.now (Creates asked.now) creates_of_writable
    creates_of_cursor asked.op { s.core with memory := asked.memory }
  have hSince : s.core.since (s.core.perform asked) = effects := since_eq hTrace.journaled
  have hWrote : Wrote (Creates asked.now) True s.core.store effects (s.core.perform asked).store := hTrace.wrote
  have hBefore : (s.core.perform asked).store.last_id ≠ .MAX → s.core.store.last_id ≠ .MAX :=
    ids_left hWrote.last_id
  have hJournal : (s.step (.operation asked)).journal = s.journal ++ effects := by
    show s.journal ++ s.core.since (s.core.perform asked) = _
    rw [hSince]
  refine ⟨h.growing.operation asked, hWrote.attended h.attended, fun hIds => ?_, fun hIds => ?_, fun hIds x hx => ?_⟩
  · exact hWrote.tidy (h.live (hBefore hIds)) hIds
  · rw [hJournal, List.foldl_append]
    exact hWrote.replayed (h.journal (hBefore hIds)) h.growing.journal hIds
  · obtain ⟨hCovered, hAlike⟩ := h.growing.snapshots x hx
    rw [hJournal, List.drop_append_of_le_length hCovered, List.foldl_append]
    exact hWrote.replayed (h.snapshots (hBefore hIds) x hx) hAlike hIds

theorem Filed.snapshot (h : s.Filed) : (s.step .snapshot).Filed := by
  refine ⟨h.growing.snapshot, h.attended, h.live, h.journal, fun hIds x hx => ?_⟩
  rcases List.mem_append.mp hx with hOld | hNew
  · exact h.snapshots hIds x hOld
  · rw [List.mem_singleton.mp hNew]
    show Tidy ((s.journal.drop s.journal.length).foldl Store.apply _)
    rw [List.drop_length]
    exact (h.live hIds).from_snapshot

theorem Filed.restart (h : s.Filed) (new : Core) (chosen : Option Nat) : (s.step (.restart new chosen)).Filed := by
  have hLast : (s.load chosen).last_id = s.core.store.last_id := (h.growing.load chosen).1.last_id
  have hIds : (s.load chosen).last_id ≠ .MAX → s.core.store.last_id ≠ .MAX := by
    rw [hLast]
    exact id
  refine ⟨h.growing.restart new chosen, ?_, fun hMore => ?_, fun hMore => h.journal (hIds hMore),
    fun hMore => h.snapshots (hIds hMore)⟩
  · show (s.load chosen).Attended
    unfold load
    split
    · exact (from_snapshot_attended _).replay _
    · exact Store.Attended.replay (fun k s hs => by simp at hs) _
  · show Tidy (s.load chosen)
    unfold load
    split
    · next covered snapshot hChosen =>
      obtain ⟨i, -, hi⟩ := Option.bind_eq_some_iff.mp hChosen
      exact h.snapshots (hIds hMore) _ (List.mem_of_getElem? hi)
    · exact h.journal (hIds hMore)

theorem Filed.run (h : s.Filed) (turns : List Turn) : (s.run turns).Filed := by
  induction turns generalizing s with
  | nil => exact h
  | cons turn turns ih =>
    refine ih ?_
    cases turn with
    | operation asked => exact h.operation asked
    | snapshot => exact h.snapshot
    | restart new chosen => exact h.restart new chosen

end Server

/-- **A server's store is always in order**: after any operations and any restarts, as long as
ids do not run out. -/
theorem reached {core : Core} (hEmpty : core.store = {}) (turns : List Turn)
    (hIds : (Server.run { core } turns).core.store.last_id ≠ .MAX) :
    Tidy (Server.run { core } turns).core.store ∧ (Server.run { core } turns).core.store.Attended := by
  have hStart : ({ core } : Server).Filed := by
    refine ⟨.start hEmpty, ?_, fun _ => ?_, fun _ => .empty, nofun⟩
    · show core.store.Attended
      rw [hEmpty]
      exact fun k s hs => by simp at hs
    · show Tidy core.store
      rw [hEmpty]
      exact .empty
  exact ⟨(hStart.run turns).live hIds, (hStart.run turns).attended⟩

end Postino.Forum
