import Postino.Lib.Relabel
import Postino.Forum.Reached

/-!
# Renaming an agent

To a name that nothing refers to, renaming is a relabelling: the store with the new name
wherever it had the old one.

* `Store.Without` — nothing is recorded under a name;
* `Store.relabel` — a store under other names;
* `rename_eq` — what a rename makes of the store, the indexes it rebuilds included;
* `rename_relabels` — a rename in any server's store, and back.
-/

namespace Postino.Forum

open Lib Fallible

/-! ## Where a store names an agent -/

/-- Whether anything refers to `name`: an inbox, a message to or from it, a broadcast it
sent, a room membership or creation, a post, or a question addressed to it. -/
def Core.name_in_use (core : Core) (name : String) : Bool :=
  core.store.agents.contains name ||
    core.store.messages.toList.any (fun m => m.2.from_ = name || m.2.to_ = name) ||
    core.store.broadcasts.toList.any (fun b => b.2.from_ = name) ||
    core.store.rooms.toList.any fun r =>
      r.2.created_by = name || r.2.members.contains name ||
        r.2.posts.toList.any fun p => p.2.from_ = name || p.2.ask.any fun ask => ask.to_.contains name

/-- Whether `name` wrote what is on a board. -/
def Store.is_author (store : Store) (name : String) : Bool :=
  store.rooms.toList.any fun r => r.2.board.toList.any fun e => e.2.by_ = name

structure Room.Without (room : Room) (name : String) : Prop where
  created_by : room.created_by ≠ name
  members : name ∉ room.members
  posts : ∀ (id : Id) p, room.posts[id]? = some p → p.from_ ≠ name ∧ ∀ ask, p.ask = some ask → name ∉ ask.to_
  board : ∀ (key : String) e, room.board[key]? = some e → e.by_ ≠ name

/-- Nothing is recorded under `name`. -/
structure Store.Without (store : Store) (name : String) : Prop where
  agents : name ∉ store.agents
  records : ∀ (key : String) a, store.agents[key]? = some a → a.name ≠ name ∧ name ∉ a.senders
  messages : ∀ (id : Id) m, store.messages[id]? = some m → m.from_ ≠ name ∧ m.to_ ≠ name
  broadcasts : ∀ (id : Id) b, store.broadcasts[id]? = some b → b.from_ ≠ name
  sessions : ∀ (key : String) s, store.sessions[key]? = some s → s.agent ≠ name
  rooms : ∀ (key : String) r, store.rooms[key]? = some r → r.Without name

/-- A name that is not in use, and on no board, is nowhere in a store that is in order. -/
theorem without_of_unused {core : Core} {name : String} (hTidy : Tidy core.store) (hAttended : core.store.Attended)
    (hUnused : core.name_in_use name = false) (hBoards : core.store.is_author name = false) : core.store.Without name := by
  unfold Core.name_in_use at hUnused
  simp only [Bool.or_eq_false_iff] at hUnused
  -- what `name_in_use` looks through: agents, messages, broadcasts and rooms
  obtain ⟨⟨⟨hAgents, hMessages⟩, hBroadcasts⟩, hRooms⟩ := hUnused
  have hAgents : name ∉ core.store.agents := fun h => by
    rw [Std.ExtTreeMap.contains_iff_mem.mpr h] at hAgents
    cases hAgents
  have hMessages : ∀ (id : Id) m, core.store.messages[id]? = some m → m.from_ ≠ name ∧ m.to_ ≠ name := by
    intro id m hm
    have hNot := List.any_eq_false.mp hMessages (id, m) ((BTreeMap.mem_toList _ _ _).mpr hm)
    simpa using hNot
  refine ⟨hAgents, fun key a ha => ⟨?_, fun hSender => ?_⟩, hMessages, fun id b hb => ?_, fun key s hs => ?_,
    fun key r hr => ⟨?_, ?_, fun id p hp => ?_, fun k e he => ?_⟩⟩
  · -- an agent is filed under its name
    have hName := hTidy.named key a.record (by unfold record_of; rw [ha]; rfl)
    rintro rfl
    exact hAgents ((BTreeMap.mem_iff_get _ _).mpr ⟨a, hName ▸ ha⟩)
  · -- a sender is one whose message waits
    obtain ⟨n, hn⟩ := (BTreeMap.mem_iff_get _ _).mp hSender
    rw [hTidy.sound.indexed.senders key a ha] at hn
    unfold sent_pending at hn
    rw [tally_none fun id m hm hIs => (hMessages id m hm).1 hIs.2.2] at hn
    cases hn
  · -- who sent a broadcast
    have hNot := List.any_eq_false.mp hBroadcasts (id, b) ((BTreeMap.mem_toList _ _ _).mpr hb)
    simpa using hNot
  · rintro rfl
    exact hAgents (hAttended key s hs)
  all_goals
    have hNot := List.any_eq_false.mp hRooms (key, r) ((BTreeMap.mem_toList _ _ _).mpr hr)
    simp only [Bool.or_eq_true, decide_eq_true_eq, not_or, List.any_eq_true, not_exists, not_and] at hNot
  · -- who made the room
    exact hNot.1.1
  · -- who is in it
    exact fun h => hNot.1.2 (Std.ExtTreeMap.contains_iff_mem.mpr h)
  · -- who wrote a post, or is asked in one
    obtain ⟨hFrom, hAsk⟩ := hNot.2 (id, p) ((BTreeMap.mem_toList _ _ _).mpr hp)
    refine ⟨hFrom, fun ask hSome hMem => hAsk ?_⟩
    rw [hSome]
    simpa using hMem
  · -- who wrote on the board
    have hNot := List.any_eq_false.mp hBoards (key, r) ((BTreeMap.mem_toList _ _ _).mpr hr)
    rw [Bool.not_eq_true, List.any_eq_false] at hNot
    simpa using hNot (k, e) ((BTreeMap.mem_toList _ _ _).mpr he)

/-! ## A store under other names -/

def Agent.relabel (f : String → String) (a : Agent) : Agent :=
  { a with name := f a.name, senders := a.senders.rekey f }

def Message.relabel (f : String → String) (m : Message) : Message :=
  { m with to_ := f m.to_, from_ := f m.from_ }

def Broadcast.relabel (f : String → String) (b : Broadcast) : Broadcast := { b with from_ := f b.from_ }

def Session.relabel (f : String → String) (s : Session) : Session := { s with agent := f s.agent }

def Post.relabel (f : String → String) (p : Post) : Post :=
  { p with
    from_ := f p.from_
    ask := p.ask.map fun ask => { ask with to_ := ask.to_.map f } }

def Entry.relabel (f : String → String) (e : Entry) : Entry := { e with by_ := f e.by_ }

def Room.relabel (f : String → String) (r : Room) : Room :=
  { r with
    created_by := f r.created_by
    members := r.members.rekey f
    posts := r.posts.map fun _ p => p.relabel f
    board := r.board.map fun _ e => e.relabel f }

/-- The store with `f name` wherever it named `name`, and nothing else changed. -/
def Store.relabel (f : String → String) (store : Store) : Store :=
  { store with
    agents := BTreeMap.rekey f (store.agents.map fun _ a => a.relabel f)
    messages := store.messages.map fun _ m => m.relabel f
    broadcasts := store.broadcasts.map fun _ b => b.relabel f
    sessions := store.sessions.map fun _ s => s.relabel f
    rooms := store.rooms.map fun _ r => r.relabel f }

section Relabel

variable {f g : String → String} {gone : String}

/-- `g` undoes what `f` makes of any name but `gone`. -/
def Undoes (g f : String → String) (gone : String) : Prop := ∀ name, name ≠ gone → g (f name) = name

theorem Undoes.inj (h : Undoes g f gone) {a b : String} (ha : a ≠ gone) (hb : b ≠ gone) : f a = f b ↔ a = b :=
  ⟨fun hEq => by rw [← h a ha, hEq, h b hb], fun hEq => hEq ▸ rfl⟩

theorem Undoes.ne (h : Undoes g f gone) {V : Type} {m : BTreeMap String V} (hGone : gone ∉ m) {name : String}
    (hName : name ∈ m) : g (f name) = name :=
  h name fun hEq => hGone (hEq ▸ hName)

theorem Room.relabel_back (h : Undoes g f gone) {r : Room} (hWithout : r.Without gone) :
    (r.relabel f).relabel g = r := by
  have hMembers : (r.members.rekey f).rekey g = r.members :=
    BTreeMap.rekey_back fun name hName => h.ne hWithout.members hName
  have hPosts : ((r.posts.map fun _ p => p.relabel f).map fun _ p => p.relabel g) = r.posts := by
    refine BTreeMap.map_back fun id p hp => ?_
    obtain ⟨hFrom, hAsk⟩ := hWithout.posts id p hp
    have hAsked : ((p.ask.map fun ask => { ask with to_ := ask.to_.map f }).map fun ask =>
        { ask with to_ := ask.to_.map g }) = p.ask := by
      cases hSome : p.ask with
      | none => rfl
      | some ask =>
        -- those who are asked
        have hTo : (ask.to_.map f).map g = ask.to_ := by
          rw [List.map_map]
          exact (List.map_congr_left fun name hName => h name fun hEq => hAsk ask hSome (hEq ▸ hName)).trans
            (List.map_id _)
        simp only [Option.map_some, hTo]
    unfold Post.relabel
    dsimp only
    rw [h p.from_ hFrom, hAsked]
  have hBoard : ((r.board.map fun _ e => e.relabel f).map fun _ e => e.relabel g) = r.board := by
    refine BTreeMap.map_back fun key e he => ?_
    unfold Entry.relabel
    dsimp only
    rw [h e.by_ (hWithout.board key e he)]
  unfold Room.relabel
  dsimp only
  rw [h r.created_by hWithout.created_by, hMembers, hPosts, hBoard]

variable {store : Store}

/-- What a store under other names holds under a name. -/
theorem relabel_agents (h : Undoes g f gone) (hWithout : store.Without gone) {name' : String} {a' : Agent} :
    (store.relabel f).agents[name']? = some a' ↔
      ∃ name a, store.agents[name]? = some a ∧ f name = name' ∧ a' = a.relabel f := by
  have hApart : BTreeMap.Apart (store.agents.map fun _ a => a.relabel f) f := by
    refine BTreeMap.apart_of_back fun name hName => h.ne hWithout.agents (Std.ExtTreeMap.mem_map.mp hName)
  show (BTreeMap.rekey f (store.agents.map fun _ a => a.relabel f))[name']? = some a' ↔ _
  rw [BTreeMap.get_rekey hApart]
  constructor
  · rintro ⟨name, ha, hName⟩
    rw [Std.ExtTreeMap.getElem?_map] at ha
    obtain ⟨a, hWas, rfl⟩ := Option.map_eq_some_iff.mp ha
    exact ⟨name, a, hWas, hName, rfl⟩
  · rintro ⟨name, a, ha, hName, rfl⟩
    exact ⟨name, by rw [Std.ExtTreeMap.getElem?_map, ha]; rfl, hName⟩

/-- **Changing the names back restores the store.** -/
theorem Store.relabel_back (h : Undoes g f gone) (hWithout : store.Without gone) :
    (store.relabel f).relabel g = store := by
  have hAgents : BTreeMap.rekey g ((BTreeMap.rekey f (store.agents.map fun _ a => a.relabel f)).map
      fun _ a => a.relabel g) = store.agents := by
    have hBack : ((store.agents.map fun _ a => a.relabel f).map fun _ a => a.relabel g) = store.agents := by
      refine BTreeMap.map_back fun name a ha => ?_
      obtain ⟨hName, hSenders⟩ := hWithout.records name a ha
      unfold Agent.relabel
      dsimp only
      rw [h a.name hName, BTreeMap.rekey_back fun sender hSender => h.ne hSenders hSender]
    -- the agents are filed apart under their new names, so nothing is lost
    have hApart : BTreeMap.Apart (store.agents.map fun _ a => a.relabel f) f :=
      BTreeMap.apart_of_back fun name hName => h.ne hWithout.agents (Std.ExtTreeMap.mem_map.mp hName)
    rw [BTreeMap.map_rekey hApart, hBack]
    exact BTreeMap.rekey_back fun name hName => h.ne hWithout.agents hName
  have hMessages : ((store.messages.map fun _ m => m.relabel f).map fun _ m => m.relabel g) = store.messages := by
    refine BTreeMap.map_back fun id m hm => ?_
    obtain ⟨hFrom, hTo⟩ := hWithout.messages id m hm
    unfold Message.relabel
    dsimp only
    rw [h m.from_ hFrom, h m.to_ hTo]
  have hBroadcasts : ((store.broadcasts.map fun _ b => b.relabel f).map fun _ b => b.relabel g) =
      store.broadcasts := by
    refine BTreeMap.map_back fun id b hb => ?_
    unfold Broadcast.relabel
    dsimp only
    rw [h b.from_ (hWithout.broadcasts id b hb)]
  have hSessions : ((store.sessions.map fun _ s => s.relabel f).map fun _ s => s.relabel g) = store.sessions := by
    refine BTreeMap.map_back fun key s hs => ?_
    unfold Session.relabel
    dsimp only
    rw [h s.agent (hWithout.sessions key s hs)]
  have hRooms : ((store.rooms.map fun _ r => r.relabel f).map fun _ r => r.relabel g) = store.rooms :=
    BTreeMap.map_back fun key r hr => r.relabel_back h (hWithout.rooms key r hr)
  unfold Store.relabel
  dsimp only
  rw [hAgents, hMessages, hBroadcasts, hSessions, hRooms]

/-! ## The indexes under other names -/

/-- Counting messages under other names. -/
theorem tally_relabel (messages : BTreeMap Id Message) {C C' : Message → Prop} [DecidablePred C] [DecidablePred C']
    (h : ∀ (id : Id) m, messages[id]? = some m → (C' (m.relabel f) ↔ C m)) :
    tally (messages.map fun _ m => m.relabel f) C' = tally messages C := by
  unfold tally
  rw [BTreeMap.toList_map, List.countP_map]
  refine List.countP_congr fun e he => ?_
  simpa using h e.1 e.2 ((BTreeMap.mem_toList _ _ _).mp he)

/-- **Under other names the indexes are still those of the messages.** -/
theorem Sound.relabel (hSound : Sound store) (h : Undoes g f gone) (hWithout : store.Without gone) :
    Sound (store.relabel f) := by
  -- being to an agent means the same before and after
  have hTo : ∀ (name : String) (a : Agent), store.agents[name]? = some a → ∀ (id : Id) m,
      store.messages[id]? = some m → (f m.to_ = f name ↔ m.to_ = name) := fun name a ha id m hm =>
    h.inj (hWithout.messages id m hm).2 fun hEq =>
      hWithout.agents (hEq ▸ (BTreeMap.mem_iff_get _ _).mpr ⟨a, ha⟩)
  have hIndexed := hSound.indexed
  refine ⟨⟨fun id m' hm' => ?_, fun name' a' ha' => ?_, fun name' a' ha' => ?_, fun name' a' ha' => ?_,
    fun name' a' ha' from_ => ?_, fun t => ?_, fun t => ?_, fun t => ?_⟩, ⟨fun name' a' ha' => ?_, fun id m' hm' => ?_⟩,
    fun id m' hm' => ?_⟩
  · have hm' : (store.messages.map fun _ m => m.relabel f)[id]? = some m' := hm'
    rw [Std.ExtTreeMap.getElem?_map] at hm'
    obtain ⟨m, hm, rfl⟩ := Option.map_eq_some_iff.mp hm'
    exact hIndexed.id_eq id m hm
  · obtain ⟨name, a, ha, rfl, rfl⟩ := (relabel_agents h hWithout).mp ha'
    exact (hIndexed.queued name a ha).map_messages (Message.relabel f) fun id m hm =>
      and_congr_left fun _ => hTo name a ha id m hm
  · obtain ⟨name, a, ha, rfl, rfl⟩ := (relabel_agents h hWithout).mp ha'
    exact (hIndexed.settled name a ha).map_messages (Message.relabel f) fun id m hm =>
      and_congr_left fun _ => hTo name a ha id m hm
  · obtain ⟨name, a, ha, rfl, rfl⟩ := (relabel_agents h hWithout).mp ha'
    refine (hIndexed.counts name a ha).trans ?_
    unfold Counts.tallied
    -- each count is a tally of messages to the agent
    refine congr (congr (congr (congrArg Counts.mk ?_) ?_) ?_) ?_
    all_goals exact (tally_relabel store.messages fun id m hm => and_congr_left fun _ => hTo name a ha id m hm).symm
  · obtain ⟨name, a, ha, rfl, rfl⟩ := (relabel_agents h hWithout).mp ha'
    obtain ⟨-, hSenders⟩ := hWithout.records name a ha
    have hApart : a.senders.Apart f := BTreeMap.apart_of_back fun sender hSender => h.ne hSenders hSender
    -- how many wait from each sender
    show (a.senders.rekey f)[from_]? = _
    by_cases hFrom : ∃ sender, sender ≠ gone ∧ f sender = from_
    · obtain ⟨sender, hNot, rfl⟩ := hFrom
      have hSent : sent_pending (store.relabel f).messages (f name) (f sender) =
          sent_pending store.messages name sender :=
        tally_relabel store.messages fun id m hm => and_congr (hTo name a ha id m hm)
          (and_congr Iff.rfl (h.inj (hWithout.messages id m hm).1 hNot))
      rw [hSent, ← hIndexed.senders name a ha]
      refine Option.ext fun n => ?_
      rw [BTreeMap.get_rekey hApart]
      constructor
      · rintro ⟨other, hn, hSame⟩
        have hOther : other ≠ gone := fun hEq => hSenders (hEq ▸ (BTreeMap.mem_iff_get _ _).mpr ⟨n, hn⟩)
        rwa [(h.inj hOther hNot).mp hSame] at hn
      · exact fun hn => ⟨sender, hn, rfl⟩
    · -- nobody sends under a name that is no one's new name
      have hNone : sent_pending (store.relabel f).messages (f name) from_ = 0 := by
        refine tally_none fun id m' hm' hIs => hFrom ?_
        have hm' : (store.messages.map fun _ m => m.relabel f)[id]? = some m' := hm'
        rw [Std.ExtTreeMap.getElem?_map] at hm'
        obtain ⟨m, hm, rfl⟩ := Option.map_eq_some_iff.mp hm'
        exact ⟨m.from_, (hWithout.messages id m hm).1, hIs.2.2⟩
      -- and none is listed under it
      have hNobody : (a.senders.rekey f)[from_]? = none := by
        rw [Option.eq_none_iff_forall_ne_some]
        intro n hn
        obtain ⟨sender, hSender, hSame⟩ := (BTreeMap.get_rekey hApart).mp hn
        exact hFrom ⟨sender, fun hEq => hSenders (hEq ▸ (BTreeMap.mem_iff_get _ _).mpr ⟨n, hSender⟩), hSame⟩
      rw [hNone, hNobody]
      rfl
  · exact (hIndexed.leases_due t).map_messages (Message.relabel f) fun _ _ _ => Iff.rfl
  · exact (hIndexed.expiry_due t).map_messages (Message.relabel f) fun _ _ _ => Iff.rfl
  · exact (hIndexed.settled_due t).map_messages (Message.relabel f) fun _ _ _ => Iff.rfl
  · obtain ⟨name, a, ha, rfl, rfl⟩ := (relabel_agents h hWithout).mp ha'
    -- the inboxes hold the messages to their agents
    exact (hSound.housed.inbox name a ha).map_messages (Message.relabel f) fun id m hm => hTo name a ha id m hm
  · have hm' : (store.messages.map fun _ m => m.relabel f)[id]? = some m' := hm'
    rw [Std.ExtTreeMap.getElem?_map] at hm'
    obtain ⟨m, hm, rfl⟩ := Option.map_eq_some_iff.mp hm'
    obtain ⟨a, ha⟩ := (BTreeMap.mem_iff_get _ _).mp (hSound.housed.agent id m hm)
    exact (BTreeMap.mem_iff_get _ _).mpr ⟨_, (relabel_agents h hWithout).mpr ⟨m.to_, a, ha, rfl, rfl⟩⟩
  · have hm' : (store.messages.map fun _ m => m.relabel f)[id]? = some m' := hm'
    rw [Std.ExtTreeMap.getElem?_map] at hm'
    obtain ⟨m, hm, rfl⟩ := Option.map_eq_some_iff.mp hm'
    exact hSound.known id m hm

end Relabel

/-! ## Renaming -/

section Rename

variable {store : Store} {from_ to_ : String}

theorem renamed_undoes (from_ to_ : String) : Undoes (renamed to_ from_) (renamed from_ to_) to_ := by
  intro name hName
  by_cases hFrom : name = from_
  · rw [renamed, renamed, if_pos hFrom, if_pos rfl, hFrom]
  · rw [renamed, renamed, if_neg hFrom, if_neg hName]

/-- In a room without the new name, nobody's membership is merged. -/
theorem Room.rename_eq {r : Room} (hWithout : r.Without to_) : r.rename from_ to_ = r.relabel (renamed from_ to_) := by
  have hApart : r.members.Apart (renamed from_ to_) :=
    BTreeMap.apart_of_back fun name hName => (renamed_undoes from_ to_).ne hWithout.members hName
  have hMembers : (r.rename from_ to_).members = r.members.rekey (renamed from_ to_) := by
    unfold Room.rename
    dsimp only
    cases hMember : r.members[from_]? with
    | none =>
      -- the agent is no member: no key changes
      refine (BTreeMap.rekey_self fun name hName => ?_).symm
      refine if_neg fun hEq => ?_
      obtain ⟨member, hm⟩ := (BTreeMap.mem_iff_get _ _).mp hName
      rw [hEq, hMember] at hm
      cases hm
    | some member =>
      -- nobody has the new name, so there is nothing to merge with
      have hNone : (r.members.erase from_)[to_]? = none := by
        rw [BTreeMap.get_erase]
        split
        · rfl
        · exact get_none_of_notMem hWithout.members
      dsimp only
      rw [hNone]
      refine BTreeMap.ext_get fun name => Option.ext fun m => ?_
      rw [BTreeMap.get_insert, BTreeMap.get_erase, BTreeMap.get_rekey hApart]
      by_cases hTo : to_ = name
      · rw [if_pos hTo]
        constructor
        · rintro ⟨⟩
          -- under the new name stands the old one's membership, and no other
          exact ⟨from_, hMember, hTo ▸ if_pos rfl⟩
        · rintro ⟨other, hm, hName⟩
          have hOther : other = from_ := ((renamed_eq_iff from_ to_ other).mp (hName.trans hTo.symm)).resolve_right
            fun hEq => hWithout.members (hEq ▸ (BTreeMap.mem_iff_get _ _).mpr ⟨m, hm⟩)
          rw [hOther, hMember] at hm
          exact hm
      · rw [if_neg hTo]
        constructor
        · intro hm
          split at hm
          · cases hm
          · next hFrom => exact ⟨name, hm, if_neg (Ne.symm hFrom)⟩
        · rintro ⟨other, hm, hName⟩
          -- under any other name stands what stood there, unless it is the old one
          by_cases hOther : other = from_
          · rw [renamed, if_pos hOther] at hName
            exact absurd hName hTo
          · rw [renamed, if_neg hOther] at hName
            subst hName
            rw [if_neg (Ne.symm hOther)]
            exact hm
  show ({ r.rename from_ to_ with members := (r.rename from_ to_).members } : Room) = _
  rw [hMembers]
  rfl

/-- What of a store is not rebuilt, once it is renamed. -/
theorem rename_parts (hWithout : store.Without to_) (hFrom : from_ ∈ store.agents) :
    (store.rename from_ to_).last_id = store.last_id ∧
    (store.rename from_ to_).messages = (store.relabel (renamed from_ to_)).messages ∧
    (store.rename from_ to_).broadcasts = (store.relabel (renamed from_ to_)).broadcasts ∧
    (store.rename from_ to_).sessions = (store.relabel (renamed from_ to_)).sessions ∧
    (store.rename from_ to_).rooms = (store.relabel (renamed from_ to_)).rooms := by
  have hSessions := rename_sessions store from_ to_
  rw [if_pos hFrom] at hSessions
  have hRooms : (store.rooms.map fun _ r => r.rename from_ to_) = store.rooms.map fun _ r => r.relabel (renamed from_ to_) :=
    BTreeMap.map_congr fun key r hr => Room.rename_eq (hWithout.rooms key r hr)
  obtain ⟨agent, ha⟩ := (BTreeMap.mem_iff_get _ _).mp hFrom
  refine ⟨?_, ?_, ?_, hSessions, ?_⟩
  all_goals
    unfold Store.rename
    rw [ha]
    dsimp only
  · exact (retrack_beside _).last_id
  · exact (retrack_beside _).messages
  · exact (retrack_beside _).broadcasts
  · exact (retrack_beside _).rooms.trans hRooms

/-- The records of the agents, once one is renamed. -/
theorem rename_records (hNamed : ∀ name a, record_of store.agents name = some a → a.name = name)
    (hWithout : store.Without to_) (hFrom : from_ ∈ store.agents) (name : String) :
    record_of (store.rename from_ to_).agents name = record_of (store.relabel (renamed from_ to_)).agents name := by
  obtain ⟨agent, ha⟩ := (BTreeMap.mem_iff_get _ _).mp hFrom
  have hUndoes := renamed_undoes from_ to_
  have hNameOf : ∀ (key : String) (a : Agent), store.agents[key]? = some a → a.name = key := fun key a h =>
    hNamed key a.record (by unfold record_of; rw [h]; rfl)
  have hNone : (store.agents.erase from_)[to_]? = none := by
    rw [BTreeMap.get_erase]
    split
    · rfl
    · exact get_none_of_notMem hWithout.agents
  -- what the rename files under a name: the old record at the new name, nothing at the old
  have hRenamed : record_of (store.rename from_ to_).agents name =
      if to_ = name then some { agent.record with name := to_ }
      else if from_ = name then none else record_of store.agents name := by
    unfold Store.rename
    rw [ha]
    dsimp only
    rw [retrack_record]
    show record_of ((store.agents.erase from_).insert to_ _) name = _
    rw [record_of_insert, record_of_erase, hNone]
    rfl
  rw [hRenamed]
  refine Option.ext fun record => ?_
  show _ ↔ ((store.relabel (renamed from_ to_)).agents[name]?).map Agent.record = some record
  rw [Option.map_eq_some_iff]
  by_cases hTo : to_ = name
  · rw [if_pos hTo]
    constructor
    · rintro ⟨⟩
      refine ⟨_, (relabel_agents hUndoes hWithout).mpr ⟨from_, agent, ha, (if_pos rfl).trans hTo, rfl⟩, ?_⟩
      unfold Agent.relabel Agent.record
      dsimp only
      rw [hNameOf from_ agent ha, renamed, if_pos rfl]
    · rintro ⟨a', ha', rfl⟩
      obtain ⟨key, a, hKey, hName, rfl⟩ := (relabel_agents hUndoes hWithout).mp ha'
      -- only the old name is relabelled to the new one
      have hIs : key = from_ := ((renamed_eq_iff from_ to_ key).mp (hName.trans hTo.symm)).resolve_right
        fun hEq => hWithout.agents (hEq ▸ (BTreeMap.mem_iff_get _ _).mpr ⟨a, hKey⟩)
      rw [hIs, ha] at hKey
      cases hKey
      unfold Agent.relabel Agent.record
      dsimp only
      rw [hNameOf from_ agent ha, renamed, if_pos rfl]
  · rw [if_neg hTo]
    constructor
    · intro hRecord
      split at hRecord
      · cases hRecord
      · next hOther =>
        unfold record_of at hRecord
        obtain ⟨a, hKey, rfl⟩ := Option.map_eq_some_iff.mp hRecord
        refine ⟨_, (relabel_agents hUndoes hWithout).mpr ⟨name, a, hKey, if_neg (Ne.symm hOther), rfl⟩, ?_⟩
        unfold Agent.relabel Agent.record
        dsimp only
        rw [hNameOf name a hKey, renamed, if_neg (Ne.symm hOther)]
    · rintro ⟨a', ha', rfl⟩
      obtain ⟨key, a, hKey, hName, rfl⟩ := (relabel_agents hUndoes hWithout).mp ha'
      -- the old name is no other's label
      have hOther : key ≠ from_ := by
        rintro rfl
        rw [renamed, if_pos rfl] at hName
        exact hTo hName
      rw [renamed, if_neg hOther] at hName
      subst hName
      rw [if_neg (Ne.symm hOther)]
      unfold record_of Agent.relabel Agent.record
      rw [hKey, Option.map_some, hNameOf key a hKey, renamed, if_neg hOther]

/-- **A rename to an unused name relabels the store**, and rebuilds the idempotency indexes. -/
theorem rename_eq (hTidy : Tidy store) (hWithout : store.Without to_) (hFrom : from_ ∈ store.agents) :
    store.rename from_ to_ =
      { store.relabel (renamed from_ to_) with
        msg_keys := (store.rename from_ to_).msg_keys
        bc_keys := (store.rename from_ to_).bc_keys
        post_keys := (store.rename from_ to_).post_keys } := by
  obtain ⟨hLast, hMessages, hBroadcasts, hSessions, hRooms⟩ := rename_parts hWithout hFrom
  have hRelabeled := hTidy.sound.relabel (renamed_undoes from_ to_) hWithout
  -- messages and records are those of the relabelled store, and they decide the indexes
  obtain ⟨hAgents, hDue⟩ := hRelabeled.unique (hTidy.sound.rename from_ to_) hMessages
    (rename_records hTidy.named hWithout hFrom)
  have hAgents : (store.rename from_ to_).agents = (store.relabel (renamed from_ to_)).agents := hAgents
  have hDue : (store.rename from_ to_).due = store.due := hDue
  generalize store.rename from_ to_ = after at *
  obtain ⟨⟩ := after
  dsimp only at *
  subst hLast hMessages hBroadcasts hSessions hRooms hAgents hDue
  rfl

theorem renamed_ne (hNe : from_ ≠ to_) (name : String) : renamed from_ to_ name ≠ from_ := by
  by_cases hFrom : name = from_
  · rw [renamed, if_pos hFrom]
    exact hNe.symm
  · rw [renamed, if_neg hFrom]
    exact hFrom

theorem Room.relabel_without {r : Room} (hWithout : r.Without to_) (hNe : from_ ≠ to_) :
    (r.relabel (renamed from_ to_)).Without from_ := by
  have hNew := renamed_ne hNe
  have hApart : r.members.Apart (renamed from_ to_) :=
    BTreeMap.apart_of_back fun name hName => (renamed_undoes from_ to_).ne hWithout.members hName
  refine ⟨hNew _, fun hMem => ?_, fun id p' hp' => ?_, fun key e' he' => ?_⟩
  · obtain ⟨name, -, hName⟩ := (BTreeMap.mem_rekey hApart).mp hMem
    exact hNew name hName
  · have hp' : (r.posts.map fun _ p => p.relabel (renamed from_ to_))[id]? = some p' := hp'
    rw [Std.ExtTreeMap.getElem?_map] at hp'
    obtain ⟨p, hp, rfl⟩ := Option.map_eq_some_iff.mp hp'
    refine ⟨hNew _, fun ask hAsk hMem => ?_⟩
    obtain ⟨was, hWas, rfl⟩ := Option.map_eq_some_iff.mp hAsk
    obtain ⟨name, -, hName⟩ := List.mem_map.mp hMem
    exact hNew name hName
  · have he' : (r.board.map fun _ e => e.relabel (renamed from_ to_))[key]? = some e' := he'
    rw [Std.ExtTreeMap.getElem?_map] at he'
    obtain ⟨e, he, rfl⟩ := Option.map_eq_some_iff.mp he'
    exact hNew _

/-- Nothing is left under the old name. -/
theorem relabel_without (hWithout : store.Without to_) (hNe : from_ ≠ to_) :
    (store.relabel (renamed from_ to_)).Without from_ := by
  have hNew := renamed_ne hNe
  have hUndoes := renamed_undoes from_ to_
  refine ⟨fun hMem => ?_, fun key a' ha' => ?_, fun id m' hm' => ?_, fun id b' hb' => ?_, fun key s' hs' => ?_,
    fun key r' hr' => ?_⟩
  · obtain ⟨a', ha'⟩ := (BTreeMap.mem_iff_get _ _).mp hMem
    obtain ⟨name, -, -, hName, -⟩ := (relabel_agents hUndoes hWithout).mp ha'
    exact hNew name hName
  · obtain ⟨name, a, ha, -, rfl⟩ := (relabel_agents hUndoes hWithout).mp ha'
    refine ⟨hNew _, fun hMem => ?_⟩
    -- no sender either
    have hApart : a.senders.Apart (renamed from_ to_) :=
      BTreeMap.apart_of_back fun sender hSender => hUndoes.ne (hWithout.records name a ha).2 hSender
    obtain ⟨sender, -, hSender⟩ := (BTreeMap.mem_rekey hApart).mp hMem
    exact hNew sender hSender
  all_goals dsimp only [Store.relabel] at *
  · rw [Std.ExtTreeMap.getElem?_map] at hm'
    obtain ⟨m, hm, rfl⟩ := Option.map_eq_some_iff.mp hm'
    exact ⟨hNew _, hNew _⟩
  · rw [Std.ExtTreeMap.getElem?_map] at hb'
    obtain ⟨b, hb, rfl⟩ := Option.map_eq_some_iff.mp hb'
    exact hNew _
  · rw [Std.ExtTreeMap.getElem?_map] at hs'
    obtain ⟨s, hs, rfl⟩ := Option.map_eq_some_iff.mp hs'
    exact hNew _
  · rw [Std.ExtTreeMap.getElem?_map] at hr'
    obtain ⟨r, hr, rfl⟩ := Option.map_eq_some_iff.mp hr'
    exact Room.relabel_without (hWithout.rooms key r hr) hNe

end Rename

/-! ## The idempotency indexes -/

/-- Every idempotency key leads to what was sent with it, by that sender. -/
structure Store.Keyed (store : Store) : Prop where
  messages : ∀ to_ from_ key id, store.msg_keys (to_, from_, key) = some id →
    ∃ m, store.messages[id]? = some m ∧ m.to_ = to_ ∧ m.from_ = from_ ∧ m.key = some key
  broadcasts : ∀ from_ key id, store.bc_keys (from_, key) = some id →
    ∃ b, store.broadcasts[id]? = some b ∧ b.from_ = from_ ∧ b.key = some key
  posts : ∀ room from_ key id, store.post_keys (room, from_, key) = some id →
    ∃ r p, store.rooms[room]? = some r ∧ r.posts[id]? = some p ∧ p.from_ = from_ ∧ p.key = some key

section Keys

variable {store : Store} {from_ to_ : String}

theorem mem_of_collect {K : Type} [DecidableEq K] {pairs : List (K × Id)} {k : K} {id : Id}
    (h : collect pairs k = some id) : (k, id) ∈ pairs := by
  unfold collect at h
  -- from the right: the last pair of a key is the one that stands
  induction pairs using List.reverseRecOn with
  | nil => cases h
  | append_singleton pairs p ih =>
    rw [List.foldl_append] at h
    have h : Function.update (pairs.foldl (fun map p => set map p.1 (some p.2)) fun _ => none) p.1 (some p.2) k =
      some id := h
    by_cases hKey : k = p.1
    · subst hKey
      rw [Function.update_self] at h
      cases h
      exact List.mem_append_right _ List.mem_cons_self
    · rw [Function.update_of_ne hKey] at h
      exact List.mem_append_left _ (ih h)

theorem reindex_keyed (h : Tidy store) : store.reindex.Keyed := by
  refine ⟨fun to_ from_ key id hKey => ?_, fun from_ key id hKey => ?_, fun room from_ key id hKey => ?_⟩
  · obtain ⟨⟨i, m⟩, hMem, hPair⟩ := List.mem_filterMap.mp (mem_of_collect hKey)
    obtain ⟨k, hk, hEq⟩ := Option.map_eq_some_iff.mp hPair
    obtain ⟨⟨rfl, rfl, rfl⟩, rfl⟩ : (m.to_ = to_ ∧ m.from_ = from_ ∧ k = key) ∧ m.id = id := by simpa using hEq
    have hm := (BTreeMap.mem_toList _ _ _).mp hMem
    exact ⟨m, (h.bounded.messages i m hm).1 ▸ hm, rfl, rfl, hk⟩
  · obtain ⟨⟨i, b⟩, hMem, hPair⟩ := List.mem_filterMap.mp (mem_of_collect hKey)
    obtain ⟨k, hk, hEq⟩ := Option.map_eq_some_iff.mp hPair
    obtain ⟨⟨rfl, rfl⟩, rfl⟩ : (b.from_ = from_ ∧ k = key) ∧ b.id = id := by simpa using hEq
    have hb := (BTreeMap.mem_toList _ _ _).mp hMem
    exact ⟨b, (h.bounded.broadcasts i b hb).1 ▸ hb, rfl, hk⟩
  · obtain ⟨⟨name, r⟩, hRoom, hIn⟩ := List.mem_flatMap.mp (mem_of_collect hKey)
    obtain ⟨⟨i, p⟩, hMem, hPair⟩ := List.mem_filterMap.mp hIn
    obtain ⟨k, hk, hEq⟩ := Option.map_eq_some_iff.mp hPair
    obtain ⟨⟨rfl, rfl, rfl⟩, rfl⟩ : (r.name = room ∧ p.from_ = from_ ∧ k = key) ∧ p.id = id := by simpa using hEq
    have hr := (BTreeMap.mem_toList _ _ _).mp hRoom
    have hp := (BTreeMap.mem_toList _ _ _).mp hMem
    exact ⟨r, p, (h.bounded.rooms name r hr).1 ▸ hr, (h.listed name r hr).keyed i p hp ▸ hp, rfl, hk⟩

theorem retrack_keys (store : Store) : store.retrack.msg_keys = store.msg_keys ∧
    store.retrack.bc_keys = store.bc_keys ∧ store.retrack.post_keys = store.post_keys := by
  have hEach := @part_foldl (Id × Message) _ (fun store => (store.msg_keys, store.bc_keys, store.post_keys))
    (fun store m => store.track m.2 true) (fun _ _ => rfl) store.messages.toList
  exact ⟨congrArg (fun k => k.1) (hEach _), congrArg (fun k => k.2.1) (hEach _), congrArg (fun k => k.2.2) (hEach _)⟩

theorem rename_keyed (h : Tidy store) (hFrom : from_ ∈ store.agents) : (store.rename from_ to_).Keyed := by
  have hTidy : Tidy (store.rename from_ to_) := @Tidy.apply store (.Rename from_ to_) h trivial
  have hKeyed := reindex_keyed hTidy
  obtain ⟨agent, ha⟩ := (BTreeMap.mem_iff_get _ _).mp hFrom
  -- a rename rebuilds the indexes as its last step, and rebuilding them again changes nothing
  have hSame : (store.rename from_ to_).reindex.msg_keys = (store.rename from_ to_).msg_keys ∧
      (store.rename from_ to_).reindex.bc_keys = (store.rename from_ to_).bc_keys ∧
      (store.rename from_ to_).reindex.post_keys = (store.rename from_ to_).post_keys := by
    unfold Store.rename
    rw [ha]
    dsimp only
    obtain ⟨hMsg, hBc, hPost⟩ := retrack_keys (Store.reindex _)
    rw [hMsg, hBc, hPost]
    unfold Store.reindex
    dsimp only
    rw [(retrack_beside _).messages, (retrack_beside _).broadcasts, (retrack_beside _).rooms]
    exact ⟨rfl, rfl, rfl⟩
  obtain ⟨hMsg, hBc, hPost⟩ := hSame
  exact ⟨hMsg ▸ hKeyed.messages, hBc ▸ hKeyed.broadcasts, hPost ▸ hKeyed.posts⟩

end Keys

/-! ## The operation -/

section Operation

variable {core after again : Core} {from_ to_ : String} {now : Fin (2 ^ 64)}

/-- A rename that succeeds, to a name no agent has. -/
theorem rename_ran (hNe : from_ ≠ to_) (hNew : to_ ∉ core.store.agents)
    (h : rename from_ to_ now core = (.ok (), after)) :
    from_ ∈ core.store.agents ∧ after.store = core.store.rename from_ to_ := by
  have hSat : Sat (rename from_ to_ now) core
      (fun _ core' => from_ ∈ core.store.agents ∧ core'.store = core.store.rename from_ to_) fun _ => True := by
    unfold rename
    rw [if_neg hNe]
    refine sat_read (sat_bind (sat_refuse (fun _ => trivial) fun hKnown => ?_))
    dsimp only
    refine sat_bind (sat_refuse (fun _ => trivial) fun _ => ?_)
    -- no agent has the new name, so nobody is forgotten for it
    rw [if_neg fun hMem => hNew (Std.ExtTreeMap.contains_iff_mem.mp hMem)]
    refine sat_bind ((sat_commit_any (.Rename from_ to_) core).mono (fun _ core' hStore => ?_) fun _ _ => trivial)
    refine sat_bind (sat_wake fun _ => ?_)
    refine sat_bind (sat_emit fun _ => ?_)
    refine sat_bind (sat_hand_over fun _ => ?_)
    refine sat_hand_over fun _ => ⟨?_, hStore⟩
    exact Std.ExtTreeMap.contains_iff_mem.mp (by simpa using hKnown)
  unfold Sat at hSat
  rw [h] at hSat
  exact hSat

/-- The store with the idempotency indexes of another. -/
def Store.with_keys (store other : Store) : Store :=
  { store with msg_keys := other.msg_keys, bc_keys := other.bc_keys, post_keys := other.post_keys }

theorem relabel_self (store : Store) : store.relabel id = store := by
  have hAgent : ∀ a : Agent, a.relabel id = a := fun a => by
    unfold Agent.relabel
    rw [@BTreeMap.rekey_self String Nat _ a.senders id fun _ _ => rfl]
    rfl
  have hPost : ∀ p : Post, p.relabel id = p := fun p => by
    have hAsk : (p.ask.map fun ask => { ask with to_ := ask.to_.map id }) = p.ask := by
      cases p.ask with
      | none => rfl
      | some ask => simp
    unfold Post.relabel
    rw [hAsk]
    rfl
  have hEntry : ∀ e : Entry, e.relabel id = e := fun _ => rfl
  have hRoom : ∀ r : Room, r.relabel id = r := fun r => by
    unfold Room.relabel
    rw [@BTreeMap.rekey_self String Member _ r.members id fun _ _ => rfl, BTreeMap.map_self hPost,
      BTreeMap.map_self hEntry]
    rfl
  have hMessage : ∀ m : Message, m.relabel id = m := fun _ => rfl
  have hBroadcast : ∀ b : Broadcast, b.relabel id = b := fun _ => rfl
  have hSession : ∀ s : Session, s.relabel id = s := fun _ => rfl
  unfold Store.relabel
  rw [BTreeMap.map_self hAgent, @BTreeMap.rekey_self String Agent _ store.agents id fun _ _ => rfl,
    BTreeMap.map_self hMessage, BTreeMap.map_self hBroadcast, BTreeMap.map_self hSession, BTreeMap.map_self hRoom]

theorem renamed_self (name : String) : renamed name name = id := by
  funext other
  by_cases hName : other = name
  · rw [renamed, if_pos hName, hName]
    rfl
  · exact if_neg hName

/-- **Renaming to an unused name is a pure relabelling.** After any operations and restarts, a rename
that succeeds, to a name that is not in use and on no board, leaves the store with the new name
wherever it had the old one, its counts, inboxes and due sets along with the rest; nothing was
recorded under the new name before; and renaming back restores the store. The idempotency indexes,
which each rename rebuilds, lead to what was sent with their keys. -/
theorem rename_relabels {core : Core} (hEmpty : core.store = {}) (turns : List Turn)
    (hIds : (Server.run { core } turns).core.store.last_id ≠ .MAX) (from_ to_ : String) (now : Fin (2 ^ 64))
    (hUnused : (Server.run { core } turns).core.name_in_use to_ = false)
    (hBoards : (Server.run { core } turns).core.store.is_author to_ = false) {after : Core}
    (hRenamed : rename from_ to_ now (Server.run { core } turns).core = (.ok (), after)) :
    let before := (Server.run { core } turns).core
    before.store.Without to_ ∧
    after.store = (before.store.relabel (renamed from_ to_)).with_keys after.store ∧
    (from_ ≠ to_ → after.store.Without from_ ∧ after.store.Keyed) ∧
    ∀ later again, rename to_ from_ later after = (.ok (), again) →
      again.store = before.store.with_keys again.store := by
  intro before
  obtain ⟨hTidy, hAttended⟩ := reached hEmpty turns hIds
  have hWithout : before.store.Without to_ := without_of_unused hTidy hAttended hUnused hBoards
  refine ⟨hWithout, ?_⟩
  by_cases hNe : from_ = to_
  · -- nothing is done
    subst hNe
    have hSame : ∀ (now : Fin (2 ^ 64)) (core after : Core), rename from_ from_ now core = (.ok (), after) →
        after = core := by
      intro now core after h
      unfold rename at h
      rw [if_pos rfl] at h
      cases h
      rfl
    have hAfter : after = before := hSame now before after hRenamed
    subst hAfter
    rw [renamed_self, relabel_self]
    refine ⟨rfl, fun h => absurd rfl h, fun later again hAgain => ?_⟩
    rw [hSame later _ again hAgain]
    rfl
  · obtain ⟨hFrom, hStore⟩ := rename_ran hNe hWithout.agents hRenamed
    have hEq : after.store = (before.store.relabel (renamed from_ to_)).with_keys after.store := by
      rw [hStore]
      exact rename_eq hTidy hWithout hFrom
    -- the old name is free again, so it can be taken back
    have hLeft : after.store.Without from_ := by
      have hRelabeled := relabel_without hWithout hNe
      rw [hEq]
      exact ⟨hRelabeled.agents, hRelabeled.records, hRelabeled.messages, hRelabeled.broadcasts,
        hRelabeled.sessions, hRelabeled.rooms⟩
    refine ⟨hEq, fun _ => ⟨hLeft, hStore ▸ rename_keyed hTidy hFrom⟩, fun later again hAgain => ?_⟩
    have hTidyAfter : Tidy after.store := hStore ▸ @Tidy.apply _ (.Rename from_ to_) hTidy trivial
    obtain ⟨hTo, hBack⟩ := rename_ran (Ne.symm hNe) hLeft.agents hAgain
    have hRestored := rename_eq hTidyAfter hLeft hTo
    rw [← hBack] at hRestored
    -- and the way back undoes the way there
    have hSame : after.store.relabel (renamed to_ from_) =
        ((before.store.relabel (renamed from_ to_)).relabel (renamed to_ from_)).with_keys after.store := by
      conv_lhs => rw [hEq]
      rfl
    rw [hSame, before.store.relabel_back (renamed_undoes from_ to_) hWithout] at hRestored
    exact hRestored

theorem succeeds {m : Op Unit} (h : (m core).1.toOption = some ()) : m core = (.ok (), (m core).2) := by
  rcases hResult : m core with ⟨e | _, core'⟩
  · rw [hResult] at h
    cases h
  · rfl

end Operation

/-- A message and a room with a board, and a restart, before their author is renamed. -/
def told_and_restarted : List Turn :=
  let ann : Actor := { name := "ann", admin := false, strict := true }
  let den : CreateRoom := { name := "den", topic := "", private_ := false, members := [], join := false }
  [.operation { op := .send { from_ := "ann", to_ := some "bob", body := "hi", key := some "k" } , now := 5 },
    .operation { op := .create_room den ann, now := 6 },
    .operation { op := .board_set "den" "plan" (some "ship") none ann, now := 7 }, .snapshot,
    .restart {} (some 0)]

theorem rename_relabels_ann :
    let before := (Server.run { core := {} } told_and_restarted).core
    let after := (rename "ann" "cat" 8 before).2
    let again := (rename "cat" "ann" 9 after).2
    after.store = (before.store.relabel (renamed "ann" "cat")).with_keys after.store ∧
    again.store = before.store.with_keys again.store ∧
    after.store.agents.toList.map Prod.fst = ["bob", "cat"] := by
  intro before after again
  have hAfter : rename "ann" "cat" 8 before = (.ok (), after) := succeeds (by decide +kernel)
  have hAgain : rename "cat" "ann" 9 after = (.ok (), again) := succeeds (by decide +kernel)
  obtain ⟨-, hRelabeled, -, hBack⟩ := rename_relabels rfl told_and_restarted (by decide +kernel) "ann" "cat" 8
    (by decide +kernel) (by decide +kernel) hAfter
  exact ⟨hRelabeled, hBack 9 again hAgain, by decide +kernel⟩

end Postino.Forum
