import Postino.Forum.Store

/-!
# The indexes of the forum's messages

Each set the store keeps beside its messages holds the ids of the messages of one
kind: those queued for an agent, those settled, those whose lease ends at a time,
and so on. `Tracks` says so of one set; `Indexed` and `Housed` of all of them.

* `Indexed.untrack`, `Indexed.track` — what one message contributes is taken out,
  and put in.
* `Sound.with_message`, `Sound.remove_message`, `Sound.message`, `Sound.forget` —
  what the effects keep.
-/

namespace Postino.Forum

open Lib

/-! ## A set of the ids of some messages -/

/-- `P` holds of the ids of the messages `C` is true of. -/
def Tracks (messages : BTreeMap Id Message) (C : Message → Prop) (P : Id → Prop) : Prop :=
  ∀ id : Id, P id ↔ ∃ m, messages[id]? = some m ∧ C m

/-- What `P` is after the things of `Q` were put in, or taken out. -/
def Flips (add : Bool) (Q P : Prop) : Prop := (Q ∧ add = true) ∨ (¬ Q ∧ P)

theorem flips_of_not {add : Bool} {Q P : Prop} (h : ¬ Q) : Flips add Q P ↔ P := by
  simp [Flips, h]

variable {messages : BTreeMap Id Message} {C : Message → Prop} {P P' : Id → Prop}

theorem Tracks.erase (h : Tracks messages C P) {old : Message} (hOld : messages[old.id]? = some old)
    (hP : ∀ id, P' id ↔ Flips false (old.id = id ∧ C old) (P id)) :
    Tracks (messages.erase old.id) C P' := by
  intro id
  rw [hP, BTreeMap.get_erase]
  by_cases hId : old.id = id
  · subst hId
    have hOldP : P old.id ↔ C old := by simpa [hOld] using h old.id
    simp [Flips, hOldP]
  · rw [flips_of_not fun hBoth => hId hBoth.1, if_neg hId]
    exact h id

theorem Tracks.insert (h : Tracks messages C P) {new : Message} (hNew : messages[new.id]? = none)
    (hP : ∀ id, P' id ↔ Flips true (new.id = id ∧ C new) (P id)) :
    Tracks (messages.insert new.id new) C P' := by
  intro id
  rw [hP, BTreeMap.get_insert]
  by_cases hId : new.id = id
  · subst hId
    have hNone : ¬ P new.id := by simpa [hNew] using h new.id
    simp [Flips, hNone]
  · rw [flips_of_not fun hBoth => hId hBoth.1, if_neg hId]
    exact h id

theorem Tracks.congr {messages' : BTreeMap Id Message} (h : Tracks messages C P)
    (hSame : ∀ id : Id, (∃ m, messages'[id]? = some m ∧ C m) ↔ ∃ m, messages[id]? = some m ∧ C m) :
    Tracks messages' C P := fun id => (h id).trans (hSame id).symm

/-! ## How many messages there are of a kind -/

/-- How many messages `C` is true of. -/
def tally (messages : BTreeMap Id Message) (C : Message → Prop) [DecidablePred C] : Nat :=
  messages.toList.countP fun e => C e.2

/-- One message was counted in, or with `add` false out. -/
def Tallies (messages messages' : BTreeMap Id Message) (m : Message) (add : Bool) : Prop :=
  ∀ (C : Message → Prop) [DecidablePred C],
    tally messages' C = if C m then tick add (tally messages C) else tally messages C

theorem tally_insert {new : Message} (hNew : messages[new.id]? = none) :
    Tallies messages (messages.insert new.id new) new true := by
  intro C _
  unfold tally
  rw [(BTreeMap.toList_insert_perm new hNew).countP_eq, List.countP_cons]
  by_cases hC : C new
  · simp [hC, tick]
  · simp [hC]

theorem tally_erase {old : Message} (hOld : messages[old.id]? = some old) :
    Tallies messages (messages.erase old.id) old false := by
  intro C _
  have hInsert := @tally_insert (messages.erase old.id) old (by simp) C _
  rw [BTreeMap.erase_insert, BTreeMap.insert_get _ hOld] at hInsert
  rw [hInsert]
  by_cases hC : C old
  · simp [hC, tick]
  · simp [hC]

theorem tally_none {C : Message → Prop} [DecidablePred C]
    (h : ∀ (id : Id) m, messages[id]? = some m → ¬ C m) : tally messages C = 0 := by
  unfold tally
  rw [List.countP_eq_zero]
  rintro ⟨id, m⟩ hMem
  simpa using h id m ((BTreeMap.mem_toList _ _ _).mp hMem)

/-- Counts and senders by the messages, instead of one at a time. -/
def Counts.tallied (messages : BTreeMap Id Message) (name : String) : Counts where
  queued := tally messages fun m => m.to_ = name ∧ m.state = .Queued
  leased := tally messages fun m => m.to_ = name ∧ m.state = .Leased
  dead := tally messages fun m => m.to_ = name ∧ m.state = .Dead
  settled := tally messages fun m => m.to_ = name ∧ (m.state = .Acked ∨ m.state = .Expired)

/-- How many of the pending messages to `name` are from `from_`. -/
def sent_pending (messages : BTreeMap Id Message) (name from_ : String) : Nat :=
  tally messages fun m => m.to_ = name ∧ m.state.is_pending = true ∧ m.from_ = from_

/-- What a map of counters holds of a count: nothing for zero. -/
def positive (n : Nat) : Option Nat := if n = 0 then none else some n

theorem positive_getD (n : Nat) : (positive n).getD 0 = n := by
  unfold positive
  split
  · next h => simp [h]
  · rfl

theorem Counts.tallied_track {messages messages' : BTreeMap Id Message} {m : Message} {add : Bool}
    (h : Tallies messages messages' m add) (name : String) :
    Counts.tallied messages' name =
      if m.to_ = name then (Counts.tallied messages name).track m.state add
      else Counts.tallied messages name := by
  unfold Counts.tallied
  rw [h, h, h, h]
  by_cases hTo : m.to_ = name
  · cases hState : m.state with
    | _ => simp [hTo, Counts.track]
  · simp [hTo]

theorem Agent.track_senders (a : Agent) (m : Message) (add : Bool) (from_ : String) :
    (a.track m add).senders[from_]? =
      if m.state.is_pending = true ∧ m.from_ = from_ then
        let sent := tick add ((a.senders[from_]?).getD 0)
        if add = false ∧ sent = 0 then none else some sent
      else a.senders[from_]? := by
  by_cases hPending : m.state.is_pending = true
  · have hTrack : (a.track m add).senders =
        if add = false ∧ tick add ((a.senders[m.from_]?).getD 0) = 0 then a.senders.erase m.from_
        else a.senders.insert m.from_ (tick add ((a.senders[m.from_]?).getD 0)) := by
      unfold Agent.track
      simp [hPending]
    rw [hTrack]
    by_cases hFrom : m.from_ = from_
    · subst hFrom
      rw [if_pos (show _ ∧ _ from ⟨hPending, rfl⟩)]
      dsimp only
      split
      · simp
      · simp
    · rw [if_neg (show ¬ (_ ∧ _) from fun h => hFrom h.2)]
      split
      · exact BTreeMap.get_erase_ne _ hFrom
      · exact BTreeMap.get_insert_ne _ _ hFrom
  · simp [Agent.track, hPending]

theorem sent_pending_track {messages messages' : BTreeMap Id Message} {m : Message} {add : Bool}
    (h : Tallies messages messages' m add) {a : Agent} (from_ : String)
    (hSent : a.senders[from_]? = positive (sent_pending messages m.to_ from_)) :
    (a.track m add).senders[from_]? = positive (sent_pending messages' m.to_ from_) := by
  rw [Agent.track_senders, hSent, positive_getD]
  unfold sent_pending
  rw [h]
  by_cases hFrom : m.state.is_pending = true ∧ m.from_ = from_
  · rw [if_pos hFrom, if_pos (show _ ∧ _ from ⟨rfl, hFrom⟩)]
    cases add with
    | true => simp [positive, tick]
    | false => simp [positive]
  · rw [if_neg hFrom, if_neg fun hBoth => hFrom hBoth.2]

theorem sent_pending_others {messages messages' : BTreeMap Id Message} {m : Message} {add : Bool}
    (h : Tallies messages messages' m add) {name : String} (from_ : String) (hTo : m.to_ ≠ name) :
    sent_pending messages' name from_ = sent_pending messages name from_ := by
  unfold sent_pending
  rw [h, if_neg fun hBoth => hTo hBoth.1]

/-! ## What one message contributes -/

namespace Message

def is_queued_for (m : Message) (name : String) : Prop := m.to_ = name ∧ m.state = .Queued

def is_settled_for (m : Message) (name : String) : Prop :=
  m.to_ = name ∧ m.state.is_pending = false

def lease_ends (m : Message) (t : Nat) : Prop :=
  m.state = .Leased ∧ ∃ lease, m.lease = some lease ∧ lease.until_ = t

def expires_at (m : Message) (t : Nat) : Prop := m.state.is_pending = true ∧ m.expires = t

def settled_at (m : Message) (t : Nat) : Prop :=
  m.state.is_pending = false ∧ m.settled.getD m.created = t

end Message

theorem mem_flip {K : Type} [LinearOrder K] (add : Bool) (set : BTreeSet K) (k a : K) :
    a ∈ flip add set k ↔ Flips add (k = a) (a ∈ set) := by
  cases add with
  | true =>
    rw [show flip true set k = set.insert k from rfl, BTreeSet.mem_insert]
    by_cases h : k = a
    · simp [Flips, h]
    · simp [Flips, h]
  | false =>
    rw [show flip false set k = set.erase k from rfl, BTreeSet.mem_erase]
    by_cases h : k = a
    · simp [Flips, h]
    · simp [Flips, h]

theorem mem_flip_pair (add : Bool) (set : BTreeSet (Nat ×ₗ Id)) (t t' : Nat) (id id' : Id) :
    toLex (t, id) ∈ flip add set (toLex (t', id')) ↔
      Flips add (id' = id ∧ t' = t) (toLex (t, id) ∈ set) := by
  rw [mem_flip]
  simp only [EmbeddingLike.apply_eq_iff_eq, Prod.mk.injEq, and_comm]

section Track

variable (due : Due) (m : Message) (add : Bool) (t : Nat) (id : Id)

theorem Due.mem_track_leases : toLex (t, id) ∈ (due.track m add).leases ↔
    Flips add (m.id = id ∧ m.lease_ends t) (toLex (t, id) ∈ due.leases) := by
  unfold Due.track Message.lease_ends
  cases hState : m.state with
  | Leased =>
    cases hLease : m.lease with
    | none => simp [Flips]
    | some lease =>
      show toLex (t, id) ∈ flip add due.leases (toLex (lease.until_, m.id)) ↔ _
      rw [mem_flip_pair]
      simp
  | _ => simp [Flips]

theorem Due.mem_track_expiry : toLex (t, id) ∈ (due.track m add).expiry ↔
    Flips add (m.id = id ∧ m.expires_at t) (toLex (t, id) ∈ due.expiry) := by
  have hFlip := mem_flip_pair add due.expiry t m.expires id m.id
  unfold Due.track Message.expires_at
  cases hState : m.state with
  | Leased =>
    cases hLease : m.lease with
    | none => simpa [State.is_pending] using hFlip
    | some lease => simpa [State.is_pending] using hFlip
  | Queued => simpa [State.is_pending] using hFlip
  | _ => simp [State.is_pending, Flips]

theorem Due.mem_track_settled : toLex (t, id) ∈ (due.track m add).settled ↔
    Flips add (m.id = id ∧ m.settled_at t) (toLex (t, id) ∈ due.settled) := by
  have hFlip := mem_flip_pair add due.settled t (m.settled.getD m.created) id m.id
  unfold Due.track Message.settled_at
  cases hState : m.state with
  | Leased =>
    cases hLease : m.lease with
    | none => simp [State.is_pending, Flips]
    | some lease => simp [State.is_pending, Flips]
  | Queued => simp [State.is_pending, Flips]
  | _ => simpa [State.is_pending] using hFlip

theorem Agent.mem_track_queued (a : Agent) : id ∈ (a.track m add).queued ↔
    Flips add (m.id = id ∧ m.is_queued_for m.to_) (id ∈ a.queued) := by
  unfold Agent.track Message.is_queued_for
  by_cases hState : m.state = .Queued
  · simp [hState, mem_flip]
  · simp [hState, Flips]

theorem Agent.mem_track_settled (a : Agent) : id ∈ (a.track m add).settled ↔
    Flips add (m.id = id ∧ m.is_settled_for m.to_) (id ∈ a.settled) := by
  unfold Agent.track Message.is_settled_for
  by_cases hState : m.state.is_pending = true
  · simp [hState, Flips]
  · simp [hState, mem_flip]

end Track

/-- Who is there after a message was tracked: its recipient changed, everyone
else as before. -/
theorem track_get (agents : BTreeMap String Agent) (due : Due) (m : Message) (add : Bool)
    (name : String) :
    (track agents due m add).1[name]? =
      if m.to_ = name then (agents[name]?).map fun a => a.track m add else agents[name]? := by
  unfold track
  cases hAgent : agents[m.to_]? with
  | none =>
    show agents[name]? = _
    split
    · next h =>
      subst h
      simp [hAgent]
    · rfl
  | some a =>
    show (agents.insert m.to_ (a.track m add))[name]? = _
    rw [BTreeMap.get_insert]
    split
    · next h =>
      subst h
      simp [hAgent]
    · rfl

theorem track_due (agents : BTreeMap String Agent) (due : Due) (m : Message) (add : Bool) :
    (track agents due m add).2 = due.track m add := by
  unfold track
  cases agents[m.to_]? <;> rfl

/-! ## All the indexes -/

/-- The inboxes' parts and the due sets hold what the messages contribute. -/
structure Indexed (messages : BTreeMap Id Message) (agents : BTreeMap String Agent) (due : Due) :
    Prop where
  id_eq : ∀ (id : Id) m, messages[id]? = some m → m.id = id
  queued : ∀ (name : String) a, agents[name]? = some a →
    Tracks messages (·.is_queued_for name) (· ∈ a.queued)
  settled : ∀ (name : String) a, agents[name]? = some a →
    Tracks messages (·.is_settled_for name) (· ∈ a.settled)
  counts : ∀ (name : String) a, agents[name]? = some a → a.counts = Counts.tallied messages name
  senders : ∀ (name : String) a, agents[name]? = some a →
    ∀ from_ : String, a.senders[from_]? = positive (sent_pending messages name from_)
  leases_due : ∀ t, Tracks messages (·.lease_ends t) (fun id => toLex (t, id) ∈ due.leases)
  expiry_due : ∀ t, Tracks messages (·.expires_at t) (fun id => toLex (t, id) ∈ due.expiry)
  settled_due : ∀ t, Tracks messages (·.settled_at t) (fun id => toLex (t, id) ∈ due.settled)

/-- Every message is in the inbox of its recipient, and in no other. -/
structure Housed (messages : BTreeMap Id Message) (agents : BTreeMap String Agent) : Prop where
  inbox : ∀ (name : String) a, agents[name]? = some a → Tracks messages (·.to_ = name) (· ∈ a.inbox)
  agent : ∀ (id : Id) m, messages[id]? = some m → m.to_ ∈ agents

variable {agents : BTreeMap String Agent} {due : Due}

/-- A set of an agent that is none of the message's business. -/
theorem not_for_others {m : Message} {name : String} (h : m.to_ ≠ name) :
    ¬ m.is_queued_for name ∧ ¬ m.is_settled_for name :=
  ⟨fun hFor => h hFor.1, fun hFor => h hFor.1⟩

/-- **What one message contributes, taken out.** -/
theorem Indexed.untrack (h : Indexed messages agents due) {old : Message}
    (hOld : messages[old.id]? = some old) :
    Indexed (messages.erase old.id) (track agents due old false).1 (track agents due old false).2 := by
  -- one index after the other: it loses just what the message put into it
  rw [track_due]
  refine ⟨?_, ?_, ?_, ?_, ?_, ?_, ?_, ?_⟩
  · intro id m hm
    rw [BTreeMap.get_erase] at hm
    split at hm
    · cases hm
    · exact h.id_eq id m hm
  · intro name a ha
    rw [track_get] at ha
    split at ha
    · next hTo =>
      subst hTo
      obtain ⟨a, hAgent, rfl⟩ := Option.map_eq_some_iff.mp ha
      exact (h.queued old.to_ a hAgent).erase hOld fun id =>
        (a.mem_track_queued old false id)
    · next hTo =>
      exact (h.queued name a ha).erase hOld fun id => by
        simp [Flips, not_for_others hTo]
  · intro name a ha
    rw [track_get] at ha
    split at ha
    · next hTo =>
      subst hTo
      obtain ⟨a, hAgent, rfl⟩ := Option.map_eq_some_iff.mp ha
      exact (h.settled old.to_ a hAgent).erase hOld fun id =>
        (a.mem_track_settled old false id)
    · next hTo =>
      exact (h.settled name a ha).erase hOld fun id => by
        simp [Flips, not_for_others hTo]
  · intro name a ha
    rw [track_get] at ha
    rw [Counts.tallied_track (tally_erase hOld)]
    split at ha
    · next hTo =>
      subst hTo
      obtain ⟨a, hAgent, rfl⟩ := Option.map_eq_some_iff.mp ha
      rw [if_pos rfl, ← h.counts old.to_ a hAgent]
      rfl
    · next hTo =>
      rw [if_neg hTo]
      exact h.counts name a ha
  · intro name a ha from_
    rw [track_get] at ha
    split at ha
    · next hTo =>
      subst hTo
      obtain ⟨a, hAgent, rfl⟩ := Option.map_eq_some_iff.mp ha
      exact sent_pending_track (tally_erase hOld) from_ (h.senders old.to_ a hAgent from_)
    · next hTo =>
      rw [sent_pending_others (tally_erase hOld) from_ hTo]
      exact h.senders name a ha from_
  · exact fun t => (h.leases_due t).erase hOld fun id =>
      (due.mem_track_leases old false t id)
  · exact fun t => (h.expiry_due t).erase hOld fun id =>
      (due.mem_track_expiry old false t id)
  · exact fun t => (h.settled_due t).erase hOld fun id =>
      (due.mem_track_settled old false t id)

/-- **What one message contributes, put in.** -/
theorem Indexed.track (h : Indexed messages agents due) {new : Message}
    (hNew : messages[new.id]? = none) :
    Indexed (messages.insert new.id new) (track agents due new true).1
      (Forum.track agents due new true).2 := by
  -- one index after the other: it gains just what the message puts into it
  rw [track_due]
  refine ⟨?_, ?_, ?_, ?_, ?_, ?_, ?_, ?_⟩
  · intro id m hm
    rw [BTreeMap.get_insert] at hm
    split at hm
    · next hId =>
      cases hm
      exact hId
    · exact h.id_eq id m hm
  · intro name a ha
    rw [track_get] at ha
    split at ha
    · next hTo =>
      subst hTo
      obtain ⟨a, hAgent, rfl⟩ := Option.map_eq_some_iff.mp ha
      exact (h.queued new.to_ a hAgent).insert hNew fun id =>
        (a.mem_track_queued new true id)
    · next hTo =>
      exact (h.queued name a ha).insert hNew fun id => by
        simp [Flips, not_for_others hTo]
  · intro name a ha
    rw [track_get] at ha
    split at ha
    · next hTo =>
      subst hTo
      obtain ⟨a, hAgent, rfl⟩ := Option.map_eq_some_iff.mp ha
      exact (h.settled new.to_ a hAgent).insert hNew fun id =>
        (a.mem_track_settled new true id)
    · next hTo =>
      exact (h.settled name a ha).insert hNew fun id => by
        simp [Flips, not_for_others hTo]
  · intro name a ha
    rw [track_get] at ha
    rw [Counts.tallied_track (tally_insert hNew)]
    split at ha
    · next hTo =>
      subst hTo
      obtain ⟨a, hAgent, rfl⟩ := Option.map_eq_some_iff.mp ha
      rw [if_pos rfl, ← h.counts new.to_ a hAgent]
      rfl
    · next hTo =>
      rw [if_neg hTo]
      exact h.counts name a ha
  · intro name a ha from_
    rw [track_get] at ha
    split at ha
    · next hTo =>
      subst hTo
      obtain ⟨a, hAgent, rfl⟩ := Option.map_eq_some_iff.mp ha
      exact sent_pending_track (tally_insert hNew) from_ (h.senders new.to_ a hAgent from_)
    · next hTo =>
      rw [sent_pending_others (tally_insert hNew) from_ hTo]
      exact h.senders name a ha from_
  · exact fun t => (h.leases_due t).insert hNew fun id =>
      (due.mem_track_leases new true t id)
  · exact fun t => (h.expiry_due t).insert hNew fun id =>
      (due.mem_track_expiry new true t id)
  · exact fun t => (h.settled_due t).insert hNew fun id =>
      (due.mem_track_settled new true t id)

/-! ## The effects on messages -/

theorem track_mem (name : String) (m : Message) (add : Bool) :
    name ∈ (track agents due m add).1 ↔ name ∈ agents := by
  rw [BTreeMap.mem_iff_get, BTreeMap.mem_iff_get, track_get]
  split
  · simp
  · rfl

/-- Tracking a message leaves the inboxes alone. -/
theorem track_inbox {name : String} {m : Message} {add : Bool} {a : Agent}
    (ha : (track agents due m add).1[name]? = some a) :
    ∃ a', agents[name]? = some a' ∧ a.inbox = a'.inbox := by
  rw [track_get] at ha
  split at ha
  · obtain ⟨a', hAgent, rfl⟩ := Option.map_eq_some_iff.mp ha
    exact ⟨a', hAgent, rfl⟩
  · exact ⟨a, ha, rfl⟩

theorem Housed.track (h : Housed messages agents) (m : Message) (add : Bool) :
    Housed messages (track agents due m add).1 where
  inbox name a ha := by
    obtain ⟨a', hAgent, hInbox⟩ := track_inbox ha
    rw [hInbox]
    exact h.inbox name a' hAgent
  agent id m' hm := (track_mem m'.to_ m add).mpr (h.agent id m' hm)

/-- The store's messages, as its indexes and inboxes have them. -/
structure Sound (store : Store) : Prop where
  indexed : Indexed store.messages store.agents store.due
  housed : Housed store.messages store.agents
  known : ∀ (id : Id) m, store.messages[id]? = some m → id ≤ store.last_id

namespace Sound

variable {store : Store}

theorem empty : Sound {} where
  indexed :=
    { id_eq := fun _ _ h => by simp at h
      queued := fun _ _ h => by simp at h
      settled := fun _ _ h => by simp at h
      counts := fun _ _ h => by simp at h
      senders := fun _ _ h => by simp at h
      leases_due := fun _ _ => by simp
      expiry_due := fun _ _ => by simp
      settled_due := fun _ _ => by simp }
  housed := { inbox := fun _ _ h => by simp at h, agent := fun _ _ h => by simp at h }
  known := fun _ _ h => by simp at h

theorem with_message_eq {id : Id} {m : Message} (hm : store.messages[id]? = some m)
    (change : Message → Message) :
    store.with_message id change =
      { (store.track m false).track (change m) true with
        messages := store.messages.insert id (change m) } := by
  unfold Store.with_message
  rw [hm]
  rfl

/-- A message changed, but not its id nor its recipient. -/
theorem with_message (h : Sound store) (id : Id) (change : Message → Message)
    (hSame : ∀ m, (change m).id = m.id ∧ (change m).to_ = m.to_) :
    Sound (store.with_message id change) := by
  cases hm : store.messages[id]? with
  | none =>
    rw [show store.with_message id change = store by unfold Store.with_message; rw [hm]]
    exact h
  | some m =>
    rw [with_message_eq hm]
    obtain rfl : m.id = id := h.indexed.id_eq id m hm
    have hFresh : (store.messages.erase m.id)[(change m).id]? = none := by simp [hSame]
    have hIndexed := (h.indexed.untrack hm).track hFresh
    rw [(hSame m).1, BTreeMap.erase_insert] at hIndexed
    refine ⟨hIndexed, ?_, ?_⟩
    · have hHoused : Housed (store.messages.insert m.id (change m)) store.agents := by
        refine ⟨fun name a ha => (h.housed.inbox name a ha).congr fun id => ?_, fun id m' hm' => ?_⟩
        · rw [BTreeMap.get_insert]
          split
          · next hId =>
            subst hId
            simp [hm, hSame]
          · rfl
        · rw [BTreeMap.get_insert] at hm'
          split at hm'
          · cases hm'
            exact (hSame m).2 ▸ h.housed.agent m.id m hm
          · exact h.housed.agent id m' hm'
      exact (hHoused.track m false).track (change m) true
    · intro id m' hm'
      have hm' : (store.messages.insert m.id (change m))[id]? = some m' := hm'
      rw [BTreeMap.get_insert] at hm'
      split at hm'
      · next hId =>
        exact hId ▸ h.known m.id m hm
      · exact h.known id m' hm'

end Sound

/-! ## Removing messages -/

section Remove

variable (store : Store) (id : Id)

theorem remove_message_messages : (store.remove_message id).messages = store.messages.erase id := by
  unfold Store.remove_message
  cases hm : store.messages[id]? with
  | none => exact (BTreeMap.erase_of_get_none _ hm).symm
  | some m => rfl

theorem remove_message_last_id : (store.remove_message id).last_id = store.last_id := by
  unfold Store.remove_message
  cases store.messages[id]? <;> rfl

/-- Who is there after a message was removed: its recipient without it. -/
theorem remove_message_get {m : Message} (hm : store.messages[id]? = some m) (name : String) :
    (store.remove_message id).agents[name]? =
      if m.to_ = name then
        (store.agents[name]?).map fun a =>
          { a.track m false with inbox := (a.track m false).inbox.erase id }
      else store.agents[name]? := by
  unfold Store.remove_message
  rw [hm]
  dsimp only [Store.track]
  cases hAgent : store.agents[m.to_]? with
  | none =>
    have hTrack : (track store.agents store.due m false).1[m.to_]? = none := by
      simp [track_get, hAgent]
    rw [hTrack]
    dsimp only
    rw [track_get]
    split
    · next h =>
      subst h
      simp [hAgent]
    · rfl
  | some a =>
    have hTrack : (track store.agents store.due m false).1[m.to_]? = some (a.track m false) := by
      simp [track_get, hAgent]
    rw [hTrack]
    dsimp only
    rw [BTreeMap.get_insert, track_get]
    split
    · next h =>
      subst h
      simp [hAgent]
    · rfl

theorem remove_message_mem (name : String) :
    name ∈ (store.remove_message id).agents ↔ name ∈ store.agents := by
  cases hm : store.messages[id]? with
  | none => rw [show store.remove_message id = store by unfold Store.remove_message; rw [hm]]
  | some m =>
    rw [BTreeMap.mem_iff_get, BTreeMap.mem_iff_get, remove_message_get store id hm]
    split
    · simp
    · rfl

end Remove

/-- `Sound`, but for messages to agents that are being forgotten. -/
structure Loose (store : Store) : Prop where
  indexed : Indexed store.messages store.agents store.due
  inbox : ∀ (name : String) a, store.agents[name]? = some a →
    Tracks store.messages (·.to_ = name) (· ∈ a.inbox)
  known : ∀ (id : Id) m, store.messages[id]? = some m → id ≤ store.last_id

theorem Sound.loose {store : Store} (h : Sound store) : Loose store :=
  ⟨h.indexed, h.housed.inbox, h.known⟩

theorem Loose.sound {store : Store} (h : Loose store)
    (hAgent : ∀ (id : Id) m, store.messages[id]? = some m → m.to_ ∈ store.agents) : Sound store :=
  ⟨h.indexed, ⟨h.inbox, hAgent⟩, h.known⟩

/-- Agents whose sets are those of others, but for the inboxes. -/
theorem Indexed.agents_congr {agents' : BTreeMap String Agent} (h : Indexed messages agents due)
    (hSame : ∀ (name : String) a, agents'[name]? = some a →
      ∃ a', agents[name]? = some a' ∧ a.queued = a'.queued ∧ a.settled = a'.settled ∧
        a.counts = a'.counts ∧ a.senders = a'.senders) :
    Indexed messages agents' due :=
  { h with
    queued := fun name a ha => by
      obtain ⟨a', hAgent, hQueued, -⟩ := hSame name a ha
      exact hQueued ▸ h.queued name a' hAgent
    settled := fun name a ha => by
      obtain ⟨a', hAgent, -, hSettled, -⟩ := hSame name a ha
      exact hSettled ▸ h.settled name a' hAgent
    counts := fun name a ha => by
      obtain ⟨a', hAgent, -, -, hCounts, -⟩ := hSame name a ha
      exact hCounts ▸ h.counts name a' hAgent
    senders := fun name a ha => by
      obtain ⟨a', hAgent, -, -, -, hSenders⟩ := hSame name a ha
      exact hSenders ▸ h.senders name a' hAgent }

namespace Loose

variable {store : Store}

theorem remove_message (h : Loose store) (id : Id) : Loose (store.remove_message id) := by
  cases hm : store.messages[id]? with
  | none =>
    rw [show store.remove_message id = store by unfold Store.remove_message; rw [hm]]
    exact h
  | some m =>
    obtain rfl : m.id = id := h.indexed.id_eq id m hm
    refine ⟨?_, ?_, ?_⟩
    · have hDue : (store.remove_message m.id).due = (track store.agents store.due m false).2 := by
        unfold Store.remove_message
        rw [hm]
        rfl
      rw [remove_message_messages, hDue]
      refine (h.indexed.untrack hm).agents_congr fun name a ha => ?_
      rw [remove_message_get store m.id hm] at ha
      rw [track_get]
      split at ha
      · next hTo =>
        obtain ⟨a', hAgent, rfl⟩ := Option.map_eq_some_iff.mp ha
        exact ⟨a'.track m false, by simp [hTo, hAgent], rfl, rfl, rfl, rfl⟩
      · next hTo =>
        exact ⟨a, by simp [hTo, ha], rfl, rfl, rfl, rfl⟩
    · intro name a ha
      rw [remove_message_messages]
      rw [remove_message_get store m.id hm] at ha
      split at ha
      · next hTo =>
        obtain ⟨a', hAgent, rfl⟩ := Option.map_eq_some_iff.mp ha
        refine (h.inbox name a' hAgent).erase hm fun id => ?_
        show id ∈ a'.inbox.erase m.id ↔ _
        rw [BTreeSet.mem_erase]
        simp [Flips, hTo]
      · next hTo =>
        exact (h.inbox name a ha).erase hm fun id => by simp [Flips, hTo]
    · intro id m' hm'
      rw [remove_message_messages, BTreeMap.get_erase] at hm'
      rw [remove_message_last_id]
      split at hm'
      · cases hm'
      · exact h.known id m' hm'

theorem remove_messages (h : Loose store) (ids : List Id) :
    Loose (ids.foldl Store.remove_message store) := by
  induction ids generalizing store with
  | nil => exact h
  | cons id ids ih => exact ih (h.remove_message id)

end Loose

section RemoveMany

variable (ids : List Id)

/-- What is left of the messages. -/
theorem remove_messages_get (store : Store) (id : Id) :
    (ids.foldl Store.remove_message store).messages[id]? =
      if id ∈ ids then none else store.messages[id]? := by
  induction ids generalizing store with
  | nil => simp
  | cons i ids ih =>
    rw [List.foldl_cons, ih, remove_message_messages, BTreeMap.get_erase]
    by_cases hIds : id ∈ ids
    · simp [hIds]
    · by_cases hi : i = id
      · simp [hi]
      · simp [hIds, hi, Ne.symm hi]

theorem remove_messages_last_id (store : Store) :
    (ids.foldl Store.remove_message store).last_id = store.last_id := by
  induction ids generalizing store with
  | nil => rfl
  | cons i ids ih => rw [List.foldl_cons, ih, remove_message_last_id]

theorem remove_messages_mem (store : Store) (name : String) :
    name ∈ (ids.foldl Store.remove_message store).agents ↔ name ∈ store.agents := by
  induction ids generalizing store with
  | nil => rfl
  | cons i ids ih => rw [List.foldl_cons, ih, remove_message_mem]

end RemoveMany

namespace Sound

variable {store : Store}

theorem drop (h : Sound store) (ids : List Id) : Sound (store.apply (.Drop ids)) := by
  show Sound (ids.foldl Store.remove_message store)
  refine (h.loose.remove_messages ids).sound fun id m hm => ?_
  rw [remove_messages_get] at hm
  split at hm
  · cases hm
  · exact (remove_messages_mem ids store m.to_).mpr (h.housed.agent id m hm)

/-- A new agent has nothing: no message is to it yet. -/
theorem agent (h : Sound store) (name : String) (at_ : Nat) :
    Sound (store.apply (.Agent name at_)) := by
  show Sound (if name ∈ store.agents then store
    else { store with agents := store.agents.insert name (.new name at_) })
  split
  · exact h
  · next hNew =>
    -- no message is to it, as a message's recipient is an agent
    have hNone : ∀ C : Message → Prop, (∀ m, C m → m.to_ = name) →
        Tracks store.messages C (· ∈ (∅ : BTreeSet Id)) := by
      intro C hC id
      refine ⟨fun hMem => absurd hMem (BTreeSet.notMem_empty id), ?_⟩
      rintro ⟨m, hm, hCm⟩
      exact absurd (hC m hCm ▸ h.housed.agent id m hm) hNew
    have hGet : ∀ (i : String) a, (store.agents.insert name (.new name at_))[i]? = some a →
        (i = name ∧ a = .new name at_) ∨ store.agents[i]? = some a := by
      intro i a ha
      rw [BTreeMap.get_insert] at ha
      split at ha
      · next hi =>
        cases ha
        exact .inl ⟨hi.symm, rfl⟩
      · exact .inr ha
    have hZero : ∀ (C : Message → Prop) [DecidablePred C], (∀ m, C m → m.to_ = name) →
        tally store.messages C = 0 := by
      intro C _ hC
      exact tally_none fun id m hm hCm => hNew (hC m hCm ▸ h.housed.agent id m hm)
    refine ⟨{ h.indexed with queued := ?_, settled := ?_, counts := ?_, senders := ?_ }, ⟨?_, ?_⟩, h.known⟩
    · intro i a ha
      rcases hGet i a ha with ⟨rfl, rfl⟩ | ha
      · exact hNone _ fun m hm => hm.1
      · exact h.indexed.queued i a ha
    · intro i a ha
      rcases hGet i a ha with ⟨rfl, rfl⟩ | ha
      · exact hNone _ fun m hm => hm.1
      · exact h.indexed.settled i a ha
    · intro i a ha
      rcases hGet i a ha with ⟨rfl, rfl⟩ | ha
      · show ({} : Counts) = Counts.tallied store.messages i
        unfold Counts.tallied
        rw [hZero _ fun m hm => hm.1, hZero _ fun m hm => hm.1, hZero _ fun m hm => hm.1,
          hZero _ fun m hm => hm.1]
      · exact h.indexed.counts i a ha
    · intro i a ha from_
      rcases hGet i a ha with ⟨rfl, rfl⟩ | ha
      · show (∅ : BTreeMap String Nat)[from_]? = positive (sent_pending store.messages i from_)
        unfold sent_pending
        rw [hZero _ fun m hm => hm.1]
        rfl
      · exact h.indexed.senders i a ha from_
    · intro i a ha
      rcases hGet i a ha with ⟨rfl, rfl⟩ | ha
      · exact hNone _ fun m hm => hm
      · exact h.housed.inbox i a ha
    · intro id m hm
      show m.to_ ∈ store.agents.insert name (.new name at_)
      exact Std.ExtTreeMap.mem_insert.mpr (.inr (h.housed.agent id m hm))

/-- A forgotten agent takes its messages along. -/
theorem forget (h : Sound store) (name : String) : Sound (store.apply (.Forget name)) := by
  show Sound (store.forget name)
  unfold Store.forget
  cases ha : store.agents[name]? with
  | none => exact ⟨h.indexed, h.housed, h.known⟩
  | some a =>
    have hGet : ∀ (i : String) b, (store.agents.erase name)[i]? = some b →
        store.agents[i]? = some b := by
      intro i b hb
      rw [BTreeMap.get_erase] at hb
      split at hb
      · cases hb
      · exact hb
    have hLoose : Loose { store with agents := store.agents.erase name } :=
      ⟨{ h.indexed with
          queued := fun i b hb => h.indexed.queued i b (hGet i b hb)
          settled := fun i b hb => h.indexed.settled i b (hGet i b hb)
          counts := fun i b hb => h.indexed.counts i b (hGet i b hb)
          senders := fun i b hb => h.indexed.senders i b (hGet i b hb) },
        fun i b hb => h.housed.inbox i b (hGet i b hb), h.known⟩
    have hSound : Sound (a.inbox.toList.foldl Store.remove_message
        { store with agents := store.agents.erase name }) := by
      refine (hLoose.remove_messages _).sound fun id m hm => ?_
      rw [remove_messages_get] at hm
      split at hm
      · cases hm
      · next hOut =>
        have hm : store.messages[id]? = some m := hm
        -- what is left was not in the inbox, so it is to somebody else
        have hTo : m.to_ ≠ name := by
          intro hTo
          exact hOut (Std.ExtTreeSet.mem_toList.mpr ((h.housed.inbox name a ha id).mpr ⟨m, hm, hTo⟩))
        rw [remove_messages_mem]
        exact Std.ExtTreeMap.mem_erase.mpr ⟨by simp [Ne.symm hTo], h.housed.agent id m hm⟩
    exact ⟨hSound.indexed, hSound.housed, hSound.known⟩

/-- The agent a message is for, there or new. -/
theorem apply_agent_get (name : String) (at_ : Nat) :
    (store.apply (.Agent name at_)).agents[name]? =
      some ((store.agents[name]?).getD (.new name at_)) := by
  show (if name ∈ store.agents then store
    else { store with agents := store.agents.insert name (.new name at_) }).agents[name]? = _
  split
  · next hMem =>
    obtain ⟨a, ha⟩ := (BTreeMap.mem_iff_get _ _).mp hMem
    simp [ha]
  · next hMem =>
    have hNone : store.agents[name]? = none := by
      rw [Option.eq_none_iff_forall_ne_some]
      exact fun a ha => hMem ((BTreeMap.mem_iff_get _ _).mpr ⟨a, ha⟩)
    simp [hNone]

theorem apply_agent_insert (name : String) (at_ : Nat) (a : Agent) :
    (store.apply (.Agent name at_)).agents.insert name a = store.agents.insert name a := by
  show (if name ∈ store.agents then store
    else { store with agents := store.agents.insert name (.new name at_) }).agents.insert name a = _
  split
  · rfl
  · exact BTreeMap.insert_insert _ _ _ _

/-- An id greater than the last is not taken. -/
theorem fresh (h : Sound store) {id : Id} (hNew : store.last_id < id) : store.messages[id]? = none := by
  rw [Option.eq_none_iff_forall_ne_some]
  exact fun m hm => absurd (h.known id m hm) (not_le.mpr hNew)

/-- A new message, under an id that is not taken. -/
theorem message (h : Sound store) (m : Message) (hFresh : store.messages[m.id]? = none) :
    Sound (store.apply (.Message m)) := by
  set a := (store.agents[m.to_]?).getD (.new m.to_ m.created) with ha
  have hAgent := h.agent m.to_ m.created
  have hGet := @apply_agent_get store m.to_ m.created
  set with_agent := store.apply (.Agent m.to_ m.created) with hWith
  have hSame : with_agent.messages = store.messages ∧ with_agent.due = store.due := by
    rw [hWith]
    unfold Store.apply
    dsimp only
    split <;> exact ⟨rfl, rfl⟩
  -- the message is in its inbox before it is tracked
  set agents := store.agents.insert m.to_ { a with inbox := a.inbox.insert m.id } with hAgents
  have hOthers : ∀ (name : String) b, agents[name]? = some b →
      (m.to_ = name ∧ b = { a with inbox := a.inbox.insert m.id }) ∨
        (m.to_ ≠ name ∧ with_agent.agents[name]? = some b) := by
    intro name b hb
    rw [hAgents, ← apply_agent_insert m.to_ m.created, ← hWith, BTreeMap.get_insert] at hb
    split at hb
    · next hTo => exact .inl ⟨hTo, (Option.some.inj hb).symm⟩
    · next hTo => exact .inr ⟨hTo, hb⟩
  -- the inbox is no index of what is due, so those are as they were
  have hIndexed : Indexed store.messages agents store.due := by
    rw [← hSame.1, ← hSame.2]
    refine hAgent.indexed.agents_congr fun name b hb => ?_
    rcases hOthers name b hb with ⟨rfl, rfl⟩ | ⟨-, hb⟩
    · exact ⟨a, hGet, rfl, rfl, rfl, rfl⟩
    · exact ⟨b, hb, rfl, rfl, rfl, rfl⟩
  have hHoused : Housed (store.messages.insert m.id m) agents := by
    refine ⟨fun name b hb => ?_, fun id m' hm' => ?_⟩
    · rcases hOthers name b hb with ⟨rfl, rfl⟩ | ⟨hTo, hb⟩
      · have hInbox := hAgent.housed.inbox m.to_ a hGet
        rw [hSame.1] at hInbox
        refine hInbox.insert hFresh fun id => ?_
        show id ∈ a.inbox.insert m.id ↔ _
        rw [BTreeSet.mem_insert]
        by_cases hId : m.id = id
        · simp [Flips, hId]
        · simp [Flips, hId]
      · have hInbox := hAgent.housed.inbox name b hb
        rw [hSame.1] at hInbox
        exact hInbox.insert hFresh fun id => by simp [Flips, hTo]
    · rw [BTreeMap.get_insert] at hm'
      rw [hAgents]
      split at hm'
      · cases hm'
        exact Std.ExtTreeMap.mem_insert_self
      · exact Std.ExtTreeMap.mem_insert.mpr (.inr (h.housed.agent id m' hm'))
  have hTracked : Sound { store with
      last_id := max store.last_id m.id
      agents := (track agents store.due m true).1
      due := (track agents store.due m true).2
      messages := store.messages.insert m.id m } := by
    refine ⟨hIndexed.track hFresh, hHoused.track m true, fun id m' hm' => ?_⟩
    have hm' : (store.messages.insert m.id m)[id]? = some m' := hm'
    rw [BTreeMap.get_insert] at hm'
    split at hm'
    · next hId => exact hId ▸ le_max_right _ _
    · exact (h.known id m' hm').trans (le_max_left _ _)
  unfold Store.apply
  dsimp only
  rw [hFresh]
  exact ⟨hTracked.indexed, hTracked.housed, hTracked.known⟩

/-- What changes neither messages nor agents. -/
theorem of_same {store' : Store} (h : Sound store) (hMessages : store'.messages = store.messages)
    (hAgents : store'.agents = store.agents) (hDue : store'.due = store.due)
    (hLast : store.last_id ≤ store'.last_id) : Sound store' := by
  refine ⟨?_, ?_, ?_⟩
  · rw [hMessages, hAgents, hDue]
    exact h.indexed
  · rw [hMessages, hAgents]
    exact h.housed
  · intro id m hm
    rw [hMessages] at hm
    exact (h.known id m hm).trans hLast

end Sound

/-! ## Other effects -/

/-- Whether an effect changes messages or agents. -/
def Effect.of_inboxes : Effect → Bool
  | .Agent .. | .Message .. | .Lease .. | .Settle .. | .Drop .. | .Cursor .. | .Rename .. |
    .Forget .. => true
  | _ => false

/-- The part of a store other effects leave as it is. -/
structure SameInboxes (store store' : Store) : Prop where
  messages : store'.messages = store.messages
  agents : store'.agents = store.agents
  due : store'.due = store.due
  last_id : store.last_id ≤ store'.last_id

theorem SameInboxes.refl (store : Store) : SameInboxes store store := ⟨rfl, rfl, rfl, le_rfl⟩

theorem SameInboxes.trans {a b c : Store} (h : SameInboxes a b) (h' : SameInboxes b c) :
    SameInboxes a c :=
  ⟨h'.messages.trans h.messages, h'.agents.trans h.agents, h'.due.trans h.due,
    h.last_id.trans h'.last_id⟩

theorem same_foldl {α : Type} {f : Store → α → Store} (h : ∀ store a, SameInboxes store (f store a))
    (items : List α) (store : Store) : SameInboxes store (items.foldl f store) := by
  induction items generalizing store with
  | nil => exact .refl store
  | cons a items ih => exact (h store a).trans (ih (f store a))

theorem same_with_room (store : Store) (name : String) (change : Room → Room) :
    SameInboxes store (store.with_room name change) := by
  unfold Store.with_room
  cases store.rooms[name]? with
  | none => exact .refl store
  | some room => exact ⟨rfl, rfl, rfl, le_rfl⟩

theorem apply_same (store : Store) {effect : Effect} (h : effect.of_inboxes = false) :
    SameInboxes store (store.apply effect) := by
  cases effect with
  | Agent | Message | Lease | Settle | Drop | Cursor | Rename | Forget => cases h
  | Broadcast broadcast => exact ⟨rfl, rfl, rfl, le_max_left _ _⟩
  | DropBroadcasts ids =>
    refine same_foldl (fun store id => ?_) ids store
    unfold Store.remove_broadcast
    cases store.broadcasts[id]? with
    | none => exact .refl store
    | some broadcast => exact ⟨rfl, rfl, rfl, le_rfl⟩
  | Room room =>
    refine ⟨rfl, rfl, rfl, ?_⟩
    unfold Store.apply
    dsimp only
    split
    · exact le_max_left _ _
    · exact le_rfl
  | Post room post =>
    unfold Store.apply
    dsimp only
    split
    · exact .refl store
    · exact ⟨rfl, rfl, rfl, le_max_left _ _⟩
  | DropPosts room ids =>
    refine same_foldl (fun store id => ?_) ids store
    unfold Store.remove_post
    cases store.rooms[room]? with
    | none => exact .refl store
    | some record => exact ⟨rfl, rfl, rfl, le_rfl⟩
  | DropRoom room => exact ⟨rfl, rfl, rfl, le_rfl⟩
  | Member room agent member => exact same_with_room store room _
  | RoomCursor room agent id => exact same_with_room store room _
  | Question room id status at_ => exact same_with_room store room _
  | Topic room topic => exact same_with_room store room _
  | Close room at_ => exact same_with_room store room _
  | Board room key entry => exact same_with_room store room _

theorem SameInboxes.sound {store store' : Store} (hSame : SameInboxes store store')
    (h : Sound store) : Sound store' :=
  h.of_same hSame.messages hSame.agents hSame.due hSame.last_id

/-! ## The last id -/

theorem apply_message (store : Store) (m : Message) :
    (store.apply (.Message m)).last_id = max store.last_id m.id ∧
      (store.apply (.Message m)).messages = store.messages.insert m.id m := by
  unfold Store.apply
  dsimp only
  cases store.messages[m.id]? with
  | none => exact ⟨rfl, rfl⟩
  | some old => exact ⟨rfl, rfl⟩

theorem with_message_last_id (store : Store) (id : Id) (change : Message → Message) :
    (store.with_message id change).last_id = store.last_id := by
  unfold Store.with_message
  cases store.messages[id]? <;> rfl

theorem with_room_last_id (store : Store) (name : String) (change : Room → Room) :
    (store.with_room name change).last_id = store.last_id := by
  unfold Store.with_room
  cases store.rooms[name]? <;> rfl

theorem drop_broadcasts_last_id (store : Store) (ids : List Id) :
    (store.apply (.DropBroadcasts ids)).last_id = store.last_id := by
  show (ids.foldl Store.remove_broadcast store).last_id = store.last_id
  induction ids generalizing store with
  | nil => rfl
  | cons id ids ih =>
    rw [List.foldl_cons, ih]
    unfold Store.remove_broadcast
    cases store.broadcasts[id]? <;> rfl

theorem drop_posts_last_id (store : Store) (name : String) (ids : List Id) :
    (store.apply (.DropPosts name ids)).last_id = store.last_id := by
  show (ids.foldl (fun store id => store.remove_post name id) store).last_id = _
  induction ids generalizing store with
  | nil => rfl
  | cons id ids ih =>
    rw [List.foldl_cons, ih]
    unfold Store.remove_post
    cases store.rooms[name]? <;> rfl

end Postino.Forum
