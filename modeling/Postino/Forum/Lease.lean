import Postino.Lib.Leases
import Postino.Forum.Indexes
import Postino.Forum.Rooms

/-!
# Leases

The inboxes as leased items: what the operations commit, message by message, is
what `Leases.Step` allows. A message waits while it is queued, is out while it is
leased, and is closed once acknowledged, dead or expired.

* `send_at`, `reclaim_at`, `expire_at`, `lease_where_at`, `ack_at`, `sweep_at` —
  each operation is a run of such steps.
* `lease_protocol` — what holds of any run of requests.
-/

namespace Postino.Forum

open Lib Fallible

/-! ## Messages as leased items -/

def State.phase : State → Phase State
  | .Queued => .waiting
  | .Leased => .out
  | state => .closed state

def Message.item (m : Message) : Item String Lease State where
  body := m.to_
  phase := m.state.phase
  count := m.deliveries
  last := m.lease

def Store.leases (store : Store) (granted : List (Id × Lease)) : Leases Id String Lease State where
  items id := (store.messages[id]?).map Message.item
  last := store.last_id
  granted

def Limits.terms (limits : Limits) : Terms Lease where
  at_ := Lease.at_
  until_ := Lease.until_
  most := limits.max_deliveries

/-- A core whose journal takes every line, some steps after it was `start`. -/
structure At (limits : Limits) (random : Nat → String) (room : Nat) (now : Nat)
    (start : Leases Id String Lease State) (granted : List (Id × Lease)) (core : Core) : Prop where
  no_faults : core.journal = []
  running : core.halted = false
  same_limits : core.limits = limits
  same_random : core.random = random
  /-- Every token drawn is that of a delivery. -/
  tokens : granted.map (fun p => p.2.token) = (List.range core.drawn).map random
  /-- Ids are far from running out. -/
  room_left : core.store.last_id.seq ≤ room
  sound : Sound core.store
  steps : Leases.Steps limits.terms now start (core.store.leases granted)

section Effects

variable {limits : Limits} {random : Nat → String} {room : Nat} {now : Nat}
  {start : Leases Id String Lease State} {granted : List (Id × Lease)} {core : Core}

theorem commit_eq (hHalted : core.halted = false) (hJournal : core.journal = []) (effect : Effect) :
    commit effect core = (.ok (), (core.applied effect)) := by
  unfold commit
  rw [hHalted, hJournal]
  rfl

theorem sat_commit (hHalted : core.halted = false) (hJournal : core.journal = []) (effect : Effect)
    {Done : Unit → Core → Prop} {Failed : Core → Prop}
    (hDone : Done () (core.applied effect)) :
    Sat (commit effect) core Done Failed := by
  unfold Sat
  rw [commit_eq hHalted hJournal]
  exact hDone

/-- What is committed to a healthy core is applied. -/
theorem At.sat_commit (h : At limits random room now start granted core) (effect : Effect)
    {Done : Unit → Core → Prop} {Failed : Core → Prop}
    (hDone : Done () (core.applied effect)) :
    Sat (commit effect) core Done Failed :=
  Forum.sat_commit h.running h.no_faults effect hDone

theorem At.apply (h : At limits random room now start granted core) {effect : Effect}
    (hSound : Sound (core.store.apply effect))
    (hRoom : (core.store.apply effect).last_id = core.store.last_id)
    (hSteps : Leases.Steps limits.terms now (core.store.leases granted)
      ((core.store.apply effect).leases granted)) :
    At limits random room now start granted (core.applied effect) :=
  { h with
    room_left := hRoom ▸ h.room_left
    sound := hSound
    steps := h.steps.trans hSteps }

/-- Publishing changes nothing that matters here. -/
theorem At.told (h : At limits random room now start granted core) (events : Events)
    (wake : List Topic) (journaled : List Effect) :
    At limits random room now start granted { core with events, wake, journaled } :=
  ⟨h.no_faults, h.running, h.same_limits, h.same_random, h.tokens, h.room_left, h.sound, h.steps⟩

/-- Messages gone, and nothing else. -/
theorem steps_of_gone {store store' : Store} (hLast : store'.last_id = store.last_id)
    (hGone : ∀ id : Id, store'.messages[id]? = none ∨ store'.messages[id]? = store.messages[id]?) :
    Leases.Steps limits.terms now (store.leases granted) (store'.leases granted) := by
  have hItems : ∀ id, (store'.leases granted).items id = none ∨
      (store'.leases granted).items id = (store.leases granted).items id := by
    intro id
    show (store'.messages[id]?).map Message.item = none ∨
      (store'.messages[id]?).map Message.item = (store.messages[id]?).map Message.item
    rcases hGone id with h | h
    · exact .inl (by rw [h]; rfl)
    · exact .inr (by rw [h])
  have hStep : Leases.Step limits.terms now (store.leases granted) _ :=
    .drop (store'.leases granted).items hItems
  rw [show store'.leases granted = { store.leases granted with
    items := (store'.leases granted).items } by simp [Store.leases, hLast]]
  exact .single hStep

theorem drop_messages (store : Store) (ids : List Id) (id : Id) :
    (store.apply (.Drop ids)).messages[id]? = if id ∈ ids then none else store.messages[id]? :=
  remove_messages_get ids store id

theorem At.drop (h : At limits random room now start granted core) (ids : List Id) :
    At limits random room now start granted
      (core.applied (.Drop ids)) := by
  have hLast := remove_messages_last_id ids core.store
  refine h.apply (h.sound.drop ids) hLast (steps_of_gone hLast fun id => ?_)
  rw [drop_messages]
  split
  · exact .inl rfl
  · exact .inr rfl

theorem apply_agent_messages (store : Store) (name : String) (at_ : Nat) :
    (store.apply (.Agent name at_)).messages = store.messages ∧
      (store.apply (.Agent name at_)).last_id = store.last_id := by
  unfold Store.apply
  dsimp only
  split
  · exact ⟨rfl, rfl⟩
  · exact ⟨rfl, rfl⟩

theorem At.agent (h : At limits random room now start granted core) (name : String) (at_ : Nat) :
    At limits random room now start granted
      (core.applied (.Agent name at_)) := by
  obtain ⟨hMessages, hLast⟩ := apply_agent_messages core.store name at_
  exact h.apply (h.sound.agent name at_) hLast
    (steps_of_gone hLast fun id => .inr (by rw [hMessages]))

theorem forget_messages (store : Store) (name : String) :
    (store.apply (.Forget name)).last_id = store.last_id ∧
      ∀ id : Id, (store.apply (.Forget name)).messages[id]? = none ∨
        (store.apply (.Forget name)).messages[id]? = store.messages[id]? := by
  show (store.forget name).last_id = _ ∧ ∀ id : Id, (store.forget name).messages[id]? = none ∨
    (store.forget name).messages[id]? = store.messages[id]?
  unfold Store.forget
  cases ha : store.agents[name]? with
  | none => exact ⟨rfl, fun id => .inr rfl⟩
  | some a =>
    refine ⟨remove_messages_last_id _ _, fun id => ?_⟩
    dsimp only
    rw [remove_messages_get]
    split
    · exact .inl rfl
    · exact .inr rfl

theorem At.forget (h : At limits random room now start granted core) (name : String) :
    At limits random room now start granted
      (core.applied (.Forget name)) := by
  obtain ⟨hLast, hGone⟩ := forget_messages core.store name
  exact h.apply (h.sound.forget name) hLast (steps_of_gone hLast hGone)

/-- What has nothing to do with the inboxes. -/
theorem At.same (h : At limits random room now start granted core) {store : Store}
    (hSame : SameInboxes core.store store) (hLast : store.last_id = core.store.last_id) :
    At limits random room now start granted { core with store } :=
  { h with
    room_left := by
      show store.last_id.seq ≤ room
      exact hLast ▸ h.room_left
    sound := hSame.sound h.sound
    steps := h.steps.trans (steps_of_gone hLast fun id => .inr (by rw [hSame.messages])) }

theorem with_message_get (store : Store) (id : Id) (change : Message → Message) (i : Id) :
    (store.with_message id change).messages[i]? =
      if id = i then (store.messages[i]?).map change else store.messages[i]? := by
  cases hm : store.messages[id]? with
  | none =>
    rw [show store.with_message id change = store by unfold Store.with_message; rw [hm]]
    split
    · next hi =>
      subst hi
      simp [hm]
    · rfl
  | some m =>
    rw [Sound.with_message_eq hm]
    show (store.messages.insert id (change m))[i]? = _
    rw [BTreeMap.get_insert]
    split
    · next hi =>
      subst hi
      simp [hm]
    · rfl

/-- The items after one message changed. -/
theorem with_message_leases {store : Store} {id : Id} {m : Message}
    (hm : store.messages[id]? = some m) (change : Message → Message)
    (granted : List (Id × Lease)) :
    (store.with_message id change).leases granted = { store.leases granted with
      items := Leases.put (store.leases granted).items id (change m).item } := by
  have hItems : ((store.with_message id change).leases granted).items =
      Leases.put (store.leases granted).items id (change m).item := by
    funext i
    show ((store.with_message id change).messages[i]?).map Message.item = _
    rw [with_message_get]
    by_cases hi : id = i
    · subst hi
      rw [if_pos rfl, hm, Leases.put_self]
      rfl
    · rw [if_neg hi, Leases.put_of_ne _ _ (Ne.symm hi)]
      rfl
  rw [← hItems]
  simp only [Store.leases, with_message_last_id]

theorem leases_item {store : Store} {id : Id} {m : Message} (hm : store.messages[id]? = some m)
    (granted : List (Id × Lease)) : (store.leases granted).items id = some m.item := by
  show (store.messages[id]?).map Message.item = _
  rw [hm]
  rfl

theorem settle_sound (h : At limits random room now start granted core) (id : Id) (state : State)
    (at_ : Nat) : Sound (core.store.apply (.Settle id state at_)) :=
  h.sound.with_message id _ fun _ => ⟨rfl, rfl⟩

/-- **A settled message is closed.** -/
theorem At.settle (h : At limits random room now start granted core) {id : Id} {m : Message}
    (hm : core.store.messages[id]? = some m) (hPending : m.state.is_pending = true)
    {state : State} (hState : state.phase = .closed state) (at_ : Nat) :
    At limits random room now start granted
      (core.applied (.Settle id state at_)) := by
  refine h.apply (settle_sound h id state at_) (with_message_last_id _ _ _) (.single ?_)
  have hPhase : m.item.phase = .waiting ∨ m.item.phase = .out := by
    show m.state.phase = .waiting ∨ m.state.phase = .out
    cases hS : m.state with
    | Queued => exact .inl rfl
    | Leased => exact .inr rfl
    | _ =>
      rw [hS] at hPending
      cases hPending
  have hStep : Leases.Step limits.terms now _ _ := .close state (leases_item hm granted) hPhase
  rw [← hState] at hStep
  show Leases.Step _ _ _ ((core.store.with_message id _).leases granted)
  rw [with_message_leases hm]
  exact hStep

/-- **A lease that ran out puts the message back.** -/
theorem At.requeue (h : At limits random room now start granted core) {id : Id} {m : Message}
    {lease : Lease} (hm : core.store.messages[id]? = some m) (hState : m.state = .Leased)
    (hLease : m.lease = some lease) (hOver : lease.until_ ≤ now)
    (hCount : m.deliveries < limits.max_deliveries) (at_ : Nat) :
    At limits random room now start granted
      (core.applied (.Settle id .Queued at_)) := by
  refine h.apply (settle_sound h id .Queued at_) (with_message_last_id _ _ _) (.single ?_)
  have hPhase : m.item.phase = .out := by
    show m.state.phase = .out
    rw [hState]
    rfl
  have hStep : Leases.Step limits.terms now _ _ :=
    .requeue (leases_item hm granted) hPhase hLease hOver hCount
  show Leases.Step _ _ _ ((core.store.with_message id _).leases granted)
  rw [with_message_leases hm]
  exact hStep

/-- **A queued message is handed out.** -/
theorem At.lease (h : At limits random room now start granted core) {id : Id} {m : Message}
    (hm : core.store.messages[id]? = some m) (hState : m.state = .Queued) (lease : Lease)
    (hNow : lease.at_ = now) (hToken : lease.token = random core.drawn) :
    At limits random room now start (granted ++ [(id, lease)])
      ({ core with drawn := core.drawn + 1 }.applied
        (.Lease id lease.consumer lease.token lease.at_ lease.until_)) := by
  have hSound : Sound (core.store.apply (.Lease id lease.consumer lease.token lease.at_ lease.until_)) :=
    h.sound.with_message id _ fun _ => ⟨rfl, rfl⟩
  have hLast : (core.store.apply (.Lease id lease.consumer lease.token lease.at_ lease.until_)).last_id =
      core.store.last_id := with_message_last_id _ _ _
  refine ⟨h.no_faults, h.running, h.same_limits, h.same_random, ?_, ?_, hSound, h.steps.tail ?_⟩
  · show (granted ++ [(id, lease)]).map (fun p => p.2.token) =
      (List.range (core.drawn + 1)).map random
    rw [List.range_succ, List.map_append, List.map_append, h.tokens, List.map_singleton,
      List.map_singleton, hToken]
  · exact hLast ▸ h.room_left
  · have hPhase : m.item.phase = .waiting := by
      show m.state.phase = .waiting
      rw [hState]
      rfl
    have hStep : Leases.Step limits.terms now _ _ :=
      .grant lease (leases_item hm granted) hPhase hNow
    have hLeases := with_message_leases hm (fun m =>
      { m with
        state := .Leased
        deliveries := m.deliveries + 1
        settled := none
        lease := some lease }) (granted ++ [(id, lease)])
    show Leases.Step _ _ _ ((core.store.with_message id _).leases _)
    rw [hLeases]
    exact hStep

end Effects

/-! ## Trims and sweeps -/

section Operations

variable {limits : Limits} {random : Nat → String} {room : Nat}
  {start : Leases Id String Lease State} {granted : List (Id × Lease)} {core : Core}
  {now : Fin (2 ^ 64)}

/-- Every message is gone or as it was, but for `id`. -/
def GoneBut (store store' : Store) (id : Option Id) : Prop :=
  ∀ i, id ≠ some i → store'.messages[i]? = none ∨ store'.messages[i]? = store.messages[i]?

theorem GoneBut.refl (store : Store) (id : Option Id) : GoneBut store store id := fun _ _ => .inr rfl

theorem GoneBut.trans {a b c : Store} {id : Option Id} (h : GoneBut a b id) (h' : GoneBut b c none) :
    GoneBut a c id := by
  intro i hi
  rcases h' i (by simp) with hNone | hSame
  · exact .inl hNone
  · rw [hSame]
    exact h i hi

theorem trim_history_at {now : Nat} (h : At limits random room now start granted core)
    (agent : String) :
    Sat (trim_history agent) core
      (fun _ core' => At limits random room now start granted core' ∧
        GoneBut core.store core'.store none) (fun _ => False) := by
  unfold trim_history
  refine sat_read ?_
  dsimp only
  split
  · refine h.sat_commit _ ⟨h.drop _, fun i _ => ?_⟩
    rw [Core.applied_store, drop_messages]
    split
    · exact .inl rfl
    · exact .inr rfl
  · exact sat_pure ⟨h, .refl _ _⟩

/-- Settling a message changes no other. -/
theorem settle_goneBut (store : Store) (id : Id) (state : State) (at_ : Nat) :
    GoneBut store (store.apply (.Settle id state at_)) (some id) := by
  intro i hi
  refine .inr ?_
  show (store.with_message id _).messages[i]? = _
  rw [with_message_get, if_neg fun h => hi (congrArg some h)]

/-- Messages a sweep is about to settle: each is as it was when they were
collected, or gone. -/
structure Batch (C : Message → Prop) (batch : List Message) (store : Store) : Prop where
  nodup : (batch.map Message.id).Nodup
  each : ∀ m ∈ batch, C m ∧ ∀ m', store.messages[m.id]? = some m' → m' = m

theorem Batch.tail {C : Message → Prop} {m : Message} {rest : List Message} {store store' : Store}
    (h : Batch C (m :: rest) store) (hGone : GoneBut store store' (some m.id)) :
    Batch C rest store' := by
  obtain ⟨hHead, hTail⟩ := List.nodup_cons.mp h.nodup
  refine ⟨hTail, fun m' hm' => ⟨(h.each m' (List.mem_cons_of_mem _ hm')).1, fun m'' hm'' => ?_⟩⟩
  have hNe : some m.id ≠ some m'.id := by
    intro hEq
    exact hHead (Option.some.inj hEq ▸ List.mem_map_of_mem hm')
  rcases hGone m'.id hNe with hNone | hSame
  · rw [hNone] at hm''
    cases hm''
  · exact (h.each m' (List.mem_cons_of_mem _ hm')).2 m'' (hSame ▸ hm'')

/-- Settling what is no longer there changes nothing. -/
theorem settle_none {store : Store} {id : Id} (h : store.messages[id]? = none) (state : State)
    (at_ : Nat) : store.apply (.Settle id state at_) = store := by
  show store.with_message id _ = store
  unfold Store.with_message
  rw [h]

def LeaseOver (now : Nat) (m : Message) : Prop :=
  m.state = .Leased ∧ ∃ lease, m.lease = some lease ∧ lease.until_ ≤ now

theorem requeue_at {m : Message} {rest : List Message}
    (h : At limits random room now start granted core)
    (hBatch : Batch (LeaseOver now) (m :: rest) core.store) :
    Sat (requeue now m) core
      (fun _ core' => At limits random room now start granted core' ∧
        Batch (LeaseOver now) rest core'.store) (fun _ => False) := by
  obtain ⟨⟨hState, lease, hLease, hOver⟩, hStored⟩ := hBatch.each m List.mem_cons_self
  obtain rfl := h.same_limits
  unfold requeue
  refine sat_read (sat_bind (h.sat_commit _ ?_))
  have hGone (state : State) := settle_goneBut core.store m.id state now
  by_cases hDead : core.limits.max_deliveries ≤ m.deliveries
  · simp only [hDead, decide_true, if_true]
    -- the delivery limit is reached
    have hAt : At core.limits random room now start granted
        (core.applied (.Settle m.id .Dead now)) := by
      cases hm : core.store.messages[m.id]? with
      | none =>
        unfold Core.applied
        rw [settle_none hm]
        exact h.told _ _ _
      | some m' =>
        obtain rfl := hStored m' hm
        exact h.settle hm (by rw [hState]; rfl) rfl now
    refine sat_bind (sat_emit fun events => ?_)
    refine (trim_history_at (hAt.told events _ _) m.to_).mono (fun _ core' hTrim => ⟨hTrim.1, ?_⟩)
      fun _ => id
    exact hBatch.tail ((hGone .Dead).trans hTrim.2)
  · simp only [hDead, decide_false, Bool.false_eq_true, if_false]
    have hAt : At core.limits random room now start granted
        (core.applied (.Settle m.id .Queued now)) := by
      cases hm : core.store.messages[m.id]? with
      | none =>
        unfold Core.applied
        rw [settle_none hm]
        exact h.told _ _ _
      | some m' =>
        obtain rfl := hStored m' hm
        exact h.requeue hm hState hLease hOver (not_le.mp hDead) now
    refine sat_bind (sat_emit fun events => sat_wake fun wake => ?_)
    exact ⟨hAt.told events wake _, hBatch.tail (hGone .Queued)⟩

/-- What fell due, collected. -/
theorem batch_of_due {C : Message → Prop} {D : Nat → Message → Prop} {due : BTreeSet (Nat ×ₗ Id)}
    {store : Store} (hSound : Sound store) (now n : Nat)
    (hDue : ∀ t, Tracks store.messages (D t) (fun id => toLex (t, id) ∈ due))
    (hUnique : ∀ m t t', D t m → D t' m → t = t') (hC : ∀ m t, D t m → t ≤ now → C m) :
    Batch C (((Store.due_by due now).take n).filterMap fun id => store.messages[id]?) store := by
  have hMem : ∀ id ∈ Store.due_by due now, ∃ m t, store.messages[id]? = some m ∧ D t m ∧ t ≤ now := by
    intro id hId
    obtain ⟨⟨t, i⟩, hIn, rfl⟩ := List.mem_map.mp hId
    have hLe := List.mem_takeWhile_imp hIn
    have hSet := Std.ExtTreeSet.mem_toList.mp (List.takeWhile_subset _ hIn)
    obtain ⟨m, hm, hD⟩ := (hDue t i).mp hSet
    exact ⟨m, t, hm, hD, of_decide_eq_true hLe⟩
  have hNodup : (Store.due_by due now).Nodup := by
    unfold Store.due_by
    refine List.Nodup.map_on ?_ ((BTreeSet.nodup_toList due).sublist (List.takeWhile_sublist _))
    rintro ⟨t, i⟩ hx ⟨t', i'⟩ hy hEq
    have hx := Std.ExtTreeSet.mem_toList.mp (List.takeWhile_subset _ hx)
    have hy := Std.ExtTreeSet.mem_toList.mp (List.takeWhile_subset _ hy)
    obtain rfl : i = i' := hEq
    obtain ⟨m, hm, hD⟩ := (hDue t i).mp hx
    obtain ⟨m', hm', hD'⟩ := (hDue t' i).mp hy
    rw [hm] at hm'
    cases hm'
    rw [hUnique m t t' hD hD']
  refine ⟨?_, ?_⟩
  · rw [List.map_filterMap]
    refine List.Nodup.filterMap ?_ (hNodup.sublist (List.take_sublist n _))
    intro i i' id hi hi'
    obtain ⟨m, hm, rfl⟩ := Option.map_eq_some_iff.mp hi
    obtain ⟨m', hm', hId⟩ := Option.map_eq_some_iff.mp hi'
    rw [← hSound.indexed.id_eq i m hm, ← hSound.indexed.id_eq i' m' hm', hId]
  · intro m hm
    obtain ⟨id, hId, hm⟩ := List.mem_filterMap.mp hm
    obtain ⟨m', t, hm', hD, hLe⟩ := hMem id (List.mem_of_mem_take hId)
    rw [hm] at hm'
    cases hm'
    obtain rfl := hSound.indexed.id_eq id m hm
    refine ⟨hC m t hD hLe, fun m' hm' => ?_⟩
    rw [hm] at hm'
    exact (Option.some.inj hm').symm

/-- **A batch of expired leases goes back to the queue.** -/
theorem reclaim_at (h : At limits random room now start granted core) :
    Sat (reclaim now) core (fun _ core' => At limits random room now start granted core')
      (fun _ => False) := by
  unfold reclaim
  refine sat_read (sat_bind ?_)
  have hBatch := batch_of_due h.sound (C := LeaseOver now) now SWEEP_BATCH h.sound.indexed.leases_due
    (fun m t t' hD hD' => by
      obtain ⟨-, lease, hLease, rfl⟩ := hD
      obtain ⟨-, lease', hLease', rfl⟩ := hD'
      rw [hLease] at hLease'
      cases hLease'
      rfl)
    (fun m t hD hLe => by
      obtain ⟨hState, lease, hLease, rfl⟩ := hD
      exact ⟨hState, lease, hLease, hLe⟩)
  refine (sat_forM_rest (fun rest core => At limits random room now start granted core ∧
    Batch (LeaseOver now) rest core.store) _ (fun m rest core h => requeue_at h.1 h.2)
    ⟨h, hBatch⟩).mono (fun _ core' hDone => ?_) fun _ => id
  exact sat_read (sat_pure hDone.1)

/-- The rounds of `expire`. -/
theorem expire_round_at {m : Message} {rest : List Message}
    (h : At limits random room now start granted core)
    (hBatch : Batch (fun m => m.state.is_pending = true) (m :: rest) core.store) :
    Sat (do
        commit (.Settle m.id .Expired now)
        emit "expired" [m.to_] [("inbox", .string m.to_), ("ids", .strings [m.id.display])] now
        trim_history m.to_) core
      (fun _ core' => At limits random room now start granted core' ∧
        Batch (fun m => m.state.is_pending = true) rest core'.store) (fun _ => False) := by
  obtain ⟨hPending, hStored⟩ := hBatch.each m List.mem_cons_self
  have hAt : At limits random room now start granted
      (core.applied (.Settle m.id .Expired now)) := by
    cases hm : core.store.messages[m.id]? with
    | none =>
      -- a message that is gone by now settles nothing
      unfold Core.applied
      rw [settle_none hm]
      exact h.told _ _ _
    | some m' =>
      obtain rfl := hStored m' hm
      exact h.settle hm hPending rfl now
  refine sat_bind (h.sat_commit _ (sat_bind (sat_emit fun events => ?_)))
  refine (trim_history_at (hAt.told events _ _) m.to_).mono (fun _ core' hTrim => ?_) fun _ => id
  exact ⟨hTrim.1, hBatch.tail ((settle_goneBut core.store m.id .Expired now).trans hTrim.2)⟩

/-- **A batch of messages expires.** -/
theorem expire_at (h : At limits random room now start granted core) :
    Sat (expire now) core (fun _ core' => At limits random room now start granted core')
      (fun _ => False) := by
  unfold expire
  refine sat_read (sat_bind ?_)
  have hBatch := batch_of_due h.sound (C := fun m => m.state.is_pending = true) now SWEEP_BATCH
    h.sound.indexed.expiry_due (fun m t t' hD hD' => hD.2.symm.trans hD'.2) fun m t hD _ => hD.1
  refine (sat_forM_rest (fun rest core => At limits random room now start granted core ∧
    Batch (fun m => m.state.is_pending = true) rest core.store) _
    (fun m rest core h => expire_round_at h.1 h.2) ⟨h, hBatch⟩).mono (fun _ core' hDone => ?_)
    fun _ => id
  exact sat_read (sat_pure hDone.1)

theorem sweep_due_at (h : At limits random room now start granted core) :
    Sat (sweep_due now) core (fun _ core' => At limits random room now start granted core')
      (fun _ => False) := by
  unfold sweep_due
  refine sat_bind ((reclaim_at h).mono (fun _ core h => ?_) fun _ => id)
  refine sat_bind ((expire_at h).mono (fun _ core h => ?_) fun _ => id)
  refine sat_read ?_
  dsimp only
  split
  · exact sat_bind (h.sat_commit _ (sat_read (sat_pure (h.drop _))))
  · exact sat_read (sat_pure h)

/-- Effects on broadcasts and rooms that give out no id. -/
theorem sat_commit_same {now : Nat} (h : At limits random room now start granted core)
    {effect : Effect} (hOther : effect.of_inboxes = false)
    (hLast : (core.store.apply effect).last_id = core.store.last_id) :
    Sat (commit effect) core (fun _ core' => At limits random room now start granted core')
      (fun _ => False) :=
  h.sat_commit effect ((h.same (apply_same core.store hOther) hLast).told _ _ _)

theorem sweep_rooms_at (h : At limits random room now start granted core) :
    Sat (sweep_rooms now) core (fun _ core' => At limits random room now start granted core')
      (fun _ => False) := by
  unfold sweep_rooms
  refine sat_read (sat_bind ?_)
  refine (sat_forM _ (fun q _ core h => ?_) h).mono (fun _ core h => ?_) fun _ => id
  · have hLast : (core.store.apply (.Question q.1 q.2 .Expired now)).last_id = core.store.last_id :=
      with_room_last_id _ _ _
    refine sat_bind ((sat_commit_same h rfl hLast).mono (fun _ core h => ?_) fun _ => id)
    exact sat_bind (sat_emit_room fun events => sat_wake fun wake => h.told events wake _)
  · refine sat_read (sat_forM _ (fun name _ core h => ?_) h)
    refine sat_read (sat_bind ((sat_commit_same h rfl rfl).mono (fun _ core h => ?_) fun _ => id))
    exact sat_bind (sat_emit fun events => sat_wake fun wake => h.told events wake _)

theorem sweep_sessions_at (h : At limits random room now start granted core) :
    Sat (sweep_sessions now) core (fun _ core' => At limits random room now start granted core')
      (fun _ => False) := by
  unfold sweep_sessions
  refine sat_read (sat_forM _ (fun s _ core h => ?_) h)
  have hSame : SameInboxes core.store
      { core.store with sessions := core.store.sessions.erase s.1 } := ⟨rfl, rfl, rfl, le_rfl⟩
  refine sat_bind (sat_modify (sat_read ?_))
  split
  · exact sat_emit fun events => (h.same hSame rfl).told events _ _
  · exact h.same hSame rfl

theorem sweep_at (h : At limits random room now start granted core) :
    Sat (sweep now) core (fun _ core' => At limits random room now start granted core')
      (fun _ => False) := by
  unfold sweep
  refine sat_bind ((sweep_sessions_at h).mono (fun _ core h => ?_) fun _ => id)
  refine sat_bind ((sweep_due_at h).mono (fun _ core h => ?_) fun _ => id)
  refine sat_read ?_
  dsimp only
  split
  · refine sat_bind ((sat_commit_same h rfl (drop_broadcasts_last_id _ _)).mono (fun _ core h => ?_)
      fun _ => id)
    exact sat_bind ((sweep_rooms_at h).mono (fun _ core h => sat_pure h) fun _ => id)
  · exact sat_bind ((sweep_rooms_at h).mono (fun _ core h => sat_pure h) fun _ => id)

/-! ## Sending -/

theorem room_to_grow_at {now : Nat} (h : At limits random room now start granted core) :
    Sat room_to_grow core (fun _ core' => At limits random room now start granted core')
      (fun core' => At limits random room now start granted core') :=
  sat_read (sat_refuse (fun _ => h) fun _ => h)

theorem ensure_agents_at (h : At limits random room now start granted core) (names : List String) :
    Sat (ensure_agents names now) core
      (fun _ core' => At limits random room now start granted core')
      (fun core' => At limits random room now start granted core') := by
  unfold ensure_agents
  refine sat_read ?_
  dsimp only
  split
  · exact sat_pure h
  · refine sat_bind (sat_refuse (fun _ => h) fun _ => sat_bind ?_)
    refine (sat_forM _ (fun name _ core h => ?_) h).mono (fun _ core h => ?_) fun _ => id
    · refine sat_bind (h.sat_commit _ (sat_bind (sat_emit fun events => sat_hand_over fun events => ?_)))
      exact (h.forget name).told events _ _
    · refine sat_forM _ (fun name _ core h => ?_) h
      exact sat_bind (h.sat_commit _ (sat_emit fun events => (h.agent name now).told events _ _))

theorem At.mono_room {now : Nat} (h : At limits random room now start granted core) :
    At limits random (room + 1) now start granted core :=
  { h with room_left := h.room_left.trans (Nat.le_succ room) }

/-- **A new message waits.** -/
theorem At.message {now : Nat} (h : At limits random room now start granted core) {m : Message}
    (hNew : core.store.last_id < m.id) (hSeq : m.id.seq ≤ room + 1) (hState : m.state = .Queued)
    (hDeliveries : m.deliveries = 0) (hLease : m.lease = none) :
    At limits random (room + 1) now start granted
      (core.applied (.Message m)) := by
  obtain ⟨hLast, hMessages⟩ := apply_message core.store m
  rw [max_eq_right hNew.le] at hLast
  refine { h with
    room_left := ?_
    sound := h.sound.message m (h.sound.fresh hNew)
    steps := h.steps.tail ?_ }
  · show (core.store.apply (.Message m)).last_id.seq ≤ room + 1
    exact hLast ▸ hSeq
  · -- in the lease protocol this adds an item that waits
    have hStep : Leases.Step limits.terms now (core.store.leases granted) _ :=
      .add m.id m.to_ hNew
    have hItem : m.item = { body := m.to_, phase := .waiting, count := 0, last := none } := by
      unfold Message.item
      rw [hState, hDeliveries, hLease]
      rfl
    have hItems : ((core.store.apply (.Message m)).leases granted).items =
        Leases.put (core.store.leases granted).items m.id m.item := by
      funext i
      show ((core.store.apply (.Message m)).messages[i]?).map Message.item = _
      rw [hMessages, BTreeMap.get_insert]
      by_cases hi : m.id = i
      · subst hi
        rw [if_pos rfl, Leases.put_self]
        rfl
      · rw [if_neg hi, Leases.put_of_ne _ _ (Ne.symm hi)]
        rfl
    rw [← hItem, ← hItems] at hStep
    rw [Core.applied_store]
    rw [show (core.store.apply (.Message m)).leases granted = { core.store.leases granted with
      items := ((core.store.apply (.Message m)).leases granted).items, last := m.id } by
        simp only [Store.leases, hLast]]
    exact hStep

theorem send_new_at (h : At limits random room now start granted core) (hRoom : room + 1 < 2 ^ 64)
    (req : SendRequest) (to_ : String) (parent : Option Message) :
    Sat (send_new req to_ parent now) core
      (fun _ core' => At limits random (room + 1) now start granted core')
      (fun core' => At limits random (room + 1) now start granted core') := by
  -- asking whether the addressee is known changes nothing
  have hKnown : ∀ core, At limits random room now start granted core →
      Sat (require_known to_) core (fun _ core' => At limits random room now start granted core')
        (fun core' => At limits random (room + 1) now start granted core') := fun core h =>
    sat_read (sat_refuse (fun _ => h.mono_room) fun _ => h)
  unfold send_new
  lift_lets
  intro rest
  have hRest : ∀ core, At limits random room now start granted core → Sat (rest ()) core
      (fun _ core' => At limits random (room + 1) now start granted core')
      (fun core' => At limits random (room + 1) now start granted core') := by
    intro core h
    refine sat_read (sat_bind (sat_refuse (fun _ => h.mono_room) fun _ => ?_))
    refine sat_bind (sat_refuse (fun _ => h.mono_room) fun _ => ?_)
    refine sat_bind ((ensure_agents_at h _).mono (fun _ core h => ?_) fun _ h => h.mono_room)
    refine sat_read ?_
    -- the id is the next one: fewer than 2^64 were asked for, so there is one
    obtain ⟨id, hNext, hSeq⟩ := Id.next_after_of_room now
      (lt_of_le_of_lt (Nat.succ_le_succ h.room_left) hRoom)
    have hId : core.store.next_id now = id := by
      unfold Store.next_id
      rw [hNext]
      rfl
    rw [hId]
    refine sat_bind (h.sat_commit _ ?_)
    have hAt := h.message (m := {
      id, from_ := req.from_, to_, body := req.body, created := now
      expires := (now : Nat) + core.limits.msg_ttl_ms, thread := parent.elim id Message.thread
      reply_to := req.reply_to, key := req.key, state := .Queued, deliveries := 0
      lease := none, settled := none })
      (Id.lt_of_next_after hNext) (hSeq.trans (Nat.succ_le_succ h.room_left)) rfl rfl rfl
    refine sat_bind ((trim_history_at hAt to_).mono (fun _ core' hTrim => ?_) fun _ => False.elim)
    exact sat_bind (sat_emit fun events => sat_bind (sat_wake fun wake => sat_pure
      (hTrim.1.told events wake _)))
  split
  · exact sat_bind ((hKnown core h).mono (fun _ core h => hRest core h) fun _ => id)
  · exact hRest core h

/-- **Sending takes at most one id.** -/
theorem send_at (h : At limits random room now start granted core) (hRoom : room + 1 < 2 ^ 64)
    (req : SendRequest) :
    Sat (send req now) core
      (fun _ core' => At limits random (room + 1) now start granted core')
      (fun core' => At limits random (room + 1) now start granted core') := by
  unfold send
  refine sat_bind ((room_to_grow_at h).mono (fun _ core h => ?_) fun _ h => h.mono_room)
  refine sat_read ?_
  dsimp only
  split
  · exact sat_fail h.mono_room
  · split
    · exact sat_pure h.mono_room
    · exact send_new_at h hRoom req _ _

/-! ## Handing out -/

theorem nodup_eraseDups {α : Type} [DecidableEq α] (l : List α) : l.eraseDups.Nodup := by
  generalize hLength : l.length = n
  induction n using Nat.strong_induction_on generalizing l with
  | h n ih =>
    cases l with
    | nil => exact List.nodup_nil
    | cons a l =>
      rw [List.eraseDups_cons, List.nodup_cons]
      refine ⟨fun hMem => ?_, ih _ ?_ _ rfl⟩
      · simpa using List.mem_eraseDups.mp hMem
      · subst hLength
        exact Nat.lt_succ_of_le (List.length_filter_le _ _)

theorem leasable_queued (h : Sound core.store) (inbox : String) (limit : Nat)
    (only : Option (List Id)) (now : Nat) :
    (core.store.leasable inbox limit only now).Nodup ∧
      ∀ id ∈ core.store.leasable inbox limit only now,
        ∃ m, core.store.messages[id]? = some m ∧ m.state = .Queued := by
  unfold Store.leasable
  dsimp only
  cases only with
  | none =>
    -- the first of the queue, each of which waits
    unfold Store.queued
    cases ha : core.store.agents[inbox]? with
    | none => simp
    | some a =>
      refine ⟨((BTreeSet.nodup_toList a.queued).filter _).sublist (List.take_sublist _ _), ?_⟩
      intro id hId
      have hMem := (List.mem_filter.mp (List.mem_of_mem_take hId)).1
      obtain ⟨m, hm, -, hState⟩ :=
        (h.indexed.queued inbox a ha id).mp (Std.ExtTreeSet.mem_toList.mp hMem)
      exact ⟨m, hm, hState⟩
  | some wanted =>
    -- the ids asked for, those of them that wait
    refine ⟨(nodup_eraseDups _).sublist (List.take_sublist _ _), fun id hId => ?_⟩
    have hMem := List.mem_mergeSort.mp (List.mem_eraseDups.mp (List.mem_of_mem_take hId))
    obtain ⟨hQueued, -⟩ := Bool.and_eq_true_iff.mp (List.mem_filter.mp hMem).2
    cases hm : core.store.messages[id]? with
    | none => simp [hm] at hQueued
    | some m =>
      rw [hm] at hQueued
      exact ⟨m, rfl, (by simpa using hQueued : m.to_ = inbox ∧ m.state = .Queued).2⟩

/-- What a caller is handed for a delivery. -/
def Delivered (l : Leased) (delivery : Id × Lease) : Prop :=
  l.message.id = delivery.1 ∧ l.message.lease = some delivery.2 ∧
    l.receipt = s!"{delivery.1.display}.{delivery.2.token}"

theorem lease_each_at (h : At limits random room now start granted core) (consumer : String)
    (until_ : Nat) (ids : List Id) (hNodup : ids.Nodup)
    (hQueued : ∀ id ∈ ids, ∃ m, core.store.messages[id]? = some m ∧ m.state = .Queued) :
    Sat (lease_each consumer now until_ ids) core
      (fun leased core' => ∃ since, List.Forall₂ Delivered leased since ∧
        At limits random room now start (granted ++ since) core') (fun _ => False) := by
  induction ids generalizing core granted with
  | nil => exact sat_pure ⟨[], .nil, by rwa [List.append_nil]⟩
  | cons id ids ih =>
    obtain ⟨hId, hRest⟩ := List.nodup_cons.mp hNodup
    obtain ⟨m, hm, hState⟩ := hQueued id List.mem_cons_self
    unfold lease_each
    set lease : Lease := { consumer, token := core.random core.drawn, at_ := now, until_ } with hLease
    have hAt := h.lease hm hState lease rfl (congrFun h.same_random core.drawn)
    -- the message as it is handed out
    have hLeased := with_message_get core.store id (fun message =>
      { message with
        state := .Leased, deliveries := message.deliveries + 1, settled := none
        lease := some lease })
    -- the rest still wait: one lease changes one message
    have hOthers : ∀ i ∈ ids, ∃ m, (core.store.apply
        (.Lease id consumer lease.token now until_)).messages[i]? = some m ∧ m.state = .Queued := by
      intro i hi
      obtain ⟨m', hm', hState'⟩ := hQueued i (List.mem_cons_of_mem _ hi)
      refine ⟨m', ?_, hState'⟩
      have hNe : id ≠ i := fun hEq => hId (hEq ▸ hi)
      exact (hLeased i).trans ((if_neg hNe).trans hm')
    refine sat_bind ?_
    refine sat_bind (Forum.sat_commit ?_ ?_ _ ?_)
    · exact h.running
    · exact h.no_faults
    refine sat_read (sat_bind ((ih hAt hRest hOthers).mono (fun leased core' hLater => ?_)
      fun _ => False.elim))
    obtain ⟨since, hDelivered, hAt'⟩ := hLater
    -- what is answered is the message with this lease
    have hThis : (core.store.apply (.Lease id consumer lease.token now until_)).messages[id]? =
        some { m with
          state := .Leased, deliveries := m.deliveries + 1, settled := none
          lease := some lease } := by
      refine (hLeased id).trans ?_
      rw [if_pos rfl, hm]
      rfl
    rw [Core.applied_store, show (core.store.apply
      (.Lease id consumer (core.random core.drawn) now until_)).messages[id]? = _ from hThis]
    refine sat_pure ⟨(id, lease) :: since, .cons ⟨h.sound.indexed.id_eq id m hm, rfl, rfl⟩ hDelivered, ?_⟩
    rwa [List.append_assoc] at hAt'

theorem lease_where_at (h : At limits random room now start granted core) (inbox consumer : String)
    (limit : Nat) (only : Option (List Id)) :
    Sat (lease_where inbox consumer limit only now) core
      (fun leased core' => ∃ since, List.Forall₂ Delivered leased since ∧
        At limits random room now start (granted ++ since) core') (fun _ => False) := by
  unfold lease_where
  refine sat_bind ((reclaim_at h).mono (fun _ core h => ?_) fun _ => id)
  refine sat_bind ((expire_at h).mono (fun _ core h => ?_) fun _ => id)
  obtain ⟨hNodup, hQueued⟩ := leasable_queued h.sound inbox limit only now
  refine sat_read (sat_bind ((lease_each_at h consumer _ _ hNodup hQueued).mono
    (fun leased core hLeased => ?_) fun _ => id))
  obtain ⟨since, hDelivered, hAt⟩ := hLeased
  split
  · exact sat_bind (sat_emit fun events => sat_pure ⟨since, hDelivered, hAt.told events _ _⟩)
  · exact sat_pure ⟨since, hDelivered, hAt⟩

/-! ## Acknowledging -/

/-- `receipt` is for the message `m` as it is. -/
def Settles (receipt : String) (consumer : Option String) (m : Message) : Prop :=
  Id.parse (split_receipt receipt).1 = some m.id ∧
    m.matches (split_receipt receipt).2 consumer = true

/-- What an acknowledgement has done so far: messages pending in the inbox are
settled, each by a receipt for it. -/
def Acknowledged (inbox : String) (receipts : List String) (consumer : Option String)
    (store store' : Store) : Prop :=
  ∀ id : Id, store'.messages[id]? = store.messages[id]? ∨ ∃ m at_,
    store.messages[id]? = some m ∧ m.to_ = inbox ∧ (∃ receipt ∈ receipts, Settles receipt consumer m) ∧
      store'.messages[id]? = some { m with state := .Acked, settled := some at_ }

/-- Every receipt accepted is for a message that is acknowledged now. -/
def Accepted (inbox : String) (accepted : List String) (store : Store) : Prop :=
  ∀ receipt ∈ accepted, ∃ m : Message, Id.parse (split_receipt receipt).1 = some m.id ∧
    store.messages[m.id]? = some m ∧ m.to_ = inbox ∧ m.state = .Acked

theorem pending_of_matches {m : Message} {token consumer : Option String}
    (h : m.matches token consumer = true) : m.state.is_pending = true :=
  (Bool.and_eq_true_iff.mp h).1

theorem settle_get (store : Store) (id : Id) (state : State) (at_ : Nat) (i : Id) :
    (store.apply (.Settle id state at_)).messages[i]? =
      if id = i then (store.messages[i]?).map fun m =>
        { m with state, settled := if state.is_pending then none else some at_ }
      else store.messages[i]? :=
  with_message_get store id _ i

/-- One more message acknowledged. -/
theorem Acknowledged.settle {inbox receipt : String} {receipts : List String}
    {consumer : Option String} {store store' : Store} {m : Message}
    (h : Acknowledged inbox receipts consumer store store') (hm : store'.messages[m.id]? = some m)
    (hTo : m.to_ = inbox) (hReceipt : receipt ∈ receipts) (hSettles : Settles receipt consumer m)
    (at_ : Nat) :
    Acknowledged inbox receipts consumer store (store'.apply (.Settle m.id .Acked at_)) := by
  intro i
  rw [settle_get]
  split
  · next hi =>
    subst hi
    rcases h m.id with hSame | ⟨m', at', -, -, -, hAcked⟩
    · refine .inr ⟨m, at_, hSame ▸ hm, hTo, ⟨receipt, hReceipt, hSettles⟩, ?_⟩
      rw [hm]
      rfl
    · -- it is pending, so it was not settled before
      rw [hm] at hAcked
      have hPending := pending_of_matches hSettles.2
      rw [Option.some.inj hAcked] at hPending
      cases hPending
  · exact h i

theorem Accepted.settle {inbox receipt : String} {accepted : List String} {store : Store}
    {m : Message} (h : Accepted inbox accepted store) (hm : store.messages[m.id]? = some m)
    (hTo : m.to_ = inbox) (hParse : Id.parse (split_receipt receipt).1 = some m.id)
    (hPending : m.state.is_pending = true) (at_ : Nat) :
    Accepted inbox (accepted ++ [receipt]) (store.apply (.Settle m.id .Acked at_)) := by
  intro r hr
  rcases List.mem_append.mp hr with hr | hr
  · obtain ⟨m', hParse', hm', hTo', hState'⟩ := h r hr
    refine ⟨m', hParse', ?_, hTo', hState'⟩
    rw [settle_get, if_neg, hm']
    intro hEq
    rw [← hEq, hm] at hm'
    cases hm'
    rw [hState'] at hPending
    cases hPending
  · obtain rfl := List.mem_singleton.mp hr
    refine ⟨{ m with state := .Acked, settled := some at_ }, hParse, ?_, hTo, rfl⟩
    show (store.apply (.Settle m.id .Acked at_)).messages[m.id]? = _
    rw [settle_get, if_pos rfl, hm]
    rfl

theorem ack_each_at (store : Store) (inbox : String) (all : List String) (consumer : Option String)
    (receipts : List String) (outcome : AckOutcome) (acked : List String)
    (h : At limits random room now start granted core) (hAll : ∀ r ∈ receipts, r ∈ all)
    (hAcked : Acknowledged inbox all consumer store core.store)
    (hAccepted : Accepted inbox outcome.acknowledged core.store) :
    Sat (ack_each inbox consumer now receipts outcome acked) core
      (fun result core' => At limits random room now start granted core' ∧
        Acknowledged inbox all consumer store core'.store ∧
        Accepted inbox result.1.acknowledged core'.store) (fun _ => False) := by
  induction receipts generalizing outcome acked core with
  | nil => exact sat_pure ⟨h, hAcked, hAccepted⟩
  | cons receipt receipts ih =>
    have hRest : ∀ r ∈ receipts, r ∈ all := fun r hr => hAll r (List.mem_cons_of_mem _ hr)
    unfold ack_each
    refine sat_read ?_
    dsimp only
    cases hm : (Id.parse (split_receipt receipt).1).bind fun id => core.store.messages[id]? with
    | none => exact ih _ _ h hRest hAcked hAccepted
    | some m =>
      obtain ⟨id, hParse, hStored⟩ := Option.bind_eq_some_iff.mp hm
      obtain rfl := h.sound.indexed.id_eq id m hStored
      dsimp only
      split
      · exact ih _ _ h hRest hAcked hAccepted
      · next hTo =>
        have hTo : m.to_ = inbox := not_not.mp hTo
        split
        · next hState =>
          refine ih _ _ h hRest hAcked fun r hr => ?_
          rcases List.mem_append.mp hr with hr | hr
          · exact hAccepted r hr
          · obtain rfl := List.mem_singleton.mp hr
            -- acknowledged before: the receipt is accepted again, and nothing changes
            exact ⟨m, hParse, hStored, hTo, hState⟩
        · split
          · exact ih _ _ h hRest hAcked hAccepted
          · next hMatches =>
            have hMatches : m.matches (split_receipt receipt).2 consumer = true := by
              simpa using hMatches
            -- the receipt carries the token of the lease, so the message is out and is settled
            have hPending := pending_of_matches hMatches
            refine sat_bind (h.sat_commit _ (ih _ _ (h.settle hStored hPending rfl now) hRest ?_ ?_))
            · exact hAcked.settle hStored hTo (hAll receipt List.mem_cons_self) ⟨hParse, hMatches⟩ now
            · exact hAccepted.settle hStored hTo hParse hPending now

/-- What an acknowledgement did, and what history it then trimmed. -/
theorem ack_at (h : At limits random room now start granted core) (inbox : String)
    (receipts : List String) (consumer : Option String) :
    Sat (ack inbox receipts consumer now) core
      (fun outcome core' => At limits random room now start granted core' ∧
        ∃ store, Acknowledged inbox receipts consumer core.store store ∧
          Accepted inbox outcome.acknowledged store ∧ GoneBut store core'.store none)
      (fun _ => False) := by
  have hEach := ack_each_at core.store inbox receipts consumer receipts {} [] h (fun _ => id) (fun _ => .inl rfl)
    (List.forall_mem_nil _)
  unfold ack
  refine sat_bind (hEach.mono (fun result core' hDone => ?_) fun _ => id)
  obtain ⟨hAt, hAcked, hAccepted⟩ := hDone
  obtain ⟨outcome, acked⟩ := result
  dsimp only
  split
  · refine sat_bind ((trim_history_at hAt inbox).mono (fun _ core'' hTrim => ?_) fun _ => id)
    exact sat_bind (sat_emit fun events => sat_pure
      ⟨hTrim.1.told events _ _, core'.store, hAcked, hAccepted, hTrim.2⟩)
  · exact sat_pure ⟨hAt, core'.store, hAcked, hAccepted, .refl _ _⟩

end Operations

end Postino.Forum
