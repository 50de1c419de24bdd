import Postino.Forum.Lease

/-!
# Runs of requests to the inboxes

What callers see of the leases over any run of requests, with times that do not go
back and a journal that takes every line.

* `step_serving` — one request keeps what is known of the deliveries.
* `lease_protocol` — the protocol, from an empty store.
-/

namespace Postino.Forum

open Lib Fallible

/-! ## Requests -/

inductive Request where
  | send (req : SendRequest)
  | lease (inbox consumer : String) (limit : Nat)
  | lease_ids (inbox consumer : String) (ids : List Id)
  | ack (inbox : String) (receipts : List String) (consumer : Option String)
  | reclaim
  | expire
  | sweep_due
  | sweep

/-- A core, and what it has answered: the messages it handed out, and the
receipts it took, with their inboxes. -/
structure Served where
  core : Core
  leased : List Leased := []
  acknowledged : List (String × String) := []

namespace Served

def hand_out (s : Served) (result : Except Error (List Leased) × Core) : Served :=
  match result with
  | (.ok leased, core) => { s with core, leased := s.leased ++ leased }
  | (.error _, core) => { s with core }

def take_receipts (s : Served) (inbox : String) (result : Except Error AckOutcome × Core) : Served :=
  match result with
  | (.ok outcome, core) =>
    { s with
      core, acknowledged := s.acknowledged ++ outcome.acknowledged.map fun r => (inbox, r) }
  | (.error _, core) => { s with core }

def step (s : Served) (now : Fin (2 ^ 64)) : Request → Served
  | .send req => { s with core := (send req now s.core).2 }
  | .lease inbox consumer limit => s.hand_out (lease inbox consumer limit now s.core)
  | .lease_ids inbox consumer ids => s.hand_out (lease_ids inbox consumer ids now s.core)
  | .ack inbox receipts consumer => s.take_receipts inbox (ack inbox receipts consumer now s.core)
  | .reclaim => { s with core := (reclaim now s.core).2 }
  | .expire => { s with core := (expire now s.core).2 }
  | .sweep_due => { s with core := (sweep_due now s.core).2 }
  | .sweep => { s with core := (sweep now s.core).2 }

def run (s : Served) (requests : List (Fin (2 ^ 64) × Request)) : Served :=
  requests.foldl (fun s r => s.step r.1 r.2) s

/-- The deliveries made, in order. -/
def deliveries (s : Served) : List (Id × Lease) :=
  s.leased.filterMap fun l => l.message.lease.map fun lease => (l.message.id, lease)

/-- Those of one message. -/
def deliveries_of (s : Served) (id : Id) : List Lease :=
  (s.deliveries.filter fun d => d.1 = id).map Prod.snd

end Served

/-! ## What is known of a run -/

structure Serving (limits : Limits) (random : Nat → String) (room now : Nat)
    (granted : List (Id × Lease)) (s : Served) : Prop where
  now_at : At limits random room now (s.core.store.leases granted) granted s.core
  inv : Leases.Inv limits.terms now (s.core.store.leases granted)
  delivered : List.Forall₂ Delivered s.leased granted
  /-- A receipt taken is for a message that is acknowledged, or gone. -/
  accepted : ∀ p ∈ s.acknowledged, ∃ id, Id.parse (split_receipt p.2).1 = some id ∧
    id ≤ s.core.store.last_id ∧
    ∀ m, s.core.store.messages[id]? = some m → m.to_ = p.1 ∧ m.state = .Acked

section Step

variable {limits : Limits} {random : Nat → String} {room now : Nat} {granted : List (Id × Lease)}
  {s : Served} {core : Core}

theorem deliveries_eq {leased : List Leased} (h : List.Forall₂ Delivered leased granted) :
    (leased.filterMap fun l => l.message.lease.map fun lease => (l.message.id, lease)) = granted := by
  induction h with
  | nil => rfl
  | cons hHead _ ih =>
    obtain ⟨hId, hLease, -⟩ := hHead
    rw [List.filterMap_cons, hLease]
    simp [ih, hId]

theorem phase_closed {state : State} (h : state.is_pending = false) : state.phase = .closed state := by
  cases state with
  | Queued | Leased => cases h
  | _ => rfl

theorem state_of_closed {state state' : State} (h : state.phase = .closed state') : state = state' := by
  cases state with
  | Queued | Leased => cases h
  | _ =>
    cases h
    rfl

theorem closed_of_settled {m : Message} (h : m.state.is_pending = false) : m.item.is_closed :=
  ⟨m.state, phase_closed h⟩

/-- What is known of a message that was settled, at any later time. -/
theorem kept_message {store store' : Store} {granted' : List (Id × Lease)}
    (h : Leases.Kept (store.leases granted) (store'.leases granted')) {id : Id} {m m' : Message}
    (hm : store.messages[id]? = some m) (hSettled : m.state.is_pending = false)
    (hm' : store'.messages[id]? = some m') : m'.state = m.state ∧ m'.to_ = m.to_ := by
  rcases h.closed id m.item (leases_item hm granted) (closed_of_settled hSettled) with hNone | hSame
  · rw [leases_item hm' granted'] at hNone
    cases hNone
  · rw [leases_item hm' granted'] at hSame
    have hItem := Option.some.inj hSame
    have hPhase : m'.state.phase = m.state.phase := congrArg Item.phase hItem
    exact ⟨state_of_closed (hPhase.trans (phase_closed hSettled)), congrArg Item.body hItem⟩

/-- What is acknowledged stays so. -/
theorem accepted_kept {store store' : Store} {granted' : List (Id × Lease)}
    (h : Leases.Kept (store.leases granted) (store'.leases granted')) {inbox : String} {id : Id}
    (hId : id ≤ store.last_id)
    (hBefore : ∀ m, store.messages[id]? = some m → m.to_ = inbox ∧ m.state = .Acked) :
    id ≤ store'.last_id ∧
      ∀ m, store'.messages[id]? = some m → m.to_ = inbox ∧ m.state = .Acked := by
  refine ⟨hId.trans h.last, fun m' hm' => ?_⟩
  cases hm : store.messages[id]? with
  | none =>
    have hGone := h.gone id hId (show (store.messages[id]?).map Message.item = none by rw [hm]; rfl)
    rw [leases_item hm' granted'] at hGone
    cases hGone
  | some m =>
    obtain ⟨hTo, hAcked⟩ := hBefore m hm
    obtain ⟨hState, hSame⟩ := kept_message h hm (by rw [hAcked]; rfl) hm'
    exact ⟨hSame.trans hTo, hState.trans hAcked⟩

/-- Where a request leaves what is known, from where it leaves the core. -/
theorem Serving.next (h : Serving limits random room now granted s) {room' now' : Nat}
    (hMost : 1 ≤ limits.max_deliveries) (hNow : now ≤ now') {since : List (Id × Lease)}
    {leased : List Leased} (hAt : At limits random room' now' (s.core.store.leases granted)
      (granted ++ since) core) (hDelivered : List.Forall₂ Delivered leased since) :
    Serving limits random room' now' (granted ++ since)
        { s with core, leased := s.leased ++ leased } ∧
      Leases.Kept (s.core.store.leases granted) (core.store.leases (granted ++ since)) := by
  have hInv := h.inv.mono hNow
  have hKept := Leases.Kept.steps hInv hMost hAt.steps
  refine ⟨⟨{ hAt with steps := .refl }, hInv.steps hMost hAt.steps,
    List.rel_append h.delivered hDelivered, fun p hp => ?_⟩, hKept⟩
  obtain ⟨id, hParse, hId, hBefore⟩ := h.accepted p hp
  exact ⟨id, hParse, accepted_kept hKept hId hBefore⟩

/-- The same for a request that hands out nothing. -/
theorem Serving.next_quiet (h : Serving limits random room now granted s) {room' now' : Nat}
    (hMost : 1 ≤ limits.max_deliveries) (hNow : now ≤ now')
    (hAt : At limits random room' now' (s.core.store.leases granted) granted core) :
    Serving limits random room' now' granted { s with core } ∧
      Leases.Kept (s.core.store.leases granted) (core.store.leases granted) := by
  have hAt : At limits random room' now' (s.core.store.leases granted) (granted ++ []) core := by
    rwa [List.append_nil]
  have hNext := h.next hMost hNow hAt .nil
  rwa [List.append_nil, List.append_nil] at hNext

/-- What is acknowledged was there before. -/
theorem known_of_acknowledged {inbox : String} {receipts : List String} {consumer : Option String}
    {store store' : Store} (h : Acknowledged inbox receipts consumer store store')
    (hSound : Sound store) {id : Id} {m : Message} (hm : store'.messages[id]? = some m) :
    id ≤ store.last_id := by
  rcases h id with hSame | ⟨m', _, hm', -⟩
  · exact hSound.known id m (hSame ▸ hm)
  · exact hSound.known id m' hm'

/-- **One request keeps what is known.** -/
theorem step_serving (h : Serving limits random room now granted s) (now' : Fin (2 ^ 64))
    (hMost : 1 ≤ limits.max_deliveries) (hRoom : room + 1 < 2 ^ 64) (hNow : now ≤ now')
    (request : Request) :
    ∃ granted', Serving limits random (room + 1) now' granted' (s.step now' request) ∧
      Leases.Kept (s.core.store.leases granted)
        ((s.step now' request).core.store.leases granted') := by
  have hAt : At limits random room now' (s.core.store.leases granted) granted s.core :=
    { h.now_at with steps := .refl }
  cases request with
  -- sending and the sweeps hand nothing out, so the grants stay
  | send req =>
    refine ⟨granted, h.next_quiet hMost hNow ?_⟩
    rcases (send_at hAt hRoom req).elim with ⟨_, core, hResult, hDone⟩ | ⟨_, core, hResult, hDone⟩
    · exact hResult ▸ hDone
    · exact hResult ▸ hDone
  | lease inbox consumer limit =>
    rcases (lease_where_at hAt inbox consumer limit none).elim with
      ⟨leased, core, hResult, since, hDelivered, hDone⟩ | ⟨_, _, _, hFalse⟩
    · refine ⟨granted ++ since, ?_⟩
      have hStep : s.step now' (.lease inbox consumer limit) =
          { s with core, leased := s.leased ++ leased } := congrArg s.hand_out hResult
      rw [hStep]
      exact h.next hMost hNow hDone.mono_room hDelivered
    · exact hFalse.elim
  | lease_ids inbox consumer ids =>
    rcases (lease_where_at hAt inbox consumer ids.length (some ids)).elim with
      ⟨leased, core, hResult, since, hDelivered, hDone⟩ | ⟨_, _, _, hFalse⟩
    · refine ⟨granted ++ since, ?_⟩
      have hStep : s.step now' (.lease_ids inbox consumer ids) =
          { s with core, leased := s.leased ++ leased } := congrArg s.hand_out hResult
      rw [hStep]
      exact h.next hMost hNow hDone.mono_room hDelivered
    · exact hFalse.elim
  -- a receipt accepted is for a message of the inbox, settled or gone from then on
  | ack inbox receipts consumer =>
    rcases (ack_at hAt inbox receipts consumer).elim with
      ⟨outcome, core, hResult, hDone, store, hAcked, hAccepted, hGone⟩ | ⟨_, _, _, hFalse⟩
    · refine ⟨granted, ?_⟩
      have hStep : s.step now' (.ack inbox receipts consumer) =
          { s with
            core
            acknowledged := s.acknowledged ++ outcome.acknowledged.map fun r => (inbox, r) } :=
        congrArg (s.take_receipts inbox) hResult
      rw [hStep]
      obtain ⟨hServing, hKept⟩ := h.next_quiet hMost hNow hDone.mono_room
      refine ⟨{ hServing with accepted := fun p hp => ?_ }, hKept⟩
      rcases List.mem_append.mp hp with hp | hp
      · exact hServing.accepted p hp
      · obtain ⟨receipt, hReceipt, rfl⟩ := List.mem_map.mp hp
        obtain ⟨m, hParse, hm, hTo, hState⟩ := hAccepted receipt hReceipt
        refine ⟨m.id, hParse, (known_of_acknowledged hAcked h.now_at.sound hm).trans hKept.last,
          fun m' hm' => ?_⟩
        rcases hGone m.id (by simp) with hNone | hSame
        · rw [hNone] at hm'
          cases hm'
        · rw [hSame, hm] at hm'
          cases hm'
          exact ⟨hTo, hState⟩
    · exact hFalse.elim
  | reclaim =>
    refine ⟨granted, h.next_quiet hMost hNow ?_⟩
    rcases (reclaim_at hAt).elim with ⟨_, core, hResult, hDone⟩ | ⟨_, _, _, hFalse⟩
    · exact hResult ▸ hDone.mono_room
    · exact hFalse.elim
  | expire =>
    refine ⟨granted, h.next_quiet hMost hNow ?_⟩
    rcases (expire_at hAt).elim with ⟨_, core, hResult, hDone⟩ | ⟨_, _, _, hFalse⟩
    · exact hResult ▸ hDone.mono_room
    · exact hFalse.elim
  | sweep_due =>
    refine ⟨granted, h.next_quiet hMost hNow ?_⟩
    rcases (sweep_due_at hAt).elim with ⟨_, core, hResult, hDone⟩ | ⟨_, _, _, hFalse⟩
    · exact hResult ▸ hDone.mono_room
    · exact hFalse.elim
  | sweep =>
    refine ⟨granted, h.next_quiet hMost hNow ?_⟩
    rcases (sweep_at hAt).elim with ⟨_, core, hResult, hDone⟩ | ⟨_, _, _, hFalse⟩
    · exact hResult ▸ hDone.mono_room
    · exact hFalse.elim

/-- **A run of requests keeps it.** -/
theorem run_serving (requests : List (Fin (2 ^ 64) × Request)) {s : Served}
    (h : Serving limits random room now granted s) (hMost : 1 ≤ limits.max_deliveries)
    (hRoom : room + requests.length < 2 ^ 64) (hNow : ∀ r ∈ requests, now ≤ r.1)
    (hTimes : requests.Pairwise fun r r' => r.1 ≤ r'.1) :
    ∃ room' now' granted', Serving limits random room' now' granted' (s.run requests) ∧
      room' = room + requests.length ∧ (∀ t, now ≤ t → (∀ r ∈ requests, r.1 ≤ t) → now' ≤ t) ∧
      Leases.Kept (s.core.store.leases granted) ((s.run requests).core.store.leases granted') := by
  induction requests generalizing room now granted s with
  | nil => exact ⟨room, now, granted, h, rfl, fun t ht _ => ht, .refl _⟩
  | cons r requests ih =>
    obtain ⟨hHead, hTail⟩ := List.pairwise_cons.mp hTimes
    rw [List.length_cons] at hRoom
    obtain ⟨granted', hStep, hKept⟩ := step_serving h r.1 hMost (by omega)
      (hNow r List.mem_cons_self) r.2
    obtain ⟨room', now', granted'', hRun, hRoom', hNow', hKept'⟩ := ih hStep (by omega) hHead hTail
    refine ⟨room', now', granted'', hRun, ?_, fun t ht hAll => ?_, hKept.trans hKept' h.inv.known⟩
    · rw [hRoom', List.length_cons]
      omega
    · obtain ⟨hFirst, hRest⟩ := List.forall_mem_cons.mp hAll
      exact hNow' t hFirst hRest

end Step

/-! ## The protocol -/

/-- `receipt` is for the latest delivery of the message `id`: by its token or, if
it has none, by the consumer. -/
def Served.latest (s : Served) (id : Id) (receipt : String) (consumer : Option String) : Prop :=
  Id.parse (split_receipt receipt).1 = some id ∧ ∃ lease, (s.deliveries_of id).getLast? = some lease ∧
    match (split_receipt receipt).2 with
    | some token => lease.token = token
    | none => consumer = some lease.consumer

/-- What `s` has once it has answered `requests`, one after another. -/
structure LeaseProtocol (start : Served) (requests : List (Fin (2 ^ 64) × Request)) : Prop where
  /-- Each message handed out carries its delivery and comes with a receipt for it. -/
  returned : List.Forall₂ Delivered (start.run requests).leased (start.run requests).deliveries
  /-- A leased message is not handed out again before its lease's end. -/
  spaced : ∀ id, ((start.run requests).deliveries_of id).Pairwise fun lease lease' =>
    lease.until_ ≤ lease'.at_
  /-- No message is delivered more often than the limit says. -/
  most : ∀ id, ((start.run requests).deliveries_of id).length ≤ start.core.limits.max_deliveries
  tokens : ((start.run requests).deliveries.map fun d => d.2.token).Nodup
  /-- A message once settled is never pending again, nor handed out. -/
  settled : ∀ earlier later, requests = earlier ++ later → ∀ (id : Id) m,
    (start.run earlier).core.store.messages[id]? = some m → m.state.is_pending = false →
      (∀ m', (start.run requests).core.store.messages[id]? = some m' → m'.state = m.state) ∧
      ∃ since, (start.run requests).deliveries = (start.run earlier).deliveries ++ since ∧
        ∀ d ∈ since, d.1 ≠ id
  /-- The next acknowledgement settles only what it has a receipt of the latest
  delivery for, and takes only such receipts and those of acknowledged messages. -/
  acked : ∀ inbox receipts consumer now, ∃ outcome core,
    ack inbox receipts consumer now (start.run requests).core = (.ok outcome, core) ∧
      (∀ (id : Id) m m', (start.run requests).core.store.messages[id]? = some m →
        core.store.messages[id]? = some m' → m'.state ≠ m.state → m'.state = .Acked ∧
          ∃ receipt ∈ receipts, (start.run requests).latest id receipt consumer) ∧
      ∀ receipt ∈ outcome.acknowledged, ∃ (id : Id) (m : Message),
        Id.parse (split_receipt receipt).1 = some id ∧
        (start.run requests).core.store.messages[id]? = some m ∧ m.to_ = inbox ∧
          (m.state = .Acked ∨ ∃ r ∈ receipts, (start.run requests).latest id r consumer)
  /-- Receipts taken before are taken again while their messages are kept, and
  nothing changes. -/
  again : ∀ inbox receipts, (∀ r ∈ receipts, (inbox, r) ∈ (start.run requests).acknowledged ∧
      ∃ id, Id.parse (split_receipt r).1 = some id ∧ id ∈ (start.run requests).core.store.messages) →
    ∀ consumer now, ack inbox receipts consumer now (start.run requests).core =
      (.ok { acknowledged := receipts }, (start.run requests).core)

section Protocol

variable {limits : Limits} {random : Nat → String} {room now : Nat} {granted : List (Id × Lease)}
  {s : Served}

theorem Serving.deliveries_eq (h : Serving limits random room now granted s) :
    s.deliveries = granted := Forum.deliveries_eq h.delivered

theorem Serving.deliveries_of_eq (h : Serving limits random room now granted s) (id : Id) :
    s.deliveries_of id = (s.core.store.leases granted).grants id := by
  unfold Served.deliveries_of Leases.grants
  rw [h.deliveries_eq]
  refine congrArg _ (List.filter_congr fun d _ => ?_)
  congr

/-- A receipt that settles a message is for its latest delivery. -/
theorem Serving.latest_of_settles (h : Serving limits random room now granted s) {m : Message}
    (hm : s.core.store.messages[m.id]? = some m) {receipt : String} {consumer : Option String}
    (hSettles : Settles receipt consumer m) : s.latest m.id receipt consumer := by
  obtain ⟨hParse, hMatches⟩ := hSettles
  have hLast := (h.inv.count m.id m.item (leases_item hm granted)).2
  obtain ⟨-, hMatches⟩ := Bool.and_eq_true_iff.mp hMatches
  cases hLease : m.lease with
  | none => simp [hLease] at hMatches
  | some lease =>
    refine ⟨hParse, lease, ?_, ?_⟩
    · rw [h.deliveries_of_eq, ← hLast]
      exact hLease
    · rw [hLease] at hMatches
      cases hToken : (split_receipt receipt).2 with
      | none => simpa [hToken] using hMatches
      | some token => simpa [hToken] using hMatches

theorem Serving.acked (h : Serving limits random room now granted s) (inbox : String)
    (receipts : List String) (consumer : Option String) (now' : Fin (2 ^ 64)) :
    ∃ outcome core, ack inbox receipts consumer now' s.core = (.ok outcome, core) ∧
      (∀ (id : Id) m m', s.core.store.messages[id]? = some m →
        core.store.messages[id]? = some m' → m'.state ≠ m.state → m'.state = .Acked ∧
          ∃ receipt ∈ receipts, s.latest id receipt consumer) ∧
      ∀ receipt ∈ outcome.acknowledged, ∃ (id : Id) (m : Message),
        Id.parse (split_receipt receipt).1 = some id ∧
        s.core.store.messages[id]? = some m ∧ m.to_ = inbox ∧
          (m.state = .Acked ∨ ∃ r ∈ receipts, s.latest id r consumer) := by
  have hAt : At limits random room now' (s.core.store.leases granted) granted s.core :=
    { h.now_at with steps := .refl }
  rcases (ack_at hAt inbox receipts consumer).elim with
    ⟨outcome, core, hResult, -, store, hAcked, hAccepted, hGone⟩ | ⟨_, _, _, hFalse⟩
  · refine ⟨outcome, core, hResult, fun id m m' hm hm' hState => ?_, fun receipt hReceipt => ?_⟩
    · -- the message is not gone, so it is as the acknowledgement left it
      have hStored : store.messages[id]? = some m' := by
        rcases hGone id (by simp) with hNone | hSame
        · rw [hNone] at hm'
          cases hm'
        · exact hSame ▸ hm'
      rcases hAcked id with hSame | ⟨m'', at_, hm'', -, ⟨r, hr, hSettles⟩, hNew⟩
      · rw [hStored, hm] at hSame
        cases hSame
        exact absurd rfl hState
      · rw [hm] at hm''
        cases hm''
        rw [hStored] at hNew
        obtain rfl := h.now_at.sound.indexed.id_eq id m hm
        exact ⟨congrArg Message.state (Option.some.inj hNew), r, hr,
          h.latest_of_settles hm hSettles⟩
    · obtain ⟨m, hParse, hm, hTo, hState⟩ := hAccepted receipt hReceipt
      rcases hAcked m.id with hSame | ⟨m', at_, hm', hTo', ⟨r, hr, hSettles⟩, hNew⟩
      · exact ⟨m.id, m, hParse, hSame ▸ hm, hTo, .inl hState⟩
      · have hId := h.now_at.sound.indexed.id_eq m.id m' hm'
        refine ⟨m.id, m', hParse, hm', hTo', .inr ⟨r, hr, ?_⟩⟩
        rw [← hId] at hm' ⊢
        exact h.latest_of_settles hm' hSettles
  · exact hFalse.elim

/-- The rounds of an acknowledgement all of whose receipts were taken before. -/
theorem ack_each_again {core : Core} {inbox : String} (consumer : Option String)
    (now : Fin (2 ^ 64)) (receipts : List String) (outcome : AckOutcome)
    (h : ∀ r ∈ receipts, ∃ (id : Id) (m : Message), Id.parse (split_receipt r).1 = some id ∧
      core.store.messages[id]? = some m ∧ m.to_ = inbox ∧ m.state = .Acked) :
    ack_each inbox consumer now receipts outcome [] core =
      (.ok ({ outcome with acknowledged := outcome.acknowledged ++ receipts }, []), core) := by
  induction receipts generalizing outcome with
  | nil =>
    rw [List.append_nil]
    rfl
  | cons receipt receipts ih =>
    obtain ⟨⟨id, m, hParse, hm, hTo, hState⟩, hRest⟩ := List.forall_mem_cons.mp h
    have hRound : ack_each inbox consumer now (receipt :: receipts) outcome [] core =
        ack_each inbox consumer now receipts
          { outcome with acknowledged := outcome.acknowledged ++ [receipt] } [] core := by
      conv_lhs => unfold ack_each
      rw [bind_of_ok (show Fallible.read core = (.ok core, core) from rfl)]
      simp only [hParse, Option.bind_some, hm, hTo, hState, ne_eq, not_true, if_false, if_true]
    rw [hRound, ih _ hRest, List.append_assoc]
    rfl

theorem Serving.again (h : Serving limits random room now granted s) (inbox : String)
    (receipts : List String) (hTaken : ∀ r ∈ receipts, (inbox, r) ∈ s.acknowledged ∧
      ∃ id, Id.parse (split_receipt r).1 = some id ∧ id ∈ s.core.store.messages)
    (consumer : Option String) (now' : Fin (2 ^ 64)) :
    ack inbox receipts consumer now' s.core = (.ok { acknowledged := receipts }, s.core) := by
  have hEach := ack_each_again consumer now' receipts {} fun r hr => by
    obtain ⟨hMem, id, hParse, hKept⟩ := hTaken r hr
    obtain ⟨m, hm⟩ := (BTreeMap.mem_iff_get _ _).mp hKept
    obtain ⟨id', hParse', -, hAcked⟩ := h.accepted _ hMem
    rw [hParse] at hParse'
    cases hParse'
    exact ⟨id, m, hParse, hm, hAcked m hm⟩
  unfold ack
  rw [bind_of_ok hEach]
  rfl

theorem token_nodup (h : Serving limits random room now granted s)
    (hTokens : Function.Injective random) : (s.deliveries.map fun d => d.2.token).Nodup := by
  rw [h.deliveries_eq, h.now_at.tokens]
  exact List.nodup_range.map hTokens

theorem settled_for_good {s' : Served} {room' now' : Nat} {granted' : List (Id × Lease)}
    (h : Serving limits random room now granted s)
    (h' : Serving limits random room' now' granted' s')
    (hKept : Leases.Kept (s.core.store.leases granted) (s'.core.store.leases granted'))
    {id : Id} {m : Message} (hm : s.core.store.messages[id]? = some m)
    (hSettled : m.state.is_pending = false) :
    (∀ m', s'.core.store.messages[id]? = some m' → m'.state = m.state) ∧
      ∃ since, s'.deliveries = s.deliveries ++ since ∧ ∀ d ∈ since, d.1 ≠ id := by
  refine ⟨fun m' hm' => (kept_message hKept hm hSettled hm').1, ?_⟩
  obtain ⟨since, hSince, hOpen⟩ := hKept.granted
  refine ⟨since, by rw [h.deliveries_eq, h'.deliveries_eq]; exact hSince, ?_⟩
  rintro ⟨i, lease⟩ hMem rfl
  -- what was delivered since was open then, and this message was not
  obtain ⟨item, hItem, hNot⟩ := hOpen _ hMem (h.now_at.sound.known i m hm)
  rw [leases_item hm granted] at hItem
  cases hItem
  exact hNot (closed_of_settled hSettled)

end Protocol

theorem start_serving {core : Core} (hStore : core.store = {}) (hJournal : core.journal = [])
    (hHalted : core.halted = false) (hDrawn : core.drawn = 0) :
    Serving core.limits core.random 0 0 [] { core } where
  now_at :=
    { no_faults := hJournal
      running := hHalted
      same_limits := rfl
      same_random := rfl
      tokens := by
        show [] = (List.range core.drawn).map core.random
        rw [hDrawn]
        rfl
      room_left := by
        show core.store.last_id.seq ≤ 0
        rw [hStore]
        exact le_rfl
      sound := by
        show Sound core.store
        rw [hStore]
        exact Sound.empty
      steps := .refl }
  inv := by
    show Leases.Inv _ _ (core.store.leases [])
    rw [hStore]
    exact
      { known := fun _ _ h => by simp [Store.leases] at h
        granted_known := List.forall_mem_nil _
        past := List.forall_mem_nil _
        count := fun _ _ h => by simp [Store.leases] at h
        most := fun _ => Nat.zero_le _
        waiting := fun _ _ h => by simp [Store.leases] at h
        spaced := fun _ => .nil }
  delivered := .nil
  accepted := List.forall_mem_nil _

/-- **The inboxes keep the lease protocol**, over every run of requests made one
after another to a fresh server. -/
theorem lease_protocol (core : Core) (hStore : core.store = {}) (hJournal : core.journal = [])
    (hHalted : core.halted = false) (hDrawn : core.drawn = 0)
    (hTokens : Function.Injective core.random) (hMost : 1 ≤ core.limits.max_deliveries)
    (requests : List (Fin (2 ^ 64) × Request)) (hTimes : requests.Pairwise fun r r' => r.1 ≤ r'.1)
    (hLength : requests.length < 2 ^ 64) : LeaseProtocol { core } requests := by
  have hStart := start_serving hStore hJournal hHalted hDrawn
  obtain ⟨room, now, granted, hRun, -, -, -⟩ := run_serving requests hStart hMost (by omega)
    (fun r _ => Nat.zero_le _) hTimes
  have hGranted := hRun.deliveries_eq
  refine
    { returned := hGranted ▸ hRun.delivered
      spaced := fun id => hRun.deliveries_of_eq id ▸ hRun.inv.spaced id
      most := fun id => hRun.deliveries_of_eq id ▸ hRun.inv.most id
      tokens := token_nodup hRun hTokens
      settled := ?_
      acked := hRun.acked
      again := hRun.again }
  rintro earlier later rfl id m hm hSettled
  obtain ⟨hEarlier, hLater, hBetween⟩ := List.pairwise_append.mp hTimes
  rw [List.length_append] at hLength
  obtain ⟨room₁, now₁, granted₁, hRun₁, hRoom₁, hNow₁, -⟩ := run_serving earlier hStart hMost
    (by omega) (fun r _ => Nat.zero_le _) hEarlier
  obtain ⟨room₂, now₂, granted₂, hRun₂, -, -, hKept⟩ := run_serving later hRun₁ hMost (by omega)
    (fun r hr => hNow₁ _ (Nat.zero_le _) fun r' hr' => hBetween r' hr' r hr) hLater
  have hAppend : Served.run { core } (earlier ++ later) =
      (Served.run { core } earlier).run later := List.foldl_append
  rw [hAppend]
  exact settled_for_good hRun₁ hRun₂ hKept hm hSettled

/-- A message whose first lease runs out: the receipt of its second is taken, and
not that of its first. -/
theorem lease_protocol_requeued :
    let core : Core :=
      { limits := { max_deliveries := 2, lease_ms := 10 }
        random := fun n => String.ofList (List.replicate n 'a') }
    let requests : List (Fin (2 ^ 64) × Request) :=
      [(0, .send { from_ := "alice", to_ := some "bob", body := "hello" }), (1, .lease "bob" "b1" 5),
        (20, .reclaim), (21, .lease "bob" "b2" 5), (22, .ack "bob" ["0-1.", "0-1.a"] none)]
    LeaseProtocol { core } requests ∧
      (Served.run { core } requests).acknowledged = [("bob", "0-1.a")] ∧
      (Served.run { core } requests).leased.map Leased.receipt = ["0-1.", "0-1.a"] :=
  have hTokens : Function.Injective fun n => String.ofList (List.replicate n 'a') := fun n n' h => by
    have hLists := congrArg (fun s : String => s.toList.length) h
    simpa using hLists
  ⟨lease_protocol _ rfl rfl rfl rfl hTokens (by decide) _ (by decide) (by decide),
    by decide +kernel⟩

end Postino.Forum
