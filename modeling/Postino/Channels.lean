import Postino.Scope

/-!
# Publishing

A message published to a channel reaches the subscriptions that name the channel and
those with a pattern that matches it, as far as their scopes go. Key changes are
published too, and subscriptions that cannot hear of any are passed over.

* `Subscription.addressed` — what a message means to a subscription;
* `hears_keys_sound` — what is passed over would have heard nothing;
* `publish_exact` — the result.
-/

namespace Postino

open Lib

/-- A message published to a channel, as delivered to one subscription. -/
structure Delivery where
  channel : String
  /-- The pattern that matched, for pattern subscriptions. -/
  pattern : Option String
  message : String
  deriving DecidableEq

/-- What it adds to what its subscription has waiting. -/
def Delivery.size (d : Delivery) : Nat :=
  d.channel.utf8ByteSize + d.message.utf8ByteSize + (d.pattern.map String.utf8ByteSize).getD 0

def SUBSCRIBER_BUFFER : Nat := 256

/-- Bytes of messages a subscription may have waiting, beyond one message. -/
def SUBSCRIBER_BYTES : Nat := 4 * 2 ^ 20

/-- Whether a subscription to `channels` and `patterns` may hear of key changes. Their
channels all start with `__key`, so a pattern may match one when its literal start and
`__key` agree as far as both go. -/
def hears_keys (channels : List String) (patterns : List Glob) : Bool :=
  channels.any (·.startsWith "__key") ||
    patterns.any fun p =>
      let start := literal_prefix_ p.source
      "__key".startsWith start || start.startsWith "__key"

structure Subscription where
  channels : List String
  patterns : List Glob
  /-- What the subscriber may receive; patterns never reach past it. -/
  scope : Scope
  /-- The messages waiting, and their bytes. -/
  queue : List Delivery
  waiting : Nat
  /-- Whether it may hear of key changes, worked out once rather than on every change. -/
  keys : Bool
  /-- Whether the subscriber is still connected. -/
  alive : Bool
  worked_out : keys = hears_keys channels patterns
  compiled : ∀ p ∈ patterns, p = Glob.new p.source

namespace Subscription

def new (channels patterns : List String) (scope : Scope) : Subscription where
  channels
  patterns := patterns.map Glob.new
  scope
  queue := []
  waiting := 0
  keys := hears_keys channels (patterns.map Glob.new)
  alive := true
  worked_out := rfl
  compiled := fun p hp => by
    obtain ⟨pattern, -, rfl⟩ := List.mem_map.mp hp
    rfl

/-- Sends one message; `none` when the subscriber is too slow to keep up. -/
def try_send (sub : Subscription) (d : Delivery) : Option Subscription :=
  if sub.waiting > 0 ∧ sub.waiting + d.size > SUBSCRIBER_BYTES then none
  else if sub.queue.length < SUBSCRIBER_BUFFER then
    some { sub with queue := sub.queue ++ [d], waiting := sub.waiting + d.size }
  else none

/-- How a message to `channel` reaches a subscription: directly, or by its patterns. -/
def ways (sub : Subscription) (channel : String) : List (Option String) :=
  (if sub.channels.any (· == channel) then [none] else []) ++
    (sub.patterns.filter fun p => p.matches_ channel).map fun p => some p.source

/-- Sends the message once each way, and counts. -/
def deliver (channel message : String) : List (Option String) → Nat → Subscription → Nat × Option Subscription
  | [], receivers, sub => (receivers, some sub)
  | pattern :: ways, receivers, sub =>
    match sub.try_send { channel, pattern, message } with
    | some sub => deliver channel message ways (receivers + 1) sub
    | none => (receivers, none)

/-- What publishing makes of one subscription, or `none` when it is dropped. -/
def hear (channel message : String) (sub : Subscription) : Nat × Option Subscription :=
  let key_change := channel.startsWith "__key"
  if !sub.alive then (0, none)
  else if (key_change && !sub.keys) || !sub.scope.can_receive channel message then (0, some sub)
  else sub.deliver channel message (sub.ways channel) 0

end Subscription

/-- Delivers to every matching subscription and returns how many received it. A
subscriber too slow to keep up is dropped. -/
def publish (channel message : String) : List Subscription → Nat × List Subscription
  | [] => (0, [])
  | sub :: channels =>
    let (heard, kept) := sub.hear channel message
    let (receivers, channels) := publish channel message channels
    (heard + receivers, kept.toList ++ channels)

/-- Publishes key changes to `__keyspace__:<key>` (the event name) and
`__keyevent__:<event>` (the key), only when someone listens for them. -/
def notify (channels : List Subscription) (events : List (String × String)) : List Subscription :=
  if !channels.any fun s => s.alive && s.keys then channels
  else
    events.foldl (fun channels (key, event) =>
      let (_, channels) := publish ("__keyspace__:" ++ key) event channels
      let (_, channels) := publish ("__keyevent__:" ++ event) key channels
      channels) channels

/-! ## What a message means to a subscription -/

namespace Subscription

/-- The deliveries of a message to a subscription: one if it names the channel and one for
each of its patterns that matches it, when its scope may receive the message. -/
def addressed (sub : Subscription) (channel message : String) : List Delivery :=
  if sub.scope.can_receive channel message then
    (if channel ∈ sub.channels then [{ channel, pattern := none, message }] else []) ++
      (sub.patterns.filter fun p => p.matches_ channel).map fun p =>
        { channel, pattern := some p.source, message }
  else []

/-- The deliveries of key changes. -/
def notified (sub : Subscription) (events : List (String × String)) : List Delivery :=
  events.flatMap fun (key, event) =>
    sub.addressed ("__keyspace__:" ++ key) event ++ sub.addressed ("__keyevent__:" ++ event) key

def receive (sub : Subscription) (ds : List Delivery) : Subscription :=
  { sub with queue := sub.queue ++ ds, waiting := sub.waiting + (ds.map Delivery.size).sum }

/-- There is room for `ds` within a subscription's limits. -/
structure Roomy (sub : Subscription) (ds : List Delivery) : Prop where
  buffer : sub.queue.length + ds.length ≤ SUBSCRIBER_BUFFER
  bytes : sub.waiting + (ds.map Delivery.size).sum ≤ SUBSCRIBER_BYTES

theorem receive_nil (sub : Subscription) : sub.receive [] = sub := by
  simp [receive]

theorem receive_append (sub : Subscription) (ds es : List Delivery) :
    sub.receive (ds ++ es) = (sub.receive ds).receive es := by
  simp [receive, Nat.add_assoc]

theorem Roomy.left {sub : Subscription} {ds es : List Delivery} (h : sub.Roomy (ds ++ es)) : sub.Roomy ds := by
  obtain ⟨hBuffer, hBytes⟩ := h
  rw [List.length_append] at hBuffer
  rw [List.map_append, List.sum_append] at hBytes
  exact ⟨by omega, by omega⟩

theorem Roomy.right {sub : Subscription} {ds es : List Delivery} (h : sub.Roomy (ds ++ es)) :
    (sub.receive ds).Roomy es := by
  obtain ⟨hBuffer, hBytes⟩ := h
  constructor
  · simpa [receive, Nat.add_assoc] using hBuffer
  · simpa [receive, Nat.add_assoc] using hBytes

/-! ## One subscription -/

theorem try_send_eq {sub : Subscription} {d : Delivery} (h : sub.Roomy [d]) :
    sub.try_send d = some (sub.receive [d]) := by
  obtain ⟨hBuffer, hBytes⟩ := h
  rw [List.length_singleton] at hBuffer
  rw [List.map_singleton, List.sum_singleton] at hBytes
  unfold try_send
  rw [if_neg (by omega), if_pos (by omega)]
  simp [receive]

theorem deliver_eq (channel message : String) (ways : List (Option String)) :
    ∀ (receivers : Nat) (sub : Subscription),
      sub.Roomy (ways.map fun pattern => { channel, pattern, message }) →
      sub.deliver channel message ways receivers =
        (receivers + ways.length, some (sub.receive (ways.map fun pattern => { channel, pattern, message }))) := by
  induction ways with
  | nil =>
    intro receivers sub _
    rw [List.map_nil, receive_nil]
    rfl
  | cons pattern ways ih =>
    intro receivers sub hRoomy
    rw [List.map_cons, ← @List.singleton_append Delivery] at hRoomy ⊢
    unfold deliver
    rw [try_send_eq hRoomy.left]
    dsimp only
    rw [ih _ _ hRoomy.right, receive_append, List.length_cons]
    congr 1
    omega

/-- A message's deliveries are the ways it comes. -/
theorem addressed_eq {sub : Subscription} {channel message : String}
    (hReceive : sub.scope.can_receive channel message = true) :
    sub.addressed channel message = (sub.ways channel).map fun pattern => { channel, pattern, message } := by
  unfold addressed ways
  rw [if_pos hReceive, List.map_append, List.map_map]
  congr 1
  have hNamed : (sub.channels.any (· == channel)) = true ↔ channel ∈ sub.channels := by
    rw [List.any_eq_true]
    exact ⟨fun ⟨named, hNamed, hEq⟩ => beq_iff_eq.mp hEq ▸ hNamed, fun h => ⟨channel, h, beq_self_eq_true _⟩⟩
  by_cases hChannel : channel ∈ sub.channels
  · rw [if_pos hChannel, if_pos (hNamed.mpr hChannel)]
    rfl
  · rw [if_neg hChannel, if_neg fun h => hChannel (hNamed.mp h)]
    rfl

/-- **What is passed over would have heard nothing.** Whatever a pattern is made of, a
channel it matches starts with its literal start, so that start and `__key` agree. -/
theorem hears_keys_sound (sub : Subscription) {channel : String} (hKey : channel.startsWith "__key" = true)
    (hKeys : sub.keys = false) : sub.ways channel = [] := by
  rw [sub.worked_out, hears_keys, Bool.or_eq_false_iff] at hKeys
  obtain ⟨hChannels, hPatterns⟩ := hKeys
  have hDirect : ¬ (sub.channels.any (· == channel)) = true := by
    rw [List.any_eq_true]
    rintro ⟨named, hNamed, hEq⟩
    rw [beq_iff_eq] at hEq
    rw [List.any_eq_false] at hChannels
    exact hChannels named hNamed (hEq ▸ hKey)
  have hNone : (sub.patterns.filter fun p => p.matches_ channel) = [] := by
    refine List.filter_eq_nil_iff.mpr fun p hp hMatches => ?_
    rw [List.any_eq_false] at hPatterns
    refine hPatterns p hp ?_
    rw [Bool.or_eq_true]
    refine startsWith_or ?_ hKey
    rw [sub.compiled p hp] at hMatches
    exact String.startsWith_string_iff.mpr (matches_start hMatches)
  unfold ways
  rw [if_neg hDirect, hNone]
  rfl

/-- **A subscription hears what is addressed to it.** -/
theorem hear_eq {sub : Subscription} {channel message : String} (hAlive : sub.alive = true)
    (hRoomy : sub.Roomy (sub.addressed channel message)) :
    sub.hear channel message =
      ((sub.addressed channel message).length, some (sub.receive (sub.addressed channel message))) := by
  unfold hear
  dsimp only
  rw [if_neg (by simp [hAlive])]
  by_cases hReceive : sub.scope.can_receive channel message = true
  · by_cases hOver : (channel.startsWith "__key" && !sub.keys) = true
    · rw [if_pos (by rw [hOver]; rfl)]
      obtain ⟨hKey, hKeys⟩ := Bool.and_eq_true_iff.mp hOver
      have hWays := hears_keys_sound sub hKey (by simpa using hKeys)
      rw [addressed_eq hReceive, hWays, List.map_nil, receive_nil]
      rfl
    · rw [if_neg (by simp only [hOver, hReceive]; decide)]
      rw [addressed_eq hReceive] at hRoomy ⊢
      rw [deliver_eq channel message _ 0 sub hRoomy, List.length_map, Nat.zero_add]
  · have hNothing : sub.addressed channel message = [] := if_neg hReceive
    rw [if_pos (by simp [hReceive]), hNothing, receive_nil]
    rfl

end Subscription

/-! ## All of them -/

variable {channels : List Subscription}

theorem publish_eq {channel message : String}
    (h : ∀ sub ∈ channels, sub.alive = true ∧ sub.Roomy (sub.addressed channel message)) :
    publish channel message channels =
      ((channels.map fun sub => (sub.addressed channel message).length).sum,
        channels.map fun sub => sub.receive (sub.addressed channel message)) := by
  induction channels with
  | nil => rfl
  | cons sub channels ih =>
    obtain ⟨hAlive, hRoomy⟩ := h sub List.mem_cons_self
    rw [publish, Subscription.hear_eq hAlive hRoomy, ih fun s hs => h s (List.mem_cons_of_mem _ hs)]
    rfl

theorem notify_loop (events : List (String × String)) :
    ∀ channels : List Subscription, (∀ sub ∈ channels, sub.alive = true ∧ sub.Roomy (sub.notified events)) →
      events.foldl (fun channels (key, event) =>
        let (_, channels) := publish ("__keyspace__:" ++ key) event channels
        let (_, channels) := publish ("__keyevent__:" ++ event) key channels
        channels) channels = channels.map fun sub => sub.receive (sub.notified events) := by
  -- on the events, with the channels free: each publication goes on from what the last left
  induction events with
  | nil =>
    intro channels _
    rw [List.foldl_nil]
    exact ((List.map_congr_left fun sub _ => sub.receive_nil).trans (List.map_id _)).symm
  | cons e events ih =>
    obtain ⟨key, event⟩ := e
    intro channels h
    -- one event is told twice, under its key and under its kind
    have hSplit : ∀ sub : Subscription, sub.notified ((key, event) :: events) =
        sub.addressed ("__keyspace__:" ++ key) event ++
          (sub.addressed ("__keyevent__:" ++ event) key ++ sub.notified events) := fun sub =>
      List.append_assoc ..
    have hRoomy := fun sub hsub => hSplit sub ▸ (h sub hsub).2
    rw [List.foldl_cons]
    dsimp only
    rw [publish_eq fun sub hsub => ⟨(h sub hsub).1, (hRoomy sub hsub).left⟩]
    dsimp only
    rw [publish_eq ?second]
    case second =>
      intro sub' hsub'
      obtain ⟨sub, hsub, rfl⟩ := List.mem_map.mp hsub'
      exact ⟨(h sub hsub).1, (hRoomy sub hsub).right.left⟩
    dsimp only
    rw [List.map_map, ih, List.map_map]
    -- whoever had room for all of it still has room for the rest
    rotate_left
    · intro sub' hsub'
      obtain ⟨sub, hsub, rfl⟩ := List.mem_map.mp hsub'
      exact ⟨(h sub hsub).1, (hRoomy sub hsub).right.right⟩
    refine List.map_congr_left fun sub _ => ?_
    rw [hSplit, Subscription.receive_append, Subscription.receive_append]
    rfl

/-- **Publishing reaches exactly the right subscriptions.** With room in their buffers, each
receives what is addressed to it and the count is how much that is; and of key changes
nothing is withheld, whether or not anyone seems to listen. -/
theorem publish_exact (channels : List Subscription) :
    (∀ channel message,
      (∀ sub ∈ channels, sub.alive = true ∧ sub.Roomy (sub.addressed channel message)) →
      publish channel message channels =
        ((channels.map fun sub => (sub.addressed channel message).length).sum,
          channels.map fun sub => sub.receive (sub.addressed channel message))) ∧
    ∀ events, (∀ sub ∈ channels, sub.alive = true ∧ sub.Roomy (sub.notified events)) →
      notify channels events = channels.map fun sub => sub.receive (sub.notified events) := by
  refine ⟨fun channel message => publish_eq, fun events h => ?_⟩
  unfold notify
  split
  · next hNone =>
    -- nobody hears of key changes
    have hNothing : ∀ sub ∈ channels, sub.notified events = [] := by
      intro sub hsub
      have hKeys : sub.keys = false := by
        have hAny : channels.any (fun s => s.alive && s.keys) = false := by simpa using hNone
        have hSub := List.any_eq_false.mp hAny sub hsub
        rw [(h sub hsub).1] at hSub
        simpa using hSub
      have hAddressed : ∀ channel message, channel.startsWith "__key" = true →
          sub.addressed channel message = [] := by
        intro channel message hKey
        by_cases hReceive : sub.scope.can_receive channel message = true
        · rw [Subscription.addressed_eq hReceive, Subscription.hears_keys_sound sub hKey hKeys, List.map_nil]
        · exact if_neg hReceive
      refine List.flatMap_eq_nil_iff.mpr fun (key, event) _ => ?_
      have hStarts : ∀ s t : String, s.toList = "__key".toList ++ t.toList → ∀ rest : String,
          (s ++ rest).startsWith "__key" = true := by
        intro s t hs rest
        rw [String.startsWith_string_iff, String.toList_append, hs, List.append_assoc]
        exact List.prefix_append _ _
      dsimp only
      rw [hAddressed _ _ (hStarts "__keyspace__:" "space__:" rfl _),
        hAddressed _ _ (hStarts "__keyevent__:" "event__:" rfl _)]
      rfl
    refine ((List.map_congr_left fun sub hsub => ?_).trans (List.map_id _)).symm
    rw [hNothing sub hsub, Subscription.receive_nil]
    rfl
  · exact notify_loop events channels h

/-- A subscription to a channel that a pattern of its own matches too; an agent's to everything;
and one to changes of keys. -/
theorem publish_exact_agent :
    let channels : List Subscription :=
      [.new ["jobs"] ["j*"] Scope.all, .new [] ["*"] (Scope.agent "ann"), .new [] ["__keyspace__:*"] Scope.all]
    let events := [("ann:x", "set"), ("bob:x", "del")]
    (publish "jobs" "go" channels).1 = 2 ∧
      (publish "jobs" "go" channels).2.map (fun sub => sub.queue.map Delivery.pattern) = [[none, some "j*"], [], []] ∧
      (notify channels events).map (fun sub => sub.queue.map Delivery.channel) =
        [[], ["__keyspace__:ann:x", "__keyevent__:set"], ["__keyspace__:ann:x", "__keyspace__:bob:x"]] := by
  intro channels events
  -- with nothing queued, room is a matter of what is sent alone
  have hRoom : (∀ sub ∈ channels, sub.alive = true ∧ (sub.queue = [] ∧ sub.waiting = 0) ∧
      ((sub.addressed "jobs" "go").length ≤ SUBSCRIBER_BUFFER ∧
        ((sub.addressed "jobs" "go").map Delivery.size).sum ≤ SUBSCRIBER_BYTES) ∧
      (sub.notified events).length ≤ SUBSCRIBER_BUFFER ∧
        ((sub.notified events).map Delivery.size).sum ≤ SUBSCRIBER_BYTES) := by
    decide +kernel +revert
  have hRoomy : ∀ sub ∈ channels, sub.alive = true ∧ sub.Roomy (sub.addressed "jobs" "go") ∧
      sub.Roomy (sub.notified events) := by
    intro sub hSub
    obtain ⟨hAlive, ⟨hQueue, hWaiting⟩, hMessage, hEvents⟩ := hRoom sub hSub
    refine ⟨hAlive, ⟨?_, ?_⟩, ?_, ?_⟩
    · rw [hQueue, List.length_nil, Nat.zero_add]
      exact hMessage.1
    · rw [hWaiting, Nat.zero_add]
      exact hMessage.2
    · rw [hQueue, List.length_nil, Nat.zero_add]
      exact hEvents.1
    · rw [hWaiting, Nat.zero_add]
      exact hEvents.2
  rw [(publish_exact channels).1 "jobs" "go" fun sub hSub => ⟨(hRoomy sub hSub).1, (hRoomy sub hSub).2.1⟩,
    (publish_exact channels).2 events fun sub hSub => ⟨(hRoomy sub hSub).1, (hRoomy sub hSub).2.2⟩]
  clear hRoom hRoomy
  decide +kernel +revert

end Postino
