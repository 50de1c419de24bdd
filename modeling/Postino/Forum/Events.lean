import Mathlib

/-!
# The event feed

Events are numbered one after another. The hub keeps the newest of them, and sends
each to the feeds it concerns; a subscription first replays what came after the
event its client has seen last. Nobody gets what concerned an earlier holder of
its name.

A feed's channel holds so many events; one that does not keep up is dropped.

* `send_all_sent` — what one event adds to every feed.
* `step_inv`, `run_inv` — the ring, the marks of the hand-overs and every feed,
  against all that was ever published.
* `feed_exact` — no gap, no duplicate, nothing of an earlier holder.
-/

namespace Postino.Forum

/-! ## The hub -/

/-- Events kept for replay. -/
def EVENT_HISTORY : Nat := 1000
/-- Events one feed may have waiting. -/
def SUBSCRIBER_BUFFER : Nat := 256

structure Event where
  id : Nat
  /-- Agents the event concerns; `none` means everyone (broadcasts). -/
  scope : Option (List String)
  json : String
  deriving DecidableEq

/-- The channel to one subscriber: what was taken from it, what waits in it, and
whether the subscriber is still there. -/
structure Feed where
  received : List Event := []
  waiting : List Event := []
  alive : Bool := true

structure Subscriber where
  /-- Which feed it sends to. -/
  feed : Nat
  agent : Option String
  deriving DecidableEq

def visible (event : Event) (agent : Option String) : Bool :=
  match agent with
  | none => true
  | some agent => event.scope.all fun scope => scope.contains agent

structure Events where
  next : Nat
  ring : List Event := []
  subscribers : List Subscriber := []
  /-- The first event id after a name last changed hands. -/
  handovers : String → Option Nat := fun _ => none
  /-- Every feed opened so far. -/
  feeds : List Feed := []

/-- Whether a channel takes one more. -/
def Feed.accepts (feed : Feed) : Bool := feed.alive && feed.waiting.length < SUBSCRIBER_BUFFER

def Feed.push (feed : Feed) (event : Event) : Feed :=
  { feed with waiting := feed.waiting ++ [event] }

/-- Sends an event to whom it concerns. A subscriber that has fallen behind, or
has left, is dropped. -/
def send_all (event : Event) : List Subscriber → List Feed → List Subscriber × List Feed
  | [], feeds => ([], feeds)
  | sub :: rest, feeds =>
    if !visible event sub.agent then
      let (kept, feeds) := send_all event rest feeds
      (sub :: kept, feeds)
    else
      match feeds[sub.feed]? with
      | some feed =>
        if feed.accepts then
          let (kept, feeds) := send_all event rest (feeds.set sub.feed (feed.push event))
          (sub :: kept, feeds)
        else send_all event rest feeds
      | none => send_all event rest feeds

namespace Events

/-- What `json` says of the event, with its id. -/
def publish_event (events : Events) (scope : Option (List String)) (json : Nat → String) :
    Event × Events :=
  let event : Event := { id := events.next, scope, json := json events.next }
  let ring := if events.ring.length = EVENT_HISTORY then events.ring.tail else events.ring
  let (subscribers, feeds) := send_all event events.subscribers events.feeds
  (event, { events with next := events.next + 1, ring := ring ++ [event], subscribers, feeds })

/-- Whether events between `after` and now are gone, or `after` is not one of
this server's. -/
def resyncs (events : Events) (after : Option Nat) : Bool :=
  match after, events.ring.head? with
  | some after, some oldest => after + 1 < oldest.id || events.next ≤ after
  | some after, none => after + 1 < events.next || events.next ≤ after
  | none, _ => false

/-- What is replayed after `after`, whether there is a gap, and the feed, which is
the last. -/
def subscribe (events : Events) (after : Option Nat) (agent : Option String) :
    (List Event × Bool) × Events :=
  let resync := events.resyncs after
  let since := (agent.bind events.handovers).getD 0
  let replay := match after with
    | some after =>
      if !resync then
        events.ring.filter fun e => e.id > after && since ≤ e.id && visible e agent
      else []
    | none => []
  -- those that left go first
  let present := events.subscribers.filter fun s => (events.feeds[s.feed]?).any Feed.alive
  let subscriber : Subscriber := { feed := events.feeds.length, agent }
  ((replay, resync),
    { events with subscribers := present ++ [subscriber], feeds := events.feeds ++ [{}] })

/-- `name` now belongs to someone else, or to nobody: its open event streams end,
and what happened under it before is not replayed. -/
def hand_over (events : Events) (name : String) : Events :=
  let oldest := (events.ring.head?).elim events.next Event.id
  let handovers := fun n => (events.handovers n).filter fun since => since > oldest
  { events with
    handovers := Function.update handovers name (some events.next)
    subscribers := events.subscribers.filter fun s => s.agent ≠ some name }

/-- The subscriber takes the next event waiting. -/
def recv (events : Events) (feed : Nat) : Events :=
  match events.feeds[feed]? with
  | some f =>
    match f.waiting with
    | event :: waiting =>
      { events with
        feeds := events.feeds.set feed { f with received := f.received ++ [event], waiting } }
    | [] => events
  | none => events

/-- The subscriber leaves. -/
def leave (events : Events) (feed : Nat) : Events :=
  match events.feeds[feed]? with
  | some f => { events with feeds := events.feeds.set feed { f with alive := false } }
  | none => events

end Events

/-! ## Histories -/

inductive Call where
  | publish (scope : Option (List String)) (json : Nat → String)
  | subscribe (after : Option Nat) (agent : Option String)
  | hand_over (name : String)
  | recv (feed : Nat)
  | leave (feed : Nat)

/-- A subscription: what was asked, what was answered, how many events had been
published, and the first event id its name may see. -/
structure Opening where
  after : Option Nat
  agent : Option String
  replay : List Event
  resync : Bool
  known : Nat
  since : Nat

/-- The hub, all that was ever published, the mark of each name's last hand-over,
and the subscriptions opened, one for each feed. -/
structure History where
  events : Events
  published : List Event := []
  marks : String → Nat := fun _ => 0
  opened : List Opening := []

namespace History

/-- The first event id that may concern whoever holds the name now. -/
def mark (h : History) (agent : Option String) : Nat := agent.elim 0 h.marks

def step (h : History) : Call → History
  | .publish scope json =>
    let (event, events) := h.events.publish_event scope json
    { h with events, published := h.published ++ [event] }
  | .subscribe after agent =>
    let ((replay, resync), events) := h.events.subscribe after agent
    { h with
      events
      opened := h.opened ++
        [{ after, agent, replay, resync, known := h.published.length, since := h.mark agent }] }
  | .hand_over name =>
    { h with
      events := h.events.hand_over name
      marks := Function.update h.marks name h.events.next }
  | .recv feed => { h with events := h.events.recv feed }
  | .leave feed => { h with events := h.events.leave feed }

def run (h : History) (calls : List Call) : History := calls.foldl step h

/-- Whether the hub still sends to the feed. -/
def attached (h : History) (feed : Nat) : Prop := ∃ s ∈ h.events.subscribers, s.feed = feed

end History

/-! ## Sending -/

/-- Whether a subscriber stays when an event is sent. -/
def takes (event : Event) (feeds : List Feed) (sub : Subscriber) : Bool :=
  !visible event sub.agent || (feeds[sub.feed]?).any Feed.accepts

/-- Whether an event reaches a feed. -/
def Reaches (event : Event) (subs : List Subscriber) (feeds : List Feed) (i : Nat) : Prop :=
  ∃ sub ∈ subs, sub.feed = i ∧ visible event sub.agent = true ∧
    (feeds[i]?).any Feed.accepts = true

/-- What one event does to the subscribers and to every feed. -/
structure Sent (event : Event) (subs : List Subscriber) (feeds : List Feed)
    (result : List Subscriber × List Feed) : Prop where
  subscribers : result.1 = subs.filter (takes event feeds)
  length : result.2.length = feeds.length
  reached : ∀ i, Reaches event subs feeds i → result.2[i]? = (feeds[i]?).map (·.push event)
  others : ∀ i, ¬ Reaches event subs feeds i → result.2[i]? = feeds[i]?

/-- A subscriber nothing is sent to. -/
theorem Sent.skip {event : Event} (sub : Subscriber) {subs : List Subscriber} {feeds : List Feed}
    {result : List Subscriber × List Feed} (h : Sent event subs feeds result)
    (hSkip : visible event sub.agent = false ∨ (feeds[sub.feed]?).any Feed.accepts = false) :
    Sent event (sub :: subs) feeds
      (if visible event sub.agent = false then (sub :: result.1, result.2) else result) := by
  -- whom the event reaches does not change by one it does not reach
  have hReaches : ∀ i, Reaches event (sub :: subs) feeds i ↔ Reaches event subs feeds i := by
    intro i
    constructor
    · rintro ⟨s, hs, hFeed, hVisible, hAccepts⟩
      rcases List.mem_cons.mp hs with rfl | hs
      · rcases hSkip with hHidden | hFull
        · simp [hHidden] at hVisible
        · rw [hFeed, hAccepts] at hFull
          cases hFull
      · exact ⟨s, hs, hFeed, hVisible, hAccepts⟩
    · rintro ⟨s, hs, hRest⟩
      exact ⟨s, List.mem_cons_of_mem _ hs, hRest⟩
  split
  · -- it is kept, as it was not shown the event
    next hHidden =>
    refine ⟨?_, h.length, fun i hi => h.reached i ((hReaches i).mp hi),
      fun i hi => h.others i fun hR => hi ((hReaches i).mpr hR)⟩
    rw [List.filter_cons_of_pos (by simp [takes, hHidden]), h.subscribers]
  · -- it was shown it and had no room: it is dropped
    next hShown =>
    have hFull := hSkip.resolve_left hShown
    refine ⟨?_, h.length, fun i hi => h.reached i ((hReaches i).mp hi),
      fun i hi => h.others i fun hR => hi ((hReaches i).mpr hR)⟩
    rw [List.filter_cons_of_neg (by simp [takes, hFull, hShown]), h.subscribers]

theorem send_all_sent (event : Event) (subs : List Subscriber) (feeds : List Feed)
    (hNodup : (subs.map Subscriber.feed).Nodup) :
    Sent event subs feeds (send_all event subs feeds) := by
  -- on the subscribers: feeds are distinct, so what one is sent leaves the others' as they were
  induction subs generalizing feeds with
  | nil => exact ⟨rfl, rfl, fun i ⟨_, h, _⟩ => absurd h List.not_mem_nil, fun _ _ => rfl⟩
  | cons sub subs ih =>
    obtain ⟨hHead, hTail⟩ := List.nodup_cons.mp hNodup
    unfold send_all
    by_cases hVisible : visible event sub.agent = true
    · have hShown : ¬ visible event sub.agent = false := by simp [hVisible]
      rw [if_neg (by simp [hVisible])]
      cases hFeed : feeds[sub.feed]? with
      | none =>
        have hSent := (ih feeds hTail).skip sub (.inr (by simp [hFeed]))
        rwa [if_neg hShown] at hSent
      | some feed =>
        dsimp only
        by_cases hAccepts : feed.accepts = true
        · rw [if_pos hAccepts]
          have hSent := ih (feeds.set sub.feed (feed.push event)) hTail
          -- the others' feeds are not this one
          have hOther : ∀ s ∈ subs, (feeds.set sub.feed (feed.push event))[s.feed]? = feeds[s.feed]? := by
            intro s hs
            refine List.getElem?_set_ne fun hEq => hHead ?_
            exact hEq ▸ List.mem_map_of_mem hs
          have hReaches : ∀ i, sub.feed ≠ i →
              (Reaches event (sub :: subs) feeds i ↔
                Reaches event subs (feeds.set sub.feed (feed.push event)) i) := by
            intro i hi
            unfold Reaches
            rw [List.getElem?_set_ne hi]
            constructor
            · rintro ⟨s, hs, hRest⟩
              rcases List.mem_cons.mp hs with rfl | hs
              · exact absurd hRest.1 hi
              · exact ⟨s, hs, hRest⟩
            · rintro ⟨s, hs, hRest⟩
              exact ⟨s, List.mem_cons_of_mem _ hs, hRest⟩
          have hNot : ¬ Reaches event subs (feeds.set sub.feed (feed.push event)) sub.feed := by
            rintro ⟨s, hs, hEq, -⟩
            exact hHead (hEq ▸ List.mem_map_of_mem hs)
          have hThis : Reaches event (sub :: subs) feeds sub.feed :=
            ⟨sub, List.mem_cons_self, rfl, hVisible, by simp [hFeed, hAccepts]⟩
          refine ⟨?_, ?_, fun i hi => ?_, fun i hi => ?_⟩
          · rw [List.filter_cons_of_pos (by simp [takes, hFeed, hAccepts])]
            refine congrArg (sub :: ·) (hSent.subscribers.trans (List.filter_congr fun s hs => ?_))
            unfold takes
            rw [hOther s hs]
          · exact hSent.length.trans (List.length_set ..)
          · by_cases hEq : sub.feed = i
            · subst hEq
              refine (hSent.others _ hNot).trans ?_
              rw [List.getElem?_set_self (List.getElem?_eq_some_iff.mp hFeed).1, hFeed]
              rfl
            · refine (hSent.reached i ((hReaches i hEq).mp hi)).trans ?_
              rw [List.getElem?_set_ne hEq]
          · have hEq : sub.feed ≠ i := by
              rintro rfl
              exact hi hThis
            refine (hSent.others i fun hR => hi ((hReaches i hEq).mpr hR)).trans ?_
            exact List.getElem?_set_ne hEq
        · rw [if_neg hAccepts]
          have hSent := (ih feeds hTail).skip sub (.inr (by simpa [hFeed] using hAccepts))
          rwa [if_neg hShown] at hSent
    · have hHidden : visible event sub.agent = false := by simpa using hVisible
      rw [if_pos (by simp [hHidden])]
      have hSent := (ih feeds hTail).skip sub (.inl hHidden)
      rwa [if_pos hHidden] at hSent

/-! ## What is known of a history -/

/-- The events a subscription may be given, of those published up to `m`. -/
def Opening.given (o : Opening) (after : Nat) (published : List Event) (m : Nat) : List Event :=
  (published.take m).filter fun e => after < e.id && o.since ≤ e.id && visible e o.agent

structure FeedInv (h : History) (i : Nat) (o : Opening) (feed : Feed) : Prop where
  known : o.known ≤ h.published.length
  /-- It was sent what concerned it, from its opening up to some point: up to now
  while it is attached. -/
  sent : ∃ m, o.known ≤ m ∧ m ≤ h.published.length ∧ (h.attached i → m = h.published.length) ∧
    feed.received ++ feed.waiting =
      ((h.published.take m).drop o.known).filter fun e => visible e o.agent
  /-- What came after its opening came after the hand-over before it. -/
  since : o.since ≤ h.events.next ∧ ∀ e ∈ h.published.drop o.known, o.since ≤ e.id
  none : o.after = none ∨ o.resync = true → o.replay = []
  replay : ∀ after, o.after = some after → o.resync = false →
    o.replay = o.given after h.published o.known ∧ after < h.events.next ∧
      ∀ e ∈ h.published.drop o.known, after < e.id

structure HistoryInv (h : History) : Prop where
  /-- The events are numbered without gaps, up to the next. -/
  ids : ∀ (i : Nat) e, h.published[i]? = some e → e.id + h.published.length = h.events.next + i
  ring : h.events.ring = h.published.drop (h.published.length - EVENT_HISTORY)
  marks : ∀ name, h.marks name ≤ h.events.next
  /-- A mark that was given up is before everything that is kept. -/
  handovers : ∀ name, h.events.handovers name = some (h.marks name) ∨
    (h.events.handovers name = none ∧ ∀ e ∈ h.events.ring, h.marks name ≤ e.id)
  length : h.events.feeds.length = h.opened.length
  subscribers : ∀ s ∈ h.events.subscribers, ∃ o, h.opened[s.feed]? = some o ∧ o.agent = s.agent
  nodup : (h.events.subscribers.map Subscriber.feed).Nodup
  feeds : ∀ (i : Nat) o feed, h.opened[i]? = some o → h.events.feeds[i]? = some feed →
    FeedInv h i o feed

section Steps

variable {h : History}

theorem HistoryInv.id_lt (hInv : HistoryInv h) {e : Event} (he : e ∈ h.published) :
    e.id < h.events.next := by
  obtain ⟨i, hi, rfl⟩ := List.mem_iff_getElem.mp he
  have hId := hInv.ids i _ (List.getElem?_eq_getElem hi)
  omega

theorem HistoryInv.sorted (hInv : HistoryInv h) : h.published.Pairwise fun a b => a.id < b.id := by
  rw [List.pairwise_iff_getElem]
  intro i j hi hj hij
  have hI := hInv.ids i _ (List.getElem?_eq_getElem hi)
  have hJ := hInv.ids j _ (List.getElem?_eq_getElem hj)
  omega

/-- A step that publishes nothing, and sends nothing, keeps what is known of a
feed. -/
theorem FeedInv.quiet {h' : History} {i : Nat} {o : Opening} {feed feed' : Feed}
    (hFeed : FeedInv h i o feed) (hPublished : h'.published = h.published)
    (hNext : h'.events.next = h.events.next) (hAttached : h'.attached i → h.attached i)
    (hSent : feed'.received ++ feed'.waiting = feed.received ++ feed.waiting) :
    FeedInv h' i o feed' where
  known := hPublished ▸ hFeed.known
  sent := by
    obtain ⟨m, hKnown, hLe, hAll, hEq⟩ := hFeed.sent
    rw [hPublished]
    exact ⟨m, hKnown, hLe, fun h => hAll (hAttached h), hSent.trans hEq⟩
  since := by
    rw [hPublished, hNext]
    exact hFeed.since
  none := hFeed.none
  replay := by
    rw [hPublished, hNext]
    exact hFeed.replay

theorem publish_feed {event : Event} {events : Events} {i : Nat} {o : Opening} {feed feed' : Feed}
    (hFeed : FeedInv h i o feed) (hId : event.id = h.events.next)
    (hNext : events.next = h.events.next + 1)
    (hSent : (events.subscribers.any (·.feed = i)) → (h.attached i ∧
      feed'.received ++ feed'.waiting =
        feed.received ++ feed.waiting ++ [event].filter fun e => visible e o.agent))
    (hDropped : ¬ (events.subscribers.any (·.feed = i)) →
      feed'.received ++ feed'.waiting = feed.received ++ feed.waiting) :
    FeedInv { h with events, published := h.published ++ [event] } i o feed' where
  known := hFeed.known.trans (by simp)
  sent := by
    obtain ⟨m, hKnown, hLe, hAll, hEq⟩ := hFeed.sent
    by_cases hStays : events.subscribers.any (·.feed = i)
    · -- still sent to: it had taken all there was, and takes this one too
      obtain ⟨hAttached, hNew⟩ := hSent hStays
      obtain rfl := hAll hAttached
      refine ⟨(h.published ++ [event]).length, by simp; omega, le_rfl, fun _ => rfl, ?_⟩
      rw [List.take_length] at hEq ⊢
      rw [hNew, hEq, List.drop_append_of_le_length hFeed.known, List.filter_append]
    · -- given up before, or now: it stays at what it had been sent
      -- no longer sent to: it stays at what it had been sent
      refine ⟨m, hKnown, hLe.trans (by simp), fun hAttached => absurd ?_ hStays, ?_⟩
      · obtain ⟨s, hs, hi⟩ := hAttached
        exact List.any_eq_true.mpr ⟨s, hs, by simpa using hi⟩
      · show _ = (((h.published ++ [event]).take m).drop o.known).filter _
        rw [hDropped hStays, hEq, List.take_append_of_le_length hLe]
  since := by
    obtain ⟨hSince, hLater⟩ := hFeed.since
    refine ⟨?_, fun e he => ?_⟩
    · show o.since ≤ events.next
      omega
    · have he : e ∈ (h.published ++ [event]).drop o.known := he
      rw [List.drop_append_of_le_length hFeed.known] at he
      rcases List.mem_append.mp he with he | he
      · exact hLater e he
      · obtain rfl := List.mem_singleton.mp he
        exact hId ▸ hSince
  none := hFeed.none
  replay := by
    intro after hAfter hResync
    obtain ⟨hReplay, hLt, hLater⟩ := hFeed.replay after hAfter hResync
    refine ⟨?_, ?_, fun e he => ?_⟩
    · rw [hReplay]
      unfold Opening.given
      rw [List.take_append_of_le_length hFeed.known]
    · show after < events.next
      omega
    · have he : e ∈ (h.published ++ [event]).drop o.known := he
      rw [List.drop_append_of_le_length hFeed.known] at he
      rcases List.mem_append.mp he with he | he
      · exact hLater e he
      · obtain rfl := List.mem_singleton.mp he
        exact hId ▸ hLt

/-- **An event is published.** -/
theorem publish_inv (hInv : HistoryInv h) (scope : Option (List String)) (json : Nat → String) :
    HistoryInv (h.step (.publish scope json)) := by
  set event : Event := { id := h.events.next, scope, json := json h.events.next } with hEvent
  have hSent := send_all_sent event h.events.subscribers h.events.feeds hInv.nodup
  set result := send_all event h.events.subscribers h.events.feeds with hResult
  set events : Events := { h.events with
    next := h.events.next + 1
    ring := (if h.events.ring.length = EVENT_HISTORY then h.events.ring.tail else h.events.ring) ++
      [event]
    subscribers := result.1
    feeds := result.2 } with hEvents
  have hStep : h.step (.publish scope json) = { h with events, published := h.published ++ [event] } :=
    rfl
  rw [hStep]
  -- the ring drops its oldest only when it is full
  have hRing : events.ring =
      (h.published ++ [event]).drop ((h.published ++ [event]).length - EVENT_HISTORY) := by
    show (if h.events.ring.length = EVENT_HISTORY then h.events.ring.tail else h.events.ring) ++
      [event] = _
    have hHistory : 0 < EVENT_HISTORY := by decide
    rw [hInv.ring, List.length_drop, List.length_append, List.length_singleton,
      List.drop_append_of_le_length (by omega)]
    split
    · rw [List.tail_drop]
      exact congrArg (fun n => h.published.drop n ++ [event]) (by omega)
    · exact congrArg (fun n => h.published.drop n ++ [event]) (by omega)
  refine
    { ids := fun i e he => ?_
      ring := hRing
      marks := fun name => (hInv.marks name).trans (Nat.le_succ _)
      handovers := fun name => ?_
      length := hSent.length.trans hInv.length
      subscribers := fun s hs => ?_
      nodup := ?_
      feeds := fun i o feed' ho hFeed' => ?_ }
  · have he : (h.published ++ [event])[i]? = some e := he
    show e.id + (h.published ++ [event]).length = h.events.next + 1 + i
    rw [List.length_append, List.length_singleton]
    rcases Nat.lt_or_ge i h.published.length with hi | hi
    · rw [List.getElem?_append_left hi] at he
      have := hInv.ids i e he
      omega
    · rw [List.getElem?_append_right hi] at he
      obtain ⟨hLt, rfl⟩ := List.getElem?_eq_some_iff.mp he
      have hZero : i - h.published.length = 0 := by simpa using hLt
      simp only [hZero, List.getElem_cons_zero]
      show h.events.next + _ = _
      omega
  · rcases hInv.handovers name with hKept | ⟨hNone, hOlder⟩
    · exact .inl hKept
    · refine .inr ⟨hNone, fun e he => ?_⟩
      have he : e ∈ (if h.events.ring.length = EVENT_HISTORY then h.events.ring.tail
        else h.events.ring) ++ [event] := he
      rcases List.mem_append.mp he with he | he
      · refine hOlder e ?_
        split at he
        · exact List.mem_of_mem_tail he
        · exact he
      · obtain rfl := List.mem_singleton.mp he
        exact hInv.marks name
  · have hs : s ∈ result.1 := hs
    rw [hSent.subscribers] at hs
    exact hInv.subscribers s (List.mem_filter.mp hs).1
  · show (result.1.map Subscriber.feed).Nodup
    rw [hSent.subscribers]
    exact hInv.nodup.sublist (List.filter_sublist.map _)
  · have hFeed' : result.2[i]? = some feed' := hFeed'
    -- the one subscriber of a feed is the agent that opened it
    have hOwner : ∀ s ∈ h.events.subscribers, s.feed = i → s.agent = o.agent := by
      intro s hs hi
      obtain ⟨o', ho', hAgent⟩ := hInv.subscribers s hs
      have ho : h.opened[i]? = some o := ho
      rw [hi, ho] at ho'
      cases ho'
      exact hAgent.symm
    by_cases hReaches : Reaches event h.events.subscribers h.events.feeds i
    · rw [hSent.reached i hReaches] at hFeed'
      obtain ⟨feed, hFeed, rfl⟩ := Option.map_eq_some_iff.mp hFeed'
      obtain ⟨s, hs, hi, hVisible, hAccepts⟩ := hReaches
      have hStays : events.subscribers.any (·.feed = i) = true := by
        refine List.any_eq_true.mpr ⟨s, ?_, by simpa using hi⟩
        show s ∈ result.1
        rw [hSent.subscribers]
        exact List.mem_filter.mpr ⟨hs, by simp [takes, hi, hAccepts]⟩
      refine publish_feed (hInv.feeds i o feed ho hFeed) rfl rfl (fun _ => ⟨⟨s, hs, hi⟩, ?_⟩)
        fun hNot => absurd hStays hNot
      rw [hOwner s hs hi] at hVisible
      rw [show [event].filter (fun e => visible e o.agent) = [event] by simp [hVisible]]
      exact (List.append_assoc ..).symm
    · rw [hSent.others i hReaches] at hFeed'
      refine publish_feed (hInv.feeds i o feed' ho hFeed') rfl rfl (fun hStays => ?_) fun _ => rfl
      obtain ⟨s, hs, hi⟩ := List.any_eq_true.mp hStays
      have hi : s.feed = i := by simpa using hi
      have hs : s ∈ result.1 := hs
      rw [hSent.subscribers] at hs
      obtain ⟨hs, hTakes⟩ := List.mem_filter.mp hs
      refine ⟨⟨s, hs, hi⟩, ?_⟩
      -- it stays and gets nothing, so it is not shown the event
      have hHidden : visible event s.agent = false := by
        by_contra hVisible
        have hVisible : visible event s.agent = true := by simpa using hVisible
        refine hReaches ⟨s, hs, hi, hVisible, ?_⟩
        rw [← hi]
        simpa [takes, hVisible] using hTakes
      rw [hOwner s hs hi] at hHidden
      rw [show [event].filter (fun e => visible e o.agent) = [] by simp [hHidden]]
      exact (List.append_nil _).symm

/-- The first event kept. -/
theorem HistoryInv.oldest (hInv : HistoryInv h) {oldest : Event}
    (hOldest : h.events.ring.head? = some oldest) :
    oldest.id + (h.published.length - (h.published.length - EVENT_HISTORY)) = h.events.next ∧
      ∀ e ∈ h.events.ring, oldest.id ≤ e.id := by
  rw [hInv.ring] at hOldest ⊢
  rw [List.head?_drop] at hOldest
  have hId := hInv.ids _ _ hOldest
  refine ⟨by omega, fun e he => ?_⟩
  obtain ⟨i, hi, rfl⟩ := List.mem_iff_getElem.mp he
  rw [List.getElem_drop]
  rw [List.length_drop] at hi
  have hIndex : h.published.length - EVENT_HISTORY + i < h.published.length := by omega
  have hE := hInv.ids _ _ (List.getElem?_eq_getElem hIndex)
  omega

/-- Without a gap, the ring has everything after `after`. -/
theorem HistoryInv.ring_has (hInv : HistoryInv h) {after : Nat}
    (hResync : h.events.resyncs (some after) = false) :
    after < h.events.next ∧ ∀ e ∈ h.published, after < e.id → e ∈ h.events.ring := by
  have hHistory : 0 < EVENT_HISTORY := by decide
  unfold Events.resyncs at hResync
  cases hOldest : h.events.ring.head? with
  | none =>
    rw [hOldest] at hResync
    obtain ⟨-, hNext⟩ := Bool.or_eq_false_iff.mp hResync
    refine ⟨by simpa using hNext, fun e he _ => ?_⟩
    -- nothing kept means that nothing was published
    have hEmpty := List.head?_eq_none_iff.mp hOldest
    rw [hInv.ring, List.drop_eq_nil_iff] at hEmpty
    have hLength := List.length_pos_of_mem he
    omega
  | some oldest =>
    rw [hOldest] at hResync
    obtain ⟨hOld, hNext⟩ := Bool.or_eq_false_iff.mp hResync
    have hOld : oldest.id ≤ after + 1 := by simpa using hOld
    refine ⟨by simpa using hNext, fun e he hAfter => ?_⟩
    obtain ⟨hFirst, -⟩ := hInv.oldest hOldest
    obtain ⟨j, hj, rfl⟩ := List.mem_iff_getElem.mp he
    have hId := hInv.ids j _ (List.getElem?_eq_getElem hj)
    rw [hInv.ring]
    refine List.mem_iff_getElem.mpr ⟨j - (h.published.length - EVENT_HISTORY), ?_, ?_⟩
    · rw [List.length_drop]
      omega
    · have hIndex : h.published.length - EVENT_HISTORY +
          (j - (h.published.length - EVENT_HISTORY)) = j := by omega
      rw [List.getElem_drop]
      simp only [hIndex]

/-- **What a subscription replays.** -/
theorem subscribe_replay (hInv : HistoryInv h) (after : Nat) (agent : Option String)
    (hResync : h.events.resyncs (some after) = false) :
    (h.events.ring.filter fun e => e.id > after &&
      (agent.bind h.events.handovers).getD 0 ≤ e.id && visible e agent) =
      h.published.filter fun e => after < e.id && h.mark agent ≤ e.id && visible e agent := by
  obtain ⟨-, hHas⟩ := hInv.ring_has hResync
  -- the mark kept for a name tells apart what is in the ring as its last hand-over does
  have hMark : ∀ e ∈ h.events.ring,
      decide ((agent.bind h.events.handovers).getD 0 ≤ e.id) = decide (h.mark agent ≤ e.id) := by
    intro e he
    cases agent with
    | none => rfl
    | some name =>
      show decide ((h.events.handovers name).getD 0 ≤ e.id) = decide (h.marks name ≤ e.id)
      rcases hInv.handovers name with hKept | ⟨hNone, hOlder⟩
      · rw [hKept]
        rfl
      · rw [hNone]
        simp [hOlder e he]
  have hRing : h.events.ring.filter (fun e => e.id > after &&
        (agent.bind h.events.handovers).getD 0 ≤ e.id && visible e agent) =
      h.events.ring.filter fun e => after < e.id && h.mark agent ≤ e.id && visible e agent := by
    refine List.filter_congr fun e he => ?_
    rw [hMark e he]
  rw [hRing]
  -- what the ring has forgotten is not after `after`
  have hSplit := List.take_append_drop (h.published.length - EVENT_HISTORY) h.published
  rw [← hInv.ring] at hSplit
  conv_rhs => rw [← hSplit]
  have hForgotten : (h.published.take (h.published.length - EVENT_HISTORY)).filter
      (fun e => after < e.id && h.mark agent ≤ e.id && visible e agent) = [] := by
    refine List.filter_eq_nil_iff.mpr fun e he hGiven => ?_
    have hAfter : after < e.id := by
      simp only [Bool.and_eq_true, decide_eq_true_eq] at hGiven
      exact hGiven.1.1
    have hIn := hHas e (List.mem_of_mem_take he) hAfter
    rw [hInv.ring] at hIn
    obtain ⟨i, hi, hEqI⟩ := List.mem_iff_getElem.mp he
    obtain ⟨j, hj, hEqJ⟩ := List.mem_iff_getElem.mp hIn
    rw [List.getElem_take] at hEqI
    rw [List.getElem_drop] at hEqJ
    rw [List.length_take] at hi
    rw [List.length_drop] at hj
    have hI := hInv.ids i _ (List.getElem?_eq_getElem (by omega))
    have hJ := hInv.ids (h.published.length - EVENT_HISTORY + j) _
      (List.getElem?_eq_getElem (by omega))
    rw [hEqI] at hI
    rw [hEqJ] at hJ
    omega
  rw [List.filter_append, hForgotten, List.nil_append]

/-- What a subscription opened now is told. -/
def History.opening (h : History) (after : Option Nat) (agent : Option String) : Opening :=
  let ((replay, resync), _) := h.events.subscribe after agent
  { after, agent, replay, resync, known := h.published.length, since := h.mark agent }

/-- A feed just opened. -/
theorem HistoryInv.opened (hInv : HistoryInv h) (after : Option Nat) (agent : Option String) :
    FeedInv (h.step (.subscribe after agent)) h.opened.length (h.opening after agent) {} where
  known := le_rfl
  sent := by
    refine ⟨h.published.length, le_rfl, le_rfl, fun _ => rfl, ?_⟩
    show [] = ((h.published.take h.published.length).drop h.published.length).filter _
    rw [List.take_length, List.drop_length]
    rfl
  since := by
    refine ⟨?_, ?_⟩
    · show h.mark agent ≤ h.events.next
      cases agent with
      | none => exact Nat.zero_le _
      | some name => exact hInv.marks name
    · show ∀ e ∈ h.published.drop h.published.length, _
      rw [List.drop_length]
      exact fun e he => absurd he List.not_mem_nil
  none := by
    intro hNone
    cases after with
    | none => rfl
    | some after =>
      have hResync : h.events.resyncs (some after) = true := by
        rcases hNone with hNone | hResync
        · cases (show some after = none from hNone)
        · exact hResync
      show (if !h.events.resyncs (some after) then _ else []) = []
      exact if_neg (by simp [hResync])
  replay := by
    intro a hAfter hResync
    have hAfter : after = some a := hAfter
    subst hAfter
    -- no gap: what the ring has from `after` on is replayed
    have hResync : h.events.resyncs (some a) = false := hResync
    refine ⟨?_, (hInv.ring_has hResync).1, ?_⟩
    · show (if !h.events.resyncs (some a) then _ else []) =
        (h.published.take h.published.length).filter _
      rw [if_pos (by simp [hResync]), List.take_length]
      exact subscribe_replay hInv a agent hResync
    · show ∀ e ∈ h.published.drop h.published.length, _
      rw [List.drop_length]
      exact fun e he => absurd he List.not_mem_nil

/-- **A subscription is opened.** -/
theorem subscribe_inv (hInv : HistoryInv h) (after : Option Nat) (agent : Option String) :
    HistoryInv (h.step (.subscribe after agent)) := by
  -- feeds are numbered as they are opened, so the new one is nobody else's
  have hPresent : ∀ s ∈ h.events.subscribers, s.feed < h.events.feeds.length := by
    intro s hs
    obtain ⟨o, ho, -⟩ := hInv.subscribers s hs
    exact hInv.length ▸ (List.getElem?_eq_some_iff.mp ho).1
  refine
    { ids := hInv.ids
      ring := hInv.ring
      marks := hInv.marks
      handovers := hInv.handovers
      length := ?_
      subscribers := fun s hs => ?_
      nodup := ?_
      feeds := fun i o feed ho hFeed => ?_ }
  · show (h.events.feeds ++ [({} : Feed)]).length = (h.opened ++ [h.opening after agent]).length
    rw [List.length_append, List.length_append, hInv.length]
    rfl
  · show ∃ o, (h.opened ++ [h.opening after agent])[s.feed]? = some o ∧ o.agent = s.agent
    rcases List.mem_append.mp hs with hs | hs
    · obtain ⟨o, ho, hAgent⟩ := hInv.subscribers s (List.mem_filter.mp hs).1
      exact ⟨o, by rw [List.getElem?_append_left (List.getElem?_eq_some_iff.mp ho).1]; exact ho,
        hAgent⟩
    · obtain rfl := List.mem_singleton.mp hs
      refine ⟨h.opening after agent, ?_, rfl⟩
      show (h.opened ++ [h.opening after agent])[h.events.feeds.length]? = _
      rw [hInv.length]
      exact List.getElem?_concat_length
  · show ((h.events.subscribers.filter _ ++ [_]).map Subscriber.feed).Nodup
    rw [List.map_append, List.nodup_append]
    refine ⟨hInv.nodup.sublist (List.filter_sublist.map _), List.nodup_singleton _, ?_⟩
    intro i hi j hj
    obtain ⟨s, hs, rfl⟩ := List.mem_map.mp hi
    obtain rfl : j = h.events.feeds.length := by simpa using hj
    exact (hPresent s (List.mem_filter.mp hs).1).ne
  · have ho : (h.opened ++ [h.opening after agent])[i]? = some o := ho
    have hFeed : (h.events.feeds ++ [({} : Feed)])[i]? = some feed := hFeed
    rcases Nat.lt_or_ge i h.opened.length with hi | hi
    · rw [List.getElem?_append_left hi] at ho
      rw [List.getElem?_append_left (hInv.length ▸ hi)] at hFeed
      refine (hInv.feeds i o feed ho hFeed).quiet rfl rfl (fun hAttached => ?_) rfl
      obtain ⟨s, hs, hEq⟩ := hAttached
      rcases List.mem_append.mp hs with hs | hs
      · exact ⟨s, (List.mem_filter.mp hs).1, hEq⟩
      · obtain rfl := List.mem_singleton.mp hs
        have hEq : h.events.feeds.length = i := hEq
        have hLength := hInv.length
        omega
    · -- the one just opened
      obtain ⟨hLt, rfl⟩ := List.getElem?_eq_some_iff.mp ho
      obtain rfl : i = h.opened.length := by
        rw [List.length_append, List.length_singleton] at hLt
        omega
      rw [← hInv.length, List.getElem?_concat_length] at hFeed
      cases hFeed
      rw [List.getElem_concat_length rfl]
      exact hInv.opened after agent

/-- **A name changes hands.** -/
theorem hand_over_inv (hInv : HistoryInv h) (name : String) :
    HistoryInv (h.step (.hand_over name)) := by
  have hMarks : ∀ n, (h.step (.hand_over name)).marks n =
      if n = name then h.events.next else h.marks n := fun n => Function.update_apply ..
  -- marks the ring no longer reaches back to are given up
  have hHandovers : ∀ n, (h.events.hand_over name).handovers n = if n = name then some h.events.next
      else (h.events.handovers n).filter
        fun since => since > (h.events.ring.head?).elim h.events.next Event.id := by
    intro n
    exact Function.update_apply (fun n => (h.events.handovers n).filter
      fun since => since > (h.events.ring.head?).elim h.events.next Event.id) name _ n
  refine
    { ids := hInv.ids
      ring := hInv.ring
      marks := fun n => ?_
      handovers := fun n => ?_
      length := hInv.length
      subscribers := fun s hs => hInv.subscribers s (List.mem_filter.mp hs).1
      nodup := hInv.nodup.sublist (List.filter_sublist.map _)
      feeds := fun i o feed ho hFeed => ?_ }
  · show _ ≤ h.events.next
    rw [hMarks n]
    split
    · exact le_rfl
    · exact hInv.marks n
  · show (h.events.hand_over name).handovers n = some _ ∨
      ((h.events.hand_over name).handovers n = none ∧ ∀ e ∈ h.events.ring, _ ≤ e.id)
    rw [hMarks n, hHandovers n]
    by_cases hName : n = name
    · rw [if_pos hName, if_pos hName]
      exact .inl rfl
    · rw [if_neg hName, if_neg hName]
      rcases hInv.handovers n with hKept | ⟨hNone, hOlder⟩
      · rw [hKept]
        by_cases hNewer : h.marks n > (h.events.ring.head?).elim h.events.next Event.id
        · exact .inl (by simp [hNewer])
        · -- it is given up, since the ring has nothing older
          refine .inr ⟨by simpa using hNewer, fun e he => ?_⟩
          cases hOldest : h.events.ring.head? with
          | none =>
            rw [List.head?_eq_none_iff.mp hOldest] at he
            exact absurd he List.not_mem_nil
          | some oldest =>
            rw [hOldest] at hNewer
            exact (Nat.not_lt.mp hNewer).trans ((hInv.oldest hOldest).2 e he)
      · rw [hNone]
        exact .inr ⟨rfl, hOlder⟩
  · refine (hInv.feeds i o feed ho hFeed).quiet rfl rfl (fun hAttached => ?_) rfl
    obtain ⟨s, hs, hEq⟩ := hAttached
    exact ⟨s, (List.mem_filter.mp hs).1, hEq⟩

/-- **A feed is replaced by one that was sent the same.** -/
theorem HistoryInv.set_feed (hInv : HistoryInv h) {i : Nat} {feed feed' : Feed}
    (hFeed : h.events.feeds[i]? = some feed)
    (hSent : feed'.received ++ feed'.waiting = feed.received ++ feed.waiting) :
    HistoryInv { h with events := { h.events with feeds := h.events.feeds.set i feed' } } where
  ids := hInv.ids
  ring := hInv.ring
  marks := hInv.marks
  handovers := hInv.handovers
  length := (List.length_set ..).trans hInv.length
  subscribers := hInv.subscribers
  nodup := hInv.nodup
  feeds := fun j o feed'' ho hFeed'' => by
    have hFeed'' : (h.events.feeds.set i feed')[j]? = some feed'' := hFeed''
    by_cases hEq : i = j
    · subst hEq
      rw [List.getElem?_set_self (List.getElem?_eq_some_iff.mp hFeed).1] at hFeed''
      cases hFeed''
      exact (hInv.feeds i o feed ho hFeed).quiet rfl rfl id hSent
    · rw [List.getElem?_set_ne hEq] at hFeed''
      exact (hInv.feeds j o feed'' ho hFeed'').quiet rfl rfl id rfl

theorem recv_inv (hInv : HistoryInv h) (feed : Nat) : HistoryInv (h.step (.recv feed)) := by
  show HistoryInv { h with events := h.events.recv feed }
  unfold Events.recv
  cases hFeed : h.events.feeds[feed]? with
  | none => exact hInv
  | some f =>
    cases hWaiting : f.waiting with
    | nil =>
      dsimp only
      rw [hWaiting]
      exact hInv
    | cons event waiting =>
      dsimp only
      rw [hWaiting]
      refine hInv.set_feed hFeed ?_
      rw [hWaiting, List.append_assoc]
      rfl

theorem leave_inv (hInv : HistoryInv h) (feed : Nat) : HistoryInv (h.step (.leave feed)) := by
  show HistoryInv { h with events := h.events.leave feed }
  unfold Events.leave
  cases hFeed : h.events.feeds[feed]? with
  | none => exact hInv
  | some f => exact hInv.set_feed hFeed rfl

/-- **Every call keeps what is known of a history.** -/
theorem step_inv (hInv : HistoryInv h) (call : Call) : HistoryInv (h.step call) := by
  cases call with
  | publish scope json => exact publish_inv hInv scope json
  | subscribe after agent => exact subscribe_inv hInv after agent
  | hand_over name => exact hand_over_inv hInv name
  | recv feed => exact recv_inv hInv feed
  | leave feed => exact leave_inv hInv feed

/-- The calls after which the hub may no longer send to a feed: its name changes
hands, it is shown an event it does not take, or it has left. -/
def Detaches (h : History) (i : Nat) (o : Opening) : Call → Prop
  | .publish scope json =>
    visible (h.events.publish_event scope json).1 o.agent = true ∧
      (h.events.feeds[i]?).any Feed.accepts = false
  | .subscribe _ _ => (h.events.feeds[i]?).any Feed.alive = false
  | .hand_over name => o.agent = some name
  | .recv _ => False
  | .leave _ => False

/-- **When the hub stops sending to a feed.** -/
theorem detached (hInv : HistoryInv h) {i : Nat} {o : Opening} (ho : h.opened[i]? = some o)
    (hBefore : h.attached i) (call : Call) (hAfter : ¬ (h.step call).attached i) :
    Detaches h i o call := by
  obtain ⟨s, hs, rfl⟩ := hBefore
  have hAgent : s.agent = o.agent := by
    obtain ⟨o', ho', hAgent⟩ := hInv.subscribers s hs
    rw [ho] at ho'
    cases ho'
    exact hAgent.symm
  cases call with
  -- it left the subscribers because it had no room
  | publish scope json =>
    have hSent := send_all_sent (h.events.publish_event scope json).1 h.events.subscribers
      h.events.feeds hInv.nodup
    have hGone : ¬ takes (h.events.publish_event scope json).1 h.events.feeds s = true := by
      intro hTakes
      refine hAfter ⟨s, ?_, rfl⟩
      show s ∈ (send_all (h.events.publish_event scope json).1 h.events.subscribers
        h.events.feeds).1
      rw [hSent.subscribers]
      exact List.mem_filter.mpr ⟨hs, hTakes⟩
    show visible _ o.agent = true ∧ _
    rw [← hAgent]
    simpa [takes] using hGone
  | subscribe after agent =>
    show (h.events.feeds[s.feed]?).any Feed.alive = false
    by_contra hAlive
    have hAlive : (h.events.feeds[s.feed]?).any Feed.alive = true := by simpa using hAlive
    exact hAfter ⟨s, List.mem_append_left _ (List.mem_filter.mpr ⟨hs, hAlive⟩), rfl⟩
  | hand_over name =>
    show o.agent = some name
    by_contra hOther
    rw [← hAgent] at hOther
    exact hAfter ⟨s, List.mem_filter.mpr ⟨hs, by simpa using hOther⟩, rfl⟩
  -- taking an event, or leaving, does not touch the subscribers
  | recv feed =>
    refine hAfter ⟨s, ?_, rfl⟩
    show s ∈ (h.events.recv feed).subscribers
    unfold Events.recv
    split
    · split
      · exact hs
      · exact hs
    · exact hs
  | leave feed =>
    refine hAfter ⟨s, ?_, rfl⟩
    show s ∈ (h.events.leave feed).subscribers
    unfold Events.leave
    split
    · exact hs
    · exact hs

end Steps

/-! ## Every history -/

/-- A hub that has published nothing. -/
def History.new (start : Nat) : History := { events := { next := start } }

theorem new_inv (start : Nat) : HistoryInv (History.new start) where
  ids := fun i e he => by cases he
  ring := List.drop_nil.symm
  marks := fun _ => Nat.zero_le _
  handovers := fun _ => .inr ⟨rfl, fun e he => absurd he List.not_mem_nil⟩
  length := rfl
  subscribers := fun s hs => absurd hs List.not_mem_nil
  nodup := List.nodup_nil
  feeds := fun i o feed ho => by cases ho

theorem run_inv {h : History} (hInv : HistoryInv h) (calls : List Call) :
    HistoryInv (h.run calls) := by
  induction calls generalizing h with
  | nil => exact hInv
  | cons call calls ih => exact ih (step_inv hInv call)

/-- What a subscription has been given: what was replayed to it, what it took from
its feed and what waits there. -/
def told (o : Opening) (feed : Feed) : List Event := o.replay ++ (feed.received ++ feed.waiting)

/-- What every subscription can rely on. -/
structure FeedExact (h : History) (i : Nat) (o : Opening) (feed : Feed) : Prop where
  /-- A gap is told, never skipped. -/
  resync : o.resync = true → o.replay = []
  /-- What is replayed is all there was. -/
  replay : ∀ after, o.after = some after → o.resync = false →
    o.replay = o.given after h.published o.known
  /-- With what its feed delivers, each event once, up to where the feed ended. -/
  exact : ∀ after, o.after = some after → o.resync = false →
    ∃ m, o.known ≤ m ∧ m ≤ h.published.length ∧ (h.attached i → m = h.published.length) ∧
      told o feed = o.given after h.published m
  /-- Ids go up, so nothing comes twice. -/
  increasing : (told o feed).Pairwise fun a b => a.id < b.id
  /-- Nothing of an earlier holder of the name. -/
  holder : ∀ e ∈ told o feed, o.since ≤ e.id ∧ visible e o.agent = true

theorem HistoryInv.exact {h : History} (hInv : HistoryInv h) {i : Nat} {o : Opening} {feed : Feed}
    (ho : h.opened[i]? = some o) (hFeed : h.events.feeds[i]? = some feed) :
    FeedExact h i o feed := by
  have hKnown := hInv.feeds i o feed ho hFeed
  obtain ⟨m, hLow, hHigh, hAll, hSent⟩ := hKnown.sent
  -- without a replay, what is told is what was sent
  have hDelivered : o.replay = [] →
      told o feed = ((h.published.take m).drop o.known).filter fun e => visible e o.agent := by
    intro hReplay
    show o.replay ++ (feed.received ++ feed.waiting) = _
    rw [hReplay, hSent, List.nil_append]
  have hExact : ∀ after, o.after = some after → o.resync = false →
      told o feed = o.given after h.published m := by
    intro after hAfter hResync
    obtain ⟨hReplay, -, hLater⟩ := hKnown.replay after hAfter hResync
    show o.replay ++ (feed.received ++ feed.waiting) = _
    -- what was replayed, and what was sent since, are one stretch of what was published
    have hSplit : h.published.take m =
        h.published.take o.known ++ (h.published.take m).drop o.known := by
      conv_lhs => rw [← List.take_append_drop o.known (h.published.take m)]
      rw [List.take_take, Nat.min_eq_left hLow]
    rw [hReplay, hSent]
    show _ = (h.published.take m).filter _
    conv_rhs => rw [hSplit, List.filter_append]
    refine congrArg _ (List.filter_congr fun e he => ?_)
    have hIn : e ∈ h.published.drop o.known := by
      rw [List.drop_take] at he
      exact List.mem_of_mem_take he
    simp [hLater e hIn, hKnown.since.2 e hIn]
  have hCases : o.replay = [] ∨ ∃ after, o.after = some after ∧ o.resync = false := by
    cases hAfter : o.after with
    | none => exact .inl (hKnown.none (.inl hAfter))
    | some after =>
      cases hResync : o.resync with
      | true => exact .inl (hKnown.none (.inr hResync))
      | false => exact .inr ⟨after, rfl, rfl⟩
  refine
    { resync := fun hResync => hKnown.none (.inr hResync)
      replay := fun after hAfter hResync => (hKnown.replay after hAfter hResync).1
      exact := fun after hAfter hResync => ⟨m, hLow, hHigh, hAll, hExact after hAfter hResync⟩
      increasing := ?_
      holder := fun e he => ?_ }
  · rcases hCases with hNone | ⟨after, hAfter, hResync⟩
    · rw [hDelivered hNone]
      exact hInv.sorted.sublist (List.filter_sublist.trans
        ((List.drop_sublist ..).trans (List.take_sublist ..)))
    · rw [hExact after hAfter hResync]
      exact hInv.sorted.sublist (List.filter_sublist.trans (List.take_sublist ..))
  · rcases hCases with hNone | ⟨after, hAfter, hResync⟩
    · rw [hDelivered hNone] at he
      obtain ⟨he, hVisible⟩ := List.mem_filter.mp he
      rw [List.drop_take] at he
      exact ⟨hKnown.since.2 e (List.mem_of_mem_take he), hVisible⟩
    · rw [hExact after hAfter hResync] at he
      have hGiven := (List.mem_filter.mp he).2
      simp only [Bool.and_eq_true, decide_eq_true_eq] at hGiven
      exact ⟨hGiven.1.2, hGiven.2⟩

/-- **The feed has no gap, no duplicate and no leak.** Whatever number the hub
starts from and whatever is published, subscribed, handed over, taken and left: the
events published have increasing ids, every subscription is told exactly what it may
be, and the hub stops sending to a feed only when its name changes hands, when it has
fallen behind or when it has left. -/
theorem feed_exact (start : Nat) (calls : List Call) :
    ((History.new start).run calls).published.Pairwise (fun a b => a.id < b.id) ∧
    (∀ name e, e ∈ ((History.new start).run calls).published →
      e.id < (((History.new start).run calls).step (.hand_over name)).mark (some name)) ∧
    (∀ (i : Nat) o feed, ((History.new start).run calls).opened[i]? = some o →
      ((History.new start).run calls).events.feeds[i]? = some feed →
      FeedExact ((History.new start).run calls) i o feed) ∧
    (∀ after agent, (((History.new start).run calls).step (.subscribe after agent)).attached
      ((History.new start).run calls).opened.length) ∧
    (∀ (i : Nat) o call, ((History.new start).run calls).opened[i]? = some o →
      ((History.new start).run calls).attached i →
      ¬ (((History.new start).run calls).step call).attached i →
      Detaches ((History.new start).run calls) i o call) := by
  have hInv := run_inv (new_inv start) calls
  generalize (History.new start).run calls = h at hInv
  refine ⟨hInv.sorted, fun name e he => ?_, fun i o feed => hInv.exact, fun after agent => ?_,
    fun i o call ho hBefore hAfter => detached hInv ho hBefore call hAfter⟩
  · show e.id < Function.update h.marks name h.events.next name
    rw [Function.update_self]
    exact hInv.id_lt he
  · exact ⟨{ feed := h.events.feeds.length, agent },
      List.mem_append_right _ (List.mem_singleton_self _), hInv.length⟩

/-- ann's name changes hands: who had it is told nothing more, who has it now nothing from
before. -/
theorem feed_exact_handed_over :
    let event (scope : Option (List String)) : Call := .publish scope fun _ => "{}"
    let h := (History.new 5).run
      [event none, event (some ["ann"]), .subscribe (some 5) (some "ann"), event (some ["bob"]), event (some ["ann"]),
        .recv 0, .hand_over "ann", event (some ["ann"]), .subscribe (some 5) (some "ann")]
    (∃ o feed, h.opened[0]? = some o ∧ h.events.feeds[0]? = some feed ∧ FeedExact h 0 o feed ∧
      (told o feed).map Event.id = [6, 8]) ∧
    ∃ o feed, h.opened[1]? = some o ∧ h.events.feeds[1]? = some feed ∧ FeedExact h 1 o feed ∧
      (told o feed).map Event.id = [9] := by
  intro event h
  have hTold (i : Nat) (hI : i < 2) :
      (h.opened[i]?.bind fun o => h.events.feeds[i]?.map fun feed => (told o feed).map Event.id) =
        some (if i = 0 then [6, 8] else [9]) := by
    decide +kernel +revert
  have hGiven (i : Nat) (hI : i < 2) : ∃ o feed, h.opened[i]? = some o ∧ h.events.feeds[i]? = some feed ∧
      FeedExact h i o feed ∧ (told o feed).map Event.id = if i = 0 then [6, 8] else [9] := by
    obtain ⟨o, hO, hFeeds⟩ := Option.bind_eq_some_iff.mp (hTold i hI)
    obtain ⟨feed, hFeed, hIds⟩ := Option.map_eq_some_iff.mp hFeeds
    exact ⟨o, feed, hO, hFeed, (feed_exact 5 _).2.2.1 i o feed hO hFeed, hIds⟩
  exact ⟨hGiven 0 (by decide), hGiven 1 (by decide)⟩

end Postino.Forum
