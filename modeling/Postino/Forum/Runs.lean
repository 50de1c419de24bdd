import Postino.Lib.Cursor
import Postino.Forum.Ids

/-!
# Runs of operations

Whatever is asked of the forum, one thing after another: what each operation did, the
reads among them apart.

* `perform_did` — what one operation did.
* `run_ran` — what a whole run did.
* `Watch` — how one agent reads something; `Follows.run` — over a run, it is given
  each item once.
-/

namespace Postino.Forum

open Lib Fallible

/-! ## Runs of operations -/

/-- One operation that is asked for, when, and the bytes then in use. -/
structure Asked where
  op : Operation
  now : Fin (2 ^ 64)
  memory : Nat := 0

namespace Core

def perform (core : Core) (asked : Asked) : Core :=
  (asked.op.perform asked.now { core with memory := asked.memory }).2

/-- The core after some operations, one after another. -/
def run (core : Core) (asked : List Asked) : Core := asked.foldl perform core

end Core

/-- What became of a core in a run: some effects were journaled, each of which an
operation may write, and applied. -/
def Ran (core core' : Core) : Prop :=
  ∃ effects, core'.journaled = core.journaled ++ effects ∧
    Wrote (fun store effect => ∃ now, MayWrite now store effect) True core.store effects core'.store

section Runs

variable {core core' : Core}

theorem Ran.refl (core : Core) : Ran core core := ⟨[], (List.append_nil _).symm, .nothing⟩

theorem Ran.trans {core'' : Core} (h : Ran core core') (h' : Ran core' core'') : Ran core core'' := by
  obtain ⟨effects, hJournaled, hWrote⟩ := h
  obtain ⟨effects', hJournaled', hWrote'⟩ := h'
  exact ⟨effects ++ effects', by rw [hJournaled', hJournaled, List.append_assoc], hWrote.trans hWrote'⟩

theorem Ran.orderly (h : Ran core core') (hOrderly : Orderly core.store) : Orderly core'.store := by
  obtain ⟨effects, -, hWrote⟩ := h
  exact hWrote.keeps (fun _ _ _ ⟨_, hMay⟩ h => h.apply hMay)
    (fun _ _ h => ⟨h.messages, h.rooms, h.broadcasts, h.agents⟩) (fun _ agent at_ h => h.see agent at_)
    hOrderly

theorem see_last_id (store : Store) (agent : String) (at_ : Nat) :
    (store.see agent at_).last_id = store.last_id := by
  unfold Store.see
  cases store.agents[agent]? <;> rfl

theorem see_rooms (store : Store) (agent : String) (at_ : Nat) :
    (store.see agent at_).rooms = store.rooms := by
  unfold Store.see
  cases store.agents[agent]? <;> rfl

/-- Ids only grow. -/
theorem Wrote.last_id {Allowed : Store → Effect → Prop} {Seen : Prop} {store store' : Store}
    {effects : List Effect} (h : Wrote Allowed Seen store effects store') : store.last_id ≤ store'.last_id :=
  h.keeps (P := fun store' => store.last_id ≤ store'.last_id)
    (fun store effect _ _ h => h.trans (apply_last_id store effect)) (fun _ _ h => h)
    (fun store agent at_ h => h.trans (see_last_id store agent at_).ge) le_rfl

theorem Ran.last_id (h : Ran core core') : core.store.last_id ≤ core'.store.last_id := by
  obtain ⟨effects, -, hWrote⟩ := h
  exact hWrote.last_id

/-! ## What the reads do -/

/-- The rounds of a read once the page is full. -/
theorem read_posts_full {agent : String} {limit : Nat} (range : List (Id × Post)) {items : List Post}
    (hFull : items.length = limit) (last : Option Id) (remaining : Nat) :
    read_posts agent limit range items last remaining =
      (items, last, remaining + ((range.map Prod.snd).filter fun p => p.from_ ≠ agent).length) := by
  induction range generalizing remaining with
  | nil => rfl
  | cons e range ih =>
    obtain ⟨id, post⟩ := e
    rw [read_posts, if_pos hFull, ih]
    by_cases hOwn : post.from_ = agent
    · simp [hOwn]
    · simp [hOwn, Nat.add_assoc, Nat.add_comm 1]

/-- A read passes the posts up to some point and counts those after it. -/
theorem read_posts_split (agent : String) (limit : Nat) (range : List (Id × Post)) (items : List Post)
    (last : Option Id) : ∃ seen rest, range = seen ++ rest ∧
      read_posts agent limit range items last 0 =
        (items ++ (seen.map Prod.snd).filter fun p => p.from_ ≠ agent,
          (seen.getLast?.map Prod.fst).or last,
          ((rest.map Prod.snd).filter fun p => p.from_ ≠ agent).length) := by
  induction range generalizing items last with
  | nil => exact ⟨[], [], rfl, by simp [read_posts]⟩
  | cons e range ih =>
    by_cases hFull : items.length = limit
    · refine ⟨[], e :: range, rfl, ?_⟩
      rw [read_posts_full _ hFull, Nat.zero_add]
      simp
    · obtain ⟨id, post⟩ := e
      obtain ⟨seen, rest, rfl, hRead⟩ := ih (if post.from_ ≠ agent then items ++ [post] else items) (some id)
      refine ⟨(id, post) :: seen, rest, rfl, ?_⟩
      rw [read_posts, if_neg hFull, hRead]
      refine Prod.ext ?_ (Prod.ext ?_ rfl)
      · by_cases hOwn : post.from_ = agent
        · simp [hOwn]
        · simp [hOwn]
      · cases seen with
        | nil => rfl
        | cons e seen => simp [List.getLast?_cons]

/-- Who may read the room `name` as `agent`, and up to where it has. -/
def Store.read_up_to (store : Store) (name agent : String) : Option (Option Id) :=
  ((store.rooms[name]?).bind fun r => r.members[agent]?).map Member.cursor

theorem read_up_to_eq {store : Store} {name agent : String} {c : Option Id}
    (h : store.read_up_to name agent = some c) :
    ∃ r member, store.rooms[name]? = some r ∧ r.members[agent]? = some member ∧ member.cursor = c := by
  obtain ⟨member, hMember, hc⟩ := Option.map_eq_some_iff.mp h
  obtain ⟨r, hRoom, hMember⟩ := Option.bind_eq_some_iff.mp hMember
  exact ⟨r, member, hRoom, hMember, hc⟩

/-- A commit, and what it leaves when it fails. -/
theorem commit_cases (effect : Effect) (core : Core) :
    (∃ core', commit effect core = (.ok (), core') ∧ core'.store = core.store.apply effect ∧
      core'.journaled = core.journaled ++ [effect]) ∨
    ∃ e core', commit effect core = (.error e, core') ∧ core'.store = core.store ∧
      core'.journaled = core.journaled := by
  cases hRefusal : core.refusal with
  | none => exact .inl (commit_taken hRefusal effect)
  | some text => exact .inr ⟨_, commit_refused hRefusal effect⟩

/-- **A page of a room**: the posts by others among those it passes, past the cursor,
which moves to the last of them. What a read that fails leaves is what was there. -/
theorem read_room_cases (name agent : String) (limit : Nat) (core : Core) :
    (∃ e, (read_room name agent limit core).1 = .error e ∧
      (read_room name agent limit core).2.store = core.store ∧
      (read_room name agent limit core).2.journaled = core.journaled) ∨
    ∃ r member seen rest, core.store.rooms[name]? = some r ∧ r.members[agent]? = some member ∧
      (r.posts.toList.filter fun p => member.cursor.all fun c => p.1 > c) = seen ++ rest ∧
      (read_room name agent limit core).1 =
        .ok ((seen.map Prod.snd).filter (fun p => p.from_ ≠ agent),
          ((rest.map Prod.snd).filter fun p => p.from_ ≠ agent).length) ∧
      (seen.getLast? = none → (read_room name agent limit core).2 = core) ∧
      ∀ last, seen.getLast? = some last →
        (read_room name agent limit core).2.store =
          core.store.apply (.RoomCursor name agent last.1) ∧
        (read_room name agent limit core).2.journaled =
          core.journaled ++ [.RoomCursor name agent last.1] := by
  cases hRoom : core.store.rooms[name]? with
  | none =>
    have hNone : read_room name agent limit core =
        (.error (.NotFound s!"unknown room {debug name}"), core) := by
      unfold read_room
      refine bind_of_error ?_
      unfold room
      rw [bind_of_ok (show (read : Op Core) core = (.ok core, core) from rfl), hRoom]
      rfl
    rw [hNone]
    exact .inl ⟨_, rfl, rfl, rfl⟩
  | some r =>
    have hFound : room name core = (.ok r, core) := by
      unfold room
      rw [bind_of_ok (show (read : Op Core) core = (.ok core, core) from rfl), hRoom]
      rfl
    unfold read_room
    rw [bind_of_ok hFound]
    cases hMember : r.members[agent]? with
    | none => exact .inl ⟨_, rfl, rfl, rfl⟩
    | some member =>
      dsimp only
      -- a page of the posts past the cursor, and how many are left
      obtain ⟨seen, rest, hSplit, hRead⟩ := read_posts_split agent limit
        (r.posts.toList.filter fun p => member.cursor.all fun c => p.1 > c) [] none
      rw [hRead]
      dsimp only
      rw [List.nil_append, Option.or_none]
      cases hLast : seen.getLast? with
      | none =>
        refine .inr ⟨r, member, seen, rest, rfl, hMember, hSplit, rfl, fun _ => rfl, ?_⟩
        rw [hLast]
        rintro last ⟨⟩
      | some last =>
        dsimp only [Option.map_some]
        rcases commit_cases (.RoomCursor name agent last.1) core with
          ⟨core', hCommit, hDone⟩ | ⟨e, core', hCommit, hSame⟩
        · rw [bind_of_ok hCommit]
          refine .inr ⟨r, member, seen, rest, rfl, hMember, hSplit, rfl, ?_, ?_⟩
          · rw [hLast]
            rintro ⟨⟩
          · rw [hLast]
            rintro _ ⟨⟩
            exact hDone
        · rw [bind_of_error hCommit]
          exact .inl ⟨e, rfl, hSame⟩

/-- **A read of the broadcasts**: those past the cursor by others, or all; the cursor
moves to the newest that is there, if it is to. -/
theorem read_broadcasts_cases (agent : String) (all advance : Bool) (core : Core) :
    (∃ e, (read_broadcasts agent all advance core).1 = .error e ∧
      (read_broadcasts agent all advance core).2.store = core.store ∧
      (read_broadcasts agent all advance core).2.journaled = core.journaled) ∨
    (∃ total, (read_broadcasts agent all advance core).1 =
        .ok ((core.store.broadcasts.toList.map Prod.snd).filter fun b => all ||
          (((core.store.agents[agent]?).bind Agent.cursor).all (fun c => b.id > c) && b.from_ ≠ agent),
          total)) ∧
      (core.store.broadcasts.toList.getLast? = none → (read_broadcasts agent all advance core).2 = core) ∧
      ∀ newest, core.store.broadcasts.toList.getLast? = some newest →
        if advance && core.store.agents.contains agent &&
            (core.store.agents[agent]?).bind Agent.cursor ≠ some newest.1 then
          (read_broadcasts agent all advance core).2.store = core.store.apply (.Cursor agent newest.1) ∧
          (read_broadcasts agent all advance core).2.journaled =
            core.journaled ++ [.Cursor agent newest.1]
        else (read_broadcasts agent all advance core).2 = core := by
  unfold read_broadcasts
  rw [bind_of_ok (show (read : Op Core) core = (.ok core, core) from rfl)]
  dsimp only
  cases hLast : core.store.broadcasts.toList.getLast? with
  | none => exact .inr ⟨⟨_, rfl⟩, fun _ => rfl, by rintro _ ⟨⟩⟩
  | some newest =>
    obtain ⟨newest, b⟩ := newest
    dsimp only
    split
    · next hMoves =>
      rcases commit_cases (.Cursor agent newest) core with
        ⟨core', hCommit, hDone⟩ | ⟨e, core', hCommit, hSame⟩
      · rw [bind_of_ok hCommit]
        refine .inr ⟨⟨_, rfl⟩, by rintro ⟨⟩, ?_⟩
        rintro _ ⟨⟩
        rw [if_pos hMoves]
        exact hDone
      · rw [bind_of_error hCommit]
        exact .inl ⟨e, rfl, hSame⟩
    · next hStill =>
      refine .inr ⟨⟨_, rfl⟩, by rintro ⟨⟩, ?_⟩
      rintro _ ⟨⟩
      rw [if_neg hStill]
      rfl

/-- What is read of a room is in it. -/
theorem seen_in_room {r : Room} {cursor : Option Id} {seen rest : List (Id × Post)}
    (hSplit : (r.posts.toList.filter fun p => cursor.all fun c => p.1 > c) = seen ++ rest)
    {e : Id × Post} (he : e ∈ seen ++ rest) : r.posts[e.1]? = some e.2 ∧ Past cursor e.1 := by
  rw [← hSplit] at he
  obtain ⟨hMem, hPast⟩ := List.mem_filter.mp he
  refine ⟨(BTreeMap.mem_toList _ _ _).mp hMem, ?_⟩
  rintro c rfl
  simpa using hPast

theorem discard_core {α : Type} (m : Op α) (core : Core) : (discard m core).2 = (m core).2 := by
  unfold discard
  rcases hResult : m core with ⟨e | a, core'⟩
  · rw [bind_of_error hResult]
  · rw [bind_of_ok hResult]
    rfl

/-- What a read of what is unread writes. -/
inductive Read : Operation → Effect → Prop
  | room (name agent : String) (limit : Nat) (id : Id) :
    Read (.read_room name agent limit) (.RoomCursor name agent id)
  | broadcasts (agent : String) (all : Bool) (id : Id) :
    Read (.read_broadcasts agent all true) (.Cursor agent id)

/-- What one operation did, whichever it was. -/
inductive Did (now : Fin (2 ^ 64)) (core core' : Core) : Operation → Prop
  | wrote {op : Operation} (effects : List Effect) (hRead : op.is_read = false)
      (hJournaled : core'.journaled = core.journaled ++ effects)
      (hWrote : Wrote (Writable now .all) True core.store effects core'.store) : Did now core core' op
  | read {op : Operation} (effect : Effect) (hUpTo : ReadUpTo core.store effect)
      (hRead : Read op effect) (hJournaled : core'.journaled = core.journaled ++ [effect])
      (hStore : core'.store = core.store.apply effect) : Did now core core' op
  | nothing {op : Operation} (hJournaled : core'.journaled = core.journaled)
      (hStore : core'.store = core.store) : Did now core core' op

theorem perform_did (hOrderly : Orderly core.store) (op : Operation) (now : Fin (2 ^ 64)) :
    Did now core (op.perform now core).2 op := by
  cases hRead : op.is_read with
  | false =>
    obtain ⟨effects, h⟩ := (perform_writes op hRead now core).traced
    exact .wrote effects hRead h.journaled
      (h.wrote.mono (fun _ _ => Writable.all) fun _ => trivial)
  -- the two reads move a cursor, or nothing
  | true =>
    cases op with
    | read_room name agent limit =>
      show Did now core (discard (read_room name agent limit) core).2 _
      rw [discard_core]
      rcases read_room_cases name agent limit core with ⟨e, -, hStore, hJournaled⟩ |
        ⟨r, member, seen, rest, hRoom, -, hSplit, -, hAfter⟩
      · exact .nothing hJournaled hStore
      · cases hLast : seen.getLast? with
        | none =>
          rw [hAfter.1 hLast]
          exact .nothing rfl rfl
        | some last =>
          obtain ⟨hStore, hJournaled⟩ := hAfter.2 last hLast
          have hMem : last ∈ seen ++ rest := List.mem_append_left _ (List.mem_of_getLast? hLast)
          have hUpTo := (hOrderly.rooms name r hRoom).posts _ _ (seen_in_room hSplit hMem).1
          exact .read (.RoomCursor name agent last.1) hUpTo.2 (.room name agent limit last.1) hJournaled hStore
    | read_broadcasts agent all advance =>
      show Did now core (discard (read_broadcasts agent all advance) core).2 _
      rw [discard_core]
      rcases read_broadcasts_cases agent all advance core with ⟨e, -, hStore, hJournaled⟩ | ⟨-, hAfter⟩
      · exact .nothing hJournaled hStore
      · cases hLast : core.store.broadcasts.toList.getLast? with
        | none =>
          rw [hAfter.1 hLast]
          exact .nothing rfl rfl
        | some newest =>
          replace hAfter := hAfter.2 newest hLast
          split at hAfter
          · next hMoves =>
            obtain ⟨hStore, hJournaled⟩ := hAfter
            obtain ⟨id, b⟩ := newest
            have hStored := (BTreeMap.mem_toList _ _ _).mp (List.mem_of_getLast? hLast)
            have hAdvance : advance = true := by
              cases advance with
              | true => rfl
              | false => simp at hMoves
            subst hAdvance
            exact .read (.Cursor agent id) (hOrderly.broadcasts id b hStored).2 (.broadcasts agent all id)
              hJournaled hStore
          · rw [hAfter]
            exact .nothing rfl rfl
    | _ => cases hRead

theorem Did.ran {now : Fin (2 ^ 64)} {op : Operation} (h : Did now core core' op) : Ran core core' := by
  cases h with
  | wrote effects _ hJournaled hWrote =>
    exact ⟨effects, hJournaled, hWrote.mono (fun _ _ h => ⟨now, .inl h⟩) id⟩
  | read effect hUpTo _ hJournaled hStore =>
    refine ⟨[effect], hJournaled, ?_⟩
    rw [hStore]
    exact Wrote.nothing.effect ⟨now, .inr hUpTo⟩
  | nothing hJournaled hStore =>
    refine ⟨[], hJournaled.trans (List.append_nil _).symm, ?_⟩
    rw [hStore]
    exact .nothing

/-- **What a whole run did.** -/
theorem run_ran (asked : List Asked) (hOrderly : Orderly core.store) : Ran core (core.run asked) := by
  induction asked generalizing core with
  | nil => exact .refl core
  | cons a asked ih =>
    have hFirst : Ran core (core.perform a) :=
      (@perform_did { core with memory := a.memory } hOrderly a.op a.now).ran
    exact hFirst.trans (ih (hFirst.orderly hOrderly))

theorem run_append (core : Core) (before rest : List Asked) :
    core.run (before ++ rest) = (core.run before).run rest := List.foldl_append

end Runs

/-- The effects journaled since. -/
def Core.since (core core' : Core) : List Effect := core'.journaled.drop core.journaled.length

theorem since_eq {core core' : Core} {effects : List Effect}
    (h : core'.journaled = core.journaled ++ effects) : core.since core' = effects := by
  unfold Core.since
  rw [h, List.drop_left]

theorem run_since {core : Core} (hOrderly : Orderly core.store) (before rest : List Asked) :
    core.since (core.run (before ++ rest)) =
      core.since (core.run before) ++ (core.run before).since (core.run (before ++ rest)) := by
  obtain ⟨effects, hJournaled, -⟩ := run_ran before hOrderly
  obtain ⟨effects', hJournaled', -⟩ := run_ran rest ((run_ran before hOrderly).orderly hOrderly)
  rw [run_append, since_eq hJournaled, since_eq hJournaled']
  rw [hJournaled, List.append_assoc] at hJournaled'
  exact since_eq hJournaled'

/-! ## Reading along -/

/-- How an agent reads something: which items there are for it, and how far it has
read, as long as it may read at all; which effects bring items, which take it away and
which move it on. -/
structure Watch where
  items : Store → Set Id
  cursor : Store → Option (Option Id)
  brings : Effect → Set Id
  leaves : Effect → Bool
  moves : Effect → Prop
  keeps_cursor : ∀ {now store effect c}, Writable now .all store effect ∨ (ReadUpTo store effect ∧ ¬ moves effect) →
    leaves effect = false → cursor store = some c → cursor (store.apply effect) = some c
  keeps_items : ∀ {now store effect c}, MayWrite now store effect → leaves effect = false →
    cursor store = some c → (store.apply effect).last_id ≠ .MAX → ∀ id ∈ items (store.apply effect),
      id ∈ items store ∨ (store.last_id < id ∧ id ≤ (store.apply effect).last_id)
  brings_new : ∀ {now store effect}, MayWrite now store effect →
    (store.apply effect).last_id ≠ .MAX → ∀ id ∈ brings effect, store.last_id < id
  /-- Presence is nothing to it. -/
  sessions : ∀ store sessions, items { store with sessions } = items store ∧
    cursor { store with sessions } = cursor store
  see : ∀ store agent at_, items (store.see agent at_) = items store ∧
    cursor (store.see agent at_) = cursor store

/-- What a page over a run comes to, one operation after another. -/
def pages {α : Type} (page : Core → Asked → List α) : Core → List Asked → List α
  | _, [] => []
  | core, a :: asked => page core a ++ pages page (core.perform a) asked

theorem pages_append {α : Type} (page : Core → Asked → List α) (core : Core)
    (before rest : List Asked) :
    pages page core (before ++ rest) = pages page core before ++ pages page (core.run before) rest := by
  induction before generalizing core with
  | nil => rfl
  | cons a before ih =>
    show page core a ++ pages page (core.perform a) (before ++ rest) = _
    rw [ih]
    exact (List.append_assoc _ _ _).symm

theorem pages_map {α β : Type} (f : α → β) (page : Core → Asked → List α) (core : Core)
    (asked : List Asked) :
    pages (fun core a => (page core a).map f) core asked = (pages page core asked).map f := by
  induction asked generalizing core with
  | nil => rfl
  | cons a asked ih =>
    show (page core a).map f ++ pages _ (core.perform a) asked = _
    rw [ih]
    exact List.map_append.symm

theorem mem_pages {α : Type} {page : Core → Asked → List α} {P : α → Prop}
    (h : ∀ core a, ∀ x ∈ page core a, P x) (core : Core) (asked : List Asked) :
    ∀ x ∈ pages page core asked, P x := by
  induction asked generalizing core with
  | nil => exact List.forall_mem_nil _
  | cons a asked ih => exact List.forall_mem_append.mpr ⟨h core a, ih (core.perform a)⟩

namespace Watch

/-- The ids of what `effects` brought. -/
def brought (w : Watch) (effects : List Effect) : Set Id := {id | ∃ effect ∈ effects, id ∈ w.brings effect}

/-- A reader: of those items unread at first and those that came `since`, it was
`given` some. -/
structure Follows (w : Watch) (first : Set Id) (store : Store) (since : List Effect)
    (given : List Id) : Prop where
  orderly : Orderly store
  reading : ∃ c, w.cursor store = some c ∧
    Lib.Reading store.last_id (w.items store) (first ∪ w.brought since) c given

variable {w : Watch} {first : Set Id} {store : Store} {since : List Effect} {given : List Id}

/-- What others write. -/
theorem Follows.applied (h : w.Follows first store since given) {now : Fin (2 ^ 64)} {effect : Effect}
    (hMay : Writable now .all store effect ∨ (ReadUpTo store effect ∧ ¬ w.moves effect))
    (hStays : w.leaves effect = false) (hIds : (store.apply effect).last_id ≠ .MAX) :
    w.Follows first (store.apply effect) (since ++ [effect]) given := by
  have hMay' : MayWrite now store effect := hMay.imp_right And.left
  obtain ⟨c, hCursor, hReading⟩ := h.reading
  refine ⟨h.orderly.apply hMay', c, w.keeps_cursor hMay hStays hCursor, ?_⟩
  refine hReading.go_on (apply_last_id store effect) (w.keeps_items hMay' hStays hCursor hIds)
    fun id hId => ?_
  rcases hId with hFirst | ⟨e, he, hId⟩
  · exact .inl (.inl hFirst)
  · rcases List.mem_append.mp he with hOld | hNew
    · exact .inl (.inr ⟨e, hOld, hId⟩)
    · obtain rfl := List.mem_singleton.mp hNew
      exact .inr (w.brings_new hMay' hIds id hId)

theorem Follows.wrote (h : w.Follows first store since given) {now : Fin (2 ^ 64)} {store' : Store}
    {effects : List Effect} (hWrote : Wrote (Writable now .all) True store effects store')
    (hStays : ∀ effect ∈ effects, w.leaves effect = false) (hIds : store'.last_id ≠ .MAX) :
    w.Follows first store' (since ++ effects) given := by
  induction hWrote with
  | nothing =>
    rw [List.append_nil]
    exact h
  | effect _ hAllowed ih =>
    rw [← List.append_assoc]
    refine (ih (fun e he => hStays e (List.mem_append_left _ he))
      (ids_left (apply_last_id _ _) hIds)).applied (.inl hAllowed) ?_ hIds
    exact hStays _ (List.mem_append_right _ List.mem_cons_self)
  | @sessions effects store' sessions _ _ ih =>
    obtain ⟨hOrderly, hReading⟩ := ih hStays hIds
    refine ⟨⟨hOrderly.messages, hOrderly.rooms, hOrderly.broadcasts, hOrderly.agents⟩, ?_⟩
    rw [(w.sessions store' sessions).1, (w.sessions store' sessions).2]
    exact hReading
  | @see effects store' by_ at_ _ _ ih =>
    rw [see_last_id] at hIds
    obtain ⟨hOrderly, hReading⟩ := ih hStays hIds
    refine ⟨hOrderly.see by_ at_, ?_⟩
    rw [(w.see store' by_ at_).1, (w.see store' by_ at_).2, see_last_id]
    exact hReading

/-- An operation that is none of the agent's own reads. -/
theorem Follows.did {core core' : Core} (h : w.Follows first core.store since given)
    {now : Fin (2 ^ 64)} {op : Operation} (hDid : Did now core core' op)
    (hOther : ∀ effect, Read op effect → ¬ w.moves effect)
    (hStays : ∀ effect ∈ core.since core', w.leaves effect = false)
    (hIds : core'.store.last_id ≠ .MAX) :
    w.Follows first core'.store (since ++ core.since core') given := by
  cases hDid with
  | wrote effects _ hJournaled hWrote =>
    rw [since_eq hJournaled] at hStays ⊢
    exact h.wrote hWrote hStays hIds
  | read effect hUpTo hRead hJournaled hStore =>
    rw [since_eq hJournaled] at hStays ⊢
    rw [hStore] at hIds ⊢
    have hMay : Writable now .all core.store effect ∨ (ReadUpTo core.store effect ∧ ¬ w.moves effect) :=
      .inr ⟨hUpTo, hOther effect hRead⟩
    exact h.applied hMay (hStays effect List.mem_cons_self) hIds
  | nothing hJournaled hStore =>
    rw [since_eq (hJournaled.trans (List.append_nil _).symm), hStore, List.append_nil]
    exact h

/-- **A run**, in which each operation gives the reader its page. -/
theorem Follows.run {core : Core} (h : w.Follows first core.store [] []) (page : Core → Asked → List Id)
    (asked : List Asked)
    (hPage : ∀ a ∈ asked, ∀ (core : Core) since given, w.Follows first core.store since given →
      (∀ effect ∈ core.since (core.perform a), w.leaves effect = false) →
      (core.perform a).store.last_id ≠ .MAX →
      w.Follows first (core.perform a).store (since ++ core.since (core.perform a)) (given ++ page core a))
    (hStays : ∀ effect ∈ core.since (core.run asked), w.leaves effect = false)
    (hIds : (core.run asked).store.last_id ≠ .MAX) :
    w.Follows first (core.run asked).store (core.since (core.run asked)) (pages page core asked) := by
  induction asked using List.reverseRecOn with
  | nil =>
    rw [show core.since (core.run []) = [] from List.drop_length]
    exact h
  | append_singleton asked a ih =>
    have hOne : core.run (asked ++ [a]) = (core.run asked).perform a := run_append core asked [a]
    have hOrderly := (run_ran asked h.orderly).orderly h.orderly
    rw [run_since h.orderly, hOne] at hStays ⊢
    rw [hOne] at hIds
    obtain ⟨hBefore, hLast⟩ := List.forall_mem_append.mp hStays
    obtain ⟨hPageBefore, hPageLast⟩ := List.forall_mem_append.mp hPage
    have hRan : Ran (core.run asked) ((core.run asked).perform a) := run_ran [a] hOrderly
    have hFollows := ih hPageBefore hBefore (ids_left hRan.last_id hIds)
    rw [pages_append, show pages page (core.run asked) [a] = page (core.run asked) a from List.append_nil _]
    exact hPageLast a List.mem_cons_self _ _ _ hFollows hLast hIds

theorem Follows.start {core : Core} (hOrderly : Orderly core.store) {c : Option Id}
    (hCursor : w.cursor core.store = some c)
    (hItems : ∀ id ∈ w.items core.store, id ≤ core.store.last_id)
    (hUpTo : ∀ id, c = some id → id ≤ core.store.last_id) :
    w.Follows {id | id ∈ w.items core.store ∧ Past c id} core.store [] [] := by
  refine ⟨hOrderly, c, hCursor, Lib.Reading.start hItems hUpTo fun id hId => ?_⟩
  rcases hId with hFirst | ⟨e, he, -⟩
  · exact hFirst.2
  · exact absurd he List.not_mem_nil

end Watch

end Postino.Forum
