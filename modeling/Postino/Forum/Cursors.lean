import Postino.Forum.Reads
import Postino.Forum.Runs

/-!
# Reading once

An agent reads the posts of a room, as one of its members, and the broadcasts. What it
has read is kept as the number it read up to. Whatever else is asked in between, its
reads give it each item once.

* `room_watch`, `Watch.Follows.page` — the posts of a room; a page of them.
* `broadcast_watch`, `Watch.Follows.hear` — the broadcasts.
* `read_once` — each exactly once, over any run.
-/

namespace Postino.Forum

open Lib Fallible

/-! ## The posts of a room, for one of its members -/

/-- Whether an effect takes `agent` out of the room `name`, or renames somebody. -/
def Effect.takes_out (name agent : String) : Effect → Bool
  | .Rename .. => true
  | .Forget forgotten => forgotten = agent
  | .Member room member none => room = name && member = agent
  | .DropRoom room => room = name
  | _ => false

/-- The ids of the posts in a room by others than `agent`. -/
def posts_for (agent : String) (room : Option Room) : Set Id :=
  {id | ∃ r post, room = some r ∧ r.posts[id]? = some post ∧ post.from_ ≠ agent}

section Members

variable {store : Store} {effect : Effect} {name agent : String} {c : Option Id}
  {now : Fin (2 ^ 64)}

theorem rename_of_takes_out (h : effect.takes_out name agent = false) : effect.is_rename = false := by
  cases effect with
  | Rename => cases h
  | _ => rfl

/-- An agent that stays is where it was, and has read as far. -/
theorem apply_read_up_to
    (hMay : Writable now .all store effect ∨ (ReadUpTo store effect ∧ ∀ id, effect ≠ .RoomCursor name agent id))
    (hStays : effect.takes_out name agent = false) (h : store.read_up_to name agent = some c) :
    (store.apply effect).read_up_to name agent = some c := by
  obtain ⟨r, member, hRoom, hMember, hc⟩ := read_up_to_eq h
  unfold Store.read_up_to
  rw [apply_room store (rename_of_takes_out hStays), hRoom]
  have hSame : ((some r).bind fun r => r.members[agent]?).map Member.cursor = some c := by
    rw [Option.bind_some, hMember, ← hc]
    rfl
  -- an effect on a room counts only where it is this one
  have hOne : ∀ (room : String) (change : Room → Room),
      (room = name → ((change r).members[agent]?).map Member.cursor = some c) →
      ((on_one room name change (some r)).bind fun r => r.members[agent]?).map Member.cursor = some c := by
    intro room change hChange
    unfold on_one
    split
    · next hName => exact hChange hName
    · exact hSame
  have hKept : (r.members[agent]?).map Member.cursor = some c := hSame
  cases effect with
  | Rename => cases hStays
  | Forget forgotten =>
    have hNe : forgotten ≠ agent := of_decide_eq_false hStays
    show ((r.members.erase forgotten)[agent]?).map Member.cursor = some c
    rw [BTreeMap.get_erase_ne _ hNe]
    exact hKept
  | Room room =>
    -- it is made under another name
    have hFree : room.name ∉ store.rooms := (hMay.resolve_right fun h => h.1).1
    dsimp only [Effect.on_room]
    rw [if_neg]
    · exact hSame
    · rintro hName
      exact hFree ((BTreeMap.mem_iff_get _ _).mpr ⟨r, hName ▸ hRoom⟩)
  | Member room other member =>
    refine hOne room _ fun hName => ?_
    cases member with
    | none =>
      have hNe : other ≠ agent := by
        rintro rfl
        simp [Effect.takes_out, hName] at hStays
      show ((r.members.erase other)[agent]?).map Member.cursor = some c
      rw [BTreeMap.get_erase_ne _ hNe]
      exact hKept
    | some m =>
      show ((r.members.insert other m)[agent]?).map Member.cursor = some c
      rw [BTreeMap.get_insert]
      split
      · next hOther =>
        subst hName hOther
        -- a member written anew keeps where it was
        have hCursor : m.cursor = store.room_cursor room other := hMay.resolve_right fun h => h.1
        unfold Store.room_cursor at hCursor
        rw [hRoom, Option.bind_some, hMember, Option.bind_some, hc] at hCursor
        exact congrArg some hCursor
      · exact hKept
  | RoomCursor room other id =>
    refine hOne room _ fun hName => ?_
    have hOther : other ≠ agent := by
      rintro rfl
      subst hName
      rcases hMay with hNot | ⟨-, hNot⟩
      · exact hNot
      · exact hNot id rfl
    split
    · show ((r.members.insert other _)[agent]?).map Member.cursor = some c
      rw [BTreeMap.get_insert_ne _ _ hOther]
      exact hKept
    · exact hKept
  | Post room post => exact hOne room _ fun _ => hKept
  | Question room id status at_ =>
    refine hOne room _ fun _ => ?_
    dsimp only
    split
    · exact hKept
    · split <;> exact hKept
  | DropPosts room ids =>
    refine hOne room _ fun _ => ?_
    have hMembers := congrArg Room.members (remove_posts_standing ids r)
    rw [show (ids.foldl Room.remove_post r).members = r.members from hMembers]
    exact hKept
  | Topic room | Close room | Board room => exact hOne room _ fun _ => hKept
  | DropRoom room =>
    have hNe : room ≠ name := of_decide_eq_false hStays
    dsimp only [Effect.on_room]
    rw [if_neg hNe]
    exact hSame
  | Agent | Message | Lease | Settle | Drop | Broadcast | DropBroadcasts | Cursor => exact hSame

/-- The posts of a room are those that were there, and those that came since. -/
theorem apply_posts_for (hMay : MayWrite now store effect)
    (hStays : effect.takes_out name agent = false) (h : store.read_up_to name agent = some c)
    (hIds : (store.apply effect).last_id ≠ .MAX) {id : Id}
    (hId : id ∈ posts_for agent (store.apply effect).rooms[name]?) :
    id ∈ posts_for agent store.rooms[name]? ∨
      (store.last_id < id ∧ id ≤ (store.apply effect).last_id) := by
  obtain ⟨r', post, hr', hPost, hOther⟩ := hId
  have hOld : ∀ r, store.rooms[name]? = some r → r.posts[id]? = some post →
      id ∈ posts_for agent store.rooms[name]? := fun r hr hp => ⟨r, post, hr, hp, hOther⟩
  rw [apply_room store (rename_of_takes_out hStays)] at hr'
  obtain ⟨r, member, hRoom, -, -⟩ := read_up_to_eq h
  cases effect with
  | Rename => cases hStays
  | Forget forgotten =>
    obtain ⟨r, hr, rfl⟩ := Option.map_eq_some_iff.mp hr'
    exact .inl (hOld r hr hPost)
  | Room room =>
    have hFree : room.name ∉ store.rooms := (hMay.resolve_right fun h => h).1
    dsimp only [Effect.on_room] at hr'
    rw [if_neg] at hr'
    · exact .inl (hOld r' hr' hPost)
    · rintro hName
      exact hFree ((BTreeMap.mem_iff_get _ _).mpr ⟨r, hName ▸ hRoom⟩)
  -- the one effect that brings a post, with an id above all before it
  | Post room new =>
    rcases of_on_one hr' with ⟨rfl, r, hr, rfl⟩ | hr
    · have hPost : (r.posts.insert new.id new)[id]? = some post := hPost
      rw [BTreeMap.get_insert] at hPost
      split at hPost
      · next hNew =>
        subst hNew
        refine .inr ⟨?_, ?_⟩
        · have hFresh : new.id = store.next_id now := (hMay.resolve_right fun h => h).2.1
          rw [hFresh]
          exact next_id_fresh (ids_left (apply_last_id store _) hIds) now
        · rw [post_last_id store room new hr]
          exact le_max_right _ _
      · exact .inl (hOld r hr hPost)
    · exact .inl (hOld r' hr hPost)
  -- a question that changes stays where it is, by whom it was
  | Question room question status at_ =>
    rcases of_on_one hr' with ⟨rfl, r, hr, rfl⟩ | hr
    · dsimp only at hPost
      split at hPost
      · exact .inl (hOld r hr hPost)
      · next asked hAsked =>
        split at hPost
        · exact .inl (hOld r hr hPost)
        · dsimp only at hPost
          rw [BTreeMap.get_insert] at hPost
          split at hPost
          · next hNew =>
            subst hNew
            cases hPost
            exact .inl ⟨r, asked, hr, hAsked, hOther⟩
          · exact .inl (hOld r hr hPost)
    · exact .inl (hOld r' hr hPost)
  | DropPosts room ids =>
    rcases of_on_one hr' with ⟨rfl, r, hr, rfl⟩ | hr
    · refine .inl (hOld r hr ?_)
      rw [remove_posts_get] at hPost
      split at hPost
      · cases hPost
      · exact hPost
    · exact .inl (hOld r' hr hPost)
  | RoomCursor room =>
    rcases of_on_one hr' with ⟨rfl, r, hr, rfl⟩ | hr
    · refine .inl (hOld r hr ?_)
      split at hPost <;> exact hPost
    · exact .inl (hOld r' hr hPost)
  | Member room | Topic room | Close room | Board room =>
    rcases of_on_one hr' with ⟨rfl, r, hr, rfl⟩ | hr
    · exact .inl (hOld r hr hPost)
    · exact .inl (hOld r' hr hPost)
  | DropRoom room =>
    dsimp only [Effect.on_room] at hr'
    split at hr'
    · cases hr'
    · exact .inl (hOld r' hr' hPost)
  | Agent | Message | Lease | Settle | Drop | Broadcast | DropBroadcasts | Cursor =>
    exact .inl (hOld r' hr' hPost)

theorem posted_new {post : Post} (hMay : MayWrite now store (.Post name post))
    (hIds : (store.apply (.Post name post)).last_id ≠ .MAX) : store.last_id < post.id := by
  have hFresh : post.id = store.next_id now := (hMay.resolve_right fun h => h).2.1
  rw [hFresh]
  exact next_id_fresh (ids_left (apply_last_id store _) hIds) now

/-- The ids of the posts by others than `agent` that an effect brings to the room
`name`. -/
def posted (name agent : String) (effect : Effect) : Set Id :=
  {id | ∃ post, effect = .Post name post ∧ post.from_ ≠ agent ∧ post.id = id}

/-- A member that reads the posts of the room `name`. -/
def room_watch (name agent : String) : Watch where
  items store := posts_for agent store.rooms[name]?
  cursor store := store.read_up_to name agent
  brings := posted name agent
  leaves := Effect.takes_out name agent
  moves effect := ∃ id, effect = .RoomCursor name agent id
  keeps_cursor hMay hStays h :=
    apply_read_up_to (hMay.imp_right fun h => ⟨h.1, fun id hEq => h.2 ⟨id, hEq⟩⟩) hStays h
  keeps_items hMay hStays h hIds _ hId := apply_posts_for hMay hStays h hIds hId
  brings_new := by
    rintro now store effect hMay hIds id ⟨post, rfl, -, rfl⟩
    exact posted_new hMay hIds
  sessions _ _ := ⟨rfl, rfl⟩
  see store by_ at_ := by
    unfold Store.read_up_to Store.see
    cases store.agents[by_]? <;> exact ⟨rfl, rfl⟩

variable {first : Set Id} {since : List Effect} {given : List Id}

/-- A page's ids, read off what was passed. -/
theorem page_ids {r : Room} {cursor : Option Id} {seen rest : List (Id × Post)} {last : Id}
    (hUpTo : r.UpTo last)
    (hSplit : (r.posts.toList.filter fun p => cursor.all fun c => p.1 > c) = seen ++ rest) :
    ((seen.map Prod.snd).filter fun p => p.from_ ≠ agent).map Post.id =
      (seen.filter fun e => e.2.from_ ≠ agent).map Prod.fst := by
  rw [List.filter_map, List.map_map]
  refine List.map_congr_left fun e he => ?_
  have hMem : e ∈ seen ++ rest := List.mem_append_left _ (List.mem_filter.mp he).1
  exact (hUpTo.posts _ _ (seen_in_room hSplit hMem).1).1

/-- What a read has not passed lies past where it came to. -/
theorem past_last {r : Room} {cursor : Option Id} {seen rest : List (Id × Post)} {last : Id × Post}
    (hSplit : (r.posts.toList.filter fun p => cursor.all fun c => p.1 > c) = seen ++ rest)
    (hLast : seen.getLast? = some last) :
    (r.posts.toList.filter fun p => (some last.1).all fun c => p.1 > c) = rest := by
  have hSorted : (seen ++ rest).Pairwise fun a b => a.1 < b.1 := by
    rw [← hSplit]
    exact (BTreeMap.sorted_toList r.posts).filter _
  obtain ⟨before, rfl⟩ := List.getLast?_eq_some_iff.mp hLast
  have hMem : last ∈ (before ++ [last]) ++ rest := by simp
  have hPast := (seen_in_room hSplit hMem).2
  -- all that lies past the last post lies past the cursor
  have hOn : (r.posts.toList.filter fun p => (some last.1).all fun c => p.1 > c) =
      ((before ++ [last]) ++ rest).filter fun p => p.1 > last.1 := by
    rw [← hSplit, List.filter_filter]
    refine List.filter_congr fun p _ => ?_
    by_cases hAfter : p.1 > last.1
    · have hAll : (cursor.all fun c => decide (p.1 > c)) = true := by
        cases cursor with
        | none => rfl
        | some c => exact decide_eq_true ((hPast c rfl).trans hAfter)
      simp [hAfter, hAll]
    · simp [hAfter]
  rw [hOn, List.filter_append]
  obtain ⟨hSeen, -, hCross⟩ := List.pairwise_append.mp hSorted
  have hNone : (before ++ [last]).filter (fun p => p.1 > last.1) = [] := by
    refine List.filter_eq_nil_iff.mpr fun p hp => ?_
    obtain ⟨-, -, hBefore⟩ := List.pairwise_append.mp hSeen
    rcases List.mem_append.mp hp with hp | hp
    · simpa using (hBefore p hp last List.mem_cons_self).le
    · obtain rfl := List.mem_singleton.mp hp
      simp
  rw [hNone, List.nil_append]
  refine List.filter_eq_self.mpr fun p hp => ?_
  simpa using hCross last (List.mem_append_right _ List.mem_cons_self) p hp

theorem unread_eq {r : Room} {rest : List (Id × Post)}
    (hCursor : (r.members[agent]?).bind Member.cursor = c)
    (hRest : (r.posts.toList.filter fun p => c.all fun c => p.1 > c) = rest) :
    r.unread agent = ((rest.map Prod.snd).filter fun p => p.from_ ≠ agent).length := by
  unfold Room.unread
  rw [hCursor, List.filter_map, List.length_map, ← hRest, List.filter_filter]
  exact congrArg List.length (List.filter_congr fun p _ => Bool.and_comm _ _)

theorem room_cursor_applied (hRead : store.read_up_to name agent = some c) (id : Id) :
    (store.apply (.RoomCursor name agent id)).last_id = store.last_id ∧
      ∃ r, (store.apply (.RoomCursor name agent id)).rooms[name]? = some r ∧
        (∃ old, store.rooms[name]? = some old ∧ r.posts = old.posts) ∧
        (r.members[agent]?).map Member.cursor = some (some id) := by
  obtain ⟨r, member, hRoom, hMember, -⟩ := read_up_to_eq hRead
  refine ⟨?_, { r with members := r.members.insert agent { member with cursor := some id } }, ?_,
    ⟨r, hRoom, rfl⟩, ?_⟩
  · show (store.with_room name _).last_id = _
    unfold Store.with_room
    rw [hRoom]
  · rw [apply_room store rfl, hRoom]
    dsimp only [Effect.on_room, on_one]
    rw [if_pos rfl, Option.map_some, hMember]
  · show ((r.members.insert agent _)[agent]?).map Member.cursor = _
    rw [BTreeMap.get_insert, if_pos rfl]
    rfl

/-- **A page.** -/
theorem Watch.Follows.page {core : Core}
    (h : (room_watch name agent).Follows first core.store since given)
    {limit : Nat} {items : List Post} {remaining : Nat}
    (hOk : (read_room name agent limit core).1 = .ok (items, remaining)) :
    (∃ effects, (read_room name agent limit core).2.journaled = core.journaled ++ effects ∧
      (room_watch name agent).Follows first (read_room name agent limit core).2.store (since ++ effects)
        (given ++ items.map Post.id)) ∧
      (∀ p ∈ items, p.from_ ≠ agent) ∧
      ∃ r, (read_room name agent limit core).2.store.rooms[name]? = some r ∧
        remaining = r.unread agent := by
  obtain ⟨c, hRead, hReading⟩ := h.reading
  rcases read_room_cases name agent limit core with ⟨e, hError, -⟩ |
    ⟨r, member, seen, rest, hRoom, hMember, hSplit, hResult, hAfter⟩
  · rw [hError] at hOk
    cases hOk
  obtain ⟨hItems, hRemaining⟩ := Prod.mk.inj (Except.ok.inj (hResult.symm.trans hOk))
  subst hItems hRemaining
  -- the cursor the read starts from is the one the watch has seen
  have hCursor : member.cursor = c := by
    obtain ⟨r', member', hRoom', hMember', hc⟩ := read_up_to_eq hRead
    obtain rfl := Option.some.inj (hRoom.symm.trans hRoom')
    obtain rfl := Option.some.inj (hMember.symm.trans hMember')
    exact hc
  have hUpTo := h.orderly.rooms name r hRoom
  refine ⟨?_, fun p hp => by simpa using (List.mem_filter.mp hp).2, ?_⟩
  · cases hLast : seen.getLast? with
    | none =>
      replace hAfter := hAfter.1 hLast
      obtain rfl := List.getLast?_eq_none_iff.mp hLast
      rw [hAfter]
      refine ⟨[], (List.append_nil _).symm, ?_⟩
      rw [List.append_nil, List.map_nil, List.filter_nil, List.map_nil, List.append_nil]
      exact h
    | some last =>
      obtain ⟨hStore, hJournaled⟩ := hAfter.2 last hLast
      refine ⟨_, hJournaled, ?_⟩
      rw [hStore]
      have hMem : last ∈ seen ++ rest := List.mem_append_left _ (List.mem_of_getLast? hLast)
      obtain ⟨hThere, hPast⟩ := seen_in_room hSplit hMem
      have hLastId := hUpTo.posts _ _ hThere
      obtain ⟨hSame, r', hRoom', ⟨old, hOld, hPosts⟩, hMoved⟩ := room_cursor_applied hRead last.1
      obtain rfl := Option.some.inj (hRoom.symm.trans hOld)
      have hMoved' : (core.store.apply (.RoomCursor name agent last.1)).read_up_to name agent =
          some (some last.1) := by
        unfold Store.read_up_to
        rw [hRoom']
        exact hMoved
      have hSorted : (seen ++ rest).Pairwise fun a b => a.1 < b.1 := by
        rw [← hSplit]
        exact (BTreeMap.sorted_toList r.posts).filter _
      -- the page is what is past the cursor, up to the last post passed
      have hPage : Lib.Reading core.store.last_id (posts_for agent core.store.rooms[name]?)
          (first ∪ (room_watch name agent).brought since) (some last.1)
          (given ++ ((seen.map Prod.snd).filter fun p => p.from_ ≠ agent).map Post.id) := by
        rw [page_ids hUpTo hSplit]
        refine hReading.read ?_ hLastId.2 (fun id => ?_) fun id hId hAfter => ?_
        · rw [List.pairwise_map]
          exact ((List.pairwise_append.mp hSorted).1).filter _
        · constructor
          · intro hId
            obtain ⟨e, he, rfl⟩ := List.mem_map.mp hId
            obtain ⟨heSeen, heOther⟩ := List.mem_filter.mp he
            obtain ⟨heThere, hePast⟩ := seen_in_room hSplit (List.mem_append_left rest heSeen)
            refine ⟨⟨r, e.2, hRoom, heThere, by simpa using heOther⟩, hCursor ▸ hePast, ?_⟩
            -- the last that was passed is the greatest
            obtain ⟨before, rfl⟩ := List.getLast?_eq_some_iff.mp hLast
            rcases List.mem_append.mp heSeen with heBefore | heLast
            · exact ((List.pairwise_append.mp (List.pairwise_append.mp hSorted).1).2.2 e heBefore
                last List.mem_cons_self).le
            · obtain rfl := List.mem_singleton.mp heLast
              exact le_rfl
          · rintro ⟨⟨r₁, post, hr₁, hPost, hOther⟩, hPastId, hUpTo⟩
            obtain rfl := Option.some.inj (hRoom.symm.trans hr₁)
            have hIn : (id, post) ∈ seen ++ rest := by
              rw [← hSplit]
              refine List.mem_filter.mpr ⟨(BTreeMap.mem_toList _ _ _).mpr hPost, ?_⟩
              rw [hCursor]
              cases c with
              | none => rfl
              | some c => exact decide_eq_true (hPastId c rfl)
            rcases List.mem_append.mp hIn with hSeen | hRest
            · exact List.mem_map.mpr ⟨(id, post), List.mem_filter.mpr ⟨hSeen, by simpa using hOther⟩, rfl⟩
            · have hLt := (List.pairwise_append.mp hSorted).2.2 last (List.mem_of_getLast? hLast) _ hRest
              exact absurd hUpTo (not_le.mpr hLt)
        · intro c' hc'
          rw [hCursor] at hPast
          exact (hPast c' hc').trans hAfter
      refine ⟨h.orderly.apply (show MayWrite 0 core.store _ from .inr hLastId.2), some last.1, hMoved', ?_⟩
      rw [hSame]
      refine hPage.go_on le_rfl (fun id hId => .inl ?_) fun id hId => ?_
      · obtain ⟨r₁, post, hr₁, hPost, hOther⟩ := hId
        obtain rfl := Option.some.inj (hRoom'.symm.trans hr₁)
        exact ⟨r, post, hRoom, hPosts ▸ hPost, hOther⟩
      · rcases hId with hFirst | ⟨e, he, hId⟩
        · exact .inl (.inl hFirst)
        · rcases List.mem_append.mp he with he | he
          · exact .inl (.inr ⟨e, he, hId⟩)
          · -- a read brings nothing
            obtain rfl := List.mem_singleton.mp he
            obtain ⟨post, hEq, -⟩ := hId
            cases hEq
  · cases hLast : seen.getLast? with
    | none =>
      replace hAfter := hAfter.1 hLast
      obtain rfl := List.getLast?_eq_none_iff.mp hLast
      rw [hAfter]
      refine ⟨r, hRoom, (unread_eq (c := member.cursor) ?_ hSplit).symm⟩
      rw [hMember]
      rfl
    | some last =>
      obtain ⟨hStore, -⟩ := hAfter.2 last hLast
      rw [hStore]
      obtain ⟨-, r', hRoom', ⟨old, hOld, hPosts⟩, hMoved⟩ := room_cursor_applied hRead last.1
      obtain rfl := Option.some.inj (hRoom.symm.trans hOld)
      refine ⟨r', hRoom', (unread_eq (c := some last.1) ?_ ?_).symm⟩
      · obtain ⟨member', hMember', hc⟩ := Option.map_eq_some_iff.mp hMoved
        rw [hMember']
        exact hc
      · rw [hPosts]
        exact past_last hSplit hLast

/-- The posts of the room `name` that one operation gives `agent`, if it is a read of
them. -/
def Asked.posts_read (name agent : String) (core : Core) (asked : Asked) : List Post :=
  match asked.op with
  | .read_room room reader limit =>
    if room = name ∧ reader = agent then
      match (read_room room reader limit { core with memory := asked.memory }).1 with
      | .ok (items, _) => items
      | .error _ => []
    else []
  | _ => []

/-- What one operation gives a reader of posts, and that it is by others. -/
theorem Watch.Follows.posts_step {core : Core}
    (h : (room_watch name agent).Follows first core.store since given) (a : Asked)
    (hStays : ∀ effect ∈ core.since (core.perform a), effect.takes_out name agent = false)
    (hIds : (core.perform a).store.last_id ≠ .MAX) :
    (room_watch name agent).Follows first (core.perform a).store
      (since ++ core.since (core.perform a)) (given ++ (a.posts_read name agent core).map Post.id) := by
  set start : Core := { core with memory := a.memory } with hStart
  have hPerform : core.perform a = (a.op.perform a.now start).2 := rfl
  -- only the reader's own read gives posts or moves the cursor
  by_cases hOwn : ∃ limit, a.op = .read_room name agent limit
  · obtain ⟨limit, hOp⟩ := hOwn
    have hCore : core.perform a = (read_room name agent limit start).2 := by
      rw [hPerform, hOp]
      exact discard_core _ _
    have hPosts : a.posts_read name agent core = match (read_room name agent limit start).1 with
        | .ok (items, _) => items
        | .error _ => [] := by
      unfold Asked.posts_read
      rw [hOp]
      exact if_pos ⟨rfl, rfl⟩
    rw [hPosts]
    cases hResult : (read_room name agent limit start).1 with
    | ok result =>
      obtain ⟨items, remaining⟩ := result
      obtain ⟨⟨effects, hJournaled, hNext⟩, -⟩ := @Watch.Follows.page name agent first since given start h limit items remaining hResult
      rw [← hCore] at hJournaled hNext
      rw [show core.since (core.perform a) = effects from since_eq hJournaled]
      exact hNext
    | error e =>
      rcases read_room_cases name agent limit start with ⟨_, -, hStore, hJournaled⟩ |
        ⟨_, _, _, _, -, -, -, hOk, -⟩
      · rw [← hCore] at hStore hJournaled
        have hSince : core.since (core.perform a) = [] :=
          since_eq (hJournaled.trans (List.append_nil _).symm)
        rw [hSince, hStore, List.append_nil]
        exact (List.append_nil given).symm ▸ h
      · rw [hResult] at hOk
        cases hOk
  · have hNone : a.posts_read name agent core = [] := by
      unfold Asked.posts_read
      split
      · next room reader limit hOp =>
        rw [if_neg]
        rintro ⟨rfl, rfl⟩
        exact hOwn ⟨limit, hOp⟩
      · rfl
    rw [hNone, List.map_nil, List.append_nil]
    have hStart : (room_watch name agent).Follows first start.store since given := h
    refine hStart.did (@perform_did start h.orderly a.op a.now) ?_ hStays hIds
    rintro effect hRead ⟨id, rfl⟩
    generalize a.op = op at hRead hOwn
    cases hRead with
    | room _ _ limit => exact hOwn ⟨limit, rfl⟩

theorem posts_read_others (core : Core) (a : Asked) :
    ∀ p ∈ a.posts_read name agent core, p.from_ ≠ agent := by
  unfold Asked.posts_read
  split
  · next room reader limit hOp =>
    split
    · next hSame =>
      obtain ⟨rfl, rfl⟩ := hSame
      rcases read_room_cases room reader limit { core with memory := a.memory } with ⟨e, hError, -⟩ |
        ⟨_, _, _, _, -, -, -, hOk, -⟩
      · rw [hError]
        exact List.forall_mem_nil _
      · rw [hOk]
        intro p hp
        simpa using (List.mem_filter.mp hp).2
    · exact List.forall_mem_nil _
  · exact List.forall_mem_nil _

end Members

/-! ## The broadcasts -/

/-- The ids of the broadcasts by others than `agent`. -/
def broadcasts_for (agent : String) (store : Store) : Set Id :=
  {id | ∃ b, store.broadcasts[id]? = some b ∧ b.from_ ≠ agent}

/-- The ids of the broadcasts by others than `agent` that an effect brings. -/
def announced (agent : String) (effect : Effect) : Set Id :=
  {id | ∃ b, effect = .Broadcast b ∧ b.from_ ≠ agent ∧ b.id = id}

/-- Whether an effect forgets `agent`, or renames somebody. -/
def Effect.forgets (agent : String) : Effect → Bool
  | .Rename .. => true
  | .Forget forgotten => forgotten = agent
  | _ => false

section Broadcasts

variable {store : Store} {effect : Effect} {agent : String} {c : Option Id} {now : Fin (2 ^ 64)}

theorem rename_of_forgets (h : effect.forgets agent = false) : effect.is_rename = false := by
  cases effect with
  | Rename => cases h
  | _ => rfl

theorem apply_agent_cursor
    (hMay : Writable now .all store effect ∨ (ReadUpTo store effect ∧ ¬ ∃ id, effect = .Cursor agent id))
    (hStays : effect.forgets agent = false) (h : cursor_of store.agents agent = some c) :
    cursor_of (store.apply effect).agents agent = some c := by
  rw [apply_cursor store (rename_of_forgets hStays), h]
  cases effect with
  | Rename => cases hStays
  | Agent | Message =>
    dsimp only [Effect.on_cursor]
    split <;> rfl
  | Cursor other id =>
    have hOther : other ≠ agent := by
      rintro rfl
      rcases hMay with hNot | ⟨-, hNot⟩
      · exact hNot
      · exact hNot ⟨id, rfl⟩
    exact if_neg hOther
  | Forget other => exact if_neg (of_decide_eq_false hStays)
  | _ => rfl

theorem announced_new {b : Broadcast} (hMay : MayWrite now store (.Broadcast b))
    (hIds : (store.apply (.Broadcast b)).last_id ≠ .MAX) : store.last_id < b.id := by
  have hFresh : b.id = store.next_id now := hMay.resolve_right fun h => h
  rw [hFresh]
  exact next_id_fresh (ids_left (apply_last_id store _) hIds) now

theorem apply_broadcasts_for (hMay : MayWrite now store effect)
    (hStays : effect.forgets agent = false) (hIds : (store.apply effect).last_id ≠ .MAX) {id : Id}
    (hId : id ∈ broadcasts_for agent (store.apply effect)) :
    id ∈ broadcasts_for agent store ∨
      (store.last_id < id ∧ id ≤ (store.apply effect).last_id) := by
  obtain ⟨b, hb, hOther⟩ := hId
  rw [apply_broadcast store (rename_of_forgets hStays)] at hb
  cases effect with
  | Broadcast new =>
    dsimp only [Effect.on_broadcast] at hb
    split at hb
    · next hNew =>
      cases hb
      subst hNew
      exact .inr ⟨announced_new hMay hIds, le_max_right _ _⟩
    · exact .inl ⟨b, hb, hOther⟩
  | DropBroadcasts ids =>
    dsimp only [Effect.on_broadcast] at hb
    split at hb
    · cases hb
    · exact .inl ⟨b, hb, hOther⟩
  | _ => exact .inl ⟨b, hb, hOther⟩

/-- An agent that reads the broadcasts. -/
def broadcast_watch (agent : String) : Watch where
  items := broadcasts_for agent
  cursor store := cursor_of store.agents agent
  brings := announced agent
  leaves := Effect.forgets agent
  moves effect := ∃ id, effect = .Cursor agent id
  keeps_cursor hMay hStays h := apply_agent_cursor hMay hStays h
  keeps_items hMay hStays _ hIds _ hId := apply_broadcasts_for hMay hStays hIds hId
  brings_new := by
    rintro now store effect hMay hIds id ⟨b, rfl, -, rfl⟩
    exact announced_new hMay hIds
  sessions _ _ := ⟨rfl, rfl⟩
  see store by_ at_ := by
    refine ⟨?_, cursor_of_see store by_ at_ agent⟩
    unfold broadcasts_for Store.see
    cases store.agents[by_]? <;> rfl

variable {first : Set Id} {since : List Effect} {given : List Id}

/-- **All that is unread.** -/
theorem Watch.Follows.hear {core : Core} (h : (broadcast_watch agent).Follows first core.store since given)
    {items : List Broadcast} {total : Nat}
    (hOk : (read_broadcasts agent false true core).1 = .ok (items, total)) :
    (∃ effects, (read_broadcasts agent false true core).2.journaled = core.journaled ++ effects ∧
      (broadcast_watch agent).Follows first (read_broadcasts agent false true core).2.store
        (since ++ effects) (given ++ items.map Broadcast.id)) ∧
      ∃ c, cursor_of (read_broadcasts agent false true core).2.store.agents agent = some c ∧
        ∀ id ∈ broadcasts_for agent (read_broadcasts agent false true core).2.store, ¬ Past c id := by
  obtain ⟨c, hCursor, hReading⟩ := h.reading
  have hCursor : cursor_of core.store.agents agent = some c := hCursor
  obtain ⟨a, ha, hc⟩ := Option.map_eq_some_iff.mp hCursor
  have hBind : (core.store.agents[agent]?).bind Agent.cursor = c := by
    rw [ha]
    exact hc
  rcases read_broadcasts_cases agent false true core with ⟨e, hError, -⟩ | ⟨⟨total', hResult⟩, hAfter⟩
  · rw [hError] at hOk
    cases hOk
  obtain ⟨hItems, -⟩ := Prod.mk.inj (Except.ok.inj (hResult.symm.trans hOk))
  rw [hBind] at hItems hAfter
  have hSorted := BTreeMap.sorted_toList core.store.broadcasts
  have hKeyed : ∀ e ∈ core.store.broadcasts.toList, e.2.id = e.1 := fun e he =>
    (h.orderly.broadcasts e.1 e.2 ((BTreeMap.mem_toList _ _ _).mp he)).1
  -- the page, read off the listing
  have hIds : items.map Broadcast.id = (core.store.broadcasts.toList.filter fun e =>
      (c.all fun c => e.1 > c) && e.2.from_ ≠ agent).map Prod.fst := by
    rw [← hItems, List.filter_map, List.map_map]
    have hSame : core.store.broadcasts.toList.filter ((fun b : Broadcast => false ||
        ((c.all fun c => b.id > c) && b.from_ ≠ agent)) ∘ Prod.snd) =
        core.store.broadcasts.toList.filter fun e => (c.all fun c => e.1 > c) && e.2.from_ ≠ agent :=
      List.filter_congr fun e he => by simp [hKeyed e he]
    rw [hSame]
    exact List.map_congr_left fun e he => hKeyed e (List.mem_filter.mp he).1
  -- what is given is what others sent past the cursor
  have hMem : ∀ id, id ∈ items.map Broadcast.id ↔ id ∈ broadcasts_for agent core.store ∧ Past c id := by
    intro id
    rw [hIds]
    constructor
    · intro hId
      obtain ⟨e, he, rfl⟩ := List.mem_map.mp hId
      obtain ⟨heMem, heBoth⟩ := List.mem_filter.mp he
      obtain ⟨hPast, hOther⟩ := (Bool.and_eq_true_iff).mp heBoth
      refine ⟨⟨e.2, (BTreeMap.mem_toList _ _ _).mp heMem, of_decide_eq_true hOther⟩, ?_⟩
      rintro c rfl
      exact of_decide_eq_true hPast
    · rintro ⟨⟨b, hb, hOther⟩, hPast⟩
      refine List.mem_map.mpr ⟨(id, b), List.mem_filter.mpr ⟨(BTreeMap.mem_toList _ _ _).mpr hb, ?_⟩, rfl⟩
      rw [Bool.and_eq_true_iff]
      refine ⟨?_, decide_eq_true hOther⟩
      cases c with
      | none => rfl
      | some c => exact decide_eq_true (hPast c rfl)
  cases hLast : core.store.broadcasts.toList.getLast? with
  | none =>
    replace hAfter := hAfter.1 hLast
    have hEmpty : core.store.broadcasts.toList = [] := List.getLast?_eq_none_iff.mp hLast
    have hNone : items.map Broadcast.id = [] := by
      rw [hIds, hEmpty]
      rfl
    rw [hAfter, hNone]
    refine ⟨⟨[], (List.append_nil _).symm, ?_⟩, c, hCursor, ?_⟩
    · rw [List.append_nil, List.append_nil]
      exact h
    · rintro id ⟨b, hb, -⟩
      have hIn := (BTreeMap.mem_toList _ _ _).mpr hb
      rw [hEmpty] at hIn
      exact absurd hIn List.not_mem_nil
  | some newest =>
    replace hAfter := hAfter.2 newest hLast
    -- nothing is numbered above the newest
    have hNewest : ∀ id ∈ broadcasts_for agent core.store, id ≤ newest.1 := by
      rintro id ⟨b, hb, -⟩
      obtain ⟨before, hListed⟩ := List.getLast?_eq_some_iff.mp hLast
      have hIn := (BTreeMap.mem_toList _ _ _).mpr hb
      rw [hListed] at hIn hSorted
      rcases List.mem_append.mp hIn with hBefore | hThis
      · exact ((List.pairwise_append.mp hSorted).2.2 _ hBefore newest List.mem_cons_self).le
      · exact (congrArg Prod.fst (List.mem_singleton.mp hThis)).le
    have hNotPast : ∀ id ∈ broadcasts_for agent core.store, ¬ Past (some newest.1) id :=
      fun id hId hPast => absurd (hPast newest.1 rfl) (not_lt.mpr (hNewest id hId))
    have hStored : core.store.broadcasts[newest.1]? = some newest.2 :=
      (BTreeMap.mem_toList _ _ _).mp (List.mem_of_getLast? hLast)
    have hUpTo := (h.orderly.broadcasts _ _ hStored).2
    split at hAfter
    · obtain ⟨hStore, hJournaled⟩ := hAfter
      rw [hStore]
      have hMoved : cursor_of (core.store.apply (.Cursor agent newest.1)).agents agent =
          some (some newest.1) := by
        rw [apply_cursor core.store rfl, hCursor]
        exact if_pos rfl
      have hSame : (core.store.apply (.Cursor agent newest.1)).last_id = core.store.last_id ∧
          broadcasts_for agent (core.store.apply (.Cursor agent newest.1)) =
            broadcasts_for agent core.store := by
        unfold broadcasts_for Store.apply
        dsimp only
        rw [ha]
        exact ⟨rfl, rfl⟩
      refine ⟨⟨_, hJournaled, h.orderly.apply (show MayWrite 0 core.store _ from .inr hUpTo),
        some newest.1, hMoved, ?_⟩, some newest.1, hMoved, ?_⟩
      · show Lib.Reading _ (broadcasts_for agent _) _ _ _
        rw [hSame.1, hSame.2]
        refine (hReading.read ?_ hUpTo (fun id => ?_) fun id hId hAfter => ?_).go_on le_rfl
          (fun id hId => .inl hId) fun id hId => ?_
        · rw [hIds, List.pairwise_map]
          exact hSorted.filter _
        · rw [hMem]
          exact ⟨fun hId => ⟨hId.1, hId.2, hNewest id hId.1⟩, fun hId => ⟨hId.1, hId.2.1⟩⟩
        · exact absurd hAfter (not_lt.mpr (hNewest id hId))
        · rcases hId with hFirst | ⟨e, he, hId⟩
          · exact .inl (.inl hFirst)
          · rcases List.mem_append.mp he with he | he
            · exact .inl (.inr ⟨e, he, hId⟩)
            · obtain rfl := List.mem_singleton.mp he
              obtain ⟨b, hEq, -⟩ := hId
              cases hEq
      · rw [hSame.2]
        exact hNotPast
    · next hStill =>
      -- it has read up to the newest
      have hAt : c = some newest.1 := by
        have hThere : core.store.agents.contains agent = true :=
          (BTreeMap.contains_iff_get _ _).mpr ⟨a, ha⟩
        simpa [hThere] using hStill
      have hNone : items.map Broadcast.id = [] := by
        rw [List.eq_nil_iff_forall_not_mem]
        intro id hId
        obtain ⟨hStored, hPast⟩ := (hMem id).mp hId
        exact hNotPast id hStored (hAt ▸ hPast)
      rw [hAfter, hNone]
      refine ⟨⟨[], (List.append_nil _).symm, ?_⟩, c, hCursor, ?_⟩
      · rw [List.append_nil, List.append_nil]
        exact h
      · rw [hAt]
        exact hNotPast

/-- The broadcasts that one operation gives `agent`, if it is a read of those unread. -/
def Asked.broadcasts_read (agent : String) (core : Core) (asked : Asked) : List Broadcast :=
  match asked.op with
  | .read_broadcasts reader false true =>
    if reader = agent then
      match (read_broadcasts reader false true { core with memory := asked.memory }).1 with
      | .ok (items, _) => items
      | .error _ => []
    else []
  | _ => []

theorem Watch.Follows.broadcasts_step {core : Core}
    (h : (broadcast_watch agent).Follows first core.store since given) (a : Asked)
    (hNotAll : a.op ≠ .read_broadcasts agent true true)
    (hStays : ∀ effect ∈ core.since (core.perform a), effect.forgets agent = false)
    (hIds : (core.perform a).store.last_id ≠ .MAX) :
    (broadcast_watch agent).Follows first (core.perform a).store
      (since ++ core.since (core.perform a))
      (given ++ (a.broadcasts_read agent core).map Broadcast.id) := by
  set start : Core := { core with memory := a.memory } with hStart
  have hPerform : core.perform a = (a.op.perform a.now start).2 := rfl
  have hFollows : (broadcast_watch agent).Follows first start.store since given := h
  -- only the agent's own read moves its cursor
  by_cases hOwn : a.op = .read_broadcasts agent false true
  · have hCore : core.perform a = (read_broadcasts agent false true start).2 := by
      rw [hPerform, hOwn]
      exact discard_core _ _
    have hItems : a.broadcasts_read agent core = match (read_broadcasts agent false true start).1 with
        | .ok (items, _) => items
        | .error _ => [] := by
      unfold Asked.broadcasts_read
      rw [hOwn]
      exact if_pos rfl
    rw [hItems]
    cases hResult : (read_broadcasts agent false true start).1 with
    | ok result =>
      obtain ⟨items, total⟩ := result
      obtain ⟨⟨effects, hJournaled, hNext⟩, -⟩ := hFollows.hear hResult
      rw [← hCore] at hJournaled hNext
      rw [show core.since (core.perform a) = effects from since_eq hJournaled]
      exact hNext
    | error e =>
      rcases read_broadcasts_cases agent false true start with ⟨_, -, hStore, hJournaled⟩ |
        ⟨⟨_, hOk⟩, -⟩
      · rw [← hCore] at hStore hJournaled
        have hSince : core.since (core.perform a) = [] :=
          since_eq (hJournaled.trans (List.append_nil _).symm)
        rw [hSince, hStore, List.append_nil]
        exact (List.append_nil given).symm ▸ h
      · rw [hResult] at hOk
        cases hOk
  · have hNone : a.broadcasts_read agent core = [] := by
      unfold Asked.broadcasts_read
      split
      · next reader hOp =>
        rw [if_neg]
        rintro rfl
        exact hOwn hOp
      · rfl
    rw [hNone, List.map_nil, List.append_nil]
    refine hFollows.did (@perform_did start h.orderly a.op a.now) ?_ hStays hIds
    rintro effect hRead ⟨id, rfl⟩
    generalize a.op = op at hRead hOwn hNotAll
    cases hRead with
    | broadcasts _ all =>
      cases all with
      | false => exact hOwn rfl
      | true => exact hNotAll rfl

theorem broadcasts_read_others (core : Core) (a : Asked) :
    ∀ b ∈ a.broadcasts_read agent core, b.from_ ≠ agent := by
  unfold Asked.broadcasts_read
  split
  · next reader hOp =>
    split
    · next hSame =>
      obtain rfl := hSame
      rcases read_broadcasts_cases reader false true { core with memory := a.memory } with
        ⟨e, hError, -⟩ | ⟨⟨_, hOk⟩, -⟩
      · rw [hError]
        exact List.forall_mem_nil _
      · rw [hOk]
        intro b hb
        have hBoth := (List.mem_filter.mp hb).2
        rw [Bool.false_or, Bool.and_eq_true_iff] at hBoth
        exact of_decide_eq_true hBoth.2
    · exact List.forall_mem_nil _
  · exact List.forall_mem_nil _

end Broadcasts

/-! ## Exactly once -/

/-- What a member that had read the room `name` up to `c` is given over a run, and by a
read after it: every post by somebody else once, in order. -/
structure PostsOnce (name agent : String) (c : Option Id) (core : Core) (asked : List Asked) :
    Prop where
  increasing : ((pages (Asked.posts_read name agent) core asked).map Post.id).Pairwise (· < ·)
  others : ∀ p ∈ pages (Asked.posts_read name agent) core asked, p.from_ ≠ agent
  /-- A read counts what remains unread; once nothing does, all that was unread at first
  and all that came was given, unless it is gone. -/
  read : ∀ limit items remaining,
    (read_room name agent limit (core.run asked)).1 = .ok (items, remaining) →
    ∃ r, (read_room name agent limit (core.run asked)).2.store.rooms[name]? = some r ∧
      remaining = r.unread agent ∧ (remaining = 0 → ∀ id,
        (id ∈ posts_for agent core.store.rooms[name]? ∧ Past c id) ∨
          (∃ post, Effect.Post name post ∈ core.since (core.run asked) ∧ post.from_ ≠ agent ∧ post.id = id) →
        id ∈ (pages (Asked.posts_read name agent) core asked ++ items).map Post.id ∨
          id ∉ posts_for agent (some r))

/-- What an agent that had read the broadcasts up to `c` is given over a run, and by a
read after it: every broadcast by somebody else once, in order. -/
structure BroadcastsOnce (agent : String) (c : Option Id) (core : Core) (asked : List Asked) :
    Prop where
  increasing : ((pages (Asked.broadcasts_read agent) core asked).map Broadcast.id).Pairwise (· < ·)
  others : ∀ b ∈ pages (Asked.broadcasts_read agent) core asked, b.from_ ≠ agent
  read : ∀ items total,
    (read_broadcasts agent false true (core.run asked)).1 = .ok (items, total) → ∀ id,
      (id ∈ broadcasts_for agent core.store ∧ Past c id) ∨
        (∃ b, Effect.Broadcast b ∈ core.since (core.run asked) ∧ b.from_ ≠ agent ∧ b.id = id) →
      id ∈ (pages (Asked.broadcasts_read agent) core asked ++ items).map Broadcast.id ∨
        id ∉ broadcasts_for agent (read_broadcasts agent false true (core.run asked)).2.store

section Once

variable {core : Core} {agent : String} {c : Option Id} {asked : List Asked}

theorem posts_once (hOrderly : Orderly core.store) {name : String}
    (hMember : core.store.read_up_to name agent = some c)
    (hStays : ∀ effect ∈ core.since (core.run asked), effect.takes_out name agent = false)
    (hIds : (core.run asked).store.last_id ≠ .MAX) : PostsOnce name agent c core asked := by
  have hStart : (room_watch name agent).Follows
      {id | id ∈ posts_for agent core.store.rooms[name]? ∧ Past c id} core.store [] [] := by
    refine Watch.Follows.start hOrderly hMember ?_ ?_
    · rintro id ⟨r, post, hRoom, hPost, -⟩
      exact ((hOrderly.rooms name r hRoom).posts id post hPost).2
    · rintro id rfl
      obtain ⟨r, member, hRoom, hIn, hc⟩ := read_up_to_eq hMember
      exact (hOrderly.rooms name r hRoom).cursors agent member id hIn hc
  have hRun := hStart.run (fun core a => (a.posts_read name agent core).map Post.id) asked
    (fun a _ core since given h => h.posts_step a) hStays hIds
  rw [pages_map] at hRun
  obtain ⟨_, -, hReading⟩ := hRun.reading
  refine ⟨hReading.sorted, mem_pages posts_read_others core asked, fun limit items remaining hOk => ?_⟩
  obtain ⟨⟨effects, -, hNext⟩, -, r, hRoom, hRemaining⟩ := hRun.page hOk
  refine ⟨r, hRoom, hRemaining, fun hZero id hCame => ?_⟩
  obtain ⟨c', hCursor, hReading'⟩ := hNext.reading
  rw [List.map_append]
  have hItems : (room_watch name agent).items (read_room name agent limit (core.run asked)).2.store =
      posts_for agent (some r) := congrArg (posts_for agent) hRoom
  rw [hItems] at hReading'
  refine hReading'.complete ?_ ?_
  · -- a post past the cursor would be counted
    rintro k ⟨r', post, hr', hPost, hOther⟩ hPast
    obtain rfl := Option.some.inj hr'
    obtain ⟨r', member, hRoom', hIn, hc⟩ := read_up_to_eq hCursor
    obtain rfl := Option.some.inj (hRoom.symm.trans hRoom')
    have hNone := List.length_eq_zero_iff.mp (hRemaining.symm.trans hZero)
    rw [hIn, Option.bind_some, hc] at hNone
    refine absurd (List.filter_eq_nil_iff.mp hNone (k, post) ((BTreeMap.mem_toList _ _ _).mpr hPost)) ?_
    rw [not_not, Bool.and_eq_true_iff]
    refine ⟨?_, decide_eq_true hOther⟩
    cases c' with
    | none => rfl
    | some c' => exact decide_eq_true (hPast c' rfl)
  · rcases hCame with hFirst | ⟨post, hPosted, hOther, rfl⟩
    · exact .inl hFirst
    · exact .inr ⟨.Post name post, List.mem_append_left _ hPosted, post, rfl, hOther, rfl⟩

theorem broadcasts_once (hOrderly : Orderly core.store)
    (hKnown : cursor_of core.store.agents agent = some c)
    (hStays : ∀ effect ∈ core.since (core.run asked), effect.forgets agent = false)
    (hNotAll : ∀ a ∈ asked, a.op ≠ .read_broadcasts agent true true)
    (hIds : (core.run asked).store.last_id ≠ .MAX) : BroadcastsOnce agent c core asked := by
  have hStart : (broadcast_watch agent).Follows
      {id | id ∈ broadcasts_for agent core.store ∧ Past c id} core.store [] [] := by
    refine Watch.Follows.start hOrderly hKnown ?_ ?_
    · rintro id ⟨b, hb, -⟩
      exact (hOrderly.broadcasts id b hb).2
    · rintro id rfl
      exact hOrderly.agents agent id hKnown
  have hRun := hStart.run (fun core a => (a.broadcasts_read agent core).map Broadcast.id) asked
    (fun a ha core since given h => h.broadcasts_step a (hNotAll a ha)) hStays hIds
  rw [pages_map] at hRun
  obtain ⟨_, -, hReading⟩ := hRun.reading
  refine ⟨hReading.sorted, mem_pages broadcasts_read_others core asked, fun items total hOk id hCame => ?_⟩
  obtain ⟨⟨effects, -, hNext⟩, c', hCursor, hNotPast⟩ := hRun.hear hOk
  obtain ⟨c'', hCursor', hReading'⟩ := hNext.reading
  obtain rfl := Option.some.inj (hCursor.symm.trans hCursor')
  rw [List.map_append]
  refine hReading'.complete hNotPast ?_
  rcases hCame with hFirst | ⟨b, hMem, hOther, rfl⟩
  · exact .inl hFirst
  · exact .inr ⟨.Broadcast b, List.mem_append_left _ hMem, b, rfl, hOther, rfl⟩

/-- **Each reader sees each item once**, from any state the forum comes to, as long as
ids do not run out: a member of a room its posts, if nothing takes it out of the room
meanwhile, and an agent the broadcasts, if it is not forgotten. -/
theorem read_once (start : Core) (hStart : start.store = {}) (before asked : List Asked)
    (agent : String) (hIds : ((start.run before).run asked).store.last_id ≠ .MAX) :
    (∀ name c, (start.run before).store.read_up_to name agent = some c →
      (∀ effect ∈ (start.run before).since ((start.run before).run asked),
        effect.takes_out name agent = false) →
      PostsOnce name agent c (start.run before) asked) ∧
    ∀ c, cursor_of (start.run before).store.agents agent = some c →
      (∀ effect ∈ (start.run before).since ((start.run before).run asked),
        effect.forgets agent = false) →
      (∀ a ∈ asked, a.op ≠ .read_broadcasts agent true true) →
      BroadcastsOnce agent c (start.run before) asked := by
  have hEmpty : Orderly start.store := hStart ▸ Orderly.empty
  have hOrderly := (run_ran before hEmpty).orderly hEmpty
  exact ⟨fun name c hMember hStays => posts_once hOrderly hMember hStays hIds,
    fun c hKnown hStays hNotAll => broadcasts_once hOrderly hKnown hStays hNotAll hIds⟩

end Once

/-- A room that alice made for two, in which both post, and bob reads a post at a
time. -/
def two_in_a_room : List Asked × List Asked :=
  let room : CreateRoom :=
    { name := "release", topic := "", private_ := false, members := ["bob"], join := false }
  let note (by_ : Actor) (body : String) : Operation :=
    .post { room := "release", body, reply_to := none, about := none, key := none, ask := none } by_
  ([{ op := .create_room room alice, now := 1 }],
    [{ op := note alice "one", now := 2 }, { op := note bob "two", now := 2 },
      { op := .read_room "release" "bob" 1, now := 3 }, { op := note alice "three", now := 3 },
      { op := .broadcast "alice" "hello" none, now := 4 },
      { op := .read_broadcasts "bob" false true, now := 4 }, { op := .clear_broadcasts, now := 5 },
      { op := .read_room "release" "bob" 5, now := 5 },
      { op := .read_broadcasts "bob" false true, now := 6 }])

theorem read_once_two :
    let joined := ({} : Core).run two_in_a_room.1
    (PostsOnce "release" "bob" none joined two_in_a_room.2 ∧
      BroadcastsOnce "bob" none joined two_in_a_room.2) ∧
    (pages (Asked.posts_read "release" "bob") joined two_in_a_room.2).map Post.body =
      ["created the room", "one", "three"] ∧
    (pages (Asked.broadcasts_read "bob") joined two_in_a_room.2).map Broadcast.body = ["hello"] :=
  have hOnce := read_once {} rfl two_in_a_room.1 two_in_a_room.2 "bob" (by decide +kernel)
  ⟨⟨hOnce.1 "release" none (by decide +kernel) (by decide +kernel),
    hOnce.2 none (by decide +kernel) (by decide +kernel) (by simp [two_in_a_room])⟩, by decide +kernel,
    by decide +kernel⟩

end Postino.Forum
