import Postino.Forum.Runs

/-!
# What a trim leaves

A room keeps its newest posts, and beyond them those it must keep: open questions and
the answers they count. Each append is followed by a trim, which drops the oldest of
the others. When those that must stay fill the room's history, the oldest of the
others is the post just appended.

* `Room.mem_trimmed_iff` — which posts a trim drops.
* `append_yields` — when a post survives its own append.
* `entry_survives` — when what an operation posted, or logged, can be read.
-/

namespace Postino.Forum

open Lib Fallible

/-! ## The posts a room keeps -/

namespace Room

/-- The posts a trim must keep, oldest first. -/
def kept (room : Room) : List Post := (room.posts.toList.map Prod.snd).filter room.keeps

/-- The posts a trim may drop, oldest first. -/
def spare (room : Room) : List Post := (room.posts.toList.map Prod.snd).filter fun p => !room.keeps p

/-- Which posts a trim must keep, with the ids they are filed under. -/
def Keeping (room : Room) : Set (Id × Post) := {e | room.posts[e.1]? = some e.2 ∧ room.keeps e.2 = true}

/-- Posts are filed under their ids, and none is above `last`. -/
def Filed (room : Room) (last : Id) : Prop :=
  ∀ (id : Id) post, room.posts[id]? = some post → post.id = id ∧ id ≤ last

variable {room room' : Room} {last : Id} {p : Post} {history : Nat}

theorem size_posts (room : Room) : room.posts.size = room.kept.length + room.spare.length := by
  have hSplit := List.length_eq_length_filter_add (l := room.posts.toList.map Prod.snd) room.keeps
  rw [List.length_map, Std.ExtTreeMap.length_toList] at hSplit
  exact hSplit

/-- Rooms that keep the same keep as much. -/
theorem kept_congr (h : room'.Keeping = room.Keeping) : room'.kept.length = room.kept.length := by
  have hLength : ∀ r : Room, r.kept.length = (r.posts.toList.filter fun e => r.keeps e.2).length := by
    intro r
    unfold kept
    rw [List.filter_map, List.length_map]
    rfl
  rw [hLength, hLength]
  refine List.Perm.length_eq ((List.perm_ext_iff_of_nodup ?_ ?_).mpr fun e => ?_)
  · exact (BTreeMap.nodup_toList _).filter _
  · exact (BTreeMap.nodup_toList _).filter _
  · rw [List.mem_filter, List.mem_filter, BTreeMap.mem_toList, BTreeMap.mem_toList]
    exact Set.ext_iff.mp h e

/-- What is kept depends on the questions that are open. -/
theorem keeps_congr (h : ∀ q : Id, (room'.posts[q]?).any Post.is_open_question =
    (room.posts[q]?).any Post.is_open_question) (post : Post) : room'.keeps post = room.keeps post := by
  unfold keeps
  cases post.reply_to with
  | none => rfl
  | some q =>
    show (_ || (_ && (room'.posts[q]?).any _)) = (_ || (_ && (room.posts[q]?).any _))
    rw [h]

theorem sorted_spare (hFiled : room.Filed last) : room.spare.Pairwise fun a b => a.id < b.id := by
  have hSorted : (room.posts.toList.map Prod.snd).Pairwise fun a b => a.id < b.id := by
    rw [List.pairwise_map]
    refine (BTreeMap.sorted_toList room.posts).imp_of_mem fun {a b} ha hb h => ?_
    rw [(hFiled a.1 a.2 ((BTreeMap.mem_toList _ _ _).mp ha)).1,
      (hFiled b.1 b.2 ((BTreeMap.mem_toList _ _ _).mp hb)).1]
    exact h
  exact hSorted.filter _

theorem mem_spare : p ∈ room.spare ↔ (∃ id : Id, room.posts[id]? = some p) ∧ room.keeps p = false := by
  unfold spare
  rw [List.mem_filter, List.mem_map, Bool.not_eq_true']
  refine and_congr_left fun _ => ⟨?_, ?_⟩
  · rintro ⟨e, he, rfl⟩
    exact ⟨e.1, (BTreeMap.mem_toList _ _ _).mp he⟩
  · rintro ⟨id, hp⟩
    exact ⟨(id, p), (BTreeMap.mem_toList _ _ _).mpr hp, rfl⟩

/-- What is trimmed need not be kept. -/
theorem of_mem_trimmed (hFiled : room.Filed last) {excess : Nat} {id : Id}
    (h : id ∈ room.trimmed excess) : ∃ p, room.posts[id]? = some p ∧ room.keeps p = false := by
  obtain ⟨p, hp, rfl⟩ := List.mem_map.mp h
  have hSpare : p ∈ room.spare := List.mem_of_mem_take hp
  obtain ⟨⟨id, hStored⟩, hNot⟩ := mem_spare.mp hSpare
  obtain ⟨rfl, -⟩ := hFiled id p hStored
  exact ⟨p, hStored, hNot⟩

/-- **A trim drops a post that may go when those that must stay, and those that may go
but came later, fill the history.** -/
theorem mem_trimmed_iff (hFiled : room.Filed last) {older newer : List Post}
    (hSplit : room.spare = older ++ p :: newer) :
    p.id ∈ room.trimmed (room.posts.size - history) ↔ history ≤ room.kept.length + newer.length := by
  have hSorted := sorted_spare hFiled
  rw [hSplit] at hSorted
  have hSize := room.size_posts
  rw [hSplit, List.length_append, List.length_cons] at hSize
  -- the first so many of the spare ones go, and it has `older` before it
  have hTake : p.id ∈ room.trimmed (room.posts.size - history) ↔
      older.length < room.posts.size - history := by
    show p.id ∈ (room.spare.take _).map Post.id ↔ _
    rw [hSplit, List.take_append]
    constructor
    · intro hMem
      -- were there fewer to go, all that go would be older
      by_contra hFew
      obtain ⟨q, hq, hId⟩ := List.mem_map.mp hMem
      rw [show room.posts.size - history - older.length = 0 by omega, List.take_zero,
        List.append_nil] at hq
      have hOlder := (List.pairwise_append.mp hSorted).2.2 q (List.mem_of_mem_take hq) p
        List.mem_cons_self
      rw [hId] at hOlder
      exact lt_irrefl _ hOlder
    · intro hMany
      refine List.mem_map.mpr ⟨p, List.mem_append_right _ ?_, rfl⟩
      obtain ⟨n, hn⟩ : ∃ n, room.posts.size - history - older.length = n + 1 :=
        ⟨room.posts.size - history - older.length - 1, by omega⟩
      rw [hn]
      exact List.mem_cons_self
  rw [hTake, hSize]
  omega

/-! ### One post more, and some fewer -/

/-- The room with one post more. -/
def with_post (room : Room) (post : Post) : Room :=
  { room with
    open_ := if post.is_open_question then room.open_.insert post.id else room.open_
    posts := room.posts.insert post.id post }

/-- The room after an append: trimmed to its history. -/
def appended (room : Room) (post : Post) (history : Nat) : Room :=
  ((room.with_post post).trimmed ((room.with_post post).posts.size - history)).foldl remove_post
    (room.with_post post)

theorem Filed.mono {last' : Id} (h : room.Filed last) (hLast : last ≤ last') : room.Filed last' :=
  fun id post hPost => ⟨(h id post hPost).1, (h id post hPost).2.trans hLast⟩

theorem Filed.with_post (h : room.Filed last) (post : Post) :
    (room.with_post post).Filed (max last post.id) := by
  intro id q hq
  have hq : (room.posts.insert post.id post)[id]? = some q := hq
  rw [BTreeMap.get_insert] at hq
  split at hq
  · next hId =>
    cases hq
    exact ⟨hId, hId ▸ le_max_right _ _⟩
  · obtain ⟨hId, hUpTo⟩ := h id q hq
    exact ⟨hId, hUpTo.trans (le_max_left _ _)⟩

theorem Filed.remove_posts (h : room.Filed last) (ids : List Id) :
    (ids.foldl remove_post room).Filed last := by
  intro id q hq
  rw [remove_posts_get] at hq
  split at hq
  · cases hq
  · exact h id q hq

theorem Filed.none_above (h : room.Filed last) {id : Id} (hAbove : last < id) :
    room.posts[id]? = none := by
  rw [Option.eq_none_iff_forall_ne_some]
  intro q hq
  exact absurd (h id q hq).2 (not_le.mpr hAbove)

/-- Dropping what need not be kept leaves what must be. -/
theorem keeping_remove (ids : List Id)
    (hIds : ∀ id ∈ ids, ∀ q, room.posts[id]? = some q → room.keeps q = false) :
    (ids.foldl remove_post room).Keeping = room.Keeping := by
  have hOpen : ∀ q : Id, ((ids.foldl remove_post room).posts[q]?).any Post.is_open_question =
      (room.posts[q]?).any Post.is_open_question := by
    intro q
    rw [remove_posts_get]
    split
    · next hMem =>
      cases hq : room.posts[q]? with
      | none => rfl
      | some post =>
        -- an open question is kept
        have hNot := hIds q hMem post hq
        unfold keeps at hNot
        exact (Bool.or_eq_false_iff.mp hNot).1.symm
    · rfl
  refine Set.ext fun e => ?_
  show ((ids.foldl remove_post room).posts[e.1]? = some e.2 ∧ _) ↔ (room.posts[e.1]? = some e.2 ∧ _)
  rw [keeps_congr hOpen, remove_posts_get]
  refine and_congr_left fun hKept => ?_
  split
  · next hMem =>
    refine iff_of_false (by simp) fun h => ?_
    rw [hIds e.1 hMem e.2 h] at hKept
    cases hKept
  · exact Iff.rfl

theorem keeping_trimmed (hFiled : room.Filed last) (excess : Nat) :
    ((room.trimmed excess).foldl remove_post room).Keeping = room.Keeping := by
  refine keeping_remove _ fun id hId q hq => ?_
  obtain ⟨p, hp, hNot⟩ := of_mem_trimmed hFiled hId
  rw [hp] at hq
  cases hq
  exact hNot

/-- What a trim of a room with one post more leaves of a post. -/
theorem appended_get (id : Id) :
    (room.appended p history).posts[id]? =
      if id ∈ (room.with_post p).trimmed ((room.with_post p).posts.size - history) then none
      else (room.with_post p).posts[id]? := remove_posts_get _ _ _

section Plain

/-- A post that asks nothing leaves what is kept as it was. -/
theorem with_post_keeps (hFiled : room.Filed last) (hNew : last < p.id)
    (hPlain : p.is_open_question = false) (post : Post) : (room.with_post p).keeps post = room.keeps post := by
  refine keeps_congr (fun q => ?_) post
  show ((room.posts.insert p.id p)[q]?).any _ = _
  rw [BTreeMap.get_insert]
  split
  · next hq =>
    subst hq
    rw [hFiled.none_above hNew]
    exact hPlain
  · rfl

theorem plain_of_spare (hSpare : room.keeps p = false) : p.is_open_question = false := by
  unfold keeps at hSpare
  exact (Bool.or_eq_false_iff.mp hSpare).1

variable (hFiled : room.Filed last) (hNew : last < p.id)
  (hSpare : (room.with_post p).keeps p = false)
include hFiled hNew hSpare

theorem with_post_keeping : (room.with_post p).Keeping = room.Keeping := by
  refine Set.ext fun e => ?_
  show ((room.posts.insert p.id p)[e.1]? = some e.2 ∧ _) ↔ _
  rw [BTreeMap.get_insert]
  split
  · next he =>
    constructor
    · rintro ⟨hEq, hKept⟩
      rw [← Option.some.inj hEq, hSpare] at hKept
      cases hKept
    · rintro ⟨hStored, -⟩
      rw [← he, hFiled.none_above hNew] at hStored
      cases hStored
  · rw [with_post_keeps hFiled hNew (plain_of_spare hSpare)]
    exact Iff.rfl

/-- It is the newest a trim may drop. -/
theorem with_post_spare : (room.with_post p).spare = room.spare ++ [p] := by
  have hList : (room.with_post p).posts.toList = room.posts.toList ++ [(p.id, p)] := by
    refine BTreeMap.toList_insert_last p fun id hMem => ?_
    obtain ⟨q, hq⟩ := (BTreeMap.mem_iff_get _ _).mp hMem
    exact (hFiled id q hq).2.trans_lt hNew
  have hSame := with_post_keeps hFiled hNew (plain_of_spare hSpare)
  unfold spare
  rw [hList, List.map_append, List.filter_append]
  congr 1
  · exact List.filter_congr fun q _ => by rw [hSame]
  · show List.filter (fun q => !(room.with_post p).keeps q) [p] = [p]
    exact List.filter_eq_self.mpr fun q hq => by rw [List.mem_singleton.mp hq, hSpare]; rfl

theorem with_post_kept : (room.with_post p).kept.length = room.kept.length :=
  kept_congr (with_post_keeping hFiled hNew hSpare)

/-- **A post that may be dropped survives its own append unless what must stay fills
the history.** -/
theorem appended_self :
    (room.appended p history).posts[p.id]? = some p ↔ room.kept.length < history := by
  have hSplit := with_post_spare hFiled hNew hSpare
  have hTrim := @mem_trimmed_iff _ _ p history (hFiled.with_post p) room.spare [] hSplit
  rw [with_post_kept hFiled hNew hSpare, List.length_nil, Nat.add_zero] at hTrim
  rw [appended_get]
  split
  · next hDropped => exact iff_of_false (by simp) (not_lt.mpr (hTrim.mp hDropped))
  · next hStays =>
    refine iff_of_true ?_ (not_le.mp fun hFull => hStays (hTrim.mpr hFull))
    show (room.posts.insert p.id p)[p.id]? = some p
    rw [BTreeMap.get_insert, if_pos rfl]

/-- What was the newest post until then needs one place more. -/
theorem appended_newest {newest : Post} (hStored : room.posts[newest.id]? = some newest)
    (hMay : room.keeps newest = false) (hLast : last = newest.id) :
    (room.appended p history).posts[newest.id]? = some newest ↔ room.kept.length + 1 < history := by
  -- nothing that may be dropped came after it
  obtain ⟨older, newer, hOld⟩ := List.append_of_mem (mem_spare.mpr ⟨⟨_, hStored⟩, hMay⟩)
  have hNone : newer = [] := by
    refine List.eq_nil_iff_forall_not_mem.mpr fun q hq => ?_
    have hSorted := sorted_spare hFiled
    rw [hOld] at hSorted
    have hLater := (List.pairwise_cons.mp (List.pairwise_append.mp hSorted).2.1).1 q hq
    have hMem : q ∈ room.spare := hOld ▸ List.mem_append_right _ (List.mem_cons_of_mem _ hq)
    obtain ⟨⟨id, hq⟩, -⟩ := mem_spare.mp hMem
    obtain ⟨rfl, hUpTo⟩ := hFiled id q hq
    rw [hLast] at hUpTo
    exact absurd hLater (not_lt.mpr hUpTo)
  subst hNone
  have hSplit : (room.with_post p).spare = older ++ newest :: [p] := by
    rw [with_post_spare hFiled hNew hSpare, hOld, List.append_assoc]
    rfl
  have hTrim := @mem_trimmed_iff _ _ newest history (hFiled.with_post p) older [p] hSplit
  rw [with_post_kept hFiled hNew hSpare, List.length_singleton] at hTrim
  rw [appended_get]
  split
  · next hDropped => exact iff_of_false (by simp) (not_lt.mpr (hTrim.mp hDropped))
  · next hStays =>
    refine iff_of_true ?_ (not_le.mp fun hFull => hStays (hTrim.mpr hFull))
    show (room.posts.insert p.id p)[newest.id]? = some newest
    rw [BTreeMap.get_insert_ne _ p (by rw [← hLast]; exact hNew.ne'), hStored]

end Plain

/-- A post that must be kept survives. -/
theorem appended_kept (hFiled : room.Filed last)
    (hKept : (room.with_post p).keeps p = true) : (room.appended p history).posts[p.id]? = some p := by
  have hStored : (room.with_post p).posts[p.id]? = some p := by
    show (room.posts.insert p.id p)[p.id]? = some p
    rw [BTreeMap.get_insert, if_pos rfl]
  rw [appended_get, if_neg, hStored]
  intro hMem
  obtain ⟨q, hq, hNot⟩ := of_mem_trimmed (hFiled.with_post p) hMem
  rw [hStored] at hq
  cases hq
  rw [hKept] at hNot
  cases hNot

/-- What is not there does not come with another post. -/
theorem appended_none {id : Id} (hOther : id ≠ p.id) (hNone : room.posts[id]? = none) : (room.appended p history).posts[id]? = none := by
  rw [appended_get]
  split
  · rfl
  · show (room.posts.insert p.id p)[id]? = none
    rw [BTreeMap.get_insert_ne _ p hOther.symm, hNone]

end Room

/-! ## What an operation holds on to -/

/-- The limits stay, what was journaled stays, and so does what `P` says of the
store. -/
structure Holding (limits : Limits) (journaled : List Effect) (P : Store → Prop) (core : Core) : Prop where
  limits : core.limits = limits
  journaled : journaled <+: core.journaled
  store : P core.store

section

variable {limits : Limits} {journaled : List Effect} {P : Store → Prop} {core : Core}

theorem Holding.applied (h : Holding limits journaled P core) {effect : Effect}
    (hEffect : P (core.store.apply effect)) : Holding limits journaled P (core.applied effect) :=
  ⟨h.limits, h.journaled.trans (List.prefix_append _ _), hEffect⟩

/-- A commit, and what it leaves when it fails. -/
theorem holding_commit {effect : Effect} (h : Holding limits journaled P core)
    (hEffect : P (core.store.apply effect)) :
    Sat (commit effect) core (fun _ core' => Holding limits journaled P core' ∧
        core'.store = core.store.apply effect ∧ core'.journaled = core.journaled ++ [effect])
      (Holding limits journaled P) := by
  have hApplied := h.applied hEffect
  unfold Sat commit
  cases core.halted with
  | true => exact h
  | false =>
    rcases core.journal with - | ⟨- | e, rest⟩
    · exact ⟨hApplied, rfl, rfl⟩
    · exact ⟨⟨hApplied.limits, hApplied.journaled, hApplied.store⟩, rfl, rfl⟩
    · exact ⟨h.limits, h.journaled, h.store⟩

theorem keeps_commit_holding {effect : Effect} (h : ∀ store, P store → P (store.apply effect)) :
    Keeps (Holding limits journaled P) (commit effect) := fun core hHolding =>
  (holding_commit hHolding (h core.store hHolding.store)).mono (fun _ _ h => h.1) fun _ => id

/-- What changes neither the store nor the journal. -/
theorem Holding.told (h : Holding limits journaled P core) {core' : Core} (hStore : core'.store = core.store)
    (hJournaled : core'.journaled = core.journaled) (hLimits : core'.limits = core.limits) :
    Holding limits journaled P core' := ⟨hLimits ▸ h.limits, hJournaled ▸ h.journaled, hStore ▸ h.store⟩

theorem keeps_emit (kind : String) (scope : List String) (data : List (String × JsonValue)) (now : Nat) :
    Keeps (Holding limits journaled P) (emit kind scope data now) := fun _ h => h.told rfl rfl rfl

theorem keeps_emit_room (kind name : String) (data : List (String × JsonValue)) (now : Fin (2 ^ 64)) :
    Keeps (Holding limits journaled P) (emit_room kind name data now) := fun _ h => h.told rfl rfl rfl

theorem keeps_hand_over (name : String) : Keeps (Holding limits journaled P) (hand_over name) :=
  fun _ h => h.told rfl rfl rfl

theorem keeps_wake (topic : Topic) : Keeps (Holding limits journaled P) (wake topic) :=
  fun _ h => h.told rfl rfl rfl

/-- Agents come and go. -/
theorem keeps_ensure_agents (hForget : ∀ store name, P store → P (store.apply (.Forget name)))
    (hAgent : ∀ store name at_, P store → P (store.apply (.Agent name at_))) (names : List String)
    (now : Fin (2 ^ 64)) : Keeps (Holding limits journaled P) (ensure_agents names now) := by
  unfold ensure_agents
  refine keeps_read fun core => ?_
  dsimp only
  split
  · exact keeps_pure ()
  · refine keeps_bind (keeps_refuse _ _) fun _ => keeps_bind (keeps_forM _ fun name _ => ?_) fun _ =>
      keeps_forM _ fun name _ => ?_
    · exact keeps_bind (keeps_commit_holding fun store => hForget store name) fun _ =>
        keeps_bind (keeps_emit _ _ _ _) fun _ => keeps_hand_over name
    · exact keeps_bind (keeps_commit_holding fun store => hAgent store name _) fun _ =>
        keeps_emit _ _ _ _

end

/-! ## A room through an operation -/

/-- The room `name` is there, and must keep `keeping`, as long as ids are left. -/
def Keeping (name : String) (keeping : Set (Id × Post)) (store : Store) : Prop :=
  ∃ r, store.rooms[name]? = some r ∧ r.Filed store.last_id ∧
    (store.last_id ≠ .MAX → r.Keeping = keeping)

section

variable {name : String} {keeping : Set (Id × Post)} {store : Store}

/-- What changes a room beside its posts. -/
theorem Keeping.beside (h : Keeping name keeping store) {effect : Effect}
    (hRoom : ∀ r, store.rooms[name]? = some r →
      ∃ r', (store.apply effect).rooms[name]? = some r' ∧ r'.posts = r.posts) :
    Keeping name keeping (store.apply effect) := by
  have hLast := apply_last_id store effect
  obtain ⟨r, hr, hFiled, hKeeping⟩ := h
  obtain ⟨r', hr', hPosts⟩ := hRoom r hr
  refine ⟨r', hr', fun id post hPost => ?_, fun hIds => ?_⟩
  · rw [hPosts] at hPost
    exact hFiled.mono hLast id post hPost
  · rw [← hKeeping (ids_left hLast hIds)]
    unfold Room.Keeping Room.keeps
    rw [hPosts]

theorem Keeping.one (h : Keeping name keeping store) {effect : Effect} (hRename : effect.is_rename = false)
    {change : Room → Room} (hOne : ∀ room, effect.on_room name room = on_one name name change room)
    (hPosts : ∀ r, (change r).posts = r.posts) : Keeping name keeping (store.apply effect) := by
  refine h.beside fun r hr => ⟨change r, ?_, hPosts r⟩
  rw [apply_room store hRename, hOne, hr]
  exact if_pos rfl

theorem Keeping.forget (h : Keeping name keeping store) (agent : String) :
    Keeping name keeping (store.apply (.Forget agent)) := by
  refine h.beside fun r hr => ⟨{ r with members := r.members.erase agent }, ?_, rfl⟩
  rw [apply_room store rfl, hr]
  rfl

theorem Keeping.agent (h : Keeping name keeping store) (agent : String) (at_ : Nat) :
    Keeping name keeping (store.apply (.Agent agent at_)) := by
  refine h.beside fun r hr => ⟨r, ?_, rfl⟩
  rw [apply_room store rfl, hr]
  rfl

theorem Keeping.member (h : Keeping name keeping store) (agent : String) (member : Option Member) :
    Keeping name keeping (store.apply (.Member name agent member)) :=
  h.one rfl (fun _ => rfl) fun _ => rfl

theorem post_rooms {post : Post} {r : Room} (hr : store.rooms[name]? = some r) :
    (store.apply (.Post name post)).rooms[name]? = some (r.with_post post) := by
  rw [apply_room store rfl, hr]
  exact if_pos rfl

/-- A post that a trim may drop again. -/
theorem Keeping.post (h : Keeping name keeping store) {post : Post} {now : Fin (2 ^ 64)}
    (hId : post.id = store.next_id now)
    (hSpare : ∀ r, store.rooms[name]? = some r → (r.with_post post).keeps post = false) :
    Keeping name keeping (store.apply (.Post name post)) := by
  obtain ⟨r, hr, hFiled, hKeeping⟩ := h
  refine ⟨r.with_post post, post_rooms hr, ?_, fun hIds => ?_⟩
  · rw [post_last_id store name post hr]
    exact hFiled.with_post post
  · have hLeft := ids_left (apply_last_id store _) hIds
    rw [← hKeeping hLeft]
    exact Room.with_post_keeping hFiled (hId ▸ next_id_fresh hLeft now) (hSpare r hr)

theorem trim_rooms {r : Room} (hr : store.rooms[name]? = some r) (ids : List Id) :
    (store.apply (.DropPosts name ids)).rooms[name]? = some (ids.foldl Room.remove_post r) := by
  rw [apply_room store rfl, hr]
  exact if_pos rfl

theorem Keeping.trim (h : Keeping name keeping store) {r : Room} (hr : store.rooms[name]? = some r)
    (excess : Nat) : Keeping name keeping (store.apply (.DropPosts name (r.trimmed excess))) := by
  have hLast := apply_last_id store (.DropPosts name (r.trimmed excess))
  obtain ⟨r', hr', hFiled, hKeeping⟩ := h
  obtain rfl := Option.some.inj (hr.symm.trans hr')
  refine ⟨_, trim_rooms hr _, (hFiled.remove_posts _).mono hLast, fun hIds => ?_⟩
  rw [Room.keeping_trimmed hFiled]
  exact hKeeping (ids_left hLast hIds)

end

section Operations

variable {limits : Limits} {journaled : List Effect} {core : Core} {name : String}
  {keeping : Set (Id × Post)} {now : Fin (2 ^ 64)}

theorem keeps_trim_room (name : String) :
    Keeps (Holding limits journaled (Keeping name keeping)) (trim_room name) := by
  intro core h
  unfold trim_room
  refine sat_read ?_
  split
  · exact h
  · next record hRoom =>
    dsimp only
    split
    · exact (holding_commit h (h.store.trim hRoom _)).mono (fun _ _ h => h.1) fun _ => id
    · exact h

theorem append_holds {post : Post} (h : Holding limits journaled (Keeping name keeping) core)
    (hId : post.id = core.store.next_id now)
    (hSpare : ∀ r, core.store.rooms[name]? = some r → (r.with_post post).keeps post = false) :
    Sat (append name post now) core (fun _ => Holding limits journaled (Keeping name keeping))
      (Holding limits journaled (Keeping name keeping)) := by
  refine sat_bind ((holding_commit h (h.store.post hId hSpare)).mono (fun _ core₁ h₁ => ?_) fun _ => id)
  refine keeps_bind (keeps_trim_room name) (fun _ => keeps_read fun core => ?_) core₁ h₁.1
  exact keeps_bind (keeps_emit_room _ _ _ _) fun _ => keeps_wake _

/-- A line of the timeline: the broker's own, so that a trim may drop it. -/
structure Line (from_ body : String) (p : Post) : Prop where
  kind : p.kind = .Event
  from_ : p.from_ = from_
  body : p.body = body
  ask : p.ask = none

theorem Line.spare {from_ body : String} {p : Post} (h : Line from_ body p) (r : Room) :
    r.keeps p = false := by
  unfold Room.keeps Post.is_open_question
  rw [h.ask, h.kind]
  rfl

theorem log_holds (name from_ body : String) (now : Fin (2 ^ 64)) :
    Keeps (Holding limits journaled (Keeping name keeping)) (log name from_ body now) := by
  intro core h
  refine sat_read (append_holds h rfl fun r _ => ?_)
  exact (show Line from_ body _ from ⟨rfl, rfl, rfl, rfl⟩).spare _

/-! ## What was appended -/

/-- The post `p` was appended to the room `name`, under a new id. -/
structure Appended (name : String) (p : Post) (now : Fin (2 ^ 64)) (r : Room) (core core' : Core) :
    Prop where
  id : p.id = core.store.next_id now
  was : core.store.rooms[name]? = some r
  journaled : ∃ rest, core'.journaled = core.journaled ++ .Post name p :: rest
  room : core'.store.rooms[name]? = some (r.appended p core.limits.room_history)
  last_id : core'.store.last_id = max core.store.last_id p.id

/-- Where a commit comes to when it does not fail. -/
theorem yields_commit (effect : Effect) :
    Yields (commit effect) core fun _ core' => core'.store = core.store.apply effect ∧
      core'.journaled = core.journaled ++ [effect] ∧ core'.limits = core.limits := by
  unfold Yields Sat commit
  cases core.halted with
  | true => exact trivial
  | false =>
    rcases core.journal with - | ⟨- | e, rest⟩
    · exact ⟨rfl, rfl, rfl⟩
    · exact ⟨rfl, rfl, rfl⟩
    · exact trivial

theorem trim_room_yields (name : String) {r : Room} (hr : core.store.rooms[name]? = some r) :
    Yields (trim_room name) core fun _ core' => (∃ rest, core'.journaled = core.journaled ++ rest) ∧
      core'.store.rooms[name]? =
        some ((r.trimmed (r.posts.size - core.limits.room_history)).foldl Room.remove_post r) ∧
      core'.store.last_id = core.store.last_id := by
  unfold trim_room
  refine sat_read ?_
  rw [hr]
  dsimp only
  split
  · refine (yields_commit _).mono (fun _ core' ⟨hStore, hJournaled, _⟩ => ?_) fun _ => id
    rw [hStore]
    exact ⟨⟨_, hJournaled⟩, trim_rooms hr _, drop_posts_last_id _ _ _⟩
  · next hNothing =>
    rw [not_not] at hNothing
    rw [hNothing]
    exact ⟨⟨[], (List.append_nil _).symm⟩, hr, rfl⟩

theorem append_yields {post : Post} (hId : post.id = core.store.next_id now) {r : Room}
    (hr : core.store.rooms[name]? = some r) :
    Yields (append name post now) core fun _ core' => Appended name post now r core core' := by
  refine yields_bind (yields_commit _) fun _ core₁ ⟨hStore, hJournaled, hLimits⟩ => ?_
  have hRoom : core₁.store.rooms[name]? = some (r.with_post post) := by
    rw [hStore]
    exact post_rooms hr
  refine yields_bind (trim_room_yields name hRoom) fun _ core₂ ⟨⟨rest, hRest⟩, hTrimmed, hLast⟩ => ?_
  rw [hJournaled, List.append_assoc] at hRest
  rw [hLimits] at hTrimmed
  rw [hStore, post_last_id _ _ _ hr] at hLast
  exact ⟨hId, hr, ⟨rest, hRest⟩, hTrimmed, hLast⟩

end Operations

/-- The post is in the room. -/
def Store.holds (store : Store) (name : String) (p : Post) : Prop :=
  ∃ r, store.rooms[name]? = some r ∧ r.posts[p.id]? = some p

/-- The posts of a room that a trim must keep. -/
def Core.kept (core : Core) (name : String) : Nat :=
  (core.store.rooms[name]?).elim 0 fun r => r.kept.length

/-- A line of a room's timeline, logged where the room must keep `keeping`. -/
structure Logged (name from_ body : String) (now : Fin (2 ^ 64)) (keeping : Set (Id × Post)) (p : Post)
    (core core' : Core) : Prop where
  line : Line from_ body p
  appended : ∃ r, Appended name p now r core core' ∧ r.Filed core.store.last_id ∧
    (core.store.last_id ≠ .MAX → r.Keeping = keeping)

section Lines

variable {limits : Limits} {journaled : List Effect} {core core' : Core} {name from_ body : String}
  {keeping : Set (Id × Post)} {now : Fin (2 ^ 64)} {p : Post} {r r₀ : Room}

theorem Appended.new (h : Appended name p now r core core') (hIds : core'.store.last_id ≠ .MAX) :
    core.store.last_id < p.id := by
  have hLast : core.store.last_id ≤ core'.store.last_id := h.last_id ▸ le_max_left _ _
  exact h.id ▸ next_id_fresh (ids_left hLast hIds) now

theorem Appended.holds (h : Appended name p now r core core') :
    core'.store.holds name p ↔ (r.appended p core.limits.room_history).posts[p.id]? = some p := by
  unfold Store.holds
  rw [h.room]
  exact ⟨fun ⟨_, hr, hp⟩ => Option.some.inj hr ▸ hp, fun hp => ⟨_, rfl, hp⟩⟩

theorem log_yields (h : Holding limits journaled (Keeping name keeping) core) :
    Yields (log name from_ body now) core fun _ core' =>
      Holding limits journaled (Keeping name keeping) core' ∧
        ∃ p, Logged name from_ body now keeping p core core' := by
  obtain ⟨r, hr, hFiled, hKeeping⟩ := h.store
  have hEntered : Yields (log name from_ body now) core fun _ core' =>
      ∃ p, Logged name from_ body now keeping p core core' := by
    refine sat_read ((append_yields rfl hr).mono (fun _ core' hAppended => ?_) fun _ => id)
    exact ⟨_, ⟨rfl, rfl, rfl, rfl⟩, r, hAppended, hFiled, hKeeping⟩
  exact ((log_holds name from_ body now core h).and hEntered).mono (fun _ _ h => h) fun _ _ => trivial

/-- **A line is there unless what must stay fills the history.** -/
theorem Logged.holds_iff (h : Logged name from_ body now keeping p core core')
    (hIds : core'.store.last_id ≠ .MAX) (hSame : r₀.Keeping = keeping) :
    core'.store.holds name p ↔ r₀.kept.length < core.limits.room_history := by
  obtain ⟨r, hAppended, hFiled, hKeeping⟩ := h.appended
  have hLast : core.store.last_id ≤ core'.store.last_id := hAppended.last_id ▸ le_max_left _ _
  rw [hAppended.holds, Room.appended_self hFiled (hAppended.new hIds) (h.line.spare _),
    Room.kept_congr ((hKeeping (ids_left hLast hIds)).trans hSame.symm)]

/-- The line before another needs one place more. -/
theorem Logged.then_holds_iff {core₁ : Core} {by_ text : String} {q : Post}
    (h : Logged name from_ body now keeping p core core₁)
    (hNext : Logged name by_ text now keeping q core₁ core') (hLimits : core₁.limits = core.limits)
    (hIds : core'.store.last_id ≠ .MAX) (hSame : r₀.Keeping = keeping) :
    core'.store.holds name p ↔ r₀.kept.length + 1 < core.limits.room_history := by
  obtain ⟨r, hAppended, hFiled, hKeeping⟩ := h.appended
  obtain ⟨r₁, hAppended₁, hFiled₁, hKeeping₁⟩ := hNext.appended
  obtain rfl := Option.some.inj (hAppended.room.symm.trans hAppended₁.was)
  have hLast₁ : core₁.store.last_id ≤ core'.store.last_id := hAppended₁.last_id ▸ le_max_left _ _
  have hIds₁ := ids_left hLast₁ hIds
  have hNew := hAppended.new hIds₁
  have hHolds := hAppended.holds.symm.trans (h.holds_iff hIds₁ hSame)
  have hAfter : core'.store.holds name p ↔
      ((r.appended p core.limits.room_history).appended q core₁.limits.room_history).posts[p.id]? =
        some p := by
    unfold Store.holds
    rw [hAppended₁.room]
    exact ⟨fun ⟨_, hr, hp⟩ => Option.some.inj hr ▸ hp, fun hp => ⟨_, rfl, hp⟩⟩
  -- the line is the newest post when the next one comes
  have hTop : core₁.store.last_id = p.id := hAppended.last_id.trans (max_eq_right hNew.le)
  rw [hAfter]
  by_cases hThere : (r.appended p core.limits.room_history).posts[p.id]? = some p
  · rw [Room.appended_newest hFiled₁ (hAppended₁.new hIds) (hNext.line.spare _) hThere
      (h.line.spare _) hTop, Room.kept_congr ((hKeeping₁ hIds₁).trans hSame.symm), hLimits]
  · -- a line that was trimmed at once does not come back
    have hNone : (r.appended p core.limits.room_history).posts[p.id]? = none := by
      rw [Room.appended_get] at hThere ⊢
      split
      · rfl
      · next hStays =>
        rw [if_neg hStays] at hThere
        refine absurd ?_ hThere
        show (r.posts.insert p.id p)[p.id]? = some p
        rw [BTreeMap.get_insert, if_pos rfl]
    have hOther : p.id ≠ q.id := ne_of_lt (hTop ▸ hAppended₁.new hIds)
    rw [Room.appended_none hOther hNone]
    refine iff_of_false (by simp) fun hFits => hThere (hHolds.mpr (by omega))

/-- What was journaled right after a change. -/
theorem Logged.told {core₀ core₁ : Core} {change : Effect}
    (h : Logged name from_ body now keeping p core core₁)
    {before : List Effect} (hChange : core.journaled = before ++ [change])
    (hBefore : core₀.journaled <+: before) (hLast : core₁.journaled <+: core'.journaled) :
    [change, .Post name p] <:+: core₀.since core' := by
  obtain ⟨r, hAppended, -⟩ := h.appended
  obtain ⟨rest, hRest⟩ := hAppended.journaled
  obtain ⟨early, hEarly⟩ := hBefore
  obtain ⟨late, hLate⟩ := hLast
  have hAll : core'.journaled =
      core₀.journaled ++ (early ++ [change, .Post name p] ++ (rest ++ late)) := by
    rw [← hLate, hRest, hChange, ← hEarly]
    simp
  rw [since_eq hAll]
  exact ⟨early, rest ++ late, rfl⟩

end Lines

/-! ## Joining -/

section Joining

variable {limits : Limits} {journaled : List Effect} {core : Core} {name : String}
  {keeping : Set (Id × Post)}

theorem keeps_room_agents (names : List String) (now : Fin (2 ^ 64)) :
    Keeps (Holding limits journaled (Keeping name keeping)) (ensure_agents names now) :=
  keeps_ensure_agents (fun _ agent h => h.forget agent) (fun _ agent at_ h => h.agent agent at_) names now

theorem keeps_joining_member (agent : String) (role : Option Role) (actor : Actor) (record : Room)
    (now : Fin (2 ^ 64)) :
    Keeps (Holding limits journaled (Keeping name keeping))
      (joining_member name agent role actor record now) := by
  unfold joining_member
  dsimp only
  split
  · split
    · split
      · exact keeps_bind (keeps_refuse _ _) fun _ => keeps_pure _
      · exact keeps_pure _
    · exact keeps_pure _
  · split
    · exact keeps_bind (keeps_check fun core => checks_require_known agent) fun _ =>
        keeps_bind (keeps_room_agents _ now) fun _ => keeps_pure _
    · exact keeps_bind (keeps_room_agents _ now) fun _ => keeps_pure _

/-- The end of a join. -/
theorem joined_holds (agent : String) (member : Member) (actor : Actor) (body : String)
    (now : Fin (2 ^ 64)) :
    Keeps (Holding limits journaled (Keeping name keeping)) (do
      commit (.Member name agent (some member))
      emit_room "member" name
        [("agent", .string agent), ("joined", .bool true), ("role", .string member.role.display)] now
      log name actor.name body now
      pure true) :=
  keeps_bind (keeps_commit_holding fun _ h => h.member agent _) fun _ =>
    keeps_bind (keeps_emit_room _ _ _ _) fun _ => keeps_bind (log_holds name _ _ now) fun _ => keeps_pure _

theorem keeps_join (agent : String) (role : Option Role) (actor : Actor) (now : Fin (2 ^ 64)) :
    Keeps (Holding limits journaled (Keeping name keeping)) (join name agent role actor now) := by
  unfold join
  refine keeps_bind (keeps_check fun core => checks_visible_room name actor) fun _ => ?_
  refine keeps_bind (keeps_check fun core => checks_open_room name) fun record => ?_
  dsimp only
  refine keeps_bind (keeps_refuse _ _) fun _ => keeps_bind (keeps_refuse _ _) fun _ => ?_
  refine keeps_bind (keeps_refuse _ _) fun _ => keeps_bind (keeps_refuse _ _) fun _ => ?_
  refine keeps_bind (keeps_joining_member agent role actor record now) fun member => ?_
  split
  · exact keeps_pure _
  · exact keeps_read fun core => joined_holds agent _ actor _ now

/-! ## Lines that tell of a change -/

theorem holding_start (hOrderly : Orderly core.store) {r : Room} (hr : core.store.rooms[name]? = some r) :
    Holding core.limits core.journaled (Keeping name r.Keeping) core :=
  ⟨rfl, List.prefix_rfl, r, hr, (hOrderly.rooms name r hr).posts, fun _ => rfl⟩

theorem kept_eq {r : Room} (hr : core.store.rooms[name]? = some r) : core.kept name = r.kept.length := by
  unfold Core.kept
  rw [hr]
  rfl

/-- A line of the timeline, journaled right after the change it tells of. -/
structure Told (name : String) (change : Effect) (p : Post) (core core' : Core) : Prop where
  event : p.kind = .Event
  journaled : [change, .Post name p] <:+: core.since core'

/-- The line that tells of `change` is there as long as those that must stay, and `more`
lines that follow, leave it a place. -/
def Kept (name : String) (change : Effect) (more : Nat) (core core' : Core) : Prop :=
  core'.store.last_id ≠ .MAX →
    ∃ p, Told name change p core core' ∧
      (core'.store.holds name p ↔ core.kept name + more < core.limits.room_history)

/-- A change, an event about it, and the line that tells of it. -/
theorem change_yields {r : Room} {core₁ : Core} (hr : core.store.rooms[name]? = some r)
    (h : Holding core.limits core.journaled (Keeping name r.Keeping) core₁) {change : Effect}
    (hChange : Keeping name r.Keeping (core₁.store.apply change)) {α : Type} {a : α}
    (kind : String) (data : List (String × JsonValue)) (from_ body : String) (now : Fin (2 ^ 64)) :
    Yields (do
      commit change
      emit_room kind name data now
      log name from_ body now
      pure a) core₁ fun _ core' => Kept name change 0 core core' := by
  refine sat_bind ((holding_commit h hChange).mono (fun _ core₂ ⟨h₂, _, hJournaled⟩ => ?_)
    fun _ _ => trivial)
  refine sat_bind (sat_emit_room fun events => ?_)
  refine yields_bind (log_yields (h₂.told rfl rfl rfl)) fun _ core₃ ⟨_, p, hLogged⟩ => ?_
  refine fun hIds => ⟨p, ⟨hLogged.line.kind, ?_⟩, ?_⟩
  · exact hLogged.told hJournaled h.journaled List.prefix_rfl
  · rw [kept_eq hr, hLogged.holds_iff hIds rfl]
    show r.kept.length < core₂.limits.room_history ↔ _
    rw [h₂.limits, Nat.add_zero]

theorem join_kept (hOrderly : Orderly core.store) (name agent : String) (role : Option Role)
    (actor : Actor) (now : Fin (2 ^ 64)) :
    Yields (join name agent role actor now) core fun changed core' => changed = true →
      ∃ member, Kept name (.Member name agent (some member)) 0 core core' := by
  unfold join
  refine yields_check (checks_visible_room name actor) fun r ⟨hr, _⟩ => ?_
  refine yields_check (checks_open_room name) fun record _ => ?_
  dsimp only
  refine yields_refuse fun _ => yields_refuse fun _ => yields_refuse fun _ => yields_refuse fun _ => ?_
  refine yields_keeps (keeps_joining_member agent role actor record now) (holding_start hOrderly hr)
    fun member core₁ h₁ => ?_
  split
  · exact fun hChanged => by cases hChanged
  · next member =>
    refine sat_read ((change_yields hr h₁ (h₁.store.member agent _) _ _ _ _ now).mono ?_ fun _ => id)
    exact fun _ core' h _ => ⟨member, h⟩

/-- Whether a write to the board changes the key. -/
def Core.board_changes (core : Core) (name key : String) (value : Option String) : Prop :=
  ∃ r, core.store.rooms[name]? = some r ∧ (r.board[key]?).map Entry.value ≠ value

theorem checks_board_changes (name key : String) (value : Option String) (record : Room)
    (actor : Actor) (now : Fin (2 ^ 64)) :
    Checks (board_entry name key value record actor now) core fun entry =>
      (record.board[key]?).map Entry.value ≠ value → entry ≠ none := by
  unfold board_entry
  dsimp only
  split
  · exact checks_bind checks_refuse fun _ _ => checks_pure fun _ => by simp
  · split
    · next value hSame =>
      refine checks_pure fun hChanges => absurd ?_ hChanges
      cases hEntry : record.board[key]? with
      | none =>
        rw [hEntry] at hSame
        cases hSame
      | some e =>
        rw [hEntry] at hSame
        exact congrArg some (of_decide_eq_true hSame)
    · exact checks_bind checks_refuse fun _ _ => checks_pure fun _ => by simp

theorem board_set_kept (hOrderly : Orderly core.store) (name key : String) (value : Option String)
    (expect : Option Nat) (actor : Actor) (now : Fin (2 ^ 64)) :
    Yields (board_set name key value expect actor now) core fun _ core' =>
      core.board_changes name key value → ∃ entry, Kept name (.Board name key entry) 0 core core' := by
  have hWrite : ∀ r, core.store.rooms[name]? = some r →
      Yields (board_write name key value r actor now) core fun _ core' =>
        core.board_changes name key value → ∃ entry, Kept name (.Board name key entry) 0 core core' := by
    intro r hr
    unfold board_write
    refine yields_check (checks_board_changes name key value r actor now) fun entry hSome => ?_
    split
    · rintro ⟨r', hr', hChanges⟩
      obtain rfl := Option.some.inj (hr.symm.trans hr')
      exact absurd rfl (hSome hChanges)
    · next entry body =>
      have hStart := holding_start hOrderly hr
      refine (change_yields hr hStart ?_ _ _ actor.name body now).mono (fun _ core' h _ => ⟨entry, h⟩)
        fun _ => id
      exact hStart.store.one rfl (fun _ => rfl) fun _ => rfl
  unfold board_set
  refine yields_check (checks_visible_room name actor) fun r ⟨hr, _⟩ => ?_
  have hRest : Yields (do
      let record ← open_room name
      refuse (!actor.admin && !record.members.contains actor.name) <| .Forbidden
        s!"join room {debug name} before writing its board"
      expect_version key ((record.board[key]?).elim 0 Entry.version) expect
      board_write name key value record actor now) core fun _ core' =>
      core.board_changes name key value → ∃ entry, Kept name (.Board name key entry) 0 core core' := by
    refine yields_check (checks_open_room name) fun record ⟨hRecord, _⟩ => yields_refuse fun _ => ?_
    exact yields_check (checks_expect_version key _ expect) fun _ _ => hWrite record hRecord
  split
  · exact yields_check checks_room_to_grow fun _ _ => hRest
  · exact hRest

end Joining

/-! ## Topics -/

section Topics

variable {limits : Limits} {journaled : List Effect} {P : Store → Prop} {core : Core} {name : String}
  {keeping : Set (Id × Post)} {now : Fin (2 ^ 64)}

/-- What posts leave alone. -/
theorem keeps_log_beside (hPosts : ∀ store effect, effect.of_posts = true → P store → P (store.apply effect))
    (name from_ body : String) (now : Fin (2 ^ 64)) :
    Keeps (Holding limits journaled P) (log name from_ body now) := by
  refine keeps_read fun core => keeps_bind (keeps_commit_holding fun store => hPosts store _ rfl) fun _ => ?_
  refine keeps_bind ?_ fun _ => keeps_read fun core => keeps_bind (keeps_emit_room _ _ _ _) fun _ =>
    keeps_wake _
  unfold trim_room
  refine keeps_read fun core => ?_
  split
  · exact keeps_pure _
  · dsimp only
    split
    · exact keeps_commit_holding fun store => hPosts store _ rfl
    · exact keeps_pure _

/-- The topic of a room, and whether it is open. -/
def Store.stands (store : Store) (name : String) (x : Option (String × Option Nat)) : Prop :=
  (store.rooms[name]?).map (fun r => (r.topic, r.closed)) = x

theorem stands_posts (x : Option (String × Option Nat)) (store : Store) (effect : Effect)
    (h : effect.of_posts = true) (hStands : store.stands name x) : (store.apply effect).stands name x := by
  have hSame := congrArg (Option.map fun r => (r.topic, r.closed)) ((posts_standing store h).rooms name)
  rw [Option.map_map, Option.map_map] at hSame
  exact hSame.trans hStands

/-- Whether the topic is another one. -/
def Core.topic_changes (core : Core) (name topic : String) : Prop :=
  ∃ r, core.store.rooms[name]? = some r ∧ r.topic ≠ topic

theorem reopen_yields (hHolding : Holding limits journaled (Keeping name keeping) core) {r : Room}
    (hr : core.store.rooms[name]? = some r) (actor : Actor) :
    Yields (reopen name r actor now) core fun _ core' =>
      Holding limits journaled (Keeping name keeping) core' ∧ core'.store.stands name (some (r.topic, none)) := by
  have hStands : core.store.stands name (some (r.topic, r.closed)) := by
    unfold Store.stands
    rw [hr]
    rfl
  unfold reopen
  split
  · next hOpen =>
    rw [Option.isNone_iff_eq_none.mp hOpen] at hStands
    exact ⟨hHolding, hStands⟩
  · have hClose : Keeping name keeping (core.store.apply (.Close name none)) :=
      hHolding.store.one rfl (fun _ => rfl) fun _ => rfl
    refine sat_bind ((holding_commit hHolding hClose).mono (fun _ core₁ ⟨h₁, hStore, _⟩ => ?_)
      fun _ _ => trivial)
    have hOpened : core₁.store.stands name (some (r.topic, none)) := by
      unfold Store.stands
      rw [hStore, apply_room core.store rfl, hr]
      exact congrArg (Option.map _) (if_pos rfl)
    have hBoth := (log_holds name actor.name "reopened the room" now core₁ h₁).and
      (keeps_log_beside (stands_posts (some (r.topic, none))) name actor.name "reopened the room" now core₁
        ⟨rfl, List.prefix_rfl, hOpened⟩)
    exact hBoth.mono (fun _ _ h => ⟨h.1, h.2.store⟩) fun _ _ => trivial

/-- The line that tells of the topic, where it is logged. -/
def Topiced (name topic : String) (now : Fin (2 ^ 64)) (keeping : Set (Id × Post)) (p : Post)
    (journaled : List Effect) (core' : Core) : Prop :=
  ∃ core₁ from_ body, Logged name from_ body now keeping p core₁ core' ∧ core₁.limits = core'.limits ∧
    (∃ before, core₁.journaled = before ++ [.Topic name topic] ∧ journaled <+: before) ∧
    core'.is_open name = true

theorem set_topic_yields (hHolding : Holding limits journaled (Keeping name keeping) core) {topic was : String}
    {closed : Option Nat} (hStands : core.store.stands name (some (was, closed))) (hChanges : was ≠ topic)
    (actor : Actor) :
    Yields (set_topic name topic actor now) core fun _ core' =>
      Holding limits journaled (Keeping name keeping) core' ∧
        ∃ p, Topiced name topic now keeping p journaled core' := by
  obtain ⟨r, hr, hEq⟩ := Option.map_eq_some_iff.mp hStands
  cases hEq
  unfold set_topic
  refine sat_read ?_
  rw [hr]
  rw [if_pos (by simpa using hChanges.symm)]
  refine yields_check (checks_open_room name) fun record ⟨hRecord, hOpen⟩ => ?_
  obtain rfl := Option.some.inj (hr.symm.trans hRecord)
  have hTopic : Keeping name keeping (core.store.apply (.Topic name topic)) :=
    hHolding.store.one rfl (fun _ => rfl) fun _ => rfl
  refine sat_bind ((holding_commit hHolding hTopic).mono (fun _ core₁ ⟨h₁, hStore, hJournaled⟩ => ?_)
    fun _ _ => trivial)
  have hOpened : core₁.store.stands name (some (topic, none)) := by
    unfold Store.stands
    rw [hStore, apply_room core.store rfl, hr]
    refine Eq.trans (congrArg (Option.map _) (if_pos rfl)) ?_
    exact congrArg (fun closed => some (topic, closed)) (Option.isNone_iff_eq_none.mp hOpen)
  refine ((log_yields h₁).and ((keeps_log_beside (stands_posts (some (topic, none))) name actor.name _ now core₁
    ⟨rfl, List.prefix_rfl, hOpened⟩))).mono (fun _ core' h => ?_) fun _ _ => trivial
  obtain ⟨⟨hHolding', p, hLogged⟩, hStill⟩ := h
  refine ⟨hHolding', p, core₁, _, _, hLogged, h₁.limits.trans hHolding'.limits.symm,
    ⟨core.journaled, hJournaled, hHolding.journaled⟩, ?_⟩
  obtain ⟨r', hr', hEq⟩ := Option.map_eq_some_iff.mp hStill.store
  unfold Core.is_open
  rw [hr']
  exact Option.isNone_iff_eq_none.mpr (congrArg Prod.snd hEq)

/-- A question changes no line of the timeline. -/
theorem question_holds (store : Store) (name : String) {p : Post} (hPlain : p.ask = none) (id : Id)
    (status : Status) (at_ : Nat) :
    (store.apply (.Question name id status at_)).holds name p ↔ store.holds name p := by
  unfold Store.holds
  rw [apply_room store rfl]
  cases hr : store.rooms[name]? with
  | none =>
    show (∃ r, on_one name name _ none = some r ∧ _) ↔ _
    rw [show on_one name name _ (none : Option Room) = none from if_pos rfl]
  | some r =>
    have hOne : ∀ change : Room → Room, (∃ r', on_one name name change (some r) = some r' ∧
        r'.posts[p.id]? = some p) ↔ (change r).posts[p.id]? = some p := by
      intro change
      rw [show on_one name name change (some r) = some (change r) from if_pos rfl]
      exact ⟨fun ⟨_, hr', hp⟩ => Option.some.inj hr' ▸ hp, fun hp => ⟨_, rfl, hp⟩⟩
    refine (hOne _).trans ?_
    have hThis : (∃ r', some r = some r' ∧ r'.posts[p.id]? = some p) ↔ r.posts[p.id]? = some p :=
      ⟨fun ⟨_, hr', hp⟩ => Option.some.inj hr' ▸ hp, fun hp => ⟨_, rfl, hp⟩⟩
    rw [hThis]
    cases hPost : r.posts[id]? with
    | none => rfl
    | some post =>
      cases hAsk : post.ask with
      | none =>
        dsimp only
        rw [hAsk]
      | some ask =>
        dsimp only
        rw [hAsk]
        dsimp only
        rw [BTreeMap.get_insert]
        split
        · next hId =>
          -- a question is no line, before or after
          rw [← hId, hPost]
          refine iff_of_false (fun h => ?_) fun h => ?_
          · rw [← Option.some.inj h] at hPlain
            cases hPlain
          · rw [← Option.some.inj h, hAsk] at hPlain
            cases hPlain
        · rfl

theorem close_yields {topic : String} {p : Post} {r : Room} (hSame : r.Keeping = keeping)
    (hHolding : Holding limits journaled (Keeping name keeping) core)
    (hTopiced : Topiced name topic now keeping p journaled core) (actor : Actor) :
    Yields (close name actor now) core fun _ core' => core.journaled <+: core'.journaled ∧
      (core'.store.last_id ≠ .MAX →
        (core'.store.holds name p ↔ r.kept.length + 1 < limits.room_history)) := by
  obtain ⟨core₁, from_, body, hLogged, hLimits, -, hOpen⟩ := hTopiced
  unfold close
  refine sat_read ?_
  rw [if_pos hOpen]
  have hFirst : Holding limits core.journaled (Keeping name keeping) core :=
    ⟨hHolding.limits, List.prefix_rfl, hHolding.store⟩
  refine yields_bind (log_yields hFirst) fun _ core₂ ⟨h₂, q, hClosing⟩ => sat_read ?_
  -- from here on only questions change, and the room closes
  let There (store : Store) : Prop := core₂.store.last_id ≤ store.last_id ∧
    (store.holds name p ↔ core₂.store.holds name p)
  have hStart : Holding limits core.journaled There core₂ :=
    ⟨h₂.limits, h₂.journaled, le_rfl, Iff.rfl⟩
  have hQuestions : ∀ (ids : List Id), Keeps (Holding limits core.journaled There)
      (ids.forM fun id => set_question name id .Withdrawn now) := by
    refine fun ids => keeps_forM _ fun id _ => keeps_bind (keeps_commit_holding fun store h => ?_) fun _ =>
      keeps_bind (keeps_emit_room _ _ _ _) fun _ => keeps_wake _
    exact ⟨h.1.trans (apply_last_id store _), (question_holds store name hLogged.line.ask _ _ _).trans h.2⟩
  refine yields_keeps (hQuestions _) hStart fun _ core₃ h₃ => ?_
  refine (keeps_commit_holding (fun store h => ?_) core₃ h₃).mono (fun _ core₄ h₄ => ?_) fun _ _ => trivial
  · refine ⟨h.1.trans (apply_last_id store _), Iff.trans ?_ h.2⟩
    unfold Store.holds
    rw [apply_room store rfl]
    cases store.rooms[name]? with
    | none =>
      show (∃ r, on_one name name _ none = some r ∧ _) ↔ _
      rw [show on_one name name _ (none : Option Room) = none from if_pos rfl]
    | some r' =>
      show (∃ r, on_one name name _ (some r') = some r ∧ _) ↔ _
      rw [show ∀ change, on_one name name change (some r') = some (change r') from fun _ => if_pos rfl]
      constructor
      · rintro ⟨_, ⟨⟩, hp⟩
        exact ⟨r', rfl, hp⟩
      · rintro ⟨_, ⟨⟩, hp⟩
        exact ⟨_, rfl, hp⟩
  · refine ⟨h₄.journaled, fun hIds => ?_⟩
    have hIds₂ := ids_left h₄.store.1 hIds
    rw [h₄.store.2, hLogged.then_holds_iff hClosing hLimits.symm hIds₂ hSame, hLimits, hHolding.limits]

theorem update_room_kept (hOrderly : Orderly core.store) (name topic : String) (closed : Option Bool)
    (actor : Actor) (now : Fin (2 ^ 64)) :
    Yields (update_room name (some topic) closed actor now) core fun _ core' =>
      core.topic_changes name topic →
        Kept name (.Topic name topic) (if closed = some true then 1 else 0) core core' := by
  unfold update_room
  refine yields_check (checks_visible_room name actor) fun r ⟨hr, _⟩ => ?_
  refine yields_check checks_require_owner fun _ _ => ?_
  have hStart := holding_start hOrderly hr
  by_cases hChanges : r.topic ≠ topic
  case neg =>
    have hNot : ¬ core.topic_changes name topic := by
      rintro ⟨r', hr', hNe⟩
      exact hChanges (Option.some.inj (hr.symm.trans hr') ▸ hNe)
    exact Sat.mono (show Yields _ core fun _ _ => True from sat_any _ _) (fun _ _ _ h => absurd h hNot) fun _ => id
  case pos =>
    have hSet : ∀ core₁ was, Holding core.limits core.journaled (Keeping name r.Keeping) core₁ →
        core₁.store.stands name (some (r.topic, was)) → Yields (do
          set_topic name topic actor now
          if closed = some true then close name actor now
          emit_room "room" name [("change", .string "updated")] now) core₁ fun _ core' =>
            core.topic_changes name topic →
              Kept name (.Topic name topic) (if closed = some true then 1 else 0) core core' := by
      intro core₁ was h₁ hStands
      refine yields_bind (set_topic_yields h₁ hStands hChanges actor) fun _ core₂ ⟨h₂, p, hTopiced⟩ => ?_
      have hLine := hTopiced
      obtain ⟨core₀, from_, body, hLogged, hLimits, ⟨before, hJournaled, hFirst⟩, -⟩ := hTopiced
      split
      · refine yields_bind (close_yields rfl h₂ hLine actor) fun _ core₃ ⟨hLater, hHolds⟩ => ?_
        refine sat_emit_room fun events _ hIds => ⟨p, ⟨hLogged.line.kind, ?_⟩, ?_⟩
        · exact hLogged.told hJournaled hFirst hLater
        · rw [kept_eq hr]
          exact hHolds hIds
      · refine sat_emit_room fun events _ hIds => ⟨p, ⟨hLogged.line.kind, ?_⟩, ?_⟩
        · exact hLogged.told hJournaled hFirst List.prefix_rfl
        · rw [kept_eq hr, Nat.add_zero, ← h₂.limits, ← hLimits]
          exact hLogged.holds_iff hIds rfl
    dsimp only
    split
    · refine yields_bind (reopen_yields hStart hr actor) fun _ core₁ ⟨h₁, hStands⟩ => ?_
      exact hSet core₁ none h₁ hStands
    · refine hSet core r.closed hStart ?_
      unfold Store.stands
      rw [hr]
      rfl

end Topics

end Postino.Forum
