import Postino.Forum.Trims
import Postino.Forum.Cursors

/-!
# What was accepted can be read

A post that `post` or `answer` accepts is for every member of the room to read, and so
is the line of the timeline that tells of a member, a topic or the board.

* `accepted_readable` — a question and an answer always can; a note or a line just when
  the open questions and their answers leave it a place in the room's history.
* `note_lost` — a note that was accepted and is gone.
-/

namespace Postino.Forum

open Lib Fallible

section

variable {core core' : Core} {name : String} {p : Post}

/-- The post is in the room, and whoever has not read that far and reads on until
nothing remains is given it. A member's own posts are not for it. -/
structure Readable (core : Core) (name : String) (p : Post) : Prop where
  holds : core.store.holds name p
  read : ∀ agent c, core.store.read_up_to name agent = some c → agent ≠ p.from_ → Past c p.id →
    ∀ limit items core', read_room name agent limit core = (.ok (items, 0), core') → p ∈ items

theorem readable_iff : Readable core name p ↔ core.store.holds name p := by
  refine ⟨Readable.holds, fun h => ⟨h, fun agent c hReads hOther hPast limit items core' hRead => ?_⟩⟩
  obtain ⟨r, hr, hp⟩ := h
  rcases read_room_cases name agent limit core with ⟨e, hError, -⟩ |
    ⟨r', member, seen, rest, hr', hMember, hSplit, hOk, -⟩
  · rw [hRead] at hError
    cases hError
  · obtain rfl := Option.some.inj (hr.symm.trans hr')
    have hCursor : member.cursor = c := by
      obtain ⟨r'', member', hr'', hMember', rfl⟩ := read_up_to_eq hReads
      obtain rfl := Option.some.inj (hr.symm.trans hr'')
      rw [Option.some.inj (hMember.symm.trans hMember')]
    rw [hRead] at hOk
    obtain ⟨rfl, hNone⟩ := Prod.mk.inj (Except.ok.inj hOk)
    have hMem : (p.id, p) ∈ seen ++ rest := by
      rw [← hSplit]
      refine List.mem_filter.mpr ⟨(BTreeMap.mem_toList _ _ _).mpr hp, ?_⟩
      cases hc : member.cursor with
      | none => rfl
      | some c => exact decide_eq_true (hPast c (hCursor.symm.trans hc))
    have hFor : decide (p.from_ ≠ agent) = true := decide_eq_true hOther.symm
    rcases List.mem_append.mp hMem with hSeen | hRest
    · exact List.mem_filter.mpr ⟨List.mem_map.mpr ⟨_, hSeen, rfl⟩, hFor⟩
    · have hLeft : p ∈ (rest.map Prod.snd).filter fun p => p.from_ ≠ agent :=
        List.mem_filter.mpr ⟨List.mem_map.mpr ⟨(p.id, p), hRest, rfl⟩, hFor⟩
      rw [List.eq_nil_of_length_eq_zero hNone.symm] at hLeft
      exact absurd hLeft List.not_mem_nil

/-! ## Posts and answers -/

/-- The end of a post, once everyone it brings in is there. -/
theorem posted_holds {limits : Limits} {journaled : List Effect} {r : Room} {core₁ : Core}
    {now : Fin (2 ^ 64)} (h : Holding limits journaled (Keeping name r.Keeping) core₁)
    (hId : p.id = core₁.store.next_id now) (hKind : p.kind = if p.ask.isSome then .Question else .Note)
    (hOpen : ∀ a, p.ask = some a → a.status = .Open) :
    Yields (append name p now) core₁ fun _ core' => core'.store.last_id ≠ .MAX →
      (core'.store.holds name p ↔ p.ask.isSome = true ∨ r.kept.length < limits.room_history) := by
  obtain ⟨r₁, hr₁, hFiled, hKeeping⟩ := h.store
  refine (append_yields hId hr₁).mono (fun _ core' hAppended hIds => ?_) fun _ => id
  have hLast : core₁.store.last_id ≤ core'.store.last_id := hAppended.last_id ▸ le_max_left _ _
  have hNew := hAppended.new hIds
  rw [hAppended.holds, h.limits]
  cases hAsk : p.ask with
  | some a =>
    refine iff_of_true (Room.appended_kept hFiled ?_) (.inl rfl)
    -- an open question must be kept
    unfold Room.keeps Post.is_open_question
    rw [hAsk]
    exact Bool.or_eq_true_iff.mpr (.inl (decide_eq_true (hOpen a hAsk)))
  | none =>
    have hSpare : (r₁.with_post p).keeps p = false := by
      unfold Room.keeps Post.is_open_question
      rw [hKind, hAsk]
      rfl
    rw [Room.appended_self hFiled hNew hSpare, Room.kept_congr (hKeeping (ids_left hLast hIds))]
    exact (or_iff_right (by simp)).symm

theorem post_kept (hOrderly : Orderly core.store) (req : PostRequest) (actor : Actor)
    (now : Fin (2 ^ 64)) :
    Yields (post req actor now) core fun result core' => result.2 = true → core'.store.last_id ≠ .MAX →
      (core'.store.holds req.room result.1 ↔
        req.ask.isSome = true ∨ core.kept req.room < core.limits.room_history) := by
  unfold post
  refine yields_check (checks_visible_room req.room actor) fun r ⟨hr, _⟩ => ?_
  refine yields_check checks_room_to_grow fun _ _ => ?_
  refine yields_check (checks_open_room req.room) fun record _ => sat_read ?_
  have hStart := holding_start hOrderly hr
  split
  · exact fun h => by cases h
  · unfold post_new
    refine yields_check (checks_replied_to req.room record req.reply_to) fun parent _ => ?_
    dsimp only
    refine yields_check (checks_asking req.ask actor.name now) fun ask ⟨_, _, hAsk, hOpen⟩ => ?_
    -- what follows the checks, with or without a question
    have hRest : ∀ (joining : List String) (c : Bool) (e : Error) (by_ : String → Actor) (post : Core → Post),
        (∀ core, (post core).id = core.store.next_id now) → (∀ core, (post core).ask = ask) →
        (∀ core, (post core).kind = if ask.isSome then .Question else .Note) → Yields (do
          refuse c e
          ensure_agents joining now
          joining.forM fun name => do
            let _ ← join req.room name none (by_ name) now
            pure ()
          let core ← read
          append req.room (post core) now
          pure (post core, true)) core fun result core' => result.2 = true → core'.store.last_id ≠ .MAX →
            (core'.store.holds req.room result.1 ↔
              req.ask.isSome = true ∨ core.kept req.room < core.limits.room_history) := by
      intro joining c e by_ post hId hAsks hKind
      refine yields_refuse fun _ => yields_keeps (keeps_room_agents joining now) hStart fun _ core₁ h₁ => ?_
      have hJoins : Keeps (Holding core.limits core.journaled (Keeping req.room r.Keeping))
          (joining.forM fun name => do
            let _ ← join req.room name none (by_ name) now
            pure ()) :=
        keeps_forM _ fun name _ => keeps_bind (keeps_join name none (by_ name) now) fun _ => keeps_pure _
      refine yields_keeps hJoins h₁ fun _ core₂ h₂ => sat_read ?_
      refine yields_bind (posted_holds h₂ (hId core₂) (by rw [hAsks]; exact hKind core₂)
        (by rw [hAsks]; exact hOpen)) fun _ core₃ h₃ => ?_
      intro _ hIds
      rw [kept_eq hr, ← hAsk, ← hAsks core₂]
      exact h₃ hIds
    cases ask with
    | none => exact hRest _ _ _ _ _ (fun _ => rfl) (fun _ => rfl) fun _ => rfl
    | some ask =>
      refine yields_check (checks_admit_question record ask actor) fun _ _ => ?_
      exact hRest _ _ _ _ _ (fun _ => rfl) (fun _ => rfl) fun _ => rfl

theorem checks_asked (name : String) (question : Id) (record : Room) (actor : Actor) :
    Checks (asked_question name question record actor) core fun result =>
      record.posts[question]? = some result.1 ∧ result.1.is_open_question = true := by
  unfold asked_question
  cases hPost : (record.posts[question]?).filter fun p => p.kind = .Question with
  | none => exact checks_fail
  | some asked =>
    obtain ⟨hStored, -⟩ := Option.filter_eq_some_iff.mp hPost
    dsimp only
    cases hAsk : asked.ask with
    | none => exact checks_fail
    | some ask =>
      refine checks_bind checks_refuse fun _ hStatus => checks_bind checks_refuse fun _ _ => ?_
      refine checks_bind checks_refuse fun _ _ => checks_bind checks_refuse fun _ _ => ?_
      refine checks_pure ⟨hStored, ?_⟩
      unfold Post.is_open_question
      rw [hAsk]
      exact decide_eq_true (not_not.mp (of_decide_eq_false hStatus))

theorem set_question_yields (name : String) (id : Id) (status : Status) (now : Fin (2 ^ 64)) :
    Yields (set_question name id status now) core fun _ core' =>
      core'.store = core.store.apply (.Question name id status now) :=
  yields_bind (yields_commit _) fun _ _ ⟨hStore, _⟩ =>
    sat_bind (sat_emit_room fun _ => sat_wake fun _ => hStore)

/-- An answer to an open question must be kept. -/
theorem answer_keeps {r : Room} {last question : Id} {asked : Post} (hFiled : r.Filed last)
    (hNew : last < p.id) (hAsked : r.posts[question]? = some asked) (hOpen : asked.is_open_question = true)
    (hKind : p.kind = .Answer) (hReply : p.reply_to = some question) : (r.with_post p).keeps p = true := by
  have hOther : p.id ≠ question := ((hFiled question asked hAsked).2.trans_lt hNew).ne'
  have hStill : (r.with_post p).posts[question]? = some asked := by
    show (r.posts.insert p.id p)[question]? = _
    rw [BTreeMap.get_insert_ne _ p hOther, hAsked]
  unfold Room.keeps
  rw [hKind, hReply]
  show (_ || (_ && ((r.with_post p).posts[question]?).any _)) = true
  rw [hStill]
  show (_ || (_ && asked.is_open_question)) = true
  rw [hOpen]
  exact Bool.or_true _

theorem answer_kept (hOrderly : Orderly core.store) (req : AnswerRequest) (actor : Actor)
    (now : Fin (2 ^ 64)) :
    Yields (answer req actor now) core fun result core' => core.store.last_id < result.1.id →
      core'.store.last_id ≠ .MAX → core'.store.holds req.room result.1 := by
  unfold answer
  refine yields_check checks_room_to_grow fun _ _ => ?_
  refine yields_check (checks_visible_room req.room actor) fun r ⟨hr, _⟩ => ?_
  refine yields_check (checks_open_room req.room) fun record ⟨hRecord, _⟩ => sat_read ?_
  obtain rfl := Option.some.inj (hr.symm.trans hRecord)
  split
  · next existing hFound =>
    -- what was posted before is not new
    intro hNew
    obtain ⟨key, -, hKey⟩ := Option.bind_eq_some_iff.mp hFound
    obtain ⟨id, -, hStored⟩ := Option.bind_eq_some_iff.mp hKey
    rw [hr] at hStored
    obtain ⟨rfl, hUpTo⟩ := (hOrderly.rooms req.room r hr).posts id existing hStored
    exact absurd hNew (not_lt.mpr hUpTo)
  · unfold answer_new
    refine yields_check (checks_asked _ _ r actor) fun result ⟨hAsked, hOpen⟩ => ?_
    obtain ⟨asked, ask⟩ := result
    refine yields_check (checks_chosen ask.options req.choice) fun choice _ => ?_
    dsimp only
    refine yields_refuse fun _ => ?_
    -- the question is open, so a trim keeps it
    have hKept : (req.question, asked) ∈ r.Keeping := by
      refine ⟨hAsked, ?_⟩
      unfold Room.keeps
      rw [hOpen]
      rfl
    -- what follows the checks, for a member or one who joins
    have hRest : ∀ (core₁ : Core) (post : Core → Post),
        Holding core.limits core.journaled (Keeping req.room r.Keeping) core₁ →
        (∀ core, (post core).id = core.store.next_id now) → (∀ core, (post core).kind = .Answer) →
        (∀ core, (post core).reply_to = some req.question) → (∀ core, (post core).ask = none) →
        Yields (do
          let core ← read
          append req.room (post core) now
          let core' ← read
          let resolved := (core'.store.rooms[req.room]?).any fun record => record.resolved req.question
          if resolved then set_question req.room req.question .Resolved now
          pure (post core, resolved)) core₁ fun result core' => core.store.last_id < result.1.id →
            core'.store.last_id ≠ .MAX → core'.store.holds req.room result.1 := by
      intro core₁ post h₁ hId hKind hReply hPlain
      obtain ⟨r₁, hr₁, hFiled, hKeeping⟩ := h₁.store
      refine sat_read (yields_bind (append_yields (hId core₁) hr₁) fun _ core₂ hAppended => sat_read ?_)
      have hLast : core₁.store.last_id ≤ core₂.store.last_id := hAppended.last_id ▸ le_max_left _ _
      have hThere : core₂.store.last_id ≠ .MAX → core₂.store.holds req.room (post core₁) := by
        intro hIds
        have hStill : (req.question, asked) ∈ r₁.Keeping := hKeeping (ids_left hLast hIds) ▸ hKept
        exact hAppended.holds.mpr (Room.appended_kept hFiled
          (answer_keeps hFiled (hAppended.new hIds) hStill.1 hOpen (hKind core₁) (hReply core₁)))
      dsimp only
      split
      · refine yields_bind (set_question_yields _ _ _ now) fun _ core₃ hStore => ?_
        intro _ hIds
        rw [hStore] at hIds ⊢
        exact (question_holds _ _ (hPlain core₁) _ _ _).mpr (hThere (ids_left (apply_last_id _ _) hIds))
      · exact fun _ => hThere
    have hStart := holding_start hOrderly hr
    split
    · refine yields_keeps (keeps_join actor.name none actor now) hStart fun _ core₁ h₁ => ?_
      exact hRest core₁ _ h₁ (fun _ => rfl) (fun _ => rfl) (fun _ => rfl) fun _ => rfl
    · exact hRest core _ hStart (fun _ => rfl) (fun _ => rfl) (fun _ => rfl) fun _ => rfl

/-! ## Any forum -/

/-- The line that tells of `change` can be read just when those that must stay, and
`more` lines that follow, leave it a place. -/
def LineReadable (name : String) (change : Effect) (more : Nat) (core core' : Core) : Prop :=
  core'.store.last_id ≠ .MAX →
    ∃ p, Told name change p core core' ∧
      (Readable core' name p ↔ core.kept name + more < core.limits.room_history)

theorem Kept.readable {change : Effect} {more : Nat} (h : Kept name change more core core') :
    LineReadable name change more core core' := fun hIds => by
  obtain ⟨p, hTold, hHolds⟩ := h hIds
  exact ⟨p, hTold, readable_iff.trans hHolds⟩

end

/-- **What was accepted can be read** in any state the forum comes to, as long as ids do
not run out: a question or an answer always, and a note, or the line that tells of a
change, just when the posts that must stay are fewer than the history. A room that is
closed with a new topic needs one place more, for the line that says so. -/
theorem accepted_readable (start : Core) (hStart : start.store = {}) (before : List Asked)
    (memory : Nat) (now : Fin (2 ^ 64)) :
    let core : Core := { start.run before with memory }
    (∀ req actor p core', post req actor now core = (.ok (p, true), core') →
      core'.store.last_id ≠ .MAX → (Readable core' req.room p ↔
        req.ask.isSome = true ∨ core.kept req.room < core.limits.room_history)) ∧
    (∀ req actor p resolved core', answer req actor now core = (.ok (p, resolved), core') →
      core.store.last_id < p.id → core'.store.last_id ≠ .MAX → Readable core' req.room p) ∧
    (∀ name agent role actor core', join name agent role actor now core = (.ok true, core') →
      ∃ member, LineReadable name (.Member name agent (some member)) 0 core core') ∧
    (∀ name key value expect actor entry core', board_set name key value expect actor now core =
      (.ok entry, core') → core.board_changes name key value →
        ∃ entry, LineReadable name (.Board name key entry) 0 core core') ∧
    ∀ name topic closed actor core', update_room name (some topic) closed actor now core =
      (.ok (), core') → core.topic_changes name topic →
        LineReadable name (.Topic name topic) (if closed = some true then 1 else 0) core core' := by
  intro core
  have hEmpty : Orderly start.store := hStart ▸ Orderly.empty
  have hOrderly : Orderly core.store := (run_ran before hEmpty).orderly hEmpty
  refine ⟨fun req actor p core' hOk hIds => ?_, fun req actor p resolved core' hOk hNew hIds => ?_,
    fun name agent role actor core' hOk => ?_, fun name key value expect actor entry core' hOk hChanges => ?_,
    fun name topic closed actor core' hOk hChanges => ?_⟩
  · exact readable_iff.trans ((post_kept hOrderly req actor now).elim hOk rfl hIds)
  · exact readable_iff.mpr ((answer_kept hOrderly req actor now).elim hOk hNew hIds)
  · obtain ⟨member, h⟩ := (join_kept hOrderly name agent role actor now).elim hOk rfl
    exact ⟨member, h.readable⟩
  · obtain ⟨entry, h⟩ := (board_set_kept hOrderly name key value expect actor now).elim hOk hChanges
    exact ⟨entry, h.readable⟩
  · exact ((update_room_kept hOrderly name topic closed actor now).elim hOk hChanges).readable

/-- A room of alice's with ten open questions. -/
def ten_questions : List Asked :=
  let room : CreateRoom := { name := "release", topic := "", private_ := false, members := [], join := false }
  let question : PostRequest :=
    { room := "release", body := "ready?", reply_to := none, about := none, key := none
      ask := some { to_ := [], options := [], ttl_ms := none } }
  { op := .create_room room alice, now := 1 } :: .replicate 10 { op := .post question alice, now := 2 }

def a_note : PostRequest :=
  { room := "release", body := "tests are flaky", reply_to := none, about := none, key := none, ask := none }

theorem accepted_readable_note :
    let core : Core := { ({} : Core).run ten_questions with memory := 0 }
    ∃ p core', post a_note alice 3 core = (.ok (p, true), core') ∧ Readable core' "release" p := by
  intro core
  have hNew : ((post a_note alice 3 core).1.toOption.map Prod.snd) = some true := by decide +kernel
  have hLeft : (post a_note alice 3 core).2.store.last_id ≠ .MAX := by decide +kernel
  have hFits : core.kept "release" < core.limits.room_history := by decide +kernel
  rcases hResult : post a_note alice 3 core with ⟨e | ⟨p, fresh⟩, core'⟩
  · rw [hResult] at hNew
    cases hNew
  · rw [hResult] at hNew hLeft
    cases hNew
    exact ⟨p, core', rfl, ((accepted_readable {} rfl ten_questions 0 3).1 a_note alice p core'
      hResult hLeft).mpr (.inr hFits)⟩

/-- At the shortest history there can be, ten open questions leave no place for a
note. -/
theorem note_lost :
    ¬ ∀ (start : Core) (before : List Asked) (req : PostRequest) (actor : Actor) (now : Fin (2 ^ 64))
      (p : Post) (core' : Core), start.store = {} → 10 ≤ start.limits.room_history →
        post req actor now (start.run before) = (.ok (p, true), core') → Readable core' req.room p := by
  intro h
  let start : Core := { limits := { room_history := 10 } }
  have hNew : ((post a_note alice 3 (start.run ten_questions)).1.toOption.map Prod.snd) = some true := by
    decide +kernel
  have hGone : ((post a_note alice 3 (start.run ten_questions)).1.toOption.bind fun result =>
      ((post a_note alice 3 (start.run ten_questions)).2.store.rooms["release"]?).bind fun r =>
        r.posts[result.1.id]?) = none := by decide +kernel
  rcases hResult : post a_note alice 3 (start.run ten_questions) with ⟨e | ⟨p, fresh⟩, core'⟩
  · rw [hResult] at hNew
    cases hNew
  · rw [hResult] at hNew hGone
    cases hNew
    obtain ⟨r, hr, hp⟩ := (h start ten_questions a_note alice 3 p core' rfl le_rfl hResult).holds
    have hGone : (core'.store.rooms["release"]?).bind (fun r => r.posts[p.id]?) = none := hGone
    rw [show core'.store.rooms["release"]? = some r from hr] at hGone
    rw [show (some r).bind (fun r => r.posts[p.id]?) = r.posts[p.id]? from rfl, hp] at hGone
    cases hGone

end Postino.Forum
