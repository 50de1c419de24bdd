import Postino.Forum.Frames
import Postino.Forum.Operations

/-!
# What a refused operation leaves

Every operation makes its checks before it changes anything. What comes after may
fail only because the journal does: posting joins whoever is new to the room, and
those joins pass the checks `post` has made.

* `ensure_agents_clean` — nobody is forgotten before there is room for all.
* `join_sure` — a join that follows the checks of `post` is not refused.
* `refused_unchanged` — a refused operation leaves the core as it was.
-/

namespace Postino.Forum

open Lib Fallible

/-- The errors that come from the journal. -/
def Error.is_fault (e : Error) : Prop := ∃ text, e = .Storage text

/-! ## Changes -/

section

variable {core : Core}

theorem sure_commit (effect : Effect) :
    Sure Error.is_fault (commit effect) core
      fun _ core' => core'.store = core.store.apply effect := by
  unfold Sure commit
  cases core.halted with
  | true => exact ⟨_, rfl⟩
  | false =>
    rcases core.journal with - | ⟨- | e, rest⟩
    · rfl
    · rfl
    · exact ⟨_, rfl⟩

/-- What comes after a change. -/
theorem sure_commit_bind {α : Type} {effect : Effect} {f : Unit → Op α} {Done : α → Core → Prop}
    (h : ∀ core', core'.store = core.store.apply effect → Sure Error.is_fault (f ()) core' Done) :
    Sure Error.is_fault (commit effect >>= f) core Done :=
  sure_bind (sure_commit effect) fun _ => h

/-- What comes after something was published. -/
theorem sure_told {α : Type} {m : Op Unit} {f : Unit → Op α} {Done : α → Core → Prop}
    (hTold : Sure Error.is_fault m core fun _ core' => core'.store = core.store)
    (h : ∀ core', core'.store = core.store → Sure Error.is_fault (f ()) core' Done) :
    Sure Error.is_fault (m >>= f) core Done :=
  sure_bind hTold fun _ => h

variable {kind name : String} {scope : List String} {data : List (String × JsonValue)}

theorem sure_emit {now : Nat} :
    Sure Error.is_fault (emit kind scope data now) core fun _ core' => core'.store = core.store :=
  rfl

theorem sure_emit_all {now : Nat} :
    Sure Error.is_fault (emit_all kind data now) core fun _ core' => core'.store = core.store :=
  rfl

theorem sure_emit_room {now : Fin (2 ^ 64)} :
    Sure Error.is_fault (emit_room kind name data now) core fun _ core' => core'.store = core.store :=
  rfl

theorem sure_hand_over :
    Sure Error.is_fault (hand_over name) core fun _ core' => core'.store = core.store := rfl

theorem sure_wake {topic : Topic} :
    Sure Error.is_fault (wake topic) core fun _ core' => core'.store = core.store := rfl

/-! ## Agents -/

theorem checks_require_known (name : String) : Checks (require_known name) core fun _ => True :=
  checks_bind (P := (· = core)) (sat_read (sat_pure ⟨rfl, rfl⟩)) fun _ _ =>
    checks_refuse.mono (fun _ _ h => ⟨h.1, trivial⟩) fun _ => id

theorem forget_agent_sure (name : String) (now : Fin (2 ^ 64)) :
    Sure Error.is_fault (forget_agent name now) core
      fun _ core' => core'.store = core.store.apply (.Forget name) := by
  refine sure_commit_bind fun core₁ h₁ => sure_told sure_emit fun core₂ h₂ => ?_
  exact sure_hand_over.mono fun _ _ h => h.trans (h₂.trans h₁)

theorem add_agent_sure (name : String) (now : Fin (2 ^ 64)) :
    Sure Error.is_fault (add_agent name now) core
      fun _ core' => core'.store = core.store.apply (.Agent name now) := by
  refine sure_commit_bind fun core₁ h₁ => ?_
  exact sure_emit.mono fun _ _ h => h.trans h₁

/-- The open rooms of a store are there, just as they were. -/
def KeepsOpen (store store' : Store) : Prop :=
  ∀ (name : String) r, store.rooms[name]? = some r → r.is_open = true →
    store'.rooms[name]? = some r

theorem agent_rooms (store : Store) (name : String) (at_ : Nat) :
    (store.apply (.Agent name at_)).rooms = store.rooms := by
  unfold Store.apply
  dsimp only
  split <;> rfl

/-- An agent in no open room is forgotten without a trace in those. -/
theorem forget_keepsOpen {store store' : Store} (h : KeepsOpen store store') {name : String}
    (hOut : name ∉ store.room_members) : KeepsOpen store (store'.apply (.Forget name)) := by
  intro i r hRoom hOpen
  rw [apply_room store' rfl, h i r hRoom hOpen]
  have hNot : r.members[name]? = none := by
    rw [Option.eq_none_iff_forall_ne_some]
    intro member hMember
    refine hOut (List.mem_flatMap.mpr ⟨(i, r), ?_, ?_⟩)
    · exact List.mem_filter.mpr ⟨(BTreeMap.mem_toList _ _ _).mpr hRoom, hOpen⟩
    · exact List.mem_map.mpr ⟨(name, member), (BTreeMap.mem_toList _ _ _).mpr hMember, rfl⟩
  show some { r with members := r.members.erase name } = some r
  rw [BTreeMap.erase_of_get_none _ hNot]

/-- **Agents are made room for before anybody is forgotten.** -/
theorem ensure_agents_clean (names : List String) (now : Fin (2 ^ 64)) :
    Clean Error.is_fault (ensure_agents names now) core fun _ core' =>
      KeepsOpen core.store core'.store ∧ ∀ name ∈ names, name ∈ core'.store.agents := by
  unfold ensure_agents
  refine clean_read ?_
  set missing := (names.filter fun name => !core.store.agents.contains name).eraseDups with hMissing
  -- whoever is asked for is there or missing
  have hNames : ∀ name ∈ names, name ∈ core.store.agents ∨ name ∈ missing := by
    intro name hName
    by_cases hKnown : name ∈ core.store.agents
    · exact .inl hKnown
    · refine .inr (List.mem_eraseDups.mpr (List.mem_filter.mpr ⟨hName, ?_⟩))
      rw [Bool.not_eq_true']
      exact Bool.eq_false_iff.mpr hKnown
  dsimp only
  split
  · next hNone =>
    refine clean_pure ⟨fun _ _ h _ => h, fun name hName => (hNames name hName).resolve_right ?_⟩
    rw [hNone]
    exact List.not_mem_nil
  · refine clean_refuse fun _ => Sure.clean ?_
    -- those who go are in no open room, and nobody asked for them
    set going := (if core.store.agents.size + missing.length - core.limits.max_agents > 0 then
      (core.removable now).filter fun name => !names.contains name else []).take
        (core.store.agents.size + missing.length - core.limits.max_agents) with hGoing
    have hGone : ∀ name ∈ going, name ∉ core.store.room_members ∧ name ∉ names := by
      intro name hName
      have hMem := List.mem_of_mem_take hName
      split at hMem
      · obtain ⟨hRemovable, hOther⟩ := List.mem_filter.mp hMem
        obtain ⟨⟨key, a⟩, hA, rfl⟩ := List.mem_map.mp hRemovable
        have hFree := (List.mem_filter.mp (List.mem_mergeSort.mp hA)).2
        refine ⟨fun hIn => ?_, by simpa using hOther⟩
        simp [hIn] at hFree
      · exact absurd hMem List.not_mem_nil
    refine sure_bind (sure_forM (fun rest core' => (∀ name ∈ rest, name ∈ going) ∧
      KeepsOpen core.store core'.store ∧
        ∀ name ∈ names, name ∈ core.store.agents → name ∈ core'.store.agents) going ?_
      ⟨fun _ => id, fun _ _ h _ => h, fun _ _ h => h⟩) ?_
    · -- forgetting them, one after the other
      rintro name rest core₁ ⟨hRest, hRooms, hAgents⟩
      obtain ⟨hOut, hOther⟩ := hGone name (hRest name List.mem_cons_self)
      refine (forget_agent_sure name now).mono fun _ core₂ h₂ => ?_
      refine ⟨fun n hn => hRest n (List.mem_cons_of_mem _ hn), ?_, fun n hn hKnown => ?_⟩
      · rw [h₂]
        exact forget_keepsOpen hRooms hOut
      · rw [h₂, forget_agents]
        refine ⟨?_, hAgents n hn hKnown⟩
        rintro rfl
        exact hOther hn
    · rintro - core₁ ⟨-, hRooms, hAgents⟩
      -- then the missing ones are added
      refine (sure_forM (fun rest core' => KeepsOpen core.store core'.store ∧
        ∀ name ∈ names, name ∉ rest → name ∈ core'.store.agents) missing ?_
        ⟨hRooms, fun name hName hNot => ?_⟩).mono fun _ core₂ h₂ =>
          ⟨h₂.1, fun name hName => h₂.2 name hName List.not_mem_nil⟩
      · rintro name rest core₂ ⟨hRooms, hAgents⟩
        refine (add_agent_sure name now).mono fun _ core₃ h₃ => ?_
        rw [h₃]
        refine ⟨fun i r hRoom hOpen => ?_, fun n hn hNot => ?_⟩
        · rw [agent_rooms]
          exact hRooms i r hRoom hOpen
        · rw [agent_agents]
          by_cases hThis : name = n
          · exact .inl hThis
          · refine .inr (hAgents n hn fun hMem => ?_)
            rcases List.mem_cons.mp hMem with hEq | hMem
            · exact hThis hEq.symm
            · exact hNot hMem
      · exact hAgents name hName ((hNames name hName).resolve_right hNot)

/-! ## Posts -/

theorem trim_room_sure (name : String) :
    Sure Error.is_fault (trim_room name) core fun _ core' =>
      SameStanding core.store core'.store := by
  unfold trim_room
  refine sure_read ?_
  split
  · exact sure_pure (.refl _)
  · dsimp only
    split
    · refine (sure_commit _).mono fun _ core' h => ?_
      rw [h]
      exact posts_standing core.store rfl
    · exact sure_pure (.refl _)

theorem append_sure (name : String) (post : Post) (now : Fin (2 ^ 64)) :
    Sure Error.is_fault (append name post now) core fun _ core' =>
      SameStanding core.store core'.store := by
  refine sure_commit_bind fun core₁ h₁ => sure_bind (trim_room_sure name) fun _ core₂ h₂ => ?_
  refine sure_read (sure_told sure_emit_room fun core₃ h₃ => sure_wake.mono fun _ core₄ h₄ => ?_)
  rw [h₄, h₃]
  rw [h₁] at h₂
  exact (posts_standing core.store rfl).trans h₂

theorem log_sure (name from_ body : String) (now : Fin (2 ^ 64)) :
    Sure Error.is_fault (log name from_ body now) core fun _ core' =>
      SameStanding core.store core'.store :=
  sure_read (append_sure name _ now)

theorem set_question_sure (name : String) (id : Id) (status : Status) (now : Fin (2 ^ 64)) :
    Sure Error.is_fault (set_question name id status now) core fun _ _ => True :=
  sure_commit_bind fun _ _ => sure_told sure_emit_room fun _ _ => sure_wake.mono fun _ _ _ => trivial

theorem drop_room_sure (name : String) (now : Fin (2 ^ 64)) :
    Sure Error.is_fault (drop_room name now) core fun _ _ => True :=
  sure_read (sure_commit_bind fun _ _ => sure_told sure_emit fun _ _ =>
    sure_wake.mono fun _ _ _ => trivial)

theorem trim_history_sure (agent : String) :
    Sure Error.is_fault (trim_history agent) core fun _ _ => True := by
  unfold trim_history
  refine sure_read ?_
  dsimp only
  split
  · exact (sure_commit _).mono fun _ _ _ => trivial
  · exact sure_pure trivial

/-! ## Joining -/

theorem checks_visible_room (name : String) (actor : Actor) :
    Checks (visible_room name actor) core fun record => core.store.rooms[name]? = some record ∧
      (actor.admin || !record.private_ || record.members.contains actor.name) = true :=
  sat_visible_room core name actor

theorem checks_room_to_grow : Checks room_to_grow core fun _ => True :=
  (sat_room_to_grow core).mono (fun _ _ h => ⟨h.2, trivial⟩) fun _ => id

theorem checks_require_owner {record : Room} {actor : Actor} :
    Checks (require_owner record actor) core fun _ => True :=
  checks_refuse.mono (fun _ _ h => ⟨h.1, trivial⟩) fun _ => id

theorem checks_open_room (name : String) :
    Checks (open_room name) core fun record => core.store.rooms[name]? = some record ∧
      record.is_open = true := sat_open_room core name

theorem joining_member_clean (name agent : String) (role : Option Role) (actor : Actor)
    (record : Room) (now : Fin (2 ^ 64)) :
    Clean Error.is_fault (joining_member name agent role actor record now) core fun _ _ => True := by
  unfold joining_member
  dsimp only
  cases record.members[agent]? with
  | some member =>
    dsimp only
    split
    · split
      · exact clean_refuse fun _ => clean_pure trivial
      · exact clean_pure trivial
    · exact clean_pure trivial
  | none =>
    refine clean_when (checks_require_known agent) ?_
    exact clean_bind_sure (ensure_agents_clean _ now) fun _ _ _ => sure_pure trivial

/-- The end of a join, which nothing refuses. -/
theorem join_done_sure {name agent : String} {member : Member} {actor : Actor} {record : Room}
    {now : Fin (2 ^ 64)} {body : String} (hRoom : core.store.rooms[name]? = some record) :
    Sure Error.is_fault (do
        commit (.Member name agent (some member))
        emit_room "member" name
          [("agent", .string agent), ("joined", .bool true), ("role", .string member.role.display)] now
        log name actor.name body now
        pure true) core fun _ core' =>
      core'.store.agents = core.store.agents ∧ ∃ r, core'.store.rooms[name]? = some r ∧
        r.standing = { record with members := record.members.insert agent member }.standing := by
  refine sure_commit_bind fun core₁ h₁ => sure_told sure_emit_room fun core₂ h₂ => ?_
  refine sure_bind (log_sure name actor.name body now) fun _ core₃ h₃ => sure_pure ?_
  have hRoom₁ : core₂.store.rooms[name]? =
      some { record with members := record.members.insert agent member } := by
    rw [h₂, h₁, apply_room core.store rfl, hRoom]
    exact if_pos rfl
  refine ⟨h₃.agents.trans ?_, h₃.room hRoom₁⟩
  rw [h₂, h₁]
  exact (apply_same core.store rfl).agents

theorem join_clean (name agent : String) (role : Option Role) (actor : Actor)
    (now : Fin (2 ^ 64)) :
    Clean Error.is_fault (join name agent role actor now) core fun _ _ => True := by
  unfold join
  refine clean_bind_check (checks_visible_room name actor) fun _ _ => ?_
  refine clean_bind_check (checks_open_room name) fun record _ => ?_
  dsimp only
  refine clean_refuse fun _ => clean_refuse fun _ => clean_refuse fun _ => clean_refuse fun _ => ?_
  refine clean_bind_sure (joining_member_clean name agent role actor record now) fun member core₁ _ => ?_
  cases member with
  | none => exact sure_pure trivial
  | some member =>
    refine sure_read (sure_commit_bind fun core₂ _ => sure_told sure_emit_room fun core₃ _ => ?_)
    exact sure_bind (log_sure name actor.name _ now) fun _ _ _ => sure_pure trivial

/-- Whom `post` brings into the room `name`: there is room for them, and they are
known. -/
structure Admits (name : String) (private_ : Bool) (joining : List String) (store : Store) : Prop where
  room : ∃ record, store.rooms[name]? = some record ∧ record.is_open = true ∧
    record.private_ = private_ ∧ record.members.size + joining.length ≤ MAX_MEMBERS ∧
    ∀ agent ∈ joining, record.members[agent]? = none
  known : ∀ agent ∈ joining, agent ∈ store.agents
  nodup : joining.Nodup

theorem room_eq {name : String} {record : Room} (hRoom : core.store.rooms[name]? = some record) :
    room name core = (.ok record, core) := by
  unfold room
  rw [bind_of_ok (show (read : Op Core) core = (.ok core, core) from rfl), hRoom]
  rfl

theorem visible_room_eq {name : String} {actor : Actor} {record : Room}
    (hRoom : core.store.rooms[name]? = some record)
    (hShown : (actor.admin || !record.private_ || record.members.contains actor.name) = true) :
    visible_room name actor core = (.ok record, core) := by
  unfold visible_room
  rw [bind_of_ok (room_eq hRoom), hShown]
  rfl

theorem open_room_eq {name : String} {record : Room} (hRoom : core.store.rooms[name]? = some record)
    (hOpen : record.is_open = true) : open_room name core = (.ok record, core) := by
  unfold open_room
  rw [bind_of_ok (room_eq hRoom), hOpen]
  rfl

theorem ensure_agents_eq {names : List String} {now : Fin (2 ^ 64)}
    (h : ∀ name ∈ names, name ∈ core.store.agents) : ensure_agents names now core = (.ok (), core) := by
  have hNone : (names.filter fun name => !core.store.agents.contains name).eraseDups = [] := by
    rw [List.filter_eq_nil_iff.mpr]
    · rfl
    · intro name hName
      simpa using h name hName
  show (if (names.filter fun name => !core.store.agents.contains name).eraseDups = [] then pure ()
    else _ : Op Unit) core = _
  rw [if_pos hNone]
  rfl

/-- **A join that follows the checks of `post` is not refused.** -/
theorem join_sure {name agent : String} {private_ : Bool} {joining : List String} {actor : Actor}
    (h : Admits name private_ (agent :: joining) core.store) (hSelf : agent = actor.name ∨ actor.strict = false)
    (hAllowed : actor.admin = true ∨ (agent = actor.name ∧ private_ = false)) (now : Fin (2 ^ 64)) :
    Sure Error.is_fault (join name agent none actor now) core
      fun _ core' => Admits name private_ joining core'.store := by
  obtain ⟨⟨record, hRoom, hOpen, hPrivate, hSize, hNew⟩, hKnown, hNodup⟩ := h
  obtain ⟨hThis, hRest⟩ := List.nodup_cons.mp hNodup
  rw [List.length_cons] at hSize
  have hNone := hNew agent List.mem_cons_self
  -- who brings in another is an administrator
  have hManages : agent ≠ actor.name → actor.admin = true := fun hNe =>
    hAllowed.resolve_right fun h => hNe h.1
  have hShown : (actor.admin || !record.private_ || record.members.contains actor.name) = true := by
    rcases hAllowed with hAdmin | ⟨-, hPublic⟩
    · simp [hAdmin]
    · simp [hPrivate, hPublic]
  have hManages' : agent ≠ actor.name → manages record actor = true := by
    intro hNe
    unfold manages
    simp [hManages hNe]
  unfold join
  refine sure_of_ok (visible_room_eq hRoom hShown) (sure_of_ok (open_room_eq hRoom hOpen) ?_)
  dsimp only
  -- nobody joins twice
  have hOut : record.members.contains agent = false := by
    rw [← Bool.not_eq_true]
    intro hIn
    obtain ⟨member, hMember⟩ := (BTreeMap.contains_iff_get _ _).mp hIn
    rw [hNone] at hMember
    cases hMember
  refine sure_refuse ?_ (sure_refuse rfl (sure_refuse ?_ (sure_refuse ?_ ?_)))
  · by_cases hEq : agent = actor.name
    · simp [hEq]
    · simp [hManages' hEq]
  · rcases hAllowed with hAdmin | ⟨-, hPublic⟩
    · simp [manages, hAdmin]
    · simp [hPrivate, hPublic]
  · simp only [Bool.and_eq_false_imp, decide_eq_false_iff_not]
    omega
  -- the member is new, and known
  have hMember : joining_member name agent none actor record now core =
      (.ok (some { role := .Member, joined := now, cursor := none }), core) := by
    unfold joining_member
    dsimp only
    rw [hNone]
    -- a strict actor only joins by itself
    have hSelf' : ¬ (agent ≠ actor.name ∧ actor.strict = true) := by
      rintro ⟨hNe, hStrict⟩
      rcases hSelf with hEq | hLoose
      · exact hNe hEq
      · rw [hLoose] at hStrict
        cases hStrict
    dsimp only
    rw [if_neg hSelf', bind_of_ok (ensure_agents_eq fun n hn => ?_)]
    · rfl
    · obtain rfl := List.mem_singleton.mp hn
      exact hKnown n List.mem_cons_self
  refine sure_of_ok hMember (sure_read ((join_done_sure hRoom).mono fun _ core' hDone => ?_))
  obtain ⟨hAgents, r, hRoom', hStanding⟩ := hDone
  have hMembers : r.members = record.members.insert agent
      { role := .Member, joined := now, cursor := none } := congrArg Room.members hStanding
  refine ⟨⟨r, hRoom', ?_, ?_, ?_, fun n hn => ?_⟩, fun n hn => ?_, hRest⟩
  · have hClosed := congrArg Room.closed hStanding
    unfold Room.is_open at hOpen ⊢
    rwa [show r.closed = record.closed from hClosed]
  · have hSame := congrArg Room.private_ hStanding
    exact (show r.private_ = record.private_ from hSame).trans hPrivate
  · rw [hMembers, Std.ExtTreeMap.size_insert]
    split <;> omega
  · rw [hMembers, BTreeMap.get_insert, if_neg]
    · exact hNew n (List.mem_cons_of_mem _ hn)
    · rintro rfl
      exact hThis hn
  · rw [hAgents]
    exact hKnown n (List.mem_cons_of_mem _ hn)

/-! ## Questions -/

/-- A question's addressees are named once each, and are not its asker. -/
theorem checks_addressees (asker : String) (names to_ : List String) (hNodup : to_.Nodup)
    (hOther : asker ∉ to_) :
    Checks (addressees asker names to_) core fun to_ => to_.Nodup ∧ asker ∉ to_ := by
  induction names generalizing to_ with
  | nil => exact checks_pure ⟨hNodup, hOther⟩
  | cons name names ih =>
    unfold addressees
    split
    · exact checks_fail
    · next hName =>
      split
      · exact ih to_ hNodup hOther
      · next hNew =>
        refine ih _ ?_ ?_
        · rw [List.nodup_append]
          refine ⟨hNodup, List.nodup_singleton name, fun a ha b hb => ?_⟩
          obtain rfl := List.mem_singleton.mp hb
          rintro rfl
          exact hNew (by simpa using ha)
        · simp only [List.mem_append, List.mem_singleton, not_or]
          exact ⟨hOther, fun hEq => hName hEq.symm⟩

theorem checks_distinct_options (given options : List String) :
    Checks (distinct_options given options) core fun _ => True := by
  induction given generalizing options with
  | nil => exact checks_pure trivial
  | cons option given ih =>
    unfold distinct_options
    dsimp only
    split
    · exact checks_fail
    · exact ih _

theorem checks_asking (req : Option AskRequest) (asker : String) (now : Fin (2 ^ 64)) :
    Checks (asking req asker now) core fun ask =>
      (ask.elim [] Ask.to_).Nodup ∧ asker ∉ ask.elim [] Ask.to_ ∧ ask.isSome = req.isSome ∧
        ∀ a, ask = some a → a.status = .Open := by
  unfold asking
  cases req with
  | none => exact checks_pure ⟨List.nodup_nil, List.not_mem_nil, rfl, nofun⟩
  | some req =>
    refine sat_read (checks_bind
      (checks_addressees asker req.to_ [] List.nodup_nil List.not_mem_nil) fun to_ hTo => ?_)
    refine checks_bind (checks_distinct_options _ _) fun options _ => ?_
    refine checks_bind checks_refuse fun _ _ => checks_pure ⟨hTo.1, hTo.2, rfl, ?_⟩
    rintro _ ⟨⟩
    rfl

theorem checks_admit_question (record : Room) (ask : Ask) (actor : Actor) :
    Checks (admit_question record ask actor) core fun _ => True := by
  have hLimits : ∀ p q : Bool, ∀ e e' : Error, Checks (do
      refuse p e
      refuse q e') core fun _ => True := fun p q e e' =>
    checks_bind checks_refuse fun _ _ => checks_refuse.mono (fun _ _ h => ⟨h.1, trivial⟩) fun _ => id
  have hKnown : Checks (do
      if actor.strict then ask.to_.forM require_known
      let open_ := record.open_questions.length
      let own := (record.open_questions.filter fun p => p.from_ = actor.name).length
      refuse (MAX_OPEN_QUESTIONS ≤ open_) <| .Full
        s!"room {debug record.name} has {MAX_OPEN_QUESTIONS} open questions; answer or withdraw some first"
      refuse (actor.strict && share MAX_OPEN_QUESTIONS ≤ own) <| .Full
        s!"{actor.name} has {own} open questions in room {debug record.name}, a quarter of what it holds; withdraw one first")
      core fun _ => True := by
    dsimp only
    split
    · exact checks_bind (checks_forM _ fun n _ => checks_require_known n) fun _ _ => hLimits _ _ _ _
    · exact hLimits _ _ _ _
  unfold admit_question
  cases ask.to_.find? fun name => !record.members.contains name with
  | none => exact hKnown
  | some outsider => exact checks_bind checks_refuse fun _ _ => hKnown

theorem checks_replied_to (name : String) (record : Room) (reply_to : Option Id) :
    Checks (replied_to name record reply_to) core fun _ => True := by
  unfold replied_to
  split
  · exact checks_pure trivial
  · split
    · exact checks_pure trivial
    · exact checks_fail

theorem checks_asked_question (name : String) (question : Id) (record : Room) (actor : Actor) :
    Checks (asked_question name question record actor) core fun _ => True := by
  unfold asked_question
  split
  · exact checks_fail
  · split
    · exact checks_fail
    · refine checks_bind checks_refuse fun _ _ => checks_bind checks_refuse fun _ _ => ?_
      refine checks_bind checks_refuse fun _ _ => checks_bind checks_refuse fun _ _ => ?_
      exact checks_pure trivial

theorem checks_chosen (options : List String) (choice : Option String) :
    Checks (chosen options choice) core fun _ => True := by
  unfold chosen
  split
  · exact checks_pure trivial
  · split
    · exact checks_pure trivial
    · exact checks_fail
  · exact checks_fail

/-! ## The operations -/

/-- **Bringing in whoever is new is not refused halfway.** -/
theorem bring_in_clean {α : Type} {name text : String} {record : Room} {actor : Actor}
    {to_ : List String} (now : Fin (2 ^ 64)) {rest : Op α}
    (hRoom : core.store.rooms[name]? = some record) (hOpen : record.is_open = true)
    (hShown : (actor.admin || !record.private_ || record.members.contains actor.name) = true)
    (hTo : to_.Nodup ∧ actor.name ∉ to_)
    (hRest : ∀ core', Sure Error.is_fault rest core' fun _ _ => True) :
    let joining := (actor.name :: to_).filter fun name => !record.members.contains name
    let inviter : Actor := { name := actor.name, admin := true, strict := false }
    Clean Error.is_fault (do
        refuse (record.members.size + joining.length > MAX_MEMBERS) (.Full text)
        ensure_agents joining now
        joining.forM fun agent => do
          let _ ← join name agent none (if agent = actor.name then actor else inviter) now
          pure ()
        rest) core fun _ _ => True := by
  intro joining inviter
  have hNew : ∀ agent ∈ joining, record.members[agent]? = none := by
    intro agent hAgent
    have hOut := (List.mem_filter.mp hAgent).2
    rw [Option.eq_none_iff_forall_ne_some]
    intro member hMember
    rw [(BTreeMap.contains_iff_get _ _).mpr ⟨member, hMember⟩] at hOut
    cases hOut
  refine clean_refuse fun hFits => ?_
  have hFits : record.members.size + joining.length ≤ MAX_MEMBERS := by
    simpa using hFits
  refine clean_bind_sure (ensure_agents_clean joining now) fun _ core₁ hEnsured => ?_
  obtain ⟨hRooms, hKnown⟩ := hEnsured
  -- after that every check that a join makes is met for all of them
  have hAdmits : Admits name record.private_ joining core₁.store :=
    ⟨⟨record, hRooms name record hRoom hOpen, hOpen, rfl, hFits, hNew⟩, hKnown,
      (List.nodup_cons.mpr ⟨hTo.2, hTo.1⟩).filter _⟩
  refine sure_bind (sure_forM (fun rest core' =>
    Admits name record.private_ rest core'.store ∧ ∀ agent ∈ rest, agent ∈ joining) joining ?_
    ⟨hAdmits, fun _ => id⟩) fun _ core' _ => hRest core'
  rintro agent rest core₂ ⟨hAdmits, hAll⟩
  have hJoin : Sure Error.is_fault
      (join name agent none (if agent = actor.name then actor else inviter) now) core₂
      fun _ core' => Admits name record.private_ rest core'.store := by
    by_cases hSelf : agent = actor.name
    · -- the actor itself, who may see the room and so may join it
      rw [if_pos hSelf]
      refine join_sure hAdmits (.inl hSelf) ?_ now
      have hOut : record.members.contains actor.name = false := by
        rw [← Bool.not_eq_true, BTreeMap.contains_iff_get]
        rintro ⟨member, hMember⟩
        rw [← hSelf, hNew agent (hAll agent List.mem_cons_self)] at hMember
        cases hMember
      rw [hOut] at hShown
      rcases Bool.or_eq_true_iff.mp ((Bool.or_false _).symm.trans hShown) with hAdmin | hPublic
      · exact .inl hAdmin
      · exact .inr ⟨hSelf, by simpa using hPublic⟩
    · rw [if_neg hSelf]
      -- another, brought in as an administrator would
      exact join_sure hAdmits (.inr rfl) (.inl rfl) now
  exact sure_bind hJoin fun _ _ h => sure_pure
    ⟨h, fun agent hAgent => hAll agent (List.mem_cons_of_mem _ hAgent)⟩

theorem post_new_clean {req : PostRequest} {record : Room} {actor : Actor} (now : Fin (2 ^ 64))
    (hRoom : core.store.rooms[req.room]? = some record) (hOpen : record.is_open = true)
    (hShown : (actor.admin || !record.private_ || record.members.contains actor.name) = true) :
    Clean Error.is_fault (post_new req record actor now) core fun _ _ => True := by
  unfold post_new
  refine clean_bind_check (checks_replied_to req.room record req.reply_to) fun parent _ => ?_
  dsimp only
  refine clean_bind_check (checks_asking req.ask actor.name now) fun ask hAsk => ?_
  have hAppend : ∀ core', ∀ post : Core → Post, Sure Error.is_fault (do
      let core ← read
      append req.room (post core) now
      pure (post core, true)) core' fun _ _ => True := fun core' post =>
    sure_read (sure_bind (append_sure req.room _ now) fun _ _ _ => sure_pure trivial)
  cases ask with
  | none => exact bring_in_clean now hRoom hOpen hShown ⟨hAsk.1, hAsk.2.1⟩ fun core' => hAppend core' _
  | some ask =>
    refine clean_bind_check (checks_admit_question record ask actor) fun _ _ => ?_
    exact bring_in_clean now hRoom hOpen hShown ⟨hAsk.1, hAsk.2.1⟩ fun core' => hAppend core' _

theorem post_clean (req : PostRequest) (actor : Actor) (now : Fin (2 ^ 64)) :
    Clean Error.is_fault (post req actor now) core fun _ _ => True := by
  unfold post
  refine clean_bind_check (checks_visible_room req.room actor) fun record hShown => ?_
  refine clean_bind_check (checks_room_to_grow) fun _ _ => ?_
  refine clean_bind_check (checks_open_room req.room) fun record' hRoom => ?_
  obtain rfl : record = record' := Option.some.inj (hShown.1.symm.trans hRoom.1)
  refine clean_read ?_
  split
  · exact clean_pure trivial
  · exact post_new_clean now hRoom.1 hRoom.2 hShown.2

theorem answer_new_clean (req : AnswerRequest) (record : Room) (actor : Actor)
    (now : Fin (2 ^ 64)) :
    Clean Error.is_fault (answer_new req record actor now) core fun _ _ => True := by
  unfold answer_new
  refine clean_bind_check (checks_asked_question _ _ record actor) fun asked _ => ?_
  obtain ⟨asked, ask⟩ := asked
  refine clean_bind_check (checks_chosen ask.options req.choice) fun choice _ => ?_
  dsimp only
  refine clean_refuse fun _ => ?_
  -- the answer, once its author is in the room
  have hRest : ∀ core', ∀ post : Core → Post, Sure Error.is_fault (do
      let core ← read
      append req.room (post core) now
      let core' ← read
      let resolved := (core'.store.rooms[req.room]?).any fun record => record.resolved req.question
      if resolved then set_question req.room req.question .Resolved now
      pure (post core, resolved)) core' fun _ _ => True := by
    intro core' post
    refine sure_read (sure_bind (append_sure req.room _ now) fun _ core₁ _ => sure_read ?_)
    dsimp only
    split
    · exact sure_bind (set_question_sure _ _ _ now) fun _ _ _ => sure_pure trivial
    · exact sure_pure trivial
  split
  · exact clean_bind_sure (join_clean req.room actor.name none actor now) fun _ core' _ =>
      hRest core' _
  · exact (hRest core _).clean

theorem answer_clean (req : AnswerRequest) (actor : Actor) (now : Fin (2 ^ 64)) :
    Clean Error.is_fault (answer req actor now) core fun _ _ => True := by
  unfold answer
  refine clean_bind_check (checks_room_to_grow) fun _ _ => ?_
  refine clean_bind_check (checks_visible_room req.room actor) fun _ _ => ?_
  refine clean_bind_check (checks_open_room req.room) fun record _ => clean_read ?_
  split
  · exact clean_pure trivial
  · exact answer_new_clean req record actor now

theorem withdraw_clean (name : String) (question : Id) (actor : Actor) (now : Fin (2 ^ 64)) :
    Clean Error.is_fault (withdraw name question actor now) core fun _ _ => True := by
  unfold withdraw
  refine clean_bind_check (checks_visible_room name actor) fun record _ => ?_
  split
  · exact clean_fail
  · refine clean_when checks_require_owner (clean_refuse fun _ => ?_)
    exact (set_question_sure name question .Withdrawn now).clean

theorem checks_board_entry (name key : String) (value : Option String) (record : Room)
    (actor : Actor) (now : Fin (2 ^ 64)) :
    Checks (board_entry name key value record actor now) core fun _ => True := by
  unfold board_entry
  dsimp only
  split
  · exact checks_bind checks_refuse fun _ _ => checks_pure trivial
  · split
    · exact checks_pure trivial
    · exact checks_bind checks_refuse fun _ _ => checks_pure trivial

theorem checks_expect_version (key : String) (version : Nat) (expect : Option Nat) :
    Checks (expect_version key version expect) core fun _ => True := by
  unfold expect_version
  split
  · exact checks_refuse.mono (fun _ _ h => ⟨h.1, trivial⟩) fun _ => id
  · exact checks_pure trivial

theorem board_set_clean (name key : String) (value : Option String) (expect : Option Nat)
    (actor : Actor) (now : Fin (2 ^ 64)) :
    Clean Error.is_fault (board_set name key value expect actor now) core fun _ _ => True := by
  unfold board_set
  refine clean_bind_check (checks_visible_room name actor) fun _ _ => ?_
  refine clean_when (checks_room_to_grow) ?_
  refine clean_bind_check (checks_open_room name) fun record _ => clean_refuse fun _ => ?_
  refine clean_bind_check (checks_expect_version key _ expect) fun _ _ => ?_
  unfold board_write
  refine clean_bind_check (checks_board_entry name key value record actor now) fun entry _ => ?_
  split
  · exact clean_pure trivial
  · refine Sure.clean (sure_commit_bind fun _ _ => sure_told sure_emit_room fun _ _ => ?_)
    exact sure_bind (log_sure name actor.name _ now) fun _ _ _ => sure_pure trivial

theorem read_room_clean (name agent : String) (limit : Nat) :
    Clean Error.is_fault (read_room name agent limit) core fun _ _ => True := by
  unfold read_room
  refine clean_bind_check (sat_room core name) fun record _ => ?_
  split
  · exact clean_fail
  · dsimp only
    refine Sure.clean ?_
    split
    · exact sure_commit_bind fun _ _ => sure_pure trivial
    · exact sure_pure trivial

theorem checks_make_way : Checks make_way core fun _ => True := by
  unfold make_way
  refine sat_read ?_
  split
  · exact checks_pure trivial
  · split
    · exact checks_pure trivial
    · exact checks_fail

theorem make_way_clean (names : List String) (now : Fin (2 ^ 64)) {rest : Option String → Op Bool}
    (hRest : ∀ evict core', Sure Error.is_fault (rest evict) core' fun _ _ => True) :
    Clean Error.is_fault (do
      let evict ← make_way
      ensure_agents names now
      rest evict) core fun _ _ => True :=
  clean_bind_check checks_make_way fun evict _ => clean_bind_sure (ensure_agents_clean names now)
    fun _ core' _ => hRest evict core'

theorem create_room_clean (req : CreateRoom) (actor : Actor) (now : Fin (2 ^ 64)) :
    Clean Error.is_fault (create_room req actor now) core fun _ _ => True := by
  -- once the agents are there, nothing is refused
  have hMade : ∀ core' (record : Room), Sure Error.is_fault (do
      commit (.Room record)
      emit_room "room" req.name [("change", .string "created")] now
      log req.name actor.name
        (if req.topic = "" then "created the room" else s!"created the room: {req.topic}") now
      pure true) core' fun _ _ => True := fun core' record =>
    sure_commit_bind fun _ _ => sure_told sure_emit_room fun _ _ =>
      sure_bind (log_sure _ _ _ now) fun _ _ _ => sure_pure trivial
  unfold create_room
  refine clean_bind_check (checks_room_to_grow) fun _ _ => clean_read ?_
  split
  · exact clean_refuse fun _ => clean_bind_sure (join_clean req.name actor.name none actor now)
      fun _ _ _ => sure_pure trivial
  · dsimp only
    refine clean_refuse fun _ => ?_
    split
    · refine clean_bind_check (checks_forM _ fun n _ => checks_require_known n) fun _ _ => ?_
      refine clean_refuse fun _ => make_way_clean _ now fun evict core' => ?_
      cases evict with
      | none => exact hMade core' _
      | some name => exact sure_bind (drop_room_sure name now) fun _ core₁ _ => hMade core₁ _
    · refine make_way_clean _ now fun evict core' => ?_
      cases evict with
      | none => exact hMade core' _
      | some name => exact sure_bind (drop_room_sure name now) fun _ core₁ _ => hMade core₁ _

theorem leave_room_clean (name agent : String) (actor : Actor) (now : Fin (2 ^ 64)) :
    Clean Error.is_fault (leave_room name agent actor now) core fun _ _ => True := by
  unfold leave_room
  refine clean_bind_check (checks_visible_room name actor) fun record _ => ?_
  refine clean_when checks_require_owner (clean_refuse fun _ => clean_read ?_)
  refine Sure.clean (sure_commit_bind fun _ _ => sure_told sure_emit fun core' _ => ?_)
  split
  · exact (log_sure name actor.name _ now).mono fun _ _ _ => trivial
  · exact sure_pure trivial

/-- Setting the topic of a room that is open is not refused. -/
theorem set_topic_sure (name topic : String) (actor : Actor) (now : Fin (2 ^ 64)) {record : Room}
    (hRoom : core.store.rooms[name]? = some record) (hOpen : record.is_open = true) :
    Sure Error.is_fault (set_topic name topic actor now) core fun _ _ => True := by
  unfold set_topic
  refine sure_read ?_
  split
  · refine sure_of_ok (open_room_eq hRoom hOpen) (sure_commit_bind fun _ _ => ?_)
    exact (log_sure name actor.name _ now).mono fun _ _ _ => trivial
  · exact sure_pure trivial

theorem set_topic_clean (name topic : String) (actor : Actor) (now : Fin (2 ^ 64)) :
    Clean Error.is_fault (set_topic name topic actor now) core fun _ _ => True := by
  unfold set_topic
  refine clean_read ?_
  split
  · refine clean_bind_check (checks_open_room name) fun _ _ => ?_
    refine Sure.clean (sure_commit_bind fun _ _ => ?_)
    exact (log_sure name actor.name _ now).mono fun _ _ _ => trivial
  · exact clean_pure trivial

theorem close_sure (name : String) (actor : Actor) (now : Fin (2 ^ 64)) :
    Sure Error.is_fault (close name actor now) core fun _ _ => True := by
  unfold close
  refine sure_read ?_
  split
  · refine sure_bind (log_sure name actor.name _ now) fun _ _ _ => sure_read ?_
    refine sure_bind (sure_forM (fun _ _ => True) _ (fun id _ _ _ => set_question_sure name id _ now)
      trivial) fun _ _ _ => ?_
    exact (sure_commit _).mono fun _ _ _ => trivial
  · exact sure_pure trivial

/-- A room reopened is open. -/
theorem reopen_sure (name : String) (record : Room) (actor : Actor) (now : Fin (2 ^ 64))
    (hRoom : core.store.rooms[name]? = some record) :
    Sure Error.is_fault (reopen name record actor now) core fun _ core' =>
      ∃ r, core'.store.rooms[name]? = some r ∧ r.is_open = true := by
  unfold reopen
  split
  · next hOpen => exact sure_pure ⟨record, hRoom, hOpen⟩
  · refine sure_commit_bind fun core₁ h₁ => ?_
    refine (log_sure name actor.name _ now).mono fun _ core₂ h₂ => ?_
    have hRoom₁ : core₁.store.rooms[name]? = some { record with closed := none } := by
      rw [h₁, apply_room core.store rfl, hRoom]
      exact if_pos rfl
    obtain ⟨r, hRoom₂, hStanding⟩ := h₂.room hRoom₁
    refine ⟨r, hRoom₂, ?_⟩
    have hClosed := congrArg Room.closed hStanding
    unfold Room.is_open
    rw [show r.closed = none from hClosed]
    rfl

theorem update_room_clean (name : String) (topic : Option String) (closed : Option Bool)
    (actor : Actor) (now : Fin (2 ^ 64)) :
    Clean Error.is_fault (update_room name topic closed actor now) core fun _ _ => True := by
  -- closing it and telling of it come last, and are not refused
  have hEnd : ∀ core', Sure Error.is_fault (do
      if closed = some true then close name actor now
      emit_room "room" name [("change", .string "updated")] now) core' fun _ _ => True := by
    intro core'
    dsimp only
    split
    · exact sure_bind (close_sure name actor now) fun _ _ _ => sure_emit_room.mono fun _ _ _ => trivial
    · exact sure_emit_room.mono fun _ _ _ => trivial
  unfold update_room
  refine clean_bind_check (checks_visible_room name actor) fun record hShown => ?_
  refine clean_bind_check checks_require_owner fun _ _ => ?_
  dsimp only
  split
  · -- reopened first, so that a topic can be set
    refine Sure.clean (sure_bind (reopen_sure name record actor now hShown.1) fun _ core₁ hOpen => ?_)
    obtain ⟨r, hRoom, hOpen⟩ := hOpen
    split
    · exact sure_bind (set_topic_sure name _ actor now hRoom hOpen) fun _ core₂ _ => hEnd core₂
    · exact hEnd core₁
  · split
    · exact clean_bind_sure (set_topic_clean name _ actor now) fun _ core₂ _ => hEnd core₂
    · exact (hEnd core).clean

theorem delete_room_clean (name : String) (actor : Actor) (now : Fin (2 ^ 64)) :
    Clean Error.is_fault (delete_room name actor now) core fun _ _ => True := by
  unfold delete_room
  refine clean_bind_check (checks_visible_room name actor) fun record _ => ?_
  exact clean_bind_check checks_require_owner fun _ _ => (drop_room_sure name now).clean

theorem presence_clean (req : PresenceRequest) (now : Fin (2 ^ 64)) :
    Clean Error.is_fault (presence req now) core fun _ _ => True := by
  unfold presence
  refine clean_read (clean_refuse fun _ => ?_)
  refine clean_bind_sure (ensure_agents_clean _ now) fun _ core₁ _ => sure_read ?_
  refine sure_then (sure_modify trivial) fun _ core₂ => ?_
  split
  · exact sure_told sure_emit fun _ _ => sure_pure trivial
  · exact sure_pure trivial

theorem rename_clean (from_ to_ : String) (now : Fin (2 ^ 64)) :
    Clean Error.is_fault (rename from_ to_ now) core fun _ _ => True := by
  have hRename : ∀ core', Sure Error.is_fault (do
      commit (.Rename from_ to_)
      wake (.Inbox to_)
      emit "rename" [from_, to_] [("from", .string from_), ("to", .string to_)] now
      hand_over from_
      hand_over to_) core' fun _ _ => True := fun core' =>
    sure_commit_bind fun _ _ => sure_told sure_wake fun _ _ => sure_told sure_emit fun _ _ =>
      sure_told sure_hand_over fun _ _ => sure_hand_over.mono fun _ _ _ => trivial
  unfold rename
  split
  · exact clean_pure trivial
  · refine clean_read (clean_refuse fun _ => ?_)
    dsimp only
    refine clean_refuse fun _ => ?_
    split
    · refine clean_refuse fun _ => Sure.clean (sure_commit_bind fun core₁ _ => hRename core₁)
    · exact (hRename core).clean

theorem send_clean (req : SendRequest) (now : Fin (2 ^ 64)) :
    Clean Error.is_fault (send req now) core fun _ _ => True := by
  unfold send
  refine clean_bind_check (checks_room_to_grow) fun _ _ => clean_read ?_
  dsimp only
  split
  · exact clean_fail
  · split
    · exact clean_pure trivial
    · unfold send_new
      refine clean_when (checks_require_known _) (clean_read (clean_refuse fun _ => ?_))
      dsimp only
      refine clean_refuse fun _ => ?_
      refine clean_bind_sure (ensure_agents_clean _ now) fun _ core₁ _ => sure_read ?_
      refine sure_commit_bind fun _ _ => sure_bind (trim_history_sure _) fun _ _ _ => ?_
      exact sure_told sure_emit fun _ _ => sure_told sure_wake fun _ _ => sure_pure trivial

theorem broadcast_clean (from_ body : String) (key : Option String) (now : Fin (2 ^ 64)) :
    Clean Error.is_fault (broadcast from_ body key now) core fun _ _ => True := by
  unfold broadcast
  refine clean_read ?_
  split
  · exact clean_pure trivial
  · refine clean_bind_check (checks_room_to_grow) fun _ _ => ?_
    refine clean_bind_sure (ensure_agents_clean _ now) fun _ core₁ _ => sure_read ?_
    refine sure_commit_bind fun core₂ _ => ?_
    have hTrim : Sure Error.is_fault trim_broadcasts core₂ fun _ _ => True := by
      unfold trim_broadcasts
      refine sure_read ?_
      split
      · exact sure_pure trivial
      · exact (sure_commit _).mono fun _ _ _ => trivial
    exact sure_bind hTrim fun _ _ _ => sure_told sure_emit_all fun _ _ => sure_pure trivial

/-! ## Operations that refuse nothing -/

theorem forget_clean (name : String) (now : Fin (2 ^ 64)) :
    Clean Error.is_fault (forget name now) core fun _ _ => True := by
  unfold forget
  refine clean_read (clean_refuse fun _ => ?_)
  exact ((forget_agent_sure name now).mono fun _ _ _ => trivial).clean

theorem cleanup_sure (now : Fin (2 ^ 64)) :
    Sure Error.is_fault (cleanup now) core fun _ _ => True := by
  unfold cleanup
  refine sure_read (sure_bind (sure_forM (fun _ _ => True) _ (fun name _ _ _ => ?_) trivial)
    fun _ _ _ => sure_pure trivial)
  exact (forget_agent_sure name now).mono fun _ _ _ => trivial

theorem leave_sure (agent session : String) (now : Fin (2 ^ 64)) :
    Sure Error.is_fault (leave agent session now) core fun _ _ => True := by
  unfold leave
  refine sure_read ?_
  split
  · refine sure_then (sure_modify trivial) fun _ core₁ => sure_read ?_
    split
    · exact sure_emit.mono fun _ _ _ => trivial
    · exact sure_pure trivial
  · exact sure_pure trivial

theorem reclaim_sure (now : Fin (2 ^ 64)) :
    Sure Error.is_fault (reclaim now) core fun _ _ => True := by
  unfold reclaim
  refine sure_read (sure_bind (sure_forM (fun _ _ => True) _ (fun m _ _ _ => ?_) trivial)
    fun _ _ _ => sure_read (sure_pure trivial))
  unfold requeue
  refine sure_read (sure_commit_bind fun _ _ => sure_told sure_emit fun _ _ => ?_)
  split
  · exact trim_history_sure m.to_
  · exact sure_wake.mono fun _ _ _ => trivial

theorem expire_sure (now : Fin (2 ^ 64)) :
    Sure Error.is_fault (expire now) core fun _ _ => True := by
  unfold expire
  refine sure_read (sure_bind (sure_forM (fun _ _ => True) _ (fun m _ _ _ => ?_) trivial)
    fun _ _ _ => sure_read (sure_pure trivial))
  exact sure_commit_bind fun _ _ => sure_told sure_emit fun _ _ => trim_history_sure m.to_

theorem lease_each_sure (consumer : String) (now : Fin (2 ^ 64)) (until_ : Nat) (ids : List Id) :
    Sure Error.is_fault (lease_each consumer now until_ ids) core fun _ _ => True := by
  induction ids generalizing core with
  | nil => exact sure_pure trivial
  | cons id ids ih =>
    unfold lease_each
    refine sure_then (show Sure Error.is_fault random_hex core _ from trivial)
      fun token core₁ => sure_commit_bind fun core₂ _ => sure_read (sure_bind ih fun rest core₃ _ => ?_)
    split
    · exact sure_pure trivial
    · exact sure_pure trivial

theorem lease_where_sure (inbox consumer : String) (limit : Nat) (only : Option (List Id))
    (now : Fin (2 ^ 64)) :
    Sure Error.is_fault (lease_where inbox consumer limit only now) core fun _ _ => True := by
  unfold lease_where
  refine sure_bind (reclaim_sure now) fun _ _ _ => sure_bind (expire_sure now) fun _ _ _ => ?_
  refine sure_read (sure_bind (lease_each_sure _ _ _ _) fun leased _ _ => ?_)
  split
  · exact sure_told sure_emit fun _ _ => sure_pure trivial
  · exact sure_pure trivial

theorem ack_each_sure (inbox : String) (consumer : Option String) (now : Fin (2 ^ 64))
    (receipts : List String) (outcome : AckOutcome) (acked : List String) :
    Sure Error.is_fault (ack_each inbox consumer now receipts outcome acked) core
      fun _ _ => True := by
  induction receipts generalizing outcome acked core with
  | nil => exact sure_pure trivial
  | cons receipt receipts ih =>
    unfold ack_each
    refine sure_read ?_
    dsimp only
    split
    · exact ih _ _
    · split
      · exact ih _ _
      · split
        · exact ih _ _
        · split
          · exact ih _ _
          · exact sure_commit_bind fun _ _ => ih _ _

theorem ack_sure (inbox : String) (receipts : List String) (consumer : Option String)
    (now : Fin (2 ^ 64)) :
    Sure Error.is_fault (ack inbox receipts consumer now) core fun _ _ => True := by
  unfold ack
  refine sure_bind (ack_each_sure inbox consumer now receipts {} []) fun result _ _ => ?_
  obtain ⟨outcome, acked⟩ := result
  dsimp only
  split
  · exact sure_bind (trim_history_sure inbox) fun _ _ _ =>
      sure_told sure_emit fun _ _ => sure_pure trivial
  · exact sure_pure trivial

theorem purge_sure (inbox : String) (now : Fin (2 ^ 64)) :
    Sure Error.is_fault (purge inbox now) core fun _ _ => True := by
  unfold purge
  refine sure_read ?_
  dsimp only
  split
  · exact sure_commit_bind fun _ _ => sure_told sure_emit fun _ _ => sure_pure trivial
  · exact sure_told sure_emit fun _ _ => sure_pure trivial

theorem read_broadcasts_sure (agent : String) (all advance : Bool) :
    Sure Error.is_fault (read_broadcasts agent all advance) core fun _ _ => True := by
  unfold read_broadcasts
  refine sure_read ?_
  dsimp only
  split
  · split
    · exact sure_commit_bind fun _ _ => sure_read (sure_pure trivial)
    · exact sure_read (sure_pure trivial)
  · exact sure_read (sure_pure trivial)

theorem clear_broadcasts_sure (now : Fin (2 ^ 64)) :
    Sure Error.is_fault (clear_broadcasts now) core fun _ _ => True := by
  unfold clear_broadcasts
  refine sure_read ?_
  dsimp only
  split
  · exact sure_commit_bind fun _ _ => sure_emit_all.mono fun _ _ _ => trivial
  · exact sure_emit_all.mono fun _ _ _ => trivial

theorem sweep_due_sure (now : Fin (2 ^ 64)) :
    Sure Error.is_fault (sweep_due now) core fun _ _ => True := by
  unfold sweep_due
  refine sure_bind (reclaim_sure now) fun _ _ _ => sure_bind (expire_sure now) fun _ _ _ => ?_
  refine sure_read ?_
  dsimp only
  split
  · exact sure_commit_bind fun _ _ => sure_read (sure_pure trivial)
  · exact sure_read (sure_pure trivial)

theorem sweep_sure (now : Fin (2 ^ 64)) :
    Sure Error.is_fault (sweep now) core fun _ _ => True := by
  have hRooms : ∀ core', Sure Error.is_fault (sweep_rooms now) core' fun _ _ => True := by
    intro core'
    unfold sweep_rooms
    refine sure_read (sure_bind (sure_forM (fun _ _ => True) _
      (fun q _ _ _ => set_question_sure q.1 q.2 .Expired now) trivial) fun _ _ _ => sure_read ?_)
    exact sure_forM (fun _ _ => True) _ (fun name _ _ _ => drop_room_sure name now) trivial
  have hSessions : Sure Error.is_fault (sweep_sessions now) core fun _ _ => True := by
    unfold sweep_sessions
    refine sure_read (sure_forM (fun _ _ => True) _ (fun s _ _ _ => ?_) trivial)
    refine sure_then (sure_modify trivial) fun _ _ => sure_read ?_
    split
    · exact sure_emit.mono fun _ _ _ => trivial
    · exact sure_pure trivial
  unfold sweep
  refine sure_bind hSessions fun _ _ _ => sure_bind (sweep_due_sure now) fun more _ _ => ?_
  refine sure_read ?_
  dsimp only
  split
  · exact sure_commit_bind fun _ _ => sure_bind (hRooms _) fun _ _ _ => sure_pure trivial
  · exact sure_bind (hRooms _) fun _ _ _ => sure_pure trivial

/-! ## Every operation -/

theorem discard_clean {α : Type} {m : Op α} (h : Clean Error.is_fault m core fun _ _ => True) :
    Clean Error.is_fault (discard m) core fun _ _ => True :=
  clean_bind_sure h fun _ _ _ => sure_pure trivial

theorem perform_clean (operation : Operation) (now : Fin (2 ^ 64)) :
    Clean Error.is_fault (operation.perform now) core fun _ _ => True := by
  cases operation with
  | presence req => exact discard_clean (presence_clean req now)
  | leave agent session => exact (leave_sure agent session now).clean
  | rename from_ to_ => exact rename_clean from_ to_ now
  | cleanup => exact discard_clean (cleanup_sure now).clean
  | forget name => exact forget_clean name now
  | send req => exact discard_clean (send_clean req now)
  | lease inbox consumer limit =>
    exact discard_clean (lease_where_sure inbox consumer limit none now).clean
  | lease_ids inbox consumer ids =>
    exact discard_clean (lease_where_sure inbox consumer ids.length (some ids) now).clean
  | ack inbox receipts consumer => exact discard_clean (ack_sure inbox receipts consumer now).clean
  | purge inbox => exact discard_clean (purge_sure inbox now).clean
  | broadcast from_ body key => exact discard_clean (broadcast_clean from_ body key now)
  | read_broadcasts agent all advance =>
    exact discard_clean (read_broadcasts_sure agent all advance).clean
  | clear_broadcasts => exact (clear_broadcasts_sure now).clean
  | create_room req actor => exact discard_clean (create_room_clean req actor now)
  | join room agent role actor => exact discard_clean (join_clean room agent role actor now)
  | leave_room room agent actor => exact leave_room_clean room agent actor now
  | update_room room topic closed actor => exact update_room_clean room topic closed actor now
  | delete_room room actor => exact delete_room_clean room actor now
  | post req actor => exact discard_clean (post_clean req actor now)
  | answer req actor => exact discard_clean (answer_clean req actor now)
  | withdraw room question actor => exact withdraw_clean room question actor now
  | board_set room key value expect actor =>
    exact discard_clean (board_set_clean room key value expect actor now)
  | read_room room agent limit => exact discard_clean (read_room_clean room agent limit)
  | sweep => exact discard_clean (sweep_sure now).clean
  | sweep_due => exact discard_clean (sweep_due_sure now).clean

end

/-- **An operation refused for what was asked changes nothing**: not the store, the
journal, the events nor what waits to be woken, even if the journal fails. -/
theorem refused_unchanged (operation : Operation) (now : Fin (2 ^ 64)) (core : Core) (e : Error)
    (hRefused : (operation.perform now core).1 = .error e) (hAsked : ∀ text, e ≠ .Storage text) :
    (operation.perform now core).2 = core :=
  (perform_clean operation now).unchanged hRefused fun ⟨text, hFault⟩ => hAsked text hFault

/-- A room of one, and what it is asked to do: post a question that names somebody
nobody knows. -/
def asks_stranger : Core × Operation :=
  let alice : Actor := { name := "alice", admin := false, strict := true }
  let room : CreateRoom :=
    { name := "release", topic := "", private_ := false, members := [], join := false }
  let req : PostRequest :=
    { room := "release", body := "ready?", reply_to := none, about := none, key := none
      ask := some { to_ := ["bob"], options := [], ttl_ms := none } }
  ((create_room room alice 1 {}).2, .post req alice)

theorem refused_unchanged_stranger :
    (asks_stranger.2.perform 2 asks_stranger.1).2 = asks_stranger.1 :=
  refused_unchanged asks_stranger.2 2 asks_stranger.1
    (.NotFound "unknown agent \"bob\"; known agents: alice") (by decide +kernel) fun _ => nofun

end Postino.Forum
