import Postino.Forum.Refusals

/-!
# What operations write

An operation writes some effects, each to the store the others before it left.
`Writable` says which those may be: ids are new, a room is made only under a name
that is free, a post to a room that is there, and a member who stays keeps its cursor.
Once an append fails, nothing more is written.

* `perform_writes` — every operation but the reads of what is unread writes what
  is `Writable`.
* `Wrote.keeps` — what every effect keeps, every operation keeps.
-/

namespace Postino.Forum

open Lib Fallible

/-! ## Effects, one after another -/

/-- The newest post `agent` has read in `room`. -/
def Store.room_cursor (store : Store) (room agent : String) : Option Id :=
  ((store.rooms[room]?).bind fun r => r.members[agent]?).bind Member.cursor

/-- What only some operations do. -/
structure May where
  answers : Prop
  renames : Prop

def May.all : May := ⟨True, True⟩

/-- What an operation may write at `now`, to the store as it then is. What an agent has
read moves by its reads alone, and a trim leaves what a question counts. -/
def Writable (now : Fin (2 ^ 64)) (may : May) (store : Store) : Effect → Prop
  | .Message m => m.id = store.next_id now
  | .Broadcast b => b.id = store.next_id now
  | .Post name post => name ∈ store.rooms ∧ post.id = store.next_id now ∧
      (post.kind = .Answer → may.answers) ∧
      ∀ ask, post.ask = some ask → ask.status = .Open ∧ post.from_ ∉ ask.to_
  | .Question _ _ status _ => status ≠ .Open
  | .Room room => room.name ∉ store.rooms ∧ room.posts = ∅ ∧
      ∀ (agent : String) member, room.members[agent]? = some member → member.cursor = none
  | .Member room agent (some member) => member.cursor = store.room_cursor room agent
  | .DropPosts name ids => ∃ room, store.rooms[name]? = some room ∧
      ∀ id ∈ ids, ∃ (key : Id) (post : Post), room.posts[key]? = some post ∧ post.id = id ∧
        room.keeps post = false
  | .Rename .. => may.renames
  | .Cursor .. | .RoomCursor .. => False
  | _ => True

theorem Writable.mono {now : Fin (2 ^ 64)} {may may' : May} (hAnswers : may.answers → may'.answers)
    (hRenames : may.renames → may'.renames) {store : Store} {effect : Effect}
    (hWritable : Writable now may store effect) : Writable now may' store effect := by
  cases effect with
  | Post name post =>
    obtain ⟨hRoom, hId, hKind, hAsk⟩ := hWritable
    exact ⟨hRoom, hId, fun hAnswer => hAnswers (hKind hAnswer), hAsk⟩
  | Rename => exact hRenames hWritable
  | Member room agent member =>
    cases member with
    | none => exact trivial
    | some member => exact hWritable
  | _ => exact hWritable

/-- Any operation may do all. -/
theorem Writable.all {now : Fin (2 ^ 64)} {may : May} {store : Store} {effect : Effect}
    (h : Writable now may store effect) : Writable now .all store effect :=
  h.mono (fun _ => trivial) fun _ => trivial

/-- Each of `sessions` was held before, or is that of an agent the store knows. -/
def Store.Hosts (store : Store) (sessions : BTreeMap String Session) : Prop :=
  ∀ (k : String) s, sessions[k]? = some s → store.sessions[k]? = some s ∨ s.agent ∈ store.agents

/-- The store that `effects` made of `store`, each allowed where it was applied.
Presence may change in between; agents are seen only where `Seen` says so. -/
inductive Wrote (Allowed : Store → Effect → Prop) (Seen : Prop) (store : Store) :
    List Effect → Store → Prop
  | nothing : Wrote Allowed Seen store [] store
  | effect {effects : List Effect} {store' : Store} {effect : Effect}
      (h : Wrote Allowed Seen store effects store') (hAllowed : Allowed store' effect) :
      Wrote Allowed Seen store (effects ++ [effect]) (store'.apply effect)
  | sessions {effects : List Effect} {store' : Store} {sessions : BTreeMap String Session}
      (hHosts : store'.Hosts sessions) (h : Wrote Allowed Seen store effects store') :
      Wrote Allowed Seen store effects { store' with sessions }
  | see {effects : List Effect} {store' : Store} (agent : String) (now : Nat) (hSeen : Seen)
      (h : Wrote Allowed Seen store effects store') :
      Wrote Allowed Seen store effects (store'.see agent now)

section

variable {Allowed : Store → Effect → Prop} {Seen : Prop} {a b c : Store} {effects effects' : List Effect}

theorem Wrote.trans (h : Wrote Allowed Seen a effects b) (h' : Wrote Allowed Seen b effects' c) :
    Wrote Allowed Seen a (effects ++ effects') c := by
  induction h' with
  | nothing =>
    rw [List.append_nil]
    exact h
  | effect _ hAllowed ih =>
    rw [← List.append_assoc]
    exact ih.effect hAllowed
  | sessions hHosts _ ih => exact ih.sessions hHosts
  | see agent now hSeen _ ih => exact ih.see agent now hSeen

/-- **What every effect keeps, they keep together**, of sessions too. -/
theorem Wrote.keeps_hosts {P : Store → Prop} (h : Wrote Allowed Seen a effects b)
    (hEffect : ∀ store effect, effect ∈ effects → Allowed store effect → P store → P (store.apply effect))
    (hSessions : ∀ store sessions, store.Hosts sessions → P store → P { store with sessions })
    (hSee : ∀ store agent now, P store → P (store.see agent now)) (hP : P a) : P b := by
  induction h with
  | nothing => exact hP
  | effect _ hAllowed ih =>
    exact hEffect _ _ (List.mem_append_right _ List.mem_cons_self) hAllowed
      (ih fun store effect hMem => hEffect store effect (List.mem_append_left _ hMem))
  | sessions hHosts _ ih => exact hSessions _ _ hHosts (ih hEffect)
  | see agent now _ _ ih => exact hSee _ agent now (ih hEffect)

theorem Wrote.keeps {P : Store → Prop} (h : Wrote Allowed Seen a effects b)
    (hEffect : ∀ store effect, effect ∈ effects → Allowed store effect → P store → P (store.apply effect))
    (hSessions : ∀ store sessions, P store → P { store with sessions })
    (hSee : ∀ store agent now, P store → P (store.see agent now)) (hP : P a) : P b :=
  h.keeps_hosts hEffect (fun store sessions _ => hSessions store sessions) hSee hP

end

theorem Wrote.mono {Allowed Allowed' : Store → Effect → Prop} {Seen Seen' : Prop} {a b : Store}
    {effects : List Effect} (h : Wrote Allowed Seen a effects b)
    (hAllowed : ∀ store effect, Allowed store effect → Allowed' store effect) (hSeen : Seen → Seen') :
    Wrote Allowed' Seen' a effects b := by
  induction h with
  | nothing => exact .nothing
  | effect _ hA ih => exact ih.effect (hAllowed _ _ hA)
  | sessions hHosts _ ih => exact ih.sessions hHosts
  | see agent now hS _ ih => exact ih.see agent now (hSeen hS)

/-- An append made now fails. -/
def Core.breaks (core : Core) : Prop := core.halted = true ∨ ∃ e rest, core.journal = some e :: rest

/-- No append fails. -/
def Core.healthy (core : Core) : Prop := core.journal = [] ∧ core.halted = false

/-- What became of a core: some effects were written, none of them once an append
failed. -/
structure Trace (Allowed : Store → Effect → Prop) (Seen : Prop) (core core' : Core)
    (effects : List Effect) : Prop where
  wrote : Wrote Allowed Seen core.store effects core'.store
  journaled : core'.journaled = core.journaled ++ effects
  limits : core'.limits = core.limits
  stopped : core.breaks → effects = []
  healthy : core.healthy → core'.healthy

abbrev Traced (Allowed : Store → Effect → Prop) (Seen : Prop) (core core' : Core) : Prop :=
  ∃ effects, Trace Allowed Seen core core' effects

section

variable {Allowed : Store → Effect → Prop} {Seen : Prop} {core core₁ core₂ : Core}

theorem Trace.refl (core : Core) : Trace Allowed Seen core core [] :=
  { wrote := .nothing, journaled := (List.append_nil _).symm, limits := rfl, stopped := fun _ => rfl, healthy := id }

theorem Trace.trans {effects effects' : List Effect} (h : Trace Allowed Seen core core₁ effects)
    (h' : Trace Allowed Seen core₁ core₂ effects') (hBreaks : core.breaks → core₁.breaks) :
    Trace Allowed Seen core core₂ (effects ++ effects') where
  wrote := h.wrote.trans h'.wrote
  journaled := by rw [h'.journaled, h.journaled, List.append_assoc]
  limits := h'.limits.trans h.limits
  stopped := fun hB => by rw [h.stopped hB, h'.stopped (hBreaks hB), List.append_nil]
  healthy := fun hH => h'.healthy (h.healthy hH)

end

/-! ## Computations that write -/

/-- `m` writes what it may, and comes to `Done`. -/
def Writes {α : Type} (Allowed : Store → Effect → Prop) (Seen : Prop) (m : Op α) (core : Core)
    (Done : α → Core → Prop) : Prop :=
  Sat m core (fun a core' => Traced Allowed Seen core core' ∧ (core.breaks → core'.breaks) ∧ Done a core')
    (Traced Allowed Seen core)

section Rules

variable {α β : Type} {Allowed : Store → Effect → Prop} {Seen : Prop} {core : Core} {m : Op α}
  {f : α → Op β}
  {Done Done' : α → Core → Prop} {After : β → Core → Prop}

theorem writes_pure {a : α} (h : Done a core) : Writes Allowed Seen (pure a) core Done :=
  ⟨⟨[], .refl core⟩, id, h⟩

theorem writes_fail {e : Error} : Writes Allowed Seen (fail e) core Done := ⟨[], .refl core⟩

theorem Writes.mono (h : Writes Allowed Seen m core Done) (hDone : ∀ a core', Done a core' → Done' a core') :
    Writes Allowed Seen m core Done' :=
  Sat.mono h (fun a core' h => ⟨h.1, h.2.1, hDone a core' h.2.2⟩) fun _ => id

theorem writes_bind (h : Writes Allowed Seen m core Done)
    (hNext : ∀ a core', Done a core' → Writes Allowed Seen (f a) core' After) :
    Writes Allowed Seen (m >>= f) core After := by
  refine sat_bind (Sat.mono h (fun a core₁ hFirst => ?_) fun _ => id)
  obtain ⟨⟨effects, hTrace⟩, hBreaks, hDone⟩ := hFirst
  refine Sat.mono (hNext a core₁ hDone) (fun b core₂ hLast => ?_) fun core₂ hFailed => ?_
  · obtain ⟨⟨effects', hTrace'⟩, hBreaks', hAfter⟩ := hLast
    exact ⟨⟨_, hTrace.trans hTrace' hBreaks⟩, fun hB => hBreaks' (hBreaks hB), hAfter⟩
  · obtain ⟨effects', hTrace'⟩ := hFailed
    exact ⟨_, hTrace.trans hTrace' hBreaks⟩

theorem writes_read {f : Core → Op β} (h : Writes Allowed Seen (f core) core After) :
    Writes Allowed Seen (read >>= f) core After := sat_read h

/-- After a check. -/
theorem writes_check {P : α → Prop} (h : Checks m core P)
    (hNext : ∀ a, P a → Writes Allowed Seen (f a) core After) : Writes Allowed Seen (m >>= f) core After := by
  have hFirst : Writes Allowed Seen m core fun a core' => core' = core ∧ P a := by
    refine Sat.mono h (fun a core' h => ?_) ?_
    · obtain ⟨rfl, hP⟩ := h
      exact ⟨⟨[], .refl core'⟩, id, rfl, hP⟩
    · rintro _ rfl
      exact ⟨[], .refl _⟩
  refine writes_bind hFirst ?_
  rintro a _ ⟨rfl, hP⟩
  exact hNext a hP

theorem writes_refuse {refused : Bool} {e : Error} {f : Unit → Op β}
    (h : refused = false → Writes Allowed Seen (f ()) core After) :
    Writes Allowed Seen (refuse refused e >>= f) core After :=
  writes_check checks_refuse fun _ => h

/-- What is done only sometimes. -/
theorem writes_when {c : Prop} [Decidable c] {m : Op Unit} {f : Unit → Op β}
    (h : Writes Allowed Seen m core fun _ _ => True)
    (hNext : ∀ core', Writes Allowed Seen (f ()) core' After) :
    Writes Allowed Seen (if c then m >>= f else f ()) core After := by
  split
  · exact writes_bind h fun _ core' _ => hNext core'
  · exact hNext core

theorem writes_check_when {c : Prop} [Decidable c] {m : Op Unit} {f : Unit → Op β}
    (h : Checks m core fun _ => True) (hNext : Writes Allowed Seen (f ()) core After) :
    Writes Allowed Seen (if c then m >>= f else f ()) core After := by
  split
  · exact writes_check h fun _ _ => hNext
  · exact hNext

theorem writes_forM {f : α → Op PUnit} (items : List α) {Inv : Core → Prop}
    (h : ∀ a ∈ items, ∀ core, Inv core → Writes Allowed Seen (f a) core fun _ core' => Inv core')
    (hInv : Inv core) : Writes Allowed Seen (items.forM f) core fun _ core' => Inv core' := by
  induction items generalizing core with
  | nil => exact writes_pure hInv
  | cons a items ih =>
    obtain ⟨hHead, hTail⟩ := List.forall_mem_cons.mp h
    exact writes_bind (hHead core hInv) fun _ _ hInv => ih hTail hInv

/-- What changes neither the store nor the journal. -/
theorem writes_told {m : Op Unit} {core' : Core} (h : m core = (.ok (), core'))
    (hStore : core'.store = core.store) (hJournaled : core'.journaled = core.journaled)
    (hLimits : core'.limits = core.limits) (hBreaks : core'.breaks = core.breaks)
    (hHealthy : core'.healthy = core.healthy) :
    Writes Allowed Seen m core fun _ core' => core'.store = core.store := by
  unfold Writes Sat
  rw [h]
  refine ⟨⟨[], ?_⟩, fun hB => hBreaks ▸ hB, hStore⟩
  exact
    { wrote := hStore ▸ .nothing
      journaled := hJournaled.trans (List.append_nil _).symm
      limits := hLimits
      stopped := fun _ => rfl
      healthy := fun h => hHealthy ▸ h }

theorem writes_commit {effect : Effect} (h : Allowed core.store effect) :
    Writes Allowed Seen (commit effect) core fun _ core' => core'.store = core.store.apply effect := by
  unfold Writes Sat commit
  cases hHalted : core.halted with
  | true => exact ⟨[], .refl core⟩
  | false =>
    -- the journal takes the line: the effect is applied, and a journal that is to fail later still is
    have hDone : ∀ rest, (∀ e tail, core.journal ≠ some e :: tail) → (core.journal = [] → rest = []) →
        Trace Allowed Seen core { core.applied effect with journal := rest } [effect] := fun rest hFine hRest =>
      { wrote := Wrote.nothing.effect h
        journaled := rfl
        limits := rfl
        stopped := by
          rintro (hBroken | ⟨e, tail, hFault⟩)
          · rw [hHalted] at hBroken
            cases hBroken
          · exact absurd hFault (hFine e tail)
        healthy := fun hHealthy => ⟨hRest hHealthy.1, hHealthy.2⟩ }
    have hNot : ∀ rest, (∀ e tail, core.journal ≠ some e :: tail) → core.breaks →
        ({ core.applied effect with journal := rest } : Core).breaks := by
      rintro rest hFine (hBroken | ⟨e, tail, hFault⟩)
      · rw [hHalted] at hBroken
        cases hBroken
      · exact absurd hFault (hFine e tail)
    rcases hJournal : core.journal with - | ⟨- | e, rest⟩
    · have hFine : ∀ e tail, core.journal ≠ some e :: tail := by simp [hJournal]
      have hSame : core.applied effect = { core.applied effect with journal := core.journal } := rfl
      dsimp only
      rw [hSame, hJournal]
      exact ⟨⟨_, hDone [] hFine fun _ => rfl⟩, hNot [] hFine, rfl⟩
    · have hFine : ∀ e tail, core.journal ≠ some e :: tail := by simp [hJournal]
      exact ⟨⟨_, hDone rest hFine fun hNone => by rw [hNone] at hJournal; cases hJournal⟩, hNot rest hFine, rfl⟩
    · -- the journal refuses the line: nothing is applied
      refine ⟨[], ?_⟩
      exact
        { wrote := .nothing
          journaled := (List.append_nil _).symm
          limits := rfl
          stopped := fun _ => rfl
          healthy := fun hHealthy => by rw [hHealthy.1] at hJournal; cases hJournal }

/-- However it ended. -/
theorem Writes.traced (h : Writes Allowed Seen m core Done) : Traced Allowed Seen core (m core).2 := by
  unfold Writes Sat at h
  generalize m core = result at *
  rcases result with ⟨e | a, core'⟩
  · exact h
  · exact h.1

/-- For what is known of nothing after. -/
abbrev Anyhow {α : Type} : α → Core → Prop := fun _ _ => True

theorem writes_then {f : α → Op β} (h : Writes Allowed Seen m core Anyhow)
    (hNext : ∀ a core', Writes Allowed Seen (f a) core' After) : Writes Allowed Seen (m >>= f) core After :=
  writes_bind h fun a core' _ => hNext a core'

theorem writes_commit_only {effect : Effect} (h : Allowed core.store effect) :
    Writes Allowed Seen (commit effect) core Anyhow := (writes_commit h).mono fun _ _ _ => trivial

theorem writes_each {f : α → Op PUnit} (items : List α)
    (h : ∀ a core, Writes Allowed Seen (f a) core Anyhow) : Writes Allowed Seen (items.forM f) core Anyhow :=
  (writes_forM items (fun a _ core (_ : True) => (h a core).mono fun _ _ _ => trivial) trivial).mono
    fun _ _ _ => trivial

/-- With what the same computation is known to come to. -/
theorem Writes.and_clean {fault : Error → Prop} (h : Writes Allowed Seen m core Done)
    (hClean : Clean fault m core Done') :
    Writes Allowed Seen m core fun a core' => Done a core' ∧ Done' a core' := by
  unfold Writes Sat at *
  unfold Clean at hClean
  generalize m core = result at *
  rcases result with ⟨e | a, core'⟩
  · exact h
  · exact ⟨h.1, h.2.1, h.2.2, hClean⟩

theorem Writes.and_sat {Failed : Core → Prop} (h : Writes Allowed Seen m core Done)
    (hSat : Sat m core Done' Failed) : Writes Allowed Seen m core fun a core' => Done a core' ∧ Done' a core' := by
  unfold Writes Sat at *
  generalize m core = result at *
  rcases result with ⟨e | a, core'⟩
  · exact h
  · exact ⟨h.1, h.2.1, h.2.2, hSat⟩

end Rules

section Publishing

variable {Allowed : Store → Effect → Prop} {Seen : Prop} {core : Core} {kind name : String}
  {scope : List String} {data : List (String × JsonValue)} {at_ : Nat}

theorem writes_emit :
    Writes Allowed Seen (emit kind scope data at_) core fun _ core' => core'.store = core.store :=
  writes_told rfl rfl rfl rfl rfl rfl

theorem writes_emit_all :
    Writes Allowed Seen (emit_all kind data at_) core fun _ core' => core'.store = core.store :=
  writes_told rfl rfl rfl rfl rfl rfl

theorem writes_emit_room {now : Fin (2 ^ 64)} :
    Writes Allowed Seen (emit_room kind name data now) core fun _ core' => core'.store = core.store :=
  writes_told rfl rfl rfl rfl rfl rfl

theorem writes_hand_over :
    Writes Allowed Seen (hand_over name) core fun _ core' => core'.store = core.store :=
  writes_told rfl rfl rfl rfl rfl rfl

theorem writes_wake {topic : Topic} :
    Writes Allowed Seen (wake topic) core fun _ core' => core'.store = core.store :=
  writes_told rfl rfl rfl rfl rfl rfl

end Publishing

/-! ## Agents -/

section Operations

variable {now : Fin (2 ^ 64)} {may : May} {Seen : Prop} {core : Core}

theorem forget_agent_writes (name : String) :
    Writes (Writable now may) Seen (forget_agent name now) core fun _ core' =>
      core'.store = core.store.apply (.Forget name) := by
  refine writes_bind (writes_commit trivial) fun _ core₁ h₁ => ?_
  refine writes_bind writes_emit fun _ core₂ h₂ => writes_hand_over.mono fun _ core₃ h₃ => ?_
  exact h₃.trans (h₂.trans h₁)

theorem add_agent_writes (name : String) :
    Writes (Writable now may) Seen (add_agent name now) core fun _ core' =>
      core'.store = core.store.apply (.Agent name now) := by
  refine writes_bind (writes_commit trivial) fun _ core₁ h₁ => writes_emit.mono fun _ core₂ h₂ => ?_
  exact h₂.trans h₁

/-- The same rooms are there. -/
def SameRooms (store store' : Store) : Prop := ∀ i : String, i ∈ store'.rooms ↔ i ∈ store.rooms

theorem apply_same_rooms (store : Store) {effect : Effect} (h : effect.of_rooms = false) :
    SameRooms store (store.apply effect) := apply_rooms_mem store h

theorem SameRooms.trans {a b c : Store} (h : SameRooms a b) (h' : SameRooms b c) : SameRooms a c :=
  fun i => (h' i).trans (h i)

/-- Agents come and go; rooms do not, and what is known of those who are open
stays. -/
theorem ensure_agents_writes (names : List String) :
    Writes (Writable now may) Seen (ensure_agents names now) core fun _ core' =>
      KeepsOpen core.store core'.store ∧ SameRooms core.store core'.store := by
  have hWrites : Writes (Writable now may) Seen (ensure_agents names now) core fun _ core' =>
      SameRooms core.store core'.store := by
    unfold ensure_agents
    refine writes_read ?_
    dsimp only
    split
    · exact writes_pure fun _ => Iff.rfl
    · refine writes_refuse fun _ => ?_
      refine writes_bind (writes_forM _ (fun name _ core₁ h => ?_) fun _ => Iff.rfl) fun _ core₁ h₁ =>
        writes_forM _ (fun name _ core₂ h => ?_) h₁
      · refine (forget_agent_writes name).mono fun _ core₂ h₂ => ?_
        rw [h₂]
        exact h.trans (apply_same_rooms core₁.store rfl)
      · refine (add_agent_writes name).mono fun _ core₃ h₃ => ?_
        rw [h₃]
        exact h.trans (apply_same_rooms core₂.store rfl)
  exact (hWrites.and_clean (ensure_agents_clean names now)).mono fun _ _ h => ⟨h.2.1, h.1⟩

/-- An agent that is made sure of is known. -/
theorem ensure_agent_known (name : String) :
    Sat (ensure_agents [name] now) core (fun _ core' => name ∈ core'.store.agents) fun _ => True := by
  by_cases hKnown : name ∈ core.store.agents
  · have hSame : ensure_agents [name] now core = (.ok (), core) :=
      ensure_agents_eq fun n hn => List.mem_singleton.mp hn ▸ hKnown
    unfold Sat
    rw [hSame]
    exact hKnown
  · have hMissing : ([name].filter fun n => !core.store.agents.contains n).eraseDups = [name] := by
      have hNot : core.store.agents.contains name = false := Bool.eq_false_iff.mpr hKnown
      simp [hNot, List.eraseDups_cons]
    unfold ensure_agents
    refine sat_read ?_
    dsimp only
    rw [hMissing, if_neg (List.cons_ne_nil _ _)]
    refine sat_bind ((sat_any _ _).mono (fun _ core₁ _ => ?_) fun _ => id)
    refine sat_bind ((sat_any _ _).mono (fun _ core₂ _ => ?_) fun _ => id)
    show Sat (add_agent name now >>= fun _ => pure ()) core₂ _ _
    refine sat_bind (sat_bind ((sat_commit_any _ core₂).mono (fun _ core₃ hStore => ?_) fun _ _ => trivial))
    refine sat_emit fun events => ?_
    show name ∈ core₃.store.agents
    rw [hStore, BTreeMap.mem_iff_get]
    exact ⟨_, Sound.apply_agent_get name now⟩

/-- With some sessions taken away, all that are left were held before. -/
theorem hosts_erase (store : Store) (k : String) : store.Hosts (store.sessions.erase k) := by
  intro k' s hs
  rw [BTreeMap.get_erase] at hs
  split at hs
  · cases hs
  · exact .inl hs

theorem erased_sessions {sessions : BTreeMap String Session} (evicted : List (Nat × String)) {k : String}
    {s : Session} (hs : (evicted.foldl (fun sessions s => sessions.erase s.2) sessions)[k]? = some s) :
    sessions[k]? = some s := by
  induction evicted generalizing sessions with
  | nil => exact hs
  | cons e evicted ih =>
    have hs := ih hs
    rw [BTreeMap.get_erase] at hs
    split at hs
    · cases hs
    · exact hs

theorem presence_writes (req : PresenceRequest) (hSeen : Seen) :
    Writes (Writable now may) Seen (presence req now) core Anyhow := by
  unfold presence
  refine writes_read (writes_refuse fun _ => ?_)
  refine writes_bind ((ensure_agents_writes _).and_sat (ensure_agent_known req.agent)) fun _ core₁ hEnsured =>
    writes_read ?_
  refine writes_then ?_ fun _ core₂ => ?_
  · refine ⟨⟨[], ?_⟩, id, trivial⟩
    -- the new session is that of an agent made sure of
    have hHosts : ∀ (evicted : List (Nat × String)) (session : Session), session.agent = req.agent → core₁.store.Hosts
        ((evicted.foldl (fun sessions s => sessions.erase s.2) core₁.store.sessions).insert
          req.session session) := by
      intro evicted session hAgent k s hs
      rw [BTreeMap.get_insert] at hs
      split at hs
      · cases hs
        exact .inr (hAgent ▸ hEnsured.2)
      · exact .inl (erased_sessions evicted hs)
    exact
      { wrote := (Wrote.nothing.sessions (hHosts _ _ rfl)).see _ _ hSeen
        journaled := (List.append_nil _).symm
        limits := rfl
        stopped := fun _ => rfl
        healthy := id }
  · dsimp only
    split
    · exact writes_bind writes_emit fun _ _ _ => writes_pure trivial
    · exact writes_pure trivial

theorem leave_writes (agent session : String) (hSeen : Seen) :
    Writes (Writable now may) Seen (leave agent session now) core Anyhow := by
  unfold leave
  refine writes_read ?_
  split
  · refine writes_then ?_ fun _ core₂ => writes_read ?_
    · refine ⟨⟨[], ?_⟩, id, trivial⟩
      exact
        { wrote := (Wrote.nothing.sessions (hosts_erase _ _)).see _ _ hSeen
          journaled := (List.append_nil _).symm
          limits := rfl
          stopped := fun _ => rfl
          healthy := id }
    · split
      · exact writes_emit.mono fun _ _ _ => trivial
      · exact writes_pure trivial
  · exact writes_pure trivial

theorem forget_writes (name : String) : Writes (Writable now may) Seen (forget name now) core Anyhow :=
  writes_read (writes_refuse fun _ => (forget_agent_writes name).mono fun _ _ _ => trivial)

theorem cleanup_writes : Writes (Writable now may) Seen (cleanup now) core Anyhow := by
  unfold cleanup
  refine writes_read (writes_bind (writes_each _ fun name core => ?_) fun _ _ _ => writes_pure trivial)
  exact (forget_agent_writes name).mono fun _ _ _ => trivial

theorem rename_writes (hRenames : may.renames) (from_ to_ : String) :
    Writes (Writable now may) Seen (rename from_ to_ now) core Anyhow := by
  have hRename : ∀ core', Writes (Writable now may) Seen (do
      commit (.Rename from_ to_)
      wake (.Inbox to_)
      emit "rename" [from_, to_] [("from", .string from_), ("to", .string to_)] now
      hand_over from_
      hand_over to_) core' Anyhow := fun core' =>
    writes_bind (writes_commit hRenames) fun _ _ _ => writes_bind writes_wake fun _ _ _ =>
      writes_bind writes_emit fun _ _ _ => writes_bind writes_hand_over fun _ _ _ =>
        writes_hand_over.mono fun _ _ _ => trivial
  unfold rename
  split
  · exact writes_pure trivial
  · refine writes_read (writes_refuse fun _ => ?_)
    dsimp only
    refine writes_refuse fun _ => ?_
    split
    · exact writes_refuse fun _ => writes_bind (writes_commit trivial) fun _ core₁ _ => hRename core₁
    · exact hRename core

/-! ## Messages and broadcasts -/

theorem trim_history_writes (agent : String) :
    Writes (Writable now may) Seen (trim_history agent) core Anyhow := by
  unfold trim_history
  refine writes_read ?_
  dsimp only
  split
  · exact writes_commit_only trivial
  · exact writes_pure trivial

theorem send_writes (req : SendRequest) : Writes (Writable now may) Seen (send req now) core Anyhow := by
  unfold send
  refine writes_check checks_room_to_grow fun _ _ => writes_read ?_
  dsimp only
  split
  · exact writes_fail
  · split
    · exact writes_pure trivial
    · unfold send_new
      refine writes_check_when (checks_require_known _) (writes_read (writes_refuse fun _ => ?_))
      dsimp only
      refine writes_refuse fun _ => writes_bind (ensure_agents_writes _) fun _ core₁ _ => ?_
      refine writes_read (writes_bind (writes_commit rfl) fun _ core₂ _ => ?_)
      refine writes_bind (trim_history_writes _) fun _ _ _ => ?_
      exact writes_bind writes_emit fun _ _ _ => writes_bind writes_wake fun _ _ _ => writes_pure trivial

theorem reclaim_writes : Writes (Writable now may) Seen (reclaim now) core Anyhow := by
  unfold reclaim
  refine writes_read (writes_bind (writes_each _ fun m core => ?_) fun _ _ _ =>
    writes_read (writes_pure trivial))
  unfold requeue
  refine writes_read (writes_bind (writes_commit trivial) fun _ _ _ => writes_bind writes_emit fun _ _ _ => ?_)
  split
  · exact trim_history_writes m.to_
  · exact writes_wake.mono fun _ _ _ => trivial

theorem expire_writes : Writes (Writable now may) Seen (expire now) core Anyhow := by
  unfold expire
  refine writes_read (writes_bind (writes_each _ fun m core => ?_) fun _ _ _ =>
    writes_read (writes_pure trivial))
  exact writes_bind (writes_commit trivial) fun _ _ _ =>
    writes_bind writes_emit fun _ _ _ => trim_history_writes m.to_

theorem lease_each_writes (consumer : String) (until_ : Nat) (ids : List Id) :
    Writes (Writable now may) Seen (lease_each consumer now until_ ids) core Anyhow := by
  induction ids generalizing core with
  | nil => exact writes_pure trivial
  | cons id ids ih =>
    unfold lease_each
    refine writes_then ?_ fun token core₁ => ?_
    · refine ⟨⟨[], ?_⟩, fun hB => hB, trivial⟩
      exact { wrote := .nothing, journaled := (List.append_nil _).symm, limits := rfl, stopped := fun _ => rfl, healthy := fun h => h }
    · refine writes_bind (writes_commit trivial) fun _ core₂ _ => writes_read ?_
      refine writes_bind ih fun rest core₃ _ => ?_
      split
      · exact writes_pure trivial
      · exact writes_pure trivial

theorem lease_where_writes (inbox consumer : String) (limit : Nat) (only : Option (List Id)) :
    Writes (Writable now may) Seen (lease_where inbox consumer limit only now) core Anyhow := by
  unfold lease_where
  refine writes_bind reclaim_writes fun _ _ _ => writes_bind expire_writes fun _ _ _ => ?_
  refine writes_read (writes_bind (lease_each_writes _ _ _) fun leased _ _ => ?_)
  dsimp only
  split
  · exact writes_bind writes_emit fun _ _ _ => writes_pure trivial
  · exact writes_pure trivial

theorem ack_each_writes (inbox : String) (consumer : Option String) (receipts : List String)
    (outcome : AckOutcome) (acked : List String) :
    Writes (Writable now may) Seen (ack_each inbox consumer now receipts outcome acked) core Anyhow := by
  induction receipts generalizing outcome acked core with
  | nil => exact writes_pure trivial
  | cons receipt receipts ih =>
    unfold ack_each
    refine writes_read ?_
    dsimp only
    split
    · exact ih _ _
    · split
      · exact ih _ _
      · split
        · exact ih _ _
        · split
          · exact ih _ _
          · exact writes_bind (writes_commit trivial) fun _ _ _ => ih _ _

theorem ack_writes (inbox : String) (receipts : List String) (consumer : Option String) :
    Writes (Writable now may) Seen (ack inbox receipts consumer now) core Anyhow := by
  unfold ack
  refine writes_bind (ack_each_writes inbox consumer receipts {} []) fun result _ _ => ?_
  obtain ⟨outcome, acked⟩ := result
  dsimp only
  split
  · exact writes_bind (trim_history_writes inbox) fun _ _ _ =>
      writes_bind writes_emit fun _ _ _ => writes_pure trivial
  · exact writes_pure trivial

theorem purge_writes (inbox : String) : Writes (Writable now may) Seen (purge inbox now) core Anyhow := by
  unfold purge
  refine writes_read ?_
  dsimp only
  split
  · exact writes_bind (writes_commit trivial) fun _ _ _ =>
      writes_bind writes_emit fun _ _ _ => writes_pure trivial
  · exact writes_bind writes_emit fun _ _ _ => writes_pure trivial

theorem broadcast_writes (from_ body : String) (key : Option String) :
    Writes (Writable now may) Seen (broadcast from_ body key now) core Anyhow := by
  unfold broadcast
  refine writes_read ?_
  split
  · exact writes_pure trivial
  · refine writes_check checks_room_to_grow fun _ _ => writes_bind (ensure_agents_writes _) fun _ core₁ _ => ?_
    refine writes_read (writes_bind (writes_commit rfl) fun _ core₂ _ => ?_)
    refine writes_then ?_ fun _ _ => writes_bind writes_emit_all fun _ _ _ =>
      writes_pure trivial
    unfold trim_broadcasts
    refine writes_read ?_
    split
    · exact writes_pure trivial
    · exact writes_commit_only trivial

theorem clear_broadcasts_writes : Writes (Writable now may) Seen (clear_broadcasts now) core Anyhow := by
  unfold clear_broadcasts
  refine writes_read ?_
  dsimp only
  split
  · exact writes_bind (writes_commit trivial) fun _ _ _ => writes_emit_all.mono fun _ _ _ => trivial
  · exact writes_emit_all.mono fun _ _ _ => trivial

/-! ## Rooms -/

/-- A trim drops what the room need not keep. -/
theorem of_mem_trimmed_any {room : Room} {excess : Nat} {id : Id} (h : id ∈ room.trimmed excess) :
    ∃ (key : Id) (post : Post), room.posts[key]? = some post ∧ post.id = id ∧ room.keeps post = false := by
  obtain ⟨post, hTaken, rfl⟩ := List.mem_map.mp h
  obtain ⟨hStored, hSpare⟩ := List.mem_filter.mp (List.mem_of_mem_take hTaken)
  obtain ⟨⟨key, post⟩, hMem, rfl⟩ := List.mem_map.mp hStored
  exact ⟨key, post, (BTreeMap.mem_toList _ _ _).mp hMem, rfl, by simpa using hSpare⟩

theorem trim_room_writes (name : String) :
    Writes (Writable now may) Seen (trim_room name) core fun _ core' =>
      SameRooms core.store core'.store := by
  unfold trim_room
  refine writes_read ?_
  split
  · exact writes_pure fun _ => Iff.rfl
  · next record hRecord =>
    dsimp only
    split
    · refine (writes_commit ⟨record, hRecord, fun id => of_mem_trimmed_any⟩).mono fun _ core' h => ?_
      rw [h]
      exact apply_same_rooms core.store rfl
    · exact writes_pure fun _ => Iff.rfl

theorem append_writes {name : String} {post : Post}
    (hMay : Writable now may core.store (.Post name post)) :
    Writes (Writable now may) Seen (append name post now) core fun _ core' =>
      SameRooms core.store core'.store := by
  refine writes_bind (writes_commit hMay) fun _ core₁ h₁ => ?_
  refine writes_bind (trim_room_writes name) fun _ core₂ h₂ => writes_read ?_
  refine writes_bind writes_emit_room fun _ core₃ h₃ => writes_wake.mono fun _ core₄ h₄ => ?_
  rw [h₄, h₃]
  rw [h₁] at h₂
  exact (apply_same_rooms core.store rfl).trans h₂

theorem log_writes {name : String} (from_ body : String) (hRoom : name ∈ core.store.rooms) :
    Writes (Writable now may) Seen (log name from_ body now) core fun _ core' =>
      SameRooms core.store core'.store :=
  writes_read (append_writes ⟨hRoom, rfl, nofun, nofun⟩)

theorem set_question_writes (name : String) (id : Id) {status : Status} (hStatus : status ≠ .Open) :
    Writes (Writable now may) Seen (set_question name id status now) core Anyhow :=
  writes_bind (writes_commit hStatus) fun _ _ _ => writes_bind writes_emit_room fun _ _ _ =>
    writes_wake.mono fun _ _ _ => trivial

theorem drop_room_writes (name : String) :
    Writes (Writable now may) Seen (drop_room name now) core fun _ core' =>
      core'.store = core.store.apply (.DropRoom name) := by
  refine writes_read (writes_bind (writes_commit trivial) fun _ core₁ h₁ => ?_)
  refine writes_bind writes_emit fun _ core₂ h₂ => writes_wake.mono fun _ core₃ h₃ => ?_
  exact h₃.trans (h₂.trans h₁)

/-- A member who stays keeps its cursor; a new one has read nothing. -/
theorem joining_member_writes {name agent : String} (role : Option Role) (actor : Actor)
    {record : Room} (hRoom : core.store.rooms[name]? = some record) (hOpen : record.is_open = true) :
    Writes (Writable now may) Seen (joining_member name agent role actor record now) core fun joining core' =>
      SameRooms core.store core'.store ∧
        ∀ member, joining = some member → member.cursor = core'.store.room_cursor name agent := by
  -- the cursor of one who is a member stands in the room
  have hCursor : ∀ store : Store, store.rooms[name]? = some record →
      store.room_cursor name agent = record.members[agent]?.bind Member.cursor := by
    intro store hRoom
    unfold Store.room_cursor
    rw [hRoom]
    rfl
  unfold joining_member
  dsimp only
  cases hMember : record.members[agent]? with
  | some member =>
    dsimp only
    split
    · split
      · refine writes_refuse fun _ => writes_pure ⟨fun _ => Iff.rfl, ?_⟩
        rintro _ ⟨⟩
        rw [hCursor _ hRoom, hMember]
        rfl
      · exact writes_pure ⟨fun _ => Iff.rfl, nofun⟩
    · exact writes_pure ⟨fun _ => Iff.rfl, nofun⟩
  | none =>
    -- a new member has none, also after others were forgotten to make room
    refine writes_check_when (checks_require_known agent) ?_
    refine writes_bind (ensure_agents_writes _) fun _ core₁ h => writes_pure ⟨h.2, ?_⟩
    rintro _ ⟨⟩
    rw [hCursor _ (h.1 name record hRoom hOpen), hMember]
    rfl

theorem join_writes (name agent : String) (role : Option Role) (actor : Actor) :
    Writes (Writable now may) Seen (join name agent role actor now) core fun _ core' =>
      SameRooms core.store core'.store := by
  unfold join
  refine writes_check (checks_visible_room name actor) fun _ _ => ?_
  refine writes_check (checks_open_room name) fun record hRoom => ?_
  dsimp only
  refine writes_refuse fun _ => writes_refuse fun _ => writes_refuse fun _ => writes_refuse fun _ => ?_
  have hThere : name ∈ core.store.rooms := (BTreeMap.mem_iff_get _ _).mpr ⟨record, hRoom.1⟩
  refine writes_bind (joining_member_writes role actor hRoom.1 hRoom.2) fun joining core₁ ⟨h₁, hCursor⟩ => ?_
  cases joining with
  | none => exact writes_pure h₁
  | some member =>
    refine writes_read (writes_bind (writes_commit (hCursor member rfl)) fun _ core₂ h₂ => ?_)
    refine writes_bind writes_emit_room fun _ core₃ h₃ => ?_
    have hSame : SameRooms core.store core₃.store := by
      rw [h₃, h₂]
      exact h₁.trans (apply_same_rooms core₁.store rfl)
    exact writes_bind (log_writes actor.name _ ((hSame name).mpr hThere)) fun _ _ h =>
      writes_pure (hSame.trans h)

theorem make_way_writes (names : List String) {room : String} {rest : Option String → Op Bool}
    (hFree : room ∉ core.store.rooms)
    (hRest : ∀ evict core', room ∉ core'.store.rooms →
      Writes (Writable now may) Seen (rest evict) core' Anyhow) :
    Writes (Writable now may) Seen (do
      let evict ← make_way
      ensure_agents names now
      rest evict) core Anyhow :=
  writes_check checks_make_way fun evict _ => writes_bind (ensure_agents_writes names)
    fun _ core₁ h₁ => hRest evict core₁ fun hMem => hFree ((h₁.2 _).mp hMem)

theorem create_room_writes (req : CreateRoom) (actor : Actor) :
    Writes (Writable now may) Seen (create_room req actor now) core Anyhow := by
  -- the room is made and told of, whoever is in it
  have hMade : ∀ core' (names : List String), req.name ∉ core'.store.rooms → Writes (Writable now may) Seen (do
      let member (name : String) : String × Member :=
        (name, { role := if name = actor.name then .Owner else .Member, joined := now, cursor := none })
      commit (.Room
        { name := req.name, topic := req.topic, created := now, created_by := actor.name
          private_ := req.private_, members := .ofList (names.map member) })
      emit_room "room" req.name [("change", .string "created")] now
      log req.name actor.name
        (if req.topic = "" then "created the room" else s!"created the room: {req.topic}") now
      pure true) core' Anyhow := by
    intro core' names hFree
    refine writes_bind (writes_commit ⟨hFree, rfl, fun agent member hMember => ?_⟩) fun _ core₁ h₁ => ?_
    · -- nobody has read anything yet
      obtain ⟨name, -, hEq⟩ := List.mem_map.mp (BTreeMap.mem_of_ofList hMember)
      rw [← (Prod.mk.inj hEq).2]
    · refine writes_bind writes_emit_room fun _ core₂ h₂ => writes_bind (log_writes _ _ ?_) fun _ _ _ =>
        writes_pure trivial
      rw [h₂, h₁]
      exact Std.ExtTreeMap.mem_insert_self
  -- or one that is over makes way first
  have hEvicted : ∀ name core' (names : List String), req.name ∉ core'.store.rooms →
      Writes (Writable now may) Seen (do
        drop_room name now
        let member (name : String) : String × Member :=
          (name, { role := if name = actor.name then .Owner else .Member, joined := now, cursor := none })
        commit (.Room
          { name := req.name, topic := req.topic, created := now, created_by := actor.name
            private_ := req.private_, members := .ofList (names.map member) })
        emit_room "room" req.name [("change", .string "created")] now
        log req.name actor.name
          (if req.topic = "" then "created the room" else s!"created the room: {req.topic}") now
        pure true) core' Anyhow := by
    intro name core' names hFree
    refine writes_bind (drop_room_writes name) fun _ core₂ h₂ => hMade core₂ names ?_
    rw [h₂]
    exact fun hMem => hFree (Std.ExtTreeMap.mem_of_mem_erase hMem)
  unfold create_room
  refine writes_check checks_room_to_grow fun _ _ => writes_read ?_
  split
  · -- the room is there already, and the actor joins it
    exact writes_refuse fun _ => writes_bind (join_writes req.name actor.name none actor)
      fun _ _ _ => writes_pure trivial
  · next hFree =>
    have hFree : req.name ∉ core.store.rooms := hFree
    dsimp only
    refine writes_refuse fun _ => ?_
    split
    · refine writes_check (checks_forM _ fun n _ => checks_require_known n) fun _ _ => ?_
      refine writes_refuse fun _ => make_way_writes _ hFree fun evict core' hFree' => ?_
      cases evict with
      | none => exact hMade core' _ hFree'
      | some name => exact hEvicted name core' _ hFree'
    · refine make_way_writes _ hFree fun evict core' hFree' => ?_
      cases evict with
      | none => exact hMade core' _ hFree'
      | some name => exact hEvicted name core' _ hFree'

theorem leave_room_writes (name agent : String) (actor : Actor) :
    Writes (Writable now may) Seen (leave_room name agent actor now) core Anyhow := by
  unfold leave_room
  refine writes_check (checks_visible_room name actor) fun record ⟨hRoom, _⟩ => ?_
  refine writes_check_when checks_require_owner (writes_refuse fun _ => writes_read ?_)
  refine writes_bind (writes_commit trivial) fun _ core₁ h₁ => writes_bind writes_emit fun _ core₂ h₂ => ?_
  split
  · refine (log_writes actor.name _ ?_).mono fun _ _ _ => trivial
    rw [h₂, h₁]
    exact (apply_same_rooms core.store rfl name).mpr ((BTreeMap.mem_iff_get _ _).mpr ⟨record, hRoom⟩)
  · exact writes_pure trivial

theorem reopen_writes {name : String} (record : Room) (actor : Actor) (hRoom : name ∈ core.store.rooms) :
    Writes (Writable now may) Seen (reopen name record actor now) core Anyhow := by
  unfold reopen
  split
  · exact writes_pure trivial
  · refine writes_bind (writes_commit trivial) fun _ core₁ h₁ => ?_
    refine (log_writes actor.name _ ?_).mono fun _ _ _ => trivial
    rw [h₁]
    exact (apply_same_rooms core.store rfl name).mpr hRoom

theorem set_topic_writes (name topic : String) (actor : Actor) :
    Writes (Writable now may) Seen (set_topic name topic actor now) core Anyhow := by
  unfold set_topic
  refine writes_read ?_
  split
  · refine writes_check (checks_open_room name) fun record ⟨hRoom, _⟩ => ?_
    refine writes_bind (writes_commit trivial) fun _ core₁ h₁ => ?_
    refine (log_writes actor.name _ ?_).mono fun _ _ _ => trivial
    rw [h₁]
    exact (apply_same_rooms core.store rfl name).mpr ((BTreeMap.mem_iff_get _ _).mpr ⟨record, hRoom⟩)
  · exact writes_pure trivial

theorem close_writes (name : String) (actor : Actor) :
    Writes (Writable now may) Seen (close name actor now) core Anyhow := by
  unfold close
  refine writes_read ?_
  split
  · next hOpen =>
    have hRoom : name ∈ core.store.rooms := by
      unfold Core.is_open at hOpen
      cases hRecord : core.store.rooms[name]? with
      | none =>
        rw [hRecord] at hOpen
        cases hOpen
      | some record => exact (BTreeMap.mem_iff_get _ _).mpr ⟨record, hRecord⟩
    refine writes_bind (log_writes actor.name _ hRoom) fun _ _ _ => writes_read ?_
    refine writes_bind (writes_each _ fun id core => set_question_writes name id nofun) fun _ _ _ => ?_
    exact writes_commit_only trivial
  · exact writes_pure trivial

theorem update_room_writes (name : String) (topic : Option String) (closed : Option Bool)
    (actor : Actor) : Writes (Writable now may) Seen (update_room name topic closed actor now) core Anyhow := by
  unfold update_room
  refine writes_check (checks_visible_room name actor) fun record ⟨hRoom, _⟩ => ?_
  refine writes_check checks_require_owner fun _ _ => ?_
  dsimp only
  refine writes_when (reopen_writes record actor ((BTreeMap.mem_iff_get _ _).mpr ⟨record, hRoom⟩))
    fun core₁ => ?_
  have hEnd : ∀ core', Writes (Writable now may) Seen (do
      if closed = some true then close name actor now
      emit_room "room" name [("change", .string "updated")] now) core' Anyhow := fun core' =>
    writes_when (close_writes name actor) fun _ => writes_emit_room.mono fun _ _ _ => trivial
  cases topic with
  | none => exact hEnd core₁
  | some topic => exact writes_bind (set_topic_writes name topic actor) fun _ core₂ _ => hEnd core₂

theorem delete_room_writes (name : String) (actor : Actor) :
    Writes (Writable now may) Seen (delete_room name actor now) core Anyhow := by
  unfold delete_room
  refine writes_check (checks_visible_room name actor) fun record _ => ?_
  exact writes_check checks_require_owner fun _ _ =>
    (drop_room_writes name).mono fun _ _ _ => trivial

/-! ## Posts -/

theorem post_new_writes {req : PostRequest} {record : Room} (actor : Actor)
    (hRoom : req.room ∈ core.store.rooms) :
    Writes (Writable now may) Seen (post_new req record actor now) core Anyhow := by
  unfold post_new
  refine writes_check (checks_replied_to req.room record req.reply_to) fun parent _ => ?_
  dsimp only
  refine writes_check (checks_asking req.ask actor.name now) fun ask ⟨_, hAsker, _, hOpen⟩ => ?_
  -- those who are new are brought in, and then it is posted
  have hRest : ∀ (joining : List String) (p : Bool) (e : Error) (by_ : String → Actor)
      (post : Core → Post), (∀ core, (post core).id = core.store.next_id now) →
      (∀ core, (post core).kind ≠ .Answer) → (∀ core, (post core).from_ = actor.name) →
      (∀ core, (post core).ask = ask) → Writes (Writable now may) Seen (do
        refuse p e
        ensure_agents joining now
        joining.forM fun name => do
          let _ ← join req.room name none (by_ name) now
          pure ()
        let core ← read
        append req.room (post core) now
        pure (post core, true)) core Anyhow := by
    intro joining p e by_ post hNew hKind hFrom hAsk
    refine writes_refuse fun _ => writes_bind (ensure_agents_writes joining) fun _ core₁ h₁ => ?_
    -- joins keep the rooms, so the room is still there to post in
    have hJoins : Writes (Writable now may) Seen (joining.forM fun name => do
        let _ ← join req.room name none (by_ name) now
        pure ()) core₁ fun _ core' => SameRooms core.store core'.store :=
      writes_forM joining (fun name _ core₂ h => writes_bind (join_writes _ _ _ _) fun _ _ h' =>
        writes_pure (h.trans h')) h₁.2
    refine writes_bind hJoins fun _ core₂ h₂ => writes_read ?_
    refine writes_bind (append_writes ⟨(h₂ _).mpr hRoom, hNew core₂, ?_, ?_⟩) fun _ _ _ => writes_pure trivial
    · exact fun hAnswer => absurd hAnswer (hKind core₂)
    · intro asked hAsked
      rw [hAsk core₂] at hAsked
      subst hAsked
      rw [hFrom core₂]
      exact ⟨hOpen asked rfl, hAsker⟩
  cases ask with
  | none => exact hRest _ _ _ _ _ (fun _ => rfl) (fun _ => nofun) (fun _ => rfl) fun _ => rfl
  | some ask =>
    refine writes_check (checks_admit_question record ask actor) fun _ _ => ?_
    exact hRest _ _ _ _ _ (fun _ => rfl) (fun _ => nofun) (fun _ => rfl) fun _ => rfl

theorem post_writes (req : PostRequest) (actor : Actor) :
    Writes (Writable now may) Seen (post req actor now) core Anyhow := by
  unfold post
  refine writes_check (checks_visible_room req.room actor) fun record ⟨hRoom, _⟩ => ?_
  refine writes_check checks_room_to_grow fun _ _ => ?_
  refine writes_check (checks_open_room req.room) fun _ _ => writes_read ?_
  split
  · exact writes_pure trivial
  · exact post_new_writes actor ((BTreeMap.mem_iff_get _ _).mpr ⟨record, hRoom⟩)

theorem answer_writes (hAnswers : may.answers) (req : AnswerRequest) (actor : Actor) :
    Writes (Writable now may) Seen (answer req actor now) core Anyhow := by
  unfold answer
  refine writes_check checks_room_to_grow fun _ _ => ?_
  refine writes_check (checks_visible_room req.room actor) fun record ⟨hRecord, _⟩ => ?_
  have hRoom : req.room ∈ core.store.rooms := (BTreeMap.mem_iff_get _ _).mpr ⟨record, hRecord⟩
  refine writes_check (checks_open_room req.room) fun record _ => writes_read ?_
  split
  · -- answered before with the same key
    exact writes_pure trivial
  · unfold answer_new
    refine writes_check (checks_asked_question _ _ record actor) fun asked _ => ?_
    obtain ⟨asked, ask⟩ := asked
    refine writes_check (checks_chosen ask.options req.choice) fun choice _ => ?_
    dsimp only
    refine writes_refuse fun _ => ?_
    -- the answer is posted, and the question resolved once everyone asked has answered
    have hRest : ∀ core', req.room ∈ core'.store.rooms → ∀ post : Core → Post,
        (∀ core, (post core).id = core.store.next_id now) → (∀ core, (post core).ask = none) →
        Writes (Writable now may) Seen (do
          let core ← read
          append req.room (post core) now
          let core' ← read
          let resolved := (core'.store.rooms[req.room]?).any fun record => record.resolved req.question
          if resolved then set_question req.room req.question .Resolved now
          pure (post core, resolved)) core' Anyhow := by
      intro core' hRoom post hNew hPlain
      refine writes_read (writes_bind (append_writes ⟨hRoom, hNew core', fun _ => hAnswers, ?_⟩)
        fun _ core₁ _ => writes_read ?_)
      · rw [hPlain core']
        exact nofun
      · exact writes_when (set_question_writes _ _ nofun) fun _ => writes_pure trivial
    split
    · exact writes_bind (join_writes req.room actor.name none actor) fun _ core' h =>
        hRest core' ((h _).mpr hRoom) _ (fun _ => rfl) fun _ => rfl
    · exact hRest core hRoom _ (fun _ => rfl) fun _ => rfl

theorem withdraw_writes (name : String) (question : Id) (actor : Actor) :
    Writes (Writable now may) Seen (withdraw name question actor now) core Anyhow := by
  unfold withdraw
  refine writes_check (checks_visible_room name actor) fun record _ => ?_
  split
  · exact writes_fail
  · exact writes_check_when checks_require_owner
      (writes_refuse fun _ => set_question_writes name question nofun)

theorem board_set_writes (name key : String) (value : Option String) (expect : Option Nat)
    (actor : Actor) : Writes (Writable now may) Seen (board_set name key value expect actor now) core Anyhow := by
  unfold board_set
  refine writes_check (checks_visible_room name actor) fun _ _ => ?_
  refine writes_check_when checks_room_to_grow ?_
  refine writes_check (checks_open_room name) fun record ⟨hRoom, _⟩ => writes_refuse fun _ => ?_
  refine writes_check (checks_expect_version key _ expect) fun _ _ => ?_
  unfold board_write
  refine writes_check (checks_board_entry name key value record actor now) fun entry _ => ?_
  split
  · exact writes_pure trivial
  · refine writes_bind (writes_commit trivial) fun _ core₁ h₁ => writes_bind writes_emit_room fun _ core₂ h₂ => ?_
    refine writes_bind (log_writes actor.name _ ?_) fun _ _ _ => writes_pure trivial
    rw [h₂, h₁]
    exact (apply_same_rooms core.store rfl name).mpr ((BTreeMap.mem_iff_get _ _).mpr ⟨record, hRoom⟩)

/-! ## The sweep -/

theorem sweep_due_writes : Writes (Writable now may) Seen (sweep_due now) core Anyhow := by
  unfold sweep_due
  refine writes_bind reclaim_writes fun _ _ _ => writes_bind expire_writes fun _ _ _ => writes_read ?_
  dsimp only
  split
  · exact writes_bind (writes_commit trivial) fun _ _ _ => writes_read (writes_pure trivial)
  · exact writes_read (writes_pure trivial)

theorem sweep_sessions_writes : Writes (Writable now may) Seen (sweep_sessions now) core Anyhow := by
  unfold sweep_sessions
  refine writes_read (writes_each _ fun s core => ?_)
  refine writes_then ?_ fun _ core₁ => writes_read ?_
  · refine ⟨⟨[], ?_⟩, id, trivial⟩
    exact
      { wrote := Wrote.nothing.sessions (hosts_erase _ _)
        journaled := (List.append_nil _).symm
        limits := rfl
        stopped := fun _ => rfl
        healthy := id }
  · split
    · exact writes_emit.mono fun _ _ _ => trivial
    · exact writes_pure trivial

theorem sweep_writes : Writes (Writable now may) Seen (sweep now) core Anyhow := by
  have hRooms : ∀ core', Writes (Writable now may) Seen (sweep_rooms now) core' Anyhow := by
    intro core'
    unfold sweep_rooms
    refine writes_read (writes_bind (writes_each _ fun q core => set_question_writes q.1 q.2 nofun)
      fun _ _ _ => writes_read ?_)
    exact writes_each _ fun name core => (drop_room_writes name).mono fun _ _ _ => trivial
  unfold sweep
  refine writes_bind sweep_sessions_writes fun _ _ _ => writes_bind sweep_due_writes fun more _ _ => ?_
  refine writes_read ?_
  dsimp only
  split
  · exact writes_bind (writes_commit trivial) fun _ _ _ => writes_bind (hRooms _) fun _ _ _ =>
      writes_pure trivial
  · exact writes_bind (hRooms _) fun _ _ _ => writes_pure trivial

end Operations

/-! ## Every operation -/

/-- Whether an operation moves what an agent has read. -/
def Operation.is_read : Operation → Bool
  | .read_broadcasts .. | .read_room .. => true
  | _ => false

/-- Whether an operation is an agent's heartbeat, or its leaving. -/
def Operation.is_presence : Operation → Bool
  | .presence .. | .leave .. => true
  | _ => false

/-- Whether an operation answers a question. -/
def Operation.is_answer : Operation → Bool
  | .answer .. => true
  | _ => false

/-- Whether an operation renames an agent. -/
def Operation.is_rename : Operation → Bool
  | .rename .. => true
  | _ => false

def Operation.may (operation : Operation) : May where
  answers := operation.is_answer = true
  renames := operation.is_rename = true

theorem discard_writes {α : Type} {Allowed : Store → Effect → Prop} {Seen : Prop} {core : Core}
    {m : Op α} (h : Writes Allowed Seen m core Anyhow) : Writes Allowed Seen (discard m) core Anyhow :=
  writes_bind h fun _ _ _ => writes_pure trivial

/-- **What an operation writes.** -/
theorem perform_writes (operation : Operation) (hRead : operation.is_read = false)
    (now : Fin (2 ^ 64)) (core : Core) :
    Writes (Writable now operation.may) (operation.is_presence = true)
      (operation.perform now) core Anyhow := by
  cases operation with
  | presence req => exact discard_writes (presence_writes req rfl)
  | leave agent session => exact leave_writes agent session rfl
  | rename from_ to_ => exact rename_writes rfl from_ to_
  | cleanup => exact discard_writes cleanup_writes
  | forget name => exact forget_writes name
  | send req => exact discard_writes (send_writes req)
  | lease inbox consumer limit => exact discard_writes (lease_where_writes inbox consumer limit none)
  | lease_ids inbox consumer ids =>
    exact discard_writes (lease_where_writes inbox consumer ids.length (some ids))
  | ack inbox receipts consumer => exact discard_writes (ack_writes inbox receipts consumer)
  | purge inbox => exact discard_writes (purge_writes inbox)
  | broadcast from_ body key => exact discard_writes (broadcast_writes from_ body key)
  | read_broadcasts => cases hRead
  | clear_broadcasts => exact clear_broadcasts_writes
  | create_room req actor => exact discard_writes (create_room_writes req actor)
  | join room agent role actor => exact discard_writes ((join_writes room agent role actor).mono fun _ _ _ => trivial)
  | leave_room room agent actor => exact leave_room_writes room agent actor
  | update_room room topic closed actor => exact update_room_writes room topic closed actor
  | delete_room room actor => exact delete_room_writes room actor
  | post req actor => exact discard_writes (post_writes req actor)
  | answer req actor => exact discard_writes (answer_writes rfl req actor)
  | withdraw room question actor => exact withdraw_writes room question actor
  | board_set room key value expect actor =>
    exact discard_writes (board_set_writes room key value expect actor)
  | read_room => cases hRead
  | sweep => exact discard_writes sweep_writes
  | sweep_due => exact discard_writes sweep_due_writes

end Postino.Forum
