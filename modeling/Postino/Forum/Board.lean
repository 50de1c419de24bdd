import Postino.Forum.Frames
import Postino.Forum.Rooms

/-!
# The board's versions

A write that names the version it read fails if the key is at another one. A key
counts its changes for as long as it is there; once removed, it starts again at
one.

* `board_set_held` — what one call does to a key.
* `board_version_exact` — a write at the version read misses no change, unless the
  key was removed in between.
-/

namespace Postino.Forum

open Lib Fallible

/-! ## What a key holds -/

def Store.held (store : Store) (name key : String) : Option Entry :=
  (store.rooms[name]?).bind fun room => room.board[key]?

/-- The version a reader sees; 0 for a key that is not set. -/
def version_of (held : Option Entry) : Nat := held.elim 0 Entry.version

structure BoardCall where
  key : String
  value : Option String
  expect : Option Nat
  actor : Actor
  now : Fin (2 ^ 64)

def BoardCall.perform (name : String) (c : BoardCall) : Op (Option Entry) :=
  board_set name c.key c.value c.expect c.actor c.now

/-- The core after some calls, one after another. -/
def after_calls (name : String) (core : Core) (calls : List BoardCall) : Core :=
  calls.foldl (fun core c => (c.perform name core).2) core

/-! ## One call -/

section

variable {name : String} {key : String}

/-- Posts leave the board alone. -/
theorem SameStanding.held {store store' : Store} (h : SameStanding store store') (name key : String) :
    store'.held name key = store.held name key := by
  have hHeld : ∀ store : Store, store.held name key =
      ((store.rooms[name]?).map Room.standing).bind fun room => room.board[key]? := by
    intro store
    unfold Store.held
    cases store.rooms[name]? <;> rfl
  rw [hHeld, hHeld, h.rooms name]

/-- The board holds what `held` says. -/
def Holds (name : String) (held : String → Option Entry) (store : Store) : Prop :=
  ∀ key, store.held name key = held key

theorem keeps_append (held : String → Option Entry) (room : String) (post : Post)
    (now : Fin (2 ^ 64)) :
    Keeps (fun core : Core => Holds name held core.store) (append room post now) := by
  unfold append
  refine keeps_bind (keeps_commit fun store h key => ((posts_standing store rfl).held name key).trans (h key))
    fun _ => keeps_bind ?_ fun _ => ?_
  · intro core h
    unfold trim_room
    refine sat_read ?_
    split
    · exact sat_pure h
    · dsimp only
      split
      · exact keeps_commit (P := Holds name held)
          (fun store h key => ((posts_standing store rfl).held name key).trans (h key)) core h
      · exact sat_pure h
  · exact fun core h => sat_read (sat_bind (sat_emit_room fun _ => sat_wake fun _ => h))

theorem keeps_log (held : String → Option Entry) (room from_ body : String) (now : Fin (2 ^ 64)) :
    Keeps (fun core : Core => Holds name held core.store) (log room from_ body now) :=
  fun core h => sat_read (keeps_append held room _ now core h)

theorem held_board (store : Store) (room k : String) (entry : Option Entry) {record : Room}
    (hRoom : store.rooms[room]? = some record) :
    (store.apply (.Board room k entry)).held room key =
      if k = key then entry else store.held room key := by
  show ((store.with_room room _).rooms[room]?).bind _ = _
  rw [with_room_get, if_pos rfl, hRoom]
  have hHeld : store.held room key = record.board[key]? := by
    unfold Store.held
    rw [hRoom]
    rfl
  cases entry with
  | none =>
    show (record.board.erase k)[key]? = _
    rw [BTreeMap.get_erase, hHeld]
  | some entry =>
    show (record.board.insert k entry)[key]? = _
    rw [BTreeMap.get_insert, hHeld]

/-- What one call may do to the board: nothing, or one change to its key. -/
def BoardStep (name key : String) (store store' : Store) : Prop :=
  Holds name (store.held name) store' ∨ ∃ entry,
    Holds name (fun k => if key = k then entry else store.held name k) store' ∧
      match entry with
      | none => store.held name key ≠ none
      | some entry => entry.version = version_of (store.held name key) + 1

theorem BoardStep.refl (store : Store) : BoardStep name key store store := .inl fun _ => rfl

theorem sat_board_entry {core : Core} {record : Room} (value : Option String) (actor : Actor)
    (now : Fin (2 ^ 64)) (hRoom : core.store.rooms[name]? = some record) :
    Sat (board_entry name key value record actor now) core
      (fun result core' => core' = core ∧ ∀ entry body, result = some (entry, body) →
        match entry with
        | none => core.store.held name key ≠ none
        | some entry => entry.version = version_of (core.store.held name key) + 1)
      (fun core' => core' = core) := by
  have hHeld : core.store.held name key = record.board[key]? := by
    unfold Store.held
    rw [hRoom]
    rfl
  unfold board_entry
  cases value with
  | none =>
    refine sat_bind (sat_refuse (fun _ => rfl) fun hSet => sat_pure ⟨rfl, ?_⟩)
    rintro _ _ ⟨⟩
    rw [hHeld]
    simpa using hSet
  | some value =>
    dsimp only
    split
    · exact sat_pure ⟨rfl, nofun⟩
    · refine sat_bind (sat_refuse (fun _ => rfl) fun _ => sat_pure ⟨rfl, ?_⟩)
      rintro _ _ ⟨⟩
      rw [hHeld]
      rfl

theorem board_write_sat {core : Core} {record : Room} (value : Option String) (actor : Actor)
    (now : Fin (2 ^ 64)) (hRoom : core.store.rooms[name]? = some record) :
    Sat (board_write name key value record actor now) core
      (fun _ core' => BoardStep name key core.store core'.store)
      (fun core' => BoardStep name key core.store core'.store) := by
  have hRefl : BoardStep name key core.store core.store := .refl _
  unfold board_write
  refine sat_bind ((sat_board_entry value actor now hRoom).mono (fun result core' h => ?_) ?_)
  · obtain ⟨rfl, hEntry⟩ := h
    rcases result with - | ⟨entry, body⟩
    · exact sat_pure hRefl
    · have hChanged : ∀ store, Holds name (fun k => if key = k then entry else core'.store.held name k)
          store → BoardStep name key core'.store store := fun store h => .inr ⟨entry, h, hEntry _ _ rfl⟩
      refine sat_bind ((sat_commit_any _ core').mono (fun _ core₁ h₁ => ?_) fun core₁ h₁ => ?_)
      · -- the line logged leaves the board as the write left it
        have hHolds : Holds name (fun k => if key = k then entry else core'.store.held name k)
            core₁.store := by
          intro k
          rw [h₁, held_board core'.store name key entry hRoom]
        refine sat_bind (sat_emit_room fun events => ?_)
        refine sat_bind ((keeps_log _ name actor.name body now { core₁ with events } hHolds).mono
          (fun _ core₂ h₂ => sat_pure (hChanged _ h₂)) fun core₂ h₂ => hChanged _ h₂)
      · rw [h₁]
        exact hRefl
  · rintro _ rfl
    exact hRefl

/-- **One call.** A write that names a version goes through only at that one. -/
theorem board_set_sat (value : Option String) (expect : Option Nat) (actor : Actor)
    (now : Fin (2 ^ 64)) (core : Core) :
    Sat (board_set name key value expect actor now) core
      (fun _ core' => BoardStep name key core.store core'.store ∧
        ∀ v, expect = some v → version_of (core.store.held name key) = v)
      (fun core' => BoardStep name key core.store core'.store) := by
  have hSame : ∀ core', core' = core → BoardStep name key core.store core'.store := by
    rintro _ rfl
    exact .refl _
  unfold board_set
  refine sat_bind ((sat_visible_room core name actor).mono (fun _ core' h => ?_) hSame)
  obtain ⟨rfl, -⟩ := h
  refine sat_when ((sat_room_to_grow core').mono (fun _ _ h => h) hSame) ?_
  refine sat_bind ((sat_open_room core' name).mono (fun record core₁ h => ?_) hSame)
  obtain ⟨rfl, hRoom, -⟩ := h
  have hHeld : core₁.store.held name key = record.board[key]? := by
    unfold Store.held
    rw [hRoom]
    rfl
  refine sat_bind (sat_refuse (fun _ => hSame _ rfl) fun _ => ?_)
  have hWrite : Sat (board_write name key value record actor now) core₁
      (fun _ core' => BoardStep name key core₁.store core'.store)
      (fun core' => BoardStep name key core₁.store core'.store) :=
    board_write_sat value actor now hRoom
  cases expect with
  | none => exact sat_bind (sat_pure (hWrite.mono (fun _ _ h => ⟨h, nofun⟩) fun _ => id))
  | some v =>
    refine sat_bind (sat_refuse (fun _ => hSame _ rfl) fun hVersion => ?_)
    refine hWrite.mono (fun _ _ h => ⟨h, ?_⟩) fun _ => id
    rintro _ ⟨⟩
    rw [hHeld]
    exact (not_not.mp (of_decide_eq_false hVersion)).symm

end

/-! ## Runs of calls -/

section

variable {name : String} {key : String}

theorem call_step (core : Core) (c : BoardCall) :
    BoardStep name c.key core.store (c.perform name core).2.store := by
  rcases (@board_set_sat name c.key c.value c.expect c.actor c.now core).elim with
    ⟨_, core', hResult, h, -⟩ | ⟨_, core', hResult, h⟩
  · exact (congrArg Prod.snd hResult : (c.perform name core).2 = core') ▸ h
  · exact (congrArg Prod.snd hResult : (c.perform name core).2 = core') ▸ h

/-- Unless it is removed, a key's version counts its changes. -/
theorem call_version (core : Core) (c : BoardCall)
    (hKept : core.store.held name key ≠ none → (c.perform name core).2.store.held name key ≠ none) :
    (c.perform name core).2.store.held name key = core.store.held name key ∨
      version_of ((c.perform name core).2.store.held name key) =
        version_of (core.store.held name key) + 1 := by
  rcases @call_step name core c with hSame | ⟨entry, hHolds, hEntry⟩
  · exact .inl (hSame key)
  · rw [hHolds key] at hKept ⊢
    dsimp only at hKept ⊢
    by_cases hKey : c.key = key
    · subst hKey
      rw [if_pos rfl] at hKept ⊢
      cases entry with
      | none => exact absurd rfl (hKept hEntry)
      | some entry => exact .inr hEntry
    · rw [if_neg hKey]
      exact .inl rfl

/-- Every call of a run leaves `key` as it was. -/
def Unchanged (name key : String) (core : Core) (calls : List BoardCall) : Prop :=
  ∀ before c rest, calls = before ++ c :: rest →
    (after_calls name core (before ++ [c])).store.held name key =
      (after_calls name core before).store.held name key

/-- No call of a run removes `key`. -/
def NeverRemoved (name key : String) (core : Core) (calls : List BoardCall) : Prop :=
  ∀ before c rest, calls = before ++ c :: rest →
    (after_calls name core before).store.held name key ≠ none →
    (after_calls name core (before ++ [c])).store.held name key ≠ none

theorem unchanged_nil (core : Core) : Unchanged name key core [] := by
  intro before c rest h
  simp at h

/-- A run, its first call apart. -/
theorem unchanged_cons {core : Core} {c : BoardCall} {calls : List BoardCall}
    (hFirst : (c.perform name core).2.store.held name key = core.store.held name key)
    (hRest : Unchanged name key (c.perform name core).2 calls) :
    Unchanged name key core (c :: calls) := by
  rintro before c' rest h
  rcases before with - | ⟨c'', before⟩
  · obtain ⟨rfl, -⟩ := List.cons.inj h
    exact hFirst
  · obtain ⟨rfl, hCalls⟩ := List.cons.inj h
    exact hRest before c' rest hCalls

theorem neverRemoved_cons {core : Core} {c : BoardCall} {calls : List BoardCall}
    (h : NeverRemoved name key core (c :: calls)) :
    (core.store.held name key ≠ none → (c.perform name core).2.store.held name key ≠ none) ∧
      NeverRemoved name key (c.perform name core).2 calls :=
  ⟨h [] c calls rfl, fun before c' rest hCalls => h (c :: before) c' rest (congrArg (c :: ·) hCalls)⟩

/-- **A run that never removes a key counts its changes up**: its version after the
run is the one before only if nothing changed it. -/
theorem run_version (calls : List BoardCall) (core : Core)
    (hKept : NeverRemoved name key core calls) :
    version_of (core.store.held name key) ≤
        version_of ((after_calls name core calls).store.held name key) ∧
      (version_of ((after_calls name core calls).store.held name key) =
        version_of (core.store.held name key) → Unchanged name key core calls) := by
  induction calls generalizing core with
  | nil => exact ⟨le_rfl, fun _ => unchanged_nil core⟩
  | cons c calls ih =>
    obtain ⟨hFirst, hRest⟩ := neverRemoved_cons hKept
    obtain ⟨hUp, hSame⟩ := ih (c.perform name core).2 hRest
    have hRun : after_calls name core (c :: calls) =
        after_calls name (c.perform name core).2 calls := rfl
    rw [hRun]
    rcases call_version core c hFirst with hHeld | hNext
    · rw [hHeld] at hUp hSame
      exact ⟨hUp, fun hVersion => unchanged_cons hHeld (hSame hVersion)⟩
    · refine ⟨by omega, fun hVersion => ?_⟩
      omega

/-- **A write at the version its author read misses no change, exactly when the key
was not removed in between.** -/
theorem board_version_exact (name key value : String) (v : Nat) (actor : Actor)
    (now : Fin (2 ^ 64)) (core : Core) (calls : List BoardCall)
    (hRead : version_of (core.store.held name key) = v)
    (hWrite : (board_set name key (some value) (some v) actor now
      (after_calls name core calls)).1.isOk = true) :
    Unchanged name key core calls ↔ NeverRemoved name key core calls := by
  constructor
  · intro h before c rest hCalls hHeld
    rw [h before c rest hCalls]
    exact hHeld
  · intro h
    refine (run_version calls core h).2 ?_
    rcases (@board_set_sat name key (some value) (some v) actor now
      (after_calls name core calls)).elim with ⟨_, _, -, -, hVersion⟩ | ⟨_, _, hResult, -⟩
    · rw [hRead]
      exact hVersion v rfl
    · rw [hResult] at hWrite
      cases hWrite

end

/-- A room of two, whose board has a plan at version 1. -/
def planned : Core :=
  let alice : Actor := { name := "alice", admin := false, strict := false }
  let room : CreateRoom :=
    { name := "release", topic := "", private_ := false, members := ["bob"], join := false }
  let core := (create_room room alice 1 {}).2
  (board_set "release" "plan" (some "ship") (some 0) alice 2 core).2

def bob_sets (value : Option String) (now : Fin (2 ^ 64)) : BoardCall :=
  { key := "plan", value, expect := none, now
    actor := { name := "bob", admin := false, strict := false } }

/-- A write after another agent's. -/
theorem board_version_exact_kept :
    let alice : Actor := { name := "alice", admin := false, strict := false }
    version_of (planned.store.held "release" "plan") = 1 ∧
      (Unchanged "release" "plan" planned [bob_sets (some "ship") 3] ↔
        NeverRemoved "release" "plan" planned [bob_sets (some "ship") 3]) ∧
      (board_set "release" "plan" (some "test") (some 1) alice 4
        (after_calls "release" planned [bob_sets (some "ship") 3])).1.isOk = true :=
  have hRead : version_of (planned.store.held "release" "plan") = 1 := by decide +kernel
  have hWrite : (board_set "release" "plan" (some "test") (some 1)
      { name := "alice", admin := false, strict := false } 4
      (after_calls "release" planned [bob_sets (some "ship") 3])).1.isOk = true := by decide +kernel
  ⟨hRead, board_version_exact "release" "plan" "test" 1 _ 4 planned _ hRead hWrite, hWrite⟩

/-- A key removed and set again is at version 1 again: a write at the version read
before goes through, over a change its author has not seen. -/
theorem board_version_reused :
    ¬ ∀ (name key value : String) (v : Nat) (actor : Actor) (now : Fin (2 ^ 64)) (core : Core)
      (calls : List BoardCall), version_of (core.store.held name key) = v →
      (board_set name key (some value) (some v) actor now
        (after_calls name core calls)).1.isOk = true → Unchanged name key core calls := by
  intro h
  have hUnchanged := h "release" "plan" "test" 1 { name := "alice", admin := false, strict := false }
    5 planned [bob_sets none 3, bob_sets (some "wait") 4] (by decide +kernel) (by decide +kernel)
  have hHeld := hUnchanged [] (bob_sets none 3) [bob_sets (some "wait") 4] rfl
  exact absurd hHeld (by decide +kernel)

end Postino.Forum
