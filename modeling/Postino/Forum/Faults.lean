import Postino.Forum.Writes

/-!
# When the disk refuses a write

An effect is journaled before it is applied, so one that the disk refuses changes
nothing. An operation that journals several may be refused halfway.

* `first_refused_unchanged` — when the first append of an operation is refused,
  nothing of it is left.
* `half_renamed` — when a later one is, what came before it stays.
-/

namespace Postino.Forum

open Lib Fallible

/-- What callers see of a store is the same. -/
structure SameForum (store store' : Store) : Prop where
  agents : store'.agents = store.agents
  messages : store'.messages = store.messages
  broadcasts : store'.broadcasts = store.broadcasts
  rooms : store'.rooms = store.rooms

theorem SameForum.refl (store : Store) : SameForum store store := ⟨rfl, rfl, rfl, rfl⟩

section

variable {Allowed : Store → Effect → Prop} {core : Core}

/-- Sessions may end, but nothing else changes unless it is written. -/
theorem Wrote.nothing_written {store store' : Store} {effects : List Effect}
    (h : Wrote Allowed False store effects store') (hNone : effects = []) :
    SameForum store store' := by
  induction h with
  | nothing => exact .refl store
  | effect _ _ _ => exact absurd hNone (by simp)
  | sessions _ _ ih =>
    obtain ⟨hAgents, hMessages, hBroadcasts, hRooms⟩ := ih hNone
    exact ⟨hAgents, hMessages, hBroadcasts, hRooms⟩
  | see _ _ hSeen _ _ => exact absurd hSeen id

theorem Writes.unchanged {α : Type} {m : Op α} {Done : α → Core → Prop}
    (h : Writes Allowed False m core Done) (hBreaks : core.breaks) :
    SameForum core.store (m core).2.store := by
  obtain ⟨effects, hTrace⟩ := h.traced
  exact hTrace.wrote.nothing_written (hTrace.stopped hBreaks)

/-- How far an agent has read. -/
def Effect.is_cursor : Effect → Bool
  | .Cursor .. | .RoomCursor .. => true
  | _ => false

/-- The reads of what is unread write one effect, or none. -/
theorem read_room_writes {Seen : Prop} (name agent : String) (limit : Nat) :
    Writes (fun _ effect => effect.is_cursor = true) Seen (read_room name agent limit) core Anyhow := by
  unfold read_room
  have hRoom : Checks (room name) core fun _ => True :=
    (sat_room core name).mono (fun _ _ h => ⟨h.1, trivial⟩) fun _ => id
  refine writes_check hRoom fun record _ => ?_
  split
  · exact writes_fail
  · dsimp only
    split
    · exact writes_bind (writes_commit rfl) fun _ _ _ => writes_pure trivial
    · exact writes_pure trivial

theorem read_broadcasts_writes {Seen : Prop} (agent : String) (all advance : Bool) :
    Writes (fun _ effect => effect.is_cursor = true) Seen (read_broadcasts agent all advance) core Anyhow := by
  unfold read_broadcasts
  refine writes_read ?_
  dsimp only
  split
  · split
    · exact writes_bind (writes_commit rfl) fun _ _ _ => writes_read (writes_pure trivial)
    · exact writes_read (writes_pure trivial)
  · exact writes_read (writes_pure trivial)

end

/-- **When the first append of an operation is refused, nothing of it is left**, so that
it may be made again. -/
theorem first_refused_unchanged (operation : Operation) (hOp : operation.is_presence = false)
    (now : Fin (2 ^ 64)) (core : Core)
    (hFirst : core.halted = true ∨ ∃ e rest, core.journal = some e :: rest) :
    SameForum core.store (operation.perform now core).2.store := by
  cases hRead : operation.is_read with
  | false =>
    have hWrites := perform_writes operation hRead now core
    rw [hOp, show (false = true) = False by simp] at hWrites
    exact hWrites.unchanged hFirst
  | true =>
    cases operation with
    | read_room name agent limit =>
      exact (discard_writes (read_room_writes name agent limit)).unchanged hFirst
    | read_broadcasts agent all advance =>
      exact (discard_writes (read_broadcasts_writes agent all advance)).unchanged hFirst
    | _ => cases hRead

/-- Two agents nobody waits for. -/
def two_idle : Core :=
  let store : Store := {}
  { store := (store.apply (.Agent "alice" 1)).apply (.Agent "bob" 1) }

theorem first_refused_unchanged_rename :
    let core : Core := { two_idle with journal := [some "disk full"] }
    (rename "alice" "bob" 2 core).1 = .error (.Storage "journal write failed: disk full") ∧
      SameForum core.store ((Operation.rename "alice" "bob").perform 2 core).2.store :=
  ⟨by decide +kernel, first_refused_unchanged _ rfl 2 _ (.inr ⟨"disk full", [], rfl⟩)⟩

/-- A rename over an idle agent whose second append is refused: the agent is
forgotten, and nobody has its name. -/
theorem half_renamed :
    ¬ ∀ (operation : Operation) (now : Fin (2 ^ 64)) (core : Core) (text : String),
      operation.is_presence = false → (operation.perform now core).1 = .error (.Storage text) →
        SameForum core.store (operation.perform now core).2.store := by
  intro h
  let core : Core := { two_idle with journal := [none, some "disk full"] }
  have hSame := h (.rename "alice" "bob") 2 core "journal write failed: disk full" rfl
    (by decide +kernel)
  have hKept : ((Operation.rename "alice" "bob").perform 2 core).2.store.agents.contains "bob" =
      core.store.agents.contains "bob" := congrArg (·.contains "bob") hSame.agents
  exact absurd hKept (by decide +kernel)

end Postino.Forum
