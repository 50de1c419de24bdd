import Postino.Journal.Order

/-!
# No reply before its changes are journaled

Threads share the broker: its lock (`owner`), the tail's lock (`tailLock`) with
the count of its holders (`busy`), and the flag that changes wait in the journal
(`deferred`). A thread that batches leaves its changes pending and calls
`flush_journal` before it replies; another one has `settle` write what waits
before it lets go of the lock.

`Thread.step` is one thread's next step, up to where it looks at, or changes,
something another thread could see: `flush_journal` reads the flag, the count
and the tail's lock without the broker's. A section run under the broker's lock
may journal any number of changes.

* `Fine` — what holds of a thread at each place of its code;
* `fine_step` — one lemma for all its steps, `sound_step` for those of any
  thread among the others;
* `journaled_before_reply` — the result: once a thread may reply, every change
  made before it let go of the lock is in the files, or refused by a disk that
  is failing.
-/

namespace Postino.Journal

/-! ## Threads -/

/-- Where a thread that holds the broker's lock goes on after a write. -/
inductive Back where
  | working
  | settled
  /-- Out of `flush_journal`. -/
  | returning
  deriving DecidableEq

/-- Where a thread is. -/
inductive Pc (ε : Type) where
  /-- Outside; whether `flush_journal`, or `settle` where it writes, has returned
  since its last section. -/
  | idle (replied : Bool)
  /-- In a section, before `settle`. -/
  | working
  /-- The flag is raised, the change not pushed yet; whether it is made. -/
  | deferring (effect : ε) (made : Bool)
  /-- Waiting for the tail, in `flush_deferred` or in another operation. -/
  | asking (flush : Bool) (back : Back)
  /-- In `flush_deferred`, before and after its write. -/
  | flushing (back : Back)
  | lowering (back : Back)
  /-- In `settle`, waiting for those who took lines. -/
  | settling
  | settled
  | returning
  /-- In `flush_journal`: the flag was read, `Writer::wait` is next. -/
  | checking (flag : Bool)
  | locking
  | taking
  /-- It took lines and waits for the tail; has it; counted itself; lowered the
  flag. -/
  | handing
  | counting
  | storing
  | unlocking
  /-- The broker's lock is released. -/
  | writing
  | noting (failed : Bool)
  | uncounting
  | dropping

def Back.pc {ε : Type} : Back → Pc ε
  | .working => .working
  | .settled => .settled
  | .returning => .returning

structure Thread (ε : Type) where
  batching : Bool
  pc : Pc ε := .idle false
  /-- How many changes were made when it last let go of the broker's lock. -/
  mark : Nat := 0
  /-- A sync held writes up when this flush or `settle` looked. -/
  heldUp : Bool := false

/-- The thread is outside, and replied after its last section. -/
def Thread.replied {ε : Type} (t : Thread ε) : Bool :=
  match t.pc with
  | .idle replied => replied
  | _ => false

structure Shared (ε τ : Type) where
  world : World ε
  deferred : Bool := false
  owner : Option τ := none
  tailLock : Option τ := none
  busy : Nat := 0
  /-- The changes made to the store, in order. -/
  applied : List ε := []

inductive Move (ε : Type) where
  /-- Locks the broker for an operation, or for the GET fast path. -/
  | enter
  /-- `Core::commit`: journaled, then made. -/
  | commit (effect : ε)
  /-- `Core::journal_commands`: made, then journaled. -/
  | commands (effect : ε)
  | flushPending
  | rewrite
  | synced (failure : Option String)
  /-- `flush_deferred` outside `settle`, as the tick and shutdown do. -/
  | flushDeferred
  | settle
  | leave
  /-- Starts `flush_journal`. -/
  | flush
  /-- Looks whether a sync holds writes up. -/
  | check (holding_up : Bool)
  /-- Gets the tail. -/
  | answer (answers : Answers)
  | write (attempt : Attempt)
  /-- The only step there is. -/
  | go

variable {ε τ : Type} [EffectJson ε]

/-- Starts an operation of the journal, waiting for the tail if it has to. -/
def Shared.start (s : Shared ε τ) (x : Thread ε) (action : Action ε) (flush : Bool) (back : Back) :
    Option (Shared ε τ × Thread ε) := do
  let (events, world) ← s.world.step action
  let pc := if world.request.isSome then .asking flush back
    else if flush then .lowering back else back.pc
  some ({ s with world, applied := s.applied ++ accepted events }, { x with pc })

/-- The next step of thread `t`. -/
def Thread.step (t : τ) (s : Shared ε τ) (x : Thread ε) (move : Move ε) :
    Option (Shared ε τ × Thread ε) :=
  let free := s.busy = 0 ∨ s.tailLock.isNone
  match x.pc, move with
  -- a section
  | .idle _, .enter =>
    if s.owner.isNone then some ({ s with owner := some t }, { x with pc := .working }) else none
  | .working, .commit effect =>
    if x.batching && s.world.journal.defers then
      some ({ s with deferred := true }, { x with pc := .deferring effect false })
    else s.start x (.append effect) false .working
  | .working, .commands effect =>
    if x.batching && s.world.journal.defers then
      some ({ s with deferred := true }, { x with pc := .deferring effect true })
    else do
      let (s', x) ← s.start x (.appendApplied effect (0 < s.busy)) false .working
      some ({ s' with applied := s.applied ++ [effect] }, x)
  | .deferring effect made, .go => do
    let (s', x) ← s.start x (.defer effect) false .working
    some (if made then { s' with applied := s.applied ++ [effect] } else s', x)
  | .working, .flushPending => s.start x (.flushPending (0 < s.busy)) false .working
  | .working, .rewrite => s.start x .startRewrite false .working
  | .working, .synced failure => s.start x (.synced failure) false .working
  | .asking flush back, .answer answers =>
    if s.tailLock.isNone then do
      let (events, world) ← s.world.step (.finish answers)
      some ({ s with world, applied := s.applied ++ accepted events },
        { x with pc := if flush then .lowering back else back.pc })
    else none
  -- `flush_deferred`: an error leaves the lines refused, so they wait too
  | .working, .flushDeferred => some (s, { x with pc := .flushing .working })
  | .flushing back, .check holding_up =>
    let x := { x with heldUp := x.heldUp || holding_up }
    if s.world.journal.postponing holding_up then some (s, { x with pc := .lowering back })
    else s.start x (.flushPending (0 < s.busy)) true back
  | .lowering back, .go =>
    some ({ s with deferred := s.deferred && s.world.journal.waiting }, { x with pc := back.pc })
  -- `settle`
  | .working, .settle =>
    let x := { x with heldUp := false }
    if x.batching then some (s, { x with pc := .settled })
    else if s.deferred then some (s, { x with pc := .flushing .settled })
    else some (s, { x with pc := .settling })
  | .settling, .go => if free then some (s, { x with pc := .settled }) else none
  | .settled, .rewrite => s.start x .startRewrite false .settled
  | .settled, .leave =>
    some ({ s with owner := none },
      { x with pc := .idle !x.batching, mark := s.applied.length })
  -- `flush_journal`
  | .idle _, .flush => some (s, { x with pc := .checking s.deferred, heldUp := false })
  | .checking flag, .go =>
    if free then
      some (s, if flag then { x with pc := .locking } else { x with pc := .idle true })
    else none
  | .locking, .go =>
    if s.owner.isNone then some ({ s with owner := some t }, { x with pc := .taking }) else none
  | .taking, .check holding_up => do
    let (_, world) ← s.world.step (.takePending holding_up)
    some ({ s with world }, { x with
      heldUp := x.heldUp || holding_up
      pc := if world.request.isSome then .handing else .flushing .returning })
  | .returning, .go =>
    some ({ s with owner := none }, { x with pc := .idle true, mark := s.applied.length })
  | .handing, .go =>
    if s.tailLock.isNone then do
      let (_, world) ← s.world.step (.finish {})
      some ({ s with world, tailLock := some t }, { x with pc := .counting })
    else none
  | .counting, .go => some ({ s with busy := s.busy + 1 }, { x with pc := .storing })
  | .storing, .go => some ({ s with deferred := false }, { x with pc := .unlocking })
  | .unlocking, .go =>
    some ({ s with owner := none }, { x with pc := .writing, mark := s.applied.length })
  | .writing, .write attempt => do
    let failed := (s.world.journal.write s.world.held attempt).1 matches .error _
    let (_, world) ← s.world.step (.write attempt)
    some ({ s with world }, { x with pc := .noting failed })
  | .noting failed, .go =>
    some ({ s with deferred := s.deferred || failed }, { x with pc := .uncounting })
  | .uncounting, .go => some ({ s with busy := s.busy - 1 }, { x with pc := .dropping })
  | .dropping, .go => some ({ s with tailLock := none }, { x with pc := .idle true })
  | _, _ => none

structure Pool (ε τ : Type) where
  shared : Shared ε τ
  threads : τ → Thread ε

section

variable [DecidableEq τ]

def Pool.step (p : Pool ε τ) (t : τ) (move : Move ε) : Option (Pool ε τ) := do
  let (shared, thread) ← (p.threads t).step t p.shared move
  some { shared, threads := Function.update p.threads t thread }

/-- Steps of any threads in any order. -/
def Pool.run : List (τ × Move ε) → Pool ε τ → Option (Pool ε τ)
  | [], p => some p
  | (t, move) :: rest, p => do
    let p ← p.step t move
    run rest p

end

/-- A broker just started on an empty data directory. -/
def idlePool (fsync : Fsync) (batching : τ → Bool) : Pool ε τ :=
  { shared := { world := fresh fsync }, threads := fun t => { batching := batching t } }

/-! ## The flags of the journal -/

/-- The flags readable without the tail's lock say what they are to say. -/
def Noted (j : Journal) : Prop :=
  j.failing = (j.tail.torn || !j.tail.refused.isEmpty) ∧ j.refused = !j.tail.refused.isEmpty

omit [EffectJson ε] in
theorem noted_write (j : Journal) (lines : Bytes) (attempt : Attempt) :
    Noted (j.write lines attempt).2 := by
  unfold write
  dsimp only
  split
  · exact ⟨rfl, rfl⟩
  · split
    · exact ⟨rfl, rfl⟩
    · exact ⟨rfl, rfl⟩

omit [EffectJson ε] in
theorem noted_finish (w : World ε) (answers : Answers) (lines : Bytes) (request : Request ε)
    (hNoted : Noted w.journal) : Noted (w.finish answers lines request).2.journal := by
  cases request with
  -- three writes one after the other, and the last note is of the last of them
  | append line effect =>
    have hFinish : Noted (w.journal.finish_append lines line answers.first answers.retry answers.new).2 := by
      unfold finish_append
      have hFirst := noted_write w.journal lines answers.first
      generalize w.journal.write lines answers.first = result at *
      rcases result with ⟨why | ⟨⟨⟩⟩, j₁⟩
      · exact hFirst
      · dsimp only [write_new]
        have hRetry := noted_write j₁ [] answers.retry
        generalize j₁.write [] answers.retry = result at *
        rcases result with ⟨why | ⟨⟨⟩⟩, j₂⟩
        · exact ⟨rfl, rfl⟩
        · dsimp only
          generalize j₂.append_tail line answers.new = result
          rcases result with ⟨why | ⟨⟨⟩⟩, j₃⟩
          · exact ⟨rfl, rfl⟩
          · exact ⟨rfl, rfl⟩
    simp only [World.finish]
    split
    · next hEq => rwa [hEq] at hFinish
    · next hEq => rwa [hEq] at hFinish
  | flush => exact noted_write w.journal lines answers.first
  | take => exact hNoted
  | rewrite =>
    simp only [World.finish, finish_rewrite]
    have hFirst := noted_write w.journal lines answers.first
    generalize w.journal.write lines answers.first = result at *
    rcases result with ⟨why | ⟨⟨⟩⟩, j₁⟩
    · exact hFirst
    · dsimp only at hFirst ⊢
      generalize rewrite_ops j₁.files j₁.seq answers.fault = ops
      obtain ⟨ops, fresh⟩ := ops
      cases fresh
      · exact hFirst
      · exact ⟨rfl, rfl⟩

/-! ## What one operation of the journal does -/

variable {w w' : World ε} {events : List (Event ε)} {action : Action ε}

/-- Starting an operation touches neither the tail nor its holder. It goes on,
with what is pending as it was unless it defers, or takes what is pending and
waits for the tail; only `take_pending` is to write it later. -/
theorem start_cases (hStart : w.start action = some (events, w')) :
    ∃ j : Journal, j.tail = w.journal.tail ∧ j.failing = w.journal.failing ∧
      j.refused = w.journal.refused ∧
      ((w' = { w with journal := j } ∧
          (j.pending = w.journal.pending ∨ ∃ effect, action = .defer effect)) ∨
        (∃ request, w' = ({ w with journal := j } : World ε).wait request ∧
          (request = .take ↔ ∃ holding_up, action = .takePending holding_up))) := by
  -- where the operation answers at once, nothing has moved
  have hSame : ∃ j : Journal, j.tail = w.journal.tail ∧ j.failing = w.journal.failing ∧
      j.refused = w.journal.refused ∧
      ((w = { w with journal := j } ∧
          (j.pending = w.journal.pending ∨ ∃ effect, action = .defer effect)) ∨
        (∃ request, w = ({ w with journal := j } : World ε).wait request ∧
          (request = .take ↔ ∃ holding_up, action = .takePending holding_up))) :=
    ⟨w.journal, rfl, rfl, rfl, .inl ⟨rfl, .inl rfl⟩⟩
  cases action with
  | append effect =>
    simp only [World.start] at hStart
    split at hStart
    · cases hStart
      exact hSame
    · split at hStart
      · cases hStart
        exact hSame
      · cases hStart
        exact ⟨w.journal, rfl, rfl, rfl, .inr ⟨_, rfl, by simp⟩⟩
  | defer effect =>
    simp only [World.start] at hStart
    split at hStart
    · next hPush =>
      cases hStart
      obtain ⟨line, -, hJournal⟩ := Option.bind_eq_some_iff.mp hPush
      obtain rfl := Option.some.inj hJournal
      exact ⟨{ w.journal with pending := w.journal.pending ++ line, seq := w.journal.seq + 1 },
        rfl, rfl, rfl, .inl ⟨rfl, .inr ⟨effect, rfl⟩⟩⟩
    · cases hStart
      exact hSame
  | appendApplied effect busy =>
    simp only [World.start] at hStart
    split at hStart
    · next hPush =>
      cases hStart
      obtain ⟨line, hLine, hJournal⟩ := Option.bind_eq_some_iff.mp hPush
      obtain rfl := Option.some.inj hJournal
      obtain ⟨text, -, hText⟩ := Option.bind_eq_some_iff.mp hLine
      -- a line was just added, so there is something to flush
      have hNe : (w.journal.pending ++ line).isEmpty = false := by
        rw [← Option.some.inj hText]
        simp
      simp only [World.flush_pending, hNe, Bool.false_and, Bool.false_eq_true, if_false]
      exact ⟨{ w.journal with pending := w.journal.pending ++ line, seq := w.journal.seq + 1 },
        rfl, rfl, rfl, .inr ⟨_, rfl, by simp⟩⟩
    · cases hStart
      exact hSame
  | flushPending busy =>
    cases hStart
    unfold World.flush_pending
    split
    · exact hSame
    · exact ⟨w.journal, rfl, rfl, rfl, .inr ⟨_, rfl, by simp⟩⟩
  | takePending holding_up =>
    simp only [World.start] at hStart
    split at hStart
    · cases hStart
      exact hSame
    · cases hStart
      exact ⟨w.journal, rfl, rfl, rfl, .inr ⟨_, rfl, by simp⟩⟩
  | startRewrite =>
    cases hStart
    exact ⟨w.journal, rfl, rfl, rfl, .inr ⟨_, rfl, by simp⟩⟩
  | synced failure =>
    cases hStart
    exact ⟨{ w.journal with
      unsynced := failure, resnapshot := w.journal.resnapshot || failure.isSome },
      rfl, rfl, rfl, .inl ⟨rfl, .inl rfl⟩⟩
  | finish answers => cases hStart
  | write attempt => cases hStart

/-! ## What holds at each place of the code -/

/-- Places where a thread has the broker's lock, and where it has the tail's. -/
def Pc.hasLock : Pc ε → Bool
  | idle _ | checking _ | locking | writing | noting _ | uncounting | dropping => false
  | _ => true

def Pc.hasTail : Pc ε → Bool
  | counting | storing | unlocking | writing | noting _ | uncounting | dropping => true
  | _ => false

/-- How many changes are settled, or held by a thread that counts as busy. -/
def Shared.safe (s : Shared ε τ) (settled held : Nat) : Nat :=
  settled + if 0 < s.busy then held else 0

/-- Every change is settled, unless a sync held writes up. -/
def Flushed (s : Shared ε τ) (settled : Nat) (x : Thread ε) : Prop :=
  x.heldUp = true ∨ s.applied.length ≤ settled

/-- The changes behind a thread's `mark` and those it has made, by place. -/
def Place (s : Shared ε τ) (settled held : Nat) (x : Thread ε) : Pc ε → Prop
  | .idle replied => replied = true → x.heldUp = true ∨ x.mark ≤ settled
  | .working | .flushing _ | .taking => s.world.request = none
  | .deferring _ _ => s.world.request = none ∧ s.deferred = true
  | .asking flush back => (∃ request lines, s.world.request = some (request, lines) ∧ request ≠ .take) ∧
      (flush = false → back ≠ .returning ∧ (back = .settled → x.batching = true ∨ Flushed s settled x))
  | .lowering _ | .returning => s.world.request = none ∧ Flushed s settled x
  | .settling => s.world.request = none ∧ s.world.journal.pending = []
  | .settled => s.world.request = none ∧ (x.batching = true ∨ Flushed s settled x)
  | .checking flag => flag = false → x.mark ≤ s.safe settled held
  | .locking => True
  | .handing => ∃ lines, s.world.request = some (.take, lines)
  | .counting => s.world.request = none ∧ s.world.journal.pending = []
  | .storing | .unlocking => s.world.request = none ∧ s.world.journal.pending = [] ∧ 0 < s.busy
  | .writing => x.mark ≤ settled + held ∧ 0 < s.busy
  | .noting _ | .uncounting | .dropping => s.world.holder = none ∧ x.mark ≤ settled

structure Fine (s : Shared ε τ) (settled held : Nat) (t : τ) (x : Thread ε) : Prop where
  lock : s.owner = some t ↔ x.pc.hasLock = true
  tail : s.tailLock = some t ↔ x.pc.hasTail = true
  mark_le : x.mark ≤ s.applied.length
  /-- With the flag down, what a thread must see written is on its way. -/
  flag : s.deferred = false → x.mark ≤ s.safe settled held
  place : Place s settled held x x.pc

omit [EffectJson ε] in
theorem Fine.not_tail {s : Shared ε τ} {settled held : Nat} {t : τ} {x : Thread ε} (h : Fine s settled held t x)
    (hTail : x.pc.hasTail = false) : s.tailLock ≠ some t := fun hHolds => by
  rw [h.tail.mp hHolds] at hTail
  cases hTail

omit [EffectJson ε] in
theorem Fine.not_owner {s : Shared ε τ} {settled held : Nat} {t : τ} {x : Thread ε} (h : Fine s settled held t x)
    (hLock : x.pc.hasLock = false) : s.owner ≠ some t := fun hHolds => by
  rw [h.lock.mp hHolds] at hLock
  cases hLock

structure SharedInv (s : Shared ε τ) (settled held : Nat) : Prop where
  ordered : Ordered False s.world s.applied settled held
  noted : Noted s.world.journal
  /-- Changes wait with the flag up. -/
  flag : s.world.journal.pending ≠ [] → s.deferred = true
  request : s.owner = none → s.world.request = none
  /-- Lines are held under the tail's lock, by a thread that counts as busy or
  still has the broker's lock. -/
  holder : s.world.holder ≠ none → ∃ t, s.tailLock = some t ∧ (0 < s.busy ∨ s.owner = some t)

/-- What a step of another thread may change for thread `u`. -/
structure Quiet (s : Shared ε τ) (settled held : Nat) (s' : Shared ε τ) (settled' held' : Nat)
    (u : τ) : Prop where
  owner : s'.owner = some u ↔ s.owner = some u
  tail : s'.tailLock = some u ↔ s.tailLock = some u
  locked : s.owner = some u → s'.world.request = s.world.request ∧
    s'.world.journal.pending = s.world.journal.pending ∧ s'.applied = s.applied ∧
    (s.deferred = true → s'.deferred = true)
  tailed : s.tailLock = some u → s'.busy = s.busy ∧ s'.world.holder = s.world.holder ∧ held' = held
  settled_le : settled ≤ settled'
  safe_le : s.safe settled held ≤ s'.safe settled' held'
  applied_le : s.applied.length ≤ s'.applied.length
  flag : s'.deferred = false → s.deferred = false ∨ s'.applied.length ≤ s'.safe settled' held'

variable {s s' : Shared ε τ} {settled held settled' held' : Nat} {t u : τ} {x x' : Thread ε}

omit [EffectJson ε] in
theorem fine_quiet (h : Fine s settled held u x) (hQuiet : Quiet s settled held s' settled' held' u) :
    Fine s' settled' held' u x := by
  have hMark := h.mark_le
  have hApplied := hQuiet.applied_le
  refine ⟨hQuiet.owner.trans h.lock, hQuiet.tail.trans h.tail, by omega, ?_, ?_⟩
  · intro hFlag
    rcases hQuiet.flag hFlag with hFlag | hAll
    · exact (h.flag hFlag).trans hQuiet.safe_le
    · omega
  · have hPlace := h.place
    have hLocked := fun hLock => hQuiet.locked (h.lock.mpr hLock)
    have hTailed := fun hTail => hQuiet.tailed (h.tail.mpr hTail)
    have hSettled := hQuiet.settled_le
    have hSafe := hQuiet.safe_le
    cases hPc : x.pc <;> rw [hPc] at hPlace hLocked hTailed <;>
      simp only [Place, Pc.hasLock, Pc.hasTail, Flushed, forall_true_left, Bool.false_eq_true,
        false_implies] at hPlace hLocked hTailed ⊢
    all_goals grind

/-! ## One step -/

/-- What a step keeps: the shared state sound, the thread fine, and no other
thread disturbed. -/
def StepFine (s : Shared ε τ) (settled held : Nat) (t : τ) (s' : Shared ε τ) (x' : Thread ε) :
    Prop :=
  ∃ settled' held', SharedInv s' settled' held' ∧ Fine s' settled' held' t x' ∧
    ∀ u, u ≠ t → Quiet s settled held s' settled' held' u

omit [EffectJson ε] in
/-- A thread with the broker's lock, and not the tail's, changed neither lock nor
count; nor what is held, unless it has made its last write. -/
theorem quiet_section (hLock : s.owner = some t) (hu : u ≠ t)
    (hOwner : s'.owner = some t ∨ s'.owner = none) (hTail : s'.tailLock = s.tailLock)
    (hBusy : s'.busy = s.busy)
    (hHolder : s.tailLock = none ∨ (s'.world.holder = s.world.holder ∧ held' = held))
    (hSettled : settled ≤ settled')
    (hSafe : s.safe settled held ≤ s'.safe settled' held')
    (hApplied : s.applied.length ≤ s'.applied.length)
    (hFlag : s'.deferred = false → s.deferred = false ∨ s'.applied.length ≤ s'.safe settled' held') :
    Quiet s settled held s' settled' held' u where
  owner := by
    rw [hLock]
    rcases hOwner with hOwner | hOwner <;> simp [hOwner, Ne.symm hu]
  tail := by rw [hTail]
  locked h := by
    rw [hLock] at h
    exact absurd (Option.some.inj h).symm hu
  tailed h := by
    rcases hHolder with hNone | hHolder
    · rw [hNone] at h
      cases h
    · exact ⟨hBusy, hHolder⟩
  settled_le := hSettled
  safe_le := hSafe
  applied_le := hApplied
  flag := hFlag

omit [EffectJson ε] in
/-- A thread with the tail's lock, and not the broker's, changed neither what is
pending nor who waits. -/
theorem quiet_tail (hTail : s.tailLock = some t) (hu : u ≠ t) (hOwner : s'.owner = s.owner)
    (hTail' : s'.tailLock = some t ∨ s'.tailLock = none)
    (hRequest : s'.world.request = s.world.request)
    (hPending : s'.world.journal.pending = s.world.journal.pending) (hApplied : s'.applied = s.applied)
    (hRaised : s.deferred = true → s'.deferred = true) (hSettled : settled ≤ settled')
    (hSafe : s.safe settled held ≤ s'.safe settled' held') :
    Quiet s settled held s' settled' held' u where
  owner := by rw [hOwner]
  tail := by
    rw [hTail]
    rcases hTail' with hTail' | hTail' <;> simp [hTail', Ne.symm hu]
  locked _ := ⟨hRequest, hPending, hApplied, hRaised⟩
  tailed h := by
    rw [hTail] at h
    exact absurd (Option.some.inj h).symm hu
  settled_le := hSettled
  safe_le := hSafe
  applied_le := by rw [hApplied]
  flag h := by
    cases hFlag : s.deferred with
    | false => exact .inl rfl
    | true => rw [hRaised hFlag] at h; cases h

omit [EffectJson ε] in
theorem quiet_refl (u : τ) : Quiet s settled held s settled held u :=
  ⟨Iff.rfl, Iff.rfl, fun _ => ⟨rfl, rfl, rfl, id⟩, fun _ => ⟨rfl, rfl, rfl⟩, le_refl _, le_refl _,
    le_refl _, .inl⟩

/-- A step that changes nothing others see. -/
theorem stepFine_of_same (hInv : SharedInv s settled held) (hFine : Fine s settled held t x') :
    StepFine s settled held t s x' :=
  ⟨settled, held, hInv, hFine, fun u _ => quiet_refl u⟩

/-- Where no thread that counts holds lines, a thread with only the broker's lock
knows that nobody does. -/
theorem holder_eq_none (hInv : SharedInv s settled held) (hLock : s.owner = some t)
    (hTail : s.tailLock ≠ some t) (hFree : s.busy = 0 ∨ s.tailLock = none) :
    s.world.holder = none := by
  by_contra hHolder
  obtain ⟨u, hu, hBusy | hOwner⟩ := hInv.holder hHolder
  · rcases hFree with hZero | hNone
    · omega
    · rw [hNone] at hu
      cases hu
  · rw [hLock] at hOwner
    obtain rfl := Option.some.inj hOwner
    exact hTail hu

/-- With nothing pending, held or waited for, every change is settled. -/
theorem all_settled (hInv : SharedInv s settled held) (hRequest : s.world.request = none)
    (hPending : s.world.journal.pending = []) (hHolder : s.world.holder = none) :
    settled = s.applied.length ∧ held = 0 := by
  have hTotal := hInv.ordered.total hRequest hPending
  have hZero := hInv.ordered.held_eq_zero hHolder
  omega

/-! ### In a section -/

/-- Starting an operation of the journal in a section. -/
theorem section_start (hInv : SharedInv s settled held) (hLock : s.owner = some t)
    (hDefer : ∀ effect, action = .defer effect → s.deferred = true)
    (hFree : s.world.request = none) (hStart : s.world.start action = some (events, w'))
    {applied : List ε} (hApplied : applied = s.applied ++ accepted events)
    (hShared : s' = { s with world := w', applied }) :
    SharedInv s' settled held ∧ (∀ u, u ≠ t → Quiet s settled held s' settled held u) ∧
      w'.holder = s.world.holder ∧
      ∀ request lines, w'.request = some (request, lines) →
        (request = .take ↔ ∃ holding_up, action = .takePending holding_up) := by
  obtain ⟨j, hTailSame, hFailing, hRefused, hCases⟩ := start_cases hStart
  have hNoted : Noted j := by
    rw [Noted, hTailSame, hFailing, hRefused]
    exact hInv.noted
  have hHolder : w'.holder = s.world.holder := by
    rcases hCases with ⟨rfl, -⟩ | ⟨request, rfl, -⟩ <;> rfl
  subst hApplied hShared
  refine ⟨⟨ordered_start hInv.ordered hFree hStart, ?_, ?_, ?_, ?_⟩, ?_, hHolder, ?_⟩
  · rcases hCases with ⟨rfl, -⟩ | ⟨request, rfl, -⟩
    · exact hNoted
    · exact hNoted
  · -- lines become pending only where the flag is up
    rcases hCases with ⟨rfl, hPending | ⟨effect, hEq⟩⟩ | ⟨request, rfl, -⟩
    · show j.pending ≠ [] → _
      rw [hPending]
      exact hInv.flag
    · exact fun _ => hDefer effect hEq
    · exact fun hNe => absurd rfl hNe
  · intro hNone
    rw [show s.owner = none from hNone] at hLock
    cases hLock
  · rw [hHolder]
    exact hInv.holder
  · intro u hu
    refine quiet_section hLock hu (.inl hLock) rfl rfl (.inr ⟨hHolder, rfl⟩) (le_refl _) (le_refl _)
      ?_ .inl
    simp
  · intro request lines hRequest
    rcases hCases with ⟨rfl, -⟩ | ⟨request', rfl, hTake⟩
    · rw [show s.world.request = some (request, lines) from hRequest] at hFree
      cases hFree
    · cases hRequest
      exact hTake

/-- An operation goes on, or waits for the tail, with the world as it was when it
started. -/
theorem step_eq_start (hStep : w.step action = some (events, w'))
    (hStart : ∀ answers attempt, action ≠ .finish answers ∧ action ≠ .write attempt) :
    w.request = none ∧ w.start action = some (events, w') := by
  have hIf (h : (if w.request.isNone then w.start action else none) = some (events, w')) :
      w.request = none ∧ w.start action = some (events, w') := by
    split at h
    · next hFree => exact ⟨Option.isNone_iff_eq_none.mp hFree, h⟩
    · cases h
  cases action with
  | finish answers => exact absurd rfl (hStart answers .written).1
  | write attempt => exact absurd rfl (hStart {} attempt).2
  | _ => exact hIf hStep

/-- A thread in a section starts an operation that is not a flush. -/
theorem fine_start (hInv : SharedInv s settled held) (hFine : Fine s settled held t x)
    (hLock : x.pc.hasLock = true) (hTail : x.pc.hasTail = false) {back : Back}
    (hDefer : ∀ effect, action = .defer effect → s.deferred = true)
    (hStart : ∀ answers attempt, action ≠ .finish answers ∧ action ≠ .write attempt)
    (hTake : ∀ holding_up, action ≠ .takePending holding_up)
    (hStep : s.world.step action = some (events, w'))
    (hBack : back = .working ∨
      (back = .settled ∧ accepted events = [] ∧ (x.batching = true ∨ Flushed s settled x)))
    {applied : List ε} (hApplied : applied = s.applied ++ accepted events) :
    StepFine s settled held t { s with world := w', applied }
      { x with pc := if w'.request.isSome then .asking false back else back.pc } := by
  obtain ⟨hFree, hStarted⟩ := step_eq_start hStep hStart
  have hOwner := hFine.lock.mpr hLock
  -- a section that asks for no write does not hold the tail
  have hNoTail := hFine.not_tail hTail
  obtain ⟨hInv', hQuiet, hHolder, hRequest⟩ :=
    section_start hInv hOwner hDefer hFree hStarted hApplied rfl
  have hMark := hFine.mark_le
  refine ⟨settled, held, hInv', ⟨?_, ?_, ?_, hFine.flag, ?_⟩, hQuiet⟩
  · refine iff_of_true hOwner ?_
    dsimp only
    split
    · rfl
    · rcases hBack with rfl | ⟨rfl, -⟩ <;> rfl
  · refine iff_of_false hNoTail ?_
    dsimp only
    split
    · exact Bool.false_ne_true
    · rcases hBack with rfl | ⟨rfl, -⟩ <;> exact Bool.false_ne_true
  · show x.mark ≤ applied.length
    rw [hApplied, List.length_append]
    omega
  · dsimp only
    split
    · next hSome =>
      obtain ⟨⟨request, lines⟩, hEq⟩ := Option.isSome_iff_exists.mp hSome
      refine ⟨⟨request, lines, hEq, ?_⟩, fun _ => ?_⟩
      · intro hEqTake
        obtain ⟨holding_up, hAction⟩ := (hRequest request lines hEq).mp hEqTake
        exact hTake holding_up hAction
      · rcases hBack with rfl | ⟨rfl, hNone, hFlushed⟩
        · exact ⟨by rintro ⟨⟩, by rintro ⟨⟩⟩
        · refine ⟨by rintro ⟨⟩, fun _ => ?_⟩
          rw [hApplied, hNone, List.append_nil]
          exact hFlushed
    · next hSome =>
      have hNone : w'.request = none := by simpa using hSome
      rcases hBack with rfl | ⟨rfl, hNil, hFlushed⟩
      · exact hNone
      · refine ⟨hNone, ?_⟩
        rw [hApplied, hNil, List.append_nil]
        exact hFlushed

/-! ### Taking and releasing the broker's lock -/

theorem shared_acquire (hInv : SharedInv s settled held) (hNone : s.owner = none) (t : τ) :
    SharedInv { s with owner := some t } settled held ∧
      ∀ u, u ≠ t → Quiet s settled held { s with owner := some t } settled held u := by
  refine ⟨⟨hInv.ordered, hInv.noted, hInv.flag, ?_, ?_⟩, fun u hu => ⟨?_, Iff.rfl, ?_, ?_,
    le_refl _, le_refl _, le_refl _, .inl⟩⟩
  · intro h
    cases h
  · intro hHolder
    obtain ⟨u, hu, hBusy | hOwner⟩ := hInv.holder hHolder
    · exact ⟨u, hu, .inl hBusy⟩
    · rw [hNone] at hOwner
      cases hOwner
  · rw [hNone]
    simp [Ne.symm hu]
  · intro h
    rw [hNone] at h
    cases h
  · exact fun _ => ⟨rfl, rfl, rfl⟩

/-- A thread lets go of the broker's lock once nobody waits, and holds no lines
unless it counts as busy. -/
theorem shared_release (hInv : SharedInv s settled held) (hLock : s.owner = some t)
    (hFree : s.world.request = none) (hHeld : s.tailLock = some t → 0 < s.busy) :
    SharedInv { s with owner := none } settled held ∧
      ∀ u, u ≠ t → Quiet s settled held { s with owner := none } settled held u := by
  refine ⟨⟨hInv.ordered, hInv.noted, hInv.flag, fun _ => hFree, ?_⟩, fun u hu => ⟨?_, Iff.rfl, ?_,
    ?_, le_refl _, le_refl _, le_refl _, .inl⟩⟩
  · intro hHolder
    obtain ⟨u, hu, hBusy | hOwner⟩ := hInv.holder hHolder
    · exact ⟨u, hu, .inl hBusy⟩
    · rw [hLock] at hOwner
      obtain rfl := Option.some.inj hOwner
      exact ⟨t, hu, .inl (hHeld hu)⟩
  · rw [hLock]
    simp [Ne.symm hu]
  · intro h
    rw [hLock] at h
    exact absurd (Option.some.inj h).symm hu
  · exact fun _ => ⟨rfl, rfl, rfl⟩

/-- With nothing pending, a thread that has only the broker's lock knows that all
changes are settled, or held by a thread that counts as busy. -/
theorem all_safe (hInv : SharedInv s settled held) (hLock : s.owner = some t)
    (hTail : s.tailLock ≠ some t) (hFree : s.world.request = none)
    (hPending : s.world.journal.pending = []) : s.applied.length ≤ s.safe settled held := by
  have hTotal := hInv.ordered.total hFree hPending
  unfold Shared.safe
  split
  · omega
  · next hIdle =>
    have hHolder := holder_eq_none hInv hLock hTail (.inl (by omega))
    have hZero := hInv.ordered.held_eq_zero hHolder
    omega

/-- Leaving a section that settled what it had to. -/
theorem fine_leave (hInv : SharedInv s settled held) (hFine : Fine s settled held t x)
    (hLock : x.pc.hasLock = true) (hTail : x.pc.hasTail = false) (hFree : s.world.request = none)
    {replied : Bool} (hFlushed : replied = true → Flushed s settled x) :
    StepFine s settled held t { s with owner := none }
      { x with pc := .idle replied, mark := s.applied.length } := by
  have hOwner := hFine.lock.mpr hLock
  have hNoTail := hFine.not_tail hTail
  obtain ⟨hInv', hQuiet⟩ := shared_release hInv hOwner hFree fun h => absurd h hNoTail
  refine ⟨settled, held, hInv', ⟨?_, ?_, le_refl _, ?_, ?_⟩, hQuiet⟩
  · exact iff_of_false (by rintro ⟨⟩) Bool.false_ne_true
  · exact iff_of_false hNoTail Bool.false_ne_true
  · intro hDown
    have hPending : s.world.journal.pending = [] := by
      by_contra hNe
      rw [hInv.flag hNe] at hDown
      cases hDown
    exact all_safe hInv hOwner hNoTail hFree hPending
  · exact hFlushed

/-! ### Getting the tail -/

/-- Lines are held under the tail's lock. -/
theorem holder_eq_none_of_tail (hInv : SharedInv s settled held) (hNone : s.tailLock = none) :
    s.world.holder = none := by
  by_contra hHolder
  obtain ⟨u, hu, -⟩ := hInv.holder hHolder
  rw [hNone] at hu
  cases hu

omit [EffectJson ε] in
theorem finish_request (w : World ε) (answers : Answers) (lines : Bytes) (request : Request ε) :
    (w.finish answers lines request).2.request = none := by
  cases request with
  | append line effect =>
    simp only [World.finish]
    split <;> rfl
  | _ => rfl

/-- The step of a waiting thread that has the tail. -/
theorem step_finish {answers : Answers} (hStep : w.step (.finish answers) = some (events, w')) :
    ∃ request lines, w.request = some (request, lines) ∧
      w.finish answers lines request = (events, w') := by
  simp only [World.step] at hStep
  split at hStep
  · next request lines hRequest hHolder => exact ⟨request, lines, hRequest, Option.some.inj hStep⟩
  · cases hStep

/-- A section whose request is answered has settled every change. -/
theorem fine_answer (hInv : SharedInv s settled held) (hFine : Fine s settled held t x)
    {flush : Bool} {back : Back} (hPc : x.pc = .asking flush back) (hNone : s.tailLock = none)
    {answers : Answers} (hStep : s.world.step (.finish answers) = some (events, w')) :
    StepFine s settled held t { s with world := w', applied := s.applied ++ accepted events }
      { x with pc := if flush then .lowering back else back.pc } := by
  have hPlace := hFine.place
  rw [hPc] at hPlace
  obtain ⟨⟨request, lines, hRequest, hOther⟩, hBack⟩ := hPlace
  have hOwner : s.owner = some t := hFine.lock.mpr (by rw [hPc]; rfl)
  have hHolder := holder_eq_none_of_tail hInv hNone
  obtain ⟨request', lines', hRequest', hFinish⟩ := step_finish hStep
  rw [hRequest] at hRequest'
  obtain ⟨rfl, rfl⟩ := Prod.mk.inj (Option.some.inj hRequest')
  have hZero := hInv.ordered.held_eq_zero hHolder
  obtain ⟨settled', held', hOrdered, hPending, hLe, -, hHolder'⟩ :=
    @ordered_finish _ _ _ _ _ _ _ hInv.ordered hHolder _ _ hRequest answers False.elim
  have hNoted := noted_finish s.world answers lines request hInv.noted
  have hFree := finish_request s.world answers lines request
  rw [hFinish] at hOrdered hPending hHolder' hNoted hFree
  have hHolder' := hHolder' hOther
  -- nothing is pending and nobody holds the tail, so every change is settled
  have hTotal : settled' + held' = (s.applied ++ accepted events).length :=
    hOrdered.total hFree hPending
  have hZero' := hOrdered.held_eq_zero hHolder'
  have hLength : (s.applied ++ accepted events).length ≤ settled' := by omega
  have hMark := hFine.mark_le
  have hMark' : x.mark ≤ (s.applied ++ accepted events).length := by
    rw [List.length_append]
    omega
  refine ⟨settled', held', ⟨hOrdered, hNoted, fun h => absurd hPending h, ?_, ?_⟩,
    ⟨?_, ?_, hMark', ?_, ?_⟩, fun u hu => ?_⟩
  · intro h
    rw [show s.owner = none from h] at hOwner
    cases hOwner
  · exact fun h => absurd hHolder' h
  · refine iff_of_true hOwner ?_
    dsimp only
    split
    · rfl
    · cases back <;> rfl
  · refine iff_of_false (by rw [show s.tailLock = none from hNone]; rintro ⟨⟩) ?_
    dsimp only
    split
    · exact Bool.false_ne_true
    · cases back <;> exact Bool.false_ne_true
  · exact fun _ => (hMark'.trans hLength).trans (Nat.le_add_right _ _)
  · dsimp only
    split
    · exact ⟨hFree, .inr hLength⟩
    · next hNoFlush =>
      cases back with
      | working => exact hFree
      | settled => exact ⟨hFree, .inr (.inr hLength)⟩
      | returning => exact absurd rfl (hBack (by simpa using hNoFlush)).1
  · refine quiet_section hOwner hu (.inl hOwner) rfl rfl (.inl hNone) hLe ?_ (by simp) .inl
    unfold Shared.safe
    rw [hZero, ite_self]
    omega

/-- The thread that flushes gets the tail with the broker's lock held, and keeps
it with the lines it took. -/
theorem fine_hand (hInv : SharedInv s settled held) (hFine : Fine s settled held t x)
    (hPc : x.pc = .handing) (hNone : s.tailLock = none)
    (hStep : s.world.step (.finish {}) = some (events, w')) :
    StepFine s settled held t { s with world := w', tailLock := some t }
      { x with pc := .counting } := by
  have hPlace := hFine.place
  rw [hPc] at hPlace
  obtain ⟨lines, hRequest⟩ := hPlace
  have hOwner : s.owner = some t := hFine.lock.mpr (by rw [hPc]; rfl)
  have hHolder := holder_eq_none_of_tail hInv hNone
  obtain ⟨request', lines', hRequest', hFinish⟩ := step_finish hStep
  rw [hRequest] at hRequest'
  obtain ⟨rfl, rfl⟩ := Prod.mk.inj (Option.some.inj hRequest')
  have hZero := hInv.ordered.held_eq_zero hHolder
  obtain ⟨settled', held', hOrdered, hPending, -, hSame, -⟩ :=
    @ordered_finish _ _ _ _ _ _ _ hInv.ordered hHolder _ _ hRequest {} False.elim
  have hNoted := noted_finish s.world {} lines .take hInv.noted
  have hFree := finish_request s.world {} lines .take
  obtain ⟨rfl, rfl⟩ := Prod.mk.inj hFinish
  obtain rfl := hSame rfl
  replace hOrdered : Ordered False { s.world with request := none, holder := some lines } s.applied
      settled' held' := by
    rw [← List.append_nil s.applied]
    exact hOrdered
  -- nobody was writing, so what counted as safe was settled
  have hSafe : s.safe settled' held ≤ settled' := by
    unfold Shared.safe
    rw [hZero, ite_self, Nat.add_zero]
  refine ⟨settled', held', ⟨hOrdered, hNoted, fun h => absurd hPending h, ?_, ?_⟩,
    ⟨iff_of_true hOwner rfl, iff_of_true rfl rfl, hFine.mark_le, ?_, hFree, hPending⟩,
    fun u hu => ⟨Iff.rfl, ?_, ?_, ?_, le_refl _, ?_, le_refl _, .inl⟩⟩
  · exact fun _ => hFree
  · exact fun _ => ⟨t, rfl, .inr hOwner⟩
  · exact fun hDown => ((hFine.flag hDown).trans hSafe).trans (Nat.le_add_right _ _)
  · rw [hNone]
    simp [Ne.symm hu]
  · intro h
    rw [hOwner] at h
    exact absurd (Option.some.inj h).symm hu
  · intro h
    rw [hNone] at h
    cases h
  · exact hSafe.trans (Nat.le_add_right _ _)

/-! ### Flushing -/

omit [EffectJson ε] in
theorem flush_pending_cases (w : World ε) (busy : Bool) :
    (w.flush_pending busy = w ∧ w.journal.pending = [] ∧ busy = false) ∨
      w.flush_pending busy = w.wait .flush := by
  unfold World.flush_pending
  split
  · next hNothing =>
    simp only [Bool.and_eq_true, List.isEmpty_iff, Bool.not_eq_true'] at hNothing
    exact .inl ⟨rfl, hNothing.1.1, hNothing.2⟩
  · exact .inr rfl

/-- `flush_deferred`, where no sync holds the write up. -/
theorem fine_flush (hInv : SharedInv s settled held) (hFine : Fine s settled held t x)
    {back : Back} (hPc : x.pc = .flushing back) {s' : Shared ε τ}
    (hStart : s.start x (.flushPending (0 < s.busy)) true back = some (s', x')) :
    StepFine s settled held t s' x' := by
  have hFree : s.world.request = none := by
    have := hFine.place
    rwa [hPc] at this
  have hOwner : s.owner = some t := hFine.lock.mpr (by rw [hPc]; rfl)
  have hNoTail := hFine.not_tail (by rw [hPc]; rfl)
  obtain ⟨⟨events, w'⟩, hStep, hEq⟩ := Option.bind_eq_some_iff.mp hStart
  obtain ⟨rfl, rfl⟩ := Prod.mk.inj (Option.some.inj hEq)
  obtain ⟨-, hStarted⟩ := step_eq_start hStep fun _ _ => ⟨by rintro ⟨⟩, by rintro ⟨⟩⟩
  obtain ⟨hInv', hQuiet, hHolder, -⟩ :=
    section_start hInv hOwner (by rintro _ ⟨⟩) hFree hStarted rfl rfl
  obtain ⟨rfl, rfl⟩ := Prod.mk.inj (Option.some.inj hStarted)
  rw [show s.applied ++ accepted ([] : List (Event ε)) = s.applied from List.append_nil _]
    at hInv' hQuiet ⊢
  refine ⟨settled, held, hInv', ⟨?_, ?_, hFine.mark_le, hFine.flag, ?_⟩, hQuiet⟩
  · refine iff_of_true hOwner ?_
    dsimp only
    split <;> rfl
  · refine iff_of_false hNoTail ?_
    dsimp only
    split <;> exact Bool.false_ne_true
  · rcases flush_pending_cases s.world (0 < s.busy) with ⟨hSame, hPending, hIdle⟩ | hWait
    · -- nothing waits, and nobody is writing
      rw [hSame, hFree]
      have hZero : s.busy = 0 := by simpa using hIdle
      have hNone := holder_eq_none hInv hOwner hNoTail (.inl hZero)
      have hAll := all_settled hInv hFree hPending hNone
      exact ⟨hFree, .inr (by rw [hAll.1])⟩
    · rw [hWait]
      exact ⟨⟨_, _, rfl, by rintro ⟨⟩⟩, by rintro ⟨⟩⟩

/-- `flush_deferred` lowers the flag where nothing waits. -/
theorem fine_lower (hInv : SharedInv s settled held) (hFine : Fine s settled held t x)
    {back : Back} (hPc : x.pc = .lowering back) :
    StepFine s settled held t { s with deferred := s.deferred && s.world.journal.waiting }
      { x with pc := back.pc } := by
  have hPlace := hFine.place
  rw [hPc] at hPlace
  obtain ⟨hFree, hFlushed⟩ := hPlace
  have hOwner : s.owner = some t := hFine.lock.mpr (by rw [hPc]; rfl)
  have hNoTail := hFine.not_tail (by rw [hPc]; rfl)
  have hMark := hFine.mark_le
  -- the flag comes down only where nothing is pending and nobody writes
  have hDown (h : (s.deferred && s.world.journal.waiting) = false) :
      s.deferred = false ∨ s.applied.length ≤ s.safe settled held := by
    rcases Bool.and_eq_false_iff.mp h with hDown | hNothing
    · exact .inl hDown
    · simp only [waiting, Bool.or_eq_false_iff, Bool.not_eq_false', List.isEmpty_iff] at hNothing
      exact .inr (all_safe hInv hOwner hNoTail hFree hNothing.1)
  refine ⟨settled, held, ⟨hInv.ordered, hInv.noted, ?_, ?_, hInv.holder⟩, ⟨?_, ?_, hMark, ?_, ?_⟩,
    fun u hu => quiet_section hOwner hu (.inl hOwner) rfl rfl (.inr ⟨rfl, rfl⟩) (le_refl _)
      (le_refl _) (le_refl _) hDown⟩
  · intro hNe
    have hWaiting : s.world.journal.waiting = true := by
      simp only [waiting, Bool.or_eq_true, Bool.not_eq_true', List.isEmpty_eq_false_iff]
      exact .inl hNe
    show (s.deferred && s.world.journal.waiting) = true
    rw [hInv.flag hNe, hWaiting]
    rfl
  · exact hInv.request
  · exact iff_of_true hOwner (by cases back <;> rfl)
  · exact iff_of_false hNoTail (by cases back <;> exact Bool.false_ne_true)
  · intro h
    rcases hDown h with hDown | hAll
    · exact hFine.flag hDown
    · exact hMark.trans hAll
  · cases back with
    | working => exact hFree
    | settled => exact ⟨hFree, .inr hFlushed⟩
    | returning => exact ⟨hFree, hFlushed⟩

/-- `flush_journal` takes what is pending, or goes on to `flush_deferred`. -/
theorem fine_take (hInv : SharedInv s settled held) (hFine : Fine s settled held t x)
    (hPc : x.pc = .taking) {holding_up heldUp : Bool}
    (hStep : s.world.step (.takePending holding_up) = some (events, w')) :
    StepFine s settled held t { s with world := w' } { x with
      heldUp
      pc := if w'.request.isSome then .handing else .flushing .returning } := by
  have hFree : s.world.request = none := by
    have := hFine.place
    rwa [hPc] at this
  have hOwner : s.owner = some t := hFine.lock.mpr (by rw [hPc]; rfl)
  have hNoTail := hFine.not_tail (by rw [hPc]; rfl)
  obtain ⟨-, hStarted⟩ := step_eq_start hStep fun _ _ => ⟨by rintro ⟨⟩, by rintro ⟨⟩⟩
  -- taking what is pending journals nothing new
  have hNothing : events = [] := by
    simp only [World.start] at hStarted
    split at hStarted <;> exact (Prod.mk.inj (Option.some.inj hStarted)).1.symm
  have hSame : s.applied = s.applied ++ accepted events := by
    rw [hNothing]
    exact (List.append_nil _).symm
  obtain ⟨hInv', hQuiet, hHolder, hRequest⟩ :=
    section_start hInv hOwner (by rintro _ ⟨⟩) hFree hStarted hSame rfl
  refine ⟨settled, held, hInv', ⟨?_, ?_, hFine.mark_le, hFine.flag, ?_⟩, hQuiet⟩
  · refine iff_of_true hOwner ?_
    dsimp only
    split <;> rfl
  · refine iff_of_false hNoTail ?_
    dsimp only
    split <;> exact Bool.false_ne_true
  · dsimp only
    split
    · next hSome =>
      obtain ⟨⟨request, lines⟩, hEq⟩ := Option.isSome_iff_exists.mp hSome
      obtain rfl := (hRequest request lines hEq).mpr ⟨holding_up, rfl⟩
      exact ⟨lines, hEq⟩
    · next hSome =>
      show w'.request = none
      simpa using hSome

/-! ### With the tail's lock -/

/-- The count goes up, then the flag down, then the broker's lock is released:
who finds the flag down finds the count up. -/
theorem fine_count (hInv : SharedInv s settled held) (hFine : Fine s settled held t x)
    (hPc : x.pc = .counting) :
    StepFine s settled held t { s with busy := s.busy + 1 } { x with pc := .storing } := by
  have hPlace := hFine.place
  rw [hPc] at hPlace
  obtain ⟨hFree, hPending⟩ := hPlace
  have hOwner : s.owner = some t := hFine.lock.mpr (by rw [hPc]; rfl)
  have hTail : s.tailLock = some t := hFine.tail.mpr (by rw [hPc]; rfl)
  have hSafe : s.safe settled held ≤ ({ s with busy := s.busy + 1 } : Shared ε τ).safe settled held := by
    unfold Shared.safe
    split <;> simp
  refine ⟨settled, held, ⟨hInv.ordered, hInv.noted, hInv.flag, hInv.request, ?_⟩,
    ⟨iff_of_true hOwner rfl, iff_of_true hTail rfl, hFine.mark_le, ?_, hFree, hPending,
      Nat.succ_pos _⟩,
    fun u hu => ⟨Iff.rfl, Iff.rfl, ?_, ?_, le_refl _, hSafe, le_refl _, .inl⟩⟩
  · exact fun _ => ⟨t, hTail, .inl (Nat.succ_pos _)⟩
  · exact fun hDown => (hFine.flag hDown).trans hSafe
  · exact fun _ => ⟨rfl, rfl, rfl, id⟩
  · intro h
    rw [hTail] at h
    exact absurd (Option.some.inj h).symm hu

omit [EffectJson ε] in
theorem safe_of_busy (hBusy : 0 < s.busy) : s.safe settled held = settled + held := by
  rw [Shared.safe, if_pos hBusy]

theorem fine_store (hInv : SharedInv s settled held) (hFine : Fine s settled held t x)
    (hPc : x.pc = .storing) :
    StepFine s settled held t { s with deferred := false } { x with pc := .unlocking } := by
  have hPlace := hFine.place
  rw [hPc] at hPlace
  obtain ⟨hFree, hPending, hBusy⟩ := hPlace
  have hOwner : s.owner = some t := hFine.lock.mpr (by rw [hPc]; rfl)
  have hTail : s.tailLock = some t := hFine.tail.mpr (by rw [hPc]; rfl)
  have hAll : s.applied.length ≤ s.safe settled held := by
    rw [safe_of_busy hBusy]
    exact (hInv.ordered.total hFree hPending).ge
  refine ⟨settled, held, ⟨hInv.ordered, hInv.noted, fun h => absurd hPending h, hInv.request,
      hInv.holder⟩,
    ⟨iff_of_true hOwner rfl, iff_of_true hTail rfl, hFine.mark_le, ?_, hFree, hPending, hBusy⟩,
    fun u hu => quiet_section hOwner hu (.inl hOwner) rfl rfl (.inr ⟨rfl, rfl⟩) (le_refl _)
      (le_refl _) (le_refl _) fun _ => .inr hAll⟩
  exact fun _ => hFine.mark_le.trans hAll

theorem fine_unlock (hInv : SharedInv s settled held) (hFine : Fine s settled held t x)
    (hPc : x.pc = .unlocking) :
    StepFine s settled held t { s with owner := none }
      { x with pc := .writing, mark := s.applied.length } := by
  have hPlace := hFine.place
  rw [hPc] at hPlace
  obtain ⟨hFree, hPending, hBusy⟩ := hPlace
  have hOwner : s.owner = some t := hFine.lock.mpr (by rw [hPc]; rfl)
  have hTail : s.tailLock = some t := hFine.tail.mpr (by rw [hPc]; rfl)
  have hAll : s.applied.length ≤ settled + held := (hInv.ordered.total hFree hPending).ge
  obtain ⟨hInv', hQuiet⟩ := shared_release hInv hOwner hFree fun _ => hBusy
  refine ⟨settled, held, hInv', ⟨?_, iff_of_true hTail rfl, le_refl _, ?_, hAll, hBusy⟩, hQuiet⟩
  · exact iff_of_false (by rintro ⟨⟩) Bool.false_ne_true
  · intro _
    show s.applied.length ≤ s.safe settled held
    rwa [safe_of_busy hBusy]

/-- The write moves what is held to the files, or to the refused lines. -/
theorem fine_write (hInv : SharedInv s settled held) (hFine : Fine s settled held t x)
    (hPc : x.pc = .writing) {attempt : Attempt} {failed : Bool}
    (hStep : s.world.step (.write attempt) = some (events, w')) :
    StepFine s settled held t { s with world := w' } { x with pc := .noting failed } := by
  have hPlace := hFine.place
  rw [hPc] at hPlace
  obtain ⟨hMark, hBusy⟩ := hPlace
  have hTail : s.tailLock = some t := hFine.tail.mpr (by rw [hPc]; rfl)
  have hOwner := hFine.not_owner (by rw [hPc]; rfl)
  simp only [World.step] at hStep
  split at hStep
  · next lines hHolder =>
    obtain ⟨rfl, rfl⟩ := Prod.mk.inj (Option.some.inj hStep)
    -- what others append meanwhile stays pending
    obtain ⟨-, hPending⟩ := write_frame s.world.journal lines attempt
    refine ⟨settled + held, 0, ⟨ordered_write hInv.ordered hHolder False.elim,
        noted_write _ _ _, ?_, hInv.request, fun h => absurd rfl h⟩,
      ⟨iff_of_false hOwner Bool.false_ne_true, iff_of_true hTail rfl, hFine.mark_le, ?_, rfl, hMark⟩,
      fun u hu => quiet_tail hTail hu rfl (.inl hTail) rfl hPending rfl id (Nat.le_add_right _ _) ?_⟩
    · show (s.world.journal.write lines attempt).2.pending ≠ [] → _
      rw [hPending]
      exact hInv.flag
    · exact fun _ => hMark.trans (Nat.le_add_right _ _)
    · rw [safe_of_busy hBusy]
      exact Nat.le_add_right _ _
  · cases hStep

/-- What is left once the lines are written: the flag for refused ones, the
count, and the lock. -/
theorem fine_written (hInv : SharedInv s settled held) (hFine : Fine s settled held t x)
    (hTail : s.tailLock = some t) (hOwner : s.owner ≠ some t) (hHolder : s.world.holder = none)
    (hMark : x.mark ≤ settled) (s' : Shared ε τ) (hWorld : s'.world = s.world)
    (hApplied : s'.applied = s.applied) (hOwner' : s'.owner = s.owner)
    (hRaised : s.deferred = true → s'.deferred = true) (pc : Pc ε)
    (hLock : pc.hasLock = false) (hTail' : s'.tailLock = some t ∧ pc.hasTail = true ∨
      s'.tailLock = none ∧ pc.hasTail = false)
    (hPlace : Place s' settled held { x with pc } pc) :
    StepFine s settled held t s' { x with pc } := by
  have hZero := hInv.ordered.held_eq_zero hHolder
  subst hZero
  -- with nothing held, whether someone counts as writing makes no difference
  have hSafe : s.safe settled 0 = settled ∧ s'.safe settled 0 = settled := by
    simp [Shared.safe]
  refine ⟨settled, 0, ⟨?_, ?_, ?_, ?_, ?_⟩, ⟨?_, ?_, ?_, ?_, hPlace⟩,
    fun u hu => quiet_tail hTail hu hOwner' ?_ ?_ ?_ hApplied hRaised (le_refl _) ?_⟩
  · rw [hWorld, hApplied]
    exact hInv.ordered
  · rw [hWorld]
    exact hInv.noted
  · rw [hWorld]
    exact fun hNe => hRaised (hInv.flag hNe)
  · rw [hOwner', hWorld]
    exact hInv.request
  · rw [hWorld]
    exact fun h => absurd hHolder h
  · rw [hOwner']
    exact iff_of_false hOwner (by rw [hLock]; exact Bool.false_ne_true)
  · rcases hTail' with ⟨hTail', hPc⟩ | ⟨hTail', hPc⟩
    · exact iff_of_true hTail' hPc
    · exact iff_of_false (by rw [hTail']; rintro ⟨⟩) (by rw [hPc]; exact Bool.false_ne_true)
  · rw [hApplied]
    exact hFine.mark_le
  · rw [hSafe.2]
    exact fun _ => hMark
  · rcases hTail' with ⟨hTail', -⟩ | ⟨hTail', -⟩
    · exact .inl hTail'
    · exact .inr hTail'
  · rw [hWorld]
  · rw [hWorld]
  · rw [hSafe.1, hSafe.2]

/-! ### Any step -/

/-- Every effect can be written as JSON. -/
def EffectJson.Total (ε : Type) [EffectJson ε] : Prop :=
  ∀ effect : ε, (EffectJson.text effect).isSome

/-- Starting an operation in a section, as `Thread.step` does. -/
theorem fine_shared_start (hInv : SharedInv s settled held) (hFine : Fine s settled held t x)
    (hLock : x.pc.hasLock = true) (hTail : x.pc.hasTail = false) {back : Back}
    (hDefer : ∀ effect, action = .defer effect → s.deferred = true)
    (hStart : ∀ answers attempt, action ≠ .finish answers ∧ action ≠ .write attempt)
    (hTake : ∀ holding_up, action ≠ .takePending holding_up)
    (hBack : back = .working ∨ (back = .settled ∧ action = .startRewrite ∧
      (x.batching = true ∨ Flushed s settled x)))
    (hMove : s.start x action false back = some (s', x')) : StepFine s settled held t s' x' := by
  obtain ⟨⟨events, w'⟩, hStep, hEq⟩ := Option.bind_eq_some_iff.mp hMove
  obtain ⟨rfl, rfl⟩ := Prod.mk.inj (Option.some.inj hEq)
  refine fine_start hInv hFine hLock hTail hDefer hStart hTake hStep ?_ rfl
  refine hBack.imp_right fun ⟨hSettled, hAction, hFlushed⟩ => ⟨hSettled, ?_, hFlushed⟩
  -- a rewrite settles no effect
  subst hAction
  obtain ⟨-, hStarted⟩ := step_eq_start hStep hStart
  rw [← (Prod.mk.inj (Option.some.inj hStarted)).1]
  rfl

/-- A change already made is journaled, whichever way: its line can be written. -/
theorem fine_made (hTotal : EffectJson.Total ε) (hInv : SharedInv s settled held)
    (hFine : Fine s settled held t x) (hLock : x.pc.hasLock = true) (hTail : x.pc.hasTail = false)
    {effect : ε} (hAction : (∃ busy, action = .appendApplied effect busy) ∨
      (action = .defer effect ∧ s.deferred = true))
    (hMove : s.start x action false .working = some (s', x')) :
    StepFine s settled held t { s' with applied := s.applied ++ [effect] } x' := by
  obtain ⟨⟨events, w'⟩, hStep, hEq⟩ := Option.bind_eq_some_iff.mp hMove
  obtain ⟨rfl, rfl⟩ := Prod.mk.inj (Option.some.inj hEq)
  have hStart : ∀ answers attempt, action ≠ .finish answers ∧ action ≠ .write attempt := by
    rcases hAction with ⟨busy, rfl⟩ | ⟨rfl, -⟩ <;> exact fun _ _ => ⟨by rintro ⟨⟩, by rintro ⟨⟩⟩
  obtain ⟨-, hStarted⟩ := step_eq_start hStep hStart
  have hPush : ∃ journal, s.world.journal.push effect = some journal := by
    obtain ⟨text, hText⟩ := Option.isSome_iff_exists.mp (hTotal effect)
    exact ⟨_, by rw [push, write_line, hText]; rfl⟩
  obtain ⟨journal, hPush⟩ := hPush
  have hEvents : accepted events = [effect] := by
    rcases hAction with ⟨busy, rfl⟩ | ⟨rfl, -⟩
    · simp only [World.start, hPush] at hStarted
      rw [← (Prod.mk.inj (Option.some.inj hStarted)).1]
      rfl
    · simp only [World.start, hPush] at hStarted
      rw [← (Prod.mk.inj (Option.some.inj hStarted)).1]
      rfl
  refine fine_start hInv hFine hLock hTail ?_ hStart ?_ hStep (.inl rfl) (by rw [hEvents])
  · intro effect' hDefer
    rcases hAction with ⟨busy, rfl⟩ | ⟨-, hRaised⟩
    · cases hDefer
    · exact hRaised
  · rcases hAction with ⟨busy, rfl⟩ | ⟨rfl, -⟩ <;> rintro _ ⟨⟩

/-- The flag is raised before the change is pushed. -/
theorem fine_raise (hInv : SharedInv s settled held) (hFine : Fine s settled held t x)
    (hPc : x.pc = .working) (effect : ε) (made : Bool) :
    StepFine s settled held t { s with deferred := true } { x with pc := .deferring effect made } := by
  have hFree : s.world.request = none := by
    have := hFine.place
    rwa [hPc] at this
  have hOwner : s.owner = some t := hFine.lock.mpr (by rw [hPc]; rfl)
  have hNoTail := hFine.not_tail (by rw [hPc]; rfl)
  refine ⟨settled, held, ⟨hInv.ordered, hInv.noted, fun _ => rfl, hInv.request, hInv.holder⟩,
    ⟨iff_of_true hOwner rfl, iff_of_false hNoTail Bool.false_ne_true, hFine.mark_le, ?_, hFree, rfl⟩,
    fun u hu => quiet_section hOwner hu (.inl hOwner) rfl rfl (.inr ⟨rfl, rfl⟩) (le_refl _)
      (le_refl _) (le_refl _) ?_⟩
  · intro h
    cases h
  · intro h
    cases h

/-- A thread that gets the broker's lock. -/
theorem fine_acquire (hInv : SharedInv s settled held) (hFine : Fine s settled held t x)
    (hTail : x.pc.hasTail = false) (hNone : s.owner = none) {pc : Pc ε}
    (hPc : pc = .working ∨ pc = .taking) :
    StepFine s settled held t { s with owner := some t } { x with pc } := by
  obtain ⟨hInv', hQuiet⟩ := shared_acquire hInv hNone t
  have hFree := hInv.request hNone
  have hNoTail := hFine.not_tail hTail
  refine ⟨settled, held, hInv', ⟨?_, ?_, hFine.mark_le, hFine.flag, ?_⟩, hQuiet⟩
  · exact iff_of_true rfl (by rcases hPc with rfl | rfl <;> rfl)
  · exact iff_of_false hNoTail (by rcases hPc with rfl | rfl <;> exact Bool.false_ne_true)
  · rcases hPc with rfl | rfl <;> exact hFree

/-- A thread that only goes on to another place of its code, with the same
locks. -/
theorem fine_move (hInv : SharedInv s settled held) (hFine : Fine s settled held t x)
    {pc : Pc ε} {heldUp : Bool} (hLock : pc.hasLock = x.pc.hasLock)
    (hTail : pc.hasTail = x.pc.hasTail)
    (hPlace : Place s settled held { x with pc, heldUp } pc) :
    StepFine s settled held t s { x with pc, heldUp } :=
  stepFine_of_same hInv ⟨by rw [hLock]; exact hFine.lock, by rw [hTail]; exact hFine.tail,
    hFine.mark_le, hFine.flag, hPlace⟩

/-- What a thread saw on its way is settled once nobody writes. -/
theorem settled_of_free (hInv : SharedInv s settled held) {mark : Nat}
    (hMark : mark ≤ s.safe settled held) (hFree : s.busy = 0 ∨ s.tailLock.isNone = true) :
    mark ≤ settled := by
  have hSafe : s.safe settled held = settled := by
    unfold Shared.safe
    rcases hFree with hZero | hNone
    · rw [if_neg (by omega), Nat.add_zero]
    · have hHolder := holder_eq_none_of_tail hInv (Option.isNone_iff_eq_none.mp hNone)
      rw [hInv.ordered.held_eq_zero hHolder, ite_self, Nat.add_zero]
  rwa [hSafe] at hMark

/-- Every step of a thread keeps the shared state sound, leaves the thread fine,
and disturbs no other. -/
theorem fine_step (hTotal : EffectJson.Total ε) (hInv : SharedInv s settled held)
    (hFine : Fine s settled held t x) {move : Move ε} (hStep : x.step t s move = some (s', x')) : StepFine s settled held t s' x' := by
  have hPlace := hFine.place
  have hLock := hFine.lock
  have hTail := hFine.tail
  unfold Thread.step at hStep
  dsimp only at hStep
  split at hStep
  -- a section
  · next hPc =>
    split at hStep
    · next hNone =>
      cases hStep
      exact fine_acquire hInv hFine (by rw [hPc]; rfl) (Option.isNone_iff_eq_none.mp hNone)
        (.inl rfl)
    · cases hStep
  · next effect hPc =>
    split at hStep
    · cases hStep
      exact fine_raise hInv hFine hPc effect false
    · exact fine_shared_start hInv hFine (by rw [hPc]; rfl) (by rw [hPc]; rfl) (by rintro _ ⟨⟩)
        (fun _ _ => ⟨by rintro ⟨⟩, by rintro ⟨⟩⟩) (by rintro _ ⟨⟩) (.inl rfl) hStep
  · next effect hPc =>
    split at hStep
    · cases hStep
      exact fine_raise hInv hFine hPc effect true
    · obtain ⟨⟨s₁, x₁⟩, hMove, hEq⟩ := Option.bind_eq_some_iff.mp hStep
      obtain ⟨rfl, rfl⟩ := Prod.mk.inj (Option.some.inj hEq)
      exact fine_made hTotal hInv hFine (by rw [hPc]; rfl) (by rw [hPc]; rfl) (.inl ⟨_, rfl⟩) hMove
  · next effect made hPc =>
    rw [hPc] at hPlace
    obtain ⟨⟨s₁, x₁⟩, hMove, hEq⟩ := Option.bind_eq_some_iff.mp hStep
    obtain ⟨rfl, rfl⟩ := Prod.mk.inj (Option.some.inj hEq)
    cases made with
    | true =>
      exact fine_made hTotal hInv hFine (by rw [hPc]; rfl) (by rw [hPc]; rfl)
        (.inr ⟨rfl, hPlace.2⟩) hMove
    | false =>
      exact fine_shared_start hInv hFine (by rw [hPc]; rfl) (by rw [hPc]; rfl)
        (fun _ _ => hPlace.2) (fun _ _ => ⟨by rintro ⟨⟩, by rintro ⟨⟩⟩) (by rintro _ ⟨⟩)
        (.inl rfl) hMove
  · next hPc =>
    exact fine_shared_start hInv hFine (by rw [hPc]; rfl) (by rw [hPc]; rfl) (by rintro _ ⟨⟩)
      (fun _ _ => ⟨by rintro ⟨⟩, by rintro ⟨⟩⟩) (by rintro _ ⟨⟩) (.inl rfl) hStep
  · next hPc =>
    exact fine_shared_start hInv hFine (by rw [hPc]; rfl) (by rw [hPc]; rfl) (by rintro _ ⟨⟩)
      (fun _ _ => ⟨by rintro ⟨⟩, by rintro ⟨⟩⟩) (by rintro _ ⟨⟩) (.inl rfl) hStep
  · next hPc =>
    exact fine_shared_start hInv hFine (by rw [hPc]; rfl) (by rw [hPc]; rfl) (by rintro _ ⟨⟩)
      (fun _ _ => ⟨by rintro ⟨⟩, by rintro ⟨⟩⟩) (by rintro _ ⟨⟩) (.inl rfl) hStep
  · next flush back answers hPc =>
    split at hStep
    · next hNone =>
      obtain ⟨⟨events, w'⟩, hAnswer, hEq⟩ := Option.bind_eq_some_iff.mp hStep
      obtain ⟨rfl, rfl⟩ := Prod.mk.inj (Option.some.inj hEq)
      exact fine_answer hInv hFine hPc (Option.isNone_iff_eq_none.mp hNone) hAnswer
    · cases hStep
  -- `flush_deferred`
  · next hPc =>
    cases hStep
    rw [hPc] at hPlace
    exact fine_move hInv hFine (by rw [hPc]; rfl) (by rw [hPc]; rfl) hPlace
  · next back holding_up hPc =>
    rw [hPc] at hPlace
    split at hStep
    · next hPostponing =>
      cases hStep
      refine fine_move hInv hFine (by rw [hPc]; rfl) (by rw [hPc]; rfl) ⟨hPlace, .inl ?_⟩
      rw [postponing, Bool.and_eq_true] at hPostponing
      show (x.heldUp || holding_up) = true
      rw [hPostponing.2, Bool.or_true]
    · -- the thread notes what it saw before it flushes
      have hSeen : Fine s settled held t { x with heldUp := x.heldUp || holding_up } :=
        ⟨hLock, hTail, hFine.mark_le, hFine.flag, by
          show Place s settled held _ x.pc
          rw [hPc]
          exact hPlace⟩
      exact fine_flush hInv hSeen hPc hStep
  · next back hPc =>
    cases hStep
    exact fine_lower hInv hFine hPc
  -- `settle`
  · next hPc =>
    rw [hPc] at hPlace
    split at hStep
    · next hBatching =>
      cases hStep
      exact fine_move hInv hFine (by rw [hPc]; rfl) (by rw [hPc]; rfl) ⟨hPlace, .inl hBatching⟩
    · split at hStep
      · cases hStep
        exact fine_move hInv hFine (by rw [hPc]; rfl) (by rw [hPc]; rfl) hPlace
      · next hDown =>
        cases hStep
        refine fine_move hInv hFine (by rw [hPc]; rfl) (by rw [hPc]; rfl) ⟨hPlace, ?_⟩
        by_contra hNe
        exact hDown (hInv.flag hNe)
  · next hPc =>
    rw [hPc] at hPlace hLock hTail
    split at hStep
    · next hFree =>
      cases hStep
      refine fine_move hInv hFine (by rw [hPc]; rfl) (by rw [hPc]; rfl) ⟨hPlace.1, .inr (.inr ?_)⟩
      have hNoTail : s.tailLock ≠ some t := fun h => Bool.false_ne_true (hTail.mp h)
      have hNone := holder_eq_none hInv (hLock.mpr rfl) hNoTail
        (hFree.imp_right Option.isNone_iff_eq_none.mp)
      exact (all_settled hInv hPlace.1 hPlace.2 hNone).1.ge
    · cases hStep
  · next hPc =>
    rw [hPc] at hPlace
    exact fine_shared_start hInv hFine (by rw [hPc]; rfl) (by rw [hPc]; rfl) (by rintro _ ⟨⟩)
      (fun _ _ => ⟨by rintro ⟨⟩, by rintro ⟨⟩⟩) (by rintro _ ⟨⟩) (.inr ⟨rfl, rfl, hPlace.2⟩) hStep
  · next hPc =>
    cases hStep
    rw [hPc] at hPlace
    refine fine_leave hInv hFine (by rw [hPc]; rfl) (by rw [hPc]; rfl) hPlace.1 fun hReplied => ?_
    rcases hPlace.2 with hBatching | hFlushed
    · rw [hBatching] at hReplied
      cases hReplied
    · exact hFlushed
  -- `flush_journal`
  · next hPc =>
    cases hStep
    exact fine_move hInv hFine (by rw [hPc]; rfl) (by rw [hPc]; rfl) hFine.flag
  · next flag hPc =>
    rw [hPc] at hPlace
    split at hStep
    · next hFree =>
      cases hStep
      cases flag with
      | true => exact fine_move hInv hFine (by rw [hPc]; rfl) (by rw [hPc]; rfl) trivial
      | false =>
        exact fine_move hInv hFine (by rw [hPc]; rfl) (by rw [hPc]; rfl)
          fun _ => .inr (settled_of_free hInv (hPlace rfl) hFree)
    · cases hStep
  · next hPc =>
    split at hStep
    · next hNone =>
      cases hStep
      exact fine_acquire hInv hFine (by rw [hPc]; rfl) (Option.isNone_iff_eq_none.mp hNone)
        (.inr rfl)
    · cases hStep
  · next holding_up hPc =>
    obtain ⟨⟨events, w'⟩, hTake, hEq⟩ := Option.bind_eq_some_iff.mp hStep
    obtain ⟨rfl, rfl⟩ := Prod.mk.inj (Option.some.inj hEq)
    exact fine_take hInv hFine hPc hTake
  · next hPc =>
    cases hStep
    rw [hPc] at hPlace
    exact fine_leave hInv hFine (by rw [hPc]; rfl) (by rw [hPc]; rfl) hPlace.1 fun _ => hPlace.2
  · next hPc =>
    split at hStep
    · next hNone =>
      obtain ⟨⟨events, w'⟩, hHand, hEq⟩ := Option.bind_eq_some_iff.mp hStep
      obtain ⟨rfl, rfl⟩ := Prod.mk.inj (Option.some.inj hEq)
      exact fine_hand hInv hFine hPc (Option.isNone_iff_eq_none.mp hNone) hHand
    · cases hStep
  -- with the tail's lock
  · next hPc =>
    cases hStep
    exact fine_count hInv hFine hPc
  · next hPc =>
    cases hStep
    exact fine_store hInv hFine hPc
  · next hPc =>
    cases hStep
    exact fine_unlock hInv hFine hPc
  · next attempt hPc =>
    obtain ⟨⟨events, w'⟩, hWrite, hEq⟩ := Option.bind_eq_some_iff.mp hStep
    obtain ⟨rfl, rfl⟩ := Prod.mk.inj (Option.some.inj hEq)
    exact fine_write hInv hFine hPc hWrite
  · next failed hPc =>
    cases hStep
    rw [hPc] at hPlace hLock hTail
    refine fine_written hInv hFine (hTail.mpr rfl) (fun h => Bool.false_ne_true (hLock.mp h))
      hPlace.1 hPlace.2 { s with deferred := s.deferred || failed } rfl rfl rfl ?_ .uncounting
      rfl ?_ ?_
    · intro hRaised
      show (s.deferred || failed) = true
      rw [hRaised, Bool.true_or]
    · exact .inl ⟨hTail.mpr rfl, rfl⟩
    · exact hPlace
  · next hPc =>
    cases hStep
    rw [hPc] at hPlace hLock hTail
    refine fine_written hInv hFine (hTail.mpr rfl) (fun h => Bool.false_ne_true (hLock.mp h))
      hPlace.1 hPlace.2 { s with busy := s.busy - 1 } rfl rfl rfl id .dropping rfl ?_ ?_
    · exact .inl ⟨hTail.mpr rfl, rfl⟩
    · exact hPlace
  · next hPc =>
    cases hStep
    rw [hPc] at hPlace hLock hTail
    refine fine_written hInv hFine (hTail.mpr rfl) (fun h => Bool.false_ne_true (hLock.mp h))
      hPlace.1 hPlace.2 { s with tailLock := none } rfl rfl rfl id (.idle true) rfl ?_ ?_
    · exact .inr ⟨rfl, rfl⟩
    · exact fun _ => .inr hPlace.2
  · cases hStep

/-! ## Any run -/

section

variable [DecidableEq τ]

/-- The shared state is sound, and every thread fine. -/
def Sound (p : Pool ε τ) : Prop :=
  ∃ settled held, SharedInv p.shared settled held ∧
    ∀ t, Fine p.shared settled held t (p.threads t)

omit [DecidableEq τ] in
theorem sound_idle (fsync : Fsync) (batching : τ → Bool) :
    Sound (idlePool fsync batching : Pool ε τ) := by
  refine ⟨0, 0, ⟨ordered_fresh False fsync, ⟨rfl, rfl⟩, fun h => absurd rfl h, fun _ => rfl,
    fun h => absurd rfl h⟩, fun t => ⟨?_, ?_, le_refl _, fun _ => Nat.zero_le _, ?_⟩⟩
  · exact iff_of_false (by rintro ⟨⟩) Bool.false_ne_true
  · exact iff_of_false (by rintro ⟨⟩) Bool.false_ne_true
  · rintro ⟨⟩

theorem sound_step (hTotal : EffectJson.Total ε) {p p' : Pool ε τ} (hSound : Sound p) {t : τ}
    {move : Move ε} (hStep : p.step t move = some p') : Sound p' := by
  obtain ⟨settled, held, hInv, hFine⟩ := hSound
  obtain ⟨⟨s', x'⟩, hThread, hEq⟩ := Option.bind_eq_some_iff.mp hStep
  obtain rfl := Option.some.inj hEq
  obtain ⟨settled', held', hInv', hFine', hQuiet⟩ := fine_step hTotal hInv (hFine t) hThread
  refine ⟨settled', held', hInv', fun u => ?_⟩
  by_cases hu : u = t
  · subst hu
    show Fine s' settled' held' u (Function.update p.threads u x' u)
    rw [Function.update_self]
    exact hFine'
  · show Fine s' settled' held' u (Function.update p.threads t x' u)
    rw [Function.update_of_ne hu]
    exact fine_quiet (hFine u) (hQuiet u hu)

theorem sound_run (hTotal : EffectJson.Total ε) (moves : List (τ × Move ε)) :
    ∀ {p p' : Pool ε τ}, Sound p → p.run moves = some p' → Sound p' := by
  induction moves with
  | nil =>
    intro p p' hSound hRun
    obtain rfl := Option.some.inj hRun
    exact hSound
  | cons m moves ih =>
    intro p p' hSound hRun
    obtain ⟨p₁, hStep, hRest⟩ := Option.bind_eq_some_iff.mp hRun
    exact ih (sound_step hTotal hSound hStep) hRest

/-- Whatever the threads do and however writes fail, cut off again or not: once
`flush_journal`, or `settle` on a thread that does not batch, has returned, the
changes made before that thread last let go of the broker's lock have their
lines whole in the files, or among the lines the disk refused. While there are
refused lines, or something torn at the end of `journal.log`, it counts as
failing. That is unless a sync held writes up when the thread looked. -/
theorem journaled_before_reply (hTotal : EffectJson.Total ε) (fsync : Fsync) (batching : τ → Bool)
    (moves : List (τ × Move ε)) {p : Pool ε τ}
    (hRun : (idlePool fsync batching).run moves = some p) (t : τ)
    (hReplied : (p.threads t).pc = .idle true) (hHeldUp : (p.threads t).heldUp = false) :
    ∃ (aside : List (Nat × Contents)) (log : Contents) (refused rest : List Bytes),
      p.shared.world.journal.files.aside.toList = aside.map (fun s => (s.1, s.2.bytes)) ∧
      p.shared.world.journal.files.log.getD [] = log.bytes ∧
      p.shared.world.journal.tail.refused = refused.flatten ∧
      (lines_of aside ++ log.lines ++ refused ++ rest).map some
        = (p.shared.applied.zipIdx 1).map (fun e => write_line e.2 e.1) ∧
      (p.threads t).mark ≤ (lines_of aside ++ log.lines ++ refused).length ∧
      (refused ≠ [] ∨ log.torn ≠ [] → p.shared.world.journal.failing = true) := by
  obtain ⟨settled, held, hInv, hFine⟩ := sound_run hTotal moves (sound_idle fsync batching) hRun
  have hPlace := (hFine t).place
  rw [hReplied] at hPlace
  have hMark : (p.threads t).mark ≤ settled := by
    rcases hPlace rfl with hTrue | hMark
    · rw [hHeldUp] at hTrue
      cases hTrue
    · exact hMark
  obtain ⟨filed, refused, writing, taken, pending, hOrder, rfl, -⟩ := hInv.ordered
  obtain ⟨aside, log, hTidy, rfl, hRefused⟩ := hOrder.stored
  refine ⟨aside, log, refused, writing ++ taken ++ pending, hTidy.aside_eq, hTidy.log_eq, hRefused,
    ?_, hMark, ?_⟩
  · have hNumbered := hOrder.numbered
    rwa [List.append_assoc _ writing, List.append_assoc _ (writing ++ taken)] at hNumbered
  · rw [hInv.noted.1, Bool.or_eq_true, Bool.not_eq_true', hRefused, List.isEmpty_eq_false_iff]
    rintro (hNe | hLeft)
    · right
      intro hNil
      exact hNe (hOrder.eq_nil (fun line hLine => by simp [hLine]) hNil)
    · -- only a tail that is torn has something torn before it
      left
      by_contra hSound
      rcases hTidy.handle with ⟨-, -, hNone⟩ | ⟨-, -, -, -, -, -, rfl, -⟩
      · exact hLeft (hNone (Bool.eq_false_iff.mpr hSound))
      · exact hLeft rfl

/-- Thread `true` batches a change and flushes it, and the disk takes three
bytes of it, which cannot be cut off again; thread `false` reads meanwhile, sees
that change, and waits for its write. -/
def twoThreads : List (Bool × Move Forget) :=
  [(true, .enter), (true, .commit .a), (true, .go), (true, .settle), (true, .leave),
    (true, .flush), (true, .go), (true, .go), (true, .check false), (true, .go), (true, .go),
    (true, .go), (true, .go), (false, .enter), (false, .settle),
    (true, .write (.failed 3 "no space left on device" false)), (true, .go), (true, .go),
    (true, .go), (false, .go), (false, .leave)]

theorem journaled_before_reply_twoThreads :
    ∃ p, (idlePool .everySec id).run twoThreads = some p ∧
      (p.shared.world.journal.tail.torn = true ∧ (p.threads false).mark = 1) ∧
      ∃ (aside : List (Nat × Contents)) (log : Contents) (refused rest : List Bytes),
        p.shared.world.journal.files.aside.toList = aside.map (fun s => (s.1, s.2.bytes)) ∧
        p.shared.world.journal.files.log.getD [] = log.bytes ∧
        p.shared.world.journal.tail.refused = refused.flatten ∧
        (lines_of aside ++ log.lines ++ refused ++ rest).map some
          = (p.shared.applied.zipIdx 1).map (fun e => write_line e.2 e.1) ∧
        (p.threads false).mark ≤ (lines_of aside ++ log.lines ++ refused).length ∧
        (refused ≠ [] ∨ log.torn ≠ [] → p.shared.world.journal.failing = true) := by
  have hTotal : EffectJson.Total Forget := by
    intro effect
    cases effect <;> rfl
  have hRun : (((idlePool .everySec id).run twoThreads).map fun p =>
      (p.threads false).replied && !(p.threads false).heldUp && p.shared.world.journal.tail.torn &&
        (p.threads false).mark == 1) = some true := by
    decide +kernel
  obtain ⟨p, hRun, hEnd⟩ := Option.map_eq_some_iff.mp hRun
  simp only [Bool.and_eq_true, Bool.not_eq_true', beq_iff_eq] at hEnd
  obtain ⟨⟨⟨hReplied, hHeldUp⟩, hTorn⟩, hMark⟩ := hEnd
  refine ⟨p, hRun, ⟨hTorn, hMark⟩, journaled_before_reply hTotal .everySec id twoThreads hRun false ?_ hHeldUp⟩
  unfold Thread.replied at hReplied
  split at hReplied
  · next hPc => rw [hPc, hReplied]
  · cases hReplied

end

end Postino.Journal
