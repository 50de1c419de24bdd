import Mathlib.Order.Defs.Unbundled

/-!
# Computations that may fail

A computation over a state that returns a value or fails with an error, and
leaves the state it came to either way: what it did before an error stays done.

`Sat m s Done Failed` says where `m`, started in `s`, comes to: with a value and
a state in `Done`, or failing in a state in `Failed`. The rules follow the
computation: `sat_bind` for one step after another, `sat_forM` for a loop, with
an invariant.

`Moves R m` says how the state `m` leaves relates to the one it started in.
`Checks`, `Clean` and `Sure` are for what checks first and then acts:
`clean_bind_check` for the checks, `clean_bind_sure` where the acting starts.
-/

namespace Lib

/-- A computation over `σ` that may fail with an `ε`. -/
def Fallible (σ ε α : Type) : Type := σ → Except ε α × σ

namespace Fallible

variable {σ ε α β : Type}

instance : Monad (Fallible σ ε) where
  pure a := fun s => (.ok a, s)
  bind m f := fun s =>
    match m s with
    | (.ok a, s) => f a s
    | (.error e, s) => (.error e, s)

theorem bind_of_ok {m : Fallible σ ε α} {f : α → Fallible σ ε β} {s s' : σ} {a : α}
    (h : m s = (.ok a, s')) : (m >>= f) s = f a s' := by
  show (match m s with
    | (.ok a, s) => f a s
    | (.error e, s) => (.error e, s)) = f a s'
  rw [h]

theorem bind_of_error {m : Fallible σ ε α} {f : α → Fallible σ ε β} {s s' : σ} {e : ε}
    (h : m s = (.error e, s')) : (m >>= f) s = (.error e, s') := by
  show (match m s with
    | (.ok a, s) => f a s
    | (.error e, s) => (.error e, s)) = (.error e, s')
  rw [h]

/-- The state, read. -/
def read : Fallible σ ε σ := fun s => (.ok s, s)

def modify (f : σ → σ) : Fallible σ ε Unit := fun s => (.ok (), f s)

def fail (e : ε) : Fallible σ ε α := fun s => (.error e, s)

/-- Fails if `refused`. -/
def refuse (refused : Bool) (e : ε) : Fallible σ ε Unit := if refused then fail e else pure ()

/-- Where `m`, started in `s`, comes to. -/
def Sat (m : Fallible σ ε α) (s : σ) (Done : α → σ → Prop) (Failed : σ → Prop) : Prop :=
  match m s with
  | (.ok a, s) => Done a s
  | (.error _, s) => Failed s

variable {m : Fallible σ ε α} {s : σ} {Done Done' : α → σ → Prop} {Failed Failed' : σ → Prop}

theorem sat_pure {a : α} (h : Done a s) : Sat (pure a : Fallible σ ε α) s Done Failed := h

theorem sat_bind {f : α → Fallible σ ε β} {Done : β → σ → Prop}
    (h : Sat m s (fun a s => Sat (f a) s Done Failed) Failed) : Sat (m >>= f) s Done Failed := by
  unfold Sat at *
  show match (match m s with
    | (.ok a, s) => f a s
    | (.error e, s) => (.error e, s)) with
    | (.ok a, s) => Done a s
    | (.error _, s) => Failed s
  generalize m s = result at *
  rcases result with ⟨e | a, s'⟩
  · exact h
  · exact h

theorem sat_read {f : σ → Fallible σ ε β} {Done : β → σ → Prop} (h : Sat (f s) s Done Failed) :
    Sat (read >>= f) s Done Failed := h

theorem sat_modify {f : σ → σ} {Done : Unit → σ → Prop} (h : Done () (f s)) :
    Sat (modify f : Fallible σ ε Unit) s Done Failed := h

theorem sat_fail {e : ε} (h : Failed s) : Sat (fail e : Fallible σ ε α) s Done Failed := h

theorem sat_refuse {refused : Bool} {e : ε} {Done : Unit → σ → Prop} (hFail : refused = true → Failed s)
    (hPass : refused = false → Done () s) : Sat (refuse refused e) s Done Failed := by
  cases refused with
  | true => exact hFail rfl
  | false => exact hPass rfl

/-- What has come of a computation already. -/
def returned (result : Except ε α) : Fallible σ ε α := fun s => (result, s)

/-- A computation that comes to what another does is as good as the other. -/
theorem sat_bind_eq {f : α → Fallible σ ε β} {Done : β → σ → Prop} {m' : Fallible σ ε α} {s' : σ}
    (h : m s = m' s') (hSat : Sat (m' >>= f) s' Done Failed) : Sat (m >>= f) s Done Failed := by
  have hEq : (m >>= f) s = (m' >>= f) s' := by
    rcases hResult : m' s' with ⟨e | a, s''⟩
    · rw [bind_of_error (h.trans hResult), bind_of_error hResult]
    · rw [bind_of_ok (h.trans hResult), bind_of_ok hResult]
  unfold Sat at hSat ⊢
  rwa [hEq]

/-- A check that is made only sometimes, and leaves the state as it was. -/
theorem sat_when {c : Prop} [Decidable c] {m : Fallible σ ε α} {k : α → Fallible σ ε β} {a : α}
    {Done : β → σ → Prop} (hCheck : Sat m s (fun a' s' => a' = a ∧ s' = s) Failed)
    (hRest : Sat (k a) s Done Failed) : Sat (if c then m >>= k else k a) s Done Failed := by
  split
  · refine sat_bind ?_
    unfold Sat at hCheck ⊢
    generalize m s = result at *
    rcases result with ⟨e | a', s'⟩
    · exact hCheck
    · obtain ⟨rfl, rfl⟩ := hCheck
      exact hRest
  · exact hRest

theorem Sat.mono (h : Sat m s Done Failed) (hDone : ∀ a s, Done a s → Done' a s)
    (hFailed : ∀ s, Failed s → Failed' s) : Sat m s Done' Failed' := by
  unfold Sat at *
  generalize m s = result at *
  rcases result with ⟨e | a, s'⟩
  · exact hFailed s' h
  · exact hDone a s' h

/-- Where it comes to, however it ends. -/
theorem Sat.state {P : σ → Prop} (h : Sat m s (fun _ => P) P) : P (m s).2 := by
  unfold Sat at h
  generalize m s = result at *
  rcases result with ⟨e | a, s'⟩
  · exact h
  · exact h

/-- What came of it. -/
theorem Sat.elim (h : Sat m s Done Failed) :
    (∃ a s', m s = (.ok a, s') ∧ Done a s') ∨ ∃ e s', m s = (.error e, s') ∧ Failed s' := by
  unfold Sat at h
  generalize m s = result at *
  rcases result with ⟨e | a, s'⟩
  · exact .inr ⟨e, s', rfl, h⟩
  · exact .inl ⟨a, s', rfl, h⟩

/-- A loop keeps what each of its rounds keeps. -/
theorem sat_forM {f : α → Fallible σ ε PUnit} {Inv : σ → Prop} (items : List α)
    (hRound : ∀ a ∈ items, ∀ s, Inv s → Sat (f a) s (fun _ s => Inv s) Failed) (h : Inv s) :
    Sat (items.forM f) s (fun _ s => Inv s) Failed := by
  induction items generalizing s with
  | nil => exact h
  | cons a items ih =>
    obtain ⟨hHead, hTail⟩ := List.forall_mem_cons.mp hRound
    exact sat_bind ((hHead s h).mono (fun _ s hInv => ih hTail hInv) fun _ => id)

/-- A loop, with what is known of the items still to come. -/
theorem sat_forM_rest {f : α → Fallible σ ε PUnit} (Inv : List α → σ → Prop) (items : List α)
    (hRound : ∀ a rest s, Inv (a :: rest) s → Sat (f a) s (fun _ s => Inv rest s) Failed)
    (h : Inv items s) : Sat (items.forM f) s (fun _ s => Inv [] s) Failed := by
  induction items generalizing s with
  | nil => exact h
  | cons a items ih => exact sat_bind ((hRound a items s h).mono (fun _ s hInv => ih hInv) fun _ => id)

/-- What a computation keeps, however it ends. -/
def Keeps (Inv : σ → Prop) (m : Fallible σ ε α) : Prop :=
  ∀ s, Inv s → Sat m s (fun _ s => Inv s) Inv

variable {Inv : σ → Prop}

theorem keeps_bind {f : α → Fallible σ ε β} (h : Keeps Inv m) (hNext : ∀ a, Keeps Inv (f a)) :
    Keeps Inv (m >>= f) := fun s hInv =>
  sat_bind ((h s hInv).mono (fun a s hInv => hNext a s hInv) fun _ => id)

theorem keeps_pure (a : α) : Keeps Inv (pure a : Fallible σ ε α) := fun _ h => h

theorem keeps_refuse (refused : Bool) (e : ε) : Keeps Inv (refuse refused e : Fallible σ ε Unit) :=
  fun _ h => sat_refuse (fun _ => h) fun _ => h

theorem keeps_forM {f : α → Fallible σ ε PUnit} (items : List α)
    (h : ∀ a ∈ items, Keeps Inv (f a)) : Keeps Inv (items.forM f) := fun _ hInv =>
  sat_forM items (fun a ha s hInv => h a ha s hInv) hInv

theorem sat_any (m : Fallible σ ε α) (s : σ) : Sat m s (fun _ _ => True) fun _ => True := by
  unfold Sat
  generalize m s = result
  rcases result with ⟨e | a, s'⟩ <;> exact trivial

/-- What both say. -/
theorem Sat.and (h : Sat m s Done Failed) (h' : Sat m s Done' Failed') :
    Sat m s (fun a s => Done a s ∧ Done' a s) fun s => Failed s ∧ Failed' s := by
  unfold Sat at *
  generalize m s = result at *
  rcases result with ⟨e | a, s'⟩
  · exact ⟨h, h'⟩
  · exact ⟨h, h'⟩

theorem keeps_read {f : σ → Fallible σ ε β} (h : ∀ s, Keeps Inv (f s)) : Keeps Inv (read >>= f) :=
  fun s hInv => sat_read (h s s hInv)

/-! ## From one state to the next -/

section

/-- However it ends, `m` leaves a state that `R` relates to the one it started in. -/
def Moves (R : σ → σ → Prop) (m : Fallible σ ε α) : Prop := ∀ s, R s (m s).2

variable {R : σ → σ → Prop} [IsPreorder σ R]

theorem moves_pure (a : α) : Moves R (pure a : Fallible σ ε α) := fun s => refl_of R s

theorem moves_fail (e : ε) : Moves R (fail e : Fallible σ ε α) := fun s => refl_of R s

omit [IsPreorder σ R] in
/-- From one state on, where more is known of it. -/
theorem moves_bind_from {f : α → Fallible σ ε β} [IsTrans σ R] (h : R s (m s).2)
    (hNext : ∀ a s', m s = (.ok a, s') → R s' (f a s').2) : R s ((m >>= f) s).2 := by
  show R s (match m s with
    | (.ok a, s) => f a s
    | (.error e, s) => (.error e, s)).2
  rcases hResult : m s with ⟨e | a, s'⟩
  · rw [hResult] at h
    exact h
  · rw [hResult] at h
    exact trans_of R h (hNext a s' hResult)

theorem moves_bind {f : α → Fallible σ ε β} (h : Moves R m) (hNext : ∀ a, Moves R (f a)) :
    Moves R (m >>= f) := fun s => moves_bind_from (h s) fun a s' _ => hNext a s'

theorem moves_refuse (refused : Bool) (e : ε) : Moves R (refuse refused e : Fallible σ ε Unit) := by
  cases refused with
  | true => exact moves_fail e
  | false => exact moves_pure ()

omit [IsPreorder σ R] in
theorem moves_modify {f : σ → σ} (h : ∀ s, R s (f s)) : Moves R (modify f : Fallible σ ε Unit) := h

end

/-! ## Checked first, then done -/

section

/-- `m` leaves the state as it was, and gives what `P` says. -/
abbrev Checks (m : Fallible σ ε α) (s : σ) (P : α → Prop) : Prop :=
  Sat m s (fun a s' => s' = s ∧ P a) fun s' => s' = s

theorem checks_pure {P : α → Prop} {a : α} (h : P a) : Checks (pure a : Fallible σ ε α) s P :=
  ⟨rfl, h⟩

theorem checks_fail {P : α → Prop} {e : ε} : Checks (fail e : Fallible σ ε α) s P := rfl

theorem checks_bind {f : α → Fallible σ ε β} {P : α → Prop} {Q : β → Prop} (h : Checks m s P)
    (hNext : ∀ a, P a → Checks (f a) s Q) : Checks (m >>= f) s Q := by
  refine sat_bind (h.mono (fun a s' hDone => ?_) fun _ => id)
  obtain ⟨rfl, hP⟩ := hDone
  exact hNext a hP

theorem checks_refuse {refused : Bool} {e : ε} :
    Checks (refuse refused e : Fallible σ ε Unit) s fun _ => refused = false :=
  sat_refuse (fun _ => rfl) fun h => ⟨rfl, h⟩

theorem checks_forM {f : α → Fallible σ ε PUnit} (items : List α)
    (h : ∀ a ∈ items, Checks (f a) s fun _ => True) : Checks (items.forM f) s fun _ => True := by
  induction items with
  | nil => exact checks_pure trivial
  | cons a items ih =>
    obtain ⟨hHead, hTail⟩ := List.forall_mem_cons.mp h
    exact checks_bind hHead fun _ _ => ih hTail

/-- A check changes nothing. -/
theorem keeps_check {P : σ → α → Prop} (h : ∀ s, Checks m s (P s)) : Keeps Inv m := fun s hInv =>
  (h s).mono (fun _ _ h => h.1 ▸ hInv) fun _ h => h ▸ hInv

/-! ### What comes of it unless it fails -/

abbrev Yields (m : Fallible σ ε α) (s : σ) (Done : α → σ → Prop) : Prop := Sat m s Done fun _ => True

theorem yields_bind {f : α → Fallible σ ε β} {After : β → σ → Prop} (h : Yields m s Done)
    (hNext : ∀ a s', Done a s' → Yields (f a) s' After) : Yields (m >>= f) s After :=
  sat_bind (h.mono hNext fun _ _ => trivial)

theorem yields_check {f : α → Fallible σ ε β} {P : α → Prop} {After : β → σ → Prop} (h : Checks m s P)
    (hNext : ∀ a, P a → Yields (f a) s After) : Yields (m >>= f) s After := by
  refine sat_bind (h.mono (fun a s' hDone => ?_) fun _ _ => trivial)
  obtain ⟨rfl, hP⟩ := hDone
  exact hNext a hP

theorem yields_refuse {refused : Bool} {e : ε} {f : Unit → Fallible σ ε β} {After : β → σ → Prop}
    (h : refused = false → Yields (f ()) s After) : Yields (refuse refused e >>= f) s After :=
  yields_check checks_refuse fun _ => h

theorem yields_keeps {f : α → Fallible σ ε β} {After : β → σ → Prop} (h : Keeps Inv m) (hInv : Inv s)
    (hNext : ∀ a s', Inv s' → Yields (f a) s' After) : Yields (m >>= f) s After :=
  sat_bind ((h s hInv).mono hNext fun _ _ => trivial)

/-- What is read off a result. -/
theorem Yields.elim {a : α} {s' : σ} (h : Yields m s Done) (hResult : m s = (.ok a, s')) : Done a s' := by
  unfold Yields Sat at h
  rw [hResult] at h
  exact h

/-! ### Nothing changed by what fails -/

/-- `m` fails only by a fault, or having changed nothing. -/
def Clean (fault : ε → Prop) (m : Fallible σ ε α) (s : σ) (Done : α → σ → Prop) : Prop :=
  match m s with
  | (.ok a, s') => Done a s'
  | (.error e, s') => fault e ∨ s' = s

/-- `m` fails only by a fault. -/
def Sure (fault : ε → Prop) (m : Fallible σ ε α) (s : σ) (Done : α → σ → Prop) : Prop :=
  match m s with
  | (.ok a, s') => Done a s'
  | (.error e, _) => fault e

variable {fault : ε → Prop}

theorem Sure.clean (h : Sure fault m s Done) : Clean fault m s Done := by
  unfold Sure at h
  unfold Clean
  generalize m s = result at *
  rcases result with ⟨e | a, s'⟩
  · exact .inl h
  · exact h

theorem Sure.mono (h : Sure fault m s Done) (hDone : ∀ a s, Done a s → Done' a s) :
    Sure fault m s Done' := by
  unfold Sure at *
  generalize m s = result at *
  rcases result with ⟨e | a, s'⟩
  · exact h
  · exact hDone a s' h

/-- An error that is no fault came before anything changed. -/
theorem Clean.unchanged (h : Clean fault m s Done) {e : ε} (hError : (m s).1 = .error e)
    (hFault : ¬ fault e) : (m s).2 = s := by
  unfold Clean at h
  generalize m s = result at *
  obtain ⟨_, s'⟩ := result
  obtain rfl : _ = Except.error e := hError
  exact h.resolve_left hFault

theorem clean_pure {a : α} (h : Done a s) : Clean fault (pure a) s Done := h

theorem clean_fail {e : ε} : Clean fault (fail e) s Done := .inr rfl

theorem clean_read {f : σ → Fallible σ ε β} {Done : β → σ → Prop} (h : Clean fault (f s) s Done) :
    Clean fault (read >>= f) s Done := h

theorem clean_refuse {refused : Bool} {e : ε} {f : Unit → Fallible σ ε β} {Done : β → σ → Prop}
    (h : refused = false → Clean fault (f ()) s Done) :
    Clean fault (refuse refused e >>= f) s Done := by
  cases refused with
  | true => exact .inr rfl
  | false => exact h rfl

/-- After a check. -/
theorem clean_bind_check {f : α → Fallible σ ε β} {P : α → Prop} {Done : β → σ → Prop}
    (h : Checks m s P) (hNext : ∀ a, P a → Clean fault (f a) s Done) :
    Clean fault (m >>= f) s Done := by
  unfold Checks Sat at h
  unfold Clean
  show match (match m s with
    | (.ok a, s) => f a s
    | (.error e, s) => (.error e, s)) with
    | (.ok a, s') => Done a s'
    | (.error e, s') => fault e ∨ s' = s
  generalize m s = result at *
  rcases result with ⟨e | a, s'⟩
  · exact .inr h
  · obtain ⟨rfl, hP⟩ := h
    exact hNext a hP

/-- After a check that is made only sometimes. -/
theorem clean_when {c : Prop} [Decidable c] {m : Fallible σ ε Unit} {f : Unit → Fallible σ ε β}
    {Done : β → σ → Prop} (h : Checks m s fun _ => True) (hNext : Clean fault (f ()) s Done) :
    Clean fault (if c then m >>= f else f ()) s Done := by
  split
  · exact clean_bind_check h fun _ _ => hNext
  · exact hNext

/-- Once nothing is refused any more. -/
theorem clean_bind_sure {f : α → Fallible σ ε β} {Done' : β → σ → Prop} (h : Clean fault m s Done)
    (hNext : ∀ a s', Done a s' → Sure fault (f a) s' Done') : Clean fault (m >>= f) s Done' := by
  unfold Clean at *
  show match (match m s with
    | (.ok a, s) => f a s
    | (.error e, s) => (.error e, s)) with
    | (.ok a, s') => Done' a s'
    | (.error e, s') => fault e ∨ s' = s
  generalize m s = result at *
  rcases result with ⟨e | a, s'⟩
  · exact h
  · have hSure := hNext a s' h
    unfold Sure at hSure
    show match f a s' with
      | (.ok a, s') => Done' a s'
      | (.error e, s') => fault e ∨ s' = s
    generalize f a s' = result at *
    rcases result with ⟨e | b, s''⟩
    · exact .inl hSure
    · exact hSure

theorem sure_pure {a : α} (h : Done a s) : Sure fault (pure a) s Done := h

theorem sure_read {f : σ → Fallible σ ε β} {Done : β → σ → Prop} (h : Sure fault (f s) s Done) :
    Sure fault (read >>= f) s Done := h

theorem sure_modify {f : σ → σ} {Done : Unit → σ → Prop} (h : Done () (f s)) :
    Sure fault (modify f) s Done := h

theorem sure_refuse {refused : Bool} {e : ε} {f : Unit → Fallible σ ε β} {Done : β → σ → Prop}
    (hPass : refused = false) (h : Sure fault (f ()) s Done) :
    Sure fault (refuse refused e >>= f) s Done := by
  subst hPass
  exact h

theorem sure_bind {f : α → Fallible σ ε β} {Done' : β → σ → Prop} (h : Sure fault m s Done)
    (hNext : ∀ a s', Done a s' → Sure fault (f a) s' Done') : Sure fault (m >>= f) s Done' := by
  unfold Sure at *
  show match (match m s with
    | (.ok a, s) => f a s
    | (.error e, s) => (.error e, s)) with
    | (.ok a, s') => Done' a s'
    | (.error e, _) => fault e
  generalize m s = result at *
  rcases result with ⟨e | a, s'⟩
  · exact h
  · exact hNext a s' h

/-- After a step of which only that it is done matters. -/
theorem sure_then {f : α → Fallible σ ε β} {Done : β → σ → Prop} (h : Sure fault m s fun _ _ => True)
    (hNext : ∀ a s', Sure fault (f a) s' Done) : Sure fault (m >>= f) s Done :=
  sure_bind h fun a s' _ => hNext a s'

/-- After a step that is known to pass. -/
theorem sure_of_ok {f : α → Fallible σ ε β} {Done : β → σ → Prop} {a : α} {s' : σ}
    (hPass : m s = (.ok a, s')) (h : Sure fault (f a) s' Done) : Sure fault (m >>= f) s Done := by
  unfold Sure
  rw [bind_of_ok hPass]
  exact h

theorem sure_forM {f : α → Fallible σ ε PUnit} (Inv : List α → σ → Prop) (items : List α)
    (hRound : ∀ a rest s, Inv (a :: rest) s → Sure fault (f a) s fun _ s => Inv rest s)
    (h : Inv items s) : Sure fault (items.forM f) s fun _ s => Inv [] s := by
  induction items generalizing s with
  | nil => exact h
  | cons a items ih => exact sure_bind (hRound a items s h) fun _ s hInv => ih hInv

end

end Fallible

end Lib
