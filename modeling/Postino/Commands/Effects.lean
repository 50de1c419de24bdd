import Postino.Commands.Dispatch
import Postino.Commands.Seats

/-!
# What a command may change

`Steps W C m`: however `m` ends, the keys outside `W` hold what they held, those in `W`
changed as `C` allows, and nothing is marked as changed when no key is in `W`. The rules
follow a command step by step, down to `steps_edit` for a value changed where it is.

* `Leeway.shrinks` — less of what a key held, or the same;
* `Leeway.becomes` — what the key held, or a value of one sort;
* `Leeway.streams` — a stream only where there was one, which it goes on from.
-/

namespace Postino

open Lib

/-! ## What is left of a value -/

namespace Value

/-- How many elements a collection holds, or entries a stream; a string holds none. -/
def elements : Value → Nat
  | string _ => 0
  | list l => l.length
  | hash h => h.size
  | set s => s.size
  | zset z => z.len
  | stream s => s.entries.size

/-- Something counted of a stream; other values have none. -/
def of_stream (count : Stream → Nat) : Value → Nat
  | stream s => count s
  | _ => 0

def groups : Value → Nat := of_stream fun s => s.groups.size
def consumers : Value → Nat := of_stream fun s => BTreeMap.total (fun g => g.consumers.size) s.groups
def pending : Value → Nat := of_stream fun s => BTreeMap.total (fun g => g.pending.size) s.groups

theorem consumers_stream (s : Stream) :
    (stream s).consumers = BTreeMap.total (fun g => g.consumers.size) s.groups := rfl

theorem pending_stream (s : Stream) :
    (stream s).pending = BTreeMap.total (fun g => g.pending.size) s.groups := rfl

/-- `w` is less of `v`, or the same: it holds no more of anything, and a stream goes on
from a stream. -/
structure Less (v w : Value) : Prop where
  elements : w.elements ≤ v.elements
  groups : w.groups ≤ v.groups
  consumers : w.consumers ≤ v.consumers
  pending : w.pending ≤ v.pending
  stream : ∀ t, w = .stream t → ∃ s, v = .stream s ∧ s.Onward t

theorem Less.refl (v : Value) : v.Less v :=
  ⟨le_rfl, le_rfl, le_rfl, le_rfl, fun t h => ⟨t, h, Stream.Onward.refl t⟩⟩

theorem Less.trans {u v w : Value} (h : u.Less v) (h' : v.Less w) : u.Less w where
  elements := h'.elements.trans h.elements
  groups := h'.groups.trans h.groups
  consumers := h'.consumers.trans h.consumers
  pending := h'.pending.trans h.pending
  stream t ht := by
    obtain ⟨s, hs, hOn⟩ := h'.stream t ht
    obtain ⟨r, hr, hOn'⟩ := h.stream s hs
    exact ⟨r, hr, hOn'.trans hOn⟩

/-- Whether a value is a stream. -/
def is_stream : Value → Bool
  | stream _ => true
  | _ => false

/-- No more elements, of what is no stream. -/
theorem less_of_elements {v w : Value} (hW : w.is_stream = false)
    (h : w.elements ≤ v.elements) : v.Less w := by
  have hNone (count : Stream → Nat) : w.of_stream count ≤ v.of_stream count := by
    cases w with
    | stream s => cases hW
    | _ => exact Nat.zero_le _
  refine ⟨h, hNone _, hNone _, hNone _, fun t ht => ?_⟩
  subst ht
  cases hW

end Value

/-! ## How a key may change -/

/-- How what is under a key may change. Any key may lose it. -/
structure Leeway where
  rel : Option Entry → Option Entry → Prop
  refl : ∀ o, rel o o
  trans : ∀ {a b c}, rel a b → rel b c → rel a c
  drop : ∀ o, rel o none

namespace Leeway

def any : Leeway := ⟨fun _ _ => True, fun _ => trivial, fun _ _ => trivial, fun _ => trivial⟩

/-- What is held is less of what was. -/
def shrinks : Leeway where
  rel o o' := ∀ e', o' = some e' → ∃ e, o = some e ∧ e.value.Less e'.value
  refl _ e' h := ⟨e', h, .refl _⟩
  trans h h' e hE := by
    obtain ⟨d, hD, hLess⟩ := h' e hE
    obtain ⟨c, hC, hLess'⟩ := h d hD
    exact ⟨c, hC, hLess'.trans hLess⟩
  drop _ _ h := nomatch h

/-- What is held is what was, or a value of which `P` is true. -/
def becomes (P : Value → Prop) : Leeway where
  rel o o' := ∀ e', o' = some e' → (∃ e, o = some e ∧ e.value = e'.value) ∨ P e'.value
  refl _ e' h := .inl ⟨e', h, rfl⟩
  trans h h' e hE := by
    rcases h' e hE with ⟨d, hD, hEq⟩ | hP
    · rw [← hEq]
      exact h d hD
    · exact .inr hP
  drop _ _ h := nomatch h

/-- What is held is what was, or no stream. -/
def stores : Leeway := becomes fun v => v.is_stream = false

/-- A stream is held only where one was, which it goes on from. -/
def streams : Leeway where
  rel o o' := ∀ e' t, o' = some e' → e'.value = .stream t →
    ∃ e s, o = some e ∧ e.value = .stream s ∧ s.Onward t
  refl _ e' t h hT := ⟨e', t, h, hT, .refl t⟩
  trans h h' e t hE hT := by
    obtain ⟨d, s, hD, hS, hOn⟩ := h' e t hE hT
    obtain ⟨c, r, hC, hR, hOn'⟩ := h d s hD hS
    exact ⟨c, r, hC, hR, hOn'.trans hOn⟩
  drop _ _ _ h := nomatch h

/-- One change is among others. -/
def Within (C D : Leeway) : Prop := ∀ o o', C.rel o o' → D.rel o o'

theorem within_any (C : Leeway) : C.Within any := fun _ _ _ => trivial

theorem shrinks_streams : shrinks.Within streams := fun o o' h e' t hE hT => by
  obtain ⟨e, hO, hLess⟩ := h e' hE
  obtain ⟨s, hS, hOn⟩ := hLess.stream t hT
  exact ⟨e, s, hO, hS, hOn⟩

theorem stores_streams : stores.Within streams := fun o o' h e' t hE hT => by
  rcases h e' hE with ⟨e, hO, hEq⟩ | hNot
  · exact ⟨e, t, hO, hEq.trans hT, .refl t⟩
  · rw [hT] at hNot
    cases hNot

end Leeway

/-- From `r` to `r'` the keys in `W` changed as `C` allows, and no others. -/
structure Changed (W : Set String) (C : Leeway) (r r' : Run) : Prop where
  within : ∀ key ∈ W, C.rel r.db.keys[key]? r'.db.keys[key]?
  frame : ∀ key ∉ W, r'.db.keys[key]? = r.db.keys[key]?
  dirty : r'.dirty ≠ r.dirty → W.Nonempty

instance (W : Set String) (C : Leeway) : IsPreorder Run (Changed W C) where
  refl r := ⟨fun _ _ => C.refl _, fun _ _ => rfl, fun h => absurd rfl h⟩
  trans r r' r'' h h' :=
    { within := fun key hKey => C.trans (h.within key hKey) (h'.within key hKey)
      frame := fun key hKey => (h'.frame key hKey).trans (h.frame key hKey)
      dirty := fun hNe => by
        by_cases hFirst : r'.dirty = r.dirty
        · exact h'.dirty fun hEq => hNe (hEq.trans hFirst)
        · exact h.dirty hFirst }

namespace Exec

open Fallible

variable {ε α β : Type}

/-- However `m` ends, the keys in `W` changed as `C` allows, and no others. -/
abbrev Steps (W : Set String) (C : Leeway) (m : Exec ε α) : Prop := Moves (Changed W C) m

variable {W : Set String} {C : Leeway}

theorem Steps.mono {W' : Set String} {C' : Leeway} {m : Exec ε α} (h : Steps W C m) (hW : W ⊆ W')
    (hC : C.Within C') : Steps W' C' m := fun r => by
  have hChanged := h r
  refine ⟨fun key _ => ?_, fun key hKey => hChanged.frame key fun h => hKey (hW h),
    fun hNe => (hChanged.dirty hNe).mono hW⟩
  by_cases hIn : key ∈ W
  · exact hC _ _ (hChanged.within key hIn)
  · rw [hChanged.frame key hIn]
    exact C'.refl _

/-! ## Steps that change nothing -/

/-- The keys and the mark are as they were. -/
theorem steps_of_same {m : Exec ε α} (h : ∀ r, (m r).2.db.keys = r.db.keys ∧ (m r).2.dirty = r.dirty) :
    Steps W C m := fun r => by
  obtain ⟨hKeys, hDirty⟩ := h r
  refine ⟨fun key _ => ?_, fun key _ => by rw [hKeys], fun hNe => absurd hDirty hNe⟩
  rw [hKeys]
  exact C.refl _

theorem steps_pure (a : α) : Steps W C (pure a : Exec ε α) := moves_pure a

theorem steps_fail (e : ε) : Steps W C (fail e : Exec ε α) := moves_fail e

theorem steps_refuse (refused : Bool) (e : ε) : Steps W C (refuse refused e : Exec ε Unit) :=
  moves_refuse refused e

theorem steps_bind {m : Exec ε α} {f : α → Exec ε β} (h : Steps W C m) (hNext : ∀ a, Steps W C (f a)) :
    Steps W C (m >>= f) := moves_bind h hNext

theorem steps_look (f : Db → α) : Steps W C (look f : Exec ε α) := steps_of_same fun _ => ⟨rfl, rfl⟩

theorem steps_attempt [Faults ε] (result : Except Fault α) : Steps W C (attempt result : Exec ε α) := by
  cases result with
  | ok a => exact steps_pure a
  | error f => exact steps_fail _

/-- What comes after a result, when it is one. -/
theorem steps_attempt_then [Faults ε] {result : Except Fault α} {f : α → Exec ε β}
    (h : ∀ a, result = .ok a → Steps W C (f a)) : Steps W C (attempt result >>= f) := by
  cases result with
  | ok a => exact h a rfl
  | error e => exact steps_fail _

theorem steps_require [Faults ε] (found : Option α) : Steps W C (require found : Exec ε α) := by
  cases found with
  | some a => exact steps_pure a
  | none => exact steps_fail _

theorem steps_reads [Faults ε] (f : Db → Except Fault α) : Steps W C (reads f : Exec ε α) := fun r =>
  steps_attempt (f r.db) r

theorem steps_within (result : Db → Except Error Unit) : Steps W C (within result) :=
  steps_of_same fun r => by
    unfold within
    split <;> exact ⟨rfl, rfl⟩

theorem steps_journal_as (commands : List (List String)) : Steps W C (journal_as commands : Exec ε Unit) :=
  steps_of_same fun _ => ⟨rfl, rfl⟩

theorem steps_block_on (block : Block) : Steps W C (block_on block : Exec ε Unit) :=
  steps_of_same fun _ => ⟨rfl, rfl⟩

/-- What comes after a check runs only when the check passes. -/
theorem steps_refuse_then {refused : Bool} {e : ε} {m : Exec ε α} (h : refused = false → Steps W C m) :
    Steps W C (refuse refused e >>= fun _ => m) := by
  cases refused with
  | true => exact steps_fail e
  | false => exact h rfl

theorem steps_provided {c : Bool} {m : Exec ε Unit} (h : Steps W C m) : Steps W C (provided c m) := by
  cases c with
  | true => exact h
  | false => exact steps_pure ()

theorem steps_wait (ctx : Ctx) (argv : List String) (timeout_ms : Nat) :
    Steps W C (wait ctx argv timeout_ms : Exec ε Unit) := by
  unfold wait
  split
  · exact steps_block_on _
  · exact steps_pure ()

/-! ## Steps on a key -/

variable {key : String} (hKey : key ∈ W)

include hKey

theorem steps_touch (ctx : Ctx) (event : String) : Steps W C (touch ctx key event : Exec ε Unit) :=
  fun _ => ⟨fun _ _ => C.refl _, fun _ _ => rfl, fun _ => ⟨key, hKey⟩⟩

theorem steps_mark : Steps W C (mark : Exec ε Unit) :=
  fun _ => ⟨fun _ _ => C.refl _, fun _ _ => rfl, fun _ => ⟨key, hKey⟩⟩

/-- A change of the keyspace that leaves the other keys alone. -/
theorem steps_change {f : Db → Db} (hFrame : ∀ db k, k ≠ key → (f db).keys[k]? = db.keys[k]?)
    (h : ∀ db, C.rel db.keys[key]? (f db).keys[key]?) : Steps W C (change f : Exec ε Unit) := by
  refine moves_modify fun r => ⟨fun k _ => ?_, fun k hOut => hFrame r.db k fun hEq => hOut (hEq ▸ hKey),
    fun hNe => absurd rfl hNe⟩
  by_cases hEq : k = key
  · subst hEq
    exact h r.db
  · show C.rel r.db.keys[k]? (f r.db).keys[k]?
    rw [hFrame r.db k hEq]
    exact C.refl _

end Exec

/-! ## The keyspace's own operations -/

section

variable [Json]

namespace Db

@[simp] theorem keys_preserve (db : Db) (key : String) : (db.preserve key).keys = db.keys := by
  unfold preserve
  split
  · rfl
  · split
    · rfl
    · dsimp only
      split <;> rfl

theorem keys_insert (db : Db) (key : String) (e : Entry) : (db.insert key e).keys = db.keys.insert key e := by
  simp [insert]

omit [Json] in
theorem keys_put (db : Db) (key : String) (e : Entry) : (db.put key e).keys = db.keys.insert key e := rfl

theorem keys_take (db : Db) (key : String) : (db.take key).2.keys = db.keys.erase key := by
  simp [take]

theorem take_fst (db : Db) (key : String) : (db.take key).1 = db.keys[key]? := by
  simp [take]

theorem keys_delete (db : Db) (key : String) (now : Nat) : (db.delete key now).2.keys = db.keys.erase key := by
  unfold delete
  rcases hTake : db.take key with ⟨_ | e, db'⟩
  · rw [← keys_take, hTake]
  · rw [← keys_take, hTake]

theorem keys_remove (db : Db) (key : String) (now : Nat) : (db.remove key now).2.keys = db.keys.erase key := by
  simp [remove, take]

omit [Json] in
theorem keys_deadline (db : Db) (key : String) (at_ : Nat) : (db.deadline key at_).keys = db.keys := by
  unfold deadline
  dsimp only
  split <;> rfl

omit [Json] in
@[simp] theorem keys_note (db : Db) (key : String) (expires : Option Nat) : (db.note key expires).keys = db.keys := by
  cases expires with
  | none => rfl
  | some at_ => exact keys_deadline db key at_

theorem keys_replace (db : Db) (key : String) (e : Entry) :
    (db.replace key e).2.keys = if db.keys.contains key then db.keys.insert key e else db.keys := by
  unfold replace
  dsimp only
  rw [keys_preserve]
  split
  · next held hGet => rw [if_pos ((BTreeMap.contains_iff_get _ _).mpr ⟨held, hGet⟩)]
  · next hGet =>
    have hNot : db.keys.contains key = false := by
      rw [← Bool.not_eq_true, BTreeMap.contains_iff_get, hGet]
      exact fun ⟨_, hSome⟩ => nomatch hSome
    rw [hNot]
    exact keys_preserve db key

theorem keys_prune (db : Db) (key : String) :
    (db.prune key).keys =
      if (db.keys[key]?).any (·.value.is_empty_collection) then db.keys.erase key else db.keys := by
  unfold prune
  cases hGet : db.keys[key]? with
  | none => rfl
  | some e =>
    dsimp only [Option.any]
    split
    · exact keys_take db key
    · rfl

omit [Json] in
/-- A live key is held. -/
theorem held_of_get {db : Db} {key : String} {now : Nat} {e : Entry} (h : db.get key now = some e) :
    db.keys[key]? = some e ∧ e.expired now = false := by
  obtain ⟨hGet, hLive⟩ := Option.filter_eq_some_iff.mp h
  exact ⟨hGet, by simpa using hLive⟩

theorem get_mut_of_live {db : Db} {key : String} {now : Nat} {e : Entry} (h : db.get key now = some e) :
    db.get_mut key now = (some e, db.preserve key) := by
  obtain ⟨hGet, hLive⟩ := held_of_get h
  simp [get_mut, hGet, hLive]

/-- Of a key that is not live nothing is left. -/
theorem get_mut_of_none {db : Db} {key : String} {now : Nat} (h : db.get key now = none) :
    (db.get_mut key now).1 = none ∧ (db.get_mut key now).2.keys = db.keys.erase key := by
  cases hGet : db.keys[key]? with
  | none => simp [get_mut, hGet, BTreeMap.erase_of_get_none _ hGet]
  | some e =>
    have hExpired : e.expired now = true := by
      simpa [get, hGet, Option.filter] using h
    simp [get_mut, hGet, hExpired]

/-- What a live key holds is changed where it is, and keeps its expiry. -/
theorem keys_update {db : Db} {key : String} {now : Nat} {e : Entry} (h : db.get key now = some e)
    (value : Value) : (db.update key now value).keys = db.keys.insert key { e with value } := by
  simp [update, get_mut_of_live h, put]

end Db

omit [Json] in
/-- What a typed reference finds is under the key. -/
theorem typed_ref_some {T : Type} {K : Typed T} {db : Db} {key : String} {now : Nat} {v : T}
    (h : typed_ref K db key now = .ok (some v)) :
    ∃ e, db.get key now = some e ∧ e.value = K.of_ v := by
  unfold typed_ref at h
  split at h
  · cases h
  · next e hGet =>
    split at h
    · next hValue =>
      cases h
      exact ⟨e, hGet, (K.value_eq _ _).mp hValue⟩
    · cases h

omit [Json] in
theorem typed_ref_none {T : Type} {K : Typed T} {db : Db} {key : String} {now : Nat}
    (h : typed_ref K db key now = .ok none) : db.get key now = none := by
  unfold typed_ref at h
  split at h
  · assumption
  · split at h <;> cases h

omit [Json] in
/-- A typed reference fails where something of another kind is. -/
theorem typed_ref_error {T : Type} {K : Typed T} {db : Db} {key : String} {now : Nat} {f : Fault}
    (h : typed_ref K db key now = .error f) :
    f = WRONGTYPE ∧ ∃ e, db.get key now = some e ∧ K.value e.value = none := by
  unfold typed_ref at h
  split at h
  · cases h
  · next e hGet =>
    split at h
    · cases h
    · next hValue =>
      cases h
      exact ⟨rfl, e, hGet, hValue⟩

namespace Exec

open Fallible

variable {ε α β : Type} {W : Set String} {C : Leeway} {key : String} (hKey : key ∈ W)

include hKey

theorem steps_take_key : Steps W C (change fun db => (db.take key).2 : Exec ε Unit) :=
  steps_change hKey (fun db k hNe => by rw [Db.keys_take, BTreeMap.get_erase_ne _ hNe.symm]) fun db => by
    rw [Db.keys_take, BTreeMap.get_erase, if_pos rfl]
    exact C.drop _

theorem steps_delete (now : Nat) : Steps W C (change fun db => (db.delete key now).2 : Exec ε Unit) :=
  steps_change hKey (fun db k hNe => by rw [Db.keys_delete, BTreeMap.get_erase_ne _ hNe.symm]) fun db => by
    rw [Db.keys_delete, BTreeMap.get_erase, if_pos rfl]
    exact C.drop _

theorem steps_prune : Steps W C (prune key : Exec ε Unit) := by
  refine steps_change hKey (fun db k hNe => ?_) fun db => ?_
  · rw [Db.keys_prune]
    split
    · exact BTreeMap.get_erase_ne _ hNe.symm
    · rfl
  · rw [Db.keys_prune]
    split
    · rw [BTreeMap.get_erase, if_pos rfl]
      exact C.drop _
    · exact C.refl _

/-- Whatever is put under the key is allowed there. -/
theorem steps_insert {e : Entry} (h : ∀ o, C.rel o (some e)) : Steps W C (change (·.insert key e) : Exec ε Unit) :=
  steps_change hKey (fun db k hNe => by rw [Db.keys_insert, BTreeMap.get_insert_ne _ _ hNe.symm]) fun db => by
    rw [Db.keys_insert, BTreeMap.get_insert, if_pos rfl]
    exact h _

/-- What replaces whatever the key holds is allowed there. -/
theorem steps_replace {e : Entry} (h : ∀ o, C.rel o (some e)) :
    Steps W C (change fun db => (db.replace key e).2 : Exec ε Unit) := by
  refine steps_change hKey (fun db k hNe => ?_) fun db => ?_
  · rw [Db.keys_replace]
    split
    · exact BTreeMap.get_insert_ne _ _ hNe.symm
    · rfl
  · rw [Db.keys_replace]
    split
    · rw [BTreeMap.get_insert, if_pos rfl]
      exact h _
    · exact C.refl _

theorem steps_get_mut (ctx : Ctx) : Steps W C (get_mut ctx key : Exec ε (Option Entry)) := fun r => by
  have hKeys : ∀ k : String, (r.db.get_mut key ctx.now).2.keys[k]? = r.db.keys[k]? ∨
      (k = key ∧ (r.db.get_mut key ctx.now).2.keys[k]? = none) := by
    intro k
    cases hGet : r.db.get key ctx.now with
    | some e =>
      left
      rw [Db.get_mut_of_live hGet, Db.keys_preserve]
    | none =>
      rw [(Db.get_mut_of_none hGet).2, BTreeMap.get_erase]
      split
      · next hEq => exact .inr ⟨hEq.symm, rfl⟩
      · exact .inl rfl
  refine ⟨fun k _ => ?_, fun k hOut => ?_, fun hNe => absurd rfl hNe⟩
  · show C.rel _ (r.db.get_mut key ctx.now).2.keys[k]?
    rcases hKeys k with hSame | ⟨-, hNone⟩
    · rw [hSame]
      exact C.refl _
    · rw [hNone]
      exact C.drop _
  · rcases hKeys k with hSame | ⟨rfl, -⟩
    · exact hSame
    · exact absurd hKey hOut

/-- What is done with the entry of a live key, which is the one held. -/
theorem steps_get_mut_then {ctx : Ctx} {f : Option Entry → Exec ε β} (hNone : Steps W C (f none))
    (hSome : ∀ e r, r.db.keys[key]? = some e → Changed W C r (f (some e) r).2) :
    Steps W C (get_mut ctx key >>= f) := fun r => by
  refine moves_bind_from (steps_get_mut hKey ctx r) fun found r' hResult => ?_
  cases found with
  | none => exact hNone r'
  | some e =>
    refine hSome e r' ?_
    cases hGet : r.db.get key ctx.now with
    | none =>
      have hNot := (Db.get_mut_of_none hGet).1
      have hFound : (r.db.get_mut key ctx.now).1 = some e := by
        have hFst := congrArg Prod.fst hResult
        exact Except.ok.inj hFst
      rw [hNot] at hFound
      cases hFound
    | some held =>
      have hMut := Db.get_mut_of_live hGet
      unfold get_mut at hResult
      rw [hMut] at hResult
      cases hResult
      exact (congrArg (·[key]?) (Db.keys_preserve r.db key)).trans (Db.held_of_get hGet).1

omit [Json] in
/-- The entry held is given another expiry, or another value that is allowed there. -/
theorem changed_put {r : Run} {f : Db → Db} {e e' : Entry} (hGet : r.db.keys[key]? = some e)
    (hPut : (f r.db).keys = r.db.keys.insert key e') (h : C.rel (some e) (some e')) :
    Changed W C r ((change f : Exec ε Unit) r).2 := by
  refine ⟨fun k _ => ?_, fun k hOut => ?_, fun hNe => absurd rfl hNe⟩
  · show C.rel _ (f r.db).keys[k]?
    rw [hPut, BTreeMap.get_insert]
    split
    · next hEq =>
      rw [← hEq, hGet]
      exact h
    · exact C.refl _
  · show (f r.db).keys[k]? = _
    rw [hPut, BTreeMap.get_insert_ne _ _ fun hEq : key = k => hOut (hEq ▸ hKey)]

variable [Faults ε] {T : Type} (K : Typed T)

/-- The value is changed where it is. -/
theorem steps_edit {ctx : Ctx} {f : T → Except ε α × T}
    (h : ∀ v x, C.rel (some ⟨K.of_ v, x⟩) (some ⟨K.of_ (f v).2, x⟩)) : Steps W C (edit K ctx key f) := fun r => by
  unfold edit
  split
  · exact refl_of (Changed W C) r
  · exact refl_of (Changed W C) r
  · next v hRef =>
    obtain ⟨e, hGet, hValue⟩ := typed_ref_some hRef
    have hKeys := Db.keys_update hGet (K.of_ (f v).2)
    refine ⟨fun k _ => ?_, fun k hOut => ?_, fun hNe => absurd rfl hNe⟩
    · show C.rel _ (r.db.update key ctx.now _).keys[k]?
      rw [hKeys, BTreeMap.get_insert]
      split
      · next hEq =>
        rw [← hEq, (Db.held_of_get hGet).1]
        have hRel := h v e.expires
        rwa [← hValue] at hRel
      · exact C.refl _
    · show (r.db.update key ctx.now _).keys[k]? = _
      rw [hKeys, BTreeMap.get_insert_ne _ _ fun hEq : key = k => hOut (hEq ▸ hKey)]

omit [Faults ε] in
/-- The value is changed where it is, or made where there is none. -/
theorem steps_edit_or_create {ctx : Ctx} {f : T → Except Error α × T}
    (hNew : ∀ o, C.rel o (some ⟨K.of_ K.new, none⟩))
    (h : ∀ v x, C.rel (some ⟨K.of_ v, x⟩) (some ⟨K.of_ (f v).2, x⟩)) :
    Steps W C (edit_or_create K ctx key f) := fun r => by
  unfold edit_or_create
  split
  · split
    · exact refl_of (Changed W C) r
    · have hMade : Steps W C (change (·.insert key { value := K.of_ K.new }) : Exec Error Unit) :=
        steps_insert hKey hNew
      exact trans_of (Changed W C) (hMade r) (steps_edit hKey K h _)
  · exact steps_edit hKey K h r

/-- Elements are removed, and a collection that becomes empty goes. -/
theorem steps_remove_counted {ctx : Ctx} {event : String} {f : T → Nat × T}
    (h : ∀ v x, C.rel (some ⟨K.of_ v, x⟩) (some ⟨K.of_ (f v).2, x⟩)) :
    Steps W C (remove_counted K ctx key event f) := by
  refine steps_bind (steps_edit hKey K h) fun removed => ?_
  cases removed with
  | none => exact steps_pure _
  | some removed =>
    refine steps_bind (steps_prune hKey) fun _ => ?_
    exact steps_bind (steps_provided (steps_touch hKey ctx event)) fun _ => steps_pure _

end Exec

/-! ## What a step comes to -/

/-- What `key` is found to hold, with its expiry: a live value of the kind, or, where
nothing is live, a new one. -/
inductive Found {T : Type} (K : Typed T) (db : Db) (key : String) (now : Nat) : T → Option Nat → Prop
  | live {e : Entry} {v : T} (h : db.get key now = some e) (hValue : e.value = K.of_ v) :
    Found K db key now v e.expires
  | new (h : db.get key now = none) : Found K db key now K.new none

namespace Exec

open Fallible

section

omit [Json]

variable {ε α β : Type} {r : Run} {Done : β → Run → Prop} {Failed : Run → Prop}

theorem provided_touch_eq (c : Bool) (ctx : Ctx) (key event : String) (k : Unit → Exec ε β) (r : Run) :
    ∃ r', r'.db = r.db ∧ (provided c (touch ctx key event) >>= k) r = k () r' := by
  cases c with
  | true => exact ⟨((touch ctx key event : Exec ε Unit) r).2, rfl, rfl⟩
  | false => exact ⟨r, rfl, rfl⟩

theorem sat_look {f : Db → α} {k : α → Exec ε β} (h : Sat (k (f r.db)) r Done Failed) :
    Sat (look f >>= k) r Done Failed := h

section

variable {k : α → Exec ε β} [Faults ε]

theorem attempt_of_ok {result : Except Fault α} {a : α} (h : result = .ok a) : (attempt result >>= k) r = k a r := by
  rw [h]
  rfl

theorem attempt_of_error {result : Except Fault α} {f : Fault} (h : result = .error f) :
    (attempt result >>= k) r = (.error (Faults.said f), r) := by
  rw [h]
  rfl

theorem reads_of_ok {f : Db → Except Fault α} {a : α} (h : f r.db = .ok a) : (reads f >>= k) r = k a r := by
  have hAttempt : (reads f >>= k) r = (attempt (f r.db) >>= k) r := rfl
  rw [hAttempt, attempt_of_ok h]

theorem reads_of_error {f : Db → Except Fault α} {fault : Fault} (h : f r.db = .error fault) :
    (reads f >>= k) r = (.error (Faults.said fault), r) := by
  have hAttempt : (reads f >>= k) r = (attempt (f r.db) >>= k) r := rfl
  rw [hAttempt, attempt_of_error h]

theorem sat_attempt {result : Except Fault α} (hFail : Failed r)
    (h : ∀ a, result = .ok a → Sat (k a) r Done Failed) : Sat (attempt result >>= k) r Done Failed := by
  cases result with
  | ok a => exact h a rfl
  | error f => exact hFail

theorem sat_reads {f : Db → Except Fault α} (hFail : Failed r)
    (h : ∀ a, f r.db = .ok a → Sat (k a) r Done Failed) : Sat (reads f >>= k) r Done Failed := by
  have hAttempt : Sat (attempt (f r.db) >>= k) r Done Failed := sat_attempt hFail h
  exact hAttempt

end

section

variable {result : Db → Except Error Unit} {k : Unit → Exec Error β}

theorem within_of_ok (h : result r.db = .ok ()) : (within result >>= k) r = k () r := by
  refine bind_of_ok ?_
  unfold within
  rw [h]

theorem within_of_error {e : Error} (h : result r.db = .error e) : (within result >>= k) r = (.error e, r) := by
  refine bind_of_error ?_
  unfold within
  rw [h]

end

end

variable {ε α β : Type} {r : Run} {Done : β → Run → Prop} {Failed : Run → Prop} {T : Type} (K : Typed T)

/-- `edit` fails, finds nothing, or changes the live value where it is. -/
theorem edit_cases [Faults ε] (ctx : Ctx) (key : String) (f : T → Except ε α × T) (r : Run) :
    (∃ fault, typed_ref K r.db key ctx.now = .error fault ∧ edit K ctx key f r = (.error (Faults.said fault), r)) ∨
    (r.db.get key ctx.now = none ∧ edit K ctx key f r = (.ok none, r)) ∨
    ∃ e v db, r.db.get key ctx.now = some e ∧ e.value = K.of_ v ∧
      db.keys = r.db.keys.insert key { e with value := K.of_ (f v).2 } ∧
      edit K ctx key f r = ((f v).1.map some, { r with db }) := by
  cases hRef : typed_ref K r.db key ctx.now with
  | error fault => exact .inl ⟨fault, rfl, by simp only [edit, hRef]⟩
  | ok found =>
    cases found with
    | none => exact .inr (.inl ⟨typed_ref_none hRef, by simp only [edit, hRef]⟩)
    | some v =>
      obtain ⟨e, hGet, hValue⟩ := typed_ref_some hRef
      exact .inr (.inr ⟨e, v, _, hGet, hValue, Db.keys_update hGet (K.of_ (f v).2), by simp only [edit, hRef]⟩)

/-- `edit_or_create` fails, or changes what it finds. -/
theorem edit_or_create_cases (ctx : Ctx) (key : String) (f : T → Except Error α × T) (r : Run) :
    (∃ fault, typed_ref K r.db key ctx.now = .error fault ∧
      edit_or_create K ctx key f r = (.error (.fault fault), r)) ∨
    (∃ e, r.db.get key ctx.now = none ∧ admit_ r.db key ctx = .error e ∧
      edit_or_create K ctx key f r = (.error e, r)) ∨
    ∃ v x db, Found K r.db key ctx.now v x ∧ db.keys = r.db.keys.insert key ⟨K.of_ (f v).2, x⟩ ∧
      edit_or_create K ctx key f r = ((f v).1.map some, { r with db }) := by
  by_cases hNone : typed_ref K r.db key ctx.now = .ok none
  · cases hAdmit : admit_ r.db key ctx with
    | error e => exact .inr (.inl ⟨e, typed_ref_none hNone, rfl, by simp only [edit_or_create, hNone, hAdmit]⟩)
    | ok _ =>
      -- the new value is live, and changed like one that was there
      set created : Run := { r with db := r.db.insert key { value := K.of_ K.new } } with hCreated
      have hEdit : edit_or_create K ctx key f r = edit K ctx key f created := by
        simp only [edit_or_create, hNone, hAdmit, hCreated]
      have hGet : created.db.get key ctx.now = some { value := K.of_ K.new } := by
        unfold Db.get
        rw [hCreated, Db.keys_insert, BTreeMap.get_insert, if_pos rfl]
        rfl
      have hValueNew : K.value (K.of_ K.new) = some K.new := (K.value_eq _ _).mpr rfl
      rcases edit_cases K ctx key f created with ⟨fault, hRef, -⟩ | ⟨hNot, -⟩ | ⟨e, v, db, hFound, hValue, hKeys, hRun⟩
      · simp only [typed_ref, hGet, hValueNew] at hRef
        cases hRef
      · rw [hGet] at hNot
        cases hNot
      · obtain rfl : { value := K.of_ K.new } = e := Option.some.inj (hGet.symm.trans hFound)
        obtain rfl : K.new = v := Option.some.inj (hValueNew.symm.trans ((K.value_eq _ _).mpr hValue))
        refine .inr (.inr ⟨_, none, db, .new (typed_ref_none hNone), ?_, hEdit.trans hRun⟩)
        rw [hKeys, hCreated, Db.keys_insert, BTreeMap.insert_insert]
  · have hEdit : edit_or_create K ctx key f r = edit K ctx key f r := by
      unfold edit_or_create
      split
      · next h => exact absurd h hNone
      · rfl
    rcases edit_cases K ctx key f r with ⟨fault, hRef, hRun⟩ | ⟨hGet, -⟩ | ⟨e, v, db, hGet, hValue, hKeys, hRun⟩
    · exact .inl ⟨fault, hRef, hEdit.trans hRun⟩
    · exact absurd (by rw [typed_ref, hGet]) hNone
    · exact .inr (.inr ⟨v, e.expires, db, .live hGet hValue, hKeys, hEdit.trans hRun⟩)

omit [Json] in
theorem sat_returned_map {result : Except ε α} {k : Option α → Exec ε β}
    (h : Sat (returned result >>= fun a => k (some a)) r Done Failed) :
    Sat (returned (result.map some) >>= k) r Done Failed := by
  cases result with
  | ok a => exact h
  | error e => exact h

theorem sat_edit [Faults ε] {ctx : Ctx} {key : String} {f : T → Except ε α × T} {k : Option α → Exec ε β}
    (hFail : (∃ e, typed_ref K r.db key ctx.now = .error e) → Failed r)
    (hNone : r.db.get key ctx.now = none → Sat (k none) r Done Failed)
    (hSome : ∀ e v db, r.db.get key ctx.now = some e → e.value = K.of_ v →
      db.keys = r.db.keys.insert key { e with value := K.of_ (f v).2 } →
      Sat (returned (f v).1 >>= fun a => k (some a)) { r with db } Done Failed) :
    Sat (edit K ctx key f >>= k) r Done Failed := by
  rcases edit_cases K ctx key f r with ⟨fault, hRef, hRun⟩ | ⟨hGet, hRun⟩ | ⟨e, v, db, hGet, hValue, hKeys, hRun⟩
  · exact @sat_bind_eq _ _ _ _ _ _ _ _ _ (returned (.error (Faults.said fault))) _ hRun (hFail ⟨fault, hRef⟩)
  · exact @sat_bind_eq _ _ _ _ _ _ _ _ _ (returned (.ok none)) _ hRun (hNone hGet)
  · exact @sat_bind_eq _ _ _ _ _ _ _ _ _ (returned _) _ hRun (sat_returned_map (hSome e v db hGet hValue hKeys))

theorem sat_edit_or_create {ctx : Ctx} {key : String} {f : T → Except Error α × T}
    {k : Option α → Exec Error β} (hFail : Failed r)
    (hSome : ∀ v x db, Found K r.db key ctx.now v x →
      db.keys = r.db.keys.insert key ⟨K.of_ (f v).2, x⟩ →
      Sat (returned (f v).1 >>= fun a => k (some a)) { r with db } Done Failed) :
    Sat (edit_or_create K ctx key f >>= k) r Done Failed := by
  rcases edit_or_create_cases K ctx key f r with
    ⟨fault, -, hRun⟩ | ⟨e, -, -, hRun⟩ | ⟨v, x, db, hFound, hKeys, hRun⟩
  · exact @sat_bind_eq _ _ _ _ _ _ _ _ _ (returned (.error (.fault fault))) _ hRun hFail
  · exact @sat_bind_eq _ _ _ _ _ _ _ _ _ (returned (.error e)) _ hRun hFail
  · exact @sat_bind_eq _ _ _ _ _ _ _ _ _ (returned _) _ hRun (sat_returned_map (hSome v x db hFound hKeys))

end Exec

end

end Postino
