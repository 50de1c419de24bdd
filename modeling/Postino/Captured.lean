import Postino.Db.Snapshot

/-!
# A map captured while it changes

A map of rooms or of messages that a snapshot writes out as it was at one moment, a
run of values at a time. Every change goes through a function here that first lets the
capture write what is about to change. A capture has a bound, the last key when it
began, and is ended by being drained once every value is written.

* `Change` — what may be done to the map, and `Captured.Op`, what may happen meanwhile;
* `Capturing.change`, `Capturing.step` — what a change and a run of the capture keep;
* `Capturing.drain` — what is handed out;
* `captured_exact` — what was handed out by the time the capture is over.
-/

namespace Postino

open Lib

/-- The JSON text of a value; `none` when the serializer fails. -/
class Serialize (V : Type) where
  text : V → Option Bytes

/-- The serializer never fails. -/
def Serialize.Total (V : Type) [Serialize V] : Prop := ∀ v : V, (Serialize.text v).isSome

namespace Captured

/-- The values as they were when it began, as JSON array elements. -/
structure Capture (K : Type) [LinearOrder K] where
  /-- The last key when the capture began: any key after it is new since. With none,
  there is nothing to write. -/
  bound : Option K
  /-- The last key written in order; keys up to it are done. -/
  cursor : Option K
  /-- Keys written out of order because they were about to change, or noted as new
  then: the in-order pass skips them. -/
  early : BTreeSet K
  /-- Complete parts not yet handed out, and the one being filled. -/
  parts : List Bytes
  out : Bytes
  /-- Bytes moved from `out` to `parts` so far. -/
  filled : Nat
  written : Nat
  done : Bool
  broken : Bool

end Captured

structure Captured (K V : Type) [LinearOrder K] where
  map : BTreeMap K V := ∅
  capture : Option (Captured.Capture K) := none

namespace Captured

variable {K V : Type} [LinearOrder K]

namespace Capture

def size (c : Capture K) : Nat := c.filled + c.out.length

def passed (c : Capture K) (key : K) : Bool :=
  c.done || c.bound.all (fun bound => key > bound) || c.cursor.any fun cursor => key ≤ cursor

/-- Moves a full part out of the way. -/
def split_part (c : Capture K) : Capture K :=
  if CAPTURE_PART ≤ c.out.length then
    { c with filled := c.filled + c.out.length, parts := c.parts ++ [c.out], out := [] }
  else c

variable [Serialize V]

def write (c : Capture K) (value : V) : Capture K :=
  let c := c.split_part
  let out := if c.written > 0 then c.out ++ [','.toUInt8] else c.out
  match Serialize.text value with
  | some text => { c with out := out ++ text, written := c.written + 1 }
  -- what was begun is cut off again
  | none => { c with broken := true }

/-- Writes values in order until `budget` bytes are written since `start`, or the run
ends. Also returns the last key it came to. A budget of `usize::MAX` is `⊤`: no memory
holds that many bytes. -/
def write_run (start : Nat) (budget : WithTop Nat) :
    List (K × V) → Option K → Capture K → Option K × Capture K
  | [], last, c =>
    if ((c.size - start : Nat) : WithTop Nat) < budget then (last, { c with done := true })
    else (last, c)
  | (key, value) :: run, last, c =>
    if ((c.size - start : Nat) : WithTop Nat) < budget then
      if key ∈ c.early then
        write_run start budget run (some key) { c with early := c.early.erase key }
      else write_run start budget run (some key) (c.write value)
    else (last, c)

/-- The values the capture has not come to, in order. -/
def range (c : Capture K) (map : BTreeMap K V) (bound : K) : List (K × V) :=
  (match c.cursor with
    | some cursor => map.above cursor
    | none => map.toList).filter fun e => e.1 ≤ bound

end Capture

variable [Serialize V]

/-! ## The capture -/

/-- Before `key` changes: a capture that has not reached it writes it now, as it was
when the capture began, or notes that it did not exist. -/
def preserve (m : Captured K V) (key : K) : Captured K V :=
  match m.capture with
  | none => m
  | some c =>
    if c.passed key || c.early.contains key then m
    else
      let c := { c with early := c.early.insert key }
      match m.map[key]? with
      | some value => { m with capture := some (c.write value) }
      | none => { m with capture := some c }

/-- Starts a capture of the values as they are now, after `out`, which holds what comes
before them. -/
def begin_capture (m : Captured K V) (out : Bytes) : Captured K V :=
  let bound := m.map.toList.getLast?.map Prod.fst
  let capture : Captured.Capture K :=
    { done := bound.isNone, bound, cursor := none, early := ∅, parts := [], out, filled := 0
      written := 0, broken := false }
  { m with capture := some capture }

/-- Writes the next run of values, about `budget` bytes of them. Returns whether every
value is written. -/
def capture_step (m : Captured K V) (budget : WithTop Nat) : Bool × Captured K V :=
  match m.capture with
  | none => (true, m)
  | some c =>
    if c.done then (true, m)
    else
      match c.bound with
      | none => (true, { m with capture := some { c with done := true } })
      | some bound =>
        let (last, c) := c.write_run c.size budget (c.range m.map bound) none
        let c := match last with
          | some key => { c with cursor := some key }
          | none => c
        (c.done, { m with capture := some c })

/-- Ends the capture, writing whatever it has not reached, and returns what of it was
not handed out yet. -/
def end_capture (m : Captured K V) : Except String (List Bytes) × Captured K V :=
  let (_, m) := m.capture_step ⊤
  match m.capture with
  | none => (.ok [], m)
  | some c =>
    let m := { m with capture := none }
    if c.broken then (.error "a value could not be serialized", m)
    else (.ok (c.parts ++ [c.out]), m)

/-- The parts of the capture ready to be written out, and whether it is over: once
every value is written, the rest of it comes too, and the capture ends. -/
def drain_capture (m : Captured K V) : Except String (List Bytes × Bool) × Captured K V :=
  match m.capture with
  | none => (.ok ([], true), m)
  | some c =>
    if !c.done then (.ok (c.parts, false), { m with capture := some { c with parts := [] } })
    else
      match m.end_capture with
      | (.ok parts, m) => (.ok (parts, true), m)
      | (.error e, m) => (.error e, m)

/-! ## Changing values -/

/-- `get_mut`, and `change` of the value it returns. -/
def get_mut (m : Captured K V) (key : K) (change : V → V) : Captured K V :=
  let m := m.preserve key
  match m.map[key]? with
  | some value => { m with map := m.map.insert key (change value) }
  | none => m

def insert (m : Captured K V) (key : K) (value : V) : Captured K V :=
  let m := m.preserve key
  { m with map := m.map.insert key value }

def remove (m : Captured K V) (key : K) : Captured K V :=
  let m := m.preserve key
  { m with map := m.map.erase key }

/-- Every value, for changing: a capture in progress writes all it has not reached
first. -/
def values_mut (m : Captured K V) (change : K → V → V) : Captured K V :=
  let (_, m) := m.capture_step ⊤
  { m with map := m.map.map change }

end Captured

/-! ## What may happen during a capture -/

/-- One change of a captured map. -/
inductive Change (K V : Type) where
  | get_mut (key : K) (change : V → V)
  | insert (key : K) (value : V)
  | remove (key : K)
  | values_mut (change : K → V → V)

variable {K V : Type} [LinearOrder K]

/-- What a change makes of the map. -/
def Change.apply (map : BTreeMap K V) : Change K V → BTreeMap K V
  | get_mut key change =>
    match map[key]? with
    | some value => map.insert key (change value)
    | none => map
  | insert key value => map.insert key value
  | remove key => map.erase key
  | values_mut change => map.map change

namespace Captured

variable [Serialize V]

def change (m : Captured K V) : Change K V → Captured K V
  | .get_mut key change => m.get_mut key change
  | .insert key value => m.insert key value
  | .remove key => m.remove key
  | .values_mut change => m.values_mut change

inductive Op (K V : Type) where
  | change (change : Change K V)
  | capture_step (budget : WithTop Nat)
  | drain_capture

/-- One operation; only `drain_capture` hands out parts. -/
def Op.run (m : Captured K V) : Op K V → List Bytes × Captured K V
  | .change c => ([], m.change c)
  | .capture_step budget => ([], (m.capture_step budget).2)
  | .drain_capture =>
    match m.drain_capture with
    | (.ok (parts, _), m) => (parts, m)
    | (.error _, m) => ([], m)

/-- Operations one after another, and the parts they hand out in order. -/
def run_ops : List (Op K V) → Captured K V → List Bytes × Captured K V
  | [], m => ([], m)
  | op :: ops, m =>
    let (drained, m) := op.run m
    let (more, m) := run_ops ops m
    (drained ++ more, m)

/-! ## What a capture has written -/

/-- The bytes of a capture so far, handed out or not, are the text of the values
written, after `head`. -/
structure Capture.Text (head : Bytes) (drained : List Bytes) (written : List (K × V))
    (c : Capture K) : Prop where
  sound : c.broken = false
  count : c.written = written.length
  bytes : ∃ texts, written.map (fun e => Serialize.text e.2) = texts.map some ∧
    drained.flatten ++ c.parts.flatten ++ c.out = head ++ objectText texts

theorem Capture.Text.write {head : Bytes} {drained : List Bytes} {written : List (K × V)}
    {c : Capture K} (hTotal : Serialize.Total V) (h : c.Text head drained written) (key : K)
    (value : V) : (c.write value).Text head drained (written ++ [(key, value)]) := by
  obtain ⟨text, hText⟩ := Option.isSome_iff_exists.mp (hTotal value)
  obtain ⟨hSound, hCount, texts, hTexts, hBytes⟩ := h
  have hLength : texts.length = written.length := by
    simpa using (congrArg List.length hTexts).symm
  -- setting a full part aside moves bytes without changing them
  have hSplit : drained.flatten ++ c.split_part.parts.flatten ++ c.split_part.out
      = head ++ objectText texts := by
    rw [← hBytes]
    unfold split_part
    split <;> simp
  have hSame : c.split_part.written = written.length ∧ c.split_part.broken = false := by
    rw [← hCount, ← hSound]
    unfold split_part
    split <;> exact ⟨rfl, rfl⟩
  refine ⟨?_, ?_, texts ++ [text], ?_, ?_⟩
  · simp only [Capture.write, hText]
    exact hSame.2
  · simp only [Capture.write, hText, hSame.1, List.length_append, List.length_singleton]
  · simp [hTexts, hText]
  · simp only [Capture.write, hText, hSame.1, ← hLength, objectText_append, ← List.append_assoc,
      ← hSplit]
    cases texts <;> simp

/-- The in-order pass is done with `k`, or it is new. -/
def Capture.behind (c : Capture K) (k : K) : Prop :=
  c.done = true ∨ (∀ bound, c.bound = some bound → bound < k) ∨ ∃ cursor, c.cursor = some cursor ∧ k ≤ cursor

omit [Serialize V] in
theorem Capture.behind_iff (c : Capture K) (k : K) : c.behind k ↔ c.passed k = true := by
  unfold behind passed
  cases c.bound with
  | none => simp
  | some bound =>
    cases c.cursor with
    | none => simp
    | some cursor => simp [or_assoc]

/-- The capture of the map `orig`, partly written. -/
structure CapturingAt (orig : BTreeMap K V) (head : Bytes) (drained : List Bytes) (map : BTreeMap K V)
    (c : Capture K) (written : List (K × V)) : Prop where
  exact : SnapshotInv orig map (fun k => c.behind k ∨ k ∈ c.early) written
  text : c.Text head drained written

/-- The texts of the values of `orig`, each once. -/
def Listing (orig : BTreeMap K V) (texts : List Bytes) : Prop :=
  ∃ values : List (K × V), values.Perm orig.toList ∧
    values.map (fun e => Serialize.text e.2) = texts.map some

/-- What was handed out is `head` and the values of `orig`, each once. -/
def Complete (orig : BTreeMap K V) (head : Bytes) (drained : List Bytes) : Prop :=
  ∃ texts : List Bytes, Listing orig texts ∧ drained.flatten = head ++ objectText texts

/-- A capture of `orig` is in progress, or over. -/
def Capturing (orig : BTreeMap K V) (head : Bytes) (drained : List Bytes) (m : Captured K V) : Prop :=
  (∃ c written, m.capture = some c ∧ CapturingAt orig head drained m.map c written) ∨
    (m.capture = none ∧ Complete orig head drained)

variable {orig map : BTreeMap K V} {head : Bytes} {drained : List Bytes} {m m' : Captured K V}

theorem capturing_begin_capture (m : Captured K V) (head : Bytes) :
    Capturing m.map head [] (m.begin_capture head) := by
  refine .inl ⟨_, [], rfl, ?_, rfl, rfl, [], rfl, by simp [objectText]⟩
  -- what is after the last key is not held
  refine (SnapshotInv.begin m.map).skip (fun k h => h.elim) fun k hk _ => ?_
  have hNotEarly : k ∉ (∅ : BTreeSet K) := BTreeSet.notMem_empty k
  have hk := hk.resolve_right hNotEarly
  by_contra hHeld
  obtain ⟨v, hv⟩ := Option.ne_none_iff_exists'.mp hHeld
  have hMem := (BTreeMap.mem_toList _ _ _).mpr hv
  obtain ⟨front, last, hList⟩ : ∃ front last, m.map.toList = front ++ [last] :=
    (List.eq_nil_or_concat' _).resolve_left (List.ne_nil_of_mem hMem)
  have hSorted := BTreeMap.sorted_toList m.map
  rw [hList] at hMem hSorted
  have hBound : m.map.toList.getLast?.map Prod.fst = some last.1 := by
    rw [hList, List.getLast?_concat]
    rfl
  rcases hk with hDone | hAfter | ⟨cursor, hCursor, -⟩
  · rw [hBound] at hDone
    cases hDone
  · have hLess : last.1 < k := hAfter last.1 hBound
    rcases List.mem_append.mp hMem with hFront | hLast
    · exact lt_asymm hLess ((List.pairwise_append.mp hSorted).2.2 _ hFront last List.mem_cons_self)
    · rw [← List.mem_singleton.mp hLast] at hLess
      exact lt_irrefl _ hLess
  · cases hCursor

/-! ## Before a value changes -/

/-- `preserve` leaves the map alone, and the capture is then done with the key. -/
theorem capturing_preserve (hTotal : Serialize.Total V) (h : Capturing orig head drained m) (key : K) :
    (m.preserve key).map = m.map ∧ ∀ map' : BTreeMap K V, (∀ k : K, k ≠ key → map'[k]? = m.map[k]?) →
      Capturing orig head drained { m.preserve key with map := map' } := by
  unfold preserve
  rcases h with ⟨c, written, hc, hInv⟩ | ⟨hc, hOver⟩
  · rw [hc]
    have hEarly : c.early.contains key = true ↔ key ∈ c.early := Std.ExtTreeSet.contains_iff_mem
    by_cases hReached : c.behind key ∨ key ∈ c.early
    · have hPassed : (c.passed key || c.early.contains key) = true := by
        rw [Bool.or_eq_true, hEarly, ← c.behind_iff]
        exact hReached
      dsimp only
      rw [if_pos hPassed]
      refine ⟨rfl, fun map' hSame => .inl ⟨c, written, hc, ?_, hInv.text⟩⟩
      refine hInv.exact.change fun k hk => hSame k ?_
      rintro rfl
      exact hk hReached
    · have hNot : ¬ (c.passed key || c.early.contains key) = true := by
        rw [Bool.or_eq_true, hEarly, ← c.behind_iff]
        exact hReached
      dsimp only
      rw [if_neg hNot]
      set noted : Capture K := { c with early := c.early.insert key } with hNotedDef
      have hNoted (k : K) : (noted.behind k ∨ k ∈ noted.early) ↔ (c.behind k ∨ k ∈ c.early) ∨ k = key := by
        show c.behind k ∨ k ∈ c.early.insert key ↔ _
        rw [BTreeSet.mem_insert, or_assoc]
        refine or_congr_right ⟨fun h => h.elim (fun h => .inr h.symm) .inl, fun h => h.elim .inr fun h => .inl h.symm⟩
      have hText : noted.Text head drained written := ⟨hInv.text.sound, hInv.text.count, hInv.text.bytes⟩
      cases hKey : m.map[key]? with
      | none =>
        refine ⟨rfl, fun map' hSame => .inl ⟨noted, written, rfl, ?_, hText⟩⟩
        have hSkip : SnapshotInv orig m.map (fun k => noted.behind k ∨ k ∈ noted.early) written := by
          refine hInv.exact.skip (fun k hk => (hNoted k).mpr (.inl hk)) fun k hk hNot => ?_
          rcases (hNoted k).mp hk with hk | rfl
          · exact absurd hk hNot
          · exact hKey
        refine hSkip.change fun k hk => hSame k ?_
        rintro rfl
        exact hk ((hNoted k).mpr (.inr rfl))
      | some value =>
        have hKept : (noted.write value).behind = noted.behind ∧ (noted.write value).early = noted.early := by
          unfold Capture.write Capture.split_part Capture.behind
          split <;> split <;> exact ⟨rfl, rfl⟩
        refine ⟨rfl, fun map' hSame => .inl ⟨noted.write value, _, rfl, ?_, hText.write hTotal key value⟩⟩
        rw [hKept.1, hKept.2]
        refine ((hInv.exact.write hReached hKey).congr hNoted).change fun k hk => hSame k ?_
        rintro rfl
        exact hk ((hNoted k).mpr (.inr rfl))
  · rw [hc]
    exact ⟨rfl, fun map' _ => .inr ⟨hc, hOver⟩⟩

/-! ## The in-order pass -/

/-- A capture whose in-order pass has come to `last`, if anywhere. -/
def Capture.moved (c : Capture K) (last : Option K) : Capture K := { c with cursor := last.or c.cursor }

omit [Serialize V] in
/-- Going past the next key of the pass. -/
theorem Capture.behind_next {c c' : Capture K} {last : Option K} {key : K} {value : V}
    {run : List (K × V)} (hDone : c.done = false) (hDone' : c'.done = false) (hBound : c'.bound = c.bound)
    (hLeft : SnapshotInv.Left map (c.moved last).behind ((key, value) :: run)) (k : K) :
    (k ≤ key ∨ (c.moved last).behind k) ↔ (c'.moved (some key)).behind k := by
  have hKey := ((hLeft.mem key value).mp List.mem_cons_self).2
  have hAfter : (c'.moved (some key)).behind k ↔ (∀ bound, c.bound = some bound → bound < k) ∨ k ≤ key := by
    simp [behind, moved, hDone', hBound]
  rw [hAfter]
  constructor
  · rintro (hle | hDone₁ | hAfter | ⟨cursor, hCursor, hle⟩)
    · exact .inr hle
    · rw [show (c.moved last).done = c.done from rfl, hDone] at hDone₁
      cases hDone₁
    · exact .inl hAfter
    · refine .inr (hle.trans (le_of_lt (lt_of_not_ge fun hge => ?_)))
      exact hKey (.inr (.inr ⟨cursor, hCursor, hge⟩))
  · rintro (hAfter | hle)
    · exact .inr (.inr (.inl hAfter))
    · exact .inl hle

/-- The pass over the values, from any point of it. -/
theorem capturing_write_run (hTotal : Serialize.Total V) (start : Nat) (budget : WithTop Nat)
    (run : List (K × V)) : ∀ (last : Option K) (c : Capture K) (written : List (K × V)),
      c.done = false → SnapshotInv.Left map (c.moved last).behind run →
      CapturingAt orig head drained map (c.moved last) written →
      ∃ written', CapturingAt orig head drained map
        ((c.write_run start budget run last).2.moved (c.write_run start budget run last).1) written' := by
  induction run with
  | nil =>
    intro last c written hDone hLeft hInv
    unfold Capture.write_run
    split
    · refine ⟨written, hInv.exact.pass_end hLeft fun k => .inl (.inl rfl), ?_⟩
      exact ⟨hInv.text.sound, hInv.text.count, hInv.text.bytes⟩
    · exact ⟨written, hInv⟩
  | cons e run ih =>
    obtain ⟨key, value⟩ := e
    intro last c written hDone hLeft hInv
    unfold Capture.write_run
    split
    · split
      · -- written early: pass over it
        next hEarly =>
        have hNext := fun c' hDone' hBound => @Capture.behind_next K V _ map c c' last key value run hDone hDone' hBound hLeft
        refine ih (some key) _ written hDone ?_ ⟨?_, hInv.text.sound, hInv.text.count, hInv.text.bytes⟩
        · exact (funext fun k => propext (hNext _ hDone rfl k)) ▸ hLeft.tail
        · refine (hInv.exact.pass_early hLeft hEarly).congr fun k => ?_
          refine or_congr (hNext _ hDone rfl k).symm ?_
          show k ∈ c.early.erase key ↔ _
          exact BTreeSet.mem_erase _ _ _
      · next hEarly =>
        have hKept : (c.write value).done = false ∧ (c.write value).bound = c.bound ∧
            (c.write value).early = c.early := by
          rw [← hDone]
          unfold Capture.write Capture.split_part
          split <;> split <;> exact ⟨rfl, rfl, rfl⟩
        have hNext := Capture.behind_next hDone hKept.1 hKept.2.1 hLeft
        have hText : c.Text head drained written := ⟨hInv.text.sound, hInv.text.count, hInv.text.bytes⟩
        have hWritten := hText.write hTotal key value
        refine ih (some key) (c.write value) (written ++ [(key, value)]) hKept.1 ?_
          ⟨?_, hWritten.sound, hWritten.count, hWritten.bytes⟩
        · exact (funext fun k => propext (hNext k)) ▸ hLeft.tail
        · refine (hInv.exact.pass_write hLeft hEarly).congr fun k => or_congr (hNext k).symm ?_
          show k ∈ (c.write value).early ↔ k ∈ c.early
          rw [hKept.2.2]
    · exact ⟨written, hInv⟩

/-- With an unlimited budget the pass reaches the end. -/
theorem write_run_done (start : Nat) (run : List (K × V)) :
    ∀ (last : Option K) (c : Capture K), (c.write_run start ⊤ run last).2.done = true := by
  induction run with
  | nil => simp [Capture.write_run]
  | cons e run ih =>
    intro last c
    unfold Capture.write_run
    rw [if_pos (WithTop.natCast_lt_top _)]
    split
    · exact ih _ _
    · exact ih _ _

theorem map_capture_step (m : Captured K V) (budget : WithTop Nat) : (m.capture_step budget).2.map = m.map := by
  unfold capture_step
  split
  · rfl
  · split
    · rfl
    · split <;> rfl

theorem map_end_capture (m : Captured K V) : m.end_capture.2.map = m.map := by
  have hStep := map_capture_step m ⊤
  unfold end_capture
  dsimp only
  split
  · exact hStep
  · split <;> exact hStep

theorem map_drain_capture (m : Captured K V) : m.drain_capture.2.map = m.map := by
  have hEnd := map_end_capture m
  unfold drain_capture
  split
  · rfl
  · split
    · rfl
    · split
      · next hCase => rwa [hCase] at hEnd
      · next hCase => rwa [hCase] at hEnd

theorem map_preserve (m : Captured K V) (key : K) : (m.preserve key).map = m.map := by
  unfold preserve
  split
  · rfl
  · split
    · rfl
    · dsimp only
      split <;> rfl

theorem map_change (m : Captured K V) (change : Change K V) : (m.change change).map = change.apply m.map := by
  cases change with
  | get_mut key change =>
    show (m.get_mut key change).map = _
    simp only [get_mut, Change.apply, map_preserve]
    cases m.map[key]? with
    | none => exact map_preserve m key
    | some value => rfl
  | insert key value => exact congrArg (Std.ExtTreeMap.insert · key value) (map_preserve m key)
  | remove key => exact congrArg (Std.ExtTreeMap.erase · key) (map_preserve m key)
  | values_mut change => exact congrArg (Std.ExtTreeMap.map change ·) (map_capture_step m ⊤)

/-- Changes go straight to the map. -/
theorem map_changes (changes : List (Change K V)) (m : Captured K V) :
    (changes.foldl change m).map = changes.foldl Change.apply m.map := by
  induction changes generalizing m with
  | nil => rfl
  | cons change changes ih => rw [List.foldl_cons, ih, map_change, List.foldl_cons]

/-- A turn of a capture does not end it. -/
theorem ended_capture_step (m : Captured K V) (budget : WithTop Nat) :
    (m.capture_step budget).2.capture = none ↔ m.capture = none := by
  unfold capture_step
  split
  · rfl
  · next hCase =>
    rw [hCase]
    split
    · rw [hCase]
    · split <;> simp

theorem ended_preserve (m : Captured K V) (key : K) :
    (m.preserve key).capture = none ↔ m.capture = none := by
  unfold preserve
  split
  · rfl
  · next hCase =>
    rw [hCase]
    split
    · rw [hCase]
    · dsimp only
      split <;> simp

/-- Changes neither begin a capture nor end one. -/
theorem ended_changes (changes : List (Change K V)) (m : Captured K V) :
    (changes.foldl change m).capture = none ↔ m.capture = none := by
  induction changes generalizing m with
  | nil => rfl
  | cons change changes ih =>
    rw [List.foldl_cons, ih]
    cases change with
    | get_mut key change =>
      rw [← ended_preserve m key]
      show (m.get_mut key change).capture = none ↔ _
      unfold get_mut
      dsimp only
      split <;> rfl
    | insert key | remove key => exact ended_preserve m key
    | values_mut change => exact ended_capture_step m ⊤

theorem capturing_capture_step (hTotal : Serialize.Total V) (h : Capturing orig head drained m)
    (budget : WithTop Nat) : Capturing orig head drained (m.capture_step budget).2 := by
  rcases h with ⟨c, written, hc, hInv⟩ | ⟨hc, hOver⟩
  · by_cases hDone : c.done = true
    · have hSame : (m.capture_step budget).2 = m := by simp [capture_step, hc, hDone]
      rw [hSame]
      exact .inl ⟨c, written, hc, hInv⟩
    · have hNotDone : c.done = false := by simpa using hDone
      cases hBound : c.bound with
      | none =>
        -- there was nothing to write
        have hStep : (m.capture_step budget).2 = { m with capture := some { c with done := true } } := by
          simp [capture_step, hc, hDone, hBound]
        rw [hStep]
        refine .inl ⟨_, written, rfl, hInv.exact.congr fun k => ?_, hInv.text.sound, hInv.text.count, hInv.text.bytes⟩
        have hBehind : c.behind k := .inr (.inl fun bound h => by rw [hBound] at h; cases h)
        exact iff_of_true (.inl (.inl rfl)) (.inl hBehind)
      | some bound =>
        have hLeft : SnapshotInv.Left m.map (c.moved none).behind (c.range m.map bound) := by
          have hBehind : ∀ k, (c.moved none).behind k ↔ bound < k ∨ ∃ cursor, c.cursor = some cursor ∧ k ≤ cursor := by
            intro k
            simp [Capture.behind, Capture.moved, hNotDone, hBound]
          unfold Capture.range
          refine ⟨fun k v => ?_, ?_⟩
          · rw [hBehind, List.mem_filter, not_or, not_lt, decide_eq_true_eq]
            cases c.cursor with
            | none => simp
            | some cursor => simp [BTreeMap.mem_above, and_assoc, and_comm]
          · cases c.cursor with
            | none => exact (BTreeMap.sorted_toList _).filter _
            | some cursor => exact (BTreeMap.sorted_above _ _).filter _
        obtain ⟨written', hInv'⟩ := capturing_write_run hTotal c.size budget (c.range m.map bound) none c written
          hNotDone hLeft hInv
        refine .inl ⟨_, written', ?_, by rw [map_capture_step]; exact hInv'⟩
        simp only [capture_step, hc, hDone, hBound, Capture.moved]
        rcases Capture.write_run _ _ _ _ _ with ⟨_ | key, c'⟩ <;> rfl
  · have hSame : (m.capture_step budget).2 = m := by simp [capture_step, hc]
    rw [hSame]
    exact .inr ⟨hc, hOver⟩

/-- Writing out everything that is left reaches every key. -/
theorem capture_step_done {c : Capture K} (hc : (m.capture_step ⊤).2.capture = some c) : c.done = true := by
  unfold capture_step at hc
  split at hc
  · next hNone =>
    rw [hNone] at hc
    cases hc
  · next c₀ hc₀ =>
    split at hc
    · next hDone =>
      rw [hc₀] at hc
      cases hc
      exact hDone
    · split at hc
      · cases hc
        rfl
      · next bound _ =>
        have hEnd := write_run_done c₀.size (c₀.range m.map bound) none c₀
        obtain rfl := Option.some.inj hc
        split
        · exact hEnd
        · exact hEnd

/-! ## One operation, and a whole run -/

theorem capturing_change (hTotal : Serialize.Total V) (h : Capturing orig head drained m) (change : Change K V) :
    Capturing orig head drained (m.change change) := by
  cases change with
  | get_mut key change =>
    obtain ⟨hMap, hChange⟩ := capturing_preserve hTotal h key
    show Capturing orig head drained (m.get_mut key change)
    unfold get_mut
    dsimp only
    split
    · refine hChange _ fun k hk => ?_
      rw [BTreeMap.get_insert_ne _ _ (Ne.symm hk), hMap]
    · exact hChange (m.preserve key).map fun k _ => by rw [hMap]
  | insert key value =>
    obtain ⟨hMap, hChange⟩ := capturing_preserve hTotal h key
    refine hChange _ fun k hk => ?_
    rw [BTreeMap.get_insert_ne _ _ (Ne.symm hk), hMap]
  | remove key =>
    obtain ⟨hMap, hChange⟩ := capturing_preserve hTotal h key
    refine hChange _ fun k hk => ?_
    rw [BTreeMap.get_erase_ne _ (Ne.symm hk), hMap]
  | values_mut change =>
    show Capturing orig head drained (m.values_mut change)
    unfold values_mut
    dsimp only
    rcases capturing_capture_step hTotal h ⊤ with ⟨c, written, hc, hInv⟩ | ⟨hc, hOver⟩
    · -- every value is written already
      have hDone := capture_step_done hc
      refine .inl ⟨c, written, hc, hInv.exact.change fun k hk => ?_, hInv.text⟩
      exact absurd (.inl (.inl hDone)) hk
    · exact .inr ⟨hc, hOver⟩

theorem Capture.Text.complete {c : Capture K} {written : List (K × V)}
    (h : CapturingAt orig head drained map c written) (hDone : c.done = true) :
    Complete orig head (drained ++ (c.parts ++ [c.out])) := by
  obtain ⟨texts, hTexts, hBytes⟩ := h.text.bytes
  refine ⟨texts, ⟨written, h.exact.complete fun k => .inl (.inl hDone), hTexts⟩, ?_⟩
  rw [← hBytes]
  simp

/-- **The end of a capture hands out the rest of it.** -/
theorem capturing_end (hTotal : Serialize.Total V) (h : Capturing orig head drained m) :
    ∃ parts, m.end_capture.1 = .ok parts ∧ m.end_capture.2.capture = none ∧
      m.end_capture.2.map = m.map ∧ Complete orig head (drained ++ parts) := by
  unfold end_capture
  dsimp only
  rcases capturing_capture_step hTotal h ⊤ with ⟨c, written, hc, hInv⟩ | ⟨hc, hOver⟩
  · rw [hc]
    dsimp only
    rw [hInv.text.sound]
    exact ⟨_, rfl, rfl, map_capture_step m ⊤, Capture.Text.complete hInv (capture_step_done hc)⟩
  · rw [hc]
    refine ⟨[], rfl, hc, map_capture_step m ⊤, ?_⟩
    rw [List.append_nil]
    exact hOver

theorem end_of_ended {m : Captured K V} {parts : List Bytes} (hNone : m.capture = none)
    (h : m.end_capture.1 = .ok parts) : parts = [] := by
  simp [end_capture, capture_step, hNone] at h
  exact h

theorem capturing_drain (hTotal : Serialize.Total V) (h : Capturing orig head drained m) :
    ∃ parts ended, m.drain_capture.1 = .ok (parts, ended) ∧ m.drain_capture.2.map = m.map ∧
      Capturing orig head (drained ++ parts) m.drain_capture.2 ∧
      (ended = true ↔ m.drain_capture.2.capture = none) ∧ (m.capture = none → parts = []) := by
  unfold drain_capture
  rcases hCase : m.capture with - | c
  · refine ⟨[], true, rfl, rfl, ?_, by simp [hCase], fun _ => rfl⟩
    rw [List.append_nil]
    exact h
  · dsimp only
    rcases h with ⟨c', written, hc, hInv⟩ | ⟨hc, -⟩
    · obtain rfl : c' = c := Option.some.inj (hc.symm.trans hCase)
      by_cases hDone : c'.done = true
      · rw [if_neg (by simp [hDone])]
        obtain ⟨parts, hOk, hNone, hMap, hComplete⟩ := capturing_end hTotal (.inl ⟨c', written, hc, hInv⟩)
        rcases hEnd : m.end_capture with ⟨result, m₁⟩
        rw [hEnd] at hOk hNone hMap
        dsimp only at hOk hNone hMap
        subst hOk
        exact ⟨parts, true, rfl, hMap, .inr ⟨hNone, hComplete⟩, by simp [hNone], fun h => by cases h⟩
      · -- only the full parts are handed out
        have hTaken : CapturingAt orig head (drained ++ c'.parts) m.map { c' with parts := [] } written := by
          refine ⟨hInv.exact, hInv.text.sound, hInv.text.count, ?_⟩
          obtain ⟨texts, hTexts, hBytes⟩ := hInv.text.bytes
          refine ⟨texts, hTexts, ?_⟩
          rw [← hBytes]
          simp
        rw [if_pos (by simp [hDone])]
        exact ⟨c'.parts, false, rfl, rfl, .inl ⟨_, written, rfl, hTaken⟩, by simp, fun h => by cases h⟩
    · rw [hCase] at hc
      cases hc

theorem capturing_changes (hTotal : Serialize.Total V) (h : Capturing orig head drained m)
    (changes : List (Change K V)) : Capturing orig head drained (changes.foldl change m) := by
  induction changes generalizing m with
  | nil => exact h
  | cons change changes ih => exact ih (capturing_change hTotal h change)

theorem capturing_op (hTotal : Serialize.Total V) (h : Capturing orig head drained m) (op : Op K V) :
    Capturing orig head (drained ++ (op.run m).1) (op.run m).2 := by
  cases op with
  | change c =>
    rw [show ((Op.change c).run m).1 = [] from rfl, List.append_nil]
    exact capturing_change hTotal h c
  | capture_step budget =>
    rw [show ((Op.capture_step budget : Op K V).run m).1 = [] from rfl, List.append_nil]
    exact capturing_capture_step hTotal h budget
  | drain_capture =>
    obtain ⟨parts, ended, hOk, -, hAfter, -, -⟩ := capturing_drain hTotal h
    unfold Op.run
    rcases hDrain : m.drain_capture with ⟨result, m₁⟩
    rw [hDrain] at hOk hAfter
    dsimp only at hOk hAfter
    subst hOk
    exact hAfter

theorem capturing_run_ops (hTotal : Serialize.Total V) (ops : List (Op K V)) (drained : List Bytes)
    (m : Captured K V) (h : Capturing orig head drained m) :
    Capturing orig head (drained ++ (run_ops ops m).1) (run_ops ops m).2 := by
  induction ops generalizing drained m with
  | nil =>
    rw [show (run_ops [] m).1 = [] from rfl, List.append_nil]
    exact h
  | cons op ops ih =>
    have hRest := ih _ _ (capturing_op hTotal h op)
    rw [List.append_assoc] at hRest
    exact hRest

/-- The values handed out by the time a capture is over, whether a drain found it done
or it was ended, are those held when it began: each once, and as it was then. -/
theorem captured_exact (hTotal : Serialize.Total V) (m : Captured K V) (head : Bytes) (ops : List (Op K V)) :
    let run := run_ops ops (m.begin_capture head)
    (run.2.capture = none → Complete m.map head run.1) ∧
      ∃ parts, run.2.end_capture.1 = .ok parts ∧ Complete m.map head (run.1 ++ parts) := by
  intro run
  have hRun : Capturing m.map head run.1 run.2 :=
    capturing_run_ops hTotal ops [] _ (capturing_begin_capture m head)
  refine ⟨fun hNone => ?_, ?_⟩
  · rcases hRun with ⟨c, written, hc, -⟩ | ⟨-, hOver⟩
    · rw [hNone] at hc
      cases hc
    · exact hOver
  · obtain ⟨parts, hOk, -, -, hComplete⟩ := capturing_end hTotal hRun
    exact ⟨parts, hOk, hComplete⟩

end Captured

end Postino
