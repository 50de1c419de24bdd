import Postino.Db.Db
import Postino.Lib.Snapshot

/-!
# A capture is a snapshot of one moment

Whatever happens to the keyspace between `begin_capture` and `end_capture`, the
capture writes the keys held when it began, each once and with the entry it had
then.

* `CaptureOp` — what may happen meanwhile, and `runOps`, any number of them;
* `Capture.reached` — the keys a capture is done with: everything once it is
  `done`, keys up to the cursor, and the early ones;
* `Capturing` — the invariant: what is written is exactly the reached part of
  the original keyspace, the rest has not changed, and the bytes are the text
  of what is written;
* `capturing_preserve` / `capturing_capture_step` — the two things that write;
* `capture_exact` — the result.
-/

namespace Postino

open Lib

variable [Json]

/-! ## What may happen during a capture -/

inductive CaptureOp where
  | captureStep (budget : WithTop Nat)
  | drainCapture
  | insert (key : String) (entry : Entry)
  | replace (key : String) (entry : Entry)
  | take (key : String)
  /-- `get_mut`, and any change of the entry it returns. -/
  | getMut (key : String) (now : Nat) (change : Entry → Entry)
  | remove (key : String) (now : Nat)
  | delete (key : String) (now : Nat)
  | prune (key : String)
  | clear
  | expireKeys (now : Nat)

/-- Whether an operation takes parts from the capture. -/
def CaptureOp.drains : CaptureOp → Bool
  | drainCapture => true
  | _ => false

/-- One operation; only `drain_capture` hands out parts. -/
def CaptureOp.run (db : Db) : CaptureOp → List Bytes × Db
  | captureStep budget => ([], (db.capture_step budget).2)
  | drainCapture => db.drain_capture
  | insert key entry => ([], db.insert key entry)
  | replace key entry => ([], (db.replace key entry).2)
  | take key => ([], (db.take key).2)
  | getMut key now change =>
    match db.get_mut key now with
    | (some entry, db) => ([], db.put key (change entry))
    | (none, db) => ([], db)
  | remove key now => ([], (db.remove key now).2)
  | delete key now => ([], (db.delete key now).2)
  | prune key => ([], db.prune key)
  | clear => ([], db.clear)
  | expireKeys now => ([], (db.expire_keys now).2)

/-- Operations one after another, and the parts they hand out in order. -/
def runOps : List CaptureOp → Db → List Bytes × Db
  | [], db => ([], db)
  | op :: ops, db =>
    let (drained, db) := op.run db
    let (more, db) := runOps ops db
    (drained ++ more, db)

/-! ## The text of a capture -/

/-- The serializer never fails. -/
def Json.Total : Prop := (∀ key, (Json.key key).isSome) ∧ ∀ e, (Json.entry e).isSome

/-- One member of the object: `"key":entry`. -/
def pairText (p : String × Entry) : Option Bytes := do
  let key ← Json.key p.1
  let entry ← Json.entry p.2
  some (key ++ [':'.toUInt8] ++ entry)

/-- Members of an object, between commas. -/
def objectText (texts : List Bytes) : Bytes := [','.toUInt8].intercalate texts

omit [Json] in
theorem objectText_append (texts : List Bytes) (text : Bytes) :
    objectText (texts ++ [text])
      = objectText texts ++ (if texts = [] then [] else [','.toUInt8]) ++ text := by
  unfold objectText
  induction texts with
  | nil => simp
  | cons first rest ih =>
    cases rest with
    | nil => simp
    | cons second rest =>
      rw [List.cons_append, List.cons_append, List.intercalate_cons_cons,
        List.intercalate_cons_cons, ← List.cons_append, ih]
      simp [List.append_assoc]

/-- The bytes of a capture so far, handed out or not, are the text of the pairs
written, after `head`. -/
structure Capture.Text (head : Bytes) (drained : List Bytes) (written : List (String × Entry))
    (c : Capture) : Prop where
  sound : c.broken = false
  count : c.written = written.length
  bytes : ∃ texts, written.map pairText = texts.map some ∧
    drained.flatten ++ c.parts.flatten ++ c.out = head ++ objectText texts

theorem Capture.Text.write {head : Bytes} {drained : List Bytes}
    {written : List (String × Entry)} {c : Capture} (hJson : Json.Total)
    (h : c.Text head drained written) (key : String) (entry : Entry) :
    (c.write key entry).Text head drained (written ++ [(key, entry)]) := by
  obtain ⟨keyText, hKey⟩ := Option.isSome_iff_exists.mp (hJson.1 key)
  obtain ⟨entryText, hEntry⟩ := Option.isSome_iff_exists.mp (hJson.2 entry)
  obtain ⟨hSound, hCount, texts, hTexts, hBytes⟩ := h
  have hLength : texts.length = written.length := by
    simpa using (congrArg List.length hTexts).symm
  -- setting a full part aside moves bytes without changing them
  have hSplit : drained.flatten ++ c.split_part.parts.flatten ++ c.split_part.out
      = head ++ objectText texts := by
    rw [← hBytes]
    unfold split_part
    split <;> simp
  have hSplitCount : c.split_part.written = written.length := by
    rw [← hCount]
    unfold split_part
    split <;> rfl
  have hSplitSound : c.split_part.broken = false := by
    rw [← hSound]
    unfold split_part
    split <;> rfl
  refine ⟨?_, ?_, texts ++ [keyText ++ [':'.toUInt8] ++ entryText], ?_, ?_⟩
  · simp only [Capture.write, hKey, hEntry]
    exact hSplitSound
  · simp only [Capture.write, hKey, hEntry, hSplitCount, List.length_append, List.length_singleton]
  · simp [hTexts, pairText, hKey, hEntry]
  · simp only [Capture.write, hKey, hEntry, hSplitCount, ← hLength, objectText_append,
      ← List.append_assoc, ← hSplit]
    cases texts <;> simp

/-! ## The keys a capture is done with -/

/-- Whether `k` is not after the cursor. -/
def upTo (cursor : Option String) (k : String) : Prop := ∃ c, cursor = some c ∧ k ≤ c

def Capture.reached (c : Capture) (k : String) : Prop :=
  c.done = true ∨ upTo c.cursor k ∨ k ∈ c.early

omit [Json] in
theorem Capture.reached_iff (c : Capture) (k : String) :
    c.reached k ↔ (c.passed k || c.early.contains k) = true := by
  unfold reached passed upTo
  cases c.cursor <;> simp [or_assoc]

/-- The capture of the keyspace `orig`, partly written. -/
structure CapturingAt (orig : BTreeMap String Entry) (head : Bytes) (drained : List Bytes)
    (keys : BTreeMap String Entry) (c : Capture) (written : List (String × Entry)) : Prop where
  exact : SnapshotInv orig keys c.reached written
  text : c.Text head drained written

/-- A capture of `orig` is in progress. -/
def Capturing (orig : BTreeMap String Entry) (head : Bytes) (drained : List Bytes)
    (db : Db) : Prop :=
  ∃ c written, db.capture = some c ∧ CapturingAt orig head drained db.keys c written

variable {orig : BTreeMap String Entry} {head : Bytes} {drained : List Bytes}
  {db db' : Db} {key : String}

theorem capturing_begin_capture (db : Db) (head : Bytes) :
    Capturing db.keys head [] (db.begin_capture head).2 := by
  refine ⟨_, [], rfl, ?_, rfl, rfl, [], rfl, ?_⟩
  · refine (SnapshotInv.begin db.keys).congr fun k => ?_
    simp [Capture.reached, upTo]
  · simp [objectText]

/-! ## Before a key changes -/

/-- `preserve` keeps the capture, and the capture is then done with the key. -/
theorem capturing_preserve (hJson : Json.Total) (h : Capturing orig head drained db)
    (key : String) :
    (db.preserve key).keys = db.keys ∧
    ∃ c written, (db.preserve key).capture = some c ∧ c.reached key ∧
      CapturingAt orig head drained db.keys c written := by
  obtain ⟨c, written, hc, hInv⟩ := h
  simp only [Db.preserve, hc]
  by_cases hReached : c.reached key
  · rw [if_pos ((c.reached_iff key).mp hReached)]
    exact ⟨rfl, c, written, hc, hReached, hInv⟩
  · rw [if_neg (mt (c.reached_iff key).mpr hReached)]
    let noted : Capture := { c with early := c.early.insert key }
    have hNoted (k : String) : noted.reached k ↔ c.reached k ∨ k = key := by
      simp only [noted, Capture.reached, BTreeSet.mem_insert]
      grind
    have hText : noted.Text head drained written :=
      ⟨hInv.text.sound, hInv.text.count, hInv.text.bytes⟩
    cases hKey : db.keys[key]? with
    | none =>
      refine ⟨rfl, noted, written, rfl, (hNoted key).mpr (.inr rfl), ?_, hText⟩
      refine hInv.exact.skip (fun k hk => (hNoted k).mpr (.inl hk)) ?_
      intro k hk hNot
      rcases (hNoted k).mp hk with hk | rfl
      · exact absurd hk hNot
      · exact hKey
    | some entry =>
      have hSame : (noted.write key entry).reached = noted.reached := by
        unfold Capture.write Capture.split_part Capture.reached
        split <;> split <;> rfl
      refine ⟨rfl, noted.write key entry, _, rfl, ?_, ?_, hText.write hJson key entry⟩
      · rw [hSame]
        exact (hNoted key).mpr (.inr rfl)
      · rw [hSame]
        exact (hInv.exact.write hReached hKey).congr hNoted

/-- A key may change once `preserve` was called for it. -/
theorem capturing_change (hJson : Json.Total) (h : Capturing orig head drained db)
    (key : String) (hCapture : db'.capture = (db.preserve key).capture)
    (hSame : ∀ k, k ≠ key → db'.keys[k]? = db.keys[k]?) :
    Capturing orig head drained db' := by
  obtain ⟨-, c, written, hc, hReached, hInv⟩ := capturing_preserve hJson h key
  refine ⟨c, written, hCapture.trans hc, ?_, hInv.text⟩
  refine hInv.exact.change fun k hk => hSame k ?_
  rintro rfl
  exact hk hReached

/-! ## The in-order pass -/

/-- A capture whose in-order pass has come to `last`, if anywhere. -/
def Capture.moved (c : Capture) (last : Option String) : Capture :=
  { c with cursor := last.or c.cursor }

/-- What is left of the in-order pass: the keys after the cursor, in order. -/
structure RunLeft (keys : BTreeMap String Entry) (cursor : Option String)
    (run : List (String × Entry)) : Prop where
  mem : ∀ k e, (k, e) ∈ run ↔ keys[k]? = some e ∧ ¬ upTo cursor k
  sorted : run.Pairwise fun a b => a.1 < b.1

omit [Json] in
theorem RunLeft.tail {keys : BTreeMap String Entry} {cursor : Option String} {entry : Entry}
    {run : List (String × Entry)} (h : RunLeft keys cursor ((key, entry) :: run)) :
    RunLeft keys (some key) run := by
  obtain ⟨hFirst, hSorted⟩ := List.pairwise_cons.mp h.sorted
  refine ⟨fun k e => ?_, hSorted⟩
  have hMem := h.mem k e
  have hKey := (h.mem key entry).mp List.mem_cons_self
  simp only [upTo, Option.some.injEq, exists_eq_left', not_le]
  constructor
  · intro hRun
    exact ⟨(hMem.mp (List.mem_cons_of_mem _ hRun)).1, hFirst _ hRun⟩
  · rintro ⟨hHeld, hLater⟩
    have hNot : ¬ upTo cursor k := by
      rintro ⟨c, hc, hle⟩
      exact hKey.2 ⟨c, hc, hLater.le.trans hle⟩
    rcases List.mem_cons.mp (hMem.mpr ⟨hHeld, hNot⟩) with hEq | hRun
    · cases hEq
      exact absurd hLater (lt_irrefl _)
    · exact hRun

omit [Json] in
/-- Nothing is held between the cursor and the next key of the pass. -/
theorem RunLeft.gap {keys : BTreeMap String Entry} {cursor : Option String} {entry : Entry}
    {run : List (String × Entry)} (h : RunLeft keys cursor ((key, entry) :: run))
    {k : String} (hBefore : k < key) (hNot : ¬ upTo cursor k) : keys[k]? = none := by
  by_contra hHeld
  obtain ⟨e, he⟩ := Option.ne_none_iff_exists'.mp hHeld
  obtain ⟨hFirst, -⟩ := List.pairwise_cons.mp h.sorted
  rcases List.mem_cons.mp ((h.mem k e).mpr ⟨he, hNot⟩) with hEq | hRun
  · cases hEq
    exact lt_irrefl _ hBefore
  · exact lt_asymm hBefore (hFirst _ hRun)

/-- The pass over the keys, from any point of it. -/
theorem capturing_write_run {keys : BTreeMap String Entry} (hJson : Json.Total) (start : Nat)
    (budget : WithTop Nat) (run : List (String × Entry)) :
    ∀ (last : Option String) (c : Capture) (written : List (String × Entry)),
      c.done = false → RunLeft keys (last.or c.cursor) run →
      CapturingAt orig head drained keys (c.moved last) written →
      ∃ written', CapturingAt orig head drained keys
        ((c.write_run start budget run last).2.moved (c.write_run start budget run last).1)
        written' := by
  induction run with
  | nil =>
    intro last c written hDone hLeft hInv
    unfold Capture.write_run
    split
    · -- the keys ended: whatever was not reached is not held
      refine ⟨written, ?_, hInv.text.sound, hInv.text.count, hInv.text.bytes⟩
      refine hInv.exact.skip (fun k _ => .inl rfl) ?_
      intro k _ hNot
      by_contra hHeld
      obtain ⟨e, he⟩ := Option.ne_none_iff_exists'.mp hHeld
      exact List.not_mem_nil ((hLeft.mem k e).mpr ⟨he, fun hUp => hNot (.inr (.inl hUp))⟩)
    · exact ⟨written, hInv⟩
  | cons pair run ih =>
    obtain ⟨key, entry⟩ := pair
    intro last c written hDone hLeft hInv
    have hKey := (hLeft.mem key entry).mp List.mem_cons_self
    have hReached (k : String) : (c.moved last).reached k ↔ upTo (last.or c.cursor) k ∨ k ∈ c.early := by
      simp [Capture.reached, Capture.moved, hDone]
    unfold Capture.write_run
    split
    · split
      · -- written early: pass over it
        next hEarly =>
        refine ih (some key) _ written hDone hLeft.tail ?_
        refine ⟨?_, hInv.text.sound, hInv.text.count, hInv.text.bytes⟩
        have hAfter (k : String) :
            (Capture.moved { c with early := c.early.erase key } (some key)).reached k ↔
              k ≤ key ∨ (key ≠ k ∧ k ∈ c.early) := by
          simp [Capture.reached, Capture.moved, hDone, upTo]
        refine hInv.exact.skip (fun k hk => (hAfter k).mpr ?_) fun k hk hNot => ?_
        · rcases (hReached k).mp hk with ⟨cur, hCur, hle⟩ | hk
          · refine .inl (le_of_lt (lt_of_not_ge fun hge => ?_))
            exact hKey.2 ⟨cur, hCur, hge.trans hle⟩
          · by_cases hEq : key = k
            · exact .inl hEq.ge
            · exact .inr ⟨hEq, hk⟩
        · rcases (hAfter k).mp hk with hle | ⟨-, hk⟩
          · rcases hle.lt_or_eq with hlt | rfl
            · exact hLeft.gap hlt fun hUp => hNot ((hReached k).mpr (.inl hUp))
            · exact absurd ((hReached k).mpr (.inr hEarly)) hNot
          · exact absurd ((hReached k).mpr (.inr hk)) hNot
      · next hEarly =>
        have hNew : ¬ (c.moved last).reached key := by
          rw [hReached]
          exact fun h => h.elim hKey.2 hEarly
        have hParts : (c.write key entry).done = false ∧ (c.write key entry).cursor = c.cursor ∧
            (c.write key entry).early = c.early := by
          rw [← hDone]
          unfold Capture.write Capture.split_part
          split <;> split <;> exact ⟨rfl, rfl, rfl⟩
        refine ih (some key) (c.write key entry) (written ++ [(key, entry)]) hParts.1 hLeft.tail ?_
        refine ⟨?_, ?_⟩
        · have hAfter (k : String) :
              ((c.write key entry).moved (some key)).reached k ↔ k ≤ key ∨ k ∈ c.early := by
            simp [Capture.reached, Capture.moved, hParts, upTo]
          refine (hInv.exact.write hNew hKey.1).skip (fun k hk => (hAfter k).mpr ?_)
            fun k hk hNot => ?_
          · rcases hk with hk | rfl
            · rcases (hReached k).mp hk with ⟨cur, hCur, hle⟩ | hk
              · refine .inl (le_of_lt (lt_of_not_ge fun hge => ?_))
                exact hKey.2 ⟨cur, hCur, hge.trans hle⟩
              · exact .inr hk
            · exact .inl le_rfl
          · rcases (hAfter k).mp hk with hle | hk
            · rcases hle.lt_or_eq with hlt | rfl
              · exact hLeft.gap hlt fun hUp => hNot (.inl ((hReached k).mpr (.inl hUp)))
              · exact absurd (.inr rfl) hNot
            · exact absurd (.inl ((hReached k).mpr (.inr hk))) hNot
        · have hText : c.Text head drained written :=
            ⟨hInv.text.sound, hInv.text.count, hInv.text.bytes⟩
          have := hText.write hJson key entry
          exact ⟨this.sound, this.count, this.bytes⟩
    · exact ⟨written, hInv⟩

/-- With an unlimited budget the pass reaches the end. -/
theorem write_run_done (start : Nat) (run : List (String × Entry)) :
    ∀ (last : Option String) (c : Capture), (c.write_run start ⊤ run last).2.done = true := by
  induction run with
  | nil => simp [Capture.write_run]
  | cons pair run ih =>
    intro last c
    unfold Capture.write_run
    rw [if_pos (WithTop.natCast_lt_top _)]
    split
    · exact ih _ _
    · exact ih _ _

theorem keys_capture_step (db : Db) (budget : WithTop Nat) :
    (db.capture_step budget).2.keys = db.keys := by
  unfold Db.capture_step
  split
  · rfl
  · split <;> rfl

theorem capturing_capture_step (hJson : Json.Total) (h : Capturing orig head drained db)
    (budget : WithTop Nat) : Capturing orig head drained (db.capture_step budget).2 := by
  obtain ⟨c, written, hc, hInv⟩ := h
  by_cases hDone : c.done = true
  · have hSame : (db.capture_step budget).2 = db := by simp [Db.capture_step, hc, hDone]
    rw [hSame]
    exact ⟨c, written, hc, hInv⟩
  · obtain ⟨run, hLeft, hStep⟩ : ∃ run, RunLeft db.keys (none.or c.cursor) run ∧
        (db.capture_step budget).2.capture = some
          ((c.write_run c.size budget run none).2.moved (c.write_run c.size budget run none).1) := by
      cases hCursor : c.cursor with
      | none =>
        refine ⟨db.keys.toList, ⟨by simp [upTo], BTreeMap.sorted_toList _⟩, ?_⟩
        simp only [Db.capture_step, hc, hDone, hCursor, Capture.moved]
        rcases Capture.write_run _ _ _ _ _ with ⟨_ | key, c'⟩ <;> rfl
      | some cursor =>
        refine ⟨db.keys.above cursor, ⟨by simp [upTo, BTreeMap.mem_above], BTreeMap.sorted_above _ _⟩, ?_⟩
        simp only [Db.capture_step, hc, hDone, hCursor, Capture.moved]
        rcases Capture.write_run _ _ _ _ _ with ⟨_ | key, c'⟩ <;> rfl
    obtain ⟨written', hInv'⟩ := capturing_write_run hJson c.size budget run none c written
      (by simpa using hDone) hLeft hInv
    exact ⟨_, written', hStep, by rw [keys_capture_step]; exact hInv'⟩

/-- Writing out everything that is left reaches every key. -/
theorem capturing_finish (hJson : Json.Total) (h : Capturing orig head drained db) :
    ∃ c written, (db.capture_step ⊤).2.capture = some c ∧ c.done = true ∧
      CapturingAt orig head drained db.keys c written := by
  obtain ⟨c, written, hc, hInv⟩ := capturing_capture_step hJson h ⊤
  rw [keys_capture_step] at hInv
  refine ⟨c, written, hc, ?_, hInv⟩
  obtain ⟨c₀, -, hc₀, -⟩ := h
  simp only [Db.capture_step, hc₀] at hc
  split at hc
  · next hDone =>
    rw [hc₀] at hc
    rwa [← Option.some.inj hc]
  · obtain rfl := Option.some.inj hc
    have hEnd (run : List (String × Entry)) := write_run_done c₀.size run none c₀
    split
    · exact hEnd _
    · exact hEnd _

/-! ## One operation, and a whole run -/

/-- Operations on one key call `preserve` for it before they change it. -/
theorem capturing_take (hJson : Json.Total) (h : Capturing orig head drained db) (key : String) :
    Capturing orig head drained (db.take key).2 := by
  have hKeys := (capturing_preserve hJson h key).1
  refine capturing_change hJson h key rfl fun k hk => ?_
  simp only [Db.take]
  rw [BTreeMap.get_erase_ne _ (Ne.symm hk), hKeys]

theorem capturing_expire_loop (hJson : Json.Total) (now visits : Nat) :
    ∀ (expired : List String) (db : Db), Capturing orig head drained db →
      Capturing orig head drained (db.expire_loop now visits expired).2 := by
  induction visits with
  | zero => exact fun _ _ h => h
  | succ visits ih =>
    intro expired db h
    unfold Db.expire_loop
    split
    · exact h
    · next due rest _ =>
      dsimp only
      have hRest : Capturing orig head drained { db with deadlines := rest } := h
      split
      · split
        · exact ih _ _ (capturing_take hJson hRest _)
        · exact ih _ _ hRest
      · exact h

theorem capturing_op (hJson : Json.Total) (h : Capturing orig head drained db) (op : CaptureOp) :
    Capturing orig head (drained ++ (op.run db).1) (op.run db).2 := by
  have hKeys (key : String) := (capturing_preserve hJson h key).1
  have hChange (key : String) (entry : Entry) :
      Capturing orig head drained (db.insert key entry) := by
    refine capturing_change hJson h key rfl fun k hk => ?_
    simp only [Db.insert]
    rw [BTreeMap.get_insert_ne _ _ (Ne.symm hk), hKeys]
  have hPreserve (key : String) : Capturing orig head drained (db.preserve key) :=
    capturing_change hJson h key rfl fun k _ => by rw [hKeys]
  cases op with
  | captureStep budget =>
    simpa [CaptureOp.run] using capturing_capture_step hJson h budget
  | drainCapture =>
    obtain ⟨c, written, hc, hExact, hSound, hCount, texts, hTexts, hBytes⟩ := h
    simp only [CaptureOp.run, Db.drain_capture, hc]
    refine ⟨_, written, rfl, hExact, hSound, hCount, texts, hTexts, ?_⟩
    rw [← hBytes]
    simp
  | insert key entry => simpa [CaptureOp.run] using hChange key entry
  | replace key entry =>
    simp only [CaptureOp.run, Db.replace, List.append_nil]
    split
    · exact hChange key entry
    · exact hPreserve key
  | take key => simpa [CaptureOp.run] using capturing_take hJson h key
  | getMut key now change =>
    simp only [CaptureOp.run, Db.get_mut]
    cases (db.preserve key).keys[key]? with
    | none => simpa using hPreserve key
    | some e =>
      by_cases hExpired : e.expired now
      · simp only [hExpired, if_true, List.append_nil]
        exact capturing_take hJson h key
      · simp only [hExpired, Bool.false_eq_true, if_false, List.append_nil]
        exact hChange key (change e)
  | remove key now =>
    simp only [CaptureOp.run, List.append_nil]
    exact capturing_take hJson h key
  | delete key now =>
    have hTake := capturing_take hJson h key
    simp only [CaptureOp.run, Db.delete, List.append_nil]
    split
    · next hEq => simpa [hEq] using hTake
    · next hEq => simpa [hEq] using hTake
  | prune key =>
    simp only [CaptureOp.run, Db.prune, List.append_nil]
    split
    · split
      · exact capturing_take hJson h key
      · exact h
    · exact h
  | clear =>
    obtain ⟨c, written, hc, hDone, hInv⟩ := capturing_finish hJson h
    simp only [CaptureOp.run, List.append_nil]
    refine ⟨c, written, hc, hInv.exact.change fun k hk => ?_, hInv.text⟩
    exact absurd (.inl hDone) hk
  | expireKeys now =>
    simp only [CaptureOp.run, List.append_nil]
    exact capturing_expire_loop hJson now _ [] db h

theorem capturing_runOps (hJson : Json.Total) (ops : List CaptureOp) :
    ∀ (drained : List Bytes) (db : Db), Capturing orig head drained db →
      Capturing orig head (drained ++ (runOps ops db).1) (runOps ops db).2 := by
  induction ops with
  | nil => intro drained db h; simpa [runOps] using h
  | cons op ops ih =>
    intro drained db h
    have := ih _ _ (capturing_op hJson h op)
    rwa [List.append_assoc] at this

/-- **The end of a capture hands out the rest of it**, the object closed. -/
theorem capturing_end (hJson : Json.Total) (h : Capturing orig head drained db) :
    ∃ (parts : List Bytes) (pairs : List (String × Entry)) (texts : List Bytes),
      db.end_capture.1 = .ok parts ∧ pairs.Perm orig.toList ∧ pairs.map pairText = texts.map some ∧
      (drained ++ parts).flatten = head ++ objectText texts ++ ['}'.toUInt8] := by
  obtain ⟨c, written, hc, hDone, hExact, hSound, -, texts, hTexts, hBytes⟩ := capturing_finish hJson h
  refine ⟨c.parts ++ [c.out ++ ['}'.toUInt8]], written, texts, ?_, hExact.complete fun k => .inl hDone, hTexts, ?_⟩
  · simp only [Db.end_capture, hc, hSound]
    rfl
  · rw [← hBytes]
    simp

/-- The parts handed out while a capture was in progress, and those its end
returns, are the text of one object: what came before the keys, then the keys
held when the capture began, each once and with the entry it had then. -/
theorem capture_exact (hJson : Json.Total) (db : Db) (head : Bytes) (ops : List CaptureOp) :
    let run := runOps ops (db.begin_capture head).2
    ∃ (parts : List Bytes) (pairs : List (String × Entry)) (texts : List Bytes),
      run.2.end_capture.1 = .ok parts ∧ pairs.Perm db.keys.toList ∧ pairs.map pairText = texts.map some ∧
      (run.1 ++ parts).flatten = head ++ objectText texts ++ ['}'.toUInt8] := by
  intro run
  exact capturing_end hJson (capturing_runOps hJson ops [] _ (capturing_begin_capture db head))

/-- The serializer on keys and strings with nothing to escape. -/
@[reducible] def plainJson : Json where
  key k := some ("\"" ++ k ++ "\"").toUTF8.toList
  entry e :=
    let expires := match e.expires with
      | some at_ => ",\"expires\":" ++ toString at_
      | none => ""
    match e.value with
    | .string s => some ("\x7b\"type\":\"string\",\"data\":\"" ++ s ++ "\"" ++ expires ++ "\x7d").toUTF8.toList
    | _ => some []

omit [Json] in
theorem plainJson_total : @Json.Total plainJson := by
  refine ⟨fun _ => rfl, fun e => ?_⟩
  obtain ⟨value, expires⟩ := e
  cases value <;> rfl

omit [Json] in
/-- A key overwritten before the capture came to it. -/
theorem capture_exact_overwritten :
    let _ : Json := plainJson
    let db : Db := { keys := (∅ : BTreeMap String Entry).insert "a" ⟨.string "1", none⟩ }
    let ops := [.insert "a" ⟨.string "2", none⟩, .captureStep 10, .drainCapture]
    let run := runOps ops (db.begin_capture "\x7b".toUTF8.toList).2
    ∃ (parts : List Bytes) (pairs : List (String × Entry)) (texts : List Bytes),
      run.2.end_capture.1 = .ok parts ∧ pairs.Perm db.keys.toList ∧
      pairs.map pairText = texts.map some ∧
      (run.1 ++ parts).flatten = "\x7b".toUTF8.toList ++ objectText texts ++ ['}'.toUInt8] :=
  @capture_exact plainJson plainJson_total _ _ _

end Postino
