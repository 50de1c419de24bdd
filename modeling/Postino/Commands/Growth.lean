import Postino.Commands.Written

/-!
# Streams over a run

What a stream goes on from is traced through a run: a stream that is renamed takes its past
along, and one that is made where nothing was live has none. Every id a stream has ever
held is at most its last id, so an id that is added is past them all.

* `stream_from` — one event: what is held after it goes on from what was held, or is new;
* `History.run_kept` — the invariant of every run;
* `xadd_cases`, `xtrim_cases` — what adding and trimming come to, and when they are refused.
-/

namespace Postino

open Lib

namespace Exec

open Fallible

/-! ## Trims -/

/-- What a trim leaves of a listing: the newest so many, or those not older. -/
def Trim.keeps (l : List (Id × List (String × String))) : Trim → List (Id × List (String × String))
  | maxlen n => l.drop (l.length - n)
  | minid least => l.filter fun e => least ≤ e.1

/-- **A trim is exact, and counts what it drops.** -/
theorem trim_exact (trim : Trim) (s : Stream) :
    (trim.apply s).2.entries.toList = trim.keeps s.entries.toList ∧
      (trim.apply s).1 = s.entries.size - (trim.apply s).2.entries.size := by
  cases trim with
  | maxlen n =>
    obtain ⟨hList, hCount, hSize⟩ := s.trim_to_exact n
    refine ⟨?_, ?_⟩
    · show (s.trim_to n).2.entries.toList = s.entries.toList.drop (s.entries.toList.length - n)
      rw [hList, Std.ExtTreeMap.length_toList]
    · show (s.trim_to n).1 = s.entries.size - (s.trim_to n).2.entries.size
      omega
  | minid least =>
    obtain ⟨hList, -, hSize⟩ := s.trim_before_exact least
    refine ⟨hList, ?_⟩
    show (s.trim_before least).1 = s.entries.size - (s.trim_before least).2.entries.size
    omega

theorem last_id_drop_oldest (n : Nat) (s : Stream) : (s.drop_oldest n).last_id = s.last_id := by
  induction n generalizing s with
  | zero => rfl
  | succ n ih =>
    rw [Stream.drop_oldest_succ]
    split <;> exact ih _

/-- Trimming takes no id back. -/
theorem last_id_trim (trim : Trim) (s : Stream) : (trim.apply s).2.last_id = s.last_id := by
  cases trim with
  | maxlen n => exact last_id_drop_oldest _ s
  | minid least => exact last_id_drop_oldest _ s

/-! ## Adding -/

/-- An id given to a new entry is past the last. -/
theorem lt_of_new_id {arg : String} {last id : Id} {now : Fin (2 ^ 64)} (h : new_id arg last now = .ok id) :
    last < id := by
  unfold new_id at h
  split at h
  · cases h
  · split at h
    · cases h
    · split at h
      · cases h
      · next hLt =>
        cases h
        exact not_le.mp hLt

/-- The stream with the entry, before it is trimmed. -/
def appended (id : Id) (fields : List (String × String)) (s : Stream) : Stream :=
  { s with entries := s.entries.insert id fields, last_id := id, added := s.added + 1 }

theorem add_entry_eq (id : Id) (fields : List (String × String)) (trim : Option Trim) (s : Stream) :
    add_entry id fields trim s = trim.elim (appended id fields s) fun t => (t.apply (appended id fields s)).2 := by
  cases trim <;> rfl

section

variable {s : Stream} {id : Id} (hLt : s.last_id < id)

include hLt

theorem appended_onward (fields : List (String × String)) : s.Onward (appended id fields s) where
  last_id := hLt.le
  entries other found hGet := by
    simp only [appended, BTreeMap.get_insert] at hGet
    split at hGet
    · next hEq => exact .inr (hEq ▸ hLt)
    · exact .inl hGet
  kept hKept :=
    { entries := fun other found hGet => by
        simp only [appended, BTreeMap.get_insert] at hGet
        split at hGet
        · next hEq => exact hEq.ge
        · exact (hKept.entries other found hGet).trans hLt.le
      deleted := hKept.deleted.trans hLt.le }
  seated hSeated := hSeated

theorem add_entry_onward (fields : List (String × String)) (trim : Option Trim) :
    s.Onward (add_entry id fields trim s) := by
  rw [add_entry_eq]
  cases trim with
  | none => exact appended_onward hLt fields
  | some t => exact (appended_onward hLt fields).trans (trim_onward t _).1

/-- **The new entry comes last, and then the trim is exact.** -/
theorem toList_add_entry (hKept : s.Kept) (fields : List (String × String)) (trim : Option Trim) :
    (add_entry id fields trim s).entries.toList =
      trim.elim (s.entries.toList ++ [(id, fields)]) (·.keeps (s.entries.toList ++ [(id, fields)])) := by
  have hLast : (appended id fields s).entries.toList = s.entries.toList ++ [(id, fields)] := by
    refine BTreeMap.toList_insert_last fields fun other hIn => ?_
    obtain ⟨found, hGet⟩ := (BTreeMap.mem_iff_get _ _).mp hIn
    exact (hKept.entries other found hGet).trans_lt hLt
  rw [add_entry_eq]
  cases trim with
  | none => exact hLast
  | some t => rw [Option.elim_some, (trim_exact t _).1, hLast, Option.elim_some]

end

theorem last_id_add_entry (id : Id) (fields : List (String × String)) (trim : Option Trim) (s : Stream) :
    (add_entry id fields trim s).last_id = id := by
  rw [add_entry_eq]
  cases trim with
  | none => rfl
  | some t => exact last_id_trim t _

section

variable [Json]

/-- What XADD comes to where it adds: the stream it found, what it was asked for, and the
keys with the stream as it is then. -/
structure Adds (ctx : Ctx) (argv : List String) (db db' : Db) (key : String) (args : XAdd) (id : Id) (s : Stream)
    (expires : Option Nat) : Prop where
  named : argv[1]? = some key
  asked : xadd_args (argv.length - 2) (argv.drop 2) false none = .ok args
  found : Found .stream db key ctx.now s expires
  fresh : new_id args.id s.last_id ctx.now = .ok id
  keys : db'.keys = db.keys.insert key ⟨.stream (add_entry id args.fields args.trim s), expires⟩

/-- What an XADD asks for, where that can be read, and the stream it finds, if any. -/
structure AddAsks (ctx : Ctx) (argv : List String) (db : Db) (key : String) (args : XAdd)
    (existing : Option Stream) : Prop where
  long : 5 ≤ argv.length
  named : argv[1]? = some key
  asked : xadd_args (argv.length - 2) (argv.drop 2) false none = .ok args
  found : stream_ref db key ctx.now = .ok existing

/-- Why an XADD is refused: it cannot be read, the key holds something else, the id it asks
for is none or not past the last, or a limit is reached. -/
inductive AddRefused (ctx : Ctx) (argv : List String) (db : Db) : Error → Prop where
  | arity (h : argv.length < 5) : AddRefused ctx argv db (.fault (wrong_args_of argv))
  | words {f : Fault} (hLong : 5 ≤ argv.length)
    (h : xadd_args (argv.length - 2) (argv.drop 2) false none = .error f) : AddRefused ctx argv db (.fault f)
  | kind {key : String} {e : Entry} (hNamed : argv[1]? = some key) (hGet : db.get key ctx.now = some e)
    (hOther : ∀ s, e.value ≠ .stream s) : AddRefused ctx argv db (.fault WRONGTYPE)
  | id {key : String} {args : XAdd} {existing : Option Stream} {f : Fault} (h : AddAsks ctx argv db key args existing)
    (hError : new_id args.id (existing.elim .zero (·.last_id)) ctx.now = .error f)
    (hNot : ∀ id, named_id args.id (existing.elim .zero (·.last_id)) ctx.now = .ok id →
      id ≤ existing.elim .zero (·.last_id)) : AddRefused ctx argv db (.fault f)
  | elements {key : String} {args : XAdd} {existing : Option Stream} {id : Id}
    (h : AddAsks ctx argv db key args existing) (hDropped : dropped args.trim existing id = 0)
    (hLive : ctx.replay = false) (hFull : ctx.max_elements < existing.elim 0 (·.entries.size) + 1) :
    AddRefused ctx argv db (.element_limit ctx.max_elements)
  | keys {key : String} (hNamed : argv[1]? = some key) (hNew : db.keys[key]? = none) (hLive : ctx.replay = false)
    (hFull : ctx.max_keys < db.keys.size + 1) : AddRefused ctx argv db (.key_limit ctx.max_keys)

omit [Json] in
theorem new_id_refused {arg : String} {last : Id} {now : Fin (2 ^ 64)} {f : Fault}
    (h : new_id arg last now = .error f) (id : Id) (hNamed : named_id arg last now = .ok id) : id ≤ last := by
  unfold new_id at h
  rw [hNamed] at h
  dsimp only at h
  split at h
  · next hZero => exact hZero ▸ Id.zero_le last
  · split at h
    · assumption
    · cases h

omit [Json] in
theorem room_for_refused {ctx : Ctx} {len adding : Nat} {e : Error} (h : room_for ctx len adding = .error e) :
    ctx.replay = false ∧ ctx.max_elements < len + adding ∧ e = .element_limit ctx.max_elements := by
  unfold room_for at h
  split at h
  · next hFull =>
    cases h
    simp only [Bool.and_eq_true, Bool.not_eq_true', decide_eq_true_eq] at hFull
    exact ⟨hFull.1, hFull.2.trans_le (min_le_left _ _), rfl⟩
  · cases h

omit [Json] in
/-- A new key is refused when there are as many as may be. -/
theorem key_refused {ctx : Ctx} {db : Db} {key : String} {e : Error} (h : admit_ db key ctx = .error e) :
    db.keys[key]? = none ∧ ctx.replay = false ∧ ctx.max_keys < db.keys.size + 1 ∧ e = .key_limit ctx.max_keys := by
  unfold admit_ admit_all at h
  dsimp only at h
  split at h
  · next hFull =>
    cases h
    simp only [Bool.and_eq_true, Bool.not_eq_true', decide_eq_true_eq] at hFull
    obtain ⟨⟨hLive, hMany⟩, hNew⟩ := hFull
    by_cases hIn : key ∈ db.keys
    · simp [hIn] at hNew
    · refine ⟨Std.ExtTreeMap.getElem?_eq_none hIn, hLive, hMany.trans_le ((min_le_left _ _).trans ?_), rfl⟩
      simp [hIn]
  · cases h

/-- **XADD is refused for a reason there is, or told not to make a stream, having changed
nothing; or it adds.** -/
theorem xadd_cases (ctx : Ctx) (argv : List String) (r : Run) :
    (∃ e, AddRefused ctx argv r.db e ∧ xadd ctx argv r = (.error e, r)) ∨
    (∃ key args, AddAsks ctx argv r.db key args none ∧ args.nomkstream = true ∧ xadd ctx argv r = (.ok .nil, r)) ∨
    ∃ key args id s expires r', Adds ctx argv r.db r'.db key args id s expires ∧
      xadd ctx argv r = (.ok (.bulk id.display), r') := by
  unfold xadd
  split
  · next head key a b c words =>
    have hLong : 5 ≤ (head :: key :: a :: b :: c :: words).length := by simp
    -- in the order the command checks: the words, the kind of the key, NOMKSTREAM, the id, the room
    cases hArgs : xadd_args (words.length + 3) (a :: b :: c :: words) false none with
    | error f => exact .inl ⟨_, .words hLong hArgs, attempt_of_error rfl⟩
    | ok args =>
      rw [attempt_of_ok rfl]
      cases hRef : stream_ref r.db key ctx.now with
      | error f =>
        obtain ⟨rfl, e, hGet, hValue⟩ := typed_ref_error hRef
        refine .inl ⟨_, .kind rfl hGet fun s hStream => ?_, reads_of_error hRef⟩
        rw [hStream] at hValue
        cases hValue
      | ok existing =>
        have hAsks : AddAsks ctx (head :: key :: a :: b :: c :: words) r.db key args existing :=
          ⟨hLong, rfl, hArgs, hRef⟩
        rw [reads_of_ok hRef]
        split
        · next hDeclined =>
          simp only [Bool.and_eq_true, Option.isNone_iff_eq_none] at hDeclined
          obtain ⟨rfl, hNot⟩ := hDeclined
          exact .inr (.inl ⟨key, args, hAsks, hNot, rfl⟩)
        cases hId : new_id args.id (existing.elim .zero (·.last_id)) ctx.now with
        | error f => exact .inl ⟨_, .id hAsks hId (new_id_refused hId), attempt_of_error rfl⟩
        | ok id =>
          rw [attempt_of_ok rfl]
          cases hRoom : (if dropped args.trim existing id = 0 then room_for ctx (existing.elim 0 (·.entries.size)) 1
            else .ok ()) with
          | error e =>
            refine .inl ⟨e, ?_, within_of_error rfl⟩
            -- room is only looked for where nothing is trimmed away
            split at hRoom
            · next hDropped =>
              obtain ⟨hLive, hFull, rfl⟩ := room_for_refused hRoom
              exact .elements hAsks hDropped hLive hFull
            · cases hRoom
          | ok _ =>
            rw [within_of_ok rfl]
            -- the key is looked up again, now to be changed or made
            rcases edit_or_create_cases .stream ctx key (fun s => (.ok (), add_entry id args.fields args.trim s)) r with
              ⟨f, hOther, -⟩ | ⟨e, -, hFull, hRun⟩ | ⟨s, expires, db, hFound, hKeys, hRun⟩
            · cases hRef.symm.trans hOther
            · obtain ⟨hNew, hLive, hMany, rfl⟩ := key_refused hFull
              exact .inl ⟨_, .keys rfl hNew hLive hMany, bind_of_error hRun⟩
            · -- the stream whose last id was looked at is the one found
              have hSame : existing.elim .zero (·.last_id) = s.last_id := by
                cases hFound with
                | live hGet hValue =>
                  simp only [stream_ref, typed_ref, hGet, hValue, Typed.stream] at hRef
                  cases hRef
                  rfl
                | new hGet =>
                  simp only [stream_ref, typed_ref, hGet] at hRef
                  cases hRef
                  rfl
              rw [bind_of_ok hRun]
              exact .inr (.inr ⟨key, args, id, s, expires, _, ⟨rfl, hArgs, hFound, hSame ▸ hId, hKeys⟩, rfl⟩)
  · next hShort =>
    refine .inl ⟨_, .arity ?_, rfl⟩
    obtain _ | ⟨_, _ | ⟨_, _ | ⟨_, _ | ⟨_, _ | ⟨_, _⟩⟩⟩⟩⟩ := argv
    case cons.cons.cons.cons.cons => exact absurd rfl (hShort _ _ _ _ _ _)
    all_goals simp

/-- Why an XTRIM is refused: it cannot be read, or the key holds something else. -/
inductive TrimRefused (ctx : Ctx) (argv : List String) (db : Db) : Fault → Prop where
  | arity (h : argv.length < 4) : TrimRefused ctx argv db (wrong_args_of argv)
  | words {f : Fault} (hLong : 4 ≤ argv.length) (h : trim_spec (argv.getD 2 "") (argv.drop 3) = .error f) :
    TrimRefused ctx argv db f
  | more {trim : Trim} {rest : List String} (h : trim_spec (argv.getD 2 "") (argv.drop 3) = .ok (trim, rest))
    (hMore : rest ≠ []) : TrimRefused ctx argv db bad_syntax
  | kind {key : String} {e : Entry} (hNamed : argv[1]? = some key) (hGet : db.get key ctx.now = some e)
    (hOther : ∀ s, e.value ≠ .stream s) : TrimRefused ctx argv db WRONGTYPE

/-- **XTRIM is refused for a reason there is, or finds no stream, having changed nothing; or
it trims.** -/
theorem xtrim_cases (ctx : Ctx) (argv : List String) (r : Run) :
    (∃ f, TrimRefused ctx argv r.db f ∧ xtrim ctx argv r = (.error f, r)) ∨
    (∃ key, argv[1]? = some key ∧ r.db.get key ctx.now = none ∧ xtrim ctx argv r = (.ok (.int 0), r)) ∨
    ∃ key trim e s r', argv[1]? = some key ∧ trim_spec (argv.getD 2 "") (argv.drop 3) = .ok (trim, []) ∧
      r.db.get key ctx.now = some e ∧ e.value = .stream s ∧
      r'.db.keys = r.db.keys.insert key { e with value := .stream (trim.apply s).2 } ∧
      xtrim ctx argv r = (.ok (.of_usize (trim.apply s).1), r') := by
  unfold xtrim
  split
  · next head key kind threshold words =>
    have hLong : 4 ≤ (head :: key :: kind :: threshold :: words).length := by simp
    cases hSpec : trim_spec kind (threshold :: words) with
    | error f => exact .inl ⟨f, .words hLong hSpec, attempt_of_error rfl⟩
    | ok spec =>
      obtain ⟨trim, rest⟩ := spec
      rw [attempt_of_ok rfl]
      -- whatever follows the threshold is an error
      cases rest with
      | cons word rest => exact .inl ⟨_, .more hSpec (List.cons_ne_nil word rest), rfl⟩
      | nil =>
        have hPass : (refuse false bad_syntax : Exec Fault Unit) r = (.ok (), r) := rfl
        rcases edit_cases .stream ctx key
            (fun s => ((.ok (trim.apply s).1 : Except Fault Nat), (trim.apply s).2)) r with
          ⟨f, hRef, hRun⟩ | ⟨hNone, hRun⟩ | ⟨e, s, db, hGet, hValue, hKeys, hRun⟩
        · obtain ⟨rfl, e, hGet, hValue⟩ := typed_ref_error hRef
          refine .inl ⟨_, .kind rfl hGet fun s hStream => ?_, (bind_of_ok hPass).trans (bind_of_error hRun)⟩
          rw [hStream] at hValue
          cases hValue
        · exact .inr (.inl ⟨key, rfl, hNone, (bind_of_ok hPass).trans (bind_of_ok hRun)⟩)
        · obtain ⟨r', hDb, hTouch⟩ := provided_touch_eq (0 < (trim.apply s).1) ctx key "xtrim"
            (fun _ => (pure (.of_usize (trim.apply s).1) : Exec Fault Reply)) { r with db }
          refine .inr (.inr ⟨key, trim, e, s, r', rfl, hSpec, hGet, hValue, ?_,
            (bind_of_ok hPass).trans ((bind_of_ok hRun).trans hTouch)⟩)
          rw [hDb]
          exact hKeys
  · next hShort =>
    refine .inl ⟨_, .arity ?_, rfl⟩
    match argv, hShort with
    | [], _ | [_], _ | [_, _], _ | [_, _, _], _ => simp
    | head :: key :: kind :: threshold :: words, hShort => exact absurd rfl (hShort head key kind threshold words)

/-- RENAME fails, or has nothing to do, or moves what the source holds to the target. -/
theorem rename_sat (nx : Bool) (ctx : Ctx) (argv : List String) (r : Run) :
    Sat (rename nx ctx argv) r
      (fun reply r' => reply.is_error = false ∧ (r'.db.keys = r.db.keys ∧ r'.dirty = r.dirty ∨
        ∃ source target e, argv[1]? = some source ∧ argv[2]? = some target ∧ source ≠ target ∧
          r.db.get source ctx.now = some e ∧
          r'.db.keys = (r.db.keys.erase source).insert target e ∧ r'.dirty = true))
      (fun r' => r'.db.keys = r.db.keys ∧ r'.dirty = r.dirty) := by
  unfold rename
  split
  · next name source target =>
    refine sat_look ?_
    dsimp only [id]
    split
    · exact ⟨rfl, rfl⟩
    · next hExists =>
      split
      · exact ⟨by cases nx <;> rfl, .inl ⟨rfl, rfl⟩⟩
      · next hNe =>
        split
        · exact ⟨rfl, .inl ⟨rfl, rfl⟩⟩
        · -- the one case that moves something: the source is there, and is not the target
          obtain ⟨e, hGet⟩ : ∃ e, r.db.get source ctx.now = some e := by
            exact Option.ne_none_iff_exists'.mp (by simpa [Db.exists_] using hExists)
          obtain ⟨hHeld, hLive⟩ := Db.held_of_get hGet
          have hRemove : (r.db.remove source ctx.now).1 = some e := by
            unfold Db.remove
            rw [show r.db.take source = ((r.db.take source).1, (r.db.take source).2) from rfl, Db.take_fst, hHeld]
            simp [hLive]
          unfold move_key
          refine sat_bind (sat_look ?_)
          rw [hRemove]
          refine ⟨by cases nx <;> rfl, .inr ⟨source, target, e, rfl, rfl, hNe, hGet, ?_, rfl⟩⟩
          show (((r.db.remove source ctx.now).2.note target e.expires).insert target e).keys = _
          rw [Db.keys_insert, Db.keys_note, Db.keys_remove]
  · exact ⟨rfl, rfl⟩

/-- What a stream under a key is after something that may make one: what was found there
has gone on. -/
def Makes (ctx : Ctx) (argv : List String) (db db' : Db) : Prop :=
  ∃ key s expires t, key ∈ written argv ∧ Found .stream db key ctx.now s expires ∧
    db'.keys = db.keys.insert key ⟨.stream t, expires⟩ ∧ s.Onward t

omit [Json] in
theorem create_group_onward (group id : String) (s : Stream) : s.Onward (create_group group id s).2 := by
  unfold create_group
  split
  · exact .refl s
  · split
    · exact .refl s
    · exact .of_groups fun h => h.insert (Group.seated_new _)

theorem xgroup_create_sat {ctx : Ctx} {argv : List String} {key : String} (hKey : key ∈ written argv)
    (group id : String) (options : List String) (r : Run) :
    Sat (xgroup_create ctx key group id options) r
      (fun _ r' => r'.db.keys = r.db.keys ∨ Makes ctx argv r.db r'.db)
      (fun r' => r'.db.keys = r.db.keys ∨ Makes ctx argv r.db r'.db) := by
  unfold xgroup_create
  refine sat_attempt (.inl rfl) fun _ _ => sat_reads (.inl rfl) fun s _ => ?_
  refine sat_bind (sat_refuse (fun _ => .inl rfl) fun _ => ?_)
  refine sat_edit_or_create _ (.inl rfl) fun s expires db hFound hKeys => ?_
  have hMakes : Makes ctx argv r.db db :=
    ⟨key, s, expires, _, hKey, hFound, hKeys, create_group_onward group id s⟩
  cases (create_group group id s).1 with
  | ok _ => exact .inr hMakes
  | error e => exact .inr hMakes

end

end Exec

/-! ## Runs -/

/-- What happens to the keyspace: a command, or a sweep of the keys whose time has come. -/
inductive Happening where
  | command (argv : List String) (ctx : Ctx)
  | sweep (now : Nat)

/-- Whether a command is one that makes a stream where none is live. -/
def makes_stream (argv : List String) : Bool :=
  Name.of_ argv = "XADD" ||
    Name.of_ argv = "XGROUP" && (argv[1]?).any fun sub => to_ascii_uppercase sub = "CREATE"

/-- Whether a command is one that renames a key. -/
def renames (argv : List String) : Bool := Name.of_ argv = "RENAME" || Name.of_ argv = "RENAMENX"

namespace Db

variable [Json]

/-- `key` holds the stream, whether it has expired or not. -/
def holds (db : Db) (key : String) (s : Stream) : Prop := ∃ e, db.keys[key]? = some e ∧ e.value = .stream s

omit [Json] in
theorem holds_of_insert {db db' : Db} {key : String} {s : Stream} {expires : Option Nat}
    (h : db'.keys = db.keys.insert key ⟨.stream s, expires⟩) : db'.holds key s :=
  ⟨_, by rw [h, BTreeMap.get_insert, if_pos rfl], rfl⟩

def after (db : Db) : Happening → Db
  | .command argv ctx => (db.exec argv ctx).2
  | .sweep now => (db.expire_keys now).2

/-- The key whose stream is the one `key` holds afterwards: a rename moves it, and one that
is made where nothing was live is new. -/
def origin (db : Db) (h : Happening) (key : String) : Option String :=
  match h with
  | .sweep _ => some key
  | .command argv ctx =>
    if renames argv ∧ (db.exec argv ctx).1.dirty ∧ argv[2]? = some key then argv[1]?
    else if makes_stream argv ∧ db.get key ctx.now = none ∧ (db.exec argv ctx).2.keys[key]? ≠ db.keys[key]?
      then none
    else some key

end Db

/-- The keyspace, with every id the stream under a key has held since it was made. -/
structure History where
  db : Db
  ever : String → Set Id

namespace History

variable [Json]

/-- Nothing has happened yet. -/
def new : History := { db := {}, ever := fun _ => ∅ }

def after (h : History) (happening : Happening) : History where
  db := h.db.after happening
  ever key := {id | (∃ s fields, (h.db.after happening).holds key s ∧ s.entries[id]? = some fields) ∨
    ∃ k, h.db.origin happening key = some k ∧ id ∈ h.ever k}

def run (happenings : List Happening) : History := happenings.foldl after new

/-- No id a stream has held, or notes as deleted, is past its last. -/
structure Kept (h : History) : Prop where
  stream : ∀ key s, h.db.holds key s → s.Kept
  ever : ∀ key s, h.db.holds key s → ∀ id ∈ h.ever key, id ≤ s.last_id

end History

/-! ## One event -/

section

variable [Json]

omit [Json] in
/-- Where no stream is made, what a stream goes on from was under its key. -/
theorem Changed.goes_on {W : Set String} {r r' : Run} (h : Changed W Leeway.streams r r') {key : String}
    {t : Stream} (hHolds : r'.db.holds key t) : ∃ s, r.db.holds key s ∧ s.Onward t := by
  obtain ⟨e', hGet, hValue⟩ := hHolds
  by_cases hIn : key ∈ W
  · obtain ⟨e, s, hHeld, hStream, hOn⟩ := h.within key hIn e' t hGet hValue
    exact ⟨s, ⟨e, hHeld, hStream⟩, hOn⟩
  · rw [h.frame key hIn] at hGet
    exact ⟨t, ⟨e', hGet, hValue⟩, .refl t⟩

namespace Exec

open Fallible Leeway Handler

/-- A command that neither flushes, renames nor makes a stream lets streams go on. -/
theorem command_streams {argv : List String} (ctx : Ctx) (hFlush : ¬flushes argv) (hRename : renames argv = false)
    (hAdd : Name.of_ argv ≠ "XADD") (hGroup : Name.of_ argv ≠ "XGROUP") :
    Steps (written argv) streams (dispatch (Name.of_ argv) ctx argv) := by
  refine dispatch_steps fun e hMem hName => ?_
  simp only [commands, List.mem_append] at hMem
  rcases hMem with ((((hLooks | hRemoves) | hStores) | hMoves) | hStreams) | hFlushes
  · exact looking_footprints e hLooks
  · exact (removing_footprints e hRemoves).mono shrinks_streams
  · exact (storing_footprints e hStores).mono stores_streams
  · simp only [renames, Bool.or_eq_false_iff, decide_eq_false_iff_not, ← hName] at hRename
    exact ((moving_footprints e hMoves).2 hRename.1 hRename.2).mono stores_streams
  · exact (stream_footprints e hStreams).2 (hName ▸ hAdd) (hName ▸ hGroup)
  · simp only [flushing_commands, List.mem_cons, List.not_mem_nil, or_false] at hFlushes
    rcases hFlushes with rfl | rfl
    · exact absurd (.inr hName.symm) hFlush
    · exact absurd (.inl hName.symm) hFlush

/-- A flush leaves the keys, or none. -/
theorem flush_sat (ctx : Ctx) (argv : List String) (r : Run) :
    Sat (flush ctx argv) r (fun _ r' => r'.db.keys = r.db.keys ∨ r'.db.keys = ∅)
      (fun r' => r'.db.keys = r.db.keys ∨ r'.db.keys = ∅) := by
  unfold flush
  refine sat_bind (sat_refuse (fun _ => .inl rfl) fun _ => sat_look ?_)
  split
  · exact .inl rfl
  · exact .inr rfl

/-- XGROUP changes nothing, or makes a stream, or lets streams go on. -/
theorem xgroup_streams {ctx : Ctx} {argv : List String} (hName : Name.of_ argv = "XGROUP") (r : Run) :
    (xgroup ctx argv r).2.db.keys = r.db.keys ∨
      makes_stream argv = true ∧ Makes ctx argv r.db (xgroup ctx argv r).2.db ∨
      makes_stream argv = false ∧ Changed (written argv) streams r (xgroup ctx argv r).2 := by
  refine @xgroup_cases _ (fun m => (m r).2.db.keys = r.db.keys ∨
      makes_stream argv = true ∧ Makes ctx argv r.db (m r).2.db ∨
      makes_stream argv = false ∧ Changed (written argv) streams r (m r).2) ctx argv (fun _ => .inl rfl)
    (fun _ => .inl rfl) fun sub key hSub hAt => ?_
  have hKey : key ∈ written argv := names_second rfl argv hName hAt
  -- only CREATE makes a stream: the others change one that is there
  have hOther {m : Exec Error Reply} {word : String} (hWord : to_ascii_uppercase sub = word)
      (hNot : word ≠ "CREATE") (h : Steps (written argv) streams m) :
      (m r).2.db.keys = r.db.keys ∨ makes_stream argv = true ∧ Makes ctx argv r.db (m r).2.db ∨
        makes_stream argv = false ∧ Changed (written argv) streams r (m r).2 :=
    .inr (.inr ⟨by simp [makes_stream, hName, hSub, hWord, hNot], h r⟩)
  refine ⟨fun hWord group id options => ?_,
    fun hWord group id => hOther hWord (by decide) (xgroup_setid_steps hKey ctx group id),
    fun hWord group => hOther hWord (by decide) ?_,
    fun hWord group consumer => hOther hWord (by decide) (xgroup_createconsumer_steps hKey ctx group consumer),
    fun hWord group consumer => hOther hWord (by decide) ?_⟩
  · rcases (@xgroup_create_sat _ ctx argv key hKey group id options r).state with hKeys | hMakes
    · exact .inl hKeys
    · exact .inr (.inl ⟨by simp [makes_stream, hName, hSub, hWord], hMakes⟩)
  · exact (xgroup_destroy_steps hKey ctx group).mono subset_rfl shrinks_streams
  · exact (xgroup_delconsumer_steps hKey ctx group consumer).mono subset_rfl shrinks_streams

theorem xadd_streams {ctx : Ctx} {argv : List String} (hName : Name.of_ argv = "XADD") (r : Run) :
    (xadd ctx argv r).2.db.keys = r.db.keys ∨ Makes ctx argv r.db (xadd ctx argv r).2.db := by
  rcases xadd_cases ctx argv r with ⟨e, -, hRun⟩ | ⟨key, args, -, -, hRun⟩ | ⟨key, args, id, s, expires, r', hAdds, hRun⟩
  · exact .inl (by rw [hRun])
  · exact .inl (by rw [hRun])
  · rw [hRun]
    refine .inr ⟨key, s, expires, _, names_first rfl argv hName hAdds.named, hAdds.found, hAdds.keys, ?_⟩
    exact add_entry_onward (lt_of_new_id hAdds.fresh) _ _

end Exec

namespace Db

open Exec Leeway

/-- What is held after an event goes on from what was held, where it was not made anew. -/
def Traced (db : Db) (h : Happening) : Prop :=
  ∀ key t, (db.after h).holds key t →
    match db.origin h key with
    | some k => ∃ s, db.holds k s ∧ s.Onward t
    | none => ({} : Stream).Onward t

/-- Where nothing is made or renamed. -/
theorem traced_of_goes_on {db : Db} {argv : List String} {ctx : Ctx} (hRename : renames argv = false)
    (hMakes : makes_stream argv = false)
    (h : ∀ key t, (db.exec argv ctx).2.holds key t → ∃ s, db.holds key s ∧ s.Onward t) :
    db.Traced (.command argv ctx) := fun key t hHolds => by
  simp only [origin, hRename, hMakes, Bool.false_eq_true, false_and, if_false]
  exact h key t hHolds

theorem traced_of_same {db : Db} {argv : List String} {ctx : Ctx} (hRename : renames argv = false)
    (h : (db.exec argv ctx).2.keys = db.keys) : db.Traced (.command argv ctx) := fun key t hHolds => by
  obtain ⟨e, hGet, hValue⟩ := hHolds
  change (db.exec argv ctx).2.keys[key]? = some e at hGet
  rw [h] at hGet
  simp only [origin, hRename, h, Bool.false_eq_true, false_and, if_false, ne_eq, not_true_eq_false, and_false]
  exact ⟨t, ⟨e, hGet, hValue⟩, .refl t⟩

/-- Where a stream may be made. -/
theorem traced_of_makes {db : Db} {argv : List String} {ctx : Ctx} (hRename : renames argv = false)
    (hMakes : makes_stream argv = true)
    (h : (db.exec argv ctx).2.keys = db.keys ∨ Makes ctx argv db (db.exec argv ctx).2) :
    db.Traced (.command argv ctx) := fun key t hHolds => by
  have hSame (hKeys : (db.exec argv ctx).2.keys[key]? = db.keys[key]?) :
      ∃ s, db.holds key s ∧ s.Onward t := by
    obtain ⟨e, hGet, hValue⟩ := hHolds
    exact ⟨t, ⟨e, hKeys ▸ hGet, hValue⟩, .refl t⟩
  simp only [origin, hRename, hMakes, Bool.false_eq_true, false_and, if_false, true_and]
  rcases h with hKeys | ⟨made, s, expires, u, -, hFound, hKeys, hOn⟩
  · rw [if_neg (by rw [hKeys]; exact fun h => h.2 rfl)]
    exact hSame (by rw [hKeys])
  · -- the stream made or added to is under one key, every other key keeps what it held
    by_cases hKey : key = made
    · subst hKey
      have hHeld : t = u := by
        obtain ⟨e, hGet, hValue⟩ := hHolds
        change (db.exec argv ctx).2.keys[key]? = some e at hGet
        rw [hKeys, BTreeMap.get_insert, if_pos rfl] at hGet
        cases hGet
        cases hValue
        rfl
      subst hHeld
      cases hFound with
      -- it was there: what it holds goes on from itself
      | live hGet hValue =>
        rw [if_neg (by rw [hGet]; exact fun h => nomatch h.1)]
        exact ⟨s, ⟨_, (held_of_get hGet).1, hValue⟩, hOn⟩
      -- it is new, and goes on from the empty stream, or nothing was changed
      | new hGet =>
        split
        · next k hOrigin =>
          split at hOrigin
          · cases hOrigin
          · next hNot =>
            cases hOrigin
            refine hSame ?_
            by_contra hNe
            exact hNot ⟨hGet, hNe⟩
        · exact hOn
    · have hFrame : (db.exec argv ctx).2.keys[key]? = db.keys[key]? := by
        rw [hKeys, BTreeMap.get_insert_ne _ _ (Ne.symm hKey)]
      rw [if_neg fun h => h.2 hFrame]
      exact hSame hFrame

/-- Where a key may be renamed. -/
theorem traced_of_renames {db : Db} {argv : List String} {ctx : Ctx} (hRename : renames argv = true)
    (h : (db.exec argv ctx).2.keys = db.keys ∧ (db.exec argv ctx).1.dirty = false ∨
      ∃ source target e, argv[1]? = some source ∧ argv[2]? = some target ∧ source ≠ target ∧
        db.get source ctx.now = some e ∧
        (db.exec argv ctx).2.keys = (db.keys.erase source).insert target e ∧ (db.exec argv ctx).1.dirty = true) :
    db.Traced (.command argv ctx) := fun key t hHolds => by
  have hMakes : makes_stream argv = false := by
    simp only [renames, Bool.or_eq_true, decide_eq_true_eq] at hRename
    rcases hRename with hName | hName <;> simp [makes_stream, hName]
  obtain ⟨e, hGet, hValue⟩ := hHolds
  change (db.exec argv ctx).2.keys[key]? = some e at hGet
  simp only [origin, hRename, hMakes, Bool.false_eq_true, false_and, if_false, true_and]
  rcases h with ⟨hKeys, hDirty⟩ | ⟨source, target, moved, hSource, hTarget, hNe, hHeld, hKeys, hDirty⟩
  · rw [hDirty, if_neg fun h => nomatch h.1]
    rw [hKeys] at hGet
    exact ⟨t, ⟨e, hGet, hValue⟩, .refl t⟩
  · -- the target goes on from what the source held, the source is gone
    rw [hKeys, BTreeMap.get_insert] at hGet
    rw [hDirty, hTarget, hSource]
    by_cases hKey : target = key
    · subst hKey
      rw [if_pos rfl] at hGet
      cases hGet
      rw [if_pos ⟨rfl, rfl⟩]
      exact ⟨t, ⟨_, (held_of_get hHeld).1, hValue⟩, .refl t⟩
    · rw [if_neg hKey, BTreeMap.get_erase] at hGet
      rw [if_neg fun h => hKey (Option.some.inj h.2)]
      split at hGet
      · cases hGet
      · exact ⟨t, ⟨e, hGet, hValue⟩, .refl t⟩

/-- A sweep only removes. -/
theorem held_of_expire_loop (now : Nat) (visits : Nat) (expired : List String) (db : Db) {key : String} {e : Entry}
    (h : (expire_loop now visits expired db).2.keys[key]? = some e) : db.keys[key]? = some e := by
  induction visits generalizing expired db with
  | zero => exact h
  | succ visits ih =>
    unfold expire_loop at h
    split at h
    · exact h
    · next due rest hDue =>
      dsimp only at h
      split at h
      · split at h
        · have hTaken := ih _ _ h
          rw [keys_take, BTreeMap.get_erase] at hTaken
          split at hTaken
          · cases hTaken
          · exact hTaken
        · exact ih expired { db with deadlines := rest } h
      · exact h

/-- **What a stream goes on from is where its origin says.** -/
theorem traced (db : Db) (h : Happening) : db.Traced h := by
  cases h with
  | sweep now =>
    rintro key t ⟨e, hGet, hValue⟩
    exact ⟨t, ⟨e, held_of_expire_loop now _ [] db hGet, hValue⟩, .refl t⟩
  | command argv ctx =>
    by_cases hRename : renames argv = true
    · have hName : Name.of_ argv = "RENAME" ∨ Name.of_ argv = "RENAMENX" := by
        simpa [renames] using hRename
      obtain ⟨nx, hRun⟩ : ∃ nx, db.run argv ctx = (Handler.changes (rename nx)).run ctx argv { db } := by
        rcases hName with hName | hName
        · exact ⟨false, db.run_of_name ctx hName (by decide)⟩
        · exact ⟨true, db.run_of_name ctx hName (by decide)⟩
      refine traced_of_renames hRename ?_
      rcases exec_of_sat hRun (sat_changes (rename_sat nx ctx argv _)) with
        ⟨reply, r, ⟨hReply, hDone⟩, hExec⟩ | ⟨e, r, ⟨hKeys, -⟩, hExec⟩
      · rw [hExec]
        rcases hDone with ⟨hKeys, hDirty⟩ | ⟨source, target, e, hSource, hTarget, hNe, hGet, hKeys, hDirty⟩
        · exact .inl ⟨hKeys, by simp [hDirty]⟩
        · exact .inr ⟨source, target, e, hSource, hTarget, hNe, hGet, hKeys, by simp [hDirty, hReply]⟩
      · rw [hExec]
        exact .inl ⟨hKeys, rfl⟩
    · have hRename : renames argv = false := by simpa using hRename
      have hGoesOn (hMakes : makes_stream argv = false)
          (hChanged : Changed (written argv) streams { db } (db.run argv ctx).2) :
          db.Traced (.command argv ctx) :=
        traced_of_goes_on hRename hMakes fun key t hHolds => hChanged.goes_on hHolds
      -- XADD and XGROUP CREATE make streams, no other command does
      by_cases hAdd : Name.of_ argv = "XADD"
      · have hRun : db.run argv ctx = xadd ctx argv { db } := db.run_of_name ctx hAdd (by decide)
        refine traced_of_makes hRename (by simp [makes_stream, hAdd]) ?_
        show (db.run argv ctx).2.db.keys = _ ∨ Makes ctx argv db (db.run argv ctx).2.db
        rw [hRun]
        exact xadd_streams hAdd { db }
      · by_cases hGroup : Name.of_ argv = "XGROUP"
        · have hRun : db.run argv ctx = xgroup ctx argv { db } := db.run_of_name ctx hGroup (by decide)
          have hEnds := @xgroup_streams _ ctx argv hGroup { db }
          rw [← hRun] at hEnds
          rcases hEnds with hSame | ⟨hMakes, hMade⟩ | ⟨hMakes, hChanged⟩
          · exact traced_of_same hRename hSame
          · exact traced_of_makes hRename hMakes (.inr hMade)
          · exact hGoesOn hMakes hChanged
        · have hMakes : makes_stream argv = false := by simp [makes_stream, hAdd, hGroup]
          by_cases hFlush : flushes argv
          · have hRun : db.run argv ctx = (Handler.changes flush).run ctx argv { db } := by
              rcases hFlush with hName | hName
              · exact db.run_of_name ctx hName (by decide)
              · exact db.run_of_name ctx hName (by decide)
            refine traced_of_goes_on hRename hMakes ?_
            rintro key t ⟨e, hGet, hValue⟩
            change (db.run argv ctx).2.db.keys[key]? = some e at hGet
            rw [hRun] at hGet
            rcases (sat_changes (flush_sat ctx argv { db })).state with hKeys | hKeys
            · rw [hKeys] at hGet
              exact ⟨t, ⟨e, hGet, hValue⟩, .refl t⟩
            · rw [hKeys] at hGet
              cases hGet
          · refine hGoesOn hMakes ?_
            cases argv with
            | nil => exact refl_of (Changed _ _) _
            | cons word words => exact command_streams ctx hFlush hRename hAdd hGroup _

end Db

/-! ## A run -/

namespace History

open Exec

omit [Json] in
theorem kept_new : new.Kept where
  stream key s h := by
    obtain ⟨e, hGet, -⟩ := h
    cases hGet
  ever key s h := by
    obtain ⟨e, hGet, -⟩ := h
    cases hGet

/-- One event keeps what is known of the streams. -/
theorem after_kept {h : History} (hKept : h.Kept) (happening : Happening) : (h.after happening).Kept := by
  have hStream : ∀ key t, (h.db.after happening).holds key t → t.Kept := fun key t hHolds => by
    have hTraced := h.db.traced happening key t hHolds
    split at hTraced
    · obtain ⟨s, hHeld, hOn⟩ := hTraced
      exact hOn.kept (hKept.stream _ s hHeld)
    · exact hTraced.kept Stream.kept_new
  refine ⟨hStream, fun key t hHolds id hEver => ?_⟩
  rcases hEver with ⟨s, fields, hNow, hGet⟩ | ⟨k, hOrigin, hPast⟩
  · -- the stream held is the one whose entry it is
    obtain ⟨e, hHeld, hValue⟩ := hHolds
    obtain ⟨e', hHeld', hValue'⟩ := hNow
    change (h.db.after happening).keys[key]? = some e at hHeld
    rw [hHeld] at hHeld'
    cases hHeld'
    rw [hValue] at hValue'
    cases hValue'
    exact (hStream key t ⟨e, hHeld, hValue⟩).entries id fields hGet
  · have hTraced := h.db.traced happening key t hHolds
    rw [hOrigin] at hTraced
    obtain ⟨s, hHeld, hOn⟩ := hTraced
    exact (hKept.ever k s hHeld id hPast).trans hOn.last_id

theorem run_kept (happenings : List Happening) : (run happenings).Kept := by
  have hFold (h : History) (hKept : h.Kept) : (happenings.foldl after h).Kept := by
    induction happenings generalizing h with
    | nil => exact hKept
    | cons happening happenings ih => exact ih _ (after_kept hKept happening)
  exact hFold new kept_new

/-- An execution of XADD is refused for a reason there is, or finds no stream and is not to
make one, and changes no key; or it adds an entry past every id the stream has held, and a
trim it is given is exact. -/
def AddsPast (h : History) (argv : List String) (ctx : Ctx) : Prop :=
  (∃ e : Error, AddRefused ctx argv h.db e ∧ (h.db.exec argv ctx).1.reply = .error e.text ∧
      (h.db.exec argv ctx).2.keys = h.db.keys) ∨
    (∃ key args, AddAsks ctx argv h.db key args none ∧ args.nomkstream = true ∧
      (h.db.exec argv ctx).1.reply = .nil ∧ (h.db.exec argv ctx).2.keys = h.db.keys) ∨
    ∃ key args id s t expires, argv[1]? = some key ∧
      xadd_args (argv.length - 2) (argv.drop 2) false none = .ok args ∧
      Found .stream h.db key ctx.now s expires ∧
      (h.db.exec argv ctx).1.reply = .bulk id.display ∧ (h.db.exec argv ctx).2.holds key t ∧
      t.last_id = id ∧ s.last_id < id ∧
      (h.db.get key ctx.now ≠ none → ∀ past ∈ h.ever key, past < id) ∧
      t.entries.toList = args.trim.elim (s.entries.toList ++ [(id, args.fields)])
        (·.keeps (s.entries.toList ++ [(id, args.fields)]))

/-- An execution of XTRIM is refused for a reason there is, or finds no stream, and changes
no key; or it trims exactly, and says how many entries it removed. -/
def TrimsExactly (db : Db) (argv : List String) (ctx : Ctx) : Prop :=
  (∃ f : Fault, TrimRefused ctx argv db f ∧ (db.exec argv ctx).1.reply = .error f.text ∧
      (db.exec argv ctx).2.keys = db.keys) ∨
    (∃ key, argv[1]? = some key ∧ db.get key ctx.now = none ∧ (db.exec argv ctx).1.reply = .int 0 ∧
      (db.exec argv ctx).2.keys = db.keys) ∨
    ∃ key trim e s t, argv[1]? = some key ∧
      trim_spec (argv.getD 2 "") (argv.drop 3) = .ok (trim, []) ∧ db.get key ctx.now = some e ∧
      e.value = .stream s ∧ (db.exec argv ctx).2.holds key t ∧ t.last_id = s.last_id ∧
      t.entries.toList = trim.keeps s.entries.toList ∧
      (db.exec argv ctx).1.reply = .of_usize (s.entries.size - t.entries.size)

theorem adds_past {h : History} (hKept : h.Kept) {argv : List String} (hName : Name.of_ argv = "XADD")
    (ctx : Ctx) : h.AddsPast argv ctx := by
  unfold AddsPast
  have hRun : h.db.run argv ctx = xadd ctx argv { db := h.db } := h.db.run_of_name ctx hName (by decide)
  rcases xadd_cases ctx argv { db := h.db } with
    ⟨e, hRefused, hResult⟩ | ⟨key, args, hAsks, hNot, hResult⟩ | ⟨key, args, id, s, expires, r, hAdds, hResult⟩
  · rw [Db.exec_of_error (hRun.trans hResult)]
    exact .inl ⟨e, hRefused, rfl, rfl⟩
  · rw [Db.exec_of_ok (hRun.trans hResult)]
    exact .inr (.inl ⟨key, args, hAsks, hNot, rfl, rfl⟩)
  · rw [Db.exec_of_ok (hRun.trans hResult)]
    have hLt := lt_of_new_id hAdds.fresh
    have hStream : s.Kept := by
      cases hAdds.found with
      | live hGet hValue => exact hKept.stream key s ⟨_, (Db.held_of_get hGet).1, hValue⟩
      | new _ => exact Stream.kept_new
    refine .inr (.inr ⟨key, args, id, s, _, expires, hAdds.named, hAdds.asked, hAdds.found, rfl,
      Db.holds_of_insert hAdds.keys,
      last_id_add_entry id args.fields args.trim s, hLt, fun hLive past hPast => ?_,
      toList_add_entry hLt hStream args.fields args.trim⟩)
    cases hAdds.found with
    | live hGet hValue =>
      exact (hKept.ever key s ⟨_, (Db.held_of_get hGet).1, hValue⟩ past hPast).trans_lt hLt
    | new hGet => exact absurd hGet hLive

theorem trims_exactly (db : Db) {argv : List String} (hName : Name.of_ argv = "XTRIM") (ctx : Ctx) :
    TrimsExactly db argv ctx := by
  unfold TrimsExactly
  have hRun : db.run argv ctx = (Handler.changes xtrim).run ctx argv { db } :=
    db.run_of_name ctx hName (by decide)
  rcases xtrim_cases ctx argv { db } with
    ⟨f, hRefused, hResult⟩ | ⟨key, hKey, hNone, hResult⟩ |
    ⟨key, trim, e, s, r, hKey, hSpec, hGet, hValue, hKeys, hResult⟩
  · rw [Db.exec_of_error (hRun.trans (changes_of_error hResult))]
    exact .inl ⟨f, hRefused, rfl, rfl⟩
  · rw [Db.exec_of_ok (hRun.trans (changes_of_ok hResult))]
    exact .inr (.inl ⟨key, hKey, hNone, rfl, rfl⟩)
  · rw [Db.exec_of_ok (hRun.trans (changes_of_ok hResult))]
    obtain ⟨hList, hCount⟩ := trim_exact trim s
    refine .inr (.inr ⟨key, trim, e, s, _, hKey, hSpec, hGet, hValue,
      Db.holds_of_insert hKeys, last_id_trim trim s, hList, ?_⟩)
    rw [← hCount]

/-- **Stream ids only grow, and trimming is exact.** -/
theorem stream_ids_grow (happenings : List Happening) (ctx : Ctx) (argv : List String) :
    let h := run happenings
    (∀ key s, h.db.holds key s →
      (∀ (id : Id) fields, s.entries[id]? = some fields → id ≤ s.last_id) ∧ s.max_deleted ≤ s.last_id) ∧
    (Name.of_ argv = "XADD" → h.AddsPast argv ctx) ∧
    (Name.of_ argv = "XTRIM" → TrimsExactly h.db argv ctx) := by
  have hKept := run_kept happenings
  refine ⟨fun key s hHolds => ?_, fun hName => adds_past hKept hName ctx, fun hName => trims_exactly _ hName ctx⟩
  have hStream := hKept.stream key s hHolds
  exact ⟨hStream.entries, hStream.deleted⟩

/-- What an XADD that replies with an id leaves of the stream that was there. -/
theorem AddsPast.leaves {h : History} {argv : List String} {ctx : Ctx} (hAdds : h.AddsPast argv ctx) {key : String}
    (hKey : argv[1]? = some key) {e : Entry} (hGet : h.db.get key ctx.now = some e) {s : Stream}
    (hValue : e.value = .stream s) {id : Id} (hReply : (h.db.exec argv ctx).1.reply = .bulk id.display) :
    ∃ args t, xadd_args (argv.length - 2) (argv.drop 2) false none = .ok args ∧ (h.db.exec argv ctx).2.holds key t ∧
      t.entries.toList = args.trim.elim (s.entries.toList ++ [(id, args.fields)])
        (·.keeps (s.entries.toList ++ [(id, args.fields)])) := by
  rcases hAdds with ⟨_, -, hOther, -⟩ | ⟨_, _, -, -, hOther, -⟩ |
    ⟨key', args, id', s', t, x, hKey', hArgs, hFound, hReply', hHolds, -, -, -, hLeft⟩
  · cases hReply.symm.trans hOther
  · cases hReply.symm.trans hOther
  · obtain rfl := Option.some.inj (hKey.symm.trans hKey')
    obtain rfl : id = id' := Id.display_injective (Reply.bulk.inj (hReply.symm.trans hReply'))
    cases hFound with
    | new hNone => cases hNone.symm.trans hGet
    | live hGet' hValue' =>
      obtain rfl := Option.some.inj (hGet.symm.trans hGet')
      obtain rfl : s = s' := Value.stream.inj (hValue.symm.trans hValue')
      exact ⟨args, t, hArgs, hHolds, hLeft⟩

/-- What an XTRIM that replies with a number leaves of the stream that was there. -/
theorem TrimsExactly.leaves {db : Db} {argv : List String} {ctx : Ctx} (hTrims : TrimsExactly db argv ctx)
    {key : String} (hKey : argv[1]? = some key) {e : Entry} (hGet : db.get key ctx.now = some e) {s : Stream}
    (hValue : e.value = .stream s) {n : Int} (hReply : (db.exec argv ctx).1.reply = .int n) :
    ∃ trim t, trim_spec (argv.getD 2 "") (argv.drop 3) = .ok (trim, []) ∧ (db.exec argv ctx).2.holds key t ∧
      t.entries.toList = trim.keeps s.entries.toList := by
  rcases hTrims with ⟨_, -, hOther, -⟩ | ⟨key', hKey', hNone, -⟩ |
    ⟨key', trim, e', s', t, hKey', hSpec, hGet', hValue', hHolds, -, hLeft, -⟩
  · cases hReply.symm.trans hOther
  · obtain rfl := Option.some.inj (hKey.symm.trans hKey')
    cases hNone.symm.trans hGet
  · obtain rfl := Option.some.inj (hKey.symm.trans hKey')
    obtain rfl := Option.some.inj (hGet.symm.trans hGet')
    obtain rfl : s = s' := Value.stream.inj (hValue.symm.trans hValue')
    exact ⟨trim, t, hSpec, hHolds, hLeft⟩

end History

end

namespace History

open Exec

/-- Three entries, the last one deleted again. The clock has gone back when one more comes: it
is past the one deleted, and the trim that comes with it drops the first. A trim of what is
before 2-0 drops the same. -/
theorem stream_ids_grow_trimmed :
    let _ : Json := ⟨fun _ => none, fun _ => none⟩
    let ctx (now : Fin (2 ^ 64)) : Ctx :=
      { now, replay := false, blocking := false, access := ⟨true, .all⟩, max_keys := 9, max_elements := 9,
        events := false, random := .first }
    let before : List Happening :=
      [.command ["XADD", "s", "1-1", "k", "a"] (ctx 5), .command ["XADD", "s", "2-1", "k", "b"] (ctx 5),
        .command ["XADD", "s", "3-1", "k", "c"] (ctx 5), .command ["XDEL", "s", "3-1"] (ctx 5)]
    let add := ["XADD", "s", "MAXLEN", "2", "*", "k", "d"]
    let trim := ["XTRIM", "s", "MINID", "2"]
    let names (s : Stream) := s.entries.toList.map (·.1.display)
    (((run before).db.exec add (ctx 2)).1.reply = .bulk "3-2" ∧
      ∃ t, ((run before).db.exec add (ctx 2)).2.holds "s" t ∧ names t = ["2-1", "3-2"]) ∧
    ((run before).db.exec trim (ctx 2)).1.reply = .int 1 ∧
      ∃ t, ((run before).db.exec trim (ctx 2)).2.holds "s" t ∧ names t = ["2-1"] := by
  intro _ ctx before add trim names
  -- the stream the two commands find, and what they reply
  have hRuns : ((run before).db.get "s" 2).map (fun e => (Typed.stream.value e.value).map (·.entries.toList)) =
        some (some [({ ms := 1, seq := 1 }, [("k", "a")]), ({ ms := 2, seq := 1 }, [("k", "b")])]) ∧
      ((run before).db.exec add (ctx 2)).1.reply.text = some "3-2" ∧
      ((run before).db.exec trim (ctx 2)).1.reply.number = some 1 := by
    decide +kernel +revert
  have hAdds := (stream_ids_grow before (ctx 2) add).2.1 (by decide)
  have hTrims := (stream_ids_grow before (ctx 2) trim).2.2 (by decide)
  generalize run before = h at hAdds hTrims hRuns ⊢
  obtain ⟨hList, hAdd, hTrim⟩ := hRuns
  obtain ⟨e, hGet, hEntry⟩ := Option.map_eq_some_iff.mp hList
  obtain ⟨s, hStream, hEntries⟩ := Option.map_eq_some_iff.mp hEntry
  have hValue := (Typed.stream.value_eq _ _).mp hStream
  have hAdd := Reply.text_eq_some hAdd
  have hTrim := Reply.number_eq_some hTrim
  have hNames : Id.display { ms := 2, seq := 1 } = "2-1" ∧ Id.display { ms := 3, seq := 2 } = "3-2" := by
    decide +kernel
  refine ⟨⟨hAdd, ?_⟩, hTrim, ?_⟩
  · obtain ⟨args, t, hArgs, hHolds, hLeft⟩ := hAdds.leaves rfl hGet hValue (hNames.2 ▸ hAdd)
    have hAsked : (xadd_args 5 ["MAXLEN", "2", "*", "k", "d"] false none).toOption.map (·.trim) =
        some (some (.maxlen 2)) := by
      decide +kernel
    rw [show xadd_args 5 ["MAXLEN", "2", "*", "k", "d"] false none = .ok args from hArgs] at hAsked
    have hTrimmed : args.trim = some (.maxlen 2) := Option.some.inj hAsked
    rw [hTrimmed, hEntries] at hLeft
    refine ⟨t, hHolds, ?_⟩
    show t.entries.toList.map _ = _
    rw [hLeft]
    show [Id.display _, Id.display _] = _
    rw [hNames.1, hNames.2]
  · obtain ⟨asked, t, hSpec, hHolds, hLeft⟩ := hTrims.leaves rfl hGet hValue hTrim
    have hAsked : (trim_spec "MINID" ["2"]).toOption.map Prod.fst = some (.minid { ms := 2, seq := 0 }) := by
      decide +kernel
    rw [show trim_spec "MINID" ["2"] = .ok (asked, []) from hSpec] at hAsked
    obtain rfl : asked = .minid { ms := 2, seq := 0 } := Option.some.inj hAsked
    rw [hEntries] at hLeft
    refine ⟨t, hHolds, ?_⟩
    show t.entries.toList.map _ = _
    rw [hLeft]
    show [Id.display _] = _
    rw [hNames.1]

end History

end Postino
