import Postino.Commands.Reply
import Postino.Scope

/-!
# Listing keys

A walk looks at keys in order, so many at a time, and lets other requests run in
between; SCAN cuts it in pages and KEYS lists all of it. The keyspace may change
between two runs, and between two pages.

* `with_prefixes_eq` — the keys looked at: those after a key that start with one of
  the prefixes, in key order.
* `walk_split` — what one run visits, and where it leaves off.
* `in_runs_trail` — what all runs of a walk visit, over a keyspace that changes.
* `scan_exact`, `keys_exact` — every lasting key once.
-/

namespace Postino

open Lib

/-! ## The walk -/

/-- Looks at the keys listed, `looked` of them being done: `visit` is shown the live
ones that `scope` can read, until it returns false or `most` have been looked at. -/
def walk_from {σ : Type} (scope : Scope) (most now : Nat) (visit : String → Entry → σ → Bool × σ) :
    Nat → List (String × Entry) → σ → Option String × σ
  | _, [], s => (none, s)
  | looked, (key, entry) :: keys, s =>
    let (more, s) :=
      if !entry.expired now && scope.can_read key then visit key entry s else (true, s)
    if !more then (none, s)
    else if looked + 1 = most then (some key, s)
    else walk_from scope most now visit (looked + 1) keys s

/-- Hands `visit` the live keys starting with `pre`, after `after`, that `scope` can
read, in key order, until it returns false or `most` keys have been looked at. Returns
the last key looked at when it stopped for `most`. -/
def walk {σ : Type} (db : Db) (scope : Scope) (pre : String) (after : Option String)
    (most now : Nat) (visit : String → Entry → σ → Bool × σ) (s : σ) : Option String × σ :=
  walk_from scope most now visit 0 (db.with_prefixes (scope.search_prefixes pre) after) s

/-- The keyspace when a run has the lock, the time, and how many keys the run may
look at. -/
structure Moment where
  db : Db
  now : Nat
  most : Nat

/-- Takes the lock a run of keys at a time, until `step` has the reply. -/
def in_runs {σ : Type} (step : Moment → σ → Option Reply × σ) : List Moment → σ → Option Reply × σ
  | [], s => (none, s)
  | m :: moments, s =>
    match step m s with
    | (some reply, s) => (some reply, s)
    | (none, s) => in_runs step moments s

theorem in_runs_none {σ : Type} {step : Moment → σ → Option Reply × σ} {m : Moment} {s s' : σ}
    (h : step m s = (none, s')) (moments : List Moment) :
    in_runs step (m :: moments) s = in_runs step moments s' := by
  rw [in_runs, h]

theorem in_runs_some {σ : Type} {step : Moment → σ → Option Reply × σ} {m : Moment} {s : σ}
    {reply : Reply} (h : (step m s).1 = some reply) (moments : List Moment) :
    in_runs step (m :: moments) s = step m s := by
  rcases hStep : step m s with ⟨_ | r, s'⟩
  · rw [hStep] at h
    cases h
  · rw [in_runs, hStep]

/-- Once there is a reply, no more runs are made. -/
theorem in_runs_append {σ : Type} {step : Moment → σ → Option Reply × σ} {moments : List Moment}
    {s : σ} {reply : Reply} (h : (in_runs step moments s).1 = some reply) (more : List Moment) :
    in_runs step (moments ++ more) s = in_runs step moments s := by
  -- no reply comes of no runs
  induction moments generalizing s with
  | nil => cases h
  | cons m moments ih =>
    rcases hStep : step m s with ⟨_ | r, s'⟩
    · rw [in_runs_none hStep] at h
      rw [List.cons_append, in_runs_none hStep, in_runs_none hStep, ih h]
    · have hReply : (step m s).1 = some r := by rw [hStep]
      rw [List.cons_append, in_runs_some hReply, in_runs_some hReply]

/-- The reply is one that some run gave. -/
theorem in_runs_reply {σ : Type} {step : Moment → σ → Option Reply × σ} {p : Reply → Prop}
    (hStep : ∀ m s reply, (step m s).1 = some reply → p reply) {moments : List Moment} {s : σ} {reply : Reply}
    (h : (in_runs step moments s).1 = some reply) : p reply := by
  induction moments generalizing s with
  | nil => cases h
  | cons m moments ih =>
    rcases hRun : step m s with ⟨_ | r, s'⟩
    · rw [in_runs_none hRun] at h
      exact ih h
    · have hReply : (step m s).1 = some r := by rw [hRun]
      rw [in_runs_some hReply, hReply] at h
      rw [← Option.some.inj h]
      exact hStep m s r hReply

/-! ## SCAN -/

/-- Keys one SCAN returns at most, whatever its COUNT. -/
def SCAN_MOST : Nat := 1000

/-- A SCAN under way: what it asks for, and the page found so far. -/
structure Scan where
  pattern : Option Glob
  count : Nat
  kind : Option String
  after : Option String
  seen : Nat
  last : Option String
  found : List String

namespace Scan

/-- The options of a SCAN, from `MATCH` on. -/
def options (scan : Scan) : List String → Except String Scan
  | [] => .ok scan
  | [_] => .error SYNTAX
  | name :: value :: rest =>
    match to_ascii_uppercase name with
    | "MATCH" =>
      match Glob.client value with
      | .ok pattern => options { scan with pattern := some pattern } rest
      | .error e => .error e
    | "COUNT" =>
      match int value with
      | .ok n => if n ≥ 1 then options { scan with count := min n.toNat SCAN_MOST } rest else .error SYNTAX
      | .error e => .error e
    | "TYPE" => options { scan with kind := some (to_ascii_lowercase value) } rest
    | _ => .error SYNTAX

/-- Where a cursor stands. -/
def decode (cursor : String) : Except String (Option String) :=
  if cursor = "0" then .ok none
  else match (from_hex cursor).bind from_utf8 with
    | some key => .ok (some key)
    | none => .error "ERR invalid cursor"

def new (argv : List String) : Except String Scan :=
  match argv with
  | _ :: cursor :: rest =>
    match decode cursor with
    | .ok after =>
      options { pattern := none, count := 10, kind := none, after, seen := 0, last := none, found := [] }
        rest
    | .error e => .error e
  | _ => .error (wrong_args (argv.headD ""))

/-- Whether a key is one of those asked for. -/
def chooses (scan : Scan) (key : String) (entry : Entry) : Bool :=
  scan.pattern.all (·.matches_ key) && scan.kind.all (entry.value.type_name == ·)

/-- Counts a key, which is found when it is chosen; false once the page is full. -/
def visit (key : String) (entry : Entry) (scan : Scan) : Bool × Scan :=
  let scan := { scan with seen := scan.seen + 1 }
  let scan := if scan.chooses key entry then { scan with found := scan.found ++ [key] } else scan
  if scan.seen < scan.count then (true, scan) else (false, { scan with last := some key })

/-- What every key the pattern matches starts with. -/
def pre (scan : Scan) : String :=
  match scan.pattern with
  | some pattern => literal_prefix_ pattern.source
  | none => ""

/-- The cursor of the page after this one. -/
def next (scan : Scan) : String :=
  match scan.last with
  | some last => to_hex (utf8 last)
  | none => "0"

/-- Looks at up to `most` more keys, and returns the reply once the page is complete:
`COUNT` keys the caller can read, before `MATCH` and `TYPE` choose among them, or every
key left. -/
def run (scope : Scope) (m : Moment) (scan : Scan) : Option Reply × Scan :=
  match walk m.db scope scan.pre scan.after m.most m.now visit scan with
  | (some paused, scan) => (none, { scan with after := some paused })
  | (none, scan) =>
    (some (.array [.bulk scan.next, Reply.bulks scan.found]), { scan with found := [] })

end Scan

/-! ## KEYS -/

/-- A KEYS under way: where its walk paused, what it listed, how many bytes that is,
and the error once it is too much. -/
structure Listing where
  after : Option String := none
  listed : List String := []
  bytes : Nat := 0
  full : Option String := none

namespace Listing

def visit (pattern : Glob) (key : String) (_entry : Entry) (l : Listing) : Bool × Listing :=
  if !pattern.matches_ key then (true, l)
  else
    let l := { l with bytes := l.bytes + (Reply.bulk key).size }
    match within_reply l.bytes with
    | .error e => (false, { l with full := some e })
    | .ok () => (true, { l with listed := l.listed ++ [key] })

def run (scope : Scope) (pattern : Glob) (m : Moment) (l : Listing) : Option Reply × Listing :=
  match walk m.db scope (literal_prefix_ pattern.source) l.after m.most m.now (visit pattern) l with
  | (paused, l) =>
    match l.full with
    | some e => (some (.error e), { l with full := none })
    | none =>
      match paused with
      | some last => (none, { l with after := some last })
      | none => (some (Reply.bulks l.listed), { l with listed := [] })

end Listing

/-- SCAN, a run of keys at a time; `none` while the reply is not complete. -/
def scan_reply (scope : Scope) (argv : List String) (moments : List Moment) : Option Reply :=
  match Scan.new argv with
  | .error e => some (.error e)
  | .ok scan => (in_runs (Scan.run scope) moments scan).1

/-- KEYS, a run of keys at a time; `none` while the reply is not complete. -/
def keys_reply (scope : Scope) (pattern : String) (moments : List Moment) : Option Reply :=
  match Glob.client pattern with
  | .error e => some (.error e)
  | .ok pattern => (in_runs (Listing.run scope pattern) moments {}).1

/-! ## The keys looked at -/

/-- `key` comes after where a walk stands. -/
def past (after : Option String) (key : String) : Bool := after.all (· < key)

theorem past_trans {after : Option String} {a b : String} (hA : past after a = true) (hAB : a < b) :
    past after b = true := by
  cases after with
  | none => rfl
  | some c => exact decide_eq_true ((of_decide_eq_true hA : c < a).trans hAB)

/-- The run of one prefix. -/
theorem prefix_run (db : Db) (pre : String) (after : Option String) :
    (match after with
      | some after =>
        if pre ≤ after then db.keys.above after else db.keys.toList.filter fun e => pre ≤ e.1
      | none => db.keys.toList.filter fun e => pre ≤ e.1).takeWhile (fun e => e.1.startsWith pre) =
    db.keys.toList.filter fun e => past after e.1 && e.1.startsWith pre := by
  -- the listing from the prefix on, or from where the walk stands
  have hRun : ∃ low : String × Entry → Bool,
      (match after with
        | some after =>
          if pre ≤ after then db.keys.above after else db.keys.toList.filter fun e => pre ≤ e.1
        | none => db.keys.toList.filter fun e => pre ≤ e.1) = db.keys.toList.filter low ∧
      (∀ e, low e = true → pre ≤ e.1) ∧
      ∀ e : String × Entry, e.1.startsWith pre = true → low e = past after e.1 := by
    cases after with
    | none =>
      exact ⟨fun e => pre ≤ e.1, rfl, fun e h => of_decide_eq_true h,
        fun e h => decide_eq_true (le_of_startsWith h)⟩
    | some after =>
      dsimp only
      split
      · next hLe =>
        exact ⟨fun e => after < e.1, rfl, fun e h => hLe.trans (of_decide_eq_true h).le,
          fun e _ => rfl⟩
      · next hLt =>
        refine ⟨fun e => pre ≤ e.1, rfl, fun e h => of_decide_eq_true h, fun e h => ?_⟩
        have hPre := le_of_startsWith h
        exact (decide_eq_true hPre).trans (decide_eq_true ((not_le.mp hLt).trans_le hPre)).symm
  obtain ⟨low, hEq, hLow, hSame⟩ := hRun
  rw [hEq]
  have hSorted := (BTreeMap.sorted_toList db.keys).filter low
  -- keys in order: those that start with the prefix stand together
  rw [takeWhile_eq_filter hSorted fun a ha b _ hLt hB =>
    startsWith_of_between (hLow a (List.mem_filter.mp ha).2) hLt.le hB, List.filter_filter]
  refine List.filter_congr fun e _ => ?_
  by_cases hStarts : e.1.startsWith pre = true
  · rw [hStarts, hSame e hStarts, Bool.true_and, Bool.and_true]
  · rw [Bool.not_eq_true] at hStarts
    rw [hStarts, Bool.false_and, Bool.and_false]

/-- **The keys after `after` that start with one of the prefixes**, in key order. -/
theorem with_prefixes_eq (db : Db) {prefixes : List String} (hRuns : Runs prefixes)
    (after : Option String) :
    db.with_prefixes prefixes after =
      db.keys.toList.filter fun e => past after e.1 && prefixes.any fun pre => e.1.startsWith pre := by
  -- on the prefixes: none is the start of another, so their keys follow one another
  induction prefixes with
  | nil => simp [Db.with_prefixes]
  | cons pre prefixes ih =>
    obtain ⟨hHead, hTail⟩ := List.pairwise_cons.mp hRuns
    have hCons : db.with_prefixes (pre :: prefixes) after =
        (db.keys.toList.filter fun e => past after e.1 && e.1.startsWith pre) ++
          db.with_prefixes prefixes after := by
      rw [← prefix_run]
      rfl
    rw [hCons, ih hTail, ← filter_or (BTreeMap.sorted_toList db.keys)]
    · refine List.filter_congr fun e _ => ?_
      rw [List.any_cons, Bool.and_or_distrib_left]
    · -- a key starts with one of them only
      intro e _ hPre
      by_contra hOther
      rw [Bool.not_eq_false, Bool.and_eq_true, List.any_eq_true] at hOther
      obtain ⟨-, q, hq, hQ⟩ := hOther
      rw [Bool.and_eq_true] at hPre
      obtain ⟨hLt, hNot⟩ := hHead q hq
      exact absurd (prefix_lt (String.lt_iff_toList_lt.mp hLt)
        (String.startsWith_string_eq_false_iff.mp hNot) (String.startsWith_string_iff.mp hPre.2)
        (String.startsWith_string_iff.mp hQ)) (lt_irrefl _)
    · -- and the keys of an earlier prefix come before those of a later one
      intro a _ b _ hLt hOther
      rw [Bool.and_eq_true, List.any_eq_true] at hOther
      obtain ⟨-, q, hq, hQ⟩ := hOther
      by_contra hPre
      rw [Bool.not_eq_false, Bool.and_eq_true] at hPre
      obtain ⟨hLtQ, hNot⟩ := hHead q hq
      have hBA : b.1 < a.1 := String.lt_iff_toList_lt.mpr
        (prefix_lt (String.lt_iff_toList_lt.mp hLtQ)
          (String.startsWith_string_eq_false_iff.mp hNot) (String.startsWith_string_iff.mp hPre.2)
          (String.startsWith_string_iff.mp hQ))
      exact absurd hLt hBA.asymm

/-! ## One run -/

/-- What a walk shows to `visit`: live keys that the scope can read. -/
def reach (scope : Scope) (now : Nat) (e : String × Entry) : Bool :=
  !e.2.expired now && scope.can_read e.1

/-- Shows keys to `visit`, until it returns false. -/
def visits {σ : Type} (visit : String → Entry → σ → Bool × σ) :
    List (String × Entry) → σ → Bool × σ
  | [], s => (true, s)
  | (key, entry) :: keys, s =>
    match visit key entry s with
    | (true, s) => visits visit keys s
    | (false, s) => (false, s)

section Walk

variable {σ : Type} (visit : String → Entry → σ → Bool × σ)

theorem visits_cons (e : String × Entry) (keys : List (String × Entry)) (s : σ) :
    visits visit (e :: keys) s =
      match visit e.1 e.2 s with
      | (true, s) => visits visit keys s
      | (false, s) => (false, s) := rfl

theorem visits_append (keys more : List (String × Entry)) (s : σ) :
    visits visit (keys ++ more) s =
      match visits visit keys s with
      | (true, s) => visits visit more s
      | (false, s) => (false, s) := by
  induction keys generalizing s with
  | nil => rfl
  | cons e keys ih =>
    rw [List.cons_append, visits_cons, visits_cons]
    rcases visit e.1 e.2 s with ⟨_ | _, s⟩
    · rfl
    · exact ih s

/-- **What one run visits**: all that it looked at, up to where it paused, or all there
is, unless `visit` has enough. -/
theorem walk_split (scope : Scope) (most now looked : Nat) (keys : List (String × Entry)) (s : σ) :
    (∃ passed last rest, keys = passed ++ last :: rest ∧
      (walk_from scope most now visit looked keys s).1 = some last.1 ∧
      visits visit ((passed ++ [last]).filter (reach scope now)) s =
        (true, (walk_from scope most now visit looked keys s).2)) ∨
    ((walk_from scope most now visit looked keys s).1 = none ∧
      (visits visit (keys.filter (reach scope now)) s).2 =
        (walk_from scope most now visit looked keys s).2) := by
  induction keys generalizing looked s with
  | nil => exact .inr ⟨rfl, rfl⟩
  | cons e keys ih =>
    obtain ⟨key, entry⟩ := e
    -- what happens at the first key
    obtain ⟨more, s', hFirst⟩ : ∃ more s', (if reach scope now (key, entry) then
        visit key entry s else (true, s)) = (more, s') := ⟨_, _, rfl⟩
    have hLooked : (if !entry.expired now && scope.can_read key then
        visit key entry s else (true, s)) = (more, s') := hFirst
    have hVisits : ∀ later : List (String × Entry),
        visits visit (((key, entry) :: later).filter (reach scope now)) s =
          if more then visits visit (later.filter (reach scope now)) s' else (false, s') := by
      intro later
      by_cases hReach : reach scope now (key, entry) = true
      · rw [List.filter_cons_of_pos hReach]
        rw [if_pos hReach] at hFirst
        rw [visits_cons, hFirst]
        cases more <;> rfl
      · rw [List.filter_cons_of_neg hReach]
        rw [if_neg hReach] at hFirst
        cases hFirst
        rfl
    unfold walk_from
    rw [hLooked]
    cases more with
    | false =>
      refine .inr ⟨rfl, ?_⟩
      rw [hVisits]
      rfl
    | true =>
      dsimp only
      rw [if_neg (by simp)]
      split
      · refine .inl ⟨[], (key, entry), keys, rfl, rfl, ?_⟩
        rw [List.nil_append, hVisits, if_pos rfl]
        rfl
      · rcases ih (looked + 1) s' with ⟨passed, last, rest, rfl, hLast, hAll⟩ | ⟨hNone, hAll⟩
        · refine .inl ⟨(key, entry) :: passed, last, rest, rfl, hLast, ?_⟩
          rw [List.cons_append, hVisits, if_pos rfl, hAll]
        · refine .inr ⟨hNone, ?_⟩
          rw [hVisits, if_pos rfl, hAll]

/-! ## Run after run -/

/-- `key` is live, whenever the walk has the lock. -/
def lasts (moments : List Moment) (key : String) : Prop :=
  ∀ m ∈ moments, (m.db.get key m.now).isSome = true

/-- What a walk that started after `start` and now stands at `after` has visited. -/
structure Trail (scope : Scope) (pre : String) (start : Option String) (moments : List Moment)
    (after : Option String) (visited : List (String × Entry)) : Prop where
  later : ∀ key, past after key = true → past start key = true
  sorted : visited.Pairwise fun a b => a.1 < b.1
  within : ∀ e ∈ visited, past start e.1 = true ∧ past after e.1 = false
  reached : ∀ e ∈ visited, scope.can_read e.1 = true ∧ e.1.startsWith pre = true ∧
    ∃ m ∈ moments, m.db.get e.1 m.now = some e.2
  all : ∀ key, past start key = true → past after key = false → key.startsWith pre = true →
    scope.can_read key = true → lasts moments key → key ∈ visited.map Prod.fst

/-- What a walk that started after `start` has visited in the end. -/
structure Complete (scope : Scope) (pre : String) (start : Option String) (moments : List Moment)
    (visited : List (String × Entry)) : Prop where
  sorted : visited.Pairwise fun a b => a.1 < b.1
  within : ∀ e ∈ visited, past start e.1 = true
  reached : ∀ e ∈ visited, scope.can_read e.1 = true ∧ e.1.startsWith pre = true ∧
    ∃ m ∈ moments, m.db.get e.1 m.now = some e.2
  all : ∀ key, past start key = true → key.startsWith pre = true →
    scope.can_read key = true → lasts moments key → key ∈ visited.map Prod.fst

theorem trail_start (scope : Scope) (pre : String) (start : Option String) :
    Trail scope pre start [] start [] where
  later := fun _ h => h
  sorted := .nil
  within := fun e he => absurd he List.not_mem_nil
  reached := fun e he => absurd he List.not_mem_nil
  all := fun key hPast hNot => by rw [hPast] at hNot; cases hNot

/-- The keys a run may visit. -/
theorem mem_reach {scope : Scope} (hMade : scope.Made) (pre : String) (after : Option String)
    (m : Moment) (e : String × Entry) :
    e ∈ (m.db.with_prefixes (scope.search_prefixes pre) after).filter (reach scope m.now) ↔
      past after e.1 = true ∧ e.1.startsWith pre = true ∧ scope.can_read e.1 = true ∧
        m.db.get e.1 m.now = some e.2 := by
  obtain ⟨key, entry⟩ := e
  rw [with_prefixes_eq m.db (Scope.search_runs hMade pre) after, List.mem_filter, List.mem_filter,
    BTreeMap.mem_toList]
  unfold reach Db.get
  simp only [Bool.and_eq_true, List.any_eq_true, Option.filter_eq_some_iff]
  constructor
  · rintro ⟨⟨hGet, hPast, run, hRun, hStarts⟩, hLive, hRead⟩
    exact ⟨hPast, startsWith_trans (Scope.search_sound scope pre run hRun) hStarts, hRead, hGet,
      hLive⟩
  · rintro ⟨hPast, hPre, hRead, hGet, hLive⟩
    exact ⟨⟨hGet, hPast, Scope.search_complete hMade hRead hPre⟩, hLive, hRead⟩

variable {visit} {scope : Scope} (hMade : scope.Made) {pre : String} {start : Option String}
  {moments : List Moment} {after : Option String} {visited : List (String × Entry)}

include hMade

omit hMade in
/-- What a run visits past where the trail stands comes after all that was visited. -/
theorem Trail.apart (hTrail : Trail scope pre start moments after visited) {later : List (String × Entry)}
    (hPast : ∀ e ∈ later, past after e.1 = true) : ∀ a ∈ visited, ∀ b ∈ later, a.1 < b.1 := by
  intro a ha b hb
  have hA := (hTrail.within a ha).2
  have hB := hPast b hb
  by_contra hNot
  rcases (not_lt.mp hNot).lt_or_eq with hLt | hEq
  · rw [past_trans hB hLt] at hA
    cases hA
  · rw [← hEq, hB] at hA
    cases hA

omit hMade in
/-- Each key was found by an earlier run, or by this one. -/
theorem Trail.reached_more (hTrail : Trail scope pre start moments after visited) {m : Moment}
    {more : List (String × Entry)} (hMore : ∀ e ∈ more, past after e.1 = true ∧ e.1.startsWith pre = true ∧
      scope.can_read e.1 = true ∧ m.db.get e.1 m.now = some e.2) :
    ∀ e ∈ visited ++ more, scope.can_read e.1 = true ∧ e.1.startsWith pre = true ∧
      ∃ m' ∈ moments ++ [m], m'.db.get e.1 m'.now = some e.2 := by
  intro e he
  rcases List.mem_append.mp he with he | he
  · obtain ⟨hR, hP, m', hm', hGet⟩ := hTrail.reached e he
    exact ⟨hR, hP, m', List.mem_append_left _ hm', hGet⟩
  · obtain ⟨-, hP, hR, hGet⟩ := hMore e he
    exact ⟨hR, hP, m, List.mem_append_right _ (List.mem_singleton_self m), hGet⟩

/-- A run that pauses leaves its trail. -/
theorem Trail.pause (hTrail : Trail scope pre start moments after visited) {m : Moment} {s : σ}
    {last : String} (hWalk : (walk m.db scope pre after m.most m.now visit s).1 = some last) :
    past after last = true ∧ (∃ e, m.db.keys[last]? = some e) ∧
    ∃ more, Trail scope pre start (moments ++ [m]) (some last) (visited ++ more) ∧
      visits visit more s = (true, (walk m.db scope pre after m.most m.now visit s).2) := by
  unfold walk at hWalk ⊢
  rcases walk_split visit scope m.most m.now 0
    (m.db.with_prefixes (scope.search_prefixes pre) after) s with
    ⟨passed, e, rest, hKeys, hLast, hVisits⟩ | ⟨hNone, -⟩
  · rw [hLast] at hWalk
    cases hWalk
    have hListed := with_prefixes_eq m.db (Scope.search_runs hMade pre) after
    have hSorted : (passed ++ e :: rest).Pairwise fun a b => a.1 < b.1 := by
      rw [← hKeys, hListed]
      exact (BTreeMap.sorted_toList m.db.keys).filter _
    have hIn : ∀ x ∈ passed ++ e :: rest, past after x.1 = true := by
      intro x hx
      rw [← hKeys, hListed] at hx
      exact (Bool.and_eq_true_iff.mp (List.mem_filter.mp hx).2).1
    have hE : e ∈ passed ++ e :: rest := List.mem_append_right _ List.mem_cons_self
    have hPast := hIn e hE
    obtain ⟨-, hRest, hApart⟩ := List.pairwise_append.mp hSorted
    -- what it passed is in key order, up to the key it paused at
    have hBelow : ∀ x ∈ passed ++ [e], x.1 ≤ e.1 := by
      intro x hx
      rcases List.mem_append.mp hx with hx | hx
      · exact (hApart x hx e List.mem_cons_self).le
      · rw [List.mem_singleton.mp hx]
    have hFront : (passed ++ [e]).Sublist (passed ++ e :: rest) := by
      rw [List.append_cons passed e rest]
      exact List.sublist_append_left ..
    have hReach : ∀ x ∈ (passed ++ [e]).filter (reach scope m.now), past after x.1 = true ∧
        x.1.startsWith pre = true ∧ scope.can_read x.1 = true ∧ m.db.get x.1 m.now = some x.2 := by
      intro x hx
      obtain ⟨hx, hR⟩ := List.mem_filter.mp hx
      refine (mem_reach hMade pre after m x).mp (List.mem_filter.mpr ⟨?_, hR⟩)
      rw [hKeys]
      exact hFront.subset hx
    refine ⟨hPast, ?_, _, ?_, hVisits⟩
    · rw [← hKeys, hListed] at hE
      exact ⟨e.2, (BTreeMap.mem_toList _ _ _).mp (List.mem_filter.mp hE).1⟩
    · refine ⟨fun key hKey => ?_, ?_, fun x hx => ?_, hTrail.reached_more hReach,
        fun key hStart hNot hPre hRead hLasts => ?_⟩
      · exact hTrail.later key (past_trans hPast (of_decide_eq_true hKey))
      · exact List.pairwise_append.mpr ⟨hTrail.sorted, (hSorted.sublist hFront).filter _,
          hTrail.apart fun x hx => (hReach x hx).1⟩
      · rcases List.mem_append.mp hx with hx | hx
        · refine ⟨(hTrail.within x hx).1, ?_⟩
          by_contra hAfter
          rw [Bool.not_eq_false] at hAfter
          have hX := past_trans hPast (of_decide_eq_true hAfter)
          rw [(hTrail.within x hx).2] at hX
          cases hX
        · refine ⟨hTrail.later x.1 (hReach x hx).1, ?_⟩
          exact decide_eq_false (not_lt.mpr (hBelow x (List.mem_filter.mp hx).1))
      · rw [List.map_append, List.mem_append]
        by_cases hAfter : past after key = true
        · obtain ⟨entry, hGet⟩ := Option.isSome_iff_exists.mp
            (hLasts m (List.mem_append_right _ (List.mem_singleton_self m)))
          have hMem := (mem_reach hMade pre after m (key, entry)).mpr ⟨hAfter, hPre, hRead, hGet⟩
          obtain ⟨hMem, hR⟩ := List.mem_filter.mp hMem
          rw [hKeys] at hMem
          refine .inr (List.mem_map.mpr ⟨(key, entry), List.mem_filter.mpr ⟨?_, hR⟩, rfl⟩)
          rw [List.append_cons] at hMem
          refine (List.mem_append.mp hMem).resolve_right fun hLater => ?_
          -- what comes later is past the key it paused at
          have hLt := (List.pairwise_cons.mp hRest).1 _ hLater
          rw [show past (some e.1) key = decide (e.1 < key) from rfl, decide_eq_true hLt] at hNot
          cases hNot
        · rw [Bool.not_eq_true] at hAfter
          exact .inl (hTrail.all key hStart hAfter hPre hRead fun m' hm' =>
            hLasts m' (List.mem_append_left _ hm'))
  · rw [hNone] at hWalk
    cases hWalk

/-- A run that does not pause is the last. -/
theorem Trail.finish (hTrail : Trail scope pre start moments after visited) {m : Moment} {s : σ}
    (hWalk : (walk m.db scope pre after m.most m.now visit s).1 = none) :
    ∃ more, Complete scope pre start (moments ++ [m]) (visited ++ more) ∧
      (visits visit more s).2 = (walk m.db scope pre after m.most m.now visit s).2 := by
  unfold walk at hWalk ⊢
  rcases walk_split visit scope m.most m.now 0
    (m.db.with_prefixes (scope.search_prefixes pre) after) s with
    ⟨passed, e, rest, -, hLast, -⟩ | ⟨-, hVisits⟩
  · rw [hLast] at hWalk
    cases hWalk
  · refine ⟨_, ?_, hVisits⟩
    -- it came to the end of the listing, so it visited all that is left
    have hReach := fun x => (mem_reach hMade pre after m x).mp
    refine ⟨?_, fun x hx => ?_, hTrail.reached_more hReach, fun key hStart hPre hRead hLasts => ?_⟩
    · refine List.pairwise_append.mpr ⟨hTrail.sorted, ?_, hTrail.apart fun x hx => (hReach x hx).1⟩
      rw [with_prefixes_eq m.db (Scope.search_runs hMade pre) after]
      exact ((BTreeMap.sorted_toList m.db.keys).filter _).filter _
    · rcases List.mem_append.mp hx with hx | hx
      · exact (hTrail.within x hx).1
      · exact hTrail.later x.1 (hReach x hx).1
    · rw [List.map_append, List.mem_append]
      by_cases hAfter : past after key = true
      · obtain ⟨entry, hGet⟩ := Option.isSome_iff_exists.mp
          (hLasts m (List.mem_append_right _ (List.mem_singleton_self m)))
        exact .inr (List.mem_map.mpr ⟨(key, entry),
          (mem_reach hMade pre after m (key, entry)).mpr ⟨hAfter, hPre, hRead, hGet⟩, rfl⟩)
      · rw [Bool.not_eq_true] at hAfter
        exact .inl (hTrail.all key hStart hAfter hPre hRead fun m' hm' =>
          hLasts m' (List.mem_append_left _ hm'))

end Walk

/-! ## How long a walk goes on -/

/-- The keys of a set that are still ahead. -/
def ahead (held : Finset String) (after : Option String) : Finset String :=
  held.filter fun key => past after key = true

theorem ahead_lt {held : Finset String} {after : Option String} {key : String} (hKey : key ∈ held)
    (hPast : past after key = true) : (ahead held (some key)).card < (ahead held after).card := by
  refine Finset.card_lt_card ⟨fun k hk => ?_, fun hSub => ?_⟩
  · obtain ⟨hHeld, hK⟩ := Finset.mem_filter.mp hk
    exact Finset.mem_filter.mpr ⟨hHeld, past_trans hPast (of_decide_eq_true hK)⟩
  · have hIn := hSub (Finset.mem_filter.mpr ⟨hKey, hPast⟩)
    exact lt_irrefl key (of_decide_eq_true (Finset.mem_filter.mp hIn).2)

/-- No key but these is held whenever the walk has the lock. -/
def holds_only (held : Finset String) (moments : List Moment) : Prop :=
  ∀ m ∈ moments, ∀ (key : String) entry, m.db.keys[key]? = some entry → key ∈ held

/-! ## Pages -/

namespace Scan

/-- The keys chosen from those visited. -/
def chosen (scan : Scan) (keys : List (String × Entry)) : List String :=
  (keys.filter fun e => scan.chooses e.1 e.2).map Prod.fst

theorem chosen_cons (scan : Scan) (e : String × Entry) (keys : List (String × Entry)) :
    scan.chosen (e :: keys) = (if scan.chooses e.1 e.2 then [e.1] else []) ++ scan.chosen keys := by
  unfold chosen
  by_cases hChosen : scan.chooses e.1 e.2 = true
  · rw [if_pos hChosen, List.filter_cons_of_pos (p := fun e : String × Entry => scan.chooses e.1 e.2) hChosen]
    rfl
  · rw [if_neg hChosen, List.filter_cons_of_neg (p := fun e : String × Entry => scan.chooses e.1 e.2) hChosen]
    rfl

theorem visit_eq (scan : Scan) (e : String × Entry) :
    visit e.1 e.2 scan =
      if scan.seen + 1 < scan.count then
        (true, { scan with seen := scan.seen + 1, found := scan.found ++ scan.chosen [e] })
      else
        (false, { scan with
          seen := scan.seen + 1, found := scan.found ++ scan.chosen [e], last := some e.1 }) := by
  have hFound : (if ({ scan with seen := scan.seen + 1 } : Scan).chooses e.1 e.2 then
      { scan with seen := scan.seen + 1, found := scan.found ++ [e.1] }
      else { scan with seen := scan.seen + 1 }) =
      { scan with seen := scan.seen + 1, found := scan.found ++ scan.chosen [e] } := by
    rw [chosen_cons, show scan.chosen [] = [] from rfl, List.append_nil]
    show (if scan.chooses e.1 e.2 then _ else _) = _
    split
    · rfl
    · rw [List.append_nil]
  unfold visit
  dsimp only
  rw [hFound]

/-- The keys visited, up to where the page is full. -/
theorem visits_visit (keys : List (String × Entry)) {scan : Scan} (hSeen : scan.seen < scan.count) :
    visits visit keys scan =
      if scan.seen + keys.length < scan.count then
        (true, { scan with
          seen := scan.seen + keys.length, found := scan.found ++ scan.chosen keys })
      else
        (false, { scan with
          seen := scan.count
          found := scan.found ++ scan.chosen (keys.take (scan.count - scan.seen))
          last := ((keys.take (scan.count - scan.seen)).getLast?).map Prod.fst }) := by
  induction keys generalizing scan with
  | nil => simp [visits, hSeen, chosen]
  | cons e keys ih =>
    have hJoin : ∀ later : List (String × Entry),
        scan.found ++ scan.chosen [e] ++ scan.chosen later = scan.found ++ scan.chosen (e :: later) := by
      intro later
      rw [chosen_cons scan e later, chosen_cons scan e [], List.append_assoc, List.append_assoc]
      rfl
    rw [visits_cons, visit_eq]
    by_cases hMore : scan.seen + 1 < scan.count
    · have hRest := @ih { scan with
        seen := scan.seen + 1, found := scan.found ++ scan.chosen [e] } hMore
      dsimp only at hRest
      have hLength : scan.seen + 1 + keys.length = scan.seen + (keys.length + 1) := by omega
      have hTake : (e :: keys).take (scan.count - scan.seen) =
          e :: keys.take (scan.count - (scan.seen + 1)) := by
        rw [show scan.count - scan.seen = scan.count - (scan.seen + 1) + 1 by omega,
          List.take_succ_cons]
      rw [if_pos hMore]
      dsimp only
      rw [hRest, hTake, List.length_cons, hLength, ← hJoin keys,
        ← hJoin (keys.take (scan.count - (scan.seen + 1)))]
      split
      · rfl
      · next hFull =>
        -- the page is filled by a later key
        have hNe : keys.take (scan.count - (scan.seen + 1)) ≠ [] := by
          intro hNil
          rcases List.take_eq_nil_iff.mp hNil with hZero | rfl
          · omega
          · exact hFull (by simpa using hMore)
        obtain ⟨front, back, hSplit⟩ := (List.eq_nil_or_concat' _).resolve_left hNe
        rw [hSplit, ← List.cons_append, List.getLast?_concat, List.getLast?_concat]
        rfl
    · have hOne : scan.count - scan.seen = 1 := by omega
      have hLast : scan.seen + 1 = scan.count := by omega
      have hFull : ¬ scan.seen + (e :: keys).length < scan.count := by
        rw [List.length_cons]
        omega
      rw [if_neg hMore, if_neg hFull, hOne, hLast]
      rfl

/-- The last key of a page that is full. -/
def last_of (scan : Scan) (visited : List (String × Entry)) : Option String :=
  if visited.length < scan.count then none
  else ((visited.take scan.count).getLast?).map Prod.fst

/-- The page that ends a walk. -/
def page (scan : Scan) (visited : List (String × Entry)) : Reply :=
  .array [.bulk ({ scan with last := scan.last_of visited } : Scan).next,
    Reply.bulks (scan.chosen (visited.take scan.count))]

/-- A SCAN that has visited these keys and is not done. -/
def at_ (scan : Scan) (after : Option String) (visited : List (String × Entry)) : Scan :=
  { scan with after, seen := visited.length, found := scan.chosen visited }

/-- A SCAN as it begins. -/
structure Fresh (scan : Scan) : Prop where
  seen : scan.seen = 0
  found : scan.found = []
  last : scan.last = none
  count : 1 ≤ scan.count
  pattern : ∀ glob, scan.pattern = some glob → glob = Glob.new glob.source

variable {scope : Scope} {scan : Scan}

theorem run_paused {m : Moment} {scan' : Scan} {last : String}
    (h : walk m.db scope scan.pre scan.after m.most m.now visit scan = (some last, scan')) :
    run scope m scan = (none, { scan' with after := some last }) := by
  unfold run
  rw [h]

theorem run_done {m : Moment} {scan' : Scan}
    (h : walk m.db scope scan.pre scan.after m.most m.now visit scan = (none, scan')) :
    run scope m scan =
      (some (.array [.bulk scan'.next, Reply.bulks scan'.found]), { scan' with found := [] }) := by
  unfold run
  rw [h]

/-- **The runs of a page**, from where it stands. -/
theorem runs_from (hMade : scope.Made) (hFresh : Fresh scan) {start after : Option String}
    {done moments : List Moment} {visited : List (String × Entry)}
    (hTrail : Trail scope scan.pre start done after visited) (hMore : visited.length < scan.count) :
    (in_runs (run scope) moments (scan.at_ after visited)).1 = none ∧
        (∃ after' visited', Trail scope scan.pre start (done ++ moments) after' visited') ∨
      ∃ used rest visited', moments = used ++ rest ∧ used ≠ [] ∧
        Complete scope scan.pre start (done ++ used) visited' ∧
        (in_runs (run scope) used (scan.at_ after visited)).1 = some (scan.page visited') := by
  induction moments generalizing done after visited with
  | nil =>
    refine .inl ⟨rfl, after, visited, ?_⟩
    rwa [List.append_nil]
  | cons m moments ih =>
    -- visiting on goes on with the page: with room left it grows, else it ends at the last key
    have hVisits : ∀ more, visits visit more (scan.at_ after visited) =
        if (visited ++ more).length < scan.count then
          (true, scan.at_ after (visited ++ more))
        else (false, { scan.at_ after visited with
          seen := scan.count
          found := scan.chosen ((visited ++ more).take scan.count)
          last := scan.last_of (visited ++ more) }) := by
      intro more
      rw [@visits_visit more (scan.at_ after visited) hMore]
      show (if visited.length + more.length < scan.count then _ else _) = _
      have hChosen : ∀ later, scan.chosen visited ++ scan.chosen later =
          scan.chosen (visited ++ later) := by
        intro later
        unfold chosen
        rw [List.filter_append, List.map_append]
      rw [List.length_append]
      split
      · show (true, ({ scan with
          after, seen := visited.length + more.length,
          found := scan.chosen visited ++ scan.chosen more } : Scan)) = _
        rw [hChosen, ← List.length_append]
        rfl
      · next hFull =>
        have hTake : (visited ++ more).take scan.count =
            visited ++ more.take (scan.count - visited.length) := by
          rw [List.take_append, List.take_of_length_le hMore.le]
        have hLast : scan.last_of (visited ++ more) =
            ((more.take (scan.count - visited.length)).getLast?).map Prod.fst := by
          unfold last_of
          rw [List.length_append, if_neg hFull, hTake]
          have hNe : more.take (scan.count - visited.length) ≠ [] := by
            intro hNil
            rcases List.take_eq_nil_iff.mp hNil with hZero | rfl
            · omega
            · exact hFull (by simpa using hMore)
          obtain ⟨front, back, hSplit⟩ := (List.eq_nil_or_concat' _).resolve_left hNe
          rw [hSplit, ← List.append_assoc, List.getLast?_concat, List.getLast?_concat]
        rw [hTake, hLast, ← hChosen]
        rfl
    cases hWalk : (walk m.db scope scan.pre after m.most m.now visit (scan.at_ after visited)).1 with
    -- it paused: the page is not full, or it would have ended here
    | some last =>
      obtain ⟨-, -, more, hTrail', hAll⟩ := hTrail.pause hMade hWalk
      rw [hVisits] at hAll
      have hMore' : (visited ++ more).length < scan.count := by
        by_contra hFull
        rw [if_neg hFull] at hAll
        cases (Prod.mk.inj hAll).1
      rw [if_pos hMore'] at hAll
      have hRun : run scope m (scan.at_ after visited) =
          (none, scan.at_ (some last) (visited ++ more)) :=
        @run_paused _ _ _ (scan.at_ after (visited ++ more)) _
          (Prod.ext hWalk (Prod.mk.inj hAll).2.symm)
      have hDone : done ++ m :: moments = done ++ [m] ++ moments := List.append_cons ..
      rcases ih hTrail' hMore' with ⟨hNone, hLater⟩ | ⟨used, rest, visited', rfl, -, hComplete, hReply⟩
      · refine .inl ⟨?_, hDone ▸ hLater⟩
        rwa [in_runs_none hRun]
      · refine .inr ⟨m :: used, rest, visited', rfl, List.cons_ne_nil _ _, ?_, ?_⟩
        · rwa [List.append_cons]
        · rwa [in_runs_none hRun]
    -- it is the last run, and answers with the page
    | none =>
      obtain ⟨more, hComplete, hAll⟩ := hTrail.finish hMade hWalk
      rw [hVisits] at hAll
      refine .inr ⟨[m], moments, visited ++ more, rfl, List.cons_ne_nil _ _, hComplete, ?_⟩
      have hRun : (run scope m (scan.at_ after visited)).1 = some (scan.page (visited ++ more)) := by
        rw [run_done (Prod.ext hWalk hAll.symm)]
        unfold page
        by_cases hShort : (visited ++ more).length < scan.count
        · have hNone : scan.last_of (visited ++ more) = none := if_pos hShort
          rw [if_pos hShort, hNone, List.take_of_length_le hShort.le]
          unfold next at_
          dsimp only
          rw [hFresh.last]
        · rw [if_neg hShort]
          rfl
      rw [in_runs_some hRun]
      exact hRun

/-- A run that pauses has fewer keys ahead. -/
theorem runs_none (hMade : scope.Made) {held : Finset String} {moments : List Moment}
    (hHeld : holds_only held moments) (hNone : (in_runs (run scope) moments scan).1 = none) :
    moments.length ≤ (ahead held scan.after).card := by
  induction moments generalizing scan with
  | nil => exact Nat.zero_le _
  | cons m moments ih =>
    rcases hWalk : walk m.db scope scan.pre scan.after m.most m.now visit scan with ⟨_ | last, scan'⟩
    · have hReply := run_done hWalk
      rw [in_runs_some (by rw [hReply])] at hNone
      rw [hReply] at hNone
      cases hNone
    · rw [in_runs_none (run_paused hWalk)] at hNone
      obtain ⟨hPast, ⟨e, hGet⟩, -⟩ := (trail_start scope scan.pre scan.after).pause hMade
        (congrArg Prod.fst hWalk)
      have hRest := ih (fun m' hm' => hHeld m' (List.mem_cons_of_mem _ hm')) hNone
      have hLess := ahead_lt (hHeld m List.mem_cons_self last e hGet) hPast
      exact Nat.succ_le_of_lt (hRest.trans_lt hLess)

/-! ## What a SCAN asks for -/

theorem options_fresh {rest : List String} {scan scan' : Scan} (hFresh : Fresh scan)
    (h : options scan rest = .ok scan') : Fresh scan' ∧ scan'.after = scan.after := by
  -- one case for each option, and for each way it is refused
  fun_induction options scan rest with
  | case1 => cases h; exact ⟨hFresh, rfl⟩
  | case2 => cases h
  | case3 scan name value rest hName pattern hPattern ih =>
    refine ih ?_ h
    refine { hFresh with pattern := fun glob hGlob => ?_ }
    cases hGlob
    unfold Glob.client at hPattern
    split at hPattern
    · cases hPattern
    · cases hPattern
      rfl
  | case4 => cases h
  | case5 scan name value rest hName n hInt hPositive ih =>
    have hCount : 1 ≤ min n.toNat SCAN_MOST := by
      have : 1 ≤ SCAN_MOST := by decide
      omega
    exact ih { hFresh with count := hCount } h
  | case6 => cases h
  | case7 => cases h
  | case8 scan name value rest hName ih => exact ih { hFresh with } h
  | case9 => cases h

/-- **What a SCAN begins with.** -/
theorem new_fresh {argv : List String} {scan : Scan} (h : new argv = .ok scan) :
    Fresh scan ∧ ∃ cursor, argv[1]? = some cursor ∧ decode cursor = .ok scan.after := by
  unfold new at h
  split at h
  · next name cursor rest =>
    split at h
    · next after hDecode =>
      obtain ⟨hFresh, hAfter⟩ := options_fresh
        ⟨rfl, rfl, rfl, (by decide : 1 ≤ 10), fun _ hGlob => by cases hGlob⟩ h
      exact ⟨hFresh, cursor, rfl, hAfter ▸ hDecode⟩
    · cases h
  · cases h

/-- A cursor stands where it was made. -/
theorem decode_to_hex (key : String) : decode (to_hex (utf8 key)) = .ok (some key) := by
  unfold decode
  have hNot : to_hex (utf8 key) ≠ "0" := by
    intro hZero
    have hLength := congrArg (fun s : String => s.toList.length % 2) hZero
    have hEven : ∀ bytes : List UInt8, (to_hex bytes).toList.length % 2 = 0 := by
      intro bytes
      unfold to_hex
      rw [String.toList_ofList]
      induction bytes with
      | nil => rfl
      | cons b bytes ih =>
        rw [List.flatMap_cons, List.length_append, List.length_cons, List.length_singleton,
          Nat.add_mod_left, ih]
    simp only [hEven] at hLength
    revert hLength
    decide
  rw [if_neg hNot, from_hex_to_hex]
  show (match from_utf8 (utf8 key) with | some key => _ | none => _) = _
  rw [from_utf8_utf8]

end Scan

/-! ## Iterations -/

/-- A SCAN sent, the moments its walk had the lock, and what it replied. -/
structure Page where
  argv : List String
  moments : List Moment
  next : String
  found : List String

/-- The reply came with the last of the moments. -/
def Page.Replied (scope : Scope) (page : Page) : Prop :=
  ∃ before last, page.moments = before ++ [last] ∧ scan_reply scope page.argv before = none ∧
    scan_reply scope page.argv page.moments =
      some (.array [.bulk page.next, Reply.bulks page.found])

/-- Pages of one iteration: each asks with the cursor the one before it replied, `0`
being the last. The options choose the same keys; `COUNT` may change. -/
inductive Iteration (scope : Scope) (pattern : Option Glob) (kind : Option String) :
    String → List Page → Prop where
  | nil (cursor : String) : Iteration scope pattern kind cursor []
  | cons {cursor : String} {page : Page} {pages : List Page} {scan : Scan}
      (cursors : page.argv[1]? = some cursor) (asks : Scan.new page.argv = .ok scan)
      (patterns : scan.pattern = pattern) (kinds : scan.kind = kind)
      (replied : page.Replied scope) (goes_on : page.next = "0" → pages = [])
      (rest : Iteration scope pattern kind page.next pages) :
      Iteration scope pattern kind cursor (page :: pages)

/-- `key` is live and of the type whenever a walk has the lock. -/
def lasting (kind : Option String) (moments : List Moment) (key : String) : Prop :=
  ∀ m ∈ moments, ∃ e, m.db.get key m.now = some e ∧ kind.all (e.value.type_name == ·) = true

/-- `key` is one that the scope can read and the pattern matches. -/
def wanted (scope : Scope) (pattern : Option Glob) (key : String) : Prop :=
  scope.can_read key = true ∧ pattern.all (·.matches_ key) = true

/-- Where a page's cursor stands, if it is not the last. -/
def Page.mark (page : Page) : Option String :=
  match Scan.decode page.next with
  | .ok key => key
  | .error _ => none

/-- What one page gives, the walk having stood at `start`. -/
structure PageExact (scope : Scope) (pattern : Option Glob) (kind : Option String)
    (start : Option String) (page : Page) : Prop where
  sorted : page.found.Pairwise (· < ·)
  within : ∀ key ∈ page.found, past start key = true ∧ ∀ last, page.mark = some last → key ≤ last
  wanted : ∀ key ∈ page.found, wanted scope pattern key
  /-- The cursor names a readable key that was held, further on. -/
  cursor : page.next ≠ "0" → ∃ last, Scan.decode page.next = .ok (some last) ∧
    past start last = true ∧ scope.can_read last = true ∧
    ∃ m ∈ page.moments, (m.db.get last m.now).isSome = true
  all : ∀ key, Postino.wanted scope pattern key → lasting kind page.moments key →
    past start key = true → (∀ last, page.mark = some last → key ≤ last) → key ∈ page.found

theorem decode_zero : Scan.decode "0" = .ok none := rfl

/-- The pattern's prefix is that of every key it matches. -/
theorem Scan.pre_of_wanted {scope : Scope} {scan : Scan} (hFresh : scan.Fresh) {key : String}
    (hWanted : wanted scope scan.pattern key) : key.startsWith scan.pre = true := by
  unfold Scan.pre
  split
  · next glob hGlob =>
    have hMatches := hWanted.2
    rw [hGlob] at hMatches
    have hMatches : glob.matches_ key = true := hMatches
    rw [hFresh.pattern glob hGlob] at hMatches
    exact String.startsWith_string_iff.mpr (matches_start hMatches)
  · exact String.startsWith_string_iff.mpr List.nil_prefix

/-- **One page.** -/
theorem page_exact {scope : Scope} (hMade : scope.Made) {page : Page} {scan : Scan}
    (hAsks : Scan.new page.argv = .ok scan) (hReplied : page.Replied scope) :
    PageExact scope scan.pattern scan.kind scan.after page := by
  obtain ⟨hFresh, -⟩ := Scan.new_fresh hAsks
  -- the keys the page's walk visited
  have hVisited : ∃ visited, Complete scope scan.pre scan.after page.moments visited ∧
      Reply.array [.bulk page.next, Reply.bulks page.found] = scan.page visited := by
    obtain ⟨before, last, hMoments, hNone, hReply⟩ := hReplied
    unfold scan_reply at hNone hReply
    rw [hAsks] at hNone hReply
    dsimp only at hNone hReply
    have hAt : scan.at_ scan.after [] = scan := by
      unfold Scan.at_ Scan.chosen
      rw [List.length_nil, ← hFresh.seen]
      show { scan with found := [] } = scan
      rw [← hFresh.found]
    have hRuns := @Scan.runs_from scope scan hMade hFresh scan.after scan.after [] page.moments []
      (trail_start scope scan.pre scan.after) hFresh.count
    rw [hAt] at hRuns
    rcases hRuns with ⟨hStill, -⟩ | ⟨used, rest, visited, hUsed, hNe, hComplete, hPage⟩
    · rw [hStill] at hReply
      cases hReply
    · -- all the moments were needed
      have hAll : rest = [] := by
        by_contra hMore
        obtain ⟨rest', m, rfl⟩ := (List.eq_nil_or_concat' rest).resolve_left hMore
        rw [hUsed, ← List.append_assoc] at hMoments
        obtain ⟨rfl, -⟩ := List.append_inj' hMoments rfl
        rw [in_runs_append hPage, hPage] at hNone
        cases hNone
      rw [hAll, List.append_nil] at hUsed
      rw [hUsed, hPage] at hReply
      refine ⟨visited, ?_, (Option.some.inj hReply).symm⟩
      rw [hUsed]
      exact hComplete
  obtain ⟨visited, hComplete, hPage⟩ := hVisited
  unfold Scan.page at hPage
  injection hPage with hPage
  injection hPage with hNext hFound
  injection hFound with hFound
  injection hNext with hNext
  have hFound : page.found = scan.chosen (visited.take scan.count) := by
    injection hFound with hFound
    exact List.map_injective_iff.mpr (fun _ _ h => by injection h) hFound
  have hSorted : (visited.map Prod.fst).Pairwise (· < ·) := List.pairwise_map.mpr hComplete.sorted
  have hSub : page.found.Sublist (visited.map Prod.fst) := by
    rw [hFound]
    exact (List.filter_sublist.trans (List.take_sublist ..)).map _
  have hMem : ∀ key ∈ page.found, ∃ e ∈ visited.take scan.count, e.1 = key ∧
      scan.chooses e.1 e.2 = true := by
    intro key hKey
    rw [hFound] at hKey
    obtain ⟨e, he, rfl⟩ := List.mem_map.mp hKey
    exact ⟨e, (List.mem_filter.mp he).1, rfl, (List.mem_filter.mp he).2⟩
  -- a wanted key that was visited is on the page, when the page reaches it
  have hChosen : ∀ key, wanted scope scan.pattern key → lasting scan.kind page.moments key →
      key ∈ (visited.take scan.count).map Prod.fst → key ∈ page.found := by
    intro key hWanted hLasting hIn
    obtain ⟨e, he, rfl⟩ := List.mem_map.mp hIn
    rw [hFound]
    refine List.mem_map.mpr ⟨e, List.mem_filter.mpr ⟨he, ?_⟩, rfl⟩
    obtain ⟨-, -, m, hm, hGet⟩ := hComplete.reached e (List.mem_of_mem_take he)
    obtain ⟨e', hGet', hKind⟩ := hLasting m hm
    rw [hGet] at hGet'
    cases hGet'
    exact Bool.and_eq_true_iff.mpr ⟨hWanted.2, hKind⟩
  have hVisits : ∀ key, wanted scope scan.pattern key → lasting scan.kind page.moments key →
      past scan.after key = true → key ∈ visited.map Prod.fst := by
    intro key hWanted hLasting hPast
    refine hComplete.all key hPast (Scan.pre_of_wanted hFresh hWanted) hWanted.1 fun m hm => ?_
    obtain ⟨e, hGet, -⟩ := hLasting m hm
    rw [hGet]
    rfl
  -- a page that is not full is the last
  have hEnd : visited.length < scan.count ∧ page.next = "0" ∨
      ∃ front last, visited.take scan.count = front ++ [last] ∧
        Scan.decode page.next = .ok (some last.1) := by
    by_cases hShort : visited.length < scan.count
    · refine .inl ⟨hShort, ?_⟩
      have hNone : scan.last_of visited = none := if_pos hShort
      rw [hNext, hNone]
      rfl
    · have hNe : visited.take scan.count ≠ [] := by
        intro hNil
        have hCount := hFresh.count
        rcases List.take_eq_nil_iff.mp hNil with hZero | rfl
        · omega
        · exact hShort hCount
      obtain ⟨front, last, hSplit⟩ := (List.eq_nil_or_concat' _).resolve_left hNe
      refine .inr ⟨front, last, hSplit, ?_⟩
      have hLast : scan.last_of visited = some last.1 := by
        unfold Scan.last_of
        rw [if_neg hShort, hSplit, List.getLast?_concat]
        rfl
      rw [hNext, hLast]
      exact Scan.decode_to_hex last.1
  have hFirst : (front : List (String × Entry)) → (last : String × Entry) →
      visited.take scan.count = front ++ [last] → ∀ e ∈ front ++ [last], e.1 ≤ last.1 := by
    intro front last hSplit e he
    have hTake := hComplete.sorted.sublist (List.take_sublist scan.count visited)
    rw [hSplit] at hTake
    rcases List.mem_append.mp he with he | he
    · exact ((List.pairwise_append.mp hTake).2.2 e he last (List.mem_singleton_self _)).le
    · rw [List.mem_singleton.mp he]
  refine
    { sorted := hSorted.sublist hSub
      within := fun key hKey => ?_
      wanted := fun key hKey => ?_
      cursor := fun hNot => ?_
      all := fun key hWanted hLasting hPast hMark => ?_ }
  · obtain ⟨e, he, rfl, -⟩ := hMem key hKey
    refine ⟨hComplete.within e (List.mem_of_mem_take he), fun l hMark => ?_⟩
    unfold Page.mark at hMark
    rcases hEnd with ⟨-, hZero⟩ | ⟨front, last, hSplit, hDecode⟩
    · rw [hZero, decode_zero] at hMark
      cases hMark
    · rw [hDecode] at hMark
      cases hMark
      exact hFirst front last hSplit e (hSplit ▸ he)
  · obtain ⟨e, he, rfl, hC⟩ := hMem key hKey
    exact ⟨(hComplete.reached e (List.mem_of_mem_take he)).1, (Bool.and_eq_true_iff.mp hC).1⟩
  · rcases hEnd with ⟨-, hZero⟩ | ⟨front, last, hSplit, hDecode⟩
    · exact absurd hZero hNot
    · have hLast : last ∈ visited := by
        refine List.mem_of_mem_take (i := scan.count) ?_
        rw [hSplit]
        exact List.mem_append_right _ (List.mem_singleton_self last)
      obtain ⟨hRead, -, m, hm, hGet⟩ := hComplete.reached last hLast
      exact ⟨last.1, hDecode, hComplete.within last hLast, hRead, m, hm, by rw [hGet]; rfl⟩
  · have hIn := hVisits key hWanted hLasting hPast
    refine hChosen key hWanted hLasting ?_
    rcases hEnd with ⟨hShort, -⟩ | ⟨front, last, hSplit, hDecode⟩
    · rwa [List.take_of_length_le hShort.le]
    · have hLe : key ≤ last.1 := by
        refine hMark last.1 ?_
        unfold Page.mark
        rw [hDecode]
      obtain ⟨e, he, rfl⟩ := List.mem_map.mp hIn
      refine List.mem_map_of_mem ?_
      rw [← List.take_append_drop scan.count visited] at he
      refine (List.mem_append.mp he).resolve_right fun hLater => ?_
      -- what is not on the page comes after its last key
      have hOrder := hComplete.sorted
      rw [← List.take_append_drop scan.count visited] at hOrder
      have hLt := (List.pairwise_append.mp hOrder).2.2 last
        (hSplit ▸ List.mem_append_right _ (List.mem_singleton_self last)) e hLater
      exact absurd hLe (not_le.mpr hLt)

/-- What the pages of an iteration give, from where it stands. -/
structure ScanExact (scope : Scope) (pattern : Option Glob) (kind : Option String)
    (start : Option String) (pages : List Page) : Prop where
  /-- In key order, so none twice. -/
  sorted : (pages.flatMap Page.found).Pairwise (· < ·)
  wanted : ∀ key ∈ pages.flatMap Page.found, past start key = true ∧ wanted scope pattern key
  /-- Once the iteration is over, nothing that lasted is missing. -/
  all : (∃ page ∈ pages, page.next = "0") → ∀ key, Postino.wanted scope pattern key →
    lasting kind (pages.flatMap Page.moments) key → past start key = true →
    key ∈ pages.flatMap Page.found
  cursors : ∀ page ∈ pages, page.next ≠ "0" → ∃ last, Scan.decode page.next = .ok (some last) ∧
    past start last = true ∧ scope.can_read last = true
  /-- Each cursor is further on than the one before. -/
  forward : (pages.filterMap Page.mark).Pairwise (· < ·)
  ends : ∀ held, holds_only held (pages.flatMap Page.moments) →
    pages.length ≤ (ahead held start).card + 1

theorem Page.mark_of {page : Page} {key : Option String} (h : Scan.decode page.next = .ok key) :
    page.mark = key := by
  unfold Page.mark
  rw [h]

/-- **Page after page.** -/
theorem Iteration.exact {scope : Scope} (hMade : scope.Made) {pattern : Option Glob}
    {kind : Option String} {cursor : String} {pages : List Page}
    (h : Iteration scope pattern kind cursor pages) {start : Option String}
    (hStart : Scan.decode cursor = .ok start) : ScanExact scope pattern kind start pages := by
  induction h generalizing start with
  | nil =>
    exact
      { sorted := List.Pairwise.nil
        wanted := fun key hKey => absurd hKey List.not_mem_nil
        all := fun ⟨page, hPage, _⟩ => absurd hPage List.not_mem_nil
        cursors := fun page hPage => absurd hPage List.not_mem_nil
        forward := List.Pairwise.nil
        ends := fun _ _ => Nat.zero_le _ }
  | cons hCursor hAsks hPattern hKind hReplied hGoesOn hRest ih =>
    rename_i cursor page pages scan
    subst hPattern hKind
    have hPage := page_exact hMade hAsks hReplied
    have hAfter : scan.after = start := by
      obtain ⟨-, cursor', hCursor', hDecode⟩ := Scan.new_fresh hAsks
      rw [hCursor] at hCursor'
      cases hCursor'
      rw [hStart] at hDecode
      cases hDecode
      rfl
    rw [hAfter] at hPage
    by_cases hZero : page.next = "0"
    · -- the last page
      have hNil := hGoesOn hZero
      subst hNil
      have hMark : page.mark = none := Page.mark_of (hZero ▸ decode_zero)
      have hFound : [page].flatMap Page.found = page.found := by simp
      have hMoments : [page].flatMap Page.moments = page.moments := by simp
      refine
        { sorted := hFound ▸ hPage.sorted
          wanted := fun key hKey => ?_
          all := fun _ key hWanted hLasting hPast => ?_
          cursors := fun q hq hNot => ?_
          forward := ?_
          ends := fun held _ => by simp }
      · rw [hFound] at hKey
        exact ⟨(hPage.within key hKey).1, hPage.wanted key hKey⟩
      · rw [hFound]
        rw [hMoments] at hLasting
        exact hPage.all key hWanted hLasting hPast fun last hLast => by
          rw [hMark] at hLast
          cases hLast
      · obtain rfl := List.mem_singleton.mp hq
        exact absurd hZero hNot
      · rw [List.filterMap_cons_none hMark]
        exact List.Pairwise.nil
    · obtain ⟨last, hDecode, hPast, hRead, m, hm, hHeld⟩ := hPage.cursor hZero
      have hMark : page.mark = some last := Page.mark_of hDecode
      have hLater := ih hDecode
      have hFront : ∀ key ∈ page.found, key ≤ last := fun key hKey =>
        (hPage.within key hKey).2 last hMark
      have hBack : ∀ key, past (some last) key = true → last < key := fun key h =>
        of_decide_eq_true h
      refine
        { sorted := ?_
          wanted := fun key hKey => ?_
          all := fun hOver key hWanted hLasting hKey => ?_
          cursors := fun q hq hNot => ?_
          forward := ?_
          ends := fun held hHolds => ?_ }
      · rw [List.flatMap_cons]
        refine List.pairwise_append.mpr ⟨hPage.sorted, hLater.sorted, fun a ha b hb => ?_⟩
        exact (hFront a ha).trans_lt (hBack b (hLater.wanted b hb).1)
      · rw [List.flatMap_cons] at hKey
        rcases List.mem_append.mp hKey with hKey | hKey
        · exact ⟨(hPage.within key hKey).1, hPage.wanted key hKey⟩
        · obtain ⟨hKeyPast, hWanted⟩ := hLater.wanted key hKey
          exact ⟨past_trans hPast (hBack key hKeyPast), hWanted⟩
      · rw [List.flatMap_cons] at hLasting ⊢
        rcases lt_or_ge last key with hLt | hGe
        · refine List.mem_append_right _ (hLater.all ?_ key hWanted
            (fun m' hm' => hLasting m' (List.mem_append_right _ hm')) (decide_eq_true hLt))
          obtain ⟨q, hq, hNext⟩ := hOver
          rcases List.mem_cons.mp hq with rfl | hq
          · exact absurd hNext hZero
          · exact ⟨q, hq, hNext⟩
        · refine List.mem_append_left _ (hPage.all key hWanted
            (fun m' hm' => hLasting m' (List.mem_append_left _ hm')) hKey fun l hL => ?_)
          rw [hMark] at hL
          cases hL
          exact hGe
      · rcases List.mem_cons.mp hq with rfl | hq
        · exact ⟨last, hDecode, hPast, hRead⟩
        · obtain ⟨l, hL, hLPast, hLRead⟩ := hLater.cursors q hq hNot
          exact ⟨l, hL, past_trans hPast (hBack l hLPast), hLRead⟩
      · rw [List.filterMap_cons_some hMark]
        refine List.pairwise_cons.mpr ⟨fun l hl => ?_, hLater.forward⟩
        obtain ⟨q, hq, hL⟩ := List.mem_filterMap.mp hl
        by_cases hQ : q.next = "0"
        · rw [Page.mark_of (hQ ▸ decode_zero)] at hL
          cases hL
        · obtain ⟨l', hL', hLPast, -⟩ := hLater.cursors q hq hQ
          rw [Page.mark_of hL'] at hL
          cases hL
          exact hBack _ hLPast
      · rw [List.flatMap_cons] at hHolds
        have hMore := hLater.ends held fun m' hm' => hHolds m' (List.mem_append_right _ hm')
        obtain ⟨e, hGet⟩ := Option.isSome_iff_exists.mp hHeld
        have hIn : last ∈ held := hHolds m (List.mem_append_left _ hm) last e
          (Option.filter_eq_some_iff.mp hGet).1
        have hLess := ahead_lt hIn hPast
        rw [List.length_cons]
        omega

/-- What follows a page is an iteration of its own. -/
theorem Iteration.drop {scope : Scope} {pattern : Option Glob} {kind : Option String}
    {cursor : String} {pages : List Page} (h : Iteration scope pattern kind cursor pages) (n : Nat) :
    ∃ cursor', Iteration scope pattern kind cursor' (pages.drop n) := by
  induction n generalizing cursor pages with
  | zero => exact ⟨cursor, h⟩
  | succ n ih =>
    cases h with
    | nil => exact ⟨cursor, .nil cursor⟩
    | cons _ _ _ _ _ _ hRest => exact ih hRest

/-- **An iteration ends** once keys stop being added. -/
theorem Iteration.length_le {scope : Scope} (hMade : scope.Made) {pattern : Option Glob}
    {kind : Option String} {cursor : String} {pages : List Page}
    (h : Iteration scope pattern kind cursor pages) {held : Finset String}
    (hHolds : holds_only held (pages.flatMap Page.moments)) : pages.length ≤ held.card + 1 := by
  cases h with
  | nil => exact Nat.zero_le _
  | cons hCursor hAsks hPattern hKind hReplied hGoesOn hRest =>
    rename_i page pages scan
    have hDecode : Scan.decode cursor = .ok scan.after := by
      obtain ⟨-, cursor', hCursor', hDecode⟩ := Scan.new_fresh hAsks
      rw [hCursor] at hCursor'
      cases hCursor'
      exact hDecode
    have hExact := (Iteration.cons hCursor hAsks hPattern hKind hReplied hGoesOn hRest).exact hMade hDecode
    exact (hExact.ends held hHolds).trans (Nat.succ_le_succ (Finset.card_filter_le ..))

/-! ## KEYS, run after run -/

namespace Listing

variable {scope : Scope} {pattern : Glob}

/-- The keys the pattern matches, of those visited. -/
def matching (pattern : Glob) (visited : List (String × Entry)) : List String :=
  (visited.map Prod.fst).filter pattern.matches_

/-- What a listing of `keys` takes up. -/
def room (keys : List String) : Nat := Reply.sizes (keys.map .bulk)

theorem room_append (front back : List String) : room (front ++ back) = room front + room back := by
  unfold room
  rw [List.map_append, Reply.sizes_append]

/-- A listing under way that is not too much for one reply. -/
structure Fits (l : Listing) : Prop where
  full : l.full = none
  bytes : l.bytes = room l.listed
  fits : room l.listed ≤ MAX_REPLY_BYTES

/-- Keys are listed, until they are too much for one reply. -/
theorem visits_visit (keys : List (String × Entry)) {l : Listing} (h : Fits l) :
    (room (l.listed ++ matching pattern keys) ≤ MAX_REPLY_BYTES ∧
      ∃ l', visits (visit pattern) keys l = (true, l') ∧ Fits l' ∧ l'.after = l.after ∧
        l'.listed = l.listed ++ matching pattern keys) ∨
    (MAX_REPLY_BYTES < room (l.listed ++ matching pattern keys) ∧
      ∃ l' e, visits (visit pattern) keys l = (false, l') ∧ l'.full = some e) := by
  -- on the keys, with what is listed so far free
  induction keys generalizing l with
  | nil => exact .inl ⟨by simpa [matching] using h.fits, l, rfl, h, rfl, by simp [matching]⟩
  | cons e keys ih =>
    rw [visits_cons]
    by_cases hMatches : pattern.matches_ e.1 = true
    · have hListed : l.listed ++ matching pattern (e :: keys) = l.listed ++ [e.1] ++ matching pattern keys := by
        rw [List.append_assoc]
        exact congrArg _ (List.filter_cons_of_pos hMatches)
      have hRoom : l.bytes + (Reply.bulk e.1).size = room (l.listed ++ [e.1]) := by
        rw [room_append, h.bytes]
        rfl
      have hVisit : visit pattern e.1 e.2 l =
          match within_reply (room (l.listed ++ [e.1])) with
          | .error e' => (false, { l with bytes := room (l.listed ++ [e.1]), full := some e' })
          | .ok () => (true, { l with bytes := room (l.listed ++ [e.1]), listed := l.listed ++ [e.1] }) := by
        rw [← hRoom]
        unfold visit
        rw [hMatches]
        rfl
      rw [hVisit, hListed]
      unfold within_reply
      by_cases hLong : room (l.listed ++ [e.1]) > MAX_REPLY_BYTES
      · rw [if_pos hLong]
        refine .inr ⟨?_, _, _, rfl, rfl⟩
        rw [room_append _ (matching pattern keys)]
        omega
      · rw [if_neg hLong]
        exact @ih { l with bytes := room (l.listed ++ [e.1]), listed := l.listed ++ [e.1] }
          ⟨h.full, rfl, not_lt.mp hLong⟩
    · have hListed : matching pattern (e :: keys) = matching pattern keys :=
        List.filter_cons_of_neg hMatches
      have hVisit : visit pattern e.1 e.2 l = (true, l) := if_pos (by simpa using hMatches)
      rw [hVisit, hListed]
      exact ih h

/-- The runs of a KEYS, from where it stands: in the end it lists the keys that match, or is
refused when they are too much for one reply. -/
theorem runs_from (hMade : scope.Made) {start : Option String} {done moments : List Moment}
    {visited : List (String × Entry)} {l : Listing}
    (hTrail : Trail scope (literal_prefix_ pattern.source) start done l.after visited)
    (hListed : l.listed = matching pattern visited) (h : Fits l) {reply : Reply}
    (hReply : (in_runs (run scope pattern) moments l).1 = some reply) :
    ∃ used rest visited', moments = used ++ rest ∧ used ≠ [] ∧
      Complete scope (literal_prefix_ pattern.source) start (done ++ used) visited' ∧
      Replies reply ((matching pattern visited').map .bulk) ∧
      (in_runs (run scope pattern) used l).1 = some reply := by
  induction moments generalizing done visited l with
  | nil => cases hReply
  | cons m moments ih =>
    -- what a run lists goes behind what the runs before it listed
    have hAppend : ∀ more, l.listed ++ matching pattern more = matching pattern (visited ++ more) := by
      intro more
      rw [hListed]
      unfold matching
      rw [List.map_append, List.filter_append]
    rcases hWalk : walk m.db scope (literal_prefix_ pattern.source) l.after m.most m.now
      (visit pattern) l with ⟨_ | last, l'⟩
    · -- the last run
      obtain ⟨more, hComplete, hAll⟩ := hTrail.finish hMade (congrArg Prod.fst hWalk)
      have hRun : ∃ reply', (run scope pattern m l).1 = some reply' ∧
          Replies reply' ((matching pattern (visited ++ more)).map .bulk) := by
        rw [hWalk] at hAll
        unfold run
        rw [hWalk, ← hAppend]
        rcases @visits_visit pattern more l h with ⟨hRoom, l'', hVisits, hFits, -, hMatching⟩ | ⟨hRoom, l'', e, hVisits, hE⟩
        · rw [hVisits] at hAll
          obtain rfl : l'' = l' := hAll
          refine ⟨_, ?_, if_pos hRoom |>.mpr rfl⟩
          dsimp only
          rw [hFits.full]
          dsimp only
          rw [hMatching]
          rfl
        · rw [hVisits] at hAll
          obtain rfl : l'' = l' := hAll
          refine ⟨.error e, ?_, (if_neg (not_le.mpr hRoom)).mpr rfl⟩
          dsimp only
          rw [hE]
      obtain ⟨reply', hRun, hReplies⟩ := hRun
      rw [in_runs_some hRun, hRun] at hReply
      obtain rfl := Option.some.inj hReply
      exact ⟨[m], moments, visited ++ more, rfl, List.cons_ne_nil _ _, hComplete, hReplies,
        by rw [in_runs_some hRun, hRun]⟩
    · -- it pauses, so what it has listed fits
      obtain ⟨-, -, more, hTrail', hAll⟩ := hTrail.pause hMade (congrArg Prod.fst hWalk)
      rw [hWalk] at hAll
      rcases @visits_visit pattern more l h with ⟨-, l'', hVisits, hFits, -, hMatching⟩ | ⟨-, l'', e, hVisits, -⟩
      · rw [hVisits] at hAll
        obtain rfl : l'' = l' := (Prod.mk.inj hAll).2
        have hRun : run scope pattern m l = (none, { l'' with after := some last }) := by
          unfold run
          rw [hWalk]
          dsimp only
          rw [hFits.full]
        rw [in_runs_none hRun] at hReply
        obtain ⟨used, rest, visited', rfl, -, hComplete, hReplies, hUsed⟩ :=
          @ih (done ++ [m]) (visited ++ more) { l'' with after := some last } hTrail'
            (hMatching.trans (hAppend more)) ⟨hFits.full, hFits.bytes, hFits.fits⟩ hReply
        refine ⟨m :: used, rest, visited', rfl, List.cons_ne_nil _ _, ?_, hReplies, ?_⟩
        · rwa [List.append_cons]
        · rwa [in_runs_none hRun]
      · rw [hVisits] at hAll
        cases (Prod.mk.inj hAll).1

/-- A run that pauses has fewer keys ahead. -/
theorem runs_none (hMade : scope.Made) {held : Finset String} {moments : List Moment} {l : Listing}
    (hHeld : holds_only held moments) (hNone : (in_runs (run scope pattern) moments l).1 = none) :
    moments.length ≤ (ahead held l.after).card := by
  induction moments generalizing l with
  | nil => exact Nat.zero_le _
  | cons m moments ih =>
    rcases hRun : run scope pattern m l with ⟨_ | reply, l'⟩
    · rw [in_runs_none hRun] at hNone
      have hRest := ih (fun m' hm' => hHeld m' (List.mem_cons_of_mem _ hm')) hNone
      unfold run at hRun
      rcases hWalk : walk m.db scope (literal_prefix_ pattern.source) l.after m.most m.now
        (visit pattern) l with ⟨_ | last, s⟩
      · rw [hWalk] at hRun
        dsimp only at hRun
        split at hRun
        · cases hRun
        · cases hRun
      · obtain ⟨hPast, ⟨e, hGet⟩, -⟩ :=
          (trail_start scope (literal_prefix_ pattern.source) l.after).pause hMade
            (congrArg Prod.fst hWalk)
        rw [hWalk] at hRun
        dsimp only at hRun
        split at hRun
        · cases hRun
        · cases hRun
          -- the key it paused at is one that was ahead, and is no longer
          have hLess := ahead_lt (hHeld m List.mem_cons_self last e hGet) hPast
          exact Nat.succ_le_of_lt (hRest.trans_lt hLess)
    · rw [in_runs_some (by rw [hRun]), hRun] at hNone
      cases hNone

end Listing

/-- What KEYS lists, its walk having had the lock at these moments. -/
structure KeysExact (scope : Scope) (pattern : Glob) (moments : List Moment) (listed : List String) :
    Prop where
  /-- In key order, so none twice. -/
  sorted : listed.Pairwise (· < ·)
  wanted : ∀ key ∈ listed, wanted scope (some pattern) key
  all : ∀ key, Postino.wanted scope (some pattern) key → lasting none moments key → key ∈ listed

/-- **Every lasting key is listed once.** Whatever the scope, the options, how the pages
are cut, where the walk pauses and what happens to the keyspace in between. A SCAN whose words
are read is answered with a page, once its walk has had the lock often enough; a KEYS with its
listing, unless that is too much for one reply or the pattern is too long. -/
theorem listing_exact (keys read channels : List String) :
    -- SCAN, from page to page
    (∀ pattern kind pages, Iteration (.new keys read channels) pattern kind "0" pages →
      ScanExact (.new keys read channels) pattern kind none pages ∧
      ∀ n held, holds_only held ((pages.drop n).flatMap Page.moments) →
        (pages.drop n).length ≤ held.card + 1) ∧
    (∀ argv moments held, holds_only held moments → held.card < moments.length →
      (∀ e, Scan.new argv = .error e → scan_reply (.new keys read channels) argv moments = some (.error e)) ∧
      ∀ scan, Scan.new argv = .ok scan → ∃ next found,
        scan_reply (.new keys read channels) argv moments = some (.array [.bulk next, Reply.bulks found])) ∧
    -- KEYS
    (∀ pattern before last reply, keys_reply (.new keys read channels) pattern before = none →
      keys_reply (.new keys read channels) pattern (before ++ [last]) = some reply →
      ∃ listed, Replies reply (listed.map .bulk) ∧
        KeysExact (.new keys read channels) (.new pattern) (before ++ [last]) listed) ∧
    (∀ pattern moments, MAX_PATTERN < pattern.utf8ByteSize →
      ∃ e, keys_reply (.new keys read channels) pattern moments = some (.error e)) ∧
    (∀ pattern moments held, holds_only held moments → held.card < moments.length →
      (keys_reply (.new keys read channels) pattern moments).isSome = true) := by
  have hMade := Scope.new_made keys read channels
  generalize Scope.new keys read channels = scope at hMade
  have hAhead : ∀ (held : Finset String) after, (ahead held after).card ≤ held.card :=
    fun held after => Finset.card_filter_le ..
  refine ⟨fun pattern kind pages h => ⟨h.exact hMade decode_zero, fun n held hHolds => ?_⟩,
    fun argv moments held hHolds hMany => ⟨fun e hError => ?_, fun scan hScan => ?_⟩,
    fun pattern before last reply hNone hReply => ?_, fun pattern moments hLong => ?_,
    fun pattern moments held hHolds hMany => ?_⟩
  · obtain ⟨cursor, hDrop⟩ := h.drop n
    exact hDrop.length_le hMade hHolds
  · unfold scan_reply
    rw [hError]
  · have hReply : scan_reply scope argv moments = (in_runs (Scan.run scope) moments scan).1 := by
      unfold scan_reply
      rw [hScan]
    rw [hReply]
    cases hRuns : (in_runs (Scan.run scope) moments scan).1 with
    | none =>
      have hLe := Scan.runs_none hMade hHolds hRuns
      have hLess := hAhead held scan.after
      omega
    | some reply =>
      -- a run that replies has a page
      obtain ⟨next, found, rfl⟩ : ∃ next found, reply = .array [.bulk next, Reply.bulks found] := by
        refine @in_runs_reply _ _ (fun reply => ∃ next found, reply = .array [.bulk next, Reply.bulks found]) ?_ _ _ _ hRuns
        intro m s r hRun
        unfold Scan.run at hRun
        split at hRun
        · cases hRun
        · exact ⟨_, _, (Option.some.inj hRun).symm⟩
      exact ⟨next, found, rfl⟩
  · unfold keys_reply Glob.client at hNone hReply
    by_cases hLong : pattern.utf8ByteSize > MAX_PATTERN
    · rw [if_pos hLong] at hNone
      cases hNone
    · rw [if_neg hLong] at hNone hReply
      dsimp only at hNone hReply
      obtain ⟨used, rest, visited, hUsed, hNe, hComplete, hReplies, hEnd⟩ :=
        Listing.runs_from hMade (trail_start scope _ none) rfl ⟨rfl, rfl, Nat.zero_le _⟩ hReply
      -- all the moments were needed
      have hAll : rest = [] := by
        by_contra hMore
        obtain ⟨rest', m, rfl⟩ := (List.eq_nil_or_concat' rest).resolve_left hMore
        rw [← List.append_assoc] at hUsed
        obtain ⟨rfl, -⟩ := List.append_inj' hUsed rfl
        rw [in_runs_append hEnd, hEnd] at hNone
        cases hNone
      rw [hAll, List.append_nil] at hUsed
      rw [List.nil_append, ← hUsed] at hComplete
      have hSorted : (visited.map Prod.fst).Pairwise (· < ·) :=
        List.pairwise_map.mpr hComplete.sorted
      refine ⟨_, hReplies, hSorted.sublist List.filter_sublist, fun key hKey => ?_,
        fun key hWanted hLasting => ?_⟩
      · obtain ⟨hKey, hMatches⟩ := List.mem_filter.mp hKey
        obtain ⟨e, he, rfl⟩ := List.mem_map.mp hKey
        exact ⟨(hComplete.reached e he).1, hMatches⟩
      · refine List.mem_filter.mpr ⟨hComplete.all key rfl ?_ hWanted.1 fun m hm => ?_, hWanted.2⟩
        · exact String.startsWith_string_iff.mpr (matches_start hWanted.2)
        · obtain ⟨e, hGet, -⟩ := hLasting m hm
          rw [hGet]
          rfl
  · unfold keys_reply Glob.client
    rw [if_pos hLong]
    exact ⟨_, rfl⟩
  · unfold keys_reply
    cases Glob.client pattern with
    | error e => rfl
    | ok pattern =>
      dsimp only
      by_contra hNone
      have hLe := Listing.runs_none hMade hHolds (Option.not_isSome_iff_eq_none.mp hNone)
      have := hAhead held ({} : Listing).after
      omega

/-- The cursor and the keys that a page is. -/
def Reply.page : Reply → Option (String × List String)
  | array [next, found] => do return (← next.text, ← found.texts)
  | _ => none

theorem Reply.page_eq_some {reply : Reply} {next : String} {found : List String} (h : reply.page = some (next, found)) :
    reply = .array [.bulk next, bulks found] := by
  unfold page at h
  split at h
  · obtain ⟨cursor, hText, h⟩ := Option.bind_eq_some_iff.mp h
    obtain ⟨keys, hTexts, h⟩ := Option.bind_eq_some_iff.mp h
    cases h
    rw [text_eq_some hText, texts_eq_some hTexts]
  · cases h

/-- Two pages, the first in two runs, and a KEYS, while one key goes and two come. -/
theorem listing_exact_pages :
    let scope := Scope.new ["jobs:*"] [] []
    let entry : Entry := { value := .string "x" }
    let holding (keys : List String) : Db := { keys := keys.foldl (fun held key => held.insert key entry) ∅ }
    let before := holding ["jobs:a", "jobs:b", "jobs:c", "mail:x"]
    let after := holding ["jobs:aa", "jobs:b", "jobs:c", "jobs:d", "mail:x"]
    let first : Page :=
      { argv := ["SCAN", "0", "COUNT", "2"], moments := [⟨before, 0, 1⟩, ⟨before, 0, 5⟩], next := "6a6f62733a62"
        found := ["jobs:a", "jobs:b"] }
    let second : Page :=
      { argv := ["SCAN", "6a6f62733a62", "COUNT", "5"], moments := [⟨after, 0, 5⟩], next := "0", found := ["jobs:c", "jobs:d"] }
    ScanExact scope none none none [first, second] ∧
      keys_reply scope "jobs:?" [⟨before, 0, 2⟩, ⟨after, 0, 5⟩] = some (Reply.bulks ["jobs:a", "jobs:b", "jobs:c", "jobs:d"]) ∧
      KeysExact scope (.new "jobs:?") [⟨before, 0, 2⟩, ⟨after, 0, 5⟩] ["jobs:a", "jobs:b", "jobs:c", "jobs:d"] := by
  intro scope entry holding before after first second
  -- what the two commands answer, run by run
  have hRuns : (scan_reply scope first.argv first.moments).bind Reply.page = some (first.next, first.found) ∧
      (scan_reply scope first.argv [⟨before, 0, 1⟩]).isNone = true ∧
      (scan_reply scope second.argv second.moments).bind Reply.page = some (second.next, second.found) ∧
      (keys_reply scope "jobs:?" [⟨before, 0, 2⟩]).isNone = true ∧
      (keys_reply scope "jobs:?" [⟨before, 0, 2⟩, ⟨after, 0, 5⟩]).bind Reply.texts =
        some ["jobs:a", "jobs:b", "jobs:c", "jobs:d"] := by
    decide +kernel +revert
  obtain ⟨hFirst, hPaused, hSecond, hHalf, hKeys⟩ := hRuns
  obtain ⟨firstReply, hFirst, hFirstPage⟩ := Option.bind_eq_some_iff.mp hFirst
  obtain ⟨secondReply, hSecond, hSecondPage⟩ := Option.bind_eq_some_iff.mp hSecond
  obtain ⟨keysReply, hKeys, hKeysList⟩ := Option.bind_eq_some_iff.mp hKeys
  obtain rfl := Reply.page_eq_some hFirstPage
  obtain rfl := Reply.page_eq_some hSecondPage
  obtain rfl := Reply.texts_eq_some hKeysList
  obtain ⟨hScans, -, hLists, -⟩ := listing_exact ["jobs:*"] [] []
  refine ⟨(hScans none none [first, second] ?_).1, hKeys, ?_⟩
  · exact .cons rfl rfl rfl rfl ⟨[_], _, rfl, Option.isNone_iff_eq_none.mp hPaused, hFirst⟩ (by decide)
      (.cons rfl rfl rfl rfl ⟨[], _, rfl, rfl, hSecond⟩ (fun _ => rfl) (.nil _))
  · obtain ⟨listed, hReplies, hExact⟩ :=
      hLists "jobs:?" [⟨before, 0, 2⟩] ⟨after, 0, 5⟩ _ (Option.isNone_iff_eq_none.mp hHalf) hKeys
    have hListed : listed = ["jobs:a", "jobs:b", "jobs:c", "jobs:d"] := by
      unfold Replies at hReplies
      split at hReplies
      · injection hReplies with hItems
        exact (List.map_injective_iff.mpr (fun _ _ h => Reply.bulk.inj h) hItems).symm
      · cases hReplies
    rwa [hListed] at hExact

end Postino
