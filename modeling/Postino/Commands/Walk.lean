import Postino.Commands.Scan

/-!
# A walk to its end

A walk over keys that stay as they are, cut into runs of any size, each going on after
the key the run before it paused at.

* `listing` — the keys a walk has before it, and where it leaves off (`listing_after`);
* `walk_resumed` — run after run;
* `walk_exact` — what all runs visit: the readable live keys that start as asked.
-/

namespace Postino

open Lib

variable {σ : Type}

/-- Walks to the end, `most n` keys at a time in the `n`-th run, with `runs` runs at most.
Each goes on after the key the one before it returned. -/
def walk_resumed (db : Db) (scope : Scope) (pre : String) (now : Nat)
    (visit : String → Entry → σ → Bool × σ) : Nat → (Nat → Nat) → Option String → σ → Option σ
  | 0, _, _, _ => none
  | runs + 1, most, after, s =>
    match walk db scope pre after (most 0) now visit s with
    | (some last, s) => walk_resumed db scope pre now visit runs (fun n => most (n + 1)) (some last) s
    | (none, s) => some s

/-- The keys before a walk, those it only looks at included. -/
def listing (db : Db) (scope : Scope) (pre : String) (after : Option String) : List (String × Entry) :=
  db.with_prefixes (scope.search_prefixes pre) after

variable {scope : Scope} (hMade : scope.Made) (db : Db) (pre : String)

include hMade

theorem listing_sorted (after : Option String) :
    (listing db scope pre after).Pairwise fun a b => a.1 < b.1 := by
  unfold listing
  rw [with_prefixes_eq db (Scope.search_runs hMade pre)]
  exact (BTreeMap.sorted_toList db.keys).filter _

/-- **A run takes up where the one before it paused.** -/
theorem listing_after {after : Option String} {passed rest : List (String × Entry)}
    {last : String × Entry} (h : listing db scope pre after = passed ++ last :: rest) :
    listing db scope pre (some last.1) = rest := by
  have hSorted := listing_sorted hMade db pre after
  have hLast : past after last.1 = true := by
    have hMem : last ∈ listing db scope pre after := h ▸ List.mem_append_right _ List.mem_cons_self
    unfold listing at hMem
    rw [with_prefixes_eq db (Scope.search_runs hMade pre)] at hMem
    exact (Bool.and_eq_true_iff.mp (List.mem_filter.mp hMem).2).1
  -- what is after `last` is what of the listing is after it
  have hFilter : listing db scope pre (some last.1) =
      (listing db scope pre after).filter fun e => last.1 < e.1 := by
    unfold listing
    rw [with_prefixes_eq db (Scope.search_runs hMade pre), with_prefixes_eq db (Scope.search_runs hMade pre),
      List.filter_filter]
    refine List.filter_congr fun e _ => ?_
    have hPast : decide (last.1 < e.1) = (decide (last.1 < e.1) && past after e.1) := by
      by_cases hLt : last.1 < e.1
      · simp [hLt, past_trans hLast hLt]
      · simp [hLt]
    rw [show past (some last.1) e.1 = decide (last.1 < e.1) from rfl, ← Bool.and_assoc, ← hPast]
  rw [h] at hSorted hFilter
  obtain ⟨-, hRest, hApart⟩ := List.pairwise_append.mp hSorted
  rw [hFilter, List.filter_append, List.filter_eq_nil_iff.mpr, List.nil_append,
    List.filter_cons_of_neg (by simp), List.filter_eq_self]
  · intro e he
    exact decide_eq_true ((List.pairwise_cons.mp hRest).1 e he)
  · intro e he
    have hLt := hApart e he last List.mem_cons_self
    rw [decide_eq_true_eq]
    exact not_lt.mpr hLt.le

/-- Enough runs show all that a walk has before it, until `visit` has enough. -/
theorem walk_resumed_eq (now : Nat) (visit : String → Entry → σ → Bool × σ) (runs : Nat) :
    ∀ (most : Nat → Nat) (after : Option String) (s : σ), (listing db scope pre after).length < runs →
      walk_resumed db scope pre now visit runs most after s =
        some (visits visit ((listing db scope pre after).filter (reach scope now)) s).2 := by
  induction runs with
  | zero => exact fun _ _ _ hRuns => absurd hRuns (Nat.not_lt_zero _)
  | succ runs ih =>
    intro most after s hRuns
    unfold walk_resumed walk
    rcases walk_split visit scope (most 0) now 0 (listing db scope pre after) s with
      ⟨passed, last, rest, hKeys, hLast, hVisits⟩ | ⟨hNone, hVisits⟩
    · rcases hWalk : walk_from scope (most 0) now visit 0 (listing db scope pre after) s with ⟨stop, s'⟩
      have hAfter := listing_after hMade db pre hKeys
      rw [hWalk] at hLast hVisits
      dsimp only at hLast hVisits
      subst hLast
      rw [show walk_from scope (most 0) now visit 0
        (db.with_prefixes (scope.search_prefixes pre) after) s = (some last.1, s') from hWalk]
      dsimp only
      rw [hKeys, List.length_append, List.length_cons] at hRuns
      rw [ih _ _ _ (by rw [hAfter]; omega), hAfter, hKeys, List.append_cons, List.filter_append,
        visits_append, hVisits]
    · rcases hWalk : walk_from scope (most 0) now visit 0 (listing db scope pre after) s with ⟨stop, s'⟩
      rw [hWalk] at hNone hVisits
      dsimp only at hNone hVisits
      subst hNone
      rw [show walk_from scope (most 0) now visit 0
        (db.with_prefixes (scope.search_prefixes pre) after) s = (none, s') from hWalk, hVisits]

/-- What a walk shows is what the scope can read of the live keys that start as asked. -/
theorem listing_reach (now : Nat) (after : Option String) :
    (listing db scope pre after).filter (reach scope now) =
      (db.live_keys now).filter fun e =>
        past after e.1 && scope.can_read e.1 && e.1.startsWith pre := by
  unfold listing Db.live_keys
  rw [with_prefixes_eq db (Scope.search_runs hMade pre), List.filter_filter, List.filter_filter]
  refine List.filter_congr fun e _ => ?_
  unfold reach
  rw [Bool.eq_iff_iff]
  simp only [Bool.and_eq_true, List.any_eq_true]
  constructor
  · rintro ⟨⟨hLive, hRead⟩, hPast, run, hRun, hStarts⟩
    exact ⟨⟨⟨hPast, hRead⟩, startsWith_trans (Scope.search_sound scope pre run hRun) hStarts⟩, hLive⟩
  · rintro ⟨⟨⟨hPast, hRead⟩, hPre⟩, hLive⟩
    exact ⟨⟨hLive, hRead⟩, hPast, Scope.search_complete hMade hRead hPre⟩

omit hMade

/-- Notes the keys it is shown, in order. -/
def collect (key : String) (entry : Entry) (shown : List (String × Entry)) : Bool × List (String × Entry) :=
  (true, shown ++ [(key, entry)])

theorem visits_collect (keys shown : List (String × Entry)) :
    (visits collect keys shown).2 = shown ++ keys := by
  induction keys generalizing shown with
  | nil => exact (List.append_nil _).symm
  | cons e keys ih =>
    rw [visits_cons]
    show (visits collect keys (shown ++ [e])).2 = _
    rw [ih, List.append_assoc]
    rfl

/-- **Walking by prefixes loses and repeats no key.** However many keys each run looks at,
a walk shows the live keys after `after` that the scope can read and that start with the
pattern's literal prefix, in key order and each once; every readable live key that the
pattern matches is among them. A `visit` that has enough stops it there. -/
theorem walk_exact (db : Db) (keys read channels : List String) (pattern : String) (after : Option String)
    (now : Nat) (most : Nat → Nat) :
    let scope := Scope.new keys read channels
    let shown := (db.live_keys now).filter fun e =>
      past after e.1 && scope.can_read e.1 && e.1.startsWith (literal_prefix_ pattern)
    (∀ runs, db.keys.size < runs →
      walk_resumed db scope (literal_prefix_ pattern) now collect runs most after [] = some shown ∧
      ∀ (visit : String → Entry → σ → Bool × σ) (s : σ),
        walk_resumed db scope (literal_prefix_ pattern) now visit runs most after s =
          some (visits visit shown s).2) ∧
    shown.Pairwise (fun a b => a.1 < b.1) ∧
    ∀ key entry, db.get key now = some entry → past after key = true → scope.can_read key = true →
      (Glob.new pattern).matches_ key = true → (key, entry) ∈ shown := by
  intro scope shown
  have hMade : scope.Made := Scope.new_made keys read channels
  have hShown : (listing db scope (literal_prefix_ pattern) after).filter (reach scope now) = shown :=
    listing_reach hMade db _ now after
  refine ⟨fun runs hRuns => ?_, ?_, fun key entry hGet hPast hRead hMatches => ?_⟩
  · have hEnough : (listing db scope (literal_prefix_ pattern) after).length < runs := by
      refine lt_of_le_of_lt ?_ hRuns
      unfold listing
      rw [with_prefixes_eq db (Scope.search_runs hMade _), ← Std.ExtTreeMap.length_toList]
      exact List.length_filter_le _ _
    refine ⟨?_, fun visit s => ?_⟩
    · rw [walk_resumed_eq hMade db _ now collect runs most after [] hEnough, hShown, visits_collect,
        List.nil_append]
    · rw [walk_resumed_eq hMade db _ now visit runs most after s hEnough, hShown]
  · exact ((BTreeMap.sorted_toList db.keys).filter _).filter _
  · obtain ⟨hHeld, hLive⟩ := Option.filter_eq_some_iff.mp hGet
    refine List.mem_filter.mpr ⟨List.mem_filter.mpr ⟨(BTreeMap.mem_toList _ _ _).mpr hHeld, hLive⟩, ?_⟩
    simp only [hPast, hRead, Bool.true_and]
    exact String.startsWith_string_iff.mpr (matches_start hMatches)

end Postino
