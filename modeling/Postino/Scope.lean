import Postino.Lib.Runs
import Postino.Glob

/-!
# Scopes

What a client may reach in the keyspace and on channels: glob patterns for the keys
it may change, the keys it may only read, and the channels it may use.

* `search_sound`, `search_complete` — the runs of keys a listing visits hold every
  key the scope can read, and no key that does not start as asked.
* `search_runs` — they are sorted, and none starts with another.
-/

namespace Postino

open Lib

structure Scope where
  /-- Keys the client may read and change. -/
  keys : List String
  /-- Keys the client may only read. -/
  read : List String
  /-- Channels the client may publish to and receive from. -/
  channels : List String
  all_keys : Bool
  all_channels : Bool
  /-- The patterns above, compiled. -/
  key_globs : List Glob
  read_globs : List Glob
  channel_globs : List Glob
  /-- Where every reachable key starts, when the patterns say: sorted, none starting
  with another. -/
  prefixes : Option (List String)

namespace Scope

/-- Keeps a start, unless it starts with the one kept last. -/
def keep (prefixes : List String) (start : String) : List String :=
  if (prefixes.getLast?).any fun kept => start.startsWith kept then prefixes
  else prefixes ++ [start]

def new (keys read channels : List String) : Scope :=
  let all_keys := keys.any (· == "*")
  let starts := ((keys ++ read).map literal_prefix_).insertionSort (· ≤ ·)
  let prefixes := starts.foldl keep []
  { all_keys
    all_channels := channels.any (· == "*")
    key_globs := keys.map Glob.new
    read_globs := read.map Glob.new
    channel_globs := channels.map Glob.new
    prefixes := if !all_keys && prefixes.all (· ≠ "") then some prefixes else none
    keys, read, channels }

/-- The loop of `search_prefixes`. -/
def search_loop (pre : String) : List String → List String → List String
  | runs, [] => runs
  | runs, start :: own =>
    if pre.startsWith start then [pre]
    else search_loop pre (if start.startsWith pre then runs ++ [start] else runs) own

/-- The runs of keys worth visiting to find this scope's keys that start with
`pre`: sorted, none starting with another. -/
def search_prefixes (scope : Scope) (pre : String) : List String :=
  match scope.prefixes with
  | none => [pre]
  | some own => search_loop pre [] own

/-- Every key and channel. -/
def all : Scope := new ["*"] [] ["*"]

/-- The default for an agent token: the agent's own namespace and the shared one. -/
def agent (name : String) : Scope :=
  let own := [s!"{name}:*", "shared:*"]
  new own [] own

def is_all (scope : Scope) : Bool := scope.all_keys && scope.all_channels

def can_write (scope : Scope) (key : String) : Bool :=
  scope.all_keys || scope.key_globs.any (·.matches_ key)

def can_read (scope : Scope) (key : String) : Bool :=
  scope.can_write key || scope.read_globs.any (·.matches_ key)

def can_use_channel (scope : Scope) (channel : String) : Bool :=
  scope.all_channels || scope.channel_globs.any (·.matches_ channel)

/-- Whether a published message may reach this scope. Key-change notifications follow the
key, not the channel name. -/
def can_receive (scope : Scope) (channel message : String) : Bool :=
  if channel.startsWith "__keyspace__:" then
    scope.can_read (String.ofList (channel.toList.drop "__keyspace__:".length))
  else if channel.startsWith "__keyevent__:" then scope.can_read message
  else scope.can_use_channel channel

end Scope

/-! ## Strings that start with others -/

/-- Sorted, and none starts with another. -/
def Runs (prefixes : List String) : Prop :=
  prefixes.Pairwise fun p q => p < q ∧ q.startsWith p = false

theorem le_of_startsWith {p k : String} (h : k.startsWith p = true) : p ≤ k :=
  String.le_iff_toList_le.mpr (prefix_le (String.startsWith_string_iff.mp h))

theorem startsWith_of_between {p x y : String} (hLow : p ≤ x) (hHigh : x ≤ y)
    (h : y.startsWith p = true) : x.startsWith p = true :=
  String.startsWith_string_iff.mpr (prefix_of_between (String.le_iff_toList_le.mp hLow)
    (String.le_iff_toList_le.mp hHigh) (String.startsWith_string_iff.mp h))

theorem startsWith_trans {p q k : String} (hPQ : q.startsWith p = true)
    (hQK : k.startsWith q = true) : k.startsWith p = true :=
  String.startsWith_string_iff.mpr
    ((String.startsWith_string_iff.mp hPQ).trans (String.startsWith_string_iff.mp hQK))

theorem startsWith_self (k : String) : k.startsWith k = true :=
  String.startsWith_string_iff.mpr (List.prefix_refl _)

/-- Of two starts of one key, one starts with the other. -/
theorem startsWith_or {p q k : String} (hP : k.startsWith p = true) (hQ : k.startsWith q = true) :
    q.startsWith p = true ∨ p.startsWith q = true :=
  (List.prefix_or_prefix_of_prefix (String.startsWith_string_iff.mp hP)
    (String.startsWith_string_iff.mp hQ)).imp String.startsWith_string_iff.mpr
    String.startsWith_string_iff.mpr

namespace Scope

/-! ## The starts that are kept -/

/-- Keeping starts in order leaves them sorted, none starting with another, each start
met beginning with one that is kept. -/
theorem keep_runs {starts kept : List String} (hSorted : starts.Pairwise (· ≤ ·))
    (hRuns : Runs kept) (hAfter : ∀ p ∈ kept, ∀ s ∈ starts, p ≤ s) :
    Runs (starts.foldl keep kept) ∧ kept ⊆ starts.foldl keep kept ∧
      ∀ s ∈ starts, ∃ p ∈ starts.foldl keep kept, s.startsWith p = true := by
  induction starts generalizing kept with
  | nil => exact ⟨hRuns, List.Subset.refl _, fun s hs => absurd hs List.not_mem_nil⟩
  | cons start starts ih =>
    obtain ⟨hFirst, hRest⟩ := List.pairwise_cons.mp hSorted
    rw [List.foldl_cons]
    by_cases hCovered : ∃ p ∈ kept, start.startsWith p = true
    · -- the last one kept lies between
      obtain ⟨p, hp, hStarts⟩ := hCovered
      have hLast : (kept.getLast?).any (fun kept => start.startsWith kept) = true := by
        obtain ⟨before, last, rfl⟩ := (List.eq_nil_or_concat' kept).resolve_left
          (List.ne_nil_of_mem hp)
        rw [List.getLast?_concat]
        rcases List.mem_append.mp hp with hp | hp
        · have hLt := (List.pairwise_append.mp hRuns).2.2 p hp last (List.mem_singleton_self _)
          have hBetween := startsWith_of_between hLt.1.le
            (hAfter last (List.mem_append_right _ (List.mem_singleton_self _)) start
              List.mem_cons_self) hStarts
          rw [hLt.2] at hBetween
          cases hBetween
        · obtain rfl := List.mem_singleton.mp hp
          exact hStarts
      rw [keep, if_pos hLast]
      obtain ⟨hR, hSub, hAll⟩ := ih hRest hRuns fun p hp s hs =>
        hAfter p hp s (List.mem_cons_of_mem _ hs)
      refine ⟨hR, hSub, fun s hs => ?_⟩
      rcases List.mem_cons.mp hs with rfl | hs
      · exact ⟨p, hSub hp, hStarts⟩
      · exact hAll s hs
    · have hNone : ∀ p ∈ kept, start.startsWith p = false := fun p hp => by
        simpa using fun hStarts => hCovered ⟨p, hp, hStarts⟩
      have hLast : ¬ (kept.getLast?).any (fun kept => start.startsWith kept) = true := by
        cases hGet : kept.getLast? with
        | none => exact fun h => nomatch h
        | some last =>
          intro hStarts
          exact hCovered ⟨last, List.mem_of_getLast? hGet, hStarts⟩
      rw [keep, if_neg hLast]
      have hBefore : ∀ p ∈ kept, p < start := by
        intro p hp
        refine lt_of_le_of_ne (hAfter p hp start List.mem_cons_self) ?_
        rintro rfl
        have := hNone p hp
        rw [startsWith_self] at this
        cases this
      obtain ⟨hR, hSub, hAll⟩ := @ih (kept ++ [start]) hRest
        (List.pairwise_append.mpr ⟨hRuns, List.pairwise_singleton _ _, fun p hp s hs => by
          obtain rfl := List.mem_singleton.mp hs
          exact ⟨hBefore p hp, hNone p hp⟩⟩)
        (fun p hp s hs => by
          rcases List.mem_append.mp hp with hp | hp
          · exact hAfter p hp s (List.mem_cons_of_mem _ hs)
          · obtain rfl := List.mem_singleton.mp hp
            exact hFirst s hs)
      refine ⟨hR, fun p hp => hSub (List.mem_append_left _ hp), fun s hs => ?_⟩
      rcases List.mem_cons.mp hs with rfl | hs
      · exact ⟨s, hSub (List.mem_append_right _ (List.mem_singleton_self s)), startsWith_self s⟩
      · exact hAll s hs

/-! ## The runs that are visited -/

theorem search_loop_runs {pre : String} {runs own : List String} (hRuns : Runs (runs ++ own)) :
    Runs (search_loop pre runs own) := by
  induction own generalizing runs with
  | nil => simpa [search_loop] using hRuns
  | cons start own ih =>
    unfold search_loop
    split
    · exact List.pairwise_singleton _ _
    · refine ih ?_
      split
      · rwa [List.append_assoc]
      · exact hRuns.sublist ((List.sublist_cons_self start own).append_left runs)

/-- Every run visited starts as asked. -/
theorem search_loop_sound {pre : String} {runs own : List String}
    (hRuns : ∀ run ∈ runs, run.startsWith pre = true) :
    ∀ run ∈ search_loop pre runs own, run.startsWith pre = true := by
  induction own generalizing runs with
  | nil => exact hRuns
  | cons start own ih =>
    unfold search_loop
    split
    · intro run hRun
      obtain rfl := List.mem_singleton.mp hRun
      exact startsWith_self run
    · refine ih fun run hRun => ?_
      split at hRun
      · next hStart =>
        rcases List.mem_append.mp hRun with hRun | hRun
        · exact hRuns run hRun
        · obtain rfl := List.mem_singleton.mp hRun
          exact hStart
      · exact hRuns run hRun

/-- A key that starts as asked and with one of the scope's starts is in a run. -/
theorem search_loop_complete {pre key : String} {runs own : List String}
    (hPre : key.startsWith pre = true)
    (hKey : (∃ run ∈ runs, key.startsWith run = true) ∨
      ∃ start ∈ own, key.startsWith start = true) :
    ∃ run ∈ search_loop pre runs own, key.startsWith run = true := by
  induction own generalizing runs with
  | nil => exact hKey.resolve_right fun ⟨_, h, _⟩ => absurd h List.not_mem_nil
  | cons start own ih =>
    unfold search_loop
    split
    · exact ⟨pre, List.mem_singleton_self _, hPre⟩
    · next hNot =>
      refine ih ?_
      rcases hKey with ⟨run, hRun, hStarts⟩ | ⟨s, hs, hStarts⟩
      · refine .inl ⟨run, ?_, hStarts⟩
        split
        · exact List.mem_append_left _ hRun
        · exact hRun
      · rcases List.mem_cons.mp hs with rfl | hs
        · have hStart := (startsWith_or hStarts hPre).resolve_left hNot
          rw [if_pos hStart]
          exact .inl ⟨s, List.mem_append_right _ (List.mem_singleton_self s), hStarts⟩
        · exact .inr ⟨s, hs, hStarts⟩

/-- What a scope was made from. -/
structure Made (scope : Scope) : Prop where
  runs : ∀ own, scope.prefixes = some own → Runs own
  /-- Every key it can read starts with one of its starts. -/
  starts : ∀ own key, scope.prefixes = some own → scope.can_read key = true →
    ∃ start ∈ own, key.startsWith start = true

/-- **A scope knows where its keys start.** -/
theorem new_made (keys read channels : List String) : Made (new keys read channels) := by
  have hSorted := List.pairwise_insertionSort (· ≤ ·) ((keys ++ read).map literal_prefix_)
  obtain ⟨hRuns, -, hAll⟩ := @keep_runs _ [] hSorted List.Pairwise.nil
    fun p hp => absurd hp List.not_mem_nil
  refine ⟨fun own hOwn => ?_, fun own key hOwn hRead => ?_⟩
  · unfold new at hOwn
    dsimp only at hOwn
    split at hOwn
    · cases hOwn
      exact hRuns
    · cases hOwn
  · unfold new at hOwn
    dsimp only at hOwn
    split at hOwn
    · next hKeys =>
      cases hOwn
      have hNotAll : (keys.any (· == "*")) = false := by
        simpa using (Bool.and_eq_true_iff.mp hKeys).1
      -- some pattern matches the key
      have hPattern : ∃ pattern ∈ keys ++ read, (Glob.new pattern).matches_ key = true := by
        rcases Bool.or_eq_true_iff.mp hRead with hWrite | hRead
        · rcases Bool.or_eq_true_iff.mp hWrite with hAllKeys | hWrite
          · rw [show (new keys read channels).all_keys = keys.any (· == "*") from rfl,
              hNotAll] at hAllKeys
            cases hAllKeys
          · obtain ⟨glob, hGlob, hMatches⟩ := List.any_eq_true.mp hWrite
            obtain ⟨pattern, hPattern, rfl⟩ := List.mem_map.mp hGlob
            exact ⟨pattern, List.mem_append_left _ hPattern, hMatches⟩
        · obtain ⟨glob, hGlob, hMatches⟩ := List.any_eq_true.mp hRead
          obtain ⟨pattern, hPattern, rfl⟩ := List.mem_map.mp hGlob
          exact ⟨pattern, List.mem_append_right _ hPattern, hMatches⟩
      obtain ⟨pattern, hPattern, hMatches⟩ := hPattern
      have hStart : literal_prefix_ pattern ∈
          ((keys ++ read).map literal_prefix_).insertionSort (· ≤ ·) :=
        (List.perm_insertionSort _ _).mem_iff.mpr (List.mem_map_of_mem hPattern)
      obtain ⟨start, hOwn, hStarts⟩ := hAll _ hStart
      exact ⟨start, hOwn, startsWith_trans hStarts
        (String.startsWith_string_iff.mpr (matches_start hMatches))⟩
    · cases hOwn

variable {scope : Scope}

theorem search_runs (hMade : Made scope) (pre : String) : Runs (scope.search_prefixes pre) := by
  unfold search_prefixes
  split
  · exact List.pairwise_singleton _ _
  · next own hOwn => exact search_loop_runs (hMade.runs own hOwn)

theorem search_sound (scope : Scope) (pre : String) :
    ∀ run ∈ scope.search_prefixes pre, run.startsWith pre = true := by
  unfold search_prefixes
  split
  · intro run hRun
    obtain rfl := List.mem_singleton.mp hRun
    exact startsWith_self run
  · exact search_loop_sound fun run hRun => absurd hRun List.not_mem_nil

/-- **No key is missed.** -/
theorem search_complete (hMade : Made scope) {pre key : String} (hRead : scope.can_read key = true)
    (hPre : key.startsWith pre = true) :
    ∃ run ∈ scope.search_prefixes pre, key.startsWith run = true := by
  unfold search_prefixes
  split
  · exact ⟨pre, List.mem_singleton_self _, hPre⟩
  · next own hOwn => exact search_loop_complete hPre (.inr (hMade.starts own key hOwn hRead))

end Scope

end Postino
