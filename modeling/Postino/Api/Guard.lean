import Postino.Api.Auth
import Postino.Lib.Windows

/-!
# What the server holds back

Over a run of requests, two tables hold callers back: addresses that present wrong tokens,
and agents with many requests open at once. Requests are handled by several threads, and each
table is locked for a section of a request at a time: an address is looked up in one section,
and its failure is counted in another, with those of other requests in between.

* `judge_fail` — the two sections of a request that is alone;
* `lockout_holds` — in no minute are many more than forty wrong tokens of one address counted,
  unless the table is full of others;
* `slots_exact` — in any order of claims and releases, an agent's count is how many slots
  it holds, never more than it may.
-/

namespace Postino.Api

open Lib Fallible
open Http (Response)

/-! ## Wrong tokens -/

/-- A request as the server meets it. -/
structure Call (Ip : Type) where
  now : Nat
  req : Http.Request
  peer : Option Ip

/-- What is done to the table in one go: a request's address is looked up, and its token judged;
or the failure of the i-th of those judged wrong is counted. -/
inductive Section (Ip : Type) where
  | judge (call : Call Ip)
  | fail (i now : Nat)

/-- When a section reads the clock. -/
def Section.now {Ip : Type} : Section Ip → Nat
  | judge call => call.now
  | fail _ now => now

/-- What a run leaves: the lockout; whose tokens were judged wrong, and whose failures are still
to be counted; and the failures that were counted, and those that were not, each with how many
addresses were tracked in their place. -/
structure Watch (Ip : Type) [LinearOrder Ip] where
  lockout : Lockout Ip := ∅
  judged : List Ip := []
  flight : List Ip := []
  counted : List (Ip × Nat) := []
  missed : List (Ip × Nat × Nat) := []

section

variable {Ip : Type} [LinearOrder Ip] (platform : Platform Ip) (cfg : ApiConfig)

/-- The address whose token is judged, and is wrong. -/
def guesses (lockout : Lockout Ip) (call : Call Ip) : Option Ip :=
  match call.peer.filter fun ip => !platform.loopback_ip ip with
  | none => none
  | some ip =>
    if (lockout.wait ip call.now).isNone && (Server.presented call.req).isSome &&
      (Server.principal_for platform cfg (Server.presented call.req)).isNone then some ip
    else none

/-- Whether a failure of this address is counted. -/
def tracked (lockout : Lockout Ip) (ip : Ip) (now : Nat) : Bool :=
  lockout.size < MAX_TRACKED_ADDRESSES || lockout.contains ip || (lockout.retain now).size < MAX_TRACKED_ADDRESSES

/-- One section, by one of so many threads. A thread that has judged a token wrong counts the
failure before it takes another request. -/
def watch (threads : Nat) (s : Watch Ip) : Section Ip → Watch Ip
  | .judge call =>
    if s.flight.length < threads then
      match guesses platform cfg s.lockout call with
      | none => s
      | some ip => { s with judged := s.judged ++ [ip], flight := s.flight ++ [ip] }
    else s
  | .fail i now =>
    match s.flight[i]? with
    | none => s
    | some ip =>
      let left := { s with lockout := s.lockout.fail ip now, flight := s.flight.eraseIdx i }
      if tracked s.lockout ip now then { left with counted := s.counted ++ [(ip, now)] }
      else { left with missed := s.missed ++ [(ip, now, (s.lockout.retain now).size)] }

def run (threads : Nat) (sections : List (Section Ip)) : Watch Ip := sections.foldl (watch platform cfg threads) {}

end

section

variable {Ip : Type} [LinearOrder Ip] {platform : Platform Ip} {cfg : ApiConfig}

/-- Only a wrong token changes the lockout. -/
theorem principal_lockout (lockout : Lockout Ip) (call : Call Ip) :
    (Server.principal platform cfg lockout call.now call.req call.peer).2 =
      (guesses platform cfg lockout call).elim lockout fun ip => lockout.fail ip call.now := by
  unfold Server.principal guesses
  dsimp only
  cases call.peer.filter fun ip => !platform.loopback_ip ip with
  | none =>
    dsimp only [Option.bind_none]
    cases Server.principal_for platform cfg (Server.presented call.req) <;> rfl
  | some ip =>
    dsimp only [Option.bind_some]
    cases lockout.wait ip call.now with
    | some wait => rfl
    | none =>
      dsimp only
      cases hFor : Server.principal_for platform cfg (Server.presented call.req) with
      | some owner => cases Server.presented call.req <;> rfl
      | none => cases Server.presented call.req <;> rfl

/-- A request that is alone is its two sections, one after the other. -/
theorem judge_fail {threads : Nat} (hThreads : 0 < threads) {s : Watch Ip} (hFlight : s.flight = []) (call : Call Ip) :
    (watch platform cfg threads (watch platform cfg threads s (.judge call)) (.fail 0 call.now)).lockout =
      (Server.principal platform cfg s.lockout call.now call.req call.peer).2 := by
  have hRoom : s.flight.length < threads := by rwa [hFlight]
  rw [principal_lockout]
  cases hGuess : guesses platform cfg s.lockout call with
  | none =>
    have hJudge : watch platform cfg threads s (.judge call) = s := by simp only [watch, if_pos hRoom, hGuess]
    rw [hJudge]
    simp only [watch, hFlight, List.getElem?_nil, Option.elim]
  | some ip =>
    have hJudge : watch platform cfg threads s (.judge call) =
        { s with judged := s.judged ++ [ip], flight := [ip] } := by
      simp only [watch, hFlight, List.length_nil, if_pos hThreads, hGuess, List.nil_append]
    rw [hJudge]
    simp only [watch, List.getElem?_cons_zero, Option.elim]
    split <;> rfl

theorem get_retain (lockout : Lockout Ip) (now : Nat) (ip : Ip) :
    (lockout.retain now)[ip]? = lockout[ip]?.filter fun entry => now - entry.2 < AUTH_WINDOW_MS :=
  Std.ExtTreeMap.getElem?_filter'

/-- What counting a failure leaves of the address. -/
def counted_in (now : Nat) : Option (Nat × Nat) → Nat × Nat
  | none => (1, now)
  | some (count, since) => if now - since ≥ AUTH_WINDOW_MS then (1, now) else (count + 1, since)

theorem get_count (lockout : Lockout Ip) (ip : Ip) (now : Nat) (a : Ip) :
    (lockout.count ip now)[a]? = if ip = a then some (counted_in now lockout[ip]?) else lockout[a]? := by
  have hOwn : (lockout.count ip now) = lockout.insert ip (counted_in now lockout[ip]?) := by
    unfold Lockout.count counted_in
    cases lockout[ip]? with
    | none =>
      dsimp only [Option.getD_none]
      rw [Nat.sub_self, if_neg (by decide)]
    | some entry =>
      obtain ⟨count, since⟩ := entry
      dsimp only [Option.getD_some]
      by_cases hOver : now - since ≥ AUTH_WINDOW_MS
      · rw [if_pos hOver, if_pos hOver]
      · rw [if_neg hOver, if_neg hOver]
  rw [hOwn, BTreeMap.get_insert]

/-- **What a failure does to the table**: it is counted where it is tracked, and addresses go
only when their window is over. -/
theorem get_fail (lockout : Lockout Ip) (ip : Ip) (now : Nat) (a : Ip) :
    ((tracked lockout ip now = true ∧ ip = a ∧ (lockout.fail ip now)[a]? = some (counted_in now lockout[a]?)) ∨
      (tracked lockout ip now = false ∨ ip ≠ a) ∧
        ((lockout.fail ip now)[a]? = lockout[a]? ∨
          (lockout.fail ip now)[a]? = lockout[a]?.filter fun entry => now - entry.2 < AUTH_WINDOW_MS)) := by
  unfold Lockout.fail tracked
  by_cases hFull : lockout.size ≥ MAX_TRACKED_ADDRESSES ∧ (!lockout.contains ip) = true
  · -- no room: entries whose window is over go first
    have hSize : ¬lockout.size < MAX_TRACKED_ADDRESSES := by omega
    have hNew : lockout.contains ip = false := by simpa using hFull.2
    have hGone : lockout[ip]? = none := by
      rw [← Option.not_isSome_iff_eq_none]
      rw [Bool.eq_false_iff] at hNew
      exact fun hSome => hNew ((BTreeMap.contains_iff_get _ _).mpr (Option.isSome_iff_exists.mp hSome))
    rw [if_pos hFull, decide_eq_false hSize, hNew]
    dsimp only
    by_cases hStill : (lockout.retain now).size ≥ MAX_TRACKED_ADDRESSES
    · rw [if_pos hStill, get_retain]
      have hNot : ¬(lockout.retain now).size < MAX_TRACKED_ADDRESSES := by omega
      rw [decide_eq_false hNot]
      exact .inr ⟨.inl rfl, .inr rfl⟩
    · rw [if_neg hStill, get_count, get_retain, get_retain, hGone]
      by_cases hSame : ip = a
      · subst hSame
        rw [if_pos rfl, hGone]
        refine .inl ⟨?_, rfl, rfl⟩
        simpa using hStill
      · rw [if_neg hSame]
        exact .inr ⟨.inr hSame, .inr rfl⟩
  · -- room, or an address that has an entry: nothing is dropped
    rw [if_neg hFull, get_count]
    by_cases hSame : ip = a
    · subst hSame
      rw [if_pos rfl]
      refine .inl ⟨?_, rfl, rfl⟩
      by_cases hSize : lockout.size < MAX_TRACKED_ADDRESSES
      · rw [decide_eq_true hSize]
        rfl
      · have hKnown : lockout.contains ip = true := by
          by_contra hNot
          exact hFull ⟨by omega, by rw [Bool.not_eq_true', ← Bool.not_eq_true]; exact hNot⟩
        rw [hKnown, Bool.or_true]
        rfl
    · rw [if_neg hSame]
      exact .inr ⟨.inr hSame, .inl rfl⟩

theorem size_fail {lockout : Lockout Ip} (h : lockout.size ≤ MAX_TRACKED_ADDRESSES) (ip : Ip) (now : Nat) :
    (lockout.fail ip now).size ≤ MAX_TRACKED_ADDRESSES := by
  have hRetain : (lockout.retain now).size ≤ lockout.size := Std.ExtTreeMap.size_filter_le_size
  have hCount : ∀ failures : Lockout Ip, (failures.count ip now).size = if failures.contains ip then failures.size else failures.size + 1 :=
    fun failures => Std.ExtTreeMap.size_insert
  unfold Lockout.fail
  split
  · dsimp only
    split
    · omega
    · rw [hCount]
      split <;> omega
  · next hRoom =>
    rw [hCount]
    split
    · exact h
    · next hNew =>
      have hLess : ¬lockout.size ≥ MAX_TRACKED_ADDRESSES := fun hFull =>
        hRoom ⟨hFull, by rw [Bool.not_eq_true', ← Bool.not_eq_true]; exact hNew⟩
      omega

/-- What an item taken out of a list leaves of it. -/
theorem count_dropped {α : Type} [DecidableEq α] [BEq α] [LawfulBEq α] {held : List α} {i : Nat} {x : α} (h : held[i]? = some x) (a : α) :
    held.count a = (held.eraseIdx i).count a + if x = a then 1 else 0 := by
  obtain ⟨hLt, rfl⟩ := List.getElem?_eq_some_iff.mp h
  rw [← (List.getElem_cons_eraseIdx_perm hLt).count_eq, List.count_cons]
  simp only [beq_iff_eq]

/-! ## Over a run -/

/-- The times of an address. -/
def times_of (ip : Ip) (log : List (Ip × Nat)) : List Nat := (log.filter (·.1 = ip)).map Prod.snd

/-- What the table says of an address: the window it is in, if it is in one, after windows
that are over. -/
def Tells (clock : Nat) (ws : List Windows.Window) : Option (Nat × Nat) → Prop
  | none => ∀ w ∈ ws, w.opened + AUTH_WINDOW_MS ≤ clock
  | some (count, since) => ∃ before times, ws = before ++ [⟨since, times⟩] ∧ times.length = count ∧ since ≤ clock

/-- The most failures a window counts: the last that is let be judged, and those of the other
threads that were judged by then. -/
def most (threads : Nat) : Nat := MAX_AUTH_FAILURES - 1 + threads

/-- The times of an address are windows of no more failures than there can be: once it is locked
out, only what is in flight is still counted. -/
def Watched (threads clock : Nat) (entry : Option (Nat × Nat)) (flight : Nat) (times : List Nat) : Prop :=
  (∃ ws, Windows.Spaced (most threads) AUTH_WINDOW_MS ws ∧ Windows.times ws = times ∧ Tells clock ws entry) ∧
    ∀ count since, entry = some (count, since) → count ≥ MAX_AUTH_FAILURES → clock - since < AUTH_WINDOW_MS →
      count + flight ≤ most threads

section

variable {threads clock now flight : Nat} {entry : Option (Nat × Nat)} {times : List Nat}

theorem Watched.later (h : Watched threads clock entry flight times) (hClock : clock ≤ now) :
    Watched threads now entry flight times := by
  obtain ⟨⟨ws, hSpaced, hTimes, hTells⟩, hFull⟩ := h
  refine ⟨⟨ws, hSpaced, hTimes, ?_⟩, fun count since hEntry hMany hLive => hFull count since hEntry hMany (by omega)⟩
  cases entry with
  | none => exact fun w hW => le_trans (hTells w hW) hClock
  | some entry =>
    obtain ⟨before, last, hWs, hCount, hSince⟩ := hTells
    exact ⟨before, last, hWs, hCount, le_trans hSince hClock⟩

/-- Fewer may be in flight. -/
theorem Watched.landed {flight' : Nat} (h : Watched threads clock entry flight times) (hLess : flight' ≤ flight) :
    Watched threads clock entry flight' times :=
  ⟨h.1, fun count since hEntry hMany hLive => le_trans (Nat.add_le_add_left hLess count) (h.2 count since hEntry hMany hLive)⟩

/-- One more is in flight only when the address is not locked out. -/
theorem Watched.judged (h : Watched threads clock entry flight times)
    (hJudged : ∀ count since, entry = some (count, since) →
      ¬(count ≥ MAX_AUTH_FAILURES ∧ clock - since < AUTH_WINDOW_MS)) :
    Watched threads clock entry (flight + 1) times :=
  ⟨h.1, fun count since hEntry hMany hLive => absurd ⟨hMany, hLive⟩ (hJudged count since hEntry)⟩

/-- An address may be dropped once its window is over. -/
theorem Watched.retained (h : Watched threads clock entry flight times) :
    Watched threads clock (entry.filter fun entry => clock - entry.2 < AUTH_WINDOW_MS) flight times := by
  cases entry with
  | none => exact h
  | some entry =>
    by_cases hLive : clock - entry.2 < AUTH_WINDOW_MS
    · rw [Option.filter_some, if_pos (decide_eq_true hLive)]
      exact h
    · rw [Option.filter_some, if_neg (by simpa using hLive)]
      obtain ⟨⟨ws, hSpaced, hTimes, before, last, hWs, -, hSince⟩, -⟩ := h
      subst hWs
      refine ⟨⟨_, hSpaced, hTimes, hSpaced.passed ?_⟩, fun _ _ hNone => nomatch hNone⟩
      dsimp only
      omega

/-- **One more failure is counted in its window**, or opens one, and is in flight no more. -/
theorem Watched.counted (h : Watched threads now entry (flight + 1) times) (hFlight : flight + 1 ≤ threads) :
    Watched threads now (some (counted_in now entry)) flight (times ++ [now]) := by
  have hLimits : MAX_AUTH_FAILURES = 20 ∧ 0 < AUTH_WINDOW_MS := by decide
  have hMost : most threads = 19 + threads := rfl
  have hTimes : ∀ ws : List Windows.Window, ∀ w, Windows.times (ws ++ [w]) = Windows.times ws ++ w.times := by
    intro ws w
    unfold Windows.times
    rw [List.flatMap_append, List.flatMap_singleton]
  have hOne : ∀ count since, some (1, now) = some (count, since) → count ≥ MAX_AUTH_FAILURES →
      now - since < AUTH_WINDOW_MS → count + flight ≤ most threads := by
    rintro _ _ ⟨⟩ hMany
    omega
  obtain ⟨⟨ws, hSpaced, rfl, hTells⟩, hFull⟩ := h
  cases entry with
  | none =>
    refine ⟨⟨ws ++ [⟨now, [now]⟩], hSpaced.opens (by omega) hLimits.2 hTells, hTimes _ _, ?_⟩, hOne⟩
    exact ⟨ws, [now], rfl, rfl, le_rfl⟩
  | some entry =>
    obtain ⟨count, since⟩ := entry
    obtain ⟨before, last, rfl, hCount, hSince⟩ := hTells
    unfold counted_in
    dsimp only
    -- its window is over, and another is opened, or it is counted in it
    by_cases hOver : now - since ≥ AUTH_WINDOW_MS
    · rw [if_pos hOver]
      refine ⟨⟨(before ++ [⟨since, last⟩]) ++ [⟨now, [now]⟩], hSpaced.opens (by omega) hLimits.2 (hSpaced.passed ?_),
        hTimes _ _, _, [now], rfl, rfl, le_rfl⟩, hOne⟩
      dsimp only
      omega
    · rw [if_neg hOver]
      -- past the twentieth it is one of those in flight, and one less is left of them
      have hLater : count ≥ MAX_AUTH_FAILURES → count + (flight + 1) ≤ most threads := fun hMany =>
        hFull count since rfl hMany (by omega)
      have hRoom : last.length < most threads := by omega
      refine ⟨⟨before ++ [⟨since, last ++ [now]⟩], hSpaced.counts hRoom hSince (by dsimp only; omega), ?_, before, _, rfl, ?_,
        hSince⟩, ?_⟩
      · rw [hTimes, hTimes, List.append_assoc]
      · rw [List.length_append, hCount, List.length_singleton]
      · rintro _ _ ⟨⟩ hMany -
        omega

end

/-- What a run keeps. -/
structure Guarded (threads clock : Nat) (s : Watch Ip) : Prop where
  size : s.lockout.size ≤ MAX_TRACKED_ADDRESSES
  flight : s.flight.length ≤ threads
  watched : ∀ ip, Watched threads clock s.lockout[ip]? (s.flight.count ip) (times_of ip s.counted)
  missed : ∀ m ∈ s.missed, MAX_TRACKED_ADDRESSES ≤ m.2.2
  /-- What was judged wrong is counted, missed or in flight. -/
  judged : ∀ ip, s.judged.count ip =
    (times_of ip s.counted).length + (s.missed.map Prod.fst).count ip + s.flight.count ip

theorem guesses_judged {lockout : Lockout Ip} {call : Call Ip} {ip : Ip} (h : guesses platform cfg lockout call = some ip) :
    ∀ count since, lockout[ip]? = some (count, since) →
      ¬(count ≥ MAX_AUTH_FAILURES ∧ call.now - since < AUTH_WINDOW_MS) := by
  intro count since hEntry hLocked
  unfold guesses at h
  split at h
  · cases h
  · split at h
    · next hAll =>
      cases h
      have hNone := (Bool.and_eq_true_iff.mp (Bool.and_eq_true_iff.mp hAll).1).1
      unfold Lockout.wait at hNone
      rw [hEntry] at hNone
      dsimp only at hNone
      rw [if_pos hLocked] at hNone
      cases hNone
    · cases h

theorem times_of_append (ip : Ip) (log : List (Ip × Nat)) (a : Ip) (now : Nat) :
    times_of ip (log ++ [(a, now)]) = if a = ip then times_of ip log ++ [now] else times_of ip log := by
  unfold times_of
  rw [List.filter_append, List.map_append, List.filter_singleton]
  by_cases hSame : a = ip
  · simp [hSame]
  · simp [hSame]

theorem Guarded.later {threads clock now : Nat} {s : Watch Ip} (h : Guarded threads clock s) (hClock : clock ≤ now) :
    Guarded threads now s :=
  { h with watched := fun ip => (h.watched ip).later hClock }

/-- Judging a token keeps it so. -/
theorem judge_guarded {threads : Nat} {s : Watch Ip} {call : Call Ip} (h : Guarded threads call.now s) :
    Guarded threads call.now (watch platform cfg threads s (.judge call)) := by
  unfold watch
  dsimp only
  split
  · next hRoom =>
    -- only a token that is wrong is on its way to be counted
    cases hGuess : guesses platform cfg s.lockout call with
    | none => exact h
    | some ip =>
      refine ⟨h.size, ?_, fun a => ?_, h.missed, fun a => ?_⟩
      · rw [List.length_append, List.length_singleton]
        exact hRoom
      · dsimp only
        rw [List.count_append, List.count_singleton]
        by_cases hSame : ip = a
        · subst hSame
          rw [if_pos (beq_self_eq_true ip)]
          exact (h.watched ip).judged (guesses_judged hGuess)
        · rw [if_neg (by simpa using hSame), Nat.add_zero]
          exact h.watched a
      · have := h.judged a
        dsimp only
        rw [List.count_append, List.count_append]
        omega
  · exact h

/-- Counting a failure keeps it so. -/
theorem fail_guarded {threads i now : Nat} {s : Watch Ip} (h : Guarded threads now s) :
    Guarded threads now (watch platform cfg threads s (.fail i now)) := by
  unfold watch
  dsimp only
  cases hAt : s.flight[i]? with
  | none => exact h
  | some ip =>
    have hFlight (a : Ip) := count_dropped hAt a
    have hLeft : (s.flight.eraseIdx i).length ≤ threads := (List.length_eraseIdx_le _ _).trans h.flight
    have hSize := size_fail h.size ip now
    have hFail := get_fail s.lockout ip now
    -- an entry that is not counted in stays, or goes when its window is over
    have hOther {a : Ip} (hEntry : (s.lockout.fail ip now)[a]? = s.lockout[a]? ∨
        (s.lockout.fail ip now)[a]? = s.lockout[a]?.filter fun entry => now - entry.2 < AUTH_WINDOW_MS) :
        Watched threads now (s.lockout.fail ip now)[a]? ((s.flight.eraseIdx i).count a) (times_of a s.counted) := by
      have hLanded := (h.watched a).landed (show (s.flight.eraseIdx i).count a ≤ _ from by rw [hFlight a]; omega)
      rcases hEntry with hEntry | hEntry
      · rw [hEntry]
        exact hLanded
      · rw [hEntry]
        exact hLanded.retained
    dsimp only
    by_cases hTracked : tracked s.lockout ip now = true
    · rw [if_pos hTracked]
      refine ⟨hSize, hLeft, fun a => ?_, h.missed, fun a => ?_⟩
      · dsimp only
        rw [times_of_append]
        rcases hFail a with ⟨-, rfl, hEntry⟩ | ⟨hNot, hEntry⟩
        · have hOwn := hFlight ip
          rw [if_pos rfl] at hOwn
          rw [hEntry, if_pos rfl]
          have hWatched := h.watched ip
          rw [hOwn] at hWatched
          exact hWatched.counted (hOwn ▸ List.count_le_length.trans h.flight)
        · have hNe : ip ≠ a := hNot.resolve_left (by rw [hTracked]; decide)
          rw [if_neg hNe]
          exact hOther hEntry
      · have hJudged := h.judged a
        have hDropped := hFlight a
        dsimp only
        rw [times_of_append]
        by_cases hSame : ip = a
        · rw [if_pos hSame] at hDropped
          rw [if_pos hSame, List.length_append, List.length_singleton]
          omega
        · rw [if_neg hSame] at hDropped
          rw [if_neg hSame]
          omega
    · rw [if_neg hTracked]
      -- the table is full, and nothing in it is over
      have hFull : MAX_TRACKED_ADDRESSES ≤ (s.lockout.retain now).size := by
        unfold tracked at hTracked
        simp only [Bool.or_eq_true, decide_eq_true_eq, not_or] at hTracked
        omega
      refine ⟨hSize, hLeft, fun a => ?_, fun m hM => ?_, fun a => ?_⟩
      · rcases hFail a with ⟨hYes, -⟩ | ⟨-, hEntry⟩
        · exact absurd hYes hTracked
        · exact hOther hEntry
      · rcases List.mem_append.mp hM with hM | hM
        · exact h.missed m hM
        · rw [List.mem_singleton.mp hM]
          exact hFull
      · have hJudged := h.judged a
        have hDropped := hFlight a
        dsimp only
        rw [List.map_append, List.count_append, List.map_singleton, List.count_singleton]
        by_cases hSame : ip = a
        · rw [if_pos hSame] at hDropped
          rw [if_pos (by simpa using hSame)]
          omega
        · rw [if_neg hSame] at hDropped
          rw [if_neg (by simpa using hSame)]
          omega

/-- **A section keeps it so.** -/
theorem watch_guarded {threads clock : Nat} {s : Watch Ip} (h : Guarded threads clock s) {section_ : Section Ip}
    (hClock : clock ≤ section_.now) : Guarded threads section_.now (watch platform cfg threads s section_) := by
  cases section_ with
  | judge call => exact judge_guarded (h.later hClock)
  | fail i now => exact fail_guarded (h.later hClock)

theorem run_guarded {threads : Nat} {sections : List (Section Ip)}
    (hOrder : sections.Pairwise fun a b => a.now ≤ b.now) {clock : Nat} (hClock : ∀ x ∈ sections, x.now ≤ clock) :
    Guarded threads clock (run platform cfg threads sections) := by
  unfold run
  induction sections using List.reverseRecOn generalizing clock with
  | nil =>
    have hNone (ip : Ip) : (∅ : Lockout Ip)[ip]? = none := Std.ExtTreeMap.getElem?_empty
    refine ⟨Nat.zero_le _, Nat.zero_le _, fun ip => ?_, List.forall_mem_nil _, fun _ => rfl⟩
    show Watched threads clock (∅ : Lockout Ip)[ip]? 0 []
    rw [hNone]
    exact ⟨⟨[], ⟨List.forall_mem_nil _, List.Pairwise.nil⟩, rfl, List.forall_mem_nil _⟩, fun _ _ hNone => nomatch hNone⟩
  | append_singleton sections x ih =>
    obtain ⟨hBefore, -, hLast⟩ := List.pairwise_append.mp hOrder
    have hRun := ih hBefore fun y hY => hLast y hY x (List.mem_singleton_self x)
    rw [List.foldl_append]
    exact (watch_guarded hRun le_rfl).later (hClock x (List.mem_append_right _ (List.mem_singleton_self x)))

/-- **Wrong tokens are held back**, however the sections of the requests of so many threads come
between each other, while the clock does not go back over them. No stretch of a minute has more
counted failures of one address than two windows: nineteen each, and one for each thread. The
table holds no more addresses than it may. A token judged wrong is counted, or its thread has
yet to count it, or it goes uncounted, and that only where as many addresses as the table holds
failed in the last minute. -/
theorem lockout_holds (platform : Platform Ip) (cfg : ApiConfig) (threads : Nat) {sections : List (Section Ip)}
    (hOrder : sections.Pairwise fun a b => a.now ≤ b.now) :
    let s := run platform cfg threads sections
    (∀ ip t, (times_of ip s.counted).countP (Windows.within AUTH_WINDOW_MS t) ≤
        2 * (MAX_AUTH_FAILURES - 1 + threads)) ∧
      s.lockout.size ≤ MAX_TRACKED_ADDRESSES ∧ s.flight.length ≤ threads ∧
      (∀ m ∈ s.missed, MAX_TRACKED_ADDRESSES ≤ m.2.2) ∧
      ∀ ip, s.judged.count ip = (times_of ip s.counted).length + (s.missed.map Prod.fst).count ip + s.flight.count ip := by
  obtain ⟨clock, hClock⟩ : ∃ clock, ∀ x ∈ sections, x.now ≤ clock :=
    ⟨(sections.map Section.now).sum, fun x hX => List.le_sum_of_mem (List.mem_map_of_mem hX)⟩
  have hGuarded := @run_guarded _ _ platform cfg threads _ hOrder _ hClock
  refine ⟨fun ip t => ?_, hGuarded.size, hGuarded.flight, hGuarded.missed, hGuarded.judged⟩
  obtain ⟨⟨ws, hSpaced, hTimes, -⟩, -⟩ := hGuarded.watched ip
  rw [← hTimes]
  exact Windows.count_le hSpaced t

end

/-- Two requests of one address are judged before either failure is counted. -/
theorem lockout_holds_twice :
    let platform : Platform Nat := { hash_one := fun _ => 0, parse_ip := fun _ => none, loopback_ip := fun _ => false }
    let cfg : ApiConfig := { auth := { api_token := some "0123456789abcdef" } }
    let req : Http.Request :=
      { method := "GET", path := "/api/whoami", headers := [("x-postino-token", "a")], query := [], body := [], http10 := false
        segments := ["api", "whoami"] }
    let s := run platform cfg 2 [.judge ⟨5, req, some 7⟩, .judge ⟨6, req, some 7⟩, .fail 1 8, .fail 0 9]
    s.counted = [(7, 8), (7, 9)] ∧ s.judged.count 7 = 2 ∧
      (times_of 7 s.counted).countP (Windows.within AUTH_WINDOW_MS 0) ≤ 42 := by
  intro platform cfg req s
  have hOrder : ([.judge ⟨5, req, some 7⟩, .judge ⟨6, req, some 7⟩, .fail 1 8, .fail 0 9] : List (Section Nat)).Pairwise
      fun a b => a.now ≤ b.now := by simp [Section.now]
  have hCounted : s.counted = [(7, 8), (7, 9)] ∧ s.judged.count 7 = 2 := by decide +kernel
  exact ⟨hCounted.1, hCounted.2, (lockout_holds platform cfg 2 hOrder).1 7 0⟩

/-! ## Slots -/

def MAX_AGENT_SLOTS : Nat := 32

/-- The slots counted for each agent, and whose the open ones are; an administrator's count
for nobody. -/
structure Slots where
  slots : BTreeMap String Nat := ∅
  held : List (Option String) := []

namespace Slots

/-- Claims a slot for a principal. -/
def slot (s : Slots) : Principal → Except Response Unit × Slots
  | .Admin => (.ok (), { s with held := s.held ++ [none] })
  | .Agent agent =>
    let count := (s.slots[agent]?).getD 0
    if count ≥ MAX_AGENT_SLOTS then
      (.error (fail 429 s!"agent {debug agent} already has {MAX_AGENT_SLOTS} requests and streams open; close some first"),
        { s with slots := s.slots.insert agent count })
    else (.ok (), { slots := s.slots.insert agent (count + 1), held := s.held ++ [some agent] })

/-- Drops the i-th of the open slots. -/
def drop (s : Slots) (i : Nat) : Slots :=
  match s.held[i]? with
  | none => s
  | some none => { s with held := s.held.eraseIdx i }
  | some (some agent) =>
    let s := { s with held := s.held.eraseIdx i }
    match s.slots[agent]? with
    | none => s
    | some count =>
      if count - 1 = 0 then { s with slots := s.slots.erase agent }
      else { s with slots := s.slots.insert agent (count - 1) }

end Slots

/-- What happens to slots: one is claimed, or an open one is dropped. -/
inductive Hold where
  | claim (principal : Principal)
  | drop (i : Nat)

def Slots.step (s : Slots) : Hold → Slots
  | .claim principal => (s.slot principal).2
  | .drop i => s.drop i

/-- The count of each agent is how many slots it holds. -/
structure Slots.Exact (s : Slots) : Prop where
  count : ∀ agent, s.slots[agent]? = if s.held.count (some agent) = 0 then none else some (s.held.count (some agent))
  bound : ∀ agent, s.held.count (some agent) ≤ MAX_AGENT_SLOTS

theorem Slots.Exact.getD {s : Slots} (h : s.Exact) (agent : String) : (s.slots[agent]?).getD 0 = s.held.count (some agent) := by
  rw [h.count]
  split
  · next hZero => rw [hZero]; rfl
  · rfl

theorem slot_exact {s : Slots} (h : s.Exact) (principal : Principal) : (s.slot principal).2.Exact := by
  cases principal with
  | Admin =>
    -- the admin has no entry, so no agent's count moves
    have hSame : ∀ agent : String, (s.held ++ [none]).count (some agent) = s.held.count (some agent) := fun agent => by
      rw [List.count_append, List.count_singleton, if_neg (by simp), Nat.add_zero]
    refine ⟨fun agent => ?_, fun agent => ?_⟩
    · show s.slots[agent]? = _
      rw [h.count]
      show _ = if (s.held ++ [none]).count (some agent) = 0 then none else some ((s.held ++ [none]).count (some agent))
      rw [hSame]
    · show (s.held ++ [none]).count (some agent) ≤ _
      rw [hSame]
      exact h.bound agent
  | Agent name =>
    unfold Slots.slot
    dsimp only
    rw [h.getD]
    by_cases hFull : s.held.count (some name) ≥ MAX_AGENT_SLOTS
    · rw [if_pos hFull]
      -- refused, and the entry is put back as it was
      refine ⟨fun agent => ?_, h.bound⟩
      dsimp only
      rw [BTreeMap.get_insert]
      split
      · next hSame =>
        subst hSame
        have hPositive : 0 < MAX_AGENT_SLOTS := by decide
        rw [if_neg (by omega)]
      · exact h.count agent
    · rw [if_neg hFull]
      have hCount : ∀ agent, (s.held ++ [some name]).count (some agent) =
          s.held.count (some agent) + if name = agent then 1 else 0 := fun agent => by
        rw [List.count_append, List.count_singleton]
        by_cases hSame : name = agent <;> simp [hSame]
      refine ⟨fun agent => ?_, fun agent => ?_⟩
      · dsimp only
        rw [BTreeMap.get_insert, hCount]
        by_cases hSame : name = agent
        · subst hSame
          rw [if_pos rfl, if_pos rfl, if_neg (Nat.succ_ne_zero _)]
        · rw [if_neg hSame, if_neg hSame, Nat.add_zero]
          exact h.count agent
      · dsimp only
        rw [hCount]
        have hBound := h.bound agent
        by_cases hSame : name = agent
        · subst hSame
          rw [if_pos rfl]
          omega
        · rw [if_neg hSame]
          omega

theorem drop_exact {s : Slots} (h : s.Exact) (i : Nat) : (s.drop i).Exact := by
  unfold Slots.drop
  cases hAt : s.held[i]? with
  | none => exact h
  | some x =>
    have hCount (agent : String) := count_dropped hAt (some agent)
    cases x with
    | none =>
      -- the admin has no entry
      have hSame : ∀ agent, (s.held.eraseIdx i).count (some agent) = s.held.count (some agent) := fun agent => by
        rw [hCount, if_neg (by simp), Nat.add_zero]
      refine ⟨fun agent => ?_, fun agent => ?_⟩
      · dsimp only
        rw [hSame]
        exact h.count agent
      · dsimp only
        rw [hSame]
        exact h.bound agent
    | some name =>
      have hOthers : ∀ agent, name ≠ agent → (s.held.eraseIdx i).count (some agent) = s.held.count (some agent) :=
        fun agent hNe => by rw [hCount, if_neg (by simpa using hNe), Nat.add_zero]
      have hOwn : s.held.count (some name) = (s.held.eraseIdx i).count (some name) + 1 := by rw [hCount, if_pos rfl]
      have hEntry : s.slots[name]? = some (s.held.count (some name)) := by
        rw [h.count, if_neg (by omega)]
      have hBound : ∀ agent, (s.held.eraseIdx i).count (some agent) ≤ MAX_AGENT_SLOTS := fun agent => by
        have := h.bound agent
        rw [hCount] at this
        omega
      dsimp only
      rw [hEntry]
      dsimp only
      rw [hOwn, Nat.add_sub_cancel]
      -- the last slot takes the entry with it
      by_cases hZero : (s.held.eraseIdx i).count (some name) = 0
      · rw [if_pos hZero]
        refine ⟨fun agent => ?_, hBound⟩
        dsimp only
        rw [BTreeMap.get_erase]
        by_cases hSame : name = agent
        · subst hSame
          rw [if_pos rfl, if_pos hZero]
        · rw [if_neg hSame, hOthers agent hSame]
          exact h.count agent
      · rw [if_neg hZero]
        refine ⟨fun agent => ?_, hBound⟩
        dsimp only
        rw [BTreeMap.get_insert]
        by_cases hSame : name = agent
        · subst hSame
          rw [if_pos rfl, if_neg hZero]
        · rw [if_neg hSame, hOthers agent hSame]
          exact h.count agent

theorem exact_start : Slots.Exact {} := by
  refine ⟨fun agent => ?_, fun agent => ?_⟩
  · rw [List.count_nil, if_pos rfl]
    exact Std.ExtTreeMap.getElem?_empty
  · rw [List.count_nil]
    exact Nat.zero_le _

/-- **An agent's count is how many slots it holds**, in any order of claims and drops: it is
let claim one exactly while it holds fewer than it may, and nothing is kept of an agent
that holds none. -/
theorem slots_exact (events : List Hold) :
    (events.foldl Slots.step {}).Exact ∧
      ∀ agent, ((events.foldl Slots.step {}).slot (.Agent agent)).1.isOk =
        decide ((events.foldl Slots.step {}).held.count (some agent) < MAX_AGENT_SLOTS) := by
  have hExact : (events.foldl Slots.step {}).Exact := by
    induction events using List.reverseRecOn with
    | nil => exact exact_start
    | append_singleton events event ih =>
      rw [List.foldl_append, List.foldl_cons, List.foldl_nil]
      cases event with
      | claim principal => exact slot_exact ih principal
      | drop i => exact drop_exact ih i
  refine ⟨hExact, fun agent => ?_⟩
  unfold Slots.slot
  dsimp only
  rw [hExact.getD]
  by_cases hFull : (events.foldl Slots.step {}).held.count (some agent) ≥ MAX_AGENT_SLOTS
  · rw [if_pos hFull, decide_eq_false (by omega)]
    rfl
  · rw [if_neg hFull, decide_eq_true (by omega)]
    rfl

/-- One claim too many, and one once a slot is free again. -/
theorem slots_exact_full :
    let claims : List Hold := List.replicate 33 (.claim (.Agent "ann")) ++ [.claim (.Agent "bob")]
    ((claims.foldl Slots.step {}).slot (.Agent "ann")).1.isOk = false ∧
      (((claims ++ [Hold.drop 7]).foldl Slots.step {}).slot (.Agent "ann")).1.isOk = true ∧
      (claims.foldl Slots.step {}).slots["bob"]? = some 1 := by
  intro claims
  have hHeld : (claims.foldl Slots.step {}).held.count (some "ann") = 32 ∧
      ((claims ++ [Hold.drop 7]).foldl Slots.step {}).held.count (some "ann") = 31 ∧
      (claims.foldl Slots.step {}).held.count (some "bob") = 1 := by
    decide +kernel +revert
  refine ⟨?_, ?_, ?_⟩
  · rw [(slots_exact claims).2, hHeld.1]
    rfl
  · rw [(slots_exact _).2, hHeld.2.1]
    rfl
  · rw [(slots_exact claims).1.count, hHeld.2.2]
    rfl

end Postino.Api
