import Mathlib.Data.List.Count

/-!
# Counting in windows

Times are counted a window at a time: a window opens at the first time it counts, covers
`span` from there, and counts at most `most` times. The next one opens where the last one
covers nothing more.

* `count_le` — so no stretch as long as a window holds more than two windows' worth.
-/

namespace Lib.Windows

variable {most span : Nat}

/-- A window: where it opened, and the times it counted. -/
structure Window where
  opened : Nat
  times : List Nat

/-- What a window counts: no more than it may, and no time that it does not cover. -/
structure Window.Fits (most span : Nat) (w : Window) : Prop where
  few : w.times.length ≤ most
  covered : ∀ t ∈ w.times, w.opened ≤ t ∧ t < w.opened + span

/-- Windows, each after all that the ones before it cover. -/
structure Spaced (most span : Nat) (ws : List Window) : Prop where
  fits : ∀ w ∈ ws, w.Fits most span
  apart : ws.Pairwise fun v w => v.opened + span ≤ w.opened

/-- All the times counted. -/
def times (ws : List Window) : List Nat := ws.flatMap Window.times

/-- Whether a time is in the stretch from `t` on that is as long as a window. -/
def within (span t : Nat) (x : Nat) : Bool := t ≤ x && x < t + span

theorem countP_le {ts : List Nat} (h : ts.length ≤ most) (t : Nat) : ts.countP (within span t) ≤ most :=
  Nat.le_trans List.countP_le_length h

theorem countP_eq_zero {ts : List Nat} {t : Nat} (h : ∀ x ∈ ts, x < t ∨ t + span ≤ x) :
    ts.countP (within span t) = 0 := by
  rw [List.countP_eq_zero]
  intro x hX
  have := h x hX
  simp only [within, Bool.and_eq_true, decide_eq_true_eq]
  omega

theorem spaced_cons {w : Window} {ws : List Window} :
    Spaced most span (w :: ws) ↔
      w.Fits most span ∧ (∀ v ∈ ws, w.opened + span ≤ v.opened) ∧ Spaced most span ws := by
  constructor
  · rintro ⟨hFits, hApart⟩
    obtain ⟨hFirst, hRest⟩ := List.pairwise_cons.mp hApart
    exact ⟨hFits w List.mem_cons_self, hFirst, fun v hV => hFits v (List.mem_cons_of_mem _ hV), hRest⟩
  · rintro ⟨hFits, hFirst, hRest⟩
    exact ⟨List.forall_mem_cons.mpr ⟨hFits, hRest.fits⟩, List.pairwise_cons.mpr ⟨hFirst, hRest.apart⟩⟩

/-- Windows that open after the stretch count nothing in it. -/
theorem count_after {ws : List Window} (h : Spaced most span ws) {t : Nat} (hAfter : ∀ w ∈ ws, t + span ≤ w.opened) :
    (times ws).countP (within span t) = 0 := by
  refine countP_eq_zero fun x hX => ?_
  obtain ⟨w, hW, hX⟩ := List.mem_flatMap.mp hX
  have := hAfter w hW
  have := (h.fits w hW).covered x hX
  omega

/-- Of windows that open in the stretch or after it, only the first counts in it. -/
theorem count_from {ws : List Window} (h : Spaced most span ws) {t : Nat} (hFrom : ∀ w ∈ ws, t ≤ w.opened) :
    (times ws).countP (within span t) ≤ most := by
  cases ws with
  | nil => exact Nat.zero_le _
  | cons w ws =>
    obtain ⟨hFits, hFirst, hRest⟩ := spaced_cons.mp h
    have hOpened := hFrom w List.mem_cons_self
    have hNone := @count_after _ _ _ hRest t fun v hV => by
      have := hFirst v hV
      omega
    unfold times at hNone ⊢
    rw [List.flatMap_cons, List.countP_append, hNone, Nat.add_zero]
    exact countP_le hFits.few t

/-- **No stretch as long as a window holds more than two windows' worth.** -/
theorem count_le {ws : List Window} (h : Spaced most span ws) (t : Nat) :
    (times ws).countP (within span t) ≤ 2 * most := by
  induction ws with
  | nil => exact Nat.zero_le _
  | cons w ws ih =>
    obtain ⟨hFits, hFirst, hRest⟩ := spaced_cons.mp h
    have hSplit : (times (w :: ws)).countP (within span t) =
        w.times.countP (within span t) + (times ws).countP (within span t) := by
      unfold times
      rw [List.flatMap_cons, List.countP_append]
    rw [hSplit]
    by_cases hBefore : w.opened + span ≤ t
    · -- it is over when the stretch begins
      have hNone : w.times.countP (within span t) = 0 := by
        refine countP_eq_zero fun x hX => ?_
        have := hFits.covered x hX
        omega
      rw [hNone, Nat.zero_add]
      exact ih hRest
    · -- the first window the stretch begins in, and those after it
      have hMore := @count_from _ _ _ hRest t fun v hV => by
        have := hFirst v hV
        omega
      have hOwn := @countP_le _ span _ hFits.few t
      omega

/-! ## Counting one more -/

/-- When the last window is over, all are. -/
theorem Spaced.passed {ws : List Window} {last : Window} (h : Spaced most span (ws ++ [last])) {t : Nat}
    (hLast : last.opened + span ≤ t) : ∀ w ∈ ws ++ [last], w.opened + span ≤ t := by
  intro w hW
  obtain ⟨-, -, hBefore⟩ := List.pairwise_append.mp h.apart
  rcases List.mem_append.mp hW with hW | hW
  · have := hBefore w hW last (List.mem_singleton_self last)
    omega
  · rwa [List.mem_singleton.mp hW]

/-- A time that the last window does not cover opens another. -/
theorem Spaced.opens {ws : List Window} (h : Spaced most span ws) {t : Nat} (hMost : 1 ≤ most) (hSpan : 0 < span)
    (hOver : ∀ w ∈ ws, w.opened + span ≤ t) : Spaced most span (ws ++ [⟨t, [t]⟩]) := by
  have hNew : Window.Fits most span ⟨t, [t]⟩ := by
    refine ⟨hMost, fun x hX => ?_⟩
    have hSame : x = t := List.mem_singleton.mp hX
    dsimp only
    omega
  refine ⟨fun w hW => ?_, List.pairwise_append.mpr ⟨h.apart, List.pairwise_singleton _ _, ?_⟩⟩
  · rcases List.mem_append.mp hW with hW | hW
    · exact h.fits w hW
    · rw [List.mem_singleton.mp hW]
      exact hNew
  · intro w hW v hV
    rw [List.mem_singleton.mp hV]
    exact hOver w hW

/-- A time that it covers is counted in it, while there is room. -/
theorem Spaced.counts {ws : List Window} {w : Window} (h : Spaced most span (ws ++ [w])) {t : Nat}
    (hRoom : w.times.length < most) (hFrom : w.opened ≤ t) (hCovers : t < w.opened + span) :
    Spaced most span (ws ++ [⟨w.opened, w.times ++ [t]⟩]) := by
  obtain ⟨hBefore, -, hLast⟩ := List.pairwise_append.mp h.apart
  have hFits := h.fits w (List.mem_append_right _ (List.mem_singleton_self w))
  have hNew : Window.Fits most span ⟨w.opened, w.times ++ [t]⟩ := by
    refine ⟨?_, fun x hX => ?_⟩
    · rw [List.length_append, List.length_singleton]
      exact hRoom
    · rcases List.mem_append.mp hX with hX | hX
      · exact hFits.covered x hX
      · rw [List.mem_singleton.mp hX]
        exact ⟨hFrom, hCovers⟩
  refine ⟨fun v hV => ?_, List.pairwise_append.mpr ⟨hBefore, List.pairwise_singleton _ _, ?_⟩⟩
  · rcases List.mem_append.mp hV with hV | hV
    · exact h.fits v (List.mem_append_left _ hV)
    · rw [List.mem_singleton.mp hV]
      exact hNew
  · intro v hV x hX
    rw [List.mem_singleton.mp hX]
    exact hLast v hV w (List.mem_singleton_self w)

end Lib.Windows
