import Mathlib.Data.List.Basic

/-!
# Scans that end

A scan goes over a list one element at a time. `step` says what it knows after one more,
or that it ends there. What is scanned may come in pieces: the scan goes on from what it
knew (`ends_append`), so where it ends does not depend on how the list was cut.
-/

namespace Lib.Scanner

variable {α σ : Type} {step : σ → α → Option σ} {s s' : σ} {xs ys : List α} {n : Nat}

/-- How many elements the scan takes, if it ends. -/
def ends (step : σ → α → Option σ) : σ → List α → Option Nat
  | _, [] => none
  | s, a :: rest =>
    match step s a with
    | none => some 1
    | some s' => (ends step s' rest).map (· + 1)

/-- What it knows after all of them, if it has not ended. -/
def after (step : σ → α → Option σ) : σ → List α → Option σ
  | s, [] => some s
  | s, a :: rest => (step s a).bind fun s' => after step s' rest

theorem ends_cons_none {a : α} (h : step s a = none) : ends step s (a :: xs) = some 1 := by
  rw [ends, h]

theorem ends_cons_some {a : α} (h : step s a = some s') :
    ends step s (a :: xs) = (ends step s' xs).map (· + 1) := by
  rw [ends, h]

theorem after_cons_some {a : α} (h : step s a = some s') : after step s (a :: xs) = after step s' xs := by
  rw [after, h, Option.bind_some]

theorem after_append (step : σ → α → Option σ) (s : σ) (xs ys : List α) :
    after step s (xs ++ ys) = (after step s xs).bind fun s' => after step s' ys := by
  induction xs generalizing s with
  | nil => rfl
  | cons a rest ih =>
    cases h : step s a with
    | none => simp [after, h]
    | some s' => rw [List.cons_append, after_cons_some h, after_cons_some h, ih]

/-- **A scan goes on from what it knew.** -/
theorem ends_append (h : after step s xs = some s') :
    ends step s (xs ++ ys) = (ends step s' ys).map (· + xs.length) := by
  induction xs generalizing s with
  | nil =>
    cases h
    simp
  | cons a rest ih =>
    cases hStep : step s a with
    | none => simp [after, hStep] at h
    | some s₁ =>
      rw [after_cons_some hStep] at h
      rw [List.cons_append, ends_cons_some hStep, ih h, Option.map_map]
      congr 1

/-- What comes after its end makes no difference to it. -/
theorem ends_append_left (h : ends step s xs = some n) (ys : List α) : ends step s (xs ++ ys) = some n := by
  induction xs generalizing s n with
  | nil => cases h
  | cons a rest ih =>
    cases hStep : step s a with
    | none =>
      rw [ends_cons_none hStep] at h
      rw [List.cons_append, ends_cons_none hStep, h]
    | some s₁ =>
      rw [ends_cons_some hStep] at h
      obtain ⟨m, hm, rfl⟩ := Option.map_eq_some_iff.mp h
      rw [List.cons_append, ends_cons_some hStep, ih hm, Option.map_some]

theorem ends_eq_none_iff : ends step s xs = none ↔ ∃ s', after step s xs = some s' := by
  induction xs generalizing s with
  | nil => exact iff_of_true rfl ⟨s, rfl⟩
  | cons a rest ih =>
    cases hStep : step s a with
    | none => simp [ends, after, hStep]
    | some s₁ => rw [ends_cons_some hStep, after_cons_some hStep, Option.map_eq_none_iff, ih]

theorem ends_le (h : ends step s xs = some n) : 0 < n ∧ n ≤ xs.length := by
  induction xs generalizing s n with
  | nil => cases h
  | cons a rest ih =>
    rw [List.length_cons]
    cases hStep : step s a with
    | none =>
      rw [ends_cons_none hStep] at h
      cases h
      omega
    | some s₁ =>
      rw [ends_cons_some hStep] at h
      obtain ⟨m, hm, rfl⟩ := Option.map_eq_some_iff.mp h
      have := ih hm
      omega

/-- The scan knows nothing of where the list was cut before its end. -/
theorem ends_take (h : ends step s xs = some n) : ends step s (xs.take n) = some n := by
  induction xs generalizing s n with
  | nil => cases h
  | cons a rest ih =>
    cases hStep : step s a with
    | none =>
      rw [ends_cons_none hStep] at h
      cases h
      exact ends_cons_none hStep
    | some s₁ =>
      rw [ends_cons_some hStep] at h
      obtain ⟨m, hm, rfl⟩ := Option.map_eq_some_iff.mp h
      rw [List.take_succ_cons, ends_cons_some hStep, ih hm, Option.map_some]

end Lib.Scanner
