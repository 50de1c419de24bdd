import Mathlib.Data.List.DropRight

/-!
# Trimming

A list without the elements at its two ends that are blank, for any notion of blank. What
is blank may stand before or after the list and be read as not there
(`trim_append_left`, `trim_append_right`).
-/

namespace Lib.Trim

variable {α : Type} {p : α → Bool} {a : α} {l r : List α}

/-- The list without what is blank at its start and at its end. -/
def trim (p : α → Bool) (l : List α) : List α := (l.dropWhile p).rdropWhile p

theorem rdropWhile_append_right (h : ∀ a ∈ r, p a = true) : (l ++ r).rdropWhile p = l.rdropWhile p := by
  unfold List.rdropWhile
  rw [List.reverse_append, List.dropWhile_append_of_pos]
  intro a hA
  exact h a (List.mem_reverse.mp hA)

/-- What is not blank stops it. -/
theorem rdropWhile_append_cons (h : p a = false) (l r : List α) :
    (l ++ a :: r).rdropWhile p = l ++ a :: r.rdropWhile p := by
  induction r using List.reverseRecOn with
  | nil =>
    rw [List.rdropWhile_nil]
    exact List.rdropWhile_concat_neg _ _ _ (by rw [h]; decide)
  | append_singleton r b ih =>
    rw [← List.cons_append, ← List.append_assoc, List.rdropWhile_concat, List.rdropWhile_concat, ih]
    split
    · rfl
    · rw [List.append_assoc, List.cons_append]

/-- The two ends do not meet. -/
theorem dropWhile_rdropWhile (p : α → Bool) (l : List α) :
    (l.rdropWhile p).dropWhile p = (l.dropWhile p).rdropWhile p := by
  induction l with
  | nil => rfl
  | cons a l ih =>
    cases hA : p a with
    | false =>
      have hCons := rdropWhile_append_cons hA [] l
      rw [List.nil_append, List.nil_append] at hCons
      rw [hCons, List.dropWhile_cons_of_neg (by rw [hA]; decide), List.dropWhile_cons_of_neg (by rw [hA]; decide), hCons]
    | true =>
      rw [List.dropWhile_cons_of_pos hA, ← ih]
      by_cases hAll : ∀ b ∈ l, p b = true
      · rw [List.rdropWhile_eq_nil_iff.mpr hAll, List.rdropWhile_eq_nil_iff.mpr (List.forall_mem_cons.mpr ⟨hA, hAll⟩)]
      · -- what is not blank keeps all before it
        push Not at hAll
        obtain ⟨b, hB, hNot⟩ := hAll
        obtain ⟨before, after, rfl⟩ := List.append_of_mem hB
        have hStop : p b = false := Bool.eq_false_iff.mpr hNot
        rw [← List.cons_append, rdropWhile_append_cons hStop, rdropWhile_append_cons hStop, List.cons_append,
          List.dropWhile_cons_of_pos hA]

theorem trim_append_left (h : ∀ a ∈ l, p a = true) (r : List α) : trim p (l ++ r) = trim p r := by
  unfold trim
  rw [List.dropWhile_append_of_pos h]

theorem trim_rdropWhile (p : α → Bool) (l : List α) : trim p (l.rdropWhile p) = trim p l := by
  unfold trim
  rw [dropWhile_rdropWhile, List.rdropWhile_idempotent]

theorem trim_append_right (l : List α) (h : ∀ a ∈ r, p a = true) : trim p (l ++ r) = trim p l := by
  rw [← trim_rdropWhile, rdropWhile_append_right h, trim_rdropWhile]

/-- What is blank nowhere stays as it is. -/
theorem trim_of_none (h : ∀ a ∈ l, p a = false) : trim p l = l := by
  unfold trim
  have hDrop : l.dropWhile p = l := by
    cases l with
    | nil => rfl
    | cons a l => exact List.dropWhile_cons_of_neg (by rw [h a List.mem_cons_self]; decide)
  rw [hDrop, List.rdropWhile_eq_self_iff]
  intro hNe
  rw [h _ (List.getLast_mem hNe)]
  decide

end Lib.Trim
