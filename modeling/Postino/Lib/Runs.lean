import Mathlib

/-!
# Runs of a sorted listing

Over any linear order, the lists that start with a prefix are an interval: they
begin at the prefix, nothing lies between them, and the intervals of two prefixes,
neither of them starting with the other, follow one another as the prefixes do.

* `prefix_of_between`, `prefix_lt` — intervals of prefixes.
* `takeWhile_eq_filter` — in a sorted listing, an interval is a run.
* `filter_or` — one run after another.
-/

namespace Lib

/-! ## Prefixes -/

section Prefix

variable {α : Type} [LinearOrder α]

theorem cons_le_cons {a b : α} {p k : List α} : a :: p ≤ b :: k ↔ a < b ∨ a = b ∧ p ≤ k := by
  rw [← not_lt, ← not_lt, show b :: k < a :: p ↔ b < a ∨ b = a ∧ k < p from List.cons_lt_cons_iff]
  rcases lt_trichotomy a b with hLt | rfl | hGt
  · simp [hLt, hLt.asymm, hLt.ne']
  · simp
  · simp [hGt, hGt.asymm, hGt.ne']

theorem prefix_le {p k : List α} (h : p <+: k) : p ≤ k := by
  induction p generalizing k with
  | nil => exact not_lt.mp (List.not_lt_nil k)
  | cons a p ih =>
    obtain ⟨rest, rfl⟩ := h
    rw [List.cons_append, cons_le_cons]
    exact .inr ⟨rfl, ih (List.prefix_append p rest)⟩

theorem prefix_of_between {p x y : List α} (hLow : p ≤ x) (hHigh : x ≤ y) (h : p <+: y) :
    p <+: x := by
  induction p generalizing x y with
  | nil => exact List.nil_prefix
  | cons a p ih =>
    obtain ⟨rest, rfl⟩ := h
    cases x with
    | nil => exact absurd (List.nil_lt_cons a p) (not_lt.mpr hLow)
    | cons b x =>
      rw [cons_le_cons] at hLow
      rw [List.cons_append, cons_le_cons] at hHigh
      rcases hLow with hLt | ⟨rfl, hLow⟩
      · rcases hHigh with hGt | ⟨rfl, -⟩
        · exact absurd hLt hGt.asymm
        · exact absurd hLt (lt_irrefl _)
      · have hHigh := (hHigh.resolve_left (lt_irrefl _)).2
        exact (List.cons_prefix_cons).mpr ⟨rfl, ih hLow hHigh (List.prefix_append p rest)⟩

theorem prefix_lt {p q k l : List α} (hLt : p < q) (hNot : ¬ p <+: q) (hK : p <+: k)
    (hL : q <+: l) : k < l := by
  by_contra hLe
  have hPL : p <+: l :=
    prefix_of_between (hLt.le.trans (prefix_le hL)) (not_lt.mp hLe) hK
  rcases List.prefix_or_prefix_of_prefix hPL hL with hPQ | hQP
  · exact hNot hPQ
  · exact absurd hLt (not_lt.mpr (prefix_le hQP))

end Prefix

/-! ## Runs -/

section Runs

variable {β : Type} {r : β → β → Prop} {l : List β}

/-- In a sorted listing, what holds up to some point is a run at the front. -/
theorem takeWhile_eq_filter (hSorted : l.Pairwise r) {p : β → Bool}
    (hDown : ∀ a ∈ l, ∀ b ∈ l, r a b → p b = true → p a = true) :
    l.takeWhile p = l.filter p := by
  induction l with
  | nil => rfl
  | cons a l ih =>
    obtain ⟨hHead, hTail⟩ := List.pairwise_cons.mp hSorted
    have hRest := ih hTail fun x hx y hy =>
      hDown x (List.mem_cons_of_mem _ hx) y (List.mem_cons_of_mem _ hy)
    by_cases hA : p a = true
    · rw [List.takeWhile_cons_of_pos hA, List.filter_cons_of_pos hA, hRest]
    · rw [List.takeWhile_cons_of_neg hA, List.filter_cons_of_neg hA]
      refine (List.filter_eq_nil_iff.mpr fun b hb hB => hA ?_).symm
      exact hDown a List.mem_cons_self b (List.mem_cons_of_mem _ hb) (hHead b hb) hB

/-- Two runs, all of the first before all of the second. -/
theorem filter_or (hSorted : l.Pairwise r) {p q : β → Bool}
    (hApart : ∀ a ∈ l, p a = true → q a = false)
    (hOrder : ∀ a ∈ l, ∀ b ∈ l, r a b → q a = true → p b = false) :
    l.filter (fun a => p a || q a) = l.filter p ++ l.filter q := by
  induction l with
  | nil => rfl
  | cons a l ih =>
    obtain ⟨hHead, hTail⟩ := List.pairwise_cons.mp hSorted
    have hRest := ih hTail (fun x hx => hApart x (List.mem_cons_of_mem _ hx))
      fun x hx y hy => hOrder x (List.mem_cons_of_mem _ hx) y (List.mem_cons_of_mem _ hy)
    by_cases hP : p a = true
    · have hQ := hApart a List.mem_cons_self hP
      rw [List.filter_cons_of_pos (by simp [hP]), List.filter_cons_of_pos hP,
        List.filter_cons_of_neg (by simp [hQ]), hRest, List.cons_append]
    · by_cases hQ : q a = true
      · -- nothing of the first is left
        have hNone : l.filter p = [] := by
          refine List.filter_eq_nil_iff.mpr fun b hb hB => ?_
          rw [hOrder a List.mem_cons_self b (List.mem_cons_of_mem _ hb) (hHead b hb) hQ] at hB
          cases hB
        rw [List.filter_cons_of_pos (by simp [hQ]), List.filter_cons_of_neg hP,
          List.filter_cons_of_pos hQ, hRest, hNone]
        rfl
      · rw [List.filter_cons_of_neg (by simp [hP, hQ]), List.filter_cons_of_neg hP,
          List.filter_cons_of_neg hQ, hRest]

end Runs

/-! ## Pages -/

section Page

variable {K : Type} [LinearOrder K] {l l' : List K}

/-- A listing is known by what it lists. -/
theorem eq_of_sorted (h : l.Pairwise (· < ·)) (h' : l'.Pairwise (· < ·)) (hMem : ∀ k, k ∈ l ↔ k ∈ l') : l = l' := by
  have hNodup {l : List K} (h : l.Pairwise (· < ·)) : l.Nodup := h.imp fun hLt => ne_of_lt hLt
  refine ((List.perm_ext_iff_of_nodup (hNodup h) (hNodup h')).mpr hMem).eq_of_pairwise ?_ h h'
  exact fun a b _ _ hab hba => absurd hab (lt_asymm hba)

/-- As many items lie before one as its index says. -/
theorem filter_before_length (h : l.Pairwise (· < ·)) {i : Nat} {k : K} (hGet : l[i]? = some k) :
    (l.filter (· < k)).length = i := by
  obtain ⟨hLt, hEq⟩ := List.getElem?_eq_some_iff.mp hGet
  have hSplit : l = l.take i ++ k :: l.drop (i + 1) := by
    rw [← hEq, List.getElem_cons_drop, List.take_append_drop]
  have hPairs := h
  rw [hSplit, List.pairwise_append] at hPairs
  obtain ⟨-, hBack, hAcross⟩ := hPairs
  have hAll : (l.take i).filter (· < k) = l.take i :=
    List.filter_eq_self.mpr fun a hA => by simpa using hAcross a hA k List.mem_cons_self
  have hNone : (k :: l.drop (i + 1)).filter (· < k) = [] := by
    refine List.filter_eq_nil_iff.mpr fun a hA => ?_
    rcases List.mem_cons.mp hA with rfl | hLater
    · simp
    · simpa using ((List.pairwise_cons.mp hBack).1 a hLater).le
  conv_lhs => rw [hSplit]
  rw [List.filter_append, hAll, hNone, List.append_nil, List.length_take, min_eq_left hLt.le]

/-- What lies past the last item of a page is what the page left. -/
theorem filter_past_page (h : l.Pairwise (· < ·)) {n : Nat} {last : K} (hLast : (l.take n).getLast? = some last) :
    l.filter (last < ·) = l.drop n := by
  obtain ⟨page, hPage⟩ := List.getLast?_eq_some_iff.mp hLast
  have hSplit : l = l.take n ++ l.drop n := (List.take_append_drop n l).symm
  have hPairs := h
  rw [hSplit, List.pairwise_append] at hPairs
  obtain ⟨hFront, -, hAcross⟩ := hPairs
  have hMem : last ∈ l.take n := List.mem_of_getLast? hLast
  have hNone : (l.take n).filter (last < ·) = [] := by
    refine List.filter_eq_nil_iff.mpr fun k hK => ?_
    rw [hPage] at hFront hK
    rcases List.mem_append.mp hK with hBefore | hIs
    · have hLt := (List.pairwise_append.mp hFront).2.2 k hBefore last (List.mem_singleton_self _)
      simpa using hLt.le
    · rw [List.mem_singleton.mp hIs]
      simp
  have hAll : (l.drop n).filter (last < ·) = l.drop n :=
    List.filter_eq_self.mpr fun k hK => by simpa using hAcross last hMem k hK
  conv_lhs => rw [hSplit]
  rw [List.filter_append, hNone, hAll, List.nil_append]

end Page

end Lib
