import Postino.Commands.Groups

/-!
# How far behind a group is

XINFO GROUPS lists how many entries each group has yet to read, from one walk over the
entries however many groups there are.

* `lag_loop_exact` — the walk, over any marks in order and any ids in order;
* `lags_exact` — what it finds for each group.
-/

namespace Postino.Exec

open Lib

/-- Ids in order, once those up to `mark` are passed. -/
theorem dropWhile_le {K : Type} [LinearOrder K] (mark : K) {ids : List K} (hSorted : ids.Pairwise (· < ·)) :
    ids.dropWhile (fun id => decide (id ≤ mark)) = ids.filter fun id => decide (mark < id) := by
  induction ids with
  | nil => rfl
  | cons id ids ih =>
    obtain ⟨hFirst, hRest⟩ := List.pairwise_cons.mp hSorted
    by_cases hPassed : id ≤ mark
    · simp only [List.dropWhile_cons, List.filter_cons, hPassed, not_lt.mpr hPassed, decide_true, decide_false, if_true,
        Bool.false_eq_true, if_false, ih hRest]
    · have hAll : (id :: ids).filter (fun id => decide (mark < id)) = id :: ids := by
        refine List.filter_eq_self.mpr fun a hMem => decide_eq_true ?_
        rcases List.mem_cons.mp hMem with rfl | hMem
        · exact not_le.mp hPassed
        · exact (not_le.mp hPassed).trans (hFirst a hMem)
      rw [hAll]
      simp only [List.dropWhile_cons, hPassed, decide_false, Bool.false_eq_true, if_false]

/-- Passing the ids up to a mark leaves those after any later one. -/
theorem filter_passed {mark later : Id} (h : mark < later) (ids : List Id) :
    (ids.filter fun id => decide (mark < id)).filter (fun id => decide (later < id)) =
      ids.filter fun id => decide (later < id) := by
  rw [List.filter_filter]
  refine List.filter_congr fun id _ => ?_
  by_cases hAfter : later < id
  · simp [hAfter, h.trans hAfter]
  · simp [hAfter]

/-- **The walk finds how many ids are after each mark.** The count and the walk are of the ids
after the last mark that was passed. -/
theorem lag_loop_exact {marks ids : List Id} (hMarks : marks.Pairwise (· < ·)) (hIds : ids.Pairwise (· < ·))
    {mark : Id} (hMark : mark ∈ marks) :
    (lag_loop marks ids.length ids).lookup mark = some (ids.filter fun id => decide (mark < id)).length := by
  induction marks generalizing ids with
  | nil => exact nomatch hMark
  | cons m marks ih =>
    obtain ⟨hFirst, hRest⟩ := List.pairwise_cons.mp hMarks
    have hWalk : ids.drop (ids.takeWhile fun id => decide (id ≤ m)).length = ids.filter fun id => decide (m < id) := by
      calc ids.drop (ids.takeWhile fun id => decide (id ≤ m)).length
          = ((ids.takeWhile fun id => decide (id ≤ m)) ++ ids.dropWhile fun id => decide (id ≤ m)).drop
              (ids.takeWhile fun id => decide (id ≤ m)).length := by rw [List.takeWhile_append_dropWhile]
        _ = ids.filter fun id => decide (m < id) := by rw [List.drop_left, dropWhile_le m hIds]
    have hCount : ids.length - (ids.takeWhile fun id => decide (id ≤ m)).length =
        (ids.filter fun id => decide (m < id)).length := by
      rw [← hWalk, List.length_drop]
    unfold lag_loop
    dsimp only
    rw [hCount, hWalk]
    rcases List.mem_cons.mp hMark with rfl | hLater
    · exact List.lookup_cons_self
    · have hLess := hFirst mark hLater
      rw [List.lookup_cons, beq_eq_false_iff_ne.mpr hLess.ne']
      dsimp only
      rw [ih hRest (hIds.filter _) hLater, filter_passed hLess]

/-- The marks of the groups, in order and each once. -/
theorem marks_sorted (marks : List Id) : ((marks.insertionSort (· ≤ ·)).dedup).Pairwise (· < ·) := by
  have hOrdered : ((marks.insertionSort (· ≤ ·)).dedup).Pairwise (· ≤ ·) :=
    (List.pairwise_insertionSort (· ≤ ·) marks).sublist (List.dedup_sublist _)
  exact (hOrdered.and (List.nodup_dedup _)).imp fun h => lt_of_le_of_ne h.1 h.2

/-- **Group lags are exact.** Every group has one, and it is how many entries of the stream
have an id greater than the last the group was handed. -/
theorem lags_exact (s : Stream) (group : String) (record : Group) (hGroup : s.groups[group]? = some record) :
    (lags s).lookup record.last_delivered = some (s.entries.above record.last_delivered).length := by
  unfold lags
  dsimp only
  have hMarks := marks_sorted (s.groups.toList.map fun g => g.2.last_delivered)
  have hMark : record.last_delivered ∈
      ((s.groups.toList.map fun g => g.2.last_delivered).insertionSort (· ≤ ·)).dedup := by
    rw [List.mem_dedup, List.mem_insertionSort]
    exact List.mem_map_of_mem ((BTreeMap.mem_toList _ _ _).mpr hGroup)
  generalize ((s.groups.toList.map fun g => g.2.last_delivered).insertionSort (· ≤ ·)).dedup = marks at hMarks hMark
  cases marks with
  | nil => exact nomatch hMark
  | cons first marks =>
    have hIds : ((s.entries.above first).map Prod.fst).Pairwise (· < ·) :=
      List.pairwise_map.mpr (s.entries.sorted_above first)
    dsimp only
    rw [lag_loop_exact hMarks hIds hMark, ← List.length_map (f := Prod.fst)]
    -- the walk starts after the first mark, which is before this one
    have hFirst : first ≤ record.last_delivered := by
      rcases List.mem_cons.mp hMark with hIs | hLater
      · exact hIs.ge
      · exact ((List.pairwise_cons.mp hMarks).1 _ hLater).le
    have hAbove : ((s.entries.above first).map Prod.fst).filter (fun id => decide (record.last_delivered < id)) =
        (s.entries.above record.last_delivered).map Prod.fst := by
      rw [List.filter_map]
      unfold BTreeMap.above
      rw [List.filter_filter]
      refine congrArg _ (List.filter_congr fun e _ => ?_)
      by_cases hAfter : record.last_delivered < e.1
      · simp [hAfter, hFirst.trans_lt hAfter]
      · simp [hAfter]
    rw [hAbove]

/-- A group that was handed the first of two entries. -/
theorem lags_exact_first :
    let record : Group := { last_delivered := { ms := 1, seq := 0 } }
    let s : Stream :=
      { entries := ((∅ : BTreeMap Id (List (String × String))).insert { ms := 1, seq := 0 } []).insert { ms := 2, seq := 0 } []
        groups := (∅ : BTreeMap String Group).insert "g" record }
    (lags s).lookup { ms := 1, seq := 0 } = some (s.entries.above { ms := 1, seq := 0 }).length :=
  lags_exact _ "g" { last_delivered := { ms := 1, seq := 0 } } (by rw [BTreeMap.get_insert, if_pos rfl])

end Postino.Exec
