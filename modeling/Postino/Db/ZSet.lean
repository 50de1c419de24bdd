import Postino.Db.Value
import Postino.Lib.Runs

/-!
# Sorted sets

A sorted set keeps its members by name, each with its score, and once more in score order.

* `Agrees.insert` / `Agrees.remove` — the two halves go on agreeing;
* `by_score_exact` — a range of scores holds the members whose score lies within its bounds;
* `rank_exact` — a member's rank is its place in the order.
-/

namespace Postino

open Lib

namespace ZSet

/-! ## The two halves -/

/-- Both halves hold the same members with the same scores. A score is a number, and no
negative zero. -/
structure Agrees (z : ZSet) : Prop where
  pairs : ∀ (score : F64) (member : String), toLex (score, member) ∈ z.order ↔ z.scores[member]? = some score
  numbers : ∀ (member : String) (score : F64), z.scores[member]? = some score → score.isNaN = false ∧ score ≠ .negZero

theorem agrees_new : Agrees {} := by
  constructor
  · intro score member
    simp
  · intro member score hGet
    simp at hGet

variable {z : ZSet}

theorem scores_insert (member : String) (score : F64) :
    (z.insert member score).2.scores = z.scores.insert member score.canonical := by
  unfold insert
  dsimp only
  split <;> rfl

theorem Agrees.insert (h : z.Agrees) (member : String) {score : F64} (hNumber : score.isNaN = false) :
    (z.insert member score).2.Agrees := by
  constructor
  · intro score' member'
    rw [scores_insert, BTreeMap.get_insert]
    unfold ZSet.insert
    dsimp only
    cases hOld : z.scores[member]? with
    | some old =>
      dsimp only
      simp only [BTreeSet.mem_insert, BTreeSet.mem_erase, h.pairs, toLex_inj, Prod.mk.injEq]
      by_cases hEq : member = member'
      · subst hEq
        simp only [hOld, and_true, if_pos, Option.some.injEq]
        tauto
      · simp [hEq]
    | none =>
      dsimp only
      simp only [BTreeSet.mem_insert, h.pairs, toLex_inj, Prod.mk.injEq]
      by_cases hEq : member = member'
      · subst hEq
        simp [hOld]
      · simp [hEq]
  · intro member' score' hGet
    rw [scores_insert, BTreeMap.get_insert] at hGet
    split at hGet
    · cases hGet
      exact ⟨F64.isNaN_canonical hNumber, F64.canonical_ne_negZero score⟩
    · exact h.numbers member' score' hGet

theorem scores_remove (member : String) : (z.remove member).2.scores = z.scores.erase member := by
  unfold remove
  split
  · rfl
  · next hNone => exact (BTreeMap.erase_of_get_none _ hNone).symm

theorem Agrees.remove (h : z.Agrees) (member : String) : (z.remove member).2.Agrees := by
  constructor
  · intro score' member'
    rw [scores_remove, BTreeMap.get_erase]
    unfold ZSet.remove
    split
    · next score hGet =>
      dsimp only
      simp only [BTreeSet.mem_erase, h.pairs, ne_eq, toLex_inj, Prod.mk.injEq]
      by_cases hEq : member = member'
      · subst hEq
        simp only [hGet, and_true, if_pos, Option.some.injEq]
        tauto
      · simp [hEq]
    · next hNone =>
      rw [h.pairs]
      by_cases hEq : member = member'
      · subst hEq
        simp [hNone]
      · simp [hEq]
  · intro member' score' hGet
    rw [scores_remove, BTreeMap.get_erase] at hGet
    split at hGet
    · cases hGet
    · exact h.numbers member' score' hGet

/-- The order lists each member once, with its score. -/
theorem Agrees.perm (h : z.Agrees) : (z.order.toList.map fun r => ((ofLex r).2, (ofLex r).1)).Perm z.scores.toList := by
  refine (List.perm_ext_iff_of_nodup ?_ (BTreeMap.nodup_toList _)).mpr ?_
  · refine List.Nodup.map (fun r r' hEq => ?_) (BTreeSet.nodup_toList z.order)
    obtain ⟨hMember, hScore⟩ := Prod.mk.inj hEq
    exact ofLex_inj.mp (Prod.ext hScore hMember)
  · rintro ⟨member, score⟩
    rw [List.mem_map, BTreeMap.mem_toList, ← h.pairs]
    constructor
    · rintro ⟨r, hIn, hEq⟩
      obtain ⟨rfl, rfl⟩ := Prod.mk.inj hEq
      exact (BTreeSet.mem_toList _ _).mp hIn
    · intro hIn
      exact ⟨toLex (score, member), (BTreeSet.mem_toList _ _).mpr hIn, rfl⟩

theorem Agrees.length_order (h : z.Agrees) : z.order.toList.length = z.len := by
  have hLength := h.perm.length_eq
  rw [List.length_map] at hLength
  rw [hLength, len, Std.ExtTreeMap.length_toList]

/-- A change of a sorted set. -/
inductive Change where
  | insert (member : String) (score : F64)
  | remove (member : String)

/-- What a change sets is a number. -/
def Change.Number : Change → Prop
  | insert _ score => score.isNaN = false
  | remove _ => True

def change (z : ZSet) : Change → ZSet
  | .insert member score => (z.insert member score).2
  | .remove member => (z.remove member).2

/-- The sorted set after some changes of an empty one. -/
def run (changes : List Change) : ZSet := changes.foldl change {}

theorem agrees_run {changes : List Change} (h : ∀ c ∈ changes, c.Number) : (run changes).Agrees := by
  unfold run
  refine List.foldlRecOn changes change agrees_new fun z hZ c hIn => ?_
  cases c with
  | insert member score => exact hZ.insert member (h _ hIn)
  | remove member => exact hZ.remove member

/-! ## Ranges of scores -/

/-- Whether a score is no lower than a range may start. -/
def from_ (min : F64 × Bool) (score : F64) : Bool := if min.2 then F64.lt min.1 score else F64.le min.1 score

/-- Whether a score is no higher than a range may end. -/
def up_to (max : F64 × Bool) (score : F64) : Bool := if max.2 then F64.lt score max.1 else F64.le score max.1

/-- `by_score`, with the range it asks the order for. -/
def by_score_range (z : ZSet) (min max : F64 × Bool) : Option (List Ranked) :=
  let first (score : F64) : Ranked := toLex (score, "")
  let lower :=
    if min.2 then
      if min.1.eq .infinity then none else some (first min.1.next_up)
    else some (first min.1)
  let upper :=
    if max.2 then some (first max.1)
    else if max.1.eq .infinity then none else some (first max.1.next_up)
  -- a range that ends before it starts is empty, not a panic
  match lower.filter fun lo => upper.all (lo < ·) with
  | none => some []
  | some lo => z.order.range lo upper

/-- **The bounds of a range never cross.** -/
theorem by_score_range_eq (z : ZSet) (min max : F64 × Bool) : z.by_score_range min max = some (z.by_score min max) := by
  unfold by_score_range by_score
  extract_lets first lower upper
  cases lower with
  | none => rfl
  | some lo =>
    cases upper with
    | none =>
      simp only [Option.all_none, Option.filter_some, if_true, BTreeSet.range, Option.any_none, Bool.false_eq_true,
        if_false]
    | some hi =>
      by_cases hOrder : lo < hi
      · simp only [Option.all_some, hOrder, decide_true, Option.filter_some, if_true, BTreeSet.range, Option.any_some,
          hOrder.not_gt, decide_false, Bool.false_eq_true, if_false]
      · have hNone : z.order.toList.filter (fun r => lo ≤ r && decide (r < hi)) = [] := by
          refine List.filter_eq_nil_iff.mpr fun r _ hIn => ?_
          simp only [Bool.and_eq_true, decide_eq_true_eq] at hIn
          exact hOrder (hIn.1.trans_lt hIn.2)
        simp only [Option.all_some, hOrder, decide_false, Option.filter_some, Bool.false_eq_true, if_false, hNone]

/-- A score's first member sorts with the empty name. -/
theorem first_le {score s : F64} {member : String} :
    (toLex (score, "") : Ranked) ≤ toLex (s, member) ↔ score ≤ s := by
  rw [Prod.Lex.toLex_le_toLex]
  constructor
  · rintro (hLt | ⟨rfl, -⟩)
    · exact hLt.le
    · exact le_rfl
  · intro hLe
    rcases hLe.lt_or_eq with hLt | rfl
    · exact .inl hLt
    · exact .inr ⟨rfl, String.le_iff_toList_le.mpr (prefix_le List.nil_prefix)⟩

theorem lt_first {score s : F64} {member : String} :
    (toLex (s, member) : Ranked) < toLex (score, "") ↔ s < score := by
  rw [← not_le, first_le, not_le]

section Bounds

variable {bound score : F64} (hBound : bound.isNaN = false) (hScore : score.isNaN = false) (hZero : score ≠ .negZero)

include hBound hScore

theorem le_eq : F64.le bound score = decide (bound.numKey ≤ score.numKey) := by simp [F64.le, hBound, hScore]

theorem lt_eq : F64.lt bound score = decide (bound.numKey < score.numKey) := by simp [F64.lt, hBound, hScore]

omit hScore in
theorem eq_infinity : bound.eq .infinity = true → bound.numKey = F64.infinity.numKey := by
  have hTop : F64.infinity.isNaN = false := by decide
  simp [F64.eq, hBound, hTop]

omit hBound hScore in
theorem ne_infinity (h : ¬bound.eq .infinity = true) : bound ≠ .infinity := by
  rintro rfl
  exact h (by decide)

include hZero

/-- Where a range of scores starts. -/
theorem from_eq (excluded : Bool) (member : String) :
    (if excluded then if bound.eq .infinity then none else some (toLex (bound.next_up, ""))
      else some (toLex (bound, "")) : Option Ranked).any (· ≤ toLex (score, member)) = from_ (bound, excluded) score := by
  unfold from_
  cases excluded with
  | false => simp only [Bool.false_eq_true, if_false, Option.any_some, first_le, F64.le_iff_numKey hZero, le_eq hBound hScore]
  | true =>
    simp only [if_true, lt_eq hBound hScore]
    by_cases hTop : bound.eq .infinity = true
    · -- nothing is above infinity
      have hMost := F64.numKey_le_infinity hScore
      rw [if_pos hTop, Option.any_none, eq_comm, decide_eq_false_iff_not, eq_infinity hBound hTop]
      exact hMost.not_gt
    · rw [if_neg hTop, Option.any_some]
      simp only [first_le, F64.le_iff_numKey hZero, F64.numKey_next_up hBound (ne_infinity hTop), Int.add_one_le_iff]

/-- Where a range of scores ends. -/
theorem up_to_eq (excluded : Bool) (member : String) :
    (if excluded then some (toLex (bound, ""))
      else if bound.eq .infinity then none else some (toLex (bound.next_up, "")) : Option Ranked).all
        (toLex (score, member) < ·) = up_to (bound, excluded) score := by
  unfold up_to
  cases excluded with
  | true => simp only [if_true, Option.all_some, lt_first, F64.lt_iff_numKey hZero, lt_eq hScore hBound]
  | false =>
    simp only [Bool.false_eq_true, if_false, le_eq hScore hBound]
    by_cases hTop : bound.eq .infinity = true
    · -- nothing is above infinity
      rw [if_pos hTop, Option.all_none, eq_comm, decide_eq_true_eq, eq_infinity hBound hTop]
      exact F64.numKey_le_infinity hScore
    · rw [if_neg hTop, Option.all_some]
      simp only [lt_first, F64.lt_iff_numKey hZero, F64.numKey_next_up hBound (ne_infinity hTop), Int.lt_add_one_iff]

end Bounds

/-- **A range of scores holds the members whose score lies within its bounds.** -/
theorem by_score_exact (h : z.Agrees) {min max : F64 × Bool} (hMin : min.1.isNaN = false)
    (hMax : max.1.isNaN = false) :
    z.by_score min max = z.order.toList.filter fun r => from_ min (ofLex r).1 && up_to max (ofLex r).1 := by
  have hBounds : ∀ r ∈ z.order.toList,
      ((if min.2 then if min.1.eq .infinity then none else some (toLex (min.1.next_up, ""))
        else some (toLex (min.1, "")) : Option Ranked).any (· ≤ r) &&
      (if max.2 then some (toLex (max.1, ""))
        else if max.1.eq .infinity then none else some (toLex (max.1.next_up, "")) : Option Ranked).all (r < ·)) =
      (from_ min (ofLex r).1 && up_to max (ofLex r).1) := by
    intro r hIn
    have hGet := (h.pairs (ofLex r).1 (ofLex r).2).mp ((BTreeSet.mem_toList _ _).mp hIn)
    obtain ⟨hNumber, hZero⟩ := h.numbers _ _ hGet
    exact congrArg₂ _ (from_eq hMin hNumber hZero min.2 (ofLex r).2) (up_to_eq hMax hNumber hZero max.2 (ofLex r).2)
  rw [← List.filter_congr hBounds]
  unfold by_score
  extract_lets first lower upper
  show _ = z.order.toList.filter fun r => lower.any (· ≤ r) && upper.all (r < ·)
  cases lower with
  | none => simp
  | some lo =>
    cases upper with
    | none => simp
    | some hi => simp

/-- **A member's rank is its place in the order.** -/
theorem rank_exact (h : z.Agrees) (member : String) :
    z.rank member = none ∧ z.scores[member]? = none ∨
      ∃ score rank, z.rank member = some rank ∧ z.scores[member]? = some score ∧
        z.order.toList[rank]? = some (toLex (score, member)) ∧
        (z.order.toList.filter (· < toLex (score, member))).length = rank := by
  cases hGet : z.scores[member]? with
  | none => exact .inl ⟨by simp [rank, hGet], rfl⟩
  | some score =>
    have hIn : toLex (score, member) ∈ z.order.toList := (BTreeSet.mem_toList _ _).mpr ((h.pairs score member).mpr hGet)
    obtain ⟨i, hAt⟩ := List.mem_iff_getElem?.mp hIn
    have hCount := filter_before_length (BTreeSet.sorted_toList z.order) hAt
    refine .inr ⟨score, i, ?_, rfl, hAt, hCount⟩
    simp only [rank, hGet, Option.map_some, hCount]

end ZSet

end Postino
