import Postino.Db.Value

/-!
# Streams

The entries of a stream are in the order of their ids, and ids only grow: no entry is past
the last id, whatever was deleted or trimmed away.

* `Group.Seated` — whoever has pending entries is a consumer of the group;
* `Onward` — how a stream goes on from an earlier one;
* `toList_drop_oldest` — trimming drops the front of the listing;
* `trim_to_exact`, `trim_before_exact` — what the two trims leave, and what they count.
-/

namespace Postino

open Lib

/-- Whoever an entry is pending for is a consumer of the group. -/
def Group.Seated (g : Group) : Prop := ∀ (id : Id) p, g.pending[id]? = some p → p.consumer ∈ g.consumers

/-- No consumer has gone, and who an entry is newly pending for is one. -/
theorem Group.Seated.of_pending {g g' : Group} (h : g.Seated) (hConsumers : ∀ c, c ∈ g.consumers → c ∈ g'.consumers)
    (hPending : ∀ (id : Id) p, g'.pending[id]? = some p →
      p.consumer ∈ g'.consumers ∨ ∃ q, g.pending[id]? = some q ∧ q.consumer = p.consumer) : g'.Seated :=
  fun id p hGet => by
    rcases hPending id p hGet with hIn | ⟨q, hOld, hEq⟩
    · exact hIn
    · exact hEq ▸ hConsumers _ (h id q hOld)

theorem Group.seated_new (last_delivered : Id) : ({ last_delivered } : Group).Seated := fun _ _ h => nomatch h

namespace Stream

/-- Every group of the stream is so. -/
def Seated (s : Stream) : Prop := ∀ (name : String) g, s.groups[name]? = some g → g.Seated

theorem Seated.insert {s : Stream} (h : s.Seated) {name : String} {g : Group} (hGroup : g.Seated) :
    ({ s with groups := s.groups.insert name g } : Stream).Seated := fun other found hGet => by
  dsimp only at hGet
  rw [BTreeMap.get_insert] at hGet
  split at hGet
  · cases hGet
    exact hGroup
  · exact h other found hGet

theorem Seated.erase {s : Stream} (h : s.Seated) (name : String) :
    ({ s with groups := s.groups.erase name } : Stream).Seated := fun other found hGet => by
  dsimp only at hGet
  rw [BTreeMap.get_erase] at hGet
  split at hGet
  · cases hGet
  · exact h other found hGet

/-- No entry, and no entry deleted, is past the last id. -/
structure Kept (s : Stream) : Prop where
  entries : ∀ (id : Id) fields, s.entries[id]? = some fields → id ≤ s.last_id
  deleted : s.max_deleted ≤ s.last_id

/-- A stream goes on: the last id does not step back, and new entries are past it. -/
structure Onward (s t : Stream) : Prop where
  last_id : s.last_id ≤ t.last_id
  entries : ∀ (id : Id) fields, t.entries[id]? = some fields →
    s.entries[id]? = some fields ∨ s.last_id < id
  kept : s.Kept → t.Kept
  seated : s.Seated → t.Seated

theorem Onward.refl (s : Stream) : s.Onward s := ⟨le_rfl, fun _ _ => .inl, id, id⟩

theorem Onward.trans {s t u : Stream} (h : s.Onward t) (h' : t.Onward u) : s.Onward u where
  last_id := h.last_id.trans h'.last_id
  entries id fields hGet := by
    rcases h'.entries id fields hGet with hOld | hNew
    · exact h.entries id fields hOld
    · exact .inr (h.last_id.trans_lt hNew)
  kept hKept := h'.kept (h.kept hKept)
  seated hSeated := h'.seated (h.seated hSeated)

/-- Groups are beside the entries. -/
theorem Onward.of_groups {s : Stream} {groups : BTreeMap String Group}
    (h : s.Seated → ({ s with groups } : Stream).Seated) : s.Onward { s with groups } :=
  ⟨le_rfl, fun _ _ => .inl, fun h => ⟨h.entries, h.deleted⟩, h⟩

/-- Nothing is past the last id of a new stream. -/
theorem kept_new : ({} : Stream).Kept where
  entries _ _ h := by cases h
  deleted := le_rfl

theorem seated_new : ({} : Stream).Seated := fun _ _ h => nomatch h

/-! ## Trimming -/

theorem drop_oldest_succ (n : Nat) (s : Stream) :
    s.drop_oldest (n + 1) =
      match s.entries.minEntry? with
      | some (id, _) =>
        drop_oldest n { s with entries := s.entries.erase id, max_deleted := max s.max_deleted id }
      | none => drop_oldest n s := rfl

theorem toList_drop_oldest (n : Nat) (s : Stream) :
    (s.drop_oldest n).entries.toList = s.entries.toList.drop n := by
  induction n generalizing s with
  | zero => rfl
  | succ n ih =>
    rw [drop_oldest_succ]
    split
    · next id fields hMin =>
      rw [ih, BTreeMap.toList_of_minEntry hMin, List.drop_succ_cons]
    · next hMin =>
      have hNil : s.entries.toList = [] := by
        rw [BTreeMap.minEntry_eq] at hMin
        exact List.head?_eq_none_iff.mp hMin
      rw [ih, hNil, List.drop_nil, List.drop_nil]

theorem groups_drop_oldest (n : Nat) (s : Stream) : (s.drop_oldest n).groups = s.groups := by
  induction n generalizing s with
  | zero => rfl
  | succ n ih =>
    rw [drop_oldest_succ]
    split <;> exact ih _

/-- Erasing an entry, which is noted as deleted. -/
theorem onward_erase {s : Stream} {id : Id} {fields : List (String × String)}
    (h : s.entries[id]? = some fields) :
    s.Onward { s with entries := s.entries.erase id, max_deleted := max s.max_deleted id } where
  last_id := le_rfl
  entries other fields hGet := by
    rw [BTreeMap.get_erase] at hGet
    split at hGet
    · cases hGet
    · exact .inl hGet
  kept hKept :=
    { entries := fun other fields hGet => by
        rw [BTreeMap.get_erase] at hGet
        split at hGet
        · cases hGet
        · exact hKept.entries other fields hGet
      deleted := max_le hKept.deleted (hKept.entries id fields h) }
  seated hSeated := hSeated

theorem onward_drop_oldest (n : Nat) (s : Stream) : s.Onward (s.drop_oldest n) := by
  induction n generalizing s with
  | zero => exact .refl s
  | succ n ih =>
    rw [drop_oldest_succ]
    split
    · next id fields hMin =>
      have hGet : s.entries[id]? = some fields := by
        rw [← BTreeMap.mem_toList, BTreeMap.toList_of_minEntry hMin]
        exact List.mem_cons_self
      exact (onward_erase hGet).trans (ih _)
    · exact ih _

/-- **What is kept is the newest, and the count is of what went.** -/
theorem trim_to_exact (s : Stream) (keep : Nat) :
    (s.trim_to keep).2.entries.toList = s.entries.toList.drop (s.entries.size - keep) ∧
      (s.trim_to keep).1 = s.entries.size - keep ∧
      (s.trim_to keep).2.entries.size = min keep s.entries.size := by
  have hList : (s.trim_to keep).2.entries.toList = s.entries.toList.drop (s.entries.size - keep) :=
    toList_drop_oldest _ _
  refine ⟨hList, rfl, ?_⟩
  rw [← Std.ExtTreeMap.length_toList, hList, List.length_drop, Std.ExtTreeMap.length_toList]
  omega

/-- Of a sorted listing, dropping as many as are below a bound leaves those that are not. -/
theorem drop_below {V : Type} {l : List (Id × V)} (hSorted : l.Pairwise fun a b => a.1 < b.1) (least : Id) :
    l.drop (l.filter fun e => e.1 < least).length = l.filter fun e => least ≤ e.1 := by
  induction l with
  | nil => rfl
  | cons e l ih =>
    obtain ⟨hFirst, hRest⟩ := List.pairwise_cons.mp hSorted
    by_cases hBelow : e.1 < least
    · rw [List.filter_cons_of_pos (by simpa using hBelow), List.length_cons, List.drop_succ_cons, ih hRest,
        List.filter_cons_of_neg (by simpa using hBelow)]
    · -- the first is not below the bound, so none is
      have hLe : least ≤ e.1 := not_lt.mp hBelow
      have hNone : (e :: l).filter (fun e => e.1 < least) = [] := by
        refine List.filter_eq_nil_iff.mpr fun a hMem => ?_
        rcases List.mem_cons.mp hMem with rfl | hIn
        · simpa using hLe
        · simpa using hLe.trans (hFirst a hIn).le
      have hAll : (e :: l).filter (fun e => least ≤ e.1) = e :: l := by
        refine List.filter_eq_self.mpr fun a hMem => ?_
        rcases List.mem_cons.mp hMem with rfl | hIn
        · simpa using hLe
        · simpa using hLe.trans (hFirst a hIn).le
      rw [hNone, hAll, List.length_nil, List.drop_zero]

/-- **What is kept is what is not older, and the count is of what went.** -/
theorem trim_before_exact (s : Stream) (least : Id) :
    (s.trim_before least).2.entries.toList = (s.entries.toList.filter fun e => least ≤ e.1) ∧
      (s.trim_before least).1 = (s.entries.below least).length ∧
      (s.trim_before least).2.entries.size + (s.trim_before least).1 = s.entries.size := by
  have hList : (s.trim_before least).2.entries.toList =
      s.entries.toList.drop (s.entries.below least).length := toList_drop_oldest _ _
  refine ⟨hList.trans (drop_below (BTreeMap.sorted_toList _) least), rfl, ?_⟩
  have hCount : (s.trim_before least).1 = (s.entries.below least).length := rfl
  have hLe : (s.entries.below least).length ≤ s.entries.toList.length := List.length_filter_le _ _
  rw [← Std.ExtTreeMap.length_toList, hList, List.length_drop, hCount, ← Std.ExtTreeMap.length_toList]
  omega

end Stream

end Postino
