import Postino.Lib.BTree

/-!
# Snapshots of a map that goes on changing

A writer walks an ordered map in key order and writes out its entries as they
were at one moment, while the map goes on changing. Every change to a key is
preceded by writing the key's entry first, unless the walk already has.

`SnapshotInv orig cur reached written` is the invariant of any such writer,
whatever its cursor and marks look like: `reached` is the set of keys it is
done with. The rules say what one step may do:

* `begin` — nothing is reached, nothing is written;
* `change` — a reached key may change in any way;
* `write` — an unreached key is written as it is now, and is then reached;
* `skip` — unreached keys the map does not hold are reached for free;
* `complete` — once every key is reached, what was written lists the map as it
  was at the beginning.

The walk itself goes through `Left`, the entries it has not passed; some of them
were written early, ahead of it:

* `pass_early` / `pass_write` — it goes past a key written before, or writes one;
* `pass_end` — when none is left, every key is reached.
-/

namespace Lib

variable {K V : Type} [LinearOrder K]

/-- What was written so far is exactly the reached part of the original map,
and the unreached part has not changed. -/
structure SnapshotInv (orig cur : BTreeMap K V) (reached : K → Prop)
    (written : List (K × V)) : Prop where
  exact : ∀ k v, (k, v) ∈ written ↔ orig[k]? = some v ∧ reached k
  untouched : ∀ k, ¬ reached k → cur[k]? = orig[k]?
  nodup : (written.map Prod.fst).Nodup

namespace SnapshotInv

variable {orig cur cur' : BTreeMap K V} {reached reached' : K → Prop}
  {written : List (K × V)}

theorem begin (m : BTreeMap K V) : SnapshotInv m m (fun _ => False) [] where
  exact := by simp
  untouched := fun _ _ => rfl
  nodup := List.nodup_nil

/-- The invariant only reads the set of reached keys. -/
theorem congr (h : SnapshotInv orig cur reached written)
    (hIff : ∀ k, reached' k ↔ reached k) :
    SnapshotInv orig cur reached' written where
  exact := fun k v => by rw [h.exact, hIff]
  untouched := fun k hk => h.untouched k (mt (hIff k).mpr hk)
  nodup := h.nodup

/-- Reached keys may change freely. -/
theorem change (h : SnapshotInv orig cur reached written)
    (hSame : ∀ k, ¬ reached k → cur'[k]? = cur[k]?) :
    SnapshotInv orig cur' reached written where
  exact := h.exact
  untouched := fun k hk => (hSame k hk).trans (h.untouched k hk)
  nodup := h.nodup

/-- Writing an unreached key as it is now. -/
theorem write (h : SnapshotInv orig cur reached written) {k : K} {v : V}
    (hNew : ¬ reached k) (hHeld : cur[k]? = some v) :
    SnapshotInv orig cur (fun a => reached a ∨ a = k) (written ++ [(k, v)]) where
  exact := by
    intro a w
    have hOrig : orig[k]? = some v := (h.untouched k hNew).symm.trans hHeld
    simp only [List.mem_append, h.exact, List.mem_singleton, Prod.mk.injEq]
    constructor
    · rintro (⟨ha, hr⟩ | ⟨rfl, rfl⟩)
      · exact ⟨ha, .inl hr⟩
      · exact ⟨hOrig, .inr rfl⟩
    · rintro ⟨ha, hr | rfl⟩
      · exact .inl ⟨ha, hr⟩
      · exact .inr ⟨rfl, Option.some.inj (ha.symm.trans hOrig)⟩
  untouched := fun a ha => h.untouched a fun hr => ha (.inl hr)
  nodup := by
    rw [List.map_append, List.nodup_append]
    refine ⟨h.nodup, List.nodup_singleton _, ?_⟩
    intro a ha b hb hab
    obtain ⟨⟨a', w⟩, hw, rfl⟩ := List.mem_map.mp ha
    have hb' : b = k := by simpa using hb
    have hReached := ((h.exact a' w).mp hw).2
    exact hNew (by rwa [show a' = k from hab.trans hb'] at hReached)

/-- Keys the map does not hold are done with without writing anything. -/
theorem skip (h : SnapshotInv orig cur reached written)
    (hMore : ∀ k, reached k → reached' k)
    (hAbsent : ∀ k, reached' k → ¬ reached k → cur[k]? = none) :
    SnapshotInv orig cur reached' written where
  exact := by
    intro k v
    rw [h.exact]
    constructor
    · exact fun ⟨ho, hr⟩ => ⟨ho, hMore k hr⟩
    · rintro ⟨ho, hr'⟩
      refine ⟨ho, ?_⟩
      by_contra hr
      have hNone := hAbsent k hr' hr
      rw [h.untouched k hr, ho] at hNone
      cases hNone
  untouched := fun k hk => h.untouched k fun hr => hk (hMore k hr)
  nodup := h.nodup

/-- A finished snapshot lists the original map, each key once. -/
theorem complete (h : SnapshotInv orig cur reached written)
    (hAll : ∀ k, reached k) : written.Perm orig.toList := by
  refine BTreeMap.toList_perm_of_mem h.nodup fun k v => ?_
  rw [h.exact]
  exact ⟨And.left, fun ho => ⟨ho, hAll k⟩⟩

/-! ## A walk in key order -/

/-- What a walk has not passed yet, in key order. -/
structure Left (cur : BTreeMap K V) (passed : K → Prop) (run : List (K × V)) : Prop where
  mem : ∀ k v, (k, v) ∈ run ↔ cur[k]? = some v ∧ ¬ passed k
  sorted : run.Pairwise fun a b => a.1 < b.1

section Walk

variable {passed early : K → Prop} {key : K} {v : V} {run : List (K × V)}

theorem Left.tail (h : Left cur passed ((key, v) :: run)) :
    Left cur (fun k => k ≤ key ∨ passed k) run := by
  obtain ⟨hFirst, hSorted⟩ := List.pairwise_cons.mp h.sorted
  refine ⟨fun k w => ?_, hSorted⟩
  have hMem := h.mem k w
  rw [not_or, not_le]
  constructor
  · intro hRun
    obtain ⟨hHeld, hNot⟩ := hMem.mp (List.mem_cons_of_mem _ hRun)
    exact ⟨hHeld, hFirst _ hRun, hNot⟩
  · rintro ⟨hHeld, hLater, hNot⟩
    rcases List.mem_cons.mp (hMem.mpr ⟨hHeld, hNot⟩) with hEq | hRun
    · cases hEq
      exact absurd hLater (lt_irrefl _)
    · exact hRun

/-- Nothing is held before the next key of the walk but what it passed. -/
theorem Left.gap (h : Left cur passed ((key, v) :: run)) {k : K} (hBefore : k < key)
    (hNot : ¬ passed k) : cur[k]? = none := by
  by_contra hHeld
  obtain ⟨w, hw⟩ := Option.ne_none_iff_exists'.mp hHeld
  obtain ⟨hFirst, -⟩ := List.pairwise_cons.mp h.sorted
  rcases List.mem_cons.mp ((h.mem k w).mpr ⟨hw, hNot⟩) with hEq | hRun
  · cases hEq
    exact lt_irrefl _ hBefore
  · exact lt_asymm hBefore (hFirst _ hRun)

theorem pass_early (h : SnapshotInv orig cur (fun k => passed k ∨ early k) written)
    (hLeft : Left cur passed ((key, v) :: run)) (hEarly : early key) :
    SnapshotInv orig cur (fun k => (k ≤ key ∨ passed k) ∨ (key ≠ k ∧ early k)) written := by
  refine h.skip (fun k hk => ?_) fun k hk hNot => ?_
  · rcases hk with hk | hk
    · exact .inl (.inr hk)
    · by_cases hEq : key = k
      · exact .inl (.inl hEq.ge)
      · exact .inr ⟨hEq, hk⟩
  · rw [not_or] at hNot
    rcases hk with (hle | hk) | ⟨-, hk⟩
    · rcases hle.lt_or_eq with hlt | rfl
      · exact hLeft.gap hlt hNot.1
      · exact absurd hEarly hNot.2
    · exact absurd hk hNot.1
    · exact absurd hk hNot.2

theorem pass_write (h : SnapshotInv orig cur (fun k => passed k ∨ early k) written)
    (hLeft : Left cur passed ((key, v) :: run)) (hEarly : ¬ early key) :
    SnapshotInv orig cur (fun k => (k ≤ key ∨ passed k) ∨ early k) (written ++ [(key, v)]) := by
  obtain ⟨hHeld, hNew⟩ := (hLeft.mem key v).mp List.mem_cons_self
  refine (h.write (not_or.mpr ⟨hNew, hEarly⟩) hHeld).skip (fun k hk => ?_) fun k hk hNot => ?_
  · rcases hk with (hk | hk) | rfl
    · exact .inl (.inr hk)
    · exact .inr hk
    · exact .inl (.inl le_rfl)
  · rw [not_or, not_or] at hNot
    obtain ⟨⟨hPassed, hNotEarly⟩, hNe⟩ := hNot
    rcases hk with (hle | hk) | hk
    · exact hLeft.gap (lt_of_le_of_ne hle hNe) hPassed
    · exact absurd hk hPassed
    · exact absurd hk hNotEarly

theorem pass_end (h : SnapshotInv orig cur (fun k => passed k ∨ early k) written)
    (hLeft : Left cur passed []) {reached : K → Prop} (hAll : ∀ k, reached k) :
    SnapshotInv orig cur reached written := by
  refine h.skip (fun k _ => hAll k) fun k _ hNot => ?_
  by_contra hHeld
  obtain ⟨v, hv⟩ := Option.ne_none_iff_exists'.mp hHeld
  exact List.not_mem_nil ((hLeft.mem k v).mpr ⟨hv, fun hk => hNot (.inl hk)⟩)

end Walk

end SnapshotInv

end Lib
