import Mathlib

/-!
# Ordered maps and sets

`BTreeMap` and `BTreeSet` over an arbitrary linear order: the extensional tree
maps of the standard library at the order's own `compare`. The lemmas below
restate the few facts the development rests on with `=` and `<` in place of
`compare`, so that `simp` and `omega` see through them.

* `get_insert` / `get_erase` — reading back after one change;
* `sorted_toList` / `nodup_keys` — iteration is in key order, each key once;
* `toList_perm_of_mem` — a duplicate-free list with a map's members lists it;
* `toList_insert_last` / `toList_erase_last` / `toList_update_last` — the last
  key comes, goes and changes at the end of the listing;
* `toList_of_minEntry` — the first entry, and the rest;
* `total` — a number added up over what a map holds, and how it changes;
* `above` / `below` — the two half-open ranges, and what they hold.
-/

namespace Lib

abbrev BTreeMap (K V : Type) [LinearOrder K] :=
  Std.ExtTreeMap K V (compare : K → K → Ordering)

abbrev BTreeSet (K : Type) [LinearOrder K] :=
  Std.ExtTreeSet K (compare : K → K → Ordering)

/-- A linear order is an order to sort by. -/
instance transCmp {K : Type} [LinearOrder K] : Std.TransCmp (compare : K → K → Ordering) := inferInstance

/-- Whatever equality test a key type has, its order tells equal keys apart. -/
instance lawfulEqCmp {K : Type} [LinearOrder K] : Std.LawfulEqCmp (compare : K → K → Ordering) where
  eq_of_compare h := compare_eq_iff_eq.mp h

namespace BTreeMap

variable {K V : Type} [LinearOrder K]

/-! ## Reading and changing -/

theorem get_insert (m : BTreeMap K V) (k a : K) (v : V) :
    (m.insert k v)[a]? = if k = a then some v else m[a]? := by
  simp [Std.ExtTreeMap.getElem?_insert]

theorem get_insert_ne (m : BTreeMap K V) {k a : K} (v : V) (h : k ≠ a) :
    (m.insert k v)[a]? = m[a]? := by
  simp [get_insert, h]

theorem get_erase (m : BTreeMap K V) (k a : K) :
    (m.erase k)[a]? = if k = a then none else m[a]? := by
  simp [Std.ExtTreeMap.getElem?_erase]

theorem get_erase_ne (m : BTreeMap K V) {k a : K} (h : k ≠ a) :
    (m.erase k)[a]? = m[a]? := by
  simp [get_erase, h]

theorem mem_iff_get (m : BTreeMap K V) (k : K) : k ∈ m ↔ ∃ v, m[k]? = some v := by
  rw [Std.ExtTreeMap.mem_iff_isSome_getElem?, Option.isSome_iff_exists]

theorem contains_iff_get (m : BTreeMap K V) (k : K) :
    m.contains k = true ↔ ∃ v, m[k]? = some v := by
  rw [Std.ExtTreeMap.contains_iff_mem, mem_iff_get]

theorem ext_get {m m' : BTreeMap K V} (h : ∀ k : K, m[k]? = m'[k]?) : m = m' :=
  Std.ExtTreeMap.ext_getElem? h

/-- Putting back what a key already holds changes nothing. -/
theorem insert_get (m : BTreeMap K V) {k : K} {v : V} (h : m[k]? = some v) :
    m.insert k v = m := by
  refine ext_get fun a => ?_
  rw [get_insert]
  split
  · next hka => rw [← hka, h]
  · rfl

theorem erase_of_get_none (m : BTreeMap K V) {k : K} (h : m[k]? = none) :
    m.erase k = m := by
  refine ext_get fun a => ?_
  rw [get_erase]
  split
  · next hka => rw [← hka, h]
  · rfl

theorem insert_insert (m : BTreeMap K V) (k : K) (v w : V) :
    (m.insert k v).insert k w = m.insert k w := by
  refine ext_get fun a => ?_
  simp only [get_insert]
  split <;> rfl

theorem erase_insert (m : BTreeMap K V) (k : K) (v : V) : (m.erase k).insert k v = m.insert k v := by
  refine ext_get fun a => ?_
  rw [get_insert, get_insert, get_erase]
  split
  · rfl
  · rfl

/-- What a map made of a list holds is in the list. -/
theorem mem_of_ofList {l : List (K × V)} {k : K} {v : V}
    (h : (Std.ExtTreeMap.ofList l compare : BTreeMap K V)[k]? = some v) : (k, v) ∈ l := by
  rw [Std.ExtTreeMap.ofList_eq_foldl] at h
  induction l using List.reverseRecOn with
  | nil => exact absurd h (by simp)
  | append_singleton l e ih =>
    obtain ⟨a, w⟩ := e
    rw [List.foldl_append] at h
    rw [List.foldl_cons, List.foldl_nil, get_insert] at h
    split at h
    · next hEq =>
      cases hEq
      cases h
      exact List.mem_append_right _ List.mem_cons_self
    · exact List.mem_append_left _ (ih h)

/-! ## Iteration -/

theorem mem_toList (m : BTreeMap K V) (k : K) (v : V) :
    (k, v) ∈ m.toList ↔ m[k]? = some v :=
  Std.ExtTreeMap.mem_toList_iff_getElem?_eq_some

theorem sorted_toList (m : BTreeMap K V) :
    m.toList.Pairwise fun a b => a.1 < b.1 := by
  simpa [compare_lt_iff_lt] using Std.ExtTreeMap.ordered_keys_toList (t := m)

theorem nodup_keys (m : BTreeMap K V) : (m.toList.map Prod.fst).Nodup := by
  rw [List.Nodup, List.pairwise_map]
  exact (sorted_toList m).imp fun h => ne_of_lt h

theorem nodup_toList (m : BTreeMap K V) : m.toList.Nodup :=
  (nodup_keys m).of_map

/-- A list with the map's members, each key once, lists the map. -/
theorem toList_perm_of_mem {m : BTreeMap K V} {l : List (K × V)}
    (hNodup : (l.map Prod.fst).Nodup)
    (hMem : ∀ k v, (k, v) ∈ l ↔ m[k]? = some v) : l.Perm m.toList := by
  refine (List.perm_ext_iff_of_nodup hNodup.of_map (nodup_toList m)).mpr ?_
  rintro ⟨k, v⟩
  rw [hMem, mem_toList]

/-- A sorted list with the map's members is its listing. -/
theorem toList_eq_of_sorted {m : BTreeMap K V} {l : List (K × V)}
    (hSorted : l.Pairwise fun a b => a.1 < b.1)
    (hMem : ∀ k v, (k, v) ∈ l ↔ m[k]? = some v) : m.toList = l := by
  have hNodup : (l.map Prod.fst).Nodup := by
    rw [List.Nodup, List.pairwise_map]
    exact hSorted.imp fun h => ne_of_lt h
  refine (toList_perm_of_mem hNodup hMem).symm.eq_of_pairwise ?_ (sorted_toList m) hSorted
  exact fun a b _ _ hab hba => absurd hab (lt_asymm hba)

/-- A key above all others is listed last. -/
theorem toList_insert_last {m : BTreeMap K V} {k : K} (v : V)
    (hLast : ∀ a, a ∈ m → a < k) : (m.insert k v).toList = m.toList ++ [(k, v)] := by
  have hBelow (a : K) (w : V) (h : m[a]? = some w) : a < k :=
    hLast a ((mem_iff_get m a).mpr ⟨w, h⟩)
  refine toList_eq_of_sorted ?_ fun a w => ?_
  · rw [List.pairwise_append]
    refine ⟨sorted_toList m, List.pairwise_singleton _ _, ?_⟩
    rintro ⟨a, w⟩ ha b hb
    obtain rfl := List.mem_singleton.mp hb
    exact hBelow a w ((mem_toList m a w).mp ha)
  · rw [List.mem_append, mem_toList, List.mem_singleton, get_insert]
    split
    · next hEq =>
      subst hEq
      constructor
      · rintro (h | h)
        · exact absurd (hBelow k w h) (lt_irrefl k)
        · exact congrArg some (Prod.mk.inj h).2.symm
      · intro h
        exact .inr (by rw [Option.some.inj h])
    · next hNe =>
      refine ⟨fun h => h.resolve_right ?_, .inl⟩
      intro h
      exact hNe (Prod.mk.inj h).1.symm

/-- A new key is listed beside the others. -/
theorem toList_insert_perm {m : BTreeMap K V} {k : K} (v : V) (hNew : m[k]? = none) :
    (m.insert k v).toList.Perm ((k, v) :: m.toList) := by
  have hOut (w : V) : (k, w) ∉ m.toList := by
    rw [mem_toList, hNew]
    exact fun h => nomatch h
  refine (toList_perm_of_mem ?_ fun a w => ?_).symm
  · rw [List.map_cons, List.nodup_cons]
    refine ⟨fun hMem => ?_, nodup_keys m⟩
    obtain ⟨⟨a, w⟩, hEntry, hKey⟩ := List.mem_map.mp hMem
    have hKey : a = k := hKey
    exact hOut w (hKey ▸ hEntry)
  · rw [List.mem_cons, Prod.mk.injEq, get_insert]
    by_cases hEq : k = a
    · subst hEq
      rw [if_pos rfl, or_iff_left (hOut w)]
      simp [eq_comm]
    · rw [if_neg hEq, mem_toList, or_iff_right fun h => hEq h.1.symm]

/-- Putting the entries of a listing in one by one makes the map. -/
theorem foldl_insert (m : BTreeMap K V) :
    m.toList.foldl (fun m e => m.insert e.1 e.2) ∅ = m := by
  rw [← Std.ExtTreeMap.ofList_eq_foldl]
  refine ext_get fun a => ?_
  cases hGet : m[a]? with
  | some v =>
    refine Std.ExtTreeMap.getElem?_ofList_of_mem (k := a) (by simp) ?_ ((mem_toList m a v).mpr hGet)
    exact (sorted_toList m).imp fun h => by simpa [compare_eq_iff_eq] using ne_of_lt h
  | none =>
    rw [Option.eq_none_iff_forall_ne_some]
    intro v hv
    have hMem := mem_of_ofList hv
    rw [mem_toList, hGet] at hMem
    cases hMem

theorem toList_map {W : Type} (m : BTreeMap K V) (f : V → W) :
    (m.map fun _ v => f v : BTreeMap K W).toList = m.toList.map fun e => (e.1, f e.2) := by
  refine toList_eq_of_sorted ?_ fun k w => ?_
  · rw [List.pairwise_map]
    exact sorted_toList m
  · rw [List.mem_map, Std.ExtTreeMap.getElem?_map, Option.map_eq_some_iff]
    constructor
    · rintro ⟨⟨a, v⟩, hMem, hEq⟩
      obtain ⟨rfl, rfl⟩ := Prod.mk.inj hEq
      exact ⟨v, (mem_toList m _ v).mp hMem, rfl⟩
    · rintro ⟨v, hv, rfl⟩
      exact ⟨(k, v), (mem_toList m k v).mpr hv, rfl⟩

/-- Values that tell the key they are filed under make the map again. -/
theorem foldl_insert_key {W : Type} (m : BTreeMap K V) (f : V → W) (key : W → K)
    (hKey : ∀ (k : K) v, m[k]? = some v → key (f v) = k) :
    (m.toList.map fun e => f e.2).foldl (fun m w => m.insert (key w) w) ∅ =
      (m.map fun _ v => f v : BTreeMap K W) := by
  rw [← foldl_insert (m.map fun _ v => f v : BTreeMap K W), toList_map, List.foldl_map, List.foldl_map]
  refine List.foldl_ext _ _ _ fun acc e hMem => ?_
  rw [hKey e.1 e.2 ((mem_toList _ _ _).mp hMem)]

/-- Erasing a key drops it from the listing. -/
theorem toList_erase (m : BTreeMap K V) (k : K) :
    (m.erase k).toList = m.toList.filter fun e => e.1 ≠ k := by
  refine toList_eq_of_sorted ((sorted_toList m).filter _) fun a w => ?_
  rw [List.mem_filter, mem_toList, get_erase, decide_eq_true_eq]
  split
  · next hEq => exact iff_of_false (fun h => h.2 hEq.symm) (by rintro ⟨⟩)
  · next hNe => exact and_iff_left (Ne.symm hNe)

/-- Erasing the last key drops the last of the listing. -/
theorem toList_erase_last {m : BTreeMap K V} {k : K} {v : V} {l : List (K × V)}
    (h : m.toList = l ++ [(k, v)]) : (m.erase k).toList = l := by
  have hSorted := sorted_toList m
  rw [h, List.pairwise_append] at hSorted
  refine toList_eq_of_sorted hSorted.1 fun a w => ?_
  have hMem := mem_toList m a w
  rw [h, List.mem_append, List.mem_singleton] at hMem
  rw [get_erase]
  split
  · next hEq =>
    subst hEq
    refine ⟨fun ha => ?_, fun h => nomatch h⟩
    exact absurd (hSorted.2.2 _ ha _ (List.mem_singleton.mpr rfl)) (lt_irrefl k)
  · next hNe =>
    rw [← hMem]
    exact ⟨.inl, fun h => h.resolve_right fun h => hNe (Prod.mk.inj h).1.symm⟩

/-- Changing what the last key holds changes the last of the listing. -/
theorem toList_update_last {m : BTreeMap K V} {k : K} {v : V} (w : V) {l : List (K × V)}
    (h : m.toList = l ++ [(k, v)]) : (m.insert k w).toList = l ++ [(k, w)] := by
  have hSame : m.insert k w = (m.erase k).insert k w := by
    refine ext_get fun a => ?_
    simp only [get_insert, get_erase]
    split <;> rfl
  have hSorted := sorted_toList m
  rw [h, List.pairwise_append] at hSorted
  rw [hSame, toList_insert_last, toList_erase_last h]
  intro a ha
  obtain ⟨u, hu⟩ := (mem_iff_get _ a).mp ha
  rw [← mem_toList, toList_erase_last h] at hu
  exact hSorted.2.2 _ hu _ (List.mem_singleton.mpr rfl)

/-! ## The first entry -/

open Std.DTreeMap.Internal in
/-- The leftmost node of a tree is the first it lists. -/
theorem impl_minEntry {K V : Type} (l : Impl K fun _ => V) :
    Impl.Const.minEntry? l = (l.toListModel.map fun e => (e.1, e.2)).head? := by
  induction l with
  | leaf => simp [Impl.Const.minEntry?]
  | inner size k v l r ihl _ =>
    cases l with
    | leaf => simp [Impl.Const.minEntry?]
    | inner =>
      rw [Impl.Const.minEntry?, ihl]
      simp [List.head?_append]

open Std.DTreeMap.Internal in
theorem minEntry_eq (m : BTreeMap K V) : m.minEntry? = m.toList.head? := by
  rcases m with ⟨⟨m⟩⟩
  induction m using Quotient.inductionOn with
  | _ t =>
    show Impl.Const.minEntry? t.inner = (Impl.Const.toList t.inner).head?
    rw [impl_minEntry, Impl.Const.toList_eq_toListModel_map]

/-- The first entry is below the others, which are what is left without it. -/
theorem toList_of_minEntry {m : BTreeMap K V} {k : K} {v : V} (h : m.minEntry? = some (k, v)) :
    m.toList = (k, v) :: (m.erase k).toList := by
  rw [minEntry_eq] at h
  obtain ⟨rest, hList⟩ := List.head?_eq_some_iff.mp h
  have hSorted := sorted_toList m
  rw [hList, List.pairwise_cons] at hSorted
  rw [toList_erase, hList, List.filter_cons_of_neg (by simp), List.filter_eq_self.mpr]
  exact fun e hMem => decide_eq_true (hSorted.1 e hMem).ne'

/-! ## Totals -/

section

variable (f : V → Nat)

/-- `f` added up over what a map holds. -/
def total (m : BTreeMap K V) : Nat := (m.toList.map fun e => f e.2).sum

theorem total_insert_new {m : BTreeMap K V} {k : K} (v : V) (hNew : m[k]? = none) :
    total f (m.insert k v) = f v + total f m := by
  unfold total
  rw [((toList_insert_perm v hNew).map _).sum_eq, List.map_cons, List.sum_cons]

theorem total_erase {m : BTreeMap K V} {k : K} {v : V} (h : m[k]? = some v) :
    total f m = f v + total f (m.erase k) := by
  have hBack : (m.erase k).insert k v = m := by rw [erase_insert, insert_get m h]
  have hNew : (m.erase k)[k]? = none := by rw [get_erase, if_pos rfl]
  rw [← total_insert_new f v hNew, hBack]

theorem total_insert {m : BTreeMap K V} {k : K} {v : V} (w : V) (h : m[k]? = some v) :
    total f (m.insert k w) + f v = total f m + f w := by
  have hNew : (m.erase k)[k]? = none := by rw [get_erase, if_pos rfl]
  rw [← erase_insert, total_insert_new f w hNew, total_erase f h]
  omega

/-- Over any keys that include the map's. -/
theorem total_eq_sum (m : BTreeMap K V) {keys : Finset K} (hKeys : ∀ k, m[k]? ≠ none → k ∈ keys) :
    total f m = ∑ k ∈ keys, (m[k]?).elim 0 f := by
  have hSum : total f m = ∑ k ∈ (m.toList.map Prod.fst).toFinset, (m[k]?).elim 0 f := by
    rw [List.sum_toFinset _ (nodup_keys m), List.map_map]
    unfold total
    refine congrArg List.sum (List.map_congr_left fun e hMem => ?_)
    show f e.2 = (m[e.1]?).elim 0 f
    rw [(mem_toList m e.1 e.2).mp hMem]
    rfl
  rw [hSum]
  refine Finset.sum_subset (fun k hk => ?_) fun k _ hk => ?_
  · obtain ⟨e, hMem, rfl⟩ := List.mem_map.mp (List.mem_toFinset.mp hk)
    refine hKeys _ ?_
    rw [(mem_toList m e.1 e.2).mp hMem]
    exact Option.some_ne_none _
  · cases hGet : m[k]? with
    | none => rfl
    | some v =>
      exact absurd (List.mem_toFinset.mpr (List.mem_map.mpr ⟨(k, v), (mem_toList m k v).mpr hGet, rfl⟩)) hk

/-- A map that holds no more under any key has no larger total. -/
theorem total_le {m m' : BTreeMap K V} (h : ∀ k : K, (m'[k]?).elim 0 f ≤ (m[k]?).elim 0 f) :
    total f m' ≤ total f m := by
  let keys : Finset K := (m.toList.map Prod.fst ++ m'.toList.map Prod.fst).toFinset
  have hIn {n : BTreeMap K V} {k : K} (hGet : n[k]? ≠ none) : k ∈ n.toList.map Prod.fst := by
    obtain ⟨v, hv⟩ := Option.ne_none_iff_exists'.mp hGet
    exact List.mem_map.mpr ⟨(k, v), (mem_toList n k v).mpr hv, rfl⟩
  have hBefore : total f m = ∑ k ∈ keys, (m[k]?).elim 0 f :=
    total_eq_sum f m fun k hk => List.mem_toFinset.mpr (List.mem_append_left _ (hIn hk))
  have hAfter : total f m' = ∑ k ∈ keys, (m'[k]?).elim 0 f :=
    total_eq_sum f m' fun k hk => List.mem_toFinset.mpr (List.mem_append_right _ (hIn hk))
  rw [hBefore, hAfter]
  exact Finset.sum_le_sum fun k _ => h k

end

/-! ## Half-open ranges -/

/-- The entries with a key after `k`, in key order. -/
def above (m : BTreeMap K V) (k : K) : List (K × V) :=
  m.toList.filter fun e => k < e.1

/-- The entries with a key before `k`, in key order. -/
def below (m : BTreeMap K V) (k : K) : List (K × V) :=
  m.toList.filter fun e => e.1 < k

theorem mem_above (m : BTreeMap K V) (k a : K) (v : V) :
    (a, v) ∈ above m k ↔ m[a]? = some v ∧ k < a := by
  simp [above]

theorem sorted_above (m : BTreeMap K V) (k : K) :
    (above m k).Pairwise fun a b => a.1 < b.1 :=
  (sorted_toList m).filter _

end BTreeMap

namespace BTreeSet

variable {K : Type} [LinearOrder K]

theorem mem_insert (s : BTreeSet K) (k a : K) : a ∈ s.insert k ↔ k = a ∨ a ∈ s := by
  simp [Std.ExtTreeSet.mem_insert]

theorem mem_erase (s : BTreeSet K) (k a : K) : a ∈ s.erase k ↔ k ≠ a ∧ a ∈ s := by
  simp [Std.ExtTreeSet.mem_erase]

theorem notMem_empty (k : K) : k ∉ (∅ : BTreeSet K) :=
  Std.ExtTreeSet.not_mem_empty

theorem nodup_toList (s : BTreeSet K) : s.toList.Nodup :=
  Std.ExtTreeSet.distinct_toList.imp fun h hEq => h (by simp [hEq])

theorem ext_mem {s t : BTreeSet K} (h : ∀ k, k ∈ s ↔ k ∈ t) : s = t :=
  Std.ExtTreeSet.ext_mem h

theorem mem_toList (s : BTreeSet K) (k : K) : k ∈ s.toList ↔ k ∈ s :=
  Std.ExtTreeSet.mem_toList

theorem sorted_toList (s : BTreeSet K) : s.toList.Pairwise (· < ·) :=
  Std.ExtTreeSet.ordered_toList.imp fun h => compare_lt_iff_lt.mp h

/-- What lies from `lo` on, and below `hi` when that is a bound; none for bounds that cross. -/
def range (s : BTreeSet K) (lo : K) (hi : Option K) : Option (List K) :=
  if hi.any (· < lo) then none
  else some (s.toList.filter fun k => lo ≤ k && hi.all (k < ·))

end BTreeSet

end Lib
