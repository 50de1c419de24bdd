import Postino.Lib.BTree

/-!
# Maps under other keys

A map whose keys are renamed, by a function that tells the map's keys apart.

* `get_rekey` — what the renamed map holds, and under which keys;
* `rekey_back` — renaming the keys back restores the map;
* `map_rekey` / `map_back` — the same with the values changed as well.
-/

namespace Lib

variable {K K' V : Type} [LinearOrder K] [LinearOrder K']

/-- The map with each key `k` now `f k`. -/
def BTreeMap.rekey (f : K → K') (m : BTreeMap K V) : BTreeMap K' V :=
  .ofList (m.toList.map fun e => (f e.1, e.2)) compare

/-- `f` tells the keys of `m` apart. -/
def BTreeMap.Apart (m : BTreeMap K V) (f : K → K') : Prop := Set.InjOn f {k | k ∈ m}

namespace BTreeMap

variable {m : BTreeMap K V} {f : K → K'} {g : K' → K}

/-- What the map holds under a key it holds under the key's new name. -/
theorem get_rekey_self (hApart : m.Apart f) {k : K} {v : V} (h : m[k]? = some v) :
    (m.rekey f)[f k]? = some v := by
  refine Std.ExtTreeMap.getElem?_ofList_of_mem Std.ReflCmp.compare_self ?_ (List.mem_map.mpr ⟨(k, v), (mem_toList m k v).mpr h, rfl⟩)
  rw [List.pairwise_map]
  refine (sorted_toList m).imp_of_mem fun {a b} ha hb hLt hEq => ?_
  have hMem : ∀ e ∈ m.toList, e.1 ∈ m := fun e he =>
    (mem_iff_get m e.1).mpr ⟨e.2, (mem_toList m e.1 e.2).mp he⟩
  exact hLt.ne (hApart (hMem a ha) (hMem b hb) (compare_eq_iff_eq.mp hEq))

/-- **What the renamed map holds** is what the map holds, under the new names. -/
theorem get_rekey (hApart : m.Apart f) {k' : K'} {v : V} :
    (m.rekey f)[k']? = some v ↔ ∃ k, m[k]? = some v ∧ f k = k' := by
  constructor
  · intro h
    obtain ⟨⟨k, w⟩, hMem, hEq⟩ := List.mem_map.mp (mem_of_ofList h)
    obtain ⟨rfl, rfl⟩ := Prod.mk.inj hEq
    exact ⟨k, (mem_toList m k w).mp hMem, rfl⟩
  · rintro ⟨k, h, rfl⟩
    exact get_rekey_self hApart h

theorem mem_rekey (hApart : m.Apart f) {k' : K'} : k' ∈ m.rekey f ↔ ∃ k, k ∈ m ∧ f k = k' := by
  simp only [mem_iff_get, get_rekey hApart]
  constructor
  · rintro ⟨v, k, h, hKey⟩
    exact ⟨k, ⟨v, h⟩, hKey⟩
  · rintro ⟨k, ⟨v, h⟩, hKey⟩
    exact ⟨v, k, h, hKey⟩

omit [LinearOrder K'] in
theorem apart_of_back (h : ∀ k ∈ m, g (f k) = k) : m.Apart f := by
  intro k hk k' hk' hEq
  rw [← h k hk, ← h k' hk', hEq]

/-- **Renaming back restores the map.** -/
theorem rekey_back (h : ∀ k ∈ m, g (f k) = k) : (m.rekey f).rekey g = m := by
  have hApart : m.Apart f := apart_of_back h
  have hBack : (m.rekey f).Apart g := by
    refine @apart_of_back K' K V _ (m.rekey f) g f fun k' hk' => ?_
    obtain ⟨k, hk, rfl⟩ := (mem_rekey hApart).mp hk'
    rw [h k hk]
  refine ext_get fun k => Option.ext fun v => ?_
  rw [get_rekey hBack]
  constructor
  · rintro ⟨k', hk', rfl⟩
    obtain ⟨k, hk, rfl⟩ := (get_rekey hApart).mp hk'
    rw [h k ((mem_iff_get m k).mpr ⟨v, hk⟩)]
    exact hk
  · intro hk
    exact ⟨f k, get_rekey_self hApart hk, h k ((mem_iff_get m k).mpr ⟨v, hk⟩)⟩

/-- Under the same names, it is the same map. -/
theorem rekey_self {f : K → K} (h : ∀ k ∈ m, f k = k) : m.rekey f = m := by
  have hApart : m.Apart f := fun k hk k' hk' hEq => by rwa [h k hk, h k' hk'] at hEq
  refine ext_get fun k => Option.ext fun v => ?_
  rw [get_rekey hApart]
  constructor
  · rintro ⟨k', hk', rfl⟩
    rwa [h k' ((mem_iff_get m k').mpr ⟨v, hk'⟩)]
  · intro hk
    exact ⟨k, hk, h k ((mem_iff_get m k).mpr ⟨v, hk⟩)⟩

/-! ## Changing the values as well -/

section Values

variable {W : Type}

/-- A function of the values may be told by what it makes of those the map holds. -/
theorem map_congr {F G : V → W} (h : ∀ (k : K) v, m[k]? = some v → F v = G v) :
    (m.map fun _ v => F v : BTreeMap K W) = m.map fun _ v => G v := by
  refine ext_get fun k => ?_
  rw [Std.ExtTreeMap.getElem?_map, Std.ExtTreeMap.getElem?_map]
  cases hk : m[k]? with
  | none => rfl
  | some v => exact congrArg some (h k v hk)

/-- A function that changes no value the map holds changes nothing. -/
theorem map_self {F : V → V} (h : ∀ v, F v = v) : (m.map fun _ v => F v) = m := by
  refine ext_get fun k => ?_
  rw [Std.ExtTreeMap.getElem?_map]
  cases hk : m[k]? with
  | none => rfl
  | some v => exact congrArg some (h v)

/-- What is done to every value can be undone. -/
theorem map_back {F : V → W} {G : W → V} (h : ∀ (k : K) v, m[k]? = some v → G (F v) = v) :
    ((m.map fun _ v => F v : BTreeMap K W).map fun _ w => G w : BTreeMap K V) = m := by
  refine ext_get fun k => ?_
  rw [Std.ExtTreeMap.getElem?_map, Std.ExtTreeMap.getElem?_map, Option.map_map]
  cases hk : m[k]? with
  | none => rfl
  | some v => exact congrArg some (h k v hk)

/-- Keys and values may be changed in either order. -/
theorem map_rekey (hApart : m.Apart f) (F : V → W) :
    ((m.rekey f).map fun _ v => F v : BTreeMap K' W) = rekey f (m.map fun _ v => F v) := by
  have hApart' : Apart (m.map fun _ v => F v) f := by
    intro k hk k' hk' hEq
    exact hApart (Std.ExtTreeMap.mem_map.mp hk) (Std.ExtTreeMap.mem_map.mp hk') hEq
  refine ext_get fun k' => Option.ext fun w => ?_
  rw [Std.ExtTreeMap.getElem?_map, Option.map_eq_some_iff, get_rekey hApart']
  constructor
  · rintro ⟨v, hv, rfl⟩
    obtain ⟨k, hk, rfl⟩ := (get_rekey hApart).mp hv
    exact ⟨k, by rw [Std.ExtTreeMap.getElem?_map, hk]; rfl, rfl⟩
  · rintro ⟨k, hk, rfl⟩
    rw [Std.ExtTreeMap.getElem?_map] at hk
    obtain ⟨v, hv, rfl⟩ := Option.map_eq_some_iff.mp hk
    exact ⟨v, get_rekey_self hApart hv, rfl⟩

end Values

end BTreeMap

end Lib
