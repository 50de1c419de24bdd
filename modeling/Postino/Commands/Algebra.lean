import Postino.Commands.Ranges

/-!
# SINTER, SUNION and SDIFF

The three commands against the plain fold over the sets named.

* `mem_once` — the sets visited are those named;
* `union_all_spec` — a union is refused only when it is too long a reply;
* `set_algebra_exact` — all three.
-/

namespace Postino

open Lib

namespace Exec

open Fallible

/-! ## The plain fold -/

/-- The members of the set under a key; under a missing key there are none. -/
def set_at (db : Db) (now : Nat) (key : String) : Set String :=
  { m | ∃ set : BTreeSet String, set_ref db key now = .ok (some set) ∧ m ∈ set }

/-- The sets named, one after another. -/
def algebra (name : String) (first : Set String) (others : List (Set String)) : Set String :=
  if name = "SINTER" then others.foldl (· ∩ ·) first
  else if name = "SUNION" then others.foldl (· ∪ ·) first
  else others.foldl (· \ ·) first

theorem mem_foldl_inter {others : List (Set String)} {first : Set String} {m : String} :
    m ∈ others.foldl (· ∩ ·) first ↔ m ∈ first ∧ ∀ s ∈ others, m ∈ s := by
  induction others generalizing first with
  | nil => simp
  | cons s others ih =>
    rw [List.foldl_cons, ih, Set.mem_inter_iff, List.forall_mem_cons, and_assoc]

theorem mem_foldl_union {others : List (Set String)} {first : Set String} {m : String} :
    m ∈ others.foldl (· ∪ ·) first ↔ m ∈ first ∨ ∃ s ∈ others, m ∈ s := by
  induction others generalizing first with
  | nil => simp
  | cons s others ih =>
    rw [List.foldl_cons, ih, Set.mem_union, List.exists_mem_cons_iff, or_assoc]

theorem mem_foldl_diff {others : List (Set String)} {first : Set String} {m : String} :
    m ∈ others.foldl (· \ ·) first ↔ m ∈ first ∧ ∀ s ∈ others, m ∉ s := by
  induction others generalizing first with
  | nil => simp
  | cons s others ih =>
    rw [List.foldl_cons, ih, Set.mem_sdiff, List.forall_mem_cons, and_assoc]

/-! ## The sets visited -/

/-- The sets under some keys, where each names a set or is missing. -/
theorem named_sets_ok {ctx : Ctx} {db : Db} {keys : List String} {found : String → Option (BTreeSet String)}
    (h : ∀ key ∈ keys, set_ref db key ctx.now = .ok (found key)) :
    named_sets ctx db keys = .ok (keys.map fun key => (found key).map fun s => (key, s)) := by
  unfold named_sets
  induction keys with
  | nil => rfl
  | cons key keys ih =>
    obtain ⟨hKey, hKeys⟩ := List.forall_mem_cons.mp h
    rw [List.mapM_cons, ih hKeys, hKey]
    rfl

/-- Each set named is visited, once it is told apart from the others by its key. -/
theorem mem_once {named : List (Option Named)} {seen : List Named} {found : String → Option (BTreeSet String)}
    (hSeen : ∀ s ∈ seen, found s.1 = some s.2) (hNamed : ∀ s, some s ∈ named → found s.1 = some s.2) {s : Named} :
    s ∈ once named seen ↔ s ∈ seen ∨ some s ∈ named := by
  induction named generalizing seen with
  | nil => simp [once]
  | cons head named ih =>
    have hRest : ∀ s, some s ∈ named → found s.1 = some s.2 := fun s hIn => hNamed s (List.mem_cons_of_mem _ hIn)
    cases head with
    | none => simp [once, ih hSeen hRest]
    | some set =>
      have hSet := hNamed set List.mem_cons_self
      rw [once]
      split
      · next hAgain =>
        -- a set met before is the same one
        obtain ⟨t, hIn, hSame⟩ := List.any_eq_true.mp hAgain
        have hKey : t.1 = set.1 := of_decide_eq_true hSame
        have hEq : t = set := by
          refine Prod.ext hKey (Option.some.inj ?_)
          rw [← hSeen t hIn, hKey, hSet]
        rw [ih hSeen hRest, List.mem_cons, Option.some.injEq]
        constructor
        · rintro (hBefore | hLater)
          · exact .inl hBefore
          · exact .inr (.inr hLater)
        · rintro (hBefore | rfl | hLater)
          · exact .inl hBefore
          · exact .inl (hEq ▸ hIn)
          · exact .inr hLater
      · have hMore : ∀ s ∈ seen ++ [set], found s.1 = some s.2 := by
          intro s hIn
          rcases List.mem_append.mp hIn with hBefore | hHere
          · exact hSeen s hBefore
          · rw [List.mem_singleton.mp hHere]
            exact hSet
        rw [ih hMore hRest, List.mem_append, List.mem_singleton, List.mem_cons, Option.some.injEq, or_assoc]

/-! ## The intersection -/

theorem mem_intersection {first : Option Named} {others : List Named} {m : String} :
    m ∈ intersection first others ↔ m ∈ members first ∧ ∀ s ∈ others, is_first first s = false → m ∈ s.2 := by
  unfold intersection
  dsimp only
  set all := members first :: (others.filter fun s => !is_first first s).map Prod.snd with hAll
  have hPerm := List.mergeSort_perm all fun s t => decide (s.size ≤ t.size)
  have hEvery : (∀ s ∈ all, m ∈ s) ↔
      m ∈ members first ∧ ∀ s ∈ others, is_first first s = false → m ∈ s.2 := by
    rw [hAll, List.forall_mem_cons, List.forall_mem_map]
    refine and_congr_right fun _ => forall_congr' fun s => ?_
    rw [List.mem_filter, Bool.not_eq_true', and_imp]
  rw [← hEvery]
  cases hSorted : all.mergeSort fun s t => decide (s.size ≤ t.size) with
  | nil =>
    rw [hSorted] at hPerm
    exact absurd hPerm.nil_eq (by simp [hAll])
  | cons smallest rest =>
    rw [hSorted] at hPerm
    simp only [List.mem_filter, BTreeSet.mem_toList, List.all_eq_true, Std.ExtTreeSet.contains_iff_mem]
    rw [← List.forall_mem_cons (p := fun s => m ∈ s)]
    exact ⟨fun h s hIn => h s (hPerm.symm.subset hIn), fun h s hIn => h s (hPerm.subset hIn)⟩

theorem sorted_intersection (first : Option Named) (others : List Named) :
    (intersection first others).Pairwise (· < ·) := by
  unfold intersection
  dsimp only
  split
  · exact List.Pairwise.nil
  · exact (BTreeSet.sorted_toList _).filter _

/-! ## The union -/

/-- How many bytes the members of a set have. -/
def weight (set : BTreeSet String) : Nat := (set.toList.map String.utf8ByteSize).sum

theorem weight_insert {set : BTreeSet String} {m : String} (hNew : m ∉ set) :
    weight (set.insert m) = weight set + m.utf8ByteSize := by
  have hPerm : (set.insert m).toList.Perm (m :: set.toList) := by
    refine (List.perm_ext_iff_of_nodup (BTreeSet.nodup_toList _) ?_).mpr fun k => ?_
    · exact List.nodup_cons.mpr ⟨fun hIn => hNew ((BTreeSet.mem_toList _ _).mp hIn), BTreeSet.nodup_toList _⟩
    · rw [BTreeSet.mem_toList, BTreeSet.mem_insert, List.mem_cons, BTreeSet.mem_toList, eq_comm]
  unfold weight
  rw [(hPerm.map _).sum_eq, List.map_cons, List.sum_cons, Nat.add_comm]

theorem weight_mono {set set' : BTreeSet String} (h : ∀ m ∈ set, m ∈ set') : weight set ≤ weight set' := by
  have hSub : set.toList.Subperm set'.toList := by
    refine List.subperm_of_subset (BTreeSet.nodup_toList set) fun m hIn => ?_
    exact (BTreeSet.mem_toList _ _).mpr (h m ((BTreeSet.mem_toList _ _).mp hIn))
  obtain ⟨part, hPerm, hSublist⟩ := hSub
  unfold weight
  rw [← (hPerm.map _).sum_eq]
  exact (hSublist.map _).sum_le_sum fun _ _ => Nat.zero_le _

theorem weight_le_sizes (set : BTreeSet String) : weight set ≤ Reply.sizes (set.toList.map .bulk) := by
  unfold weight
  induction set.toList with
  | nil => exact Nat.zero_le _
  | cons m l ih =>
    rw [List.map_cons, List.map_cons, List.sum_cons, Reply.sizes, Reply.size]
    omega

/-- The members of some sets together. -/
def gathered (sets : List (BTreeSet String)) (union : BTreeSet String) : BTreeSet String :=
  sets.foldl (fun union set => set.toList.foldl (·.insert ·) union) union

theorem mem_foldl_insert {l : List String} {union : BTreeSet String} {m : String} :
    m ∈ l.foldl (·.insert ·) union ↔ m ∈ union ∨ m ∈ l := by
  induction l generalizing union with
  | nil => simp
  | cons k l ih =>
    rw [List.foldl_cons, ih, BTreeSet.mem_insert, List.mem_cons, eq_comm (a := k)]
    tauto

theorem mem_gathered {sets : List (BTreeSet String)} {union : BTreeSet String} {m : String} :
    m ∈ gathered sets union ↔ m ∈ union ∨ ∃ set ∈ sets, m ∈ set := by
  unfold gathered
  induction sets generalizing union with
  | nil => simp
  | cons set sets ih =>
    rw [List.foldl_cons, ih, mem_foldl_insert, BTreeSet.mem_toList, List.exists_mem_cons_iff, or_assoc]

theorem union_with_spec (l : List String) (union : BTreeSet String) :
    union_with l (weight union) union = .ok (weight (l.foldl (·.insert ·) union), l.foldl (·.insert ·) union) ∨
      MAX_REPLY_BYTES < weight (l.foldl (·.insert ·) union) ∧ ∃ f, union_with l (weight union) union = .error f := by
  induction l generalizing union with
  | nil => exact .inl rfl
  | cons m l ih =>
    rw [union_with, List.foldl_cons]
    by_cases hIn : m ∈ union
    · have hSame : union.insert m = union := by
        refine BTreeSet.ext_mem fun k => ?_
        rw [BTreeSet.mem_insert]
        exact ⟨fun h => h.elim (· ▸ hIn) id, .inr⟩
      rw [if_pos (Std.ExtTreeSet.contains_iff_mem.mpr hIn), hSame]
      exact ih union
    · rw [if_neg (fun hThere => hIn (Std.ExtTreeSet.contains_iff_mem.mp hThere)), ← weight_insert hIn]
      by_cases hFits : weight (union.insert m) ≤ MAX_REPLY_BYTES
      · rw [within_reply_ok hFits]
        exact ih (union.insert m)
      · obtain ⟨f, hError⟩ := within_reply_error (not_le.mp hFits)
        rw [hError]
        refine .inr ⟨(not_le.mp hFits).trans_le (weight_mono fun k hK => ?_), f, rfl⟩
        exact mem_foldl_insert.mpr (.inl hK)

/-- A union is refused only when it is too long a reply. -/
theorem union_all_spec (sets : List (BTreeSet String)) (union : BTreeSet String) :
    union_all sets (weight union) union = .ok (gathered sets union) ∨
      MAX_REPLY_BYTES < weight (gathered sets union) ∧ ∃ f, union_all sets (weight union) union = .error f := by
  induction sets generalizing union with
  | nil => exact .inl rfl
  | cons set sets ih =>
    rw [union_all]
    have hGathered : gathered (set :: sets) union = gathered sets (set.toList.foldl (·.insert ·) union) := rfl
    rcases union_with_spec set.toList union with hOk | ⟨hLong, f, hError⟩
    · rw [hOk, hGathered]
      exact ih _
    · rw [hError, hGathered]
      refine .inr ⟨hLong.trans_le (weight_mono fun k hK => ?_), f, rfl⟩
      exact mem_gathered.mpr (.inl hK)

/-! ## The commands -/

section

variable {db : Db} {ctx : Ctx} {key : String} {keys : List String} {found : String → Option (BTreeSet String)}

/-- The first set named, where it is. -/
def head_named (found : String → Option (BTreeSet String)) (key : String) : Option Named :=
  (found key).map fun s => (key, s)

/-- The sets named after the first, each once. -/
def rest_named (found : String → Option (BTreeSet String)) (keys : List String) : List Named :=
  once (keys.map (head_named found)) []

theorem mem_rest_named {s : Named} : s ∈ rest_named found keys ↔ s.1 ∈ keys ∧ found s.1 = some s.2 := by
  have hNamed : ∀ s, some s ∈ keys.map (head_named found) → found s.1 = some s.2 := by
    intro s hIn
    obtain ⟨key, -, hEq⟩ := List.mem_map.mp hIn
    obtain ⟨set, hFound, rfl⟩ := Option.map_eq_some_iff.mp hEq
    exact hFound
  unfold rest_named
  rw [mem_once (fun s hIn => absurd hIn List.not_mem_nil) hNamed]
  constructor
  · rintro (hNil | hIn)
    · exact absurd hNil List.not_mem_nil
    · refine ⟨?_, hNamed s hIn⟩
      obtain ⟨key, hKey, hEq⟩ := List.mem_map.mp hIn
      obtain ⟨set, -, rfl⟩ := Option.map_eq_some_iff.mp hEq
      exact hKey
  · rintro ⟨hKey, hFound⟩
    refine .inr (List.mem_map.mpr ⟨s.1, hKey, ?_⟩)
    rw [head_named, hFound]
    rfl

theorem is_first_iff {s : Named} (hFound : found s.1 = some s.2) :
    is_first (head_named found key) s = true ↔ key = s.1 := by
  unfold is_first head_named
  cases hKey : found key with
  | some set => simp
  | none =>
    simp only [Option.map_none, Option.any_none, Bool.false_eq_true, false_iff]
    rintro rfl
    rw [hFound] at hKey
    cases hKey

/-- The members of a set named, by what is under its key. -/
theorem mem_set_at (h : set_ref db key ctx.now = .ok (found key)) {m : String} :
    m ∈ set_at db ctx.now key ↔ ∃ s, found key = some s ∧ m ∈ s := by
  unfold set_at
  rw [Set.mem_ofPred_eq, h]
  simp only [Except.ok.injEq]

theorem mem_members_head (h : set_ref db key ctx.now = .ok (found key)) {m : String} :
    m ∈ members (head_named found key) ↔ m ∈ set_at db ctx.now key := by
  rw [mem_set_at h]
  unfold members head_named
  cases found key with
  | none => simp
  | some s => simp

/-- A set visited is the set under its key. -/
theorem mem_visited (hSets : ∀ k ∈ keys, set_ref db k ctx.now = .ok (found k)) {s : Named}
    (hIn : s ∈ rest_named found keys) {m : String} : m ∈ s.2 ↔ m ∈ set_at db ctx.now s.1 := by
  obtain ⟨hKey, hFound⟩ := mem_rest_named.mp hIn
  rw [mem_set_at (hSets _ hKey), hFound]
  simp

theorem sinter_lists (head : String) (hSets : ∀ k ∈ key :: keys, set_ref db k ctx.now = .ok (found k)) :
    ∃ listed : List String, listed.Pairwise (· < ·) ∧
      (∀ m, m ∈ listed ↔ m ∈ algebra "SINTER" (set_at db ctx.now key) (keys.map (set_at db ctx.now))) ∧
      Replies (Db.looked (set_algebra "SINTER" ctx db (head :: key :: keys))) (listed.map .bulk) := by
  have hHead := hSets key List.mem_cons_self
  have hRest : ∀ k ∈ keys, set_ref db k ctx.now = .ok (found k) := fun k hIn => hSets k (List.mem_cons_of_mem _ hIn)
  have hReply : set_algebra "SINTER" ctx db (head :: key :: keys) =
      collect_within ((if ((key :: keys).map (head_named found)).any Option.isNone then []
        else intersection (head_named found key) (rest_named found keys)).map .bulk) := by
    unfold set_algebra
    dsimp only
    rw [named_sets_ok hSets]
    rfl
  have hAlgebra (m : String) : m ∈ algebra "SINTER" (set_at db ctx.now key) (keys.map (set_at db ctx.now)) ↔
      m ∈ set_at db ctx.now key ∧ ∀ k ∈ keys, m ∈ set_at db ctx.now k := by
    unfold algebra
    rw [if_pos rfl, mem_foldl_inter, List.forall_mem_map]
  rw [hReply]
  refine ⟨_, ?_, fun m => ?_, replies_collected _⟩
  · split
    · exact List.Pairwise.nil
    · exact sorted_intersection _ _
  rw [hAlgebra]
  split
  · next hMissing =>
    -- a missing set leaves nothing
    obtain ⟨named, hIn, hNone⟩ := List.any_eq_true.mp hMissing
    obtain ⟨k, hKey, rfl⟩ := List.mem_map.mp hIn
    have hFound : found k = none := by simpa [head_named] using hNone
    have hEmpty : m ∉ set_at db ctx.now k := by
      rw [mem_set_at (hSets k hKey), hFound]
      simp
    refine iff_of_false List.not_mem_nil fun ⟨hFirst, hOthers⟩ => ?_
    rcases List.mem_cons.mp hKey with rfl | hLater
    · exact hEmpty hFirst
    · exact hEmpty (hOthers k hLater)
  · next hAll =>
    rw [mem_intersection, mem_members_head hHead]
    refine and_congr_right fun hFirst => ⟨fun h k hKey => ?_, fun h s hIn _ => ?_⟩
    · cases hFound : found k with
      | none =>
        refine absurd (List.any_eq_true.mpr ⟨_, List.mem_map.mpr ⟨k, List.mem_cons_of_mem _ hKey, rfl⟩, ?_⟩) hAll
        simp [head_named, hFound]
      | some set =>
        have hIn : (k, set) ∈ rest_named found keys := mem_rest_named.mpr ⟨hKey, hFound⟩
        by_cases hSame : key = k
        · exact hSame ▸ hFirst
        · have hNot : is_first (head_named found key) (k, set) = false :=
            Bool.eq_false_iff.mpr fun hIs => hSame ((is_first_iff hFound).mp hIs)
          exact (mem_visited hRest hIn).mp (h _ hIn hNot)
    · exact (mem_visited hRest hIn).mpr (h s.1 (mem_rest_named.mp hIn).1)

theorem sunion_lists (head : String) (hSets : ∀ k ∈ key :: keys, set_ref db k ctx.now = .ok (found k)) :
    ∃ listed : List String, listed.Pairwise (· < ·) ∧
      (∀ m, m ∈ listed ↔ m ∈ algebra "SUNION" (set_at db ctx.now key) (keys.map (set_at db ctx.now))) ∧
      Replies (Db.looked (set_algebra "SUNION" ctx db (head :: key :: keys))) (listed.map .bulk) := by
  have hHead := hSets key List.mem_cons_self
  have hRest : ∀ k ∈ keys, set_ref db k ctx.now = .ok (found k) := fun k hIn => hSets k (List.mem_cons_of_mem _ hIn)
  set sets := members (head_named found key) ::
    ((rest_named found keys).filter fun s => !is_first (head_named found key) s).map Prod.snd with hVisited
  have hReply : set_algebra "SUNION" ctx db (head :: key :: keys) =
      ((union_all sets 0 ∅).map (·.toList)).bind fun listed => collect_within (listed.map .bulk) := by
    unfold set_algebra
    dsimp only
    rw [named_sets_ok hSets]
    rfl
  refine ⟨(gathered sets ∅).toList, BTreeSet.sorted_toList _, fun m => ?_, ?_⟩
  · have hAlgebra : m ∈ algebra "SUNION" (set_at db ctx.now key) (keys.map (set_at db ctx.now)) ↔
        m ∈ set_at db ctx.now key ∨ ∃ k ∈ keys, m ∈ set_at db ctx.now k := by
      unfold algebra
      rw [if_neg (by decide), if_pos rfl, mem_foldl_union]
      simp only [List.mem_map, exists_exists_and_eq_and]
    rw [hAlgebra, BTreeSet.mem_toList, mem_gathered, hVisited, List.exists_mem_cons_iff, mem_members_head hHead]
    constructor
    · rintro (hNone | hFirst | ⟨set, hIn, hM⟩)
      · exact absurd hNone (BTreeSet.notMem_empty m)
      · exact .inl hFirst
      · obtain ⟨s, hS, rfl⟩ := List.mem_map.mp hIn
        have hIn := (List.mem_filter.mp hS).1
        exact .inr ⟨s.1, (mem_rest_named.mp hIn).1, (mem_visited hRest hIn).mp hM⟩
    · rintro (hFirst | ⟨k, hKey, hM⟩)
      · exact .inr (.inl hFirst)
      · obtain ⟨set, hFound, hThere⟩ := (mem_set_at (hRest k hKey)).mp hM
        by_cases hSame : key = k
        · exact .inr (.inl (hSame ▸ hM))
        · refine .inr (.inr ⟨set, List.mem_map.mpr ⟨(k, set), List.mem_filter.mpr ⟨?_, ?_⟩, rfl⟩, hThere⟩)
          · exact mem_rest_named.mpr ⟨hKey, hFound⟩
          · rw [Bool.not_eq_true']
            exact Bool.eq_false_iff.mpr fun hIs => hSame ((is_first_iff hFound).mp hIs)
  · rw [hReply]
    have hNil : (∅ : BTreeSet String).toList = [] :=
      List.eq_nil_iff_forall_not_mem.mpr fun k hIn => BTreeSet.notMem_empty k ((BTreeSet.mem_toList _ _).mp hIn)
    have hWeight : weight ∅ = 0 := by simp only [weight, hNil, List.map_nil, List.sum_nil]
    rcases hWeight ▸ union_all_spec sets ∅ with hOk | ⟨hLong, f, hError⟩
    · rw [hOk]
      exact replies_collected _
    · rw [hError]
      unfold Replies
      rw [if_neg (not_le.mpr (hLong.trans_le (weight_le_sizes _)))]
      rfl

theorem sdiff_lists (head : String) (hSets : ∀ k ∈ key :: keys, set_ref db k ctx.now = .ok (found k)) :
    ∃ listed : List String, listed.Pairwise (· < ·) ∧
      (∀ m, m ∈ listed ↔ m ∈ algebra "SDIFF" (set_at db ctx.now key) (keys.map (set_at db ctx.now))) ∧
      Replies (Db.looked (set_algebra "SDIFF" ctx db (head :: key :: keys))) (listed.map .bulk) := by
  have hHead := hSets key List.mem_cons_self
  have hRest : ∀ k ∈ keys, set_ref db k ctx.now = .ok (found k) := fun k hIn => hSets k (List.mem_cons_of_mem _ hIn)
  have hReply : set_algebra "SDIFF" ctx db (head :: key :: keys) =
      collect_within ((if (rest_named found keys).any (is_first (head_named found key)) then []
        else (members (head_named found key)).toList.filter fun m =>
          !(rest_named found keys).any (·.2.contains m)).map .bulk) := by
    unfold set_algebra
    dsimp only
    rw [named_sets_ok hSets]
    show (if (rest_named found keys).any (is_first (head_named found key)) then _ else _) = _
    split <;> rfl
  have hAlgebra (m : String) : m ∈ algebra "SDIFF" (set_at db ctx.now key) (keys.map (set_at db ctx.now)) ↔
      m ∈ set_at db ctx.now key ∧ ∀ k ∈ keys, m ∉ set_at db ctx.now k := by
    unfold algebra
    rw [if_neg (by decide), if_neg (by decide), mem_foldl_diff, List.forall_mem_map]
  rw [hReply]
  refine ⟨_, ?_, fun m => ?_, replies_collected _⟩
  · split
    · exact List.Pairwise.nil
    · exact (BTreeSet.sorted_toList _).filter _
  rw [hAlgebra]
  split
  · next hAgain =>
    -- the first set is among the others
    obtain ⟨s, hIn, hIs⟩ := List.any_eq_true.mp hAgain
    obtain ⟨hKey, hFound⟩ := mem_rest_named.mp hIn
    have hSame : key = s.1 := (is_first_iff hFound).mp hIs
    exact iff_of_false List.not_mem_nil fun ⟨hFirst, hOthers⟩ => hOthers s.1 hKey (hSame ▸ hFirst)
  · rw [List.mem_filter, BTreeSet.mem_toList, mem_members_head hHead, Bool.not_eq_true', List.any_eq_false]
    refine and_congr_right fun _ => ⟨fun h k hKey hM => ?_, fun h s hIn => ?_⟩
    · obtain ⟨set, hFound, hThere⟩ := (mem_set_at (hRest k hKey)).mp hM
      exact h (k, set) (mem_rest_named.mpr ⟨hKey, hFound⟩) (Std.ExtTreeSet.contains_iff_mem.mpr hThere)
    · intro hThere
      exact h s.1 (mem_rest_named.mp hIn).1 ((mem_visited hRest hIn).mp (Std.ExtTreeSet.contains_iff_mem.mp hThere))

end

/-- **SINTER, SUNION and SDIFF are set algebra.** Over any keys, each naming a set or missing,
they list the plain fold of the sets in order, or refuse a listing that is more than one
response may carry. -/
theorem set_algebra_exact [Json] (db : Db) (ctx : Ctx) (key : String) (keys : List String)
    (hSets : ∀ k ∈ key :: keys, ∃ set, set_ref db k ctx.now = .ok set) :
    ∀ name ∈ ["SINTER", "SUNION", "SDIFF"], ∃ listed : List String, listed.Pairwise (· < ·) ∧
      (∀ m, m ∈ listed ↔ m ∈ algebra name (set_at db ctx.now key) (keys.map (set_at db ctx.now))) ∧
      Replies (db.exec (name :: key :: keys) ctx).1.reply (listed.map .bulk) := by
  have hFound : ∃ found : String → Option (BTreeSet String),
      ∀ k ∈ key :: keys, set_ref db k ctx.now = .ok (found k) := by
    refine ⟨fun k => (set_ref db k ctx.now).toOption.join, fun k hIn => ?_⟩
    obtain ⟨set, hSet⟩ := hSets k hIn
    show set_ref db k ctx.now = .ok (set_ref db k ctx.now).toOption.join
    rw [hSet]
    cases set <;> rfl
  obtain ⟨found, hFound⟩ := hFound
  intro name hName
  simp only [List.mem_cons, List.not_mem_nil, or_false] at hName
  rcases hName with rfl | rfl | rfl
  · have hRun : db.run ("SINTER" :: key :: keys) ctx =
        (Handler.looks (set_algebra "SINTER")).run ctx ("SINTER" :: key :: keys) { db } := by
      have hName : Name.of_ ("SINTER" :: key :: keys) = "SINTER" := show Name.of_ ["SINTER"] = _ by decide
      exact db.run_of_name ctx hName (by decide)
    rw [Db.exec_looks hRun]
    exact sinter_lists _ hFound
  · have hRun : db.run ("SUNION" :: key :: keys) ctx =
        (Handler.looks (set_algebra "SUNION")).run ctx ("SUNION" :: key :: keys) { db } := by
      have hName : Name.of_ ("SUNION" :: key :: keys) = "SUNION" := show Name.of_ ["SUNION"] = _ by decide
      exact db.run_of_name ctx hName (by decide)
    rw [Db.exec_looks hRun]
    exact sunion_lists _ hFound
  · have hRun : db.run ("SDIFF" :: key :: keys) ctx =
        (Handler.looks (set_algebra "SDIFF")).run ctx ("SDIFF" :: key :: keys) { db } := by
      have hName : Name.of_ ("SDIFF" :: key :: keys) = "SDIFF" := show Name.of_ ["SDIFF"] = _ by decide
      exact db.run_of_name ctx hName (by decide)
    rw [Db.exec_looks hRun]
    exact sdiff_lists _ hFound

/-- A set named twice, and a missing one. -/
theorem set_algebra_exact_missing :
    let _ : Json := plainJson
    let set : BTreeSet String := (∅ : BTreeSet String).insert "a" |>.insert "b"
    let db : Db := { keys := (∅ : BTreeMap String Entry).insert "s" ⟨.set set, none⟩ }
    ∃ listed : List String, listed.Pairwise (· < ·) ∧
      (∀ m, m ∈ listed ↔ m ∈ algebra "SUNION" (set_at db plain_ctx.now "s")
        (["s", "t"].map (set_at db plain_ctx.now))) ∧
      Replies (db.exec ["SUNION", "s", "s", "t"] plain_ctx).1.reply (listed.map .bulk) := by
  intro _ set db
  have hGet : db.get "s" plain_ctx.now = some ⟨.set set, none⟩ := by simp [db, Db.get, Entry.expired]
  have hThere : set_ref db "s" plain_ctx.now = .ok (some set) := by simp only [set_ref, typed_ref, hGet, Typed.set]
  refine set_algebra_exact db plain_ctx "s" ["s", "t"] (fun k hIn => ?_) "SUNION" (by decide)
  simp only [List.mem_cons, List.not_mem_nil, or_false] at hIn
  rcases hIn with rfl | rfl | rfl
  · exact ⟨some set, hThere⟩
  · exact ⟨some set, hThere⟩
  · exact ⟨none, by simp [db, set_ref, typed_ref, Db.get]⟩

end Exec

end Postino
