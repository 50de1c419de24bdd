import Postino.Db.ZSet
import Postino.Lib.Number

/-!
# Sorted sets in a snapshot

A snapshot holds a sorted set as pairs of a member and its score: a number, or `"inf"` and
`"-inf"`, which JSON has no numbers for. A finite score is written as a decimal, also where
it is an integer (`1.0`), and the reader of decimals is trusted with no more than it
promises: a finite number at most one place away.

* `reload_text` — loading what was written is loading the pairs with their scores read back;
* `reload_exact` — a sorted set survives exactly when its finite scores are read back as
  equal numbers, and whatever the reader does exactly when it has none.
-/

namespace Postino

open Lib

namespace ZSet

/-- A score as stored. -/
def stored (score : F64) : JsonTree Number :=
  if score = .infinity then .string "inf"
  else if score = .negInfinity then .string "-inf"
  else .number (.float score)

/-- A number as a score. -/
def as_f64 : Number → F64
  | .int n => .ofMag (decide (n < 0)) (F64.roundMag (n.natAbs * F64.one) 1)
  | .float x => x

/-- The score that is stored. -/
def read_stored : JsonTree Number → Option F64
  | .number n => some (as_f64 n)
  | .string s =>
    if s = "inf" ∨ s = "+inf" then some .infinity
    else if s = "-inf" then some .negInfinity
    else none
  | _ => none

def serialize (z : ZSet) : JsonTree Number :=
  .array (z.order.toList.map fun r => .array [.string (ofLex r).2, stored (ofLex r).1])

def read_pair : JsonTree Number → Option (String × F64)
  | .array [.string member, score] => (read_stored score).map fun score => (member, score)
  | _ => none

/-- A sorted set of these pairs, inserted one after the other. -/
def of_pairs (pairs : List (String × F64)) : ZSet := pairs.foldl (fun z p => (z.insert p.1 p.2).2) {}

def deserialize : JsonTree Number → Option ZSet
  | .array pairs => (pairs.mapM read_pair).map of_pairs
  | _ => none

section

variable (reread : F64 → Number)

/-- A number as it is read back, where a finite score is read as `reread` has it. -/
def read_back : Number → Number
  | .float x => reread x
  | n => n

/-- A sorted set written to a snapshot and loaded again. -/
def reload (z : ZSet) : Option ZSet := deserialize (z.serialize.renumber (read_back reread))

end

/-- What the reader of decimals promises: a finite number, at most one place away. -/
structure Promise (reread : F64 → Number) : Prop where
  near : ∀ x : F64, x.isFinite = true →
    (as_f64 (reread x)).isFinite = true ∧ ((as_f64 (reread x)).numKey - x.numKey).natAbs ≤ 1

/-- Every member has the same score, and the members their order. -/
def Survives (z z' : ZSet) : Prop :=
  (∀ member : String, z'.scores[member]? = z.scores[member]?) ∧
    z'.order.toList.map (fun r => (ofLex r).2) = z.order.toList.map fun r => (ofLex r).2

/-! ## What is loaded -/

/-- A score once it is read back. -/
def back (reread : F64 → Number) (score : F64) : F64 :=
  if score.isFinite then as_f64 (reread score) else score

/-- A score that is neither infinite nor no number is finite. -/
theorem isFinite_of_ne {x : F64} (hNumber : x.isNaN = false) (hInf : x ≠ .infinity) (hNegInf : x ≠ .negInfinity) :
    x.isFinite = true := by
  have hMag := F64.isNaN_eq_false.mp hNumber
  rw [F64.isFinite, decide_eq_true_eq]
  by_contra hNot
  have hTop : x.mag = F64.infMag := by omega
  have hFields : F64.infinity.mag = F64.infMag ∧ F64.negInfinity.mag = F64.infMag ∧
      F64.infinity.neg = false ∧ F64.negInfinity.neg = true := by decide
  cases hNeg : x.neg with
  | false => exact hInf (F64.ext_mag (hNeg.trans hFields.2.2.1.symm) (hTop.trans hFields.1.symm))
  | true => exact hNegInf (F64.ext_mag (hNeg.trans hFields.2.2.2.symm) (hTop.trans hFields.2.1.symm))

theorem read_stored_back (reread : F64 → Number) {x : F64} (hNumber : x.isNaN = false) :
    read_stored ((stored x).renumber (read_back reread)) = some (back reread x) := by
  have hInfinite : F64.infinity.isFinite = false ∧ F64.negInfinity.isFinite = false := by decide
  unfold stored
  split_ifs with hInf hNegInf
  · subst hInf
    rw [back, hInfinite.1]
    rfl
  · subst hNegInf
    rw [back, hInfinite.2]
    rfl
  · rw [back, if_pos (isFinite_of_ne hNumber hInf hNegInf)]
    rfl

theorem renumber_items_map {A : Type} (g : Number → Number) (f : A → JsonTree Number) (l : List A) :
    JsonTree.renumber_items g (l.map f) = l.map fun a => (f a).renumber g := by
  induction l with
  | nil => rfl
  | cons a l ih => rw [List.map_cons, JsonTree.renumber_items, ih, List.map_cons]

/-- The pairs that are loaded. -/
def pairs_back (reread : F64 → Number) (z : ZSet) : List (String × F64) :=
  z.order.toList.map fun r => ((ofLex r).2, back reread (ofLex r).1)

variable {z : ZSet} {reread : F64 → Number}

theorem Agrees.isNaN (h : z.Agrees) {r : Ranked} (hIn : r ∈ z.order.toList) : (ofLex r).1.isNaN = false :=
  (h.numbers _ _ ((h.pairs (ofLex r).1 (ofLex r).2).mp ((BTreeSet.mem_toList _ _).mp hIn))).1

/-- What is loaded are the members with their scores read back. -/
theorem reload_eq (h : z.Agrees) : reload reread z = some (of_pairs (pairs_back reread z)) := by
  have hPairs (l : List Ranked) (hNumber : ∀ r ∈ l, (ofLex r).1.isNaN = false) :
      (l.map fun r => JsonTree.renumber (read_back reread) (.array [.string (ofLex r).2, stored (ofLex r).1])).mapM
        read_pair = some (l.map fun r => ((ofLex r).2, back reread (ofLex r).1)) := by
    induction l with
    | nil => rfl
    | cons r l ih =>
      obtain ⟨hHead, hTail⟩ := List.forall_mem_cons.mp hNumber
      have hPair : read_pair (JsonTree.renumber (read_back reread) (.array [.string (ofLex r).2, stored (ofLex r).1])) =
          some ((ofLex r).2, back reread (ofLex r).1) := by
        show (read_stored ((stored (ofLex r).1).renumber (read_back reread))).map _ = _
        rw [read_stored_back reread hHead]
        rfl
      rw [List.map_cons, List.mapM_cons, hPair, ih hTail]
      rfl
  rw [reload, serialize, JsonTree.renumber, renumber_items_map, deserialize, hPairs _ fun r hIn => h.isNaN hIn]
  rfl

/-- Loading the text of a sorted set is loading it with its numbers read back. -/
theorem reload_text {numerals : Numerals Number} (hReads : ∀ x : F64, x.isFinite = true → numerals.Reads (.float x) (reread x))
    (h : z.Agrees) : (JsonTree.from_text numerals none (z.serialize.write numerals)).bind deserialize = reload reread z := by
  have hProper : z.serialize.Proper fun n => numerals.Reads n (read_back reread n) := by
    rw [serialize, JsonTree.Proper, JsonTree.properItems_iff]
    intro item hItem
    obtain ⟨r, hIn, rfl⟩ := List.mem_map.mp hItem
    have hStored : (stored (ofLex r).1).Proper fun n => numerals.Reads n (read_back reread n) := by
      unfold stored
      split_ifs with hInf hNegInf
      · rw [JsonTree.Proper]
        trivial
      · rw [JsonTree.Proper]
        trivial
      · rw [JsonTree.Proper]
        exact hReads _ (isFinite_of_ne (h.isNaN hIn) hInf hNegInf)
    rw [JsonTree.Proper, JsonTree.ProperItems, JsonTree.ProperItems, JsonTree.ProperItems, JsonTree.Proper]
    exact ⟨trivial, hStored, trivial⟩
  rw [JsonTree.from_text_write hProper none, reload]
  rfl

theorem of_pairs_append (l : List (String × F64)) (member : String) (score : F64) :
    of_pairs (l ++ [(member, score)]) = ((of_pairs l).insert member score).2 := by
  rw [of_pairs, List.foldl_append]
  rfl

/-- Inserting pairs one after the other leaves each member the score of its pair. -/
theorem get_of_pairs {l : List (String × F64)} (hNodup : (l.map Prod.fst).Nodup) (member : String) (score : F64) :
    (of_pairs l).scores[member]? = some score ↔ ∃ x, (member, x) ∈ l ∧ x.canonical = score := by
  -- from the right, as the pairs are inserted
  induction l using List.reverseRecOn with
  | nil => simp [of_pairs]
  | append_singleton l p ih =>
    obtain ⟨m, x⟩ := p
    rw [List.map_append, List.nodup_append] at hNodup
    obtain ⟨hLeft, -, hApart⟩ := hNodup
    rw [of_pairs_append, scores_insert, BTreeMap.get_insert]
    by_cases hEq : m = member
    · subst hEq
      rw [if_pos rfl]
      -- the last pair is the only one of its member
      have hOnly (y : F64) (hIn : (m, y) ∈ l ++ [(m, x)]) : y = x := by
        rcases List.mem_append.mp hIn with hIn | hIn
        · exact absurd rfl (hApart m (List.mem_map.mpr ⟨_, hIn, rfl⟩) m List.mem_cons_self)
        · exact (Prod.mk.inj (List.mem_singleton.mp hIn)).2
      constructor
      · intro hGet
        exact ⟨x, List.mem_append_right _ List.mem_cons_self, Option.some.inj hGet⟩
      · rintro ⟨y, hIn, rfl⟩
        rw [hOnly y hIn]
    · rw [if_neg hEq, ih hLeft]
      constructor
      · rintro ⟨y, hIn, hScore⟩
        exact ⟨y, List.mem_append_left _ hIn, hScore⟩
      · rintro ⟨y, hIn, hScore⟩
        rcases List.mem_append.mp hIn with hIn | hIn
        · exact ⟨y, hIn, hScore⟩
        · exact absurd (Prod.mk.inj (List.mem_singleton.mp hIn)).1.symm hEq

theorem agrees_of_pairs {l : List (String × F64)} (h : ∀ p ∈ l, p.2.isNaN = false) : (of_pairs l).Agrees :=
  List.foldlRecOn l _ agrees_new fun _ hZ p hIn => hZ.insert p.1 (h p hIn)

/-! ## What survives -/

theorem names_pairs_back (h : z.Agrees) : ((pairs_back reread z).map Prod.fst).Nodup := by
  have hNames : (pairs_back reread z).map Prod.fst =
      (z.order.toList.map fun r => ((ofLex r).2, (ofLex r).1)).map Prod.fst := by
    rw [pairs_back, List.map_map, List.map_map]
    rfl
  rw [hNames, (h.perm.map Prod.fst).nodup_iff]
  exact BTreeMap.nodup_keys _

/-- The score a member has once it is loaded. -/
theorem get_reloaded (h : z.Agrees) (member : String) (score : F64) :
    (of_pairs (pairs_back reread z)).scores[member]? = some score ↔
      ∃ x, z.scores[member]? = some x ∧ (back reread x).canonical = score := by
  rw [get_of_pairs (names_pairs_back h)]
  constructor
  · rintro ⟨y, hIn, rfl⟩
    obtain ⟨r, hListed, hEq⟩ := List.mem_map.mp hIn
    obtain ⟨rfl, rfl⟩ := Prod.mk.inj hEq
    exact ⟨(ofLex r).1, (h.pairs _ _).mp ((BTreeSet.mem_toList _ _).mp hListed), rfl⟩
  · rintro ⟨x, hGet, rfl⟩
    exact ⟨back reread x, List.mem_map.mpr ⟨toLex (x, member),
      (BTreeSet.mem_toList _ _).mpr ((h.pairs _ _).mpr hGet), rfl⟩, rfl⟩

theorem order_eq {z' : ZSet} (h : z.Agrees) (h' : z'.Agrees)
    (hScores : ∀ member : String, z'.scores[member]? = z.scores[member]?) : z'.order.toList = z.order.toList := by
  refine congrArg _ (BTreeSet.ext_mem fun r => ?_)
  have hMem := h'.pairs (ofLex r).1 (ofLex r).2
  rw [hScores, ← h.pairs] at hMem
  exact hMem

theorem mag_negZero {x : F64} (hNumber : x.isNaN = false) (h : x.eq .zero = true) : x.mag = 0 := by
  have hZero : F64.zero.isNaN = false ∧ F64.zero.numKey = 0 := by decide
  simp only [F64.eq, hNumber, hZero, Bool.not_false, Bool.true_and, beq_iff_eq] at h
  unfold F64.numKey at h
  split at h <;> omega

theorem canonical_eq_self {x : F64} (hNumber : x.isNaN = false) (hNotNeg : x ≠ .negZero) : x.canonical = x := by
  unfold F64.canonical
  split
  · next hZero =>
    have hMag := mag_negZero hNumber hZero
    have hFields : F64.zero.mag = 0 ∧ F64.zero.neg = false := by decide
    have hNeg : x.neg = false := by
      rw [Bool.eq_false_iff]
      exact fun hNeg => F64.ne_negZero_iff.mp hNotNeg hNeg hMag
    exact (F64.ext_mag (hNeg.trans hFields.2.symm) (hMag.trans hFields.1.symm)).symm
  · rfl

theorem isNaN_of_isFinite {x : F64} (h : x.isFinite = true) : x.isNaN = false := by
  rw [F64.isFinite, decide_eq_true_eq] at h
  exact F64.isNaN_eq_false.mpr h.le

theorem isNaN_back (hPromise : Promise reread) {x : F64} (h : x.isNaN = false) : (back reread x).isNaN = false := by
  unfold back
  split
  · next hFinite => exact isNaN_of_isFinite (hPromise.near x hFinite).1
  · exact h

/-- A set survives exactly when its finite scores are read back as equal numbers: a zero may
come back with a sign, and loses it when it is inserted. -/
theorem survives_iff (h : z.Agrees) (hPromise : Promise reread) :
    (∃ z', reload reread z = some z' ∧ Survives z z') ↔
      ∀ (member : String) (x : F64), z.scores[member]? = some x → x.isFinite = true →
        (as_f64 (reread x)).canonical = x := by
  constructor
  · rintro ⟨z', hReload, hScores, -⟩ member x hGet hFinite
    rw [reload_eq h, Option.some_inj] at hReload
    subst hReload
    obtain ⟨y, hGet', hBack⟩ := (get_reloaded h member x).mp ((hScores member).trans hGet)
    rw [hGet, Option.some_inj] at hGet'
    subst hGet'
    rwa [back, if_pos hFinite] at hBack
  · intro hExact
    -- each score is read back as it was, so inserting them gives the same map
    have hScores (member : String) : (of_pairs (pairs_back reread z)).scores[member]? = z.scores[member]? := by
      refine Option.ext fun score => ?_
      rw [get_reloaded h]
      have hSame (x : F64) (hGet : z.scores[member]? = some x) : (back reread x).canonical = x := by
        obtain ⟨hNumber, hNotNeg⟩ := h.numbers member x hGet
        unfold back
        split
        · next hFinite => exact hExact member x hGet hFinite
        · exact canonical_eq_self hNumber hNotNeg
      constructor
      · rintro ⟨x, hGet, rfl⟩
        rw [hSame x hGet]
        exact hGet
      · intro hGet
        exact ⟨score, hGet, hSame score hGet⟩
    -- and the map decides the order
    have hAgrees : (of_pairs (pairs_back reread z)).Agrees := by
      refine agrees_of_pairs fun p hIn => ?_
      obtain ⟨r, hListed, rfl⟩ := List.mem_map.mp hIn
      exact isNaN_back hPromise (h.isNaN hListed)
    exact ⟨_, reload_eq h, hScores, by rw [order_eq h hAgrees hScores]⟩

/-- A reader that keeps its promise may read any one finite number as the one beside it. -/
theorem promise_beside {x y : F64} (hY : y.isFinite = true) (hNear : (y.numKey - x.numKey).natAbs ≤ 1) :
    Promise fun z => .float (if z = x then y else z) where
  near z hZ := by
    show (if z = x then y else z).isFinite = true ∧ ((if z = x then y else z).numKey - z.numKey).natAbs ≤ 1
    split
    · next hEq => exact ⟨hY, hEq ▸ hNear⟩
    · refine ⟨hZ, ?_⟩
      rw [Int.sub_self]
      decide

/-- **A sorted set survives a snapshot exactly when each finite score is read back as an equal
number.** Whatever a reader that keeps its promise does, that is when no score is finite. -/
theorem reload_exact (h : z.Agrees) :
    (∀ reread, Promise reread → ((∃ z', reload reread z = some z' ∧ Survives z z') ↔
      ∀ (member : String) (x : F64), z.scores[member]? = some x → x.isFinite = true →
        (as_f64 (reread x)).canonical = x)) ∧
    ((∀ reread, Promise reread → ∃ z', reload reread z = some z' ∧ Survives z z') ↔
      ∀ (member : String) (x : F64), z.scores[member]? = some x → x.isFinite = false) := by
  refine ⟨fun reread hPromise => survives_iff h hPromise, fun hAll member x hGet => ?_,
    fun hNone reread hPromise => (survives_iff h hPromise).mpr fun member x hGet hFinite =>
      Bool.noConfusion ((hNone member x hGet).symm.trans hFinite)⟩
  by_contra hNot
  have hFinite : x.isFinite = true := by simpa using hNot
  obtain ⟨hBeside, hStep⟩ := F64.beside_finite hFinite
  have hPromise := promise_beside hBeside hStep.le
  have hRead := (survives_iff h hPromise).mp (hAll _ hPromise) member x hGet hFinite
  rw [as_f64, if_pos rfl] at hRead
  rw [← F64.numKey_canonical x.beside, hRead, Int.sub_self] at hStep
  exact absurd hStep (by decide)

/-! ## A score that moves -/

/-- The number 0.9452706955539223. -/
def odd_score : F64 := .ofMag false 0x3fee3fa85468ae3c

/-- The next one, 0.9452706955539224. -/
def even_score : F64 := .ofMag false 0x3fee3fa85468ae3d

/-- The digits of the first are one more than an even number past 2^53, and read as that plus two. -/
def misread (x : F64) : Number := .float (if x = odd_score then even_score else x)

/-- A member at each: `b` before `a`. -/
def apart : ZSet := of_pairs [("b", odd_score), ("a", even_score)]

theorem promise_misread_odd : Promise misread :=
  promise_beside (x := odd_score) (y := even_score) (by decide +kernel) (by decide +kernel)

theorem agrees_apart : apart.Agrees :=
  agrees_of_pairs (List.forall_mem_cons.mpr ⟨by decide, List.forall_mem_cons.mpr ⟨by decide, fun _ h => nomatch h⟩⟩)

/-- Loaded again, the two members have one score, and `a` comes first. -/
theorem reload_apart : Promise misread ∧ apart.Agrees ∧
    (reload misread apart).map (fun z => (z.scores["b"]?, z.order.toList.map fun r => (ofLex r).2)) =
      some (some even_score, ["a", "b"]) ∧
    (apart.scores["b"]?, apart.order.toList.map fun r => (ofLex r).2) = (some odd_score, ["b", "a"]) ∧
    ¬∃ z', reload misread apart = some z' ∧ Survives apart z' := by
  have hAfter : (reload misread apart).map (fun z => (z.scores["b"]?, z.order.toList.map fun r => (ofLex r).2)) =
      some (some even_score, ["a", "b"]) := by decide
  have hBefore : (apart.scores["b"]?, apart.order.toList.map fun r => (ofLex r).2) = (some odd_score, ["b", "a"]) := by
    decide
  refine ⟨promise_misread_odd, agrees_apart, hAfter, hBefore, ?_⟩
  rintro ⟨z', hReload, -, hOrder⟩
  rw [hReload, Option.map_some, Option.some_inj, hOrder, (Prod.mk.inj hBefore).2] at hAfter
  exact absurd (Prod.mk.inj hAfter).2 (by decide)

/-- The theorem at these two members: the reader that misreads one loses them, and one that
reads every finite number as it is keeps them. -/
theorem reload_exact_apart :
    (¬∃ z', reload misread apart = some z' ∧ Survives apart z') ∧
    (∃ z', reload .float apart = some z' ∧ Survives apart z') ∧
    ¬∀ reread, Promise reread → ∃ z', reload reread apart = some z' ∧ Survives apart z' := by
  have hScore : apart.scores["b"]? = some odd_score ∧ odd_score.isFinite = true ∧
      (as_f64 (misread odd_score)).canonical ≠ odd_score := by decide +kernel
  have hExact : Promise .float := ⟨fun x hFinite => ⟨hFinite, by rw [as_f64, Int.sub_self]; decide⟩⟩
  obtain ⟨hReader, hAll⟩ := reload_exact agrees_apart
  refine ⟨fun hKept => ?_, (hReader .float hExact).mpr fun member x hGet _ => ?_, fun hKept => ?_⟩
  · exact hScore.2.2 ((hReader misread promise_misread_odd).mp hKept "b" odd_score hScore.1 hScore.2.1)
  · exact canonical_eq_self (agrees_apart.numbers member x hGet).1 (agrees_apart.numbers member x hGet).2
  · exact Bool.noConfusion ((hAll.mp hKept "b" odd_score hScore.1).symm.trans hScore.2.1)

end ZSet

end Postino
