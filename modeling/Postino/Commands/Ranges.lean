import Postino.Commands.Written
import Postino.Db.Snapshot
import Postino.Db.ZSet

/-!
# Ranges

Lists and sorted sets are read and trimmed by index, and sorted sets by score.

* `range_bounds_exact` — the elements an index range comes to;
* `range_bounds_checked_eq` — its arithmetic never overflows;
* `zrange_eq` — every form of ZRANGE lists a slice of the order;
* `halves_agree` — sorted sets as a whole;
* `ranges_agree` — reading and trimming go by the same indexes.
-/

namespace Postino

open Lib

namespace Exec

open Fallible

/-! ## Indexes -/

/-- An index, counted from the end when it is negative. -/
def counted (index : Int) (len : Nat) : Int := if index < 0 then len + index else index

/-- The elements whose index lies from `start` to `stop`. -/
def indexed {α : Type} (start stop : Int) (l : List α) : List α :=
  (l.zipIdx.filter fun e =>
    max (counted start l.length) 0 ≤ e.2 ∧ (e.2 : Int) ≤ min (counted stop l.length) (l.length - 1)).map Prod.fst

/-- The elements between two positions, by dropping and taking. -/
theorem zipIdx_between {α : Type} (a b : Nat) (l : List α) (n : Nat) :
    ((l.zipIdx n).filter fun e => a ≤ e.2 ∧ e.2 ≤ b).map Prod.fst = (l.drop (a - n)).take (b + 1 - max a n) := by
  induction l generalizing n with
  | nil => simp
  | cons x l ih =>
    rw [List.zipIdx_cons, List.filter_cons]
    by_cases hLow : a ≤ n
    · have hDrop : a - n = 0 := by omega
      have hDropNext : a - (n + 1) = 0 := by omega
      rw [hDrop, List.drop_zero]
      by_cases hHigh : n ≤ b
      · have hTake : b + 1 - max a n = (b + 1 - max a (n + 1)) + 1 := by omega
        rw [if_pos (by simp [hLow, hHigh]), List.map_cons, ih, hDropNext, List.drop_zero, hTake, List.take_succ_cons]
      · have hTake : b + 1 - max a n = 0 := by omega
        have hTakeNext : b + 1 - max a (n + 1) = 0 := by omega
        rw [if_neg (by simp [hHigh]), ih, hTake, hTakeNext, List.take_zero, List.take_zero]
    · have hDrop : a - n = (a - (n + 1)) + 1 := by omega
      have hMax : max a n = max a (n + 1) := by omega
      rw [if_neg (by simp [hLow]), ih, hDrop, List.drop_succ_cons, hMax]

/-- **The elements an index range comes to.** -/
theorem range_bounds_exact {α : Type} (start stop : Int) (l : List α) :
    (match range_bounds start stop l.length with
      | some (a, b) => slice a b l
      | none => []) = indexed start stop l := by
  have hIndexed : indexed start stop l = (l.zipIdx.filter fun e =>
      max (counted start l.length) 0 ≤ e.2 ∧ (e.2 : Int) ≤ min (counted stop l.length) (l.length - 1)).map Prod.fst := rfl
  have hStart : (if start < 0 then max (l.length + start) 0 else start) = max (counted start l.length) 0 := by
    unfold counted
    split <;> omega
  have hStop : 0 < l.length → (if stop < 0 then l.length + stop else min stop (l.length - 1)) =
      min (counted stop l.length) (l.length - 1) := by
    intro _
    unfold counted
    by_cases hNeg : stop < 0
    · rw [if_pos hNeg, if_pos hNeg]
      omega
    · rw [if_neg hNeg, if_neg hNeg]
  unfold range_bounds
  dsimp only
  rw [hStart, hIndexed]
  by_cases hEmpty : l.length = 0
  · obtain rfl := List.length_eq_zero_iff.mp hEmpty
    rw [if_neg (by simp)]
    rfl
  · rw [hStop (by omega)]
    generalize hLo : max (counted start l.length) 0 = lo
    generalize hHi : min (counted stop l.length) ((l.length : Int) - 1) = hi
    by_cases hRange : lo ≤ hi ∧ lo < l.length
    · rw [if_pos hRange]
      have hSame : (fun e : α × Nat => decide (lo ≤ e.2 ∧ (e.2 : Int) ≤ hi)) =
          fun e => decide (lo.toNat ≤ e.2 ∧ e.2 ≤ hi.toNat) := by
        funext e
        exact decide_eq_decide.mpr (by omega)
      rw [hSame, zipIdx_between]
      show (l.drop lo.toNat).take (hi.toNat - lo.toNat + 1) = _
      rw [Nat.sub_zero]
      congr 1
      omega
    · rw [if_neg hRange]
      refine (List.map_eq_nil_iff.mpr (List.filter_eq_nil_iff.mpr fun e hIn => ?_)).symm
      have hLt := List.snd_lt_of_mem_zipIdx hIn
      rw [decide_eq_true_eq]
      omega

/-- `range_bounds`, each sum checked to fit a signed 64-bit number. -/
def range_bounds_checked (start stop : Int) (len : Nat) : Option (Option (Nat × Nat)) := do
  let len ← checked len
  let start ← (if start < 0 then (checked (len + start)).map (max · 0) else some start)
  let stop ← (if stop < 0 then checked (len + stop) else (checked (len - 1)).map (min stop))
  pure (if start ≤ stop ∧ start < len then some (start.toNat, stop.toNat) else none)

theorem checked_eq {n : Int} (h : -(2 ^ 63) ≤ n ∧ n < 2 ^ 63) : checked n = some n := if_pos h

/-- **No index arithmetic overflows.** -/
theorem range_bounds_checked_eq {start stop : Int} {len : Nat} (hStart : checked start = some start)
    (hStop : checked stop = some stop) (hLen : len < 2 ^ 63) :
    range_bounds_checked start stop len = some (range_bounds start stop len) := by
  have hFits {n : Int} (h : checked n = some n) : -(2 ^ 63) ≤ n ∧ n < 2 ^ 63 := by
    unfold checked at h
    split at h
    · assumption
    · cases h
  obtain ⟨hStartLow, hStartHigh⟩ := hFits hStart
  obtain ⟨hStopLow, hStopHigh⟩ := hFits hStop
  have hFrom : (if start < 0 then (checked (len + start)).map (max · 0) else some start) =
      some (if start < 0 then max (len + start) 0 else start) := by
    split
    · rw [checked_eq (by omega), Option.map_some]
    · rfl
  have hTo : (if stop < 0 then checked (len + stop) else (checked (len - 1)).map (min stop)) =
      some (if stop < 0 then len + stop else min stop (len - 1)) := by
    split
    · rw [checked_eq (by omega)]
    · rw [checked_eq (by omega), Option.map_some]
  unfold range_bounds_checked range_bounds
  have hLenFits : checked (len : Int) = some (len : Int) := checked_eq (by omega)
  rw [hLenFits]
  simp only [Option.bind_eq_bind, Option.bind_some, hFrom, hTo]
  rfl

/-- An argument read as an integer fits 64 bits. -/
theorem int_fits {s : String} {n : Int} (h : int s = .ok n) : checked n = some n := by
  cases hParse : parse_i64 s with
  | none =>
    have hError : Postino.int s = .error NOT_INT := by rw [Postino.int, hParse]
    rw [int, said_error hError] at h
    cases h
  | some m =>
    have hOk : Postino.int s = .ok m := by rw [Postino.int, hParse]
    rw [int, said_ok hOk] at h
    cases h
    unfold parse_i64 at hParse
    obtain ⟨-, hFits⟩ := Option.filter_eq_some_iff.mp hParse
    simp only [Bool.and_eq_true, decide_eq_true_eq] at hFits
    exact checked_eq hFits

/-! ## Replies -/

theorem replies_collected (items : List Reply) : Replies (Db.looked (collect_within items)) items := by
  unfold Replies
  split
  · next hFits => rw [collect_within_ok hFits, Db.looked]
  · next hLong =>
    obtain ⟨f, hError⟩ := collect_within_error (not_le.mp hLong)
    rw [hError]
    rfl

/-- The keyspace once the collection under `key` holds `v`: one that has become empty goes with
its key. -/
def left (keys : BTreeMap String Entry) (key : String) (e : Entry) (v : Value) : BTreeMap String Entry :=
  if v.is_empty_collection then keys.erase key else keys.insert key { e with value := v }

/-! ## Sorted sets, in parts -/

theorem scores_remove_ranked (members : List String) (z : ZSet) (m : String) :
    (remove_ranked members z).2.scores[m]? = if m ∈ members then none else z.scores[m]? := by
  induction members generalizing z with
  | nil => simp [remove_ranked]
  | cons member members ih =>
    simp only [remove_ranked]
    rw [ih, ZSet.scores_remove, BTreeMap.get_erase]
    by_cases hEq : member = m
    · simp [hEq]
    · simp [hEq, Ne.symm hEq]

theorem agrees_remove_ranked (members : List String) {z : ZSet} (h : z.Agrees) :
    (remove_ranked members z).2.Agrees := by
  induction members generalizing z with
  | nil => exact h
  | cons member members ih => exact ih (h.remove member)

/-- What is left of the order once some of its members are dropped. -/
theorem order_remove_ranked {z : ZSet} (h : z.Agrees) {doomed : List Ranked} (hDoomed : ∀ r ∈ doomed, r ∈ z.order.toList) :
    (remove_ranked (doomed.map fun r => (ofLex r).2) z).2.order.toList = z.order.toList.filter (· ∉ doomed) := by
  have hAgrees := agrees_remove_ranked (doomed.map fun r => (ofLex r).2) h
  refine eq_of_sorted (BTreeSet.sorted_toList _) ((BTreeSet.sorted_toList _).filter _) fun r => ?_
  have hPair := hAgrees.pairs (ofLex r).1 (ofLex r).2
  rw [scores_remove_ranked] at hPair
  rw [BTreeSet.mem_toList, List.mem_filter, BTreeSet.mem_toList, decide_eq_true_eq]
  refine hPair.trans ?_
  have hWas := h.pairs (ofLex r).1 (ofLex r).2
  -- a member has one score, so that its name says which pair goes
  have hNamed : (ofLex r).2 ∈ doomed.map (fun r => (ofLex r).2) → z.scores[(ofLex r).2]? = some (ofLex r).1 →
      r ∈ doomed := by
    intro hIn hGet
    obtain ⟨r', hIn', hName⟩ := List.mem_map.mp hIn
    have hGet' := (h.pairs (ofLex r').1 (ofLex r').2).mp ((BTreeSet.mem_toList _ _).mp (hDoomed r' hIn'))
    rw [hName, hGet] at hGet'
    have hEq : r = r' := ofLex_inj.mp (Prod.ext (Option.some.inj hGet') hName.symm)
    rwa [hEq]
  constructor
  · intro hGet
    split at hGet
    · cases hGet
    · next hOut => exact ⟨hWas.mpr hGet, fun hIn => hOut (List.mem_map.mpr ⟨r, hIn, rfl⟩)⟩
  · rintro ⟨hIn, hOut⟩
    rw [if_neg fun hName => hOut (hNamed hName (hWas.mp hIn))]
    exact hWas.mp hIn

theorem by_rank_eq {z : ZSet} (h : z.Agrees) (start stop : Int) : by_rank start stop z = indexed start stop z.order.toList := by
  unfold by_rank
  rw [← h.length_order]
  exact range_bounds_exact start stop z.order.toList

theorem mem_indexed {α : Type} {start stop : Int} {l : List α} {a : α} (h : a ∈ indexed start stop l) : a ∈ l := by
  obtain ⟨e, hIn, rfl⟩ := List.mem_map.mp h
  exact (List.mem_zipIdx' (List.mem_filter.mp hIn).1).2 ▸ List.getElem_mem _

theorem score_bound_number {s : String} {bound : F64 × Bool} (h : score_bound s = .ok bound) : bound.1.isNaN = false := by
  have hFloat {s : String} {x : F64} (h : float s = .ok x) : x.isNaN = false := by
    unfold float at h
    dsimp only at h
    split at h
    · split at h
      · cases h
      · next hNot =>
        cases h
        exact Bool.eq_false_iff.mpr hNot
    · cases h
  unfold score_bound at h
  dsimp only at h
  split at h
  · next hRead =>
    cases h
    exact hFloat hRead
  · cases h

/-! ## Reading and trimming -/

section

variable [Json]

theorem keys_pruned {db db' : Db} {key : String} {e : Entry} {v : Value}
    (h : db'.keys = db.keys.insert key { e with value := v }) : (db'.prune key).keys = left db.keys key e v := by
  have hGet : db'.keys[key]? = some { e with value := v } := by rw [h, BTreeMap.get_insert, if_pos rfl]
  rw [Db.keys_prune, hGet, Option.any_some, h]
  unfold left
  split
  · refine BTreeMap.ext_get fun k => ?_
    rw [BTreeMap.get_erase, BTreeMap.get_erase, BTreeMap.get_insert]
    split <;> rfl
  · rfl

/-- What an edit of a live collection that may empty it comes to. -/
structure Trimmed (db : Db) (key : String) (e : Entry) (v : Value) (reply : Reply) (changed : Prop)
    (result : Outcome × Db) : Prop where
  reply : result.1.reply = reply
  dirty : result.1.dirty = true ↔ changed
  keys : result.2.keys = left db.keys key e v

variable {db : Db} {ctx : Ctx} {key start stop : String} {a b : Int} {e : Entry}

theorem exec_lrange (hStart : int start = .ok a) (hStop : int stop = .ok b) (hGet : db.get key ctx.now = some e)
    {list : List String} (hValue : e.value = .list list) :
    Replies (db.exec ["LRANGE", key, start, stop] ctx).1.reply ((indexed a b list).map .bulk) := by
  have hRun : db.run ["LRANGE", key, start, stop] ctx =
      (Handler.looks lrange).run ctx ["LRANGE", key, start, stop] { db } := by
    have hName : Name.of_ ["LRANGE", key, start, stop] = "LRANGE" := show Name.of_ ["LRANGE"] = _ by decide
    exact db.run_of_name ctx hName (by decide)
  rw [Db.exec_looks hRun]
  have hRef : list_ref db key ctx.now = .ok (some list) := by
    simp only [list_ref, typed_ref, hGet, hValue, Typed.list]
  have hRange : lrange ctx db ["LRANGE", key, start, stop] = collect_within ((indexed a b list).map .bulk) := by
    show (int start >>= fun start => int stop >>= fun stop => list_ref db key ctx.now >>= fun list => _) = _
    rw [hStart, hStop, hRef, ← range_bounds_exact]
    simp only [bind, Except.bind, Option.bind_some]
    cases range_bounds a b list.length with
    | none => rfl
    | some range => rfl
  show Replies (Db.looked (lrange ctx db ["LRANGE", key, start, stop])) _
  rw [hRange]
  exact replies_collected _

theorem exec_ltrim (hStart : int start = .ok a) (hStop : int stop = .ok b) (hGet : db.get key ctx.now = some e)
    {list : List String} (hValue : e.value = .list list) :
    Trimmed db key e (.list (indexed a b list)) .ok (indexed a b list ≠ list)
      (db.exec ["LTRIM", key, start, stop] ctx) := by
  have hTrim : trim_list a b list = indexed a b list := by
    rw [← range_bounds_exact]
    unfold trim_list
    cases hRange : range_bounds a b list.length with
    | none => rfl
    | some range =>
      obtain ⟨low, high⟩ := range
      have hLe := (range_bounds_spec hRange).1
      show (list.take (high + 1)).drop low = (list.drop low).take (high - low + 1)
      rw [List.drop_take]
      congr 1
      omega
  have hSublist : (indexed a b list).Sublist list := by
    rw [← hTrim]
    unfold trim_list
    split
    · exact (List.drop_sublist _ _).trans (List.take_sublist _ _)
    · exact List.nil_sublist _
  have hRun : db.run ["LTRIM", key, start, stop] ctx =
      (Handler.changes ltrim).run ctx ["LTRIM", key, start, stop] { db } := by
    have hName : Name.of_ ["LTRIM", key, start, stop] = "LTRIM" := show Name.of_ ["LTRIM"] = _ by decide
    exact db.run_of_name ctx hName (by decide)
  have hSat : Sat (ltrim ctx ["LTRIM", key, start, stop]) { db }
      (fun reply r => reply = .ok ∧ (r.dirty = true ↔ indexed a b list ≠ list) ∧
        r.db.keys = left db.keys key e (.list (indexed a b list)))
      (fun _ => False) := by
    show Sat (attempt (int start) >>= fun start => attempt (int stop) >>= fun stop => _) { db } _ _
    rw [hStart, hStop]
    refine sat_edit _ (fun ⟨f, hError⟩ => ?_) (fun hNone => ?_) fun e' v db' hGet' hValue' hKeys => ?_
    · simp only [typed_ref, hGet, hValue, Typed.list] at hError
      cases hError
    · rw [hGet] at hNone
      cases hNone
    · dsimp only at hGet'
      rw [hGet] at hGet'
      cases hGet'
      obtain rfl : list = v := Value.list.inj (hValue.symm.trans hValue')
      rw [hTrim] at hKeys ⊢
      by_cases hSame : (indexed a b list).length = list.length
      · have hEq : indexed a b list = list := hSublist.eq_of_length hSame
        rw [decide_eq_false (not_not.mpr hSame)]
        exact ⟨rfl, by simp [hEq], keys_pruned hKeys⟩
      · have hNe : indexed a b list ≠ list := fun hEq => hSame (congrArg _ hEq)
        rw [decide_eq_true hSame]
        exact ⟨rfl, by simp [hNe], keys_pruned hKeys⟩
  rcases Db.exec_of_sat hRun (sat_changes hSat) with ⟨reply, r, ⟨rfl, hDirty, hKeys⟩, hExec⟩ | ⟨f, r, hFalse, -⟩
  · rw [hExec]
    exact ⟨rfl, by simpa [Reply.ok, Reply.is_error] using hDirty, hKeys⟩
  · exact hFalse.elim

theorem exec_zremrangebyrank (hStart : int start = .ok a) (hStop : int stop = .ok b)
    (hGet : db.get key ctx.now = some e) {z : ZSet} (hValue : e.value = .zset z) (hAgrees : z.Agrees) :
    ∃ z' : ZSet, z'.Agrees ∧
      z'.order.toList = z.order.toList.filter (· ∉ indexed a b z.order.toList) ∧
      Trimmed db key e (.zset z') (.of_usize (indexed a b z.order.toList).length)
        (indexed a b z.order.toList ≠ []) (db.exec ["ZREMRANGEBYRANK", key, start, stop] ctx) := by
  have hRank := by_rank_eq hAgrees a b
  set doomed := indexed a b z.order.toList with hDoomed
  refine ⟨(remove_ranked (doomed.map fun r => (ofLex r).2) z).2, agrees_remove_ranked _ hAgrees,
    order_remove_ranked hAgrees fun r hIn => mem_indexed hIn, ?_⟩
  have hRun : db.run ["ZREMRANGEBYRANK", key, start, stop] ctx =
      (Handler.changes zremrangebyrank).run ctx ["ZREMRANGEBYRANK", key, start, stop] { db } := by
    have hName : Name.of_ ["ZREMRANGEBYRANK", key, start, stop] = "ZREMRANGEBYRANK" :=
      show Name.of_ ["ZREMRANGEBYRANK"] = _ by decide
    exact db.run_of_name ctx hName (by decide)
  have hSat : Sat (zremrangebyrank ctx ["ZREMRANGEBYRANK", key, start, stop]) { db }
      (fun reply r => reply = .of_usize doomed.length ∧ (r.dirty = true ↔ doomed ≠ []) ∧
        r.db.keys = left db.keys key e (.zset (remove_ranked (doomed.map fun r => (ofLex r).2) z).2))
      (fun _ => False) := by
    show Sat (attempt (int start) >>= fun start => attempt (int stop) >>= fun stop => _) { db } _ _
    rw [hStart, hStop]
    refine sat_edit _ (fun ⟨f, hError⟩ => ?_) (fun hNone => ?_) fun e' v db' hGet' hValue' hKeys => ?_
    · simp only [typed_ref, hGet, hValue, Typed.zset] at hError
      cases hError
    · rw [hGet] at hNone
      cases hNone
    · dsimp only at hGet'
      rw [hGet] at hGet'
      cases hGet'
      obtain rfl : z = v := Value.zset.inj (hValue.symm.trans hValue')
      simp only [remove_doomed, hRank] at hKeys ⊢
      show Sat (prune key >>= fun _ => provided (0 < doomed.length) (touch ctx key "zremrangebyrank") >>= fun _ =>
        pure (Reply.of_usize doomed.length)) { db := db' } _ _
      by_cases hNil : doomed = []
      · have hZero : decide (0 < doomed.length) = false := by simp [hNil]
        rw [hZero]
        exact ⟨rfl, by simp [hNil], keys_pruned hKeys⟩
      · have hSome : decide (0 < doomed.length) = true := decide_eq_true (List.length_pos_iff.mpr hNil)
        rw [hSome]
        exact ⟨rfl, by simp [hNil], keys_pruned hKeys⟩
  rcases Db.exec_of_sat hRun (sat_changes hSat) with ⟨reply, r, ⟨rfl, hDirty, hKeys⟩, hExec⟩ | ⟨f, r, hFalse, -⟩
  · rw [hExec]
    exact ⟨rfl, by simpa [Reply.of_usize, Reply.is_error] using hDirty, hKeys⟩
  · exact hFalse.elim

/-! ## Listing a sorted set -/

/-- ZRANGE and its older forms: whether each takes all options, goes by score, and goes from
the high end. -/
def zrange_forms : List (String × Bool × Bool × Bool) :=
  [("ZRANGE", true, false, false), ("ZREVRANGE", false, false, true), ("ZRANGEBYSCORE", false, true, false),
   ("ZREVRANGEBYSCORE", false, true, true)]

/-- The order, from its low end or its high one. -/
def turned (o : RangeOptions) (order : List Ranked) : List Ranked := if o.rev then order.reverse else order

/-- The part of what was found that LIMIT leaves. -/
def limited (o : RangeOptions) (found : List Ranked) : List Ranked :=
  match o.limit with
  | none => found
  | some (offset, count) => if 0 ≤ count then (found.drop offset).take count.toNat else found.drop offset

def rows (o : RangeOptions) (picked : List Ranked) : List Reply :=
  picked.flatMap fun r =>
    if o.with_scores then [.bulk (ofLex r).2, .bulk (format_float (ofLex r).1)] else [.bulk (ofLex r).2]

/-- What each form replies: the members of a range of indexes, or of a range of scores. -/
structure Lists (z : ZSet) (o : RangeOptions) (low high : String) (reply : Reply) : Prop where
  by_index : o.by_score = false → o.limit = none → ∀ a b, int low = .ok a → int high = .ok b →
    Replies reply (rows o (indexed a b (turned o z.order.toList)))
  by_score : o.by_score = true → ∀ min max, score_bound (if o.rev then high else low) = .ok min →
    score_bound (if o.rev then low else high) = .ok max →
    Replies reply (rows o (limited o (turned o
      (z.order.toList.filter fun r => ZSet.from_ min (ofLex r).1 && ZSet.up_to max (ofLex r).1))))

omit [Json] in
theorem zrange_lists (hGet : db.get key ctx.now = some e) {z : ZSet} (hValue : e.value = .zset z)
    (hAgrees : z.Agrees) {plain by_score rev : Bool} {o : RangeOptions} {head low high : String}
    {options : List String} (hOptions : range_options plain options { by_score, rev } = .ok o) :
    Lists z o low high (Db.looked (zrange plain by_score rev ctx db (head :: key :: low :: high :: options))) := by
  have hRef : zset_ref db key ctx.now = .ok (some z) := by
    simp only [zset_ref, typed_ref, hGet, hValue, Typed.zset]
  have hRange : zrange plain by_score rev ctx db (head :: key :: low :: high :: options) =
      (range_picked o low high z).bind fun picked => collect_within (rows o picked) := by
    unfold zrange
    dsimp only
    rw [hOptions, hRef]
    rfl
  constructor
  · intro hIndex hNoLimit a b hLow hHigh
    have hPicked : range_picked o low high z = .ok (indexed a b (turned o z.order.toList)) := by
      unfold range_picked
      rw [hIndex, hNoLimit, if_neg Bool.false_ne_true, if_neg (by simp), hLow, hHigh, ← range_bounds_exact]
      have hLength : (turned o z.order.toList).length = z.len := by
        unfold turned
        split <;> simp [hAgrees.length_order]
      rw [hLength]
      rfl
    rw [hRange, hPicked]
    exact replies_collected _
  · intro hScore min max hMin hMax
    have hPicked : range_picked o low high z = .ok (limited o (turned o
        (z.order.toList.filter fun r => ZSet.from_ min (ofLex r).1 && ZSet.up_to max (ofLex r).1))) := by
      rw [← ZSet.by_score_exact hAgrees (score_bound_number hMin) (score_bound_number hMax)]
      unfold range_picked
      rw [hScore, if_pos rfl, hMin, hMax]
      unfold limited turned
      cases o.limit <;> rfl
    rw [hRange, hPicked]
    exact replies_collected _

/-! ## The two results -/

/-- **Reading and trimming go by the same indexes.** LTRIM leaves what LRANGE lists, and
ZREMRANGEBYRANK removes what ZRANGE lists. A listing of more than one response may carry is
refused. -/
theorem ranges_agree (hStart : int start = .ok a) (hStop : int stop = .ok b) (hGet : db.get key ctx.now = some e) :
    (∀ list, e.value = .list list →
      Replies (db.exec ["LRANGE", key, start, stop] ctx).1.reply ((indexed a b list).map .bulk) ∧
      Trimmed db key e (.list (indexed a b list)) .ok (indexed a b list ≠ list)
        (db.exec ["LTRIM", key, start, stop] ctx)) ∧
    (∀ z, e.value = .zset z → z.Agrees →
      Replies (db.exec ["ZRANGE", key, start, stop] ctx).1.reply
        ((indexed a b z.order.toList).map fun r => .bulk (ofLex r).2) ∧
      ∃ z' : ZSet, z'.Agrees ∧
        z'.order.toList = z.order.toList.filter (· ∉ indexed a b z.order.toList) ∧
        Trimmed db key e (.zset z') (.of_usize (indexed a b z.order.toList).length)
          (indexed a b z.order.toList ≠ []) (db.exec ["ZREMRANGEBYRANK", key, start, stop] ctx)) ∧
    ∀ len < 2 ^ 63, range_bounds_checked a b len = some (range_bounds a b len) ∧
      ∀ low high, range_bounds a b len = some (low, high) → low ≤ high ∧ high < len := by
  refine ⟨fun list hValue => ⟨exec_lrange hStart hStop hGet hValue, exec_ltrim hStart hStop hGet hValue⟩,
    fun z hValue hAgrees => ⟨?_, exec_zremrangebyrank hStart hStop hGet hValue hAgrees⟩,
    fun len hLen => ⟨range_bounds_checked_eq (int_fits hStart) (int_fits hStop) hLen, fun _ _ => range_bounds_spec⟩⟩
  have hRun : db.run ["ZRANGE", key, start, stop] ctx =
      (Handler.looks (zrange true false false)).run ctx ["ZRANGE", key, start, stop] { db } := by
    have hName : Name.of_ ["ZRANGE", key, start, stop] = "ZRANGE" := show Name.of_ ["ZRANGE"] = _ by decide
    exact db.run_of_name ctx hName (by decide)
  have hOptions : range_options true [] { by_score := false, rev := false } =
      .ok { by_score := false, rev := false } := rfl
  have hLists : Lists z _ start stop (Db.looked (zrange true false false ctx db ["ZRANGE", key, start, stop])) :=
    zrange_lists hGet hValue hAgrees hOptions
  rw [Db.exec_looks hRun]
  have hReply := hLists.by_index rfl rfl a b hStart hStop
  rw [List.map_eq_flatMap]
  exact hReply

end

/-- A context for a command run at time zero. -/
def plain_ctx : Ctx where
  now := 0
  replay := false
  blocking := false
  access := ⟨true, .all⟩
  max_keys := 1000000
  max_elements := 1000000
  events := false
  random := .first

/-- The end of a list, by an index counted from its end. -/
theorem ranges_agree_tail :
    let _ : Json := plainJson
    let db : Db := { keys := (∅ : BTreeMap String Entry).insert "l" ⟨.list ["a", "b", "c"], none⟩ }
    (db.exec ["LTRIM", "l", "1", "-1"] plain_ctx).2.keys =
      left db.keys "l" ⟨.list ["a", "b", "c"], none⟩ (.list (indexed 1 (-1) ["a", "b", "c"])) := by
  intro _ db
  have hGet : db.get "l" plain_ctx.now = some ⟨.list ["a", "b", "c"], none⟩ := by
    simp [db, Db.get, Entry.expired]
  have hStart : int "1" = .ok 1 := said_ok (by decide)
  have hStop : int "-1" = .ok (-1) := said_ok (by decide)
  exact ((ranges_agree hStart hStop hGet).1 _ rfl).2.keys

theorem indexed_all {α : Type} (l : List α) : indexed 0 (-1) l = l := by
  have hAll : l.zipIdx.filter (fun e => max (counted 0 l.length) 0 ≤ e.2 ∧
      (e.2 : Int) ≤ min (counted (-1) l.length) (l.length - 1)) = l.zipIdx := by
    refine List.filter_eq_self.mpr fun e hIn => ?_
    have hLt := List.snd_lt_of_mem_zipIdx hIn
    rw [decide_eq_true_eq]
    unfold counted
    simp only [Int.lt_irrefl, if_false, if_true, Int.reduceNeg, Int.reduceLT]
    omega
  unfold indexed
  rw [hAll]
  exact List.zipIdx_map_fst 0 l

theorem sizes_replicate (n : Nat) (s : String) :
    Reply.sizes ((List.replicate n s).map .bulk) = n * (s.utf8ByteSize + 4) := by
  induction n with
  | zero => simp [Reply.sizes]
  | succ n ih =>
    rw [List.replicate_succ, List.map_cons, Reply.sizes, ih, Reply.size]
    ring

/-- A list too long for one response is not listed. -/
theorem lrange_long [Json] {list : List String} (hLong : MAX_REPLY_BYTES < Reply.sizes (list.map .bulk)) :
    (Db.exec { keys := (∅ : BTreeMap String Entry).insert "l" ⟨.list list, none⟩ } ["LRANGE", "l", "0", "-1"]
      plain_ctx).1.reply ≠ .array ((indexed 0 (-1) list).map .bulk) := by
  intro hReply
  have hGet : Db.get { keys := (∅ : BTreeMap String Entry).insert "l" ⟨.list list, none⟩ } "l" plain_ctx.now =
      some ⟨.list list, none⟩ := by
    simp [Db.get, Entry.expired]
  have hStart : int "0" = .ok 0 := said_ok (by decide)
  have hStop : int "-1" = .ok (-1) := said_ok (by decide)
  have hValue : (⟨.list list, none⟩ : Entry).value = .list list := rfl
  have hRefused := exec_lrange hStart hStop hGet hValue
  unfold Replies at hRefused
  rw [indexed_all] at hRefused hReply
  rw [if_neg (not_le.mpr hLong), hReply] at hRefused
  cases hRefused

/-- A million texts of sixty-four bytes make too long a reply. -/
theorem lrange_refused :
    let _ : Json := plainJson
    let list := List.replicate 1000000 "0123456789abcdef0123456789abcdef0123456789abcdef0123456789abcdef"
    (Db.exec { keys := (∅ : BTreeMap String Entry).insert "l" ⟨.list list, none⟩ } ["LRANGE", "l", "0", "-1"]
      plain_ctx).1.reply ≠ .array ((indexed 0 (-1) list).map .bulk) := by
  refine @lrange_long plainJson _ ?_
  rw [sizes_replicate]
  decide +kernel

end Exec

end Postino
