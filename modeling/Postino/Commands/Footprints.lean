import Postino.Commands.Effects

/-!
# The keys each command changes

For each command that changes keys: which keys it may change, and that what it leaves is
less of what they held (`shrinks`), or what they held or a value of one kind (`becomes`).
-/

namespace Postino

open Lib

namespace Exec

open Fallible

/-! ## Elements removed -/

theorem size_remove_fields (fields : List String) (hash : BTreeMap String String) :
    (remove_fields fields hash).2.size ≤ hash.size := by
  induction fields generalizing hash with
  | nil => exact le_rfl
  | cons f fields ih => exact (ih (hash.erase f)).trans Std.ExtTreeMap.size_erase_le

theorem size_remove_members (members : List String) (set : BTreeSet String) :
    (remove_members members set).2.size ≤ set.size := by
  induction members generalizing set with
  | nil => exact le_rfl
  | cons m members ih => exact (ih (set.erase m)).trans Std.ExtTreeSet.size_erase_le

theorem len_remove (zset : ZSet) (member : String) : (zset.remove member).2.len ≤ zset.len := by
  unfold ZSet.remove
  split
  · exact Std.ExtTreeMap.size_erase_le
  · exact le_rfl

theorem len_remove_ranked (members : List String) (zset : ZSet) :
    (remove_ranked members zset).2.len ≤ zset.len := by
  induction members generalizing zset with
  | nil => exact le_rfl
  | cons m members ih => exact (ih (zset.remove m).2).trans (len_remove zset m)

theorem len_pop_ranked (min : Bool) (n : Nat) (zset : ZSet) : (pop_ranked min n zset).2.len ≤ zset.len := by
  induction n generalizing zset with
  | zero => exact le_rfl
  | succ n ih =>
    simp only [pop_ranked]
    split
    · exact le_rfl
    · exact (ih _).trans (len_remove zset _)

/-- An item popped was one of the list. -/
theorem length_pop (left : Bool) (list : List String) :
    (pop left list).2.length + (pop left list).1.toList.length = list.length := by
  cases list with
  | nil => rfl
  | cons item list => cases left <;> simp [pop]

theorem length_pop_many (left : Bool) (n : Nat) (list : List String) :
    (pop_many left n list).2.length ≤ list.length := by
  induction n generalizing list with
  | zero => exact le_rfl
  | succ n ih =>
    have hPop := length_pop left list
    simp only [pop_many]
    rcases hItem : pop left list with ⟨_ | item, rest⟩
    · rw [hItem] at hPop
      simp at hPop
      exact hPop.le
    · rw [hItem] at hPop
      simp at hPop
      exact (ih rest).trans (by omega)

theorem length_remove_first (value : String) (max : Nat) (list : List String) :
    (remove_first value max list).2.length ≤ list.length := by
  fun_induction remove_first value max list with
  | case1 => exact le_rfl
  | case2 => exact le_rfl
  | case3 max v list hEq ih =>
    simp_all only [List.length_cons]
    omega
  | case4 max v list hNe ih =>
    simp_all only [List.length_cons]
    omega

theorem length_remove_equal (limit : Int) (value : String) (list : List String) :
    (remove_equal limit value list).2.length ≤ list.length := by
  unfold remove_equal
  dsimp only
  split
  · exact length_remove_first _ _ _
  · rw [List.length_reverse, ← @List.length_reverse _ list]
    exact length_remove_first _ _ _

theorem length_trim_list (start stop : Int) (list : List String) :
    (trim_list start stop list).length ≤ list.length := by
  unfold trim_list
  split
  · simp only [List.length_drop, List.length_take]
    omega
  · exact Nat.zero_le _

/-! ## Streams cut down -/

theorem remove_entries_onward (ids : List Id) (s : Stream) :
    s.Onward (remove_entries ids s).2 ∧ (remove_entries ids s).2.entries.size ≤ s.entries.size ∧
      (remove_entries ids s).2.groups = s.groups := by
  induction ids generalizing s with
  | nil => exact ⟨.refl s, le_rfl, rfl⟩
  | cons id ids ih =>
    unfold remove_entries
    split
    · next hIn =>
      obtain ⟨fields, hGet⟩ := (BTreeMap.contains_iff_get _ _).mp hIn
      obtain ⟨hOn, hSize, hGroups⟩ :=
        ih { s with entries := s.entries.erase id, max_deleted := max s.max_deleted id }
      exact ⟨(Stream.onward_erase hGet).trans hOn, hSize.trans Std.ExtTreeMap.size_erase_le, hGroups⟩
    · exact ih s

theorem trim_onward (trim : Trim) (s : Stream) :
    s.Onward (trim.apply s).2 ∧ (trim.apply s).2.entries.size ≤ s.entries.size ∧
      (trim.apply s).2.groups = s.groups := by
  have hDrop (n : Nat) : s.Onward (s.drop_oldest n) ∧ (s.drop_oldest n).entries.size ≤ s.entries.size ∧
      (s.drop_oldest n).groups = s.groups := by
    refine ⟨Stream.onward_drop_oldest n s, ?_, Stream.groups_drop_oldest n s⟩
    rw [← Std.ExtTreeMap.length_toList, Stream.toList_drop_oldest, List.length_drop,
      Std.ExtTreeMap.length_toList]
    exact Nat.sub_le _ _
  cases trim with
  | maxlen n => exact hDrop _
  | minid id => exact hDrop _

theorem ack_all_pending (ids : List Id) (record : Group) :
    (ack_all ids record).2.pending.size ≤ record.pending.size ∧
      (ack_all ids record).2.consumers = record.consumers := by
  induction ids generalizing record with
  | nil => exact ⟨le_rfl, rfl⟩
  | cons id ids ih =>
    obtain ⟨hSize, hConsumers⟩ := ih { record with pending := record.pending.erase id }
    exact ⟨hSize.trans Std.ExtTreeMap.size_erase_le, hConsumers⟩

end Exec

/-! ## What is less -/

namespace Value

/-- A stream that went on with no more entries, and its groups. -/
theorem less_of_onward {s t : Stream} (h : s.Onward t ∧ t.entries.size ≤ s.entries.size ∧ t.groups = s.groups) :
    (stream s).Less (stream t) := by
  obtain ⟨hOn, hSize, hGroups⟩ := h
  refine ⟨hSize, ?_, ?_, ?_, fun u hU => ?_⟩
  · show t.groups.size ≤ s.groups.size
    rw [hGroups]
  · rw [consumers_stream, consumers_stream, hGroups]
  · rw [pending_stream, pending_stream, hGroups]
  · cases hU
    exact ⟨s, rfl, hOn⟩

/-- A group in place of one that holds no less. -/
theorem less_of_group {s : Stream} {group : String} {record record' : Group}
    (hGet : s.groups[group]? = some record) (hConsumers : record'.consumers.size ≤ record.consumers.size)
    (hPending : record'.pending.size ≤ record.pending.size) (hSeated : record.Seated → record'.Seated) :
    (stream s).Less (stream { s with groups := s.groups.insert group record' }) := by
  refine ⟨le_rfl, ?_, ?_, ?_, fun u hU => ?_⟩
  · show (s.groups.insert group record').size ≤ s.groups.size
    have hIn : s.groups.contains group = true := (BTreeMap.contains_iff_get _ _).mpr ⟨record, hGet⟩
    rw [Std.ExtTreeMap.size_insert, if_pos hIn]
  · rw [consumers_stream, consumers_stream]
    have hTotal := BTreeMap.total_insert (fun g : Group => g.consumers.size) record' hGet
    dsimp only
    omega
  · rw [pending_stream, pending_stream]
    have hTotal := BTreeMap.total_insert (fun g : Group => g.pending.size) record' hGet
    dsimp only
    omega
  · cases hU
    exact ⟨s, rfl, .of_groups fun h => h.insert (hSeated (h group record hGet))⟩

/-- Without a group. -/
theorem less_without_group (s : Stream) (group : String) :
    (stream s).Less (stream { s with groups := s.groups.erase group }) := by
  have hTotal (f : Group → Nat) : BTreeMap.total f (s.groups.erase group) ≤ BTreeMap.total f s.groups :=
    BTreeMap.total_le f fun k => by
      rw [BTreeMap.get_erase]
      split
      · exact Nat.zero_le _
      · exact le_rfl
  refine ⟨le_rfl, Std.ExtTreeMap.size_erase_le, ?_, ?_, fun u hU => ?_⟩
  · rw [consumers_stream, consumers_stream]
    exact hTotal _
  · rw [pending_stream, pending_stream]
    exact hTotal _
  · cases hU
    exact ⟨s, rfl, .of_groups fun h => h.erase group⟩

end Value

namespace Leeway

/-- Less of what was held. -/
theorem shrinks_of_less {v w : Value} (x y : Option Nat) (h : v.Less w) :
    shrinks.rel (some ⟨v, x⟩) (some ⟨w, y⟩) := fun _ hE => by
  cases hE
  exact ⟨_, rfl, h⟩

/-- Anything but a stream. -/
theorem stores_of {w : Value} (o : Option Entry) (x : Option Nat) (h : w.is_stream = false) :
    stores.rel o (some ⟨w, x⟩) := fun _ hE => by
  cases hE
  exact .inr h

/-- A stream that went on. -/
theorem streams_of_onward {s t : Stream} (x y : Option Nat) (h : s.Onward t) :
    streams.rel (some ⟨.stream s, x⟩) (some ⟨.stream t, y⟩) := fun _ u hE hU => by
  cases hE
  cases hU
  exact ⟨_, s, rfl, rfl, h⟩

end Leeway

section

variable [Json]

namespace Exec

open Fallible Leeway

/-! ## Keys removed, and when they expire -/

/-- The argument a command names its key in. -/
def key_at (i : Nat) (argv : List String) : Set String := {key | argv[i]? = some key}

omit [Json] in
theorem mem_key_at_one {head key : String} {rest : List String} : key ∈ key_at 1 (head :: key :: rest) := rfl

theorem del_loop_steps {C : Leeway} {W : Set String} (ctx : Ctx) (keys : List String) (removed : Nat)
    (h : ∀ key ∈ keys, key ∈ W) : Steps W C (del_loop ctx keys removed) := by
  induction keys generalizing removed with
  | nil => exact steps_pure _
  | cons key keys ih =>
    obtain ⟨hKey, hRest⟩ := List.forall_mem_cons.mp h
    refine steps_bind (steps_look _) fun live => steps_bind (steps_delete hKey _) fun _ => ?_
    split
    · exact steps_bind (steps_touch hKey ctx _) fun _ => ih _ hRest
    · exact ih _ hRest

theorem del_steps {C : Leeway} (ctx : Ctx) (argv : List String) :
    Steps {key | key ∈ argv.tail} C (del ctx argv) := by
  unfold del
  split
  · exact steps_bind (del_loop_steps ctx _ 0 fun _ => id) fun _ => steps_pure _
  · exact steps_fail _

omit [Json] in
/-- A value with another expiry is the same value. -/
theorem shrinks_expires (e : Entry) (x : Option Nat) : shrinks.rel (some e) (some { e with expires := x }) :=
  shrinks_of_less e.expires x (.refl e.value)

theorem expire_steps (name : String) (ctx : Ctx) (argv : List String) :
    Steps (key_at 1 argv) shrinks (expire name ctx argv) := by
  unfold expire
  split
  · next head key amount flags =>
    have hKey : key ∈ key_at 1 (head :: key :: amount :: flags) := mem_key_at_one
    refine steps_bind (steps_attempt _) fun amount => steps_bind (steps_attempt _) fun time => ?_
    refine steps_bind (steps_attempt _) fun flags => ?_
    refine steps_get_mut_then hKey (steps_pure _) fun e r hGet => ?_
    dsimp only
    split
    · exact steps_pure _ r
    · split
      · refine steps_bind (steps_delete hKey _) (fun _ => ?_) r
        exact steps_bind (steps_touch hKey ctx _) fun _ => steps_pure _
      · refine moves_bind_from (changed_put hKey hGet ((Db.keys_deadline _ _ _).trans (Db.keys_put _ _ _))
          (shrinks_expires e _)) fun _ r' _ => ?_
        exact steps_bind (steps_touch hKey ctx _) (fun _ => steps_pure _) r'
  · exact steps_fail _

theorem persist_steps (ctx : Ctx) (argv : List String) :
    Steps (key_at 1 argv) shrinks (persist ctx argv) := by
  unfold persist
  split
  · next name key =>
    have hKey : key ∈ key_at 1 [name, key] := mem_key_at_one
    refine steps_get_mut_then hKey (steps_pure _) fun e r hGet => ?_
    dsimp only
    split
    · refine moves_bind_from (changed_put hKey hGet (Db.keys_put _ _ _) (shrinks_expires e none))
        fun _ r' _ => ?_
      exact steps_bind (steps_touch hKey ctx _) (fun _ => steps_pure _) r'
    · exact steps_pure _ r
  · exact steps_fail _

theorem getex_steps (ctx : Ctx) (argv : List String) : Steps (key_at 1 argv) shrinks (getex ctx argv) := by
  unfold getex
  split
  · next head key options =>
    have hKey : key ∈ key_at 1 (head :: key :: options) := mem_key_at_one
    refine steps_bind (steps_reads _) fun value => steps_bind (steps_attempt _) fun option => ?_
    split
    · next expires s =>
      refine steps_get_mut_then hKey (steps_pure _) fun e r hGet => ?_
      refine moves_bind_from (changed_put hKey hGet ((Db.keys_note _ _ _).trans (Db.keys_put _ _ _))
        (shrinks_expires e expires)) fun _ r' _ => ?_
      exact steps_bind (steps_touch hKey ctx _) (fun _ => steps_pure _) r'
    · exact steps_pure _
  · exact steps_fail _

theorem take_steps {W : Set String} {C : Leeway} {key : String} (hKey : key ∈ W) (ctx : Ctx) :
    Steps W C (take ctx key) :=
  steps_bind (steps_take_key hKey) fun _ => steps_touch hKey ctx _

theorem getdel_steps {C : Leeway} (ctx : Ctx) (argv : List String) :
    Steps (key_at 1 argv) C (getdel ctx argv) := by
  unfold getdel
  split
  · refine steps_bind (steps_reads _) fun old => ?_
    exact steps_bind (steps_provided (take_steps mem_key_at_one ctx)) fun _ => steps_pure _
  · exact steps_fail _

theorem delifeq_steps {C : Leeway} (ctx : Ctx) (argv : List String) :
    Steps (key_at 1 argv) C (delifeq ctx argv) := by
  unfold delifeq
  split
  · refine steps_bind (steps_reads _) fun value => ?_
    exact steps_bind (steps_provided (take_steps mem_key_at_one ctx)) fun _ => steps_pure _
  · exact steps_fail _

/-! ## Elements removed -/

omit [Json] in
/-- No more elements of a collection that is no stream. -/
theorem shrinks_elements {v w : Value} (x : Option Nat) (hW : w.is_stream = false)
    (h : w.elements ≤ v.elements) : shrinks.rel (some ⟨v, x⟩) (some ⟨w, x⟩) :=
  shrinks_of_less x x (Value.less_of_elements hW h)

theorem hdel_steps (ctx : Ctx) (argv : List String) : Steps (key_at 1 argv) shrinks (hdel ctx argv) := by
  unfold hdel
  split
  · refine steps_remove_counted mem_key_at_one _ fun v x => ?_
    exact shrinks_elements x rfl (size_remove_fields _ v)
  · exact steps_fail _

theorem lrem_steps (ctx : Ctx) (argv : List String) : Steps (key_at 1 argv) shrinks (lrem ctx argv) := by
  unfold lrem
  split
  · refine steps_bind (steps_attempt _) fun limit => steps_remove_counted mem_key_at_one _ fun v x => ?_
    exact shrinks_elements x rfl (length_remove_equal limit _ v)
  · exact steps_fail _

theorem srem_steps (ctx : Ctx) (argv : List String) : Steps (key_at 1 argv) shrinks (srem ctx argv) := by
  unfold srem
  split
  · refine steps_remove_counted mem_key_at_one _ fun v x => ?_
    exact shrinks_elements x rfl (size_remove_members _ v)
  · exact steps_fail _

theorem zrem_steps (ctx : Ctx) (argv : List String) : Steps (key_at 1 argv) shrinks (zrem ctx argv) := by
  unfold zrem
  split
  · refine steps_remove_counted mem_key_at_one _ fun v x => ?_
    exact shrinks_elements x rfl (len_remove_ranked _ v)
  · exact steps_fail _

theorem zremrangebyscore_steps (ctx : Ctx) (argv : List String) :
    Steps (key_at 1 argv) shrinks (zremrangebyscore ctx argv) := by
  unfold zremrangebyscore
  split
  · refine steps_bind (steps_attempt _) fun min => steps_bind (steps_attempt _) fun max => ?_
    refine steps_remove_counted mem_key_at_one _ fun v x => ?_
    exact shrinks_elements x rfl (len_remove_ranked _ v)
  · exact steps_fail _

theorem zremrangebyrank_steps (ctx : Ctx) (argv : List String) :
    Steps (key_at 1 argv) shrinks (zremrangebyrank ctx argv) := by
  unfold zremrangebyrank
  split
  · refine steps_bind (steps_attempt _) fun start => steps_bind (steps_attempt _) fun stop => ?_
    refine steps_remove_counted mem_key_at_one _ fun v x => ?_
    exact shrinks_elements x rfl (len_remove_ranked _ v)
  · exact steps_fail _

theorem lpop_steps (left : Bool) (ctx : Ctx) (argv : List String) :
    Steps (key_at 1 argv) shrinks (lpop left ctx argv) := by
  unfold lpop
  split
  · next head key options =>
    have hKey : key ∈ key_at 1 (head :: key :: options) := mem_key_at_one
    refine steps_bind (steps_refuse _ _) fun _ => steps_bind (steps_attempt _) fun wanted => ?_
    refine steps_bind (steps_edit hKey _ fun v x => ?_) fun popped => ?_
    · exact shrinks_elements x rfl (length_pop_many left _ v)
    · cases popped with
      | none => exact steps_pure _
      | some popped =>
        refine steps_bind (steps_prune hKey) fun _ => ?_
        exact steps_bind (steps_provided (steps_touch hKey ctx _)) fun _ => steps_pure _
  · exact steps_fail _

theorem lset_steps (ctx : Ctx) (argv : List String) : Steps (key_at 1 argv) shrinks (lset ctx argv) := by
  unfold lset
  split
  · next name key index value =>
    have hKey : key ∈ key_at 1 [name, key, index, value] := mem_key_at_one
    refine steps_bind (steps_attempt _) fun index => ?_
    refine steps_bind (steps_edit hKey _ fun v x => shrinks_elements x rfl ?_) fun done => ?_
    · split
      · exact (List.length_set ..).le
      · exact le_rfl
    · cases done with
      | none => exact steps_fail _
      | some _ => exact steps_bind (steps_touch hKey ctx _) fun _ => steps_pure _
  · exact steps_fail _

theorem ltrim_steps (ctx : Ctx) (argv : List String) : Steps (key_at 1 argv) shrinks (ltrim ctx argv) := by
  unfold ltrim
  split
  · next name key start stop =>
    have hKey : key ∈ key_at 1 [name, key, start, stop] := mem_key_at_one
    refine steps_bind (steps_attempt _) fun start => steps_bind (steps_attempt _) fun stop => ?_
    refine steps_bind (steps_edit hKey _ fun v x => ?_) fun changed => ?_
    · exact shrinks_elements x rfl (length_trim_list start stop v)
    · cases changed with
      | none => exact steps_pure _
      | some changed =>
        refine steps_bind (steps_prune hKey) fun _ => ?_
        exact steps_bind (steps_provided (steps_touch hKey ctx _)) fun _ => steps_pure _
  · exact steps_fail _

/-- The keys of a command that ends with a timeout. -/
def all_but_last (argv : List String) : Set String := {key | key ∈ argv.tail.dropLast}

theorem blpop_keys_steps (left : Bool) (ctx : Ctx) {W : Set String} (keys : List String)
    (h : ∀ key ∈ keys, key ∈ W) : Steps W shrinks (blpop_keys left ctx keys) := by
  induction keys with
  | nil => exact steps_pure _
  | cons key keys ih =>
    obtain ⟨hKey, hRest⟩ := List.forall_mem_cons.mp h
    refine steps_bind (steps_edit hKey _ fun v x => shrinks_elements x rfl ?_) fun item => ?_
    · have hPop := length_pop left v
      show (pop left v).2.length ≤ v.length
      omega
    · split
      · exact ih hRest
      · refine steps_bind (steps_prune hKey) fun _ => steps_bind (steps_touch hKey ctx _) fun _ => ?_
        exact steps_bind (steps_journal_as _) fun _ => steps_pure _

theorem blpop_steps (left : Bool) (ctx : Ctx) (argv : List String) :
    Steps (all_but_last argv) shrinks (blpop left ctx argv) := by
  unfold blpop
  refine steps_bind (steps_refuse _ _) fun _ => steps_bind (steps_attempt _) fun timeout => ?_
  refine steps_bind (blpop_keys_steps left ctx _ fun _ => id) fun found => ?_
  split
  · exact steps_pure _
  · exact steps_bind (steps_wait ctx argv timeout) fun _ => steps_pure _

theorem spop_steps (ctx : Ctx) (argv : List String) : Steps (key_at 1 argv) shrinks (spop ctx argv) := by
  unfold spop
  split
  · next head key options =>
    have hKey : key ∈ key_at 1 (head :: key :: options) := mem_key_at_one
    refine steps_bind (steps_refuse _ _) fun _ => steps_bind (steps_attempt _) fun wanted => ?_
    refine steps_bind (steps_reads _) fun set => ?_
    split
    · exact steps_pure _
    · refine steps_bind (steps_attempt _) fun found => ?_
      split
      · exact steps_pure _
      · refine steps_bind (steps_edit hKey _ fun v x => ?_) fun done => ?_
        · exact shrinks_elements x rfl (size_remove_members found v)
        · refine steps_bind (steps_require done) fun _ => steps_bind (steps_prune hKey) fun _ => ?_
          refine steps_bind (steps_touch hKey ctx _) fun _ => ?_
          exact steps_bind (steps_journal_as _) fun _ => steps_pure _
  · exact steps_fail _

theorem zpop_steps (ctx : Ctx) {W : Set String} {key : String} (hKey : key ∈ W) (min : Bool) (n : Nat) :
    Steps W shrinks (zpop ctx key min n) := by
  unfold zpop
  refine steps_bind (steps_edit hKey _ fun v x => shrinks_elements x rfl (len_pop_ranked min n v)) fun popped => ?_
  cases popped with
  | none => exact steps_pure _
  | some popped =>
    refine steps_bind (steps_prune hKey) fun _ => ?_
    exact steps_bind (steps_provided (steps_touch hKey ctx _)) fun _ => steps_pure _

theorem zpop_one_steps (min : Bool) (ctx : Ctx) (argv : List String) :
    Steps (key_at 1 argv) shrinks (zpop_one min ctx argv) := by
  unfold zpop_one
  split
  · refine steps_bind (steps_refuse _ _) fun _ => steps_bind (steps_attempt _) fun n => ?_
    exact steps_bind (zpop_steps ctx mem_key_at_one min n) fun _ => steps_pure _
  · exact steps_fail _

theorem bzpop_keys_steps (min : Bool) (ctx : Ctx) {W : Set String} (keys : List String)
    (h : ∀ key ∈ keys, key ∈ W) : Steps W shrinks (bzpop_keys min ctx keys) := by
  induction keys with
  | nil => exact steps_pure _
  | cons key keys ih =>
    obtain ⟨hKey, hRest⟩ := List.forall_mem_cons.mp h
    refine steps_bind (steps_reads _) fun zset => ?_
    split
    · refine steps_bind (zpop_steps ctx hKey min 1) fun popped => ?_
      exact steps_bind (steps_journal_as _) fun _ => steps_pure _
    · exact ih hRest

theorem bzpop_steps (min : Bool) (ctx : Ctx) (argv : List String) :
    Steps (all_but_last argv) shrinks (bzpop min ctx argv) := by
  unfold bzpop
  refine steps_bind (steps_refuse _ _) fun _ => steps_bind (steps_attempt _) fun timeout => ?_
  refine steps_bind (bzpop_keys_steps min ctx _ fun _ => id) fun found => ?_
  split
  · exact steps_pure _
  · exact steps_bind (steps_wait ctx argv timeout) fun _ => steps_pure _

/-! ## Streams cut down -/

theorem xdel_steps (ctx : Ctx) (argv : List String) : Steps (key_at 1 argv) shrinks (xdel ctx argv) := by
  unfold xdel
  split
  · next head key id ids =>
    have hKey : key ∈ key_at 1 (head :: key :: id :: ids) := mem_key_at_one
    refine steps_bind (steps_attempt _) fun ids => ?_
    refine steps_bind (steps_edit hKey _ fun s x => ?_) fun removed => ?_
    · exact shrinks_of_less x x (Value.less_of_onward (remove_entries_onward ids s))
    · cases removed with
      | none => exact steps_pure _
      | some removed =>
        exact steps_bind (steps_provided (steps_touch hKey ctx _)) fun _ => steps_pure _
  · exact steps_fail _

theorem xtrim_steps (ctx : Ctx) (argv : List String) : Steps (key_at 1 argv) shrinks (xtrim ctx argv) := by
  unfold xtrim
  split
  · next head key kind threshold words =>
    have hKey : key ∈ key_at 1 (head :: key :: kind :: threshold :: words) := mem_key_at_one
    refine steps_bind (steps_attempt _) fun spec => ?_
    split
    refine steps_bind (steps_refuse _ _) fun _ => ?_
    refine steps_bind (steps_edit hKey _ fun s x => ?_) fun removed => ?_
    · exact shrinks_of_less x x (Value.less_of_onward (trim_onward _ s))
    · cases removed with
      | none => exact steps_pure _
      | some removed =>
        exact steps_bind (steps_provided (steps_touch hKey ctx _)) fun _ => steps_pure _
  · exact steps_fail _

omit [Json] in
/-- A group of a stream that holds no more of anything than it did. -/
theorem less_on_group {ε α : Type} {group : String} {absent : Except ε α} {f : Group → Except ε α × Group}
    (hConsumers : ∀ g, (f g).2.consumers.size ≤ g.consumers.size)
    (hPending : ∀ g, (f g).2.pending.size ≤ g.pending.size) (hSeated : ∀ g, g.Seated → (f g).2.Seated)
    (s : Stream) : (Value.stream s).Less (Value.stream (on_group group absent f s).2) := by
  unfold on_group
  split
  · exact .refl _
  · next record hGet => exact Value.less_of_group hGet (hConsumers record) (hPending record) (hSeated record)

theorem xack_steps (ctx : Ctx) (argv : List String) : Steps (key_at 1 argv) shrinks (xack ctx argv) := by
  unfold xack
  split
  · next head key group id ids =>
    have hKey : key ∈ key_at 1 (head :: key :: group :: id :: ids) := mem_key_at_one
    refine steps_bind (steps_attempt _) fun ids => ?_
    refine steps_bind (steps_edit hKey _ fun s x => shrinks_of_less x x ?_) fun acked => ?_
    · refine less_on_group (fun g => ?_) (fun g => (ack_all_pending ids g).1)
        (fun g => g.ack_all_seated ids) s
      rw [(ack_all_pending ids g).2]
    · cases acked with
      | none => exact steps_pure _
      | some acked => exact steps_bind (steps_provided (steps_mark hKey)) fun _ => steps_pure _
  · exact steps_fail _

/-! ## Strings stored -/

theorem store_string_steps {W : Set String} {key : String} (hKey : key ∈ W) (ctx : Ctx) (value : String)
    (expires : Option Nat) : Steps W stores (store_string ctx key value expires) := by
  have hString (o : Option Entry) : stores.rel o (some ⟨.string value, expires⟩) := stores_of o _ rfl
  refine steps_bind (steps_refuse _ _) fun _ => steps_bind (steps_look _) fun new => ?_
  refine steps_bind (steps_replace hKey hString) fun _ => ?_
  refine steps_bind (steps_provided ?_) fun _ => ?_
  · exact steps_bind (steps_within _) fun _ => steps_insert hKey hString
  · exact steps_bind (steps_of_same fun r => ⟨Db.keys_note _ _ _, rfl⟩) fun _ => steps_touch hKey ctx _

theorem write_string_keep_ttl_steps {W : Set String} {key : String} (hKey : key ∈ W) (ctx : Ctx)
    (value : String) : Steps W stores (write_string_keep_ttl ctx key value) := by
  refine steps_bind (steps_look _) fun expires => steps_bind (steps_within _) fun _ => ?_
  exact steps_insert hKey fun o => stores_of o expires rfl

theorem setnx_steps (ctx : Ctx) (argv : List String) : Steps (key_at 1 argv) stores (setnx ctx argv) := by
  unfold setnx
  split
  · refine steps_bind (steps_look _) fun held => ?_
    split
    · exact steps_pure _
    · exact steps_bind (store_string_steps mem_key_at_one ctx _ _) fun _ => steps_pure _
  · exact steps_fail _

theorem setex_steps (name : String) (ctx : Ctx) (argv : List String) :
    Steps (key_at 1 argv) stores (setex name ctx argv) := by
  unfold setex
  split
  · refine steps_bind (steps_attempt _) fun amount => steps_bind (steps_refuse _ _) fun _ => ?_
    split
    · exact steps_fail _
    · exact steps_bind (store_string_steps mem_key_at_one ctx _ _) fun _ => steps_pure _
  · exact steps_fail _

theorem getset_steps (ctx : Ctx) (argv : List String) : Steps (key_at 1 argv) stores (getset ctx argv) := by
  unfold getset
  split
  · refine steps_bind (steps_reads _) fun old => ?_
    exact steps_bind (store_string_steps mem_key_at_one ctx _ _) fun _ => steps_pure _
  · exact steps_fail _

theorem set_steps (ctx : Ctx) (argv : List String) : Steps (key_at 1 argv) stores (set ctx argv) := by
  unfold set
  split
  · refine steps_bind (steps_attempt _) fun o => ?_
    split
    · exact steps_bind (store_string_steps mem_key_at_one ctx _ _) fun _ => steps_pure _
    · refine steps_bind (steps_look _) fun current => steps_bind (steps_attempt _) fun old => ?_
      refine steps_bind (steps_provided ?_) fun _ => steps_pure _
      exact store_string_steps mem_key_at_one ctx _ _
  · exact steps_fail _

/-- The keys of a command that writes pairs. -/
def pair_keys (argv : List String) : Set String := {key | key ∈ (chunks argv.tail).map Prod.fst}

theorem store_pairs_steps {W : Set String} (ctx : Ctx) (pairs : List (String × String))
    (h : ∀ key ∈ pairs.map Prod.fst, key ∈ W) : Steps W stores (store_pairs ctx pairs) := by
  induction pairs with
  | nil => exact steps_pure ()
  | cons p pairs ih =>
    obtain ⟨hKey, hRest⟩ := List.forall_mem_cons.mp h
    exact steps_bind (store_string_steps hKey ctx p.2 none) fun _ => ih hRest

theorem mset_steps (name : String) (ctx : Ctx) (argv : List String) :
    Steps (pair_keys argv) stores (mset name ctx argv) := by
  unfold mset
  refine steps_bind (steps_refuse _ _) fun _ => steps_bind (steps_look _) fun db => ?_
  split
  · exact steps_pure _
  · split
    · exact steps_fail _
    · refine steps_bind (steps_within _) fun _ => ?_
      exact steps_bind (store_pairs_steps ctx _ fun _ => id) fun _ => steps_pure _

omit [Json] in
/-- Whatever was there, a value of a kind that is no stream. -/
theorem stores_new {T : Type} {K : Typed T} (h : ∀ t, (K.of_ t).is_stream = false) (o : Option Entry) :
    stores.rel o (some ⟨K.of_ K.new, none⟩) := stores_of o none (h _)

omit [Json] in
theorem stores_edit {T : Type} {K : Typed T} (h : ∀ t, (K.of_ t).is_stream = false) (v w : T) (x : Option Nat) :
    stores.rel (some ⟨K.of_ v, x⟩) (some ⟨K.of_ w, x⟩) := stores_of _ x (h w)

/-- A value that is no stream is changed, or made. -/
theorem stored_steps {T : Type} {K : Typed T} (h : ∀ t, (K.of_ t).is_stream = false) {W : Set String}
    {key : String} (hKey : key ∈ W) {α : Type} (ctx : Ctx) (f : T → Except Error α × T) :
    Steps W stores (edit_or_create K ctx key f) :=
  steps_edit_or_create hKey K (stores_new h) fun v x => stores_edit h v _ x

theorem append_steps (ctx : Ctx) (argv : List String) : Steps (key_at 1 argv) stores (append ctx argv) := by
  unfold append
  split
  · refine steps_bind (steps_reads _) fun current => steps_bind (steps_refuse _ _) fun _ => ?_
    refine steps_bind (stored_steps (fun _ => rfl) mem_key_at_one ctx _) fun len => ?_
    refine steps_bind (steps_require len) fun _ => ?_
    exact steps_bind (steps_touch mem_key_at_one ctx _) fun _ => steps_pure _
  · exact steps_fail _

theorem incr_steps {W : Set String} {key : String} (hKey : key ∈ W) (ctx : Ctx) (amount : Int) :
    Steps W stores (incr ctx key amount) := by
  unfold incr
  refine steps_bind (steps_reads _) fun current => steps_bind (steps_attempt _) fun current => ?_
  split
  · exact steps_fail _
  · refine steps_bind (write_string_keep_ttl_steps hKey ctx _) fun _ => ?_
    exact steps_bind (steps_touch hKey ctx _) fun _ => steps_pure _

theorem incr_one_steps (amount : Int) (ctx : Ctx) (argv : List String) :
    Steps (key_at 1 argv) stores (incr_one amount ctx argv) := by
  unfold incr_one
  split
  · exact incr_steps mem_key_at_one ctx amount
  · exact steps_fail _

theorem incrby_steps (negate : Bool) (ctx : Ctx) (argv : List String) :
    Steps (key_at 1 argv) stores (incrby negate ctx argv) := by
  unfold incrby
  split
  · refine steps_bind (steps_attempt _) fun amount => ?_
    split
    · exact steps_fail _
    · exact incr_steps mem_key_at_one ctx _
  · exact steps_fail _

theorem incrbyfloat_steps (ctx : Ctx) (argv : List String) :
    Steps (key_at 1 argv) stores (incrbyfloat ctx argv) := by
  unfold incrbyfloat
  split
  · refine steps_bind (steps_attempt _) fun amount => steps_bind (steps_reads _) fun current => ?_
    refine steps_bind (steps_attempt _) fun current => steps_bind (steps_refuse _ _) fun _ => ?_
    refine steps_bind (write_string_keep_ttl_steps mem_key_at_one ctx _) fun _ => ?_
    exact steps_bind (steps_touch mem_key_at_one ctx _) fun _ => steps_pure _
  · exact steps_fail _

/-! ## Elements stored -/

theorem hset_steps (name : String) (ctx : Ctx) (argv : List String) :
    Steps (key_at 1 argv) stores (hset name ctx argv) := by
  unfold hset
  refine steps_refuse_then fun hPass => ?_
  -- the key is there once the number of arguments is right
  have hKey : argv.getD 1 "" ∈ key_at 1 argv := by
    have hLen : 1 < argv.length := by
      have hNot : ¬argv.length < 4 := fun hLess => by simp [hLess] at hPass
      omega
    show argv[1]? = some (argv.getD 1 "")
    rw [List.getD_eq_getElem _ _ hLen, List.getElem?_eq_getElem hLen]
  refine steps_bind (steps_reads _) fun current => steps_bind (steps_within _) fun _ => ?_
  refine steps_bind (stored_steps (fun _ => rfl) hKey ctx _) fun added => ?_
  refine steps_bind (steps_require added) fun _ => ?_
  exact steps_bind (steps_touch hKey ctx _) fun _ => steps_pure _

theorem hsetnx_steps (ctx : Ctx) (argv : List String) : Steps (key_at 1 argv) stores (hsetnx ctx argv) := by
  unfold hsetnx
  split
  · refine steps_bind (steps_reads _) fun current => ?_
    split
    · exact steps_pure _
    · refine steps_bind (steps_within _) fun _ => ?_
      refine steps_bind (stored_steps (fun _ => rfl) mem_key_at_one ctx _) fun done => ?_
      refine steps_bind (steps_require done) fun _ => ?_
      exact steps_bind (steps_touch mem_key_at_one ctx _) fun _ => steps_pure _
  · exact steps_fail _

theorem hincr_steps (next : Option String → String → Except Fault (String × Reply)) (event : String)
    (ctx : Ctx) (argv : List String) : Steps (key_at 1 argv) stores (hincr next event ctx argv) := by
  unfold hincr
  split
  · refine steps_bind (steps_reads _) fun current => steps_bind (steps_within _) fun _ => ?_
    refine steps_bind (steps_attempt _) fun made => ?_
    refine steps_bind (stored_steps (fun _ => rfl) mem_key_at_one ctx _) fun done => ?_
    refine steps_bind (steps_require done) fun _ => ?_
    exact steps_bind (steps_touch mem_key_at_one ctx _) fun _ => steps_pure _
  · exact steps_fail _

theorem lpush_steps (left only_existing : Bool) (ctx : Ctx) (argv : List String) :
    Steps (key_at 1 argv) stores (lpush left only_existing ctx argv) := by
  unfold lpush
  split
  · refine steps_bind (steps_reads _) fun current => ?_
    split
    · exact steps_pure _
    · refine steps_bind (steps_within _) fun _ => ?_
      refine steps_bind (stored_steps (fun _ => rfl) mem_key_at_one ctx _) fun len => ?_
      refine steps_bind (steps_require len) fun _ => ?_
      exact steps_bind (steps_touch mem_key_at_one ctx _) fun _ => steps_pure _
  · exact steps_fail _

theorem linsert_steps (ctx : Ctx) (argv : List String) : Steps (key_at 1 argv) stores (linsert ctx argv) := by
  unfold linsert
  split
  · refine steps_bind (steps_attempt _) fun before => ?_
    refine steps_bind (steps_edit mem_key_at_one _ fun v x => stores_of _ x rfl) fun found => ?_
    split
    · exact steps_pure _
    · exact steps_pure _
    · exact steps_bind (steps_touch mem_key_at_one ctx _) fun _ => steps_pure _
  · exact steps_fail _

theorem sadd_steps (ctx : Ctx) (argv : List String) : Steps (key_at 1 argv) stores (sadd ctx argv) := by
  unfold sadd
  split
  · refine steps_bind (steps_reads _) fun current => steps_bind (steps_within _) fun _ => ?_
    refine steps_bind (stored_steps (fun _ => rfl) mem_key_at_one ctx _) fun added => ?_
    refine steps_bind (steps_require added) fun _ => ?_
    refine steps_bind (steps_provided (steps_touch mem_key_at_one ctx _)) fun _ => ?_
    exact steps_bind (steps_prune mem_key_at_one) fun _ => steps_pure _
  · exact steps_fail _

theorem zadd_steps (ctx : Ctx) (argv : List String) : Steps (key_at 1 argv) stores (zadd ctx argv) := by
  unfold zadd
  split
  · refine steps_bind (steps_attempt _) fun args => ?_
    split
    refine steps_bind (steps_reads _) fun current => steps_bind (steps_within _) fun _ => ?_
    split
    · exact steps_pure _
    · refine steps_bind (stored_steps (fun _ => rfl) mem_key_at_one ctx _) fun done => ?_
      refine steps_bind (steps_require done) fun _ => steps_bind (steps_prune mem_key_at_one) fun _ => ?_
      exact steps_bind (steps_provided (steps_touch mem_key_at_one ctx _)) fun _ => steps_pure _
  · exact steps_fail _

theorem zincrby_steps (ctx : Ctx) (argv : List String) : Steps (key_at 1 argv) stores (zincrby ctx argv) := by
  unfold zincrby
  split
  · refine steps_bind (steps_attempt _) fun amount => steps_bind (steps_reads _) fun current => ?_
    refine steps_bind (steps_within _) fun _ => steps_bind (steps_refuse _ _) fun _ => ?_
    refine steps_bind (stored_steps (fun _ => rfl) mem_key_at_one ctx _) fun done => ?_
    refine steps_bind (steps_require done) fun _ => ?_
    exact steps_bind (steps_touch mem_key_at_one ctx _) fun _ => steps_pure _
  · exact steps_fail _

/-! ## Moves -/

/-- The keys of a command that moves something from one to the other. -/
def both_keys (argv : List String) : Set String := {key | argv[1]? = some key ∨ argv[2]? = some key}

theorem move_key_steps {W : Set String} {source target : String} (hSource : source ∈ W) (hTarget : target ∈ W)
    (ctx : Ctx) : Steps W any (move_key ctx source target) := by
  unfold move_key
  refine steps_bind (steps_look _) fun entry => steps_bind ?_ fun _ => ?_
  · exact steps_change hSource (fun db k hNe => by rw [Db.keys_remove, BTreeMap.get_erase_ne _ hNe.symm])
      fun _ => trivial
  · split
    · exact steps_fail _
    · next entry =>
      refine steps_bind ?_ fun _ => ?_
      · refine steps_change hTarget (fun db k hNe => ?_) fun _ => trivial
        rw [Db.keys_insert, BTreeMap.get_insert_ne _ _ hNe.symm, Db.keys_note]
      · exact steps_bind (steps_touch hSource ctx _) fun _ => steps_touch hTarget ctx _

theorem rename_steps (nx : Bool) (ctx : Ctx) (argv : List String) :
    Steps (both_keys argv) any (rename nx ctx argv) := by
  unfold rename
  split
  · next name source target =>
    refine steps_bind (steps_look _) fun db => ?_
    split
    · exact steps_fail _
    · split
      · exact steps_pure _
      · split
        · exact steps_pure _
        · exact steps_bind (move_key_steps (.inl rfl) (.inr rfl) ctx) fun _ => steps_pure _
  · exact steps_fail _

omit [Json] in
/-- A change that may leave the keys as they are. -/
theorem steps_change_unless {W : Set String} {C : Leeway} {c : Prop} [Decidable c] {f : Db → Db}
    (h : Steps W C (change f : Exec Error Unit)) :
    Steps W C (change fun db => if c then db else f db : Exec Error Unit) := by
  by_cases hC : c
  · simp only [hC, if_true]
    exact steps_of_same fun r => ⟨rfl, rfl⟩
  · simp only [hC, if_false]
    exact h

omit [Json] in
theorem steps_change_when {W : Set String} {C : Leeway} {c : Prop} [Decidable c] {f : Db → Db}
    (h : Steps W C (change f : Exec Error Unit)) :
    Steps W C (change fun db => if c then f db else db : Exec Error Unit) := by
  by_cases hC : c
  · simp only [hC, if_true]
    exact h
  · simp only [hC, if_false]
    exact steps_of_same fun r => ⟨rfl, rfl⟩

theorem lmove_steps {W : Set String} {src dst : String} (hSrc : src ∈ W) (hDst : dst ∈ W) (ctx : Ctx)
    (from_left to_left : Bool) : Steps W stores (lmove ctx src dst from_left to_left) := by
  unfold lmove
  refine steps_bind (steps_reads _) fun source => ?_
  split
  · exact steps_pure _
  · refine steps_bind (steps_reads _) fun dest => ?_
    dsimp only
    split
    · exact steps_pure _
    · refine steps_bind (steps_within _) fun _ => ?_
      refine steps_bind (steps_edit hSrc _ fun v x => stores_of _ x rfl) fun item => ?_
      refine steps_bind (steps_require item) fun item => steps_bind (steps_require item) fun item => ?_
      refine steps_bind (steps_change_unless (steps_prune hSrc)) fun _ => ?_
      refine steps_bind (steps_change_when (steps_insert hDst fun o => stores_of o none rfl)) fun _ => ?_
      refine steps_bind (steps_edit hDst _ fun v x => stores_of _ x rfl) fun done => ?_
      refine steps_bind (steps_require done) fun _ => steps_bind (steps_touch hSrc ctx _) fun _ => ?_
      exact steps_bind (steps_touch hDst ctx _) fun _ => steps_pure _

theorem lmove_sides_steps (ctx : Ctx) (argv : List String) :
    Steps (both_keys argv) stores (lmove_sides ctx argv) := by
  unfold lmove_sides
  split
  · refine steps_bind (steps_attempt _) fun from_left => steps_bind (steps_attempt _) fun to_left => ?_
    exact lmove_steps (.inl rfl) (.inr rfl) ctx from_left to_left
  · exact steps_fail _

theorem rpoplpush_steps (ctx : Ctx) (argv : List String) :
    Steps (both_keys argv) stores (rpoplpush ctx argv) := by
  unfold rpoplpush
  split
  · exact lmove_steps (.inl rfl) (.inr rfl) ctx false true
  · exact steps_fail _

theorem blmove_steps (ctx : Ctx) (argv : List String) : Steps (both_keys argv) stores (blmove ctx argv) := by
  unfold blmove
  split
  · refine steps_bind (steps_attempt _) fun from_left => steps_bind (steps_attempt _) fun to_left => ?_
    refine steps_bind (steps_attempt _) fun timeout => steps_bind (steps_reads _) fun source => ?_
    split
    · refine steps_bind (lmove_steps (.inl rfl) (.inr rfl) ctx from_left to_left) fun reply => ?_
      exact steps_bind (steps_journal_as _) fun _ => steps_pure _
    · exact steps_bind (steps_wait ctx _ timeout) fun _ => steps_pure _
  · exact steps_fail _

theorem move_member_steps {W : Set String} {src dst : String} (hSrc : src ∈ W) (hDst : dst ∈ W) (ctx : Ctx)
    (member : String) (source_len : Nat) (dest : Option (BTreeSet String)) :
    Steps W stores (move_member ctx src dst member source_len dest) := by
  unfold move_member
  refine steps_bind (steps_within _) fun _ => ?_
  refine steps_bind (steps_edit hSrc _ fun v x => stores_of _ x rfl) fun done => ?_
  refine steps_bind (steps_require done) fun _ => steps_bind (steps_prune hSrc) fun _ => ?_
  refine steps_bind (steps_change_when (steps_insert hDst fun o => stores_of o none rfl)) fun _ => ?_
  refine steps_bind (steps_edit hDst _ fun v x => stores_of _ x rfl) fun done => ?_
  refine steps_bind (steps_require done) fun _ => steps_bind (steps_touch hSrc ctx _) fun _ => ?_
  exact steps_bind (steps_touch hDst ctx _) fun _ => steps_pure _

theorem smove_steps (ctx : Ctx) (argv : List String) : Steps (both_keys argv) stores (smove ctx argv) := by
  unfold smove
  split
  · refine steps_bind (steps_reads _) fun source => ?_
    split
    · exact steps_pure _
    · refine steps_bind (steps_reads _) fun dest => ?_
      split
      · exact steps_pure _
      · exact move_member_steps (.inl rfl) (.inr rfl) ctx _ _ _
  · exact steps_fail _

/-! ## Streams read and handed out -/

omit [Json] in
theorem xread_steps {C : Leeway} (ctx : Ctx) (argv : List String) : Steps ∅ C (xread ctx argv) := by
  unfold xread
  refine steps_bind (steps_refuse _ _) fun _ => steps_bind (steps_attempt _) fun o => ?_
  refine steps_bind (steps_reads _) fun after => steps_bind (steps_reads _) fun out => ?_
  split
  · exact steps_pure _
  · split
    · exact steps_pure _
    · exact steps_bind (steps_provided (steps_block_on _)) fun _ => steps_pure _

omit [Json] in
/-- What is done to a group leaves the entries as they are. -/
theorem on_group_onward {ε α : Type} (group : String) (absent : Except ε α) {f : Group → Except ε α × Group}
    (hSeated : ∀ g, g.Seated → (f g).2.Seated) (s : Stream) : s.Onward (on_group group absent f s).2 := by
  unfold on_group
  split
  · exact .refl s
  · next record hGet => exact .of_groups fun h => h.insert (hSeated record (h group record hGet))

omit [Json] in
theorem streams_on_group {ε α : Type} (group : String) (absent : Except ε α) {f : Group → Except ε α × Group}
    (hSeated : ∀ g, g.Seated → (f g).2.Seated) (s : Stream) (x : Option Nat) :
    streams.rel (some ⟨.stream s, x⟩) (some ⟨.stream (on_group group absent f s).2, x⟩) :=
  streams_of_onward x x (on_group_onward group absent hSeated s)

/-- The stream keys of a command that names them after options. -/
def stream_names (start : Nat) (argv : List String) : Set String :=
  {key | key ∈ (argv.drop (stream_keys argv start).1).take (stream_keys argv start).2}

omit [Json] in
/-- The keys the stream readers parse are those the walk over the words finds. -/
theorem read_options_keys {argv words : List String} {i : Nat} {o found : ReadOptions} (hWords : argv.drop i = words)
    (h : read_options i words o = .ok found) :
    found.keys = (argv.drop (stream_keys_loop i words).1).take (stream_keys_loop i words).2 := by
  induction hLen : words.length using Nat.strong_induction_on generalizing i words o with
  | _ n ih =>
    cases words with
    | nil => cases h
    | cons word rest =>
      have hRest : argv.drop (i + 1) = rest := by rw [← List.tail_drop, hWords, List.tail_cons]
      have hOne (o : ReadOptions) (hMore : read_options (i + 1) rest o = .ok found) :=
        ih rest.length (by rw [← hLen]; exact Nat.lt_succ_self _) hRest hMore rfl
      have hTwo (value : String) (rest' : List String) (hEq : rest = value :: rest') (o : ReadOptions)
          (hMore : read_options (i + 2) rest' o = .ok found) := by
        refine ih rest'.length ?_ ?_ hMore rfl
        · rw [← hLen, hEq, List.length_cons, List.length_cons]
          omega
        · rw [← List.tail_drop, hRest, hEq, List.tail_cons]
      unfold read_options at h
      dsimp only at h
      unfold stream_keys_loop
      split at h
      · next hCount =>
        rw [hCount]
        cases rest with
        | nil => cases h
        | cons value rest' =>
          dsimp only at h
          cases hValue : count value with
          | error f =>
            rw [hValue] at h
            cases h
          | ok n =>
            rw [hValue] at h
            exact hTwo value rest' rfl _ h
      · split at h
        · next hBlock =>
          rw [hBlock]
          cases rest with
          | nil => cases h
          | cons value rest' =>
            cases hValue : (int value).mapError fun _ => Fault.err "timeout is not an integer or out of range" with
            | error f =>
              dsimp only at h
              rw [hValue] at h
              cases h
            | ok ms =>
              dsimp only at h
              rw [hValue] at h
              change (if ms < 0 then _ else _) = _ at h
              split at h
              · cases h
              · exact hTwo value rest' rfl _ h
        · split at h
          · next hNoack =>
            rw [hNoack]
            exact hOne _ h
          · split at h
            · next hStreams =>
              rw [hStreams]
              split at h
              · cases h
              · cases h
                show _ = (argv.drop (i + 1)).take (rest.length / 2)
                rw [hRest]
            · cases h

theorem read_groups_steps {W : Set String} (ctx : Ctx) (group consumer : String) (limit : Nat) (noack : Bool)
    (named : List (String × String)) (h : ∀ p ∈ named, p.1 ∈ W) :
    Steps W streams (read_groups ctx group consumer limit noack named) := by
  induction named with
  | nil => exact steps_pure _
  | cons p named ih =>
    obtain ⟨hKey, hRest⟩ := List.forall_mem_cons.mp h
    refine steps_bind (steps_attempt _) fun after => ?_
    refine steps_bind (steps_edit hKey _ fun s x => streams_on_group group _ (fun g => ?_) s x) fun handed => ?_
    · exact g.hand_group_seated consumer ctx.now limit noack after s
    refine steps_bind (steps_require handed) fun handed => ?_
    refine steps_bind (steps_provided (steps_mark hKey)) fun _ => ?_
    exact steps_bind (ih hRest) fun more => steps_pure _

theorem xreadgroup_steps (ctx : Ctx) (argv : List String) :
    Steps (stream_names 4 argv) streams (xreadgroup ctx argv) := by
  unfold xreadgroup
  split
  · next head word group consumer a b c words =>
    refine steps_bind (steps_refuse _ _) fun _ => steps_attempt_then fun o hOptions => ?_
    refine steps_bind (steps_reads _) fun _ => ?_
    refine steps_bind (read_groups_steps ctx group consumer _ _ _ fun p hMem => ?_) fun read => ?_
    · have hKeys := @read_options_keys (head :: word :: group :: consumer :: a :: b :: c :: words) _ 4 _ _ rfl hOptions
      show p.1 ∈ List.take _ _
      unfold stream_keys
      exact hKeys ▸ (List.of_mem_zip hMem).1
    · split
      split
      · split
        · exact steps_pure _
        · exact steps_bind (steps_provided (steps_block_on _)) fun _ => steps_pure _
      · exact steps_pure _
  · exact steps_fail _

theorem xclaim_steps (ctx : Ctx) (argv : List String) : Steps (key_at 1 argv) streams (xclaim ctx argv) := by
  unfold xclaim
  split
  · next head key group consumer min_idle id words =>
    have hKey : key ∈ key_at 1 (head :: key :: group :: consumer :: min_idle :: id :: words) := mem_key_at_one
    refine steps_bind (steps_attempt _) fun args => ?_
    split
    refine steps_bind (steps_edit hKey _ fun s x => streams_on_group group _ (fun g => ?_) s x) fun done => ?_
    · exact g.claim_group_seated _ _ _ s
    split
    · exact steps_fail _
    · exact steps_bind (steps_provided (steps_mark hKey)) fun _ => steps_pure _
  · exact steps_fail _

theorem xautoclaim_steps (ctx : Ctx) (argv : List String) :
    Steps (key_at 1 argv) streams (xautoclaim ctx argv) := by
  unfold xautoclaim
  split
  · next head key group consumer min_idle start options =>
    have hKey : key ∈ key_at 1 (head :: key :: group :: consumer :: min_idle :: start :: options) :=
      mem_key_at_one
    refine steps_bind (steps_attempt _) fun args => ?_
    split
    refine steps_bind (steps_edit hKey _ fun s x => streams_on_group group _ (fun g => ?_) s x) fun done => ?_
    · exact g.autoclaim_group_seated _ _ _ _ s
    split
    · exact steps_fail _
    · exact steps_bind (steps_provided (steps_mark hKey)) fun _ => steps_pure _
  · exact steps_fail _

theorem xadd_steps (ctx : Ctx) (argv : List String) : Steps (key_at 1 argv) any (xadd ctx argv) := by
  unfold xadd
  split
  · next head key a b c words =>
    have hKey : key ∈ key_at 1 (head :: key :: a :: b :: c :: words) := mem_key_at_one
    refine steps_bind (steps_attempt _) fun args => steps_bind (steps_reads _) fun existing => ?_
    split
    · exact steps_pure _
    · refine steps_bind (steps_attempt _) fun id => steps_bind (steps_within _) fun _ => ?_
      refine steps_bind (steps_edit_or_create hKey _ (fun _ => trivial) fun _ _ => trivial) fun done => ?_
      refine steps_bind (steps_require done) fun _ => ?_
      exact steps_bind (steps_touch hKey ctx _) fun _ => steps_pure _
  · exact steps_fail _

/-! ## Groups of a stream -/

theorem xgroup_create_steps {W : Set String} {key : String} (hKey : key ∈ W) (ctx : Ctx) (group id : String)
    (options : List String) : Steps W any (xgroup_create ctx key group id options) := by
  unfold xgroup_create
  refine steps_bind (steps_attempt _) fun _ => steps_bind (steps_reads _) fun s => ?_
  refine steps_bind (steps_refuse _ _) fun _ => ?_
  refine steps_bind (steps_edit_or_create hKey _ (fun _ => trivial) fun _ _ => trivial) fun done => ?_
  refine steps_bind (steps_require done) fun _ => ?_
  exact steps_bind (steps_touch hKey ctx _) fun _ => steps_pure _

theorem xgroup_setid_steps {W : Set String} {key : String} (hKey : key ∈ W) (ctx : Ctx) (group id : String) :
    Steps W streams (xgroup_setid ctx key group id) := by
  unfold xgroup_setid
  refine steps_bind (steps_edit hKey _ fun s x => ?_) fun done => ?_
  · split
    · exact streams.refl _
    · exact streams_on_group group _ (fun g h => h.of_pending (fun _ h => h) fun id p hGet => .inr ⟨p, hGet, rfl⟩) s x
  · split
    · exact steps_fail _
    · exact steps_bind (steps_touch hKey ctx _) fun _ => steps_pure _

theorem xgroup_destroy_steps {W : Set String} {key : String} (hKey : key ∈ W) (ctx : Ctx) (group : String) :
    Steps W shrinks (xgroup_destroy ctx key group) := by
  unfold xgroup_destroy
  refine steps_bind (steps_edit hKey _ fun s x => ?_) fun removed => ?_
  · exact shrinks_of_less x x (Value.less_without_group s group)
  · split
    · exact steps_pure _
    · exact steps_bind (steps_provided (steps_touch hKey ctx _)) fun _ => steps_pure _

theorem xgroup_createconsumer_steps {W : Set String} {key : String} (hKey : key ∈ W) (ctx : Ctx)
    (group consumer : String) : Steps W streams (xgroup_createconsumer ctx key group consumer) := by
  unfold xgroup_createconsumer
  refine steps_bind (steps_edit hKey _ fun s x => streams_on_group group _ (fun g => ?_) s x) fun created => ?_
  · exact g.create_consumer_seated _ _
  split
  · exact steps_fail _
  · exact steps_bind (steps_provided (steps_touch hKey ctx _)) fun _ => steps_pure _

theorem xgroup_delconsumer_steps {W : Set String} {key : String} (hKey : key ∈ W) (ctx : Ctx)
    (group consumer : String) : Steps W shrinks (xgroup_delconsumer ctx key group consumer) := by
  unfold xgroup_delconsumer
  refine steps_bind (steps_edit hKey _ fun s x => shrinks_of_less x x ?_) fun deleted => ?_
  · refine less_on_group (fun g => ?_) (fun g => ?_) (fun g => g.delete_consumer_seated consumer) s
    · exact Std.ExtTreeMap.size_erase_le
    · exact Std.ExtTreeMap.size_filter_le_size
  · split
    · exact steps_fail _
    · exact steps_bind (steps_provided (steps_touch hKey ctx _)) fun _ => steps_pure _

end Exec

end

end Postino
