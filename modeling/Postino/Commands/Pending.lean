import Postino.Commands.Growth

/-!
# Pending entries

Whoever an entry is pending for is a consumer of the group, in every run: what XINFO lists
adds up, and a consumer that goes is one that was known.

* `run_streams` — what a new stream has and going on keeps, every stream has;
* `pending_listed` — the counts by consumer are of all that is pending.
-/

namespace Postino

open Lib

/-! ## Counting by consumer -/

namespace Exec

/-- What is counted for a consumer is how many entries are its own. -/
theorem get_per_consumer (pending : BTreeMap Id Pending) (c : String) :
    ((per_consumer pending)[c]?).getD 0 = (pending.toList.map (·.2.consumer)).count c := by
  have hFold (l : List (Id × Pending)) (per : BTreeMap String Nat) :
      ((l.foldl (fun per p => per.insert p.2.consumer ((per[p.2.consumer]?).getD 0 + 1)) per)[c]?).getD 0 =
        (per[c]?).getD 0 + (l.map (·.2.consumer)).count c := by
    induction l generalizing per with
    | nil => rfl
    | cons p l ih =>
      rw [List.foldl_cons, ih, BTreeMap.get_insert, List.map_cons, List.count_cons]
      by_cases hEq : p.2.consumer = c
      · subst hEq
        simp only [if_pos, Option.getD_some, beq_self_eq_true]
        omega
      · simp [hEq]
  have hAll := hFold pending.toList ∅
  rwa [show ((∅ : BTreeMap String Nat)[c]?).getD 0 = 0 from rfl, Nat.zero_add] at hAll

/-- How many pending entries XINFO CONSUMERS lists for each consumer. -/
def listed (record : Group) : List Nat :=
  record.consumers.toList.map fun c => ((per_consumer record.pending)[c.1]?).getD 0

/-- **The counts listed are of all that is pending.** -/
theorem pending_listed {record : Group} (h : record.Seated) : (listed record).sum = record.pending.size := by
  have hKeys : (record.consumers.toList.map Prod.fst).Nodup := BTreeMap.nodup_keys _
  have hEvery : ∀ c ∈ (record.pending.toList.map (·.2.consumer) : Multiset String),
      c ∈ (record.consumers.toList.map Prod.fst).toFinset := by
    intro c hC
    obtain ⟨⟨id, p⟩, hMem, rfl⟩ := List.mem_map.mp (Multiset.mem_coe.mp hC)
    obtain ⟨seat, hSeat⟩ := (BTreeMap.mem_iff_get _ _).mp (h id p ((BTreeMap.mem_toList _ _ _).mp hMem))
    exact List.mem_toFinset.mpr (List.mem_map_of_mem ((BTreeMap.mem_toList _ _ _).mpr hSeat))
  have hSum := Multiset.sum_count_eq_card hEvery
  rw [List.sum_toFinset _ hKeys, List.map_map] at hSum
  simp only [Multiset.coe_count, Multiset.coe_card, Function.comp_def] at hSum
  simp only [listed, get_per_consumer]
  rw [← Std.ExtTreeMap.length_toList, ← List.length_map (f := (·.2.consumer))]
  exact hSum

/-! ## Groups of live streams -/

/-- The live stream under `key` has the group. -/
def Group.at_ (db : Db) (key group : String) (now : Nat) (s : Stream) (record : Group) : Prop :=
  ∃ e, db.get key now = some e ∧ e.value = .stream s ∧ s.groups[group]? = some record

theorem stream_ref_of_group {db : Db} {key group : String} {now : Nat} {s : Stream} {record : Group}
    (h : Group.at_ db key group now s record) :
    stream_ref db key now = .ok (some s) ∧ s.groups[group]? = some record := by
  obtain ⟨e, hGet, hValue, hGroup⟩ := h
  refine ⟨?_, hGroup⟩
  simp only [stream_ref, typed_ref, hGet, hValue, Typed.stream]

/-- What the rows of a reply say is pending. -/
def pending_column : Reply → List Reply
  | .array rows => rows.filterMap fun
    | .map fields => fields.lookup "pending"
    | _ => none
  | _ => []

theorem pending_column_consumers (now : Nat) (record : Group) :
    pending_column (consumers_info now record) = (listed record).map Reply.of_usize := by
  unfold pending_column consumers_info listed
  dsimp only
  rw [List.filterMap_map, List.map_map, ← List.filterMap_eq_map]
  rfl

section

variable [Json]

theorem xinfo_consumers {db : Db} {ctx : Ctx} {head sub key group : String} {s : Stream} {record : Group}
    (hName : Name.of_ [head, sub, key, group] = "XINFO") (hSub : to_ascii_uppercase sub = "CONSUMERS")
    (h : Group.at_ db key group ctx.now s record) :
    (db.exec [head, sub, key, group] ctx).1.reply = consumers_info ctx.now record := by
  obtain ⟨hRef, hGroup⟩ := stream_ref_of_group h
  -- the subcommand is known and the group is there, so none of the errors
  have hInfo : xinfo ctx db [head, sub, key, group] = .ok (consumers_info ctx.now record) := by
    unfold xinfo
    dsimp only
    rw [hSub, hRef]
    dsimp only [bind, Except.bind]
    rw [if_neg (by decide), if_neg (by decide), hGroup]
    rfl
  have hRun : db.run [head, sub, key, group] ctx =
      reads (fun db => xinfo ctx db [head, sub, key, group]) { db } :=
    db.run_of_name ctx hName (by decide)
  have hReads : reads (fun db => xinfo ctx db [head, sub, key, group]) { db } =
      ((.ok (consumers_info ctx.now record), { db }) : Except Error Reply × Run) := by
    unfold reads
    dsimp only
    rw [hInfo]
    rfl
  unfold Db.exec
  rw [hRun, hReads]

/-- Dropping a consumer that is known is a change, journaled as it was asked for. -/
theorem delconsumer_journaled {db : Db} {ctx : Ctx} {head sub key group consumer : String} {s : Stream}
    {record : Group} (hName : Name.of_ [head, sub, key, group, consumer] = "XGROUP")
    (hSub : to_ascii_uppercase sub = "DELCONSUMER") (h : Group.at_ db key group ctx.now s record)
    (hKnown : consumer ∈ record.consumers) :
    (db.exec [head, sub, key, group, consumer] ctx).1.dirty = true ∧
      (db.exec [head, sub, key, group, consumer] ctx).1.journal [head, sub, key, group, consumer] =
        [[head, sub, key, group, consumer]] := by
  obtain ⟨hRef, hGroup⟩ := stream_ref_of_group h
  have hRun : db.run [head, sub, key, group, consumer] ctx =
      xgroup_delconsumer ctx key group consumer { db } := by
    refine (db.run_of_name ctx hName (by decide)).trans ?_
    show xgroup ctx [head, sub, key, group, consumer] { db } = _
    unfold xgroup
    dsimp only
    rw [hSub, if_neg (by decide)]
    rfl
  have hSat : Fallible.Sat (xgroup_delconsumer ctx key group consumer) { db }
      (fun reply r => reply.is_error = false ∧ r.dirty = true ∧ r.propagate = none) (fun _ => False) := by
    unfold xgroup_delconsumer
    refine sat_edit _ (fun ⟨e, hError⟩ => ?_) (fun hNone => ?_) fun e v db' hGet hValue _ => ?_
    · -- the key holds a stream, so neither the error nor the missing key
      exact absurd (hRef.symm.trans hError) (by simp)
    · obtain ⟨e, hGet, -⟩ := h
      exact absurd (hGet.symm.trans hNone) (by simp)
    · obtain rfl : s = v := by
        obtain ⟨e', hGet', hValue', -⟩ := h
        rw [hGet] at hGet'
        cases hGet'
        exact Value.stream.inj (hValue'.symm.trans hValue)
      unfold on_group
      rw [hGroup]
      have hContains : record.consumers.contains consumer = true := hKnown
      dsimp only [delete_consumer]
      rw [hContains]
      exact ⟨rfl, rfl, rfl⟩
  rcases Db.exec_of_sat hRun hSat with ⟨reply, r, ⟨hReply, hDirty, hPropagate⟩, hExec⟩ | ⟨e, r, hFalse, -⟩
  · rw [hExec]
    simp [Outcome.journal, hReply, hDirty, hPropagate]
  · exact hFalse.elim

end

end Exec

/-! ## Every run -/

namespace History

open Exec

variable [Json]

/-- What a new stream has, and going on keeps, every stream of every run has. -/
theorem run_streams {P : Stream → Prop} (hNew : P {}) (hStep : ∀ s t, s.Onward t → P s → P t)
    (happenings : List Happening) (key : String) (s : Stream) (h : (run happenings).db.holds key s) : P s := by
  have hFold (before : History) (hBefore : ∀ key s, before.db.holds key s → P s) :
      ∀ key s, (happenings.foldl after before).db.holds key s → P s := by
    clear h
    induction happenings generalizing before with
    | nil => exact hBefore
    | cons happening happenings ih =>
      refine ih (before.after happening) (fun key t hHolds => ?_)
      have hTraced := before.db.traced happening key t hHolds
      split at hTraced
      · obtain ⟨s, hHeld, hOn⟩ := hTraced
        exact hStep s t hOn (hBefore _ s hHeld)
      · exact hStep _ t hTraced hNew
  refine hFold new (fun key s hHolds => ?_) key s h
  obtain ⟨e, hGet, -⟩ := hHolds
  cases hGet

/-- **Pending entries belong to known consumers.** So the counts XINFO CONSUMERS lists add up
to what is pending, and an XGROUP DELCONSUMER that drops entries is a change and journaled. -/
theorem pending_seated (happenings : List Happening) (ctx : Ctx) (key group : String) :
    let db := (run happenings).db
    (∀ s record, db.holds key s → s.groups[group]? = some record →
      ∀ (id : Id) p, record.pending[id]? = some p → p.consumer ∈ record.consumers) ∧
    (∀ head sub s record, Name.of_ [head, sub, key, group] = "XINFO" →
      to_ascii_uppercase sub = "CONSUMERS" → Group.at_ db key group ctx.now s record →
      ∃ counts : List Nat, counts.sum = record.pending.size ∧
        pending_column (db.exec [head, sub, key, group] ctx).1.reply = counts.map Reply.of_usize) ∧
    (∀ head sub consumer s record, Name.of_ [head, sub, key, group, consumer] = "XGROUP" →
      to_ascii_uppercase sub = "DELCONSUMER" → Group.at_ db key group ctx.now s record →
      (∃ (id : Id) (p : Pending), record.pending[id]? = some p ∧ p.consumer = consumer) →
      (db.exec [head, sub, key, group, consumer] ctx).1.dirty = true ∧
        (db.exec [head, sub, key, group, consumer] ctx).1.journal [head, sub, key, group, consumer] =
          [[head, sub, key, group, consumer]]) := by
  have hSeated : ∀ s, (run happenings).db.holds key s → s.Seated :=
    fun s => run_streams Stream.seated_new (fun _ _ hOn => hOn.seated) happenings key s
  -- a group that commands find is one of a stream the keyspace holds
  have hLive {s : Stream} {record : Group} (h : Group.at_ (run happenings).db key group ctx.now s record) :
      record.Seated := by
    obtain ⟨e, hGet, hValue, hGroup⟩ := h
    exact hSeated s ⟨e, (Db.held_of_get hGet).1, hValue⟩ group record hGroup
  refine ⟨fun s record hHolds hGroup => hSeated s hHolds group record hGroup,
    fun head sub s record hName hSub h => ?_, fun head sub consumer s record hName hSub h hDropped => ?_⟩
  · refine ⟨listed record, pending_listed (hLive h), ?_⟩
    rw [xinfo_consumers hName hSub h, pending_column_consumers]
  · obtain ⟨id, p, hGet, rfl⟩ := hDropped
    exact delconsumer_journaled hName hSub h (hLive h id p hGet)

omit [Json] in
/-- Two consumers have entries pending, one of them acknowledged; then one of the two goes. -/
theorem pending_seated_two :
    let _ : Json := ⟨fun _ => none, fun _ => none⟩
    let ctx : Ctx :=
      { now := 5, replay := false, blocking := false, access := ⟨true, .all⟩, max_keys := 9, max_elements := 9
        events := false, random := .first }
    let does (argv : List String) : Happening := .command argv ctx
    let before :=
      [does ["XADD", "s", "1-1", "k", "a"], does ["XADD", "s", "2-1", "k", "b"], does ["XADD", "s", "3-1", "k", "c"],
        does ["XGROUP", "CREATE", "s", "g", "0"],
        does ["XREADGROUP", "GROUP", "g", "ann", "COUNT", "2", "STREAMS", "s", ">"],
        does ["XREADGROUP", "GROUP", "g", "bob", "STREAMS", "s", ">"], does ["XACK", "s", "g", "1-1"]]
    (∃ counts : List Nat, counts.sum = 2 ∧
      pending_column ((run before).db.exec ["XINFO", "CONSUMERS", "s", "g"] ctx).1.reply = counts.map Reply.of_usize) ∧
    ((run before).db.exec ["XGROUP", "DELCONSUMER", "s", "g", "ann"] ctx).1.dirty = true ∧
      ((run before).db.exec ["XGROUP", "DELCONSUMER", "s", "g", "ann"] ctx).1.journal
        ["XGROUP", "DELCONSUMER", "s", "g", "ann"] = [["XGROUP", "DELCONSUMER", "s", "g", "ann"]] := by
  intro _ ctx does before
  -- what is pending when the two commands come
  have hPending : (((run before).db.get "s" 5).bind fun e => (Typed.stream.value e.value).bind fun s =>
      (s.groups["g"]?).map fun record => record.pending.toList.map fun p => (p.1, p.2.consumer)) =
      some [({ ms := 2, seq := 1 }, "ann"), ({ ms := 3, seq := 1 }, "bob")] := by
    decide +kernel +revert
  have hNames : Name.of_ ["XINFO", "CONSUMERS", "s", "g"] = "XINFO" ∧
      Name.of_ ["XGROUP", "DELCONSUMER", "s", "g", "ann"] = "XGROUP" ∧
      to_ascii_uppercase "CONSUMERS" = "CONSUMERS" ∧ to_ascii_uppercase "DELCONSUMER" = "DELCONSUMER" := by
    decide +kernel +revert
  have hSeated := pending_seated before ctx "s" "g"
  generalize run before = h at hPending hSeated ⊢
  obtain ⟨-, hCounts, hDrops⟩ := hSeated
  obtain ⟨e, hGet, hEntry⟩ := Option.bind_eq_some_iff.mp hPending
  obtain ⟨s, hStream, hGroups⟩ := Option.bind_eq_some_iff.mp hEntry
  obtain ⟨record, hRecord, hListed⟩ := Option.map_eq_some_iff.mp hGroups
  have hAt : Group.at_ h.db "s" "g" ctx.now s record := ⟨e, hGet, (Typed.stream.value_eq _ _).mp hStream, hRecord⟩
  refine ⟨?_, ?_⟩
  · obtain ⟨counts, hSum, hColumn⟩ := hCounts "XINFO" "CONSUMERS" s record hNames.1 hNames.2.2.1 hAt
    refine ⟨counts, hSum.trans ?_, hColumn⟩
    rw [← Std.ExtTreeMap.length_toList, ← List.length_map (f := fun p : Id × Pending => (p.1, p.2.consumer)), hListed]
    rfl
  · have hFirst : (({ ms := 2, seq := 1 } : Id), "ann") ∈ record.pending.toList.map fun p => (p.1, p.2.consumer) := by
      rw [hListed]
      exact List.mem_cons_self
    obtain ⟨⟨id, p⟩, hMem, hEq⟩ := List.mem_map.mp hFirst
    have hAnn : ∃ (id : Id) (p : Pending), record.pending[id]? = some p ∧ p.consumer = "ann" :=
      ⟨id, p, (BTreeMap.mem_toList _ _ _).mp hMem, (Prod.mk.inj hEq).2⟩
    exact hDrops "XGROUP" "DELCONSUMER" "ann" s record hNames.2.1 hNames.2.2.2 hAt hAnn

end History

end Postino
