import Postino.Commands.Reply
import Postino.Lib.Number

/-!
# Replies as JSON

A reply turns into JSON in two ways: `to_json` builds the value, and `serialize` writes the
text without building it first.

* `serialize_eq` — the text is that of the value;
* `serialize_exact` — the text parses to the value, of any nesting.
-/

namespace Postino

open Lib

namespace Reply

mutual
def to_json : Reply → JsonTree Number
  | simple s | bulk s => .string s
  | int n => .number (.int n)
  | nil => .null
  | array items => .array (items_to_json items)
  | map pairs => .of_fields (pairs_to_json pairs)
  | error e => .of_fields [("error", .string e)]
def items_to_json : List Reply → List (JsonTree Number)
  | [] => []
  | item :: items => item.to_json :: items_to_json items
def pairs_to_json : List (String × Reply) → List (String × JsonTree Number)
  | [] => []
  | (k, v) :: pairs => (k, v.to_json) :: pairs_to_json pairs
end

/-- The same JSON as `to_json`, written without building it first: a map's keys in order, the
last of any repeated one. -/
def serialize : Reply → List Char
  | simple s | bulk s => JsonTree.quoted s
  | int n => Number.write_int n
  | nil => ['n', 'u', 'l', 'l']
  | array items => JsonTree.bracketed (items.map serialize)
  | map pairs =>
    let sorted : BTreeMap String Reply := Std.ExtTreeMap.ofList pairs compare
    JsonTree.braced (sorted.toList.attach.map fun e => JsonTree.member e.val.1 (serialize e.val.2))
  | error e => JsonTree.braced [JsonTree.member "error" (JsonTree.quoted e)]
termination_by reply => sizeOf reply
decreasing_by
  · have hSize := List.sizeOf_lt_of_mem ‹_›
    simp only [array.sizeOf_spec]
    omega
  · obtain ⟨⟨k, v⟩, hIn⟩ := e
    have hMem := BTreeMap.mem_of_ofList ((BTreeMap.mem_toList _ _ _).mp hIn)
    have hSize := List.sizeOf_lt_of_mem hMem
    simp only [map.sizeOf_spec, Prod.mk.sizeOf_spec] at hSize ⊢
    omega

mutual
/-- Its numbers are what they are in the program: 64-bit integers. -/
def Machine : Reply → Prop
  | simple _ | bulk _ | nil | error _ => True
  | int n => -2 ^ 63 ≤ n ∧ n < 2 ^ 63
  | array items => MachineItems items
  | map pairs => MachinePairs pairs
def MachineItems : List Reply → Prop
  | [] => True
  | item :: items => item.Machine ∧ MachineItems items
def MachinePairs : List (String × Reply) → Prop
  | [] => True
  | (_, v) :: pairs => v.Machine ∧ MachinePairs pairs
end

/-! ## One text -/

theorem items_to_json_eq (items : List Reply) : items_to_json items = items.map to_json := by
  induction items with
  | nil => rfl
  | cons item items ih => rw [items_to_json, ih, List.map_cons]

theorem pairs_to_json_eq (pairs : List (String × Reply)) :
    pairs_to_json pairs = pairs.map fun e => (e.1, e.2.to_json) := by
  induction pairs with
  | nil => rfl
  | cons pair pairs ih => rw [pairs_to_json, ih, List.map_cons]

/-- A map as JSON: its keys in order, the last of any repeated one. -/
theorem to_json_map (pairs : List (String × Reply)) : to_json (map pairs) =
    .object ((Std.ExtTreeMap.ofList pairs compare : BTreeMap String Reply).toList.map fun e => (e.1, e.2.to_json)) := by
  rw [to_json, pairs_to_json_eq, JsonTree.of_fields, BTreeMap.toList_ofList_map]

theorem serialize_map (pairs : List (String × Reply)) : serialize (map pairs) =
    JsonTree.braced ((Std.ExtTreeMap.ofList pairs compare : BTreeMap String Reply).toList.map fun e =>
      JsonTree.member e.1 e.2.serialize) := by
  rw [serialize]
  exact congrArg JsonTree.braced (List.attach_map_val (f := fun e : String × Reply => JsonTree.member e.1 e.2.serialize))

section

variable (shortest : F64 → List Char) (decimal : List Char → Option F64)

mutual

/-- What is written is the text of the value. -/
theorem serialize_eq : ∀ r : Reply, r.serialize = r.to_json.write (Number.machine shortest decimal)
  | simple s => by rw [serialize, to_json, JsonTree.write]
  | bulk s => by rw [serialize, to_json, JsonTree.write]
  | int n => by
    rw [serialize, to_json, JsonTree.write]
    rfl
  | nil => by rw [serialize, to_json, JsonTree.write]
  | array items => by rw [serialize, to_json, JsonTree.write, serialize_items_eq items]
  | map pairs => by
    have hPairs := serialize_pairs_eq pairs
    rw [serialize_map, to_json_map, JsonTree.write, JsonTree.write_fields_eq, List.map_map]
    congr 1
    refine List.map_congr_left fun e hMem => ?_
    obtain ⟨k, v⟩ := e
    have hIn : (k, v) ∈ pairs := BTreeMap.mem_of_ofList ((BTreeMap.mem_toList _ _ _).mp hMem)
    exact congrArg (JsonTree.member k) (hPairs (k, v) hIn)
  | error e => by
    rw [serialize, to_json, JsonTree.of_fields_sorted (List.pairwise_singleton _ _), JsonTree.write,
      JsonTree.write_fields_eq]
    rfl

theorem serialize_items_eq : ∀ items : List Reply,
    items.map serialize = JsonTree.write_items (Number.machine shortest decimal) (items_to_json items)
  | [] => rfl
  | item :: items => by
    rw [List.map_cons, items_to_json, JsonTree.write_items, serialize_eq item, serialize_items_eq items]

theorem serialize_pairs_eq : ∀ pairs : List (String × Reply),
    ∀ e ∈ pairs, e.2.serialize = e.2.to_json.write (Number.machine shortest decimal)
  | [], e, hMem => absurd hMem List.not_mem_nil
  | (k, v) :: pairs, e, hMem => by
    rcases List.mem_cons.mp hMem with rfl | hMem
    · exact serialize_eq v
    · exact serialize_pairs_eq pairs e hMem

end

mutual

/-- The value has its keys in order, and its numbers are read back. -/
theorem proper_to_json : ∀ r : Reply, r.Machine → r.to_json.Proper fun n => (Number.machine shortest decimal).Reads n n
  | simple s, _ => by rw [to_json, JsonTree.Proper]; trivial
  | bulk s, _ => by rw [to_json, JsonTree.Proper]; trivial
  | int n, h => by
    rw [Machine] at h
    rw [to_json, JsonTree.Proper]
    exact Number.machine_int shortest decimal h.1 h.2
  | nil, _ => by rw [to_json, JsonTree.Proper]; trivial
  | array items, h => by
    rw [Machine] at h
    rw [to_json, JsonTree.Proper]
    exact proper_items items h
  | map pairs, h => by
    rw [Machine] at h
    have hPairs := proper_pairs pairs h
    rw [to_json_map, JsonTree.Proper, JsonTree.properFields_iff]
    refine ⟨List.pairwise_map.mpr (BTreeMap.sorted_toList _), fun e hMem => ?_⟩
    obtain ⟨⟨k, v⟩, hListed, rfl⟩ := List.mem_map.mp hMem
    exact hPairs (k, v) (BTreeMap.mem_of_ofList ((BTreeMap.mem_toList _ _ _).mp hListed))
  | error e, _ => by
    rw [to_json, JsonTree.of_fields_sorted (List.pairwise_singleton _ _), JsonTree.Proper]
    refine ⟨List.pairwise_singleton _ _, ?_⟩
    rw [JsonTree.properFields_iff]
    intro field hMem
    rw [List.mem_singleton.mp hMem, JsonTree.Proper]
    trivial

theorem proper_items : ∀ items : List Reply, MachineItems items →
    JsonTree.ProperItems (fun n => (Number.machine shortest decimal).Reads n n) (items_to_json items)
  | [], _ => by rw [items_to_json, JsonTree.ProperItems]; trivial
  | item :: items, h => by
    rw [MachineItems] at h
    rw [items_to_json, JsonTree.ProperItems]
    exact ⟨proper_to_json item h.1, proper_items items h.2⟩

theorem proper_pairs : ∀ pairs : List (String × Reply), MachinePairs pairs →
    ∀ e ∈ pairs, e.2.to_json.Proper fun n => (Number.machine shortest decimal).Reads n n
  | [], _, e, hMem => absurd hMem List.not_mem_nil
  | (k, v) :: pairs, h, e, hMem => by
    rw [MachinePairs] at h
    rcases List.mem_cons.mp hMem with rfl | hMem
    · exact proper_to_json v h.1
    · exact proper_pairs pairs h.2 e hMem

end

end

/-- The text written for a reply parses to the reply's JSON, of any nesting and with a map's keys
repeated or not. A parser that bounds nesting takes it exactly when it nests no deeper. -/
theorem serialize_exact (shortest : F64 → List Char) (decimal : List Char → Option F64) (r : Reply) (h : r.Machine) :
    JsonTree.from_text (Number.machine shortest decimal) none r.serialize = some r.to_json ∧
      ∀ limit, JsonTree.from_text (Number.machine shortest decimal) (some limit) r.serialize =
        if r.to_json.depth ≤ limit then some r.to_json else none := by
  have hText (limit : Option Nat) := JsonTree.from_text_write (g := id) (proper_to_json shortest decimal r h) limit
  rw [← serialize_eq shortest decimal r, JsonTree.renumber_id] at hText
  refine ⟨by rw [hText]; rfl, fun limit => ?_⟩
  rw [hText (some limit)]
  simp only [JsonTree.within, decide_eq_true_eq]

/-- A map in an array, a key given twice with a map under it. -/
theorem serialize_exact_repeated :
    let r := array [map [("b", int 2), ("a", map [("k", nil), ("k", error "ERR no")]), ("b", int (-7))]]
    JsonTree.from_text (Number.machine (fun _ => []) fun _ => none) none r.serialize = some r.to_json ∧
      ∀ limit, JsonTree.from_text (Number.machine (fun _ => []) fun _ => none) (some limit) r.serialize =
        if r.to_json.depth ≤ limit then some r.to_json else none :=
  serialize_exact (fun _ => []) (fun _ => none) _ (by simp [Machine, MachineItems, MachinePairs])

end Reply

end Postino
