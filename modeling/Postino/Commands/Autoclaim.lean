import Postino.Db.Snapshot
import Postino.Commands.Pending
import Postino.Lib.Runs

/-!
# XAUTOCLAIM, call after call

A client goes on from the id each call returns. Every entry that was pending comes up in
exactly one call, which takes it, leaves it because it was delivered too lately, or drops it
because its entry is deleted.

* `autoclaim_loop_exact` — what a call does with the entries it considers;
* `waiting_next` — what is left for the calls after it;
* `autoclaim_covers` — all calls together.
-/

namespace Postino

open Lib

namespace Exec

open Fallible

/-! ## What becomes of an entry -/

inductive Fate where
  | gone
  | busy
  | taken
  deriving DecidableEq

/-- What an XAUTOCLAIM makes of a pending entry it considers. -/
def Claim.fate (c : Claim) (now : Nat) (s : Stream) (pending : BTreeMap Id Pending) (id : Id) : Fate :=
  match s.entries[id]?, pending[id]? with
  | none, _ => .gone
  | some _, none => .busy
  | some _, some p => if now - p.delivered < c.min_idle then .busy else .taken

/-- What is pending under an id once it has been considered. -/
def Claim.leaves (c : Claim) (now : Nat) (s : Stream) (pending : BTreeMap Id Pending) (id : Id) : Option Pending :=
  match c.fate now s pending id with
  | .gone => none
  | .busy => pending[id]?
  | .taken => (pending[id]?).map c.taken

/-- The id of an entry a claim replies with. -/
def named : Reply → String
  | .bulk id => id
  | .array (.bulk id :: _) => id
  | _ => ""

theorem named_reply (c : Claim) (id : Id) (fields : List (String × String)) :
    named (c.reply id fields) = id.display := by
  unfold Claim.reply
  split <;> rfl

section

variable {c : Claim} {now : Nat} {s : Stream}

/-- Fate looks at an entry and at what is pending under its id. -/
theorem fate_congr {pending pending' : BTreeMap Id Pending} {id : Id} (h : pending[id]? = pending'[id]?) :
    c.fate now s pending id = c.fate now s pending' id := by
  unfold Claim.fate
  rw [h]

theorem leaves_congr {pending pending' : BTreeMap Id Pending} {id : Id} (h : pending[id]? = pending'[id]?) :
    c.leaves now s pending id = c.leaves now s pending' id := by
  unfold Claim.leaves
  rw [fate_congr h, h]

/-- One entry at a time: what is pending then, and what is reported of it. -/
theorem autoclaim_loop_cons (id : Id) (ids : List Id) (pending : BTreeMap Id Pending) :
    ∃ pending', (∀ k : Id, pending'[k]? = if k = id then c.leaves now s pending id else pending[k]?) ∧
      (autoclaim_loop c now s (id :: ids) pending).2 = (autoclaim_loop c now s ids pending').2 ∧
      (autoclaim_loop c now s (id :: ids) pending).1.claimed.map named =
        (if c.fate now s pending id = .taken then [id.display] else []) ++
          (autoclaim_loop c now s ids pending').1.claimed.map named ∧
      (autoclaim_loop c now s (id :: ids) pending).1.deleted.map named =
        (if c.fate now s pending id = .gone then [id.display] else []) ++
          (autoclaim_loop c now s ids pending').1.deleted.map named := by
  cases hEntry : s.entries[id]? with
  | none =>
    have hFate : c.fate now s pending id = .gone := by simp only [Claim.fate, hEntry]
    refine ⟨pending.erase id, fun k => ?_, ?_⟩
    · rw [BTreeMap.get_erase]
      by_cases hEq : id = k
      · rw [if_pos hEq, if_pos hEq.symm]
        simp only [Claim.leaves, hFate]
      · rw [if_neg hEq, if_neg (Ne.symm hEq)]
    · rw [autoclaim_loop_gone hEntry, hFate]
      exact ⟨rfl, rfl, rfl⟩
  | some fields =>
    cases hHeld : pending[id]? with
    | none =>
      have hFate : c.fate now s pending id = .busy := by simp only [Claim.fate, hEntry, hHeld]
      refine ⟨pending, fun k => ?_, ?_⟩
      · split
        · next hEq => simp only [Claim.leaves, hFate, hEq]
        · rfl
      · rw [autoclaim_loop_skip hEntry hHeld, hFate]
        exact ⟨rfl, rfl, rfl⟩
    | some p =>
      by_cases hBusy : now - p.delivered < c.min_idle
      · have hFate : c.fate now s pending id = .busy := by simp only [Claim.fate, hEntry, hHeld, if_pos hBusy]
        refine ⟨pending, fun k => ?_, ?_⟩
        · split
          · next hEq => simp only [Claim.leaves, hFate, hEq]
          · rfl
        · rw [autoclaim_loop_busy hEntry hHeld hBusy, hFate]
          exact ⟨rfl, rfl, rfl⟩
      · have hFate : c.fate now s pending id = .taken := by simp only [Claim.fate, hEntry, hHeld, if_neg hBusy]
        refine ⟨pending.insert id (c.taken p), fun k => ?_, ?_⟩
        · rw [BTreeMap.get_insert]
          by_cases hEq : id = k
          · rw [if_pos hEq, if_pos hEq.symm]
            simp only [Claim.leaves, hFate, hHeld, Option.map_some]
          · rw [if_neg hEq, if_neg (Ne.symm hEq)]
        · rw [autoclaim_loop_taken hEntry hHeld hBusy, hFate, List.map_cons, named_reply]
          exact ⟨rfl, rfl, rfl⟩

/-- **A call takes, leaves or drops each entry it considers, and reports it so.** -/
theorem autoclaim_loop_exact {ids : List Id} (hNodup : ids.Nodup) (pending : BTreeMap Id Pending) :
    (∀ k : Id, (autoclaim_loop c now s ids pending).2[k]? =
      if k ∈ ids then c.leaves now s pending k else pending[k]?) ∧
    (autoclaim_loop c now s ids pending).1.claimed.map named =
      (ids.filter fun id => c.fate now s pending id = .taken).map Id.display ∧
    (autoclaim_loop c now s ids pending).1.deleted.map named =
      (ids.filter fun id => c.fate now s pending id = .gone).map Id.display := by
  induction ids generalizing pending with
  | nil => exact ⟨fun k => by simp [autoclaim_loop], rfl, rfl⟩
  | cons id ids ih =>
    obtain ⟨hOut, hRest⟩ := List.nodup_cons.mp hNodup
    obtain ⟨pending', hPending, hLoop, hClaimed, hDeleted⟩ := @autoclaim_loop_cons c now s id ids pending
    obtain ⟨hGet, hIhClaimed, hIhDeleted⟩ := ih hRest pending'
    -- the other entries are as they were
    have hSame {k : Id} (hIn : k ∈ ids) : pending'[k]? = pending[k]? := by
      rw [hPending, if_neg]
      rintro rfl
      exact hOut hIn
    have hFilter (fate : Fate) : ids.filter (fun id => c.fate now s pending' id = fate) =
        ids.filter fun id => c.fate now s pending id = fate :=
      List.filter_congr fun k hIn => by rw [fate_congr (hSame hIn)]
    refine ⟨fun k => ?_, ?_, ?_⟩
    · rw [hLoop, hGet]
      by_cases hIn : k ∈ ids
      · rw [if_pos hIn, if_pos (List.mem_cons_of_mem _ hIn), leaves_congr (hSame hIn)]
      · rw [if_neg hIn, hPending]
        by_cases hEq : k = id
        · subst hEq
          rw [if_pos rfl, if_pos List.mem_cons_self]
        · rw [if_neg hEq, if_neg (by simp [hEq, hIn])]
    · rw [hClaimed, hIhClaimed, hFilter, List.filter_cons]
      split <;> simp_all
    · rw [hDeleted, hIhDeleted, hFilter, List.filter_cons]
      split <;> simp_all

end

/-! ## What is left to consider -/

/-- The ids pending from `start` on. -/
def waiting (start : Id) (pending : BTreeMap Id Pending) : List Id :=
  (pending.toList.filter fun p => start ≤ p.1).map Prod.fst

theorem sorted_waiting (start : Id) (pending : BTreeMap Id Pending) : (waiting start pending).Pairwise (· < ·) := by
  unfold waiting
  rw [List.pairwise_map]
  exact (BTreeMap.sorted_toList pending).filter _

theorem mem_waiting {start : Id} {pending : BTreeMap Id Pending} {id : Id} :
    id ∈ waiting start pending ↔ start ≤ id ∧ ∃ p, pending[id]? = some p := by
  unfold waiting
  simp only [List.mem_map, List.mem_filter, decide_eq_true_eq, Prod.exists, exists_and_right, exists_eq_right,
    BTreeMap.mem_toList]
  tauto

theorem waiting_zero (pending : BTreeMap Id Pending) : waiting .zero pending = pending.toList.map Prod.fst := by
  unfold waiting
  rw [List.filter_eq_self.mpr fun p _ => by simpa using p.1.zero_le]

theorem candidates_eq (start : Id) (limit : Nat) (pending : BTreeMap Id Pending) :
    candidates start limit pending = (waiting start pending).take limit := by
  unfold candidates waiting
  rw [List.map_take]

/-- The next call starts at what is left, unless nothing is. -/
theorem next_start_eq (start : Id) {limit : Nat} (hLimit : 1 ≤ limit) (pending : BTreeMap Id Pending) :
    next_start (candidates start limit pending) pending =
      ((waiting start pending).drop limit).head?.getD .zero := by
  rw [candidates_eq]
  unfold next_start
  cases hLast : ((waiting start pending).take limit).getLast? with
  | none =>
    have hNil : waiting start pending = [] := by
      rcases List.take_eq_nil_iff.mp (List.getLast?_eq_none_iff.mp hLast) with hZero | hNil
      · omega
      · exact hNil
    rw [hNil, List.drop_nil]
    rfl
  | some last =>
    have hStart : start ≤ last := (mem_waiting.mp (List.mem_of_mem_take (List.mem_of_getLast? hLast))).1
    have hAbove : (pending.above last).map Prod.fst = (waiting start pending).drop limit := by
      rw [← filter_past_page (sorted_waiting start pending) hLast]
      unfold waiting BTreeMap.above
      rw [List.filter_map, List.filter_filter]
      refine congrArg _ (List.filter_congr fun p _ => ?_)
      by_cases hAfter : last < p.1
      · simp [hAfter, hStart.trans hAfter.le]
      · simp [hAfter]
    rw [← hAbove, List.head?_map]
    show ((pending.above last).head?).elim .zero Prod.fst = _
    cases (pending.above last).head? with
    | none => rfl
    | some p => rfl

/-- **What a call leaves is what the next one starts with.** -/
theorem waiting_next {start next : Id} {limit : Nat} {pending pending' : BTreeMap Id Pending} {rest : List Id}
    (hRest : (waiting start pending).drop limit = next :: rest)
    (h : ∀ k : Id, k ∉ candidates start limit pending → pending'[k]? = pending[k]?) :
    waiting next pending' = next :: rest := by
  have hSplit := sorted_waiting start pending
  rw [← List.take_append_drop limit (waiting start pending), List.pairwise_append, hRest] at hSplit
  obtain ⟨-, hBack, hAcross⟩ := hSplit
  have hNextIn : next ∈ waiting start pending :=
    List.mem_of_mem_drop (hRest ▸ List.mem_cons_self : next ∈ (waiting start pending).drop limit)
  refine eq_of_sorted (sorted_waiting next pending') hBack fun k => ?_
  have hFront {k : Id} (hIn : k ∈ candidates start limit pending) : k < next := by
    rw [candidates_eq] at hIn
    exact hAcross k hIn next List.mem_cons_self
  rw [mem_waiting]
  constructor
  · rintro ⟨hLe, p, hGet⟩
    have hOut : k ∉ candidates start limit pending := fun hIn => absurd (hFront hIn) (not_lt.mpr hLe)
    rw [h k hOut] at hGet
    have hMem : k ∈ waiting start pending := mem_waiting.mpr ⟨(mem_waiting.mp hNextIn).1.trans hLe, p, hGet⟩
    rw [← List.take_append_drop limit (waiting start pending), hRest, ← candidates_eq] at hMem
    exact (List.mem_append.mp hMem).resolve_left hOut
  · intro hIn
    have hLe : next ≤ k := by
      rcases List.mem_cons.mp hIn with rfl | hLater
      · exact le_rfl
      · exact ((List.pairwise_cons.mp hBack).1 k hLater).le
    have hOut : k ∉ candidates start limit pending := fun hFound => absurd (hFront hFound) (not_lt.mpr hLe)
    have hMem : k ∈ waiting start pending := List.mem_of_mem_drop (hRest ▸ hIn)
    obtain ⟨-, p, hGet⟩ := mem_waiting.mp hMem
    exact ⟨hLe, p, by rw [h k hOut, hGet]⟩

/-! ## Calls -/

/-- One XAUTOCLAIM of a client, but for the key, the group and where it starts. -/
structure Call where
  ctx : Ctx
  head : String
  consumer : String
  min_idle : String
  options : List String

namespace Call

def argv (call : Call) (key group start : String) : List String :=
  [call.head, key, group, call.consumer, call.min_idle, start] ++ call.options

/-- It is an XAUTOCLAIM whose words are read as `c`, and no more than `limit` entries are asked for. -/
def Asks (call : Call) (c : Claim) (limit : Nat) : Prop :=
  Name.of_ [call.head] = "XAUTOCLAIM" ∧
    autoclaim_args call.ctx.now call.consumer call.min_idle "0-0" call.options = .ok (c, .zero, limit)

end Call

/-- Where a reply says the next call starts. -/
def cursor : Reply → Option String
  | .array (.bulk next :: _) => some next
  | _ => none

/-- The ids of the entries a reply says are claimed. -/
def claimed_ids : Reply → List String
  | .array [_, .array claimed, _] => claimed.map named
  | _ => []

/-- The ids of the entries a reply says are deleted. -/
def deleted_ids : Reply → List String
  | .array [_, _, .array deleted] => deleted.map named
  | _ => []

theorem limit_of_options {words : List String} {limit limit' : Nat} {justid justid' : Bool}
    (h : autoclaim_options words limit justid = .ok (limit', justid')) (hLimit : 1 ≤ limit) : 1 ≤ limit' := by
  fun_induction autoclaim_options words limit justid with
  | case1 limit justid =>
    cases h
    exact hLimit
  | case2 limit justid word rest hWord ih => exact ih h hLimit
  | case3 => cases h
  | case4 limit justid word hWord hCount n rest ih =>
    cases hN : count n with
    | error f =>
      rw [hN] at h
      cases h
    | ok n =>
      rw [hN] at h
      exact ih n h (le_max_right _ _)
  | case5 => cases h

theorem Call.Asks.at_ {call : Call} {c : Claim} {limit : Nat} (h : call.Asks c limit) (start : Id) :
    autoclaim_args call.ctx.now call.consumer call.min_idle start.display call.options = .ok (c, start, limit) ∧
      1 ≤ limit := by
  obtain ⟨-, hArgs⟩ := h
  unfold autoclaim_args at hArgs ⊢
  cases hMin : count call.min_idle with
  | error f =>
    rw [hMin] at hArgs
    cases hArgs
  | ok min_idle =>
    rw [hMin] at hArgs
    have hZero : range_start "0-0" = .ok .zero := range_start_display .zero
    cases hOptions : autoclaim_options call.options 100 false with
    | error f =>
      rw [hZero, hOptions] at hArgs
      cases hArgs
    | ok found =>
      obtain ⟨found, justid⟩ := found
      rw [hZero, hOptions] at hArgs
      rw [range_start_display]
      cases hArgs
      exact ⟨rfl, limit_of_options hOptions (by decide)⟩

section

variable [Json]

/-- A client calls, and goes on from the id each call returns, until that is `0-0`. -/
def autoclaim_all (key group : String) : List Call → String → Db → List Reply × Db
  | [], _, db => ([], db)
  | call :: calls, start, db =>
    let (o, db) := db.exec (call.argv key group start) call.ctx
    match cursor o.reply with
    | none => ([o.reply], db)
    | some next =>
      if next = "0-0" then ([o.reply], db)
      else
        let (replies, db) := autoclaim_all key group calls next db
        (o.reply :: replies, db)

/-- What one call on a live group comes to. -/
theorem exec_autoclaim {db : Db} {call : Call} {c : Claim} {limit : Nat} {key group : String} {start : Id}
    {e : Entry} {s : Stream} {record : Group} (hAsks : call.Asks c limit)
    (hGet : db.get key call.ctx.now = some e) (hValue : e.value = .stream s)
    (hGroup : s.groups[group]? = some record) :
    (db.exec (call.argv key group start.display) call.ctx).1.reply =
        (autoclaim_group c call.ctx.now start limit s record).1.1 ∧
      (db.exec (call.argv key group start.display) call.ctx).2.keys =
        db.keys.insert key { e with value := .stream { s with
          groups := s.groups.insert group (autoclaim_group c call.ctx.now start limit s record).2 } } := by
  have hName : Name.of_ (call.argv key group start.display) = "XAUTOCLAIM" := hAsks.1
  have hRun : db.run (call.argv key group start.display) call.ctx =
      (Handler.changes xautoclaim).run call.ctx (call.argv key group start.display) { db } :=
    db.run_of_name call.ctx hName (by decide)
  have hSat : Sat (xautoclaim call.ctx (call.argv key group start.display)) { db }
      (fun reply r => reply = (autoclaim_group c call.ctx.now start limit s record).1.1 ∧
        r.db.keys = db.keys.insert key { e with value := .stream { s with
          groups := s.groups.insert group (autoclaim_group c call.ctx.now start limit s record).2 } })
      (fun _ => False) := by
    have hArgs := (hAsks.at_ start).1
    show Sat (attempt (autoclaim_args call.ctx.now call.consumer call.min_idle start.display call.options) >>= _)
      { db } _ _
    rw [hArgs]
    refine sat_edit _ (fun ⟨f, hError⟩ => ?_) (fun hNone => ?_) fun e' v db' hGet' hValue' hKeys => ?_
    · simp only [typed_ref, hGet, hValue, Typed.stream] at hError
      cases hError
    · rw [hGet] at hNone
      cases hNone
    · dsimp only at hGet'
      rw [hGet] at hGet'
      cases hGet'
      obtain rfl : s = v := Value.stream.inj (hValue.symm.trans hValue')
      simp only [on_group, hGroup] at hKeys ⊢
      rcases hResult : autoclaim_group c call.ctx.now start limit s record with ⟨⟨reply, changed⟩, record'⟩
      rw [hResult] at hKeys
      cases changed with
      | true => exact ⟨rfl, hKeys⟩
      | false => exact ⟨rfl, hKeys⟩
  rcases Db.exec_of_sat hRun (sat_changes hSat) with ⟨reply, r, ⟨hReply, hKeys⟩, hExec⟩ | ⟨f, r, hFalse, -⟩
  · rw [hExec]
    exact ⟨hReply, hKeys⟩
  · exact hFalse.elim

end

/-! ## All calls together -/

/-- A call considered the entries `ids`: what it reports claimed and deleted are those among
them, in their order, and each is left as its fate was. -/
def Considers (s : Stream) (before after : BTreeMap Id Pending) (call : Call) (reply : Reply) (ids : List Id) :
    Prop :=
  ∃ c limit, call.Asks c limit ∧ ids.length ≤ limit ∧
    claimed_ids reply = (ids.filter fun id => c.fate call.ctx.now s before id = .taken).map Id.display ∧
    deleted_ids reply = (ids.filter fun id => c.fate call.ctx.now s before id = .gone).map Id.display ∧
    ∀ id ∈ ids, after[id]? = c.leaves call.ctx.now s before id

/-- The calls made, each with its reply and the entries it considered. -/
def Pages (s : Stream) (before after : BTreeMap Id Pending) :
    List Call → List Reply → List (List Id) → Prop
  | call :: calls, reply :: replies, ids :: considered =>
    Considers s before after call reply ids ∧ Pages s before after calls replies considered
  | _, [], [] => True
  | _, _, _ => False

/-- Only the entries considered matter. -/
theorem Pages.congr {s s' : Stream} {before before' after : BTreeMap Id Pending} {calls : List Call}
    {replies : List Reply} {considered : List (List Id)} (hEntries : s'.entries = s.entries)
    (h : ∀ id ∈ considered.flatten, before'[id]? = before[id]?) (hPages : Pages s' before' after calls replies considered) :
    Pages s before after calls replies considered := by
  induction calls generalizing replies considered with
  | nil =>
    cases replies <;> cases considered <;> exact hPages
  | cons call calls ih =>
    rcases replies with _ | ⟨reply, replies⟩
    · cases considered <;> exact hPages
    · rcases considered with _ | ⟨ids, considered⟩
      · exact hPages
      · obtain ⟨⟨c, limit, hAsks, hLimit, hClaimed, hDeleted, hLeaves⟩, hRest⟩ := hPages
        have hFate {id : Id} (hIn : id ∈ ids) :
            c.fate call.ctx.now s' before' id = c.fate call.ctx.now s before id := by
          have hHere := h id (List.mem_flatten.mpr ⟨ids, List.mem_cons_self, hIn⟩)
          unfold Claim.fate
          rw [hEntries, hHere]
        refine ⟨⟨c, limit, hAsks, hLimit, ?_, ?_, fun id hIn => ?_⟩, ih (fun id hIn => h id ?_) hRest⟩
        · rw [hClaimed]
          exact congrArg _ (List.filter_congr fun id hIn => by rw [hFate hIn])
        · rw [hDeleted]
          exact congrArg _ (List.filter_congr fun id hIn => by rw [hFate hIn])
        · rw [hLeaves id hIn]
          unfold Claim.leaves
          rw [hFate hIn, h id (List.mem_flatten.mpr ⟨ids, List.mem_cons_self, hIn⟩)]
        · rw [List.flatten_cons]
          exact List.mem_append_right _ hIn

/-- The ids the replies report are among those considered, and none is reported twice. -/
theorem Pages.reported {s : Stream} {before after : BTreeMap Id Pending} {calls : List Call}
    {replies : List Reply} {considered : List (List Id)} (hPages : Pages s before after calls replies considered)
    (hNodup : considered.flatten.Nodup) :
    ∃ taken gone : List Id, replies.flatMap claimed_ids = taken.map Id.display ∧
      replies.flatMap deleted_ids = gone.map Id.display ∧
      taken.Sublist considered.flatten ∧ gone.Sublist considered.flatten ∧ taken.Disjoint gone := by
  induction calls generalizing replies considered with
  | nil =>
    rcases replies with _ | ⟨reply, replies⟩
    · exact ⟨[], [], rfl, rfl, List.nil_sublist _, List.nil_sublist _, List.disjoint_nil_left _⟩
    · cases considered <;> exact hPages.elim
  | cons call calls ih =>
    rcases replies with _ | ⟨reply, replies⟩
    · exact ⟨[], [], rfl, rfl, List.nil_sublist _, List.nil_sublist _, List.disjoint_nil_left _⟩
    · rcases considered with _ | ⟨ids, considered⟩
      · exact hPages.elim
      · obtain ⟨⟨c, limit, -, -, hClaimed, hDeleted, -⟩, hRest⟩ := hPages
        rw [List.flatten_cons] at hNodup ⊢
        obtain ⟨-, hLater, hApart⟩ := List.nodup_append'.mp hNodup
        obtain ⟨taken, gone, hTaken, hGone, hInTaken, hInGone, hOnce⟩ := ih hRest hLater
        refine ⟨ids.filter (fun id => c.fate call.ctx.now s before id = .taken) ++ taken,
          ids.filter (fun id => c.fate call.ctx.now s before id = .gone) ++ gone, ?_, ?_,
          List.filter_sublist.append hInTaken, List.filter_sublist.append hInGone, ?_⟩
        · rw [List.flatMap_cons, hClaimed, hTaken, List.map_append]
        · rw [List.flatMap_cons, hDeleted, hGone, List.map_append]
        · intro id hClaim hDrop
          rcases List.mem_append.mp hClaim with hClaim | hClaim <;> rcases List.mem_append.mp hDrop with hDrop | hDrop
          · -- one call: an entry has one fate
            have hTook := of_decide_eq_true (List.mem_filter.mp hClaim).2
            have hDropped := of_decide_eq_true (List.mem_filter.mp hDrop).2
            rw [hTook] at hDropped
            cases hDropped
          · exact hApart (List.mem_filter.mp hClaim).1 (hInGone.subset hDrop)
          · exact hApart (List.mem_filter.mp hDrop).1 (hInTaken.subset hClaim)
          · exact hOnce hClaim hDrop

/-- What some calls, of which the first starts at `start`, come to. -/
structure Covers (key group : String) (calls : List Call) (start : Id) (s : Stream) (before : BTreeMap Id Pending)
    (replies : List Reply) (db' : Db) (considered : List (List Id)) (after : BTreeMap Id Pending) : Prop where
  pages : Pages s before after calls replies considered
  order : considered.flatten <+: waiting start before
  /-- Entries that did not come up are as they were. -/
  frame : ∀ id ∉ considered.flatten, after[id]? = before[id]?
  holds : ∃ (e : Entry) (groups : BTreeMap String Group) (record : Group), db'.keys[key]? = some e ∧
    e.value = .stream { s with groups } ∧ groups[group]? = some record ∧ record.pending = after
  ended : replies.getLast?.bind cursor = some "0-0" → considered.flatten = waiting start before
  ends : (waiting start before).length < calls.length → replies.getLast?.bind cursor = some "0-0"

section

variable [Json]

theorem autoclaim_all_covers (key group : String) (calls : List Call) {start : Id} {db : Db} {e : Entry}
    {s : Stream} {record : Group} (hHeld : db.keys[key]? = some e) (hValue : e.value = .stream s)
    (hGroup : s.groups[group]? = some record)
    (hCalls : ∀ call ∈ calls, (∃ c limit, call.Asks c limit) ∧ e.expired call.ctx.now = false) :
    ∃ considered after, Covers key group calls start s record.pending
      (autoclaim_all key group calls start.display db).1 (autoclaim_all key group calls start.display db).2
      considered after := by
  induction calls generalizing start db e s record with
  | nil =>
    exact ⟨[], record.pending, trivial, List.nil_prefix, fun _ _ => rfl, ⟨e, s.groups, record, hHeld, hValue, hGroup, rfl⟩,
      (fun h => nomatch h), fun h => absurd h (Nat.not_lt_zero _)⟩
  | cons call calls ih =>
    obtain ⟨⟨⟨c, limit, hAsks⟩, hLive⟩, hMore⟩ := List.forall_mem_cons.mp hCalls
    have hLimit := (hAsks.at_ start).2
    have hGet : db.get key call.ctx.now = some e := by simp [Db.get, hHeld, hLive]
    obtain ⟨hReply, hKeys⟩ := @exec_autoclaim _ db call c limit key group start e s record hAsks hGet hValue hGroup
    have hNext := next_start_eq start hLimit record.pending
    have hNodup : (candidates start limit record.pending).Nodup := by
      rw [candidates_eq]
      exact ((sorted_waiting start record.pending).imp fun hLt => ne_of_lt hLt).sublist (List.take_sublist _ _)
    obtain ⟨hLoop, hClaimed, hDeleted⟩ :=
      @autoclaim_loop_exact c call.ctx.now s (candidates start limit record.pending) hNodup record.pending
    rcases hFound : autoclaim_loop c call.ctx.now s (candidates start limit record.pending) record.pending with
      ⟨found, pending⟩
    rw [hFound] at hLoop hClaimed hDeleted
    rcases hResult : autoclaim_group c call.ctx.now start limit s record with ⟨⟨reply, changed⟩, record'⟩
    have hShape : reply = .array [.bulk ((waiting start record.pending).drop limit |>.head?.getD .zero).display,
        .array found.claimed, .array found.deleted] ∧ record'.pending = pending := by
      unfold autoclaim_group at hResult
      simp only [hFound, hNext] at hResult
      cases hResult
      refine ⟨rfl, ?_⟩
      split <;> rfl
    obtain ⟨hReplyShape, hPending⟩ := hShape
    rw [hResult] at hReply hKeys
    rcases hExec : db.exec (call.argv key group start.display) call.ctx with ⟨o, db'⟩
    rw [hExec] at hReply hKeys
    dsimp only at hReply hKeys
    rw [hReplyShape] at hReply
    -- the first call, when the later ones leave its entries alone
    have hHere {after : BTreeMap Id Pending}
        (hAfter : ∀ id ∈ candidates start limit record.pending, after[id]? = pending[id]?) :
        Considers s record.pending after call o.reply (candidates start limit record.pending) := by
      refine ⟨c, limit, hAsks, ?_, ?_, ?_, fun id hIn => ?_⟩
      · rw [candidates_eq]
        exact List.length_take_le _ _
      · rw [hReply]
        exact hClaimed
      · rw [hReply]
        exact hDeleted
      · rw [hAfter id hIn, hLoop, if_pos hIn]
    have hFrame {id : Id} (hOut : id ∉ candidates start limit record.pending) :
        pending[id]? = record.pending[id]? := by
      rw [hLoop, if_neg hOut]
    have hHeld' : db'.keys[key]? = some { e with
        value := .stream { s with groups := s.groups.insert group record' } } := by
      rw [hKeys, BTreeMap.get_insert, if_pos rfl]
    have hGroup' : (s.groups.insert group record')[group]? = some record' := by
      rw [BTreeMap.get_insert, if_pos rfl]
    cases hRest : (waiting start record.pending).drop limit with
    | nil =>
      -- nothing is left: the reply says `0-0`
      have hAll : candidates start limit record.pending = waiting start record.pending := by
        rw [candidates_eq]
        exact List.take_of_length_le (List.drop_eq_nil_iff.mp hRest)
      have hCursor : cursor o.reply = some "0-0" := by
        rw [hReply, hRest]
        rfl
      have hRun : autoclaim_all key group (call :: calls) start.display db = ([o.reply], db') := by
        simp only [autoclaim_all, hExec, hCursor, if_pos]
      rw [hRun]
      refine ⟨[candidates start limit record.pending], pending, ⟨hHere fun _ _ => rfl, ?_⟩, ?_, ?_,
        ⟨_, _, record', hHeld', rfl, hGroup', hPending⟩, ?_, fun _ => hCursor⟩
      · cases calls <;> trivial
      · simp [hAll]
      · intro id hOut
        exact hFrame (by simpa using hOut)
      · simp [hAll]
    | cons next rest =>
      have hSplit := sorted_waiting start record.pending
      rw [← List.take_append_drop limit (waiting start record.pending), List.pairwise_append, hRest,
        ← candidates_eq] at hSplit
      obtain ⟨-, hBack, hAcross⟩ := hSplit
      have hLeft : waiting next pending = next :: rest := waiting_next hRest fun k hOut => hFrame hOut
      have hNonempty : candidates start limit record.pending ≠ [] := by
        rw [candidates_eq]
        intro hNil
        rcases List.take_eq_nil_iff.mp hNil with hZero | hNil
        · omega
        · rw [hNil, List.drop_nil] at hRest
          cases hRest
      -- the end mark is below every id that is left
      have hNotEnd : next.display ≠ "0-0" := by
        obtain ⟨id, hIn⟩ := List.exists_mem_of_ne_nil _ hNonempty
        intro hEnd
        have hZero : next = .zero := Id.display_injective hEnd
        have hBelow := hAcross id hIn next List.mem_cons_self
        rw [hZero] at hBelow
        exact absurd hBelow (not_lt.mpr id.zero_le)
      have hCursor : cursor o.reply = some next.display := by
        rw [hReply, hRest]
        rfl
      have hLaterLive : ∀ call ∈ calls, (∃ c limit, call.Asks c limit) ∧
          ({ e with value := .stream { s with groups := s.groups.insert group record' } } : Entry).expired
            call.ctx.now = false := hMore
      obtain ⟨considered, after, hLater⟩ := @ih next db' _ _ record' hHeld' rfl hGroup' hLaterLive
      rw [hPending] at hLater
      rcases hRun : autoclaim_all key group calls next.display db' with ⟨replies, last⟩
      rw [hRun] at hLater
      have hPrefix : considered.flatten <+: next :: rest := hLeft ▸ hLater.order
      have hApart {id : Id} (hIn : id ∈ candidates start limit record.pending) : id ∉ considered.flatten := by
        intro hAgain
        exact lt_irrefl id (hAcross id hIn id (hPrefix.subset hAgain))
      have hWhole : candidates start limit record.pending ++ (next :: rest) = waiting start record.pending := by
        rw [candidates_eq, ← hRest, List.take_append_drop]
      have hRunAll : autoclaim_all key group (call :: calls) start.display db = (o.reply :: replies, last) := by
        simp only [autoclaim_all, hExec, hCursor, hNotEnd, if_false, hRun]
      rw [hRunAll]
      have hLast : (o.reply :: replies).getLast?.bind cursor = some "0-0" ↔ replies.getLast?.bind cursor = some "0-0" := by
        cases replies with
        | nil => simpa [hCursor] using hNotEnd
        | cons reply replies => rw [List.getLast?_cons_cons]
      refine ⟨candidates start limit record.pending :: considered, after, ⟨?_, ?_⟩, ?_, ?_, ?_, ?_, ?_⟩
      · exact hHere fun id hIn => hLater.frame id (hApart hIn)
      · have hEntries : ({ s with groups := s.groups.insert group record' } : Stream).entries = s.entries := rfl
        exact hLater.pages.congr hEntries fun id hIn => hFrame fun hEarlier => hApart hEarlier hIn
      · rw [List.flatten_cons, ← hWhole]
        exact (List.prefix_append_right_inj _).mpr hPrefix
      · intro id hOut
        rw [List.flatten_cons, List.mem_append, not_or] at hOut
        rw [hLater.frame id hOut.2, hFrame hOut.1]
      · exact hLater.holds
      · intro hEnd
        rw [List.flatten_cons, hLater.ended (hLast.mp hEnd), hLeft, hWhole]
      · intro hLonger
        refine hLast.mpr (hLater.ends ?_)
        rw [← hWhole, List.length_append] at hLonger
        rw [hLeft]
        have := List.length_pos_iff.mpr hNonempty
        simp only [List.length_cons] at hLonger ⊢
        omega

/-- **XAUTOCLAIM comes to every pending entry once.** A client calls from `0-0` on and goes on
from the id each call returns. Once that is `0-0` every entry that was pending has been
considered in one call, in id order, and was taken, left or dropped there; and it is `0-0`
after one call more than there are entries, at the latest. -/
theorem autoclaim_covers (key group : String) (calls : List Call) {db : Db} {e : Entry} {s : Stream}
    {record : Group} (hHeld : db.keys[key]? = some e) (hValue : e.value = .stream s)
    (hGroup : s.groups[group]? = some record)
    (hCalls : ∀ call ∈ calls, (∃ c limit, call.Asks c limit) ∧ e.expired call.ctx.now = false) :
    let (replies, db') := autoclaim_all key group calls "0-0" db
    ∃ (considered : List (List Id)) (after : BTreeMap Id Pending),
      Pages s record.pending after calls replies considered ∧
      considered.flatten <+: record.pending.toList.map Prod.fst ∧ considered.flatten.Pairwise (· < ·) ∧
      (∀ id ∉ considered.flatten, after[id]? = record.pending[id]?) ∧
      (∃ (e' : Entry) (groups : BTreeMap String Group) (record' : Group), db'.keys[key]? = some e' ∧
        e'.value = .stream { s with groups } ∧ groups[group]? = some record' ∧ record'.pending = after) ∧
      (∃ taken gone : List Id, replies.flatMap claimed_ids = taken.map Id.display ∧
        replies.flatMap deleted_ids = gone.map Id.display ∧
        taken.Pairwise (· < ·) ∧ gone.Pairwise (· < ·) ∧ taken.Disjoint gone) ∧
      (replies.getLast?.bind cursor = some "0-0" → considered.flatten = record.pending.toList.map Prod.fst) ∧
      (record.pending.toList.length < calls.length → replies.getLast?.bind cursor = some "0-0") := by
  obtain ⟨considered, after, hAll⟩ :=
    @autoclaim_all_covers _ key group calls .zero db e s record hHeld hValue hGroup hCalls
  have hStart : Id.display .zero = "0-0" := by decide +kernel
  rw [hStart] at hAll
  have hWaiting := waiting_zero record.pending
  have hSorted : considered.flatten.Pairwise (· < ·) := (sorted_waiting .zero _).sublist hAll.order.sublist
  obtain ⟨taken, gone, hTaken, hGone, hInTaken, hInGone, hOnce⟩ :=
    hAll.pages.reported (hSorted.imp fun hLt => ne_of_lt hLt)
  refine ⟨considered, after, hAll.pages, hWaiting ▸ hAll.order, hSorted, hAll.frame, hAll.holds,
    ⟨taken, gone, hTaken, hGone, hSorted.sublist hInTaken, hSorted.sublist hInGone, hOnce⟩,
    hWaiting ▸ hAll.ended, ?_⟩
  intro hLonger
  exact hAll.ends (by rwa [hWaiting, List.length_map])

end

/-- Two entries are pending, the first of them deleted, and a call considers one at a time. -/
theorem autoclaim_covers_two :
    let _ : Json := plainJson
    let ctx : Ctx := { now := 50, replay := false, blocking := false, access := ⟨true, .all⟩, max_keys := 9,
                       max_elements := 9, events := false, random := .first }
    let call : Call := { ctx, head := "XAUTOCLAIM", consumer := "bob", min_idle := "10", options := ["COUNT", "1"] }
    let first : Id := { ms := 1, seq := 0 }
    let second : Id := { ms := 2, seq := 0 }
    let record : Group := { pending := (∅ : BTreeMap Id Pending).insert first ⟨"ann", 5, 1⟩ |>.insert second ⟨"ann", 5, 1⟩ }
    let s : Stream := { entries := (∅ : BTreeMap Id (List (String × String))).insert second [("k", "v")],
                        groups := (∅ : BTreeMap String Group).insert "g" record }
    let db : Db := { keys := (∅ : BTreeMap String Entry).insert "q" ⟨.stream s, none⟩ }
    let replies := (autoclaim_all "q" "g" [call, call, call] "0-0" db).1
    ∃ considered after, Pages s record.pending after [call, call, call] replies considered ∧
      considered.flatten = [first, second] := by
  intro _ ctx call first second record s db replies
  have hArgs : autoclaim_args 50 "bob" "10" "0-0" ["COUNT", "1"] =
      .ok ({ consumer := "bob", min_idle := 10, delivered := 50 }, .zero, 1) := by
    have hSome : (autoclaim_args 50 "bob" "10" "0-0" ["COUNT", "1"]).toOption =
        some ({ consumer := "bob", min_idle := 10, delivered := 50 }, .zero, 1) := by
      decide +kernel
    cases hRead : autoclaim_args 50 "bob" "10" "0-0" ["COUNT", "1"] with
    | error f =>
      rw [hRead] at hSome
      cases hSome
    | ok found =>
      rw [hRead] at hSome
      exact congrArg _ (Option.some.inj hSome)
  have hAsks : (∃ c limit, call.Asks c limit) ∧ (⟨.stream s, none⟩ : Entry).expired call.ctx.now = false :=
    ⟨⟨_, _, by decide, hArgs⟩, rfl⟩
  have hAll := @autoclaim_covers plainJson "q" "g" [call, call, call] db ⟨.stream s, none⟩ s record
    (by simp [db]) rfl (by simp [s]) (by simp [hAsks])
  obtain ⟨considered, after, hPages, -, -, -, -, -, hEnded, hEnds⟩ := hAll
  have hListed : record.pending.toList.map Prod.fst = [first, second] := by decide +kernel
  refine ⟨considered, after, hPages, ?_⟩
  rw [hEnded (hEnds ?_), hListed]
  have hLength := congrArg List.length hListed
  simp only [List.length_map] at hLength
  rw [hLength]
  decide

end Exec

end Postino
