import Postino.Commands.Groups
import Postino.Db.Stream

/-!
# Who entries are pending for

A consumer is known to its group before an entry becomes its own: reading seats the reader
first, and a claim that takes an entry has seen its consumer. A consumer that goes takes
its pending entries along.
-/

namespace Postino

open Lib

namespace Group

open Exec

variable {g : Group}

theorem mem_insert_consumer (g : Group) (name : String) (seat : Consumer) {c : String} (h : c ∈ g.consumers) :
    c ∈ g.consumers.insert name seat :=
  Std.ExtTreeMap.mem_insert.mpr (.inr h)

theorem create_consumer_seated (now : Nat) (consumer : String) (h : g.Seated) :
    (create_consumer now consumer g).2.Seated := by
  unfold create_consumer
  split
  · exact h
  · exact h.of_pending (fun _ => g.mem_insert_consumer consumer _) fun id p hGet => .inr ⟨p, hGet, rfl⟩

theorem delete_consumer_seated (consumer : String) (h : g.Seated) : (delete_consumer consumer g).2.Seated :=
  fun id p hGet => by
    simp only [delete_consumer, Std.ExtTreeMap.getElem?_filter', Option.filter_eq_some_iff] at hGet
    obtain ⟨hOld, hOther⟩ := hGet
    obtain ⟨seat, hSeat⟩ := (BTreeMap.mem_iff_get _ _).mp (h id p hOld)
    refine (BTreeMap.mem_iff_get _ _).mpr ⟨seat, ?_⟩
    have hNe : consumer ≠ p.consumer := fun hEq => by simp [hEq] at hOther
    simp only [delete_consumer]
    rw [BTreeMap.get_erase_ne _ hNe, hSeat]

theorem ack_all_seated (ids : List Id) (h : g.Seated) : (ack_all ids g).2.Seated := by
  induction ids generalizing g with
  | nil => exact h
  | cons id ids ih =>
    refine ih (h.of_pending (fun _ h => h) fun other p hGet => .inr ?_)
    dsimp only at hGet
    rw [BTreeMap.get_erase] at hGet
    split at hGet
    · cases hGet
    · exact ⟨p, hGet, rfl⟩

/-- Entries are handed out to one who is seated. -/
theorem hand_out_seated (consumer : String) (now : Nat) (noack : Bool) (ids : List Id) (h : g.Seated)
    (hSeat : consumer ∈ g.consumers) : (hand_out consumer now noack ids g).Seated := by
  induction ids generalizing g with
  | nil => exact h
  | cons id ids ih =>
    refine ih (h.of_pending (fun _ h => h) fun other p hGet => ?_) hSeat
    dsimp only at hGet
    split at hGet
    · exact .inr ⟨p, hGet, rfl⟩
    · rw [BTreeMap.get_insert] at hGet
      split at hGet
      · cases hGet
        exact .inl hSeat
      · exact .inr ⟨p, hGet, rfl⟩

theorem hand_group_seated (consumer : String) (now limit : Nat) (noack : Bool) (after : Option Id) (s : Stream)
    (h : g.Seated) : (hand_group consumer now limit noack after s g).2.Seated := by
  have hSeated (seat : Consumer) : ({ g with consumers := g.consumers.insert consumer seat } : Group).Seated :=
    h.of_pending (fun _ => g.mem_insert_consumer consumer seat) fun id p hGet => .inr ⟨p, hGet, rfl⟩
  unfold hand_group
  cases after with
  | none =>
    exact hand_out_seated consumer now noack _ (hSeated _) (Std.ExtTreeMap.mem_insert.mpr (.inl (by simp)))
  | some after => exact hSeated _

end Group

/-! ## Claims -/

namespace Exec

/-- What is pending under an id a claim names: FORCE makes an entry so that was not. -/
def Claim.held (c : Claim) (s : Stream) (id : Id) (pending : BTreeMap Id Pending) : Option Pending :=
  (pending[id]?).or (if c.force && s.entries.contains id then
    some { consumer := c.consumer, delivered := c.delivered, count := 0 } else none)

/-- Whether an entry has been delivered too lately to be claimed. -/
def Claim.busy (c : Claim) (now : Nat) (p : Pending) : Prop := now - p.delivered < c.min_idle ∧ 0 < p.count

section

variable {c : Claim} {now : Nat} {s : Stream} {id : Id} {ids : List Id} {pending : BTreeMap Id Pending}

/-- What a claim does with one id. -/
theorem claim_loop_step : claim_loop c now s (id :: ids) pending =
    match c.held s id pending with
    | none => claim_loop c now s ids pending
    | some p =>
      match s.entries[id]? with
      | none =>
        (((claim_loop c now s ids (pending.erase id)).1.1, true), (claim_loop c now s ids (pending.erase id)).2)
      | some fields =>
        if now - p.delivered < c.min_idle ∧ 0 < p.count then claim_loop c now s ids (pending.insert id p)
        else
          ((c.reply id fields :: (claim_loop c now s ids (pending.insert id (c.taken p))).1.1,
            (claim_loop c now s ids (pending.insert id (c.taken p))).1.2),
            (claim_loop c now s ids (pending.insert id (c.taken p))).2) := rfl

theorem claim_loop_skip (h : c.held s id pending = none) :
    claim_loop c now s (id :: ids) pending = claim_loop c now s ids pending := by
  rw [claim_loop_step, h]

theorem claim_loop_gone {p : Pending} (h : c.held s id pending = some p) (hGone : s.entries[id]? = none) :
    claim_loop c now s (id :: ids) pending =
      (((claim_loop c now s ids (pending.erase id)).1.1, true), (claim_loop c now s ids (pending.erase id)).2) := by
  rw [claim_loop_step, h, hGone]

theorem claim_loop_busy {p : Pending} (h : c.held s id pending = some p) {fields : List (String × String)}
    (hEntry : s.entries[id]? = some fields) (hBusy : c.busy now p) :
    claim_loop c now s (id :: ids) pending = claim_loop c now s ids pending := by
  -- one that FORCE makes pending has not been delivered
  have hWas : pending[id]? = some p := by
    unfold Claim.held at h
    cases hPending : pending[id]? with
    | some q =>
      rw [hPending] at h
      exact h
    | none =>
      rw [hPending, Option.none_or] at h
      split at h
      · cases h
        exact absurd hBusy.2 (Nat.lt_irrefl 0)
      · cases h
  unfold Claim.busy at hBusy
  rw [claim_loop_step, h, hEntry]
  dsimp only
  rw [if_pos hBusy, BTreeMap.insert_get _ hWas]

theorem claim_loop_taken {p : Pending} (h : c.held s id pending = some p) {fields : List (String × String)}
    (hEntry : s.entries[id]? = some fields) (hIdle : ¬c.busy now p) :
    claim_loop c now s (id :: ids) pending =
      ((c.reply id fields :: (claim_loop c now s ids (pending.insert id (c.taken p))).1.1,
        (claim_loop c now s ids (pending.insert id (c.taken p))).1.2),
        (claim_loop c now s ids (pending.insert id (c.taken p))).2) := by
  unfold Claim.busy at hIdle
  rw [claim_loop_step, h, hEntry]
  dsimp only
  rw [if_neg hIdle]

end

section

variable {pending : BTreeMap Id Pending} {first id : Id} {consumer : String}

/-- Who has an entry once another was dropped had it before. -/
theorem had_of_erase (h : ∃ q, (pending.erase first)[id]? = some q ∧ q.consumer = consumer) :
    ∃ q, pending[id]? = some q ∧ q.consumer = consumer := by
  obtain ⟨q, hGet, hEq⟩ := h
  rw [BTreeMap.get_erase] at hGet
  split at hGet
  · cases hGet
  · exact ⟨q, hGet, hEq⟩

/-- Who has an entry once one was taken had it before, or took it. -/
theorem had_of_insert {taken : Pending}
    (h : ∃ q, (pending.insert first taken)[id]? = some q ∧ q.consumer = consumer) :
    (∃ q, pending[id]? = some q ∧ q.consumer = consumer) ∨ consumer = taken.consumer := by
  obtain ⟨q, hGet, hEq⟩ := h
  rw [BTreeMap.get_insert] at hGet
  split at hGet
  · cases hGet
    exact .inr hEq.symm
  · exact .inl ⟨q, hGet, hEq⟩

end

/-- A claim leaves entries with who had them, or takes some. -/
theorem claim_loop_consumers (c : Claim) (now : Nat) (s : Stream) (ids : List Id) (pending : BTreeMap Id Pending)
    {id : Id} {p : Pending} (h : (claim_loop c now s ids pending).2[id]? = some p) :
    (∃ q, pending[id]? = some q ∧ q.consumer = p.consumer) ∨
      p.consumer = c.consumer ∧ (claim_loop c now s ids pending).1.1 ≠ [] := by
  induction ids generalizing pending with
  | nil => exact .inl ⟨p, h, rfl⟩
  | cons first ids ih =>
    cases hHeld : c.held s first pending with
    | none =>
      rw [claim_loop_skip hHeld] at h ⊢
      exact ih _ h
    | some held =>
      cases hEntry : s.entries[first]? with
      | none =>
        rw [claim_loop_gone hHeld hEntry] at h ⊢
        exact (ih _ h).imp_left had_of_erase
      | some fields =>
        by_cases hBusy : c.busy now held
        · rw [claim_loop_busy hHeld hEntry hBusy] at h ⊢
          exact ih _ h
        · rw [claim_loop_taken hHeld hEntry hBusy] at h ⊢
          rcases ih _ h with hHad | ⟨hConsumer, -⟩
          · exact (had_of_insert hHad).imp_right fun hTook => ⟨hTook, List.cons_ne_nil _ _⟩
          · exact .inr ⟨hConsumer, List.cons_ne_nil _ _⟩

section

variable {c : Claim} {now : Nat} {s : Stream} {id : Id} {ids : List Id} {pending : BTreeMap Id Pending}

/-- What an XAUTOCLAIM does with one candidate. -/
theorem autoclaim_loop_step : autoclaim_loop c now s (id :: ids) pending =
    match s.entries[id]?, pending[id]? with
    | none, _ =>
      ({ (autoclaim_loop c now s ids (pending.erase id)).1 with
          deleted := .bulk id.display :: (autoclaim_loop c now s ids (pending.erase id)).1.deleted },
        (autoclaim_loop c now s ids (pending.erase id)).2)
    | some _, none => autoclaim_loop c now s ids pending
    | some fields, some p =>
      if now - p.delivered < c.min_idle then autoclaim_loop c now s ids pending
      else
        ({ (autoclaim_loop c now s ids (pending.insert id (c.taken p))).1 with
            claimed := c.reply id fields :: (autoclaim_loop c now s ids (pending.insert id (c.taken p))).1.claimed },
          (autoclaim_loop c now s ids (pending.insert id (c.taken p))).2) := rfl

theorem autoclaim_loop_gone (h : s.entries[id]? = none) :
    autoclaim_loop c now s (id :: ids) pending =
      ({ (autoclaim_loop c now s ids (pending.erase id)).1 with
          deleted := .bulk id.display :: (autoclaim_loop c now s ids (pending.erase id)).1.deleted },
        (autoclaim_loop c now s ids (pending.erase id)).2) := by
  rw [autoclaim_loop_step, h]

theorem autoclaim_loop_skip {fields : List (String × String)} (h : s.entries[id]? = some fields)
    (hNone : pending[id]? = none) :
    autoclaim_loop c now s (id :: ids) pending = autoclaim_loop c now s ids pending := by
  rw [autoclaim_loop_step, h, hNone]

theorem autoclaim_loop_busy {fields : List (String × String)} {p : Pending} (h : s.entries[id]? = some fields)
    (hHeld : pending[id]? = some p) (hBusy : now - p.delivered < c.min_idle) :
    autoclaim_loop c now s (id :: ids) pending = autoclaim_loop c now s ids pending := by
  rw [autoclaim_loop_step, h, hHeld]
  exact if_pos hBusy

theorem autoclaim_loop_taken {fields : List (String × String)} {p : Pending} (h : s.entries[id]? = some fields)
    (hHeld : pending[id]? = some p) (hIdle : ¬now - p.delivered < c.min_idle) :
    autoclaim_loop c now s (id :: ids) pending =
      ({ (autoclaim_loop c now s ids (pending.insert id (c.taken p))).1 with
          claimed := c.reply id fields :: (autoclaim_loop c now s ids (pending.insert id (c.taken p))).1.claimed },
        (autoclaim_loop c now s ids (pending.insert id (c.taken p))).2) := by
  rw [autoclaim_loop_step, h, hHeld]
  exact if_neg hIdle

end

theorem autoclaim_loop_consumers (c : Claim) (now : Nat) (s : Stream) (ids : List Id)
    (pending : BTreeMap Id Pending) {id : Id} {p : Pending}
    (h : (autoclaim_loop c now s ids pending).2[id]? = some p) :
    (∃ q, pending[id]? = some q ∧ q.consumer = p.consumer) ∨
      p.consumer = c.consumer ∧ (autoclaim_loop c now s ids pending).1.claimed ≠ [] := by
  induction ids generalizing pending with
  | nil => exact .inl ⟨p, h, rfl⟩
  | cons first ids ih =>
    cases hEntry : s.entries[first]? with
    | none =>
      rw [autoclaim_loop_gone hEntry] at h ⊢
      exact (ih _ h).imp_left had_of_erase
    | some fields =>
      cases hHeld : pending[first]? with
      | none =>
        rw [autoclaim_loop_skip hEntry hHeld] at h ⊢
        exact ih _ h
      | some held =>
        by_cases hBusy : now - held.delivered < c.min_idle
        · rw [autoclaim_loop_busy hEntry hHeld hBusy] at h ⊢
          exact ih _ h
        · rw [autoclaim_loop_taken hEntry hHeld hBusy] at h ⊢
          rcases ih _ h with hHad | ⟨hConsumer, -⟩
          · exact (had_of_insert hHad).imp_right fun hTook => ⟨hTook, List.cons_ne_nil _ _⟩
          · exact .inr ⟨hConsumer, List.cons_ne_nil _ _⟩

end Exec

namespace Group

open Exec

variable {g : Group}

theorem claim_group_seated (c : Claim) (now : Nat) (ids : List Id) (s : Stream) (h : g.Seated) :
    (claim_group c now ids s g).2.Seated := by
  unfold claim_group
  rcases hLoop : claim_loop c now s ids g.pending with ⟨⟨out, deleted⟩, pending⟩
  have hFrom {id : Id} {p : Pending} (hGet : pending[id]? = some p) :
      (∃ q, g.pending[id]? = some q ∧ q.consumer = p.consumer) ∨ p.consumer = c.consumer ∧ out ≠ [] := by
    have hConsumers := @claim_loop_consumers c now s ids g.pending id p
    rw [hLoop] at hConsumers
    exact hConsumers hGet
  dsimp only
  split
  · next hNone =>
    refine h.of_pending (fun _ h => h) fun id p hGet => .inr ?_
    rcases hFrom hGet with hOld | ⟨-, hSome⟩
    · exact hOld
    · exact absurd (List.isEmpty_iff.mp hNone) hSome
  · refine h.of_pending (fun _ => g.mem_insert_consumer c.consumer _) fun id p hGet => ?_
    rcases hFrom hGet with hOld | ⟨hConsumer, -⟩
    · exact .inr hOld
    · exact .inl (Std.ExtTreeMap.mem_insert.mpr (.inl (by simp [hConsumer])))

theorem autoclaim_group_seated (c : Claim) (now : Nat) (start : Id) (limit : Nat) (s : Stream) (h : g.Seated) :
    (autoclaim_group c now start limit s g).2.Seated := by
  unfold autoclaim_group
  extract_lets considered next
  rcases hLoop : autoclaim_loop c now s considered g.pending with ⟨found, pending⟩
  have hFrom {id : Id} {p : Pending} (hGet : pending[id]? = some p) :
      (∃ q, g.pending[id]? = some q ∧ q.consumer = p.consumer) ∨
        p.consumer = c.consumer ∧ found.claimed ≠ [] := by
    have hConsumers := @autoclaim_loop_consumers c now s considered g.pending id p
    rw [hLoop] at hConsumers
    exact hConsumers hGet
  dsimp only
  split
  · refine h.of_pending (fun _ => g.mem_insert_consumer c.consumer _) fun id p hGet => ?_
    rcases hFrom hGet with hOld | ⟨hConsumer, -⟩
    · exact .inr hOld
    · exact .inl (Std.ExtTreeMap.mem_insert.mpr (.inl (by simp [hConsumer])))
  · next hNone =>
    refine h.of_pending (fun _ h => h) fun id p hGet => .inr ?_
    rcases hFrom hGet with hOld | ⟨-, hSome⟩
    · exact hOld
    · simp [hSome] at hNone

end Group

end Postino
