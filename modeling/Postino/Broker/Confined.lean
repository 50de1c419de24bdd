import Postino.Broker.Permit
import Postino.Commands.Written

/-!
# What a scope confines

A command runs only where the client's scope reaches every key it names, for what it does
with it. So a key that no client may change stays as it is, whatever they run: it goes only
when its time has come.

* `served_confined` — one command, or one turn of the expire cycle;
* `confined` — any run of them.
-/

namespace Postino

open Lib Fallible

section

variable [Json]

/-- What happens to a keyspace: a client runs a command, or keys expire. -/
inductive Deed where
  | command (argv : List String) (ctx : Ctx)
  | expire (now : Nat)

namespace Db

/-- A command runs once its keys and channels are permitted. -/
def served (db : Db) : Deed → Db
  | .command argv ctx =>
    match ctx.access.permit argv with
    | .error _ => db
    | .ok () => (db.exec argv ctx).2
  | .expire now => (db.expire_keys now).2

end Db

end

/-! ## Permitted keys -/

theorem permit_key_written {access : Access} {argv : List String} {i : Nat} {key : String}
    (h : access.permit_key argv (i, true) = .ok ()) (hKey : argv[i]? = some key) : access.scope.can_write key = true := by
  unfold Access.permit_key at h
  rw [hKey] at h
  dsimp only at h
  rw [if_pos rfl] at h
  by_contra hNot
  rw [if_neg hNot] at h
  cases h

theorem forM_ok {α : Type} {f : α → Except String Unit} {xs : List α} (h : xs.forM f = .ok ()) : ∀ x ∈ xs, f x = .ok () := by
  induction xs with
  | nil => exact List.forall_mem_nil _
  | cons x xs ih =>
    replace h : (f x >>= fun _ => xs.forM f) = .ok () := h
    cases hX : f x with
    | error e =>
      rw [hX] at h
      cases h
    | ok _ =>
      rw [hX] at h
      exact List.forall_mem_cons.mpr ⟨hX, ih h⟩

/-- What is permitted names no key as written that the scope may not change. -/
theorem permit_written {access : Access} {argv : List String} (h : access.permit argv = .ok ()) {key : String}
    (hKey : access.scope.can_write key = false) : key ∉ written argv := by
  rintro ⟨i, hNamed, hAt⟩
  have hNotAll : access.scope.all_keys = false := by
    unfold Scope.can_write at hKey
    exact (Bool.or_eq_false_iff.mp hKey).1
  unfold Access.permit at h
  cases hChannels : access.permit_channels argv with
  | error e =>
    rw [hChannels] at h
    cases h
  | ok _ =>
    rw [hChannels] at h
    dsimp only [bind, Except.bind] at h
    rw [if_neg (by rw [hNotAll]; exact Bool.false_ne_true)] at h
    cases hArgs : key_args argv with
    | none =>
      rw [hArgs] at h
      cases h
    | some keys =>
      rw [hArgs] at h hNamed
      have hEach := forM_ok h _ hNamed
      have := permit_key_written hEach hAt
      rw [hKey] at this
      cases this

/-! ## One deed -/

section

variable [Json]

namespace Exec

/-- Without the administrator's rights nothing is flushed. -/
theorem flush_refused {ctx : Ctx} (h : ctx.access.admin = false) (argv : List String) (r : Run) :
    (((Handler.changes flush).run ctx argv) r).2 = r := by
  unfold Handler.run flush
  dsimp only
  rw [h]
  rfl

end Exec

namespace Db

open Exec

theorem exec_flush {db : Db} {argv : List String} {ctx : Ctx} (h : ctx.access.admin = false) (hFlush : flushes argv) :
    (db.exec argv ctx).2 = db := by
  have hRun : (db.run argv ctx).2 = { db } := by
    rcases hFlush with hName | hName
    · rw [run_of_name db ctx hName (by decide)]
      exact flush_refused h argv { db }
    · rw [run_of_name db ctx hName (by decide)]
      exact flush_refused h argv { db }
  show (db.run argv ctx).2.db = db
  rw [hRun]

/-- What the expire cycle does to a key: nothing, or its time has come and it goes. -/
theorem expire_loop_key (now visits : Nat) (key : String) (expired : List String) (db : Db) :
    (db.expire_loop now visits expired).2.keys[key]? = db.keys[key]? ∨
      ∃ e at_, db.keys[key]? = some e ∧ e.expires = some at_ ∧ at_ ≤ now ∧
        (db.expire_loop now visits expired).2.keys[key]? = none := by
  induction visits generalizing expired db with
  | zero => exact .inl rfl
  | succ visits ih =>
    unfold expire_loop
    split
    · exact .inl rfl
    · next due rest _ =>
      dsimp only
      split
      · next hDue =>
        split
        · next hHeld =>
          have hTaken : ((({ db with deadlines := rest } : Db).take (ofLex due).2).2).keys[key]? =
              if (ofLex due).2 = key then none else db.keys[key]? := by
            rw [keys_take, BTreeMap.get_erase]
          have hNext := ih (expired ++ [(ofLex due).2]) (({ db with deadlines := rest } : Db).take (ofLex due).2).2
          rw [hTaken] at hNext
          by_cases hSame : (ofLex due).2 = key
          · -- this is the key that goes, and nothing brings it back
            rw [if_pos hSame] at hNext
            rw [hSame] at hHeld
            obtain ⟨e, hGet, hExpires⟩ := (Option.any_eq_true _ _).mp hHeld
            refine .inr ⟨e, _, hGet, of_decide_eq_true hExpires, hDue.2, ?_⟩
            rcases hNext with hNone | ⟨_, _, hSome, -⟩
            · exact hNone
            · cases hSome
          · rw [if_neg hSame] at hNext
            exact hNext
        · exact ih expired { db with deadlines := rest }
      · exact .inl rfl

/-- **One deed leaves the key be**, unless its time has come. -/
theorem served_confined {db : Db} {deed : Deed} {key : String}
    (h : ∀ argv ctx, deed = .command argv ctx → ctx.access.admin = false ∧ ctx.access.scope.can_write key = false) :
    (db.served deed).keys[key]? = db.keys[key]? ∨
      ∃ e at_ now, db.keys[key]? = some e ∧ e.expires = some at_ ∧ deed = .expire now ∧ at_ ≤ now ∧
        (db.served deed).keys[key]? = none := by
  cases deed with
  | expire now =>
    refine (expire_loop_key now (4 * EXPIRE_BATCH) key [] db).imp id ?_
    rintro ⟨e, at_, hGet, hExpires, hDue, hNone⟩
    exact ⟨e, at_, now, hGet, hExpires, rfl, hDue, hNone⟩
  | command argv ctx =>
    obtain ⟨hAdmin, hWrite⟩ := h argv ctx rfl
    left
    unfold served
    dsimp only
    cases hPermit : ctx.access.permit argv with
    | error why => rfl
    | ok _ =>
      dsimp only
      by_cases hFlush : flushes argv
      · rw [exec_flush hAdmin hFlush]
      · exact (run_changed db ctx hFlush).frame key (permit_written hPermit hWrite)

/-- **What no client may change stays**, over any run: the key holds what it held, or its
time came in an expire cycle, and then it holds nothing. -/
theorem confined {db : Db} {deeds : List Deed} {key : String}
    (h : ∀ argv ctx, .command argv ctx ∈ deeds → ctx.access.admin = false ∧ ctx.access.scope.can_write key = false) :
    (deeds.foldl served db).keys[key]? = db.keys[key]? ∨
      ∃ e at_ now, db.keys[key]? = some e ∧ e.expires = some at_ ∧ .expire now ∈ deeds ∧ at_ ≤ now ∧
        (deeds.foldl served db).keys[key]? = none := by
  induction deeds generalizing db with
  | nil => exact .inl rfl
  | cons deed deeds ih =>
    have hStep := @served_confined _ db deed key fun argv ctx hIs => h argv ctx (hIs ▸ List.mem_cons_self)
    have hRest := @ih (db.served deed) fun argv ctx hIn => h argv ctx (List.mem_cons_of_mem _ hIn)
    rw [List.foldl_cons]
    rcases hStep with hSame | ⟨e, at_, now, hGet, hExpires, rfl, hDue, hNone⟩
    · rw [hSame] at hRest
      refine hRest.imp id ?_
      rintro ⟨e, at_, now, hGet, hExpires, hIn, hDue, hGone⟩
      exact ⟨e, at_, now, hGet, hExpires, List.mem_cons_of_mem _ hIn, hDue, hGone⟩
    · right
      refine ⟨e, at_, now, hGet, hExpires, List.mem_cons_self, hDue, ?_⟩
      rcases hRest with hSame | ⟨_, _, _, hSome, -⟩
      · rw [hSame, hNone]
      · rw [hNone] at hSome
        cases hSome

end Db

end

/-- An agent that goes for another's key. -/
theorem confined_agent :
    let json : Json := ⟨fun _ => none, fun _ => none⟩
    let db : Db := { keys := (∅ : BTreeMap String Entry).insert "bob:x" { value := .string "1" } }
    let ctx : Ctx :=
      { now := 5, replay := false, blocking := false, access := { admin := false, scope := Scope.agent "ann" }
        max_keys := 10, max_elements := 10, events := false, random := .first }
    ([Deed.command ["SET", "bob:x", "2"] ctx, .command ["FLUSHALL"] ctx].foldl (@Db.served json) db).keys["bob:x"]? =
        db.keys["bob:x"]? ∨
      ∃ e at_ now, db.keys["bob:x"]? = some e ∧ e.expires = some at_ ∧
        .expire now ∈ [Deed.command ["SET", "bob:x", "2"] ctx, .command ["FLUSHALL"] ctx] ∧ at_ ≤ now ∧
        ([Deed.command ["SET", "bob:x", "2"] ctx, .command ["FLUSHALL"] ctx].foldl (@Db.served json) db).keys["bob:x"]? =
          none := by
  intro json db ctx
  refine @Db.confined json db _ "bob:x" fun argv ctx' hIn => ?_
  have hAgent : (Scope.agent "ann").can_write "bob:x" = false := by decide +kernel
  simp only [List.mem_cons, List.not_mem_nil, or_false, Deed.command.injEq] at hIn
  rcases hIn with ⟨-, rfl⟩ | ⟨-, rfl⟩ <;> exact ⟨rfl, hAgent⟩

end Postino
