import Postino.Commands.Footprints

/-!
# What counts as a write

The keys a command's words name as written are those it may change, whatever it does with
its arguments, and a command is a write when it names one, or flushes.

* `mem_key_args` — the arguments named, one case for each way of naming them;
* `writes_iff` — a write names a key it may change, or flushes;
* `command_steps` — a command changes only keys it names as written.
-/

namespace Postino

open Lib

/-- Whether a command is one of the two that empty the keyspace. -/
def flushes (argv : List String) : Prop := Name.of_ argv = "FLUSHALL" ∨ Name.of_ argv = "FLUSHDB"

/-- The keys a command names as those it may change. -/
def written (argv : List String) : Set String :=
  {key | ∃ i, (i, true) ∈ (key_args argv).getD [] ∧ argv[i]? = some key}

/-! ## The arguments named -/

/-- Whether the argument at `i`, if there is one, is named as a key that may be changed. -/
def Keys.marks (argv : List String) (i : Nat) : Keys → Prop
  | none => False
  | first write => write = true ∧ i = 1
  | all write => write = true ∧ 1 ≤ i
  | pairs => i % 2 = 1
  | two => i = 1 ∨ i = 2
  | all_but_last => 1 ≤ i ∧ i + 1 < argv.length
  | streams start write =>
    write = true ∧ (stream_keys argv start).1 ≤ i ∧
      i < (stream_keys argv start).1 + (stream_keys argv start).2
  | second write => write = true ∧ i = 2

section

variable {argv : List String} {spec : Keys} (hSpec : key_spec (Name.of_ argv) = some spec)

include hSpec

theorem mem_key_args {i : Nat} :
    (i, true) ∈ (key_args argv).getD [] ↔ i < argv.length ∧ spec.marks argv i := by
  simp only [key_args, hSpec, Option.map_some, Option.getD_some]
  cases spec with
  | none => simp [Keys.marks]
  | pairs =>
    simp only [List.mem_map, List.mem_range', Prod.mk.injEq, and_true, exists_eq_right, Keys.marks]
    constructor
    · rintro ⟨j, hJ, rfl⟩
      omega
    · rintro ⟨hLt, hOdd⟩
      exact ⟨i / 2, by omega, by omega⟩
  | _ =>
    simp only [List.mem_map, List.mem_filter, List.mem_range'_1, decide_eq_true_eq, Prod.mk.injEq, Keys.marks]
    grind

theorem mem_written {i : Nat} {key : String} (hGet : argv[i]? = some key) (hMarks : spec.marks argv i) :
    key ∈ written argv :=
  ⟨i, (mem_key_args hSpec).mpr ⟨(List.getElem?_eq_some_iff.mp hGet).1, hMarks⟩, hGet⟩

theorem written_nonempty : (written argv).Nonempty ↔ ∃ i < argv.length, spec.marks argv i := by
  constructor
  · rintro ⟨key, i, hMem, -⟩
    exact ⟨i, (mem_key_args hSpec).mp hMem⟩
  · rintro ⟨i, hLt, hMarks⟩
    exact ⟨argv[i], mem_written hSpec (List.getElem?_eq_getElem hLt) hMarks⟩

end

/-- **A write names a key it may change, or flushes.** -/
theorem writes_iff (argv : List String) : writes argv = true ↔ flushes argv ∨ (written argv).Nonempty := by
  unfold writes
  by_cases hFlush : flushes argv
  · have hName : Name.of_ argv = "FLUSHALL" ∨ Name.of_ argv = "FLUSHDB" := hFlush
    simp [hName, hFlush]
  · have hName : ¬(Name.of_ argv = "FLUSHALL" ∨ Name.of_ argv = "FLUSHDB") := hFlush
    rw [if_neg hName]
    cases hSpec : key_spec (Name.of_ argv) with
    | none =>
      have hNone : written argv = ∅ := by
        simp [written, key_args, hSpec]
      simp [hFlush, hNone]
    | some spec =>
      rw [written_nonempty hSpec, or_iff_right hFlush]
      -- the walk over the words stands for the arguments it would name
      cases spec with
      | none => simp [Keys.marks]
      | first write => simp [Keys.marks, and_comm]
      | all write =>
        simp only [Keys.marks, Bool.and_eq_true, decide_eq_true_eq]
        constructor
        · rintro ⟨hWrite, hLen⟩
          exact ⟨1, hLen, hWrite, le_rfl⟩
        · rintro ⟨i, hLt, hWrite, hLe⟩
          exact ⟨hWrite, by omega⟩
      | pairs =>
        simp only [Keys.marks, decide_eq_true_eq]
        refine ⟨fun hLen => ⟨1, hLen, rfl⟩, ?_⟩
        rintro ⟨i, hLt, hOdd⟩
        omega
      | two =>
        simp only [Keys.marks, decide_eq_true_eq]
        refine ⟨fun hLen => ⟨1, hLen, .inl rfl⟩, ?_⟩
        rintro ⟨i, hLt, hAt⟩
        omega
      | all_but_last =>
        simp only [Keys.marks, decide_eq_true_eq]
        refine ⟨fun hLen => ⟨1, by omega, le_rfl, hLen⟩, ?_⟩
        rintro ⟨i, hLt, hLe, hLast⟩
        omega
      | streams start write =>
        simp only [Keys.marks, Bool.and_eq_true, decide_eq_true_eq]
        constructor
        · rintro ⟨⟨hWrite, hLt⟩, hSome⟩
          exact ⟨_, hLt, hWrite, le_rfl, by omega⟩
        · rintro ⟨i, hLt, hWrite, hLe, hBelow⟩
          exact ⟨⟨hWrite, by omega⟩, by omega⟩
      | second write => simp [Keys.marks, and_comm]

/-! ## Commands by their names -/

section

variable [Json]

namespace Exec

open Fallible Leeway Handler

/-- A command under its name changes only keys it names as written, as `C` allows. -/
def Footprint (C : Leeway) (e : String × Handler) : Prop :=
  ∀ ctx argv, Name.of_ argv = e.1 → Steps (written argv) C (e.2.run ctx argv)

omit [Json] in
theorem Footprint.mono {C C' : Leeway} {e : String × Handler} (h : Footprint C e) (hC : C.Within C') :
    Footprint C' e := fun ctx argv hName => (h ctx argv hName).mono subset_rfl hC

variable {C : Leeway} {name : String} {W : List String → Set String}

/-- The keys `W` picks are among those the command of this name names. -/
abbrev Names (name : String) (W : List String → Set String) : Prop :=
  ∀ argv, Name.of_ argv = name → W argv ⊆ written argv

omit [Json] in
theorem changes_footprint {f : Ctx → List String → Exec Fault Reply} (hNames : Names name W)
    (h : ∀ ctx argv, Steps (W argv) C (f ctx argv)) : Footprint C (name, changes f) := fun ctx argv hName r => by
  have hRun : (Handler.run (changes f) ctx argv r).2 = (f ctx argv r).2 := by
    unfold Handler.run
    dsimp only
    split
    · next hResult => rw [hResult]
    · next hResult => rw [hResult]
  rw [hRun]
  exact (h ctx argv).mono (hNames argv hName) (fun _ _ => id) r

omit [Json] in
theorem limited_footprint {f : Ctx → List String → Exec Error Reply} (hNames : Names name W)
    (h : ∀ ctx argv, Steps (W argv) C (f ctx argv)) : Footprint C (name, limited f) :=
  fun ctx argv hName => (h ctx argv).mono (hNames argv hName) fun _ _ => id

omit [Json] in
theorem looks_footprint (f : Ctx → Db → List String → Except Fault Reply) : Footprint C (name, looks f) :=
  fun _ _ _ => steps_reads _

omit [Json] in
theorem mem_named {spec : Keys} (h : key_spec name = some spec) {argv : List String}
    (hName : Name.of_ argv = name) {i : Nat} {key : String} (hGet : argv[i]? = some key)
    (hMarks : spec.marks argv i) : key ∈ written argv :=
  mem_written (by rw [hName, h]) hGet hMarks

omit [Json] in
theorem names_first (h : key_spec name = some (.first true)) : Names name (key_at 1) :=
  fun _ hName _ hKey => mem_named h hName hKey ⟨rfl, rfl⟩

omit [Json] in
theorem names_second (h : key_spec name = some (.second true)) : Names name (key_at 2) :=
  fun _ hName _ hKey => mem_named h hName hKey ⟨rfl, rfl⟩

omit [Json] in
theorem names_both (h : key_spec name = some .two) : Names name both_keys := fun _ hName _ hKey => by
  rcases hKey with hKey | hKey
  · exact mem_named h hName hKey (.inl rfl)
  · exact mem_named h hName hKey (.inr rfl)

omit [Json] in
theorem names_all (h : key_spec name = some (.all true)) :
    Names name fun argv => {key | key ∈ argv.tail} := fun argv hName key hKey => by
  obtain ⟨i, hLt, hGet⟩ := List.mem_iff_getElem.mp hKey
  rw [List.getElem_tail] at hGet
  exact mem_named h hName (List.getElem?_eq_some_iff.mpr ⟨_, hGet⟩) ⟨rfl, by omega⟩

omit [Json] in
theorem names_all_but_last (h : key_spec name = some .all_but_last) : Names name all_but_last :=
  fun argv hName key hKey => by
    obtain ⟨i, hLt, hGet⟩ := List.mem_iff_getElem.mp hKey
    have hLen : i + 1 < argv.length := by
      rw [List.length_dropLast, List.length_tail] at hLt
      omega
    rw [List.getElem_dropLast, List.getElem_tail] at hGet
    refine mem_named h hName (List.getElem?_eq_some_iff.mpr ⟨hLen, hGet⟩) ⟨by omega, ?_⟩
    rw [List.length_dropLast, List.length_tail] at hLt
    omega

omit [Json] in
/-- The keys of pairs stand at every other place. -/
theorem mem_chunks {words : List String} {key : String} (h : key ∈ (chunks words).map Prod.fst) :
    ∃ i, i % 2 = 0 ∧ words[i]? = some key := by
  fun_induction chunks words with
  | case1 a b rest ih =>
    rcases List.mem_cons.mp h with rfl | hMem
    · exact ⟨0, rfl, rfl⟩
    · obtain ⟨i, hEven, hGet⟩ := ih hMem
      exact ⟨i + 2, by omega, hGet⟩
  | case2 => cases h

omit [Json] in
theorem names_pairs (h : key_spec name = some .pairs) : Names name pair_keys := fun argv hName key hKey => by
  obtain ⟨i, hEven, hGet⟩ := mem_chunks hKey
  rw [List.getElem?_tail] at hGet
  refine mem_named h hName hGet ?_
  show (i + 1) % 2 = 1
  omega

omit [Json] in
theorem names_streams {start : Nat} (h : key_spec name = some (.streams start true)) :
    Names name (stream_names start) := fun argv hName key hKey => by
  obtain ⟨i, hLt, hGet⟩ := List.mem_iff_getElem.mp hKey
  rw [List.getElem_take, List.getElem_drop] at hGet
  refine mem_named h hName (List.getElem?_eq_some_iff.mpr ⟨_, hGet⟩) ⟨rfl, Nat.le_add_right _ _, ?_⟩
  rw [List.length_take] at hLt
  omega

omit [Json] in
theorem names_none : Names name fun _ => ∅ := fun _ _ _ h => h.elim

omit [Json] in
theorem looking_footprints : ∀ e ∈ looking_commands, Footprint C e := by
  simp [looking_commands, looks_footprint]

theorem removing_footprints : ∀ e ∈ removing_commands, Footprint shrinks e := by
  simp only [removing_commands, List.forall_mem_cons]
  have hFirst (name : String) (h : key_spec name = some (.first true)) {f : Ctx → List String → Exec Fault Reply}
      (hSteps : ∀ ctx argv, Steps (key_at 1 argv) shrinks (f ctx argv)) :
      Footprint shrinks (name, changes f) := changes_footprint (names_first h) hSteps
  refine ⟨changes_footprint (names_all rfl) del_steps, changes_footprint (names_all rfl) del_steps,
    hFirst _ rfl (expire_steps _), hFirst _ rfl (expire_steps _), hFirst _ rfl (expire_steps _),
    hFirst _ rfl (expire_steps _), hFirst _ rfl persist_steps, hFirst _ rfl getdel_steps,
    hFirst _ rfl getex_steps, hFirst _ rfl delifeq_steps, hFirst _ rfl hdel_steps,
    hFirst _ rfl (lpop_steps true), hFirst _ rfl (lpop_steps false), hFirst _ rfl lset_steps,
    hFirst _ rfl lrem_steps, hFirst _ rfl ltrim_steps,
    changes_footprint (names_all_but_last rfl) (blpop_steps true),
    changes_footprint (names_all_but_last rfl) (blpop_steps false), hFirst _ rfl srem_steps,
    hFirst _ rfl spop_steps, hFirst _ rfl zrem_steps, hFirst _ rfl zremrangebyscore_steps,
    hFirst _ rfl zremrangebyrank_steps, hFirst _ rfl (zpop_one_steps true),
    hFirst _ rfl (zpop_one_steps false), changes_footprint (names_all_but_last rfl) (bzpop_steps true),
    changes_footprint (names_all_but_last rfl) (bzpop_steps false), hFirst _ rfl xdel_steps,
    hFirst _ rfl xtrim_steps, hFirst _ rfl xack_steps, List.forall_mem_nil _⟩

theorem storing_footprints : ∀ e ∈ storing_commands, Footprint stores e := by
  simp only [storing_commands, List.forall_mem_cons]
  have hFirst (name : String) (h : key_spec name = some (.first true)) {f : Ctx → List String → Exec Error Reply}
      (hSteps : ∀ ctx argv, Steps (key_at 1 argv) stores (f ctx argv)) :
      Footprint stores (name, limited f) := limited_footprint (names_first h) hSteps
  refine ⟨hFirst _ rfl set_steps, hFirst _ rfl setnx_steps, hFirst _ rfl (setex_steps _),
    hFirst _ rfl (setex_steps _), hFirst _ rfl getset_steps,
    limited_footprint (names_pairs rfl) (mset_steps _), limited_footprint (names_pairs rfl) (mset_steps _),
    hFirst _ rfl append_steps, hFirst _ rfl (incr_one_steps _), hFirst _ rfl (incr_one_steps _),
    hFirst _ rfl (incrby_steps _), hFirst _ rfl (incrby_steps _), hFirst _ rfl incrbyfloat_steps,
    hFirst _ rfl (hset_steps _), hFirst _ rfl (hset_steps _), hFirst _ rfl hsetnx_steps,
    hFirst _ rfl (hincr_steps _ _), hFirst _ rfl (hincr_steps _ _), hFirst _ rfl (lpush_steps _ _),
    hFirst _ rfl (lpush_steps _ _), hFirst _ rfl (lpush_steps _ _), hFirst _ rfl (lpush_steps _ _),
    hFirst _ rfl linsert_steps, hFirst _ rfl sadd_steps, hFirst _ rfl zadd_steps,
    hFirst _ rfl zincrby_steps, List.forall_mem_nil _⟩

/-- Only a rename may move a stream. -/
theorem moving_footprints : ∀ e ∈ moving_commands,
    Footprint any e ∧ (e.1 ≠ "RENAME" → e.1 ≠ "RENAMENX" → Footprint stores e) := by
  have hStores {name : String} {f : Ctx → List String → Exec Error Reply} (h : key_spec name = some .two)
      (hSteps : ∀ ctx argv, Steps (both_keys argv) stores (f ctx argv)) :
      Footprint any (name, limited f) ∧ (name ≠ "RENAME" → name ≠ "RENAMENX" →
        Footprint stores (name, limited f)) :=
    have hFootprint := limited_footprint (names_both h) hSteps
    ⟨hFootprint.mono (within_any _), fun _ _ => hFootprint⟩
  simp only [moving_commands, List.forall_mem_cons]
  refine ⟨⟨?_, fun hNe => absurd rfl hNe⟩, ⟨?_, fun _ hNe => absurd rfl hNe⟩, hStores rfl lmove_sides_steps,
    hStores rfl rpoplpush_steps, hStores rfl blmove_steps, hStores rfl smove_steps, List.forall_mem_nil _⟩
  · exact changes_footprint (names_both rfl) (rename_steps _)
  · exact changes_footprint (names_both rfl) (rename_steps _)

/-- What is true of every way XGROUP goes is true of XGROUP. -/
theorem xgroup_cases {P : Exec Error Reply → Prop} (ctx : Ctx) (argv : List String)
    (hReply : ∀ reply, P (pure reply)) (hFail : ∀ e, P (fail e))
    (hSub : ∀ sub key, argv[1]? = some sub → argv[2]? = some key →
      (to_ascii_uppercase sub = "CREATE" → ∀ group id options, P (xgroup_create ctx key group id options)) ∧
      (to_ascii_uppercase sub = "SETID" → ∀ group id, P (xgroup_setid ctx key group id)) ∧
      (to_ascii_uppercase sub = "DESTROY" → ∀ group, P (xgroup_destroy ctx key group)) ∧
      (to_ascii_uppercase sub = "CREATECONSUMER" →
        ∀ group consumer, P (xgroup_createconsumer ctx key group consumer)) ∧
      (to_ascii_uppercase sub = "DELCONSUMER" →
        ∀ group consumer, P (xgroup_delconsumer ctx key group consumer))) :
    P (xgroup ctx argv) := by
  unfold xgroup
  split
  · next name sub args =>
    dsimp only
    split
    · exact hReply _
    · split
      · next key group args =>
        obtain ⟨hCreate, hSetid, hDestroy, hCreateConsumer, hDelConsumer⟩ := hSub sub key rfl rfl
        split
        · next hWord => exact hCreate hWord group _ _
        · exact hFail _
        · next hWord => exact hSetid hWord group _
        · exact hFail _
        · next hWord => exact hDestroy hWord group
        · next hWord => exact hCreateConsumer hWord group _
        · exact hFail _
        · next hWord => exact hDelConsumer hWord group _
        · exact hFail _
        · exact hFail _
      · exact hFail _
  · exact hFail _

theorem xgroup_steps (ctx : Ctx) (argv : List String) : Steps (key_at 2 argv) any (xgroup ctx argv) := by
  refine xgroup_cases ctx argv (fun _ => steps_pure _) (fun _ => steps_fail _) fun sub key _ hKey =>
    ⟨fun _ group id options => xgroup_create_steps hKey ctx group id options, fun _ group id => ?_,
      fun _ group => ?_, fun _ group consumer => ?_, fun _ group consumer => ?_⟩
  · exact (xgroup_setid_steps hKey ctx group id).mono subset_rfl (within_any _)
  · exact (xgroup_destroy_steps hKey ctx group).mono subset_rfl (within_any _)
  · exact (xgroup_createconsumer_steps hKey ctx group consumer).mono subset_rfl (within_any _)
  · exact (xgroup_delconsumer_steps hKey ctx group consumer).mono subset_rfl (within_any _)

/-- Only XADD and XGROUP may make a stream. -/
theorem stream_footprints : ∀ e ∈ stream_commands,
    Footprint any e ∧ (e.1 ≠ "XADD" → e.1 ≠ "XGROUP" → Footprint streams e) := by
  have hStreams {name : String} {f : Ctx → List String → Exec Fault Reply} {W : List String → Set String}
      (hNames : Names name W) (hSteps : ∀ ctx argv, Steps (W argv) streams (f ctx argv)) :
      Footprint any (name, changes f) ∧ (name ≠ "XADD" → name ≠ "XGROUP" →
        Footprint streams (name, changes f)) :=
    have hFootprint := changes_footprint hNames hSteps
    ⟨hFootprint.mono (within_any _), fun _ _ => hFootprint⟩
  simp only [stream_commands, List.forall_mem_cons]
  refine ⟨⟨?_, fun hNe => absurd rfl hNe⟩, hStreams names_none xread_steps, ⟨?_, fun _ hNe => absurd rfl hNe⟩,
    hStreams (names_streams rfl) xreadgroup_steps, hStreams (names_first rfl) xclaim_steps,
    hStreams (names_first rfl) xautoclaim_steps, List.forall_mem_nil _⟩
  · exact limited_footprint (names_first rfl) xadd_steps
  · exact limited_footprint (names_second rfl) xgroup_steps

/-- What is true of every command of a name is true of what runs under it. -/
theorem dispatch_steps {C : Leeway} {ctx : Ctx} {argv : List String}
    (h : ∀ e ∈ commands, e.1 = Name.of_ argv → Footprint C e) :
    Steps (written argv) C (dispatch (Name.of_ argv) ctx argv) := by
  unfold dispatch
  split
  · next handler hLookup =>
    obtain ⟨before, after, hEq, -⟩ := List.lookup_eq_some_iff.mp hLookup
    refine h (Name.of_ argv, handler) ?_ rfl ctx argv rfl
    rw [hEq]
    exact List.mem_append_right _ List.mem_cons_self
  · exact steps_fail _

/-- **A command changes only keys it names as written, unless it flushes.** -/
theorem command_steps {argv : List String} (ctx : Ctx) (hFlush : ¬flushes argv) :
    Steps (written argv) any (dispatch (Name.of_ argv) ctx argv) := by
  refine dispatch_steps fun e hMem hName => ?_
  simp only [commands, List.mem_append] at hMem
  rcases hMem with ((((hLooks | hRemoves) | hStores) | hMoves) | hStreams) | hFlushes
  · exact looking_footprints e hLooks
  · exact (removing_footprints e hRemoves).mono (within_any _)
  · exact (storing_footprints e hStores).mono (within_any _)
  · exact (moving_footprints e hMoves).1
  · exact (stream_footprints e hStreams).1
  · simp only [flushing_commands, List.mem_cons, List.not_mem_nil, or_false] at hFlushes
    rcases hFlushes with rfl | rfl
    · exact absurd (.inr hName.symm) hFlush
    · exact absurd (.inl hName.symm) hFlush

end Exec

namespace Exec

omit [Json] in
theorem changes_of_ok {f : Ctx → List String → Exec Fault Reply} {ctx : Ctx} {argv : List String} {r r' : Run}
    {reply : Reply} (h : f ctx argv r = (.ok reply, r')) :
    (Handler.changes f).run ctx argv r = (.ok reply, r') := by
  simp only [Handler.run, h]

omit [Json] in
theorem changes_of_error {f : Ctx → List String → Exec Fault Reply} {ctx : Ctx} {argv : List String} {r r' : Run}
    {fault : Fault} (h : f ctx argv r = (.error fault, r')) :
    (Handler.changes f).run ctx argv r = (.error (.fault fault), r') := by
  simp only [Handler.run, h]

omit [Json] in
theorem sat_changes {f : Ctx → List String → Exec Fault Reply} {ctx : Ctx} {argv : List String} {r : Run}
    {Done : Reply → Run → Prop} {Failed : Run → Prop} (h : Fallible.Sat (f ctx argv) r Done Failed) :
    Fallible.Sat ((Handler.changes f).run ctx argv) r Done Failed := by
  unfold Fallible.Sat
  rcases h.elim with ⟨reply, r', hResult, hDone⟩ | ⟨e, r', hResult, hFailed⟩
  · rwa [changes_of_ok hResult]
  · rwa [changes_of_error hResult]

end Exec

namespace Db

open Exec Leeway

theorem run_of_name {name : String} (db : Db) {argv : List String} (ctx : Ctx) (hName : Name.of_ argv = name)
    (hNe : name ≠ "") : db.run argv ctx = dispatch name ctx argv { db } := by
  cases argv with
  | nil => exact absurd hName.symm hNe
  | cons word words =>
    subst hName
    rfl

/-- What a command that only looks replies. -/
def looked (result : Except Fault Reply) : Reply :=
  match result with
  | .ok reply => reply
  | .error f => .error f.text

/-- A command that only looks replies what it finds, and changes nothing. -/
theorem exec_looks {db : Db} {argv : List String} {ctx : Ctx} {f : Ctx → Db → List String → Except Fault Reply}
    (hRun : db.run argv ctx = (Handler.looks f).run ctx argv { db }) :
    db.exec argv ctx = (⟨looked (f ctx db argv), false, none, [], none⟩, db) := by
  unfold exec
  rw [hRun]
  have hReads : (Handler.looks f).run ctx argv { db } = attempt (f ctx db argv) { db } := rfl
  rw [hReads]
  cases f ctx db argv with
  | ok reply => rfl
  | error fault => rfl

theorem exec_of_ok {db : Db} {argv : List String} {ctx : Ctx} {reply : Reply} {r : Run}
    (h : db.run argv ctx = (.ok reply, r)) :
    db.exec argv ctx = (⟨reply, r.dirty && !reply.is_error, r.propagate, r.events, r.block⟩, r.db) := by
  unfold exec
  rw [h]

theorem exec_of_error {db : Db} {argv : List String} {ctx : Ctx} {e : Error} {r : Run}
    (h : db.run argv ctx = (.error e, r)) :
    db.exec argv ctx = (⟨.error (Error.text e), false, r.propagate, r.events, r.block⟩, r.db) := by
  unfold exec
  rw [h]
  simp [Reply.is_error]

/-- What an execution comes to, by what its command does. -/
theorem exec_of_sat {db : Db} {argv : List String} {ctx : Ctx} {m : Exec Error Reply}
    (hRun : db.run argv ctx = m { db }) {Done : Reply → Run → Prop} {Failed : Run → Prop}
    (h : Fallible.Sat m { db } Done Failed) :
    (∃ reply r, Done reply r ∧ db.exec argv ctx =
      (⟨reply, r.dirty && !reply.is_error, r.propagate, r.events, r.block⟩, r.db)) ∨
    ∃ e r, Failed r ∧ db.exec argv ctx = (⟨.error (Error.text e), false, r.propagate, r.events, r.block⟩, r.db) := by
  rcases h.elim with ⟨reply, r, hResult, hDone⟩ | ⟨e, r, hResult, hFailed⟩
  · exact .inl ⟨reply, r, hDone, exec_of_ok (hRun.trans hResult)⟩
  · exact .inr ⟨e, r, hFailed, exec_of_error (hRun.trans hResult)⟩

/-- What a command that does not flush leaves of the keyspace it starts on. -/
theorem run_changed (db : Db) {argv : List String} (ctx : Ctx) (hFlush : ¬flushes argv) :
    Changed (written argv) any { db } (db.run argv ctx).2 := by
  cases argv with
  | nil => exact refl_of (Changed _ _) _
  | cons word words => exact command_steps ctx hFlush _

/-- **What counts as a write is what can change the keyspace.** A write flushes or names a
key as written, what changed was named, and what is no write changes no live entry and is
not journaled. -/
theorem writes_exact (db : Db) (argv : List String) (ctx : Ctx) :
    (writes argv = true ↔ flushes argv ∨ (written argv).Nonempty) ∧
      (¬flushes argv → ∀ key, (db.exec argv ctx).2.get key ctx.now ≠ db.get key ctx.now →
        key ∈ written argv) ∧
      (writes argv = false → (∀ key, (db.exec argv ctx).2.get key ctx.now = db.get key ctx.now) ∧
        (db.exec argv ctx).1.journal argv = []) := by
  have hFrame (hFlush : ¬flushes argv) (key : String) (hOut : key ∉ written argv) :
      (db.exec argv ctx).2.get key ctx.now = db.get key ctx.now := by
    have hSame := (run_changed db ctx hFlush).frame key hOut
    unfold Db.get
    exact congrArg (Option.filter _) hSame
  refine ⟨writes_iff argv, fun hFlush key hNe => ?_, fun hReads => ?_⟩
  · by_contra hOut
    exact hNe (hFrame hFlush key hOut)
  · have hNot : ¬(flushes argv ∨ (written argv).Nonempty) := by
      rw [← writes_iff, hReads]
      exact Bool.false_ne_true
    obtain ⟨hFlush, hNone⟩ := not_or.mp hNot
    refine ⟨fun key => hFrame hFlush key fun hIn => hNone ⟨key, hIn⟩, ?_⟩
    -- nothing is marked as changed where no key is named
    have hDirty : (db.run argv ctx).2.dirty = false := by
      by_contra hNe
      exact hNone ((run_changed db ctx hFlush).dirty hNe)
    simp [Outcome.journal, exec, hDirty]

end Db

end

end Postino
