import Postino.Forum.Frames
import Postino.Forum.Rooms

/-!
# Which broadcasts a trim drops

A trim drops as many broadcasts as there are too many. Whoever holds more than a share of
them loses its oldest first, down to the share; what is still too many goes oldest first.

* `over_share_spec` — the first pass;
* `fill_up_eq` — the second pass;
* `trim_fair` — both together.
-/

namespace Postino.Forum

open Lib Fallible

/-! ## The first pass -/

/-- How many broadcasts of a list are from a sender. -/
def sent (name : String) (l : List Broadcast) : Nat := l.countP fun b => b.from_ = name

theorem sent_cons (name : String) (b : Broadcast) (l : List Broadcast) :
    sent name (b :: l) = sent name l + if b.from_ = name then 1 else 0 := by
  unfold sent
  rw [List.countP_cons]
  simp only [decide_eq_true_eq]

/-- What the first pass drops of the broadcasts `l`, when each sender holds so many and `ids`
are dropped already. -/
structure Shared (quota excess : Nat) (l : List Broadcast) (held : String → Nat) (ids : List Id)
    (dropped : List Broadcast) : Prop where
  sublist : dropped.Sublist l
  bound : ids.length + dropped.length ≤ excess
  above : ∀ b ∈ dropped, quota < held b.from_
  oldest : l.Pairwise fun b b' => b.from_ = b'.from_ → b' ∈ dropped → b ∈ dropped
  /-- When it did not stop early, nobody is left with more than the quota. -/
  level : ids.length + dropped.length < excess →
    ∀ name, held name - sent name dropped ≤ max quota (held name - sent name l)

theorem over_share_spec (quota excess : Nat) {l : List Broadcast} (held : String → Nat) {ids : List Id}
    (hNodup : l.Nodup) (hIds : ids.length ≤ excess) :
    ∃ dropped, over_share quota excess l held ids = ids ++ dropped.map (·.id) ∧
      Shared quota excess l held ids dropped := by
  -- on the list, oldest first, with what each sender still holds free
  induction l generalizing held ids with
  | nil =>
    refine ⟨[], by simp [over_share], List.Sublist.refl _, hIds, by simp, List.Pairwise.nil, fun _ name => ?_⟩
    exact le_max_right _ _
  | cons b rest ih =>
    obtain ⟨hOut, hRest⟩ := List.nodup_cons.mp hNodup
    by_cases hStop : ids.length = excess
    · refine ⟨[], by simp [over_share, hStop], List.nil_sublist _, hIds, by simp, ?_, fun hLess => ?_⟩
      · exact List.pairwise_of_forall fun _ _ _ hIn => absurd hIn List.not_mem_nil
      · simp only [List.length_nil] at hLess
        omega
    -- over its share: this one goes, and its sender holds one less
    by_cases hOver : held b.from_ > quota
    · set less := Function.update held b.from_ (held b.from_ - 1) with hLess
      have hRoom : (ids ++ [b.id]).length ≤ excess := by
        rw [List.length_append, List.length_singleton]
        omega
      obtain ⟨dropped, hRun, h⟩ := ih less hRest hRoom
      have hBound := h.bound
      rw [List.length_append, List.length_singleton] at hBound
      refine ⟨b :: dropped, ?_, h.sublist.cons_cons b, ?_, ?_, ?_, ?_⟩
      · rw [over_share, if_neg hStop, if_pos hOver, hRun]
        simp
      · rw [List.length_cons]
        omega
      · intro b' hIn
        rcases List.mem_cons.mp hIn with rfl | hLater
        · exact hOver
        · refine (h.above b' hLater).trans_le ?_
          rw [hLess, Function.update_apply]
          split
          · next hSame =>
            rw [hSame]
            omega
          · exact le_rfl
      · refine List.pairwise_cons.mpr ⟨fun _ _ _ _ => List.mem_cons_self, ?_⟩
        refine h.oldest.imp_of_mem fun {x y} _ hY hImp hSame hIn => ?_
        rcases List.mem_cons.mp hIn with rfl | hLater
        · exact absurd hY hOut
        · exact List.mem_cons_of_mem _ (hImp hSame hLater)
      · intro hMore name
        have hLevel := h.level (by simp only [List.length_append, List.length_cons, List.length_nil] at hMore ⊢; omega) name
        rw [sent_cons, sent_cons]
        rw [hLess, Function.update_apply] at hLevel
        by_cases hName : b.from_ = name
        · subst hName
          rw [if_pos rfl] at hLevel
          rw [if_pos rfl]
          omega
        · rw [if_neg (Ne.symm hName)] at hLevel
          rw [if_neg hName]
          exact hLevel
    · -- within its share by now, and so are the later ones of its sender
      obtain ⟨dropped, hRun, h⟩ := ih held hRest hIds
      refine ⟨dropped, ?_, h.sublist.cons b, h.bound, h.above, ?_, ?_⟩
      · rw [over_share, if_neg hStop, if_neg hOver, hRun]
      · refine List.pairwise_cons.mpr ⟨fun b' _ hSame hIn => ?_, h.oldest⟩
        exact absurd (hSame ▸ h.above b' hIn) hOver
      · intro hMore name
        have hLevel := h.level hMore name
        rw [sent_cons]
        by_cases hName : b.from_ = name
        · subst hName
          omega
        · rw [if_neg hName]
          exact hLevel

/-! ## The second pass -/

theorem fill_up_eq (excess : Nat) {keys ids : List Id} (hNodup : keys.Nodup) (hIds : ids.length ≤ excess) :
    fill_up excess keys ids = ids ++ (keys.filter (· ∉ ids)).take (excess - ids.length) := by
  induction keys generalizing ids with
  | nil => simp [fill_up]
  | cons id rest ih =>
    obtain ⟨hOut, hRest⟩ := List.nodup_cons.mp hNodup
    rw [fill_up]
    by_cases hStop : ids.length = excess
    · rw [if_pos hStop, hStop, Nat.sub_self, List.take_zero, List.append_nil]
    rw [if_neg hStop]
    by_cases hIn : id ∈ ids
    · rw [if_pos (List.contains_iff_mem.mpr hIn), ih hRest hIds, List.filter_cons, if_neg (by simpa using hIn)]
    · have hRoom : (ids ++ [id]).length ≤ excess := by
        rw [List.length_append, List.length_singleton]
        omega
      have hSame : rest.filter (· ∉ ids ++ [id]) = rest.filter (· ∉ ids) := by
        refine List.filter_congr fun k hK => ?_
        have hNe : k ≠ id := fun hEq => hOut (hEq ▸ hK)
        simp [hNe]
      have hLeft : excess - ids.length = (excess - (ids ++ [id]).length) + 1 := by
        rw [List.length_append, List.length_singleton]
        omega
      rw [if_neg (fun hThere => hIn (List.contains_iff_mem.mp hThere)), ih hRest hRoom, hSame, List.filter_cons,
        if_pos (by simpa using hIn), hLeft, List.take_succ_cons, List.append_assoc]
      rfl

/-- What is taken off the front of a sorted list is its least part. -/
theorem mem_take_of_lt {l : List Id} (hSorted : l.Pairwise (· < ·)) {n : Nat} {x y : Id} (hX : x ∈ l)
    (hY : y ∈ l.take n) (hLt : x < y) : x ∈ l.take n := by
  rw [← List.take_append_drop n l] at hX hSorted
  rcases List.mem_append.mp hX with hIn | hLate
  · exact hIn
  · exact absurd hLt ((List.pairwise_append.mp hSorted).2.2 y hY x hLate).not_gt

/-- Sorted items are related as an earlier one is to a later one. -/
theorem of_pairwise {R : Broadcast → Broadcast → Prop} {l : List Broadcast}
    (hSorted : l.Pairwise fun b b' => b.id < b'.id) (hR : l.Pairwise R) {x y : Broadcast} (hX : x ∈ l) (hY : y ∈ l)
    (hLt : x.id < y.id) : R x y := by
  induction l with
  | nil => exact absurd hX List.not_mem_nil
  | cons b l ih =>
    obtain ⟨hFront, hSorted⟩ := List.pairwise_cons.mp hSorted
    obtain ⟨hFirst, hR⟩ := List.pairwise_cons.mp hR
    rcases List.mem_cons.mp hX with rfl | hLaterX
    · rcases List.mem_cons.mp hY with rfl | hLaterY
      · exact absurd hLt (lt_irrefl _)
      · exact hFirst y hLaterY
    · rcases List.mem_cons.mp hY with rfl | hLaterY
      · exact absurd hLt (hFront x hLaterX).not_gt
      · exact ih hSorted hR hLaterX hLaterY

/-- Dropping listed items leaves as many fewer. -/
theorem length_without {l ids : List Id} (hNodup : l.Nodup) (hIds : ids.Nodup) (hSub : ∀ id ∈ ids, id ∈ l) :
    (l.filter (· ∉ ids)).length + ids.length = l.length := by
  have hPerm : (l.filter (· ∈ ids)).Perm ids := by
    refine (List.perm_ext_iff_of_nodup (hNodup.filter _) hIds).mpr fun id => ?_
    rw [List.mem_filter, decide_eq_true_eq]
    exact ⟨fun h => h.2, fun h => ⟨hSub id h, h⟩⟩
  have hSplit := List.length_eq_length_filter_add (l := l) (· ∈ ids)
  rw [hPerm.length_eq] at hSplit
  simp only [← decide_not] at hSplit
  omega

/-! ## Both passes -/

/-- The broadcasts a store holds, oldest first. -/
def Store.announced (store : Store) : List Broadcast := store.broadcasts.toList.map Prod.snd

/-- A broadcast one store holds and another does not. -/
def Dropped (store store' : Store) (b : Broadcast) : Prop :=
  store.broadcasts[b.id]? = some b ∧ store'.broadcasts[b.id]? = none

/-- What a trim to `limit` leaves of a store that holds more. -/
structure Fair (limit : Nat) (store store' : Store) : Prop where
  kept : ∀ (id : Id) b, store'.broadcasts[id]? = some b → store.broadcasts[id]? = some b
  size : store'.broadcasts.size = limit
  /-- A sender's oldest go first. -/
  oldest : ∀ b b', Dropped store store' b → store.broadcasts[b'.id]? = some b' → b'.from_ = b.from_ → b'.id < b.id →
    Dropped store store' b'
  /-- One who holds no more than a share loses nothing while anyone holds more. -/
  level : ∀ b, Dropped store store' b → sent b.from_ store.announced ≤ share limit →
    ∀ name, sent name store'.announced ≤ share limit
  /-- Those who hold no more than a share lose the oldest of theirs. -/
  modest : ∀ b b', Dropped store store' b → sent b.from_ store.announced ≤ share limit →
    store.broadcasts[b'.id]? = some b' → sent b'.from_ store.announced ≤ share limit → b'.id < b.id →
    Dropped store store' b'

section

variable {store : Store} (hFiled : ∀ (id : Id) b, store.broadcasts[id]? = some b → b.id = id)

include hFiled

theorem mem_announced {b : Broadcast} : b ∈ store.announced ↔ store.broadcasts[b.id]? = some b := by
  unfold Store.announced
  rw [List.mem_map]
  constructor
  · rintro ⟨⟨id, b'⟩, hIn, rfl⟩
    have hGet := (BTreeMap.mem_toList _ _ _).mp hIn
    dsimp only
    rwa [hFiled id b' hGet]
  · intro hGet
    exact ⟨(b.id, b), (BTreeMap.mem_toList _ _ _).mpr hGet, rfl⟩

theorem ids_announced : store.announced.map (·.id) = store.broadcasts.toList.map Prod.fst := by
  unfold Store.announced
  rw [List.map_map]
  exact List.map_congr_left fun e hIn => hFiled e.1 e.2 ((BTreeMap.mem_toList _ _ _).mp hIn)

theorem sorted_announced : store.announced.Pairwise fun b b' => b.id < b'.id := by
  have hKeys : (store.broadcasts.toList.map Prod.fst).Pairwise (· < ·) :=
    List.pairwise_map.mpr (BTreeMap.sorted_toList store.broadcasts)
  rw [← ids_announced hFiled] at hKeys
  exact List.pairwise_map.mp hKeys

theorem nodup_announced : store.announced.Nodup := by
  refine (sorted_announced hFiled).imp fun hLt => ?_
  rintro rfl
  exact lt_irrefl _ hLt

/-- What is held once some broadcasts are gone. -/
theorem announced_without {store' : Store} {ids : List Id}
    (h : ∀ id : Id, store'.broadcasts[id]? = if id ∈ ids then none else store.broadcasts[id]?) :
    store'.announced = store.announced.filter fun b => b.id ∉ ids := by
  have hList : store'.broadcasts.toList = store.broadcasts.toList.filter fun e => e.1 ∉ ids := by
    refine BTreeMap.toList_eq_of_sorted ((BTreeMap.sorted_toList store.broadcasts).filter _) fun id b => ?_
    rw [List.mem_filter, BTreeMap.mem_toList, h, decide_eq_true_eq]
    by_cases hIn : id ∈ ids <;> simp [hIn]
  unfold Store.announced
  rw [hList, List.filter_map]
  refine congrArg _ (List.filter_congr fun e hIn => ?_)
  rw [Function.comp_apply, hFiled e.1 e.2 ((BTreeMap.mem_toList _ _ _).mp hIn)]

end

/-- A store without what a trim picks is fair. -/
theorem fair_trimmed {core : Core} (hFiled : ∀ (id : Id) b, core.store.broadcasts[id]? = some b → b.id = id)
    (hMore : core.limits.max_broadcasts < core.store.broadcasts.size) {store' : Store}
    (hStore' : ∀ id : Id, store'.broadcasts[id]? =
      if id ∈ core.trimmed_broadcasts then none else core.store.broadcasts[id]?) :
    Fair core.limits.max_broadcasts core.store store' := by
  set all := core.store.announced with hAll
  set quota := share core.limits.max_broadcasts with hQuota
  set excess := core.store.broadcasts.size - core.limits.max_broadcasts with hExcess
  have hNodup : all.Nodup := nodup_announced hFiled
  obtain ⟨dropped, hRun, h⟩ := @over_share_spec quota excess all
    (fun name => (all.filter fun b => b.from_ = name).length) [] hNodup (Nat.zero_le excess)
  have hHeld (name : String) : (all.filter fun b => b.from_ = name).length = sent name all :=
    List.countP_eq_length_filter.symm
  have hBound := h.bound
  rw [List.length_nil, Nat.zero_add] at hBound
  set first := dropped.map (·.id) with hFirst
  have hFirstLength : first.length = dropped.length := List.length_map _
  set keys := core.store.broadcasts.toList.map Prod.fst with hKeysEq
  have hKeys : keys.Pairwise (· < ·) := List.pairwise_map.mpr (BTreeMap.sorted_toList _)
  have hKeysNodup : keys.Nodup := BTreeMap.nodup_keys _
  have hKeysLength : keys.length = core.store.broadcasts.size := by
    rw [hKeysEq, List.length_map, Std.ExtTreeMap.length_toList]
  set spare := keys.filter (· ∉ first) with hSpare
  have hSpareSorted : spare.Pairwise (· < ·) := hKeys.filter _
  have hIds : core.trimmed_broadcasts = first ++ spare.take (excess - first.length) := by
    unfold Core.trimmed_broadcasts
    dsimp only
    show fill_up excess keys
      (over_share quota excess all (fun name => (all.filter fun b => b.from_ = name).length) []) = _
    rw [hRun, List.nil_append, fill_up_eq excess hKeysNodup (by omega)]
  -- the first pass drops some of the broadcasts held
  have hHeldKey {b : Broadcast} (hIn : b ∈ all) : b.id ∈ keys := by
    rw [hKeysEq, ← ids_announced hFiled]
    exact List.mem_map.mpr ⟨b, hIn, rfl⟩
  have hDroppedIn {b : Broadcast} (hIn : b ∈ dropped) : b ∈ all := h.sublist.subset hIn
  have hInFirst {b : Broadcast} (hIn : b ∈ all) : b.id ∈ first ↔ b ∈ dropped := by
    constructor
    · intro hId
      obtain ⟨b', hDropped, hSame⟩ := List.mem_map.mp hId
      have hGet := (mem_announced hFiled).mp hIn
      have hGet' := (mem_announced hFiled).mp (hDroppedIn hDropped)
      rw [hSame, hGet] at hGet'
      rwa [Option.some.inj hGet']
    · exact fun hDropped => List.mem_map.mpr ⟨b, hDropped, rfl⟩
  have hFirstNodup : first.Nodup :=
    List.Nodup.map_on (fun b hB b' hB' hSame => by
      have hGet := (mem_announced hFiled).mp (hDroppedIn hB)
      have hGet' := (mem_announced hFiled).mp (hDroppedIn hB')
      rw [← hSame, hGet] at hGet'
      exact Option.some.inj hGet') (hNodup.sublist h.sublist)
  have hFirstKeys : ∀ id ∈ first, id ∈ keys := by
    intro id hId
    obtain ⟨b, hDropped, rfl⟩ := List.mem_map.mp hId
    exact hHeldKey (hDroppedIn hDropped)
  have hSpareLength : spare.length + first.length = keys.length :=
    length_without hKeysNodup hFirstNodup hFirstKeys
  -- both passes drop as many as there are too many
  have hIdsNodup : core.trimmed_broadcasts.Nodup := by
    rw [hIds]
    refine List.nodup_append'.mpr ⟨hFirstNodup, (hKeysNodup.filter _).sublist (List.take_sublist _ _), ?_⟩
    intro id hId hLate
    exact of_decide_eq_true (List.mem_filter.mp (List.mem_of_mem_take hLate)).2 hId
  have hIdsKeys : ∀ id ∈ core.trimmed_broadcasts, id ∈ keys := by
    intro id hId
    rw [hIds] at hId
    rcases List.mem_append.mp hId with hEarly | hLate
    · exact hFirstKeys id hEarly
    · exact (List.mem_filter.mp (List.mem_of_mem_take hLate)).1
  have hIdsLength : core.trimmed_broadcasts.length = excess := by
    rw [hIds, List.length_append, List.length_take]
    omega
  have hLeft := announced_without hFiled hStore'
  have hGone {b : Broadcast} (hGet : core.store.broadcasts[b.id]? = some b) :
      Dropped core.store store' b ↔ b.id ∈ core.trimmed_broadcasts := by
    unfold Dropped
    rw [hStore']
    by_cases hIn : b.id ∈ core.trimmed_broadcasts <;> simp [hIn, hGet]
  -- what the second pass drops is older than what it leaves
  have hSecond {b b' : Broadcast} (hLate : b.id ∈ spare.take (excess - first.length)) (hIn' : b' ∈ all)
      (hLt : b'.id < b.id) : b'.id ∈ core.trimmed_broadcasts := by
    rw [hIds, List.mem_append]
    by_cases hEarly : b'.id ∈ first
    · exact .inl hEarly
    · refine .inr (mem_take_of_lt hSpareSorted (List.mem_filter.mpr ⟨hHeldKey hIn', ?_⟩) hLate hLt)
      exact decide_eq_true hEarly
  have hModest {b : Broadcast} (hDropped : Dropped core.store store' b) (hShare : sent b.from_ all ≤ quota) :
      b.id ∈ spare.take (excess - first.length) := by
    have hIn := (mem_announced hFiled).mpr hDropped.1
    have hId := (hGone hDropped.1).mp hDropped
    rw [hIds] at hId
    refine (List.mem_append.mp hId).resolve_left fun hEarly => ?_
    have hAbove := h.above b ((hInFirst hIn).mp hEarly)
    rw [hHeld] at hAbove
    exact absurd hShare (not_le.mpr hAbove)
  refine ⟨fun id b hGet => ?_, ?_, fun b b' hDropped hGet' hFrom hLt => ?_, fun b hDropped hShare name => ?_,
    fun b b' hDropped hShare hGet' hShare' hLt => ?_⟩
  · rw [hStore'] at hGet
    split at hGet
    · cases hGet
    · exact hGet
  · have hLength := length_without hKeysNodup hIdsNodup hIdsKeys
    have hSize : store'.broadcasts.size = (keys.filter (· ∉ core.trimmed_broadcasts)).length := by
      have hListed : store'.broadcasts.size = store'.announced.length := by
        rw [Store.announced, List.length_map, Std.ExtTreeMap.length_toList]
      rw [hListed, hLeft, hKeysEq, ← ids_announced hFiled, List.filter_map, List.length_map]
      rfl
    omega
  · refine (hGone hGet').mpr ?_
    have hIn := (mem_announced hFiled).mpr hDropped.1
    have hIn' := (mem_announced hFiled).mpr hGet'
    have hId := (hGone hDropped.1).mp hDropped
    rw [hIds] at hId
    rcases List.mem_append.mp hId with hEarly | hLate
    · have hOldest := of_pairwise (sorted_announced hFiled) h.oldest hIn' hIn hLt hFrom ((hInFirst hIn).mp hEarly)
      rw [hIds]
      exact List.mem_append_left _ ((hInFirst hIn').mpr hOldest)
    · exact hSecond hLate hIn' hLt
  · have hLate := hModest hDropped hShare
    have hSome : 0 < excess - first.length := by
      by_contra hZero
      rw [Nat.eq_zero_of_not_pos hZero, List.take_zero] at hLate
      exact absurd hLate List.not_mem_nil
    have hLevel := h.level (by rw [List.length_nil]; omega) name
    rw [hHeld, Nat.sub_self, max_eq_left (Nat.zero_le _)] at hLevel
    -- what the first pass leaves of a sender's bounds what both leave
    have hPerm : (all.filter fun b => b.id ∈ first).Perm dropped := by
      refine (List.perm_ext_iff_of_nodup (hNodup.filter _) (hNodup.sublist h.sublist)).mpr fun b => ?_
      rw [List.mem_filter, decide_eq_true_eq]
      exact ⟨fun ⟨hIn, hId⟩ => (hInFirst hIn).mp hId, fun hIn => ⟨hDroppedIn hIn, (hInFirst (hDroppedIn hIn)).mpr hIn⟩⟩
    have hSplit : sent name all = sent name dropped + sent name (all.filter fun b => b.id ∉ first) := by
      unfold sent
      rw [List.countP_eq_countP_filter_add all _ (fun b => decide (b.id ∈ first)), hPerm.countP_eq]
      simp only [← decide_not]
    have hLess : sent name store'.announced ≤ sent name (all.filter fun b => b.id ∉ first) := by
      rw [hLeft]
      refine List.Sublist.countP_le (List.monotone_filter_right _ fun b hOut => ?_)
      simp only [hIds, List.mem_append, not_or, decide_eq_true_eq] at hOut ⊢
      exact hOut.1
    omega
  · exact (hGone hGet').mpr (hSecond (hModest hDropped hShare) ((mem_announced hFiled).mpr hGet') hLt)

/-- A trim of a store that holds too many is one commit. -/
theorem trim_broadcasts_eq {core : Core} (hMore : core.limits.max_broadcasts < core.store.broadcasts.size) :
    trim_broadcasts core = commit (.DropBroadcasts core.trimmed_broadcasts) core := by
  unfold trim_broadcasts
  show (if core.store.broadcasts.size - core.limits.max_broadcasts = 0 then pure ()
    else commit (.DropBroadcasts core.trimmed_broadcasts)) core = _
  rw [if_neg (by omega)]

/-- **Trimming broadcasts is fair.** Unless the journal refuses the trim, and then nothing is
dropped, it succeeds and drops as many as there are too many: of each sender's its oldest, of
a modest sender's only when nobody is left with more than a share, and then the oldest of all
the modest senders'. -/
theorem trim_fair {core : Core} (hFiled : ∀ (id : Id) b, core.store.broadcasts[id]? = some b → b.id = id)
    (hMore : core.limits.max_broadcasts < core.store.broadcasts.size) :
    (core.refusal = none → ∃ core', trim_broadcasts core = (.ok (), core') ∧
      Fair core.limits.max_broadcasts core.store core'.store) ∧
    ∀ text, core.refusal = some text → ∃ core', trim_broadcasts core = (.error (.Storage text), core') ∧
      core'.store = core.store := by
  rw [trim_broadcasts_eq hMore]
  refine ⟨fun hTaken => ?_, fun text hRefused => ?_⟩
  · obtain ⟨core', hRun, hStore, -⟩ := commit_taken hTaken (.DropBroadcasts core.trimmed_broadcasts)
    refine ⟨core', hRun, fair_trimmed hFiled hMore fun id => ?_⟩
    rw [hStore]
    exact remove_broadcasts_get core.trimmed_broadcasts core.store id
  · obtain ⟨core', hRun, hStore, -⟩ := commit_refused hRefused (.DropBroadcasts core.trimmed_broadcasts)
    exact ⟨core', hRun, hStore⟩

/-- Two broadcasts are kept of three, and one sender has two of them: it loses its first,
though another's is older. A full disk refuses the same trim. -/
theorem trim_fair_two :
    let first : Broadcast := { id := { ms := 1, seq := 0 }, from_ := "ann", body := "a", created := 1, expires := 9, key := none }
    let second : Broadcast := { id := { ms := 2, seq := 0 }, from_ := "bob", body := "b", created := 2, expires := 9, key := none }
    let third : Broadcast := { id := { ms := 3, seq := 0 }, from_ := "bob", body := "c", created := 3, expires := 9, key := none }
    let core : Core :=
      { store := { broadcasts := (∅ : BTreeMap Id Broadcast).insert first.id first |>.insert second.id second
                                    |>.insert third.id third }
        limits := { max_broadcasts := 2 } }
    (∃ core', trim_broadcasts core = (.ok (), core') ∧ Fair 2 core.store core'.store ∧
      core'.store.announced = [first, third]) ∧
    ∃ core', trim_broadcasts { core with journal := [some "disk full"] } =
      (.error (.Storage "journal write failed: disk full"), core') ∧ core'.store = core.store := by
  intro first second third core
  -- each of the three is filed under its own id
  have hFiled (id : Id) b (hGet : core.store.broadcasts[id]? = some b) : b.id = id := by
    simp only [core, BTreeMap.get_insert] at hGet
    split at hGet
    · next hEq => cases hGet; exact hEq
    · split at hGet
      · next hEq => cases hGet; exact hEq
      · split at hGet
        · next hEq => cases hGet; exact hEq
        · simp at hGet
  refine ⟨?_, (@trim_fair { core with journal := [some "disk full"] } hFiled (by decide +kernel)).2 _ rfl⟩
  obtain ⟨core', hRun, hFair⟩ := (@trim_fair core hFiled (by decide +kernel)).1 rfl
  refine ⟨core', hRun, hFair, ?_⟩
  have hEq : core' = (trim_broadcasts core).2 := by rw [hRun]
  rw [hEq]
  decide +kernel

end Postino.Forum
