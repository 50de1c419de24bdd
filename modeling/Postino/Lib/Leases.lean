import Mathlib

/-!
# Leased items

Items that wait, are handed out for a while, wait again when the while is over,
and are closed in the end. The system of steps says when each is allowed; what
follows holds of every run of them, with times that do not go back.

* `Inv.step`, `Inv.run` — each item's deliveries are those recorded of it, at most
  `most` of them, each after the end of the one before.
* `Kept.step`, `Kept.run` — an item once closed stays as it is, or is dropped.
-/

namespace Lib

/-- Where an item is. -/
inductive Phase (σ : Type) where
  | waiting
  | out
  | closed (outcome : σ)

/-- An item: what it is, where it is, how often it was handed out, and the last
delivery. -/
structure Item (β γ σ : Type) where
  body : β
  phase : Phase σ
  count : Nat
  last : Option γ

def Item.is_closed {β γ σ : Type} (item : Item β γ σ) : Prop :=
  ∃ outcome, item.phase = .closed outcome

/-- When a delivery is made, when it ends, and how many one item may have. -/
structure Terms (γ : Type) where
  at_ : γ → Nat
  until_ : γ → Nat
  most : Nat

structure Leases (ι β γ σ : Type) where
  items : ι → Option (Item β γ σ)
  /-- The greatest id given out. -/
  last : ι
  /-- Every delivery made, in order. -/
  granted : List (ι × γ)

namespace Leases

variable {ι β γ σ : Type} [LinearOrder ι]

/-- The deliveries of one item, in order. -/
def grants (s : Leases ι β γ σ) (id : ι) : List γ :=
  (s.granted.filter fun p => p.1 = id).map Prod.snd

/-- The items with one of them put in. -/
def put (items : ι → Option (Item β γ σ)) (id : ι) (item : Item β γ σ) : ι → Option (Item β γ σ) :=
  Function.update items id (some item)

theorem put_self (items : ι → Option (Item β γ σ)) (id : ι) (item : Item β γ σ) :
    put items id item id = some item := Function.update_self _ _ _

theorem put_of_ne (items : ι → Option (Item β γ σ)) {id i : ι} (item : Item β γ σ) (h : i ≠ id) :
    put items id item i = items i := Function.update_of_ne h _ _

/-- What may happen at a time. -/
inductive Step (terms : Terms γ) (now : Nat) : Leases ι β γ σ → Leases ι β γ σ → Prop
  | add {s : Leases ι β γ σ} (id : ι) (body : β) (hFresh : s.last < id) :
      Step terms now s { s with
        items := put s.items id { body, phase := .waiting, count := 0, last := none }
        last := id }
  | drop {s : Leases ι β γ σ} (items : ι → Option (Item β γ σ))
      (h : ∀ id, items id = none ∨ items id = s.items id) :
      Step terms now s { s with items }
  | grant {s : Leases ι β γ σ} {id : ι} {item : Item β γ σ} (g : γ) (hItem : s.items id = some item)
      (hPhase : item.phase = .waiting) (hNow : terms.at_ g = now) :
      Step terms now s { s with
        items := put s.items id { item with phase := .out, count := item.count + 1, last := some g }
        granted := s.granted ++ [(id, g)] }
  | requeue {s : Leases ι β γ σ} {id : ι} {item : Item β γ σ} {g : γ} (hItem : s.items id = some item)
      (hPhase : item.phase = .out) (hLast : item.last = some g) (hOver : terms.until_ g ≤ now)
      (hCount : item.count < terms.most) :
      Step terms now s { s with
        items := put s.items id { item with phase := .waiting } }
  | close {s : Leases ι β γ σ} {id : ι} {item : Item β γ σ} (outcome : σ)
      (hItem : s.items id = some item) (hPhase : item.phase = .waiting ∨ item.phase = .out) :
      Step terms now s { s with
        items := put s.items id { item with phase := .closed outcome } }

/-- Any number of steps at one time. -/
abbrev Steps (terms : Terms γ) (now : Nat) : Leases ι β γ σ → Leases ι β γ σ → Prop :=
  Relation.ReflTransGen (Step terms now)

/-- What an item is after one was put in. -/
theorem put_cases {items : ι → Option (Item β γ σ)} {id i : ι} {new item : Item β γ σ}
    (h : put items id new i = some item) :
    (i = id ∧ item = new) ∨ (i ≠ id ∧ items i = some item) := by
  by_cases hi : i = id
  · subst hi
    rw [put_self] at h
    exact .inl ⟨rfl, (Option.some.inj h).symm⟩
  · rw [put_of_ne items new hi] at h
    exact .inr ⟨hi, h⟩

/-! ## Deliveries -/

/-- What is known of the deliveries of every item. -/
structure Inv (terms : Terms γ) (now : Nat) (s : Leases ι β γ σ) : Prop where
  known : ∀ id item, s.items id = some item → id ≤ s.last
  granted_known : ∀ p ∈ s.granted, p.1 ≤ s.last
  past : ∀ p ∈ s.granted, terms.at_ p.2 ≤ now
  count : ∀ id item, s.items id = some item →
    item.count = (s.grants id).length ∧ item.last = (s.grants id).getLast?
  most : ∀ id, (s.grants id).length ≤ terms.most
  /-- What waits has deliveries left, and all it had are over. -/
  waiting : ∀ id item, s.items id = some item → item.phase = .waiting →
    item.count < terms.most ∧ ∀ g ∈ s.grants id, terms.until_ g ≤ now
  spaced : ∀ id, (s.grants id).Pairwise fun g g' => terms.until_ g ≤ terms.at_ g'

variable {terms : Terms γ} {now : Nat} {s t : Leases ι β γ σ}

theorem mem_grants {id : ι} {g : γ} : g ∈ s.grants id ↔ (id, g) ∈ s.granted := by
  unfold grants
  rw [List.mem_map]
  constructor
  · rintro ⟨⟨i, g'⟩, hMem, rfl⟩
    obtain ⟨hMem, hId⟩ := List.mem_filter.mp hMem
    have hId : i = id := by simpa using hId
    exact hId ▸ hMem
  · intro h
    exact ⟨(id, g), List.mem_filter.mpr ⟨h, by simp⟩, rfl⟩

/-- A delivery is recorded of its item and of no other. -/
theorem grants_append (s : Leases ι β γ σ) (items : ι → Option (Item β γ σ)) (id i : ι) (g : γ) :
    grants { s with items, granted := s.granted ++ [(id, g)] } i =
      if id = i then s.grants i ++ [g] else s.grants i := by
  unfold grants
  by_cases h : id = i
  · simp [h]
  · simp [h]

theorem Inv.mono {now' : Nat} (h : Inv terms now s) (hNow : now ≤ now') : Inv terms now' s :=
  { h with
    past := fun p hp => (h.past p hp).trans hNow
    waiting := fun id item hItem hPhase =>
      ⟨(h.waiting id item hItem hPhase).1, fun g hg =>
        ((h.waiting id item hItem hPhase).2 g hg).trans hNow⟩ }

/-- All deliveries but the last ended before it, so before now. -/
theorem Inv.over (h : Inv terms now s) {id : ι} {g : γ} (hLast : (s.grants id).getLast? = some g)
    (hOver : terms.until_ g ≤ now) : ∀ g' ∈ s.grants id, terms.until_ g' ≤ now := by
  obtain ⟨before, hGrants⟩ := List.getLast?_eq_some_iff.mp hLast
  have hSpaced := h.spaced id
  have hPast := h.past (id, g) (mem_grants.mp (hGrants ▸ by simp))
  rw [hGrants, List.pairwise_append] at hSpaced
  intro g' hg'
  rw [hGrants] at hg'
  rcases List.mem_append.mp hg' with hBefore | hAt
  · exact (hSpaced.2.2 g' hBefore g (by simp)).trans hPast
  · obtain rfl := List.mem_singleton.mp hAt
    exact hOver

/-- One item changed, none of its deliveries. -/
theorem Inv.update (h : Inv terms now s) {id : ι} {item new : Item β γ σ}
    (hItem : s.items id = some item) (hCount : new.count = item.count) (hLast : new.last = item.last)
    (hWaiting : new.phase = .waiting →
      item.count < terms.most ∧ ∀ g ∈ s.grants id, terms.until_ g ≤ now) :
    Inv terms now { s with items := put s.items id new } := by
  refine ⟨?_, h.granted_known, h.past, ?_, h.most, ?_, h.spaced⟩
  · intro i item' hItem'
    rcases put_cases hItem' with ⟨rfl, rfl⟩ | ⟨hi, hItem'⟩
    · exact h.known i item hItem
    · exact h.known i item' hItem'
  · intro i item' hItem'
    rcases put_cases hItem' with ⟨rfl, rfl⟩ | ⟨hi, hItem'⟩
    · rw [hCount, hLast]
      exact h.count i item hItem
    · exact h.count i item' hItem'
  · intro i item' hItem' hPhase
    rcases put_cases hItem' with ⟨rfl, rfl⟩ | ⟨hi, hItem'⟩
    · rw [hCount]
      exact hWaiting hPhase
    · exact h.waiting i item' hItem' hPhase

theorem Inv.add (h : Inv terms now s) (hMost : 1 ≤ terms.most) {id : ι} (body : β)
    (hFresh : s.last < id) :
    Inv terms now { s with
      items := put s.items id { body, phase := .waiting, count := 0, last := none }
      last := id } := by
  -- an id greater than the last has no deliveries yet
  have hNone : s.grants id = [] := by
    rw [List.eq_nil_iff_forall_not_mem]
    intro g hg
    exact absurd (h.granted_known _ (mem_grants.mp hg)) (not_le.mpr hFresh)
  refine ⟨?_, fun p hp => (h.granted_known p hp).trans hFresh.le, h.past, ?_, h.most, ?_, h.spaced⟩
  · intro i item hItem
    rcases put_cases hItem with ⟨rfl, rfl⟩ | ⟨hi, hItem⟩
    · exact le_rfl
    · exact (h.known i item hItem).trans hFresh.le
  · intro i item hItem
    rcases put_cases hItem with ⟨rfl, rfl⟩ | ⟨hi, hItem⟩
    · show 0 = (s.grants i).length ∧ none = (s.grants i).getLast?
      simp [hNone]
    · exact h.count i item hItem
  · intro i item hItem hPhase
    rcases put_cases hItem with ⟨rfl, rfl⟩ | ⟨hi, hItem⟩
    · refine ⟨hMost, fun g hg => ?_⟩
      have hg : g ∈ s.grants i := hg
      simp [hNone] at hg
    · exact h.waiting i item hItem hPhase

theorem Inv.drop (h : Inv terms now s) {items : ι → Option (Item β γ σ)}
    (hItems : ∀ id, items id = none ∨ items id = s.items id) :
    Inv terms now { s with items } := by
  have hSub : ∀ id item, items id = some item → s.items id = some item := by
    intro id item hItem
    rcases hItems id with hNone | hSame
    · rw [hNone] at hItem
      cases hItem
    · exact hSame ▸ hItem
  exact ⟨fun id item hItem => h.known id item (hSub id item hItem), h.granted_known, h.past,
    fun id item hItem => h.count id item (hSub id item hItem), h.most,
    fun id item hItem => h.waiting id item (hSub id item hItem), h.spaced⟩

theorem Inv.grant (h : Inv terms now s) {id : ι} {item : Item β γ σ} {g : γ}
    (hItem : s.items id = some item) (hPhase : item.phase = .waiting) (hNow : terms.at_ g = now) :
    Inv terms now { s with
      items := put s.items id { item with phase := .out, count := item.count + 1, last := some g }
      granted := s.granted ++ [(id, g)] } := by
  obtain ⟨hLeft, hOver⟩ := h.waiting id item hItem hPhase
  obtain ⟨hCount, hLast⟩ := h.count id item hItem
  refine ⟨?_, ?_, ?_, ?_, ?_, ?_, ?_⟩
  · intro i item' hItem'
    rcases put_cases hItem' with ⟨rfl, rfl⟩ | ⟨hi, hItem'⟩
    · exact h.known i item hItem
    · exact h.known i item' hItem'
  · intro p hp
    rcases List.mem_append.mp hp with hp | hp
    · exact h.granted_known p hp
    · obtain rfl := List.mem_singleton.mp hp
      exact h.known id item hItem
  · intro p hp
    rcases List.mem_append.mp hp with hp | hp
    · exact h.past p hp
    · obtain rfl := List.mem_singleton.mp hp
      exact hNow.le
  · intro i item' hItem'
    rw [grants_append]
    rcases put_cases hItem' with ⟨rfl, rfl⟩ | ⟨hi, hItem'⟩
    · rw [if_pos rfl]
      simp [hCount]
    · rw [if_neg (Ne.symm hi)]
      exact h.count i item' hItem'
  · intro i
    rw [grants_append]
    split
    · next hi =>
      subst hi
      rw [List.length_append, List.length_singleton, ← hCount]
      exact hLeft
    · exact h.most i
  · intro i item' hItem' hPhase'
    rcases put_cases hItem' with ⟨rfl, rfl⟩ | ⟨hi, hItem'⟩
    · cases hPhase'
    · rw [grants_append, if_neg (Ne.symm hi)]
      exact h.waiting i item' hItem' hPhase'
  · intro i
    rw [grants_append]
    split
    · next hi =>
      subst hi
      rw [List.pairwise_append]
      refine ⟨h.spaced id, List.pairwise_singleton _ _, fun g' hg' g'' hg'' => ?_⟩
      obtain rfl := List.mem_singleton.mp hg''
      exact hNow.symm ▸ hOver g' hg'
    · exact h.spaced i

/-- **One step keeps what is known of the deliveries.** -/
theorem Inv.step (h : Inv terms now s) (hMost : 1 ≤ terms.most) (hStep : Step terms now s t) :
    Inv terms now t := by
  cases hStep with
  | add id body hFresh => exact h.add hMost body hFresh
  | drop items hItems => exact h.drop hItems
  | grant g hItem hPhase hNow => exact h.grant hItem hPhase hNow
  | requeue hItem hPhase hLast hOver hCount =>
    refine h.update hItem rfl rfl fun _ => ⟨hCount, ?_⟩
    exact h.over ((h.count _ _ hItem).2 ▸ hLast) hOver
  | close outcome hItem hPhase => exact h.update hItem rfl rfl nofun

theorem Inv.steps (h : Inv terms now s) (hMost : 1 ≤ terms.most) (hSteps : Steps terms now s t) :
    Inv terms now t := by
  induction hSteps with
  | refl => exact h
  | tail _ hStep ih => exact ih.step hMost hStep

/-! ## Closed items -/

/-- What stays from one state to a later one. -/
structure Kept (s t : Leases ι β γ σ) : Prop where
  last : s.last ≤ t.last
  /-- An item that was dropped does not come back. -/
  gone : ∀ id ≤ s.last, s.items id = none → t.items id = none
  body : ∀ id item item', s.items id = some item → t.items id = some item' → item'.body = item.body
  closed : ∀ id item, s.items id = some item → item.is_closed →
    t.items id = none ∨ t.items id = some item
  /-- What was delivered since was not closed, nor gone. -/
  granted : ∃ since, t.granted = s.granted ++ since ∧
    ∀ p ∈ since, p.1 ≤ s.last → ∃ item, s.items p.1 = some item ∧ ¬ item.is_closed

theorem Kept.refl (s : Leases ι β γ σ) : Kept s s where
  last := le_rfl
  gone _ _ h := h
  body id item item' h h' := by
    rw [h] at h'
    cases h'
    rfl
  closed _ _ h _ := .inr h
  granted := ⟨[], by simp, by simp⟩

theorem Kept.trans {u : Leases ι β γ σ} (h : Kept s t) (h' : Kept t u)
    (hKnown : ∀ id item, s.items id = some item → id ≤ s.last) : Kept s u where
  last := h.last.trans h'.last
  gone id hId hNone := h'.gone id (hId.trans h.last) (h.gone id hId hNone)
  body id item item'' hItem hItem'' := by
    cases hMid : t.items id with
    | none =>
      rw [h'.gone id ((hKnown id item hItem).trans h.last) hMid] at hItem''
      cases hItem''
    | some item' => exact (h'.body id item' item'' hMid hItem'').trans (h.body id item item' hItem hMid)
  closed id item hItem hClosed := by
    rcases h.closed id item hItem hClosed with hNone | hSame
    · exact .inl (h'.gone id ((hKnown id item hItem).trans h.last) hNone)
    · exact h'.closed id item hSame hClosed
  granted := by
    obtain ⟨since, hGranted, hSince⟩ := h.granted
    obtain ⟨since', hGranted', hSince'⟩ := h'.granted
    refine ⟨since ++ since', by rw [hGranted', hGranted, List.append_assoc], fun p hp hId => ?_⟩
    rcases List.mem_append.mp hp with hp | hp
    · exact hSince p hp hId
    · obtain ⟨item', hItem', hOpen⟩ := hSince' p hp (hId.trans h.last)
      cases hItem : s.items p.1 with
      | none =>
        rw [h.gone p.1 hId hItem] at hItem'
        cases hItem'
      | some item =>
        refine ⟨item, rfl, fun hClosed => hOpen ?_⟩
        rcases h.closed p.1 item hItem hClosed with hNone | hSame
        · rw [hNone] at hItem'
          cases hItem'
        · rw [hSame] at hItem'
          cases hItem'
          exact hClosed

/-- One open item changed, and perhaps delivered. -/
theorem Kept.update {id : ι} {item : Item β γ σ} (new : Item β γ σ)
    (hItem : s.items id = some item) (hOpen : ¬ item.is_closed) (hBody : new.body = item.body) {since : List (ι × γ)}
    (hSince : ∀ p ∈ since, p.1 = id) :
    Kept s { s with
      items := put s.items id new, granted := s.granted ++ since } where
  last := le_rfl
  gone i _ hNone := by
    have hi : i ≠ id := by
      rintro rfl
      rw [hItem] at hNone
      cases hNone
    show put s.items id new i = none
    rw [put_of_ne _ _ hi]
    exact hNone
  body i item₁ item₂ h₁ h₂ := by
    rcases put_cases h₂ with ⟨rfl, rfl⟩ | ⟨hi, h₂⟩
    · rw [hItem] at h₁
      cases h₁
      exact hBody
    · rw [h₁] at h₂
      cases h₂
      rfl
  closed i item' h' hClosed := by
    have hi : i ≠ id := by
      rintro rfl
      rw [hItem] at h'
      cases h'
      exact hOpen hClosed
    refine .inr ?_
    show put s.items id new i = some item'
    rw [put_of_ne _ _ hi]
    exact h'
  granted := ⟨since, rfl, fun p hp _ => ⟨item, hSince p hp ▸ hItem, hOpen⟩⟩

theorem Kept.add {id : ι} (body : β) (hFresh : s.last < id)
    (hKnown : ∀ id item, s.items id = some item → id ≤ s.last) :
    Kept s { s with
      items := put s.items id { body, phase := .waiting, count := 0, last := none }
      last := id } where
  last := hFresh.le
  gone i hi hNone := by
    show put s.items id _ i = none
    rw [put_of_ne _ _ (lt_of_le_of_lt hi hFresh).ne]
    exact hNone
  body i item item' h h' := by
    rcases put_cases h' with ⟨rfl, rfl⟩ | ⟨hi, h'⟩
    · exact absurd (hKnown i item h) (not_le.mpr hFresh)
    · rw [h] at h'
      cases h'
      rfl
  closed i item h _ := by
    refine .inr ?_
    show put s.items id _ i = some item
    rw [put_of_ne _ _ (lt_of_le_of_lt (hKnown i item h) hFresh).ne]
    exact h
  granted := ⟨[], by simp, by simp⟩

theorem Kept.drop {items : ι → Option (Item β γ σ)}
    (hItems : ∀ id, items id = none ∨ items id = s.items id) : Kept s { s with items } where
  last := le_rfl
  gone id _ hNone := by
    rcases hItems id with h | h
    · exact h
    · exact h.trans hNone
  body id item item' h h' := by
    have h' : items id = some item' := h'
    rcases hItems id with hNone | hSame
    · rw [hNone] at h'
      cases h'
    · rw [hSame, h] at h'
      cases h'
      rfl
  closed id item h _ := by
    rcases hItems id with hNone | hSame
    · exact .inl hNone
    · exact .inr (hSame.trans h)
  granted := ⟨[], by simp, by simp⟩

theorem not_closed_of_waiting {item : Item β γ σ} (h : item.phase = .waiting) :
    ¬ item.is_closed := by
  rintro ⟨outcome, hClosed⟩
  simp [h] at hClosed

theorem not_closed_of_out {item : Item β γ σ} (h : item.phase = .out) : ¬ item.is_closed := by
  rintro ⟨outcome, hClosed⟩
  simp [h] at hClosed

/-- **One step keeps what was closed.** -/
theorem Kept.step (hKnown : ∀ id item, s.items id = some item → id ≤ s.last)
    (hStep : Step terms now s t) : Kept s t := by
  cases hStep with
  | add id body hFresh => exact Kept.add body hFresh hKnown
  | drop items hItems => exact Kept.drop hItems
  | @grant id item g hItem hPhase hNow =>
    have hOnly : ∀ p ∈ [(id, g)], p.1 = id := by simp
    exact Kept.update { item with phase := .out, count := item.count + 1, last := some g } hItem
      (not_closed_of_waiting hPhase) rfl hOnly
  | @requeue id item g hItem hPhase hLast hOver hCount =>
    have hKept := Kept.update { item with phase := .waiting } hItem (not_closed_of_out hPhase) rfl
      (List.forall_mem_nil _)
    rwa [List.append_nil] at hKept
  | @close id item outcome hItem hPhase =>
    have hKept := Kept.update { item with phase := .closed outcome } hItem
      (hPhase.elim not_closed_of_waiting not_closed_of_out) rfl (List.forall_mem_nil _)
    rwa [List.append_nil] at hKept

theorem Kept.steps (h : Inv terms now s) (hMost : 1 ≤ terms.most) (hSteps : Steps terms now s t) :
    Kept s t := by
  induction hSteps with
  | refl => exact .refl s
  | tail hBefore hStep ih => exact ih.trans (.step (h.steps hMost hBefore).known hStep) h.known

end Leases

end Lib
