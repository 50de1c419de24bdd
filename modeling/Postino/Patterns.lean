import Postino.Glob

/-!
# What patterns mean

A pattern's meaning is given on its own characters, with no atoms, no automaton and no
merged stars, and a compiled pattern matches exactly the texts its pattern means.

* `Class` — the characters a closed class takes, and the pattern after it;
* `Means` — which texts a pattern means;
* `atoms_from_means` — reading a pattern's atoms keeps its meaning;
* `new_means` — so does compiling it.
-/

namespace Postino

namespace Pattern

/-! ## Classes -/

/-- A character as written in a class: itself, or after a backslash whatever follows it.
A backslash that nothing follows is itself. -/
inductive Written : List Char → Char → List Char → Prop where
  | plain {c : Char} {p : List Char} : c ≠ '\\' ∨ p = [] → Written (c :: p) c p
  | escaped {c : Char} {p : List Char} : Written ('\\' :: c :: p) c p

/-- What a class lists first, and what follows it: the characters between two, in either
order, when a hyphen stands between them, else one character. A hyphen right before the
end of the class is one itself. -/
inductive Item : List Char → Set Char → List Char → Prop where
  | range {p : List Char} {lo hi : Char} {rest : List Char} :
      Written p lo ('-' :: hi :: rest) → hi ≠ ']' → Item p (Set.uIcc lo hi) rest
  | one {p : List Char} {lo : Char} {rest : List Char} :
      Written p lo rest → (∀ hi more, rest = '-' :: hi :: more → hi = ']') → Item p {lo} rest

/-- What a class lists up to its end. A `]` where it begins is listed. -/
inductive Members : Bool → List Char → Set Char → List Char → Prop where
  | close {rest : List Char} : Members false (']' :: rest) ∅ rest
  | item {first : Bool} {p next rest : List Char} {s t : Set Char} :
      (p.head? = some ']' → first = true) → Item p s next → Members false next t rest →
        Members first p (s ∪ t) rest

/-- The characters that the class after a `[` takes, and the pattern after it. -/
inductive Class : List Char → Set Char → List Char → Prop where
  | listed {p rest : List Char} {s : Set Char} :
      p.head? ≠ some '^' → Members true p s rest → Class p s rest
  | others {p rest : List Char} {s : Set Char} : Members true p s rest → Class ('^' :: p) sᶜ rest

/-! ## Patterns -/

/-- Which texts a pattern means. Nothing is meant by a `[` whose class is never closed. -/
inductive Means : List Char → List Char → Prop where
  | nil : Means [] []
  | star {p u v : List Char} : Means p v → Means ('*' :: p) (u ++ v)
  | one {p text : List Char} {c : Char} : Means p text → Means ('?' :: p) (c :: text)
  | class {p next text : List Char} {s : Set Char} {c : Char} :
      Class p s next → c ∈ s → Means next text → Means ('[' :: p) (c :: text)
  | escaped {p text : List Char} {c : Char} : Means p text → Means ('\\' :: c :: p) (c :: text)
  | backslash : Means ['\\'] ['\\']
  | char {p text : List Char} {c : Char} :
      c ∉ ['*', '?', '[', '\\'] → Means p text → Means (c :: p) (c :: text)

/-! ## Reading a class -/

theorem written_iff (c lo : Char) (p rest : List Char) :
    Written (c :: p) lo rest ↔ (lo, rest) = escaped c p := by
  constructor
  · intro h
    cases h with
    | plain hPlain =>
      unfold Postino.escaped
      split
      · rcases hPlain with hPlain | hPlain
        · exact absurd rfl hPlain
        · cases hPlain
      · rfl
    | escaped => rfl
  · intro h
    unfold Postino.escaped at h
    split at h
    · cases h
      exact .escaped
    · next hNot =>
      cases h
      refine .plain ?_
      by_contra hBoth
      rw [not_or, not_not] at hBoth
      obtain ⟨rfl, hNonempty⟩ := hBoth
      obtain ⟨x, more, rfl⟩ := List.exists_cons_of_ne_nil hNonempty
      exact hNot x more rfl rfl

/-- The characters between the ends of one of `ranges`. -/
def within (ranges : List (Char × Char)) : Set Char := { c | ∃ r ∈ ranges, r.1 ≤ c ∧ c ≤ r.2 }

theorem within_range {lo hi : Char} {r : Char × Char} (h : r = if lo ≤ hi then (lo, hi) else (hi, lo)) :
    Set.uIcc lo hi = within [r] := by
  subst h
  ext c
  unfold within
  split
  · next hle => simp [Set.uIcc_of_le hle]
  · next hNot => simp [Set.uIcc_of_ge (le_of_not_ge hNot)]

theorem within_one (lo : Char) : ({lo} : Set Char) = within [(lo, lo)] := by
  rw [← Set.uIcc_self]
  exact within_range (if_pos le_rfl).symm

theorem within_cons (r : Char × Char) (rs : List (Char × Char)) :
    within (r :: rs) = within [r] ∪ within rs := by
  ext c
  simp [within]

/-- **What is read as a class is what it lists.** -/
theorem class_ranges_members {ranges : List (Char × Char)} {first : Bool} {p : List Char}
    {found : List (Char × Char) × List Char} (h : class_ranges ranges first p = some found) :
    ∃ added, found.1 = ranges ++ added ∧ Members first p (within added) found.2 := by
  fun_induction class_ranges ranges first p with
  | case1 => cases h
  | case2 ranges first c p hEnd =>
    cases h
    obtain ⟨rfl, hFirst⟩ := hEnd
    obtain rfl : first = false := by simpa using hFirst
    refine ⟨[], (List.append_nil _).symm, ?_⟩
    have hNone : within [] = ∅ := by simp [within]
    rw [hNone]
    exact .close
  | case3 ranges first c p hEnd lo x hi rest hEscaped hRange ih =>
    obtain ⟨added, hFound, hMembers⟩ := ih h
    obtain ⟨rfl, hHi⟩ := hRange
    refine ⟨(if lo ≤ hi then (lo, hi) else (hi, lo)) :: added, by rw [hFound, List.append_assoc]; rfl, ?_⟩
    rw [within_cons, ← within_range rfl]
    refine .item (fun hHead => ?_) (.range ((written_iff ..).mpr ?_) hHi) hMembers
    · by_contra hFirst
      exact hEnd ⟨Option.some.inj hHead, hFirst⟩
    · rw [← hEscaped]
  | case4 ranges first c p hEnd lo x hi rest hEscaped hRange ih =>
    obtain ⟨added, hFound, hMembers⟩ := ih h
    refine ⟨_ :: added, by rw [hFound, List.append_assoc]; rfl, ?_⟩
    rw [within_cons, ← within_one]
    refine .item (fun hHead => ?_) (.one ((written_iff ..).mpr ?_) ?_) hMembers
    · by_contra hFirst
      exact hEnd ⟨Option.some.inj hHead, hFirst⟩
    · rw [← hEscaped]
    · intro hi' more hMore
      cases hMore
      by_contra hHi
      exact hRange ⟨rfl, hHi⟩
  | case5 ranges first c p hEnd lo hNot ih =>
    obtain ⟨added, hFound, hMembers⟩ := ih h
    refine ⟨_ :: added, by rw [hFound, List.append_assoc]; rfl, ?_⟩
    rw [within_cons, ← within_one]
    refine .item (fun hHead => ?_) (.one ((written_iff ..).mpr rfl) ?_) hMembers
    · by_contra hFirst
      exact hEnd ⟨Option.some.inj hHead, hFirst⟩
    · exact fun hi more hMore => absurd hMore (hNot _ _ _)

/-- And what a class lists is read as one. -/
theorem members_class_ranges {first : Bool} {p rest : List Char} {s : Set Char}
    (h : Members first p s rest) (ranges : List (Char × Char)) :
    ∃ added, class_ranges ranges first p = some (ranges ++ added, rest) ∧ s = within added := by
  induction h generalizing ranges with
  | close =>
    refine ⟨[], ?_, by simp [within]⟩
    rw [class_ranges.eq_def]
    simp
  | @item first p next rest s t hFirst hItem hRest ih =>
    cases hItem with
    | range hWritten hHi =>
      rename_i lo hi
      obtain ⟨added, hFound, rfl⟩ := ih (ranges ++ [if lo ≤ hi then (lo, hi) else (hi, lo)])
      refine ⟨_ :: added, ?_, by rw [within_cons, ← within_range rfl]⟩
      obtain ⟨c, p, rfl⟩ := List.exists_cons_of_ne_nil (show p ≠ [] by rintro rfl; cases hWritten)
      have hEnd : ¬ (c = ']' ∧ ¬ first = true) := fun hEnd => hEnd.2 (hFirst (congrArg some hEnd.1))
      have hWritten := (written_iff ..).mp hWritten
      rw [class_ranges.eq_def]
      dsimp only
      rw [if_neg hEnd]
      rw [← hWritten]
      dsimp only
      rw [if_pos ⟨rfl, hHi⟩, hFound, List.append_assoc]
      rfl
    | one hWritten hNot =>
      rename_i lo
      obtain ⟨added, hFound, rfl⟩ := ih (ranges ++ [(lo, lo)])
      refine ⟨_ :: added, ?_, by rw [within_cons, ← within_one]⟩
      obtain ⟨c, p, rfl⟩ := List.exists_cons_of_ne_nil (show p ≠ [] by rintro rfl; cases hWritten)
      have hEnd : ¬ (c = ']' ∧ ¬ first = true) := fun hEnd => hEnd.2 (hFirst (congrArg some hEnd.1))
      have hWritten := (written_iff ..).mp hWritten
      rw [class_ranges.eq_def]
      dsimp only
      rw [if_neg hEnd, ← hWritten]
      dsimp only
      split
      · next x hi more _ =>
        rw [if_neg fun hRange => hRange.2 (hNot hi more (hRange.1 ▸ rfl)), hFound, List.append_assoc]
        rfl
      · rw [hFound, List.append_assoc]
        rfl

theorem class_others (p : List Char) :
    class_ ('^' :: p) = (class_ranges [] true p).map fun f => (Atom.set true f.1, f.2) := rfl

theorem class_listed {p : List Char} (h : p.head? ≠ some '^') :
    class_ p = (class_ranges [] true p).map fun f => (Atom.set false f.1, f.2) := by
  unfold class_
  cases p with
  | nil => rfl
  | cons c p =>
    have hNot : c ≠ '^' := fun hC => h (congrArg some hC)
    split
    next negate p' hSplit =>
    split at hSplit
    · next hHead =>
      cases hHead
      exact absurd rfl hNot
    · cases hSplit
      rfl

theorem accepts_set (negate : Bool) (ranges : List (Char × Char)) (c : Char) :
    (Atom.set negate ranges).accepts c = true ↔ (c ∈ within ranges ↔ negate = false) := by
  cases negate <;> simp [Atom.accepts, within]

/-- **A closed class is read as the characters it takes.** -/
theorem class_of_means {p next : List Char} {s : Set Char} (h : Class p s next) :
    ∃ atom, class_ p = some (atom, next) ∧ ∀ c, c ∈ s ↔ atom.accepts c = true := by
  cases h with
  | listed hNot hMembers =>
    obtain ⟨added, hFound, rfl⟩ := members_class_ranges hMembers []
    refine ⟨.set false added, ?_, fun c => ?_⟩
    · rw [class_listed hNot, hFound]
      rfl
    · rw [accepts_set]
      simp
  | others hMembers =>
    obtain ⟨added, hFound, rfl⟩ := members_class_ranges hMembers []
    refine ⟨.set true added, ?_, fun c => ?_⟩
    · rw [class_others, hFound]
      rfl
    · rw [accepts_set, Set.mem_compl_iff]
      simp

theorem means_of_class {p next : List Char} {atom : Atom} (h : class_ p = some (atom, next)) :
    ∃ s, Class p s next ∧ ∀ c, c ∈ s ↔ atom.accepts c = true := by
  by_cases hHead : p.head? = some '^'
  · obtain ⟨p, rfl⟩ : ∃ p', p = '^' :: p' := by
      cases p with
      | nil => cases hHead
      | cons c p => exact ⟨p, by rw [Option.some.inj hHead]⟩
    rw [class_others] at h
    obtain ⟨⟨ranges, rest⟩, hRanges, hFound⟩ := Option.map_eq_some_iff.mp h
    obtain ⟨added, hAdded, hMembers⟩ := class_ranges_members hRanges
    cases hFound
    refine ⟨_, .others hMembers, fun c => ?_⟩
    rw [accepts_set, Set.mem_compl_iff, show ranges = added from hAdded]
    simp
  · rw [class_listed hHead] at h
    obtain ⟨⟨ranges, rest⟩, hRanges, hFound⟩ := Option.map_eq_some_iff.mp h
    obtain ⟨added, hAdded, hMembers⟩ := class_ranges_members hRanges
    cases hFound
    refine ⟨_, .listed hHead hMembers, fun c => ?_⟩
    rw [accepts_set, show ranges = added from hAdded]
    simp

/-! ## Reading a pattern -/

/-- A last atom that is no star takes one character. -/
theorem matches_then {atom : Atom} (hAtom : atom ≠ .star) (out : List Atom) (text : List Char)
    (P : List Char → Prop) :
    (∃ u v, text = u ++ v ∧ Matches (out ++ [atom]) u ∧ P v) ↔
      ∃ u c v, text = u ++ c :: v ∧ Matches out u ∧ atom.accepts c = true ∧ P v := by
  constructor
  · rintro ⟨u, v, rfl, hU, hV⟩
    obtain ⟨u, part, rfl, hOut, hPart⟩ := (matches_append ..).mp hU
    obtain ⟨c, rfl, hAccepts⟩ := (matches_single hAtom part).mp hPart
    exact ⟨u, c, v, by simp, hOut, hAccepts, hV⟩
  · rintro ⟨u, c, v, rfl, hOut, hAccepts, hV⟩
    exact ⟨u ++ [c], v, by simp, (matches_snoc hAtom ..).mpr ⟨hOut, hAccepts⟩, hV⟩

/-- A last star takes any run of characters. -/
theorem matches_then_star (out : List Atom) (p text : List Char) :
    (∃ u v, text = u ++ v ∧ Matches (out ++ [.star]) u ∧ Means p v) ↔
      ∃ u v, text = u ++ v ∧ Matches out u ∧ Means ('*' :: p) v := by
  constructor
  · rintro ⟨u, v, rfl, hU, hMeans⟩
    obtain ⟨u, run, rfl, hOut, -⟩ := (matches_append ..).mp hU
    exact ⟨u, run ++ v, List.append_assoc .., hOut, .star hMeans⟩
  · rintro ⟨u, v, rfl, hOut, hMeans⟩
    cases hMeans with
    | star hMeans =>
      rename_i run v
      exact ⟨u ++ run, v, (List.append_assoc ..).symm,
        (matches_append ..).mpr ⟨u, run, rfl, hOut, matches_star run⟩, hMeans⟩
    | char hPlain => simp at hPlain

/-- Two stars in a row take what one does. -/
theorem matches_star_merged {out : List Atom} (hLast : out.getLast? = some .star) (text : List Char) :
    Matches (out ++ [.star]) text ↔ Matches out text := by
  obtain ⟨front, rfl⟩ := List.getLast?_eq_some_iff.mp hLast
  rw [matches_append _ [.star]]
  constructor
  · rintro ⟨u, v, rfl, hU, -⟩
    obtain ⟨u, run, rfl, hFront, -⟩ := (matches_append ..).mp hU
    exact (matches_append ..).mpr ⟨u, run ++ v, List.append_assoc .., hFront, matches_star _⟩
  · exact fun h => ⟨text, [], (List.append_nil _).symm, h, matches_star []⟩

/-- **Reading a pattern's atoms keeps its meaning.** What is read after `out` matches a
text that `out` matches, followed by one the pattern means. -/
theorem atoms_from_means (out : List Atom) (p text : List Char) :
    (∃ as, atoms_from out p = some as ∧ Matches as text) ↔
      ∃ u v, text = u ++ v ∧ Matches out u ∧ Means p v := by
  fun_induction atoms_from out p with
  | case1 out =>
    constructor
    · rintro ⟨as, hAs, hText⟩
      cases hAs
      exact ⟨text, [], (List.append_nil _).symm, hText, .nil⟩
    · rintro ⟨u, v, rfl, hOut, hMeans⟩
      cases hMeans
      exact ⟨out, rfl, by rwa [List.append_nil]⟩
  | case2 out p ih =>
    refine ih.trans ?_
    rw [← matches_then_star]
    split
    · next hLast => simp only [matches_star_merged hLast]
    · rfl
  | case3 out p ih =>
    rw [ih, matches_then (by decide)]
    constructor
    · rintro ⟨u, c, v, rfl, hOut, -, hMeans⟩
      exact ⟨u, c :: v, rfl, hOut, .one hMeans⟩
    · rintro ⟨u, v, rfl, hOut, hMeans⟩
      cases hMeans with
      | one hMeans => exact ⟨u, _, _, rfl, hOut, rfl, hMeans⟩
      | char hPlain => simp at hPlain
  | case4 out p hClass =>
    constructor
    · rintro ⟨as, hAs, -⟩
      cases hAs
    · rintro ⟨u, v, rfl, hOut, hMeans⟩
      cases hMeans with
      | «class» hMembers =>
        obtain ⟨atom, hFound, -⟩ := class_of_means hMembers
        rw [hClass] at hFound
        cases hFound
      | char hPlain => simp at hPlain
  | case5 out p atom next hClass ih =>
    rw [ih, matches_then (class_ne_star hClass)]
    obtain ⟨s, hMembers, hTakes⟩ := means_of_class hClass
    constructor
    · rintro ⟨u, c, v, rfl, hOut, hAccepts, hMeans⟩
      exact ⟨u, c :: v, rfl, hOut, .class hMembers ((hTakes c).mpr hAccepts) hMeans⟩
    · rintro ⟨u, v, rfl, hOut, hMeans⟩
      cases hMeans with
      | «class» hMembers' hTaken hMeans =>
        obtain ⟨atom', hFound, hTakes'⟩ := class_of_means hMembers'
        rw [hClass] at hFound
        cases hFound
        exact ⟨u, _, _, rfl, hOut, (hTakes' _).mp hTaken, hMeans⟩
      | char hPlain => simp at hPlain
  | case6 out c p ih =>
    rw [ih, matches_then (fun hChar => by cases hChar)]
    constructor
    · rintro ⟨u, x, v, rfl, hOut, hAccepts, hMeans⟩
      obtain rfl : c = x := beq_iff_eq.mp hAccepts
      exact ⟨u, c :: v, rfl, hOut, .escaped hMeans⟩
    · rintro ⟨u, v, rfl, hOut, hMeans⟩
      cases hMeans with
      | escaped hMeans => exact ⟨u, _, _, rfl, hOut, beq_self_eq_true c, hMeans⟩
      | char hPlain => simp at hPlain
  | case7 out c p hStar hOne hClass hEscape ih =>
    rw [ih, matches_then (fun hChar => by cases hChar)]
    constructor
    · rintro ⟨u, x, v, rfl, hOut, hAccepts, hMeans⟩
      obtain rfl : c = x := beq_iff_eq.mp hAccepts
      refine ⟨u, c :: v, rfl, hOut, ?_⟩
      by_cases hBackslash : c = '\\'
      · -- nothing follows it
        cases p with
        | nil =>
          cases hMeans
          exact hBackslash ▸ .backslash
        | cons x p => exact (hEscape x p hBackslash rfl).elim
      · refine .char ?_ hMeans
        simp only [List.mem_cons, List.not_mem_nil, or_false, not_or]
        exact ⟨hStar, hOne, hClass, hBackslash⟩
    · rintro ⟨u, v, rfl, hOut, hMeans⟩
      cases hMeans with
      | star => exact (hStar rfl).elim
      | one => exact (hOne rfl).elim
      | «class» => exact (hClass rfl).elim
      | escaped => exact (hEscape _ _ rfl rfl).elim
      | backslash => exact ⟨u, _, _, rfl, hOut, beq_self_eq_true _, .nil⟩
      | char _ hMeans => exact ⟨u, _, _, rfl, hOut, beq_self_eq_true c, hMeans⟩

end Pattern

/-- **Compiled patterns mean what patterns mean**, whatever they are compiled to. -/
theorem new_means (pattern text : String) :
    (Glob.new pattern).matches_ text = true ↔ Pattern.Means pattern.toList text.toList := by
  rw [new_matches]
  unfold atoms
  rw [Pattern.atoms_from_means]
  simp only [matches_nil]
  exact ⟨fun ⟨_, v, hText, rfl, hMeans⟩ => hText ▸ hMeans, fun hMeans => ⟨[], _, rfl, rfl, hMeans⟩⟩

end Postino
