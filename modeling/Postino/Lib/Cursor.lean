import Mathlib

/-!
# Reading a log up to a cursor

A log whose items are numbered as they come, over any linear order, and may go
again at any time; and a reader who is given what lies past a cursor, page by
page. A page may skip what is not for the reader, and the cursor may fall back
when nothing lies past where it comes to.

* `Reading.go_on` — items come at the end, and others go.
* `Reading.read` — a page is given, and the cursor moves.
* `Reading.complete` — with nothing past the cursor, whatever came was given or is
  gone.
-/

namespace Lib

variable {K : Type} [LinearOrder K]

/-- `k` lies past the cursor. -/
def Past (cursor : Option K) (k : K) : Prop := ∀ c, cursor = some c → c < k

/-- A reader of a log: `items` are there and for it, of those that `came`; none is
numbered above `top`. It was `given` some of them. -/
structure Reading (top : K) (items came : Set K) (cursor : Option K) (given : List K) : Prop where
  sorted : given.Pairwise (· < ·)
  given_le : ∀ g ∈ given, g ≤ top
  items_le : ∀ k ∈ items, k ≤ top
  cursor_le : ∀ c, cursor = some c → c ≤ top
  /-- What is still to be read comes after all that was. -/
  ahead : ∀ k ∈ items, Past cursor k → ∀ g ∈ given, g < k
  /-- Nothing that stays is passed over. -/
  kept : ∀ k ∈ came, k ∈ given ∨ k ∉ items ∨ Past cursor k

namespace Reading

variable {top : K} {items came : Set K} {cursor : Option K} {given : List K}

/-- A reader that was given nothing yet. -/
theorem start (hItems : ∀ k ∈ items, k ≤ top) (hCursor : ∀ c, cursor = some c → c ≤ top)
    (hCame : ∀ k ∈ came, Past cursor k) : Reading top items came cursor [] where
  sorted := .nil
  given_le := List.forall_mem_nil _
  items_le := hItems
  cursor_le := hCursor
  ahead := fun _ _ _ => List.forall_mem_nil _
  kept := fun k hk => .inr (.inr (hCame k hk))

/-- What is numbered above the top lies past the cursor. -/
theorem past_of_top_lt (h : Reading top items came cursor given) {k : K} (hk : top < k) :
    Past cursor k := fun c hc => (h.cursor_le c hc).trans_lt hk

/-- Items come at the end, and others go. -/
theorem go_on (h : Reading top items came cursor given) {top' : K} {items' came' : Set K}
    (hTop : top ≤ top') (hItems : ∀ k ∈ items', k ∈ items ∨ top < k ∧ k ≤ top')
    (hCame : ∀ k ∈ came', k ∈ came ∨ top < k) : Reading top' items' came' cursor given where
  sorted := h.sorted
  given_le := fun g hg => (h.given_le g hg).trans hTop
  items_le := fun k hk => (hItems k hk).elim (fun hk => (h.items_le k hk).trans hTop) And.right
  cursor_le := fun c hc => (h.cursor_le c hc).trans hTop
  ahead := by
    intro k hk hPast g hg
    rcases hItems k hk with hOld | ⟨hNew, -⟩
    · exact h.ahead k hOld hPast g hg
    · exact (h.given_le g hg).trans_lt hNew
  kept := by
    intro k hk
    rcases hCame k hk with hOld | hNew
    · rcases h.kept k hOld with hGiven | hGone | hPast
      · exact .inl hGiven
      · by_cases hBack : k ∈ items'
        · -- it is there again, under a number above the top
          exact .inr (.inr (h.past_of_top_lt ((hItems k hBack).resolve_left hGone).1))
        · exact .inr (.inl hBack)
      · exact .inr (.inr hPast)
    · exact .inr (.inr (h.past_of_top_lt hNew))

/-- A page is given, and the cursor moves to `c`: up to there the page has all that
lay past the cursor, and all that lies past `c` lay past the cursor too. -/
theorem read (h : Reading top items came cursor given) {c : K} {page : List K}
    (hSorted : page.Pairwise (· < ·)) (hTop : c ≤ top)
    (hPage : ∀ k, k ∈ page ↔ k ∈ items ∧ Past cursor k ∧ k ≤ c)
    (hOn : ∀ k ∈ items, c < k → Past cursor k) :
    Reading top items came (some c) (given ++ page) where
  sorted := by
    refine List.pairwise_append.mpr ⟨h.sorted, hSorted, fun g hg k hk => ?_⟩
    obtain ⟨hItem, hPast, -⟩ := (hPage k).mp hk
    exact h.ahead k hItem hPast g hg
  given_le := by
    intro g hg
    rcases List.mem_append.mp hg with hOld | hNew
    · exact h.given_le g hOld
    · exact h.items_le g ((hPage g).mp hNew).1
  items_le := h.items_le
  cursor_le := by
    rintro _ ⟨⟩
    exact hTop
  ahead := by
    intro k hk hPast g hg
    have hAfter : c < k := hPast c rfl
    rcases List.mem_append.mp hg with hOld | hNew
    · exact h.ahead k hk (hOn k hk hAfter) g hOld
    · exact ((hPage g).mp hNew).2.2.trans_lt hAfter
  kept := by
    intro k hk
    rcases h.kept k hk with hGiven | hGone | hPast
    · exact .inl (List.mem_append_left _ hGiven)
    · exact .inr (.inl hGone)
    · by_cases hItem : k ∈ items
      · rcases le_or_gt k c with hUpTo | hAfter
        · exact .inl (List.mem_append_right _ ((hPage k).mpr ⟨hItem, hPast, hUpTo⟩))
        · refine .inr (.inr ?_)
          rintro _ ⟨⟩
          exact hAfter
      · exact .inr (.inl hItem)

/-- With nothing past the cursor, whatever came was given or is gone. -/
theorem complete (h : Reading top items came cursor given) (hNone : ∀ k ∈ items, ¬ Past cursor k)
    {k : K} (hk : k ∈ came) : k ∈ given ∨ k ∉ items := by
  rcases h.kept k hk with hGiven | hGone | hPast
  · exact .inl hGiven
  · exact .inr hGone
  · exact .inr fun hItem => hNone k hItem hPast

end Reading

end Lib
