import Mathlib.Order.Bounds.Basic

set_option autoImplicit false

/- Half-open intervals in the order in which they begin, and how far they reach
from a cursor without a gap. -/
namespace Sweep

universe u v

variable {α : Type u} {β : Type v} [LinearOrder α] (lo hi : β → α)

/-- One pass over the intervals: it stops at the first that begins beyond the
cursor. -/
def sweep : List β → α → α
  | [], cursor => cursor
  | item :: rest, cursor =>
      if lo item ≤ cursor then sweep rest (max cursor (hi item)) else cursor

/-- Every position from `start` up to `stop` lies in one of the intervals. -/
def Covered (items : List β) (start stop : α) : Prop :=
  ∀ position, start ≤ position → position < stop →
    ∃ item ∈ items, lo item ≤ position ∧ position < hi item

theorem le_sweep (items : List β) (cursor : α) : cursor ≤ sweep lo hi items cursor := by
  induction items generalizing cursor with
  | nil => exact le_refl cursor
  | cons item rest ih =>
      simp only [sweep]
      split
      · exact le_trans (le_max_left _ _) (ih _)
      · exact le_refl cursor

theorem covered_sweep (items : List β) (cursor : α) :
    Covered lo hi items cursor (sweep lo hi items cursor) := by
  induction items generalizing cursor with
  | nil =>
      intro position above below
      exact absurd below (not_lt.mpr above)
  | cons item rest ih =>
      intro position above below
      simp only [sweep] at below
      split at below
      · rename_i begins
        by_cases inside : position < hi item
        · exact ⟨item, List.mem_cons_self, le_trans begins above, inside⟩
        · have beyond : max cursor (hi item) ≤ position := max_le above (not_lt.mp inside)
          have found := ih _ position beyond below
          exact found.imp fun other covers => ⟨List.mem_cons_of_mem _ covers.1, covers.2⟩
      · exact absurd below (not_lt.mpr above)

/-- Where the pass stops there is a gap. -/
theorem gap_sweep {items : List β} (cursor : α)
    (sorted : items.Pairwise fun earlier later => lo earlier ≤ lo later) :
    ∀ item ∈ items, ¬ (lo item ≤ sweep lo hi items cursor ∧
      sweep lo hi items cursor < hi item) := by
  induction items generalizing cursor with
  | nil =>
      intro item member
      cases member
  | cons first rest ih =>
      have inOrder := List.pairwise_cons.mp sorted
      intro item member covers
      simp only [sweep] at covers
      split at covers
      · cases List.mem_cons.mp member with
        | inl same =>
            have passed := le_sweep lo hi rest (max cursor (hi first))
            rw [same] at covers
            exact absurd (le_trans (le_max_right _ _) passed) (not_le.mpr covers.2)
        | inr later => exact ih _ inOrder.2 item later covers
      · rename_i apart
        have begins : lo first ≤ lo item := by
          cases List.mem_cons.mp member with
          | inl same => exact le_of_eq (congrArg lo same.symm)
          | inr later => exact inOrder.1 item later
        exact apart (le_trans begins covers.1)

/-- The pass stops at the greatest end of a covered stretch. -/
theorem isGreatest_sweep {items : List β} (cursor : α)
    (sorted : items.Pairwise fun earlier later => lo earlier ≤ lo later) :
    IsGreatest {stop | Covered lo hi items cursor stop} (sweep lo hi items cursor) := by
  constructor
  · exact covered_sweep lo hi items cursor
  · intro stop covered
    apply not_lt.mp
    intro beyond
    have found := covered _ (le_sweep lo hi items cursor) beyond
    obtain ⟨item, member, covers⟩ := found
    exact gap_sweep lo hi cursor sorted item member covers

end Sweep
