import CurvecprAsio.Lib.Transition
import Mathlib.Data.List.Infix

set_option autoImplicit false

/- A one-way channel of items: what is written at one end is taken at the other
end in the same order, and the taker is told the end only when nothing is left. -/
namespace Channel

open Transition

universe u

variable {α : Type u}

/-- What was written, what was taken, whether the writer has shut the channel, and
whether the taker has been told so. -/
structure State (α : Type u) where
  written : List α := []
  taken : List α := []
  shut : Bool := false
  told : Bool := false

inductive Step (α : Type u) where
  | write (items : List α)
  | take (count : Nat)
  | shut
  | tell

def State.next (state : State α) : Step α → State α
  | .write items => { state with written := state.written ++ items }
  | .take count => { state with taken := state.written.take (state.taken.length + count) }
  | .shut => { state with shut := true }
  | .tell => { state with told := true }

/-- Nothing is written once the channel is shut, and its end is told only to a taker
that has taken everything. -/
def State.Ok (state : State α) : Step α → Prop
  | .write _ => state.shut = false
  | .take _ => True
  | .shut => True
  | .tell => state.shut = true ∧ state.taken = state.written

/-- The second state comes after the first. -/
def Follows (first second : State α) : Prop := Reaches State.next State.Ok first second

theorem Follows.step (state : State α) (step : Step α) (ok : state.Ok step) :
    Follows state (state.next step) := Reaches.act .start ok

/-- What holds of a channel at any time. -/
structure Inv (state : State α) : Prop where
  taken : state.taken <+: state.written
  told : state.told = true → state.shut = true ∧ state.taken = state.written

namespace Inv

variable {state : State α}

theorem initial : Inv ({} : State α) where
  taken := List.prefix_rfl
  told := by
    intro told
    cases told

theorem next (inv : Inv state) (step : Step α) (ok : state.Ok step) : Inv (state.next step) := by
  cases step with
  | write items =>
      constructor
      · exact inv.taken.trans (List.prefix_append _ _)
      · intro told
        have shut := (inv.told told).1
        rw [ok] at shut
        cases shut
  | take count =>
      constructor
      · exact List.take_prefix _ _
      · intro told
        obtain ⟨shut, all⟩ := inv.told told
        refine ⟨shut, List.take_of_length_le ?_⟩
        show state.written.length ≤ state.taken.length + count
        rw [all]
        exact Nat.le_add_right _ _
  | shut => exact ⟨inv.taken, fun told => ⟨rfl, (inv.told told).2⟩⟩
  | tell => exact ⟨inv.taken, fun _ => ok⟩

theorem follows (inv : Inv state) {later : State α} (after : Follows state later) : Inv later :=
  after.invariant inv fun _ step inv ok => inv.next step ok

end Inv

/-- Nothing that was taken is taken back, and what was written stays written. -/
theorem Follows.grows {first second : State α} (inv : Inv first) (after : Follows first second) :
    first.taken <+: second.taken ∧ first.written <+: second.written := by
  induction after with
  | start => exact ⟨List.prefix_rfl, List.prefix_rfl⟩
  | @act state step before ok ih =>
      have stands := inv.follows before
      cases step with
      | write items => exact ⟨ih.1, ih.2.trans (List.prefix_append _ _)⟩
      | take count =>
          refine ⟨ih.1.trans ?_, ih.2⟩
          obtain ⟨rest, whole⟩ := stands.taken
          show state.taken <+: state.written.take (state.taken.length + count)
          rw [← whole, List.take_length_add_append]
          exact List.prefix_append _ _
      | shut => exact ih
      | tell => exact ih

/-- A channel that is shut stays so and is not written to, and what was told stays told. -/
theorem Follows.stays {first second : State α} (after : Follows first second) :
    (first.shut = true → second.shut = true ∧ second.written = first.written) ∧
      (first.told = true → second.told = true) := by
  induction after with
  | start => exact ⟨fun shut => ⟨shut, rfl⟩, id⟩
  | @act state step _ ok ih =>
      cases step with
      | write items =>
          refine ⟨fun shut => ?_, ih.2⟩
          rw [show state.shut = false from ok] at ih
          exact absurd (ih.1 shut).1 Bool.false_ne_true
      | take count => exact ih
      | shut => exact ⟨fun shut => ⟨rfl, (ih.1 shut).2⟩, ih.2⟩
      | tell => exact ⟨ih.1, fun _ => rfl⟩

/-- What the writer does at once: it writes while the channel is open, and may shut it. -/
theorem follows_write (state : State α) {tail : List α} {shut : Bool}
    (open_ : tail ≠ [] → state.shut = false) (stays : state.shut = true → shut = true) :
    Follows state { state with written := state.written ++ tail, shut := shut } := by
  have written : Follows state { state with written := state.written ++ tail } := by
    by_cases nothing : tail = []
    · rw [nothing, List.append_nil]
      exact .start
    · exact Follows.step state (.write tail) (open_ nothing)
  cases now : shut with
  | true => exact written.trans (Follows.step _ .shut trivial)
  | false =>
      cases before : state.shut with
      | true =>
          rw [stays before] at now
          cases now
      | false =>
          rw [← before]
          exact written

/-- What the taker does at once: it takes up to a later prefix of what was written, and
may then be told the end. -/
theorem follows_take (state : State α) {later : List α} {told : Bool}
    (behind : state.taken <+: later) (inside : later <+: state.written)
    (stays : state.told = true → told = true)
    (ends : told = true → state.told = true ∨ state.shut = true ∧ later = state.written) :
    Follows state { state with taken := later, told := told } := by
  have length := behind.length_le
  have reach : state.taken.length + (later.length - state.taken.length) = later.length := by
    omega
  have result : state.next (.take (later.length - state.taken.length)) =
      { state with taken := later } := by
    simp only [State.next, reach, ← List.prefix_iff_eq_take.mp inside]
  have taken : Follows state { state with taken := later } := by
    rw [← result]
    exact Follows.step state (.take _) trivial
  cases before : state.told with
  | true =>
      rw [stays before, ← before]
      exact taken
  | false =>
      cases now : told with
      | false =>
          rw [← before]
          exact taken
      | true =>
          rcases ends now with already | ended
          · rw [before] at already
            cases already
          · exact taken.trans (Follows.step _ .tell ended)

end Channel
