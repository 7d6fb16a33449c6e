set_option autoImplicit false

/- Runs of a machine given by its next state and by the condition under which
an action may be taken. Nothing here depends on what the machine is. -/
namespace Transition

universe u v w x

variable {σ : Type u} {α : Type v}

/-- The states reached from `start` by actions that each meet `ok` when taken. -/
inductive Reaches (next : σ → α → σ) (ok : σ → α → Prop) (start : σ) : σ → Prop
  | start : Reaches next ok start start
  | act {state : σ} {action : α} (before : Reaches next ok start state)
      (met : ok state action) : Reaches next ok start (next state action)

theorem Reaches.trans {next : σ → α → σ} {ok : σ → α → Prop} {first second third : σ}
    (before : Reaches next ok first second) (after : Reaches next ok second third) :
    Reaches next ok first third := by
  induction after with
  | start => exact before
  | act _ met ih => exact .act ih met

/-- Some schedule of such actions leads to the goal. -/
def Leads (next : σ → α → σ) (ok : σ → α → Prop) (goal : σ → Prop) (state : σ) : Prop :=
  ∃ later, Reaches next ok state later ∧ goal later

theorem Leads.now {next : σ → α → σ} {ok : σ → α → Prop} {goal : σ → Prop} {state : σ}
    (reached : goal state) : Leads next ok goal state := ⟨state, .start, reached⟩

theorem Leads.step {next : σ → α → σ} {ok : σ → α → Prop} {goal : σ → Prop} {state : σ}
    (action : α) (met : ok state action) (leads : Leads next ok goal (next state action)) :
    Leads next ok goal state := by
  obtain ⟨later, after, reached⟩ := leads
  exact ⟨later, (Reaches.act .start met).trans after, reached⟩

theorem Leads.bind {next : σ → α → σ} {ok : σ → α → Prop} {middle goal : σ → Prop} {state : σ}
    (leads : Leads next ok middle state)
    (on : ∀ later, middle later → Leads next ok goal later) : Leads next ok goal state := by
  obtain ⟨later, before, met⟩ := leads
  obtain ⟨last, after, reached⟩ := on later met
  exact ⟨last, before.trans after, reached⟩

/-- Where a schedule can always make a measure of the state smaller until the goal is
reached, a schedule leads to the goal. -/
theorem Leads.descend {next : σ → α → σ} {ok : σ → α → Prop} {goal : σ → Prop}
    (inv : σ → Prop) (size : σ → Nat)
    (round : ∀ state, inv state → ¬ goal state →
      Leads next ok (fun later => inv later ∧ size later < size state) state)
    {state : σ} (initial : inv state) : Leads next ok goal state := by
  induction bound : size state using Nat.strongRecOn generalizing state with
  | ind bound ih =>
      by_cases reached : goal state
      · exact .now reached
      · apply (round state initial reached).bind
        intro later ⟨stands, smaller⟩
        exact ih (size later) (by omega) stands rfl

/-- What holds at the start and is kept by every permitted action holds of
every state reached. -/
theorem Reaches.invariant {next : σ → α → σ} {ok : σ → α → Prop} {start state : σ}
    {P : σ → Prop} (reached : Reaches next ok start state) (initial : P start)
    (kept : ∀ state action, P state → ok state action → P (next state action)) :
    P state := by
  induction reached with
  | start => exact initial
  | act before met ih => exact kept _ _ ih met

/-- Where every permitted action is explained by actions of another machine, so is
every run. -/
theorem Reaches.simulates {τ : Type w} {β : Type x} {next : σ → α → σ} {ok : σ → α → Prop}
    {next' : τ → β → τ} {ok' : τ → β → Prop} {start state : σ} (inv : σ → Prop) (abs : σ → τ)
    (reached : Reaches next ok start state) (initial : inv start)
    (step : ∀ state action, inv state → ok state action →
      inv (next state action) ∧ Reaches next' ok' (abs state) (abs (next state action))) :
    inv state ∧ Reaches next' ok' (abs start) (abs state) := by
  induction reached with
  | start => exact ⟨initial, .start⟩
  | act before met ih =>
      obtain ⟨stands, after⟩ := step _ _ ih.1 met
      exact ⟨stands, ih.2.trans after⟩

/-- Every action of a list meets `ok` at the state it is taken in. -/
def AllMet (next : σ → α → σ) (ok : σ → α → Prop) : σ → List α → Prop
  | _, [] => True
  | state, action :: rest => ok state action ∧ AllMet next ok (next state action) rest

instance AllMet.decidable (next : σ → α → σ) (ok : σ → α → Prop)
    [∀ state action, Decidable (ok state action)] (state : σ) (actions : List α) :
    Decidable (AllMet next ok state actions) :=
  match actions with
  | [] => .isTrue trivial
  | action :: rest =>
      have := AllMet.decidable next ok (next state action) rest
      inferInstanceAs (Decidable (ok state action ∧ AllMet next ok (next state action) rest))

theorem AllMet.mono {next : σ → α → σ} {weak ok : σ → α → Prop} {state : σ} {actions : List α}
    (met : AllMet next weak state actions)
    (stronger : ∀ action ∈ actions, ∀ state, weak state action → ok state action) :
    AllMet next ok state actions := by
  induction actions generalizing state with
  | nil => trivial
  | cons action rest ih =>
      exact ⟨stronger action List.mem_cons_self state met.1,
        ih met.2 fun later member => stronger later (List.mem_cons_of_mem _ member)⟩

theorem AllMet.take {next : σ → α → σ} {ok : σ → α → Prop} {state : σ} {actions : List α}
    (met : AllMet next ok state actions) (count : Nat) :
    AllMet next ok state (actions.take count) := by
  induction actions generalizing state count with
  | nil =>
      rw [List.take_nil]
      trivial
  | cons action rest ih =>
      cases count with
      | zero => trivial
      | succ count => exact ⟨met.1, ih met.2 count⟩

/-- A condition together with its decision, so that a condition given action by action
is decided where it is stated. -/
structure Guard where
  holds : Prop
  decision : Decidable holds

namespace Guard

def of (condition : Prop) [decision : Decidable condition] : Guard := ⟨condition, decision⟩

/-- The condition on an action that may always be taken. -/
def free : Guard := of True

instance (guard : Guard) : Decidable guard.holds := guard.decision

end Guard

/-- A schedule of permitted actions reaches the state it computes. -/
theorem Reaches.schedule {next : σ → α → σ} {ok : σ → α → Prop} {start state : σ}
    (reached : Reaches next ok start state) (actions : List α)
    (met : AllMet next ok state actions) :
    Reaches next ok start (actions.foldl next state) := by
  induction actions generalizing state with
  | nil => exact reached
  | cons action rest ih => exact ih (.act reached met.1) met.2

/-- Where each permitted action is exactly one that keeps `P`, the schedules of
permitted actions are exactly those along which `P` always holds. -/
theorem AllMet.iff_always {next : σ → α → σ} {weak ok : σ → α → Prop} {inv P : σ → Prop}
    (kept : ∀ state action, inv state → weak state action → ok state action →
      inv (next state action))
    (exact_ : ∀ state action, inv state → P state → weak state action →
      (ok state action ↔ P (next state action)))
    {state : σ} (initial : inv state) (holds : P state) {actions : List α}
    (possible : AllMet next weak state actions) :
    AllMet next ok state actions ↔ ∀ count, P ((actions.take count).foldl next state) := by
  induction actions generalizing state with
  | nil => simp [AllMet, holds]
  | cons action rest ih =>
      constructor
      · intro met count
        have after := kept state action initial possible.1 met.1
        have stays := (exact_ state action initial holds possible.1).mp met.1
        cases count with
        | zero => exact holds
        | succ count => exact (ih after stays possible.2).mp met.2 count
      · intro always
        have stays : P (next state action) := always 1
        have met := (exact_ state action initial holds possible.1).mpr stays
        have after := kept state action initial possible.1 met
        refine ⟨met, ?_⟩
        apply (ih after stays possible.2).mpr
        intro count
        exact always (count + 1)

end Transition
