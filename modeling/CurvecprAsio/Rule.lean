import CurvecprAsio.HostInvariant

set_option autoImplicit false

/- Invariants of a session's data: what every piece of a step keeps, every run of its
io_service keeps. -/
namespace CurvecprAsio

open Strand Transition

/-- What libcurvecpr does in a step. -/
def ServiceAction.activity : ServiceAction → List Callback
  | .startInside activity => activity
  | .receive activity => activity
  | .beginInside _ _ activity => activity
  | .run _ activity => activity
  | _ => []

theorem Session.callback_of_processes {s : Session} {activity : List Callback}
    {callback : Callback} (member : PartyAction.callback callback ∈ s.processes activity) :
    callback ∈ activity := by
  rcases List.mem_append.mp member with called | closed
  · obtain ⟨other, inside, same⟩ := List.mem_map.mp called
    cases same
    exact inside
  · split at closed
    · cases List.mem_singleton.mp closed
    · cases closed

theorem Service.activity_called {service : Service} {action : ServiceAction} {operation : IoOp}
    {activity : List Callback} (called : service.called action = some (operation, activity)) :
    activity = action.activity := by
  cases action with
  | beginInside handler op other =>
      cases called
      rfl
  | run index other =>
      simp only [Service.called] at called
      split at called
      · split at called
        · cases called
        · cases called
          rfl
      · cases called
  | _ => cases called

/-- A step makes no callback but those of its activity. -/
theorem Service.callback_of_steps {service : Service} {action : ServiceAction}
    {callback : Callback} (member : PartyAction.callback callback ∈ service.steps action) :
    callback ∈ action.activity := by
  have pieces : PartyAction.callback callback ∈ service.pieces action →
      callback ∈ action.activity := by
    intro inside
    simp only [Service.pieces] at inside
    split at inside
    · rename_i operation activity called
      rw [← Service.activity_called called]
      simp only [IoOp.pieces] at inside
      split at inside
      · cases List.mem_singleton.mp inside
      · cases List.mem_singleton.mp inside
      · split at inside
        · rcases List.mem_cons.mp inside with other | processed
          · cases other
          · exact Session.callback_of_processes processed
        · cases inside
    · split at inside
      · cases List.mem_singleton.mp inside
      · rcases List.mem_cons.mp inside with other | processed
        · cases other
        · exact Session.callback_of_processes processed
      · obtain ⟨other, received, same⟩ := List.mem_map.mp inside
        cases same
        exact received
      · split at inside
        · exact Session.callback_of_processes inside
        · cases List.mem_singleton.mp inside
        · cases inside
      · cases inside
  cases action with
  | runPosted index => cases member
  | _ =>
      rcases List.mem_append.mp member with before | after
      · rcases List.mem_cons.mp before with other | inside
        · cases other
        · exact pieces inside
      · split at after
        · cases after
        · cases List.mem_singleton.mp after

namespace Session

/-- What is said of a session's data, and kept by everything that changes it as long as
libcurvecpr makes callbacks that are `ok`. -/
structure DataInvariant (ok : Callback → Prop) (P : Session → Prop) : Prop where
  strand : ∀ s queue calls, P s → P { s with strand := queue, closeHandlerCalls := calls }
  runs : ∀ s, P s → P { s with running := true }
  callback : ∀ s callback, ok callback → P s → P (s.callback callback)
  write : ∀ s buffer, P s → P (s.write buffer).session
  read : ∀ s buffer, P s → P (s.read buffer).session
  closing : ∀ s, P s → P s.closing
  doClose : ∀ s, P s → P (s.doClose .success)

namespace DataInvariant

variable {ok : Callback → Prop} {P : Session → Prop}

theorem party (rule : DataInvariant ok P) {party : Party} (holds : P party.session)
    {action : PartyAction} (met : ∀ callback, action = .callback callback → ok callback) :
    P (party.next action).session := by
  cases action with
  | runs => exact rule.runs _ holds
  | strand queue calls => exact rule.strand _ queue calls holds
  | callback callback =>
      simp only [Party.next, Party.session_callback]
      exact rule.callback _ callback (met callback rfl) holds
  | write buffer => exact rule.write _ buffer holds
  | read buffer => exact rule.read _ buffer holds
  | closing => exact rule.closing _ holds
  | doClose => exact rule.doClose _ holds

theorem parties (rule : DataInvariant ok P) {party : Party} (holds : P party.session)
    {actions : List PartyAction}
    (met : ∀ callback, PartyAction.callback callback ∈ actions → ok callback) :
    P (actions.foldl Party.next party).session := by
  induction actions generalizing party with
  | nil => exact holds
  | cons action rest ih =>
      apply ih
      · exact rule.party holds fun callback same => met callback (same ▸ List.mem_cons_self)
      · exact fun callback member => met callback (List.mem_cons_of_mem _ member)

end DataInvariant

end Session

/-- Operations on the strand are unfinished, those posted finished, and `P` is kept. -/
structure Service.Holds (P : Session → Prop) (service : Service) : Prop where
  data : P service.session
  queued : ∀ operation ∈ service.session.operations, operation.finished = false
  posted : ∀ operation ∈ service.posted, operation.finished = true

/-- Every callback of the action is `ok`. -/
def ServiceAction.Heeds (ok : Callback → Prop) (action : ServiceAction) : Prop :=
  ∀ callback ∈ action.activity, ok callback

instance (ok : Callback → Prop) [DecidablePred ok] (action : ServiceAction) :
    Decidable (action.Heeds ok) :=
  inferInstanceAs (Decidable (∀ callback ∈ action.activity, ok callback))

namespace Session.DataInvariant

variable {ok : Callback → Prop} {P : Session → Prop}

theorem next (rule : DataInvariant ok P) {service : Service} (holds : service.Holds P)
    {action : ServiceAction} (possible : service.Possible action) (heeds : action.Heeds ok) :
    (service.next action).Holds P := by
  obtain ⟨queued, posted⟩ := Service.finished_next action holds.queued holds.posted
  refine ⟨?_, queued, posted⟩
  have steps : ∀ party : Party, party.session = service.session →
      ((service.steps action).foldl Party.next party).session = (service.next action).session :=
    fun _ same => Service.session_steps possible holds.posted same
  rw [← steps { session := service.session } rfl]
  apply rule.parties holds.data
  exact fun callback member => heeds callback (Service.callback_of_steps member)

/-- It holds in every state that an io_service reaches with a session that has no
operations yet. -/
theorem reached (rule : DataInvariant ok P) {session : Session} (initial : P session)
    (idle : session.operations = []) {later : Service}
    (reached : Reaches Service.next
      (fun service action => service.Possible action ∧ action.Heeds ok)
      { session := session } later) : P later.session := by
  have holds : later.Holds P := by
    apply reached.invariant
    · refine ⟨initial, ?_, ?_⟩
      · intro operation member
        rw [idle] at member
        cases member
      · intro operation member
        cases member
    · exact fun service action holds met => rule.next holds met.1 met.2
  exact holds.data

end Session.DataInvariant

end CurvecprAsio
