import CurvecprAsio.ConversationInvariant
import CurvecprAsio.CloseOnce

set_option autoImplicit false

/- A party whose session runs on an io_service: every step of the io_service, taken
apart into the party's own steps. -/
namespace CurvecprAsio

open Strand Transition SearchTree

namespace Session

/-- Bring the strand and the calls of `close_handler_` up to date. -/
def sync (s : Session) : PartyAction := .strand s.strand s.closeHandlerCalls

/-- `session::handle_process_send_queue` without its timer. -/
def processes (s : Session) (activity : List Callback) : List PartyAction :=
  activity.map .callback ++ if (s.callbacks activity).final then [.doClose] else []

end Session

/-- The call operators of `read_op`, `write_op` and `close_op`. -/
def IoOp.pieces (operation : IoOp) (s : Session) (activity : List Callback) : List PartyAction :=
  match operation.op with
  | .read buffer => [.read buffer]
  | .write buffer => [.write buffer]
  | .close =>
      if s.running && !s.pendingClose then .closing :: s.closing.processes activity else []

namespace Service

/-- What a step does besides the strand. -/
def pieces (service : Service) (action : ServiceAction) : List PartyAction :=
  match service.called action with
  | some (operation, activity) => operation.pieces (service.found action) activity
  | none =>
      match action with
      | .start => [.runs]
      | .startInside activity =>
          .runs :: { service.session with running := true }.processes activity
      | .receive activity => activity.map .callback
      | .run index activity =>
          match service.session.strand.ready[index]? with
          | some (.processSendQueue, .success) => (service.found action).processes activity
          | some (.doClose, .success) => [.doClose]
          | _ => []
      | _ => []

/-- A step as the party takes it; calling a completion handler is none. -/
def steps (service : Service) (action : ServiceAction) : List PartyAction :=
  match action with
  | .runPosted _ => []
  | _ => (service.found action).sync :: service.pieces action ++
      if service.DoesClose action then [] else [(service.next action).session.sync]

end Service

/-- The bytes that a step begins to write. -/
def ServiceAction.offers : ServiceAction → List UInt8
  | .beginOutside _ (.write buffer) => buffer.bytes
  | .beginInside _ (.write buffer) _ => buffer.bytes
  | _ => []

/-- The operation that a step begins. -/
def ServiceAction.begins : ServiceAction → Option Operation
  | .beginOutside _ op => some op
  | .beginInside _ op _ => some op
  | _ => none

namespace Party

theorem session_foldl_callbacks (party : Party) (activity : List Callback) :
    ((activity.map PartyAction.callback).foldl Party.next party).session =
      party.session.callbacks activity := by
  induction activity generalizing party with
  | nil => rfl
  | cons callback rest ih =>
      simp only [List.map_cons, List.foldl_cons, ih, Session.callbacks, Party.next,
        session_callback]

theorem session_foldl_processes (party : Party) (activity : List Callback) :
    ((party.session.processes activity).foldl Party.next party).session =
      if (party.session.callbacks activity).final then
        (party.session.callbacks activity).doClose .success
      else party.session.callbacks activity := by
  have processed := party.session_foldl_callbacks activity
  simp only [Session.processes, List.foldl_append]
  split
  · simp only [List.foldl_cons, List.foldl_nil, Party.next, Party.onto, processed]
  · exact processed

end Party

namespace Session

/-- `later` differs from `s` at most in what `sync` brings up to date. -/
def Alike (s later : Session) : Prop :=
  { s with strand := later.strand, closeHandlerCalls := later.closeHandlerCalls } = later

theorem Alike.trans {first second third : Session} (before : first.Alike second)
    (after : second.Alike third) : first.Alike third := by
  unfold Alike at before after ⊢
  rw [← before] at after
  exact after

theorem alike_asyncPendingWait (s : Session) (what : Want) (operation : IoOp) :
    s.Alike (s.asyncPendingWait what operation) := by
  cases what <;> rfl

end Session

/-- A party that processes the send queue leaves what the session's handler leaves. -/
theorem Party.session_processes (party : Party) (activity : List Callback) :
    let left := ((party.session.processes activity).foldl Party.next party).session
    let handled := party.session.handleProcessSendQueue .success activity
    ((party.session.callbacks activity).final = true → left = handled) ∧ left.Alike handled := by
  intro left handled
  have processed := party.session_foldl_processes activity
  rcases party.session.handleProcessSendQueue_cases activity with
    ⟨final, result⟩ | ⟨final, result⟩
  · simp only [left, handled, processed, final, ↓reduceIte, result]
    exact ⟨fun _ => trivial, rfl⟩
  · simp only [left, handled, processed, final, Bool.false_eq_true, ↓reduceIte, result,
      false_implies, true_and]
    exact rfl

/-- The operation is a close that runs `do_close`. -/
def IoOp.closes (operation : IoOp) (s : Session) (activity : List Callback) : Bool :=
  operation.op = .close && s.running && !s.pendingClose &&
    (s.closing.callbacks activity).final

/-- An operation that is called leaves what its pieces leave, but for the strand. -/
theorem IoOp.session_pieces (operation : IoOp) (activity : List Callback) (party : Party) :
    let result := operation.perform party.session activity
    let left := ((operation.pieces party.session activity).foldl Party.next party).session
    (operation.closes party.session activity = true →
      left = result.session ∧ result.want = .nothing) ∧ left.Alike result.session := by
  intro result left
  cases isOp : operation.op with
  | read buffer =>
      simp only [left, result, IoOp.pieces, IoOp.perform, IoOp.closes, isOp]
      exact ⟨fun closes => by simp at closes, rfl⟩
  | write buffer =>
      simp only [left, result, IoOp.pieces, IoOp.perform, IoOp.closes, isOp]
      exact ⟨fun closes => by simp at closes, rfl⟩
  | close =>
      have processed := (party.next .closing).session_foldl_processes activity
      rw [show (party.next .closing).session = party.session.closing from rfl] at processed
      simp only [left, result, IoOp.pieces, IoOp.perform, IoOp.closes, isOp]
      rcases party.session.close_cases activity with
        ⟨stopped, closed⟩ | ⟨running, pending, closed⟩ | ⟨running, pending, final, closed⟩ |
          ⟨running, pending, final, closed⟩
      · simp only [closed, stopped, Bool.false_and, Bool.and_false, Bool.false_eq_true,
          ↓reduceIte, List.foldl_nil, false_implies, true_and, Session.Alike]
      · simp only [closed, running, pending, Bool.not_true, Bool.and_false, Bool.false_and,
          Bool.false_eq_true, ↓reduceIte, List.foldl_nil, false_implies, true_and]
        exact rfl
      · simp only [closed, running, pending, Bool.not_false, Bool.and_self, ↓reduceIte,
          List.foldl_cons, processed, final]
        exact ⟨fun _ => ⟨trivial, trivial⟩, rfl⟩
      · simp only [closed, running, pending, Bool.not_false, Bool.and_self, ↓reduceIte,
          List.foldl_cons, processed, final, Bool.and_false, Bool.false_eq_true, false_implies,
          true_and]
        exact rfl

namespace Service

variable {service : Service}

theorem doesClose_called {action : ServiceAction} {operation : IoOp} {activity : List Callback}
    (called : service.called action = some (operation, activity)) :
    service.DoesClose action = operation.closes (service.found action) activity := by
  have finishes : service.finishes action = false := by
    cases action with
    | beginInside handler op activity => rfl
    | run index activity =>
        simp only [Service.called] at called
        simp only [Service.finishes]
        split at called
        · rename_i operation completion located
          rw [located]
        · cases called
    | _ => cases called
  simp only [DoesClose, finishes, called, IoOp.closes, Bool.false_or]

/-- What a handler of the strand leaves in the session, when it calls no operation. -/
theorem session_pieces_run {index : Nat} {activity : List Callback}
    (called : service.called (.run index activity) = none) {party : Party}
    (same : party.session = service.found (.run index activity)) :
    let left := ((service.pieces (.run index activity)).foldl Party.next party).session
    (service.finishes (.run index activity) = true → left = (service.run index activity).session) ∧
      left.Alike (service.run index activity).session := by
  intro left
  simp only [left, pieces, called, finishes, run]
  cases located : service.session.strand.ready[index]? with
  | none =>
      simp only [Bool.false_eq_true, false_implies, true_and, List.foldl_nil, same]
      exact rfl
  | some due =>
      obtain ⟨handler, completion⟩ := due
      cases handler with
      | processSendQueue =>
          cases completion with
          | success =>
              have processed := party.session_processes activity
              rw [same] at processed
              exact processed
          | aborted =>
              simp only [Bool.false_eq_true, false_implies, true_and, List.foldl_nil, same]
              exact rfl
      | doClose =>
          cases completion with
          | success =>
              simp only [List.foldl_cons, List.foldl_nil, Party.next, Party.onto, same]
              exact ⟨fun _ => rfl, rfl⟩
          | aborted =>
              simp only [Bool.false_eq_true, false_implies, true_and, List.foldl_nil, same]
              exact rfl
      | ioOp operation =>
          have finished : operation.finished = true := by
            simpa [Service.called, located] using called
          simp only [Bool.false_eq_true, false_implies, true_and, List.foldl_nil, same,
            dispatched, call, finished, Bool.not_true, ↓reduceIte]
          exact rfl

/-- What a step leaves in the session, when it calls no operation. -/
theorem session_pieces_routine {action : ServiceAction} (called : service.called action = none)
    {party : Party} (same : party.session = service.found action) :
    let left := ((service.pieces action).foldl Party.next party).session
    (service.finishes action = true → left = (service.next action).session) ∧
      left.Alike (service.next action).session := by
  intro left
  cases action with
  | start =>
      simp only [left, pieces, called, finishes, Bool.false_eq_true, false_implies, true_and,
        List.foldl_cons, List.foldl_nil, Party.next, Party.onto, same, found]
      exact rfl
  | startInside activity =>
      have started := (party.next .runs).session_processes activity
      rw [show (party.next .runs).session = { service.session with running := true } by
        simp only [Party.next, Party.onto, same, found]] at started
      simp only [left, pieces, called, List.foldl_cons]
      exact started
  | receive activity =>
      have received := party.session_foldl_callbacks activity
      simp only [left, pieces, called, finishes, received, same, Bool.false_eq_true,
        false_implies, true_and]
      exact rfl
  | beginOutside handler op =>
      simp only [left, pieces, called, finishes, Bool.false_eq_true, false_implies, true_and,
        List.foldl_nil, same]
      exact rfl
  | beginInside handler op activity => cases called
  | expire timer =>
      simp only [left, pieces, called, finishes, Bool.false_eq_true, false_implies, true_and,
        List.foldl_nil, same]
      exact rfl
  | run index activity => exact session_pieces_run called same
  | runPosted index =>
      simp only [left, pieces, called, finishes, Bool.false_eq_true, false_implies, true_and,
        List.foldl_nil, same, next, runPosted, callOutside]
      split
      · split <;> exact rfl
      · exact rfl

theorem session_found (action : ServiceAction) {party : Party}
    (same : party.session = service.session) :
    (party.next (service.found action).sync).session = service.found action := by
  cases action with
  | run index activity =>
      simp only [Party.next, Party.onto, Session.sync, same, Service.found]
      rfl
  | _ => simp only [Party.next, Party.onto, Session.sync, same, Service.found]

theorem session_steps {action : ServiceAction} (possible : service.Possible action)
    (posted : ∀ operation ∈ service.posted, operation.finished = true) {party : Party}
    (same : party.session = service.session) :
    ((service.steps action).foldl Party.next party).session = (service.next action).session := by
  have settles : ∀ left : Party,
      (service.DoesClose action = true → left.session = (service.next action).session) →
      left.session.Alike (service.next action).session →
      ((if service.DoesClose action then [] else
        [(service.next action).session.sync]).foldl Party.next left).session =
          (service.next action).session := by
    intro left closes alike
    cases does : service.DoesClose action with
    | true => exact closes does
    | false => exact alike
  have found := session_found action same
  have steps : (((service.found action).sync :: service.pieces action ++
      if service.DoesClose action then [] else [(service.next action).session.sync]).foldl
        Party.next party).session = (service.next action).session := by
    rw [List.foldl_append, List.foldl_cons]
    cases called : service.called action with
    | none =>
        obtain ⟨closes, alike⟩ := session_pieces_routine called found
        apply settles _ _ alike
        intro does
        simp only [DoesClose, called, Bool.or_false] at does
        exact closes does
    | some call =>
        obtain ⟨operation, activity⟩ := call
        obtain ⟨closes, alike⟩ :=
          operation.session_pieces activity (party.next (service.found action).sync)
        rw [found] at closes alike
        have result : (service.next action).session =
            (operation.perform (service.found action) activity).session.asyncPendingWait
              (operation.perform (service.found action) activity).want
              (operation.perform (service.found action) activity).operation := by
          rcases next_cases possible with ⟨other, active, same, result⟩ | ⟨none_, _⟩ | ⟨none_, _⟩
          · rw [called] at same
            cases same
            exact result
          · rw [called] at none_
            cases none_
          · rw [called] at none_
            cases none_
        have waits := Session.alike_asyncPendingWait
          (operation.perform (service.found action) activity).session
          (operation.perform (service.found action) activity).want
          (operation.perform (service.found action) activity).operation
        rw [← result] at waits
        simp only [pieces, called]
        apply settles _ _ (alike.trans waits)
        intro does
        rw [doesClose_called called] at does
        obtain ⟨left, nothing⟩ := closes does
        rw [left, result, nothing]
        rfl
  cases action with
  | runPosted index =>
      simp only [Service.steps, List.foldl_nil, same, next, runPosted, callOutside]
      split
      · rename_i operation located
        have finished := posted operation (List.mem_of_getElem? located)
        simp only [finished, Bool.not_true, Bool.false_eq_true, ↓reduceIte, callHandler]
      · rfl
  | _ => exact steps

end Service

namespace Service

variable {service : Service}

/-- An operation that is called goes back to waiting, or is done: then it is posted where
it has just begun, and else its completion handler is called. -/
theorem next_called {action : ServiceAction} {operation : IoOp} {activity : List Callback}
    (called : service.called action = some (operation, activity)) :
    let result := operation.perform (service.found action) activity
    let finished := { result.operation with finished := true }
    (result.want ≠ .nothing ∧
        (service.next action).session.operations.Perm
          (result.operation :: (service.found action).operations) ∧
        (service.next action).posted = service.posted ∧
        (service.next action).completed = service.completed) ∨
      (result.want = .nothing ∧
        (service.next action).session.operations.Perm (service.found action).operations ∧
        ((∃ index, action = .run index activity) ∧ (service.next action).posted = service.posted ∧
            (service.next action).completed = service.completed ++ [finished] ∨
          (∃ handler, action = .beginInside handler operation.op activity) ∧
            (service.next action).posted = service.posted ++ [finished] ∧
            (service.next action).completed = service.completed)) := by
  intro result finished
  have performed := operation.operations_perform (service.found action) activity
  obtain ⟨unfinished, source⟩ := operations_found called
  have after : ∃ (before : Service) (start : Bool), before.session = service.found action ∧
      before.posted = service.posted ∧ before.completed = service.completed ∧
      service.next action = before.call operation start activity ∧
      (start = false ∧ (∃ index, action = .run index activity) ∨
        start = true ∧ ∃ handler, action = .beginInside handler operation.op activity) := by
    rcases source with ⟨_, index, rfl⟩ | ⟨_, handler, rfl, isNew⟩
    · refine ⟨service.take index, false, rfl, rfl, rfl, ?_, Or.inl ⟨rfl, index, rfl⟩⟩
      simp only [Service.called] at called
      split at called
      · rename_i operation' completion located
        split at called
        · cases called
        · simp only [Option.some.injEq, Prod.mk.injEq] at called
          obtain ⟨rfl, _⟩ := called
          simp only [next, run, located, dispatched]
      · cases called
    · refine ⟨service.noted handler operation.op, true, rfl, rfl, rfl, ?_,
        Or.inr ⟨rfl, handler, rfl⟩⟩
      rw [next, ← isNew]
  obtain ⟨before, start, session, posted, completed, stepped, kind⟩ := after
  rw [stepped]
  simp only [call, unfinished, Bool.not_false, ↓reduceIte, session]
  by_cases nothing : result.want = .nothing
  · right
    refine ⟨nothing, ?_⟩
    simp only [show (operation.perform (service.found action) activity).want = .nothing from
      nothing, ne_eq, not_true_eq_false, ↓reduceIte]
    rcases kind with ⟨rfl, run⟩ | ⟨rfl, begun⟩
    · refine ⟨performed, Or.inl ⟨run, posted, ?_⟩⟩
      simp only [callHandler, completed]
      rfl
    · refine ⟨performed, Or.inr ⟨begun, ?_, completed⟩⟩
      simp only [posted, ↓reduceIte]
      rfl
  · left
    refine ⟨nothing, ?_⟩
    simp only [show ¬ (operation.perform (service.found action) activity).want = .nothing from
      nothing, ne_eq, not_false_eq_true, ↓reduceIte]
    exact ⟨(Session.operations_asyncPendingWait _ _ nothing).trans (performed.cons _), posted,
      completed⟩

/-- A step that calls no operation begins one off the strand, calls the completion handler
of one that was posted, or leaves the operations as they are. -/
theorem next_uncalled {action : ServiceAction} (called : service.called action = none)
    (queued : ∀ operation ∈ service.session.operations, operation.finished = false)
    (posted : ∀ operation ∈ service.posted, operation.finished = true) :
    (∃ handler op, action = .beginOutside handler op ∧
        (service.next action).session.operations.Perm
          (service.opened handler op :: service.session.operations) ∧
        (service.next action).posted = service.posted ∧
        (service.next action).completed = service.completed) ∨
      (∃ index operation, action = .runPosted index ∧ service.posted[index]? = some operation ∧
        service.next action = { service with
          posted := service.posted.eraseIdx index
          completed := service.completed ++ [operation] }) ∨
      (action.offers = [] ∧
        (service.next action).session.operations.Perm service.session.operations ∧
        (service.next action).posted = service.posted ∧
        (service.next action).completed = service.completed) := by
  cases action with
  | beginOutside handler op =>
      exact Or.inl ⟨handler, op, rfl, (Queue.handlers_dispatch service.session.strand
        (.ioOp (service.opened handler op))).filterMap Handler.asIoOp, rfl, rfl⟩
  | beginInside handler op activity => cases called
  | runPosted index =>
      right
      simp only [next, runPosted]
      cases located : service.posted[index]? with
      | none => exact Or.inr ⟨rfl, List.Perm.refl _, rfl, rfl⟩
      | some operation =>
          have finished := posted operation (List.mem_of_getElem? located)
          left
          refine ⟨index, operation, rfl, located, ?_⟩
          simp only [callOutside, finished, Bool.not_true, Bool.false_eq_true, ↓reduceIte,
            callHandler]
  | start => exact Or.inr (Or.inr ⟨rfl, Session.operations_start _, rfl, rfl⟩)
  | startInside activity =>
      exact Or.inr (Or.inr ⟨rfl, Session.operations_handleProcessSendQueue _ _ _, rfl, rfl⟩)
  | receive activity =>
      exact Or.inr (Or.inr ⟨rfl, Session.operations_callbacks _ _, rfl, rfl⟩)
  | expire timer =>
      exact Or.inr (Or.inr ⟨rfl, (Queue.handlers_finish service.session.strand timer
        .success).filterMap Handler.asIoOp, rfl, rfl⟩)
  | run index activity =>
      right
      right
      simp only [next, run]
      cases located : service.session.strand.ready[index]? with
      | none => exact ⟨rfl, List.Perm.refl _, rfl, rfl⟩
      | some due =>
          obtain ⟨handler, completion⟩ := due
          have taken := (service.session.strand.handlers_take located).filterMap Handler.asIoOp
          cases handler with
          | processSendQueue =>
              exact ⟨rfl, (Session.operations_handleProcessSendQueue _ _ _).trans taken.symm, rfl,
                rfl⟩
          | doClose =>
              exact ⟨rfl, (Session.operations_doClose _ _).trans taken.symm, rfl, rfl⟩
          | ioOp operation =>
              have finished : operation.finished = true := by
                simpa [Service.called, located] using called
              have held : operation ∈ service.session.operations :=
                taken.mem_iff.mpr List.mem_cons_self
              rw [queued operation held] at finished
              cases finished

end Service

/-- A step that calls a read or a write, taken apart. -/
theorem Service.steps_transfer {service : Service} {action : ServiceAction} {operation : IoOp}
    {activity : List Callback} (called : service.called action = some (operation, activity))
    (transfers : operation.op ≠ .close) :
    service.steps action = (service.found action).sync ::
      operation.pieces (service.found action) activity ++ [(service.next action).session.sync] := by
  have open_ : service.DoesClose action = false := by
    simp only [doesClose_called called, IoOp.closes, transfers, decide_false, Bool.false_and]
  have pieces : service.pieces action = operation.pieces (service.found action) activity := by
    simp only [Service.pieces, called]
  cases action with
  | runPosted index => cases called
  | _ => simp only [steps, pieces, open_, Bool.false_eq_true, ↓reduceIte]

/-- The steps that read or write for a user. -/
def PartyAction.transfers : PartyAction → Bool
  | .read _ => true
  | .write _ => true
  | _ => false

namespace Session

theorem transfers_processes (s : Session) (activity : List Callback) :
    ∀ action ∈ s.processes activity, action.transfers = false := by
  intro action member
  rcases List.mem_append.mp member with called | closed
  · obtain ⟨callback, _, rfl⟩ := List.mem_map.mp called
    rfl
  · split at closed
    · rw [List.mem_singleton.mp closed]
      rfl
    · cases closed

end Session

/-- A close, and whatever the strand runs besides the operations, transfers nothing. -/
theorem Service.transfers_pieces {service : Service} {action : ServiceAction}
    (other : ∀ operation activity, service.called action = some (operation, activity) →
      operation.op = .close) :
    ∀ piece ∈ service.pieces action, piece.transfers = false := by
  intro piece member
  simp only [Service.pieces] at member
  split at member
  · rename_i operation activity called
    simp only [IoOp.pieces, other operation activity called] at member
    split at member
    · rcases List.mem_cons.mp member with rfl | inside
      · rfl
      · exact Session.transfers_processes _ _ piece inside
    · cases member
  · split at member
    · rw [List.mem_singleton.mp member]
      rfl
    · rcases List.mem_cons.mp member with rfl | inside
      · rfl
      · exact Session.transfers_processes _ _ piece inside
    · obtain ⟨callback, _, rfl⟩ := List.mem_map.mp member
      rfl
    · split at member
      · exact Session.transfers_processes _ _ piece member
      · rw [List.mem_singleton.mp member]
        rfl
      · cases member
    · cases member

/-- So do all the steps of a party that a step of the io_service comes to. -/
theorem Service.transfers_steps {service : Service} {action : ServiceAction}
    (other : ∀ operation activity, service.called action = some (operation, activity) →
      operation.op = .close) :
    ∀ piece ∈ service.steps action, piece.transfers = false := by
  intro piece member
  cases action with
  | runPosted index => cases member
  | _ =>
      rcases List.mem_append.mp member with before | after
      · rcases List.mem_cons.mp before with rfl | inside
        · rfl
        · exact transfers_pieces other piece inside
      · split at after
        · cases after
        · rw [List.mem_singleton.mp after]
          rfl

theorem PartyAction.retries_of_transfers {action : PartyAction} {party : Party}
    (other : action.transfers = false) : party.Retries action := by
  cases action with
  | read buffer => cases other
  | _ => trivial

namespace Party

/-- What only reads and writes change. -/
def transferred (party : Party) : List UInt8 × List UInt8 × Option Buffer × Bool :=
  (party.accepted, party.delivered, party.outstanding, party.heard)

theorem transferred_next (party : Party) {action : PartyAction}
    (other : action.transfers = false) : (party.next action).transferred = party.transferred := by
  cases action with
  | callback callback => cases callback <;> rfl
  | read buffer => cases other
  | write buffer => cases other
  | _ => rfl

theorem transferred_foldl (party : Party) {actions : List PartyAction}
    (other : ∀ action ∈ actions, action.transfers = false) :
    (actions.foldl Party.next party).transferred = party.transferred := by
  induction actions generalizing party with
  | nil => rfl
  | cons action rest ih =>
      rw [List.foldl_cons, ih _ fun later member => other later (List.mem_cons_of_mem _ member)]
      exact party.transferred_next (other action List.mem_cons_self)

end Party

/-- A party on its io_service, and the buffers its user has written, in order. -/
structure Host where
  service : Service
  party : Party
  offered : List UInt8 := []
  deriving DecidableEq, Repr

namespace Host

def next (host : Host) (action : ServiceAction) : Host where
  service := host.service.next action
  party := (host.service.steps action).foldl Party.next host.party
  offered := host.offered ++ action.offers

@[simp] theorem service_next (host : Host) (action : ServiceAction) :
    (host.next action).service = host.service.next action := rfl

/-- A party takes part until its `do_close` has run, as far as the network goes. -/
def Takes (peerWire : List Block) (party : Party) (action : PartyAction) : Prop :=
  party.finished = false ∧ party.Serves peerWire action

instance (peerWire : List Block) (party : Party) (action : PartyAction) :
    Decidable (Takes peerWire party action) :=
  inferInstanceAs (Decidable (party.finished = false ∧ party.Serves peerWire action))

/-- The user has at most one read and one write outstanding. -/
def Lone (host : Host) (action : ServiceAction) : Prop :=
  ∀ op ∈ action.begins, op = .close ∨
    ∀ operation ∈ host.service.outstanding, operation.op.want ≠ op.want

instance (host : Host) (action : ServiceAction) : Decidable (host.Lone action) :=
  inferInstanceAs (Decidable (∀ op ∈ action.begins, op = .close ∨
    ∀ operation ∈ host.service.outstanding, operation.op.want ≠ op.want))

/-- What the network, the timers and libcurvecpr keep to. -/
structure Environment (peerWire : List Block) (host : Host) (action : ServiceAction) :
    Prop where
  possible : host.service.Possible action
  takes : AllMet Party.next (Takes peerWire) host.party (host.service.steps action)

instance (peerWire : List Block) (host : Host) (action : ServiceAction) :
    Decidable (host.Environment peerWire action) :=
  decidable_of_iff (host.service.Possible action ∧
      AllMet Party.next (Takes peerWire) host.party (host.service.steps action))
    ⟨fun ⟨possible, takes⟩ => ⟨possible, takes⟩, fun kept => ⟨kept.possible, kept.takes⟩⟩

structure Allowed (peerWire : List Block) (host : Host) (action : ServiceAction) : Prop
    extends Environment peerWire host action where
  lone : host.Lone action

instance (peerWire : List Block) (host : Host) (action : ServiceAction) :
    Decidable (host.Allowed peerWire action) :=
  decidable_of_iff (host.Environment peerWire action ∧ host.Lone action)
    ⟨fun ⟨environment, lone⟩ => ⟨environment, lone⟩,
      fun allowed => ⟨allowed.toEnvironment, allowed.lone⟩⟩

end Host

end CurvecprAsio
