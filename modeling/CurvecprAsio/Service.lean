import CurvecprAsio.Close
import CurvecprAsio.Lib.Transition

set_option autoImplicit false

/- A session and the io_service it runs on: the operations begun on it, the
handlers of its strand in any order, and the completion handlers called. -/
namespace CurvecprAsio

open Strand Transition

/-- The `session::want` an operation returns while it is not complete. -/
def Operation.want : Operation → Want
  | .read _ => .read
  | .write _ => .write
  | .close => .close

/-- A user's completion handler and the kind of operation it was given to. -/
def IoOp.ticket (operation : IoOp) : Nat × Want := (operation.handler, operation.op.want)

/-- What stays of an operation while it is called. -/
def IoOp.label (operation : IoOp) : (Nat × Want) × Nat := (operation.ticket, operation.identity)

structure OpResult where
  session : Session
  operation : IoOp
  want : Want
  deriving DecidableEq, Repr

/-- `op_(session_, ec_, bytes_transferred_)`: the call operators of `read_op`,
`write_op` and `close_op`. -/
def IoOp.perform (operation : IoOp) (s : Session) (activity : List Callback) : OpResult :=
  match operation.op with
  | .read buffer =>
      let result := s.read buffer
      { session := result.session
        operation := { operation with
          op := .read result.buffer, ec := result.ec, bytesTransferred := result.bytesTransferred }
        want := if result.done then .nothing else .read }
  | .write buffer =>
      let result := s.write buffer
      { session := result.session
        operation := { operation with
          ec := result.ec, bytesTransferred := result.bytesTransferred }
        want := if result.done then .nothing else .write }
  | .close =>
      let result := s.close activity
      { session := result.session, operation := operation
        want := if result.done then .nothing else .close }

def Handler.asIoOp : Handler → Option IoOp
  | .ioOp operation => some operation
  | .processSendQueue => none
  | .doClose => none

/-- The operations the session's strand holds. -/
def Session.operations (s : Session) : List IoOp := s.strand.handlers.filterMap Handler.asIoOp

/-- `session::async_pending_wait`. -/
def Session.asyncPendingWait (s : Session) (what : Want) (operation : IoOp) : Session :=
  match what with
  | .nothing => s
  | .read => { s with strand := s.strand.asyncWait .pendingReadyRead (.ioOp operation) }
  | .write => { s with strand := s.strand.asyncWait .pendingReadyWrite (.ioOp operation) }
  | .close => { s with strand := s.strand.asyncWait .pendingReadyClose (.ioOp operation) }

/-- The io_service: operations posted to it and completion handlers it called.
`begun` and `callsAtStart` are records, of what was asked for and of the calls of
`close_handler_` before the last `start`. -/
structure Service where
  session : Session
  posted : List IoOp := []
  completed : List IoOp := []
  begun : List (Nat × Want) := []
  callsAtStart : Nat := 0
  deriving DecidableEq, Repr

inductive ServiceAction where
  | start
  | startInside (activity : List Callback)
  | receive (activity : List Callback)
  | beginOutside (handler : Nat) (op : Operation)
  | beginInside (handler : Nat) (op : Operation) (activity : List Callback)
  | expire (timer : Timer)
  | run (index : Nat) (activity : List Callback)
  | runPosted (index : Nat)

def ServiceAction.starts : ServiceAction → Bool
  | .start => true
  | .startInside _ => true
  | _ => false

def ServiceAction.receives : ServiceAction → Bool
  | .receive _ => true
  | _ => false

theorem ServiceAction.starts_cases {action : ServiceAction} (starts : action.starts = true) :
    action = .start ∨ ∃ activity, action = .startInside activity := by
  cases action with
  | start => exact Or.inl rfl
  | startInside activity => exact Or.inr ⟨activity, rfl⟩
  | _ => cases starts

theorem ServiceAction.receives_cases {action : ServiceAction}
    (receives : action.receives = true) : ∃ activity, action = .receive activity := by
  cases action with
  | receive activity => exact ⟨activity, rfl⟩
  | _ => cases receives

namespace Service

/-- `op_.call_handler(handler_, ec_, bytes_transferred_)`. -/
def callHandler (service : Service) (operation : IoOp) : Service :=
  { service with completed := service.completed ++ [operation] }

/-- `io_op::operator()` called outside the session's strand. -/
def callOutside (service : Service) (operation : IoOp) : Service :=
  if !operation.finished then
    { service with session := { service.session with
        strand := service.session.strand.dispatch (.ioOp operation) } }
  else service.callHandler operation

/-- `io_op::operator()` called on the session's strand. -/
def call (service : Service) (operation : IoOp) (start : Bool) (activity : List Callback) :
    Service :=
  if !operation.finished then
    let result := operation.perform service.session activity
    if result.want ≠ .nothing then
      { service with session := result.session.asyncPendingWait result.want result.operation }
    else
      let finished := { result.operation with finished := true }
      let after := { service with session := result.session }
      if start then { after with posted := after.posted ++ [finished] }
      else after.callHandler finished
  else service.callHandler operation

/-- The service once the strand has taken the handler it runs next. -/
def take (service : Service) (index : Nat) : Service :=
  { service with session := { service.session with
      strand := service.session.strand.take index } }

/-- Run a handler of the strand. -/
def dispatched (service : Service) (handler : Handler) (completion : Completion)
    (activity : List Callback) : Service :=
  match handler with
  | .processSendQueue =>
      { service with
        session := service.session.handleProcessSendQueue (errorOf completion) activity }
  | .doClose => { service with session := service.session.doClose (errorOf completion) }
  | .ioOp operation => service.call operation false activity

def run (service : Service) (index : Nat) (activity : List Callback) : Service :=
  match service.session.strand.ready[index]? with
  | some due => (service.take index).dispatched due.1 due.2 activity
  | none => service

def runPosted (service : Service) (index : Nat) : Service :=
  match service.posted[index]? with
  | some operation =>
      { service with posted := service.posted.eraseIdx index }.callOutside operation
  | none => service

/-- The operation that is begun; its identity is its place in the record. -/
abbrev opened (service : Service) (handler : Nat) (op : Operation) : IoOp :=
  { handler := handler, op := op, identity := service.begun.length }

/-- The record of an operation that is begun. -/
def noted (service : Service) (handler : Nat) (op : Operation) : Service :=
  { service with begun := service.begun ++ [(handler, op.want)] }

def next (service : Service) : ServiceAction → Service
  | .start =>
      { service with
        session := service.session.start
        callsAtStart := service.session.closeHandlerCalls }
  | .startInside activity =>
      { service with
        session := service.session.startInside activity
        callsAtStart := service.session.closeHandlerCalls }
  | .receive activity => { service with session := service.session.callbacks activity }
  | .beginOutside handler op =>
      (service.noted handler op).callOutside (service.opened handler op)
  | .beginInside handler op activity =>
      (service.noted handler op).call (service.opened handler op) true activity
  | .expire timer =>
      { service with session := { service.session with
          strand := service.session.strand.expire timer } }
  | .run index activity => service.run index activity
  | .runPosted index => service.runPosted index

/-- The pending-ready timers are set to `pos_infin`; they are only ever cancelled. -/
def possible (_ : Service) : ServiceAction → Guard
  | .expire timer => .of (timer = .sendQueue ∨ timer = .close)
  | _ => .free

abbrev Possible (service : Service) (action : ServiceAction) : Prop :=
  (service.possible action).holds

/-- A session that has been started for the first time. -/
def started (session : Session) : Service := { session := session.start }

/-- The operations whose completion handlers have not been called. -/
def outstanding (service : Service) : List IoOp := service.session.operations ++ service.posted

/-- Every operation begun, as it is accounted for now. -/
def tickets (service : Service) : List (Nat × Want) :=
  (service.outstanding ++ service.completed).map IoOp.ticket

/-- The same with their identities. -/
def labels (service : Service) : List ((Nat × Want) × Nat) :=
  (service.outstanding ++ service.completed).map IoOp.label

/-- The operation that a step begins, if any. -/
def entered (service : Service) : ServiceAction → List IoOp
  | .beginOutside handler op => [service.opened handler op]
  | .beginInside handler op _ => [service.opened handler op]
  | _ => []

/-- The identities of the operations are those given out, each once. -/
def Identified (service : Service) : Prop :=
  ((service.outstanding ++ service.completed).map IoOp.identity).Perm
    (List.range service.begun.length)

/-- The calls of `close_handler_` since the last `start`. -/
def callsSinceStart (service : Service) : Nat :=
  service.session.closeHandlerCalls - service.callsAtStart

end Service

namespace Session

theorem operations_ends {s later : Session} {touched : Timer → Prop}
    (ends : Queue.Ends touched s.strand later.strand) :
    later.operations.Perm s.operations := ends.handlers.filterMap _

theorem operations_rescheduleProcessSendQueue (s : Session) :
    s.rescheduleProcessSendQueue.operations.Perm s.operations :=
  (Queue.handlers_rearm s.strand .sendQueue .processSendQueue).filterMap Handler.asIoOp

theorem operations_armClose (s : Session) : s.armClose.operations.Perm s.operations :=
  (Queue.handlers_rearm s.strand .close .doClose).filterMap Handler.asIoOp

theorem operations_doClose (s : Session) (error : ErrorCode) :
    (s.doClose error).operations.Perm s.operations := by
  by_cases success : error = .success
  · rw [success]
    exact operations_ends s.ends_doClose
  · simp only [doClose, success, ne_eq, not_false_eq_true, ↓reduceIte]
    exact List.Perm.refl _

theorem operations_callbacks (s : Session) (activity : List Callback) :
    (s.callbacks activity).operations.Perm s.operations :=
  operations_ends (s.spared_callbacks activity).strand

theorem operations_handleProcessSendQueue (s : Session) (error : ErrorCode)
    (activity : List Callback) :
    (s.handleProcessSendQueue error activity).operations.Perm s.operations := by
  by_cases success : error = .success
  · rw [success]
    have processed := s.operations_callbacks activity
    rcases s.handleProcessSendQueue_cases activity with ⟨_, result⟩ | ⟨_, result⟩
    · rw [result]
      exact (operations_doClose _ _).trans processed
    · rw [result]
      exact (operations_rescheduleProcessSendQueue _).trans processed
  · simp only [handleProcessSendQueue, success, ne_eq, not_false_eq_true, ↓reduceIte]
    exact List.Perm.refl _

theorem operations_start (s : Session) : s.start.operations.Perm s.operations :=
  (Queue.handlers_dispatch s.strand .processSendQueue).filterMap Handler.asIoOp

theorem operations_close (s : Session) (activity : List Callback) :
    (s.close activity).session.operations.Perm s.operations := by
  have processed := s.closing.operations_callbacks activity
  rcases s.close_cases activity with
    ⟨_, result⟩ | ⟨_, _, result⟩ | ⟨_, _, _, result⟩ | ⟨_, _, _, result⟩
  · rw [result]
    have first : Queue.Ends PendingReady s.strand (s.strand.cancel .pendingReadyRead) :=
      .cancel _ (Or.inl rfl)
    exact operations_ends (first.trans (.cancel _ (Or.inr rfl)))
  · rw [result]
  · rw [result]
    exact (operations_doClose _ _).trans processed
  · rw [result]
    exact ((operations_armClose _).trans (operations_rescheduleProcessSendQueue _)).trans
      processed

theorem strand_read (s : Session) (buffer : Buffer) :
    (s.read buffer).session.strand = s.strand := by
  unfold Session.read
  split
  · rfl
  · dsimp only
    split <;> rfl

theorem operations_write (s : Session) (buffer : Buffer) :
    (s.write buffer).session.operations.Perm s.operations := by
  unfold Session.write
  split
  · exact List.Perm.refl _
  · split
    · exact List.Perm.refl _
    · split
      · exact List.Perm.refl _
      · dsimp only
        split
        · exact operations_rescheduleProcessSendQueue _
        · exact List.Perm.refl _

/-- An operation that has to wait is put on the strand. -/
theorem operations_asyncPendingWait (s : Session) {what : Want} (operation : IoOp)
    (waits : what ≠ .nothing) :
    (s.asyncPendingWait what operation).operations.Perm (operation :: s.operations) := by
  have added : ∀ timer : Timer, ((s.strand.asyncWait timer (.ioOp operation)).handlers.filterMap
      Handler.asIoOp).Perm (operation :: s.operations) :=
    fun timer => (Queue.handlers_asyncWait s.strand timer (.ioOp operation)).filterMap _
  cases what with
  | nothing => exact absurd rfl waits
  | read => exact added .pendingReadyRead
  | write => exact added .pendingReadyWrite
  | close => exact added .pendingReadyClose

theorem silent_asyncPendingWait (s : Session) (what : Want) (operation : IoOp) :
    s.Silent (s.asyncPendingWait what operation) := by
  cases what <;> exact ⟨rfl, rfl⟩

end Session

theorem IoOp.operations_perform (operation : IoOp) (s : Session) (activity : List Callback) :
    (operation.perform s activity).session.operations.Perm s.operations := by
  unfold IoOp.perform
  split
  · simp only [Session.operations, Session.strand_read]
    exact List.Perm.refl _
  · exact s.operations_write _
  · exact s.operations_close activity

theorem IoOp.label_perform (operation : IoOp) (s : Session) (activity : List Callback) :
    (operation.perform s activity).operation.label = operation.label := by
  unfold IoOp.perform
  split
  · rename_i buffer isRead
    simp only [IoOp.label, IoOp.ticket, isRead, Operation.want]
  · rfl
  · rfl

theorem IoOp.ticket_perform (operation : IoOp) (s : Session) (activity : List Callback) :
    (operation.perform s activity).operation.ticket = operation.ticket :=
  congrArg Prod.fst (operation.label_perform s activity)

namespace Service

/-- A step of the session that keeps the operations on its strand. -/
theorem labels_session {service later : Service}
    (kept : later.session.operations.Perm service.session.operations)
    (posted : later.posted = service.posted) (completed : later.completed = service.completed) :
    later.labels.Perm service.labels := by
  simp only [labels, outstanding, posted, completed]
  exact ((kept.append_right _).append_right _).map IoOp.label

theorem labels_callHandler (service : Service) (operation : IoOp) :
    (service.callHandler operation).labels.Perm (operation.label :: service.labels) := by
  simp only [labels, callHandler, outstanding, ← List.append_assoc]
  exact (List.perm_append_singleton _ _).map IoOp.label

/-- An operation that is called is accounted for, waiting, posted or completed. -/
theorem labels_call (service : Service) (operation : IoOp) (start : Bool)
    (activity : List Callback) :
    (service.call operation start activity).labels.Perm
      (operation.label :: service.labels) := by
  have kept := operation.operations_perform service.session activity
  have same := operation.label_perform service.session activity
  simp only [call]
  split
  · rw [← same]
    split
    · rename_i waits
      have waiting := Session.operations_asyncPendingWait
        (operation.perform service.session activity).session
        (operation.perform service.session activity).operation waits
      exact (((waiting.trans (kept.cons _)).append_right service.posted).append_right
        service.completed).map IoOp.label
    · split
      · have first := (List.perm_append_singleton
          { (operation.perform service.session activity).operation with finished := true }
          ((operation.perform service.session activity).session.operations ++
            service.posted)).trans ((kept.append_right service.posted).cons _)
        rw [List.append_assoc] at first
        exact (first.append_right service.completed).map IoOp.label
      · apply (labels_callHandler _ _).trans
        apply List.Perm.cons
        exact labels_session kept rfl rfl
  · exact service.labels_callHandler operation

theorem labels_callOutside (service : Service) (operation : IoOp) :
    (service.callOutside operation).labels.Perm (operation.label :: service.labels) := by
  simp only [callOutside]
  split
  · have added := (Queue.handlers_dispatch service.session.strand (.ioOp operation)).filterMap
      Handler.asIoOp
    exact ((added.append_right service.posted).append_right service.completed).map IoOp.label
  · exact service.labels_callHandler operation

theorem labels_run (service : Service) (index : Nat) (activity : List Callback) :
    (service.run index activity).labels.Perm service.labels := by
  simp only [run]
  split
  · rename_i due located
    have taken := (service.session.strand.handlers_take located).filterMap Handler.asIoOp
    cases handler : due.1 with
    | processSendQueue =>
        rw [handler] at taken
        exact labels_session ((Session.operations_handleProcessSendQueue _ _ _).trans taken.symm)
          rfl rfl
    | doClose =>
        rw [handler] at taken
        exact labels_session ((Session.operations_doClose _ _).trans taken.symm) rfl rfl
    | ioOp operation =>
        rw [handler] at taken
        apply (labels_call _ _ _ _).trans
        exact ((taken.symm.append_right service.posted).append_right service.completed).map
          IoOp.label
  · exact List.Perm.refl _

theorem labels_runPosted (service : Service) (index : Nat) :
    (service.runPosted index).labels.Perm service.labels := by
  simp only [runPosted]
  split
  · rename_i operation located
    apply (labels_callOutside _ _).trans
    obtain ⟨inside, atIndex⟩ := List.getElem?_eq_some_iff.mp located
    have parts := List.getElem_cons_eraseIdx_perm inside
    rw [atIndex] at parts
    have moved := List.perm_middle.symm.trans
      (parts.append_left service.session.operations)
    exact (moved.append_right service.completed).map IoOp.label
  · exact List.Perm.refl _

theorem records_call (service : Service) (operation : IoOp) (start : Bool)
    (activity : List Callback) :
    (service.call operation start activity).begun = service.begun ∧
      (service.call operation start activity).callsAtStart = service.callsAtStart := by
  simp only [call]
  split
  · split
    · exact ⟨rfl, rfl⟩
    · split <;> exact ⟨rfl, rfl⟩
  · exact ⟨rfl, rfl⟩

theorem records_callOutside (service : Service) (operation : IoOp) :
    (service.callOutside operation).begun = service.begun ∧
      (service.callOutside operation).callsAtStart = service.callsAtStart := by
  simp only [callOutside]
  split <;> exact ⟨rfl, rfl⟩

theorem records_run (service : Service) (index : Nat) (activity : List Callback) :
    (service.run index activity).begun = service.begun ∧
      (service.run index activity).callsAtStart = service.callsAtStart := by
  simp only [run]
  split
  · rename_i due located
    cases handler : due.1 with
    | processSendQueue => exact ⟨rfl, rfl⟩
    | doClose => exact ⟨rfl, rfl⟩
    | ioOp operation => exact records_call _ _ _ _
  · exact ⟨rfl, rfl⟩

theorem records_runPosted (service : Service) (index : Nat) :
    (service.runPosted index).begun = service.begun ∧
      (service.runPosted index).callsAtStart = service.callsAtStart := by
  simp only [runPosted]
  split
  · exact records_callOutside _ _
  · exact ⟨rfl, rfl⟩

theorem begun_next (service : Service) (action : ServiceAction) :
    (service.next action).begun = service.begun ++ (service.entered action).map IoOp.ticket := by
  cases action with
  | beginOutside handler op => exact (records_callOutside _ _).1
  | beginInside handler op activity => exact (records_call _ _ _ _).1
  | run index activity =>
      rw [next, (records_run _ _ _).1]
      exact (List.append_nil _).symm
  | runPosted index =>
      rw [next, (records_runPosted _ _).1]
      exact (List.append_nil _).symm
  | _ => exact (List.append_nil _).symm

/-- A step accounts for the operation that it begins, beside those before. -/
theorem labels_next (service : Service) (action : ServiceAction) :
    (service.next action).labels.Perm
      ((service.entered action).map IoOp.label ++ service.labels) := by
  cases action with
  | start => exact labels_session (Session.operations_start _) rfl rfl
  | startInside activity =>
      exact labels_session (Session.operations_handleProcessSendQueue _ _ _) rfl rfl
  | receive activity => exact labels_session (Session.operations_callbacks _ _) rfl rfl
  | beginOutside handler op => exact labels_callOutside _ _
  | beginInside handler op activity => exact labels_call _ _ _ _
  | expire timer =>
      have kept := (Queue.handlers_finish service.session.strand timer .success).filterMap
        Handler.asIoOp
      exact labels_session kept rfl rfl
  | run index activity => exact service.labels_run index activity
  | runPosted index => exact service.labels_runPosted index

/-- Every operation begun stays accounted for, once. -/
theorem tickets_next {service : Service} (action : ServiceAction)
    (accounted : service.tickets.Perm service.begun) :
    (service.next action).tickets.Perm (service.next action).begun := by
  have tickets : ∀ state : Service, state.tickets = state.labels.map Prod.fst := by
    intro state
    rw [labels, List.map_map]
    rfl
  have step := (service.labels_next action).map Prod.fst
  rw [List.map_append, List.map_map, ← tickets, ← tickets] at step
  rw [begun_next]
  exact step.trans (List.perm_append_comm.trans (accounted.append_right _))

theorem Identified.next {service : Service} (identified : service.Identified)
    (action : ServiceAction) : (service.next action).Identified := by
  have identities : ∀ state : Service,
      (state.outstanding ++ state.completed).map IoOp.identity = state.labels.map Prod.snd := by
    intro state
    rw [labels, List.map_map]
    rfl
  have step := (service.labels_next action).map Prod.snd
  rw [List.map_append, List.map_map, ← identities, ← identities] at step
  have entered : (service.entered action).map (Prod.snd ∘ IoOp.label) =
      (List.range ((service.entered action).map IoOp.ticket).length).map
        (service.begun.length + ·) := by
    cases action <;> rfl
  rw [entered] at step
  rw [Identified, begun_next, List.length_append, List.range_add]
  exact step.trans (List.perm_append_comm.trans (identified.append_right _))

/-- Two operations in flight with one identity are one operation. -/
theorem Identified.unique {service : Service} (identified : service.Identified)
    {first second : IoOp} (inFlight : first ∈ service.outstanding)
    (other : second ∈ service.outstanding) (same : first.identity = second.identity) :
    first = second := by
  have distinct := identified.nodup_iff.mpr List.nodup_range
  exact List.inj_on_of_nodup_map distinct (List.mem_append_left _ inFlight)
    (List.mem_append_left _ other) same

/-- An operation that is begun has an identity of its own. -/
theorem Identified.fresh {service : Service} (identified : service.Identified)
    {operation : IoOp} (inFlight : operation ∈ service.outstanding) :
    operation.identity < service.begun.length :=
  List.mem_range.mp (identified.mem_iff.mp
    (List.mem_map_of_mem (List.mem_append_left _ inFlight)))

end Service

theorem Session.Fresh.operations {session : Session} (fresh : session.Fresh) :
    session.operations = [] := by
  simp [Session.operations, Queue.handlers, fresh.waiting, fresh.ready]

theorem Session.Fresh.identified {session : Session} (fresh : session.Fresh) :
    Service.Identified { session := session } := by
  rw [Service.Identified, Service.outstanding, fresh.operations]
  exact List.Perm.refl _

end CurvecprAsio
