import CurvecprAsio.Service

set_option autoImplicit false

/- What a step of the io_service does to its session: routine changes, at most one
call of an operation, and at most one `do_close`. -/
namespace CurvecprAsio

open Strand Transition

/-- The changes to a session that neither an operation nor `do_close` makes. -/
inductive Routine where
  | callback (callback : Callback)
  | rearm (timer : Timer) (handler : Handler)
  | dispatch (handler : Handler)
  | take (index : Nat)
  | expire (timer : Timer)
  | runs

/-- The timers that are set to expire. -/
def Timer.Set (timer : Timer) : Prop := timer = .sendQueue ∨ timer = .close

namespace Session

def routine (s : Session) : Routine → Session
  | .callback callback => s.callback callback
  | .rearm timer handler => { s with strand := s.strand.rearm timer handler }
  | .dispatch handler => { s with strand := s.strand.dispatch handler }
  | .take index => { s with strand := s.strand.take index }
  | .expire timer => { s with strand := s.strand.expire timer }
  | .runs => { s with running := true }

/-- No operation waits on a timer that is set. -/
def Ordinary (_ : Session) : Routine → Prop
  | .rearm timer handler => timer.Set ∧ handler.asIoOp = none
  | .expire timer => timer.Set
  | _ => True

/-- Routine changes lead from one session to the other. -/
def Goes (s later : Session) : Prop := Reaches routine Ordinary s later

theorem Goes.refl (s : Session) : s.Goes s := Reaches.start

theorem Goes.trans {first second third : Session} (before : first.Goes second)
    (after : second.Goes third) : first.Goes third := Reaches.trans before after

theorem Goes.once (s : Session) (change : Routine) (ordinary : s.Ordinary change) :
    s.Goes (s.routine change) := Reaches.act Reaches.start ordinary

theorem goes_callbacks (s : Session) (activity : List Callback) :
    s.Goes (s.callbacks activity) := by
  induction activity generalizing s with
  | nil => exact .refl s
  | cons callback rest ih => exact (Goes.once s (.callback callback) trivial).trans (ih _)

theorem goes_rescheduleProcessSendQueue (s : Session) : s.Goes s.rescheduleProcessSendQueue :=
  .once s (.rearm .sendQueue .processSendQueue) ⟨Or.inl rfl, rfl⟩

theorem goes_armClose (s : Session) : s.Goes s.armClose :=
  .once s (.rearm .close .doClose) ⟨Or.inr rfl, rfl⟩

/-- The send queue's handler closes the session, or only makes routine changes. -/
theorem goes_handleProcessSendQueue (s : Session) (activity : List Callback) :
    ((s.callbacks activity).final = true ∧ s.handleProcessSendQueue .success activity =
        (s.callbacks activity).doClose .success) ∨
      ((s.callbacks activity).final = false ∧
        s.Goes (s.handleProcessSendQueue .success activity)) := by
  have processed := s.goes_callbacks activity
  rcases s.handleProcessSendQueue_cases activity with ⟨final, result⟩ | ⟨final, result⟩
  · exact Or.inl ⟨final, result⟩
  · rw [result]
    exact Or.inr ⟨final, processed.trans (goes_rescheduleProcessSendQueue _)⟩

/-- What an effective close does once the flags are set, when the session is not
closed at once. -/
theorem goes_closing (s : Session) (activity : List Callback) :
    s.closing.Goes (s.closing.callbacks activity).rescheduleProcessSendQueue.armClose :=
  ((s.closing.goes_callbacks activity).trans (goes_rescheduleProcessSendQueue _)).trans
    (goes_armClose _)

/-- The fields of the receive side. -/
def receiveState (s : Session) : List BlockStatus × Nat × Nat × Nat × Bool :=
  (s.recvmarkq, s.recvmarkqMaximum, s.recvmarkqDistributed, s.recvmarkqReadOffset, s.pendingEof)

theorem cursor_of_receiveState {s later : Session} (same : later.receiveState = s.receiveState) :
    later.recvmarkqDistributed = s.recvmarkqDistributed ∧
      later.recvmarkqReadOffset = s.recvmarkqReadOffset := by
  simp only [receiveState, Prod.mk.injEq] at same
  exact ⟨same.2.2.1, same.2.2.2.1⟩

theorem pendingEof_of_receiveState {s later : Session}
    (same : later.receiveState = s.receiveState) : later.pendingEof = s.pendingEof := by
  simp only [receiveState, Prod.mk.injEq] at same
  exact same.2.2.2.2

theorem receiveState_handleSendqHead (s : Session) :
    s.handleSendqHead.session.receiveState = s.receiveState := by
  unfold handleSendqHead
  split
  · rfl
  · split
    · simp only [takeHead]
      split <;> rfl
    · rfl

theorem receiveState_handleSendqMoveToSendmarkq (s : Session)
    (balance : SearchTree.Balance SentBlock) (block : SentBlock) :
    (s.handleSendqMoveToSendmarkq balance block).session.receiveState = s.receiveState := by
  unfold handleSendqMoveToSendmarkq
  split
  · split <;> rfl
  · split <;> rfl

theorem receiveState_callback (s : Session) (callback : Callback) :
    (∃ block, callback = .recvmarkqPut block) ∨
      (∃ start stop, callback = .recvmarkqRemoveRange start stop) ∨
      (s.callback callback).receiveState = s.receiveState := by
  cases callback with
  | sendqHead => exact Or.inr (Or.inr s.receiveState_handleSendqHead)
  | stampHead id clock offset => exact Or.inr (Or.inr rfl)
  | sendqMoveToSendmarkq balance =>
      exact Or.inr (Or.inr (s.receiveState_handleSendqMoveToSendmarkq balance _))
  | resend balance pointer id clock =>
      refine Or.inr (Or.inr ?_)
      simp only [Session.callback, resend]
      split
      · exact receiveState_handleSendqMoveToSendmarkq (s.stampSent pointer id clock) balance _
      · rfl
  | sendmarkqRemoveRange balance start stop => exact Or.inr (Or.inr rfl)
  | recvmarkqPut block => exact Or.inl ⟨block, rfl⟩
  | recvmarkqRemoveRange start stop => exact Or.inr (Or.inl ⟨start, stop, rfl⟩)
  | messager messager => exact Or.inr (Or.inr rfl)

theorem cursor_callback (s : Session) (callback : Callback) :
    (s.callback callback).recvmarkqDistributed = s.recvmarkqDistributed ∧
      (s.callback callback).recvmarkqReadOffset = s.recvmarkqReadOffset := by
  rcases s.receiveState_callback callback with ⟨block, rfl⟩ | ⟨start, stop, rfl⟩ | same
  · simp only [Session.callback, handleRecvmarkqPut]
    split <;> exact ⟨rfl, rfl⟩
  · exact ⟨rfl, rfl⟩
  · exact cursor_of_receiveState same

theorem Goes.cursor {s later : Session} (goes : s.Goes later) :
    later.recvmarkqDistributed = s.recvmarkqDistributed ∧
      later.recvmarkqReadOffset = s.recvmarkqReadOffset := by
  induction goes with
  | start => exact ⟨rfl, rfl⟩
  | @act state change before _ ih =>
      cases change with
      | callback callback =>
          have same := state.cursor_callback callback
          exact ⟨same.1.trans ih.1, same.2.trans ih.2⟩
      | _ => exact ih

theorem read_changes (s : Session) (buffer : Buffer) :
    ∃ queue distributed offset ended contiguous, (s.read buffer).session = { s with
      recvmarkq := queue, recvmarkqDistributed := distributed, recvmarkqReadOffset := offset
      pendingEof := ended
      messager := { s.messager with theirContiguousSentBytes := contiguous } } := by
  unfold Session.read
  split
  · exact ⟨_, _, _, _, _, rfl⟩
  · dsimp only
    split <;> exact ⟨_, _, _, _, _, rfl⟩

theorem write_changes (s : Session) (buffer : Buffer) :
    ∃ pending next used strand, (s.write buffer).session = { s with
      pending := pending, pendingNext := next, pendingUsed := used, strand := strand } := by
  unfold Session.write
  split
  · exact ⟨_, _, _, _, rfl⟩
  · split
    · exact ⟨_, _, _, _, rfl⟩
    · split
      · exact ⟨_, _, _, _, rfl⟩
      · dsimp only
        split <;> exact ⟨_, _, _, _, rfl⟩

theorem receiveState_write (s : Session) (buffer : Buffer) :
    (s.write buffer).session.receiveState = s.receiveState := by
  unfold Session.write
  split
  · rfl
  · split
    · rfl
    · split
      · rfl
      · dsimp only
        split <;> rfl

theorem receiveState_asyncPendingWait (s : Session) (what : Want) (operation : IoOp) :
    (s.asyncPendingWait what operation).receiveState = s.receiveState := by
  cases what <;> rfl

theorem cursor_asyncPendingWait (s : Session) (what : Want) (operation : IoOp) :
    (s.asyncPendingWait what operation).recvmarkqDistributed = s.recvmarkqDistributed ∧
      (s.asyncPendingWait what operation).recvmarkqReadOffset = s.recvmarkqReadOffset :=
  cursor_of_receiveState (s.receiveState_asyncPendingWait what operation)

end Session

theorem IoOp.finished_perform (operation : IoOp) (s : Session) (activity : List Callback) :
    (operation.perform s activity).operation.finished = operation.finished := by
  unfold IoOp.perform
  split <;> rfl

namespace Service

/-- The operation that a step calls on the strand, and what libcurvecpr does in it. -/
def called (service : Service) : ServiceAction → Option (IoOp × List Callback)
  | .beginInside handler op activity => some (service.opened handler op, activity)
  | .run index activity =>
      match service.session.strand.ready[index]? with
      | some (.ioOp operation, _) =>
          if operation.finished then none else some (operation, activity)
      | _ => none
  | _ => none

/-- The session as the handlers of a step find it. -/
def found (service : Service) : ServiceAction → Session
  | .run index _ => (service.take index).session
  | _ => service.session

/-- The step runs `do_close`, other than from a close operation. -/
def finishes (service : Service) : ServiceAction → Bool
  | .startInside activity =>
      ({ service.session with running := true }.callbacks activity).final
  | .run index activity =>
      match service.session.strand.ready[index]? with
      | some (.processSendQueue, .success) =>
          ((service.take index).session.callbacks activity).final
      | some (.doClose, .success) => true
      | _ => false
  | _ => false

/-- The step runs `do_close` without an error. -/
def DoesClose (service : Service) (action : ServiceAction) : Bool :=
  service.finishes action ||
    match service.called action with
    | some (operation, activity) =>
        operation.op = .close && (service.found action).running &&
          !(service.found action).pendingClose &&
          ((service.found action).closing.callbacks activity).final
    | none => false

variable {service : Service}

theorem goes_found (action : ServiceAction) : service.session.Goes (service.found action) := by
  cases action with
  | run index activity => exact .once _ (.take index) trivial
  | _ => exact .refl _

theorem session_call (service : Service) (operation : IoOp) (start : Bool)
    (activity : List Callback) (unfinished : operation.finished = false) :
    (service.call operation start activity).session =
      (operation.perform service.session activity).session.asyncPendingWait
        (operation.perform service.session activity).want
        (operation.perform service.session activity).operation := by
  simp only [call, unfinished, Bool.not_false, ↓reduceIte]
  by_cases waits : (operation.perform service.session activity).want = .nothing
  · simp only [waits, ne_eq, not_true_eq_false, ↓reduceIte, Session.asyncPendingWait]
    split <;> rfl
  · simp only [ne_eq, waits, not_false_eq_true, ↓reduceIte]

theorem next_cases {action : ServiceAction} (possible : service.Possible action) :
    (∃ operation activity, service.called action = some (operation, activity) ∧
        (service.next action).session =
          (operation.perform (service.found action) activity).session.asyncPendingWait
            (operation.perform (service.found action) activity).want
            (operation.perform (service.found action) activity).operation) ∨
      (service.called action = none ∧ service.finishes action = true ∧
        ∃ later, service.session.Goes later ∧
          (service.next action).session = later.doClose .success) ∨
      (service.called action = none ∧ service.finishes action = false ∧
        service.session.Goes (service.next action).session) := by
  have runs := Session.Goes.once service.session .runs trivial
  cases action with
  | start => exact Or.inr (Or.inr ⟨rfl, rfl, runs.trans (.once _ (.dispatch _) trivial)⟩)
  | startInside activity =>
      apply Or.inr
      rcases Session.goes_handleProcessSendQueue { service.session with running := true }
        activity with ⟨final, result⟩ | ⟨final, goes⟩
      · exact Or.inl ⟨rfl, final, _, runs.trans (Session.goes_callbacks _ activity), result⟩
      · exact Or.inr ⟨rfl, final, runs.trans goes⟩
  | receive activity => exact Or.inr (Or.inr ⟨rfl, rfl, Session.goes_callbacks _ activity⟩)
  | beginOutside handler op => exact Or.inr (Or.inr ⟨rfl, rfl, .once _ (.dispatch _) trivial⟩)
  | beginInside handler op activity =>
      exact Or.inl ⟨_, activity, rfl, session_call (service.noted handler op) _ true
        activity rfl⟩
  | expire timer => exact Or.inr (Or.inr ⟨rfl, rfl, .once _ (.expire timer) possible⟩)
  | run index activity =>
      have taken : service.session.Goes (service.take index).session :=
        .once _ (.take index) trivial
      simp only [called, finishes, found, next, run]
      cases located : service.session.strand.ready[index]? with
      | none => exact Or.inr (Or.inr ⟨rfl, rfl, .refl _⟩)
      | some due =>
          obtain ⟨handler, completion⟩ := due
          cases handler with
          | processSendQueue =>
              apply Or.inr
              cases completion with
              | success =>
                  rcases (service.take index).session.goes_handleProcessSendQueue activity with
                    ⟨final, result⟩ | ⟨final, goes⟩
                  · exact Or.inl ⟨rfl, final, _, taken.trans (Session.goes_callbacks _ activity),
                      result⟩
                  · exact Or.inr ⟨rfl, final, taken.trans goes⟩
              | aborted => exact Or.inr ⟨rfl, rfl, taken⟩
          | doClose =>
              apply Or.inr
              cases completion with
              | success => exact Or.inl ⟨rfl, rfl, _, taken, rfl⟩
              | aborted => exact Or.inr ⟨rfl, rfl, taken⟩
          | ioOp operation =>
              cases finished : operation.finished with
              | false =>
                  refine Or.inl ⟨operation, activity, by simp [finished], ?_⟩
                  exact session_call (service.take index) operation false activity
                    finished
              | true =>
                  refine Or.inr (Or.inr ⟨by simp [finished], rfl, ?_⟩)
                  simp only [dispatched, call, finished, Bool.not_true, Bool.false_eq_true,
                    ↓reduceIte]
                  exact taken
  | runPosted index =>
      refine Or.inr (Or.inr ⟨rfl, rfl, ?_⟩)
      simp only [next, runPosted, callOutside]
      split
      · split
        · exact .once _ (.dispatch _) trivial
        · exact .refl _
      · exact .refl _

/-- An operation that is called comes from the strand, or has just begun. -/
theorem operations_found {service : Service} {action : ServiceAction} {operation : IoOp}
    {activity : List Callback}
    (called : service.called action = some (operation, activity)) :
    operation.finished = false ∧
      (service.session.operations.Perm (operation :: (service.found action).operations) ∧
          (∃ index, action = .run index activity) ∨
        service.found action = service.session ∧
          ∃ handler, action = .beginInside handler operation.op activity ∧
            operation = service.opened handler operation.op) := by
  cases action with
  | beginInside handler op other =>
      simp only [Service.called, Option.some.injEq, Prod.mk.injEq] at called
      obtain ⟨rfl, rfl⟩ := called
      exact ⟨rfl, Or.inr ⟨rfl, handler, rfl, rfl⟩⟩
  | run index other =>
      simp only [Service.called] at called
      split at called
      · rename_i operation' completion located
        split at called
        · cases called
        · rename_i unfinished
          simp only [Option.some.injEq, Prod.mk.injEq] at called
          obtain ⟨rfl, rfl⟩ := called
          have taken := (service.session.strand.handlers_take located).filterMap Handler.asIoOp
          exact ⟨by simpa using unfinished, Or.inl ⟨taken, index, rfl⟩⟩
      · cases called
  | _ => cases called

/-- An operation on the strand with the identity of the one that is called is that one. -/
theorem Identified.called {service : Service} (identified : service.Identified)
    {action : ServiceAction} {operation : IoOp} {activity : List Callback}
    (called : service.called action = some (operation, activity)) {other : IoOp}
    (inside : other ∈ service.session.operations) (same : other.identity = operation.identity) :
    other = operation := by
  have inFlight : other ∈ service.outstanding := List.mem_append_left _ inside
  obtain ⟨_, ⟨taken, _⟩ | ⟨_, handler, _, opened⟩⟩ := operations_found called
  · have onStrand := taken.mem_iff.mpr List.mem_cons_self
    exact identified.unique inFlight (List.mem_append_left _ onStrand) same
  · have given := identified.fresh inFlight
    rw [same, opened] at given
    exact absurd given (Nat.lt_irrefl _)

theorem operations_call (service : Service) (operation : IoOp) (start : Bool)
    (activity : List Callback) : ∃ entered : List IoOp,
      (∀ other ∈ entered, other.finished = false) ∧
      (service.call operation start activity).session.operations.Perm
        (entered ++ service.session.operations) := by
  have performed := operation.operations_perform service.session activity
  cases finished : operation.finished with
  | true =>
      refine ⟨[], by simp, ?_⟩
      simp only [call, finished, Bool.not_true, Bool.false_eq_true, ↓reduceIte]
      exact List.Perm.refl _
  | false =>
      rw [session_call service operation start activity finished]
      by_cases nothing : (operation.perform service.session activity).want = .nothing
      · rw [nothing]
        exact ⟨[], by simp, performed⟩
      · refine ⟨[(operation.perform service.session activity).operation], ?_, ?_⟩
        · intro other member
          rw [List.mem_singleton.mp member, IoOp.finished_perform, finished]
        · exact (Session.operations_asyncPendingWait _ _ nothing).trans (performed.cons _)

/-- What a step takes from the strand and puts on it: it calls the operations it takes,
and those it puts there have not finished. -/
theorem operations_next (service : Service) (action : ServiceAction) :
    ∃ entered left : List IoOp, (∀ operation ∈ entered, operation.finished = false) ∧
      (∀ operation ∈ left, operation.finished = false →
        ∃ activity, service.called action = some (operation, activity)) ∧
      (left ++ (service.next action).session.operations).Perm
        (entered ++ service.session.operations) := by
  have keeps : ∀ later : Session, later.operations.Perm service.session.operations →
      ∃ entered left : List IoOp, (∀ operation ∈ entered, operation.finished = false) ∧
        (∀ operation ∈ left, operation.finished = false →
          ∃ activity, service.called action = some (operation, activity)) ∧
        (left ++ later.operations).Perm (entered ++ service.session.operations) :=
    fun later perm => ⟨[], [], by simp, by simp, perm⟩
  have dispatches : ∀ operation : IoOp, operation.finished = false →
      ∃ entered left : List IoOp, (∀ operation ∈ entered, operation.finished = false) ∧
        (∀ operation ∈ left, operation.finished = false →
          ∃ activity, service.called action = some (operation, activity)) ∧
        (left ++ { service.session with
          strand := service.session.strand.dispatch (.ioOp operation) }.operations).Perm
          (entered ++ service.session.operations) :=
    fun operation unfinished => ⟨[operation], [], by simpa using unfinished, by simp,
      (Queue.handlers_dispatch service.session.strand (.ioOp operation)).filterMap
        Handler.asIoOp⟩
  cases action with
  | start => exact keeps _ service.session.operations_start
  | startInside activity =>
      exact keeps _ (Session.operations_handleProcessSendQueue
        { service.session with running := true } .success activity)
  | receive activity => exact keeps _ (service.session.operations_callbacks activity)
  | beginOutside handler op => exact dispatches (service.opened handler op) rfl
  | beginInside handler op activity =>
      obtain ⟨entered, unfinished, perm⟩ := operations_call (service.noted handler op)
        (service.opened handler op) true activity
      exact ⟨entered, [], unfinished, by simp, perm⟩
  | expire timer =>
      exact keeps _ ((Queue.handlers_finish service.session.strand timer .success).filterMap
        Handler.asIoOp)
  | run index activity =>
      simp only [next, run]
      cases located : service.session.strand.ready[index]? with
      | none => exact keeps _ (List.Perm.refl _)
      | some due =>
          have taken := (service.session.strand.handlers_take located).filterMap Handler.asIoOp
          obtain ⟨handler, completion⟩ := due
          cases handler with
          | processSendQueue =>
              exact keeps _ ((Session.operations_handleProcessSendQueue _ _ activity).trans
                taken.symm)
          | doClose => exact keeps _ ((Session.operations_doClose _ _).trans taken.symm)
          | ioOp operation =>
              obtain ⟨entered, unfinished, perm⟩ := operations_call (service.take index)
                operation false activity
              refine ⟨entered, [operation], unfinished, ?_, ?_⟩
              · intro other member fresh
                rw [List.mem_singleton.mp member] at fresh ⊢
                exact ⟨activity, by simp [called, located, fresh]⟩
              · have back : (entered ++ operation :: (service.take index).session.operations).Perm
                    (entered ++ service.session.operations) := taken.symm.append_left _
                exact ((perm.cons operation).trans List.perm_middle.symm).trans back
  | runPosted index =>
      simp only [next, runPosted, callOutside]
      split
      · split
        · rename_i operation _ unfinished
          exact dispatches operation (by simpa using unfinished)
        · exact keeps _ (List.Perm.refl _)
      · exact keeps _ (List.Perm.refl _)

/-- An operation stays on the strand until a step calls it. -/
theorem held_next {action : ServiceAction} {operation : IoOp}
    (unfinished : operation.finished = false) (held : operation ∈ service.session.operations)
    (uncalled : ∀ activity, service.called action ≠ some (operation, activity)) :
    operation ∈ (service.next action).session.operations := by
  obtain ⟨entered, left, _, calls, perm⟩ := service.operations_next action
  rcases List.mem_append.mp (perm.mem_iff.mpr (List.mem_append_right entered held)) with
    taken | kept
  · obtain ⟨activity, called⟩ := calls operation taken unfinished
    exact absurd called (uncalled activity)
  · exact kept

theorem unfinished_next {action : ServiceAction} {operation : IoOp}
    (inside : operation ∈ (service.next action).session.operations) :
    operation ∈ service.session.operations ∨ operation.finished = false := by
  obtain ⟨entered, left, unfinished, _, perm⟩ := service.operations_next action
  rcases List.mem_append.mp (perm.mem_iff.mp (List.mem_append_right left inside)) with
    new | old
  · exact Or.inr (unfinished operation new)
  · exact Or.inl old

end Service

/-- What is said of the receive side of a session only, and is kept by
everything that changes it. -/
structure Session.ReceiveInvariant (P : Session → Prop) : Prop where
  same : ∀ s later, later.receiveState = s.receiveState → P s → P later
  put : ∀ s block, P s → P (s.handleRecvmarkqPut block).session
  removeRange : ∀ s start stop, P s → P (s.handleRecvmarkqRemoveRange start stop)
  read : ∀ s buffer, P s → P (s.read buffer).session
  closing : ∀ s, P s → P s.closing
  doClose : ∀ s, P s → P (s.doClose .success)

namespace Session.ReceiveInvariant

variable {P : Session → Prop} {s : Session}

theorem callback (rule : ReceiveInvariant P) (holds : P s) (callback : Callback) :
    P (s.callback callback) := by
  rcases s.receiveState_callback callback with ⟨block, rfl⟩ | ⟨start, stop, rfl⟩ | same
  · exact rule.put s block holds
  · exact rule.removeRange s start stop holds
  · exact rule.same s _ same holds

theorem goes (rule : ReceiveInvariant P) (holds : P s) {later : Session} (goes : s.Goes later) :
    P later := by
  apply goes.invariant holds
  intro state change kept _
  cases change with
  | callback callback => exact rule.callback kept callback
  | _ => exact rule.same state _ rfl kept

theorem close (rule : ReceiveInvariant P) (holds : P s) (activity : List Callback) :
    P (s.close activity).session := by
  have marked := rule.closing s holds
  rcases s.close_cases activity with
    ⟨_, result⟩ | ⟨_, _, result⟩ | ⟨_, _, _, result⟩ | ⟨_, _, _, result⟩
  · rw [result]
    exact rule.same s _ rfl holds
  · rw [result]
    exact holds
  · rw [result]
    exact rule.doClose _ (rule.goes marked (s.closing.goes_callbacks activity))
  · rw [result]
    exact rule.goes marked (s.goes_closing activity)

theorem perform (rule : ReceiveInvariant P) (holds : P s) (operation : IoOp)
    (activity : List Callback) : P (operation.perform s activity).session := by
  unfold IoOp.perform
  split
  · exact rule.read s _ holds
  · exact rule.same s _ (s.receiveState_write _) holds
  · exact rule.close holds activity

theorem next (rule : ReceiveInvariant P) {service : Service} {action : ServiceAction}
    (holds : P service.session) (possible : service.Possible action) :
    P (service.next action).session := by
  rcases Service.next_cases possible with
    ⟨operation, activity, _, result⟩ | ⟨_, _, later, goes, result⟩ | ⟨_, _, goes⟩
  · rw [result]
    have performed := rule.perform (rule.goes holds (Service.goes_found action)) operation activity
    exact rule.same _ _ (receiveState_asyncPendingWait _ _ _) performed
  · rw [result]
    exact rule.doClose _ (rule.goes holds goes)
  · exact rule.goes holds goes

/-- It holds in every state of the session. -/
theorem reached (rule : ReceiveInvariant P) {service later : Service}
    (holds : P service.session) (reached : Reaches Service.next Service.Possible service later) :
    P later.session :=
  reached.invariant holds fun _ _ kept possible => rule.next kept possible

end Session.ReceiveInvariant

end CurvecprAsio
