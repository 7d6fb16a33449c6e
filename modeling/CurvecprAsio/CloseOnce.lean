import CurvecprAsio.Service

set_option autoImplicit false

/- How often a started session calls its close handler, and what becomes of the
close operations begun on it. -/
namespace CurvecprAsio

open Strand Transition

namespace Session

/-- The operations that the strand holds have not finished. -/
structure Unfinished (s : Session) : Prop where
  waiting : ∀ timer operation, (timer, Handler.ioOp operation) ∈ s.strand.waiting →
    operation.finished = false
  ready : ∀ operation completion, (Handler.ioOp operation, completion) ∈ s.strand.ready →
    operation.finished = false

/-- A close that is pending has a timer, and close operations only wait for a
close that is pending. -/
structure CloseInv (s : Session) : Prop where
  unfinished : s.Unfinished
  running : s.pendingClose = true → s.running = true
  armed : s.pendingClose = true → s.strand.Armed .close .doClose
  waiters : ∀ timer operation, (timer, Handler.ioOp operation) ∈ s.strand.waiting →
    operation.op = .close → s.pendingClose = true

section Strand

variable {s later : Session} {touched : Timer → Prop}

theorem Unfinished.ends (unfinished : s.Unfinished)
    (ends : Queue.Ends touched s.strand later.strand) : later.Unfinished where
  waiting := fun timer operation member =>
    unfinished.waiting timer operation (ends.waits _ member)
  ready := by
    intro operation completion member
    rcases ends.ended _ member with old | ⟨_, timer, _, waited⟩
    · exact unfinished.ready operation completion old
    · exact unfinished.waiting timer operation waited

theorem CloseInv.ends (inv : s.CloseInv) (untouched : ¬ touched .close)
    (ends : Queue.Ends touched s.strand later.strand) (running : later.running = s.running)
    (pendingClose : later.pendingClose = s.pendingClose) : later.CloseInv where
  unfinished := inv.unfinished.ends ends
  running := by
    rw [running, pendingClose]
    exact inv.running
  armed := by
    rw [pendingClose]
    intro pending
    exact (inv.armed pending).ends untouched ends
  waiters := by
    intro timer operation member isClose
    rw [pendingClose]
    exact inv.waiters timer operation (ends.waits _ member) isClose

theorem CloseInv.spared (inv : s.CloseInv) (spared : Spared s later) : later.CloseInv := by
  apply inv.ends _ spared.strand spared.running spared.pendingClose
  intro close
  rcases close with other | other <;> cases other

theorem Unfinished.rearm (unfinished : s.Unfinished) (timer : Timer) {handler : Handler}
    (other : handler.asIoOp = none) :
    Unfinished { s with strand := s.strand.rearm timer handler } := by
  have cancelled : Queue.Ends (fun _ => True) s.strand (s.strand.cancel timer) :=
    .cancel _ trivial
  have stopped : Unfinished { s with strand := s.strand.cancel timer } :=
    unfinished.ends cancelled
  refine ⟨?_, stopped.ready⟩
  intro waited operation member
  rcases (Queue.mem_waiting_asyncWait _ _ _ _).mp member with old | new
  · exact stopped.waiting waited operation old
  · rw [← (Prod.mk.inj new).2] at other
    cases other

theorem CloseInv.rearm (inv : s.CloseInv) {timer : Timer} (apart : timer ≠ .close)
    {handler : Handler} (other : handler.asIoOp = none) :
    CloseInv { s with strand := s.strand.rearm timer handler } where
  unfinished := inv.unfinished.rearm timer other
  running := inv.running
  armed := fun pending => (inv.armed pending).rearm apart.symm handler
  waiters := by
    intro waited operation member isClose
    rcases (Queue.mem_waiting_asyncWait _ _ _ _).mp member with old | new
    · have before := ((Queue.mem_waiting_finish _ _ _ _).mp old).1
      exact inv.waiters waited operation before isClose
    · rw [← (Prod.mk.inj new).2] at other
      cases other

theorem Unfinished.doClose (unfinished : s.Unfinished) : (s.doClose .success).CloseInv where
  unfinished := unfinished.ends s.ends_doClose
  running := by
    intro pending
    cases pending
  armed := by
    intro pending
    cases pending
  waiters := by
    intro timer operation member
    rw [s.waiting_doClose] at member
    cases member

theorem CloseInv.handleProcessSendQueue (inv : s.CloseInv) (error : ErrorCode)
    (activity : List Callback) : (s.handleProcessSendQueue error activity).CloseInv := by
  by_cases success : error = .success
  · rw [success]
    have processed := inv.spared (s.spared_callbacks activity)
    rcases s.handleProcessSendQueue_cases activity with ⟨_, result⟩ | ⟨_, result⟩
    · rw [result]
      exact processed.unfinished.doClose
    · rw [result]
      exact processed.rearm (by decide) rfl
  · simp only [Session.handleProcessSendQueue, success, ne_eq, not_false_eq_true, ↓reduceIte]
    exact inv

theorem CloseInv.doClose (inv : s.CloseInv) (error : ErrorCode) :
    (s.doClose error).CloseInv := by
  by_cases success : error = .success
  · rw [success]
    exact inv.unfinished.doClose
  · simp only [Session.doClose, success, ne_eq, not_false_eq_true, ↓reduceIte]
    exact inv

theorem Unfinished.armClose (unfinished : s.Unfinished) (running : s.running = true)
    (pending : s.pendingClose = true) : s.armClose.CloseInv where
  unfinished := unfinished.rearm .close rfl
  running := fun _ => running
  armed := fun _ => Queue.armed_rearm s.strand .close .doClose
  waiters := fun _ _ _ _ => pending

/-- A close leaves the invariant, and one that is not done is pending. -/
theorem CloseInv.close (inv : s.CloseInv) (activity : List Callback) :
    (s.close activity).session.CloseInv ∧
      ((s.close activity).done = false → (s.close activity).session.pendingClose = true) := by
  have spared := s.closing.spared_callbacks activity
  have marked : s.closing.Unfinished := ⟨inv.unfinished.waiting, inv.unfinished.ready⟩
  have processed := marked.ends spared.strand
  rcases s.close_cases activity with
    ⟨_, result⟩ | ⟨_, pending, result⟩ | ⟨_, _, _, result⟩ | ⟨running, _, _, result⟩
  · rw [result]
    have first : Queue.Ends PendingReady s.strand (s.strand.cancel .pendingReadyRead) :=
      .cancel _ (Or.inl rfl)
    have both := first.trans (.cancel _ (Or.inr rfl))
    refine ⟨inv.ends ?_ both rfl rfl, fun done => Bool.noConfusion done⟩
    intro close
    rcases close with other | other <;> cases other
  · rw [result]
    exact ⟨inv, fun _ => pending⟩
  · rw [result]
    exact ⟨processed.doClose, fun done => Bool.noConfusion done⟩
  · rw [result]
    have pending : (s.closing.callbacks activity).pendingClose = true := spared.pendingClose
    have rescheduled : (s.closing.callbacks activity).rescheduleProcessSendQueue.Unfinished :=
      processed.rearm .sendQueue rfl
    exact ⟨rescheduled.armClose (spared.running.trans running) pending, fun _ => pending⟩

theorem CloseInv.same (inv : s.CloseInv) (strand : later.strand = s.strand)
    (running : later.running = s.running) (pendingClose : later.pendingClose = s.pendingClose) :
    later.CloseInv := by
  have still : Queue.Ends (fun _ => False) s.strand later.strand := by
    rw [strand]
    exact .refl _ _
  exact inv.ends id still running pendingClose

/-- A session waits for nothing when it has been made. -/
theorem Fresh.closeInv (fresh : s.Fresh) : s.CloseInv := by
  have open_ : ¬ s.pendingClose = true := by simp [fresh.pendingClose]
  have idle : ∀ wait, wait ∉ s.strand.waiting := by simp [fresh.waiting]
  refine ⟨⟨?_, ?_⟩, fun pending => absurd pending open_, fun pending => absurd pending open_, ?_⟩
  · intro timer operation member
    exact absurd member (idle _)
  · intro operation completion member
    rw [fresh.ready] at member
    cases member
  · intro timer operation member
    exact absurd member (idle _)

theorem CloseInv.runs (inv : s.CloseInv) : CloseInv { s with running := true } where
  unfinished := ⟨inv.unfinished.waiting, inv.unfinished.ready⟩
  running := fun _ => rfl
  armed := inv.armed
  waiters := inv.waiters

theorem CloseInv.dispatch (inv : s.CloseInv) {handler : Handler}
    (unfinished : ∀ operation, handler = .ioOp operation → operation.finished = false) :
    CloseInv { s with strand := s.strand.dispatch handler } where
  unfinished := by
    refine ⟨inv.unfinished.waiting, ?_⟩
    intro operation completion member
    rcases (Queue.mem_ready_dispatch _ _ _).mp member with old | new
    · exact inv.unfinished.ready operation completion old
    · exact unfinished operation (Prod.mk.inj new).1.symm
  running := inv.running
  armed := fun pending => (inv.armed pending).dispatch handler
  waiters := inv.waiters

theorem CloseInv.asyncPendingWait (inv : s.CloseInv) (what : Want) {operation : IoOp}
    (unfinished : operation.finished = false)
    (pending : operation.op = .close → s.pendingClose = true) :
    (s.asyncPendingWait what operation).CloseInv := by
  have added : ∀ timer : Timer,
      CloseInv { s with strand := s.strand.asyncWait timer (.ioOp operation) } := by
    intro timer
    refine ⟨⟨?_, inv.unfinished.ready⟩, inv.running, ?_, ?_⟩
    · intro waited other member
      rcases (Queue.mem_waiting_asyncWait _ _ _ _).mp member with old | new
      · exact inv.unfinished.waiting waited other old
      · cases new
        exact unfinished
    · exact fun closing => (inv.armed closing).asyncWait timer (.ioOp operation)
    · intro waited other member isClose
      rcases (Queue.mem_waiting_asyncWait _ _ _ _).mp member with old | new
      · exact inv.waiters waited other old isClose
      · cases new
        exact pending isClose
  cases what with
  | nothing => exact inv
  | read => exact added .pendingReadyRead
  | write => exact added .pendingReadyWrite
  | close => exact added .pendingReadyClose

end Strand

theorem CloseInv.write {s : Session} (inv : s.CloseInv) (buffer : Buffer) :
    (s.write buffer).session.CloseInv := by
  unfold Session.write
  split
  · exact inv
  · split
    · exact inv
    · split
      · exact inv
      · have filled : CloseInv { s with
            pending := (s.fill buffer).1
            pendingNext := (s.fill buffer).2.1
            pendingUsed := add64 s.pendingUsed buffer.length } := inv.same rfl rfl rfl
        dsimp only
        split
        · exact filled.rearm (by decide) rfl
        · exact filled

end Session

/-- What an operation does to the session, and what it waits for. -/
theorem IoOp.perform_closing {s : Session} (operation : IoOp) (activity : List Callback)
    (inv : s.CloseInv) :
    (operation.perform s activity).session.CloseInv ∧
      (operation.perform s activity).operation.finished = operation.finished ∧
      ((operation.perform s activity).want ≠ .nothing →
        (operation.perform s activity).operation.op = .close →
          (operation.perform s activity).session.pendingClose = true) := by
  unfold IoOp.perform
  split
  · rename_i buffer isRead
    have kept := s.read_closing buffer
    refine ⟨inv.same (s.strand_read buffer) kept.1.1 kept.2, rfl, ?_⟩
    intro _ isClose
    cases isClose
  · rename_i buffer isWrite
    refine ⟨inv.write buffer, rfl, ?_⟩
    intro _ isClose
    rw [isWrite] at isClose
    cases isClose
  · have closed := inv.close activity
    refine ⟨closed.1, rfl, ?_⟩
    intro waits _
    apply closed.2
    cases done : (s.close activity).done with
    | false => rfl
    | true => simp [done] at waits

/-- Only close operations call the close handler. -/
theorem IoOp.notifies_perform (operation : IoOp) (s : Session) (activity : List Callback) :
    (operation.op ≠ .close ∧ s.Silent (operation.perform s activity).session) ∨
      (operation.op = .close ∧
        ((s.Silent (operation.perform s activity).session ∧ s.running = true) ∨
          s.Notified (operation.perform s activity).session)) := by
  unfold IoOp.perform
  split
  · rename_i buffer isRead
    rw [isRead]
    exact Or.inl ⟨by simp, (s.read_closing buffer).1⟩
  · rename_i buffer isWrite
    rw [isWrite]
    exact Or.inl ⟨by simp, s.silent_write buffer⟩
  · rename_i isClose
    rw [isClose]
    exact Or.inr ⟨rfl, s.notifies_close activity⟩

/-- What holds of a started session in every run. -/
structure ServiceInv (service : Service) : Prop where
  close : service.session.CloseInv
  posted : ∀ operation ∈ service.posted, operation.finished = true
  accounted : service.tickets.Perm service.begun
  counted : service.callsAtStart ≤ service.session.closeHandlerCalls
  running : service.session.running = true →
    service.session.closeHandlerCalls = service.callsAtStart
  stopped : service.session.running = false →
    service.callsAtStart < service.session.closeHandlerCalls

namespace Service

/-- The step runs `do_close` without an error, or `close`. -/
def Closes (service : Service) : ServiceAction → Bool
  | .run index activity =>
      match service.session.strand.ready[index]? with
      | some (.processSendQueue, .success) =>
          ((service.take index).session.callbacks activity).final
      | some (.doClose, .success) => true
      | some (.ioOp operation, _) => operation.op = .close
      | _ => false
  | .beginInside _ op _ => op = .close
  | _ => false

/-- Closing steps are only taken while the session runs. -/
def ClosesRunning (service : Service) (action : ServiceAction) : Prop :=
  service.Possible action ∧ (service.Closes action = true → service.session.running = true)

instance (service : Service) (action : ServiceAction) :
    Decidable (service.ClosesRunning action) :=
  inferInstanceAs (Decidable (service.Possible action ∧
    (service.Closes action = true → service.session.running = true)))

/-- How a step that is no `start` bears on the close handler. -/
structure Notifies (service later : Service) (closes : Bool) : Prop where
  callsAtStart : later.callsAtStart = service.callsAtStart
  once : service.session.Silent later.session ∨ service.session.Notified later.session
  silent : closes = false → service.session.Silent later.session
  notified : closes = true → service.session.running = false →
    service.session.Notified later.session

theorem Notifies.of_silent {service later : Service}
    (callsAtStart : later.callsAtStart = service.callsAtStart)
    (silent : service.session.Silent later.session) : Notifies service later false :=
  ⟨callsAtStart, Or.inl silent, fun _ => silent, fun closes => Bool.noConfusion closes⟩

theorem closeInv_call {service : Service} {operation : IoOp} (start : Bool)
    (activity : List Callback) (inv : service.session.CloseInv)
    (unfinished : operation.finished = false) :
    (service.call operation start activity).session.CloseInv := by
  obtain ⟨kept, same, waits⟩ := operation.perform_closing activity inv
  simp only [call, unfinished, Bool.not_false, ↓reduceIte]
  split
  · rename_i waiting
    exact kept.asyncPendingWait _ (same.trans unfinished) (waits waiting)
  · split <;> exact kept

theorem posted_call {service : Service} (operation : IoOp) (start : Bool)
    (activity : List Callback) (posted : ∀ other ∈ service.posted, other.finished = true) :
    ∀ other ∈ (service.call operation start activity).posted, other.finished = true := by
  simp only [call]
  split
  · split
    · exact posted
    · split
      · intro other member
        rcases List.mem_append.mp member with old | new
        · exact posted other old
        · rw [List.mem_singleton.mp new]
      · exact posted
  · exact posted

theorem notifies_call (service : Service) (operation : IoOp) (start : Bool)
    (activity : List Callback) (unfinished : operation.finished = false) :
    Notifies service (service.call operation start activity) (operation.op = .close) := by
  have left : (service.call operation start activity).session.running =
      (operation.perform service.session activity).session.running ∧
      (service.call operation start activity).session.closeHandlerCalls =
        (operation.perform service.session activity).session.closeHandlerCalls := by
    simp only [call, unfinished, Bool.not_false, ↓reduceIte]
    split
    · exact Session.silent_asyncPendingWait _ _ _
    · split <;> exact ⟨rfl, rfl⟩
  have records := service.records_call operation start activity
  rcases operation.notifies_perform service.session activity with
    ⟨other, silent⟩ | ⟨isClose, ⟨silent, running⟩ | notified⟩
  · have moved : service.session.Silent (service.call operation start activity).session :=
      ⟨left.1.trans silent.1, left.2.trans silent.2⟩
    exact ⟨records.2, Or.inl moved, fun _ => moved, fun closes => by simp [other] at closes⟩
  · have moved : service.session.Silent (service.call operation start activity).session :=
      ⟨left.1.trans silent.1, left.2.trans silent.2⟩
    refine ⟨records.2, Or.inl moved, fun _ => moved, ?_⟩
    intro _ stopped
    rw [running] at stopped
    cases stopped
  · have moved : service.session.Notified (service.call operation start activity).session :=
      ⟨left.1.trans notified.1, left.2.trans notified.2⟩
    exact ⟨records.2, Or.inr moved, fun closes => by simp [isClose] at closes, fun _ _ => moved⟩

theorem Notifies.after_take {service later : Service} {closes : Bool} (index : Nat)
    (notifies : Notifies (service.take index) later closes) : Notifies service later closes :=
  ⟨notifies.callsAtStart, notifies.once, notifies.silent, notifies.notified⟩

theorem notifies_run {service : Service} (inv : service.session.CloseInv) (index : Nat)
    (activity : List Callback) :
    Notifies service (service.run index activity) (service.Closes (.run index activity)) := by
  simp only [run, Closes]
  cases located : service.session.strand.ready[index]? with
  | none => exact .of_silent rfl ⟨rfl, rfl⟩
  | some due =>
      obtain ⟨handler, completion⟩ := due
      apply Notifies.after_take index
      cases handler with
      | processSendQueue =>
          cases completion with
          | aborted => exact .of_silent rfl ⟨rfl, rfl⟩
          | success =>
              rcases (service.take index).session.notifies_handleProcessSendQueue activity with
                ⟨final, notified⟩ | ⟨final, silent⟩
              · dsimp only
                rw [final]
                exact ⟨rfl, Or.inr notified, fun closes => Bool.noConfusion closes,
                  fun _ _ => notified⟩
              · dsimp only
                rw [final]
                exact .of_silent rfl silent
      | doClose =>
          cases completion with
          | aborted => exact .of_silent rfl ⟨rfl, rfl⟩
          | success =>
              have notified := (service.take index).session.notified_doClose
              exact ⟨rfl, Or.inr notified, fun closes => Bool.noConfusion closes,
                fun _ _ => notified⟩
      | ioOp operation =>
          have unfinished := inv.unfinished.ready operation completion
            (List.mem_of_getElem? located)
          exact notifies_call _ operation false activity unfinished

theorem unfinished_take {service : Service} (index : Nat)
    (unfinished : service.session.Unfinished) : (service.take index).session.Unfinished where
  waiting := unfinished.waiting
  ready := fun operation completion member =>
    unfinished.ready operation completion (Queue.mem_of_mem_take member)

theorem closeInv_take {service : Service} {index : Nat} {due : Handler × Completion}
    (inv : service.session.CloseInv) (located : service.session.strand.ready[index]? = some due)
    (other : due ≠ (.doClose, .success)) : (service.take index).session.CloseInv where
  unfinished := unfinished_take index inv.unfinished
  running := inv.running
  armed := fun pending => (inv.armed pending).take located other
  waiters := inv.waiters

theorem closeInv_run {service : Service} (inv : service.session.CloseInv) (index : Nat)
    (activity : List Callback) : (service.run index activity).session.CloseInv := by
  simp only [run]
  cases located : service.session.strand.ready[index]? with
  | none => exact inv
  | some due =>
      obtain ⟨handler, completion⟩ := due
      cases handler with
      | processSendQueue =>
          exact (closeInv_take inv located (by simp)).handleProcessSendQueue _ activity
      | doClose =>
          cases completion with
          | aborted => exact (closeInv_take inv located (by simp)).doClose .operationAborted
          | success => exact (unfinished_take index inv.unfinished).doClose
      | ioOp operation =>
          have unfinished := inv.unfinished.ready operation completion
            (List.mem_of_getElem? located)
          exact closeInv_call false activity (closeInv_take inv located (by simp)) unfinished

theorem closeInv_expire {service : Service} (inv : service.session.CloseInv) (timer : Timer) :
    (service.next (.expire timer)).session.CloseInv where
  unfinished := by
    constructor
    · intro waited operation member
      exact inv.unfinished.waiting waited operation
        ((Queue.mem_waiting_finish _ _ _ _).mp member).1
    · intro operation completion member
      rcases (Queue.mem_ready_finish _ _ _ _).mp member with old | ⟨_, waited⟩
      · exact inv.unfinished.ready operation completion old
      · exact inv.unfinished.waiting timer operation waited
  running := inv.running
  armed := fun pending => (inv.armed pending).expire timer
  waiters := fun waited operation member =>
    inv.waiters waited operation ((Queue.mem_waiting_finish _ _ _ _).mp member).1

theorem closeInv_start {s : Session} (inv : s.CloseInv) : s.start.CloseInv := by
  apply inv.runs.dispatch
  intro operation isOperation
  cases isOperation

theorem closeInv_callOutside (service : Service) (inv : service.session.CloseInv)
    (operation : IoOp) : (service.callOutside operation).session.CloseInv := by
  simp only [callOutside]
  split
  · rename_i begins
    have unfinished : operation.finished = false := by simpa using begins
    apply inv.dispatch
    intro other isOperation
    cases isOperation
    exact unfinished
  · exact inv

end Service

namespace ServiceInv

variable {service : Service}

theorem initial {session : Session} (fresh : session.Fresh) :
    ServiceInv (Service.started session) where
  close := Service.closeInv_start fresh.closeInv
  posted := by
    intro operation member
    cases member
  accounted := by
    have none_ : (Service.started session).tickets = [] := by
      simp [Service.tickets, Service.outstanding, Service.started, Session.operations,
        Session.start, Queue.handlers, Queue.dispatch, fresh.waiting, fresh.ready, Handler.asIoOp]
    rw [none_]
    exact List.Perm.refl _
  counted := Nat.zero_le _
  running := fun _ => fresh.closeHandlerCalls
  stopped := by
    intro stopped
    cases stopped

/-- Steps other than `start`. -/
theorem of_notifies (inv : ServiceInv service) {later : Service} {closes : Bool}
    (notifies : Service.Notifies service later closes) (close : later.session.CloseInv)
    (posted : ∀ operation ∈ later.posted, operation.finished = true)
    (accounted : later.tickets.Perm later.begun) : ServiceInv later := by
  have counted := inv.counted
  rcases notifies.once with ⟨running, calls⟩ | ⟨stopped, calls⟩
  · refine ⟨close, posted, accounted, ?_, ?_, ?_⟩
    · rw [notifies.callsAtStart, calls]
      exact counted
    · rw [notifies.callsAtStart, calls, running]
      exact inv.running
    · rw [notifies.callsAtStart, calls, running]
      exact inv.stopped
  · refine ⟨close, posted, accounted, ?_, ?_, ?_⟩
    · rw [notifies.callsAtStart, calls]
      omega
    · intro runs
      rw [stopped] at runs
      cases runs
    · rw [notifies.callsAtStart, calls]
      omega

theorem notifies (inv : ServiceInv service) (action : ServiceAction)
    (starts : action.starts = false) :
    Service.Notifies service (service.next action) (service.Closes action) := by
  cases action with
  | start => cases starts
  | startInside activity => cases starts
  | receive activity => exact .of_silent rfl (service.session.silent_callbacks activity)
  | beginOutside handler op => exact .of_silent rfl ⟨rfl, rfl⟩
  | beginInside handler op activity =>
      have called := (service.noted handler op).notifies_call (service.opened handler op)
        true activity rfl
      exact ⟨called.callsAtStart, called.once, called.silent, called.notified⟩
  | expire timer => exact .of_silent rfl ⟨rfl, rfl⟩
  | run index activity => exact Service.notifies_run inv.close index activity
  | runPosted index =>
      have silent : service.session.Silent (service.runPosted index).session := by
        simp only [Service.runPosted, Service.callOutside]
        split
        · split <;> exact ⟨rfl, rfl⟩
        · exact ⟨rfl, rfl⟩
      exact .of_silent (service.records_runPosted index).2 silent

theorem posted_next (inv : ServiceInv service) (action : ServiceAction) :
    ∀ operation ∈ (service.next action).posted, operation.finished = true := by
  cases action with
  | start => exact inv.posted
  | startInside activity => exact inv.posted
  | receive activity => exact inv.posted
  | beginOutside handler op => exact inv.posted
  | beginInside handler op activity => exact Service.posted_call _ true activity inv.posted
  | expire timer => exact inv.posted
  | run index activity =>
      simp only [Service.next, Service.run]
      split
      · rename_i due located
        cases handler : due.1 with
        | processSendQueue => exact inv.posted
        | doClose => exact inv.posted
        | ioOp operation => exact Service.posted_call _ false activity inv.posted
      · exact inv.posted
  | runPosted index =>
      simp only [Service.next, Service.runPosted, Service.callOutside]
      split
      · split <;> exact fun operation member =>
          inv.posted operation (List.mem_of_mem_eraseIdx member)
      · exact inv.posted

theorem close_next (inv : ServiceInv service) (action : ServiceAction) :
    (service.next action).session.CloseInv := by
  cases action with
  | start => exact Service.closeInv_start inv.close
  | startInside activity =>
      exact inv.close.runs.handleProcessSendQueue .success activity
  | receive activity => exact inv.close.spared (service.session.spared_callbacks activity)
  | beginOutside handler op =>
      exact Service.closeInv_callOutside (service.noted handler op) inv.close _
  | beginInside handler op activity => exact Service.closeInv_call true activity inv.close rfl
  | expire timer => exact Service.closeInv_expire inv.close timer
  | run index activity => exact Service.closeInv_run inv.close index activity
  | runPosted index =>
      simp only [Service.next, Service.runPosted]
      split
      · apply Service.closeInv_callOutside
        exact inv.close
      · exact inv.close

theorem next (inv : ServiceInv service) (action : ServiceAction) :
    ServiceInv (service.next action) := by
  have close := inv.close_next action
  have posted := inv.posted_next action
  have accounted := Service.tickets_next action inv.accounted
  cases starts : action.starts with
  | false => exact inv.of_notifies (inv.notifies action starts) close posted accounted
  | true =>
      rcases ServiceAction.starts_cases starts with rfl | ⟨activity, rfl⟩
      · exact ⟨close, posted, accounted, Nat.le_refl _, fun _ => rfl,
          fun stopped => Bool.noConfusion stopped⟩
      · have runs := Session.notifies_handleProcessSendQueue
          { service.session with running := true } activity
        rcases runs with ⟨_, stopped, calls⟩ | ⟨_, running, calls⟩
        · refine ⟨close, posted, accounted, ?_, ?_, ?_⟩
          · exact Nat.le_of_lt (calls ▸ Nat.lt_succ_self _)
          · intro running
            exact Bool.noConfusion (stopped.symm.trans running)
          · intro _
            exact calls ▸ Nat.lt_succ_self _
        · refine ⟨close, posted, accounted, Nat.le_of_eq calls.symm, fun _ => calls, ?_⟩
          intro stopped
          exact Bool.noConfusion (running.symm.trans stopped)

end ServiceInv

/-- What the io_service does by itself: it ends waits and runs handlers, and no
handler finds anything for libcurvecpr to do. -/
def ServiceAction.internal : ServiceAction → Bool
  | .expire _ => true
  | .run _ activity => activity.isEmpty
  | .runPosted _ => true
  | _ => false

namespace Service

/-- The io_service by itself can reach the completion of the operation. -/
def CompletesAlone (service : Service) (operation : IoOp) : Prop :=
  ∃ actions finished, (∀ action ∈ actions, action.internal = true) ∧
    AllMet Service.next Service.Possible service actions ∧
    (actions.foldl Service.next service).completed = service.completed ++ [finished] ∧
    finished.label = operation.label

/-- The close handler has been called at most once since the last `start`, every
operation begun is completed or outstanding and counted once, and no close
operation is stranded. -/
structure NotifiesOnce (service : Service) : Prop where
  calls : service.callsSinceStart ≤ 1
  accounted : service.tickets.Perm service.begun
  completes : ∀ operation ∈ service.outstanding, operation.op = .close →
    service.CompletesAlone operation

section Completes

variable {service : Service} {operation : IoOp}

theorem CompletesAlone.step (action : ServiceAction) (internal : action.internal = true)
    (possible : service.Possible action)
    (completed : (service.next action).completed = service.completed)
    (later : (service.next action).CompletesAlone operation) :
    service.CompletesAlone operation := by
  obtain ⟨actions, finished, alone, met, ends, same⟩ := later
  refine ⟨action :: actions, finished, ?_, ⟨possible, met⟩, ?_, same⟩
  · intro other member
    rcases List.mem_cons.mp member with rfl | rest
    · exact internal
    · exact alone other rest
  · rw [← completed]
    exact ends

theorem CompletesAlone.now (action : ServiceAction) {finished : IoOp}
    (internal : action.internal = true) (possible : service.Possible action)
    (completed : (service.next action).completed = service.completed ++ [finished])
    (same : finished.label = operation.label) : service.CompletesAlone operation := by
  refine ⟨[action], finished, ?_, ⟨possible, trivial⟩, completed, same⟩
  intro other member
  rw [List.mem_singleton.mp member]
  exact internal

theorem mem_operations {s : Session} :
    operation ∈ s.operations ↔ (∃ timer, (timer, Handler.ioOp operation) ∈ s.strand.waiting) ∨
      ∃ completion, (Handler.ioOp operation, completion) ∈ s.strand.ready := by
  rw [← Queue.mem_handlers, Session.operations, List.mem_filterMap]
  constructor
  · rintro ⟨handler, member, isIoOp⟩
    cases handler <;> cases isIoOp
    exact member
  · intro member
    exact ⟨_, member, rfl⟩

theorem completes_posted (inv : ServiceInv service) (posted : operation ∈ service.posted) :
    service.CompletesAlone operation := by
  obtain ⟨index, located⟩ := List.mem_iff_getElem?.mp posted
  have finished := inv.posted operation posted
  have runs : (service.next (.runPosted index)).completed = service.completed ++ [operation] := by
    simp [Service.next, runPosted, located, callOutside, finished, callHandler]
  exact .now (.runPosted index) rfl trivial runs rfl

theorem run_close {index : Nat} {completion : Completion} (activity : List Callback)
    (located : service.session.strand.ready[index]? = some (.ioOp operation, completion))
    (unfinished : operation.finished = false) (isClose : operation.op = .close) :
    service.next (.run index activity) =
      let result := (service.take index).session.close activity
      if result.done then
        { service.take index with session := result.session }.callHandler
          { operation with finished := true }
      else
        { service.take index with
          session := result.session.asyncPendingWait .close operation } := by
  simp only [Service.next, run, located, dispatched, call, unfinished, IoOp.perform, isClose]
  cases ((service.take index).session.close activity).done <;> simp

/-- A close operation that runs once the session has been closed is done. -/
theorem completes_stopped (inv : ServiceInv service) {completion : Completion}
    (due : (Handler.ioOp operation, completion) ∈ service.session.strand.ready)
    (isClose : operation.op = .close) (stopped : service.session.running = false) :
    service.CompletesAlone operation := by
  obtain ⟨index, located⟩ := List.mem_iff_getElem?.mp due
  have unfinished := inv.close.unfinished.ready operation completion due
  have still : (service.take index).session.running = false := stopped
  have runs : (service.next (.run index [])).completed =
      service.completed ++ [{ operation with finished := true }] := by
    rw [run_close [] located unfinished isClose]
    simp only [Session.close, still, Bool.not_false, ↓reduceIte]
    rfl
  exact .now (.run index []) rfl trivial runs rfl

/-- `do_close` wakes the close operations, and they find the session stopped. -/
theorem completes_due (inv : ServiceInv service) (held : operation ∈ service.session.operations)
    (isClose : operation.op = .close)
    (due : (Handler.doClose, Completion.success) ∈ service.session.strand.ready) :
    service.CompletesAlone operation := by
  obtain ⟨index, located⟩ := List.mem_iff_getElem?.mp due
  have runs : service.next (.run index []) =
      { service.take index with session := (service.take index).session.doClose .success } := by
    simp [Service.next, run, located, dispatched, errorOf]
  have closed := inv.next (.run index [])
  have taken := (service.session.strand.handlers_take located).filterMap Handler.asIoOp
  have stays : operation ∈ (service.next (.run index [])).session.operations := by
    rw [runs]
    exact (Session.operations_doClose _ _).mem_iff.mpr (taken.mem_iff.mp held)
  rcases mem_operations.mp stays with ⟨timer, waits⟩ | ⟨completion, ready⟩
  · rw [runs, Session.waiting_doClose] at waits
    cases waits
  · have stopped : (service.next (.run index [])).session.running = false := by
      rw [runs]
      rfl
    exact .step (.run index []) rfl trivial (by rw [runs]; rfl)
      (completes_stopped closed ready isClose stopped)

theorem completes_armed (inv : ServiceInv service)
    (held : operation ∈ service.session.operations) (isClose : operation.op = .close)
    (armed : service.session.strand.Armed .close .doClose) : service.CompletesAlone operation := by
  rcases armed with waits | due
  · have kept := (Queue.handlers_finish service.session.strand .close .success).filterMap
      Handler.asIoOp
    have expired : (Handler.doClose, Completion.success) ∈
        (service.next (.expire .close)).session.strand.ready :=
      (Queue.mem_ready_finish _ _ _ _).mpr (Or.inr ⟨rfl, waits⟩)
    have later := completes_due (inv.next (.expire .close)) (kept.mem_iff.mpr held) isClose expired
    exact .step (.expire .close) rfl (Or.inr rfl) rfl later
  · exact completes_due inv held isClose due

/-- A close operation that is due completes, or waits for a close that has a timer. -/
theorem completes_ready (inv : ServiceInv service) {completion : Completion}
    (due : (Handler.ioOp operation, completion) ∈ service.session.strand.ready)
    (isClose : operation.op = .close) : service.CompletesAlone operation := by
  obtain ⟨index, located⟩ := List.mem_iff_getElem?.mp due
  have unfinished := inv.close.unfinished.ready operation completion due
  have taken := closeInv_take inv.close located (by simp)
  have closes := taken.close []
  have runs := run_close [] located unfinished isClose
  cases done : ((service.take index).session.close []).done with
  | true =>
      simp only [done, ↓reduceIte] at runs
      exact .now (.run index []) rfl trivial (congrArg completed runs) rfl
  | false =>
      simp only [done, Bool.false_eq_true, ↓reduceIte] at runs
      have held : operation ∈ (service.next (.run index [])).session.operations := by
        rw [runs]
        apply (Session.operations_asyncPendingWait _ operation (by decide)).mem_iff.mpr
        exact List.mem_cons_self
      have pending : (service.next (.run index [])).session.pendingClose = true := by
        rw [runs]
        exact closes.2 done
      have waiting := inv.next (.run index [])
      exact .step (.run index []) rfl trivial (by rw [runs]; rfl)
        (completes_armed waiting held isClose (waiting.close.armed pending))

theorem completes (inv : ServiceInv service) (outstanding : operation ∈ service.outstanding)
    (isClose : operation.op = .close) : service.CompletesAlone operation := by
  rcases List.mem_append.mp outstanding with held | posted
  · rcases mem_operations.mp held with ⟨timer, waits⟩ | ⟨completion, due⟩
    · have pending := inv.close.waiters timer operation waits isClose
      exact completes_armed inv held isClose (inv.close.armed pending)
    · exact completes_ready inv due isClose
  · exact completes_posted inv posted

end Completes

/-- A step calls the close handler a second time exactly when it closes a session
that does not run. -/
theorem closesRunning_iff {service : Service} {action : ServiceAction} (inv : ServiceInv service)
    (once : service.NotifiesOnce) (possible : service.Possible action) :
    service.ClosesRunning action ↔ (service.next action).NotifiesOnce := by
  have after := inv.next action
  have calls := once.calls
  have enough : (service.next action).callsSinceStart ≤ 1 → (service.next action).NotifiesOnce :=
    fun calls => ⟨calls, after.accounted, fun _ outstanding => completes after outstanding⟩
  cases starts : action.starts with
  | true =>
      have ends : (service.next action).callsSinceStart ≤ 1 := by
        rcases ServiceAction.starts_cases starts with rfl | ⟨activity, rfl⟩
        · simp [callsSinceStart, Service.next, Session.start]
        · have runs := Session.notifies_handleProcessSendQueue
            { service.session with running := true } activity
          rcases runs with ⟨_, _, calls⟩ | ⟨_, _, calls⟩
          · exact Nat.sub_le_iff_le_add'.mpr (Nat.le_of_eq calls)
          · exact Nat.sub_le_iff_le_add'.mpr (Nat.le_succ_of_le (Nat.le_of_eq calls))
      have open_ : service.Closes action = false := by
        rcases ServiceAction.starts_cases starts with rfl | ⟨activity, rfl⟩ <;> rfl
      exact ⟨fun _ => enough ends, fun _ => ⟨possible, fun closes => by simp [open_] at closes⟩⟩
  | false =>
      have notifies := inv.notifies action starts
      have running := inv.running
      have stopped := inv.stopped
      unfold callsSinceStart at calls enough
      rw [notifies.callsAtStart] at enough
      constructor
      · intro met
        apply enough
        rcases notifies.once with ⟨_, silent⟩ | ⟨_, notified⟩
        · omega
        · cases runs : service.session.running with
          | true =>
              have none_ := running runs
              omega
          | false =>
              cases closes : service.Closes action with
              | true => exact absurd (met.2 closes) (by simp [runs])
              | false =>
                  have silent := (notifies.silent closes).2
                  omega
      · intro after
        refine ⟨possible, ?_⟩
        intro closes
        cases runs : service.session.running with
        | true => rfl
        | false =>
            have notified := (notifies.notified closes runs).2
            have already := stopped runs
            have few := after.calls
            simp only [callsSinceStart, notifies.callsAtStart] at few
            omega

end Service

/-- Along a run of a started session the close handler is called once between two
starts, and every close operation completes once, exactly when closing steps are
only taken while the session runs. -/
theorem close_notifies_once {session : Session} (fresh : session.Fresh)
    {actions : List ServiceAction}
    (possible : AllMet Service.next Service.Possible (Service.started session) actions) :
    AllMet Service.next Service.ClosesRunning (Service.started session) actions ↔
      ∀ count,
        ((actions.take count).foldl Service.next (Service.started session)).NotifiesOnce := by
  have inv := ServiceInv.initial fresh
  have none_ : (Service.started session).callsSinceStart = 0 := fresh.closeHandlerCalls
  have initial : (Service.started session).NotifiesOnce :=
    ⟨by omega, inv.accounted, fun _ outstanding => Service.completes inv outstanding⟩
  have kept : ∀ service action, ServiceInv service → service.Possible action →
      service.ClosesRunning action → ServiceInv (service.next action) :=
    fun _ action inv _ _ => inv.next action
  apply AllMet.iff_always kept _ inv initial possible
  intro service action inv once possible
  exact Service.closesRunning_iff inv once possible

/-- Both sides are final when the first close operation runs, so it closes the session.
The session is started again; the second close operation waits until the close timer
fires, and is yet to run again. -/
def restartSchedule : List ServiceAction :=
  [.run 0 [], .receive [.messager { myFinal := true, theirFinal := true }],
    .beginInside 1 .close [], .runPosted 0, .receive [.messager {}], .start, .run 1 [],
    .run 0 [], .beginInside 2 .close [], .expire .close, .run 1 []]

theorem close_notifies_once_restarted :
    let states := fun count =>
      (restartSchedule.take count).foldl Service.next (Service.started {})
    (∀ count, (states count).NotifiesOnce) ∧
      (states 4).callsSinceStart = 1 ∧ (states 4).completed.map IoOp.handler = [1] ∧
      (states 9).callsSinceStart = 0 ∧
        (states 9).session.strand.waitsOn .pendingReadyClose =
          [.ioOp { handler := 2, op := .close, identity := 1 }] ∧
      (states 11).callsSinceStart = 1 ∧ (states 11).outstanding.map IoOp.handler = [2] :=
  ⟨(close_notifies_once (Session.fresh_configured _ _ _) (by decide)).mp (by decide),
    by decide, by decide, by decide, by decide, by decide, by decide⟩

/-- The close timer fires, and the close operation that `do_close` wakes calls the
close handler again. -/
def wokenSchedule : List ServiceAction :=
  [.run 0 [], .beginInside 1 .close [], .expire .close, .run 0 [], .run 0 [], .run 1 []]

theorem close_notifies_twice :
    ¬ ∀ (session : Session) (actions : List ServiceAction), session.Fresh →
      AllMet Service.next Service.Possible (Service.started session) actions →
      ∀ count,
        ((actions.take count).foldl Service.next (Service.started session)).NotifiesOnce := by
  intro claimed
  have once := claimed {} wokenSchedule (Session.fresh_configured _ _ _) (by decide) 6
  exact absurd once.calls (by decide)

end CurvecprAsio
