import CurvecprAsio.Client

set_option autoImplicit false

/- What is left to run on the strand of a session once it has been closed. -/
namespace CurvecprAsio

open Strand Transition

/-- The send queue's handler is due, without an error. -/
def Session.SendQueueDue (s : Session) : Prop :=
  (Handler.processSendQueue, Completion.success) ∈ s.strand.ready

/-- The session does not run, and nothing on its strand processes the send queue. -/
structure Session.Quiet (s : Session) : Prop where
  running : s.running = false
  idle : ¬ s.SendQueueDue
  unarmed : ∀ wait ∈ s.strand.waiting, wait.1 ≠ .sendQueue ∧ wait.2 ≠ .processSendQueue

instance (s : Session) : Decidable s.SendQueueDue :=
  inferInstanceAs (Decidable ((Handler.processSendQueue, Completion.success) ∈ s.strand.ready))

namespace Session

variable {s later : Session}

theorem sendQueueDue_ends {touched : Timer → Prop}
    (ends : Queue.Ends touched s.strand later.strand) : later.SendQueueDue ↔ s.SendQueueDue := by
  constructor
  · intro due
    rcases ends.ended _ due with old | ⟨aborted, _⟩
    · exact old
    · cases aborted
  · exact ends.due _

namespace Quiet

theorem ends (quiet : s.Quiet) {touched : Timer → Prop} (running : later.running = s.running)
    (ends : Queue.Ends touched s.strand later.strand) : later.Quiet where
  running := running.trans quiet.running
  idle := fun due => quiet.idle ((sendQueueDue_ends ends).mp due)
  unarmed := fun wait member => quiet.unarmed wait (ends.waits wait member)

theorem same (quiet : s.Quiet) (running : later.running = s.running)
    (strand : later.strand = s.strand) : later.Quiet := by
  apply quiet.ends running
  rw [strand]
  exact Queue.Ends.refl PendingReady s.strand

theorem callbacks (quiet : s.Quiet) (activity : List Callback) : (s.callbacks activity).Quiet :=
  quiet.ends (s.spared_callbacks activity).running (s.spared_callbacks activity).strand

theorem of_doClose (s : Session) (idle : ¬ s.SendQueueDue) : (s.doClose .success).Quiet where
  running := rfl
  idle := fun due => idle ((sendQueueDue_ends s.ends_doClose).mp due)
  unarmed := by
    rw [waiting_doClose]
    intro wait member
    cases member

theorem dispatch (quiet : s.Quiet) (operation : IoOp) :
    Quiet { s with strand := s.strand.dispatch (.ioOp operation) } where
  running := quiet.running
  idle := by
    intro due
    rcases (Queue.mem_ready_dispatch _ _ _).mp due with old | new
    · exact quiet.idle old
    · cases new
  unarmed := quiet.unarmed

theorem asyncPendingWait (quiet : s.Quiet) (what : Want) (operation : IoOp) :
    (s.asyncPendingWait what operation).Quiet := by
  have added : ∀ timer, timer ≠ .sendQueue →
      Quiet { s with strand := s.strand.asyncWait timer (.ioOp operation) } := by
    intro timer apart
    refine ⟨quiet.running, quiet.idle, ?_⟩
    intro wait member
    rcases (Queue.mem_waiting_asyncWait _ _ _ _).mp member with old | rfl
    · exact quiet.unarmed wait old
    · exact ⟨apart, by simp⟩
  cases what with
  | nothing => exact quiet
  | read => exact added _ (by decide)
  | write => exact added _ (by decide)
  | close => exact added _ (by decide)

theorem perform (quiet : s.Quiet) (operation : IoOp) (activity : List Callback) :
    (operation.perform s activity).session.Quiet := by
  have stopped := quiet.running
  unfold IoOp.perform
  split
  · rename_i buffer _
    exact quiet.same (s.read_closing buffer).1.1 (s.strand_read buffer)
  · apply quiet.same
    · exact (s.silent_write _).1
    · unfold Session.write
      simp only [stopped, Bool.false_eq_true, ↓reduceIte]
      split
      · rfl
      · split
        · rfl
        · split <;> rfl
  · have reads : Queue.Ends PendingReady s.strand (s.strand.cancel .pendingReadyRead) :=
      .cancel _ (Or.inl rfl)
    simp only [Session.close, stopped, Bool.not_false, ↓reduceIte]
    exact quiet.ends stopped.symm (reads.trans (.cancel _ (Or.inr rfl)))

end Quiet

end Session

namespace Service

/-- The step calls `curvecpr_messager_process_sendq`. -/
def Processes (service : Service) (action : ServiceAction) : Bool :=
  (match action with
    | .startInside _ => true
    | .run index _ =>
        service.session.strand.ready[index]? = some (.processSendQueue, .success)
    | _ => false) ||
    match service.called action with
    | some (operation, _) =>
        operation.op = .close && (service.found action).running &&
          !(service.found action).pendingClose
    | none => false

/-- A step that does not start the session. -/
def Unstarted (service : Service) (action : ServiceAction) : Prop :=
  service.Possible action ∧ action.starts = false

/-- The session does not run, its send-queue timer is not armed, and only a start
would process the send queue. -/
structure Closed (service : Service) : Prop where
  running : service.session.running = false
  unarmed : ∀ wait ∈ service.session.strand.waiting, wait.1 ≠ .sendQueue
  unprocessed : ∀ action, service.Unstarted action → service.Processes action = false

variable {service : Service} {action : ServiceAction}

/-- An effective close of a session whose two sides are final closes it at once. -/
theorem session_call_final (service : Service) {operation : IoOp} (start : Bool)
    {activity : List Callback} (unfinished : operation.finished = false)
    (isClose : operation.op = .close) (running : service.session.running = true)
    (open_ : service.session.pendingClose = false)
    (final : (service.session.closing.callbacks activity).final = true) :
    (service.call operation start activity).session =
      (service.session.closing.callbacks activity).doClose .success := by
  rw [session_call service operation start activity unfinished]
  unfold IoOp.perform
  rw [isClose]
  rcases service.session.close_cases activity with
    ⟨stopped, _⟩ | ⟨_, closing, _⟩ | ⟨_, _, _, result⟩ | ⟨_, _, unfinal, _⟩
  · exact Bool.noConfusion (running.symm.trans stopped)
  · exact Bool.noConfusion (open_.symm.trans closing)
  · simp only [result, ↓reduceIte, Session.asyncPendingWait]
  · exact Bool.noConfusion (final.symm.trans unfinal)

theorem doesClose_session (closes : service.DoesClose action = true) :
    ∃ (s : Session) (activity : List Callback), s.strand = (service.found action).strand ∧
      s.closeHandlerCalls = service.session.closeHandlerCalls ∧
      (service.next action).session = (s.callbacks activity).doClose .success := by
  have processed : ∀ (s : Session) (activity : List Callback),
      (s.callbacks activity).final = true →
        s.handleProcessSendQueue .success activity = (s.callbacks activity).doClose .success :=
    fun s activity final => by simp [Session.handleProcessSendQueue, final]
  cases action with
  | startInside activity =>
      simp only [DoesClose, finishes, called, Bool.or_false] at closes
      exact ⟨{ service.session with running := true }, activity, rfl, rfl,
        processed _ activity closes⟩
  | beginInside handler op activity =>
      simp only [DoesClose, finishes, called, found, Bool.false_or, Bool.and_eq_true,
        decide_eq_true_eq, Bool.not_eq_eq_eq_not, Bool.not_true] at closes
      obtain ⟨⟨⟨isClose, running⟩, open_⟩, final⟩ := closes
      exact ⟨service.session.closing, activity, rfl, rfl,
        session_call_final (service.noted handler op) true rfl isClose running open_ final⟩
  | run index activity =>
      simp only [DoesClose, finishes, called, found] at closes
      simp only [next, run, found]
      cases located : service.session.strand.ready[index]? with
      | none => simp [located] at closes
      | some due =>
          obtain ⟨handler, completion⟩ := due
          simp only [located] at closes
          cases handler with
          | processSendQueue =>
              cases completion with
              | aborted => simp at closes
              | success =>
                  simp only [Bool.or_false] at closes
                  exact ⟨_, activity, rfl, rfl, processed _ activity closes⟩
          | doClose =>
              cases completion with
              | aborted => simp at closes
              | success => exact ⟨_, [], rfl, rfl, rfl⟩
          | ioOp operation =>
              cases finished : operation.finished with
              | true => simp [finished] at closes
              | false =>
                  simp only [finished, Bool.false_eq_true, ↓reduceIte, Bool.false_or,
                    Bool.and_eq_true, decide_eq_true_eq, Bool.not_eq_eq_eq_not,
                    Bool.not_true] at closes
                  obtain ⟨⟨⟨isClose, running⟩, open_⟩, final⟩ := closes
                  exact ⟨(service.take index).session.closing, activity, rfl, rfl,
                    session_call_final (service.take index) false finished isClose running open_
                      final⟩
  | _ => cases closes

theorem sendQueueDue_doesClose (closes : service.DoesClose action = true) :
    (service.next action).session.SendQueueDue ↔ (service.found action).SendQueueDue := by
  obtain ⟨s, activity, strand, _, result⟩ := doesClose_session closes
  rw [result, Session.sendQueueDue_ends (s.callbacks activity).ends_doClose,
    Session.sendQueueDue_ends (s.spared_callbacks activity).strand]
  unfold Session.SendQueueDue
  rw [strand]

theorem quiet_doesClose (closes : service.DoesClose action = true)
    (idle : ¬ (service.found action).SendQueueDue) : (service.next action).session.Quiet := by
  have later := (not_congr (sendQueueDue_doesClose closes)).mpr idle
  obtain ⟨s, activity, strand, _, result⟩ := doesClose_session closes
  rw [result] at later ⊢
  apply Session.Quiet.of_doClose
  exact (not_congr (Session.sendQueueDue_ends (s.callbacks activity).ends_doClose)).mp later

theorem quiet_call {operation : IoOp} (quiet : service.session.Quiet) (start : Bool)
    (activity : List Callback) : (service.call operation start activity).session.Quiet := by
  cases finished : operation.finished with
  | false =>
      rw [session_call service operation start activity finished]
      exact (quiet.perform operation activity).asyncPendingWait _ _
  | true =>
      simp only [call, finished, Bool.not_true, Bool.false_eq_true, ↓reduceIte]
      exact quiet

theorem quiet_take (quiet : service.session.Quiet) (index : Nat) :
    (service.take index).session.Quiet where
  running := quiet.running
  idle := fun due => quiet.idle (Queue.mem_of_mem_take due)
  unarmed := quiet.unarmed

/-- Nothing but a start disturbs a quiet session. -/
theorem quiet_next (quiet : service.session.Quiet) (unstarted : service.Unstarted action) :
    (service.next action).session.Quiet := by
  cases action with
  | start => cases unstarted.2
  | startInside activity => cases unstarted.2
  | receive activity => exact quiet.callbacks activity
  | beginOutside handler op => exact quiet.dispatch _
  | beginInside handler op activity =>
      exact @quiet_call (service.noted handler op) _ quiet true activity
  | expire timer =>
      refine ⟨quiet.running, ?_, ?_⟩
      · intro due
        rcases (Queue.mem_ready_finish _ _ _ _).mp due with old | ⟨_, waited⟩
        · exact quiet.idle old
        · exact (quiet.unarmed _ waited).2 rfl
      · intro wait member
        exact quiet.unarmed wait ((Queue.mem_waiting_finish _ _ _ _).mp member).1
  | run index activity =>
      have taken := quiet_take quiet index
      simp only [next, run]
      split
      · rename_i due located
        obtain ⟨handler, completion⟩ := due
        cases handler with
        | processSendQueue =>
            cases completion with
            | aborted => exact taken
            | success => exact absurd (List.mem_of_getElem? located) quiet.idle
        | doClose =>
            cases completion with
            | aborted => exact taken
            | success => exact .of_doClose _ taken.idle
        | ioOp operation => exact quiet_call taken false activity
      · exact quiet
  | runPosted index =>
      simp only [next, runPosted, callOutside]
      split
      · split
        · exact quiet.dispatch _
        · exact quiet
      · exact quiet

theorem closed_of_quiet (quiet : service.session.Quiet) : service.Closed where
  running := quiet.running
  unarmed := fun wait member => (quiet.unarmed wait member).1
  unprocessed := by
    intro action unstarted
    have stopped : (service.found action).running = false := by
      cases action <;> exact quiet.running
    have called : (match service.called action with
        | some (operation, _) =>
            operation.op = .close && (service.found action).running &&
              !(service.found action).pendingClose
        | none => false) = false := by
      split
      · simp [stopped]
      · rfl
    unfold Processes
    rw [called, Bool.or_false]
    cases action with
    | startInside activity => cases unstarted.2
    | run index activity =>
        simp only [decide_eq_false_iff_not]
        intro located
        exact quiet.idle (List.mem_of_getElem? located)
    | _ => rfl

/-- A closed session stays closed exactly if no other send-queue handler was due. -/
theorem stays_closed_iff (closes : service.DoesClose action = true) :
    ¬ (service.found action).SendQueueDue ↔
      ∀ later, Reaches next Unstarted (service.next action) later → later.Closed := by
  constructor
  · intro idle later reached
    apply closed_of_quiet
    apply reached.invariant (quiet_doesClose closes idle)
    intro state action quiet unstarted
    exact quiet_next quiet unstarted
  · intro closed due
    have later := (sendQueueDue_doesClose closes).mpr due
    obtain ⟨index, located⟩ := List.getElem?_of_mem later
    have processes := (closed _ .start).unprocessed (.run index []) ⟨trivial, rfl⟩
    simp [Processes, located] at processes

end Service

namespace Client

/-- The step runs `do_close` without an error. -/
def DoesClose (client : Client) : ClientStep → Bool
  | .service action => client.service.DoesClose action
  | .stream (.runReceive index recv) =>
      match client.socket.received[index]? with
      | some error => !error.closes && recv.ret = 0 && recv.negotiated &&
          (client.stream.sent recv).final
      | none => false
  | .stream _ => false

/-- The step calls `curvecpr_messager_process_sendq`. -/
def Processes (client : Client) : ClientStep → Bool
  | .service action => client.service.Processes action
  | .stream (.runReceive index recv) =>
      match client.socket.received[index]? with
      | some error => !error.closes && recv.ret = 0 && recv.negotiated
      | none => false
  | .stream _ => false

/-- The session as the handlers of a step find it. -/
def found (client : Client) : ClientStep → Session
  | .service action => client.service.found action
  | .stream _ => client.service.session

/-- The completed receives that a step leaves queued. -/
def answers (client : Client) : ClientStep → List ErrorCode
  | .stream (.runReceive index _) => client.socket.received.eraseIdx index
  | _ => client.socket.received

/-- Nothing is due but the step: neither another send-queue handler nor a datagram, and
the connect operation has reported. -/
def NothingDue (client : Client) (step : ClientStep) : Prop :=
  ¬ (client.found step).SendQueueDue ∧ (∀ error ∈ client.answers step, error.closes = true) ∧
    .connectOp ∉ client.timers.handlers

instance (client : Client) (step : ClientStep) : Decidable (client.NothingDue step) :=
  inferInstanceAs (Decidable (¬ (client.found step).SendQueueDue ∧
    (∀ error ∈ client.answers step, error.closes = true) ∧ .connectOp ∉ client.timers.handlers))

/-- The same of a client's session, however its stream may act. -/
structure Closed (client : Client) : Prop where
  running : client.service.session.running = false
  unarmed : ∀ wait ∈ client.service.session.strand.waiting, wait.1 ≠ .sendQueue
  unprocessed : ∀ step, client.Possible step → client.Processes step = false

/-- Nothing is left that starts the session or processes its send queue. -/
structure Quiet (client : Client) : Prop where
  session : client.service.session.Quiet
  receiving : client.socket.receiving = 0
  isOpen : client.socket.isOpen = false
  answers : ∀ error ∈ client.socket.received, error.closes = true
  connect : .connectOp ∉ client.timers.handlers

variable {client : Client}

theorem quiet_closeHandler (quiet : client.service.session.Quiet)
    (answers : ∀ error ∈ client.socket.received, error.closes = true)
    (connect : .connectOp ∉ client.timers.handlers) :
    (client.follow client.stream.closeHandler).Quiet where
  session := quiet
  receiving := rfl
  isOpen := rfl
  answers := by
    intro error member
    rcases List.mem_append.mp member with old | aborted
    · exact answers error old
    · rw [(List.mem_replicate.mp aborted).2]
      rfl
  connect := fun inside =>
    connect ((Queue.handlers_finish client.timers .helloTimedOut .aborted).mem_iff.mp inside)

namespace Quiet

theorem asyncReceive (quiet : client.Quiet) :
    Quiet { client with socket := client.socket.asyncReceive } := by
  have failed : client.socket.asyncReceive =
      { client.socket with received := client.socket.received ++ [.badDescriptor] } := by
    simp [Socket.asyncReceive, quiet.isOpen]
  rw [failed]
  refine ⟨quiet.session, quiet.receiving, quiet.isOpen, ?_, quiet.connect⟩
  intro error member
  rcases List.mem_append.mp member with old | new
  · exact quiet.answers error old
  · rw [List.mem_singleton.mp new]
    rfl

theorem timers (quiet : client.Quiet) {timers : Queue ClientTimer ClientHandler}
    (kept : .connectOp ∈ timers.handlers → .connectOp ∈ client.timers.handlers)
    (retries : Int) (events : List ClientEvent) :
    Quiet { client with timers := timers, helloRetries := retries, events := events } :=
  ⟨quiet.session, quiet.receiving, quiet.isOpen, quiet.answers,
    fun inside => quiet.connect (kept inside)⟩

theorem wakeConnect (quiet : client.Quiet) :
    Quiet { client with timers := client.timers.cancel .pendingReadyConnect } :=
  quiet.timers (Queue.handlers_finish client.timers .pendingReadyConnect .aborted).mem_iff.mp
    _ _

/-- Hello timeouts start nothing but other Hello timeouts. -/
theorem runTimer (quiet : client.Quiet) (index : Nat) :
    (client.follow (client.stream.runTimer index)).Quiet := by
  simp only [ClientStream.runTimer]
  split
  · rename_i completion located
    have taken : .connectOp ∈ (client.timers.take index).handlers →
        .connectOp ∈ client.timers.handlers := by
      intro inside
      exact (client.timers.handlers_take located).mem_iff.mpr (List.mem_cons_of_mem _ inside)
    cases completion with
    | aborted => exact quiet.timers taken _ _
    | success =>
        simp only [ClientStream.handleHelloTimeout, errorOf, ne_eq, not_true_eq_false,
          ↓reduceIte]
        split
        · refine ⟨quiet.session, rfl, rfl, ?_, ?_⟩
          · have closed := quiet_closeHandler quiet.session quiet.answers quiet.connect
            exact closed.answers
          · intro inside
            have perm := Queue.handlers_finish (client.timers.take index)
              .pendingReadyConnect .aborted
            exact quiet.connect (taken (perm.mem_iff.mp inside))
        · apply quiet.timers
          intro inside
          have perm := Queue.handlers_rearm (client.timers.take index) .helloTimedOut
            .helloTimeout
          rcases List.mem_cons.mp (perm.mem_iff.mp inside) with same | old
          · cases same
          · exact taken old
  · rename_i completion located
    have inside := (Queue.mem_handlers _ _).mpr (Or.inr ⟨_, List.mem_of_getElem? located⟩)
    exact absurd inside quiet.connect
  · exact quiet

theorem next (quiet : client.Quiet) {step : ClientStep} (possible : client.Possible step) :
    (client.next step).Quiet := by
  cases step with
  | stream action =>
      cases action with
      | expireHello =>
          apply quiet.timers
          exact (Queue.handlers_finish client.timers .helloTimedOut .success).mem_iff.mp
      | arrive error =>
          have none_ : client.socket.arrive error = client.socket := by
            simp [Socket.arrive, quiet.receiving]
          simp only [Client.next, ClientStream.next, stream, none_]
          exact quiet
      | runTimer index => exact quiet.runTimer index
      | runReceive index recv =>
          simp only [Client.next, ClientStream.next, ClientStream.runReceive]
          split
          · rename_i error located
            have closes := quiet.answers error (List.mem_of_getElem? located)
            simp only [ClientStream.handleLowerRead, closes, ↓reduceIte]
            refine ⟨quiet.session, quiet.receiving, quiet.isOpen, ?_, quiet.connect⟩
            exact fun other member => quiet.answers other (List.mem_of_mem_eraseIdx member)
          · exact quiet
  | service action =>
      have session := Service.quiet_next quiet.session ⟨possible.1, possible.2.1⟩
      simp only [Client.next, serve]
      split
      · exact @quiet_closeHandler { client with service := client.service.next action } session
          quiet.answers quiet.connect
      · exact ⟨session, quiet.receiving, quiet.isOpen, quiet.answers, quiet.connect⟩

theorem closed (quiet : client.Quiet) : client.Closed where
  running := quiet.session.running
  unarmed := fun wait member => (quiet.session.unarmed wait member).1
  unprocessed := by
    intro step possible
    cases step with
    | stream action =>
        cases action with
        | runReceive index recv =>
            simp only [Processes]
            split
            · rename_i error located
              simp [quiet.answers error (List.mem_of_getElem? located)]
            · rfl
        | _ => rfl
    | service action =>
        exact (Service.closed_of_quiet quiet.session).unprocessed action
          ⟨possible.1, possible.2.1⟩

end Quiet

/-- A session that is started and closed at once, by the handler of a datagram. -/
theorem quiet_startSession {recv : ClientRecv} (final : (client.stream.sent recv).final = true)
    (idle : ¬ client.service.session.SendQueueDue)
    (answers : ∀ error ∈ client.socket.received, error.closes = true)
    (connect : .connectOp ∉ client.timers.handlers) :
    (client.follow (ClientStream.startSession { client.stream with
      session := client.stream.session.callbacks recv.received
      helloRetries := 0
      timers := client.stream.timers.cancel .helloTimedOut } recv.sending)).Quiet := by
  have closes : (client.stream.session.callbacks recv.received).startInside recv.sending =
      (client.stream.sent recv).doClose .success := by
    rcases Session.handleProcessSendQueue_cases
      { client.stream.session.callbacks recv.received with running := true } recv.sending with
      ⟨_, result⟩ | ⟨unfinal, _⟩
    · exact result
    · exact Bool.noConfusion (final.symm.trans unfinal)
  have unprocessed : ¬ (client.stream.sent recv).SendQueueDue := by
    intro due
    have before := (Session.sendQueueDue_ends (Session.spared_callbacks
      { client.stream.session.callbacks recv.received with running := true }
        recv.sending).strand).mp due
    exact idle ((Session.sendQueueDue_ends
      (client.stream.session.spared_callbacks recv.received).strand).mp before)
  have calls : (client.stream.session.callbacks recv.received).closeHandlerCalls <
      ((client.stream.sent recv).doClose .success).closeHandlerCalls := by
    have sending := (Session.spared_callbacks
      { client.stream.session.callbacks recv.received with running := true }
        recv.sending).closeHandlerCalls
    exact Nat.lt_succ_of_le (Nat.le_of_eq sending.symm)
  simp only [ClientStream.startSession, closes, ClientStream.note, calls, ↓reduceIte]
  have perm := Queue.handlers_finish client.timers .helloTimedOut .aborted
  exact @quiet_closeHandler { client with
      service := { client.service with session := (client.stream.sent recv).doClose .success }
      timers := client.timers.cancel .helloTimedOut
      helloRetries := 0
      events := .started :: client.events }
    (Session.Quiet.of_doClose _ unprocessed) answers
    fun inside => connect (perm.mem_iff.mp inside)

theorem quiet_doesClose {step : ClientStep} (closes : client.DoesClose step = true)
    (nothing : client.NothingDue step) : (client.next step).Quiet := by
  obtain ⟨idle, answers, connect⟩ := nothing
  cases step with
  | service action =>
      have session := Service.quiet_doesClose closes idle
      obtain ⟨s, activity, _, same, result⟩ := Service.doesClose_session closes
      have calls : client.service.session.closeHandlerCalls <
          (client.service.next action).session.closeHandlerCalls := by
        rw [result, ← same, ← (s.spared_callbacks activity).closeHandlerCalls]
        exact Nat.lt_succ_self _
      simp only [Client.next, serve, calls, ↓reduceIte]
      exact @quiet_closeHandler { client with service := client.service.next action } session
        answers connect
  | stream action =>
      cases action with
      | runReceive index recv =>
          simp only [DoesClose] at closes
          cases located : client.socket.received[index]? with
          | none => simp [located] at closes
          | some error =>
              simp only [located, Bool.and_eq_true, Bool.not_eq_eq_eq_not, Bool.not_true,
                decide_eq_true_eq] at closes
              obtain ⟨⟨⟨arrives, ret⟩, negotiated⟩, final⟩ := closes
              have started := @quiet_startSession
                { client with socket := client.socket.take index } recv final idle answers connect
              have found : client.stream.socket.received[index]? = some error := located
              simp only [Client.next, ClientStream.next, ClientStream.runReceive, found,
                ClientStream.handleLowerRead, arrives, ret, negotiated, Bool.false_eq_true,
                and_self, ↓reduceIte]
              exact started.wakeConnect.asyncReceive
      | _ => cases closes

end Client

/-- Until it is started again a session that `do_close` has closed stays closed, exactly
if no other send-queue handler was due. A client's session stays closed too if no
datagram was due either, and no connect operation was left. -/
theorem closed_session_stays_closed (service : Service) (action : ServiceAction)
    (client : Client) (step : ClientStep) :
    (service.DoesClose action = true →
      (¬ (service.found action).SendQueueDue ↔ ∀ later,
        Reaches Service.next Service.Unstarted (service.next action) later → later.Closed)) ∧
    (client.DoesClose step = true → client.NothingDue step → ∀ later,
      Reaches Client.next Client.Possible (client.next step) later → later.Closed) := by
  constructor
  · exact Service.stays_closed_iff
  · intro closes nothing later reached
    apply Client.Quiet.closed
    apply reached.invariant (Client.quiet_doesClose closes nothing)
    intro state action quiet possible
    exact quiet.next possible

/-- The close timer expires, and its handler is the only one due. -/
def closedService : Service :=
  [ServiceAction.run 0 [], .beginInside 1 .close [], .run 0 [], .expire .close].foldl
    Service.next (Service.started {})

theorem closed_session_stays_closed_timer :
    (∀ later, Reaches Service.next Service.Unstarted (closedService.next (.run 0 [])) later →
      later.Closed) ∧
    ∀ later, Reaches Client.next Client.Possible
      (Client.next { service := closedService } (.service (.run 0 []))) later → later.Closed :=
  have both := closed_session_stays_closed closedService (.run 0 []) { service := closedService }
    (.service (.run 0 []))
  ⟨(both.1 (by decide)).mp (by decide), both.2 (by decide) (by decide)⟩

/-- The send-queue timer has expired too when the close timer's handler runs. -/
theorem closed_session_processes_again :
    ¬ ∀ (session : Session) (service : Service) (action : ServiceAction), session.Fresh →
      Reaches Service.next Service.Possible (Service.started session) service →
      service.DoesClose action = true → ∀ later,
        Reaches Service.next Service.Unstarted (service.next action) later → later.Closed := by
  intro claimed
  have reached := Reaches.schedule (@Reaches.start _ _ Service.next Service.Possible
    (Service.started {})) [.run 0 [], .beginInside 1 .close [], .run 0 [], .expire .sendQueue,
      .expire .close] (by decide)
  have closed := claimed {} _ (.run 1 []) (Session.fresh_configured _ _ _) reached (by decide)
    _ .start
  exact absurd (closed.unprocessed (.run 0 []) ⟨trivial, rfl⟩) (by decide)

end CurvecprAsio
