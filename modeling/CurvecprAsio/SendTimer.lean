import CurvecprAsio.Quiet

set_option autoImplicit false

/- The timer of a session's send queue: how a session that runs goes on being processed. -/
namespace CurvecprAsio

open Strand Transition

namespace Session

variable {s later : Session}

/-- At most one wait on each timer that is set to expire. -/
def Single (s : Session) : Prop :=
  ∀ timer : Timer, timer.Set → (s.strand.waitsOn timer).length ≤ 1

/-- What waits on the send queue's timer is its handler, and a session that runs has it
waiting or due. -/
structure SendInv (s : Session) : Prop where
  waits : ∀ handler, (Timer.sendQueue, handler) ∈ s.strand.waiting → handler = .processSendQueue
  armed : s.running = true → s.strand.Armed .sendQueue .processSendQueue

theorem not_set_of_pendingReady {timer : Timer} (ready : PendingReady timer) : ¬ timer.Set := by
  intro set
  rcases ready with rfl | rfl
  · rcases set with other | other <;> cases other
  · rcases set with other | other <;> cases other

/-- libcurvecpr's activity leaves the strand alone or cancels waits of operations. -/
theorem strand_callback (s : Session) (callback : Callback) :
    (s.callback callback).strand = s.strand ∨
      ∃ timer, PendingReady timer ∧ (s.callback callback).strand = s.strand.cancel timer := by
  cases callback with
  | sendqHead =>
      simp only [Session.callback, handleSendqHead]
      split
      · exact Or.inl rfl
      · split
        · simp only [takeHead]
          split
          · exact Or.inl rfl
          · exact Or.inr ⟨.pendingReadyWrite, Or.inr rfl, rfl⟩
        · exact Or.inl rfl
  | stampHead id clock offset => exact Or.inl rfl
  | sendqMoveToSendmarkq balance =>
      simp only [Session.callback, handleSendqMoveToSendmarkq]
      split
      · split <;> exact Or.inl rfl
      · split <;> exact Or.inl rfl
  | resend balance pointer id clock =>
      simp only [Session.callback, resend]
      split
      · simp only [handleSendqMoveToSendmarkq]
        split
        · split <;> exact Or.inl rfl
        · split <;> exact Or.inl rfl
      · exact Or.inl rfl
  | sendmarkqRemoveRange balance start stop => exact Or.inl rfl
  | recvmarkqPut block =>
      simp only [Session.callback, handleRecvmarkqPut]
      split
      · exact Or.inl rfl
      · dsimp only
        split
        · exact Or.inl rfl
        · exact Or.inr ⟨.pendingReadyRead, Or.inl rfl, rfl⟩
  | recvmarkqRemoveRange start stop => exact Or.inl rfl
  | messager messager => exact Or.inl rfl

namespace Single

theorem same (single : s.Single) (strand : later.strand = s.strand) : later.Single := by
  intro timer set
  rw [strand]
  exact single timer set

theorem finish (single : s.Single) (other : Timer) (completion : Completion) :
    Single { s with strand := s.strand.finish other completion } := by
  intro timer set
  rw [Queue.waitsOn_finish]
  split
  · exact Nat.zero_le _
  · exact single timer set

theorem rearm (single : s.Single) (other : Timer) (handler : Handler) :
    Single { s with strand := s.strand.rearm other handler } := by
  intro timer set
  have before := single timer set
  rw [Queue.rearm, Queue.waitsOn_asyncWait, Queue.cancel, Queue.waitsOn_finish]
  split
  · exact Nat.le_refl 1
  · rw [List.append_nil]
    exact before

theorem asyncPendingWait (single : s.Single) (what : Want) (operation : IoOp) :
    (s.asyncPendingWait what operation).Single := by
  have added : ∀ other : Timer, ¬ other.Set →
      Single { s with strand := s.strand.asyncWait other (.ioOp operation) } := by
    intro other notSet timer set
    rw [Queue.waitsOn_asyncWait]
    split
    · rename_i same
      rw [same] at notSet
      exact absurd set notSet
    · rw [List.append_nil]
      exact single timer set
  cases what with
  | nothing => exact single
  | read => exact added .pendingReadyRead (not_set_of_pendingReady (Or.inl rfl))
  | write => exact added .pendingReadyWrite (not_set_of_pendingReady (Or.inr rfl))
  | close => exact added .pendingReadyClose (by rintro (other | other) <;> cases other)

theorem callback (single : s.Single) (callback : Callback) : (s.callback callback).Single := by
  rcases s.strand_callback callback with same | ⟨timer, _, cancelled⟩
  · exact single.same same
  · exact (single.finish timer .aborted).same cancelled

theorem goes (single : s.Single) (goes : s.Goes later) : later.Single := by
  apply goes.invariant single
  intro state change kept _
  cases change with
  | callback callback => exact kept.callback callback
  | rearm timer handler => exact kept.rearm timer handler
  | expire timer => exact kept.finish timer .success
  | dispatch handler => exact kept
  | take index => exact kept
  | runs => exact kept

theorem of_doClose (s : Session) : (s.doClose .success).Single := by
  intro timer _
  simp [Queue.waitsOn, s.waiting_doClose]

theorem perform (single : s.Single) (operation : IoOp) (activity : List Callback) :
    (operation.perform s activity).session.Single := by
  unfold IoOp.perform
  split
  · exact single.same (s.strand_read _)
  · rename_i buffer _
    simp only [Session.write]
    split
    · exact single
    · split
      · exact single
      · split
        · exact single
        · split
          · exact single.rearm .sendQueue .processSendQueue
          · exact single
  · rcases s.close_cases activity with
      ⟨_, result⟩ | ⟨_, _, result⟩ | ⟨_, _, _, result⟩ | ⟨_, _, _, result⟩
    · rw [result]
      exact (single.finish .pendingReadyRead .aborted).finish .pendingReadyWrite .aborted
    · rw [result]
      exact single
    · rw [result]
      exact of_doClose _
    · rw [result]
      have closing : s.closing.Single := single
      exact closing.goes (s.goes_closing activity)

theorem next {service : Service} {action : ServiceAction} (single : service.session.Single)
    (possible : service.Possible action) : (service.next action).session.Single := by
  rcases Service.next_cases possible with
    ⟨operation, activity, _, result⟩ | ⟨_, _, later, _, result⟩ | ⟨_, _, goes⟩
  · rw [result]
    have found := single.goes (Service.goes_found action)
    exact (found.perform operation activity).asyncPendingWait _ _
  · rw [result]
    exact of_doClose later
  · exact single.goes goes

end Single

namespace SendInv

theorem ends (inv : s.SendInv) {touched : Timer → Prop} (untouched : ¬ touched .sendQueue)
    (running : later.running = s.running) (ends : Queue.Ends touched s.strand later.strand) :
    later.SendInv where
  waits := fun handler member => inv.waits handler (ends.waits _ member)
  armed := by
    rw [running]
    intro runs
    exact (inv.armed runs).ends untouched ends

theorem same (inv : s.SendInv) (running : later.running = s.running)
    (strand : later.strand = s.strand) : later.SendInv := by
  have still : Queue.Ends (fun _ => False) s.strand later.strand := by
    rw [strand]
    exact .refl _ _
  exact inv.ends id running still

theorem spared (inv : s.SendInv) (spared : Spared s later) : later.SendInv := by
  apply inv.ends _ spared.running spared.strand
  rintro (other | other) <;> cases other

/-- Whatever waited before, the timer is set anew. -/
theorem of_reschedule (s : Session) : s.rescheduleProcessSendQueue.SendInv where
  waits := by
    intro handler member
    rcases (Queue.mem_waiting_asyncWait _ _ _ _).mp member with old | new
    · exact absurd rfl ((Queue.mem_waiting_finish _ _ _ _).mp old).2
    · exact (Prod.mk.inj new).2
  armed := fun _ => Queue.armed_rearm _ _ _

theorem of_doClose (s : Session) : (s.doClose .success).SendInv where
  waits := by
    intro handler member
    rw [s.waiting_doClose] at member
    cases member
  armed := by
    intro runs
    cases runs

/-- The send queue's handler sets its timer again, unless it closes the session. -/
theorem of_handleProcessSendQueue (s : Session) (activity : List Callback) :
    (s.handleProcessSendQueue .success activity).SendInv := by
  rcases s.handleProcessSendQueue_cases activity with ⟨_, result⟩ | ⟨_, result⟩
  · rw [result]
    exact of_doClose _
  · rw [result]
    exact of_reschedule _

theorem armClose (inv : s.SendInv) : s.armClose.SendInv where
  waits := by
    intro handler member
    rcases (Queue.mem_waiting_asyncWait _ _ _ _).mp member with old | new
    · exact inv.waits handler ((Queue.mem_waiting_finish _ _ _ _).mp old).1
    · cases new
  armed := fun runs => (inv.armed runs).rearm (by decide) .doClose

theorem close (inv : s.SendInv) (activity : List Callback) :
    (s.close activity).session.SendInv := by
  rcases s.close_cases activity with
    ⟨_, result⟩ | ⟨_, _, result⟩ | ⟨_, _, _, result⟩ | ⟨_, _, _, result⟩
  · rw [result]
    have reads : Queue.Ends PendingReady s.strand (s.strand.cancel .pendingReadyRead) :=
      .cancel _ (Or.inl rfl)
    have both := reads.trans (.cancel _ (Or.inr rfl))
    refine inv.ends ?_ rfl both
    rintro (other | other) <;> cases other
  · rw [result]
    exact inv
  · rw [result]
    exact of_doClose _
  · rw [result]
    exact (of_reschedule _).armClose

theorem write (inv : s.SendInv) (buffer : Buffer) : (s.write buffer).session.SendInv := by
  simp only [Session.write]
  split
  · exact inv
  · split
    · exact inv
    · split
      · exact inv
      · split
        · exact of_reschedule _
        · exact inv.same rfl rfl

theorem perform (inv : s.SendInv) (operation : IoOp) (activity : List Callback) :
    (operation.perform s activity).session.SendInv := by
  unfold IoOp.perform
  split
  · exact inv.same (s.read_closing _).1.1 (s.strand_read _)
  · exact inv.write _
  · exact inv.close activity

theorem asyncPendingWait (inv : s.SendInv) (what : Want) (operation : IoOp) :
    (s.asyncPendingWait what operation).SendInv := by
  have added : ∀ timer, timer ≠ .sendQueue →
      SendInv { s with strand := s.strand.asyncWait timer (.ioOp operation) } := by
    intro timer apart
    refine ⟨?_, fun runs => (inv.armed runs).asyncWait timer _⟩
    intro handler member
    rcases (Queue.mem_waiting_asyncWait _ _ _ _).mp member with old | new
    · exact inv.waits handler old
    · exact absurd (Prod.mk.inj new).1.symm apart
  cases what with
  | nothing => exact inv
  | read => exact added _ (by decide)
  | write => exact added _ (by decide)
  | close => exact added _ (by decide)

theorem dispatch (inv : s.SendInv) (handler : Handler) :
    SendInv { s with strand := s.strand.dispatch handler } where
  waits := inv.waits
  armed := fun runs => (inv.armed runs).dispatch handler

end SendInv

end Session

namespace Service

variable {service : Service}

theorem sendInv_call (service : Service) (inv : service.session.SendInv) (operation : IoOp)
    (start : Bool) (activity : List Callback) :
    (service.call operation start activity).session.SendInv := by
  cases finished : operation.finished with
  | false =>
      rw [session_call service operation start activity finished]
      exact (inv.perform operation activity).asyncPendingWait _ _
  | true =>
      simp only [call, finished, Bool.not_true, Bool.false_eq_true, ↓reduceIte]
      exact inv

theorem sendInv_callOutside (service : Service) (inv : service.session.SendInv)
    (operation : IoOp) : (service.callOutside operation).session.SendInv := by
  simp only [callOutside]
  split
  · exact inv.dispatch _
  · exact inv

theorem sendInv_take (inv : service.session.SendInv) {index : Nat} {due : Handler × Completion}
    (located : service.session.strand.ready[index]? = some due)
    (other : due ≠ (.processSendQueue, .success)) : (service.take index).session.SendInv where
  waits := inv.waits
  armed := fun runs => (inv.armed runs).take located other

theorem sendInv_run (inv : service.session.SendInv) (index : Nat) (activity : List Callback) :
    (service.run index activity).session.SendInv := by
  simp only [run]
  cases located : service.session.strand.ready[index]? with
  | none => exact inv
  | some due =>
      obtain ⟨handler, completion⟩ := due
      cases handler with
      | processSendQueue =>
          cases completion with
          | success => exact .of_handleProcessSendQueue (service.take index).session activity
          | aborted => exact sendInv_take inv located (by simp)
      | doClose =>
          cases completion with
          | success => exact .of_doClose (service.take index).session
          | aborted => exact sendInv_take inv located (by simp)
      | ioOp operation =>
          exact sendInv_call _ (sendInv_take inv located (by simp)) operation false activity

theorem sendInv_next (service : Service) (inv : service.session.SendInv)
    (action : ServiceAction) :
    (service.next action).session.SendInv := by
  cases action with
  | start =>
      refine ⟨inv.waits, ?_⟩
      intro _
      exact Or.inr ((Queue.mem_ready_dispatch _ _ _).mpr (Or.inr rfl))
  | startInside activity => exact .of_handleProcessSendQueue _ activity
  | receive activity => exact inv.spared (service.session.spared_callbacks activity)
  | beginOutside handler op => exact sendInv_callOutside (service.noted handler op) inv _
  | beginInside handler op activity =>
      exact sendInv_call (service.noted handler op) inv _ true activity
  | expire timer =>
      refine ⟨?_, fun runs => (inv.armed runs).expire timer⟩
      intro handler member
      exact inv.waits handler ((Queue.mem_waiting_finish _ _ _ _).mp member).1
  | run index activity => exact sendInv_run inv index activity
  | runPosted index =>
      simp only [next, runPosted]
      split
      · apply sendInv_callOutside
        exact inv
      · exact inv

end Service

/-- A session that runs never stops processing its send queue: however it is started,
written to, read, closed and called by libcurvecpr, the queue's handler is due or waits,
once, on the timer that will make it due. -/
theorem send_queue_stays_scheduled {session : Session} (fresh : session.Fresh) {later : Service}
    (reached : Reaches Service.next Service.Possible { session := session } later) :
    (∀ timer : Timer, timer.Set → (later.session.strand.waitsOn timer).length ≤ 1) ∧
      (later.session.running = true → later.session.SendQueueDue ∨
        later.session.strand.waitsOn .sendQueue = [.processSendQueue]) := by
  have holds : later.session.Single ∧ later.session.SendInv := by
    have kept : ∀ (service : Service) (action : ServiceAction),
        service.session.Single ∧ service.session.SendInv → service.Possible action →
          (service.next action).session.Single ∧ (service.next action).session.SendInv :=
      fun service action held possible =>
        ⟨held.1.next possible, service.sendInv_next held.2 action⟩
    refine reached.invariant ⟨?_, ?_, ?_⟩ kept
    · intro timer _
      simp [Queue.waitsOn, fresh.waiting]
    · intro handler member
      rw [fresh.waiting] at member
      cases member
    · intro runs
      rw [fresh.running] at runs
      cases runs
  obtain ⟨single, inv⟩ := holds
  refine ⟨single, ?_⟩
  intro runs
  rcases inv.armed runs with waits | due
  · apply Or.inr
    have member := (Queue.mem_waitsOn _ _ _).mpr waits
    have alone := single .sendQueue (Or.inl rfl)
    obtain ⟨handler, only⟩ := List.length_eq_one_iff.mp
      (Nat.le_antisymm alone (List.length_pos_of_mem member))
    rw [only] at member ⊢
    rw [List.mem_singleton.mp member]
  · exact Or.inl due

/-- A second start and a write while the first timer has already expired. -/
theorem send_queue_stays_scheduled_restarted :
    let actions : List ServiceAction :=
      [.start, .run 0 [], .expire .sendQueue, .start, .run 0 [],
        .beginInside 1 (.write ⟨[1], by decide⟩) []]
    let later := actions.foldl Service.next { session := { pendingMaximum := 4 } }
    (later.session.SendQueueDue ∨
        later.session.strand.waitsOn .sendQueue = [.processSendQueue]) ∧
      later.session.strand.ready =
        [(.processSendQueue, .success), (.processSendQueue, .aborted)] := by
  intro actions later
  have reached : Reaches Service.next Service.Possible { session := { pendingMaximum := 4 } }
      later := Reaches.start.schedule _ (by decide)
  have fresh := Session.fresh_configured 4 512 512
  exact ⟨(send_queue_stays_scheduled fresh reached).2 rfl, by decide⟩

end CurvecprAsio
