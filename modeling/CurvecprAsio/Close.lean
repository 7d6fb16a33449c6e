import CurvecprAsio.Receive
import CurvecprAsio.Send

set_option autoImplicit false

/- Starting and closing a session, and what a close does to the strand. -/
namespace CurvecprAsio

open SearchTree Strand

/-- The error code a handler gets when its wait has ended. -/
def errorOf : Completion → ErrorCode
  | .success => .success
  | .aborted => .operationAborted

/-- What libcurvecpr does to a session while it processes the send queue or a
received message: the session's handlers it calls, and what it writes to the
blocks it was given and to the messager. -/
inductive Callback where
  | sendqHead
  | stampHead (id : Nat) (clock : Int) (offset : Nat)
  | sendqMoveToSendmarkq (balance : Balance SentBlock)
  | resend (balance : Balance SentBlock) (pointer id : Nat) (clock : Int)
  | sendmarkqRemoveRange (balance : Balance SentBlock) (start stop : Nat)
  | recvmarkqPut (block : Block)
  | recvmarkqRemoveRange (start stop : Nat)
  | messager (messager : Messager)

structure CloseResult where
  session : Session
  done : Bool
  deriving DecidableEq, Repr

namespace Session

def callback (s : Session) : Callback → Session
  | .sendqHead => s.handleSendqHead.session
  | .stampHead id clock offset => s.stampHead id clock offset
  | .sendqMoveToSendmarkq balance =>
      (s.handleSendqMoveToSendmarkq balance s.headBlock).session
  | .resend balance pointer id clock => (s.resend balance pointer id clock).session
  | .sendmarkqRemoveRange balance start stop =>
      s.handleSendmarkqRemoveRange balance start stop
  | .recvmarkqPut block => (s.handleRecvmarkqPut block).session
  | .recvmarkqRemoveRange start stop => s.handleRecvmarkqRemoveRange start stop
  | .messager messager => { s with messager := messager }

/-- One call into libcurvecpr. -/
def callbacks (s : Session) (activity : List Callback) : Session := activity.foldl callback s

/-- `session::do_close`. -/
def doClose (s : Session) (error : ErrorCode) : Session :=
  if error ≠ .success then s
  else
    { s with
      strand := ((((s.strand.cancel .close).cancel .pendingReadyRead).cancel
        .pendingReadyWrite).cancel .sendQueue).cancel .pendingReadyClose
      pendingClose := false
      pendingEof := false
      pendingUsed := 0
      pendingCurrent := 0
      pendingNext := 0
      sendqHeadExists := false
      recvmarkqDistributed := 0
      recvmarkqReadOffset := 0
      running := false
      sendmarkq := .leaf
      recvmarkq := []
      closeHandlerCalls := s.closeHandlerCalls + 1 }

/-- `my_final && their_final`. -/
def final (s : Session) : Bool := s.messager.myFinal && s.messager.theirFinal

/-- `session::handle_process_send_queue`. -/
def handleProcessSendQueue (s : Session) (error : ErrorCode) (activity : List Callback) :
    Session :=
  if error ≠ .success then s
  else
    let processed := s.callbacks activity
    if processed.final then processed.doClose .success
    else processed.rescheduleProcessSendQueue

/-- `session::start`, called from outside the session's strand. -/
def start (s : Session) : Session :=
  { s with running := true, strand := s.strand.dispatch .processSendQueue }

/-- `session::start`, called on the session's strand, where `dispatch` runs the
handler at once. -/
def startInside (s : Session) (activity : List Callback) : Session :=
  ({ s with running := true }).handleProcessSendQueue .success activity

/-- The flags `session::close` sets on a running session. -/
def closing (s : Session) : Session := { s with pendingClose := true, pendingEof := true }

/-- The close timer as `session::close` starts it. -/
def armClose (s : Session) : Session :=
  { s with strand := s.strand.rearm .close .doClose }

/-- `session::close`. -/
def close (s : Session) (activity : List Callback) : CloseResult :=
  if !s.running then
    { session := { s with
        strand := (s.strand.cancel .pendingReadyRead).cancel .pendingReadyWrite
        closeHandlerCalls := s.closeHandlerCalls + 1 }
      done := true }
  else if s.pendingClose then { session := s, done := false }
  else
    let sent := s.closing.handleProcessSendQueue .success activity
    if !sent.running then { session := sent, done := true }
    else { session := sent.armClose, done := false }

/-- The timers whose waits libcurvecpr's activity can end. -/
def PendingReady (timer : Timer) : Prop :=
  timer = .pendingReadyRead ∨ timer = .pendingReadyWrite

/-- What libcurvecpr's activity leaves as it is. -/
structure Spared (s later : Session) : Prop where
  running : later.running = s.running
  pendingClose : later.pendingClose = s.pendingClose
  pendingEof : later.pendingEof = s.pendingEof
  closeHandlerCalls : later.closeHandlerCalls = s.closeHandlerCalls
  strand : Queue.Ends PendingReady s.strand later.strand

theorem Spared.refl (s : Session) : Spared s s := ⟨rfl, rfl, rfl, rfl, .refl _ _⟩

theorem Spared.trans {first second third : Session} (before : Spared first second)
    (after : Spared second third) : Spared first third where
  running := after.running.trans before.running
  pendingClose := after.pendingClose.trans before.pendingClose
  pendingEof := after.pendingEof.trans before.pendingEof
  closeHandlerCalls := after.closeHandlerCalls.trans before.closeHandlerCalls
  strand := before.strand.trans after.strand

theorem spared_handleSendqHead (s : Session) : Spared s s.handleSendqHead.session := by
  unfold handleSendqHead
  split
  · exact .refl s
  · split
    · by_cases empty : s.pending.isEmpty = true
      · simp only [takeHead, empty, ↓reduceIte]
        exact ⟨rfl, rfl, rfl, rfl, .refl _ _⟩
      · simp only [takeHead, empty, Bool.false_eq_true, ↓reduceIte]
        exact ⟨rfl, rfl, rfl, rfl, .cancel _ (Or.inr rfl)⟩
    · exact .refl s

theorem spared_handleSendqMoveToSendmarkq (s : Session) (balance : Balance SentBlock)
    (block : SentBlock) : Spared s (s.handleSendqMoveToSendmarkq balance block).session := by
  unfold handleSendqMoveToSendmarkq
  split
  · split <;> exact ⟨rfl, rfl, rfl, rfl, .refl _ _⟩
  · split <;> exact ⟨rfl, rfl, rfl, rfl, .refl _ _⟩

theorem spared_resend (s : Session) (balance : Balance SentBlock) (pointer id : Nat)
    (clock : Int) : Spared s (s.resend balance pointer id clock).session := by
  have stamped : Spared s (s.stampSent pointer id clock) := ⟨rfl, rfl, rfl, rfl, .refl _ _⟩
  simp only [resend]
  split
  · exact stamped.trans (spared_handleSendqMoveToSendmarkq _ _ _)
  · exact stamped

theorem spared_handleRecvmarkqPut (s : Session) (block : Block) :
    Spared s (s.handleRecvmarkqPut block).session := by
  simp only [handleRecvmarkqPut]
  split
  · exact .refl s
  · refine ⟨rfl, rfl, rfl, rfl, ?_⟩
    dsimp only
    split
    · exact .refl _ _
    · exact .cancel _ (Or.inl rfl)

theorem spared_callback (s : Session) (callback : Callback) :
    Spared s (s.callback callback) := by
  cases callback with
  | sendqHead => exact s.spared_handleSendqHead
  | stampHead id clock offset => exact ⟨rfl, rfl, rfl, rfl, .refl _ _⟩
  | sendqMoveToSendmarkq balance => exact s.spared_handleSendqMoveToSendmarkq _ _
  | resend balance pointer id clock => exact s.spared_resend _ _ _ _
  | sendmarkqRemoveRange balance start stop => exact ⟨rfl, rfl, rfl, rfl, .refl _ _⟩
  | recvmarkqPut block => exact s.spared_handleRecvmarkqPut block
  | recvmarkqRemoveRange start stop => exact ⟨rfl, rfl, rfl, rfl, .refl _ _⟩
  | messager messager => exact ⟨rfl, rfl, rfl, rfl, .refl _ _⟩

theorem spared_callbacks (s : Session) (activity : List Callback) :
    Spared s (s.callbacks activity) := by
  induction activity generalizing s with
  | nil => exact .refl s
  | cons callback rest ih => exact (s.spared_callback callback).trans (ih _)

theorem waiting_doClose (s : Session) : (s.doClose .success).strand.waiting = [] := by
  apply List.eq_nil_iff_forall_not_mem.mpr
  intro wait member
  obtain ⟨timer, handler⟩ := wait
  simp only [doClose, ne_eq, not_true_eq_false, ↓reduceIte, Queue.cancel,
    Queue.mem_waiting_finish] at member
  cases timer <;> simp at member

theorem ends_doClose (s : Session) :
    Queue.Ends (fun _ => True) s.strand (s.doClose .success).strand := by
  have cancels : ∀ (queue : Queue Timer Handler) (timer : Timer),
      Queue.Ends (fun _ => True) queue (queue.cancel timer) :=
    fun queue timer => .cancel queue trivial
  exact ((((cancels _ .close).trans (cancels _ .pendingReadyRead)).trans
    (cancels _ .pendingReadyWrite)).trans (cancels _ .sendQueue)).trans
      (cancels _ .pendingReadyClose)

theorem handleProcessSendQueue_cases (s : Session) (activity : List Callback) :
    ((s.callbacks activity).final = true ∧
        s.handleProcessSendQueue .success activity =
          (s.callbacks activity).doClose .success) ∨
      ((s.callbacks activity).final = false ∧
        s.handleProcessSendQueue .success activity =
          (s.callbacks activity).rescheduleProcessSendQueue) := by
  cases final : (s.callbacks activity).final with
  | true =>
      left
      simp [handleProcessSendQueue, final]
  | false =>
      right
      simp [handleProcessSendQueue, final]

theorem close_cases (s : Session) (activity : List Callback) :
    (s.running = false ∧ s.close activity = {
        session := { s with
          strand := (s.strand.cancel .pendingReadyRead).cancel .pendingReadyWrite
          closeHandlerCalls := s.closeHandlerCalls + 1 }
        done := true }) ∨
      (s.running = true ∧ s.pendingClose = true ∧
        s.close activity = { session := s, done := false }) ∨
      (s.running = true ∧ s.pendingClose = false ∧
        (s.closing.callbacks activity).final = true ∧ s.close activity =
          { session := (s.closing.callbacks activity).doClose .success, done := true }) ∨
      (s.running = true ∧ s.pendingClose = false ∧
        (s.closing.callbacks activity).final = false ∧ s.close activity =
          { session := (s.closing.callbacks activity).rescheduleProcessSendQueue.armClose
            done := false }) := by
  cases running : s.running with
  | false =>
      left
      simp [close, running]
  | true =>
      right
      cases pending : s.pendingClose with
      | true =>
          left
          simp [close, running, pending]
      | false =>
          right
          have spared := s.closing.spared_callbacks activity
          have still : (s.closing.callbacks activity).rescheduleProcessSendQueue.running = true :=
            spared.running.trans running
          rcases s.closing.handleProcessSendQueue_cases activity with
            ⟨final, sent⟩ | ⟨final, sent⟩
          · left
            simp [close, running, pending, sent, final, doClose]
          · right
            simp [close, running, pending, sent, final, still, armClose]

/-- `later` has not called the close handler, and runs if `s` did. -/
def Silent (s later : Session) : Prop :=
  later.running = s.running ∧ later.closeHandlerCalls = s.closeHandlerCalls

/-- `later` has called the close handler once, and does not run. -/
def Notified (s later : Session) : Prop :=
  later.running = false ∧ later.closeHandlerCalls = s.closeHandlerCalls + 1

theorem notified_doClose (s : Session) : Notified s (s.doClose .success) := ⟨rfl, rfl⟩

theorem silent_callbacks (s : Session) (activity : List Callback) :
    Silent s (s.callbacks activity) :=
  ⟨(s.spared_callbacks activity).running, (s.spared_callbacks activity).closeHandlerCalls⟩

theorem Notified.after {first second third : Session} (before : Silent first second)
    (notified : Notified second third) : Notified first third :=
  ⟨notified.1, by rw [notified.2, before.2]⟩

/-- The close handler is called when both sides are final. -/
theorem notifies_handleProcessSendQueue (s : Session) (activity : List Callback) :
    ((s.callbacks activity).final = true ∧
        Notified s (s.handleProcessSendQueue .success activity)) ∨
      ((s.callbacks activity).final = false ∧
        Silent s (s.handleProcessSendQueue .success activity)) := by
  have silent := s.silent_callbacks activity
  rcases s.handleProcessSendQueue_cases activity with ⟨final, result⟩ | ⟨final, result⟩
  · rw [result]
    exact Or.inl ⟨final, (notified_doClose _).after silent⟩
  · rw [result]
    exact Or.inr ⟨final, silent⟩

/-- A close of a session that does not run calls the close handler. -/
theorem notifies_close (s : Session) (activity : List Callback) :
    (Silent s (s.close activity).session ∧ s.running = true) ∨
      Notified s (s.close activity).session := by
  have silent : Silent s (s.closing.callbacks activity) := s.closing.silent_callbacks activity
  rcases s.close_cases activity with
    ⟨stopped, result⟩ | ⟨running, _, result⟩ | ⟨_, _, _, result⟩ | ⟨running, _, _, result⟩
  · rw [result]
    exact Or.inr ⟨stopped, rfl⟩
  · rw [result]
    exact Or.inl ⟨⟨rfl, rfl⟩, running⟩
  · rw [result]
    exact Or.inr ((notified_doClose _).after silent)
  · rw [result]
    exact Or.inl ⟨silent, running⟩

/-- A read leaves alone what a close goes by. -/
theorem read_closing (s : Session) (buffer : Buffer) :
    Silent s (s.read buffer).session ∧ (s.read buffer).session.pendingClose = s.pendingClose := by
  unfold Session.read Silent
  split
  · exact ⟨⟨rfl, rfl⟩, rfl⟩
  · dsimp only
    split <;> exact ⟨⟨rfl, rfl⟩, rfl⟩

theorem silent_write (s : Session) (buffer : Buffer) : Silent s (s.write buffer).session := by
  unfold Session.write Silent
  split
  · exact ⟨rfl, rfl⟩
  · split
    · exact ⟨rfl, rfl⟩
    · split
      · exact ⟨rfl, rfl⟩
      · dsimp only
        split <;> exact ⟨rfl, rfl⟩

end Session

end CurvecprAsio
