import CurvecprAsio.Prefix
import CurvecprAsio.Steps

set_option autoImplicit false

/- Reads and writes that wait for their timer, and the steps that make them able
to complete. -/
namespace CurvecprAsio

open SearchTree Strand Sweep Transition

/-- Nothing that starts at or below the cursor is left to be read. -/
def Scanned (queue : List BlockStatus) (cursor : Nat) : Prop :=
  ∀ element ∈ queue, element.block.offset ≤ cursor →
    element.block.endOffset ≤ cursor ∧ element.block.marked = false

section Loop

variable {pass : ReadPass} {block : Block}

theorem ReadPass.consume_nothing (passed : block.endOffset ≤ pass.distributed) :
    pass.consume block = (pass, false) := by
  simp only [ReadPass.consume, Nat.not_lt_of_le passed, and_false, ↓reduceIte]

theorem ReadPass.length_consume (pass : ReadPass) (block : Block) :
    (pass.consume block).1.buffer.length = pass.buffer.length := by
  unfold ReadPass.consume
  split
  · dsimp only
    split <;> exact Buffer.length_overwrite _ _ _
  · rfl

/-- A read that stops within a block has filled its buffer. -/
theorem ReadPass.consume_full (broke : (pass.consume block).2 = true) :
    (pass.consume block).1.readOffset = pass.buffer.length := by
  have small := pass.buffer.length_lt
  unfold ReadPass.consume at broke ⊢
  split at broke
  · rename_i unread
    simp only [unread, and_self, ↓reduceIte] at broke ⊢
    split at broke
    · rename_i partly
      simp only [partly, ↓reduceIte]
      show add64 pass.readOffset (sub64 pass.buffer.length pass.readOffset) = _
      unfold add64 sub64
      omega
    · cases broke
  · cases broke

theorem length_readLoop (queue : List BlockStatus) (pass : ReadPass) :
    (readLoop queue pass).2.buffer.length = pass.buffer.length := by
  apply readLoop_keeps fun later => later.buffer.length = pass.buffer.length
  · intro later block same _
    exact (later.length_consume block).trans same
  · exact fun _ _ same => same
  · rfl

theorem readLoop_ended (queue : List BlockStatus) (pass : ReadPass)
    (ended : pass.pendingEof = true) : (readLoop queue pass).2.pendingEof = true := by
  apply readLoop_keeps fun later => later.pendingEof = true
  · intro later block known _
    unfold ReadPass.consume
    split
    · dsimp only
      split <;> exact known
    · exact known
  · intro later block known
    simp only [ReadPass.distribute, known, Bool.true_or]
  · exact ended

/-- A read of what has been scanned changes nothing that decides whether it is done. -/
theorem readLoop_scanned (queue : List BlockStatus) (pass : ReadPass)
    (scanned : Scanned queue pass.distributed) :
    (readLoop queue pass).2.distributed = pass.distributed ∧
      (readLoop queue pass).2.readOffset = pass.readOffset ∧
      (readLoop queue pass).2.pendingEof = pass.pendingEof := by
  induction queue generalizing pass with
  | nil => exact ⟨rfl, rfl, rfl⟩
  | cons element rest ih =>
      simp only [readLoop]
      split
      · rename_i reached
        have here := scanned element List.mem_cons_self reached
        have next := ih (pass.distribute element.block)
          fun other member => scanned other (List.mem_cons_of_mem _ member)
        simp only [ReadPass.consume_nothing here.1, Bool.false_eq_true, ↓reduceIte]
        refine ⟨next.1, next.2.1, next.2.2.trans ?_⟩
        simp only [ReadPass.distribute, here.2, Bool.or_false]
      · exact ⟨rfl, rfl, rfl⟩

/-- What a pass has come to the end of is scanned, unless the stream ended there. -/
theorem ReadPass.Passed.scanned (passed : pass.Passed block) (open_ : pass.pendingEof = false) :
    block.endOffset ≤ pass.distributed ∧ block.marked = false := by
  refine ⟨passed.ends, ?_⟩
  by_contra marked
  have ended := passed.eof (by simpa using marked)
  exact Bool.noConfusion (open_.symm.trans ended)

/-- A read that has to wait has scanned the queue. -/
theorem readLoop_scans (queue : List BlockStatus) (pass : ReadPass)
    (sorted : Ordered blockRangeCompare queue) (word : pass.distributed < 2 ^ 64)
    (open_ : (readLoop queue pass).2.pendingEof = false)
    (short : (readLoop queue pass).2.readOffset ≠ pass.buffer.length) :
    Scanned (readLoop queue pass).1 (readLoop queue pass).2.distributed := by
  induction queue generalizing pass with
  | nil =>
      intro element member
      cases member
  | cons first rest ih =>
      have parts := List.pairwise_cons.mp sorted
      by_cases reached : first.block.offset ≤ pass.distributed
      · have small := (ReadPass.consume_limit word reached).1
        have length := pass.length_consume first.block
        have passed := passed_readLoop rest word reached
        have next := ih ((pass.consume first.block).1.distribute first.block) parts.2 small
        simp only [readLoop, reached, ↓reduceIte] at open_ short ⊢
        split at open_
        · rename_i broke
          simp only [broke, ↓reduceIte] at short
          exact absurd (ReadPass.consume_full broke) short
        · rename_i whole
          simp only [whole, Bool.false_eq_true, ↓reduceIte] at short ⊢
          have scanned := next open_ (by rw [← length] at short; exact short)
          have here := (passed (by simpa using whole)).scanned open_
          intro element member
          split at member
          · exact scanned element member
          · cases List.mem_cons.mp member with
            | inl same =>
                rw [same]
                exact fun _ => here
            | inr left => exact scanned element left
      · simp only [readLoop, reached, ↓reduceIte]
        intro element member begins
        have inOrder := List.pairwise_cons.mp (offsets_sorted sorted)
        have behind : first.block.offset ≤ element.block.offset := by
          cases List.mem_cons.mp member with
          | inl same => exact Nat.le_of_eq (congrArg BlockStatus.offset same).symm
          | inr later => exact inOrder.1 element later
        omega

end Loop

namespace Session

/-- No operation waits on the timer. -/
def Idle (s : Session) (timer : Timer) : Prop :=
  ∀ wait ∈ s.strand.waiting, wait.1 = timer → wait.2.asIoOp = none

instance (s : Session) (timer : Timer) : Decidable (s.Idle timer) :=
  inferInstanceAs (Decidable (∀ wait ∈ s.strand.waiting, wait.1 = timer → wait.2.asIoOp = none))

/-- The callback moves bytes from the ring to a head block. -/
def takesHead (s : Session) : Callback → Bool
  | .sendqHead =>
      !s.sendqHeadExists && (s.pendingUsed ≠ 0 || s.pendingEof) && !s.pending.isEmpty
  | _ => false

/-- One of the callbacks does. -/
def takesHeads (s : Session) : List Callback → Bool
  | [] => false
  | callback :: rest => s.takesHead callback || (s.callback callback).takesHeads rest

/-- What the waiting reads and writes go by: as long as a read waits, all that is
contiguous has been read, and as long as a write waits, its buffer does not fit. -/
structure WaitInv (s : Session) : Prop where
  sorted : s.Sorted
  word : s.recvmarkqDistributed < 2 ^ 64
  readers : ∀ operation, (Timer.pendingReadyRead, Handler.ioOp operation) ∈ s.strand.waiting →
    s.pendingEof = false ∧ Scanned s.recvmarkq s.recvmarkqDistributed ∧
      ∃ buffer, operation.op = .read buffer ∧ buffer.length ≠ 0 ∧
        s.recvmarkqReadOffset ≠ buffer.length
  writers : ∀ operation, (Timer.pendingReadyWrite, Handler.ioOp operation) ∈ s.strand.waiting →
    ∃ buffer, operation.op = .write buffer ∧ buffer.length ≠ 0 ∧
      sub64 s.pendingMaximum s.pendingUsed < buffer.length

/-- No write waits once the end of the stream is known. -/
def WritersOpen (s : Session) : Prop := s.pendingEof = true → s.Idle .pendingReadyWrite

/-- Run now, the operations that wait for a read or a write would wait again. -/
def Attended (s : Session) : Prop :=
  ∀ timer operation, (timer, Handler.ioOp operation) ∈ s.strand.waiting →
    timer = .pendingReadyRead ∨ timer = .pendingReadyWrite →
      ∀ activity, (operation.perform s activity).want ≠ .nothing

/-- What a wait goes by. -/
def waitState (s : Session) :
    (List BlockStatus × Nat × Nat × Nat × Bool) × Nat × Nat × Queue Timer Handler :=
  (s.receiveState, s.pendingMaximum, s.pendingUsed, s.strand)

theorem waitState_handleSendqMoveToSendmarkq (s : Session) (balance : Balance SentBlock)
    (block : SentBlock) :
    (s.handleSendqMoveToSendmarkq balance block).session.waitState = s.waitState := by
  unfold handleSendqMoveToSendmarkq
  split
  · split <;> rfl
  · split <;> rfl

/-- Three callbacks change what a wait goes by. -/
theorem waitState_callback (s : Session) (callback : Callback) :
    callback = .sendqHead ∨ (∃ block, callback = .recvmarkqPut block) ∨
      (∃ start stop, callback = .recvmarkqRemoveRange start stop) ∨
      ((s.callback callback).waitState = s.waitState ∧ s.takesHead callback = false) := by
  cases callback with
  | sendqHead => exact Or.inl rfl
  | stampHead id clock offset => exact Or.inr (Or.inr (Or.inr ⟨rfl, rfl⟩))
  | sendqMoveToSendmarkq balance =>
      exact Or.inr (Or.inr (Or.inr ⟨s.waitState_handleSendqMoveToSendmarkq balance _, rfl⟩))
  | resend balance pointer id clock =>
      refine Or.inr (Or.inr (Or.inr ⟨?_, rfl⟩))
      simp only [Session.callback, resend]
      split
      · exact waitState_handleSendqMoveToSendmarkq (s.stampSent pointer id clock) balance _
      · rfl
  | sendmarkqRemoveRange balance start stop => exact Or.inr (Or.inr (Or.inr ⟨rfl, rfl⟩))
  | recvmarkqPut block => exact Or.inr (Or.inl ⟨block, rfl⟩)
  | recvmarkqRemoveRange start stop => exact Or.inr (Or.inr (Or.inl ⟨start, stop, rfl⟩))
  | messager messager => exact Or.inr (Or.inr (Or.inr ⟨rfl, rfl⟩))

/-- Taking a head block from the ring wakes the writers; otherwise what a wait goes
by stays. -/
theorem waitState_handleSendqHead (s : Session) :
    (s.takesHead .sendqHead = true ∧
        s.handleSendqHead.session.strand = s.strand.cancel .pendingReadyWrite) ∨
      (s.takesHead .sendqHead = false ∧ s.handleSendqHead.session.waitState = s.waitState) := by
  by_cases exists_ : s.sendqHeadExists = true
  · have result : s.handleSendqHead.session = s := by
      simp only [handleSendqHead, exists_, ↓reduceIte]
    rw [result]
    exact Or.inr ⟨by simp [takesHead, exists_], rfl⟩
  · by_cases asked : s.pendingUsed ≠ 0 ∨ s.pendingEof = true
    · by_cases empty : s.pending.isEmpty = true
      · refine Or.inr ⟨by simp only [takesHead, empty, Bool.not_true, Bool.and_false], ?_⟩
        simp only [handleSendqHead, exists_, asked, takeHead, empty, ↓reduceIte]
        rfl
      · refine Or.inl ⟨by simpa [takesHead, exists_, empty] using asked, ?_⟩
        simp only [handleSendqHead, exists_, asked, takeHead, empty, Bool.false_eq_true,
          ↓reduceIte]
    · have result : s.handleSendqHead.session = s := by
        simp only [handleSendqHead, exists_, asked, ↓reduceIte, Bool.false_eq_true]
      have unasked : (decide (s.pendingUsed ≠ 0) || s.pendingEof) = false := by
        simpa using asked
      rw [result]
      exact Or.inr ⟨by simp only [takesHead, unasked, Bool.and_false, Bool.false_and], rfl⟩

namespace WaitInv

variable {s later : Session}

/-- Changes that leave the receive side as it is and start no waits of operations. -/
theorem keeps (inv : s.WaitInv) (receive : later.receiveState = s.receiveState)
    (waits : ∀ timer operation, (timer, Handler.ioOp operation) ∈ later.strand.waiting →
      (timer, Handler.ioOp operation) ∈ s.strand.waiting)
    (room : ∀ operation, (Timer.pendingReadyWrite, Handler.ioOp operation) ∈
      later.strand.waiting → sub64 later.pendingMaximum later.pendingUsed ≤
        sub64 s.pendingMaximum s.pendingUsed) : later.WaitInv := by
  simp only [receiveState, Prod.mk.injEq] at receive
  obtain ⟨queue, _, distributed, offset, ended⟩ := receive
  constructor
  · unfold Sorted
    rw [queue]
    exact inv.sorted
  · rw [distributed]
    exact inv.word
  · intro operation member
    rw [ended, queue, distributed, offset]
    exact inv.readers operation (waits _ _ member)
  · intro operation member
    obtain ⟨buffer, isWrite, nonempty, full⟩ := inv.writers operation (waits _ _ member)
    exact ⟨buffer, isWrite, nonempty, Nat.lt_of_le_of_lt (room operation member) full⟩

/-- A write that fits only leaves less room. -/
theorem same (inv : s.WaitInv) (same : later.waitState = s.waitState) : later.WaitInv := by
  simp only [waitState, Prod.mk.injEq] at same
  obtain ⟨receive, maximum, used, strand⟩ := same
  apply inv.keeps receive
  · intro timer operation member
    rw [strand] at member
    exact member
  · intro operation member
    rw [maximum, used]

theorem sendqHead (inv : s.WaitInv) : s.handleSendqHead.session.WaitInv := by
  rcases s.waitState_handleSendqHead with ⟨_, strand⟩ | ⟨_, same⟩
  · apply inv.keeps s.receiveState_handleSendqHead
    · intro timer operation member
      rw [strand] at member
      exact ((Queue.mem_waiting_finish _ _ _ _).mp member).1
    · intro operation member
      rw [strand] at member
      exact absurd rfl ((Queue.mem_waiting_finish _ _ _ _).mp member).2
  · exact inv.same same

theorem put (inv : s.WaitInv) (block : Block) :
    (s.handleRecvmarkqPut block).session.WaitInv := by
  have sorted := inv.sorted.put block
  unfold handleRecvmarkqPut at sorted ⊢
  split
  · exact inv
  · rename_i room
    simp only [room, ↓reduceIte] at sorted
    refine ⟨sorted, inv.word, ?_, ?_⟩
    · intro operation member
      dsimp only at member
      by_cases ended : s.pendingEof = true
      · rw [if_pos ended] at member
        exact Bool.noConfusion ((inv.readers operation member).1.symm.trans ended)
      · rw [if_neg ended] at member
        exact absurd rfl ((Queue.mem_waiting_finish _ _ _ _).mp member).2
    · intro operation member
      dsimp only at member
      split at member
      · exact inv.writers operation member
      · exact inv.writers operation ((Queue.mem_waiting_finish _ _ _ _).mp member).1

theorem removeRange (inv : s.WaitInv) (start stop : Nat) :
    (s.handleRecvmarkqRemoveRange start stop).WaitInv where
  sorted := inv.sorted.removeRange start stop
  word := inv.word
  readers := by
    intro operation member
    obtain ⟨open_, scanned, reads⟩ := inv.readers operation member
    refine ⟨open_, ?_, reads⟩
    intro element queued
    obtain ⟨old, inQueue, same, _⟩ := mem_handleRecvmarkqRemoveRange queued
    rw [same]
    exact scanned old inQueue
  writers := inv.writers

theorem callback (inv : s.WaitInv) (callback : Callback) : (s.callback callback).WaitInv := by
  rcases s.waitState_callback callback with rfl | ⟨block, rfl⟩ | ⟨start, stop, rfl⟩ | ⟨same, _⟩
  · exact inv.sendqHead
  · exact inv.put block
  · exact inv.removeRange start stop
  · exact inv.same same

end WaitInv

/-- Routine changes start no wait of an operation, and do not end the stream. -/
theorem routine_waits {s : Session} {change : Routine} (ordinary : s.Ordinary change) :
    (s.routine change).pendingEof = s.pendingEof ∧
      ∀ timer operation, (timer, Handler.ioOp operation) ∈ (s.routine change).strand.waiting →
        (timer, Handler.ioOp operation) ∈ s.strand.waiting := by
  cases change with
  | callback callback =>
      have spared := s.spared_callback callback
      exact ⟨spared.pendingEof, fun timer operation member => spared.strand.waits _ member⟩
  | rearm timer handler =>
      refine ⟨rfl, ?_⟩
      intro waited operation member
      rcases (Queue.mem_waiting_asyncWait _ _ _ _).mp member with old | new
      · exact ((Queue.mem_waiting_finish _ _ _ _).mp old).1
      · have other := ordinary.2
        rw [← (Prod.mk.inj new).2] at other
        cases other
  | dispatch handler => exact ⟨rfl, fun _ _ member => member⟩
  | take index => exact ⟨rfl, fun _ _ member => member⟩
  | expire timer =>
      exact ⟨rfl, fun _ _ member => ((Queue.mem_waiting_finish _ _ _ _).mp member).1⟩
  | runs => exact ⟨rfl, fun _ _ member => member⟩

theorem Goes.waits {s later : Session} (goes : s.Goes later) :
    later.pendingEof = s.pendingEof ∧
      ∀ timer operation, (timer, Handler.ioOp operation) ∈ later.strand.waiting →
        (timer, Handler.ioOp operation) ∈ s.strand.waiting := by
  induction goes with
  | start => exact ⟨rfl, fun _ _ member => member⟩
  | act before met ih =>
      have step := routine_waits met
      exact ⟨step.1.trans ih.1, fun timer operation member => ih.2 _ _ (step.2 _ _ member)⟩

theorem WaitInv.goes {s later : Session} (inv : s.WaitInv) (goes : s.Goes later) :
    later.WaitInv := by
  apply goes.invariant inv
  intro state change kept ordinary
  have waits := (routine_waits ordinary).2
  cases change with
  | callback callback => exact kept.callback callback
  | _ => exact kept.keeps rfl waits fun _ _ => Nat.le_refl _

theorem WritersOpen.goes {s later : Session} (open_ : s.WritersOpen) (goes : s.Goes later) :
    later.WritersOpen := by
  obtain ⟨same, waits⟩ := goes.waits
  intro ended wait member isWrite
  have before := open_ (same.symm.trans ended)
  obtain ⟨timer, handler⟩ := wait
  cases handler with
  | ioOp operation => exact before _ (waits _ _ member) isWrite
  | processSendQueue => rfl
  | doClose => rfl

/-- What a read or a write has found when it waits. -/
structure Blocked (s : Session) (what : Want) (operation : IoOp) : Prop where
  read : what = .read → s.pendingEof = false ∧ Scanned s.recvmarkq s.recvmarkqDistributed ∧
    ∃ buffer, operation.op = .read buffer ∧ buffer.length ≠ 0 ∧
      s.recvmarkqReadOffset ≠ buffer.length
  write : what = .write → s.pendingEof = false ∧ ∃ buffer, operation.op = .write buffer ∧
    buffer.length ≠ 0 ∧ sub64 s.pendingMaximum s.pendingUsed < buffer.length

theorem Blocked.other {s : Session} {what : Want} {operation : IoOp} (unread : what ≠ .read)
    (unwritten : what ≠ .write) : s.Blocked what operation :=
  ⟨fun isRead => absurd isRead unread, fun isWrite => absurd isWrite unwritten⟩

theorem WaitInv.asyncPendingWait {s : Session} (inv : s.WaitInv) {what : Want} {operation : IoOp}
    (blocked : s.Blocked what operation) : (s.asyncPendingWait what operation).WaitInv := by
  cases what with
  | nothing => exact inv
  | read =>
      refine ⟨inv.sorted, inv.word, ?_, ?_⟩
      · intro other member
        rcases (Queue.mem_waiting_asyncWait _ _ _ _).mp member with old | new
        · exact inv.readers other old
        · cases new
          exact blocked.read rfl
      · intro other member
        rcases (Queue.mem_waiting_asyncWait _ _ _ _).mp member with old | new
        · exact inv.writers other old
        · cases new
  | write =>
      refine ⟨inv.sorted, inv.word, ?_, ?_⟩
      · intro other member
        rcases (Queue.mem_waiting_asyncWait _ _ _ _).mp member with old | new
        · exact inv.readers other old
        · cases new
      · intro other member
        rcases (Queue.mem_waiting_asyncWait _ _ _ _).mp member with old | new
        · exact inv.writers other old
        · cases new
          exact (blocked.write rfl).2
  | close =>
      refine ⟨inv.sorted, inv.word, ?_, ?_⟩
      · intro other member
        rcases (Queue.mem_waiting_asyncWait _ _ _ _).mp member with old | new
        · exact inv.readers other old
        · cases new
      · intro other member
        rcases (Queue.mem_waiting_asyncWait _ _ _ _).mp member with old | new
        · exact inv.writers other old
        · cases new

theorem WritersOpen.asyncPendingWait {s : Session} (open_ : s.WritersOpen) {what : Want}
    {operation : IoOp} (blocked : s.Blocked what operation) :
    (s.asyncPendingWait what operation).WritersOpen := by
  have added : ∀ timer, (timer = .pendingReadyWrite → s.pendingEof = false) →
      WritersOpen { s with strand := s.strand.asyncWait timer (.ioOp operation) } := by
    intro timer apart ended wait member isWrite
    rcases (Queue.mem_waiting_asyncWait _ _ _ _).mp member with old | rfl
    · exact open_ ended wait old isWrite
    · exact Bool.noConfusion ((apart isWrite).symm.trans ended)
  cases what with
  | nothing => exact open_
  | read => exact added _ fun isWrite => by cases isWrite
  | write => exact added _ fun _ => (blocked.write rfl).1
  | close => exact added _ fun isWrite => by cases isWrite

namespace WaitInv

variable {s : Session}

theorem read (inv : s.WaitInv) (buffer : Buffer) : (s.read buffer).session.WaitInv := by
  have sorted := inv.sorted.read buffer
  have strand := s.strand_read buffer
  obtain ⟨queue, distributed, offset, ended, contiguous, changed⟩ := s.read_changes buffer
  constructor
  · exact sorted
  · by_cases empty : buffer.length = 0
    · simp only [Session.read, empty, ↓reduceIte]
      exact inv.word
    · rw [(s.read_spec empty).distributed]
      exact readLoop_word _ _ inv.word
  · intro operation member
    rw [strand] at member
    obtain ⟨open_, scanned, other, isRead, nonempty, short⟩ := inv.readers operation member
    by_cases empty : buffer.length = 0
    · simp only [Session.read, empty, ↓reduceIte]
      exact ⟨open_, scanned, other, isRead, nonempty, Ne.symm nonempty⟩
    · -- the read finds nothing, so at most it resets the offset
      have spec := s.read_spec empty
      obtain ⟨cursor, filled, known⟩ :=
        readLoop_scanned s.recvmarkq (s.readEntry buffer) scanned
      have kept : (s.readPass buffer).2.distributed = s.recvmarkqDistributed := cursor
      refine ⟨spec.pendingEof.trans (known.trans open_), ?_, other, isRead, nonempty, ?_⟩
      · rw [spec.queue, spec.distributed, kept]
        intro element queued
        obtain ⟨old, inQueue, same⟩ := readLoop_blocks _ _ element queued
        rw [same]
        exact scanned old inQueue
      · cases done : (s.read buffer).done with
        | true =>
            rw [(spec.finished done).1]
            exact Ne.symm nonempty
        | false =>
            rw [spec.waits done]
            exact fun full => short (filled.symm.trans full)
  · intro operation member
    rw [strand] at member
    rw [changed]
    exact inv.writers operation member

/-- A read that is not done has scanned the queue. -/
theorem blocked_read (inv : s.WaitInv) {buffer : Buffer} (waits : (s.read buffer).done = false)
    {operation : IoOp} (isRead : operation.op = .read (s.read buffer).buffer) :
    (s.read buffer).session.Blocked .read operation where
  read := by
    intro _
    have nonempty : buffer.length ≠ 0 := by
      intro empty
      simp [Session.read, empty] at waits
    have spec := s.read_spec nonempty
    have incomplete := (not_congr (s.read_done_iff nonempty)).mp (by simp [waits])
    have open_ : (s.readPass buffer).2.pendingEof = false := by
      simpa using fun ended => incomplete (Or.inr ended)
    have short : (s.readPass buffer).2.readOffset ≠ buffer.length :=
      fun full => incomplete (Or.inl full)
    have length : (s.read buffer).buffer.length = buffer.length := by
      rw [spec.held]
      exact length_readLoop s.recvmarkq (s.readEntry buffer)
    refine ⟨spec.pendingEof.trans open_, ?_, _, isRead, ?_, ?_⟩
    · rw [spec.queue, spec.distributed]
      exact readLoop_scans _ (s.readEntry buffer) inv.sorted inv.word open_ short
    · rw [length]
      exact nonempty
    · rw [spec.waits waits, length]
      exact short
  write := fun isWrite => by cases isWrite

theorem write (inv : s.WaitInv) (buffer : Buffer) : (s.write buffer).session.WaitInv := by
  unfold Session.write
  split
  · exact inv
  · split
    · exact inv
    · split
      · exact inv
      · rename_i room
        have less : sub64 s.pendingMaximum (add64 s.pendingUsed buffer.length) ≤
            sub64 s.pendingMaximum s.pendingUsed := by
          rw [sub64_add64 (Nat.le_of_not_lt room)]
          exact Nat.sub_le _ _
        have filled : WaitInv { s with
            pending := (s.fill buffer).1
            pendingNext := (s.fill buffer).2.1
            pendingUsed := add64 s.pendingUsed buffer.length } :=
          inv.keeps rfl (fun _ _ member => member) fun _ _ => less
        dsimp only
        split
        · exact filled.goes (goes_rescheduleProcessSendQueue _)
        · exact filled

theorem blocked_write {buffer : Buffer} (waits : (s.write buffer).done = false)
    {operation : IoOp} (isWrite : operation.op = .write buffer) :
    (s.write buffer).session.Blocked .write operation where
  read := fun isRead => by cases isRead
  write := by
    intro _
    unfold Session.write at waits ⊢
    split
    · rename_i empty
      simp [empty] at waits
    · rename_i nonempty
      split
      · rename_i ended
        simp [nonempty, ended] at waits
      · rename_i open_
        split
        · rename_i full
          exact ⟨by simpa using open_, buffer, isWrite, nonempty, full⟩
        · rename_i room
          simp [nonempty, open_, room] at waits

/-- The operations that wait would wait again. -/
theorem attended (inv : s.WaitInv) (open_ : s.WritersOpen) : s.Attended := by
  intro timer operation member isReady activity
  rcases isReady with rfl | rfl
  · obtain ⟨known, scanned, buffer, isRead, nonempty, short⟩ := inv.readers operation member
    obtain ⟨_, filled, ended⟩ := readLoop_scanned s.recvmarkq (s.readEntry buffer) scanned
    have waits : ¬ (s.read buffer).done = true := by
      rw [s.read_done_iff nonempty]
      intro complete
      rcases complete with full | atEnd
      · exact short (filled.symm.trans full)
      · exact Bool.noConfusion ((ended.symm.trans atEnd).symm.trans known)
    simp [IoOp.perform, isRead, waits]
  · obtain ⟨buffer, isWrite, nonempty, full⟩ := inv.writers operation member
    have known : ¬ s.pendingEof = true := by
      intro ended
      have none_ := open_ ended _ member rfl
      cases none_
    simp [IoOp.perform, isWrite, Session.write, nonempty, known, full]

end WaitInv

/-- At EOF a put wakes nobody, so only taking a head block ends waits. -/
theorem waiting_callback (s : Session) (ended : s.pendingEof = true) (callback : Callback)
    (wait : Timer × Handler) :
    wait ∈ (s.callback callback).strand.waiting ↔
      wait ∈ s.strand.waiting ∧ (s.takesHead callback = true → wait.1 ≠ .pendingReadyWrite) := by
  rcases s.waitState_callback callback with rfl | ⟨block, rfl⟩ | ⟨start, stop, rfl⟩ | ⟨same, none_⟩
  · rcases s.waitState_handleSendqHead with ⟨takes, strand⟩ | ⟨none_, same⟩
    · simp only [Session.callback, strand, Queue.cancel, Queue.mem_waiting_finish, takes,
        forall_const]
    · simp only [waitState, Prod.mk.injEq] at same
      simp only [Session.callback, same, none_, Bool.false_eq_true, false_implies, and_true]
  · simp only [Session.callback, handleRecvmarkqPut, takesHead, Bool.false_eq_true,
      false_implies, and_true]
    split <;> exact Iff.rfl
  · simp only [Session.callback, handleRecvmarkqRemoveRange, takesHead, Bool.false_eq_true,
      false_implies, and_true]
  · simp only [waitState, Prod.mk.injEq] at same
    simp only [same, none_, Bool.false_eq_true, false_implies, and_true]

theorem waiting_callbacks (s : Session) (ended : s.pendingEof = true)
    (activity : List Callback) (wait : Timer × Handler) :
    wait ∈ (s.callbacks activity).strand.waiting ↔
      wait ∈ s.strand.waiting ∧
        (s.takesHeads activity = true → wait.1 ≠ .pendingReadyWrite) := by
  induction activity generalizing s with
  | nil => simp [callbacks, takesHeads]
  | cons callback rest ih =>
      have still := (s.spared_callback callback).pendingEof.trans ended
      have later : wait ∈ (s.callbacks (callback :: rest)).strand.waiting ↔ _ :=
        ih (s.callback callback) still
      rw [later, s.waiting_callback ended callback wait]
      simp only [takesHeads, Bool.or_eq_true]
      tauto

theorem waitInv_doClose (s : Session) : (s.doClose .success).WaitInv ∧
    (s.doClose .success).WritersOpen := by
  have idle := s.waiting_doClose
  refine ⟨⟨List.Pairwise.nil, (by decide : 0 < 2 ^ 64), ?_, ?_⟩, ?_⟩
  · intro operation member
    rw [idle] at member
    cases member
  · intro operation member
    rw [idle] at member
    cases member
  · intro ended
    cases ended

/-- An effective close finds no read waiting, and no write that it does not wake. -/
def WakesAll (s : Session) (activity : List Callback) : Prop :=
  s.running = true → s.pendingClose = false → (s.closing.callbacks activity).final = false →
    s.Idle .pendingReadyRead ∧
      (s.Idle .pendingReadyWrite ∨ s.closing.takesHeads activity = true)

theorem WaitInv.close {s : Session} (inv : s.WaitInv) (open_ : s.WritersOpen)
    {activity : List Callback} (wakes : s.WakesAll activity) :
    (s.close activity).session.WaitInv ∧ (s.close activity).session.WritersOpen := by
  rcases s.close_cases activity with
    ⟨_, result⟩ | ⟨_, _, result⟩ | ⟨_, _, _, result⟩ | ⟨running, pending, final, result⟩
  · rw [result]
    have waits : ∀ wait ∈ ((s.strand.cancel .pendingReadyRead).cancel
        .pendingReadyWrite).waiting, wait ∈ s.strand.waiting ∧ wait.1 ≠ .pendingReadyWrite := by
      intro wait member
      obtain ⟨first, apart⟩ := (Queue.mem_waiting_finish _ _ _ _).mp member
      exact ⟨((Queue.mem_waiting_finish _ _ _ _).mp first).1, apart⟩
    refine ⟨inv.keeps rfl (fun _ _ member => (waits _ member).1) fun _ _ => Nat.le_refl _, ?_⟩
    intro _ wait member isWrite
    exact absurd isWrite (waits wait member).2
  · rw [result]
    exact ⟨inv, open_⟩
  · rw [result]
    exact waitInv_doClose _
  · rw [result]
    obtain ⟨idle, taken⟩ := wakes running pending final
    have marked : s.closing.WaitInv := by
      refine ⟨inv.sorted, inv.word, ?_, inv.writers⟩
      intro operation member
      have none_ := idle _ member rfl
      cases none_
    refine ⟨marked.goes (s.goes_closing activity), ?_⟩
    have rest : (s.closing.callbacks activity).Goes
        (s.closing.callbacks activity).rescheduleProcessSendQueue.armClose :=
      (goes_rescheduleProcessSendQueue _).trans (goes_armClose _)
    apply WritersOpen.goes _ rest
    intro _ wait member isWrite
    obtain ⟨before, apart⟩ := (s.closing.waiting_callbacks rfl activity wait).mp member
    rcases taken with none_ | takes
    · exact none_ wait before isWrite
    · exact absurd isWrite (apart takes)

/-- At EOF nothing that waits would wait again. -/
theorem attended_ended {s : Session} (attended : s.Attended) (ended : s.pendingEof = true)
    {timer : Timer} {operation : IoOp} (isReady : timer = .pendingReadyRead ∨
      timer = .pendingReadyWrite) (transfers : operation.op.Transfers)
    (waits : (timer, Handler.ioOp operation) ∈ s.strand.waiting) : False := by
  apply attended timer operation waits isReady []
  unfold IoOp.perform
  split
  · rename_i buffer isRead
    rw [isRead] at transfers
    have done : (s.read buffer).done = true :=
      (s.read_done_iff transfers).mpr (Or.inr (readLoop_ended _ _ ended))
    simp only [done, ↓reduceIte]
  · rename_i buffer isWrite
    rw [isWrite] at transfers
    have nonempty : buffer.length ≠ 0 := transfers
    simp only [Session.write, nonempty, ended, ↓reduceIte]
  · rename_i isClose
    rw [isClose] at transfers
    exact transfers.elim

theorem waiting_asyncPendingWait (s : Session) (what : Want) (operation : IoOp)
    (wait : Timer × Handler) (waits : wait ∈ s.strand.waiting) :
    wait ∈ (s.asyncPendingWait what operation).strand.waiting := by
  cases what with
  | nothing => exact waits
  | read => exact (Queue.mem_waiting_asyncWait _ _ _ _).mpr (Or.inl waits)
  | write => exact (Queue.mem_waiting_asyncWait _ _ _ _).mpr (Or.inl waits)
  | close => exact (Queue.mem_waiting_asyncWait _ _ _ _).mpr (Or.inl waits)

/-- At EOF no read and no write is left waiting. -/
def NoneAsleep (s : Session) : Prop :=
  s.pendingEof = true → ∀ timer operation, timer = .pendingReadyRead ∨
    timer = .pendingReadyWrite → operation.op.Transfers →
      (timer, Handler.ioOp operation) ∉ s.strand.waiting

/-- A step after which waits are attended has left nobody asleep before the wait
of its own operation began. -/
theorem noneAsleep_of_attended {s : Session} {what : Want} {operation : IoOp}
    (attended : (s.asyncPendingWait what operation).Attended) : s.NoneAsleep := by
  intro ended timer other isReady transfers waits
  have same := pendingEof_of_receiveState (s.receiveState_asyncPendingWait what operation)
  exact attended_ended attended (same.trans ended) isReady transfers
    (waiting_asyncPendingWait s what operation _ waits)

theorem WaitInv.idle_of {s : Session} (inv : s.WaitInv) {timer : Timer}
    (isReady : timer = .pendingReadyRead ∨ timer = .pendingReadyWrite)
    (asleep : ∀ operation, operation.op.Transfers →
      (timer, Handler.ioOp operation) ∉ s.strand.waiting) : s.Idle timer := by
  rintro ⟨waited, handler⟩ member same
  rw [show waited = timer from same] at member
  cases handler with
  | processSendQueue => rfl
  | doClose => rfl
  | ioOp operation =>
      have transfers : operation.op.Transfers := by
        rcases isReady with rfl | rfl
        · obtain ⟨_, _, buffer, isRead, nonempty, _⟩ := inv.readers operation member
          rw [isRead]
          exact nonempty
        · obtain ⟨buffer, isWrite, nonempty, _⟩ := inv.writers operation member
          rw [isWrite]
          exact nonempty
      exact absurd member (asleep operation transfers)

/-- An effective close leaves nobody asleep only if it wakes all. -/
theorem WaitInv.wakesAll {s : Session} (inv : s.WaitInv) {activity : List Callback}
    (none_ : (s.close activity).session.NoneAsleep) : s.WakesAll activity := by
  intro running pending final
  rcases s.close_cases activity with
    ⟨stopped, _⟩ | ⟨_, closing, _⟩ | ⟨_, _, closes, _⟩ | ⟨_, _, _, result⟩
  · exact Bool.noConfusion (stopped.symm.trans running)
  · exact Bool.noConfusion (pending.symm.trans closing)
  · exact Bool.noConfusion (final.symm.trans closes)
  · rw [result] at none_
    have ended : (s.closing.callbacks activity).rescheduleProcessSendQueue.armClose.pendingEof =
        true := (s.closing.spared_callbacks activity).pendingEof
    have gone : ∀ timer operation, timer = .pendingReadyRead ∨ timer = .pendingReadyWrite →
        (s.closing.takesHeads activity = true → timer ≠ .pendingReadyWrite) →
        operation.op.Transfers → (timer, Handler.ioOp operation) ∉ s.strand.waiting := by
      intro timer operation isReady apart transfers member
      have after := (s.closing.waiting_callbacks rfl activity _).mpr ⟨member, apart⟩
      apply none_ ended timer operation isReady transfers
      apply (Queue.mem_waiting_asyncWait _ _ _ _).mpr
      refine Or.inl ((Queue.mem_waiting_finish _ _ _ _).mpr ⟨?_, ?_⟩)
      · apply (Queue.mem_waiting_asyncWait _ _ _ _).mpr
        refine Or.inl ((Queue.mem_waiting_finish _ _ _ _).mpr ⟨after, ?_⟩)
        rcases isReady with rfl | rfl <;> simp
      · rcases isReady with rfl | rfl <;> simp
    constructor
    · exact inv.idle_of (Or.inl rfl) fun operation =>
        gone _ operation (Or.inl rfl) fun _ => by decide
    · by_cases takes : s.closing.takesHeads activity = true
      · exact Or.inr takes
      · exact Or.inl (inv.idle_of (Or.inr rfl) fun operation =>
          gone _ operation (Or.inr rfl) fun taken => absurd taken takes)

instance (s : Session) (activity : List Callback) : Decidable (s.WakesAll activity) :=
  inferInstanceAs (Decidable (s.running = true → s.pendingClose = false →
    (s.closing.callbacks activity).final = false → s.Idle .pendingReadyRead ∧
      (s.Idle .pendingReadyWrite ∨ s.closing.takesHeads activity = true)))

/-- A read that gets to the end of the stream finds no write waiting, and an
effective close wakes every operation that waits. -/
def wakesWaiters (s : Session) (activity : List Callback) : Operation → Guard
  | .read buffer => .of (buffer.length ≠ 0 → (Operation.read buffer).EofDue s →
      s.Idle .pendingReadyWrite)
  | .write _ => .free
  | .close => .of (s.WakesAll activity)

/-- The same of an operation that a step calls, if any. -/
def calledWakes (s : Session) : Option (IoOp × List Callback) → Guard
  | some (operation, activity) => s.wakesWaiters activity operation.op
  | none => .free

abbrev WakesWaiters (s : Session) (activity : List Callback) (op : Operation) : Prop :=
  (s.wakesWaiters activity op).holds

abbrev CalledWakes (s : Session) (called : Option (IoOp × List Callback)) : Prop :=
  (s.calledWakes called).holds

theorem WritersOpen.read {s : Session} (open_ : s.WritersOpen) (inv : s.WaitInv) {buffer : Buffer}
    (wakes : buffer.length ≠ 0 → (Operation.read buffer).EofDue s → s.Idle .pendingReadyWrite) :
    (s.read buffer).session.WritersOpen := by
  have strand := s.strand_read buffer
  intro ended
  unfold Idle
  rw [strand]
  by_cases empty : buffer.length = 0
  · simp only [Session.read, empty, ↓reduceIte] at ended
    exact open_ ended
  · rw [(s.read_spec empty).pendingEof] at ended
    exact wakes empty ((readLoop_eof_iff _ (s.readEntry buffer) inv.word).mp ended)

/-- A read that gets to the end of the stream leaves nobody asleep only if no write
waits. -/
theorem WaitInv.wakesWaiters {s : Session} (inv : s.WaitInv) {operation : IoOp}
    {activity : List Callback}
    (none_ : (operation.perform s activity).session.NoneAsleep) :
    s.WakesWaiters activity operation.op := by
  unfold IoOp.perform at none_
  cases isOp : operation.op with
  | read buffer =>
      simp only [isOp] at none_
      intro nonempty due
      have ended : (s.read buffer).session.pendingEof = true := by
        rw [(s.read_spec nonempty).pendingEof]
        exact (readLoop_eof_iff _ (s.readEntry buffer) inv.word).mpr due
      apply inv.idle_of (Or.inr rfl)
      intro other transfers waits
      apply none_ ended _ other (Or.inr rfl) transfers
      rw [s.strand_read buffer]
      exact waits
  | write buffer => trivial
  | close =>
      simp only [isOp] at none_
      exact inv.wakesAll none_

theorem WritersOpen.write {s : Session} (open_ : s.WritersOpen) (buffer : Buffer) :
    (s.write buffer).session.WritersOpen := by
  unfold Session.write
  split
  · exact open_
  · split
    · exact open_
    · split
      · exact open_
      · have filled : WritersOpen { s with
            pending := (s.fill buffer).1
            pendingNext := (s.fill buffer).2.1
            pendingUsed := add64 s.pendingUsed buffer.length } := open_
        dsimp only
        split
        · exact filled.goes (goes_rescheduleProcessSendQueue _)
        · exact filled

theorem WaitInv.perform {s : Session} (inv : s.WaitInv) (open_ : s.WritersOpen)
    {operation : IoOp} {activity : List Callback} (wakes : s.WakesWaiters activity operation.op) :
    (operation.perform s activity).session.WaitInv ∧
      (operation.perform s activity).session.WritersOpen ∧
      (operation.perform s activity).session.Blocked (operation.perform s activity).want
        (operation.perform s activity).operation := by
  unfold IoOp.perform
  split
  · rename_i buffer isRead
    rw [isRead] at wakes
    refine ⟨inv.read buffer, open_.read inv wakes, ?_⟩
    cases done : (s.read buffer).done with
    | true =>
        simp only [done, ↓reduceIte]
        exact .other (by decide) (by decide)
    | false =>
        simp only [done, Bool.false_eq_true, ↓reduceIte]
        exact inv.blocked_read done rfl
  · rename_i buffer isWrite
    refine ⟨inv.write buffer, open_.write buffer, ?_⟩
    cases done : (s.write buffer).done with
    | true =>
        simp only [done, ↓reduceIte]
        exact .other (by decide) (by decide)
    | false =>
        simp only [done, Bool.false_eq_true, ↓reduceIte]
        exact blocked_write done isWrite
  · rename_i isClose
    rw [isClose] at wakes
    have closed := inv.close open_ wakes
    refine ⟨closed.1, closed.2, ?_⟩
    dsimp only
    split
    · exact .other (by decide) (by decide)
    · exact .other (by decide) (by decide)

end Session

namespace Service

/-- The operation that a step calls wakes all that it makes able to complete. -/
def WakesWaiters (service : Service) (action : ServiceAction) : Prop :=
  service.Possible action ∧ (service.found action).CalledWakes (service.called action)

instance (service : Service) (action : ServiceAction) :
    Decidable (service.WakesWaiters action) :=
  inferInstanceAs (Decidable (service.Possible action ∧
    (service.found action).CalledWakes (service.called action)))

/-- Run now, the reads and writes that wait would wait again. -/
def Attended (service : Service) : Prop := service.session.Attended

variable {service : Service} {action : ServiceAction}

theorem waitInv_next (inv : service.session.WaitInv) (open_ : service.session.WritersOpen)
    (wakes : service.WakesWaiters action) :
    (service.next action).session.WaitInv ∧ (service.next action).session.WritersOpen := by
  rcases next_cases wakes.1 with
    ⟨operation, activity, called, result⟩ | ⟨_, _, later, _, result⟩ | ⟨_, _, goes⟩
  · have before := inv.goes (goes_found action)
    have met := wakes.2
    rw [called] at met
    have performed := before.perform (open_.goes (goes_found action)) met
    rw [result]
    exact ⟨performed.1.asyncPendingWait performed.2.2,
      performed.2.1.asyncPendingWait performed.2.2⟩
  · rw [result]
    exact Session.waitInv_doClose later
  · exact ⟨inv.goes goes, open_.goes goes⟩

/-- A step that leaves the waits attended wakes the waiters. -/
theorem wakesWaiters_of_attended (inv : service.session.WaitInv)
    (possible : service.Possible action) (attended : (service.next action).Attended) :
    service.WakesWaiters action := by
  refine ⟨possible, ?_⟩
  rcases next_cases possible with
    ⟨operation, activity, called, result⟩ | ⟨uncalled, _⟩ | ⟨uncalled, _⟩
  · rw [called]
    unfold Attended at attended
    rw [result] at attended
    exact (inv.goes (goes_found action)).wakesWaiters (Session.noneAsleep_of_attended attended)
  · rw [uncalled]
    trivial
  · rw [uncalled]
    trivial

end Service

theorem Session.Fresh.waitInv {s : Session} (fresh : s.Fresh) : s.WaitInv ∧ s.WritersOpen := by
  refine ⟨⟨?_, ?_, ?_, ?_⟩, ?_⟩
  · unfold Sorted
    rw [fresh.recvmarkq]
    exact List.Pairwise.nil
  · rw [fresh.recvmarkqDistributed]
    decide
  · intro operation member
    rw [fresh.waiting] at member
    cases member
  · intro operation member
    rw [fresh.waiting] at member
    cases member
  · intro ended
    rw [fresh.pendingEof] at ended
    cases ended

/-- Along a run the waiting reads and writes would all wait again, exactly when every
step wakes the waiters that it makes able to complete. -/
theorem waits_are_attended {session : Session} (fresh : session.Fresh)
    {actions : List ServiceAction}
    (possible : AllMet Service.next Service.Possible { session := session } actions) :
    AllMet Service.next Service.WakesWaiters { session := session } actions ↔
      ∀ count, ((actions.take count).foldl Service.next { session := session }).Attended := by
  have initial := fresh.waitInv
  have kept : ∀ service action, service.session.WaitInv ∧ service.session.WritersOpen →
      Service.Possible service action → Service.WakesWaiters service action →
      (service.next action).session.WaitInv ∧ (service.next action).session.WritersOpen :=
    fun _ _ inv _ met => Service.waitInv_next inv.1 inv.2 met
  apply AllMet.iff_always kept _ initial (initial.1.attended initial.2) possible
  intro service action inv _ possible
  constructor
  · intro met
    have after := Service.waitInv_next inv.1 inv.2 met
    exact after.1.attended after.2
  · exact Service.wakesWaiters_of_attended inv.1 possible

/-- A read waits for a block, and a write for room in a ring of one byte. -/
theorem waits_are_attended_waiting :
    let session : Session := { pendingMaximum := 1 }
    let actions : List ServiceAction :=
      [.start, .run 0 [], .beginInside 1 (.read ⟨[0], by decide⟩) [],
        .beginInside 2 (.write ⟨[7], by decide⟩) [],
        .beginInside 3 (.write ⟨[8], by decide⟩) [],
        .receive [.sendqHead, .recvmarkqPut { data := [1] }]]
    (∀ count, ((actions.take count).foldl Service.next { session := session }).Attended) ∧
      (actions.foldl Service.next { session := session }).session.strand.ready.length = 3 :=
  ⟨(waits_are_attended (Session.fresh_configured _ _ _) (by decide)).mp (by decide), by decide⟩

/-- A close sets EOF while a read waits. -/
theorem closed_read_is_not_woken :
    ¬ ∀ (session : Session) (actions : List ServiceAction), session.Fresh →
      AllMet Service.next Service.Possible { session := session } actions →
      ∀ count, ((actions.take count).foldl Service.next { session := session }).Attended := by
  intro claimed
  have attended := claimed {} [.start, .run 0 [], .beginInside 1 (.read ⟨[0], by decide⟩) [],
    .beginInside 2 .close []] (Session.fresh_configured _ _ _) (by decide) 4
  exact absurd rfl (attended .pendingReadyRead { handler := 1, op := .read ⟨[0], by decide⟩ }
    (by decide) (Or.inl rfl) [])

end CurvecprAsio
