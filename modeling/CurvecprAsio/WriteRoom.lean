import CurvecprAsio.Sender
import CurvecprAsio.Wakeup

set_option autoImplicit false

/- The writes that wait for room in the ring of a session that is not closing. -/
namespace CurvecprAsio

open Strand Transition

namespace Session

theorem ringState_callback (s : Session) (callback : Callback) :
    callback = .sendqHead ∨ (s.callback callback).ringState = s.ringState := by
  have moves : ∀ (session : Session) (balance : SearchTree.Balance SentBlock) (block : SentBlock),
      (session.handleSendqMoveToSendmarkq balance block).session.ringState =
        session.ringState := by
    intro session balance block
    unfold handleSendqMoveToSendmarkq
    split
    · split <;> rfl
    · split <;> rfl
  cases callback with
  | sendqHead => exact Or.inl rfl
  | sendqMoveToSendmarkq balance => exact Or.inr (moves s balance _)
  | resend balance pointer id clock =>
      refine Or.inr ?_
      simp only [Session.callback, resend]
      split
      · exact moves (s.stampSent pointer id clock) balance _
      · rfl
  | recvmarkqPut block =>
      refine Or.inr ?_
      rcases s.handleRecvmarkqPut_cases block with ⟨refused, _⟩ | ⟨_, queue, strand, stored, _⟩
      · simp only [Session.callback, refused]
      · simp only [Session.callback, stored]
        rfl
  | _ => exact Or.inr rfl

theorem fill_allocates (s : Session) (buffer : Buffer) (positive : 0 < s.pendingMaximum) :
    (s.fill buffer).1.isEmpty = false := by
  have resized : 0 < (if s.pending.isEmpty then List.replicate s.pendingMaximum 0
      else s.pending).length := by
    split
    · rw [List.length_replicate]
      exact positive
    · rename_i filled
      apply List.length_pos_of_ne_nil
      intro empty
      rw [empty] at filled
      exact filled rfl
  apply List.isEmpty_eq_false_iff.mpr
  apply List.ne_nil_of_length_pos
  unfold fill
  dsimp only
  split
  · rw [Ring.length_overwrite, Ring.length_overwrite]
    exact resized
  · rw [Ring.length_overwrite]
    exact resized

/-- The ring of `maximum` bytes is allocated before it is used, and no write waits
that the empty ring has no room for. -/
structure RoomInv (maximum : Nat) (s : Session) : Prop where
  size : s.pendingMaximum = maximum
  allocated : s.pendingUsed ≠ 0 → s.pending.isEmpty = false
  fits : ∀ operation buffer, (Timer.pendingReadyWrite, Handler.ioOp operation) ∈
    s.strand.waiting → operation.op = .write buffer → buffer.length ≤ maximum

namespace RoomInv

variable {maximum : Nat} {s later : Session}

theorem same (inv : RoomInv maximum s) (ring : later.ringState = s.ringState)
    (waits : ∀ timer operation, (timer, Handler.ioOp operation) ∈ later.strand.waiting →
      (timer, Handler.ioOp operation) ∈ s.strand.waiting) : RoomInv maximum later := by
  simp only [ringState, Prod.mk.injEq] at ring
  obtain ⟨pending, pendingMaximum, used, _, _⟩ := ring
  refine ⟨pendingMaximum.trans inv.size, ?_, ?_⟩
  · rw [used, pending]
    exact inv.allocated
  · intro operation buffer member isWrite
    exact inv.fits operation buffer (waits _ _ member) isWrite

/-- Nothing is taken from a ring that is not allocated. -/
theorem handleSendqHead_ring (s : Session) :
    s.handleSendqHead.session.pendingMaximum = s.pendingMaximum ∧
      s.handleSendqHead.session.pending = s.pending ∧
      (s.pending.isEmpty = true → s.handleSendqHead.session.pendingUsed = s.pendingUsed) := by
  unfold handleSendqHead
  split
  · exact ⟨rfl, rfl, fun _ => rfl⟩
  · split
    · unfold takeHead
      split
      · exact ⟨rfl, rfl, fun _ => rfl⟩
      · rename_i filled
        exact ⟨rfl, rfl, fun empty => absurd empty filled⟩
    · exact ⟨rfl, rfl, fun _ => rfl⟩

theorem callback (inv : RoomInv maximum s) (callback : Callback) :
    RoomInv maximum (s.callback callback) := by
  have waits : ∀ timer operation,
      (timer, Handler.ioOp operation) ∈ (s.callback callback).strand.waiting →
        (timer, Handler.ioOp operation) ∈ s.strand.waiting :=
    fun timer operation member => (s.spared_callback callback).strand.waits _ member
  rcases s.ringState_callback callback with rfl | ring
  · obtain ⟨same, pending, used⟩ := handleSendqHead_ring s
    refine ⟨same.trans inv.size, ?_, ?_⟩
    · intro some
      show s.handleSendqHead.session.pending.isEmpty = false
      rw [pending]
      by_cases empty : s.pending.isEmpty = true
      · exact inv.allocated fun nothing => some ((used empty).trans nothing)
      · simpa using empty
    · intro operation buffer member isWrite
      exact inv.fits operation buffer (waits _ _ member) isWrite
  · exact inv.same ring waits

theorem goes (inv : RoomInv maximum s) (goes : s.Goes later) : RoomInv maximum later := by
  apply goes.invariant inv
  intro state change kept ordinary
  have waits := (routine_waits ordinary).2
  cases change with
  | callback callback => exact kept.callback callback
  | _ => exact kept.same rfl waits

theorem read (inv : RoomInv maximum s) (buffer : Buffer) :
    RoomInv maximum (s.read buffer).session := by
  have strand := s.strand_read buffer
  obtain ⟨queue, distributed, offset, ended, contiguous, changed⟩ := s.read_changes buffer
  apply inv.same
  · rw [changed]
    rfl
  · intro timer operation member
    rw [strand] at member
    exact member

theorem write (inv : RoomInv maximum s) (positive : 0 < maximum) (buffer : Buffer) :
    RoomInv maximum (s.write buffer).session := by
  unfold Session.write
  split
  · exact inv
  · split
    · exact inv
    · split
      · exact inv
      · have length : (s.fill buffer).1.isEmpty = false := by
          apply s.fill_allocates buffer
          rw [inv.size]
          exact positive
        have filled : RoomInv maximum { s with
            pending := (s.fill buffer).1
            pendingNext := (s.fill buffer).2.1
            pendingUsed := add64 s.pendingUsed buffer.length } :=
          ⟨inv.size, fun _ => length, inv.fits⟩
        dsimp only
        split
        · exact filled.goes (goes_rescheduleProcessSendQueue _)
        · exact filled

theorem doClose (inv : RoomInv maximum s) : RoomInv maximum (s.doClose .success) := by
  have idle := s.waiting_doClose
  refine ⟨inv.size, ?_, ?_⟩
  · intro some
    exact absurd rfl some
  · intro operation buffer member
    rw [idle] at member
    cases member

theorem close (inv : RoomInv maximum s) (activity : List Callback) :
    RoomInv maximum (s.close activity).session := by
  have marked : RoomInv maximum s.closing := ⟨inv.size, inv.allocated, inv.fits⟩
  rcases s.close_cases activity with
    ⟨_, result⟩ | ⟨_, _, result⟩ | ⟨_, _, _, result⟩ | ⟨_, _, _, result⟩
  · rw [result]
    refine ⟨inv.size, inv.allocated, ?_⟩
    intro operation buffer member
    have first := ((Queue.mem_waiting_finish _ _ _ _).mp member).1
    exact inv.fits operation buffer ((Queue.mem_waiting_finish _ _ _ _).mp first).1
  · rw [result]
    exact inv
  · rw [result]
    exact (marked.goes (s.closing.goes_callbacks activity)).doClose
  · rw [result]
    exact marked.goes (s.goes_closing activity)

theorem perform (inv : RoomInv maximum s) (positive : 0 < maximum) (operation : IoOp)
    (activity : List Callback) : RoomInv maximum (operation.perform s activity).session := by
  unfold IoOp.perform
  split
  · exact inv.read _
  · exact inv.write positive _
  · exact inv.close activity

theorem asyncPendingWait (inv : RoomInv maximum s) {what : Want} {operation : IoOp}
    (short : what = .write → ∀ buffer, operation.op = .write buffer → buffer.length ≤ maximum) :
    RoomInv maximum (s.asyncPendingWait what operation) := by
  have added : ∀ timer, (timer = .pendingReadyWrite → what = .write) →
      RoomInv maximum { s with strand := s.strand.asyncWait timer (.ioOp operation) } := by
    intro timer isWrite
    refine ⟨inv.size, inv.allocated, ?_⟩
    intro other buffer member
    rcases (Queue.mem_waiting_asyncWait _ _ _ _).mp member with old | new
    · exact inv.fits other buffer old
    · cases new
      exact short (isWrite rfl) buffer
  cases what with
  | nothing => exact inv
  | read => exact added .pendingReadyRead fun isWrite => by cases isWrite
  | write => exact added .pendingReadyWrite fun _ => rfl
  | close => exact added .pendingReadyClose fun isWrite => by cases isWrite

end RoomInv

/-- A write waits only while its buffer does not fit. -/
theorem write_waits_iff (s : Session) (buffer : Buffer) :
    (s.write buffer).done = false ↔ buffer.length ≠ 0 ∧ s.pendingEof = false ∧
      sub64 s.pendingMaximum s.pendingUsed < buffer.length := by
  unfold Session.write
  split
  · rename_i empty
    simp [empty]
  · rename_i nonempty
    split
    · rename_i ended
      simp [ended]
    · rename_i open_
      split
      · rename_i full
        simp [nonempty, open_, full]
      · rename_i room
        simp [room]

/-- A write that finds the ring empty waits exactly if it is longer than the ring. -/
theorem write_empty_done (s : Session) (buffer : Buffer) (word : s.pendingMaximum < 2 ^ 64)
    (empty : s.pendingUsed = 0) (open_ : s.pendingEof = false) :
    (s.write buffer).done = true ↔ buffer.length ≤ s.pendingMaximum := by
  have room : sub64 s.pendingMaximum s.pendingUsed = s.pendingMaximum := by
    rw [empty]
    exact sub64_eq (Nat.zero_le _) word
  have waits := s.write_waits_iff buffer
  rw [room] at waits
  constructor
  · intro done
    apply Nat.le_of_not_lt
    intro long
    have nonempty : buffer.length ≠ 0 := by omega
    exact Bool.noConfusion ((waits.mpr ⟨nonempty, open_, long⟩).symm.trans done)
  · intro short
    by_cases blocked : (s.write buffer).done = false
    · exact absurd (waits.mp blocked).2.2 (Nat.not_lt_of_le short)
    · simpa using blocked

theorem write_done_transferred (s : Session) (buffer : Buffer) (nonempty : buffer.length ≠ 0)
    (open_ : s.pendingEof = false) (done : (s.write buffer).done = true) :
    (s.write buffer).bytesTransferred = buffer.length := by
  unfold Session.write at done ⊢
  simp only [nonempty, open_, ↓reduceIte, Bool.false_eq_true] at done ⊢
  split
  · rename_i full
    simp [full] at done
  · rfl

/-- A write that does not fit into the room left is no longer than the ring. -/
def fits (s : Session) : Operation → Guard
  | .write buffer => .of (sub64 s.pendingMaximum s.pendingUsed < buffer.length →
      buffer.length ≤ s.pendingMaximum)
  | _ => .free

/-- The same of an operation that a step calls, if any. -/
def calledFits (s : Session) : Option (IoOp × List Callback) → Guard
  | some (operation, _) => s.fits operation.op
  | none => .free

abbrev Fits (s : Session) (op : Operation) : Prop := (s.fits op).holds

abbrev CalledFits (s : Session) (called : Option (IoOp × List Callback)) : Prop :=
  (s.calledFits called).holds

/-- A write that waits after its call is one that was called, and did not fit. -/
theorem perform_waits_write {s : Session} {operation : IoOp} {activity : List Callback}
    (waits : (operation.perform s activity).want = .write) :
    ∃ buffer, operation.op = .write buffer ∧
      (operation.perform s activity).operation.op = .write buffer ∧
      s.pendingEof = false ∧ sub64 s.pendingMaximum s.pendingUsed < buffer.length := by
  unfold IoOp.perform at waits ⊢
  split at waits
  · dsimp only at waits
    split at waits <;> cases waits
  · rename_i buffer isWrite
    cases done : (s.write buffer).done with
    | true => simp [done] at waits
    | false =>
        have blocked := (s.write_waits_iff buffer).mp done
        exact ⟨buffer, isWrite, by simp only [isWrite], blocked.2⟩
  · dsimp only at waits
    split at waits <;> cases waits

end Session

namespace Service

/-- The session is not closing after the step. -/
def StaysOpen (service : Service) (action : ServiceAction) : Prop :=
  service.Possible action ∧ (service.next action).session.pendingEof = false

/-- A write that the step calls fits into the room left, or at least into the ring. -/
def WriteFits (service : Service) (action : ServiceAction) : Prop :=
  (service.found action).CalledFits (service.called action)

instance (service : Service) (action : ServiceAction) : Decidable (service.StaysOpen action) :=
  inferInstanceAs (Decidable (service.Possible action ∧
    (service.next action).session.pendingEof = false))

instance (service : Service) (action : ServiceAction) : Decidable (service.WriteFits action) :=
  inferInstanceAs (Decidable ((service.found action).CalledFits (service.called action)))

/-- What each write that waits can count on: the ring holds bytes, taking a head block
from them wakes it, and it is done once the ring is empty. -/
def WritesServed (service : Service) : Prop :=
  ∀ operation, (Timer.pendingReadyWrite, Handler.ioOp operation) ∈
      service.session.strand.waiting →
    service.session.pendingUsed ≠ 0 ∧
    (service.session.sendqHeadExists = false → (Handler.ioOp operation, Completion.aborted) ∈
      service.session.handleSendqHead.session.strand.ready) ∧
    ∃ buffer, operation.op = .write buffer ∧
      ∀ drained : Session, drained.pendingMaximum = service.session.pendingMaximum →
        drained.pendingUsed = 0 → drained.pendingEof = false →
          (drained.write buffer).done = true ∧ 1 ≤ (drained.write buffer).bytesTransferred

/-- What a run on a session that is not closing keeps. -/
structure OpenInv (maximum : Nat) (service : Service) : Prop where
  waits : service.session.WaitInv
  writers : service.session.WritersOpen
  open_ : service.session.pendingEof = false
  room : service.session.RoomInv maximum

variable {maximum : Nat} {service : Service} {action : ServiceAction}

/-- A session that is not closing has nobody to wake for it. -/
theorem StaysOpen.wakesWaiters (inv : service.session.WaitInv) (stays : service.StaysOpen action) :
    service.WakesWaiters action := by
  refine ⟨stays.1, ?_⟩
  have still := stays.2
  rcases next_cases stays.1 with
    ⟨operation, activity, called, result⟩ | ⟨uncalled, _⟩ | ⟨uncalled, _⟩
  · rw [called]
    apply (inv.goes (goes_found action)).wakesWaiters
    intro ended
    rw [result] at still
    rw [Session.pendingEof_of_receiveState (Session.receiveState_asyncPendingWait _ _ _)] at still
    exact Bool.noConfusion (still.symm.trans ended)
  · rw [uncalled]
    trivial
  · rw [uncalled]
    trivial

theorem OpenInv.next (inv : service.OpenInv maximum) (positive : 0 < maximum)
    (stays : service.StaysOpen action) (fits : service.WriteFits action) :
    (service.next action).OpenInv maximum := by
  have waits := waitInv_next inv.waits inv.writers (stays.wakesWaiters inv.waits)
  refine ⟨waits.1, waits.2, stays.2, ?_⟩
  rcases next_cases stays.1 with
    ⟨operation, activity, called, result⟩ | ⟨_, _, later, goes, result⟩ | ⟨_, _, goes⟩
  · have before := inv.room.goes (goes_found action)
    unfold WriteFits at fits
    rw [called] at fits
    rw [result]
    apply (before.perform positive operation activity).asyncPendingWait
    intro wants buffer isWrite
    obtain ⟨other, isOther, after, _, full⟩ := Session.perform_waits_write wants
    obtain rfl : buffer = other := by
      rw [after] at isWrite
      cases isWrite
      rfl
    have short : (service.found action).Fits operation.op := fits
    rw [isOther] at short
    rw [← before.size]
    exact short full
  · rw [result]
    exact (inv.room.goes goes).doClose
  · exact inv.room.goes goes

theorem OpenInv.writesServed (inv : service.OpenInv maximum) (word : maximum < 2 ^ 64) :
    service.WritesServed := by
  intro operation waits
  obtain ⟨buffer, isWrite, nonempty, full⟩ := inv.waits.writers operation waits
  have short := inv.room.fits operation buffer waits isWrite
  have size := inv.room.size
  have used : service.session.pendingUsed ≠ 0 := by
    intro empty
    rw [empty, size, sub64_eq (Nat.zero_le _) word] at full
    omega
  refine ⟨used, ?_, buffer, isWrite, ?_⟩
  · intro free
    have allocated := inv.room.allocated used
    have takes : service.session.takesHead .sendqHead = true := by
      simp [Session.takesHead, free, used, allocated]
    rcases service.session.waitState_handleSendqHead with ⟨_, strand⟩ | ⟨none_, _⟩
    · rw [strand]
      exact (Queue.mem_ready_finish _ _ _ _).mpr (Or.inr ⟨rfl, waits⟩)
    · exact Bool.noConfusion (none_.symm.trans takes)
  · intro drained sameSize empty open_
    have done : (drained.write buffer).done = true := by
      apply (drained.write_empty_done buffer _ empty open_).mpr
      · rw [sameSize, size]
        exact short
      · rw [sameSize, size]
        exact word
    refine ⟨done, ?_⟩
    rw [drained.write_done_transferred buffer nonempty open_ done]
    exact Nat.pos_of_ne_zero nonempty

/-- A step that leaves its write served has called one that fits. -/
theorem OpenInv.writeFits (inv : service.OpenInv maximum) (positive : 0 < maximum)
    (word : maximum < 2 ^ 64) (stays : service.StaysOpen action)
    (served : (service.next action).WritesServed) : service.WriteFits action := by
  unfold WriteFits
  rcases next_cases stays.1 with
    ⟨operation, activity, called, result⟩ | ⟨uncalled, _⟩ | ⟨uncalled, _⟩
  · rw [called]
    have before := inv.room.goes (goes_found action)
    have open_ := (goes_found action).waits.1.trans inv.open_
    show (service.found action).Fits operation.op
    cases isOp : operation.op with
    | read buffer => trivial
    | close => trivial
    | write buffer =>
        intro full
        have nonempty : buffer.length ≠ 0 := by omega
        have blocked := ((service.found action).write_waits_iff buffer).mpr
          ⟨nonempty, open_, full⟩
        have waits : (Timer.pendingReadyWrite, Handler.ioOp
            (operation.perform (service.found action) activity).operation) ∈
              (service.next action).session.strand.waiting := by
          rw [result]
          simp only [IoOp.perform, isOp, blocked, Bool.false_eq_true, ↓reduceIte,
            Session.asyncPendingWait]
          exact (Queue.mem_waiting_asyncWait _ _ _ _).mpr (Or.inr rfl)
        obtain ⟨_, _, other, isOther, drains⟩ := served _ waits
        obtain rfl : buffer = other := by
          simp only [IoOp.perform, isOp, Operation.write.injEq] at isOther
          exact isOther
        have size : (service.next action).session.pendingMaximum = maximum := by
          rw [result]
          simp only [IoOp.perform, isOp, blocked, Bool.false_eq_true, ↓reduceIte,
            Session.asyncPendingWait]
          exact (before.write positive buffer).size
        have done := (drains { pendingMaximum := (service.next action).session.pendingMaximum }
          rfl rfl rfl).1
        rw [size] at done
        rw [before.size]
        have drained := Session.write_empty_done { pendingMaximum := maximum } buffer
          word rfl rfl
        exact drained.mp done
  · rw [uncalled]
    trivial
  · rw [uncalled]
    trivial

end Service

theorem Session.Fresh.openInv {session : Session} (fresh : session.Fresh) :
    Service.OpenInv session.pendingMaximum { session := session } where
  waits := fresh.waitInv.1
  writers := fresh.waitInv.2
  open_ := fresh.pendingEof
  room := by
    refine ⟨rfl, ?_, ?_⟩
    · intro used
      exact absurd fresh.pendingUsed used
    · intro operation buffer member
      simp only [fresh.waiting] at member
      cases member

/-- On a session that is not closing, every write that waits is served in the end,
exactly when each write that does not fit into the room left is no longer than the
ring. One that is no longer waits only for bytes in the ring. -/
theorem waiting_writes_are_served {session : Session} (fresh : session.Fresh)
    (positive : 0 < session.pendingMaximum) (word : session.pendingMaximum < 2 ^ 64)
    {actions : List ServiceAction}
    (stays : AllMet Service.next Service.StaysOpen { session := session } actions) :
    (AllMet Service.next Service.WriteFits { session := session } actions ↔
      ∀ count, ((actions.take count).foldl Service.next { session := session }).WritesServed) ∧
    ∀ (s : Session) (buffer : Buffer), s.pendingMaximum < 2 ^ 64 → s.pendingEof = false →
      (((s.write buffer).done = false → s.pendingUsed ≠ 0) ↔
        (s.pendingUsed = 0 → buffer.length ≤ s.pendingMaximum)) := by
  have initial := fresh.openInv
  have kept : ∀ service action, Service.OpenInv session.pendingMaximum service →
      Service.StaysOpen service action → Service.WriteFits service action →
      (service.next action).OpenInv session.pendingMaximum :=
    fun _ _ inv stays fits => inv.next positive stays fits
  constructor
  · apply AllMet.iff_always kept _ initial (initial.writesServed word) stays
    intro service action inv _ stays
    constructor
    · intro fits
      exact (inv.next positive stays fits).writesServed word
    · exact inv.writeFits positive word stays
  · intro s buffer small open_
    constructor
    · intro waits empty
      apply (s.write_empty_done buffer small empty open_).mp
      by_cases done : (s.write buffer).done = true
      · exact done
      · exact absurd empty (waits (by simpa using done))
    · intro short blocked empty
      have done := (s.write_empty_done buffer small empty open_).mpr (short empty)
      exact Bool.noConfusion (blocked.symm.trans done)

/-- A second write waits until the head block is taken from a ring of one byte. -/
theorem waiting_writes_are_served_after_head :
    let session : Session := { pendingMaximum := 1 }
    let actions : List ServiceAction :=
      [.start, .run 0 [], .beginInside 1 (.write ⟨[7], by decide⟩) [],
        .beginInside 2 (.write ⟨[8], by decide⟩) [], .receive [.sendqHead], .run 1 []]
    (∀ count, ((actions.take count).foldl Service.next { session := session }).WritesServed) ∧
      (actions.foldl Service.next { session := session }).completed.length = 1 :=
  ⟨(waiting_writes_are_served (Session.fresh_configured _ _ _) (by decide) (by decide)
    (by decide)).1.mp (by decide), by decide⟩

/-- A write longer than the ring waits while the ring is empty. -/
theorem long_write_is_not_served :
    ¬ ∀ (session : Session) (actions : List ServiceAction), session.Fresh →
      0 < session.pendingMaximum → session.pendingMaximum < 2 ^ 64 →
      AllMet Service.next Service.StaysOpen { session := session } actions →
      ∀ count, ((actions.take count).foldl Service.next { session := session }).WritesServed := by
  intro claimed
  have served := claimed { pendingMaximum := 1 }
    [.beginInside 1 (.write ⟨[7, 8], by decide⟩) []] (Session.fresh_configured _ _ _)
    (by decide) (by decide) (by decide) 1
  have used := (served { handler := 1, op := .write ⟨[7, 8], by decide⟩ } (by decide)).1
  exact used rfl

end CurvecprAsio
