import CurvecprAsio.Pending
import CurvecprAsio.Lib.Transition

set_option autoImplicit false

/- The send side of a session: runs of writes, head blocks and moves. -/
namespace CurvecprAsio

open Transition SearchTree

/-- The bytes of blocks in the order they were moved. -/
def sentBytes (moved : List SentBlock) : List UInt8 :=
  moved.flatMap fun sent => sent.block.data

@[simp] theorem sentBytes_append (first second : List SentBlock) :
    sentBytes (first ++ second) = sentBytes first ++ sentBytes second :=
  List.flatMap_append

/-- The send side of a session, the buffers that writes have accepted, and the
blocks moved to `sendmarkq_`, as they were when moved. -/
structure Sender where
  session : Session
  accepted : List UInt8 := []
  moved : List SentBlock := []
  deriving DecidableEq, Repr

inductive SenderAction where
  | start
  | write (buffer : Buffer)
  | setEof
  | sendqHead (maximum : Nat)
  | stampHead (id : Nat) (clock : Int) (offset : Nat)
  | moveHead (balance : Balance SentBlock)
  | resend (balance : Balance SentBlock) (pointer id : Nat) (clock : Int)
  | removeRange (balance : Balance SentBlock) (start stop : Nat)

/-- libcurvecpr sets how much it may send in one block. -/
def Session.limitSend (s : Session) (maximum : Nat) : Session :=
  { s with messager := { s.messager with myMaximumSendBytes := maximum } }

/-- libcurvecpr asks for a head block of at most `maximum` bytes. -/
def Session.askHead (s : Session) (maximum : Nat) : HeadResult :=
  (s.limitSend maximum).handleSendqHead

namespace Sender

def write (sender : Sender) (buffer : Buffer) : Sender :=
  let result := sender.session.write buffer
  { sender with
    session := result.session
    accepted :=
      if 0 < result.bytesTransferred then sender.accepted ++ buffer.bytes else sender.accepted }

def sendqHead (sender : Sender) (maximum : Nat) : Sender :=
  { sender with session := (sender.session.askHead maximum).session }

def move (sender : Sender) (result : MoveResult) : Sender :=
  { sender with session := result.session, moved := sender.moved ++ result.stored.toList }

def next (sender : Sender) : SenderAction → Sender
  | .start => { sender with session := { sender.session with running := true } }
  | .write buffer => sender.write buffer
  | .setEof => { sender with session := { sender.session with pendingEof := true } }
  | .sendqHead maximum => sender.sendqHead maximum
  | .stampHead id clock offset =>
      { sender with session := sender.session.stampHead id clock offset }
  | .moveHead balance =>
      sender.move (sender.session.handleSendqMoveToSendmarkq balance sender.session.headBlock)
  | .resend balance pointer id clock =>
      sender.move (sender.session.resend balance pointer id clock)
  | .removeRange balance start stop =>
      { sender with session := sender.session.handleSendmarkqRemoveRange balance start stop }

/-- libcurvecpr asks for at least one byte and for no more than a block holds. -/
def Allowed (capacity : Nat) (_ : Sender) : SenderAction → Prop
  | .sendqHead maximum => 1 ≤ maximum ∧ maximum ≤ capacity
  | _ => True

end Sender

/-- The sender's invariant: the blocks moved, the head and the ring are what
was accepted, and an EOF mark closes it. -/
structure SenderInv (capacity : Nat) (sender : Sender) : Prop where
  ring : PendingInv sender.session
  fifo : sentBytes sender.moved ++ sender.session.headContents ++ sender.session.ringContents =
    sender.accepted
  room : ∀ sent ∈ sender.moved, sent.block.dataLen ≤ capacity
  headRoom : sender.session.sendqHeadExists = true →
    sender.session.sendqHead.dataLen ≤ capacity
  closed : ∀ sent ∈ sender.moved, sent.block.marked = true → sender.session.pendingEof = true
  last : ∀ index sent, sender.moved[index]? = some sent → sent.block.marked = true →
    sentBytes (sender.moved.take (index + 1)) = sender.accepted
  headLast : sender.session.sendqHeadExists = true → sender.session.sendqHead.marked = true →
    sender.session.pendingEof = true ∧ sender.session.ringContents = []

namespace Session

/-- A move finds nothing, or re-inserts the block after erasing what was found,
or stores a copy of the head. -/
theorem handleSendqMoveToSendmarkq_cases (s : Session) (balance : Balance SentBlock)
    (block : SentBlock) :
    s.handleSendqMoveToSendmarkq balance block = { session := s, ret := -1 } ∨
      ((s.sendqHeadExists = false ∨ block.pointer ≠ headPointer) ∧ ∃ it,
        s.sendmarkq.find blockClockCompare block = some it ∧
        s.handleSendqMoveToSendmarkq balance block =
          { session := { s with
              sendmarkq :=
                balance.run ((balance.run (s.sendmarkq.erase it)).insert blockClockCompare block) }
            ret := -1 }) ∨
      (s.sendqHeadExists = true ∧ block.pointer = headPointer ∧
        s.handleSendmarkqIsFull = false ∧
        s.handleSendqMoveToSendmarkq balance block =
          { session := { s with
              allocated := s.allocated + 1
              sendmarkq :=
                balance.run (s.sendmarkq.insert blockClockCompare ⟨s.allocated + 1, s.sendqHead⟩)
              sendqHeadExists := false }
            ret := 0, stored := some ⟨s.allocated + 1, s.sendqHead⟩ }) := by
  unfold handleSendqMoveToSendmarkq
  split
  · rename_i other
    have notHead : s.sendqHeadExists = false ∨ block.pointer ≠ headPointer := by
      simpa using other
    split
    · rename_i it found
      exact Or.inr (Or.inl ⟨notHead, it, found, rfl⟩)
    · exact Or.inl rfl
  · rename_i head
    have isHead : s.sendqHeadExists = true ∧ block.pointer = headPointer := by
      simpa using head
    split
    · exact Or.inl rfl
    · rename_i room
      exact Or.inr (Or.inr ⟨isHead.1, isHead.2, by simpa using room, rfl⟩)

end Session

theorem Session.ringContents_congr {s after : Session}
    (same : after.ringState = s.ringState) : after.ringContents = s.ringContents := by
  simp only [Session.ringState, Prod.mk.injEq] at same
  simp only [Session.ringContents, same.1, same.2.2.1, same.2.2.2.1]

theorem PendingInv.askHead {s : Session} (inv : PendingInv s) (maximum : Nat) :
    HeadSpec (s.limitSend maximum) (s.askHead maximum) := by
  have limited : PendingInv (s.limitSend maximum) := inv.frame rfl
  exact limited.handleSendqHead

namespace SenderInv

variable {capacity : Nat} {sender : Sender}

theorem initial (capacity : Nat) {session : Session} (fresh : session.Fresh)
    (small : session.pendingMaximum < 2 ^ 31) :
    SenderInv capacity { session := session } where
  ring := PendingInv.fresh fresh small
  fifo := by
    simp only [sentBytes, Session.headContents, fresh.sendqHeadExists, Session.ringContents,
      fresh.pendingUsed, Ring.window_zero]
    rfl
  room := by
    intro sent member
    cases member
  headRoom := by
    intro some
    rw [fresh.sendqHeadExists] at some
    cases some
  closed := by
    intro sent member
    cases member
  last := by
    intro index sent located
    simp at located
  headLast := by
    intro some
    rw [fresh.sendqHeadExists] at some
    cases some

theorem frame (inv : SenderInv capacity sender) {session : Session}
    (ring : session.ringState = sender.session.ringState)
    (some : session.sendqHeadExists = sender.session.sendqHeadExists)
    (data : session.sendqHead.data = sender.session.sendqHead.data)
    (eof : session.sendqHead.eof = sender.session.sendqHead.eof)
    (closing : sender.session.pendingEof = true → session.pendingEof = true) :
    SenderInv capacity { sender with session := session } where
  ring := inv.ring.frame ring
  fifo := by
    simp only [Session.headContents, Session.ringContents_congr ring, some, data]
    exact inv.fifo
  room := inv.room
  headRoom := by
    simp only [some, Block.dataLen, data]
    exact inv.headRoom
  closed := fun sent member marked => closing (inv.closed sent member marked)
  last := inv.last
  headLast := by
    intro exists_ marked
    simp only [Block.marked, eof] at marked
    obtain ⟨ended, empty⟩ := inv.headLast (some ▸ exists_) marked
    exact ⟨closing ended, (Session.ringContents_congr ring).trans empty⟩

theorem write (inv : SenderInv capacity sender) (buffer : Buffer) :
    SenderInv capacity (sender.write buffer) := by
  have spec := inv.ring.write buffer
  rcases spec.outcome with ⟨same, nothing⟩ | ⟨⟨pending, next, used, strand, changed⟩, reported,
    nonempty, open_, bytes⟩
  · simp only [Sender.write, same, nothing, Nat.lt_irrefl, ↓reduceIte]
    exact inv
  · have positive : 0 < buffer.length := Nat.pos_of_ne_zero nonempty
    have noMark : ∀ sent ∈ sender.moved, sent.block.marked = true → False := by
      intro sent member marked
      have ended := inv.closed sent member marked
      rw [open_] at ended
      cases ended
    have head : (sender.session.write buffer).session.headContents =
        sender.session.headContents := by
      simp only [Session.headContents, changed]
    simp only [Sender.write, reported, positive, ↓reduceIte]
    refine ⟨spec.inv, ?_, inv.room, ?_, ?_, ?_, ?_⟩
    · simp only [head, bytes, ← inv.fifo, List.append_assoc]
    · simp only [changed]
      exact inv.headRoom
    · intro sent member marked
      exact absurd marked (noMark sent member)
    · intro index sent located marked
      exact absurd marked (noMark sent (List.mem_of_getElem? located))
    · simp only [changed]
      intro exists_ marked
      have ended := (inv.headLast exists_ marked).1
      rw [open_] at ended
      cases ended

theorem sendqHead (inv : SenderInv capacity sender) {maximum : Nat}
    (fits : min sender.session.pendingUsed maximum ≤ capacity) :
    SenderInv capacity (sender.sendqHead maximum) := by
  have spec := inv.ring.askHead maximum
  rcases spec.outcome with same | ⟨absent, ⟨block, current, used, strand, changed⟩, length,
    bytes, offset, marked⟩
  · simp only [Sender.sendqHead, same]
    exact inv.frame rfl rfl rfl rfl fun ended => ended
  · have fifo := inv.fifo
    have before : sender.session.headContents = [] := by
      have noHead : sender.session.sendqHeadExists = false := absent
      simp only [Session.headContents, noHead, Bool.false_eq_true, ↓reduceIte]
    have after : (sender.session.askHead maximum).session.headContents =
        (sender.session.askHead maximum).session.sendqHead.data := by
      simp only [changed, Session.headContents, ↓reduceIte]
    have closing : (sender.session.askHead maximum).session.pendingEof =
        sender.session.pendingEof := by
      rw [changed]
      rfl
    rw [before, List.append_nil] at fifo
    simp only [Sender.sendqHead]
    refine ⟨spec.inv, ?_, inv.room, ?_, ?_, inv.last, ?_⟩
    · rw [after, List.append_assoc, ← fifo]
      exact congrArg (sentBytes sender.moved ++ ·) bytes
    · intro _
      exact Nat.le_trans (Nat.le_of_eq length) fits
    · rw [closing]
      exact inv.closed
    · intro _ isMarked
      obtain ⟨ended, nothing⟩ := marked.mp isMarked
      refine ⟨closing.trans ended, ?_⟩
      simp only [Session.ringContents, nothing, Ring.window_zero]

/-- Storing the head moves its bytes from the head to the blocks. -/
theorem store (inv : SenderInv capacity sender) (exists_ : sender.session.sendqHeadExists = true)
    (allocated pointer : Nat) (sendmarkq : SearchTree.Tree SentBlock) :
    SenderInv capacity { sender with
      session := { sender.session with
        allocated := allocated, sendmarkq := sendmarkq, sendqHeadExists := false }
      moved := sender.moved ++ [⟨pointer, sender.session.sendqHead⟩] } := by
  have fifo := inv.fifo
  have head : sender.session.headContents = sender.session.sendqHead.data := by
    simp only [Session.headContents, exists_, ↓reduceIte]
  have one : sentBytes [⟨pointer, sender.session.sendqHead⟩] = sender.session.sendqHead.data :=
    List.flatMap_singleton _ _
  rw [head] at fifo
  refine ⟨inv.ring.frame rfl, ?_, ?_, ?_, ?_, ?_, ?_⟩
  · simp only [Session.headContents, Bool.false_eq_true, ↓reduceIte, List.append_nil,
      sentBytes_append, one]
    exact fifo
  · intro sent member
    rcases List.mem_append.mp member with old | new
    · exact inv.room sent old
    · rw [List.mem_singleton.mp new]
      exact inv.headRoom exists_
  · intro later
    cases later
  · intro sent member marked
    rcases List.mem_append.mp member with old | new
    · exact inv.closed sent old marked
    · rw [List.mem_singleton.mp new] at marked
      exact (inv.headLast exists_ marked).1
  · intro index sent located marked
    by_cases old : index < sender.moved.length
    · rw [List.getElem?_append_left old] at located
      rw [List.take_append_of_le_length (by omega)]
      exact inv.last index sent located marked
    · rw [List.getElem?_append_right (by omega)] at located
      have inside := (List.getElem?_eq_some_iff.mp located).1
      rw [List.length_singleton] at inside
      have new : (⟨pointer, sender.session.sendqHead⟩ : SentBlock) = sent := by
        rw [show index - sender.moved.length = 0 by omega] at located
        exact Option.some.inj located
      rw [← new] at marked
      rw [(inv.headLast exists_ marked).2, List.append_nil] at fifo
      rw [List.take_of_length_le (by simp; omega), sentBytes_append, one]
      exact fifo
  · intro later
    cases later

theorem move (inv : SenderInv capacity sender) (balance : Balance SentBlock)
    (block : SentBlock) :
    SenderInv capacity
      (sender.move (sender.session.handleSendqMoveToSendmarkq balance block)) := by
  rcases sender.session.handleSendqMoveToSendmarkq_cases balance block with
    same | ⟨notHead, it, found, moved⟩ | ⟨exists_, isHead, room, stored⟩
  · simp only [Sender.move, same, Option.toList_none, List.append_nil]
    exact inv
  · simp only [Sender.move, moved, Option.toList_none, List.append_nil]
    exact inv.frame rfl rfl rfl rfl fun ended => ended
  · simp only [Sender.move, stored, Option.toList_some]
    exact inv.store exists_ _ _ _

theorem resend (inv : SenderInv capacity sender) (balance : Balance SentBlock)
    (pointer id : Nat) (clock : Int) :
    SenderInv capacity (sender.move (sender.session.resend balance pointer id clock)) := by
  have stamped : SenderInv capacity
      { sender with session := sender.session.stampSent pointer id clock } :=
    inv.frame rfl rfl rfl rfl fun ended => ended
  unfold Session.resend
  dsimp only
  split
  · rename_i sent found
    exact stamped.move balance sent
  · simp only [Sender.move, Option.toList_none, List.append_nil]
    exact stamped

theorem next (inv : SenderInv capacity sender) (action : SenderAction)
    (allowed : sender.Allowed capacity action) : SenderInv capacity (sender.next action) := by
  cases action with
  | start =>
      exact inv.frame rfl rfl rfl rfl fun ended => ended
  | write buffer => exact inv.write buffer
  | setEof =>
      exact inv.frame rfl rfl rfl rfl fun _ => rfl
  | sendqHead maximum => exact inv.sendqHead (Nat.le_trans (Nat.min_le_right _ _) allowed.2)
  | stampHead id clock offset =>
      exact inv.frame rfl rfl rfl rfl fun ended => ended
  | moveHead balance => exact inv.move balance _
  | resend balance pointer id clock => exact inv.resend balance pointer id clock
  | removeRange balance start stop =>
      exact inv.frame rfl rfl rfl rfl fun ended => ended

theorem reached {session : Session} (fresh : session.Fresh)
    (small : session.pendingMaximum < 2 ^ 31)
    (reached : Reaches Sender.next (Sender.Allowed capacity) { session := session } sender) :
    SenderInv capacity sender :=
  reached.invariant (initial capacity fresh small)
    fun _ action inv allowed => inv.next action allowed

end SenderInv

/-- In every state that writes, head blocks and moves lead to, the blocks moved,
the head and the ring hold the accepted buffers in order; ring and blocks are
not overrun; and everything accepted is in a marked block or before it. -/
theorem send_keeps_order (capacity : Nat) {session : Session} {sender : Sender}
    (fresh : session.Fresh) (small : session.pendingMaximum < 2 ^ 31)
    (reached : Reaches Sender.next (Sender.Allowed capacity) { session := session } sender) :
    sentBytes sender.moved ++ sender.session.headContents ++ sender.session.ringContents =
        sender.accepted ∧
      sender.session.pendingUsed ≤ sender.session.pendingMaximum ∧
      (∀ buffer, ∀ copy ∈ (sender.session.write buffer).copies,
        copy.Inside sender.session.pendingMaximum) ∧
      (∀ maximum, 1 ≤ maximum ∧ maximum ≤ capacity →
        (∀ copy ∈ (sender.session.askHead maximum).copies,
          copy.Inside sender.session.pendingMaximum) ∧
        ((sender.session.askHead maximum).session.sendqHeadExists = true →
          (sender.session.askHead maximum).session.sendqHead.dataLen ≤ capacity)) ∧
      (∀ index sent, sender.moved[index]? = some sent → sent.block.marked = true →
        sender.session.pendingEof = true ∧
        sentBytes (sender.moved.take (index + 1)) = sender.accepted) ∧
      (sender.session.sendqHeadExists = true → sender.session.sendqHead.marked = true →
        sender.session.pendingEof = true ∧
        sentBytes sender.moved ++ sender.session.sendqHead.data = sender.accepted) := by
  have inv := SenderInv.reached fresh small reached
  refine ⟨inv.fifo, inv.ring.used, ?_, ?_, ?_, ?_⟩
  · intro buffer
    exact (inv.ring.write buffer).inside
  · intro maximum asked
    have fits := Nat.le_trans (Nat.min_le_right sender.session.pendingUsed maximum) asked.2
    exact ⟨(inv.ring.askHead maximum).inside, (inv.sendqHead fits).headRoom⟩
  · intro index sent located marked
    exact ⟨inv.closed sent (List.mem_of_getElem? located) marked,
      inv.last index sent located marked⟩
  · intro exists_ marked
    obtain ⟨ended, empty⟩ := inv.headLast exists_ marked
    have fifo := inv.fifo
    simp only [Session.headContents, exists_, ↓reduceIte, empty, List.append_nil] at fifo
    exact ⟨ended, fifo⟩

/-- Five bytes through a ring of four cells, the second write and the last
block both wrapping. -/
theorem send_keeps_order_wrapped :
    let session : Session := { pendingMaximum := 4 }
    let sender := [SenderAction.write ⟨[1, 2, 3], by decide⟩, .sendqHead 2, .moveHead .id,
      .write ⟨[4, 5], by decide⟩, .setEof, .sendqHead 3, .moveHead .id].foldl Sender.next
        { session := session }
    sentBytes sender.moved ++ sender.session.headContents ++ sender.session.ringContents =
        [1, 2, 3, 4, 5] ∧
      sentBytes (sender.moved.take 2) = [1, 2, 3, 4, 5] := by
  intro session sender
  have fresh : session.Fresh := Session.fresh_configured _ _ _
  have reached : Reaches Sender.next (Sender.Allowed 3) { session := session } sender :=
    Reaches.start.schedule _ ⟨trivial, ⟨by decide, by decide⟩, trivial, trivial, trivial,
      ⟨by decide, by decide⟩, trivial, trivial⟩
  have walked := send_keeps_order 3 fresh (by decide) reached
  have accepted : sender.accepted = [1, 2, 3, 4, 5] := by decide
  have second : sender.moved[1]? = some ⟨2, { data := [3, 4, 5], eof := .eofSuccess }⟩ := by
    decide
  have last := walked.2.2.2.2.1 1 _ second (by decide)
  exact ⟨walked.1.trans accepted, last.2.trans accepted⟩

end CurvecprAsio
