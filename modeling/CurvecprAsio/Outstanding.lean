import CurvecprAsio.Wakeup

set_option autoImplicit false

/- Several reads outstanding on one session, and the one fill position they share. -/
namespace CurvecprAsio

open Strand Transition

/-- The bytes of a block that the cursor moves over when the block is consumed. -/
def ReadPass.taken (pass : ReadPass) (block : Block) : List UInt8 :=
  (block.data.drop (pass.distributed - block.offset)).take
    ((pass.consume block).1.distributed - pass.distributed)

/-- The bytes that the cursor moves over in the loop of `session::read`. -/
def loopTaken : List BlockStatus → ReadPass → List UInt8
  | [], _ => []
  | element :: rest, pass =>
      if element.block.offset ≤ pass.distributed then
        let consumed := pass.consume element.block
        if consumed.2 then pass.taken element.block
        else pass.taken element.block ++ loopTaken rest (consumed.1.distribute element.block)
      else []

/-- The bytes that the cursor moves over in `session::read`. -/
def Session.takes (s : Session) (buffer : Buffer) : List UInt8 :=
  if buffer.length = 0 then [] else loopTaken s.recvmarkq (s.readEntry buffer)

theorem PassSafe.length_taken {pass : ReadPass} {block : Block} (safe : PassSafe pass)
    (reached : block.offset ≤ pass.distributed) :
    (pass.taken block).length = (pass.consume block).1.distributed - pass.distributed := by
  obtain ⟨stays, moved, _, _⟩ := safe.consume reached
  have lengths := congrArg List.length moved.bytes
  have before := safe.room
  have after := stays.room
  have offset := moved.offset
  rw [List.length_append, List.length_take, List.length_take] at lengths
  simp only [Buffer.length] at before after
  simp only [ReadPass.taken]
  omega

/-- What the loop takes goes behind the filled part of the buffer. -/
theorem readLoop_fills (queue : List BlockStatus) (pass : ReadPass) (safe : PassSafe pass) :
    (readLoop queue pass).2.buffer.bytes.take (readLoop queue pass).2.readOffset =
        pass.buffer.bytes.take pass.readOffset ++ loopTaken queue pass ∧
      (readLoop queue pass).2.readOffset = pass.readOffset + (loopTaken queue pass).length ∧
      (readLoop queue pass).2.distributed = pass.distributed + (loopTaken queue pass).length := by
  induction queue generalizing pass with
  | nil => simp [readLoop, loopTaken]
  | cons element rest ih =>
      simp only [readLoop, loopTaken]
      split
      · rename_i reached
        obtain ⟨stays, moved, _, _⟩ := safe.consume reached
        have bytes : (pass.consume element.block).1.buffer.bytes.take
            (pass.consume element.block).1.readOffset =
              pass.buffer.bytes.take pass.readOffset ++ pass.taken element.block := moved.bytes
        have count := safe.length_taken reached
        have grows := moved.grows
        have offset := moved.offset
        split
        · refine ⟨bytes, ?_, ?_⟩
          · dsimp only
            omega
          · dsimp only
            omega
        · have next := ih ((pass.consume element.block).1.distribute element.block)
            stays.distribute
          obtain ⟨filled, moves, cursor⟩ := next
          rw [List.length_append]
          refine ⟨?_, ?_, ?_⟩
          · rw [← List.append_assoc, ← bytes]
            exact filled
          · have here : ((pass.consume element.block).1.distribute element.block).readOffset =
                (pass.consume element.block).1.readOffset := rfl
            dsimp only
            omega
          · have here : ((pass.consume element.block).1.distribute element.block).distributed =
                (pass.consume element.block).1.distributed := rfl
            dsimp only
            omega
      · simp

/-- A read of what has been scanned copies nothing. -/
theorem readLoop_idle (queue : List BlockStatus) (pass : ReadPass)
    (scanned : Scanned queue pass.distributed) :
    (readLoop queue pass).2.copies = pass.copies ∧ loopTaken queue pass = [] := by
  induction queue generalizing pass with
  | nil => exact ⟨rfl, rfl⟩
  | cons element rest ih =>
      simp only [readLoop, loopTaken]
      split
      · rename_i reached
        have here := scanned element List.mem_cons_self reached
        have next := ih (pass.distribute element.block)
          fun other member => scanned other (List.mem_cons_of_mem _ member)
        have nothing : pass.taken element.block = [] := by
          simp only [ReadPass.taken, ReadPass.consume_nothing here.1, Nat.sub_self, List.take_zero]
        simp only [ReadPass.consume_nothing here.1, nothing, Bool.false_eq_true, ↓reduceIte,
          List.nil_append]
        exact next
      · exact ⟨rfl, rfl⟩

/-- The io_service of a session, and what its reads have done: the bytes they took from
the receive queue and how far they moved the cursor, the bytes they reported when they
were done, and their copies. `holder` is the identity of the operation whose call has left
`recvmarkq_read_offset_` above zero. -/
structure Readers where
  service : Service
  taken : List UInt8 := []
  moved : Nat := 0
  reported : List UInt8 := []
  copies : List Copy := []
  holder : Option Nat := none

namespace Readers

/-- A read is called on the strand. -/
def reads (readers : Readers) (after : Service) (s : Session) (operation : IoOp)
    (buffer : Buffer) : Readers :=
  let result := s.read buffer
  { service := after
    taken := readers.taken ++ s.takes buffer
    moved := readers.moved + (result.session.recvmarkqDistributed - s.recvmarkqDistributed)
    reported :=
      if result.done then readers.reported ++ result.buffer.bytes.take result.bytesTransferred
      else readers.reported
    copies := readers.copies ++ result.copies
    holder :=
      if result.session.recvmarkqReadOffset = 0 then none
      else if s.recvmarkqReadOffset = 0 ∨ readers.holder = some operation.identity then
        some operation.identity
      else readers.holder }

/-- A step that calls no read. -/
def leaves (readers : Readers) (after : Service) : Readers :=
  { readers with
    service := after
    holder := if after.session.recvmarkqReadOffset = 0 then none else readers.holder }

def next (readers : Readers) (action : ServiceAction) : Readers :=
  let after := readers.service.next action
  match readers.service.called action with
  | some (operation, _) =>
      match operation.op with
      | .read buffer => readers.reads after (readers.service.found action) operation buffer
      | _ => readers.leaves after
  | none => readers.leaves after

end Readers

instance (queue : List BlockStatus) (cursor : Nat) : Decidable (Scanned queue cursor) :=
  inferInstanceAs (Decidable (∀ element ∈ queue, element.block.offset ≤ cursor →
    element.block.endOffset ≤ cursor ∧ element.block.marked = false))

namespace Session

/-- A read with this buffer finds nothing, and is not done. -/
def Rests (s : Session) (buffer : Buffer) : Prop :=
  buffer.length ≠ 0 ∧ buffer.length ≠ s.recvmarkqReadOffset ∧ s.pendingEof = false ∧
    Scanned s.recvmarkq s.recvmarkqDistributed

instance (s : Session) (buffer : Buffer) : Decidable (s.Rests buffer) :=
  inferInstanceAs (Decidable (_ ∧ _ ∧ _ ∧ _))

/-- An operation that is a read is called while no bytes are placed, is the one that
placed them, or finds nothing. -/
def apart (s : Session) (holder : Option Nat) (operation : IoOp) : Operation → Guard
  | .read buffer => .of (s.recvmarkqReadOffset = 0 ∨ holder = some operation.identity ∨
      s.Rests buffer)
  | _ => .free

/-- The same of an operation that a step calls, if any. -/
def calledApart (s : Session) (holder : Option Nat) : Option (IoOp × List Callback) → Guard
  | some (operation, _) => s.apart holder operation operation.op
  | none => .free

abbrev Apart (s : Session) (holder : Option Nat) (operation : IoOp) (op : Operation) : Prop :=
  (s.apart holder operation op).holds

abbrev CalledApart (s : Session) (holder : Option Nat)
    (called : Option (IoOp × List Callback)) : Prop := (s.calledApart holder called).holds

theorem Rests.read {s : Session} {buffer : Buffer} (rests : s.Rests buffer) :
    (s.read buffer).done = false ∧ s.takes buffer = [] ∧ (s.read buffer).copies = [] ∧
      (s.read buffer).session.recvmarkqDistributed = s.recvmarkqDistributed ∧
      (s.read buffer).session.recvmarkqReadOffset = s.recvmarkqReadOffset := by
  obtain ⟨nonempty, short, open_, scanned⟩ := rests
  have spec := s.read_spec nonempty
  obtain ⟨cursor, filled, known⟩ := readLoop_scanned s.recvmarkq (s.readEntry buffer) scanned
  obtain ⟨copies, taken⟩ := readLoop_idle s.recvmarkq (s.readEntry buffer) scanned
  have waits : (s.read buffer).done = false := by
    by_cases done : (s.read buffer).done = true
    · rcases (s.read_done_iff nonempty).mp done with full | ended
      · exact absurd (full.symm.trans filled) short
      · exact Bool.noConfusion (open_.symm.trans (known.symm.trans ended))
    · simpa using done
  refine ⟨waits, ?_, spec.copies.trans copies, spec.distributed.trans cursor,
    (spec.waits waits).trans filled⟩
  simp only [takes, nonempty, ↓reduceIte, taken]

/-- A read whose fill position is within its buffer. -/
theorem read_fills {s : Session} {buffer : Buffer} (word : s.recvmarkqDistributed < 2 ^ 64)
    (room : s.recvmarkqReadOffset ≤ buffer.length) (nonempty : buffer.length ≠ 0) :
    (∀ copy ∈ (s.read buffer).copies, copy.Safe) ∧
      (s.read buffer).session.recvmarkqDistributed < 2 ^ 64 ∧
      (s.read buffer).session.recvmarkqDistributed =
        s.recvmarkqDistributed + (s.takes buffer).length ∧
      ((s.read buffer).done = true → (s.read buffer).session.recvmarkqReadOffset = 0 ∧
        (s.read buffer).buffer.bytes.take (s.read buffer).bytesTransferred =
          buffer.bytes.take s.recvmarkqReadOffset ++ s.takes buffer) ∧
      ((s.read buffer).done = false →
        (s.read buffer).session.recvmarkqReadOffset ≤ (s.read buffer).buffer.length ∧
        (s.read buffer).buffer.bytes.take (s.read buffer).session.recvmarkqReadOffset =
          buffer.bytes.take s.recvmarkqReadOffset ++ s.takes buffer) := by
  have safe : PassSafe (s.readEntry buffer) := ⟨word, room, fun _ member => by cases member⟩
  have spec := s.read_spec nonempty
  have loop := readLoop_spec s.recvmarkq (s.readEntry buffer) safe
  obtain ⟨filled, _, cursor⟩ := readLoop_fills s.recvmarkq (s.readEntry buffer) safe
  have takes : s.takes buffer = loopTaken s.recvmarkq (s.readEntry buffer) := by
    simp only [Session.takes, nonempty, ↓reduceIte]
  refine ⟨?_, ?_, ?_, ?_, ?_⟩
  · rw [spec.copies]
    exact loop.safe.safe
  · rw [spec.distributed]
    exact loop.safe.word
  · rw [spec.distributed, takes]
    exact cursor
  · intro done
    obtain ⟨empty, transferred⟩ := spec.finished done
    refine ⟨empty, ?_⟩
    rw [spec.held, transferred, takes]
    exact filled
  · intro waits
    rw [spec.held, spec.waits waits, takes]
    exact ⟨loop.safe.room, filled⟩

end Session

namespace Readers

/-- Where the bytes taken are: reported, or behind them in the buffer of the operation
that is to report them. -/
def Placed (readers : Readers) : Prop :=
  let s := readers.service.session
  (s.recvmarkqReadOffset = 0 ∧ readers.taken = readers.reported) ∨
    ∃ operation ∈ s.operations, ∃ buffer, operation.op = .read buffer ∧
      0 < s.recvmarkqReadOffset ∧ s.recvmarkqReadOffset ≤ buffer.length ∧
      readers.taken = readers.reported ++ buffer.bytes.take s.recvmarkqReadOffset

/-- Every copy is inside the buffer of the operation that made it, and every byte that
moves the cursor is reported by one operation, at its place. -/
structure Uncorrupted (readers : Readers) : Prop where
  safe : ∀ copy ∈ readers.copies, copy.Safe
  counted : readers.taken.length = readers.moved
  placed : readers.Placed

/-- A step calls no read into the bytes placed by another, and does not close the
session on them. -/
def ReadsApart (readers : Readers) (action : ServiceAction) : Prop :=
  readers.service.Possible action ∧
    (readers.service.DoesClose action = true →
      readers.service.session.recvmarkqReadOffset = 0) ∧
    (readers.service.found action).CalledApart readers.holder (readers.service.called action)

instance (readers : Readers) (action : ServiceAction) : Decidable (readers.ReadsApart action) :=
  inferInstanceAs (Decidable (_ ∧ _ ∧ _))

/-- The operation that placed the bytes is on the strand. -/
structure Held (readers : Readers) (operation : IoOp) (buffer : Buffer) : Prop where
  holder : readers.holder = some operation.identity
  unfinished : operation.finished = false
  inside : operation ∈ readers.service.session.operations
  isRead : operation.op = .read buffer
  left : 0 < readers.service.session.recvmarkqReadOffset
  room : readers.service.session.recvmarkqReadOffset ≤ buffer.length
  filled : readers.taken = readers.reported ++
    buffer.bytes.take readers.service.session.recvmarkqReadOffset

structure ReadersInv (readers : Readers) : Prop where
  word : readers.service.session.recvmarkqDistributed < 2 ^ 64
  safe : ∀ copy ∈ readers.copies, copy.Safe
  counted : readers.taken.length = readers.moved
  placed : (readers.service.session.recvmarkqReadOffset = 0 ∧
      readers.taken = readers.reported) ∨
    ∃ operation buffer, readers.Held operation buffer

theorem ReadersInv.uncorrupted {readers : Readers} (inv : ReadersInv readers) :
    readers.Uncorrupted where
  safe := inv.safe
  counted := inv.counted
  placed := by
    rcases inv.placed with empty | ⟨operation, buffer, held⟩
    · exact Or.inl empty
    · exact Or.inr ⟨operation, held.inside, buffer, held.isRead, held.left, held.room, held.filled⟩

namespace ReadersInv

variable {readers : Readers} {after : Service} {s : Session} {operation : IoOp}

theorem leaves (inv : ReadersInv readers)
    (distributed : after.session.recvmarkqDistributed =
      readers.service.session.recvmarkqDistributed)
    (offset : after.session.recvmarkqReadOffset =
      readers.service.session.recvmarkqReadOffset)
    (kept : ∀ operation buffer, readers.Held operation buffer →
      operation ∈ after.session.operations) : ReadersInv (readers.leaves after) where
  word := Nat.lt_of_le_of_lt (Nat.le_of_eq distributed) inv.word
  safe := inv.safe
  counted := inv.counted
  placed := by
    simp only [Readers.leaves, offset]
    rcases inv.placed with empty | ⟨operation, buffer, held⟩
    · exact Or.inl empty
    · refine Or.inr ⟨operation, buffer, ?_, held.unfinished, kept _ _ held, held.isRead, ?_,
        ?_, ?_⟩
      · have left := held.left
        dsimp only
        rw [if_neg (by omega)]
        exact held.holder
      · exact Nat.lt_of_lt_of_eq held.left offset.symm
      · exact Nat.le_trans (Nat.le_of_eq offset) held.room
      · dsimp only
        rw [offset]
        exact held.filled

theorem closes (inv : ReadersInv readers)
    (empty : readers.service.session.recvmarkqReadOffset = 0)
    (distributed : after.session.recvmarkqDistributed = 0)
    (offset : after.session.recvmarkqReadOffset = 0) : ReadersInv (readers.leaves after) where
  word := by
    simp only [Readers.leaves, distributed]
    decide
  safe := inv.safe
  counted := inv.counted
  placed := by
    rcases inv.placed with ⟨_, reported⟩ | ⟨operation, buffer, held⟩
    · exact Or.inl ⟨offset, reported⟩
    · have left := held.left
      omega

/-- What a call of a read leaves on the strand. -/
structure Called (readers : Readers) (after : Service) (s : Session) (operation : IoOp)
    (buffer : Buffer) : Prop where
  unfinished : operation.finished = false
  isRead : operation.op = .read buffer
  before : s.recvmarkqDistributed = readers.service.session.recvmarkqDistributed ∧
    s.recvmarkqReadOffset = readers.service.session.recvmarkqReadOffset
  result : after.session.recvmarkqDistributed = (s.read buffer).session.recvmarkqDistributed ∧
    after.session.recvmarkqReadOffset = (s.read buffer).session.recvmarkqReadOffset
  waits : (s.read buffer).done = false → { operation with
      op := .read (s.read buffer).buffer
      ec := (s.read buffer).ec
      bytesTransferred := (s.read buffer).bytesTransferred } ∈ after.session.operations
  unique : ∀ other ∈ readers.service.session.operations, other.identity = operation.identity →
    other = operation
  kept : ∀ other ∈ readers.service.session.operations, other.finished = false →
    other ≠ operation → other ∈ after.session.operations

theorem rests (inv : ReadersInv readers) {buffer : Buffer}
    (called : Called readers after s operation buffer) (rests : s.Rests buffer)
    (left : s.recvmarkqReadOffset ≠ 0) (other : readers.holder ≠ some operation.identity) :
    ReadersInv (readers.reads after s operation buffer) := by
  obtain ⟨waits, takes, copies, cursor, offset⟩ := rests.read
  have same : readers.reads after s operation buffer = { readers with service := after } := by
    simp only [Readers.reads, waits, takes, copies, cursor, offset, left, other,
      List.append_nil, Nat.sub_self, Nat.add_zero, or_self, ↓reduceIte, Bool.false_eq_true]
  have here : after.session.recvmarkqReadOffset =
      readers.service.session.recvmarkqReadOffset :=
    called.result.2.trans (offset.trans called.before.2)
  rw [same]
  refine ⟨?_, inv.safe, inv.counted, ?_⟩
  · dsimp only
    rw [called.result.1, cursor, called.before.1]
    exact inv.word
  · rcases inv.placed with ⟨empty, _⟩ | ⟨placer, placed, held⟩
    · exact absurd (called.before.2.trans empty) left
    · refine Or.inr ⟨placer, placed, held.holder, held.unfinished, ?_, held.isRead, ?_, ?_, ?_⟩
      · apply called.kept placer held.inside held.unfinished
        intro isCalled
        exact other (isCalled ▸ held.holder)
      · exact Nat.lt_of_lt_of_eq held.left here.symm
      · exact Nat.le_trans (Nat.le_of_eq here) held.room
      · dsimp only
        rw [here]
        exact held.filled

/-- The operation that placed bytes has the buffer it placed them in. -/
theorem Called.held_buffer {buffer placed : Buffer} {placer : IoOp}
    (called : Called readers after s operation buffer) (held : readers.Held placer placed)
    (isHolder : readers.holder = some operation.identity) : placed = buffer := by
  have identity := Option.some.inj (held.holder.symm.trans isHolder)
  have isRead := held.isRead
  rw [called.unique placer held.inside identity, called.isRead] at isRead
  exact (Operation.read.inj isRead).symm

/-- A read by the operation that placed the bytes, or while none are placed, finds them in
its own buffer. -/
theorem own_placed (inv : ReadersInv readers) {buffer : Buffer}
    (called : Called readers after s operation buffer)
    (own : s.recvmarkqReadOffset = 0 ∨ readers.holder = some operation.identity) :
    s.recvmarkqReadOffset ≤ buffer.length ∧
      readers.taken = readers.reported ++ buffer.bytes.take s.recvmarkqReadOffset := by
  rcases inv.placed with ⟨empty, reported⟩ | ⟨placer, placed, held⟩
  · have none_ := called.before.2.trans empty
    rw [none_, List.take_zero, List.append_nil]
    exact ⟨Nat.zero_le _, reported⟩
  · have left := held.left
    have isHolder : readers.holder = some operation.identity := by
      apply own.resolve_left
      rw [called.before.2]
      omega
    rw [called.before.2, ← called.held_buffer held isHolder]
    exact ⟨held.room, held.filled⟩

theorem fills (inv : ReadersInv readers) {buffer : Buffer}
    (called : Called readers after s operation buffer) (nonempty : buffer.length ≠ 0)
    (own : s.recvmarkqReadOffset = 0 ∨ readers.holder = some operation.identity) :
    ReadersInv (readers.reads after s operation buffer) := by
  have entry := inv.own_placed called own
  have word : s.recvmarkqDistributed < 2 ^ 64 := by
    rw [called.before.1]
    exact inv.word
  obtain ⟨safe, small, cursor, finished, waiting⟩ := Session.read_fills word entry.1 nonempty
  constructor
  · simp only [Readers.reads, called.result.1]
    exact small
  · intro copy member
    rcases List.mem_append.mp member with old | new
    · exact inv.safe copy old
    · exact safe copy new
  · simp only [Readers.reads, List.length_append, inv.counted]
    omega
  · cases done : (s.read buffer).done with
    | true =>
        obtain ⟨empty, filled⟩ := finished done
        left
        simp only [Readers.reads, called.result.2, empty, done, filled, ↓reduceIte, entry.2,
          List.append_assoc, and_self]
    | false =>
        obtain ⟨room, filled⟩ := waiting done
        have taken : readers.taken ++ s.takes buffer = readers.reported ++
            (s.read buffer).buffer.bytes.take (s.read buffer).session.recvmarkqReadOffset := by
          rw [filled, entry.2, List.append_assoc]
        by_cases empty : (s.read buffer).session.recvmarkqReadOffset = 0
        · left
          rw [empty, List.take_zero, List.append_nil] at taken
          simp only [Readers.reads, called.result.2, empty, done, taken, Bool.false_eq_true,
            ↓reduceIte, and_self]
        · right
          refine ⟨{ operation with
              op := .read (s.read buffer).buffer
              ec := (s.read buffer).ec
              bytesTransferred := (s.read buffer).bytesTransferred }, (s.read buffer).buffer,
            ?_, called.unfinished, called.waits done, rfl, ?_, ?_, ?_⟩
          · simp only [Readers.reads, empty, own, ↓reduceIte]
          · simp only [Readers.reads, called.result.2]
            exact Nat.pos_of_ne_zero empty
          · simp only [Readers.reads, called.result.2]
            exact room
          · simp only [Readers.reads, called.result.2, done, Bool.false_eq_true, ↓reduceIte]
            exact taken

theorem reads (inv : ReadersInv readers) {buffer : Buffer}
    (called : Called readers after s operation buffer)
    (apart : s.recvmarkqReadOffset = 0 ∨ readers.holder = some operation.identity ∨
      s.Rests buffer) :
    ReadersInv (readers.reads after s operation buffer) := by
  by_cases own : s.recvmarkqReadOffset = 0 ∨ readers.holder = some operation.identity
  · by_cases empty : buffer.length = 0
    · -- the call resets the offset, which the operation itself has left at zero
      have none_ : readers.service.session.recvmarkqReadOffset = 0 := by
        rcases own with none_ | isHolder
        · exact called.before.2.symm.trans none_
        · rcases inv.placed with ⟨none_, _⟩ | ⟨placer, placed, held⟩
          · exact none_
          · have room := held.room
            rw [called.held_buffer held isHolder] at room
            omega
      have reads : s.read buffer = {
          session := { s with recvmarkqReadOffset := 0 }, buffer := buffer, done := true } := by
        simp only [Session.read, empty, ↓reduceIte]
      have same : readers.reads after s operation buffer = readers.leaves after := by
        have result := called.result.2
        simp only [reads] at result
        simp only [Readers.reads, Readers.leaves, reads, Session.takes, empty, result,
          List.take_zero, List.append_nil, Nat.sub_self, Nat.add_zero, ↓reduceIte]
      rw [same]
      have result := called.result
      simp only [reads] at result
      apply inv.leaves
      · exact result.1.trans called.before.1
      · exact result.2.trans none_.symm
      · intro placer placed held
        have left := held.left
        omega
    · exact inv.fills called empty own
  · obtain ⟨left, other⟩ := not_or.mp own
    exact inv.rests called ((apart.resolve_left left).resolve_left other) left other

end ReadersInv

end Readers

namespace Service

variable {service : Service} {action : ServiceAction}

theorem cursor_next (possible : service.Possible action)
    (unread : ∀ operation activity buffer, service.called action = some (operation, activity) →
      operation.op ≠ .read buffer) :
    ((service.next action).session.recvmarkqDistributed = service.session.recvmarkqDistributed ∧
        (service.next action).session.recvmarkqReadOffset =
          service.session.recvmarkqReadOffset) ∨
      (service.DoesClose action = true ∧
        (service.next action).session.recvmarkqDistributed = 0 ∧
        (service.next action).session.recvmarkqReadOffset = 0) := by
  rcases next_cases possible with
    ⟨operation, activity, called, result⟩ | ⟨_, finishes, later, _, result⟩ | ⟨_, _, goes⟩
  · have before := (@goes_found service action).cursor
    rw [result, (Session.cursor_asyncPendingWait _ _ _).1,
      (Session.cursor_asyncPendingWait _ _ _).2]
    unfold IoOp.perform
    cases isOp : operation.op with
    | read buffer => exact absurd isOp (unread operation activity buffer called)
    | write buffer =>
        have same := Session.cursor_of_receiveState
          ((service.found action).receiveState_write buffer)
        exact Or.inl ⟨same.1.trans before.1, same.2.trans before.2⟩
    | close =>
        rcases (service.found action).close_cases activity with
          ⟨_, result⟩ | ⟨_, _, result⟩ | ⟨running, open_, final, result⟩ | ⟨_, _, _, result⟩
        · simp only [result]
          exact Or.inl before
        · simp only [result]
          exact Or.inl before
        · simp only [result]
          exact Or.inr ⟨by simp [DoesClose, called, isOp, running, open_, final], rfl, rfl⟩
        · simp only [result]
          have closed := ((service.found action).goes_closing activity).cursor
          exact Or.inl ⟨closed.1.trans before.1, closed.2.trans before.2⟩
  · rw [result]
    exact Or.inr ⟨by simp [DoesClose, finishes], rfl, rfl⟩
  · exact Or.inl goes.cursor

theorem read_next {operation : IoOp} {activity : List Callback} {buffer : Buffer}
    (possible : service.Possible action)
    (called : service.called action = some (operation, activity))
    (isRead : operation.op = .read buffer) :
    let result := (service.found action).read buffer
    (service.next action).session.recvmarkqDistributed = result.session.recvmarkqDistributed ∧
      (service.next action).session.recvmarkqReadOffset = result.session.recvmarkqReadOffset ∧
      (result.done = false → { operation with
        op := .read result.buffer, ec := result.ec, bytesTransferred := result.bytesTransferred } ∈
          (service.next action).session.operations) := by
  rcases next_cases possible with
    ⟨other, also, sameCall, result⟩ | ⟨uncalled, _⟩ | ⟨uncalled, _⟩
  · obtain ⟨rfl, rfl⟩ := Prod.mk.inj (Option.some.inj (called.symm.trans sameCall))
    rw [result, (Session.cursor_asyncPendingWait _ _ _).1,
      (Session.cursor_asyncPendingWait _ _ _).2]
    simp only [IoOp.perform, isRead]
    refine ⟨trivial, trivial, ?_⟩
    intro waiting
    simp only [waiting, Bool.false_eq_true, ↓reduceIte]
    exact (Session.operations_asyncPendingWait _ _ (by decide)).mem_iff.mpr List.mem_cons_self
  · rw [uncalled] at called
    cases called
  · rw [uncalled] at called
    cases called

end Service

namespace Readers

variable {readers : Readers} {action : ServiceAction}

theorem ReadersInv.unread (inv : ReadersInv readers) (apart : readers.ReadsApart action)
    (unread : ∀ operation activity buffer,
      readers.service.called action = some (operation, activity) →
        operation.op ≠ .read buffer) :
    ReadersInv (readers.leaves (readers.service.next action)) := by
  rcases Service.cursor_next apart.1 unread with
    ⟨distributed, offset⟩ | ⟨closes, distributed, offset⟩
  · apply inv.leaves distributed offset
    intro operation buffer held
    apply Service.held_next held.unfinished held.inside
    intro activity called
    exact unread operation activity buffer called held.isRead
  · exact inv.closes (apart.2.1 closes) distributed offset

theorem ReadersInv.next (inv : ReadersInv readers) (identified : readers.service.Identified)
    (apart : readers.ReadsApart action) : ReadersInv (readers.next action) := by
  unfold Readers.next
  dsimp only
  split
  · rename_i operation activity called
    split
    · rename_i buffer isRead
      have calledApart := apart.2.2
      rw [called] at calledApart
      have own : (service readers |>.found action).Apart readers.holder operation operation.op :=
        calledApart
      rw [isRead] at own
      obtain ⟨distributed, offset, waits⟩ := Service.read_next apart.1 called isRead
      apply inv.reads _ own
      refine ⟨(Service.operations_found called).1, isRead,
        (@Service.goes_found readers.service action).cursor, ⟨distributed, offset⟩, waits,
        fun other inside => identified.called called inside, ?_⟩
      intro other inside unfinished apartFrom
      apply Service.held_next unfinished inside
      intro activity' sameCall
      rw [called] at sameCall
      exact apartFrom (Prod.mk.inj (Option.some.inj sameCall)).1.symm
    · rename_i notRead
      apply inv.unread apart
      intro other activity' buffer sameCall isRead
      rw [called] at sameCall
      obtain ⟨rfl, _⟩ := Prod.mk.inj (Option.some.inj sameCall)
      exact notRead buffer isRead
  · rename_i uncalled
    apply inv.unread apart
    intro other activity' buffer called
    rw [uncalled] at called
    cases called

theorem service_next (readers : Readers) (action : ServiceAction) :
    (readers.next action).service = readers.service.next action := by
  unfold Readers.next
  dsimp only
  split
  · split <;> rfl
  · rfl

end Readers

theorem Session.Fresh.readersInv {session : Session} (fresh : session.Fresh) :
    Readers.ReadersInv { service := { session := session } } where
  word := by
    simp only [fresh.recvmarkqDistributed]
    decide
  safe := by
    intro copy member
    cases member
  counted := rfl
  placed := Or.inl ⟨fresh.recvmarkqReadOffset, rfl⟩

/-- Outstanding reads do not corrupt one another as long as none is called into bytes
that another has placed, unless it finds nothing, and the session is not closed on such
bytes. -/
theorem outstanding_reads_do_not_corrupt {session : Session} (fresh : session.Fresh)
    {readers : Readers}
    (reached : Reaches Readers.next Readers.ReadsApart { service := { session := session } }
      readers) : readers.Uncorrupted := by
  have inv : readers.service.Identified ∧ readers.ReadersInv := by
    apply reached.invariant ⟨fresh.identified, fresh.readersInv⟩
    intro state action inv apart
    refine ⟨?_, inv.2.next inv.1 apart⟩
    rw [Readers.service_next]
    exact inv.1.next action
  exact inv.2.uncorrupted

/-- A read of two bytes is retried after another has found nothing. -/
theorem outstanding_reads_do_not_corrupt_retried :
    let pair : Buffer := ⟨[0, 0], by decide⟩
    let single : Buffer := ⟨[0], by decide⟩
    let readers := [ServiceAction.beginInside 1 (.read pair) [],
      .receive [.recvmarkqPut { data := [1] }], .run 0 [],
      .beginInside 2 (.read ⟨[0, 0, 0], by decide⟩) [],
      .receive [.recvmarkqPut { offset := 1, data := [2] }], .run 0 [],
      .beginInside 3 (.read single) []].foldl Readers.next { service := { session := {} } }
    readers.Uncorrupted ∧ readers.reported = [1, 2] := by
  intro pair single readers
  have reached : Reaches Readers.next Readers.ReadsApart { service := { session := {} } }
      readers := Reaches.start.schedule _ (by decide)
  exact ⟨outstanding_reads_do_not_corrupt (Session.fresh_configured _ _ _) reached, by decide⟩

/-- The second of two reads is retried first, and completes with a byte that the first
has placed in its own buffer. -/
theorem second_read_gets_byte_of_first :
    ¬ ∀ (session : Session) (readers : Readers), session.Fresh →
      Reaches Readers.next (fun readers action => readers.service.Possible action)
        { service := { session := session } } readers → readers.Uncorrupted := by
  intro claimed
  have reached := Reaches.schedule (@Reaches.start _ _ Readers.next
    (fun readers action => readers.service.Possible action) { service := { session := {} } })
    [.beginInside 1 (.read ⟨[0, 0], by decide⟩) [],
      .beginInside 2 (.read ⟨[0, 0], by decide⟩) [],
      .receive [.recvmarkqPut { data := [1] }], .run 0 [],
      .receive [.recvmarkqPut { offset := 1, data := [2] }], .run 0 []] (by decide)
  have placed := (claimed {} _ (Session.fresh_configured _ _ _) reached).placed
  rcases placed with ⟨_, reported⟩ | ⟨_, _, _, _, left, _⟩
  · exact absurd reported (by decide)
  · exact absurd left (by decide)

end CurvecprAsio
