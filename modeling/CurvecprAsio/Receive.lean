import CurvecprAsio.Session

set_option autoImplicit false

namespace CurvecprAsio

/-- The operands of one `memcpy` of `session::read`. -/
structure Copy where
  distributed : Nat
  offset : Nat
  dataLen : Nat
  bufferLength : Nat
  readOffset : Nat
  length : Nat
  deriving DecidableEq, Repr

/-- `idx`, the place in the block where the copy begins. -/
def Copy.idx (copy : Copy) : Nat := sub64 copy.distributed copy.offset

/-- None of the subtractions of a copy underflows, and it stays inside the
block and inside the buffer. -/
structure Copy.Safe (copy : Copy) : Prop where
  reached : copy.offset ≤ copy.distributed
  unread : copy.idx ≤ copy.dataLen
  started : copy.readOffset ≤ copy.bufferLength
  inside : copy.readOffset + copy.length ≤ copy.bufferLength
  available : copy.idx + copy.length ≤ copy.dataLen

/-- What the loop of `session::read` changes besides the queue. -/
structure ReadPass where
  buffer : Buffer
  distributed : Nat
  readOffset : Nat
  pendingEof : Bool
  contiguous : Nat
  copies : List Copy := []
  deriving DecidableEq, Repr

namespace ReadPass

def copy (pass : ReadPass) (block : Block) (length : Nat) : ReadPass :=
  let idx := sub64 pass.distributed block.offset
  { pass with
    buffer := pass.buffer.overwrite pass.readOffset ((block.data.drop idx).take length)
    distributed := add64 pass.distributed length
    readOffset := add64 pass.readOffset length
    copies := pass.copies ++ [{
      distributed := pass.distributed, offset := block.offset, dataLen := block.dataLen
      bufferLength := pass.buffer.length, readOffset := pass.readOffset, length := length }] }

/-- Copy what is new in a block that starts at or below the cursor. The flag is
`should_break`: the buffer took only a part of the block. -/
def consume (pass : ReadPass) (block : Block) : ReadPass × Bool :=
  if 0 < block.dataLen ∧ pass.distributed < block.endOffset then
    let idx := sub64 pass.distributed block.offset
    let len := sub64 block.dataLen idx
    let room := sub64 pass.buffer.length pass.readOffset
    if room < len then (pass.copy block room, true) else (pass.copy block len, false)
  else (pass, false)

/-- A block that has been copied to its end passes on its EOF mark and raises
the messager's contiguous count. -/
def distribute (pass : ReadPass) (block : Block) : ReadPass :=
  { pass with
    pendingEof := pass.pendingEof || block.marked
    contiguous :=
      if pass.contiguous < pass.distributed then pass.distributed else pass.contiguous }

end ReadPass

/-- The loop of `session::read` over `recvmarkq_`. -/
def readLoop : List BlockStatus → ReadPass → List BlockStatus × ReadPass
  | [], pass => ([], pass)
  | element :: rest, pass =>
      if element.block.offset ≤ pass.distributed then
        let consumed := pass.consume element.block
        if consumed.2 then (element :: rest, consumed.1)
        else
          let marked := { element with distributed := true }
          let next := readLoop rest (consumed.1.distribute element.block)
          (if marked.done then next.1 else marked :: next.1, next.2)
      else (element :: rest, pass)

structure ReadResult where
  session : Session
  buffer : Buffer
  done : Bool
  ec : ErrorCode := .success
  bytesTransferred : Nat := 0
  copies : List Copy := []
  deriving DecidableEq, Repr

structure PutResult where
  session : Session
  ret : Int
  deriving DecidableEq, Repr

namespace Session

/-- A read with this buffer, before its loop. -/
def readEntry (s : Session) (buffer : Buffer) : ReadPass where
  buffer := buffer
  distributed := s.recvmarkqDistributed
  readOffset := s.recvmarkqReadOffset
  pendingEof := s.pendingEof
  contiguous := s.messager.theirContiguousSentBytes

def readPass (s : Session) (buffer : Buffer) : List BlockStatus × ReadPass :=
  readLoop s.recvmarkq (s.readEntry buffer)

/-- `session::read`. -/
def read (s : Session) (buffer : Buffer) : ReadResult :=
  if buffer.length = 0 then
    { session := { s with recvmarkqReadOffset := 0 }, buffer := buffer, done := true }
  else
    let queue := (s.readPass buffer).1
    let pass := (s.readPass buffer).2
    let after := { s with
      recvmarkq := queue
      recvmarkqDistributed := pass.distributed
      recvmarkqReadOffset := pass.readOffset
      pendingEof := pass.pendingEof
      messager := { s.messager with theirContiguousSentBytes := pass.contiguous } }
    if pass.readOffset = buffer.length ∨ pass.pendingEof then
      { session := { after with recvmarkqReadOffset := 0 }, buffer := pass.buffer, done := true
        ec := if pass.pendingEof then .eof else .success
        bytesTransferred := pass.readOffset, copies := pass.copies }
    else
      { session := after, buffer := pass.buffer, done := false, copies := pass.copies }

/-- `session::handle_recvmarkq_put`: a std::multiset insertion goes behind the
elements that are not above the new one. -/
def handleRecvmarkqPut (s : Session) (block : Block) : PutResult :=
  if 0 ≤ s.recvmarkq.length ∧ s.recvmarkqMaximum ≤ s.recvmarkq.length then
    { session := s, ret := -1 }
  else
    let element : BlockStatus := { block := block, distributed := s.pendingEof }
    { session := { s with
        recvmarkq := s.recvmarkq.orderedInsert (fun a b => blockRangeCompare a b) element
        strand := if s.pendingEof then s.strand else s.strand.cancel .pendingReadyRead }
      ret := 0 }

/-- `session::handle_recvmarkq_get_nth_unacknowledged`. -/
def handleRecvmarkqGetNthUnacknowledged (s : Session) (n : Nat) : Option Block :=
  ((s.recvmarkq.filter fun element => !element.acknowledged)[n]?).map BlockStatus.block

/-- `session::handle_recvmarkq_is_empty`. -/
def handleRecvmarkqIsEmpty (s : Session) : Bool := s.recvmarkq.isEmpty

/-- One round of the loop of `session::handle_recvmarkq_remove_range`. -/
def acknowledge (start stop : Nat) (element : BlockStatus) : Option BlockStatus :=
  if element.block.inRange start stop then
    let marked := { element with acknowledged := true }
    if marked.done then none else some marked
  else some element

/-- `session::handle_recvmarkq_remove_range`. -/
def handleRecvmarkqRemoveRange (s : Session) (start stop : Nat) : Session :=
  { s with recvmarkq := s.recvmarkq.filterMap (acknowledge start stop) }

end Session

end CurvecprAsio
