import CurvecprAsio.Session

set_option autoImplicit false

namespace CurvecprAsio

open SearchTree

/-- The cells of the ring that one `memcpy` reads or writes. -/
structure RingCopy where
  position : Nat
  length : Nat
  deriving DecidableEq, Repr

structure WriteResult where
  session : Session
  done : Bool
  ec : ErrorCode := .success
  bytesTransferred : Nat := 0
  copies : List RingCopy := []
  deriving DecidableEq, Repr

structure HeadResult where
  session : Session
  ret : Int
  copies : List RingCopy := []
  deriving DecidableEq, Repr

structure MoveResult where
  session : Session
  ret : Int
  stored : Option SentBlock := none
  deriving DecidableEq, Repr

namespace Session

/-- `session::reschedule_process_send_queue`; when the timer expires is not
modelled. -/
def rescheduleProcessSendQueue (s : Session) : Session :=
  { s with strand := s.strand.rearm .sendQueue .processSendQueue }

/-- The copies of `session::write` into the ring, and where they leave
`pending_next_`. -/
def fill (s : Session) (buffer : Buffer) : List UInt8 × Nat × List RingCopy :=
  let pending := if s.pending.isEmpty then List.replicate s.pendingMaximum 0 else s.pending
  if s.pendingMaximum < add64 s.pendingNext buffer.length then
    -- Two writes; one at the end and one at the beginning
    let avail := toSize (toInt (sub64 s.pendingMaximum s.pendingNext))
    let rest := sub64 buffer.length avail
    (Ring.overwrite (Ring.overwrite pending s.pendingNext (buffer.bytes.take avail)) 0
      (buffer.bytes.drop avail), rest, [⟨s.pendingNext, avail⟩, ⟨0, rest⟩])
  else
    -- Just one write at the end
    (Ring.overwrite pending s.pendingNext buffer.bytes, add64 s.pendingNext buffer.length,
      [⟨s.pendingNext, buffer.length⟩])

/-- `session::write`. -/
def write (s : Session) (buffer : Buffer) : WriteResult :=
  if buffer.length = 0 then { session := s, done := true }
  else if s.pendingEof then { session := s, done := true, ec := .eof }
  else if sub64 s.pendingMaximum s.pendingUsed < buffer.length then
    { session := s, done := false }
  else
    let filled := s.fill buffer
    let after := { s with
      pending := filled.1
      pendingNext := filled.2.1
      pendingUsed := add64 s.pendingUsed buffer.length }
    { session := if s.running then after.rescheduleProcessSendQueue else after
      done := true, bytesTransferred := buffer.length, copies := filled.2.2 }

/-- `requested`, an int. -/
def requested (s : Session) : Int :=
  toInt (min s.pendingUsed s.messager.myMaximumSendBytes)

/-- The copies of `session::handle_sendq_head` out of the ring, and where they
leave `pending_current_`. -/
def drain (s : Session) : List UInt8 × Nat × List RingCopy :=
  if s.pendingMaximum < add64 s.pendingCurrent (toSize s.requested) then
    -- Two reads, one from the end and one from the beginning
    let avail := toInt (sub64 s.pendingMaximum s.pendingCurrent)
    let rest := toSize (s.requested - avail)
    ((s.pending.drop s.pendingCurrent).take (toSize avail) ++ s.pending.take rest, rest,
      [⟨s.pendingCurrent, toSize avail⟩, ⟨0, rest⟩])
  else
    -- Just one read at the end
    ((s.pending.drop s.pendingCurrent).take (toSize s.requested),
      add64 s.pendingCurrent (toSize s.requested), [⟨s.pendingCurrent, toSize s.requested⟩])

/-- The first `len` bytes of a zeroed data array after `copied` was stored in it. -/
def payload (copied : List UInt8) (len : Nat) : List UInt8 :=
  (copied ++ List.replicate len 0).take len

@[simp] theorem length_payload (copied : List UInt8) (len : Nat) :
    (payload copied len).length = len := by
  simp only [payload, List.length_take, List.length_append, List.length_replicate]
  omega

/-- A zeroed block with `len` bytes of data. -/
def dataBlock (copied : List UInt8) (len : Nat) (small : len < 2 ^ 64) : Block :=
  { Block.zero with
    data := payload copied len
    data_lt := by rw [length_payload]; exact small }

/-- The part of `session::handle_sendq_head` that fills `sendq_head_`. -/
def takeHead (s : Session) : Session × List RingCopy :=
  if s.pending.isEmpty then ({ s with sendqHead := .zero }, [])
  else
    let drained := s.drain
    ({ s with
      sendqHead := dataBlock drained.1 (toSize s.requested) (toSize_lt _)
      pendingCurrent := drained.2.1
      pendingUsed := sub64 s.pendingUsed (toSize s.requested)
      strand := s.strand.cancel .pendingReadyWrite }, drained.2.2)

/-- `session::handle_sendq_head`. The block it stores is always `sendq_head_`. -/
def handleSendqHead (s : Session) : HeadResult :=
  if s.sendqHeadExists then { session := s, ret := 0 }
  else if s.pendingUsed ≠ 0 ∨ s.pendingEof then
    let taken := s.takeHead.1
    let eof : BlockEof :=
      if taken.pendingUsed = 0 ∧ taken.pendingEof then .eofSuccess else .stream
    { session := { taken with
        sendqHead := { taken.sendqHead with eof := eof }
        sendqHeadExists := true }
      ret := 0, copies := s.takeHead.2 }
  else { session := s, ret := -1 }

/-- `session::handle_sendmarkq_is_full`. -/
def handleSendmarkqIsFull (s : Session) : Bool := s.sendmarkqMaximum ≤ s.sendmarkq.size

/-- The pointer `&sendq_head_`; the pointers of allocated blocks are positive. -/
def headPointer : Nat := 0

/-- `sendq_head_` as an argument. -/
def headBlock (s : Session) : SentBlock := ⟨headPointer, s.sendqHead⟩

/-- `session::handle_sendq_move_to_sendmarkq`. The queue is a std::multiset
searched and filled by `block_clock_compare`; how it balances is left open. -/
def handleSendqMoveToSendmarkq (s : Session) (balance : Balance SentBlock)
    (block : SentBlock) : MoveResult :=
  if !s.sendqHeadExists || block.pointer ≠ headPointer then
    match s.sendmarkq.find blockClockCompare block with
    | some it =>
        -- Re-sort block to new position as clock has likely been updated
        let erased := balance.run (s.sendmarkq.erase it)
        { session := { s with
            sendmarkq := balance.run (erased.insert blockClockCompare block) }
          ret := -1 }
    | none => { session := s, ret := -1 }
  else if s.handleSendmarkqIsFull then { session := s, ret := -1 }
  else
    let newBlock : SentBlock := ⟨s.allocated + 1, s.sendqHead⟩
    { session := { s with
        allocated := s.allocated + 1
        sendmarkq := balance.run (s.sendmarkq.insert blockClockCompare newBlock)
        sendqHeadExists := false }
      ret := 0, stored := some newBlock }

/-- `session::handle_sendq_is_empty`. -/
def handleSendqIsEmpty (s : Session) : Bool :=
  !s.sendqHeadExists && s.pendingUsed = 0 && (!s.pendingEof || s.messager.myEof)

/-- `session::handle_sendmarkq_head`. -/
def handleSendmarkqHead (s : Session) : Option SentBlock := s.sendmarkq.toList.head?

/-- `session::handle_sendmarkq_get`. -/
def handleSendmarkqGet (s : Session) (acknowledgingId : Nat) : Option SentBlock :=
  s.sendmarkq.toList.find? fun sent => sent.block.id = acknowledgingId

/-- `session::handle_sendmarkq_remove_range`. -/
def handleSendmarkqRemoveRange (s : Session) (balance : Balance SentBlock)
    (start stop : Nat) : Session :=
  { s with sendmarkq := balance.run (s.sendmarkq.filter fun sent =>
      !sent.block.inRange start stop) }

/-- What libcurvecpr writes into a block just before it sends it. -/
def stamp (id : Nat) (clock : Int) (block : Block) : Block :=
  { block with id := id, clock := clock }

def stampPointer (pointer id : Nat) (clock : Int) (sent : SentBlock) : SentBlock :=
  if sent.pointer = pointer then { sent with block := stamp id clock sent.block } else sent

/-- libcurvecpr stamps a block of `sendmarkq_` in place. -/
def stampSent (s : Session) (pointer id : Nat) (clock : Int) : Session :=
  { s with sendmarkq := s.sendmarkq.map (stampPointer pointer id clock) }

/-- libcurvecpr resends a block of `sendmarkq_`: it stamps the block in place,
and then asks for its move. -/
def resend (s : Session) (balance : Balance SentBlock) (pointer id : Nat) (clock : Int) :
    MoveResult :=
  let stamped := s.stampSent pointer id clock
  match stamped.sendmarkq.toList.find? fun sent => sent.pointer = pointer with
  | some sent => stamped.handleSendqMoveToSendmarkq balance sent
  | none => { session := stamped, ret := -1 }

/-- libcurvecpr stamps the head block in place and gives it its offset. -/
def stampHead (s : Session) (id : Nat) (clock : Int) (offset : Nat) : Session :=
  { s with sendqHead := { stamp id clock s.sendqHead with
      offset := offset % 2 ^ 64, offset_lt := Nat.mod_lt _ (by decide) } }

/-- The live bytes of the ring: `pending_used_` bytes from `pending_current_`. -/
def ringContents (s : Session) : List UInt8 :=
  Ring.window s.pending s.pendingCurrent s.pendingUsed

/-- The bytes of the head block, when there is one. -/
def headContents (s : Session) : List UInt8 :=
  if s.sendqHeadExists then s.sendqHead.data else []

end Session

end CurvecprAsio
