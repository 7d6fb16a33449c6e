import CurvecprAsio.Block
import CurvecprAsio.Lib.Strand

set_option autoImplicit false

namespace CurvecprAsio

open SearchTree

/-- `session::want`. -/
inductive Want where
  | nothing
  | read
  | write
  | close
  deriving DecidableEq, Repr

/-- The boost::system::error_code values the library produces or tests for. -/
inductive ErrorCode where
  | success
  | operationAborted
  | badDescriptor
  | connectionRefused
  | eof
  deriving DecidableEq, Repr

/-- The timers of a session. -/
inductive Timer where
  | sendQueue
  | pendingReadyRead
  | pendingReadyWrite
  | pendingReadyClose
  | close
  deriving DecidableEq, Repr

/-- `read_op`, `write_op` and `close_op`, with the buffer they were given. -/
inductive Operation where
  | read (buffer : Buffer)
  | write (buffer : Buffer)
  | close
  deriving DecidableEq, Repr

/-- `io_op`. The user's completion handler is known by its number; `identity` tells the
objects of one run apart, as their buffers do. -/
structure IoOp where
  handler : Nat
  op : Operation
  ec : ErrorCode := .success
  bytesTransferred : Nat := 0
  finished : Bool := false
  identity : Nat := 0
  deriving DecidableEq, Repr

/-- What the session's strand can be asked to run. -/
inductive Handler where
  | processSendQueue
  | doClose
  | ioOp (operation : IoOp)
  deriving DecidableEq, Repr

/-- The part of `curvecpr_messager` that the session reads or writes. -/
structure Messager where
  myMaximumSendBytes : Nat := 512
  myEof : Bool := false
  myFinal : Bool := false
  theirFinal : Bool := false
  theirContiguousSentBytes : Nat := 0
  deriving DecidableEq, Repr

/-- `curvecp::detail::session`. `allocated` counts the blocks that `new` has
returned for `sendmarkq_`, and `closeHandlerCalls` the calls of `close_handler_`. -/
structure Session where
  messager : Messager := {}
  pendingMaximum : Nat := 65536
  sendmarkqMaximum : Nat := 512
  recvmarkqMaximum : Nat := 512
  pending : List UInt8 := []
  pendingEof : Bool := false
  pendingClose : Bool := false
  pendingUsed : Nat := 0
  pendingCurrent : Nat := 0
  pendingNext : Nat := 0
  sendqHeadExists : Bool := false
  sendqHead : Block := .zero
  sendmarkq : SearchTree.Tree SentBlock := .leaf
  recvmarkq : List BlockStatus := []
  recvmarkqDistributed : Nat := 0
  recvmarkqReadOffset : Nat := 0
  running : Bool := false
  strand : Strand.Queue Timer Handler := {}
  allocated : Nat := 0
  closeHandlerCalls : Nat := 0
  deriving DecidableEq, Repr

/-- A session as constructed, with the maxima it was configured with. -/
structure Session.Fresh (s : Session) : Prop where
  pending : s.pending = []
  pendingEof : s.pendingEof = false
  pendingClose : s.pendingClose = false
  pendingUsed : s.pendingUsed = 0
  pendingCurrent : s.pendingCurrent = 0
  pendingNext : s.pendingNext = 0
  sendqHeadExists : s.sendqHeadExists = false
  sendmarkq : s.sendmarkq = .leaf
  recvmarkq : s.recvmarkq = []
  recvmarkqDistributed : s.recvmarkqDistributed = 0
  recvmarkqReadOffset : s.recvmarkqReadOffset = 0
  running : s.running = false
  theirContiguousSentBytes : s.messager.theirContiguousSentBytes = 0
  waiting : s.strand.waiting = []
  ready : s.strand.ready = []
  allocated : s.allocated = 0
  closeHandlerCalls : s.closeHandlerCalls = 0

theorem Session.fresh_configured (pendingMaximum sendmarkqMaximum recvmarkqMaximum : Nat) :
    Session.Fresh {
      pendingMaximum := pendingMaximum, sendmarkqMaximum := sendmarkqMaximum
      recvmarkqMaximum := recvmarkqMaximum } := by
  constructor <;> rfl

end CurvecprAsio
