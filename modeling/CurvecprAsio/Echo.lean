import CurvecprAsio.Hosts

set_option autoImplicit false

/- The two example programs: a client that writes one byte value over and over and checks
what comes back, and a server that writes back what it reads. -/
namespace CurvecprAsio

open Strand Transition SearchTree

namespace Buffer

theorem filled_fits (byte : UInt8) : (List.replicate 64 byte).length < 2 ^ 64 := by
  rw [List.length_replicate]
  decide

/-- The first 64 bytes of a vector, all the same. -/
def filled (byte : UInt8) : Buffer where
  bytes := List.replicate 64 byte
  fits := filled_fits byte

theorem skip_fits (buffer : Buffer) (total : Nat) : (buffer.bytes.drop total).length < 2 ^ 64 := by
  have fits := buffer.fits
  rw [List.length_drop]
  omega

/-- `buffer + total`. -/
def skip (buffer : Buffer) (total : Nat) : Buffer where
  bytes := buffer.bytes.drop total
  fits := buffer.skip_fits total

theorem upTo_fits (buffer : Buffer) (size : Nat) : (buffer.bytes.take size).length < 2 ^ 64 := by
  have fits := buffer.fits
  rw [List.length_take]
  omega

/-- `boost::asio::buffer(&buffer[0], size)`. -/
def upTo (buffer : Buffer) (size : Nat) : Buffer where
  bytes := buffer.bytes.take size
  fits := buffer.upTo_fits size

end Buffer

/-- `boost::asio::async_read` and `async_write` call their handler on an error, when an
operation has transferred nothing and when `size` bytes have been transferred. Else they
begin another operation for the rest. -/
def IoOp.endsTransfer (operation : IoOp) (size total : Nat) : Bool :=
  operation.ec ≠ .success ∨ operation.bytesTransferred = 0 ∨
    total + operation.bytesTransferred = size

/-- What the client logs of bytes that should not have come. -/
inductive Warning where
  | invalidNumber
  | corrupted (position : Nat)
  deriving DecidableEq, Repr

/-- `example` of `simple_example.cpp`. `reading` and `writing` are the bytes transferred so
far by the `async_read` and the `async_write` under way. -/
structure SimpleExample where
  connected : Bool := false
  rxBufferSpace : Buffer := .filled 0
  txBufferSpace : Buffer := .filled 0
  reading : Option Nat := none
  writing : Option Nat := none
  receivedData : Nat := 0
  sentData : Nat := 0
  warnings : List Warning := []
  deriving DecidableEq, Repr

namespace SimpleExample

def asyncRead (client : SimpleExample) (total : Nat) : SimpleExample × List Operation :=
  ({ client with reading := some total }, [.read (client.rxBufferSpace.skip total)])

def asyncWrite (client : SimpleExample) (total : Nat) : SimpleExample × List Operation :=
  ({ client with writing := some total }, [.write (client.txBufferSpace.skip total)])

/-- `example::connect_handler` without an error. -/
def connectHandler (client : SimpleExample) : SimpleExample × List Operation :=
  let begun := { client with connected := true, txBufferSpace := .filled 104 }
  let reads := begun.asyncRead 0
  let writes := reads.1.asyncWrite 0
  (writes.1, reads.2 ++ writes.2)

/-- The warnings for `bytes` bytes in `rx_buffer_space_`. -/
def check (client : SimpleExample) (bytes : Nat) : List Warning :=
  (if bytes ≠ 64 then [.invalidNumber] else []) ++
    ((List.range bytes).filter fun position =>
      client.rxBufferSpace.bytes[position]? ≠ some 104).map .corrupted

/-- `example::read_handler`. -/
def readHandler (client : SimpleExample) (ec : ErrorCode) (bytes : Nat) :
    SimpleExample × List Operation :=
  if ec ≠ .success then ({ client with reading := none }, [.close])
  else
    let checked := { client with
      warnings := client.warnings ++ client.check bytes
      receivedData := client.receivedData + bytes }
    if 1024 * 1024 < checked.receivedData then ({ checked with reading := none }, [.close])
    else checked.asyncRead 0

/-- `example::write_handler`. -/
def writeHandler (client : SimpleExample) (ec : ErrorCode) : SimpleExample × List Operation :=
  if ec ≠ .success then ({ client with writing := none }, [.close])
  else { client with sentData := client.sentData + 64 }.asyncWrite 0

/-- An operation has completed: what the client does, and the operations that it begins. -/
def handle (client : SimpleExample) (operation : IoOp) : SimpleExample × List Operation :=
  match operation.op, client.reading, client.writing with
  | .read buffer, some total, _ =>
      let filled := { client with
        rxBufferSpace := client.rxBufferSpace.overwrite total buffer.bytes }
      let transferred := total + operation.bytesTransferred
      if operation.endsTransfer 64 total then filled.readHandler operation.ec transferred
      else filled.asyncRead transferred
  | .write _, _, some total =>
      if operation.endsTransfer 64 total then client.writeHandler operation.ec
      else client.asyncWrite (total + operation.bytesTransferred)
  | _, _, _ => (client, [])

end SimpleExample

/-- What a connection of the server waits for: its `accept_handler`, an `async_read`, an
`async_write` of `size` bytes, or nothing but its close. -/
inductive Phase where
  | accepting
  | reading (total : Nat)
  | writing (size total : Nat)
  | closing
  deriving DecidableEq, Repr

/-- `connection` of `simple_server.cpp`. -/
structure Connection where
  bufferSpace : Buffer := .filled 0
  receivedData : Nat := 0
  phase : Phase := .accepting
  deriving DecidableEq, Repr

namespace Connection

def asyncRead (peer : Connection) (total : Nat) : Connection × List Operation :=
  ({ peer with phase := .reading total }, [.read (peer.bufferSpace.skip total)])

def asyncWrite (peer : Connection) (size total : Nat) : Connection × List Operation :=
  ({ peer with phase := .writing size total },
    [.write ((peer.bufferSpace.upTo size).skip total)])

def close (peer : Connection) : Connection × List Operation :=
  ({ peer with phase := .closing }, [.close])

/-- `example::accept_handler`. -/
def acceptHandler (peer : Connection) : Connection × List Operation := peer.asyncRead 0

/-- `example::read_handler`. -/
def readHandler (peer : Connection) (ec : ErrorCode) (bytes : Nat) :
    Connection × List Operation :=
  if ec ≠ .success then peer.close
  else { peer with receivedData := peer.receivedData + bytes }.asyncWrite bytes 0

/-- `example::write_handler`. -/
def writeHandler (peer : Connection) (ec : ErrorCode) : Connection × List Operation :=
  if ec ≠ .success then peer.close else peer.asyncRead 0

/-- An operation of the connection's stream has completed. -/
def handle (peer : Connection) (operation : IoOp) : Connection × List Operation :=
  match operation.op, peer.phase with
  | .read buffer, .reading total =>
      let filled := { peer with
        bufferSpace := peer.bufferSpace.overwrite total buffer.bytes }
      let transferred := total + operation.bytesTransferred
      if operation.endsTransfer 64 total then filled.readHandler operation.ec transferred
      else filled.asyncRead transferred
  | .write _, .writing size total =>
      if operation.endsTransfer size total then peer.writeHandler operation.ec
      else peer.asyncWrite size (total + operation.bytesTransferred)
  | _, _ => (peer, [])

end Connection

/-- The client on the near side and a connection of the server on the far side. -/
structure Echo where
  hosts : Hosts
  client : SimpleExample := {}
  peer : Connection := {}
  deriving DecidableEq, Repr

/-- The client's connect operation succeeds, the server's accept operation is given the
session, or an io_service takes a step. libcurvecpr does `activity` if the completion
handler called in the step closes the stream. -/
inductive EchoAction where
  | connected
  | accepted
  | step (side : Side) (action : ServiceAction) (activity : List Callback)

/-- A program begins an operation on or off the strand, with the handler for its kind. -/
def Operation.begin (op : Operation) (inside : Bool) (activity : List Callback) : ServiceAction :=
  let handler := match op with
    | .read _ => 1
    | .write _ => 2
    | .close => 3
  if inside then .beginInside handler op activity else .beginOutside handler op

/-- Handlers that the strand runs run on it. -/
def ServiceAction.inside : ServiceAction → Bool
  | .run _ _ => true
  | _ => false

/-- The operation whose completion handler a step has called. -/
def Service.completion (service later : Service) : Option IoOp :=
  later.completed[service.completed.length]?

namespace Echo

def between (near far : Session) : Echo where
  hosts := .between near far

/-- The operation whose completion handler is called when the io_service of a side takes a
step. -/
def completion (echo : Echo) (side : Side) (action : ServiceAction) : Option IoOp :=
  (echo.hosts.host side).service.completion ((echo.hosts.host side).service.next action)

/-- The programs after an action, and the operations they begin. -/
def react (echo : Echo) : EchoAction → SimpleExample × Connection × List Operation
  | .connected => (echo.client.connectHandler.1, echo.peer, echo.client.connectHandler.2)
  | .accepted => (echo.client, echo.peer.acceptHandler.1, echo.peer.acceptHandler.2)
  | .step side action _ =>
      match side, echo.completion side action with
      | .near, some operation =>
          ((echo.client.handle operation).1, echo.peer, (echo.client.handle operation).2)
      | .far, some operation =>
          (echo.client, (echo.peer.handle operation).1, (echo.peer.handle operation).2)
      | _, none => (echo.client, echo.peer, [])

/-- The steps of the io_services that an action comes to. The connect handler is called on
the strand, the accept handler is not. -/
def moves (echo : Echo) (action : EchoAction) : List (Side × ServiceAction) :=
  let begun := (echo.react action).2.2
  match action with
  | .connected => begun.map fun op => (.near, op.begin true [])
  | .accepted => begun.map fun op => (.far, op.begin false [])
  | .step side action activity =>
      (side, action) :: begun.map fun op => (side, op.begin action.inside activity)

def next (echo : Echo) (action : EchoAction) : Echo where
  hosts := (echo.moves action).foldl Hosts.next echo.hosts
  client := (echo.react action).1
  peer := (echo.react action).2.1

end Echo

/-- What the user does is not constrained. -/
def Hosts.Environment (hosts : Hosts) (action : Side × ServiceAction) : Prop :=
  (hosts.host action.1).Environment (hosts.host action.1.other).party.wire action.2

instance (hosts : Hosts) (action : Side × ServiceAction) : Decidable (hosts.Environment action) :=
  inferInstanceAs (Decidable ((hosts.host action.1).Environment
    (hosts.host action.1.other).party.wire action.2))

namespace Echo

/-- The connect and the accept handler are called once, and only the programs begin
operations. -/
def Called (echo : Echo) : EchoAction → Prop
  | .connected => echo.client.connected = false
  | .accepted => echo.peer.phase = .accepting
  | .step _ action _ => action.begins = none

instance (echo : Echo) : (action : EchoAction) → Decidable (echo.Called action)
  | .connected => inferInstanceAs (Decidable (echo.client.connected = false))
  | .accepted => inferInstanceAs (Decidable (echo.peer.phase = .accepting))
  | .step _ action _ => inferInstanceAs (Decidable (action.begins = none))

def Allowed (echo : Echo) (action : EchoAction) : Prop :=
  echo.Called action ∧ AllMet Hosts.next Hosts.Environment echo.hosts (echo.moves action)

instance (echo : Echo) (action : EchoAction) : Decidable (echo.Allowed action) :=
  inferInstanceAs (Decidable (echo.Called action ∧
    AllMet Hosts.next Hosts.Environment echo.hosts (echo.moves action)))

end Echo

end CurvecprAsio
