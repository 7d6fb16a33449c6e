import CurvecprAsio.ClientStream
import CurvecprAsio.CloseOnce
import CurvecprAsio.Steps

set_option autoImplicit false

/- A client stream together with the operations that its user begins on the session,
and the connect operation that waits for the session to start. -/
namespace CurvecprAsio

open Strand Transition

/-- A client stream and the io_service that its session runs on. -/
structure Client where
  service : Service
  socket : Socket := {}
  timers : Queue ClientTimer ClientHandler := {}
  helloRetries : Int := 0
  events : List ClientEvent := []
  deriving DecidableEq, Repr

inductive ClientStep where
  | stream (action : ClientAction)
  | service (action : ServiceAction)

namespace Client

def stream (client : Client) : ClientStream where
  session := client.service.session
  socket := client.socket
  timers := client.timers
  helloRetries := client.helloRetries
  events := client.events

/-- The client once its stream has become `later`. -/
def follow (client : Client) (later : ClientStream) : Client where
  service := { client.service with session := later.session }
  socket := later.socket
  timers := later.timers
  helloRetries := later.helloRetries
  events := later.events

/-- `connect_op::operator()`, called by `async_connect`. -/
def connect (client : Client) : Client := client.follow client.stream.connectOp

/-- The service takes a step. The session calls its close handler in it. -/
def serve (client : Client) (action : ServiceAction) : Client :=
  let later := { client with service := client.service.next action }
  if client.service.session.closeHandlerCalls < later.service.session.closeHandlerCalls then
    later.follow later.stream.closeHandler
  else later

def next (client : Client) : ClientStep → Client
  | .stream action => client.follow (client.stream.next action)
  | .service action => client.serve action

/-- Only `handle_lower_read` starts the session of a client, and hands it what was
received. -/
def possible (client : Client) : ClientStep → Guard
  | .stream _ => .free
  | .service action => .of (client.service.Possible action ∧ action.starts = false ∧
      action.receives = false)

abbrev Possible (client : Client) (step : ClientStep) : Prop := (client.possible step).holds

end Client

namespace Service

end Service

end CurvecprAsio
