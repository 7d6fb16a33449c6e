import CurvecprAsio.Close
import CurvecprAsio.Lib.Transition

set_option autoImplicit false

/- One connection attempt of a client: its Hello timer, its socket and the
connect operation, racing on the session's strand. -/
namespace CurvecprAsio

open Strand Transition

/-- The UDP socket: the receives that are outstanding, and the results of those
whose handlers are queued. -/
structure Socket where
  isOpen : Bool := false
  receiving : Nat := 0
  received : List ErrorCode := []
  deriving DecidableEq, Repr

namespace Socket

/-- A socket that is not open is opened by its `connect`. -/
def connect (socket : Socket) : Socket := { socket with isOpen := true }

def asyncReceive (socket : Socket) : Socket :=
  if socket.isOpen then { socket with receiving := socket.receiving + 1 }
  else { socket with received := socket.received ++ [.badDescriptor] }

/-- Closing aborts the receives that are outstanding; those that have completed
keep their results. -/
def close (socket : Socket) : Socket where
  isOpen := false
  receiving := 0
  received := socket.received ++ List.replicate socket.receiving .operationAborted

/-- A receive completes, with a datagram or an error of the network. -/
def arrive (socket : Socket) (error : ErrorCode) : Socket :=
  if socket.receiving = 0 then socket
  else
    { socket with
      receiving := socket.receiving - 1
      received := socket.received ++ [error] }

def take (socket : Socket) (index : Nat) : Socket :=
  { socket with received := socket.received.eraseIdx index }

end Socket

inductive ClientTimer where
  | helloTimedOut
  | pendingReadyConnect
  deriving DecidableEq, Repr

inductive ClientHandler where
  | helloTimeout
  | connectOp
  deriving DecidableEq, Repr

/-- What a connection attempt does that others can see: a call of
`curvecpr_client_connected`, `hello_retries_` set to -1 with the socket closed, a
call of `session_.start`, and the connect operation's result. -/
inductive ClientEvent where
  | hello
  | gaveUp
  | started
  | reported (ec : ErrorCode) (running isOpen : Bool)
  deriving DecidableEq, Repr

/-- `curvecp::detail::client_stream` with one connect operation; the latest event
comes first. -/
structure ClientStream where
  session : Session
  socket : Socket := {}
  timers : Queue ClientTimer ClientHandler := {}
  helloRetries : Int := 0
  events : List ClientEvent := []
  deriving DecidableEq, Repr

/-- One call of `curvecpr_client_recv`: what it returns, `negotiated` after it,
and what libcurvecpr does to the session in it and, if the session is started,
while it processes the send queue. -/
structure ClientRecv where
  ret : Int
  negotiated : Bool
  received : List Callback := []
  sending : List Callback := []

inductive ClientAction where
  | expireHello
  | arrive (error : ErrorCode)
  | runTimer (index : Nat)
  | runReceive (index : Nat) (recv : ClientRecv)

/-- The errors on which `handle_lower_read` returns. -/
def ErrorCode.closes (error : ErrorCode) : Bool :=
  error = .operationAborted ∨ error = .badDescriptor

namespace ClientStream

def note (stream : ClientStream) (event : ClientEvent) : ClientStream :=
  { stream with events := event :: stream.events }

/-- `client_stream::handle_hello_timeout`. -/
def handleHelloTimeout (stream : ClientStream) (error : ErrorCode) : ClientStream :=
  if error ≠ .success then stream
  else if 5 < stream.helloRetries + 1 then
    { stream with
      helloRetries := -1
      timers := stream.timers.cancel .pendingReadyConnect
      socket := stream.socket.close }.note .gaveUp
  else
    -- Resend hello packet and restart the timer
    { stream with
      helloRetries := stream.helloRetries + 1
      timers := stream.timers.rearm .helloTimedOut .helloTimeout }.note .hello

/-- `client_stream::connect`: what it leaves, and its error code when it is done. -/
def connect (stream : ClientStream) : ClientStream × Option ErrorCode :=
  if stream.session.running then (stream, some .success)
  else if stream.helloRetries < 0 then
    ({ stream with helloRetries := 0 }, some .connectionRefused)
  else
    ({ stream with
      helloRetries := 0
      socket := stream.socket.connect.asyncReceive }.handleHelloTimeout .success, none)

/-- `connect_op::operator()`, begun or woken. -/
def connectOp (stream : ClientStream) : ClientStream :=
  match stream.connect.2 with
  | none =>
      { stream.connect.1 with
        timers := stream.connect.1.timers.asyncWait .pendingReadyConnect .connectOp }
  | some ec =>
      stream.connect.1.note
        (.reported ec stream.connect.1.session.running stream.connect.1.socket.isOpen)

/-- The session's close handler. -/
def closeHandler (stream : ClientStream) : ClientStream :=
  { stream with
    timers := stream.timers.cancel .helloTimedOut
    socket := stream.socket.close }

/-- The session is started from `handle_lower_read`, on its own strand. -/
def startSession (stream : ClientStream) (sending : List Callback) : ClientStream :=
  let started := { stream with session := stream.session.startInside sending }.note .started
  if stream.session.closeHandlerCalls < started.session.closeHandlerCalls then
    started.closeHandler
  else started

/-- `client_stream::handle_lower_read`. -/
def handleLowerRead (stream : ClientStream) (error : ErrorCode) (recv : ClientRecv) :
    ClientStream :=
  if error.closes then stream
  else
    -- Push received datagram into client
    let pushed := { stream with session := stream.session.callbacks recv.received }
    let decided :=
      if recv.ret = 0 ∧ recv.negotiated = true then
        let stopped := { pushed with
          helloRetries := 0
          timers := pushed.timers.cancel .helloTimedOut }
        let started := stopped.startSession recv.sending
        { started with timers := started.timers.cancel .pendingReadyConnect }
      else pushed
    { decided with socket := decided.socket.asyncReceive }

def runTimer (stream : ClientStream) (index : Nat) : ClientStream :=
  let taken := { stream with timers := stream.timers.take index }
  match stream.timers.ready[index]? with
  | some (.helloTimeout, completion) => taken.handleHelloTimeout (errorOf completion)
  | some (.connectOp, _) => taken.connectOp
  | none => stream

def runReceive (stream : ClientStream) (index : Nat) (recv : ClientRecv) : ClientStream :=
  match stream.socket.received[index]? with
  | some error =>
      { stream with socket := stream.socket.take index }.handleLowerRead error recv
  | none => stream

def next (stream : ClientStream) : ClientAction → ClientStream
  | .expireHello => { stream with timers := stream.timers.expire .helloTimedOut }
  | .arrive error => { stream with socket := stream.socket.arrive error }
  | .runTimer index => stream.runTimer index
  | .runReceive index recv => stream.runReceive index recv

/-- The connect operation is begun on a new stream. -/
def begun (session : Session) : ClientStream := connectOp { session := session }

/-- The session while libcurvecpr processes its send queue for the first time. -/
def sent (stream : ClientStream) (recv : ClientRecv) : Session :=
  ({ stream.session.callbacks recv.received with running := true }).callbacks recv.sending

/-- Only closing the socket aborts a receive. libcurvecpr sets `my_final` when
our EOF mark has been acknowledged; without `pending_eof_` there is none. -/
def possible (stream : ClientStream) : ClientAction → Guard
  | .arrive error => .of (error.closes = false)
  | .runReceive _ recv => .of ((stream.sent recv).final = true →
      (stream.sent recv).pendingEof = true)
  | _ => .free

abbrev Possible (stream : ClientStream) (action : ClientAction) : Prop :=
  (stream.possible action).holds

/-- A Hello timer that expired before the session was started is not handled
after that, and a datagram that finds the client negotiated is not handled once
the socket is closed. -/
def inTime (stream : ClientStream) : ClientAction → Guard
  | .runTimer index => .of (stream.timers.ready[index]? = some (.helloTimeout, .success) →
      stream.session.running = false)
  | .runReceive index recv => .of (∀ error ∈ stream.socket.received[index]?,
      error.closes = false → recv.ret = 0 → recv.negotiated = true → stream.socket.isOpen = true)
  | _ => .free

abbrev InTime (stream : ClientStream) (action : ClientAction) : Prop :=
  (stream.inTime action).holds

def PossibleInTime (stream : ClientStream) (action : ClientAction) : Prop :=
  stream.Possible action ∧ stream.InTime action

instance (stream : ClientStream) (action : ClientAction) :
    Decidable (stream.PossibleInTime action) :=
  inferInstanceAs (Decidable (stream.Possible action ∧ stream.InTime action))

/-- What may be said after what has happened: no Hello and no giving up after the
start, no start after giving up, and a report that tells what was decided. -/
def Permitted (earlier : List ClientEvent) : ClientEvent → Prop
  | .hello => .started ∉ earlier
  | .gaveUp => .started ∉ earlier
  | .started => .gaveUp ∉ earlier
  | .reported ec running isOpen => (.gaveUp ∈ earlier → ec = .connectionRefused) ∧
      (ec = .success → running = true ∧ isOpen = true)

/-- Every event was permitted when it happened. -/
def OneStory : List ClientEvent → Prop
  | [] => True
  | event :: earlier => Permitted earlier event ∧ OneStory earlier

def Decided (stream : ClientStream) : Prop :=
  .started ∈ stream.events ∨ .gaveUp ∈ stream.events

/-- The attempt has one outcome, and once it is decided the connect operation has
reported it or is due to. -/
structure OneOutcome (stream : ClientStream) : Prop where
  story : OneStory stream.events
  reports : stream.Decided →
    (∃ ec running isOpen, ClientEvent.reported ec running isOpen ∈ stream.events) ∨
      ∃ completion, (ClientHandler.connectOp, completion) ∈ stream.timers.ready

/-- The Hello handlers that will run without an error: waiting, or due. -/
def helloCount (stream : ClientStream) : Nat :=
  stream.timers.waiting.count (.helloTimedOut, .helloTimeout) +
    stream.timers.ready.count (.helloTimeout, .success)

end ClientStream

/-- What holds of an attempt as long as its handlers run in time. -/
structure ClientInv (stream : ClientStream) : Prop where
  pendingEof : stream.session.pendingEof = false
  running : stream.session.running = true ↔ .started ∈ stream.events
  isOpen : stream.socket.isOpen = true ↔ .gaveUp ∉ stream.events
  story : ClientStream.OneStory stream.events
  apart : .started ∈ stream.events → .gaveUp ∉ stream.events
  hello : stream.helloCount ≤ 1
  spent : .gaveUp ∈ stream.events → stream.helloCount = 0
  timer : (ClientTimer.helloTimedOut, ClientHandler.connectOp) ∉ stream.timers.waiting
  once : stream.timers.handlers.count .connectOp ≤ 1
  held : (∃ ec running isOpen, ClientEvent.reported ec running isOpen ∈ stream.events) ∨
    .connectOp ∈ stream.timers.handlers
  woken : ∀ completion, (ClientHandler.connectOp, completion) ∈ stream.timers.ready →
    stream.Decided
  awake : stream.Decided → ∀ timer, (timer, ClientHandler.connectOp) ∉ stream.timers.waiting
  refused : .gaveUp ∈ stream.events → .connectOp ∈ stream.timers.handlers →
    stream.helloRetries = -1

namespace ClientInv

variable {stream : ClientStream}

theorem outcome (inv : ClientInv stream) : stream.OneOutcome where
  story := inv.story
  reports := by
    intro decided
    rcases inv.held with reported | held
    · exact Or.inl reported
    · rcases (Queue.mem_handlers _ _).mp held with ⟨timer, waits⟩ | due
      · exact absurd waits (inv.awake decided timer)
      · exact Or.inr due

theorem initial {session : Session} (fresh : session.Fresh) :
    ClientInv (ClientStream.begun session) := by
  have begins : ClientStream.begun session = {
      session := session
      socket := { isOpen := true, receiving := 1 }
      timers := { waiting := [(.helloTimedOut, .helloTimeout), (.pendingReadyConnect, .connectOp)] }
      helloRetries := 1
      events := [.hello] } := by
    simp [ClientStream.begun, ClientStream.connectOp, ClientStream.connect, fresh.running,
      ClientStream.handleHelloTimeout, Socket.connect, Socket.asyncReceive, ClientStream.note,
      Queue.rearm, Queue.cancel, Queue.finish, Queue.asyncWait]
  rw [begins]
  constructor
  · exact fresh.pendingEof
  · simp [fresh.running]
  · simp
  · exact ⟨by simp [ClientStream.Permitted], trivial⟩
  · simp
  · exact Nat.le_refl 1
  · simp
  · simp
  · exact Nat.le_refl 1
  · exact Or.inr (by simp [Queue.handlers])
  · intro completion due
    cases due
  · rintro (started | gaveUp)
    · simp at started
    · simp at gaveUp
  · intro gaveUp
    simp at gaveUp

theorem expireHello (inv : ClientInv stream) : ClientInv (stream.next .expireHello) := by
  have perm := Queue.handlers_finish stream.timers .helloTimedOut .success
  have count : (stream.next .expireHello).helloCount = stream.helloCount := by
    simp only [ClientStream.next, ClientStream.helloCount, Queue.expire,
      Queue.count_waiting_finish, Queue.count_ready_finish, ↓reduceIte]
    omega
  constructor
  · exact inv.pendingEof
  · exact inv.running
  · exact inv.isOpen
  · exact inv.story
  · exact inv.apart
  · rw [count]
    exact inv.hello
  · rw [count]
    exact inv.spent
  · intro member
    exact inv.timer ((Queue.mem_waiting_finish _ _ _ _).mp member).1
  · exact (perm.count_eq .connectOp).trans_le inv.once
  · exact inv.held.imp id perm.mem_iff.mpr
  · intro completion due
    rcases (Queue.mem_ready_finish _ _ _ _).mp due with old | ⟨_, waited⟩
    · exact inv.woken completion old
    · exact absurd waited inv.timer
  · intro decided timer member
    exact inv.awake decided timer ((Queue.mem_waiting_finish _ _ _ _).mp member).1
  · intro gaveUp member
    exact inv.refused gaveUp (perm.mem_iff.mp member)

/-- Steps that leave alone all but the socket's receives and the session's data. -/
theorem same (inv : ClientInv stream) {later : ClientStream}
    (pendingEof : later.session.pendingEof = stream.session.pendingEof)
    (running : later.session.running = stream.session.running)
    (isOpen : later.socket.isOpen = stream.socket.isOpen)
    (timers : later.timers = stream.timers) (helloRetries : later.helloRetries = stream.helloRetries)
    (events : later.events = stream.events) : ClientInv later := by
  obtain ⟨session, socket, _, _, _⟩ := later
  dsimp only at timers helloRetries events
  subst timers helloRetries events
  exact ⟨pendingEof.trans inv.pendingEof, by rw [running]; exact inv.running,
    by rw [isOpen]; exact inv.isOpen, inv.story, inv.apart, inv.hello, inv.spent, inv.timer,
    inv.once, inv.held, inv.woken, inv.awake, inv.refused⟩

theorem take (inv : ClientInv stream) {index : Nat} {due : ClientHandler × Completion}
    (located : stream.timers.ready[index]? = some due) (other : due.1 ≠ .connectOp) :
    ClientInv { stream with timers := stream.timers.take index } := by
  have perm := stream.timers.handlers_take located
  have counts := stream.timers.count_ready_take located
  have held : ∀ handler, handler = ClientHandler.connectOp →
      (handler ∈ stream.timers.handlers ↔ handler ∈ (stream.timers.take index).handlers) := by
    intro handler isConnect
    rw [perm.mem_iff, List.mem_cons]
    constructor
    · rintro (same | member)
      · exact absurd (same.symm.trans isConnect) other
      · exact member
    · exact Or.inr
  have less : ({ stream with timers := stream.timers.take index } : ClientStream).helloCount ≤
      stream.helloCount := by
    have hello := counts (.helloTimeout, .success)
    simp only [ClientStream.helloCount, Queue.waiting_take]
    omega
  constructor
  · exact inv.pendingEof
  · exact inv.running
  · exact inv.isOpen
  · exact inv.story
  · exact inv.apart
  · exact Nat.le_trans less inv.hello
  · intro gaveUp
    have none_ := inv.spent gaveUp
    omega
  · exact inv.timer
  · have total := perm.count_eq ClientHandler.connectOp
    rw [List.count_cons] at total
    have once := inv.once
    dsimp only
    omega
  · exact inv.held.imp id (held _ rfl).mp
  · exact fun completion member => inv.woken completion (Queue.mem_of_mem_take member)
  · exact inv.awake
  · exact fun gaveUp member => inv.refused gaveUp ((held _ rfl).mpr member)

/-- The connect operation has still reported or is held after another event. -/
theorem held_note (inv : ClientInv stream) (event : ClientEvent)
    {timers : Queue ClientTimer ClientHandler}
    (kept : .connectOp ∈ stream.timers.handlers → .connectOp ∈ timers.handlers) :
    (∃ ec running isOpen, ClientEvent.reported ec running isOpen ∈ event :: stream.events) ∨
      .connectOp ∈ timers.handlers := by
  rcases inv.held with ⟨ec, running, isOpen, member⟩ | held
  · exact Or.inl ⟨ec, running, isOpen, List.mem_cons_of_mem _ member⟩
  · exact Or.inr (kept held)

/-- The attempt is given up: no Hello timer is left, and the connect operation is
woken. -/
theorem giveUp (inv : ClientInv stream) (idle : stream.helloCount = 0)
    (open_ : .started ∉ stream.events) :
    ClientInv ({ stream with
      helloRetries := -1
      timers := stream.timers.cancel .pendingReadyConnect
      socket := stream.socket.close }.note .gaveUp) := by
  have perm := Queue.handlers_finish stream.timers .pendingReadyConnect .aborted
  have count : ({ stream with
      helloRetries := -1
      timers := stream.timers.cancel .pendingReadyConnect
      socket := stream.socket.close }.note .gaveUp).helloCount = 0 := by
    simp only [ClientStream.helloCount, ClientStream.note, Queue.cancel,
      Queue.count_waiting_finish, Queue.count_ready_finish]
    simpa [ClientStream.helloCount] using idle
  constructor
  · exact inv.pendingEof
  · simpa [ClientStream.note] using inv.running
  · simp [ClientStream.note, Socket.close]
  · exact ⟨open_, inv.story⟩
  · intro started
    exact absurd (by simpa [ClientStream.note] using started) open_
  · omega
  · exact fun _ => count
  · intro member
    exact inv.timer ((Queue.mem_waiting_finish _ _ _ _).mp member).1
  · exact (perm.count_eq .connectOp).trans_le inv.once
  · exact inv.held_note .gaveUp perm.mem_iff.mpr
  · intro completion _
    exact Or.inr List.mem_cons_self
  · intro _ timer member
    obtain ⟨waits, apart⟩ := (Queue.mem_waiting_finish _ _ _ _).mp member
    cases timer with
    | helloTimedOut => exact inv.timer waits
    | pendingReadyConnect => exact apart rfl
  · exact fun _ _ => rfl

theorem resend (inv : ClientInv stream) (idle : stream.helloCount = 0)
    (open_ : .started ∉ stream.events) (going : .gaveUp ∉ stream.events) (retries : Int) :
    ClientInv ({ stream with
      helloRetries := retries
      timers := stream.timers.rearm .helloTimedOut .helloTimeout }.note .hello) := by
  have perm := Queue.handlers_rearm stream.timers .helloTimedOut .helloTimeout
  have connects : ∀ wait : ClientTimer, (wait, ClientHandler.connectOp) ∈
      (stream.timers.rearm .helloTimedOut .helloTimeout).waiting →
        (wait, ClientHandler.connectOp) ∈ stream.timers.waiting := by
    intro wait member
    rcases (Queue.mem_waiting_asyncWait _ _ _ _).mp member with old | new
    · exact ((Queue.mem_waiting_finish _ _ _ _).mp old).1
    · cases new
  constructor
  · exact inv.pendingEof
  · simpa [ClientStream.note] using inv.running
  · simpa [ClientStream.note] using inv.isOpen
  · exact ⟨open_, inv.story⟩
  · intro started
    exact absurd (by simpa [ClientStream.note] using started) open_
  · simp only [ClientStream.helloCount] at idle
    simp only [ClientStream.helloCount, ClientStream.note, Queue.rearm, Queue.cancel,
      Queue.count_waiting_asyncWait, Queue.ready_asyncWait, Queue.count_waiting_finish,
      Queue.count_ready_finish, ↓reduceIte, reduceCtorEq]
    omega
  · intro gaveUp
    exact absurd (by simpa [ClientStream.note] using gaveUp) going
  · exact fun member => inv.timer (connects _ member)
  · have total := perm.count_eq ClientHandler.connectOp
    rw [List.count_cons] at total
    have once := inv.once
    simp only [ClientStream.note]
    simpa using total.trans_le (by simpa using once)
  · exact inv.held_note .hello fun held => perm.mem_iff.mpr (List.mem_cons_of_mem _ held)
  · intro completion due
    rcases (Queue.mem_ready_finish _ _ _ _).mp due with old | ⟨_, waited⟩
    · rcases inv.woken completion old with started | gaveUp
      · exact absurd started open_
      · exact absurd gaveUp going
    · exact absurd waited inv.timer
  · rintro (started | gaveUp)
    · exact absurd (by simpa [ClientStream.note] using started) open_
    · exact absurd (by simpa [ClientStream.note] using gaveUp) going
  · intro gaveUp
    exact absurd (by simpa [ClientStream.note] using gaveUp) going

theorem helloTimeout (inv : ClientInv stream) {index : Nat}
    (located : stream.timers.ready[index]? = some (.helloTimeout, .success))
    (inTime : stream.session.running = false) :
    ClientInv ({ stream with timers := stream.timers.take index }.handleHelloTimeout .success) := by
  have taken := inv.take located (by simp)
  have open_ : .started ∉ stream.events := by
    intro started
    exact Bool.noConfusion (inTime.symm.trans (inv.running.mpr started))
  have counts := stream.timers.count_ready_take located (.helloTimeout, .success)
  rw [if_pos rfl] at counts
  have hello := inv.hello
  have spent := inv.spent
  unfold ClientStream.helloCount at hello spent
  have idle : ({ stream with timers := stream.timers.take index } : ClientStream).helloCount =
      0 := by
    simp only [ClientStream.helloCount, Queue.waiting_take]
    omega
  have going : .gaveUp ∉ stream.events := by
    intro gaveUp
    have none_ := spent gaveUp
    omega
  simp only [ClientStream.handleHelloTimeout, ne_eq, not_true_eq_false, ↓reduceIte]
  split
  · exact taken.giveUp idle open_
  · exact taken.resend idle open_ going _

/-- The connect operation is only woken once the attempt is decided, and reports. -/
theorem connectOp (inv : ClientInv stream) {index : Nat} {completion : Completion}
    (located : stream.timers.ready[index]? = some (.connectOp, completion)) :
    ClientInv ({ stream with timers := stream.timers.take index }.connectOp) := by
  have perm := stream.timers.handlers_take located
  have gone : .connectOp ∉ (stream.timers.take index).handlers := by
    have total := perm.count_eq ClientHandler.connectOp
    rw [List.count_cons_self] at total
    have once := inv.once
    exact List.count_eq_zero.mp (by omega)
  have due := (Queue.mem_handlers _ _).mpr (Or.inr ⟨completion, List.mem_of_getElem? located⟩)
  have less : ({ stream with timers := stream.timers.take index } : ClientStream).helloCount =
      stream.helloCount := by
    have counts := stream.timers.count_ready_take located (.helloTimeout, .success)
    simp only [ClientStream.helloCount, Queue.waiting_take]
    simpa using counts.symm
  have after : ∀ (retries : Int) (ec : ErrorCode), ClientStream.Permitted stream.events
      (.reported ec stream.session.running stream.socket.isOpen) →
      ClientInv ({ stream with
        timers := stream.timers.take index
        helloRetries := retries }.note
          (.reported ec stream.session.running stream.socket.isOpen)) := by
    intro retries ec permitted
    constructor
    · exact inv.pendingEof
    · simpa [ClientStream.note] using inv.running
    · simpa [ClientStream.note] using inv.isOpen
    · exact ⟨permitted, inv.story⟩
    · simpa [ClientStream.note] using inv.apart
    · exact less.trans_le inv.hello
    · intro gaveUp
      exact less.trans (inv.spent (by simpa [ClientStream.note] using gaveUp))
    · exact inv.timer
    · exact (List.count_eq_zero.mpr gone).trans_le (Nat.zero_le 1)
    · exact Or.inl ⟨_, _, _, List.mem_cons_self⟩
    · intro told member
      exact absurd ((Queue.mem_handlers _ _).mpr (Or.inr ⟨told, member⟩)) gone
    · intro _ timer member
      exact absurd ((Queue.mem_handlers _ _).mpr (Or.inl ⟨timer, member⟩)) gone
    · exact fun _ member => absurd member gone
  by_cases running : stream.session.running = true
  · have started := inv.running.mp running
    have isOpen := inv.isOpen.mpr (inv.apart started)
    simp only [ClientStream.connectOp, ClientStream.connect, running, ↓reduceIte]
    rw [← running]
    apply after
    exact ⟨fun gaveUp => absurd gaveUp (inv.apart started), fun _ => ⟨running, isOpen⟩⟩
  · have gaveUp : .gaveUp ∈ stream.events := by
      rcases inv.woken completion (List.mem_of_getElem? located) with started | gaveUp
      · exact absurd (inv.running.mpr started) running
      · exact gaveUp
    have refused := inv.refused gaveUp due
    simp only [ClientStream.connectOp, ClientStream.connect, running, refused,
      Bool.false_eq_true, ↓reduceIte]
    apply after
    exact ⟨fun _ => rfl, fun success => by cases success⟩

/-- A datagram has found the client negotiated while the socket was open. -/
theorem started (inv : ClientInv stream) (isOpen : stream.socket.isOpen = true)
    (session : Session) (running : session.running = true)
    (pendingEof : session.pendingEof = false) :
    ClientInv ({ stream with
      session := session
      helloRetries := 0
      timers := (stream.timers.cancel .helloTimedOut).cancel .pendingReadyConnect
      events := .started :: stream.events }) := by
  have first := Queue.handlers_finish stream.timers .helloTimedOut .aborted
  have perm := (Queue.handlers_finish (stream.timers.cancel .helloTimedOut)
    .pendingReadyConnect .aborted).trans first
  have going := inv.isOpen.mp isOpen
  have waits : ∀ wait, wait ∈ ((stream.timers.cancel .helloTimedOut).cancel
      .pendingReadyConnect).waiting → wait ∈ stream.timers.waiting ∧
        wait.1 ≠ .pendingReadyConnect := by
    intro wait member
    obtain ⟨old, apart⟩ := (Queue.mem_waiting_finish _ _ _ _).mp member
    exact ⟨((Queue.mem_waiting_finish _ _ _ _).mp old).1, apart⟩
  constructor
  · exact pendingEof
  · simp [running]
  · simpa using inv.isOpen
  · exact ⟨going, inv.story⟩
  · simpa using going
  · have hello := inv.hello
    simp only [ClientStream.helloCount] at hello
    simp only [ClientStream.helloCount, Queue.cancel, Queue.count_waiting_finish,
      Queue.count_ready_finish, ↓reduceIte, reduceCtorEq]
    omega
  · intro gaveUp
    exact absurd (by simpa using gaveUp) going
  · exact fun member => inv.timer (waits _ member).1
  · exact (perm.count_eq .connectOp).trans_le inv.once
  · exact inv.held_note .started perm.mem_iff.mpr
  · intro completion _
    exact Or.inl List.mem_cons_self
  · intro _ timer member
    obtain ⟨old, apart⟩ := waits _ member
    cases timer with
    | helloTimedOut => exact inv.timer old
    | pendingReadyConnect => exact apart rfl
  · intro gaveUp
    exact absurd (by simpa using gaveUp) going

theorem lowerRead (inv : ClientInv stream) (error : ErrorCode) (recv : ClientRecv)
    (possible : (stream.sent recv).final = true → (stream.sent recv).pendingEof = true)
    (inTime : error.closes = false → recv.ret = 0 → recv.negotiated = true →
      stream.socket.isOpen = true) :
    ClientInv (stream.handleLowerRead error recv) := by
  have spared := stream.session.spared_callbacks recv.received
  have pushed : (stream.session.callbacks recv.received).pendingEof = false :=
    spared.pendingEof.trans inv.pendingEof
  have after := Session.spared_callbacks
    { stream.session.callbacks recv.received with running := true } recv.sending
  have open_ : ∀ socket : Socket, socket.asyncReceive.isOpen = socket.isOpen := by
    intro socket
    simp only [Socket.asyncReceive]
    split <;> rfl
  unfold ClientStream.handleLowerRead
  split
  · exact inv
  · rename_i arrives
    split
    · rename_i negotiated
      have isOpen := inTime (by simpa using arrives) negotiated.1 negotiated.2
      have pendingEof : (stream.sent recv).pendingEof = false := after.pendingEof.trans pushed
      have unfinished : (stream.sent recv).final = false := by
        cases final : (stream.sent recv).final with
        | false => rfl
        | true => exact absurd (possible final) (by simp [pendingEof])
      have result : (stream.session.callbacks recv.received).startInside recv.sending =
          (stream.sent recv).rescheduleProcessSendQueue := by
        rcases Session.handleProcessSendQueue_cases
          { stream.session.callbacks recv.received with running := true } recv.sending with
          ⟨final, _⟩ | ⟨_, result⟩
        · exact Bool.noConfusion (unfinished.symm.trans final)
        · exact result
      have silent : ¬ (stream.session.callbacks recv.received).closeHandlerCalls <
          (stream.sent recv).rescheduleProcessSendQueue.closeHandlerCalls := by
        have calls := after.closeHandlerCalls
        simp only [ClientStream.sent, Session.rescheduleProcessSendQueue]
        dsimp only at calls
        omega
      have starts := inv.started isOpen (stream.sent recv).rescheduleProcessSendQueue
        after.running pendingEof
      apply starts.same
      · simp [ClientStream.startSession, result, ClientStream.note, silent]
      · simp [ClientStream.startSession, result, ClientStream.note, silent]
      · simp [ClientStream.startSession, result, ClientStream.note, silent, open_]
      · simp [ClientStream.startSession, result, ClientStream.note, silent]
      · simp [ClientStream.startSession, result, ClientStream.note, silent]
      · simp [ClientStream.startSession, result, ClientStream.note, silent]
    · exact inv.same spared.pendingEof spared.running (open_ _) rfl rfl rfl

theorem next (inv : ClientInv stream) (action : ClientAction)
    (met : stream.PossibleInTime action) : ClientInv (stream.next action) := by
  obtain ⟨possible, inTime⟩ := met
  cases action with
  | expireHello => exact inv.expireHello
  | arrive error =>
      have isOpen : (stream.next (.arrive error)).socket.isOpen = stream.socket.isOpen := by
        simp only [ClientStream.next, Socket.arrive]
        split <;> rfl
      exact inv.same rfl rfl isOpen rfl rfl rfl
  | runTimer index =>
      simp only [ClientStream.next, ClientStream.runTimer]
      split
      · rename_i completion located
        cases completion with
        | aborted => exact inv.take located (by simp)
        | success => exact inv.helloTimeout located (inTime located)
      · rename_i completion located
        exact inv.connectOp located
      · exact inv
  | runReceive index recv =>
      simp only [ClientStream.next, ClientStream.runReceive]
      split
      · rename_i error located
        have taken : ClientInv { stream with socket := stream.socket.take index } :=
          inv.same rfl rfl rfl rfl rfl rfl
        exact taken.lowerRead error recv possible (inTime error located)
      · exact inv

end ClientInv

namespace ClientStream

end ClientStream

end CurvecprAsio
