import CurvecprAsio.Acceptor

set_option autoImplicit false

/- The acceptor's socket: one receive buffer and one sender endpoint for all datagrams,
and the packets sent for its sessions. -/
namespace CurvecprAsio

open Strand Transition

universe u v

structure Datagram (ε : Type v) where
  endpoint : ε
  bytes : List UInt8
  deriving DecidableEq, Repr

/-- The arguments of `handle_lower_read`. -/
structure Receipt where
  error : ErrorCode
  bytes : Nat
  deriving DecidableEq, Repr

/-- What `handle_send` hands to the socket and the session it was called for, if any.
`during` and `heard` are records: how many datagrams had been handled, and how often a
session had been heard, before it was sent. -/
structure Packet (ε : Type v) where
  session : Option Nat
  endpoint : ε
  bytes : List UInt8
  during : Nat
  heard : Nat
  deriving DecidableEq, Repr

/-- `endpoint_` of a session, and the messages that `lower_receive` has copied for the
session's strand. -/
structure Contact (ε : Type v) where
  endpoint : ε
  inbox : List (List UInt8) := []
  deriving DecidableEq, Repr

/-- libcurvecpr gives the datagram with this number to a session: by putting it, or as the
session that `curvecpr_server_recv` returns. -/
structure Hearing where
  session : Nat
  number : Nat
  put : Bool
  deriving DecidableEq, Repr

/-- An acceptor with its socket; `contacts` are in the order of `acceptor.peers`.
`receiving` counts the receives that are outstanding, `received` are those whose handlers
are queued on the acceptor's strand, and `reading` is the handler that runs. `arrived`,
`handled`, `heard` and `sent` are records: of the datagrams that completed a receive, of
those handled as the handler found them, of what libcurvecpr gave to the sessions, and of
the packets sent. -/
structure Network (κ : Type u) (ε : Type v) where
  acceptor : Acceptor κ := {}
  contacts : List (Contact ε) := []
  lowerRecvBuffer : List UInt8 := List.replicate 65535 0
  lowerRecvEndpoint : ε
  receiving : Nat := 0
  received : List Receipt := []
  reading : Option Receipt := none
  arrived : List (Datagram ε) := []
  handled : List (Datagram ε) := []
  heard : List Hearing := []
  sent : List (Packet ε) := []

/-- `handle_lower_read` is `enter`, the handlers that `curvecpr_server_recv` calls, and
`leave` with the session it has found. It holds the mutex meanwhile, which excludes some
of the steps of other threads that are allowed between them here. -/
inductive NetworkAction (κ : Type u) (ε : Type v) where
  | listen
  | arrive (datagram : Datagram ε)
  | fail (error : ErrorCode)
  | enter (index : Nat)
  | hello (buf : List UInt8)
  | putSession (key : κ)
  | recv (id : Nat) (buf : List UInt8)
  | leave (found : Option Nat)
  | upperSend (id : Nat) (buf : List UInt8)
  | message (id : Nat) (activity : List Callback)
  | accept
  | session (id : Nat) (action : ServiceAction)

namespace Network

variable {κ : Type u} {ε : Type v} {network : Network κ ε}

/-- `acceptor::listen`; `handle_lower_read` ends with the same receive. -/
def listen (network : Network κ ε) : Network κ ε :=
  { network with receiving := network.receiving + 1 }

/-- A receive completes with a datagram. -/
def arrive (network : Network κ ε) (datagram : Datagram ε) : Network κ ε :=
  { network with
    receiving := network.receiving - 1
    received := network.received ++ [{ error := .success, bytes := datagram.bytes.length }]
    lowerRecvBuffer :=
      datagram.bytes ++ network.lowerRecvBuffer.drop datagram.bytes.length
    lowerRecvEndpoint := datagram.endpoint
    arrived := network.arrived ++ [datagram] }

/-- A receive completes with an error of the network. -/
def fail (network : Network κ ε) (error : ErrorCode) : Network κ ε :=
  { network with
    receiving := network.receiving - 1
    received := network.received ++ [{ error := error, bytes := 0 }] }

/-- The strand runs `handle_lower_read`, up to its call of `curvecpr_server_recv`. -/
def enter (network : Network κ ε) (index : Nat) : Network κ ε :=
  match network.received[index]? with
  | some receipt =>
      { network with
        received := network.received.eraseIdx index
        reading := some receipt }
  | none => network

/-- `acceptor::handle_send`; without a session `s->priv` is null. -/
def handleSend (network : Network κ ε) (session : Option Nat) (buf : List UInt8) :
    Network κ ε :=
  let endpoint :=
    match session with
    -- We are being called while receiving a Hello packet from client
    | none => some network.lowerRecvEndpoint
    -- Use last known endpoint of a session
    | some id => network.contacts[id]?.map Contact.endpoint
  match endpoint with
  | none => network
  | some endpoint =>
      { network with sent := network.sent ++ [{
          session := session
          endpoint := endpoint
          bytes := buf
          during := network.handled.length
          heard := network.heard.length }] }

/-- `acceptor::handle_recv`: off the session's strand `session::lower_receive` copies the
message and dispatches it. -/
def handleRecv (network : Network κ ε) (id : Nat) (buf : List UInt8) : Network κ ε :=
  { network with contacts := network.contacts.modify id fun contact =>
      { contact with inbox := contact.inbox ++ [buf] } }

/-- What the running handler finds in the buffer. -/
def seen (network : Network κ ε) (receipt : Receipt) : Datagram ε where
  endpoint := network.lowerRecvEndpoint
  bytes := network.lowerRecvBuffer.take receipt.bytes

/-- Update client endpoint. -/
def setEndpoint (network : Network κ ε) (id : Nat) : Network κ ε :=
  { network with
    contacts := network.contacts.modify id fun contact =>
      { contact with endpoint := network.lowerRecvEndpoint } }

/-- `handle_lower_read` once `curvecpr_server_recv` has returned. -/
def leave (network : Network κ ε) (found : Option Nat) : Network κ ε :=
  match network.reading with
  | none => network
  | some receipt =>
      let updated := match found with
        | some id => network.setEndpoint id
        | none => network
      { updated with
        reading := none
        handled :=
          if receipt.error = ErrorCode.success then network.handled ++ [network.seen receipt]
          else network.handled }.listen

/-- `curvecpr_server_recv` is being called with a datagram that has bytes; it does nothing
with an empty one. -/
def Decoding (network : Network κ ε) : Prop := ∃ receipt ∈ network.reading, receipt.bytes ≠ 0

instance (network : Network κ ε) : Decidable network.Decoding :=
  inferInstanceAs (Decidable (∃ receipt ∈ network.reading, receipt.bytes ≠ 0))

/-- The receives that are outstanding, those that have completed and the one being
handled. -/
def outstanding (network : Network κ ε) : Nat :=
  network.receiving + network.received.length + network.reading.toList.length

/-- The receives that have completed and are not handled yet, the running one first. -/
def unread (network : Network κ ε) : List Receipt := network.reading.toList ++ network.received

/-- What the handlers that have not ended find in the buffer. -/
def inFlight (network : Network κ ε) : List (Datagram ε) :=
  (network.unread.filter fun receipt => receipt.error = .success).map network.seen

/-- The datagrams that have arrived are those handled and the one in flight, as its
handler finds it; a failed receive has no bytes. -/
structure ReceiveInv (network : Network κ ε) : Prop where
  arrived : network.arrived = network.handled ++ network.inFlight
  failed : ∀ receipt ∈ network.unread, receipt.error ≠ .success → receipt.bytes = 0

/-- `later` differs from `network` at most in the sessions, their contacts and what has
been sent. -/
structure Undisturbed (network later : Network κ ε) : Prop where
  lowerRecvBuffer : later.lowerRecvBuffer = network.lowerRecvBuffer
  lowerRecvEndpoint : later.lowerRecvEndpoint = network.lowerRecvEndpoint
  receiving : later.receiving = network.receiving
  received : later.received = network.received
  reading : later.reading = network.reading
  arrived : later.arrived = network.arrived
  handled : later.handled = network.handled

theorem Undisturbed.receiveInv {later : Network κ ε} (same : network.Undisturbed later)
    (inv : network.ReceiveInv) : later.ReceiveInv := by
  have unread : later.unread = network.unread := by
    rw [Network.unread, same.reading, same.received, Network.unread]
  constructor
  · rw [same.arrived, same.handled, inv.arrived]
    unfold inFlight seen
    rw [unread, same.lowerRecvBuffer, same.lowerRecvEndpoint]
  · rw [unread]
    exact inv.failed

theorem Undisturbed.outstanding {later : Network κ ε} (same : network.Undisturbed later) :
    later.outstanding = network.outstanding := by
  rw [Network.outstanding, same.receiving, same.received, same.reading, Network.outstanding]

theorem undisturbed_handleSend (network : Network κ ε) (session : Option Nat)
    (buf : List UInt8) : network.Undisturbed (network.handleSend session buf) := by
  simp only [handleSend]
  split <;> exact ⟨rfl, rfl, rfl, rfl, rfl, rfl, rfl⟩

theorem heard_handleSend (network : Network κ ε) (session : Option Nat) (buf : List UInt8) :
    (network.handleSend session buf).heard = network.heard := by
  simp only [handleSend]
  split <;> rfl

theorem unread_nil_of_receiving (single : network.outstanding ≤ 1)
    (receiving : network.receiving ≠ 0) : network.unread = [] := by
  apply List.length_eq_zero_iff.mp
  simp only [outstanding] at single
  simp only [unread, List.length_append]
  omega

/-- The datagram that completes the only receive is what its handler finds. -/
theorem ReceiveInv.arrive (inv : network.ReceiveInv) (single : network.outstanding ≤ 1)
    (receiving : network.receiving ≠ 0) (datagram : Datagram ε) :
    (network.arrive datagram).ReceiveInv := by
  have none_ := unread_nil_of_receiving single receiving
  have arrived := inv.arrived
  rw [inFlight, none_, List.filter_nil, List.map_nil, List.append_nil] at arrived
  obtain ⟨noReading, noReceived⟩ := List.append_eq_nil_iff.mp none_
  have unread : (network.arrive datagram).unread =
      [{ error := .success, bytes := datagram.bytes.length }] := by
    simp [Network.unread, Network.arrive, noReading, noReceived]
  constructor
  · rw [inFlight, unread]
    simp [Network.arrive, seen, arrived]
  · rw [unread]
    intro receipt member failed
    rw [List.mem_singleton.mp member] at failed
    exact absurd rfl failed

theorem ReceiveInv.fail (inv : network.ReceiveInv) {error : ErrorCode}
    (failed : error ≠ .success) : (network.fail error).ReceiveInv := by
  have unread : (network.fail error).unread =
      network.unread ++ [{ error := error, bytes := 0 }] := by
    simp [Network.unread, Network.fail]
  constructor
  · rw [inFlight, unread, List.filter_append, List.map_append]
    simp only [failed, decide_false, Bool.false_eq_true, not_false_eq_true,
      List.filter_cons_of_neg, List.filter_nil, List.map_nil, List.append_nil]
    exact inv.arrived
  · rw [unread]
    intro receipt member other
    rcases List.mem_append.mp member with old | new
    · exact inv.failed receipt old other
    · rw [List.mem_singleton.mp new]

theorem unread_enter (single : network.outstanding ≤ 1) (free : network.reading = none)
    (index : Nat) : (network.enter index).unread = network.unread := by
  unfold enter
  split
  · rename_i receipt located
    obtain ⟨inside, atIndex⟩ := List.getElem?_eq_some_iff.mp located
    simp only [outstanding] at single
    obtain ⟨only, sole⟩ : ∃ only, network.received = [only] :=
      List.length_eq_one_iff.mp (by omega)
    have first : index = 0 := by
      rw [sole, List.length_singleton] at inside
      omega
    subst first
    simp only [sole, List.getElem_cons_zero] at atIndex
    simp [unread, free, sole, atIndex]
  · rfl

theorem ReceiveInv.enter (inv : network.ReceiveInv) (single : network.outstanding ≤ 1)
    (free : network.reading = none) (index : Nat) : (network.enter index).ReceiveInv := by
  have unread := unread_enter single free index
  have same : (network.enter index).seen = network.seen ∧
      (network.enter index).arrived = network.arrived ∧
      (network.enter index).handled = network.handled := by
    unfold Network.enter
    split <;> exact ⟨rfl, rfl, rfl⟩
  constructor
  · rw [same.2.1, same.2.2, inFlight, unread, same.1]
    exact inv.arrived
  · rw [unread]
    exact inv.failed

theorem ReceiveInv.leave (inv : network.ReceiveInv) (single : network.outstanding ≤ 1)
    (found : Option Nat) : (network.leave found).ReceiveInv := by
  unfold Network.leave
  split
  · exact inv
  · rename_i receipt reading
    have noReceived : network.received = [] := by
      simp only [outstanding, reading, Option.toList_some, List.length_singleton] at single
      exact List.length_eq_zero_iff.mp (by omega)
    have arrived := inv.arrived
    simp only [inFlight, Network.unread, reading, noReceived, Option.toList_some,
      List.append_nil] at arrived
    have kept : ∀ updated : Network κ ε, network.Undisturbed updated → ReceiveInv
        { updated with
          reading := none
          handled := if receipt.error = ErrorCode.success then
              network.handled ++ [network.seen receipt] else network.handled }.listen := by
      intro updated same
      have unread : ({ updated with
          reading := none
          handled := if receipt.error = ErrorCode.success then
              network.handled ++ [network.seen receipt]
            else network.handled } : Network κ ε).listen.unread = [] := by
        simp [Network.unread, listen, same.received, noReceived]
      constructor
      · rw [inFlight, unread]
        simp only [listen, same.arrived, arrived, List.filter_nil, List.map_nil,
          List.append_nil]
        split
        · rename_i success
          simp [success]
        · rename_i failed
          simp [failed]
      · rw [unread]
        intro other member
        cases member
    cases found with
    | none => exact kept network ⟨rfl, rfl, rfl, rfl, rfl, rfl, rfl⟩
    | some id => exact kept (network.setEndpoint id) ⟨rfl, rfl, rfl, rfl, rfl, rfl, rfl⟩

/-- The number of `listen` calls among some actions. -/
def listens : List (NetworkAction κ ε) → Nat
  | [] => 0
  | .listen :: rest => listens rest + 1
  | _ :: rest => listens rest

theorem listens_cons (action : NetworkAction κ ε) (rest : List (NetworkAction κ ε)) :
    listens (action :: rest) = listens [action] + listens rest := by
  cases action <;> simp only [listens, Nat.zero_add, Nat.add_comm]

/-- What a session was given last. -/
def lastHeard (heard : List Hearing) (id : Nat) : Option Hearing :=
  (heard.filter fun hearing => hearing.session = id).getLast?

/-- Where the datagram with a number came from. -/
def origin (network : Network κ ε) (number : Nat) : Option ε :=
  network.arrived[number]?.map Datagram.endpoint

/-- Where the last datagram that a session was given had come from. -/
def heardFrom (network : Network κ ε) (heard : List Hearing) (id : Nat) : Option ε :=
  (lastHeard heard id).bind fun hearing => network.origin hearing.number

/-- A packet went where the last datagram had come from that its session had been given,
and one without a session where the datagram being handled had come from. Only a session
that is being put is answered where the datagram being handled had come from; until
`curvecpr_server_recv` has returned, the others are answered where an earlier one had. -/
def Rightful (network : Network κ ε) (packet : Packet ε) : Prop :=
  match packet.session with
  | none => network.origin packet.during = some packet.endpoint
  | some id => ∃ hearing, lastHeard (network.heard.take packet.heard) id = some hearing ∧
      network.origin hearing.number = some packet.endpoint ∧
      (hearing.put = false → hearing.number < packet.during)

/-- Every session's endpoint is where it was heard from last. -/
structure HeardInv (network : Network κ ε) : Prop where
  contacts : ∀ id contact, network.contacts[id]? = some contact →
    network.heardFrom network.heard id = some contact.endpoint
  packets : ∀ packet ∈ network.sent, network.Rightful packet
  recorded : ∀ packet ∈ network.sent, packet.heard ≤ network.heard.length
  handled : ∀ hearing ∈ network.heard, hearing.put = false →
    hearing.number < network.handled.length

theorem lastHeard_append_self (heard : List Hearing) {hearing : Hearing} {id : Nat}
    (same : hearing.session = id) : lastHeard (heard ++ [hearing]) id = some hearing := by
  simp [lastHeard, same]

theorem lastHeard_append_other (heard : List Hearing) {hearing : Hearing} {other : Nat}
    (apart : other ≠ hearing.session) :
    lastHeard (heard ++ [hearing]) other = lastHeard heard other := by
  simp [lastHeard, Ne.symm apart]

theorem mem_of_lastHeard {heard : List Hearing} {id : Nat} {hearing : Hearing}
    (last : lastHeard heard id = some hearing) : hearing ∈ heard :=
  (List.mem_filter.mp (List.mem_of_getLast? last)).1

theorem origin_append {later : Network κ ε} {datagrams : List (Datagram ε)}
    (more : later.arrived = network.arrived ++ datagrams) {number : Nat} {endpoint : ε}
    (known : network.origin number = some endpoint) :
    later.origin number = some endpoint := by
  obtain ⟨datagram, located, came⟩ := Option.map_eq_some_iff.mp known
  have inside := (List.getElem?_eq_some_iff.mp located).1
  rw [origin, more, List.getElem?_append_left inside]
  exact known

theorem heardFrom_append {later : Network κ ε} {datagrams : List (Datagram ε)}
    (more : later.arrived = network.arrived ++ datagrams) {heard : List Hearing} {id : Nat}
    {endpoint : ε} (known : network.heardFrom heard id = some endpoint) :
    later.heardFrom heard id = some endpoint := by
  obtain ⟨hearing, last, came⟩ := Option.bind_eq_some_iff.mp known
  exact Option.bind_eq_some_iff.mpr ⟨hearing, last, origin_append more came⟩

theorem Rightful.append {later : Network κ ε} {datagrams : List (Datagram ε)}
    {hearings : List Hearing} (arrived : later.arrived = network.arrived ++ datagrams)
    (heard : later.heard = network.heard ++ hearings) {packet : Packet ε}
    (recorded : packet.heard ≤ network.heard.length) (rightful : network.Rightful packet) :
    later.Rightful packet := by
  simp only [Rightful] at rightful ⊢
  split
  · rename_i noSession
    rw [noSession] at rightful
    exact origin_append arrived rightful
  · rename_i id session
    rw [session] at rightful
    obtain ⟨hearing, last, came, before⟩ := rightful
    rw [heard, List.take_append_of_le_length recorded]
    exact ⟨hearing, last, origin_append arrived came, before⟩

/-- A step that sends nothing keeps the invariant if it keeps it of the endpoints and of
what it gives to a session. -/
theorem HeardInv.of_silent {later : Network κ ε} {datagrams : List (Datagram ε)}
    (hearings : List Hearing) (inv : network.HeardInv)
    (arrived : later.arrived = network.arrived ++ datagrams)
    (heard : later.heard = network.heard ++ hearings) (sent : later.sent = network.sent)
    (handled : network.handled.length ≤ later.handled.length)
    (given : ∀ hearing ∈ hearings, hearing.put = false → hearing.number < later.handled.length)
    (contacts : ∀ id contact, later.contacts[id]? = some contact →
      later.heardFrom later.heard id = some contact.endpoint) : later.HeardInv where
  contacts := contacts
  packets := by
    rw [sent]
    intro packet member
    exact (inv.packets packet member).append arrived heard (inv.recorded packet member)
  recorded := by
    rw [sent, heard, List.length_append]
    intro packet member
    exact Nat.le_add_right_of_le (inv.recorded packet member)
  handled := by
    rw [heard]
    intro hearing member returned
    rcases List.mem_append.mp member with old | new
    · exact Nat.lt_of_lt_of_le (inv.handled hearing old returned) handled
    · exact given hearing new returned

theorem HeardInv.of_quiet {later : Network κ ε} (inv : network.HeardInv)
    (contacts : later.contacts = network.contacts) (arrived : later.arrived = network.arrived)
    (handled : network.handled.length ≤ later.handled.length)
    (heard : later.heard = network.heard) (sent : later.sent = network.sent) :
    later.HeardInv := by
  have more : later.arrived = network.arrived ++ [] := by rw [arrived, List.append_nil]
  refine inv.of_silent [] more (by rw [heard, List.append_nil]) sent handled ?_ ?_
  · intro hearing member
    cases member
  · intro id contact located
    rw [contacts] at located
    rw [heard]
    exact heardFrom_append more (inv.contacts id contact located)

/-- The datagram being handled came from the endpoint that the handler finds. -/
theorem ReceiveInv.origin (inv : network.ReceiveInv) (decoding : network.Decoding) :
    network.origin network.handled.length = some network.lowerRecvEndpoint := by
  obtain ⟨receipt, reading, bytes⟩ := decoding
  have success : receipt.error = .success := by
    by_contra failed
    exact bytes (inv.failed receipt (by simp [unread, Option.mem_def.mp reading]) failed)
  rw [Network.origin, inv.arrived]
  simp [inFlight, unread, Option.mem_def.mp reading, success, seen]

theorem HeardInv.handleSend (inv : network.HeardInv) (session : Option Nat)
    (buf : List UInt8) (heard : session = none →
      network.origin network.handled.length = some network.lowerRecvEndpoint) :
    (network.handleSend session buf).HeardInv := by
  simp only [Network.handleSend]
  split
  · exact inv
  · rename_i endpoint chosen
    have kept : ∀ packet : Packet ε, packet.heard = network.heard.length →
        network.Rightful packet →
        HeardInv { network with sent := network.sent ++ [packet] } := by
      intro packet marked rightful
      refine ⟨inv.contacts, ?_, ?_, inv.handled⟩
      · intro other member
        rcases List.mem_append.mp member with old | new
        · exact inv.packets other old
        · rw [List.mem_singleton.mp new]
          exact rightful
      · intro other member
        rcases List.mem_append.mp member with old | new
        · exact inv.recorded other old
        · rw [List.mem_singleton.mp new, marked]
    apply kept _ rfl
    cases session with
    | none =>
        cases chosen
        exact heard rfl
    | some id =>
        obtain ⟨contact, located, same⟩ := Option.map_eq_some_iff.mp chosen
        have known := inv.contacts id contact located
        obtain ⟨hearing, last, came⟩ := Option.bind_eq_some_iff.mp known
        simp only [Rightful, List.take_length]
        rw [← same]
        exact ⟨hearing, last, came, inv.handled hearing (mem_of_lastHeard last)⟩

theorem HeardInv.inboxes {later : Network κ ε} (inv : network.HeardInv) (id : Nat)
    (change : List (List UInt8) → List (List UInt8))
    (contacts : later.contacts = network.contacts.modify id fun contact =>
      { contact with inbox := change contact.inbox })
    (arrived : later.arrived = network.arrived) (handled : later.handled = network.handled)
    (heard : later.heard = network.heard) (sent : later.sent = network.sent) :
    later.HeardInv := by
  have more : later.arrived = network.arrived ++ [] := by rw [arrived, List.append_nil]
  refine inv.of_silent [] more (by rw [heard, List.append_nil]) sent
    (by rw [handled]) ?_ ?_
  · intro hearing member
    cases member
  · intro other contact located
    rw [contacts, List.getElem?_modify] at located
    obtain ⟨before, found, changed⟩ := Option.map_eq_some_iff.mp located
    have same : contact.endpoint = before.endpoint := by
      rw [← changed]
      split <;> rfl
    rw [heard, same]
    exact heardFrom_append more (inv.contacts other before found)

variable [DecidableEq κ]

/-- `acceptor::handle_put_session`. -/
def handlePutSession (network : Network κ ε) (key : κ) : Network κ ε :=
  let stored := network.acceptor.handlePutSession key
  if stored.2 ≠ 0 then network
  else
    { network with
      acceptor := stored.1
      contacts := network.contacts ++ [{ endpoint := network.lowerRecvEndpoint }] }

/-- The session's strand runs the message dispatched first. -/
def message (network : Network κ ε) (id : Nat) (activity : List Callback) : Network κ ε :=
  { network with
    acceptor := network.acceptor.session id (.receive activity)
    contacts := network.contacts.modify id fun contact =>
      { contact with inbox := contact.inbox.tail } }

def step (network : Network κ ε) : NetworkAction κ ε → Network κ ε
  | .listen => network.listen
  | .arrive datagram => network.arrive datagram
  | .fail error => network.fail error
  | .enter index => network.enter index
  | .hello buf => network.handleSend none buf
  | .putSession key => network.handlePutSession key
  | .recv id buf => network.handleRecv id buf
  | .leave found => network.leave found
  | .upperSend id buf => network.handleSend (some id) buf
  | .message id activity => network.message id activity
  | .accept => { network with acceptor := network.acceptor.accept.1 }
  | .session id action =>
      { network with acceptor := network.acceptor.session id action }

/-- What libcurvecpr gives to a session in a step: the datagram being handled. -/
def hearing (network : Network κ ε) : NetworkAction κ ε → Option Hearing
  | .putSession key =>
      if (network.acceptor.handlePutSession key).2 = 0 then
        some { session := network.contacts.length, number := network.handled.length, put := true }
      else none
  | .leave found => found.map fun id =>
      { session := id, number := network.handled.length, put := false }
  | _ => none

def next (network : Network κ ε) (action : NetworkAction κ ε) : Network κ ε :=
  { network.step action with heard := network.heard ++ (network.hearing action).toList }

/-- A datagram fits in the receive buffer. The acceptor's strand runs one handler at a
time, and a session only receives what was dispatched to it. -/
def possible (network : Network κ ε) : NetworkAction κ ε → Guard
  | .arrive datagram => .of (network.receiving ≠ 0 ∧
      datagram.bytes.length ≤ network.lowerRecvBuffer.length)
  | .fail error => .of (network.receiving ≠ 0 ∧ error ≠ .success)
  | .enter _ => .of (network.reading = none)
  | .hello _ => .of network.Decoding
  | .putSession key => .of (network.Decoding ∧ network.acceptor.handleGetSession key = none)
  | .recv id _ => .of (network.Decoding ∧ id < network.contacts.length)
  | .leave found => .of (∀ id ∈ found, network.Decoding ∧ id < network.contacts.length)
  | .upperSend id _ => .of (id < network.contacts.length)
  | .message id activity => .of ((∃ contact ∈ network.contacts[id]?, contact.inbox ≠ []) ∧
      network.acceptor.Possible (.session id (.receive activity)))
  | .session id action => .of (action.receives = false ∧
      network.acceptor.Possible (.session id action))
  | _ => .free

abbrev Possible (network : Network κ ε) (action : NetworkAction κ ε) : Prop :=
  (network.possible action).holds

theorem undisturbed_handlePutSession (network : Network κ ε) (key : κ) :
    network.Undisturbed (network.handlePutSession key) := by
  simp only [handlePutSession]
  split <;> exact ⟨rfl, rfl, rfl, rfl, rfl, rfl, rfl⟩

/-- Each `listen` adds a receive; every other step passes the receives on. -/
theorem outstanding_next {action : NetworkAction κ ε} (possible : network.Possible action) :
    (network.next action).outstanding = network.outstanding + listens [action] := by
  change (network.step action).outstanding = _
  cases action with
  | listen =>
      simp only [step, listen, outstanding, listens]
      omega
  | arrive datagram =>
      have receiving := possible.1
      simp only [step, arrive, outstanding, listens, List.length_append, List.length_singleton]
      omega
  | fail error =>
      have receiving := possible.1
      simp only [step, fail, outstanding, listens, List.length_append, List.length_singleton]
      omega
  | enter index =>
      have free : network.reading = none := possible
      simp only [step, enter]
      split
      · rename_i receipt located
        obtain ⟨inside, _⟩ := List.getElem?_eq_some_iff.mp located
        simp only [outstanding, listens, free, List.length_eraseIdx, inside, ↓reduceIte,
          Option.toList_some, Option.toList_none, List.length_singleton, List.length_nil]
        omega
      · rfl
  | hello buf => exact (network.undisturbed_handleSend none buf).outstanding
  | putSession key => exact (network.undisturbed_handlePutSession key).outstanding
  | recv id buf => rfl
  | leave found =>
      simp only [step, leave]
      split
      · rfl
      · rename_i receipt reading
        cases found <;>
          simp only [listen, setEndpoint, outstanding, listens, reading, Option.toList_some,
            Option.toList_none, List.length_singleton, List.length_nil] <;> omega
  | upperSend id buf => exact (network.undisturbed_handleSend (some id) buf).outstanding
  | message id activity => rfl
  | accept => rfl
  | session id action => rfl

theorem ReceiveInv.next (inv : network.ReceiveInv) (single : network.outstanding ≤ 1)
    {action : NetworkAction κ ε} (possible : network.Possible action) :
    (network.next action).ReceiveInv := by
  have after : (network.step action).ReceiveInv := by
    cases action with
    | listen => exact ⟨inv.arrived, inv.failed⟩
    | arrive datagram => exact inv.arrive single possible.1 datagram
    | fail error => exact inv.fail possible.2
    | enter index => exact inv.enter single possible index
    | hello buf => exact (network.undisturbed_handleSend none buf).receiveInv inv
    | putSession key => exact (network.undisturbed_handlePutSession key).receiveInv inv
    | recv id buf => exact ⟨inv.arrived, inv.failed⟩
    | leave found => exact inv.leave single found
    | upperSend id buf => exact (network.undisturbed_handleSend (some id) buf).receiveInv inv
    | message id activity => exact ⟨inv.arrived, inv.failed⟩
    | accept => exact ⟨inv.arrived, inv.failed⟩
    | session id action => exact ⟨inv.arrived, inv.failed⟩
  exact ⟨after.arrived, after.failed⟩

theorem HeardInv.put (inv : network.HeardInv) (receives : network.ReceiveInv)
    (decoding : network.Decoding) (key : κ) : (network.next (.putSession key)).HeardInv := by
  have came := receives.origin decoding
  by_cases stored : (network.acceptor.handlePutSession key).2 = 0
  · have given : network.hearing (.putSession key) = some
        { session := network.contacts.length, number := network.handled.length, put := true } :=
      if_pos stored
    simp only [next, given, step, handlePutSession, stored, ne_eq, not_true_eq_false, ↓reduceIte]
    refine inv.of_silent _ (List.append_nil _).symm rfl rfl (Nat.le_refl _) ?_ ?_
    · intro hearing member returned
      rw [List.mem_singleton.mp member] at returned
      cases returned
    · intro id contact located
      rcases append_cases located with ⟨rfl, rfl⟩ | old
      · simp only [heardFrom, Option.toList_some]
        rw [lastHeard_append_self _ rfl]
        exact came
      · have apart : id ≠ network.contacts.length :=
          Nat.ne_of_lt (List.getElem?_eq_some_iff.mp old).1
        simp only [heardFrom, Option.toList_some]
        rw [lastHeard_append_other _ apart]
        exact inv.contacts id contact old
  · have nothing : network.hearing (.putSession key) = none := if_neg stored
    simp only [next, nothing, step, handlePutSession, stored, ne_eq, not_false_eq_true, ↓reduceIte]
    exact inv.of_quiet rfl rfl (Nat.le_refl _) (List.append_nil _) rfl

theorem HeardInv.leave (inv : network.HeardInv) (receives : network.ReceiveInv)
    {id : Nat} (decoding : network.Decoding) : (network.next (.leave (some id))).HeardInv := by
  have came := receives.origin decoding
  obtain ⟨receipt, isReading, bytes⟩ := decoding
  have reading : network.reading = some receipt := isReading
  have success : receipt.error = .success := by
    by_contra failed
    exact bytes (receives.failed receipt (by simp [unread, reading]) failed)
  simp only [Network.next, step, Network.leave, reading, success, ↓reduceIte, hearing,
    Option.map_some, Option.toList_some]
  refine inv.of_silent _ (List.append_nil _).symm rfl rfl ?_ ?_ ?_
  · simp [listen]
  · intro hearing member _
    rw [List.mem_singleton.mp member]
    simp [listen]
  · intro other contact located
    simp only [listen, setEndpoint, List.getElem?_modify] at located ⊢
    by_cases same : other = id
    · subst same
      obtain ⟨before, _, rfl⟩ := Option.map_eq_some_iff.mp located
      simp only [heardFrom, ↓reduceIte]
      rw [lastHeard_append_self _ rfl]
      exact came
    · simp only [Ne.symm same, ↓reduceIte, id_map'] at located
      simp only [heardFrom]
      rw [lastHeard_append_other _ same]
      exact inv.contacts other contact located

theorem HeardInv.next (inv : network.HeardInv) (receives : network.ReceiveInv)
    {action : NetworkAction κ ε} (possible : network.Possible action) :
    (network.next action).HeardInv := by
  have unheard : ∀ later : Network κ ε, later.HeardInv → later.heard = network.heard →
      HeardInv { later with heard := network.heard ++ [] } := by
    intro later kept same
    rw [List.append_nil, ← same]
    exact kept
  cases action with
  | arrive datagram =>
      refine inv.of_silent _ rfl rfl rfl (Nat.le_refl _) ?_ ?_
      · intro hearing member
        cases member
      · intro id contact located
        have more : (network.next (.arrive datagram)).arrived =
            network.arrived ++ [datagram] := rfl
        have same : (network.next (.arrive datagram)).heard = network.heard :=
          List.append_nil _
        rw [same]
        exact heardFrom_append more (inv.contacts id contact located)
  | enter index =>
      apply unheard
      · simp only [step, enter]
        split
        · exact inv.of_quiet rfl rfl (Nat.le_refl _) rfl rfl
        · exact inv
      · simp only [step, enter]
        split <;> rfl
  | hello buf =>
      exact unheard _ (inv.handleSend none buf fun _ => receives.origin possible)
        (heard_handleSend _ _ _)
  | putSession key => exact inv.put receives possible.1 key
  | recv id buf =>
      exact unheard _ (inv.inboxes id (fun inbox => inbox ++ [buf]) rfl rfl rfl rfl rfl) rfl
  | leave found =>
      cases found with
      | some id => exact inv.leave receives (possible id rfl).1
      | none =>
          apply unheard
          · simp only [step, Network.leave]
            split
            · exact inv
            · refine inv.of_quiet rfl rfl ?_ rfl rfl
              simp only [listen]
              split
              · rw [List.length_append]
                omega
              · exact Nat.le_refl _
          · simp only [step, Network.leave]
            split <;> rfl
  | upperSend id buf =>
      refine unheard _ (inv.handleSend (some id) buf ?_) (heard_handleSend _ _ _)
      intro noSession
      cases noSession
  | message id activity =>
      exact unheard _ (inv.inboxes id List.tail rfl rfl rfl rfl rfl) rfl
  | _ => exact inv.of_quiet rfl rfl (Nat.le_refl _) (List.append_nil _) rfl

theorem reaches_acceptor {action : NetworkAction κ ε} (possible : network.Possible action) :
    Reaches Acceptor.next Acceptor.Possible network.acceptor
      (network.next action).acceptor := by
  change Reaches Acceptor.next Acceptor.Possible network.acceptor (network.step action).acceptor
  have kept : ∀ later : Network κ ε, later.acceptor = network.acceptor →
      Reaches Acceptor.next Acceptor.Possible network.acceptor later.acceptor := by
    intro later same
    rw [same]
    exact .start
  have taken : ∀ (action : AcceptorAction κ) (later : Network κ ε),
      network.acceptor.Possible action → later.acceptor = network.acceptor.next action →
      Reaches Acceptor.next Acceptor.Possible network.acceptor later.acceptor := by
    intro action later possible same
    rw [same]
    exact .act .start possible
  cases action with
  | putSession key =>
      apply taken (.putSession key) _ possible.2
      by_cases full : network.acceptor.maximumPendingSessions ≤
          network.acceptor.pendingSessions.length
      · simp [step, handlePutSession, Acceptor.next, Acceptor.handlePutSession, full]
      · simp [step, handlePutSession, Acceptor.next, Acceptor.handlePutSession, full]
  | message id activity => exact taken (.session id (.receive activity)) _ possible.2 rfl
  | accept => exact taken .accept _ trivial rfl
  | session id action => exact taken (.session id action) _ possible.2 rfl
  | enter index =>
      apply kept
      simp only [step, enter]
      split <;> rfl
  | hello buf => exact kept _ rfl
  | leave found =>
      apply kept
      simp only [step, Network.leave]
      split
      · rfl
      · cases found <;> rfl
  | upperSend id buf =>
      apply kept
      simp only [step, handleSend]
      split <;> rfl
  | _ => exact kept _ rfl

theorem length_contacts_next (action : NetworkAction κ ε)
    (same : network.contacts.length = network.acceptor.peers.length) :
    (network.next action).contacts.length = (network.next action).acceptor.peers.length := by
  change (network.step action).contacts.length = (network.step action).acceptor.peers.length
  cases action with
  | putSession key =>
      by_cases full : network.acceptor.maximumPendingSessions ≤
          network.acceptor.pendingSessions.length
      · simp [step, handlePutSession, Acceptor.handlePutSession, full, same]
      · simp [step, handlePutSession, Acceptor.handlePutSession, full, same]
  | message id activity =>
      simp only [step, message, List.length_modify]
      exact same.trans (Acceptor.length_peers_session _ _ _).symm
  | accept => exact same.trans (Acceptor.length_peers_accept _).symm
  | session id action => exact same.trans (Acceptor.length_peers_session _ _ _).symm
  | enter index =>
      simp only [step, enter]
      split <;> exact same
  | hello buf => exact same
  | recv id buf =>
      simp only [step, handleRecv, List.length_modify]
      exact same
  | leave found =>
      simp only [step, Network.leave]
      split
      · exact same
      · cases found with
        | none => exact same
        | some id =>
            simp only [listen, setEndpoint, List.length_modify]
            exact same
  | upperSend id buf =>
      simp only [step, handleSend]
      split <;> exact same
  | _ => exact same

/-- What holds in a run of an acceptor on which `listen` is called once. -/
structure NetworkInv (network : Network κ ε) : Prop where
  receives : network.ReceiveInv
  heard : network.HeardInv
  acceptor : AcceptorInv network.acceptor
  contacts : network.contacts.length = network.acceptor.peers.length

theorem NetworkInv.initial (buffer : List UInt8) (endpoint : ε) :
    NetworkInv ({ lowerRecvBuffer := buffer, lowerRecvEndpoint := endpoint } : Network κ ε) where
  receives := by
    refine ⟨rfl, ?_⟩
    intro receipt member
    cases member
  heard := by
    refine ⟨?_, ?_, ?_, ?_⟩
    · intro id contact located
      cases located
    · intro packet member
      cases member
    · intro packet member
      cases member
    · intro hearing member
      cases member
  acceptor := AcceptorInv.initial 16
  contacts := rfl

theorem NetworkInv.next (inv : network.NetworkInv) (single : network.outstanding ≤ 1)
    {action : NetworkAction κ ε} (possible : network.Possible action) :
    (network.next action).NetworkInv where
  receives := inv.receives.next single possible
  heard := inv.heard.next inv.receives possible
  acceptor := (reaches_acceptor possible).invariant inv.acceptor
    fun _ action inv possible => inv.next action possible
  contacts := length_contacts_next action inv.contacts

theorem NetworkInv.run {start : Network κ ε} (inv : start.NetworkInv)
    {actions : List (NetworkAction κ ε)}
    (possible : AllMet Network.next Possible start actions)
    (single : start.outstanding + listens actions ≤ 1) :
    (actions.foldl Network.next start).NetworkInv ∧
      (actions.foldl Network.next start).outstanding = start.outstanding + listens actions := by
  induction actions generalizing start with
  | nil => exact ⟨inv, rfl⟩
  | cons action rest ih =>
      have counted := outstanding_next possible.1
      rw [listens_cons] at single ⊢
      obtain ⟨after, total⟩ := ih (inv.next (by omega) possible.1) possible.2 (by omega)
      refine ⟨after, ?_⟩
      rw [List.foldl_cons, total]
      omega

end Network

/-- After one `listen` exactly one receive is outstanding, queued or being handled at any
time, and every datagram is handled once, in the order of arrival, with its own bytes
and its own sender, though all of them use one buffer and one endpoint. -/
theorem datagrams_are_handled_as_they_arrive {κ : Type u} {ε : Type v} [DecidableEq κ]
    {buffer : List UInt8} {endpoint : ε} {actions : List (NetworkAction κ ε)}
    (possible : AllMet Network.next Network.Possible
      { lowerRecvBuffer := buffer, lowerRecvEndpoint := endpoint } actions)
    (once : Network.listens actions = 1) :
    let later := actions.foldl Network.next
      { lowerRecvBuffer := buffer, lowerRecvEndpoint := endpoint }
    later.receiving + later.received.length + later.reading.toList.length = 1 ∧
      later.arrived = later.handled ++ later.inFlight ∧ later.inFlight.length ≤ 1 := by
  intro later
  have single : Network.outstanding ({ lowerRecvBuffer := buffer, lowerRecvEndpoint := endpoint } :
      Network κ ε) + Network.listens actions = 1 := by
    rw [once]
    rfl
  obtain ⟨inv, total⟩ := (Network.NetworkInv.initial buffer endpoint).run possible single.le
  rw [single] at total
  refine ⟨total, inv.receives.arrived, ?_⟩
  have few : later.unread.length ≤ 1 := by
    simp only [Network.outstanding] at total
    simp only [later, Network.unread, List.length_append]
    omega
  rw [Network.inFlight, List.length_map]
  exact (List.length_filter_le _ _).trans few

/-- A client says hello from one address and initiates from another, its session takes a
message, and the next one comes from a third; between them a receive fails. -/
def roamSchedule : List (NetworkAction Nat Nat) :=
  [.listen, .arrive { endpoint := 1, bytes := [1, 1] }, .enter 0, .hello [9], .leave none,
    .arrive { endpoint := 2, bytes := [2, 2, 2] }, .enter 0, .putSession 7, .recv 0 [5],
    .leave (some 0), .accept, .upperSend 0 [8], .message 0 [], .fail .connectionRefused,
    .enter 0, .leave none, .arrive { endpoint := 3, bytes := [3] }, .enter 0, .upperSend 0 [7],
    .leave (some 0), .upperSend 0 [6]]

theorem datagrams_are_handled_as_they_arrive_roam :
    let later := roamSchedule.foldl Network.next
      { lowerRecvBuffer := [0, 0, 0, 0], lowerRecvEndpoint := 0 }
    later.arrived = later.handled ++ later.inFlight ∧
      later.handled.map Datagram.endpoint = [1, 2, 3] :=
  ⟨(datagrams_are_handled_as_they_arrive (by decide) (by decide)).2.1, by decide⟩

/-- After a second `listen` a datagram is handled with another one's bytes and sender. -/
example :
    let later := ([.listen, .listen, .arrive { endpoint := 1, bytes := [1] },
        .arrive { endpoint := 2, bytes := [2] }, .enter 0, .leave none] :
        List (NetworkAction Nat Nat)).foldl Network.next
      { lowerRecvBuffer := [0, 0, 0, 0], lowerRecvEndpoint := 0 }
    later.arrived.head? = some { endpoint := 1, bytes := [1] } ∧
      later.handled = [{ endpoint := 2, bytes := [2] }] := by decide

/-- Where `listen` is called once at most, each packet sent for a session goes where the
last datagram had come from that the session was given, and each packet without a session
where the datagram being handled had come from; every registered session has such an
endpoint. While a client that has moved is being decoded, its session still answers the
old address. -/
theorem packets_go_where_sessions_were_heard {κ : Type u} {ε : Type v} [DecidableEq κ]
    {buffer : List UInt8} {endpoint : ε} {actions : List (NetworkAction κ ε)}
    (possible : AllMet Network.next Network.Possible
      { lowerRecvBuffer := buffer, lowerRecvEndpoint := endpoint } actions)
    (once : Network.listens actions ≤ 1) :
    let later := actions.foldl Network.next
      { lowerRecvBuffer := buffer, lowerRecvEndpoint := endpoint }
    (∀ packet ∈ later.sent, later.Rightful packet) ∧
      ∀ key id, later.acceptor.handleGetSession key = some id →
        ∃ contact, later.contacts[id]? = some contact ∧
          later.heardFrom later.heard id = some contact.endpoint := by
  intro later
  have single : Network.outstanding ({ lowerRecvBuffer := buffer, lowerRecvEndpoint := endpoint } :
      Network κ ε) + Network.listens actions ≤ 1 := by
    rw [show Network.outstanding ({ lowerRecvBuffer := buffer, lowerRecvEndpoint := endpoint } :
      Network κ ε) = 0 from rfl]
    omega
  obtain ⟨inv, _⟩ := (Network.NetworkInv.initial buffer endpoint).run possible single
  refine ⟨inv.heard.packets, ?_⟩
  intro key id stored
  obtain ⟨peer, located, _⟩ := inv.acceptor.registered key id stored
  have inside : id < later.contacts.length := by
    rw [inv.contacts]
    exact (List.getElem?_eq_some_iff.mp located).1
  have contact := List.getElem?_eq_getElem inside
  exact ⟨_, contact, inv.heard.contacts id _ contact⟩

/-- The third packet is sent while the datagram from the third address is decoded. -/
theorem packets_go_where_sessions_were_heard_roam :
    let later := roamSchedule.foldl Network.next
      { lowerRecvBuffer := [0, 0, 0, 0], lowerRecvEndpoint := 0 }
    (∀ packet ∈ later.sent, later.Rightful packet) ∧
      later.sent.map Packet.endpoint = [1, 2, 2, 3] ∧
      (later.sent[2]?.bind fun packet => later.origin packet.during) = some 3 ∧
      later.heard = [⟨0, 1, true⟩, ⟨0, 1, false⟩, ⟨0, 2, false⟩] :=
  ⟨(packets_go_where_sessions_were_heard (by decide) (by decide)).1, by decide, by decide,
    by decide⟩

end CurvecprAsio
