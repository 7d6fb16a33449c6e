import CurvecprAsio.Client

set_option autoImplicit false

/- The receives of a client into its one buffer. -/
namespace CurvecprAsio

open Strand Transition

namespace Socket

/-- The receives that fill the buffer: outstanding, or completed and not yet handled. -/
def live (socket : Socket) : Nat :=
  socket.receiving + socket.received.countP fun error => !error.closes

/-- An open socket is listened on, and there are at most `attempts` receives, counting
those whose handlers run now. -/
structure Listens (socket : Socket) (handled attempts : Nat) : Prop where
  closed : socket.isOpen = false → socket.receiving = 0
  listened : socket.isOpen = true → 1 ≤ socket.live + handled
  most : socket.live + handled ≤ attempts

namespace Listens

variable {socket : Socket} {handled attempts : Nat}

/-- An attempt to connect opens the socket, and is about to receive. -/
theorem connect (listens : socket.Listens 0 attempts) :
    socket.connect.Listens 1 (attempts + 1) where
  closed := fun shut => Bool.noConfusion shut
  listened := fun _ => Nat.le_add_left _ _
  most := Nat.succ_le_succ listens.most

/-- A handler that is done begins the next receive. -/
theorem asyncReceive (listens : socket.Listens 1 attempts) :
    socket.asyncReceive.Listens 0 attempts := by
  have most := listens.most
  cases isOpen : socket.isOpen with
  | true =>
      have more : socket.asyncReceive = { socket with receiving := socket.receiving + 1 } := by
        simp [Socket.asyncReceive, isOpen]
      rw [more]
      refine ⟨fun shut => Bool.noConfusion (isOpen.symm.trans shut), ?_, ?_⟩
      · intro _
        dsimp only [live]
        omega
      · dsimp only [live] at most ⊢
        omega
  | false =>
      have failed : socket.asyncReceive =
          { socket with received := socket.received ++ [.badDescriptor] } := by
        simp [Socket.asyncReceive, isOpen]
      rw [failed]
      refine ⟨listens.closed, fun opened => Bool.noConfusion (isOpen.symm.trans opened), ?_⟩
      simp only [live, List.countP_append] at most ⊢
      have none_ : [ErrorCode.badDescriptor].countP (fun error => !error.closes) = 0 := rfl
      omega

/-- A socket that is closed aborts its receives; those that have completed stay. -/
theorem close (listens : socket.Listens handled attempts) :
    socket.close.Listens handled attempts where
  closed := fun _ => rfl
  listened := fun opened => Bool.noConfusion opened
  most := by
    have most := listens.most
    have aborted : (List.replicate socket.receiving ErrorCode.operationAborted).countP
        (fun error => !error.closes) = 0 := by
      rw [List.countP_eq_zero]
      intro error member
      rw [(List.mem_replicate.mp member).2]
      decide
    simp only [live, Socket.close, List.countP_append] at most ⊢
    omega

theorem arrive (listens : socket.Listens handled attempts) {error : ErrorCode}
    (heard : error.closes = false) : (socket.arrive error).Listens handled attempts := by
  by_cases idle : socket.receiving = 0
  · simp only [Socket.arrive, idle, ↓reduceIte]
    exact listens
  · have counted : [error].countP (fun error => !error.closes) = 1 := by simp [heard]
    have same : (socket.arrive error).live = socket.live := by
      simp only [Socket.arrive, idle, ↓reduceIte, live, List.countP_append, counted]
      omega
    have keptOpen : (socket.arrive error).isOpen = socket.isOpen := by
      simp only [Socket.arrive, idle, ↓reduceIte]
    refine ⟨?_, ?_, ?_⟩
    · rw [keptOpen]
      intro shut
      exact absurd (listens.closed shut) idle
    · rw [keptOpen, same]
      exact listens.listened
    · rw [same]
      exact listens.most

/-- Taking a result that has an error of a closed socket ends that receive, taking any
other leaves it to the handler. -/
theorem take (listens : socket.Listens 0 attempts) {index : Nat} {error : ErrorCode}
    (located : socket.received[index]? = some error) :
    (socket.take index).Listens (if error.closes then 0 else 1) attempts := by
  obtain ⟨inside, atIndex⟩ := List.getElem?_eq_some_iff.mp located
  have parts := (List.getElem_cons_eraseIdx_perm inside).countP_eq fun error => !error.closes
  rw [atIndex, List.countP_cons] at parts
  have split : socket.live = (socket.take index).live + if error.closes then 0 else 1 := by
    simp only [live, Socket.take]
    cases closes : error.closes with
    | true =>
        simp only [closes, Bool.not_true, Bool.false_eq_true, ↓reduceIte] at parts ⊢
        omega
    | false =>
        simp only [closes, Bool.not_false, ↓reduceIte] at parts
        simp only [Bool.false_eq_true, ↓reduceIte]
        omega
  refine ⟨listens.closed, ?_, ?_⟩
  · intro opened
    rw [← split]
    exact listens.listened opened
  · rw [← split]
    exact listens.most

end Listens

end Socket

namespace ClientStream

variable {stream : ClientStream} {attempts : Nat}

/-- The handler of a Hello timeout closes the socket or leaves it. -/
theorem listens_handleHelloTimeout {handled : Nat}
    (listens : stream.socket.Listens handled attempts) (error : ErrorCode) :
    (stream.handleHelloTimeout error).socket.Listens handled attempts := by
  unfold handleHelloTimeout
  split
  · exact listens
  · split
    · exact listens.close
    · exact listens

/-- The connect operation begins an attempt when it is called now. -/
def attempting (stream : ClientStream) : Bool :=
  !stream.session.running && 0 ≤ stream.helloRetries

theorem listens_connectOp (listens : stream.socket.Listens 0 attempts) :
    stream.connectOp.socket.Listens 0 (attempts + if stream.attempting then 1 else 0) := by
  unfold connectOp connect
  by_cases running : stream.session.running = true
  · simp only [attempting, running, Bool.not_true, Bool.false_and, Bool.false_eq_true,
      ↓reduceIte]
    exact listens
  · by_cases gaveUp : stream.helloRetries < 0
    · have spent : ¬ 0 ≤ stream.helloRetries := by omega
      simp only [attempting, running, gaveUp, spent, decide_false, Bool.and_false,
        Bool.false_eq_true, ↓reduceIte]
      exact listens
    · have going : 0 ≤ stream.helloRetries := by omega
      have begun := @listens_handleHelloTimeout { stream with
        helloRetries := 0, socket := stream.socket.connect.asyncReceive } _ _
        listens.connect.asyncReceive .success
      simp only [attempting, running, gaveUp, going, Bool.not_false, decide_true, Bool.and_true,
        Bool.false_eq_true, ↓reduceIte]
      exact begun

theorem listens_startSession (listens : stream.socket.Listens 1 attempts)
    (sending : List Callback) : (stream.startSession sending).socket.Listens 1 attempts := by
  simp only [startSession]
  split
  · exact listens.close
  · exact listens

theorem listens_runReceive (listens : stream.socket.Listens 0 attempts) (index : Nat)
    (recv : ClientRecv) : (stream.runReceive index recv).socket.Listens 0 attempts := by
  unfold runReceive
  split
  · rename_i error located
    have taken := listens.take located
    unfold handleLowerRead
    split
    · rename_i closes
      simp only [closes, ↓reduceIte] at taken
      exact taken
    · rename_i heard
      simp only [heard, Bool.false_eq_true, ↓reduceIte] at taken
      dsimp only
      apply Socket.Listens.asyncReceive
      split
      · exact listens_startSession taken recv.sending
      · exact taken
  · exact listens

end ClientStream

namespace Client

/-- The step begins an attempt: the connect operation is woken and finds the session not
running and Hello retries left. -/
def attempts (client : Client) : ClientStep → Bool
  | .stream (.runTimer index) =>
      match client.timers.ready[index]? with
      | some (.connectOp, _) => client.stream.attempting
      | _ => false
  | _ => false

/-- The attempts begun in a run. -/
def attemptsIn (client : Client) : List ClientStep → Nat
  | [] => 0
  | step :: rest => (if client.attempts step then 1 else 0) + (client.next step).attemptsIn rest

/-- Only closing the socket ends a receive as aborted or with a bad descriptor. -/
def heard (client : Client) : ClientStep → Guard
  | .stream (.arrive error) => .of (error.closes = false)
  | step => client.possible step

abbrev Heard (client : Client) (step : ClientStep) : Prop := (client.heard step).holds

variable {client : Client} {attempts : Nat}

theorem listens_runTimer (listens : client.socket.Listens 0 attempts) (index : Nat) :
    (client.stream.runTimer index).socket.Listens 0
      (attempts + if client.attempts (.stream (.runTimer index)) then 1 else 0) := by
  have same : client.stream.timers = client.timers := rfl
  cases located : client.timers.ready[index]? with
  | none =>
      simp only [ClientStream.runTimer, Client.attempts, same, located]
      exact listens
  | some due =>
      obtain ⟨handler, completion⟩ := due
      simp only [ClientStream.runTimer, Client.attempts, same, located]
      cases handler with
      | helloTimeout =>
          exact @ClientStream.listens_handleHelloTimeout
            { client.stream with timers := client.timers.take index } _ _ listens _
      | connectOp =>
          exact @ClientStream.listens_connectOp
            { client.stream with timers := client.timers.take index } _ listens

theorem listens_next (listens : client.socket.Listens 0 attempts) {step : ClientStep}
    (heard : client.Heard step) : (client.next step).socket.Listens 0
      (attempts + if client.attempts step then 1 else 0) := by
  cases step with
  | stream action =>
      cases action with
      | expireHello => exact listens
      | arrive error => exact listens.arrive heard
      | runTimer index => exact listens_runTimer listens index
      | runReceive index recv => exact ClientStream.listens_runReceive listens index recv
  | service action =>
      simp only [next, serve]
      split
      · exact listens.close
      · exact listens

theorem listens_run (listens : client.socket.Listens 0 attempts) {steps : List ClientStep}
    (heard : AllMet next Heard client steps) :
    (steps.foldl next client).socket.Listens 0 (attempts + client.attemptsIn steps) := by
  induction steps generalizing client attempts with
  | nil => exact listens
  | cons step rest ih =>
      have run := ih (listens_next listens heard.1) heard.2
      rw [List.foldl_cons, attemptsIn, ← Nat.add_assoc]
      exact run

end Client

/-- A client listens once for each attempt to connect: whatever arrives, expires, is closed
or begun by the user, an open socket has a receive that its handler will renew, a closed one
has none outstanding, and no more receives share the buffer than attempts were begun. -/
theorem client_listens_once {client : Client} (unused : client.socket = {})
    {steps : List ClientStep} (heard : AllMet Client.next Client.Heard client.connect steps) :
    let later := steps.foldl Client.next client.connect
    (later.socket.isOpen = true → 1 ≤ later.socket.live) ∧
      (later.socket.isOpen = false → later.socket.receiving = 0) ∧
      later.socket.live ≤ (if client.stream.attempting then 1 else 0) +
        client.connect.attemptsIn steps := by
  intro later
  have initial : client.stream.socket.Listens 0 0 := by
    have same : client.stream.socket = {} := unused
    rw [same]
    exact ⟨fun _ => rfl, fun opened => Bool.noConfusion opened, Nat.le_refl 0⟩
  have begun := ClientStream.listens_connectOp initial
  rw [Nat.zero_add] at begun
  have listens : later.socket.Listens 0 _ := Client.listens_run begun heard
  exact ⟨listens.listened, listens.closed, listens.most⟩

/-- The session is closed before the connect operation that was woken is called: it begins
another attempt while a datagram of the first one waits for its handler. -/
theorem client_listens_once_again :
    let steps : List ClientStep :=
      [.stream (.arrive .success), .stream (.runReceive 0 { ret := 0, negotiated := true }),
        .service (.beginInside 1 .close []), .stream (.arrive .success),
        .service (.expire .close), .service (.run 1 []), .stream (.runTimer 1)]
    let client : Client := { service := { session := {} } }
    let later := steps.foldl Client.next client.connect
    1 ≤ later.socket.live ∧ later.socket.live ≤ 1 + client.connect.attemptsIn steps ∧
      client.connect.attemptsIn steps = 1 ∧ later.socket.live = 2 := by
  intro steps client later
  have heard : AllMet Client.next Client.Heard client.connect steps := by decide
  obtain ⟨listened, _, most⟩ := client_listens_once rfl heard
  exact ⟨listened (by decide), most, by decide, by decide⟩

end CurvecprAsio
