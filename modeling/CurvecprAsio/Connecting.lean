import CurvecprAsio.Client

set_option autoImplicit false

/- A connect operation that waits is kept alive by the Hello timer alone. -/
namespace CurvecprAsio

open Strand Transition

namespace ClientStream

/-- The connect operation waits for the session to start. -/
def Asleep (stream : ClientStream) : Prop :=
  (ClientTimer.pendingReadyConnect, ClientHandler.connectOp) ∈ stream.timers.waiting

def Reported (stream : ClientStream) : Prop :=
  ∃ ec running isOpen, ClientEvent.reported ec running isOpen ∈ stream.events

/-- Steps that need neither the network nor the user. -/
def Internal (_ : ClientStream) : ClientAction → Prop
  | .expireHello => True
  | .runTimer _ => True
  | _ => False

/-- A connect operation that waits has a Hello handler to wake it, and its result can
still be reported. -/
structure ConnectAttended (stream : ClientStream) : Prop where
  armed : stream.Asleep → stream.session.running = false ∧ 0 < stream.helloCount
  reports : Leads next Internal Reported stream

instance (stream : ClientStream) : Decidable stream.Asleep :=
  inferInstanceAs (Decidable ((ClientTimer.pendingReadyConnect, ClientHandler.connectOp) ∈
    stream.timers.waiting))

theorem helloCount_pos (stream : ClientStream) : 0 < stream.helloCount ↔
    (ClientTimer.helloTimedOut, ClientHandler.helloTimeout) ∈ stream.timers.waiting ∨
      (ClientHandler.helloTimeout, Completion.success) ∈ stream.timers.ready := by
  rw [helloCount, ← List.count_pos_iff, ← List.count_pos_iff]
  omega

/-- What a run keeps of an attempt with one connect operation. -/
structure ConnectInv (stream : ClientStream) : Prop where
  timer : (ClientTimer.helloTimedOut, ClientHandler.connectOp) ∉ stream.timers.waiting
  held : stream.Reported ∨ .connectOp ∈ stream.timers.handlers
  armed : stream.Asleep → stream.session.running = false ∧ 0 < stream.helloCount

namespace ConnectInv

variable {stream later : ClientStream}

/-- Steps that hold on to the connect operation and begin no wait for it. -/
theorem keeps (inv : ConnectInv stream)
    (waits : ∀ timer, (timer, ClientHandler.connectOp) ∈ later.timers.waiting →
      (timer, ClientHandler.connectOp) ∈ stream.timers.waiting)
    (held : .connectOp ∈ stream.timers.handlers → .connectOp ∈ later.timers.handlers)
    (events : ∀ event ∈ stream.events, event ∈ later.events)
    (armed : later.Asleep → later.session.running = false ∧ 0 < later.helloCount) :
    ConnectInv later where
  timer := fun member => inv.timer (waits _ member)
  held := by
    rcases inv.held with ⟨ec, running, isOpen, member⟩ | inside
    · exact Or.inl ⟨ec, running, isOpen, events _ member⟩
    · exact Or.inr (held inside)
  armed := armed

/-- A Hello timer that has been started keeps the connect operation alive. -/
theorem rearmed (timers : Queue ClientTimer ClientHandler) :
    (ClientTimer.helloTimedOut, ClientHandler.helloTimeout) ∈
      (timers.rearm .helloTimedOut .helloTimeout).waiting :=
  (Queue.mem_waiting_asyncWait _ _ _ _).mpr (Or.inr rfl)

theorem waits_rearm (timers : Queue ClientTimer ClientHandler) (timer : ClientTimer)
    (member : (timer, ClientHandler.connectOp) ∈
      (timers.rearm .helloTimedOut .helloTimeout).waiting) :
    (timer, ClientHandler.connectOp) ∈ timers.waiting := by
  rcases (Queue.mem_waiting_asyncWait _ _ _ _).mp member with old | new
  · exact ((Queue.mem_waiting_finish _ _ _ _).mp old).1
  · cases new

theorem connectOp
    (timer : (ClientTimer.helloTimedOut, ClientHandler.connectOp) ∉ stream.timers.waiting)
    (armed : stream.Asleep → stream.session.running = false ∧ 0 < stream.helloCount) :
    ConnectInv stream.connectOp := by
  have reported : ∀ (retries : Int) (ec : ErrorCode) (running isOpen : Bool),
      ConnectInv ({ stream with helloRetries := retries }.note (.reported ec running isOpen)) :=
    fun retries ec running isOpen =>
      ⟨timer, Or.inl ⟨ec, running, isOpen, List.mem_cons_self⟩, armed⟩
  unfold ClientStream.connectOp ClientStream.connect
  by_cases running : stream.session.running = true
  · simp only [running, ↓reduceIte]
    exact reported stream.helloRetries _ _ _
  · by_cases gaveUp : stream.helloRetries < 0
    · simp only [running, gaveUp, Bool.false_eq_true, ↓reduceIte]
      exact reported 0 _ _ _
    · simp only [running, gaveUp, handleHelloTimeout, note, Bool.false_eq_true, ↓reduceIte,
        ne_eq, not_true_eq_false, show ¬ (5 : Int) < 0 + 1 by decide]
      constructor
      · intro member
        rcases (Queue.mem_waiting_asyncWait _ _ _ _).mp member with old | new
        · exact timer (waits_rearm _ _ old)
        · cases new
      · apply Or.inr
        apply (Queue.mem_handlers _ _).mpr
        exact Or.inl ⟨.pendingReadyConnect, (Queue.mem_waiting_asyncWait _ _ _ _).mpr (Or.inr rfl)⟩
      · intro _
        refine ⟨by simpa using running, ?_⟩
        apply (helloCount_pos _).mpr
        exact Or.inl ((Queue.mem_waiting_asyncWait _ _ _ _).mpr (Or.inl (rearmed _)))

theorem helloCount_take {index : Nat} {due : ClientHandler × Completion}
    (located : stream.timers.ready[index]? = some due) (other : due ≠ (.helloTimeout, .success)) :
    ({ stream with timers := stream.timers.take index } : ClientStream).helloCount =
      stream.helloCount := by
  have counts := stream.timers.count_ready_take located (.helloTimeout, .success)
  rw [if_neg (Ne.symm other)] at counts
  simp only [helloCount, Queue.waiting_take]
  omega

theorem held_take {index : Nat} {due : ClientHandler × Completion}
    (located : stream.timers.ready[index]? = some due) (other : due.1 ≠ .connectOp)
    (inside : .connectOp ∈ stream.timers.handlers) :
    .connectOp ∈ (stream.timers.take index).handlers := by
  rcases List.mem_cons.mp ((stream.timers.handlers_take located).mem_iff.mp inside) with
    same | member
  · exact absurd same.symm other
  · exact member

/-- A Hello handler that is due gives up and wakes the connect operation, or starts its
timer again. -/
theorem handleHelloTimeout (inv : ConnectInv stream) {index : Nat} {completion : Completion}
    (located : stream.timers.ready[index]? = some (.helloTimeout, completion)) :
    ConnectInv ({ stream with timers := stream.timers.take index }.handleHelloTimeout
      (errorOf completion)) := by
  have held := held_take located (by simp)
  cases completion with
  | aborted =>
      show ConnectInv { stream with timers := stream.timers.take index }
      apply inv.keeps
      · exact fun _ member => member
      · exact held
      · exact fun _ member => member
      · intro asleep
        obtain ⟨stopped, hello⟩ := inv.armed asleep
        refine ⟨stopped, ?_⟩
        exact Nat.lt_of_lt_of_eq hello (helloCount_take located (by simp)).symm
  | success =>
      simp only [ClientStream.handleHelloTimeout, errorOf, ne_eq, not_true_eq_false, ↓reduceIte]
      split
      · apply inv.keeps
        · intro timer member
          exact ((Queue.mem_waiting_finish _ _ _ _).mp member).1
        · intro inside
          have perm := Queue.handlers_finish (stream.timers.take index) .pendingReadyConnect
            .aborted
          exact perm.mem_iff.mpr (held inside)
        · exact fun event member => List.mem_cons_of_mem _ member
        · intro asleep
          exact absurd rfl ((Queue.mem_waiting_finish _ _ _ _).mp asleep).2
      · have waits := waits_rearm (stream.timers.take index)
        apply inv.keeps waits
        · intro inside
          have perm := Queue.handlers_rearm (stream.timers.take index) .helloTimedOut
            .helloTimeout
          exact perm.mem_iff.mpr (List.mem_cons_of_mem _ (held inside))
        · exact fun event member => List.mem_cons_of_mem _ member
        · intro asleep
          refine ⟨(inv.armed (waits _ asleep)).1, ?_⟩
          exact (helloCount_pos _).mpr (Or.inl (rearmed _))

theorem runTimer (inv : ConnectInv stream) (index : Nat) : ConnectInv (stream.runTimer index) := by
  simp only [ClientStream.runTimer]
  split
  · rename_i completion located
    exact inv.handleHelloTimeout located
  · rename_i completion located
    apply connectOp
    · exact inv.timer
    · intro asleep
      obtain ⟨stopped, hello⟩ := inv.armed asleep
      refine ⟨stopped, ?_⟩
      exact Nat.lt_of_lt_of_eq hello (helloCount_take located (by simp)).symm
  · exact inv

theorem expireHello (inv : ConnectInv stream) : ConnectInv (stream.next .expireHello) := by
  apply inv.keeps
  · intro timer member
    exact ((Queue.mem_waiting_finish _ _ _ _).mp member).1
  · exact (Queue.handlers_finish stream.timers .helloTimedOut .success).mem_iff.mpr
  · exact fun _ member => member
  · intro asleep
    obtain ⟨stopped, hello⟩ := inv.armed ((Queue.mem_waiting_finish _ _ _ _).mp asleep).1
    refine ⟨stopped, (helloCount_pos _).mpr (Or.inr ?_)⟩
    apply (Queue.mem_ready_finish _ _ _ _).mpr
    rcases (helloCount_pos _).mp hello with waits | due
    · exact Or.inr ⟨rfl, waits⟩
    · exact Or.inl due

/-- The session starts: the connect operation is woken before the datagram's handler
returns. -/
theorem started (inv : ConnectInv stream) (recv : ClientRecv) :
    ConnectInv { ({ stream with
        helloRetries := 0
        timers := stream.timers.cancel .helloTimedOut }.startSession recv.sending) with
      timers := ({ stream with
        helloRetries := 0
        timers := stream.timers.cancel .helloTimedOut }.startSession
          recv.sending).timers.cancel .pendingReadyConnect } := by
  have cancels : ∀ queue : Queue ClientTimer ClientHandler,
      (queue.cancel .helloTimedOut).handlers.Perm queue.handlers :=
    fun queue => Queue.handlers_finish queue .helloTimedOut .aborted
  have after : ∀ queue : Queue ClientTimer ClientHandler,
      (queue.cancel .pendingReadyConnect).handlers.Perm queue.handlers :=
    fun queue => Queue.handlers_finish queue .pendingReadyConnect .aborted
  have woken : ∀ queue : Queue ClientTimer ClientHandler,
      (ClientTimer.pendingReadyConnect, ClientHandler.connectOp) ∉
        (queue.cancel .pendingReadyConnect).waiting :=
    fun queue member => ((Queue.mem_waiting_finish _ _ _ _).mp member).2 rfl
  have before : ∀ (queue : Queue ClientTimer ClientHandler) (timer other : ClientTimer)
      (told : Completion), (timer, ClientHandler.connectOp) ∈ (queue.finish other told).waiting →
        (timer, ClientHandler.connectOp) ∈ queue.waiting :=
    fun queue timer other told member => ((Queue.mem_waiting_finish _ _ _ _).mp member).1
  unfold startSession
  dsimp only
  split
  · apply inv.keeps
    · exact fun timer member => before _ _ _ _ (before _ _ _ _ (before _ _ _ _ member))
    · exact (((after _).trans (cancels _)).trans (cancels _)).mem_iff.mpr
    · exact fun event member => List.mem_cons_of_mem _ member
    · exact fun asleep => absurd asleep (woken _)
  · apply inv.keeps
    · exact fun timer member => before _ _ _ _ (before _ _ _ _ member)
    · exact ((after _).trans (cancels _)).mem_iff.mpr
    · exact fun event member => List.mem_cons_of_mem _ member
    · exact fun asleep => absurd asleep (woken _)

/-- What the timers, the events and `running` do not say is of no account. -/
theorem same (inv : ConnectInv stream) (timers : later.timers = stream.timers)
    (events : later.events = stream.events)
    (running : later.session.running = stream.session.running) : ConnectInv later := by
  obtain ⟨session, socket, _, _, _⟩ := later
  dsimp only at timers events running
  subst timers events
  exact ⟨inv.timer, inv.held, fun asleep => ⟨running.trans (inv.armed asleep).1,
    (inv.armed asleep).2⟩⟩

theorem runReceive (inv : ConnectInv stream) (index : Nat) (recv : ClientRecv) :
    ConnectInv (stream.runReceive index recv) := by
  have spared := stream.session.spared_callbacks recv.received
  simp only [ClientStream.runReceive]
  split
  · unfold handleLowerRead
    split
    · exact inv.same rfl rfl rfl
    · split
      · have pushed : ConnectInv { stream with
            session := stream.session.callbacks recv.received
            socket := stream.socket.take index } := inv.same rfl rfl spared.running
        exact (pushed.started recv).same rfl rfl rfl
      · exact inv.same rfl rfl spared.running
  · exact inv

theorem next (inv : ConnectInv stream) (action : ClientAction) :
    ConnectInv (stream.next action) := by
  cases action with
  | expireHello => exact inv.expireHello
  | arrive error => exact inv.same rfl rfl rfl
  | runTimer index => exact inv.runTimer index
  | runReceive index recv => exact inv.runReceive index recv

/-- The close handler stops the Hello timer, but not a Hello handler that is due. -/
theorem closeHandler_helloCount (stream : ClientStream) : 0 < stream.closeHandler.helloCount ↔
    (ClientHandler.helloTimeout, Completion.success) ∈ stream.timers.ready := by
  rw [helloCount_pos]
  simp [ClientStream.closeHandler, Queue.cancel]

theorem closeHandler_asleep (stream : ClientStream) :
    stream.closeHandler.Asleep ↔ stream.Asleep := by
  simp [ClientStream.closeHandler, Asleep, Queue.cancel]

theorem closeHandler (inv : ConnectInv stream)
    (due : stream.Asleep → (ClientHandler.helloTimeout, Completion.success) ∈
      stream.timers.ready) : ConnectInv stream.closeHandler := by
  apply inv.keeps
  · exact fun timer member => ((Queue.mem_waiting_finish _ _ _ _).mp member).1
  · exact (Queue.handlers_finish stream.timers .helloTimedOut .aborted).mem_iff.mpr
  · exact fun _ member => member
  · intro asleep
    have before := (closeHandler_asleep stream).mp asleep
    exact ⟨(inv.armed before).1, (closeHandler_helloCount stream).mpr (due before)⟩

end ConnectInv

section Reports

variable {stream : ClientStream}

/-- A connect operation that is due reports once the session runs or the attempt has
been given up. -/
theorem reports_decided {completion : Completion}
    (due : (ClientHandler.connectOp, completion) ∈ stream.timers.ready)
    (decided : stream.session.running = true ∨ stream.helloRetries < 0) :
    Leads next Internal Reported stream := by
  obtain ⟨index, located⟩ := List.getElem?_of_mem due
  apply Leads.step (.runTimer index) trivial
  apply Leads.now
  simp only [next, runTimer, located, connectOp, connect]
  by_cases running : stream.session.running = true
  · simp only [running, ↓reduceIte]
    exact ⟨_, _, _, List.mem_cons_self⟩
  · have refused : stream.helloRetries < 0 := decided.resolve_left running
    simp only [running, refused, Bool.false_eq_true, ↓reduceIte]
    exact ⟨_, _, _, List.mem_cons_self⟩

/-- Each Hello timeout brings an attempt nearer to being given up. -/
theorem reports_asleep {retries : Nat} (bound : (6 - stream.helloRetries).toNat = retries)
    (asleep : stream.Asleep) (hello : 0 < stream.helloCount) :
    Leads next Internal Reported stream := by
  induction retries using Nat.strongRecOn generalizing stream with
  | ind retries ih =>
      have handled : ∀ ready : ClientStream, ready.helloRetries = stream.helloRetries →
          ready.Asleep → (ClientHandler.helloTimeout, Completion.success) ∈ ready.timers.ready →
            Leads next Internal Reported ready := by
        intro ready same waits due
        obtain ⟨index, located⟩ := List.getElem?_of_mem due
        apply Leads.step (.runTimer index) trivial
        simp only [next, runTimer, located, handleHelloTimeout, errorOf, ne_eq,
          not_true_eq_false, ↓reduceIte]
        split
        · apply @reports_decided _ .aborted
          · exact (Queue.mem_ready_finish _ _ _ _).mpr (Or.inr ⟨rfl, waits⟩)
          · exact Or.inr (by decide : (-1 : Int) < 0)
        · rename_i few
          apply ih (6 - (ready.helloRetries + 1)).toNat
          · rw [same] at few ⊢
            omega
          · rfl
          · apply (Queue.mem_waiting_asyncWait _ _ _ _).mpr
            exact Or.inl ((Queue.mem_waiting_finish _ _ _ _).mpr ⟨waits, by simp⟩)
          · exact (helloCount_pos _).mpr (Or.inl (ConnectInv.rearmed _))
      rcases (helloCount_pos stream).mp hello with waits | due
      · apply Leads.step .expireHello trivial
        apply handled
        · rfl
        · exact (Queue.mem_waiting_finish _ _ _ _).mpr ⟨asleep, by simp⟩
        · exact (Queue.mem_ready_finish _ _ _ _).mpr (Or.inr ⟨rfl, waits⟩)
      · exact handled stream rfl asleep due

/-- A connect operation that is due reports, or begins another attempt. -/
theorem reports_due {completion : Completion}
    (due : (ClientHandler.connectOp, completion) ∈ stream.timers.ready) :
    Leads next Internal Reported stream := by
  by_cases decided : stream.session.running = true ∨ stream.helloRetries < 0
  · exact reports_decided due decided
  · obtain ⟨stopped, going⟩ := not_or.mp decided
    obtain ⟨index, located⟩ := List.getElem?_of_mem due
    apply Leads.step (.runTimer index) trivial
    simp only [next, runTimer, located, connectOp, connect, stopped, going,
      handleHelloTimeout, note, Bool.false_eq_true, ↓reduceIte, ne_eq, not_true_eq_false,
      show ¬ (5 : Int) < 0 + 1 by decide]
    apply reports_asleep rfl
    · exact (Queue.mem_waiting_asyncWait _ _ _ _).mpr (Or.inr rfl)
    · apply (helloCount_pos _).mpr
      exact Or.inl ((Queue.mem_waiting_asyncWait _ _ _ _).mpr (Or.inl (ConnectInv.rearmed _)))

theorem ConnectInv.attended (inv : ConnectInv stream) : stream.ConnectAttended where
  armed := inv.armed
  reports := by
    rcases inv.held with reported | inside
    · exact .now reported
    · rcases (Queue.mem_handlers _ _).mp inside with ⟨timer, waits⟩ | ⟨completion, due⟩
      · cases timer with
        | helloTimedOut => exact absurd waits inv.timer
        | pendingReadyConnect => exact reports_asleep rfl waits (inv.armed waits).2
      · exact reports_due due

end Reports

end ClientStream

namespace Client

/-- The stream's connect operation is not orphaned. -/
def ConnectAttended (client : Client) : Prop := client.stream.ConnectAttended

variable {client : Client}

end Client

end CurvecprAsio
