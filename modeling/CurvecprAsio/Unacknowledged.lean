import CurvecprAsio.Rule
import CurvecprAsio.View

set_option autoImplicit false

/- What a session shows libcurvecpr of its receive queue: the blocks to acknowledge.
Reads change nothing of it. -/
namespace CurvecprAsio

open Strand Transition SearchTree

/-- What happens to the blocks that are to be acknowledged. -/
inductive AckEvent where
  | put (block : Block)
  | removeRange (start stop : Nat)
  | closed

/-- The blocks to acknowledge, in the order of their ranges, after an event. -/
def AckEvent.apply (blocks : List Block) : AckEvent → List Block
  | .put block => blocks.orderedInsert (fun first second => first.before second) block
  | .removeRange start stop => blocks.filter fun block => !block.inRange start stop
  | .closed => []

/-- The blocks of the queue without the acknowledged flag. -/
def unacknowledgedBlocks (queue : List BlockStatus) : List Block :=
  (queue.filter fun element => !element.acknowledged).map BlockStatus.block

theorem unacknowledgedBlocks_cons (element : BlockStatus) (rest : List BlockStatus) :
    unacknowledgedBlocks (element :: rest) =
      if element.acknowledged then unacknowledgedBlocks rest
      else element.block :: unacknowledgedBlocks rest := by
  simp only [unacknowledgedBlocks, List.filter_cons]
  cases element.acknowledged <;> rfl

theorem unacknowledgedBlocks_orderedInsert {element : BlockStatus} {queue : List BlockStatus}
    (new : element.acknowledged = false) (sorted : Ordered blockRangeCompare queue) :
    unacknowledgedBlocks
        (queue.orderedInsert (fun first second => blockRangeCompare first second) element) =
      (unacknowledgedBlocks queue).orderedInsert (fun first second => first.before second)
        element.block := by
  have inserted := filter_orderedInsert blockRangeCompare_weakOrder
    (fun element => !element.acknowledged) element sorted
  simp only [new, Bool.not_false, ↓reduceIte] at inserted
  simp only [unacknowledgedBlocks, inserted]
  apply List.map_orderedInsert
  · intro other _
    exact Iff.rfl
  · intro other _
    exact Iff.rfl

/-- A range takes away the blocks inside it. -/
theorem unacknowledgedBlocks_acknowledge (start stop : Nat) (queue : List BlockStatus) :
    unacknowledgedBlocks (queue.filterMap (Session.acknowledge start stop)) =
      (unacknowledgedBlocks queue).filter fun block => !block.inRange start stop := by
  induction queue with
  | nil => rfl
  | cons element rest ih =>
      rw [unacknowledgedBlocks_cons]
      by_cases inside : element.block.inRange start stop = true
      · have gone : unacknowledgedBlocks
            ((element :: rest).filterMap (Session.acknowledge start stop)) =
            unacknowledgedBlocks (rest.filterMap (Session.acknowledge start stop)) := by
          rw [List.filterMap_cons]
          simp only [Session.acknowledge, inside, ↓reduceIte]
          split
          · rfl
          · rename_i kept stays
            split at stays
            · cases stays
            · cases stays
              exact unacknowledgedBlocks_cons _ _
        rw [gone, ih]
        split
        · rfl
        · simp [inside]
      · have kept : Session.acknowledge start stop element = some element := by
          simp [Session.acknowledge, inside]
        rw [List.filterMap_cons_some kept, unacknowledgedBlocks_cons, ih]
        split
        · rfl
        · simp [inside]

/-- A read removes only what has been acknowledged. -/
theorem unacknowledgedBlocks_readLoop (queue : List BlockStatus) (pass : ReadPass) :
    unacknowledgedBlocks (readLoop queue pass).1 = unacknowledgedBlocks queue := by
  induction queue generalizing pass with
  | nil => rfl
  | cons element rest ih =>
      simp only [readLoop]
      split
      · split
        · rfl
        · rw [unacknowledgedBlocks_cons,
            ← ih ((pass.consume element.block).1.distribute element.block)]
          cases acknowledged : element.acknowledged with
          | true => simp only [BlockStatus.done, Bool.true_and, ↓reduceIte]
          | false =>
              simp only [BlockStatus.done, Bool.and_false, Bool.false_eq_true, ↓reduceIte,
                unacknowledgedBlocks_cons]
      · rfl

namespace Session

/-- The blocks that `handle_recvmarkq_get_nth_unacknowledged` counts. -/
def unacknowledged (s : Session) : List Block := unacknowledgedBlocks s.recvmarkq

theorem handleRecvmarkqGetNthUnacknowledged_eq (s : Session) (n : Nat) :
    s.handleRecvmarkqGetNthUnacknowledged n = s.unacknowledged[n]? :=
  List.getElem?_map.symm

/-- What a piece of a step does to the blocks to acknowledge. -/
def ackEvents (s : Session) : PartyAction → List AckEvent
  | .callback (.recvmarkqPut block) =>
      if (s.handleRecvmarkqPut block).ret = 0 then [.put block] else []
  | .callback (.recvmarkqRemoveRange start stop) => [.removeRange start stop]
  | .doClose => [.closed]
  | _ => []

theorem sorted_invariant : DataInvariant (fun _ => True) Sorted where
  strand := fun _ _ _ sorted => sorted
  runs := fun _ sorted => sorted
  callback := by
    intro s callback _ sorted
    rcases s.receiveState_callback callback with ⟨block, rfl⟩ | ⟨start, stop, rfl⟩ | same
    · exact sorted.put block
    · exact sorted.removeRange start stop
    · simp only [receiveState, Prod.mk.injEq] at same
      unfold Sorted
      rw [same.1]
      exact sorted
  write := by
    intro s buffer sorted
    have same := s.receiveState_write buffer
    simp only [receiveState, Prod.mk.injEq] at same
    unfold Sorted
    rw [same.1]
    exact sorted
  read := fun _ buffer sorted => sorted.read buffer
  closing := fun _ sorted => sorted
  doClose := fun _ _ => List.Pairwise.nil

theorem unacknowledged_put {s : Session} (sorted : s.Sorted) (block : Block) :
    (s.handleRecvmarkqPut block).session.unacknowledged =
      (s.ackEvents (.callback (.recvmarkqPut block))).foldl AckEvent.apply s.unacknowledged := by
  by_cases full : s.recvmarkqMaximum ≤ s.recvmarkq.length
  · simp [ackEvents, handleRecvmarkqPut, full]
  · simp only [ackEvents, handleRecvmarkqPut, full, and_false, ↓reduceIte, List.foldl_cons,
      List.foldl_nil, AckEvent.apply, unacknowledged]
    exact unacknowledgedBlocks_orderedInsert rfl sorted

theorem unacknowledged_read (s : Session) (buffer : Buffer) :
    (s.read buffer).session.unacknowledged = s.unacknowledged := by
  by_cases empty : buffer.length = 0
  · simp only [Session.read, empty, ↓reduceIte]
    rfl
  · simp only [unacknowledged, (s.read_spec empty).queue]
    exact unacknowledgedBlocks_readLoop _ _

/-- The blocks to acknowledge follow the events of each piece. -/
theorem unacknowledged_party {party : Party} (sorted : party.session.Sorted)
    (action : PartyAction) : (party.next action).session.unacknowledged =
      (party.session.ackEvents action).foldl AckEvent.apply party.session.unacknowledged := by
  have same : ∀ later : Session, later.receiveState = party.session.receiveState →
      later.unacknowledged = party.session.unacknowledged := by
    intro later kept
    simp only [receiveState, Prod.mk.injEq] at kept
    rw [unacknowledged, kept.1, unacknowledged]
  cases action with
  | callback callback =>
      simp only [Party.next, Party.session_callback]
      rcases party.session.receiveState_callback callback with
        ⟨block, rfl⟩ | ⟨start, stop, rfl⟩ | kept
      · exact unacknowledged_put sorted block
      · exact unacknowledgedBlocks_acknowledge start stop party.session.recvmarkq
      · cases callback with
        | recvmarkqPut block => exact unacknowledged_put sorted block
        | recvmarkqRemoveRange start stop =>
            exact unacknowledgedBlocks_acknowledge start stop party.session.recvmarkq
        | _ => exact same _ kept
  | write buffer => exact same _ (party.session.receiveState_write buffer)
  | read buffer => exact party.session.unacknowledged_read buffer
  | doClose => rfl
  | _ => rfl

end Session

/-- The events of several pieces. -/
def Party.ackTrace (party : Party) : List PartyAction → List AckEvent
  | [] => []
  | action :: rest => party.session.ackEvents action ++ (party.next action).ackTrace rest

theorem Party.unacknowledged_run {party : Party} (sorted : party.session.Sorted)
    (actions : List PartyAction) : (actions.foldl Party.next party).session.unacknowledged =
      (party.ackTrace actions).foldl AckEvent.apply party.session.unacknowledged := by
  induction actions generalizing party with
  | nil => rfl
  | cons action rest ih =>
      have after : (party.next action).session.Sorted :=
        Session.sorted_invariant.party sorted fun _ _ => trivial
      rw [List.foldl_cons, ih after, Session.unacknowledged_party sorted, ackTrace,
        List.foldl_append]

namespace Service

/-- The session at the start of a step. -/
def party (service : Service) : Party := { session := service.session }

/-- The events of a run. -/
def ackTrace (service : Service) : List ServiceAction → List AckEvent
  | [] => []
  | action :: rest => service.party.ackTrace (service.steps action) ++
      (service.next action).ackTrace rest

theorem unacknowledged_run {service : Service} (holds : service.Holds Session.Sorted)
    {actions : List ServiceAction} (possible : AllMet Service.next Service.Possible service actions) :
    (actions.foldl Service.next service).session.Sorted ∧
      (actions.foldl Service.next service).session.unacknowledged =
        (service.ackTrace actions).foldl AckEvent.apply service.session.unacknowledged := by
  induction actions generalizing service with
  | nil => exact ⟨holds.data, rfl⟩
  | cons action rest ih =>
      have after : (service.next action).Holds Session.Sorted :=
        Session.sorted_invariant.next holds possible.1 fun _ _ => trivial
      have steps : ((service.steps action).foldl Party.next service.party).session =
          (service.next action).session := Service.session_steps possible.1 holds.posted rfl
      have step := service.party.unacknowledged_run holds.data (service.steps action)
      rw [steps] at step
      obtain ⟨sorted, run⟩ := ih after possible.2
      refine ⟨sorted, ?_⟩
      rw [List.foldl_cons, run, step, ackTrace, List.foldl_append]
      rfl

end Service

/-- Between the pieces of any step of any run, what libcurvecpr can ask for are the blocks
it put and has not taken away, in the order of their ranges. Reads do not change it, and an
empty queue means that there are none. -/
theorem acknowledgments_follow_what_was_put {session : Session} (empty : session.recvmarkq = [])
    (idle : session.operations = []) {actions : List ServiceAction}
    (possible : AllMet Service.next Service.Possible { session := session } actions)
    (action : ServiceAction) (count : Nat) :
    let later := actions.foldl Service.next { session := session }
    let pieces := (later.steps action).take count
    let blocks := (Service.ackTrace { session := session } actions ++
      later.party.ackTrace pieces).foldl AckEvent.apply []
    let now := (pieces.foldl Party.next later.party).session
    (∀ n, now.handleRecvmarkqGetNthUnacknowledged n = blocks[n]?) ∧
      (now.handleRecvmarkqIsEmpty = true → blocks = []) := by
  intro later pieces blocks now
  have initial : Service.Holds Session.Sorted { session := session } := by
    refine ⟨?_, ?_, ?_⟩
    · unfold Session.Sorted
      rw [empty]
      exact List.Pairwise.nil
    · intro operation member
      rw [idle] at member
      cases member
    · intro operation member
      cases member
  obtain ⟨sorted, run⟩ := Service.unacknowledged_run initial possible
  have before : session.unacknowledged = [] := by
    rw [Session.unacknowledged, empty]
    rfl
  have shown : now.unacknowledged = blocks := by
    have partly := later.party.unacknowledged_run sorted pieces
    rw [partly, Service.party, run, before]
    exact List.foldl_append.symm
  constructor
  · intro n
    rw [Session.handleRecvmarkqGetNthUnacknowledged_eq, shown]
  · intro isEmpty
    have nothing : now.recvmarkq = [] := List.isEmpty_iff.mp isEmpty
    rw [← shown, Session.unacknowledged, nothing]
    rfl

/-- The third block is refused, the first is read before it is acknowledged and the second
acknowledged before it is read. -/
theorem acknowledgments_follow_what_was_put_read :
    let first : Block := { id := 1, clock := 1, data := [7, 8] }
    let second : Block := { id := 2, clock := 2, offset := 2, data := [9] }
    let session : Session := { recvmarkqMaximum := 2 }
    let actions : List ServiceAction :=
      [.start, .receive [.recvmarkqPut second, .recvmarkqPut first, .recvmarkqPut first],
        .receive [.recvmarkqRemoveRange 2 3], .beginInside 1 (.read ⟨[0, 0], by decide⟩) []]
    let later := actions.foldl Service.next { session := session }
    later.session.handleRecvmarkqGetNthUnacknowledged 0 = some first ∧
      later.session.handleRecvmarkqGetNthUnacknowledged 1 = none := by
  intro first second session actions later
  have possible : AllMet Service.next Service.Possible { session := session } actions := by
    decide
  have empty : session.recvmarkq = [] := rfl
  obtain ⟨each, _⟩ := acknowledgments_follow_what_was_put empty rfl possible .start 0
  simp only [List.take_zero, List.foldl_nil, Party.ackTrace, List.append_nil,
    Service.party] at each
  have blocks : (Service.ackTrace { session := session } actions).foldl AckEvent.apply [] =
      [first] := by decide
  rw [blocks] at each
  exact ⟨each 0, each 1⟩

end CurvecprAsio
