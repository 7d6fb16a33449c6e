import CurvecprAsio.Hosts
import CurvecprAsio.Memory
import CurvecprAsio.Retransmit

set_option autoImplicit false

/- Which block libcurvecpr finds for the id of an acknowledged message: one whose last
message had that id, with the clock of that message. -/
namespace CurvecprAsio

open Strand Transition SearchTree

/-- A message on the wire, with the number that its block is or will be allocated. -/
structure Transmission where
  number : Nat
  block : Block
  deriving DecidableEq, Repr

/-- The last message of a block; the newest messages come first. -/
def lastSent (log : List Transmission) (number : Nat) : Option Transmission :=
  log.find? fun sent => sent.number = number

theorem lastSent_cons_same (sent : Transmission) (log : List Transmission) :
    lastSent (sent :: log) sent.number = some sent := by
  simp [lastSent]

theorem lastSent_cons_other {sent : Transmission} {number : Nat} (other : sent.number ≠ number)
    (log : List Transmission) : lastSent (sent :: log) number = lastSent log number := by
  simp [lastSent, other]

/-- Nothing newer is of the same block. -/
theorem lastSent_eq_some {log : List Transmission} {number : Nat} {sent : Transmission} :
    lastSent log number = some sent ↔ sent.number = number ∧ ∃ newer older,
      log = newer ++ sent :: older ∧ ∀ other ∈ newer, other.number ≠ number := by
  simp [lastSent, List.find?_eq_some_iff_append]

namespace Party

/-- The message that a piece of a step puts on the wire. -/
def transmissions (party : Party) : PartyAction → List Transmission
  | .callback (.stampHead id clock offset) =>
      [{ number := party.session.allocated + 1
         block := (party.session.stampHead id clock offset).sendqHead }]
  | .callback (.resend _ pointer id clock) =>
      (((party.session.stampSent pointer id clock).sendmarkq.toList.find? fun sent =>
        sent.pointer = pointer).map fun sent => ⟨sent.pointer, sent.block⟩).toList
  | _ => []

/-- The messages of several pieces, the newest first. -/
def log (party : Party) : List PartyAction → List Transmission
  | [] => []
  | action :: rest => (party.next action).log rest ++ party.transmissions action

/-- libcurvecpr sends and moves a head that is there, and gives each message an id of its
own. -/
def sends (party : Party) : PartyAction → Guard
  | .callback (.stampHead id _ _) => .of (party.finished = false ∧
      party.session.sendqHeadExists = true ∧ ∀ block ∈ party.wire, block.id ≠ id)
  | .callback (.sendqMoveToSendmarkq _) => .of (party.finished = false ∧ party.headSent = true)
  | .callback (.resend _ _ id _) => .of (∀ block ∈ party.wire, block.id ≠ id)
  | _ => .free

abbrev Sends (party : Party) (action : PartyAction) : Prop := (party.sends action).holds

end Party

namespace Session

/-- The blocks sent or about to be sent. -/
def sendState (s : Session) : Nat × SearchTree.Tree SentBlock × Bool × Block :=
  (s.allocated, s.sendmarkq, s.sendqHeadExists, s.sendqHead)

theorem sendmarkq_handleSendqHead (s : Session) :
    s.handleSendqHead.session.sendmarkq = s.sendmarkq ∧
      s.handleSendqHead.session.allocated = s.allocated := by
  unfold handleSendqHead takeHead
  repeat' split
  all_goals exact ⟨rfl, rfl⟩

theorem sendState_put (s : Session) (block : Block) :
    (s.handleRecvmarkqPut block).session.sendState = s.sendState := by
  rcases s.handleRecvmarkqPut_cases block with ⟨refused, _⟩ | ⟨_, queue, strand, stored, _⟩
  · rw [refused]
  · rw [stored]
    rfl

theorem sendState_write (s : Session) (buffer : Buffer) :
    (s.write buffer).session.sendState = s.sendState := by
  obtain ⟨pending, next, used, strand, changed⟩ := s.write_changes buffer
  rw [changed]
  rfl

theorem sendState_read (s : Session) (buffer : Buffer) :
    (s.read buffer).session.sendState = s.sendState := by
  obtain ⟨queue, distributed, offset, ended, contiguous, changed⟩ := s.read_changes buffer
  rw [changed]
  rfl

end Session

/-- A block that is sent again goes on the wire as it is stamped, if it is queued. -/
theorem Party.transmissions_resend (party : Party) (balance : Balance SentBlock)
    (pointer id : Nat) (clock : Int) :
    let action := PartyAction.callback (.resend balance pointer id clock)
    ((∀ old ∈ party.session.sendmarkq.toList, old.pointer ≠ pointer) ∧
        party.transmissions action = [] ∧ (party.next action).wire = party.wire) ∨
      ∃ old ∈ party.session.sendmarkq.toList, old.pointer = pointer ∧
        party.transmissions action = [⟨pointer, Session.stamp id clock old.block⟩] ∧
        (party.next action).wire = Session.stamp id clock old.block :: party.wire := by
  intro action
  have stampedList : (party.session.stampSent pointer id clock).sendmarkq.toList =
      party.session.sendmarkq.toList.map (Session.stampPointer pointer id clock) :=
    Tree.toList_map _ _
  have wire : (party.next action).wire =
      ((((party.session.stampSent pointer id clock).sendmarkq.toList.find? fun sent =>
        sent.pointer = pointer).map SentBlock.block).toList ++ party.wire) := rfl
  rw [wire]
  simp only [action, transmissions]
  cases looked : (party.session.stampSent pointer id clock).sendmarkq.toList.find? fun sent =>
      sent.pointer = pointer with
  | none =>
      refine Or.inl ⟨?_, rfl, rfl⟩
      intro old inside
      rw [stampedList] at looked
      have nowhere := List.find?_eq_none.mp looked _ (List.mem_map_of_mem inside)
      simpa [Session.stampPointer_pointer] using nowhere
  | some sent =>
      have isPointer : sent.pointer = pointer := by simpa using List.find?_some looked
      have member := List.mem_of_find?_eq_some looked
      rw [stampedList] at member
      obtain ⟨old, inside, rfl⟩ := List.mem_map.mp member
      have same : old.pointer = pointer := by rw [← isPointer, Session.stampPointer_pointer]
      refine Or.inr ⟨old, inside, same, ?_, ?_⟩
      · simp [Session.stampPointer, same]
      · simp [Session.stampPointer, same]

/-- A head that has been sent stays as it is until it is sent again or moved. -/
theorem Party.head_next {party : Party} {action : PartyAction}
    (allocated : ∀ sent ∈ party.session.sendmarkq.toList, sent.pointer ≠ Session.headPointer)
    (other : ∀ id clock offset, action ≠ .callback (.stampHead id clock offset))
    (unfinished : (party.next action).finished = false)
    (headSent : (party.next action).headSent = true) :
    party.finished = false ∧ party.headSent = true ∧ (party.session.sendqHeadExists = true →
      (party.next action).session.sendqHeadExists = true ∧
        (party.next action).session.sendqHead = party.session.sendqHead) := by
  have same : ∀ later : Session, later.sendState = party.session.sendState →
      party.session.sendqHeadExists = true →
        later.sendqHeadExists = true ∧ later.sendqHead = party.session.sendqHead := by
    intro later kept exists_
    simp only [Session.sendState, Prod.mk.injEq] at kept
    exact ⟨kept.2.2.1.trans exists_, kept.2.2.2⟩
  cases action with
  | callback callback =>
      cases callback with
      | stampHead id clock offset => exact absurd rfl (other id clock offset)
      | sendqMoveToSendmarkq balance =>
          simp only [Party.next, Party.callback, Party.move, Bool.and_eq_true] at headSent
          refine ⟨unfinished, headSent.1, fun _ => ⟨headSent.2, ?_⟩⟩
          obtain ⟨allocated, queue, remains, changed, _⟩ :=
            party.session.move_changes balance party.session.headBlock
          simp only [Party.next, Party.session_callback, Session.callback, changed]
      | resend balance pointer id clock =>
          refine ⟨unfinished, headSent, fun exists_ => ?_⟩
          obtain ⟨sendmarkq, resent, _⟩ :=
            party.session.resend_cases balance pointer id clock allocated
          simp only [Party.next, Party.session_callback, Session.callback, resent]
          exact ⟨exists_, trivial⟩
      | sendqHead =>
          refine ⟨unfinished, headSent, fun exists_ => ?_⟩
          simp only [Party.next, Party.session_callback, Session.callback,
            Session.handleSendqHead, exists_, ↓reduceIte, and_self]
      | recvmarkqPut block =>
          exact ⟨unfinished, headSent, same _ (party.session.sendState_put block)⟩
      | _ => exact ⟨unfinished, headSent, fun exists_ => ⟨exists_, rfl⟩⟩
  | write buffer =>
      exact ⟨unfinished, headSent, same _ (party.session.sendState_write buffer)⟩
  | read buffer => exact ⟨unfinished, headSent, same _ (party.session.sendState_read buffer)⟩
  | doClose => cases unfinished
  | _ => exact ⟨unfinished, headSent, fun exists_ => ⟨exists_, rfl⟩⟩

/-- The log is that of the wire, every id in it is of one message, and every queued block
is as it was in its last message. So is a head that has been sent. -/
structure Attributed (log : List Transmission) (party : Party) : Prop where
  wire : log.map Transmission.block = party.wire
  ids : (party.wire.map Block.id).Nodup
  queued : ∀ sent ∈ party.session.sendmarkq.toList,
    lastSent log sent.pointer = some ⟨sent.pointer, sent.block⟩
  pointers : ∀ sent ∈ party.session.sendmarkq.toList,
    sent.pointer ≠ Session.headPointer ∧ sent.pointer ≤ party.session.allocated
  head : party.finished = false → party.headSent = true →
    party.session.sendqHeadExists = true ∧ lastSent log (party.session.allocated + 1) =
      some ⟨party.session.allocated + 1, party.session.sendqHead⟩

namespace Attributed

variable {log : List Transmission} {party : Party}

/-- A piece that sends nothing and changes no block. -/
theorem quiet (attributed : Attributed log party) {action : PartyAction}
    (other : ∀ id clock offset, action ≠ .callback (.stampHead id clock offset))
    (wire : (party.next action).wire = party.wire)
    (allocated : (party.next action).session.allocated = party.session.allocated)
    (fewer : (party.next action).session.sendmarkq.toList ⊆ party.session.sendmarkq.toList) :
    Attributed log (party.next action) := by
  refine ⟨?_, ?_, ?_, ?_, ?_⟩
  · rw [wire]
    exact attributed.wire
  · rw [wire]
    exact attributed.ids
  · exact fun sent member => attributed.queued sent (fewer member)
  · rw [allocated]
    exact fun sent member => attributed.pointers sent (fewer member)
  · intro unfinished headSent
    obtain ⟨before, wasSent, same⟩ := Party.head_next
      (fun sent member => (attributed.pointers sent member).1) other unfinished headSent
    obtain ⟨exists_, last⟩ := attributed.head before wasSent
    obtain ⟨stays, unchanged⟩ := same exists_
    rw [allocated, unchanged]
    exact ⟨stays, last⟩

/-- The head goes on the wire, once or again. -/
theorem stampHead (attributed : Attributed log party) {id : Nat} {clock : Int} {offset : Nat}
    (exists_ : party.session.sendqHeadExists = true)
    (fresh : ∀ block ∈ party.wire, block.id ≠ id) :
    Attributed ({ number := party.session.allocated + 1
                  block := (party.session.stampHead id clock offset).sendqHead } :: log)
      (party.stampHead id clock offset) := by
  refine ⟨?_, ?_, ?_, attributed.pointers, ?_⟩
  · rw [List.map_cons, attributed.wire]
    rfl
  · apply List.nodup_cons.mpr
    refine ⟨?_, attributed.ids⟩
    intro member
    obtain ⟨block, inside, same⟩ := List.mem_map.mp member
    exact fresh block inside same
  · intro sent member
    have allocated := (attributed.pointers sent member).2
    rw [lastSent_cons_other (by dsimp only; omega)]
    exact attributed.queued sent member
  · exact fun _ _ => ⟨exists_, lastSent_cons_same _ _⟩

/-- A head that has been sent becomes the block of the next number. -/
theorem moveHead (attributed : Attributed log party) (unfinished : party.finished = false)
    (headSent : party.headSent = true) (balance : Balance SentBlock) :
    Attributed log (party.next (.callback (.sendqMoveToSendmarkq balance))) := by
  obtain ⟨exists_, last⟩ := attributed.head unfinished headSent
  rcases party.session.handleSendqMoveToSendmarkq_cases balance party.session.headBlock with
    same | ⟨notHead, _⟩ | ⟨_, _, _, stored⟩
  · apply attributed.quiet
    · simp
    · rfl
    · simp only [Party.next, Party.session_callback, Session.callback, same]
    · simp only [Party.next, Party.session_callback, Session.callback, same]
      exact fun _ member => member
  · rcases notHead with absent | other
    · rw [exists_] at absent
      cases absent
    · exact absurd rfl other
  · have inserted : ∀ sent ∈ (party.next (.callback (.sendqMoveToSendmarkq balance))
        ).session.sendmarkq.toList,
        sent = ⟨party.session.allocated + 1, party.session.sendqHead⟩ ∨
          sent ∈ party.session.sendmarkq.toList := by
      intro sent member
      simp only [Party.next, Party.session_callback, Session.callback, stored,
        Balance.toList_run] at member
      exact (Tree.mem_insert _ _ _ _).mp member
    have allocated : (party.next (.callback (.sendqMoveToSendmarkq balance))
        ).session.allocated = party.session.allocated + 1 := by
      simp only [Party.next, Party.session_callback, Session.callback, stored]
    refine ⟨attributed.wire, attributed.ids, ?_, ?_, ?_⟩
    · intro sent member
      rcases inserted sent member with rfl | old
      · exact last
      · exact attributed.queued sent old
    · intro sent member
      rw [allocated]
      rcases inserted sent member with rfl | old
      · exact ⟨Nat.succ_ne_zero _, Nat.le_refl _⟩
      · have known := attributed.pointers sent old
        exact ⟨known.1, Nat.le_succ_of_le known.2⟩
    · intro _ stays
      simp only [Party.next, Party.callback, Party.move, stored, Bool.and_false] at stays
      cases stays

/-- What a resend leaves in the send queue is stamped. -/
theorem session_resend (attributed : Attributed log party) (balance : Balance SentBlock)
    (pointer id : Nat) (clock : Int) : ∃ sendmarkq,
      (party.next (.callback (.resend balance pointer id clock))).session =
        { party.session with sendmarkq := sendmarkq } ∧
      ∀ sent ∈ sendmarkq.toList, ∃ old ∈ party.session.sendmarkq.toList,
        sent = Session.stampPointer pointer id clock old := by
  have allocated : ∀ sent ∈ party.session.sendmarkq.toList, sent.pointer ≠ Session.headPointer :=
    fun sent member => (attributed.pointers sent member).1
  obtain ⟨sendmarkq, resent, _⟩ := party.session.resend_cases balance pointer id clock allocated
  refine ⟨sendmarkq, ?_, ?_⟩
  · simp only [Party.next, Party.session_callback, Session.callback, resent]
  · intro sent member
    obtain ⟨old, inside, same⟩ :=
      List.mem_map.mp (Session.resend_subset balance allocated resent sent member)
    exact ⟨old, inside, same.symm⟩

/-- Copies of one block are alike, and stamped alike. -/
theorem lastSent_resend (attributed : Attributed log party) {old sent : SentBlock} (id : Nat)
    (clock : Int) (inside : old ∈ party.session.sendmarkq.toList)
    (member : sent ∈ party.session.sendmarkq.toList) :
    let stamped := Session.stampPointer old.pointer id clock sent
    lastSent (⟨old.pointer, Session.stamp id clock old.block⟩ :: log) stamped.pointer =
      some ⟨stamped.pointer, stamped.block⟩ := by
  intro stamped
  have last := attributed.queued sent member
  by_cases same : sent.pointer = old.pointer
  · rw [same, attributed.queued old inside] at last
    have alike : old.block = sent.block :=
      congrArg Transmission.block (Option.some.inj last)
    have isStamped : stamped = ⟨old.pointer, Session.stamp id clock old.block⟩ := by
      simp only [stamped, Session.stampPointer, same, ↓reduceIte, alike]
    rw [isStamped]
    exact lastSent_cons_same _ _
  · have isSent : stamped = sent := Session.stampPointer_other same
    rw [isSent, lastSent_cons_other (Ne.symm same)]
    exact last

/-- Every copy of the block that is sent again is stamped, and no other block. -/
theorem resend (attributed : Attributed log party) {balance : Balance SentBlock}
    {pointer id : Nat} {clock : Int} (fresh : ∀ block ∈ party.wire, block.id ≠ id) :
    Attributed (party.transmissions (.callback (.resend balance pointer id clock)) ++ log)
      (party.next (.callback (.resend balance pointer id clock))) := by
  obtain ⟨sendmarkq, session, stamped⟩ := attributed.session_resend balance pointer id clock
  rcases party.transmissions_resend balance pointer id clock with
    ⟨absent, nothing, wire⟩ | ⟨old, inside, rfl, message, wire⟩
  · rw [nothing, List.nil_append]
    apply attributed.quiet (by simp) wire
    · rw [session]
    · rw [session]
      intro sent member
      obtain ⟨old, inside, rfl⟩ := stamped sent member
      rw [Session.stampPointer_other (absent old inside)]
      exact inside
  · rw [message, List.singleton_append]
    refine ⟨?_, ?_, ?_, ?_, ?_⟩
    · rw [wire, List.map_cons, attributed.wire]
    · rw [wire]
      apply List.nodup_cons.mpr
      refine ⟨?_, attributed.ids⟩
      intro repeated
      obtain ⟨earlier, onWire, same⟩ := List.mem_map.mp repeated
      exact fresh earlier onWire same
    · rw [session]
      intro sent member
      obtain ⟨before, wasInside, rfl⟩ := stamped sent member
      exact attributed.lastSent_resend id clock inside wasInside
    · rw [session]
      intro sent member
      obtain ⟨before, wasInside, rfl⟩ := stamped sent member
      rw [Session.stampPointer_pointer]
      exact attributed.pointers before wasInside
    · intro unfinished headSent
      obtain ⟨exists_, last⟩ := attributed.head unfinished headSent
      have allocated := (attributed.pointers old inside).2
      rw [session, lastSent_cons_other (by dsimp only; omega)]
      exact ⟨exists_, last⟩

theorem next (attributed : Attributed log party) {action : PartyAction}
    (sends : party.Sends action) :
    Attributed (party.transmissions action ++ log) (party.next action) := by
  -- a piece that leaves the send queue as it is
  have alone : ∀ action : PartyAction,
      (∀ id clock offset, action ≠ .callback (.stampHead id clock offset)) →
      (party.next action).wire = party.wire →
      (party.next action).session.sendState = party.session.sendState →
      Attributed log (party.next action) := by
    intro action other wire same
    simp only [Session.sendState, Prod.mk.injEq] at same
    apply attributed.quiet other wire same.1
    rw [same.2.1]
    exact fun _ member => member
  cases action with
  | callback callback =>
      cases callback with
      | stampHead id clock offset =>
          obtain ⟨_, exists_, fresh⟩ := sends
          exact attributed.stampHead exists_ fresh
      | sendqMoveToSendmarkq balance => exact attributed.moveHead sends.1 sends.2 balance
      | resend balance pointer id clock => exact attributed.resend sends
      | sendqHead =>
          obtain ⟨sendmarkq, allocated⟩ := party.session.sendmarkq_handleSendqHead
          apply attributed.quiet
          · simp
          · rfl
          · exact allocated
          · exact fun sent member => sendmarkq ▸ member
      | sendmarkqRemoveRange balance start stop =>
          apply attributed.quiet
          · simp
          · rfl
          · rfl
          · intro sent member
            simp only [Party.next, Party.session_callback, Session.callback,
              Session.handleSendmarkqRemoveRange, Balance.toList_run, Tree.toList_filter] at member
            exact List.mem_of_mem_filter member
      | recvmarkqPut block => exact alone _ (by simp) rfl (party.session.sendState_put block)
      | recvmarkqRemoveRange start stop => exact alone _ (by simp) rfl rfl
      | messager messager => exact alone _ (by simp) rfl rfl
  | write buffer => exact alone _ (by simp) rfl (party.session.sendState_write buffer)
  | read buffer => exact alone _ (by simp) rfl (party.session.sendState_read buffer)
  | doClose => exact attributed.quiet (by simp) rfl rfl (List.nil_subset _)
  | runs => exact alone _ (by simp) rfl rfl
  | strand queue calls => exact alone _ (by simp) rfl rfl
  | closing => exact alone _ (by simp) rfl rfl

theorem run (attributed : Attributed log party) {actions : List PartyAction}
    (sends : AllMet Party.next Party.Sends party actions) :
    Attributed (party.log actions ++ log) (actions.foldl Party.next party) := by
  induction actions generalizing log party with
  | nil => exact attributed
  | cons action rest ih =>
      have after := ih (attributed.next sends.1) sends.2
      rw [← List.append_assoc] at after
      exact after

theorem initial {session : Session} (fresh : session.Fresh) :
    Attributed [] { session := session } := by
  refine ⟨rfl, List.nodup_nil, ?_, ?_, ?_⟩
  · intro sent member
    rw [fresh.sendmarkq] at member
    cases member
  · intro sent member
    rw [fresh.sendmarkq] at member
    cases member
  · intro _ headSent
    cases headSent

theorem one (attributed : Attributed log party) {newer older : List Transmission}
    {sent : Transmission} (log_ : log = newer ++ sent :: older) :
    ∀ other ∈ newer ++ older, other.block.id ≠ sent.block.id := by
  have ids := attributed.ids
  rw [← attributed.wire, List.map_map, log_, List.map_append, List.map_cons] at ids
  have apart := (List.nodup_middle.mp ids)
  intro other member same
  apply (List.nodup_cons.mp apart).1
  rw [← List.map_append]
  exact List.mem_map.mpr ⟨other, member, same⟩

/-- What an id finds is a block whose last message had it. -/
theorem found (attributed : Attributed log party) {id : Nat} {sent : SentBlock}
    (found : party.session.handleSendmarkqGet id = some sent) :
    sent ∈ party.session.sendmarkq.toList ∧ sent.block.id = id ∧ ∃ newer older,
      log = newer ++ ⟨sent.pointer, sent.block⟩ :: older ∧
        (∀ other ∈ newer, other.number ≠ sent.pointer) ∧
        ∀ other ∈ newer ++ older, other.block.id ≠ id := by
  have member := List.mem_of_find?_eq_some found
  have isId : sent.block.id = id := by simpa using List.find?_some found
  obtain ⟨_, newer, older, log_, last⟩ := lastSent_eq_some.mp (attributed.queued sent member)
  refine ⟨member, isId, newer, older, log_, last, ?_⟩
  rw [← isId]
  exact attributed.one log_

/-- The id of the last message of a queued block finds that block. -/
theorem finds (attributed : Attributed log party) {newer older : List Transmission}
    {message : Transmission} (log_ : log = newer ++ message :: older)
    (last : ∀ other ∈ newer, other.number ≠ message.number)
    (queued : ∃ sent ∈ party.session.sendmarkq.toList, sent.pointer = message.number) :
    party.session.handleSendmarkqGet message.block.id =
      some ⟨message.number, message.block⟩ := by
  have lastOf : ∀ sent ∈ party.session.sendmarkq.toList, sent.pointer = message.number →
      sent = ⟨message.number, message.block⟩ := by
    intro sent member same
    have known := attributed.queued sent member
    rw [same, lastSent_eq_some.mpr ⟨rfl, newer, older, log_, last⟩] at known
    have block : message.block = sent.block := congrArg Transmission.block (Option.some.inj known)
    rw [block, ← same]
  obtain ⟨sent, member, same⟩ := queued
  cases got : party.session.handleSendmarkqGet message.block.id with
  | none =>
      have nowhere := List.find?_eq_none.mp got sent member
      rw [lastOf sent member same] at nowhere
      simp at nowhere
  | some other =>
      obtain ⟨inQueue, isId, newer', older', log', _, _⟩ := attributed.found got
      have isMessage : (⟨other.pointer, other.block⟩ : Transmission) = message := by
        by_contra different
        have inside : (⟨other.pointer, other.block⟩ : Transmission) ∈ newer ++ older := by
          have inLog : (⟨other.pointer, other.block⟩ : Transmission) ∈ log := by
            rw [log']
            exact List.mem_append_right _ List.mem_cons_self
          rw [log_] at inLog
          rcases List.mem_append.mp inLog with before | after
          · exact List.mem_append_left _ before
          · rcases List.mem_cons.mp after with here | behind
            · exact absurd here different
            · exact List.mem_append_right _ behind
        exact attributed.one log_ _ inside isId
      rw [lastOf other inQueue (congrArg Transmission.number isMessage)]

end Attributed

/-- A party on its io_service and the messages it has sent, the newest first. -/
structure Logged where
  host : Host
  log : List Transmission := []
  deriving DecidableEq, Repr

namespace Logged

def of (session : Session) : Logged where
  host := .of session

def next (logged : Logged) (action : ServiceAction) : Logged where
  host := logged.host.next action
  log := logged.host.party.log (logged.host.service.steps action) ++ logged.log

def Allowed (logged : Logged) (action : ServiceAction) : Prop :=
  logged.host.service.Possible action ∧
    AllMet Party.next Party.Sends logged.host.party (logged.host.service.steps action)

instance (logged : Logged) (action : ServiceAction) : Decidable (logged.Allowed action) :=
  inferInstanceAs (Decidable (logged.host.service.Possible action ∧
    AllMet Party.next Party.Sends logged.host.party (logged.host.service.steps action)))

end Logged

/-- The party's session is the io_service's, and its log attributed. -/
structure LoggedInv (logged : Logged) : Prop where
  session : logged.host.party.session = logged.host.service.session
  queued : ∀ operation ∈ logged.host.service.session.operations, operation.finished = false
  posted : ∀ operation ∈ logged.host.service.posted, operation.finished = true
  attributed : Attributed logged.log logged.host.party

namespace LoggedInv

variable {logged : Logged}

theorem initial {session : Session} (fresh : session.Fresh) : LoggedInv (.of session) := by
  have none_ := fresh.operations
  refine ⟨rfl, ?_, ?_, .initial fresh⟩
  · intro operation member
    simp only [Logged.of, Host.of, none_] at member
    cases member
  · intro operation member
    cases member

theorem next (inv : LoggedInv logged) {action : ServiceAction} (allowed : logged.Allowed action) :
    LoggedInv (logged.next action) := by
  obtain ⟨queued, posted⟩ := Service.finished_next action inv.queued inv.posted
  exact ⟨Service.session_steps allowed.1 inv.posted inv.session, queued, posted,
    inv.attributed.run allowed.2⟩

end LoggedInv

end CurvecprAsio
