import CurvecprAsio.LinkInvariant
import CurvecprAsio.Settle
import CurvecprAsio.Steps
import CurvecprAsio.Lib.Channel

set_option autoImplicit false

/- Two sessions that both write, read and close, each in any order, over a network
that may drop, duplicate, delay and reorder their blocks. -/
namespace CurvecprAsio

open Strand Transition SearchTree

/-- One side of a conversation: its session, what it has accepted, moved and put on
the wire, and what its one reader was given. `heard` says that a read has reported the
end of the peer's stream before a local close, and `finished` that `do_close` has run. -/
structure Party where
  session : Session
  accepted : List UInt8 := []
  moved : List SentBlock := []
  total : Nat := 0
  headSent : Bool := false
  wire : List Block := []
  delivered : List UInt8 := []
  outstanding : Option Buffer := none
  arrived : List Block := []
  heard : Bool := false
  finished : Bool := false
  deriving DecidableEq, Repr

/-- The pieces of `start`, `handle_process_send_queue`, `close`, `do_close` and the
operations; `strand` stands for whatever happens to the strand's handlers and to the
calls of `close_handler_`. -/
inductive PartyAction where
  | runs
  | strand (queue : Queue Timer Handler) (calls : Nat)
  | callback (callback : Callback)
  | write (buffer : Buffer)
  | read (buffer : Buffer)
  | closing
  | doClose

namespace Party

def sender (party : Party) : Sender where
  session := party.session
  accepted := party.accepted
  moved := party.moved

def reader (party : Party) : Reader where
  session := party.session
  delivered := party.delivered
  outstanding := party.outstanding
  arrived := party.arrived

/-- The sending half, facing a receiver that has got nothing yet. -/
def half (party : Party) : Link where
  a := party.sender
  b := { session := {} }
  total := party.total
  headSent := party.headSent
  wire := party.wire

/-- No more bytes will be accepted. -/
def shut (party : Party) : Bool := party.finished || party.session.pendingEof

def onto (party : Party) (session : Session) : Party := { party with session := session }

/-- The head is stamped and put on the wire. -/
def stampHead (party : Party) (id : Nat) (clock : Int) (offset : Nat) : Party :=
  let stamped := party.session.stampHead id clock offset
  { party with
    session := stamped
    total := party.half.headTotal
    headSent := true
    wire := stamped.sendqHead :: party.wire }

def move (party : Party) (result : MoveResult) : Party :=
  { party with
    session := result.session
    moved := party.moved ++ result.stored.toList
    headSent := party.headSent && result.session.sendqHeadExists }

/-- A queued block is stamped and put on the wire again. -/
def resend (party : Party) (balance : Balance SentBlock) (pointer id : Nat) (clock : Int) :
    Party :=
  let link := party.half.resend balance pointer id clock
  { party with session := link.a.session, moved := link.a.moved, wire := link.wire }

def put (party : Party) (block : Block) : Party :=
  let reader := party.reader.put block
  { party with session := reader.session, arrived := reader.arrived }

def callback (party : Party) : Callback → Party
  | .stampHead id clock offset => party.stampHead id clock offset
  | .sendqMoveToSendmarkq balance =>
      party.move (party.session.handleSendqMoveToSendmarkq balance party.session.headBlock)
  | .resend balance pointer id clock => party.resend balance pointer id clock
  | .recvmarkqPut block => party.put block
  | other => party.onto (party.session.callback other)

def write (party : Party) (buffer : Buffer) : Party :=
  let sender := party.sender.write buffer
  { party with session := sender.session, accepted := sender.accepted }

def read (party : Party) (buffer : Buffer) : Party :=
  let reader := party.reader.read buffer
  { party with
    session := reader.session
    delivered := reader.delivered
    outstanding := reader.outstanding
    heard := party.heard ||
      ((party.session.read buffer).ec = .eof && !party.session.pendingClose) }

def next (party : Party) : PartyAction → Party
  | .runs => party.onto { party.session with running := true }
  | .strand queue calls =>
      party.onto { party.session with strand := queue, closeHandlerCalls := calls }
  | .callback callback => party.callback callback
  | .write buffer => party.write buffer
  | .read buffer => party.read buffer
  | .closing => party.onto party.session.closing
  | .doClose => { party.onto (party.session.doClose .success) with finished := true }

/-- What libcurvecpr keeps to: a block's offset at its first send is the data length of
the blocks before it, the head is moved once it has been sent, and only blocks that the
peer has sent arrive. -/
def calls (peerWire : List Block) (party : Party) : Callback → Guard
  | .stampHead _ _ offset => .of (party.session.sendqHeadExists = true ∧
      offset = party.half.headOffset ∧ party.half.headTotal < 2 ^ 64)
  | .sendqMoveToSendmarkq _ => .of (party.headSent = true)
  | .recvmarkqPut block => .of (block ∈ peerWire)
  | _ => .free

abbrev Calls (peerWire : List Block) (party : Party) (callback : Callback) : Prop :=
  (party.calls peerWire callback).holds

def serves (peerWire : List Block) (party : Party) : PartyAction → Guard
  | .callback callback => party.calls peerWire callback
  | _ => .free

abbrev Serves (peerWire : List Block) (party : Party) (action : PartyAction) : Prop :=
  (party.serves peerWire action).holds

/-- A read that is not done is retried before another is made. -/
def retries (party : Party) : PartyAction → Guard
  | .read buffer => .of (∀ held ∈ party.outstanding, buffer = held)
  | _ => .free

abbrev Retries (party : Party) (action : PartyAction) : Prop := (party.retries action).holds

/-- A party takes part until its `do_close` has run. -/
structure Allowed (peerWire : List Block) (party : Party) (action : PartyAction) : Prop where
  takesPart : party.finished = false
  serves : party.Serves peerWire action
  retries : party.Retries action

instance (peerWire : List Block) (party : Party) (action : PartyAction) :
    Decidable (party.Allowed peerWire action) :=
  decidable_of_iff (party.finished = false ∧ party.Serves peerWire action ∧ party.Retries action)
    ⟨fun ⟨takesPart, serves, retries⟩ => ⟨takesPart, serves, retries⟩,
      fun allowed => ⟨allowed.takesPart, allowed.serves, allowed.retries⟩⟩

theorem session_callback (party : Party) (callback : Callback) :
    (party.callback callback).session = party.session.callback callback := by
  cases callback <;> rfl

end Party

inductive Side where
  | near
  | far
  deriving DecidableEq, Repr

def Side.other : Side → Side
  | .near => .far
  | .far => .near

/-- Two parties, each of which can see what the other has put on the wire. -/
structure Conversation where
  near : Party
  far : Party
  deriving DecidableEq, Repr

namespace Conversation

def party (conversation : Conversation) : Side → Party
  | .near => conversation.near
  | .far => conversation.far

/-- Two sessions that have just been constructed. -/
def between (near far : Session) : Conversation where
  near := { session := near }
  far := { session := far }

def next (conversation : Conversation) : Side × PartyAction → Conversation
  | (.near, action) => { conversation with near := conversation.near.next action }
  | (.far, action) => { conversation with far := conversation.far.next action }

def Allowed (conversation : Conversation) (action : Side × PartyAction) : Prop :=
  (conversation.party action.1).Allowed (conversation.party action.1.other).wire action.2

instance (conversation : Conversation) (action : Side × PartyAction) :
    Decidable (conversation.Allowed action) :=
  inferInstanceAs (Decidable ((conversation.party action.1).Allowed
    (conversation.party action.1.other).wire action.2))

@[simp] theorem party_next (conversation : Conversation) (side : Side) (action : PartyAction) :
    (conversation.next (side, action)).party side = (conversation.party side).next action := by
  cases side <;> rfl

@[simp] theorem party_next_other (conversation : Conversation) (side : Side)
    (action : PartyAction) :
    (conversation.next (side, action)).party side.other = conversation.party side.other := by
  cases side <;> rfl

end Conversation

@[simp] theorem Side.other_other (side : Side) : side.other.other = side := by
  cases side <;> rfl

theorem Side.eq_or (first second : Side) : first = second ∨ first = second.other := by
  cases first <;> cases second <;> simp [Side.other]

namespace LinkInv

variable {capacity : Nat} {link : Link}

/-- The network may forget what was sent. -/
theorem forget (inv : LinkInv capacity link) {wire : List Block}
    (fewer : ∀ block ∈ wire, block ∈ link.wire) : LinkInv capacity { link with wire := wire } :=
  { inv with wire := fun block member => inv.wire block (fewer block member) }

theorem stampHead (inv : LinkInv capacity link) (id : Nat) (clock : Int)
    (exists_ : link.a.session.sendqHeadExists = true) (fits : link.headTotal < 2 ^ 64) :
    LinkInv capacity { link with
      a := { link.a with session := link.a.session.stampHead id clock link.headOffset }
      total := link.headTotal
      headSent := true
      wire := (link.a.session.stampHead id clock link.headOffset).sendqHead :: link.wire } := by
  obtain ⟨offset, again⟩ := inv.stampHead_head id clock fits
  have sender := inv.sender.next (.stampHead id clock link.headOffset) trivial
  have stays : (link.a.session.stampHead id clock link.headOffset).sendqHeadExists = true :=
    exists_
  rw [← stays]
  apply inv.extend offset again fits rfl sender rfl
  · exact congrArg (link.a.moved ++ ·) (if_pos stays)
  · exact fun sent member => ⟨inv.allocated sent member, inv.queued sent member⟩

theorem moveHead (inv : LinkInv capacity link) (balance : Balance SentBlock)
    (headSent : link.headSent = true) :
    LinkInv capacity { link with
      a := link.a.next (.moveHead balance)
      headSent := (link.a.next (.moveHead balance)).session.sendqHeadExists } := by
  have exists_ := inv.head headSent
  have sender := inv.sender.next (.moveHead balance) trivial
  rcases link.a.session.handleSendqMoveToSendmarkq_cases balance link.a.session.headBlock with
    same | ⟨notHead, _⟩ | ⟨_, _, _, stored⟩
  · have after : link.a.next (.moveHead balance) = link.a := by
      simp only [Sender.next, Sender.move, same, Option.toList_none, List.append_nil]
    rw [after, exists_, ← headSent]
    exact inv
  · rcases notHead with absent | other
    · rw [exists_] at absent
      cases absent
    · exact absurd rfl other
  · have total : link.headTotal = link.total := by
      simp only [Link.headTotal, headSent, ↓reduceIte]
    have offset := inv.headOffset_eq.1
    simp only [Link.headOffset, headSent, ↓reduceIte] at offset
    have after : link.a.next (.moveHead balance) = { link.a with
        session := (link.a.session.handleSendqMoveToSendmarkq balance
          link.a.session.headBlock).session
        moved := link.a.moved ++ [⟨link.a.session.allocated + 1, link.a.session.sendqHead⟩] } := by
      simp only [Sender.next, Sender.move, stored, Option.toList_some]
    have inserted : ∀ sent ∈ (link.a.next (.moveHead balance)).session.sendmarkq.toList,
        sent = ⟨link.a.session.allocated + 1, link.a.session.sendqHead⟩ ∨
          sent ∈ link.a.session.sendmarkq.toList := by
      intro sent member
      simp only [Sender.next, Sender.move, stored, Balance.toList_run] at member
      exact List.mem_cons.mp ((Tree.insert_perm _ _ _).mem_iff.mp member)
    have sentAfter : ((link.a.next (.moveHead balance)).moved ++
        if (link.a.next (.moveHead balance)).session.sendqHeadExists then
          [(link.a.next (.moveHead balance)).session.headBlock] else []) =
        link.a.moved ++ [⟨link.a.session.allocated + 1, link.a.session.sendqHead⟩] := by
      simp only [Sender.next, Sender.move, stored, Option.toList_some, Bool.false_eq_true,
        ↓reduceIte, List.append_nil]
    have extended := inv.extend offset (fun _ => Block.Same.refl _)
      (by rw [total]; exact inv.fits) rfl sender (by rw [after]) sentAfter
      (by
        intro sent member
        rw [after]
        rcases inserted sent member with rfl | old
        · exact ⟨Nat.succ_ne_zero _, _, List.mem_append_right _ (List.mem_singleton_self _),
            Block.Same.refl _⟩
        · obtain ⟨moved, wasMoved, same⟩ := inv.queued sent old
          exact ⟨inv.allocated sent old, moved, List.mem_append_left _ wasMoved, same⟩)
    rw [total] at extended
    exact extended.forget fun block member => List.mem_cons_of_mem _ member

/-- Steps of A that leave its send side alone, but for the end of its stream. -/
theorem onto (inv : LinkInv capacity link) {session : Session}
    (ring : session.ringState = link.a.session.ringState)
    (head : session.sendqHeadExists = link.a.session.sendqHeadExists ∧
      session.sendqHead = link.a.session.sendqHead)
    (sendmarkq : session.sendmarkq = link.a.session.sendmarkq)
    (closing : link.a.session.pendingEof = true → session.pendingEof = true) :
    LinkInv capacity { link with a := { link.a with session := session } } := by
  apply inv.quiet (inv.sender.frame ring head.1 (congrArg Block.data head.2)
    (congrArg Block.eof head.2) closing)
  · intro sent member
    rw [sendmarkq] at member
    exact member
  · rfl
  · intro headSent
    exact ⟨head.1.trans (inv.head headSent), head.2⟩
  · exact inv.reader

end LinkInv

/-- The end of the stream as a read was told of it before its loop changes only what it
knows of the end. -/
def ReadPass.ending (pass : ReadPass) (ended : Bool) : ReadPass :=
  { pass with pendingEof := ended || pass.pendingEof }

theorem ReadPass.consume_ending (pass : ReadPass) (ended : Bool) (block : Block) :
    (pass.ending ended).consume block =
      ((pass.consume block).1.ending ended, (pass.consume block).2) := by
  by_cases news : 0 < block.dataLen ∧ pass.distributed < block.endOffset
  · by_cases part : sub64 pass.buffer.length pass.readOffset <
        sub64 block.dataLen (sub64 pass.distributed block.offset)
    · simp only [consume, ending, news, part, and_self, ↓reduceIte]
      rfl
    · simp only [consume, ending, news, part, and_self, ↓reduceIte]
      rfl
  · simp only [consume, ending, news, ↓reduceIte]

theorem ReadPass.distribute_ending (pass : ReadPass) (ended : Bool) (block : Block) :
    (pass.ending ended).distribute block = (pass.distribute block).ending ended := by
  simp only [distribute, ending, Bool.or_assoc]
  rfl

@[simp] theorem ReadPass.distributed_ending (pass : ReadPass) (ended : Bool) :
    (pass.ending ended).distributed = pass.distributed := rfl

theorem readLoop_ending (queue : List BlockStatus) (pass : ReadPass) (ended : Bool) :
    readLoop queue (pass.ending ended) =
      ((readLoop queue pass).1, (readLoop queue pass).2.ending ended) := by
  induction queue generalizing pass with
  | nil => rfl
  | cons element rest ih =>
      simp only [readLoop, ReadPass.consume_ending, ReadPass.distribute_ending, ih,
        ReadPass.distributed_ending]
      by_cases reached : element.block.offset ≤ pass.distributed
      · by_cases broke : (pass.consume element.block).2 = true
        · simp only [reached, broke, ↓reduceIte]
        · simp only [reached, broke, Bool.false_eq_true, ↓reduceIte]
      · simp only [reached, ↓reduceIte]

theorem Session.pendingEof_read (s : Session) (buffer : Buffer) (ended : s.pendingEof = true) :
    (s.read buffer).session.pendingEof = true := by
  by_cases empty : buffer.length = 0
  · simp only [Session.read, empty, ↓reduceIte]
    exact ended
  · have entry : s.readEntry buffer = (s.readEntry buffer).ending true := by
      simp only [readEntry, ReadPass.ending, ended, Bool.or_true]
    rw [(s.read_spec empty).pendingEof, readPass, entry, readLoop_ending]
    rfl

namespace Party

variable {party : Party}

/-- The sending half keeps its invariant in every step but `do_close`. -/
theorem half_callback (inv : LinkInv (2 ^ 31) party.half) {peerWire : List Block}
    (callback : Callback) (calls : party.Calls peerWire callback) :
    LinkInv (2 ^ 31) (party.callback callback).half := by
  cases callback with
  | sendqHead =>
      have used := inv.sender.ring.used
      have small := inv.sender.ring.small
      exact inv.sendqHead (Nat.le_trans (Nat.min_le_left _ _) (by omega))
  | stampHead id clock offset =>
      obtain ⟨exists_, rfl, fits⟩ := calls
      exact inv.stampHead id clock exists_ fits
  | sendqMoveToSendmarkq balance =>
      have headSent : party.headSent = true := calls
      have moved := inv.moveHead balance headSent
      simp only [Party.callback, Party.move, headSent, Bool.true_and]
      exact moved
  | resend balance pointer id clock => exact inv.resend balance pointer id clock
  | sendmarkqRemoveRange balance start stop => exact inv.acknowledged balance start stop
  | recvmarkqPut block =>
      rcases party.session.handleRecvmarkqPut_cases block with
        ⟨refused, _⟩ | ⟨_, queue, strand, stored, _⟩
      · simp only [Party.callback, Party.put, Reader.put, Party.reader, refused]
        exact inv.onto rfl ⟨rfl, rfl⟩ rfl id
      · simp only [Party.callback, Party.put, Reader.put, Party.reader, stored]
        exact inv.onto rfl ⟨rfl, rfl⟩ rfl id
  | recvmarkqRemoveRange start stop => exact inv.onto rfl ⟨rfl, rfl⟩ rfl id
  | messager messager => exact inv.onto rfl ⟨rfl, rfl⟩ rfl id

theorem half_next (inv : LinkInv (2 ^ 31) party.half) {peerWire : List Block}
    (action : PartyAction) (allowed : party.Allowed peerWire action) :
    LinkInv (2 ^ 31) (party.next action).half ∨ action = .doClose := by
  cases action with
  | runs => exact Or.inl (inv.onto rfl ⟨rfl, rfl⟩ rfl id)
  | strand queue calls => exact Or.inl (inv.onto rfl ⟨rfl, rfl⟩ rfl id)
  | callback callback => exact Or.inl (half_callback inv callback allowed.serves)
  | write buffer => exact Or.inl (inv.write buffer)
  | read buffer =>
      left
      obtain ⟨queue, distributed, offset, ended, contiguous, changed⟩ :=
        party.session.read_changes buffer
      have stays := party.session.pendingEof_read buffer
      rw [changed] at stays
      simp only [Party.next, Party.read, Reader.read, Party.reader, changed]
      exact inv.onto rfl ⟨rfl, rfl⟩ rfl stays
  | closing => exact Or.inl (inv.onto rfl ⟨rfl, rfl⟩ rfl fun _ => rfl)
  | doClose => exact Or.inr rfl

end Party

end CurvecprAsio
