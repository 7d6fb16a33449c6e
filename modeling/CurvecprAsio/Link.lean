import CurvecprAsio.Reader
import CurvecprAsio.Retransmit

set_option autoImplicit false

/- Two sessions and a network between them that may drop, duplicate, delay and
reorder the blocks that A sends and the acknowledgements that B sends. -/
namespace CurvecprAsio

open Transition SearchTree

instance (block : Block) (position : Nat) : Decidable (block.Covers position) :=
  inferInstanceAs (Decidable (block.offset ≤ position ∧ position < block.offset + block.dataLen))

/-- The sender A, the receiver B, and every block and acknowledged range that was
ever sent. `total` is the data length of the blocks sent so far, each counted
once, and `headSent` says that the current head is one of them. -/
structure Link where
  a : Sender
  b : Reader
  total : Nat := 0
  headSent : Bool := false
  wire : List Block := []
  acks : List (Nat × Nat) := []
  deriving DecidableEq, Repr

inductive LinkAction where
  | write (buffer : Buffer)
  | setEof
  | askHead (maximum : Nat)
  | sendHead (balance : Balance SentBlock) (id : Nat) (clock : Int)
  | resend (balance : Balance SentBlock) (pointer id : Nat) (clock : Int)
  | deliver (block : Block)
  | removeRange (start stop : Nat)
  | read (buffer : Buffer)
  | raise (contiguous : Nat)
  | acknowledge (start stop : Nat)
  | acknowledged (balance : Balance SentBlock) (start stop : Nat)

/-- libcurvecpr raises the count of contiguous bytes by itself. -/
def Session.raiseContiguous (s : Session) (contiguous : Nat) : Session :=
  { s with messager := { s.messager with theirContiguousSentBytes := contiguous } }

namespace Link

/-- A block's offset at its first send is the data length of the blocks before it. -/
def headOffset (link : Link) : Nat :=
  if link.headSent then link.a.session.sendqHead.offset else link.total

/-- The data length of the blocks sent once the head has been sent. -/
def headTotal (link : Link) : Nat :=
  if link.headSent then link.total else link.total + link.a.session.sendqHead.dataLen

/-- The head is stamped, put on the wire and moved; it stays the head when
`sendmarkq_` is full. -/
def sendHead (link : Link) (balance : Balance SentBlock) (id : Nat) (clock : Int) : Link :=
  let stamped := link.a.next (.stampHead id clock link.headOffset)
  let moved := stamped.next (.moveHead balance)
  { link with
    a := moved
    total := link.headTotal
    headSent := moved.session.sendqHeadExists
    wire := stamped.session.sendqHead :: link.wire }

/-- A queued block is stamped, put on the wire and moved. -/
def resend (link : Link) (balance : Balance SentBlock) (pointer id : Nat) (clock : Int) : Link :=
  let stamped := link.a.session.stampSent pointer id clock
  { link with
    a := link.a.next (.resend balance pointer id clock)
    wire := ((stamped.sendmarkq.toList.find? fun sent => sent.pointer = pointer).map
      SentBlock.block).toList ++ link.wire }

def next (link : Link) : LinkAction → Link
  | .write buffer => { link with a := link.a.write buffer }
  | .setEof => { link with a := link.a.next .setEof }
  | .askHead maximum => { link with a := link.a.sendqHead maximum }
  | .sendHead balance id clock => link.sendHead balance id clock
  | .resend balance pointer id clock => link.resend balance pointer id clock
  | .deliver block => { link with b := link.b.put block }
  | .removeRange start stop => { link with b := link.b.removeRange start stop }
  | .read buffer => { link with b := link.b.read buffer }
  | .raise contiguous =>
      { link with b := { link.b with session := link.b.session.raiseContiguous contiguous } }
  | .acknowledge start stop => { link with acks := (start, stop) :: link.acks }
  | .acknowledged balance start stop =>
      { link with a := link.a.next (.removeRange balance start stop) }

/-- B's put has accepted blocks with all bytes of a range. -/
def Accepted (link : Link) (start stop : Nat) : Prop :=
  ∀ position < stop, start ≤ position → ∃ block ∈ link.b.arrived, block.Covers position

instance (link : Link) (start stop : Nat) : Decidable (link.Accepted start stop) :=
  inferInstanceAs (Decidable (∀ position < stop, start ≤ position →
    ∃ block ∈ link.b.arrived, block.Covers position))

/-- What libcurvecpr and the network keep to. The head is sent only where its
bytes still have 64-bit positions, only blocks on the wire arrive, and a range
is acknowledged only when it is `[0, their_contiguous_sent_bytes)` or holds
only bytes that B's put has accepted. -/
def allowed (capacity : Nat) (link : Link) : LinkAction → Guard
  | .askHead maximum => .of (1 ≤ maximum ∧ maximum ≤ capacity)
  | .sendHead _ _ _ => .of (link.a.session.sendqHeadExists = true ∧ link.headTotal < 2 ^ 64)
  | .resend _ pointer _ _ => .of (∃ sent ∈ link.a.session.sendmarkq.toList, sent.pointer = pointer)
  | .deliver block => .of (block ∈ link.wire)
  | .read buffer => .of (link.b.Retries buffer)
  | .raise contiguous => .of (link.Accepted 0 contiguous)
  | .acknowledge start stop => .of
      (start = 0 ∧ stop = link.b.session.messager.theirContiguousSentBytes ∨
        link.Accepted start stop)
  | .acknowledged _ start stop => .of ((start, stop) ∈ link.acks)
  | _ => .free

abbrev Allowed (capacity : Nat) (link : Link) (action : LinkAction) : Prop :=
  (link.allowed capacity action).holds

/-- The blocks sent at least once, in the order of their first sends. -/
def sent (link : Link) : List SentBlock :=
  link.a.moved ++ if link.headSent then [link.a.session.headBlock] else []

end Link

/-- Sending the head stamps it, and either it stays the head or a copy of it is
inserted in `sendmarkq_`. -/
theorem Link.sendHead_cases (link : Link) (balance : Balance SentBlock) (id : Nat) (clock : Int)
    (exists_ : link.a.session.sendqHeadExists = true) :
    ∃ session, session = link.a.session.stampHead id clock link.headOffset ∧
      (link.sendHead balance id clock = { link with
          a := { link.a with session := session }
          total := link.headTotal, headSent := true
          wire := session.sendqHead :: link.wire } ∨
        ∃ sendmarkq, sendmarkq.toList.Perm
            (⟨link.a.session.allocated + 1, session.sendqHead⟩ ::
              link.a.session.sendmarkq.toList) ∧
          link.sendHead balance id clock = { link with
            a := { link.a with
              session := { session with
                allocated := link.a.session.allocated + 1, sendmarkq := sendmarkq
                sendqHeadExists := false }
              moved := link.a.moved ++ [⟨link.a.session.allocated + 1, session.sendqHead⟩] }
            total := link.headTotal, headSent := false
            wire := session.sendqHead :: link.wire }) := by
  refine ⟨_, rfl, ?_⟩
  have stays : (link.a.session.stampHead id clock link.headOffset).sendqHeadExists = true :=
    exists_
  rcases (link.a.session.stampHead id clock link.headOffset).handleSendqMoveToSendmarkq_cases
    balance (link.a.session.stampHead id clock link.headOffset).headBlock with
    same | ⟨notHead, _⟩ | ⟨_, _, room, stored⟩
  · left
    simp only [Link.sendHead, Sender.next, Sender.move, same, Option.toList_none,
      List.append_nil, stays]
  · rcases notHead with absent | other
    · rw [stays] at absent
      cases absent
    · exact absurd rfl other
  · right
    refine ⟨balance.run (link.a.session.sendmarkq.insert blockClockCompare
      ⟨link.a.session.allocated + 1,
        (link.a.session.stampHead id clock link.headOffset).sendqHead⟩), ?_, ?_⟩
    · rw [Balance.toList_run]
      exact Tree.insert_perm _ _ _
    · simp only [Link.sendHead, Sender.next, Sender.move, stored, Option.toList_some]
      rfl

/-- Steps on which a block may enter or leave `sendmarkq_`. -/
def LinkAction.movesBlocks : LinkAction → Bool
  | .sendHead _ _ _ => true
  | .resend _ _ _ _ => true
  | .acknowledged _ _ _ => true
  | _ => false

/-- `sendmarkq_` and the moved blocks are as before, and B has what it had. -/
structure Link.Quiet (link later : Link) : Prop where
  sendmarkq : later.a.session.sendmarkq = link.a.session.sendmarkq
  allocated : later.a.session.allocated = link.a.session.allocated
  moved : later.a.moved = link.a.moved
  arrived : ∀ block ∈ link.b.arrived, block ∈ later.b.arrived

theorem Link.quiet_next (link : Link) {action : LinkAction}
    (stays : action.movesBlocks = false) : link.Quiet (link.next action) := by
  cases action with
  | sendHead balance id clock => cases stays
  | resend balance pointer id clock => cases stays
  | acknowledged balance start stop => cases stays
  | write buffer =>
      have same := link.a.session.sendmarkq_write buffer
      exact ⟨same.1, same.2, rfl, fun _ member => member⟩
  | askHead maximum =>
      have same := link.a.session.sendmarkq_askHead maximum
      exact ⟨same.1, same.2, rfl, fun _ member => member⟩
  | deliver block => exact ⟨rfl, rfl, rfl, fun other => link.b.arrived_put block other⟩
  | setEof => exact ⟨rfl, rfl, rfl, fun _ member => member⟩
  | removeRange start stop => exact ⟨rfl, rfl, rfl, fun _ member => member⟩
  | read buffer => exact ⟨rfl, rfl, rfl, fun _ member => member⟩
  | raise contiguous => exact ⟨rfl, rfl, rfl, fun _ member => member⟩
  | acknowledge start stop => exact ⟨rfl, rfl, rfl, fun _ member => member⟩

/-- Every block stands where the bytes of the blocks before it end. -/
def Placed (sent : List SentBlock) : Prop :=
  ∀ index block, sent[index]? = some block →
    block.block.offset = (sentBytes (sent.take index)).length

theorem sentBytes_take_succ {sent : List SentBlock} {index : Nat} {block : SentBlock}
    (located : sent[index]? = some block) :
    sentBytes (sent.take (index + 1)) = sentBytes (sent.take index) ++ block.block.data := by
  rw [List.take_add_one, located, sentBytes_append, Option.toList_some]
  congr 1
  exact List.flatMap_singleton _ _

namespace Placed

variable {sent : List SentBlock}

theorem nil : Placed [] := by
  intro index block located
  simp at located

theorem snoc (placed : Placed sent) {new : SentBlock}
    (behind : new.block.offset = (sentBytes sent).length) : Placed (sent ++ [new]) := by
  intro index block located
  by_cases old : index < sent.length
  · rw [List.getElem?_append_left old] at located
    rw [List.take_append_of_le_length (by omega)]
    exact placed index block located
  · rw [List.getElem?_append_right (by omega)] at located
    have inside := (List.getElem?_eq_some_iff.mp located).1
    rw [List.length_singleton] at inside
    have last : index = sent.length := by omega
    subst last
    rw [Nat.sub_self] at located
    have same : new = block := Option.some.inj located
    rw [List.take_left, ← same]
    exact behind

theorem front {new : SentBlock} (placed : Placed (sent ++ [new])) : Placed sent := by
  intro index block located
  have inside := (List.getElem?_eq_some_iff.mp located).1
  have before := placed index block (by rw [List.getElem?_append_left inside]; exact located)
  rwa [List.take_append_of_le_length (by omega)] at before

/-- The block that holds a position. -/
theorem locate (placed : Placed sent) {position : Nat}
    (inside : position < (sentBytes sent).length) :
    ∃ (index : Nat) (block : SentBlock), sent[index]? = some block ∧ block.block.Covers position := by
  induction sent using List.reverseRecOn with
  | nil => exact absurd inside (Nat.not_lt_zero _)
  | append_singleton front last ih =>
      have lastAt : (front ++ [last])[front.length]? = some last := by
        rw [List.getElem?_append_right (Nat.le_refl _), Nat.sub_self]
        rfl
      have offset := placed _ _ lastAt
      rw [List.take_left] at offset
      by_cases early : position < (sentBytes front).length
      · obtain ⟨index, block, located, covers⟩ := ih placed.front early
        have before := (List.getElem?_eq_some_iff.mp located).1
        exact ⟨index, block, by rw [List.getElem?_append_left before]; exact located, covers⟩
      · refine ⟨front.length, last, lastAt, by omega, ?_⟩
        rw [sentBytes_append, List.length_append] at inside
        have one : sentBytes [last] = last.block.data := List.flatMap_singleton _ _
        rw [one] at inside
        simp only [Block.dataLen]
        omega

theorem endOf (placed : Placed sent) {index : Nat} {block : SentBlock}
    (located : sent[index]? = some block) :
    block.block.offset + block.block.dataLen = (sentBytes (sent.take (index + 1))).length := by
  rw [placed index block located, sentBytes_take_succ located, List.length_append]
  rfl

theorem length_take_mono (sent : List SentBlock) {first second : Nat} (le : first ≤ second) :
    (sentBytes (sent.take first)).length ≤ (sentBytes (sent.take second)).length := by
  have split : sent.take second = sent.take first ++ (sent.drop first).take (second - first) := by
    rw [← List.take_add, Nat.add_sub_of_le le]
  rw [split, sentBytes_append, List.length_append]
  exact Nat.le_add_right _ _

/-- No two blocks hold the same position. -/
theorem unique (placed : Placed sent) {first second position : Nat} {left right : SentBlock}
    (atFirst : sent[first]? = some left) (atSecond : sent[second]? = some right)
    (inLeft : left.block.Covers position) (inRight : right.block.Covers position) :
    first = second := by
  have leftOffset := placed first left atFirst
  have rightOffset := placed second right atSecond
  have leftEnd := placed.endOf atFirst
  have rightEnd := placed.endOf atSecond
  rcases Nat.lt_trichotomy first second with before | same | after
  · have ordered := length_take_mono sent (show first + 1 ≤ second from before)
    have ends := inLeft.2
    have starts := inRight.1
    omega
  · exact same
  · have ordered := length_take_mono sent (show second + 1 ≤ first from after)
    have ends := inRight.2
    have starts := inLeft.1
    omega

end Placed

end CurvecprAsio
