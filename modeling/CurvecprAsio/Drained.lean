import CurvecprAsio.Attribution
import CurvecprAsio.Custody

set_option autoImplicit false

/- A send queue that is said to be empty: what the user was told has been written is on the
wire. -/
namespace CurvecprAsio

open Strand Transition SearchTree

/-- Every block that has been moved is on the wire, as is a head that has been sent. -/
structure Shown (party : Party) : Prop where
  moved : ∀ sent ∈ party.moved, ∃ block ∈ party.wire, block.Same sent.block
  head : party.finished = false → party.headSent = true →
    party.session.sendqHeadExists = true ∧ party.session.sendqHead ∈ party.wire

namespace Shown

variable {party : Party}

theorem initial (session : Session) : Shown { session := session } where
  moved := by
    intro sent member
    cases member
  head := by
    intro _ headSent
    cases headSent

theorem moved_next (party : Party) (action : PartyAction)
    (allocated : ∀ sent ∈ party.session.sendmarkq.toList, sent.pointer ≠ Session.headPointer) :
    (∃ balance, action = .callback (.sendqMoveToSendmarkq balance)) ∨
      (party.next action).moved = party.moved := by
  cases action with
  | callback callback =>
      cases callback with
      | sendqMoveToSendmarkq balance => exact Or.inl ⟨balance, rfl⟩
      | resend balance pointer id clock =>
          right
          obtain ⟨sendmarkq, resent, _⟩ :=
            party.session.resend_cases balance pointer id clock allocated
          simp only [Party.next, Party.callback, Party.resend, Link.resend, Party.half,
            Party.sender, Sender.next, Sender.move, resent, Option.toList_none, List.append_nil]
      | _ => exact Or.inr rfl
  | _ => exact Or.inr rfl

theorem mem_moved (party : Party) (balance : Balance SentBlock) {sent : SentBlock}
    (member : sent ∈ (party.next (.callback (.sendqMoveToSendmarkq balance))).moved) :
    sent ∈ party.moved ∨ sent.block = party.session.sendqHead := by
  rcases party.session.handleSendqMoveToSendmarkq_cases balance party.session.headBlock with
    same | ⟨_, it, _, same⟩ | ⟨_, _, _, stored⟩
  · simp only [Party.next, Party.callback, Party.move, same, Option.toList_none,
      List.append_nil] at member
    exact Or.inl member
  · simp only [Party.next, Party.callback, Party.move, same, Option.toList_none,
      List.append_nil] at member
    exact Or.inl member
  · simp only [Party.next, Party.callback, Party.move, stored, Option.toList_some] at member
    rcases List.mem_append.mp member with old | new
    · exact Or.inl old
    · rw [List.mem_singleton.mp new]
      exact Or.inr rfl

theorem next (shown : Shown party) {peerWire : List Block} {action : PartyAction}
    (allocated : ∀ sent ∈ party.session.sendmarkq.toList, sent.pointer ≠ Session.headPointer)
    (allowed : party.Allowed peerWire action) : Shown (party.next action) := by
  have still : ∀ sent ∈ party.moved,
      ∃ block ∈ (party.next action).wire, block.Same sent.block := by
    intro sent member
    obtain ⟨block, onWire, same⟩ := shown.moved sent member
    exact ⟨block, party.wire_next action block onWire, same⟩
  constructor
  · rcases moved_next party action allocated with ⟨balance, rfl⟩ | same
    · intro sent member
      rcases mem_moved party balance member with old | isHead
      · exact still sent old
      · have head := (shown.head allowed.takesPart allowed.serves).2
        exact ⟨_, head, by rw [isHead]; exact Block.Same.refl _⟩
    · rw [same]
      exact still
  · by_cases stamps : ∃ id clock offset, action = .callback (.stampHead id clock offset)
    · obtain ⟨id, clock, offset, rfl⟩ := stamps
      exact fun _ _ => ⟨allowed.serves.1, List.mem_cons_self⟩
    · intro unfinished headSent
      obtain ⟨before, wasSent, same⟩ := Party.head_next allocated
        (fun id clock offset isStamp => stamps ⟨id, clock, offset, isStamp⟩) unfinished headSent
      obtain ⟨exists_, onWire⟩ := shown.head before wasSent
      obtain ⟨stays, unchanged⟩ := same exists_
      rw [unchanged]
      exact ⟨stays, party.wire_next action _ onWire⟩

/-- Where nothing waits to be sent, what was accepted is on the wire. -/
theorem drained (shown : Shown party) {capacity : Nat} (half : LinkInv capacity party.half)
    (empty : party.session.handleSendqIsEmpty = true) {position : Nat} {value : UInt8}
    (located : party.accepted[position]? = some value) :
    ∃ block ∈ party.wire, block.Carries position value := by
  simp only [Session.handleSendqIsEmpty, Bool.and_eq_true, Bool.not_eq_true', decide_eq_true_eq]
    at empty
  obtain ⟨⟨absent, unused⟩, _⟩ := empty
  have fifo := half.sender.fifo
  simp only [Party.half, Party.sender, Session.headContents, absent, Bool.false_eq_true,
    ↓reduceIte, List.append_nil, Session.ringContents, unused, Ring.window_zero] at fifo
  have inside : position < (sentBytes party.moved).length := by
    rw [fifo]
    exact (List.getElem?_eq_some_iff.mp located).1
  have placed : Placed party.moved := by
    cases headSent : party.headSent with
    | true =>
        have exists_ : party.session.sendqHeadExists = true := half.head headSent
        rw [absent] at exists_
        cases exists_
    | false =>
        have placed := half.placed
        simpa only [Link.sent, Party.half, Party.sender, headSent, Bool.false_eq_true, ↓reduceIte,
          List.append_nil] using placed
  obtain ⟨index, sent, atIndex, covers⟩ := placed.locate inside
  obtain ⟨block, onWire, same⟩ := shown.moved sent (List.mem_of_getElem? atIndex)
  have slice : SliceOf party.accepted block := half.slice (half.wire block onWire)
  have covered : block.Covers position := by
    simpa only [Block.Covers, same.offset, same.dataLen] using covers
  exact ⟨block, onWire, CustodyInv.carries_of_slice slice covered located⟩

end Shown

/-- Both parties keep what they have sent on their wires. -/
theorem Conversation.shown {near far : Session} {conversation : Conversation}
    (freshNear : near.Fresh) (freshFar : far.Fresh) (smallNear : near.pendingMaximum < 2 ^ 31)
    (smallFar : far.pendingMaximum < 2 ^ 31)
    (reached : Reaches next Allowed (.between near far) conversation) :
    ConversationInv conversation ∧ ∀ side, Shown (conversation.party side) := by
  apply reached.invariant
  · refine ⟨.initial freshNear freshFar smallNear smallFar, fun side => ?_⟩
    cases side
    · exact .initial near
    · exact .initial far
  · rintro conversation ⟨acting, action⟩ ⟨inv, shown⟩ allowed
    refine ⟨fun side => (inv.step _ allowed side).1, fun side => ?_⟩
    rcases side.eq_or acting with rfl | rfl
    · rw [Conversation.party_next]
      have half := (inv side).half allowed.takesPart
      exact (shown side).next half.allocated allowed
    · rw [Conversation.party_next_other]
      exact shown acting.other

/-- When a session tells libcurvecpr that its send queue is empty, every byte that write
handlers were told has been transferred is in a block on the wire, at its position in the
stream. -/
theorem empty_send_queue_has_sent_everything {near far : Session} {hosts : Hosts}
    (freshNear : near.Fresh) (freshFar : far.Fresh) (smallNear : near.pendingMaximum < 2 ^ 31)
    (smallFar : far.pendingMaximum < 2 ^ 31)
    (reached : Reaches Hosts.next Hosts.Allowed (.between near far) hosts) (side : Side)
    (unfinished : (hosts.host side).party.finished = false)
    (empty : (hosts.host side).service.session.handleSendqIsEmpty = true) :
    ∀ position value, ((hosts.host side).service.reported .write)[position]? = some value →
      ∃ block ∈ (hosts.host side).party.wire, block.Carries position value := by
  intro position value located
  obtain ⟨inv, conversing⟩ := Hosts.run freshNear freshFar reached
  obtain ⟨carries, shown⟩ := Conversation.shown freshNear freshFar smallNear smallFar conversing
  have half := (carries side).half
  have shown := shown side
  rw [hosts.party_conversation] at half shown
  rw [← (inv side).session] at empty
  obtain ⟨rest, accepted⟩ := (inv side).writes.reports.reported
  have written : (hosts.host side).party.accepted[position]? = some value := by
    rw [← accepted, List.getElem?_append_left (List.getElem?_eq_some_iff.mp located).1]
    exact located
  exact shown.drained (half unfinished) empty written

/-- Three bytes are written and leave in two blocks, the second of which is lost. -/
theorem empty_send_queue_has_sent_everything_twice :
    let send (id : Nat) (clock : Int) (offset : Nat) : List Callback :=
      [.sendqHead, .stampHead id clock offset, .sendqMoveToSendmarkq .id]
    let exchange : List (Side × ServiceAction) :=
      [(.near, .receive [.messager { myMaximumSendBytes := 2 }]),
        (.near, .beginInside 1 (.write ⟨[1, 2, 3], by decide⟩) []), (.near, .runPosted 0),
        (.near, .receive (send 1 1 0)), (.far, .receive [.recvmarkqPut
          { id := 1, clock := 1, data := [1, 2] }]), (.near, .receive (send 2 2 2))]
    let hosts := exchange.foldl Hosts.next
      (.between { pendingMaximum := 4 } { pendingMaximum := 4 })
    ∃ block ∈ hosts.near.party.wire, block.Carries 2 3 := by
  intro send exchange hosts
  have reached : Reaches Hosts.next Hosts.Allowed
      (.between { pendingMaximum := 4 } { pendingMaximum := 4 }) hosts :=
    Reaches.start.schedule _ (by decide)
  exact empty_send_queue_has_sent_everything (Session.fresh_configured _ _ _)
    (Session.fresh_configured _ _ _) (by decide) (by decide) reached .near (by decide) (by decide)
    2 3 (by decide)

end CurvecprAsio
