import CurvecprAsio.Sender

set_option autoImplicit false

/- The retransmission queue under resends. A resent block gets its new clock
while it stands in the tree, so the search for it runs on a tree that may be
out of order. -/
namespace CurvecprAsio

open Transition SearchTree

/-- A sender, and the blocks that its `sendmarkq_` ought to hold: those inserted
and not removed, with the clocks they were last given. -/
structure Retransmit where
  sender : Sender
  live : List SentBlock := []
  deriving DecidableEq, Repr

namespace Retransmit

abbrev queued (queue : Retransmit) : List SentBlock :=
  queue.sender.session.sendmarkq.toList

def next (queue : Retransmit) (action : SenderAction) : Retransmit where
  sender := queue.sender.next action
  live :=
    match action with
    | .moveHead balance =>
        let session := queue.sender.session
        queue.live ++
          (session.handleSendqMoveToSendmarkq balance session.headBlock).stored.toList
    | .resend _ pointer id clock => queue.live.map (Session.stampPointer pointer id clock)
    | .removeRange _ start stop => queue.live.filter fun sent => !sent.block.inRange start stop
    | _ => queue.live

/-- libcurvecpr moves a head that exists, and resends a queued block with a
clock that is not smaller than any in the queue. -/
def allowed (queue : Retransmit) : SenderAction → Guard
  | .moveHead _ => .of (queue.sender.session.sendqHeadExists = true)
  | .resend _ pointer _ clock => .of ((∃ sent ∈ queue.queued, sent.pointer = pointer) ∧
      ∀ sent ∈ queue.queued, sent.block.clock ≤ clock)
  | _ => .free

abbrev Allowed (queue : Retransmit) (action : SenderAction) : Prop := (queue.allowed action).holds

/-- `sendmarkq_` holds the live blocks, each once, in the order of their clocks,
and its head is a block with the least clock. -/
structure Kept (queue : Retransmit) : Prop where
  blocks : queue.queued.Perm queue.live
  once : (queue.queued.map SentBlock.pointer).Nodup
  order : queue.queued.Pairwise fun earlier later => earlier.block.clock ≤ later.block.clock
  head : ∀ sent ∈ queue.live, ∃ first ∈ queue.live,
    queue.sender.session.handleSendmarkqHead = some first ∧
      first.block.clock ≤ sent.block.clock

end Retransmit

/-- Where the search by clock comes to the block itself: every block before it
has a smaller clock, and no block at which the path to it turns left has. -/
def Session.Resortable (s : Session) (pointer : Nat) : Prop :=
  ∃ position block, s.sendmarkq.toList[position]? = some block ∧ block.pointer = pointer ∧
    (∀ earlier ∈ s.sendmarkq.toList.take position, earlier.block.clock < block.block.clock) ∧
    ∀ turn ∈ s.sendmarkq.leftTurns position, block.block.clock ≤ turn.block.clock

/-- The block that the search for a resent block by its new clock comes to. -/
def Session.findResent (s : Session) (pointer id : Nat) (clock : Int) : Option SentBlock :=
  let stamped := s.stampSent pointer id clock
  (stamped.sendmarkq.toList.find? fun sent => sent.pointer = pointer).bind fun block =>
    (stamped.sendmarkq.find blockClockCompare block).bind fun it => stamped.sendmarkq.toList[it]?

/-- Every resent block can be found once its new clock has been written. -/
def Retransmit.Found (queue : Retransmit) (action : SenderAction) : Prop :=
  queue.Allowed action ∧
    match action with
    | .resend _ pointer id clock =>
        (queue.sender.session.stampSent pointer id clock).Resortable pointer
    | _ => True

namespace Session

theorem sendmarkq_write (s : Session) (buffer : Buffer) :
    (s.write buffer).session.sendmarkq = s.sendmarkq ∧
      (s.write buffer).session.allocated = s.allocated := by
  unfold write
  repeat' split
  all_goals exact ⟨rfl, rfl⟩

theorem sendmarkq_askHead (s : Session) (maximum : Nat) :
    (s.askHead maximum).session.sendmarkq = s.sendmarkq ∧
      (s.askHead maximum).session.allocated = s.allocated := by
  unfold askHead limitSend handleSendqHead takeHead
  repeat' split
  all_goals exact ⟨rfl, rfl⟩

theorem stampPointer_pointer (pointer id : Nat) (clock : Int) (sent : SentBlock) :
    (stampPointer pointer id clock sent).pointer = sent.pointer := by
  unfold stampPointer
  split <;> rfl

theorem stampPointer_same (pointer id : Nat) (clock : Int) (sent : SentBlock) :
    (stampPointer pointer id clock sent).block.Same sent.block := by
  unfold stampPointer
  split
  · exact ⟨rfl, rfl, rfl⟩
  · exact Block.Same.refl _

theorem stampPointer_other {pointer id : Nat} {clock : Int} {sent : SentBlock}
    (other : sent.pointer ≠ pointer) : stampPointer pointer id clock sent = sent := by
  simp only [stampPointer, other, ↓reduceIte]

theorem stampPointer_clock {pointer id : Nat} {clock : Int} {sent : SentBlock}
    (same : sent.pointer = pointer) : (stampPointer pointer id clock sent).block.clock = clock := by
  simp only [stampPointer, same, ↓reduceIte, stamp]

theorem handleSendqMoveToSendmarkq_found {s : Session} (balance : Balance SentBlock)
    {block : SentBlock} {it : Nat} (allocated : block.pointer ≠ headPointer)
    (found : s.sendmarkq.find blockClockCompare block = some it) :
    s.handleSendqMoveToSendmarkq balance block =
      { session := { s with
          sendmarkq :=
            balance.run ((balance.run (s.sendmarkq.erase it)).insert blockClockCompare block) }
        ret := -1 } := by
  have other : (!s.sendqHeadExists || decide (block.pointer ≠ headPointer)) = true := by
    simp [allocated]
  simp only [handleSendqMoveToSendmarkq, other, ↓reduceIte, found]

end Session

theorem blockClockCompare_eq_true (a b : SentBlock) :
    blockClockCompare a b = true ↔ a.block.clock < b.block.clock := by
  simp [blockClockCompare]

theorem ordered_blockClockCompare (blocks : List SentBlock) :
    Ordered blockClockCompare blocks ↔
      blocks.Pairwise fun earlier later => earlier.block.clock ≤ later.block.clock := by
  simp only [Ordered, blockClockCompare_eq_false]

/-- Blocks with different pointers are different places. -/
theorem eq_of_pointer {blocks : List SentBlock} (once : (blocks.map SentBlock.pointer).Nodup)
    {first second : SentBlock} (inFirst : first ∈ blocks) (inSecond : second ∈ blocks)
    (same : first.pointer = second.pointer) : first = second :=
  List.inj_on_of_nodup_map once inFirst inSecond same

theorem find?_pointer {blocks : List SentBlock} (once : (blocks.map SentBlock.pointer).Nodup)
    {block : SentBlock} (member : block ∈ blocks) :
    (blocks.find? fun sent => sent.pointer = block.pointer) = some block := by
  cases found : blocks.find? fun sent => sent.pointer = block.pointer with
  | none =>
      have nowhere := List.find?_eq_none.mp found block member
      simp at nowhere
  | some other =>
      have same := List.find?_some found
      rw [eq_of_pointer once (List.mem_of_find?_eq_some found) member (by simpa using same)]

theorem pointer_ne_of_mem_eraseIdx {blocks : List SentBlock}
    (once : (blocks.map SentBlock.pointer).Nodup) {position : Nat} {block other : SentBlock}
    (located : blocks[position]? = some block) (member : other ∈ blocks.eraseIdx position) :
    other.pointer ≠ block.pointer := by
  obtain ⟨inside, atPosition⟩ := List.getElem?_eq_some_iff.mp located
  have parts := (List.getElem_cons_eraseIdx_perm inside).map SentBlock.pointer
  rw [atPosition, List.map_cons] at parts
  have apart := (List.nodup_cons.mp (parts.nodup_iff.mpr once)).1
  intro same
  exact apart (same ▸ List.mem_map_of_mem member)

theorem map_stampPointer_others {blocks : List SentBlock}
    (once : (blocks.map SentBlock.pointer).Nodup) {position : Nat} {block : SentBlock}
    (located : blocks[position]? = some block) (id : Nat) (clock : Int) :
    (blocks.eraseIdx position).map (Session.stampPointer block.pointer id clock) =
      blocks.eraseIdx position := by
  calc (blocks.eraseIdx position).map (Session.stampPointer block.pointer id clock)
    _ = (blocks.eraseIdx position).map fun sent => sent := by
        apply List.map_congr_left
        intro sent member
        exact Session.stampPointer_other (pointer_ne_of_mem_eraseIdx once located member)
    _ = blocks.eraseIdx position := List.map_id' _

namespace Session

/-- The blocks of `sendmarkq_` were each allocated, and each only once. -/
structure Distinct (s : Session) : Prop where
  once : (s.sendmarkq.toList.map SentBlock.pointer).Nodup
  pointers : ∀ sent ∈ s.sendmarkq.toList,
    sent.pointer ≠ headPointer ∧ sent.pointer ≤ s.allocated

theorem map_stampPointer_pointer (blocks : List SentBlock) (pointer id : Nat) (clock : Int) :
    (blocks.map (stampPointer pointer id clock)).map SentBlock.pointer =
      blocks.map SentBlock.pointer := by
  rw [List.map_map]
  exact List.map_congr_left fun sent _ => stampPointer_pointer pointer id clock sent

namespace Distinct

variable {s : Session}

theorem frame (distinct : s.Distinct) {session : Session}
    (sendmarkq : session.sendmarkq = s.sendmarkq) (allocated : session.allocated = s.allocated) :
    session.Distinct := by
  constructor
  · rw [sendmarkq]
    exact distinct.once
  · rw [sendmarkq, allocated]
    exact distinct.pointers

theorem stored (distinct : s.Distinct) {session : Session} (block : Block)
    (perm : session.sendmarkq.toList.Perm (⟨s.allocated + 1, block⟩ :: s.sendmarkq.toList))
    (allocated : session.allocated = s.allocated + 1) : session.Distinct := by
  constructor
  · apply ((perm.map SentBlock.pointer).nodup_iff).mpr
    apply List.nodup_cons.mpr
    refine ⟨?_, distinct.once⟩
    intro member
    obtain ⟨sent, inQueue, same⟩ := List.mem_map.mp member
    have bound := (distinct.pointers sent inQueue).2
    simp only at same
    omega
  · intro sent member
    rw [allocated]
    rcases List.mem_cons.mp (perm.mem_iff.mp member) with rfl | old
    · exact ⟨Nat.succ_ne_zero _, Nat.le_refl _⟩
    · have known := distinct.pointers sent old
      exact ⟨known.1, Nat.le_succ_of_le known.2⟩

theorem removed (distinct : s.Distinct) {session : Session}
    (sublist : session.sendmarkq.toList.Sublist s.sendmarkq.toList)
    (allocated : session.allocated = s.allocated) : session.Distinct := by
  constructor
  · exact distinct.once.sublist (sublist.map _)
  · rw [allocated]
    intro sent member
    exact distinct.pointers sent (sublist.subset member)

theorem restamped (distinct : s.Distinct) {session : Session} {pointer id : Nat} {clock : Int}
    (perm : session.sendmarkq.toList.Perm
      (s.sendmarkq.toList.map (stampPointer pointer id clock)))
    (allocated : session.allocated = s.allocated) : session.Distinct := by
  constructor
  · apply ((perm.map SentBlock.pointer).nodup_iff).mpr
    rw [map_stampPointer_pointer]
    exact distinct.once
  · intro sent member
    obtain ⟨old, inQueue, stamped⟩ := List.mem_map.mp (perm.mem_iff.mp member)
    rw [← stamped, stampPointer_pointer, allocated]
    exact distinct.pointers old inQueue

end Distinct

/-- A block that can be found is erased where it stands and goes last. -/
theorem resend_found {s : Session} (distinct : s.Distinct) (balance : Balance SentBlock)
    {pointer id : Nat} {clock : Int}
    (largest : ∀ sent ∈ s.sendmarkq.toList, sent.block.clock ≤ clock)
    (resortable : (s.stampSent pointer id clock).Resortable pointer) :
    ∃ position block sendmarkq, s.sendmarkq.toList[position]? = some block ∧
      block.pointer = pointer ∧
      s.resend balance pointer id clock =
        { session := { s with sendmarkq := sendmarkq }, ret := -1 } ∧
      sendmarkq.toList = s.sendmarkq.toList.eraseIdx position ++
        [stampPointer pointer id clock block] := by
  obtain ⟨position, block, located, same, before, turns⟩ := resortable
  have stampedList : (s.stampSent pointer id clock).sendmarkq.toList =
      s.sendmarkq.toList.map (stampPointer pointer id clock) := Tree.toList_map _ _
  have pointers : (s.stampSent pointer id clock).sendmarkq.toList.map SentBlock.pointer =
      s.sendmarkq.toList.map SentBlock.pointer := by
    rw [stampedList, map_stampPointer_pointer]
  have member := List.mem_of_getElem? located
  have moved := located
  rw [stampedList, List.getElem?_map] at moved
  obtain ⟨old, wasAt, stamped⟩ := Option.map_eq_some_iff.mp moved
  have oldPointer : old.pointer = pointer := by
    rw [← same, ← stamped, stampPointer_pointer]
  have newClock : block.block.clock = clock := by
    rw [← stamped]
    exact stampPointer_clock oldPointer
  have rest := map_stampPointer_others distinct.once wasAt id clock
  rw [oldPointer] at rest
  have found : (s.stampSent pointer id clock).sendmarkq.find blockClockCompare block =
      some position := by
    apply Tree.find_reached located
    · simp [blockClockCompare]
    · simp [blockClockCompare]
    · intro earlier inFront
      exact (blockClockCompare_eq_true _ _).mpr (before earlier inFront)
    · intro turn onPath
      exact (blockClockCompare_eq_false _ _).mpr (turns turn onPath)
  have notHead : block.pointer ≠ headPointer := by
    rw [same, ← oldPointer]
    exact (distinct.pointers old (List.mem_of_getElem? wasAt)).1
  have looked : ((s.stampSent pointer id clock).sendmarkq.toList.find? fun sent =>
      sent.pointer = pointer) = some block := by
    have unique := find?_pointer (pointers ▸ distinct.once) member
    rwa [same] at unique
  refine ⟨position, old, balance.run
    ((balance.run ((s.stampSent pointer id clock).sendmarkq.erase position)).insert
      blockClockCompare block), wasAt, oldPointer, ?_, ?_⟩
  · simp only [resend, looked, handleSendqMoveToSendmarkq_found balance notHead found]
    rfl
  · have erased : (balance.run ((s.stampSent pointer id clock).sendmarkq.erase position)).toList =
        s.sendmarkq.toList.eraseIdx position := by
      rw [Balance.toList_run, Tree.toList_erase, stampedList, List.eraseIdx_map, rest]
    rw [Balance.toList_run, Tree.toList_insert_last, erased, stamped]
    intro item member
    rw [erased] at member
    rw [blockClockCompare_eq_false, newClock]
    exact largest item (List.mem_of_mem_eraseIdx member)

/-- The search comes to a block of the new clock. -/
theorem clock_findResent {s : Session} {pointer id : Nat} {clock : Int} {other : SentBlock}
    (finds : s.findResent pointer id clock = some other) : other.block.clock = clock := by
  have stampedList : (s.stampSent pointer id clock).sendmarkq.toList =
      s.sendmarkq.toList.map (stampPointer pointer id clock) := Tree.toList_map _ _
  obtain ⟨block, looked, more⟩ := Option.bind_eq_some_iff.mp finds
  obtain ⟨it, found, located⟩ := Option.bind_eq_some_iff.mp more
  obtain ⟨reached, atPosition, notBelow, notAbove⟩ := Tree.find_spec found
  rw [located, Option.some.injEq] at atPosition
  rw [← atPosition, blockClockCompare_eq_false] at notBelow notAbove
  have member := List.mem_of_find?_eq_some looked
  rw [stampedList] at member
  obtain ⟨old, _, stamped⟩ := List.mem_map.mp member
  have same : block.pointer = pointer := by simpa using List.find?_some looked
  have newClock : block.block.clock = clock := by
    rw [← stamped] at same ⊢
    rw [stampPointer_pointer] at same
    exact stampPointer_clock same
  rw [← newClock]
  exact Int.le_antisymm notAbove notBelow

/-- Whatever the clocks are, a resend stamps the block and leaves the queue so,
or erases the block that the search comes to and inserts the stamped one. -/
theorem resend_cases (s : Session) (balance : Balance SentBlock) (pointer id : Nat)
    (clock : Int) (allocated : ∀ sent ∈ s.sendmarkq.toList, sent.pointer ≠ headPointer) :
    ∃ sendmarkq, s.resend balance pointer id clock =
        { session := { s with sendmarkq := sendmarkq }, ret := -1 } ∧
      (sendmarkq.toList = s.sendmarkq.toList.map (stampPointer pointer id clock) ∨
        ∃ block it other,
          block ∈ s.sendmarkq.toList.map (stampPointer pointer id clock) ∧
          block.pointer = pointer ∧
          (s.sendmarkq.toList.map (stampPointer pointer id clock))[it]? = some other ∧
          s.findResent pointer id clock = some other ∧
          sendmarkq.toList.Perm (block ::
            (s.sendmarkq.toList.map (stampPointer pointer id clock)).eraseIdx it)) := by
  have stampedList : (s.stampSent pointer id clock).sendmarkq.toList =
      s.sendmarkq.toList.map (stampPointer pointer id clock) := Tree.toList_map _ _
  cases looked : (s.stampSent pointer id clock).sendmarkq.toList.find? fun sent =>
      sent.pointer = pointer with
  | none =>
      refine ⟨(s.stampSent pointer id clock).sendmarkq, ?_, Or.inl stampedList⟩
      simp only [resend, looked]
      rfl
  | some block =>
      have member := List.mem_of_find?_eq_some looked
      have same : block.pointer = pointer := by simpa using List.find?_some looked
      rw [stampedList] at member
      have notHead : block.pointer ≠ headPointer := by
        obtain ⟨old, inQueue, stamped⟩ := List.mem_map.mp member
        rw [← stamped, stampPointer_pointer]
        exact allocated old inQueue
      cases found : (s.stampSent pointer id clock).sendmarkq.find blockClockCompare block with
      | none =>
          have other : (!(s.stampSent pointer id clock).sendqHeadExists ||
              decide (block.pointer ≠ headPointer)) = true := by
            simp [notHead]
          refine ⟨(s.stampSent pointer id clock).sendmarkq, ?_, Or.inl stampedList⟩
          simp only [resend, looked, handleSendqMoveToSendmarkq, other, ↓reduceIte, found]
          rfl
      | some it =>
          obtain ⟨other, located, _⟩ := Tree.find_spec found
          have finds : s.findResent pointer id clock = some other := by
            simp only [findResent, looked, Option.bind_some, found, located]
          rw [stampedList] at located
          refine ⟨balance.run
            ((balance.run ((s.stampSent pointer id clock).sendmarkq.erase it)).insert
              blockClockCompare block), ?_,
            Or.inr ⟨block, it, other, member, same, located, finds, ?_⟩⟩
          · simp only [resend, looked, handleSendqMoveToSendmarkq_found balance notHead found]
            rfl
          · rw [Balance.toList_run]
            apply (Tree.insert_perm _ _ _).trans
            rw [Balance.toList_run, Tree.toList_erase, stampedList]

theorem resend_subset {s : Session} (balance : Balance SentBlock) {pointer id : Nat}
    {clock : Int} (allocated : ∀ sent ∈ s.sendmarkq.toList, sent.pointer ≠ headPointer)
    {sendmarkq : SearchTree.Tree SentBlock} (resent : s.resend balance pointer id clock =
      { session := { s with sendmarkq := sendmarkq }, ret := -1 }) :
    ∀ sent ∈ sendmarkq.toList,
      sent ∈ s.sendmarkq.toList.map (stampPointer pointer id clock) := by
  obtain ⟨queue, same, contents⟩ := s.resend_cases balance pointer id clock allocated
  have isQueue : sendmarkq = queue :=
    congrArg (fun result => result.session.sendmarkq) (resent.symm.trans same)
  rw [isQueue]
  intro sent member
  rcases contents with all | ⟨block, it, other, inQueue, _, _, _, perm⟩
  · rwa [all] at member
  · rcases List.mem_cons.mp (perm.mem_iff.mp member) with rfl | rest
    · exact inQueue
    · exact List.mem_of_mem_eraseIdx rest

/-- With a clock above all others, the only block of that clock is the resent one. -/
theorem resend_strict {s : Session} (distinct : s.Distinct) (balance : Balance SentBlock)
    (pointer id : Nat) {clock : Int}
    (above : ∀ sent ∈ s.sendmarkq.toList, sent.block.clock < clock) :
    ∃ sendmarkq, s.resend balance pointer id clock =
        { session := { s with sendmarkq := sendmarkq }, ret := -1 } ∧
      sendmarkq.toList.Perm (s.sendmarkq.toList.map (stampPointer pointer id clock)) := by
  obtain ⟨sendmarkq, resent, same | ⟨block, it, other, member, isBlock, located, finds, perm⟩⟩ :=
    s.resend_cases balance pointer id clock fun sent member => (distinct.pointers sent member).1
  · refine ⟨sendmarkq, resent, ?_⟩
    rw [same]
  · refine ⟨sendmarkq, resent, perm.trans ?_⟩
    have inQueue := List.mem_of_getElem? located
    have newClock := clock_findResent finds
    obtain ⟨source, sourceMember, sourceStamped⟩ := List.mem_map.mp inQueue
    have otherPointer : other.pointer = pointer := by
      by_cases equal : source.pointer = pointer
      · rw [← sourceStamped, stampPointer_pointer, equal]
      · rw [stampPointer_other equal] at sourceStamped
        have below := above source sourceMember
        rw [sourceStamped, newClock] at below
        exact absurd below (Int.lt_irrefl _)
    have itself : other = block := by
      apply eq_of_pointer _ inQueue member (otherPointer.trans isBlock.symm)
      rw [map_stampPointer_pointer]
      exact distinct.once
    obtain ⟨inside, atPosition⟩ := List.getElem?_eq_some_iff.mp located
    have parts := List.getElem_cons_eraseIdx_perm inside
    rwa [atPosition, itself] at parts

@[simp] theorem toList_handleSendmarkqRemoveRange (s : Session) (balance : Balance SentBlock)
    (start stop : Nat) :
    (s.handleSendmarkqRemoveRange balance start stop).sendmarkq.toList =
      s.sendmarkq.toList.filter fun sent => !sent.block.inRange start stop := by
  simp only [handleSendmarkqRemoveRange, Balance.toList_run, Tree.toList_filter]

end Session

/-- What the queue and the live blocks keep to when every resend finds its block. -/
structure RetransmitInv (queue : Retransmit) : Prop where
  distinct : queue.sender.session.Distinct
  blocks : queue.queued.Perm queue.live
  order : Ordered blockClockCompare queue.queued

theorem Session.Fresh.distinct {session : Session} (fresh : session.Fresh) :
    session.Distinct := by
  constructor
  · rw [fresh.sendmarkq]
    exact List.nodup_nil
  · intro sent member
    rw [fresh.sendmarkq] at member
    cases member

namespace RetransmitInv

variable {queue : Retransmit}

theorem initial {session : Session} (fresh : session.Fresh) :
    RetransmitInv { sender := { session := session } } := by
  have nothing : session.sendmarkq.toList = [] := by
    rw [fresh.sendmarkq]
    rfl
  constructor
  · exact fresh.distinct
  · simp only [Retransmit.queued, nothing]
    exact List.Perm.refl []
  · simp only [Retransmit.queued, nothing]
    exact List.Pairwise.nil

theorem frame (inv : RetransmitInv queue) {sender : Sender}
    (sendmarkq : sender.session.sendmarkq = queue.sender.session.sendmarkq)
    (allocated : sender.session.allocated = queue.sender.session.allocated) :
    RetransmitInv { queue with sender := sender } := by
  constructor
  · exact inv.distinct.frame sendmarkq allocated
  · simp only [Retransmit.queued, sendmarkq]
    exact inv.blocks
  · simp only [Retransmit.queued, sendmarkq]
    exact inv.order

theorem moveHead (inv : RetransmitInv queue) (balance : Balance SentBlock)
    (exists_ : queue.sender.session.sendqHeadExists = true) :
    RetransmitInv (queue.next (.moveHead balance)) := by
  rcases queue.sender.session.handleSendqMoveToSendmarkq_cases balance
    queue.sender.session.headBlock with same | ⟨notHead, _⟩ | ⟨_, _, room, stored⟩
  · simp only [Retransmit.next, Sender.next, Sender.move, same, Option.toList_none,
      List.append_nil]
    exact inv.frame rfl rfl
  · rcases notHead with absent | other
    · rw [exists_] at absent
      cases absent
    · exact absurd rfl other
  · have inserted : (balance.run (queue.sender.session.sendmarkq.insert blockClockCompare
        ⟨queue.sender.session.allocated + 1, queue.sender.session.sendqHead⟩)).toList.Perm
          (⟨queue.sender.session.allocated + 1, queue.sender.session.sendqHead⟩ ::
            queue.queued) := by
      rw [Balance.toList_run]
      exact Tree.insert_perm _ _ _
    simp only [Retransmit.next, Sender.next, Sender.move, stored, Option.toList_some]
    constructor
    · exact inv.distinct.stored _ inserted rfl
    · exact inserted.trans ((inv.blocks.cons _).trans (List.perm_append_singleton _ _).symm)
    · simp only [Retransmit.queued, Balance.toList_run]
      exact Tree.ordered_insert blockClockCompare_weakOrder _ inv.order

theorem removeRange (inv : RetransmitInv queue) (balance : Balance SentBlock)
    (start stop : Nat) : RetransmitInv (queue.next (.removeRange balance start stop)) := by
  have left := queue.sender.session.toList_handleSendmarkqRemoveRange balance start stop
  have sublist : (queue.next (.removeRange balance start stop)).queued.Sublist queue.queued := by
    simp only [Retransmit.queued, Retransmit.next, Sender.next, left]
    exact List.filter_sublist
  constructor
  · exact inv.distinct.removed sublist rfl
  · simp only [Retransmit.queued, Retransmit.next, Sender.next, left]
    exact inv.blocks.filter _
  · exact List.Pairwise.sublist sublist inv.order

theorem resend (inv : RetransmitInv queue) (balance : Balance SentBlock) (pointer id : Nat)
    (clock : Int) (found : queue.Found (.resend balance pointer id clock)) :
    RetransmitInv (queue.next (.resend balance pointer id clock)) := by
  obtain ⟨⟨queued, largest⟩, resortable⟩ := found
  obtain ⟨position, block, sendmarkq, located, same, resent, order⟩ :=
    Session.resend_found inv.distinct balance largest resortable
  have rest := map_stampPointer_others inv.distinct.once located id clock
  rw [same] at rest
  obtain ⟨inside, atPosition⟩ := List.getElem?_eq_some_iff.mp located
  have parts := List.getElem_cons_eraseIdx_perm inside
  rw [atPosition] at parts
  have perm : sendmarkq.toList.Perm
      (queue.queued.map (Session.stampPointer pointer id clock)) := by
    rw [order]
    have stamped := parts.map (Session.stampPointer pointer id clock)
    rw [List.map_cons, rest] at stamped
    exact (List.perm_append_singleton _ _).trans stamped
  simp only [Retransmit.next, Sender.next, Sender.move, resent, Option.toList_none,
    List.append_nil]
  constructor
  · exact inv.distinct.restamped perm rfl
  · exact perm.trans (inv.blocks.map _)
  · simp only [Retransmit.queued, order]
    apply List.pairwise_append.mpr
    refine ⟨List.Pairwise.sublist (List.eraseIdx_sublist _ _) inv.order,
      List.pairwise_singleton _ _, ?_⟩
    intro earlier inFront later member
    rw [List.mem_singleton.mp member, blockClockCompare_eq_false,
      Session.stampPointer_clock same]
    exact largest earlier (List.mem_of_mem_eraseIdx inFront)

theorem next (inv : RetransmitInv queue) (action : SenderAction) (found : queue.Found action) :
    RetransmitInv (queue.next action) := by
  cases action with
  | start => exact inv.frame rfl rfl
  | write buffer =>
      have same := queue.sender.session.sendmarkq_write buffer
      exact inv.frame same.1 same.2
  | setEof => exact inv.frame rfl rfl
  | sendqHead maximum =>
      have same := queue.sender.session.sendmarkq_askHead maximum
      exact inv.frame same.1 same.2
  | stampHead id clock offset => exact inv.frame rfl rfl
  | moveHead balance => exact inv.moveHead balance found.1
  | resend balance pointer id clock => exact inv.resend balance pointer id clock found
  | removeRange balance start stop => exact inv.removeRange balance start stop

theorem kept (inv : RetransmitInv queue) : queue.Kept where
  blocks := inv.blocks
  once := inv.distinct.once
  order := (ordered_blockClockCompare _).mp inv.order
  head := by
    intro sent member
    have queued := inv.blocks.mem_iff.mpr member
    have order := inv.order
    cases first : queue.queued with
    | nil =>
        rw [first] at queued
        cases queued
    | cons least rest =>
        rw [first] at queued order
        refine ⟨least, inv.blocks.mem_iff.mp (by rw [first]; simp), ?_, ?_⟩
        · simp only [Session.handleSendmarkqHead]
          rw [show queue.sender.session.sendmarkq.toList = least :: rest from first]
          rfl
        · rcases List.mem_cons.mp queued with rfl | later
          · exact Int.le_refl _
          · exact (blockClockCompare_eq_false _ _).mp ((List.pairwise_cons.mp order).1 sent later)

end RetransmitInv

/-- While every resent block can be found by its new clock, `sendmarkq_` stays a
clock-ordered queue of the live blocks. -/
theorem resend_keeps_queue {session : Session} {queue : Retransmit} (fresh : session.Fresh)
    (reached : Reaches Retransmit.next Retransmit.Found { sender := { session := session } }
      queue) : queue.Kept := by
  have inv : RetransmitInv queue := reached.invariant (RetransmitInv.initial fresh)
    fun _ action inv found => inv.next action found
  exact inv.kept

/-- Write one byte, take it as a head, stamp it with its number as id and clock,
and move it. -/
def insertByte (byte : UInt8) (number : Nat) (balance : Balance SentBlock) :
    List SenderAction :=
  [.write ⟨[byte], (by decide : 1 < 2 ^ 64)⟩, .sendqHead 1, .stampHead number number number,
    .moveHead balance]

theorem resend_keeps_queue_of_two :
    let session : Session := { pendingMaximum := 4 }
    let queue := (insertByte 10 1 .id ++ insertByte 20 2 .id ++ [SenderAction.resend .id 1 3 3]).foldl
      Retransmit.next { sender := { session := session } }
    queue.Kept ∧ queue.queued.map (fun sent => sent.block.clock) = [2, 3] := by
  intro session queue
  have fresh : session.Fresh := Session.fresh_configured _ _ _
  have resortable : ((insertByte 10 1 .id ++ insertByte 20 2 .id).foldl Retransmit.next
      { sender := { session := session } }).Found (.resend .id 1 3 3) :=
    ⟨⟨by decide, by decide⟩, 0, ⟨1, { id := 3, clock := 3, offset := 1, data := [10] }⟩,
      by decide, rfl, by decide, by decide⟩
  have reached : Reaches Retransmit.next Retransmit.Found { sender := { session := session } }
      queue :=
    Reaches.start.schedule _ ⟨⟨trivial, trivial⟩, ⟨trivial, trivial⟩, ⟨trivial, trivial⟩,
      ⟨by decide, trivial⟩, ⟨trivial, trivial⟩, ⟨trivial, trivial⟩, ⟨trivial, trivial⟩,
      ⟨by decide, trivial⟩, resortable, trivial⟩
  exact ⟨resend_keeps_queue fresh reached, by decide⟩

/-- The first of three blocks, resent, is not found below the root: it stays
where it stands, in front of blocks with smaller clocks. -/
theorem resend_breaks_queue_of_three :
    ¬ ∀ (session : Session) (queue : Retransmit), session.Fresh →
      Reaches Retransmit.next Retransmit.Allowed { sender := { session := session } } queue →
      queue.Kept := by
  intro claimed
  have reached : Reaches Retransmit.next Retransmit.Allowed
      { sender := { session := { pendingMaximum := 4 } } }
      ((insertByte 10 1 .id ++ insertByte 20 2 .id ++ insertByte 30 3 .rotateLeft ++
        [SenderAction.resend .id 1 4 4]).foldl Retransmit.next
          { sender := { session := { pendingMaximum := 4 } } }) :=
    Reaches.start.schedule _ (by decide)
  have kept := claimed _ _ (Session.fresh_configured _ _ _) reached
  exact absurd kept.order (by decide)

end CurvecprAsio
