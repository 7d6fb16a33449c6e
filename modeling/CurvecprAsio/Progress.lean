import CurvecprAsio.Custody
import CurvecprAsio.Gap
import CurvecprAsio.Wakeup

set_option autoImplicit false

/- The transport never runs into a dead end: unless the receive queue is full of blocks
above a gap, the two sides and the network can still hand every byte to the reader. -/
namespace CurvecprAsio

open Transition SearchTree Sweep

/-- How far B's reader has got. -/
def Link.cursor (link : Link) : Nat := link.b.session.recvmarkqDistributed

/-- A read that has nothing to copy marks everything it passes. -/
theorem readLoop_marks (queue : List BlockStatus) (pass : ReadPass)
    (sorted : Ordered blockRangeCompare queue)
    (passed : ∀ element ∈ queue, element.block.offset ≤ pass.distributed →
      element.block.endOffset ≤ pass.distributed) :
    ∀ left ∈ (readLoop queue pass).1, left.block.offset ≤ pass.distributed →
      left.distributed = true := by
  induction queue generalizing pass with
  | nil =>
      intro left member
      cases member
  | cons first rest ih =>
      have parts := List.pairwise_cons.mp sorted
      by_cases reached : first.block.offset ≤ pass.distributed
      · have next := ih (pass.distribute first.block) parts.2
          fun element member => passed element (List.mem_cons_of_mem _ member)
        simp only [readLoop, reached, ↓reduceIte,
          ReadPass.consume_nothing (passed first List.mem_cons_self reached), Bool.false_eq_true]
        intro left member begins
        split at member
        · exact next left member begins
        · rcases List.mem_cons.mp member with rfl | later
          · rfl
          · exact next left later begins
      · simp only [readLoop, reached, ↓reduceIte]
        intro left member begins
        have inOrder := List.pairwise_cons.mp (offsets_sorted sorted)
        have behind : first.block.offset ≤ left.block.offset := by
          rcases List.mem_cons.mp member with rfl | later
          · exact Nat.le_refl _
          · exact inOrder.1 left later
        omega

theorem Link.sendHead_room (link : Link) (balance : Balance SentBlock) (id : Nat) (clock : Int)
    (exists_ : link.a.session.sendqHeadExists = true)
    (room : link.a.session.handleSendmarkqIsFull = false) :
    ∃ session sendmarkq, session = link.a.session.stampHead id clock link.headOffset ∧
      link.sendHead balance id clock = { link with
        a := { link.a with
          session := { session with
            allocated := link.a.session.allocated + 1, sendmarkq := sendmarkq
            sendqHeadExists := false }
          moved := link.a.moved ++ [⟨link.a.session.allocated + 1, session.sendqHead⟩] }
        total := link.headTotal, headSent := false
        wire := session.sendqHead :: link.wire } := by
  obtain ⟨session, stamped, stays | ⟨sendmarkq, _, stored⟩⟩ :=
    link.sendHead_cases balance id clock exists_
  · have moved : (link.sendHead balance id clock).a.session.sendqHeadExists = false := by
      have still : (link.a.session.stampHead id clock link.headOffset).sendqHeadExists = true :=
        exists_
      have open_ : (link.a.session.stampHead id clock link.headOffset).handleSendmarkqIsFull =
          false := room
      simp [Link.sendHead, Sender.next, Sender.move, Session.handleSendqMoveToSendmarkq,
        Session.headBlock, still, open_]
    rw [stays] at moved
    rw [stamped] at moved
    exact absurd (moved.symm.trans exists_) Bool.false_ne_true
  · exact ⟨session, sendmarkq, stamped, stored⟩

/-- What holds of the two sides whatever is written, sent and read. `waits` says that the
read that waits has room left. -/
structure FlowInv (capacity slots : Nat) (link : Link) : Prop where
  custody : CustodyInv capacity link
  sorted : link.b.session.Sorted
  within : link.b.session.recvmarkq.length ≤ link.b.maximum
  waits : ∀ held, link.b.outstanding = some held →
    link.b.session.recvmarkqReadOffset < held.length
  slots : link.a.session.sendmarkqMaximum = slots

theorem Session.slots_move (s : Session) (balance : Balance SentBlock) (block : SentBlock) :
    (s.handleSendqMoveToSendmarkq balance block).session.sendmarkqMaximum =
      s.sendmarkqMaximum := by
  rcases s.handleSendqMoveToSendmarkq_cases balance block with
    same | ⟨_, it, _, moved⟩ | ⟨_, _, _, stored⟩
  · rw [same]
  · rw [moved]
  · rw [stored]

theorem Session.slots_askHead (s : Session) (maximum : Nat) :
    (s.askHead maximum).session.sendmarkqMaximum = s.sendmarkqMaximum := by
  simp only [Session.askHead, Session.handleSendqHead, Session.takeHead]
  split
  · rfl
  · split
    · split <;> rfl
    · rfl

theorem Sender.slots_next (sender : Sender) (action : SenderAction) :
    (sender.next action).session.sendmarkqMaximum = sender.session.sendmarkqMaximum := by
  cases action with
  | write buffer =>
      obtain ⟨_, _, _, _, changed⟩ := sender.session.write_changes buffer
      simp only [Sender.next, Sender.write, changed]
  | sendqHead maximum => exact sender.session.slots_askHead maximum
  | moveHead balance => exact sender.session.slots_move balance _
  | resend balance pointer id clock =>
      simp only [Sender.next, Sender.move, Session.resend]
      split
      · exact (sender.session.stampSent pointer id clock).slots_move balance _
      · rfl
  | start => rfl
  | setEof => rfl
  | stampHead id clock offset => rfl
  | removeRange balance start stop => rfl

theorem Link.slots_next (link : Link) (action : LinkAction) :
    (link.next action).a.session.sendmarkqMaximum = link.a.session.sendmarkqMaximum := by
  cases action with
  | write buffer => exact link.a.slots_next (.write buffer)
  | askHead maximum => exact link.a.slots_next (.sendqHead maximum)
  | sendHead balance id clock => exact Sender.slots_next _ (.moveHead balance)
  | resend balance pointer id clock => exact link.a.slots_next (.resend balance pointer id clock)
  | _ => rfl

/-- A read that waits has room left in its buffer. -/
theorem Reader.waits_read {S : List UInt8} {reader : Reader} (inv : ReaderInv S reader)
    {buffer : Buffer} (retries : reader.Retries buffer) :
    ∀ held, (reader.read buffer).outstanding = some held →
      (reader.read buffer).session.recvmarkqReadOffset < held.length := by
  intro held outstanding
  obtain ⟨loop, _⟩ := inv.pass retries
  have spec := reader.session.read_spec retries.1
  cases done : (reader.session.read buffer).done with
  | true => simp [Reader.read, done] at outstanding
  | false =>
      simp only [Reader.read, done, Bool.false_eq_true, ↓reduceIte,
        Option.some.injEq] at outstanding
      have unfilled := (not_congr (reader.session.read_done_iff retries.1)).mp (by simp [done])
      have inside := loop.safe.room
      have length : (reader.session.readPass buffer).2.buffer.length = buffer.length := loop.length
      simp only [Reader.read, spec.waits done, ← outstanding, spec.held]
      omega

namespace FlowInv

variable {capacity slots : Nat} {link : Link}

theorem initial (capacity : Nat) {a b : Session} (freshA : a.Fresh) (freshB : b.Fresh)
    (small : a.pendingMaximum < 2 ^ 31) :
    FlowInv capacity a.sendmarkqMaximum { a := { session := a }, b := { session := b } } where
  custody := CustodyInv.initial capacity freshA freshB small
  sorted := by
    simp only [Session.Sorted, freshB.recvmarkq]
    exact List.Pairwise.nil
  within := by
    simp only [freshB.recvmarkq]
    exact Nat.zero_le _
  waits := by
    intro held outstanding
    cases outstanding
  slots := rfl

theorem next (inv : FlowInv capacity slots link) (action : LinkAction)
    (allowed : link.AllowedStrict capacity action) :
    FlowInv capacity slots (link.next action) := by
  have custody := inv.custody.next action allowed
  have kept := (link.slots_next action).trans inv.slots
  cases action with
  | deliver block =>
      refine ⟨custody, inv.sorted.put block, ?_, ?_, kept⟩
      · rcases link.b.session.handleRecvmarkqPut_cases block with
          ⟨refused, _⟩ | ⟨room, queue, strand, stored, perm⟩
        · simp only [Link.next, Reader.put, refused]
          exact inv.within
        · have length := perm.length_eq
          rw [List.length_cons] at length
          simp only [Link.next, Reader.put, stored, Reader.maximum]
          omega
      · have same : (link.b.put block).session.recvmarkqReadOffset =
            link.b.session.recvmarkqReadOffset := by
          rcases link.b.session.handleRecvmarkqPut_cases block with
            ⟨refused, _⟩ | ⟨_, queue, strand, stored, _⟩
          · simp only [Reader.put, refused]
          · simp only [Reader.put, stored]
        intro held outstanding
        rw [show (link.next (.deliver block)).b = link.b.put block from rfl, same]
        exact inv.waits held outstanding
  | removeRange start stop =>
      refine ⟨custody, inv.sorted.removeRange start stop, ?_, inv.waits, kept⟩
      have fewer := (acknowledge_sublist start stop link.b.session.recvmarkq).length_le
      rw [List.length_map, List.length_map] at fewer
      exact Nat.le_trans fewer inv.within
  | read buffer =>
      have retries : link.b.Retries buffer := allowed.1
      have spec := link.b.session.read_spec retries.1
      refine ⟨custody, inv.sorted.read buffer, ?_, ?_, kept⟩
      · have fewer := (readLoop_sublist link.b.session.recvmarkq
          (link.b.session.readEntry buffer)).length_le
        rw [List.length_map, List.length_map] at fewer
        simp only [Link.next, Reader.maximum, Reader.read, spec.queue,
          Session.recvmarkqMaximum_read]
        exact Nat.le_trans fewer inv.within
      · exact Reader.waits_read inv.custody.base.reader retries
  | _ => exact ⟨custody, inv.sorted, inv.within, inv.waits, kept⟩

end FlowInv

/-- A state in which the reader is at the cursor and room is left for it to go on. -/
structure Flowing (capacity slots : Nat) (S : List UInt8) (cursor : Nat) (link : Link) :
    Prop where
  flow : FlowInv capacity slots link
  room : RoomInv link.b
  accepted : link.a.accepted = S
  reading : link.cursor = cursor

/-- The same with the reader beyond the cursor. -/
structure Further (capacity slots : Nat) (S : List UInt8) (cursor : Nat) (link : Link) :
    Prop where
  flow : FlowInv capacity slots link
  room : RoomInv link.b
  accepted : link.a.accepted = S
  reading : cursor < link.cursor

/-- A schedule takes the reader beyond the cursor. -/
abbrev Advances (capacity slots : Nat) (S : List UInt8) (cursor : Nat) (link : Link) : Prop :=
  Leads Link.next (Link.AllowedStrict capacity) (Further capacity slots S cursor) link

namespace Flowing

variable {capacity slots cursor : Nat} {S : List UInt8} {link : Link}

/-- A step at A, or on the network. -/
theorem beside (flowing : Flowing capacity slots S cursor link) {action : LinkAction}
    (allowed : link.AllowedStrict capacity action) (same : (link.next action).b = link.b)
    (accepted : (link.next action).a.accepted = link.a.accepted) :
    Flowing capacity slots S cursor (link.next action) where
  flow := flowing.flow.next action allowed
  room := by
    rw [same]
    exact flowing.room
  accepted := accepted.trans flowing.accepted
  reading := by
    rw [Link.cursor, same]
    exact flowing.reading

/-- There is a buffer that the reader may read into, and it has room. -/
theorem buffer (flowing : Flowing capacity slots S cursor link) :
    ∃ buffer, link.b.Retries buffer ∧ link.b.session.recvmarkqReadOffset < buffer.length := by
  cases outstanding : link.b.outstanding with
  | none =>
      have idle := flowing.flow.custody.base.reader.idle outstanding
      refine ⟨⟨[0], by decide⟩, ⟨Nat.one_ne_zero, ?_⟩, ?_⟩
      · intro held isHeld
        rw [outstanding] at isHeld
        cases isHeld
      · rw [idle]
        exact Nat.one_pos
  | some held =>
      have room := flowing.flow.waits held outstanding
      refine ⟨held, ⟨by omega, ?_⟩, room⟩
      intro other isOther
      rw [outstanding] at isOther
      exact Option.some.inj isOther

theorem fits (flowing : Flowing capacity slots S cursor link) :
    ∀ element ∈ link.b.session.recvmarkq,
      element.block.offset + element.block.dataLen < 2 ^ 64 := by
  have base := flowing.flow.custody.base
  exact fun element queued =>
    base.sent_fits (base.arrived _ (base.holds.sources element queued))

/-- The reader can go on where its next byte is queued. -/
theorem read (flowing : Flowing capacity slots S cursor link) {element : BlockStatus}
    (queued : element ∈ link.b.session.recvmarkq) (covers : element.block.Covers cursor) :
    Advances capacity slots S cursor link := by
  obtain ⟨buffer, retries, room⟩ := flowing.buffer
  have base := flowing.flow.custody.base
  have allowed : link.AllowedStrict capacity (.read buffer) := ⟨retries, trivial⟩
  apply Leads.step (.read buffer) allowed
  apply Leads.now
  refine ⟨flowing.flow.next _ allowed, flowing.room.read base.reader retries, flowing.accepted, ?_⟩
  have small := buffer.length_lt
  have word := base.reader.word
  have isAt : link.b.session.recvmarkqDistributed = cursor := flowing.reading
  obtain ⟨moved, _⟩ := readLoop_sweep link.b.session.recvmarkq
    (link.b.session.readEntry buffer) word
  have limit : (link.b.session.readEntry buffer).limit =
      cursor + (buffer.length - link.b.session.recvmarkqReadOffset) := by
    simp only [ReadPass.limit, Session.readEntry, sub64_eq (Nat.le_of_lt room) small, isAt]
  have beyond : cursor < sweep BlockStatus.offset BlockStatus.endOffset
      link.b.session.recvmarkq cursor := by
    have further := le_sweep BlockStatus.offset BlockStatus.endOffset
      link.b.session.recvmarkq cursor
    have gap := gap_sweep BlockStatus.offset BlockStatus.endOffset cursor
      (offsets_sorted flowing.flow.sorted) element queued
    have ends := element.block.endOffset_eq (flowing.fits element queued)
    apply Nat.lt_of_le_of_ne further
    intro stuck
    rw [← stuck] at gap
    exact gap ⟨covers.1, by rw [BlockStatus.endOffset, ends]; exact covers.2⟩
  have spec := link.b.session.read_spec retries.1
  show cursor < (link.b.read buffer).session.recvmarkqDistributed
  rw [show (link.b.read buffer).session.recvmarkqDistributed =
    (link.b.session.readPass buffer).2.distributed from spec.distributed, Session.readPass, moved,
    limit, show (link.b.session.readEntry buffer).distributed = cursor from isAt]
  omega

/-- A block with the next byte arrives in a queue that has room. -/
theorem put (flowing : Flowing capacity slots S cursor link) {block : Block}
    (onWire : block ∈ link.wire) (covers : block.Covers cursor)
    (open_ : link.b.session.recvmarkq.length < link.b.maximum) :
    Advances capacity slots S cursor link := by
  have allowed : link.AllowedStrict capacity (.deliver block) := ⟨onWire, trivial⟩
  have isAt : link.b.session.recvmarkqDistributed = cursor := flowing.reading
  apply Leads.step (.deliver block) allowed
  rcases link.b.session.handleRecvmarkqPut_cases block with
    ⟨_, full⟩ | ⟨_, queue, strand, stored, perm⟩
  · simp only [Reader.maximum] at open_
    omega
  · have after : Flowing capacity slots S cursor (link.next (.deliver block)) := by
      refine ⟨flowing.flow.next _ allowed, ?_, flowing.accepted, ?_⟩
      · apply flowing.room.put
        exact fun _ => Or.inl (by rw [isAt]; exact covers.1)
      · simp only [Link.cursor, Link.next, Reader.put, stored]
        exact isAt
    have queued : { block := block, distributed := link.b.session.pendingEof } ∈
        (link.next (.deliver block)).b.session.recvmarkq := by
      simp only [Link.next, Reader.put, stored]
      exact perm.mem_iff.mpr List.mem_cons_self
    exact after.read queued covers

/-- Acknowledging what has been read makes room where a marked block is queued. -/
theorem release (flowing : Flowing capacity slots S cursor link) {block : Block}
    (onWire : block ∈ link.wire) (covers : block.Covers cursor) {element : BlockStatus}
    (queued : element ∈ link.b.session.recvmarkq) (marked : element.distributed = true) :
    Advances capacity slots S cursor link := by
  have isAt : link.b.session.recvmarkqDistributed = cursor := flowing.reading
  have allowed : link.AllowedStrict capacity (.removeRange 0 cursor) := ⟨trivial, trivial⟩
  have after : Flowing capacity slots S cursor (link.next (.removeRange 0 cursor)) :=
    ⟨flowing.flow.next _ allowed, flowing.room.removeRange 0 cursor, flowing.accepted, isAt⟩
  have ends := flowing.flow.custody.base.holds.marks element queued marked
  rw [isAt] at ends
  have gone : Session.acknowledge 0 cursor element = none := by
    have inside : element.block.inRange 0 cursor = true :=
      (Block.inRange_iff _ _ _).mpr ⟨Nat.zero_le _, ends⟩
    simp [Session.acknowledge, inside, BlockStatus.done, marked]
  apply Leads.step (.removeRange 0 cursor) allowed
  apply after.put onWire covers
  have fewer : (link.b.session.recvmarkq.filterMap (Session.acknowledge 0 cursor)).length <
      link.b.session.recvmarkq.length := by
    rw [List.length_filterMap_lt_length_iff_exists]
    exact ⟨element, queued, gone⟩
  exact Nat.lt_of_lt_of_le fewer flowing.flow.within

/-- A block with the next byte arrives. Where the queue is full, one of its blocks has been
read to its end: it is marked by a read, and acknowledging it makes room. -/
theorem deliver (flowing : Flowing capacity slots S cursor link) {block : Block}
    (onWire : block ∈ link.wire) (covers : block.Covers cursor) :
    Advances capacity slots S cursor link := by
  by_cases available : ∃ element ∈ link.b.session.recvmarkq, element.block.Covers cursor
  · obtain ⟨element, queued, holds⟩ := available
    exact flowing.read queued holds
  · obtain ⟨buffer, retries, _⟩ := flowing.buffer
    have base := flowing.flow.custody.base
    have isAt : link.b.session.recvmarkqDistributed = cursor := flowing.reading
    have allowed : link.AllowedStrict capacity (.read buffer) := ⟨retries, trivial⟩
    have spec := link.b.session.read_spec retries.1
    have passed : ∀ element ∈ link.b.session.recvmarkq,
        element.block.offset ≤ (link.b.session.readEntry buffer).distributed →
          element.block.endOffset ≤ (link.b.session.readEntry buffer).distributed := by
      intro element queued begins
      rw [show (link.b.session.readEntry buffer).distributed = cursor from isAt] at begins ⊢
      rw [element.block.endOffset_eq (flowing.fits element queued)]
      by_contra beyond
      exact available ⟨element, queued, begins, by omega⟩
    have marks := readLoop_marks _ _ flowing.flow.sorted passed
    have room := flowing.room.read base.reader retries
    have flow := flowing.flow.next _ allowed
    apply Leads.step (.read buffer) allowed
    by_cases further : cursor < (link.next (.read buffer)).cursor
    · exact Leads.now ⟨flow, room, flowing.accepted, further⟩
    · have still : (link.next (.read buffer)).cursor = cursor := by
        obtain ⟨loop, _⟩ := base.reader.pass retries
        have grows : cursor ≤ (link.next (.read buffer)).cursor := by
          simp only [Link.cursor, Link.next, Reader.read, spec.distributed, ← isAt]
          exact loop.grows
        omega
      have after : Flowing capacity slots S cursor (link.next (.read buffer)) :=
        ⟨flow, room, flowing.accepted, still⟩
      by_cases open_ : (link.next (.read buffer)).b.session.recvmarkq.length <
          (link.next (.read buffer)).b.maximum
      · exact after.put onWire covers open_
      · obtain ⟨element, queued, low⟩ := room.usable (Nat.le_of_not_lt open_)
        have reading : (link.b.read buffer).session.recvmarkqDistributed = cursor := still
        rw [reading] at low
        apply after.release onWire covers queued
        simp only [Reader.read, spec.queue] at queued
        rw [show (link.b.session.readEntry buffer).distributed = cursor from isAt] at marks
        exact marks element queued low

theorem later_clock (blocks : List SentBlock) :
    ∃ clock : Int, ∀ sent ∈ blocks, sent.block.clock < clock := by
  induction blocks with
  | nil => exact ⟨0, fun sent member => by cases member⟩
  | cons first rest ih =>
      obtain ⟨clock, above⟩ := ih
      refine ⟨max clock (first.block.clock + 1), fun sent member => ?_⟩
      rcases List.mem_cons.mp member with rfl | behind
      · omega
      · have below := above sent behind
        omega

/-- The next byte is in a block that A can resend. -/
theorem resend (flowing : Flowing capacity slots S cursor link) {sent : SentBlock}
    (queued : sent ∈ link.a.session.sendmarkq.toList) (covers : sent.block.Covers cursor) :
    Advances capacity slots S cursor link := by
  obtain ⟨clock, above⟩ := later_clock link.a.session.sendmarkq.toList
  have allowed : link.AllowedStrict capacity (.resend .id sent.pointer 0 clock) :=
    ⟨⟨sent, queued, rfl⟩, above⟩
  have distinct := flowing.flow.custody.distinct
  have found : ((link.a.session.stampSent sent.pointer 0 clock).sendmarkq.toList.find? fun other =>
      other.pointer = sent.pointer) = some (Session.stampPointer sent.pointer 0 clock sent) := by
    have isPointer := Session.stampPointer_pointer sent.pointer 0 clock sent
    rw [← isPointer]
    have stamped : (link.a.session.stampSent sent.pointer 0 clock).sendmarkq.toList =
        link.a.session.sendmarkq.toList.map (Session.stampPointer sent.pointer 0 clock) :=
      Tree.toList_map _ _
    rw [isPointer, stamped]
    have once := distinct.once
    rw [← Session.map_stampPointer_pointer _ sent.pointer 0 clock] at once
    have located := find?_pointer once (List.mem_map_of_mem queued)
    rw [isPointer] at located
    exact located
  have same := Session.stampPointer_same sent.pointer 0 clock sent
  apply Leads.step _ allowed
  have onWire : (Session.stampPointer sent.pointer 0 clock sent).block ∈
      (link.next (.resend .id sent.pointer 0 clock)).wire := by
    simp only [Link.next, Link.resend, found, Option.map_some, Option.toList_some]
    exact List.mem_append_left _ (List.mem_singleton_self _)
  have after := flowing.beside allowed rfl rfl
  apply after.deliver onWire
  rw [Block.Covers, same.offset, same.dataLen]
  exact covers

/-- The next byte is in the head. -/
theorem sendHead (flowing : Flowing capacity slots S cursor link) (short : S.length < 2 ^ 64)
    (behind : (sentBytes link.a.moved).length ≤ cursor)
    (inside : cursor < (sentBytes link.a.moved).length + link.a.session.headContents.length) :
    Advances capacity slots S cursor link := by
  have base := flowing.flow.custody.base
  have exists_ : link.a.session.sendqHeadExists = true := by
    by_contra absent
    simp only [Session.headContents, absent, ↓reduceIte, List.length_nil] at inside
    omega
  have contents : link.a.session.headContents = link.a.session.sendqHead.data := by
    simp only [Session.headContents, exists_, ↓reduceIte]
  have fits : link.headTotal < 2 ^ 64 := by
    have fifo := congrArg List.length base.sender.fifo
    rw [flowing.accepted, List.length_append, List.length_append, contents] at fifo
    rw [base.headOffset_eq.2, Block.dataLen]
    omega
  have allowed : link.AllowedStrict capacity (.sendHead .id 0 0) := ⟨⟨exists_, fits⟩, trivial⟩
  obtain ⟨session, stamped, outcome⟩ := link.sendHead_cases .id 0 0 exists_
  have offset : session.sendqHead.offset = (sentBytes link.a.moved).length := by
    rw [stamped]
    exact (base.stampHead_head 0 0 fits).1
  have length : session.sendqHead.dataLen = link.a.session.headContents.length := by
    rw [stamped, contents]
    rfl
  have sent : session.sendqHead ∈ (link.next (.sendHead .id 0 0)).wire ∧
      (link.next (.sendHead .id 0 0)).b = link.b ∧
      (link.next (.sendHead .id 0 0)).a.accepted = link.a.accepted := by
    rcases outcome with stays | ⟨sendmarkq, _, stored⟩
    · rw [Link.next, stays]
      exact ⟨List.mem_cons_self, rfl, rfl⟩
    · rw [Link.next, stored]
      exact ⟨List.mem_cons_self, rfl, rfl⟩
  apply Leads.step _ allowed
  apply (flowing.beside allowed sent.2.1 sent.2.2).deliver sent.1
  rw [Block.Covers, offset, length]
  exact ⟨behind, inside⟩

/-- What has been sent ends where A's blocks and head end. -/
theorem sent_before (flowing : Flowing capacity slots S cursor link)
    (absent : link.a.session.sendqHeadExists = false) :
    cursor ≤ (sentBytes link.a.moved).length := by
  have base := flowing.flow.custody.base
  have unsent : link.headSent = false := by
    by_contra headSent
    rw [base.head (by simpa using headSent)] at absent
    cases absent
  have total := base.total
  simp only [Link.sent, unsent, Bool.false_eq_true, ↓reduceIte, List.append_nil] at total
  by_contra beyond
  have isAt : link.b.session.recvmarkqDistributed = cursor := flowing.reading
  obtain ⟨block, arrived, covers⟩ := base.holds.covered (cursor - 1) (by omega)
  obtain ⟨sent, member, same⟩ := base.arrived block arrived
  obtain ⟨index, located⟩ := List.getElem?_of_mem member
  have ends := base.end_le_total located
  have inside := covers.2
  rw [same.offset, same.dataLen] at inside
  omega

/-- The next byte is in the ring, and the head is free for it. -/
theorem takeHead (flowing : Flowing capacity slots S cursor link) (one : 1 ≤ capacity)
    (short : S.length < 2 ^ 64) (more : cursor < S.length)
    (behind : (sentBytes link.a.moved).length ≤ cursor)
    (absent : link.a.session.sendqHeadExists = false) :
    Advances capacity slots S cursor link := by
  have base := flowing.flow.custody.base
  have before := flowing.sent_before absent
  have fifo := congrArg List.length base.sender.fifo
  have headless : link.a.session.headContents = [] := by
    simp only [Session.headContents, absent, Bool.false_eq_true, ↓reduceIte]
  rw [flowing.accepted, headless, List.append_nil, List.length_append] at fifo
  have allowed : link.AllowedStrict capacity (.askHead 1) := ⟨⟨Nat.le_refl _, one⟩, trivial⟩
  apply Leads.step _ allowed
  have after := flowing.beside allowed rfl rfl
  have waits : link.a.session.pendingUsed ≠ 0 := by
    intro empty
    simp only [Session.ringContents, empty, Ring.window_zero, List.length_nil] at fifo
    omega
  have spec := base.sender.ring.askHead 1
  have exists_ : (link.a.session.askHead 1).session.sendqHeadExists = true := by
    simp [Session.askHead, Session.handleSendqHead, Session.limitSend, absent, waits]
  have taken : (link.a.session.askHead 1).session.sendqHeadExists = true ∧
      (link.a.session.askHead 1).session.sendqHead.dataLen = 1 := by
    rcases spec.outcome with same | ⟨_, ⟨block, current, used, strand, changed⟩, length, _⟩
    · rw [same] at exists_
      exact absurd (absent.symm.trans exists_) Bool.false_ne_true
    · refine ⟨exists_, ?_⟩
      rw [length]
      show min link.a.session.pendingUsed 1 = 1
      omega
  apply after.sendHead short behind
  show cursor < (sentBytes link.a.moved).length +
    (link.a.session.askHead 1).session.headContents.length
  rw [Session.headContents, if_pos taken.1]
  have length := taken.2
  rw [Block.dataLen] at length
  omega

/-- The next byte is in the ring, and `sendmarkq_` is empty. -/
theorem moveHead (flowing : Flowing capacity slots S cursor link) (one : 1 ≤ capacity)
    (room : 1 ≤ slots) (short : S.length < 2 ^ 64) (more : cursor < S.length)
    (behind : (sentBytes link.a.moved).length + link.a.session.headContents.length ≤ cursor)
    (emptied : link.a.session.sendmarkq.toList = []) :
    Advances capacity slots S cursor link := by
  have base := flowing.flow.custody.base
  cases exists_ : link.a.session.sendqHeadExists with
  | false => exact flowing.takeHead one short more (by omega) exists_
  | true =>
      have contents : link.a.session.headContents = link.a.session.sendqHead.data := by
        simp only [Session.headContents, exists_, ↓reduceIte]
      have fits : link.headTotal < 2 ^ 64 := by
        rw [base.headOffset_eq.2, Block.dataLen, ← contents]
        omega
      have allowed : link.AllowedStrict capacity (.sendHead .id 0 0) :=
        ⟨⟨exists_, fits⟩, trivial⟩
      have open_ : link.a.session.handleSendmarkqIsFull = false := by
        have size := link.a.session.sendmarkq.length_toList
        rw [emptied, List.length_nil] at size
        simp only [Session.handleSendmarkqIsFull, ← size, flowing.flow.slots, decide_eq_false_iff_not]
        omega
      obtain ⟨session, sendmarkq, stamped, stored⟩ :=
        link.sendHead_room .id 0 0 exists_ open_
      have after : Flowing capacity slots S cursor (link.next (.sendHead .id 0 0)) := by
        apply flowing.beside allowed
        · rw [Link.next, stored]
        · rw [Link.next, stored]
      apply Leads.step _ allowed
      apply after.takeHead one short more
      · rw [Link.next, stored, sentBytes_append, List.length_append]
        have single : sentBytes [⟨link.a.session.allocated + 1, session.sendqHead⟩] =
            link.a.session.headContents := by
          rw [contents, stamped]
          exact List.flatMap_singleton _ _
        rw [single]
        exact behind
      · rw [Link.next, stored]

/-- The next byte is in the ring, and all that is before it has been read: acknowledging it
empties `sendmarkq_`, and the head, if there is one, makes way. -/
theorem askHead (flowing : Flowing capacity slots S cursor link) (one : 1 ≤ capacity)
    (room : 1 ≤ slots) (short : S.length < 2 ^ 64) (more : cursor < S.length)
    (behind : (sentBytes link.a.moved).length + link.a.session.headContents.length ≤ cursor) :
    Advances capacity slots S cursor link := by
  have base := flowing.flow.custody.base
  have isAt : link.b.session.recvmarkqDistributed = cursor := flowing.reading
  have acknowledge : link.AllowedStrict capacity (.acknowledge 0 cursor) := by
    refine ⟨Or.inr ?_, trivial⟩
    intro position below _
    exact base.holds.covered position (isAt ▸ below)
  have first := flowing.beside acknowledge rfl rfl
  apply Leads.step _ acknowledge
  have acknowledged : (link.next (.acknowledge 0 cursor)).AllowedStrict capacity
      (.acknowledged .id 0 cursor) := ⟨List.mem_cons_self, trivial⟩
  have second := first.beside acknowledged rfl rfl
  apply Leads.step _ acknowledged
  have emptied : ((link.next (.acknowledge 0 cursor)).next
      (.acknowledged .id 0 cursor)).a.session.sendmarkq.toList = [] := by
    rw [show ((link.next (.acknowledge 0 cursor)).next
      (.acknowledged .id 0 cursor)).a.session.sendmarkq.toList = _ from
        link.a.session.toList_handleSendmarkqRemoveRange .id 0 cursor]
    apply List.filter_eq_nil_iff.mpr
    intro sent queued
    obtain ⟨moved, wasMoved, same⟩ := base.queued sent queued
    obtain ⟨index, located⟩ := List.getElem?_of_mem wasMoved
    have inside := (List.getElem?_eq_some_iff.mp located).1
    have ends := base.placed_moved.endOf located
    have mono := Placed.length_take_mono link.a.moved (show index + 1 ≤ link.a.moved.length from
      inside)
    rw [List.take_length] at mono
    have fits := base.sent_fits ⟨moved, List.mem_append_left _ wasMoved, same⟩
    have within : sent.block.inRange 0 cursor = true := by
      refine (Block.inRange_iff _ _ _).mpr ⟨Nat.zero_le _, ?_⟩
      rw [sent.block.endOffset_eq fits, same.offset, same.dataLen]
      omega
    simp [within]
  exact second.moveHead one room short more behind emptied

/-- Wherever the next byte is, a schedule takes the reader beyond it. -/
theorem advances (flowing : Flowing capacity slots S cursor link) (one : 1 ≤ capacity)
    (room : 1 ≤ slots) (short : S.length < 2 ^ 64) (more : cursor < S.length) :
    Advances capacity slots S cursor link := by
  have covers : ∀ {block : Block} {value : UInt8}, block.Carries cursor value →
      block.Covers cursor := by
    intro block value ⟨begins, located⟩
    have inside := (List.getElem?_eq_some_iff.mp located).1
    refine ⟨begins, ?_⟩
    rw [Block.dataLen]
    omega
  have located : link.a.accepted[cursor]? = some S[cursor] := by
    rw [flowing.accepted]
    exact List.getElem?_eq_getElem more
  cases flowing.flow.custody.held located with
  | ring index behind _ => exact flowing.askHead one room short more (by omega)
  | head index behind located =>
      have inside := (List.getElem?_eq_some_iff.mp located).1
      exact flowing.sendHead short (by omega) (by omega)
  | sendmarkq sent queued carries => exact flowing.resend queued (covers carries)
  | recvmarkq element queued carries => exact flowing.read queued (covers carries)
  | delivered located =>
      have isAt : link.b.session.recvmarkqDistributed = cursor := flowing.reading
      rw [flowing.flow.custody.base.reader.filled, isAt] at located
      have inside := (List.getElem?_eq_some_iff.mp located).1
      rw [List.length_take] at inside
      omega

end Flowing

namespace Reader.Stuck

variable {reader : Reader}

theorem put (stuck : reader.Stuck) (block : Block) : reader.put block = reader := by
  rcases reader.session.handleRecvmarkqPut_cases block with ⟨refused, _⟩ | ⟨room, _⟩
  · simp only [Reader.put, refused]
    rfl
  · have full := stuck.1
    simp only [Reader.maximum] at full
    omega

/-- What has not been distributed is only marked as acknowledged. -/
theorem removeRange (stuck : reader.Stuck)
    (undistributed : ∀ element ∈ reader.session.recvmarkq, element.distributed = false)
    (start stop : Nat) : (reader.removeRange start stop).Stuck := by
  have kept : ∀ element ∈ reader.session.recvmarkq,
      ∃ later, Session.acknowledge start stop element = some later ∧
        later.block = element.block := by
    intro element queued
    cases stays : Session.acknowledge start stop element with
    | none =>
        have gone := Session.acknowledge_gone stays
        rw [undistributed element queued] at gone
        cases gone
    | some later => exact ⟨later, rfl, (Session.acknowledge_kept stays).1⟩
  constructor
  · have length : (reader.session.recvmarkq.filterMap
        (Session.acknowledge start stop)).length = reader.session.recvmarkq.length := by
      apply List.filterMap_length_eq_length.mpr
      intro element queued
      obtain ⟨later, stays, _⟩ := kept element queued
      rw [stays]
      rfl
    exact Nat.le_trans stuck.1 (Nat.le_of_eq length.symm)
  · intro later member
    obtain ⟨element, queued, stays⟩ := List.mem_filterMap.mp member
    obtain ⟨other, same, block⟩ := kept element queued
    rw [stays, Option.some.injEq] at same
    rw [same, block]
    exact stuck.2 element queued

/-- The loop of a read stops at the first block. -/
theorem read (stuck : reader.Stuck) {buffer : Buffer} (nonempty : buffer.length ≠ 0) :
    (reader.read buffer).Stuck ∧ (reader.read buffer).session.recvmarkqDistributed =
      reader.session.recvmarkqDistributed := by
  have spec := reader.session.read_spec nonempty
  have still : readLoop reader.session.recvmarkq (reader.session.readEntry buffer) =
      (reader.session.recvmarkq, reader.session.readEntry buffer) := by
    cases queue : reader.session.recvmarkq with
    | nil => rfl
    | cons first rest =>
        have begins := stuck.2 first (by rw [queue]; exact List.mem_cons_self)
        rw [readLoop, if_neg]
        exact Nat.not_le_of_lt begins
  have queue : (reader.read buffer).session.recvmarkq = reader.session.recvmarkq := by
    simp only [Reader.read, spec.queue, Session.readPass, still]
  have cursor : (reader.read buffer).session.recvmarkqDistributed =
      reader.session.recvmarkqDistributed := by
    simp only [Reader.read, spec.distributed, Session.readPass, still]
    rfl
  refine ⟨⟨?_, ?_⟩, cursor⟩
  · rw [queue]
    exact Nat.le_trans (Nat.le_of_eq (reader.session.recvmarkqMaximum_read buffer)) stuck.1
  · rw [queue, cursor]
    exact stuck.2

end Reader.Stuck

/-- A reader that is stuck stays so, whatever is sent and read. -/
theorem FlowInv.stuck_next {capacity slots : Nat} {link : Link}
    (inv : FlowInv capacity slots link) (stuck : link.b.Stuck) (action : LinkAction)
    (allowed : link.AllowedStrict capacity action) :
    (link.next action).b.Stuck ∧ (link.next action).cursor = link.cursor := by
  cases action with
  | deliver block =>
      simp only [Link.cursor, Link.next, stuck.put]
      exact ⟨stuck, trivial⟩
  | removeRange start stop =>
      refine ⟨stuck.removeRange ?_ start stop, rfl⟩
      intro element queued
      by_contra marked
      have begun := inv.custody.base.marked_begun element queued (by simpa using marked)
      have begins := stuck.2 element queued
      omega
  | read buffer =>
      have retries : link.b.Retries buffer := allowed.1
      exact stuck.read retries.1
  | _ => exact ⟨stuck, rfl⟩

/-- From every state that is reached, some schedule of sends, losses made good, arrivals,
acknowledgements and reads hands the reader all that was accepted, exactly unless the
receive queue is full of blocks above a gap and a byte is missing. -/
theorem link_delivers_iff (capacity : Nat) {a b : Session} {link : Link} (freshA : a.Fresh)
    (freshB : b.Fresh) (small : a.pendingMaximum < 2 ^ 31) (one : 1 ≤ capacity)
    (room : 1 ≤ a.sendmarkqMaximum)
    (reached : Reaches Link.next (Link.AllowedStrict capacity)
      { a := { session := a }, b := { session := b } } link)
    (short : link.a.accepted.length < 2 ^ 64) :
    Leads Link.next (Link.AllowedStrict capacity) (fun later =>
        later.a.accepted = link.a.accepted ∧
          later.b.delivered ++ later.b.placed = link.a.accepted) link ↔
      ¬ link.b.Stuck ∨ link.b.delivered ++ link.b.placed = link.a.accepted := by
  have flow : FlowInv capacity a.sendmarkqMaximum link :=
    reached.invariant (FlowInv.initial capacity freshA freshB small)
      fun _ action inv allowed => inv.next action allowed
  have filled : ∀ {state : Link}, FlowInv capacity a.sendmarkqMaximum state →
      state.b.delivered ++ state.b.placed = state.a.accepted.take state.cursor :=
    fun inv => inv.custody.base.reader.filled
  constructor
  · rintro ⟨later, run, accepted, delivered⟩
    by_cases stuck : link.b.Stuck
    · right
      have stands : FlowInv capacity a.sendmarkqMaximum later ∧ later.b.Stuck ∧
          later.cursor = link.cursor := by
        apply run.invariant ⟨flow, stuck, rfl⟩
        intro state action ⟨inv, stuck, same⟩ allowed
        have stays := inv.stuck_next stuck action allowed
        exact ⟨inv.next action allowed, stays.1, stays.2.trans same⟩
      rw [filled stands.1, accepted, stands.2.2] at delivered
      rw [filled flow]
      exact delivered
    · exact Or.inl stuck
  · rintro (open_ | delivered)
    · have usable : RoomInv link.b := (RoomInv.iff_not_stuck flow.within).mpr open_
      have initial : FlowInv capacity a.sendmarkqMaximum link ∧ RoomInv link.b ∧
          link.a.accepted = link.a.accepted := ⟨flow, usable, rfl⟩
      apply Leads.descend (fun state : Link => FlowInv capacity a.sendmarkqMaximum state ∧
        RoomInv state.b ∧ state.a.accepted = link.a.accepted)
        (fun state => link.a.accepted.length - state.cursor) _ initial
      intro state ⟨inv, usable, accepted⟩ unfinished
      have more : state.cursor < link.a.accepted.length := by
        by_contra all
        apply unfinished
        refine ⟨accepted, ?_⟩
        rw [filled inv, accepted]
        exact List.take_of_length_le (by omega)
      have flowing : Flowing capacity a.sendmarkqMaximum link.a.accepted state.cursor state :=
        ⟨inv, usable, accepted, rfl⟩
      apply (flowing.advances one room short more).bind
      intro later further
      apply Leads.now
      have beyond := further.reading
      exact ⟨⟨further.flow, further.room, further.accepted⟩, by omega⟩
    · exact Leads.now ⟨rfl, delivered⟩

/-- The first of two blocks was lost, and the byte behind both is still in the ring. -/
theorem link_delivers_lost :
    let link := [LinkAction.write ⟨[1, 2, 3], by decide⟩, .askHead 1, .sendHead .id 1 1,
      .askHead 1, .sendHead .id 2 2, .deliver { id := 2, clock := 2, offset := 1
                                                offset_lt := by decide, data := [2] }].foldl
        Link.next { a := { session := { pendingMaximum := 4 } }, b := { session := {} } }
    Leads Link.next (Link.AllowedStrict 1) (fun later =>
      later.a.accepted = link.a.accepted ∧
        later.b.delivered ++ later.b.placed = link.a.accepted) link := by
  intro link
  have reached : Reaches Link.next (Link.AllowedStrict 1)
      { a := { session := { pendingMaximum := 4 } }, b := { session := {} } } link :=
    Reaches.start.schedule _ (by decide)
  exact (link_delivers_iff 1 (Session.fresh_configured _ _ _) (Session.fresh_configured _ _ _)
    (by decide) (by decide) (by decide) reached (by decide)).mpr (Or.inl (by decide))

end CurvecprAsio
