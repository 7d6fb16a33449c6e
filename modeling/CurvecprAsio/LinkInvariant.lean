import CurvecprAsio.Link

set_option autoImplicit false

/- What holds between the two sessions whatever clocks the resends use: the
blocks on the wire are slices of what A accepted, and every acknowledged range
holds bytes that B has accepted. -/
namespace CurvecprAsio

open Transition SearchTree

/-- The block is one of those sent, except for its id and clock. -/
def Link.Sent (link : Link) (block : Block) : Prop :=
  ∃ sent ∈ link.sent, block.Same sent.block

structure LinkInv (capacity : Nat) (link : Link) : Prop where
  sender : SenderInv capacity link.a
  allocated : ∀ sent ∈ link.a.session.sendmarkq.toList, sent.pointer ≠ Session.headPointer
  head : link.headSent = true → link.a.session.sendqHeadExists = true
  placed : Placed link.sent
  total : link.total = (sentBytes link.sent).length
  fits : link.total < 2 ^ 64
  queued : ∀ sent ∈ link.a.session.sendmarkq.toList,
    ∃ moved ∈ link.a.moved, sent.block.Same moved.block
  wire : ∀ block ∈ link.wire, link.Sent block
  arrived : ∀ block ∈ link.b.arrived, link.Sent block
  reader : ReaderInv link.a.accepted link.b
  holds : ReaderHolds link.b
  acks : ∀ start stop, (start, stop) ∈ link.acks → link.Accepted start stop

namespace LinkInv

variable {capacity : Nat} {link : Link}

theorem initial (capacity : Nat) {a b : Session} (freshA : a.Fresh) (freshB : b.Fresh)
    (small : a.pendingMaximum < 2 ^ 31) :
    LinkInv capacity { a := { session := a }, b := { session := b } } where
  sender := SenderInv.initial capacity freshA small
  allocated := fun sent member => (freshA.distinct.pointers sent member).1
  head := by
    intro sent
    cases sent
  placed := Placed.nil
  total := rfl
  fits := by
    show 0 < 2 ^ 64
    decide
  queued := by
    intro sent member
    rw [freshA.sendmarkq] at member
    cases member
  wire := by
    intro block member
    cases member
  arrived := by
    intro block member
    cases member
  reader := ReaderInv.initial [] freshB
  holds := ReaderHolds.initial freshB
  acks := by
    intro start stop member
    cases member

theorem sent_prefix (inv : LinkInv capacity link) :
    ∃ rest, sentBytes link.sent ++ rest = link.a.accepted ∧
      (link.headSent = true → rest = link.a.session.ringContents) := by
  have fifo := inv.sender.fifo
  cases headSent : link.headSent with
  | false =>
      refine ⟨link.a.session.headContents ++ link.a.session.ringContents, ?_, ?_⟩
      · simpa only [Link.sent, headSent, Bool.false_eq_true, ↓reduceIte, List.append_nil,
          List.append_assoc] using fifo
      · intro later
        cases later
  | true =>
      have exists_ := inv.head headSent
      have one : sentBytes [link.a.session.headBlock] = link.a.session.sendqHead.data :=
        List.flatMap_singleton _ _
      simp only [Session.headContents, exists_, ↓reduceIte] at fifo
      refine ⟨link.a.session.ringContents, ?_, fun _ => rfl⟩
      simpa only [Link.sent, headSent, ↓reduceIte, sentBytes_append, one] using fifo

theorem end_le_total (inv : LinkInv capacity link) {index : Nat} {sent : SentBlock}
    (located : link.sent[index]? = some sent) :
    sent.block.offset + sent.block.dataLen ≤ link.total := by
  rw [inv.placed.endOf located, inv.total]
  have inside := (List.getElem?_eq_some_iff.mp located).1
  have mono := Placed.length_take_mono link.sent (show index + 1 ≤ link.sent.length from inside)
  rwa [List.take_length] at mono

theorem marked_last (inv : LinkInv capacity link) {index : Nat} {sent : SentBlock}
    (located : link.sent[index]? = some sent) (marked : sent.block.marked = true) :
    sentBytes (link.sent.take (index + 1)) = link.a.accepted := by
  have inside := (List.getElem?_eq_some_iff.mp located).1
  by_cases moved : index < link.a.moved.length
  · rw [Link.sent, List.getElem?_append_left moved] at located
    rw [Link.sent, List.take_append_of_le_length (by omega)]
    exact inv.sender.last index sent located marked
  · cases headSent : link.headSent with
    | false =>
        simp only [Link.sent, headSent, Bool.false_eq_true, ↓reduceIte, List.append_nil] at inside
        exact absurd inside moved
    | true =>
        obtain ⟨rest, whole, ring⟩ := inv.sent_prefix
        simp only [Link.sent, headSent, ↓reduceIte, List.length_append,
          List.length_singleton] at inside
        have last : index = link.a.moved.length := by omega
        simp only [Link.sent, headSent, ↓reduceIte, last,
          List.getElem?_append_right (Nat.le_refl _), Nat.sub_self] at located
        have same : link.a.session.headBlock = sent := Option.some.inj located
        rw [← same] at marked
        have empty := (inv.sender.headLast (inv.head headSent) marked).2
        rw [ring headSent, empty, List.append_nil] at whole
        have all : index + 1 = link.sent.length := by
          simp only [Link.sent, headSent, ↓reduceIte, List.length_append, List.length_singleton,
            last]
        rw [all, List.take_length, whole]

theorem slice (inv : LinkInv capacity link) {block : Block} (wasSent : link.Sent block) :
    SliceOf link.a.accepted block := by
  obtain ⟨sent, member, same⟩ := wasSent
  obtain ⟨index, located⟩ := List.getElem?_of_mem member
  obtain ⟨rest, whole, _⟩ := inv.sent_prefix
  have offset := inv.placed index sent located
  have ends := inv.end_le_total located
  have fits := inv.fits
  have total := inv.total
  apply SliceOf.same _ same
  constructor
  · rw [← whole, List.length_append]
    omega
  · have parts : link.a.accepted = sentBytes (link.sent.take index) ++ (sent.block.data ++
        (sentBytes (link.sent.drop (index + 1)) ++ rest)) := by
      rw [← whole, ← List.append_assoc, ← List.append_assoc, ← sentBytes_take_succ located,
        ← sentBytes_append, List.take_append_drop]
    rw [parts, offset, List.drop_left, Block.dataLen, List.take_left]
  · intro marked
    rw [Block.endOffset_eq _ (by omega), inv.placed.endOf located, inv.marked_last located marked]

theorem sent_fits (inv : LinkInv capacity link) {block : Block} (wasSent : link.Sent block) :
    block.offset + block.dataLen < 2 ^ 64 := by
  obtain ⟨sent, member, same⟩ := wasSent
  obtain ⟨index, located⟩ := List.getElem?_of_mem member
  have ends := inv.end_le_total located
  have fits := inv.fits
  rw [same.offset, same.dataLen]
  omega

/-- Only a block that the cursor has reached is marked as distributed. -/
theorem marked_begun (inv : LinkInv capacity link) :
    ∀ element ∈ link.b.session.recvmarkq, element.distributed = true →
      element.block.offset ≤ link.b.session.recvmarkqDistributed := by
  intro element queued marked
  have ends := inv.holds.marks element queued marked
  rw [element.block.endOffset_eq
    (inv.sent_fits (inv.arrived _ (inv.holds.sources element queued)))] at ends
  omega

/-- Only one of the blocks sent holds a position. -/
theorem same_of_covers (inv : LinkInv capacity link) {first second : SentBlock} {position : Nat}
    (inFirst : first ∈ link.sent) (inSecond : second ∈ link.sent)
    (covers : first.block.Covers position) (too : second.block.Covers position) :
    first = second := by
  obtain ⟨index, atFirst⟩ := List.getElem?_of_mem inFirst
  obtain ⟨other, atSecond⟩ := List.getElem?_of_mem inSecond
  have same := inv.placed.unique atFirst atSecond covers too
  rw [same, atSecond] at atFirst
  exact (Option.some.inj atFirst).symm

/-- While A may still accept bytes, no block that was sent is marked. -/
theorem unmarked (inv : LinkInv capacity link) (open_ : link.a.session.pendingEof = false)
    {block : Block} (wasSent : link.Sent block) : block.marked = false := by
  obtain ⟨sent, member, same⟩ := wasSent
  cases marked : block.marked with
  | false => rfl
  | true =>
      have ended : link.a.session.pendingEof = true := by
        rw [same.marked] at marked
        rcases List.mem_append.mp member with moved | head
        · exact inv.sender.closed sent moved marked
        · cases headSent : link.headSent with
          | false =>
              rw [headSent] at head
              cases head
          | true =>
              rw [headSent] at head
              simp only [↓reduceIte, List.mem_singleton] at head
              rw [head] at marked
              exact (inv.sender.headLast (inv.head headSent) marked).1
      rw [open_] at ended
      cases ended

theorem quiet (inv : LinkInv capacity link) {a : Sender} (sender : SenderInv capacity a)
    (sendmarkq : ∀ sent ∈ a.session.sendmarkq.toList,
      sent ∈ link.a.session.sendmarkq.toList)
    (moved : a.moved = link.a.moved)
    (head : link.headSent = true → a.session.sendqHeadExists = true ∧
      a.session.sendqHead = link.a.session.sendqHead)
    (reader : ReaderInv a.accepted link.b) : LinkInv capacity { link with a := a } := by
  have same : ({ link with a := a } : Link).sent = link.sent := by
    cases headSent : link.headSent with
    | false => simp only [Link.sent, moved, headSent, Bool.false_eq_true, ↓reduceIte]
    | true =>
        simp only [Link.sent, moved, headSent, ↓reduceIte, Session.headBlock, (head headSent).2]
  constructor
  · exact sender
  · exact fun sent member => inv.allocated sent (sendmarkq sent member)
  · exact fun headSent => (head headSent).1
  · rw [same]
    exact inv.placed
  · rw [same]
    exact inv.total
  · exact inv.fits
  · intro sent member
    rw [moved]
    exact inv.queued sent (sendmarkq sent member)
  · intro block member
    simp only [Link.Sent, same]
    exact inv.wire block member
  · intro block member
    simp only [Link.Sent, same]
    exact inv.arrived block member
  · exact reader
  · exact inv.holds
  · exact inv.acks

theorem receiver (inv : LinkInv capacity link) {b : Reader}
    (reader : ReaderInv link.a.accepted b) (holds : ReaderHolds b)
    (arrived : ∀ block ∈ b.arrived, link.Sent block)
    (more : ∀ block ∈ link.b.arrived, block ∈ b.arrived) :
    LinkInv capacity { link with b := b } where
  sender := inv.sender
  allocated := inv.allocated
  head := inv.head
  placed := inv.placed
  total := inv.total
  fits := inv.fits
  queued := inv.queued
  wire := inv.wire
  arrived := arrived
  reader := reader
  holds := holds
  acks := by
    intro start stop member position below above
    obtain ⟨block, old, covers⟩ := inv.acks start stop member position below above
    exact ⟨block, more block old, covers⟩

theorem write (inv : LinkInv capacity link) (buffer : Buffer) :
    LinkInv capacity (link.next (.write buffer)) := by
  have spec := inv.sender.ring.write buffer
  have same := link.a.session.sendmarkq_write buffer
  have head : (link.a.session.write buffer).session.sendqHeadExists =
      link.a.session.sendqHeadExists ∧
        (link.a.session.write buffer).session.sendqHead = link.a.session.sendqHead := by
    rcases spec.outcome with ⟨unchanged, _⟩ | ⟨⟨pending, next, used, strand, changed⟩, _⟩
    · rw [unchanged]
      exact ⟨rfl, rfl⟩
    · rw [changed]
      exact ⟨rfl, rfl⟩
  apply inv.quiet (inv.sender.write buffer)
  · intro sent member
    simp only [Sender.write, same.1] at member
    exact member
  · rfl
  · intro headSent
    exact ⟨head.1.trans (inv.head headSent), head.2⟩
  · rcases spec.outcome with ⟨_, nothing⟩ | ⟨_, reported, nonempty, open_, _⟩
    · simp only [Sender.write, nothing, Nat.lt_irrefl, ↓reduceIte]
      exact inv.reader
    · have positive : 0 < buffer.length := Nat.pos_of_ne_zero nonempty
      simp only [Sender.write, reported, positive, ↓reduceIte]
      apply inv.reader.grow
      · intro element member
        exact inv.unmarked open_ (inv.arrived _ (inv.holds.sources element member))
      · cases ended : link.b.session.pendingEof with
        | false => rfl
        | true =>
            obtain ⟨block, arrived, marked⟩ := inv.holds.eof ended
            rw [inv.unmarked open_ (inv.arrived block arrived)] at marked
            cases marked

/-- What the head may take is bounded by what the ring holds and by what is asked for. -/
theorem sendqHead (inv : LinkInv capacity link) {maximum : Nat}
    (fits : min link.a.session.pendingUsed maximum ≤ capacity) :
    LinkInv capacity (link.next (.askHead maximum)) := by
  have spec := inv.sender.ring.askHead maximum
  have same := link.a.session.sendmarkq_askHead maximum
  apply inv.quiet (inv.sender.sendqHead fits)
  · intro sent member
    simp only [Sender.sendqHead, same.1] at member
    exact member
  · rfl
  · intro headSent
    have exists_ := inv.head headSent
    rcases spec.outcome with unchanged | ⟨absent, _⟩
    · simp only [Sender.sendqHead, unchanged]
      exact ⟨exists_, rfl⟩
    · have noHead : link.a.session.sendqHeadExists = false := absent
      rw [exists_] at noHead
      cases noHead
  · exact inv.reader

theorem askHead (inv : LinkInv capacity link) {maximum : Nat} (fits : maximum ≤ capacity) :
    LinkInv capacity (link.next (.askHead maximum)) :=
  inv.sendqHead (Nat.le_trans (Nat.min_le_right _ _) fits)

theorem setEof (inv : LinkInv capacity link) : LinkInv capacity (link.next .setEof) := by
  apply inv.quiet (inv.sender.next .setEof trivial)
  · exact fun sent member => member
  · rfl
  · exact fun headSent => ⟨inv.head headSent, rfl⟩
  · exact inv.reader

theorem acknowledged (inv : LinkInv capacity link) (balance : Balance SentBlock)
    (start stop : Nat) : LinkInv capacity (link.next (.acknowledged balance start stop)) := by
  apply inv.quiet (inv.sender.next (.removeRange balance start stop) trivial)
  · intro sent member
    simp only [Sender.next, Session.toList_handleSendmarkqRemoveRange] at member
    exact (List.mem_filter.mp member).1
  · rfl
  · exact fun headSent => ⟨inv.head headSent, rfl⟩
  · exact inv.reader

theorem deliver (inv : LinkInv capacity link) {block : Block} (onWire : block ∈ link.wire) :
    LinkInv capacity (link.next (.deliver block)) := by
  have slice := inv.slice (inv.wire block onWire)
  apply inv.receiver (inv.reader.put slice) (inv.holds.put inv.reader slice)
  · intro other member
    simp only [Reader.put] at member
    split at member
    · rcases List.mem_cons.mp member with rfl | old
      · exact inv.wire other onWire
      · exact inv.arrived other old
    · exact inv.arrived other member
  · exact fun other => link.b.arrived_put block other

theorem removeRange (inv : LinkInv capacity link) (start stop : Nat) :
    LinkInv capacity (link.next (.removeRange start stop)) :=
  inv.receiver (inv.reader.removeRange start stop) (inv.holds.removeRange start stop)
    inv.arrived fun _ member => member

theorem read (inv : LinkInv capacity link) {buffer : Buffer}
    (retries : link.b.Retries buffer) : LinkInv capacity (link.next (.read buffer)) :=
  inv.receiver (inv.reader.read retries) (inv.holds.read inv.reader retries)
    inv.arrived fun _ member => member

theorem raise (inv : LinkInv capacity link) {contiguous : Nat}
    (accepted : link.Accepted 0 contiguous) :
    LinkInv capacity (link.next (.raise contiguous)) := by
  have reader := inv.reader
  have holds := inv.holds
  apply inv.receiver
  · exact ⟨reader.slices, reader.filled, reader.word, reader.bound, reader.ended, reader.room,
      reader.idle⟩
  · refine ⟨holds.sources, holds.held, holds.marks, holds.covered, ?_, holds.eof⟩
    intro position below
    exact accepted position below (Nat.zero_le _)
  · exact inv.arrived
  · exact fun _ member => member

theorem acknowledge (inv : LinkInv capacity link) {start stop : Nat}
    (allowed : link.Allowed capacity (.acknowledge start stop)) :
    LinkInv capacity (link.next (.acknowledge start stop)) where
  sender := inv.sender
  allocated := inv.allocated
  head := inv.head
  placed := inv.placed
  total := inv.total
  fits := inv.fits
  queued := inv.queued
  wire := inv.wire
  arrived := inv.arrived
  reader := inv.reader
  holds := inv.holds
  acks := by
    intro first last member
    rcases List.mem_cons.mp member with new | old
    · simp only [Prod.mk.injEq] at new
      obtain ⟨rfl, rfl⟩ := new
      rcases allowed with ⟨_, rfl⟩ | accepted
      · intro position below _
        exact inv.holds.contiguous position below
      · exact accepted
    · exact inv.acks first last old

theorem resend (inv : LinkInv capacity link) (balance : Balance SentBlock) (pointer id : Nat)
    (clock : Int) : LinkInv capacity (link.next (.resend balance pointer id clock)) := by
  have restamped : ∀ sent ∈ link.a.session.sendmarkq.toList.map
      (Session.stampPointer pointer id clock),
      sent.pointer ≠ Session.headPointer ∧
        ∃ moved ∈ link.a.moved, sent.block.Same moved.block := by
    intro sent member
    obtain ⟨old, inQueue, stamped⟩ := List.mem_map.mp member
    obtain ⟨moved, wasMoved, same⟩ := inv.queued old inQueue
    rw [← stamped, Session.stampPointer_pointer]
    exact ⟨inv.allocated old inQueue, moved, wasMoved,
      (Session.stampPointer_same pointer id clock old).trans same⟩
  obtain ⟨sendmarkq, resent, _⟩ :=
    link.a.session.resend_cases balance pointer id clock inv.allocated
  have subset := Session.resend_subset balance inv.allocated resent
  have after : link.a.next (.resend balance pointer id clock) =
      { link.a with session := { link.a.session with sendmarkq := sendmarkq } } := by
    simp only [Sender.next, Sender.move, resent, Option.toList_none, List.append_nil]
  have sender := inv.sender.next (.resend balance pointer id clock) trivial
  rw [after] at sender
  simp only [Link.next, Link.resend, after]
  constructor
  · exact sender
  · exact fun sent member => (restamped sent (subset sent member)).1
  · exact inv.head
  · exact inv.placed
  · exact inv.total
  · exact inv.fits
  · exact fun sent member => (restamped sent (subset sent member)).2
  · intro block member
    rcases List.mem_append.mp member with resentNow | old
    · obtain ⟨sent, found, isBlock⟩ := Option.map_eq_some_iff.mp (Option.mem_toList.mp resentNow)
      have inQueue := List.mem_of_find?_eq_some found
      simp only [Session.stampSent, Tree.toList_map] at inQueue
      obtain ⟨moved, wasMoved, same⟩ := (restamped sent inQueue).2
      exact ⟨moved, List.mem_append_left _ wasMoved, isBlock ▸ same⟩
    · exact inv.wire block old
  · exact inv.arrived
  · exact inv.reader
  · exact inv.holds
  · exact inv.acks

theorem placed_moved (inv : LinkInv capacity link) : Placed link.a.moved := by
  have placed := inv.placed
  cases headSent : link.headSent with
  | false =>
      simpa only [Link.sent, headSent, Bool.false_eq_true, ↓reduceIte, List.append_nil] using placed
  | true =>
      simp only [Link.sent, headSent, ↓reduceIte] at placed
      exact placed.front

/-- The head stands behind all blocks that were moved, sent before or not. -/
theorem headOffset_eq (inv : LinkInv capacity link) :
    link.headOffset = (sentBytes link.a.moved).length ∧
      link.headTotal = (sentBytes link.a.moved).length + link.a.session.sendqHead.dataLen := by
  have total := inv.total
  cases headSent : link.headSent with
  | false =>
      simp only [Link.sent, headSent, Bool.false_eq_true, ↓reduceIte, List.append_nil] at total
      simp only [Link.headOffset, Link.headTotal, headSent, Bool.false_eq_true, ↓reduceIte]
      exact ⟨total, congrArg (· + _) total⟩
  | true =>
      have placed := inv.placed
      have one : sentBytes [link.a.session.headBlock] = link.a.session.sendqHead.data :=
        List.flatMap_singleton _ _
      simp only [Link.sent, headSent, ↓reduceIte] at placed total
      have last : (link.a.moved ++ [link.a.session.headBlock])[link.a.moved.length]? =
          some link.a.session.headBlock := by
        rw [List.getElem?_append_right (Nat.le_refl _), Nat.sub_self]
        rfl
      have offset := placed _ _ last
      rw [List.take_left] at offset
      rw [sentBytes_append, List.length_append, one] at total
      simp only [Link.headOffset, Link.headTotal, headSent, ↓reduceIte]
      exact ⟨offset, total⟩

theorem stampHead_head (inv : LinkInv capacity link) (id : Nat) (clock : Int)
    (fits : link.headTotal < 2 ^ 64) :
    (link.a.session.stampHead id clock link.headOffset).sendqHead.offset =
        (sentBytes link.a.moved).length ∧
      (link.headSent = true → link.a.session.sendqHead.Same
        (link.a.session.stampHead id clock link.headOffset).sendqHead) := by
  obtain ⟨offset, total⟩ := inv.headOffset_eq
  have whole : link.headOffset % 2 ^ 64 = link.headOffset := Nat.mod_eq_of_lt (by omega)
  refine ⟨?_, ?_⟩
  · exact whole.trans offset
  · intro headSent
    refine ⟨?_, rfl, rfl⟩
    have kept : link.headOffset = link.a.session.sendqHead.offset := by
      simp only [Link.headOffset, headSent, ↓reduceIte]
    exact kept.symm.trans whole.symm

/-- What the blocks sent become when the head goes on the wire, moved or not. -/
theorem extend (inv : LinkInv capacity link) {a : Sender} {pointer : Nat} {head : Block}
    (offset : head.offset = (sentBytes link.a.moved).length)
    (again : link.headSent = true → link.a.session.sendqHead.Same head)
    (fits : link.headTotal < 2 ^ 64) (length : head.dataLen = link.a.session.sendqHead.dataLen)
    (sender : SenderInv capacity a) (accepted : a.accepted = link.a.accepted)
    (sentAfter : (a.moved ++ if a.session.sendqHeadExists then [a.session.headBlock] else []) =
      link.a.moved ++ [⟨pointer, head⟩])
    (queued : ∀ sent ∈ a.session.sendmarkq.toList, sent.pointer ≠ Session.headPointer ∧
      ∃ moved ∈ a.moved, sent.block.Same moved.block) :
    LinkInv capacity { link with
      a := a, total := link.headTotal, headSent := a.session.sendqHeadExists
      wire := head :: link.wire } := by
  have one : sentBytes [⟨pointer, head⟩] = head.data := List.flatMap_singleton _ _
  have stays : ∀ block, link.Sent block →
      ∃ sent ∈ link.a.moved ++ [⟨pointer, head⟩], block.Same sent.block := by
    intro block ⟨sent, member, same⟩
    rcases List.mem_append.mp member with moved | isHead
    · exact ⟨sent, List.mem_append_left _ moved, same⟩
    · cases headSent : link.headSent with
      | false =>
          rw [headSent] at isHead
          cases isHead
      | true =>
          rw [headSent] at isHead
          simp only [↓reduceIte, List.mem_singleton] at isHead
          rw [isHead] at same
          exact ⟨⟨pointer, head⟩, List.mem_append_right _ (List.mem_singleton_self _),
            same.trans (again headSent)⟩
  constructor
  · exact sender
  · exact fun sent member => (queued sent member).1
  · exact id
  · simp only [Link.sent, sentAfter]
    exact inv.placed_moved.snoc offset
  · simp only [Link.sent, sentAfter]
    rw [inv.headOffset_eq.2, sentBytes_append, List.length_append, one, ← length]
    rfl
  · exact fits
  · exact fun sent member => (queued sent member).2
  · intro block member
    simp only [Link.Sent, Link.sent, sentAfter]
    rcases List.mem_cons.mp member with rfl | old
    · exact ⟨⟨pointer, block⟩, List.mem_append_right _ (List.mem_singleton_self _),
        Block.Same.refl _⟩
    · exact stays block (inv.wire block old)
  · intro block member
    simp only [Link.Sent, Link.sent, sentAfter]
    exact stays block (inv.arrived block member)
  · rw [accepted]
    exact inv.reader
  · exact inv.holds
  · exact inv.acks

theorem sendHead (inv : LinkInv capacity link) (balance : Balance SentBlock) (id : Nat)
    (clock : Int) (exists_ : link.a.session.sendqHeadExists = true)
    (fits : link.headTotal < 2 ^ 64) :
    LinkInv capacity (link.next (.sendHead balance id clock)) := by
  obtain ⟨offset, again⟩ := inv.stampHead_head id clock fits
  have movedInv := (inv.sender.next (.stampHead id clock link.headOffset) trivial).next
    (.moveHead balance) trivial
  have sender : SenderInv capacity (link.sendHead balance id clock).a := movedInv
  obtain ⟨session, stamped, kept | ⟨sendmarkq, inserted, stored⟩⟩ :=
    link.sendHead_cases balance id clock exists_
  · rw [← stamped] at offset again
    have stays : session.sendqHeadExists = true := by
      rw [stamped]
      exact exists_
    rw [kept] at sender
    rw [Link.next, kept, ← stays]
    apply inv.extend offset again fits (by rw [stamped]; rfl) sender rfl
    · rw [if_pos stays, Session.headBlock]
    · intro sent member
      rw [stamped] at member
      exact ⟨inv.allocated sent member, inv.queued sent member⟩
  · rw [← stamped] at offset again
    rw [stored] at sender
    rw [Link.next, stored]
    apply inv.extend offset again fits (by rw [stamped]; rfl) sender rfl
    · simp only [Bool.false_eq_true, ↓reduceIte, List.append_nil]
      rfl
    · intro sent member
      rcases List.mem_cons.mp (inserted.mem_iff.mp member) with rfl | old
      · exact ⟨Nat.succ_ne_zero _, _, List.mem_append_right _ (List.mem_singleton_self _),
          Block.Same.refl _⟩
      · obtain ⟨moved, wasMoved, same⟩ := inv.queued sent old
        exact ⟨inv.allocated sent old, moved, List.mem_append_left _ wasMoved, same⟩

theorem next (inv : LinkInv capacity link) (action : LinkAction)
    (allowed : link.Allowed capacity action) : LinkInv capacity (link.next action) := by
  cases action with
  | write buffer => exact inv.write buffer
  | setEof => exact inv.setEof
  | askHead maximum => exact inv.askHead allowed.2
  | sendHead balance id clock => exact inv.sendHead balance id clock allowed.1 allowed.2
  | resend balance pointer id clock => exact inv.resend balance pointer id clock
  | deliver block => exact inv.deliver allowed
  | removeRange start stop => exact inv.removeRange start stop
  | read buffer => exact inv.read allowed
  | raise contiguous => exact inv.raise allowed
  | acknowledge start stop => exact inv.acknowledge allowed
  | acknowledged balance start stop => exact inv.acknowledged balance start stop

end LinkInv

end CurvecprAsio
