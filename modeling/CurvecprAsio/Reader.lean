import CurvecprAsio.Delivery

set_option autoImplicit false

/- The receive side of a session with one outstanding read: runs of arriving
blocks, acknowledgements and reads. -/
namespace CurvecprAsio

open Transition

/-- The receive side of a session and its only reader: the bytes reported by
completed reads, the buffer of a read that has to be retried, and the blocks
that were put. -/
structure Reader where
  session : Session
  delivered : List UInt8 := []
  outstanding : Option Buffer := none
  arrived : List Block := []
  deriving DecidableEq, Repr

inductive ReaderAction where
  | put (block : Block)
  | removeRange (start stop : Nat)
  | read (buffer : Buffer)

namespace Reader

def put (reader : Reader) (block : Block) : Reader :=
  let result := reader.session.handleRecvmarkqPut block
  { reader with
    session := result.session
    arrived := if result.ret = 0 then block :: reader.arrived else reader.arrived }

def removeRange (reader : Reader) (start stop : Nat) : Reader :=
  { reader with session := reader.session.handleRecvmarkqRemoveRange start stop }

def read (reader : Reader) (buffer : Buffer) : Reader :=
  let result := reader.session.read buffer
  { reader with
    session := result.session
    delivered :=
      if result.done then reader.delivered ++ result.buffer.bytes.take result.bytesTransferred
      else reader.delivered
    outstanding := if result.done then none else some result.buffer }

def next (reader : Reader) : ReaderAction → Reader
  | .put block => reader.put block
  | .removeRange start stop => reader.removeRange start stop
  | .read buffer => reader.read buffer

/-- A read that is not done is retried before another is made. -/
def Retries (reader : Reader) (buffer : Buffer) : Prop :=
  buffer.length ≠ 0 ∧ ∀ held, reader.outstanding = some held → buffer = held

instance (reader : Reader) (buffer : Buffer) : Decidable (reader.Retries buffer) :=
  inferInstanceAs (Decidable (buffer.length ≠ 0 ∧ ∀ held ∈ reader.outstanding, buffer = held))

/-- The blocks that arrive are slices of `S`. -/
def Allowed (S : List UInt8) (reader : Reader) : ReaderAction → Prop
  | .put block => SliceOf S block
  | .removeRange _ _ => True
  | .read buffer => reader.Retries buffer

/-- The bytes already placed in the buffer of the read that is not done. -/
def placed (reader : Reader) : List UInt8 :=
  reader.outstanding.elim [] fun held => held.bytes.take reader.session.recvmarkqReadOffset

theorem arrived_put (reader : Reader) (block other : Block) (member : other ∈ reader.arrived) :
    other ∈ (reader.put block).arrived := by
  simp only [put]
  split
  · exact List.mem_cons_of_mem _ member
  · exact member

end Reader

/-- The reader's invariant over the stream `S`. -/
structure ReaderInv (S : List UInt8) (reader : Reader) : Prop where
  slices : ∀ element ∈ reader.session.recvmarkq, SliceOf S element.block
  filled : reader.delivered ++ reader.placed = S.take reader.session.recvmarkqDistributed
  word : reader.session.recvmarkqDistributed < 2 ^ 64
  bound : reader.session.recvmarkqDistributed ≤ S.length
  ended : reader.session.pendingEof = true → reader.session.recvmarkqDistributed = S.length
  room : ∀ held, reader.outstanding = some held →
    reader.session.recvmarkqReadOffset ≤ held.length
  idle : reader.outstanding = none → reader.session.recvmarkqReadOffset = 0

namespace Session

/-- A put is refused and changes nothing, or stores one element for the block. -/
theorem handleRecvmarkqPut_cases (s : Session) (block : Block) :
    s.handleRecvmarkqPut block = { session := s, ret := -1 } ∧
        s.recvmarkqMaximum ≤ s.recvmarkq.length ∨
      s.recvmarkq.length < s.recvmarkqMaximum ∧ ∃ queue strand,
        s.handleRecvmarkqPut block =
          { session := { s with recvmarkq := queue, strand := strand }, ret := 0 } ∧
        queue.Perm ({ block := block, distributed := s.pendingEof } :: s.recvmarkq) := by
  simp only [handleRecvmarkqPut]
  split
  · rename_i full
    exact Or.inl ⟨rfl, full.2⟩
  · rename_i room
    exact Or.inr ⟨by omega, _, _, rfl, List.perm_orderedInsert _ _ _⟩

theorem acknowledge_kept {start stop : Nat} {element kept : BlockStatus}
    (stays : acknowledge start stop element = some kept) :
    kept.block = element.block ∧ kept.distributed = element.distributed := by
  simp only [acknowledge] at stays
  split at stays
  · split at stays
    · cases stays
    · cases stays
      exact ⟨rfl, rfl⟩
  · cases stays
    exact ⟨rfl, rfl⟩

theorem acknowledge_gone {start stop : Nat} {element : BlockStatus}
    (gone : acknowledge start stop element = none) : element.distributed = true := by
  simp only [acknowledge] at gone
  split at gone
  · split at gone
    · rename_i finished
      simpa [BlockStatus.done] using finished
    · cases gone
  · cases gone

/-- An acknowledged element that remains is the old one with at most its
acknowledged bit set, and one that goes was distributed. -/
theorem mem_handleRecvmarkqRemoveRange {s : Session} {start stop : Nat} {element : BlockStatus}
    (member : element ∈ (s.handleRecvmarkqRemoveRange start stop).recvmarkq) :
    ∃ old ∈ s.recvmarkq, element.block = old.block ∧ element.distributed = old.distributed := by
  obtain ⟨old, inQueue, stays⟩ := List.mem_filterMap.mp member
  exact ⟨old, inQueue, acknowledge_kept stays⟩

theorem handleRecvmarkqRemoveRange_gone {s : Session} (start stop : Nat) {old : BlockStatus}
    (member : old ∈ s.recvmarkq) :
    (∃ element ∈ (s.handleRecvmarkqRemoveRange start stop).recvmarkq,
      element.block = old.block) ∨ old.distributed = true := by
  cases stays : acknowledge start stop old with
  | none => exact Or.inr (acknowledge_gone stays)
  | some kept =>
      exact Or.inl ⟨kept, List.mem_filterMap.mpr ⟨old, member, stays⟩,
        (acknowledge_kept stays).1⟩

/-- What a read leaves in the session, in terms of the pass of its loop. -/
structure ReadSpec (s : Session) (buffer : Buffer) (result : ReadResult) : Prop where
  queue : result.session.recvmarkq = (s.readPass buffer).1
  distributed : result.session.recvmarkqDistributed = (s.readPass buffer).2.distributed
  held : result.buffer = (s.readPass buffer).2.buffer
  pendingEof : result.session.pendingEof = (s.readPass buffer).2.pendingEof
  contiguous : result.session.messager.theirContiguousSentBytes = (s.readPass buffer).2.contiguous
  copies : result.copies = (s.readPass buffer).2.copies
  finished : result.done = true → result.session.recvmarkqReadOffset = 0 ∧
    result.bytesTransferred = (s.readPass buffer).2.readOffset
  waits : result.done = false →
    result.session.recvmarkqReadOffset = (s.readPass buffer).2.readOffset
  eof : result.ec = .eof → result.done = true ∧ (s.readPass buffer).2.pendingEof = true

theorem recvmarkqMaximum_read (s : Session) (buffer : Buffer) :
    (s.read buffer).session.recvmarkqMaximum = s.recvmarkqMaximum := by
  unfold Session.read
  split
  · rfl
  · dsimp only
    split <;> rfl

theorem read_spec (s : Session) {buffer : Buffer} (nonempty : buffer.length ≠ 0) :
    ReadSpec s buffer (s.read buffer) := by
  simp only [Session.read, nonempty, ↓reduceIte]
  split
  · refine ⟨rfl, rfl, rfl, rfl, rfl, rfl, fun _ => ⟨rfl, rfl⟩, ?_, ?_⟩
    · intro waits
      cases waits
    · intro eof
      dsimp only at eof
      split at eof
      · rename_i ended
        exact ⟨rfl, ended⟩
      · cases eof
  · refine ⟨rfl, rfl, rfl, rfl, rfl, rfl, ?_, fun _ => rfl, ?_⟩
    · intro finished
      cases finished
    · intro eof
      cases eof

end Session

theorem readLoop_sublist (queue : List BlockStatus) (pass : ReadPass) :
    ((readLoop queue pass).1.map BlockStatus.block).Sublist (queue.map BlockStatus.block) := by
  induction queue generalizing pass with
  | nil => exact List.Sublist.refl _
  | cons element rest ih =>
      simp only [readLoop]
      split
      · split
        · exact List.Sublist.refl _
        · split
          · exact (ih _).cons _
          · exact (ih _).cons_cons _
      · exact List.Sublist.refl _

theorem acknowledge_sublist (start stop : Nat) (queue : List BlockStatus) :
    ((queue.filterMap (Session.acknowledge start stop)).map BlockStatus.block).Sublist
      (queue.map BlockStatus.block) := by
  induction queue with
  | nil => exact List.Sublist.refl _
  | cons element rest ih =>
      cases stays : Session.acknowledge start stop element with
      | none =>
          rw [List.filterMap_cons_none stays]
          exact ih.cons _
      | some kept =>
          rw [List.filterMap_cons_some stays, List.map_cons, (Session.acknowledge_kept stays).1]
          exact ih.cons_cons _

namespace ReaderInv

variable {S : List UInt8} {reader : Reader}

theorem initial (S : List UInt8) {session : Session} (fresh : session.Fresh) :
    ReaderInv S { session := session } where
  slices := by
    intro element member
    rw [fresh.recvmarkq] at member
    cases member
  filled := by
    rw [fresh.recvmarkqDistributed]
    rfl
  word := by
    rw [fresh.recvmarkqDistributed]
    decide
  bound := by
    rw [fresh.recvmarkqDistributed]
    exact Nat.zero_le _
  ended := by
    intro ended
    rw [fresh.pendingEof] at ended
    cases ended
  room := by
    intro held outstanding
    cases outstanding
  idle := fun _ => fresh.recvmarkqReadOffset

theorem put (inv : ReaderInv S reader) {block : Block} (slice : SliceOf S block) :
    ReaderInv S (reader.put block) := by
  rcases reader.session.handleRecvmarkqPut_cases block with
    ⟨refused, full⟩ | ⟨room, queue, strand, stored, perm⟩
  · simp only [Reader.put, refused]
    exact inv
  · simp only [Reader.put, stored]
    refine ⟨?_, inv.filled, inv.word, inv.bound, inv.ended, inv.room, inv.idle⟩
    intro element member
    rcases List.mem_cons.mp (perm.mem_iff.mp member) with rfl | old
    · exact slice
    · exact inv.slices element old

theorem removeRange (inv : ReaderInv S reader) (start stop : Nat) :
    ReaderInv S (reader.removeRange start stop) := by
  refine ⟨?_, inv.filled, inv.word, inv.bound, inv.ended, inv.room, inv.idle⟩
  intro element member
  obtain ⟨old, inQueue, same, _⟩ := Session.mem_handleRecvmarkqRemoveRange member
  rw [same]
  exact inv.slices old inQueue

/-- The stream may grow while no block that is queued, and none that was read,
has ended it. -/
theorem grow (inv : ReaderInv S reader) (tail : List UInt8)
    (open_ : ∀ element ∈ reader.session.recvmarkq, element.block.marked = false)
    (reading : reader.session.pendingEof = false) : ReaderInv (S ++ tail) reader where
  slices := fun element member => (inv.slices element member).append tail (open_ element member)
  filled := by
    rw [List.take_append_of_le_length inv.bound]
    exact inv.filled
  word := inv.word
  bound := by
    have bound := inv.bound
    rw [List.length_append]
    omega
  ended := by
    intro ended
    rw [reading] at ended
    cases ended
  room := inv.room
  idle := inv.idle

/-- A retried read enters the loop where the invariant left the buffer. -/
theorem entry (inv : ReaderInv S reader) {buffer : Buffer}
    (allowed : reader.Retries buffer) :
    PassSafe (reader.session.readEntry buffer) ∧
      PassInv S reader.delivered (reader.session.readEntry buffer) := by
  have filled := inv.filled
  cases holding : reader.outstanding with
  | none =>
      have idle := inv.idle holding
      simp only [Reader.placed, holding, Option.elim_none, List.append_nil] at filled
      refine ⟨⟨inv.word, ?_, ?_⟩, ⟨?_, inv.bound, inv.ended⟩⟩
      · simp only [Session.readEntry, idle]
        exact Nat.zero_le _
      · intro copy member
        cases member
      · simpa only [Session.readEntry, idle, List.take_zero, List.append_nil] using filled
  | some held =>
      have same := allowed.2 held holding
      have room := inv.room held holding
      simp only [Reader.placed, holding, Option.elim_some] at filled
      refine ⟨⟨inv.word, ?_, ?_⟩, ⟨?_, inv.bound, inv.ended⟩⟩
      · simpa only [Session.readEntry, same] using room
      · intro copy member
        cases member
      · simpa only [Session.readEntry, same] using filled

theorem pass (inv : ReaderInv S reader) {buffer : Buffer}
    (allowed : reader.Retries buffer) :
    LoopSpec reader.session.recvmarkq (reader.session.readEntry buffer)
        (reader.session.readPass buffer).1 (reader.session.readPass buffer).2 ∧
      PassInv S reader.delivered (reader.session.readPass buffer).2 := by
  obtain ⟨safe, stands⟩ := inv.entry allowed
  exact ⟨readLoop_spec _ _ safe, stands.readLoop _ _ safe inv.slices⟩

theorem read (inv : ReaderInv S reader) {buffer : Buffer}
    (allowed : reader.Retries buffer) : ReaderInv S (reader.read buffer) := by
  obtain ⟨loop, stands⟩ := inv.pass allowed
  have spec := reader.session.read_spec allowed.1
  have safe := loop.safe
  have slices : ∀ element ∈ (reader.session.read buffer).session.recvmarkq,
      SliceOf S element.block := by
    intro element member
    rw [spec.queue] at member
    obtain ⟨old, inQueue, same, _⟩ := loop.kept element member
    rw [same]
    exact inv.slices old inQueue
  have filled := stands.filled
  cases done : (reader.session.read buffer).done with
  | true =>
      obtain ⟨idle, transferred⟩ := spec.finished done
      refine ⟨slices, ?_, ?_, ?_, ?_, ?_, ?_⟩
      · simpa only [Reader.read, Reader.placed, done, ↓reduceIte, Option.elim_none,
          List.append_nil, transferred, spec.held, spec.distributed] using filled
      · simpa only [Reader.read, spec.distributed] using safe.word
      · simpa only [Reader.read, spec.distributed] using stands.bound
      · simpa only [Reader.read, spec.distributed, spec.pendingEof] using stands.ended
      · intro held outstanding
        simp [Reader.read, done] at outstanding
      · exact fun _ => idle
  | false =>
      have offset := spec.waits done
      refine ⟨slices, ?_, ?_, ?_, ?_, ?_, ?_⟩
      · simpa only [Reader.read, Reader.placed, done, Bool.false_eq_true, ↓reduceIte,
          Option.elim_some, offset, spec.held, spec.distributed] using filled
      · simpa only [Reader.read, spec.distributed] using safe.word
      · simpa only [Reader.read, spec.distributed] using stands.bound
      · simpa only [Reader.read, spec.distributed, spec.pendingEof] using stands.ended
      · intro held outstanding
        simp only [Reader.read, done, Bool.false_eq_true, ↓reduceIte,
          Option.some.injEq] at outstanding
        simp only [Reader.read, offset, ← outstanding, spec.held]
        exact safe.room
      · intro outstanding
        simp [Reader.read, done] at outstanding

theorem next (inv : ReaderInv S reader) (action : ReaderAction)
    (allowed : reader.Allowed S action) : ReaderInv S (reader.next action) := by
  cases action with
  | put block => exact inv.put allowed
  | removeRange start stop => exact inv.removeRange start stop
  | read buffer => exact inv.read allowed

theorem reached {session : Session} (fresh : session.Fresh)
    (reached : Reaches Reader.next (Reader.Allowed S) { session := session } reader) :
    ReaderInv S reader :=
  reached.invariant (initial S fresh) fun _ action inv allowed => inv.next action allowed

end ReaderInv

/-- Where the blocks that arrived are: an arrived block is queued until the
cursor is past it, and the cursor has only passed positions of arrived blocks. -/
structure ReaderHolds (reader : Reader) : Prop where
  sources : ∀ element ∈ reader.session.recvmarkq, element.block ∈ reader.arrived
  held : ∀ block ∈ reader.arrived,
    (∃ element ∈ reader.session.recvmarkq, element.block = block) ∨
      block.endOffset ≤ reader.session.recvmarkqDistributed
  marks : ∀ element ∈ reader.session.recvmarkq, element.distributed = true →
    element.block.endOffset ≤ reader.session.recvmarkqDistributed
  covered : ∀ position < reader.session.recvmarkqDistributed,
    ∃ block ∈ reader.arrived, block.Covers position
  contiguous : ∀ position < reader.session.messager.theirContiguousSentBytes,
    ∃ block ∈ reader.arrived, block.Covers position
  eof : reader.session.pendingEof = true → ∃ block ∈ reader.arrived, block.marked = true

namespace ReaderHolds

variable {S : List UInt8} {reader : Reader}

theorem initial {session : Session} (fresh : session.Fresh) :
    ReaderHolds { session := session } where
  sources := by
    intro element member
    rw [fresh.recvmarkq] at member
    cases member
  held := by
    intro block member
    cases member
  marks := by
    intro element member
    rw [fresh.recvmarkq] at member
    cases member
  covered := by
    intro position below
    rw [fresh.recvmarkqDistributed] at below
    exact absurd below (Nat.not_lt_zero _)
  contiguous := by
    intro position below
    rw [fresh.theirContiguousSentBytes] at below
    exact absurd below (Nat.not_lt_zero _)
  eof := by
    intro ended
    rw [fresh.pendingEof] at ended
    cases ended

theorem put (holds : ReaderHolds reader) (inv : ReaderInv S reader) {block : Block}
    (slice : SliceOf S block) : ReaderHolds (reader.put block) := by
  rcases reader.session.handleRecvmarkqPut_cases block with
    ⟨refused, full⟩ | ⟨room, queue, strand, stored, perm⟩
  · simp only [Reader.put, refused]
    exact holds
  · simp only [Reader.put, stored, ↓reduceIte]
    have more : ∀ position, (∃ old ∈ reader.arrived, old.Covers position) →
        ∃ old ∈ block :: reader.arrived, old.Covers position := by
      intro position ⟨old, member, covers⟩
      exact ⟨old, List.mem_cons_of_mem _ member, covers⟩
    constructor
    · intro element member
      rcases List.mem_cons.mp (perm.mem_iff.mp member) with rfl | old
      · exact List.mem_cons_self
      · exact List.mem_cons_of_mem _ (holds.sources element old)
    · intro other member
      rcases List.mem_cons.mp member with rfl | old
      · exact Or.inl ⟨_, perm.mem_iff.mpr List.mem_cons_self, rfl⟩
      · rcases holds.held other old with ⟨element, queued, same⟩ | passed
        · exact Or.inl ⟨element, perm.mem_iff.mpr (List.mem_cons_of_mem _ queued), same⟩
        · exact Or.inr passed
    · intro element member marked
      rcases List.mem_cons.mp (perm.mem_iff.mp member) with rfl | old
      · -- the reader is at EOF, so the cursor is where every block ends
        have ended := inv.ended marked
        have inside := slice.inside
        have small := Nat.mod_le (block.offset + block.dataLen) (2 ^ 64)
        simp only [Block.endOffset, add64]
        omega
      · exact holds.marks element old marked
    · intro position below
      exact more position (holds.covered position below)
    · intro position below
      exact more position (holds.contiguous position below)
    · intro ended
      obtain ⟨old, member, marked⟩ := holds.eof ended
      exact ⟨old, List.mem_cons_of_mem _ member, marked⟩

theorem removeRange (holds : ReaderHolds reader) (start stop : Nat) :
    ReaderHolds (reader.removeRange start stop) where
  sources := by
    intro element member
    obtain ⟨old, inQueue, same, _⟩ := Session.mem_handleRecvmarkqRemoveRange member
    rw [same]
    exact holds.sources old inQueue
  held := by
    intro block member
    rcases holds.held block member with ⟨element, queued, same⟩ | passed
    · rcases Session.handleRecvmarkqRemoveRange_gone start stop queued with
        ⟨kept, inQueue, sameBlock⟩ | distributed
      · exact Or.inl ⟨kept, inQueue, sameBlock.trans same⟩
      · exact Or.inr (same ▸ holds.marks element queued distributed)
    · exact Or.inr passed
  marks := by
    intro element member marked
    obtain ⟨old, inQueue, same, distributed⟩ := Session.mem_handleRecvmarkqRemoveRange member
    rw [same]
    exact holds.marks old inQueue (distributed ▸ marked)
  covered := holds.covered
  contiguous := holds.contiguous
  eof := holds.eof

theorem read (holds : ReaderHolds reader) (inv : ReaderInv S reader) {buffer : Buffer}
    (allowed : reader.Retries buffer) : ReaderHolds (reader.read buffer) := by
  obtain ⟨loop, _⟩ := inv.pass allowed
  have spec := reader.session.read_spec allowed.1
  have passed : ∀ position < (reader.session.readPass buffer).2.distributed,
      ∃ block ∈ reader.arrived, block.Covers position := by
    intro position below
    by_cases before : position < reader.session.recvmarkqDistributed
    · exact holds.covered position before
    · obtain ⟨element, queued, covers⟩ :=
        loop.covered position (Nat.le_of_not_lt before) below
      exact ⟨element.block, holds.sources element queued, covers⟩
  have further : reader.session.recvmarkqDistributed ≤
      (reader.session.readPass buffer).2.distributed := loop.grows
  constructor
  · intro element member
    simp only [Reader.read, spec.queue] at member
    obtain ⟨old, inQueue, same, _⟩ := loop.kept element member
    rw [same]
    exact holds.sources old inQueue
  · intro block member
    simp only [Reader.read, spec.queue, spec.distributed]
    rcases holds.held block member with ⟨element, queued, same⟩ | before
    · rcases loop.gone element queued with ⟨kept, inQueue, sameBlock⟩ | behind
      · exact Or.inl ⟨kept, inQueue, sameBlock.trans same⟩
      · exact Or.inr (same ▸ behind)
    · exact Or.inr (Nat.le_trans before further)
  · intro element member marked
    simp only [Reader.read, spec.queue, spec.distributed] at member ⊢
    obtain ⟨old, inQueue, same, marks⟩ := loop.kept element member
    rcases marks marked with before | behind
    · rw [same]
      exact Nat.le_trans (holds.marks old inQueue before) further
    · exact behind
  · intro position below
    simp only [Reader.read, spec.distributed] at below
    exact passed position below
  · intro position below
    simp only [Reader.read, spec.contiguous] at below
    rcases loop.contiguous with kept | raised
    · exact holds.contiguous position (Nat.lt_of_lt_of_le below kept)
    · exact passed position (Nat.lt_of_lt_of_le below raised)
  · intro ended
    simp only [Reader.read, spec.pendingEof] at ended
    rcases loop.eof ended with before | ⟨old, inQueue, marked⟩
    · exact holds.eof before
    · exact ⟨old.block, holds.sources old inQueue, marked⟩

end ReaderHolds

/-- In every state that arrivals, acknowledgements and reads lead to, the bytes
reported and placed are the distributed prefix of the stream, the next read
copies safely, and a read that reports EOF completes the stream. -/
theorem read_delivers_stream (S : List UInt8) {session : Session} {reader : Reader}
    (fresh : session.Fresh)
    (reached : Reaches Reader.next (Reader.Allowed S) { session := session } reader) :
    reader.delivered ++ reader.placed = S.take reader.session.recvmarkqDistributed ∧
      reader.session.recvmarkqDistributed ≤ S.length ∧
      ∀ buffer, reader.Retries buffer →
        (∀ copy ∈ (reader.session.read buffer).copies, copy.Safe) ∧
        ((reader.session.read buffer).ec = .eof →
          reader.delivered ++ (reader.session.read buffer).buffer.bytes.take
            (reader.session.read buffer).bytesTransferred = S) := by
  have inv := ReaderInv.reached fresh reached
  refine ⟨inv.filled, inv.bound, ?_⟩
  intro buffer allowed
  obtain ⟨loop, stands⟩ := inv.pass allowed
  have spec := reader.session.read_spec allowed.1
  refine ⟨?_, ?_⟩
  · rw [spec.copies]
    exact loop.safe.safe
  · intro eof
    obtain ⟨done, ended⟩ := spec.eof eof
    rw [spec.held, (spec.finished done).2, stands.filled, stands.ended ended, List.take_length]

/-- Overlapping blocks out of order, read through a buffer of two bytes. -/
theorem read_delivers_three_bytes :
    let pair : Buffer := ⟨[0, 0], by decide⟩
    let first : Block := { offset := 0, data := [1, 2] }
    let last : Block := { offset := 1, data := [2, 3], eof := .eofSuccess }
    let reader := [ReaderAction.put last, .read pair, .put first, .read pair,
      .removeRange 0 3].foldl Reader.next { session := {} }
    reader.delivered ++ reader.placed = [1, 2] ∧
      (∀ copy ∈ (reader.session.read pair).copies, copy.Safe) ∧
      reader.delivered ++ (reader.session.read pair).buffer.bytes.take
        (reader.session.read pair).bytesTransferred = [1, 2, 3] := by
  intro pair first last reader
  have fresh : ({} : Session).Fresh := Session.fresh_configured _ _ _
  have reached : Reaches Reader.next (Reader.Allowed [1, 2, 3]) { session := {} } reader :=
    Reaches.start.schedule _ ⟨⟨by decide, by decide, by decide⟩, ⟨by decide, by decide⟩,
      ⟨by decide, by decide, by decide⟩, ⟨by decide, by decide⟩, trivial, trivial⟩
  have walked := read_delivers_stream [1, 2, 3] fresh reached
  have next := walked.2.2 pair ⟨by decide, by decide⟩
  exact ⟨walked.1.trans (by decide), next.1, next.2 (by decide)⟩

end CurvecprAsio
