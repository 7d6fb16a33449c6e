import CurvecprAsio.Settle
import CurvecprAsio.Lib.Sweep

set_option autoImplicit false

/- One read takes the longest contiguous prefix that the queue and the buffer
allow. -/
namespace CurvecprAsio

open SearchTree Sweep

/-- The receive queue is in its order. -/
def Session.Sorted (s : Session) : Prop := Ordered blockRangeCompare s.recvmarkq

/-- The order looks at the blocks only. -/
theorem ordered_iff_blocks (queue : List BlockStatus) : Ordered blockRangeCompare queue ↔
    (queue.map BlockStatus.block).Pairwise fun earlier later =>
      blockRangeCompare { block := later } { block := earlier } = false := by
  rw [List.pairwise_map]
  exact Iff.rfl

theorem ordered_of_sublist {left queue : List BlockStatus}
    (sublist : (left.map BlockStatus.block).Sublist (queue.map BlockStatus.block))
    (sorted : Ordered blockRangeCompare queue) : Ordered blockRangeCompare left := by
  rw [ordered_iff_blocks] at sorted ⊢
  exact sorted.sublist sublist

namespace Session

theorem Sorted.put {s : Session} (sorted : s.Sorted) (block : Block) :
    (s.handleRecvmarkqPut block).session.Sorted := by
  unfold handleRecvmarkqPut
  split
  · exact sorted
  · exact ordered_orderedInsert blockRangeCompare_weakOrder _ sorted

theorem Sorted.removeRange {s : Session} (sorted : s.Sorted) (start stop : Nat) :
    (s.handleRecvmarkqRemoveRange start stop).Sorted :=
  ordered_of_sublist (acknowledge_sublist start stop s.recvmarkq) sorted

theorem Sorted.read {s : Session} (sorted : s.Sorted) (buffer : Buffer) :
    (s.read buffer).session.Sorted := by
  by_cases empty : buffer.length = 0
  · simp only [Session.read, empty, ↓reduceIte]
    exact sorted
  · unfold Sorted
    rw [(s.read_spec empty).queue]
    exact ordered_of_sublist (readLoop_sublist s.recvmarkq _) sorted

end Session

/-- Where the blocks of the queue begin and end. -/
def BlockStatus.offset (element : BlockStatus) : Nat := element.block.offset

def BlockStatus.endOffset (element : BlockStatus) : Nat := element.block.endOffset

/-- Every position from `start` up to `stop` lies in some queued block. -/
def Available (queue : List BlockStatus) (start stop : Nat) : Prop :=
  ∀ position, start ≤ position → position < stop →
    ∃ element ∈ queue, element.block.Covers position

theorem offsets_sorted {queue : List BlockStatus} (sorted : Ordered blockRangeCompare queue) :
    queue.Pairwise fun earlier later => earlier.offset ≤ later.offset := by
  apply List.Pairwise.imp _ sorted
  intro earlier later notBefore
  show earlier.block.offset ≤ later.block.offset
  by_cases same : later.block.offset = earlier.block.offset
  · omega
  · simp only [blockRangeCompare, same, ↓reduceIte, decide_eq_false_iff_not] at notBefore
    omega

/-- Where no end wraps, the queue covers what its blocks hold. -/
theorem covered_iff_available {queue : List BlockStatus}
    (fits : ∀ element ∈ queue, element.block.offset + element.block.dataLen < 2 ^ 64)
    (start stop : Nat) :
    Covered BlockStatus.offset BlockStatus.endOffset queue start stop ↔
      Available queue start stop := by
  have same : ∀ element ∈ queue, ∀ position,
      (element.offset ≤ position ∧ position < element.endOffset) ↔
        element.block.Covers position := by
    intro element member position
    have ends := element.block.endOffset_eq (fits element member)
    simp only [BlockStatus.offset, BlockStatus.endOffset, Block.Covers, ends]
  constructor
  · intro covered position above below
    obtain ⟨element, member, covers⟩ := covered position above below
    exact ⟨element, member, (same element member position).mp covers⟩
  · intro available position above below
    obtain ⟨element, member, covers⟩ := available position above below
    exact ⟨element, member, (same element member position).mpr covers⟩

/-- The loop of a read is a sweep over the queue, cut off at the limit. -/
theorem readLoop_sweep (queue : List BlockStatus) (pass : ReadPass)
    (word : pass.distributed < 2 ^ 64) :
    (readLoop queue pass).2.distributed =
        min pass.limit (sweep BlockStatus.offset BlockStatus.endOffset queue pass.distributed) ∧
      (readLoop queue pass).2.limit = pass.limit := by
  induction queue generalizing pass with
  | nil =>
      have within : pass.distributed ≤ pass.limit := Nat.le_add_right _ _
      exact ⟨(Nat.min_eq_right within).symm, rfl⟩
  | cons element rest ih =>
      have further := le_sweep BlockStatus.offset BlockStatus.endOffset rest
        (max pass.distributed element.block.endOffset)
      by_cases reached : element.block.offset ≤ pass.distributed
      · obtain ⟨small, _, partly, whole⟩ := ReadPass.consume_limit word reached
        simp only [readLoop, sweep, BlockStatus.offset, BlockStatus.endOffset, reached,
          ↓reduceIte] at further ⊢
        split
        · rename_i broke
          have ended := ReadPass.consume_partly word reached broke
          have beyond := partly broke
          refine ⟨ended.1.trans (Nat.min_eq_left ?_).symm, ended.2⟩
          exact Nat.le_trans (Nat.le_of_lt beyond) further
        · rename_i passed
          obtain ⟨moved, same, _⟩ := whole (by simpa using passed)
          have next := ih ((pass.consume element.block).1.distribute element.block) small
          have cursor : ((pass.consume element.block).1.distribute element.block).distributed =
              max pass.distributed element.block.endOffset := moved
          have limit : ((pass.consume element.block).1.distribute element.block).limit =
              pass.limit := same
          rw [cursor, limit] at next
          exact next
      · have within : pass.distributed ≤ pass.limit := Nat.le_add_right _ _
        simp only [readLoop, sweep, BlockStatus.offset, reached, ↓reduceIte]
        exact ⟨(Nat.min_eq_right within).symm, trivial⟩

theorem Session.read_done_iff (s : Session) {buffer : Buffer} (nonempty : buffer.length ≠ 0) :
    (s.read buffer).done = true ↔
      (s.readPass buffer).2.readOffset = buffer.length ∨
        (s.readPass buffer).2.pendingEof = true := by
  simp only [Session.read, nonempty, ↓reduceIte]
  split
  · rename_i complete
    simp only [complete]
  · rename_i incomplete
    simp only [incomplete, Bool.false_eq_true]

/-- A read moves the cursor to the end of the longest contiguous prefix that is
queued, or as far as the buffer has room, and it is done when the buffer is full
or the end of the stream is known. -/
theorem read_takes_longest_run {s : Session} {buffer : Buffer}
    (sorted : Ordered blockRangeCompare s.recvmarkq)
    (fits : ∀ element ∈ s.recvmarkq, element.block.offset + element.block.dataLen < 2 ^ 64)
    (word : s.recvmarkqDistributed < 2 ^ 64) (room : s.recvmarkqReadOffset < buffer.length) :
    ∃ stop, IsGreatest {stop | Available s.recvmarkq s.recvmarkqDistributed stop} stop ∧
      (s.read buffer).session.recvmarkqDistributed =
        min (s.recvmarkqDistributed + (buffer.length - s.recvmarkqReadOffset)) stop ∧
      ((s.read buffer).done = true ↔
        s.recvmarkqDistributed + (buffer.length - s.recvmarkqReadOffset) ≤ stop ∨
          (s.read buffer).session.pendingEof = true) := by
  have nonempty : buffer.length ≠ 0 := by omega
  have small := buffer.length_lt
  have spec := s.read_spec nonempty
  obtain ⟨moved, kept⟩ := readLoop_sweep s.recvmarkq (s.readEntry buffer) word
  have limit : (s.readEntry buffer).limit =
      s.recvmarkqDistributed + (buffer.length - s.recvmarkqReadOffset) := by
    simp only [ReadPass.limit, Session.readEntry, sub64_eq (Nat.le_of_lt room) small]
  rw [limit] at moved kept
  have safe : PassSafe (s.readEntry buffer) := ⟨word, Nat.le_of_lt room, by
    intro copy member
    cases member⟩
  have stays := (readLoop_spec s.recvmarkq _ safe).safe.room
  have length : (s.readPass buffer).2.buffer.length = buffer.length :=
    (readLoop_spec s.recvmarkq _ safe).length
  have full : (s.readPass buffer).2.readOffset = buffer.length ↔
      (s.readPass buffer).2.distributed =
        s.recvmarkqDistributed + (buffer.length - s.recvmarkqReadOffset) := by
    rw [← kept]
    have inside : (s.readPass buffer).2.readOffset ≤ buffer.length := length ▸ stays
    show _ ↔ _ = (s.readPass buffer).2.limit
    simp only [ReadPass.limit, length, sub64_eq inside small]
    omega
  have cursor : (s.read buffer).session.recvmarkqDistributed =
      min (s.recvmarkqDistributed + (buffer.length - s.recvmarkqReadOffset))
        (sweep BlockStatus.offset BlockStatus.endOffset s.recvmarkq s.recvmarkqDistributed) :=
    spec.distributed.trans moved
  refine ⟨sweep BlockStatus.offset BlockStatus.endOffset s.recvmarkq s.recvmarkqDistributed,
    ?_, cursor, ?_⟩
  · have greatest := isGreatest_sweep BlockStatus.offset BlockStatus.endOffset
      s.recvmarkqDistributed (offsets_sorted sorted)
    simpa only [covered_iff_available fits] using greatest
  · rw [s.read_done_iff nonempty, full, ← spec.distributed, cursor, spec.pendingEof]
    exact or_congr (by omega) Iff.rfl

/-- Two overlapping blocks below a gap, read into a buffer of four bytes. -/
theorem read_takes_run_below_gap :
    let session : Session := {
      recvmarkq := [{ block := { offset := 0, data := [1, 2] } },
        { block := { offset := 1, data := [2, 3] } },
        { block := { offset := 5, data := [6] } }] }
    let buffer : Buffer := ⟨[0, 0, 0, 0], by decide⟩
    (∃ stop, IsGreatest {stop | Available session.recvmarkq session.recvmarkqDistributed stop}
        stop ∧
      (session.read buffer).session.recvmarkqDistributed = min 4 stop ∧
      ((session.read buffer).done = true ↔
        4 ≤ stop ∨ (session.read buffer).session.pendingEof = true)) ∧
      (session.read buffer).session.recvmarkqDistributed = 3 := by
  intro session buffer
  have taken := @read_takes_longest_run session buffer (by unfold Ordered; decide) (by decide)
    (by decide) (by decide)
  have whole : session.recvmarkqDistributed + (buffer.length - session.recvmarkqReadOffset) = 4 :=
    by decide
  rw [whole] at taken
  exact ⟨taken, by decide⟩

end CurvecprAsio
