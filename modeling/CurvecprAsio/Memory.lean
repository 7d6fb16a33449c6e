import CurvecprAsio.Rule
import Mathlib.Algebra.Order.BigOperators.Group.List
import Mathlib.Algebra.Order.Ring.Nat

set_option autoImplicit false

/- How much a session holds, whatever its users write and its peer sends. -/
namespace CurvecprAsio

open Strand Transition SearchTree

namespace Session

/-- The bytes of data that a session holds: the ring, the head block and the queued
blocks. -/
def held (s : Session) : Nat :=
  s.pending.length + s.sendqHead.dataLen +
    (s.sendmarkq.toList.map fun sent => sent.block.dataLen).sum +
    (s.recvmarkq.map fun element => element.block.dataLen).sum

/-- The maxima a session is configured with. -/
def maxima (s : Session) : Nat × Nat × Nat :=
  (s.pendingMaximum, s.sendmarkqMaximum, s.recvmarkqMaximum)

end Session

/-- A block's data array has `capacity` bytes. -/
def Callback.fits (capacity : Nat) : Callback → Guard
  | .recvmarkqPut block => .of (block.dataLen ≤ capacity)
  | .messager state => .of (state.myMaximumSendBytes ≤ capacity)
  | _ => .free

abbrev Callback.Fits (capacity : Nat) (callback : Callback) : Prop := (callback.fits capacity).holds

/-- The queues keep to their maxima, the ring to its cursors, and each block to its data
array. -/
structure Bounded (capacity : Nat) (maxima : Nat × Nat × Nat) (s : Session) : Prop where
  maxima : s.maxima = maxima
  ring : PendingInv s
  sends : s.messager.myMaximumSendBytes ≤ capacity
  head : s.sendqHead.dataLen ≤ capacity
  sent : s.sendmarkq.size ≤ s.sendmarkqMaximum
  sentBlocks : ∀ sent ∈ s.sendmarkq.toList, sent.block.dataLen ≤ capacity
  received : s.recvmarkq.length ≤ s.recvmarkqMaximum
  receivedBlocks : ∀ element ∈ s.recvmarkq, element.block.dataLen ≤ capacity

namespace Session

/-- A move leaves the queue in its bound, and brings in the block it was given or the
head block. -/
theorem move_changes (s : Session) (balance : Balance SentBlock) (block : SentBlock) :
    ∃ allocated queue remains,
      (s.handleSendqMoveToSendmarkq balance block).session = { s with
        allocated := allocated, sendmarkq := queue, sendqHeadExists := remains } ∧
      (s.sendmarkq.size ≤ s.sendmarkqMaximum → queue.size ≤ s.sendmarkqMaximum) ∧
      ∀ sent ∈ queue.toList,
        sent ∈ s.sendmarkq.toList ∨ sent = block ∨ sent.block = s.sendqHead := by
  have kept : ∃ allocated queue remains, s = { s with
        allocated := allocated, sendmarkq := queue, sendqHeadExists := remains } ∧
      (s.sendmarkq.size ≤ s.sendmarkqMaximum → queue.size ≤ s.sendmarkqMaximum) ∧
      ∀ sent ∈ queue.toList,
        sent ∈ s.sendmarkq.toList ∨ sent = block ∨ sent.block = s.sendqHead :=
    ⟨s.allocated, s.sendmarkq, s.sendqHeadExists, rfl, id, fun _ member => Or.inl member⟩
  unfold handleSendqMoveToSendmarkq
  split
  · split
    · rename_i it found
      obtain ⟨other, located, _⟩ := Tree.find_spec found
      refine ⟨_, _, _, rfl, ?_, ?_⟩
      · intro bounded
        have perm := (Tree.insert_perm blockClockCompare block
          (balance.run (s.sendmarkq.erase it))).length_eq
        have inside := (List.getElem?_eq_some_iff.mp located).1
        have less := List.length_eraseIdx_add_one inside
        rw [List.length_cons, Balance.toList_run, Tree.toList_erase, less] at perm
        rw [← Tree.length_toList, Balance.toList_run, perm, Tree.length_toList]
        exact bounded
      · intro sent member
        rw [Balance.toList_run, Tree.mem_insert, Balance.toList_run, Tree.toList_erase] at member
        rcases member with new | old
        · exact Or.inr (Or.inl new)
        · exact Or.inl (List.mem_of_mem_eraseIdx old)
    · exact kept
  · split
    · exact kept
    · rename_i room
      refine ⟨_, _, _, rfl, ?_, ?_⟩
      · intro _
        have perm := (Tree.insert_perm blockClockCompare
          (⟨s.allocated + 1, s.sendqHead⟩ : SentBlock) s.sendmarkq).length_eq
        rw [List.length_cons, Tree.length_toList s.sendmarkq] at perm
        rw [← Tree.length_toList, Balance.toList_run, perm]
        simp only [handleSendmarkqIsFull, decide_eq_true_eq] at room
        omega
      · intro sent member
        rw [Balance.toList_run, Tree.mem_insert] at member
        rcases member with new | old
        · exact Or.inr (Or.inr (by rw [new]))
        · exact Or.inl old

end Session

namespace Bounded

variable {capacity : Nat} {maxima : Nat × Nat × Nat} {s : Session}

theorem move (bounded : Bounded capacity maxima s) (balance : Balance SentBlock)
    {block : SentBlock} (fits : block.block.dataLen ≤ capacity) :
    Bounded capacity maxima (s.handleSendqMoveToSendmarkq balance block).session := by
  obtain ⟨allocated, queue, remains, changed, size, blocks⟩ := s.move_changes balance block
  rw [changed]
  refine ⟨bounded.maxima, bounded.ring.frame rfl, bounded.sends, bounded.head,
    size bounded.sent, ?_, bounded.received, bounded.receivedBlocks⟩
  intro sent member
  rcases blocks sent member with old | rfl | isHead
  · exact bounded.sentBlocks sent old
  · exact fits
  · rw [isHead]
    exact bounded.head

theorem stampSent (bounded : Bounded capacity maxima s) (pointer id : Nat) (clock : Int) :
    Bounded capacity maxima (s.stampSent pointer id clock) := by
  have contents : (s.stampSent pointer id clock).sendmarkq.toList =
      s.sendmarkq.toList.map (Session.stampPointer pointer id clock) := Tree.toList_map _ _
  refine ⟨bounded.maxima, bounded.ring.frame rfl, bounded.sends, bounded.head, ?_, ?_,
    bounded.received, bounded.receivedBlocks⟩
  · rw [← Tree.length_toList, contents, List.length_map, Tree.length_toList]
    exact bounded.sent
  · rw [contents]
    intro sent member
    obtain ⟨old, inside, rfl⟩ := List.mem_map.mp member
    have same : (Session.stampPointer pointer id clock old).block.dataLen =
        old.block.dataLen := by
      unfold Session.stampPointer
      split <;> rfl
    rw [same]
    exact bounded.sentBlocks old inside

theorem sendqHead (bounded : Bounded capacity maxima s) :
    Bounded capacity maxima s.handleSendqHead.session := by
  obtain ⟨ring, _, same | ⟨_, ⟨block, current, used, strand, changed⟩, length, _⟩⟩ :=
    bounded.ring.handleSendqHead
  · rw [same]
    exact bounded
  · have sends := bounded.sends
    rw [changed] at length ring ⊢
    refine ⟨bounded.maxima, ring, bounded.sends, ?_, bounded.sent, bounded.sentBlocks,
      bounded.received, bounded.receivedBlocks⟩
    rw [length]
    omega

theorem put (bounded : Bounded capacity maxima s) {block : Block}
    (fits : block.dataLen ≤ capacity) :
    Bounded capacity maxima (s.handleRecvmarkqPut block).session := by
  rcases s.handleRecvmarkqPut_cases block with
    ⟨refused, _⟩ | ⟨room, queue, strand, stored, perm⟩
  · rw [refused]
    exact bounded
  · rw [stored]
    have longer := perm.length_eq
    rw [List.length_cons] at longer
    refine ⟨bounded.maxima, bounded.ring.frame rfl, bounded.sends, bounded.head, bounded.sent,
      bounded.sentBlocks, ?_, ?_⟩
    · dsimp only
      omega
    · intro element member
      rcases List.mem_cons.mp (perm.mem_iff.mp member) with rfl | old
      · exact fits
      · exact bounded.receivedBlocks element old

theorem shrink (bounded : Bounded capacity maxima s) {queue : List BlockStatus}
    (fewer : (queue.map BlockStatus.block).Sublist (s.recvmarkq.map BlockStatus.block)) :
    queue.length ≤ s.recvmarkqMaximum ∧
      ∀ element ∈ queue, element.block.dataLen ≤ capacity := by
  constructor
  · have shorter := fewer.length_le
    have received := bounded.received
    rw [List.length_map, List.length_map] at shorter
    omega
  · intro element member
    obtain ⟨old, inside, same⟩ := List.mem_map.mp (fewer.subset (List.mem_map_of_mem member))
    rw [← same]
    exact bounded.receivedBlocks old inside

theorem callback (bounded : Bounded capacity maxima s) {callback : Callback}
    (fits : callback.Fits capacity) : Bounded capacity maxima (s.callback callback) := by
  cases callback with
  | sendqHead => exact bounded.sendqHead
  | stampHead id clock offset =>
      exact ⟨bounded.maxima, bounded.ring.frame rfl, bounded.sends, bounded.head, bounded.sent,
        bounded.sentBlocks, bounded.received, bounded.receivedBlocks⟩
  | sendqMoveToSendmarkq balance => exact bounded.move balance bounded.head
  | resend balance pointer id clock =>
      have stamped := bounded.stampSent pointer id clock
      simp only [Session.callback, Session.resend]
      split
      · rename_i sent found
        exact stamped.move balance (stamped.sentBlocks sent (List.mem_of_find?_eq_some found))
      · exact stamped
  | sendmarkqRemoveRange balance start stop =>
      have sublist : (s.handleSendmarkqRemoveRange balance start stop).sendmarkq.toList.Sublist
          s.sendmarkq.toList := by
        rw [Session.toList_handleSendmarkqRemoveRange]
        exact List.filter_sublist
      have shorter := sublist.length_le
      rw [Tree.length_toList, Tree.length_toList] at shorter
      exact ⟨bounded.maxima, bounded.ring.frame rfl, bounded.sends, bounded.head,
        shorter.trans bounded.sent, fun sent member =>
          bounded.sentBlocks sent (sublist.subset member),
        bounded.received, bounded.receivedBlocks⟩
  | recvmarkqPut block => exact bounded.put fits
  | recvmarkqRemoveRange start stop =>
      obtain ⟨received, blocks⟩ := bounded.shrink
        (acknowledge_sublist start stop s.recvmarkq)
      exact ⟨bounded.maxima, bounded.ring.frame rfl, bounded.sends, bounded.head, bounded.sent,
        bounded.sentBlocks, received, blocks⟩
  | messager messager =>
      exact ⟨bounded.maxima, bounded.ring.frame rfl, fits, bounded.head, bounded.sent,
        bounded.sentBlocks, bounded.received, bounded.receivedBlocks⟩

theorem write (bounded : Bounded capacity maxima s) (buffer : Buffer) :
    Bounded capacity maxima (s.write buffer).session := by
  have ring := (bounded.ring.write buffer).inv
  obtain ⟨pending, next, used, strand, changed⟩ := s.write_changes buffer
  rw [changed] at ring ⊢
  exact ⟨bounded.maxima, ring, bounded.sends, bounded.head, bounded.sent, bounded.sentBlocks,
    bounded.received, bounded.receivedBlocks⟩

theorem read (bounded : Bounded capacity maxima s) (buffer : Buffer) :
    Bounded capacity maxima (s.read buffer).session := by
  by_cases empty : buffer.length = 0
  · simp only [Session.read, empty, ↓reduceIte]
    exact ⟨bounded.maxima, bounded.ring.frame rfl, bounded.sends, bounded.head, bounded.sent,
      bounded.sentBlocks, bounded.received, bounded.receivedBlocks⟩
  · have queue : (s.read buffer).session.recvmarkq =
        (readLoop s.recvmarkq (s.readEntry buffer)).1 := (s.read_spec empty).queue
    obtain ⟨received, blocks⟩ := bounded.shrink
      (readLoop_sublist s.recvmarkq (s.readEntry buffer))
    rw [← queue] at received blocks
    obtain ⟨queue', distributed, offset, ended, contiguous, changed⟩ := s.read_changes buffer
    rw [changed] at received blocks ⊢
    exact ⟨bounded.maxima, bounded.ring.frame rfl, bounded.sends, bounded.head, bounded.sent,
      bounded.sentBlocks, received, blocks⟩

theorem doClose (bounded : Bounded capacity maxima s) :
    Bounded capacity maxima (s.doClose .success) := by
  have emptied : s.pending = [] ∧ 0 = 0 ∨ s.pending.length = s.pendingMaximum := by
    rcases bounded.ring.allocated with ⟨empty, _⟩ | length
    · exact Or.inl ⟨empty, rfl⟩
    · exact Or.inr length
  refine ⟨bounded.maxima, ⟨bounded.ring.small, emptied, Nat.zero_le _, Nat.zero_le _,
    Nat.zero_le _, rfl⟩, bounded.sends, bounded.head, Nat.zero_le _, ?_, Nat.zero_le _, ?_⟩
  · intro sent member
    cases member
  · intro element member
    cases member

theorem invariant (capacity : Nat) (maxima : Nat × Nat × Nat) :
    Session.DataInvariant (Callback.Fits capacity) (Bounded capacity maxima) where
  strand := fun _ _ _ bounded => ⟨bounded.maxima, bounded.ring.frame rfl, bounded.sends,
    bounded.head, bounded.sent, bounded.sentBlocks, bounded.received, bounded.receivedBlocks⟩
  runs := fun _ bounded => ⟨bounded.maxima, bounded.ring.frame rfl, bounded.sends,
    bounded.head, bounded.sent, bounded.sentBlocks, bounded.received, bounded.receivedBlocks⟩
  callback := fun _ _ fits bounded => bounded.callback fits
  write := fun _ buffer bounded => bounded.write buffer
  read := fun _ buffer bounded => bounded.read buffer
  closing := fun _ bounded => ⟨bounded.maxima, bounded.ring.frame rfl, bounded.sends,
    bounded.head, bounded.sent, bounded.sentBlocks, bounded.received, bounded.receivedBlocks⟩
  doClose := fun _ bounded => bounded.doClose

theorem held (bounded : Bounded capacity maxima s) :
    s.held ≤ s.pendingMaximum + (1 + s.sendmarkqMaximum + s.recvmarkqMaximum) * capacity := by
  have total : ∀ {α : Type} (items : List α) (size : α → Nat),
      (∀ item ∈ items, size item ≤ capacity) →
        (items.map size).sum ≤ items.length * capacity := by
    intro α items size each
    have most := List.sum_le_card_nsmul (items.map size) capacity (by simpa using each)
    rwa [List.length_map, Nat.nsmul_eq_mul] at most
  have sent := total s.sendmarkq.toList (fun sent => sent.block.dataLen) bounded.sentBlocks
  have received := total s.recvmarkq (fun element => element.block.dataLen)
    bounded.receivedBlocks
  rw [Tree.length_toList] at sent
  have sentMost := Nat.mul_le_mul_right capacity bounded.sent
  have receivedMost := Nat.mul_le_mul_right capacity bounded.received
  have ring : s.pending.length ≤ s.pendingMaximum := by
    rcases bounded.ring.allocated with ⟨empty, _⟩ | length
    · rw [empty]
      exact Nat.zero_le _
    · exact Nat.le_of_eq length
  have head := bounded.head
  rw [Nat.add_mul, Nat.add_mul, Nat.one_mul]
  unfold Session.held
  omega

end Bounded

/-- Whatever users, timers and libcurvecpr do to a session, its queues keep to their maxima
and the data it holds to what they allow. -/
theorem session_memory_is_bounded {pendingMaximum sendmarkqMaximum recvmarkqMaximum capacity : Nat}
    (small : pendingMaximum < 2 ^ 31) (sends : 512 ≤ capacity) {later : Service}
    (reached : Reaches Service.next
      (fun service action => service.Possible action ∧ action.Heeds (Callback.Fits capacity))
      { session := {
          pendingMaximum := pendingMaximum, sendmarkqMaximum := sendmarkqMaximum
          recvmarkqMaximum := recvmarkqMaximum } } later) :
    later.session.sendmarkq.size ≤ sendmarkqMaximum ∧
      later.session.recvmarkq.length ≤ recvmarkqMaximum ∧
      later.session.pendingUsed ≤ pendingMaximum ∧
      later.session.held ≤
        pendingMaximum + (1 + sendmarkqMaximum + recvmarkqMaximum) * capacity := by
  have fresh := Session.fresh_configured pendingMaximum sendmarkqMaximum recvmarkqMaximum
  have bounded : Bounded capacity (pendingMaximum, sendmarkqMaximum, recvmarkqMaximum)
      later.session := by
    apply (Bounded.invariant capacity _).reached _ rfl reached
    refine ⟨rfl, PendingInv.fresh fresh small, sends, Nat.zero_le _, Nat.zero_le _, ?_,
      Nat.zero_le _, ?_⟩
    · intro sent member
      cases member
    · intro element member
      cases member
  have maxima := bounded.maxima
  simp only [Session.maxima, Prod.mk.injEq] at maxima
  obtain ⟨ring, sendmarkq, recvmarkq⟩ := maxima
  have sent := bounded.sent
  have received := bounded.received
  have used := bounded.ring.used
  have held := bounded.held
  rw [ring] at used held
  rw [sendmarkq] at sent held
  rw [recvmarkq] at received held
  exact ⟨sent, received, used, held⟩

/-- Three blocks arrive for a queue of two, and more is written than the ring takes. -/
theorem session_memory_is_bounded_full :
    let block : Block := { id := 1, clock := 1, data := [7, 7] }
    let actions : List ServiceAction :=
      [.start, .receive [.recvmarkqPut block, .recvmarkqPut block, .recvmarkqPut block],
        .beginInside 1 (.write ⟨[1, 2, 3], by decide⟩) [],
        .beginInside 2 (.write ⟨[4, 5], by decide⟩) [],
        .receive [.sendqHead, .stampHead 1 1 0, .sendqMoveToSendmarkq .id]]
    let later := actions.foldl Service.next
      { session := { pendingMaximum := 4, sendmarkqMaximum := 1, recvmarkqMaximum := 2 } }
    later.session.held ≤ 4 + (1 + 1 + 2) * 512 ∧ later.session.held = 14 := by
  intro block actions later
  have reached : Reaches Service.next
      (fun service action => service.Possible action ∧ action.Heeds (Callback.Fits 512))
      { session := { pendingMaximum := 4, sendmarkqMaximum := 1, recvmarkqMaximum := 2 } }
      later := Reaches.start.schedule _ (by decide)
  exact ⟨(session_memory_is_bounded (by decide) (by decide) reached).2.2.2, by decide⟩

end CurvecprAsio
