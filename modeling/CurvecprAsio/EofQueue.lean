import CurvecprAsio.Settle
import CurvecprAsio.Steps

set_option autoImplicit false

/- The receive queue once the end of the stream is known and nothing is read. -/
namespace CurvecprAsio

open Transition

namespace Session

/-- Elements that have been distributed and acknowledged are not kept. -/
def Unspent (s : Session) : Prop := ∀ element ∈ s.recvmarkq, element.done = false

/-- Whatever libcurvecpr calls: an acknowledged range leaves no block behind, and
a queue of acknowledged blocks is empty and takes the next block. -/
def Drains (s : Session) : Prop :=
  ∀ activity, (∀ start stop, ∀ element ∈
      ((s.callbacks activity).handleRecvmarkqRemoveRange start stop).recvmarkq,
        element.block.inRange start stop = false) ∧
    ((∀ element ∈ (s.callbacks activity).recvmarkq, element.acknowledged = true) →
      (s.callbacks activity).recvmarkq = [] ∧
        ∀ block, ((s.callbacks activity).handleRecvmarkqPut block).ret = 0)

theorem acknowledge_cases {start stop : Nat} {element kept : BlockStatus}
    (stays : acknowledge start stop element = some kept) :
    (element.block.inRange start stop = false ∧ kept = element) ∨
      (kept.block = element.block ∧ kept.distributed = element.distributed ∧
        kept.done = false ∧ kept.acknowledged = true) := by
  simp only [acknowledge] at stays
  split at stays
  · split at stays
    · cases stays
    · rename_i open_
      cases stays
      exact Or.inr ⟨rfl, rfl, by simpa using open_, rfl⟩
  · rename_i outside
    cases stays
    exact Or.inl ⟨by simpa using outside, rfl⟩

theorem Unspent.removeRange {s : Session} (unspent : s.Unspent) (start stop : Nat) :
    (s.handleRecvmarkqRemoveRange start stop).Unspent := by
  intro element member
  obtain ⟨old, queued, stays⟩ := List.mem_filterMap.mp member
  rcases acknowledge_cases stays with ⟨_, same⟩ | ⟨_, _, open_, _⟩
  · rw [same]
    exact unspent old queued
  · exact open_

theorem Unspent.put {s : Session} (unspent : s.Unspent) (block : Block) :
    (s.handleRecvmarkqPut block).session.Unspent := by
  rcases s.handleRecvmarkqPut_cases block with ⟨refused, _⟩ | ⟨_, queue, strand, stored, perm⟩
  · rw [refused]
    exact unspent
  · rw [stored]
    intro element member
    rcases List.mem_cons.mp (perm.mem_iff.mp member) with rfl | old
    · simp [BlockStatus.done]
    · exact unspent element old

theorem Unspent.same {s later : Session} (unspent : s.Unspent)
    (same : later.receiveState = s.receiveState) : later.Unspent := by
  simp only [receiveState, Prod.mk.injEq] at same
  simp only [Unspent, same.1]
  exact unspent

theorem Unspent.read {s : Session} (unspent : s.Unspent) (buffer : Buffer) :
    (s.read buffer).session.Unspent := by
  by_cases empty : buffer.length = 0
  · simp only [Session.read, empty, ↓reduceIte]
    exact unspent
  · intro element member
    rw [(s.read_spec empty).queue] at member
    rcases mem_readLoop s.recvmarkq _ element member with kept | ⟨_, _, _, open_, _⟩
    · exact unspent element kept
    · exact open_

theorem unspent_invariant : ReceiveInvariant Unspent where
  same := fun _ _ same unspent => unspent.same same
  put := fun _ block unspent => unspent.put block
  removeRange := fun _ start stop unspent => unspent.removeRange start stop
  read := fun _ buffer unspent => unspent.read buffer
  closing := fun _ unspent => unspent
  doClose := by
    intro s unspent element member
    cases member

/-- The end of the stream is known, and every queued block is marked distributed. -/
structure Emptying (s : Session) : Prop where
  ended : s.pendingEof = true
  distributed : ∀ element ∈ s.recvmarkq, element.distributed = true
  unspent : s.Unspent
  room : 0 < s.recvmarkqMaximum

namespace Emptying

variable {s later : Session}

theorem same (emptying : s.Emptying) (same : later.receiveState = s.receiveState) :
    later.Emptying := by
  have kept := emptying.unspent.same same
  simp only [receiveState, Prod.mk.injEq] at same
  obtain ⟨queue, maximum, _, _, ended⟩ := same
  refine ⟨ended.trans emptying.ended, ?_, kept, ?_⟩
  · rw [queue]
    exact emptying.distributed
  · rw [maximum]
    exact emptying.room

theorem put (emptying : s.Emptying) (block : Block) :
    (s.handleRecvmarkqPut block).session.Emptying := by
  have kept := emptying.unspent.put block
  rcases s.handleRecvmarkqPut_cases block with ⟨refused, _⟩ | ⟨_, queue, strand, stored, perm⟩
  · rw [refused]
    exact emptying
  · rw [stored] at kept ⊢
    refine ⟨emptying.ended, ?_, kept, emptying.room⟩
    intro element member
    rcases List.mem_cons.mp (perm.mem_iff.mp member) with rfl | old
    · exact emptying.ended
    · exact emptying.distributed element old

theorem removeRange (emptying : s.Emptying) (start stop : Nat) :
    (s.handleRecvmarkqRemoveRange start stop).Emptying where
  ended := emptying.ended
  distributed := by
    intro element member
    obtain ⟨old, queued, _, distributed⟩ := mem_handleRecvmarkqRemoveRange member
    exact distributed.trans (emptying.distributed old queued)
  unspent := emptying.unspent.removeRange start stop
  room := emptying.room

theorem callbacks (emptying : s.Emptying) (activity : List Callback) :
    (s.callbacks activity).Emptying := by
  induction activity generalizing s with
  | nil => exact emptying
  | cons callback rest ih =>
      apply ih
      rcases s.receiveState_callback callback with ⟨block, rfl⟩ | ⟨start, stop, rfl⟩ | untouched
      · exact emptying.put block
      · exact emptying.removeRange start stop
      · exact emptying.same untouched

theorem gone (emptying : s.Emptying) (start stop : Nat) {element : BlockStatus}
    (member : element ∈ (s.handleRecvmarkqRemoveRange start stop).recvmarkq) :
    element.block.inRange start stop = false := by
  obtain ⟨old, queued, stays⟩ := List.mem_filterMap.mp member
  rcases acknowledge_cases stays with ⟨outside, same⟩ | ⟨_, distributed, open_, acknowledged⟩
  · rw [same]
    exact outside
  · have marked := distributed.trans (emptying.distributed old queued)
    simp [BlockStatus.done, marked, acknowledged] at open_

theorem unacknowledged (emptying : s.Emptying) {element : BlockStatus}
    (member : element ∈ s.recvmarkq) : element.acknowledged = false := by
  have open_ := emptying.unspent element member
  simpa [BlockStatus.done, emptying.distributed element member] using open_

theorem drains (emptying : s.Emptying) : s.Drains := by
  intro activity
  have after := emptying.callbacks activity
  refine ⟨fun start stop element member => after.gone start stop member, ?_⟩
  intro acknowledged
  have empty : (s.callbacks activity).recvmarkq = [] := by
    apply List.eq_nil_iff_forall_not_mem.mpr
    intro element member
    exact Bool.noConfusion ((after.unacknowledged member).symm.trans (acknowledged element member))
  refine ⟨empty, ?_⟩
  intro block
  rcases (s.callbacks activity).handleRecvmarkqPut_cases block with
    ⟨_, full⟩ | ⟨_, _, _, stored, _⟩
  · have room := after.room
    rw [empty] at full
    exact absurd full (Nat.not_le_of_lt room)
  · rw [stored]

end Emptying

/-- A block that has not been distributed stays when it is acknowledged. -/
theorem Drains.distributed {s : Session} (drains : s.Drains) :
    ∀ element ∈ s.recvmarkq, element.distributed = true := by
  intro element member
  by_cases distributed : element.distributed = true
  · exact distributed
  · have inside : element.block.inRange element.block.offset element.block.endOffset = true := by
      simp [Block.inRange]
    have stays : acknowledge element.block.offset element.block.endOffset element =
        some { element with acknowledged := true } := by
      simp [acknowledge, inside, BlockStatus.done, distributed]
    have left := (drains []).1 element.block.offset element.block.endOffset
      { element with acknowledged := true } (List.mem_filterMap.mpr ⟨element, member, stays⟩)
    exact Bool.noConfusion (left.symm.trans inside)

/-- Every block can be acknowledged, and then a block can be put. -/
theorem Drains.room {s : Session} (drains : s.Drains) : 0 < s.recvmarkqMaximum := by
  have empty : (s.handleRecvmarkqRemoveRange 0 (2 ^ 64 - 1)).recvmarkq = [] := by
    apply List.eq_nil_iff_forall_not_mem.mpr
    intro element member
    have outside := (drains []).1 0 (2 ^ 64 - 1) element member
    have small : element.block.endOffset < 2 ^ 64 := add64_lt _ _
    simp [Block.inRange] at outside
    omega
  have drained := drains [.recvmarkqRemoveRange 0 (2 ^ 64 - 1)]
  have queue : (s.callbacks [.recvmarkqRemoveRange 0 (2 ^ 64 - 1)]).recvmarkq = [] := empty
  have accepts := (drained.2 (by
    intro element member
    rw [queue] at member
    cases member)).2 .zero
  rcases (s.callbacks [.recvmarkqRemoveRange 0 (2 ^ 64 - 1)]).handleRecvmarkqPut_cases .zero with
    ⟨refused, _⟩ | ⟨room, _⟩
  · rw [refused] at accepts
    cases accepts
  · exact Nat.lt_of_le_of_lt (Nat.zero_le _) room

end Session

/-- Once the end of the stream is known, acknowledgements empty the receive queue
exactly when every block in it is already marked distributed. -/
theorem eof_queue_drains {session : Session} {service : Service} (fresh : session.Fresh)
    (reached : Reaches Service.next Service.Possible { session := session } service)
    (ended : service.session.pendingEof = true) :
    service.session.Drains ↔
      0 < service.session.recvmarkqMaximum ∧
        ∀ element ∈ service.session.recvmarkq, element.distributed = true := by
  have begins : session.Unspent := by simp [Session.Unspent, fresh.recvmarkq]
  have unspent : service.session.Unspent := Session.unspent_invariant.reached begins reached
  constructor
  · intro drains
    exact ⟨drains.room, drains.distributed⟩
  · rintro ⟨room, distributed⟩
    exact Session.Emptying.drains ⟨ended, distributed, unspent, room⟩

/-- A running session is closed with two blocks in its receive queue. -/
def closedAfterPut (first second : Block) : Service :=
  [ServiceAction.start, .run 0 [], .receive [.recvmarkqPut first, .recvmarkqPut second],
    .beginInside 1 .close []].foldl Service.next { session := {} }

/-- The first block is read before the session is closed, the second comes after that. -/
def closedBeforePut (buffer : Buffer) (first second : Block) : Service :=
  [ServiceAction.start, .run 0 [], .receive [.recvmarkqPut first],
    .beginInside 1 (.read buffer) [], .beginInside 2 .close [],
    .receive [.recvmarkqPut second]].foldl Service.next { session := {} }

theorem eof_queue_drains_put_after_close :
    let first : Block := { data := [1, 2] }
    let second : Block := { offset := 2, data := [3] }
    let service := closedBeforePut ⟨[0, 0], by decide⟩ first second
    service.session.Drains ∧
      service.session.recvmarkq.map BlockStatus.block = [first, second] :=
  ⟨(eof_queue_drains (Session.fresh_configured _ _ _)
    (Reaches.start.schedule _ (by decide)) (by decide)).mpr (by decide), by decide⟩

/-- The blocks that were queued before the close stay when they are acknowledged. -/
theorem eof_queue_keeps_block :
    ¬ ∀ (session : Session) (service : Service), session.Fresh →
      Reaches Service.next Service.Possible { session := session } service →
      service.session.pendingEof = true → service.session.Drains := by
  intro claimed
  have drains := claimed {} (closedAfterPut { data := [1, 2] } { offset := 2, data := [3] })
    (Session.fresh_configured _ _ _) (Reaches.start.schedule _ (by decide)) (by decide)
  exact absurd (drains.distributed { block := { data := [1, 2] } } (by decide)) (by decide)

end CurvecprAsio
