import CurvecprAsio.Receive

set_option autoImplicit false

/- Which blocks an acknowledged range reaches, against the intervals that the
blocks occupy in exact arithmetic. -/
namespace CurvecprAsio

/-- The byte interval of the block lies inside the range. -/
def Block.Within (block : Block) (start stop : Nat) : Prop :=
  start ≤ block.offset ∧ block.offset + block.dataLen ≤ stop

instance (block : Block) (start stop : Nat) : Decidable (block.Within start stop) :=
  inferInstanceAs (Decidable (_ ∧ _))

/-- What an exact acknowledgement may leave of a queue: a block inside the range
has its bit set, or is removed when it was distributed, and every other block
is left as it was. -/
inductive Acknowledged (start stop : Nat) : List BlockStatus → List BlockStatus → Prop
  | nil : Acknowledged start stop [] []
  | marks {element : BlockStatus} {rest left : List BlockStatus}
      (within : element.block.Within start stop) (after : Acknowledged start stop rest left) :
      Acknowledged start stop (element :: rest) ({ element with acknowledged := true } :: left)
  | removes {element : BlockStatus} {rest left : List BlockStatus}
      (within : element.block.Within start stop) (distributed : element.distributed = true)
      (after : Acknowledged start stop rest left) :
      Acknowledged start stop (element :: rest) left
  | leaves {element : BlockStatus} {rest left : List BlockStatus}
      (outside : ¬ element.block.Within start stop)
      (after : Acknowledged start stop rest left) :
      Acknowledged start stop (element :: rest) (element :: left)

section Range

variable {start stop : Nat} {block : Block} {element : BlockStatus}

/-- The sum of the source is never above the exact one. -/
theorem Block.Within.inRange (within : block.Within start stop) :
    block.inRange start stop = true := by
  have below := block.endOffset_le
  apply (block.inRange_iff start stop).mpr
  unfold Within at within
  omega

/-- The test of the source holds outside the range only where the end wraps. -/
theorem Block.inRange_wraps (inside : block.inRange start stop = true)
    (outside : ¬ block.Within start stop) :
    2 ^ 64 ≤ block.offset + block.dataLen ∧ start ≤ block.offset ∧
      block.offset + block.dataLen ≤ stop + 2 ^ 64 := by
  have tested := (block.inRange_iff start stop).mp inside
  by_cases fits : block.offset + block.dataLen < 2 ^ 64
  · have ends := block.endOffset_eq fits
    unfold Within at outside
    omega
  · have wraps := block.endOffset_wraps (by omega)
    omega

theorem Session.acknowledge_outside (outside : element.block.inRange start stop = false) :
    Session.acknowledge start stop element = some element := by
  simp only [acknowledge, outside, Bool.false_eq_true, ↓reduceIte]

theorem Session.acknowledge_undistributed (inside : element.block.inRange start stop = true)
    (undistributed : element.distributed = false) :
    Session.acknowledge start stop element = some { element with acknowledged := true } := by
  simp only [acknowledge, inside, ↓reduceIte, BlockStatus.done, undistributed, Bool.false_and,
    Bool.false_eq_true]

theorem Session.acknowledge_distributed (inside : element.block.inRange start stop = true)
    (distributed : element.distributed = true) :
    Session.acknowledge start stop element = none := by
  simp only [acknowledge, inside, ↓reduceIte, BlockStatus.done, distributed, Bool.true_and]

end Range

namespace Acknowledged

variable {start stop : Nat} {element : BlockStatus} {queue rest left : List BlockStatus}

theorem cons_cases (exact_ : Acknowledged start stop (element :: rest) left) :
    (element.block.Within start stop ∧ ∃ later,
        left = { element with acknowledged := true } :: later ∧
          Acknowledged start stop rest later) ∨
      (element.block.Within start stop ∧ element.distributed = true ∧
        Acknowledged start stop rest left) ∨
      (¬ element.block.Within start stop ∧ ∃ later, left = element :: later ∧
        Acknowledged start stop rest later) := by
  cases exact_ with
  | marks within after => exact Or.inl ⟨within, _, rfl, after⟩
  | removes within distributed after => exact Or.inr (Or.inl ⟨within, distributed, after⟩)
  | leaves outside after => exact Or.inr (Or.inr ⟨outside, _, rfl, after⟩)

theorem length_cons_le (start stop : Nat) (element : BlockStatus) (rest : List BlockStatus) :
    ((element :: rest).filterMap (Session.acknowledge start stop)).length ≤
      (rest.filterMap (Session.acknowledge start stop)).length + 1 := by
  rw [List.filterMap_cons]
  split
  · omega
  · rw [List.length_cons]

/-- The source removes whatever an exact acknowledgement may remove. -/
theorem length_le (exact_ : Acknowledged start stop queue left) :
    (queue.filterMap (Session.acknowledge start stop)).length ≤ left.length := by
  induction exact_ with
  | nil => exact Nat.le_refl _
  | @marks element rest left within after ih =>
      have longer := length_cons_le start stop element rest
      rw [List.length_cons]
      omega
  | removes within distributed after ih =>
      have gone := Session.acknowledge_distributed within.inRange distributed
      rw [List.filterMap_cons_none gone]
      exact ih
  | @leaves element rest left outside after ih =>
      have longer := length_cons_le start stop element rest
      rw [List.length_cons]
      omega

/-- The end of the block wraps, and the wrapped end is in the range. -/
def Wraps (start stop : Nat) (block : Block) : Prop :=
  2 ^ 64 ≤ block.offset + block.dataLen ∧ start ≤ block.offset ∧
    block.offset + block.dataLen ≤ stop + 2 ^ 64

/-- Acknowledging the element would change nothing. -/
def Settled (element : BlockStatus) : Prop :=
  element.acknowledged = true ∧ element.distributed = false

theorem Wraps.inRange {block : Block} (wraps : Wraps start stop block) :
    block.inRange start stop = true := by
  have ends := block.endOffset_wraps wraps.1
  unfold Wraps at wraps
  apply (block.inRange_iff start stop).mpr
  omega

theorem Wraps.outside {block : Block} (wraps : Wraps start stop block) (word : stop < 2 ^ 64) :
    ¬ block.Within start stop := by
  intro within
  unfold Wraps at wraps
  unfold Block.Within at within
  omega

theorem Settled.same (settled : Settled element) :
    { element with acknowledged := true } = element := by
  cases element
  simp only [Settled] at settled
  simp only [settled.1]

/-- One round of the loop is exact unless the end wraps into the range. -/
theorem cons_of (rounds : Wraps start stop element.block → Settled element)
    (after : Acknowledged start stop rest (rest.filterMap (Session.acknowledge start stop))) :
    Acknowledged start stop (element :: rest)
      ((element :: rest).filterMap (Session.acknowledge start stop)) := by
  cases inside : element.block.inRange start stop with
  | false =>
      rw [List.filterMap_cons_some (Session.acknowledge_outside inside)]
      apply Acknowledged.leaves _ after
      intro within
      rw [within.inRange] at inside
      cases inside
  | true =>
      cases distributed : element.distributed with
      | false =>
          rw [List.filterMap_cons_some (Session.acknowledge_undistributed inside distributed)]
          by_cases within : element.block.Within start stop
          · exact Acknowledged.marks within after
          · rw [(rounds (Block.inRange_wraps inside within)).same]
            exact Acknowledged.leaves within after
      | true =>
          rw [List.filterMap_cons_none (Session.acknowledge_distributed inside distributed)]
          by_cases within : element.block.Within start stop
          · exact Acknowledged.removes within distributed after
          · have undistributed := (rounds (Block.inRange_wraps inside within)).2
            rw [distributed] at undistributed
            cases undistributed

theorem cons_inv (word : stop < 2 ^ 64)
    (exact_ : Acknowledged start stop (element :: rest)
      ((element :: rest).filterMap (Session.acknowledge start stop))) :
    (Wraps start stop element.block → Settled element) ∧
      Acknowledged start stop rest (rest.filterMap (Session.acknowledge start stop)) := by
  cases inside : element.block.inRange start stop with
  | false =>
      rw [List.filterMap_cons_some (Session.acknowledge_outside inside)] at exact_
      rcases exact_.cons_cases with ⟨within, _⟩ | ⟨within, _⟩ | ⟨_, later, same, after⟩
      · rw [within.inRange] at inside
        cases inside
      · rw [within.inRange] at inside
        cases inside
      · rw [(List.cons.inj same).2]
        refine ⟨?_, after⟩
        intro wraps
        rw [wraps.inRange] at inside
        cases inside
  | true =>
      cases distributed : element.distributed with
      | false =>
          rw [List.filterMap_cons_some (Session.acknowledge_undistributed inside distributed)]
            at exact_
          rcases exact_.cons_cases with
            ⟨within, later, same, after⟩ | ⟨_, marked, _⟩ | ⟨_, later, same, after⟩
          · rw [(List.cons.inj same).2]
            exact ⟨fun wraps => absurd within (wraps.outside word), after⟩
          · rw [distributed] at marked
            cases marked
          · rw [(List.cons.inj same).2]
            have acknowledged := congrArg BlockStatus.acknowledged (List.cons.inj same).1
            exact ⟨fun _ => ⟨acknowledged.symm, distributed⟩, after⟩
      | true =>
          have gone := Session.acknowledge_distributed inside distributed
          rw [List.filterMap_cons_none gone] at exact_
          rcases exact_.cons_cases with
            ⟨_, later, same, after⟩ | ⟨within, _, after⟩ | ⟨_, later, same, after⟩
          · have shorter := after.length_le
            rw [same, List.length_cons] at shorter
            omega
          · exact ⟨fun wraps => absurd within (wraps.outside word), after⟩
          · have shorter := after.length_le
            rw [same, List.length_cons] at shorter
            omega

end Acknowledged

/-- An acknowledged range is exact if and only if no queued block ends beyond
2^64 with its wrapped end in the range, except for a block that was acknowledged
and not distributed, which stays as it is. -/
theorem removeRange_exact_iff (s : Session) (start : Nat) {stop : Nat} (word : stop < 2 ^ 64) :
    Acknowledged start stop s.recvmarkq (s.handleRecvmarkqRemoveRange start stop).recvmarkq ↔
      ∀ element ∈ s.recvmarkq, 2 ^ 64 ≤ element.block.offset + element.block.dataLen →
        start ≤ element.block.offset →
        element.block.offset + element.block.dataLen ≤ stop + 2 ^ 64 →
          element.acknowledged = true ∧ element.distributed = false := by
  show Acknowledged start stop s.recvmarkq
    (s.recvmarkq.filterMap (Session.acknowledge start stop)) ↔ _
  induction s.recvmarkq with
  | nil =>
      constructor
      · intro _ element member
        cases member
      · intro _
        exact Acknowledged.nil
  | cons element rest ih =>
      rw [List.forall_mem_cons]
      constructor
      · intro exact_
        have parts := Acknowledged.cons_inv word exact_
        exact ⟨fun long low wrapped => parts.1 ⟨long, low, wrapped⟩, ih.mp parts.2⟩
      · rintro ⟨here, later⟩
        exact Acknowledged.cons_of (fun wraps => here wraps.1 wraps.2.1 wraps.2.2)
          (ih.mpr later)

theorem last_offset_lt : 2 ^ 64 - 1 < 2 ^ 64 := by decide

/-- Of two queued blocks the range takes the one it holds. -/
theorem removeRange_exact_two_blocks :
    let session : Session := {
      recvmarkq := [{ block := { offset := 0, data := [1, 2] }, distributed := true },
        { block := { offset := 1, data := [2, 3] } }] }
    Acknowledged 0 2 session.recvmarkq (session.handleRecvmarkqRemoveRange 0 2).recvmarkq := by
  intro session
  exact (removeRange_exact_iff session 0 (by decide)).mpr (by decide)

/-- A put stores the last byte that a 64-bit offset can reach, and a range far
below it acknowledges the block. -/
theorem removeRange_reaches_last_byte :
    ¬ ∀ (session : Session) (block : Block) (start stop : Nat), session.Fresh →
      start ≤ stop → stop < 2 ^ 64 →
      Acknowledged start stop (session.handleRecvmarkqPut block).session.recvmarkq
        ((session.handleRecvmarkqPut block).session.handleRecvmarkqRemoveRange
          start stop).recvmarkq := by
  intro claimed
  have exact_ := claimed {} { offset := 2 ^ 64 - 1, data := [7], offset_lt := last_offset_lt } 0 5
    (Session.fresh_configured _ _ _) (by decide) (by decide)
  have stays := (exact_.cons_cases).resolve_left (fun within => absurd within.1 (by decide))
  rcases stays with ⟨within, _⟩ | ⟨_, later, same, _⟩
  · exact absurd within (by decide)
  · have acknowledged := congrArg BlockStatus.acknowledged (List.cons.inj same).1
    exact absurd acknowledged (by decide)

end CurvecprAsio
