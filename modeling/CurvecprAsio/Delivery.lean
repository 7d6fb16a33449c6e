import CurvecprAsio.Receive
import CurvecprAsio.Lib.Transition

set_option autoImplicit false

/- In-order delivery: what a sequence of reads reports is the stream the
received blocks are slices of. -/
namespace CurvecprAsio

/-- A block of the stream `S`: its data is the slice of `S` at its offset, and
only a block that ends where `S` ends carries the EOF mark. -/
structure SliceOf (S : List UInt8) (block : Block) : Prop where
  inside : block.offset + block.dataLen ≤ S.length
  data : block.data = (S.drop block.offset).take block.dataLen
  ends : block.marked = true → block.endOffset = S.length

/-- A sum that passed the comparison with a cursor at or above the offset did
not wrap. -/
theorem end_fits {block : Block} {cursor : Nat} (reached : block.offset ≤ cursor)
    (unread : cursor < block.endOffset) : block.offset + block.dataLen < 2 ^ 64 := by
  by_cases fits : block.offset + block.dataLen < 2 ^ 64
  · exact fits
  · have wraps := block.endOffset_wraps (by omega)
    have small := block.dataLen_lt
    omega

/-- The part of a slice from a position inside it is a slice there. -/
theorem SliceOf.part {S : List UInt8} {block : Block} (slice : SliceOf S block)
    (position length : Nat) (reached : block.offset ≤ position)
    (within : position + length ≤ block.offset + block.dataLen) :
    (block.data.drop (position - block.offset)).take length = (S.drop position).take length := by
  rw [slice.data, List.drop_take, List.drop_drop, List.take_take,
    show block.offset + (position - block.offset) = position by omega,
    Nat.min_eq_left (by omega)]

theorem SliceOf.same {S : List UInt8} {first second : Block} (slice : SliceOf S second)
    (same : first.Same second) : SliceOf S first where
  inside := by
    rw [same.offset, same.dataLen]
    exact slice.inside
  data := by
    rw [same.data, same.offset, same.dataLen]
    exact slice.data
  ends := by
    rw [same.marked, same.endOffset]
    exact slice.ends

/-- Growing the stream keeps its slices, except that none may have ended it. -/
theorem SliceOf.append {S : List UInt8} {block : Block} (slice : SliceOf S block)
    (tail : List UInt8) (open_ : block.marked = false) : SliceOf (S ++ tail) block where
  inside := by
    have inside := slice.inside
    rw [List.length_append]
    omega
  data := by
    have inside := slice.inside
    rw [List.drop_append_of_le_length (by omega),
      List.take_append_of_le_length (by rw [List.length_drop]; omega)]
    exact slice.data
  ends := by
    intro marked
    rw [open_] at marked
    cases marked

/-- Where a pass may be on entry to a round of the loop. -/
structure PassSafe (pass : ReadPass) : Prop where
  word : pass.distributed < 2 ^ 64
  room : pass.readOffset ≤ pass.buffer.length
  safe : ∀ copy ∈ pass.copies, copy.Safe

/-- What reading a part of one block does to a pass: the cursor moves over
positions of the block, and their bytes go behind the filled part of the buffer. -/
structure Advanced (pass : ReadPass) (block : Block) (after : ReadPass) : Prop where
  grows : pass.distributed ≤ after.distributed
  covered : ∀ position, pass.distributed ≤ position → position < after.distributed →
    block.Covers position
  offset : after.readOffset = pass.readOffset + (after.distributed - pass.distributed)
  bytes : after.buffer.bytes.take after.readOffset = pass.buffer.bytes.take pass.readOffset ++
    (block.data.drop (pass.distributed - block.offset)).take
      (after.distributed - pass.distributed)
  eof : after.pendingEof = pass.pendingEof
  contiguous : after.contiguous = pass.contiguous
  length : after.buffer.length = pass.buffer.length

section Pass

variable {S delivered : List UInt8} {pass : ReadPass} {block : Block}

theorem PassSafe.copy (safe : PassSafe pass) (reached : block.offset ≤ pass.distributed)
    (length : Nat) (within : pass.distributed + length ≤ block.offset + block.dataLen)
    (fits : block.offset + block.dataLen < 2 ^ 64)
    (room : pass.readOffset + length ≤ pass.buffer.length) :
    PassSafe (pass.copy block length) ∧ Advanced pass block (pass.copy block length) ∧
      (pass.copy block length).distributed = pass.distributed + length := by
  have idx : sub64 pass.distributed block.offset = pass.distributed - block.offset :=
    sub64_eq reached safe.word
  have small := pass.buffer.length_lt
  have count : ((block.data.drop (pass.distributed - block.offset)).take length).length =
      length := by
    rw [List.length_take, List.length_drop]
    simp only [Block.dataLen] at within
    omega
  have distributed : add64 pass.distributed length = pass.distributed + length :=
    add64_eq (by omega)
  have offset : add64 pass.readOffset length = pass.readOffset + length := add64_eq (by omega)
  have behind : pass.distributed + length - pass.distributed = length := by omega
  refine ⟨⟨?_, ?_, ?_⟩, ⟨?_, ?_, ?_, ?_, rfl, rfl, Buffer.length_overwrite _ _ _⟩, distributed⟩
  · simp only [ReadPass.copy, distributed]
    omega
  · simpa only [ReadPass.copy, Buffer.length_overwrite, offset] using room
  · intro copy member
    simp only [ReadPass.copy, List.mem_append, List.mem_singleton] at member
    rcases member with old | rfl
    · exact safe.safe copy old
    · refine ⟨reached, ?_, safe.room, room, ?_⟩
      · simp only [Copy.idx, idx]
        omega
      · simp only [Copy.idx, idx]
        omega
  · simp only [ReadPass.copy, distributed]
    omega
  · intro position above below
    simp only [ReadPass.copy, distributed] at below
    constructor <;> omega
  · simp only [ReadPass.copy, distributed, offset, behind]
  · simp only [ReadPass.copy, Buffer.overwrite, idx, distributed, offset, behind]
    have extended := Ring.take_overwrite pass.buffer.bytes
      ((block.data.drop (pass.distributed - block.offset)).take length) pass.readOffset
      (by rw [count]; exact room)
    rwa [count] at extended

theorem PassSafe.consume (safe : PassSafe pass) (reached : block.offset ≤ pass.distributed) :
    PassSafe (pass.consume block).1 ∧ Advanced pass block (pass.consume block).1 ∧
      ((pass.consume block).2 = false → block.endOffset ≤ (pass.consume block).1.distributed) ∧
      ((pass.consume block).2 = true →
        (pass.consume block).1.readOffset = (pass.consume block).1.buffer.length) := by
  unfold ReadPass.consume
  split
  · rename_i unread
    have fits := end_fits reached unread.2
    have atEnd := block.endOffset_eq fits
    have small := block.dataLen_lt
    have room := safe.room
    have bufferSmall := pass.buffer.length_lt
    simp only [sub64_eq reached safe.word,
      sub64_eq (show pass.distributed - block.offset ≤ block.dataLen by omega) small,
      sub64_eq room bufferSmall]
    split
    · rename_i partly
      obtain ⟨stays, moved, cursor⟩ := safe.copy reached
        (pass.buffer.length - pass.readOffset) (by omega) fits (by omega)
      refine ⟨stays, moved, fun kept => (Bool.noConfusion kept), fun _ => ?_⟩
      have offset := moved.offset
      have length := moved.length
      dsimp only
      omega
    · rename_i whole
      obtain ⟨stays, moved, cursor⟩ := safe.copy reached
        (block.dataLen - (pass.distributed - block.offset)) (by omega) fits (by omega)
      refine ⟨stays, moved, fun _ => ?_, fun broke => (Bool.noConfusion broke)⟩
      dsimp only
      omega
  · rename_i nothing
    have still : pass.distributed - pass.distributed = 0 := Nat.sub_self _
    refine ⟨safe, ⟨Nat.le_refl _, ?_, ?_, ?_, rfl, rfl, rfl⟩, fun _ => ?_,
      fun broke => (Bool.noConfusion broke)⟩
    · intro position above below
      dsimp only at below
      omega
    · rw [still, Nat.add_zero]
    · rw [still, List.take_zero, List.append_nil]
    · by_cases empty : block.dataLen = 0
      · have small := block.offset_lt
        have atOffset := block.endOffset_eq (by omega)
        dsimp only
        omega
      · dsimp only
        omega

theorem ReadPass.distribute_contiguous (pass : ReadPass) (block : Block) :
    (pass.distribute block).contiguous = pass.contiguous ∨
      (pass.distribute block).contiguous = pass.distributed := by
  simp only [ReadPass.distribute]
  split
  · exact Or.inr rfl
  · exact Or.inl rfl

theorem PassSafe.distribute (safe : PassSafe pass) : PassSafe (pass.distribute block) :=
  ⟨safe.word, safe.room, safe.safe⟩

/-- What the loop leaves behind, whatever the blocks hold: an element is only
marked or removed once the cursor is past it, and the cursor only moves over
positions of queued blocks. -/
structure LoopSpec (queue : List BlockStatus) (pass : ReadPass)
    (left : List BlockStatus) (after : ReadPass) : Prop where
  safe : PassSafe after
  grows : pass.distributed ≤ after.distributed
  covered : ∀ position, pass.distributed ≤ position → position < after.distributed →
    ∃ element ∈ queue, element.block.Covers position
  kept : ∀ element ∈ left, ∃ old ∈ queue, element.block = old.block ∧
    (element.distributed = true →
      old.distributed = true ∨ element.block.endOffset ≤ after.distributed)
  gone : ∀ old ∈ queue, (∃ element ∈ left, element.block = old.block) ∨
    old.block.endOffset ≤ after.distributed
  contiguous : after.contiguous ≤ pass.contiguous ∨ after.contiguous ≤ after.distributed
  eof : after.pendingEof = true → pass.pendingEof = true ∨
    ∃ old ∈ queue, old.block.marked = true
  length : after.buffer.length = pass.buffer.length

theorem LoopSpec.stop (safe : PassSafe pass) (queue : List BlockStatus) :
    LoopSpec queue pass queue pass where
  safe := safe
  grows := Nat.le_refl _
  covered := by
    intro position above below
    omega
  kept := fun element member => ⟨element, member, rfl, Or.inl⟩
  gone := fun old member => Or.inl ⟨old, member, rfl⟩
  contiguous := Or.inl (Nat.le_refl _)
  eof := Or.inl
  length := rfl

/-- The loop stops within the first block. -/
theorem LoopSpec.part {after : ReadPass} {element : BlockStatus} (stays : PassSafe after)
    (moved : Advanced pass element.block after) (rest : List BlockStatus) :
    LoopSpec (element :: rest) pass (element :: rest) after where
  safe := stays
  grows := moved.grows
  covered := fun position above below =>
    ⟨element, List.mem_cons_self, moved.covered position above below⟩
  kept := fun kept member => ⟨kept, member, rfl, Or.inl⟩
  gone := fun old member => Or.inl ⟨old, member, rfl⟩
  contiguous := Or.inl (Nat.le_of_eq moved.contiguous)
  eof := fun eof => Or.inl (moved.eof ▸ eof)
  length := moved.length

/-- The loop reads the first block to its end, marks or removes it, and goes on. -/
theorem LoopSpec.whole {after last : ReadPass} {element : BlockStatus}
    {rest left kept : List BlockStatus} (moved : Advanced pass element.block after)
    (ended : element.block.endOffset ≤ after.distributed)
    (next : LoopSpec rest (after.distribute element.block) left last)
    (keeps : kept = left ∨ kept = { element with distributed := true } :: left) :
    LoopSpec (element :: rest) pass kept last := by
  have further : after.distributed ≤ last.distributed := next.grows
  have behind : element.block.endOffset ≤ last.distributed := Nat.le_trans ended further
  refine ⟨next.safe, Nat.le_trans moved.grows further, ?_, ?_, ?_, ?_, ?_,
    next.length.trans moved.length⟩
  · intro position above below
    by_cases here : position < after.distributed
    · exact ⟨element, List.mem_cons_self, moved.covered position above here⟩
    · have begins : (after.distribute element.block).distributed ≤ position :=
        Nat.le_of_not_lt here
      obtain ⟨other, member, covers⟩ := next.covered position begins below
      exact ⟨other, List.mem_cons_of_mem _ member, covers⟩
  · intro found member
    have split : found = { element with distributed := true } ∨ found ∈ left := by
      rcases keeps with rfl | rfl
      · exact Or.inr member
      · exact List.mem_cons.mp member
    rcases split with rfl | later
    · exact ⟨element, List.mem_cons_self, rfl, fun _ => Or.inr behind⟩
    · obtain ⟨old, inRest, same, marks⟩ := next.kept found later
      exact ⟨old, List.mem_cons_of_mem _ inRest, same, marks⟩
  · intro old member
    rcases List.mem_cons.mp member with rfl | inRest
    · exact Or.inr behind
    · rcases next.gone old inRest with ⟨found, later, same⟩ | past
      · refine Or.inl ⟨found, ?_, same⟩
        rcases keeps with rfl | rfl
        · exact later
        · exact List.mem_cons_of_mem _ later
      · exact Or.inr past
  · rcases next.contiguous with low | low
    · rcases after.distribute_contiguous element.block with same | raised
      · exact Or.inl (Nat.le_trans low (Nat.le_of_eq (same.trans moved.contiguous)))
      · exact Or.inr (Nat.le_trans low (Nat.le_trans (Nat.le_of_eq raised) further))
    · exact Or.inr low
  · intro eof
    rcases next.eof eof with before | ⟨old, inRest, marked⟩
    · simp only [ReadPass.distribute, Bool.or_eq_true, moved.eof] at before
      rcases before with before | marked
      · exact Or.inl before
      · exact Or.inr ⟨element, List.mem_cons_self, marked⟩
    · exact Or.inr ⟨old, List.mem_cons_of_mem _ inRest, marked⟩

theorem readLoop_spec (queue : List BlockStatus) (pass : ReadPass) (safe : PassSafe pass) :
    LoopSpec queue pass (readLoop queue pass).1 (readLoop queue pass).2 := by
  induction queue generalizing pass with
  | nil => exact LoopSpec.stop safe []
  | cons element rest ih =>
      simp only [readLoop]
      split
      · rename_i reached
        obtain ⟨stays, moved, passed, _⟩ := safe.consume reached
        split
        · exact LoopSpec.part stays moved rest
        · rename_i whole
          have ended := passed (by simpa using whole)
          have next := ih ((pass.consume element.block).1.distribute element.block)
            stays.distribute
          apply LoopSpec.whole moved ended next
          split
          · exact Or.inl rfl
          · exact Or.inr rfl
      · exact LoopSpec.stop safe _

/-- The loop of a read in progress: what was reported before, then the filled
part of the buffer, is the stream up to the cursor. -/
structure PassInv (S delivered : List UInt8) (pass : ReadPass) : Prop where
  filled : delivered ++ pass.buffer.bytes.take pass.readOffset = S.take pass.distributed
  bound : pass.distributed ≤ S.length
  ended : pass.pendingEof = true → pass.distributed = S.length

theorem PassInv.advance {after : ReadPass} (inv : PassInv S delivered pass)
    (slice : SliceOf S block) (reached : block.offset ≤ pass.distributed)
    (moved : Advanced pass block after) : PassInv S delivered after := by
  have inside := slice.inside
  by_cases still : after.distributed = pass.distributed
  · have bytes := moved.bytes
    rw [still, Nat.sub_self, List.take_zero, List.append_nil] at bytes
    exact ⟨by rw [bytes, still]; exact inv.filled, by rw [still]; exact inv.bound,
      fun eof => by rw [still]; exact inv.ended (moved.eof ▸ eof)⟩
  · have grows := moved.grows
    have last := moved.covered (after.distributed - 1) (by omega) (by omega)
    have within : after.distributed ≤ block.offset + block.dataLen := by
      have := last.2
      omega
    refine ⟨?_, by omega, ?_⟩
    · rw [moved.bytes, ← List.append_assoc, inv.filled,
        slice.part _ _ reached (by omega), ← List.take_add]
      congr 1
      omega
    · intro eof
      have ended := inv.ended (moved.eof ▸ eof)
      omega

theorem PassInv.distribute (inv : PassInv S delivered pass) (slice : SliceOf S block)
    (passed : block.endOffset ≤ pass.distributed) :
    PassInv S delivered (pass.distribute block) where
  filled := inv.filled
  bound := inv.bound
  ended := by
    intro eof
    simp only [ReadPass.distribute, Bool.or_eq_true] at eof
    rcases eof with old | marked
    · exact inv.ended old
    · have ends := slice.ends marked
      have bound := inv.bound
      simp only [ReadPass.distribute]
      omega

theorem PassInv.readLoop (queue : List BlockStatus) (pass : ReadPass) (safe : PassSafe pass)
    (inv : PassInv S delivered pass) (slices : ∀ element ∈ queue, SliceOf S element.block) :
    PassInv S delivered (readLoop queue pass).2 := by
  induction queue generalizing pass with
  | nil => exact inv
  | cons element rest ih =>
      have slice := slices element (by simp)
      simp only [CurvecprAsio.readLoop]
      split
      · rename_i reached
        obtain ⟨stays, moved, passed, full⟩ := safe.consume reached
        have advanced := inv.advance slice reached moved
        split
        · exact advanced
        · rename_i whole
          exact ih _ stays.distribute (advanced.distribute slice (passed (by simpa using whole)))
            (fun other member => slices other (by simp [member]))
      · exact inv

end Pass

end CurvecprAsio
