import CurvecprAsio.Reader
import CurvecprAsio.Service

set_option autoImplicit false

/- What becomes of reads and writes on a session that has been closed. -/
namespace CurvecprAsio

open Strand Transition

/-- The operation is a read or a write with a buffer that is not empty. -/
def Operation.Transfers : Operation → Prop
  | .read buffer => buffer.length ≠ 0
  | .write buffer => buffer.length ≠ 0
  | .close => False

/-- When it is run, the operation completes with an error, and a write reports
no bytes. -/
def IoOp.Settles (operation : IoOp) (s : Session) : Prop :=
  (operation.perform s []).want = .nothing ∧
    (operation.perform s []).operation.ec ≠ .success ∧
    (operation.op.want = .write → (operation.perform s []).operation.bytesTransferred = 0)

instance (op : Operation) : Decidable op.Transfers :=
  match op with
  | .read buffer => inferInstanceAs (Decidable (buffer.length ≠ 0))
  | .write buffer => inferInstanceAs (Decidable (buffer.length ≠ 0))
  | .close => .isFalse id

instance (operation : IoOp) (s : Session) : Decidable (operation.Settles s) :=
  inferInstanceAs (Decidable (_ ∧ _ ∧ _))

/-- Where the stream is complete up to, once blocks have been taken from `cursor` on. -/
def reach (cursor : Nat) (taken : List BlockStatus) : Nat :=
  taken.foldl (fun cursor element => max cursor element.block.endOffset) cursor

/-- The blocks leave no gap behind `cursor`. -/
def Contiguous : Nat → List BlockStatus → Prop
  | _, [] => True
  | cursor, element :: rest =>
      element.block.offset ≤ cursor ∧ Contiguous (max cursor element.block.endOffset) rest

/-- The queue begins with blocks that leave no gap, end within `limit`, and
include one with the EOF mark. -/
def EofWithin (queue : List BlockStatus) (cursor limit : Nat) : Prop :=
  ∃ taken, taken <+: queue ∧ (∃ element ∈ taken, element.block.marked = true) ∧
    Contiguous cursor taken ∧ reach cursor taken ≤ limit

/-- The position of the stream at which a read's buffer is full. -/
def ReadPass.limit (pass : ReadPass) : Nat :=
  pass.distributed + sub64 pass.buffer.length pass.readOffset

/-- The end of the stream is known to the session, or a read gets to it. -/
def Operation.EofDue (op : Operation) (s : Session) : Prop :=
  s.pendingEof = true ∨
    match op with
    | .read buffer => EofWithin s.recvmarkq s.recvmarkqDistributed (s.readEntry buffer).limit
    | _ => False

section Loop

variable {pass : ReadPass} {block : Block} {element : BlockStatus} {rest : List BlockStatus}
  {cursor limit : Nat}

theorem le_reach (cursor : Nat) (taken : List BlockStatus) : cursor ≤ reach cursor taken := by
  induction taken generalizing cursor with
  | nil => exact Nat.le_refl _
  | cons element rest ih => exact Nat.le_trans (Nat.le_max_left _ _) (ih _)

theorem eofWithin_cons : EofWithin (element :: rest) cursor limit ↔
    element.block.offset ≤ cursor ∧ max cursor element.block.endOffset ≤ limit ∧
      (element.block.marked = true ∨
        EofWithin rest (max cursor element.block.endOffset) limit) := by
  constructor
  · rintro ⟨taken, begins, ⟨marked, member, isMarked⟩, contiguous, ends⟩
    cases taken with
    | nil => cases member
    | cons first others =>
        obtain ⟨rfl, behind⟩ := List.cons_prefix_cons.mp begins
        have inside := Nat.le_trans (le_reach _ others) ends
        refine ⟨contiguous.1, inside, ?_⟩
        rcases List.mem_cons.mp member with rfl | later
        · exact Or.inl isMarked
        · exact Or.inr ⟨others, behind, ⟨marked, later, isMarked⟩, contiguous.2, ends⟩
  · rintro ⟨starts, inside,
      isMarked | ⟨taken, begins, ⟨marked, member, isMarked⟩, contiguous, ends⟩⟩
    · refine ⟨[element], ?_, ⟨element, List.mem_singleton_self _, isMarked⟩,
        ⟨starts, trivial⟩, inside⟩
      exact List.cons_prefix_cons.mpr ⟨rfl, List.nil_prefix⟩
    · exact ⟨element :: taken, List.cons_prefix_cons.mpr ⟨rfl, begins⟩,
        ⟨marked, List.mem_cons_of_mem _ member, isMarked⟩, ⟨starts, contiguous⟩, ends⟩

instance EofWithin.decidable (queue : List BlockStatus) (cursor limit : Nat) :
    Decidable (EofWithin queue cursor limit) :=
  match queue with
  | [] => .isFalse fun ⟨taken, begins, ⟨_, member, _⟩, _⟩ => by
      rw [List.prefix_nil.mp begins] at member
      cases member
  | element :: rest =>
      have := EofWithin.decidable rest (max cursor element.block.endOffset) limit
      decidable_of_iff _ eofWithin_cons.symm

instance (op : Operation) (s : Session) : Decidable (op.EofDue s) :=
  match op with
  | .read buffer => inferInstanceAs (Decidable (s.pendingEof = true ∨
      EofWithin s.recvmarkq s.recvmarkqDistributed (s.readEntry buffer).limit))
  | .write _ => inferInstanceAs (Decidable (s.pendingEof = true ∨ False))
  | .close => inferInstanceAs (Decidable (s.pendingEof = true ∨ False))

theorem EofWithin.marked {queue : List BlockStatus} (within : EofWithin queue cursor limit) :
    ∃ element ∈ queue, element.block.marked = true := by
  obtain ⟨taken, begins, ⟨element, member, marked⟩, _⟩ := within
  exact ⟨element, begins.subset member, marked⟩

theorem sub64_add64 {size filled count : Nat} (fits : count ≤ sub64 size filled) :
    sub64 size (add64 filled count) = sub64 size filled - count := by
  unfold sub64 add64 at *
  omega

/-- A block is read to its end unless the end is beyond the limit. -/
theorem ReadPass.consume_limit (word : pass.distributed < 2 ^ 64)
    (reached : block.offset ≤ pass.distributed) :
    (pass.consume block).1.distributed < 2 ^ 64 ∧
      (pass.consume block).1.pendingEof = pass.pendingEof ∧
      ((pass.consume block).2 = true → pass.limit < max pass.distributed block.endOffset) ∧
      ((pass.consume block).2 = false →
        (pass.consume block).1.distributed = max pass.distributed block.endOffset ∧
        (pass.consume block).1.limit = pass.limit ∧
        max pass.distributed block.endOffset ≤ pass.limit) := by
  unfold ReadPass.consume
  split
  · rename_i unread
    have fits := end_fits reached unread.2
    have atEnd := block.endOffset_eq fits
    have small := block.dataLen_lt
    simp only [sub64_eq reached word,
      sub64_eq (show pass.distributed - block.offset ≤ block.dataLen by omega) small]
    split
    · rename_i partly
      refine ⟨add64_lt _ _, rfl, fun _ => ?_, fun whole => Bool.noConfusion whole⟩
      simp only [ReadPass.limit]
      omega
    · rename_i whole
      have moved : add64 pass.distributed (block.dataLen - (pass.distributed - block.offset)) =
          block.endOffset := by
        rw [add64_eq (by omega)]
        omega
      have left := sub64_add64 (Nat.le_of_not_lt whole)
      refine ⟨add64_lt _ _, rfl, fun broke => Bool.noConfusion broke, fun _ => ?_⟩
      simp only [ReadPass.limit, ReadPass.copy, Buffer.length_overwrite, moved, left]
      omega
  · rename_i nothing
    have behind : block.endOffset ≤ pass.distributed := by
      by_cases empty : block.dataLen = 0
      · have small := block.offset_lt
        have atOffset := block.endOffset_eq (by omega)
        omega
      · omega
    have stays : max pass.distributed block.endOffset = pass.distributed :=
      Nat.max_eq_left behind
    rw [stays]
    exact ⟨word, rfl, fun broke => Bool.noConfusion broke,
      fun _ => ⟨rfl, rfl, Nat.le_add_right _ _⟩⟩

/-- A copy that the buffer has room for leaves the limit where it is. -/
theorem ReadPass.copy_limit {length : Nat} (block : Block) (word : pass.distributed + length < 2 ^ 64)
    (room : length ≤ sub64 pass.buffer.length pass.readOffset) :
    (pass.copy block length).distributed = pass.distributed + length ∧
      (pass.copy block length).limit = pass.limit := by
  have moved : (pass.copy block length).distributed = pass.distributed + length :=
    add64_eq word
  have left := sub64_add64 room
  refine ⟨moved, ?_⟩
  simp only [ReadPass.limit, moved]
  simp only [ReadPass.copy, Buffer.length_overwrite, left]
  omega

/-- A read of a part of a block ends at the limit. -/
theorem ReadPass.consume_partly (word : pass.distributed < 2 ^ 64)
    (reached : block.offset ≤ pass.distributed) (broke : (pass.consume block).2 = true) :
    (pass.consume block).1.distributed = pass.limit ∧
      (pass.consume block).1.limit = pass.limit := by
  unfold ReadPass.consume at broke ⊢
  split at broke
  · rename_i unread
    have fits := end_fits reached unread.2
    have atEnd := block.endOffset_eq fits
    have small := block.dataLen_lt
    simp only [unread, and_self, ↓reduceIte] at broke ⊢
    simp only [sub64_eq reached word,
      sub64_eq (show pass.distributed - block.offset ≤ block.dataLen by omega) small] at broke ⊢
    split at broke
    · rename_i partly
      simp only [partly, ↓reduceIte]
      exact copy_limit block (by omega) (Nat.le_refl _)
    · cases broke
  · cases broke

theorem ReadPass.consume_grows (word : pass.distributed < 2 ^ 64)
    (reached : block.offset ≤ pass.distributed) :
    pass.distributed ≤ (pass.consume block).1.distributed := by
  cases broke : (pass.consume block).2 with
  | true =>
      rw [(consume_partly word reached broke).1]
      exact Nat.le_add_right _ _
  | false =>
      rw [((consume_limit word reached).2.2.2 broke).1]
      exact Nat.le_max_left _ _

/-- The loop of a read passes the EOF mark on exactly when it gets to it. -/
theorem readLoop_eof_iff (queue : List BlockStatus) (pass : ReadPass)
    (word : pass.distributed < 2 ^ 64) :
    (readLoop queue pass).2.pendingEof = true ↔
      pass.pendingEof = true ∨ EofWithin queue pass.distributed pass.limit := by
  induction queue generalizing pass with
  | nil => simp [readLoop, EofWithin]
  | cons element rest ih =>
      simp only [readLoop, eofWithin_cons]
      split
      · rename_i reached
        obtain ⟨small, eof, partly, whole⟩ := ReadPass.consume_limit word reached
        split
        · rename_i broke
          have beyond := partly broke
          dsimp only
          rw [eof]
          constructor
          · exact Or.inl
          · rintro (before | ⟨_, inside, _⟩)
            · exact before
            · omega
        · rename_i passed
          obtain ⟨moved, same, inside⟩ := whole (by simpa using passed)
          have next := ih ((pass.consume element.block).1.distribute element.block) small
          simp only [ReadPass.distribute, ReadPass.limit] at next same ⊢
          rw [next]
          simp only [Bool.or_eq_true, eof, moved, reached, true_and]
          rw [moved] at same
          rw [same]
          simp only [ReadPass.limit] at inside
          simp only [inside, true_and, or_assoc]
      · rename_i apart
        simp [apart]

/-- What each block that the loop comes to keeps holds after the loop. -/
theorem readLoop_keeps (P : ReadPass → Prop)
    (consumed : ∀ pass block, P pass → block.offset ≤ pass.distributed →
      P (pass.consume block).1)
    (distributed : ∀ pass block, P pass → P (pass.distribute block))
    (queue : List BlockStatus) {pass : ReadPass} (holds : P pass) :
    P (readLoop queue pass).2 := by
  induction queue generalizing pass with
  | nil => exact holds
  | cons first rest ih =>
      simp only [readLoop]
      split
      · rename_i reached
        have kept := consumed pass first.block holds reached
        split
        · exact kept
        · exact ih (distributed _ first.block kept)
      · exact holds

theorem readLoop_cursor (queue : List BlockStatus) (pass : ReadPass)
    (word : pass.distributed < 2 ^ 64) :
    (readLoop queue pass).2.distributed < 2 ^ 64 ∧
      pass.distributed ≤ (readLoop queue pass).2.distributed := by
  apply readLoop_keeps fun later => later.distributed < 2 ^ 64 ∧
    pass.distributed ≤ later.distributed
  · intro later block holds reached
    have grows := ReadPass.consume_grows holds.1 reached
    exact ⟨(ReadPass.consume_limit holds.1 reached).1, by omega⟩
  · exact fun _ _ holds => holds
  · exact ⟨word, Nat.le_refl _⟩

theorem readLoop_word (queue : List BlockStatus) (pass : ReadPass)
    (word : pass.distributed < 2 ^ 64) : (readLoop queue pass).2.distributed < 2 ^ 64 :=
  (readLoop_cursor queue pass word).1

theorem le_readLoop (queue : List BlockStatus) (pass : ReadPass)
    (word : pass.distributed < 2 ^ 64) :
    pass.distributed ≤ (readLoop queue pass).2.distributed :=
  (readLoop_cursor queue pass word).2

/-- The pass has come to the end of the block, and knows it if the stream ends there. -/
structure ReadPass.Passed (pass : ReadPass) (block : Block) : Prop where
  begins : block.offset ≤ pass.distributed
  ends : block.endOffset ≤ pass.distributed
  eof : block.marked = true → pass.pendingEof = true

theorem passed_readLoop (rest : List BlockStatus) (word : pass.distributed < 2 ^ 64)
    (reached : element.block.offset ≤ pass.distributed)
    (whole : (pass.consume element.block).2 = false) :
    (readLoop rest ((pass.consume element.block).1.distribute element.block)).2.Passed
      element.block := by
  obtain ⟨small, _, _, moves⟩ := ReadPass.consume_limit word reached
  have moved := (moves whole).1
  have further := le_readLoop rest ((pass.consume element.block).1.distribute element.block) small
  have cursor : ((pass.consume element.block).1.distribute element.block).distributed =
      max pass.distributed element.block.endOffset := moved
  refine ⟨by omega, by omega, ?_⟩
  intro marked
  apply (readLoop_eof_iff rest ((pass.consume element.block).1.distribute element.block)
    small).mpr
  simp only [ReadPass.distribute, marked, Bool.or_true, true_or]

/-- What a read leaves in the queue: an old element as it was, or one that it has
passed, which it marks distributed and would not keep with both bits. -/
theorem mem_readLoop (queue : List BlockStatus) (pass : ReadPass) :
    ∀ left ∈ (readLoop queue pass).1, left ∈ queue ∨ ∃ old ∈ queue,
      left = { old with distributed := true } ∧ left.done = false ∧
        (pass.distributed < 2 ^ 64 → (readLoop queue pass).2.Passed old.block) := by
  induction queue generalizing pass with
  | nil => exact fun _ member => Or.inl member
  | cons first rest ih =>
      by_cases reached : first.block.offset ≤ pass.distributed
      · by_cases broke : (pass.consume first.block).2 = true
        · simp only [readLoop, reached, broke, ↓reduceIte]
          exact fun _ member => Or.inl member
        · have next := ih ((pass.consume first.block).1.distribute first.block)
          simp only [readLoop, reached, broke, Bool.false_eq_true, ↓reduceIte]
          have inRest : ∀ left ∈ (readLoop rest
              ((pass.consume first.block).1.distribute first.block)).1,
              left ∈ first :: rest ∨ ∃ old ∈ first :: rest,
                left = { old with distributed := true } ∧ left.done = false ∧
                  (pass.distributed < 2 ^ 64 → (readLoop rest
                    ((pass.consume first.block).1.distribute first.block)).2.Passed
                      old.block) := by
            intro left member
            rcases next left member with kept | ⟨old, queued, same, open_, passed⟩
            · exact Or.inl (List.mem_cons_of_mem _ kept)
            · refine Or.inr ⟨old, List.mem_cons_of_mem _ queued, same, open_, ?_⟩
              intro word
              exact passed (ReadPass.consume_limit word reached).1
          split
          · exact inRest
          · rename_i open_
            intro left member
            cases List.mem_cons.mp member with
            | inl same =>
                refine Or.inr ⟨first, List.mem_cons_self, same, ?_, ?_⟩
                · rw [same]
                  simpa using open_
                · intro word
                  exact passed_readLoop rest word reached (by simpa using broke)
            | inr later => exact inRest left later
      · simp only [readLoop, reached, ↓reduceIte]
        exact fun _ member => Or.inl member

theorem readLoop_blocks (queue : List BlockStatus) (pass : ReadPass) :
    ∀ element ∈ (readLoop queue pass).1, ∃ old ∈ queue, element.block = old.block := by
  intro element member
  have inQueue := (readLoop_sublist queue pass).subset (List.mem_map_of_mem member)
  obtain ⟨old, queued, same⟩ := List.mem_map.mp inQueue
  exact ⟨old, queued, same.symm⟩

end Loop

/-- Only the end of the stream makes a read or a write complete with an error. -/
theorem IoOp.settles_iff {operation : IoOp} {s : Session} (transfers : operation.op.Transfers)
    (word : s.recvmarkqDistributed < 2 ^ 64) : operation.Settles s ↔ operation.op.EofDue s := by
  unfold IoOp.Settles IoOp.perform
  cases isOp : operation.op with
  | read buffer =>
      rw [isOp] at transfers
      have nonempty : buffer.length ≠ 0 := transfers
      have ends : (s.readPass buffer).2.pendingEof = true ↔ (Operation.read buffer).EofDue s :=
        readLoop_eof_iff s.recvmarkq (s.readEntry buffer) word
      rw [← ends]
      simp only [Session.read, nonempty, ↓reduceIte, Operation.want]
      cases (s.readPass buffer).2.pendingEof with
      | true => simp
      | false =>
          split
          · simp
          · simp
  | write buffer =>
      rw [isOp] at transfers
      have nonempty : buffer.length ≠ 0 := transfers
      simp only [Session.write, nonempty, ↓reduceIte, Operation.EofDue, or_false]
      cases s.pendingEof with
      | true => simp
      | false =>
          split
          · rename_i bad
            cases bad
          · split
            · simp
            · simp
  | close =>
      rw [isOp] at transfers
      exact transfers.elim

/-- The blocks libcurvecpr hands to `handle_recvmarkq_put`. -/
def Callback.offered : Callback → List Block
  | .recvmarkqPut block => [block]
  | _ => []

def ServiceAction.offered : ServiceAction → List Block
  | .startInside activity => activity.flatMap Callback.offered
  | .receive activity => activity.flatMap Callback.offered
  | .beginInside _ _ activity => activity.flatMap Callback.offered
  | .run _ activity => activity.flatMap Callback.offered
  | _ => []

/-- A session that has been closed and not started again: what its receive side
knows comes from the blocks put since. -/
structure ClosedInv (seen : List Block) (s : Session) : Prop where
  stopped : s.running = false
  eof : s.pendingEof = true → ∃ block ∈ seen, block.marked = true
  queue : ∀ element ∈ s.recvmarkq, element.block ∈ seen
  word : s.recvmarkqDistributed < 2 ^ 64

namespace ClosedInv

variable {seen more : List Block} {s later : Session}

theorem same (inv : ClosedInv seen s) (running : later.running = s.running)
    (pendingEof : later.pendingEof = s.pendingEof) (recvmarkq : later.recvmarkq = s.recvmarkq)
    (distributed : later.recvmarkqDistributed = s.recvmarkqDistributed) :
    ClosedInv seen later where
  stopped := running.trans inv.stopped
  eof := by
    rw [pendingEof]
    exact inv.eof
  queue := by
    rw [recvmarkq]
    exact inv.queue
  word := by
    rw [distributed]
    exact inv.word

theorem mono (inv : ClosedInv seen s) (more : List Block) : ClosedInv (seen ++ more) s where
  stopped := inv.stopped
  eof := by
    intro ended
    obtain ⟨block, member, marked⟩ := inv.eof ended
    exact ⟨block, List.mem_append_left _ member, marked⟩
  queue := fun element member => List.mem_append_left _ (inv.queue element member)
  word := inv.word

theorem of_doClose (s : Session) : ClosedInv seen (s.doClose .success) where
  stopped := rfl
  eof := by
    intro ended
    cases ended
  queue := by
    intro element member
    cases member
  word := by
    show 0 < 2 ^ 64
    decide

theorem put (inv : ClosedInv seen s) (block : Block) :
    ClosedInv (seen ++ [block]) (s.handleRecvmarkqPut block).session := by
  rcases s.handleRecvmarkqPut_cases block with ⟨result, _⟩ | ⟨_, queue, strand, result, stored⟩
  · rw [result]
    exact inv.mono [block]
  · rw [result]
    have kept := inv.mono [block]
    refine ⟨kept.stopped, kept.eof, ?_, kept.word⟩
    intro element member
    rcases List.mem_cons.mp (stored.mem_iff.mp member) with rfl | old
    · exact List.mem_append_right _ (List.mem_singleton_self _)
    · exact kept.queue element old

theorem removeRange (inv : ClosedInv seen s) (start stop : Nat) :
    ClosedInv seen (s.handleRecvmarkqRemoveRange start stop) where
  stopped := inv.stopped
  eof := inv.eof
  queue := by
    intro element member
    obtain ⟨old, queued, same, _⟩ := Session.mem_handleRecvmarkqRemoveRange member
    rw [same]
    exact inv.queue old queued
  word := inv.word

theorem callback (inv : ClosedInv seen s) (callback : Callback) :
    ClosedInv (seen ++ callback.offered) (s.callback callback) := by
  have spared := s.spared_callback callback
  have untouched : (s.callback callback).recvmarkq = s.recvmarkq →
      (s.callback callback).recvmarkqDistributed = s.recvmarkqDistributed →
      ClosedInv (seen ++ callback.offered) (s.callback callback) := fun recvmarkq distributed =>
    (inv.same spared.running spared.pendingEof recvmarkq distributed).mono _
  cases callback with
  | sendqHead =>
      apply untouched <;> simp only [Session.callback, Session.handleSendqHead,
        Session.takeHead] <;> grind
  | stampHead id clock offset => exact untouched rfl rfl
  | sendqMoveToSendmarkq balance =>
      apply untouched <;> simp only [Session.callback, Session.handleSendqMoveToSendmarkq] <;> grind
  | resend balance pointer id clock =>
      apply untouched <;> simp only [Session.callback, Session.resend,
        Session.handleSendqMoveToSendmarkq, Session.stampSent] <;> grind
  | sendmarkqRemoveRange balance start stop => exact untouched rfl rfl
  | recvmarkqPut block => exact inv.put block
  | recvmarkqRemoveRange start stop => exact (inv.removeRange start stop).mono []
  | messager messager => exact untouched rfl rfl

theorem callbacks (inv : ClosedInv seen s) (activity : List Callback) :
    ClosedInv (seen ++ activity.flatMap Callback.offered) (s.callbacks activity) := by
  induction activity generalizing s seen with
  | nil => exact inv.mono []
  | cons first rest ih =>
      rw [List.flatMap_cons, ← List.append_assoc]
      exact ih (inv.callback first)

theorem doClose (inv : ClosedInv seen s) (error : ErrorCode) :
    ClosedInv seen (s.doClose error) := by
  by_cases success : error = .success
  · rw [success]
    exact of_doClose s
  · simp only [Session.doClose, success, ne_eq, not_false_eq_true, ↓reduceIte]
    exact inv

theorem handleProcessSendQueue (inv : ClosedInv seen s) (error : ErrorCode)
    (activity : List Callback) : ClosedInv (seen ++ activity.flatMap Callback.offered)
      (s.handleProcessSendQueue error activity) := by
  by_cases success : error = .success
  · rw [success]
    rcases s.handleProcessSendQueue_cases activity with ⟨_, result⟩ | ⟨_, result⟩
    · rw [result]
      exact of_doClose _
    · rw [result]
      exact (inv.callbacks activity).same rfl rfl rfl rfl
  · simp only [Session.handleProcessSendQueue, success, ne_eq, not_false_eq_true, ↓reduceIte]
    exact inv.mono _

theorem read (inv : ClosedInv seen s) (buffer : Buffer) :
    ClosedInv seen (s.read buffer).session := by
  by_cases empty : buffer.length = 0
  · simp only [Session.read, empty, ↓reduceIte]
    exact inv.same rfl rfl rfl rfl
  · have result := s.read_spec empty
    constructor
    · exact (s.read_closing buffer).1.1.trans inv.stopped
    · rw [result.pendingEof]
      intro ended
      rcases (readLoop_eof_iff _ _ inv.word).mp ended with before | within
      · exact inv.eof before
      · obtain ⟨element, queued, marked⟩ := within.marked
        exact ⟨element.block, inv.queue element queued, marked⟩
    · rw [result.queue]
      intro element member
      obtain ⟨old, queued, same⟩ := readLoop_blocks _ _ element member
      rw [same]
      exact inv.queue old queued
    · rw [result.distributed]
      exact readLoop_word _ _ inv.word

theorem write (inv : ClosedInv seen s) (buffer : Buffer) :
    ClosedInv seen (s.write buffer).session := by
  unfold Session.write
  split
  · exact inv
  · split
    · exact inv
    · split
      · exact inv
      · dsimp only
        split
        · exact inv.same rfl rfl rfl rfl
        · exact inv.same rfl rfl rfl rfl

theorem close (inv : ClosedInv seen s) (activity : List Callback) :
    ClosedInv seen (s.close activity).session := by
  rcases s.close_cases activity with
    ⟨_, result⟩ | ⟨running, _⟩ | ⟨running, _⟩ | ⟨running, _⟩
  · rw [result]
    exact inv.same rfl rfl rfl rfl
  · exact Bool.noConfusion (inv.stopped.symm.trans running)
  · exact Bool.noConfusion (inv.stopped.symm.trans running)
  · exact Bool.noConfusion (inv.stopped.symm.trans running)

theorem perform (inv : ClosedInv seen s) (operation : IoOp) (activity : List Callback) :
    ClosedInv seen (operation.perform s activity).session := by
  unfold IoOp.perform
  split
  · exact inv.read _
  · exact inv.write _
  · exact inv.close activity

theorem asyncPendingWait (inv : ClosedInv seen s) (what : Want) (operation : IoOp) :
    ClosedInv seen (s.asyncPendingWait what operation) := by
  cases what with
  | nothing => exact inv
  | read => exact inv.same rfl rfl rfl rfl
  | write => exact inv.same rfl rfl rfl rfl
  | close => exact inv.same rfl rfl rfl rfl

variable {service : Service}

theorem call (inv : ClosedInv seen service.session) (operation : IoOp) (start : Bool)
    (activity : List Callback) :
    ClosedInv seen (service.call operation start activity).session := by
  have performed := inv.perform operation activity
  simp only [Service.call]
  split
  · split
    · exact performed.asyncPendingWait _ _
    · split <;> exact performed
  · exact inv

theorem callOutside (service : Service) (inv : ClosedInv seen service.session)
    (operation : IoOp) : ClosedInv seen (service.callOutside operation).session := by
  simp only [Service.callOutside]
  split
  · exact inv.same rfl rfl rfl rfl
  · exact inv

theorem next (inv : ClosedInv seen service.session) (action : ServiceAction)
    (starts : action.starts = false) :
    ClosedInv (seen ++ action.offered) (service.next action).session := by
  cases action with
  | start => cases starts
  | startInside activity => cases starts
  | receive activity => exact inv.callbacks activity
  | beginOutside handler op =>
      exact (callOutside (service.noted handler op) inv _).mono []
  | beginInside handler op activity =>
      have noted : ClosedInv seen (service.noted handler op).session := inv
      exact (noted.call _ true activity).mono _
  | expire timer => exact (inv.mono []).same rfl rfl rfl rfl
  | run index activity =>
      simp only [Service.next, Service.run]
      split
      · rename_i due located
        have taken : ClosedInv seen (service.take index).session := inv.same rfl rfl rfl rfl
        cases handler : due.1 with
        | processSendQueue => exact taken.handleProcessSendQueue _ activity
        | doClose => exact (taken.doClose _).mono _
        | ioOp operation => exact (taken.call operation false activity).mono _
      · exact inv.mono _
  | runPosted index =>
      simp only [Service.next, Service.runPosted]
      split
      · rename_i operation located
        exact callOutside { service with posted := service.posted.eraseIdx index }
          (inv.mono []) operation
      · exact inv.mono []

/-- Whatever stops the session has closed it. -/
theorem of_handleProcessSendQueue (running : s.running = true) (error : ErrorCode)
    (activity : List Callback) : (s.handleProcessSendQueue error activity).running = true ∨
      ClosedInv [] (s.handleProcessSendQueue error activity) := by
  by_cases success : error = .success
  · rw [success]
    rcases s.handleProcessSendQueue_cases activity with ⟨_, result⟩ | ⟨_, result⟩
    · rw [result]
      exact Or.inr (of_doClose _)
    · rw [result]
      exact Or.inl ((s.silent_callbacks activity).1.trans running)
  · simp only [Session.handleProcessSendQueue, success, ne_eq, not_false_eq_true, ↓reduceIte]
    exact Or.inl running

theorem of_perform (running : s.running = true) (operation : IoOp) (activity : List Callback) :
    (operation.perform s activity).session.running = true ∨
      ClosedInv [] (operation.perform s activity).session := by
  unfold IoOp.perform
  split
  · exact Or.inl ((s.read_closing _).1.1.trans running)
  · exact Or.inl ((s.silent_write _).1.trans running)
  · rcases s.close_cases activity with
      ⟨stopped, _⟩ | ⟨_, _, result⟩ | ⟨_, _, _, result⟩ | ⟨_, _, _, result⟩
    · exact Bool.noConfusion (stopped.symm.trans running)
    · simp only [result]
      exact Or.inl running
    · simp only [result]
      exact Or.inr (of_doClose _)
    · simp only [result]
      exact Or.inl ((s.closing.silent_callbacks activity).1.trans running)

theorem of_call (running : service.session.running = true) (operation : IoOp) (start : Bool)
    (activity : List Callback) : (service.call operation start activity).session.running = true ∨
      ClosedInv [] (service.call operation start activity).session := by
  simp only [Service.call]
  split
  · split
    · rcases of_perform running operation activity with runs | closed
      · exact Or.inl ((Session.silent_asyncPendingWait _ _ _).1.trans runs)
      · exact Or.inr (closed.asyncPendingWait _ _)
    · split <;> exact of_perform running operation activity
  · exact Or.inl running

theorem of_next (running : service.session.running = true) (action : ServiceAction) :
    (service.next action).session.running = true ∨
      ClosedInv [] (service.next action).session := by
  cases action with
  | start => exact Or.inl rfl
  | startInside activity => exact of_handleProcessSendQueue rfl .success activity
  | receive activity =>
      exact Or.inl ((service.session.silent_callbacks activity).1.trans running)
  | beginOutside handler op => exact Or.inl running
  | beginInside handler op activity =>
      have noted : (service.noted handler op).session.running = true := running
      exact of_call noted _ true activity
  | expire timer => exact Or.inl running
  | run index activity =>
      simp only [Service.next, Service.run]
      split
      · rename_i due located
        have runs : (service.take index).session.running = true := running
        cases handler : due.1 with
        | processSendQueue => exact of_handleProcessSendQueue runs _ activity
        | doClose =>
            cases told : due.2 with
            | success => exact Or.inr (of_doClose _)
            | aborted => exact Or.inl running
        | ioOp operation => exact of_call runs operation false activity
      · exact Or.inl running
  | runPosted index =>
      simp only [Service.next, Service.runPosted, Service.callOutside]
      split
      · split <;> exact Or.inl running
      · exact Or.inl running

theorem run {seen : List Block} (inv : ClosedInv seen service.session)
    (later : List ServiceAction) (stays : ∀ action ∈ later, action.starts = false) :
    ClosedInv (seen ++ later.flatMap ServiceAction.offered)
      (later.foldl Service.next service).session := by
  induction later generalizing service seen with
  | nil => exact inv.mono []
  | cons action rest ih =>
      have next := inv.next action (stays action List.mem_cons_self)
      have after := ih next fun other member => stays other (List.mem_cons_of_mem _ member)
      rwa [List.append_assoc, ← List.flatMap_cons] at after

theorem eofDue {op : Operation} (inv : ClosedInv seen s) (due : op.EofDue s) :
    ∃ block ∈ seen, block.marked = true := by
  rcases due with ended | within
  · exact inv.eof ended
  · cases op with
    | read buffer =>
        obtain ⟨element, queued, marked⟩ := EofWithin.marked within
        exact ⟨element.block, inv.queue element queued, marked⟩
    | write buffer => exact within.elim
    | close => exact within.elim

end ClosedInv

/-- On a session that has been closed and not started again, a read or write
settles exactly when an EOF mark that has been put since is known or is read. -/
theorem closed_operation_settles {service : Service} {closing : ServiceAction}
    (running : service.session.running = true)
    (closed : (service.next closing).session.running = false) {later : List ServiceAction}
    (stays : ∀ action ∈ later, action.starts = false) {operation : IoOp}
    (transfers : operation.op.Transfers) :
    (operation.Settles (later.foldl Service.next (service.next closing)).session ↔
        operation.op.EofDue (later.foldl Service.next (service.next closing)).session) ∧
      (operation.op.EofDue (later.foldl Service.next (service.next closing)).session →
        ∃ block ∈ later.flatMap ServiceAction.offered, block.marked = true) := by
  rcases ClosedInv.of_next running closing with runs | inv
  · exact Bool.noConfusion (closed.symm.trans runs)
  · have after := inv.run later stays
    exact ⟨IoOp.settles_iff transfers after.word, after.eofDue⟩

/-- The close timer fires while a read of one byte waits. -/
def closingService : Service :=
  [ServiceAction.run 0 [], .beginInside 1 (.read ⟨[0], by decide⟩) [], .beginInside 2 .close [],
    .expire .close, .run 0 []].foldl Service.next (Service.started {})

theorem closed_operation_settles_late :
    (Operation.read ⟨[0], by decide⟩).EofDue
      ([ServiceAction.receive [.recvmarkqPut { eof := .eofSuccess }]].foldl Service.next
        (closingService.next (.run 0 []))).session :=
  (closed_operation_settles (by decide) (by decide) (by decide)
    (show (IoOp.mk 3 (.read ⟨[0], by decide⟩) .success 0 false 0).op.Transfers by decide)).1.mp
    (by decide)

/-- The woken read waits again. -/
theorem closed_read_waits :
    ¬ ∀ (session : Session) (service : Service) (closing : ServiceAction)
      (later : List ServiceAction) (operation : IoOp), session.Fresh →
      Reaches Service.next Service.Possible (Service.started session) service →
      service.session.running = true → (service.next closing).session.running = false →
      (∀ action ∈ later, action.starts = false) → operation.op.Transfers →
      operation.Settles (later.foldl Service.next (service.next closing)).session := by
  intro claimed
  have reached : Reaches Service.next Service.Possible (Service.started {}) closingService :=
    Reaches.start.schedule _ (by decide)
  have settles := claimed {} closingService (.run 0 []) []
    { handler := 1, op := .read ⟨[0], by decide⟩ } (Session.fresh_configured _ _ _) reached
    (by decide) (by decide) (by decide) (by decide)
  exact absurd settles (by decide)

end CurvecprAsio
