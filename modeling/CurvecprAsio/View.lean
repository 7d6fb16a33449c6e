import CurvecprAsio.Wakeup

set_option autoImplicit false

/- What a session shows its reader: the blocks that have something left at the
cursor. Acknowledgements change nothing of it. -/
namespace CurvecprAsio

open SearchTree Transition

/-- A block that a read at this cursor passes over. -/
def Block.spent (cursor : Nat) (block : Block) : Bool :=
  block.offset ≤ cursor ∧ block.endOffset ≤ cursor ∧ block.marked = false

theorem Block.spent_iff (cursor : Nat) (block : Block) : block.spent cursor = true ↔
    block.offset ≤ cursor ∧ block.endOffset ≤ cursor ∧ block.marked = false := by
  simp [spent]

theorem Block.spent_further {first second : Nat} {block : Block} (further : first ≤ second)
    (spent : block.spent first = true) : block.spent second = true := by
  rw [spent_iff] at spent ⊢
  exact ⟨by omega, by omega, spent.2.2⟩

/-- `data` was copied into the buffer from `position` on, and the rest of it is as it was. -/
structure Buffer.Took (before after : Buffer) (position : Nat) (data : List UInt8) : Prop where
  length : after.length = before.length
  fits : position ≤ before.length → position + data.length ≤ before.length
  copied : ∀ index < data.length, position + index < before.length →
    after.bytes[position + index]? = data[index]?
  frame : ∀ index, index < position ∨ position + data.length ≤ index →
    after.bytes[index]? = before.bytes[index]?

theorem Buffer.took_overwrite (buffer : Buffer) {position : Nat} {data : List UInt8}
    (fits : position ≤ buffer.length → position + data.length ≤ buffer.length) :
    buffer.Took (buffer.overwrite position data) position data where
  length := buffer.length_overwrite _ _
  fits := fits
  copied := by
    intro index copied inside
    rw [overwrite, Ring.getElem?_overwrite_inside _ _ inside, if_pos (by omega),
      Nat.add_sub_cancel_left]
  frame := by
    intro index outside
    by_cases inside : index < buffer.bytes.length
    · rw [overwrite, Ring.getElem?_overwrite_inside _ _ inside, if_neg (by omega)]
    · have small : (buffer.overwrite position data).bytes.length ≤ index := by
        have same := buffer.length_overwrite position data
        simp only [length] at same
        omega
      rw [List.getElem?_eq_none small, List.getElem?_eq_none (by omega)]

/-- A read so far, whatever memory it was given: the cursor it began at, the position in
its buffer it began at, and the bytes it has taken. -/
structure Progress where
  cursor : Nat
  position : Nat
  pendingEof : Bool
  data : List UInt8 := []
  deriving DecidableEq, Repr

namespace Progress

def distributed (progress : Progress) : Nat := progress.cursor + progress.data.length

def readOffset (progress : Progress) : Nat := progress.position + progress.data.length

def copy (progress : Progress) (block : Block) (count : Nat) : Progress :=
  { progress with data := progress.data ++
      (block.data.drop (sub64 progress.distributed block.offset)).take count }

/-- Take what is new in a block into a buffer of this length. The flag says that
only a part of it had room. -/
def take (length : Nat) (progress : Progress) (block : Block) : Progress × Bool :=
  if 0 < block.dataLen ∧ progress.distributed < block.endOffset then
    let left := sub64 block.dataLen (sub64 progress.distributed block.offset)
    let room := sub64 length progress.readOffset
    if room < left then (progress.copy block room, true) else (progress.copy block left, false)
  else (progress, false)

/-- Pass on the EOF mark of a block that was taken whole. -/
def pass (progress : Progress) (block : Block) : Progress :=
  { progress with pendingEof := progress.pendingEof || block.marked }

/-- One read of the blocks in their order. -/
def scan (length : Nat) : List Block → Progress → Progress
  | [], progress => progress
  | block :: rest, progress =>
      if block.offset ≤ progress.distributed then
        let taken := progress.take length block
        if taken.2 then taken.1 else scan length rest (taken.1.pass block)
      else progress

theorem copy_entry (progress : Progress) (block : Block) (count : Nat) :
    (progress.copy block count).cursor = progress.cursor ∧
      (progress.copy block count).position = progress.position := ⟨rfl, rfl⟩

theorem take_entry (length : Nat) (progress : Progress) (block : Block) :
    (progress.take length block).1.cursor = progress.cursor ∧
      (progress.take length block).1.position = progress.position := by
  unfold take
  split
  · dsimp only
    split <;> exact copy_entry _ _ _
  · exact ⟨rfl, rfl⟩

/-- A scan keeps where the read began. -/
theorem scan_entry (length : Nat) (blocks : List Block) (progress : Progress) :
    (progress.scan length blocks).cursor = progress.cursor ∧
      (progress.scan length blocks).position = progress.position := by
  induction blocks generalizing progress with
  | nil => exact ⟨rfl, rfl⟩
  | cons block rest ih =>
      have taken := progress.take_entry length block
      simp only [scan]
      split
      · split
        · exact taken
        · have later := ih ((progress.take length block).1.pass block)
          exact ⟨later.1.trans taken.1, later.2.trans taken.2⟩
      · exact ⟨rfl, rfl⟩

end Progress

/-- The pass of a read over the buffer `start` has come as far as the progress. -/
structure Shows (start : Buffer) (pass : ReadPass) (progress : Progress) : Prop where
  distributed : pass.distributed = progress.distributed
  readOffset : pass.readOffset = progress.readOffset
  pendingEof : pass.pendingEof = progress.pendingEof
  buffer : pass.buffer = start.overwrite progress.position progress.data
  behind : progress.position ≤ progress.cursor
  fits : progress.position ≤ start.length → progress.readOffset ≤ start.length

namespace Shows

variable {start : Buffer} {pass : ReadPass} {progress : Progress} {block : Block}

theorem copy (shows_ : Shows start pass progress) (reached : block.offset ≤ pass.distributed)
    {count : Nat} (within : pass.distributed + count ≤ block.offset + block.dataLen)
    (ends : block.offset + block.dataLen < 2 ^ 64)
    (room : progress.position ≤ start.length → progress.readOffset + count ≤ start.length) :
    Shows start (pass.copy block count) (progress.copy block count) := by
  have idx : sub64 pass.distributed block.offset = pass.distributed - block.offset :=
    sub64_eq reached (by omega)
  have counted : ((block.data.drop (sub64 progress.distributed block.offset)).take count).length =
      count := by
    rw [← shows_.distributed, idx, List.length_take, List.length_drop]
    simp only [Block.dataLen] at within
    omega
  have distributed := shows_.distributed
  have readOffset := shows_.readOffset
  have behind := shows_.behind
  have moved : (progress.copy block count).distributed = progress.distributed + count := by
    simp only [Progress.distributed, Progress.copy, List.length_append]
    simp only [Progress.distributed] at counted
    omega
  have filled : (progress.copy block count).readOffset = progress.readOffset + count := by
    simp only [Progress.readOffset, Progress.copy, List.length_append, counted]
    omega
  constructor
  · rw [moved, ← distributed]
    exact add64_eq (by omega)
  · rw [filled, ← readOffset]
    apply add64_eq
    simp only [Progress.distributed, Progress.readOffset] at distributed readOffset
    omega
  · exact shows_.pendingEof
  · simp only [ReadPass.copy, Progress.copy, distributed, readOffset, shows_.buffer,
      Buffer.overwrite, Progress.readOffset, Ring.overwrite_append]
  · exact behind
  · rw [filled]
    exact room

theorem consume (shows_ : Shows start pass progress) (word : pass.distributed < 2 ^ 64)
    (reached : block.offset ≤ pass.distributed) :
    Shows start (pass.consume block).1 (progress.take start.length block).1 ∧
      (pass.consume block).2 = (progress.take start.length block).2 := by
  have length : pass.buffer.length = start.length := by
    rw [shows_.buffer, Buffer.length_overwrite]
  have small := start.length_lt
  have fits := shows_.fits
  simp only [ReadPass.consume, Progress.take, ← shows_.distributed, ← shows_.readOffset, length]
  rw [← shows_.readOffset] at fits
  by_cases unread : 0 < block.dataLen ∧ pass.distributed < block.endOffset
  · have ends := end_fits reached unread.2
    have atEnd := block.endOffset_eq ends
    have dataSmall := block.dataLen_lt
    have left : sub64 block.dataLen (sub64 pass.distributed block.offset) =
        block.offset + block.dataLen - pass.distributed := by
      rw [sub64_eq reached word, sub64_eq (by omega) dataSmall]
      omega
    have free : progress.position ≤ start.length →
        sub64 start.length pass.readOffset = start.length - pass.readOffset :=
      fun inside => sub64_eq (fits inside) small
    rw [if_pos unread, if_pos unread]
    by_cases partly : sub64 start.length pass.readOffset <
        sub64 block.dataLen (sub64 pass.distributed block.offset)
    · rw [if_pos partly, if_pos partly]
      rw [left] at partly
      refine ⟨shows_.copy reached (by omega) ends fun inside => ?_, rfl⟩
      have room := free inside
      have within := fits inside
      rw [← shows_.readOffset]
      omega
    · rw [if_neg partly, if_neg partly]
      rw [left] at partly ⊢
      refine ⟨shows_.copy reached (by omega) ends fun inside => ?_, rfl⟩
      have room := free inside
      have within := fits inside
      rw [← shows_.readOffset]
      omega
  · rw [if_neg unread, if_neg unread]
    exact ⟨shows_, rfl⟩

theorem distribute (shows_ : Shows start pass progress) (block : Block) :
    Shows start (pass.distribute block) (progress.pass block) where
  distributed := shows_.distributed
  readOffset := shows_.readOffset
  pendingEof := by
    show (pass.pendingEof || block.marked) = (progress.pendingEof || block.marked)
    rw [shows_.pendingEof]
  buffer := shows_.buffer
  behind := shows_.behind
  fits := shows_.fits

theorem pass_over (shows_ : Shows start pass progress)
    (spent : block.spent pass.distributed = true) :
    (pass.consume block).2 = false ∧
      Shows start ((pass.consume block).1.distribute block) progress := by
  have parts := (block.spent_iff _).mp spent
  rw [ReadPass.consume_nothing parts.2.1]
  refine ⟨rfl, shows_.distributed, shows_.readOffset, ?_, shows_.buffer, shows_.behind,
    shows_.fits⟩
  show (pass.pendingEof || block.marked) = progress.pendingEof
  rw [parts.2.2, Bool.or_false, shows_.pendingEof]

end Shows

/-- The blocks of the queue that are not spent at the cursor. -/
def unreadBlocks (cursor : Nat) (queue : List BlockStatus) : List Block :=
  (queue.filter fun element => !element.block.spent cursor).map BlockStatus.block

theorem unreadBlocks_cons (cursor : Nat) (element : BlockStatus) (rest : List BlockStatus) :
    unreadBlocks cursor (element :: rest) =
      if element.block.spent cursor then unreadBlocks cursor rest
      else element.block :: unreadBlocks cursor rest := by
  simp only [unreadBlocks, List.filter_cons]
  cases element.block.spent cursor <;> rfl

theorem unreadBlocks_further {first second : Nat} (further : first ≤ second)
    (queue : List BlockStatus) :
    (unreadBlocks first queue).filter (fun block => !block.spent second) =
      unreadBlocks second queue := by
  induction queue with
  | nil => rfl
  | cons element rest ih =>
      rw [unreadBlocks_cons, unreadBlocks_cons]
      by_cases passed : element.block.spent first = true
      · simp only [passed, Block.spent_further further passed, ↓reduceIte]
        exact ih
      · simp only [passed, Bool.false_eq_true, ↓reduceIte, List.filter_cons, ih]
        cases element.block.spent second <;> rfl

/-- The order of `recvmarkq_` on blocks. -/
def Block.before (first second : Block) : Bool :=
  blockRangeCompare { block := first } { block := second }

theorem unreadBlocks_orderedInsert (cursor : Nat) (element : BlockStatus)
    {queue : List BlockStatus} (sorted : Ordered blockRangeCompare queue) :
    unreadBlocks cursor
        (queue.orderedInsert (fun first second => blockRangeCompare first second) element) =
      if element.block.spent cursor then unreadBlocks cursor queue
      else (unreadBlocks cursor queue).orderedInsert (fun first second => first.before second)
        element.block := by
  have inserted := filter_orderedInsert blockRangeCompare_weakOrder
    (fun element => !element.block.spent cursor) element sorted
  simp only [unreadBlocks, inserted]
  by_cases spent : element.block.spent cursor = true
  · simp only [spent, Bool.not_true, Bool.false_eq_true, ↓reduceIte]
  · simp only [spent, Bool.not_false, Bool.false_eq_true, ↓reduceIte]
    apply List.map_orderedInsert
    · intro other _
      exact Iff.rfl
    · intro other _
      exact Iff.rfl

/-- An acknowledgement removes what was distributed, and nothing of that is unread. -/
theorem unreadBlocks_acknowledge (cursor start stop : Nat) (queue : List BlockStatus)
    (spent : ∀ element ∈ queue, element.distributed = true →
      element.block.spent cursor = true) :
    unreadBlocks cursor (queue.filterMap (Session.acknowledge start stop)) =
      unreadBlocks cursor queue := by
  induction queue with
  | nil => rfl
  | cons element rest ih =>
      have next := ih fun other member => spent other (List.mem_cons_of_mem _ member)
      rw [unreadBlocks_cons, ← next]
      cases stays : Session.acknowledge start stop element with
      | none =>
          rw [List.filterMap_cons_none stays,
            spent element List.mem_cons_self (Session.acknowledge_gone stays)]
          rfl
      | some kept =>
          rw [List.filterMap_cons_some stays, unreadBlocks_cons,
            (Session.acknowledge_kept stays).1]

/-- The loop of a read does what a scan of the unread blocks does. -/
theorem Shows.loop {start : Buffer} (queue : List BlockStatus) {pass : ReadPass}
    {progress : Progress} {cursor : Nat} (shows_ : Shows start pass progress)
    (word : pass.distributed < 2 ^ 64) (further : cursor ≤ pass.distributed) :
    Shows start (readLoop queue pass).2
      (progress.scan start.length (unreadBlocks cursor queue)) := by
  induction queue generalizing pass progress with
  | nil => exact shows_
  | cons element rest ih =>
      rw [unreadBlocks_cons]
      by_cases reached : element.block.offset ≤ pass.distributed
      · obtain ⟨small, _, _, whole⟩ := ReadPass.consume_limit word reached
        simp only [readLoop, reached, ↓reduceIte]
        by_cases spent : element.block.spent cursor = true
        · obtain ⟨unbroken, after⟩ := shows_.pass_over (Block.spent_further further spent)
          have moved := (whole unbroken).1
          simp only [spent, unbroken, Bool.false_eq_true, ↓reduceIte]
          exact ih after small (by show cursor ≤ (pass.consume _).1.distributed; omega)
        · have consumed := shows_.consume word reached
          simp only [spent, Bool.false_eq_true, ↓reduceIte, Progress.scan,
            ← shows_.distributed, reached, ← consumed.2]
          split
          · exact consumed.1
          · rename_i unbroken
            have moved := (whole (by simpa using unbroken)).1
            exact ih (consumed.1.distribute element.block) small
              (by show cursor ≤ (pass.consume _).1.distributed; omega)
      · have unspent : ¬ element.block.spent cursor = true := by
          intro spent
          have parts := (element.block.spent_iff cursor).mp spent
          omega
        simp only [readLoop, reached, unspent, Bool.false_eq_true, ↓reduceIte,
          Progress.scan, ← shows_.distributed]
        exact shows_

section Loop

variable {pass : ReadPass}

/-- What a pass has come to the end of is spent, unless the stream ended there. -/
theorem ReadPass.Passed.spent {block : Block} (passed : pass.Passed block)
    (open_ : pass.pendingEof = false) : block.spent pass.distributed = true :=
  (block.spent_iff _).mpr ⟨passed.begins, passed.scanned open_⟩

/-- The loop keeps the blocks that its new cursor has not passed. -/
theorem unreadBlocks_readLoop (queue : List BlockStatus) (pass : ReadPass)
    (word : pass.distributed < 2 ^ 64) (open_ : (readLoop queue pass).2.pendingEof = false) :
    unreadBlocks (readLoop queue pass).2.distributed (readLoop queue pass).1 =
      unreadBlocks (readLoop queue pass).2.distributed queue := by
  induction queue generalizing pass with
  | nil => rfl
  | cons element rest ih =>
      by_cases reached : element.block.offset ≤ pass.distributed
      · have small := (ReadPass.consume_limit word reached).1
        have passes := passed_readLoop rest word reached
        have next := ih ((pass.consume element.block).1.distribute element.block) small
        simp only [readLoop, reached, ↓reduceIte] at open_ ⊢
        split
        · rfl
        · rename_i whole
          simp only [whole, Bool.false_eq_true, ↓reduceIte] at open_
          have spent := (passes (by simpa using whole)).spent open_
          rw [unreadBlocks_cons, spent, ← next open_]
          dsimp only
          split
          · rfl
          · simp only [unreadBlocks_cons, spent, ↓reduceIte]
      · simp only [readLoop, reached, ↓reduceIte]

/-- The loop marks only what it has passed. -/
theorem distributed_readLoop (queue : List BlockStatus) (pass : ReadPass)
    (word : pass.distributed < 2 ^ 64) (open_ : (readLoop queue pass).2.pendingEof = false)
    (before : ∀ element ∈ queue, element.distributed = true →
      element.block.spent pass.distributed = true) :
    ∀ element ∈ (readLoop queue pass).1, element.distributed = true →
      element.block.spent (readLoop queue pass).2.distributed = true := by
  intro element member marked
  rcases mem_readLoop queue pass element member with kept | ⟨old, _, same, _, passed⟩
  · exact Block.spent_further (le_readLoop queue pass word) (before element kept marked)
  · rw [same]
    exact (passed word).spent open_

end Loop

/-- What of a session's receive side its reads depend on. -/
structure View where
  unread : List Block
  distributed : Nat
  readOffset : Nat
  pendingEof : Bool
  deriving DecidableEq, Repr

namespace View

def put (view : View) (block : Block) : View :=
  { view with
    unread := if block.spent view.distributed then view.unread
      else view.unread.orderedInsert (fun first second => first.before second) block }

def progress (view : View) (length : Nat) : Progress :=
  Progress.scan length view.unread
    { cursor := view.distributed, position := view.readOffset, pendingEof := view.pendingEof }

end View

def Session.view (s : Session) : View where
  unread := unreadBlocks s.recvmarkqDistributed s.recvmarkq
  distributed := s.recvmarkqDistributed
  readOffset := s.recvmarkqReadOffset
  pendingEof := s.pendingEof

namespace Session

/-- No more of a buffer is filled than has been distributed, and while the stream is
open, a queued block that was marked distributed has nothing left for the reader. -/
structure Sifted (s : Session) : Prop where
  sorted : s.Sorted
  word : s.recvmarkqDistributed < 2 ^ 64
  offset : s.recvmarkqReadOffset ≤ s.recvmarkqDistributed
  spent : s.pendingEof = false → ∀ element ∈ s.recvmarkq, element.distributed = true →
    element.block.spent s.recvmarkqDistributed = true

namespace Sifted

variable {s : Session}

theorem same {later : Session} (sifted : s.Sifted)
    (same : later.receiveState = s.receiveState) : later.Sifted := by
  simp only [receiveState, Prod.mk.injEq] at same
  obtain ⟨queue, _, distributed, offset, ended⟩ := same
  refine ⟨?_, ?_, ?_, ?_⟩
  · unfold Sorted
    rw [queue]
    exact sifted.sorted
  · rw [distributed]
    exact sifted.word
  · rw [distributed, offset]
    exact sifted.offset
  · rw [ended, queue, distributed]
    exact sifted.spent

theorem put (sifted : s.Sifted) (block : Block) :
    (s.handleRecvmarkqPut block).session.Sifted := by
  have sorted := sifted.sorted.put block
  rcases s.handleRecvmarkqPut_cases block with ⟨refused, _⟩ | ⟨_, queue, strand, stored, perm⟩
  · rw [refused]
    exact sifted
  · rw [stored] at sorted ⊢
    refine ⟨sorted, sifted.word, sifted.offset, ?_⟩
    intro open_ element member marked
    cases List.mem_cons.mp (perm.mem_iff.mp member) with
    | inl new =>
        rw [new] at marked
        exact Bool.noConfusion (open_.symm.trans marked)
    | inr old => exact sifted.spent open_ element old marked

theorem removeRange (sifted : s.Sifted) (start stop : Nat) :
    (s.handleRecvmarkqRemoveRange start stop).Sifted where
  sorted := sifted.sorted.removeRange start stop
  word := sifted.word
  offset := sifted.offset
  spent := by
    intro open_ element member marked
    obtain ⟨old, queued, same, distributed⟩ := mem_handleRecvmarkqRemoveRange member
    rw [same]
    exact sifted.spent open_ old queued (distributed ▸ marked)

/-- The loop of a read comes as far as its view shows. -/
theorem readPass_shows (sifted : s.Sifted) (buffer : Buffer) :
    Shows buffer (s.readPass buffer).2 (s.view.progress buffer.length) := by
  have entry : Shows buffer (s.readEntry buffer)
      { cursor := s.view.distributed, position := s.view.readOffset
        pendingEof := s.view.pendingEof } := by
    refine ⟨rfl, rfl, rfl, ?_, sifted.offset, fun inside => inside⟩
    simp [Session.readEntry, Buffer.overwrite, Ring.overwrite]
  exact entry.loop s.recvmarkq sifted.word (Nat.le_refl _)

theorem read (sifted : s.Sifted) (buffer : Buffer) : (s.read buffer).session.Sifted := by
  have sorted := sifted.sorted.read buffer
  by_cases empty : buffer.length = 0
  · simp only [Session.read, empty, ↓reduceIte]
    exact ⟨sifted.sorted, sifted.word, Nat.zero_le _, sifted.spent⟩
  · have spec := s.read_spec empty
    refine ⟨sorted, ?_, ?_, ?_⟩
    · rw [spec.distributed]
      exact readLoop_word _ _ sifted.word
    · have shows_ := sifted.readPass_shows buffer
      have behind := shows_.behind
      have distributed := shows_.distributed
      have readOffset := shows_.readOffset
      simp only [Progress.distributed, Progress.readOffset] at distributed readOffset
      cases done : (s.read buffer).done with
      | true =>
          rw [(spec.finished done).1]
          exact Nat.zero_le _
      | false =>
          rw [spec.waits done, spec.distributed]
          omega
    · rw [spec.pendingEof, spec.queue, spec.distributed]
      intro open_
      apply distributed_readLoop _ _ sifted.word open_
      apply sifted.spent
      cases known : s.pendingEof with
      | false => rfl
      | true =>
          have ended := readLoop_ended s.recvmarkq (s.readEntry buffer) known
          exact Bool.noConfusion (open_.symm.trans ended)

theorem invariant : ReceiveInvariant Sifted where
  same := fun _ _ same sifted => sifted.same same
  put := fun _ block sifted => sifted.put block
  removeRange := fun _ start stop sifted => sifted.removeRange start stop
  read := fun _ buffer sifted => sifted.read buffer
  closing := fun _ sifted =>
    ⟨sifted.sorted, sifted.word, sifted.offset, fun open_ => Bool.noConfusion open_⟩
  doClose := by
    intro s _
    refine ⟨List.Pairwise.nil, Nat.two_pow_pos 64, Nat.le_refl _, ?_⟩
    intro _ element member
    cases member

end Sifted

theorem Fresh.sifted {s : Session} (fresh : s.Fresh) : s.Sifted := by
  refine ⟨?_, ?_, ?_, ?_⟩
  · unfold Sorted
    rw [fresh.recvmarkq]
    exact List.Pairwise.nil
  · rw [fresh.recvmarkqDistributed]
    decide
  · rw [fresh.recvmarkqReadOffset]
    exact Nat.zero_le _
  · intro _ element member
    rw [fresh.recvmarkq] at member
    cases member

end Session

/-- What a read returns and leaves, and the bytes it puts into its buffer from
`position` on. -/
structure Outcome where
  done : Bool
  ec : ErrorCode
  bytesTransferred : Nat
  distributed : Nat
  readOffset : Nat
  position : Nat
  data : List UInt8
  deriving DecidableEq, Repr

namespace View

/-- A read into a buffer of this length is complete. -/
def completes (view : View) (length : Nat) : Bool :=
  (view.progress length).readOffset = length || (view.progress length).pendingEof

def outcome (view : View) (length : Nat) : Outcome :=
  let progress := view.progress length
  if length = 0 then
    { done := true, ec := .success, bytesTransferred := 0, distributed := view.distributed
      readOffset := 0, position := view.readOffset, data := [] }
  else if view.completes length then
    { done := true, ec := if progress.pendingEof then .eof else .success
      bytesTransferred := progress.readOffset, distributed := progress.distributed
      readOffset := 0, position := view.readOffset, data := progress.data }
  else
    { done := false, ec := .success, bytesTransferred := 0, distributed := progress.distributed
      readOffset := progress.readOffset, position := view.readOffset, data := progress.data }

/-- The view after a read that does not report the end of the stream. -/
def read (view : View) (length : Nat) : View where
  unread := view.unread.filter fun block => !block.spent (view.outcome length).distributed
  distributed := (view.outcome length).distributed
  readOffset := (view.outcome length).readOffset
  pendingEof := view.pendingEof

end View

/-- A read of a run: the session it finds and the buffer it is given. -/
structure ReadCall where
  before : Session
  buffer : Buffer
  deriving DecidableEq, Repr

def ReadCall.result (call : ReadCall) : ReadResult := call.before.read call.buffer

/-- A read has the outcome. -/
structure ReadCall.Yields (call : ReadCall) (outcome : Outcome) : Prop where
  done : call.result.done = outcome.done
  ec : call.result.ec = outcome.ec
  bytesTransferred : call.result.bytesTransferred = outcome.bytesTransferred
  distributed : call.result.session.recvmarkqDistributed = outcome.distributed
  readOffset : call.result.session.recvmarkqReadOffset = outcome.readOffset
  moved : call.before.recvmarkqDistributed + outcome.data.length = outcome.distributed
  position : call.before.recvmarkqReadOffset = outcome.position
  took : call.buffer.Took call.result.buffer outcome.position outcome.data

namespace Session

namespace Sifted

variable {s : Session}

theorem view_removeRange (sifted : s.Sifted) (open_ : s.pendingEof = false) (start stop : Nat) :
    (s.handleRecvmarkqRemoveRange start stop).view = s.view := by
  simp only [view, handleRecvmarkqRemoveRange,
    unreadBlocks_acknowledge _ start stop s.recvmarkq (sifted.spent open_)]

theorem view_put (sifted : s.Sifted) {block : Block}
    (stored : (s.handleRecvmarkqPut block).ret = 0) :
    (s.handleRecvmarkqPut block).session.view = s.view.put block := by
  unfold handleRecvmarkqPut at stored ⊢
  split at stored
  · cases stored
  · rename_i room
    simp only [room, ↓reduceIte, view, View.put,
      unreadBlocks_orderedInsert _ { block := block, distributed := s.pendingEof } sifted.sorted]
    rfl

/-- A read shows nothing that the view does not have. -/
theorem read_yields (sifted : s.Sifted) (buffer : Buffer) :
    ReadCall.Yields ⟨s, buffer⟩ (s.view.outcome buffer.length) := by
  by_cases empty : buffer.length = 0
  · have nothing : buffer.Took buffer s.recvmarkqReadOffset [] := by
      refine ⟨rfl, fun inside => inside, ?_, fun _ _ => rfl⟩
      intro index below
      exact absurd below (Nat.not_lt_zero _)
    constructor <;> simp only [ReadCall.result, Session.read, View.outcome, empty, ↓reduceIte]
    · rfl
    · rfl
    · rfl
    · exact nothing
  · have after := sifted.readPass_shows buffer
    have entry := Progress.scan_entry buffer.length s.view.unread
      { cursor := s.view.distributed, position := s.view.readOffset
        pendingEof := s.view.pendingEof }
    have moved : s.recvmarkqDistributed + (s.view.progress buffer.length).data.length =
        (s.view.progress buffer.length).distributed := by
      rw [Progress.distributed]
      exact congrArg (· + _) entry.1.symm
    have took : buffer.Took (s.readPass buffer).2.buffer s.view.readOffset
        (s.view.progress buffer.length).data := by
      rw [after.buffer, View.progress, entry.2]
      apply Buffer.took_overwrite
      have fits := after.fits
      rw [Progress.readOffset, View.progress, entry.2] at fits
      exact fits
    have complete : s.view.completes buffer.length = true ↔
        (s.readPass buffer).2.readOffset = buffer.length ∨
          (s.readPass buffer).2.pendingEof = true := by
      simp only [View.completes, Bool.or_eq_true, decide_eq_true_eq, after.readOffset,
        after.pendingEof]
    by_cases done : s.view.completes buffer.length = true
    · simp only [View.outcome, empty, done, ↓reduceIte]
      constructor <;>
        simp only [ReadCall.result, Session.read, empty, complete.mp done, ↓reduceIte]
      · rw [after.pendingEof]
      · exact after.readOffset
      · exact after.distributed
      · exact moved
      · rfl
      · exact took
    · simp only [View.outcome, empty, done, Bool.false_eq_true, ↓reduceIte]
      constructor <;>
        simp only [ReadCall.result, Session.read, empty, mt complete.mpr done, ↓reduceIte]
      · exact after.distributed
      · exact after.readOffset
      · exact moved
      · rfl
      · exact took

/-- Without the end of the stream a read leaves the view of its outcome. -/
theorem view_read (sifted : s.Sifted) (open_ : s.pendingEof = false) {buffer : Buffer}
    (more : (s.read buffer).ec ≠ .eof) :
    (s.read buffer).session.pendingEof = false ∧
      (s.read buffer).session.view = s.view.read buffer.length := by
  have yields := sifted.read_yields buffer
  have stays : (s.read buffer).session.pendingEof = false ∧
      unreadBlocks (s.read buffer).session.recvmarkqDistributed
        (s.read buffer).session.recvmarkq =
      unreadBlocks (s.read buffer).session.recvmarkqDistributed s.recvmarkq ∧
      s.recvmarkqDistributed ≤ (s.read buffer).session.recvmarkqDistributed := by
    by_cases empty : buffer.length = 0
    · simp only [Session.read, empty, ↓reduceIte]
      exact ⟨open_, trivial, Nat.le_refl _⟩
    · have spec := s.read_spec empty
      have known : (s.readPass buffer).2.pendingEof = false := by
        cases ended : (s.readPass buffer).2.pendingEof with
        | false => rfl
        | true =>
            apply absurd _ more
            simp only [Session.read, empty, ended, or_true, ↓reduceIte]
      rw [spec.pendingEof, spec.queue, spec.distributed]
      exact ⟨known, unreadBlocks_readLoop _ _ sifted.word known,
        le_readLoop s.recvmarkq (s.readEntry buffer) sifted.word⟩
  refine ⟨stays.1, ?_⟩
  have distributed : (s.read buffer).session.recvmarkqDistributed =
      (s.view.outcome buffer.length).distributed := yields.distributed
  have unread := stays.2.1.trans (unreadBlocks_further stays.2.2 s.recvmarkq).symm
  rw [distributed] at unread
  show View.mk _ _ _ _ = View.mk _ _ _ _
  rw [View.mk.injEq]
  refine ⟨?_, distributed, yields.readOffset, stays.1.trans open_.symm⟩
  rw [distributed]
  exact unread

end Sifted

end Session

/-- What reaches the reader: a block that is accepted, or a read of some length. -/
inductive Input where
  | put (block : Block)
  | read (length : Nat)
  deriving DecidableEq, Repr

namespace Session

/-- The inputs of a run. Acknowledgements and refused blocks are left out. -/
def inputs : Session → List ReaderAction → List Input
  | _, [] => []
  | s, .put block :: rest =>
      let result := s.handleRecvmarkqPut block
      if result.ret = 0 then .put block :: result.session.inputs rest
      else result.session.inputs rest
  | s, .removeRange start stop :: rest => (s.handleRecvmarkqRemoveRange start stop).inputs rest
  | s, .read buffer :: rest => .read buffer.length :: (s.read buffer).session.inputs rest

/-- The reads of a run, up to and including the first one that reports the end of
the stream. -/
def reads : Session → List ReaderAction → List ReadCall
  | _, [] => []
  | s, .put block :: rest => (s.handleRecvmarkqPut block).session.reads rest
  | s, .removeRange start stop :: rest => (s.handleRecvmarkqRemoveRange start stop).reads rest
  | s, .read buffer :: rest =>
      let result := s.read buffer
      if result.ec = .eof then [⟨s, buffer⟩] else ⟨s, buffer⟩ :: result.session.reads rest

end Session

/-- What the inputs show, up to and including the first outcome that reports the
end of the stream. -/
def View.outcomes : View → List Input → List Outcome
  | _, [] => []
  | view, .put block :: rest => (view.put block).outcomes rest
  | view, .read length :: rest =>
      let outcome := view.outcome length
      if outcome.ec = .eof then [outcome] else outcome :: (view.read length).outcomes rest

/-- Two reads begin and end with the cursor and the read offset at the same places and
return the same. The bytes that moved the cursor are the same in both, and each read puts
them into its buffer from that read offset on, and nothing else. -/
structure Agrees (first second : ReadCall) : Prop where
  cursor : first.before.recvmarkqDistributed = second.before.recvmarkqDistributed
  position : first.before.recvmarkqReadOffset = second.before.recvmarkqReadOffset
  done : first.result.done = second.result.done
  ec : first.result.ec = second.result.ec
  bytesTransferred : first.result.bytesTransferred = second.result.bytesTransferred
  distributed : first.result.session.recvmarkqDistributed =
    second.result.session.recvmarkqDistributed
  readOffset : first.result.session.recvmarkqReadOffset =
    second.result.session.recvmarkqReadOffset
  bytes : ∃ data : List UInt8,
    first.before.recvmarkqDistributed + data.length =
        first.result.session.recvmarkqDistributed ∧
      first.buffer.Took first.result.buffer first.before.recvmarkqReadOffset data ∧
      second.buffer.Took second.result.buffer second.before.recvmarkqReadOffset data

theorem ReadCall.Yields.agrees {first second : ReadCall} {outcome : Outcome}
    (left : first.Yields outcome) (right : second.Yields outcome) : Agrees first second where
  cursor := Nat.add_right_cancel (left.moved.trans right.moved.symm)
  position := left.position.trans right.position.symm
  done := left.done.trans right.done.symm
  ec := left.ec.trans right.ec.symm
  bytesTransferred := left.bytesTransferred.trans right.bytesTransferred.symm
  distributed := left.distributed.trans right.distributed.symm
  readOffset := left.readOffset.trans right.readOffset.symm
  bytes := by
    refine ⟨outcome.data, left.moved.trans left.distributed.symm, ?_, ?_⟩
    · rw [left.position]
      exact left.took
    · rw [right.position]
      exact right.took

/-- A run shows its reads what the view of its inputs shows. -/
theorem Session.Sifted.run (actions : List ReaderAction) {s : Session} (sifted : s.Sifted)
    (open_ : s.pendingEof = false) :
    List.Forall₂ ReadCall.Yields (s.reads actions) (s.view.outcomes (s.inputs actions)) := by
  induction actions generalizing s with
  | nil => exact .nil
  | cons action rest ih =>
      cases action with
      | put block =>
          simp only [Session.reads, Session.inputs]
          rcases s.handleRecvmarkqPut_cases block with
            ⟨refused, _⟩ | ⟨_, queue, strand, stored, _⟩
          · rw [refused]
            exact ih sifted open_
          · have accepted : (s.handleRecvmarkqPut block).ret = 0 := by rw [stored]
            have kept : (s.handleRecvmarkqPut block).session.pendingEof = false := by
              rw [stored]
              exact open_
            have next := ih (sifted.put block) kept
            rw [sifted.view_put accepted] at next
            simp only [accepted, ↓reduceIte, View.outcomes]
            exact next
      | removeRange start stop =>
          have next := ih (sifted.removeRange start stop) open_
          rw [sifted.view_removeRange open_] at next
          exact next
      | read buffer =>
          have yields := sifted.read_yields buffer
          have ends : (s.read buffer).ec = (s.view.outcome buffer.length).ec := yields.ec
          simp only [Session.reads, Session.inputs, View.outcomes, ← ends]
          split
          · exact .cons yields .nil
          · rename_i more
            obtain ⟨kept, after⟩ := sifted.view_read open_ more
            have next := ih (sifted.read buffer) kept
            rw [after] at next
            exact .cons yields next

/-- Runs that show the same outcomes agree read by read. -/
theorem agree_of_outcomes {first second : List ReadCall} {outcomes : List Outcome}
    (left : List.Forall₂ ReadCall.Yields first outcomes)
    (right : List.Forall₂ ReadCall.Yields second outcomes) :
    List.Forall₂ Agrees first second := by
  induction left generalizing second with
  | nil =>
      cases right with
      | nil => exact .nil
  | cons yields _ ih =>
      cases right with
      | cons other rest => exact .cons (yields.agrees other) (ih rest)

/-- From a state in which the stream is open, two runs with the same accepted
blocks and the same lengths of reads agree in every read up to the end of the
stream, whatever ranges are acknowledged in each of them and when. -/
theorem acknowledgements_unseen {session : Session} {service : Service} (fresh : session.Fresh)
    (reached : Reaches Service.next Service.Possible { session := session } service)
    (open_ : service.session.pendingEof = false) {first second : List ReaderAction}
    (same : service.session.inputs first = service.session.inputs second) :
    List.Forall₂ Agrees (service.session.reads first) (service.session.reads second) := by
  have sifted : service.session.Sifted :=
    Session.Sifted.invariant.reached fresh.sifted reached
  have left := sifted.run first open_
  have right := sifted.run second open_
  rw [← same] at right
  exact agree_of_outcomes left right

/-- Only the first run acknowledges the first block, which its reader has read. -/
theorem acknowledgements_unseen_two_blocks :
    let pair : Buffer := ⟨[0, 0], by decide⟩
    let other : Buffer := ⟨[9, 9], by decide⟩
    let block : Block := { offset := 0, data := [1, 2] }
    let last : Block := { offset := 1, data := [2, 3], eof := .eofSuccess }
    let first := [ReaderAction.put block, .read pair, .removeRange 0 2, .put last, .read pair]
    let second := [ReaderAction.put block, .read other, .put last, .read other]
    List.Forall₂ Agrees (({} : Session).reads first) (({} : Session).reads second) ∧
      (({} : Session).reads first).map (fun call => call.result.session.recvmarkq.length) =
        [1, 1] ∧
      (({} : Session).reads second).map (fun call => call.result.session.recvmarkq.length) =
        [1, 2] := by
  intro pair other block last first second
  exact ⟨@acknowledgements_unseen {} { session := {} } (Session.fresh_configured _ _ _) .start rfl
    first second (by decide), by decide, by decide⟩

end CurvecprAsio
