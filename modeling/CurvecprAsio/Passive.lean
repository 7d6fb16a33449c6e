import CurvecprAsio.Settle
import CurvecprAsio.Sender
import CurvecprAsio.Steps

set_option autoImplicit false

/- A session that is not closed locally: the end of the peer's stream, once read,
ends our own stream, and only then is the session closed. -/
namespace CurvecprAsio

open Transition

/-- Both sides of a session with one reader: what reads and writes have moved, and
whether a completed read has reported the end of the stream. -/
structure Duplex where
  reader : Reader
  endReported : Bool := false
  accepted : List UInt8 := []
  moved : List SentBlock := []
  deriving DecidableEq, Repr

inductive DuplexAction where
  | start
  | reschedule
  | callback (callback : Callback)
  | read (buffer : Buffer)
  | write (buffer : Buffer)

namespace Duplex

def session (duplex : Duplex) : Session := duplex.reader.session

def sender (duplex : Duplex) : Sender where
  session := duplex.session
  accepted := duplex.accepted
  moved := duplex.moved

def onto (duplex : Duplex) (session : Session) : Duplex :=
  { duplex with reader := { duplex.reader with session := session } }

def move (duplex : Duplex) (result : MoveResult) : Duplex :=
  { duplex.onto result.session with moved := duplex.moved ++ result.stored.toList }

def callback (duplex : Duplex) : Callback → Duplex
  | .sendqMoveToSendmarkq balance =>
      duplex.move (duplex.session.handleSendqMoveToSendmarkq balance duplex.session.headBlock)
  | .resend balance pointer id clock =>
      duplex.move (duplex.session.resend balance pointer id clock)
  | .recvmarkqPut block => { duplex with reader := duplex.reader.put block }
  | .recvmarkqRemoveRange start stop =>
      { duplex with reader := duplex.reader.removeRange start stop }
  | other => duplex.onto (duplex.session.callback other)

def read (duplex : Duplex) (buffer : Buffer) : Duplex :=
  { duplex with
    reader := duplex.reader.read buffer
    endReported := duplex.endReported || (duplex.session.read buffer).ec = .eof }

def write (duplex : Duplex) (buffer : Buffer) : Duplex :=
  { duplex.onto (duplex.sender.write buffer).session with
    accepted := (duplex.sender.write buffer).accepted }

def next (duplex : Duplex) : DuplexAction → Duplex
  | .start => duplex.onto duplex.session.start
  | .reschedule => duplex.onto duplex.session.rescheduleProcessSendQueue
  | .callback callback => duplex.callback callback
  | .read buffer => duplex.read buffer
  | .write buffer => duplex.write buffer

/-- A block with our own EOF mark has been produced. -/
def EofProduced (duplex : Duplex) : Prop :=
  (∃ sent ∈ duplex.moved, sent.block.marked = true) ∨
    (duplex.session.sendqHeadExists = true ∧ duplex.session.sendqHead.marked = true)

instance (duplex : Duplex) : Decidable duplex.EofProduced :=
  inferInstanceAs (Decidable ((∃ sent ∈ duplex.moved, sent.block.marked = true) ∨
    (duplex.session.sendqHeadExists = true ∧ duplex.session.sendqHead.marked = true)))

/-- The blocks that arrive are slices of `S`, a read that is not done is retried
before another is made, and libcurvecpr sets `my_final` only after our EOF block
has been sent. -/
def Allowed (S : List UInt8) (duplex : Duplex) : DuplexAction → Prop
  | .callback (.recvmarkqPut block) => SliceOf S block
  | .callback (.messager messager) => messager.myFinal = true →
      duplex.session.messager.myFinal = true ∨ duplex.EofProduced
  | .read buffer => ∀ held, duplex.reader.outstanding = some held → buffer = held
  | _ => True

def CallbackAllowed (S : List UInt8) (duplex : Duplex) (callback : Callback) : Prop :=
  duplex.Allowed S (.callback callback)

theorem session_callback (duplex : Duplex) (callback : Callback) :
    (duplex.callback callback).session = duplex.session.callback callback := by
  cases callback <;> rfl

theorem session_callbacks (duplex : Duplex) (activity : List Callback) :
    (activity.foldl Duplex.callback duplex).session = duplex.session.callbacks activity := by
  induction activity generalizing duplex with
  | nil => rfl
  | cons callback rest ih =>
      simp only [List.foldl_cons, ih, session_callback, Session.callbacks]

end Duplex

namespace ReaderInv

variable {S : List UInt8} {reader : Reader}

theorem same (inv : ReaderInv S reader) {session : Session}
    (same : session.receiveState = reader.session.receiveState) :
    ReaderInv S { reader with session := session } := by
  simp only [Session.receiveState, Prod.mk.injEq] at same
  obtain ⟨queue, _, distributed, offset, ended⟩ := same
  refine ⟨?_, ?_, ?_, ?_, ?_, ?_, ?_⟩
  · rw [queue]
    exact inv.slices
  · simp only [Reader.placed, offset, distributed]
    exact inv.filled
  · rw [distributed]
    exact inv.word
  · rw [distributed]
    exact inv.bound
  · rw [ended, distributed]
    exact inv.ended
  · rw [offset]
    exact inv.room
  · rw [offset]
    exact inv.idle

theorem readEmpty (inv : ReaderInv S reader) {buffer : Buffer} (empty : buffer.length = 0)
    (retries : ∀ held, reader.outstanding = some held → buffer = held) :
    ReaderInv S (reader.read buffer) := by
  have nothing : reader.placed = [] := by
    cases holding : reader.outstanding with
    | none => simp only [Reader.placed, holding, Option.elim_none]
    | some held =>
        have bytes : held.bytes = [] := by
          rw [← retries held holding]
          exact List.eq_nil_of_length_eq_zero empty
        simp only [Reader.placed, holding, Option.elim_some, bytes, List.take_nil]
  have filled := inv.filled
  rw [nothing, List.append_nil] at filled
  simp only [Reader.read, Session.read, empty, ↓reduceIte, List.take_zero, List.append_nil]
  refine ⟨inv.slices, ?_, inv.word, inv.bound, inv.ended, ?_, fun _ => rfl⟩
  · simpa only [Reader.placed, Option.elim_none, List.append_nil] using filled
  · intro held outstanding
    cases outstanding

end ReaderInv

namespace Session

/-- A read that finds the end of the stream, or knows it, reports it. -/
theorem read_ended (s : Session) {buffer : Buffer} (nonempty : buffer.length ≠ 0)
    (ended : (s.read buffer).session.pendingEof = true) :
    (s.read buffer).done = true ∧ (s.read buffer).ec = .eof := by
  simp only [Session.read, nonempty, ↓reduceIte] at ended ⊢
  split at ended
  · rename_i complete
    simp only [complete, ↓reduceIte]
    exact ⟨trivial, if_pos ended⟩
  · rename_i incomplete
    exact absurd (Or.inr ended) incomplete

theorem read_keeps_eof (s : Session) (buffer : Buffer) (ended : s.pendingEof = true)
    (word : s.recvmarkqDistributed < 2 ^ 64) :
    (s.read buffer).session.pendingEof = true := by
  by_cases empty : buffer.length = 0
  · simp only [Session.read, empty, ↓reduceIte]
    exact ended
  · rw [(s.read_spec empty).pendingEof]
    exact (readLoop_eof_iff s.recvmarkq (s.readEntry buffer) word).mpr (Or.inl ended)

theorem write_at_eof (s : Session) (buffer : Buffer) (ended : s.pendingEof = true) :
    (s.write buffer).session = s := by
  unfold Session.write
  rw [ended]
  split <;> rfl

/-- An empty ring stays empty when a head block is taken from it. -/
theorem pendingUsed_takeHead (s : Session) (empty : s.pendingUsed = 0) :
    s.takeHead.1.pendingUsed = 0 := by
  unfold takeHead
  split
  · exact empty
  · simp only [requested, empty, Nat.zero_min]
    decide

/-- A head block stays as it is, and a new one is marked only at EOF, once the ring is
empty. -/
theorem handleSendqHead_head (s : Session) :
    s.handleSendqHead.session = s ∨
      s.sendqHeadExists = false ∧ s.handleSendqHead.session.messager = s.messager ∧
        (s.handleSendqHead.session.sendqHead.marked = true →
          s.pendingEof = true ∧ s.handleSendqHead.session.pendingUsed = 0) ∧
        (s.pendingUsed = 0 → s.handleSendqHead.session.pendingUsed = 0) := by
  unfold handleSendqHead
  split
  · exact Or.inl rfl
  · rename_i absent
    split
    · refine Or.inr ⟨by simpa using absent, ?_, ?_, s.pendingUsed_takeHead⟩
      · simp only [takeHead]
        split <;> rfl
      · have same : s.takeHead.1.pendingEof = s.pendingEof := by
          simp only [takeHead]
          split <;> rfl
        simp only [Block.marked, same]
        split
        · rename_i last
          exact fun _ => ⟨last.2, last.1⟩
        · intro marked
          simp at marked
    · exact Or.inl rfl

end Session

/-- The invariant of a session that is not closed locally. The send side keeps its
bytes in order where the ring's size fits in int. -/
structure DuplexInv (S : List UInt8) (small : Prop) (duplex : Duplex) : Prop where
  reader : ReaderInv S duplex.reader
  reported : duplex.session.pendingEof = true →
    duplex.endReported = true ∧ duplex.reader.outstanding = none
  moved : ∀ sent ∈ duplex.moved, sent.block.marked = true → duplex.session.pendingEof = true
  head : duplex.session.sendqHeadExists = true → duplex.session.sendqHead.marked = true →
    duplex.session.pendingEof = true
  final : duplex.session.messager.myFinal = true → duplex.EofProduced
  drained : duplex.EofProduced → duplex.session.pendingUsed = 0
  sender : small → SenderInv (2 ^ 31) duplex.sender

namespace DuplexInv

variable {S : List UInt8} {small : Prop} {duplex : Duplex}

theorem initial (S : List UInt8) {session : Session} (fresh : session.Fresh)
    (unset : session.messager.myFinal = false) :
    DuplexInv S (session.pendingMaximum < 2 ^ 31) { reader := { session := session } } where
  reader := ReaderInv.initial S fresh
  reported := by
    intro ended
    rw [Duplex.session, fresh.pendingEof] at ended
    cases ended
  moved := by
    intro sent member
    cases member
  head := by
    intro exists_
    rw [Duplex.session, fresh.sendqHeadExists] at exists_
    cases exists_
  final := by
    intro final
    rw [Duplex.session, unset] at final
    cases final
  drained := fun _ => fresh.pendingUsed
  sender := fun small => SenderInv.initial (2 ^ 31) fresh small

theorem ended (inv : DuplexInv S small duplex) (produced : duplex.EofProduced) :
    duplex.session.pendingEof = true := by
  rcases produced with ⟨sent, member, marked⟩ | ⟨exists_, marked⟩
  · exact inv.moved sent member marked
  · exact inv.head exists_ marked

/-- Our EOF block has been produced only after the peer's stream was read to its end. -/
theorem delivered (inv : DuplexInv S small duplex) (produced : duplex.EofProduced) :
    duplex.endReported = true ∧ duplex.reader.delivered = S := by
  have ended := inv.ended produced
  obtain ⟨reported, idle⟩ := inv.reported ended
  have filled := inv.reader.filled
  rw [inv.reader.ended ended, List.take_length, Reader.placed, idle, Option.elim_none,
    List.append_nil] at filled
  exact ⟨reported, filled⟩

/-- Steps that leave alone the ring, the head block and the blocks moved. -/
theorem receiving (inv : DuplexInv S small duplex) {reader : Reader} {ended : Bool}
    (holds : ReaderInv S reader)
    (ring : reader.session.ringState = duplex.session.ringState)
    (some : reader.session.sendqHeadExists = duplex.session.sendqHeadExists)
    (data : reader.session.sendqHead.data = duplex.session.sendqHead.data)
    (eof : reader.session.sendqHead.eof = duplex.session.sendqHead.eof)
    (closing : duplex.session.pendingEof = true → reader.session.pendingEof = true)
    (reported : reader.session.pendingEof = true → ended = true ∧ reader.outstanding = none)
    (final : reader.session.messager.myFinal = true →
      duplex.session.messager.myFinal = true ∨ duplex.EofProduced) :
    DuplexInv S small { duplex with reader := reader, endReported := ended } := by
  have marked : reader.session.sendqHead.marked = duplex.session.sendqHead.marked := by
    simp only [Block.marked, eof]
  have stays : Duplex.EofProduced { duplex with reader := reader, endReported := ended } ↔
      duplex.EofProduced := by
    simp only [Duplex.EofProduced, Duplex.session, some, marked]
  refine ⟨holds, reported, fun sent member isMarked => closing (inv.moved sent member isMarked),
    ?_, ?_, ?_, fun fits => (inv.sender fits).frame ring some data eof closing⟩
  · intro exists_ isMarked
    simp only [Duplex.session, some, marked] at exists_ isMarked
    exact closing (inv.head exists_ isMarked)
  · intro isFinal
    rcases final isFinal with before | produced
    · exact stays.mpr (inv.final before)
    · exact stays.mpr produced
  · intro produced
    have used : reader.session.pendingUsed = duplex.session.pendingUsed := by
      simp only [Session.ringState, Prod.mk.injEq] at ring
      exact ring.2.2.1
    exact used.trans (inv.drained (stays.mp produced))

/-- Changes of the strand, the head block's stamp, `sendmarkq_` and the messager. -/
theorem onto (inv : DuplexInv S small duplex) {session : Session}
    (receive : session.receiveState = duplex.session.receiveState)
    (ring : session.ringState = duplex.session.ringState)
    (some : session.sendqHeadExists = duplex.session.sendqHeadExists)
    (data : session.sendqHead.data = duplex.session.sendqHead.data)
    (eof : session.sendqHead.eof = duplex.session.sendqHead.eof)
    (final : session.messager.myFinal = true →
      duplex.session.messager.myFinal = true ∨ duplex.EofProduced) :
    DuplexInv S small (duplex.onto session) := by
  have same := Session.pendingEof_of_receiveState receive
  apply inv.receiving (inv.reader.same receive) ring some data eof _ _ final
  · intro ended
    exact same.trans ended
  · intro ended
    exact inv.reported (same.symm.trans ended)

theorem sendqHead (inv : DuplexInv S small duplex) :
    DuplexInv S small (duplex.callback .sendqHead) := by
  have receive := duplex.session.receiveState_handleSendqHead
  have ended := Session.pendingEof_of_receiveState receive
  have sender : small → SenderInv (2 ^ 31) (duplex.callback .sendqHead).sender := by
    intro fits
    have before := inv.sender fits
    have used := before.ring.used
    have maximum := before.ring.small
    have fits : min duplex.sender.session.pendingUsed
        duplex.session.messager.myMaximumSendBytes ≤ 2 ^ 31 :=
      Nat.le_trans (Nat.min_le_left _ _) (by omega)
    exact before.sendqHead fits
  rcases duplex.session.handleSendqHead_head with
    unchanged | ⟨absent, messager, marked, stays⟩
  · have still : duplex.callback .sendqHead = duplex := by
      show duplex.onto duplex.session.handleSendqHead.session = duplex
      rw [unchanged]
      rfl
    rw [still]
    exact inv
  · refine ⟨inv.reader.same receive, ?_, ?_, ?_, ?_, ?_, sender⟩
    · intro atEnd
      exact inv.reported (ended.symm.trans atEnd)
    · intro sent member isMarked
      exact ended.trans (inv.moved sent member isMarked)
    · intro _ isMarked
      exact ended.trans (marked isMarked).1
    · intro final
      rcases inv.final ((congrArg Messager.myFinal messager).symm.trans final) with
        moved | ⟨exists_, _⟩
      · exact Or.inl moved
      · exact Bool.noConfusion (absent.symm.trans exists_)
    · rintro (moved | ⟨_, isMarked⟩)
      · exact stays (inv.drained (Or.inl moved))
      · exact (marked isMarked).2

theorem move (inv : DuplexInv S small duplex) (balance : SearchTree.Balance SentBlock)
    (block : SentBlock) :
    DuplexInv S small
      (duplex.move (duplex.session.handleSendqMoveToSendmarkq balance block)) := by
  have sender : small → SenderInv (2 ^ 31)
      (duplex.move (duplex.session.handleSendqMoveToSendmarkq balance block)).sender :=
    fun fits => (inv.sender fits).move balance block
  rcases duplex.session.handleSendqMoveToSendmarkq_cases balance block with
    same | ⟨_, it, _, moved⟩ | ⟨exists_, _, _, stored⟩
  · simp only [Duplex.move, same, Option.toList_none, List.append_nil]
    exact inv
  · simp only [Duplex.move, moved, Option.toList_none, List.append_nil]
    exact inv.onto rfl rfl rfl rfl rfl Or.inl
  · refine ⟨?_, ?_, ?_, ?_, ?_, ?_, sender⟩
    · simp only [Duplex.move, stored]
      exact inv.reader.same rfl
    · simp only [Duplex.move, stored]
      exact inv.reported
    · simp only [Duplex.move, stored, Option.toList_some]
      intro sent member marked
      rcases List.mem_append.mp member with old | new
      · exact inv.moved sent old marked
      · rw [List.mem_singleton.mp new] at marked
        exact inv.head exists_ marked
    · simp only [Duplex.move, stored]
      intro later
      cases later
    · simp only [Duplex.move, stored, Option.toList_some]
      intro final
      rcases inv.final final with ⟨sent, member, marked⟩ | ⟨_, marked⟩
      · exact Or.inl ⟨sent, List.mem_append_left _ member, marked⟩
      · exact Or.inl ⟨_, List.mem_append_right _ (List.mem_singleton_self _), marked⟩
    · simp only [Duplex.move, stored, Option.toList_some]
      rintro (⟨sent, member, marked⟩ | ⟨later, _⟩)
      · rcases List.mem_append.mp member with old | new
        · exact inv.drained (Or.inl ⟨sent, old, marked⟩)
        · rw [List.mem_singleton.mp new] at marked
          exact inv.drained (Or.inr ⟨exists_, marked⟩)
      · cases later

theorem resend (inv : DuplexInv S small duplex) (balance : SearchTree.Balance SentBlock)
    (pointer id : Nat) (clock : Int) :
    DuplexInv S small (duplex.move (duplex.session.resend balance pointer id clock)) := by
  have stamped : DuplexInv S small (duplex.onto (duplex.session.stampSent pointer id clock)) :=
    inv.onto rfl rfl rfl rfl rfl Or.inl
  unfold Session.resend
  dsimp only
  split
  · rename_i sent found
    exact stamped.move balance sent
  · simp only [Duplex.move, Option.toList_none, List.append_nil]
    exact stamped

theorem callback (inv : DuplexInv S small duplex) (callback : Callback)
    (allowed : duplex.CallbackAllowed S callback) :
    DuplexInv S small (duplex.callback callback) := by
  cases callback with
  | sendqHead => exact inv.sendqHead
  | stampHead id clock offset => exact inv.onto rfl rfl rfl rfl rfl Or.inl
  | sendqMoveToSendmarkq balance => exact inv.move balance _
  | resend balance pointer id clock => exact inv.resend balance pointer id clock
  | sendmarkqRemoveRange balance start stop => exact inv.onto rfl rfl rfl rfl rfl Or.inl
  | recvmarkqPut block =>
      have slice : SliceOf S block := allowed
      have put := inv.reader.put slice
      rcases duplex.session.handleRecvmarkqPut_cases block with
        ⟨refused, _⟩ | ⟨_, queue, strand, stored, _⟩
      · have still : duplex.callback (.recvmarkqPut block) = duplex := by
          simp only [Duplex.callback, Reader.put, show duplex.reader.session.handleRecvmarkqPut
            block = _ from refused]
          rfl
        rw [still]
        exact inv
      · have result : (duplex.reader.put block).session =
            { duplex.session with recvmarkq := queue, strand := strand } :=
          congrArg PutResult.session stored
        apply inv.receiving put <;> rw [result]
        · rfl
        · exact id
        · exact inv.reported
        · exact Or.inl
  | recvmarkqRemoveRange start stop =>
      exact inv.receiving (inv.reader.removeRange start stop) rfl rfl rfl rfl id inv.reported
        Or.inl
  | messager messager => exact inv.onto rfl rfl rfl rfl rfl allowed

/-- A read that gets to the end of the stream reports it. -/
theorem read (inv : DuplexInv S small duplex) {buffer : Buffer}
    (allowed : duplex.Allowed S (.read buffer)) : DuplexInv S small (duplex.read buffer) := by
  obtain ⟨queue, distributed, offset, ended, contiguous, changed⟩ :=
    duplex.session.read_changes buffer
  have kept := duplex.session.read_keeps_eof buffer
  have session : (duplex.reader.read buffer).session =
      (duplex.session.read buffer).session := rfl
  have holds : ReaderInv S (duplex.reader.read buffer) := by
    by_cases empty : buffer.length = 0
    · exact inv.reader.readEmpty empty allowed
    · have retries : duplex.reader.Retries buffer := ⟨empty, allowed⟩
      exact inv.reader.read retries
  apply inv.receiving holds
  · rw [session, changed]
    rfl
  · rw [session, changed]
  · rw [session, changed]
  · rw [session, changed]
  · exact fun before => kept before inv.reader.word
  · intro atEnd
    by_cases empty : buffer.length = 0
    · have result : duplex.session.read buffer =
          { session := { duplex.session with recvmarkqReadOffset := 0 }, buffer := buffer
            done := true } := by
        simp only [Session.read, empty, ↓reduceIte]
      rw [session, result] at atEnd
      have before := inv.reported atEnd
      simp only [Reader.read, show duplex.reader.session.read buffer = _ from result, before.1,
        Bool.true_or, ↓reduceIte, and_self]
    · have reports := duplex.session.read_ended empty atEnd
      refine ⟨by simp [reports.2], ?_⟩
      simp only [Reader.read, show (duplex.reader.session.read buffer).done = true from reports.1,
        ↓reduceIte]
  · rw [session, changed]
    exact Or.inl

theorem write (inv : DuplexInv S small duplex) (buffer : Buffer) :
    DuplexInv S small (duplex.write buffer) := by
  obtain ⟨pending, next, used, strand, changed⟩ := duplex.session.write_changes buffer
  have session : (duplex.write buffer).session = (duplex.session.write buffer).session := rfl
  refine ⟨?_, ?_, ?_, ?_, ?_, ?_, fun fits => (inv.sender fits).write buffer⟩
  · exact inv.reader.same (duplex.session.receiveState_write buffer)
  · rw [session, changed]
    exact inv.reported
  · rw [session, changed]
    exact inv.moved
  · rw [session, changed]
    exact inv.head
  · simp only [Duplex.EofProduced, session, changed]
    exact inv.final
  · intro produced
    have before : duplex.EofProduced := by
      simp only [Duplex.EofProduced, session, changed] at produced
      exact produced
    rw [session, duplex.session.write_at_eof buffer (inv.ended before)]
    exact inv.drained before

theorem next (inv : DuplexInv S small duplex) (action : DuplexAction)
    (allowed : duplex.Allowed S action) : DuplexInv S small (duplex.next action) := by
  cases action with
  | start => exact inv.onto rfl rfl rfl rfl rfl Or.inl
  | reschedule => exact inv.onto rfl rfl rfl rfl rfl Or.inl
  | callback callback => exact inv.callback callback allowed
  | read buffer => exact inv.read allowed
  | write buffer => exact inv.write buffer

theorem callbacks (inv : DuplexInv S small duplex) (activity : List Callback)
    (allowed : AllMet Duplex.callback (Duplex.CallbackAllowed S) duplex activity) :
    DuplexInv S small (activity.foldl Duplex.callback duplex) := by
  induction activity generalizing duplex with
  | nil => exact inv
  | cons callback rest ih => exact ih (inv.callback callback allowed.1) allowed.2

/-- Once our EOF block has been produced, all accepted bytes are in blocks. -/
theorem sent (inv : DuplexInv S small duplex) (produced : duplex.EofProduced) (fits : small) :
    sentBytes duplex.moved ++ duplex.session.headContents = duplex.accepted := by
  have sender := inv.sender fits
  have fifo : sentBytes duplex.moved ++ duplex.session.headContents ++
      duplex.session.ringContents = duplex.accepted := sender.fifo
  have empty : duplex.session.ringContents = [] := by
    rcases produced with ⟨sent, member, marked⟩ | ⟨exists_, marked⟩
    · obtain ⟨index, located⟩ := List.mem_iff_getElem?.mp member
      have last : sentBytes (duplex.moved.take (index + 1)) = duplex.accepted :=
        sender.last index sent located marked
      have parts := congrArg sentBytes (List.take_append_drop (index + 1) duplex.moved)
      rw [sentBytes_append, last] at parts
      have lengths := congrArg List.length fifo
      have before := congrArg List.length parts
      simp only [List.length_append] at lengths before
      exact List.eq_nil_of_length_eq_zero (by omega)
    · exact (sender.headLast exists_ marked).2
  rw [empty, List.append_nil] at fifo
  exact fifo

end DuplexInv

/-- In every run without a local close, our EOF block is produced only after a read
has reported the end of the peer's stream; so when the send queue's handler closes
the session, all of the stream has been delivered and all accepted bytes have left the
ring for blocks. -/
theorem passive_close_delivers (S : List UInt8) {session : Session} {duplex : Duplex}
    (fresh : session.Fresh) (unset : session.messager.myFinal = false)
    (reached : Reaches Duplex.next (Duplex.Allowed S) { reader := { session := session } }
      duplex) :
    (duplex.EofProduced → duplex.endReported = true ∧ duplex.reader.delivered = S) ∧
      ∀ activity, AllMet Duplex.callback (Duplex.CallbackAllowed S) duplex activity →
        (duplex.session.callbacks activity).final = true →
        duplex.session.handleProcessSendQueue .success activity =
            (duplex.session.callbacks activity).doClose .success ∧
          (activity.foldl Duplex.callback duplex).endReported = true ∧
          (activity.foldl Duplex.callback duplex).reader.delivered = S ∧
          (duplex.session.callbacks activity).pendingUsed = 0 ∧
          (session.pendingMaximum < 2 ^ 31 →
            sentBytes (activity.foldl Duplex.callback duplex).moved ++
                (duplex.session.callbacks activity).headContents =
              (activity.foldl Duplex.callback duplex).accepted) := by
  have inv : DuplexInv S (session.pendingMaximum < 2 ^ 31) duplex :=
    reached.invariant (DuplexInv.initial S fresh unset) fun _ action inv allowed =>
      inv.next action allowed
  refine ⟨inv.delivered, ?_⟩
  intro activity allowed final
  have after := inv.callbacks activity allowed
  have same := duplex.session_callbacks activity
  have produced : (activity.foldl Duplex.callback duplex).EofProduced := by
    apply after.final
    rw [same]
    simp only [Session.final, Bool.and_eq_true] at final
    exact final.1
  have delivered := after.delivered produced
  refine ⟨?_, delivered.1, delivered.2, ?_, ?_⟩
  · simp [Session.handleProcessSendQueue, final]
  · rw [← same]
    exact after.drained produced
  · intro fits
    rw [← same]
    exact after.sent produced fits

/-- A peer that sends two bytes, and one byte for it. -/
theorem passive_close_delivers_exchange :
    let exchange : List DuplexAction :=
      [.callback (.recvmarkqPut { data := [1, 2], eof := .eofSuccess }), .write ⟨[7], by decide⟩,
        .read ⟨[0, 0, 0], by decide⟩, .callback .sendqHead,
        .callback (.sendqMoveToSendmarkq .id)]
    let duplex := exchange.foldl Duplex.next { reader := { session := { pendingMaximum := 4 } } }
    let activity := [Callback.messager { myFinal := true, theirFinal := true }]
    duplex.session.handleProcessSendQueue .success activity =
        (duplex.session.callbacks activity).doClose .success ∧
      duplex.reader.delivered = [1, 2] ∧ sentBytes duplex.moved = [7] := by
  intro exchange duplex activity
  have slice : SliceOf [1, 2] { data := [1, 2], eof := .eofSuccess } :=
    ⟨by decide, by decide, by decide⟩
  have reached : Reaches Duplex.next (Duplex.Allowed [1, 2])
      { reader := { session := { pendingMaximum := 4 } } } duplex :=
    Reaches.start.schedule _ ⟨slice, trivial, (fun held waits => by cases waits), trivial,
      trivial, trivial⟩
  have produced : duplex.EofProduced :=
    Or.inl ⟨⟨1, { data := [7], eof := .eofSuccess }⟩, by decide, by decide⟩
  have walked := passive_close_delivers [1, 2] (Session.fresh_configured _ _ _) rfl reached
  have closes := walked.2 activity ⟨fun _ => Or.inr produced, trivial⟩ (by decide)
  exact ⟨closes.1, closes.2.2.1, closes.2.2.2.2 (by decide)⟩

end CurvecprAsio
