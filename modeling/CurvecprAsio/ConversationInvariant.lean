import CurvecprAsio.Conversation
import CurvecprAsio.Passive

set_option autoImplicit false

/- What one party's reader is given is what the other party has accepted, in order,
whatever either of them closes and whatever the network does. -/
namespace CurvecprAsio

open Strand Transition SearchTree

/-- The receiving half of a party over the stream `S`. The end of the stream is known
from a local close or from the peer's mark. -/
structure Reading (S : List UInt8) (party : Party) : Prop where
  queued : ∀ element ∈ party.session.recvmarkq, element.block ∈ party.arrived
  filled : party.delivered ++ party.reader.placed =
    S.take party.session.recvmarkqDistributed
  word : party.session.recvmarkqDistributed < 2 ^ 64
  bound : party.session.recvmarkqDistributed ≤ S.length
  room : ∀ held, party.outstanding = some held →
    party.session.recvmarkqReadOffset ≤ held.length
  idle : party.outstanding = none → party.session.recvmarkqReadOffset = 0
  ended : party.session.pendingEof = true → party.session.pendingClose = true ∨
    party.session.recvmarkqDistributed = S.length ∧ ∃ block ∈ party.arrived, block.marked = true

/-- The session of a party that knows of no end. -/
def Party.open_ (party : Party) : Session := { party.session with pendingEof := false }

namespace Reading

variable {S : List UInt8} {party : Party}

theorem initial (S : List UInt8) {session : Session} (fresh : session.Fresh) :
    Reading S { session := session } where
  queued := by
    intro element member
    rw [fresh.recvmarkq] at member
    cases member
  filled := by
    rw [fresh.recvmarkqDistributed]
    rfl
  word := by
    rw [fresh.recvmarkqDistributed]
    decide
  bound := by
    rw [fresh.recvmarkqDistributed]
    exact Nat.zero_le _
  room := by
    intro held outstanding
    cases outstanding
  idle := fun _ => fresh.recvmarkqReadOffset
  ended := by
    intro ended
    rw [fresh.pendingEof] at ended
    cases ended

/-- Changes that leave the receive side alone, but for a local close. -/
theorem same (reading : Reading S party) {later : Party}
    (queue : later.session.recvmarkq = party.session.recvmarkq)
    (cursor : later.session.recvmarkqDistributed = party.session.recvmarkqDistributed ∧
      later.session.recvmarkqReadOffset = party.session.recvmarkqReadOffset)
    (delivered : later.delivered = party.delivered)
    (outstanding : later.outstanding = party.outstanding)
    (arrived : later.arrived = party.arrived)
    (ended : later.session.pendingEof = true → later.session.pendingClose = true ∨
      party.session.pendingEof = true ∧
        later.session.pendingClose = party.session.pendingClose) : Reading S later where
  queued := by
    rw [queue, arrived]
    exact reading.queued
  filled := by
    simp only [Reader.placed, Party.reader, delivered, outstanding, cursor.1, cursor.2]
    exact reading.filled
  word := by
    rw [cursor.1]
    exact reading.word
  bound := by
    rw [cursor.1]
    exact reading.bound
  room := by
    rw [outstanding, cursor.2]
    exact reading.room
  idle := by
    rw [outstanding, cursor.2]
    exact reading.idle
  ended := by
    intro later
    rcases ended later with closed | ⟨before, close⟩
    · exact Or.inl closed
    · rw [close, cursor.1, arrived]
      exact reading.ended before

theorem grow (reading : Reading S party) (tail : List UInt8)
    (unmarked : tail ≠ [] → ∀ block ∈ party.arrived, block.marked = false) :
    Reading (S ++ tail) party :=
  { reading with
    filled := by
      rw [List.take_append_of_le_length reading.bound]
      exact reading.filled
    bound := by
      have bound := reading.bound
      rw [List.length_append]
      omega
    ended := by
      intro ended
      rcases reading.ended ended with closed | ⟨all, block, arrived, marked⟩
      · exact Or.inl closed
      · by_cases more : tail = []
        · rw [more, List.append_nil]
          exact Or.inr ⟨all, block, arrived, marked⟩
        · rw [unmarked more block arrived] at marked
          cases marked }

theorem put (reading : Reading S party) (block : Block) : Reading S (party.put block) := by
  rcases party.session.handleRecvmarkqPut_cases block with
    ⟨refused, full⟩ | ⟨room, queue, strand, stored, perm⟩
  · have still : party.put block = party := by
      simp only [Party.put, Reader.put, Party.reader, refused]
      rfl
    rw [still]
    exact reading
  · have result : party.put block = { party with
        session := { party.session with recvmarkq := queue, strand := strand }
        arrived := block :: party.arrived } := by
      simp only [Party.put, Reader.put, Party.reader, stored, ↓reduceIte]
    rw [result]
    refine ⟨?_, reading.filled, reading.word, reading.bound, reading.room, reading.idle, ?_⟩
    · intro element member
      rcases List.mem_cons.mp (perm.mem_iff.mp member) with rfl | old
      · exact List.mem_cons_self
      · exact List.mem_cons_of_mem _ (reading.queued element old)
    · intro ended
      rcases reading.ended ended with closed | ⟨all, other, arrived, marked⟩
      · exact Or.inl closed
      · exact Or.inr ⟨all, other, List.mem_cons_of_mem _ arrived, marked⟩

theorem removeRange (reading : Reading S party) (start stop : Nat) :
    Reading S (party.onto (party.session.handleRecvmarkqRemoveRange start stop)) := by
  refine ⟨?_, reading.filled, reading.word, reading.bound, reading.room, reading.idle,
    reading.ended⟩
  intro element member
  obtain ⟨old, inQueue, same, _⟩ := Session.mem_handleRecvmarkqRemoveRange member
  rw [same]
  exact reading.queued old inQueue

/-- Before it knows of any end, the reader keeps the invariant of one that is told of
the end by the peer only. -/
theorem opened (reading : Reading S party) (slices : ∀ block ∈ party.arrived, SliceOf S block) :
    ReaderInv S { party.reader with session := party.open_ } where
  slices := fun element member => slices _ (reading.queued element member)
  filled := reading.filled
  word := reading.word
  bound := reading.bound
  ended := by
    intro ended
    cases ended
  room := reading.room
  idle := reading.idle

/-- The loop of a read, as it would go if no end were known. -/
theorem readPass_open (party : Party) (buffer : Buffer) :
    party.session.readPass buffer = ((party.open_.readPass buffer).1,
      (party.open_.readPass buffer).2.ending party.session.pendingEof) := by
  have entry : party.session.readEntry buffer =
      (party.open_.readEntry buffer).ending party.session.pendingEof := by
    simp only [Session.readEntry, ReadPass.ending, Party.open_, Bool.or_false]
  rw [Session.readPass, entry, readLoop_ending]
  rfl

theorem ended_read (reading : Reading S party) (slices : ∀ block ∈ party.arrived, SliceOf S block)
    {buffer : Buffer} (nonempty : buffer.length ≠ 0)
    (retries : ∀ held ∈ party.outstanding, buffer = held)
    (ended : (party.session.readPass buffer).2.pendingEof = true) :
    party.session.pendingClose = true ∨
      (party.session.readPass buffer).2.distributed = S.length ∧
        ∃ block ∈ party.arrived, block.marked = true := by
  obtain ⟨loop, stands⟩ := (reading.opened slices).pass ⟨nonempty, retries⟩
  have grows : party.session.recvmarkqDistributed ≤
      (party.open_.readPass buffer).2.distributed := loop.grows
  have bound : (party.open_.readPass buffer).2.distributed ≤ S.length := stands.bound
  rw [readPass_open] at ended ⊢
  simp only [ReadPass.ending, Bool.or_eq_true] at ended ⊢
  rcases ended with known | marked
  · rcases reading.ended known with closed | ⟨all, block⟩
    · exact Or.inl closed
    · exact Or.inr ⟨by omega, block⟩
  · right
    refine ⟨stands.ended marked, ?_⟩
    rcases loop.eof marked with known | ⟨element, member, isMarked⟩
    · cases known
    · exact ⟨element.block, reading.queued element member, isMarked⟩

theorem readEmpty (reading : Reading S party) {buffer : Buffer} (empty : buffer.length = 0)
    (retries : ∀ held ∈ party.outstanding, buffer = held) : Reading S (party.read buffer) := by
  have nothing : party.reader.placed = [] := by
    cases holding : party.outstanding with
    | none => simp only [Reader.placed, Party.reader, holding, Option.elim_none]
    | some held =>
        have bytes : held.bytes = [] := by
          rw [← retries held holding]
          exact List.eq_nil_of_length_eq_zero empty
        simp only [Reader.placed, Party.reader, holding, Option.elim_some, bytes, List.take_nil]
  have filled := reading.filled
  rw [nothing, List.append_nil] at filled
  have result : party.read buffer = { party with
      session := { party.session with recvmarkqReadOffset := 0 }, outstanding := none } := by
    simp [Party.read, Reader.read, Party.reader, Session.read, empty]
  rw [result]
  refine ⟨reading.queued, ?_, reading.word, reading.bound, ?_, fun _ => rfl, reading.ended⟩
  · simpa only [Reader.placed, Party.reader, Option.elim_none, List.append_nil] using filled
  · intro held outstanding
    cases outstanding

theorem read (reading : Reading S party) (slices : ∀ block ∈ party.arrived, SliceOf S block)
    {buffer : Buffer} (retries : ∀ held ∈ party.outstanding, buffer = held) :
    Reading S (party.read buffer) := by
  by_cases empty : buffer.length = 0
  · exact reading.readEmpty empty retries
  · obtain ⟨loop, stands⟩ := (reading.opened slices).pass ⟨empty, retries⟩
    have spec := party.session.read_spec empty
    have opened := readPass_open party buffer
    have cursor : (party.session.read buffer).session.recvmarkqDistributed =
        (party.open_.readPass buffer).2.distributed := by
      rw [spec.distributed, opened]
      rfl
    have offset : (party.session.readPass buffer).2.readOffset =
        (party.open_.readPass buffer).2.readOffset := by
      rw [opened]
      rfl
    have bytes : (party.session.read buffer).buffer =
        (party.open_.readPass buffer).2.buffer := by
      rw [spec.held, opened]
      rfl
    have queued : ∀ element ∈ (party.session.read buffer).session.recvmarkq,
        element.block ∈ party.arrived := by
      intro element member
      rw [spec.queue, opened] at member
      obtain ⟨old, inQueue, same, _⟩ := loop.kept element member
      rw [same]
      exact reading.queued old inQueue
    have ended : (party.session.read buffer).session.pendingEof = true →
        (party.session.read buffer).session.pendingClose = true ∨
          (party.session.read buffer).session.recvmarkqDistributed = S.length ∧
            ∃ block ∈ party.arrived, block.marked = true := by
      obtain ⟨_, _, _, _, _, changed⟩ := party.session.read_changes buffer
      rw [spec.pendingEof, spec.distributed,
        show (party.session.read buffer).session.pendingClose = party.session.pendingClose by
          rw [changed]]
      exact reading.ended_read slices empty retries
    have filled := stands.filled
    have bound := stands.bound
    have word := loop.safe.word
    rw [← cursor] at filled bound word
    cases done : (party.session.read buffer).done with
    | true =>
        obtain ⟨idle, transferred⟩ := spec.finished done
        refine ⟨queued, ?_, word, bound, ?_, fun _ => idle, ended⟩
        · simpa only [Party.read, Reader.read, Reader.placed, Party.reader, done, ↓reduceIte,
            Option.elim_none, List.append_nil, transferred, offset, bytes] using filled
        · intro held outstanding
          simp [Party.read, Reader.read, Party.reader, done] at outstanding
    | false =>
        have waits := spec.waits done
        refine ⟨queued, ?_, word, bound, ?_, ?_, ended⟩
        · simpa only [Party.read, Reader.read, Reader.placed, Party.reader, done,
            Bool.false_eq_true, ↓reduceIte, Option.elim_some, waits, offset, bytes] using filled
        · intro held outstanding
          simp only [Party.read, Reader.read, Party.reader, done, Bool.false_eq_true, ↓reduceIte,
            Option.some.injEq] at outstanding
          simp only [Party.read, Reader.read, Party.reader, waits, offset, ← outstanding, bytes]
          exact loop.safe.room
        · intro outstanding
          simp [Party.read, Reader.read, Party.reader, done] at outstanding

theorem callback (reading : Reading S party) (callback : Callback) :
    Reading S (party.callback callback) := by
  have spared := party.session.spared_callback callback
  rcases party.session.receiveState_callback callback with
    ⟨block, rfl⟩ | ⟨start, stop, rfl⟩ | same
  · exact reading.put block
  · exact reading.removeRange start stop
  · have session := party.session_callback callback
    have ended := Session.pendingEof_of_receiveState same
    simp only [Session.receiveState, Prod.mk.injEq] at same
    have records : (party.callback callback).delivered = party.delivered ∧
        (party.callback callback).outstanding = party.outstanding ∧
        ((party.callback callback).arrived = party.arrived ∨
          ∃ block, callback = .recvmarkqPut block) := by
      cases callback with
      | recvmarkqPut block => exact ⟨rfl, rfl, Or.inr ⟨block, rfl⟩⟩
      | _ => exact ⟨rfl, rfl, Or.inl rfl⟩
    rcases records with ⟨delivered, outstanding, arrived | ⟨block, rfl⟩⟩
    · apply reading.same _ _ delivered outstanding arrived
      · rw [session, ended, spared.pendingClose]
        exact fun known => Or.inr ⟨known, rfl⟩
      · rw [session, same.1]
      · rw [session, same.2.2.1, same.2.2.2.1]
        exact ⟨rfl, rfl⟩
    · exact reading.put block

theorem next (reading : Reading S party) (slices : ∀ block ∈ party.arrived, SliceOf S block)
    {peerWire : List Block} (action : PartyAction) (allowed : party.Allowed peerWire action) :
    Reading S (party.next action) ∨ action = .doClose := by
  cases action with
  | runs => exact Or.inl (reading.same rfl ⟨rfl, rfl⟩ rfl rfl rfl fun ended => Or.inr ⟨ended, rfl⟩)
  | strand queue calls =>
      exact Or.inl (reading.same rfl ⟨rfl, rfl⟩ rfl rfl rfl fun ended => Or.inr ⟨ended, rfl⟩)
  | callback callback => exact Or.inl (reading.callback callback)
  | write buffer =>
      have receive := party.session.receiveState_write buffer
      obtain ⟨pending, next, used, strand, changed⟩ := party.session.write_changes buffer
      left
      simp only [Party.next, Party.write, Sender.write, Party.sender, changed]
      exact reading.same rfl ⟨rfl, rfl⟩ rfl rfl rfl fun ended => Or.inr ⟨ended, rfl⟩
  | read buffer => exact Or.inl (reading.read slices allowed.retries)
  | closing => exact Or.inl (reading.same rfl ⟨rfl, rfl⟩ rfl rfl rfl fun _ => Or.inl rfl)
  | doClose => exact Or.inr rfl

theorem delivered (reading : Reading S party) : party.delivered <+: S := by
  have filled := reading.filled
  exact (List.prefix_append _ _).trans (filled ▸ List.take_prefix _ _)

theorem complete (reading : Reading S party) (known : party.session.pendingEof = true)
    (unclosed : party.session.pendingClose = false) (idle : party.outstanding = none) :
    party.delivered = S ∧ ∃ block ∈ party.arrived, block.marked = true := by
  rcases reading.ended known with closed | ⟨all, block⟩
  · rw [unclosed] at closed
    cases closed
  · have filled := reading.filled
    rw [Reader.placed, show party.reader.outstanding = none from idle, Option.elim_none,
      List.append_nil, all, List.take_length] at filled
    exact ⟨filled, block⟩

end Reading

theorem Reader.mem_arrived_put (reader : Reader) {block other : Block}
    (member : other ∈ (reader.put block).arrived) : other = block ∨ other ∈ reader.arrived := by
  simp only [Reader.put] at member
  split at member
  · exact List.mem_cons.mp member
  · exact Or.inr member

namespace Party

variable {party : Party}

theorem accepted_next (party : Party) (action : PartyAction) :
    ∃ tail, (party.next action).accepted = party.accepted ++ tail ∧
      (tail ≠ [] → party.session.pendingEof = false) := by
  have same : ∃ tail, party.accepted = party.accepted ++ tail ∧
      (tail ≠ [] → party.session.pendingEof = false) :=
    ⟨[], (List.append_nil _).symm, fun more => absurd rfl more⟩
  cases action with
  | write buffer =>
      by_cases reported : 0 < (party.session.write buffer).bytesTransferred
      · refine ⟨buffer.bytes, if_pos reported, fun _ => ?_⟩
        cases ended : party.session.pendingEof with
        | false => rfl
        | true =>
            simp only [Session.write, ended, ↓reduceIte] at reported
            split at reported <;> exact absurd reported (Nat.lt_irrefl 0)
      · refine ⟨[], ?_, fun more => absurd rfl more⟩
        rw [List.append_nil]
        exact if_neg reported
  | callback callback => cases callback <;> exact same
  | _ => exact same

theorem wire_next (party : Party) (action : PartyAction) :
    ∀ block ∈ party.wire, block ∈ (party.next action).wire := by
  intro block member
  cases action with
  | callback callback =>
      cases callback with
      | stampHead id clock offset => exact List.mem_cons_of_mem _ member
      | resend balance pointer id clock => exact List.mem_append_right _ member
      | _ => exact member
  | _ => exact member

theorem arrived_next {peerWire : List Block} (action : PartyAction)
    (allowed : party.Allowed peerWire action) (old : ∀ block ∈ party.arrived, block ∈ peerWire) :
    ∀ block ∈ (party.next action).arrived, block ∈ peerWire := by
  cases action with
  | callback callback =>
      cases callback with
      | recvmarkqPut block =>
          intro other member
          rcases party.reader.mem_arrived_put member with rfl | before
          · exact allowed.serves
          · exact old other before
      | _ => exact old
  | _ => exact old

theorem finished_next (party : Party) (action : PartyAction) :
    (party.next action).finished = party.finished ∨ action = .doClose := by
  cases action with
  | callback callback => cases callback <;> exact Or.inl rfl
  | doClose => exact Or.inr rfl
  | _ => exact Or.inl rfl

theorem pendingEof_next (party : Party) (action : PartyAction)
    (ended : party.session.pendingEof = true) :
    (party.next action).session.pendingEof = true ∨ action = .doClose := by
  cases action with
  | runs => exact Or.inl ended
  | strand queue calls => exact Or.inl ended
  | callback callback =>
      left
      rw [Party.next, session_callback]
      exact (party.session.spared_callback callback).pendingEof.trans ended
  | write buffer =>
      have same := Session.pendingEof_of_receiveState (party.session.receiveState_write buffer)
      exact Or.inl (same.trans ended)
  | read buffer => exact Or.inl (party.session.pendingEof_read buffer ended)
  | closing => exact Or.inl rfl
  | doClose => exact Or.inr rfl

theorem shut_next (party : Party) (action : PartyAction) (shut : party.shut = true) :
    (party.next action).shut = true := by
  simp only [Party.shut, Bool.or_eq_true] at shut ⊢
  rcases party.finished_next action with same | rfl
  · rcases shut with finished | ended
    · exact Or.inl (same.trans finished)
    · rcases party.pendingEof_next action ended with stays | rfl
      · exact Or.inr stays
      · exact Or.inl rfl
  · exact Or.inl rfl

/-- The channel from one party to the reader of the other. -/
def channelTo (party peer : Party) : Channel.State UInt8 where
  written := party.accepted
  taken := peer.delivered
  shut := party.shut
  told := peer.heard

end Party

/-- What one party sends to the other. -/
structure Carries (party peer : Party) : Prop where
  half : party.finished = false → LinkInv (2 ^ 31) party.half
  slices : ∀ block ∈ party.wire, SliceOf party.accepted block
  marks : ∀ block ∈ party.wire, block.marked = true → party.shut = true
  arrived : ∀ block ∈ peer.arrived, block ∈ party.wire
  reading : peer.finished = false → Reading party.accepted peer

namespace Carries

variable {party peer : Party}

theorem initial {session other : Session} (fresh : session.Fresh) (freshOther : other.Fresh)
    (small : session.pendingMaximum < 2 ^ 31) :
    Carries { session := session } { session := other } where
  half := fun _ => LinkInv.initial _ fresh (Session.fresh_configured _ _ _) small
  slices := by
    intro block member
    cases member
  marks := by
    intro block member
    cases member
  arrived := by
    intro block member
    cases member
  reading := fun _ => Reading.initial [] freshOther

theorem sends (carries : Carries party peer) {peerWire : List Block} (action : PartyAction)
    (allowed : party.Allowed peerWire action) : Carries (party.next action) peer := by
  have half := carries.half allowed.takesPart
  obtain ⟨tail, accepted, open_⟩ := party.accepted_next action
  have grown : peer.finished = false → Reading (party.next action).accepted peer := by
    intro takesPart
    rw [accepted]
    apply (carries.reading takesPart).grow
    intro more block arrived
    cases marked : block.marked with
    | false => rfl
    | true =>
        have shut := carries.marks block (carries.arrived block arrived) marked
        simp only [Party.shut, allowed.takesPart, open_ more, Bool.or_false, Bool.false_eq_true] at shut
  have arrived : ∀ block ∈ peer.arrived, block ∈ (party.next action).wire :=
    fun block member => party.wire_next action block (carries.arrived block member)
  rcases Party.half_next half action allowed with after | rfl
  · refine ⟨fun _ => after, fun block member => after.slice (after.wire block member), ?_, arrived,
      grown⟩
    intro block member marked
    cases ended : (party.next action).session.pendingEof with
    | true => simp only [Party.shut, ended, Bool.or_true]
    | false =>
        rw [after.unmarked ended (after.wire block member)] at marked
        cases marked
  · refine ⟨?_, carries.slices, fun _ _ _ => rfl, arrived, grown⟩
    intro takesPart
    cases takesPart

theorem receives (carries : Carries party peer) (action : PartyAction)
    (allowed : peer.Allowed party.wire action) : Carries party (peer.next action) where
  half := carries.half
  slices := carries.slices
  marks := carries.marks
  arrived := Party.arrived_next action allowed carries.arrived
  reading := by
    intro takesPart
    have slices : ∀ block ∈ peer.arrived, SliceOf party.accepted block :=
      fun block member => carries.slices block (carries.arrived block member)
    rcases (carries.reading allowed.takesPart).next slices action allowed with after | rfl
    · exact after
    · cases takesPart

theorem follows_sends (peer : Party) {peerWire : List Block}
    (action : PartyAction) (allowed : party.Allowed peerWire action) :
    Channel.Follows (party.channelTo peer) ((party.next action).channelTo peer) := by
  obtain ⟨tail, accepted, open_⟩ := party.accepted_next action
  have after : (party.next action).channelTo peer = { party.channelTo peer with
      written := party.accepted ++ tail, shut := (party.next action).shut } := by
    simp only [Party.channelTo, accepted]
  rw [after]
  apply Channel.follows_write (party.channelTo peer) _ (party.shut_next action)
  intro more
  simp only [Party.channelTo, Party.shut, allowed.takesPart, open_ more, Bool.or_false]

/-- A read that reports the end before a local close has given the reader everything. -/
theorem told (carries : Carries party peer) {buffer : Buffer}
    (allowed : peer.Allowed party.wire (.read buffer))
    (reports : (peer.session.read buffer).ec = .eof)
    (unclosed : peer.session.pendingClose = false) :
    party.shut = true ∧ (peer.read buffer).delivered = party.accepted := by
  have nonempty : buffer.length ≠ 0 := by
    intro empty
    simp [Session.read, empty] at reports
  have after := carries.receives (.read buffer) allowed
  have spec := peer.session.read_spec nonempty
  obtain ⟨done, ended⟩ := spec.eof reports
  have close : (peer.read buffer).session.pendingClose = false := by
    obtain ⟨_, _, _, _, _, changed⟩ := peer.session.read_changes buffer
    simp only [Party.read, Reader.read, Party.reader, changed, unclosed]
  have idle : (peer.read buffer).outstanding = none := by
    simp only [Party.read, Reader.read, Party.reader, done, ↓reduceIte]
  obtain ⟨all, block, arrived, marked⟩ := (after.reading allowed.takesPart).complete
    (spec.pendingEof.trans ended) close idle
  exact ⟨after.marks block (after.arrived block arrived) marked, all⟩

theorem follows_receives (carries : Carries party peer) (action : PartyAction)
    (allowed : peer.Allowed party.wire action) :
    Channel.Follows (party.channelTo peer) (party.channelTo (peer.next action)) := by
  cases action with
  | read buffer =>
      have after := carries.receives (.read buffer) allowed
      have behind : peer.delivered <+: (peer.read buffer).delivered := by
        cases done : (peer.session.read buffer).done with
        | true =>
            simp only [Party.read, Reader.read, Party.reader, done, ↓reduceIte]
            exact List.prefix_append _ _
        | false =>
            simp only [Party.read, Reader.read, Party.reader, done, Bool.false_eq_true, ↓reduceIte]
            exact List.prefix_rfl
      apply Channel.follows_take (party.channelTo peer) behind
        (after.reading allowed.takesPart).delivered
      · intro heard
        have before : peer.heard = true := heard
        simp only [Party.next, Party.read, before, Bool.true_or]
      · intro heard
        simp only [Party.next, Party.read, Bool.or_eq_true, Bool.and_eq_true, decide_eq_true_eq,
          Bool.not_eq_true'] at heard
        rcases heard with before | ⟨reports, unclosed⟩
        · exact Or.inl before
        · exact Or.inr (carries.told allowed reports unclosed)
  | callback callback => cases callback <;> exact .start
  | _ => exact .start

end Carries

/-- The channel that one side writes to. -/
def Conversation.channel (conversation : Conversation) (side : Side) : Channel.State UInt8 :=
  (conversation.party side).channelTo (conversation.party side.other)

/-- What holds between the two parties, both ways. -/
def ConversationInv (conversation : Conversation) : Prop :=
  ∀ side, Carries (conversation.party side) (conversation.party side.other)

namespace ConversationInv

variable {conversation : Conversation}

theorem initial {near far : Session} (freshNear : near.Fresh) (freshFar : far.Fresh)
    (smallNear : near.pendingMaximum < 2 ^ 31) (smallFar : far.pendingMaximum < 2 ^ 31) :
    ConversationInv (.between near far) := by
  intro side
  cases side with
  | near => exact Carries.initial freshNear freshFar smallNear
  | far => exact Carries.initial freshFar freshNear smallFar

/-- One step, for the direction in which the side that takes it sends and for the one in
which it receives. -/
theorem step (inv : ConversationInv conversation) (action : Side × PartyAction)
    (allowed : conversation.Allowed action) (side : Side) :
    Carries ((conversation.next action).party side) ((conversation.next action).party side.other) ∧
      Channel.Follows (conversation.channel side) ((conversation.next action).channel side) := by
  obtain ⟨acting, action⟩ := action
  have carries := inv side
  rcases side.eq_or acting with rfl | rfl
  · simp only [Conversation.channel, Conversation.party_next, Conversation.party_next_other]
    exact ⟨carries.sends action allowed, Carries.follows_sends _ action allowed⟩
  · simp only [Conversation.channel, Side.other_other, Conversation.party_next,
      Conversation.party_next_other] at carries ⊢
    exact ⟨carries.receives action allowed, carries.follows_receives action allowed⟩

theorem run {start : Conversation} (inv : ConversationInv start)
    (reached : Reaches Conversation.next Conversation.Allowed start conversation) (side : Side) :
    ConversationInv conversation ∧
      Channel.Follows (start.channel side) (conversation.channel side) :=
  reached.simulates ConversationInv (fun state => state.channel side) inv
    fun _ action inv allowed =>
      ⟨fun other => (inv.step action allowed other).1, (inv.step action allowed side).2⟩

end ConversationInv

/-- A conversation is two channels: whatever the sessions and the network do, each
direction only ever takes the steps of a channel. -/
theorem conversation_refines_channels {near far : Session} {conversation : Conversation}
    (freshNear : near.Fresh) (freshFar : far.Fresh) (smallNear : near.pendingMaximum < 2 ^ 31)
    (smallFar : far.pendingMaximum < 2 ^ 31)
    (reached : Reaches Conversation.next Conversation.Allowed (.between near far) conversation)
    (side : Side) :
    Channel.Follows ((Conversation.between near far).channel side) (conversation.channel side) :=
  ((ConversationInv.initial freshNear freshFar smallNear smallFar).run reached side).2

/-- Two bytes one way and one the other way; the block with the two is lost once. -/
theorem conversation_refines_channels_exchange :
    let start := Conversation.between { pendingMaximum := 4 } { pendingMaximum := 4 }
    let exchange : List (Side × PartyAction) :=
      [(.near, .write ⟨[1, 2], by decide⟩), (.near, .callback .sendqHead),
        (.near, .callback (.stampHead 1 1 0)), (.near, .callback (.sendqMoveToSendmarkq .id)),
        (.far, .write ⟨[7], by decide⟩), (.far, .callback .sendqHead),
        (.far, .callback (.stampHead 1 1 0)),
        (.near, .callback (.recvmarkqPut { id := 1, clock := 1, data := [7] })),
        (.near, .read ⟨[0], by decide⟩), (.near, .callback (.resend .id 1 2 2)),
        (.far, .callback (.recvmarkqPut { id := 2, clock := 2, data := [1, 2] })),
        (.far, .read ⟨[0, 0], by decide⟩)]
    let conversation := exchange.foldl Conversation.next start
    Channel.Follows (start.channel .near) (conversation.channel .near) ∧
      Channel.Follows (start.channel .far) (conversation.channel .far) ∧
      conversation.far.delivered = [1, 2] ∧ conversation.near.delivered = [7] := by
  intro start exchange conversation
  have reached : Reaches Conversation.next Conversation.Allowed start conversation :=
    Reaches.start.schedule _ (by decide)
  have refines := conversation_refines_channels (Session.fresh_configured _ _ _)
    (Session.fresh_configured _ _ _) (by decide) (by decide) reached
  exact ⟨refines .near, refines .far, by decide⟩

theorem Conversation.channel_between {near far : Session} (freshNear : near.Fresh)
    (freshFar : far.Fresh) (side : Side) : (Conversation.between near far).channel side = {} := by
  cases side with
  | near => simp [channel, party, between, Party.channelTo, Party.shut, freshNear.pendingEof,
      Side.other]
  | far => simp [channel, party, between, Party.channelTo, Party.shut, freshFar.pendingEof,
      Side.other]

/-- Between any two times of a conversation nothing that was delivered is taken back, what
is delivered is a beginning of what the peer has accepted, and once a reader has been told
the end it has been given everything and nothing more is accepted or delivered. -/
theorem conversation_end_is_final {near far : Session} {conversation later : Conversation}
    (freshNear : near.Fresh) (freshFar : far.Fresh) (smallNear : near.pendingMaximum < 2 ^ 31)
    (smallFar : far.pendingMaximum < 2 ^ 31)
    (reached : Reaches Conversation.next Conversation.Allowed (.between near far) conversation)
    (after : Reaches Conversation.next Conversation.Allowed conversation later) (side : Side) :
    (conversation.party side.other).delivered <+: (later.party side.other).delivered ∧
      (later.party side.other).delivered <+: (later.party side).accepted ∧
      ((conversation.party side.other).heard = true →
        (later.party side).accepted = (conversation.party side).accepted ∧
          (later.party side.other).delivered = (conversation.party side).accepted) := by
  obtain ⟨inv, begun⟩ :=
    (ConversationInv.initial freshNear freshFar smallNear smallFar).run reached side
  have walked := (inv.run after side).2
  rw [Conversation.channel_between freshNear freshFar] at begun
  have stands := Channel.Inv.initial.follows begun
  have ends := stands.follows walked
  refine ⟨(walked.grows stands).1, ends.taken, ?_⟩
  intro heard
  have shut := (stands.told heard).1
  have same : (later.party side).accepted = (conversation.party side).accepted :=
    (walked.stays.1 shut).2
  have all : (later.party side.other).delivered = (later.party side).accepted :=
    (ends.told (walked.stays.2 heard)).2
  exact ⟨same, all.trans same⟩

/-- The end is read behind three bytes; the peer's late write is refused. -/
theorem conversation_end_is_final_exchange :
    let start := Conversation.between { pendingMaximum := 4 } { pendingMaximum := 4 }
    let exchange : List (Side × PartyAction) :=
      [(.near, .write ⟨[1, 2, 3], by decide⟩), (.near, .closing), (.near, .callback .sendqHead),
        (.near, .callback (.stampHead 1 1 0)), (.near, .callback (.sendqMoveToSendmarkq .id)),
        (.far, .callback (.recvmarkqPut
          { id := 1, clock := 1, eof := .eofSuccess, data := [1, 2, 3] })),
        (.far, .read ⟨[0, 0, 0, 0], by decide⟩)]
    let conversation := exchange.foldl Conversation.next start
    let later := conversation.next (.near, .write ⟨[4], by decide⟩)
    later.near.accepted = [1, 2, 3] ∧ later.far.delivered = [1, 2, 3] := by
  intro start exchange conversation later
  have reached : Reaches Conversation.next Conversation.Allowed start conversation :=
    Reaches.start.schedule _ (by decide)
  have after : Reaches Conversation.next Conversation.Allowed conversation later :=
    Reaches.act .start (by decide)
  have final := conversation_end_is_final (Session.fresh_configured _ _ _)
    (Session.fresh_configured _ _ _) (by decide) (by decide) reached after .near
  have told := final.2.2 (by decide)
  have accepted : conversation.near.accepted = [1, 2, 3] := by decide
  exact ⟨told.1.trans accepted, told.2.trans accepted⟩

end CurvecprAsio
