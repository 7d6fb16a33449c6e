import CurvecprAsio.LinkInvariant

set_option autoImplicit false

/- A gap in the received stream: whether `recvmarkq_` can fill up with blocks
that only a missing one could set free. -/
namespace CurvecprAsio

open Transition

namespace Reader

abbrev maximum (reader : Reader) : Nat := reader.session.recvmarkqMaximum

/-- The queue is full, and the reader can use none of its blocks. -/
def Stuck (reader : Reader) : Prop :=
  reader.maximum ≤ reader.session.recvmarkq.length ∧
    ∀ element ∈ reader.session.recvmarkq,
      reader.session.recvmarkqDistributed < element.block.offset

/-- The accepted blocks that start beyond the cursor, each as often as it was
accepted, whether acknowledged or not. -/
def ahead (reader : Reader) : Nat :=
  reader.arrived.countP fun block => reader.session.recvmarkqDistributed < block.offset

/-- While the cursor stands, fewer than `recvmarkq_maximum_` blocks are accepted
beyond it. -/
def FewAhead (reader : Reader) (block : Block) : Prop :=
  reader.session.recvmarkq.length < reader.maximum →
    reader.session.recvmarkqDistributed < block.offset → reader.ahead + 1 < reader.maximum

/-- B is not stuck, and a block with the next byte is refused only while the reader
can use a queued one. -/
def KeepsRoom (reader : Reader) : Prop :=
  ¬ reader.Stuck ∧ ∀ block : Block, block.Covers reader.session.recvmarkqDistributed →
    (reader.session.handleRecvmarkqPut block).ret = -1 →
      ∃ element ∈ reader.session.recvmarkq,
        element.block.offset ≤ reader.session.recvmarkqDistributed

instance (reader : Reader) : Decidable reader.Stuck :=
  inferInstanceAs (Decidable (_ ∧ ∀ element ∈ reader.session.recvmarkq, _))

instance (reader : Reader) (block : Block) : Decidable (reader.FewAhead block) :=
  inferInstanceAs (Decidable (_ → _ → _))

end Reader

/-- What the peer may get accepted at B. -/
def Link.fewAhead (link : Link) : LinkAction → Guard
  | .deliver block => .of (link.b.FewAhead block)
  | _ => .free

abbrev Link.FewAhead (link : Link) (action : LinkAction) : Prop := (link.fewAhead action).holds

def Link.KeepsRoom (link : Link) : Prop := link.b.KeepsRoom

/-- A full queue holds a block that the reader can use. -/
structure RoomInv (reader : Reader) : Prop where
  within : reader.session.recvmarkq.length ≤ reader.maximum
  usable : reader.maximum ≤ reader.session.recvmarkq.length →
    ∃ element ∈ reader.session.recvmarkq,
      element.block.offset ≤ reader.session.recvmarkqDistributed

namespace RoomInv

variable {reader : Reader}

/-- Steps that only take blocks out of the queue and move the cursor on. -/
theorem shrink (inv : RoomInv reader) {later : Reader}
    (maximum : later.maximum = reader.maximum)
    (sublist : (later.session.recvmarkq.map BlockStatus.block).Sublist
      (reader.session.recvmarkq.map BlockStatus.block))
    (further : reader.session.recvmarkqDistributed ≤ later.session.recvmarkqDistributed) :
    RoomInv later := by
  have within := inv.within
  have fewer := sublist.length_le
  rw [List.length_map, List.length_map] at fewer
  constructor
  · omega
  · intro full
    obtain ⟨element, queued, low⟩ := inv.usable (by omega)
    have same := sublist.eq_of_length (by rw [List.length_map, List.length_map]; omega)
    have member : element.block ∈ later.session.recvmarkq.map BlockStatus.block := by
      rw [same]
      exact List.mem_map_of_mem queued
    obtain ⟨kept, inQueue, isBlock⟩ := List.mem_map.mp member
    exact ⟨kept, inQueue, by rw [isBlock]; exact Nat.le_trans low further⟩

/-- A block may take the last slot when the reader can use it, or one that is queued. -/
theorem put (inv : RoomInv reader) {block : Block}
    (keeps : reader.session.recvmarkq.length + 1 = reader.maximum →
      block.offset ≤ reader.session.recvmarkqDistributed ∨
        ∃ element ∈ reader.session.recvmarkq,
          element.block.offset ≤ reader.session.recvmarkqDistributed) :
    RoomInv (reader.put block) := by
  rcases reader.session.handleRecvmarkqPut_cases block with
    ⟨refused, full⟩ | ⟨room, queue, strand, stored, perm⟩
  · simp only [Reader.put, refused]
    exact inv
  · have length := perm.length_eq
    rw [List.length_cons] at length
    simp only [Reader.put, stored]
    constructor
    · change queue.length ≤ reader.maximum
      simp only [Reader.maximum]
      omega
    · intro full
      change reader.maximum ≤ queue.length at full
      simp only [Reader.maximum] at full
      rcases keeps (by simp only [Reader.maximum]; omega) with low | ⟨element, queued, low⟩
      · exact ⟨_, perm.mem_iff.mpr List.mem_cons_self, low⟩
      · exact ⟨element, perm.mem_iff.mpr (List.mem_cons_of_mem _ queued), low⟩

theorem removeRange (inv : RoomInv reader) (start stop : Nat) :
    RoomInv (reader.removeRange start stop) :=
  inv.shrink rfl (acknowledge_sublist start stop _) (Nat.le_refl _)

theorem read {S : List UInt8} (inv : RoomInv reader) (base : ReaderInv S reader)
    {buffer : Buffer} (retries : reader.Retries buffer) : RoomInv (reader.read buffer) := by
  obtain ⟨loop, _⟩ := base.pass retries
  have spec := reader.session.read_spec retries.1
  apply inv.shrink
  · simp only [Reader.maximum, Reader.read]
    exact reader.session.recvmarkqMaximum_read buffer
  · simp only [Reader.read, spec.queue]
    exact readLoop_sublist _ _
  · simp only [Reader.read, spec.distributed]
    exact loop.grows

theorem iff_not_stuck (within : reader.session.recvmarkq.length ≤ reader.maximum) :
    RoomInv reader ↔ ¬ reader.Stuck := by
  constructor
  · intro inv ⟨full, beyond⟩
    obtain ⟨element, queued, low⟩ := inv.usable full
    have high := beyond element queued
    omega
  · intro open_
    refine ⟨within, fun full => ?_⟩
    by_contra none_
    simp only [not_exists, not_and, Nat.not_le] at none_
    exact open_ ⟨full, none_⟩

theorem keepsRoom (inv : RoomInv reader) : reader.KeepsRoom := by
  refine ⟨(iff_not_stuck inv.within).mp inv, ?_⟩
  intro block covers refused
  apply inv.usable
  rcases reader.session.handleRecvmarkqPut_cases block with
    ⟨_, full⟩ | ⟨_, queue, strand, stored, _⟩
  · exact full
  · rw [stored] at refused
    cases refused

end RoomInv

/-- A read takes no block out of the queue that starts beyond where it stops. -/
theorem readLoop_countP (queue : List BlockStatus) (pass : ReadPass) (safe : PassSafe pass)
    {position : Nat} (passed : (readLoop queue pass).2.distributed ≤ position) :
    (readLoop queue pass).1.countP (fun element => position < element.block.offset) =
      queue.countP fun element => position < element.block.offset := by
  induction queue generalizing pass with
  | nil => rfl
  | cons element rest ih =>
      simp only [readLoop] at passed ⊢
      by_cases reached : element.block.offset ≤ pass.distributed
      · rw [if_pos reached] at passed ⊢
        by_cases stops : (pass.consume element.block).2 = true
        · rw [if_pos stops]
        · rw [if_neg stops] at passed ⊢
          obtain ⟨stays, moved, _⟩ := safe.consume reached
          have safer : PassSafe ((pass.consume element.block).1.distribute element.block) :=
            stays.distribute
          have onward := readLoop_spec rest _ safer
          have begins : ¬ position < element.block.offset := by
            have first := moved.grows
            have second : (pass.consume element.block).1.distributed ≤ _ := onward.grows
            dsimp only at passed
            omega
          have others := ih _ safer passed
          rw [List.countP_cons_of_neg (by simpa using begins), ← others]
          split
          · rfl
          · rw [List.countP_cons_of_neg (by simpa using begins)]
      · rw [if_neg reached]

/-- An acknowledgement takes no block out of the queue that was not distributed. -/
theorem acknowledge_countP (start stop : Nat) (queue : List BlockStatus) {position : Nat}
    (begun : ∀ element ∈ queue, element.distributed = true → element.block.offset ≤ position) :
    (queue.filterMap (Session.acknowledge start stop)).countP
        (fun element => position < element.block.offset) =
      queue.countP fun element => position < element.block.offset := by
  induction queue with
  | nil => rfl
  | cons element rest ih =>
      have others := ih fun other member => begun other (List.mem_cons_of_mem _ member)
      cases stays : Session.acknowledge start stop element with
      | none =>
          have begins := begun element List.mem_cons_self (Session.acknowledge_gone stays)
          rw [List.filterMap_cons_none stays, others, List.countP_cons_of_neg]
          simpa using begins
      | some kept =>
          have same := (Session.acknowledge_kept stays).1
          rw [List.filterMap_cons_some stays, List.countP_cons, List.countP_cons, others, same]

/-- Of the accepted blocks, those beyond the cursor are queued. -/
structure AheadInv (reader : Reader) : Prop where
  within : reader.session.recvmarkq.length ≤ reader.maximum
  queued : ∀ position, reader.session.recvmarkqDistributed ≤ position →
    reader.arrived.countP (fun block => position < block.offset) =
      reader.session.recvmarkq.countP fun element => position < element.block.offset

namespace AheadInv

variable {S : List UInt8} {reader : Reader}

theorem put (inv : AheadInv reader) (block : Block) : AheadInv (reader.put block) := by
  rcases reader.session.handleRecvmarkqPut_cases block with
    ⟨refused, full⟩ | ⟨room, queue, strand, stored, perm⟩
  · simp only [Reader.put, refused]
    exact inv
  · have length := perm.length_eq
    rw [List.length_cons] at length
    simp only [Reader.put, stored, ↓reduceIte]
    constructor
    · change queue.length ≤ reader.maximum
      simp only [Reader.maximum]
      omega
    · intro position behind
      have before := inv.queued position behind
      change (block :: reader.arrived).countP _ = queue.countP _
      rw [perm.countP_eq, List.countP_cons, List.countP_cons, before]

theorem removeRange (inv : AheadInv reader)
    (begun : ∀ element ∈ reader.session.recvmarkq, element.distributed = true →
      element.block.offset ≤ reader.session.recvmarkqDistributed) (start stop : Nat) :
    AheadInv (reader.removeRange start stop) := by
  constructor
  · have fewer := (acknowledge_sublist start stop reader.session.recvmarkq).length_le
    rw [List.length_map, List.length_map] at fewer
    exact Nat.le_trans fewer inv.within
  · intro position behind
    have kept := acknowledge_countP start stop reader.session.recvmarkq
      fun element member marked => Nat.le_trans (begun element member marked) behind
    exact (inv.queued position behind).trans kept.symm

theorem read (inv : AheadInv reader) (base : ReaderInv S reader) {buffer : Buffer}
    (retries : reader.Retries buffer) : AheadInv (reader.read buffer) := by
  obtain ⟨safe, _⟩ := base.entry retries
  obtain ⟨loop, _⟩ := base.pass retries
  have spec := reader.session.read_spec retries.1
  constructor
  · have fewer := (readLoop_sublist reader.session.recvmarkq
      (reader.session.readEntry buffer)).length_le
    rw [List.length_map, List.length_map] at fewer
    simp only [Reader.maximum, Reader.read, spec.queue, Session.recvmarkqMaximum_read]
    exact Nat.le_trans fewer inv.within
  · intro position behind
    simp only [Reader.read, spec.queue, spec.distributed] at behind ⊢
    have before := inv.queued position (Nat.le_trans loop.grows behind)
    have kept := readLoop_countP reader.session.recvmarkq _ safe behind
    exact before.trans kept.symm

theorem ahead_eq (inv : AheadInv reader) : reader.ahead = reader.session.recvmarkq.countP
    fun element => reader.session.recvmarkqDistributed < element.block.offset :=
  inv.queued _ (Nat.le_refl _)

/-- Where every queued block starts beyond the cursor, they are the accepted ones that do. -/
theorem all_ahead (inv : AheadInv reader)
    (beyond : ∀ element ∈ reader.session.recvmarkq,
      reader.session.recvmarkqDistributed < element.block.offset) :
    reader.ahead = reader.session.recvmarkq.length := by
  rw [inv.ahead_eq]
  apply List.countP_eq_length.mpr
  intro element queued
  exact decide_eq_true (beyond element queued)

/-- A put makes the reader stuck exactly when it accepts a block too many. -/
theorem fewAhead_iff (inv : AheadInv reader) (room : RoomInv reader) (block : Block) :
    reader.FewAhead block ↔ RoomInv (reader.put block) := by
  constructor
  · intro few
    apply room.put
    intro last
    by_contra unusable
    simp only [not_or, not_exists, not_and, Nat.not_le] at unusable
    have counted := inv.all_ahead unusable.2
    have fewer := few (by omega) unusable.1
    omega
  · intro after free beyond
    by_contra many
    have most : reader.ahead ≤ reader.session.recvmarkq.length := by
      rw [inv.ahead_eq]
      exact List.countP_le_length
    have all : ∀ element ∈ reader.session.recvmarkq,
        reader.session.recvmarkqDistributed < element.block.offset := by
      have full : reader.session.recvmarkq.countP (fun element =>
          reader.session.recvmarkqDistributed < element.block.offset) =
            reader.session.recvmarkq.length := by
        rw [← inv.ahead_eq]
        omega
      intro element queued
      exact of_decide_eq_true (List.countP_eq_length.mp full element queued)
    rcases reader.session.handleRecvmarkqPut_cases block with
      ⟨_, full⟩ | ⟨_, queue, strand, stored, perm⟩
    · exact absurd free (Nat.not_lt.mpr full)
    · have length := perm.length_eq
      rw [List.length_cons] at length
      simp only [Reader.put, stored] at after
      have usable : ∃ element ∈ queue,
          element.block.offset ≤ reader.session.recvmarkqDistributed := by
        apply after.usable
        change reader.maximum ≤ queue.length
        omega
      obtain ⟨element, queued, low⟩ := usable
      rcases List.mem_cons.mp (perm.mem_iff.mp queued) with rfl | old
      · exact absurd low (Nat.not_le.mpr beyond)
      · exact absurd low (Nat.not_le.mpr (all element old))

end AheadInv

/-- What a run keeps, whatever arrives. -/
structure GapInv (capacity : Nat) (link : Link) : Prop where
  base : LinkInv capacity link
  ahead : AheadInv link.b

namespace GapInv

variable {capacity : Nat} {link : Link}

theorem initial (capacity : Nat) {a b : Session} (freshA : a.Fresh) (freshB : b.Fresh)
    (small : a.pendingMaximum < 2 ^ 31) :
    GapInv capacity { a := { session := a }, b := { session := b } } where
  base := LinkInv.initial capacity freshA freshB small
  ahead := by
    constructor
    · simp only [freshB.recvmarkq]
      exact Nat.zero_le _
    · intro position _
      simp only [freshB.recvmarkq]
      rfl

theorem next (inv : GapInv capacity link) (action : LinkAction)
    (allowed : link.Allowed capacity action) : GapInv capacity (link.next action) where
  base := inv.base.next action allowed
  ahead := by
    cases action with
    | deliver block => exact inv.ahead.put block
    | removeRange start stop => exact inv.ahead.removeRange inv.base.marked_begun start stop
    | read buffer => exact inv.ahead.read inv.base.reader allowed
    | raise contiguous => exact ⟨inv.ahead.within, inv.ahead.queued⟩
    | _ => exact inv.ahead

theorem keepsRoom_iff (inv : GapInv capacity link) : link.KeepsRoom ↔ RoomInv link.b := by
  constructor
  · exact fun keeps => (RoomInv.iff_not_stuck inv.ahead.within).mpr keeps.1
  · exact RoomInv.keepsRoom

/-- Reads and acknowledgements leave room where there is some. -/
theorem fewAhead_iff (inv : GapInv capacity link) (room : RoomInv link.b) {action : LinkAction}
    (allowed : link.Allowed capacity action) :
    link.FewAhead action ↔ RoomInv (link.next action).b := by
  cases action with
  | deliver block => exact inv.ahead.fewAhead_iff room block
  | removeRange start stop => exact iff_of_true trivial (room.removeRange start stop)
  | read buffer => exact iff_of_true trivial (room.read inv.base.reader allowed)
  | raise contiguous => exact iff_of_true trivial ⟨room.within, room.usable⟩
  | _ => exact iff_of_true trivial room

end GapInv

/-- Where B's queue has room for a block at all, B is never stuck behind a gap in exactly
those runs in which its put accepts fewer than `recvmarkq_maximum_` blocks beyond the
cursor while the cursor stands. -/
theorem queue_keeps_room (capacity : Nat) {a b : Session} {actions : List LinkAction}
    (freshA : a.Fresh) (freshB : b.Fresh) (small : a.pendingMaximum < 2 ^ 31)
    (possible : AllMet Link.next (Link.Allowed capacity)
      { a := { session := a }, b := { session := b } } actions) :
    0 < b.recvmarkqMaximum ∧
        AllMet Link.next Link.FewAhead { a := { session := a }, b := { session := b } } actions ↔
      ∀ count, ((actions.take count).foldl Link.next
        { a := { session := a }, b := { session := b } }).KeepsRoom := by
  have initial := GapInv.initial capacity freshA freshB small
  have kept : ∀ link action, GapInv capacity link → link.Allowed capacity action →
      link.FewAhead action → GapInv capacity (link.next action) :=
    fun _ action inv allowed _ => inv.next action allowed
  have stepwise : ∀ link action, GapInv capacity link → link.KeepsRoom →
      link.Allowed capacity action → (link.FewAhead action ↔ (link.next action).KeepsRoom) := by
    intro link action inv keeps allowed
    rw [(inv.next action allowed).keepsRoom_iff]
    exact inv.fewAhead_iff (inv.keepsRoom_iff.mp keeps) allowed
  constructor
  · rintro ⟨slots, few⟩
    have room : RoomInv { session := b } := by
      refine ⟨initial.ahead.within, fun full => ?_⟩
      simp only [freshB.recvmarkq, Reader.maximum, List.length_nil] at full
      omega
    exact (AllMet.iff_always kept stepwise initial room.keepsRoom possible).mp few
  · intro always
    have begins := always 0
    refine ⟨?_, (AllMet.iff_always kept stepwise initial begins possible).mpr always⟩
    -- an empty queue without slots is full of blocks above the gap
    by_contra none_
    apply begins.1
    constructor
    · simp only [List.take_zero, List.foldl_nil, Reader.maximum]
      omega
    · intro element member
      simp only [List.take_zero, List.foldl_nil, freshB.recvmarkq] at member
      cases member

theorem second_offset_lt : 1 < 2 ^ 64 := by decide

/-- Three one-byte blocks, of which B has room for two: the first is lost, the
second arrives and is acknowledged, so that A sends the third. -/
def gapSchedule : List LinkAction :=
  [.write ⟨[1, 2, 3], by decide⟩, .askHead 1, .sendHead .id 1 1, .askHead 1, .sendHead .id 2 2,
    .deliver { id := 2, clock := 2, offset := 1, data := [2], offset_lt := second_offset_lt },
    .removeRange 1 2, .acknowledge 1 2, .acknowledged .id 1 2, .askHead 1, .sendHead .id 3 3]

theorem queue_keeps_room_for_first :
    let start : Link := {
      a := { session := { pendingMaximum := 4, sendmarkqMaximum := 2 } }
      b := { session := { recvmarkqMaximum := 2 } } }
    let actions := gapSchedule ++ [LinkAction.deliver { id := 1, clock := 1, data := [1] }]
    ∀ count, ((actions.take count).foldl Link.next start).KeepsRoom := by
  intro start actions
  have possible : AllMet Link.next (Link.Allowed 1) start actions := by decide
  have few : AllMet Link.next Link.FewAhead start actions := by decide
  exact (queue_keeps_room 1 (Session.fresh_configured _ _ _) (Session.fresh_configured _ _ _)
    (by decide) possible).mp ⟨by decide, few⟩

/-- The third block takes the last slot: the queue is full of blocks above the
gap, and the first block is refused from then on. -/
theorem queue_full_above_gap :
    ¬ ∀ (capacity : Nat) (a b : Session) (link : Link), a.Fresh → b.Fresh →
      a.pendingMaximum < 2 ^ 31 → 1 ≤ b.recvmarkqMaximum →
      Reaches Link.next (Link.Allowed capacity)
        { a := { session := a }, b := { session := b } } link → ¬ link.b.Stuck := by
  intro claimed
  have reached : Reaches Link.next (Link.Allowed 1)
      { a := { session := { pendingMaximum := 4, sendmarkqMaximum := 2 } }
        b := { session := { recvmarkqMaximum := 2 } } }
      ((gapSchedule ++ [LinkAction.deliver
        { id := 3, clock := 3, offset := 2, data := [3] }]).foldl Link.next
          { a := { session := { pendingMaximum := 4, sendmarkqMaximum := 2 } }
            b := { session := { recvmarkqMaximum := 2 } } }) :=
    Reaches.start.schedule _ (by decide)
  have free := claimed 1 _ _ _ (Session.fresh_configured _ _ _) (Session.fresh_configured _ _ _)
    (by decide) (by decide) reached
  exact free (by decide)

end CurvecprAsio
