import CurvecprAsio.LinkInvariant

set_option autoImplicit false

/- Who holds a byte that A has accepted: it leaves A's ring for the head, the
head for `sendmarkq_`, and `sendmarkq_` only when B's put has accepted it; it
leaves B's `recvmarkq_` only for the reader. -/
namespace CurvecprAsio

open Transition SearchTree

/-- libcurvecpr resends with a clock above all clocks in the queue. -/
def Link.strict (link : Link) : LinkAction → Guard
  | .resend _ _ _ clock => .of (∀ sent ∈ link.a.session.sendmarkq.toList, sent.block.clock < clock)
  | _ => .free

abbrev Link.Strict (link : Link) (action : LinkAction) : Prop := (link.strict action).holds

def Link.AllowedStrict (capacity : Nat) (link : Link) (action : LinkAction) : Prop :=
  link.Allowed capacity action ∧ link.Strict action

instance (capacity : Nat) (link : Link) (action : LinkAction) :
    Decidable (link.AllowedStrict capacity action) :=
  inferInstanceAs (Decidable (link.Allowed capacity action ∧ link.Strict action))

/-- Where the byte `value` of the stream at `position` is. -/
inductive Link.Held (link : Link) (position : Nat) (value : UInt8) : Prop
  | ring (index : Nat)
      (behind : position = (sentBytes link.a.moved).length +
        link.a.session.headContents.length + index)
      (located : link.a.session.ringContents[index]? = some value)
  | head (index : Nat) (behind : position = (sentBytes link.a.moved).length + index)
      (located : link.a.session.headContents[index]? = some value)
  | sendmarkq (sent : SentBlock) (queued : sent ∈ link.a.session.sendmarkq.toList)
      (carries : sent.block.Carries position value)
  | recvmarkq (element : BlockStatus) (queued : element ∈ link.b.session.recvmarkq)
      (carries : element.block.Carries position value)
  | delivered (located : (link.b.delivered ++ link.b.placed)[position]? = some value)

theorem Link.Accepted.mono {link : Link} {start stop : Nat} (accepted : link.Accepted start stop)
    {later : Link} (more : ∀ block ∈ link.b.arrived, block ∈ later.b.arrived) :
    later.Accepted start stop := by
  intro position below above
  obtain ⟨block, arrived, covers⟩ := accepted position below above
  exact ⟨block, more block arrived, covers⟩

/-- A moved block is queued at A until B's put has accepted its bytes. -/
def Link.Kept (link : Link) (moved : SentBlock) : Prop :=
  (∃ sent ∈ link.a.session.sendmarkq.toList, sent.block.Same moved.block) ∨
    link.Accepted moved.block.offset (moved.block.offset + moved.block.dataLen)

structure CustodyInv (capacity : Nat) (link : Link) : Prop where
  base : LinkInv capacity link
  distinct : link.a.session.Distinct
  kept : ∀ moved ∈ link.a.moved, link.Kept moved

namespace CustodyInv

variable {capacity : Nat} {link : Link}

theorem initial (capacity : Nat) {a b : Session} (freshA : a.Fresh) (freshB : b.Fresh)
    (small : a.pendingMaximum < 2 ^ 31) :
    CustodyInv capacity { a := { session := a }, b := { session := b } } where
  base := LinkInv.initial capacity freshA freshB small
  distinct := freshA.distinct
  kept := by
    intro moved member
    cases member

theorem quiet (inv : CustodyInv capacity link) {later : Link} (base : LinkInv capacity later)
    (quiet : link.Quiet later) : CustodyInv capacity later where
  base := base
  distinct := inv.distinct.frame quiet.sendmarkq quiet.allocated
  kept := by
    intro block member
    rw [quiet.moved] at member
    rcases inv.kept block member with queued | accepted
    · left
      rw [quiet.sendmarkq]
      exact queued
    · exact Or.inr (accepted.mono quiet.arrived)

theorem sendHead (inv : CustodyInv capacity link) (balance : Balance SentBlock) (id : Nat)
    (clock : Int) (exists_ : link.a.session.sendqHeadExists = true)
    (fits : link.headTotal < 2 ^ 64) :
    CustodyInv capacity (link.next (.sendHead balance id clock)) := by
  have base := inv.base.sendHead balance id clock exists_ fits
  obtain ⟨session, stamped, kept | ⟨sendmarkq, inserted, stored⟩⟩ :=
    link.sendHead_cases balance id clock exists_
  · rw [Link.next, kept] at base ⊢
    subst stamped
    exact inv.quiet base ⟨rfl, rfl, rfl, fun _ member => member⟩
  · rw [Link.next, stored] at base ⊢
    constructor
    · exact base
    · exact inv.distinct.stored _ inserted rfl
    · intro moved member
      rcases List.mem_append.mp member with old | new
      · rcases inv.kept moved old with ⟨sent, queued, same⟩ | accepted
        · exact Or.inl ⟨sent, inserted.mem_iff.mpr (List.mem_cons_of_mem _ queued), same⟩
        · exact Or.inr accepted
      · rw [List.mem_singleton.mp new]
        exact Or.inl ⟨_, inserted.mem_iff.mpr List.mem_cons_self, Block.Same.refl _⟩

theorem resend (inv : CustodyInv capacity link) (balance : Balance SentBlock) (pointer id : Nat)
    (clock : Int) (strict : link.Strict (.resend balance pointer id clock)) :
    CustodyInv capacity (link.next (.resend balance pointer id clock)) := by
  have base := inv.base.resend balance pointer id clock
  obtain ⟨sendmarkq, resent, perm⟩ := Session.resend_strict inv.distinct balance pointer id strict
  simp only [Link.next, Link.resend, Sender.next, Sender.move, resent, Option.toList_none,
    List.append_nil] at base ⊢
  constructor
  · exact base
  · exact inv.distinct.restamped perm rfl
  · intro moved member
    rcases inv.kept moved member with ⟨sent, queued, same⟩ | accepted
    · exact Or.inl ⟨_, perm.mem_iff.mpr (List.mem_map_of_mem queued),
        (Session.stampPointer_same pointer id clock sent).trans same⟩
    · exact Or.inr accepted

/-- A block that an acknowledgement removes has been accepted by B's put. -/
theorem acknowledged (inv : CustodyInv capacity link) (balance : Balance SentBlock)
    {start stop : Nat} (made : (start, stop) ∈ link.acks) :
    CustodyInv capacity (link.next (.acknowledged balance start stop)) := by
  have base := inv.base.acknowledged balance start stop
  have left := link.a.session.toList_handleSendmarkqRemoveRange balance start stop
  have sublist : (link.next (.acknowledged balance start stop)).a.session.sendmarkq.toList.Sublist
      link.a.session.sendmarkq.toList := by
    simp only [Link.next, Sender.next, left]
    exact List.filter_sublist
  constructor
  · exact base
  · exact inv.distinct.removed sublist rfl
  · intro moved member
    rcases inv.kept moved member with ⟨sent, queued, same⟩ | accepted
    · cases inside : sent.block.inRange start stop with
      | false =>
          refine Or.inl ⟨sent, ?_, same⟩
          simp only [Link.next, Sender.next, left]
          exact List.mem_filter.mpr ⟨queued, by simp [inside]⟩
      | true =>
          right
          obtain ⟨starts, ends⟩ := (Block.inRange_iff _ _ _).mp inside
          have wasSent : link.Sent moved.block :=
            ⟨moved, List.mem_append_left _ member, Block.Same.refl _⟩
          rw [same.endOffset, Block.endOffset_eq _ (inv.base.sent_fits wasSent)] at ends
          rw [same.offset] at starts
          intro position below above
          exact inv.base.acks start stop made position (by omega) (by omega)
    · exact Or.inr accepted

theorem next (inv : CustodyInv capacity link) (action : LinkAction)
    (allowed : link.AllowedStrict capacity action) :
    CustodyInv capacity (link.next action) := by
  have base := inv.base.next action allowed.1
  cases action with
  | sendHead balance id clock => exact inv.sendHead balance id clock allowed.1.1 allowed.1.2
  | resend balance pointer id clock => exact inv.resend balance pointer id clock allowed.2
  | acknowledged balance start stop => exact inv.acknowledged balance allowed.1
  | _ => exact inv.quiet base (link.quiet_next rfl)

/-- The byte at a position that a slice covers is the slice's byte. -/
theorem carries_of_slice {S : List UInt8} {block : Block} {position : Nat} {value : UInt8}
    (slice : SliceOf S block) (covers : block.Covers position)
    (located : S[position]? = some value) : block.Carries position value := by
  obtain ⟨starts, ends⟩ := covers
  refine ⟨starts, ?_⟩
  rw [slice.data, List.getElem?_take_of_lt (by omega), List.getElem?_drop,
    Nat.add_sub_of_le starts]
  exact located

theorem held (inv : CustodyInv capacity link) {position : Nat} {value : UInt8}
    (located : link.a.accepted[position]? = some value) : link.Held position value := by
  have fifo := inv.base.sender.fifo
  by_cases moved : position < (sentBytes link.a.moved).length
  · obtain ⟨index, block, atIndex, covers⟩ := inv.base.placed_moved.locate moved
    have member := List.mem_of_getElem? atIndex
    have wasSent : link.Sent block.block :=
      ⟨block, List.mem_append_left _ member, Block.Same.refl _⟩
    have carries := carries_of_slice (inv.base.slice wasSent) covers located
    rcases inv.kept block member with ⟨sent, queued, same⟩ | accepted
    · apply Link.Held.sendmarkq sent queued
      rw [Block.Carries, same.offset, same.data]
      exact carries
    · obtain ⟨arrived, wasPut, holds⟩ := accepted position covers.2 covers.1
      rcases inv.base.holds.held arrived wasPut with ⟨element, queued, same⟩ | passed
      · apply Link.Held.recvmarkq element queued
        rw [same]
        exact carries_of_slice (inv.base.slice (inv.base.arrived arrived wasPut)) holds located
      · apply Link.Held.delivered
        have fits := inv.base.sent_fits (inv.base.arrived arrived wasPut)
        have inside := holds.2
        rw [Block.endOffset_eq _ fits] at passed
        rw [inv.base.reader.filled, List.getElem?_take_of_lt (by omega)]
        exact located
  · rw [← fifo, List.append_assoc, List.getElem?_append_right (by omega)] at located
    by_cases head : position - (sentBytes link.a.moved).length <
        link.a.session.headContents.length
    · rw [List.getElem?_append_left head] at located
      exact Link.Held.head _ (by omega) located
    · rw [List.getElem?_append_right (by omega)] at located
      exact Link.Held.ring _ (by omega) located

end CustodyInv

/-- Every byte A has accepted is in A's ring, head block or `sendmarkq_`, or in
B's `recvmarkq_`, or at B's reader. -/
theorem accepted_bytes_held (capacity : Nat) {a b : Session} {link : Link} (freshA : a.Fresh)
    (freshB : b.Fresh) (small : a.pendingMaximum < 2 ^ 31)
    (reached : Reaches Link.next (Link.AllowedStrict capacity)
      { a := { session := a }, b := { session := b } } link) :
    ∀ position value, link.a.accepted[position]? = some value → link.Held position value := by
  have inv : CustodyInv capacity link :=
    reached.invariant (CustodyInv.initial capacity freshA freshB small)
      fun _ action inv allowed => inv.next action allowed
  intro position value located
  exact inv.held located

/-- One byte read, one received, and one lost on the way and sent again. -/
theorem accepted_bytes_held_three :
    let link := [LinkAction.write ⟨[1, 2, 3], by decide⟩, .askHead 2, .sendHead .id 1 1,
      .deliver { id := 1, clock := 1, data := [1, 2] }, .read ⟨[0], by decide⟩,
      .acknowledge 0 2, .acknowledged .id 0 2, .askHead 2, .sendHead .id 2 2,
      .resend .id 2 3 3].foldl Link.next
        { a := { session := { pendingMaximum := 4 } }, b := { session := {} } }
    ∀ position value, [1, 2, 3][position]? = some value → link.Held position value := by
  intro link
  have reached : Reaches Link.next (Link.AllowedStrict 2)
      { a := { session := { pendingMaximum := 4 } }, b := { session := {} } } link :=
    Reaches.start.schedule _ (by decide)
  have accepted : link.a.accepted = [1, 2, 3] := by decide
  rw [← accepted]
  exact accepted_bytes_held 2 (Session.fresh_configured _ _ _) (Session.fresh_configured _ _ _)
    (by decide) reached

end CurvecprAsio
