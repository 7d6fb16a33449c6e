import CurvecprAsio.LinkInvariant

set_option autoImplicit false

/- Whether the block with the EOF mark can be resent until B has it. -/
namespace CurvecprAsio

open Transition SearchTree

/-- B's put has accepted a block with the EOF mark. -/
def Link.EofAccepted (link : Link) : Prop := ∃ block ∈ link.b.arrived, block.marked = true

instance (link : Link) : Decidable link.EofAccepted :=
  inferInstanceAs (Decidable (∃ block ∈ link.b.arrived, block.marked = true))

/-- Until B has the mark, no acknowledged range takes in the place of an empty
marked block, and no search for a resent block comes to a marked one in its place. -/
def Link.sparesEof (link : Link) : LinkAction → Guard
  | .acknowledged _ start stop => .of (link.EofAccepted ∨
      ∀ sent ∈ link.a.session.sendmarkq.toList, sent.block.marked = true →
        sent.block.dataLen = 0 → sent.block.inRange start stop = false)
  | .resend _ pointer id clock => .of (link.EofAccepted ∨
      ∀ found ∈ link.a.session.findResent pointer id clock, found.block.marked = true →
        found.pointer = pointer)
  | _ => .free

abbrev Link.SparesEof (link : Link) (action : LinkAction) : Prop := (link.sparesEof action).holds

def Link.AllowedEof (capacity : Nat) (link : Link) (action : LinkAction) : Prop :=
  link.Allowed capacity action ∧ link.SparesEof action

instance (capacity : Nat) (link : Link) (action : LinkAction) :
    Decidable (link.AllowedEof capacity action) :=
  inferInstanceAs (Decidable (link.Allowed capacity action ∧ link.SparesEof action))

/-- The queued block that was moved as `moved`, with whatever id and clock. -/
def SentBlock.Moved (sent moved : SentBlock) : Prop :=
  sent.pointer = moved.pointer ∧ sent.block.Same moved.block

instance (first second : Block) : Decidable (first.Same second) :=
  decidable_of_iff (first.offset = second.offset ∧ first.data = second.data ∧
      first.eof = second.eof)
    ⟨fun ⟨offset, data, eof⟩ => ⟨offset, data, eof⟩, fun same => ⟨same.offset, same.data, same.eof⟩⟩

instance (sent moved : SentBlock) : Decidable (sent.Moved moved) :=
  inferInstanceAs (Decidable (_ ∧ _))

/-- Every marked block that was moved is queued, unless B has a marked block. -/
def Link.EofKept (link : Link) : Prop :=
  ∀ moved ∈ link.a.moved, moved.block.marked = true →
    (∃ sent ∈ link.a.session.sendmarkq.toList, sent.Moved moved) ∨ link.EofAccepted

instance (link : Link) : Decidable link.EofKept :=
  inferInstanceAs (Decidable (∀ moved ∈ link.a.moved, moved.block.marked = true →
    (∃ sent ∈ link.a.session.sendmarkq.toList, sent.Moved moved) ∨ link.EofAccepted))

structure EofInv (capacity : Nat) (link : Link) : Prop where
  base : LinkInv capacity link
  once : (link.a.moved.map SentBlock.pointer).Nodup
  bounded : ∀ moved ∈ link.a.moved, moved.pointer ≤ link.a.session.allocated
  owner : ∀ sent ∈ link.a.session.sendmarkq.toList, ∃ moved ∈ link.a.moved, sent.Moved moved
  kept : link.EofKept

namespace EofInv

variable {capacity : Nat} {link : Link}

theorem initial (capacity : Nat) {a b : Session} (freshA : a.Fresh) (freshB : b.Fresh)
    (small : a.pendingMaximum < 2 ^ 31) :
    EofInv capacity { a := { session := a }, b := { session := b } } where
  base := LinkInv.initial capacity freshA freshB small
  once := List.nodup_nil
  bounded := by
    intro moved member
    cases member
  owner := by
    intro sent member
    rw [freshA.sendmarkq] at member
    cases member
  kept := by
    intro moved member
    cases member

theorem quiet (inv : EofInv capacity link) {later : Link} (base : LinkInv capacity later)
    (quiet : link.Quiet later) : EofInv capacity later where
  base := base
  once := by
    rw [quiet.moved]
    exact inv.once
  bounded := by
    rw [quiet.moved, quiet.allocated]
    exact inv.bounded
  owner := by
    rw [quiet.moved, quiet.sendmarkq]
    exact inv.owner
  kept := by
    intro block member marked
    rw [quiet.moved] at member
    rw [quiet.sendmarkq]
    rcases inv.kept block member marked with queued | ⟨other, arrived, isMarked⟩
    · exact Or.inl queued
    · exact Or.inr ⟨other, quiet.arrived other arrived, isMarked⟩

theorem sendHead (inv : EofInv capacity link) (balance : Balance SentBlock) (id : Nat)
    (clock : Int) (exists_ : link.a.session.sendqHeadExists = true)
    (fits : link.headTotal < 2 ^ 64) :
    EofInv capacity (link.next (.sendHead balance id clock)) := by
  have base := inv.base.sendHead balance id clock exists_ fits
  obtain ⟨session, stamped, kept | ⟨sendmarkq, inserted, stored⟩⟩ :=
    link.sendHead_cases balance id clock exists_
  · rw [Link.next, kept] at base ⊢
    subst stamped
    exact inv.quiet base ⟨rfl, rfl, rfl, fun _ member => member⟩
  · rw [Link.next, stored] at base ⊢
    constructor
    · exact base
    · rw [List.map_append]
      apply ((List.perm_append_singleton _ _).nodup_iff).mpr
      apply List.nodup_cons.mpr
      refine ⟨?_, inv.once⟩
      intro member
      obtain ⟨moved, old, same⟩ := List.mem_map.mp member
      have bound := inv.bounded moved old
      simp only at same
      omega
    · intro moved member
      rcases List.mem_append.mp member with old | new
      · exact Nat.le_succ_of_le (inv.bounded moved old)
      · rw [List.mem_singleton.mp new]
    · intro sent member
      rcases List.mem_cons.mp (inserted.mem_iff.mp member) with rfl | old
      · exact ⟨_, List.mem_append_right _ (List.mem_singleton_self _), rfl, Block.Same.refl _⟩
      · obtain ⟨moved, wasMoved, same⟩ := inv.owner sent old
        exact ⟨moved, List.mem_append_left _ wasMoved, same⟩
    · intro moved member marked
      rcases List.mem_append.mp member with old | new
      · rcases inv.kept moved old marked with ⟨sent, queued, same⟩ | accepted
        · exact Or.inl ⟨sent, inserted.mem_iff.mpr (List.mem_cons_of_mem _ queued), same⟩
        · exact Or.inr accepted
      · rw [List.mem_singleton.mp new]
        exact Or.inl ⟨_, inserted.mem_iff.mpr List.mem_cons_self, rfl, Block.Same.refl _⟩

theorem owner_eq (inv : EofInv capacity link) {sent moved : SentBlock}
    (queued : sent ∈ link.a.session.sendmarkq.toList) (wasMoved : moved ∈ link.a.moved)
    (same : sent.pointer = moved.pointer) : sent.Moved moved := by
  obtain ⟨owner, member, owns⟩ := inv.owner sent queued
  rwa [eq_of_pointer inv.once member wasMoved (owns.1.symm.trans same)] at owns

/-- A resend may erase another block of the new clock, but no marked one. -/
theorem resend (inv : EofInv capacity link) (balance : Balance SentBlock) (pointer id : Nat)
    (clock : Int) (spares : link.SparesEof (.resend balance pointer id clock)) :
    EofInv capacity (link.next (.resend balance pointer id clock)) := by
  have base := inv.base.resend balance pointer id clock
  obtain ⟨sendmarkq, resent, contents⟩ :=
    link.a.session.resend_cases balance pointer id clock inv.base.allocated
  have restamped : ∀ sent moved : SentBlock, sent.Moved moved →
      (Session.stampPointer pointer id clock sent).Moved moved := by
    intro sent moved ⟨samePointer, same⟩
    refine ⟨?_, (Session.stampPointer_same pointer id clock sent).trans same⟩
    rw [Session.stampPointer_pointer]
    exact samePointer
  have subset := Session.resend_subset balance inv.base.allocated resent
  simp only [Link.next, Link.resend, Sender.next, Sender.move, resent, Option.toList_none,
    List.append_nil] at base ⊢
  constructor
  · exact base
  · exact inv.once
  · exact inv.bounded
  · intro sent member
    obtain ⟨old, queued, stamped⟩ := List.mem_map.mp (subset sent member)
    obtain ⟨moved, wasMoved, owns⟩ := inv.owner old queued
    exact ⟨moved, wasMoved, stamped ▸ restamped old moved owns⟩
  · intro moved member marked
    rcases inv.kept moved member marked with ⟨sent, queued, owns⟩ | accepted
    · have inStamped : Session.stampPointer pointer id clock sent ∈
          link.a.session.sendmarkq.toList.map (Session.stampPointer pointer id clock) :=
        List.mem_map_of_mem queued
      rcases contents with same | ⟨block, it, other, inQueue, isBlock, located, finds, perm⟩
      · exact Or.inl ⟨_, by rw [same]; exact inStamped, restamped sent moved owns⟩
      · obtain ⟨inside, atPosition⟩ := List.getElem?_eq_some_iff.mp located
        have parts := List.getElem_cons_eraseIdx_perm inside
        rw [atPosition] at parts
        rcases List.mem_cons.mp (parts.mem_iff.mpr inStamped) with erased | rest
        · obtain ⟨source, wasQueued, stamped⟩ := List.mem_map.mp inQueue
          have sourcePointer : source.pointer = pointer := by
            rw [← isBlock, ← stamped, Session.stampPointer_pointer]
          by_cases resentItself : sent.pointer = pointer
          · have owned : source.Moved moved := inv.owner_eq wasQueued member
              (sourcePointer.trans (resentItself.symm.trans owns.1))
            refine Or.inl ⟨block, perm.mem_iff.mpr List.mem_cons_self, ?_⟩
            rw [← stamped]
            exact restamped source moved owned
          · right
            rcases spares with accepted | apart
            · exact accepted
            · rw [Session.stampPointer_other resentItself] at erased
              have isMarked : other.block.marked = true := by
                rw [← erased]
                exact owns.2.marked.trans marked
              have itself := apart other finds isMarked
              rw [← erased] at itself
              exact absurd itself resentItself
        · exact Or.inl ⟨_, perm.mem_iff.mpr (List.mem_cons_of_mem _ rest),
            restamped sent moved owns⟩
    · exact Or.inr accepted

/-- A marked block with data is only removed when B has accepted its first byte,
and no other block has that byte. -/
theorem acknowledged (inv : EofInv capacity link) (balance : Balance SentBlock)
    {start stop : Nat} (made : (start, stop) ∈ link.acks)
    (spares : link.SparesEof (.acknowledged balance start stop)) :
    EofInv capacity (link.next (.acknowledged balance start stop)) := by
  have base := inv.base.acknowledged balance start stop
  have left := link.a.session.toList_handleSendmarkqRemoveRange balance start stop
  constructor
  · exact base
  · exact inv.once
  · exact inv.bounded
  · intro sent member
    simp only [Link.next, Sender.next, left] at member
    exact inv.owner sent (List.mem_filter.mp member).1
  · intro moved member marked
    rcases inv.kept moved member marked with ⟨sent, queued, owns⟩ | accepted
    · cases inside : sent.block.inRange start stop with
      | false =>
          refine Or.inl ⟨sent, ?_, owns⟩
          simp only [Link.next, Sender.next, left]
          exact List.mem_filter.mpr ⟨queued, by simp [inside]⟩
      | true =>
          right
          rcases spares with accepted | spared
          · exact accepted
          · have isMarked : sent.block.marked = true := owns.2.marked.trans marked
            have wasSent : moved ∈ link.sent := List.mem_append_left _ member
            have fits := inv.base.sent_fits ⟨moved, wasSent, owns.2⟩
            have nonempty : sent.block.dataLen ≠ 0 := by
              intro empty
              rw [spared sent queued isMarked empty] at inside
              cases inside
            obtain ⟨starts, ends⟩ := (Block.inRange_iff _ _ _).mp inside
            rw [Block.endOffset_eq _ fits] at ends
            obtain ⟨block, arrived, covers⟩ :=
              inv.base.acks start stop made sent.block.offset (by omega) starts
            obtain ⟨source, inSent, same⟩ := inv.base.arrived block arrived
            have first : sent.block.Covers sent.block.offset := ⟨Nat.le_refl _, by omega⟩
            have itself := inv.base.same_of_covers inSent wasSent (same.covers covers)
              (owns.2.covers first)
            refine ⟨block, arrived, ?_⟩
            rw [same.marked, itself]
            exact marked
    · exact Or.inr accepted

theorem next (inv : EofInv capacity link) (action : LinkAction)
    (allowed : link.AllowedEof capacity action) : EofInv capacity (link.next action) := by
  have base := inv.base.next action allowed.1
  cases action with
  | sendHead balance id clock => exact inv.sendHead balance id clock allowed.1.1 allowed.1.2
  | resend balance pointer id clock => exact inv.resend balance pointer id clock allowed.2
  | acknowledged balance start stop => exact inv.acknowledged balance allowed.1 allowed.2
  | _ => exact inv.quiet base (link.quiet_next rfl)

end EofInv

end CurvecprAsio
