import Mathlib.Data.List.Sort

set_option autoImplicit false

/- Binary search trees as an ordered container keeps them. A search or an
insertion descends from the root by the comparator, and the shape is otherwise
unspecified: balancing may replace a tree by any other with the same order. -/
namespace SearchTree

universe u

inductive Tree (α : Type u) where
  | leaf
  | node (left : Tree α) (item : α) (right : Tree α)
  deriving DecidableEq, Repr

namespace Tree

variable {α : Type u}

/-- The order in which an iterator visits the items. -/
def toList : Tree α → List α
  | leaf => []
  | node left item right => left.toList ++ item :: right.toList

def size : Tree α → Nat
  | leaf => 0
  | node left _ right => left.size + 1 + right.size

/-- The last node of the descent that was not below the key, counted in
iteration order. -/
def lowerBound (below : α → α → Bool) (key : α) : Tree α → Option Nat
  | leaf => none
  | node left item right =>
      if below item key then
        (right.lowerBound below key).map (left.size + 1 + ·)
      else
        some ((left.lowerBound below key).getD left.size)

/-- `find`: the lower bound, unless the key is below it. -/
def find (below : α → α → Bool) (key : α) (tree : Tree α) : Option Nat :=
  (tree.lowerBound below key).filter fun position =>
    (tree.toList[position]?).any fun item => !below key item

/-- A new item goes to the right of every equivalent one on the descent. -/
def insert (below : α → α → Bool) (new : α) : Tree α → Tree α
  | leaf => node leaf new leaf
  | node left item right =>
      if below new item then node (left.insert below new) item right
      else node left item (right.insert below new)

def join : Tree α → Tree α → Tree α
  | leaf, other => other
  | node left item right, other => node left item (right.join other)

/-- Remove the node at one position of the iteration order. -/
def erase : Tree α → Nat → Tree α
  | leaf, _ => leaf
  | node left item right, position =>
      if position < left.size then node (left.erase position) item right
      else if position = left.size then left.join right
      else node left item (right.erase (position - (left.size + 1)))

def filter (keep : α → Bool) : Tree α → Tree α
  | leaf => leaf
  | node left item right =>
      if keep item then node (left.filter keep) item (right.filter keep)
      else (left.filter keep).join (right.filter keep)

/-- Change the items where they stand, whatever that does to their order. -/
def map (change : α → α) : Tree α → Tree α
  | leaf => leaf
  | node left item right => node (left.map change) (change item) (right.map change)

/-- The items at which the path from the root to a position turns left. -/
def leftTurns : Tree α → Nat → List α
  | leaf, _ => []
  | node left item right, position =>
      if position < left.size then item :: left.leftTurns position
      else if position = left.size then []
      else right.leftTurns (position - (left.size + 1))

/-- One rotation at the root. -/
def rotateLeft : Tree α → Tree α
  | node left item (node middle next right) => node (node left item middle) next right
  | tree => tree

end Tree

/-- Balancing: any change of shape that keeps the iteration order. -/
structure Balance (α : Type u) where
  run : Tree α → Tree α
  toList_run : ∀ tree, (run tree).toList = tree.toList

/-- No change of shape at all. -/
def Balance.id {α : Type u} : Balance α := ⟨fun tree => tree, fun _ => rfl⟩

def Balance.rotateLeft {α : Type u} : Balance α where
  run := Tree.rotateLeft
  toList_run := by
    intro tree
    unfold Tree.rotateLeft
    split
    · simp only [Tree.toList, List.append_assoc, List.cons_append]
    · rfl

attribute [simp] Balance.toList_run

namespace Tree

variable {α : Type u}

@[simp] theorem toList_leaf : (leaf : Tree α).toList = [] := rfl

@[simp] theorem toList_node (left right : Tree α) (item : α) :
    (node left item right).toList = left.toList ++ item :: right.toList := rfl

@[simp] theorem length_toList (tree : Tree α) : tree.toList.length = tree.size := by
  induction tree with
  | leaf => rfl
  | node left item right ihl ihr =>
      simp only [toList, size, List.length_append, List.length_cons, ihl, ihr]
      omega

@[simp] theorem toList_join (first second : Tree α) :
    (first.join second).toList = first.toList ++ second.toList := by
  induction first with
  | leaf => rfl
  | node left item right ihl ihr =>
      simp only [join, toList, ihr, List.append_assoc, List.cons_append]

@[simp] theorem toList_filter (keep : α → Bool) (tree : Tree α) :
    (tree.filter keep).toList = tree.toList.filter keep := by
  induction tree with
  | leaf => rfl
  | node left item right ihl ihr =>
      simp only [filter, toList, List.filter_append, List.filter_cons]
      split
      · simp only [toList, ihl, ihr]
      · simp only [toList_join, ihl, ihr]

@[simp] theorem toList_map (change : α → α) (tree : Tree α) :
    (tree.map change).toList = tree.toList.map change := by
  induction tree with
  | leaf => rfl
  | node left item right ihl ihr =>
      simp only [map, toList, ihl, ihr, List.map_append, List.map_cons]

@[simp] theorem toList_erase (tree : Tree α) (position : Nat) :
    (tree.erase position).toList = tree.toList.eraseIdx position := by
  induction tree generalizing position with
  | leaf => rfl
  | node left item right ihl ihr =>
      simp only [erase]
      split
      · rename_i inLeft
        rw [toList, ihl, toList, List.eraseIdx_append_of_lt_length (by simpa using inLeft)]
      · rename_i notLeft
        rw [toList_node, List.eraseIdx_append_of_length_le (by simpa using notLeft),
          length_toList]
        split
        · rename_i here
          rw [toList_join, here, Nat.sub_self, List.eraseIdx_cons_zero]
        · rename_i notHere
          obtain ⟨rest, split⟩ : ∃ rest, position - left.size = rest + 1 :=
            ⟨position - left.size - 1, by omega⟩
          rw [toList_node, ihr, split, List.eraseIdx_cons_succ]
          congr 3
          omega

theorem mem_insert (below : α → α → Bool) (new item : α) (tree : Tree α) :
    item ∈ (tree.insert below new).toList ↔ item = new ∨ item ∈ tree.toList := by
  induction tree with
  | leaf => simp [insert]
  | node left here right ihl ihr =>
      simp only [insert]
      split
      · simp only [toList_node, List.mem_append, List.mem_cons, ihl]
        tauto
      · simp only [toList_node, List.mem_append, List.mem_cons, ihr]
        tauto

theorem insert_perm (below : α → α → Bool) (new : α) (tree : Tree α) :
    (tree.insert below new).toList.Perm (new :: tree.toList) := by
  induction tree with
  | leaf => exact List.Perm.refl _
  | node left here right ihl ihr =>
      simp only [insert]
      split
      · simp only [toList_node]
        exact ihl.append_right _
      · simp only [toList_node]
        refine (List.Perm.append_left _ (ihr.cons here)).trans ?_
        exact (List.Perm.append_left _ (List.Perm.swap new here _)).trans List.perm_middle

/-- An item that is below nothing goes last. -/
theorem toList_insert_last (below : α → α → Bool) (new : α) (tree : Tree α)
    (last : ∀ item ∈ tree.toList, below new item = false) :
    (tree.insert below new).toList = tree.toList ++ [new] := by
  induction tree with
  | leaf => rfl
  | node left here right ihl ihr =>
      have notBelow : below new here = false := last here (by simp)
      have rest := ihr (fun item member => last item (by simp [member]))
      simp only [insert, notBelow, Bool.false_eq_true, ↓reduceIte, toList_node, rest,
        List.append_assoc, List.cons_append]

theorem lowerBound_spec {below : α → α → Bool} {key : α} {tree : Tree α} {position : Nat}
    (found : tree.lowerBound below key = some position) :
    ∃ item, tree.toList[position]? = some item ∧ below item key = false := by
  induction tree generalizing position with
  | leaf => cases found
  | node left here right ihl ihr =>
      simp only [lowerBound] at found
      split at found
      · obtain ⟨inner, atInner, same⟩ := Option.map_eq_some_iff.mp found
        obtain ⟨item, located, notBelow⟩ := ihr atInner
        refine ⟨item, ?_, notBelow⟩
        rw [← same, toList_node, List.getElem?_append_right (by simp; omega), length_toList,
          show left.size + 1 + inner - left.size = inner + 1 by omega, List.getElem?_cons_succ]
        exact located
      · rename_i notBelow
        have same := Option.some.inj found
        cases deeper : left.lowerBound below key with
        | none =>
            refine ⟨here, ?_, by simpa using notBelow⟩
            simp [← same, deeper]
        | some inner =>
            obtain ⟨item, located, notBelow⟩ := ihl deeper
            refine ⟨item, ?_, notBelow⟩
            have inside := (List.getElem?_eq_some_iff.mp located).1
            rw [← same, deeper, Option.getD_some, toList_node,
              List.getElem?_append_left inside]
            exact located

/-- Whatever the order of the tree, `find` returns an item equivalent to the
key or nothing. -/
theorem find_spec {below : α → α → Bool} {key : α} {tree : Tree α} {position : Nat}
    (found : tree.find below key = some position) :
    ∃ item, tree.toList[position]? = some item ∧
      below item key = false ∧ below key item = false := by
  obtain ⟨bound, equivalent⟩ := Option.filter_eq_some_iff.mp found
  obtain ⟨item, located, notBelow⟩ := lowerBound_spec bound
  refine ⟨item, located, notBelow, ?_⟩
  simpa [located] using equivalent

theorem lowerBound_eq_none {below : α → α → Bool} {key : α} {tree : Tree α}
    (all : ∀ item ∈ tree.toList, below item key = true) :
    tree.lowerBound below key = none := by
  induction tree with
  | leaf => rfl
  | node left here right ihl ihr =>
      have hereBelow : below here key = true := all here (by simp)
      have rest := ihr (fun item member => all item (by simp [member]))
      simp only [lowerBound, hereBelow, ↓reduceIte, rest, Option.map_none]

/-- The descent reaches a node that is not below the key, provided all items
before it are and none at which the path to it turns left is. -/
theorem lowerBound_reached {below : α → α → Bool} {key item : α} {tree : Tree α}
    {position : Nat} (located : tree.toList[position]? = some item)
    (notBelow : below item key = false)
    (before : ∀ earlier ∈ tree.toList.take position, below earlier key = true)
    (turns : ∀ turn ∈ tree.leftTurns position, below turn key = false) :
    tree.lowerBound below key = some position := by
  induction tree generalizing position with
  | leaf => cases located
  | node left here right ihl ihr =>
      rw [toList_node] at located before
      simp only [leftTurns] at turns
      split at turns
      · rename_i inLeft
        have hereNot : below here key = false := turns here (by simp)
        have found : left.lowerBound below key = some position := by
          apply ihl
          · rwa [List.getElem?_append_left (by rw [length_toList]; exact inLeft)] at located
          · intro earlier member
            apply before
            rw [List.take_append_of_le_length (by rw [length_toList]; omega)]
            exact member
          · intro turn member
            exact turns turn (by simp [member])
        simp only [lowerBound, hereNot, Bool.false_eq_true, ↓reduceIte, found, Option.getD_some]
      · rename_i notLeft
        split at turns
        · rename_i atRoot
          subst atRoot
          have same : here = item := by
            rw [← length_toList, List.getElem?_append_right (Nat.le_refl _)] at located
            simpa using located
          have leftBelow : left.lowerBound below key = none := by
            apply lowerBound_eq_none
            intro earlier member
            apply before
            rw [← length_toList, List.take_left]
            exact member
          simp only [lowerBound, same, notBelow, Bool.false_eq_true, ↓reduceIte, leftBelow,
            Option.getD_none]
        · rename_i notRoot
          obtain ⟨inner, split⟩ : ∃ inner, position = left.size + 1 + inner :=
            ⟨position - (left.size + 1), by omega⟩
          subst split
          have offset : left.size + 1 + inner - left.toList.length = inner + 1 := by
            rw [length_toList]
            omega
          have hereBelow : below here key = true := by
            apply before
            rw [List.take_append, offset]
            simp
          have found : right.lowerBound below key = some inner := by
            apply ihr
            · rw [List.getElem?_append_right (by rw [length_toList]; omega), offset,
                List.getElem?_cons_succ] at located
              exact located
            · intro earlier member
              apply before
              rw [List.take_append, offset, List.take_succ_cons]
              simp [member]
            · rwa [Nat.add_sub_cancel_left] at turns
          simp only [lowerBound, hereBelow, ↓reduceIte, found, Option.map_some]

theorem find_reached {below : α → α → Bool} {key item : α} {tree : Tree α}
    {position : Nat} (located : tree.toList[position]? = some item)
    (notBelow : below item key = false) (notAbove : below key item = false)
    (before : ∀ earlier ∈ tree.toList.take position, below earlier key = true)
    (turns : ∀ turn ∈ tree.leftTurns position, below turn key = false) :
    tree.find below key = some position := by
  simp [find, lowerBound_reached located notBelow before turns, located, notAbove]

end Tree

/-- The order a container keeps: nothing is below an item that comes before it. -/
def Ordered {α : Type u} (below : α → α → Bool) (items : List α) : Prop :=
  items.Pairwise fun earlier later => below later earlier = false

/-- What a comparator has to satisfy for its container to stay in order. -/
structure WeakOrder {α : Type u} (below : α → α → Bool) : Prop where
  asymm : ∀ first second, below first second = true → below second first = false
  trans : ∀ first second third, below second first = false →
    below third second = false → below third first = false

theorem Tree.ordered_insert {α : Type u} {below : α → α → Bool} (order : WeakOrder below)
    (new : α) {tree : Tree α} (ordered : Ordered below tree.toList) :
    Ordered below (tree.insert below new).toList := by
  induction tree with
  | leaf => exact List.pairwise_singleton _ _
  | node left here right ihl ihr =>
      obtain ⟨leftOrdered, restOrdered, across⟩ := List.pairwise_append.mp ordered
      obtain ⟨hereFirst, rightOrdered⟩ := List.pairwise_cons.mp restOrdered
      simp only [insert]
      split
      · rename_i goesLeft
        refine List.pairwise_append.mpr ⟨ihl leftOrdered, restOrdered, ?_⟩
        intro earlier inLeft later inRest
        rcases (mem_insert below new earlier left).mp inLeft with rfl | inLeft
        · have reversed := order.asymm _ _ goesLeft
          rcases List.mem_cons.mp inRest with rfl | inRight
          · exact reversed
          · exact order.trans _ _ _ reversed (hereFirst later inRight)
        · exact across earlier inLeft later inRest
      · rename_i goesRight
        have notBelow : below new here = false := by simpa using goesRight
        refine List.pairwise_append.mpr ⟨leftOrdered,
          List.pairwise_cons.mpr ⟨?_, ihr rightOrdered⟩, ?_⟩
        · intro later inRight
          rcases (mem_insert below new later right).mp inRight with rfl | inRight
          · exact notBelow
          · exact hereFirst later inRight
        · intro earlier inLeft later inRest
          have belowHere := across earlier inLeft here (by simp)
          rcases List.mem_cons.mp inRest with rfl | inRight
          · exact belowHere
          · rcases (mem_insert below new later right).mp inRight with rfl | inRight
            · exact order.trans _ _ _ belowHere notBelow
            · exact across earlier inLeft later (by simp [inRight])

/-- The same insertion into a list: behind what is not above the new item. -/
theorem ordered_orderedInsert {α : Type u} {below : α → α → Bool} (order : WeakOrder below)
    (new : α) {items : List α} (ordered : Ordered below items) :
    Ordered below (items.orderedInsert (fun first second => below first second) new) := by
  induction items with
  | nil => exact List.pairwise_singleton _ _
  | cons first rest ih =>
      have parts := List.pairwise_cons.mp ordered
      rw [List.orderedInsert_cons]
      split
      · rename_i before
        apply List.pairwise_cons.mpr
        refine ⟨?_, ordered⟩
        have reversed := order.asymm _ _ before
        intro later member
        cases List.mem_cons.mp member with
        | inl same =>
            rw [same]
            exact reversed
        | inr inRest => exact order.trans _ _ _ reversed (parts.1 later inRest)
      · rename_i behind
        apply List.pairwise_cons.mpr
        refine ⟨?_, ih parts.2⟩
        intro later member
        cases (List.mem_orderedInsert _).mp member with
        | inl same =>
            rw [same]
            simpa using behind
        | inr inRest => exact parts.1 later inRest

/-- Where the new item goes does not depend on the items that are left out. -/
theorem filter_orderedInsert {α : Type u} {below : α → α → Bool} (order : WeakOrder below)
    (keep : α → Bool) (new : α) {items : List α} (ordered : Ordered below items) :
    (items.orderedInsert (fun first second => below first second) new).filter keep =
      if keep new then
        (items.filter keep).orderedInsert (fun first second => below first second) new
      else items.filter keep := by
  induction items with
  | nil =>
      rw [List.orderedInsert_nil, List.filter_cons]
      rfl
  | cons first rest ih =>
      have parts := List.pairwise_cons.mp ordered
      rw [List.orderedInsert_cons]
      by_cases before : below new first = true
      · rw [if_pos before, List.filter_cons]
        split
        · -- the new item is below the first that is kept
          cases kept : (first :: rest).filter keep with
          | nil => rfl
          | cons head left =>
              have member : head ∈ first :: rest :=
                (List.mem_filter.mp (kept ▸ List.mem_cons_self)).1
              have above : below new head = true := by
                cases List.mem_cons.mp member with
                | inl same =>
                    rw [same]
                    exact before
                | inr later =>
                    by_cases above : below new head = true
                    · exact above
                    · have reversed := order.trans _ _ _ (parts.1 head later)
                        (by simpa using above)
                      rw [reversed] at before
                      cases before
              rw [List.orderedInsert_cons, if_pos above]
        · rfl
      · rw [if_neg before, List.filter_cons, ih parts.2, List.filter_cons]
        cases keep first with
        | false => rfl
        | true =>
            simp only [↓reduceIte, List.orderedInsert_cons, if_neg before]
            split <;> rfl

end SearchTree
