import Mathlib.Data.List.Rotate

set_option autoImplicit false

/- Cyclic buffers over a list of cells. The live items are a window that starts
at a cursor and wraps around the end; a cursor may rest on the end itself. -/
namespace Ring

universe u

variable {α : Type u}

/-- Copy `items` over the cells from `position` on. Cells outside the buffer
do not exist: what would be written there is dropped. -/
def overwrite (cells : List α) (position : Nat) (items : List α) : List α :=
  (cells.take position ++ items ++ cells.drop (position + items.length)).take cells.length

/-- The `count` live cells from the cursor `start` on, modulo the buffer. -/
def window (cells : List α) (start count : Nat) : List α :=
  (cells.rotate start).take count

/-- One copy up to the end of the buffer and one from its beginning. -/
def overwriteSplit (cells : List α) (position : Nat) (items : List α) : List α :=
  overwrite (overwrite cells position (items.take (cells.length - position))) 0
    (items.drop (cells.length - position))

theorem overwrite_fits (cells items : List α) (position : Nat)
    (fits : position + items.length ≤ cells.length) :
    overwrite cells position items =
      cells.take position ++ items ++ cells.drop (position + items.length) := by
  apply List.take_of_length_le
  simp only [List.length_append, List.length_take, List.length_drop]
  omega

@[simp] theorem length_overwrite (cells items : List α) (position : Nat) :
    (overwrite cells position items).length = cells.length := by
  simp only [overwrite, List.length_take, List.length_append, List.length_drop]
  omega

/-- Copying behind a filled part extends it. -/
theorem take_overwrite (cells items : List α) (position : Nat)
    (fits : position + items.length ≤ cells.length) :
    (overwrite cells position items).take (position + items.length) =
      cells.take position ++ items := by
  rw [overwrite_fits cells items position fits]
  apply List.take_left'
  simp only [List.length_append, List.length_take]
  omega

theorem getElem?_overwrite (cells items : List α) (position index : Nat)
    (fits : position + items.length ≤ cells.length) :
    (overwrite cells position items)[index]? =
      if position ≤ index ∧ index < position + items.length then items[index - position]?
      else cells[index]? := by
  have front : (cells.take position).length = position := by
    rw [List.length_take]
    omega
  rw [overwrite_fits cells items position fits, List.append_assoc]
  by_cases early : index < position
  · rw [List.getElem?_append_left (by omega), List.getElem?_take_of_lt early,
      if_neg (by omega)]
  · rw [List.getElem?_append_right (by omega), front]
    by_cases inside : index < position + items.length
    · rw [List.getElem?_append_left (by omega), if_pos ⟨by omega, inside⟩]
    · rw [List.getElem?_append_right (by omega), List.getElem?_drop,
        if_neg (by omega)]
      congr 1
      omega

/-- A cell of the buffer after a copy, wherever the copy ends. -/
theorem getElem?_overwrite_inside (cells items : List α) {position index : Nat}
    (inside : index < cells.length) :
    (overwrite cells position items)[index]? =
      if position ≤ index ∧ index < position + items.length then items[index - position]?
      else cells[index]? := by
  rw [overwrite, List.getElem?_take_of_lt inside, List.append_assoc]
  by_cases early : index < position
  · rw [List.getElem?_append_left (by rw [List.length_take]; omega),
      List.getElem?_take_of_lt early, if_neg (by omega)]
  · have front : (cells.take position).length = position := by
      rw [List.length_take]
      omega
    rw [List.getElem?_append_right (by omega), front]
    by_cases copied : index < position + items.length
    · rw [List.getElem?_append_left (by omega), if_pos ⟨by omega, copied⟩]
    · rw [List.getElem?_append_right (by omega), List.getElem?_drop, if_neg (by omega)]
      congr 1
      omega

/-- Two copies, the second where the first ends, are one copy. -/
theorem overwrite_append (cells first second : List α) (position : Nat) :
    overwrite (overwrite cells position first) (position + first.length) second =
      overwrite cells position (first ++ second) := by
  apply List.ext_getElem?
  intro index
  by_cases inside : index < cells.length
  · rw [getElem?_overwrite_inside _ _ (by rw [length_overwrite]; exact inside),
      getElem?_overwrite_inside _ _ inside, getElem?_overwrite_inside _ _ inside,
      List.length_append]
    by_cases behind : position + first.length ≤ index
    · by_cases copied : index < position + first.length + second.length
      · rw [if_pos ⟨behind, copied⟩, if_pos (by omega),
          List.getElem?_append_right (by omega)]
        congr 1
        omega
      · rw [if_neg (by omega), if_neg (by omega), if_neg (by omega)]
    · rw [if_neg (by omega)]
      by_cases copied : position ≤ index
      · rw [if_pos (by omega), if_pos (by omega), List.getElem?_append_left (by omega)]
      · rw [if_neg (by omega), if_neg (by omega)]
  · rw [List.getElem?_eq_none (by rw [length_overwrite, length_overwrite]; omega),
      List.getElem?_eq_none (by rw [length_overwrite]; omega)]

@[simp] theorem window_zero (cells : List α) (start : Nat) : window cells start 0 = [] := rfl

theorem length_window (cells : List α) (start count : Nat) (fits : count ≤ cells.length) :
    (window cells start count).length = count := by
  simp only [window, List.length_take, List.length_rotate]
  omega

theorem getElem?_window (cells : List α) (start count index : Nat) (inside : index < count)
    (fits : count ≤ cells.length) :
    (window cells start count)[index]? = cells[(index + start) % cells.length]? := by
  rw [window, List.getElem?_take_of_lt inside, List.getElem?_rotate (by omega)]

/-- Cursors that agree modulo the buffer read the same window: one that rests
on the end is as good as one at zero. -/
theorem window_congr (cells : List α) {start other : Nat} (count : Nat)
    (same : start % cells.length = other % cells.length) :
    window cells start count = window cells other count := by
  rw [window, window, ← List.rotate_mod cells start, same, List.rotate_mod]

/-- The first live cells when they end before the buffer does. -/
theorem window_take_straight (cells : List α) (start count taken : Nat)
    (within : start + taken ≤ cells.length) (enough : taken ≤ count) :
    (window cells start count).take taken = (cells.drop start).take taken := by
  rw [window, List.take_take, Nat.min_eq_left enough,
    List.rotate_eq_drop_append_take (by omega)]
  apply List.take_append_of_le_length
  rw [List.length_drop]
  omega

/-- The first live cells when they wrap: the end of the buffer, then its
beginning. -/
theorem window_take_wrapped (cells : List α) (start count taken : Nat)
    (within : start ≤ cells.length) (wraps : cells.length ≤ start + taken)
    (enough : taken ≤ count) (fits : taken ≤ cells.length) :
    (window cells start count).take taken =
      (cells.drop start).take (cells.length - start) ++
        cells.take (taken - (cells.length - start)) := by
  have tail : (cells.drop start).length = cells.length - start := List.length_drop
  have whole : (cells.drop start).take taken = (cells.drop start).take (cells.length - start) := by
    rw [List.take_of_length_le (by omega), List.take_of_length_le (by omega)]
  rw [window, List.take_take, Nat.min_eq_left enough,
    List.rotate_eq_drop_append_take within, List.take_append, tail, List.take_take,
    Nat.min_eq_left (by omega), whole]

/-- Advancing the cursor drops what it passes. -/
theorem window_drop (cells : List α) (start count taken : Nat) (fits : count ≤ cells.length)
    (enough : taken ≤ count) :
    (window cells start count).drop taken = window cells (start + taken) (count - taken) := by
  apply List.ext_getElem?
  intro index
  by_cases inside : index < count - taken
  · rw [List.getElem?_drop, getElem?_window _ _ _ _ (by omega) fits,
      getElem?_window _ _ _ _ inside (by omega)]
    congr 2
    omega
  · rw [List.getElem?_eq_none, List.getElem?_eq_none]
    · rw [length_window _ _ _ (by omega)]
      omega
    · rw [List.length_drop, length_window _ _ _ fits]
      omega

private theorem mod_of_le_double {position length : Nat} (below : position < 2 * length) :
    position % length = if position < length then position else position - length := by
  split
  · rename_i small
    exact Nat.mod_eq_of_lt small
  · rename_i large
    rw [Nat.mod_eq_sub_mod (by omega), Nat.mod_eq_of_lt (by omega)]

@[simp] theorem length_overwriteSplit (cells items : List α) (position : Nat) :
    (overwriteSplit cells position items).length = cells.length := by
  simp only [overwriteSplit, length_overwrite]

/-- Counting from the write cursor, a split copy replaces the first cells and
no others. -/
theorem getElem?_overwriteSplit (cells items : List α) (position index : Nat)
    (within : position ≤ cells.length) (fits : items.length ≤ cells.length)
    (inside : index < cells.length) :
    (overwriteSplit cells position items)[(position + index) % cells.length]? =
      if index < items.length then items[index]?
      else cells[(position + index) % cells.length]? := by
  have front : (items.take (cells.length - position)).length =
      min (cells.length - position) items.length := List.length_take
  have back : (items.drop (cells.length - position)).length =
      items.length - (cells.length - position) := List.length_drop
  rw [overwriteSplit, getElem?_overwrite _ _ _ _ (by rw [length_overwrite]; omega),
    getElem?_overwrite _ _ _ _ (by omega),
    mod_of_le_double (show position + index < 2 * cells.length by omega)]
  by_cases early : position + index < cells.length
  · rw [if_pos early, if_neg (by omega)]
    by_cases copied : index < items.length
    · rw [if_pos (by omega), if_pos copied, List.getElem?_take_of_lt (by omega),
        Nat.add_sub_cancel_left]
    · rw [if_neg (by omega), if_neg copied]
  · rw [if_neg early]
    by_cases copied : index < items.length
    · rw [if_pos (by omega), if_pos copied, List.getElem?_drop]
      congr 1
      omega
    · rw [if_neg (by omega), if_neg (by omega), if_neg copied]

/-- Filling the free cells behind the window extends it, wherever the cursors
stand and whether or not the copy wraps. -/
theorem window_overwriteSplit (cells items : List α) (start count position : Nat)
    (within : position ≤ cells.length) (room : count + items.length ≤ cells.length)
    (behind : (start + count) % cells.length = position % cells.length) :
    window (overwriteSplit cells position items) start (count + items.length) =
      window cells start count ++ items := by
  apply List.ext_getElem?
  intro index
  by_cases inside : index < count + items.length
  · rw [getElem?_window _ _ _ _ inside (by rw [length_overwriteSplit]; omega),
      length_overwriteSplit]
    by_cases old : index < count
    · rw [List.getElem?_append_left (by rw [length_window _ _ _ (by omega)]; exact old),
        getElem?_window _ _ _ _ old (by omega)]
      have cell : (index + start) % cells.length =
          (position + (index + (cells.length - count))) % cells.length := by
        rw [Nat.add_mod position, ← behind, ← Nat.add_mod,
          show start + count + (index + (cells.length - count)) =
            index + start + cells.length by omega, Nat.add_mod_right]
      rw [cell, getElem?_overwriteSplit _ _ _ _ within (by omega) (by omega),
        if_neg (by omega)]
    · rw [List.getElem?_append_right (by rw [length_window _ _ _ (by omega)]; omega),
        length_window _ _ _ (by omega)]
      have cell : (index + start) % cells.length =
          (position + (index - count)) % cells.length := by
        rw [Nat.add_mod position, ← behind, ← Nat.add_mod,
          show start + count + (index - count) = index + start by omega]
      rw [cell, getElem?_overwriteSplit _ _ _ _ within (by omega) (by omega),
        if_pos (by omega)]
  · rw [List.getElem?_eq_none, List.getElem?_eq_none]
    · rw [List.length_append, length_window _ _ _ (by omega)]
      omega
    · rw [length_window _ _ _ (by rw [length_overwriteSplit]; omega)]
      omega

/-- A copy that does not reach the end is the same copy unsplit. -/
theorem overwriteSplit_straight (cells items : List α) (position : Nat)
    (fits : position + items.length ≤ cells.length) :
    overwriteSplit cells position items = overwrite cells position items := by
  rw [overwriteSplit, List.take_of_length_le (by omega), List.drop_eq_nil_of_le (by omega)]
  simp [overwrite]

end Ring
