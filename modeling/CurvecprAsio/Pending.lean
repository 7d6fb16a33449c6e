import CurvecprAsio.Send

set_option autoImplicit false

/- The ring `pending_`: a write appends to its live bytes and a head block takes
the first of them, wherever the cursors stand. -/
namespace CurvecprAsio

/-- The ring's cursors. Both may rest on `pending_maximum_` itself, and the
write cursor is the read cursor moved on by the live bytes. -/
structure PendingInv (s : Session) : Prop where
  small : s.pendingMaximum < 2 ^ 31
  allocated : s.pending = [] ∧ s.pendingUsed = 0 ∨ s.pending.length = s.pendingMaximum
  used : s.pendingUsed ≤ s.pendingMaximum
  current : s.pendingCurrent ≤ s.pendingMaximum
  next : s.pendingNext ≤ s.pendingMaximum
  behind : (s.pendingCurrent + s.pendingUsed) % s.pendingMaximum =
    s.pendingNext % s.pendingMaximum

/-- The copy stays inside `[0, pending_maximum_)`. -/
def RingCopy.Inside (maximum : Nat) (copy : RingCopy) : Prop :=
  copy.position + copy.length ≤ maximum

/-- The fields of the ring. -/
def Session.ringState (s : Session) : List UInt8 × Nat × Nat × Nat × Nat :=
  (s.pending, s.pendingMaximum, s.pendingUsed, s.pendingCurrent, s.pendingNext)

namespace PendingInv

variable {s : Session}

theorem frame {session : Session} (inv : PendingInv s)
    (same : session.ringState = s.ringState) : PendingInv session := by
  simp only [Session.ringState, Prod.mk.injEq] at same
  obtain ⟨pending, maximum, used, current, next⟩ := same
  refine ⟨?_, ?_, ?_, ?_, ?_, ?_⟩
  · rw [maximum]
    exact inv.small
  · rw [maximum, pending, used]
    exact inv.allocated
  · rw [maximum, used]
    exact inv.used
  · rw [maximum, current]
    exact inv.current
  · rw [maximum, next]
    exact inv.next
  · rw [maximum, current, used, next]
    exact inv.behind

theorem fresh {session : Session} (fresh : session.Fresh)
    (small : session.pendingMaximum < 2 ^ 31) : PendingInv session where
  small := small
  allocated := Or.inl ⟨fresh.pending, fresh.pendingUsed⟩
  used := by rw [fresh.pendingUsed]; exact Nat.zero_le _
  current := by rw [fresh.pendingCurrent]; exact Nat.zero_le _
  next := by rw [fresh.pendingNext]; exact Nat.zero_le _
  behind := by rw [fresh.pendingCurrent, fresh.pendingUsed, fresh.pendingNext]

theorem used_eq_zero (inv : PendingInv s) (empty : s.pending.isEmpty = true) :
    s.pendingUsed = 0 := by
  rcases inv.allocated with ⟨_, nothing⟩ | length
  · exact nothing
  · have used := inv.used
    rw [← length, List.isEmpty_iff.mp empty] at used
    exact Nat.le_zero.mp used

/-- The ring once it has been resized, whose live bytes are those of before. -/
theorem resized (inv : PendingInv s) :
    ∃ pending, (if s.pending.isEmpty then List.replicate s.pendingMaximum 0 else s.pending) =
        pending ∧ pending.length = s.pendingMaximum ∧
      Ring.window pending s.pendingCurrent s.pendingUsed = s.ringContents := by
  refine ⟨_, rfl, ?_⟩
  split
  · rename_i empty
    rw [Session.ringContents, inv.used_eq_zero empty]
    exact ⟨List.length_replicate, rfl⟩
  · rename_i filled
    rcases inv.allocated with ⟨empty, _⟩ | length
    · exact absurd (List.isEmpty_iff.mpr empty) filled
    · exact ⟨length, rfl⟩

/-- The copies of a write that fits put its bytes behind the live ones. -/
theorem fill (inv : PendingInv s) {buffer : Buffer}
    (room : s.pendingUsed + buffer.length ≤ s.pendingMaximum) :
    (s.fill buffer).1.length = s.pendingMaximum ∧
      Ring.window (s.fill buffer).1 s.pendingCurrent (s.pendingUsed + buffer.length) =
        s.ringContents ++ buffer.bytes ∧
      (s.fill buffer).2.1 ≤ s.pendingMaximum ∧
      (s.pendingCurrent + (s.pendingUsed + buffer.length)) % s.pendingMaximum =
        (s.fill buffer).2.1 % s.pendingMaximum ∧
      ∀ copy ∈ (s.fill buffer).2.2, copy.Inside s.pendingMaximum := by
  obtain ⟨pending, resized, length, live⟩ := inv.resized
  have small := inv.small
  have within := inv.next
  have total : add64 s.pendingNext buffer.length = s.pendingNext + buffer.length :=
    add64_eq (by omega)
  have moved : (s.pendingCurrent + (s.pendingUsed + buffer.length)) % s.pendingMaximum =
      (s.pendingNext + buffer.length) % s.pendingMaximum := by
    rw [← Nat.add_assoc, Nat.add_mod, inv.behind, ← Nat.add_mod]
  have extended := Ring.window_overwriteSplit pending buffer.bytes s.pendingCurrent
    s.pendingUsed s.pendingNext (by omega) (by rw [length]; exact room)
    (by rw [length]; exact inv.behind)
  rw [live] at extended
  simp only [Session.fill, resized, total]
  split
  · rename_i wraps
    have avail : toSize (toInt (sub64 s.pendingMaximum s.pendingNext)) =
        pending.length - s.pendingNext := by
      rw [sub64_eq within (by omega), toSize_toInt (by omega), length]
    have rest : sub64 buffer.length (pending.length - s.pendingNext) =
        buffer.length - (pending.length - s.pendingNext) :=
      sub64_eq (by omega) buffer.length_lt
    simp only [avail, rest]
    refine ⟨?_, extended, by omega, ?_, ?_⟩
    · rw [Ring.length_overwrite, Ring.length_overwrite, length]
    · rw [moved, show s.pendingNext + buffer.length =
        buffer.length - (pending.length - s.pendingNext) + s.pendingMaximum by omega,
        Nat.add_mod_right]
    · intro copy member
      simp only [List.mem_cons, List.not_mem_nil, or_false] at member
      rcases member with rfl | rfl
      · simp only [RingCopy.Inside]
        omega
      · simp only [RingCopy.Inside]
        omega
  · rename_i straight
    rw [Ring.overwriteSplit_straight _ _ _ (by
      rw [length]
      simp only [Buffer.length] at straight
      omega)] at extended
    refine ⟨?_, extended, by dsimp only; omega, moved, ?_⟩
    · rw [Ring.length_overwrite, length]
    · intro copy member
      rw [List.mem_singleton] at member
      subst member
      simp only [RingCopy.Inside]
      omega

theorem requested (inv : PendingInv s) :
    s.requested = ((min s.pendingUsed s.messager.myMaximumSendBytes : Nat) : Int) := by
  have small := inv.small
  have used := inv.used
  exact toInt_eq (by omega)

/-- The copies of a head block take the first live bytes. -/
theorem drain (inv : PendingInv s) (allocated : s.pending.length = s.pendingMaximum)
    {taken : Nat} (asked : s.requested = (taken : Int)) (enough : taken ≤ s.pendingUsed) :
    s.drain.1 = s.ringContents.take taken ∧
      Ring.window s.pending s.drain.2.1 (s.pendingUsed - taken) = s.ringContents.drop taken ∧
      s.drain.2.1 ≤ s.pendingMaximum ∧
      (s.drain.2.1 + (s.pendingUsed - taken)) % s.pendingMaximum =
        s.pendingNext % s.pendingMaximum ∧
      ∀ copy ∈ s.drain.2.2, copy.Inside s.pendingMaximum := by
  have small := inv.small
  have within := inv.current
  have used := inv.used
  have size : toSize s.requested = taken := by
    rw [asked]
    exact toSize_natCast (by omega)
  have total : add64 s.pendingCurrent taken = s.pendingCurrent + taken := add64_eq (by omega)
  have dropped := Ring.window_drop s.pending s.pendingCurrent s.pendingUsed taken
    (by omega) enough
  have behind : (s.pendingCurrent + taken + (s.pendingUsed - taken)) % s.pendingMaximum =
      s.pendingNext % s.pendingMaximum := by
    rw [Nat.add_assoc, Nat.add_sub_of_le enough]
    exact inv.behind
  simp only [Session.drain, size, total]
  split
  · rename_i wraps
    have avail : toInt (sub64 s.pendingMaximum s.pendingCurrent) =
        ((s.pendingMaximum - s.pendingCurrent : Nat) : Int) := by
      rw [sub64_eq within (by omega), toInt_eq (by omega)]
    have rest : toSize (s.requested - ((s.pendingMaximum - s.pendingCurrent : Nat) : Int)) =
        taken - (s.pendingMaximum - s.pendingCurrent) := by
      rw [asked, ← Int.ofNat_sub (by omega)]
      exact toSize_natCast (by omega)
    have around : s.pendingCurrent + taken =
        taken - (s.pendingMaximum - s.pendingCurrent) + s.pendingMaximum := by omega
    simp only [avail, rest, toSize_natCast (show s.pendingMaximum - s.pendingCurrent < 2 ^ 64 by
      omega)]
    refine ⟨?_, ?_, by omega, ?_, ?_⟩
    · rw [Session.ringContents, Ring.window_take_wrapped _ _ _ _ (by omega) (by omega) enough
        (by omega), allocated]
    · rw [Session.ringContents, dropped]
      apply Ring.window_congr
      rw [allocated, around, Nat.add_mod_right]
    · rw [← behind, around, Nat.add_right_comm, Nat.add_mod_right]
    · intro copy member
      simp only [List.mem_cons, List.not_mem_nil, or_false] at member
      rcases member with rfl | rfl
      · simp only [RingCopy.Inside]
        omega
      · simp only [RingCopy.Inside]
        omega
  · rename_i straight
    refine ⟨?_, dropped.symm, by dsimp only; omega, behind, ?_⟩
    · rw [Session.ringContents, Ring.window_take_straight _ _ _ _ (by omega) enough]
    · intro copy member
      rw [List.mem_singleton] at member
      subst member
      simp only [RingCopy.Inside]
      omega

end PendingInv

/-- What a write does: nothing, or its bytes go behind the live ones and are
reported. -/
structure WriteSpec (s : Session) (buffer : Buffer) (result : WriteResult) : Prop where
  inv : PendingInv result.session
  inside : ∀ copy ∈ result.copies, copy.Inside s.pendingMaximum
  outcome : result.session = s ∧ result.bytesTransferred = 0 ∨
    (∃ pending next used strand, result.session = { s with
      pending := pending, pendingNext := next, pendingUsed := used, strand := strand }) ∧
      result.bytesTransferred = buffer.length ∧ buffer.length ≠ 0 ∧ s.pendingEof = false ∧
      result.session.ringContents = s.ringContents ++ buffer.bytes

theorem PendingInv.write {s : Session} (inv : PendingInv s) (buffer : Buffer) :
    WriteSpec s buffer (s.write buffer) := by
  unfold Session.write
  split
  · exact ⟨inv, by simp, Or.inl ⟨rfl, rfl⟩⟩
  · rename_i nonempty
    split
    · exact ⟨inv, by simp, Or.inl ⟨rfl, rfl⟩⟩
    · rename_i open_
      have small := inv.small
      have used := inv.used
      rw [sub64_eq used (by omega)]
      split
      · exact ⟨inv, by simp, Or.inl ⟨rfl, rfl⟩⟩
      · rename_i room
        obtain ⟨length, live, within, behind, inside⟩ := inv.fill
          (show s.pendingUsed + buffer.length ≤ s.pendingMaximum by omega)
        have total : add64 s.pendingUsed buffer.length = s.pendingUsed + buffer.length :=
          add64_eq (by omega)
        simp only [total]
        have stands : PendingInv { s with
            pending := (s.fill buffer).1, pendingNext := (s.fill buffer).2.1
            pendingUsed := s.pendingUsed + buffer.length } :=
          ⟨inv.small, Or.inr length, by dsimp only; omega, inv.current, within,
            behind⟩
        have closed : s.pendingEof = false := by simpa using open_
        split
        · exact ⟨stands.frame rfl, inside,
            Or.inr ⟨⟨_, _, _, _, rfl⟩, rfl, nonempty, closed, live⟩⟩
        · exact ⟨stands, inside, Or.inr ⟨⟨_, _, _, _, rfl⟩, rfl, nonempty, closed, live⟩⟩

/-- What asking for a head block does: nothing, or the head takes the first
live bytes, as many as were asked for, and is marked when none remain at EOF. -/
structure HeadSpec (s : Session) (result : HeadResult) : Prop where
  inv : PendingInv result.session
  inside : ∀ copy ∈ result.copies, copy.Inside s.pendingMaximum
  outcome : result.session = s ∨
    s.sendqHeadExists = false ∧ (∃ block current used strand, result.session = { s with
      sendqHead := block, sendqHeadExists := true, pendingCurrent := current
      pendingUsed := used, strand := strand }) ∧
      result.session.sendqHead.dataLen = min s.pendingUsed s.messager.myMaximumSendBytes ∧
      result.session.sendqHead.data ++ result.session.ringContents = s.ringContents ∧
      result.session.sendqHead.offset = 0 ∧
      (result.session.sendqHead.marked = true ↔
        s.pendingEof = true ∧ result.session.pendingUsed = 0)

theorem payload_eq {copied : List UInt8} {len : Nat} (length : copied.length = len) :
    Session.payload copied len = copied := by
  rw [Session.payload, ← length, List.take_left]

theorem PendingInv.takeHead {s : Session} (inv : PendingInv s) :
    PendingInv s.takeHead.1 ∧ (∀ copy ∈ s.takeHead.2, copy.Inside s.pendingMaximum) ∧
      (∃ block current used strand, s.takeHead.1 = { s with
        sendqHead := block, pendingCurrent := current, pendingUsed := used
        strand := strand }) ∧
      s.takeHead.1.sendqHead.dataLen = min s.pendingUsed s.messager.myMaximumSendBytes ∧
      s.takeHead.1.sendqHead.data ++ s.takeHead.1.ringContents = s.ringContents ∧
      s.takeHead.1.sendqHead.offset = 0 := by
  unfold Session.takeHead
  split
  · rename_i empty
    have nothing := inv.used_eq_zero empty
    refine ⟨?_, by simp, ⟨_, _, _, _, rfl⟩, ?_, rfl, rfl⟩
    · exact inv.frame rfl
    · rw [nothing, Nat.zero_min]
      rfl
  · rename_i filled
    have allocated : s.pending.length = s.pendingMaximum := by
      rcases inv.allocated with ⟨empty, _⟩ | length
      · exact absurd (List.isEmpty_iff.mpr empty) filled
      · exact length
    have small := inv.small
    have used := inv.used
    have size : toSize s.requested = min s.pendingUsed s.messager.myMaximumSendBytes := by
      rw [inv.requested]
      exact toSize_natCast (by omega)
    have enough : toSize s.requested ≤ s.pendingUsed := by
      rw [size]
      exact Nat.min_le_left _ _
    have asked : s.requested = (toSize s.requested : Int) := by
      rw [size]
      exact inv.requested
    obtain ⟨copied, left, within, behind, inside⟩ := inv.drain allocated asked enough
    have remaining : sub64 s.pendingUsed (toSize s.requested) =
        s.pendingUsed - toSize s.requested := sub64_eq enough (by omega)
    have stored : Session.payload s.drain.1 (toSize s.requested) = s.drain.1 := by
      apply payload_eq
      rw [copied, List.length_take, Session.ringContents,
        Ring.length_window _ _ _ (by omega), Nat.min_eq_left enough]
    rw [remaining]
    refine ⟨?_, inside, ⟨_, _, _, _, rfl⟩, (Session.length_payload _ _).trans size, ?_, rfl⟩
    · exact ⟨inv.small, Or.inr allocated, Nat.le_trans (Nat.sub_le _ _) used,
        within, inv.next, behind⟩
    · change Session.payload s.drain.1 _ ++ Ring.window s.pending s.drain.2.1 _ = _
      rw [stored, left, copied, List.take_append_drop]

theorem PendingInv.handleSendqHead {s : Session} (inv : PendingInv s) :
    HeadSpec s s.handleSendqHead := by
  obtain ⟨stands, inside, ⟨block, current, used, strand, changed⟩, length, bytes, offset⟩ :=
    inv.takeHead
  unfold Session.handleSendqHead
  split
  · exact ⟨inv, by simp, Or.inl rfl⟩
  · rename_i absent
    split
    · refine ⟨stands.frame rfl, inside,
        Or.inr ⟨by simpa using absent, ?_, length, bytes, offset, ?_⟩⟩
      · simp only [changed]
        exact ⟨_, _, _, _, rfl⟩
      · simp only [Block.marked, changed]
        split
        · rename_i last
          simpa using last.symm
        · rename_i more
          simpa [and_comm] using more
    · exact ⟨inv, by simp, Or.inl rfl⟩

end CurvecprAsio
