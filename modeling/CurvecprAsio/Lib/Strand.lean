import Mathlib.Data.List.Perm.Basic

set_option autoImplicit false

/- Timers and the handlers of one strand. A wait that ends, by expiry or by
cancellation, leaves its handler queued; cancelling a timer does nothing to the
handlers that are already queued, and queued handlers run in any order. -/
namespace Strand

universe u v

/-- How a wait ended, as the handler is told. -/
inductive Completion where
  | success
  | aborted
  deriving DecidableEq, Repr

structure Queue (τ : Type u) (η : Type v) where
  waiting : List (τ × η) := []
  ready : List (η × Completion) := []
  deriving DecidableEq, Repr

namespace Queue

variable {τ : Type u} {η : Type v}

def asyncWait (queue : Queue τ η) (timer : τ) (handler : η) : Queue τ η :=
  { queue with waiting := queue.waiting ++ [(timer, handler)] }

/-- A function handed to the strand, to be run once the strand is free. -/
def dispatch (queue : Queue τ η) (handler : η) : Queue τ η :=
  { queue with ready := queue.ready ++ [(handler, .success)] }

/-- Take the handler that runs next. -/
def take (queue : Queue τ η) (index : Nat) : Queue τ η :=
  { queue with ready := queue.ready.eraseIdx index }

/-- Every handler the strand still holds. -/
def handlers (queue : Queue τ η) : List η :=
  queue.waiting.map Prod.snd ++ queue.ready.map Prod.fst

@[simp] theorem mem_waiting_asyncWait (queue : Queue τ η) (timer : τ) (handler : η)
    (wait : τ × η) :
    wait ∈ (queue.asyncWait timer handler).waiting ↔
      wait ∈ queue.waiting ∨ wait = (timer, handler) := by
  simp [asyncWait]

@[simp] theorem ready_asyncWait (queue : Queue τ η) (timer : τ) (handler : η) :
    (queue.asyncWait timer handler).ready = queue.ready := rfl

@[simp] theorem mem_ready_dispatch (queue : Queue τ η) (handler : η)
    (due : η × Completion) :
    due ∈ (queue.dispatch handler).ready ↔ due ∈ queue.ready ∨ due = (handler, .success) := by
  simp [dispatch]

@[simp] theorem waiting_take (queue : Queue τ η) (index : Nat) :
    (queue.take index).waiting = queue.waiting := rfl

theorem mem_of_mem_take {queue : Queue τ η} {index : Nat} {due : η × Completion}
    (member : due ∈ (queue.take index).ready) : due ∈ queue.ready :=
  List.mem_of_mem_eraseIdx member

theorem mem_handlers (queue : Queue τ η) (handler : η) :
    handler ∈ queue.handlers ↔
      (∃ timer, (timer, handler) ∈ queue.waiting) ∨ ∃ told, (handler, told) ∈ queue.ready := by
  simp [handlers]

theorem handlers_asyncWait (queue : Queue τ η) (timer : τ) (handler : η) :
    (queue.asyncWait timer handler).handlers.Perm (handler :: queue.handlers) := by
  simp only [handlers, asyncWait, List.map_append, List.map_cons, List.map_nil,
    List.append_assoc, List.singleton_append]
  exact List.perm_middle

theorem handlers_dispatch (queue : Queue τ η) (handler : η) :
    (queue.dispatch handler).handlers.Perm (handler :: queue.handlers) := by
  simp only [handlers, dispatch, List.map_append, List.map_cons, List.map_nil]
  rw [← List.append_assoc]
  exact List.perm_append_singleton _ _

theorem handlers_take (queue : Queue τ η) {index : Nat} {due : η × Completion}
    (next : queue.ready[index]? = some due) :
    queue.handlers.Perm (due.1 :: (queue.take index).handlers) := by
  obtain ⟨inside, located⟩ := List.getElem?_eq_some_iff.mp next
  have first := (List.getElem_cons_eraseIdx_perm inside).map Prod.fst
  rw [located] at first
  simp only [handlers, take]
  exact (first.symm.append_left _).trans List.perm_middle

/-- What is dispatched comes last; once it is taken the queue is as before. -/
theorem getElem?_ready_dispatch (queue : Queue τ η) (handler : η) :
    (queue.dispatch handler).ready[queue.ready.length]? = some (handler, .success) := by
  simp [dispatch]

theorem take_dispatch (queue : Queue τ η) (handler : η) :
    (queue.dispatch handler).take queue.ready.length = queue := by
  simp [dispatch, take, List.eraseIdx_append_of_length_le]

theorem length_ready_take {queue : Queue τ η} {index : Nat} {due : η × Completion}
    (located : queue.ready[index]? = some due) :
    (queue.take index).ready.length + 1 = queue.ready.length := by
  obtain ⟨inside, _⟩ := List.getElem?_eq_some_iff.mp located
  simp only [take, List.length_eraseIdx, inside, ↓reduceIte]
  omega

theorem count_ready_take [DecidableEq η] (queue : Queue τ η) {index : Nat} {due : η × Completion}
    (located : queue.ready[index]? = some due) (other : η × Completion) :
    queue.ready.count other =
      (queue.take index).ready.count other + if other = due then 1 else 0 := by
  obtain ⟨inside, atIndex⟩ := List.getElem?_eq_some_iff.mp located
  have parts := (List.getElem_cons_eraseIdx_perm inside).count_eq other
  rw [← parts, atIndex, List.count_cons]
  simp only [take, beq_iff_eq, @eq_comm _ other]

/-- `later` comes from `queue` by ending waits on touched timers as aborted. -/
structure Ends (touched : τ → Prop) (queue later : Queue τ η) : Prop where
  handlers : later.handlers.Perm queue.handlers
  waits : ∀ wait ∈ later.waiting, wait ∈ queue.waiting
  holds : ∀ wait ∈ queue.waiting, ¬ touched wait.1 → wait ∈ later.waiting
  due : ∀ due ∈ queue.ready, due ∈ later.ready
  ended : ∀ due ∈ later.ready, due ∈ queue.ready ∨
    due.2 = .aborted ∧ ∃ timer, touched timer ∧ (timer, due.1) ∈ queue.waiting

theorem Ends.refl (touched : τ → Prop) (queue : Queue τ η) : Ends touched queue queue where
  handlers := List.Perm.refl _
  waits := fun _ member => member
  holds := fun _ member _ => member
  due := fun _ member => member
  ended := fun _ member => Or.inl member

theorem Ends.trans {touched : τ → Prop} {first second third : Queue τ η}
    (before : Ends touched first second) (after : Ends touched second third) :
    Ends touched first third where
  handlers := after.handlers.trans before.handlers
  waits := fun wait member => before.waits wait (after.waits wait member)
  holds := fun wait member untouched =>
    after.holds wait (before.holds wait member untouched) untouched
  due := fun due member => after.due due (before.due due member)
  ended := by
    intro due member
    rcases after.ended due member with old | ⟨told, timer, inside, waited⟩
    · exact before.ended due old
    · exact Or.inr ⟨told, timer, inside, before.waits _ waited⟩

/-- The handler waits on its timer, or is due without an error. -/
def Armed (queue : Queue τ η) (timer : τ) (handler : η) : Prop :=
  (timer, handler) ∈ queue.waiting ∨ (handler, .success) ∈ queue.ready

section Armed

variable {queue : Queue τ η} {timer : τ} {handler : η}

theorem Armed.ends (armed : queue.Armed timer handler) {touched : τ → Prop} {later : Queue τ η}
    (untouched : ¬ touched timer) (ends : Ends touched queue later) :
    later.Armed timer handler := by
  rcases armed with waits | due
  · exact Or.inl (ends.holds _ waits untouched)
  · exact Or.inr (ends.due _ due)

theorem Armed.asyncWait (armed : queue.Armed timer handler) (other : τ) (waiter : η) :
    (queue.asyncWait other waiter).Armed timer handler := by
  rcases armed with waits | due
  · exact Or.inl ((mem_waiting_asyncWait _ _ _ _).mpr (Or.inl waits))
  · exact Or.inr due

theorem Armed.dispatch (armed : queue.Armed timer handler) (other : η) :
    (queue.dispatch other).Armed timer handler := by
  rcases armed with waits | due
  · exact Or.inl waits
  · exact Or.inr ((mem_ready_dispatch _ _ _).mpr (Or.inl due))

theorem Armed.take (armed : queue.Armed timer handler) {index : Nat} {due : η × Completion}
    (located : queue.ready[index]? = some due) (other : due ≠ (handler, .success)) :
    (queue.take index).Armed timer handler := by
  rcases armed with waits | ready
  · exact Or.inl waits
  · apply Or.inr
    apply List.mem_eraseIdx_iff_getElem?.mpr
    obtain ⟨position, atPosition⟩ := List.mem_iff_getElem?.mp ready
    refine ⟨position, ?_, atPosition⟩
    intro same
    rw [same, located] at atPosition
    exact other (Option.some.inj atPosition)

end Armed

variable [DecidableEq τ]

/-- End all waits on one timer with the same completion. -/
def finish (queue : Queue τ η) (timer : τ) (completion : Completion) : Queue τ η where
  waiting := queue.waiting.filter fun wait => wait.1 ≠ timer
  ready := queue.ready ++
    (queue.waiting.filter fun wait => wait.1 = timer).map fun wait => (wait.2, completion)

def cancel (queue : Queue τ η) (timer : τ) : Queue τ η := queue.finish timer .aborted

def expire (queue : Queue τ η) (timer : τ) : Queue τ η := queue.finish timer .success

/-- Setting a new expiry time cancels the waits on the old one. -/
def rearm (queue : Queue τ η) (timer : τ) (handler : η) : Queue τ η :=
  (queue.cancel timer).asyncWait timer handler

@[simp] theorem mem_waiting_finish (queue : Queue τ η) (timer : τ)
    (completion : Completion) (wait : τ × η) :
    wait ∈ (queue.finish timer completion).waiting ↔ wait ∈ queue.waiting ∧ wait.1 ≠ timer := by
  simp [finish]

@[simp] theorem mem_ready_finish (queue : Queue τ η) (timer : τ)
    (completion : Completion) (due : η × Completion) :
    due ∈ (queue.finish timer completion).ready ↔
      due ∈ queue.ready ∨ (due.2 = completion ∧ (timer, due.1) ∈ queue.waiting) := by
  obtain ⟨handler, told⟩ := due
  simp only [finish, List.mem_append, List.mem_map, List.mem_filter, decide_eq_true_eq,
    Prod.mk.injEq]
  constructor
  · rintro (old | ⟨⟨other, waiter⟩, ⟨member, rfl⟩, rfl, rfl⟩)
    · exact Or.inl old
    · exact Or.inr ⟨rfl, member⟩
  · rintro (old | ⟨rfl, member⟩)
    · exact Or.inl old
    · exact Or.inr ⟨(timer, handler), ⟨member, rfl⟩, rfl, rfl⟩

section Count

variable [DecidableEq η]

theorem count_waiting_asyncWait (queue : Queue τ η) (timer : τ) (handler : η) (wait : τ × η) :
    (queue.asyncWait timer handler).waiting.count wait =
      queue.waiting.count wait + if wait = (timer, handler) then 1 else 0 := by
  simp only [asyncWait, List.count_append, List.count_singleton, beq_iff_eq, @eq_comm _ wait]

theorem count_waiting_finish (queue : Queue τ η) (timer : τ) (completion : Completion)
    (wait : τ × η) : (queue.finish timer completion).waiting.count wait =
      if wait.1 = timer then 0 else queue.waiting.count wait := by
  simp only [finish]
  split
  · rename_i same
    exact List.count_eq_zero.mpr fun member => by simp [same] at member
  · rename_i other
    exact List.count_filter (by simpa using other)

/-- Ending the waits on a timer queues each handler as often as it waited. -/
theorem count_ready_finish (queue : Queue τ η) (timer : τ) (completion told : Completion)
    (handler : η) : (queue.finish timer completion).ready.count (handler, told) =
      queue.ready.count (handler, told) +
        if told = completion then queue.waiting.count (timer, handler) else 0 := by
  simp only [finish, List.count_append, Nat.add_left_cancel_iff]
  induction queue.waiting with
  | nil => simp
  | cons wait rest ih =>
      obtain ⟨other, waiter⟩ := wait
      by_cases same : other = timer
      · simp only [same, decide_true, List.filter_cons_of_pos, List.map_cons, List.count_cons,
          ih, beq_iff_eq, Prod.mk.injEq, true_and]
        grind
      · simp only [same, decide_false, Bool.false_eq_true, not_false_eq_true,
          List.filter_cons_of_neg, ih, List.count_cons, beq_iff_eq, Prod.mk.injEq, false_and,
          ↓reduceIte, Nat.add_zero]

end Count

/-- A wait is never lost: its handler is queued when the wait ends. -/
theorem handlers_finish (queue : Queue τ η) (timer : τ) (completion : Completion) :
    (queue.finish timer completion).handlers.Perm queue.handlers := by
  have parts := (List.filter_append_perm (fun wait => decide (wait.1 = timer))
    queue.waiting).map Prod.snd
  simp only [handlers, finish, List.map_append, List.map_map] at parts ⊢
  have told : (queue.waiting.filter fun wait => decide (wait.1 = timer)).map
      (Prod.fst ∘ fun wait => (wait.2, completion)) =
      (queue.waiting.filter fun wait => decide (wait.1 = timer)).map Prod.snd := rfl
  rw [told, ← List.append_assoc]
  refine List.perm_append_comm.trans ?_
  rw [← List.append_assoc]
  simpa only [decide_not, ne_eq] using parts.append_right (queue.ready.map Prod.fst)

/-- The handlers that wait on a timer. -/
def waitsOn (queue : Queue τ η) (timer : τ) : List η :=
  (queue.waiting.filter fun wait => wait.1 = timer).map Prod.snd

theorem mem_waitsOn (queue : Queue τ η) (timer : τ) (handler : η) :
    handler ∈ queue.waitsOn timer ↔ (timer, handler) ∈ queue.waiting := by
  simp [waitsOn]

theorem waitsOn_asyncWait (queue : Queue τ η) (timer other : τ) (handler : η) :
    (queue.asyncWait timer handler).waitsOn other =
      queue.waitsOn other ++ if timer = other then [handler] else [] := by
  by_cases same : timer = other
  · simp [waitsOn, asyncWait, same]
  · simp [waitsOn, asyncWait, same]

theorem waitsOn_finish (queue : Queue τ η) (timer other : τ) (completion : Completion) :
    (queue.finish timer completion).waitsOn other =
      if timer = other then [] else queue.waitsOn other := by
  simp only [waitsOn, finish, List.filter_filter]
  split
  · rename_i same
    rw [List.map_eq_nil_iff, List.filter_eq_nil_iff]
    intro wait _
    simp [same]
  · rename_i apart
    congr 1
    apply List.filter_congr
    intro wait _
    by_cases on : wait.1 = other
    · simp [on, Ne.symm apart]
    · simp [on]

theorem handlers_rearm (queue : Queue τ η) (timer : τ) (handler : η) :
    (queue.rearm timer handler).handlers.Perm (handler :: queue.handlers) :=
  (handlers_asyncWait _ _ _).trans ((handlers_finish queue timer .aborted).cons handler)

theorem Ends.cancel {touched : τ → Prop} (queue : Queue τ η) {timer : τ}
    (inside : touched timer) : Ends touched queue (queue.cancel timer) where
  handlers := handlers_finish queue timer .aborted
  waits := fun wait member => ((mem_waiting_finish _ _ _ _).mp member).1
  holds := by
    intro wait member untouched
    apply (mem_waiting_finish _ _ _ _).mpr
    refine ⟨member, ?_⟩
    intro same
    exact untouched (same ▸ inside)
  due := fun due member => (mem_ready_finish _ _ _ _).mpr (Or.inl member)
  ended := by
    intro due member
    rcases (mem_ready_finish _ _ _ _).mp member with old | ⟨told, waited⟩
    · exact Or.inl old
    · exact Or.inr ⟨told, timer, inside, waited⟩

section Armed

variable {queue : Queue τ η} {timer : τ} {handler : η}

theorem Armed.expire (armed : queue.Armed timer handler) (other : τ) :
    (queue.expire other).Armed timer handler := by
  rcases armed with waits | due
  · by_cases same : timer = other
    · apply Or.inr
      rw [← same]
      exact (mem_ready_finish _ _ _ _).mpr (Or.inr ⟨rfl, waits⟩)
    · exact Or.inl ((mem_waiting_finish _ _ _ _).mpr ⟨waits, same⟩)
  · exact Or.inr ((mem_ready_finish _ _ _ _).mpr (Or.inl due))

theorem armed_rearm (queue : Queue τ η) (timer : τ) (handler : η) :
    (queue.rearm timer handler).Armed timer handler :=
  Or.inl ((mem_waiting_asyncWait _ _ _ _).mpr (Or.inr rfl))

theorem Armed.rearm (armed : queue.Armed timer handler) {other : τ} (apart : timer ≠ other)
    (waiter : η) : (queue.rearm other waiter).Armed timer handler := by
  have cancelled : Ends (fun touched => touched = other) queue (queue.cancel other) :=
    .cancel queue rfl
  exact (armed.ends apart cancelled).asyncWait other waiter

end Armed

end Queue

end Strand
