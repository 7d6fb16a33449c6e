import CurvecprAsio.Acceptor

set_option autoImplicit false

/- Accept operations of any threads, between their checks of the pending sessions and
the waits they register. -/
namespace CurvecprAsio

open Strand Transition

universe u

/-- The timer of an acceptor. -/
inductive AcceptTimer where
  | pendingReadyAccept
  deriving DecidableEq, Repr

/-- `accept_op`, with the session its stream was given. -/
structure AcceptOp where
  handler : Nat
  stream : Option Nat := none
  finished : Bool := false
  deriving DecidableEq, Repr

/-- An acceptor and its accept operations: those that have found no session and are
about to wait, those that wait or have been woken, and those that have finished. -/
structure Accepting (κ : Type u) where
  acceptor : Acceptor κ
  checked : List AcceptOp := []
  timers : Queue AcceptTimer AcceptOp := {}
  posted : List AcceptOp := []
  completed : List AcceptOp := []

inductive AcceptAction (κ : Type u) where
  | putSession (key : κ)
  | session (id : Nat) (action : ServiceAction)
  | begin (handler : Nat)
  | register (index : Nat)
  | runWoken (index : Nat)
  | runPosted (index : Nat)

namespace Accepting

variable {κ : Type u}

/-- `accept_op::operator()`, up to `async_pending_accept_wait`. -/
def call (accepting : Accepting κ) (operation : AcceptOp) (start : Bool) : Accepting κ :=
  if !operation.finished then
    let result := accepting.acceptor.accept
    if !result.2 then { accepting with checked := accepting.checked ++ [operation] }
    else
      let finished := { operation with
        stream := accepting.acceptor.pendingSessions.head?, finished := true }
      if start then
        { accepting with acceptor := result.1, posted := accepting.posted ++ [finished] }
      else { accepting with acceptor := result.1, completed := accepting.completed ++ [finished] }
  else { accepting with completed := accepting.completed ++ [operation] }

/-- `acceptor::async_pending_accept_wait`. -/
def asyncPendingAcceptWait (accepting : Accepting κ) (operation : AcceptOp) : Accepting κ :=
  { accepting with timers := accepting.timers.asyncWait .pendingReadyAccept operation }

def register (accepting : Accepting κ) (index : Nat) : Accepting κ :=
  match accepting.checked[index]? with
  | some operation =>
      { accepting with checked := accepting.checked.eraseIdx index }.asyncPendingAcceptWait
        operation
  | none => accepting

def runWoken (accepting : Accepting κ) (index : Nat) : Accepting κ :=
  match accepting.timers.ready[index]? with
  | some due => { accepting with timers := accepting.timers.take index }.call due.1 false
  | none => accepting

def runPosted (accepting : Accepting κ) (index : Nat) : Accepting κ :=
  match accepting.posted[index]? with
  | some operation =>
      { accepting with posted := accepting.posted.eraseIdx index }.call operation false
  | none => accepting

/-- A session is pending beside an accept operation that waits, and no other has been
woken. -/
def Stranded (accepting : Accepting κ) : Prop :=
  accepting.acceptor.pendingSessions ≠ [] ∧ accepting.timers.waiting ≠ [] ∧
    accepting.timers.ready = []

/-- An acceptor that has just been constructed. -/
structure Fresh (accepting : Accepting κ) : Prop where
  pendingSessions : accepting.acceptor.pendingSessions = []
  checked : accepting.checked = []
  waiting : accepting.timers.waiting = []
  ready : accepting.timers.ready = []
  posted : accepting.posted = []

theorem fresh_configured (maximumPendingSessions : Nat) : Fresh ({
    acceptor := { maximumPendingSessions := maximumPendingSessions } } : Accepting κ) := by
  constructor <;> rfl

/-- An operation that is checked, waits or is woken has not finished. -/
structure AcceptInv (accepting : Accepting κ) : Prop where
  checked : ∀ operation ∈ accepting.checked, operation.finished = false
  queued : ∀ operation ∈ accepting.timers.handlers, operation.finished = false
  posted : ∀ operation ∈ accepting.posted, operation.finished = true

/-- As long as an operation is about to wait or waits, no more sessions are pending than
operations have been woken. -/
def Enough (accepting : Accepting κ) : Prop :=
  accepting.checked ≠ [] ∨ accepting.timers.waiting ≠ [] →
    accepting.acceptor.pendingSessions.length ≤ accepting.timers.ready.length

variable {accepting : Accepting κ}

theorem Fresh.inv (fresh : accepting.Fresh) : accepting.Enough ∧ accepting.AcceptInv := by
  refine ⟨?_, ?_, ?_, ?_⟩
  · intro _
    rw [fresh.pendingSessions]
    exact Nat.zero_le _
  · rw [fresh.checked]
    intro operation member
    cases member
  · intro operation member
    rw [Queue.handlers, fresh.waiting, fresh.ready] at member
    cases member
  · rw [fresh.posted]
    intro operation member
    cases member

theorem Enough.unstranded {accepting : Accepting κ} (enough : accepting.Enough) :
    ¬ accepting.Stranded := by
  rintro ⟨pending, waits, none_⟩
  have few := enough (Or.inr waits)
  rw [none_] at few
  exact pending (List.length_eq_zero_iff.mp (Nat.le_zero.mp few))

theorem call_cases (operation : AcceptOp) (start : Bool) (unfinished : operation.finished = false) :
    (accepting.acceptor.pendingSessions = [] ∧ accepting.call operation start =
        { accepting with checked := accepting.checked ++ [operation] }) ∨
      (accepting.acceptor.pendingSessions ≠ [] ∧
        (accepting.call operation start).acceptor.pendingSessions.length + 1 =
          accepting.acceptor.pendingSessions.length ∧
        (accepting.call operation start).checked = accepting.checked ∧
        (accepting.call operation start).timers = accepting.timers ∧
        ∀ posted ∈ (accepting.call operation start).posted,
          posted ∈ accepting.posted ∨ posted.finished = true) := by
  cases pending : accepting.acceptor.pendingSessions with
  | nil =>
      left
      simp [call, unfinished, Acceptor.accept, pending]
  | cons id rest =>
      right
      simp only [call, unfinished, Acceptor.accept, pending, Bool.not_false, Bool.not_true,
        Bool.false_eq_true, ↓reduceIte]
      cases start with
      | false => exact ⟨by simp, rfl, rfl, rfl, fun _ member => Or.inl member⟩
      | true =>
          refine ⟨by simp, rfl, rfl, rfl, ?_⟩
          intro posted member
          rcases List.mem_append.mp member with old | new
          · exact Or.inl old
          · rw [List.mem_singleton.mp new]
            exact Or.inr rfl

theorem AcceptInv.call (inv : accepting.AcceptInv) {operation : AcceptOp}
    (unfinished : operation.finished = false) (start : Bool) :
    (accepting.call operation start).AcceptInv := by
  rcases call_cases operation start unfinished with
    ⟨_, result⟩ | ⟨_, _, checked, timers, posted⟩
  · rw [result]
    refine ⟨?_, inv.queued, inv.posted⟩
    intro other member
    rcases List.mem_append.mp member with old | new
    · exact inv.checked other old
    · rw [List.mem_singleton.mp new]
      exact unfinished
  · constructor
    · rw [checked]
      exact inv.checked
    · rw [timers]
      exact inv.queued
    · intro other member
      rcases posted other member with old | finished
      · exact inv.posted other old
      · exact finished

theorem AcceptInv.take (inv : accepting.AcceptInv) {index : Nat} {due : AcceptOp × Completion}
    (located : accepting.timers.ready[index]? = some due) :
    due.1.finished = false ∧
      AcceptInv { accepting with timers := accepting.timers.take index } := by
  have perm := accepting.timers.handlers_take located
  have held : ∀ operation, operation = due.1 ∨
      operation ∈ (accepting.timers.take index).handlers → operation.finished = false :=
    fun operation member => inv.queued operation (perm.mem_iff.mpr (List.mem_cons.mpr member))
  exact ⟨held _ (Or.inl rfl), inv.checked, fun operation member => held _ (Or.inr member),
    inv.posted⟩

theorem runPosted_same (inv : accepting.AcceptInv) (index : Nat) :
    (accepting.runPosted index).acceptor = accepting.acceptor ∧
      (accepting.runPosted index).checked = accepting.checked ∧
      (accepting.runPosted index).timers = accepting.timers ∧
      ∀ operation ∈ (accepting.runPosted index).posted, operation ∈ accepting.posted := by
  unfold runPosted
  split
  · rename_i operation located
    have finished := inv.posted operation (List.mem_of_getElem? located)
    simp only [Accepting.call, finished, Bool.not_true, Bool.false_eq_true, ↓reduceIte]
    exact ⟨trivial, trivial, trivial, fun _ member => List.mem_of_mem_eraseIdx member⟩
  · exact ⟨rfl, rfl, rfl, fun _ member => member⟩

variable [DecidableEq κ]

/-- `acceptor::handle_put_session`. -/
def handlePutSession (accepting : Accepting κ) (key : κ) : Accepting κ :=
  let stored := accepting.acceptor.handlePutSession key
  if stored.2 ≠ 0 then { accepting with acceptor := stored.1 }
  else
    -- Notify waiting acceptors
    { accepting with
      acceptor := stored.1
      timers := accepting.timers.cancel .pendingReadyAccept }

def next (accepting : Accepting κ) : AcceptAction κ → Accepting κ
  | .putSession key => accepting.handlePutSession key
  | .session id action =>
      { accepting with acceptor := accepting.acceptor.session id action }
  | .begin handler => accepting.call { handler := handler } true
  | .register index => accepting.register index
  | .runWoken index => accepting.runWoken index
  | .runPosted index => accepting.runPosted index

def possible (accepting : Accepting κ) : AcceptAction κ → Guard
  | .putSession key => .of (accepting.acceptor.Possible (.putSession key))
  | .session id action => .of (accepting.acceptor.Possible (.session id action))
  | _ => .free

abbrev Possible (accepting : Accepting κ) (action : AcceptAction κ) : Prop :=
  (accepting.possible action).holds

/-- Steps of accept operations that have begun. -/
def Internal (_ : Accepting κ) : AcceptAction κ → Prop
  | .register _ => True
  | .runWoken _ => True
  | .runPosted _ => True
  | _ => False

/-- The accept operations cannot strand a pending session by themselves. -/
def Served (accepting : Accepting κ) : Prop := ¬ Leads next Internal Stranded accepting

/-- A put that finds an operation between its check and its wait leaves no more sessions
pending than operations woken. -/
def wakesEnough (accepting : Accepting κ) : AcceptAction κ → Guard
  | .putSession _ => .of
      (accepting.acceptor.pendingSessions.length < accepting.acceptor.maximumPendingSessions →
        accepting.checked ≠ [] →
          accepting.acceptor.pendingSessions.length <
            accepting.timers.ready.length + accepting.timers.waiting.length)
  | _ => .free

abbrev WakesEnough (accepting : Accepting κ) (action : AcceptAction κ) : Prop :=
  (accepting.wakesEnough action).holds

theorem put_cases (accepting : Accepting κ) (key : κ) :
    (accepting.acceptor.maximumPendingSessions ≤ accepting.acceptor.pendingSessions.length ∧
        accepting.handlePutSession key = accepting) ∨
      (accepting.acceptor.pendingSessions.length < accepting.acceptor.maximumPendingSessions ∧
        (accepting.handlePutSession key).acceptor.pendingSessions.length =
          accepting.acceptor.pendingSessions.length + 1 ∧
        (accepting.handlePutSession key).checked = accepting.checked ∧
        (accepting.handlePutSession key).posted = accepting.posted ∧
        (accepting.handlePutSession key).timers.waiting = [] ∧
        (accepting.handlePutSession key).timers.ready.length =
          accepting.timers.ready.length + accepting.timers.waiting.length ∧
        (accepting.handlePutSession key).timers.handlers.Perm accepting.timers.handlers) := by
  by_cases full : accepting.acceptor.maximumPendingSessions ≤
      accepting.acceptor.pendingSessions.length
  · left
    simp [handlePutSession, Acceptor.handlePutSession, full]
  · right
    have stored : accepting.handlePutSession key = { accepting with
        acceptor := (accepting.acceptor.handlePutSession key).1
        timers := accepting.timers.cancel .pendingReadyAccept } := by
      simp [handlePutSession, Acceptor.handlePutSession, full]
    have pending : (accepting.acceptor.handlePutSession key).1.pendingSessions.length =
        accepting.acceptor.pendingSessions.length + 1 := by
      simp [Acceptor.handlePutSession, full]
    rw [stored]
    refine ⟨Nat.lt_of_not_le full, pending, rfl, rfl, ?_, ?_, Queue.handlers_finish _ _ _⟩
    · exact List.filter_eq_nil_iff.mpr fun wait _ => by simp
    · have all : accepting.timers.waiting.filter (fun wait =>
          decide (wait.1 = .pendingReadyAccept)) = accepting.timers.waiting :=
        List.filter_eq_self.mpr fun wait _ => by simp
      unfold Queue.cancel Queue.finish
      rw [List.length_append, List.length_map, all]

theorem AcceptInv.next (inv : accepting.AcceptInv) (action : AcceptAction κ) :
    (accepting.next action).AcceptInv := by
  cases action with
  | putSession key =>
      rcases accepting.put_cases key with
        ⟨_, result⟩ | ⟨_, _, checked, posted, _, _, perm⟩
      · simp only [Accepting.next, result]
        exact inv
      · constructor
        · simp only [Accepting.next, checked]
          exact inv.checked
        · exact fun operation member => inv.queued operation (perm.mem_iff.mp member)
        · simp only [Accepting.next, posted]
          exact inv.posted
  | session id action => exact ⟨inv.checked, inv.queued, inv.posted⟩
  | begin handler => exact inv.call rfl true
  | register index =>
      simp only [Accepting.next, register]
      split
      · rename_i operation located
        have unfinished := inv.checked operation (List.mem_of_getElem? located)
        refine ⟨fun other member => inv.checked other (List.mem_of_mem_eraseIdx member), ?_,
          inv.posted⟩
        intro other member
        have perm := Queue.handlers_asyncWait accepting.timers .pendingReadyAccept operation
        rcases List.mem_cons.mp (perm.mem_iff.mp member) with new | old
        · rw [new]
          exact unfinished
        · exact inv.queued other old
      · exact inv
  | runWoken index =>
      simp only [Accepting.next, runWoken]
      split
      · rename_i due located
        have taken := inv.take located
        exact taken.2.call taken.1 false
      · exact inv
  | runPosted index =>
      obtain ⟨_, checked, timers, posted⟩ := runPosted_same inv index
      constructor
      · simp only [Accepting.next, checked]
        exact inv.checked
      · simp only [Accepting.next, timers]
        exact inv.queued
      · exact fun operation member => inv.posted operation (posted operation member)

theorem pendingSessions_session (acceptor : Acceptor κ) (id : Nat) (action : ServiceAction) :
    (acceptor.session id action).pendingSessions = acceptor.pendingSessions := by
  unfold Acceptor.session
  split
  · rfl
  · dsimp only
    split <;> rfl

/-- Each step leaves enough operations woken; a put only if it wakes enough. -/
theorem Enough.next (enough : accepting.Enough) (inv : accepting.AcceptInv)
    {action : AcceptAction κ} (wakes : accepting.WakesEnough action) :
    (accepting.next action).Enough := by
  cases action with
  | putSession key =>
      rcases accepting.put_cases key with
        ⟨_, result⟩ | ⟨room, pending, checked, _, waiting, ready, _⟩
      · simp only [Accepting.next, result]
        exact enough
      · intro waits
        simp only [Accepting.next] at waits ⊢
        rw [pending, ready]
        rcases waits with behind | waits
        · rw [checked] at behind
          exact wakes room behind
        · exact absurd waiting waits
  | session id action =>
      intro waits
      simp only [Accepting.next, pendingSessions_session]
      exact enough waits
  | begin handler =>
      rcases @call_cases κ accepting { handler := handler } true rfl with
        ⟨empty, result⟩ | ⟨_, pending, checked, timers, _⟩
      · intro _
        simp only [Accepting.next, result, empty, List.length_nil, Nat.zero_le]
      · intro waits
        simp only [Accepting.next, checked, timers] at waits ⊢
        have before := enough waits
        omega
  | register index =>
      simp only [Accepting.next, register]
      split
      · rename_i operation located
        intro _
        have behind : accepting.checked ≠ [] := by
          intro none_
          simp [none_] at located
        exact enough (Or.inl behind)
      · exact enough
  | runWoken index =>
      simp only [Accepting.next, runWoken]
      split
      · rename_i due located
        have less := Queue.length_ready_take located
        have taken := inv.take located
        rcases @call_cases κ { accepting with timers := accepting.timers.take index } due.1 false
            taken.1 with
          ⟨empty, result⟩ | ⟨_, pending, checked, timers, _⟩
        · intro _
          rw [result]
          dsimp only at empty ⊢
          simp only [empty, List.length_nil, Nat.zero_le]
        · intro waits
          rw [checked, timers] at waits
          have before := enough waits
          rw [timers]
          dsimp only at pending ⊢
          omega
      · exact enough
  | runPosted index =>
      obtain ⟨acceptor, checked, timers, _⟩ := runPosted_same inv index
      intro waits
      simp only [Accepting.next, acceptor, checked, timers] at waits ⊢
      exact enough waits

/-- With more sessions pending than operations woken, the last one that finds a session
leaves another beside an operation that waits. -/
theorem strands (inv : accepting.AcceptInv)
    (waits : accepting.checked ≠ [] ∨ accepting.timers.waiting ≠ [])
    (few : accepting.timers.ready.length < accepting.acceptor.pendingSessions.length) :
    Leads next Internal Stranded accepting := by
  generalize left : accepting.timers.ready.length = woken
  induction woken generalizing accepting with
  | zero =>
      have pending : accepting.acceptor.pendingSessions ≠ [] :=
        List.ne_nil_of_length_pos (by omega)
      have none_ := List.length_eq_zero_iff.mp left
      by_cases waiting : accepting.timers.waiting = []
      · obtain ⟨operation, rest, behind⟩ :=
          List.exists_cons_of_ne_nil (waits.resolve_right (fun filled => filled waiting))
        apply Leads.step (.register 0) trivial
        apply Leads.now
        simp only [Accepting.next, register, behind, List.getElem?_cons_zero,
          asyncPendingAcceptWait]
        exact ⟨pending, by simp [Queue.asyncWait], none_⟩
      · exact .now ⟨pending, waiting, none_⟩
  | succ woken ih =>
      obtain ⟨due, rest, located⟩ := List.exists_cons_of_length_eq_add_one left
      have first : accepting.timers.ready[0]? = some due := by rw [located]; rfl
      have less := Queue.length_ready_take first
      have taken := inv.take first
      apply Leads.step (.runWoken 0) trivial
      simp only [Accepting.next, runWoken, first]
      rcases @call_cases κ { accepting with timers := accepting.timers.take 0 } due.1 false
          taken.1 with
        ⟨empty, _⟩ | ⟨_, pending, checked, timers, _⟩
      · have none_ : accepting.acceptor.pendingSessions.length = 0 :=
          List.length_eq_zero_iff.mpr empty
        omega
      · dsimp only at pending
        apply ih (taken.2.call taken.1 false)
        · rw [checked, timers]
          exact waits
        · rw [timers]
          dsimp only
          omega
        · rw [timers]
          dsimp only
          omega

theorem Enough.served (enough : accepting.Enough) (inv : accepting.AcceptInv) :
    accepting.Served := by
  rintro ⟨later, reached, stranded⟩
  have kept := @Reaches.invariant _ _ Accepting.next Internal accepting later
    (fun state => state.Enough ∧ state.AcceptInv) reached ⟨enough, inv⟩
  apply (kept _).1.unstranded stranded
  intro state action both internal
  refine ⟨both.1.next both.2 ?_, both.2.next action⟩
  cases action with
  | putSession key => exact internal.elim
  | _ => trivial

/-- A put that wakes too few operations has stranded a session. -/
theorem wakesEnough_of_served (inv : accepting.AcceptInv) {action : AcceptAction κ}
    (served : (accepting.next action).Served) : accepting.WakesEnough action := by
  cases action with
  | putSession key =>
      intro room behind
      apply Nat.lt_of_not_le
      intro few
      rcases accepting.put_cases key with
        ⟨full, _⟩ | ⟨_, pending, checked, _, _, ready, _⟩
      · exact absurd room (Nat.not_lt_of_le full)
      · apply served
        apply strands (inv.next (.putSession key))
        · simp only [Accepting.next, checked]
          exact Or.inl behind
        · simp only [Accepting.next, pending, ready]
          omega
  | _ => trivial

end Accepting

/-- Along a run of an acceptor no session is stranded beside a waiting accept operation,
nor could be by the operations that have begun, exactly when every put that finds an
operation between its check and its wait leaves no more sessions pending than woken
operations. -/
theorem pending_sessions_are_served {κ : Type u} [DecidableEq κ] {start : Accepting κ}
    (fresh : start.Fresh) {actions : List (AcceptAction κ)}
    (possible : AllMet Accepting.next Accepting.Possible start actions) :
    AllMet Accepting.next Accepting.WakesEnough start actions ↔
      ∀ count, ¬ ((actions.take count).foldl Accepting.next start).Stranded ∧
        ((actions.take count).foldl Accepting.next start).Served := by
  have initial := fresh.inv
  have kept : ∀ (accepting : Accepting κ) (action : AcceptAction κ),
      accepting.Enough ∧ accepting.AcceptInv → accepting.Possible action →
      accepting.WakesEnough action →
      (accepting.next action).Enough ∧ (accepting.next action).AcceptInv :=
    fun _ action inv _ wakes => ⟨inv.1.next inv.2 wakes, inv.2.next action⟩
  have served : AllMet Accepting.next Accepting.WakesEnough start actions ↔
      ∀ count, ((actions.take count).foldl Accepting.next start).Served := by
    apply AllMet.iff_always kept _ initial (initial.1.served initial.2) possible
    intro accepting action inv _ possible
    constructor
    · intro wakes
      have after := kept accepting action inv possible wakes
      exact after.1.served after.2
    · exact Accepting.wakesEnough_of_served inv.2
  rw [served]
  exact forall_congr' fun count =>
    ⟨fun always => ⟨fun stranded => always (.now stranded), always⟩, fun both => both.2⟩

/-- Both puts come while an operation that has found no session is yet to wait, and each
wakes another one that takes the session. -/
def busySchedule : List (AcceptAction Nat) :=
  [.begin 1, .begin 2, .begin 3, .register 0, .register 0, .putSession 7, .runWoken 0,
    .runWoken 0, .register 0, .putSession 8, .register 0, .runWoken 0]

theorem pending_sessions_are_served_busy :
    let states := fun count => (busySchedule.take count).foldl Accepting.next { acceptor := {} }
    (∀ count, ¬ (states count).Stranded ∧ (states count).Served) ∧
      (states 5).checked.map AcceptOp.handler = [3] ∧
      (states 9).checked.map AcceptOp.handler = [2] ∧
      (states 12).completed.map AcceptOp.stream = [some 0, some 1] :=
  ⟨(pending_sessions_are_served (Accepting.fresh_configured 16) (by decide)).mp (by decide),
    by decide, by decide, by decide⟩

/-- A session is put between the check of the only accept operation and its wait. -/
theorem put_before_wait_strands :
    ¬ ∀ (start : Accepting Nat) (actions : List (AcceptAction Nat)), start.Fresh →
      AllMet Accepting.next Accepting.Possible start actions →
      ∀ count, ¬ ((actions.take count).foldl Accepting.next start).Stranded := by
  intro claimed
  apply claimed { acceptor := {} } [.begin 1, .putSession 7, .register 0]
    (Accepting.fresh_configured 16) (by decide) 3
  exact ⟨by decide, by decide, rfl⟩

end CurvecprAsio
