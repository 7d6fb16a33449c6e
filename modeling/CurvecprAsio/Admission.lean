import CurvecprAsio.Accept

set_option autoImplicit false

/- What an acceptor's accept operations are given: the sessions put, each once and
in the order of their puts. -/
namespace CurvecprAsio

open Strand Transition

universe u

/-- The accept operation that an action begins. -/
def AcceptAction.begins {κ : Type u} : AcceptAction κ → List Nat
  | .begin handler => [handler]
  | _ => []

namespace Accepting

variable {κ : Type u} {accepting : Accepting κ}

/-- The accept operations that have found a session. -/
def served (accepting : Accepting κ) : List AcceptOp := accepting.posted ++ accepting.completed

/-- The sessions that accept operations have been given. -/
def given (accepting : Accepting κ) : List Nat := accepting.served.filterMap AcceptOp.stream

/-- Every accept operation begun. -/
def operations (accepting : Accepting κ) : List AcceptOp :=
  accepting.checked ++ accepting.timers.handlers ++ accepting.served

/-- The first `count` sessions made have been given to an operation each, and the others
are pending in order. -/
structure HandedOut (accepting : Accepting κ) (count : Nat) : Prop where
  given : accepting.given.Perm (List.range count)
  pending : accepting.acceptor.pendingSessions =
    List.range' count (accepting.acceptor.peers.length - count)
  made : count ≤ accepting.acceptor.peers.length
  streams : ∀ operation ∈ accepting.served, operation.stream ≠ none

theorem call_served (accepting : Accepting κ) {operation : AcceptOp} (start : Bool)
    (unfinished : operation.finished = false) :
    (accepting.acceptor.pendingSessions = [] ∧ accepting.call operation start =
        { accepting with checked := accepting.checked ++ [operation] }) ∨
      ∃ id rest, accepting.acceptor.pendingSessions = id :: rest ∧
        (accepting.call operation start).served.Perm
          ({ operation with stream := some id, finished := true } :: accepting.served) ∧
        (accepting.call operation start).acceptor = accepting.acceptor.accept.1 ∧
        (accepting.call operation start).checked = accepting.checked ∧
        (accepting.call operation start).timers = accepting.timers := by
  cases pending : accepting.acceptor.pendingSessions with
  | nil =>
      left
      simp [call, unfinished, Acceptor.accept, pending]
  | cons id rest =>
      refine Or.inr ⟨id, rest, rfl, ?_⟩
      cases start with
      | false =>
          simp only [call, unfinished, Acceptor.accept, pending, Bool.not_false, Bool.not_true,
            Bool.false_eq_true, ↓reduceIte, List.head?_cons, and_self, and_true, served]
          rw [← List.append_assoc]
          exact List.perm_append_singleton _ _
      | true =>
          simp only [call, unfinished, Acceptor.accept, pending, Bool.not_false, Bool.not_true,
            Bool.false_eq_true, ↓reduceIte, List.head?_cons, and_self, and_true, served,
            List.append_assoc, List.singleton_append]
          exact List.perm_middle

theorem accept_pending {id : Nat} {rest : List Nat}
    (pending : accepting.acceptor.pendingSessions = id :: rest) :
    accepting.acceptor.accept.1.pendingSessions = rest ∧
      accepting.acceptor.accept.1.peers.length = accepting.acceptor.peers.length ∧
      accepting.acceptor.accept.1.maximumPendingSessions =
        accepting.acceptor.maximumPendingSessions := by
  refine ⟨?_, Acceptor.length_peers_accept _, ?_⟩
  · rw [Acceptor.accept, pending]
  · rw [Acceptor.accept, pending]

theorem served_runPosted (inv : accepting.AcceptInv) (index : Nat) :
    (accepting.runPosted index).served.Perm accepting.served := by
  unfold runPosted
  split
  · rename_i operation located
    obtain ⟨inside, atIndex⟩ := List.getElem?_eq_some_iff.mp located
    have finished := inv.posted operation (List.mem_of_getElem? located)
    have parts := List.getElem_cons_eraseIdx_perm inside
    rw [atIndex] at parts
    simp only [call, finished, Bool.not_true, Bool.false_eq_true, ↓reduceIte, served]
    rw [← List.append_assoc]
    exact (List.perm_append_singleton _ _).trans (parts.append_right accepting.completed)
  · exact List.Perm.refl _

theorem HandedOut.of_served {later : Accepting κ} {count : Nat}
    (handed : accepting.HandedOut count) (served : later.served.Perm accepting.served)
    (pending : later.acceptor.pendingSessions = accepting.acceptor.pendingSessions)
    (peers : later.acceptor.peers.length = accepting.acceptor.peers.length) :
    later.HandedOut count where
  given := (served.filterMap AcceptOp.stream).trans handed.given
  pending := by
    rw [pending, peers]
    exact handed.pending
  made := by
    rw [peers]
    exact handed.made
  streams := fun operation member => handed.streams operation (served.mem_iff.mp member)

/-- A call hands out the first pending session, or none. -/
theorem HandedOut.call {count : Nat} (handed : accepting.HandedOut count)
    {operation : AcceptOp} (start : Bool) (unfinished : operation.finished = false) :
    ∃ later, (accepting.call operation start).HandedOut later := by
  rcases accepting.call_served start unfinished with
    ⟨_, result⟩ | ⟨id, rest, pending, served, acceptor, _, _⟩
  · rw [result]
    exact ⟨count, handed.of_served (List.Perm.refl _) rfl rfl⟩
  · obtain ⟨left, peers, _⟩ := accept_pending pending
    have queue := handed.pending
    rw [pending] at queue
    have few : accepting.acceptor.peers.length - count =
        accepting.acceptor.peers.length - (count + 1) + 1 := by
      cases many : accepting.acceptor.peers.length - count with
      | zero => simp [many] at queue
      | succ _ => omega
    rw [few, List.range'_succ, List.cons.injEq] at queue
    refine ⟨count + 1, ?_, ?_, ?_, ?_⟩
    · rw [List.range_succ]
      refine (served.filterMap AcceptOp.stream).trans ?_
      simp only [List.filterMap_cons, queue.1]
      exact (handed.given.cons count).trans (List.perm_append_singleton _ _).symm
    · rw [acceptor, left, peers]
      exact queue.2
    · rw [acceptor, peers]
      have made := handed.made
      omega
    · intro other member
      rcases List.mem_cons.mp (served.mem_iff.mp member) with new | old
      · simp [new]
      · exact handed.streams other old

theorem operations_call (accepting : Accepting κ) {operation : AcceptOp} (start : Bool)
    (unfinished : operation.finished = false) :
    ((accepting.call operation start).operations.map AcceptOp.handler).Perm
      (operation.handler :: accepting.operations.map AcceptOp.handler) := by
  rcases accepting.call_served start unfinished with
    ⟨_, result⟩ | ⟨id, rest, _, served, _, checked, timers⟩
  · rw [result]
    simp only [operations, served, List.append_assoc, List.map_append, List.map_cons,
      List.singleton_append]
    exact List.perm_middle
  · simp only [operations, checked, timers, List.map_append]
    refine ((served.map AcceptOp.handler).append_left _).trans ?_
    rw [List.map_cons]
    exact List.perm_middle

/-- No more sessions are pending than allowed. -/
def Bounded (accepting : Accepting κ) (maximum : Nat) : Prop :=
  accepting.acceptor.maximumPendingSessions = maximum ∧
    accepting.acceptor.pendingSessions.length ≤ maximum

theorem Bounded.call {maximum : Nat} (bounded : accepting.Bounded maximum)
    {operation : AcceptOp} (start : Bool) (unfinished : operation.finished = false) :
    (accepting.call operation start).Bounded maximum := by
  rcases accepting.call_served start unfinished with
    ⟨_, result⟩ | ⟨id, rest, pending, _, acceptor, _, _⟩
  · rw [result]
    exact bounded
  · obtain ⟨left, _, kept⟩ := accept_pending pending
    have few := bounded.2
    rw [pending, List.length_cons] at few
    unfold Bounded
    rw [acceptor, left, kept]
    exact ⟨bounded.1, by omega⟩

variable [DecidableEq κ]

theorem put_pending (accepting : Accepting κ) (key : κ)
    (room : accepting.acceptor.pendingSessions.length <
      accepting.acceptor.maximumPendingSessions) :
    (accepting.handlePutSession key).acceptor.pendingSessions =
        accepting.acceptor.pendingSessions ++ [accepting.acceptor.peers.length] ∧
      (accepting.handlePutSession key).acceptor.peers.length =
        accepting.acceptor.peers.length + 1 ∧
      (accepting.handlePutSession key).served = accepting.served := by
  have full := Nat.not_le_of_lt room
  simp [handlePutSession, Acceptor.handlePutSession, full, served]

theorem HandedOut.put {count : Nat} (handed : accepting.HandedOut count) (key : κ) :
    (accepting.handlePutSession key).HandedOut count := by
  rcases accepting.put_cases key with ⟨_, result⟩ | ⟨room, _⟩
  · rw [result]
    exact handed
  · obtain ⟨pending, peers, served⟩ := accepting.put_pending key room
    have made := handed.made
    constructor
    · rw [Accepting.given, served]
      exact handed.given
    · have last : count + (accepting.acceptor.peers.length - count) =
          accepting.acceptor.peers.length := by omega
      have longer : accepting.acceptor.peers.length + 1 - count =
          accepting.acceptor.peers.length - count + 1 := by omega
      rw [pending, peers, longer, List.range'_1_concat, handed.pending, last]
    · rw [peers]
      omega
    · rw [served]
      exact handed.streams

theorem HandedOut.next {count : Nat} (handed : accepting.HandedOut count)
    (inv : accepting.AcceptInv) (action : AcceptAction κ) :
    ∃ later, (accepting.next action).HandedOut later := by
  cases action with
  | putSession key => exact ⟨count, handed.put key⟩
  | session id action =>
      exact ⟨count, handed.of_served (List.Perm.refl _) (pendingSessions_session _ _ _)
        (Acceptor.length_peers_session _ _ _)⟩
  | begin handler => exact handed.call true rfl
  | register index =>
      simp only [Accepting.next, register]
      split <;> exact ⟨count, handed.of_served (List.Perm.refl _) rfl rfl⟩
  | runWoken index =>
      simp only [Accepting.next, runWoken]
      split
      · rename_i due located
        have taken : HandedOut { accepting with timers := accepting.timers.take index } count :=
          handed.of_served (List.Perm.refl _) rfl rfl
        exact taken.call false (inv.take located).1
      · exact ⟨count, handed⟩
  | runPosted index =>
      obtain ⟨acceptor, _⟩ := runPosted_same inv index
      exact ⟨count, handed.of_served (served_runPosted inv index) (by rw [Accepting.next, acceptor])
        (by rw [Accepting.next, acceptor])⟩

theorem Bounded.next {maximum : Nat} (bounded : accepting.Bounded maximum)
    (inv : accepting.AcceptInv) (action : AcceptAction κ) :
    (accepting.next action).Bounded maximum := by
  cases action with
  | putSession key =>
      rcases accepting.put_cases key with ⟨_, result⟩ | ⟨room, pending, _⟩
      · simp only [Accepting.next, result]
        exact bounded
      · have kept : (accepting.handlePutSession key).acceptor.maximumPendingSessions =
            accepting.acceptor.maximumPendingSessions := by
          simp only [handlePutSession, Acceptor.handlePutSession]
          split <;> rfl
        refine ⟨kept.trans bounded.1, ?_⟩
        have most := bounded.1
        simp only [Accepting.next, pending]
        omega
  | session id action =>
      have kept : (accepting.acceptor.session id action).maximumPendingSessions =
          accepting.acceptor.maximumPendingSessions := by
        unfold Acceptor.session
        split
        · rfl
        · dsimp only
          split <;> rfl
      refine ⟨kept.trans bounded.1, ?_⟩
      simp only [Accepting.next, pendingSessions_session]
      exact bounded.2
  | begin handler => exact bounded.call true rfl
  | register index =>
      simp only [Accepting.next, register]
      split <;> exact bounded
  | runWoken index =>
      simp only [Accepting.next, runWoken]
      split
      · rename_i due located
        have taken : Bounded { accepting with timers := accepting.timers.take index } maximum :=
          bounded
        exact taken.call false (inv.take located).1
      · exact bounded
  | runPosted index =>
      obtain ⟨acceptor, _⟩ := runPosted_same inv index
      unfold Bounded
      rw [Accepting.next, acceptor]
      exact bounded

/-- Each step keeps every accept operation, and adds the one it begins. -/
theorem operations_next (inv : accepting.AcceptInv) (action : AcceptAction κ) :
    ((accepting.next action).operations.map AcceptOp.handler).Perm
      (accepting.operations.map AcceptOp.handler ++ action.begins) := by
  cases action with
  | putSession key =>
      simp only [AcceptAction.begins, List.append_nil]
      rcases accepting.put_cases key with
        ⟨_, result⟩ | ⟨_, _, checked, posted, _, _, handlers⟩
      · simp only [Accepting.next, result]
        exact List.Perm.refl _
      · have completed : (accepting.handlePutSession key).completed = accepting.completed := by
          simp only [handlePutSession]
          split <;> rfl
        simp only [Accepting.next, operations, served, checked, posted, completed]
        exact ((handlers.append_left _).append_right _).map _
  | session id action =>
      simp only [AcceptAction.begins, List.append_nil]
      exact List.Perm.refl _
  | begin handler =>
      exact (accepting.operations_call true rfl).trans (List.perm_append_singleton _ _).symm
  | register index =>
      simp only [Accepting.next, register, AcceptAction.begins, List.append_nil]
      split
      · rename_i operation located
        obtain ⟨inside, atIndex⟩ := List.getElem?_eq_some_iff.mp located
        have parts := List.getElem_cons_eraseIdx_perm inside
        rw [atIndex] at parts
        have waits := Queue.handlers_asyncWait accepting.timers .pendingReadyAccept operation
        simp only [operations, asyncPendingAcceptWait]
        refine (List.Perm.append_right _ ?_).map _
        exact ((waits.append_left _).trans List.perm_middle).trans (parts.append_right _)
      · exact List.Perm.refl _
  | runWoken index =>
      simp only [Accepting.next, runWoken, AcceptAction.begins, List.append_nil]
      split
      · rename_i due located
        have taken := accepting.timers.handlers_take located
        refine (operations_call _ false (inv.take located).1).trans ?_
        rw [← List.map_cons]
        simp only [operations]
        refine (List.Perm.trans ?_ ((taken.symm.append_left _).append_right _)).map _
        rw [List.append_assoc, List.append_assoc]
        exact List.perm_middle.symm
      · exact List.Perm.refl _
  | runPosted index =>
      obtain ⟨_, checked, timers, _⟩ := runPosted_same inv index
      simp only [Accepting.next, operations, checked, timers, AcceptAction.begins,
        List.append_nil]
      exact ((served_runPosted inv index).append_left _).map _

theorem reaches_acceptor (inv : accepting.AcceptInv) {action : AcceptAction κ}
    (possible : accepting.Possible action) :
    Reaches Acceptor.next Acceptor.Possible accepting.acceptor
      (accepting.next action).acceptor := by
  have called : ∀ (state : Accepting κ) (operation : AcceptOp) (start : Bool),
      operation.finished = false → Reaches Acceptor.next Acceptor.Possible state.acceptor
        (state.call operation start).acceptor := by
    intro state operation start unfinished
    rcases state.call_served start unfinished with ⟨_, result⟩ | ⟨_, _, _, _, acceptor, _, _⟩
    · rw [result]
      exact .start
    · rw [acceptor]
      have step : Reaches Acceptor.next Acceptor.Possible state.acceptor
          (state.acceptor.next .accept) := .act .start trivial
      exact step
  cases action with
  | putSession key =>
      have stored : (accepting.next (.putSession key)).acceptor =
          accepting.acceptor.next (.putSession key) := by
        simp only [Accepting.next, handlePutSession, Acceptor.next]
        split <;> rfl
      rw [stored]
      exact .act .start possible
  | session id action =>
      have step : Reaches Acceptor.next Acceptor.Possible accepting.acceptor
          (accepting.acceptor.next (.session id action)) := .act .start possible
      exact step
  | begin handler => exact called _ _ _ rfl
  | register index =>
      simp only [Accepting.next, register]
      split <;> exact .start
  | runWoken index =>
      simp only [Accepting.next, runWoken]
      split
      · rename_i due located
        exact called { accepting with timers := accepting.timers.take index } due.1 false
          (inv.take located).1
      · exact .start
  | runPosted index =>
      rw [Accepting.next, (runPosted_same inv index).1]
      exact .start

/-- What holds along every run of an acceptor that allows `maximum` pending sessions. -/
structure Admission (accepting : Accepting κ) (maximum : Nat) : Prop where
  inv : accepting.AcceptInv
  acceptor : AcceptorInv accepting.acceptor
  bounded : accepting.Bounded maximum
  handed : ∃ count, accepting.HandedOut count

theorem Admission.initial (maximum : Nat) : Admission ({
    acceptor := { maximumPendingSessions := maximum } } : Accepting κ) maximum where
  inv := (fresh_configured maximum).inv.2
  acceptor := AcceptorInv.initial maximum
  bounded := ⟨rfl, Nat.zero_le _⟩
  handed := by
    refine ⟨0, List.Perm.refl _, rfl, Nat.le_refl _, ?_⟩
    intro operation member
    cases member

theorem Admission.next {maximum : Nat} (admission : accepting.Admission maximum)
    {action : AcceptAction κ} (possible : accepting.Possible action) :
    (accepting.next action).Admission maximum where
  inv := admission.inv.next action
  acceptor := (reaches_acceptor admission.inv possible).invariant admission.acceptor
    fun _ action inv possible => inv.next action possible
  bounded := admission.bounded.next admission.inv action
  handed := by
    obtain ⟨count, handed⟩ := admission.handed
    exact handed.next admission.inv action

theorem Admission.run {maximum : Nat} {start : Accepting κ} (admission : start.Admission maximum)
    {actions : List (AcceptAction κ)}
    (possible : AllMet Accepting.next Possible start actions) :
    (actions.foldl Accepting.next start).Admission maximum ∧
      ((actions.foldl Accepting.next start).operations.map AcceptOp.handler).Perm
        (start.operations.map AcceptOp.handler ++ actions.flatMap AcceptAction.begins) := by
  induction actions generalizing start with
  | nil =>
      rw [List.flatMap_nil, List.append_nil]
      exact ⟨admission, List.Perm.refl _⟩
  | cons action rest ih =>
      obtain ⟨after, kept⟩ := ih (admission.next possible.1) possible.2
      refine ⟨after, kept.trans ?_⟩
      rw [List.flatMap_cons, ← List.append_assoc]
      exact (operations_next admission.inv action).append_right _

end Accepting

/-- Whatever threads begin accept operations and whenever sessions are put, each session
put is given to one operation, in the order of the puts, and none is started before; at
most `maximum` wait, and every operation begun is served once, waits or is woken. -/
theorem sessions_are_handed_out {κ : Type u} [DecidableEq κ] {maximum : Nat}
    {actions : List (AcceptAction κ)}
    (possible : AllMet Accepting.next Accepting.Possible
      { acceptor := { maximumPendingSessions := maximum } } actions) :
    let later := actions.foldl Accepting.next
      { acceptor := { maximumPendingSessions := maximum } }
    (∃ count, later.given.Perm (List.range count) ∧
      later.acceptor.pendingSessions =
        List.range' count (later.acceptor.peers.length - count) ∧
      count ≤ later.acceptor.peers.length) ∧
    later.acceptor.pendingSessions.length ≤ maximum ∧
    (∀ id ∈ later.acceptor.pendingSessions, ∃ peer, later.acceptor.peers[id]? = some peer ∧
      peer.service.session.running = false) ∧
    (∀ operation ∈ later.served, operation.stream ≠ none) ∧
    (later.operations.map AcceptOp.handler).Perm (actions.flatMap AcceptAction.begins) := by
  intro later
  obtain ⟨admission, kept⟩ := (Accepting.Admission.initial maximum).run possible
  obtain ⟨count, handed⟩ := admission.handed
  refine ⟨⟨count, handed.given, handed.pending, handed.made⟩, admission.bounded.2, ?_,
    handed.streams, kept⟩
  intro id waits
  have inside := admission.acceptor.made id waits
  have located := List.getElem?_eq_getElem inside
  exact ⟨_, located, (admission.acceptor.pending id _ located waits).stopped⟩

/-- Five clients come for three operations; the last one finds the queue full. -/
def crowdSchedule : List (AcceptAction Nat) :=
  [.begin 1, .register 0, .begin 2, .putSession 7, .putSession 8, .runWoken 0, .register 0,
    .putSession 9, .begin 3, .runPosted 0, .putSession 5, .putSession 6]

theorem sessions_are_handed_out_crowd :
    let later := crowdSchedule.foldl Accepting.next
      { acceptor := { maximumPendingSessions := 2 } }
    (later.operations.map AcceptOp.handler).Perm [1, 2, 3] ∧
      later.completed.map AcceptOp.stream = [some 0, some 1] ∧
      later.acceptor.pendingSessions = [2, 3] :=
  ⟨(sessions_are_handed_out (by decide)).2.2.2.2, by decide, by decide⟩

end CurvecprAsio
