import CurvecprAsio.Outstanding
import CurvecprAsio.WriteRoom

set_option autoImplicit false

/- Where an operation is begun, and when its completion handler is called. -/
namespace CurvecprAsio

open Strand Sweep Transition

/-- The positions of the reads are 64-bit values. -/
def Session.ReadWord (s : Session) : Prop :=
  s.recvmarkqDistributed < 2 ^ 64 ∧ s.recvmarkqReadOffset < 2 ^ 64

/-- Called now, the operation completes: a read that the contiguous blocks fill or that
gets to the end of the stream, a write that fits, a close of a session that does not run
or that is final at once. -/
def Operation.Completable (s : Session) (activity : List Callback) : Operation → Prop
  | .read buffer => buffer.length = 0 ∨ (Operation.read buffer).EofDue s ∨
      (s.readEntry buffer).limit ≤
        sweep BlockStatus.offset BlockStatus.endOffset s.recvmarkq s.recvmarkqDistributed
  | .write buffer => buffer.length = 0 ∨ s.pendingEof = true ∨
      buffer.length ≤ sub64 s.pendingMaximum s.pendingUsed
  | .close => s.running = false ∨
      s.pendingClose = false ∧ (s.closing.callbacks activity).final = true

instance (s : Session) (activity : List Callback) :
    (op : Operation) → Decidable (op.Completable s activity)
  | .read buffer => inferInstanceAs (Decidable (buffer.length = 0 ∨
      (Operation.read buffer).EofDue s ∨ (s.readEntry buffer).limit ≤
        sweep BlockStatus.offset BlockStatus.endOffset s.recvmarkq s.recvmarkqDistributed))
  | .write buffer => inferInstanceAs (Decidable (buffer.length = 0 ∨ s.pendingEof = true ∨
      buffer.length ≤ sub64 s.pendingMaximum s.pendingUsed))
  | .close => inferInstanceAs (Decidable (s.running = false ∨
      s.pendingClose = false ∧ (s.closing.callbacks activity).final = true))

theorem Session.Fresh.readWord {s : Session} (fresh : s.Fresh) : s.ReadWord := by
  unfold Session.ReadWord
  rw [fresh.recvmarkqDistributed, fresh.recvmarkqReadOffset]
  decide

theorem readLoop_offset_word (queue : List BlockStatus) (pass : ReadPass)
    (word : pass.readOffset < 2 ^ 64) : (readLoop queue pass).2.readOffset < 2 ^ 64 := by
  apply readLoop_keeps fun later => later.readOffset < 2 ^ 64
  · intro later block small _
    unfold ReadPass.consume
    split
    · dsimp only
      split <;> exact add64_lt _ _
    · exact small
  · exact fun _ _ small => small
  · exact word

namespace Session

variable {s : Session}

theorem ReadWord.read (word : s.ReadWord) (buffer : Buffer) :
    (s.read buffer).session.ReadWord := by
  by_cases empty : buffer.length = 0
  · simp only [Session.read, empty, ↓reduceIte]
    exact ⟨word.1, (by decide : 0 < 2 ^ 64)⟩
  · have spec := s.read_spec empty
    refine ⟨?_, ?_⟩
    · rw [spec.distributed]
      exact readLoop_word s.recvmarkq (s.readEntry buffer) word.1
    · cases done : (s.read buffer).done with
      | true =>
          rw [(spec.finished done).1]
          decide
      | false =>
          rw [spec.waits done]
          exact readLoop_offset_word s.recvmarkq (s.readEntry buffer) word.2

theorem read_done_iff_completable (word : s.ReadWord) (buffer : Buffer) :
    (s.read buffer).done = true ↔ (Operation.read buffer).Completable s [] := by
  by_cases empty : buffer.length = 0
  · simp [Session.read, empty, Operation.Completable]
  · have small := buffer.length_lt
    have length : (s.readPass buffer).2.buffer.length = buffer.length :=
      length_readLoop s.recvmarkq (s.readEntry buffer)
    have offset : (s.readPass buffer).2.readOffset < 2 ^ 64 :=
      readLoop_offset_word s.recvmarkq (s.readEntry buffer) word.2
    obtain ⟨moved, kept⟩ := readLoop_sweep s.recvmarkq (s.readEntry buffer) word.1
    have cursor : (s.readPass buffer).2.distributed = min (s.readEntry buffer).limit
        (sweep BlockStatus.offset BlockStatus.endOffset s.recvmarkq s.recvmarkqDistributed) :=
      moved
    have limit : (s.readPass buffer).2.distributed +
        sub64 buffer.length (s.readPass buffer).2.readOffset = (s.readEntry buffer).limit := by
      rw [← length]
      exact kept
    have full : (s.readPass buffer).2.readOffset = buffer.length ↔
        sub64 buffer.length (s.readPass buffer).2.readOffset = 0 := by
      unfold sub64
      omega
    have ends : (s.readPass buffer).2.pendingEof = true ↔ (Operation.read buffer).EofDue s :=
      readLoop_eof_iff s.recvmarkq (s.readEntry buffer) word.1
    rw [s.read_done_iff empty, ends, full]
    simp only [Operation.Completable, empty, false_or]
    rw [or_comm]
    apply or_congr Iff.rfl
    omega

theorem write_done_iff (s : Session) (buffer : Buffer) :
    (s.write buffer).done = true ↔ (Operation.write buffer).Completable s [] := by
  have waits := s.write_waits_iff buffer
  simp only [Operation.Completable]
  by_cases done : (s.write buffer).done = true
  · have open_ := (not_congr waits).mp (by simp [done])
    simp only [done, true_iff]
    by_cases empty : buffer.length = 0
    · exact Or.inl empty
    · by_cases ended : s.pendingEof = true
      · exact Or.inr (Or.inl ended)
      · refine Or.inr (Or.inr (Nat.le_of_not_lt ?_))
        intro full
        exact open_ ⟨empty, by simpa using ended, full⟩
  · obtain ⟨nonempty, open_, full⟩ := waits.mp (by simpa using done)
    simp only [done, nonempty, open_, false_or, Bool.false_eq_true, false_iff]
    omega

theorem close_done_iff (s : Session) (activity : List Callback) :
    (s.close activity).done = true ↔ Operation.close.Completable s activity := by
  simp only [Operation.Completable]
  rcases s.close_cases activity with
    ⟨stopped, result⟩ | ⟨running, closing, result⟩ | ⟨running, open_, final, result⟩ |
      ⟨running, open_, final, result⟩
  · simp [result, stopped]
  · simp [result, running, closing]
  · simp [result, open_, final]
  · simp [result, running, final]

end Session

theorem IoOp.completes_iff {s : Session} (word : s.ReadWord) (operation : IoOp)
    (activity : List Callback) : (operation.perform s activity).want = .nothing ↔
      operation.op.Completable s activity := by
  unfold IoOp.perform
  cases isOp : operation.op with
  | read buffer =>
      have done := s.read_done_iff_completable word buffer
      dsimp only
      split
      · rename_i complete
        exact iff_of_true rfl (done.mp complete)
      · rename_i incomplete
        exact iff_of_false (by decide) (fun completable => incomplete (done.mpr completable))
  | write buffer =>
      have done := s.write_done_iff buffer
      dsimp only
      split
      · rename_i complete
        exact iff_of_true rfl (done.mp complete)
      · rename_i incomplete
        exact iff_of_false (by decide) (fun completable => incomplete (done.mpr completable))
  | close =>
      have done := s.close_done_iff activity
      dsimp only
      split
      · rename_i complete
        exact iff_of_true rfl (done.mp complete)
      · rename_i incomplete
        exact iff_of_false (by decide) (fun completable => incomplete (done.mpr completable))

theorem Service.readWord_next {service : Service} {action : ServiceAction}
    (word : service.session.ReadWord) (possible : service.Possible action) :
    (service.next action).session.ReadWord := by
  by_cases reads : ∃ operation activity buffer,
      service.called action = some (operation, activity) ∧ operation.op = .read buffer
  · obtain ⟨operation, activity, buffer, called, isRead⟩ := reads
    obtain ⟨distributed, offset, _⟩ := Service.read_next possible called isRead
    have before := (@goes_found service action).cursor
    have found : (service.found action).ReadWord := by
      unfold Session.ReadWord
      rw [before.1, before.2]
      exact word
    have after := found.read buffer
    unfold Session.ReadWord
    rw [distributed, offset]
    exact after
  · have unread : ∀ operation activity buffer,
        service.called action = some (operation, activity) → operation.op ≠ .read buffer :=
      fun operation activity buffer called isRead =>
        reads ⟨operation, activity, buffer, called, isRead⟩
    unfold Session.ReadWord
    rcases Service.cursor_next possible unread with ⟨distributed, offset⟩ | ⟨_, distributed, offset⟩
    · rw [distributed, offset]
      exact word
    · rw [distributed, offset]
      decide

namespace Service

variable {service : Service} {action : ServiceAction}

theorem call_cases (service : Service) {operation : IoOp} (start : Bool)
    (activity : List Callback) (unfinished : operation.finished = false) :
    ((operation.perform service.session activity).want ≠ .nothing ∧
        (service.call operation start activity).posted = service.posted ∧
        (service.call operation start activity).completed = service.completed) ∨
      ((operation.perform service.session activity).want = .nothing ∧
        (service.call operation start activity).posted = service.posted ++ (if start then
          [{ (operation.perform service.session activity).operation with finished := true }]
          else []) ∧
        (service.call operation start activity).completed = service.completed ++ (if start then []
          else [{ (operation.perform service.session activity).operation with
            finished := true }])) := by
  simp only [call, unfinished, Bool.not_false, ↓reduceIte]
  by_cases waits : (operation.perform service.session activity).want = .nothing
  · right
    cases start with
    | true => simp [waits]
    | false => simp [waits, callHandler]
  · left
    simp [waits]

end Service

/-- Where an operation is begun: on the session's strand, on a thread that runs the
io_service while the strand is free, or anywhere else. -/
inductive Context where
  | strand
  | free
  | outside
  deriving DecidableEq, Repr

/-- What happens to an operation: the session call that completes it, the call of its
completion handler, and the return of its initiating function. -/
inductive IoEvent where
  | completed (operation : IoOp)
  | called (operation : IoOp)
  | returned (handler : Nat)
  deriving DecidableEq, Repr

/-- The io_service of a session; the latest event comes first. -/
structure Initiating where
  service : Service
  events : List IoEvent := []
  deriving DecidableEq, Repr

/-- The completion handlers of the operations that a step begins. -/
def ServiceAction.begun : ServiceAction → List Nat
  | .beginInside handler _ _ => [handler]
  | .beginOutside handler _ => [handler]
  | _ => []

inductive InitiatingAction where
  | begin (context : Context) (handler : Nat) (op : Operation) (activity : List Callback)
  | service (action : ServiceAction)

namespace Service

/-- The session call of a step that completes an operation, if any. -/
def completions (service : Service) (action : ServiceAction) : List IoEvent :=
  match service.called action with
  | some (operation, activity) =>
      let result := operation.perform (service.found action) activity
      if result.want = .nothing then [.completed { result.operation with finished := true }]
      else []
  | none => []

/-- The completion handlers that are called between two states. -/
def calls (service later : Service) : List IoEvent :=
  (later.completed.drop service.completed.length).map IoEvent.called

theorem calls_of {service later : Service} {operation : IoOp}
    (calls : later.completed = service.completed ++ [operation]) :
    service.calls later = [.called operation] := by
  simp [Service.calls, calls]

end Service

namespace Initiating

/-- A step of the io_service, with what happens in it. -/
def step (initiating : Initiating) (action : ServiceAction) : Initiating where
  service := initiating.service.next action
  events := initiating.service.calls (initiating.service.next action) ++
    initiating.service.completions action ++ initiating.events

/-- The initiating function returns. -/
def returns (initiating : Initiating) (handler : Nat) : Initiating :=
  { initiating with events := .returned handler :: initiating.events }

/-- `basic_stream::async_io_operation`. A strand that is free runs at once what is
dispatched to it from a thread of the io_service. -/
def asyncIoOperation (initiating : Initiating) (context : Context) (handler : Nat)
    (op : Operation) (activity : List Callback) : Initiating :=
  match context with
  | .strand => (initiating.step (.beginInside handler op activity)).returns handler
  | .free => ((initiating.step (.beginOutside handler op)).step
      (.run initiating.service.session.strand.ready.length activity)).returns handler
  | .outside => (initiating.step (.beginOutside handler op)).returns handler

def next (initiating : Initiating) : InitiatingAction → Initiating
  | .begin context handler op activity =>
      initiating.asyncIoOperation context handler op activity
  | .service action => initiating.step action

/-- Each operation has a completion handler of its own. -/
def Possible (initiating : Initiating) : InitiatingAction → Prop
  | .begin _ handler _ _ => handler ∉ initiating.service.begun.map Prod.fst
  | .service action => initiating.service.Possible action ∧ action.begun = []

instance (initiating : Initiating) : (action : InitiatingAction) →
    Decidable (initiating.Possible action)
  | .begin _ handler _ _ =>
      inferInstanceAs (Decidable (handler ∉ initiating.service.begun.map Prod.fst))
  | .service action => inferInstanceAs (Decidable (initiating.service.Possible action ∧
      action.begun = []))

/-- What may be said after what has happened: an operation is completed by one session
call, and its handler is called once, with what that call has left, after the initiating
function has returned. -/
def Permitted (earlier : List IoEvent) : IoEvent → Prop
  | .completed operation =>
      ∀ other, .completed other ∈ earlier → other.handler ≠ operation.handler
  | .called operation => .completed operation ∈ earlier ∧ .returned operation.handler ∈ earlier ∧
      ∀ other, .called other ∈ earlier → other.handler ≠ operation.handler
  | .returned _ => True

/-- Every event was permitted when it happened. -/
def Story : List IoEvent → Prop
  | [] => True
  | event :: earlier => Permitted earlier event ∧ Story earlier

/-- Completion handlers are deferred and called once. An operation that has been completed
and whose handler has not been called is posted. -/
structure Deferred (initiating : Initiating) : Prop where
  story : Story initiating.events
  due : ∀ operation, .completed operation ∈ initiating.events →
    .called operation ∈ initiating.events ∨
      operation ∈ initiating.service.posted ∧ operation.finished = true

/-- An operation that is begun where the strand runs it at once cannot complete then. -/
def waits (initiating : Initiating) : InitiatingAction → Guard
  | .begin .free _ op activity => .of (¬ op.Completable initiating.service.session activity)
  | _ => .free

abbrev Waits (initiating : Initiating) (action : InitiatingAction) : Prop :=
  (initiating.waits action).holds

end Initiating

namespace Service

variable {service : Service} {action : ServiceAction}

/-- What a step does to the operations that have been completed. -/
inductive Outcome (service later : Service) (completions : List IoEvent) : Prop
  | none (completed : completions = []) (posts : later.posted = service.posted)
      (calls : later.completed = service.completed)
  | posts (operation : IoOp) (finished : operation.finished = true)
      (completed : completions = [.completed operation])
      (posts : later.posted = service.posted ++ [operation])
      (calls : later.completed = service.completed)
  | completes (operation : IoOp) (finished : operation.finished = true)
      (completed : completions = [.completed operation])
      (posts : later.posted = service.posted)
      (calls : later.completed = service.completed ++ [operation])
  | calls (operation : IoOp) (completed : completions = [])
      (posts : service.posted.Perm (operation :: later.posted))
      (calls : later.completed = service.completed ++ [operation])

theorem outcome (unfinished : ∀ operation ∈ service.session.operations, operation.finished = false)
    (posted : ∀ operation ∈ service.posted, operation.finished = true) :
    Outcome service (service.next action) (service.completions action) := by
  cases action with
  | beginInside handler op activity =>
      simp only [completions, called, found, next]
      rcases (service.noted handler op).call_cases true activity
          (show (service.opened handler op).finished = false from rfl) with
        ⟨waits, posts, calls⟩ | ⟨completes, posts, calls⟩
      · exact .none (if_neg waits) posts calls
      · simp only [↓reduceIte, List.append_nil] at posts calls
        exact .posts _ rfl (if_pos completes) posts calls
  | run index activity =>
      simp only [completions, called, found, next, run]
      cases located : service.session.strand.ready[index]? with
      | none => exact .none rfl rfl rfl
      | some due =>
          obtain ⟨handler, completion⟩ := due
          cases handler with
          | processSendQueue => exact .none rfl rfl rfl
          | doClose => exact .none rfl rfl rfl
          | ioOp operation =>
              have inside : operation ∈ service.session.operations := by
                apply List.mem_filterMap.mpr
                refine ⟨.ioOp operation, ?_, rfl⟩
                apply (Queue.mem_handlers _ _).mpr
                exact Or.inr ⟨completion, List.mem_of_getElem? located⟩
              have fresh := unfinished operation inside
              simp only [fresh, Bool.false_eq_true, ↓reduceIte]
              rcases (service.take index).call_cases false activity fresh with
                ⟨waits, posts, calls⟩ | ⟨completes, posts, calls⟩
              · exact .none (if_neg waits) posts calls
              · simp only [Bool.false_eq_true, ↓reduceIte, List.append_nil] at posts calls
                exact .completes _ rfl (if_pos completes) posts calls
  | runPosted index =>
      simp only [completions, called, next, runPosted]
      cases located : service.posted[index]? with
      | none => exact .none rfl rfl rfl
      | some operation =>
          obtain ⟨inside, atIndex⟩ := List.getElem?_eq_some_iff.mp located
          have finished := posted operation (List.mem_of_getElem? located)
          have perm := (List.getElem_cons_eraseIdx_perm inside).symm
          rw [atIndex] at perm
          simp only [callOutside, finished, Bool.not_true, Bool.false_eq_true, ↓reduceIte]
          exact .calls operation rfl perm rfl
  | _ => exact .none rfl rfl rfl

theorem begunHandlers_next (service : Service) (action : ServiceAction) :
    (service.next action).begun.map Prod.fst = service.begun.map Prod.fst ++ action.begun := by
  rw [begun_next, List.map_append]
  cases action <;> rfl

theorem completed_begin (begins : action.begun ≠ []) :
    (service.next action).completed = service.completed := by
  cases action with
  | beginInside handler op activity =>
      rcases (service.noted handler op).call_cases true activity
          (show (service.opened handler op).finished = false from rfl) with
        ⟨_, _, calls⟩ | ⟨_, _, calls⟩
      · exact calls
      · simp only [↓reduceIte, List.append_nil] at calls
        exact calls
  | beginOutside handler op => rfl
  | _ => exact absurd rfl begins

/-- What a free strand is handed runs at once, and is not told that it is called by the
initiating function. -/
theorem dispatch_free (service : Service) (handler : Nat) (op : Operation)
    (activity : List Callback) :
    (service.next (.beginOutside handler op)).next
        (.run service.session.strand.ready.length activity) =
      (service.noted handler op).call (service.opened handler op) false activity := by
  have located := service.session.strand.getElem?_ready_dispatch
    (.ioOp (service.opened handler op))
  have taken := service.session.strand.take_dispatch (.ioOp (service.opened handler op))
  simp only [next, callOutside, noted, Bool.not_false, ↓reduceIte, run, located, take, taken,
    dispatched]

end Service

namespace Initiating

theorem returned_completions (service : Service) (action : ServiceAction) (handler : Nat) :
    .returned handler ∉ service.completions action := by
  unfold Service.completions
  split
  · dsimp only
    split <;> simp
  · simp

theorem returned_step (initiating : Initiating) (action : ServiceAction) (handler : Nat) :
    .returned handler ∈ (initiating.step action).events ↔
      .returned handler ∈ initiating.events := by
  simp only [step, Service.calls, List.mem_append, List.mem_map, reduceCtorEq, and_false,
    exists_false, returned_completions, false_or]

/-- What the events say of the operations that are posted and of those whose completion
handlers have been called. -/
structure Recorded (events : List IoEvent) (due done : List IoOp) : Prop where
  posted : ∀ operation ∈ due, operation.finished = true ∧ .completed operation ∈ events
  called : ∀ operation, .called operation ∈ events ↔ operation ∈ done
  completed : ∀ operation, .completed operation ∈ events →
    operation ∈ due ∨ operation ∈ done

namespace Recorded

variable {events : List IoEvent} {due done : List IoOp} {operation : IoOp}

theorem post (recorded : Recorded events due done) (finished : operation.finished = true) :
    Recorded (.completed operation :: events) (due ++ [operation]) done where
  posted := by
    intro other member
    rcases List.mem_append.mp member with old | same
    · have before := recorded.posted other old
      exact ⟨before.1, List.mem_cons_of_mem _ before.2⟩
    · rw [List.mem_singleton.mp same]
      exact ⟨finished, List.mem_cons_self⟩
  called := by
    intro other
    simp only [List.mem_cons, reduceCtorEq, false_or]
    exact recorded.called other
  completed := by
    intro other member
    simp only [List.mem_cons, IoEvent.completed.injEq] at member
    rw [List.mem_append, List.mem_singleton]
    rcases member with same | old
    · exact Or.inl (Or.inr same)
    · rcases recorded.completed other old with posted | called
      · exact Or.inl (Or.inl posted)
      · exact Or.inr called

theorem call (recorded : Recorded events due done) {rest : List IoOp}
    (taken : due.Perm (operation :: rest)) :
    Recorded (.called operation :: events) rest (done ++ [operation]) where
  posted := by
    intro other member
    have before := recorded.posted other (taken.mem_iff.mpr (List.mem_cons_of_mem _ member))
    exact ⟨before.1, List.mem_cons_of_mem _ before.2⟩
  called := by
    intro other
    rw [List.mem_cons, IoEvent.called.injEq, recorded.called other, List.mem_append,
      List.mem_singleton]
    exact or_comm
  completed := by
    intro other member
    simp only [List.mem_cons, reduceCtorEq, false_or] at member
    rw [List.mem_append, List.mem_singleton]
    rcases recorded.completed other member with posted | called
    · rcases List.mem_cons.mp (taken.mem_iff.mp posted) with same | kept
      · exact Or.inr (Or.inr same)
      · exact Or.inl kept
    · exact Or.inr (Or.inl called)

theorem returns (recorded : Recorded events due done) (handler : Nat) :
    Recorded (.returned handler :: events) due done where
  posted := fun other member =>
    ⟨(recorded.posted other member).1, List.mem_cons_of_mem _ (recorded.posted other member).2⟩
  called := by
    intro other
    simp only [List.mem_cons, reduceCtorEq, false_or]
    exact recorded.called other
  completed := by
    intro other member
    simp only [List.mem_cons, reduceCtorEq, false_or] at member
    exact recorded.completed other member

end Recorded

/-- What a run keeps of the operations begun and of the events about them. -/
structure Records (initiating : Initiating) : Prop where
  accounted : initiating.service.tickets.Perm initiating.service.begun
  fresh : (initiating.service.begun.map Prod.fst).Nodup
  word : initiating.service.session.ReadWord
  unfinished : ∀ operation ∈ initiating.service.session.operations, operation.finished = false
  recorded : Recorded initiating.events initiating.service.posted initiating.service.completed
  known : ∀ handler, .returned handler ∈ initiating.events →
    handler ∈ initiating.service.begun.map Prod.fst

namespace Records

variable {initiating : Initiating} {action : ServiceAction}

theorem distinct {service : Service} (accounted : service.tickets.Perm service.begun)
    (fresh : (service.begun.map Prod.fst).Nodup) :
    ((service.posted ++ service.completed).map IoOp.handler).Nodup := by
  have perm := accounted.map Prod.fst
  have all := perm.nodup_iff.mpr fresh
  have handlers : service.tickets.map Prod.fst =
      (service.session.operations ++ (service.posted ++ service.completed)).map IoOp.handler := by
    simp only [Service.tickets, Service.outstanding, List.map_map, List.append_assoc]
    rfl
  rw [handlers, List.map_append] at all
  exact (List.nodup_append.mp all).2.1

theorem apart {items : List IoOp} {operation : IoOp} {rest : List IoOp}
    (distinct : (items.map IoOp.handler).Nodup) (perm : items.Perm (operation :: rest)) :
    ∀ other ∈ rest, other.handler ≠ operation.handler := by
  have nodup := (perm.map IoOp.handler).nodup_iff.mp distinct
  rw [List.map_cons, List.nodup_cons] at nodup
  intro other member same
  exact nodup.1 (same ▸ List.mem_map_of_mem member)

/-- The events of a step, and the handlers they are about. -/
inductive Events (before : Initiating) (action : ServiceAction) : Prop
  | none (same : (before.step action).events = before.events)
      (posts : (before.service.next action).posted = before.service.posted)
      (calls : (before.service.next action).completed = before.service.completed)
  | posts (operation : IoOp) (finished : operation.finished = true)
      (events : (before.step action).events = .completed operation :: before.events)
      (apart : ∀ other ∈ before.service.posted ++ before.service.completed,
        other.handler ≠ operation.handler)
      (posts : (before.service.next action).posted = before.service.posted ++ [operation])
      (calls : (before.service.next action).completed = before.service.completed)
  | completes (operation : IoOp) (finished : operation.finished = true)
      (events : (before.step action).events =
        .called operation :: .completed operation :: before.events)
      (apart : ∀ other ∈ before.service.posted ++ before.service.completed,
        other.handler ≠ operation.handler)
      (posts : (before.service.next action).posted = before.service.posted)
      (calls : (before.service.next action).completed =
        before.service.completed ++ [operation])
  | calls (operation : IoOp) (inside : operation ∈ before.service.posted)
      (events : (before.step action).events = .called operation :: before.events)
      (apart : ∀ other ∈ before.service.completed, other.handler ≠ operation.handler)
      (posts : before.service.posted.Perm
        (operation :: (before.service.next action).posted))
      (calls : (before.service.next action).completed =
        before.service.completed ++ [operation])

theorem events (inv : Records initiating) (action : ServiceAction)
    (new : (initiating.service.begun.map Prod.fst ++ action.begun).Nodup) :
    Events initiating action := by
  have after : (((initiating.service.next action).posted ++
      (initiating.service.next action).completed).map IoOp.handler).Nodup := by
    apply distinct (initiating.service.tickets_next action inv.accounted)
    rw [Service.begunHandlers_next]
    exact new
  have before := distinct inv.accounted inv.fresh
  rcases Service.outcome inv.unfinished
      (fun operation member => (inv.recorded.posted operation member).1) with
    ⟨completed, posts, calls⟩ | ⟨operation, finished, completed, posts, calls⟩ |
      ⟨operation, finished, completed, posts, calls⟩ | ⟨operation, completed, posts, calls⟩
  · apply Events.none _ posts calls
    simp [step, completed, Service.calls, calls]
  · apply Events.posts operation finished _ _ posts calls
    · simp [step, completed, Service.calls, calls]
    · rw [posts, calls, List.append_assoc, List.singleton_append] at after
      exact apart after List.perm_middle
  · apply Events.completes operation finished _ _ posts calls
    · simp [step, completed, Service.calls, calls]
    · rw [posts, calls, ← List.append_assoc] at after
      exact apart after (List.perm_append_singleton _ _)
  · have inside := posts.mem_iff.mpr List.mem_cons_self
    apply Events.calls operation inside _ _ posts calls
    · simp [step, completed, Service.calls, calls]
    · intro other member
      apply apart before (posts.append_right _)
      exact List.mem_append_right _ member

theorem step (inv : Records initiating) (action : ServiceAction)
    (possible : initiating.service.Possible action)
    (new : (initiating.service.begun.map Prod.fst ++ action.begun).Nodup) :
    Records (initiating.step action) := by
  have noted := Service.begunHandlers_next initiating.service action
  have accounted := initiating.service.tickets_next action inv.accounted
  have fresh : ((initiating.step action).service.begun.map Prod.fst).Nodup := by
    simp only [Initiating.step, noted]
    exact new
  have word := Service.readWord_next inv.word possible
  have unfinished : ∀ operation ∈ (initiating.step action).service.session.operations,
      operation.finished = false := by
    intro operation inside
    rcases Service.unfinished_next inside with old | finished
    · exact inv.unfinished operation old
    · exact finished
  have known : ∀ handler, .returned handler ∈ (initiating.step action).events →
      handler ∈ (initiating.step action).service.begun.map Prod.fst := by
    intro handler returned
    simp only [Initiating.step, noted]
    exact List.mem_append_left _
      (inv.known handler ((initiating.returned_step action handler).mp returned))
  refine ⟨accounted, fresh, word, unfinished, ?_, known⟩
  have before := inv.recorded
  rcases inv.events action new with
    ⟨events, posts, calls⟩ | ⟨operation, finished, events, _, posts, calls⟩ |
      ⟨operation, finished, events, _, posts, calls⟩ | ⟨operation, _, events, _, posts, calls⟩
  · rw [events]
    simp only [Initiating.step, posts, calls]
    exact before
  · rw [events]
    simp only [Initiating.step, posts, calls]
    exact before.post finished
  · rw [events]
    simp only [Initiating.step, posts, calls]
    exact (before.post finished).call (List.perm_append_singleton _ _)
  · rw [events]
    simp only [Initiating.step, calls]
    exact before.call posts

/-- What a step adds to the story, where the handlers called belong to initiating functions
that have returned. -/
theorem story (inv : Records initiating) (action : ServiceAction)
    (new : (initiating.service.begun.map Prod.fst ++ action.begun).Nodup)
    (returned : ∀ operation ∈ (initiating.service.next action).completed,
      .returned operation.handler ∈ initiating.events)
    (earlier : Story initiating.events) : Story (initiating.step action).events := by
  have once : ∀ {operation : IoOp},
      (∀ other ∈ initiating.service.posted ++ initiating.service.completed,
        other.handler ≠ operation.handler) →
      Permitted initiating.events (.completed operation) := by
    intro operation apart other completed
    exact apart other (List.mem_append.mpr (inv.recorded.completed other completed))
  rcases inv.events action new with
    ⟨same, _, _⟩ | ⟨operation, _, events, apart, _, _⟩ |
      ⟨operation, _, events, apart, _, calls⟩ | ⟨operation, inside, events, apart, _, calls⟩
  · rw [same]
    exact earlier
  · rw [events]
    exact ⟨once apart, earlier⟩
  · rw [events]
    refine ⟨⟨List.mem_cons_self, ?_, ?_⟩, once apart, earlier⟩
    · apply List.mem_cons_of_mem
      apply returned
      rw [calls]
      exact List.mem_append_right _ List.mem_cons_self
    · intro other called
      simp only [List.mem_cons, reduceCtorEq, false_or] at called
      exact apart other (List.mem_append_right _ ((inv.recorded.called other).mp called))
  · rw [events]
    refine ⟨⟨(inv.recorded.posted operation inside).2, ?_, ?_⟩, earlier⟩
    · apply returned
      rw [calls]
      exact List.mem_append_right _ List.mem_cons_self
    · intro other called
      exact apart other ((inv.recorded.called other).mp called)

theorem returns (inv : Records initiating) {handler : Nat}
    (begun : handler ∈ initiating.service.begun.map Prod.fst) :
    Records (initiating.returns handler) where
  accounted := inv.accounted
  fresh := inv.fresh
  word := inv.word
  unfinished := inv.unfinished
  recorded := inv.recorded.returns handler
  known := by
    intro other returned
    simp only [Initiating.returns, List.mem_cons, IoEvent.returned.injEq] at returned
    rcases returned with same | old
    · rw [same]
      exact begun
    · exact inv.known other old

theorem begun_completed (inv : Records initiating) {operation : IoOp}
    (called : operation ∈ initiating.service.completed) :
    operation.handler ∈ initiating.service.begun.map Prod.fst := by
  apply (inv.accounted.map Prod.fst).mem_iff.mp
  rw [Service.tickets, List.map_map]
  exact List.mem_map.mpr ⟨operation, List.mem_append_right _ called, rfl⟩

theorem due (inv : Records initiating) {operation : IoOp}
    (completed : .completed operation ∈ initiating.events) :
    .called operation ∈ initiating.events ∨
      operation ∈ initiating.service.posted ∧ operation.finished = true := by
  rcases inv.recorded.completed operation completed with posted | called
  · exact Or.inr ⟨posted, (inv.recorded.posted operation posted).1⟩
  · exact Or.inl ((inv.recorded.called operation).mpr called)

end Records

/-- Between its actions every initiating function has returned. -/
structure Rest (initiating : Initiating) : Prop extends Records initiating where
  returned : ∀ handler ∈ initiating.service.begun.map Prod.fst,
    .returned handler ∈ initiating.events

namespace Rest

variable {initiating : Initiating}

theorem deferred_iff (rest : Rest initiating) :
    Deferred initiating ↔ Story initiating.events :=
  ⟨Deferred.story, fun story => ⟨story, fun _ completed => rest.toRecords.due completed⟩⟩

theorem nodup_begun (rest : Rest initiating) {action : ServiceAction} {handler : Nat}
    (begins : action.begun = [handler])
    (fresh : handler ∉ initiating.service.begun.map Prod.fst) :
    (initiating.service.begun.map Prod.fst ++ action.begun).Nodup := by
  rw [begins]
  exact List.nodup_append.mpr ⟨rest.fresh, List.nodup_singleton _, by
    intro other member same single
    rw [List.mem_singleton] at single
    exact fun equal => fresh (single ▸ equal ▸ member)⟩

theorem begin_ (rest : Rest initiating) {action : ServiceAction} {handler : Nat}
    (possible : initiating.service.Possible action) (begins : action.begun = [handler])
    (fresh : handler ∉ initiating.service.begun.map Prod.fst) :
    Rest ((initiating.step action).returns handler) := by
  have noted := Service.begunHandlers_next initiating.service action
  rw [begins] at noted
  have records := rest.toRecords.step action possible (rest.nodup_begun begins fresh)
  refine ⟨records.returns ?_, ?_⟩
  · simp only [Initiating.step, noted]
    exact List.mem_append_right _ List.mem_cons_self
  · intro other begun
    simp only [Initiating.returns, Initiating.step, noted, List.mem_append,
      List.mem_singleton] at begun
    rcases begun with old | same
    · apply List.mem_cons_of_mem
      exact (initiating.returned_step action other).mpr (rest.returned other old)
    · rw [same]
      exact List.mem_cons_self

theorem story_begin (rest : Rest initiating) {action : ServiceAction} {handler : Nat}
    (begins : action.begun = [handler])
    (fresh : handler ∉ initiating.service.begun.map Prod.fst)
    (earlier : Story initiating.events) :
    Story ((initiating.step action).returns handler).events := by
  refine ⟨trivial, rest.toRecords.story action (rest.nodup_begun begins fresh) ?_ earlier⟩
  intro operation called
  rw [Service.completed_begin (by simp [begins])] at called
  exact rest.returned _ (rest.toRecords.begun_completed called)

theorem service (rest : Rest initiating) {action : ServiceAction}
    (possible : initiating.service.Possible action) (begins : action.begun = []) :
    Rest (initiating.step action) := by
  have noted := Service.begunHandlers_next initiating.service action
  rw [begins, List.append_nil] at noted
  refine ⟨rest.toRecords.step action possible ?_, ?_⟩
  · rw [begins, List.append_nil]
    exact rest.fresh
  · intro handler begun
    simp only [Initiating.step, noted] at begun
    exact (initiating.returned_step action handler).mpr (rest.returned handler begun)

theorem story_service (rest : Rest initiating) {action : ServiceAction}
    (begins : action.begun = []) (earlier : Story initiating.events) :
    Story (initiating.step action).events := by
  have noted := Service.begunHandlers_next initiating.service action
  have new : (initiating.service.begun.map Prod.fst ++ action.begun).Nodup := by
    rw [begins, List.append_nil]
    exact rest.fresh
  rw [begins, List.append_nil] at noted
  refine rest.toRecords.story action new ?_ earlier
  intro operation called
  have tickets := (initiating.service.tickets_next action rest.accounted).map Prod.fst
  apply rest.returned
  rw [← noted]
  apply tickets.mem_iff.mp
  rw [Service.tickets, List.map_map]
  exact List.mem_map.mpr ⟨operation, List.mem_append_right _ called, rfl⟩

end Rest

section Free

variable {initiating : Initiating} {handler : Nat} {op : Operation} {activity : List Callback}

/-- The strand has the operation, and its initiating function has not returned. -/
def dispatched (initiating : Initiating) (handler : Nat) (op : Operation) : Initiating :=
  initiating.step (.beginOutside handler op)

theorem events_dispatched : (initiating.dispatched handler op).events = initiating.events := by
  simp [dispatched, step, Service.completions, Service.called, Service.calls,
    Service.completed_begin (show (ServiceAction.beginOutside handler op).begun ≠ [] by
      simp [ServiceAction.begun])]

theorem Rest.dispatched (rest : Rest initiating)
    (fresh : handler ∉ initiating.service.begun.map Prod.fst) :
    Records (initiating.dispatched handler op) :=
  rest.toRecords.step (.beginOutside handler op) trivial (rest.nodup_begun rfl fresh)

theorem Rest.free (rest : Rest initiating)
    (fresh : handler ∉ initiating.service.begun.map Prod.fst) :
    Rest (initiating.asyncIoOperation .free handler op activity) := by
  have records : Records (initiating.dispatched handler op) := rest.dispatched fresh
  have noted := Service.begunHandlers_next (initiating.dispatched handler op).service
    (.run initiating.service.session.strand.ready.length activity)
  have begun := noted.trans ((List.append_nil _).trans
    (Service.begunHandlers_next initiating.service (.beginOutside handler op)))
  have ran := records.step (.run initiating.service.session.strand.ready.length activity) trivial
    (by simpa only [ServiceAction.begun, List.append_nil] using records.fresh)
  refine ⟨ran.returns ?_, ?_⟩
  · simp only [Initiating.step, begun]
    exact List.mem_append_right _ List.mem_cons_self
  · intro other member
    have cases_ := (congrArg (other ∈ ·) begun).mp member
    rcases List.mem_append.mp cases_ with old | same
    · apply List.mem_cons_of_mem
      apply (returned_step _ _ other).mpr
      apply (returned_step _ _ other).mpr
      exact rest.returned other old
    · rw [List.mem_singleton.mp same]
      exact List.mem_cons_self

/-- An operation run at once by a free strand calls its completion handler then, unless it
has to wait. -/
theorem Rest.story_free (rest : Rest initiating)
    (fresh : handler ∉ initiating.service.begun.map Prod.fst)
    (earlier : Story initiating.events) :
    ¬ op.Completable initiating.service.session activity ↔
      Story (initiating.asyncIoOperation .free handler op activity).events := by
  have records : Records (initiating.dispatched handler op) := rest.dispatched fresh
  have ran := initiating.service.dispatch_free handler op activity
  have completes := IoOp.completes_iff rest.word (initiating.service.opened handler op) activity
  rcases (initiating.service.noted handler op).call_cases false activity
      (show (initiating.service.opened handler op).finished = false from rfl) with
    ⟨waits, _, calls⟩ | ⟨done, _, calls⟩
  · refine iff_of_true (fun completable => waits (completes.mpr completable)) ⟨trivial, ?_⟩
    apply records.story (.run initiating.service.session.strand.ready.length activity)
    · simpa only [ServiceAction.begun, List.append_nil] using records.fresh
    · intro operation called
      simp only [Initiating.dispatched, Initiating.step, ran, calls] at called
      rw [events_dispatched]
      exact rest.returned _ (rest.toRecords.begun_completed called)
    · rw [events_dispatched]
      exact earlier
  · refine iff_of_false (fun waits => waits (completes.mp done)) ?_
    intro story
    obtain ⟨result, same, last⟩ : ∃ result : IoOp, result.handler = handler ∧
        ((initiating.dispatched handler op).service.next
          (.run initiating.service.session.strand.ready.length activity)).completed =
        (initiating.dispatched handler op).service.completed ++ [result] := by
      refine ⟨_, ?_, (congrArg Service.completed ran).trans calls⟩
      exact congrArg Prod.fst (IoOp.ticket_perform (initiating.service.opened handler op) _ activity)
    have events : ((initiating.dispatched handler op).step
        (.run initiating.service.session.strand.ready.length activity)).events =
        .called result :: ((initiating.dispatched handler op).service.completions
          (.run initiating.service.session.strand.ready.length activity) ++
            (initiating.dispatched handler op).events) := by
      rw [step, Service.calls_of last, List.singleton_append, List.cons_append]
    have told : Story (.called result :: _) := events ▸ story.2
    have returned := told.1.2.1
    rw [same, List.mem_append, events_dispatched] at returned
    rcases returned with completed | old
    · exact returned_completions _ _ _ completed
    · exact fresh (rest.known handler old)

end Free

section Run

variable {initiating : Initiating} {action : InitiatingAction}

theorem Rest.next (rest : Rest initiating) (possible : initiating.Possible action) :
    Rest (initiating.next action) := by
  cases action with
  | service action => exact rest.service possible.1 possible.2
  | begin context handler op activity =>
      cases context with
      | strand => exact rest.begin_ trivial rfl possible
      | free => exact rest.free possible
      | outside => exact rest.begin_ trivial rfl possible

/-- Only where a free strand runs the operation at once can its completion handler be called
too early. -/
theorem Rest.story_next (rest : Rest initiating) (possible : initiating.Possible action)
    (earlier : Story initiating.events) :
    initiating.Waits action ↔ Story (initiating.next action).events := by
  cases action with
  | service action => exact iff_of_true trivial (rest.story_service possible.2 earlier)
  | begin context handler op activity =>
      cases context with
      | strand => exact iff_of_true trivial (rest.story_begin rfl possible earlier)
      | free => exact rest.story_free possible earlier
      | outside => exact iff_of_true trivial (rest.story_begin rfl possible earlier)

theorem Rest.initial {session : Session} (word : session.ReadWord)
    (idle : session.operations = []) : Rest { service := { session := session } } where
  accounted := by simp [Service.tickets, Service.outstanding, idle]
  fresh := List.nodup_nil
  word := word
  unfinished := by simp [idle]
  recorded := ⟨by simp, by simp, by simp⟩
  known := by simp
  returned := by simp

end Run

end Initiating

/-- The completion handlers of a session's operations are deferred and called once, along
the runs where what a free strand runs at once has to wait. -/
theorem completion_handlers_are_deferred {session : Session} (word : session.ReadWord)
    (idle : session.operations = []) {actions : List InitiatingAction}
    (possible : AllMet Initiating.next Initiating.Possible
      { service := { session := session } } actions) :
    AllMet Initiating.next Initiating.Waits { service := { session := session } } actions ↔
      ∀ count, Initiating.Deferred
        ((actions.take count).foldl Initiating.next { service := { session := session } }) := by
  have rest := Initiating.Rest.initial word idle
  have kept : ∀ (state : Initiating) (action : InitiatingAction), state.Rest →
      state.Possible action → state.Waits action → Initiating.Rest (state.next action) :=
    fun _ _ rest possible _ => rest.next possible
  apply AllMet.iff_always kept _ rest (rest.deferred_iff.mpr trivial) possible
  intro state action rest deferred possible
  rw [(rest.next possible).deferred_iff]
  exact rest.story_next possible deferred.story

/-- A read begun on a free strand waits for data, a write begun on the strand is posted. -/
theorem completion_handlers_are_deferred_waiting :
    let session : Session := { pendingMaximum := 4 }
    let actions : List InitiatingAction :=
      [.service .start, .begin .free 1 (.read ⟨[0, 0], by decide⟩) [],
        .begin .strand 2 (.write ⟨[7], by decide⟩) [],
        .service (.receive [.recvmarkqPut { data := [8, 9] }]), .service (.run 1 []),
        .service (.runPosted 0)]
    (∀ count, Initiating.Deferred
      ((actions.take count).foldl Initiating.next { service := { session := session } })) ∧
      (actions.foldl Initiating.next
        { service := { session := session } }).service.completed.length = 2 :=
  ⟨(completion_handlers_are_deferred (Session.fresh_configured 4 512 512).readWord rfl
    (by decide)).mp (by decide), by decide⟩

/-- A write that fits, begun on a thread of the io_service while the strand is free, has its
completion handler called before its initiating function returns. -/
theorem free_strand_calls_handler_at_once :
    ¬ ∀ (session : Session) (actions : List InitiatingAction), session.ReadWord →
      session.operations = [] →
      AllMet Initiating.next Initiating.Possible { service := { session := session } } actions →
      ∀ count, Initiating.Deferred
        ((actions.take count).foldl Initiating.next { service := { session := session } }) := by
  intro claimed
  have deferred := claimed { pendingMaximum := 4 }
    [.service .start, .begin .free 1 (.write ⟨[7], by decide⟩) []]
    (Session.fresh_configured 4 512 512).readWord rfl (by decide) 2
  have returned := deferred.story.2.1.2.1
  exact absurd returned (by decide)

end CurvecprAsio
