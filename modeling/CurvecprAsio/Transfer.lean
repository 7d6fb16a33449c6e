import CurvecprAsio.Echo
import CurvecprAsio.Wakeup

set_option autoImplicit false

/- A read or a write of a stream that reports no error has transferred its whole buffer, and
a program may begin an operation of a kind that is not outstanding. -/
namespace CurvecprAsio

open Strand Transition SearchTree

/-- A read or a write has a buffer of `size` bytes. -/
def Operation.Sized (size : Nat) : Operation → Prop
  | .read buffer => buffer.length = size
  | .write buffer => buffer.length = size
  | .close => True

/-- An operation that reports no error has transferred its whole buffer. -/
structure IoOp.Whole (size : Nat) (operation : IoOp) : Prop where
  sized : operation.op.Sized size
  transferred : operation.op ≠ .close → operation.ec = .success →
    operation.bytesTransferred = size

namespace Session

theorem length_read (s : Session) (buffer : Buffer) :
    (s.read buffer).buffer.length = buffer.length := by
  by_cases empty : buffer.length = 0
  · simp only [Session.read, empty, ↓reduceIte]
  · rw [(s.read_spec empty).held]
    exact length_readLoop s.recvmarkq (s.readEntry buffer)

/-- A read is done with a full buffer, unless it reports the end. -/
theorem read_whole (s : Session) {buffer : Buffer} (done : (s.read buffer).done = true)
    (success : (s.read buffer).ec = .success) :
    (s.read buffer).bytesTransferred = buffer.length := by
  unfold Session.read at done success ⊢
  split
  · rename_i empty
    exact empty.symm
  · rename_i nonempty
    simp only [nonempty, ↓reduceIte] at done success
    dsimp only
    split
    · rename_i finished
      simp only [finished, ↓reduceIte] at success
      rcases finished with full | ended
      · exact full
      · rw [if_pos ended] at success
        cases success
    · rename_i waits
      simp only [waits, ↓reduceIte, Bool.false_eq_true] at done

/-- So is a write. -/
theorem write_whole (s : Session) {buffer : Buffer} (done : (s.write buffer).done = true)
    (success : (s.write buffer).ec = .success) :
    (s.write buffer).bytesTransferred = buffer.length := by
  unfold Session.write at done success ⊢
  split
  · rename_i empty
    exact empty.symm
  · rename_i nonempty
    simp only [nonempty, ↓reduceIte] at done success
    split
    · rename_i ended
      simp only [ended, ↓reduceIte] at success
      cases success
    · rename_i unended
      simp only [unended] at done
      split
      · rename_i crowded
        simp only [crowded, ↓reduceIte, Bool.false_eq_true] at done
      · rfl

end Session

theorem IoOp.whole_perform {operation : IoOp} {size : Nat} (sized : operation.op.Sized size)
    (s : Session) (activity : List Callback) :
    (operation.perform s activity).operation.op.Sized size ∧
      ((operation.perform s activity).want = .nothing →
        IoOp.Whole size { (operation.perform s activity).operation with finished := true }) := by
  unfold IoOp.perform
  split
  · rename_i buffer isRead
    rw [isRead] at sized
    have length : (s.read buffer).buffer.length = size := (s.length_read buffer).trans sized
    refine ⟨length, fun nothing => ⟨length, fun _ success => ?_⟩⟩
    have done : (s.read buffer).done = true := by
      by_contra waits
      simp only [waits, ↓reduceIte] at nothing
      cases nothing
    exact (s.read_whole done success).trans sized
  · rename_i buffer isWrite
    refine ⟨sized, fun nothing => ⟨sized, fun _ success => ?_⟩⟩
    rw [isWrite] at sized
    have done : (s.write buffer).done = true := by
      by_contra waits
      simp only [waits, ↓reduceIte] at nothing
      cases nothing
    exact (s.write_whole done success).trans sized
  · rename_i isClose
    exact ⟨sized, fun _ => ⟨sized, fun other => absurd isClose other⟩⟩

namespace Service

/-- Every operation of the service has a buffer of `size` bytes, and those that are done have
transferred all of it or report an error. -/
structure Transfers (size : Nat) (service : Service) : Prop where
  waiting : ∀ operation ∈ service.session.operations, operation.op.Sized size
  posted : ∀ operation ∈ service.posted, operation.Whole size

/-- What a step does to the operations: `done` is the one whose completion handler it
calls. -/
structure Effect (size : Nat) (service : Service) (action : ServiceAction)
    (done : Option IoOp) : Prop where
  completed : (service.next action).completed = service.completed ++ done.toList
  balance : ∀ what, kinds (service.next action).outstanding what + kinds done.toList what =
    kinds service.outstanding what + beginning action what
  transfers : (service.next action).Transfers size
  whole : ∀ operation ∈ done, operation.Whole size
  begins : action.begins ≠ none → done = none

theorem kinds_nil (what : Want) : kinds [] what = 0 := rfl

theorem beginning_none {action : ServiceAction} (begins : action.begins = none) (what : Want) :
    beginning action what = 0 := by
  simp only [beginning, begins, Option.map_none, reduceCtorEq, ↓reduceIte]

variable {service : Service} {size : Nat}

theorem effect_called {action : ServiceAction} {operation : IoOp} {activity : List Callback}
    (called : service.called action = some (operation, activity))
    (transfers : service.Transfers size) (begins : ∀ op ∈ action.begins, op.Sized size) :
    ∃ done, service.Effect size action done := by
  obtain ⟨_, source⟩ := operations_found called
  have sameWant := want_performed operation (service.found action) activity
  have sized : operation.op.Sized size := by
    rcases source with ⟨taken, _⟩ | ⟨_, handler, rfl, _⟩
    · exact transfers.waiting operation (taken.mem_iff.mpr List.mem_cons_self)
    · exact begins operation.op rfl
  have others : ∀ other ∈ (service.found action).operations, other.op.Sized size := by
    intro other member
    rcases source with ⟨taken, _⟩ | ⟨same, _⟩
    · exact transfers.waiting other (taken.mem_iff.mpr (List.mem_cons_of_mem _ member))
    · rw [same] at member
      exact transfers.waiting other member
  have before : ∀ what, kinds (operation :: (service.found action).operations) what =
      kinds service.session.operations what + beginning action what := by
    intro what
    rcases source with ⟨taken, index, rfl⟩ | ⟨same, handler, rfl, _⟩
    · rw [kinds_perm taken, beginning_none rfl, Nat.add_zero]
    · rw [kinds_cons, same]
      simp only [beginning, ServiceAction.begins, Option.map_some, Option.some.injEq]
  obtain ⟨performed, whole⟩ := IoOp.whole_perform sized (service.found action) activity
  rcases next_called called with ⟨_, waiting, posted, completed⟩ | ⟨nothing, left,
    ⟨⟨index, rfl⟩, posted, completed⟩ | ⟨⟨handler, rfl⟩, posted, completed⟩⟩
  · refine ⟨none, by simpa using completed, ?_, ⟨?_, ?_⟩, ?_, fun _ => rfl⟩
    · intro what
      have same := before what
      rw [kinds_cons] at same
      simp only [outstanding, kinds_append, kinds_perm waiting, kinds_cons, sameWant, posted,
        Option.toList_none, kinds_nil]
      omega
    · intro other member
      rcases List.mem_cons.mp (waiting.mem_iff.mp member) with rfl | behind
      · exact performed
      · exact others other behind
    · rw [posted]
      exact transfers.posted
    · intro other member
      cases member
  · refine ⟨some _, completed, ?_, ⟨?_, ?_⟩, ?_, fun begun => absurd rfl begun⟩
    · intro what
      have same := before what
      rw [kinds_cons] at same
      simp only [outstanding, kinds_append, kinds_perm left, posted, Option.toList_some,
        kinds_cons, sameWant, kinds_nil]
      omega
    · exact fun other member => others other (left.mem_iff.mp member)
    · rw [posted]
      exact transfers.posted
    · intro other member
      cases member
      exact whole nothing
  · refine ⟨none, by simpa using completed, ?_, ⟨?_, ?_⟩, ?_, fun _ => rfl⟩
    · intro what
      have same := before what
      rw [kinds_cons] at same
      simp only [outstanding, kinds_append, kinds_perm left, posted, Option.toList_none,
        kinds_cons, sameWant, kinds_nil]
      omega
    · exact fun other member => others other (left.mem_iff.mp member)
    · rw [posted]
      intro other member
      rcases List.mem_append.mp member with old | new
      · exact transfers.posted other old
      · rw [List.mem_singleton.mp new]
        exact whole nothing
    · intro other member
      cases member

theorem effect (action : ServiceAction)
    (queued : ∀ operation ∈ service.session.operations, operation.finished = false)
    (finished : ∀ operation ∈ service.posted, operation.finished = true)
    (transfers : service.Transfers size) (begins : ∀ op ∈ action.begins, op.Sized size) :
    ∃ done, service.Effect size action done := by
  cases called : service.called action with
  | some call => exact effect_called called transfers begins
  | none =>
      rcases next_uncalled called queued finished with
        ⟨handler, op, rfl, waiting, posted, completed⟩ |
          ⟨index, operation, rfl, located, after⟩ | ⟨nothing, left, posted, completed⟩
      · refine ⟨none, by simpa using completed, ?_, ⟨?_, ?_⟩, ?_, fun _ => rfl⟩
        · intro what
          simp only [outstanding, kinds_append, kinds_perm waiting, kinds_cons, posted,
            Option.toList_none, kinds_nil, beginning, ServiceAction.begins, Option.map_some,
            Option.some.injEq]
          omega
        · intro other member
          rcases List.mem_cons.mp (waiting.mem_iff.mp member) with rfl | old
          · exact begins op rfl
          · exact transfers.waiting other old
        · rw [posted]
          exact transfers.posted
        · intro other member
          cases member
      · obtain ⟨inside, atIndex⟩ := List.getElem?_eq_some_iff.mp located
        have parts := List.getElem_cons_eraseIdx_perm inside
        rw [atIndex] at parts
        refine ⟨some operation, by rw [after]; rfl, ?_, ⟨?_, ?_⟩, ?_,
          fun begun => absurd rfl begun⟩
        · intro what
          have taken := kinds_perm parts what
          rw [kinds_cons] at taken
          rw [after, beginning_none rfl]
          simp only [outstanding, kinds_append, Option.toList_some, kinds_cons, kinds_nil]
          omega
        · rw [after]
          exact transfers.waiting
        · rw [after]
          exact fun other member => transfers.posted other (List.mem_of_mem_eraseIdx member)
        · intro other member
          cases member
          exact transfers.posted operation (List.mem_of_getElem? located)
      · have begun : ∀ what, beginning action what = 0 := by
          intro what
          cases action with
          | beginInside handler op activity => cases called
          | beginOutside handler op =>
              have waiting : (service.next (.beginOutside handler op)).session.operations.Perm
                  (service.opened handler op :: service.session.operations) :=
                (Queue.handlers_dispatch service.session.strand
                  (.ioOp (service.opened handler op))).filterMap Handler.asIoOp
              have longer := (left.symm.trans waiting).length_eq
              rw [List.length_cons] at longer
              omega
          | _ => exact beginning_none rfl what
        refine ⟨none, by simpa using completed, ?_, ⟨?_, ?_⟩, ?_, fun _ => rfl⟩
        · intro what
          simp only [outstanding, kinds_append, kinds_perm left, posted, Option.toList_none,
            kinds_nil, begun]
        · exact fun other member => transfers.waiting other (left.mem_iff.mp member)
        · rw [posted]
          exact transfers.posted
        · intro other member
          cases member

/-- The completion handlers of one kind are told of what the step has done. -/
theorem Effect.reported {action : ServiceAction} {done : Option IoOp}
    (effect : service.Effect size action done) (what : Want) :
    (service.next action).reported what = service.reported what ++
      done.toList.flatMap fun operation => if operation.op.want = what then operation.bytes
        else [] := by
  simp only [Service.reported, effect.completed, List.flatMap_append]

theorem Effect.completion {action : ServiceAction} {done : Option IoOp}
    (effect : service.Effect size action done) :
    service.completion (service.next action) = done := by
  rw [Service.completion, effect.completed]
  cases done with
  | none => simp
  | some operation => simp

end Service

/-- The bytes that an operation is to write. -/
def Operation.offer : Operation → List UInt8
  | .write buffer => buffer.bytes
  | _ => []

theorem Operation.begins_begin (op : Operation) (inside : Bool) (activity : List Callback) :
    (op.begin inside activity).begins = some op := by
  cases inside <;> rfl

theorem Operation.offers_begin (op : Operation) (inside : Bool) (activity : List Callback) :
    (op.begin inside activity).offers = op.offer := by
  cases inside <;> cases op <;> rfl

/-- What beginning operations changes. -/
structure Host.Began (host later : Host) (ops : List Operation) : Prop where
  transfers : later.service.Transfers 64
  outstanding : ∀ what, kinds later.service.outstanding what =
    kinds host.service.outstanding what + ops.countP fun op => op.want = what
  reported : ∀ what, later.service.reported what = host.service.reported what
  offered : later.offered = host.offered ++ ops.flatMap Operation.offer

theorem Host.Began.one {host later : Host} {op : Operation} (began : host.Began later [op])
    (what : Want) : kinds later.service.outstanding what =
      kinds host.service.outstanding what + if op.want = what then 1 else 0 := by
  have outstanding := began.outstanding what
  simp only [List.countP_cons, List.countP_nil, decide_eq_true_eq, Nat.zero_add] at outstanding
  exact outstanding

theorem Host.Began.offered_one {host later : Host} {op : Operation}
    (began : host.Began later [op]) : later.offered = host.offered ++ op.offer := by
  have offered := began.offered
  rw [List.flatMap_cons, List.flatMap_nil, List.append_nil] at offered
  exact offered

namespace HostInv

variable {host : Host}

theorem effect (inv : HostInv host) (transfers : host.service.Transfers 64)
    {action : ServiceAction} (begins : ∀ op ∈ action.begins, op.Sized 64) :
    ∃ done, host.service.Effect 64 action done :=
  Service.effect action inv.queued inv.posted transfers begins

theorem effect_unbegun (inv : HostInv host) (transfers : host.service.Transfers 64)
    {action : ServiceAction} (begins : action.begins = none) :
    ∃ done, host.service.Effect 64 action done := by
  apply inv.effect transfers
  intro op member
  rw [begins] at member
  cases member

theorem began (inv : HostInv host) (transfers : host.service.Transfers 64) {op : Operation}
    (sized : op.Sized 64) (inside : Bool) (activity : List Callback) :
    host.Began (host.next (op.begin inside activity)) [op] := by
  have begins := op.begins_begin inside activity
  have sizes : ∀ other ∈ (op.begin inside activity).begins, other.Sized 64 := by
    intro other member
    rw [begins] at member
    cases member
    exact sized
  obtain ⟨done, effect⟩ := inv.effect transfers sizes
  have none_ : done = none := effect.begins (by rw [begins]; simp)
  have beginning : ∀ what, Service.beginning (op.begin inside activity) what =
      if op.want = what then 1 else 0 := by
    intro what
    simp only [Service.beginning, begins, Option.map_some, Option.some.injEq]
  refine ⟨effect.transfers, ?_, ?_, ?_⟩
  · intro what
    have balance := effect.balance what
    rw [none_, Option.toList_none, Service.kinds_nil, beginning] at balance
    simp only [List.countP_cons, List.countP_nil, decide_eq_true_eq]
    rw [Host.service_next]
    omega
  · intro what
    have same := effect.reported what
    rw [none_, Option.toList_none, List.flatMap_nil, List.append_nil] at same
    exact same
  · simp only [Host.next, Operation.offers_begin, List.flatMap_cons, List.flatMap_nil,
      List.append_nil]

end HostInv

theorem Hosts.host_next (hosts : Hosts) (side : Side) (action : ServiceAction) :
    (hosts.next (side, action)).host side = (hosts.host side).next action := by
  cases side <;> rfl

theorem Hosts.host_next_other (hosts : Hosts) (side : Side) (action : ServiceAction) :
    (hosts.next (side, action)).host side.other = hosts.host side.other := by
  cases side <;> rfl

/-- Operations of kinds that are not outstanding may be begun one after the other. -/
theorem Hosts.begins {hosts : Hosts} {side : Side} {inside : Bool} {activity : List Callback}
    {ops : List Operation} (inv : ∀ side, HostInv (hosts.host side))
    (transfers : (hosts.host side).service.Transfers 64) (sized : ∀ op ∈ ops, op.Sized 64)
    (unused : ∀ op ∈ ops, op ≠ .close → kinds (hosts.host side).service.outstanding op.want = 0)
    (apart : ops.Pairwise fun first second => first.want ≠ second.want)
    (environment : AllMet next Environment hosts
      (ops.map fun op => (side, op.begin inside activity))) :
    let later := (ops.map fun op => (side, op.begin inside activity)).foldl next hosts
    AllMet next Allowed hosts (ops.map fun op => (side, op.begin inside activity)) ∧
      later.host side.other = hosts.host side.other ∧
      (hosts.host side).Began (later.host side) ops := by
  induction ops generalizing hosts with
  | nil =>
      refine ⟨trivial, rfl, transfers, ?_, fun _ => rfl, ?_⟩
      · exact fun what => rfl
      · exact (List.append_nil _).symm
  | cons op rest ih =>
      obtain ⟨here, more⟩ := environment
      have lone : (hosts.host side).Lone (op.begin inside activity) := by
        intro other member
        rw [op.begins_begin] at member
        cases member
        by_cases isClose : op = .close
        · exact Or.inl isClose
        · exact Or.inr (kinds_eq_zero.mp (unused op List.mem_cons_self isClose))
      have allowed : hosts.Allowed (side, op.begin inside activity) := ⟨here, lone⟩
      have other := hosts.host_next_other side (op.begin inside activity)
      have this_ := hosts.host_next side (op.begin inside activity)
      have first := (inv side).began transfers (sized op List.mem_cons_self) inside activity
      rw [← this_] at first
      obtain ⟨separate, apart⟩ := List.pairwise_cons.mp apart
      have after := ih ?_ first.transfers
        (fun op member => sized op (List.mem_cons_of_mem _ member)) ?_ apart more
      · obtain ⟨met, frame, began⟩ := after
        refine ⟨⟨allowed, met⟩, frame.trans other, began.transfers, ?_, ?_, ?_⟩
        · intro what
          have one := first.outstanding what
          have others := began.outstanding what
          simp only [List.countP_cons, List.countP_nil] at one ⊢
          rw [List.map_cons, List.foldl_cons]
          omega
        · exact fun what => (began.reported what).trans (first.reported what)
        · have all := began.offered
          rw [first.offered] at all
          simpa [List.append_assoc] using all
      · intro some_
        by_cases same : some_ = side
        · rw [same, this_]
          exact (inv side).next allowed
        · have isOther : some_ = side.other := by
            cases some_ <;> cases side <;> first | rfl | exact absurd rfl same
          rw [isOther, other]
          exact inv _
      · intro later member notClose
        have none_ := unused later (List.mem_cons_of_mem _ member) notClose
        have one := first.outstanding later.want
        have different := separate later member
        simp only [List.countP_cons, List.countP_nil, different, decide_false,
          Bool.false_eq_true, ↓reduceIte] at one
        omega

theorem ServiceAction.offers_none {action : ServiceAction} (begins : action.begins = none) :
    action.offers = [] := by
  cases action with
  | beginOutside handler op => cases begins
  | beginInside handler op activity => cases begins
  | _ => rfl

theorem Host.offered_next {action : ServiceAction} (host : Host) (begins : action.begins = none) :
    (host.next action).offered = host.offered := by
  simp only [Host.next, ServiceAction.offers_none begins, List.append_nil]

namespace Buffer

theorem skip_zero (buffer : Buffer) : buffer.skip 0 = buffer := rfl

theorem upTo_length (buffer : Buffer) : (buffer.upTo buffer.length).bytes = buffer.bytes :=
  List.take_length

/-- What was read into the buffer is in it. -/
theorem overwrite_whole {space buffer : Buffer} (length : buffer.length = space.length) :
    (space.overwrite 0 buffer.bytes).bytes = buffer.bytes := by
  have fits : 0 + buffer.bytes.length ≤ space.bytes.length := by
    rw [Nat.zero_add]
    exact Nat.le_of_eq length
  have written := Ring.take_overwrite space.bytes buffer.bytes 0 fits
  rw [List.take_zero, List.nil_append, List.take_of_length_le] at written
  · exact written
  · rw [Ring.length_overwrite, Nat.zero_add]
    exact Nat.le_of_eq length.symm

end Buffer

theorem IoOp.bytes_whole {operation : IoOp} {buffer : Buffer} (isRead : operation.op = .read buffer)
    (whole : operation.Whole 64) (success : operation.ec = .success) :
    operation.bytes = buffer.bytes := by
  have transferred := whole.transferred (by simp [isRead]) success
  have length : buffer.length = 64 := by
    have sized := whole.sized
    rw [isRead] at sized
    exact sized
  simp only [IoOp.bytes, isRead, transferred]
  exact List.take_of_length_le (Nat.le_of_eq length)

/-- An operation that has transferred its whole buffer ends the transfer. -/
theorem IoOp.ends_whole {operation : IoOp} (whole : operation.Whole 64)
    (transfers : operation.op ≠ .close) : operation.endsTransfer 64 0 = true := by
  by_cases success : operation.ec = .success
  · simp [endsTransfer, whole.transferred transfers success]
  · simp [endsTransfer, success]

/-- The operations may be begun, one after the other, and then `goal` holds. -/
structure Host.Continues (host : Host) (ops : List Operation) (goal : Host → Prop) : Prop where
  sized : ∀ op ∈ ops, op.Sized 64
  unused : ∀ op ∈ ops, op ≠ .close → kinds host.service.outstanding op.want = 0
  apart : ops.Pairwise fun first second => first.want ≠ second.want
  after : ∀ last, host.Began last ops → goal last

namespace Host.Continues

variable {host : Host} {goal : Host → Prop}

theorem one {op : Operation} (sized : op.Sized 64)
    (unused : op ≠ .close → kinds host.service.outstanding op.want = 0)
    (after : ∀ last, host.Began last [op] → goal last) : host.Continues [op] goal where
  sized := by
    intro other member
    rw [List.mem_singleton.mp member]
    exact sized
  unused := by
    intro other member
    rw [List.mem_singleton.mp member]
    exact unused
  apart := List.pairwise_singleton _ _
  after := after

theorem none (after : ∀ last : Host, last.service.Transfers 64 →
      (∀ what, kinds last.service.outstanding what = kinds host.service.outstanding what) →
      (∀ what, last.service.reported what = host.service.reported what) →
      last.offered = host.offered → goal last) : host.Continues [] goal where
  sized := by
    intro op member
    cases member
  unused := by
    intro op member
    cases member
  apart := List.Pairwise.nil
  after := by
    intro last began
    have offered := began.offered
    rw [List.flatMap_nil, List.append_nil] at offered
    exact after last began.transfers began.outstanding began.reported offered

end Host.Continues

end CurvecprAsio
