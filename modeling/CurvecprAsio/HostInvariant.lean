import CurvecprAsio.Host

set_option autoImplicit false

/- Two io_services that talk: what the completion handlers of reads are given on one side
is what the user of the other side has written. -/
namespace CurvecprAsio

open Strand Transition SearchTree

/-- The bytes that an operation has transferred, as its completion handler is told. -/
def IoOp.bytes (operation : IoOp) : List UInt8 :=
  match operation.op with
  | .read buffer => buffer.bytes.take operation.bytesTransferred
  | .write buffer => buffer.bytes.take operation.bytesTransferred
  | .close => []

/-- The bytes that the completion handlers of operations of one kind were told of, in the
order of their calls. -/
def Service.reported (service : Service) (what : Want) : List UInt8 :=
  service.completed.flatMap fun operation =>
    if operation.op.want = what then operation.bytes else []

/-- The operations that are done; some of their completion handlers are still to be called. -/
def Service.settled (service : Service) : List IoOp := service.posted ++ service.completed

theorem Service.reported_snoc {service later : Service} {operation : IoOp}
    (completed : later.completed = service.completed ++ [operation]) (what : Want) :
    later.reported what =
      service.reported what ++ if operation.op.want = what then operation.bytes else [] := by
  simp only [reported, completed, List.flatMap_append, List.flatMap_cons, List.flatMap_nil,
    List.append_nil]

theorem Session.write_outcomes (s : Session) (buffer : Buffer) :
    (s.write buffer).done = false ∧ (s.write buffer).bytesTransferred = 0 ∨
      (s.write buffer).done = true ∧ (s.write buffer).bytesTransferred = 0 ∧
        (buffer.bytes = [] ∨ s.pendingEof = true) ∨
      (s.write buffer).done = true ∧ (s.write buffer).bytesTransferred = buffer.length ∧
        0 < buffer.length ∧ s.pendingEof = false := by
  unfold Session.write
  split
  · rename_i empty
    exact Or.inr (Or.inl ⟨rfl, rfl, Or.inl (List.eq_nil_of_length_eq_zero empty)⟩)
  · rename_i nonempty
    split
    · rename_i ended
      exact Or.inr (Or.inl ⟨rfl, rfl, Or.inr ended⟩)
    · rename_i open_
      split
      · exact Or.inl ⟨rfl, rfl⟩
      · exact Or.inr (Or.inr ⟨rfl, rfl, Nat.pos_of_ne_zero nonempty, Bool.not_eq_true _ ▸ open_⟩)

/-- How many operations of one kind a list holds. -/
def kinds (operations : List IoOp) (what : Want) : Nat :=
  operations.countP fun operation => operation.op.want = what

theorem kinds_perm {first second : List IoOp} (same : first.Perm second) (what : Want) :
    kinds first what = kinds second what := same.countP_eq _

theorem kinds_cons (operation : IoOp) (rest : List IoOp) (what : Want) :
    kinds (operation :: rest) what =
      kinds rest what + if operation.op.want = what then 1 else 0 := by
  simp only [kinds, List.countP_cons, decide_eq_true_eq]

theorem kinds_append (first second : List IoOp) (what : Want) :
    kinds (first ++ second) what = kinds first what + kinds second what :=
  List.countP_append

theorem kinds_eq_zero {operations : List IoOp} {what : Want} :
    kinds operations what = 0 ↔ ∀ operation ∈ operations, operation.op.want ≠ what := by
  simp only [kinds, List.countP_eq_zero, decide_eq_true_eq, ne_eq]

theorem kinds_single {operations rest : List IoOp} {operation other : IoOp}
    (found : operations.Perm (operation :: rest)) (lone : kinds operations operation.op.want ≤ 1)
    (member : other ∈ operations) (same : other.op.want = operation.op.want) :
    other = operation := by
  rw [kinds_perm found, kinds_cons, if_pos rfl] at lone
  have none_ : kinds rest operation.op.want = 0 := by omega
  rcases List.mem_cons.mp (found.mem_iff.mp member) with isIt | behind
  · exact isIt
  · exact absurd same (kinds_eq_zero.mp none_ other behind)

namespace Service

/-- The operations a step begins. -/
def beginning (action : ServiceAction) (what : Want) : Nat :=
  if action.begins.map Operation.want = some what then 1 else 0

/-- A step adds at most the operation that it begins to those that are outstanding. -/
theorem kinds_next {service : Service} (action : ServiceAction)
    (queued : ∀ operation ∈ service.session.operations, operation.finished = false)
    (posted : ∀ operation ∈ service.posted, operation.finished = true) (what : Want) :
    kinds (service.next action).outstanding what ≤
      kinds service.outstanding what + beginning action what := by
  simp only [outstanding, kinds_append]
  cases called : service.called action with
  | some call =>
      obtain ⟨operation, activity⟩ := call
      obtain ⟨_, source⟩ := operations_found called
      have same := operation.ticket_perform (service.found action) activity
      have sameWant : (operation.perform (service.found action) activity).operation.op.want =
          operation.op.want := congrArg Prod.snd same
      have before : kinds (operation :: (service.found action).operations) what ≤
          kinds service.session.operations what + beginning action what := by
        rcases source with ⟨taken, _⟩ | ⟨same, handler, rfl, _⟩
        · rw [kinds_perm taken]
          exact Nat.le_add_right _ _
        · rw [kinds_cons, same]
          simp only [beginning, ServiceAction.begins, Option.map_some, Option.some.injEq]
          exact Nat.le_refl _
      rw [kinds_cons] at before
      rcases next_called called with ⟨_, waiting, posted, _⟩ | ⟨_, left, ⟨_, posted, _⟩ |
        ⟨_, posted, _⟩⟩
      · rw [kinds_perm waiting, posted, kinds_cons, sameWant]
        omega
      · rw [kinds_perm left, posted]
        omega
      · rw [kinds_perm left, posted, kinds_append, kinds_cons, sameWant]
        simp only [kinds, List.countP_nil] at before ⊢
        omega
  | none =>
      rcases next_uncalled called queued posted with
        ⟨handler, op, rfl, waiting, posted, _⟩ | ⟨index, operation, rfl, located, after⟩ |
          ⟨_, left, posted, _⟩
      · rw [kinds_perm waiting, posted, kinds_cons]
        simp only [beginning, ServiceAction.begins, Option.map_some, Option.some.injEq]
        omega
      · have fewer : kinds (service.posted.eraseIdx index) what ≤ kinds service.posted what :=
          (List.eraseIdx_sublist service.posted index).countP_le
        rw [after]
        exact Nat.le_trans (Nat.add_le_add_left fewer _) (Nat.le_add_right _ _)
      · rw [kinds_perm left, posted]
        omega

theorem finished_next {service : Service} (action : ServiceAction)
    (queued : ∀ operation ∈ service.session.operations, operation.finished = false)
    (posted : ∀ operation ∈ service.posted, operation.finished = true) :
    (∀ operation ∈ (service.next action).session.operations, operation.finished = false) ∧
      ∀ operation ∈ (service.next action).posted, operation.finished = true := by
  cases called : service.called action with
  | some call =>
      obtain ⟨operation, activity⟩ := call
      obtain ⟨unfinished, source⟩ := operations_found called
      have before : ∀ other ∈ (service.found action).operations, other.finished = false := by
        intro other member
        rcases source with ⟨taken, _⟩ | ⟨same, _⟩
        · exact queued other (taken.mem_iff.mpr (List.mem_cons_of_mem _ member))
        · rw [same] at member
          exact queued other member
      have same : (operation.perform (service.found action) activity).operation.finished =
          operation.finished := by
        unfold IoOp.perform
        split <;> rfl
      rcases next_called called with ⟨_, waiting, postedSame, _⟩ | ⟨_, left, ⟨_, postedSame, _⟩ |
        ⟨_, postedSame, _⟩⟩
      · refine ⟨fun other member => ?_, postedSame ▸ posted⟩
        rcases List.mem_cons.mp (waiting.mem_iff.mp member) with rfl | behind
        · exact same.trans unfinished
        · exact before other behind
      · exact ⟨fun other member => before other (left.mem_iff.mp member), postedSame ▸ posted⟩
      · refine ⟨fun other member => before other (left.mem_iff.mp member), ?_⟩
        rw [postedSame]
        intro other member
        rcases List.mem_append.mp member with old | new
        · exact posted other old
        · rw [List.mem_singleton.mp new]
  | none =>
      rcases next_uncalled called queued posted with
        ⟨handler, op, rfl, waiting, postedSame, _⟩ | ⟨index, operation, rfl, located, after⟩ |
          ⟨_, left, postedSame, _⟩
      · refine ⟨fun other member => ?_, postedSame ▸ posted⟩
        rcases List.mem_cons.mp (waiting.mem_iff.mp member) with rfl | behind
        · rfl
        · exact queued other behind
      · rw [after]
        exact ⟨queued, fun other member => posted other (List.mem_of_mem_eraseIdx member)⟩
      · exact ⟨fun other member => queued other (left.mem_iff.mp member), postedSame ▸ posted⟩

theorem want_performed (operation : IoOp) (s : Session) (activity : List Callback) :
    (operation.perform s activity).operation.op.want = operation.op.want :=
  congrArg Prod.snd (operation.ticket_perform s activity)

/-- What a step does not change of the operations of one kind. -/
structure Keeps (service later : Service) (what : Want) : Prop where
  operations : ∀ operation, operation.op.want = what →
    (operation ∈ later.session.operations ↔ operation ∈ service.session.operations)
  posted : ∀ operation, operation.op.want = what →
    (operation ∈ later.posted ↔ operation ∈ service.posted)
  settled : ∀ operation, operation.op.want = what →
    (operation ∈ later.settled ↔ operation ∈ service.settled)
  reported : later.reported what = service.reported what

/-- An operation of another kind leaves the reads, or the writes, as they are. -/
theorem kept {service : Service} {action : ServiceAction} {operation : IoOp}
    {activity : List Callback} (called : service.called action = some (operation, activity))
    {what : Want} (other : operation.op.want ≠ what) :
    Keeps service (service.next action) what := by
  obtain ⟨_, source⟩ := operations_found called
  have sameWant := want_performed operation (service.found action) activity
  have before : ∀ held, held.op.want = what → (held ∈ (service.found action).operations ↔
      held ∈ service.session.operations) := by
    intro held isKind
    rcases source with ⟨taken, _⟩ | ⟨same, _⟩
    · rw [taken.mem_iff, List.mem_cons]
      refine ⟨Or.inr, fun either => either.resolve_left ?_⟩
      rintro rfl
      exact other isKind
    · rw [same]
  have different : ∀ held, held.op.want = what → ∀ rest : List IoOp,
      (held ∈ rest ++ [{ (operation.perform (service.found action) activity).operation with
        finished := true }] ↔ held ∈ rest) := by
    intro held isKind rest
    rw [List.mem_append, List.mem_singleton]
    refine ⟨fun either => either.resolve_right ?_, Or.inl⟩
    rintro rfl
    exact other (sameWant ▸ isKind)
  rcases next_called called with ⟨_, waiting, posted, completed⟩ | ⟨_, left,
    ⟨_, posted, completed⟩ | ⟨_, posted, completed⟩⟩
  · refine ⟨fun held isKind => ?_, fun held _ => by rw [posted],
      fun held _ => by rw [settled, settled, posted, completed], by rw [reported, completed, reported]⟩
    rw [waiting.mem_iff, List.mem_cons, ← before held isKind]
    refine ⟨fun either => either.resolve_left ?_, Or.inr⟩
    rintro rfl
    exact other (sameWant ▸ isKind)
  · refine ⟨fun held isKind => left.mem_iff.trans (before held isKind), fun held _ => by rw [posted],
      fun held isKind => ?_, ?_⟩
    · rw [settled, settled, posted, completed, ← List.append_assoc]
      exact different held isKind _
    · rw [reported_snoc completed, sameWant, if_neg other, List.append_nil]
  · refine ⟨fun held isKind => left.mem_iff.trans (before held isKind), fun held isKind => ?_,
      fun held isKind => ?_, by rw [reported, completed, reported]⟩
    · rw [posted]
      exact different held isKind _
    · rw [settled, posted, completed, List.mem_append, different held isKind]
      exact List.mem_append.symm

end Service

theorem Party.shut_foldl (party : Party) (actions : List PartyAction) (shut : party.shut = true) :
    (actions.foldl Party.next party).shut = true := by
  induction actions generalizing party with
  | nil => exact shut
  | cons action rest ih => exact ih _ (party.shut_next action shut)

/-- A local close, the peer's end, or `do_close`: reads may report the end. -/
def Party.ending (party : Party) : Bool :=
  party.heard || party.session.pendingClose || party.finished

theorem Party.ending_next (party : Party) (action : PartyAction) (ending : party.ending = true) :
    (party.next action).ending = true := by
  simp only [Party.ending, Bool.or_eq_true] at ending ⊢
  cases action with
  | callback callback =>
      have spared := party.session.spared_callback callback
      rw [show (party.next (.callback callback)).session = party.session.callback callback from
        party.session_callback callback, spared.pendingClose]
      cases callback <;> exact ending
  | read buffer =>
      obtain ⟨_, _, _, _, _, changed⟩ := party.session.read_changes buffer
      rcases ending with (heard | closing) | finished
      · exact Or.inl (Or.inl (by simp only [Party.next, Party.read, heard, Bool.true_or]))
      · refine Or.inl (Or.inr ?_)
        simp only [Party.next, Party.read, Reader.read, Party.reader, changed, closing]
      · exact Or.inr finished
  | write buffer =>
      obtain ⟨_, _, _, _, changed⟩ := party.session.write_changes buffer
      rcases ending with (heard | closing) | finished
      · exact Or.inl (Or.inl heard)
      · refine Or.inl (Or.inr ?_)
        simp only [Party.next, Party.write, Sender.write, Party.sender, changed, closing]
      · exact Or.inr finished
  | closing => exact Or.inl (Or.inr rfl)
  | doClose => exact Or.inr rfl
  | runs => exact ending
  | strand queue calls => exact ending

/-- Only behind a close or the peer's end does a read report the end. -/
theorem Party.ending_read (party : Party) {buffer : Buffer}
    (eof : (party.session.read buffer).ec = .eof) : (party.read buffer).ending = true := by
  cases closing : party.session.pendingClose with
  | true =>
      apply party.ending_next (.read buffer)
      simp only [Party.ending, closing, Bool.or_true, Bool.true_or]
  | false =>
      simp only [Party.ending, Party.read, eof, closing, decide_true, Bool.not_false, Bool.and_self,
        Bool.or_true, Bool.true_or]

theorem Party.ending_foldl (party : Party) (actions : List PartyAction) (ending : party.ending = true) :
    (actions.foldl Party.next party).ending = true := by
  induction actions generalizing party with
  | nil => exact ending
  | cons action rest ih => exact ih _ (party.ending_next action ending)

/-- The completion handlers of one kind were told of these bytes, but for the operation
that is done and posted. -/
structure Reports (service : Service) (what : Want) (bytes : List UInt8) : Prop where
  posted : ∀ operation ∈ service.posted, operation.op.want = what →
    service.reported what ++ operation.bytes = bytes
  given : (∀ operation ∈ service.posted, operation.op.want ≠ what) →
    service.reported what = bytes

/-- The reads of a user who has one outstanding at most: the one that waits holds the
buffer, and only behind the end do they report it. -/
structure Reads (service : Service) (party : Party) : Prop where
  reports : Reports service .read party.delivered
  held : ∀ held, party.outstanding = some held →
    ∃ operation ∈ service.session.operations, operation.op = .read held
  ended : ∀ operation ∈ service.settled, operation.op.want = .read →
    operation.ec = .eof → party.ending = true

/-- What such a user has written has been accepted, but for the write that waits and for
what is written after the end of the stream. -/
structure Writes (service : Service) (party : Party) (offered : List UInt8) : Prop where
  reports : Reports service .write party.accepted
  accepted : party.accepted <+: offered
  waiting : party.shut = false → ∀ operation ∈ service.session.operations, ∀ buffer,
    operation.op = .write buffer → offered = party.accepted ++ buffer.bytes
  idle : party.shut = false →
    (∀ operation ∈ service.session.operations, operation.op.want ≠ .write) →
      offered = party.accepted

structure HostInv (host : Host) : Prop where
  session : host.party.session = host.service.session
  queued : ∀ operation ∈ host.service.session.operations, operation.finished = false
  posted : ∀ operation ∈ host.service.posted, operation.finished = true
  lone : ∀ what, what ≠ .close → kinds host.service.outstanding what ≤ 1
  reads : Reads host.service host.party
  writes : Writes host.service host.party host.offered

namespace Reports

variable {service later : Service} {what : Want} {bytes : List UInt8}

theorem frame (reports : Reports service what bytes) (keeps : Service.Keeps service later what) :
    Reports later what bytes where
  posted := by
    intro operation member isKind
    rw [keeps.reported]
    exact reports.posted operation ((keeps.posted operation isKind).mp member) isKind
  given := by
    intro none_
    rw [keeps.reported]
    exact reports.given fun operation member isKind =>
      none_ operation ((keeps.posted operation isKind).mpr member) isKind

/-- The only operation of the kind is called: what it has transferred when it is done comes
behind what was reported. -/
theorem called (reports : Reports service what bytes) {action : ServiceAction}
    {operation : IoOp} {activity : List Callback}
    (isCalled : service.called action = some (operation, activity))
    (isKind : operation.op.want = what)
    (unposted : ∀ other ∈ service.posted, other.op.want ≠ what) :
    let result := operation.perform (service.found action) activity
    Reports (service.next action) what
      (bytes ++ if result.want = .nothing then result.operation.bytes else []) := by
  intro result
  have sameWant : result.operation.op.want = what :=
    (Service.want_performed operation (service.found action) activity).trans isKind
  have given := reports.given unposted
  rcases Service.next_called isCalled with ⟨waits, _, posted, completed⟩ | ⟨done, _,
    ⟨_, posted, completed⟩ | ⟨_, posted, completed⟩⟩
  · have same : (service.next action).reported what = service.reported what := by
      rw [Service.reported, completed, Service.reported]
    rw [if_neg waits, List.append_nil]
    refine ⟨?_, fun _ => same.trans given⟩
    rw [posted]
    exact fun other member isOther => absurd isOther (unposted other member)
  · have more := Service.reported_snoc completed what
    rw [if_pos sameWant, given] at more
    rw [if_pos done]
    refine ⟨?_, fun _ => more⟩
    rw [posted]
    exact fun other member isOther => absurd isOther (unposted other member)
  · have same : (service.next action).reported what = service.reported what := by
      rw [Service.reported, completed, Service.reported]
    rw [if_pos done]
    refine ⟨?_, ?_⟩
    · rw [posted, same, given]
      intro other member isOther
      rcases List.mem_append.mp member with old | new
      · exact absurd isOther (unposted other old)
      · rw [List.mem_singleton.mp new]
        rfl
    · rw [posted]
      intro none_
      exact absurd sameWant (none_ { result.operation with finished := true }
        (List.mem_append_right _ (List.mem_singleton_self _)))

theorem handled (reports : Reports service what bytes) {rest : List IoOp} {operation : IoOp}
    (taken : service.posted.Perm (operation :: rest)) (single : kinds service.posted what ≤ 1)
    (isKind : operation.op.want = what) (posted : later.posted = rest)
    (completed : later.completed = service.completed ++ [operation]) :
    Reports later what bytes := by
  have none_ : ∀ other ∈ later.posted, other.op.want ≠ what := by
    rw [kinds_perm taken, kinds_cons, if_pos isKind] at single
    rw [posted]
    exact kinds_eq_zero.mp (by omega)
  have more := Service.reported_snoc completed what
  rw [if_pos isKind, reports.posted operation (taken.mem_iff.mpr List.mem_cons_self) isKind] at more
  exact ⟨fun other member isOther => absurd isOther (none_ other member), fun _ => more⟩

end Reports

theorem Reads.frame {service later : Service} {party after : Party} (reads : Reads service party)
    (keeps : Service.Keeps service later .read)
    (same : after.delivered = party.delivered ∧ after.outstanding = party.outstanding)
    (ending : party.ending = true → after.ending = true) : Reads later after where
  reports := by
    rw [same.1]
    exact reads.reports.frame keeps
  held := by
    intro held outstanding
    rw [same.2] at outstanding
    obtain ⟨operation, member, isRead⟩ := reads.held held outstanding
    exact ⟨operation, (keeps.operations operation (by rw [isRead]; rfl)).mpr member, isRead⟩
  ended := fun operation member isRead eof =>
    ending (reads.ended operation ((keeps.settled operation isRead).mp member) isRead eof)

theorem Writes.frame {service later : Service} {party after : Party} {offered : List UInt8}
    (writes : Writes service party offered) (keeps : Service.Keeps service later .write)
    (same : after.accepted = party.accepted) (shut : party.shut = true → after.shut = true) :
    Writes later after offered := by
  have unshut : after.shut = false → party.shut = false := by
    intro open_
    cases before : party.shut with
    | false => rfl
    | true => rw [shut before] at open_; cases open_
  constructor
  · rw [same]
    exact writes.reports.frame keeps
  · rw [same]
    exact writes.accepted
  · intro open_ operation member buffer isWrite
    have write : operation.op.want = .write := by rw [isWrite]; rfl
    rw [same]
    exact writes.waiting (unshut open_) operation ((keeps.operations operation write).mp member)
      buffer isWrite
  · intro open_ none_
    rw [same]
    exact writes.idle (unshut open_) fun operation member write =>
      none_ operation ((keeps.operations operation write).mpr member) write

namespace HostInv

variable {host : Host}

theorem party_read (inv : HostInv host) {action : ServiceAction} {operation : IoOp}
    {activity : List Callback} {buffer : Buffer}
    (called : host.service.called action = some (operation, activity))
    (isRead : operation.op = .read buffer) :
    let result := (host.service.found action).read buffer
    let after := (host.next action).party
    after.delivered = (if result.done then
        host.party.delivered ++ result.buffer.bytes.take result.bytesTransferred
      else host.party.delivered) ∧
      after.outstanding = (if result.done then none else some result.buffer) ∧
      after.accepted = host.party.accepted ∧ (result.ec = .eof → after.ending = true) := by
  intro result after
  have found := Service.session_found action inv.session
  have stepped : after = ((host.party.next (host.service.found action).sync).read buffer).next
      (host.service.next action).session.sync := by
    simp only [after, Host.next, Service.steps_transfer called (by rw [isRead]; simp),
      IoOp.pieces, isRead]
    rfl
  have read : (host.party.next (host.service.found action).sync).session.read buffer = result := by
    rw [found]
  rw [stepped]
  rw [← read]
  exact ⟨rfl, rfl, rfl, fun eof => Party.ending_next _ _ (Party.ending_read _ eof)⟩

theorem party_write (inv : HostInv host) {action : ServiceAction} {operation : IoOp}
    {activity : List Callback} {buffer : Buffer}
    (called : host.service.called action = some (operation, activity))
    (isWrite : operation.op = .write buffer) :
    let result := (host.service.found action).write buffer
    let after := (host.next action).party
    after.delivered = host.party.delivered ∧ after.outstanding = host.party.outstanding ∧
      after.accepted = (if 0 < result.bytesTransferred then host.party.accepted ++ buffer.bytes
        else host.party.accepted) ∧ after.shut = host.party.shut := by
  intro result after
  have found := Service.session_found action inv.session
  have stepped : after = ((host.party.next (host.service.found action).sync).write buffer).next
      (host.service.next action).session.sync := by
    simp only [after, Host.next, Service.steps_transfer called (by rw [isWrite]; simp),
      IoOp.pieces, isWrite]
    rfl
  have write : (host.party.next (host.service.found action).sync).session.write buffer =
      result := by
    rw [found]
  rw [stepped]
  rw [← write]
  refine ⟨rfl, rfl, rfl, congrArg (host.party.finished || ·) ?_⟩
  exact Session.pendingEof_of_receiveState
    ((host.party.next (host.service.found action).sync).session.receiveState_write buffer)

theorem party_other (host : Host) (action : ServiceAction)
    (other : ∀ operation activity, host.service.called action = some (operation, activity) →
      operation.op = .close) :
    (host.next action).party.delivered = host.party.delivered ∧
      (host.next action).party.outstanding = host.party.outstanding ∧
      (host.next action).party.accepted = host.party.accepted := by
  have same : (host.next action).party.transferred = host.party.transferred :=
    host.party.transferred_foldl (Service.transfers_steps other)
  simp only [Party.transferred, Prod.mk.injEq] at same
  exact ⟨same.2.1, same.2.2.1, same.1⟩

/-- A read or a write that is called is the only one of its kind. -/
theorem alone (inv : HostInv host) {action : ServiceAction} {operation : IoOp}
    {activity : List Callback} (called : host.service.called action = some (operation, activity))
    (transfers : operation.op.want ≠ .close) (lone : host.Lone action) :
    ∀ other ∈ (host.service.found action).operations ++ host.service.posted,
      other.op.want ≠ operation.op.want := by
  obtain ⟨_, ⟨taken, _⟩ | ⟨same, handler, rfl, _⟩⟩ := Service.operations_found called
  · have single := inv.lone operation.op.want transfers
    rw [Service.outstanding, kinds_append, kinds_perm taken, kinds_cons, if_pos rfl] at single
    apply kinds_eq_zero.mp
    rw [kinds_append]
    omega
  · rcases lone _ rfl with closes | unused
    · rw [closes] at transfers
      exact absurd rfl transfers
    · rw [same]
      exact unused

theorem retries (inv : HostInv host) {action : ServiceAction} {operation : IoOp}
    {activity : List Callback} {buffer : Buffer}
    (called : host.service.called action = some (operation, activity))
    (isRead : operation.op = .read buffer) (lone : host.Lone action) :
    ∀ held ∈ host.party.outstanding, buffer = held := by
  intro held outstanding
  obtain ⟨other, member, isOther⟩ := inv.reads.held held outstanding
  have single := inv.lone .read (by decide)
  rw [Service.outstanding, kinds_append] at single
  obtain ⟨_, ⟨taken, _⟩ | ⟨_, handler, rfl, _⟩⟩ := Service.operations_found called
  · have isWant : operation.op.want = .read := by rw [isRead]; rfl
    have same := kinds_single taken (by rw [isWant]; omega) member (by rw [isWant, isOther]; rfl)
    rw [same, isRead] at isOther
    exact Operation.read.inj isOther
  · rcases lone _ rfl with closes | unused
    · rw [isRead] at closes
      cases closes
    · refine absurd ?_ (unused other (List.mem_append_left _ member))
      rw [isRead, isOther]
      rfl

theorem reads_called (inv : HostInv host) {action : ServiceAction} {operation : IoOp}
    {activity : List Callback} {buffer : Buffer}
    (called : host.service.called action = some (operation, activity))
    (isRead : operation.op = .read buffer) (lone : host.Lone action) :
    Reads (host.service.next action) (host.next action).party := by
  obtain ⟨delivered, outstanding, _, ends⟩ := inv.party_read called isRead
  have isWant : operation.op.want = .read := by rw [isRead]; rfl
  have unposted : ∀ other ∈ host.service.posted, other.op.want ≠ .read := by
    intro other member
    rw [← isWant]
    exact inv.alone called (by rw [isWant]; decide) lone other (List.mem_append_right _ member)
  have reports := inv.reads.reports.called called isWant unposted
  have performed : operation.perform (host.service.found action) activity =
      let result := (host.service.found action).read buffer
      { session := result.session
        operation := { operation with
          op := .read result.buffer, ec := result.ec, bytesTransferred := result.bytesTransferred }
        want := if result.done then .nothing else .read } := by
    simp only [IoOp.perform, isRead]
  have after := Service.next_called called
  simp only [performed] at after reports
  have ending := host.party.ending_foldl (host.service.steps action)
  cases done : ((host.service.found action).read buffer).done with
  | false =>
      simp only [done, Bool.false_eq_true, ↓reduceIte, reduceCtorEq, ne_eq, not_false_eq_true,
        true_and, false_and, or_false, List.append_nil] at after delivered outstanding reports
      obtain ⟨waiting, posted, completed⟩ := after
      refine ⟨delivered ▸ reports, ?_, ?_⟩
      · intro held isHeld
        rw [outstanding] at isHeld
        cases isHeld
        exact ⟨_, waiting.mem_iff.mpr List.mem_cons_self, rfl⟩
      · intro other member isOther eof
        rw [Service.settled, posted, completed] at member
        exact ending (inv.reads.ended other member isOther eof)
  | true =>
      simp only [done, ↓reduceIte, ne_eq, not_true_eq_false, false_and, false_or, true_and]
        at after delivered outstanding reports
      refine ⟨delivered ▸ reports, ?_, ?_⟩
      · intro held isHeld
        rw [outstanding] at isHeld
        cases isHeld
      · have settled : ∀ other ∈ (host.service.next action).settled,
            other ∈ host.service.settled ∨
              other.ec = ((host.service.found action).read buffer).ec := by
          intro other member
          simp only [Service.settled, List.mem_append] at member ⊢
          obtain ⟨_, ⟨_, posted, completed⟩ | ⟨_, posted, completed⟩⟩ := after
          · rw [posted, completed, List.mem_append, List.mem_singleton] at member
            rcases member with old | old | rfl
            · exact Or.inl (Or.inl old)
            · exact Or.inl (Or.inr old)
            · exact Or.inr rfl
          · rw [posted, completed, List.mem_append, List.mem_singleton] at member
            rcases member with (old | rfl) | old
            · exact Or.inl (Or.inl old)
            · exact Or.inr rfl
            · exact Or.inl (Or.inr old)
        intro other member isOther eof
        rcases settled other member with old | same
        · exact ending (inv.reads.ended other old isOther eof)
        · exact ends (same ▸ eof)

/-- What the user has written when a write is called: the buffer behind what has been
accepted. -/
theorem offered_write (inv : HostInv host) {action : ServiceAction} {operation : IoOp}
    {activity : List Callback} {buffer : Buffer}
    (called : host.service.called action = some (operation, activity))
    (isWrite : operation.op = .write buffer) (lone : host.Lone action) :
    host.party.accepted <+: (host.next action).offered ∧ (host.party.shut = false →
      (host.next action).offered = host.party.accepted ++ buffer.bytes) := by
  obtain ⟨_, ⟨taken, index, rfl⟩ | ⟨_, handler, rfl, _⟩⟩ := Service.operations_found called
  · rw [show (host.next (.run index activity)).offered = host.offered from List.append_nil _]
    exact ⟨inv.writes.accepted, fun open_ =>
      inv.writes.waiting open_ operation (taken.mem_iff.mpr List.mem_cons_self) buffer isWrite⟩
  · rw [show (host.next (.beginInside handler operation.op activity)).offered =
      host.offered ++ buffer.bytes by
        simp only [Host.next, ServiceAction.offers, isWrite]]
    refine ⟨inv.writes.accepted.trans (List.prefix_append _ _), fun open_ => ?_⟩
    rw [inv.writes.idle open_]
    intro other member isOther
    rcases lone _ rfl with closes | unused
    · rw [isWrite] at closes
      cases closes
    · refine unused other (List.mem_append_left _ member) ?_
      rw [isWrite, isOther]
      rfl

theorem writes_called (inv : HostInv host) {action : ServiceAction} {operation : IoOp}
    {activity : List Callback} {buffer : Buffer}
    (called : host.service.called action = some (operation, activity))
    (isWrite : operation.op = .write buffer) (lone : host.Lone action)
    (takesPart : host.party.finished = false) :
    Writes (host.service.next action) (host.next action).party (host.next action).offered := by
  obtain ⟨_, _, accepted, shut⟩ := inv.party_write called isWrite
  obtain ⟨behind, offered⟩ := inv.offered_write called isWrite lone
  have isWant : operation.op.want = .write := by rw [isWrite]; rfl
  have alone := inv.alone called (by rw [isWant]; decide) lone
  rw [isWant] at alone
  have others := fun other member => alone other (List.mem_append_left _ member)
  have reports := inv.writes.reports.called called isWant
    fun other member => alone other (List.mem_append_right _ member)
  have performed : operation.perform (host.service.found action) activity =
      let result := (host.service.found action).write buffer
      { session := result.session
        operation := { operation with
          ec := result.ec, bytesTransferred := result.bytesTransferred }
        want := if result.done then .nothing else .write } := by
    simp only [IoOp.perform, isWrite]
  have after := Service.next_called called
  simp only [performed] at after reports
  have ended : (host.service.found action).pendingEof = host.party.session.pendingEof := by
    rw [← Service.session_found action inv.session]
    rfl
  rcases (host.service.found action).write_outcomes buffer with
    ⟨waits, none_⟩ | ⟨done, none_, nothing⟩ | ⟨done, all, nonempty, open_⟩
  · simp only [waits, none_, Nat.lt_irrefl, Bool.false_eq_true, ↓reduceIte, reduceCtorEq, ne_eq,
      not_false_eq_true, true_and, false_and, or_false, List.append_nil] at after accepted reports
    obtain ⟨waiting, _, _⟩ := after
    refine ⟨accepted ▸ reports, accepted ▸ behind, ?_, ?_⟩
    · intro open_ other member written isOther
      rw [shut] at open_
      rw [accepted, offered open_]
      rcases List.mem_cons.mp (waiting.mem_iff.mp member) with rfl | old
      · rw [isWrite] at isOther
        rw [Operation.write.inj isOther]
      · exact absurd (by rw [isOther]; rfl) (others other old)
    · intro _ idle
      exact absurd isWant (idle { operation with
        ec := ((host.service.found action).write buffer).ec
        bytesTransferred := 0 } (waiting.mem_iff.mpr List.mem_cons_self))
  all_goals
    simp only [done, ↓reduceIte, ne_eq, not_true_eq_false, false_and, false_or, true_and]
      at after reports
    obtain ⟨left, _⟩ := after
    have idle : ∀ other ∈ (host.service.next action).session.operations,
        other.op.want ≠ .write := fun other member => others other (left.mem_iff.mp member)
  · simp only [none_, Nat.lt_irrefl, ↓reduceIte, IoOp.bytes, isWrite, List.take_zero,
      List.append_nil] at accepted reports
    refine ⟨accepted ▸ reports, accepted ▸ behind, ?_, ?_⟩
    · intro _ other member written isOther
      exact absurd (by rw [isOther]; rfl) (idle other member)
    · intro open_ _
      rw [shut] at open_
      rw [accepted, offered open_]
      rcases nothing with empty | eof
      · rw [empty, List.append_nil]
      · simp only [Party.shut, takesPart, ← ended, eof, Bool.or_true, Bool.true_eq_false] at open_
  · rw [all, if_pos nonempty] at accepted
    simp only [all, IoOp.bytes, isWrite, Buffer.length, List.take_length] at reports
    have unshut : host.party.shut = false := by
      simp only [Party.shut, takesPart, ← ended, open_, Bool.or_false]
    have same := offered unshut
    refine ⟨accepted ▸ reports, ?_, ?_, ?_⟩
    · rw [accepted, same]
    · intro _ other member written isOther
      exact absurd (by rw [isOther]; rfl) (idle other member)
    · intro _ _
      rw [accepted, same]

theorem begun (inv : HostInv host) {handler : Nat} {op : Operation}
    (lone : host.Lone (.beginOutside handler op)) :
    let action : ServiceAction := .beginOutside handler op
    Reads (host.service.next action) (host.next action).party ∧
      Writes (host.service.next action) (host.next action).party (host.next action).offered := by
  intro action
  obtain ⟨delivered, outstanding, accepted⟩ :=
    party_other host action (fun _ _ called => by cases called)
  have waiting : (host.service.next action).session.operations.Perm
      (host.service.opened handler op :: host.service.session.operations) :=
    (Queue.handlers_dispatch host.service.session.strand
      (.ioOp (host.service.opened handler op))).filterMap Handler.asIoOp
  have shut : host.party.shut = true → (host.next action).party.shut = true :=
    host.party.shut_foldl _
  constructor
  · refine ⟨?_, ?_, ?_⟩
    · rw [delivered]
      exact ⟨inv.reads.reports.posted, inv.reads.reports.given⟩
    · rw [outstanding]
      intro held isHeld
      obtain ⟨operation, member, isRead⟩ := inv.reads.held held isHeld
      exact ⟨operation, waiting.mem_iff.mpr (List.mem_cons_of_mem _ member), isRead⟩
    · intro other member isOther eof
      exact host.party.ending_foldl _ (inv.reads.ended other member isOther eof)
  · cases op with
    | write buffer =>
        have unwritten : ∀ other ∈ host.service.session.operations, other.op.want ≠ .write := by
          intro other member
          rcases lone _ rfl with closes | unused
          · cases closes
          · exact unused other (List.mem_append_left _ member)
        have all : (host.next action).offered = host.offered ++ buffer.bytes := rfl
        rw [all]
        refine ⟨?_, ?_, ?_, ?_⟩
        · rw [accepted]
          exact ⟨inv.writes.reports.posted, inv.writes.reports.given⟩
        · rw [accepted]
          exact inv.writes.accepted.trans (List.prefix_append _ _)
        · intro open_ other member written isOther
          have unshut : host.party.shut = false :=
            Bool.not_eq_true _ ▸ fun before => by simp [shut before] at open_
          rw [accepted, inv.writes.idle unshut unwritten]
          rcases List.mem_cons.mp (waiting.mem_iff.mp member) with rfl | old
          · rw [Operation.write.inj isOther]
          · exact absurd (by rw [isOther]; rfl) (unwritten other old)
        · intro _ idle
          exact absurd rfl (idle _ (waiting.mem_iff.mpr List.mem_cons_self))
    | _ =>
        rw [show (host.next action).offered = host.offered from List.append_nil _]
        refine inv.writes.frame (Service.Keeps.mk ?_ ?_ ?_ ?_) accepted shut
        · intro other isOther
          rw [waiting.mem_iff, List.mem_cons]
          refine ⟨fun either => either.resolve_left ?_, Or.inr⟩
          rintro rfl
          cases isOther
        · exact fun _ _ => Iff.rfl
        · exact fun _ _ => Iff.rfl
        · rfl

theorem handled (inv : HostInv host) {index : Nat} {operation : IoOp}
    (located : host.service.posted[index]? = some operation) {later : Service}
    (after : later = { host.service with
      posted := host.service.posted.eraseIdx index
      completed := host.service.completed ++ [operation] }) :
    Reads later host.party ∧ Writes later host.party host.offered := by
  have taken : host.service.posted.Perm (operation :: host.service.posted.eraseIdx index) := by
    obtain ⟨inside, rfl⟩ := List.getElem?_eq_some_iff.mp located
    exact (List.getElem_cons_eraseIdx_perm inside).symm
  have kept : later.session = host.service.session := by rw [after]
  have posted : later.posted = host.service.posted.eraseIdx index := by rw [after]
  have completed : later.completed = host.service.completed ++ [operation] := by rw [after]
  have settled : ∀ other, other ∈ later.settled ↔ other ∈ host.service.settled := by
    intro other
    rw [Service.settled, Service.settled, posted, completed]
    simp only [List.mem_append, taken.mem_iff, List.mem_cons, List.not_mem_nil, or_false]
    tauto
  have reports : ∀ what, what ≠ .close → ∀ bytes, Reports host.service what bytes →
      Reports later what bytes := by
    intro what transfers bytes reports
    have single := inv.lone what transfers
    rw [Service.outstanding, kinds_append] at single
    by_cases isKind : operation.op.want = what
    · exact reports.handled taken (by omega) isKind posted completed
    · apply reports.frame ⟨fun _ _ => by rw [kept], ?_, fun other _ => settled other, ?_⟩
      · intro other isOther
        rw [posted, taken.mem_iff, List.mem_cons]
        refine ⟨Or.inr, fun either => either.resolve_left ?_⟩
        rintro rfl
        exact isKind isOther
      · rw [Service.reported_snoc completed, if_neg isKind, List.append_nil]
  constructor
  · refine ⟨reports .read (by decide) _ inv.reads.reports, ?_, ?_⟩
    · rw [kept]
      exact inv.reads.held
    · intro other member
      exact inv.reads.ended other ((settled other).mp member)
  · refine ⟨reports .write (by decide) _ inv.writes.reports, inv.writes.accepted, ?_, ?_⟩
    · rw [kept]
      exact inv.writes.waiting
    · rw [kept]
      exact inv.writes.idle

theorem uncalled (inv : HostInv host) {action : ServiceAction}
    (called : host.service.called action = none) (lone : host.Lone action) :
    Reads (host.service.next action) (host.next action).party ∧
      Writes (host.service.next action) (host.next action).party (host.next action).offered := by
  rcases Service.next_uncalled called inv.queued inv.posted with
    ⟨handler, op, rfl, _⟩ | ⟨index, operation, rfl, located, after⟩ |
      ⟨nothing, left, posted, completed⟩
  · exact inv.begun lone
  · rw [show (host.next (.runPosted index)).offered = host.offered from List.append_nil _]
    exact inv.handled located after
  · obtain ⟨delivered, outstanding, accepted⟩ :=
      party_other host action fun operation activity isCalled => by
        rw [called] at isCalled
        cases isCalled
    have keeps : ∀ what, Service.Keeps host.service (host.service.next action) what := fun what =>
      ⟨fun _ _ => left.mem_iff, fun _ _ => by rw [posted],
        fun _ _ => by rw [Service.settled, Service.settled, posted, completed],
        by rw [Service.reported, Service.reported, completed]⟩
    rw [show (host.next action).offered = host.offered by
      rw [Host.next, nothing, List.append_nil]]
    exact ⟨inv.reads.frame (keeps .read) ⟨delivered, outstanding⟩ (host.party.ending_foldl _),
      inv.writes.frame (keeps .write) accepted (host.party.shut_foldl _)⟩

theorem offered_called {action : ServiceAction} {operation : IoOp} {activity : List Callback}
    (called : host.service.called action = some (operation, activity))
    (other : operation.op.want ≠ .write) : (host.next action).offered = host.offered := by
  obtain ⟨_, ⟨_, index, rfl⟩ | ⟨_, handler, rfl, _⟩⟩ := Service.operations_found called
  · exact List.append_nil _
  · cases isOp : operation.op with
    | write buffer =>
        rw [isOp] at other
        exact absurd rfl other
    | _ => exact List.append_nil _

theorem takesPart {peerWire : List Block} {action : ServiceAction} {operation : IoOp}
    {activity : List Callback} (called : host.service.called action = some (operation, activity))
    (allowed : host.Allowed peerWire action) : host.party.finished = false := by
  have takes := allowed.takes
  cases action with
  | runPosted index => cases called
  | _ => exact takes.1.1

theorem transfers (inv : HostInv host) {peerWire : List Block} {action : ServiceAction}
    (allowed : host.Allowed peerWire action) :
    Reads (host.service.next action) (host.next action).party ∧
      Writes (host.service.next action) (host.next action).party (host.next action).offered := by
  have ending := host.party.ending_foldl (host.service.steps action)
  have shut := host.party.shut_foldl (host.service.steps action)
  cases called : host.service.called action with
  | none => exact inv.uncalled called allowed.lone
  | some call =>
      obtain ⟨operation, activity⟩ := call
      cases isOp : operation.op with
      | read buffer =>
          have other : operation.op.want ≠ .write := by simp [isOp, Operation.want]
          obtain ⟨_, _, accepted, _⟩ := inv.party_read called isOp
          rw [offered_called called other]
          exact ⟨inv.reads_called called isOp allowed.lone,
            inv.writes.frame (Service.kept called other) accepted shut⟩
      | write buffer =>
          have other : operation.op.want ≠ .read := by simp [isOp, Operation.want]
          obtain ⟨delivered, outstanding, _⟩ := inv.party_write called isOp
          exact ⟨inv.reads.frame (Service.kept called other) ⟨delivered, outstanding⟩ ending,
            inv.writes_called called isOp allowed.lone (takesPart called allowed)⟩
      | close =>
          have notRead : operation.op.want ≠ .read := by simp [isOp, Operation.want]
          have notWrite : operation.op.want ≠ .write := by simp [isOp, Operation.want]
          obtain ⟨delivered, outstanding, accepted⟩ :=
            party_other host action fun operation' activity' isCalled => by
              rw [called] at isCalled
              cases isCalled
              exact isOp
          rw [offered_called called notWrite]
          exact ⟨inv.reads.frame (Service.kept called notRead) ⟨delivered, outstanding⟩ ending,
            inv.writes.frame (Service.kept called notWrite) accepted shut⟩

theorem next (inv : HostInv host) {peerWire : List Block} {action : ServiceAction}
    (allowed : host.Allowed peerWire action) : HostInv (host.next action) := by
  obtain ⟨queued, posted⟩ := Service.finished_next action inv.queued inv.posted
  obtain ⟨reads, writes⟩ := inv.transfers allowed
  refine ⟨Service.session_steps allowed.possible inv.posted inv.session, queued, posted, ?_,
    reads, writes⟩
  intro what transferred
  have bounded := Service.kinds_next action inv.queued inv.posted what
  have single := inv.lone what transferred
  cases begins : action.begins with
  | none =>
      simp only [Service.beginning, begins, Option.map_none, reduceCtorEq, ↓reduceIte] at bounded
      exact Nat.le_trans bounded single
  | some op =>
      by_cases same : op.want = what
      · have unused : kinds host.service.outstanding what = 0 := by
          rcases allowed.lone op begins with rfl | unused
          · exact absurd same.symm transferred
          · rw [← same]
            exact kinds_eq_zero.mpr unused
        rw [unused] at bounded
        refine Nat.le_trans bounded ?_
        rw [Nat.zero_add, Service.beginning]
        split <;> decide
      · simp only [Service.beginning, begins, Option.map_some, Option.some.injEq, same,
          ↓reduceIte] at bounded
        exact Nat.le_trans bounded single

/-- What the io_service runs, the party may do: reads are retried as they wait. -/
theorem permitted (inv : HostInv host) {peerWire : List Block} {action : ServiceAction}
    (allowed : host.Allowed peerWire action) :
    AllMet Party.next (Party.Allowed peerWire) host.party (host.service.steps action) := by
  have takes := allowed.takes
  have untransferred : (∀ operation activity,
      host.service.called action = some (operation, activity) → operation.op = .close) →
      AllMet Party.next (Party.Allowed peerWire) host.party (host.service.steps action) := by
    intro other
    apply takes.mono
    intro piece member state taken
    exact ⟨taken.1, taken.2,
      PartyAction.retries_of_transfers (Service.transfers_steps other piece member)⟩
  cases called : host.service.called action with
  | none =>
      apply untransferred
      intro operation activity isCalled
      rw [called] at isCalled
      cases isCalled
  | some call =>
      obtain ⟨operation, activity⟩ := call
      cases isOp : operation.op with
      | close =>
          apply untransferred
          intro operation' activity' isCalled
          rw [called] at isCalled
          cases isCalled
          exact isOp
      | write buffer =>
          rw [Service.steps_transfer called (by simp [isOp]), IoOp.pieces, isOp] at takes ⊢
          obtain ⟨found, write, next, _⟩ := takes
          exact ⟨⟨found.1, found.2, trivial⟩, ⟨write.1, write.2, trivial⟩,
            ⟨next.1, next.2, trivial⟩, trivial⟩
      | read buffer =>
          rw [Service.steps_transfer called (by simp [isOp]), IoOp.pieces, isOp] at takes ⊢
          obtain ⟨found, read, next, _⟩ := takes
          exact ⟨⟨found.1, found.2, trivial⟩,
            ⟨read.1, read.2, inv.retries called isOp allowed.lone⟩,
            ⟨next.1, next.2, trivial⟩, trivial⟩

end HostInv

end CurvecprAsio
