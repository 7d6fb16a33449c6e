import CurvecprAsio.Transfer

set_option autoImplicit false

/- The example client writes the one byte value and logs nothing else. -/
namespace CurvecprAsio

open Strand Transition SearchTree

namespace SimpleExample

def reads (client : SimpleExample) : Nat := if client.reading.isSome then 1 else 0

def writes (client : SimpleExample) : Nat := if client.writing.isSome then 1 else 0

theorem reads_le (client : SimpleExample) : client.reads ≤ 1 := by
  unfold reads
  split <;> omega

theorem writes_le (client : SimpleExample) : client.writes ≤ 1 := by
  unfold writes
  split <;> omega

theorem handle_read {client : SimpleExample} {operation : IoOp} {buffer : Buffer}
    (reading : client.reading = some 0) (isRead : operation.op = .read buffer)
    (whole : operation.Whole 64) :
    let filled := { client with
      rxBufferSpace := client.rxBufferSpace.overwrite 0 buffer.bytes }
    client.handle operation = filled.readHandler operation.ec (0 + operation.bytesTransferred) := by
  have ends := operation.ends_whole whole (by simp [isRead])
  simp only [handle, isRead, reading, ends, ↓reduceIte]

theorem handle_write {client : SimpleExample} {operation : IoOp} {buffer : Buffer}
    (writing : client.writing = some 0) (isWrite : operation.op = .write buffer)
    (whole : operation.Whole 64) : client.handle operation = client.writeHandler operation.ec := by
  have ends := operation.ends_whole whole (by simp [isWrite])
  simp only [handle, isWrite, writing, ends, ↓reduceIte]

/-- 64 bytes of the right value give no warning. -/
theorem check_eq_nil {client : SimpleExample} (space : client.rxBufferSpace.length = 64)
    (right : ∀ byte ∈ client.rxBufferSpace.bytes, byte = 104) : client.check 64 = [] := by
  have none_ : (List.range 64).filter (fun position =>
      client.rxBufferSpace.bytes[position]? ≠ some 104) = [] := by
    rw [List.filter_eq_nil_iff]
    intro position member
    have inside : position < client.rxBufferSpace.bytes.length := by
      have below := List.mem_range.mp member
      have length : client.rxBufferSpace.bytes.length = 64 := space
      omega
    simp [List.getElem?_eq_getElem inside, right _ (List.getElem_mem inside)]
  simp only [check, ne_eq, not_true_eq_false, ↓reduceIte, List.nil_append]
  rw [List.map_eq_nil_iff]
  exact none_

end SimpleExample

theorem kinds_done (operation : IoOp) (what : Want) :
    kinds (some operation).toList what = if operation.op.want = what then 1 else 0 := by
  rw [Option.toList_some, kinds_cons, Service.kinds_nil, Nat.zero_add]

theorem Buffer.mem_filled {byte value : UInt8} (member : byte ∈ (Buffer.filled value).bytes) :
    byte = value :=
  (List.mem_replicate.mp member).2

/-- The client writes the one byte value, and has logged no warning; it is about to begin
`ops`. -/
structure ExampleInv (host : Host) (client : SimpleExample) (ops : List Operation) : Prop where
  transfers : host.service.Transfers 64
  sized : ∀ op ∈ ops, op.Sized 64
  apart : ops.Pairwise fun first second => first.want ≠ second.want
  space : client.rxBufferSpace.length = 64
  filled : client.writing ≠ none → client.txBufferSpace = .filled 104
  reading : client.reading = none ∨ client.reading = some 0
  writing : client.writing = none ∨ client.writing = some 0
  fresh : client.connected = false → client.reading = none ∧ client.writing = none
  reads : kinds host.service.outstanding .read + ops.countP (fun op => op.want = .read) =
    client.reads
  writes : kinds host.service.outstanding .write + ops.countP (fun op => op.want = .write) =
    client.writes
  offered : ∀ byte ∈ host.offered ++ ops.flatMap Operation.offer, byte = 104
  unwarned : client.warnings = []

namespace ExampleInv

variable {host : Host} {client : SimpleExample} {ops : List Operation} {action : ServiceAction}
  {operation : IoOp}

theorem continues (inv : ExampleInv host client ops) :
    host.Continues ops fun last => ExampleInv last client [] where
  sized := inv.sized
  unused := by
    intro op member notClose
    have counted : 0 < ops.countP fun other => other.want = op.want :=
      List.countP_pos_iff.mpr ⟨op, member, by simp⟩
    have reads := inv.reads
    have writes := inv.writes
    cases op with
    | read buffer =>
        change 0 < ops.countP fun other => other.want = .read at counted
        change kinds host.service.outstanding .read = 0
        have few : client.reads ≤ 1 := client.reads_le
        omega
    | write buffer =>
        change 0 < ops.countP fun other => other.want = .write at counted
        change kinds host.service.outstanding .write = 0
        have few : client.writes ≤ 1 := client.writes_le
        omega
    | close => exact absurd rfl notClose
  apart := inv.apart
  after := by
    intro last began
    refine ⟨began.transfers, ?_, List.Pairwise.nil, inv.space, inv.filled, inv.reading,
      inv.writing, inv.fresh, ?_, ?_, ?_, inv.unwarned⟩
    · intro op member
      cases member
    · rw [List.countP_nil, Nat.add_zero, began.outstanding]
      exact inv.reads
    · rw [List.countP_nil, Nat.add_zero, began.outstanding]
      exact inv.writes
    · rw [List.flatMap_nil, List.append_nil, began.offered]
      exact inv.offered

theorem uncalled (inv : ExampleInv host client []) (begins : action.begins = none)
    (effect : host.service.Effect 64 action none) :
    ExampleInv (host.next action) client [] := by
  have balance : ∀ what, kinds (host.next action).service.outstanding what =
      kinds host.service.outstanding what := by
    intro what
    have balance := effect.balance what
    rw [Service.beginning_none begins, Option.toList_none, Service.kinds_nil] at balance
    exact balance
  refine ⟨effect.transfers, inv.sized, inv.apart, inv.space, inv.filled, inv.reading,
    inv.writing, inv.fresh, ?_, ?_, ?_, inv.unwarned⟩
  · rw [balance]
    exact inv.reads
  · rw [balance]
    exact inv.writes
  · rw [host.offered_next begins]
    exact inv.offered

theorem connected (inv : ExampleInv host client []) (unconnected : client.connected = false) :
    ExampleInv host client.connectHandler.1 client.connectHandler.2 := by
  obtain ⟨unread, unwritten⟩ := inv.fresh unconnected
  have reads := inv.reads
  have writes := inv.writes
  simp only [SimpleExample.reads, SimpleExample.writes, unread, unwritten, List.countP_nil,
    Option.isSome_none, Bool.false_eq_true, ↓reduceIte, Nat.add_zero] at reads writes
  refine ⟨inv.transfers, ?_, ?_, inv.space, fun _ => rfl, Or.inr rfl, Or.inr rfl, ?_, ?_, ?_, ?_,
    inv.unwarned⟩
  · intro op member
    rcases List.mem_cons.mp member with rfl | other
    · exact inv.space
    · rw [List.mem_singleton.mp other]
      exact List.length_replicate
  · refine List.pairwise_cons.mpr ⟨?_, List.pairwise_singleton _ _⟩
    intro op member
    rw [List.mem_singleton.mp member]
    simp [Operation.want]
  · intro still
    cases still
  · simp [SimpleExample.connectHandler, SimpleExample.asyncRead, SimpleExample.asyncWrite,
      SimpleExample.reads, Operation.want, reads]
  · simp [SimpleExample.connectHandler, SimpleExample.asyncRead, SimpleExample.asyncWrite,
      SimpleExample.writes, Operation.want, writes]
  · have old := inv.offered
    rw [List.flatMap_nil, List.append_nil] at old
    intro byte member
    rcases List.mem_append.mp member with before | new
    · exact old byte before
    · simp only [SimpleExample.connectHandler, SimpleExample.asyncRead,
        SimpleExample.asyncWrite, List.singleton_append, List.flatMap_cons, List.flatMap_nil,
        Operation.offer, List.nil_append, List.append_nil] at new
      exact Buffer.mem_filled new

/-- A handler of the client begins one operation, of a kind that is done. -/
theorem answer (inv : ExampleInv host client []) (begins : action.begins = none)
    {done : Option IoOp} (effect : host.service.Effect 64 action done)
    {later : SimpleExample} {op : Operation} (sized : op.Sized 64)
    (space : later.rxBufferSpace.length = 64)
    (filled : later.writing ≠ none → later.txBufferSpace = .filled 104)
    (reading : later.reading = none ∨ later.reading = some 0)
    (writing : later.writing = none ∨ later.writing = some 0)
    (fresh : later.connected = false → later.reading = none ∧ later.writing = none)
    (reads : client.reads + (if op.want = .read then 1 else 0) =
      later.reads + kinds done.toList .read)
    (writes : client.writes + (if op.want = .write then 1 else 0) =
      later.writes + kinds done.toList .write)
    (offers : ∀ byte ∈ op.offer, byte = 104) (unwarned : later.warnings = []) :
    ExampleInv (host.next action) later [op] := by
  have readBalance := effect.balance .read
  have writeBalance := effect.balance .write
  have readsBefore := inv.reads
  have writesBefore := inv.writes
  rw [Service.beginning_none begins] at readBalance writeBalance
  rw [List.countP_nil] at readsBefore writesBefore
  refine ⟨effect.transfers, ?_, List.pairwise_singleton _ _, space, filled, reading, writing,
    fresh, ?_, ?_, ?_, unwarned⟩
  · intro other member
    rw [List.mem_singleton.mp member]
    exact sized
  · simp only [Host.service_next, List.countP_cons, List.countP_nil, decide_eq_true_eq]
    omega
  · simp only [Host.service_next, List.countP_cons, List.countP_nil, decide_eq_true_eq]
    omega
  · have old := inv.offered
    rw [List.flatMap_nil, List.append_nil] at old
    rw [host.offered_next begins, List.flatMap_cons, List.flatMap_nil, List.append_nil]
    intro byte member
    rcases List.mem_append.mp member with given | new
    · exact old byte given
    · exact offers byte new

/-- The client reads from the start of its buffer when a read is done. -/
theorem reading_done (inv : ExampleInv host client []) (begins : action.begins = none)
    (effect : host.service.Effect 64 action (some operation))
    (isRead : operation.op.want = .read) : client.reading = some 0 := by
  have balance := effect.balance .read
  have before := inv.reads
  rw [List.countP_nil] at before
  rw [Service.beginning_none begins, kinds_done, if_pos isRead] at balance
  rcases inv.reading with unread | reading
  · simp only [SimpleExample.reads, unread, Option.isSome_none, Bool.false_eq_true,
      ↓reduceIte] at before
    omega
  · exact reading

theorem writing_done (inv : ExampleInv host client []) (begins : action.begins = none)
    (effect : host.service.Effect 64 action (some operation))
    (isWrite : operation.op.want = .write) : client.writing = some 0 := by
  have balance := effect.balance .write
  have before := inv.writes
  rw [List.countP_nil] at before
  rw [Service.beginning_none begins, kinds_done, if_pos isWrite] at balance
  rcases inv.writing with unwritten | writing
  · simp only [SimpleExample.writes, unwritten, Option.isSome_none, Bool.false_eq_true,
      ↓reduceIte] at before
    omega
  · exact writing

/-- The handler of a read closes the stream or begins the next read. -/
theorem answer_read (inv : ExampleInv host client []) (begins : action.begins = none)
    (effect : host.service.Effect 64 action (some operation))
    (isRead : operation.op.want = .read) {later : SimpleExample} {op : Operation}
    (rx : later.rxBufferSpace.length = 64) (tx : later.txBufferSpace = client.txBufferSpace)
    (writing : later.writing = client.writing) (connected : later.connected = client.connected)
    (unwarned : later.warnings = [])
    (kind : op = .close ∧ later.reading = none ∨
      op = .read (later.rxBufferSpace.skip 0) ∧ later.reading = some 0) :
    ExampleInv (host.next action) later [op] := by
  have reading := inv.reading_done begins effect isRead
  have one : client.reads = 1 := by simp [SimpleExample.reads, reading]
  have kindRead : kinds (some operation).toList .read = 1 := by rw [kinds_done, if_pos isRead]
  have kindWrite : kinds (some operation).toList .write = 0 := by
    rw [kinds_done, isRead]
    rfl
  apply inv.answer begins effect _ rx _ _ _ _ _ _ _ unwarned
  · rcases kind with ⟨rfl, _⟩ | ⟨rfl, _⟩
    · trivial
    · exact rx
  · rw [writing, tx]
    exact inv.filled
  · rcases kind with ⟨_, unread⟩ | ⟨_, read⟩
    · exact Or.inl unread
    · exact Or.inr read
  · rw [writing]
    exact inv.writing
  · intro unconnected
    rw [connected] at unconnected
    rw [(inv.fresh unconnected).1] at reading
    cases reading
  · rw [one, kindRead]
    rcases kind with ⟨rfl, unread⟩ | ⟨rfl, read⟩
    · simp [SimpleExample.reads, unread, Operation.want]
    · simp [SimpleExample.reads, read, Operation.want]
  · rw [kindWrite]
    rcases kind with ⟨rfl, _⟩ | ⟨rfl, _⟩
    · simp [SimpleExample.writes, writing, Operation.want]
    · simp [SimpleExample.writes, writing, Operation.want]
  · rcases kind with ⟨rfl, _⟩ | ⟨rfl, _⟩
    · exact fun byte inside => absurd inside (List.not_mem_nil)
    · exact fun byte inside => absurd inside (List.not_mem_nil)

/-- A whole read fills the buffer with what the client has heard. -/
theorem filled_read (inv : ExampleInv host client [])
    (effect : host.service.Effect 64 action (some operation)) {buffer : Buffer}
    (isRead : operation.op = .read buffer) (success : operation.ec = .success)
    (heard : ∀ byte ∈ (host.next action).service.reported .read, byte = 104) :
    ∀ byte ∈ (client.rxBufferSpace.overwrite 0 buffer.bytes).bytes, byte = 104 := by
  have whole := effect.whole operation rfl
  have length : buffer.length = 64 := by
    have sized := whole.sized
    rw [isRead] at sized
    exact sized
  rw [Buffer.overwrite_whole (length.trans inv.space.symm)]
  intro byte member
  apply heard
  rw [Host.service_next, effect.reported]
  apply List.mem_append_right
  simp only [Option.toList_some, List.flatMap_cons, List.flatMap_nil, List.append_nil, isRead,
    Operation.want, ↓reduceIte]
  rw [operation.bytes_whole isRead whole success]
  exact member

/-- The handler of a read finds what the client has written. -/
theorem read (inv : ExampleInv host client []) (begins : action.begins = none)
    (effect : host.service.Effect 64 action (some operation)) {buffer : Buffer}
    (isRead : operation.op = .read buffer)
    (heard : ∀ byte ∈ (host.next action).service.reported .read, byte = 104) :
    ExampleInv (host.next action) (client.handle operation).1 (client.handle operation).2 := by
  have whole := effect.whole operation rfl
  have want : operation.op.want = .read := by rw [isRead, Operation.want]
  have reading := inv.reading_done begins effect want
  have space : (client.rxBufferSpace.overwrite 0 buffer.bytes).length = 64 := by
    rw [Buffer.length_overwrite]
    exact inv.space
  rw [SimpleExample.handle_read reading isRead whole]
  simp only [SimpleExample.readHandler]
  by_cases success : operation.ec = .success
  · have all : 0 + operation.bytesTransferred = 64 := by
      rw [whole.transferred (by simp [isRead]) success]
    have unwarned : client.warnings ++ SimpleExample.check { client with
        rxBufferSpace := client.rxBufferSpace.overwrite 0 buffer.bytes } 64 = [] := by
      rw [SimpleExample.check_eq_nil space (inv.filled_read effect isRead success heard),
        inv.unwarned]
      rfl
    simp only [success, ne_eq, not_true_eq_false, ↓reduceIte, all]
    split
    · exact inv.answer_read begins effect want space rfl rfl rfl unwarned (Or.inl ⟨rfl, rfl⟩)
    · exact inv.answer_read begins effect want space rfl rfl rfl unwarned (Or.inr ⟨rfl, rfl⟩)
  · simp only [success, ne_eq, not_false_eq_true, ↓reduceIte]
    exact inv.answer_read begins effect want space rfl rfl rfl inv.unwarned (Or.inl ⟨rfl, rfl⟩)

/-- The handler of a write writes the same bytes again, or closes the stream. -/
theorem write (inv : ExampleInv host client []) (begins : action.begins = none)
    (effect : host.service.Effect 64 action (some operation)) {buffer : Buffer}
    (isWrite : operation.op = .write buffer) :
    ExampleInv (host.next action) (client.handle operation).1 (client.handle operation).2 := by
  have whole := effect.whole operation rfl
  have kindRead : kinds (some operation).toList .read = 0 := by
    rw [kinds_done, isWrite]
    rfl
  have kindWrite : kinds (some operation).toList .write = 1 := by
    rw [kinds_done, isWrite]
    rfl
  have writing := inv.writing_done begins effect (by rw [isWrite, Operation.want])
  have connected : client.connected = false → False := by
    intro unconnected
    rw [(inv.fresh unconnected).2] at writing
    cases writing
  have one : client.writes = 1 := by simp [SimpleExample.writes, writing]
  have filled : client.txBufferSpace = .filled 104 := inv.filled (by simp [writing])
  rw [SimpleExample.handle_write writing isWrite whole]
  simp only [SimpleExample.writeHandler]
  by_cases success : operation.ec = .success
  · simp only [success, ne_eq, not_true_eq_false, ↓reduceIte]
    refine inv.answer begins effect ?_ inv.space (fun _ => filled) inv.reading (Or.inr rfl)
      (fun unconnected => absurd unconnected connected) ?_ ?_ ?_ inv.unwarned
    · change client.txBufferSpace.length = 64
      rw [filled]
      exact List.length_replicate
    · rw [kindRead]
      rfl
    · rw [one, kindWrite]
      simp [SimpleExample.writes, SimpleExample.asyncWrite, Operation.want]
    · change ∀ byte ∈ client.txBufferSpace.bytes, byte = 104
      rw [filled]
      exact fun byte member => Buffer.mem_filled member
  · simp only [success, ne_eq, not_false_eq_true, ↓reduceIte]
    refine inv.answer begins effect trivial inv.space (fun _ => filled) inv.reading (Or.inl rfl)
      (fun unconnected => absurd unconnected connected) ?_ ?_ ?_ inv.unwarned
    · rw [kindRead]
      simp [SimpleExample.reads, Operation.want]
    · rw [one, kindWrite]
      simp [SimpleExample.writes, Operation.want]
    · intro byte member
      cases member

theorem handle (inv : ExampleInv host client []) (begins : action.begins = none)
    (effect : host.service.Effect 64 action (some operation))
    (heard : ∀ byte ∈ (host.next action).service.reported .read, byte = 104) :
    ExampleInv (host.next action) (client.handle operation).1 (client.handle operation).2 := by
  cases isOp : operation.op with
  | read buffer => exact inv.read begins effect isOp heard
  | write buffer => exact inv.write begins effect isOp
  | close =>
      have nothing : client.handle operation = (client, []) := by
        simp only [SimpleExample.handle, isOp]
      have balance := effect.balance
      simp only [Option.toList_some, kinds_cons, Service.kinds_nil, isOp, Operation.want,
        Service.beginning_none begins] at balance
      have reads := balance .read
      have writes := balance .write
      simp only [reduceCtorEq, ↓reduceIte, Nat.add_zero] at reads writes
      rw [nothing]
      refine ⟨effect.transfers, inv.sized, inv.apart, inv.space, inv.filled, inv.reading,
        inv.writing, inv.fresh, ?_, ?_, ?_, inv.unwarned⟩
      · rw [Host.service_next, reads]
        exact inv.reads
      · rw [Host.service_next, writes]
        exact inv.writes
      · rw [host.offered_next begins]
        exact inv.offered

end ExampleInv

end CurvecprAsio
