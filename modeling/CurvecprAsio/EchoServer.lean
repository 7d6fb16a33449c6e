import CurvecprAsio.Transfer

set_option autoImplicit false

/- The example server writes what it has read. -/
namespace CurvecprAsio

open Strand Transition SearchTree

namespace Connection

/-- The reads of the connection that are under way. -/
def reads (peer : Connection) : Nat :=
  match peer.phase with
  | .reading _ => 1
  | _ => 0

def writes (peer : Connection) : Nat :=
  match peer.phase with
  | .writing _ _ => 1
  | _ => 0

theorem reads_le (peer : Connection) : peer.reads ≤ 1 := by
  unfold reads
  split <;> omega

theorem writes_le (peer : Connection) : peer.writes ≤ 1 := by
  unfold writes
  split <;> omega

/-- No transfer has been begun in part. -/
def Starting (peer : Connection) : Prop :=
  peer.phase = .accepting ∨ peer.phase = .reading 0 ∨ peer.phase = .writing 64 0 ∨
    peer.phase = .closing

theorem handle_read {peer : Connection} {operation : IoOp} {buffer : Buffer}
    (reading : peer.phase = .reading 0) (isRead : operation.op = .read buffer)
    (whole : operation.Whole 64) :
    let filled := { peer with bufferSpace := peer.bufferSpace.overwrite 0 buffer.bytes }
    peer.handle operation = filled.readHandler operation.ec (0 + operation.bytesTransferred) := by
  have ends := operation.ends_whole whole (by simp [isRead])
  simp only [handle, isRead, reading, ends, ↓reduceIte]

theorem handle_write {peer : Connection} {operation : IoOp} {buffer : Buffer}
    (writing : peer.phase = .writing 64 0) (isWrite : operation.op = .write buffer)
    (whole : operation.Whole 64) : peer.handle operation = peer.writeHandler operation.ec := by
  have ends := operation.ends_whole whole (by simp [isWrite])
  simp only [handle, isWrite, writing, ends, ↓reduceIte]

end Connection

/-- The server writes what it has read, and nothing else. -/
structure PeerInv (host : Host) (peer : Connection) : Prop where
  transfers : host.service.Transfers 64
  space : peer.bufferSpace.length = 64
  starting : peer.Starting
  reads : kinds host.service.outstanding .read = peer.reads
  writes : kinds host.service.outstanding .write = peer.writes
  echoed : host.offered <+: host.service.reported .read
  whole : peer.phase ≠ .closing → host.offered = host.service.reported .read

namespace PeerInv

variable {host last : Host} {peer : Connection} {action : ServiceAction} {operation : IoOp}

theorem uncalled (inv : PeerInv host peer) (begins : action.begins = none)
    (effect : host.service.Effect 64 action none) : PeerInv (host.next action) peer := by
  have offered := host.offered_next begins
  have same : ∀ what, (host.next action).service.reported what =
      host.service.reported what := by
    intro what
    have reported := effect.reported what
    rw [Option.toList_none, List.flatMap_nil, List.append_nil] at reported
    exact reported
  have balance : ∀ what, kinds (host.next action).service.outstanding what =
      kinds host.service.outstanding what := by
    intro what
    have balance := effect.balance what
    rw [Service.beginning_none begins, Option.toList_none, Service.kinds_nil] at balance
    exact balance
  refine ⟨effect.transfers, inv.space, inv.starting, ?_, ?_, ?_, ?_⟩
  · rw [balance]
    exact inv.reads
  · rw [balance]
    exact inv.writes
  · rw [offered, same]
    exact inv.echoed
  · rw [offered, same]
    exact inv.whole

/-- Nothing is under way on the connection's stream. -/
structure Idle (host : Host) (peer : Connection) : Prop where
  space : peer.bufferSpace.length = 64
  reads : kinds host.service.outstanding .read = 0
  writes : kinds host.service.outstanding .write = 0

theorem Idle.close (idle : Idle host peer)
    (echoed : host.offered <+: host.service.reported .read) :
    host.Continues peer.close.2 fun last => PeerInv last peer.close.1 := by
  apply Host.Continues.one
  · trivial
  · exact fun other => absurd rfl other
  · intro last began
    have reads := began.one .read
    have writes := began.one .write
    simp only [Operation.want, reduceCtorEq, ↓reduceIte, idle.reads, idle.writes] at reads writes
    refine ⟨began.transfers, idle.space, Or.inr (Or.inr (Or.inr rfl)), reads, writes, ?_, ?_⟩
    · rw [began.offered_one, began.reported]
      simpa only [Operation.offer, List.append_nil] using echoed
    · exact fun open_ => absurd rfl open_

theorem Idle.asyncRead (idle : Idle host peer)
    (echoed : host.offered = host.service.reported .read) :
    host.Continues (peer.asyncRead 0).2 fun last => PeerInv last (peer.asyncRead 0).1 := by
  apply Host.Continues.one
  · exact idle.space
  · exact fun _ => idle.reads
  · intro last began
    have reads := began.one .read
    have writes := began.one .write
    simp only [Operation.want, reduceCtorEq, ↓reduceIte, idle.reads, idle.writes] at reads writes
    have same : last.offered = last.service.reported .read := by
      rw [began.offered_one, began.reported]
      simpa only [Operation.offer, List.append_nil] using echoed
    refine ⟨began.transfers, idle.space, Or.inr (Or.inl rfl), reads, writes, ?_, fun _ => same⟩
    rw [same]

/-- What has been read is written back. -/
theorem Idle.asyncWrite (idle : Idle host peer)
    (echoes : host.offered ++ peer.bufferSpace.bytes = host.service.reported .read) :
    host.Continues (peer.asyncWrite 64 0).2 fun last => PeerInv last (peer.asyncWrite 64 0).1 := by
  have written : ((peer.bufferSpace.upTo 64).skip 0).bytes = peer.bufferSpace.bytes := by
    rw [Buffer.skip_zero, ← idle.space, Buffer.upTo_length]
  apply Host.Continues.one
  · show List.length _ = 64
    rw [written]
    exact idle.space
  · exact fun _ => idle.writes
  · intro last began
    have reads := began.one .read
    have writes := began.one .write
    simp only [Operation.want, reduceCtorEq, ↓reduceIte, idle.reads, idle.writes] at reads writes
    have same : last.offered = last.service.reported .read := by
      rw [began.offered_one, began.reported, ← echoes, Operation.offer, written]
    refine ⟨began.transfers, idle.space, Or.inr (Or.inr (Or.inl rfl)), reads, writes, ?_,
      fun _ => same⟩
    rw [same]

/-- The handler of a read writes what has been read, or closes the stream. -/
theorem read (inv : PeerInv host peer) (begins : action.begins = none)
    (effect : host.service.Effect 64 action (some operation)) {buffer : Buffer}
    (isRead : operation.op = .read buffer) :
    (host.next action).Continues (peer.handle operation).2
      fun last => PeerInv last (peer.handle operation).1 := by
  have whole := effect.whole operation rfl
  have length : buffer.length = 64 := by
    have sized := whole.sized
    rw [isRead] at sized
    exact sized
  have reported := effect.reported .read
  have reads := effect.balance .read
  have writes := effect.balance .write
  simp only [Option.toList_some, List.flatMap_cons, List.flatMap_nil, List.append_nil, isRead,
    Operation.want, ↓reduceIte] at reported
  simp only [Option.toList_some, kinds_cons, Service.kinds_nil, isRead, Operation.want,
    Service.beginning_none begins, ↓reduceIte, reduceCtorEq, inv.reads, inv.writes]
    at reads writes
  have reading : peer.phase = .reading 0 := by
    rcases inv.starting with phase | phase | phase | phase
    · simp only [Connection.reads, phase] at reads
      omega
    · exact phase
    · simp only [Connection.reads, phase] at reads
      omega
    · simp only [Connection.reads, phase] at reads
      omega
  simp only [Connection.reads, Connection.writes, reading] at reads writes
  have idle : Idle (host.next action) { peer with
      bufferSpace := peer.bufferSpace.overwrite 0 buffer.bytes } := by
    refine ⟨?_, by rw [Host.service_next]; omega, writes⟩
    rw [Buffer.length_overwrite]
    exact inv.space
  have before : host.offered = host.service.reported .read := inv.whole (by simp [reading])
  rw [Connection.handle_read reading isRead whole, Connection.readHandler]
  by_cases success : operation.ec = .success
  · have all : 0 + operation.bytesTransferred = 64 := by
      rw [whole.transferred (by simp [isRead]) success]
    simp only [success, ne_eq, not_true_eq_false, ↓reduceIte, all]
    have later : Idle (host.next action) { peer with
        bufferSpace := peer.bufferSpace.overwrite 0 buffer.bytes
        receivedData := peer.receivedData + 64 } := ⟨idle.space, idle.reads, idle.writes⟩
    apply later.asyncWrite
    rw [Host.offered_next _ begins, Host.service_next, reported,
      operation.bytes_whole isRead whole success, before]
    exact congrArg _ (Buffer.overwrite_whole (length.trans inv.space.symm))
  · simp only [success, ne_eq, not_false_eq_true, ↓reduceIte]
    apply idle.close
    rw [Host.offered_next _ begins, Host.service_next, reported, before]
    exact List.prefix_append _ _

/-- The handler of a write begins the next read, or closes the stream. -/
theorem write (inv : PeerInv host peer) (begins : action.begins = none)
    (effect : host.service.Effect 64 action (some operation)) {buffer : Buffer}
    (isWrite : operation.op = .write buffer) :
    (host.next action).Continues (peer.handle operation).2
      fun last => PeerInv last (peer.handle operation).1 := by
  have whole := effect.whole operation rfl
  have reported := effect.reported .read
  have reads := effect.balance .read
  have writes := effect.balance .write
  simp only [Option.toList_some, List.flatMap_cons, List.flatMap_nil, List.append_nil, isWrite,
    Operation.want, reduceCtorEq, ↓reduceIte] at reported
  simp only [Option.toList_some, kinds_cons, Service.kinds_nil, isWrite, Operation.want,
    Service.beginning_none begins, ↓reduceIte, reduceCtorEq, inv.reads, inv.writes]
    at reads writes
  have writing : peer.phase = .writing 64 0 := by
    rcases inv.starting with phase | phase | phase | phase
    · simp only [Connection.writes, phase] at writes
      omega
    · simp only [Connection.writes, phase] at writes
      omega
    · exact phase
    · simp only [Connection.writes, phase] at writes
      omega
  simp only [Connection.reads, Connection.writes, writing] at reads writes
  have idle : Idle (host.next action) peer :=
    ⟨inv.space, reads, by rw [Host.service_next]; omega⟩
  have echoed : (host.next action).offered = (host.next action).service.reported .read := by
    rw [Host.offered_next _ begins, Host.service_next, reported]
    exact inv.whole (by simp [writing])
  rw [Connection.handle_write writing isWrite whole, Connection.writeHandler]
  by_cases success : operation.ec = .success
  · simp only [success, ne_eq, not_true_eq_false, ↓reduceIte]
    exact idle.asyncRead echoed
  · simp only [success, ne_eq, not_false_eq_true, ↓reduceIte]
    apply idle.close
    rw [echoed]

theorem handle (inv : PeerInv host peer) (begins : action.begins = none)
    (effect : host.service.Effect 64 action (some operation)) :
    (host.next action).Continues (peer.handle operation).2
      fun last => PeerInv last (peer.handle operation).1 := by
  cases isOp : operation.op with
  | read buffer => exact inv.read begins effect isOp
  | write buffer => exact inv.write begins effect isOp
  | close =>
      have nothing : peer.handle operation = (peer, []) := by
        simp only [Connection.handle, isOp]
      have reported := effect.reported .read
      have balance := effect.balance
      simp only [Option.toList_some, List.flatMap_cons, List.flatMap_nil, List.append_nil, isOp,
        Operation.want, reduceCtorEq, ↓reduceIte] at reported
      simp only [Option.toList_some, kinds_cons, Service.kinds_nil, isOp, Operation.want,
        Service.beginning_none begins] at balance
      have reads := balance .read
      have writes := balance .write
      simp only [reduceCtorEq, ↓reduceIte, Nat.add_zero] at reads writes
      rw [nothing]
      apply Host.Continues.none
      intro last transfers outstanding same offers
      have offered : last.offered = host.offered := offers.trans (host.offered_next begins)
      have still : last.service.reported .read = host.service.reported .read :=
        (same .read).trans reported
      refine ⟨transfers, inv.space, inv.starting, ?_, ?_, ?_, ?_⟩
      · rw [outstanding, Host.service_next, reads]
        exact inv.reads
      · rw [outstanding, Host.service_next, writes]
        exact inv.writes
      · rw [offered, still]
        exact inv.echoed
      · rw [offered, still]
        exact inv.whole

end PeerInv

end CurvecprAsio
