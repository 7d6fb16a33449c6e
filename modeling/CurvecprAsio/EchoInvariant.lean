import CurvecprAsio.EchoServer
import CurvecprAsio.EchoClient

set_option autoImplicit false

/- What the client example is sent back is what it has written. -/
namespace CurvecprAsio

open Strand Transition SearchTree

/-- The programs keep to what they are written for, and their hosts take the steps of two
io_services. -/
structure EchoInv (near far : Session) (echo : Echo) : Prop where
  reached : Reaches Hosts.next Hosts.Allowed (.between near far) echo.hosts
  client : ExampleInv echo.hosts.near echo.client []
  peer : PeerInv echo.hosts.far echo.peer

namespace EchoInv

variable {near far : Session} {echo : Echo}

/-- The client reads what it has written: the server's reads are given it, the server writes
what its reads were given, and the client's reads are given that. -/
theorem heard (freshNear : near.Fresh) (freshFar : far.Fresh)
    (smallNear : near.pendingMaximum < 2 ^ 31) (smallFar : far.pendingMaximum < 2 ^ 31)
    {hosts : Hosts} (reached : Reaches Hosts.next Hosts.Allowed (.between near far) hosts)
    (echoed : hosts.far.offered <+: hosts.far.service.reported .read) :
    hosts.near.service.reported .read <+: hosts.near.offered := by
  have forth := Hosts.reported_offered freshNear freshFar smallNear smallFar reached .near
  have back := Hosts.reported_offered freshNear freshFar smallNear smallFar reached .far
  exact (back.trans echoed).trans forth

theorem initial (freshNear : near.Fresh) (freshFar : far.Fresh) :
    EchoInv near far (.between near far) := by
  have idle : ∀ {session : Session}, session.Fresh →
      (Host.of session).service.Transfers 64 ∧
        ∀ what, kinds (Host.of session).service.outstanding what = 0 := by
    intro session fresh
    have none_ := fresh.operations
    refine ⟨⟨?_, ?_⟩, ?_⟩
    · intro operation member
      simp only [Host.of, none_] at member
      cases member
    · intro operation member
      cases member
    · intro what
      simp only [Host.of, Service.outstanding, none_, List.append_nil]
      rfl
  have ours := idle freshNear
  have theirs := idle freshFar
  refine ⟨.start, ?_, ?_⟩
  · refine ⟨ours.1, ?_, List.Pairwise.nil, List.length_replicate, fun written => absurd rfl written,
      Or.inl rfl, Or.inl rfl, fun _ => ⟨rfl, rfl⟩, ours.2 .read, ours.2 .write, ?_, rfl⟩
    · intro op member
      cases member
    · intro byte member
      cases member
  · exact ⟨theirs.1, List.length_replicate, Or.inl rfl, theirs.2 .read, theirs.2 .write,
      List.prefix_rfl, fun _ => rfl⟩

/-- What a handler begins is permitted, and leads where it is to lead. -/
theorem begins (freshNear : near.Fresh) (freshFar : far.Fresh) {hosts : Hosts}
    (reached : Reaches Hosts.next Hosts.Allowed (.between near far) hosts) {side : Side}
    {inside : Bool} {activity : List Callback} {ops : List Operation} {goal : Host → Prop}
    (transfers : (hosts.host side).service.Transfers 64)
    (continues : (hosts.host side).Continues ops goal)
    (environment : AllMet Hosts.next Hosts.Environment hosts
      (ops.map fun op => (side, op.begin inside activity))) :
    let later := (ops.map fun op => (side, op.begin inside activity)).foldl Hosts.next hosts
    Reaches Hosts.next Hosts.Allowed (.between near far) later ∧
      later.host side.other = hosts.host side.other ∧ goal (later.host side) := by
  intro later
  have inv := (Hosts.run freshNear freshFar reached).1
  obtain ⟨allowed, other, began⟩ := Hosts.begins inv transfers continues.sized continues.unused
    continues.apart environment
  exact ⟨reached.schedule _ allowed, other, continues.after _ began⟩

theorem connected (inv : EchoInv near far echo) (freshNear : near.Fresh) (freshFar : far.Fresh)
    (allowed : echo.Allowed .connected) : EchoInv near far (echo.next .connected) := by
  have connects := inv.client.connected allowed.1
  obtain ⟨reached, other, client⟩ := begins freshNear freshFar inv.reached
    (show (echo.hosts.host .near).service.Transfers 64 from inv.client.transfers)
    connects.continues allowed.2
  refine ⟨reached, client, ?_⟩
  have far_ : (echo.next .connected).hosts.far = echo.hosts.far := other
  rw [far_]
  exact inv.peer

theorem accepted (inv : EchoInv near far echo) (freshNear : near.Fresh) (freshFar : far.Fresh)
    (allowed : echo.Allowed .accepted) : EchoInv near far (echo.next .accepted) := by
  have accepting : echo.peer.phase = .accepting := allowed.1
  have reads := inv.peer.reads
  have writes := inv.peer.writes
  simp only [Connection.reads, Connection.writes, accepting] at reads writes
  have idle : PeerInv.Idle echo.hosts.far echo.peer := ⟨inv.peer.space, reads, writes⟩
  have echoed := inv.peer.whole (by simp [accepting])
  obtain ⟨reached, other, peer⟩ := begins freshNear freshFar inv.reached
    (show (echo.hosts.host .far).service.Transfers 64 from inv.peer.transfers)
    (idle.asyncRead echoed) allowed.2
  refine ⟨reached, ?_, peer⟩
  have near_ : (echo.next .accepted).hosts.near = echo.hosts.near := other
  rw [near_]
  exact inv.client

theorem stepped (inv : EchoInv near far echo) {side : Side} {action : ServiceAction}
    (begins : action.begins = none) (environment : echo.hosts.Environment (side, action)) :
    Reaches Hosts.next Hosts.Allowed (.between near far) (echo.hosts.next (side, action)) := by
  apply inv.reached.act
  refine ⟨environment, ?_⟩
  intro op member
  rw [begins] at member
  cases member

theorem near_step (inv : EchoInv near far echo) (freshNear : near.Fresh) (freshFar : far.Fresh)
    (smallNear : near.pendingMaximum < 2 ^ 31) (smallFar : far.pendingMaximum < 2 ^ 31)
    {action : ServiceAction} {activity : List Callback}
    (allowed : echo.Allowed (.step .near action activity)) :
    EchoInv near far (echo.next (.step .near action activity)) := by
  have unbegun : action.begins = none := allowed.1
  obtain ⟨environment, more⟩ := allowed.2
  have stepped := inv.stepped unbegun environment
  have hosts := (Hosts.run freshNear freshFar inv.reached).1
  obtain ⟨done, effect⟩ := (hosts .near).effect_unbegun inv.client.transfers unbegun
  have completion : echo.completion .near action = done := effect.completion
  cases done with
  | none =>
      have next : echo.next (.step .near action activity) =
          { echo with hosts := echo.hosts.next (.near, action) } := by
        simp [Echo.next, Echo.moves, Echo.react, completion]
      rw [next]
      exact ⟨stepped, inv.client.uncalled unbegun effect, inv.peer⟩
  | some operation =>
      have reacts : echo.react (.step .near action activity) =
          ((echo.client.handle operation).1, echo.peer, (echo.client.handle operation).2) := by
        simp only [Echo.react, completion]
      have heard : ∀ byte ∈ (echo.hosts.near.next action).service.reported .read,
          byte = 104 := by
        have prefix_ := EchoInv.heard freshNear freshFar smallNear smallFar stepped
          inv.peer.echoed
        have written := inv.client.offered
        rw [List.flatMap_nil, List.append_nil] at written
        intro byte member
        have inside := prefix_.subset member
        change byte ∈ (echo.hosts.near.next action).offered at inside
        rw [Host.offered_next _ unbegun] at inside
        exact written byte inside
      have answers := inv.client.handle unbegun effect heard
      rw [reacts] at more
      obtain ⟨reached, other, client⟩ := begins freshNear freshFar stepped
        (show ((echo.hosts.next (.near, action)).host .near).service.Transfers 64 from
          effect.transfers) answers.continues more
      have next : echo.next (.step .near action activity) = {
          hosts := ((echo.client.handle operation).2.map fun op =>
            (Side.near, op.begin action.inside activity)).foldl Hosts.next
              (echo.hosts.next (.near, action))
          client := (echo.client.handle operation).1
          peer := echo.peer } := by
        simp only [Echo.next, Echo.moves, reacts, List.foldl_cons]
      rw [next]
      refine ⟨reached, client, ?_⟩
      have far_ : (((echo.client.handle operation).2.map fun op =>
          (Side.near, op.begin action.inside activity)).foldl Hosts.next
            (echo.hosts.next (.near, action))).far = echo.hosts.far := other
      rw [far_]
      exact inv.peer

theorem far_step (inv : EchoInv near far echo) (freshNear : near.Fresh) (freshFar : far.Fresh)
    {action : ServiceAction} {activity : List Callback}
    (allowed : echo.Allowed (.step .far action activity)) :
    EchoInv near far (echo.next (.step .far action activity)) := by
  have unbegun : action.begins = none := allowed.1
  obtain ⟨environment, more⟩ := allowed.2
  have stepped := inv.stepped unbegun environment
  have hosts := (Hosts.run freshNear freshFar inv.reached).1
  obtain ⟨done, effect⟩ := (hosts .far).effect_unbegun inv.peer.transfers unbegun
  have completion : echo.completion .far action = done := effect.completion
  cases done with
  | none =>
      have next : echo.next (.step .far action activity) =
          { echo with hosts := echo.hosts.next (.far, action) } := by
        simp [Echo.next, Echo.moves, Echo.react, completion]
      rw [next]
      exact ⟨stepped, inv.client, inv.peer.uncalled unbegun effect⟩
  | some operation =>
      have reacts : echo.react (.step .far action activity) =
          (echo.client, (echo.peer.handle operation).1, (echo.peer.handle operation).2) := by
        simp only [Echo.react, completion]
      have answers := inv.peer.handle unbegun effect
      rw [reacts] at more
      obtain ⟨reached, other, peer⟩ := begins freshNear freshFar stepped
        (show ((echo.hosts.next (.far, action)).host .far).service.Transfers 64 from
          effect.transfers) answers more
      have next : echo.next (.step .far action activity) = {
          hosts := ((echo.peer.handle operation).2.map fun op =>
            (Side.far, op.begin action.inside activity)).foldl Hosts.next
              (echo.hosts.next (.far, action))
          client := echo.client
          peer := (echo.peer.handle operation).1 } := by
        simp only [Echo.next, Echo.moves, reacts, List.foldl_cons]
      rw [next]
      refine ⟨reached, ?_, peer⟩
      have near_ : (((echo.peer.handle operation).2.map fun op =>
          (Side.far, op.begin action.inside activity)).foldl Hosts.next
            (echo.hosts.next (.far, action))).near = echo.hosts.near := other
      rw [near_]
      exact inv.client

/-- One read and one write at most are under way on a stream. -/
theorem single (inv : EchoInv near far echo) (side : Side) :
    kinds (echo.hosts.host side).service.outstanding .read ≤ 1 ∧
      kinds (echo.hosts.host side).service.outstanding .write ≤ 1 := by
  cases side with
  | near =>
      have reads := inv.client.reads
      have writes := inv.client.writes
      have fewReads := echo.client.reads_le
      have fewWrites := echo.client.writes_le
      simp only [List.countP_nil] at reads writes
      simp only [Hosts.host]
      omega
  | far =>
      have fewReads := echo.peer.reads_le
      have fewWrites := echo.peer.writes_le
      simp only [Hosts.host, inv.peer.reads, inv.peer.writes]
      omega

theorem run (freshNear : near.Fresh) (freshFar : far.Fresh)
    (smallNear : near.pendingMaximum < 2 ^ 31) (smallFar : far.pendingMaximum < 2 ^ 31)
    (reached : Reaches Echo.next Echo.Allowed (.between near far) echo) : EchoInv near far echo := by
  apply reached.invariant (EchoInv.initial freshNear freshFar)
  intro state action inv allowed
  cases action with
  | connected => exact inv.connected freshNear freshFar allowed
  | accepted => exact inv.accepted freshNear freshFar allowed
  | step side action activity =>
      cases side with
      | near => exact inv.near_step freshNear freshFar smallNear smallFar allowed
      | far => exact inv.far_step freshNear freshFar allowed

end EchoInv

/-- Whatever the network, the timers and the threads do, the client example of the
repository and its server never have two reads or two writes under way on a stream, the
server writes what it has read and until it closes all of it, and the client is sent back
what it has written: it logs no warning. -/
theorem echo_comes_back {near far : Session} (freshNear : near.Fresh) (freshFar : far.Fresh)
    (smallNear : near.pendingMaximum < 2 ^ 31) (smallFar : far.pendingMaximum < 2 ^ 31)
    {echo : Echo} (reached : Reaches Echo.next Echo.Allowed (.between near far) echo) :
    Reaches Hosts.next Hosts.Allowed (.between near far) echo.hosts ∧
      (∀ side, kinds (echo.hosts.host side).service.outstanding .read ≤ 1 ∧
        kinds (echo.hosts.host side).service.outstanding .write ≤ 1) ∧
      echo.hosts.far.offered <+: echo.hosts.far.service.reported .read ∧
      (echo.peer.phase ≠ .closing →
        echo.hosts.far.offered = echo.hosts.far.service.reported .read) ∧
      echo.hosts.near.service.reported .read <+: echo.hosts.near.offered ∧
      echo.client.warnings = [] := by
  have inv := EchoInv.run freshNear freshFar smallNear smallFar reached
  have heard := EchoInv.heard freshNear freshFar smallNear smallFar inv.reached inv.peer.echoed
  exact ⟨inv.reached, inv.single, inv.peer.echoed, inv.peer.whole, heard, inv.client.unwarned⟩

/-- 64 bytes go to the server and back. -/
theorem echo_comes_back_once :
    let block : Block := { id := 1, clock := 1, data := List.replicate 64 104 }
    let sends : List Callback := [.sendqHead, .stampHead 1 1 0, .sendqMoveToSendmarkq .id]
    let exchange : List EchoAction :=
      [.connected, .accepted, .step .far (.run 0 []) [], .step .near (.runPosted 0) [],
        .step .near (.receive sends) [], .step .far (.receive [.recvmarkqPut block]) [],
        .step .far (.run 0 []) [], .step .far (.receive sends) [],
        .step .near (.receive [.recvmarkqPut block]) [], .step .near (.run 1 []) []]
    let echo := exchange.foldl Echo.next
      (.between { pendingMaximum := 64 } { pendingMaximum := 64 })
    echo.client.warnings = [] ∧ echo.client.receivedData = 64 ∧ echo.client.sentData = 64 := by
  intro block sends exchange echo
  have reached : Reaches Echo.next Echo.Allowed
      (.between { pendingMaximum := 64 } { pendingMaximum := 64 }) echo :=
    Reaches.start.schedule _ (by decide +kernel)
  have comes := echo_comes_back (Session.fresh_configured _ _ _) (Session.fresh_configured _ _ _)
    (by decide) (by decide) reached
  exact ⟨comes.2.2.2.2.2, by decide +kernel, by decide +kernel⟩

end CurvecprAsio
