import CurvecprAsio.HostInvariant

set_option autoImplicit false

/- Two io_services that talk over a network that may drop, duplicate, delay and reorder
blocks, and what their users see of it: the completion handlers. -/
namespace CurvecprAsio

open Strand Transition SearchTree

structure Hosts where
  near : Host
  far : Host
  deriving DecidableEq, Repr

/-- A host whose session has just been constructed. -/
def Host.of (session : Session) : Host where
  service := { session := session }
  party := { session := session }

namespace Hosts

def host (hosts : Hosts) : Side → Host
  | .near => hosts.near
  | .far => hosts.far

def between (near far : Session) : Hosts where
  near := .of near
  far := .of far

def next (hosts : Hosts) : Side × ServiceAction → Hosts
  | (.near, action) => { hosts with near := hosts.near.next action }
  | (.far, action) => { hosts with far := hosts.far.next action }

def Allowed (hosts : Hosts) (action : Side × ServiceAction) : Prop :=
  (hosts.host action.1).Allowed (hosts.host action.1.other).party.wire action.2

instance (hosts : Hosts) (action : Side × ServiceAction) : Decidable (hosts.Allowed action) :=
  inferInstanceAs (Decidable ((hosts.host action.1).Allowed
    (hosts.host action.1.other).party.wire action.2))

/-- The conversation that the two hold. -/
def conversation (hosts : Hosts) : Conversation where
  near := hosts.near.party
  far := hosts.far.party

theorem party_conversation (hosts : Hosts) (side : Side) :
    hosts.conversation.party side = (hosts.host side).party := by
  cases side <;> rfl

theorem conversation_next (hosts : Hosts) (side : Side) (action : ServiceAction) :
    (hosts.next (side, action)).conversation =
      (((hosts.host side).service.steps action).map (Prod.mk side)).foldl Conversation.next
        hosts.conversation := by
  have steps : ∀ (pieces : List PartyAction) (conversation : Conversation),
      (pieces.map (Prod.mk side)).foldl Conversation.next conversation = match side with
        | .near => { conversation with near := pieces.foldl Party.next conversation.near }
        | .far => { conversation with far := pieces.foldl Party.next conversation.far } := by
    intro pieces
    induction pieces with
    | nil =>
        intro conversation
        cases side <;> rfl
    | cons piece rest ih =>
        intro conversation
        rw [List.map_cons, List.foldl_cons, ih]
        cases side <;> rfl
  rw [steps]
  cases side <;> rfl

end Hosts

/-- What one party may do alone, it may do in the conversation. -/
theorem Conversation.reaches_steps {conversation : Conversation} {side : Side}
    {pieces : List PartyAction}
    (met : AllMet Party.next (Party.Allowed (conversation.party side.other).wire)
      (conversation.party side) pieces) :
    Reaches next Allowed conversation ((pieces.map (Prod.mk side)).foldl next conversation) := by
  apply Reaches.start.schedule
  induction pieces generalizing conversation with
  | nil => trivial
  | cons piece rest ih =>
      refine ⟨met.1, ?_⟩
      apply ih
      rw [party_next, party_next_other]
      exact met.2

theorem HostInv.initial {session : Session} (fresh : session.Fresh) : HostInv (.of session) := by
  have none_ := fresh.operations
  refine ⟨rfl, ?_, ?_, ?_, ⟨⟨?_, fun _ => rfl⟩, ?_, ?_⟩, ⟨⟨?_, fun _ => rfl⟩, ?_, ?_, ?_⟩⟩
  · intro operation member
    simp only [Host.of, none_] at member
    cases member
  · intro operation member
    cases member
  · intro what _
    simp only [Host.of, Service.outstanding, none_, List.append_nil]
    exact Nat.zero_le _
  · intro operation member
    cases member
  · intro held outstanding
    cases outstanding
  · intro operation member
    cases member
  · intro operation member
    cases member
  · exact List.prefix_rfl
  · intro _ operation member
    simp only [Host.of, none_] at member
    cases member
  · exact fun _ _ => rfl

/-- Where no operation of the kind is posted, its completion handlers were told of all the
bytes, and else of those before that operation's. -/
theorem Reports.reported {service : Service} {what : Want} {bytes : List UInt8}
    (reports : Reports service what bytes) : service.reported what <+: bytes := by
  by_cases none_ : ∀ operation ∈ service.posted, operation.op.want ≠ what
  · rw [reports.given none_]
  · obtain ⟨operation, member, isKind⟩ : ∃ operation ∈ service.posted,
        operation.op.want = what := by
      simpa using none_
    rw [← reports.posted operation member isKind]
    exact List.prefix_append _ _

theorem Hosts.run {near far : Session} {hosts : Hosts} (freshNear : near.Fresh)
    (freshFar : far.Fresh) (reached : Reaches next Allowed (.between near far) hosts) :
    (∀ side, HostInv (hosts.host side)) ∧
      Reaches Conversation.next Conversation.Allowed (.between near far) hosts.conversation := by
  apply reached.simulates (fun state => ∀ side, HostInv (state.host side)) conversation
  · intro side
    cases side
    · exact .initial freshNear
    · exact .initial freshFar
  · intro hosts action inv allowed
    obtain ⟨side, action⟩ := action
    constructor
    · intro other
      cases side <;> cases other
      · exact (inv .near).next allowed
      · exact inv .far
      · exact inv .near
      · exact (inv .far).next allowed
    · rw [hosts.conversation_next side action]
      apply Conversation.reaches_steps
      rw [hosts.party_conversation, hosts.party_conversation]
      exact (inv side).permitted allowed

/-- Whatever two io_services do, in whichever order they run the handlers of their strands,
their sessions take the steps of a conversation. -/
theorem hosts_refine_conversation {near far : Session} {hosts : Hosts} (freshNear : near.Fresh)
    (freshFar : far.Fresh)
    (reached : Reaches Hosts.next Hosts.Allowed (.between near far) hosts) :
    Reaches Conversation.next Conversation.Allowed (.between near far) hosts.conversation ∧
      ∀ side, (hosts.conversation.party side).session = (hosts.host side).service.session := by
  obtain ⟨inv, conversing⟩ := Hosts.run freshNear freshFar reached
  refine ⟨conversing, fun side => ?_⟩
  rw [hosts.party_conversation]
  exact (inv side).session

/-- A read that waits on the far side is run again once a block has arrived. -/
theorem hosts_refine_conversation_waiting :
    let start := Hosts.between { pendingMaximum := 4 } { pendingMaximum := 4 }
    let exchange : List (Side × ServiceAction) :=
      [(.far, .beginOutside 1 (.read ⟨[0], by decide⟩)), (.far, .run 0 []),
        (.near, .beginInside 1 (.write ⟨[7], by decide⟩) []),
        (.near, .receive [.sendqHead, .stampHead 1 1 0, .sendqMoveToSendmarkq .id]),
        (.far, .receive [.recvmarkqPut { id := 1, clock := 1, data := [7] }]), (.far, .run 0 [])]
    let hosts := exchange.foldl Hosts.next start
    Reaches Conversation.next Conversation.Allowed
        (.between { pendingMaximum := 4 } { pendingMaximum := 4 }) hosts.conversation ∧
      hosts.far.service.completed.length = 1 := by
  intro start exchange hosts
  have reached : Reaches Hosts.next Hosts.Allowed start hosts :=
    Reaches.start.schedule _ (by decide)
  have refines := hosts_refine_conversation (Session.fresh_configured _ _ _)
    (Session.fresh_configured _ _ _) reached
  exact ⟨refines.1, by decide⟩

theorem Hosts.channel {near far : Session} {hosts : Hosts} (freshNear : near.Fresh)
    (freshFar : far.Fresh) (smallNear : near.pendingMaximum < 2 ^ 31)
    (smallFar : far.pendingMaximum < 2 ^ 31)
    (reached : Reaches Hosts.next Hosts.Allowed (.between near far) hosts) (side : Side) :
    Channel.Inv ((hosts.host side).party.channelTo (hosts.host side.other).party) := by
  have conversing := (Hosts.run freshNear freshFar reached).2
  obtain ⟨_, follows⟩ :=
    (ConversationInv.initial freshNear freshFar smallNear smallFar).run conversing side
  rw [Conversation.channel_between freshNear freshFar] at follows
  have channel := Channel.Inv.initial.follows follows
  simp only [Conversation.channel, hosts.party_conversation] at channel
  exact channel

/-- What the completion handlers of reads were told is a beginning of what was delivered, and
that of what the other side's user has written. -/
theorem Hosts.reported_offered {near far : Session} {hosts : Hosts} (freshNear : near.Fresh)
    (freshFar : far.Fresh) (smallNear : near.pendingMaximum < 2 ^ 31)
    (smallFar : far.pendingMaximum < 2 ^ 31)
    (reached : Reaches Hosts.next Hosts.Allowed (.between near far) hosts) (side : Side) :
    (hosts.host side.other).service.reported .read <+: (hosts.host side).offered := by
  have inv := (Hosts.run freshNear freshFar reached).1
  have channel := Hosts.channel freshNear freshFar smallNear smallFar reached side
  exact ((inv side.other).reads.reports.reported.trans channel.taken).trans
    (inv side).writes.accepted

/-- The completion handlers of one side's reads are given a beginning of what the user of
the other side has written. Once one of them was told the end, no read is under way and
nobody has closed this side, they have been given every byte that the other side's
completion handlers of writes were told of. -/
theorem hosts_deliver {near far : Session} {hosts : Hosts} (freshNear : near.Fresh)
    (freshFar : far.Fresh) (smallNear : near.pendingMaximum < 2 ^ 31)
    (smallFar : far.pendingMaximum < 2 ^ 31)
    (reached : Reaches Hosts.next Hosts.Allowed (.between near far) hosts) (side : Side) :
    (hosts.host side.other).service.reported .read <+: (hosts.host side).offered ∧
      ((∃ operation ∈ (hosts.host side.other).service.completed,
          operation.op.want = .read ∧ operation.ec = .eof) →
        (∀ operation ∈ (hosts.host side.other).service.outstanding, operation.op.want ≠ .read) →
        (hosts.host side.other).service.session.pendingClose = false →
        (hosts.host side.other).party.finished = false →
          (hosts.host side).service.reported .write <+:
            (hosts.host side.other).service.reported .read) := by
  have inv := (Hosts.run freshNear freshFar reached).1
  have channel := Hosts.channel freshNear freshFar smallNear smallFar reached side
  have reads := (inv side.other).reads
  have writes := (inv side).writes
  constructor
  · exact Hosts.reported_offered freshNear freshFar smallNear smallFar reached side
  · rintro ⟨operation, member, isRead, eof⟩ idle unclosed takesPart
    have ending := reads.ended operation (List.mem_append_right _ member) isRead eof
    rw [Party.ending, (inv side.other).session, unclosed, takesPart, Bool.or_false,
      Bool.or_false] at ending
    have all := (channel.told ending).2
    rw [reads.reports.given fun other posted => idle other (List.mem_append_right _ posted)]
    rw [show (hosts.host side.other).party.delivered = (hosts.host side).party.accepted from all]
    exact writes.reports.reported

/-- Two bytes are written, the stream is closed behind them, and the far side reads both
and the end. -/
theorem hosts_deliver_exchange :
    let start := Hosts.between { pendingMaximum := 4 } { pendingMaximum := 4 }
    let exchange : List (Side × ServiceAction) :=
      [(.near, .start), (.near, .beginInside 1 (.write ⟨[1, 2], by decide⟩) []),
        (.near, .runPosted 0),
        (.near, .beginInside 2 .close [.sendqHead, .stampHead 1 1 0, .sendqMoveToSendmarkq .id]),
        (.far, .receive [.recvmarkqPut
          { id := 1, clock := 1, eof := .eofSuccess, data := [1, 2] }]),
        (.far, .beginInside 1 (.read ⟨[0, 0, 0, 0], by decide⟩) []), (.far, .runPosted 0)]
    let hosts := exchange.foldl Hosts.next start
    hosts.far.service.reported .read <+: [1, 2] ∧
      [1, 2] <+: hosts.far.service.reported .read := by
  intro start exchange hosts
  have reached : Reaches Hosts.next Hosts.Allowed start hosts :=
    Reaches.start.schedule _ (by decide)
  have deliver := hosts_deliver (Session.fresh_configured _ _ _) (Session.fresh_configured _ _ _)
    (by decide) (by decide) reached .near
  have offered : (hosts.host .near).offered = [1, 2] := by decide
  have reported : (hosts.host .near).service.reported .write = [1, 2] := by decide
  rw [offered, reported] at deliver
  exact ⟨deliver.1, deliver.2 (by decide) (by decide) (by decide) (by decide)⟩

end CurvecprAsio
