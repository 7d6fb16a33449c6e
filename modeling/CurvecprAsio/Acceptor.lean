import CurvecprAsio.CloseOnce

set_option autoImplicit false

/- The acceptor's registry of sessions, and the sessions it has made. -/
namespace CurvecprAsio

open Strand Transition

universe u

/-- A session that `handle_put_session` has made, with the key its close handler
was given. -/
structure Peer (κ : Type u) where
  theirSessionPk : κ
  service : Service
  deriving DecidableEq, Repr

/-- `curvecp::detail::acceptor`. A session is known by its place in `peers`, the
record of all sessions made. -/
structure Acceptor (κ : Type u) where
  maximumPendingSessions : Nat := 16
  pendingSessions : List Nat := []
  sessions : κ → Option Nat := fun _ => none
  peers : List (Peer κ) := []

inductive AcceptorAction (κ : Type u) where
  | putSession (key : κ)
  | accept
  | session (id : Nat) (action : ServiceAction)

namespace Acceptor

variable {κ : Type u} [DecidableEq κ]

/-- `acceptor::handle_get_session`. -/
def handleGetSession (acceptor : Acceptor κ) (key : κ) : Option Nat := acceptor.sessions key

/-- `acceptor::handle_put_session`; a std::unordered_map insertion leaves an
element that has the key. -/
def handlePutSession (acceptor : Acceptor κ) (key : κ) : Acceptor κ × Nat :=
  if acceptor.maximumPendingSessions ≤ acceptor.pendingSessions.length then (acceptor, 1)
  else
    let id := acceptor.peers.length
    ({ acceptor with
      peers := acceptor.peers ++ [{ theirSessionPk := key, service := { session := {} } }]
      sessions :=
        if acceptor.sessions key = none then Function.update acceptor.sessions key (some id)
        else acceptor.sessions
      pendingSessions := acceptor.pendingSessions ++ [id] }, 0)

/-- `acceptor::accept`. The acceptor is not on the session's strand. -/
def accept (acceptor : Acceptor κ) : Acceptor κ × Bool :=
  match acceptor.pendingSessions with
  | [] => (acceptor, false)
  | id :: rest =>
      ({ acceptor with
        pendingSessions := rest
        peers := acceptor.peers.modify id fun peer =>
          { peer with service := peer.service.next .start } }, true)

/-- `acceptor::handle_session_close`. -/
def handleSessionClose (acceptor : Acceptor κ) (sessionKey : κ) : Acceptor κ :=
  { acceptor with sessions := Function.update acceptor.sessions sessionKey none }

/-- A step of one session; its close handler takes the acceptor's mutex. -/
def session (acceptor : Acceptor κ) (id : Nat) (action : ServiceAction) : Acceptor κ :=
  match acceptor.peers[id]? with
  | none => acceptor
  | some peer =>
      let later := peer.service.next action
      let stepped := { acceptor with
        peers := acceptor.peers.set id { peer with service := later } }
      if peer.service.session.closeHandlerCalls < later.session.closeHandlerCalls then
        stepped.handleSessionClose peer.theirSessionPk
      else stepped

def next (acceptor : Acceptor κ) : AcceptorAction κ → Acceptor κ
  | .putSession key => (acceptor.handlePutSession key).1
  | .accept => acceptor.accept.1
  | .session id action => acceptor.session id action

/-- libcurvecpr puts a session when it has found none for the key. A session has
no stream until it is accepted; until then it can only be sent messages. -/
def possible (acceptor : Acceptor κ) : AcceptorAction κ → Guard
  | .putSession key => .of (acceptor.handleGetSession key = none)
  | .session id action => .of (∃ peer ∈ acceptor.peers[id]?, peer.service.Possible action ∧
      action.starts = false ∧ (id ∈ acceptor.pendingSessions → action.receives = true))
  | _ => .free

abbrev Possible (acceptor : Acceptor κ) (action : AcceptorAction κ) : Prop :=
  (acceptor.possible action).holds

/-- No session that does not run takes a closing step while another session is
registered under its key. -/
def SparesOthers (acceptor : Acceptor κ) (action : AcceptorAction κ) : Prop :=
  acceptor.Possible action ∧
    match action with
    | .session id step => ∀ peer ∈ acceptor.peers[id]?, peer.service.Closes step = true →
        peer.service.session.running = true ∨
          ∀ other ∈ acceptor.sessions peer.theirSessionPk, other = id
    | _ => True

instance (acceptor : Acceptor κ) :
    (action : AcceptorAction κ) → Decidable (acceptor.SparesOthers action)
  | .putSession key =>
      inferInstanceAs (Decidable (acceptor.Possible (.putSession key) ∧ True))
  | .accept => inferInstanceAs (Decidable (acceptor.Possible .accept ∧ True))
  | .session id step =>
      inferInstanceAs (Decidable (acceptor.Possible (.session id step) ∧
        ∀ peer ∈ acceptor.peers[id]?, peer.service.Closes step = true →
          peer.service.session.running = true ∨
            ∀ other ∈ acceptor.sessions peer.theirSessionPk, other = id))

/-- Every session is found under its key from its put until its own close handler
is called. -/
def Matches (acceptor : Acceptor κ) : Prop :=
  ∀ id peer, acceptor.peers[id]? = some peer → peer.service.session.closeHandlerCalls = 0 →
    acceptor.handleGetSession peer.theirSessionPk = some id

theorem length_peers_session (acceptor : Acceptor κ) (id : Nat) (action : ServiceAction) :
    (acceptor.session id action).peers.length = acceptor.peers.length := by
  unfold Acceptor.session
  split
  · rfl
  · dsimp only
    split <;> exact List.length_set

omit [DecidableEq κ] in
theorem length_peers_accept (acceptor : Acceptor κ) :
    acceptor.accept.1.peers.length = acceptor.peers.length := by
  unfold accept
  split
  · rfl
  · exact List.length_modify _ _ _

end Acceptor

/-- A session before its `start`. -/
structure IdleInv (service : Service) : Prop where
  close : service.session.CloseInv
  posted : service.posted = []
  accounted : service.tickets.Perm service.begun
  stopped : service.session.running = false
  calls : service.session.closeHandlerCalls = 0
  callsAtStart : service.callsAtStart = 0

namespace IdleInv

variable {service : Service}

theorem initial : IdleInv { session := {} } where
  close := (Session.fresh_configured _ _ _).closeInv
  posted := rfl
  accounted := List.Perm.refl _
  stopped := rfl
  calls := rfl
  callsAtStart := rfl

theorem receive (inv : IdleInv service) (activity : List Callback) :
    IdleInv (service.next (.receive activity)) := by
  have spared := service.session.spared_callbacks activity
  constructor
  · exact inv.close.spared spared
  · exact inv.posted
  · exact Service.tickets_next (.receive activity) inv.accounted
  · exact spared.running.trans inv.stopped
  · exact spared.closeHandlerCalls.trans inv.calls
  · exact inv.callsAtStart

theorem start (inv : IdleInv service) : ServiceInv (service.next .start) where
  close := Service.closeInv_start inv.close
  posted := by
    intro operation member
    rw [show (service.next .start).posted = service.posted from rfl, inv.posted] at member
    cases member
  accounted := Service.tickets_next .start inv.accounted
  counted := Nat.le_refl _
  running := fun _ => rfl
  stopped := by
    intro stopped
    cases stopped

end IdleInv

/-- What holds in every run of an acceptor. -/
structure AcceptorInv {κ : Type u} [DecidableEq κ] (acceptor : Acceptor κ) : Prop where
  once : acceptor.pendingSessions.Nodup
  made : ∀ id ∈ acceptor.pendingSessions, id < acceptor.peers.length
  pending : ∀ id peer, acceptor.peers[id]? = some peer → id ∈ acceptor.pendingSessions →
    IdleInv peer.service
  accepted : ∀ id peer, acceptor.peers[id]? = some peer → id ∉ acceptor.pendingSessions →
    ServiceInv peer.service ∧ peer.service.callsAtStart = 0
  registered : ∀ key id, acceptor.sessions key = some id → ∃ peer,
    acceptor.peers[id]? = some peer ∧ peer.theirSessionPk = key ∧
      peer.service.session.closeHandlerCalls = 0

theorem set_cases {α : Type u} {items : List α} {id other : Nat} {old item found : α}
    (located : items[id]? = some old) (atOther : (items.set id item)[other]? = some found) :
    (other = id ∧ found = item) ∨ (other ≠ id ∧ items[other]? = some found) := by
  by_cases same : other = id
  · rw [same, List.getElem?_set_self (List.getElem?_eq_some_iff.mp located).1] at atOther
    exact Or.inl ⟨same, (Option.some.inj atOther).symm⟩
  · rw [List.getElem?_set_ne (Ne.symm same)] at atOther
    exact Or.inr ⟨same, atOther⟩

theorem append_cases {α : Type u} {items : List α} {other : Nat} {item found : α}
    (atOther : (items ++ [item])[other]? = some found) :
    (other = items.length ∧ found = item) ∨ items[other]? = some found := by
  rw [List.getElem?_append] at atOther
  split at atOther
  · exact Or.inr atOther
  · rename_i beyond
    have first : other - items.length = 0 := by
      have inside := (List.getElem?_eq_some_iff.mp atOther).1
      simp only [List.length_singleton] at inside
      omega
    rw [first] at atOther
    exact Or.inl ⟨by omega, (Option.some.inj atOther).symm⟩

/-- One step of one session, as the acceptor sees it. -/
structure PeerStep {κ : Type u} (acceptor : Acceptor κ) (id : Nat) (action : ServiceAction)
    (peer : Peer κ) : Prop where
  located : acceptor.peers[id]? = some peer
  notifies : Service.Notifies peer.service (peer.service.next action)
    (peer.service.Closes action)
  pending : id ∈ acceptor.pendingSessions → IdleInv (peer.service.next action)
  accepted : id ∉ acceptor.pendingSessions → ServiceInv (peer.service.next action)

namespace AcceptorInv

variable {κ : Type u} [DecidableEq κ] {acceptor : Acceptor κ}

theorem initial (maximum : Nat) :
    AcceptorInv ({ maximumPendingSessions := maximum } : Acceptor κ) where
  once := List.nodup_nil
  made := by
    intro id member
    cases member
  pending := by
    intro id peer located
    cases located
  accepted := by
    intro id peer located
    cases located
  registered := by
    intro key id stored
    cases stored

theorem peerStep (inv : AcceptorInv acceptor) {id : Nat} {action : ServiceAction}
    (possible : acceptor.Possible (.session id action)) :
    ∃ peer, PeerStep acceptor id action peer := by
  obtain ⟨peer, located, _, starts, receives⟩ := possible
  by_cases waits : id ∈ acceptor.pendingSessions
  · have idle := inv.pending id peer located waits
    obtain ⟨activity, rfl⟩ := ServiceAction.receives_cases (receives waits)
    refine ⟨peer, located, ?_, fun _ => idle.receive activity, fun other => absurd waits other⟩
    exact .of_silent rfl (peer.service.session.silent_callbacks activity)
  · have started := (inv.accepted id peer located waits).1
    exact ⟨peer, located, started.notifies action starts, fun other => absurd other waits,
      fun _ => started.next action⟩

/-- A session that takes a step without a call of its close handler stays registered. -/
theorem registered_set (inv : AcceptorInv acceptor) {id : Nat} {peer : Peer κ}
    {service : Service} (located : acceptor.peers[id]? = some peer)
    (silent : service.session.closeHandlerCalls = peer.service.session.closeHandlerCalls)
    (key : κ) (other : Nat) (stored : acceptor.sessions key = some other) :
    ∃ found, (acceptor.peers.set id { peer with service := service })[other]? = some found ∧
      found.theirSessionPk = key ∧ found.service.session.closeHandlerCalls = 0 := by
  obtain ⟨found, atOther, sameKey, calls⟩ := inv.registered key other stored
  by_cases same : other = id
  · subst same
    cases located.symm.trans atOther
    have inside := (List.getElem?_eq_some_iff.mp located).1
    exact ⟨_, List.getElem?_set_self inside, sameKey, silent.trans calls⟩
  · exact ⟨found, (List.getElem?_set_ne (Ne.symm same)).trans atOther, sameKey, calls⟩

theorem session_cases {id : Nat} {action : ServiceAction} {peer : Peer κ}
    (step : PeerStep acceptor id action peer) :
    (peer.service.session.Silent (peer.service.next action).session ∧
        acceptor.next (.session id action) = { acceptor with
          peers := acceptor.peers.set id { peer with service := peer.service.next action } }) ∨
      (peer.service.session.Notified (peer.service.next action).session ∧
        acceptor.next (.session id action) = { acceptor with
          peers := acceptor.peers.set id { peer with service := peer.service.next action }
          sessions := Function.update acceptor.sessions peer.theirSessionPk none }) := by
  rcases step.notifies.once with silent | notified
  · left
    refine ⟨silent, ?_⟩
    simp [Acceptor.next, Acceptor.session, step.located, silent.2]
  · right
    refine ⟨notified, ?_⟩
    simp [Acceptor.next, Acceptor.session, step.located, notified.2, Acceptor.handleSessionClose]

theorem session (inv : AcceptorInv acceptor) {id : Nat} {action : ServiceAction}
    (possible : acceptor.Possible (.session id action)) :
    AcceptorInv (acceptor.next (.session id action)) := by
  obtain ⟨peer, step⟩ := inv.peerStep possible
  have pending : ∀ other found, (acceptor.peers.set id
      { peer with service := peer.service.next action })[other]? = some found →
      other ∈ acceptor.pendingSessions → IdleInv found.service := by
    intro other found atOther waits
    rcases set_cases step.located atOther with ⟨rfl, rfl⟩ | ⟨_, old⟩
    · exact step.pending waits
    · exact inv.pending other found old waits
  have accepted : ∀ other found, (acceptor.peers.set id
      { peer with service := peer.service.next action })[other]? = some found →
      other ∉ acceptor.pendingSessions →
        ServiceInv found.service ∧ found.service.callsAtStart = 0 := by
    intro other found atOther left
    rcases set_cases step.located atOther with ⟨rfl, rfl⟩ | ⟨_, old⟩
    · exact ⟨step.accepted left, step.notifies.callsAtStart.trans
        (inv.accepted _ peer step.located left).2⟩
    · exact inv.accepted other found old left
  rcases session_cases step with ⟨silent, result⟩ | ⟨notified, result⟩
  · rw [result]
    refine ⟨inv.once, ?_, pending, accepted, ?_⟩
    · intro other waits
      rw [List.length_set]
      exact inv.made other waits
    · exact inv.registered_set step.located silent.2
  · rw [result]
    refine ⟨inv.once, ?_, pending, accepted, ?_⟩
    · intro other waits
      rw [List.length_set]
      exact inv.made other waits
    · intro key other stored
      by_cases erased : key = peer.theirSessionPk
      · rw [erased] at stored
        simp at stored
      · have before : acceptor.sessions key = some other := by
          simpa [Function.update_of_ne erased] using stored
        obtain ⟨found, atOther, sameKey, calls⟩ := inv.registered key other before
        have apart : other ≠ id := by
          intro same
          subst same
          cases step.located.symm.trans atOther
          exact erased sameKey.symm
        exact ⟨found, (List.getElem?_set_ne (Ne.symm apart)).trans atOther, sameKey, calls⟩

theorem put_cases {key : κ} (unknown : acceptor.handleGetSession key = none) :
    acceptor.next (.putSession key) = acceptor ∨
      acceptor.next (.putSession key) = { acceptor with
        peers := acceptor.peers ++ [{ theirSessionPk := key, service := { session := {} } }]
        sessions := Function.update acceptor.sessions key (some acceptor.peers.length)
        pendingSessions := acceptor.pendingSessions ++ [acceptor.peers.length] } := by
  simp only [Acceptor.next, Acceptor.handlePutSession]
  split
  · exact Or.inl rfl
  · right
    have empty : acceptor.sessions key = none := unknown
    simp only [empty, ↓reduceIte]

theorem put (inv : AcceptorInv acceptor) {key : κ}
    (unknown : acceptor.handleGetSession key = none) :
    AcceptorInv (acceptor.next (.putSession key)) := by
  have fresh : acceptor.peers.length ∉ acceptor.pendingSessions := fun member =>
    Nat.lt_irrefl _ (inv.made _ member)
  rcases put_cases unknown with result | result
  · rw [result]
    exact inv
  · rw [result]
    constructor
    · apply ((List.perm_append_singleton _ _).nodup_iff).mpr
      exact List.nodup_cons.mpr ⟨fresh, inv.once⟩
    · intro id member
      rw [List.length_append, List.length_singleton]
      rcases List.mem_append.mp member with old | new
      · have bound := inv.made id old
        omega
      · rw [List.mem_singleton.mp new]
        omega
    · intro id peer located waits
      rcases append_cases located with ⟨rfl, rfl⟩ | old
      · exact IdleInv.initial
      · rcases List.mem_append.mp waits with before | new
        · exact inv.pending id peer old before
        · rw [List.mem_singleton.mp new] at old
          exact absurd (List.getElem?_eq_some_iff.mp old).1 (Nat.lt_irrefl _)
    · intro id peer located left
      rcases append_cases located with ⟨rfl, rfl⟩ | old
      · exact absurd (List.mem_append_right _ (List.mem_singleton_self _)) left
      · exact inv.accepted id peer old fun before => left (List.mem_append_left _ before)
    · intro other id stored
      dsimp only at stored
      by_cases same : other = key
      · rw [same, Function.update_self] at stored
        cases stored
        exact ⟨_, List.getElem?_concat_length, same.symm, rfl⟩
      · rw [Function.update_of_ne same] at stored
        obtain ⟨peer, located, sameKey, calls⟩ := inv.registered other id stored
        have inside := (List.getElem?_eq_some_iff.mp located).1
        exact ⟨peer, (List.getElem?_append_left inside).trans located, sameKey, calls⟩

theorem accept_cases (inv : AcceptorInv acceptor) :
    acceptor.next .accept = acceptor ∨ ∃ id rest peer,
      acceptor.pendingSessions = id :: rest ∧ acceptor.peers[id]? = some peer ∧
      acceptor.next .accept = { acceptor with
        pendingSessions := rest
        peers := acceptor.peers.set id
          { peer with service := peer.service.next .start } } := by
  simp only [Acceptor.next, Acceptor.accept]
  split
  · exact Or.inl rfl
  · rename_i id rest queue
    have inside : id < acceptor.peers.length := inv.made id (by rw [queue]; exact List.mem_cons_self)
    refine Or.inr ⟨id, rest, acceptor.peers[id], queue, List.getElem?_eq_getElem inside, ?_⟩
    rw [List.modify_eq_set_getElem?]
    simp [List.getElem?_eq_getElem inside]

theorem accept (inv : AcceptorInv acceptor) : AcceptorInv (acceptor.next .accept) := by
  rcases inv.accept_cases with result | ⟨id, rest, peer, queue, located, result⟩
  · rw [result]
    exact inv
  · rw [result]
    have idle := inv.pending id peer located (by rw [queue]; exact List.mem_cons_self)
    have once := inv.once
    rw [queue] at once
    obtain ⟨gone, once⟩ := List.nodup_cons.mp once
    have before : ∀ other ∈ rest, other ∈ acceptor.pendingSessions := by
      intro other member
      rw [queue]
      exact List.mem_cons_of_mem _ member
    constructor
    · exact once
    · intro other member
      rw [List.length_set]
      exact inv.made other (before other member)
    · intro other found atOther waits
      rcases set_cases located atOther with ⟨rfl, _⟩ | ⟨_, old⟩
      · exact absurd waits gone
      · exact inv.pending other found old (before other waits)
    · intro other found atOther left
      rcases set_cases located atOther with ⟨rfl, rfl⟩ | ⟨apart, old⟩
      · exact ⟨idle.start, idle.calls⟩
      · apply inv.accepted other found old
        rw [queue]
        intro member
        rcases List.mem_cons.mp member with same | waits
        · exact apart same
        · exact left waits
    · have silent : (peer.service.next .start).session.closeHandlerCalls =
          peer.service.session.closeHandlerCalls := rfl
      exact inv.registered_set located silent

theorem next (inv : AcceptorInv acceptor) (action : AcceptorAction κ)
    (possible : acceptor.Possible action) : AcceptorInv (acceptor.next action) := by
  cases action with
  | putSession key => exact inv.put possible
  | accept => exact inv.accept
  | session id action => exact inv.session possible

/-- The session a step belongs to is registered while it runs. -/
theorem running_calls (inv : AcceptorInv acceptor) {id : Nat} {peer : Peer κ}
    (located : acceptor.peers[id]? = some peer)
    (running : peer.service.session.running = true) :
    peer.service.session.closeHandlerCalls = 0 := by
  by_cases waits : id ∈ acceptor.pendingSessions
  · exact (inv.pending id peer located waits).calls
  · obtain ⟨started, first⟩ := inv.accepted id peer located waits
    exact (started.running running).trans first

theorem matches_put {key : κ} (holds : acceptor.Matches)
    (unknown : acceptor.handleGetSession key = none) :
    (acceptor.next (.putSession key)).Matches := by
  rcases put_cases unknown with result | result
  · rw [result]
    exact holds
  · rw [result]
    intro id peer located calls
    simp only [Acceptor.handleGetSession]
    rcases append_cases located with ⟨rfl, rfl⟩ | old
    · exact Function.update_self _ _ _
    · have stored := holds id peer old calls
      rw [Function.update_of_ne]
      · exact stored
      · intro same
        rw [same, unknown] at stored
        cases stored

theorem matches_accept (inv : AcceptorInv acceptor) (holds : acceptor.Matches) :
    (acceptor.next .accept).Matches := by
  rcases inv.accept_cases with result | ⟨id, rest, peer, _, located, result⟩
  · rw [result]
    exact holds
  · rw [result]
    intro other found atOther calls
    rcases set_cases located atOther with ⟨rfl, rfl⟩ | ⟨_, old⟩
    · exact holds other peer located calls
    · exact holds other found old calls

/-- A session's step keeps the registry if what it removes is its own. -/
theorem matches_session (inv : AcceptorInv acceptor) (holds : acceptor.Matches) {id : Nat}
    {action : ServiceAction} (spares : acceptor.SparesOthers (.session id action)) :
    (acceptor.next (.session id action)).Matches := by
  obtain ⟨peer, step⟩ := inv.peerStep spares.1
  rcases session_cases step with ⟨silent, result⟩ | ⟨notified, result⟩
  · rw [result]
    intro other found atOther calls
    rcases set_cases step.located atOther with ⟨rfl, rfl⟩ | ⟨_, old⟩
    · exact holds other peer step.located (silent.2.symm.trans calls)
    · exact holds other found old calls
  · rw [result]
    intro other found atOther calls
    simp only [Acceptor.handleGetSession]
    rcases set_cases step.located atOther with ⟨rfl, rfl⟩ | ⟨apart, old⟩
    · have called := notified.2
      simp only at calls
      omega
    · have stored : acceptor.sessions found.theirSessionPk = some other :=
        holds other found old calls
      rw [Function.update_of_ne]
      · exact stored
      · intro same
        rw [same] at stored
        have closes : peer.service.Closes action = true := by
          cases closes : peer.service.Closes action with
          | true => rfl
          | false =>
              have silent := (step.notifies.silent closes).2
              have called := notified.2
              omega
        rcases spares.2 peer step.located closes with running | own
        · have itself := holds id peer step.located (inv.running_calls step.located running)
          exact apart (Option.some.inj (stored.symm.trans itself))
        · exact apart (own other stored)

/-- A step that closes a session again removes whatever has its key. -/
theorem session_spares (inv : AcceptorInv acceptor) {id : Nat} {action : ServiceAction}
    (possible : acceptor.Possible (.session id action))
    (after : (acceptor.next (.session id action)).Matches) :
    acceptor.SparesOthers (.session id action) := by
  refine ⟨possible, ?_⟩
  intro peer located closes
  obtain ⟨_, step⟩ := inv.peerStep possible
  cases step.located.symm.trans located
  cases runs : peer.service.session.running with
  | true => exact Or.inl rfl
  | false =>
      right
      intro other stored
      by_cases apart : other = id
      · exact apart
      · obtain ⟨found, atOther, sameKey, calls⟩ := inv.registered _ other stored
        have notified := step.notifies.notified closes runs
        rcases session_cases step with ⟨silent, _⟩ | ⟨_, result⟩
        · have same := silent.2
          have called := notified.2
          omega
        · rw [result] at after
          have kept := after other found ((List.getElem?_set_ne (Ne.symm apart)).trans atOther)
            calls
          simp only [Acceptor.handleGetSession, sameKey, Function.update_self] at kept
          cases kept

theorem sparesOthers_iff (inv : AcceptorInv acceptor) (holds : acceptor.Matches)
    {action : AcceptorAction κ} (possible : acceptor.Possible action) :
    acceptor.SparesOthers action ↔ (acceptor.next action).Matches := by
  cases action with
  | putSession key =>
      exact ⟨fun _ => matches_put holds possible, fun _ => ⟨possible, trivial⟩⟩
  | accept => exact ⟨fun _ => inv.matches_accept holds, fun _ => ⟨possible, trivial⟩⟩
  | session id action =>
      exact ⟨inv.matches_session holds, inv.session_spares possible⟩

end AcceptorInv

/-- Along a run of an acceptor every session is found under its key until its own
close handler is called, exactly when no stopped session closes again while
another has its key. -/
theorem registry_matches_sessions {κ : Type u} [DecidableEq κ]
    {actions : List (AcceptorAction κ)}
    (possible : AllMet Acceptor.next Acceptor.Possible ({} : Acceptor κ) actions) :
    AllMet Acceptor.next Acceptor.SparesOthers ({} : Acceptor κ) actions ↔
      ∀ count, ((actions.take count).foldl Acceptor.next ({} : Acceptor κ)).Matches := by
  have initial : ({} : Acceptor κ).Matches := by
    intro id peer located
    cases located
  have kept : ∀ (acceptor : Acceptor κ) (action : AcceptorAction κ), AcceptorInv acceptor →
      acceptor.Possible action → acceptor.SparesOthers action →
      AcceptorInv (acceptor.next action) :=
    fun _ action inv possible _ => inv.next action possible
  apply AllMet.iff_always kept _ (AcceptorInv.initial 16) initial possible
  intro acceptor action inv holds possible
  exact inv.sparesOthers_iff holds possible

/-- Client 7 connects, its session is closed by the close timer, and client 7
connects again. -/
def reconnectSchedule : List (AcceptorAction Nat) :=
  [.putSession 7, .accept] ++ wokenSchedule.dropLast.map (.session 0) ++ [.putSession 7]

theorem registry_matches_reconnected :
    (∀ count, ((reconnectSchedule.take count).foldl Acceptor.next ({} : Acceptor Nat)).Matches) ∧
      (reconnectSchedule.foldl Acceptor.next ({} : Acceptor Nat)).handleGetSession 7 = some 1 :=
  ⟨(registry_matches_sessions (by decide)).mp (by decide), by decide⟩

/-- The first session's close operation wakes up and removes the second session. -/
theorem registry_loses_session :
    ¬ ∀ actions : List (AcceptorAction Nat),
      AllMet Acceptor.next Acceptor.Possible ({} : Acceptor Nat) actions →
      ∀ count, ((actions.take count).foldl Acceptor.next ({} : Acceptor Nat)).Matches := by
  intro claimed
  have holds := claimed (reconnectSchedule ++ [.session 0 (.run 1 [])]) (by decide) 10
  have found := holds 1 { theirSessionPk := 7, service := { session := {} } } (by decide) (by decide)
  exact absurd found (by decide)

end CurvecprAsio
