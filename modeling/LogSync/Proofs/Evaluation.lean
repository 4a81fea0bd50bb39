import LogSync.Engine
import LogSync.Proofs.FreshCounts
import LogSync.Proofs.Links

/-!
# What one evaluation does

An evaluation is a chain of small steps, each of which changes one part of the engine. Here the
chain is written out once, part by part: `evaluate_engine` gives every field of the engine that an
evaluation leaves behind, and `evaluate_effects` what it says to the outside.
-/

namespace LogSync
namespace Engine

/-! ## The parts -/

section
variable (roles : Roles) (e : Engine)

/-- The links once the roles are looked up. -/
def refreshed : SortedMap ConnectionId PeerLink :=
  e.links.mapValues fun _ l => (l.setCapabilities e.plan e.catalog (roles.resolve e.plan l.peer)).1

/-- The namespaces once every peer has its records. -/
def registered : SortedMap Namespace NamespaceTracker :=
  ({ e with links := e.refreshed roles } : Engine).registerPeers.namespaces

/-- The counts that an evaluation goes by. -/
def statesSeen : NamespaceStates := (e.registered roles).mapValues fun _ t => t.state.1

/-- The peers, with the capabilities that an evaluation goes by. -/
def partnersSeen : Partners := (e.refreshed roles).values.map fun l => (l.peer, l.capabilities)

/-- Whether a goal is reached in the eyes of an evaluation. -/
def syncedSeen (goal : SyncGoal) : Bool :=
  isSynced (e.statesSeen roles) (e.plan.forGoal goal) (e.partnersSeen roles)

/-- What an evaluation decides. -/
def verdictSeen : Verdict := e.switch.verdict (e.syncedSeen roles e.switch.goal)

end

/-! ## Steps -/

/-- An update of the links touches nothing else in the engine, and each link gets its own change. -/
theorem updateLinks_engine (e : Engine) (f : PeerLink → PeerLink × List ReplicationCall) :
    (e.updateLinks f).1 = { e with links := e.links.mapValues fun _ l => (f l).1 } := by
  unfold updateLinks
  simp only [SortedMap.mapValues_mapValues]

/-- What is read of a namespace is its aggregate. -/
theorem readStates_states (e : Engine) :
    e.readStates.1 = e.namespaces.mapValues fun _ t => t.state.1 := by
  unfold readStates
  simp only [SortedMap.mapValues_mapValues]

/-- Reading keeps the aggregates in the namespaces and touches nothing else in the engine. -/
theorem readStates_engine (e : Engine) :
    e.readStates.2 = { e with namespaces := e.namespaces.mapValues fun _ t => t.state.2 } := by
  unfold readStates
  simp only [SortedMap.mapValues_mapValues]

/-- Those waiters go whose goal is reached, and each of them is answered. -/
theorem answerWaiters_eq (states : NamespaceStates) (e : Engine) :
    e.answerWaiters states =
      ({ e with waiters := e.waiters.filter fun w => !e.isSyncedFor states w.goal },
        (e.waiters.filter fun w => e.isSyncedFor states w.goal).map .answer) := by
  unfold answerWaiters
  rw [List.partition_eq_filter_filter]
  rfl

/-- Links may change without changing who the partners are. -/
theorem partners_mapValues (links : SortedMap ConnectionId PeerLink) {f : PeerLink → PeerLink}
    (hpeer : ∀ l, (f l).peer = l.peer) (hcaps : ∀ l, (f l).capabilities = l.capabilities) :
    ((links.mapValues fun _ l => f l).values.map fun l => (l.peer, l.capabilities))
      = links.values.map fun l => (l.peer, l.capabilities) := by
  rw [SortedMap.values_mapValues, List.map_map]
  exact List.map_congr_left fun l _ => by rw [Function.comp, hpeer, hcaps]

/-! ## The whole -/

section
variable (roles : Roles) (now : Nat) (e : Engine)

/-- The engine once everything is decided. -/
def decided : Engine :=
  { e with
    namespaces := (e.registered roles).mapValues fun _ t => t.state.2
    links := e.refreshed roles
    switch := { e.switch with current := (e.verdictSeen roles).state }
    autostop := (e.autostop.observe (dataOwned (e.statesSeen roles))).1.apply
      (e.verdictSeen roles).autostop now }

/-- The engine once every link follows the verdict. -/
def linked : Engine :=
  ((e.decided roles now).updateLinks
    (·.setEnabled e.plan e.catalog (e.verdictSeen roles).state)).1

theorem linked_eq : e.linked roles now =
    { e.decided roles now with
      links := (e.refreshed roles).mapValues fun _ l =>
        (l.setEnabled e.plan e.catalog (e.verdictSeen roles).state).1 } :=
  updateLinks_engine _ _

theorem partners_linked : (e.linked roles now).partners = e.partnersSeen roles := by
  rw [linked_eq]
  exact partners_mapValues _ (fun _ => rfl) (fun _ => rfl)

/-- An engine whose links follow the verdict judges every goal as it did before the verdict. -/
theorem isSyncedFor_linked (goal : SyncGoal) :
    (e.linked roles now).isSyncedFor (e.statesSeen roles) goal = e.syncedSeen roles goal := by
  unfold isSyncedFor syncedSeen
  rw [partners_linked, linked_eq]
  rfl

/-- An evaluation, step after step. -/
theorem evaluate_eq : e.evaluate roles now =
    let published := (e.linked roles now).publish (e.statesSeen roles)
    let answered := published.1.answerWaiters (e.statesSeen roles)
    (answered.1, (e.refreshCapabilities roles).2
      ++ ((e.decided roles now).updateLinks
          (·.setEnabled e.plan e.catalog (e.verdictSeen roles).state)).2
      ++ published.2 ++ answered.2) := by
  -- up to the verdict the steps make no calls but those for the roles
  have hregistered : (e.refreshCapabilities roles).1.registerPeers
      = { e with links := e.refreshed roles, namespaces := e.registered roles } := by
    unfold refreshCapabilities
    rw [updateLinks_engine]
    rfl
  have hstates : (e.refreshCapabilities roles).1.registerPeers.readStates.1
      = e.statesSeen roles := by
    rw [hregistered, readStates_states]
    rfl
  have hdecided : (e.refreshCapabilities roles).1.registerPeers.readStates.2.decide now
      (e.statesSeen roles) = (e.decided roles now, (e.verdictSeen roles).state) := by
    rw [hregistered, readStates_engine]
    rfl
  unfold evaluate
  simp only [hstates, hdecided]
  rfl

/-- The engine that an evaluation leaves behind. -/
theorem evaluate_engine :
    (e.evaluate roles now).1 =
      { e with
        namespaces := (e.registered roles).mapValues fun _ t => t.state.2
        links := (e.refreshed roles).mapValues fun _ l =>
          (l.setEnabled e.plan e.catalog (e.verdictSeen roles).state).1
        switch := { e.switch with current := (e.verdictSeen roles).state }
        autostop := (e.autostop.observe (dataOwned (e.statesSeen roles))).1.apply
          (e.verdictSeen roles).autostop now
        waiters := e.waiters.filter fun w => !e.syncedSeen roles w.goal
        latest := .of (e.verdictSeen roles).state
          (devicesProgress (e.statesSeen roles) e.plan (e.partnersSeen roles))
        updates := e.updates + 1 } := by
  rw [evaluate_eq]
  simp only [publish, answerWaiters_eq]
  -- publishing changes neither the plan nor the partners
  show { e.linked roles now with
      waiters := e.waiters.filter fun w =>
        !(e.linked roles now).isSyncedFor (e.statesSeen roles) w.goal
      latest := .of (e.verdictSeen roles).state
        (devicesProgress (e.statesSeen roles) e.plan (e.linked roles now).partners)
      updates := e.updates + 1 } = _
  rw [partners_linked]
  simp only [isSyncedFor_linked]
  rw [linked_eq]
  rfl

/-- What an evaluation says: calls for the roles, calls for the state, the snapshot, the answers. -/
theorem evaluate_effects :
    (e.evaluate roles now).2 =
      (e.refreshCapabilities roles).2
        ++ ((e.decided roles now).updateLinks
            (·.setEnabled e.plan e.catalog (e.verdictSeen roles).state)).2
        ++ [.publish (e.evaluate roles now).1.latest]
        ++ (e.waiters.filter fun w => e.syncedSeen roles w.goal).map .answer := by
  rw [evaluate_eq]
  simp only [publish, answerWaiters_eq]
  show _ ++ _ ++ _ ++ (e.waiters.filter fun w =>
    (e.linked roles now).isSyncedFor (e.statesSeen roles) w.goal).map Effect.answer = _
  simp only [isSyncedFor_linked]

end

end Engine
end LogSync
