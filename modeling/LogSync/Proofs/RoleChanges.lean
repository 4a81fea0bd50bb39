import LogSync.Proofs.LinkCalls
import LogSync.Proofs.Outcomes

/-!
# What an evaluation starts

An evaluation brings every link in line twice: with the roles, while the state is still the one of
before, and then with the state that it settles on. In the end no link replicates what it should
not. But a namespace that the new roles allow is started by the state of before in the meantime,
and stopped again at once if the new state does not cover it
(`PeerLink.starts_forbidden_iff`). So evaluations call for cores that they forbid in this case,
and in no other (`Run.forbidden_starts_iff_allowed_too_late`).
-/

namespace LogSync

/-! ## What is said -/

namespace Engine

/-- An evaluation permits a core to a peer: by the roles as they are then, and by the state that it
settles on. -/
def Permits (e : Engine) (roles : Roles) (now : Nat) (p : PeerId) (key : DiscoveryKey) : Prop :=
  ∃ ns, e.catalog.namespaceOf? key = some ns ∧ (roles.resolve e.plan p).allows ns = true ∧
    (e.evaluate roles now).1.switch.current.Covers e.plan ns

/-- An evaluation starts a core on a connection that it does not permit to the peer. -/
def StartsForbidden (e : Engine) (roles : Roles) (now : Nat) (c : Connection)
    (key : DiscoveryKey) : Prop :=
  .call c (.replicate key) ∈ (e.evaluate roles now).2 ∧ ¬ e.Permits roles now c.peer key

/-- A namespace is newly allowed to the peer of a connection, but too late: the peer was blocked
from it while the state covered it, and the state that an evaluation settles on does not. -/
def AllowedTooLate (e : Engine) (roles : Roles) (now : Nat) (c : Connection) (ns : Namespace) :
    Prop :=
  ∃ l, e.links.get? c.id = some l ∧ l.connection = c ∧ l.capabilities.allows ns = false ∧
    (roles.resolve e.plan c.peer).allows ns = true ∧ l.enabled.Covers e.plan ns ∧
    ¬ (e.evaluate roles now).1.switch.current.Covers e.plan ns

end Engine

/-! ## One link -/

namespace PeerLink

section
variable {plan : NamespacePlan} {catalog : Catalog} {l : PeerLink} {key : DiscoveryKey}

theorem replicate_mem_reconcile_iff :
    .replicate key ∈ (l.reconcile plan catalog).2 ↔
      ∃ ns, catalog.namespaceOf? key = some ns ∧ l.enables plan ns = true ∧
        l.isReplicating key = false := by
  refine (mem_reconciled_iff catalog.cores.ascending).trans (exists_congr fun ns => ?_)
  rw [SortedMap.mem_toList_iff]
  exact and_congr_right fun _ => and_congr_left fun _ => eq_comm

/-- New capabilities start the cores of the namespaces that they allow and that were blocked, as far
as the present state covers them. -/
theorem replicate_mem_setCapabilities_iff (h : l.Exact plan catalog) (capabilities : Capabilities) :
    .replicate key ∈ (l.setCapabilities plan catalog capabilities).2 ↔
      ∃ ns, catalog.namespaceOf? key = some ns ∧ l.capabilities.allows ns = false ∧
        capabilities.allows ns = true ∧ l.enabled.Covers plan ns := by
  unfold setCapabilities
  split
  · next hsame =>
    subst hsame
    refine iff_of_false List.not_mem_nil ?_
    rintro ⟨ns, -, hblocked, hallowed, -⟩
    rw [hblocked] at hallowed
    contradiction
  · rw [replicate_mem_reconcile_iff]
    refine exists_congr fun ns => and_congr_right fun hns => ?_
    -- an exact link replicates a core of the namespace if it enables the namespace
    have hexact : l.isReplicating key = l.enables plan ns := by
      rw [h key, hns]
      rfl
    show _ ∧ l.isReplicating key = false ↔ _
    rw [hexact]
    unfold enables
    rw [← EnabledState.enables_iff]
    cases l.capabilities.allows ns <;> cases l.enabled.enables plan ns <;> simp

/-- A link calls for a core that is not permitted to it in the end if and only if the namespace is
newly allowed, and covered by the state of before but not by the new one. -/
theorem starts_forbidden_iff (h : l.Exact plan catalog) (capabilities : Capabilities)
    (enabled : EnabledState) :
    (.replicate key ∈ (l.follow plan catalog capabilities enabled).2 ∧
        ¬ ∃ ns, catalog.namespaceOf? key = some ns ∧ capabilities.allows ns = true ∧
          enabled.Covers plan ns) ↔
      ∃ ns, catalog.namespaceOf? key = some ns ∧ l.capabilities.allows ns = false ∧
        capabilities.allows ns = true ∧ l.enabled.Covers plan ns ∧ ¬ enabled.Covers plan ns := by
  constructor
  · rintro ⟨hstarts, hforbidden⟩
    rcases List.mem_append.1 hstarts with hroles | hstate
    · obtain ⟨ns, hns, hblocked, hallowed, hcovered⟩ :=
        (replicate_mem_setCapabilities_iff h capabilities).1 hroles
      exact ⟨ns, hns, hblocked, hallowed, hcovered,
        fun hcovers => hforbidden ⟨ns, hns, hallowed, hcovers⟩⟩
    · -- what the new state starts is permitted by it
      obtain ⟨ns, hns, henables, -⟩ := replicate_mem_reconcile_iff.1 hstate
      obtain ⟨hallowed, hcovered⟩ := Bool.and_eq_true_iff.1 henables
      have hcapabilities : (l.setCapabilities plan catalog capabilities).1.capabilities
          = capabilities := capabilities_setCapabilities l capabilities
      rw [← hcapabilities] at hforbidden
      exact absurd ⟨ns, hns, hallowed, EnabledState.enables_iff.1 hcovered⟩ hforbidden
  · rintro ⟨ns, hns, hblocked, hallowed, hcovered, huncovered⟩
    refine ⟨List.mem_append_left _ ?_, ?_⟩
    · exact (replicate_mem_setCapabilities_iff h capabilities).2
        ⟨ns, hns, hblocked, hallowed, hcovered⟩
    · rintro ⟨ns', hns', -, hcovers⟩
      obtain rfl := Option.some.inj (hns.symm.trans hns')
      exact huncovered hcovers

end

end PeerLink

/-! ## One evaluation -/

namespace Engine

variable {e : Engine}

section
variable (hkeyed : Keyed e.links) (roles : Roles) (now : Nat)
include hkeyed

/-- An evaluation makes calls on linked connections only. -/
theorem isLinked_of_call_mem {c : Connection} {call : ReplicationCall}
    (h : .call c call ∈ (e.evaluate roles now).2) : e.IsLinked c := by
  refine Classical.byContradiction fun hunlinked => ?_
  have hsilent := (linkSteps_follow hkeyed roles now).silent c fun id l hl hc => by
    have hid : c.id = id := hc ▸ hkeyed id l hl
    exact hunlinked ⟨l, hid ▸ hl, hc⟩
  rw [← mem_callsOn, hsilent] at h
  contradiction

/-- What an evaluation forbids and starts all the same, it starts on one of its links. -/
theorem startsForbidden_iff
    (hexact : ∀ {id l}, e.links.get? id = some l → l.Exact e.plan e.catalog) (c : Connection)
    (key : DiscoveryKey) :
    e.StartsForbidden roles now c key ↔
      ∃ ns, e.catalog.namespaceOf? key = some ns ∧ e.AllowedTooLate roles now c ns := by
  have hcurrent : (e.evaluate roles now).1.switch.current = (e.verdictSeen roles).state := by
    rw [evaluate_engine]
  have hcalls {l : PeerLink} (hl : e.links.get? c.id = some l) (hc : l.connection = c) :
      callsOn c (e.evaluate roles now).2 = (l.follow e.plan e.catalog
        (roles.resolve e.plan c.peer) (e.verdictSeen roles).state).2 := by
    obtain ⟨l', -, hfollow⟩ := (linkSteps_follow hkeyed roles now).forth hl
    rw [hc, PeerLink.peer, hc] at hfollow
    exact congrArg Prod.snd hfollow
  unfold StartsForbidden Permits AllowedTooLate
  rw [hcurrent]
  constructor
  · intro hforbidden
    obtain ⟨l, hl, hc⟩ := isLinked_of_call_mem hkeyed roles now hforbidden.1
    rw [← mem_callsOn, hcalls hl hc, PeerLink.starts_forbidden_iff (hexact hl)] at hforbidden
    obtain ⟨ns, hns, hlate⟩ := hforbidden
    exact ⟨ns, hns, l, hl, hc, hlate⟩
  · rintro ⟨ns, hns, l, hl, hc, hlate⟩
    rw [← mem_callsOn, hcalls hl hc, PeerLink.starts_forbidden_iff (hexact hl)]
    exact ⟨ns, hns, hlate⟩

end

end Engine

/-! ## Runs -/

namespace Run

variable {s : Settings}

/-- Every evaluation of a run begins with exact links under their names. -/
theorem brought {r : Run s} {e₀ : Engine} (h₀ : r.evaluated? = some e₀) :
    Keyed e₀.links ∧ ∀ {id l}, e₀.links.get? id = some l → l.Exact e₀.plan e₀.catalog := by
  cases r with
  | begin roles now =>
    obtain rfl := Option.some.inj h₀
    exact ⟨fun id l hl => by contradiction, fun {id l} hl => by contradiction⟩
  | handle before roles now input => exact before.settings_engine_and_inLine.2.brought h₀

/-- **An evaluation starts what it forbids only where roles have changed.** At every evaluation of
every run, whatever the roles are by then: a connection is told to replicate a core that is not
permitted to its peer, by these roles and by the state that the evaluation settles on, if and only
if the core's namespace is one that the roles newly allow to the peer, that the state of before
covers, and that the new state does not. -/
theorem forbidden_starts_iff_allowed_too_late (r : Run s) {e₀ : Engine}
    (h₀ : r.evaluated? = some e₀) (roles : Roles) (now : Nat) (c : Connection)
    (key : DiscoveryKey) :
    e₀.StartsForbidden roles now c key ↔
      ∃ ns, e₀.catalog.namespaceOf? key = some ns ∧ e₀.AllowedTooLate roles now c ns := by
  obtain ⟨hkeyed, hexact⟩ := brought h₀
  exact Engine.startsForbidden_iff hkeyed roles now hexact c key

/-- A peer is allowed a namespace while data is synced on: the core is started, and is due. -/
theorem no_forbidden_starts_under_same_state :
    let blocked : Roles := fun _ _ => .blocked
    let allowed : Roles := fun _ _ => .allowed
    let c : Connection := ⟨⟨0⟩, default, 0⟩
    let added : Run {} :=
      .handle (.begin blocked 0) blocked 0 (.addCore .data default ⟨default, 0, ∅, []⟩)
    let joined : Run {} := .handle added blocked 0 (.addPeer c)
    let syncing : Run {} := .handle joined blocked 0 (.start none)
    let r : Run {} := .handle syncing allowed 0 .rescindFullStop
    ∃ e₀, r.evaluated? = some e₀ ∧
      .call c (.replicate default) ∈ (e₀.evaluate allowed 0).2 ∧
      ¬ e₀.StartsForbidden allowed 0 c default := by
  intro blocked allowed c added joined syncing r
  let e₀ : Engine := { syncing.engine with switch := syncing.engine.switch.rescindFullStop }
  have hall : (e₀.evaluate allowed 0).1.switch.current = .all := by decide +kernel
  refine ⟨e₀, rfl, mem_callsOn.1 (by decide +kernel), ?_⟩
  rw [forbidden_starts_iff_allowed_too_late r rfl]
  rintro ⟨ns, -, l, -, -, -, -, -, huncovered⟩
  rw [hall] at huncovered
  exact huncovered trivial

/-- Data sync is stopped while a peer is allowed to sync data: a core is started that is not due. -/
theorem stop_starts_forbidden_core :
    let blocked : Roles := fun _ _ => .blocked
    let allowed : Roles := fun _ _ => .allowed
    let c : Connection := ⟨⟨0⟩, default, 0⟩
    let added : Run {} :=
      .handle (.begin blocked 0) blocked 0 (.addCore .data default ⟨default, 0, ∅, []⟩)
    let joined : Run {} := .handle added blocked 0 (.addPeer c)
    let syncing : Run {} := .handle joined blocked 0 (.start none)
    let r : Run {} := .handle syncing allowed 0 .stop
    ∃ e₀, r.evaluated? = some e₀ ∧ e₀.StartsForbidden allowed 0 c default := by
  intro blocked allowed c added joined syncing r
  let e₀ : Engine := { syncing.engine with switch := syncing.engine.switch.stop }
  have hpresync : (e₀.evaluate allowed 0).1.switch.current = .presync := by decide +kernel
  have hdata : e₀.catalog.namespaceOf? default = some .data := by decide +kernel
  refine ⟨e₀, rfl, mem_callsOn.1 (by decide +kernel), ?_⟩
  rintro ⟨ns, hns, -, hcovered⟩
  obtain rfl := Option.some.inj (hdata.symm.trans hns)
  rw [hpresync] at hcovered
  exact absurd hcovered (by decide +kernel)

end Run

end LogSync
