import LogSync.Proofs.Settled

/-!
# Announcements have no influence

A peer may announce a core: before its connection is linked, before the core is attached, after
that, or never. The key goes through a waiting set of the engine and then one of the link, and when
the core is attached or the grace period is over, it is dropped. None of this is ever seen from the
outside. Where an announcement has a link reconcile, the link is exact already; everywhere else the
two waiting sets are only written.

So the engine behaves as it would if it had never heard of the keys (`Engine.unannounced`): an
announcement says nothing and changes nothing but the waiting sets (`Engine.handle_announcement`),
every other input goes with and without them alike (`Engine.handle_unannounced`), and two runs that
differ only in announcements agree in all else (`Run.announcements_have_no_influence`).
-/

namespace LogSync

/-! ## Doing without announcements -/

/-- The waiting set without its keys. -/
def GraceSet.emptied {κ : Type} [Ord κ] (s : GraceSet κ) : GraceSet κ := { s with deadlines := ∅ }

/-- The link without the keys that it holds. -/
def PeerLink.unannounced (l : PeerLink) : PeerLink := { l with held := l.held.emptied }

/-- The engine without any announced key. -/
def Engine.unannounced (e : Engine) : Engine :=
  { e with early := e.early.emptied, links := e.links.mapValues fun _ l => l.unannounced }

/-- Whether an input is an announcement, or runs the timer that forgets announcements. -/
def Input.concernsAnnouncements : Input → Bool
  | .announce _ _ | .timer .expiry => true
  | _ => false

namespace Run

variable {s : Settings}

/-- The same run without announcements, and so without the timer that forgets them. -/
def unannounced : Run s → Run s
  | begin roles now => begin roles now
  | handle before roles now input =>
    if input.concernsAnnouncements then before.unannounced
    else handle before.unannounced roles now input

/-- All that the engine has said so far, each with its time. -/
def log : Run s → List (Nat × Effect)
  | begin roles now => (Engine.begin roles now s).2.map (now, ·)
  | handle before roles now input =>
    before.log ++ (before.engine.handle roles now input).2.map (now, ·)

/-- Without its times the log is what the engine has said. -/
theorem effects_eq_log (r : Run s) : r.effects = r.log.map (·.2) := by
  induction r with
  | begin roles now => simp [effects, log, Function.comp_def]
  | handle before roles now input ih => simp [effects, log, ih, Function.comp_def]

end Run

/-- Without its keys a waiting set is the same, whatever comes in. -/
@[simp]
theorem GraceSet.emptied_insert {κ : Type} [Ord κ] [Std.TransOrd κ] (s : GraceSet κ) (k : κ)
    (now : Nat) : (s.insert k now).1.emptied = s.emptied := by
  unfold insert
  split <;> rfl

/-! ## Links -/

namespace PeerLink

variable (plan : NamespacePlan) (catalog : Catalog) (l : PeerLink)

/-- What a peer is allowed is reconciled with the catalog, which knows nothing of announcements. -/
theorem setCapabilities_unannounced (capabilities : Capabilities) :
    l.unannounced.setCapabilities plan catalog capabilities
      = ((l.setCapabilities plan catalog capabilities).1.unannounced,
          (l.setCapabilities plan catalog capabilities).2) := by
  unfold setCapabilities
  rw [show l.unannounced.capabilities = l.capabilities from rfl]
  split <;> rfl

theorem setEnabled_unannounced (enabled : EnabledState) :
    l.unannounced.setEnabled plan catalog enabled
      = ((l.setEnabled plan catalog enabled).1.unannounced,
          (l.setEnabled plan catalog enabled).2) := rfl

theorem coreAdded_unannounced (key : DiscoveryKey) :
    l.unannounced.coreAdded plan catalog key
      = ((l.coreAdded plan catalog key).1.unannounced, (l.coreAdded plan catalog key).2) := rfl

variable {plan catalog l} (h : l.Exact plan catalog) (now : Nat)
include h

/-- An announcement finds an exact link with nothing to do. -/
theorem announce_of_exact (key : DiscoveryKey) :
    (l.announce plan catalog key now).1.unannounced = l.unannounced ∧
      (l.announce plan catalog key now).2 = [] := by
  unfold announce
  split
  · rw [reconcile_of_exact h]
    exact ⟨rfl, rfl⟩
  · exact ⟨by simp [unannounced], rfl⟩

/-- So do the announcements that have waited for it. -/
theorem announced_of_exact (as : List Announcement) :
    (l.announced plan catalog now as).1.unannounced = l.unannounced ∧
      (l.announced plan catalog now as).2 = [] := by
  -- each announcement leaves the link exact for the next one
  have hall : (l.announced plan catalog now as).1.Exact plan catalog ∧
      (l.announced plan catalog now as).1.unannounced = l.unannounced ∧
      (l.announced plan catalog now as).2 = [] := by
    unfold announced
    refine List.foldlRecOn (motive := fun out : PeerLink × List ReplicationCall =>
      out.1.Exact plan catalog ∧ out.1.unannounced = l.unannounced ∧ out.2 = []) as _
      ⟨h, rfl, rfl⟩ ?_
    rintro ⟨l', calls⟩ ⟨hexact, hsame, hcalls⟩ a -
    obtain ⟨hsame', hcalls'⟩ := announce_of_exact hexact now a.key
    exact ⟨(l'.stays_announce plan catalog a.key now).exact hexact, hsame'.trans hsame,
      List.append_eq_nil_iff.2 ⟨hcalls, hcalls'⟩⟩
  exact hall.2

end PeerLink

/-! ## Evaluations -/

namespace Engine

section
variable (e : Engine)

/-- Announcements are kept apart from the namespaces. -/
@[simp]
theorem namespaces_unannounced : e.unannounced.namespaces = e.namespaces := rfl

@[simp]
theorem catalog_unannounced : e.unannounced.catalog = e.catalog := rfl

/-- To leave out the announcements leaves out no link. -/
@[simp]
theorem contains_links_unannounced (id : ConnectionId) :
    e.unannounced.links.contains id = e.links.contains id :=
  SortedMap.contains_mapValues _ e.links id

/-- Who the partners are is not a matter of announcements. -/
@[simp]
theorem partners_unannounced : e.unannounced.partners = e.partners :=
  partners_mapValues e.links (fun _ => rfl) (fun _ => rfl)

/-- Nor is who is in sync. -/
theorem isSyncedFor_unannounced (states : NamespaceStates) (goal : SyncGoal) :
    e.unannounced.isSyncedFor states goal = e.isSyncedFor states goal := by
  unfold isSyncedFor
  rw [partners_unannounced]
  rfl

/-- No key is left whose time could come; the other timers run when they would have run. -/
theorem deadline?_unannounced (t : Timer) :
    e.unannounced.deadline? t = if t = .expiry then none else e.deadline? t := by
  cases t
  case expiry =>
    have hnone : (e.unannounced.links.values.filterMap (·.held.nextDeadline)) = [] := by
      rw [unannounced, SortedMap.values_mapValues, List.filterMap_map]
      exact List.filterMap_eq_nil_iff.2 fun _ _ => rfl
    rw [deadline?, hnone]
    rfl
  all_goals rfl

/-- What is done to every link alike is done with and without announcements alike. -/
theorem updateLinks_unannounced {f : PeerLink → PeerLink × List ReplicationCall}
    (hf : ∀ l, f l.unannounced = ((f l).1.unannounced, (f l).2)) :
    e.unannounced.updateLinks f = ((e.updateLinks f).1.unannounced, (e.updateLinks f).2) := by
  unfold updateLinks unannounced
  simp only [SortedMap.mapValues_mapValues, SortedMap.values_mapValues, List.flatMap_map, hf]
  rfl

variable (roles : Roles) (now : Nat)

/-- To look up the roles anew commutes with leaving out the announcements, call for call. -/
theorem refreshCapabilities_unannounced :
    e.unannounced.refreshCapabilities roles
      = ((e.refreshCapabilities roles).1.unannounced, (e.refreshCapabilities roles).2) :=
  e.updateLinks_unannounced
    (f := fun l => l.setCapabilities e.plan e.catalog (roles.resolve e.plan l.peer))
    fun l => l.setCapabilities_unannounced e.plan e.catalog (roles.resolve e.plan l.peer)

theorem refreshed_unannounced :
    e.unannounced.refreshed roles = (e.refreshed roles).mapValues fun _ l => l.unannounced := by
  unfold refreshed
  simp only [unannounced, SortedMap.mapValues_mapValues]
  exact SortedMap.mapValues_congr fun x _ =>
    congrArg Prod.fst (x.2.setCapabilities_unannounced _ _ _)

/-- An evaluation finds the same partners. -/
theorem partnersSeen_unannounced : e.unannounced.partnersSeen roles = e.partnersSeen roles := by
  unfold partnersSeen
  rw [refreshed_unannounced]
  exact partners_mapValues _ (fun _ => rfl) (fun _ => rfl)

/-- It registers them in the same namespaces. -/
theorem registered_unannounced : e.unannounced.registered roles = e.registered roles := by
  rw [registered_eq, registered_eq, partnersSeen_unannounced]
  rfl

/-- It reads the same aggregates. -/
theorem statesSeen_unannounced : e.unannounced.statesSeen roles = e.statesSeen roles := by
  rw [statesSeen, registered_unannounced]
  rfl

theorem syncedSeen_unannounced (goal : SyncGoal) :
    e.unannounced.syncedSeen roles goal = e.syncedSeen roles goal := by
  rw [syncedSeen, statesSeen_unannounced, partnersSeen_unannounced]
  rfl

/-- It comes to the same verdict. -/
theorem verdictSeen_unannounced : e.unannounced.verdictSeen roles = e.verdictSeen roles := by
  rw [verdictSeen, syncedSeen_unannounced]
  rfl

/-- So what it decides, on its timers and its switch, is the same. -/
theorem decided_unannounced :
    e.unannounced.decided roles now = (e.decided roles now).unannounced := by
  unfold decided
  rw [refreshed_unannounced, registered_unannounced, statesSeen_unannounced,
    verdictSeen_unannounced]
  rfl

/-- No evaluation goes by announcements. -/
theorem evaluate_unannounced :
    e.unannounced.evaluate roles now
      = ((e.evaluate roles now).1.unannounced, (e.evaluate roles now).2) := by
  have hrefresh :
      (e.unannounced.refreshCapabilities roles).2 = (e.refreshCapabilities roles).2 := by
    rw [refreshCapabilities_unannounced]
  have hpush : ((e.unannounced.decided roles now).updateLinks
        (·.setEnabled e.plan e.catalog (e.verdictSeen roles).state)).2
      = ((e.decided roles now).updateLinks
          (·.setEnabled e.plan e.catalog (e.verdictSeen roles).state)).2 := by
    rw [decided_unannounced, updateLinks_unannounced
      (f := fun l => l.setEnabled e.plan e.catalog (e.verdictSeen roles).state) _
      fun l => l.setEnabled_unannounced _ _ _]
  have hengine : (e.unannounced.evaluate roles now).1 = (e.evaluate roles now).1.unannounced := by
    rw [evaluate_engine, evaluate_engine, refreshed_unannounced, registered_unannounced,
      statesSeen_unannounced, verdictSeen_unannounced, partnersSeen_unannounced]
    simp only [syncedSeen_unannounced]
    unfold unannounced
    simp only [SortedMap.mapValues_mapValues]
    rfl
  refine Prod.ext hengine ?_
  rw [evaluate_effects, evaluate_effects, hengine, hrefresh, verdictSeen_unannounced]
  simp only [syncedSeen_unannounced]
  exact congrArg (fun calls => _ ++ calls ++ _ ++ _) hpush

/-- What an input has evaluated is, without announcements, what it has evaluated without them. -/
theorem evaluatedFor?_unannounced (input : Input) :
    e.unannounced.evaluatedFor? now input
      = (e.evaluatedFor? now input).map unannounced := by
  cases input
  case addPeer c =>
    simp only [evaluatedFor?, contains_links_unannounced]
    split
    · rfl
    · rw [Option.map_some, unannounced, unannounced, SortedMap.mapValues_insert]
      rfl
  case removePeer id =>
    simp only [evaluatedFor?, contains_links_unannounced]
    split
    · rw [Option.map_some, unannounced, unannounced, SortedMap.mapValues_erase]
      rfl
    · rfl
  case timer t =>
    cases t
    case expiry => rfl
    case throttle =>
      rw [evaluatedFor?, evaluatedFor?, show e.unannounced.throttle = e.throttle from rfl]
      split <;> rfl
    case autostop =>
      rw [evaluatedFor?, evaluatedFor?, show e.unannounced.autostop = e.autostop from rfl]
      split <;> rfl
  all_goals rfl

/-! ## Other inputs -/

theorem withCore_unannounced (ns : Namespace) (t : NamespaceTracker) (key : DiscoveryKey)
    (core : CoreTracker) :
    e.unannounced.withCore ns t key core = (e.withCore ns t key core).unannounced := by
  have hpeers : (e.unannounced.links.values.filter (·.capabilities.allows ns)).foldl
        (fun core l => (core.addPeer l.peer).1) core
      = (e.links.values.filter (·.capabilities.allows ns)).foldl
        (fun core l => (core.addPeer l.peer).1) core := by
    rw [unannounced, SortedMap.values_mapValues, List.filter_map, List.foldl_map]
    rfl
  unfold withCore
  simp only [hpeers]
  rfl

/-- Reading the states is no matter of announcements. -/
theorem readStates_unannounced :
    e.unannounced.readStates = (e.readStates.1, e.readStates.2.unannounced) := by
  refine Prod.ext ?_ ?_
  · rw [readStates_states, readStates_states]
    rfl
  · rw [readStates_engine, readStates_engine]
    rfl

/-- Nor is waiting for a goal. -/
theorem wait_unannounced (w : Waiter) :
    e.unannounced.wait w = ((e.wait w).1.unannounced, (e.wait w).2) := by
  unfold wait
  simp only [readStates_unannounced, isSyncedFor_unannounced]
  split <;> rfl

/-- Nor is a report about a namespace. -/
theorem report_unannounced (ns : Namespace) :
    e.unannounced.report ns = ((e.report ns).1.unannounced, (e.report ns).2) := by
  unfold report
  rw [namespaces_unannounced]
  split <;> rfl

/-- Adding a core commutes with leaving out the announcements, whether or not it is refused. -/
theorem addCore_unannounced (ns : Namespace) (key : DiscoveryKey) (snapshot : CoreSnapshot) :
    e.unannounced.addCore now ns key snapshot
      = ((e.addCore now ns key snapshot).1.unannounced, (e.addCore now ns key snapshot).2) := by
  unfold addCore
  rw [namespaces_unannounced, catalog_unannounced]
  cases e.namespaces.get? ns with
  | none => rfl
  | some t =>
    by_cases hcontains : e.catalog.contains key = true
    · simp only [if_pos hcontains]
    · simp only [if_neg hcontains]
      rcases (t.core key).attach snapshot with err | ⟨core, new⟩
      · rfl
      · cases new with
        | false => rfl
        | true =>
          -- the links are told of the core that is tracked then
          have htold := updateLinks_unannounced
            (f := fun l => l.coreAdded e.plan (e.catalog.insert key ns).1 key)
            (e.withCore ns t key core) fun l => l.coreAdded_unannounced _ _ key
          rw [← withCore_unannounced] at htold
          exact congrArg (fun told : Engine × List Effect =>
            (told.1.notify now, .listen key :: told.2 ++ [.added (.ok ())])) htold

/-- A message about a core meets the same tracker. -/
theorem updateNamed_unannounced (ns : Namespace) (key : DiscoveryKey)
    (f : CoreTracker → CoreTracker) :
    e.unannounced.updateNamed now ns key f = (e.updateNamed now ns key f).unannounced := by
  unfold updateNamed
  rw [show e.unannounced.trackedIn? key = e.trackedIn? key from rfl]
  simp only [namespaces_unannounced]
  split <;> rfl

/-- So does an event of a core. -/
theorem coreEvent_unannounced (key : DiscoveryKey) (event : CoreEvent) :
    e.unannounced.coreEvent now key event = (e.coreEvent now key event).unannounced := by
  unfold coreEvent
  simp only [namespaces_unannounced, catalog_unannounced]
  split
  · rfl
  · split <;> rfl

/-- An input that is not evaluated at once goes with and without announcements alike. -/
theorem handleQuietly_unannounced {input : Input} (h : input.concernsAnnouncements = false) :
    e.unannounced.handleQuietly now input
      = ((e.handleQuietly now input).1.unannounced, (e.handleQuietly now input).2) := by
  cases input
  case wait w => exact e.wait_unannounced w
  case announce id key => contradiction
  case addCore ns key snapshot => exact e.addCore_unannounced now ns key snapshot
  case preHaves p m => rw [handleQuietly, updateNamed_unannounced]; rfl
  case wants ns key p ranges => rw [handleQuietly, updateNamed_unannounced]; rfl
  case report ns => exact e.report_unannounced ns
  case coreEvent key event => rw [handleQuietly, coreEvent_unannounced]; rfl
  case timer t =>
    cases t
    case expiry => contradiction
    all_goals rfl
  all_goals rfl

/-- Without announcements a new link has none to take over. -/
theorem handOver_unannounced (input : Input) :
    e.unannounced.handOver now input = (e.unannounced, []) := by
  cases input
  case addPeer c =>
    show e.unannounced.updateLinks (fun l => if l.connection.id = c.id then (l, []) else (l, []))
      = (e.unannounced, [])
    simp only [ite_self]
    refine Prod.ext ?_ (updateLinks_effects_nil fun _ _ => rfl)
    rw [updateLinks_engine, SortedMap.mapValues_eq_self fun _ _ => rfl]
  all_goals rfl

end

/-! ## Announcements among exact links -/

/-- Links that are changed in what they hold, and make no calls. -/
theorem updateLinks_of_held {e : Engine} {f : PeerLink → PeerLink × List ReplicationCall}
    (hf : ∀ l ∈ e.links.values, (f l).1.unannounced = l.unannounced ∧ (f l).2 = []) :
    (e.updateLinks f).1.unannounced = e.unannounced ∧ (e.updateLinks f).2 = [] := by
  refine ⟨?_, updateLinks_effects_nil fun l hl => (hf l hl).2⟩
  have hlinks : (e.links.mapValues fun _ l => (f l).1.unannounced)
      = e.links.mapValues fun _ l => l.unannounced :=
    SortedMap.mapValues_congr fun x hx => (hf x.2 (List.mem_map_of_mem hx)).1
  rw [updateLinks_engine]
  unfold unannounced
  rw [SortedMap.mapValues_mapValues, hlinks]

section
variable {roles : Roles} {e : Engine} (h : e.InLine roles) (now : Nat)
include h

theorem InLine.exact_of_mem {l : PeerLink} (hl : l ∈ e.links.values) :
    l.Exact e.plan e.catalog := by
  obtain ⟨id, hl⟩ := SortedMap.mem_values_iff.1 hl
  exact h.exact hl

/-- The announcements that a new link takes over bring about nothing. -/
theorem handOver_of_inLine (input : Input) :
    (e.handOver now input).1.unannounced = e.unannounced ∧ (e.handOver now input).2 = [] := by
  cases input
  case addPeer c =>
    refine updateLinks_of_held
      (e := { e with early := (e.early.takeMatching (·.connection = c.id)).1 }) fun l hl => ?_
    split
    · exact PeerLink.announced_of_exact (h.exact_of_mem hl) now _
    · exact ⟨rfl, rfl⟩
  all_goals exact ⟨rfl, rfl⟩

/-- An announcement is only noted: a link in line with the catalog has no call to make for it. -/
theorem announce_of_inLine (id : ConnectionId) (key : DiscoveryKey) :
    (e.announce now id key).1.unannounced = e.unannounced ∧ (e.announce now id key).2 = [] := by
  unfold announce
  split
  · refine updateLinks_of_held fun l hl => ?_
    split
    · exact PeerLink.announce_of_exact (h.exact_of_mem hl) now key
    · exact ⟨rfl, rfl⟩
  · exact ⟨by simp [unannounced], rfl⟩

/-- An announcement says nothing, and changes nothing but what is held of announcements. -/
theorem handle_announcement (roles' : Roles) {input : Input}
    (hinput : input.concernsAnnouncements = true) :
    (e.handle roles' now input).1.unannounced = e.unannounced ∧
      (e.handle roles' now input).2 = [] := by
  cases input
  case announce id key => exact announce_of_inLine h now id key
  case timer t =>
    cases t
    case expiry =>
      refine ⟨?_, rfl⟩
      show (e.expire now).unannounced = e.unannounced
      unfold expire unannounced
      rw [SortedMap.mapValues_mapValues]
      rfl
    all_goals contradiction
  all_goals contradiction

/-- Every other input goes as if there had been no announcements. -/
theorem handle_unannounced (roles' : Roles) {input : Input}
    (hinput : input.concernsAnnouncements = false) :
    e.unannounced.handle roles' now input
      = ((e.handle roles' now input).1.unannounced, (e.handle roles' now input).2) := by
  have h₀' := e.evaluatedFor?_unannounced now input
  cases h₀ : e.evaluatedFor? now input with
  | none =>
    rw [h₀, Option.map_none] at h₀'
    rw [handle_of_not_evaluated h₀, handle_of_not_evaluated h₀',
      handleQuietly_unannounced e now hinput]
  | some e₀ =>
    rw [h₀, Option.map_some] at h₀'
    -- the evaluation has brought the links in line, so nothing comes of what is handed over
    obtain ⟨-, hline, -⟩ := h.evaluated h₀ roles'
    obtain ⟨hsame, hsilent⟩ := handOver_of_inLine hline now input
    rw [handle_of_evaluated h₀, handle_of_evaluated h₀', evaluate_unannounced,
      handOver_unannounced, hsame, hsilent]

end

end Engine

/-! ## Runs -/

namespace Run

variable {s : Settings}

/-- A run without its announcements says the same, and comes to the same engine but for the keys
that are held. -/
theorem unannounced_spec (r : Run s) :
    r.unannounced.engine = r.engine.unannounced ∧ r.unannounced.log = r.log := by
  induction r with
  | begin roles now =>
    have hbegin := (Engine.ofSettings s).evaluate_unannounced roles now
    exact ⟨congrArg Prod.fst hbegin, rfl⟩
  | handle before roles now input ih =>
    obtain ⟨hengine, hlog⟩ := ih
    -- every input finds the links in line, in whatever way the run has come there
    have hline := before.settings_engine_and_inLine.2
    cases hinput : input.concernsAnnouncements with
    | true =>
      obtain ⟨hsame, hsilent⟩ := Engine.handle_announcement hline now roles hinput
      simp only [unannounced, hinput, if_true, log, engine, hsame, hsilent, hengine, hlog,
        List.map_nil, List.append_nil, and_self]
    | false =>
      have hstep := Engine.handle_unannounced hline now roles hinput
      simp only [unannounced, hinput, Bool.false_eq_true, if_false, log, engine, hengine, hlog,
        hstep, and_self]

/-- **Announcements have no influence.** Take any two runs that differ in nothing but announcements
(on connections that are linked or not, of cores that are attached or not, at any time) and in the
timer that forgets them. In both, the same is said at the same times: the calls on every connection
in order, the snapshots, the answers to those who wait, and all other effects. And both come to the
same knowledge of the cores, the same state, the same deadlines of the other timers, which so run at
the same times, and the same links, up to the keys that are held. -/
theorem announcements_have_no_influence (r r' : Run s) (h : r.unannounced = r'.unannounced) :
    r.log = r'.log ∧
    r.effects = r'.effects ∧
    r.engine.namespaces = r'.engine.namespaces ∧
    r.engine.catalog = r'.engine.catalog ∧
    r.engine.switch = r'.engine.switch ∧
    (∀ t, t ≠ .expiry → r.engine.deadline? t = r'.engine.deadline? t) ∧
    r.engine.throttle = r'.engine.throttle ∧
    r.engine.autostop = r'.engine.autostop ∧
    r.engine.waiters = r'.engine.waiters ∧
    r.engine.latest = r'.engine.latest ∧
    r.engine.updates = r'.engine.updates ∧
    ∀ id,
      (r.engine.links.get? id).map
          (fun l => (l.connection, l.capabilities, l.enabled, l.replicating))
        = (r'.engine.links.get? id).map
          (fun l => (l.connection, l.capabilities, l.enabled, l.replicating)) := by
  obtain ⟨hengine, hlog⟩ := r.unannounced_spec
  obtain ⟨hengine', hlog'⟩ := r'.unannounced_spec
  have hsame : r.engine.unannounced = r'.engine.unannounced := by rw [← hengine, h, hengine']
  have hsaid : r.log = r'.log := by rw [← hlog, h, hlog']
  have heffects : r.effects = r'.effects := by rw [effects_eq_log, effects_eq_log, hsaid]
  refine ⟨hsaid, heffects, congrArg (·.namespaces) hsame, congrArg (·.catalog) hsame,
    congrArg (·.switch) hsame, fun t ht => ?_, congrArg (·.throttle) hsame,
    congrArg (·.autostop) hsame, congrArg (·.waiters) hsame, congrArg (·.latest) hsame,
    congrArg (·.updates) hsame, fun id => ?_⟩
  · have hdeadline := congrArg (·.deadline? t) hsame
    simp only [Engine.deadline?_unannounced, if_neg ht] at hdeadline
    exact hdeadline
  · -- of an unannounced link the same is seen as of the link
    have hlink := congrArg (fun e : Engine => (e.links.get? id).map
      fun l => (l.connection, l.capabilities, l.enabled, l.replicating)) hsame
    simp only [Engine.unannounced, SortedMap.get?_mapValues, Option.map_map] at hlink
    exact hlink

/-- A core is announced before its peer is linked, and once more after it was attached; the timer
that forgets announcements runs at last. -/
theorem announcements_have_no_influence_on_new_link :
    let allowed : Roles := fun _ _ => .allowed
    let c : Connection := ⟨⟨0⟩, default, 0⟩
    let core : CoreSnapshot := ⟨default, 0, default, []⟩
    let announced : Run {} := .handle (.begin allowed 0) allowed 1 (.announce c.id default)
    let joined : Run {} := .handle announced allowed 2 (.addPeer c)
    let attached : Run {} := .handle joined allowed 3 (.addCore .auth default core)
    let again : Run {} := .handle attached allowed 4 (.announce c.id default)
    let r : Run {} := .handle again allowed 5 (.timer .expiry)
    let joined' : Run {} := .handle (.begin allowed 0) allowed 2 (.addPeer c)
    let r' : Run {} := .handle joined' allowed 3 (.addCore .auth default core)
    r.unannounced = r'.unannounced ∧ r.log = r'.log ∧
      joined.engine.links.values.map (·.held.size) = [1] ∧
      callsOn c r.effects = [.replicate default] := by
  intro allowed c core announced joined attached again r joined' r'
  have hsame : r.unannounced = r'.unannounced := rfl
  exact ⟨hsame, (announcements_have_no_influence r r' hsame).1, by decide, by decide⟩

end Run

end LogSync
