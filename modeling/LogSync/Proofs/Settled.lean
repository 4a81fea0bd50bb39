import LogSync.Proofs.AutostopHistories
import LogSync.Proofs.Replication
import LogSync.Proofs.TrackedCores

/-!
# No change is missed

A change of a core asks the throttle for an evaluation; whatever else an evaluation goes by either
is evaluated at once or cannot change. So as long as no run is pending, the engine is as the last
evaluation has left it, up to kept counts and announcements: it is *settled*. An evaluation settles
an engine (`Engine.settled_evaluate`), every other input keeps it settled or notifies the throttle
(`Engine.rests_or_notes`), and to evaluate a settled engine changes nothing
(`Engine.evaluate_of_settled`).
-/

namespace LogSync

/-! ## Deciding twice -/

/-- A verdict is its own consequence: with the state that it gives, it is given again. -/
theorem SyncSwitch.verdict_current (s : SyncSwitch) (synced : Bool) :
    { s with current := (s.verdict synced).state }.verdict synced = s.verdict synced := by
  obtain ⟨wantsData, fullStop, current⟩ := s
  cases wantsData <;> cases fullStop <;> cases current <;> cases synced <;> rfl

namespace Autostop

/-- To observe the same count once more changes nothing. -/
theorem observe_of_lastOwned {a : Autostop} {owned : Nat} (h : a.lastOwned = some owned) :
    (a.observe owned).1 = a := by
  obtain ⟨after, deadline, lastOwned⟩ := a
  obtain rfl : lastOwned = some owned := h
  simp [observe]

/-- What the timer was told to do, it need not be told again. -/
theorem apply_apply (a : Autostop) (action : AutostopAction) (now now' : Nat) :
    (a.apply action now).apply action now' = a.apply action now := by
  obtain ⟨after, deadline, lastOwned⟩ := a
  cases action <;> cases after <;> cases deadline <;> rfl

/-- After an observation and an action, the same two change nothing more. -/
theorem observe_apply (a : Autostop) (owned : Nat) (action : AutostopAction) (now now' : Nat) :
    ((((a.observe owned).1.apply action now).observe owned).1.apply action now')
      = (a.observe owned).1.apply action now := by
  rw [observe_of_lastOwned, apply_apply]
  rw [lastOwned_apply]
  rfl

end Autostop

/-! ## Sound trackers -/

/-- Every tracker is sound. -/
def AllSound (catalog : Catalog) (namespaces : SortedMap Namespace NamespaceTracker) : Prop :=
  ∀ ns t, namespaces.get? ns = some t → t.Sound catalog

namespace AllSound

variable {catalog : Catalog} {namespaces : SortedMap Namespace NamespaceTracker}

/-- Trackers stay sound if each is changed soundly. -/
theorem mapValues (h : AllSound catalog namespaces)
    {f : Namespace → NamespaceTracker → NamespaceTracker}
    (hf : ∀ ns t, t.Sound catalog → (f ns t).Sound catalog) :
    AllSound catalog (namespaces.mapValues f) := by
  intro ns t ht
  rw [SortedMap.get?_mapValues] at ht
  obtain ⟨t', ht', rfl⟩ := Option.map_eq_some_iff.1 ht
  exact hf ns t' (h ns t' ht')

/-- Trackers stay sound when a sound one is put among them. -/
theorem insert (h : AllSound catalog namespaces) {t : NamespaceTracker} (ht : t.Sound catalog)
    (ns : Namespace) : AllSound catalog (namespaces.insert ns t) := by
  intro ns' t' ht'
  rw [SortedMap.get?_insert] at ht'
  split at ht'
  · obtain rfl := Option.some.inj ht'
    exact ht
  · exact h ns' t' ht'

/-- Trackers stay sound while the catalog grows. -/
theorem mono (h : AllSound catalog namespaces) {catalog' : Catalog}
    (hgrown : ∀ key, catalog.contains key = true → catalog'.contains key = true) :
    AllSound catalog' namespaces := fun ns t ht => (h ns t ht).mono hgrown

end AllSound

namespace Engine

variable (roles : Roles) (now : Nat) {e : Engine}

/-- An evaluation gives the peers their records namespace by namespace. -/
theorem registered_eq (e : Engine) :
    e.registered roles
      = e.namespaces.mapValues fun ns t => t.addPartners ns (e.partnersSeen roles) := by
  simp only [NamespaceTracker.addPartners, partnersSeen, List.foldl_map]
  rfl

/-- Trackers stay sound when the peers are given their records. -/
theorem allSound_registered (h : AllSound e.catalog e.namespaces) :
    AllSound e.catalog (e.registered roles) := by
  rw [registered_eq]
  exact h.mapValues fun ns t ht => ht.addPartners _

/-- Trackers stay sound through an evaluation. -/
theorem allSound_evaluate (h : AllSound e.catalog e.namespaces) :
    AllSound (e.evaluate roles now).1.catalog (e.evaluate roles now).1.namespaces := by
  rw [evaluate_engine]
  exact (allSound_registered roles h).mapValues fun ns t ht => ht.state

/-- Trackers stay sound through what an input does before it is evaluated. -/
theorem allSound_of_evaluated {e₀ : Engine} {now : Nat} {input : Input}
    (h : AllSound e.catalog e.namespaces) (h₀ : e.evaluatedFor? now input = some e₀) :
    AllSound e₀.catalog e₀.namespaces := by
  obtain ⟨hnamespaces, hcatalog⟩ := frame_of_evaluated h₀
  rw [hnamespaces, hcatalog]
  exact h

/-! ## Settled engines -/

/-- The counts of every namespace, as they follow from what is known of the cores. -/
def totals (e : Engine) : NamespaceStates := e.namespaces.mapValues fun _ t => t.total

/-- What an evaluation would decide. -/
def verdictNow (e : Engine) : Verdict :=
  e.switch.verdict (e.isSyncedFor e.totals e.switch.goal)

/-- An engine that is as an evaluation leaves it. -/
structure Settled (e : Engine) : Prop where
  registered : ∀ {ns t p caps}, e.namespaces.get? ns = some t → (p, caps) ∈ e.partners →
    caps.allows ns = true → t.Knows p
  current : e.verdictNow.state = e.switch.current
  autostop : ∀ now, (e.autostop.observe (dataOwned e.totals)).1.apply e.verdictNow.autostop now
    = e.autostop
  latest : e.latest = .of e.switch.current (devicesProgress e.totals e.plan e.partners)
  waiting : ∀ w ∈ e.waiters, e.isSyncedFor e.totals w.goal = false

/-- Reading sound trackers gives what follows from the cores. -/
theorem readStates_of_allSound (h : AllSound e.catalog e.namespaces) :
    e.readStates.1 = e.totals := by
  rw [readStates_states]
  exact SortedMap.mapValues_congr fun x hx => (h _ _ (SortedMap.get?_of_mem hx)).state_eq

/-! ### Evaluating settles -/

/-- What follows from the cores after an evaluation is what the evaluation went by. -/
theorem totals_evaluate (h : AllSound e.catalog e.namespaces) :
    (e.evaluate roles now).1.totals = e.statesSeen roles := by
  rw [evaluate_engine]
  show ((e.registered roles).mapValues fun _ t => t.state.2).mapValues (fun _ t => t.total)
    = (e.registered roles).mapValues fun _ t => t.state.1
  rw [SortedMap.mapValues_mapValues]
  refine SortedMap.mapValues_congr fun x hx => ?_
  have hsound := allSound_registered roles h _ _ (SortedMap.get?_of_mem hx)
  exact x.2.total_state.trans hsound.state_eq.symm

theorem partners_evaluate (e : Engine) :
    (e.evaluate roles now).1.partners = e.partnersSeen roles := by
  rw [evaluate_engine]
  exact partners_mapValues _ (fun _ => rfl) (fun _ => rfl)

/-- A goal is reached after an evaluation if and only if it was in its eyes. -/
theorem isSyncedFor_evaluate (h : AllSound e.catalog e.namespaces) (goal : SyncGoal) :
    (e.evaluate roles now).1.isSyncedFor (e.evaluate roles now).1.totals goal
      = e.syncedSeen roles goal := by
  unfold isSyncedFor syncedSeen
  rw [totals_evaluate roles now h, partners_evaluate, evaluate_engine]
  rfl

/-- The next evaluation would decide as the last one has. -/
theorem verdictNow_evaluate (h : AllSound e.catalog e.namespaces) :
    (e.evaluate roles now).1.verdictNow = e.verdictSeen roles := by
  unfold verdictNow
  rw [isSyncedFor_evaluate roles now h, evaluate_engine]
  exact e.switch.verdict_current (e.syncedSeen roles e.switch.goal)

/-- An evaluation settles every engine. -/
theorem settled_evaluate (h : AllSound e.catalog e.namespaces) :
    (e.evaluate roles now).1.Settled where
  registered {ns t p caps} ht hp hallows := by
    rw [partners_evaluate] at hp
    rw [evaluate_engine] at ht
    have hread := (SortedMap.get?_mapValues _ _ _).symm.trans ht
    obtain ⟨t', ht', rfl⟩ := Option.map_eq_some_iff.1 hread
    -- the partners were added before the read, which keeps their records
    rw [registered_eq, SortedMap.get?_mapValues] at ht'
    obtain ⟨t'', -, rfl⟩ := Option.map_eq_some_iff.1 ht'
    exact NamespaceTracker.Knows.state (t''.knows_addPartners hp hallows)
  current := by
    rw [verdictNow_evaluate roles now h, evaluate_engine]
  autostop now' := by
    rw [verdictNow_evaluate roles now h, totals_evaluate roles now h, evaluate_engine]
    exact e.autostop.observe_apply _ _ now now'
  latest := by
    rw [totals_evaluate roles now h, partners_evaluate, evaluate_engine]
    rfl
  waiting w hw := by
    rw [isSyncedFor_evaluate roles now h]
    rw [evaluate_engine] at hw
    simpa using (List.mem_filter.1 hw).2

/-! ### Evaluating what is settled -/

/-- If no link has anything to say, nothing is said. -/
theorem updateLinks_effects_nil {f : PeerLink → PeerLink × List ReplicationCall}
    (h : ∀ l ∈ e.links.values, (f l).2 = []) : (e.updateLinks f).2 = [] := by
  show (e.links.mapValues fun _ l => f l).values.flatMap _ = []
  rw [SortedMap.values_mapValues, List.flatMap_map, List.flatMap_eq_nil_iff]
  intro l hl
  simp only
  rw [h l hl, List.map_nil]

section
variable {roles : Roles} (hline : e.InLine roles)
include hline

/-- A link in line has nothing to do for the roles. -/
theorem setCapabilities_of_inLine {id : ConnectionId} {l : PeerLink}
    (hl : e.links.get? id = some l) :
    l.setCapabilities e.plan e.catalog (roles.resolve e.plan l.peer) = (l, []) := by
  unfold PeerLink.setCapabilities
  rw [if_pos (hline.capabilities hl).symm]

/-- A link in line has nothing to do for the state of the switch. -/
theorem setEnabled_of_inLine {id : ConnectionId} {l : PeerLink} (hl : e.links.get? id = some l) :
    l.setEnabled e.plan e.catalog e.switch.current = (l, []) := by
  unfold PeerLink.setEnabled
  rw [← hline.enabled hl]
  exact PeerLink.reconcile_of_exact (hline.exact hl)

/-- To look up the roles again leaves links in line as they are. -/
theorem refreshed_of_inLine : e.refreshed roles = e.links := by
  refine SortedMap.mapValues_eq_self fun x hx => ?_
  rw [setCapabilities_of_inLine hline (SortedMap.get?_of_mem hx)]

theorem partnersSeen_of_inLine : e.partnersSeen roles = e.partners := by
  unfold partnersSeen
  rw [refreshed_of_inLine hline]
  rfl

variable (hsettled : e.Settled)
include hsettled

/-- In a settled engine every peer has its records already. -/
theorem registered_of_settled : e.registered roles = e.namespaces := by
  rw [registered_eq, partnersSeen_of_inLine hline]
  refine SortedMap.mapValues_eq_self fun x hx => ?_
  exact NamespaceTracker.addPartners_of_knows fun p caps hp hallows =>
    hsettled.registered (SortedMap.get?_of_mem hx) hp hallows

variable (hsound : AllSound e.catalog e.namespaces)
include hsound

/-- An evaluation of a settled engine goes by the counts as they are. -/
theorem statesSeen_of_settled : e.statesSeen roles = e.totals := by
  unfold statesSeen
  rw [registered_of_settled hline hsettled, ← readStates_states, readStates_of_allSound hsound]

theorem syncedSeen_of_settled (goal : SyncGoal) :
    e.syncedSeen roles goal = e.isSyncedFor e.totals goal := by
  unfold syncedSeen
  rw [statesSeen_of_settled hline hsettled hsound, partnersSeen_of_inLine hline]
  rfl

/-- An evaluation of a settled engine decides what is decided already. -/
theorem verdictSeen_of_settled : e.verdictSeen roles = e.verdictNow := by
  unfold verdictSeen
  rw [syncedSeen_of_settled hline hsettled hsound]
  rfl

/-- The engine after an evaluation of a settled one: only kept counts and the number of snapshots
are others. -/
theorem evaluate_engine_of_settled (now : Nat) :
    (e.evaluate roles now).1 =
      { e with
        namespaces := e.namespaces.mapValues fun _ t => t.state.2
        updates := e.updates + 1 } := by
  have hlinks : (e.links.mapValues fun _ l =>
      (l.setEnabled e.plan e.catalog e.switch.current).1) = e.links := by
    refine SortedMap.mapValues_eq_self fun x hx => ?_
    rw [setEnabled_of_inLine hline (SortedMap.get?_of_mem hx)]
  have hwaiters : (e.waiters.filter fun w => !e.isSyncedFor e.totals w.goal) = e.waiters := by
    refine List.filter_eq_self.2 fun w hw => ?_
    rw [hsettled.waiting w hw]
    rfl
  rw [evaluate_engine, verdictSeen_of_settled hline hsettled hsound,
    statesSeen_of_settled hline hsettled hsound, registered_of_settled hline hsettled,
    partnersSeen_of_inLine hline, refreshed_of_inLine hline, hsettled.current, hlinks,
    hsettled.autostop now, ← hsettled.latest]
  simp only [syncedSeen_of_settled hline hsettled hsound, hwaiters]

/-- To evaluate a settled engine says nothing but the last snapshot. -/
theorem evaluate_effects_of_settled (now : Nat) :
    (e.evaluate roles now).2 = [.publish e.latest] := by
  have hrefresh : (e.refreshCapabilities roles).2 = [] := by
    refine updateLinks_effects_nil fun l hl => ?_
    obtain ⟨x, hx, rfl⟩ := List.mem_map.1 hl
    rw [setCapabilities_of_inLine hline (SortedMap.get?_of_mem hx)]
  have hpush : ((e.decided roles now).updateLinks
      (·.setEnabled e.plan e.catalog (e.verdictSeen roles).state)).2 = [] := by
    refine updateLinks_effects_nil fun l hl => ?_
    rw [show (e.decided roles now).links = e.links from refreshed_of_inLine hline] at hl
    obtain ⟨x, hx, rfl⟩ := List.mem_map.1 hl
    rw [verdictSeen_of_settled hline hsettled hsound, hsettled.current,
      setEnabled_of_inLine hline (SortedMap.get?_of_mem hx)]
  have hanswers : (e.waiters.filter fun w => e.syncedSeen roles w.goal) = [] := by
    refine List.filter_eq_nil_iff.2 fun w hw => ?_
    rw [syncedSeen_of_settled hline hsettled hsound, hsettled.waiting w hw]
    exact Bool.false_ne_true
  rw [evaluate_effects, hrefresh, hpush, hanswers,
    evaluate_engine_of_settled hline hsettled hsound now]
  rfl

end

/-! ## Inputs that leave settled engines alone -/

/-- What an evaluation goes by has not changed: some trackers were read, some callers wait no
longer, and others wait for what is not reached. -/
structure Rests (e e' : Engine) : Prop where
  catalog : e'.catalog = e.catalog
  switch : e'.switch = e.switch
  autostop : e'.autostop = e.autostop
  throttle : e'.throttle = e.throttle
  latest : e'.latest = e.latest
  namespaces : ∃ read : Namespace → Bool,
    e'.namespaces = e.namespaces.mapValues fun ns t => if read ns then t.state.2 else t
  waiters : ∀ w ∈ e'.waiters, w ∈ e.waiters ∨ e.isSyncedFor e.totals w.goal = false

/-- Reading no tracker leaves all as they are. -/
theorem reads_none (e : Engine) : ∃ read : Namespace → Bool,
    e.namespaces = e.namespaces.mapValues fun ns t => if read ns then t.state.2 else t :=
  ⟨fun _ => false, (SortedMap.mapValues_eq_self fun _ _ => rfl).symm⟩

theorem Rests.refl (e : Engine) : e.Rests e :=
  ⟨rfl, rfl, rfl, rfl, rfl, e.reads_none, fun _ hw => Or.inl hw⟩

/-- Trackers stay sound while nothing changes that an evaluation goes by. -/
theorem Rests.allSound {e' : Engine} (h : e.Rests e') (hsound : AllSound e.catalog e.namespaces) :
    AllSound e'.catalog e'.namespaces := by
  obtain ⟨read, hread⟩ := h.namespaces
  rw [h.catalog, hread]
  refine hsound.mapValues fun ns t ht => ?_
  split
  · exact ht.state
  · exact ht

/-- The counts stay the same while nothing changes that an evaluation goes by. -/
theorem Rests.totals_eq {e' : Engine} (h : e.Rests e') : e'.totals = e.totals := by
  obtain ⟨read, hread⟩ := h.namespaces
  unfold totals
  rw [hread, SortedMap.mapValues_mapValues]
  refine SortedMap.mapValues_congr fun x _ => ?_
  split
  · exact x.2.total_state
  · rfl

/-- Quiet steps change neither peers nor their capabilities. -/
theorem Quiet.partners_eq {out : Engine × List Effect} (h : e.Quiet out) :
    out.1.partners = e.partners := by
  let view (l : PeerLink) : PeerId × Capabilities := (l.peer, l.capabilities)
  have hviews :
      (out.1.links.mapValues fun _ l => view l) = e.links.mapValues fun _ l => view l := by
    refine SortedMap.ext_get? fun id => ?_
    rw [SortedMap.get?_mapValues, SortedMap.get?_mapValues]
    cases hl : e.links.get? id with
    | none =>
      cases hl' : out.1.links.get? id with
      | none => rfl
      | some l' =>
        obtain ⟨l, hl''⟩ := h.links.back hl'
        rw [hl] at hl''
        contradiction
    | some l =>
      obtain ⟨l', hl', hlink⟩ := h.links.forth hl
      rw [hl', Option.map_some, Option.map_some]
      exact congrArg some (Prod.ext (congrArg Connection.peer hlink.connection) hlink.capabilities)
  have hvalues := congrArg SortedMap.values hviews
  rw [SortedMap.values_mapValues, SortedMap.values_mapValues] at hvalues
  exact hvalues

/-- A quiet step that leaves the counts alone leaves alone which goals are reached. -/
theorem Quiet.isSyncedFor_eq {out : Engine × List Effect} (hquiet : e.Quiet out)
    (hrests : e.Rests out.1) (goal : SyncGoal) :
    out.1.isSyncedFor out.1.totals goal = e.isSyncedFor e.totals goal := by
  have hplan : out.1.plan = e.plan := congrArg Settings.plan hquiet.settings
  unfold isSyncedFor
  rw [hrests.totals_eq, hquiet.partners_eq, hplan]

/-- A settled engine stays settled in a quiet step that leaves alone what evaluations go by. -/
theorem Settled.of_rests {out : Engine × List Effect} (h : e.Settled) (hquiet : e.Quiet out)
    (hrests : e.Rests out.1) : out.1.Settled := by
  have hplan : out.1.plan = e.plan := congrArg Settings.plan hquiet.settings
  have hsynced := hquiet.isSyncedFor_eq hrests
  have hverdict : out.1.verdictNow = e.verdictNow := by
    unfold verdictNow
    rw [hsynced, hrests.switch]
  refine ⟨fun {ns t p caps} ht hp hallows => ?_, ?_, fun now => ?_, ?_, fun w hw => ?_⟩
  · rw [hquiet.partners_eq] at hp
    obtain ⟨read, hread⟩ := hrests.namespaces
    rw [hread, SortedMap.get?_mapValues] at ht
    obtain ⟨t', ht', rfl⟩ := Option.map_eq_some_iff.1 ht
    split
    · exact NamespaceTracker.Knows.state (h.registered ht' hp hallows)
    · exact h.registered ht' hp hallows
  · rw [hverdict, hrests.switch, h.current]
  · rw [hverdict, hrests.autostop, hrests.totals_eq, h.autostop]
  · rw [hrests.latest, hrests.switch, hrests.totals_eq, hquiet.partners_eq, hplan, h.latest]
  · rw [hsynced]
    rcases hrests.waiters w hw with hwaits | hopen
    · exact h.waiting w hwaits
    · exact hopen

/-- The trackers have changed, and the throttle knows. -/
structure Notes (e' : Engine) : Prop where
  pending : e'.throttle.isPending = true
  sound : AllSound e'.catalog e'.namespaces

/-- After a notice the throttle has a run to take. -/
theorem pending_notify (e : Engine) (now : Nat) : (e.notify now).throttle.isPending = true := by
  show (e.throttle.notify now).deadline.isSome = true
  unfold Throttle.notify
  split
  · assumption
  · rfl

section
variable (hsound : AllSound e.catalog e.namespaces)
include hsound

/-- Whoever comes to wait changes nothing that an evaluation goes by. -/
theorem rests_wait (w : Waiter) : e.Rests (e.wait w).1 := by
  have hreads : ∃ read : Namespace → Bool, (e.namespaces.mapValues fun _ t => t.state.2)
      = e.namespaces.mapValues fun ns t => if read ns then t.state.2 else t := ⟨fun _ => true, rfl⟩
  unfold wait
  dsimp only
  rw [readStates_engine, readStates_of_allSound hsound]
  split
  · exact ⟨rfl, rfl, rfl, rfl, rfl, hreads, fun _ hw => Or.inl hw⟩
  · next hopen =>
    refine ⟨rfl, rfl, rfl, rfl, rfl, hreads, fun w' hw' => ?_⟩
    rcases List.mem_append.1 hw' with hw' | hw'
    · exact Or.inl hw'
    · rw [List.mem_singleton.1 hw']
      exact Or.inr (Bool.eq_false_iff.2 hopen)

omit hsound in
theorem rests_report (ns : Namespace) : e.Rests (e.report ns).1 := by
  unfold report
  cases ht : e.namespaces.get? ns with
  | none => exact .refl e
  | some t =>
    refine ⟨rfl, rfl, rfl, rfl, rfl, ⟨fun ns' => ns' == ns, ?_⟩, fun _ hw => Or.inl hw⟩
    refine SortedMap.ext_get? fun ns' => ?_
    show (e.namespaces.insert ns t.state.2).get? ns' = _
    rw [SortedMap.get?_insert, SortedMap.get?_mapValues]
    by_cases hns : ns' = ns
    · rw [if_pos hns, hns, ht]
      simp
    · simp [hns]

omit hsound in
/-- A core that has attached its snapshot keeps its tracker sound, with the catalog that it stands
in from then on. -/
theorem sound_withCore {ns : Namespace} {t : NamespaceTracker} (h : t.Sound e.catalog)
    {key : DiscoveryKey} {snapshot : CoreSnapshot} {core : CoreTracker}
    (hattach : (t.core key).attach snapshot = .ok (core, true)) (peers : List PeerLink) :
    (t.setCore key (peers.foldl (fun core l => (core.addPeer l.peer).1) core)).Sound
      (e.catalog.insert key ns).1 := by
  have hcore : CoreOp.apply (t.core key) (.attach snapshot) = core := by
    simp only [CoreOp.apply, hattach]
  have hgrown := h.mono fun k hk => Catalog.contains_insert hk key ns
  -- the tracker is sound with the attached core, and stays so with each peer that is added
  refine List.foldlRecOn
    (motive := fun core => (t.setCore key core).Sound (e.catalog.insert key ns).1) peers _ ?_ ?_
  · refine hgrown.setCore ?_ ?_ ⟨?_, fun _ => e.catalog.contains_insert_self key ns⟩
    · rw [← hcore]
      exact CoreOp.fresh_apply (h.fresh_core key) _
    · rw [← hcore]
      exact CoreOp.evolves_apply _ _
    · exact (CoreTracker.key_attach hattach).trans (h.placed_core key).key_eq
  · intro core hsound l _
    have hagain := hsound.setCore_apply key (.addPeer l.peer) rfl
    rw [NamespaceTracker.core_setCore, NamespaceTracker.setCore_setCore] at hagain
    exact hagain

omit hsound in
/-- A core that is attached already stands in the catalog. -/
theorem contains_of_not_new {t : NamespaceTracker} (h : t.Sound e.catalog)
    {key : DiscoveryKey} {snapshot : CoreSnapshot} {core : CoreTracker}
    (hattach : (t.core key).attach snapshot = .ok (core, false)) :
    e.catalog.contains key = true :=
  (h.placed_core key).attached (CoreTracker.attached_of_attach hattach)

/-- Trackers stay sound when a core is added, also if it is refused. -/
theorem allSound_addCore (now : Nat) (ns : Namespace) (key : DiscoveryKey)
    (snapshot : CoreSnapshot) :
    AllSound (e.addCore now ns key snapshot).1.catalog
      (e.addCore now ns key snapshot).1.namespaces := by
  rcases e.addCore_cases now ns key snapshot with
    ⟨result, heq⟩ | ⟨t, ht, hnew, ⟨err, -, heq⟩ | ⟨core, hattach, -⟩ | ⟨core, hattach, heq⟩⟩
  · rw [heq]
    exact hsound
  · -- a refused snapshot leaves a core behind of which nothing new is known
    rw [heq]
    have ht := hsound ns t ht
    exact hsound.insert (ht.setCore (ht.fresh_core key) (.refl _) (ht.placed_core key)) ns
  · rw [contains_of_not_new (hsound ns t ht) hattach] at hnew
    contradiction
  · rw [heq]
    show AllSound (e.withCore ns t key core).catalog (e.withCore ns t key core).namespaces
    exact (hsound.mono fun k hk => Catalog.contains_insert hk key ns).insert
      (sound_withCore (hsound ns t ht) hattach _) ns

/-- A core that is not in the catalog is new, and no snapshot of the core's own key is refused. -/
theorem notes_addCore {ns : Namespace} {key : DiscoveryKey} {snapshot : CoreSnapshot}
    (hkey : snapshot.key = key) (now : Nat) :
    e.Rests (e.addCore now ns key snapshot).1 ∨ (e.addCore now ns key snapshot).1.Notes := by
  rcases e.addCore_cases now ns key snapshot with
    ⟨result, heq⟩ | ⟨t, ht, hnew, ⟨err, hattach, -⟩ | ⟨core, hattach, -⟩ | ⟨core, hattach, heq⟩⟩
  · rw [heq]
    exact Or.inl (.refl e)
  · -- the tracker bears the key that it stands under, which the snapshot names
    have hplaced := ((hsound ns t ht).placed_core key).key_eq
    rw [CoreTracker.attach, if_neg (by rw [hkey, hplaced]; exact fun h => h rfl)] at hattach
    split at hattach <;> contradiction
  · rw [contains_of_not_new (hsound ns t ht) hattach] at hnew
    contradiction
  · refine Or.inr ⟨?_, allSound_addCore hsound now ns key snapshot⟩
    rw [heq]
    exact pending_notify _ now

/-- An operation on a tracked core is noted with the throttle. -/
theorem notes_setCore {ns : Namespace} {t : NamespaceTracker} (ht : e.namespaces.get? ns = some t)
    (key : DiscoveryKey) (op : CoreOp) (hop : op.isAttach = false) (now : Nat) :
    Notes ({ e with
      namespaces := e.namespaces.insert ns (t.setCore key (op.apply (t.core key))) }.notify now) :=
  ⟨pending_notify _ now, hsound.insert ((hsound ns t ht).setCore_apply key op hop) ns⟩

/-- An input about a named core is noted with the throttle, or changes nothing. -/
theorem notes_updateNamed (now : Nat) (ns : Namespace) (key : DiscoveryKey) (op : CoreOp)
    (hop : op.isAttach = false) :
    e.Rests (e.updateNamed now ns key fun core => op.apply core) ∨
      (e.updateNamed now ns key fun core => op.apply core).Notes := by
  unfold updateNamed
  dsimp only
  split
  · exact Or.inl (.refl e)
  · next t ht => exact Or.inr (notes_setCore hsound ht key op hop now)

/-- An event either leaves a core alone or is noted. -/
theorem notes_coreEvent (now : Nat) (key : DiscoveryKey) (event : CoreEvent) :
    e.Rests (e.coreEvent now key event) ∨ (e.coreEvent now key event).Notes := by
  unfold coreEvent
  dsimp only
  split
  · exact Or.inl (.refl e)
  · next ns t core htracked =>
    simp only [Option.bind_eq_bind, Option.bind_eq_some_iff] at htracked
    obtain ⟨ns', -, t', ht, core', hcore, heq⟩ := htracked
    cases heq
    split
    · have hnotes := notes_setCore hsound ht key (.event event) rfl now
      rw [show t.core key = core by rw [NamespaceTracker.core, hcore]; rfl] at hnotes
      exact Or.inr hnotes
    · exact Or.inl (.refl e)

omit hsound in
/-- A new link that takes announcements over is no news for an evaluation. -/
theorem rests_handOver (e : Engine) (now : Nat) (input : Input) :
    e.Rests (e.handOver now input).1 := by
  cases input
  case addPeer c => exact ⟨rfl, rfl, rfl, rfl, rfl, e.reads_none, fun _ hw => Or.inl hw⟩
  all_goals exact .refl e

/-- An input that is not evaluated at once either leaves alone what evaluations go by, or has the
throttle ask for one. -/
theorem rests_or_notes (now : Nat) {input : Input}
    (hnamed : ∀ ns key snapshot, input = .addCore ns key snapshot → snapshot.key = key) :
    e.Rests (e.handleQuietly now input).1 ∨ (e.handleQuietly now input).1.Notes := by
  -- links and announcements are no part of what an evaluation goes by, but for the partners
  have hrests {e' : Engine} (hsame : e' = { e with links := e'.links, early := e'.early }) :
      e.Rests e' := by
    rw [hsame]
    exact ⟨rfl, rfl, rfl, rfl, rfl, e.reads_none, fun _ hw => Or.inl hw⟩
  cases input
  case wait w => exact Or.inl (rests_wait hsound w)
  case abandon waiter =>
    refine Or.inl ⟨rfl, rfl, rfl, rfl, rfl, e.reads_none, fun w hw => Or.inl ?_⟩
    exact (List.mem_filter.1 hw).1
  case announce id key =>
    simp only [handleQuietly, announce]
    split
    · exact Or.inl (hrests rfl)
    · exact Or.inl (hrests rfl)
  case addCore ns key snapshot => exact notes_addCore hsound (hnamed ns key snapshot rfl) now
  case preHaves p m =>
    exact notes_updateNamed hsound now m.ns m.key (.setPreHaves p (.ofWords m.start m.words)) rfl
  case wants ns key p ranges => exact notes_updateNamed hsound now ns key (.addWants p ranges) rfl
  case report ns => exact Or.inl (rests_report ns)
  case coreEvent key event => exact notes_coreEvent hsound now key event
  case timer t => cases t <;> exact Or.inl (hrests rfl)
  all_goals exact Or.inl (hrests rfl)

end

/-- An engine begins with sound trackers. -/
theorem allSound_ofSettings (s : Settings) :
    AllSound (ofSettings s).catalog (ofSettings s).namespaces := by
  have hempty : AllSound {} (∅ : SortedMap Namespace NamespaceTracker) :=
    fun ns t ht => by contradiction
  refine List.foldlRecOn (motive := AllSound {}) _ _ hempty fun m hm x hx => ?_
  obtain ⟨ns, -, rfl⟩ := List.mem_map.1 hx
  exact hm.insert (NamespaceTracker.sound_ofNamespace {} ns) ns

/-- What holds of an engine after every input, as long as the roles stay the same. -/
structure Awake (roles : Roles) (e : Engine) : Prop where
  inLine : e.InLine roles
  sound : AllSound e.catalog e.namespaces
  settled : e.throttle.isPending = false → e.Settled

/-- An engine is awake after every evaluation. -/
theorem awake_evaluate {roles : Roles} {now : Nat} {e : Engine}
    (hsound : AllSound e.catalog e.namespaces) (hline : (e.evaluate roles now).1.InLine roles) :
    (e.evaluate roles now).1.Awake roles :=
  ⟨hline, allSound_evaluate roles now hsound, fun _ => settled_evaluate roles now hsound⟩

/-- A quiet step that leaves alone what evaluations go by keeps an engine awake. -/
theorem Awake.of_rests {roles : Roles} {e : Engine} (h : e.Awake roles)
    {out : Engine × List Effect} (hquiet : e.Quiet out) (hrests : e.Rests out.1) :
    out.1.Awake roles where
  inLine := h.inLine.of_quiet hquiet
  sound := hrests.allSound h.sound
  settled hidle := (h.settled (hrests.throttle ▸ hidle)).of_rests hquiet hrests

/-- An engine stays awake through every input. -/
theorem Awake.handle {roles : Roles} {e : Engine} (h : e.Awake roles) (now : Nat) {input : Input}
    (hnamed : ∀ ns key snapshot, input = .addCore ns key snapshot → snapshot.key = key) :
    (e.handle roles now input).1.Awake roles := by
  cases h₀ : e.evaluatedFor? now input with
  | some e₀ =>
    obtain ⟨-, hline, hquiet⟩ := h.inLine.evaluated h₀ roles
    have hevaluated := awake_evaluate (allSound_of_evaluated h.sound h₀) hline
    have hhanded := hevaluated.of_rests hquiet (rests_handOver _ now input)
    rw [handle_of_evaluated h₀]
    exact hhanded
  | none =>
    have hquiet := quiet_handleQuietly h.inLine.keyed now input
    rw [handle_of_not_evaluated h₀]
    rcases rests_or_notes h.sound now hnamed with hrests | hnotes
    · exact h.of_rests hquiet hrests
    · -- with a run pending there is nothing to show of settledness
      refine ⟨h.inLine.of_quiet hquiet, hnotes.sound, fun hidle => ?_⟩
      rw [hnotes.pending] at hidle
      contradiction

end Engine

/-! ## Runs -/

namespace Run

variable {s : Settings}

/-- The roles have not changed in a run. -/
def RolesAre (roles : Roles) : Run s → Prop
  | begin roles' _ => roles' = roles
  | handle before roles' _ _ => before.RolesAre roles ∧ roles' = roles

/-- The snapshot of every added core names the core. -/
def NamesCores : Run s → Prop
  | begin _ _ => True
  | handle before _ _ input => before.NamesCores ∧
    ∀ ns key snapshot, input = .addCore ns key snapshot → snapshot.key = key

/-- An engine is awake after every run under the same roles. -/
theorem awake {roles : Roles} (r : Run s) (hroles : r.RolesAre roles) (hnamed : r.NamesCores) :
    r.engine.Awake roles := by
  induction r with
  | begin roles' now =>
    obtain rfl : roles' = roles := hroles
    exact Engine.awake_evaluate (Engine.allSound_ofSettings s)
      (begin roles' now).settings_engine_and_inLine.2
  | handle before roles' now input ih =>
    obtain ⟨hbefore, rfl⟩ := hroles
    exact (ih hbefore hnamed.1).handle now hnamed.2

/-- **No change is missed.** If the roles stay the same and every added core is the one that its
snapshot names, then after every input of every run that leaves no run of the throttle pending, an
evaluation would change nothing: neither counts nor what is synced nor the autostop timer. It would
make no call, publish the same snapshot again and answer nobody. -/
theorem evaluation_changes_nothing_when_idle {roles : Roles} (r : Run s)
    (hroles : r.RolesAre roles) (hnamed : r.NamesCores)
    (hidle : r.engine.throttle.isPending = false) (now : Nat) :
    let again := r.engine.evaluate roles now
    again.1.readStates.1 = r.engine.readStates.1 ∧
      again.1.switch = r.engine.switch ∧
      again.1.autostop = r.engine.autostop ∧
      again.1.links = r.engine.links ∧
      again.1.latest = r.engine.latest ∧
      again.1.waiters = r.engine.waiters ∧
      again.2 = [.publish r.engine.latest] := by
  intro again
  obtain ⟨hline, hsound, hsettled⟩ := r.awake hroles hnamed
  replace hsettled := hsettled hidle
  have hengine := Engine.evaluate_engine_of_settled hline hsettled hsound now
  have hstates : again.1.readStates.1 = r.engine.readStates.1 := by
    rw [Engine.readStates_of_allSound (Engine.allSound_evaluate roles now hsound),
      Engine.totals_evaluate roles now hsound,
      Engine.statesSeen_of_settled hline hsettled hsound, Engine.readStates_of_allSound hsound]
  refine ⟨hstates, ?_, ?_, ?_, ?_, ?_,
    Engine.evaluate_effects_of_settled hline hsettled hsound now⟩
  all_goals simp only [again, hengine]

/-- A peer joins, a core is attached, and the throttle runs once. -/
theorem evaluation_changes_nothing_after_throttled_run :
    let allowed : Roles := fun _ _ => .allowed
    let joined : Run {} := .handle (.begin allowed 0) allowed 0 (.addPeer ⟨⟨0⟩, default, 0⟩)
    let attached : Run {} :=
      .handle joined allowed 0 (.addCore .data default ⟨default, 1, default, []⟩)
    let r : Run {} := .handle attached allowed 0 (.timer .throttle)
    attached.engine.throttle.isPending = true ∧
      r.RolesAre allowed ∧ r.NamesCores ∧ r.engine.throttle.isPending = false ∧
      (r.engine.evaluate allowed 1).2 = [.publish r.engine.latest] := by
  intro allowed joined attached r
  have hroles : r.RolesAre allowed := ⟨⟨⟨rfl, rfl⟩, rfl⟩, rfl⟩
  have hnamed : r.NamesCores := by
    refine ⟨⟨⟨trivial, ?_⟩, ?_⟩, ?_⟩ <;> intro ns key snapshot h <;> cases h
    rfl
  have hidle : r.engine.throttle.isPending = false := by decide
  obtain ⟨-, -, -, -, -, -, heffects⟩ :=
    evaluation_changes_nothing_when_idle r hroles hnamed hidle 1
  exact ⟨by decide, hroles, hnamed, hidle, heffects⟩

end Run

end LogSync
