import LogSync.Proofs.TrackerSteps
import LogSync.Proofs.WalkCounts

/-!
# What blocked peers are owed

A peer that may not sync a namespace is given no record in its cores, and does not hold a sync up by
being about to connect. But it may have records from before it was blocked, or from what it has
written, and the local counts are taken over all records. So a blocked peer keeps a goal from being
reached by the blocks that are due between it and the local peer, and by nothing else
(`Run.synced_iff_without_blocked`).
-/

namespace LogSync

/-! ## What is said -/

/-- A block is due between the local peer and another one: one has it, and the other would like to
and does not. -/
def CoreTracker.Due (core : CoreTracker) (r : PeerRecord) (i : Nat) : Prop :=
  r.has i = true ∧ core.localPeer.wishes i = true ∧ core.localPeer.has i = false ∨
    core.localPeer.has i = true ∧ r.wishes i = true ∧ r.has i = false

/-- The tracker as it would be if some peers had no record. -/
def CoreTracker.without (gone : PeerId → Bool) (core : CoreTracker) : CoreTracker :=
  { core with remotes := core.remotes.filter fun p _ => !gone p, cached := none }

namespace NamespaceTracker

/-- Some block of some core is due between the local peer and another one. -/
def Due (t : NamespaceTracker) (p : PeerId) : Prop :=
  ∃ key core r i, t.cores.get? key = some core ∧ core.remotes.get? p = some r ∧
    i < core.length ∧ core.Due r i

/-- The tracker as it would be if some peers had no record in any core. -/
def without (gone : PeerId → Bool) (t : NamespaceTracker) : NamespaceTracker :=
  { t with cores := t.cores.mapValues fun _ core => core.without gone, cached := none }

end NamespaceTracker

namespace Engine

/-- Whether a goal is reached, by the present counts. -/
def synced (e : Engine) (goal : SyncGoal) : Bool := e.isSyncedFor e.readStates.1 goal

/-- Whether a linked peer may not sync a namespace. -/
def isBlocked (e : Engine) (ns : Namespace) (p : PeerId) : Bool :=
  e.partners.any fun partner => partner.1 == p && !partner.2.allows ns

/-- The engine as it would be if no blocked peer had a record in a namespace that it may not
sync. -/
def withoutBlocked (e : Engine) : Engine :=
  { e with namespaces := e.namespaces.mapValues fun ns t => t.without (e.isBlocked ns) }

/-- No block that counts for a goal is due between the local peer and a blocked one. -/
def NothingDueToBlocked (e : Engine) (goal : SyncGoal) : Prop :=
  ∀ ns ∈ e.plan.forGoal goal, ∀ t, e.namespaces.get? ns = some t →
    ∀ p, e.isBlocked ns p = true → ¬ t.Due p

end Engine

/-! ## One core -/

namespace CoreTracker

/-- The local peer could get or give a block exactly if it is due between it and some remote. -/
theorem due_iff (core : CoreTracker) (i : Nat) :
    (core.localPeer.couldGet (everyPeer core.localPeer core.remotes) i = true ∨
        core.localPeer.couldGive (everyPeer core.localPeer core.remotes) i = true) ↔
      ∃ r ∈ core.remotes.values, core.Due r i := by
  unfold PeerRecord.couldGive PeerRecord.couldGet someoneHas everyPeer Due
  cases hhas : core.localPeer.has i with
  | true => simp [hhas]
  | false =>
    -- the counts ask everyone, but the local peer itself does not have the block
    simp only [hhas, Bool.not_false, Bool.and_true, List.any_cons, Bool.false_or, Bool.and_eq_true,
      List.any_eq_true, Bool.false_and, Bool.false_eq_true, or_false, and_true, false_and]
    constructor
    · rintro ⟨hwishes, r, hr, hthere⟩
      exact ⟨r, hr, hthere, hwishes⟩
    · rintro ⟨r, hr, hthere, hwishes⟩
      exact ⟨hwishes, r, hr, hthere⟩

section
variable {core : CoreTracker} (hlength : core.length ≤ lastIndex)
include hlength

/-- The local counts tell whether a block is due. -/
theorem counts_due_iff :
    (0 < core.derived.localPeer.want ∨ 0 < core.derived.localPeer.wanted) ↔
      ∃ p r i, core.remotes.get? p = some r ∧ i < core.length ∧ core.Due r i := by
  let everyone := everyPeer core.localPeer core.remotes
  have hderived : core.derived.localPeer = .blockwise everyone core.length core.localPeer := by
    rw [derived, CoreCounts.derive_eq_blockwise hlength]
    rfl
  rw [hderived]
  show (0 < countBelow (core.localPeer.couldGet everyone) core.length ∨
    0 < countBelow (core.localPeer.couldGive everyone) core.length) ↔ _
  rw [countBelow_pos_iff, countBelow_pos_iff]
  constructor
  · intro h
    obtain ⟨i, hi, hcould⟩ : ∃ i, i < core.length ∧
        (core.localPeer.couldGet everyone i = true ∨
          core.localPeer.couldGive everyone i = true) := by
      rcases h with ⟨i, hi, hget⟩ | ⟨i, hi, hgive⟩
      · exact ⟨i, hi, Or.inl hget⟩
      · exact ⟨i, hi, Or.inr hgive⟩
    obtain ⟨r, hr, hdue⟩ := (core.due_iff i).1 hcould
    obtain ⟨p, hp⟩ := SortedMap.mem_values_iff.1 hr
    exact ⟨p, r, i, hp, hi, hdue⟩
  · rintro ⟨p, r, i, hp, hi, hdue⟩
    have hcould := (core.due_iff i).2 ⟨r, SortedMap.mem_values_iff.2 ⟨p, hp⟩, hdue⟩
    exact hcould.imp (fun hget => ⟨i, hi, hget⟩) fun hgive => ⟨i, hi, hgive⟩

/-- The counts copy who is connected. -/
theorem connected_derived (p : PeerId) :
    (core.derived.remotes.get? p).map (·.connected) = (core.remotes.get? p).map (·.connected) := by
  rw [derived, CoreCounts.derive_eq_blockwise hlength]
  show ((core.remotes.mapValues _).get? p).map _ = _
  rw [SortedMap.get?_mapValues, Option.map_map]
  rfl

end

theorem get?_without (core : CoreTracker) (gone : PeerId → Bool) (p : PeerId) :
    (core.without gone).remotes.get? p = if gone p then none else core.remotes.get? p := by
  show (core.remotes.filter _).get? p = _
  rw [SortedMap.get?_filter]
  cases gone p <;> cases core.remotes.get? p <;> rfl

end CoreTracker

/-! ## One namespace -/

/-- Which of the cores that have a record of a peer have it connected. -/
def CoreCounts.connections (cores : List CoreCounts) (p : PeerId) : List Bool :=
  cores.filterMap fun c => (c.remotes.get? p).map (·.connected)

theorem CoreCounts.connections_eq (cores : List CoreCounts) (p : PeerId) :
    connections cores p
      = (cores.map fun c => (c.remotes.get? p).map (·.connected)).filterMap id := by
  simp only [connections, List.filterMap_map, Function.comp_def, id]

/-- Whether a peer is about to connect is told by the number of cores that have it connected. -/
theorem NamespaceState.isSettledFor_ofCores (cores : List CoreCounts) (p : PeerId) :
    (ofCores cores).isSettledFor p
      = (cores.length == 0 || (!(CoreCounts.connections cores p).isEmpty &&
          ((CoreCounts.connections cores p).countP id = 0 ||
            (CoreCounts.connections cores p).countP id = cores.length))) := by
  have hconnections : CoreCounts.connections cores p
      = (cores.filterMap (·.remotes.get? p)).map (·.connected) := List.map_filterMap.symm
  unfold isSettledFor
  rw [(aggregates_ofCores cores).remotes, (aggregates_ofCores cores).coreCount, hconnections,
    List.isEmpty_map, List.countP_map]
  generalize cores.filterMap (·.remotes.get? p) = records
  unfold NamespacePeer.ofRecords
  simp only [Function.comp_def, id]
  cases records.isEmpty with
  | true => rfl
  | false =>
    simp only [Bool.false_eq_true, if_false, Bool.not_false, Bool.true_and]
    split
    · next hnone => simp [hnone]
    · next hsome =>
      split
      · next hall => simp [hall]
      · next hnotall => simp [hsome, hnotall]

/-- Whether a peer is about to connect depends on which cores have it connected, and on no other
count. -/
theorem NamespaceState.isSettledFor_congr {cores cores' : List CoreCounts} {p : PeerId}
    (h : cores.map (fun c => (c.remotes.get? p).map (·.connected))
      = cores'.map fun c => (c.remotes.get? p).map (·.connected)) :
    (ofCores cores).isSettledFor p = (ofCores cores').isSettledFor p := by
  have hlength := congrArg List.length h
  rw [List.length_map, List.length_map] at hlength
  rw [isSettledFor_ofCores, isSettledFor_ofCores, CoreCounts.connections_eq,
    CoreCounts.connections_eq, h, hlength]

namespace NamespaceTracker

section
variable {t : NamespaceTracker} {gone : PeerId → Bool}

theorem lengths_without
    (hlengths : ∀ key core, t.cores.get? key = some core → core.length ≤ lastIndex)
    (key : DiscoveryKey) (core : CoreTracker)
    (hcore : (t.without gone).cores.get? key = some core) : core.length ≤ lastIndex := by
  rw [without, SortedMap.get?_mapValues] at hcore
  obtain ⟨core', hcore', rfl⟩ := Option.map_eq_some_iff.1 hcore
  exact hlengths key core' hcore'

/-- Without some peers, the blocks of the others are due as before. -/
theorem due_without_iff {p : PeerId} : (t.without gone).Due p ↔ gone p = false ∧ t.Due p := by
  constructor
  · rintro ⟨key, core, r, i, hkey, hr, hi, hdue⟩
    rw [without, SortedMap.get?_mapValues] at hkey
    obtain ⟨core', hkey', rfl⟩ := Option.map_eq_some_iff.1 hkey
    rw [CoreTracker.get?_without] at hr
    split at hr
    · contradiction
    · next hstays => exact ⟨Bool.eq_false_iff.2 hstays, key, core', r, i, hkey', hr, hi, hdue⟩
  · rintro ⟨hstays, key, core, r, i, hkey, hr, hi, hdue⟩
    refine ⟨key, core.without gone, r, i, ?_, ?_, hi, hdue⟩
    · rw [without, SortedMap.get?_mapValues, hkey]
      rfl
    · rw [CoreTracker.get?_without, hstays, if_neg Bool.false_ne_true]
      exact hr

end

section
variable {t : NamespaceTracker}
  (hlengths : ∀ key core, t.cores.get? key = some core → core.length ≤ lastIndex)
include hlengths

/-- The counts copy who is connected to which core. -/
theorem connected_total (p : PeerId) :
    (t.cores.values.map fun core => core.derived).map
        (fun c => (c.remotes.get? p).map (·.connected))
      = t.cores.values.map fun core => (core.remotes.get? p).map (·.connected) := by
  rw [List.map_map]
  refine List.map_congr_left fun core hcore => ?_
  obtain ⟨key, hkey⟩ := SortedMap.mem_values_iff.1 hcore
  exact CoreTracker.connected_derived (hlengths key core hkey) p

/-- There is something to sync exactly if a block is due between the local peer and some other. -/
theorem dataToSync_total_iff : t.total.dataToSync = true ↔ ∃ p, t.Due p := by
  have htotal : t.total.localPeer
      = .total (t.cores.values.map fun core => core.derived.localPeer) := by
    rw [total, (NamespaceState.aggregates_ofCores _).localPeer, List.map_map]
    rfl
  rw [total, (NamespaceState.aggregates_ofCores _).dataToSync, ← total, htotal]
  show (0 < sumOver BlockCounts.want _ ∨ 0 < sumOver BlockCounts.wanted _) ↔ _
  rw [sumOver_map, sumOver_map, sumOver_pos_iff, sumOver_pos_iff]
  constructor
  · intro h
    obtain ⟨core, hcore, hpos⟩ : ∃ core ∈ t.cores.values,
        (0 < core.derived.localPeer.want ∨ 0 < core.derived.localPeer.wanted) := by
      rcases h with ⟨core, hcore, hwant⟩ | ⟨core, hcore, hwanted⟩
      · exact ⟨core, hcore, Or.inl hwant⟩
      · exact ⟨core, hcore, Or.inr hwanted⟩
    obtain ⟨key, hkey⟩ := SortedMap.mem_values_iff.1 hcore
    obtain ⟨p, r, i, hr, hi, hdue⟩ := (CoreTracker.counts_due_iff (hlengths key core hkey)).1 hpos
    exact ⟨p, key, core, r, i, hkey, hr, hi, hdue⟩
  · rintro ⟨p, key, core, r, i, hkey, hr, hi, hdue⟩
    have hcore := SortedMap.mem_values_iff.2 ⟨key, hkey⟩
    have hpos := (CoreTracker.counts_due_iff (hlengths key core hkey)).2 ⟨p, r, i, hr, hi, hdue⟩
    exact hpos.imp (fun hwant => ⟨core, hcore, hwant⟩) fun hwanted => ⟨core, hcore, hwanted⟩

variable (gone : PeerId → Bool)

/-- Some peers being left out changes whether there is something to sync only by the blocks that
are due to them. -/
theorem dataToSync_total_eq_false_iff :
    t.total.dataToSync = false ↔
      (t.without gone).total.dataToSync = false ∧ ∀ p, gone p = true → ¬ t.Due p := by
  rw [← Bool.not_eq_true, ← Bool.not_eq_true, dataToSync_total_iff hlengths,
    dataToSync_total_iff (lengths_without hlengths)]
  constructor
  · intro hnone
    refine ⟨fun ⟨p, hdue⟩ => hnone ⟨p, (due_without_iff.1 hdue).2⟩, fun p _ hdue => hnone ⟨p, hdue⟩⟩
  · rintro ⟨hstaying, hgone⟩ ⟨p, hdue⟩
    cases hp : gone p with
    | true => exact hgone p hp hdue
    | false => exact hstaying ⟨p, due_without_iff.2 ⟨hp, hdue⟩⟩

/-- Whether a peer is about to connect does not depend on others. -/
theorem isSettledFor_without {p : PeerId} (hstays : gone p = false) :
    (t.without gone).total.isSettledFor p = t.total.isSettledFor p := by
  refine NamespaceState.isSettledFor_congr ?_
  rw [connected_total (lengths_without hlengths), connected_total hlengths, without,
    SortedMap.values_mapValues, List.map_map]
  refine List.map_congr_left fun core _ => ?_
  show ((core.without gone).remotes.get? p).map _ = _
  rw [CoreTracker.get?_without, hstays, if_neg Bool.false_ne_true]

end

theorem Sound.without {catalog : Catalog} {t : NamespaceTracker} (h : t.Sound catalog)
    (gone : PeerId → Bool) : (t.without gone).Sound catalog where
  cores key core hkey := by
    rw [NamespaceTracker.without, SortedMap.get?_mapValues] at hkey
    obtain ⟨core', -, rfl⟩ := Option.map_eq_some_iff.1 hkey
    intro c hc
    contradiction
  mark_le kept hkept := by contradiction
  total_eq kept hkept := by contradiction
  placed hkey := by
    rw [NamespaceTracker.without, SortedMap.get?_mapValues] at hkey
    obtain ⟨core', hcore', rfl⟩ := Option.map_eq_some_iff.1 hkey
    exact ⟨(h.placed hcore').key_eq, (h.placed hcore').attached⟩

end NamespaceTracker

/-! ## All namespaces -/

/-- Nothing is left to sync in a namespace. -/
def NamespaceState.IsComplete (s : NamespaceState) (ns : Namespace) (partners : Partners) : Prop :=
  s.dataToSync = false ∧
    ∀ p caps, (p, caps) ∈ partners → caps.allows ns = true → s.isSettledFor p = true

theorem isSynced_iff {states : NamespaceStates} {namespaces : List Namespace}
    {partners : Partners} :
    isSynced states namespaces partners = true ↔
      ∀ ns ∈ namespaces, ∀ s, states.get? ns = some s → s.IsComplete ns partners := by
  unfold isSynced
  rw [List.all_eq_true]
  refine forall_congr' fun ns => forall_congr' fun _ => ?_
  cases states.get? ns with
  | none => simp
  | some s =>
    rw [Bool.and_eq_true, Bool.not_eq_true', List.all_eq_true]
    constructor
    · rintro ⟨hnothing, hsettled⟩ s' hs'
      obtain rfl := Option.some.inj hs'
      refine ⟨hnothing, fun p caps hp hallows => ?_⟩
      have hpartner : (!caps.allows ns || s.isSettledFor p) = true := hsettled (p, caps) hp
      rw [hallows] at hpartner
      exact hpartner
    · intro h
      obtain ⟨hnothing, hsettled⟩ := h s rfl
      refine ⟨hnothing, fun (p, caps) hp => ?_⟩
      show (!caps.allows ns || s.isSettledFor p) = true
      cases hallows : caps.allows ns with
      | false => rfl
      | true => exact hsettled p caps hp hallows

namespace Engine

variable {e : Engine}

/-- Each peer has one role, however often it is linked. -/
theorem InLine.role_of_partner {roles : Roles} (hline : e.InLine roles) {p : PeerId}
    {caps : Capabilities} (hp : (p, caps) ∈ e.partners) : caps = roles.resolve e.plan p := by
  obtain ⟨l, hl, heq⟩ := List.mem_map.1 hp
  obtain ⟨id, hid⟩ := SortedMap.mem_values_iff.1 hl
  cases heq
  exact hline.capabilities hid

/-- So a peer that may sync a namespace on one link is not blocked from it on another. -/
theorem isBlocked_of_allowed {roles : Roles} (hline : e.InLine roles) {ns : Namespace} {p : PeerId}
    {caps : Capabilities} (hp : (p, caps) ∈ e.partners) (hallows : caps.allows ns = true) :
    e.isBlocked ns p = false := by
  refine Bool.eq_false_iff.2 fun hblocked => ?_
  obtain ⟨⟨q, caps'⟩, hq, hboth⟩ := List.any_eq_true.1 hblocked
  rw [Bool.and_eq_true, beq_iff_eq, Bool.not_eq_true'] at hboth
  obtain ⟨rfl, hforbids⟩ := hboth
  rw [hline.role_of_partner hq, ← hline.role_of_partner hp, hallows] at hforbids
  contradiction

section
variable {roles : Roles} (hline : e.InLine roles)
  (hlengths : e.AllCores fun core => core.length ≤ lastIndex)
include hline hlengths

/-- A namespace is complete exactly if it would be without the peers that are blocked from it, and
no block is due to them. -/
theorem isComplete_total_iff {ns : Namespace} {t : NamespaceTracker}
    (ht : e.namespaces.get? ns = some t) :
    t.total.IsComplete ns e.partners ↔
      (t.without (e.isBlocked ns)).total.IsComplete ns e.partners ∧
        ∀ p, e.isBlocked ns p = true → ¬ t.Due p := by
  have hlengths (key : DiscoveryKey) (core : CoreTracker) (hkey : t.cores.get? key = some core) :
      core.length ≤ lastIndex := hlengths ns t key core ht hkey
  have hsettled {p : PeerId} {caps : Capabilities} (hp : (p, caps) ∈ e.partners)
      (hallows : caps.allows ns = true) :
      (t.without (e.isBlocked ns)).total.isSettledFor p = t.total.isSettledFor p :=
    NamespaceTracker.isSettledFor_without hlengths _ (isBlocked_of_allowed hline hp hallows)
  unfold NamespaceState.IsComplete
  rw [NamespaceTracker.dataToSync_total_eq_false_iff hlengths (e.isBlocked ns)]
  constructor
  · rintro ⟨⟨hnothing, hdue⟩, hall⟩
    exact ⟨⟨hnothing, fun p caps hp hallows =>
      (hsettled hp hallows).trans (hall p caps hp hallows)⟩, hdue⟩
  · rintro ⟨⟨hnothing, hall⟩, hdue⟩
    exact ⟨⟨hnothing, hdue⟩, fun p caps hp hallows =>
      (hsettled hp hallows).symm.trans (hall p caps hp hallows)⟩

/-- A goal is reached exactly if it would be without blocked peers, and no block is due to them. -/
theorem synced_iff_of_inLine (hsound : AllSound e.catalog e.namespaces) (goal : SyncGoal) :
    e.synced goal = true ↔ e.withoutBlocked.synced goal = true ∧ e.NothingDueToBlocked goal := by
  have hsound' : AllSound e.withoutBlocked.catalog e.withoutBlocked.namespaces :=
    hsound.mapValues fun ns t ht => ht.without (e.isBlocked ns)
  have htotals (ns : Namespace) :
      e.totals.get? ns = (e.namespaces.get? ns).map fun t => t.total :=
    SortedMap.get?_mapValues _ _ _
  have htotals' (ns : Namespace) : e.withoutBlocked.totals.get? ns
      = (e.namespaces.get? ns).map fun t => (t.without (e.isBlocked ns)).total := by
    unfold totals withoutBlocked
    rw [SortedMap.mapValues_mapValues, SortedMap.get?_mapValues]
  unfold synced
  rw [readStates_of_allSound hsound, readStates_of_allSound hsound']
  show isSynced e.totals (e.plan.forGoal goal) e.partners = true ↔
    isSynced e.withoutBlocked.totals (e.plan.forGoal goal) e.partners = true ∧ _
  rw [isSynced_iff, isSynced_iff]
  constructor
  · intro h
    have hboth {ns : Namespace} (hns : ns ∈ e.plan.forGoal goal) {t : NamespaceTracker}
        (ht : e.namespaces.get? ns = some t) :=
      (isComplete_total_iff hline hlengths ht).1 (h ns hns t.total (by rw [htotals, ht]; rfl))
    refine ⟨fun ns hns s hs => ?_, fun ns hns t ht => (hboth hns ht).2⟩
    rw [htotals'] at hs
    obtain ⟨t, ht, rfl⟩ := Option.map_eq_some_iff.1 hs
    exact (hboth hns ht).1
  · rintro ⟨h, hdue⟩ ns hns s hs
    rw [htotals] at hs
    obtain ⟨t, ht, rfl⟩ := Option.map_eq_some_iff.1 hs
    exact (isComplete_total_iff hline hlengths ht).2
      ⟨h ns hns _ (by rw [htotals', ht]; rfl), hdue ns hns t ht⟩

end

end Engine

/-! ## Runs -/

namespace Run

variable {s : Settings}

/-- **How far blocked peers hold a sync up.** After every input of every run, a goal is reached
exactly if it would be reached without the records of the peers that are blocked from a namespace,
and no block of that namespace is due between them and the local peer. So what such a peer has and
wants counts as if it were not blocked, and nothing else about it counts. -/
theorem synced_iff_without_blocked (r : Run s) (hlengths : r.LengthsFit) (goal : SyncGoal) :
    r.engine.synced goal = true ↔
      r.engine.withoutBlocked.synced goal = true ∧ r.engine.NothingDueToBlocked goal :=
  Engine.synced_iff_of_inLine r.settings_engine_and_inLine.2 (r.lengths_fit hlengths) r.allSound
    goal

/-- A blocked peer joins a core that has all its blocks; it gets no record, and is owed nothing. -/
theorem synced_iff_without_blocked_after_joining :
    let blocked : Roles := fun _ _ => .blocked
    let added : Run {} := .handle (.begin blocked 0) blocked 0
      (.addCore .data default ⟨default, 1, .ofRanges [⟨0, 1⟩], []⟩)
    let joined : Run {} := .handle added blocked 0 (.addPeer ⟨⟨0⟩, default, 0⟩)
    joined.LengthsFit ∧ joined.engine.synced .full = true ∧
      joined.engine.withoutBlocked.synced .full = true ∧
      joined.engine.NothingDueToBlocked .full := by
  intro blocked added joined
  have hlengths : joined.LengthsFit := ⟨⟨trivial, (by decide : 1 ≤ lastIndex)⟩, trivial⟩
  have hsynced : joined.engine.synced .full = true := by decide +kernel
  exact ⟨hlengths, hsynced, (synced_iff_without_blocked joined hlengths .full).1 hsynced⟩

/-- Then it writes that it wants the block. With the next evaluation, sync is held up by it. -/
theorem blocked_peer_is_owed_what_it_wants :
    let blocked : Roles := fun _ _ => .blocked
    let added : Run {} := .handle (.begin blocked 0) blocked 0
      (.addCore .data default ⟨default, 1, .ofRanges [⟨0, 1⟩], []⟩)
    let joined : Run {} := .handle added blocked 0 (.addPeer ⟨⟨0⟩, default, 0⟩)
    let asked : Run {} := .handle joined blocked 0 (.wants .data default default [⟨0, 1⟩])
    let evaluated : Run {} := .handle asked blocked 0 (.timer .throttle)
    (asked.engine.handle blocked 0 (.timer .throttle)).2.any (·.isPublish) = true ∧
      evaluated.engine.isBlocked .data default = true ∧
      evaluated.engine.synced .full ≠ evaluated.engine.withoutBlocked.synced .full := by
  intro blocked added joined asked evaluated
  exact ⟨by decide +kernel, by decide +kernel, by decide +kernel⟩

end Run

end LogSync
