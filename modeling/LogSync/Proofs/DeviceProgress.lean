import LogSync.Proofs.Outcomes

/-!
# The progress of every peer

A published snapshot tells of every linked peer how far it is with each group of namespaces. The
numbers have come a long way: blocks are counted by words, counts are kept from one evaluation to
the next, those of the cores are summed up by namespace and those of the namespaces by group. What
comes out is what one would get by looking at the blocks of the cores one by one
(`Run.published_progress_is_exact`).
-/

namespace LogSync

/-! ## What is said -/

/-- The groups of namespaces that progress is told of: those that are synced first, and the others
that are tracked. -/
inductive NamespaceGroup where
  | initial | data
deriving DecidableEq, Repr

/-- The group that a tracked namespace belongs to. -/
def NamespacePlan.group (plan : NamespacePlan) (ns : Namespace) : NamespaceGroup :=
  if plan.isPresync ns then .initial else .data

/-- The progress over one group. -/
def DeviceProgress.group (device : DeviceProgress) : NamespaceGroup → GroupProgress
  | .initial => device.initial
  | .data => device.data

namespace CoreTracker

/-- The records of all peers of a core, the local one among them. -/
def everyone (core : CoreTracker) : List PeerRecord := everyPeer core.localPeer core.remotes

/-- Whether a peer wants and lacks a block that some peer of the core has. -/
def couldGet (core : CoreTracker) (p : PeerId) (i : Nat) : Bool :=
  (core.remotes.get? p).any fun r => r.wishes i && !r.has i && core.everyone.any (·.has i)

/-- Whether a peer has a block that some peer of the core wants and lacks. -/
def couldGive (core : CoreTracker) (p : PeerId) (i : Nat) : Bool :=
  (core.remotes.get? p).any fun r =>
    r.has i && core.everyone.any fun q => q.wishes i && !q.has i

end CoreTracker

/-- The number of pairs of a core and a block below its length of which something is true. -/
def blocksWhere (q : CoreTracker → Nat → Bool) (cores : List CoreTracker) : Nat :=
  sumOver (fun core => countBelow (q core) core.length) cores

/-- The cores of a namespace, if it is tracked. -/
def Engine.coresOf (e : Engine) (ns : Namespace) : List CoreTracker :=
  (e.namespaces.get? ns).elim [] (·.cores.values)

/-- The cores of those namespaces of a group that a peer may sync. -/
def Engine.coresFor (e : Engine) (roles : Roles) (p : PeerId) (g : NamespaceGroup) :
    List CoreTracker :=
  (e.plan.tracked.filter fun ns => e.plan.group ns = g ∧ roles p ns = .allowed).flatMap e.coresOf

/-! ## Cores -/

theorem filterMap_ne_nil_iff {α β : Type} {f : α → Option β} {l : List α} :
    l.filterMap f ≠ [] ↔ ∃ a ∈ l, (f a).isSome = true := by
  simp only [ne_eq, List.filterMap_eq_nil_iff, Classical.not_forall, Option.isSome_iff_ne_none,
    exists_prop]

/-- Where a peer has a block, some peer has it. -/
theorem PeerRecord.couldGive_of_mem {everyone : List PeerRecord} {r : PeerRecord}
    (hr : r ∈ everyone) (i : Nat) :
    r.couldGive everyone i = (r.has i && everyone.any fun q => q.wishes i && !q.has i) := by
  unfold couldGive couldGet
  cases hhas : r.has i with
  | false => rfl
  | true =>
    have hsomeone : someoneHas everyone i = true := List.any_eq_true.2 ⟨r, hr, hhas⟩
    simp only [hsomeone, Bool.and_true]

theorem CoreTracker.remotes_derived {core : CoreTracker} (hlength : core.length ≤ lastIndex)
    (p : PeerId) :
    core.derived.remotes.get? p = (core.remotes.get? p).map fun r =>
      ⟨.blockwise core.everyone core.length r, r.connected⟩ := by
  rw [derived, CoreCounts.derive_eq_blockwise hlength]
  exact SortedMap.get?_mapValues _ _ _

/-- A count tells how many blocks there are of which something is true, core by core and in sums. -/
structure CountsBlocks (p : PeerId) (count : BlockCounts → Nat) (q : CoreTracker → Nat → Bool) :
    Prop where
  core : ∀ core : CoreTracker, core.length ≤ lastIndex →
    (core.derived.remotes.get? p).elim 0 (fun r => count r.counts)
      = countBelow (q core) core.length
  total : ∀ l, count (.total l) = sumOver count l

/-- The wanted blocks of a peer are those that it could get. -/
theorem countsBlocks_want (p : PeerId) : CountsBlocks p (·.want) (·.couldGet p) where
  core core hlength := by
    rw [CoreTracker.remotes_derived hlength]
    unfold CoreTracker.couldGet
    cases core.remotes.get? p with
    | none => exact (countBelow_eq_zero fun _ _ => rfl).symm
    | some r => rfl
  total _ := rfl

/-- The blocks that are wanted of a peer are those that it could give. -/
theorem countsBlocks_wanted (p : PeerId) : CountsBlocks p (·.wanted) (·.couldGive p) where
  core core hlength := by
    rw [CoreTracker.remotes_derived hlength]
    unfold CoreTracker.couldGive
    cases hr : core.remotes.get? p with
    | none => exact (countBelow_eq_zero fun _ _ => rfl).symm
    | some r =>
      have hmem : r ∈ core.everyone :=
        List.mem_cons_of_mem _ (SortedMap.mem_values_iff.2 ⟨p, hr⟩)
      exact countBelow_congr fun i _ => PeerRecord.couldGive_of_mem hmem i
  total _ := rfl

/-! ## Namespaces -/

namespace NamespaceTracker

section
variable {t : NamespaceTracker}
  (hlengths : ∀ key core, t.cores.get? key = some core → core.length ≤ lastIndex) {p : PeerId}

theorem remotes_total :
    t.total.remotes.get? p = NamespacePeer.ofRecords
      (t.cores.values.filterMap (·.derived.remotes.get? p)) t.cores.values.length := by
  rw [total, (NamespaceState.aggregates_ofCores _).remotes, List.filterMap_map, List.length_map]
  rfl

include hlengths

/-- What a count comes to in a namespace. A peer without records there counts nothing. -/
theorem count_total {count : BlockCounts → Nat} {q : CoreTracker → Nat → Bool}
    (h : CountsBlocks p count q) :
    (t.total.remotes.get? p).elim 0 (fun r => count r.counts) = blocksWhere q t.cores.values := by
  have hsum : blocksWhere q t.cores.values = sumOver (fun r => count r.counts)
      (t.cores.values.filterMap (·.derived.remotes.get? p)) := by
    rw [sumOver_filterMap]
    refine sumOver_congr fun core hcore => ?_
    obtain ⟨key, hkey⟩ := SortedMap.mem_values_iff.1 hcore
    exact (h.core core (hlengths key core hkey)).symm
  rw [hsum, remotes_total]
  unfold NamespacePeer.ofRecords
  -- without records there is no part, and nothing to sum up either
  split
  · next hnone => rw [List.isEmpty_iff.1 hnone]; rfl
  · rw [Option.elim_some, h.total, sumOver_map]

/-- A peer is known to a namespace if and only if one of its cores has a record of it. -/
theorem isSome_total :
    (t.total.remotes.get? p).isSome = true ↔
      ∃ core ∈ t.cores.values, core.remotes.contains p = true := by
  have hsome : (t.total.remotes.get? p).isSome = true ↔
      t.cores.values.filterMap (·.derived.remotes.get? p) ≠ [] := by
    rw [remotes_total]
    unfold NamespacePeer.ofRecords
    cases t.cores.values.filterMap (·.derived.remotes.get? p) <;> simp
  rw [hsome, filterMap_ne_nil_iff]
  refine exists_congr fun core => and_congr_right fun hcore => ?_
  obtain ⟨key, hkey⟩ := SortedMap.mem_values_iff.1 hcore
  rw [CoreTracker.remotes_derived (hlengths key core hkey), Option.isSome_map]
  rfl

end

end NamespaceTracker

/-! ## Groups -/

theorem GroupProgress.foldl_add (parts : List NamespacePeer) (g : GroupProgress) :
    parts.foldl (fun g r => g.add r.counts) g =
      { isEnabled := g.isEnabled || !parts.isEmpty
        want := g.want + sumOver (·.counts.want) parts
        wanted := g.wanted + sumOver (·.counts.wanted) parts } := by
  induction parts generalizing g with
  | nil => simp [sumOver]
  | cons r parts ih =>
    rw [List.foldl_cons, ih]
    simp [add, sumOver, Nat.add_assoc]

namespace DeviceProgress

section
variable (states : NamespaceStates) (plan : NamespacePlan) (p : PeerId) (caps : Capabilities)

/-- What one namespace adds to the progress of a peer. -/
def step (device : DeviceProgress) (ns : Namespace) : DeviceProgress :=
  match caps.allows ns, (states.get? ns).bind (·.remotes.get? p) with
  | true, some r =>
    if plan.isPresync ns then { device with initial := device.initial.add r.counts }
    else { device with data := device.data.add r.counts }
  | _, _ => device

/-- The progress of a device is gathered namespace by namespace. -/
theorem of_eq_foldl :
    DeviceProgress.of states plan p caps = plan.tracked.foldl (step states plan p caps) {} := rfl

/-- A peer's parts in those namespaces of a group that it may sync. -/
def parts (g : NamespaceGroup) (namespaces : List Namespace) : List NamespacePeer :=
  (namespaces.filter fun ns => plan.group ns = g ∧ caps.allows ns = true).filterMap fun ns =>
    (states.get? ns).bind (·.remotes.get? p)

/-- A namespace adds to its own group, and to no other. -/
theorem group_step (device : DeviceProgress) (ns : Namespace) (g : NamespaceGroup) :
    (step states plan p caps device ns).group g =
      (parts states plan p caps g [ns]).foldl (fun g r => g.add r.counts) (device.group g) := by
  unfold step parts NamespacePlan.group
  rw [List.filter_cons, List.filter_nil]
  cases caps.allows ns with
  | false => simp
  | true =>
    cases hpart : (states.get? ns).bind (·.remotes.get? p) with
    | none => cases plan.isPresync ns <;> cases g <;> simp [hpart]
    | some r => cases plan.isPresync ns <;> cases g <;> simp [hpart, group]

theorem group_foldl (namespaces : List Namespace) (device : DeviceProgress)
    (g : NamespaceGroup) :
    (namespaces.foldl (step states plan p caps) device).group g =
      (parts states plan p caps g namespaces).foldl (fun g r => g.add r.counts)
        (device.group g) := by
  induction namespaces generalizing device with
  | nil => rfl
  | cons ns namespaces ih =>
    have hparts : parts states plan p caps g (ns :: namespaces)
        = parts states plan p caps g [ns] ++ parts states plan p caps g namespaces := by
      unfold parts
      rw [← List.filterMap_append, ← List.filter_append, List.singleton_append]
    rw [List.foldl_cons, ih, group_step, hparts, List.foldl_append]

/-- The progress over a group is what the parts amount to. -/
theorem group_of (g : NamespaceGroup) :
    (DeviceProgress.of states plan p caps).group g =
      { isEnabled := !(parts states plan p caps g plan.tracked).isEmpty
        want := sumOver (·.counts.want) (parts states plan p caps g plan.tracked)
        wanted := sumOver (·.counts.wanted) (parts states plan p caps g plan.tracked) } := by
  rw [of_eq_foldl, group_foldl, GroupProgress.foldl_add]
  cases g <;> simp [group]

end

end DeviceProgress

/-- In a namespace of the plan, a peer is allowed what its role says. -/
theorem Roles.allows_resolve {roles : Roles} {plan : NamespacePlan} {ns : Namespace}
    (hns : ns ∈ plan.tracked) (p : PeerId) :
    (roles.resolve plan p).allows ns = true ↔ roles p ns = .allowed := by
  have hmem : ns ∈ (plan.tracked.map fun ns => (ns, roles p ns)).map (·.1) := by
    rw [List.map_map]
    exact List.mem_map.2 ⟨ns, hns, rfl⟩
  have hrole : ∀ e ∈ plan.tracked.map fun ns => (ns, roles p ns), e.2 = roles p e.1 := by
    intro e he
    obtain ⟨ns', -, rfl⟩ := List.mem_map.1 he
    rfl
  unfold Capabilities.allows resolve
  rw [SortedMap.get?_ofList hrole, if_pos hmem, beq_iff_eq, Option.some.injEq]

namespace Engine

section
variable {e : Engine} (hlengths : e.AllCores fun core => core.length ≤ lastIndex)
include hlengths

/-- A peer's part in a namespace counts the blocks of the cores there. -/
theorem count_part {p : PeerId} {count : BlockCounts → Nat} {q : CoreTracker → Nat → Bool}
    (h : CountsBlocks p count q) (ns : Namespace) :
    ((e.totals.get? ns).bind (·.remotes.get? p)).elim 0 (fun r => count r.counts)
      = blocksWhere q (e.coresOf ns) := by
  rw [totals, SortedMap.get?_mapValues]
  unfold coresOf
  cases ht : e.namespaces.get? ns with
  | none => rfl
  | some t => exact NamespaceTracker.count_total (fun key core => hlengths ns t key core ht) h

/-- It is there if the peer has a record in some core. -/
theorem isSome_part (p : PeerId) (ns : Namespace) :
    ((e.totals.get? ns).bind (·.remotes.get? p)).isSome = true ↔
      ∃ core ∈ e.coresOf ns, core.remotes.contains p = true := by
  rw [totals, SortedMap.get?_mapValues]
  unfold coresOf
  cases ht : e.namespaces.get? ns with
  | none => simp
  | some t => exact NamespaceTracker.isSome_total fun key core => hlengths ns t key core ht

omit hlengths in
/-- The namespaces that the capabilities of a peer leave are those that its role does. -/
theorem parts_resolve (roles : Roles) (p : PeerId) (g : NamespaceGroup) :
    DeviceProgress.parts e.totals e.plan p (roles.resolve e.plan p) g e.plan.tracked =
      (e.plan.tracked.filter fun ns => e.plan.group ns = g ∧ roles p ns = .allowed).filterMap
        fun ns => (e.totals.get? ns).bind (·.remotes.get? p) := by
  unfold DeviceProgress.parts
  rw [List.filter_congr fun ns hns => ?_]
  simp only [Roles.allows_resolve hns]

/-- Its parts in a whole group count the blocks of the cores there. -/
theorem count_parts (roles : Roles) {p : PeerId} {count : BlockCounts → Nat}
    {q : CoreTracker → Nat → Bool} (h : CountsBlocks p count q) (g : NamespaceGroup) :
    sumOver (fun r => count r.counts)
        (DeviceProgress.parts e.totals e.plan p (roles.resolve e.plan p) g e.plan.tracked)
      = blocksWhere q (e.coresFor roles p g) := by
  unfold blocksWhere coresFor
  rw [parts_resolve, sumOver_filterMap, sumOver_flatMap]
  exact sumOver_congr fun ns _ => count_part hlengths h ns

theorem parts_ne_nil_iff (roles : Roles) (p : PeerId) (g : NamespaceGroup) :
    DeviceProgress.parts e.totals e.plan p (roles.resolve e.plan p) g e.plan.tracked ≠ [] ↔
      ∃ core ∈ e.coresFor roles p g, core.remotes.contains p = true := by
  unfold coresFor
  rw [parts_resolve, filterMap_ne_nil_iff]
  simp only [isSome_part hlengths, List.mem_flatMap]
  constructor
  · rintro ⟨ns, hns, core, hcore, hrecord⟩
    exact ⟨core, ⟨ns, hns, hcore⟩, hrecord⟩
  · rintro ⟨core, ⟨ns, hns, hcore⟩, hrecord⟩
    exact ⟨ns, hns, core, hcore, hrecord⟩

/-- The progress that the present counts give a peer, with the capabilities of its role. -/
theorem progress_is_exact (roles : Roles) (p : PeerId) (g : NamespaceGroup) :
    let device := DeviceProgress.of e.totals e.plan p (roles.resolve e.plan p)
    (device.group g).want = blocksWhere (·.couldGet p) (e.coresFor roles p g) ∧
      (device.group g).wanted = blocksWhere (·.couldGive p) (e.coresFor roles p g) ∧
      ((device.group g).isEnabled = true ↔
        ∃ core ∈ e.coresFor roles p g, core.remotes.contains p = true) := by
  intro device
  rw [← count_parts hlengths roles (countsBlocks_want p),
    ← count_parts hlengths roles (countsBlocks_wanted p), ← parts_ne_nil_iff hlengths,
    DeviceProgress.group_of]
  refine ⟨rfl, rfl, ?_⟩
  simp

end

/-! ## Snapshots -/

theorem not_publish_of_silent {effects : List Effect} (h : effects.any (·.isPublish) = false)
    (snapshot : SyncSnapshot) : .publish snapshot ∉ effects := by
  intro hmem
  have hpublish : effects.any (·.isPublish) = true := List.any_eq_true.2 ⟨_, hmem, rfl⟩
  rw [h] at hpublish
  contradiction

/-- An evaluation publishes one snapshot, the one that is the latest then. -/
theorem publish_mem_evaluate_iff (e : Engine) (roles : Roles) (now : Nat)
    {snapshot : SyncSnapshot} :
    .publish snapshot ∈ (e.evaluate roles now).2 ↔ snapshot = (e.evaluate roles now).1.latest := by
  have hcalls {e : Engine} {f : PeerLink → PeerLink × List ReplicationCall} :
      .publish snapshot ∉ (e.updateLinks f).2 :=
    not_publish_of_silent (not_publish_updateLinks e f) snapshot
  rw [evaluate_effects]
  simp only [List.mem_append, List.mem_singleton, List.mem_map]
  constructor
  · rintro (((h | h) | h) | ⟨w, -, h⟩)
    · exact (hcalls h).elim
    · exact (hcalls h).elim
    · exact Effect.publish.inj h
    · contradiction
  · rintro rfl
    exact Or.inl (Or.inr rfl)

/-- One entry for each peer that is linked, by the role that it has. -/
theorem get?_devicesProgress {roles : Roles} {e : Engine} (hline : e.InLine roles) (p : PeerId) :
    (devicesProgress e.totals e.plan e.partners).get? p =
      if p ∈ e.partners.map (·.1) then
        some (.of e.totals e.plan p (roles.resolve e.plan p))
      else none := by
  unfold devicesProgress
  rw [SortedMap.get?_ofList (f := fun p => .of e.totals e.plan p (roles.resolve e.plan p))
    fun entry hmem => ?_, List.map_map]
  · rfl
  · -- of a peer that is linked twice, both links have the same capabilities
    obtain ⟨⟨q, caps⟩, hq, rfl⟩ := List.mem_map.1 hmem
    rw [show caps = roles.resolve e.plan q from hline.role_of_partner hq]

/-- The partners are the peers of the links. -/
theorem mem_partners_iff (e : Engine) (p : PeerId) :
    p ∈ e.partners.map (·.1) ↔ ∃ id l, e.links.get? id = some l ∧ l.peer = p := by
  unfold partners
  simp only [List.map_map, List.mem_map, Function.comp, SortedMap.mem_values_iff]
  constructor
  · rintro ⟨l, ⟨id, hl⟩, hp⟩
    exact ⟨id, l, hl, hp⟩
  · rintro ⟨id, l, hl, hp⟩
    exact ⟨l, ⟨id, hl⟩, hp⟩

end Engine

namespace Run

variable {s : Settings}

/-- An evaluation leaves the engine settled, and a new link that takes announcements over leaves it
so. -/
theorem settled_of_evaluates {r : Run s} (h : r.evaluates = true) : r.engine.Settled := by
  cases r with
  | begin roles now => exact Engine.settled_evaluate roles now (Engine.allSound_ofSettings s)
  | handle before roles now input =>
    rw [evaluates_eq] at h
    obtain ⟨e₀, h₀⟩ := Option.isSome_iff_exists.1 h
    have hsound := Engine.allSound_of_evaluated before.allSound h₀
    obtain ⟨-, -, hquiet⟩ := before.settings_engine_and_inLine.2.evaluated h₀ roles
    have hrests := Engine.rests_handOver (e₀.evaluate roles now).1 now input
    have hsettled := (Engine.settled_evaluate roles now hsound).of_rests hquiet hrests
    rw [engine, Engine.handle_of_evaluated h₀]
    exact hsettled

/-- A step publishes the snapshot that is the latest after it, if it is evaluated. -/
theorem publish_mem_said_iff (r : Run s) {snapshot : SyncSnapshot} :
    .publish snapshot ∈ r.said ↔ r.evaluates = true ∧ snapshot = r.engine.latest := by
  cases r with
  | begin roles now =>
    have hevaluates : (begin roles now : Run s).evaluates = true :=
      Engine.publish_evaluate (.ofSettings s) roles now
    rw [hevaluates, eq_self, true_and]
    exact (Engine.ofSettings s).publish_mem_evaluate_iff roles now
  | handle before roles now input =>
    rw [evaluates_eq, evaluated?, said, engine]
    cases h₀ : before.engine.evaluatedFor? now input with
    | none =>
      have hquiet := Engine.quiet_handleQuietly before.settings_engine_and_inLine.2.keyed now input
      rw [Engine.handle_of_not_evaluated h₀]
      simp [Engine.not_publish_of_silent hquiet.silent]
    | some e₀ =>
      obtain ⟨-, -, hquiet⟩ := before.settings_engine_and_inLine.2.evaluated h₀ roles
      have hlatest := (Engine.rests_handOver (e₀.evaluate roles now).1 now input).latest
      rw [Engine.handle_of_evaluated h₀]
      simp [Engine.not_publish_of_silent hquiet.silent, Engine.publish_mem_evaluate_iff, hlatest]

/-- **Published progress is exact.** In every run whose lengths fit the index space, a published
snapshot has one entry for every peer that is linked, over however many connections. For each group,
the blocks that the entry counts are those of the cores of its namespaces that the peer may sync:
the ones that the peer wants and lacks and some peer has, and the ones that the peer has and some
peer wants and lacks. The group is enabled if the peer has a record in one of these cores. -/
theorem published_progress_is_exact (r : Run s) (hlengths : r.LengthsFit)
    {snapshot : SyncSnapshot} (hpublished : .publish snapshot ∈ r.said) :
    (∀ p, snapshot.devices.contains p = true ↔
      ∃ id l, r.engine.links.get? id = some l ∧ l.peer = p) ∧
    ∀ p device, snapshot.devices.get? p = some device → ∀ g,
      (device.group g).want = blocksWhere (·.couldGet p) (r.engine.coresFor r.lastRoles p g) ∧
      (device.group g).wanted = blocksWhere (·.couldGive p) (r.engine.coresFor r.lastRoles p g) ∧
      ((device.group g).isEnabled = true ↔
        ∃ core ∈ r.engine.coresFor r.lastRoles p g, core.remotes.contains p = true) := by
  obtain ⟨hevaluates, rfl⟩ := r.publish_mem_said_iff.1 hpublished
  have hline := r.settings_engine_and_inLine.2
  -- the counts that were published are still the present ones
  have hdevices : r.engine.latest.devices
      = devicesProgress r.engine.totals r.engine.plan r.engine.partners := by
    rw [(settled_of_evaluates hevaluates).latest]
    rfl
  have hget (p : PeerId) := Engine.get?_devicesProgress hline p
  rw [hdevices]
  refine ⟨fun p => ?_, fun p device hdevice g => ?_⟩
  · -- the entries are those of the partners, and each link has its peer among them
    rw [← Engine.mem_partners_iff, SortedMap.contains, hget]
    split
    · next hlinked => exact ⟨fun _ => hlinked, fun _ => rfl⟩
    · next hgone => exact ⟨fun h => by contradiction, fun hlinked => (hgone hlinked).elim⟩
  · rw [hget] at hdevice
    split at hdevice
    · obtain rfl := Option.some.inj hdevice
      exact Engine.progress_is_exact (r.lengths_fit hlengths) r.lastRoles p g
    · contradiction

/-- A peer that is linked twice has the second block of a core, and the first is stored locally. -/
theorem published_progress_is_exact_of_peer_linked_twice :
    let allowed : Roles := fun _ _ => .allowed
    let p : PeerId := default
    let core : CoreSnapshot := ⟨default, 2, .ofRanges [⟨0, 1⟩], [(p, .ofRanges [⟨1, 1⟩])]⟩
    let joined : Run {} := .handle (.begin allowed 0) allowed 0 (.addPeer ⟨⟨0⟩, p, 0⟩)
    let again : Run {} := .handle joined allowed 0 (.addPeer ⟨⟨1⟩, p, 1⟩)
    let attached : Run {} := .handle again allowed 0 (.addCore .data default core)
    let r : Run {} := .handle attached allowed 0 (.timer .throttle)
    r.LengthsFit ∧ .publish r.engine.latest ∈ r.said ∧
      r.engine.latest.devices.size = 1 ∧
      ∃ device, r.engine.latest.devices.get? p = some device ∧ device.data = ⟨true, 1, 1⟩ ∧
        device.data.want = blocksWhere (·.couldGet p) (r.engine.coresFor allowed p .data) := by
  intro allowed p core joined again attached r
  have hlengths : r.LengthsFit :=
    ⟨⟨⟨⟨trivial, trivial⟩, trivial⟩, (by decide : 2 ≤ lastIndex)⟩, trivial⟩
  have hevaluates : r.evaluates = true := by decide +kernel
  have hpublished : .publish r.engine.latest ∈ r.said :=
    r.publish_mem_said_iff.2 ⟨hevaluates, rfl⟩
  have hroles : r.lastRoles = allowed := if_pos hevaluates
  have hdata : (r.engine.latest.devices.get? p).map (·.data) = some ⟨true, 1, 1⟩ := by
    decide +kernel
  obtain ⟨device, hdevice, hdata⟩ := Option.map_eq_some_iff.1 hdata
  obtain ⟨hwant, -⟩ :=
    (published_progress_is_exact r hlengths hpublished).2 p device hdevice .data
  rw [hroles] at hwant
  exact ⟨hlengths, hpublished, by decide +kernel, device, hdevice, hdata, hwant⟩

end Run

end LogSync
