import LogSync.Proofs.TrackerSteps

/-!
# Which namespace tracks a core

A core comes to be tracked when it is added, or before, when a peer writes of it. A peer's message
leaves a core in the namespace that tracks it. A request to add one does not ask where the core is
tracked, unless it is attached already. So no core is tracked twice for exactly as long as none is
added to another namespace than the one that tracks it (`Run.one_namespace_iff_adds_in_place`).
-/

namespace LogSync

/-! ## What is said -/

namespace Engine

/-- A namespace tracks a core. -/
def Tracks (e : Engine) (ns : Namespace) (key : DiscoveryKey) : Prop :=
  ∃ t, e.namespaces.get? ns = some t ∧ t.contains key = true

instance (e : Engine) (ns : Namespace) (key : DiscoveryKey) : Decidable (e.Tracks ns key) :=
  decidable_of_iff ((e.namespaces.get? ns).any (·.contains key) = true) (Option.any_eq_true _ _)

/-- Every core is tracked by one namespace at most. -/
def OneNamespace (e : Engine) : Prop :=
  ∀ key ns ns', e.Tracks ns key → e.Tracks ns' key → ns = ns'

/-- An input adds a core that is not attached to one namespace while another one tracks it. -/
def Strays (e : Engine) (input : Input) : Prop :=
  ∃ ns key snapshot, input = .addCore ns key snapshot ∧ e.namespaces.contains ns = true ∧
    e.catalog.contains key = false ∧ ∃ ns', e.Tracks ns' key ∧ ns' ≠ ns

end Engine

/-- Every core was added where it was tracked, if it was tracked. -/
def Run.AddsInPlace {s : Settings} : Run s → Prop
  | begin _ _ => True
  | handle before _ _ input => before.AddsInPlace ∧ ¬ before.engine.Strays input

/-! ## What comes to be tracked -/

namespace Engine

variable {e : Engine}

/-- A namespace tracks the cores that it has tracked before, and the one that is touched in it. -/
theorem tracks_handle_iff (roles : Roles) (now : Nat) {input : Input} {ns : Namespace}
    {key : DiscoveryKey} :
    (e.handle roles now input).1.Tracks ns key ↔
      e.Tracks ns key ∨
        ∃ touch, e.touched? input = some touch ∧ touch.ns = ns ∧ touch.key = key := by
  cases htouched : e.touched? input with
  | none =>
    obtain ⟨f, hf, heq⟩ := namespaces_of_untouched roles now htouched
    unfold Tracks
    rw [heq]
    constructor
    · rintro ⟨t, ht, hkey⟩
      rw [SortedMap.get?_mapValues] at ht
      obtain ⟨t', ht', rfl⟩ := Option.map_eq_some_iff.1 ht
      exact Or.inl ⟨t', ht', ((hf ns t').contains_eq key).symm.trans hkey⟩
    · rintro (⟨t, ht, hkey⟩ | ⟨touch, hnone, -⟩)
      · refine ⟨f ns t, ?_, ((hf ns t).contains_eq key).trans hkey⟩
        rw [SortedMap.get?_mapValues, ht]
        rfl
      · contradiction
  | some touch =>
    obtain ⟨ops, -, heq⟩ := namespaces_of_touched roles now htouched
    have htracker := get?_of_touched htouched
    have hcontains (k : DiscoveryKey) :
        (touch.tracker.setCore touch.key (touch.outcome ops)).contains k
          = (Decidable.decide (k = touch.key) || touch.tracker.contains k) :=
      SortedMap.contains_insert _ _ _ _
    unfold Tracks
    rw [heq]
    constructor
    · rintro ⟨t, ht, hkey⟩
      rw [SortedMap.get?_insert] at ht
      split at ht
      · next hns =>
        obtain rfl := Option.some.inj ht
        rw [hcontains, Bool.or_eq_true, decide_eq_true_eq] at hkey
        rcases hkey with rfl | hkey
        · exact Or.inr ⟨touch, rfl, hns.symm, rfl⟩
        · exact Or.inl ⟨_, hns ▸ htracker, hkey⟩
      · exact Or.inl ⟨t, ht, hkey⟩
    · intro h
      by_cases hns : ns = touch.ns
      · subst hns
        refine ⟨_, by rw [SortedMap.get?_insert, if_pos rfl], ?_⟩
        rw [hcontains, Bool.or_eq_true, decide_eq_true_eq]
        rcases h with ⟨t, ht, hkey⟩ | ⟨touch', htouch', -, hkey⟩
        · obtain rfl := Option.some.inj (htracker.symm.trans ht)
          exact Or.inr hkey
        · obtain rfl := Option.some.inj htouch'
          exact Or.inl hkey.symm
      · rcases h with ⟨t, ht, hkey⟩ | ⟨touch', htouch', hns', -⟩
        · exact ⟨t, by rw [SortedMap.get?_insert, if_neg hns, ht], hkey⟩
        · obtain rfl := Option.some.inj htouch'
          exact absurd hns'.symm hns

/-- The catalog grows by no core but the one that is touched. -/
theorem catalog_handle (e : Engine) (roles : Roles) (now : Nat) (input : Input) :
    (e.handle roles now input).1.catalog = e.catalog ∨
      ∃ touch, e.touched? input = some touch ∧
        (e.handle roles now input).1.catalog = (e.catalog.insert touch.key touch.ns).1 := by
  cases h₀ : e.evaluatedFor? now input with
  | some e₀ =>
    rw [handle_of_evaluated h₀]
    refine Or.inl ((rests_handOver _ now input).catalog.trans ?_)
    rw [evaluate_engine]
    exact (frame_of_evaluated h₀).2
  | none =>
    rw [handle_of_not_evaluated h₀]
    exact (e.frame_handleQuietly now input).2.2

/-- Every attached core is tracked by the namespace that the catalog gives. -/
def Catalogued (e : Engine) : Prop :=
  ∀ key ns, e.catalog.namespaceOf? key = some ns → e.Tracks ns key

theorem Catalogued.handle (h : e.Catalogued) (roles : Roles) (now : Nat) (input : Input) :
    (e.handle roles now input).1.Catalogued := by
  intro key ns hkey
  rw [tracks_handle_iff]
  rcases e.catalog_handle roles now input with hcatalog | ⟨touch, htouched, hcatalog⟩
  · exact Or.inl (h key ns (hcatalog ▸ hkey))
  · rw [hcatalog, Catalog.insert] at hkey
    split at hkey
    · exact Or.inl (h key ns hkey)
    · rw [Catalog.namespaceOf?, SortedMap.get?_insert] at hkey
      split at hkey
      · next heq => exact Or.inr ⟨touch, htouched, Option.some.inj hkey, heq.symm⟩
      · exact Or.inl (h key ns hkey)

/-! ## Where it comes to be tracked -/

/-- A core that is tracked is found where it is tracked. -/
theorem Catalogued.trackedIn {ns : Namespace} {key : DiscoveryKey} (h : e.Catalogued)
    (htracks : e.Tracks ns key) : ∃ ns', e.trackedIn? key = some ns' ∧ e.Tracks ns' key := by
  unfold trackedIn?
  cases hcatalog : e.catalog.namespaceOf? key with
  | some ns' => exact ⟨ns', rfl, h key ns' hcatalog⟩
  | none =>
    obtain ⟨t, ht, hkey⟩ := htracks
    cases hfind : e.namespaces.toList.find? (·.2.contains key) with
    | none =>
      have hmissing := List.find?_eq_none.1 hfind (ns, t) (SortedMap.mem_toList_iff.2 ht)
      exact absurd hkey hmissing
    | some x =>
      have hx : x.2.contains key = true := by simpa using List.find?_some hfind
      exact ⟨x.1, rfl, x.2, SortedMap.get?_of_mem (List.mem_of_find?_eq_some hfind), hx⟩

/-- Unless an input strays, it touches a core only where the core is tracked already, or where no
namespace tracks it. -/
theorem OneNamespace.touched (hone : e.OneNamespace) (hcatalogued : e.Catalogued) {input : Input}
    (hinput : ¬ e.Strays input) {touch : Touch} (htouched : e.touched? input = some touch)
    {ns : Namespace} (htracks : e.Tracks ns touch.key) : ns = touch.ns := by
  -- a message looks for the core first, and finds it where it is tracked
  have hnamed {ns' : Namespace} {key : DiscoveryKey} (htracks : e.Tracks ns key) :
      ns = (e.trackedIn? key).getD ns' := by
    obtain ⟨found, hfound, hthere⟩ := hcatalogued.trackedIn htracks
    rw [hfound, Option.getD_some]
    exact hone key ns found htracks hthere
  cases touches_of_touched htouched with
  | @add ns' t key snapshot hnew ht =>
    -- a request to add does not look, so this is what straying rules out
    refine Decidable.byContradiction fun hns => hinput ?_
    refine ⟨ns', key, snapshot, rfl, ?_, hnew, ns, htracks, hns⟩
    show (e.namespaces.get? ns').isSome = true
    rw [ht]
    rfl
  | preHaves p m ht => exact hnamed htracks
  | wants ns' key p ranges ht => exact hnamed htracks
  | @event ns' t key event hns ht hkey => exact hone key ns ns' htracks ⟨t, ht, hkey⟩

/-- One input keeps every core in one namespace unless it strays. -/
theorem oneNamespace_handle_iff (hcatalogued : e.Catalogued) (roles : Roles) (now : Nat)
    (input : Input) :
    (e.handle roles now input).1.OneNamespace ↔ e.OneNamespace ∧ ¬ e.Strays input := by
  constructor
  · intro h
    refine ⟨fun key ns ns' hns hns' => h key ns ns' ?_ ?_, ?_⟩
    · exact (tracks_handle_iff roles now).2 (Or.inl hns)
    · exact (tracks_handle_iff roles now).2 (Or.inl hns')
    · rintro ⟨ns, key, snapshot, rfl, hthere, hnew, ns', htracks, hne⟩
      obtain ⟨t, ht⟩ := Option.isSome_iff_exists.1 hthere
      have htouched : e.touched? (.addCore ns key snapshot)
          = some ⟨ns, t, key, .attach snapshot⟩ := by
        simp only [touched?, hnew, Bool.false_eq_true, if_false, ht, Option.map_some]
      refine hne (h key ns' ns ?_ ?_)
      · exact (tracks_handle_iff roles now).2 (Or.inl htracks)
      · exact (tracks_handle_iff roles now).2 (Or.inr ⟨_, htouched, rfl, rfl⟩)
  · rintro ⟨hone, hinput⟩ key ns ns' hns hns'
    rcases (tracks_handle_iff roles now).1 hns with hns | ⟨touch, htouched, rfl, rfl⟩
    · rcases (tracks_handle_iff roles now).1 hns' with hns' | ⟨touch, htouched, rfl, rfl⟩
      · exact hone key ns ns' hns hns'
      · exact hone.touched hcatalogued hinput htouched hns
    · rcases (tracks_handle_iff roles now).1 hns' with hns' | ⟨touch', htouched', rfl, -⟩
      · exact (hone.touched hcatalogued hinput htouched hns').symm
      · rw [htouched] at htouched'
        exact congrArg Touch.ns (Option.some.inj htouched')

end Engine

/-! ## Runs -/

namespace Run

variable {s : Settings}

/-- An engine that has just begun tracks no core. -/
theorem tracks_begin (roles : Roles) (now : Nat) (ns : Namespace) (key : DiscoveryKey) :
    ¬ (begin roles now : Run s).engine.Tracks ns key := by
  rintro ⟨t, ht, hkey⟩
  obtain ⟨core, hcore⟩ := Option.isSome_iff_exists.1 hkey
  exact Engine.allCores_begin s roles now (fun _ => False) ns t key core ht hcore

theorem catalogued (r : Run s) : r.engine.Catalogued := by
  induction r with
  | begin roles now =>
    intro key ns hkey
    rw [engine, Engine.begin, Engine.evaluate_engine] at hkey
    contradiction
  | handle before roles now input ih => exact ih.handle roles now input

/-- **A core stays in one namespace as long as it is added where it is tracked.** After every input
of every run, whatever peers have written of which cores and namespaces: no core is tracked by two
namespaces if and only if no core was added to another namespace than the one that tracked it. -/
theorem one_namespace_iff_adds_in_place (r : Run s) :
    r.engine.OneNamespace ↔ r.AddsInPlace := by
  induction r with
  | begin roles now =>
    refine iff_of_true (fun key ns ns' hns _ => ?_) trivial
    exact absurd hns (tracks_begin roles now ns key)
  | handle before roles now input ih =>
    rw [engine, Engine.oneNamespace_handle_iff before.catalogued, ih]
    rfl

/-- A peer says what it wants of a core of one namespace, and then the core is added to another. -/
theorem tracked_twice_after_misplaced_add :
    let allowed : Roles := fun _ _ => .allowed
    let wanted : Run {} :=
      .handle (.begin allowed 0) allowed 0 (.wants .auth default default [⟨0, 1⟩])
    let r : Run {} :=
      .handle wanted allowed 0 (.addCore .config default ⟨default, 2, .ofRanges [⟨0, 2⟩], []⟩)
    ¬ r.engine.OneNamespace := by
  intro allowed wanted r hone
  have hauth : r.engine.Tracks .auth default := by decide +kernel
  have hconfig : r.engine.Tracks .config default := by decide +kernel
  exact absurd (hone default .auth .config hauth hconfig) (by decide)

end Run

end LogSync
