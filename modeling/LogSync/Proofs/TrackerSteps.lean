import LogSync.Proofs.Settled

/-!
# What an input does to the trackers

An input is about one core or about none (`Engine.touched?`). If it is about one, that core's
tracker is changed by one operation, and the core is tracked in that namespace from then on
(`Engine.namespaces_of_touched`). All else that can happen to a core is that peers are added to it
and its counts are read: it is *tended* (`Engine.namespaces_of_untouched`). So a property of cores
that survives this much holds of every core of every engine (`Engine.AllCores.handle`): lengths that
fit the index space when they are told of still fit it when they are counted with
(`Run.lengths_fit`). Nor does an input leave a tracker with counts that are out of date
(`Run.allSound`).
-/

namespace LogSync

/-! ## Tending -/

/-- Whether an operation only adds a peer or reads. -/
def CoreOp.tends : CoreOp → Bool
  | addPeer _ | read => true
  | _ => false

theorem CoreOp.tends_of_mem_nil : ∀ op ∈ ([] : List CoreOp), op.tends = true :=
  fun _ h => by contradiction

/-- Every core of a tracker is still there, and was tended at most. -/
def NamespaceTracker.Tended (t t' : NamespaceTracker) : Prop :=
  ∀ key, ∃ ops : List CoreOp, (∀ op ∈ ops, op.tends = true) ∧
    t'.cores.get? key = (t.cores.get? key).map fun core => ops.foldl CoreOp.apply core

namespace NamespaceTracker.Tended

theorem refl (t : NamespaceTracker) : t.Tended t := fun key =>
  ⟨[], CoreOp.tends_of_mem_nil, by cases t.cores.get? key <;> rfl⟩

/-- Tending twice is tending. -/
theorem trans {t t' t'' : NamespaceTracker} (h : t.Tended t') (h' : t'.Tended t'') :
    t.Tended t'' := by
  intro key
  obtain ⟨ops, hops, hcore⟩ := h key
  obtain ⟨ops', hops', hcore'⟩ := h' key
  refine ⟨ops ++ ops', fun op hop => ?_, ?_⟩
  · rcases List.mem_append.1 hop with hop | hop
    · exact hops op hop
    · exact hops' op hop
  · rw [hcore', hcore, Option.map_map]
    cases t.cores.get? key with
    | none => rfl
    | some core => exact congrArg some List.foldl_append.symm

/-- To do the same to every core is to tend it, if that operation does. -/
theorem of_mapValues {t t' : NamespaceTracker} (op : CoreOp) (hop : op.tends = true)
    (h : t'.cores = t.cores.mapValues fun _ core => op.apply core) : t.Tended t' := by
  intro key
  refine ⟨[op], fun op' hop' => ?_, ?_⟩
  · rw [List.mem_singleton.1 hop', hop]
  · rw [h, SortedMap.get?_mapValues]
    rfl

/-- A peer that joins a namespace is added to its cores, which tends each of them. -/
theorem addPeer (t : NamespaceTracker) (p : PeerId) : t.Tended (t.addPeer p) :=
  of_mapValues (.addPeer p) rfl rfl

/-- To read the state of a namespace reads its cores, which tends each of them. -/
theorem state (t : NamespaceTracker) : t.Tended t.state.2 := by
  rcases t.cores_state with hcores | hcores
  · intro key
    rw [hcores]
    exact refl t key
  · exact of_mapValues .read rfl hcores

/-- The joining of partners tends every core, too. -/
theorem addPartners (t : NamespaceTracker) (ns : Namespace) (partners : Partners) :
    t.Tended (t.addPartners ns partners) := by
  refine List.foldlRecOn (motive := fun t' => t.Tended t') _ _ (refl t) fun t' ht' p _ => ?_
  split
  · exact ht'.trans (addPeer t' p.1)
  · exact ht'

/-- No core comes or goes. -/
theorem contains_eq {t t' : NamespaceTracker} (h : t.Tended t') (key : DiscoveryKey) :
    t'.contains key = t.contains key := by
  obtain ⟨ops, -, hcore⟩ := h key
  show (t'.cores.get? key).isSome = (t.cores.get? key).isSome
  rw [hcore, Option.isSome_map]

end NamespaceTracker.Tended

/-! ## Touching -/

/-- An operation on one core, and where the core is tracked from then on. -/
structure Touch where
  ns : Namespace
  tracker : NamespaceTracker
  key : DiscoveryKey
  op : CoreOp

namespace Engine

/-- The one core that an input is about, if it is about one that is or will be tracked. -/
def touched? (e : Engine) : Input → Option Touch
  | .addCore ns key snapshot =>
    if e.catalog.contains key then none
    else (e.namespaces.get? ns).map (⟨ns, ·, key, .attach snapshot⟩)
  | .preHaves p m =>
    let ns := (e.trackedIn? m.key).getD m.ns
    (e.namespaces.get? ns).map (⟨ns, ·, m.key, .setPreHaves p (.ofWords m.start m.words)⟩)
  | .wants ns key p ranges =>
    let ns := (e.trackedIn? key).getD ns
    (e.namespaces.get? ns).map (⟨ns, ·, key, .addWants p ranges⟩)
  | .coreEvent key event => do
    let ns ← e.catalog.namespaceOf? key
    let t ← e.namespaces.get? ns
    if t.contains key then some ⟨ns, t, key, .event event⟩ else none
  | _ => none

/-- The ways in which an input is about a core. -/
inductive Touches (e : Engine) : Input → Touch → Prop
  /-- A core that is not attached is added. -/
  | add {ns t key} (snapshot : CoreSnapshot) (hnew : e.catalog.contains key = false)
      (ht : e.namespaces.get? ns = some t) :
      Touches e (.addCore ns key snapshot) ⟨ns, t, key, .attach snapshot⟩
  /-- A peer writes what it has of a core. -/
  | preHaves {t} (p : PeerId) (m : PreHaveMessage)
      (ht : e.namespaces.get? ((e.trackedIn? m.key).getD m.ns) = some t) :
      Touches e (.preHaves p m)
        ⟨(e.trackedIn? m.key).getD m.ns, t, m.key, .setPreHaves p (.ofWords m.start m.words)⟩
  /-- A peer writes what it wants of a core. -/
  | wants {t} (ns : Namespace) (key : DiscoveryKey) (p : PeerId) (ranges : List BlockRange)
      (ht : e.namespaces.get? ((e.trackedIn? key).getD ns) = some t) :
      Touches e (.wants ns key p ranges) ⟨(e.trackedIn? key).getD ns, t, key, .addWants p ranges⟩
  /-- A core that is tracked where the catalog says has changed. -/
  | event {ns t key} (event : CoreEvent) (hns : e.catalog.namespaceOf? key = some ns)
      (ht : e.namespaces.get? ns = some t) (hkey : t.contains key = true) :
      Touches e (.coreEvent key event) ⟨ns, t, key, .event event⟩

theorem touches_of_touched {e : Engine} {input : Input} {touch : Touch}
    (h : e.touched? input = some touch) : e.Touches input touch := by
  cases input <;> simp only [touched?, reduceCtorEq] at h
  case addCore ns key snapshot =>
    split at h
    · contradiction
    · next hnew =>
      obtain ⟨t, ht, rfl⟩ := Option.map_eq_some_iff.1 h
      exact .add snapshot (Bool.eq_false_iff.2 hnew) ht
  case preHaves p m =>
    obtain ⟨t, ht, rfl⟩ := Option.map_eq_some_iff.1 h
    exact .preHaves p m ht
  case wants ns key p ranges =>
    obtain ⟨t, ht, rfl⟩ := Option.map_eq_some_iff.1 h
    exact .wants ns key p ranges ht
  case coreEvent key event =>
    simp only [Option.bind_eq_bind, Option.bind_eq_some_iff] at h
    obtain ⟨ns, hns, t, ht, h⟩ := h
    split at h
    · next hkey =>
      cases h
      exact .event event hns ht hkey
    · contradiction

/-- A core is touched in a namespace that is there. -/
theorem get?_of_touched {e : Engine} {input : Input} {touch : Touch}
    (h : e.touched? input = some touch) : e.namespaces.get? touch.ns = some touch.tracker := by
  cases touches_of_touched h <;> assumption

end Engine

/-- Every tracker was tended. -/
def AllTended (namespaces namespaces' : SortedMap Namespace NamespaceTracker) : Prop :=
  ∃ f : Namespace → NamespaceTracker → NamespaceTracker,
    (∀ ns t, NamespaceTracker.Tended t (f ns t)) ∧ namespaces' = namespaces.mapValues f

theorem AllTended.refl (namespaces : SortedMap Namespace NamespaceTracker) :
    AllTended namespaces namespaces :=
  ⟨fun _ t => t, fun _ t => .refl t, (SortedMap.mapValues_eq_self fun _ _ => rfl).symm⟩

/-- If every tracker was tended and then tended again, every tracker was tended. -/
theorem AllTended.trans {namespaces namespaces' namespaces'' : SortedMap Namespace NamespaceTracker}
    (h : AllTended namespaces namespaces') (h' : AllTended namespaces' namespaces'') :
    AllTended namespaces namespaces'' := by
  obtain ⟨f, hf, rfl⟩ := h
  obtain ⟨f', hf', rfl⟩ := h'
  exact ⟨fun ns t => f' ns (f ns t), fun ns t => (hf ns t).trans (hf' ns _),
    SortedMap.mapValues_mapValues f f' namespaces⟩

/-- What became of a core that was touched: the operation, and some tending. -/
def Touch.outcome (touch : Touch) (ops : List CoreOp) : CoreTracker :=
  ops.foldl CoreOp.apply (touch.op.apply (touch.tracker.core touch.key))

/-! ## What a step does -/

namespace Engine

section
variable {e : Engine}

/-- An evaluation tends. -/
theorem tended_evaluate (roles : Roles) (now : Nat) (e : Engine) :
    AllTended e.namespaces (e.evaluate roles now).1.namespaces := by
  refine ⟨fun ns t => (t.addPartners ns (e.partnersSeen roles)).state.2, fun ns t => ?_, ?_⟩
  · exact (NamespaceTracker.Tended.addPartners t ns _).trans (.state _)
  · rw [evaluate_engine]
    show (e.registered roles).mapValues (fun _ t => t.state.2) = _
    rw [registered_eq, SortedMap.mapValues_mapValues]

/-- An engine that rests may read its trackers, and that is to tend them. -/
theorem Rests.tended {e' : Engine} (h : e.Rests e') : AllTended e.namespaces e'.namespaces := by
  obtain ⟨read, hread⟩ := h.namespaces
  refine ⟨_, fun ns t => ?_, hread⟩
  split
  · exact .state t
  · exact .refl t

/-- A peer's message about a core touches it. -/
theorem updateNamed_eq (now : Nat) (ns : Namespace) (key : DiscoveryKey)
    (f : CoreTracker → CoreTracker) :
    (e.updateNamed now ns key f).namespaces
      = (e.namespaces.get? ((e.trackedIn? key).getD ns)).elim e.namespaces fun t =>
          e.namespaces.insert ((e.trackedIn? key).getD ns) (t.setCore key (f (t.core key))) := by
  unfold updateNamed
  dsimp only
  cases e.namespaces.get? ((e.trackedIn? key).getD ns) <;> rfl

/-- An event of a core that is not tracked is lost. -/
theorem coreEvent_of_untouched {key : DiscoveryKey} {event : CoreEvent}
    (h : e.touched? (.coreEvent key event) = none) (now : Nat) :
    e.coreEvent now key event = e := by
  unfold coreEvent
  dsimp only
  split
  · rfl
  · next ns t core htracked =>
    simp only [Option.bind_eq_bind, Option.bind_eq_some_iff] at htracked
    obtain ⟨ns', hns, t', ht, core', hcore, heq⟩ := htracked
    have hcontains : t'.contains key = true := by
      show (t'.cores.get? key).isSome = true
      rw [hcore]
      rfl
    simp only [touched?, hns, ht, Option.bind_eq_bind, Option.bind_some, if_pos hcontains,
      reduceCtorEq] at h

/-- An event of a core that is tracked goes to that core. -/
theorem coreEvent_of_touched {key : DiscoveryKey} {event : CoreEvent} {touch : Touch}
    (h : e.touched? (.coreEvent key event) = some touch) (now : Nat) :
    (e.coreEvent now key event).namespaces
      = e.namespaces.insert touch.ns (touch.tracker.setCore touch.key (touch.outcome [])) := by
  cases touches_of_touched h with
  | @event ns t key event hns ht hkey =>
    obtain ⟨core, hcore⟩ := Option.isSome_iff_exists.1 hkey
    have hown : t.core key = core := by
      rw [NamespaceTracker.core, hcore]
      rfl
    simp only [coreEvent, hns, ht, hcore, Option.bind_eq_bind, Option.bind_some, Option.pure_def,
      Touch.outcome, List.foldl_nil, CoreOp.apply, hown]
    split
    · rfl
    · next hsame =>
      -- what an event does not change is put back as it was
      have hunchanged : (core.onEvent event).1 = core := by
        unfold CoreTracker.onEvent at hsame ⊢
        cases hafter : core.afterEvent event with
        | none => rfl
        | some core' =>
          rw [hafter] at hsame
          exact absurd rfl hsame
      rw [hunchanged, NamespaceTracker.setCore, SortedMap.insert_self hcore]
      exact (SortedMap.insert_self ht).symm

/-- A request to add a core touches it, unless it is refused at once. -/
theorem addCore_of_touched {ns : Namespace} {key : DiscoveryKey} {snapshot : CoreSnapshot}
    {touch : Touch} (h : e.touched? (.addCore ns key snapshot) = some touch) (now : Nat) :
    ∃ ops : List CoreOp, (∀ op ∈ ops, op.tends = true) ∧
      (e.addCore now ns key snapshot).1.namespaces
        = e.namespaces.insert touch.ns (touch.tracker.setCore touch.key (touch.outcome ops)) := by
  cases touches_of_touched h with
  | @add ns t key snapshot hnew ht =>
    simp only [addCore, ht, hnew, Bool.false_eq_true, if_false, Touch.outcome, CoreOp.apply]
    rcases (t.core key).attach snapshot with err | ⟨core, new⟩
    · exact ⟨[], CoreOp.tends_of_mem_nil, rfl⟩
    · cases new with
      | false => exact ⟨[], CoreOp.tends_of_mem_nil, rfl⟩
      | true =>
        -- the peers that may sync the namespace are added to the new core
        let allowed := e.links.values.filter (·.capabilities.allows ns)
        refine ⟨allowed.map fun l => .addPeer l.peer, fun op hop => ?_, ?_⟩
        · obtain ⟨l, -, rfl⟩ := List.mem_map.1 hop
          rfl
        · rw [List.foldl_map]
          rfl

end

section
variable {e : Engine} (roles : Roles) (now : Nat) {input : Input}

/-- An input that is evaluated at once tends. -/
theorem tended_of_evaluated {e₀ : Engine} (h : e.evaluatedFor? now input = some e₀) :
    AllTended e.namespaces (e.handle roles now input).1.namespaces := by
  rw [handle_of_evaluated h]
  have htended := (tended_evaluate roles now e₀).trans (rests_handOver _ now input).tended
  exact (frame_of_evaluated h).1 ▸ htended

/-- An input that touches no core tends at most. -/
theorem namespaces_of_untouched (h : e.touched? input = none) :
    AllTended e.namespaces (e.handle roles now input).1.namespaces := by
  cases h₀ : e.evaluatedFor? now input with
  | some e₀ => exact tended_of_evaluated roles now h₀
  | none =>
    rw [handle_of_not_evaluated h₀]
    have hrefl : AllTended e.namespaces e.namespaces := .refl _
    cases input
    case wait w =>
      -- a waiter is answered by the counts, which are read for it
      have hread : (e.wait w).1.namespaces = e.namespaces.mapValues fun _ t => t.state.2 := by
        unfold wait
        dsimp only
        rw [readStates_engine]
        split <;> rfl
      exact ⟨_, fun _ t => .state t, hread⟩
    case announce id key =>
      simp only [handleQuietly, announce]
      split <;> exact hrefl
    case addCore ns key snapshot =>
      rcases e.addCore_cases now ns key snapshot with ⟨result, heq⟩ | ⟨t, ht, hnew, -⟩
      · simp only [handleQuietly, heq]
        exact hrefl
      · simp only [touched?, ht, hnew, Bool.false_eq_true, if_false, Option.map_some,
          reduceCtorEq] at h
    case preHaves p m =>
      have hns := Option.map_eq_none_iff.1 h
      simp only [handleQuietly, updateNamed_eq, hns]
      exact hrefl
    case wants ns key p ranges =>
      have hns := Option.map_eq_none_iff.1 h
      simp only [handleQuietly, updateNamed_eq, hns]
      exact hrefl
    case report ns => exact (e.rests_report ns).tended
    case coreEvent key event =>
      simp only [handleQuietly, coreEvent_of_untouched h]
      exact hrefl
    case timer t => cases t <;> exact hrefl
    all_goals exact hrefl

/-- An input that touches a core has it tracked, as the operation has left it, and tended. -/
theorem namespaces_of_touched {touch : Touch} (h : e.touched? input = some touch) :
    ∃ ops : List CoreOp, (∀ op ∈ ops, op.tends = true) ∧
      (e.handle roles now input).1.namespaces
        = e.namespaces.insert touch.ns (touch.tracker.setCore touch.key (touch.outcome ops)) := by
  cases touches_of_touched h with
  | add snapshot hnew ht => exact addCore_of_touched h now
  | preHaves p m ht =>
    refine ⟨[], CoreOp.tends_of_mem_nil, ?_⟩
    simp only [handle, updateNamed_eq, ht]
    rfl
  | wants ns key p ranges ht =>
    refine ⟨[], CoreOp.tends_of_mem_nil, ?_⟩
    simp only [handle, updateNamed_eq, ht]
    rfl
  | event event hns ht hkey => exact ⟨[], CoreOp.tends_of_mem_nil, coreEvent_of_touched h now⟩

end

/-! ## What a step does to a core -/

/-- The tracker of a core in a namespace; one that is not tracked there is new and empty. -/
def core (e : Engine) (ns : Namespace) (key : DiscoveryKey) : CoreTracker :=
  (e.namespaces.get? ns).elim (.ofKey key) (·.core key)

/-- The operation by which an input is about a core in a namespace, if it is. -/
def opOn? (e : Engine) (ns : Namespace) (key : DiscoveryKey) (input : Input) : Option CoreOp :=
  (e.touched? input).bind fun touch =>
    if touch.ns = ns ∧ touch.key = key then some touch.op else none

/-- Where trackers are tended, so is every core. -/
theorem core_of_tended {e e' : Engine} (h : AllTended e.namespaces e'.namespaces) (ns : Namespace)
    (key : DiscoveryKey) :
    ∃ ops : List CoreOp, (∀ op ∈ ops, op.tends = true) ∧
      e'.core ns key = ops.foldl CoreOp.apply (e.core ns key) := by
  obtain ⟨f, hf, heq⟩ := h
  unfold core
  rw [heq, SortedMap.get?_mapValues]
  cases e.namespaces.get? ns with
  | none => exact ⟨[], CoreOp.tends_of_mem_nil, rfl⟩
  | some t =>
    obtain ⟨ops, hops, hcore⟩ := hf ns t key
    show ∃ ops : List CoreOp, _ ∧ (f ns t).core key = ops.foldl CoreOp.apply (t.core key)
    unfold NamespaceTracker.core
    rw [hcore]
    cases t.cores.get? key with
    | none => exact ⟨[], CoreOp.tends_of_mem_nil, rfl⟩
    | some core => exact ⟨ops, hops, rfl⟩

/-- A core that is tracked anew in its namespace stands there; the others stay as they are. -/
theorem core_of_insert {e e' : Engine} {ns ns' : Namespace} {t : NamespaceTracker}
    (ht : e.namespaces.get? ns' = some t) {key key' : DiscoveryKey} {core : CoreTracker}
    (h : e'.namespaces = e.namespaces.insert ns' (t.setCore key' core)) :
    e'.core ns key = if ns = ns' ∧ key = key' then core else e.core ns key := by
  unfold Engine.core
  rw [h, SortedMap.get?_insert]
  by_cases hns : ns = ns'
  · subst hns
    rw [if_pos rfl, ht]
    show (t.setCore key' core).core key = _
    by_cases hkey : key = key'
    · subst hkey
      rw [if_pos ⟨rfl, rfl⟩, NamespaceTracker.core_setCore]
    · rw [if_neg fun h => hkey h.2, NamespaceTracker.core, NamespaceTracker.setCore,
        SortedMap.get?_insert, if_neg hkey]
      rfl
  · rw [if_neg hns, if_neg fun h => hns h.1]

theorem core_of_get? {e : Engine} {ns : Namespace} {key : DiscoveryKey} {t : NamespaceTracker}
    (ht : e.namespaces.get? ns = some t) : e.core ns key = t.core key := by
  unfold core
  rw [ht]
  rfl

/-- A step does to a core what the input asks for, if it is about that core, and tends it. -/
theorem core_handle (e : Engine) (roles : Roles) (now : Nat) (input : Input) (ns : Namespace)
    (key : DiscoveryKey) :
    ∃ ops : List CoreOp, (∀ op ∈ ops, op.tends = true) ∧
      (e.handle roles now input).1.core ns key
        = ((e.opOn? ns key input).toList ++ ops).foldl CoreOp.apply (e.core ns key) := by
  cases htouched : e.touched? input with
  | none =>
    have hnone : e.opOn? ns key input = none := by rw [opOn?, htouched]; rfl
    rw [hnone]
    exact core_of_tended (namespaces_of_untouched roles now htouched) ns key
  | some touch =>
    obtain ⟨ops, hops, heq⟩ := namespaces_of_touched roles now htouched
    have htracker := get?_of_touched htouched
    rw [core_of_insert htracker heq, opOn?, htouched, Option.bind_some]
    by_cases hplace : ns = touch.ns ∧ key = touch.key
    · obtain ⟨rfl, rfl⟩ := hplace
      rw [if_pos ⟨rfl, rfl⟩, if_pos ⟨rfl, rfl⟩, core_of_get? htracker]
      exact ⟨ops, hops, rfl⟩
    · rw [if_neg hplace, if_neg fun h => hplace ⟨h.1.symm, h.2.symm⟩]
      exact ⟨[], CoreOp.tends_of_mem_nil, rfl⟩

/-! ## What a step leaves alone -/

/-- An input that is not evaluated at once leaves the timer and the switch alone, and the catalog
too unless it attaches a core. -/
theorem frame_handleQuietly (e : Engine) (now : Nat) (input : Input) :
    (e.handleQuietly now input).1.autostop = e.autostop ∧
      (e.handleQuietly now input).1.switch = e.switch ∧
      ((e.handleQuietly now input).1.catalog = e.catalog ∨
        ∃ touch, e.touched? input = some touch ∧
          (e.handleQuietly now input).1.catalog = (e.catalog.insert touch.key touch.ns).1) := by
  cases input
  case wait w =>
    simp only [handleQuietly, wait, readStates_engine]
    split <;> exact ⟨rfl, rfl, Or.inl rfl⟩
  case announce id key =>
    simp only [handleQuietly, announce]
    split <;> exact ⟨rfl, rfl, Or.inl rfl⟩
  case addCore ns key snapshot =>
    simp only [handleQuietly]
    rcases e.addCore_cases now ns key snapshot with
      ⟨result, heq⟩ | ⟨t, ht, hnew, ⟨err, -, heq⟩ | ⟨core, -, heq⟩ | ⟨core, -, heq⟩⟩ <;> rw [heq]
    · exact ⟨rfl, rfl, Or.inl rfl⟩
    · exact ⟨rfl, rfl, Or.inl rfl⟩
    · exact ⟨rfl, rfl, Or.inl rfl⟩
    · refine ⟨rfl, rfl, Or.inr ⟨⟨ns, t, key, .attach snapshot⟩, ?_, rfl⟩⟩
      simp only [touched?, hnew, Bool.false_eq_true, if_false, ht, Option.map_some]
  case preHaves p m =>
    simp only [handleQuietly, updateNamed]
    split <;> exact ⟨rfl, rfl, Or.inl rfl⟩
  case wants ns key p ranges =>
    simp only [handleQuietly, updateNamed]
    split <;> exact ⟨rfl, rfl, Or.inl rfl⟩
  case report ns =>
    have hrests := e.rests_report ns
    exact ⟨hrests.autostop, hrests.switch, Or.inl hrests.catalog⟩
  case coreEvent key event =>
    simp only [handleQuietly, coreEvent]
    split
    · exact ⟨rfl, rfl, Or.inl rfl⟩
    · split <;> exact ⟨rfl, rfl, Or.inl rfl⟩
  case timer t => cases t <;> exact ⟨rfl, rfl, Or.inl rfl⟩
  all_goals exact ⟨rfl, rfl, Or.inl rfl⟩

/-! ## Sound trackers -/

/-- Every input leaves the trackers sound. -/
theorem allSound_handle {e : Engine} (h : AllSound e.catalog e.namespaces) (roles : Roles)
    (now : Nat) (input : Input) :
    AllSound (e.handle roles now input).1.catalog (e.handle roles now input).1.namespaces := by
  cases h₀ : e.evaluatedFor? now input with
  | some e₀ =>
    rw [handle_of_evaluated h₀]
    have hevaluated := allSound_evaluate roles now (allSound_of_evaluated h h₀)
    exact (rests_handOver _ now input).allSound hevaluated
  | none =>
    rw [handle_of_not_evaluated h₀]
    by_cases hadd : ∃ ns key snapshot, input = .addCore ns key snapshot
    · obtain ⟨ns, key, snapshot, rfl⟩ := hadd
      exact allSound_addCore h now ns key snapshot
    · rcases rests_or_notes h now fun ns key snapshot heq => absurd ⟨ns, key, snapshot, heq⟩ hadd
        with hrests | hnotes
      · exact hrests.allSound h
      · exact hnotes.sound

/-! ## Properties of all cores -/

/-- Every core that is tracked has a property. -/
def AllCores (P : CoreTracker → Prop) (e : Engine) : Prop :=
  ∀ ns t key core, e.namespaces.get? ns = some t → t.cores.get? key = some core → P core

section
variable {P : CoreTracker → Prop}

/-- What tending keeps true of a core stays true of it, however often it is tended. -/
theorem foldl_of_tends (htend : ∀ op : CoreOp, op.tends = true → ∀ core, P core → P (op.apply core))
    {ops : List CoreOp} (hops : ∀ op ∈ ops, op.tends = true) {core : CoreTracker} (h : P core) :
    P (ops.foldl CoreOp.apply core) :=
  List.foldlRecOn (motive := P) ops _ h fun core hcore op hop => htend op (hops op hop) core hcore

/-- It stays true of all cores where every tracker was tended. -/
theorem AllCores.of_tended {e e' : Engine} (h : e.AllCores P)
    (htend : ∀ op : CoreOp, op.tends = true → ∀ core, P core → P (op.apply core))
    (htended : AllTended e.namespaces e'.namespaces) : e'.AllCores P := by
  intro ns t key core ht hcore
  obtain ⟨f, hf, heq⟩ := htended
  rw [heq, SortedMap.get?_mapValues] at ht
  obtain ⟨t', ht', rfl⟩ := Option.map_eq_some_iff.1 ht
  obtain ⟨ops, hops, hcores⟩ := hf ns t' key
  rw [hcores] at hcore
  obtain ⟨core', hcore', rfl⟩ := Option.map_eq_some_iff.1 hcore
  exact foldl_of_tends htend hops (h ns t' key core' ht' hcore')

/-- An engine that has just begun tracks no core. -/
theorem allCores_begin (s : Settings) (roles : Roles) (now : Nat) (P : CoreTracker → Prop) :
    (begin roles now s).1.AllCores P := by
  -- the trackers are made one by one, each without a core
  have hnone : (ofSettings s).AllCores fun _ => False := by
    refine List.foldlRecOn (motive := fun namespaces : SortedMap Namespace NamespaceTracker =>
      ∀ ns t key core, namespaces.get? ns = some t → t.cores.get? key = some core → False) _ _
      (fun ns t key core ht => by contradiction) fun namespaces h x hx => ?_
    obtain ⟨ns, -, rfl⟩ := List.mem_map.1 hx
    intro ns' t key core ht hcore
    rw [SortedMap.get?_insert] at ht
    split at ht
    · obtain rfl := Option.some.inj ht
      contradiction
    · exact h ns' t key core ht hcore
  have hbegun : (begin roles now s).1.AllCores fun _ => False :=
    hnone.of_tended (fun _ _ _ => id) (tended_evaluate roles now _)
  exact fun ns t key core ht hcore => (hbegun ns t key core ht hcore).elim

theorem core_begin (s : Settings) (roles : Roles) (now : Nat) (ns : Namespace)
    (key : DiscoveryKey) : (begin roles now s).1.core ns key = .ofKey key := by
  have hnone := allCores_begin s roles now fun _ => False
  unfold core NamespaceTracker.core
  cases ht : (begin roles now s).1.namespaces.get? ns with
  | none => rfl
  | some t =>
    cases hcore : t.cores.get? key with
    | none =>
      show (t.cores.get? key).getD _ = _
      rw [hcore]
      rfl
    | some core => exact (hnone ns t key core ht hcore).elim

/-- A property that new cores have, and that neither tending nor what the input does to the core
that it touches takes away, stays true of all cores. -/
theorem AllCores.handle {e : Engine} (h : e.AllCores P) (hnew : ∀ key, P (.ofKey key))
    (htend : ∀ op : CoreOp, op.tends = true → ∀ core, P core → P (op.apply core))
    (roles : Roles) (now : Nat) {input : Input}
    (htouch : ∀ touch, e.touched? input = some touch → ∀ core, P core → P (touch.op.apply core)) :
    (e.handle roles now input).1.AllCores P := by
  cases htouched : e.touched? input with
  | none => exact h.of_tended htend (namespaces_of_untouched roles now htouched)
  | some touch =>
    intro ns t key core ht hcore
    obtain ⟨ops, hops, heq⟩ := namespaces_of_touched roles now htouched
    have htracker := get?_of_touched htouched
    rw [heq, SortedMap.get?_insert] at ht
    split at ht
    · obtain rfl := Option.some.inj ht
      rw [NamespaceTracker.setCore, SortedMap.get?_insert] at hcore
      split at hcore
      · obtain rfl := Option.some.inj hcore
        -- the core that the operation met was tracked before, or is new
        refine foldl_of_tends htend hops (htouch touch htouched _ ?_)
        unfold NamespaceTracker.core
        cases hold : touch.tracker.cores.get? touch.key with
        | none => exact hnew touch.key
        | some core' => exact h _ _ _ _ htracker hold
      · exact h _ _ _ _ htracker hcore
    · exact h ns t key core ht hcore

end

end Engine

/-! ## Lengths -/

/-- The lengths that an input tells of fit the index space. -/
def Input.LengthFits : Input → Prop
  | .addCore _ _ snapshot => snapshot.length ≤ lastIndex
  | .coreEvent _ (.append length _) => length ≤ lastIndex
  | _ => True

/-- All lengths of a run fit the index space. -/
def Run.LengthsFit {s : Settings} : Run s → Prop
  | begin _ _ => True
  | handle before _ _ input => before.LengthsFit ∧ input.LengthFits

/-- Tending a core leaves its length and the local record. -/
theorem CoreOp.local_of_tends (op : CoreOp) (h : op.tends = true) (core : CoreTracker) :
    (op.apply core).length = core.length ∧ (op.apply core).localPeer = core.localPeer := by
  cases op <;> try contradiction
  case addPeer p =>
    simp only [apply, CoreTracker.addPeer]
    split <;> exact ⟨rfl, rfl⟩
  case read =>
    rw [apply, CoreTracker.counts_tracker]
    exact ⟨rfl, rfl⟩

/-- The length that an operation tells of, if it tells of one, fits the index space. -/
def CoreOp.LengthFits : CoreOp → Prop
  | attach snapshot => snapshot.length ≤ lastIndex
  | event (.append length _) => length ≤ lastIndex
  | _ => True

/-- An event leaves the length of a core alone, unless it appends to the core. -/
theorem CoreTracker.length_afterEvent {core core' : CoreTracker} {e : CoreEvent}
    (h : core.afterEvent e = some core') :
    core'.length = core.length ∨ ∃ writtenLocally, e = .append core'.length writtenLocally := by
  cases e <;> simp only [afterEvent] at h
  case peerRemove p =>
    split at h
    · cases h; exact Or.inl rfl
    · contradiction
  case download index =>
    split at h
    · cases h; exact Or.inl rfl
    · contradiction
  case append length writtenLocally =>
    split at h
    · contradiction
    · cases h; exact Or.inr ⟨writtenLocally, rfl⟩
  all_goals cases h; exact Or.inl rfl

/-- No operation takes a core's length out of the index space. -/
theorem CoreOp.length_apply_le {op : CoreOp} (h : op.LengthFits) {core : CoreTracker}
    (hcore : core.length ≤ lastIndex) : (op.apply core).length ≤ lastIndex := by
  cases op with
  | attach s =>
    simp only [apply, CoreTracker.attach]
    by_cases hkey : s.key ≠ core.key
    · rw [if_pos hkey]
      exact hcore
    · rw [if_neg hkey]
      by_cases hattached : core.attached = true
      · rw [if_pos hattached]
        exact hcore
      · rw [if_neg hattached]
        have hlength := (CoreTracker.local_foldl_connect s.peers { core with
          attached := true
          length := max core.length s.length
          localPeer := core.localPeer.setHaves s.localBits }).1
        exact hlength.symm ▸ Nat.max_le.2 ⟨hcore, h⟩
  | setPreHaves p bits => exact hcore
  | addWants p ranges => exact hcore
  | addPeer p => exact ((addPeer p).local_of_tends rfl core).1.symm ▸ hcore
  | event e =>
    simp only [apply, CoreTracker.onEvent]
    cases hafter : core.afterEvent e with
    | none => exact hcore
    | some core' =>
      show core'.length ≤ lastIndex
      rcases CoreTracker.length_afterEvent hafter with hlength | ⟨writtenLocally, rfl⟩
      · exact hlength ▸ hcore
      · exact h
  | read => exact (read.local_of_tends rfl core).1.symm ▸ hcore

theorem Engine.lengthFits_touched {e : Engine} {input : Input} (hinput : input.LengthFits)
    {touch : Touch} (h : e.touched? input = some touch) : touch.op.LengthFits := by
  cases touches_of_touched h with
  | add snapshot hnew ht => exact hinput
  | preHaves p m ht => trivial
  | wants ns key p ranges ht => trivial
  | event event hns ht hkey =>
    cases event with
    | append length writtenLocally => exact hinput
    | _ => trivial

/-! ## Runs -/

namespace Run

variable {s : Settings}

theorem allSound (r : Run s) : AllSound r.engine.catalog r.engine.namespaces := by
  induction r with
  | begin roles now => exact Engine.allSound_evaluate roles now (Engine.allSound_ofSettings s)
  | handle before roles now input ih => exact Engine.allSound_handle ih roles now input

/-- If all lengths fit that a run is told of, then at its end those of all cores do. -/
theorem lengths_fit (r : Run s) (h : r.LengthsFit) :
    r.engine.AllCores fun core => core.length ≤ lastIndex := by
  induction r with
  | begin roles now => exact Engine.allCores_begin s roles now _
  | handle before roles now input ih =>
    refine (ih h.1).handle (fun key => Nat.zero_le _) (fun op hop core hcore => ?_) roles now
      fun touch htouched core hcore =>
        CoreOp.length_apply_le (Engine.lengthFits_touched h.2 htouched) hcore
    exact (op.local_of_tends hop core).1.symm ▸ hcore

end Run

end LogSync
