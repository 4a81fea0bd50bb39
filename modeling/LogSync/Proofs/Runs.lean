import LogSync.Engine
import LogSync.Proofs.SortedMaps

/-!
# Runs

A run is the whole history of an engine: the roles and the time at which it began, and the inputs
that it has handled since, each with the roles and the time of that moment. What can be said of
every reachable state is said of the engine of every run.

An input is evaluated at once or not at all; `Engine.evaluatedFor?` tells which. Nothing else is
done for those that are, except that a new link takes announcements over
(`Engine.handle_of_evaluated`), and the others are handled without a look at the roles
(`Engine.handle_of_not_evaluated`).
-/

namespace LogSync

/-! ## What is said -/

/-- The calls among some effects that are made on a connection, in order. -/
def callsOn (c : Connection) (effects : List Effect) : List ReplicationCall :=
  effects.filterMap fun
    | .call c' call => if c' = c then some call else none
    | _ => none

/-- Whether an effect publishes a snapshot, as every evaluation does. -/
def Effect.isPublish : Effect → Bool
  | .publish _ => true
  | _ => false

/-! ## Histories -/

/-- The history of an engine. -/
inductive Run (s : Settings) where
  | begin (roles : Roles) (now : Nat)
  | handle (before : Run s) (roles : Roles) (now : Nat) (input : Input)

namespace Run

variable {s : Settings}

/-- The engine as it is now. -/
def engine : Run s → Engine
  | begin roles now => (Engine.begin roles now s).1
  | handle before roles now input => (before.engine.handle roles now input).1

/-- All that the engine has said so far. -/
def effects : Run s → List Effect
  | begin roles now => (Engine.begin roles now s).2
  | handle before roles now input =>
    before.effects ++ (before.engine.handle roles now input).2

/-- The cores that a connection replicates by now, if it replicated none before it was linked: those
that all the calls on it lead to. -/
def replicatedBy (r : Run s) (c : Connection) : SortedSet DiscoveryKey :=
  (callsOn c r.effects).foldl ReplicationCall.apply ∅

/-- The roles as the last evaluation has found them. -/
def lastRoles : Run s → Roles
  | begin roles _ => roles
  | handle before roles now input =>
    if (before.engine.handle roles now input).2.any (·.isPublish) then roles else before.lastRoles

end Run

/-- Whether a connection is linked, and not just another one of its name. -/
def Engine.IsLinked (e : Engine) (c : Connection) : Prop :=
  ∃ l, e.links.get? c.id = some l ∧ l.connection = c

namespace Run

variable {s : Settings}

/-- Whether a connection was linked once and removed. -/
def HasLost (c : Connection) : Run s → Prop
  | begin _ _ => False
  | handle before _ _ input =>
    before.HasLost c ∨ before.engine.IsLinked c ∧ input = .removePeer c.id

/-- No connection is added again after it was removed. -/
def NoReturns : Run s → Prop
  | begin _ _ => True
  | handle before _ _ input => before.NoReturns ∧ ∀ c, input = .addPeer c → ¬ before.HasLost c

end Run

/-! ## Inputs that are evaluated at once -/

/-- What the announcements that have come in on a connection do to its link. -/
def PeerLink.announced (plan : NamespacePlan) (catalog : Catalog) (now : Nat)
    (as : List Announcement) (l : PeerLink) : PeerLink × List ReplicationCall :=
  as.foldl
    (fun (l, calls) a =>
      let (l, more) := l.announce plan catalog a.key now
      (l, calls ++ more))
    (l, [])

/-- What an input does to the switch before its evaluation. When the autostop timer fires, data is
no longer asked for. -/
def SyncSwitch.before (switch : SyncSwitch) (fires : Bool) : Input → SyncSwitch
  | .start _ => switch.start
  | .stop => switch.stop
  | .requestFullStop => switch.requestFullStop
  | .rescindFullStop => switch.rescindFullStop
  | .timer .autostop => if fires then switch.stop else switch
  | _ => switch

/-- What an input does to the autostop timer before its evaluation. -/
def Autostop.before (a : Autostop) (now : Nat) : Input → Autostop
  | .start (some timeout) | .setAutostop timeout => a.setAfter timeout
  | .timer .autostop => (a.fire now).1
  | _ => a

namespace Engine

/-- The engine that an input has evaluated at once, if it has. -/
def evaluatedFor? (now : Nat) (e : Engine) : Input → Option Engine
  | .start autostop => some { e with
      switch := e.switch.start
      autostop := autostop.elim e.autostop e.autostop.setAfter }
  | .stop => some { e with switch := e.switch.stop }
  | .setAutostop after => some { e with autostop := e.autostop.setAfter after }
  | .requestFullStop => some { e with switch := e.switch.requestFullStop }
  | .rescindFullStop => some { e with switch := e.switch.rescindFullStop }
  | .addPeer c =>
    if e.links.contains c.id then none
    else some { e with links := e.links.insert c.id (.ofConnection c e.settings.grace) }
  | .removePeer c =>
    if e.links.contains c then some { e with
      early := (e.early.takeMatching (·.connection = c)).1
      links := e.links.erase c }
    else none
  | .timer .throttle =>
    if (e.throttle.fire now).2 then some { e with throttle := (e.throttle.fire now).1 } else none
  | .timer .autostop =>
    if (e.autostop.fire now).2 then some { e with
      autostop := (e.autostop.fire now).1
      switch := e.switch.stop }
    else none
  | _ => none

/-- What follows on the evaluation: a new link takes the announcements over that were waiting. -/
def handOver (now : Nat) (e : Engine) : Input → Engine × List Effect
  | .addPeer c =>
    { e with early := (e.early.takeMatching (·.connection = c.id)).1 }.updateLinks fun l =>
      if l.connection.id = c.id then
        l.announced e.plan e.catalog now (e.early.takeMatching (·.connection = c.id)).2
      else (l, [])
  | _ => (e, [])

/-- An input that is evaluated at once does nothing else. -/
theorem handle_of_evaluated {now : Nat} {e e₀ : Engine} {input : Input}
    (h : e.evaluatedFor? now input = some e₀) (roles : Roles) :
    e.handle roles now input =
      (((e₀.evaluate roles now).1.handOver now input).1,
        (e₀.evaluate roles now).2 ++ ((e₀.evaluate roles now).1.handOver now input).2) := by
  cases input <;> simp only [evaluatedFor?, Option.some.injEq, reduceCtorEq] at h
  case addPeer c =>
    split at h
    · contradiction
    · next hnew =>
      cases h
      simp only [handle, addPeer, if_neg hnew]
      rfl
  case removePeer c =>
    split at h
    · next hlinked =>
      cases h
      simp only [handle, removePeer, if_pos hlinked, handOver, List.append_nil]
    · contradiction
  case timer t =>
    cases t <;> simp only [reduceCtorEq] at h
    case throttle =>
      split at h
      · next hfired =>
        cases h
        simp only [handle, fire, if_pos hfired, handOver, List.append_nil]
      · contradiction
    case autostop =>
      split at h
      · next hfired =>
        cases h
        simp only [handle, fire, if_pos hfired, handOver, List.append_nil]
      · contradiction
  all_goals
    cases h
    simp only [handle, handOver, List.append_nil]

/-- What an input does that is not evaluated at once. -/
def handleQuietly (now : Nat) (e : Engine) : Input → Engine × List Effect
  | .wait w => e.wait w
  | .abandon waiter => (e.abandon waiter, [])
  | .removePeer id => ({ e with early := (e.early.takeMatching (·.connection = id)).1 }, [])
  | .announce id key => e.announce now id key
  | .addCore ns key snapshot => e.addCore now ns key snapshot
  | .preHaves p m =>
    (e.updateNamed now m.ns m.key (·.setPreHaves p (.ofWords m.start m.words)), [])
  | .wants ns key p ranges => (e.updateNamed now ns key (·.addWants p ranges), [])
  | .report ns => e.report ns
  | .coreEvent key event => (e.coreEvent now key event, [])
  | .timer .expiry => (e.expire now, [])
  | _ => (e, [])

/-- The roles do not matter where nothing is evaluated. -/
theorem handle_of_not_evaluated {now : Nat} {e : Engine} {input : Input}
    (h : e.evaluatedFor? now input = none) (roles : Roles) :
    e.handle roles now input = e.handleQuietly now input := by
  cases input <;> simp only [evaluatedFor?, reduceCtorEq] at h
  case addPeer c =>
    split at h
    · next hlinked =>
      simp only [handle, addPeer, if_pos hlinked]
      rfl
    · contradiction
  case removePeer id =>
    split at h
    · contradiction
    · next hlinked =>
      simp only [handle, removePeer, if_neg hlinked]
      rfl
  case timer t =>
    cases t <;> simp only at h
    case expiry => rfl
    all_goals
      split at h
      · contradiction
      · next hfired =>
        simp only [handle, fire, if_neg hfired]
        rfl
  all_goals rfl

/-- What an input does before its evaluation: to the switch, to timers, and to at most one link. -/
theorem eq_of_evaluated {now : Nat} {e e₀ : Engine} {input : Input}
    (h : e.evaluatedFor? now input = some e₀) :
    ∃ early switch autostop throttle links,
      e₀ = { e with early, switch, autostop, throttle, links } ∧
        (links = e.links ∨
          (∃ c, input = .addPeer c ∧ e.links.get? c.id = none ∧
            links = e.links.insert c.id (.ofConnection c e.settings.grace)) ∨
          ∃ id, input = .removePeer id ∧ links = e.links.erase id) := by
  cases input <;> simp only [evaluatedFor?, Option.some.injEq, reduceCtorEq] at h
  case addPeer c =>
    split at h
    · contradiction
    · next hnew =>
      cases h
      refine ⟨_, _, _, _, _, rfl, Or.inr (Or.inl ⟨c, rfl, ?_, rfl⟩)⟩
      exact SortedMap.contains_eq_false.1 (Bool.eq_false_iff.2 hnew)
  case removePeer id =>
    split at h
    · cases h
      exact ⟨_, _, _, _, _, rfl, Or.inr (Or.inr ⟨id, rfl, rfl⟩)⟩
    · contradiction
  case timer t =>
    cases t <;> simp only [reduceCtorEq] at h
    all_goals
      split at h
      · cases h
        exact ⟨_, _, _, _, _, rfl, Or.inl rfl⟩
      · contradiction
  all_goals
    cases h
    exact ⟨_, _, _, _, _, rfl, Or.inl rfl⟩

/-- What an input does to the switch and the timer before its evaluation; the waiters wait on. -/
theorem before_of_evaluated {now : Nat} {e e₀ : Engine} {input : Input}
    (h : e.evaluatedFor? now input = some e₀) :
    e₀.switch = e.switch.before (e.autostop.fire now).2 input ∧
      e₀.autostop = e.autostop.before now input ∧ e₀.waiters = e.waiters := by
  cases input <;> simp only [evaluatedFor?, Option.some.injEq, reduceCtorEq] at h
  case start timeout =>
    cases h
    cases timeout <;> exact ⟨rfl, rfl, rfl⟩
  case addPeer c =>
    split at h
    · contradiction
    · cases h
      exact ⟨rfl, rfl, rfl⟩
  case removePeer id =>
    split at h
    · cases h
      exact ⟨rfl, rfl, rfl⟩
    · contradiction
  case timer t =>
    cases t <;> simp only [reduceCtorEq] at h
    case throttle =>
      split at h
      · cases h
        exact ⟨rfl, rfl, rfl⟩
      · contradiction
    case autostop =>
      split at h
      · next hfires =>
        cases h
        exact ⟨(if_pos hfires).symm, rfl, rfl⟩
      · contradiction
  all_goals
    cases h
    exact ⟨rfl, rfl, rfl⟩

/-- No input touches a tracker before its evaluation. -/
theorem frame_of_evaluated {now : Nat} {e e₀ : Engine} {input : Input}
    (h : e.evaluatedFor? now input = some e₀) :
    e₀.namespaces = e.namespaces ∧ e₀.catalog = e.catalog := by
  obtain ⟨early, switch, autostop, throttle, links, rfl, -⟩ := eq_of_evaluated h
  exact ⟨rfl, rfl⟩

/-! ## Cores that are attached -/

/-- The engine with a newly attached core, before the links are told of it: the core is tracked,
with a record of each peer that may sync it, and stands in the catalog. -/
def withCore (e : Engine) (ns : Namespace) (t : NamespaceTracker) (key : DiscoveryKey)
    (core : CoreTracker) : Engine :=
  let allowed := e.links.values.filter (·.capabilities.allows ns)
  { e with
    namespaces := e.namespaces.insert ns
      (t.setCore key (allowed.foldl (fun core l => (core.addPeer l.peer).1) core))
    catalog := (e.catalog.insert key ns).1 }

/-- What becomes of a request to add a core. -/
theorem addCore_cases (now : Nat) (ns : Namespace) (key : DiscoveryKey) (snapshot : CoreSnapshot)
    (e : Engine) :
    (∃ result, e.addCore now ns key snapshot = (e, [.added result])) ∨
    ∃ t, e.namespaces.get? ns = some t ∧ e.catalog.contains key = false ∧
      let known (core : CoreTracker) : Engine :=
        { e with namespaces := e.namespaces.insert ns (t.setCore key core) }
      (∃ err, (t.core key).attach snapshot = .error err ∧
        e.addCore now ns key snapshot = (known (t.core key), [.added (.error err)])) ∨
      (∃ core, (t.core key).attach snapshot = .ok (core, false) ∧
        e.addCore now ns key snapshot = (known core, [.added (.ok ())])) ∨
      ∃ core, (t.core key).attach snapshot = .ok (core, true) ∧
        e.addCore now ns key snapshot =
          let told := (e.withCore ns t key core).updateLinks fun l =>
            l.coreAdded e.plan (e.catalog.insert key ns).1 key
          (told.1.notify now, .listen key :: told.2 ++ [.added (.ok ())]) := by
  unfold addCore
  cases ht : e.namespaces.get? ns with
  | none => exact Or.inl ⟨_, rfl⟩
  | some t =>
    by_cases hcontains : e.catalog.contains key = true
    · exact Or.inl ⟨.ok (), by simp only [if_pos hcontains]⟩
    · simp only [if_neg hcontains]
      refine Or.inr ⟨t, rfl, Bool.eq_false_iff.2 hcontains, ?_⟩
      rcases hattach : (t.core key).attach snapshot with err | ⟨core, new⟩
      · exact Or.inl ⟨err, rfl, rfl⟩
      · cases new with
        | false => exact Or.inr (Or.inl ⟨core, rfl, rfl⟩)
        | true => exact Or.inr (Or.inr ⟨core, rfl, rfl⟩)

end Engine

end LogSync
