import LogSync.Proofs.Lifetimes
import LogSync.Proofs.Replication

/-!
# Announced keys that are kept

A peer may announce a core too early in two ways: its connection is not linked yet, or the core is
not attached yet. The engine queues the one kind and the link holds the other, each for its grace
period. Of an engine only its `Buffers` matter for them, and evaluations do not touch these. So what
an input does to announced keys is a step of a much smaller machine (`Engine.buffers_handle`), and
it is there that consistency is shown to be preserved and that every way is found in which a key is
dropped.
-/

namespace LogSync

/-! ## Keys that a link holds -/

/-- Entering a core makes no difference for the others. -/
theorem Catalog.contains_insert_of_ne {catalog : Catalog} {key k : DiscoveryKey} (h : key ≠ k)
    (ns : Namespace) : (catalog.insert k ns).1.contains key = catalog.contains key := by
  unfold insert
  split
  · rfl
  · show (catalog.cores.insert k ns).contains key = _
    rw [SortedMap.contains_insert, decide_eq_false h, Bool.false_or]
    rfl

/-- Takes keys in whose cores are not attached. -/
def Catalog.hold (catalog : Catalog) (now : Nat) (keys : List DiscoveryKey)
    (held : GraceSet DiscoveryKey) : GraceSet DiscoveryKey :=
  keys.foldl (fun held key => if catalog.contains key then held else (held.insert key now).1) held

/-- Holding keys keeps those that are not in the catalog, each from now on unless it is held
already. -/
theorem Catalog.until_hold (catalog : Catalog) (now : Nat) (keys : List DiscoveryKey)
    (held : GraceSet DiscoveryKey) (key : DiscoveryKey) :
    (catalog.hold now keys held).until? key
      = if key ∈ keys ∧ catalog.contains key = false
        then some ((held.until? key).getD (now + held.grace)) else held.until? key := by
  induction keys generalizing held with
  | nil => rfl
  | cons k keys ih =>
    have hcons : catalog.hold now (k :: keys) held = catalog.hold now keys
        (if catalog.contains k then held else (held.insert k now).1) := rfl
    rw [hcons, ih]
    by_cases hcontains : catalog.contains k = true
    · -- an attached core is passed over
      rw [if_pos hcontains]
      by_cases hkey : key = k
      · subst hkey
        simp [hcontains]
      · simp [hkey]
    · rw [if_neg hcontains, GraceSet.until_insert, GraceSet.grace_insert]
      by_cases hkey : key = k
      · subst hkey
        simp [Bool.eq_false_iff.2 hcontains]
      · simp [hkey]

namespace PeerLink

variable (plan : NamespacePlan) (catalog : Catalog) (l : PeerLink)

/-- A link that is told what its peer may have holds the keys that it held. -/
theorem held_setCapabilities (capabilities : Capabilities) :
    (l.setCapabilities plan catalog capabilities).1.held = l.held := by
  unfold setCapabilities
  split <;> rfl

/-- A link that hears of a key holds it, unless the core is in the catalog. -/
theorem held_announce (key : DiscoveryKey) (now : Nat) :
    (l.announce plan catalog key now).1.held = catalog.hold now [key] l.held := by
  unfold announce Catalog.hold
  rw [List.foldl_cons, List.foldl_nil]
  split <;> rfl

/-- A link that hears of several keys holds those whose cores are not in the catalog. -/
theorem held_announced (now : Nat) (as : List Announcement) :
    (l.announced plan catalog now as).1.held = catalog.hold now (as.map (·.key)) l.held := by
  unfold announced Catalog.hold
  rw [List.foldl_map]
  refine (List.foldl_hom (fun out : PeerLink × List ReplicationCall => out.1.held)
    fun out a => ?_).symm
  exact (held_announce plan catalog out.1 a.key now).symm

end PeerLink

/-! ## The buffers of an engine -/

/-- What is kept of announcements, and the cores that they may be about. -/
structure Buffers where
  early : GraceSet Announcement
  /-- The keys that the link of a connection holds, if the connection is linked. -/
  held : ConnectionId → Option (GraceSet DiscoveryKey)
  catalog : Catalog

namespace Buffers

section
variable (b : Buffers) (now : Nat)

/-- Links a connection: it takes the keys over that were waiting for it. -/
def link (grace : Nat) (c : ConnectionId) : Buffers :=
  let (early, announced) := b.early.takeMatching (·.connection = c)
  let held := b.catalog.hold now (announced.map (·.key)) { grace }
  { b with early, held := fun id => if id = c then some held else b.held id }

/-- Drops all that is kept of a connection. -/
def unlink (c : ConnectionId) : Buffers :=
  { b with
    early := (b.early.takeMatching (·.connection = c)).1
    held := fun id => if id = c then none else b.held id }

/-- Keeps a key for a connection that is not linked. -/
def queue (a : Announcement) : Buffers := { b with early := (b.early.insert a now).1 }

/-- Keeps a key with the link of its connection. -/
def hold (a : Announcement) : Buffers :=
  { b with
    held := fun id => (b.held id).map fun held =>
      if id = a.connection then b.catalog.hold now [a.key] held else held }

/-- Attaches a core: no link need hold its key any longer. -/
def attach (ns : Namespace) (key : DiscoveryKey) : Buffers :=
  { b with
    held := fun id => (b.held id).map fun held => (held.remove key).1
    catalog := (b.catalog.insert key ns).1 }

/-- Drops the keys whose time has come. -/
def expire : Buffers :=
  { b with
    early := (b.early.expire now).1
    held := fun id => (b.held id).map fun held => (held.expire now).1 }

/-- What an input does to announced keys; where it is about a core that is added, `attaches` tells
whether the core is attached by it. -/
def step (grace : Nat) (attaches : Bool) : Input → Buffers
  | .addPeer c => if (b.held c.id).isSome then b else b.link now grace c.id
  | .removePeer c => b.unlink c
  | .announce c key => if (b.held c).isSome then b.hold now ⟨c, key⟩ else b.queue now ⟨c, key⟩
  | .addCore ns key _ => if attaches then b.attach ns key else b
  | .timer .expiry => b.expire now
  | _ => b

end

end Buffers

namespace Engine

/-- What an engine keeps of announcements. -/
def buffers (e : Engine) : Buffers where
  early := e.early
  held id := (e.links.get? id).map (·.held)
  catalog := e.catalog

/-- Of the waiting sets, a change of the links touches only those that the links hold. -/
theorem buffers_updateLinks (e : Engine) (f : PeerLink → PeerLink × List ReplicationCall) :
    (e.updateLinks f).1.buffers
      = { e.buffers with held := fun id => (e.links.get? id).map fun l => (f l).1.held } := by
  rw [updateLinks_engine]
  unfold buffers
  simp only [SortedMap.get?_mapValues, Option.map_map]
  rfl

/-- An evaluation leaves announced keys alone. -/
theorem buffers_evaluate (e : Engine) (roles : Roles) (now : Nat) :
    (e.evaluate roles now).1.buffers = e.buffers := by
  rw [evaluate_engine]
  unfold buffers refreshed
  simp only [SortedMap.get?_mapValues, Option.map_map]
  congr 1
  funext id
  refine congrArg (Option.map · _) (funext fun l => ?_)
  exact PeerLink.held_setCapabilities e.plan e.catalog l _

/-- There is a set of held keys for a connection if and only if the connection is linked. -/
theorem isSome_held (e : Engine) (c : ConnectionId) :
    (e.buffers.held c).isSome = e.links.contains c :=
  Option.isSome_map

section
variable (e : Engine) (now : Nat)

/-- Whoever comes to wait leaves the waiting sets alone. -/
theorem buffers_wait (w : Waiter) : (e.wait w).1.buffers = e.buffers := by
  unfold wait
  dsimp only
  rw [readStates_engine]
  split <;> rfl

theorem buffers_report (ns : Namespace) : (e.report ns).1.buffers = e.buffers := by
  unfold report
  split <;> rfl

/-- A change of a core leaves the waiting sets alone, whether it was tracked or not. -/
theorem buffers_updateNamed (ns : Namespace) (key : DiscoveryKey) (f : CoreTracker → CoreTracker) :
    (e.updateNamed now ns key f).buffers = e.buffers := by
  unfold updateNamed
  dsimp only
  split <;> rfl

theorem buffers_coreEvent (key : DiscoveryKey) (event : CoreEvent) :
    (e.coreEvent now key event).buffers = e.buffers := by
  unfold coreEvent
  dsimp only
  split
  · rfl
  · split <;> rfl

/-- The timer that forgets keys is a step of the waiting sets. -/
theorem buffers_expire :
    (e.expire now).buffers = e.buffers.step now e.settings.grace false (.timer .expiry) := by
  unfold expire buffers Buffers.step Buffers.expire
  simp only [SortedMap.get?_mapValues, Option.map_map]
  rfl

/-- When a connection goes, so do the keys that wait for it. -/
theorem buffers_removePeer (roles : Roles) (c : ConnectionId) :
    (e.removePeer roles now c).1.buffers
      = e.buffers.step now e.settings.grace false (.removePeer c) := by
  unfold removePeer
  dsimp only
  split
  · rw [buffers_evaluate]
    unfold Buffers.step Buffers.unlink buffers
    simp only [SortedMap.get?_erase, apply_ite (Option.map _), Option.map_none]
  · next hlinked =>
    -- there is nothing to drop but what waits
    have hheld : e.buffers.held = fun id => if id = c then none else e.buffers.held id := by
      funext id
      split
      · next hid =>
        have hnone := SortedMap.contains_eq_false.1 (Bool.eq_false_iff.2 hlinked)
        rw [hid]
        show (e.links.get? c).map _ = none
        rw [hnone]
        rfl
      · rfl
    unfold Buffers.step Buffers.unlink
    dsimp only
    rw [← hheld]
    rfl

/-- When a core comes, the waiting sets take it for attached or for refused. -/
theorem buffers_addCore (ns : Namespace) (key : DiscoveryKey) (snapshot : CoreSnapshot) :
    ∃ attaches, (e.addCore now ns key snapshot).1.buffers
      = e.buffers.step now e.settings.grace attaches (.addCore ns key snapshot) := by
  rcases e.addCore_cases now ns key snapshot with
    ⟨result, heq⟩ | ⟨t, -, -, ⟨err, -, heq⟩ | ⟨core, -, heq⟩ | ⟨core, -, heq⟩⟩ <;> rw [heq]
  · exact ⟨false, rfl⟩
  · exact ⟨false, rfl⟩
  · exact ⟨false, rfl⟩
  · refine ⟨true, ?_⟩
    show ((e.withCore ns t key core).updateLinks fun l =>
      l.coreAdded e.plan (e.catalog.insert key ns).1 key).1.buffers = _
    rw [buffers_updateLinks]
    unfold Buffers.step Buffers.attach buffers
    simp only [Option.map_map, if_true]
    rfl

end

section
variable {e : Engine} (hkeyed : Keyed e.links) (now : Nat)
include hkeyed

/-- What is done to the link of one connection is done to the one under its name. -/
theorem buffers_updateLink (c : ConnectionId) {f : PeerLink → PeerLink × List ReplicationCall}
    {g : GraceSet DiscoveryKey → GraceSet DiscoveryKey} (hf : ∀ l, (f l).1.held = g l.held) :
    (e.updateLinks fun l => if l.connection.id = c then f l else (l, [])).1.buffers
      = { e.buffers with
          held := fun id =>
            (e.buffers.held id).map fun held => if id = c then g held else held } := by
  have hheld : (fun id => (e.links.get? id).map fun l =>
        (if l.connection.id = c then f l else (l, [])).1.held)
      = fun id => (e.buffers.held id).map fun held => if id = c then g held else held := by
    funext id
    cases hl : e.links.get? id with
    | none => simp [buffers, hl]
    | some l =>
      simp only [buffers, hl, Option.map_some, hkeyed id l hl]
      split
      · rw [hf]
      · rfl
  rw [buffers_updateLinks, hheld]

/-- An announcement is a step of the waiting sets. -/
theorem buffers_announce (c : ConnectionId) (key : DiscoveryKey) :
    (e.announce now c key).1.buffers
      = e.buffers.step now e.settings.grace false (.announce c key) := by
  unfold announce
  simp only [Buffers.step, isSome_held]
  split
  · exact buffers_updateLink hkeyed c fun l => l.held_announce e.plan e.catalog key now
  · rfl

/-- A new link is handed the keys that waited for its connection. -/
theorem buffers_handOver (c : Connection) :
    let (early, announced) := e.early.takeMatching (·.connection = c.id)
    (e.handOver now (.addPeer c)).1.buffers
      = { e.buffers with
          early
          held := fun id => (e.buffers.held id).map fun held =>
            if id = c.id then e.catalog.hold now (announced.map (·.key)) held else held } :=
  buffers_updateLink (e := { e with early := (e.early.takeMatching (·.connection = c.id)).1 })
    hkeyed c.id fun l => l.held_announced e.plan e.catalog now _

/-- A new connection takes one step of the waiting sets, and its evaluation none. -/
theorem buffers_addPeer (roles : Roles) (c : Connection) :
    (e.addPeer roles now c).1.buffers
      = e.buffers.step now e.settings.grace false (.addPeer c) := by
  unfold addPeer
  simp only [Buffers.step, isSome_held]
  split
  · rfl
  · -- the connection is linked, then evaluated, and then its keys are handed over
    let e₁ := { e with links := e.links.insert c.id (.ofConnection c e.settings.grace) }
    have hkeyed₁ : Keyed e₁.links := by
      intro id l hl
      rw [SortedMap.get?_insert] at hl
      split at hl
      · next hid => rw [hid, ← Option.some.inj hl]; rfl
      · exact hkeyed id l hl
    have hkeyed₂ : Keyed (e₁.evaluate roles now).1.links :=
      (linkSteps_evaluate hkeyed₁ roles now).keyed hkeyed₁ fun h => h.connection
    have hbuffers : (e₁.evaluate roles now).1.buffers = e₁.buffers := buffers_evaluate _ _ _
    have hearly : (e₁.evaluate roles now).1.early = e.early := congrArg Buffers.early hbuffers
    have hcatalog : (e₁.evaluate roles now).1.catalog = e.catalog :=
      congrArg Buffers.catalog hbuffers
    have hheld (keys : List DiscoveryKey) :
        (fun id => (e₁.buffers.held id).map fun held =>
          if id = c.id then e.catalog.hold now keys held else held)
        = fun id => if id = c.id
          then some (e.catalog.hold now keys { grace := e.settings.grace })
          else e.buffers.held id := by
      funext id
      simp only [e₁, buffers, SortedMap.get?_insert]
      by_cases hid : id = c.id <;> simp [hid, PeerLink.ofConnection, Function.comp_def]
    refine (buffers_handOver hkeyed₂ now c).trans ?_
    simp only [hbuffers, hearly, hcatalog, hheld]
    rfl

/-- What an input does to announced keys. -/
theorem buffers_handle (roles : Roles) (input : Input) :
    ∃ attaches, (e.handle roles now input).1.buffers
      = e.buffers.step now e.settings.grace attaches input := by
  cases input
  case addCore ns key snapshot => exact e.buffers_addCore now ns key snapshot
  all_goals refine ⟨false, ?_⟩
  case wait w => exact e.buffers_wait w
  case abandon => rfl
  case addPeer c => exact buffers_addPeer hkeyed now roles c
  case removePeer c => exact e.buffers_removePeer now roles c
  case announce c key => exact buffers_announce hkeyed now c key
  case preHaves p m => exact e.buffers_updateNamed now m.ns m.key _
  case wants ns key p ranges => exact e.buffers_updateNamed now ns key _
  case report ns => exact e.buffers_report ns
  case coreEvent key event => exact e.buffers_coreEvent now key event
  case timer t =>
    cases t
    case expiry => exact e.buffers_expire now
    all_goals
      simp only [handle, fire]
      split
      · exact buffers_evaluate _ roles now
      · rfl
  all_goals exact buffers_evaluate _ roles now

end

end Engine

/-! ## Deadlines in the buffers -/

namespace Buffers

variable (b : Buffers) (now : Nat)

/-- Until when a key waits for its connection, if it does. -/
def queuedUntil? (a : Announcement) : Option Nat := b.early.until? a

/-- Until when a key is held by the link of its connection, if it is. -/
def heldUntil? (a : Announcement) : Option Nat := (b.held a.connection).bind (·.until? a.key)

/-- Linking a connection takes the keys that waited for it from the queue. -/
theorem queuedUntil_link (grace : Nat) (c : ConnectionId) (a : Announcement) :
    (b.link now grace c).queuedUntil? a
      = if a.connection = c then none else b.queuedUntil? a := by
  refine (GraceSet.until_takeMatching _ _ _).trans ?_
  simp only [decide_eq_true_eq]
  rfl

/-- A new link holds the keys that were waiting for it and whose cores are not attached. -/
theorem heldUntil_link (grace : Nat) (c : ConnectionId) (a : Announcement) :
    (b.link now grace c).heldUntil? a = if a.connection = c then
        if (b.queuedUntil? a).isSome = true ∧ b.catalog.contains a.key = false
        then some (now + grace) else none
      else b.heldUntil? a := by
  unfold heldUntil? link
  dsimp only
  split
  · next hlinked =>
    have hannounced : a.key ∈ (b.early.takeMatching (·.connection = c)).2.map (·.key) ↔
        (b.queuedUntil? a).isSome = true := by
      rw [List.mem_map]
      constructor
      · rintro ⟨a', ha', hkey⟩
        obtain ⟨hconnection, hkept⟩ := GraceSet.mem_takeMatching.1 ha'
        obtain rfl : a' = a := by
          cases a; cases a'
          simp only [decide_eq_true_eq] at hconnection
          simp_all
        exact hkept
      · exact fun hkept => ⟨a, GraceSet.mem_takeMatching.2 ⟨decide_eq_true hlinked, hkept⟩, rfl⟩
    rw [Option.bind_some, Catalog.until_hold]
    simp only [hannounced]
    rfl
  · rfl

/-- Nothing is left in the queue for a connection that goes. -/
theorem queuedUntil_unlink (c : ConnectionId) (a : Announcement) :
    (b.unlink c).queuedUntil? a = if a.connection = c then none else b.queuedUntil? a :=
  b.queuedUntil_link 0 0 c a

/-- Nothing is held for a connection that has gone. -/
theorem heldUntil_unlink (c : ConnectionId) (a : Announcement) :
    (b.unlink c).heldUntil? a = if a.connection = c then none else b.heldUntil? a := by
  unfold heldUntil? unlink
  dsimp only
  split <;> rfl

/-- To queue an announcement gives it its time, unless it has one already. -/
theorem queuedUntil_queue (a a' : Announcement) :
    (b.queue now a).queuedUntil? a' = if a' = a
      then some ((b.queuedUntil? a).getD (now + b.early.grace)) else b.queuedUntil? a' :=
  GraceSet.until_insert _ _ _ _

/-- To hold an announcement gives it its time, unless it has one already or the core is in the
catalog. -/
theorem heldUntil_hold (a a' : Announcement) :
    (b.hold now a).heldUntil? a' = if a' = a ∧ b.catalog.contains a.key = false
      then (b.held a.connection).map fun held => (held.until? a.key).getD (now + held.grace)
      else b.heldUntil? a' := by
  unfold heldUntil? hold
  rw [Option.bind_map]
  by_cases ha : a' = a
  · subst ha
    cases hheld : b.held a'.connection with
    | none => simp
    | some held =>
      simp only [Option.bind_some, Function.comp, if_true, Option.map_some, true_and]
      rw [Catalog.until_hold]
      simp
  · rw [if_neg fun h => ha h.1]
    cases hheld : b.held a'.connection with
    | none => rfl
    | some held =>
      simp only [Option.bind_some, Function.comp]
      split
      · next hconnection =>
        have hkey : a'.key ≠ a.key := fun hkey => ha (by cases a; cases a'; simp_all)
        rw [Catalog.until_hold, if_neg fun h => hkey (List.mem_singleton.1 h.1)]
      · rfl

/-- Nothing is held of a core that is attached. -/
theorem heldUntil_attach (ns : Namespace) (key : DiscoveryKey) (a : Announcement) :
    (b.attach ns key).heldUntil? a = if a.key = key then none else b.heldUntil? a := by
  unfold heldUntil? attach
  rw [Option.bind_map]
  cases b.held a.connection with
  | none => simp
  | some held => exact GraceSet.until_remove held key a.key

/-- What is queued stays queued until its time has come. -/
theorem queuedUntil_expire (a : Announcement) :
    (b.expire now).queuedUntil? a = (b.queuedUntil? a).filter fun d => !decide (d ≤ now) :=
  GraceSet.until_expire _ _ _

/-- What is held stays held until its time has come. -/
theorem heldUntil_expire (a : Announcement) :
    (b.expire now).heldUntil? a = (b.heldUntil? a).filter fun d => !decide (d ≤ now) := by
  unfold heldUntil? expire
  rw [Option.bind_map]
  cases b.held a.connection with
  | none => rfl
  | some held => exact GraceSet.until_expire held now a.key

/-! ## Consistency -/

/-- Keys wait for connections that are not linked, and are held for cores that are not attached. -/
structure Consistent (b : Buffers) : Prop where
  queued : ∀ {a d}, b.queuedUntil? a = some d → b.held a.connection = none
  held : ∀ {a d}, b.heldUntil? a = some d → b.catalog.contains a.key = false

variable {b} {grace : Nat} {attaches : Bool}

/-- Every step keeps the waiting sets consistent. -/
theorem Consistent.step (h : b.Consistent) (input : Input) :
    (b.step now grace attaches input).Consistent := by
  have hunlinked {a : Announcement} {d : Nat} (hd : b.queuedUntil? a = some d)
      (f : GraceSet DiscoveryKey → GraceSet DiscoveryKey) : (b.held a.connection).map f = none := by
    rw [h.queued hd]
    rfl
  cases input
  case addPeer c =>
    simp only [Buffers.step]
    split
    · exact h
    · refine ⟨fun {a d} hd => ?_, fun {a d} hd => ?_⟩
      · rw [queuedUntil_link] at hd
        split at hd
        · contradiction
        · next hother => exact (if_neg hother).trans (h.queued hd)
      · rw [heldUntil_link] at hd
        split at hd
        · split at hd
          · next hheld => exact hheld.2
          · contradiction
        · exact h.held hd
  case removePeer c =>
    refine ⟨fun {a d} hd => ?_, fun {a d} hd => ?_⟩
    · rw [Buffers.step, queuedUntil_unlink] at hd
      split at hd
      · contradiction
      · next hother => exact (if_neg hother).trans (h.queued hd)
    · rw [Buffers.step, heldUntil_unlink] at hd
      split at hd
      · contradiction
      · exact h.held hd
  case announce c key =>
    simp only [Buffers.step]
    split
    · refine ⟨fun hd => hunlinked hd _, fun {a d} hd => ?_⟩
      rw [heldUntil_hold] at hd
      split at hd
      · next hnew => exact hnew.1 ▸ hnew.2
      · exact h.held hd
    · next hlinked =>
      refine ⟨fun {a d} hd => ?_, fun {a d} hd => h.held hd⟩
      rw [queuedUntil_queue] at hd
      split at hd
      · next hnew => rw [hnew]; exact Option.not_isSome_iff_eq_none.1 hlinked
      · exact h.queued hd
  case addCore ns key snapshot =>
    simp only [Buffers.step]
    split
    · refine ⟨fun hd => hunlinked hd _, fun {a d} hd => ?_⟩
      -- the links let go of the one key whose core is attached now
      rw [heldUntil_attach] at hd
      split at hd
      · contradiction
      · next hother => exact (Catalog.contains_insert_of_ne hother ns).trans (h.held hd)
    · exact h
  case timer t =>
    cases t
    case expiry =>
      refine ⟨fun {a d} hd => ?_, fun {a d} hd => ?_⟩
      · rw [Buffers.step, queuedUntil_expire] at hd
        exact hunlinked (Option.filter_eq_some_iff.1 hd).1 _
      · rw [Buffers.step, heldUntil_expire] at hd
        exact h.held (a := a) (Option.filter_eq_some_iff.1 hd).1
    all_goals exact h
  all_goals exact h

/-! ## Keys that are dropped -/

/-- A time is kept, or it has come. -/
theorem kept_or_due (d now : Nat) :
    (some d).filter (fun d => !decide (d ≤ now)) = some d ∨ d ≤ now := by
  by_cases hdue : d ≤ now
  · exact Or.inr hdue
  · exact Or.inl (by simp [hdue])

/-- A key waits on, unless its time has come, its connection is removed, or the connection is linked
and takes it over. -/
theorem queued_step {a : Announcement} {d : Nat}
    (hd : b.queuedUntil? a = some d) (input : Input) :
    let after := b.step now grace attaches input
    after.queuedUntil? a = some d ∨ input = .timer .expiry ∧ d ≤ now ∨
      input = .removePeer a.connection ∨
      ∃ c, input = .addPeer c ∧ c.id = a.connection ∧
        (after.heldUntil? a = some (now + grace) ∨ after.catalog.contains a.key = true) := by
  cases input
  case addPeer c =>
    simp only [Buffers.step]
    split
    · exact Or.inl hd
    · rw [queuedUntil_link, heldUntil_link]
      by_cases hlinked : a.connection = c.id
      · refine Or.inr (Or.inr (Or.inr ⟨c, rfl, hlinked.symm, ?_⟩))
        rw [if_pos hlinked, hd]
        cases hcontains : b.catalog.contains a.key with
        | true => exact Or.inr hcontains
        | false => exact Or.inl (if_pos ⟨rfl, rfl⟩)
      · exact Or.inl ((if_neg hlinked).trans hd)
  case removePeer c =>
    simp only [Buffers.step, queuedUntil_unlink]
    by_cases hremoved : a.connection = c
    · exact Or.inr (Or.inr (Or.inl (hremoved ▸ rfl)))
    · exact Or.inl ((if_neg hremoved).trans hd)
  case announce c key =>
    refine Or.inl ?_
    simp only [Buffers.step]
    split
    · exact hd
    · rw [queuedUntil_queue]
      split
      · next hagain => rw [← hagain, hd]; rfl
      · exact hd
  case addCore ns key snapshot =>
    refine Or.inl ?_
    simp only [Buffers.step]
    split <;> exact hd
  case timer t =>
    cases t
    case expiry =>
      simp only [Buffers.step, queuedUntil_expire, hd]
      exact (kept_or_due d now).imp_right fun hdue => Or.inl ⟨trivial, hdue⟩
    all_goals exact Or.inl hd
  all_goals exact Or.inl hd

/-- A key is held on, unless its time has come, its connection is removed, or its core is added. -/
theorem held_step {a : Announcement} {d : Nat} (hd : b.heldUntil? a = some d) (input : Input) :
    let after := b.step now grace attaches input
    after.heldUntil? a = some d ∨ input = .timer .expiry ∧ d ≤ now ∨
      input = .removePeer a.connection ∨
      ∃ ns snapshot, input = .addCore ns a.key snapshot ∧
        after.catalog.contains a.key = true := by
  obtain ⟨held, hheld, hkept⟩ := Option.bind_eq_some_iff.1 hd
  cases input
  case addPeer c =>
    refine Or.inl ?_
    simp only [Buffers.step]
    split
    · exact hd
    · next hnew =>
      rw [heldUntil_link, if_neg]
      · exact hd
      · intro hlinked
        rw [← hlinked, hheld] at hnew
        exact hnew rfl
  case removePeer c =>
    simp only [Buffers.step, heldUntil_unlink]
    by_cases hremoved : a.connection = c
    · exact Or.inr (Or.inr (Or.inl (hremoved ▸ rfl)))
    · exact Or.inl ((if_neg hremoved).trans hd)
  case announce c key =>
    refine Or.inl ?_
    simp only [Buffers.step]
    split
    · rw [heldUntil_hold]
      split
      · next hagain => rw [← hagain.1, hheld, Option.map_some, hkept]; rfl
      · exact hd
    · exact hd
  case addCore ns key snapshot =>
    simp only [Buffers.step]
    split
    · rw [heldUntil_attach]
      by_cases hadded : a.key = key
      · subst hadded
        exact Or.inr (Or.inr (Or.inr ⟨ns, snapshot, rfl, Catalog.contains_insert_self _ _ _⟩))
      · exact Or.inl ((if_neg hadded).trans hd)
    · exact Or.inl hd
  case timer t =>
    cases t
    case expiry =>
      simp only [Buffers.step, heldUntil_expire, hd]
      exact (kept_or_due d now).imp_right fun hdue => Or.inl ⟨trivial, hdue⟩
    all_goals exact Or.inl hd
  all_goals exact Or.inl hd

end Buffers

/-! ## All states -/

namespace Run

variable {s : Settings}

/-- What an input does to announced keys, in any state that is reached. -/
theorem buffers_handle (r : Run s) (roles : Roles) (now : Nat) (input : Input) :
    ∃ attaches, (r.engine.handle roles now input).1.buffers
      = r.engine.buffers.step now s.grace attaches input := by
  obtain ⟨hsettings, hline⟩ := r.settings_engine_and_inLine
  have hstep := Engine.buffers_handle hline.keyed now roles input
  rw [hsettings] at hstep
  exact hstep

/-- The waiting sets are consistent after every run. -/
theorem consistent (r : Run s) : r.engine.buffers.Consistent := by
  induction r with
  | begin roles now =>
    rw [engine, Engine.begin, Engine.buffers_evaluate]
    exact ⟨fun hd => by contradiction, fun hd => by contradiction⟩
  | handle before roles now input ih =>
    obtain ⟨attaches, hstep⟩ := before.buffers_handle roles now input
    rw [engine, hstep]
    exact ih.step now input

/-- **Announced keys are kept consistently.** In every state, keys wait only for connections that
are not linked, and links hold only keys whose cores are not attached. When the expiry timer has
run, every deadline is still to come. And a key is dropped only as it should be: because its time
has come or its connection is removed; if it waits, also because its connection is linked, and then
the new link holds it for a grace period, or its core is attached already; if it is held, also
because its core is added. -/
theorem announced_keys_are_kept (r : Run s) :
    (∀ a, (r.engine.buffers.queuedUntil? a).isSome = true →
      r.engine.links.contains a.connection = false) ∧
    (∀ a, (r.engine.buffers.heldUntil? a).isSome = true →
      r.engine.catalog.contains a.key = false) ∧
    ∀ roles now input,
      let after := (r.engine.handle roles now input).1
      (input = .timer .expiry → ∀ a d,
        after.buffers.queuedUntil? a = some d ∨ after.buffers.heldUntil? a = some d → now < d) ∧
      (∀ a d, r.engine.buffers.queuedUntil? a = some d →
        after.buffers.queuedUntil? a = some d ∨ input = .timer .expiry ∧ d ≤ now ∨
        input = .removePeer a.connection ∨
        ∃ c, input = .addPeer c ∧ c.id = a.connection ∧
          (after.buffers.heldUntil? a = some (now + s.grace) ∨
            after.catalog.contains a.key = true)) ∧
      (∀ a d, r.engine.buffers.heldUntil? a = some d →
        after.buffers.heldUntil? a = some d ∨ input = .timer .expiry ∧ d ≤ now ∨
        input = .removePeer a.connection ∨
        ∃ ns snapshot, input = .addCore ns a.key snapshot ∧
          after.catalog.contains a.key = true) := by
  have hconsistent := r.consistent
  refine ⟨fun a ha => ?_, fun a ha => ?_, fun roles now input => ?_⟩
  · obtain ⟨d, hd⟩ := Option.isSome_iff_exists.1 ha
    rw [← Engine.isSome_held, hconsistent.queued hd]
    rfl
  · obtain ⟨d, hd⟩ := Option.isSome_iff_exists.1 ha
    exact hconsistent.held hd
  · intro after
    obtain ⟨attaches, hstep⟩ := r.buffers_handle roles now input
    have hstep : after.buffers = r.engine.buffers.step now s.grace attaches input := hstep
    have hcatalog : after.catalog = (r.engine.buffers.step now s.grace attaches input).catalog :=
      congrArg Buffers.catalog hstep
    rw [hstep, hcatalog]
    refine ⟨?_, fun a d hd => Buffers.queued_step now hd input,
      fun a d hd => Buffers.held_step now hd input⟩
    rintro rfl a d (hd | hd)
    · rw [Buffers.step, Buffers.queuedUntil_expire] at hd
      simpa using (Option.filter_eq_some_iff.1 hd).2
    · rw [Buffers.step, Buffers.heldUntil_expire] at hd
      simpa using (Option.filter_eq_some_iff.1 hd).2

end Run
end LogSync
