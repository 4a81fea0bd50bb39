import LogSync.PeerLink
import LogSync.Progress
import LogSync.Roles
import LogSync.Settings
import LogSync.Timer.Throttle

/-!
# The sync engine

The engine owns all that is known of cores and peers. Inputs reach it one at a time, and each is
handled to its end before the next: requests of the application, news of peers and cores, and
timers whose time has come. What it has to say to the outside is returned as a list of effects, so
an engine is a value and a run is a fold over its inputs.

An *evaluation* is the heart of it: it looks the roles up anew, gives every peer a record in each
core that it may sync, decides which namespaces are synced, brings every link there, and publishes
the outcome. Requests are evaluated at once; changes of cores ask the throttle for an evaluation.
-/

namespace LogSync

/-- A core that a peer has announced over a connection. -/
structure Announcement where
  connection : ConnectionId
  key : DiscoveryKey
deriving DecidableEq, Inhabited

namespace Announcement

/-- By connection first, then by key. -/
instance : Ord Announcement := ⟨compareLex (compareOn connection) (compareOn key)⟩

instance : Std.TransOrd Announcement :=
  inferInstanceAs (Std.TransCmp (compareLex (compareOn connection) (compareOn key)))

instance : Std.LawfulEqOrd Announcement where
  compare_self {a} := by
    show (compare a.connection a.connection).then (compare a.key a.key) = .eq
    simp [Std.ReflOrd.compare_self]
  eq_of_compare {a b} h := by
    obtain ⟨h1, h2⟩ := Ordering.then_eq_eq.1 h
    cases a; cases b
    exact congr (congrArg mk (Std.LawfulEqOrd.eq_of_compare h1)) (Std.LawfulEqOrd.eq_of_compare h2)

end Announcement

/-- A message in which a peer says what it has of a core, ahead of a connection. -/
structure PreHaveMessage where
  key : DiscoveryKey
  ns : Namespace
  /-- The index that the words begin at. -/
  start : Nat
  words : List Word
deriving DecidableEq, Inhabited

/-- A caller that waits for a goal. -/
structure Waiter where
  id : Nat
  goal : SyncGoal
deriving DecidableEq, Repr

/-- The timers of an engine. -/
inductive Timer where
  | throttle | autostop | expiry
deriving DecidableEq, Repr

/-- What an engine handles. -/
inductive Input where
  /-- Sync data too; `autostop` is a new timeout, if there is one. -/
  | start (autostop : Option (Option Nat))
  /-- Sync data no longer. -/
  | stop
  | setAutostop (after : Option Nat)
  /-- Stop everything once it is synced. -/
  | requestFullStop
  | rescindFullStop
  /-- Somebody waits for a goal. -/
  | wait (w : Waiter)
  /-- A caller waits no longer. -/
  | abandon (waiter : Nat)
  | addPeer (connection : Connection)
  | removePeer (connection : ConnectionId)
  /-- A peer has announced a core. -/
  | announce (connection : ConnectionId) (key : DiscoveryKey)
  /-- A core is there, with its present state. -/
  | addCore (ns : Namespace) (key : DiscoveryKey) (snapshot : CoreSnapshot)
  /-- A peer says what it has of a core. -/
  | preHaves (peer : PeerId) (message : PreHaveMessage)
  /-- A peer says what it wants of a core. -/
  | wants (ns : Namespace) (key : DiscoveryKey) (peer : PeerId) (ranges : List BlockRange)
  /-- Somebody asks for the counts of a namespace. -/
  | report (ns : Namespace)
  /-- A core has changed. -/
  | coreEvent (key : DiscoveryKey) (event : CoreEvent)
  /-- The time of a timer has come. -/
  | timer (t : Timer)

/-- What an engine says to the outside. -/
inductive Effect where
  /-- A connection is told what to replicate. -/
  | call (connection : Connection) (call : ReplicationCall)
  /-- A snapshot is published. -/
  | publish (snapshot : SyncSnapshot)
  /-- A waiter is told that its goal is reached. -/
  | answer (waiter : Waiter)
  /-- From now on the events of a core are wanted. -/
  | listen (key : DiscoveryKey)
  /-- What became of a request to add a core. -/
  | added (result : Except SyncError Unit)
  /-- The counts of a namespace, if it is tracked. -/
  | reported (state : Option NamespaceState)

/-- The state of an engine. -/
structure Engine where
  settings : Settings
  namespaces : SortedMap Namespace NamespaceTracker
  catalog : Catalog := {}
  links : SortedMap ConnectionId PeerLink := ∅
  /-- Announcements over connections that are not here yet. -/
  early : GraceSet Announcement
  switch : SyncSwitch := {}
  autostop : Autostop
  throttle : Throttle
  waiters : List Waiter := []
  /-- The snapshot that was published last. -/
  latest : SyncSnapshot := {}
  /-- The number of snapshots that were published. -/
  updates : Nat := 0

namespace Engine

/-- An engine that has handled nothing yet. -/
def ofSettings (s : Settings) : Engine where
  settings := s
  namespaces := .ofList (s.plan.tracked.map fun ns => (ns, .ofNamespace ns))
  early := { grace := s.grace }
  autostop := Autostop.setAfter {} s.autostop
  throttle := { interval := s.throttle }

/-- The plan of namespaces. -/
def plan (e : Engine) : NamespacePlan := e.settings.plan

/-- The peers that are linked, with their capabilities. -/
def partners (e : Engine) : Partners := e.links.values.map fun l => (l.peer, l.capabilities)

/-- Asks for an evaluation. -/
def notify (now : Nat) (e : Engine) : Engine := { e with throttle := e.throttle.notify now }

/-- Changes every link, in order, and passes the calls on. -/
def updateLinks (e : Engine) (f : PeerLink → PeerLink × List ReplicationCall) :
    Engine × List Effect :=
  let updated := e.links.mapValues fun _ l => f l
  ({ e with links := updated.mapValues fun _ u => u.1 },
    updated.values.flatMap fun (l, calls) => calls.map (.call l.connection))

/-! ## Evaluation -/

/-- Looks the capabilities of every peer up. -/
def refreshCapabilities (roles : Roles) (e : Engine) : Engine × List Effect :=
  e.updateLinks fun l => l.setCapabilities e.plan e.catalog (roles.resolve e.plan l.peer)

/-- Gives every peer a record in each core of the namespaces that it may sync. In the others it
gets none, so that nothing is owed to a blocked peer. -/
def registerPeers (e : Engine) : Engine :=
  { e with
    namespaces := e.namespaces.mapValues fun ns t =>
      e.links.values.foldl (fun t l => if l.capabilities.allows ns then t.addPeer l.peer else t) t }

/-- The counts of every namespace, and the engine that keeps them. -/
def readStates (e : Engine) : NamespaceStates × Engine :=
  let read := e.namespaces.mapValues fun _ t => t.state
  (read.mapValues fun _ r => r.1, { e with namespaces := read.mapValues fun _ r => r.2 })

/-- Whether a goal is reached, by the given counts. -/
def isSyncedFor (e : Engine) (states : NamespaceStates) (goal : SyncGoal) : Bool :=
  isSynced states (e.plan.forGoal goal) e.partners

/-- The number of local data blocks. -/
def dataOwned (states : NamespaceStates) : Nat :=
  (states.get? .data).elim 0 (·.localPeer.owned)

/-- Decides which namespaces are synced, and runs the autostop timer accordingly. -/
def decide (now : Nat) (states : NamespaceStates) (e : Engine) : Engine × EnabledState :=
  let (switch, verdict) := e.switch.evaluate (e.isSyncedFor states e.switch.goal)
  let autostop := (e.autostop.observe (dataOwned states)).1.apply verdict.autostop now
  ({ e with switch, autostop }, verdict.state)

/-- Publishes the outcome. -/
def publish (states : NamespaceStates) (e : Engine) : Engine × List Effect :=
  let snapshot := .of e.switch.current (devicesProgress states e.plan e.partners)
  ({ e with latest := snapshot, updates := e.updates + 1 }, [.publish snapshot])

/-- Answers the waiters whose goal is reached. -/
def answerWaiters (states : NamespaceStates) (e : Engine) : Engine × List Effect :=
  let (reached, waiting) := e.waiters.partition (e.isSyncedFor states ·.goal)
  ({ e with waiters := waiting }, reached.map .answer)

/-- One evaluation. -/
def evaluate (roles : Roles) (now : Nat) (e : Engine) : Engine × List Effect :=
  let (e, roleCalls) := e.refreshCapabilities roles
  let (states, e) := e.registerPeers.readStates
  let (e, enabled) := e.decide now states
  let (e, calls) := e.updateLinks (·.setEnabled e.plan e.catalog enabled)
  let (e, published) := e.publish states
  let (e, answers) := e.answerWaiters states
  (e, roleCalls ++ calls ++ published ++ answers)

/-! ## Waiters and reports -/

/-- Answers a waiter at once if its goal is reached, or lets it wait. -/
def wait (w : Waiter) (e : Engine) : Engine × List Effect :=
  let (states, e) := e.readStates
  if e.isSyncedFor states w.goal then (e, [.answer w])
  else ({ e with waiters := e.waiters ++ [w] }, [])

/-- Forgets a waiter. -/
def abandon (waiter : Nat) (e : Engine) : Engine :=
  { e with waiters := e.waiters.filter (·.id != waiter) }

/-- Reports the counts of a namespace. -/
def report (ns : Namespace) (e : Engine) : Engine × List Effect :=
  match e.namespaces.get? ns with
  | none => (e, [.reported none])
  | some t =>
    let (state, t) := t.state
    ({ e with namespaces := e.namespaces.insert ns t }, [.reported (some state)])

/-! ## Peers -/

/-- Links a connection, and hands the cores over that were announced on it before. A second
connection of the same name is ignored. -/
def addPeer (roles : Roles) (now : Nat) (c : Connection) (e : Engine) :
    Engine × List Effect :=
  if e.links.contains c.id then (e, [])
  else
    let link := PeerLink.ofConnection c e.settings.grace
    let (e, effects) := { e with links := e.links.insert c.id link }.evaluate roles now
    let (early, announced) := e.early.takeMatching (·.connection = c.id)
    let e := { e with early }
    let (e, calls) := e.updateLinks fun l =>
      if l.connection.id = c.id then
        announced.foldl
          (fun (l, calls) a =>
            let (l, more) := l.announce e.plan e.catalog a.key now
            (l, calls ++ more))
          (l, [])
      else (l, [])
    (e, effects ++ calls)

/-- Drops the link of a connection, and what was announced on it. -/
def removePeer (roles : Roles) (now : Nat) (c : ConnectionId) (e : Engine) :
    Engine × List Effect :=
  let e := { e with early := (e.early.takeMatching (·.connection = c)).1 }
  if e.links.contains c then { e with links := e.links.erase c }.evaluate roles now else (e, [])

/-- Takes an announcement in: the link of the connection does, or it is kept until there is one. -/
def announce (now : Nat) (c : ConnectionId) (key : DiscoveryKey) (e : Engine) :
    Engine × List Effect :=
  if e.links.contains c then
    e.updateLinks fun l =>
      if l.connection.id = c then l.announce e.plan e.catalog key now else (l, [])
  else ({ e with early := (e.early.insert ⟨c, key⟩ now).1 }, [])

/-! ## Cores -/

/-- Attaches a core, and starts its replication where it is enabled. -/
def addCore (now : Nat) (ns : Namespace) (key : DiscoveryKey) (snapshot : CoreSnapshot)
    (e : Engine) : Engine × List Effect :=
  match e.namespaces.get? ns with
  | none => (e, [.added (.error (.untrackedNamespace ns))])
  | some t =>
    if e.catalog.contains key then (e, [.added (.ok ())])
    else
      let known (core : CoreTracker) : Engine :=
        { e with namespaces := e.namespaces.insert ns (t.setCore key core) }
      match (t.core key).attach snapshot with
      | .error err => (known (t.core key), [.added (.error err)])
      | .ok (core, false) => (known core, [.added (.ok ())])
      | .ok (core, true) =>
        let allowed := e.links.values.filter (·.capabilities.allows ns)
        let e := known (allowed.foldl (fun core l => (core.addPeer l.peer).1) core)
        let e := { e with catalog := (e.catalog.insert key ns).1 }
        let (e, calls) := e.updateLinks (·.coreAdded e.plan e.catalog key)
        (e.notify now, .listen key :: calls ++ [.added (.ok ())])

/-- Takes an event of an attached core in. -/
def coreEvent (now : Nat) (key : DiscoveryKey) (event : CoreEvent) (e : Engine) : Engine :=
  let tracked := do
    let ns ← e.catalog.namespaceOf? key
    let t ← e.namespaces.get? ns
    let core ← t.cores.get? key
    return (ns, t, core)
  match tracked with
  | none => e
  | some (ns, t, core) =>
    let (core, changed) := core.onEvent event
    if changed then
      { e with namespaces := e.namespaces.insert ns (t.setCore key core) }.notify now
    else e

/-- The namespace that a core is tracked in, attached or not. -/
def trackedIn? (e : Engine) (key : DiscoveryKey) : Option Namespace :=
  e.catalog.namespaceOf? key <|>
    (e.namespaces.toList.find? (·.2.contains key)).map (·.1)

/-- Changes the core that a peer's message is about. A core that is tracked stays in its namespace;
only an unknown one gets into the namespace that the message names. -/
def updateNamed (now : Nat) (ns : Namespace) (key : DiscoveryKey)
    (f : CoreTracker → CoreTracker) (e : Engine) : Engine :=
  let ns := (e.trackedIn? key).getD ns
  match e.namespaces.get? ns with
  | none => e
  | some t =>
    { e with namespaces := e.namespaces.insert ns (t.setCore key (f (t.core key))) }.notify now

/-! ## Timers -/

/-- When a timer's time comes. -/
def deadline? (e : Engine) : Timer → Option Nat
  | .throttle => e.throttle.deadline
  | .autostop => e.autostop.deadline
  | .expiry => (e.links.values.filterMap (·.held.nextDeadline) ++ e.early.nextDeadline.toList).min?

/-- When the next timer's time comes. -/
def nextDeadline? (e : Engine) : Option Nat :=
  ([Timer.throttle, .autostop, .expiry].filterMap e.deadline?).min?

/-- Drops every announced key whose time has come. -/
def expire (now : Nat) (e : Engine) : Engine :=
  { e with
    early := (e.early.expire now).1
    links := e.links.mapValues fun _ l => (l.expire now).1 }

/-- Runs a timer, if its time has come. -/
def fire (roles : Roles) (now : Nat) (e : Engine) : Timer → Engine × List Effect
  | .throttle =>
    let (throttle, fired) := e.throttle.fire now
    if fired then { e with throttle }.evaluate roles now else (e, [])
  | .autostop =>
    let (autostop, fired) := e.autostop.fire now
    if fired then { e with autostop, switch := e.switch.stop }.evaluate roles now else (e, [])
  | .expiry => (e.expire now, [])

/-! ## All inputs -/

/-- Handles one input at a time, under the roles of that moment. -/
def handle (roles : Roles) (now : Nat) (e : Engine) : Input → Engine × List Effect
  | .start autostop =>
    { e with
      switch := e.switch.start
      autostop := autostop.elim e.autostop e.autostop.setAfter }.evaluate roles now
  | .stop => { e with switch := e.switch.stop }.evaluate roles now
  | .setAutostop after => { e with autostop := e.autostop.setAfter after }.evaluate roles now
  | .requestFullStop => { e with switch := e.switch.requestFullStop }.evaluate roles now
  | .rescindFullStop => { e with switch := e.switch.rescindFullStop }.evaluate roles now
  | .wait w => e.wait w
  | .abandon waiter => (e.abandon waiter, [])
  | .addPeer c => e.addPeer roles now c
  | .removePeer c => e.removePeer roles now c
  | .announce c key => e.announce now c key
  | .addCore ns key snapshot => e.addCore now ns key snapshot
  | .preHaves p m =>
    (e.updateNamed now m.ns m.key (·.setPreHaves p (.ofWords m.start m.words)), [])
  | .wants ns key p ranges => (e.updateNamed now ns key (·.addWants p ranges), [])
  | .report ns => e.report ns
  | .coreEvent key event => (e.coreEvent now key event, [])
  | .timer t => e.fire roles now t

/-- A new engine after its first evaluation. -/
def begin (roles : Roles) (now : Nat) (s : Settings) : Engine × List Effect :=
  (ofSettings s).evaluate roles now

end Engine

end LogSync
