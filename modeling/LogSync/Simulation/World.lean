import LogSync.Engine
import LogSync.Simulation.MemoryCore

/-!
# A simulated world around an engine

An engine, the cores and connections that it deals with, the roles of the peers, and a clock that
moves only when somebody sleeps. After every action the engine runs until nothing is left to do at
that instant; during a sleep each timer runs at its own time.

The application holds handles to the engine. When they are dropped and nobody waits any more, the
engine ends; it also ends on request.
-/

namespace LogSync

/-- The outside end of a connection: what it was told to replicate. -/
structure Wire where
  connection : Connection
  replicating : SortedSet DiscoveryKey := ∅
  /-- The calls since the last report, in order. -/
  calls : List ReplicationCall := []

/-- A core in memory, and whether the engine gets its events. -/
structure LiveCore where
  core : MemoryCore
  listening : Bool := false

/-- How a wait ended. -/
inductive WaitEnd where
  | reached | closed | cancelled
deriving DecidableEq, Repr

/-- The state of the world. -/
structure World where
  clock : Nat := 0
  roles : RoleTable
  engine : Engine
  /-- Whether the engine has not ended. -/
  running : Bool := true
  /-- Whether the application still holds its handles. -/
  held : Bool := true
  cores : SortedMap DiscoveryKey LiveCore := ∅
  /-- The connections in the order in which they were made. -/
  wires : List Wire := []
  /-- The callers that wait. -/
  waiting : List Nat := []
  /-- The snapshots published since the last report, each with its time. -/
  published : List (Nat × SyncSnapshot) := []
  /-- The waits that have ended since the last report. -/
  ended : List (Nat × WaitEnd) := []

/-- What the application and the network ask of the engine through their handles. -/
inductive Request where
  | start
  | startWithAutostop (after : Option Nat)
  | stop
  | setAutostop (after : Option Nat)
  | requestFullStop
  | rescindFullStop
  | shutdown
  /-- Asks for the last snapshot. -/
  | state
  /-- Asks for the counts of a namespace. -/
  | namespaceState (ns : Namespace)
  | wait (id : Nat) (goal : SyncGoal)
  | addPeer (connection : ConnectionId) (peer : PeerId)
  | removePeer (connection : ConnectionId)
  | announce (connection : ConnectionId) (key : DiscoveryKey)
  /-- Adds a core, whose snapshot may claim another key than its own. -/
  | addCore (ns : Namespace) (key : DiscoveryKey) (claims : Option DiscoveryKey)
  | preHaves (peer : PeerId) (message : PreHaveMessage)
  | wants (ns : Namespace) (key : DiscoveryKey) (peer : PeerId) (ranges : List BlockRange)

/-- What can happen in the world. -/
inductive Action where
  | request (r : Request)
  | cancelWait (id : Nat)
  | sleep (millis : Nat)
  | setRole (peer : PeerId) (ns : Namespace) (capability : Capability)
  | blockPeer (peer : PeerId)
  /-- Makes a core, of which some ranges are stored locally. -/
  | newCore (key : DiscoveryKey) (length : Nat) (stored : List BlockRange)
  | changeCore (key : DiscoveryKey) (change : CoreChange)
  /-- Sends an event that no change of the core stands behind. -/
  | emit (key : DiscoveryKey) (event : CoreEvent)
  | snapshot (key : DiscoveryKey)
  /-- Asks how many receivers the events of a core have. -/
  | subscribers (key : DiscoveryKey)
  /-- Asks what the connections of a name replicate. -/
  | replicating (connection : ConnectionId)
  | dropHandles

/-- What an action comes back with. -/
inductive Reply where
  | unit
  | refused (e : SyncError)
  /-- The handles are dropped. -/
  | dropped
  | state (s : SyncSnapshot)
  | namespaceState (s : Option NamespaceState)
  | key (k : DiscoveryKey)
  | core (s : CoreSnapshot)
  | count (n : Nat)
  | replicating (sets : List (List DiscoveryKey))

/-- What is seen of one action. -/
structure Report where
  reply : Reply
  clock : Nat
  updates : Nat
  published : List (Nat × SyncSnapshot)
  calls : List (ConnectionId × ReplicationCall)
  ended : List (Nat × WaitEnd)

namespace World

/-! ## The engine's effects -/

/-- Carries a call out on the connection that it is meant for. -/
def deliver (w : World) (c : Connection) (call : ReplicationCall) : World :=
  { w with
    wires := w.wires.map fun wire =>
      if wire.connection.serial = c.serial then
        { wire with replicating := call.apply wire.replicating, calls := wire.calls ++ [call] }
      else wire }

/-- Notes the end of a wait. -/
def endWait (w : World) (id : Nat) (how : WaitEnd) : World :=
  { w with waiting := w.waiting.erase id, ended := w.ended ++ [(id, how)] }

/-- Carries one effect out. -/
def carryOut (w : World) : Effect → World
  | .call c call => w.deliver c call
  | .publish s => { w with published := w.published ++ [(w.clock, s)] }
  | .answer waiter => w.endWait waiter.id .reached
  | .listen key => { w with cores := w.cores.modify key ({ · with listening := true }) }
  | .added _ | .reported _ => w

/-- The reply that an effect gives, if it gives one. -/
def replyOf? : Effect → Option Reply
  | .added (.ok _) => some .unit
  | .added (.error e) => some (.refused e)
  | .reported s => some (.namespaceState s)
  | _ => none

/-- Has the engine handle an input, if it runs. -/
def feed (w : World) (input : Input) : World × Reply :=
  if w.running then
    let (engine, effects) := w.engine.handle w.roles.lookup w.clock input
    (effects.foldl carryOut { w with engine }, (effects.findSome? replyOf?).getD .unit)
  else (w, .refused .closed)

/-- Runs the timers whose time has come. A timer that has run is not due again at the same
instant, so one round is enough. -/
def settle (w : World) : World :=
  [Timer.throttle, .autostop, .expiry].foldl (fun w t => (w.feed (.timer t)).1) w

/-- Ends the engine: nobody is answered any more, and no core has a receiver. -/
def close (w : World) : World :=
  let w := w.waiting.foldl (·.endWait · .closed) w
  { w with running := false, cores := w.cores.mapValues fun _ c => { c with listening := false } }

/-- Ends the engine if nobody holds on to it. -/
def closeIfForsaken (w : World) : World :=
  if w.running && !w.held && w.waiting.isEmpty then w.close else w

/-! ## Requests -/

/-- What is refused before a request gets to the engine. -/
def refusal? (plan : NamespacePlan) : Request → Option SyncError
  | .startWithAutostop after | .setAutostop after =>
    match validateAutostop after with
    | .error e => some e
    | .ok _ => none
  | .addCore ns _ _ | .preHaves _ ⟨_, ns, _, _⟩ | .wants ns _ _ _ =>
    if plan.tracks ns then none else some (.untrackedNamespace ns)
  | _ => none

/-- Carries a request out through a handle. -/
def perform (w : World) (r : Request) : World × Reply :=
  match refusal? w.engine.plan r with
  | some e => (w, .refused e)
  | none =>
    match r with
    | .start => w.feed (.start none)
    | .startWithAutostop after => w.feed (.start (some after))
    | .stop => w.feed .stop
    | .setAutostop after => w.feed (.setAutostop after)
    | .requestFullStop => w.feed .requestFullStop
    | .rescindFullStop => w.feed .rescindFullStop
    | .shutdown => (if w.running then w.close else w, .unit)
    | .state => (w, .state w.engine.latest)
    | .namespaceState ns => w.feed (.report ns)
    | .wait id goal =>
      if w.running then
        let (w, _) := { w with waiting := w.waiting ++ [id] }.feed (.wait ⟨id, goal⟩)
        (w, .unit)
      else (w.endWait id .closed, .unit)
    | .addPeer id peer =>
      let connection : Connection := { id, peer, serial := w.wires.length }
      let wire : Wire := { connection }
      { w with wires := w.wires ++ [wire] }.feed (.addPeer connection)
    | .removePeer c => w.feed (.removePeer c)
    | .announce c key => w.feed (.announce c key)
    | .addCore ns key claims =>
      match w.cores.get? key with
      | none => (w, .unit)
      | some live =>
        w.feed (.addCore ns key { live.core.snapshot with key := claims.getD key })
    | .preHaves p m => w.feed (.preHaves p m)
    | .wants ns key p ranges => w.feed (.wants ns key p ranges)

/-! ## Time -/

/-- An effect takes no time. -/
@[simp]
theorem clock_carryOut (w : World) (e : Effect) : (w.carryOut e).clock = w.clock := by
  cases e <;> rfl

/-- An input takes no time. -/
@[simp]
theorem clock_feed (w : World) (input : Input) : (w.feed input).1.clock = w.clock := by
  have all (effects : List Effect) (w : World) : (effects.foldl carryOut w).clock = w.clock := by
    induction effects generalizing w with
    | nil => rfl
    | cons e effects ih => rw [List.foldl_cons, ih, clock_carryOut]
  unfold feed
  split
  · exact all _ _
  · rfl

/-- What is done until the world is at rest takes no time. -/
@[simp]
theorem clock_settle (w : World) : w.settle.clock = w.clock := by simp [settle]

@[simp]
theorem clock_closeIfForsaken (w : World) : w.closeIfForsaken.clock = w.clock := by
  have all (ids : List Nat) (w : World) :
      (ids.foldl (·.endWait · .closed) w).clock = w.clock := by
    induction ids generalizing w with
    | nil => rfl
    | cons id ids ih => rw [List.foldl_cons, ih]; rfl
  unfold closeIfForsaken
  split
  · exact all _ _
  · rfl

/-- Lets the clock run up to a time; every timer on the way runs at its own time. -/
def sleepUntil (w : World) (stop : Nat) : World :=
  match w.engine.nextDeadline? with
  | some deadline =>
    if _ahead : w.running ∧ w.clock < deadline ∧ deadline ≤ stop then
      sleepUntil { w with clock := deadline }.settle.closeIfForsaken stop
    else { w with clock := stop }
  | none => { w with clock := stop }
termination_by stop - w.clock
decreasing_by
  simp only [clock_closeIfForsaken, clock_settle]; omega

/-! ## Actions -/

/-- Sends an event of a core to the engine, if it listens. -/
def send (w : World) (key : DiscoveryKey) (event : CoreEvent) : World :=
  if (w.cores.get? key).any (·.listening) then (w.feed (.coreEvent key event)).1 else w

/-- Carries an action out, up to the timers. -/
def act (w : World) : Action → World × Reply
  | .request r => if w.held then w.perform r else (w, .dropped)
  | .cancelWait id =>
    if id ∈ w.waiting then ((w.feed (.abandon id)).1.endWait id .cancelled, .unit) else (w, .unit)
  | .sleep millis => (w.sleepUntil (w.clock + Duration.ofMillis millis), .unit)
  | .setRole p ns c => ({ w with roles := w.roles.set p ns c }, .unit)
  | .blockPeer p => ({ w with roles := w.roles.block p }, .unit)
  | .newCore key length stored =>
    ({ w with cores := w.cores.insert key { core := .ofRanges key length stored } }, .key key)
  | .changeCore key change =>
    match w.cores.get? key with
    | none => (w, .unit)
    | some live =>
      let (core, event) := live.core.apply change
      ({ w with cores := w.cores.insert key { live with core } }.send key event, .unit)
  | .emit key event => (w.send key event, .unit)
  | .snapshot key =>
    (w, (w.cores.get? key).elim .unit fun live => .core live.core.snapshot)
  | .subscribers key => (w, .count (((w.cores.get? key).any (·.listening)).toNat))
  | .replicating c =>
    (w, .replicating ((w.wires.filter (·.connection.id = c)).map (·.replicating.keys)))
  | .dropHandles => ({ w with held := false }, .unit)

/-- What was seen since the last report; the next one starts from here. -/
def takeReport (w : World) (reply : Reply) : World × Report :=
  ({ w with published := [], ended := [], wires := w.wires.map ({ · with calls := [] }) },
    { reply
      clock := w.clock
      updates := w.engine.updates
      published := w.published
      calls := w.wires.flatMap fun wire => wire.calls.map fun c => (wire.connection.id, c)
      ended := w.ended.mergeSort fun a b => a.1 ≤ b.1 })

/-- Carries an action out and lets the engine come to rest. -/
def step (w : World) (a : Action) : World × Report :=
  let (w, reply) := w.act a
  w.settle.closeIfForsaken.takeReport reply

/-- A world in which an engine has just begun. -/
def begin (settings : Settings) (roles : RoleTable) : Except SyncError World :=
  settings.validate.map fun settings =>
    let (engine, effects) := Engine.begin roles.lookup 0 settings
    effects.foldl carryOut { roles, engine }

/-- The reports of a series of actions, each on what the one before left. -/
def reports (w : World) : List Action → List Report
  | [] => []
  | a :: rest =>
    let (w, report) := w.step a
    report :: w.reports rest

/-- A report of the beginning and one of each action. -/
def run (settings : Settings) (roles : RoleTable) (actions : List Action) :
    Except SyncError (List Report) :=
  (begin settings roles).map fun w =>
    let (w, report) := w.settle.takeReport .unit
    report :: w.reports actions

end World

end LogSync
