import LogSync.Catalog
import LogSync.SyncState
import LogSync.Timer.GraceSet

/-!
# The link to one peer

One connection to a peer carries the replication of many cores. A link decides which: exactly the
attached cores whose namespace the peer may sync and the present state enables. It brings the
connection there by calls that start and stop single cores.

A peer may announce a core before it is attached here. Such keys are held for a grace period.
-/

namespace LogSync

/-- Names one connection. -/
structure ConnectionId where
  number : Nat
deriving DecidableEq, Repr, Inhabited

namespace ConnectionId

instance : Ord ConnectionId := ⟨compareOn number⟩
instance : Std.TransOrd ConnectionId := inferInstanceAs (Std.TransCmp (compareOn number))
instance : Std.LawfulEqOrd ConnectionId :=
  lawfulEqCmp_compareOn number fun ⟨_⟩ ⟨_⟩ => congrArg mk

/-- The written name. -/
def text (c : ConnectionId) : String := s!"conn-{c.number}"

end ConnectionId

/-- A connection to a peer. -/
structure Connection where
  id : ConnectionId
  peer : PeerId
  /-- Tells apart connections that bear the same name one after the other. -/
  serial : Nat := 0
deriving DecidableEq, Inhabited

/-- What a connection is told to do. -/
inductive ReplicationCall where
  | replicate (key : DiscoveryKey)
  | unreplicate (key : DiscoveryKey)
deriving DecidableEq

/-- The cores that a connection replicates after a call. -/
def ReplicationCall.apply (replicating : SortedSet DiscoveryKey) :
    ReplicationCall → SortedSet DiscoveryKey
  | replicate key => replicating.add key
  | unreplicate key => replicating.erase key

/-- The state of one link. -/
structure PeerLink where
  connection : Connection
  capabilities : Capabilities := ∅
  /-- The state that was applied last. -/
  enabled : EnabledState := .none
  /-- The cores that the connection was told to replicate. -/
  replicating : SortedSet DiscoveryKey := ∅
  /-- Announced keys whose cores are not attached. -/
  held : GraceSet DiscoveryKey
deriving DecidableEq

/-- Brings the replication of the listed cores in line with what is enabled: the cores replicated
then, and the calls that lead there. -/
def reconciled (enabled : Namespace → Bool) :
    List (DiscoveryKey × Namespace) → SortedSet DiscoveryKey →
      SortedSet DiscoveryKey × List ReplicationCall
  | [], replicating => (replicating, [])
  | (key, ns) :: rest, replicating =>
    if enabled ns == replicating.contains key then reconciled enabled rest replicating
    else
      let call := if enabled ns then ReplicationCall.replicate key else .unreplicate key
      let (replicating, calls) := reconciled enabled rest (call.apply replicating)
      (replicating, call :: calls)

namespace PeerLink

/-- A link on which nothing is allowed or enabled yet. -/
def ofConnection (connection : Connection) (grace : Nat) : PeerLink :=
  { connection, held := { grace } }

/-- The peer at the other end. -/
def peer (l : PeerLink) : PeerId := l.connection.peer

/-- Whether a core is replicated. -/
def isReplicating (l : PeerLink) (key : DiscoveryKey) : Bool := l.replicating.contains key

/-- Whether a namespace is synced over the link: allowed to the peer, and enabled. -/
def enables (l : PeerLink) (plan : NamespacePlan) (ns : Namespace) : Bool :=
  l.capabilities.allows ns && l.enabled.enables plan ns

section
variable (plan : NamespacePlan) (catalog : Catalog)

/-- Brings the replication of every attached core in line with what is enabled. -/
def reconcile (l : PeerLink) : PeerLink × List ReplicationCall :=
  let (replicating, calls) := reconciled (l.enables plan) catalog.cores.toList l.replicating
  ({ l with replicating }, calls)

/-- Takes new capabilities over; the same ones again change nothing. -/
def setCapabilities (l : PeerLink) (capabilities : Capabilities) :
    PeerLink × List ReplicationCall :=
  if capabilities = l.capabilities then (l, []) else { l with capabilities }.reconcile plan catalog

/-- Takes a new state over. -/
def setEnabled (l : PeerLink) (enabled : EnabledState) : PeerLink × List ReplicationCall :=
  { l with enabled }.reconcile plan catalog

/-- The peer has announced a core. A key whose core is not attached is held. -/
def announce (l : PeerLink) (key : DiscoveryKey) (now : Nat) :
    PeerLink × List ReplicationCall :=
  if catalog.contains key then l.reconcile plan catalog
  else ({ l with held := (l.held.insert key now).1 }, [])

/-- A core was attached; if it was announced before, its key need not be held any longer. -/
def coreAdded (l : PeerLink) (key : DiscoveryKey) : PeerLink × List ReplicationCall :=
  { l with held := (l.held.remove key).1 }.reconcile plan catalog

end

/-- Drops the held keys whose time has come, and gives them. -/
def expire (l : PeerLink) (now : Nat) : PeerLink × List DiscoveryKey :=
  let (held, keys) := l.held.expire now
  ({ l with held }, keys)

/-- A one-line description of the link. -/
def describe (l : PeerLink) : String :=
  let state := match l.enabled with
    | .none => "None"
    | .presync => "Presync"
    | .all => "All"
  s!"PeerSyncController \x7b peer_id: {l.peer.describe}, " ++
    s!"connection: ConnectionId({l.connection.id.number}), enabled_state: {state}, " ++
    s!"replicating: {l.replicating.size} \x7d"

end PeerLink

end LogSync
