import LogSync.CoreTracker

/-!
# The state of one namespace

The trackers of a namespace's cores, and their counts summed up. The sum is kept together with the
number of cores and the sum of their versions: since neither ever goes down, both are the same
again only if nothing has changed.
-/

namespace LogSync

/-- How many of a namespace's cores a peer replicates: none, some, or all. -/
inductive PeerStatus where
  | disconnected | connecting | connected
deriving DecidableEq, Repr, Inhabited

/-- A remote peer's counts over the cores of a namespace. -/
structure NamespacePeer where
  counts : BlockCounts
  status : PeerStatus
deriving DecidableEq, Repr

/-- The counts of a namespace. -/
structure NamespaceState where
  coreCount : Nat := 0
  /-- Whether there is anything that the local peer could get or give. -/
  dataToSync : Bool := false
  localPeer : BlockCounts := {}
  remotes : SortedMap PeerId NamespacePeer := ∅
deriving DecidableEq, Inhabited

/-- A remote peer's counts while they are being summed. -/
structure PeerSum where
  counts : BlockCounts := {}
  /-- The number of cores that the peer is connected to. -/
  connections : Nat := 0

namespace PeerSum

/-- The status of a peer among a number of cores. -/
def status (s : PeerSum) (coreCount : Nat) : PeerStatus :=
  if s.connections = 0 then .disconnected
  else if s.connections = coreCount then .connected
  else .connecting

/-- Adds the counts of one more core. -/
def add (s : PeerSum) (r : RemoteCounts) : PeerSum :=
  ⟨s.counts + r.counts, s.connections + r.connected.toNat⟩

/-- Adds one core's counts for each of its peers. -/
def addCore (sums : SortedMap PeerId PeerSum) (c : CoreCounts) : SortedMap PeerId PeerSum :=
  c.remotes.toList.foldl (fun sums e => sums.upsert e.1 {} (·.add e.2)) sums

end PeerSum

/-- The counts of a namespace, from those of its cores. -/
def NamespaceState.ofCores (cores : List CoreCounts) : NamespaceState :=
  let localPeer := cores.foldl (fun sum c => sum + c.localPeer) {}
  let sums := cores.foldl PeerSum.addCore ∅
  { coreCount := cores.length
    dataToSync := localPeer.want > 0 || localPeer.wanted > 0
    localPeer
    remotes := sums.mapValues fun _ s => ⟨s.counts, s.status cores.length⟩ }

/-- What is known of the cores of one namespace. -/
structure NamespaceTracker where
  ns : Namespace
  cores : SortedMap DiscoveryKey CoreTracker := ∅
  /-- The counts, with the mark of what they were summed from. -/
  cached : Option ((Nat × Nat) × NamespaceState) := none
deriving DecidableEq

namespace NamespaceTracker

/-- A namespace without cores. -/
def ofNamespace (ns : Namespace) : NamespaceTracker := { ns }

/-- The number of cores. -/
def coreCount (t : NamespaceTracker) : Nat := t.cores.size

/-- Whether a core is tracked here. -/
def contains (t : NamespaceTracker) (key : DiscoveryKey) : Bool := t.cores.contains key

/-- The tracker of a core; one that is not tracked yet is new and empty. -/
def core (t : NamespaceTracker) (key : DiscoveryKey) : CoreTracker :=
  (t.cores.get? key).getD (.ofKey key)

/-- Puts a core's tracker in place of the one before. -/
def setCore (t : NamespaceTracker) (key : DiscoveryKey) (core : CoreTracker) : NamespaceTracker :=
  { t with cores := t.cores.insert key core }

/-- Makes sure that a core is tracked. -/
def ensure (t : NamespaceTracker) (key : DiscoveryKey) : NamespaceTracker :=
  t.setCore key (t.core key)

/-- Makes sure that a peer has a record in every core. -/
def addPeer (t : NamespaceTracker) (p : PeerId) : NamespaceTracker :=
  { t with cores := t.cores.mapValues fun _ core => (core.addPeer p).1 }

/-- What tells the present cores from all earlier ones. -/
def mark (t : NamespaceTracker) : Nat × Nat :=
  (t.cores.size, sumOver (·.version) t.cores.values)

/-- The counts, summed anew over the counts of the cores, and the tracker that keeps both. -/
def summed (t : NamespaceTracker) : NamespaceState × NamespaceTracker :=
  let read := t.cores.mapValues fun _ core => core.counts
  let state := NamespaceState.ofCores (read.values.map (·.1))
  (state, { t with cores := read.mapValues fun _ r => r.2, cached := some (t.mark, state) })

/-- The counts: the kept ones if nothing has changed since, or newly summed ones. -/
def state (t : NamespaceTracker) : NamespaceState × NamespaceTracker :=
  match t.cached with
  | some (mark, state) => if mark = t.mark then (state, t) else t.summed
  | none => t.summed

end NamespaceTracker

end LogSync
