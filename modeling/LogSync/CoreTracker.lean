import LogSync.BlockCounts.Walk
import LogSync.SyncError

/-!
# The state of one core

A tracker gathers what is known of one core: its length, the local peer's record and those of the
remotes. It may exist before the core does, since peers announce what they have and want ahead of
it. Once the core is there, it is attached by a snapshot, and from then on events keep the tracker
up to date.

Counts are derived on demand and kept until something changes. The version counts the changes.
-/

namespace LogSync

/-- A live core as it is at one moment. -/
structure CoreSnapshot where
  key : DiscoveryKey
  length : Nat
  /-- The blocks that are stored locally. -/
  localBits : Bitmap
  /-- The connected peers and the blocks that they have. -/
  peers : List (PeerId × Bitmap)

/-- A change that a live core reports. -/
inductive CoreEvent where
  /-- A peer has connected, with the blocks that it has. -/
  | peerAdd (peer : PeerId) (bits : Bitmap)
  /-- A peer has disconnected. -/
  | peerRemove (peer : PeerId)
  /-- A peer has sent all that it has. -/
  | peerBitfield (peer : PeerId) (bits : Bitmap)
  /-- A peer has announced a run of blocks, or taken it back. -/
  | peerRange (peer : PeerId) (range : BlockRange) (value : Bool)
  /-- A block was stored locally. -/
  | download (index : Nat)
  /-- The core has grown, by blocks that were written here or elsewhere. -/
  | append (length : Nat) (writtenLocally : Bool)
  /-- Local blocks were dropped. -/
  | clear (range : BlockRange)

/-- What is known of one core. -/
structure CoreTracker where
  key : DiscoveryKey
  attached : Bool := false
  length : Nat := 0
  localPeer : PeerRecord := {}
  remotes : SortedMap PeerId PeerRecord := ∅
  /-- The counts, if nothing has changed since they were derived. -/
  cached : Option CoreCounts := none
  /-- The number of changes so far. -/
  version : Nat := 0
deriving DecidableEq

namespace CoreTracker

/-- A core that nothing is known of yet. -/
def ofKey (key : DiscoveryKey) : CoreTracker := { key }

/-- Notes a change: kept counts are dropped. -/
def changed (t : CoreTracker) : CoreTracker :=
  { t with cached := none, version := t.version + 1 }

/-- Changes the record of a peer, which is new and empty if there was none. -/
def updatePeer (t : CoreTracker) (p : PeerId) (f : PeerRecord → PeerRecord) : CoreTracker :=
  { t with remotes := t.remotes.upsert p {} f }

/-- Notes that a peer is connected and has the given blocks. -/
def connect (t : CoreTracker) (p : PeerId) (bits : Bitmap) : CoreTracker :=
  t.updatePeer p fun r => (r.setConnected true).1.setHaves bits

/-- Binds the live core. Tells whether the core is new; a second core changes nothing. A snapshot
of a different core is refused. -/
def attach (t : CoreTracker) (s : CoreSnapshot) : Except SyncError (CoreTracker × Bool) :=
  if s.key ≠ t.key then .error (.keyMismatch t.key s.key)
  else if t.attached then .ok (t, false)
  else
    let t := { t with
      attached := true
      length := max t.length s.length
      localPeer := t.localPeer.setHaves s.localBits }
    .ok ((s.peers.foldl (fun t p => t.connect p.1 p.2) t).changed, true)

/-- Replaces what a peer has announced ahead of a connection. -/
def setPreHaves (t : CoreTracker) (p : PeerId) (bits : Bitmap) : CoreTracker :=
  (t.updatePeer p (·.setPreHaves bits)).changed

/-- Adds to what a peer has declared as wanted. -/
def addWants (t : CoreTracker) (p : PeerId) (ranges : List BlockRange) : CoreTracker :=
  (t.updatePeer p fun r => ranges.foldl (·.addWants ·) r).changed

/-- Makes sure that a peer has a record; tells whether it had none. -/
def addPeer (t : CoreTracker) (p : PeerId) : CoreTracker × Bool :=
  if t.remotes.contains p then (t, false) else ((t.updatePeer p id).changed, true)

/-- Whether a peer is connected. -/
def isConnected (t : CoreTracker) (p : PeerId) : Bool := (t.remotes.get? p).any (·.connected)

/-- The tracker after an event of the live core, if the event changes anything. -/
def afterEvent (t : CoreTracker) : CoreEvent → Option CoreTracker
  | .peerAdd p bits => some (t.connect p bits)
  | .peerRemove p =>
    if t.isConnected p then some (t.updatePeer p fun r => (r.setConnected false).1) else none
  | .peerBitfield p bits => some (t.updatePeer p (·.setHaves bits))
  | .peerRange p range value => some (t.updatePeer p (·.reportRange range value))
  | .download index =>
    let (r, stored) := t.localPeer.reportBlock index true
    if stored then some { t with localPeer := r } else none
  | .append length writtenLocally =>
    if length ≤ t.length then none
    else
      let added : BlockRange := ⟨t.length, length - t.length⟩
      some { t with
        length
        localPeer := if writtenLocally then t.localPeer.reportRange added true else t.localPeer }
  | .clear range => some { t with localPeer := t.localPeer.reportRange range false }

/-- Takes an event of the live core in; tells whether it changed anything. -/
def onEvent (t : CoreTracker) (e : CoreEvent) : CoreTracker × Bool :=
  match t.afterEvent e with
  | some t' => (t'.changed, true)
  | none => (t, false)

/-- The counts as they follow from what is known. -/
def derived (t : CoreTracker) : CoreCounts := .derive t.length t.localPeer t.remotes

/-- The counts: the kept ones, or newly derived ones, which are then kept. -/
def counts (t : CoreTracker) : CoreCounts × CoreTracker :=
  match t.cached with
  | some c => (c, t)
  | none =>
    let c := t.derived
    (c, { t with cached := some c })

end CoreTracker

end LogSync
