import LogSync.CoreTracker

/-!
# Cores in memory

A core that holds no blocks, only the bitmaps that say who has which. Each change of it is reported
by one event, and its snapshot shows all changes so far; a tracker that is attached by a snapshot
and told of later events stays in line with it.
-/

namespace LogSync

/-- A live core, as far as replication is concerned. -/
structure MemoryCore where
  key : DiscoveryKey
  length : Nat
  localBits : Bitmap := ∅
  /-- The connected peers and what each has. -/
  peers : SortedMap PeerId Bitmap := ∅

/-- What can happen to a live core. -/
inductive CoreChange where
  | connectPeer (peer : PeerId) (bits : Bitmap)
  | disconnectPeer (peer : PeerId)
  /-- A peer has come to have a run of blocks. -/
  | peerHasRange (peer : PeerId) (range : BlockRange)
  /-- A block was stored locally. -/
  | download (index : Nat)
  /-- Blocks were written locally behind the last one. -/
  | append (count : Nat)

namespace MemoryCore

/-- A core of some length, of which the given ranges are stored locally. -/
def ofRanges (key : DiscoveryKey) (length : Nat) (stored : List BlockRange) : MemoryCore :=
  { key, length, localBits := .ofRanges stored }

/-- The core after a change, and the event that reports it. -/
def apply (c : MemoryCore) : CoreChange → MemoryCore × CoreEvent
  | .connectPeer p bits => ({ c with peers := c.peers.insert p bits }, .peerAdd p bits)
  | .disconnectPeer p => ({ c with peers := c.peers.erase p }, .peerRemove p)
  | .peerHasRange p range =>
    ({ c with peers := c.peers.modify p (·.setRange range true) }, .peerRange p range true)
  | .download index => ({ c with localBits := (c.localBits.set index true).1 }, .download index)
  | .append count =>
    let length := c.length + count
    ({ c with length, localBits := c.localBits.setRange ⟨c.length, count⟩ true },
      .append length true)

/-- The core as it is now. -/
def snapshot (c : MemoryCore) : CoreSnapshot := ⟨c.key, c.length, c.localBits, c.peers.toList⟩

end MemoryCore

end LogSync
