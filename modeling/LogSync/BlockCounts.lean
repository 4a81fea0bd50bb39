import LogSync.Identity
import LogSync.PeerRecord

/-!
# Block counts

For one core, each peer's blocks below the core's length fall into counts: those it has, those it
could get, those others could get from it, and those it wants but nobody has. Here is what the
counts mean, one block at a time; `LogSync.BlockCounts.Walk` finds them without looking at every
block.
-/

namespace LogSync

/-- The counts of one peer. -/
structure BlockCounts where
  /-- Blocks the peer has. -/
  owned : Nat := 0
  /-- Blocks the peer wants and lacks and some peer has. -/
  want : Nat := 0
  /-- Blocks the peer has and some peer wants and lacks. -/
  wanted : Nat := 0
  /-- Blocks the peer wants and nobody has. -/
  missing : Nat := 0
deriving DecidableEq, Repr, Inhabited

namespace BlockCounts

/-- All counts fit into 64 bits. Those of one core do, since each of them counts blocks below the
core's length. -/
structure Fits (c : BlockCounts) : Prop where
  owned : c.owned < countBound
  want : c.want < countBound
  wanted : c.wanted < countBound
  missing : c.missing < countBound

/-- The counts of two separate stretches of blocks, or of two cores, taken together. Over the cores
of a namespace the sums are taken to fit as well (`BlockCounts.Fits`). -/
def add (a b : BlockCounts) : BlockCounts :=
  ⟨a.owned + b.owned, a.want + b.want, a.wanted + b.wanted, a.missing + b.missing⟩

instance : Add BlockCounts := ⟨add⟩

end BlockCounts

/-- The counts of a remote peer. -/
structure RemoteCounts where
  counts : BlockCounts := {}
  connected : Bool := false
deriving DecidableEq, Repr, Inhabited

/-- The counts of every peer of one core. -/
structure CoreCounts where
  length : Nat := 0
  localPeer : BlockCounts := {}
  remotes : SortedMap PeerId RemoteCounts := ∅
deriving DecidableEq, Inhabited

/-! ## One block at a time -/

section
variable (everyone : List PeerRecord)

/-- Whether some peer has the block. -/
def someoneHas (i : Nat) : Bool := everyone.any (·.has i)

/-- Whether a peer wants the block, lacks it, and could get it. -/
def PeerRecord.couldGet (p : PeerRecord) (i : Nat) : Bool :=
  p.wishes i && !p.has i && someoneHas everyone i

/-- Whether a peer has the block and some peer could get it. -/
def PeerRecord.couldGive (p : PeerRecord) (i : Nat) : Bool :=
  p.has i && everyone.any (·.couldGet everyone i)

/-- Whether a peer wants the block and nobody has it. -/
def PeerRecord.misses (p : PeerRecord) (i : Nat) : Bool :=
  p.wishes i && !someoneHas everyone i

/-- What the counts of a peer mean: how many blocks below `length` are of each kind. -/
def BlockCounts.blockwise (length : Nat) (p : PeerRecord) : BlockCounts where
  owned := countBelow p.has length
  want := countBelow (p.couldGet everyone) length
  wanted := countBelow (p.couldGive everyone) length
  missing := countBelow (p.misses everyone) length

end

/-- The local peer and the remotes, all counted alike. -/
def everyPeer (localPeer : PeerRecord) (remotes : SortedMap PeerId PeerRecord) : List PeerRecord :=
  localPeer :: remotes.values

/-- What the counts of a core mean. -/
def CoreCounts.blockwise (length : Nat) (localPeer : PeerRecord)
    (remotes : SortedMap PeerId PeerRecord) : CoreCounts :=
  let everyone := everyPeer localPeer remotes
  { length
    localPeer := .blockwise everyone length localPeer
    remotes := remotes.mapValues fun _ p => ⟨.blockwise everyone length p, p.connected⟩ }

end LogSync
