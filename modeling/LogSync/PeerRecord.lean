import LogSync.Bitmap

/-!
# What a peer has and wants of one core

A peer's blocks come from two sources: those it announced ahead of a connection, and those it
reports while connected. It has a block if either says so. Until it declares what it wants, it
wants everything.
-/

namespace LogSync

/-- What is known of one peer with regard to one core. -/
structure PeerRecord where
  /-- Blocks announced ahead of a connection. -/
  preHaves : Option Bitmap := none
  /-- Blocks reported over a connection. -/
  haves : Option Bitmap := none
  /-- Blocks declared as wanted; everything if there was no declaration. -/
  wants : Option Bitmap := none
  connected : Bool := false
deriving DecidableEq, Inhabited

namespace PeerRecord

/-- Replaces the blocks announced ahead of a connection. -/
def setPreHaves (p : PeerRecord) (b : Bitmap) : PeerRecord := { p with preHaves := some b }

/-- Replaces the blocks reported over a connection. -/
def setHaves (p : PeerRecord) (b : Bitmap) : PeerRecord := { p with haves := some b }

/-- Replaces the declared wants. -/
def setWants (p : PeerRecord) (b : Bitmap) : PeerRecord := { p with wants := some b }

/-- Adds a run of blocks to the declared wants. -/
def addWants (p : PeerRecord) (r : BlockRange) : PeerRecord :=
  p.setWants ((p.wants.getD ∅).setRange r true)

/-- Adds a run of blocks to the reported ones, or takes it away. -/
def reportRange (p : PeerRecord) (r : BlockRange) (value : Bool) : PeerRecord :=
  p.setHaves ((p.haves.getD ∅).setRange r value)

/-- Adds one block to the reported ones, or takes it away; says whether that changed it. -/
def reportBlock (p : PeerRecord) (index : Nat) (value : Bool) : PeerRecord × Bool :=
  let (b, changed) := (p.haves.getD ∅).set index value
  (p.setHaves b, changed)

/-- Notes whether the peer is connected; says whether that changed. -/
def setConnected (p : PeerRecord) (connected : Bool) : PeerRecord × Bool :=
  ({ p with connected }, p.connected != connected)

/-- Whether the peer has a block. -/
def has (p : PeerRecord) (index : Nat) : Bool :=
  p.haves.any (·.get index) || p.preHaves.any (·.get index)

/-- Whether the peer would like to have a block, be it one that it has. -/
def wishes (p : PeerRecord) (index : Nat) : Bool := p.wants.all (·.get index)

/-- Thirty-two blocks' worth of `has`. -/
def hasWord (p : PeerRecord) (w : Nat) : Word :=
  (p.haves.elim 0 (·.word w)) ||| (p.preHaves.elim 0 (·.word w))

/-- Thirty-two blocks' worth of `wishes`. -/
def wishesWord (p : PeerRecord) (w : Nat) : Word := p.wants.elim (BitVec.allOnes 32) (·.word w)

/-- The number of blocks in a range that the peer would like to have. -/
def countWishes (p : PeerRecord) (r : BlockRange) : Nat := p.wants.elim r.length (·.count r)

/-- Whether the peer has declared no wants. -/
def wantsEverything (p : PeerRecord) : Bool := p.wants.isNone

/-- The bitmaps that say what the peer has. -/
def sources (p : PeerRecord) : List Bitmap := p.haves.toList ++ p.preHaves.toList

/-- Whether two optional bitmaps are both absent, or both there with the same bits. -/
def sameSource : Option Bitmap → Option Bitmap → Bool
  | none, none => true
  | some a, some b => a.sameBits b
  | _, _ => false

/-- Whether two records say the same. A bitmap without bits is not the same as none. -/
def same (p q : PeerRecord) : Bool :=
  sameSource p.preHaves q.preHaves && sameSource p.haves q.haves &&
    sameSource p.wants q.wants && p.connected == q.connected

end PeerRecord

end LogSync
