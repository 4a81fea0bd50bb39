import LogSync.BlockCounts

/-!
# Counting blocks word by word

The counts of a core are found in one walk over its blocks, 32 at a time. Where no peer has any
block, the walk jumps to the next word in which one does, and all that is wished for in between is
missing. So its cost follows the populated part of the core and not its length.
-/

namespace LogSync

/-- A reader that finds the set bits of one bitmap in ascending order. It keeps its last answer:
as long as the answer is not behind the position, it is still the next set bit. -/
structure Cursor where
  bits : Bitmap
  /-- The answer to the last question, if one was asked. -/
  found : Option (Option Nat) := none

namespace Cursor

/-- Whether the kept answer does not answer for a position. -/
def isStale (c : Cursor) (position : Nat) : Bool :=
  match c.found with
  | none => true
  | some (some index) => index < position
  | some none => false

/-- Moves on to a position, which must not lie behind an earlier one. -/
def seek (c : Cursor) (position : Nat) : Cursor :=
  if c.isStale position then { c with found := some (c.bits.firstSet position) } else c

/-- The set bit that the cursor stands before. -/
def next? (c : Cursor) : Option Nat := c.found.join

end Cursor

/-- One peer on the walk, with its counts so far. -/
structure Lane where
  peer : PeerRecord
  cursors : List Cursor
  counts : BlockCounts := {}

namespace Lane

/-- A peer at the start of the walk. -/
def start (p : PeerRecord) : Lane := ⟨p, p.sources.map ({ bits := · }), {}⟩

/-- Moves the cursors on. -/
def seek (position : Nat) (l : Lane) : Lane :=
  { l with cursors := l.cursors.map (·.seek position) }

/-- Counts the wishes in a stretch of blocks that nobody has. -/
def skip (gap : BlockRange) (l : Lane) : Lane :=
  { l with counts.missing := l.counts.missing + l.peer.countWishes gap }

/-- The blocks of a word that the peer has, of those that count. -/
def owned (w : Nat) (mask : Word) (l : Lane) : Word := l.peer.hasWord w &&& mask

/-- The blocks of a word that the peer wishes for and lacks, of those that count. -/
def lacking (w : Nat) (mask : Word) (l : Lane) : Word :=
  l.peer.wishesWord w &&& ~~~l.owned w mask &&& mask

/-- Counts the blocks of a word, given which of them some peer has and which some peer could
get. -/
def tally (w : Nat) (mask someoneHas someoneGets : Word) (l : Lane) : Lane :=
  { l with
    counts.owned := l.counts.owned + Word.count (l.owned w mask)
    counts.want := l.counts.want + Word.count (l.lacking w mask &&& someoneHas)
    counts.missing := l.counts.missing + Word.count (l.lacking w mask &&& ~~~someoneHas)
    counts.wanted := l.counts.wanted + Word.count (someoneGets &&& l.owned w mask) }

end Lane

/-- The walk over a core's blocks: every block below `position` is counted. -/
structure Walk where
  position : Nat
  localLane : Lane
  remoteLanes : SortedMap PeerId Lane

namespace Walk

/-- The walk before the first block. -/
def start (localPeer : PeerRecord) (remotes : SortedMap PeerId PeerRecord) : Walk :=
  ⟨0, .start localPeer, remotes.mapValues fun _ p => .start p⟩

/-- Every peer's lane. -/
def lanes (w : Walk) : List Lane := w.localLane :: w.remoteLanes.values

/-- Does the same on every lane, and goes to a new position. -/
def advance (w : Walk) (position : Nat) (f : Lane → Lane) : Walk :=
  ⟨position, f w.localLane, w.remoteLanes.mapValues fun _ l => f l⟩

/-- The next block that some peer has. -/
def nextOwned (w : Walk) : Option Nat :=
  ((w.lanes.flatMap (·.cursors)).filterMap (·.next?)).min?

/-- The end of the stretch from here on in which nobody has a block, in whole words. -/
def gapEnd (w : Walk) (length : Nat) : Nat :=
  match w.nextOwned with
  | some index => if index < length then index - index % 32 else length
  | none => length

/-- One step: over a stretch without blocks if there is one here, else over one word. -/
def step (length : Nat) (w : Walk) : Walk :=
  let w := w.advance w.position (·.seek w.position)
  let gapEnd := w.gapEnd length
  if w.position < gapEnd then
    w.advance gapEnd (·.skip ⟨w.position, gapEnd - w.position⟩)
  else
    let span := min (length - w.position) 32
    let mask := Word.firstBits span
    let here := w.position / 32
    let someoneHas := (w.lanes.map (·.owned here mask)).foldl (· ||| ·) 0
    let someoneGets := (w.lanes.map (·.lacking here mask &&& someoneHas)).foldl (· ||| ·) 0
    w.advance (w.position + span) (·.tally here mask someoneHas someoneGets)

/-- Every step moves the walk ahead, over a gap or over a word. -/
theorem position_lt_step {length : Nat} {w : Walk} (h : w.position < length) :
    w.position < (w.step length).position := by
  unfold step
  simp only
  split
  · next hgap => exact hgap
  · simp only [advance]; omega

/-- Steps until every block below `length` is counted. -/
def run (length : Nat) (w : Walk) : Walk :=
  if _more : w.position < length then run length (w.step length) else w
termination_by length - w.position
decreasing_by have := position_lt_step ‹_›; omega

end Walk

/-- The counts of every peer of a core. -/
def CoreCounts.derive (length : Nat) (localPeer : PeerRecord)
    (remotes : SortedMap PeerId PeerRecord) : CoreCounts :=
  let walked := (Walk.start localPeer remotes).run length
  { length
    localPeer := walked.localLane.counts
    remotes := walked.remoteLanes.mapValues fun _ l => ⟨l.counts, l.peer.connected⟩ }

end LogSync
