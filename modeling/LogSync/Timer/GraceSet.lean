import LogSync.SortedMap

/-!
# Keys with a grace period

Each key is kept for a fixed time after it came in, unless it is taken out before.
-/

namespace LogSync

/-- The keys, each with the time at which it is forgotten. -/
structure GraceSet (κ : Type) [Ord κ] where
  grace : Nat
  deadlines : SortedMap κ Nat := ∅
deriving DecidableEq

namespace GraceSet

variable {κ : Type} [Ord κ] [Std.TransOrd κ]

/-- Takes a key in; tells whether it is new. A key that is here already keeps its deadline. -/
def insert (s : GraceSet κ) (k : κ) (now : Nat) : GraceSet κ × Bool :=
  if s.deadlines.contains k then (s, false)
  else ({ s with deadlines := s.deadlines.insert k (now + s.grace) }, true)

omit [Std.TransOrd κ]

/-- Whether a key is here. -/
def contains (s : GraceSet κ) (k : κ) : Bool := s.deadlines.contains k

/-- Takes a key out; tells whether it was here. -/
def remove (s : GraceSet κ) (k : κ) : GraceSet κ × Bool :=
  ({ s with deadlines := s.deadlines.erase k }, s.contains k)

/-- Takes the keys out that pass a test, in ascending order. -/
def takeWhere (s : GraceSet κ) (test : κ → Nat → Bool) : GraceSet κ × List κ :=
  ({ s with deadlines := s.deadlines.filter fun k d => !test k d }, (s.deadlines.filter test).keys)

/-- Forgets the keys whose time has come. -/
def expire (s : GraceSet κ) (now : Nat) : GraceSet κ × List κ := s.takeWhere fun _ d => d ≤ now

/-- Takes the keys out that a test selects. -/
def takeMatching (s : GraceSet κ) (test : κ → Bool) : GraceSet κ × List κ :=
  s.takeWhere fun k _ => test k

/-- When the next key is forgotten. -/
def nextDeadline (s : GraceSet κ) : Option Nat := s.deadlines.values.min?

/-- The number of keys. -/
def size (s : GraceSet κ) : Nat := s.deadlines.size

/-- Whether there are no keys. -/
def isEmpty (s : GraceSet κ) : Bool := s.deadlines.isEmpty

end GraceSet

end LogSync
