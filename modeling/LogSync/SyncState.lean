import LogSync.Identity
import LogSync.Namespace

/-!
# What is enabled, allowed and reported

The values that the rest of the library passes around: which namespaces are synced at all, which of
them a peer may sync, and the snapshot of both that is published after every evaluation.
-/

namespace LogSync

/-- Which namespaces are synced. -/
inductive EnabledState where
  | none | presync | all
deriving DecidableEq, Repr, Inhabited

namespace EnabledState

/-- The written name. -/
def name : EnabledState → String
  | none => "none"
  | presync => "presync"
  | all => "all"

/-- Whether a namespace is synced in this state. -/
def enables (s : EnabledState) (plan : NamespacePlan) (ns : Namespace) : Bool :=
  match s with
  | none => false
  | presync => plan.isPresync ns
  | all => true

end EnabledState

/-- What a peer's role lets it do with a namespace. -/
inductive Capability where
  | blocked | allowed
deriving DecidableEq, Repr, Inhabited

/-- A peer's capability for each namespace that was asked about. -/
abbrev Capabilities := SortedMap Namespace Capability

/-- Whether a peer may sync a namespace. One that was never asked about is blocked. -/
def Capabilities.allows (c : Capabilities) (ns : Namespace) : Bool := c.get? ns == some .allowed

/-- The progress of one peer over one group of namespaces. -/
structure GroupProgress where
  isEnabled : Bool := false
  want : Nat := 0
  wanted : Nat := 0
deriving DecidableEq, Repr, Inhabited

/-- The progress of one peer: over the presync namespaces, and over the others. -/
structure DeviceProgress where
  initial : GroupProgress := {}
  data : GroupProgress := {}
deriving DecidableEq, Repr, Inhabited

/-- Which groups of namespaces are synced, and the progress of every peer. -/
structure SyncSnapshot where
  initialEnabled : Bool := false
  dataEnabled : Bool := false
  devices : SortedMap PeerId DeviceProgress := ∅
deriving DecidableEq, Inhabited

/-- The snapshot of an enabled state. -/
def SyncSnapshot.of (s : EnabledState) (devices : SortedMap PeerId DeviceProgress) :
    SyncSnapshot where
  initialEnabled := s != .none
  dataEnabled := s == .all
  devices := devices

end LogSync
