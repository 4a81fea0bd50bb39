import LogSync.NamespaceTracker
import LogSync.SyncState

/-!
# Progress

Whether a sync is complete, and how far each peer is.
-/

namespace LogSync

/-- The counts of every tracked namespace. -/
abbrev NamespaceStates := SortedMap Namespace NamespaceState

/-- The peers that a sync is held with, each with its capabilities. A peer that is connected twice
stands in the list twice. -/
abbrev Partners := List (PeerId × Capabilities)

/-- Whether a namespace is complete for one peer: a peer that may sync it has a record there, and
is not just about to connect. A namespace without cores has no records. -/
def NamespaceState.isSettledFor (s : NamespaceState) (p : PeerId) : Bool :=
  s.coreCount == 0 ||
    match s.remotes.get? p with
    | some r => r.status != .connecting
    | none => false

/-- Whether nothing is left to sync in the listed namespaces. Those that are not tracked do not
count. -/
def isSynced (states : NamespaceStates) (namespaces : List Namespace) (partners : Partners) :
    Bool :=
  namespaces.all fun ns =>
    match states.get? ns with
    | none => true
    | some s =>
      !s.dataToSync && partners.all fun (p, caps) => !caps.allows ns || s.isSettledFor p

/-- Adds a namespace's counts to a group. -/
def GroupProgress.add (g : GroupProgress) (c : BlockCounts) : GroupProgress :=
  ⟨true, g.want + c.want, g.wanted + c.wanted⟩

/-- The progress of one peer, over the namespaces that it may sync and has a record in. -/
def DeviceProgress.of (states : NamespaceStates) (plan : NamespacePlan) (p : PeerId)
    (caps : Capabilities) : DeviceProgress :=
  plan.tracked.foldl
    (fun device ns =>
      match caps.allows ns, (states.get? ns).bind (·.remotes.get? p) with
      | true, some r =>
        if plan.isPresync ns then { device with initial := device.initial.add r.counts }
        else { device with data := device.data.add r.counts }
      | _, _ => device)
    {}

/-- The progress of every peer. Of a peer that is listed twice, the last entry counts. -/
def devicesProgress (states : NamespaceStates) (plan : NamespacePlan) (partners : Partners) :
    SortedMap PeerId DeviceProgress :=
  .ofList (partners.map fun (p, caps) => (p, .of states plan p caps))

end LogSync
