import LogSync.SyncState

/-!
# Roles

A role says which namespaces a peer may sync. Roles are looked up anew at each evaluation, so that
a change of roles takes effect without a new connection.
-/

namespace LogSync

/-- The capability of every peer for every namespace. -/
abbrev Roles := PeerId → Namespace → Capability

/-- The capabilities of a peer for the tracked namespaces. -/
def Roles.resolve (roles : Roles) (plan : NamespacePlan) (p : PeerId) : Capabilities :=
  .ofList (plan.tracked.map fun ns => (ns, roles p ns))

/-- One capability for everybody, and exceptions. -/
structure RoleTable where
  standard : Capability := .allowed
  exceptions : SortedMap PeerId (SortedMap Namespace Capability) := ∅

namespace RoleTable

/-- The roles that a table gives. -/
def lookup (t : RoleTable) : Roles := fun p ns =>
  ((t.exceptions.get? p).bind (·.get? ns)).getD t.standard

/-- Makes an exception for one peer and namespace. -/
def set (t : RoleTable) (p : PeerId) (ns : Namespace) (c : Capability) : RoleTable :=
  { t with exceptions := t.exceptions.upsert p ∅ (·.insert ns c) }

/-- Blocks a peer from every namespace. -/
def block (t : RoleTable) (p : PeerId) : RoleTable :=
  Namespace.all.foldl (fun t ns => t.set p ns .blocked) t

end RoleTable

end LogSync
