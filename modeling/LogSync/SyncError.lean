import LogSync.Identity
import LogSync.Namespace

/-!
# Errors

What can be refused, and the wording of each refusal.
-/

namespace LogSync

/-- The longest autostop timeout, in milliseconds. -/
def maxAutostopMillis : Nat := 0x7FFFFFFF

/-- Why a request was refused. -/
inductive SyncError where
  /-- An autostop timeout that is out of range or not a whole number of milliseconds. -/
  | invalidAutostop (after : Nat)
  /-- A snapshot that belongs to another core. -/
  | keyMismatch (expected actual : DiscoveryKey)
  /-- A choice of namespaces that is no plan. -/
  | invalidPlan (reason : PlanError)
  /-- A name that no namespace has. -/
  | unknownNamespace (name : String)
  /-- A namespace that the plan does not track. -/
  | untrackedNamespace (ns : Namespace)
  /-- A request to an engine that has ended. -/
  | closed
deriving DecidableEq

namespace SyncError

/-- The wording of a refusal. -/
def message : SyncError → String
  | invalidAutostop after =>
    s!"auto-stop timeout must be a whole number of milliseconds between 1 and " ++
      s!"{maxAutostopMillis}, got {after}ns"
  | keyMismatch expected actual =>
    s!"discovery key does not match: expected {expected.text}, got {actual.text}"
  | invalidPlan reason => s!"invalid namespace configuration: {reason.message}"
  | unknownNamespace name => s!"unknown namespace: {name}"
  | untrackedNamespace ns => s!"namespace not tracked: {ns.name}"
  | closed => "sync engine closed"

end SyncError

namespace Namespace

/-- The namespace with the given name, or a refusal that quotes the name. -/
def ofName (s : String) : Except SyncError Namespace :=
  match ofName? s with
  | some ns => .ok ns
  | none => .error (.unknownNamespace s)

end Namespace

/-- Makes a plan of names: the tracked ones are read first, then the presync ones. -/
def NamespacePlan.ofNames (tracked presync : List String) : Except SyncError NamespacePlan := do
  let tracked ← tracked.mapM Namespace.ofName
  let presync ← presync.mapM Namespace.ofName
  (ofLists tracked presync).mapError .invalidPlan

end LogSync
