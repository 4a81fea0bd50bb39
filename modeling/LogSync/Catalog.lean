import LogSync.Identity
import LogSync.Namespace

/-!
# The catalog of attached cores

Which cores are attached, and the namespace of each.
-/

namespace LogSync

/-- The namespace of every attached core. -/
structure Catalog where
  cores : SortedMap DiscoveryKey Namespace := ∅
deriving DecidableEq, Inhabited

namespace Catalog

/-- Whether a core is attached. -/
def contains (c : Catalog) (key : DiscoveryKey) : Bool := c.cores.contains key

/-- The namespace of an attached core. -/
def namespaceOf? (c : Catalog) (key : DiscoveryKey) : Option Namespace := c.cores.get? key

/-- Enters a core; tells whether it is new. A core that is here already keeps its namespace. -/
def insert (c : Catalog) (key : DiscoveryKey) (ns : Namespace) : Catalog × Bool :=
  if c.contains key then (c, false) else (⟨c.cores.insert key ns⟩, true)

/-- The number of cores. -/
def size (c : Catalog) : Nat := c.cores.size

/-- Whether no core is attached. -/
def isEmpty (c : Catalog) : Bool := c.cores.isEmpty

/-- A one-line description: the cores in order, each with its namespace. -/
def describe (c : Catalog) : String :=
  let entries := c.cores.toList.map fun (key, ns) => key.describe ++ ": " ++ ns.name
  "\x7b" ++ ", ".intercalate entries ++ "\x7d"

end Catalog

end LogSync
