import LogSync.BlockCounts.Walk
import LogSync.Json.Codec
import LogSync.Json.Printer
import LogSync.Text.Column
import LogSync.Toml.Reader

/-!
# Scenarios

A scenario describes one core and its peers by hand: how long the core is, and which ranges of
blocks each peer has, has announced, and wants. It is written as a TOML document. What comes of it
is the counts of every peer, as a table or as JSON.
-/

namespace LogSync

/-- The blocks of one peer, as ranges. -/
structure PeerSpec where
  owned : List BlockRange := []
  /-- What the peer announced ahead of a connection. -/
  announced : List BlockRange := []
  /-- What the peer wants; everything if it does not say. -/
  wants : Option (List BlockRange) := none
deriving DecidableEq, Repr, Inhabited

/-- The bitmap of some ranges, if there are any. -/
def bitmapOfSome (ranges : List BlockRange) : Option Bitmap :=
  if ranges.isEmpty then none else some (.ofRanges ranges)

/-- The record of a peer. -/
def PeerSpec.record (s : PeerSpec) (connected : Bool) : PeerRecord where
  preHaves := bitmapOfSome s.announced
  haves := bitmapOfSome s.owned
  wants := s.wants.map .ofRanges
  connected := connected

/-- A remote peer with a name. -/
structure NamedPeer where
  name : String
  connected : Bool := true
  spec : PeerSpec := {}
deriving DecidableEq, Repr, Inhabited

/-- One core and its peers. -/
structure Scenario where
  length : Nat
  localPeer : PeerSpec := {}
  peers : List NamedPeer := []
deriving DecidableEq, Repr, Inhabited

/-- Why a text does not give a scenario. -/
inductive ScenarioError where
  /-- The text is no document, or a value is not of its type. -/
  | unreadable
  /-- Two peers have one name. -/
  | repeatedName (name : String)
deriving DecidableEq, Repr

/-- What is wrong, in words, unless the text itself cannot be read. -/
def ScenarioError.message? : ScenarioError → Option String
  | unreadable => none
  | repeatedName name => some ("duplicate peer name: " ++ name)

/-! ## Reading -/

/-- Reads a range from a list of its start and length. Behind them there may be more only if the
list need not be read to its end. -/
def BlockRange.ofToml? (exact : Bool) (v : Toml) : Option BlockRange :=
  match v.items? with
  | some (start :: length :: rest) =>
    if exact && !rest.isEmpty then none else return ⟨← start.nat?, ← length.nat?⟩
  | _ => none

/-- Reads a list of ranges. -/
def BlockRange.listOfToml? (exact : Bool) (v : Toml) : Option (List BlockRange) :=
  v.items?.bind (·.mapM (ofToml? exact))

namespace PeerSpec

/-- The names of a peer's ranges. -/
def fieldNames : List String := ["have", "pre_have", "want"]

/-- Reads the ranges of a peer from their fields. -/
def ofFields? (exact : Bool) : List (Option Toml) → Option PeerSpec
  | [owned, announced, wants] => do
    let ranges (v : Option Toml) := v.elim (some []) (BlockRange.listOfToml? exact)
    return {
      owned := ← ranges owned
      announced := ← ranges announced
      wants := ← wants.elim (some none) fun v => (BlockRange.listOfToml? exact v).map some }
  | _ => none

/-- Reads the ranges of a peer. -/
def ofToml? (v : Toml) : Option PeerSpec := (v.record? fieldNames).bind (ofFields? false)

end PeerSpec

/-- Reads a peer with a name, whose ranges stand next to it in one table. -/
def NamedPeer.ofToml? (v : Toml) : Option NamedPeer := do
  let entries ← v.entries?
  let name ← (← entries.lookup "name").text?
  let connected ← (entries.lookup "connected").elim (some true) Toml.bool?
  let spec ← PeerSpec.ofFields? true (PeerSpec.fieldNames.map fun name => entries.lookup name)
  return { name, connected, spec }

namespace Scenario

/-- The first name that a peer before it has too. -/
def repeatedName? : (seen : List String) → List NamedPeer → Option String
  | _, [] => none
  | seen, p :: rest => if p.name ∈ seen then some p.name else repeatedName? (p.name :: seen) rest

/-- Reads a scenario from the entries of a document. -/
def ofEntries? (entries : Toml.Entries) : Option Scenario := do
  let length ← (← entries.lookup "length").nat?
  let localPeer ← (entries.lookup "local").elim (some {}) PeerSpec.ofToml?
  let peers ← (entries.lookup "peers").elim (some []) fun v => do
    (← v.items?).mapM NamedPeer.ofToml?
  return { length, localPeer, peers }

/-- The scenario that a text gives. -/
def read (text : String) : Except ScenarioError Scenario :=
  match (Toml.read? text).bind ofEntries? with
  | none => .error .unreadable
  | some s =>
    match repeatedName? [] s.peers with
    | some name => .error (.repeatedName name)
    | none => .ok s

/-! ## Counting -/

/-- The records of the remote peers. -/
def remotes (s : Scenario) : SortedMap PeerId PeerRecord :=
  .ofList (s.peers.map fun p => (.ofName p.name, p.spec.record p.connected))

/-- The counts of every peer. -/
def counts (s : Scenario) : CoreCounts := .derive s.length (s.localPeer.record false) s.remotes

/-- The names of the remote peers. -/
def names (s : Scenario) : SortedMap PeerId String :=
  .ofList (s.peers.map fun p => (.ofName p.name, p.name))

/-! ## Printing -/

/-- One line of the table: a name, four columns of numbers, and a remark. -/
def row (width : Nat) (name : String) (cells : List String) (remark : String) : String :=
  "  ".intercalate (Column.left width name :: cells.map (Column.right 8) ++ [remark]) ++ "\n"

/-- The cells of a peer's counts. -/
def cells (c : BlockCounts) : List String :=
  [c.owned, c.want, c.wanted, c.missing].map toString

/-- The remote peers in the order of their names. -/
def sortedRemotes (s : Scenario) : List (String × RemoteCounts) :=
  let named := s.counts.remotes.toList.map fun (p, r) => ((s.names.get? p).getD p.text, r)
  named.mergeSort fun a b => a.1 ≤ b.1

/-- The counts as a table: the local peer first, then the others by name. The first column is as
wide as the longest name has bytes. -/
def table (s : Scenario) : String :=
  let remotes := s.sortedRemotes
  let width := ("peer" :: "local" :: remotes.map (·.1)).foldl (fun w n => max w n.utf8ByteSize) 0
  s!"core length: {s.length}\n\n" ++
  row width "peer" ["have", "want", "wanted", "missing"] "connected" ++
  row width "local" (cells s.counts.localPeer) "-" ++
  String.join (remotes.map fun (name, r) =>
    row width name (cells r.counts) (if r.connected then "yes" else "no"))

/-- The counts as JSON. -/
def json (s : Scenario) : String := s.counts.toJson.pretty ++ "\n"

end Scenario

end LogSync
