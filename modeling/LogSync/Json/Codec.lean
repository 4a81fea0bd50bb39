import LogSync.Engine
import LogSync.Json

/-!
# The data model as JSON

How each type of the data model is written, `toJson`, and how it is read back, `ofJson?`. Readers
are more liberal than writers: fields may stand in any order and among unknown ones, a list counts
as an object's fields in their order, and digits of identifiers may be in either case.

Where a peer's counts and one more field share an object, all of its fields are kept until it is
known whose they are; see `Json.openRecord?`.
-/

namespace LogSync

/-! ## Identifiers and names -/

/-- An identifier is written as its digits. -/
def Identifier.toJson (i : Identifier) : Json := .ofText i.text

/-- Reads the digits of an identifier. -/
def Identifier.ofJson? (v : Json) : Option Identifier := v.text?.bind Identifier.read?

/-- A peer is written as its identifier. -/
def PeerId.toJson (p : PeerId) : Json := p.id.toJson

/-- Reads the identifier of a peer. -/
def PeerId.ofJson? (v : Json) : Option PeerId := (Identifier.ofJson? v).map .mk

/-- A discovery key is written as its identifier. -/
def DiscoveryKey.toJson (k : DiscoveryKey) : Json := k.id.toJson

/-- Reads the identifier of a discovery key. -/
def DiscoveryKey.ofJson? (v : Json) : Option DiscoveryKey := (Identifier.ofJson? v).map .mk

/-- Reads a choice among values with names. -/
def Json.oneOf? {α : Type} (choices : List α) (name : α → String) (v : Json) : Option α :=
  v.choice?.bind fun s => choices.find? (name · == s)

/-- A namespace is written as its name. -/
def Namespace.toJson (ns : Namespace) : Json := .ofText ns.name

/-- Reads the name of a namespace. -/
def Namespace.ofJson? (v : Json) : Option Namespace := v.oneOf? Namespace.all Namespace.name

/-- An enabled state is written as its name. -/
def EnabledState.toJson (s : EnabledState) : Json := .ofText s.name

/-- Reads the name of an enabled state. -/
def EnabledState.ofJson? (v : Json) : Option EnabledState := v.oneOf? [.none, .presync, .all] name

/-- The written name of a goal. -/
def SyncGoal.name : SyncGoal → String
  | initial => "initial"
  | full => "full"

/-- A goal is written as its name. -/
def SyncGoal.toJson (g : SyncGoal) : Json := .ofText g.name

/-- Reads the name of a goal. -/
def SyncGoal.ofJson? (v : Json) : Option SyncGoal := v.oneOf? [.initial, .full] name

/-- The written name of a capability. -/
def Capability.name : Capability → String
  | blocked => "blocked"
  | allowed => "allowed"

/-- A capability is written as its name. -/
def Capability.toJson (c : Capability) : Json := .ofText c.name

/-- Reads the name of a capability. -/
def Capability.ofJson? (v : Json) : Option Capability := v.oneOf? [.blocked, .allowed] name

/-- The written name of a status. -/
def PeerStatus.name : PeerStatus → String
  | disconnected => "disconnected"
  | connecting => "connecting"
  | connected => "connected"

/-- A status is written as its name. -/
def PeerStatus.toJson (s : PeerStatus) : Json := .ofText s.name

/-- Reads the name of a status. -/
def PeerStatus.ofJson? (v : Json) : Option PeerStatus :=
  v.oneOf? [.disconnected, .connecting, .connected] name

/-! ## Numbers, lists and maps -/

/-- Reads a count. -/
def Json.count? (v : Json) : Option Nat := v.natBelow? countBound

/-- Reads a word. -/
def Json.word? (v : Json) : Option Word := (v.natBelow? 0x100000000).map (.ofNat 32)

/-- Reads a list. -/
def Json.list? {α : Type} (item : Json → Option α) (v : Json) : Option (List α) :=
  v.items?.bind (·.mapM item)

/-- A map from peers is written as an object with their digits as names. -/
def peersToJson {α : Type} (value : α → Json) (m : SortedMap PeerId α) : Json :=
  .ofFields (m.toList.map fun (p, a) => (p.text, value a))

/-- Reads a map from peers. A peer that is named twice has the last value. -/
def peersOfJson? {α : Type} (value : Json → Option α) (v : Json) : Option (SortedMap PeerId α) := do
  let fields ← v.namedFields?
  let entries ← fields.mapM fun (name, v) => do
    return ((← Identifier.read? name |>.map PeerId.mk), ← value v)
  return .ofList entries

/-- A namespace plan is written as its two lists. -/
def NamespacePlan.toJson (p : NamespacePlan) : Json :=
  .ofFields [
    ("all", .array (p.tracked.map (·.toJson))),
    ("presync", .array (p.presync.map (·.toJson)))]

/-- Reads a namespace plan. A list that is missing is that of the standard plan. -/
def NamespacePlan.ofJson? (v : Json) : Option NamespacePlan :=
  match v.record? ["all", "presync"] with
  | some [tracked, presync] => do
    let read (field : Option Json) (standard : List Namespace) :=
      field.elim (some standard) (Json.list? Namespace.ofJson?)
    let tracked ← read tracked standard.tracked
    let presync ← read presync standard.presync
    (ofLists tracked presync).toOption
  | _ => none

/-! ## Snapshots -/

/-- The progress over a group, as an object. -/
def GroupProgress.toJson (g : GroupProgress) : Json :=
  .ofFields
    [("isEnabled", .bool g.isEnabled), ("want", .natural g.want), ("wanted", .natural g.wanted)]

/-- Reads the progress over a group. -/
def GroupProgress.ofJson? (v : Json) : Option GroupProgress :=
  match v.record? ["isEnabled", "want", "wanted"] with
  | some [some isEnabled, some want, some wanted] =>
    return ⟨← isEnabled.bool?, ← want.count?, ← wanted.count?⟩
  | _ => none

/-- The progress of a peer, as an object. -/
def DeviceProgress.toJson (d : DeviceProgress) : Json :=
  .ofFields [("initial", d.initial.toJson), ("data", d.data.toJson)]

/-- Reads the progress of a peer. -/
def DeviceProgress.ofJson? (v : Json) : Option DeviceProgress :=
  match v.record? ["initial", "data"] with
  | some [some initial, some data] =>
    return ⟨← GroupProgress.ofJson? initial, ← GroupProgress.ofJson? data⟩
  | _ => none

/-- Whether a group is enabled, as an object. -/
def enabledToJson (b : Bool) : Json := .ofFields [("isSyncEnabled", .bool b)]

/-- Reads whether a group is enabled. -/
def enabledOfJson? (v : Json) : Option Bool :=
  match v.record? ["isSyncEnabled"] with
  | some [some b] => b.bool?
  | _ => none

/-- A snapshot, as an object. -/
def SyncSnapshot.toJson (s : SyncSnapshot) : Json :=
  .ofFields [
    ("initial", enabledToJson s.initialEnabled),
    ("data", enabledToJson s.dataEnabled),
    ("deviceSyncState", peersToJson DeviceProgress.toJson s.devices)]

/-- Reads a snapshot. -/
def SyncSnapshot.ofJson? (v : Json) : Option SyncSnapshot :=
  match v.record? ["initial", "data", "deviceSyncState"] with
  | some [some initial, some data, some devices] =>
    return ⟨← enabledOfJson? initial, ← enabledOfJson? data,
      ← peersOfJson? DeviceProgress.ofJson? devices⟩
  | _ => none

/-! ## Messages -/

/-- A pre-have message, as an object. -/
def PreHaveMessage.toJson (m : PreHaveMessage) : Json :=
  .ofFields [
    ("discoveryKey", m.key.toJson),
    ("namespace", m.ns.toJson),
    ("start", .natural m.start),
    ("words", .array (m.words.map fun w => .natural w.toNat))]

/-- Reads a pre-have message. -/
def PreHaveMessage.ofJson? (v : Json) : Option PreHaveMessage :=
  match v.record? ["discoveryKey", "namespace", "start", "words"] with
  | some [some key, some ns, some start, some words] =>
    return ⟨← DiscoveryKey.ofJson? key, ← Namespace.ofJson? ns, ← start.count?,
      ← words.list? Json.word?⟩
  | _ => none

/-- A range of blocks, as an object. -/
def BlockRange.toJson (r : BlockRange) : Json :=
  .ofFields [("start", .natural r.start), ("length", .natural r.length)]

/-- Reads a range of blocks. -/
def BlockRange.ofJson? (v : Json) : Option BlockRange :=
  match v.record? ["start", "length"] with
  | some [some start, some length] => return ⟨← start.count?, ← length.count?⟩
  | _ => none

/-! ## Counts -/

/-- The names of the four counts. -/
def BlockCounts.fieldNames : List String := ["have", "want", "wanted", "missing"]

/-- The four counts, as fields of an object. -/
def BlockCounts.toFields (c : BlockCounts) : List (String × Json) :=
  fieldNames.zip [.natural c.owned, .natural c.want, .natural c.wanted, .natural c.missing]

/-- Counts, as an object. -/
def BlockCounts.toJson (c : BlockCounts) : Json := .ofFields c.toFields

/-- Reads the four counts from their fields. -/
def BlockCounts.ofFields? : List (Option Json) → Option BlockCounts
  | [some owned, some want, some wanted, some missing] =>
    return ⟨← owned.count?, ← want.count?, ← wanted.count?, ← missing.count?⟩
  | _ => none

/-- Reads counts. -/
def BlockCounts.ofJson? (v : Json) : Option BlockCounts :=
  (v.record? fieldNames).bind ofFields?

/-- The counts of a remote peer, as one object. -/
def RemoteCounts.toJson (r : RemoteCounts) : Json :=
  .ofFields (r.counts.toFields ++ [("connected", .bool r.connected)])

/-- Reads the counts of a remote peer, inside of `outer` other objects. -/
def RemoteCounts.ofJson? (outer : Nat) (v : Json) : Option RemoteCounts :=
  match v.openRecord? outer ["connected"] BlockCounts.fieldNames with
  | some (some connected :: counts) => do
    let connected ← connected.bool?
    return ⟨← BlockCounts.ofFields? counts, connected⟩
  | _ => none

/-- The counts of a core, as an object. -/
def CoreCounts.toJson (c : CoreCounts) : Json :=
  .ofFields [
    ("coreLength", .natural c.length),
    ("localState", c.localPeer.toJson),
    ("remoteStates", peersToJson RemoteCounts.toJson c.remotes)]

/-- Reads the counts of a core. -/
def CoreCounts.ofJson? (v : Json) : Option CoreCounts :=
  match v.record? ["coreLength", "localState", "remoteStates"] with
  | some [some length, some localPeer, some remotes] =>
    return ⟨← length.count?, ← BlockCounts.ofJson? localPeer,
      ← peersOfJson? (RemoteCounts.ofJson? 2) remotes⟩
  | _ => none

/-- The counts of a peer of a namespace, as one object. -/
def NamespacePeer.toJson (p : NamespacePeer) : Json :=
  .ofFields (p.counts.toFields ++ [("status", p.status.toJson)])

/-- Reads the counts of a peer of a namespace, inside of `outer` other objects. -/
def NamespacePeer.ofJson? (outer : Nat) (v : Json) : Option NamespacePeer :=
  match v.openRecord? outer ["status"] BlockCounts.fieldNames with
  | some (some status :: counts) => do
    let status ← PeerStatus.ofJson? status
    return ⟨← BlockCounts.ofFields? counts, status⟩
  | _ => none

/-- The counts of a namespace, as an object. -/
def NamespaceState.toJson (s : NamespaceState) : Json :=
  .ofFields [
    ("coreCount", .natural s.coreCount),
    ("dataToSync", .bool s.dataToSync),
    ("localState", s.localPeer.toJson),
    ("remoteStates", peersToJson NamespacePeer.toJson s.remotes)]

/-- Reads the counts of a namespace. -/
def NamespaceState.ofJson? (v : Json) : Option NamespaceState :=
  match v.record? ["coreCount", "dataToSync", "localState", "remoteStates"] with
  | some [some coreCount, some dataToSync, some localPeer, some remotes] =>
    return ⟨← coreCount.count?, ← dataToSync.bool?, ← BlockCounts.ofJson? localPeer,
      ← peersOfJson? (NamespacePeer.ofJson? 2) remotes⟩
  | _ => none

/-- The capabilities of a peer, as an object with the namespaces as names. -/
def Capabilities.toJson (c : Capabilities) : Json :=
  .ofFields (c.toList.map fun (ns, c) => (ns.name, c.toJson))

end LogSync
