import LogSync.Settings
import LogSync.Toml.Reader

/-!
# Reading settings

Settings are written as a TOML document. Everything in it may be left out, and what is unknown is
passed over. The entries are looked at in the order in which they were written, so of several
faults the first one is reported; only when all entries are read are the settings checked.
-/

namespace LogSync

/-- Why a text does not give settings. -/
inductive SettingsError where
  /-- The text is no document, or a value is not of its type. -/
  | unreadable
  /-- The namespaces make no plan. -/
  | badPlan (reason : PlanError)
  /-- A value is out of range. -/
  | invalid (reason : SyncError)
deriving DecidableEq

/-- What is wrong, in words, unless the text itself cannot be read. -/
def SettingsError.message? : SettingsError → Option String
  | unreadable => none
  | badPlan reason => some (SyncError.invalidPlan reason).message
  | invalid reason => some ("invalid config: " ++ reason.message)

/-- A value, or the complaint that there is none. -/
def orUnreadable {α : Type} : Option α → Except SettingsError α
  | some a => .ok a
  | none => .error .unreadable

/-- Reads a namespace. -/
def Namespace.ofToml? (v : Toml) : Option Namespace := v.choice?.bind ofName?

/-- Reads a list of namespaces; one that is missing has a standard value. -/
def Namespace.listOfToml? (standard : List Namespace) : Option Toml → Option (List Namespace)
  | none => some standard
  | some v => v.items?.bind (·.mapM ofToml?)

/-- Reads a namespace plan. A list that is missing is that of the standard plan. -/
def NamespacePlan.ofToml (v : Toml) : Except SettingsError NamespacePlan :=
  match v.record? ["all", "presync"] with
  | some [tracked, presync] => do
    let tracked ← orUnreadable (Namespace.listOfToml? standard.tracked tracked)
    let presync ← orUnreadable (Namespace.listOfToml? standard.presync presync)
    (ofLists tracked presync).mapError .badPlan
  | _ => .error .unreadable

namespace Settings

/-- Takes one entry over. -/
def set (s : Settings) (key : String) (v : Toml) : Except SettingsError Settings :=
  match key with
  | "throttle_ms" => do return { s with throttleMillis := ← orUnreadable v.nat? }
  | "discovery_key_grace_ms" => do return { s with graceMillis := ← orUnreadable v.nat? }
  | "autostop_data_sync_after_ms" => do
    return { s with autostopMillis := some (← orUnreadable v.nat?) }
  | "namespaces" => do return { s with plan := ← NamespacePlan.ofToml v }
  | _ => .ok s

/-- The settings that a text gives. -/
def read (text : String) : Except SettingsError Settings := do
  let entries ← orUnreadable (Toml.read? text)
  let s ← entries.foldlM (fun s (key, v) => s.set key v) ({} : Settings)
  s.validate.mapError .invalid

/-- The settings for people to read, one to a line. -/
def summary (s : Settings) : String :=
  let names (l : List Namespace) := ", ".intercalate (l.map (·.name))
  "throttle:            " ++ Duration.text s.throttle ++ "\n" ++
  "discovery key grace: " ++ Duration.text s.grace ++ "\n" ++
  "autostop:            " ++ s.autostop.elim "off" Duration.text ++ "\n" ++
  "namespaces:          " ++ names s.plan.tracked ++ "\n" ++
  "presync:             " ++ names s.plan.presync ++ "\n"

end Settings

end LogSync
