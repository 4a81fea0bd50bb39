import LogSync.Duration
import LogSync.Timer.Autostop

/-!
# Settings

What can be configured, and the values that hold without configuration.
-/

namespace LogSync

/-- The configuration of a sync engine. -/
structure Settings where
  /-- The least time between evaluations that changes of cores ask for. -/
  throttleMillis : Nat := 200
  /-- How long announced keys of unknown cores are kept. -/
  graceMillis : Nat := 500
  /-- The quiet period after which the sync of data stops itself, if it does. -/
  autostopMillis : Option Nat := none
  plan : NamespacePlan := .standard
deriving DecidableEq, Inhabited

namespace Settings

/-- The interval of the throttle. -/
def throttle (s : Settings) : Nat := Duration.ofMillis s.throttleMillis

/-- The grace period of announced keys. -/
def grace (s : Settings) : Nat := Duration.ofMillis s.graceMillis

/-- The quiet period of the autostop timer. -/
def autostop (s : Settings) : Option Nat := s.autostopMillis.map Duration.ofMillis

/-- Accepts settings whose autostop timeout is in range. -/
def validate (s : Settings) : Except SyncError Settings :=
  (validateAutostop s.autostop).map fun _ => s

end Settings

end LogSync
