import LogSync.SyncState

/-!
# What is synced, and when

Three inputs decide which namespaces are synced:

* whether data was asked for;
* whether a full stop was requested, which is granted once everything is synced;
* whether everything is synced.

A full stop that was granted holds until the request is rescinded, whatever else happens.
-/

namespace LogSync

/-- What an evaluation means for the autostop timer. -/
inductive AutostopAction where
  | arm | cancel
deriving DecidableEq, Repr, Inhabited

/-- The outcome of an evaluation. -/
structure Verdict where
  state : EnabledState
  autostop : AutostopAction
deriving DecidableEq, Repr

/-- The outcome for each combination of inputs. -/
def Verdict.of (wantsData fullStop synced : Bool) : Verdict where
  state :=
    if fullStop && synced then .none
    else if wantsData then .all
    else .presync
  autostop := if wantsData && !fullStop && synced then .arm else .cancel

/-- The inputs that users control, and the state that the last evaluation came to. -/
structure SyncSwitch where
  wantsData : Bool := false
  fullStop : Bool := false
  current : EnabledState := .none
deriving DecidableEq, Repr, Inhabited

namespace SyncSwitch

/-- Asks for data. -/
def start (s : SyncSwitch) : SyncSwitch := { s with wantsData := true }

/-- No longer asks for data. -/
def stop (s : SyncSwitch) : SyncSwitch := { s with wantsData := false }

/-- Requests a full stop. -/
def requestFullStop (s : SyncSwitch) : SyncSwitch := { s with fullStop := true }

/-- Takes the request for a full stop back. -/
def rescindFullStop (s : SyncSwitch) : SyncSwitch := { s with fullStop := false }

/-- What the next evaluation takes "synced" to mean. -/
def goal (s : SyncSwitch) : SyncGoal := if s.wantsData then .full else .initial

/-- Whether a full stop was granted and not rescinded. -/
def isHeld (s : SyncSwitch) : Bool := s.fullStop && s.current == .none

/-- The outcome of an evaluation. -/
def verdict (s : SyncSwitch) (synced : Bool) : Verdict :=
  if s.isHeld then ⟨.none, .cancel⟩ else .of s.wantsData s.fullStop synced

/-- Evaluates, and remembers the state. -/
def evaluate (s : SyncSwitch) (synced : Bool) : SyncSwitch × Verdict :=
  ({ s with current := (s.verdict synced).state }, s.verdict synced)

end SyncSwitch

end LogSync
