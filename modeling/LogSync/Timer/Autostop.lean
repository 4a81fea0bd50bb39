import LogSync.SyncError
import LogSync.SyncSwitch

/-!
# The autostop timer

Stops the sync of data after a quiet period, in which no new data has come in.
-/

namespace LogSync

/-- Accepts a timeout that is off, or a whole number of milliseconds in range. -/
def validateAutostop (after : Option Nat) : Except SyncError (Option Nat) :=
  match after with
  | none => .ok none
  | some d =>
    if d % 1000000 = 0 ∧ 1 ≤ d / 1000000 ∧ d / 1000000 ≤ maxAutostopMillis then .ok (some d)
    else .error (.invalidAutostop d)

/-- The timer, and what it has seen of the data. -/
structure Autostop where
  /-- How long the quiet period is; `none` if the timer is off. -/
  after : Option Nat := none
  deadline : Option Nat := none
  /-- The number of local data blocks at the last evaluation. -/
  lastOwned : Option Nat := none
deriving DecidableEq, Repr, Inhabited

namespace Autostop

/-- Stops the timer. -/
def cancel (a : Autostop) : Autostop := { a with deadline := none }

/-- Changes the length of the quiet period; the timer stops. -/
def setAfter (a : Autostop) (after : Option Nat) : Autostop := { a.cancel with after }

/-- Looks at the number of local data blocks. Tells whether it is another than last time; if so,
the period was not quiet, and the timer stops. -/
def observe (a : Autostop) (owned : Nat) : Autostop × Bool :=
  let changed := a.lastOwned != some owned
  ({ (if changed then a.cancel else a) with lastOwned := some owned }, changed)

/-- Starts the timer, unless it is off or runs already, or stops it. -/
def apply (a : Autostop) (action : AutostopAction) (now : Nat) : Autostop :=
  match action, a.after, a.deadline with
  | .cancel, _, _ => a.cancel
  | .arm, some after, none => { a with deadline := some (now + after) }
  | .arm, _, _ => a

/-- Whether the timer runs. -/
def isArmed (a : Autostop) : Bool := a.deadline.isSome

/-- Ends the timer if its deadline has come; tells whether it has. -/
def fire (a : Autostop) (now : Nat) : Autostop × Bool :=
  if a.deadline.any (· ≤ now) then (a.cancel, true) else (a, false)

end Autostop

end LogSync
