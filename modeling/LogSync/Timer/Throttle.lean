/-!
# The throttle

Gathers bursts of changes into single runs, an interval apart.
-/

namespace LogSync

/-- When the last run was and the next one will be. -/
structure Throttle where
  interval : Nat
  lastRun : Option Nat := none
  deadline : Option Nat := none
deriving DecidableEq, Repr

namespace Throttle

/-- Asks for a run: at once, or an interval after the last one if that is later. A run that was
asked for already stays where it is. -/
def notify (t : Throttle) (now : Nat) : Throttle :=
  if t.deadline.isSome then t
  else { t with deadline := some (max (t.lastRun.elim now (· + t.interval)) now) }

/-- Whether a run was asked for. -/
def isPending (t : Throttle) : Bool := t.deadline.isSome

/-- Takes the run if its time has come; tells whether it has. -/
def fire (t : Throttle) (now : Nat) : Throttle × Bool :=
  if t.deadline.any (· ≤ now) then ({ t with deadline := none, lastRun := some now }, true)
  else (t, false)

end Throttle

end LogSync
