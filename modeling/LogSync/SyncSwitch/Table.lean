import LogSync.SyncSwitch
import LogSync.Text.Column

/-!
# The table of verdicts

Every combination of the inputs of an evaluation, with its outcome, as a printed table.
-/

namespace LogSync.Verdict

/-- A truth value in words. -/
def yesNo (b : Bool) : String := if b then "yes" else "no"

/-- One line of the table. -/
def row (wantsData fullStop synced : Bool) : String :=
  let v := Verdict.of wantsData fullStop synced
  let autostop := match v.autostop with
    | .arm => "arm"
    | .cancel => "cancel"
  "  ".intercalate [
    Column.left 10 (yesNo wantsData), Column.left 9 (yesNo fullStop), Column.left 6 (yesNo synced),
    "->", Column.left 7 v.state.name, autostop] ++ "\n"

/-- The whole table. -/
def table : String :=
  let both := [false, true]
  "wants data  full stop  synced  ->  state    autostop\n" ++
  String.join (both.flatMap fun wantsData => both.flatMap fun fullStop => both.map fun synced =>
    row wantsData fullStop synced) ++
  "\nOnce a full stop reaches none, sync stays none until the request is rescinded.\n"

end LogSync.Verdict
