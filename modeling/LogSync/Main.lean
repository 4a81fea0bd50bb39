import LogSync.Scenario
import LogSync.Settings.Reader
import LogSync.SyncSwitch.Table

/-!
# The command line

Three commands: `derive` prints the counts of a scenario, `table` the table of verdicts, and
`check-config` the settings of a file. What a command prints goes to standard output; a complaint
goes to the error output, with an exit code that is not zero.
-/

namespace LogSync

/-- What the command line asks for. -/
inductive Command where
  /-- Print the counts of the scenario in a file, as a table or as JSON. -/
  | derive (path : String) (json : Bool)
  | table
  /-- Print the settings in a file. -/
  | checkConfig (path : String)
deriving DecidableEq, Repr

namespace Command

/-- How to call the program. -/
def usage : String := "usage: logsync (derive SCENARIO [--json] | table | check-config CONFIG)"

/-- The command of some arguments. -/
def ofArguments? : List String → Option Command
  | ["derive", path] => some (.derive path false)
  | ["derive", "--json", path] | ["derive", path, "--json"] => some (.derive path true)
  | ["table"] => some .table
  | ["check-config", path] => some (.checkConfig path)
  | _ => none

/-- What a command prints, given the text of the file that it names, or the complaint. -/
def output (contents : String) : Command → Except String String
  | .derive _ json =>
    match Scenario.read contents with
    | .ok s => .ok (if json then s.json else s.table)
    | .error e => .error (e.message?.getD "the scenario cannot be read")
  | .table => .ok Verdict.table
  | .checkConfig _ =>
    match Settings.read contents with
    | .ok s => .ok s.summary
    | .error e => .error (e.message?.getD "the settings cannot be read")

/-- The file that a command reads, if it reads one. -/
def path? : Command → Option String
  | .derive path _ | .checkConfig path => some path
  | .table => none

end Command

end LogSync

/-- Runs the command that the arguments ask for. -/
def main (arguments : List String) : IO UInt32 := do
  match LogSync.Command.ofArguments? arguments with
  | none =>
    IO.eprintln LogSync.Command.usage
    return 2
  | some command =>
    let contents ← command.path?.elim (pure "") fun path => IO.FS.readFile path
    match command.output contents with
    | .ok text =>
      IO.print text
      return 0
    | .error complaint =>
      IO.eprintln complaint
      return 1
