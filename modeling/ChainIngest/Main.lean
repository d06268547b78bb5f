import ChainIngest.Command.Report
import ChainIngest.Command.Usage
import ChainIngest.Json.Parser
import ChainIngest.Scripted.Terminal
/-!
# The program

Runs the process with the arguments and the environment that it was started with.
What the node, the database, the operator and the clock say is read from standard
input, as one line of JSON.
-/

namespace ChainIngest.Command

def variableNames : List String :=
  filterVariable :: Setting.all.filterMap Setting.inEnvironment

def environment : IO (String → Option String) := do
  let found ← variableNames.filterMapM fun v => do return (← IO.getEnv v).map fun text => (v, text)
  return fun name => (found.find? fun m => m.1 = name).map Prod.snd

def Refusal.text : Refusal → String
  | .help => usage
  | .version => Command.version
  | e => "error: " ++ e.label

def Line.text (json : Bool) : Line → String
  | .record r => if json then r.toJson.compact else r.line
  | .question text => text

def start (lookUp : String → Option String) (o : Options) : IO UInt32 := do
  let script := (Json.parse? (← (← IO.getStdin).getLine)).getD (.obj [])
  let clock := Scripted.Fixture.readInt (Scripted.Fixture.member script "clock")
  match Scripted.Terminal.read script with
  | .error e =>
    IO.eprintln ("error: " ++ e)
    return 2
  | .ok terminal =>
    let host := Scripted.Terminal.host (clock.toOption.getD 0) 1000000
    let (shown, _) := report host lookUp o terminal
    for line in shown.lines do
      IO.println (line.text o.jsonLogs)
    if let some f := shown.fault then
      IO.eprintln ("Error: " ++ f.text)
    return shown.exitCode.toUInt32

end ChainIngest.Command

def main (arguments : List String) : IO UInt32 := do
  let lookUp ← ChainIngest.Command.environment
  match ChainIngest.Command.Options.ofArguments arguments lookUp with
  | .ok o => ChainIngest.Command.start lookUp o
  | .error e =>
    IO.println e.text
    return e.exitCode.toUInt32
