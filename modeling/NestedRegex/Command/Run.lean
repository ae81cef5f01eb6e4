import NestedRegex.Command.Host
import NestedRegex.Command.Options
import NestedRegex.Forest.Read
import NestedRegex.Pass.Run
import NestedRegex.Value.Json

namespace NestedRegex.Command

/-- What the command leaves behind: its exit code and what it wrote to the standard streams. -/
structure Reply where
  code : Nat
  output : String
  errors : String
  deriving DecidableEq

/-- The name and version of the command. -/
def versionText : String :=
  "twigc 0.1.0\n"

def usageText : String :=
  "Usage: twigc [OPTIONS] <FILE>\n\n" ++
  "Arguments:\n  <FILE>  Tree in nested-array JSON form; `-` reads stdin\n\n" ++
  "Options:\n" ++
  "  -p, --pass <PASS>    Pass to run [default: all] [possible values: " ++
  ", ".intercalate (Pass.list.map Pass.name) ++ "]\n" ++
  "  -c, --compact        Write JSON on one line\n" ++
  "  -o, --output <FILE>  Output file (default: stdout)\n" ++
  "  -h, --help           Print help\n" ++
  "  -V, --version        Print version\n"

/-- The reply to arguments that are no options. -/
def Refusal.reply : Refusal → Reply
  | .help => ⟨0, usageText, ""⟩
  | .version => ⟨0, versionText, ""⟩
  | .invalid => ⟨2, "", ""⟩

/-- The reply to an error. -/
def failed (message : String) : Reply :=
  ⟨1, "", "error: " ++ message ++ "\n"⟩

/-- What is to be written, and where. -/
inductive Product where
  /-- Lines for the standard output, and nothing else. -/
  | report (lines : List String)
  /-- A document for the file or the standard output, and a line on the number of matches. -/
  | document (text : String) (found : Nat)
  deriving DecidableEq

/-- The number of matches, in words. -/
def matchCount (found : Nat) : String :=
  found.repr ++ " match(es)"

def failureMessage (message : ε → String) : Failure ε → String
  | .error e => message e
  | .fault f => f.message

/-- Run a pass over the tree of a text. -/
def produce (pass : Pass) (layout : Json.Layout) (text : String) : Except String Product := do
  let value ← (Value.parse text).mapError Value.ParseError.message
  let result := pass.run (Forest.ofValue value)
  let report ← result.outcome.mapError (failureMessage Pass.Error.message)
  if pass = .repeats then
    return .report (report.findings ++ [matchCount report.found])
  else
    let value ← result.forest.toValue.mapError Fault.message
    return .document (value.render layout) report.found

/-- The text to read. -/
def input [Monad m] (host : Host m) (path : String) : m (Except FileError String) :=
  if path = "-" then host.readInput else host.readFile path

/-- Write what was produced. A report goes to the standard output even if a file is named. -/
def deliver [Monad m] (host : Host m) (target : Option String) : Product → m Reply
  | .report lines => return ⟨0, String.join (lines.map (· ++ "\n")), ""⟩
  | .document text found => do
    let errors := matchCount found ++ " rewritten\n"
    match target with
    | none => return ⟨0, text ++ "\n", errors⟩
    | some path =>
      match ← host.writeFile path (text ++ "\n") with
      | .ok () => return ⟨0, "", errors⟩
      | .error e => return failed ("failed to write " ++ path ++ ": " ++ e.message)

/-- Do what the options ask for. -/
def perform [Monad m] (host : Host m) (options : Options) : m Reply := do
  match ← input host options.input with
  | .error e => return failed ("failed to read " ++ options.input ++ ": " ++ e.message)
  | .ok text =>
    match produce options.pass options.layout text with
    | .error message => return failed message
    | .ok product => deliver host options.output product

/-- Run the command with some arguments. -/
def run [Monad m] (host : Host m) (arguments : List String) : m Reply :=
  match Options.ofArguments arguments with
  | .ok options => perform host options
  | .error refusal => return refusal.reply

end NestedRegex.Command
