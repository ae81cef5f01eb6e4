import NestedRegex.Json.Writer
import NestedRegex.Pass.Rules

namespace NestedRegex.Command

/-- What the command is asked to do. -/
structure Options where
  /-- The file to read; `-` is the standard input. -/
  input : String
  pass : Pass
  layout : Json.Layout
  /-- The file to write; with none, the result goes to the standard output. -/
  output : Option String
  deriving DecidableEq

/-- Why arguments are no options. -/
inductive Refusal where
  | help
  | version
  | invalid
  deriving DecidableEq

/-- An option that takes a value. -/
inductive Valued where
  | pass
  | output
  deriving DecidableEq

/-- The arguments read so far. -/
structure Reading where
  input : Option String := none
  pass : Option Pass := none
  compact : Bool := false
  output : Option String := none
  /-- An option whose value is the next argument. -/
  awaiting : Option Valued := none
  /-- Every further argument is a file, even one that begins with a dash. -/
  filesOnly : Bool := false
  deriving DecidableEq

namespace Reading

/-- Take the file to read. There is only one, and its name is not empty. -/
def file (r : Reading) (name : String) : Except Refusal Reading :=
  if r.input.isSome || name = "" then .error .invalid else .ok { r with input := some name }

/-- Take the value of an option, which may be given only once. -/
def value (r : Reading) (option : Valued) (text : String) : Except Refusal Reading :=
  match option with
  | .pass =>
    match r.pass, Pass.ofName? text with
    | none, some pass => .ok { r with pass := some pass, awaiting := none }
    | _, _ => .error .invalid
  | .output =>
    if r.output.isSome || text = "" then .error .invalid
    else .ok { r with output := some text, awaiting := none }

def markCompact (r : Reading) : Except Refusal Reading :=
  if r.compact then .error .invalid else .ok { r with compact := true }

/-- Take an option such as `--pass` or `--pass=all`, without its dashes. -/
def long (r : Reading) (option : List Char) : Except Refusal Reading :=
  let name := option.takeWhile (· ≠ '=')
  let inlineValue := (option.dropWhile (· ≠ '=')).tail?.map String.ofList
  let valued (v : Valued) : Except Refusal Reading :=
    match inlineValue with
    | some text => r.value v text
    | none => .ok { r with awaiting := some v }
  match String.ofList name, inlineValue with
  | "pass", _ => valued .pass
  | "output", _ => valued .output
  | "compact", none => r.markCompact
  | "help", none => .error .help
  | "version", none => .error .version
  | _, _ => .error .invalid

/-- Take options of one letter, such as `-cp` or `-pall` or `-p=all`, without their dash. -/
def short (r : Reading) : List Char → Except Refusal Reading
  | [] => .ok r
  | c :: cs =>
    let valued (v : Valued) : Except Refusal Reading :=
      match cs with
      | [] => .ok { r with awaiting := some v }
      | '=' :: text => r.value v (String.ofList text)
      | text => r.value v (String.ofList text)
    match c with
    | 'p' => valued .pass
    | 'o' => valued .output
    | 'c' =>
      match r.markCompact with
      | .ok r => r.short cs
      | .error e => .error e
    | 'h' => .error .help
    | 'V' => .error .version
    | _ => .error .invalid

/-- Take one argument. A dash by itself is a value or a file. -/
def argument (r : Reading) (text : String) : Except Refusal Reading :=
  if r.filesOnly then r.file text
  else
    match text.toList, r.awaiting with
    | ['-'], none => r.file text
    | ['-'], some v => r.value v text
    | ['-', '-'], none => .ok { r with filesOnly := true }
    | '-' :: '-' :: option, none => r.long option
    | '-' :: options, none => r.short options
    | '-' :: _, some _ => .error .invalid
    | _, none => r.file text
    | _, some v => r.value v text

/-- The options of all arguments. The pass is `all` unless another is asked for. -/
def options (r : Reading) : Except Refusal Options :=
  match r.awaiting, r.input with
  | none, some input =>
    .ok ⟨input, r.pass.getD .all, if r.compact then .compact else .pretty, r.output⟩
  | _, _ => .error .invalid

end Reading

/-- Read arguments from left to right; the first that cannot be taken decides. -/
def Options.ofArguments (arguments : List String) : Except Refusal Options := do
  (← arguments.foldlM Reading.argument {}).options

end NestedRegex.Command
