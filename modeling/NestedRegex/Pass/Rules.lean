import NestedRegex.Program.Compile

namespace NestedRegex

/-- The built-in passes over a tree. -/
inductive Pass where
  /-- Write names, parameters and declared names in upper case. -/
  | upcaseNames
  /-- Turn `<=` and `>=` in conditions around and exchange their branches. -/
  | flipCompare
  /-- Put the only statement of a block in the place of the block. -/
  | unwrapBlocks
  /-- All of the above in one search. -/
  | all
  /-- Report runs of a repeated node and change nothing. -/
  | repeats
  deriving DecidableEq

namespace Pass

/-- The name that a pass is asked for by. -/
def name : Pass → String
  | .upcaseNames => "upcase-names"
  | .flipCompare => "flip-compare"
  | .unwrapBlocks => "unwrap-blocks"
  | .all => "all"
  | .repeats => "repeats"

/-- All passes, in the order in which they are listed. -/
def list : List Pass :=
  [.upcaseNames, .flipCompare, .unwrapBlocks, .all, .repeats]

def ofName? (name : String) : Option Pass :=
  list.find? (·.name = name)

open Pattern

/-- A name. -/
def namePattern : Pattern :=
  .sequence [string "name", capture "thing"]

/-- A function with its name, if it has one, its parameters and its body. -/
def functionPattern : Pattern :=
  .sequence [
    .choice [string "function", string "defun"],
    .choice [.named "thing" [holds "not_null" fun _ n => !n.isNull], .any],
    capture "args",
    .any]

/-- A property of an object. -/
def propertyPattern : Pattern :=
  .sequence [string "dot", .any, capture "thing"]

/-- A list of declarations. -/
def declarationsPattern : Pattern :=
  .sequence [.choice [string "var", string "const", string "object"], capture "defs"]

/-- A comparison by one of the operators that are turned around. -/
def conditionPattern : Pattern :=
  .sequence [string "binary", .named "operator" [.choice [string "<=", string ">="]], .any, .any]

/-- What the pass for names looks at. -/
def namingRules : List Pattern :=
  [namePattern, functionPattern, propertyPattern, declarationsPattern]

/-- A condition that compares by `<=` or `>=`, with both branches. -/
def comparisonRule : Pattern :=
  .sequence [string "if", conditionPattern, capture "t", capture "e"]

/-- A block of one statement. -/
def singleBlock : Pattern :=
  .named "one_block" [.sequence [string "block", .sequence [capture "one_stat", .atEnd]]]

/-- The end of a sequence that is `x`, `y`, more of `y`, and `x`, `y` again. -/
def repeatedRun : List Pattern :=
  [captureSpan "F1" [.any, capture "F2"], .oneOrMore (.backRef "F2"), .backRef "F1", .atEnd]

/-- The items that a pass searches for. -/
def items : Pass → List Pattern
  | .upcaseNames => [.choice namingRules]
  | .flipCompare => [comparisonRule]
  | .unwrapBlocks => [singleBlock]
  | .all => [.choice (namingRules ++ [comparisonRule, singleBlock])]
  | .repeats => repeatedRun

/-- The program of a pass. -/
def program (pass : Pass) : Except Pattern.Error Program :=
  Program.compileAll pass.items

end Pass

end NestedRegex
