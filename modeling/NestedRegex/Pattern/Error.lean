namespace NestedRegex

/-- One step from a part of a pattern to a part of that. -/
inductive Pattern.Step where
  | item (index : Nat)
  | alternative (index : Nat)
  | body
  deriving DecidableEq

/-- The way from a list of items to a part of one of them. -/
abbrev Pattern.Path := List Pattern.Step

def Pattern.Step.text : Pattern.Step → String
  | .item index => "item " ++ index.repr
  | .alternative index => "alt " ++ index.repr
  | .body => "repeat"

/-- A path such as `item 0 / alt 1 / repeat`. -/
def Pattern.Path.text (path : Pattern.Path) : String :=
  if path.isEmpty then "<root>" else " / ".intercalate (path.map Pattern.Step.text)

/-- What is wrong with a pattern. -/
inductive Pattern.Flaw where
  /-- A name is captured twice on one way through the pattern. -/
  | duplicateCapture (name : String)
  /-- A reference to a name that is captured nowhere. -/
  | undeclaredBackRef (name : String)
  /-- The end is required where more items follow, or where no list of items ends. -/
  | misplacedAnchor
  /-- The end is required again and again, which consumes nothing. -/
  | anchorInRepeat
  | emptyAlternation
  | emptyPattern
  | emptyCaptureName
  deriving DecidableEq

def Pattern.Flaw.message : Pattern.Flaw → String
  | .duplicateCapture name => "capture `" ++ name ++ "` is declared more than once"
  | .undeclaredBackRef name => "backreference to undeclared capture `" ++ name ++ "`"
  | .misplacedAnchor => "end anchor must be the last item of a sequence"
  | .anchorInRepeat => "repetition of an end anchor matches nothing"
  | .emptyAlternation => "alternation has no alternatives"
  | .emptyPattern => "pattern has no items"
  | .emptyCaptureName => "capture name is empty"

/-- A flaw and the way to the part that has it. -/
structure Pattern.Error where
  flaw : Pattern.Flaw
  path : Pattern.Path
  deriving DecidableEq

def Pattern.Error.message (e : Pattern.Error) : String :=
  e.flaw.message ++ " (at " ++ e.path.text ++ ")"

end NestedRegex
