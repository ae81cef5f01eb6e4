import NestedRegex.Pattern.Basic
import NestedRegex.Value.Text

namespace NestedRegex.Pattern

mutual

/-- A pattern such as `Named("x", [Any, Or(["a", "b"])])`. A sequence is shown in brackets only. -/
def text : Pattern → String
  | .literal s => s.text
  | .sequence items => Text.bracketed (textsOfItems items)
  | .any => "Any"
  | .named name items =>
    "Named(" ++ Text.quoted name ++ ", " ++ Text.bracketed (textsOfItems items) ++ ")"
  | .choice alternatives => "Or(" ++ Text.bracketed (textsOfItems alternatives) ++ ")"
  | .oneOrMore body => "More(" ++ text body ++ ")"
  | .backRef name => "Ref(" ++ Text.quoted name ++ ")"
  | .check name _ => "Check(" ++ Text.quoted name ++ ")"
  | .atEnd => "End"

def textsOfItems : List Pattern → List String
  | [] => []
  | p :: ps => text p :: textsOfItems ps

end

end NestedRegex.Pattern
