import NestedRegex.Match.Basic
import NestedRegex.Text.Quoted

namespace NestedRegex.Match

/-- The names of a match with their spans, such as `{"$match": SeqId(0)[0..2]}`. Unbound names are
left out. -/
def text (m : Match) : String :=
  let entries := m.places.mapIdx fun i place =>
    match place with
    | .unbound => none
    | .held s => some (Text.quoted (m.nameAt i) ++ ": " ++ s.text)
    | .invalidated => some (Text.quoted (m.nameAt i) ++ ": " ++ Text.quoted "<invalidated>")
  "\x7b" ++ ", ".intercalate (entries.filterMap fun entry => entry) ++ "\x7d"

end NestedRegex.Match
