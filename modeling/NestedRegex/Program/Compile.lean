import NestedRegex.Program.Declare
import NestedRegex.Program.Emit

namespace NestedRegex.Program

/-- Compile items that are to match consecutive children. They are refused for their names first,
and then for the places of their parts. -/
def compileAll (items : List Pattern) : Except Pattern.Error Program := do
  if items.isEmpty then
    throw ⟨.emptyPattern, []⟩
  let (_, symbols) ← Pattern.declareItems [] 0 [] {} items
  let draft ← Pattern.emitItems [] 0 true { symbols } items
  return {
    code := draft.code.push .accept
    names := draft.symbols.names
    slots := draft.symbols.slots
    checks := draft.checks }

/-- Compile a pattern as the only item. A sequence then matches one child that is a sequence. -/
def compile (p : Pattern) : Except Pattern.Error Program :=
  compileAll [p]

end NestedRegex.Program
