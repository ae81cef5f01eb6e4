namespace NestedRegex

/-- The name of a sequence: its place in the forest that holds it. -/
structure SeqName where
  index : Nat
  deriving DecidableEq, Inhabited

def SeqName.text (id : SeqName) : String :=
  "SeqId(" ++ id.index.repr ++ ")"

end NestedRegex
