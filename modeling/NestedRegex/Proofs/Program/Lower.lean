import NestedRegex.Program.Emit
import NestedRegex.Proofs.Pattern.Scope

namespace NestedRegex.Pattern

mutual

/-- The number of instructions of a part. -/
def size : Pattern → Nat
  | .sequence items => sizeOfItems items + 2
  | .named _ items => (if items.isEmpty then 1 else sizeOfItems items) + 2
  | .choice alternatives => sizeOfAlternatives alternatives
  | .oneOrMore body => size body + 1
  | .literal _ | .any | .backRef _ | .check _ _ | .atEnd => 1

def sizeOfItems : List Pattern → Nat
  | [] => 0
  | p :: ps => size p + sizeOfItems ps

/-- All alternatives but the last have a split before them and a jump after them. -/
def sizeOfAlternatives : List Pattern → Nat
  | [] => 0
  | [p] => size p
  | p :: q :: ps => size p + 2 + sizeOfAlternatives (q :: ps)

end

mutual

/-- The tests of a part, in the order in which they are written. -/
def checks : Pattern → List (String × Test)
  | .check name test => [(name, test)]
  | .sequence items => checksOfItems items
  | .named _ items => checksOfItems items
  | .choice alternatives => checksOfItems alternatives
  | .oneOrMore body => checks body
  | .literal _ | .any | .backRef _ | .atEnd => []

def checksOfItems : List Pattern → List (String × Test)
  | [] => []
  | p :: ps => checks p ++ checksOfItems ps

end

/-- The slot of a name. -/
def slotOf (names : List String) (name : String) : Slot :=
  ⟨names.idxOf name⟩

mutual

/-- The code of a part at an address; `test` is the number of its first test. A repetition ends with
a split that prefers to go back to its start. -/
def code (names : List String) (address test : Nat) : Pattern → List Instr
  | .literal s => [.scalar s]
  | .any => [.any]
  | .backRef name => [.backRef (slotOf names name)]
  | .check _ _ => [.check test]
  | .atEnd => [.atEnd]
  | .sequence items => .enter :: codeOfItems names (address + 1) test items ++ [.exit]
  | .named name [] => [.openSlot (slotOf names name), .any, .closeSlot (slotOf names name)]
  | .named name (p :: ps) =>
    .openSlot (slotOf names name) :: codeOfItems names (address + 1) test (p :: ps) ++
      [.closeSlot (slotOf names name)]
  | .choice alternatives =>
    codeOfAlternatives names address test (address + sizeOfAlternatives alternatives) alternatives
  | .oneOrMore body =>
    code names address test body ++ [.split address (address + size body + 1)]

/-- The code of items, one after the other. -/
def codeOfItems (names : List String) (address test : Nat) : List Pattern → List Instr
  | [] => []
  | p :: ps =>
    code names address test p ++
      codeOfItems names (address + size p) (test + (checks p).length) ps

/-- The code of alternatives. Each but the last is tried first and left by a jump to `leave`. -/
def codeOfAlternatives (names : List String) (address test leave : Nat) : List Pattern → List Instr
  | [] => []
  | [p] => code names address test p
  | p :: q :: ps =>
    let next := address + size p + 2
    .split (address + 1) next :: code names (address + 1) test p ++
      .jump leave :: codeOfAlternatives names next (test + (checks p).length) leave (q :: ps)

end

mutual

theorem length_code (names : List String) : ∀ (q : Pattern) (address test : Nat),
    (code names address test q).length = size q
  | .literal _, _, _ | .any, _, _ | .backRef _, _, _ | .check _ _, _, _ | .atEnd, _, _ => rfl
  | .sequence items, address, test => by
    simp only [code, size, List.cons_append, List.length_cons, List.length_append,
      length_codeOfItems names items, List.length_nil]
  | .named name [], address, test => rfl
  | .named name (q :: qs), address, test => by
    simp only [code, size, List.cons_append, List.length_cons, List.length_append,
      length_codeOfItems names (q :: qs), List.length_nil, List.isEmpty_cons]
    rfl
  | .choice alternatives, address, test => by
    simp only [code, size, length_codeOfAlternatives names alternatives]
  | .oneOrMore body, address, test => by
    simp only [code, size, List.length_append, length_code names body, List.length_cons,
      List.length_nil]

theorem length_codeOfItems (names : List String) : ∀ (qs : List Pattern) (address test : Nat),
    (codeOfItems names address test qs).length = sizeOfItems qs
  | [], _, _ => rfl
  | q :: qs, address, test => by
    simp only [codeOfItems, sizeOfItems, List.length_append, length_code names q,
      length_codeOfItems names qs]

theorem length_codeOfAlternatives (names : List String) :
    ∀ (qs : List Pattern) (address test leave : Nat),
      (codeOfAlternatives names address test leave qs).length = sizeOfAlternatives qs
  | [], _, _, _ => rfl
  | [q], address, test, leave => length_code names q address test
  | q :: r :: qs, address, test, leave => by
    simp only [codeOfAlternatives, sizeOfAlternatives, List.cons_append, List.length_cons,
      List.length_append, length_code names q, length_codeOfAlternatives names (r :: qs)]
    omega

end

end NestedRegex.Pattern

namespace NestedRegex

/-- The entries for some names in the order of their slots. Those made later stand in front. -/
def Symbols.entries (names : List String) : List (String × Slot) :=
  (names.mapIdx fun i name => (name, ⟨i⟩)).reverse

/-- The program of patterns without flaws. -/
def Program.ofItems (items : List Pattern) : Program :=
  let names := Pattern.names items
  { code := (Pattern.codeOfItems names 0 0 items ++ [Instr.accept]).toArray
    names
    slots := Symbols.entries names
    checks := Pattern.checksOfItems items }

end NestedRegex
