import NestedRegex.SeqName

namespace NestedRegex

/-- A request that cannot be served. -/
inductive Fault where
  | missingSequence (id : SeqName)
  | missingChild (id : SeqName) (index : Nat)
  | badRange (id : SeqName) (start stop : Nat)
  | unknownSlot (index : Nat)
  | badInstruction (address : Nat)
  | unknownCheck (index : Nat)
  | endless
  | belowZero
  deriving DecidableEq

def Fault.message : Fault → String
  | .missingSequence id => "there is no sequence " ++ id.text
  | .missingChild id index => id.text ++ " has no child " ++ index.repr
  | .badRange id start stop =>
    id.text ++ " has no range " ++ start.repr ++ ".." ++ stop.repr
  | .unknownSlot index => "there is no capture slot " ++ index.repr
  | .badInstruction address => "there is no instruction " ++ address.repr
  | .unknownCheck index => "there is no check " ++ index.repr
  | .endless => "the nesting has no end"
  | .belowZero => "a bound of a span lies below zero"

/-- Why an operation gave no answer. -/
inductive Failure (ε : Type) where
  | error (cause : ε)
  | fault (fault : Fault)
  deriving DecidableEq

namespace Failure

/-- Put an error into wider terms and keep a fault. -/
def map (wider : ε → δ) : Failure ε → Failure δ
  | .error e => .error (wider e)
  | .fault f => .fault f

@[simp] theorem map_error (wider : ε → δ) (e : ε) : (error e).map wider = .error (wider e) := rfl

@[simp] theorem map_fault (wider : ε → δ) (f : Fault) :
    (fault f : Failure ε).map wider = .fault f := rfl

end Failure

/-- An answer that only a fault can prevent, where errors are possible too. -/
def orFault (answer : Except Fault α) : Except (Failure ε) α :=
  answer.mapError .fault

@[simp] theorem orFault_ok (a : α) : (orFault (.ok a) : Except (Failure ε) α) = .ok a := rfl

@[simp] theorem orFault_error (f : Fault) :
    (orFault (.error f) : Except (Failure ε) α) = .error (.fault f) := rfl

end NestedRegex
