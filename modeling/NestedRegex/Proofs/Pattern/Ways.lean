import NestedRegex.Machine.Basic
import NestedRegex.Proofs.Pattern.Scope
import NestedRegex.Proofs.Forest.Values

namespace NestedRegex

/-- Answers in order of preference. The error of a check stands in the place of the answers that the
check would have led to. -/
abbrev Choices (α : Type) := List (Except (Failure TestError) α)

namespace Choices

/-- Go on from each answer, in order. -/
def andThen (cs : Choices α) (next : α → Choices β) : Choices β :=
  cs.flatMap fun
    | .ok a => next a
    | .error e => [.error e]

/-- The first answer, none if there is none, or the error that stands before it. -/
def first : Choices α → Except (Failure TestError) (Option α)
  | [] => .ok none
  | .ok a :: _ => .ok (some a)
  | .error e :: _ => .error e

end Choices

/-- How far a match has come in a sequence, and the spans that its names are bound to. -/
structure Way where
  position : Nat
  bound : String → Option Span

namespace Way

/-- Step over some nodes. -/
def past (w : Way) (count : Nat) : Way :=
  { w with position := w.position + count }

/-- Bind a name, whatever it was bound to before. -/
def bind (w : Way) (name : String) (s : Span) : Way :=
  { w with bound := fun other => if other = name then some s else w.bound other }

end Way

/-- Two spans that are there and have nodes of the same values. -/
def Forest.sameContent (f : Forest) (s t : Span) : Bool :=
  match f.nodes? s, f.nodes? t with
  | some xs, some ys => xs.map f.value = ys.map f.value
  | _, _ => false

namespace Pattern

/-- One or more turns of a body, at most so many. After each turn another one is preferred to
stopping. -/
def turns (body : Way → Choices Way) : Nat → Way → Choices Way
  | 0, _ => []
  | most + 1, w => (body w).andThen fun v => turns body most v ++ [.ok v]

mutual

/-- The ways of a part in a sequence, from a way that has come to it. A repetition has no more turns
than there are nodes left. -/
def ways (f : Forest) : Pattern → SeqName → Way → Choices Way
  | .literal s, seq, w =>
    if (f.nodesOf seq)[w.position]? = some (.scalar s) then [.ok (w.past 1)] else []
  | .any, seq, w => if w.position < (f.nodesOf seq).length then [.ok (w.past 1)] else []
  | .sequence items, seq, w =>
    match (f.nodesOf seq)[w.position]? with
    | some (.seq inner) =>
      (waysOfItems f items inner { w with position := 0 }).andThen fun v =>
        if v.position = (f.nodesOf inner).length then
          [.ok { v with position := w.position + 1 }]
        else []
    | _ => []
  | .named name [], seq, w =>
    if w.position < (f.nodesOf seq).length then
      [.ok ((w.past 1).bind name ⟨seq, w.position, 1⟩)]
    else []
  | .named name (p :: ps), seq, w =>
    (waysOfItems f (p :: ps) seq w).andThen fun v =>
      [.ok (v.bind name ⟨seq, w.position, v.position - w.position⟩)]
  | .choice alternatives, seq, w => waysOfAlternatives f alternatives seq w
  | .oneOrMore body, seq, w => turns (ways f body seq) ((f.nodesOf seq).length - w.position) w
  | .backRef name, seq, w =>
    match w.bound name with
    | some s =>
      if f.sameContent s ⟨seq, w.position, s.length⟩ then [.ok (w.past s.length)] else []
    | none => []
  | .check name test, seq, w =>
    match (f.nodesOf seq)[w.position]? with
    | none => []
    | some n =>
      match test f n with
      | .ok true => [.ok (w.past 1)]
      | .ok false => []
      | .error e => [.error (e.map fun message => ⟨name, message⟩)]
  | .atEnd, seq, w => if w.position = (f.nodesOf seq).length then [.ok w] else []

/-- The ways of items, one after the other. -/
def waysOfItems (f : Forest) : List Pattern → SeqName → Way → Choices Way
  | [], _, w => [.ok w]
  | p :: ps, seq, w => (ways f p seq w).andThen (waysOfItems f ps seq)

/-- The ways of alternatives, all those of an earlier one before those of a later one. -/
def waysOfAlternatives (f : Forest) : List Pattern → SeqName → Way → Choices Way
  | [], _, _ => []
  | p :: ps, seq, w => ways f p seq w ++ waysOfAlternatives f ps seq w

end

/-- The captures of a whole match, one for each complete way. -/
def matchings (f : Forest) (items : List Pattern) (seq : SeqName) (start : Nat) :
    Choices Captures :=
  (waysOfItems f items seq ⟨start, fun _ => none⟩).andThen fun w =>
    [.ok ⟨⟨seq, start, w.position - start⟩, (names items).map w.bound⟩]

end Pattern

end NestedRegex
