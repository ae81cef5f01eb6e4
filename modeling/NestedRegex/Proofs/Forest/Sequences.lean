import NestedRegex.Proofs.Forest.Items
import NestedRegex.Proofs.Forest.Occurrences

namespace NestedRegex

namespace Value

mutual

/-- The items of all sequences in a value, those of a sequence before those of what is in it. -/
def sequences : Value → List (List Value)
  | .scalar _ => []
  | .seq vs => vs :: sequencesOfItems vs

def sequencesOfItems : List Value → List (List Value)
  | [] => []
  | v :: vs => sequences v ++ sequencesOfItems vs

end

end Value

namespace Forest

/-- The values of the children of a sequence. -/
def valuesOf (f : Forest) (seq : SeqName) : List Value :=
  (f.nodesOf seq).map f.value

variable {f : Forest}

theorem length_valuesOf (f : Forest) (seq : SeqName) :
    (f.valuesOf seq).length = (f.nodesOf seq).length :=
  List.length_map _

mutual

/-- The sequences that show a value are met in the order of their names. -/
theorem Shows.occurrences_eq {v : Value} {n : Node} {names : List SeqName} (h : f.Shows v n names)
    (hf : f.Closed) (ha : f.Acyclic) : f.occurrences n = names := by
  match h with
  | .scalar s => exact occurrencesWithin_scalar s
  | .seq hc hi _ =>
    rw [occurrences_seq hf ha (contains_iff.2 ⟨_, hc⟩), nodesOf_eq hc, hi.occurrences_eq hf ha]

theorem ShowsItems.occurrences_eq {vs : List Value} {nodes : List Node} {names : List SeqName}
    (h : f.ShowsItems vs nodes names) (hf : f.Closed) (ha : f.Acyclic) :
    nodes.flatMap f.occurrences = names := by
  match h with
  | .nil => rfl
  | .cons hi hs _ => rw [List.flatMap_cons, hi.occurrences_eq hf ha, hs.occurrences_eq hf ha]

end

mutual

/-- What is in the sequences that show a value are the sequences of the value. -/
theorem Shows.sequences_eq {v : Value} {n : Node} {names : List SeqName} (h : f.Shows v n names)
    (hf : f.Closed) (ha : f.Acyclic) : names.map f.valuesOf = v.sequences := by
  match h with
  | .scalar s => rfl
  | .seq hc hi _ =>
    rw [List.map_cons, valuesOf, nodesOf_eq hc, hi.values hf ha, hi.sequences_eq hf ha,
      Value.sequences]

theorem ShowsItems.sequences_eq {vs : List Value} {nodes : List Node} {names : List SeqName}
    (h : f.ShowsItems vs nodes names) (hf : f.Closed) (ha : f.Acyclic) :
    names.map f.valuesOf = Value.sequencesOfItems vs := by
  match h with
  | .nil => rfl
  | .cons hi hs _ =>
    rw [List.map_append, hi.sequences_eq hf ha, hs.sequences_eq hf ha, Value.sequencesOfItems]

end

end Forest

end NestedRegex
