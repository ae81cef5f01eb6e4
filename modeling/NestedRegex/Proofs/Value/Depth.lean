import Mathlib.Order.Lattice
import NestedRegex.Value

namespace NestedRegex.Value

mutual

/-- The number of sequences that stand inside one another, where they are most. -/
def depth : Value → Nat
  | .scalar _ => 0
  | .seq items => depthOfItems items + 1

def depthOfItems : List Value → Nat
  | [] => 0
  | v :: vs => max (depth v) (depthOfItems vs)

end

variable {v : Value} {vs : List Value} {n : Nat}

@[simp] theorem depth_scalar (s : Scalar) : (scalar s).depth = 0 := rfl

@[simp] theorem depth_seq (vs : List Value) : (seq vs).depth = depthOfItems vs + 1 := rfl

@[simp] theorem depthOfItems_nil : depthOfItems [] = 0 := rfl

@[simp] theorem depthOfItems_cons (v : Value) (vs : List Value) :
    depthOfItems (v :: vs) = max v.depth (depthOfItems vs) := rfl

theorem depthOfItems_le_iff : depthOfItems vs ≤ n ↔ ∀ v ∈ vs, v.depth ≤ n := by
  induction vs with
  | nil => simp
  | cons v vs ih => simp [ih]

theorem lt_depthOfItems_iff : n < depthOfItems vs ↔ ∃ v ∈ vs, n < v.depth := by
  rw [← Nat.not_le, depthOfItems_le_iff]
  simp only [not_forall, Nat.not_le, exists_prop]

theorem depth_le_of_mem (h : v ∈ vs) : v.depth ≤ depthOfItems vs :=
  depthOfItems_le_iff.1 (Nat.le_refl _) v h

/-- A value in which no scalar is a float. -/
inductive FloatFree : Value → Prop
  | scalar {s : Scalar} (h : s.kind ≠ .float) : FloatFree (.scalar s)
  | seq {vs : List Value} (h : ∀ v ∈ vs, FloatFree v) : FloatFree (.seq vs)

@[simp] theorem floatFree_scalar_iff {s : Scalar} :
    (Value.scalar s).FloatFree ↔ s.kind ≠ .float :=
  ⟨fun | .scalar h => h, .scalar⟩

@[simp] theorem floatFree_seq_iff : (Value.seq vs).FloatFree ↔ ∀ v ∈ vs, v.FloatFree :=
  ⟨fun | .seq h => h, .seq⟩

theorem floatFree_string (s : String) : (Value.scalar (.string s)).FloatFree :=
  .scalar fun h => Scalar.Kind.noConfusion h

/-- A value inside so many sequences that hold nothing else. -/
def nested : Nat → Value → Value
  | 0, v => v
  | n + 1, v => .seq [nested n v]

theorem depth_nested (n : Nat) (v : Value) : (nested n v).depth = n + v.depth := by
  induction n with
  | zero => rw [nested, Nat.zero_add]
  | succ n ih =>
    rw [nested, depth_seq, depthOfItems_cons, depthOfItems_nil, Nat.max_zero, ih]
    omega

theorem floatFree_nested_iff : (nested n v).FloatFree ↔ v.FloatFree := by
  induction n with
  | zero => rfl
  | succ n ih => rw [nested, floatFree_seq_iff, List.forall_mem_singleton, ih]

end NestedRegex.Value
