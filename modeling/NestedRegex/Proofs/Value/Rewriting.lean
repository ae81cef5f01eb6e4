import Mathlib.Algebra.BigOperators.Group.List.Basic
import Mathlib.Algebra.GroupWithZero.Nat
import NestedRegex.Value

namespace NestedRegex

namespace Value

mutual

/-- The number of scalars and sequences in a value, itself included. -/
def size : Value → Nat
  | .scalar _ => 1
  | .seq items => sizeOfItems items + 1

def sizeOfItems : List Value → Nat
  | [] => 0
  | v :: vs => size v + sizeOfItems vs

end

variable {v w : Value} {vs : List Value}

@[simp] theorem size_scalar (s : Scalar) : (scalar s).size = 1 := rfl

@[simp] theorem size_seq (vs : List Value) : (seq vs).size = sizeOfItems vs + 1 := rfl

@[simp] theorem sizeOfItems_nil : sizeOfItems [] = 0 := rfl

@[simp] theorem sizeOfItems_cons (v : Value) (vs : List Value) :
    sizeOfItems (v :: vs) = v.size + sizeOfItems vs := rfl

theorem size_pos (v : Value) : 0 < v.size := by
  cases v <;> simp

theorem size_le_of_mem (h : v ∈ vs) : v.size ≤ sizeOfItems vs := by
  induction vs with
  | nil => cases h
  | cons w vs ih =>
    rcases List.mem_cons.1 h with rfl | h
    · exact Nat.le_add_right _ _
    · exact Nat.le_trans (ih h) (Nat.le_add_left _ _)

theorem size_lt_of_mem (h : v ∈ vs) : v.size < (seq vs).size :=
  Nat.lt_succ_of_le (size_le_of_mem h)

/-- Items that do not grow one by one do not grow together. -/
theorem sizeOfItems_map_le {change : Value → Value} (h : ∀ v ∈ vs, (change v).size ≤ v.size) :
    sizeOfItems (vs.map change) ≤ sizeOfItems vs := by
  induction vs with
  | nil => exact Nat.le_refl _
  | cons v vs ih =>
    have hv := h v List.mem_cons_self
    have hvs := ih fun w hw => h w (List.mem_cons_of_mem _ hw)
    simp only [List.map_cons, sizeOfItems_cons]
    omega

end Value

/-- A rule that rewrites some values and does not make them bigger. -/
@[ext]
structure Rule where
  apply : Value → Option Value
  size_le : ∀ {v w}, apply v = some w → w.size ≤ v.size

namespace Rule

variable {r q : Rule} {v w : Value} {vs : List Value}

/-- A value after the rule; one that the rule does not rewrite stays as it is. -/
def after (r : Rule) (v : Value) : Value :=
  (r.apply v).getD v

theorem after_eq_of_some (h : r.apply v = some w) : r.after v = w := by
  rw [after, h, Option.getD_some]

theorem after_eq_of_none (h : r.apply v = none) : r.after v = v := by
  rw [after, h, Option.getD_none]

theorem size_after (r : Rule) (v : Value) : (r.after v).size ≤ v.size := by
  cases h : r.apply v with
  | none => exact Nat.le_of_eq (congrArg Value.size (after_eq_of_none h))
  | some w =>
    rw [after_eq_of_some h]
    exact r.size_le h

/-- The rule that rewrites nothing. -/
def never : Rule where
  apply _ := none
  size_le := nofun

/-- The first of two rules that rewrites a value. -/
def orElse (r q : Rule) : Rule where
  apply v := (r.apply v).or (q.apply v)
  size_le h := by
    rcases Option.or_eq_some_iff.1 h with h | ⟨-, h⟩
    · exact r.size_le h
    · exact q.size_le h

/-- Rewrite what is inside a value, from the outside inwards. -/
def rewritten (r : Rule) : Value → Value
  | .scalar s => .scalar s
  | .seq vs => .seq (vs.attach.map fun c => r.rewritten (r.after c.1))
termination_by v => v.size
decreasing_by exact Nat.lt_of_le_of_lt (r.size_after _) (Value.size_lt_of_mem c.2)

/-- The number of times that the rule rewrites something inside a value. -/
def hits (r : Rule) : Value → Nat
  | .scalar _ => 0
  | .seq vs =>
    (vs.attach.map fun c => (if (r.apply c.1).isSome then 1 else 0) + r.hits (r.after c.1)).sum
termination_by v => v.size
decreasing_by exact Nat.lt_of_le_of_lt (r.size_after _) (Value.size_lt_of_mem c.2)

/-- The number of times that the rule rewrites an item and what is then inside it. -/
def hitsAt (r : Rule) (v : Value) : Nat :=
  (if (r.apply v).isSome then 1 else 0) + r.hits (r.after v)

/-- What becomes of an item: it is rewritten where it stands, and then inside. -/
def becomes (r : Rule) (v : Value) : Value :=
  r.rewritten (r.after v)

@[simp] theorem rewritten_scalar (s : Scalar) : r.rewritten (.scalar s) = .scalar s := by
  rw [rewritten]

@[simp] theorem rewritten_seq (vs : List Value) :
    r.rewritten (.seq vs) = .seq (vs.map r.becomes) := by
  rw [rewritten]
  exact congrArg Value.seq (List.attach_map_val (f := r.becomes))

@[simp] theorem hits_scalar (s : Scalar) : r.hits (.scalar s) = 0 := by
  rw [hits]

@[simp] theorem hits_seq (vs : List Value) : r.hits (.seq vs) = (vs.map r.hitsAt).sum := by
  rw [hits]
  exact congrArg List.sum (List.attach_map_val (f := r.hitsAt))

/-- What is rewritten inside a sequence: first the items, and then what they have become. -/
theorem hits_seq_eq_add (vs : List Value) :
    r.hits (.seq vs) = (vs.map fun v => if (r.apply v).isSome then 1 else 0).sum +
      ((vs.map r.after).map r.hits).sum := by
  rw [hits_seq, List.map_map, ← List.sum_map_add]
  rfl

/-- To show something of what is inside a value, show it of a sequence when it holds of each item
after the rule. -/
theorem inside_induction (r : Rule) {motive : Value → Prop} (scalar : ∀ s, motive (.scalar s))
    (seq : ∀ vs, (∀ c ∈ vs, motive (r.after c)) → motive (.seq vs)) (v : Value) : motive v := by
  induction hk : v.size using Nat.strongRecOn generalizing v with
  | ind k ih =>
    cases v with
    | scalar s => exact scalar s
    | seq vs =>
      refine seq vs fun c hc => ih _ ?_ _ rfl
      rw [← hk]
      exact Nat.lt_of_le_of_lt (r.size_after c) (Value.size_lt_of_mem hc)

/-- An item that a rewriting by the rule meets inside a value, as it is before the rule. -/
inductive Meets (r : Rule) : Value → Value → Prop
  | item {vs c} (h : c ∈ vs) : Meets r (.seq vs) c
  | inside {vs c d} (h : c ∈ vs) (hd : Meets r (r.after c) d) : Meets r (.seq vs) d

/-- Another rewriting finds nothing to do if each item has become what its rule leaves alone. -/
theorem rewritten_of_settled (r q : Rule) (v : Value)
    (h : ∀ c, r.Meets v c → q.after (r.becomes c) = r.becomes c) :
    q.rewritten (r.rewritten v) = r.rewritten v := by
  induction v using r.inside_induction with
  | scalar s => simp
  | seq vs ih =>
    simp only [rewritten_seq, List.map_map]
    refine congrArg Value.seq (List.map_congr_left fun c hc => ?_)
    rw [Function.comp_apply, becomes, h c (.item hc)]
    exact ih c hc fun d hd => h d (.inside hc hd)

/-- If a rule never undoes inside a value what it does to the value itself, then a rewriting that
changes nothing leaves each item alone. -/
theorem settled_of_rewritten {r q : Rule} (sure : ∀ x, q.becomes x = x → q.after x = x) {c : Value}
    (hm : r.Meets v c) (h : q.rewritten (r.rewritten v) = r.rewritten v) :
    q.after (r.becomes c) = r.becomes c := by
  have items : ∀ {vs : List Value}, q.rewritten (r.rewritten (.seq vs)) = r.rewritten (.seq vs) →
      ∀ c ∈ vs, q.becomes (r.becomes c) = r.becomes c := by
    intro vs h c hc
    simp only [rewritten_seq, List.map_map] at h
    exact List.map_eq_map_iff.1 (Value.seq.inj h) c hc
  induction hm with
  | item hc => exact sure _ (items h _ hc)
  | @inside vs c d hc _ ih =>
    have hbecomes := items h c hc
    rw [becomes, sure _ hbecomes] at hbecomes
    exact ih hbecomes

end Rule

end NestedRegex
