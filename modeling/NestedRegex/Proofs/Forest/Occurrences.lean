import Mathlib.Data.List.Basic
import NestedRegex.Proofs.Forest.Spans
import NestedRegex.Proofs.Forest.Values

namespace NestedRegex.Forest

open Relation

/-- The sequence that a node names and those inside it, down through so many sequences, a sequence
before its children and the children from left to right. -/
def occurrencesWithin (f : Forest) : Nat → Node → List SeqName
  | _, .scalar _ => []
  | 0, .seq id => [id]
  | depth + 1, .seq id => id :: (f.nodesOf id).flatMap (f.occurrencesWithin depth)

/-- All sequences that a node leads to, each as often as it occurs. -/
def occurrences (f : Forest) (n : Node) : List SeqName :=
  f.occurrencesWithin f.size n

variable {f : Forest} {n : Node} {nodes : List Node} {depth : Nat} {id x y z : SeqName}

@[simp] theorem occurrencesWithin_scalar (s : Scalar) :
    f.occurrencesWithin depth (.scalar s) = [] := by
  cases depth <;> rfl

/-- A walk that goes deep enough meets no more if it goes deeper. -/
theorem occurrencesWithin_succ (hf : f.Closed) (ha : f.Acyclic) (hn : f.Holds [n])
    (hd : f.height n ≤ depth + 1) :
    f.occurrencesWithin depth n = f.occurrencesWithin (depth + 1) n := by
  induction depth generalizing n with
  | zero =>
    cases n with
    | scalar s => simp
    | seq id =>
      obtain ⟨nodes, hc⟩ := contains_iff.1 (holds_seq_iff.1 hn)
      have none : nodes.flatMap (f.occurrencesWithin 0) = [] := by
        refine List.flatMap_eq_nil_iff.2 fun m hm => ?_
        have hle := height_le_of_mem ha hf hc hm
        cases m with
        | scalar s => simp
        | seq b =>
          simp only [height] at hd hle
          omega
      rw [occurrencesWithin, occurrencesWithin, nodesOf_eq hc, none]
  | succ depth ih =>
    cases n with
    | scalar s => simp
    | seq id =>
      obtain ⟨nodes, hc⟩ := contains_iff.1 (holds_seq_iff.1 hn)
      rw [occurrencesWithin, occurrencesWithin, nodesOf_eq hc]
      refine congrArg _ (List.flatMap_congr fun m hm => ih (hf.holds_of_mem hc hm) ?_)
      have hle := height_le_of_mem ha hf hc hm
      simp only [height] at hd
      omega

/-- The occurrences of a sequence are itself and those of its children. -/
theorem occurrences_seq (hf : f.Closed) (ha : f.Acyclic) (hc : f.contains id = true) :
    f.occurrences (.seq id) = id :: (f.nodesOf id).flatMap f.occurrences := by
  have hn : f.Holds [.seq id] := holds_seq_iff.2 hc
  have hle := height_le_size ha hn
  unfold occurrences
  rw [occurrencesWithin_succ hf ha hn (Nat.le_succ_of_le hle), occurrencesWithin]

/-- Just the sequences that a node leads to occur in it. -/
theorem mem_occurrences (hf : f.Closed) (ha : f.Acyclic) (hc : f.contains x = true) :
    y ∈ f.occurrences (.seq x) ↔ f.Reaches x y := by
  constructor
  · intro hy
    have within : ∀ depth x, y ∈ f.occurrencesWithin depth (.seq x) → f.Reaches x y := by
      intro depth
      induction depth with
      | zero =>
        intro x hy
        obtain rfl : y = x := by simpa [occurrencesWithin] using hy
        exact .refl
      | succ depth ih =>
        intro x hy
        rcases List.mem_cons.1 hy with rfl | hy
        · exact .refl
        · obtain ⟨n, hn, hy⟩ := List.mem_flatMap.1 hy
          cases n with
          | scalar s => simp at hy
          | seq b => exact .head (mem_nodesOf.1 hn) (ih b hy)
    exact within _ x hy
  · intro h
    induction h using ReflTransGen.head_induction_on with
    | refl =>
      rw [occurrences_seq hf ha hc]
      exact List.mem_cons_self
    | @head x b hb _ ih =>
      rw [occurrences_seq hf ha hc]
      exact List.mem_cons_of_mem _ (List.mem_flatMap.2 ⟨_, mem_nodesOf.2 hb, ih (hf.child hb)⟩)

end NestedRegex.Forest
