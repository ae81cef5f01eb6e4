import NestedRegex.Proofs.Value.Depth
import NestedRegex.Proofs.Value.Rewriting

namespace NestedRegex

variable {r : Rule} {v c : Value} {n k : Nat}

namespace Rule

/-- What the rule makes of a value that has some property has this property too. -/
def Preserves (r : Rule) (P : Value → Prop) : Prop :=
  ∀ ⦃v w⦄, r.apply v = some w → P v → P w

theorem Preserves.after {P : Value → Prop} (h : r.Preserves P) (hv : P v) : P (r.after v) := by
  cases hr : r.apply v with
  | none => rwa [after_eq_of_none hr]
  | some w => rw [after_eq_of_some hr]; exact h hr hv

theorem Preserves.floatFree_rewritten (h : r.Preserves Value.FloatFree) (hv : v.FloatFree) :
    (r.rewritten v).FloatFree := by
  induction v using r.inside_induction with
  | scalar s => rwa [rewritten_scalar]
  | seq vs ih =>
    rw [Value.floatFree_seq_iff] at hv
    rw [rewritten_seq, Value.floatFree_seq_iff, List.forall_mem_map]
    exact fun c hc => ih c hc (h.after (hv c hc))

/-- An item that a rewriting by the rule meets inside so many sequences, as it is before the
rule. -/
inductive MeetsAt (r : Rule) : Nat → Value → Value → Prop
  | item {vs c} (h : c ∈ vs) : MeetsAt r 1 (.seq vs) c
  | inside {k vs c d} (h : c ∈ vs) (hd : MeetsAt r k (r.after c) d) : MeetsAt r (k + 1) (.seq vs) d

/-- Where a rewritten value nests deeper than some bound, a rule made an item that reaches no
deeper go beyond it. -/
theorem exists_meetsAt_of_lt_depth (hv : v.depth ≤ n) (h : n < (r.rewritten v).depth) :
    ∃ k c, r.MeetsAt k v c ∧ k + c.depth ≤ n ∧ n < k + (r.after c).depth := by
  induction v using r.inside_induction generalizing n with
  | scalar s =>
    rw [rewritten_scalar] at h
    exact absurd h (Nat.not_lt.2 hv)
  | seq vs ih =>
    obtain ⟨n, rfl⟩ := Nat.exists_eq_succ_of_ne_zero (Nat.ne_zero_of_lt hv)
    rw [Value.depth_seq, Nat.succ_le_succ_iff, Value.depthOfItems_le_iff] at hv
    rw [rewritten_seq, Value.depth_seq, Nat.succ_lt_succ_iff, Value.lt_depthOfItems_iff] at h
    obtain ⟨w, hw, hdeep⟩ := h
    obtain ⟨c, hc, rfl⟩ := List.mem_map.1 hw
    have hcn := hv c hc
    by_cases hafter : (r.after c).depth ≤ n
    · obtain ⟨k, d, hd, hle, hlt⟩ := ih c hc hafter hdeep
      exact ⟨k + 1, d, .inside hc hd, by omega, by omega⟩
    · exact ⟨1, c, .item hc, by omega, by omega⟩

/-- An item reaches in the rewritten value as deep as what becomes of it. -/
theorem MeetsAt.le_depth (h : r.MeetsAt k v c) :
    k + (r.becomes c).depth ≤ (r.rewritten v).depth := by
  induction h with
  | @item vs c hc =>
    have hle := Value.depth_le_of_mem (List.mem_map_of_mem (f := r.becomes) hc)
    rw [rewritten_seq, Value.depth_seq]
    omega
  | @inside k vs c d hc _ ih =>
    have hle := Value.depth_le_of_mem (List.mem_map_of_mem (f := r.becomes) hc)
    rw [becomes] at hle
    rw [rewritten_seq, Value.depth_seq]
    omega

end Rule

end NestedRegex
