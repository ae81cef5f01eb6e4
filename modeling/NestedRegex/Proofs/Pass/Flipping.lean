import NestedRegex.Proofs.Pass.Runs

namespace NestedRegex

namespace Value

/-- A condition by `<=` or `>=` with the opposite comparison and with its branches exchanged. -/
def turned? : Value → Option Value
  | .seq [.scalar (.string "if"),
      .seq [.scalar (.string "binary"), .scalar (.string "<="), x, y], t, e] =>
    some (.seq [.scalar (.string "if"),
      .seq [.scalar (.string "binary"), .scalar (.string ">"), x, y], e, t])
  | .seq [.scalar (.string "if"),
      .seq [.scalar (.string "binary"), .scalar (.string ">="), x, y], t, e] =>
    some (.seq [.scalar (.string "if"),
      .seq [.scalar (.string "binary"), .scalar (.string "<"), x, y], e, t])
  | _ => none

/-- A value with the condition that it is turned around; any other value stays as it is. -/
def turned (v : Value) : Value :=
  v.turned?.getD v

open Rule

/-- What is turned around is what the rule for comparisons rewrites. -/
theorem turned?_eq (v : Value) : v.turned? = turnComparison.apply v := by
  ext w
  rw [turnComparison_eq_some_iff]
  constructor
  · intro h
    unfold turned? at h
    split at h
    · next x y t e =>
      obtain rfl := Option.some.inj h
      exact ⟨_, _, t, e, rfl, rfl, rfl⟩
    · next x y t e =>
      obtain rfl := Option.some.inj h
      exact ⟨_, _, t, e, rfl, rfl, rfl⟩
    · cases h
  · intro ⟨c, c', t, e, hc, hv, hw⟩
    obtain ⟨operator, x, y, ho, rfl, rfl⟩ := turnedAround_eq_some_iff.1 hc
    rw [hv, hw]
    rcases ho with rfl | rfl <;> rfl

theorem turned_eq (v : Value) : v.turned = turnComparison.after v := by
  rw [turned, turned?_eq, after]

theorem size_turned (v : Value) : v.turned.size ≤ v.size := by
  rw [turned_eq]
  exact size_after _ v

/-- Turn a value around where it stands, and then flip what is in the outcome. -/
def flip (v : Value) : Value :=
  match _ : v.turned with
  | .scalar s => .scalar s
  | .seq vs => .seq (vs.attach.map fun c => c.1.flip)
termination_by v.size
decreasing_by exact Nat.lt_of_lt_of_le (size_lt_of_mem c.2) (‹v.turned = _› ▸ size_turned v)

/-- The number of values that `flip` turns around. -/
def flips (v : Value) : Nat :=
  (if v.turned?.isSome then 1 else 0) +
    match _ : v.turned with
    | .scalar _ => 0
    | .seq vs => (vs.attach.map fun c => c.1.flips).sum
termination_by v.size
decreasing_by exact Nat.lt_of_lt_of_le (size_lt_of_mem c.2) (‹v.turned = _› ▸ size_turned v)

/-- Flipping is what the rule makes of an item, and it turns around what the rule rewrites. -/
theorem flip_eq_becomes (v : Value) :
    v.flip = turnComparison.becomes v ∧ v.flips = turnComparison.hitsAt v := by
  induction hk : v.size using Nat.strongRecOn generalizing v with
  | ind k ih =>
    have inner {vs : List Value} (hvs : v.turned = .seq vs) {c : Value} (hc : c ∈ vs) :
        c.flip = turnComparison.becomes c ∧ c.flips = turnComparison.hitsAt c := by
      refine ih _ ?_ c rfl
      rw [← hk]
      exact Nat.lt_of_lt_of_le (size_lt_of_mem hc) (hvs ▸ size_turned v)
    rw [flip, flips, becomes, hitsAt, turned?_eq, ← turned_eq]
    constructor
    · split
      · next s hs => rw [hs, rewritten_scalar]
      · next vs hvs =>
        rw [hvs, rewritten_seq, List.map_attach_eq_pmap, List.pmap_eq_map]
        exact congrArg seq (List.map_congr_left fun c hc => (inner hvs hc).1)
    · refine congrArg _ ?_
      split
      · next s hs => rw [hs, hits_scalar]
      · next vs hvs =>
        rw [hvs, hits_seq, List.map_attach_eq_pmap, List.pmap_eq_map]
        exact congrArg List.sum (List.map_congr_left fun c hc => (inner hvs hc).2)

end Value

/-- A run of the pass for comparisons flips each item of the sequence, and it finds as many matches
as there are values that were turned around. -/
theorem Pass.run_flips_items (vs : List Value) : ∃ g,
    Pass.flipCompare.run (.ofValue (.seq vs)) = ⟨.ok ⟨(vs.map Value.flips).sum, []⟩, g⟩ ∧
      g.toValue = .ok (.seq (vs.map Value.flip)) := by
  obtain ⟨g, hrun, hvalue⟩ := run_ofValue (by decide : Pass.flipCompare ≠ .repeats) (.seq vs)
  refine ⟨g, hrun.trans ?_, hvalue.trans ?_⟩
  · rw [Value.rooted, Rule.hits_seq, List.map_congr_left fun v _ => (Value.flip_eq_becomes v).2]
    rfl
  · rw [Value.rooted, Rule.rewritten_seq,
      List.map_congr_left fun v _ => (Value.flip_eq_becomes v).1]
    rfl

end NestedRegex
