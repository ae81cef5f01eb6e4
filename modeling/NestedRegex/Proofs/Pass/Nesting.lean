import NestedRegex.Proofs.Pass.Unwrapping
import NestedRegex.Proofs.Value.Nesting

namespace NestedRegex

namespace Value

/-- A function whose name, parameters and body are scalars. -/
def IsFlatFunction (v : Value) : Prop :=
  ∃ tag x y z, tag ∈ ["function", "defun"] ∧
    v = .seq [.scalar (.string tag), .scalar x, .scalar y, .scalar z]

variable {v w : Value}

@[simp] theorem depth_upcased (v : Value) : v.upcased.depth = 0 := rfl

theorem depth_functionName_le (v : Value) : v.functionName.depth ≤ v.depth := by
  unfold functionName
  split
  · exact Nat.le_refl _
  · exact Nat.zero_le _

theorem depth_parameters (v : Value) : v.parameters.depth = 1 := by
  have hitems : depthOfItems ((v.items?.getD []).map upcased) ≤ 0 :=
    depthOfItems_le_iff.2 fun w hw => by
      obtain ⟨x, -, rfl⟩ := List.mem_map.1 hw
      exact Nat.le_refl 0
  rw [parameters, depth_seq, Nat.le_zero.1 hitems]

theorem depth_declared_le (v : Value) : v.declared.depth ≤ v.depth := by
  unfold declared
  split <;> simp

theorem depth_allDeclared_le (v : Value) : v.allDeclared.depth ≤ v.depth := by
  cases v with
  | scalar s => exact Nat.le_refl _
  | seq vs =>
    refine Nat.succ_le_succ (depthOfItems_le_iff.2 fun w hw => ?_)
    obtain ⟨x, hx, rfl⟩ := List.mem_map.1 hw
    exact Nat.le_trans (depth_declared_le x) (depth_le_of_mem hx)

theorem depth_turnedAround (h : v.turnedAround = some w) : w.depth = v.depth := by
  obtain ⟨operator, x, y, -, rfl, rfl⟩ := turnedAround_eq_some_iff.1 h
  rfl

theorem floatFree_upcased (v : Value) : v.upcased.FloatFree :=
  floatFree_string _

theorem FloatFree.functionName (h : v.FloatFree) : v.functionName.FloatFree := by
  unfold Value.functionName
  split
  · exact h
  · exact floatFree_upcased v

theorem floatFree_parameters (v : Value) : v.parameters.FloatFree :=
  .seq fun w hw => by
    obtain ⟨x, -, rfl⟩ := List.mem_map.1 hw
    exact floatFree_upcased x

theorem FloatFree.declared (h : v.FloatFree) : v.declared.FloatFree := by
  unfold Value.declared
  split
  · rw [floatFree_seq_iff, List.forall_mem_cons] at h ⊢
    exact ⟨floatFree_string _, h.2⟩
  · exact h

theorem FloatFree.allDeclared (h : v.FloatFree) : v.allDeclared.FloatFree := by
  cases v with
  | scalar s => exact h
  | seq vs =>
    rw [floatFree_seq_iff] at h
    refine .seq fun w hw => ?_
    obtain ⟨x, hx, rfl⟩ := List.mem_map.1 hw
    exact (h x hx).declared

end Value

namespace Rule

open Value

variable {v w : Value}

/-- A renaming makes nothing deeper but a function that holds nothing but scalars. -/
theorem Renames.isFlatFunction (h : Renames v w) (hlt : v.depth < w.depth) : v.IsFlatFunction := by
  cases h with
  | name x hv hw => simp [hv, hw] at hlt
  | function tag x y z htag hv hw =>
    have hx := depth_functionName_le x
    simp only [hv, hw, depth_seq, depthOfItems_cons, depthOfItems_nil, depth_scalar,
      depth_parameters] at hlt
    -- A sequence in any of the three places nests as deep as the new list of parameters.
    cases x with
    | seq vs => rw [depth_seq] at hlt hx; omega
    | scalar x =>
    cases y with
    | seq vs => rw [depth_seq] at hlt; omega
    | scalar y =>
    cases z with
    | seq vs => rw [depth_seq] at hlt; omega
    | scalar z => exact ⟨tag, x, y, z, htag, hv⟩
  | property x y hv hw => simp [hv, hw] at hlt
  | declarations tag x htag hv hw =>
    have hx := depth_allDeclared_le x
    simp only [hv, hw, depth_seq, depthOfItems_cons, depthOfItems_nil, depth_scalar] at hlt
    omega

theorem Renames.floatFree (h : Renames v w) (hv : v.FloatFree) : w.FloatFree := by
  cases h with
  | name x he hw =>
    rw [he, floatFree_seq_iff, List.forall_mem_cons] at hv
    rw [hw, floatFree_seq_iff, List.forall_mem_cons]
    exact ⟨hv.1, List.forall_mem_singleton.2 (floatFree_upcased x)⟩
  | function tag x y z htag he hw =>
    simp only [he, floatFree_seq_iff, List.forall_mem_cons] at hv
    simp only [hw, floatFree_seq_iff, List.forall_mem_cons]
    exact ⟨hv.1, hv.2.1.functionName, floatFree_parameters y, hv.2.2.2⟩
  | property x y he hw =>
    simp only [he, floatFree_seq_iff, List.forall_mem_cons] at hv
    simp only [hw, floatFree_seq_iff, List.forall_mem_cons]
    exact ⟨hv.1, hv.2.1, floatFree_upcased y, hv.2.2.2⟩
  | declarations tag x htag he hw =>
    simp only [he, floatFree_seq_iff, List.forall_mem_cons] at hv
    simp only [hw, floatFree_seq_iff, List.forall_mem_cons]
    exact ⟨hv.1, hv.2.1.allDeclared, hv.2.2⟩

theorem depth_turnComparison (h : turnComparison.apply v = some w) : w.depth = v.depth := by
  obtain ⟨c, c', t, e, hc, rfl, rfl⟩ := turnComparison_eq_some_iff.1 h
  simp only [depth_seq, depthOfItems_cons, depthOfItems_nil, depth_turnedAround hc]
  omega

theorem preserves_floatFree_turnComparison : turnComparison.Preserves FloatFree := by
  intro v w h hv
  obtain ⟨c, c', t, e, hc, rfl, rfl⟩ := turnComparison_eq_some_iff.1 h
  obtain ⟨operator, x, y, -, rfl, rfl⟩ := turnedAround_eq_some_iff.1 hc
  simp only [floatFree_seq_iff, List.forall_mem_cons] at hv ⊢
  obtain ⟨htag, ⟨hkind, -, hxy⟩, ht, he, hnil⟩ := hv
  exact ⟨htag, ⟨hkind, floatFree_string _, hxy⟩, he, ht, hnil⟩

theorem depth_unwrapBlock_lt (h : unwrapBlock.apply v = some w) : w.depth < v.depth := by
  obtain rfl := unwrapBlock_eq_some_iff.1 h
  simp only [depth_seq, depthOfItems_cons, depthOfItems_nil, depth_scalar]
  omega

theorem preserves_floatFree_unwrapBlock : unwrapBlock.Preserves FloatFree := by
  intro v w h hv
  obtain rfl := unwrapBlock_eq_some_iff.1 h
  simp only [floatFree_seq_iff, List.forall_mem_cons] at hv
  exact hv.2.1.1

end Rule

namespace Pass

open Rule Value

variable {pass : Pass} {v w : Value} {n : Nat}

/-- The pass has the rules for names. -/
def Upcases (pass : Pass) : Prop :=
  pass = .upcaseNames ∨ pass = .all

/-- What the rule of a pass does is a renaming, the turning of a comparison or the unwrapping of a
block. -/
theorem rule_cases (h : pass.rule.apply v = some w) :
    pass.Upcases ∧ Renames v w ∨ turnComparison.apply v = some w ∨
      unwrapBlock.apply v = some w := by
  cases pass with
  | upcaseNames => exact .inl ⟨.inl rfl, naming_eq_some_iff.1 h⟩
  | flipCompare => exact .inr (.inl h)
  | unwrapBlocks => exact .inr (.inr h)
  | all =>
    rw [rule_all] at h
    rcases Option.or_eq_some_iff.1 h with h | ⟨-, h⟩
    · exact (quiet_eq_some_iff.1 h).imp (fun h => ⟨.inr rfl, h⟩) .inl
    · exact .inr (.inr h)
  | repeats => cases h

/-- No rule rewrites a sequence of one item. -/
theorem after_singleton (pass : Pass) (v : Value) : pass.rule.after (.seq [v]) = .seq [v] := by
  refine after_eq_of_none (Option.eq_none_iff_forall_ne_some.2 fun w h => ?_)
  rcases rule_cases h with ⟨-, h⟩ | h | h
  · cases h <;> simp_all
  · obtain ⟨c, c', t, e, -, he, -⟩ := turnComparison_eq_some_iff.1 h
    cases he
  · cases unwrapBlock_eq_some_iff.1 h

theorem meetsAt_nested (n : Nat) (v : Value) : pass.rule.MeetsAt (n + 1) (nested (n + 1) v) v := by
  induction n with
  | zero => exact .item (List.mem_singleton_self v)
  | succ n ih =>
    refine .inside (List.mem_singleton_self _) ?_
    rw [nested, after_singleton]
    exact ih

theorem preserves_floatFree (pass : Pass) : pass.rule.Preserves FloatFree := by
  intro v w h hv
  rcases rule_cases h with ⟨-, h⟩ | h | h
  · exact h.floatFree hv
  · exact preserves_floatFree_turnComparison h hv
  · exact preserves_floatFree_unwrapBlock h hv

/-- Only a pass that renames makes anything deeper, and only a function that holds nothing but
scalars. -/
theorem isFlatFunction_of_deeper (pass : Pass) (v : Value)
    (h : v.depth < (pass.rule.after v).depth) :
    pass.Upcases ∧ v.IsFlatFunction := by
  cases hr : pass.rule.apply v with
  | none =>
    rw [after_eq_of_none hr] at h
    exact absurd h (Nat.lt_irrefl _)
  | some w =>
    rw [after_eq_of_some hr] at h
    rcases rule_cases hr with ⟨hpass, hw⟩ | hw | hw
    · exact ⟨hpass, hw.isFlatFunction h⟩
    · exact absurd h (Nat.not_lt.2 (Nat.le_of_eq (depth_turnComparison hw)))
    · exact absurd h (Nat.not_lt.2 (Nat.le_of_lt (depth_unwrapBlock_lt hw)))

theorem Upcases.tagged (h : pass.Upcases) : pass.rule.Tagged := by
  rcases h with rfl | rfl
  · exact tagged_naming
  · rw [rule_all]
    exact tagged_full

theorem Upcases.after_eq (h : pass.Upcases) (hw : Renames v w) : pass.rule.after v = w := by
  refine after_eq_of_some ?_
  rcases h with rfl | rfl
  · exact naming_eq_some_iff.2 hw
  · rw [rule_all, full, apply_orElse, quiet_eq_some_iff.2 (.inl hw), Option.some_or]

/-- A function that holds nothing but scalars has one level. The rule makes it one of two, in
which nothing is left to do. -/
theorem Upcases.flatFunction (h : pass.Upcases) (hv : v.IsFlatFunction) :
    v.depth = 1 ∧ (pass.rule.after v).depth = 2 ∧ pass.rule.becomes v = pass.rule.after v := by
  obtain ⟨tag, x, y, z, htag, rfl⟩ := hv
  have htagged : pass.rule.Tagged := h.tagged
  obtain ⟨s, hs⟩ := functionName_scalar (.scalar x)
  rw [Rule.becomes, h.after_eq (.function tag _ _ _ htag rfl rfl), hs]
  refine ⟨rfl, ?_, ?_⟩
  · rw [depth_seq, depthOfItems_cons, depthOfItems_cons, depthOfItems_cons, depth_parameters]
    rfl
  · simp only [rewritten_seq, List.map_cons, List.map_nil, Tagged.becomes_scalar htagged,
      Tagged.becomes_parameters htagged]

/-- A tree of at most `n + 1` levels stays one, unless the pass renames and comes at the last level
to a function that holds nothing but scalars. -/
theorem depth_rewritten_le_iff (hv : v.depth ≤ n + 1) :
    (pass.rule.rewritten v).depth ≤ n + 1 ↔
      ¬(pass.Upcases ∧ ∃ c, pass.rule.MeetsAt n v c ∧ c.IsFlatFunction) := by
  constructor
  · rintro h ⟨hpass, c, hmeets, hc⟩
    obtain ⟨-, htwo, hbecomes⟩ := hpass.flatFunction hc
    have hle := hmeets.le_depth
    rw [hbecomes, htwo] at hle
    omega
  · intro h
    by_contra hdeep
    obtain ⟨k, c, hmeets, hle, hlt⟩ := exists_meetsAt_of_lt_depth hv (Nat.not_le.1 hdeep)
    obtain ⟨hpass, hc⟩ := isFlatFunction_of_deeper pass c (by omega)
    obtain ⟨hone, htwo, -⟩ := hpass.flatFunction hc
    obtain rfl : k = n := by omega
    exact h ⟨hpass, c, hmeets, hc⟩

end Pass

end NestedRegex
