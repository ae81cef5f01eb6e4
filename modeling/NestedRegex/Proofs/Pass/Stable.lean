import NestedRegex.Proofs.Pass.Runs
import NestedRegex.Proofs.Pass.Unwrapping

namespace NestedRegex

/-- An item at which a block is unwrapped where rules read: it is such a block, or it has one in a
place that the rules read when they have been applied to it. -/
def Value.Touched (v : Value) : Prop :=
  v.Wrapped ∨ ∃ b ∈ (Pass.all.rule.after v).readPlaces, b.Wrapped

namespace Pass

open Rule

/-- A run of the pass over the forest of a value comes to its end and leaves the value. -/
def Leaves (pass : Pass) (v : Value) : Prop :=
  ∃ n g, pass.run (.ofValue v) = ⟨.ok ⟨n, []⟩, g⟩ ∧ g.toValue = .ok v

/-- The rule of the pass leaves all that became of touched items. -/
def Spares (pass : Pass) (v : Value) : Prop :=
  ∀ c, Pass.all.rule.Meets v.rooted c → c.Touched →
    pass.rule.after (Pass.all.rule.becomes c) = Pass.all.rule.becomes c

theorem leaves_iff {pass : Pass} (h : pass ≠ .repeats) {v : Value} (hv : v.rooted = v) :
    pass.Leaves v ↔ pass.rule.rewritten v = v := by
  obtain ⟨g, hrun, hvalue⟩ := run_ofValue h v
  rw [hv] at hvalue
  constructor
  · rintro ⟨n, g', hrun', hvalue'⟩
    rw [hrun] at hrun'
    obtain rfl : g = g' := congrArg Pass.Result.forest hrun'
    exact Except.ok.inj (hvalue.symm.trans hvalue')
  · intro hfix
    rw [hfix] at hvalue
    exact ⟨_, g, hrun, hvalue⟩

theorem rooted_rewritten (r : Rule) (v : Value) :
    (r.rewritten v.rooted).rooted = r.rewritten v.rooted := by
  cases v <;> simp only [Value.rooted, rewritten_seq]

/-- Where nothing is touched, what became of an item is left alone. -/
theorem settled_of_not_touched {v : Value} (h : ¬v.Touched) :
    quiet.after (Pass.all.rule.becomes v) = Pass.all.rule.becomes v := by
  rw [Value.Touched, not_or, rule_all] at h
  rw [rule_all]
  obtain ⟨hw, hread⟩ := h
  refine settled_rewritten ?_ fun b hb hbw => hread ⟨b, hb, hbw⟩
  rw [full_after_eq_quiet hw]
  cases happ : quiet.apply v with
  | none => rw [after_eq_of_none happ, after_eq_of_none happ]
  | some w => rw [after_eq_of_some happ, quiet_settles happ]

/-- A pass whose rule leaves what the rules for names and comparisons leave has work left just at
touched items. -/
theorem leaves_iff_spares (pass : Pass) (h : pass ≠ .repeats)
    (settled : ∀ {x}, quiet.after x = x → pass.rule.after x = x)
    (sure : ∀ {x}, pass.rule.becomes x = x → pass.rule.after x = x) (v : Value) :
    pass.Leaves (Pass.all.rule.rewritten v.rooted) ↔ pass.Spares v := by
  rw [leaves_iff h (rooted_rewritten _ v)]
  constructor
  · exact fun hfix c hm _ => settled_of_rewritten (fun x => sure) hm hfix
  · intro hspares
    refine rewritten_of_settled _ _ _ fun c hm => ?_
    by_cases ht : c.Touched
    · exact hspares c hm ht
    · exact settled (settled_of_not_touched ht)

theorem leaves_iff_spares_upcaseNames (v : Value) :
    Pass.upcaseNames.Leaves (Pass.all.rule.rewritten v.rooted) ↔ Pass.upcaseNames.Spares v :=
  leaves_iff_spares .upcaseNames (by decide) (fun h => (settled_of_quiet h).1) naming_sure v

theorem leaves_iff_spares_flipCompare (v : Value) :
    Pass.flipCompare.Leaves (Pass.all.rule.rewritten v.rooted) ↔ Pass.flipCompare.Spares v :=
  leaves_iff_spares .flipCompare (by decide) (fun h => (settled_of_quiet h).2)
    turnComparison_sure v

/-- A run of all rules comes to its end on every value, and what it leaves to the passes for names
and for comparisons it leaves at touched items: on the value that it comes to, such a pass changes
nothing just when its rule leaves all that became of these. -/
theorem all_leaves_only_touched (v : Value) :
    ∃ n g w, Pass.all.run (.ofValue v) = ⟨.ok ⟨n, []⟩, g⟩ ∧ g.toValue = .ok w ∧
      (Pass.flipCompare.Leaves w ↔ Pass.flipCompare.Spares v) ∧
      (Pass.upcaseNames.Leaves w ↔ Pass.upcaseNames.Spares v) := by
  obtain ⟨g, hrun, hvalue⟩ := run_ofValue (by decide : Pass.all ≠ .repeats) v
  exact ⟨_, g, _, hrun, hvalue, leaves_iff_spares_flipCompare v, leaves_iff_spares_upcaseNames v⟩

/-- A name that the unwrapping of a block brings up stays as it is, and is left to the next pass. -/
theorem unwrapped_name_left :
    let name : String → Value := fun s => .seq [.scalar (.string "name"), .scalar (.string s)]
    let v : Value := .seq [.seq [.scalar (.string "block"), .seq [name "a"]]]
    (∃ n g, Pass.all.run (.ofValue v) = ⟨.ok ⟨n, []⟩, g⟩ ∧ g.toValue = .ok (.seq [name "a"])) ∧
      ∃ n g, Pass.upcaseNames.run (.ofValue (.seq [name "a"])) = ⟨.ok ⟨n, []⟩, g⟩ ∧
        g.toValue = .ok (.seq [name "A"]) := by
  intro name v
  have inside : ∀ {r : Rule}, r.Tagged → ∀ s, r.rewritten (name s) = name s := by
    intro r hr s
    simp only [name, rewritten_seq, List.map_cons, List.map_nil, hr.becomes_scalar]
  have hunwrap : full.after (.seq [.scalar (.string "block"), .seq [name "a"]]) = name "a" :=
    after_eq_of_some rfl
  have hA : (Value.scalar (.string "a")).upcased = .scalar (.string "A") :=
    congrArg (fun s => Value.scalar (.string s)) (by decide : Text.upper "a" = "A")
  have hupper : Pass.upcaseNames.rule.after (name "a") = name "A" := by
    refine after_eq_of_some (naming_eq_some_iff.2 (.name _ rfl ?_))
    simp only [name, hA]
  obtain ⟨g, hrun, hvalue⟩ := run_ofValue (by decide : Pass.all ≠ .repeats) v
  obtain ⟨g', hrun', hvalue'⟩ :=
    run_ofValue (by decide : Pass.upcaseNames ≠ .repeats) (.seq [name "a"])
  refine ⟨⟨_, g, hrun, hvalue.trans ?_⟩, _, g', hrun', hvalue'.trans ?_⟩
  · rw [rule_all, Value.rooted, rewritten_seq, List.map_singleton, becomes, hunwrap,
      inside tagged_full]
  · rw [Value.rooted, rewritten_seq, List.map_singleton, becomes, hupper]
    exact congrArg (fun v => Except.ok (Value.seq [v])) (inside tagged_naming "A")

end Pass

end NestedRegex
