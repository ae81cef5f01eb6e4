import NestedRegex.Pass.Run
import NestedRegex.Proofs.Forest.Items
import NestedRegex.Proofs.Pass.Enacts

namespace NestedRegex.Pass

open Match Pattern

variable {f : Forest} {p : Pattern} {ps : List Pattern} {rule : Rule} {rules : List Rule}
  {v : Value} {n : Node} {names : List SeqName} {home : SeqName} {front back : List Node}

/-- What a rule does not rewrite, its pattern does not match. -/
theorem Enacts.passes (h : Enacts p rule) (hc : f.children? home = some (front ++ n :: back))
    (hs : f.Shows v n names) (hv : rule.apply v = none) :
    ways f p home ⟨front.length, fun _ => none⟩ = [] := by
  by_contra hways
  have hfits : Fits f p v :=
    ⟨n, names, hs, home, ⟨front.length, fun _ => none⟩, node_at hc, hways⟩
  have hsome := h.fits hfits
  rw [hv] at hsome
  cases hsome

theorem enacts_none : Enacts (.choice []) .never where
  fits h := by
    obtain ⟨p, hp, -⟩ := h.choice
    cases hp
  rewrites _ _ _ _ _ h := nomatch h

theorem enacts_orElse {others : Rule} (hp : Enacts p rule) (hps : Enacts (.choice ps) others) :
    Enacts (.choice (p :: ps)) (rule.orElse others) where
  fits {f v} h := by
    rw [Rule.apply_orElse, Option.isSome_or]
    obtain ⟨q, hq, hv⟩ := h.choice
    rcases List.mem_cons.1 hq with rfl | hq
    · rw [hp.fits hv, Bool.true_or]
    · rw [hps.fits (hv.choice_of_mem hq), Bool.or_true]
  rewrites {f home front back n v w names} hf ha hc hs hid hr := by
    have hways : ways f (.choice (p :: ps)) home ⟨front.length, fun _ => none⟩ =
        ways f p home ⟨front.length, fun _ => none⟩ ++
          ways f (.choice ps) home ⟨front.length, fun _ => none⟩ := by
      simp only [ways, waysOfAlternatives]
    have hcaptures : captures (.choice (p :: ps)) = captures p ++ captures (.choice ps) := by
      simp only [captures, capturesOfItems]
    rcases Option.or_eq_some_iff.1 hr with hr | ⟨hnone, hr⟩
    · obtain ⟨way, rest, hway, hposition, hnames, hedits⟩ := hp.rewrites hf ha hc hs hid hr
      refine ⟨way, rest ++ ways f (.choice ps) home ⟨front.length, fun _ => none⟩, ?_, hposition,
        fun name hname => ?_, hedits⟩
      · rw [hways, hway, List.cons_append]
      · rw [hcaptures]
        exact List.mem_append_left _ (hnames name hname)
    · obtain ⟨way, rest, hway, hposition, hnames, hedits⟩ := hps.rewrites hf ha hc hs hid hr
      refine ⟨way, rest, ?_, hposition, fun name hname => ?_, hedits⟩
      · rw [hways, hp.passes hc hs hnone, List.nil_append, hway]
      · rw [hcaptures]
        exact List.mem_append_right _ (hnames name hname)

/-- A choice of patterns enacts the first of their rules. -/
theorem enacts_choice (h : List.Forall₂ Enacts ps rules) :
    Enacts (.choice ps) (.firstOf rules) := by
  induction h with
  | nil => exact enacts_none
  | cons hp _ ih => exact enacts_orElse hp ih

/-- A search for a pattern that enacts a rule rewrites by the rule. -/
theorem Enacts.applies (h : Enacts p rule) {program : Program}
    (hp : Program.compileAll [p] = .ok program) : Search.Applies program editing rule where
  compiled := ⟨[p], hp⟩
  passes {f home front back n v names} hf ha hc hs hv := by
    have there : f.contains home = true := Forest.contains_iff.2 ⟨_, hc⟩
    rw [Machine.match?_eq hp hf ha there, matchings, waysOfItems_single, h.passes hc hs hv]
    rfl
  rewrites {f home front back n v w names} hf ha hc hs hid hr := by
    obtain ⟨rfl, -, -⟩ := Program.compileAll_ok hp
    have there : f.contains home = true := Forest.contains_iff.2 ⟨_, hc⟩
    obtain ⟨way, rest, hway, hposition, hnames, hedits⟩ := h.rewrites hf ha hc hs hid hr
    have hin : ∀ name, (way.bound name).isSome → name ∈ Pattern.names [p] := by
      intro name hname
      rw [Pattern.names, List.mem_eraseDups, capturesOfItems, capturesOfItems, List.append_nil]
      exact hnames name hname
    refine ⟨⟨⟨home, front.length, 1⟩, (Pattern.names [p]).map way.bound⟩, ?_, rfl, ?_⟩
    · rw [Machine.match?_eq hp hf ha there, matchings, waysOfItems_single, hway,
        Choices.andThen_ok, hposition, Nat.add_sub_cancel_left]
      rfl
    · intro id data
      obtain ⟨m, n', names', hrun, hrewrote⟩ := hedits _ rfl (binds_ofCaptures id f _ hin)
      refine ⟨m, n', names', ?_, hrewrote⟩
      simp only [editing, Edit.received, bind, EStateM.bind, hrun]
      rfl

/-- Every pass compiles. -/
theorem program_eq (pass : Pass) : pass.program = .ok (Program.ofItems pass.items) := by
  cases pass <;> rfl

theorem enacts_naming : List.Forall₂ Enacts namingRules Rule.forNames :=
  .cons enacts_name (.cons enacts_function (.cons enacts_property (.cons enacts_declarations .nil)))

/-- Each pass but the one for runs has one pattern, which enacts the rule of the pass. -/
theorem enacts_rule {pass : Pass} (h : pass ≠ .repeats) :
    ∃ p, pass.items = [p] ∧ Enacts p pass.rule := by
  cases pass with
  | upcaseNames => exact ⟨_, rfl, enacts_choice enacts_naming⟩
  | flipCompare => exact ⟨_, rfl, enacts_comparison⟩
  | unwrapBlocks => exact ⟨_, rfl, enacts_block⟩
  | all =>
    have hall := List.rel_append enacts_naming (.cons enacts_comparison (.cons enacts_block .nil))
    exact ⟨_, rfl, enacts_choice hall⟩
  | repeats => exact absurd rfl h

theorem tasks_le_level (h : v.size ≤ f.placeCount + 1) : 5 * v.size ≤ 2 ^ level f := by
  calc 5 * v.size
    _ ≤ 2 ^ 3 * 2 ^ f.placeCount := Nat.mul_le_mul (by decide) (Nat.le_trans h Nat.lt_two_pow_self)
    _ = 2 ^ (3 + f.placeCount) := (Nat.pow_add 2 3 f.placeCount).symm
    _ ≤ 2 ^ (Progress.usualLevel + f.size + f.placeCount) := by
      refine Nat.pow_le_pow_right (by decide) (Nat.add_le_add_right ?_ f.placeCount)
      exact Nat.le_trans (by decide) (Nat.le_add_right _ _)

/-- A pass over a forest in good order whose root shows a value. -/
theorem run_shows {pass : Pass} (h : pass ≠ .repeats) (hf : f.Closed) (ha : f.Acyclic)
    (hs : f.Shows v (.seq f.root) names) :
    ∃ g names', pass.run f = ⟨.ok ⟨pass.rule.hits v, []⟩, g⟩ ∧ g.Closed ∧ g.Acyclic ∧
      g.Shows (pass.rule.rewritten v) (.seq g.root) names' := by
  obtain ⟨p, hp, henacts⟩ := enacts_rule h
  have hreceiver : pass.receiver = editing := if_neg h
  have hprogram : Program.compileAll [p] = .ok (Program.ofItems [p]) := by
    rw [← hp]
    exact program_eq pass
  obtain ⟨counts, g, names', hrun, hfound, hedited, hs'⟩ :=
    Program.search_rewrites (henacts.applies hprogram) hf ha hs (tasks_le_level hs.size_le)
      ([] : List String)
  refine ⟨g, names', ?_, hedited.closed, hedited.acyclic, hs'⟩
  have hp' := program_eq pass
  rw [run, hp', hreceiver, hp]
  simp only [hrun]
  rw [← hfound]
  rfl

/-- A pass over the forest of a value. -/
theorem run_ofValue {pass : Pass} (h : pass ≠ .repeats) (v : Value) :
    ∃ g, pass.run (.ofValue v) = ⟨.ok ⟨pass.rule.hits v.rooted, []⟩, g⟩ ∧
      g.toValue = .ok (pass.rule.rewritten v.rooted) := by
  obtain ⟨names, hs⟩ := Forest.shows_ofValue v
  obtain ⟨g, names', hrun, hf, ha, hs'⟩ :=
    run_shows h (Forest.closed_ofValue v) (Forest.acyclic_ofValue v) hs
  exact ⟨g, hrun, hs'.toValue hf ha⟩

end NestedRegex.Pass
