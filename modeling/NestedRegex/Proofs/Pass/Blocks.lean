import NestedRegex.Proofs.Pass.Runs
import NestedRegex.Proofs.Pass.Unwrapping

namespace NestedRegex

open Rule

/-- An item that a run leaves as a block of one statement: it is a tag and a list of one statement
when blocks were unwrapped at the item, then at the tag and at the list. -/
def Value.LeavesBlock (v : Value) : Prop :=
  ∃ t b s, unwrapBlock.after v = .seq [t, b] ∧ unwrapBlock.after t = .scalar (.string "block") ∧
    unwrapBlock.after b = .seq [s]

namespace Rule

variable {r : Rule} {v : Value} {a : Scalar}

theorem unwrapBlock_eq_none_iff : unwrapBlock.apply v = none ↔ ¬v.Wrapped := by
  refine ⟨fun h ⟨s, hs⟩ => ?_, unwrapBlock_eq_none⟩
  rw [unwrapBlock_eq_some_iff.2 hs] at h
  cases h

theorem rewritten_eq_scalar_iff : r.rewritten v = .scalar a ↔ v = .scalar a := by
  cases v <;> simp

theorem rewritten_eq_seq_iff {ws : List Value} :
    r.rewritten v = .seq ws ↔ ∃ vs, v = .seq vs ∧ vs.map r.becomes = ws := by
  cases v <;> simp

/-- What becomes of an item is a block of one statement just if the run leaves one there. -/
theorem wrapped_becomes_iff : (unwrapBlock.becomes v).Wrapped ↔ v.LeavesBlock := by
  constructor
  · intro ⟨s, hs⟩
    obtain ⟨vs, hv, hvs⟩ := rewritten_eq_seq_iff.1 hs
    obtain ⟨t, us, rfl, ht, hus⟩ := List.map_eq_cons_iff.1 hvs
    obtain ⟨b, rfl, hb⟩ := List.map_eq_singleton_iff.1 hus
    obtain ⟨xs, hxs, hx⟩ := rewritten_eq_seq_iff.1 hb
    obtain ⟨x, rfl, -⟩ := List.map_eq_singleton_iff.1 hx
    exact ⟨t, b, x, hv, rewritten_eq_scalar_iff.1 ht, hxs⟩
  · intro ⟨t, b, x, hv, ht, hb⟩
    have tag : unwrapBlock.becomes t = .scalar (.string "block") := rewritten_eq_scalar_iff.2 ht
    have list : unwrapBlock.becomes b = .seq [unwrapBlock.becomes x] :=
      rewritten_eq_seq_iff.2 ⟨[x], hb, rfl⟩
    refine ⟨unwrapBlock.becomes x, rewritten_eq_seq_iff.2 ⟨[t, b], hv, ?_⟩⟩
    rw [List.map_cons, List.map_singleton, tag, list]

end Rule

/-- A block is left only where one was unwrapped. -/
theorem Value.LeavesBlock.unwrapped {v : Value} (h : v.LeavesBlock) :
    v.Wrapped ∨ ∃ t b, v = .seq [t, b] ∧ (t.Wrapped ∨ b.Wrapped) := by
  by_cases hv : v.Wrapped
  · exact .inl hv
  · obtain ⟨t, b, s, hafter, ht, hb⟩ := h
    rw [after_eq_of_none (unwrapBlock_eq_none hv)] at hafter
    refine .inr ⟨t, b, hafter, ?_⟩
    by_contra hnone
    obtain ⟨ht', hb'⟩ := not_or.1 hnone
    rw [after_eq_of_none (unwrapBlock_eq_none ht')] at ht
    rw [after_eq_of_none (unwrapBlock_eq_none hb')] at hb
    exact hv ⟨s, by rw [hafter, ht, hb]⟩

namespace Pass

variable {f g : Forest} {v : Value} {names : List SeqName}

/-- A run that finds nothing changes nothing. -/
theorem forest_of_run {pass : Pass} {lines : List String}
    (h : pass.run f = ⟨.ok ⟨0, lines⟩, g⟩) : g = f := by
  rw [run, program_eq pass] at h
  obtain ⟨houtcome, rfl⟩ := Pass.Result.mk.inj h
  generalize hr : Program.search _ _ _ _ f ([] : List String) = r at houtcome
  cases hc : r.outcome with
  | error e =>
    rw [hc] at houtcome
    cases houtcome
  | ok counts =>
    rw [hc] at houtcome
    obtain ⟨hfound, -⟩ := Pass.Report.mk.inj (Except.ok.inj houtcome)
    subst hr
    exact Search.forest_of_found_zero counts hc hfound

/-- A run finds and changes nothing just if the rule leaves everything inside the value. -/
theorem run_eq_unchanged_iff {pass : Pass} (h : pass ≠ .repeats) (hf : f.Closed) (ha : f.Acyclic)
    (hs : f.Shows v (.seq f.root) names) :
    pass.run f = ⟨.ok ⟨0, []⟩, f⟩ ↔ ∀ w, v.Inside w → pass.rule.apply w = none := by
  obtain ⟨g, names', hrun, -⟩ := run_shows h hf ha hs
  rw [← hits_eq_zero_iff, hrun]
  constructor
  · intro hsame
    obtain ⟨hreport, -⟩ := Pass.Result.mk.inj hsame
    exact (Pass.Report.mk.inj (Except.ok.inj hreport)).1
  · intro hnone
    rw [hnone] at hrun ⊢
    rw [forest_of_run hrun]

/-- A run of the unwrapping of blocks comes to its end on every value, and the blocks of one
statement that are then still attached are what became of the items that leave one. Another run
finds and changes nothing just if there is no such item, and an item leaves a block only where one
was unwrapped. -/
theorem blocks_left (v : Value) : ∃ g,
    Pass.unwrapBlocks.run (.ofValue v) = ⟨.ok ⟨unwrapBlock.hits v.rooted, []⟩, g⟩ ∧
      (∀ b : Value, b.Wrapped →
        ((∃ id node, g.Reaches g.root id ∧ node ∈ g.nodesOf id ∧ g.read node = .ok b) ↔
          ∃ c, unwrapBlock.Meets v.rooted c ∧ c.LeavesBlock ∧ unwrapBlock.becomes c = b)) ∧
      (Pass.unwrapBlocks.run g = ⟨.ok ⟨0, []⟩, g⟩ ↔
        ¬∃ c, unwrapBlock.Meets v.rooted c ∧ c.LeavesBlock) ∧
      ∀ c : Value, c.LeavesBlock →
        c.Wrapped ∨ ∃ t b, c = .seq [t, b] ∧ (t.Wrapped ∨ b.Wrapped) := by
  have editing : Pass.unwrapBlocks ≠ .repeats := by decide
  obtain ⟨names, hs⟩ := Forest.shows_ofValue v
  obtain ⟨g, names', hrun, hf, ha, hs'⟩ :=
    run_shows editing (Forest.closed_ofValue v) (Forest.acyclic_ofValue v) hs
  refine ⟨g, hrun, fun b hb => ?_, ?_, fun c => Value.LeavesBlock.unwrapped⟩
  · rw [← hs'.inside_iff hf ha]
    change (unwrapBlock.rewritten v.rooted).Inside b ↔ _
    rw [inside_rewritten_iff]
    constructor
    · intro ⟨c, hc, hbecomes⟩
      exact ⟨c, hc, wrapped_becomes_iff.1 (hbecomes ▸ hb), hbecomes⟩
    · intro ⟨c, hc, _, hbecomes⟩
      exact ⟨c, hc, hbecomes⟩
  · rw [run_eq_unchanged_iff editing hf ha hs']
    change (∀ w, (unwrapBlock.rewritten v.rooted).Inside w → unwrapBlock.apply w = none) ↔ _
    simp only [inside_rewritten_iff, unwrapBlock_eq_none_iff]
    constructor
    · intro none ⟨c, hc, hleaves⟩
      exact none _ ⟨c, hc, rfl⟩ (wrapped_becomes_iff.2 hleaves)
    · intro none w ⟨c, hc, hbecomes⟩ hw
      exact none ⟨c, hc, wrapped_becomes_iff.1 (hbecomes ▸ hw)⟩

/-- A block around a block is unwrapped once, and the next run has the inner block to unwrap. -/
theorem inner_block_left :
    let block : Value → Value := fun s => .seq [.scalar (.string "block"), .seq [s]]
    let v : Value := .seq [block (block (.scalar (.int 1)))]
    ∃ g, Pass.unwrapBlocks.run (.ofValue v) = ⟨.ok ⟨1, []⟩, g⟩ ∧
      g.toValue = .ok (.seq [block (.scalar (.int 1))]) ∧
      (block (.scalar (.int 1))).Wrapped ∧
      ∃ g', Pass.unwrapBlocks.run g = ⟨.ok ⟨1, []⟩, g'⟩ ∧
        g'.toValue = .ok (.seq [.scalar (.int 1)]) := by
  intro block v
  have editing : Pass.unwrapBlocks ≠ .repeats := by decide
  have outer : Pass.unwrapBlocks.rule.rewritten v.rooted = .seq [block (.scalar (.int 1))] ∧
      Pass.unwrapBlocks.rule.hits v.rooted = 1 := by
    simp [Value.rooted, v, block, Pass.rule, becomes, hitsAt, after, unwrapBlock]
  have inner : Pass.unwrapBlocks.rule.rewritten (.seq [block (.scalar (.int 1))]) =
      .seq [.scalar (.int 1)] ∧
      Pass.unwrapBlocks.rule.hits (.seq [block (.scalar (.int 1))]) = 1 := by
    simp [block, Pass.rule, becomes, hitsAt, after, unwrapBlock]
  obtain ⟨names, hs⟩ := Forest.shows_ofValue v
  obtain ⟨g, names', hrun, hf, ha, hs'⟩ :=
    run_shows editing (Forest.closed_ofValue v) (Forest.acyclic_ofValue v) hs
  rw [outer.1] at hs'
  rw [outer.2] at hrun
  obtain ⟨g', names'', hrun', hf', ha', hs''⟩ := run_shows editing hf ha hs'
  rw [inner.1] at hs''
  rw [inner.2] at hrun'
  exact ⟨g, hrun, hs'.toValue hf ha, ⟨_, rfl⟩, g', hrun', hs''.toValue hf' ha'⟩

end Pass

end NestedRegex
