import NestedRegex.Command.FileTree
import NestedRegex.Proofs.Pass.Nesting
import NestedRegex.Proofs.Pass.Runs
import NestedRegex.Proofs.Value.Parsed
import NestedRegex.Proofs.Value.RoundTrip

namespace NestedRegex

open Json Rule

namespace Command

variable {pass : Pass} {layout : Layout} {text document : String} {found : Nat} {v : Value}

/-- From a text that is read, a rewriting pass produces the text of the rewritten tree. -/
theorem produce_eq (hpass : pass ≠ .repeats) (hv : Value.parse text = .ok v) (layout : Layout) :
    ∃ g, pass.run (.ofValue v) = ⟨.ok ⟨pass.rule.hits v.rooted, []⟩, g⟩ ∧
      g.toValue = .ok (pass.rule.rewritten v.rooted) ∧
      produce pass layout text = .ok (.document ((pass.rule.rewritten v.rooted).render layout)
        (pass.rule.hits v.rooted)) := by
  obtain ⟨g, hrun, hvalue⟩ := Pass.run_ofValue hpass v
  refine ⟨g, hrun, hvalue, ?_⟩
  simp only [produce, hv, hrun, hvalue, if_neg hpass, Except.mapError, bind, Except.bind]
  rfl

/-- The values that are read nest no deeper than is read, as trees too. -/
theorem depth_rooted_le (hv : Value.parse text = .ok v) : v.rooted.depth ≤ 127 := by
  have hdepth := Value.depth_le_of_parse hv
  cases v with
  | scalar s => exact (by decide : 1 ≤ 127)
  | seq vs => exact hdepth

theorem floatFree_rooted (hv : v.FloatFree) : v.rooted.FloatFree := by
  cases v with
  | scalar s => exact .seq (List.forall_mem_singleton.2 hv)
  | seq vs => exact hv

/-- What is written of a rewritten tree is read back if the tree nests at most 127 deep, and refused
if it nests deeper. -/
theorem parse_document (hfree : v.FloatFree) (pass : Pass) (layout : Layout) :
    Value.parse ((pass.rule.rewritten v.rooted).render layout ++ "\n") =
      if (pass.rule.rewritten v.rooted).depth ≤ 127 then .ok (pass.rule.rewritten v.rooted)
      else .error .malformed := by
  have hblank : ∀ c ∈ "\n".toList, isBlank c := by simp [isBlank]
  have hfree := pass.preserves_floatFree.floatFree_rewritten (floatFree_rooted hfree)
  exact hfree.parse_render_append layout "\n" hblank

/-- A step on a file tree and what follows it. -/
theorem run_bind_eq {α β : Type} {step : StateM FileTree α} {next : α → StateM FileTree β}
    {t t' : FileTree} {a : α} (h : step.run t = (a, t')) :
    (step >>= next).run t = (next a).run t' := by
  rw [StateT.run_bind, h]
  rfl

/-- Where the text is read that a document is produced from, the document and a new line go to the
standard output, or to the file that is named. -/
theorem perform_document {t : FileTree} {path : String}
    (h : produce pass layout text = .ok (.document document found))
    (hinput : (input FileTree.host path).run t = (.ok text, t)) :
    (perform FileTree.host ⟨path, pass, layout, none⟩).run t =
        (⟨0, document ++ "\n", matchCount found ++ " rewritten\n"⟩, t) ∧
      ∀ target t', t.write target (document ++ "\n") = .ok t' →
        (perform FileTree.host ⟨path, pass, layout, some target⟩).run t =
          (⟨0, "", matchCount found ++ " rewritten\n"⟩, t') := by
  have hdeliver : ∀ target, (perform FileTree.host ⟨path, pass, layout, target⟩).run t =
      (deliver FileTree.host target (.document document found)).run t := by
    intro target
    rw [perform, run_bind_eq hinput]
    simp only [h]
  refine ⟨hdeliver none, fun target t' hwrite => ?_⟩
  have hfile : (FileTree.host.writeFile target (document ++ "\n")).run t = (.ok (), t') := by
    have hget : (get : StateM FileTree FileTree).run t = (t, t) := rfl
    rw [FileTree.host, run_bind_eq hget, hwrite]
    rfl
  rw [hdeliver, deliver]
  simp only [run_bind_eq hfile]
  rfl

/-- From a text of a value without floats a rewriting pass writes a document, and the document is
read back as the rewritten tree, unless the pass upper-cases names and comes inside 126 sequences to
a function of scalars only: there the parameters become a sequence, which nests too deep to be read.
-/
theorem document_reads_back_iff (hpass : pass ≠ .repeats) (hv : Value.parse text = .ok v)
    (hfree : v.FloatFree) (layout : Layout) :
    ∃ document found g w,
      produce pass layout text = .ok (.document document found) ∧
      pass.run (.ofValue v) = ⟨.ok ⟨found, []⟩, g⟩ ∧ g.toValue = .ok w ∧
      (Value.parse (document ++ "\n") = .ok w ↔
        ¬(pass.Upcases ∧ ∃ c, pass.rule.MeetsAt 126 v.rooted c ∧ c.IsFlatFunction)) ∧
      ∀ t path, (input FileTree.host path).run t = (.ok text, t) →
        (perform FileTree.host ⟨path, pass, layout, none⟩).run t =
            (⟨0, document ++ "\n", matchCount found ++ " rewritten\n"⟩, t) ∧
          ∀ target t', t.write target (document ++ "\n") = .ok t' →
            (perform FileTree.host ⟨path, pass, layout, some target⟩).run t =
              (⟨0, "", matchCount found ++ " rewritten\n"⟩, t') := by
  obtain ⟨g, hrun, hvalue, hproduce⟩ := produce_eq hpass hv layout
  refine ⟨_, _, g, _, hproduce, hrun, hvalue, ?_, fun t path => perform_document hproduce⟩
  rw [parse_document hfree, ← Pass.depth_rewritten_le_iff (depth_rooted_le hv)]
  by_cases hdepth : (pass.rule.rewritten v.rooted).depth ≤ 127
  · exact iff_of_true (if_pos hdepth) hdepth
  · rw [if_neg hdepth]
    exact iff_of_false nofun hdepth

/-- A comparison with both branches, to be turned around. -/
def comparison : Value :=
  .seq [.scalar (.string "if"),
    .seq [.scalar (.string "binary"), .scalar (.string "<="), .scalar (.int 1), .scalar (.int 2)],
    .seq [], .scalar (.string "\u00e9")]

theorem document_reads_back_comparison :
    Value.parse (comparison.render .pretty) = .ok comparison ∧ comparison.FloatFree ∧
      ∃ document found g w,
        produce .flipCompare .compact (comparison.render .pretty) = .ok (.document document found) ∧
        Pass.flipCompare.run (.ofValue comparison) = ⟨.ok ⟨found, []⟩, g⟩ ∧ g.toValue = .ok w ∧
        Value.parse (document ++ "\n") = .ok w := by
  have hfree : comparison.FloatFree := by simp [comparison, Scalar.kind]
  have hparse := hfree.parse_render .pretty
  obtain ⟨document, found, g, w, hproduce, hrun, hvalue, hread, -⟩ :=
    document_reads_back_iff (by decide : Pass.flipCompare ≠ .repeats) hparse hfree .compact
  exact ⟨hparse, hfree, document, found, g, w, hproduce, hrun, hvalue,
    hread.2 fun h => absurd h.1 (by rintro (h | h) <;> cases h)⟩

/-- A function of scalars inside 126 sequences. -/
def deepFunction : Value :=
  Value.nested 126 (.seq [.scalar (.string "function"), .scalar .null, .scalar (.int 1),
    .scalar (.int 2)])

theorem deepFunction_not_read_back :
    Value.parse (deepFunction.render .compact) = .ok deepFunction ∧ deepFunction.FloatFree ∧
      ∃ document found g w,
        produce .all .compact (deepFunction.render .compact) = .ok (.document document found) ∧
        Pass.all.run (.ofValue deepFunction) = ⟨.ok ⟨found, []⟩, g⟩ ∧ g.toValue = .ok w ∧
        Value.parse (document ++ "\n") = .error .malformed := by
  have hfree : deepFunction.FloatFree :=
    Value.floatFree_nested_iff.2 (by simp [Scalar.kind])
  have hdepth : deepFunction.depth = maxDepth := Value.depth_nested _ _
  have hparse := hfree.parse_render .compact
  rw [if_pos (Nat.le_of_eq hdepth)] at hparse
  obtain ⟨g, hrun, hvalue, hproduce⟩ := produce_eq (by decide : Pass.all ≠ .repeats) hparse .compact
  refine ⟨hparse, hfree, _, _, g, _, hproduce, hrun, hvalue, ?_⟩
  have hdeep : ¬(Pass.all.rule.rewritten deepFunction.rooted).depth ≤ 127 := by
    rw [Pass.depth_rewritten_le_iff (depth_rooted_le hparse), not_not]
    exact ⟨.inr rfl, _, Pass.meetsAt_nested 125 _,
      "function", .null, .int 1, .int 2, by decide, rfl⟩
  rw [parse_document hfree, if_neg hdeep]

end Command

end NestedRegex
