import NestedRegex.Proofs.Match.Contents

namespace NestedRegex

theorem Forest.Extends.nodes? {f g : Forest} {s : Span} {nodes : List Node} (hg : Extends g f)
    (hn : f.nodes? s = some nodes) : g.nodes? s = some nodes := by
  obtain ⟨front, back, hc, hstart, hlength⟩ := nodes?_eq_some_iff.1 hn
  exact nodes?_eq_some_iff.2 ⟨front, back, hg.children hc, hstart, hlength⟩

namespace Match

variable {m m' : Match} {h source : Handle} {nodes old : List Node} {op : Operation}
  {e : Failure HandleError}

/-- An operation that is refused leaves the match that it answers with. -/
theorem edit_eq_error_after (op : Operation) (e : Failure HandleError)
    (h : (match op.edit m with | .ok _ _ => false | .error e' _ => decide (e' = e)) = true) :
    op.edit m = .error e (op.after m) := by
  rw [Operation.after]
  cases hop : op.edit m with
  | ok _ m' =>
    rw [hop] at h
    cases h
  | error e' m' =>
    rw [hop] at h
    obtain rfl : e' = e := of_decide_eq_true h
    rfl

/-- Loaded nodes can take the place of the nodes of any handle. -/
theorem replace_ok_of_loaded {g : Forest} (hg : Forest.Loaded m.forest g nodes)
    (hn : m.content h = .ok old) : ∃ m', replace h nodes { m with forest := g } = .ok () m' := by
  obtain ⟨s, hs, hx⟩ := content_eq_ok_iff.1 hn
  have apart : ¬g.ReachedFrom nodes s.seq := by
    intro hr
    obtain ⟨front, back, hc, -⟩ := Forest.nodes?_eq_some_iff.1 hx
    have there : m.forest.contains s.seq = true := Forest.contains_iff.2 ⟨_, hc⟩
    rw [hg.fresh s.seq hr] at there
    cases there
  obtain ⟨m', -, -, -, -, hrun, -⟩ := replace_ok (m := { m with forest := g }) hg.closed hs
    (hg.grows.nodes? hx) hg.holds apart
  exact ⟨m', hrun⟩

section Closed

variable (hf : m.forest.Closed) (ha : m.forest.Acyclic)
include hf

theorem putValues_refused_or_made (h : Handle) (values : List Value) :
    (∃ e, putValues h values m = .error e m) ∨ ∃ m', putValues h values m = .ok () m' := by
  cases hn : m.content h with
  | error e => exact .inl ⟨_, Edit.bind_error (Edit.ask_error hn)⟩
  | ok old =>
    rw [putValues_eq hn values]
    exact .inr (replace_ok_of_loaded (Forest.loaded_loadItems values hf) hn)

include ha

theorem putCopies_refused_or_made (h source : Handle) :
    (∃ e, putCopies h source m = .error e m) ∨ ∃ m', putCopies h source m = .ok () m' := by
  cases hn : m.content h with
  | error e => exact .inl ⟨_, Edit.bind_error (Edit.ask_error hn)⟩
  | ok old =>
    rcases putCopies_cases hf ha h source with hrefused | ⟨g, nodes, hg, hrun⟩
    · exact .inl hrefused
    · rw [hrun]
      exact .inr (replace_ok_of_loaded hg hn)

/-- An operation is refused and changes nothing, or it is made. -/
theorem refused_or_made (op : Operation) :
    (∃ e, op.edit m = .error e m) ∨ ∃ m', op.edit m = .ok () m' := by
  cases op with
  | replace h nodes =>
    rcases replace_cases hf h nodes with hrefused | ⟨m', -, -, -, -, -, -, hrun, -⟩
    · exact .inl hrefused
    · exact .inr ⟨m', hrun⟩
  | putValues h values => exact putValues_refused_or_made hf h values
  | putCopies h source => exact putCopies_refused_or_made hf ha h source
  | swap a b =>
    rcases swap_cases hf a b with hrefused | ⟨m', -, -, -, -, -, -, -, -, hrun, -⟩
    · exact .inl hrefused
    · exact .inr ⟨m', hrun⟩

end Closed

section Found

variable {items : List Pattern} {p : Program} {f : Forest} {seq : SeqName} {start id : Nat}
  {found : Captures}

/-- After any run of operations on a match just found, an operation that is refused, for whatever
handles and arguments, leaves the very match that it was asked of: the children of every sequence,
the number of sequences and the root, and the span of every handle, held or lost. So nothing is
loaded by a refused operation. -/
theorem refused_changes_nothing (hp : Program.compileAll items = .ok p) (hf : f.Closed)
    (ha : f.Acyclic) (hc : f.contains seq = true) (hm : p.match? f seq start = .ok (some found))
    (run : Run (fun _ => True) (ofCaptures id p f found) m) (hrefused : op.edit m = .error e m') :
    m' = m := by
  obtain ⟨hclosed, hacyclic, -⟩ := content_of_run hp hf ha hc hm run
  rcases refused_or_made hclosed hacyclic op with ⟨e', he⟩ | ⟨m'', hrun⟩
  · rw [hrefused] at he
    cases he
    rfl
  · rw [hrefused] at hrun
    cases hrun

/-- New values for a nested capture cost the whole match its span, and copies of it are refused. -/
theorem refused_changes_nothing_lost_source :
    let items : List Pattern := [.named "x" [.any], .sequence [.named "y" [.any]]]
    let f := Forest.ofValue (.seq [.scalar (.int 1), .seq [.seq []]])
    let m := ofCaptures 0 (Program.ofItems items) f
      ⟨⟨⟨2⟩, 0, 2⟩, [some ⟨⟨2⟩, 0, 1⟩, some ⟨⟨1⟩, 0, 1⟩]⟩
    let filled := Operation.after (.putValues ⟨0, 1⟩ [.seq [], .scalar .null]) m
    let asked := Operation.after (.putCopies ⟨0, 2⟩ ⟨0, 0⟩) filled
    Run (fun _ => True) m filled ∧
      putCopies ⟨0, 2⟩ ⟨0, 0⟩ filled = .error (.error (.handleInvalidated "$match")) asked ∧
      asked = filled := by
  intro items f m filled asked
  have hcompiled : Program.compileAll items = .ok (Program.ofItems items) := by rfl
  have hmatch : (Program.ofItems items).match? f f.root 0 =
      .ok (some ⟨⟨⟨2⟩, 0, 2⟩, [some ⟨⟨2⟩, 0, 1⟩, some ⟨⟨1⟩, 0, 1⟩]⟩) := by rfl
  have hrun : Run (fun _ => True) m filled := .single ⟨_, trivial, rfl⟩
  have hrefused : (Operation.putCopies ⟨0, 2⟩ ⟨0, 0⟩).edit filled =
      .error (.error (.handleInvalidated "$match")) asked :=
    edit_eq_error_after (.putCopies ⟨0, 2⟩ ⟨0, 0⟩) _ (by decide +kernel)
  exact ⟨hrun, hrefused, refused_changes_nothing hcompiled (Forest.closed_ofValue _)
    (Forest.acyclic_ofValue _) (Forest.contains_root_ofValue _) hmatch hrun hrefused⟩

end Found

end Match

end NestedRegex
