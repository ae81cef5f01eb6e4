import NestedRegex.Proofs.Machine.Answers
import NestedRegex.Proofs.Match.Sound

namespace NestedRegex.Match

open Relation

/-- An edit through handles. -/
inductive Operation where
  | replace (h : Handle) (nodes : List Node)
  | putValues (h : Handle) (values : List Value)
  | putCopies (h source : Handle)
  | swap (a b : Handle)

namespace Operation

def edit : Operation → Edit Unit
  | .replace h nodes => Match.replace h nodes
  | .putValues h values => Match.putValues h values
  | .putCopies h source => Match.putCopies h source
  | .swap a b => Match.swap a b

/-- The match after an operation, whether it was made or refused. -/
def after (op : Operation) (m : Match) : Match :=
  match op.edit m with
  | .ok _ m => m
  | .error _ m => m

end Operation

/-- One operation of some that are allowed. -/
def Step (allowed : Operation → Prop) (m m' : Match) : Prop :=
  ∃ op, allowed op ∧ op.after m = m'

/-- Any number of allowed operations in any order. -/
def Run (allowed : Operation → Prop) : Match → Match → Prop :=
  ReflTransGen (Step allowed)

/-- All that an operation can do to a match. -/
inductive Effect (allowed : Operation → Prop) (m : Match) : Match → Prop
  | refused : Effect allowed m m
  | loaded {g nodes} (hg : Forest.Loaded m.forest g nodes) :
    Effect allowed m { m with forest := g }
  | put {g nodes m' h s front old back kept gone} (hg : Forest.Loaded m.forest g nodes)
    (hr : Replaced { m with forest := g } m' h nodes s front old back kept gone) :
    Effect allowed m m'
  | replaced {m' h nodes s front old back kept gone} (given : allowed (.replace h nodes))
    (hr : Replaced m m' h nodes s front old back kept gone) : Effect allowed m m'
  | swapped {m' a b x y xs ys frontX backX frontY backY}
    (hs : Swapped m m' a b x y xs ys frontX backX frontY backY) : Effect allowed m m'

variable {allowed : Operation → Prop} {m m' : Match} {op : Operation} {home : SeqName}
  {front back : List Node}

/-- A run goes on with an operation that is made. -/
theorem Run.made {first : Match} (run : Run allowed first m) (op : Operation) (given : allowed op)
    (h : op.edit m = .ok () m') : Run allowed first m' :=
  run.tail ⟨op, given, by rw [Operation.after, h]⟩

/-- An operation that is made leaves the match that it answers with. -/
theorem edit_eq_ok_after (op : Operation)
    (h : (match op.edit m with | .ok _ _ => true | .error _ _ => false) = true) :
    op.edit m = .ok () (op.after m) := by
  rw [Operation.after]
  cases hop : op.edit m with
  | ok _ m' => rfl
  | error e m' =>
    rw [hop] at h
    cases h

theorem effect_ok (h : op.edit m = .ok () m') (he : Effect allowed m m') :
    Effect allowed m (op.after m) := by
  rw [Operation.after, h]
  exact he

theorem effect_error {e : Failure HandleError} (h : op.edit m = .error e m')
    (he : Effect allowed m m') : Effect allowed m (op.after m) := by
  rw [Operation.after, h]
  exact he

/-- Loaded nodes are put in the place of a handle's nodes, or nothing but the loading remains. -/
theorem effect_put {h : Handle} {g : Forest} {nodes : List Node}
    (hg : Forest.Loaded m.forest g nodes)
    (he : op.edit m = replace h nodes { m with forest := g }) :
    Effect allowed m (op.after m) := by
  have hc : Forest.Closed { m with forest := g }.forest := hg.closed
  rcases replace_cases hc h nodes with ⟨e, hr⟩ | ⟨m', s, front, old, back, kept, gone, hrun, hr⟩
  · exact effect_error (he.trans hr) (.loaded hg)
  · exact effect_ok (he.trans hrun) (.put hg hr)

theorem effect_after (hf : m.forest.Closed) (ha : m.forest.Acyclic) (given : allowed op) :
    Effect allowed m (op.after m) := by
  cases op with
  | replace h nodes =>
    rcases replace_cases hf h nodes with ⟨e, hr⟩ | ⟨m', s, front, old, back, kept, gone, hrun, hr⟩
    · exact effect_error hr .refused
    · exact effect_ok hrun (.replaced given hr)
  | putValues h values =>
    rcases putValues_cases hf h values with ⟨e, hr⟩ | ⟨g, nodes, hg, hr⟩
    · exact effect_error hr .refused
    · exact effect_put hg hr
  | putCopies h source =>
    rcases putCopies_cases hf ha h source with ⟨e, hr⟩ | ⟨g, nodes, hg, hr⟩
    · exact effect_error hr .refused
    · exact effect_put hg hr
  | swap a b =>
    rcases swap_cases hf a b with ⟨e, hr⟩ | ⟨m', x, y, xs, ys, fx, bx, fy, by', hrun, hs⟩
    · exact effect_error hr .refused
    · exact effect_ok hrun (.swapped hs)

theorem Step.effect (hf : m.forest.Closed) (ha : m.forest.Acyclic) (h : Step allowed m m') :
    Effect allowed m m' := by
  obtain ⟨op, given, rfl⟩ := h
  exact effect_after hf ha given

theorem Sound.effect (hm : m.Sound home front back) (h : Effect allowed m m') :
    m'.Sound home front back := by
  cases h with
  | refused => exact hm
  | loaded hg => exact hm.loaded hg
  | put hg hr => exact (hm.loaded hg).replaced hr
  | replaced _ hr => exact hm.replaced hr
  | swapped hs => exact hm.swapped hs

theorem Sound.step (hm : m.Sound home front back) (h : Step allowed m m') :
    m'.Sound home front back :=
  hm.effect (h.effect hm.closed hm.acyclic)

/-- A match in good order stays so through every run. -/
theorem Sound.run (hm : m.Sound home front back) (h : Run allowed m m') :
    m'.Sound home front back := by
  induction h with
  | refl => exact hm
  | tail _ hs ih => exact ih.step hs

section Found

variable {items : List Pattern} {p : Program} {f : Forest} {seq : SeqName} {start id : Nat}
  {b : Captures} {s : Span} {h : Handle}

theorem held_ofCaptures {i : Nat} (hs : (ofCaptures id p f b).places[i]? = some (Place.held s)) :
    s = b.whole ∨ some s ∈ b.slots := by
  have hm := List.mem_of_getElem? hs
  rcases List.mem_cons.1 hm with he | hm
  · exact .inl (Place.held.inj he)
  · obtain ⟨slot, hslot, he⟩ := List.mem_map.1 hm
    cases slot with
    | none => cases he
    | some t => exact .inr (Place.held.inj he ▸ hslot)

/-- The spans of a match just found lie at or below its sequence, and there between its ends. -/
theorem placed_ofCaptures (hp : Program.compileAll items = .ok p) (hf : f.Closed)
    (ha : f.Acyclic) (hc : f.contains seq = true) (hm : p.match? f seq start = .ok (some b))
    (id : Nat) :
    (∃ mid, f.children? seq = some ((f.nodesOf seq).take start ++ mid ++
        (f.nodesOf seq).drop b.whole.stop)) ∧
      ∀ {i : Nat} {s : Span}, (ofCaptures id p f b).places[i]? = some (Place.held s) →
        f.Reaches seq s.seq ∧
          InZone f seq ((f.nodesOf seq).take start) ((f.nodesOf seq).drop b.whole.stop) s := by
  obtain ⟨hseq, hstart, hstop, hslots⟩ := Program.match_within hp hf ha hc hm
  have hle : start ≤ b.whole.stop := hstart ▸ Nat.le_add_right _ _
  have hfront : ((f.nodesOf seq).take start).length = start := by
    rw [List.length_take]
    omega
  refine ⟨?_, fun {i s} hs => ?_⟩
  · refine ⟨((f.nodesOf seq).drop start).take (b.whole.stop - start), ?_⟩
    have hdrop : (f.nodesOf seq).drop b.whole.stop =
        ((f.nodesOf seq).drop start).drop (b.whole.stop - start) := by
      rw [List.drop_drop, Nat.add_sub_cancel' hle]
    rw [hdrop, List.append_assoc, List.take_append_drop, List.take_append_drop]
    exact Forest.nodesOf_of_contains hc
  · -- In the sequence itself a span lies between the two ends of the match.
    have zone : s.seq = seq → start ≤ s.start ∧ s.stop ≤ b.whole.stop →
        f.Reaches seq s.seq ∧
          InZone f seq ((f.nodesOf seq).take start) ((f.nodesOf seq).drop b.whole.stop) s := by
      intro e hin
      refine ⟨e ▸ .refl, ?_⟩
      simp only [InZone, Span.Fits, margin, e, if_true, hfront, List.length_drop]
      omega
    rcases held_ofCaptures hs with rfl | hslot
    · exact zone hseq ⟨Nat.le_of_eq hstart.symm, Nat.le_refl _⟩
    · have hin := hslots s hslot
      rcases hin.place with ⟨e, hl, hs⟩ | ⟨j, top, -, -, hj, ht⟩
      · exact zone e ⟨hl, hs⟩
      · have hchild := Forest.child_of_getElem? hj
        have ne : s.seq ≠ seq := fun e => ha seq (.head' hchild (e ▸ ht))
        refine ⟨.head hchild ht, ?_⟩
        simp only [InZone, Span.Fits, margin, if_neg ne]
        exact ⟨Nat.zero_le _, hin.inside⟩

/-- A match just found is in good order, with all children before and behind it out of reach. -/
theorem sound_ofCaptures (hp : Program.compileAll items = .ok p) (hf : f.Closed)
    (ha : f.Acyclic) (hc : f.contains seq = true) (hr : f.Reaches f.root seq)
    (hm : p.match? f seq start = .ok (some b)) (id : Nat) :
    (ofCaptures id p f b).Sound seq ((f.nodesOf seq).take start)
      ((f.nodesOf seq).drop b.whole.stop) :=
  have hplaced := placed_ofCaptures hp hf ha hc hm id
  ⟨hf, ha, hr, hplaced.1, hplaced.2⟩

theorem Sound.content {m : Match} {home : SeqName} {front back : List Node}
    (hm : m.Sound home front back) (hs : m.span h = .ok s) :
    s.stop ≤ (m.forest.nodesOf s.seq).length ∧ (∃ nodes, m.content h = .ok nodes) ∧
      m.forest.Reaches m.forest.root s.seq := by
  obtain ⟨hr, -, hstop⟩ := hm.span hs
  have hle : s.stop ≤ (m.forest.nodesOf s.seq).length := Nat.le_trans (Nat.le_add_right _ _) hstop
  have hin := hm.closed.reaches hm.there hr
  have hn := Forest.nodes?_of_stop_le hin hle
  exact ⟨hle, ⟨_, content_eq_ok_iff.2 ⟨s, hs, hn⟩⟩, hm.attached.trans hr⟩

/-- After any run of operations on a match just found, the forest is closed and has no cycles, and
every valid handle has nodes that are still attached to the root. -/
theorem valid_handles_attached (hp : Program.compileAll items = .ok p) (hf : f.Closed)
    (ha : f.Acyclic) (hroot : f.contains f.root = true) (hr : f.Reaches f.root seq)
    (hm : p.match? f seq start = .ok (some b)) {m : Match}
    (run : Run (fun _ => True) (ofCaptures id p f b) m) :
    m.forest.Closed ∧ m.forest.Acyclic ∧ ∀ h s, m.span h = .ok s →
      s.stop ≤ (m.forest.nodesOf s.seq).length ∧ (∃ nodes, m.content h = .ok nodes) ∧
        m.forest.Reaches m.forest.root s.seq := by
  have hs := (sound_ofCaptures hp hf ha (hf.reaches hroot hr) hr hm id).run run
  exact ⟨hs.closed, hs.acyclic, fun h s hspan => hs.content hspan⟩

/-- A capture that was swapped out of a nested sequence has the content of the other one. -/
theorem valid_handles_attached_swapped :
    let items : List Pattern := [.sequence [.named "x" [.any]], .named "y" [.any]]
    let f := Forest.ofValue (.seq [.seq [.seq []], .scalar .null])
    let m := ofCaptures 0 (Program.ofItems items) f
      ⟨⟨⟨2⟩, 0, 2⟩, [some ⟨⟨1⟩, 0, 1⟩, some ⟨⟨2⟩, 1, 1⟩]⟩
    let swapped := Operation.after (.swap ⟨0, 1⟩ ⟨0, 2⟩) m
    swapped.span ⟨0, 1⟩ = .ok ⟨⟨2⟩, 1, 1⟩ ∧
      swapped.forest.Reaches swapped.forest.root ⟨2⟩ := by
  intro items f m swapped
  have hspan : swapped.span ⟨0, 1⟩ = .ok ⟨⟨2⟩, 1, 1⟩ := by rfl
  have hcompiled : Program.compileAll items = .ok (Program.ofItems items) := by rfl
  have hrun : Run (fun _ => True) m swapped := .single ⟨_, trivial, rfl⟩
  have hmatch : (Program.ofItems items).match? f f.root 0 =
      .ok (some ⟨⟨⟨2⟩, 0, 2⟩, [some ⟨⟨1⟩, 0, 1⟩, some ⟨⟨2⟩, 1, 1⟩]⟩) := by rfl
  have h := valid_handles_attached hcompiled (Forest.closed_ofValue _) (Forest.acyclic_ofValue _)
    (Forest.contains_root_ofValue _) .refl hmatch hrun
  exact ⟨hspan, (h.2.2 _ _ hspan).2.2⟩

end Found

end NestedRegex.Match
