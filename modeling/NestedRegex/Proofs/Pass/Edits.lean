import NestedRegex.Pass.Edits
import NestedRegex.Proofs.Match.Reworks
import NestedRegex.Proofs.Pass.Rules

namespace NestedRegex.Pass

open Match

/-- An edit through a name that is bound, and none through one that is not. -/
def IfBound (name : String) (edit : Handle → Edit Unit) (m m' : Match) : Prop :=
  match m.get? name with
  | some h => edit h m = .ok () m'
  | none => m' = m

section Edits

variable {m m' m₁ m₂ m₃ m₄ : Match} {name : String} {edit : Handle → Edit Unit} {h k l : Handle}

theorem ifBound_of_none (hn : m.get? name = none) : IfBound name edit m m := by
  rw [IfBound, hn]

theorem ifBound_of_some (hg : m.get? name = some h) (he : edit h m = .ok () m') :
    IfBound name edit m m' := by
  rw [IfBound, hg]
  exact he

/-- A comparison turned around if all its names are bound. -/
def TurnedIfBound (m m' : Match) : Prop :=
  match m.get? "operator", m.get? "t", m.get? "e" with
  | some operator, some t, some e => flipComparison operator t e m = .ok () m'
  | _, _, _ => m' = m

/-- A block unwrapped if both its names are bound. -/
def UnwrappedIfBound (m m' : Match) : Prop :=
  match m.get? "one_block", m.get? "one_stat" with
  | some block, some statement => putCopies block statement m = .ok () m'
  | _, _ => m' = m

theorem turnedIfBound_of_none (hn : m.get? "operator" = none) : TurnedIfBound m m := by
  rw [TurnedIfBound, hn]

theorem unwrappedIfBound_of_none (hn : m.get? "one_block" = none) : UnwrappedIfBound m m := by
  rw [UnwrappedIfBound, hn]

/-- An edit if its name is bound, and what comes after it. -/
theorem ifBound_bind {next : Edit Unit} (h : IfBound name edit m m') :
    (do
      if let some k := (← get).get? name then
        edit k
      next : Edit Unit) m = next m' := by
  have hget : (get : Edit Match) m = .ok m m := rfl
  rw [Edit.bind_ok hget]
  unfold IfBound at h
  cases hg : m.get? name with
  | none =>
    rw [hg] at h
    rw [h]
  | some k =>
    rw [hg] at h
    exact Edit.bind_ok h

theorem turnedIfBound_bind {next : Edit Unit} (h : TurnedIfBound m m') :
    (do
      let m ← get
      if let (some operator, some t, some e) := (m.get? "operator", m.get? "t", m.get? "e") then
        flipComparison operator t e
      next : Edit Unit) m = next m' := by
  have hget : (get : Edit Match) m = .ok m m := rfl
  rw [Edit.bind_ok hget]
  unfold TurnedIfBound at h
  cases ho : m.get? "operator" <;> cases ht : m.get? "t" <;> cases he : m.get? "e" <;>
    rw [ho, ht, he] at h
  case some.some.some => exact Edit.bind_ok h
  all_goals exact congrArg next h.symm

theorem unwrappedIfBound_run (h : UnwrappedIfBound m m') :
    (do
      let m ← get
      if let (some block, some statement) := (m.get? "one_block", m.get? "one_stat") then
        putCopies block statement : Edit Unit) m = .ok () m' := by
  have hget : (get : Edit Match) m = .ok m m := rfl
  rw [Edit.bind_ok hget]
  unfold UnwrappedIfBound at h
  cases hb : m.get? "one_block" <;> cases hs : m.get? "one_stat" <;> rw [hb, hs] at h
  case some.some => exact h
  all_goals exact congrArg (EStateM.Result.ok ()) h.symm

/-- The edits are made one after the other. -/
theorem edits_ok (hthing : IfBound "thing" upcaseName m m₁)
    (hdefs : IfBound "defs" upcaseDeclarations m₁ m₂)
    (hargs : IfBound "args" upcaseParameters m₂ m₃) (hturned : TurnedIfBound m₃ m₄)
    (hunwrapped : UnwrappedIfBound m₄ m') : edits m = .ok () m' :=
  calc edits m
    _ = _ := ifBound_bind hthing
    _ = _ := ifBound_bind hdefs
    _ = _ := ifBound_bind hargs
    _ = _ := turnedIfBound_bind hturned
    _ = .ok () m' := unwrappedIfBound_run hunwrapped

end Edits

section Names

variable {m : Match} {h : Handle} {n : Node} {v : Value} {names : List SeqName}

theorem upperValue_eq (hs : m.forest.Shows v n names) : upperValue n = v.upcased := by
  rw [upperValue, Value.upcased, hs.string?]

/-- A name is put in its place in upper case. -/
theorem upcaseName_eq (hn : m.first h = .ok n) (hs : m.forest.Shows v n names) :
    upcaseName h m = putValues h [v.upcased] m := by
  rw [upcaseName, Edit.bind_ok (Edit.ask_ok hn), upperValue_eq hs]

theorem childrenOf_ok (hs : m.forest.Shows v n names) :
    ∃ nodes, m.forest.childrenOf n = .ok nodes ∧
      (nodes.getD []).map upperValue = (v.items?.getD []).map Value.upcased := by
  cases hs with
  | scalar s => exact ⟨none, rfl, rfl⟩
  | seq hc hvs _ =>
    refine ⟨some _, ?_, hvs.map_eq upperValue_eq⟩
    rw [Forest.childrenOf, Forest.children_ok hc]
    rfl

/-- A list of parameters is put in its place in upper case. -/
theorem upcaseParameters_eq (hn : m.first h = .ok n) (hs : m.forest.Shows v n names) :
    upcaseParameters h m = putValues h [v.parameters] m := by
  obtain ⟨nodes, hnodes, hmap⟩ := childrenOf_ok hs
  rw [upcaseParameters, Edit.bind_ok (Edit.ask_ok hn), Edit.bind_ok (Edit.look_ok hnodes), hmap,
    Value.parameters]

end Names

section Declarations

variable {m : Match} {h : Handle} {n : Node} {v : Value} {vs : List Value} {nodes : List Node}
  {names : List SeqName} {id : SeqName}

theorem upcaseDeclaration_eq (hc : m.forest.children? id = some nodes) :
    upcaseDeclaration id m = (match nodes.head?.bind Node.string? with
      | some name => Edit.setChild id 0 (.scalar (upperString name))
      | none => return : Edit Unit) m := by
  have hfirst : m.forest.child? id 0 = .ok nodes.head? := by
    rw [Forest.child?_ok hc]
    exact congrArg Except.ok List.head?_eq_getElem?.symm
  exact Edit.bind_ok (Edit.look_ok hfirst)

/-- A declared name is written over where it stands; nothing else changes. -/
theorem upcaseDeclaration_ok (hf : m.forest.Closed) (ha : m.forest.Acyclic)
    (hs : m.forest.Shows v (.seq id) names) :
    ∃ g, upcaseDeclaration id m = .ok () { m with forest := g } ∧ m.forest.Edited g names ∧
      g.Shows v.declared (.seq id) names := by
  cases hs with
  | @seq vs _ nodes below hc hvs hid =>
    rw [upcaseDeclaration_eq hc]
    by_cases hname : ∃ name us, vs = .scalar (.string name) :: us
    · obtain ⟨name, us, rfl⟩ := hname
      cases hvs with
      | @cons _ _ _ ns xs ys hu hus apart =>
        cases hu
        obtain ⟨hedited, hc'⟩ := edited_withHead (a := upperString name) hf ha hc
        have hkept := hedited.showsItems hus fun y hy hin => hid (List.mem_singleton.1 hin ▸ hy)
        exact ⟨_, setHead_ok hc, hedited.mono (by simp),
          .seq hc' (.cons (.scalar _) hkept nofun) hid⟩
    · have hnone : nodes.head?.bind Node.string? = none := by
        cases hvs with
        | nil => rfl
        | @cons u us _ _ _ _ hu _ _ =>
          rw [List.head?_cons, Option.bind_some, hu.string?]
          cases hs : u.string? with
          | none => rfl
          | some name => exact absurd ⟨name, us, by rw [Value.string?_eq_some_iff.1 hs]⟩ hname
      have hsame : Value.declared (.seq vs) = .seq vs := by
        unfold Value.declared
        split
        · next heq => exact absurd ⟨_, _, Value.seq.inj heq⟩ hname
        · rfl
      rw [hnone, hsame]
      exact ⟨m.forest, rfl, .refl hf ha _, .seq hc hvs hid⟩

/-- All declarations of a list, one after the other. -/
theorem upcaseDeclaration_all_ok (hf : m.forest.Closed) (ha : m.forest.Acyclic)
    (hs : m.forest.ShowsItems vs nodes names) :
    ∃ g, (nodes.filterMap Node.seq?).forM upcaseDeclaration m = .ok () { m with forest := g } ∧
      m.forest.Edited g names ∧ g.ShowsItems (vs.map Value.declared) nodes names := by
  induction vs generalizing m nodes names with
  | nil =>
    cases hs
    exact ⟨m.forest, rfl, .refl hf ha _, .nil⟩
  | cons v vs ih =>
    cases hs with
    | @cons _ _ n nodes xs ys hv hvs apart =>
      cases n with
      | scalar s =>
        cases hv
        obtain ⟨g, hrun, hedited, hvs'⟩ := ih hf ha hvs
        exact ⟨g, hrun, hedited, .cons (.scalar s) hvs' nofun⟩
      | seq id =>
        obtain ⟨g, hrun, hedited, hv'⟩ := upcaseDeclaration_ok hf ha hv
        have hkept := hedited.showsItems hvs fun y hy hin => apart y hin hy
        obtain ⟨g', hrun', hedited', hvs'⟩ :=
          ih (m := { m with forest := g }) hedited.closed hedited.acyclic hkept
        refine ⟨g', ?_, ?_, .cons (hedited'.shows hv' apart) hvs' apart⟩
        · exact (Edit.bind_ok hrun).trans hrun'
        · exact (hedited.mono (List.subset_append_left xs ys)).trans hedited'
            ((Forest.Renews.refl _ ys).mono (List.subset_append_right xs ys))

/-- The declared names of a list are written over where they stand. -/
theorem upcaseDeclarations_ok (hf : m.forest.Closed)
    (ha : m.forest.Acyclic) {before after : List Value} {front back : List Node}
    (hs : m.forest.Shows (.seq (before ++ v :: after)) (.seq id) names)
    (hc : m.forest.children? id = some (front ++ n :: back)) (hl : before.length = front.length)
    (hn : m.first h = .ok n) :
    ∃ m' names', upcaseDeclarations h m = .ok () m' ∧
      Reworked m m' id names (.seq (before ++ v.allDeclared :: after)) names' := by
  rw [upcaseDeclarations, Edit.bind_ok (Edit.ask_ok hn)]
  cases n with
  | scalar s =>
    obtain ⟨xs, hv, -⟩ := hs.update hc hl
    cases hv
    exact ⟨m, names, rfl, .refl hf ha hs⟩
  | seq list =>
    obtain ⟨xs, hv, -, -, hbelow⟩ := reworked_below hs hc hl
    cases hv with
    | @seq vs _ nodes below hlist hvs hid =>
      obtain ⟨g, hrun, hedited, hvs'⟩ := upcaseDeclaration_all_ok hf ha hvs
      have hwork : Reworked m { m with forest := g } list (list :: below)
          (Value.allDeclared (.seq vs)) (list :: below) :=
        ⟨fun _ => rfl, rfl, hedited.mono (List.subset_cons_self list below),
          .seq (hedited.others hid hlist) hvs' hid, .refl _ _, fun hspan => hspan⟩
      obtain ⟨-, names', hall⟩ := hbelow hwork
      refine ⟨_, names', ?_, hall⟩
      have hchildren : Edit.look (·.children list) m = .ok nodes m :=
        Edit.look_ok (Forest.children_ok hlist)
      exact (Edit.bind_ok hchildren).trans hrun

end Declarations

end NestedRegex.Pass
