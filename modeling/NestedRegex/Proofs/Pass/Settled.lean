import NestedRegex.Proofs.Pass.Rules
import NestedRegex.Proofs.Text.Upper

namespace NestedRegex

namespace Value

variable {v : Value} {vs : List Value} {t : String}

theorem upcased_upcased (v : Value) : v.upcased.upcased = v.upcased := by
  change scalar (.string _) = scalar (.string _)
  exact congrArg (fun t => scalar (.string t)) (Text.upper_upper _)

theorem functionName_scalar (v : Value) : ∃ s, v.functionName = .scalar s := by
  unfold functionName
  split
  · next h => exact ⟨.null, h⟩
  · exact ⟨_, rfl⟩

theorem functionName_functionName (v : Value) :
    v.functionName.functionName = v.functionName := by
  by_cases h : v = .scalar .null
  · rw [h, functionName_null, functionName_null]
  · have hne : v.upcased ≠ .scalar .null := nofun
    rw [functionName_of_ne h, functionName_of_ne hne, upcased_upcased]

theorem parameters_parameters (v : Value) : v.parameters.parameters = v.parameters := by
  have hmap : ((v.items?.getD []).map upcased).map upcased = (v.items?.getD []).map upcased := by
    rw [List.map_map]
    exact List.map_congr_left fun x _ => upcased_upcased x
  exact congrArg seq hmap

@[simp] theorem declared_text (t : String) (vs : List Value) :
    (seq (.scalar (.string t) :: vs)).declared = .seq (.scalar (Pass.upperString t) :: vs) := rfl

theorem declared_of_no_text (h : ∀ t vs, v ≠ .seq (.scalar (.string t) :: vs)) :
    v.declared = v := by
  unfold declared
  split
  · exact absurd rfl (h _ _)
  · rfl

theorem declared_seq (vs : List Value) : ∃ ws, (seq vs).declared = .seq ws := by
  unfold declared
  split
  · exact ⟨_, rfl⟩
  · exact ⟨vs, rfl⟩

/-- A declaration stays as it is just when the name that it begins with, if any, is in upper
case. -/
theorem declared_eq_self_iff :
    v.declared = v ↔ ∀ t vs, v = .seq (.scalar (.string t) :: vs) → Text.upper t = t := by
  constructor
  · rintro h t vs rfl
    rw [declared_text, Pass.upperString] at h
    injection h with h
    injection (List.cons.inj h).1 with h
    exact Scalar.string.inj h
  · intro h
    by_cases htext : ∃ t vs, v = .seq (.scalar (.string t) :: vs)
    · obtain ⟨t, vs, rfl⟩ := htext
      rw [declared_text, Pass.upperString, h t vs rfl]
    · exact declared_of_no_text fun t vs e => htext ⟨t, vs, e⟩

theorem declared_functionName (v : Value) : v.functionName.declared = v.functionName := by
  obtain ⟨s, hs⟩ := functionName_scalar v
  rw [hs]
  rfl

theorem declared_parameters (v : Value) : v.parameters.declared = v.parameters := by
  refine declared_eq_self_iff.2 fun t vs h => ?_
  obtain ⟨x, xs, -, hx, -⟩ := List.map_eq_cons_iff.1 (seq.inj h)
  rw [← Scalar.string.inj (scalar.inj hx)]
  exact Text.upper_upper _

theorem declared_declared (v : Value) : v.declared.declared = v.declared := by
  by_cases htext : ∃ t vs, v = .seq (.scalar (.string t) :: vs)
  · obtain ⟨t, vs, rfl⟩ := htext
    rw [declared_text, Pass.upperString, declared_text, Pass.upperString, Text.upper_upper]
  · have h := declared_of_no_text fun t vs e => htext ⟨t, vs, e⟩
    rw [h, h]

@[simp] theorem allDeclared_seq (vs : List Value) :
    (seq vs).allDeclared = .seq (vs.map declared) := rfl

theorem allDeclared_eq_self_iff : (seq vs).allDeclared = .seq vs ↔ ∀ v ∈ vs, v.declared = v := by
  have h : vs.map declared = vs.map id ↔ ∀ v ∈ vs, v.declared = id v := List.map_inj_left
  rw [allDeclared_seq, seq.injEq]
  rwa [List.map_id] at h

theorem allDeclared_allDeclared (v : Value) : v.allDeclared.allDeclared = v.allDeclared := by
  cases v with
  | scalar s => rfl
  | seq vs =>
    rw [allDeclared_seq, allDeclared_seq, List.map_map]
    exact congrArg seq (List.map_congr_left fun x _ => declared_declared x)

end Value

namespace Rule

open Value

/-- All that the rules for names do. -/
inductive Renames (v w : Value) : Prop
  | name (x : Value) (hv : v = .seq [.scalar (.string "name"), x])
    (hw : w = .seq [.scalar (.string "name"), x.upcased])
  | function (tag : String) (x y z : Value) (htag : tag ∈ ["function", "defun"])
    (hv : v = .seq [.scalar (.string tag), x, y, z])
    (hw : w = .seq [.scalar (.string tag), x.functionName, y.parameters, z])
  | property (x y : Value) (hv : v = .seq [.scalar (.string "dot"), x, y])
    (hw : w = .seq [.scalar (.string "dot"), x, y.upcased])
  | declarations (tag : String) (x : Value) (htag : tag ∈ ["var", "const", "object"])
    (hv : v = .seq [.scalar (.string tag), x])
    (hw : w = .seq [.scalar (.string tag), x.allDeclared])

/-- The rules for names, as one. -/
def naming : Rule :=
  firstOf forNames

/-- The rules for names and comparisons: all but the unwrapping of blocks. -/
def quiet : Rule :=
  naming.orElse turnComparison

variable {v w : Value} {vs : List Value} {r : Rule} {t : String}

theorem naming_eq_some_iff : naming.apply v = some w ↔ Renames v w := by
  constructor
  · intro h
    rcases Option.or_eq_some_iff.1 h with h | ⟨-, h⟩
    · obtain ⟨x, hv, hw⟩ := upcaseName_eq_some_iff.1 h
      exact .name x hv hw
    rcases Option.or_eq_some_iff.1 h with h | ⟨-, h⟩
    · obtain ⟨tag, x, y, z, htag, hv, hw⟩ := upcaseFunction_eq_some_iff.1 h
      exact .function tag x y z htag hv hw
    rcases Option.or_eq_some_iff.1 h with h | ⟨-, h⟩
    · obtain ⟨x, y, hv, hw⟩ := upcaseProperty_eq_some_iff.1 h
      exact .property x y hv hw
    rcases Option.or_eq_some_iff.1 h with h | ⟨-, h⟩
    · obtain ⟨tag, x, htag, hv, hw⟩ := upcaseDeclarations_eq_some_iff.1 h
      exact .declarations tag x htag hv hw
    · cases h
  · intro h
    cases h with
    | name x hv hw =>
      rw [hv, hw]
      rfl
    | function tag x y z htag hv hw =>
      rw [hv, hw]
      simp only [List.mem_cons, List.not_mem_nil, or_false] at htag
      rcases htag with rfl | rfl <;> rfl
    | property x y hv hw =>
      rw [hv, hw]
      rfl
    | declarations tag x htag hv hw =>
      rw [hv, hw]
      simp only [List.mem_cons, List.not_mem_nil, or_false] at htag
      rcases htag with rfl | rfl | rfl <;> rfl

/-- A rule for sequences that begin with one of some tags. It keeps the tag. -/
def Keeps (r : Rule) (tags : List String) : Prop :=
  ∀ {v w}, r.apply v = some w → ∃ tag ∈ tags, ∃ vs ws,
    v = .seq (.scalar (.string tag) :: vs) ∧ w = .seq (.scalar (.string tag) :: ws)

/-- A rule for sequences that begin with a text not in upper case. -/
def Tagged (r : Rule) : Prop :=
  ∀ {v w}, r.apply v = some w →
    ∃ t vs, v = .seq (.scalar (.string t) :: vs) ∧ t.toList.any Char.isLower = true

theorem Keeps.apply_eq_none {tags : List String} (h : r.Keeps tags) (ht : t ∉ tags) :
    r.apply (.seq (.scalar (.string t) :: vs)) = none := by
  rw [Option.eq_none_iff_forall_ne_some]
  intro w hw
  obtain ⟨tag, htag, us, ws, hv, -⟩ := h hw
  obtain ⟨he, -⟩ := List.cons.inj (Value.seq.inj hv)
  exact ht (Scalar.string.inj (Value.scalar.inj he) ▸ htag)

theorem Keeps.tagged {tags : List String} (h : r.Keeps tags)
    (lower : ∀ tag ∈ tags, tag.toList.any Char.isLower = true) : r.Tagged := by
  intro v w hw
  obtain ⟨tag, htag, vs, ws, hv, -⟩ := h hw
  exact ⟨tag, vs, hv, lower tag htag⟩

/-- The tags of the rules for names. -/
def namingTags : List String :=
  ["name", "function", "defun", "dot", "var", "const", "object"]

/-- The tags of the rules for names and comparisons. -/
def quietTags : List String :=
  "if" :: namingTags

theorem keeps_naming : naming.Keeps namingTags := by
  intro v w h
  cases naming_eq_some_iff.1 h with
  | name x hv hw => exact ⟨_, by decide, _, _, hv, hw⟩
  | function tag x y z htag hv hw =>
    have hsub : ["function", "defun"] ⊆ namingTags := by decide
    exact ⟨tag, hsub htag, _, _, hv, hw⟩
  | property x y hv hw => exact ⟨_, by decide, _, _, hv, hw⟩
  | declarations tag x htag hv hw =>
    have hsub : ["var", "const", "object"] ⊆ namingTags := by decide
    exact ⟨tag, hsub htag, _, _, hv, hw⟩

theorem keeps_turnComparison : turnComparison.Keeps ["if"] := by
  intro v w h
  obtain ⟨c, c', t, e, -, hv, hw⟩ := turnComparison_eq_some_iff.1 h
  exact ⟨_, List.mem_singleton_self _, _, _, hv, hw⟩

theorem quiet_eq_some_iff :
    quiet.apply v = some w ↔ Renames v w ∨ turnComparison.apply v = some w := by
  rw [quiet, apply_orElse, Option.or_eq_some_iff, naming_eq_some_iff]
  refine or_congr_right (and_iff_right_of_imp fun h => ?_)
  obtain ⟨c, c', t, e, -, rfl, -⟩ := turnComparison_eq_some_iff.1 h
  exact keeps_naming.apply_eq_none (by decide)

theorem keeps_quiet : quiet.Keeps quietTags := by
  intro v w h
  rcases quiet_eq_some_iff.1 h with h | h
  · obtain ⟨tag, htag, vs, ws, hv, hw⟩ := keeps_naming (naming_eq_some_iff.2 h)
    exact ⟨tag, List.mem_cons_of_mem _ htag, vs, ws, hv, hw⟩
  · obtain ⟨tag, htag, vs, ws, hv, hw⟩ := keeps_turnComparison h
    obtain rfl := List.mem_singleton.1 htag
    exact ⟨_, List.mem_cons_self, vs, ws, hv, hw⟩

theorem tagged_naming : naming.Tagged :=
  keeps_naming.tagged (by decide)

theorem tagged_turnComparison : turnComparison.Tagged :=
  keeps_turnComparison.tagged (by decide)

theorem tagged_quiet : quiet.Tagged :=
  keeps_quiet.tagged (by decide)

section Tagged

variable (hr : r.Tagged)
include hr

/-- A value that begins with no name to declare is not rewritten. -/
theorem Tagged.apply_eq_none (h : v.declared = v) : r.apply v = none := by
  rw [Option.eq_none_iff_forall_ne_some]
  intro w hw
  obtain ⟨t, vs, hv, hlower⟩ := hr hw
  exact Text.upper_ne hlower (declared_eq_self_iff.1 h t vs hv)

theorem Tagged.becomes_eq (h : v.declared = v) : r.becomes v = r.rewritten v := by
  rw [becomes, after_eq_of_none (hr.apply_eq_none h)]

@[simp] theorem Tagged.becomes_scalar (s : Scalar) : r.becomes (.scalar s) = .scalar s :=
  (hr.becomes_eq rfl).trans (rewritten_scalar s)

theorem Tagged.becomes_upcased (v : Value) : r.becomes v.upcased = v.upcased :=
  hr.becomes_scalar _

theorem Tagged.becomes_functionName (v : Value) :
    r.becomes v.functionName = v.functionName := by
  obtain ⟨s, hs⟩ := functionName_scalar v
  rw [hs, hr.becomes_scalar]

theorem Tagged.becomes_parameters (v : Value) : r.becomes v.parameters = v.parameters := by
  rw [hr.becomes_eq (declared_parameters v), parameters, rewritten_seq, List.map_map]
  exact congrArg Value.seq (List.map_congr_left fun x _ => hr.becomes_upcased x)

/-- A sequence that begins with a text in upper case keeps it. -/
theorem Tagged.becomes_upper (ht : Text.upper t = t) :
    r.becomes (.seq (.scalar (.string t) :: vs)) =
      .seq (.scalar (.string t) :: vs.map r.becomes) := by
  have hdeclared : (Value.seq (.scalar (.string t) :: vs)).declared =
      .seq (.scalar (.string t) :: vs) := by
    rw [declared_text, Pass.upperString, ht]
  rw [hr.becomes_eq hdeclared, rewritten_seq, List.map_cons, hr.becomes_scalar]

/-- What is written in upper case never comes back as it was. -/
theorem Tagged.declared_eq_self (change : Value → Value) (h : r.becomes (change v.declared) = v)
    (keeps : ∀ t vs, ∃ ws,
      change (.seq (.scalar (.string t) :: vs)) = .seq (.scalar (.string t) :: ws)) :
    v.declared = v := by
  refine declared_eq_self_iff.2 ?_
  rintro t vs rfl
  obtain ⟨ws, hws⟩ := keeps (Text.upper t) vs
  rw [declared_text, Pass.upperString, hws, hr.becomes_upper (Text.upper_upper t)] at h
  obtain ⟨he, -⟩ := List.cons.inj (Value.seq.inj h)
  exact Scalar.string.inj (Value.scalar.inj he)

end Tagged

section Sure

theorem allDeclared_of_becomes (h : naming.becomes v.allDeclared = v) : v.allDeclared = v := by
  have one : ∀ {d : Value}, naming.becomes d.declared = d → d.declared = d := fun h =>
    tagged_naming.declared_eq_self id h fun t vs => ⟨vs, rfl⟩
  have list : ∀ {d : Value}, naming.becomes d.declared.allDeclared = d → d.declared = d := fun h =>
    tagged_naming.declared_eq_self allDeclared h fun t vs => ⟨vs.map declared, rfl⟩
  cases v with
  | scalar s => rfl
  | seq ds =>
    refine allDeclared_eq_self_iff.2 ?_
    rw [allDeclared_seq] at h
    cases happ : naming.apply (.seq (ds.map declared)) with
    | none =>
      rw [becomes, after_eq_of_none happ, rewritten_seq, List.map_map, Value.seq.injEq] at h
      have hall : ds.map (naming.becomes ∘ declared) = ds.map id := by rw [h, List.map_id]
      exact fun d hd => one (List.map_inj_left.1 hall d hd)
    | some w =>
      rw [becomes, after_eq_of_some happ] at h
      -- What became of the items is known of each rule; only items that it keeps are left to show.
      cases naming_eq_some_iff.1 happ with
      | name x hv hw =>
        simp only [hw, rewritten_seq, List.map_cons, List.map_nil, tagged_naming.becomes_scalar,
          tagged_naming.becomes_upcased, Value.seq.injEq] at h
        rw [← h]
        simp only [List.forall_mem_cons]
        exact ⟨rfl, rfl, List.forall_mem_nil _⟩
      | function tag x y z htag hv hw =>
        simp only [hw, rewritten_seq, List.map_cons, List.map_nil, tagged_naming.becomes_scalar,
          tagged_naming.becomes_functionName, tagged_naming.becomes_parameters,
          Value.seq.injEq] at h
        rw [← h] at hv ⊢
        simp only [List.map_cons, Value.seq.injEq, List.cons.injEq] at hv
        obtain ⟨-, -, -, hz, -⟩ := hv
        simp only [List.forall_mem_cons]
        exact ⟨rfl, declared_functionName x, declared_parameters y, one (by rw [hz]),
          List.forall_mem_nil _⟩
      | property x y hv hw =>
        simp only [hw, rewritten_seq, List.map_cons, List.map_nil, tagged_naming.becomes_scalar,
          tagged_naming.becomes_upcased, Value.seq.injEq] at h
        rw [← h] at hv ⊢
        simp only [List.map_cons, Value.seq.injEq, List.cons.injEq] at hv
        obtain ⟨-, hx, -⟩ := hv
        simp only [List.forall_mem_cons]
        exact ⟨rfl, one (by rw [hx]), rfl, List.forall_mem_nil _⟩
      | declarations tag x htag hv hw =>
        simp only [hw, rewritten_seq, List.map_cons, List.map_nil, tagged_naming.becomes_scalar,
          Value.seq.injEq] at h
        rw [← h] at hv ⊢
        simp only [List.map_cons, Value.seq.injEq, List.cons.injEq] at hv
        obtain ⟨-, hx, -⟩ := hv
        simp only [List.forall_mem_cons]
        exact ⟨rfl, list (by rw [hx]), List.forall_mem_nil _⟩

/-- The rules for names never undo inside a value what they do to the value. -/
theorem naming_sure (h : naming.becomes v = v) : naming.after v = v := by
  cases happ : naming.apply v with
  | none => exact after_eq_of_none happ
  | some w =>
    rw [becomes, after_eq_of_some happ] at h
    rw [after_eq_of_some happ]
    cases naming_eq_some_iff.1 happ with
    | name x hv hw =>
      rw [hw, rewritten_seq] at h
      simp only [List.map_cons, List.map_nil, tagged_naming.becomes_scalar,
        tagged_naming.becomes_upcased] at h
      rw [hw, h]
    | function tag x y z htag hv hw =>
      rw [hw, hv, rewritten_seq] at h
      simp only [List.map_cons, List.map_nil, tagged_naming.becomes_scalar,
        tagged_naming.becomes_functionName, tagged_naming.becomes_parameters, Value.seq.injEq,
        List.cons.injEq] at h
      obtain ⟨-, hx, hy, -⟩ := h
      rw [hw, hv, hx, hy]
    | property x y hv hw =>
      rw [hw, hv, rewritten_seq] at h
      simp only [List.map_cons, List.map_nil, tagged_naming.becomes_scalar,
        tagged_naming.becomes_upcased, Value.seq.injEq, List.cons.injEq] at h
      obtain ⟨-, -, hy, -⟩ := h
      rw [hw, hv, hy]
    | declarations tag x htag hv hw =>
      rw [hw, hv, rewritten_seq] at h
      simp only [List.map_cons, List.map_nil, tagged_naming.becomes_scalar, Value.seq.injEq,
        List.cons.injEq] at h
      obtain ⟨-, hx, -⟩ := h
      rw [hw, hv, allDeclared_of_becomes hx]

/-- Nor does the rule for comparisons: a comparison is never turned back. -/
theorem turnComparison_sure (h : turnComparison.becomes v = v) : turnComparison.after v = v := by
  cases happ : turnComparison.apply v with
  | none => exact after_eq_of_none happ
  | some w =>
    rw [becomes, after_eq_of_some happ] at h
    obtain ⟨c, c', t, e, hturned, rfl, rfl⟩ := turnComparison_eq_some_iff.1 happ
    obtain ⟨operator, x, y, ho, rfl, rfl⟩ := turnedAround_eq_some_iff.1 hturned
    have hcond : turnComparison.apply (.seq [.scalar (.string "binary"),
      .scalar (.string (opposite operator)), x, y]) = none :=
      keeps_turnComparison.apply_eq_none (by decide)
    rw [rewritten_seq] at h
    simp only [List.map_cons, List.map_nil, tagged_turnComparison.becomes_scalar, Value.seq.injEq,
      List.cons.injEq] at h
    obtain ⟨-, hc, -⟩ := h
    rw [becomes, after_eq_of_none hcond, rewritten_seq] at hc
    simp only [List.map_cons, tagged_turnComparison.becomes_scalar, Value.seq.injEq,
      List.cons.injEq, Value.scalar.injEq, Scalar.string.injEq] at hc
    obtain ⟨-, he, -⟩ := hc
    exact absurd he (opposite_ne ho)

end Sure

end Rule

end NestedRegex
