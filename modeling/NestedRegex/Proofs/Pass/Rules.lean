import NestedRegex.Pass.Edits
import NestedRegex.Pass.Rules
import NestedRegex.Proofs.Value.Rewriting

namespace NestedRegex

namespace Rule

/-- The first of some rules that rewrites a value. -/
def firstOf : List Rule → Rule
  | [] => never
  | r :: rs => r.orElse (firstOf rs)

/-- Change what comes after a tag that is one of some texts. -/
def onTag (tags : List String) (change : List Value → Option (List Value))
    (size_le : ∀ vs ws, change vs = some ws → Value.sizeOfItems ws ≤ Value.sizeOfItems vs) :
    Rule where
  apply
    | .seq (.scalar (.string tag) :: vs) =>
      if tag ∈ tags then (change vs).map fun ws => .seq (.scalar (.string tag) :: ws) else none
    | _ => none
  size_le {v w} h := by
    split at h
    · split at h
      · obtain ⟨ws, hws, rfl⟩ := Option.map_eq_some_iff.1 h
        have hle := size_le _ _ hws
        simp only [Value.size_seq, Value.sizeOfItems_cons]
        omega
      · cases h
    · cases h

variable {rs qs : List Rule} {tags : List String} {change : List Value → Option (List Value)}
  {size_le : ∀ vs ws, change vs = some ws → Value.sizeOfItems ws ≤ Value.sizeOfItems vs}
  {v w : Value}

@[simp] theorem apply_never (v : Value) : never.apply v = none := rfl

@[simp] theorem apply_orElse (r q : Rule) (v : Value) :
    (r.orElse q).apply v = (r.apply v).or (q.apply v) := rfl

theorem apply_firstOf_append (rs qs : List Rule) (v : Value) :
    (firstOf (rs ++ qs)).apply v = ((firstOf rs).apply v).or ((firstOf qs).apply v) := by
  induction rs with
  | nil => rfl
  | cons r rs ih =>
    change (r.apply v).or ((firstOf (rs ++ qs)).apply v) =
      ((r.apply v).or ((firstOf rs).apply v)).or ((firstOf qs).apply v)
    rw [ih, Option.or_assoc]

theorem onTag_eq_some_iff : (onTag tags change size_le).apply v = some w ↔
    ∃ tag vs ws, tag ∈ tags ∧ change vs = some ws ∧
      v = .seq (.scalar (.string tag) :: vs) ∧ w = .seq (.scalar (.string tag) :: ws) := by
  constructor
  · intro h
    simp only [onTag] at h
    split at h
    · next tag vs =>
      split at h
      · next htag =>
        obtain ⟨ws, hws, rfl⟩ := Option.map_eq_some_iff.1 h
        exact ⟨tag, vs, ws, htag, hws, rfl, rfl⟩
      · cases h
    · cases h
  · rintro ⟨tag, vs, ws, htag, hws, rfl, rfl⟩
    simp only [onTag, if_pos htag, hws, Option.map_some]

end Rule

namespace Value

open Pass

/-- The upper case of a value; a value that is no text counts as the empty one. -/
def upcased (v : Value) : Value :=
  .scalar (upperString (v.string?.getD ""))

/-- The name of a function in upper case. A null, which stands for no name, stays. -/
def functionName (v : Value) : Value :=
  if v = .scalar .null then v else v.upcased

/-- A declaration with the name that it begins with in upper case, if it begins with a text. -/
def declared : Value → Value
  | .seq (.scalar (.string name) :: vs) => .seq (.scalar (upperString name) :: vs)
  | v => v

/-- A list of declarations with all declared names in upper case. -/
def allDeclared : Value → Value
  | .seq vs => .seq (vs.map declared)
  | v => v

/-- A list of parameters, all in upper case; what is no list counts as the empty one. -/
def parameters (v : Value) : Value :=
  .seq ((v.items?.getD []).map upcased)

/-- The comparison that holds where the given one does not. -/
def opposite (operator : String) : String :=
  if operator = "<=" then ">" else "<"

variable {v : Value}

theorem string?_eq_some_iff {s : String} :
    v.string? = some s ↔ v = .scalar (.string s) := by
  cases v with
  | scalar a => exact Scalar.string?_eq_some_iff.trans (by simp)
  | seq vs => simp [string?, scalar?]

theorem opposite_ne {operator : String} (h : operator = "<=" ∨ operator = ">=") :
    opposite operator ≠ operator := by
  rcases h with rfl | rfl <;> decide

theorem size_upcased (v : Value) : v.upcased.size ≤ v.size :=
  v.size_pos

theorem functionName_null : (scalar .null).functionName = .scalar .null := rfl

theorem functionName_of_ne (h : v ≠ .scalar .null) : v.functionName = v.upcased :=
  if_neg h

theorem size_functionName (v : Value) : v.functionName.size ≤ v.size := by
  unfold functionName
  split
  · exact Nat.le_refl _
  · exact size_upcased v

theorem size_declared (v : Value) : v.declared.size ≤ v.size := by
  unfold declared
  split <;> simp

theorem size_allDeclared (v : Value) : v.allDeclared.size ≤ v.size := by
  cases v with
  | scalar s => exact Nat.le_refl _
  | seq vs => exact Nat.succ_le_succ (sizeOfItems_map_le fun v _ => size_declared v)

theorem size_parameters (v : Value) : v.parameters.size ≤ v.size := by
  cases v with
  | scalar s => exact Nat.le_refl _
  | seq vs => exact Nat.succ_le_succ (sizeOfItems_map_le fun v _ => size_upcased v)

/-- A comparison by `<=` or `>=`, turned around. -/
def turnedAround : Value → Option Value
  | .seq [.scalar (.string kind), .scalar (.string operator), x, y] =>
    if kind = "binary" ∧ (operator = "<=" ∨ operator = ">=") then
      some (.seq [.scalar (.string kind), .scalar (.string (opposite operator)), x, y])
    else none
  | _ => none

theorem turnedAround_eq_some_iff {v w : Value} : v.turnedAround = some w ↔
    ∃ operator x y, (operator = "<=" ∨ operator = ">=") ∧
      v = .seq [.scalar (.string "binary"), .scalar (.string operator), x, y] ∧
      w = .seq [.scalar (.string "binary"), .scalar (.string (opposite operator)), x, y] := by
  constructor
  · intro h
    unfold turnedAround at h
    split at h
    · next kind operator x y =>
      split at h
      · next hc =>
        obtain ⟨rfl, ho⟩ := hc
        exact ⟨operator, x, y, ho, rfl, (Option.some.inj h).symm⟩
      · cases h
    · cases h
  · rintro ⟨operator, x, y, ho, rfl, rfl⟩
    exact if_pos ⟨rfl, ho⟩

/-- A comparison that was turned around is not turned back. -/
theorem turnedAround_turned {v w : Value} (h : v.turnedAround = some w) :
    w.turnedAround = none := by
  rw [Option.eq_none_iff_forall_ne_some]
  intro u hu
  obtain ⟨operator, x, y, -, -, rfl⟩ := turnedAround_eq_some_iff.1 h
  obtain ⟨operator', x', y', ho, he, -⟩ := turnedAround_eq_some_iff.1 hu
  simp only [seq.injEq, List.cons.injEq, scalar.injEq, Scalar.string.injEq] at he
  obtain ⟨-, rfl, -⟩ := he
  unfold opposite at ho
  split at ho <;> simp at ho

end Value

namespace Rule

open Value

/-- A name in upper case. -/
def upcaseName : Rule :=
  onTag ["name"]
    (fun
      | [x] => some [x.upcased]
      | _ => none)
    fun vs ws h => by
      split at h
      · next x =>
        obtain rfl := Option.some.inj h
        have hx := size_upcased x
        simpa using hx
      · cases h

/-- The name and the parameters of a function in upper case. A null in the place of the name
stays. -/
def upcaseFunction : Rule :=
  onTag ["function", "defun"]
    (fun
      | [x, y, z] => some [x.functionName, y.parameters, z]
      | _ => none)
    fun vs ws h => by
      split at h
      · next x y z =>
        obtain rfl := Option.some.inj h
        have hx := size_functionName x
        have hy := size_parameters y
        simp only [sizeOfItems_cons]
        omega
      · cases h

/-- The name of a property in upper case. -/
def upcaseProperty : Rule :=
  onTag ["dot"]
    (fun
      | [x, y] => some [x, y.upcased]
      | _ => none)
    fun vs ws h => by
      split at h
      · next x y =>
        obtain rfl := Option.some.inj h
        have hy := size_upcased y
        simp only [sizeOfItems_cons]
        omega
      · cases h

/-- All declared names in upper case. -/
def upcaseDeclarations : Rule :=
  onTag ["var", "const", "object"]
    (fun
      | [x] => some [x.allDeclared]
      | _ => none)
    fun vs ws h => by
      split at h
      · next x =>
        obtain rfl := Option.some.inj h
        have hx := size_allDeclared x
        simpa using hx
      · cases h

/-- A condition that compares by `<=` or `>=` turned around, and its branches exchanged. -/
def turnComparison : Rule :=
  onTag ["if"]
    (fun
      | [c, t, e] => c.turnedAround.map fun c => [c, e, t]
      | _ => none)
    fun vs ws h => by
      split at h
      · next c t e =>
        obtain ⟨c', hc, rfl⟩ := Option.map_eq_some_iff.1 h
        obtain ⟨operator, x, y, -, rfl, rfl⟩ := turnedAround_eq_some_iff.1 hc
        simp only [sizeOfItems_cons, size_seq, size_scalar]
        omega
      · cases h

/-- The only statement of a block. -/
def unwrapBlock : Rule where
  apply
    | .seq [.scalar (.string tag), .seq [s]] => if tag = "block" then some s else none
    | _ => none
  size_le {v w} h := by
    split at h
    · split at h
      · obtain rfl := Option.some.inj h
        simp only [size_seq, sizeOfItems_cons]
        omega
      · cases h
    · cases h

section Specs

variable {v w : Value}

theorem upcaseName_eq_some_iff : upcaseName.apply v = some w ↔
    ∃ x, v = .seq [.scalar (.string "name"), x] ∧
      w = .seq [.scalar (.string "name"), x.upcased] := by
  refine onTag_eq_some_iff.trans ?_
  constructor
  · rintro ⟨tag, vs, ws, htag, hchange, rfl, rfl⟩
    obtain rfl := List.mem_singleton.1 htag
    split at hchange
    · next x =>
      obtain rfl := Option.some.inj hchange
      exact ⟨x, rfl, rfl⟩
    · cases hchange
  · rintro ⟨x, rfl, rfl⟩
    exact ⟨_, _, _, List.mem_singleton_self _, rfl, rfl, rfl⟩

theorem upcaseFunction_eq_some_iff : upcaseFunction.apply v = some w ↔
    ∃ tag x y z, tag ∈ ["function", "defun"] ∧ v = .seq [.scalar (.string tag), x, y, z] ∧
      w = .seq [.scalar (.string tag), x.functionName, y.parameters, z] := by
  refine onTag_eq_some_iff.trans ?_
  constructor
  · rintro ⟨tag, vs, ws, htag, hchange, rfl, rfl⟩
    split at hchange
    · next x y z =>
      obtain rfl := Option.some.inj hchange
      exact ⟨tag, x, y, z, htag, rfl, rfl⟩
    · cases hchange
  · rintro ⟨tag, x, y, z, htag, rfl, rfl⟩
    exact ⟨_, _, _, htag, rfl, rfl, rfl⟩

theorem upcaseProperty_eq_some_iff : upcaseProperty.apply v = some w ↔
    ∃ x y, v = .seq [.scalar (.string "dot"), x, y] ∧
      w = .seq [.scalar (.string "dot"), x, y.upcased] := by
  refine onTag_eq_some_iff.trans ?_
  constructor
  · rintro ⟨tag, vs, ws, htag, hchange, rfl, rfl⟩
    obtain rfl := List.mem_singleton.1 htag
    split at hchange
    · next x y =>
      obtain rfl := Option.some.inj hchange
      exact ⟨x, y, rfl, rfl⟩
    · cases hchange
  · rintro ⟨x, y, rfl, rfl⟩
    exact ⟨_, _, _, List.mem_singleton_self _, rfl, rfl, rfl⟩

theorem upcaseDeclarations_eq_some_iff : upcaseDeclarations.apply v = some w ↔
    ∃ tag x, tag ∈ ["var", "const", "object"] ∧ v = .seq [.scalar (.string tag), x] ∧
      w = .seq [.scalar (.string tag), x.allDeclared] := by
  refine onTag_eq_some_iff.trans ?_
  constructor
  · rintro ⟨tag, vs, ws, htag, hchange, rfl, rfl⟩
    split at hchange
    · next x =>
      obtain rfl := Option.some.inj hchange
      exact ⟨tag, x, htag, rfl, rfl⟩
    · cases hchange
  · rintro ⟨tag, x, htag, rfl, rfl⟩
    exact ⟨_, _, _, htag, rfl, rfl, rfl⟩

theorem turnComparison_eq_some_iff : turnComparison.apply v = some w ↔
    ∃ c c' t e, c.turnedAround = some c' ∧ v = .seq [.scalar (.string "if"), c, t, e] ∧
      w = .seq [.scalar (.string "if"), c', e, t] := by
  refine onTag_eq_some_iff.trans ?_
  constructor
  · rintro ⟨tag, vs, ws, htag, hchange, rfl, rfl⟩
    obtain rfl := List.mem_singleton.1 htag
    split at hchange
    · next c t e =>
      obtain ⟨c', hc, rfl⟩ := Option.map_eq_some_iff.1 hchange
      exact ⟨c, c', t, e, hc, rfl, rfl⟩
    · cases hchange
  · rintro ⟨c, c', t, e, hc, rfl, rfl⟩
    refine ⟨"if", [c, t, e], [c', e, t], List.mem_singleton_self _, ?_, rfl, rfl⟩
    change c.turnedAround.map (fun c => [c, e, t]) = some [c', e, t]
    rw [hc, Option.map_some]

theorem unwrapBlock_eq_some_iff : unwrapBlock.apply v = some w ↔
    v = .seq [.scalar (.string "block"), .seq [w]] := by
  constructor
  · intro h
    simp only [unwrapBlock] at h
    split at h
    · split at h
      · next htag =>
        obtain rfl := Option.some.inj h
        rw [htag]
      · cases h
    · cases h
  · rintro rfl
    rfl

end Specs

/-- The rules of the patterns for names, in their order. -/
def forNames : List Rule :=
  [upcaseName, upcaseFunction, upcaseProperty, upcaseDeclarations]

end Rule

/-- The rule that a pass rewrites a tree by. -/
def Pass.rule : Pass → Rule
  | .upcaseNames => .firstOf Rule.forNames
  | .flipCompare => Rule.turnComparison
  | .unwrapBlocks => Rule.unwrapBlock
  | .all => .firstOf (Rule.forNames ++ [Rule.turnComparison, Rule.unwrapBlock])
  | .repeats => .never

end NestedRegex
