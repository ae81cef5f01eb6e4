import NestedRegex.Proofs.Pass.Rules
import NestedRegex.Proofs.Pattern.Nodes

namespace NestedRegex.Pass

open Pattern

section Fits

variable {f : Forest} {v : Value}

theorem string_of_fits {s : String} (h : Fits f (string s) v) : v = .scalar (.string s) :=
  h.literal

/-- A choice of texts fits only these texts. -/
theorem tag_of_fits (tags : List String) (h : Fits f (.choice (tags.map string)) v) :
    ∃ tag ∈ tags, v = .scalar (.string tag) := by
  obtain ⟨p, hp, hv⟩ := h.choice
  obtain ⟨tag, htag, rfl⟩ := List.mem_map.1 hp
  exact ⟨tag, htag, string_of_fits hv⟩

theorem name_of_fits (h : Fits f namePattern v) : (Rule.upcaseName.apply v).isSome := by
  obtain ⟨vs, rfl, hvs⟩ := h.sequence (by simp)
  simp only [List.forall₂_cons_left_iff, List.forall₂_nil_left_iff] at hvs
  obtain ⟨t, -, ht, ⟨x, -, -, rfl, rfl⟩, rfl⟩ := hvs
  obtain rfl := string_of_fits ht
  exact Option.isSome_of_eq_some (Rule.upcaseName_eq_some_iff.2 ⟨x, rfl, rfl⟩)

theorem function_of_fits (h : Fits f functionPattern v) :
    (Rule.upcaseFunction.apply v).isSome := by
  obtain ⟨vs, rfl, hvs⟩ := h.sequence (by simp)
  simp only [List.forall₂_cons_left_iff, List.forall₂_nil_left_iff] at hvs
  obtain ⟨t, -, ht, ⟨x, -, -, ⟨y, -, -, ⟨z, -, -, rfl, rfl⟩, rfl⟩, rfl⟩, rfl⟩ := hvs
  obtain ⟨tag, htag, rfl⟩ := tag_of_fits ["function", "defun"] ht
  exact Option.isSome_of_eq_some
    (Rule.upcaseFunction_eq_some_iff.2 ⟨tag, x, y, z, htag, rfl, rfl⟩)

theorem property_of_fits (h : Fits f propertyPattern v) :
    (Rule.upcaseProperty.apply v).isSome := by
  obtain ⟨vs, rfl, hvs⟩ := h.sequence (by simp)
  simp only [List.forall₂_cons_left_iff, List.forall₂_nil_left_iff] at hvs
  obtain ⟨t, -, ht, ⟨x, -, -, ⟨y, -, -, rfl, rfl⟩, rfl⟩, rfl⟩ := hvs
  obtain rfl := string_of_fits ht
  exact Option.isSome_of_eq_some (Rule.upcaseProperty_eq_some_iff.2 ⟨x, y, rfl, rfl⟩)

theorem declarations_of_fits (h : Fits f declarationsPattern v) :
    (Rule.upcaseDeclarations.apply v).isSome := by
  obtain ⟨vs, rfl, hvs⟩ := h.sequence (by simp)
  simp only [List.forall₂_cons_left_iff, List.forall₂_nil_left_iff] at hvs
  obtain ⟨t, -, ht, ⟨x, -, -, rfl, rfl⟩, rfl⟩ := hvs
  obtain ⟨tag, htag, rfl⟩ := tag_of_fits ["var", "const", "object"] ht
  exact Option.isSome_of_eq_some
    (Rule.upcaseDeclarations_eq_some_iff.2 ⟨tag, x, htag, rfl, rfl⟩)

theorem condition_of_fits (h : Fits f conditionPattern v) : v.turnedAround.isSome := by
  obtain ⟨vs, rfl, hvs⟩ := h.sequence (by simp)
  simp only [List.forall₂_cons_left_iff, List.forall₂_nil_left_iff] at hvs
  obtain ⟨t, -, ht, ⟨o, -, ho, ⟨x, -, -, ⟨y, -, -, rfl, rfl⟩, rfl⟩, rfl⟩, rfl⟩ := hvs
  obtain rfl := string_of_fits ht
  obtain ⟨operator, hoperator, rfl⟩ := tag_of_fits ["<=", ">="] ho.named
  exact Option.isSome_of_eq_some
    (Value.turnedAround_eq_some_iff.2 ⟨operator, x, y, by simpa using hoperator, rfl, rfl⟩)

theorem comparison_of_fits (h : Fits f comparisonRule v) :
    (Rule.turnComparison.apply v).isSome := by
  have one : ForOne f conditionPattern := forOne_sequence (by simp)
  obtain ⟨vs, rfl, hvs⟩ := h.sequence (by simpa using one)
  simp only [List.forall₂_cons_left_iff, List.forall₂_nil_left_iff] at hvs
  obtain ⟨tag, -, ht, ⟨c, -, hc, ⟨t, -, -, ⟨e, -, -, rfl, rfl⟩, rfl⟩, rfl⟩, rfl⟩ := hvs
  obtain rfl := string_of_fits ht
  obtain ⟨c', hc'⟩ := Option.isSome_iff_exists.1 (condition_of_fits hc)
  exact Option.isSome_of_eq_some (Rule.turnComparison_eq_some_iff.2 ⟨c, c', t, e, hc', rfl, rfl⟩)

theorem block_of_fits (h : Fits f singleBlock v) : (Rule.unwrapBlock.apply v).isSome := by
  have one := forOne_sequence_atEnd (forOne_capture (f := f) "one_stat")
  obtain ⟨vs, rfl, hvs⟩ := h.named.sequence (by simpa using one)
  simp only [List.forall₂_cons_left_iff, List.forall₂_nil_left_iff] at hvs
  obtain ⟨t, -, ht, ⟨b, -, hb, rfl, rfl⟩, rfl⟩ := hvs
  obtain rfl := string_of_fits ht
  obtain ⟨ws, rfl, hws⟩ := hb.sequence_atEnd.sequence (by simp)
  simp only [List.forall₂_cons_left_iff, List.forall₂_nil_left_iff] at hws
  obtain ⟨s, -, -, rfl, rfl⟩ := hws
  exact Option.isSome_of_eq_some (Rule.unwrapBlock_eq_some_iff.2 rfl)

end Fits

section Ways

variable {f : Forest} {seq inner below : SeqName} {w : Way} {x y z u : Node}

theorem ways_name (hn : (f.nodesOf seq)[w.position]? = some (.seq inner))
    (hc : f.children? inner = some [.scalar (.string "name"), x]) :
    ways f namePattern seq w = [.ok ((w.past 1).bind "thing" ⟨inner, 1, 1⟩)] := by
  rw [namePattern, ways_sequence hn hc]
  simp [waysOfItems, ways, string, capture, Forest.nodesOf_eq hc, Way.past, Way.bind]

/-- A function with a name is found with it, and one without a name is found all the same. -/
theorem ways_function {tag : String} (htag : tag ∈ ["function", "defun"])
    (hn : (f.nodesOf seq)[w.position]? = some (.seq inner))
    (hc : f.children? inner = some [.scalar (.string tag), x, y, z]) :
    ∃ rest, ways f functionPattern seq w = .ok
      ((if x.isNull then w.past 1 else (w.past 1).bind "thing" ⟨inner, 1, 1⟩).bind "args"
        ⟨inner, 2, 1⟩) :: rest := by
  rw [functionPattern, ways_sequence hn hc]
  simp only [List.mem_cons, List.not_mem_nil, or_false] at htag
  cases hx : x.isNull <;> rcases htag with rfl | rfl <;>
    simp [waysOfItems, waysOfAlternatives, ways, string, capture, holds, hx, Forest.nodesOf_eq hc,
      Way.past, Way.bind]

theorem ways_property (hn : (f.nodesOf seq)[w.position]? = some (.seq inner))
    (hc : f.children? inner = some [.scalar (.string "dot"), x, y]) :
    ways f propertyPattern seq w = [.ok ((w.past 1).bind "thing" ⟨inner, 2, 1⟩)] := by
  rw [propertyPattern, ways_sequence hn hc]
  simp [waysOfItems, ways, string, capture, Forest.nodesOf_eq hc, Way.past, Way.bind]

theorem ways_declarations {tag : String} (htag : tag ∈ ["var", "const", "object"])
    (hn : (f.nodesOf seq)[w.position]? = some (.seq inner))
    (hc : f.children? inner = some [.scalar (.string tag), x]) :
    ways f declarationsPattern seq w = [.ok ((w.past 1).bind "defs" ⟨inner, 1, 1⟩)] := by
  rw [declarationsPattern, ways_sequence hn hc]
  simp only [List.mem_cons, List.not_mem_nil, or_false] at htag
  rcases htag with rfl | rfl | rfl <;>
    simp [waysOfItems, waysOfAlternatives, ways, string, capture, Forest.nodesOf_eq hc, Way.past,
      Way.bind]

theorem ways_comparison {operator : String} (ho : operator = "<=" ∨ operator = ">=")
    (hn : (f.nodesOf seq)[w.position]? = some (.seq inner))
    (hc : f.children? inner = some [.scalar (.string "if"), .seq below, x, y])
    (hb : f.children? below =
      some [.scalar (.string "binary"), .scalar (.string operator), z, u]) :
    ways f comparisonRule seq w = [.ok ((((w.past 1).bind "operator" ⟨below, 1, 1⟩).bind "t"
      ⟨inner, 2, 1⟩).bind "e" ⟨inner, 3, 1⟩)] := by
  rw [comparisonRule, ways_sequence hn hc]
  rcases ho with rfl | rfl <;>
    simp [conditionPattern, waysOfItems, waysOfAlternatives, ways, string, capture,
      Forest.nodesOf_eq hc, Forest.nodesOf_eq hb, Way.past, Way.bind]

theorem ways_block (hn : (f.nodesOf seq)[w.position]? = some (.seq inner))
    (hc : f.children? inner = some [.scalar (.string "block"), .seq below])
    (hb : f.children? below = some [x]) :
    ways f singleBlock seq w = [.ok (((w.past 1).bind "one_stat" ⟨below, 0, 1⟩).bind "one_block"
      ⟨seq, w.position, 1⟩)] := by
  rw [singleBlock, ways, waysOfItems_single, ways_sequence hn hc]
  simp [waysOfItems, ways, string, capture, Forest.nodesOf_eq hc, Forest.nodesOf_eq hb, Way.past,
    Way.bind]

end Ways

end NestedRegex.Pass
