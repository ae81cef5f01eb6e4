import NestedRegex.Proofs.Json.Layout
import NestedRegex.Proofs.Json.Strings
import NestedRegex.Proofs.Value.Depth
import NestedRegex.Proofs.Value.Documents

namespace NestedRegex

open Json

variable {layout : Layout} {level outer d turns : Nat} {c : Char} {cs after : List Char}
  {before : List Json} {s : Scalar} {v : Value} {vs : List Value}

/-- A scalar that is no float reads back, and is told from an array by how it begins. -/
theorem exists_write_scalar (layout : Layout) (level : Nat) (h : s.kind ≠ .float)
    (hafter : Delimits after) :
    ∃ c cs, write layout level s.toJson after = c :: cs ∧
      (isBlank c = false ∧ c ≠ ']' ∧ c ≠ '[' ∧ c ≠ '\x7b') ∧ after.length ≤ cs.length ∧
      readScalar c cs = some (s.toJson, after) := by
  have hword : ∀ word : List Char, after.length ≤ (word ++ after).length := fun word => by simp
  cases s with
  | null =>
    refine ⟨'n', _, ?_, by decide, hword ['u', 'l', 'l'], rfl⟩
    rw [Scalar.toJson, write]
    rfl
  | bool b =>
    cases b with
    | true =>
      refine ⟨'t', _, ?_, by decide, hword ['r', 'u', 'e'], rfl⟩
      rw [Scalar.toJson, write]
      rfl
    | false =>
      refine ⟨'f', _, ?_, by decide, hword ['a', 'l', 's', 'e'], rfl⟩
      rw [Scalar.toJson, write]
      rfl
  | int i =>
    obtain ⟨c, cs, hchars, hc⟩ := exists_intChars i.toInt
    have hread := readNumber_intChars i.minValue_le_toInt i.toInt_le hafter
    have hblank : isBlank c = false := by
      have hne : c ≠ ' ' ∧ c ≠ '\t' ∧ c ≠ '\n' ∧ c ≠ '\r' := by
        refine ⟨?_, ?_, ?_, ?_⟩ <;> exact ne_of_numeral hc rfl (by decide)
      simp [isBlank, hne]
    have hne : c ≠ ']' ∧ c ≠ '[' ∧ c ≠ '\x7b' := by
      refine ⟨?_, ?_, ?_⟩ <;> exact ne_of_numeral hc rfl (by decide)
    refine ⟨c, cs ++ after, ?_, ⟨hblank, hne⟩, hword cs, ?_⟩
    · rw [Scalar.toJson, write, writeNumber, hchars, List.cons_append]
    · rw [hchars, List.cons_append] at hread
      rw [readScalar_number hc, hread]
      rfl
  | float bits => exact absurd rfl h
  | string s =>
    refine ⟨'"', _, by rw [Scalar.toJson, write, writeString, List.cons_append], by decide, ?_, ?_⟩
    · simp
      omega
    · rw [readScalar, if_pos rfl, readString_flatMap]
      rfl

namespace Value

/-- What is written behind the first item is longer than there are items. -/
theorem length_lt_writeMore (outer : Nat) (after : List Char)
    (hvs : ∀ v ∈ vs, ∀ after, Delimits after → Opens (write layout level v.toJson after) after) :
    vs.length + after.length < (writeMore layout level (toJsonItems vs)
      (writeBreak layout outer (']' :: after))).length := by
  induction vs with
  | nil =>
    rw [toJsonItems_nil, writeMore, List.length_nil, Nat.zero_add]
    exact length_le_writeBreak layout outer (']' :: after)
  | cons v vs ih =>
    have hrest := ih fun w hw => hvs w (List.mem_cons_of_mem v hw)
    obtain ⟨c, cs, htext, -, -, hle⟩ := hvs v List.mem_cons_self _
      (delimits_writeMore layout level outer (toJsonItems vs) after)
    have hbreak := length_le_writeBreak layout level (c :: cs)
    rw [toJsonItems_cons, writeMore, htext]
    simp only [List.length_cons] at hbreak ⊢
    omega

/-- How the text of a value begins. -/
theorem FloatFree.opens (hv : v.FloatFree) (layout : Layout) (level : Nat) (after : List Char)
    (hafter : Delimits after) : Opens (write layout level v.toJson after) after := by
  induction hv generalizing level after with
  | scalar h =>
    obtain ⟨c, cs, htext, ⟨hblank, hclose, -⟩, hle, -⟩ := exists_write_scalar layout level h hafter
    exact ⟨c, cs, by rw [toJson_scalar, htext], hblank, hclose, hle⟩
  | @seq vs _ ih =>
    cases vs with
    | nil =>
      exact ⟨'[', ']' :: after, by rw [toJson_seq, toJsonItems_nil, write], rfl, by decide,
        Nat.le_succ _⟩
    | cons v vs =>
      refine ⟨'[', _, by rw [toJson_seq, toJsonItems_cons, write], rfl, by decide, ?_⟩
      have hrest := length_lt_writeMore level after
        fun w hw => ih w (List.mem_cons_of_mem v hw) (level + 1)
      obtain ⟨c, cs, htext, -, -, hle⟩ := ih v List.mem_cons_self (level + 1) _
        (delimits_writeMore layout (level + 1) level (toJsonItems vs) after)
      have hbreak := length_le_writeBreak layout (level + 1) (c :: cs)
      rw [htext]
      simp only [List.length_cons] at hbreak
      omega

/-- Items read back after the first ones, if none nests too deep. -/
theorem readMore_writeMore (hvs : ∀ v ∈ vs, v.FloatFree)
    (reads : ∀ v ∈ vs, ∀ after, Delimits after → readValue d (write layout level v.toJson after) =
      if v.depth ≤ d then some (v.toJson, after) else none)
    (hturns : vs.length < turns) :
    readMore (readValue d) ']' turns before
        (writeMore layout level (toJsonItems vs) (writeBreak layout outer (']' :: after))) =
      if depthOfItems vs ≤ d then some (before.reverse ++ toJsonItems vs, after) else none := by
  obtain ⟨turns, rfl⟩ := Nat.exists_eq_succ_of_ne_zero (Nat.ne_zero_of_lt hturns)
  induction vs generalizing turns before with
  | nil =>
    have hclose : skipBlanks (writeBreak layout outer (']' :: after)) = ']' :: after := by
      rw [skipBlanks_writeBreak, skipBlanks_of_not rfl]
    rw [toJsonItems_nil, writeMore, readMore_close hclose, depthOfItems_nil,
      if_pos (Nat.zero_le d), List.append_nil]
  | cons v vs ih =>
    rw [List.forall_mem_cons] at hvs reads
    obtain ⟨turns, rfl⟩ := Nat.exists_eq_succ_of_ne_zero
      (Nat.ne_zero_of_lt (Nat.lt_of_succ_lt_succ hturns))
    have hdelimits : Delimits (writeMore layout level (toJsonItems vs)
        (writeBreak layout outer (']' :: after))) := delimits_writeMore _ _ _ _ _
    obtain ⟨c, cs, htext, hblank, -⟩ := hvs.1.opens layout level _ hdelimits
    have hskip : skipBlanks (writeBreak layout level (c :: cs)) = c :: cs := by
      rw [skipBlanks_writeBreak, skipBlanks_of_not hblank]
    rw [toJsonItems_cons, writeMore, readMore_comma (skipBlanks_of_not rfl), htext, hskip, ← htext,
      reads.1 _ hdelimits, depthOfItems_cons]
    by_cases hv : v.depth ≤ d
    · rw [if_pos hv, Option.bind_some, ih hvs.2 reads.2 turns (Nat.lt_of_succ_lt_succ hturns)]
      simp [hv]
    · simp [hv]

/-- The items of an array that is not empty read back, if none nests too deep. -/
theorem readItems_write (outer : Nat) (after : List Char) (hvs : ∀ w ∈ v :: vs, w.FloatFree)
    (reads : ∀ w ∈ v :: vs, ∀ after, Delimits after →
      readValue d (write layout level w.toJson after) =
        if w.depth ≤ d then some (w.toJson, after) else none) :
    readItems (readValue d) ']' (writeBreak layout level (write layout level v.toJson
        (writeMore layout level (toJsonItems vs) (writeBreak layout outer (']' :: after))))) =
      if depthOfItems (v :: vs) ≤ d then some (toJsonItems (v :: vs), after) else none := by
  rw [List.forall_mem_cons] at hvs reads
  have hdelimits : Delimits (writeMore layout level (toJsonItems vs)
      (writeBreak layout outer (']' :: after))) := delimits_writeMore _ _ _ _ _
  obtain ⟨c, cs, htext, hblank, hclose, -⟩ := hvs.1.opens layout level _ hdelimits
  have hskip : skipBlanks (writeBreak layout level (c :: cs)) = c :: cs := by
    rw [skipBlanks_writeBreak, skipBlanks_of_not hblank]
  have hturns : vs.length < (writeMore layout level (toJsonItems vs)
      (writeBreak layout outer (']' :: after))).length :=
    Nat.lt_of_le_of_lt (Nat.le_add_right _ _)
      (length_lt_writeMore outer after fun w hw => (hvs.2 w hw).opens layout level)
  rw [htext, readItems_of_ne hskip hclose, ← htext, reads.1 _ hdelimits, depthOfItems_cons]
  by_cases hv : v.depth ≤ d
  · rw [if_pos hv, Option.bind_some, readMore_writeMore hvs.2 reads.2 hturns]
    simp [hv]
  · simp [hv]

/-- A value without floats reads back from its text if it nests no deeper than may be read, and is
not read at all if it does. -/
theorem FloatFree.readValue_write (hv : v.FloatFree) (layout : Layout) (level d : Nat)
    (after : List Char) (hafter : Delimits after) :
    readValue d (write layout level v.toJson after) =
      if v.depth ≤ d then some (v.toJson, after) else none := by
  induction hv generalizing level d after with
  | scalar h =>
    obtain ⟨c, cs, htext, ⟨-, -, hbracket, hbrace⟩, -, hread⟩ :=
      exists_write_scalar layout level h hafter
    rw [toJson_scalar, htext, readValue_eq_readScalar hbracket hbrace, hread, depth_scalar,
      if_pos (Nat.zero_le d)]
  | @seq vs hvs ih =>
    cases vs with
    | nil =>
      rw [toJson_seq, toJsonItems_nil, write]
      cases d with
      | zero => rfl
      | succ d => rw [readValue_succ_array, readItems_close]; simp
    | cons v vs =>
      rw [toJson_seq, toJsonItems_cons, write, depth_seq]
      cases d with
      | zero => rw [readValue_zero_array, if_neg (Nat.not_succ_le_zero _)]
      | succ d =>
        have hitems := readItems_write level after hvs
          fun w hw => ih w hw (level + 1) d
        rw [readValue_succ_array, hitems]
        by_cases hd : depthOfItems (v :: vs) ≤ d
        · rw [if_pos hd, if_pos (Nat.succ_le_succ hd), Option.map_some, toJsonItems_cons]
        · rw [if_neg hd, if_neg fun h => hd (Nat.le_of_succ_le_succ h), Option.map_none]

theorem FloatFree.mapScalars_finite (hv : v.FloatFree) : v.mapScalars Scalar.finite = v := by
  induction hv with
  | scalar h => rw [mapScalars_scalar, Scalar.finite_of_kind_ne h]
  | seq _ ih => rw [mapScalars_seq, List.map_congr_left ih, List.map_id']

/-- A value without floats is read from its text with blanks behind it, or the text is refused when
the value nests too deep. -/
theorem FloatFree.parse_render_append (hv : v.FloatFree) (layout : Layout) (trail : String)
    (htrail : ∀ c ∈ trail.toList, isBlank c) :
    parse (v.render layout ++ trail) =
      if v.depth ≤ maxDepth then .ok v else .error .malformed := by
  have hdelimits := delimits_of_blank htrail
  obtain ⟨c, cs, htext, hblank, -⟩ := hv.opens layout 0 trail.toList hdelimits
  have hread := hv.readValue_write layout 0 maxDepth trail.toList hdelimits
  have hchars : (v.render layout ++ trail).toList = write layout 0 v.toJson trail.toList := by
    rw [String.toList_append, render, text, String.toList_ofList, ← write_append, List.nil_append]
  have hend : skipBlanks trail.toList = [] := List.dropWhile_eq_nil_iff.2 htrail
  rw [parse, read?, hchars, htext, skipBlanks_of_not hblank, ← htext, hread]
  by_cases hd : v.depth ≤ maxDepth
  · simp only [if_pos hd, bind, Option.bind, hend, if_true]
    rw [ofJson, ofJsonAt_toJson, hv.mapScalars_finite]
  · simp only [if_neg hd, bind, Option.bind]

theorem FloatFree.parse_render (hv : v.FloatFree) (layout : Layout) :
    parse (v.render layout) = if v.depth ≤ maxDepth then .ok v else .error .malformed := by
  have hblank : ∀ c ∈ "".toList, isBlank c := fun c hc => absurd hc List.not_mem_nil
  have hparse := hv.parse_render_append layout "" hblank
  rwa [String.append_empty] at hparse

/-- A value without floats is read back from its text, in either layout, exactly if its sequences
nest at most 127 deep. -/
theorem parse_render_eq_ok_iff (hv : v.FloatFree) (layout : Layout) :
    parse (v.render layout) = .ok v ↔ v.depth ≤ 127 := by
  rw [hv.parse_render]
  by_cases hd : v.depth ≤ maxDepth
  · exact iff_of_true (if_pos hd) hd
  · rw [if_neg hd]
    exact iff_of_false nofun hd

/-- Both extreme integers, a string of characters that are escaped and one that is not, and an empty
sequence. -/
def extremes : Value :=
  .seq [.scalar (.string "\"\\\n\x01\u00e9"), .scalar (.int Int64.minValue), .seq [],
    .seq [.scalar (.int Int64.maxValue), .scalar .null]]

theorem parse_render_extremes :
    extremes.FloatFree ∧ extremes.depth ≤ 127 ∧ parse (extremes.render .pretty) = .ok extremes := by
  have hv : extremes.FloatFree := by simp [extremes, Scalar.kind]
  have hd : extremes.depth ≤ 127 := by decide
  exact ⟨hv, hd, (parse_render_eq_ok_iff hv .pretty).2 hd⟩

end Value

end NestedRegex
