import NestedRegex.Value.Text

namespace NestedRegex.Value

mutual

/-- What is written goes behind what was written before. -/
theorem writeText_eq : ∀ (v : Value) (before : String), v.writeText before = before ++ v.text
  | .scalar s, before => by simp [text, writeText]
  | .seq [], before => by simp [text, writeText]
  | .seq (v :: vs), before => by
    rw [text, writeText, writeText, writeText_eq v (before ++ "["), writeText_eq v ("" ++ "["),
      writeRest_eq vs (before ++ "[" ++ v.text), writeRest_eq vs ("" ++ "[" ++ v.text)]
    simp only [String.append_assoc, String.empty_append]

theorem writeRest_eq : ∀ (vs : List Value) (before : String),
    writeRest before vs = before ++ writeRest "" vs
  | [], before => (String.append_empty).symm
  | v :: vs, before => by
    rw [writeRest, writeRest, writeText_eq v (before ++ ", "), writeText_eq v ("" ++ ", "),
      writeRest_eq vs (before ++ ", " ++ v.text), writeRest_eq vs ("" ++ ", " ++ v.text)]
    simp only [String.append_assoc, String.empty_append]

end

/-- The text of a sequence is that of its items in brackets, with commas between them. -/
theorem text_seq (vs : List Value) : (Value.seq vs).text = Text.bracketed (vs.map text) := by
  have rest : ∀ (v : Value) (vs : List Value),
      v.text ++ writeRest "" vs = ", ".intercalate ((v :: vs).map text) := by
    intro v vs
    induction vs generalizing v with
    | nil => simp [writeRest]
    | cons u vs ih =>
      rw [writeRest, writeText_eq u ("" ++ ", "), writeRest_eq vs ("" ++ ", " ++ u.text)]
      simp only [List.map_cons, String.intercalate_cons_cons] at ih ⊢
      rw [← ih]
      simp only [String.append_assoc, String.empty_append]
  cases vs with
  | nil => rfl
  | cons v vs =>
    rw [text, writeText, writeText_eq v ("" ++ "["), writeRest_eq vs ("" ++ "[" ++ v.text),
      Text.bracketed, ← rest]
    simp only [String.append_assoc, String.empty_append]

end NestedRegex.Value
