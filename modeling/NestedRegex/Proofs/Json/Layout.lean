import Mathlib.Data.List.TakeWhile
import NestedRegex.Proofs.Json.Numbers

namespace NestedRegex.Json

variable {layout : Layout} {level outer d turns : Nat} {c : Char} {cs after rest : List Char}
  {before : List Json} {item : Reader Json}

theorem readValue_eq_readScalar (hbracket : c ≠ '[') (hbrace : c ≠ '\x7b') :
    readValue d (c :: cs) = readScalar c cs := by
  cases d with
  | zero => rfl
  | succ d => rw [readValue, if_neg hbracket, if_neg hbrace]

/-- No array is read where nothing may nest. -/
theorem readValue_zero_array (cs : List Char) : readValue 0 ('[' :: cs) = none := rfl

theorem readValue_succ_array (cs : List Char) :
    readValue (d + 1) ('[' :: cs) =
      (readItems (readValue d) ']' cs).map fun read => (.array read.1, read.2) := by
  cases h : readItems (readValue d) ']' cs <;> simp [readValue, h]

theorem readMore_close (h : skipBlanks cs = ']' :: after) :
    readMore item ']' (turns + 1) before cs = some (before.reverse, after) := by
  rw [readMore, h]
  rfl

theorem readMore_comma (h : skipBlanks cs = ',' :: after) :
    readMore item ']' (turns + 1) before cs =
      (item (skipBlanks after)).bind fun read =>
        readMore item ']' turns (read.1 :: before) read.2 := by
  rw [readMore, h]
  rfl

theorem readItems_close : readItems item ']' (']' :: after) = some ([], after) :=
  rfl

theorem readItems_of_ne (h : skipBlanks cs = c :: after) (hc : c ≠ ']') :
    readItems item ']' cs =
      (item (c :: after)).bind fun read =>
        readMore item ']' read.2.length [read.1] read.2 := by
  rw [readItems, h]
  exact if_neg hc

theorem skipBlanks_of_not (h : isBlank c = false) : skipBlanks (c :: cs) = c :: cs :=
  List.dropWhile_cons_of_neg (by simp [h])

/-- Where a line is broken, there are only blanks. -/
theorem skipBlanks_writeBreak (layout : Layout) (level : Nat) (after : List Char) :
    skipBlanks (writeBreak layout level after) = skipBlanks after := by
  cases layout with
  | compact => rfl
  | pretty =>
    have hblank : ∀ c ∈ '\n' :: List.replicate (2 * level) ' ', isBlank c := by
      intro c hc
      rcases List.mem_cons.1 hc with rfl | hc
      · rfl
      · rw [List.eq_of_mem_replicate hc]
        rfl
    exact List.dropWhile_append_of_pos hblank

theorem delimits_of_blank (h : ∀ c ∈ cs, isBlank c) : Delimits cs := by
  rintro c _ rfl
  have hc := h c List.mem_cons_self
  simp only [isBlank, Bool.or_eq_true, decide_eq_true_eq] at hc
  rcases hc with ((rfl | rfl) | rfl) | rfl <;> decide

theorem delimits_writeBreak (h : Delimits after) : Delimits (writeBreak layout level after) := by
  cases layout with
  | compact => exact h
  | pretty => exact delimits_cons rfl (by decide) (by decide) (by decide)

/-- Neither a comma nor the end of an array goes on with a number. -/
theorem delimits_writeMore (layout : Layout) (level outer : Nat) (documents : List Json)
    (after : List Char) :
    Delimits (writeMore layout level documents (writeBreak layout outer (']' :: after))) := by
  cases documents with
  | nil =>
    rw [writeMore]
    exact delimits_writeBreak (delimits_cons rfl (by decide) (by decide) (by decide))
  | cons x xs =>
    rw [writeMore]
    exact delimits_cons rfl (by decide) (by decide) (by decide)

theorem length_le_writeBreak (layout : Layout) (level : Nat) (after : List Char) :
    after.length ≤ (writeBreak layout level after).length := by
  cases layout with
  | compact => exact Nat.le_refl _
  | pretty =>
    simp only [writeBreak, List.length_append, List.length_cons]
    omega

/-- The text begins with a character that is no blank and ends no array, and goes on with at least
as much as is to follow. -/
def Opens (text after : List Char) : Prop :=
  ∃ c cs, text = c :: cs ∧ isBlank c = false ∧ c ≠ ']' ∧ after.length ≤ cs.length

/-- A number is read where a text begins with a digit or a minus sign. -/
theorem readScalar_number (hc : c.isDigit ∨ c = '-') :
    readScalar c cs = (readNumber (c :: cs)).map fun read => (.number read.1, read.2) := by
  have hquote : c ≠ '"' := ne_of_numeral hc rfl (by decide)
  have hn : c ≠ 'n' := ne_of_numeral hc rfl (by decide)
  have ht : c ≠ 't' := ne_of_numeral hc rfl (by decide)
  have hf : c ≠ 'f' := ne_of_numeral hc rfl (by decide)
  rw [readScalar, if_neg hquote, if_neg hn, if_neg ht, if_neg hf]
  cases readNumber (c :: cs) <;> rfl

theorem writeString_append (s : String) :
    writeString s (after ++ rest) = writeString s after ++ rest := by
  simp [writeString]

theorem writeNumber_append (n : JsonNumber) :
    writeNumber n (after ++ rest) = writeNumber n after ++ rest := by
  cases n <;> simp [writeNumber]

theorem writeBreak_append :
    writeBreak layout level (after ++ rest) = writeBreak layout level after ++ rest := by
  cases layout <;> simp [writeBreak]

theorem writeColon_append :
    writeColon layout (after ++ rest) = writeColon layout after ++ rest := by
  cases layout <;> rfl

mutual

/-- What follows a document has no part in how it is written. -/
theorem write_append (layout : Layout) (level : Nat) (document : Json) (after rest : List Char) :
    write layout level document (after ++ rest) = write layout level document after ++ rest := by
  match document with
  | .null => simp only [write, List.cons_append]
  | .bool true => simp only [write, List.cons_append]
  | .bool false => simp only [write, List.cons_append]
  | .number n => simp only [write, writeNumber_append]
  | .string s => simp only [write, writeString_append]
  | .array [] => simp only [write, List.cons_append]
  | .array (x :: xs) =>
    simp only [write, List.cons_append, ← writeBreak_append, ← write_append layout (level + 1) x,
      ← writeMore_append layout (level + 1) xs]
  | .object [] => simp only [write, List.cons_append]
  | .object (x :: xs) =>
    simp only [write, List.cons_append, ← writeBreak_append,
      ← writeField_append layout (level + 1) x, ← writeMoreFields_append layout (level + 1) xs]

theorem writeMore_append (layout : Layout) (level : Nat) (items : List Json)
    (after rest : List Char) :
    writeMore layout level items (after ++ rest) = writeMore layout level items after ++ rest := by
  match items with
  | [] => simp only [writeMore]
  | x :: xs =>
    simp only [writeMore, List.cons_append, ← writeBreak_append, ← write_append layout level x,
      ← writeMore_append layout level xs]

theorem writeField_append (layout : Layout) (level : Nat) (field : String × Json)
    (after rest : List Char) :
    writeField layout level field (after ++ rest) =
      writeField layout level field after ++ rest := by
  match field with
  | (name, v) =>
    rw [writeField, writeField, write_append layout level v, writeColon_append, writeString_append]

theorem writeMoreFields_append (layout : Layout) (level : Nat) (fields : List (String × Json))
    (after rest : List Char) :
    writeMoreFields layout level fields (after ++ rest) =
      writeMoreFields layout level fields after ++ rest := by
  match fields with
  | [] => simp only [writeMoreFields]
  | x :: xs =>
    simp only [writeMoreFields, List.cons_append, ← writeBreak_append,
      ← writeField_append layout level x, ← writeMoreFields_append layout level xs]

end

end NestedRegex.Json
