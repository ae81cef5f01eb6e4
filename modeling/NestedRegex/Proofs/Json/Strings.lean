import Mathlib.Data.List.Basic
import NestedRegex.Json.Reader
import NestedRegex.Json.Writer

namespace NestedRegex.Json

variable {c : Char} {cs after before : List Char} {turns : Nat}

/-- A digit in base sixteen is read as its number. -/
theorem hexValue?_hexDigit {n : Nat} (h : n < 16) : hexValue? (hexDigit n) = some n := by
  decide +revert

/-- The escape of a character without a sign of its own reads as this character. -/
theorem readCodePoint_control (h : c.toNat < 0x20) :
    readCodePoint ('0' :: '0' :: hexDigit (c.toNat / 16) :: hexDigit (c.toNat % 16) :: cs) =
      some (c, cs) := by
  have hhigh := hexValue?_hexDigit (n := c.toNat / 16) (by omega)
  have hlow := hexValue?_hexDigit (n := c.toNat % 16) (by omega)
  have hunit : readUnit
      ('0' :: '0' :: hexDigit (c.toNat / 16) :: hexDigit (c.toNat % 16) :: cs) =
      some (c.toNat, cs) := by
    simp only [readUnit, hhigh, hlow, show hexValue? '0' = some 0 from rfl, bind, Option.bind]
    congr 2
    omega
  simp only [readCodePoint, hunit, bind, Option.bind]
  rw [if_neg (by omega), if_neg (by omega), Char.ofNat_toNat]

/-- A character between quotes takes one step and is read as itself. -/
theorem readQuoted_escaped (turns : Nat) (before : List Char) (c : Char) (cs : List Char) :
    readQuoted (turns + 1) before (escaped c ++ cs) = readQuoted turns (c :: before) cs := by
  unfold escaped
  split
  case h_8 hquote hslash _ _ _ _ _ =>
    split
    · next hcontrol =>
      have hescape : readEscape ('u' :: '0' :: '0' :: hexDigit (c.toNat / 16) ::
          hexDigit (c.toNat % 16) :: cs) = some (c, cs) := readCodePoint_control hcontrol
      simp only [List.cons_append, List.nil_append, readQuoted, hescape, bind, Option.bind]
      rfl
    · next hcontrol =>
      simp only [List.cons_append, List.nil_append, readQuoted, if_neg hquote, if_neg hslash,
        if_neg hcontrol]
  all_goals rfl

/-- Characters between quotes are read up to the closing quote. -/
theorem readQuoted_flatMap (h : cs.length < turns) :
    readQuoted turns before (cs.flatMap escaped ++ '"' :: after) =
      some (before.reverse ++ cs, after) := by
  induction cs generalizing turns before with
  | nil =>
    obtain ⟨turns, rfl⟩ := Nat.exists_eq_add_of_lt h
    rw [List.append_nil]
    rfl
  | cons c cs ih =>
    obtain ⟨turns, rfl⟩ := Nat.exists_eq_succ_of_ne_zero (Nat.ne_zero_of_lt h)
    rw [List.flatMap_cons, List.append_assoc, readQuoted_escaped,
      ih (Nat.lt_of_succ_lt_succ h), List.reverse_cons, List.append_assoc]
    rfl

theorem escaped_ne_nil (c : Char) : escaped c ≠ [] := by
  unfold escaped
  split
  case h_8 => split <;> exact List.cons_ne_nil _ _
  all_goals exact List.cons_ne_nil _ _

theorem length_le_escaped (cs : List Char) : cs.length ≤ (cs.flatMap escaped).length := by
  induction cs with
  | nil => exact Nat.le_refl _
  | cons c cs ih =>
    have hc := List.length_pos_of_ne_nil (escaped_ne_nil c)
    rw [List.flatMap_cons, List.length_append, List.length_cons]
    omega

/-- A string, after its opening quote, reads back, with what follows it left. -/
theorem readString_flatMap (s : String) (after : List Char) :
    readString (s.toList.flatMap escaped ++ '"' :: after) = some (s, after) := by
  have hturns : s.toList.length < (s.toList.flatMap escaped ++ '"' :: after).length := by
    have hlength := length_le_escaped s.toList
    simp only [List.length_append, List.length_cons]
    omega
  simp only [readString, readQuoted_flatMap hturns, bind, Option.bind, List.reverse_nil,
    List.nil_append, String.ofList_toList]

end NestedRegex.Json
