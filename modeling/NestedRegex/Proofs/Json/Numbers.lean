import Mathlib.Data.List.Basic
import NestedRegex.Json.Reader
import NestedRegex.Json.Writer

namespace NestedRegex.Json

variable {n : Nat} {i : Int} {c : Char} {ds cs after : List Char}

/-- A number that ends in front of this text is read no further. -/
def Delimits (after : List Char) : Prop :=
  ∀ c cs, after = c :: cs → c.isDigit = false ∧ c ≠ '.' ∧ c ≠ 'e' ∧ c ≠ 'E'

theorem delimits_cons (h : c.isDigit = false) (hpoint : c ≠ '.') (he : c ≠ 'e') (hE : c ≠ 'E') :
    Delimits (c :: after) := by
  rintro _ _ ⟨⟩
  exact ⟨h, hpoint, he, hE⟩

theorem exists_toDigits (n : Nat) : ∃ d ds, Nat.toDigits 10 n = d :: ds ∧ d.isDigit := by
  obtain ⟨d, ds, hds⟩ := List.exists_cons_of_ne_nil (Nat.toDigits_ne_nil (b := 10) (n := n))
  exact ⟨d, ds, hds,
    Nat.isDigit_of_mem_toDigits (by decide) (by decide) (hds ▸ List.mem_cons_self)⟩

/-- An integer begins with a digit, after a minus sign if it is negative. -/
theorem exists_intChars (i : Int) :
    ∃ c cs, Decimal.intChars i = c :: cs ∧ (c.isDigit ∨ c = '-') := by
  by_cases hneg : i < 0
  · exact ⟨'-', Nat.toDigits 10 i.natAbs, by simp [Decimal.intChars, Decimal.minus, hneg],
      .inr rfl⟩
  · obtain ⟨d, ds, hds, hd⟩ := exists_toDigits i.natAbs
    exact ⟨d, ds, by simp [Decimal.intChars, Decimal.minus, hneg, hds], .inl hd⟩

/-- What is no digit and no minus sign begins no number. -/
theorem ne_of_numeral {x : Char} (h : c.isDigit ∨ c = '-') (hdigit : x.isDigit = false)
    (hminus : x ≠ '-') : c ≠ x := by
  rintro rfl
  rcases h with h | h
  · rw [hdigit] at h
    cases h
  · exact hminus h

theorem readDigits_append (hne : ds ≠ []) (hds : ∀ d ∈ ds, d.isDigit) (h : Delimits after) :
    readDigits (ds ++ after) = some (ds, after) := by
  have hafter : after.takeWhile Char.isDigit = [] ∧ after.dropWhile Char.isDigit = after := by
    cases after with
    | nil => exact ⟨rfl, rfl⟩
    | cons c cs =>
      have hc := (h c cs rfl).1
      exact ⟨List.takeWhile_cons_of_neg (by simp [hc]), List.dropWhile_cons_of_neg (by simp [hc])⟩
  rw [readDigits, List.takeWhile_append_of_pos hds, List.dropWhile_append_of_pos hds, hafter.1,
    hafter.2, List.append_nil]
  exact if_neg hne

/-- Only zero is written with a zero in front. -/
theorem eq_zero_of_head?_toDigits (h : (Nat.toDigits 10 n).head? = some '0') : n = 0 := by
  induction n using Nat.strongRecOn with
  | ind n ih =>
    rcases Nat.lt_or_ge n 10 with hlt | hge
    · rw [Nat.toDigits_of_lt_base hlt, List.head?_cons, Option.some_inj] at h
      exact Nat.digitChar_eq_zero.1 h
    · rw [Nat.toDigits_of_base_le (by decide) hge,
        List.head?_append_of_ne_nil _ Nat.toDigits_ne_nil] at h
      have hzero := ih (n / 10) (by omega) h
      omega

theorem readWhole_toDigits (n : Nat) (h : Delimits after) :
    readWhole (Nat.toDigits 10 n ++ after) = some (Nat.toDigits 10 n, after) := by
  have hall : ∀ d ∈ Nat.toDigits 10 n, d.isDigit := fun d hd =>
    Nat.isDigit_of_mem_toDigits (by decide) (by decide) hd
  have hdigits := readDigits_append Nat.toDigits_ne_nil hall h
  rw [readWhole, hdigits]
  refine if_neg fun hz => ?_
  rw [Bool.and_eq_true, decide_eq_true_eq, decide_eq_true_eq] at hz
  obtain ⟨hhead, hlength⟩ := hz
  rw [eq_zero_of_head?_toDigits hhead] at hlength
  exact absurd hlength (by decide)

/-- Digits only make a number greater. -/
theorem le_foldl_digits (ds : List Char) (n : Nat) :
    n ≤ ds.foldl (fun n d => 10 * n + digitValue d) n := by
  induction ds generalizing n with
  | nil => exact Nat.le_refl n
  | cons d ds ih => exact Nat.le_trans (by omega) (ih (10 * n + digitValue d))

/-- Digits are all gathered if the number that they make fits. -/
theorem gather_eq_foldl (h : ds.foldl (fun n d => 10 * n + digitValue d) n < UInt64.size) :
    gather n ds = (ds.foldl (fun n d => 10 * n + digitValue d) n, []) := by
  induction ds generalizing n with
  | nil => rfl
  | cons d ds ih =>
    rw [List.foldl_cons] at h ⊢
    rw [gather, if_pos (Nat.lt_of_le_of_lt (le_foldl_digits ds _) h), ih h]

theorem gather_toDigits (h : n < UInt64.size) : gather 0 (Nat.toDigits 10 n) = (n, []) := by
  have hfold : (Nat.toDigits 10 n).foldl (fun n d => 10 * n + digitValue d) 0 = n := by
    have hback := Nat.ofDigitChars_ten_toDigits (n := n)
    rwa [Nat.ofDigitChars_eq_foldl] at hback
  rw [gather_eq_foldl (hfold.symm ▸ h), hfold]

theorem readFraction_of_delimits (h : Delimits after) : readFraction after = some ([], after) := by
  cases after with
  | nil => rfl
  | cons c cs =>
    unfold readFraction
    split
    · next hcs =>
      exact absurd (List.cons.inj hcs).1 (h c cs rfl).2.1
    · rfl

theorem readPower_of_delimits (h : Delimits after) : readPower after = some (none, after) := by
  cases after with
  | nil => rfl
  | cons c cs =>
    obtain ⟨-, -, he, hE⟩ := h c cs rfl
    simp [readPower, he, hE]

/-- An integer that is not negative zero is read as one if it fits 64 bits. -/
theorem integerNumber_of_natAbs {negative : Bool} (hn : n = i.natAbs)
    (hsign : negative = decide (i < 0)) (hmin : Int64.minValue.toInt ≤ i) :
    integerNumber negative n = .integer i := by
  subst hn hsign
  by_cases hneg : i < 0
  · have hsmall : (decide (i.natAbs = 0) || decide (UInt64.size < 2 * i.natAbs)) = false := by
      rw [Bool.or_eq_false_iff, decide_eq_false_iff_not, decide_eq_false_iff_not]
      have hsize : UInt64.size = 2 ^ 64 := rfl
      rw [Int64.toInt_minValue] at hmin
      omega
    rw [integerNumber, if_neg (by simp [hneg]), if_neg (by rw [hsmall]; exact Bool.false_ne_true)]
    congr 1
    omega
  · rw [integerNumber, if_pos (by simp [hneg])]
    congr 1
    omega

/-- The digits of an integer, after its sign, are the number that was written. -/
theorem number?_toDigits (hmin : Int64.minValue.toInt ≤ i) (hmax : i ≤ Int64.maxValue.toInt) :
    (Numeral.mk (decide (i < 0)) (Nat.toDigits 10 i.natAbs) [] none).number? =
      some (.integer i) := by
  have hfits : i.natAbs < UInt64.size := by
    have hsize : UInt64.size = 2 ^ 64 := rfl
    rw [Int64.toInt_minValue] at hmin
    rw [Int64.toInt_maxValue] at hmax
    omega
  rw [Numeral.number?]
  simp only [gather_toDigits hfits, decide_true, Bool.and_true, if_true]
  rw [integerNumber_of_natAbs rfl rfl hmin]

/-- An integer of 64 bits reads back, with what follows it left. -/
theorem readNumber_intChars (hmin : Int64.minValue.toInt ≤ i) (hmax : i ≤ Int64.maxValue.toInt)
    (h : Delimits after) :
    readNumber (Decimal.intChars i ++ after) = some (.integer i, after) := by
  have hwhole := readWhole_toDigits i.natAbs h
  have hnumber := number?_toDigits hmin hmax
  by_cases hneg : i < 0
  · have hchars : Decimal.intChars i ++ after = '-' :: (Nat.toDigits 10 i.natAbs ++ after) := by
      simp [Decimal.intChars, Decimal.minus, hneg]
    rw [decide_eq_true hneg] at hnumber
    simp only [hchars, readNumber, hwhole, readFraction_of_delimits h, readPower_of_delimits h,
      hnumber, bind, Option.bind]
  · have hchars : Decimal.intChars i ++ after = Nat.toDigits 10 i.natAbs ++ after := by
      simp [Decimal.intChars, Decimal.minus, hneg]
    rw [decide_eq_false hneg] at hnumber
    have hplus : ∀ cs, Nat.toDigits 10 i.natAbs ++ after ≠ '-' :: cs := by
      obtain ⟨d, ds, hds, hd⟩ := exists_toDigits i.natAbs
      intro cs h
      rw [hds, List.cons_append, List.cons.injEq] at h
      rw [h.1] at hd
      cases hd
    rw [hchars, readNumber]
    · simp only [hwhole, readFraction_of_delimits h, readPower_of_delimits h, hnumber, bind,
        Option.bind]
    · exact hplus

end NestedRegex.Json
