import NestedRegex.Text.Upper

namespace NestedRegex.Text

/-- The small letters of ASCII. -/
def asciiRun : CaseRun :=
  ⟨0x61, 0x7a, 1, 0x41⟩

/-- One code point that changes, whatever it changes to. -/
def CaseRun.only (code : Nat) : CaseRun :=
  ⟨code, code, 1, code⟩

/-- All code points that change. -/
def changing : List CaseRun :=
  asciiRun :: (caseRuns ++ caseExpansions.map fun e => .only e.1)

/-- A character that is in upper case already. -/
def Steady (c : Char) : Prop :=
  ∀ r ∈ changing, r.contains c.toNat = false

/-- None of the code points from `first` to `last`, `stride` apart, is in the run: they lie before
it or behind it, or both go by twos and begin an odd number apart. -/
def CaseRun.avoids (r : CaseRun) (first last stride : Nat) : Bool :=
  Nat.blt last r.first || Nat.blt r.last first ||
    (Nat.beq r.stride 2 && (Nat.beq stride 2 || Nat.beq first last) &&
      Nat.beq ((first + r.first) % 2) 1)

/-- The code points from `first` to `last`, `stride` apart, stand for characters and do not change
themselves. -/
def settled (first last stride : Nat) : Bool :=
  (Nat.blt last 0xd800 || (Nat.blt 0xdfff first && Nat.blt last 0x110000)) &&
    changing.all (·.avoids first last stride)

variable {r : CaseRun} {c d : Char} {first last stride code : Nat}

theorem contains_iff : r.contains code = true ↔
    r.first ≤ code ∧ code ≤ r.last ∧ (code - r.first) % r.stride = 0 := by
  simp [CaseRun.contains, and_assoc]

theorem contains_eq_false_of_avoids (h : r.avoids first last stride = true)
    (hf : first ≤ code) (hl : code ≤ last) (hs : (code - first) % stride = 0) :
    r.contains code = false := by
  rw [Bool.eq_false_iff, Ne, contains_iff]
  rintro ⟨hrf, hrl, hrs⟩
  simp only [CaseRun.avoids, Bool.or_eq_true, Bool.and_eq_true, Nat.blt_eq, Nat.beq_eq] at h
  rcases h with (h | h) | ⟨⟨h2, hstride⟩, hodd⟩
  · omega
  · omega
  · rw [h2] at hrs
    rcases hstride with rfl | rfl <;> omega

/-- A settled run of code points is one of characters that are in upper case. -/
theorem steady_ofNat (h : settled first last stride = true) (hf : first ≤ code)
    (hl : code ≤ last) (hs : (code - first) % stride = 0) : Steady (.ofNat code) := by
  simp only [settled, Bool.and_eq_true, Bool.or_eq_true, Nat.blt_eq, List.all_eq_true] at h
  obtain ⟨hvalid, havoids⟩ := h
  have hcode : (Char.ofNat code).toNat = code := by
    have hchar : code.isValidChar := by
      unfold Nat.isValidChar
      omega
    rw [Char.ofNat, dif_pos hchar]
    rfl
  intro r hr
  rw [hcode]
  exact contains_eq_false_of_avoids (havoids r hr) hf hl hs

theorem settled_runs : ∀ r ∈ caseRuns,
    settled r.target (r.target + (r.last - r.first)) r.stride = true := by
  decide +kernel

theorem settled_expansions : ∀ e ∈ caseExpansions, ∀ code ∈ e.2, settled code code 1 = true := by
  decide +kernel

theorem beyond_ascii : ∀ r ∈ caseRuns ++ caseExpansions.map fun e => .only e.1,
    0x80 ≤ r.first := by
  decide +kernel

theorem isLower_iff : c.isLower = true ↔ asciiRun.contains c.toNat = true := by
  rw [contains_iff]
  unfold Char.isLower
  simp only [asciiRun, Nat.mod_one, and_true, Bool.and_eq_true, decide_eq_true_eq]
  exact Iff.rfl

theorem Steady.isLower (h : Steady c) : c.isLower = false := by
  rw [Bool.eq_false_iff, Ne, isLower_iff, h asciiRun List.mem_cons_self]
  exact Bool.false_ne_true

/-- A character that is no small letter of ASCII and in no table. -/
theorem steady_of_tables (hlower : c.isLower = false)
    (htables : ∀ r ∈ caseRuns ++ caseExpansions.map fun e => .only e.1,
      r.contains c.toNat = false) : Steady c := by
  intro r hr
  rcases List.mem_cons.1 hr with rfl | hr
  · rw [Bool.eq_false_iff, Ne, ← isLower_iff, hlower]
    exact Bool.false_ne_true
  · exact htables r hr

theorem steady_toUpper (h : c.toNat < 0x80) : Steady c.toUpper := by
  have hall : ∀ n < 0x80, (Char.ofNat n).toUpper.isLower = false ∧
      (Char.ofNat n).toUpper.toNat < 0x80 := by decide +kernel
  have hc := hall c.toNat h
  rw [Char.ofNat_toNat] at hc
  refine steady_of_tables hc.1 fun r hr => ?_
  have hbeyond := beyond_ascii r hr
  rw [Bool.eq_false_iff, Ne, contains_iff]
  omega

/-- Upper case consists of characters that are in upper case. -/
theorem steady_of_mem_upperChar (h : d ∈ upperChar c) : Steady d := by
  unfold upperChar at h
  split at h
  · next hlow =>
    obtain rfl := List.mem_singleton.1 h
    exact steady_toUpper hlow
  · next hlow =>
    split at h
    · next codes hfound =>
      obtain ⟨code, hcode, rfl⟩ := List.mem_map.1 h
      have hs := settled_expansions _ (List.mem_of_find?_eq_some hfound) code hcode
      exact steady_ofNat hs (Nat.le_refl _) (Nat.le_refl _) (Nat.mod_one _)
    · next hnone =>
      split at h
      · next r hfound =>
        obtain rfl := List.mem_singleton.1 h
        have hs := settled_runs _ (List.mem_of_find?_eq_some hfound)
        have hin : r.contains c.toNat = true := by simpa using List.find?_some hfound
        obtain ⟨hf, hl, hstride⟩ := contains_iff.1 hin
        refine steady_ofNat hs (Nat.le_add_right _ _) (by omega) ?_
        rw [Nat.add_sub_cancel_left]
        exact hstride
      · next hruns =>
        obtain rfl := List.mem_singleton.1 h
        refine steady_of_tables ?_ fun r hr => ?_
        · rw [Bool.eq_false_iff, Ne, isLower_iff, contains_iff]
          simp only [asciiRun]
          omega
        · rcases List.mem_append.1 hr with hr | hr
          · simpa using List.find?_eq_none.1 hruns r hr
          · obtain ⟨e, he, rfl⟩ := List.mem_map.1 hr
            have hne : ¬e.1 = d.toNat := by simpa using List.find?_eq_none.1 hnone e he
            rw [Bool.eq_false_iff, Ne, contains_iff]
            simp only [CaseRun.only]
            omega

theorem Steady.toUpper (h : Steady c) : c.toUpper = c := by
  have hnot := h.isLower
  unfold Char.isLower at hnot
  simp only [Bool.and_eq_false_imp, decide_eq_true_eq, decide_eq_false_iff_not] at hnot
  exact dif_neg fun hlower => hnot hlower.1 hlower.2

theorem Steady.upperChar (h : Steady c) : upperChar c = [c] := by
  have hruns : caseRuns.find? (·.contains c.toNat) = none :=
    List.find?_eq_none.2 fun r hr => by simp [h r (by simp [changing, hr])]
  have hexpansions : caseExpansions.find? (·.1 = c.toNat) = none := by
    refine List.find?_eq_none.2 fun e he => ?_
    have hnot := h (.only e.1) (by
      simp only [changing, List.mem_cons, List.mem_append, List.mem_map]
      exact .inr (.inr ⟨e, he, rfl⟩))
    rw [Bool.eq_false_iff, Ne, contains_iff] at hnot
    simp only [CaseRun.only, Nat.mod_one, and_true] at hnot
    have hne : e.1 ≠ c.toNat := fun he => hnot (by omega)
    simpa using hne
  unfold Text.upperChar
  rw [hruns, hexpansions]
  split
  · rw [h.toUpper]
  · rfl

theorem steady_of_mem_upper {s : String} (h : c ∈ (upper s).toList) : Steady c := by
  rw [upper, String.toList_ofList] at h
  obtain ⟨b, -, hc⟩ := List.mem_flatMap.1 h
  exact steady_of_mem_upperChar hc

/-- Upper case stays as it is. -/
theorem upper_upper (s : String) : upper (upper s) = upper s := by
  have same : ∀ cs : List Char, (∀ c ∈ cs, Steady c) → cs.flatMap upperChar = cs := by
    intro cs
    induction cs with
    | nil => intro _; rfl
    | cons c cs ih =>
      intro h
      rw [List.flatMap_cons, (h c List.mem_cons_self).upperChar,
        ih fun d hd => h d (List.mem_cons_of_mem _ hd)]
      rfl
  rw [upper, same _ fun c hc => steady_of_mem_upper hc, String.ofList_toList]

/-- A text with a small letter of ASCII is not in upper case. -/
theorem upper_ne {s t : String} (h : t.toList.any Char.isLower = true) : upper s ≠ t := by
  rintro rfl
  obtain ⟨c, hc, hlower⟩ := List.any_eq_true.1 h
  rw [(steady_of_mem_upper hc).isLower] at hlower
  cases hlower

end NestedRegex.Text
