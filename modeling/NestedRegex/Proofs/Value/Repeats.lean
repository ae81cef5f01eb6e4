import Mathlib.Data.List.Infix
import NestedRegex.Value

namespace NestedRegex.Value

/-- The values are `x` and `y`, one or more further copies of `y`, and `x` and `y` again. -/
def IsRun (x y : Value) (vs : List Value) : Prop :=
  ∃ more, vs = x :: y :: (List.replicate (more + 1) y ++ [x, y])

/-- The `x` and `y` of a run that the values are. -/
def run? : List Value → Option (Value × Value)
  | x :: y :: rest =>
    if 2 < rest.length ∧ rest = List.replicate (rest.length - 2) y ++ [x, y] then some (x, y)
    else none
  | _ => none

/-- The `x` and `y` of the longest run that the values end with. -/
def longestRun? (vs : List Value) : Option (Value × Value) :=
  vs.tails.findSome? run?

variable {x y : Value} {vs : List Value}

theorem run?_eq_some_iff : run? vs = some (x, y) ↔ IsRun x y vs := by
  constructor
  · intro h
    unfold run? at h
    split at h
    · next x y rest =>
      split at h
      · next hrest =>
        obtain ⟨hlong, hrest⟩ := hrest
        cases h
        have hcopies : rest.length - 2 = rest.length - 3 + 1 := by omega
        exact ⟨rest.length - 3, by rw [← hcopies, ← hrest]⟩
      · cases h
    · cases h
  · intro ⟨more, hvs⟩
    rw [hvs]
    simp [run?]

theorem run?_eq_none_iff : run? vs = none ↔ ∀ x y, ¬IsRun x y vs := by
  simp only [Option.eq_none_iff_forall_ne_some, Prod.forall, ne_eq, run?_eq_some_iff]

theorem longestRun?_cons (v : Value) (vs : List Value) :
    longestRun? (v :: vs) = (run? (v :: vs)).or (longestRun? vs) := by
  unfold longestRun?
  rw [List.tails_cons, List.findSome?_cons]
  cases run? (v :: vs) <;> rfl

theorem longestRun?_eq_none_iff :
    longestRun? vs = none ↔ ∀ back, back <:+ vs → ∀ x y, ¬IsRun x y back := by
  simp only [longestRun?, List.findSome?_eq_none_iff, List.mem_tails, run?_eq_none_iff]

/-- Copies of a value up to the last two values, found piece by piece. -/
theorem eq_copies_append_iff {copies : Nat} :
    (List.replicate copies y <+: vs ∧ [x, y] <+: vs.drop copies ∧ copies + 2 = vs.length) ↔
      vs = List.replicate copies y ++ [x, y] := by
  constructor
  · intro ⟨⟨back, hback⟩, hagain, hlength⟩
    have hdrop : vs.drop copies = back := by
      rw [← hback, List.drop_left' List.length_replicate]
    rw [← hback, ← hdrop, hagain.eq_of_length (by simp [← hlength])]
  · intro h
    subst h
    refine ⟨List.prefix_append _ _, ?_, by simp⟩
    rw [List.drop_left' List.length_replicate]

/-- The run that is looked for is the longest of all. -/
theorem longestRun?_eq_some_iff : longestRun? vs = some (x, y) ↔
    ∃ back, back <:+ vs ∧ IsRun x y back ∧
      ∀ back', back' <:+ vs → ∀ x' y', IsRun x' y' back' → back'.length ≤ back.length := by
  induction vs with
  | nil =>
    refine iff_of_false nofun ?_
    intro ⟨back, hback, ⟨more, hrun⟩, _⟩
    rw [List.suffix_nil.1 hback] at hrun
    cases hrun
  | cons v vs ih =>
    rw [longestRun?_cons]
    cases hr : run? (v :: vs) with
    | some run =>
      rw [Option.some_or, ← hr, run?_eq_some_iff]
      constructor
      · exact fun hrun => ⟨_, List.suffix_rfl, hrun, fun back hback _ _ _ => hback.length_le⟩
      · intro ⟨back, hback, hrun, longest⟩
        have hle := longest _ List.suffix_rfl _ _ (run?_eq_some_iff.1 hr)
        rwa [hback.eq_of_length_le hle] at hrun
    | none =>
      have none := run?_eq_none_iff.1 hr
      have behind {back : List Value} {x y : Value} (hback : back <:+ v :: vs)
          (hrun : IsRun x y back) : back <:+ vs :=
        (List.suffix_cons_iff.1 hback).resolve_left fun e => none x y (e ▸ hrun)
      rw [Option.none_or, ih]
      constructor
      · intro ⟨back, hback, hrun, longest⟩
        exact ⟨back, hback.trans (List.suffix_cons v vs), hrun, fun back' hback' x' y' hrun' =>
          longest back' (behind hback' hrun') x' y' hrun'⟩
      · intro ⟨back, hback, hrun, longest⟩
        exact ⟨back, behind hback hrun, hrun, fun back' hback' =>
          longest back' (hback'.trans (List.suffix_cons v vs))⟩

/-- Where all values are the same, the longest run takes in all of them. -/
example : longestRun? [.scalar .null, .scalar .null, .scalar .null, .scalar .null,
    .scalar .null] = some (.scalar .null, .scalar .null) := by
  decide

end NestedRegex.Value
