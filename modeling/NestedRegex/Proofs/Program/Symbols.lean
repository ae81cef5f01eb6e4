import Mathlib.Data.List.Induction
import Mathlib.Data.List.Nodup
import NestedRegex.Proofs.Program.Lower

namespace NestedRegex

namespace Symbols

/-- No name is twice in the list, and the map leads from each name to its place there. -/
structure InStep (t : Symbols) : Prop where
  distinct : t.names.Nodup
  slot?_eq_some_iff : ∀ name slot, t.slot? name = some slot ↔ t.names[slot.index]? = some name

/-- Enter names one after the other. -/
def internAll (t : Symbols) (names : List String) : Symbols :=
  names.foldl (fun t name => (t.intern name).2) t

variable {t : Symbols} {name : String} {names : List String}

theorem inStep_empty : InStep {} :=
  ⟨List.nodup_nil, fun _ _ => iff_of_false nofun nofun⟩

theorem InStep.slot?_of_mem (h : t.InStep) (hn : name ∈ t.names) :
    t.slot? name = some (Pattern.slotOf t.names name) :=
  (h.slot?_eq_some_iff name _).2 (List.getElem?_idxOf hn)

theorem InStep.slot?_of_notMem (h : t.InStep) (hn : name ∉ t.names) : t.slot? name = none := by
  cases hs : t.slot? name with
  | none => rfl
  | some slot =>
    exact absurd (List.mem_of_getElem? ((h.slot?_eq_some_iff name slot).1 hs)) hn

/-- A name in the list is found in the map, and nothing changes. -/
theorem InStep.intern_of_mem (h : t.InStep) (hn : name ∈ t.names) :
    t.intern name = (Pattern.slotOf t.names name, t) := by
  rw [intern, h.slot?_of_mem hn]

/-- A name that is not in the list is added to both. -/
theorem InStep.intern_of_notMem (h : t.InStep) (hn : name ∉ t.names) : t.intern name =
    (⟨t.names.length⟩, ⟨t.names ++ [name], (name, ⟨t.names.length⟩) :: t.slots⟩) := by
  rw [intern, h.slot?_of_notMem hn]

/-- The list and the map stay in step when a name is entered. -/
theorem InStep.intern (h : t.InStep) (name : String) : (t.intern name).2.InStep := by
  by_cases hn : name ∈ t.names
  · rwa [h.intern_of_mem hn]
  rw [h.intern_of_notMem hn]
  refine ⟨List.concat_eq_append ▸ h.distinct.concat hn, fun other ⟨i⟩ => ?_⟩
  have entered : (t.names ++ [name])[i]? = some other ↔
      t.names[i]? = some other ∨ i = t.names.length ∧ other = name := by
    rcases Nat.lt_trichotomy i t.names.length with hlt | he | hlt
    · simp [List.getElem?_append_left hlt, Nat.ne_of_lt hlt]
    · simp [he, eq_comm]
    · have hlen : (t.names ++ [name]).length ≤ i := by
        rw [List.length_append]
        exact hlt
      simp [List.getElem?_eq_none hlen, Nat.le_of_lt hlt, Nat.ne_of_gt hlt]
  rw [entered, ← h.slot?_eq_some_iff other ⟨i⟩, slot?, List.lookup_cons]
  by_cases ho : other = name
  · subst ho
    rw [h.slot?_of_notMem hn, beq_self_eq_true]
    simp [eq_comm]
  · rw [beq_false_of_ne ho]
    simp [ho, slot?]

theorem InStep.internAll (h : t.InStep) (names : List String) : (t.internAll names).InStep := by
  induction names generalizing t with
  | nil => exact h
  | cons name names ih => exact ih (h.intern name)

theorem internAll_append (t : Symbols) (xs ys : List String) :
    t.internAll (xs ++ ys) = (t.internAll xs).internAll ys :=
  List.foldl_append

/-- What is entered from the start on is each name once, in the order of the first entries. -/
theorem internAll_empty (names : List String) :
    internAll {} names = ⟨names.eraseDups, entries names.eraseDups⟩ := by
  induction names using List.reverseRecOn with
  | nil => rfl
  | append_singleton xs x ih =>
    have step : ((internAll {} xs).intern x).2 =
        ⟨(xs ++ [x]).eraseDups, entries (xs ++ [x]).eraseDups⟩ := by
      have inStep := inStep_empty.internAll xs
      rw [ih] at inStep ⊢
      rw [List.eraseDups_append]
      by_cases hx : x ∈ xs
      · rw [inStep.intern_of_mem (List.mem_eraseDups.2 hx)]
        simp [List.removeAll, hx]
      · rw [inStep.intern_of_notMem fun h => hx (List.mem_eraseDups.1 h)]
        simp [List.removeAll, hx, entries, List.eraseDups_cons]
    rw [internAll_append]
    exact step

end Symbols

end NestedRegex
