import Mathlib.Algebra.GroupWithZero.Nat
import NestedRegex.Proofs.Forest.Graph
import NestedRegex.Proofs.General

namespace NestedRegex.Forest

open Relation

/-- The number of child places that name a sequence. -/
def places (f : Forest) (id : SeqName) : Nat :=
  (f.rows.toList.map fun row => row.toList.count (.seq id)).sum

/-- No sequence has two places, and the root has none. -/
structure Unshared (f : Forest) : Prop where
  once : ∀ id, f.places id ≤ 1
  root : f.places f.root = 0

variable {f g : Forest} {a b id x : SeqName} {nodes front old new back : List Node}

theorem places_alloc (f : Forest) (nodes : List Node) (x : SeqName) :
    (f.alloc nodes).2.places x = f.places x + nodes.count (.seq x) := by
  simp [places, alloc]

theorem row_of_children? (hc : f.children? id = some nodes) :
    ∃ h : id.index < f.rows.toList.length, (f.rows.toList[id.index]).toList = nodes := by
  obtain ⟨row, hr, rfl⟩ := Option.map_eq_some_iff.1 hc
  obtain ⟨h, rfl⟩ := Array.getElem?_eq_some_iff.1 hr
  exact ⟨by simpa using h, by simp⟩

theorem places_setChildren (hc : f.children? id = some old) (new : List Node) (x : SeqName) :
    (f.setChildren id new).places x + old.count (.seq x) = f.places x + new.count (.seq x) := by
  obtain ⟨h, rfl⟩ := row_of_children? hc
  have hs := List.sum_set_add_getElem (f.rows.toList.map fun row => row.toList.count (.seq x))
    id.index (new.count (.seq x)) (by simpa using h)
  simpa [places, setChildren, setRow, List.map_set] using hs

/-- A splice gives places to the new nodes and takes those of the old ones. -/
theorem Spliced.places (h : Spliced f g id front old new back) (x : SeqName) :
    g.places x + old.count (.seq x) = f.places x + new.count (.seq x) := by
  have hset := spliced_setChildren h.before new
  have same : ∀ y, g.children? y = (f.setChildren id (front ++ new ++ back)).children? y := by
    intro y
    by_cases e : y = id
    · rw [e, h.after, hset.after]
    · rw [h.other y e, hset.other y e]
  have hs := places_setChildren h.before (front ++ new ++ back) x
  rw [eq_of_children? same h.root]
  simp only [List.count_append] at hs
  omega

theorem count_le_places (hc : f.children? id = some nodes) (x : SeqName) :
    nodes.count (.seq x) ≤ f.places x := by
  have hs := places_setChildren hc [] x
  rw [List.count_nil] at hs
  omega

theorem Unshared.count_nodesOf (h : f.Unshared) (a x : SeqName) :
    (f.nodesOf a).count (.seq x) ≤ 1 := by
  unfold nodesOf
  cases hc : f.children? a with
  | none => exact Nat.zero_le _
  | some nodes => exact Nat.le_trans (count_le_places hc x) (h.once x)

theorem Child.count_pos (hc : f.children? a = some nodes) (h : f.Child a x) :
    0 < nodes.count (.seq x) := by
  obtain ⟨nodes', hc', hm⟩ := h
  obtain rfl := Option.some.inj (hc.symm.trans hc')
  exact List.count_pos_iff.2 hm

/-- A sequence that has one place has one parent. -/
theorem parent_unique (hx : f.places x ≤ 1) (ha : f.Child a x) (hb : f.Child b x) : a = b := by
  refine Decidable.byContradiction fun hne => ?_
  obtain ⟨as, has⟩ := contains_iff.1 ha.contains
  obtain ⟨bs, hbs⟩ := contains_iff.1 hb.contains
  have hcut := places_setChildren has [] x
  have hbs' : (f.setChildren a []).children? b = some bs := by
    rw [children?_setChildren, if_neg fun h => hne h.1, hbs]
  have hle := count_le_places hbs' x
  have hpa := Child.count_pos has ha
  have hpb := Child.count_pos hbs hb
  rw [List.count_nil] at hcut
  omega

/-- A sequence that is named has a place. -/
theorem places_pos_of_child (h : f.Child a x) : 0 < f.places x := by
  obtain ⟨nodes, hc, hm⟩ := h
  exact Nat.lt_of_lt_of_le (List.count_pos_iff.2 hm) (count_le_places hc x)

/-- A sequence that is missing from a closed forest has no place. -/
theorem places_eq_zero (hf : f.Closed) (hx : f.contains x = false) : f.places x = 0 := by
  rw [places, List.sum_eq_zero_iff_forall_eq_nat]
  intro n hn
  obtain ⟨row, hr, rfl⟩ := List.mem_map.1 hn
  rw [List.count_eq_zero]
  intro hm
  obtain ⟨i, hi, rfl⟩ := List.getElem_of_mem hr
  have hrow : f.children? ⟨i⟩ = some (f.rows.toList[i]).toList := by
    have hlt : i < f.rows.size := by simpa using hi
    simp [children?, row?, hlt]
  have hin := hf ⟨i⟩ _ hrow x hm
  rw [hx] at hin
  cases hin

end NestedRegex.Forest
