import NestedRegex.Forest.Read
import NestedRegex.Proofs.Forest.Places

namespace NestedRegex.Forest

/-- `nodes` were loaded into `f`, which made it `g`. -/
structure Loaded (f g : Forest) (nodes : List Node) : Prop where
  grows : Extends g f
  closed : g.Closed
  acyclic : f.Acyclic → g.Acyclic
  holds : g.Holds nodes
  fresh : ∀ id, g.ReachedFrom nodes id → f.contains id = false
  once : ∀ id, g.places id + nodes.count (.seq id) ≤
    f.places id + if f.contains id = true then 0 else 1

variable {f g h : Forest} {id : SeqName} {nodes more : List Node}

namespace Loaded

theorem nil (hf : f.Closed) : Loaded f f [] where
  grows := .refl f
  closed := hf
  acyclic ha := ha
  holds _ hm := absurd hm List.not_mem_nil
  fresh _ hr := absurd hr.choose_spec.1 List.not_mem_nil
  once _ := Nat.le_add_right _ _

theorem scalar (hf : f.Closed) (s : Scalar) : Loaded f f [.scalar s] where
  grows := .refl f
  closed := hf
  acyclic ha := ha
  holds id hm := by simp at hm
  fresh id hr := by
    obtain ⟨top, hm, -⟩ := hr
    simp at hm
  once id := by simp

theorem append (hg : Loaded f g nodes) (hh : Loaded g h more) : Loaded f h (nodes ++ more) where
  grows := hh.grows.trans hg.grows
  closed := hh.closed
  acyclic ha := hh.acyclic (hg.acyclic ha)
  holds := (hh.grows.holds hg.holds).append hh.holds
  fresh id hr := by
    obtain ⟨top, hm, ht⟩ := hr
    rcases List.mem_append.1 hm with hm | hm
    · have hin := (hh.grows.reachedFrom_iff hg.closed hg.holds).1 ⟨top, hm, ht⟩
      exact hg.fresh id hin
    · have hnew := hh.fresh id ⟨top, hm, ht⟩
      cases hc : f.contains id with
      | false => rfl
      | true => rw [hg.grows.contains hc] at hnew; cases hnew
  once id := by
    have hl := hg.once id
    have hr := hh.once id
    rw [List.count_append]
    by_cases hc : g.contains id = true
    · rw [if_pos hc] at hr
      omega
    · have hnone : f.contains id ≠ true := fun hf => hc (hg.grows.contains hf)
      have hplaces := places_eq_zero hg.closed (Bool.eq_false_iff.2 hc)
      have hcount : nodes.count (.seq id) = 0 := List.count_eq_zero.2 fun hm => hc (hg.holds id hm)
      rw [if_neg hc] at hr
      rw [if_neg hnone]
      omega

/-- A new sequence of the loaded nodes. -/
theorem alloc (hg : Loaded f g nodes) :
    Loaded f (g.alloc nodes).2 [.seq (g.alloc nodes).1] where
  grows := (extends_alloc g nodes).trans hg.grows
  closed := hg.closed.alloc hg.holds
  acyclic ha := (hg.acyclic ha).alloc hg.closed hg.holds
  holds id hm := by
    obtain rfl : id = (g.alloc nodes).1 := by simpa using hm
    exact contains_iff.2 ⟨nodes, children?_alloc_self⟩
  fresh id hr := by
    obtain ⟨top, hm, ht⟩ := hr
    obtain rfl : top = (g.alloc nodes).1 := by simpa using hm
    rcases ht.eq_or_reachedFrom children?_alloc_self with rfl | hin
    · cases hc : f.contains (g.alloc nodes).1 with
      | false => rfl
      | true =>
        have hold := hg.grows.contains hc
        rw [not_contains_alloc] at hold
        cases hold
    · exact hg.fresh id (((extends_alloc g nodes).reachedFrom_iff hg.closed hg.holds).1 hin)
  once id := by
    have hl := hg.once id
    rw [places_alloc]
    by_cases e : id = (g.alloc nodes).1
    · have hnot : g.contains id ≠ true := by
        rw [e, not_contains_alloc]
        exact Bool.false_ne_true
      have hnone : f.contains id ≠ true := fun hf => hnot (hg.grows.contains hf)
      have hplaces := places_eq_zero hg.closed (Bool.eq_false_iff.2 hnot)
      have hcount : nodes.count (.seq id) = 0 :=
        List.count_eq_zero.2 fun hm => hnot (hg.holds id hm)
      rw [hplaces, hcount, ← e, if_neg hnone]
      simp
    · have hother : [Node.seq (g.alloc nodes).1].count (.seq id) = 0 :=
        List.count_eq_zero.2 fun hm => e (by simpa using hm)
      omega

end Loaded

mutual

theorem loaded_load : ∀ (v : Value) {f : Forest}, f.Closed → Loaded f (f.load v).2 [(f.load v).1]
  | .scalar s, _, hf => .scalar hf s
  | .seq items, _, hf => (loaded_loadItems items hf).alloc

theorem loaded_loadItems : ∀ (vs : List Value) {f : Forest}, f.Closed →
    Loaded f (f.loadItems vs).2 (f.loadItems vs).1
  | [], _, hf => .nil hf
  | v :: vs, _, hf => (loaded_load v hf).append (loaded_loadItems vs (loaded_load v hf).closed)

end

theorem closed_bare : bare.Closed := by
  intro id nodes hc
  cases hc

theorem acyclic_bare : bare.Acyclic := by
  intro id h
  obtain ⟨b, ⟨nodes, hc, -⟩, -⟩ := Relation.TransGen.head'_iff.1 h
  cases hc

/-- What a forest of one value was loaded as: the children of its root. -/
theorem ofValue_eq (v : Value) : ∃ g nodes, Loaded bare g nodes ∧
    ofValue v = { (g.alloc nodes).2 with root := (g.alloc nodes).1 } := by
  cases v with
  | scalar s => exact ⟨bare, [.scalar s], .scalar closed_bare s, rfl⟩
  | seq items => exact ⟨_, _, loaded_loadItems items closed_bare, rfl⟩

theorem closed_ofValue (v : Value) : (ofValue v).Closed := by
  obtain ⟨g, nodes, hg, h⟩ := ofValue_eq v
  rw [h]
  exact hg.alloc.closed

theorem acyclic_ofValue (v : Value) : (ofValue v).Acyclic := by
  obtain ⟨g, nodes, hg, h⟩ := ofValue_eq v
  rw [h]
  exact hg.alloc.acyclic acyclic_bare

theorem contains_root_ofValue (v : Value) : (ofValue v).contains (ofValue v).root = true := by
  obtain ⟨g, nodes, hg, h⟩ := ofValue_eq v
  rw [h]
  exact hg.alloc.holds _ List.mem_cons_self

/-- A forest of one value shares nothing. -/
theorem unshared_ofValue (v : Value) : (ofValue v).Unshared := by
  obtain ⟨g, nodes, hg, h⟩ := ofValue_eq v
  have once : ∀ id, (g.alloc nodes).2.places id +
      [Node.seq (g.alloc nodes).1].count (.seq id) ≤ 1 := by
    intro id
    have hle := hg.alloc.once id
    have hbare : bare.places id = 0 := rfl
    split at hle <;> omega
  rw [h]
  refine ⟨fun id => Nat.le_trans (Nat.le_add_right _ _) (once id), ?_⟩
  have hroot := once (g.alloc nodes).1
  rw [List.count_cons_self] at hroot
  change (g.alloc nodes).2.places (g.alloc nodes).1 = 0
  omega

end NestedRegex.Forest
