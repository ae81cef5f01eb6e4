import NestedRegex.Proofs.Value.Rewriting

namespace NestedRegex

/-- An item of a value, or of something inside it. -/
inductive Value.Inside : Value → Value → Prop
  | item {vs c} (h : c ∈ vs) : Inside (.seq vs) c
  | deeper {vs c d} (h : c ∈ vs) (hd : Inside c d) : Inside (.seq vs) d

namespace Value

variable {v w : Value} {vs : List Value}

theorem not_inside_scalar (s : Scalar) : ¬(scalar s).Inside w :=
  nofun

theorem inside_seq_iff : (seq vs).Inside w ↔ ∃ c ∈ vs, c = w ∨ c.Inside w := by
  constructor
  · intro h
    cases h with
    | item h => exact ⟨w, h, .inl rfl⟩
    | deeper h hd => exact ⟨_, h, .inr hd⟩
  · intro h
    obtain ⟨c, hc, rfl | hd⟩ := h
    · exact .item hc
    · exact .deeper hc hd

end Value

namespace Rule

variable {r : Rule} {v w : Value} {vs : List Value}

theorem not_meets_scalar (s : Scalar) : ¬r.Meets (.scalar s) w :=
  nofun

theorem meets_seq_iff : r.Meets (.seq vs) w ↔ ∃ c ∈ vs, c = w ∨ r.Meets (r.after c) w := by
  constructor
  · intro h
    cases h with
    | item h => exact ⟨w, h, .inl rfl⟩
    | inside h hd => exact ⟨_, h, .inr hd⟩
  · intro h
    obtain ⟨c, hc, rfl | hd⟩ := h
    · exact .item hc
    · exact .inside hc hd

/-- Inside a rewritten value is what became of the items that the rewriting met. -/
theorem inside_rewritten_iff :
    (r.rewritten v).Inside w ↔ ∃ c, r.Meets v c ∧ r.becomes c = w := by
  induction v using r.inside_induction with
  | scalar s =>
    rw [rewritten_scalar]
    exact iff_of_false (Value.not_inside_scalar s) fun ⟨_, hm, _⟩ => not_meets_scalar s hm
  | seq vs ih =>
    rw [rewritten_seq, Value.inside_seq_iff]
    constructor
    · intro ⟨b, hb, h⟩
      obtain ⟨c, hc, rfl⟩ := List.mem_map.1 hb
      rcases h with rfl | h
      · exact ⟨c, .item hc, rfl⟩
      · obtain ⟨d, hd, rfl⟩ := (ih c hc).1 h
        exact ⟨d, .inside hc hd, rfl⟩
    · intro ⟨d, hd, hw⟩
      subst hw
      obtain ⟨c, hc, rfl | hd⟩ := meets_seq_iff.1 hd
      · exact ⟨_, List.mem_map_of_mem hc, .inl rfl⟩
      · exact ⟨_, List.mem_map_of_mem hc, .inr ((ih c hc).2 ⟨d, hd, rfl⟩)⟩

theorem hitsAt_eq_zero_iff : r.hitsAt v = 0 ↔ r.apply v = none ∧ r.hits v = 0 := by
  rw [hitsAt]
  cases h : r.apply v with
  | none => simp [after_eq_of_none h]
  | some w => simp

/-- A rewriting finds nothing just if the rule leaves everything inside the value. -/
theorem hits_eq_zero_iff : r.hits v = 0 ↔ ∀ w, v.Inside w → r.apply w = none := by
  induction v using r.inside_induction with
  | scalar s => simp [Value.not_inside_scalar]
  | seq vs ih =>
    have items : r.hits (.seq vs) = 0 ↔ ∀ c ∈ vs, r.apply c = none ∧ r.hits c = 0 := by
      simp only [hits_seq, List.sum_eq_zero_iff_forall_eq_nat, List.forall_mem_map,
        hitsAt_eq_zero_iff]
    rw [items]
    constructor
    · intro h w hw
      obtain ⟨c, hc, rfl | hd⟩ := Value.inside_seq_iff.1 hw
      · exact (h c hc).1
      · obtain ⟨happ, hhits⟩ := h c hc
        have inner := ih c hc
        rw [after_eq_of_none happ] at inner
        exact inner.1 hhits w hd
    · intro h c hc
      have happ := h c (.item hc)
      have inner := ih c hc
      rw [after_eq_of_none happ] at inner
      exact ⟨happ, inner.2 fun w hw => h w (.deeper hc hw)⟩

end Rule

end NestedRegex
