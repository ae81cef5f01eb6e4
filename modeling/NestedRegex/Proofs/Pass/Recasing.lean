import NestedRegex.Proofs.Pass.Upcasing

namespace NestedRegex

namespace Value

mutual

/-- The same value but for the case of texts: each is as it was, or in upper case. -/
inductive Recased : Value → Value → Prop
  | same (s : Scalar) : Recased (.scalar s) (.scalar s)
  | upper (t : String) : Recased (.scalar (.string t)) (.scalar (.string (Text.upper t)))
  | seq {vs ws : List Value} (h : RecasedItems vs ws) : Recased (.seq vs) (.seq ws)

inductive RecasedItems : List Value → List Value → Prop
  | nil : RecasedItems [] []
  | cons {v w : Value} {vs ws : List Value} (h : Recased v w) (hs : RecasedItems vs ws) :
    RecasedItems (v :: vs) (w :: ws)

end

mutual

/-- A value with every text in it left empty: its shape, and all scalars that are no texts. -/
def blanked : Value → Value
  | .scalar (.string _) => .scalar (.string "")
  | .scalar s => .scalar s
  | .seq vs => .seq (blankedItems vs)

def blankedItems : List Value → List Value
  | [] => []
  | v :: vs => blanked v :: blankedItems vs

end

/-- Whether a value is a text. -/
def IsText (v : Value) : Prop :=
  ∃ t, v = .scalar (.string t)

variable {u v w : Value} {us vs ws : List Value}

mutual

theorem Recased.refl : (v : Value) → v.Recased v
  | .scalar s => .same s
  | .seq vs => .seq (RecasedItems.refl vs)

theorem RecasedItems.refl : (vs : List Value) → RecasedItems vs vs
  | [] => .nil
  | v :: vs => .cons (Recased.refl v) (RecasedItems.refl vs)

end

mutual

/-- What is recased twice is recased: upper case stays as it is. -/
theorem Recased.trans : {u v w : Value} → u.Recased v → v.Recased w → u.Recased w
  | _, _, _, .same _, h => h
  | _, _, _, .upper t, h => by
    cases h with
    | same => exact .upper t
    | upper =>
      rw [Text.upper_upper]
      exact .upper t
  | _, _, _, .seq h, .seq h' => .seq (h.trans h')

theorem RecasedItems.trans : {us vs ws : List Value} → RecasedItems us vs → RecasedItems vs ws →
    RecasedItems us ws
  | _, _, _, .nil, .nil => .nil
  | _, _, _, .cons h hs, .cons h' hs' => .cons (h.trans h') (hs.trans hs')

end

mutual

theorem Recased.blanked_eq : {v w : Value} → v.Recased w → w.blanked = v.blanked
  | _, _, .same _ => rfl
  | _, _, .upper _ => rfl
  | _, _, .seq h => congrArg Value.seq h.blanked_eq

theorem RecasedItems.blanked_eq : {vs ws : List Value} → RecasedItems vs ws →
    blankedItems ws = blankedItems vs
  | _, _, .nil => rfl
  | _, _, .cons h hs => congrArg₂ List.cons h.blanked_eq hs.blanked_eq

end

theorem recasedItems_map {change : Value → Value} (h : ∀ v ∈ vs, v.Recased (change v)) :
    RecasedItems vs (vs.map change) := by
  induction vs with
  | nil => exact .nil
  | cons v vs ih =>
    exact .cons (h v List.mem_cons_self) (ih fun w hw => h w (List.mem_cons_of_mem _ hw))

theorem blankedItems_eq_map (vs : List Value) : blankedItems vs = vs.map blanked := by
  induction vs with
  | nil => rfl
  | cons v vs ih => rw [blankedItems, ih, List.map_cons]

@[simp] theorem blanked_seq (vs : List Value) : (seq vs).blanked = .seq (vs.map blanked) := by
  rw [blanked, blankedItems_eq_map]

@[simp] theorem blanked_upcased (v : Value) : v.upcased.blanked = .scalar (.string "") := rfl

theorem blanked_eq_empty_iff : v.blanked = .scalar (.string "") ↔ v.IsText := by
  constructor
  · intro h
    unfold blanked at h
    split at h
    · next t => exact ⟨t, rfl⟩
    · exact ⟨"", h⟩
    · cases h
  · intro ⟨t, ht⟩
    rw [ht, blanked]

/-- What keeps its shape when it is taken for a list of parameters is such a list. -/
theorem isText_of_blanked_parameters (h : v.parameters.blanked = v.blanked) :
    ∃ ps, v = .seq ps ∧ ∀ p ∈ ps, p.IsText := by
  cases v with
  | scalar s => cases s <;> cases h
  | seq ps =>
    refine ⟨ps, rfl, fun p hp => blanked_eq_empty_iff.1 ?_⟩
    have hps : (seq (ps.map upcased)).blanked = (seq ps).blanked := h
    simp only [blanked_seq, List.map_map, seq.injEq] at hps
    exact (List.map_inj_left.1 hps p hp).symm

theorem IsText.recased_upcased (h : v.IsText) : v.Recased v.upcased := by
  obtain ⟨t, rfl⟩ := h
  exact .upper t

/-- A declaration is only renamed where it begins with a text. -/
theorem recased_declared (v : Value) : v.Recased v.declared := by
  by_cases htext : ∃ t vs, v = .seq (.scalar (.string t) :: vs)
  · obtain ⟨t, vs, rfl⟩ := htext
    exact .seq (.cons (.upper t) (RecasedItems.refl vs))
  · rw [declared_of_no_text fun t vs e => htext ⟨t, vs, e⟩]
    exact .refl v

theorem recased_allDeclared (v : Value) : v.Recased v.allDeclared := by
  cases v with
  | scalar s => exact .same s
  | seq vs => exact .seq (recasedItems_map fun v _ => recased_declared v)

/-- All that the rules for names take for a name or for a parameter in the value is a text. The
name of a function can be null as well, and its parameters are to be a list. -/
structure NamedByTexts (v : Value) : Prop where
  name : ∀ x, v = .seq [.scalar (.string "name"), x] → x.IsText
  function : ∀ tag ∈ ["function", "defun"], ∀ x y z, v = .seq [.scalar (.string tag), x, y, z] →
    (x = .scalar .null ∨ x.IsText) ∧ ∃ ps, y = .seq ps ∧ ∀ p ∈ ps, p.IsText
  property : ∀ x y, v = .seq [.scalar (.string "dot"), x, y] → y.IsText

end Value

namespace Rule

open Value

variable {v w c : Value}

/-- A renaming only changes the case of texts where all names are texts. -/
theorem Renames.recased (h : Renames v w) (hv : v.NamedByTexts) : v.Recased w := by
  cases h with
  | name x he hw =>
    rw [he, hw]
    exact .seq (.cons (.same _) (.cons (hv.name x he).recased_upcased .nil))
  | function tag x y z htag he hw =>
    obtain ⟨hx, ps, hy, hps⟩ := hv.function tag htag x y z he
    have name : x.Recased x.functionName := by
      by_cases hnull : x = .scalar .null
      · rw [hnull, functionName_null]
        exact .same _
      · rw [functionName_of_ne hnull]
        exact (hx.resolve_left hnull).recased_upcased
    have parameters : y.Recased y.parameters := by
      rw [hy]
      exact .seq (recasedItems_map fun p hp => (hps p hp).recased_upcased)
    rw [he, hw]
    exact .seq (.cons (.same _) (.cons name (.cons parameters (.cons (.refl z) .nil))))
  | property x y he hw =>
    rw [he, hw]
    exact .seq (.cons (.same _) (.cons (.refl x) (.cons (hv.property x y he).recased_upcased .nil)))
  | declarations tag x htag he hw =>
    rw [he, hw]
    exact .seq (.cons (.same _) (.cons (recased_allDeclared x) .nil))

theorem recased_naming_after (h : v.NamedByTexts) : v.Recased (naming.after v) := by
  cases happ : naming.apply v with
  | none =>
    rw [after_eq_of_none happ]
    exact .refl v
  | some w =>
    rw [after_eq_of_some happ]
    exact (naming_eq_some_iff.1 happ).recased h

/-- An item whose shape and whose other scalars came through had texts for all its names. -/
theorem namedByTexts_of_blanked (h : (naming.becomes v).blanked = v.blanked) :
    v.NamedByTexts where
  name x hv := by
    rw [hv, naming_becomes_name] at h
    simp only [blanked_seq, blanked_upcased, List.map_cons, List.map_nil, Value.seq.injEq,
      List.cons.injEq] at h
    obtain ⟨-, hx, -⟩ := h
    exact blanked_eq_empty_iff.1 hx.symm
  function tag htag x y z hv := by
    rw [hv, naming_becomes_function x y z htag] at h
    simp only [blanked_seq, List.map_cons, List.map_nil, Value.seq.injEq, List.cons.injEq] at h
    obtain ⟨-, hx, hy, -⟩ := h
    constructor
    · by_cases hnull : x = .scalar .null
      · exact .inl hnull
      · rw [functionName_of_ne hnull, blanked_upcased] at hx
        exact .inr (blanked_eq_empty_iff.1 hx.symm)
    · exact isText_of_blanked_parameters hy
  property x y hv := by
    rw [hv, naming_becomes_property] at h
    simp only [blanked_seq, blanked_upcased, List.map_cons, List.map_nil, Value.seq.injEq,
      List.cons.injEq] at h
    obtain ⟨-, -, hy, -⟩ := h
    exact blanked_eq_empty_iff.1 hy.symm

/-- A rewriting by the rules for names only changes the case of texts just if it keeps the shape
and all other scalars, and that is where each item that it meets has texts for all its names. -/
theorem recased_naming_rewritten (v : Value) :
    ((∀ c, naming.Meets v c → c.NamedByTexts) → v.Recased (naming.rewritten v)) ∧
      ((naming.rewritten v).blanked = v.blanked → ∀ c, naming.Meets v c → c.NamedByTexts) := by
  induction v using naming.inside_induction with
  | scalar s =>
    rw [rewritten_scalar]
    exact ⟨fun _ => .same s, fun _ c hc => absurd hc (not_meets_scalar s)⟩
  | seq vs ih =>
    rw [rewritten_seq]
    constructor
    · intro h
      refine .seq (recasedItems_map fun c hc => ?_)
      have here := recased_naming_after (h c (.item hc))
      exact here.trans ((ih c hc).1 fun d hd => h d (.inside hc hd))
    · intro h c hc
      simp only [blanked_seq, List.map_map, Value.seq.injEq] at h
      have items := List.map_inj_left.1 h
      obtain ⟨d, hd, hdc⟩ := meets_seq_iff.1 hc
      have named : d.NamedByTexts := namedByTexts_of_blanked (items d hd)
      rcases hdc with rfl | hdc
      · exact named
      · refine (ih d hd).2 ?_ c hdc
        rw [(recased_naming_after named).blanked_eq]
        exact items d hd

end Rule

namespace Pass

open Rule

/-- The pass for names only changes the case of texts just where all names are texts. A run comes to
its end on every value, and the outcome is the value with some texts in upper case if and only if
each item that the rules for names meet has nothing but texts in the places of names and parameters.
-/
theorem upcaseNames_recases_iff (v : Value) : ∃ g w,
    Pass.upcaseNames.run (.ofValue v) = ⟨.ok ⟨naming.hits v.rooted, []⟩, g⟩ ∧
      g.toValue = .ok w ∧
      (v.rooted.Recased w ↔ ∀ c, naming.Meets v.rooted c → c.NamedByTexts) := by
  obtain ⟨g, hrun, hvalue⟩ := run_ofValue (by decide : Pass.upcaseNames ≠ .repeats) v
  obtain ⟨recased, named⟩ := recased_naming_rewritten v.rooted
  exact ⟨g, _, hrun, hvalue, fun h => named h.blanked_eq, recased⟩

/-- A number in the place of a name is lost: an empty text stands there after the run. -/
theorem number_for_name_lost :
    let v : Value := .seq [.seq [.scalar (.string "name"), .scalar (.int 5)]]
    let w : Value := .seq [.seq [.scalar (.string "name"), .scalar (.string "")]]
    ∃ g, Pass.upcaseNames.run (.ofValue v) = ⟨.ok ⟨1, []⟩, g⟩ ∧ g.toValue = .ok w ∧
      ¬v.rooted.Recased w := by
  intro v w
  obtain ⟨g, hrun, hvalue⟩ := run_ofValue (by decide : Pass.upcaseNames ≠ .repeats) v
  have value : naming.rewritten v.rooted = w := by
    rw [Value.rooted, rewritten_seq, List.map_singleton, naming_becomes_name]
    rfl
  have found : naming.hits v.rooted = 1 := by
    have happ : naming.apply (.seq [.scalar (.string "name"), .scalar (.int 5)]) =
        some (.seq [.scalar (.string "name"), .scalar (.string "")]) := rfl
    have scalars (s : Scalar) : naming.hitsAt (.scalar s) = 0 :=
      hitsAt_eq_zero_iff.2 ⟨tagged_naming.apply_eq_none rfl, hits_scalar s⟩
    rw [Value.rooted, hits_seq, List.map_singleton, List.sum_singleton, hitsAt, happ,
      after_eq_of_some happ, hits_seq]
    simp only [List.map_cons, List.map_nil, scalars]
    rfl
  refine ⟨g, hrun.trans ?_, hvalue.trans ?_, fun h => ?_⟩
  · exact congrArg (fun n => Result.mk (.ok ⟨n, []⟩) g) found
  · exact congrArg Except.ok value
  · cases h.blanked_eq

end Pass

end NestedRegex
