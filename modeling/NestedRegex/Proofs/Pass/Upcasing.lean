import NestedRegex.Proofs.Pass.Blocks
import NestedRegex.Proofs.Pass.Stable

namespace NestedRegex

namespace Value

variable {v : Value} {vs : List Value} {a : Scalar}

theorem declared_eq_scalar_iff : v.declared = .scalar a ↔ v = .scalar a := by
  cases v with
  | scalar s => exact Iff.rfl
  | seq vs =>
    obtain ⟨ws, hws⟩ := declared_seq vs
    simp [hws]

/-- A declaration in upper case is still one when it is taken for a list of declarations. -/
theorem declared_allDeclared (h : v.declared = v) : v.allDeclared.declared = v.allDeclared := by
  cases v with
  | scalar s => rfl
  | seq vs =>
    refine declared_eq_self_iff.2 fun t ws hws => ?_
    obtain ⟨b, us, rfl, hb, -⟩ := List.map_eq_cons_iff.1 (seq.inj hws)
    rw [declared_eq_scalar_iff] at hb
    exact declared_eq_self_iff.1 h t us (hb ▸ rfl)

end Value

namespace Rule

open Value

variable {r : Rule} {v w c : Value} {vs ds : List Value} {a : Scalar} {tags : List String}

/-- A rule that keeps tags makes no scalar of a sequence. -/
theorem Keeps.becomes_eq_scalar_iff (h : r.Keeps tags) :
    r.becomes v = .scalar a ↔ v = .scalar a := by
  rw [becomes, rewritten_eq_scalar_iff]
  cases happ : r.apply v with
  | none => rw [after_eq_of_none happ]
  | some w =>
    obtain ⟨tag, -, vs, ws, rfl, rfl⟩ := h happ
    simp [after_eq_of_some happ]

section Declarations

/-- A declaration in upper case stays one. -/
theorem declared_becomes (h : v.declared = v) :
    (naming.becomes v).declared = naming.becomes v := by
  cases v with
  | scalar s =>
    rw [tagged_naming.becomes_scalar]
    rfl
  | seq vs =>
    rw [tagged_naming.becomes_eq h, rewritten_seq]
    refine declared_eq_self_iff.2 fun t ws hws => ?_
    obtain ⟨b, us, rfl, hb, -⟩ := List.map_eq_cons_iff.1 (Value.seq.inj hws)
    rw [keeps_naming.becomes_eq_scalar_iff] at hb
    exact declared_eq_self_iff.1 h t us (hb ▸ rfl)

/-- Where all items are declarations in upper case, a renaming leaves none but such. -/
theorem Renames.declared_items (h : Renames (.seq ds) w) (hds : ∀ d ∈ ds, d.declared = d) :
    ∃ es, w = .seq es ∧ ∀ e ∈ es, e.declared = e := by
  cases h with
  | name x hv hw =>
    refine ⟨_, hw, ?_⟩
    simp only [List.forall_mem_cons]
    exact ⟨rfl, rfl, nofun⟩
  | function tag x y z htag hv hw =>
    obtain rfl := Value.seq.inj hv
    refine ⟨_, hw, ?_⟩
    simp only [List.forall_mem_cons]
    exact ⟨rfl, declared_functionName x, declared_parameters y, hds z (by simp), nofun⟩
  | property x y hv hw =>
    obtain rfl := Value.seq.inj hv
    refine ⟨_, hw, ?_⟩
    simp only [List.forall_mem_cons]
    exact ⟨rfl, hds x (by simp), rfl, nofun⟩
  | declarations tag x htag hv hw =>
    obtain rfl := Value.seq.inj hv
    refine ⟨_, hw, ?_⟩
    simp only [List.forall_mem_cons]
    exact ⟨rfl, declared_allDeclared (hds x (by simp)), nofun⟩

/-- A list of declarations in upper case stays one. -/
theorem allDeclared_becomes_naming (h : v.allDeclared = v) :
    (naming.becomes v).allDeclared = naming.becomes v := by
  cases v with
  | scalar s =>
    rw [tagged_naming.becomes_scalar]
    rfl
  | seq ds =>
    have hds := allDeclared_eq_self_iff.1 h
    have items : ∃ es, naming.after (.seq ds) = .seq es ∧ ∀ e ∈ es, e.declared = e := by
      cases happ : naming.apply (.seq ds) with
      | none => exact ⟨ds, after_eq_of_none happ, hds⟩
      | some w =>
        rw [after_eq_of_some happ]
        exact (naming_eq_some_iff.1 happ).declared_items hds
    obtain ⟨es, hes, declared⟩ := items
    rw [becomes, hes, rewritten_seq]
    refine allDeclared_eq_self_iff.2 fun e he => ?_
    obtain ⟨d, hd, rfl⟩ := List.mem_map.1 he
    exact declared_becomes (declared d hd)

end Declarations

section Becomes

variable {tag : String} (x y z : Value)

theorem naming_becomes_name : naming.becomes (.seq [.scalar (.string "name"), x]) =
    .seq [.scalar (.string "name"), x.upcased] := by
  rw [becomes, after_eq_of_some (naming_eq_some_iff.2 (.name x rfl rfl)), rewritten_seq]
  simp only [List.map_cons, List.map_nil, tagged_naming.becomes_scalar,
    tagged_naming.becomes_upcased]

theorem naming_becomes_function (htag : tag ∈ ["function", "defun"]) :
    naming.becomes (.seq [.scalar (.string tag), x, y, z]) =
      .seq [.scalar (.string tag), x.functionName, y.parameters, naming.becomes z] := by
  rw [becomes, after_eq_of_some (naming_eq_some_iff.2 (.function tag x y z htag rfl rfl)),
    rewritten_seq]
  simp only [List.map_cons, List.map_nil, tagged_naming.becomes_scalar,
    tagged_naming.becomes_functionName, tagged_naming.becomes_parameters]

theorem naming_becomes_property : naming.becomes (.seq [.scalar (.string "dot"), x, y]) =
    .seq [.scalar (.string "dot"), naming.becomes x, y.upcased] := by
  rw [becomes, after_eq_of_some (naming_eq_some_iff.2 (.property x y rfl rfl)), rewritten_seq]
  simp only [List.map_cons, List.map_nil, tagged_naming.becomes_scalar,
    tagged_naming.becomes_upcased]

theorem naming_becomes_declarations (htag : tag ∈ ["var", "const", "object"]) :
    naming.becomes (.seq [.scalar (.string tag), x]) =
      .seq [.scalar (.string tag), naming.becomes x.allDeclared] := by
  rw [becomes, after_eq_of_some (naming_eq_some_iff.2 (.declarations tag x htag rfl rfl)),
    rewritten_seq]
  simp only [List.map_cons, List.map_nil, tagged_naming.becomes_scalar]

end Becomes

/-- What was renamed is renamed again, to itself. -/
theorem Renames.becomes_self (h : Renames v w) :
    Renames (naming.becomes v) (naming.becomes v) := by
  cases h with
  | name x hv hw =>
    rw [hv, naming_becomes_name]
    exact .name _ rfl (by rw [upcased_upcased])
  | function tag x y z htag hv hw =>
    rw [hv, naming_becomes_function x y z htag]
    exact .function tag _ _ _ htag rfl (by rw [functionName_functionName, parameters_parameters])
  | property x y hv hw =>
    rw [hv, naming_becomes_property]
    exact .property _ _ rfl (by rw [upcased_upcased])
  | declarations tag x htag hv hw =>
    rw [hv, naming_becomes_declarations x htag]
    exact .declarations tag _ htag rfl
      (by rw [allDeclared_becomes_naming (allDeclared_allDeclared x)])

/-- A sequence that begins with a tag began with it before what is inside was rewritten. -/
theorem Keeps.rewritten_eq_cons (h : r.Keeps tags) {ws : List Value}
    (hw : r.rewritten v = .seq (.scalar a :: ws)) :
    ∃ vs, v = .seq (.scalar a :: vs) ∧ vs.length = ws.length := by
  obtain ⟨us, rfl, hus⟩ := rewritten_eq_seq_iff.1 hw
  obtain ⟨b, vs, rfl, hb, rfl⟩ := List.map_eq_cons_iff.1 hus
  rw [h.becomes_eq_scalar_iff] at hb
  exact ⟨vs, hb ▸ rfl, (List.length_map _).symm⟩

/-- What is renamed once all inside is rewritten was to be renamed before. -/
theorem Renames.of_rewritten (h : Renames (naming.rewritten v) w) : ∃ u, Renames v u := by
  cases h with
  | name x hv hw =>
    obtain ⟨vs, rfl, hlen⟩ := keeps_naming.rewritten_eq_cons hv
    obtain ⟨y, rfl⟩ := List.length_eq_one_iff.1 hlen
    exact ⟨_, .name y rfl rfl⟩
  | function tag x y z htag hv hw =>
    obtain ⟨vs, rfl, hlen⟩ := keeps_naming.rewritten_eq_cons hv
    obtain ⟨x', y', z', rfl⟩ := List.length_eq_three.1 hlen
    exact ⟨_, .function tag x' y' z' htag rfl rfl⟩
  | property x y hv hw =>
    obtain ⟨vs, rfl, hlen⟩ := keeps_naming.rewritten_eq_cons hv
    obtain ⟨x', y', rfl⟩ := List.length_eq_two.1 hlen
    exact ⟨_, .property x' y' rfl rfl⟩
  | declarations tag x htag hv hw =>
    obtain ⟨vs, rfl, hlen⟩ := keeps_naming.rewritten_eq_cons hv
    obtain ⟨x', rfl⟩ := List.length_eq_one_iff.1 hlen
    exact ⟨_, .declarations tag x' htag rfl rfl⟩

/-- An item that became what it is by the rules for names is met by them again just if they rewrote
it, and stays as it is. -/
theorem naming_becomes (v : Value) :
    naming.after (naming.becomes v) = naming.becomes v ∧
      (naming.apply (naming.becomes v)).isSome = (naming.apply v).isSome := by
  cases happ : naming.apply v with
  | some w =>
    have hself := naming_eq_some_iff.2 (naming_eq_some_iff.1 happ).becomes_self
    rw [hself]
    exact ⟨after_eq_of_some hself, rfl⟩
  | none =>
    have hnone : naming.apply (naming.rewritten v) = none := by
      rw [Option.eq_none_iff_forall_ne_some]
      intro w hw
      obtain ⟨u, hu⟩ := (naming_eq_some_iff.1 hw).of_rewritten
      rw [naming_eq_some_iff.2 hu] at happ
      cases happ
    rw [becomes, after_eq_of_none happ, hnone]
    exact ⟨after_eq_of_none hnone, rfl⟩

/-- Another rewriting by the rules for names changes nothing. -/
theorem naming_rewritten (v : Value) :
    naming.rewritten (naming.rewritten v) = naming.rewritten v :=
  rewritten_of_settled naming naming v fun c _ => (naming_becomes c).1

/-- It finds what the first one found. -/
theorem hits_naming_rewritten (v : Value) :
    naming.hits (naming.rewritten v) = naming.hits v := by
  induction v using naming.inside_induction with
  | scalar s => rw [rewritten_scalar]
  | seq vs ih =>
    rw [rewritten_seq, hits_seq, hits_seq, List.map_map]
    refine congrArg List.sum (List.map_congr_left fun c hc => ?_)
    rw [Function.comp_apply, hitsAt, hitsAt, (naming_becomes c).1, (naming_becomes c).2]
    exact congrArg _ (ih c hc)

end Rule

/-- The pass for names is idempotent : another run, over the value that a run comes to, comes to
that value again and finds as many matches. -/
theorem Pass.upcaseNames_idempotent (v : Value) : ∃ n w g g',
    Pass.upcaseNames.run (.ofValue v) = ⟨.ok ⟨n, []⟩, g⟩ ∧ g.toValue = .ok w ∧
      Pass.upcaseNames.run (.ofValue w) = ⟨.ok ⟨n, []⟩, g'⟩ ∧ g'.toValue = .ok w := by
  have editing : Pass.upcaseNames ≠ .repeats := by decide
  obtain ⟨g, hrun, hvalue⟩ := run_ofValue editing v
  obtain ⟨g', hrun', hvalue'⟩ := run_ofValue editing (Rule.naming.rewritten v.rooted)
  rw [rooted_rewritten] at hrun' hvalue'
  refine ⟨_, _, g, g', hrun, hvalue, hrun'.trans ?_, hvalue'.trans ?_⟩
  · exact congrArg (fun n => Result.mk (.ok ⟨n, []⟩) g') (Rule.hits_naming_rewritten v.rooted)
  · exact congrArg Except.ok (Rule.naming_rewritten v.rooted)

end NestedRegex
