import NestedRegex.Proofs.Machine.Whole
import NestedRegex.Proofs.Match.Bound

namespace NestedRegex.Match

variable {items : List Pattern} {p : Program} {f : Forest} {seq : SeqName} {start id : Nat}
  {machine machine' : Machine} {b : Captures} {name : String} {s : Span}

theorem isBound_placeOf (bound : Option Span) : (placeOf bound).isBound = bound.isSome := by
  cases bound <;> rfl

theorem isSome_get?_iff (hname : name ≠ wholeName) :
    (get? (ofCaptures id p f b) name).isSome ↔ (b.get? p name).isSome := by
  rw [get?_eq_map_slot hname, Captures.get?]
  cases p.slot? name <;> simp

/-- The handle of a name holds what the captures say. -/
theorem span_of_get? {h : Handle} (hname : name ≠ wholeName)
    (hh : get? (ofCaptures id p f b) name = some h) :
    ∃ s, span (ofCaptures id p f b) h = .ok s ∧ b.get? p name = some s := by
  rw [get?_eq_map_slot hname] at hh
  obtain ⟨slot, hslot, hh⟩ := Option.bind_eq_some_iff.1 hh
  obtain ⟨s, hs, rfl⟩ := Option.map_eq_some_iff.1 hh
  refine ⟨s, span_eq_ok_iff.2 ⟨rfl, ?_⟩, ?_⟩
  · have bound := Option.join_eq_some_iff.1 hs
    simp only [ofCaptures, List.getElem?_cons_succ, List.getElem?_map, bound, Option.map_some,
      placeOf]
  · rw [Captures.get?, hslot, Option.bind_some, hs]

/-- The names of a match just found are the bound ones, in slot order. -/
theorem names_ofCaptures (id : Nat) (f : Forest) (inStep : p.symbols.InStep)
    (slots : b.slots.length = p.captureCount) :
    names (ofCaptures id p f b) = p.names.filter fun name => (b.get? p name).isSome := by
  have same : p.names.length = (b.slots.map placeOf).length := by
    rw [List.length_map]
    exact slots.symm
  refine List.filterMap_zip_eq_filter same fun i name place hname hplace => ?_
  have hslot : p.slot? name = some ⟨i⟩ := (inStep.slot?_eq_some_iff name ⟨i⟩).2 hname
  obtain ⟨bound, hbound, rfl⟩ := Option.map_eq_some_iff.1 (List.getElem?_map.symm.trans hplace)
  rw [isBound_placeOf, Captures.get?, hslot, Option.bind_some, Captures.slot, hbound]
  rfl

/-- A match just found answers for every name as its captures do: there is a handle just if the name
is bound, and it holds that span. Its names are the names of the pattern that are bound, each once
and in slot order. Only the name of the whole match is answered for before any other. -/
theorem lookups_agree (hp : Program.compileAll items = .ok p)
    (hrun : machine.run f p seq start = .ok (some b, machine')) (id : Nat) :
    let m := ofCaptures id p f b
    (∀ name, name ≠ wholeName → ((m.get? name).isSome ↔ (b.get? p name).isSome) ∧
      ∀ h, m.get? name = some h → ∃ s, m.span h = .ok s ∧ b.get? p name = some s) ∧
    m.names = (Pattern.names items).filter (fun name => (b.get? p name).isSome) ∧
    m.names.Nodup ∧
    (∀ name slot, p.slot? name = some slot ↔ (Pattern.names items)[slot.index]? = some name) ∧
    m.get? wholeName = some m.whole ∧ m.span m.whole = .ok b.whole := by
  obtain ⟨rfl, -, -⟩ := Program.compileAll_ok hp
  intro m
  have inStep := Program.inStep_ofItems items
  have hnames := names_ofCaptures id f inStep (Machine.slots_of_run hrun)
  refine ⟨fun name hname => ⟨isSome_get?_iff hname, fun h => span_of_get? hname⟩, hnames, ?_,
    inStep.slot?_eq_some_iff, get?_wholeName m, span_eq_ok_iff.2 ⟨rfl, rfl⟩⟩
  rw [hnames]
  exact inStep.distinct.filter _

/-- Two alternatives share a name, and another name of the failed one stays unbound. -/
theorem lookups_agree_alternatives :
    let items : List Pattern :=
      [.choice [.named "u" [.named "x" [.literal (.int 1)]], .named "y" [.any, .named "x" [.any]]],
        .named "z" [.any]]
    let p := Program.ofItems items
    let f := Forest.ofValue (.seq [.scalar (.int 2), .scalar (.int 3), .scalar (.int 4)])
    let b : Captures :=
      ⟨⟨f.root, 0, 3⟩, [none, some ⟨f.root, 1, 1⟩, some ⟨f.root, 0, 2⟩, some ⟨f.root, 2, 1⟩]⟩
    let m := ofCaptures 0 p f b
    (∃ machine, Machine.new.run f p f.root 0 = .ok (some b, machine)) ∧
      m.names = ["x", "y", "z"] ∧ (m.get? "u").isSome = false ∧
      ∃ s, m.span ⟨0, 3⟩ = .ok s ∧ b.get? p "y" = some s := by
  intro items p f b m
  have hcompiled : Program.compileAll items = .ok p := by rfl
  obtain ⟨machine, hrun⟩ : ∃ machine, Machine.new.run f p f.root 0 = .ok (some b, machine) :=
    ⟨_, by rfl⟩
  obtain ⟨agree, names, -⟩ := lookups_agree hcompiled hrun 0
  have unbound := (agree "u" (by decide)).1
  refine ⟨⟨machine, hrun⟩, names.trans (by decide), ?_, ?_⟩
  · exact Bool.eq_false_iff.2 fun h => absurd (unbound.1 h) (by decide)
  · exact (agree "y" (by decide)).2 ⟨0, 3⟩ (by decide)

/-- A capture that goes by the name of the whole match is not to be had by that name. -/
theorem lookup_of_wholeName_differs :
    let items : List Pattern := [.named wholeName [.any], .any]
    let p := Program.ofItems items
    let f := Forest.ofValue (.seq [.scalar (.int 1), .scalar (.int 2)])
    let b : Captures := ⟨⟨f.root, 0, 2⟩, [some ⟨f.root, 0, 1⟩]⟩
    let m := ofCaptures 0 p f b
    Program.compileAll items = .ok p ∧ p.match? f f.root 0 = .ok (some b) ∧
      wholeName ∈ Pattern.names items ∧ b.get? p wholeName = some ⟨f.root, 0, 1⟩ ∧
      m.get? wholeName = some m.whole ∧ m.span m.whole = .ok ⟨f.root, 0, 2⟩ := by
  intro items p f b m
  exact ⟨by rfl, by rfl, by decide, by decide, by decide, by decide⟩

end NestedRegex.Match
