import NestedRegex.Proofs.Match.Edits
import NestedRegex.Proofs.Pattern.Ready

namespace NestedRegex.Match

variable {items : List Pattern} {p : Program} {f : Forest} {b : Captures}
  {bound : String → Option Span} {name : String} {whole : Span} {k : Handle} {id : Nat}

/-- The names of a match hold what they are bound to. -/
structure Binds (m : Match) (whole : Span) (bound : String → Option Span) : Prop where
  whole : m.span m.whole = .ok whole
  held : ∀ {name s}, name ≠ wholeName → bound name = some s →
    ∃ h, m.get? name = some h ∧ m.span h = .ok s
  free : ∀ {name}, name ≠ wholeName → bound name = none → m.get? name = none
  apart : ∀ {name other h k}, name ≠ other → m.get? name = some h → m.get? other = some k →
    h.index ≠ k.index

/-- Of names that are not bound a match has no handle. -/
theorem Binds.get?_eq_none {m : Match} {bindable : List String} (hm : Binds m whole bound)
    (only : ∀ name ∉ bindable, bound name = none) (h : name ∉ wholeName :: bindable) :
    m.get? name = none :=
  hm.free (fun e => h (e ▸ List.mem_cons_self)) (only _ fun hin => h (List.mem_cons_of_mem _ hin))

theorem get?_wholeName (m : Match) : m.get? wholeName = some m.whole :=
  if_pos rfl

/-- Names but that of the whole match are looked up as their slots are. -/
theorem get?_eq_map_slot (hname : name ≠ wholeName) :
    get? (ofCaptures id p f b) name =
      (p.slot? name).bind fun slot => (b.slot slot).map fun _ => ⟨id, slot.index + 1⟩ := by
  rw [get?, if_neg hname]
  cases hslot : p.slot? name with
  | none => simp [ofCaptures, hslot]
  | some slot =>
    simp only [ofCaptures, hslot, Captures.slot, Option.bind_eq_bind, Option.bind_some,
      List.getElem?_cons_succ, List.getElem?_map]
    rcases b.slots[slot.index]? with _ | _ | s <;> simp [placeOf, Place.isBound]

/-- Where a name of a match just found has its place. -/
theorem get?_ofCaptures (hname : name ≠ wholeName) :
    get? (ofCaptures id (Program.ofItems items) f ⟨whole, (Pattern.names items).map bound⟩) name =
      if name ∈ Pattern.names items ∧ (bound name).isSome then
        some ⟨id, (Pattern.names items).idxOf name + 1⟩
      else none := by
  rw [get?_eq_map_slot hname]
  by_cases hin : name ∈ Pattern.names items
  · rw [Program.slot?_ofItems_of_mem hin]
    cases hb : bound name <;> simp [Captures.slot, Pattern.slotOf, hin, hb]
  · rw [Program.slot?_ofItems_of_notMem hin, if_neg fun h => hin h.1]
    rfl

/-- The whole match has the place before those of the names. -/
theorem index_ofCaptures
    (h : get? (ofCaptures id (Program.ofItems items) f
      ⟨whole, (Pattern.names items).map bound⟩) name = some k) :
    name = wholeName ∧ k.index = 0 ∨
      name ∈ Pattern.names items ∧ k.index = (Pattern.names items).idxOf name + 1 := by
  by_cases hname : name = wholeName
  · rw [hname, get?_wholeName] at h
    exact .inl ⟨hname, Option.some.inj h ▸ rfl⟩
  · rw [get?_ofCaptures hname] at h
    obtain ⟨⟨hin, -⟩, he⟩ := Option.ite_none_right_eq_some.1 h
    exact .inr ⟨hin, Option.some.inj he ▸ rfl⟩

/-- The handle of a name that a match just found has bound. -/
theorem held_name_ofCaptures {s : Span} (hname : name ≠ wholeName)
    (hin : name ∈ Pattern.names items) (hs : bound name = some s) :
    let m := ofCaptures id (Program.ofItems items) f ⟨whole, (Pattern.names items).map bound⟩
    ∃ h, m.get? name = some h ∧ m.span h = .ok s := by
  have hsome : (bound name).isSome := Option.isSome_of_eq_some hs
  refine ⟨_, (get?_ofCaptures hname).trans (if_pos ⟨hin, hsome⟩), span_eq_ok_iff.2 ⟨rfl, ?_⟩⟩
  simp only [ofCaptures, List.getElem?_cons_succ, List.map_map]
  rw [List.getElem?_map, List.getElem?_idxOf hin, Option.map_some, Function.comp_apply, hs,
    placeOf]

/-- A match just found binds what its captures say. -/
theorem binds_ofCaptures (id : Nat) (f : Forest) (whole : Span)
    (hb : ∀ name, (bound name).isSome → name ∈ Pattern.names items) :
    Binds (ofCaptures id (Program.ofItems items) f ⟨whole, (Pattern.names items).map bound⟩) whole
      bound where
  whole := span_eq_ok_iff.2 ⟨rfl, rfl⟩
  held hname hs := held_name_ofCaptures hname (hb _ (Option.isSome_of_eq_some hs)) hs
  free {name} hname hn := by
    rw [get?_ofCaptures hname, if_neg]
    rw [hn]
    exact fun h => Bool.false_ne_true h.2
  apart {name other h k} hne hh hk e := by
    rcases index_ofCaptures hh with ⟨rfl, hi⟩ | ⟨hin, hi⟩ <;>
      rcases index_ofCaptures hk with ⟨rfl, hj⟩ | ⟨-, hj⟩
    · exact hne rfl
    · omega
    · omega
    · exact hne ((List.idxOf_inj hin).1 (by omega))

end NestedRegex.Match
