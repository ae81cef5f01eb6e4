import NestedRegex.Proofs.Pattern.Scope

namespace NestedRegex.Pattern

/-- The part that one step leads to. -/
def step? : Pattern → Step → Option Pattern
  | .sequence items, .item i => items[i]?
  | .named _ items, .item i => items[i]?
  | .choice alternatives, .alternative i => alternatives[i]?
  | .oneOrMore body, .body => some body
  | _, _ => none

/-- The part at the end of a path. -/
def part? (p : Pattern) : Path → Option Pattern
  | [] => some p
  | s :: path => (p.step? s).bind (part? · path)

/-- A path leads from the one pattern to the other. -/
def Has (p q : Pattern) : Prop :=
  ∃ path, p.part? path = some q

/-- The parts that one step leads to, in order. -/
def inside : Pattern → List Pattern
  | .sequence items | .named _ items | .choice items => items
  | .oneOrMore body => [body]
  | .literal _ | .any | .backRef _ | .check _ _ | .atEnd => []

/-- The pattern and all its parts are so. -/
def Everywhere (P : Pattern → Prop) (p : Pattern) : Prop :=
  ∀ q, p.Has q → P q

/-- All of these are so, with all their parts. -/
def EverywhereIn (P : Pattern → Prop) (ps : List Pattern) : Prop :=
  ∀ p ∈ ps, p.Everywhere P

variable {P : Pattern → Prop} {p q : Pattern} {ps : List Pattern} {name : String}

theorem mem_inside : q ∈ p.inside ↔ ∃ s, p.step? s = some q := by
  constructor
  · intro h
    cases p with
    | sequence items | named _ items =>
      obtain ⟨i, hi⟩ := List.getElem?_of_mem h
      exact ⟨.item i, hi⟩
    | choice alternatives =>
      obtain ⟨i, hi⟩ := List.getElem?_of_mem h
      exact ⟨.alternative i, hi⟩
    | oneOrMore body =>
      obtain rfl := List.mem_singleton.1 h
      exact ⟨.body, rfl⟩
    | literal _ | any | backRef _ | check _ _ | atEnd => cases h
  · rintro ⟨s, hs⟩
    cases p with
    | sequence items | named _ items | choice items =>
      cases s <;> first | cases hs | exact List.mem_of_getElem? hs
    | oneOrMore body =>
      cases s with
      | body => exact List.mem_singleton.2 (Option.some.inj hs).symm
      | item _ | alternative _ => cases hs
    | literal _ | any | backRef _ | check _ _ | atEnd => cases s <;> cases hs

theorem has_iff : p.Has q ↔ q = p ∨ ∃ r ∈ p.inside, r.Has q := by
  constructor
  · rintro ⟨path, h⟩
    cases path with
    | nil => exact .inl (Option.some.inj h).symm
    | cons s path =>
      obtain ⟨r, hr, hq⟩ := Option.bind_eq_some_iff.1 h
      exact .inr ⟨r, mem_inside.2 ⟨s, hr⟩, path, hq⟩
  · rintro (rfl | ⟨r, hr, path, hq⟩)
    · exact ⟨[], rfl⟩
    · obtain ⟨s, hs⟩ := mem_inside.1 hr
      refine ⟨s :: path, ?_⟩
      rw [part?, hs]
      exact hq

/-- What goes over from every part to the parts inside it goes over along every path. -/
theorem Has.transfer (h : p.Has q) (hp : P p) (inside : ∀ q r, P q → r ∈ q.inside → P r) : P q := by
  obtain ⟨path, h⟩ := h
  induction path generalizing p with
  | nil => exact Option.some.inj h ▸ hp
  | cons s path ih =>
    obtain ⟨r, hr, hq⟩ := Option.bind_eq_some_iff.1 h
    exact ih (inside p r hp (mem_inside.2 ⟨s, hr⟩)) hq

theorem everywhere_iff : p.Everywhere P ↔ P p ∧ EverywhereIn P p.inside := by
  simp only [Everywhere, EverywhereIn]
  constructor
  · intro h
    exact ⟨h p (has_iff.2 (.inl rfl)), fun r hr q hq => h q (has_iff.2 (.inr ⟨r, hr, hq⟩))⟩
  · rintro ⟨hp, hin⟩ q hq
    rcases has_iff.1 hq with rfl | ⟨r, hr, hq⟩
    · exact hp
    · exact hin r hr q hq

theorem everywhere_of_self (hp : P p) : p.Everywhere P ↔ EverywhereIn P p.inside := by
  rw [everywhere_iff]
  exact and_iff_right hp

@[simp] theorem everywhereIn_nil : EverywhereIn P [] := by
  simp [EverywhereIn]

@[simp] theorem everywhereIn_cons :
    EverywhereIn P (p :: ps) ↔ p.Everywhere P ∧ EverywhereIn P ps := by
  simp [EverywhereIn]

theorem exists_has_named (hp : ∀ inner, p ≠ .named name inner) :
    (∃ inner, p.Has (.named name inner)) ↔
      ∃ inner, ∃ r ∈ p.inside, r.Has (.named name inner) := by
  constructor
  · rintro ⟨inner, h⟩
    exact ⟨inner, (has_iff.1 h).resolve_left fun e => hp inner e.symm⟩
  · rintro ⟨inner, h⟩
    exact ⟨inner, has_iff.2 (.inr h)⟩

mutual

/-- A captured name is the name of a part. -/
theorem mem_captures : ∀ (p : Pattern), name ∈ captures p ↔ ∃ inner, p.Has (.named name inner)
  | .named other items => by
    rw [captures, List.mem_cons, mem_capturesOfItems items]
    by_cases e : name = other
    · subst e
      exact iff_of_true (.inl rfl) ⟨items, has_iff.2 (.inl rfl)⟩
    · rw [exists_has_named fun _ h => e (named.inj h).1.symm]
      exact or_iff_right e
  | .sequence items => by
    rw [captures, mem_capturesOfItems items, exists_has_named (p := .sequence items) nofun]
    rfl
  | .choice alternatives => by
    rw [captures, mem_capturesOfItems alternatives,
      exists_has_named (p := .choice alternatives) nofun]
    rfl
  | .oneOrMore body => by
    rw [captures, mem_captures body, exists_has_named (p := .oneOrMore body) nofun]
    simp only [inside, List.mem_singleton, exists_eq_left]
  | .literal _ | .any | .backRef _ | .check _ _ | .atEnd => by
    rw [captures, exists_has_named (fun _ => Pattern.noConfusion)]
    simp [inside]

theorem mem_capturesOfItems : ∀ (ps : List Pattern),
    name ∈ capturesOfItems ps ↔ ∃ inner, ∃ p ∈ ps, p.Has (.named name inner)
  | [] => by simp [capturesOfItems]
  | p :: ps => by
    rw [capturesOfItems, List.mem_append, mem_captures p, mem_capturesOfItems ps, ← exists_or]
    simp only [List.mem_cons, exists_eq_or_imp]

end

end NestedRegex.Pattern
