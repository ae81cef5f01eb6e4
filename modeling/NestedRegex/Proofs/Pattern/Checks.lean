import NestedRegex.Proofs.Pattern.Flaws

namespace NestedRegex.Pattern

/-- A check of a part at a path reports the first of some flaws, whose paths begin at the part, or
that there is none. -/
inductive Reports {α : Type} (F : Path → Flaw → Prop) (path : Path) : Except Error α → Prop
  | clean {a} (none : ∀ rest f, ¬F rest f) : Reports F path (.ok a)
  | flawed {rest f} (flawed : F rest f)
    (first : ∀ rest' f', F rest' f' → rest' = rest ∧ f' = f ∨ Before rest rest') :
    Reports F path (.error ⟨f, path ++ rest⟩)

/-- Those of the flaws that lie behind steps from a number on. -/
def From (step : Nat → Step) (index : Nat) (F : Path → Flaw → Prop) (path : Path) (f : Flaw) :
    Prop :=
  F path f ∧ ∃ i rest, path = step i :: rest ∧ index ≤ i

/-- What is flawed behind a step lies in the part that the step leads to. -/
def Within (p : Pattern) (F : Path → Flaw → Prop) : Prop :=
  ∀ s rest f, F (s :: rest) f → ∃ q, p.step? s = some q

/-- The parts that the steps from a number on lead to. -/
def Listed (p : Pattern) (step : Nat → Step) (index : Nat) (ps : List Pattern) : Prop :=
  ∀ k, p.step? (step (index + k)) = ps[k]?

/-- There are no other steps. -/
def OnlySteps (p : Pattern) (step : Nat → Step) : Prop :=
  ∀ s q, p.step? s = some q → ∃ i, s = step i

variable {p q : Pattern} {ps items : List Pattern} {step : Nat → Step} {index : Nat}

theorem within_of_part {F : Path → Flaw → Prop}
    (part : ∀ {path f}, F path f → ∃ q, p.part? path = some q) : p.Within F := by
  intro s rest f h
  obtain ⟨r, hr⟩ := part h
  obtain ⟨q, hs, -⟩ := Option.bind_eq_some_iff.1 hr
  exact ⟨q, hs⟩

theorem Listed.head (h : p.Listed step index (q :: ps)) : p.step? (step index) = some q :=
  h 0

theorem Listed.tail (h : p.Listed step index (q :: ps)) : p.Listed step (index + 1) ps := by
  intro k
  rw [Nat.add_assoc, Nat.add_comm 1 k]
  exact h (k + 1)

theorem listed_zero (h : ∀ k, p.step? (step k) = ps[k]?) : p.Listed step 0 ps := by
  intro k
  rw [Nat.zero_add]
  exact h k

theorem onlySteps_sequence (items : List Pattern) : (sequence items).OnlySteps .item := by
  intro s q hs
  cases s with
  | item i => exact ⟨i, rfl⟩
  | alternative _ | body => cases hs

theorem onlySteps_named (name : String) (items : List Pattern) :
    (named name items).OnlySteps .item := by
  intro s q hs
  cases s with
  | item i => exact ⟨i, rfl⟩
  | alternative _ | body => cases hs

theorem onlySteps_choice (alternatives : List Pattern) :
    (choice alternatives).OnlySteps .alternative := by
  intro s q hs
  cases s with
  | alternative i => exact ⟨i, rfl⟩
  | item _ | body => cases hs

namespace Reports

variable {α β : Type} {F G : Path → Flaw → Prop} {path : Path} {f : Flaw} {a : α}
  {x result : Except Error α} {next : α → Except Error β}

theorem congr (h : Reports G path result) (same : ∀ rest f, F rest f ↔ G rest f) :
    Reports F path result := by
  obtain rfl : F = G := funext fun rest => funext fun f => propext (same rest f)
  exact h

/-- The part itself is flawed. -/
theorem here (flawed : F [] f) (only : ∀ f', F [] f' → f' = f) :
    Reports F path (.error ⟨f, path⟩ : Except Error α) := by
  have h : Reports F path (.error ⟨f, path ++ []⟩ : Except Error α) := by
    refine .flawed flawed fun rest' f' h => ?_
    cases rest' with
    | nil => exact .inl ⟨rfl, only f' h⟩
    | cons s rest' => exact .inr before_nil_cons
  rwa [List.append_nil] at h

/-- A report from one step further. -/
theorem below {s : Step} (h : Reports G (path ++ [s]) result)
    (same : ∀ rest f, F rest f ↔ ∃ rest', rest = s :: rest' ∧ G rest' f) :
    Reports F path result := by
  cases h with
  | clean none =>
    refine .clean fun rest f hF => ?_
    obtain ⟨rest', -, hG⟩ := (same rest f).1 hF
    exact none rest' f hG
  | @flawed rest f flawed first =>
    rw [List.append_assoc, List.singleton_append]
    refine .flawed ((same _ _).2 ⟨rest, rfl, flawed⟩) fun rest' f' hF => ?_
    obtain ⟨rest', rfl, hG⟩ := (same rest' f').1 hF
    rcases first rest' f' hG with ⟨rfl, rfl⟩ | hbefore
    · exact .inl ⟨rfl, rfl⟩
    · exact .inr (before_cons_iff.2 (.inr ⟨rfl, hbefore⟩))

/-- The first of two checks that finds a flaw reports it, if its flaws come before the others. -/
theorem bind (first : Reports F path x) (second : ∀ a, x = .ok a → Reports G path (next a))
    (order : ∀ rest f rest' f', F rest f → G rest' f' → Before rest rest') :
    Reports (fun rest f => F rest f ∨ G rest f) path (x >>= next) := by
  cases first with
  | @clean a none =>
    refine congr (second a rfl) fun rest f => ?_
    exact or_iff_right (none rest f)
  | flawed flawed least =>
    refine .flawed (.inl flawed) fun rest' f' h => ?_
    rcases h with h | h
    · exact least rest' f' h
    · exact .inr (order _ _ _ _ flawed h)

theorem none_of_ok (h : Reports F path (.ok a : Except Error α)) (rest : Path) (f : Flaw) :
    ¬F rest f := by
  cases h with
  | clean none => exact none rest f

/-- No step is left. -/
theorem nil (within : p.Within F) (listed : p.Listed step index []) :
    Reports (From step index F) path (.ok a : Except Error α) := by
  refine .clean fun rest f h => ?_
  obtain ⟨hF, i, rest, rfl, hi⟩ := h
  obtain ⟨k, rfl⟩ := Nat.le.dest hi
  obtain ⟨q, hs⟩ := within _ _ _ hF
  rw [listed k] at hs
  cases hs

/-- What is behind one step is checked before what is behind the next ones. -/
theorem cons (order : ∀ {i j}, i < j → (step i).Before (step j))
    (first : Reports G (path ++ [step index]) x)
    (same : ∀ rest f, F (step index :: rest) f ↔ G rest f)
    (others : ∀ a, x = .ok a → Reports (From step (index + 1) F) path (next a)) :
    Reports (From step index F) path (x >>= next) := by
  let here := fun rest f => F rest f ∧ ∃ rest', rest = step index :: rest'
  have hfirst : Reports here path x := first.below fun rest f => by
    constructor
    · rintro ⟨hF, rest', rfl⟩
      exact ⟨rest', rfl, (same rest' f).1 hF⟩
    · rintro ⟨rest', rfl, hG⟩
      exact ⟨(same rest' f).2 hG, rest', rfl⟩
  refine (hfirst.bind others ?_).congr fun rest f => ?_
  · rintro _ f _ f' ⟨-, rest, rfl⟩ ⟨-, i, rest', rfl, hi⟩
    exact before_cons_iff.2 (.inl (order hi))
  · constructor
    · rintro ⟨hF, i, rest, rfl, hi⟩
      rcases Nat.eq_or_lt_of_le hi with rfl | hlt
      · exact .inl ⟨hF, rest, rfl⟩
      · exact .inr ⟨hF, i, rest, rfl, hlt⟩
    · rintro (⟨hF, rest, rfl⟩ | ⟨hF, i, rest, rfl, hi⟩)
      · exact ⟨hF, index, rest, rfl, Nat.le_refl index⟩
      · exact ⟨hF, i, rest, rfl, Nat.le_of_succ_le hi⟩

section Part

variable (within : p.Within F) (own : ∀ f, ¬F [] f)
include within own

/-- A part without a flaw of its own is checked behind its steps. -/
theorem whole (only : p.OnlySteps step) (h : Reports (From step 0 F) path result) :
    Reports F path result := by
  refine h.congr fun rest f => ⟨fun hF => ⟨hF, ?_⟩, fun hF => hF.1⟩
  cases rest with
  | nil => exact absurd hF (own f)
  | cons s rest =>
    obtain ⟨q, hs⟩ := within s rest f hF
    obtain ⟨i, rfl⟩ := only s q hs
    exact ⟨i, rest, rfl, Nat.zero_le i⟩

/-- A part without steps passes. -/
theorem leaf (none : ∀ s, p.step? s = none) : Reports F path (.ok a : Except Error α) := by
  refine .clean fun rest f hF => ?_
  cases rest with
  | nil => exact own f hF
  | cons s rest =>
    obtain ⟨q, hs⟩ := within s rest f hF
    rw [none] at hs
    cases hs

end Part

/-- A repetition is checked in its body. -/
theorem body (within : (oneOrMore p).Within F) (own : ∀ f, ¬F [] f)
    (same : ∀ rest f, F (.body :: rest) f ↔ G rest f) (h : Reports G (path ++ [.body]) result) :
    Reports F path result := by
  refine h.below fun rest f => ⟨fun hF => ?_, ?_⟩
  · cases rest with
    | nil => exact absurd hF (own f)
    | cons s rest =>
      obtain ⟨q, hs⟩ := within s rest f hF
      cases s with
      | body => exact ⟨rest, rfl, (same rest f).1 hF⟩
      | item _ | alternative _ => cases hs
  · rintro ⟨rest, rfl, hG⟩
    exact (same rest f).2 hG

end Reports

end NestedRegex.Pattern
