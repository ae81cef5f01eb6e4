import NestedRegex.Proofs.Pattern.Progress

namespace NestedRegex

namespace Machine

variable {f : Forest} {p : Program} {m m' : Machine}

/-- The machine without its past. -/
def bare (m : Machine) : Machine :=
  { m with trail := [], steps := 0 }

/-- The machine with a past. -/
def since (m past : Machine) : Machine :=
  { m with trail := m.trail ++ past.trail, steps := past.steps }

/-- What an instruction does does not depend on the past. -/
theorem obey_eq_since (m : Machine) (i : Instr) :
    m.obey f p i = (m.bare.obey f p i).map (Option.map (since · m)) := by
  cases i with
  | scalar s =>
    simp only [obey, bare]
    cases f.child? m.seq m.position with
    | error e => rfl
    | ok node =>
      by_cases h : node = some (.scalar s)
      · simp [h, bind, Except.bind, pure, Except.pure, Except.map, stepOver, since]
      · simp [h, bind, Except.bind, pure, Except.pure, Except.map]
  | any =>
    simp only [obey, bare]
    cases f.length m.seq with
    | error e => rfl
    | ok length =>
      by_cases h : m.position < length
      · simp [h, bind, Except.bind, pure, Except.pure, Except.map, stepOver, since]
      · simp [h, bind, Except.bind, pure, Except.pure, Except.map]
  | enter =>
    simp only [obey, bare]
    cases f.child? m.seq m.position with
    | error e => rfl
    | ok node =>
      cases node with
      | none => rfl
      | some node => cases node <;> rfl
  | exit =>
    simp only [obey, bare]
    cases f.length m.seq with
    | error e => rfl
    | ok length =>
      cases m.outers with
      | nil => rfl
      | cons outer outers =>
        by_cases h : m.position = length
        · simp [h, bind, Except.bind, pure, Except.pure, Except.map, since]
        · simp [h, bind, Except.bind, pure, Except.pure, Except.map]
  | atEnd =>
    simp only [obey, bare]
    cases f.length m.seq with
    | error e => rfl
    | ok length =>
      by_cases h : m.position = length
      · simp [h, bind, Except.bind, pure, Except.pure, Except.map, stepOver, since]
      · simp [h, bind, Except.bind, pure, Except.pure, Except.map]
  | openSlot slot =>
    simp only [obey, bare]
    cases m.starts[slot.index]? <;> rfl
  | closeSlot slot =>
    simp only [obey, bare]
    cases m.bindings[slot.index]? with
    | none => rfl
    | some previous => cases m.starts[slot.index]? <;> rfl
  | backRef slot =>
    simp only [obey, bare]
    cases m.bindings[slot.index]? with
    | none => rfl
    | some bound =>
      have same : backRefLength f { m with trail := [], steps := 0 } bound =
          backRefLength f m bound := rfl
      simp only [same]
      cases backRefLength f m bound with
      | error e => rfl
      | ok length => cases length <;> rfl
  | check index =>
    simp only [obey, bare]
    cases f.child? m.seq m.position with
    | error e => rfl
    | ok node =>
      cases node with
      | none => rfl
      | some n =>
        simp only [orFault_ok, bind, Except.bind]
        cases ask f p index n with
        | error e => rfl
        | ok passed => cases passed <;> rfl
  | split first second => rfl
  | jump target => rfl
  | accept => rfl

/-- Going back asks nothing of where the machine stands. -/
theorem unwind_stand (m : Machine) (address : Nat) (seq : SeqName) (position : Nat)
    (past trail : List TrailMark) :
    { m with address, seq, position, trail := past }.unwind trail = m.unwind trail := by
  induction trail generalizing m with
  | nil => rfl
  | cons mark trail ih =>
    cases mark with
    | choice address seq position => rfl
    | bound slot previous => exact ih { m with bindings := m.bindings.set slot.index previous }
    | started slot previous => exact ih { m with starts := m.starts.set slot.index previous }
    | entered => exact ih { m with outers := m.outers.tail }
    | left outer => exact ih { m with outers := outer :: m.outers }

/-- Going back keeps the count of steps. -/
theorem unwind_steps (m : Machine) (steps : Nat) (trail : List TrailMark) :
    { m with steps }.unwind trail = (m.unwind trail).map fun m => { m with steps } := by
  induction trail generalizing m with
  | nil => rfl
  | cons mark trail ih =>
    cases mark with
    | choice address seq position => rfl
    | bound slot previous => exact ih { m with bindings := m.bindings.set slot.index previous }
    | started slot previous => exact ih { m with starts := m.starts.set slot.index previous }
    | entered => exact ih { m with outers := m.outers.tail }
    | left outer => exact ih { m with outers := outer :: m.outers }

theorem backtrack_stepOver (m : Machine) (count : Nat) :
    (m.stepOver count).backtrack = m.backtrack :=
  unwind_stand m _ _ _ _ _

theorem set_set_self {xs : List α} {i : Nat} {x y : α} (h : xs[i]? = some y) :
    (xs.set i x).set i y = xs := by
  obtain ⟨hi, rfl⟩ := List.getElem?_eq_some_iff.1 h
  rw [List.set_set, List.set_getElem_self]

/-- What an instruction makes of a machine that goes on. -/
inductive Obeyed (f : Forest) (p : Program) (m : Machine) : Instr → Machine → Prop
  | scalar {s} (here : (f.nodesOf m.seq)[m.position]? = some (.scalar s)) :
    Obeyed f p m (.scalar s) (m.stepOver 1)
  | any (lt : m.position < (f.nodesOf m.seq).length) : Obeyed f p m .any (m.stepOver 1)
  | enter {inner} (here : (f.nodesOf m.seq)[m.position]? = some (.seq inner)) :
    Obeyed f p m .enter { m with
      address := m.address + 1, seq := inner, position := 0
      outers := ⟨m.seq, m.position + 1⟩ :: m.outers, trail := .entered :: m.trail }
  | exit {outer outers} (here : m.position = (f.nodesOf m.seq).length)
    (inside : m.outers = outer :: outers) :
    Obeyed f p m .exit { m with
      address := m.address + 1, seq := outer.seq, position := outer.resume
      outers, trail := .left outer :: m.trail }
  | atEnd (here : m.position = (f.nodesOf m.seq).length) : Obeyed f p m .atEnd (m.stepOver 0)
  | openSlot {slot previous} (started : m.starts[slot.index]? = some previous) :
    Obeyed f p m (.openSlot slot) { m with
      address := m.address + 1, starts := m.starts.set slot.index m.position
      trail := .started slot previous :: m.trail }
  | closeSlot {slot previous start} (bound : m.bindings[slot.index]? = some previous)
    (started : m.starts[slot.index]? = some start) :
    Obeyed f p m (.closeSlot slot) { m with
      address := m.address + 1
      bindings := m.bindings.set slot.index (some ⟨m.seq, start, m.position - start⟩)
      trail := .bound slot previous :: m.trail }
  | backRef {slot span length} (bound : m.bindings[slot.index]? = some span)
    (same : m.backRefLength f span = .ok (some length)) :
    Obeyed f p m (.backRef slot) (m.stepOver length)
  | check {index n} (here : (f.nodesOf m.seq)[m.position]? = some n)
    (passed : ask f p index n = .ok true) : Obeyed f p m (.check index) (m.stepOver 1)
  | split {first second} : Obeyed f p m (.split first second) { m with
      address := first, trail := .choice second m.seq m.position :: m.trail }
  | jump {target} : Obeyed f p m (.jump target) { m with address := target }

theorem of_orFault {x : Except Fault α} {a : α}
    (h : (orFault x : Except (Failure TestError) α) = .ok a) : x = .ok a := by
  cases x with
  | error e => cases h
  | ok b => exact congrArg _ (Except.ok.inj h)

theorem of_ok_ite {c : Prop} [Decidable c] {x : Machine}
    (h : (pure (if c then some x else none) : Except (Failure TestError) (Option Machine)) =
      .ok (some m')) : c ∧ m' = x := by
  by_cases hc : c
  · rw [if_pos hc] at h
    exact ⟨hc, (Option.some.inj (Except.ok.inj h)).symm⟩
  · rw [if_neg hc] at h
    cases h

theorem obeyed_of_obey {i : Instr} (h : m.obey f p i = .ok (some m')) : Obeyed f p m i m' := by
  cases i with
  | scalar s =>
    obtain ⟨node, hn, h⟩ := Except.bind_ok h
    obtain ⟨rfl, rfl⟩ := of_ok_ite h
    exact .scalar (Forest.of_child?_ok (of_orFault hn)).2
  | any =>
    obtain ⟨length, hl, h⟩ := Except.bind_ok h
    obtain ⟨hlt, rfl⟩ := of_ok_ite h
    obtain ⟨-, rfl⟩ := Forest.of_length_ok (of_orFault hl)
    exact .any hlt
  | enter =>
    obtain ⟨node, hn, h⟩ := Except.bind_ok h
    match node, h with
    | some (.seq inner), h =>
      obtain rfl := Option.some.inj (Except.ok.inj h)
      exact .enter (Forest.of_child?_ok (of_orFault hn)).2
  | exit =>
    obtain ⟨length, hl, h⟩ := Except.bind_ok h
    obtain ⟨-, rfl⟩ := Forest.of_length_ok (of_orFault hl)
    cases ho : m.outers with
    | nil =>
      rw [ho] at h
      cases h
    | cons outer outers =>
      simp only [ho] at h
      by_cases hp : m.position = (f.nodesOf m.seq).length
      · rw [if_pos hp] at h
        obtain rfl := Option.some.inj (Except.ok.inj h)
        exact .exit hp ho
      · rw [if_neg hp] at h
        cases h
  | atEnd =>
    obtain ⟨length, hl, h⟩ := Except.bind_ok h
    obtain ⟨hp, rfl⟩ := of_ok_ite h
    obtain ⟨-, rfl⟩ := Forest.of_length_ok (of_orFault hl)
    exact .atEnd hp
  | openSlot slot =>
    rw [obey] at h
    cases hq : m.starts[slot.index]? with
    | none =>
      rw [hq] at h
      cases h
    | some previous =>
      rw [hq] at h
      obtain rfl := Option.some.inj (Except.ok.inj h)
      exact .openSlot hq
  | closeSlot slot =>
    rw [obey] at h
    cases hb : m.bindings[slot.index]? with
    | none =>
      rw [hb] at h
      cases h
    | some previous =>
      cases hq : m.starts[slot.index]? with
      | none =>
        rw [hb, hq] at h
        cases h
      | some start =>
        rw [hb, hq] at h
        obtain rfl := Option.some.inj (Except.ok.inj h)
        exact .closeSlot hb hq
  | backRef slot =>
    rw [obey] at h
    cases hb : m.bindings[slot.index]? with
    | none =>
      rw [hb] at h
      cases h
    | some bound =>
      simp only [hb] at h
      obtain ⟨length, hl, h⟩ := Except.bind_ok h
      obtain ⟨count, rfl, rfl⟩ := Option.map_eq_some_iff.1 (Except.ok.inj h)
      exact .backRef hb (of_orFault hl)
  | check index =>
    obtain ⟨node, hn, h⟩ := Except.bind_ok h
    cases node with
    | none => cases h
    | some n =>
      obtain ⟨passed, ha, h⟩ := Except.bind_ok h
      obtain ⟨rfl, rfl⟩ := of_ok_ite h
      exact .check (Forest.of_child?_ok (of_orFault hn)).2 ha
  | split first second =>
    obtain rfl := Option.some.inj (Except.ok.inj h)
    exact .split
  | jump target =>
    obtain rfl := Option.some.inj (Except.ok.inj h)
    exact .jump
  | accept => cases h

/-- After an instruction that makes no choice, going back leads where it led before. -/
theorem backtrack_obey {i : Instr} (h : m.obey f p i = .ok (some m'))
    (hi : ∀ first second, i ≠ .split first second) : m'.backtrack = m.backtrack := by
  cases obeyed_of_obey h with
  | scalar _ | any _ | atEnd _ | backRef _ _ | check _ _ => exact backtrack_stepOver m _
  | enter here => exact unwind_stand m _ _ _ _ _
  | exit here inside =>
    simp only [backtrack, unwind, ← inside]
    exact unwind_stand m _ _ _ _ _
  | openSlot started =>
    simp only [backtrack, unwind, set_set_self started]
    exact unwind_stand m _ _ _ _ _
  | closeSlot bound started =>
    simp only [backtrack, unwind, set_set_self bound]
    exact unwind_stand m _ _ _ _ _
  | split => exact absurd rfl (hi _ _)
  | jump => exact unwind_stand m _ _ _ _ _

/-- What a step does that does not end the run: it obeys an instruction, or goes back where that
cannot be done. -/
inductive Stepped (f : Forest) (p : Program) (m : Machine) : Machine → Prop
  | onward {i m'} (code : p.code[m.address]? = some i)
    (obeyed : { m with steps := m.steps + 1 }.obey f p i = .ok (some m')) : Stepped f p m m'
  | back {i m'} (code : p.code[m.address]? = some i)
    (stuck : { m with steps := m.steps + 1 }.obey f p i = .ok none)
    (went : { m with steps := m.steps + 1 }.backtrack = some m') : Stepped f p m m'

theorem stepped_of_step (h : step f p m = .more m') : Stepped f p m m' := by
  unfold step at h
  dsimp only at h
  split at h
  · cases h
  · cases h
  · next code =>
    split at h
    · cases h
    · next obeyed =>
      obtain rfl := Progress.more.inj h
      exact .onward code obeyed
    · next stuck =>
      split at h
      · next went =>
        obtain rfl := Progress.more.inj h
        exact .back code stuck went
      · cases h

section Here

variable (hc : f.contains m.seq = true)
include hc

theorem obey_scalar (s : Scalar) : m.obey f p (.scalar s) =
    .ok (if (f.nodesOf m.seq)[m.position]? = some (.scalar s) then some (m.stepOver 1)
      else none) := by
  rw [obey, Forest.child?_of_contains hc]
  rfl

theorem obey_any : m.obey f p .any =
    .ok (if m.position < (f.nodesOf m.seq).length then some (m.stepOver 1) else none) := by
  rw [obey, Forest.length_of_contains hc]
  rfl

theorem obey_atEnd : m.obey f p .atEnd =
    .ok (if m.position = (f.nodesOf m.seq).length then some (m.stepOver 0) else none) := by
  rw [obey, Forest.length_of_contains hc]
  rfl

theorem obey_enter {inner : SeqName}
    (hi : (f.nodesOf m.seq)[m.position]? = some (.seq inner)) : m.obey f p .enter =
    .ok (some { m with
      address := m.address + 1, seq := inner, position := 0
      outers := ⟨m.seq, m.position + 1⟩ :: m.outers, trail := .entered :: m.trail }) := by
  rw [obey, Forest.child?_of_contains hc, hi]
  rfl

theorem obey_enter_none
    (hi : ∀ inner, (f.nodesOf m.seq)[m.position]? ≠ some (.seq inner)) :
    m.obey f p .enter = .ok none := by
  rw [obey, Forest.child?_of_contains hc]
  match hn : (f.nodesOf m.seq)[m.position]? with
  | some (.seq inner) => exact absurd hn (hi inner)
  | some (.scalar s) => rfl
  | none => rfl

theorem obey_exit {outer : Enclosing} {outers : List Enclosing} (ho : m.outers = outer :: outers) :
    m.obey f p .exit =
      .ok (if m.position = (f.nodesOf m.seq).length then some { m with
        address := m.address + 1, seq := outer.seq, position := outer.resume
        outers, trail := .left outer :: m.trail } else none) := by
  rw [obey, Forest.length_of_contains hc]
  simp only [ho, orFault_ok, bind, Except.bind, pure, Except.pure]
  split <;> rfl

theorem obey_check_none {index : Nat} (hi : (f.nodesOf m.seq)[m.position]? = none) :
    m.obey f p (.check index) = .ok none := by
  rw [obey, Forest.child?_of_contains hc, hi]
  rfl

theorem obey_check {index : Nat} {n : Node} {name : String} {test : Test}
    (hi : (f.nodesOf m.seq)[m.position]? = some n) (ht : p.checks[index]? = some (name, test)) :
    m.obey f p (.check index) =
      match test f n with
      | .ok passed => .ok (if passed then some (m.stepOver 1) else none)
      | .error e => .error (e.map fun message => ⟨name, message⟩) := by
  rw [obey, Forest.child?_of_contains hc, hi]
  simp only [orFault_ok, bind, Except.bind, ask, ht]
  cases test f n <;> rfl

theorem backRefLength_ok (hf : f.Closed) (ha : f.Acyclic) (s : Span) :
    backRefLength f m (some s) =
      .ok (if f.sameContent s ⟨m.seq, m.position, s.length⟩ then some s.length else none) := by
  unfold backRefLength Forest.sameContent
  cases hw : f.nodes? s with
  | none => simp [hw, pure, Except.pure]
  | some want =>
    obtain ⟨nodes, hn⟩ := Forest.contains_iff.1 hc
    obtain ⟨row, hr, rfl⟩ := Option.map_eq_some_iff.1 hn
    have hrow : f.row m.seq = .ok row := Forest.row_eq_ok_iff.2 hr
    have hl := Forest.length_of_nodes? hw
    simp only [hw, hrow, Option.bind_some, bind, Except.bind, hl]
    by_cases hs : m.position + s.length ≤ row.size
    · have hh : f.nodes? ⟨m.seq, m.position, s.length⟩ =
          some (row.extract m.position (m.position + s.length)).toList := by
        simp [Forest.nodes?, Forest.nodesIn?, hr, Span.stop, hs]
      have hsame := Forest.sameNodes_ok hf ha (hf.holds_of_nodes? hw) (hf.holds_of_nodes? hh)
      simp only [hs, hh, hsame, if_true, pure, Except.pure]
    · have hh : f.nodes? ⟨m.seq, m.position, s.length⟩ = none := by
        simp [Forest.nodes?, Forest.nodesIn?, hr, Span.stop, hs]
      simp [hs, hh, pure, Except.pure]

theorem obey_backRef {slot : Slot} {s : Span} (hf : f.Closed) (ha : f.Acyclic)
    (hb : m.bindings[slot.index]? = some (some s)) : m.obey f p (.backRef slot) =
    .ok (if f.sameContent s ⟨m.seq, m.position, s.length⟩ then some (m.stepOver s.length)
      else none) := by
  rw [obey]
  simp only [hb, backRefLength_ok hc hf ha]
  split <;> rfl

end Here

theorem obey_backRef_unbound {slot : Slot} (hb : m.bindings[slot.index]? = some none) :
    m.obey f p (.backRef slot) = .ok none := by
  rw [obey]
  simp only [hb]
  rfl

theorem obey_openSlot {slot : Slot} {previous : Nat}
    (hq : m.starts[slot.index]? = some previous) : m.obey f p (.openSlot slot) =
    .ok (some { m with
      address := m.address + 1, starts := m.starts.set slot.index m.position
      trail := .started slot previous :: m.trail }) := by
  rw [obey, hq]
  rfl

theorem obey_closeSlot {slot : Slot} {previous : Option Span} {start : Nat}
    (hb : m.bindings[slot.index]? = some previous) (hq : m.starts[slot.index]? = some start) :
    m.obey f p (.closeSlot slot) =
      .ok (some { m with
        address := m.address + 1
        bindings := m.bindings.set slot.index (some ⟨m.seq, start, m.position - start⟩)
        trail := .bound slot previous :: m.trail }) := by
  rw [obey, hb, hq]
  rfl

end Machine

end NestedRegex
