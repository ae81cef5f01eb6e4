import NestedRegex.Program.Compile
import NestedRegex.Proofs.General
import NestedRegex.Proofs.Pattern.Placement
import NestedRegex.Proofs.Program.Symbols

namespace NestedRegex

namespace Pattern

mutual

theorem declare_eq : ∀ (p : Pattern) (path live table), declare path live table p =
    (scope path live p).map fun live => (live, table.internAll (captures p))
  | .named name items, path, live, table => by
    rw [declare, scope]
    split
    · rfl
    split
    · rfl
    rw [declareItems_eq]
    rfl
  | .sequence items, path, live, table => declareItems_eq items path 0 live table
  | .choice alternatives, path, live, table =>
    declareAlternatives_eq alternatives path 0 live live table
  | .oneOrMore body, path, live, table => declare_eq body (path ++ [.body]) live table
  | .literal _, _, _, _ | .any, _, _, _ | .backRef _, _, _, _ | .check _ _, _, _, _
  | .atEnd, _, _, _ => rfl

theorem declareItems_eq : ∀ (ps : List Pattern) (path index live table),
    declareItems path index live table ps =
      (scopeOfItems path index live ps).map fun live =>
        (live, table.internAll (capturesOfItems ps))
  | [], path, index, live, table => rfl
  | p :: ps, path, index, live, table => by
    rw [declareItems, scopeOfItems, declare_eq, capturesOfItems, Symbols.internAll_append]
    cases scope (path ++ [.item index]) live p with
    | error e => rfl
    | ok live => exact declareItems_eq ps path (index + 1) live _

theorem declareAlternatives_eq : ∀ (ps : List Pattern) (path index before live table),
    declareAlternatives path index before live table ps =
      (scopeOfAlternatives path index before live ps).map fun live =>
        (live, table.internAll (capturesOfItems ps))
  | [], path, index, before, live, table => rfl
  | p :: ps, path, index, before, live, table => by
    rw [declareAlternatives, scopeOfAlternatives, declare_eq, capturesOfItems,
      Symbols.internAll_append]
    cases scope (path ++ [.alternative index]) before p with
    | error e => rfl
    | ok branch => exact declareAlternatives_eq ps path (index + 1) before (joinNames live branch) _

end

end Pattern

namespace Draft

/-- A draft with more code and more tests. -/
def extend (d : Draft) (code : List Instr) (checks : List (String × Test)) : Draft :=
  { d with code := (d.code.toList ++ code).toArray, checks := d.checks ++ checks }

variable {d : Draft} {i : Instr} {is : List Instr} {cs : List (String × Test)}

@[simp] theorem symbols_extend (d : Draft) (is : List Instr) (cs : List (String × Test)) :
    (d.extend is cs).symbols = d.symbols :=
  rfl

@[simp] theorem symbols_push (d : Draft) (i : Instr) : (d.push i).symbols = d.symbols :=
  rfl

@[simp] theorem checks_push (d : Draft) (i : Instr) : (d.push i).checks = d.checks :=
  rfl

@[simp] theorem next_push (d : Draft) (i : Instr) : (d.push i).next = d.next + 1 :=
  Array.size_push ..

/-- A name that has a slot keeps it. -/
theorem intern_eq {name : String} (h : d.symbols.InStep) (hn : name ∈ d.symbols.names) :
    d.intern name = (Pattern.slotOf d.symbols.names name, d) := by
  rw [intern, h.intern_of_mem hn]

theorem push_eq_extend (d : Draft) (i : Instr) : d.push i = d.extend [i] [] := by
  simp [push, extend, ← Array.toList_push]

theorem ask_eq_extend (d : Draft) (name : String) (test : Test) :
    d.ask name test = d.extend [.check d.checks.length] [(name, test)] := by
  simp [ask, extend, ← Array.toList_push]

theorem extend_nil (d : Draft) : d.extend [] [] = d := by
  simp [extend]

theorem extend_extend (d : Draft) (is js : List Instr) (cs ks : List (String × Test)) :
    (d.extend is cs).extend js ks = d.extend (is ++ js) (cs ++ ks) := by
  simp [extend]

theorem next_extend (d : Draft) (is : List Instr) (cs : List (String × Test)) :
    (d.extend is cs).next = d.next + is.length := by
  simp [extend, next]

theorem length_checks_extend (d : Draft) (is : List Instr) (cs : List (String × Test)) :
    (d.extend is cs).checks.length = d.checks.length + cs.length :=
  List.length_append

theorem splitTo_extend (d : Draft) (first second third : Nat) (is : List Instr)
    (cs : List (String × Test)) :
    (d.extend (.split first second :: is) cs).splitTo d.next third =
      d.extend (.split first third :: is) cs := by
  simp [extend, splitTo, next]

/-- The code of an alternative, with its split led past the jump behind it. -/
theorem splitTo_jump (d : Draft) (first : Nat) (is : List Instr) (cs : List (String × Test)) :
    let e := ((d.push (.split first 0)).extend is cs).push (.jump 0)
    e.splitTo d.next e.next =
      d.extend (.split first (d.next + is.length + 2) :: (is ++ [.jump 0])) cs := by
  intro e
  have he : e = d.extend (.split first 0 :: (is ++ [.jump 0])) cs := by
    simp [e, push_eq_extend, extend_extend]
  have hnext : e.next = d.next + is.length + 2 := by
    simp [he, next_extend, Nat.add_assoc]
  rw [hnext, he, splitTo_extend]

end Draft

namespace Pattern

/-- The addresses of the jumps in the code of alternatives. -/
def exits (address : Nat) : List Pattern → List Nat
  | [] | [_] => []
  | p :: q :: ps => (address + size p + 1) :: exits (address + size p + 2) (q :: ps)

/-- The jumps to `leave` are led to another address, and nothing else changes. -/
theorem set_exits (names : List String) (leave target : Nat) :
    ∀ (ps : List Pattern) (front : List Instr) (test : Nat),
      (exits front.length ps).foldl (fun code a => code.setIfInBounds a (.jump target))
          (front ++ codeOfAlternatives names front.length test leave ps).toArray =
        (front ++ codeOfAlternatives names front.length test target ps).toArray
  | [], front, test | [p], front, test => rfl
  | p :: q :: ps, front, test => by
    let first : List Instr := front ++ .split (front.length + 1) (front.length + size p + 2) ::
      code names (front.length + 1) test p
    have hfirst : first.length = front.length + size p + 1 := by
      simp only [first, List.length_append, List.length_cons, length_code]
      omega
    have split : ∀ leave, front ++ codeOfAlternatives names front.length test leave (p :: q :: ps) =
        first ++ .jump leave :: codeOfAlternatives names (first.length + 1)
          (test + (checks p).length) leave (q :: ps) := fun leave => by
      rw [hfirst]
      simp only [codeOfAlternatives, first, List.append_assoc, List.cons_append]
    have rest := set_exits names leave target (q :: ps) (first ++ [.jump target])
      (test + (checks p).length)
    simp only [List.length_append, List.length_singleton, List.append_assoc, List.singleton_append]
      at rest
    rw [split, split, exits, ← hfirst, List.foldl_cons, List.setIfInBounds_toArray,
      List.set_append_right _ _ (Nat.le_refl _), Nat.sub_self, List.set_cons_zero, ← rest, hfirst]

theorem jumpTo_extend (d : Draft) (test leave : Nat) (ps : List Pattern)
    (cs : List (String × Test)) :
    (d.extend (codeOfAlternatives d.symbols.names d.next test 0 ps) cs).jumpTo
        (exits d.next ps) leave =
      d.extend (codeOfAlternatives d.symbols.names d.next test leave ps) cs := by
  have h := set_exits d.symbols.names 0 leave ps d.code.toList test
  rw [Array.length_toList] at h
  simp only [Draft.extend, Draft.jumpTo, Draft.next, h]

mutual

/-- Where all captured names have slots, the code of a part is written if the part may stand where
it is, and the table stays as it is. -/
theorem emit_eq : ∀ (p : Pattern) {path endAllowed} {d : Draft}, d.symbols.InStep →
    captures p ⊆ d.symbols.names → emit path endAllowed d p =
      (place d.symbols.names path endAllowed p).map fun _ =>
        d.extend (code d.symbols.names d.next d.checks.length p) (checks p)
  | .literal s, path, endAllowed, d, h, known => congrArg _ (d.push_eq_extend _)
  | .any, path, endAllowed, d, h, known => congrArg _ (d.push_eq_extend _)
  | .check name test, path, endAllowed, d, h, known => congrArg _ (d.ask_eq_extend name test)
  | .atEnd, path, endAllowed, d, h, known => by
    cases endAllowed with
    | true => exact congrArg _ (d.push_eq_extend _)
    | false => rfl
  | .backRef name, path, endAllowed, d, h, known => by
    rw [emit, place]
    by_cases hn : name ∈ d.symbols.names
    · rw [h.slot?_of_mem hn, if_pos hn]
      exact congrArg _ (d.push_eq_extend _)
    · rw [h.slot?_of_notMem hn, if_neg hn]
      rfl
  | .sequence items, path, endAllowed, d, h, known => by
    rw [emit, place, d.push_eq_extend, emitItems_eq items (d := d.extend [.enter] []) h known,
      Draft.symbols_extend]
    cases placeItems d.symbols.names path 0 true items with
    | error e => rfl
    | ok _ =>
      refine congrArg _ (?_ : Draft.push _ _ = _)
      simp [Draft.push_eq_extend, Draft.extend_extend, Draft.next_extend,
        Draft.length_checks_extend, code, checks]
  | .named name [], path, endAllowed, d, h, known => by
    have hn : name ∈ d.symbols.names := known List.mem_cons_self
    rw [emit, Draft.intern_eq h hn]
    refine congrArg _ (?_ : Draft.push _ _ = _)
    simp [Draft.push_eq_extend, Draft.extend_extend, code, checks, checksOfItems]
  | .named name (p :: ps), path, endAllowed, d, h, known => by
    have hn : name ∈ d.symbols.names := known List.mem_cons_self
    have inner : capturesOfItems (p :: ps) ⊆ d.symbols.names :=
      fun _ hc => known (List.mem_cons_of_mem _ hc)
    rw [emit, place, Draft.intern_eq h hn]
    simp only
    rw [d.push_eq_extend,
      emitItems_eq (p :: ps) (d := d.extend [.openSlot (slotOf d.symbols.names name)] []) h inner,
      Draft.symbols_extend]
    cases placeItems d.symbols.names path 0 false (p :: ps) with
    | error e => rfl
    | ok _ =>
      refine congrArg _ (?_ : Draft.push _ _ = _)
      simp [Draft.push_eq_extend, Draft.extend_extend, Draft.next_extend,
        Draft.length_checks_extend, code, checks]
  | .choice [], path, endAllowed, d, h, known => rfl
  | .choice (p :: ps), path, endAllowed, d, h, known => by
    rw [emit, place, emitAlternatives_eq (p :: ps) h known]
    cases placeAlternatives d.symbols.names path 0 (p :: ps) with
    | error e => rfl
    | ok _ =>
      refine congrArg _ (?_ : Draft.jumpTo _ _ _ = _)
      rw [List.nil_append, Draft.next_extend, length_codeOfAlternatives, jumpTo_extend]
      rfl
  | .oneOrMore body, path, endAllowed, d, h, known => by
    by_cases he : body = .atEnd
    · subst he
      rfl
    have hplace : place d.symbols.names path endAllowed (.oneOrMore body) =
      place d.symbols.names (path ++ [.body]) false body := by
      cases body <;> first | rfl | exact absurd rfl he
    have hemit : emit path endAllowed d (.oneOrMore body) = (do
        let e ← emit (path ++ [.body]) false d body
        return e.push (.split d.next (e.next + 1))) := by
      cases body <;> first | rfl | exact absurd rfl he
    rw [hplace, hemit, emit_eq body h known]
    cases place d.symbols.names (path ++ [.body]) false body with
    | error e => rfl
    | ok _ =>
      refine congrArg _ (?_ : Draft.push _ _ = _)
      simp [Draft.push_eq_extend, Draft.extend_extend, Draft.next_extend, length_code, code, checks]

theorem emitItems_eq : ∀ (ps : List Pattern) {path index endAllowed} {d : Draft},
    d.symbols.InStep → capturesOfItems ps ⊆ d.symbols.names →
    emitItems path index endAllowed d ps =
      (placeItems d.symbols.names path index endAllowed ps).map fun _ =>
        d.extend (codeOfItems d.symbols.names d.next d.checks.length ps) (checksOfItems ps)
  | [], path, index, endAllowed, d, h, known => congrArg _ d.extend_nil.symm
  | p :: ps, path, index, endAllowed, d, h, known => by
    obtain ⟨first, others⟩ := List.append_subset.1 known
    rw [emitItems, placeItems, emit_eq p h first]
    cases place d.symbols.names (path ++ [.item index]) (endAllowed && ps.isEmpty) p with
    | error e => rfl
    | ok _ =>
      refine (emitItems_eq ps (d := d.extend _ _) h others).trans ?_
      simp [Draft.extend_extend, Draft.next_extend, Draft.length_checks_extend, length_code,
        codeOfItems, checksOfItems]
      rfl

theorem emitAlternatives_eq : ∀ (ps : List Pattern) {path index before} {d : Draft},
    d.symbols.InStep → capturesOfItems ps ⊆ d.symbols.names →
    emitAlternatives path index before d ps =
      (placeAlternatives d.symbols.names path index ps).map fun _ =>
        (before ++ exits d.next ps,
          d.extend (codeOfAlternatives d.symbols.names d.next d.checks.length 0 ps)
            (checksOfItems ps))
  | [], path, index, before, d, h, known => by
    simp [emitAlternatives, placeAlternatives, exits, codeOfAlternatives, checksOfItems,
      Except.map, Draft.extend_nil]
  | [p], path, index, before, d, h, known => by
    rw [emitAlternatives, placeAlternatives,
      emit_eq p h fun _ hc => known (by simp [capturesOfItems, hc])]
    cases place d.symbols.names (path ++ [.alternative index]) false p with
    | error e => rfl
    | ok _ =>
      refine congrArg _ (Prod.ext_iff.2 ⟨(List.append_nil before).symm, ?_⟩)
      simp [codeOfAlternatives, checksOfItems]
  | p :: q :: ps, path, index, before, d, h, known => by
    obtain ⟨first, others⟩ := List.append_subset.1 known
    have hp := @emit_eq p (path ++ [.alternative index]) false
      (d.push (.split (d.next + 1) 0)) h first
    simp only [Draft.symbols_push, Draft.next_push, Draft.checks_push] at hp
    rw [emitAlternatives, placeAlternatives, hp]
    cases place d.symbols.names (path ++ [.alternative index]) false p with
    | error e => rfl
    | ok _ =>
      simp only [Except.map, bind, Except.bind]
      rw [Draft.splitTo_jump, Draft.next_extend, Draft.next_push, length_code, Nat.add_right_comm,
        emitAlternatives_eq (q :: ps) (d := d.extend _ _) h others]
      simp only [Draft.symbols_extend, Draft.length_checks_extend, Draft.extend_extend]
      have hnext : ∀ {i j : Instr} {is cs}, is.length = size p →
          (d.extend (i :: (is ++ [j])) cs).next = d.next + size p + 2 := fun hl => by
        simp [Draft.next_extend, hl, Nat.add_assoc]
      rw [hnext (length_code ..)]
      cases placeAlternatives d.symbols.names path (index + 1) (q :: ps) with
      | error e => rfl
      | ok _ => simp [Except.map, exits, codeOfAlternatives, checksOfItems]

end

end Pattern

namespace Program

open Pattern

variable {items : List Pattern} {name : String}

/-- The table of a program. -/
def symbols (p : Program) : Symbols :=
  ⟨p.names, p.slots⟩

/-- The names of the items are what the declarations leave in the table. -/
theorem symbols_ofItems (items : List Pattern) :
    (ofItems items).symbols = Symbols.internAll {} (capturesOfItems items) :=
  (Symbols.internAll_empty _).symm

theorem inStep_ofItems (items : List Pattern) : (ofItems items).symbols.InStep :=
  symbols_ofItems items ▸ Symbols.inStep_empty.internAll _

theorem slot?_ofItems_of_mem (h : name ∈ Pattern.names items) :
    (ofItems items).slot? name = some (slotOf (Pattern.names items) name) :=
  (inStep_ofItems items).slot?_of_mem h

theorem slot?_ofItems_of_notMem (h : name ∉ Pattern.names items) :
    (ofItems items).slot? name = none :=
  (inStep_ofItems items).slot?_of_notMem h

/-- What passes for its names and for its places becomes a program. -/
theorem compileAll_eq (some : items ≠ []) : compileAll items =
    (scopeOfItems [] 0 [] items).bind fun _ =>
      (placeItems (Pattern.names items) [] 0 true items).bind fun _ => .ok (ofItems items) := by
  have known : capturesOfItems items ⊆ (ofItems items).symbols.names :=
    fun _ => List.mem_eraseDups.2
  have emitted : emitItems [] 0 true { symbols := (ofItems items).symbols } items =
      (placeItems (Pattern.names items) [] 0 true items).map fun _ =>
        Draft.extend { symbols := (ofItems items).symbols }
          (codeOfItems (Pattern.names items) 0 0 items) (checksOfItems items) :=
    emitItems_eq items (inStep_ofItems items) known
  rw [compileAll, if_neg (by simpa using some), declareItems_eq, ← symbols_ofItems]
  cases scopeOfItems [] 0 [] items with
  | error e => rfl
  | ok after =>
    change (emitItems [] 0 true { symbols := (ofItems items).symbols } items).bind _ = _
    rw [emitted]
    cases placeItems (Pattern.names items) [] 0 true items with
    | error e => rfl
    | ok _ =>
      refine congrArg Except.ok (?_ : Program.mk _ _ _ _ = Program.mk _ _ _ _)
      simp [Draft.extend, symbols, ofItems]

end Program

end NestedRegex
