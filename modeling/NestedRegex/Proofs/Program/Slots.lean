import NestedRegex.Proofs.Machine.Passes
import NestedRegex.Proofs.Pattern.Names
import NestedRegex.Proofs.Program.Confined

namespace NestedRegex

namespace Pattern

/-- The code of the part at the end of a path starts at an address. -/
inductive Placed (items : List Pattern) : Path → Nat → Pattern → Prop
  | item {i q} (here : items[i]? = some q) :
    Placed items [.item i] (sizeOfItems (items.take i)) q
  | inside {path address q s r} (outer : Placed items path address q)
    (inner : q.step? s = some r) : Placed items (path ++ [s]) (address + q.lead s) r

/-- The name written in a part itself. -/
def written? : Pattern → Option String
  | .named name _ | .backRef name => some name
  | .sequence _ | .choice _ | .oneOrMore _ | .literal _ | .any | .check _ _ | .atEnd => none

variable {items : List Pattern} {q : Pattern} {path : Path} {s : Step} {address : Nat}

theorem part?_concat : q.part? (path ++ [s]) = (q.part? path).bind (·.step? s) := by
  induction path generalizing q with
  | nil => simp [part?]
  | cons t path ih => simp [part?, ih, Option.bind_assoc]

theorem part?_of_placed (h : Placed items path address q) :
    (sequence items).part? path = some q := by
  induction h with
  | item here => exact (part?_cons (p := .sequence _) (s := .item _) here).trans rfl
  | inside _ inner ih => rw [part?_concat, ih, Option.bind_some, inner]

theorem placed_of_part? (hne : path ≠ []) (h : (sequence items).part? path = some q) :
    ∃ address, Placed items path address q := by
  induction path using List.reverseRecOn generalizing q with
  | nil => exact absurd rfl hne
  | append_singleton path s ih =>
    rw [part?_concat] at h
    obtain ⟨r, hr, hs⟩ := Option.bind_eq_some_iff.1 h
    cases path with
    | nil =>
      obtain rfl := Option.some.inj hr
      cases s with
      | item i => exact ⟨_, .item hs⟩
      | alternative _ | body => cases hs
    | cons t path =>
      obtain ⟨address, outer⟩ := ih nofun hr
      exact ⟨_, .inside outer hs⟩

end Pattern

namespace Program

open Pattern

/-- An instruction at an address is one of those of a part that have a slot, and it has the slot of
the name written in the part. A capture has one at the start of its code and one at the end. -/
inductive Carries (p : Program) (items : List Pattern) : Nat → Instr → Prop
  | openSlot {path address name inner slot} (part : Placed items path address (.named name inner))
    (named : p.slot? name = some slot) : Carries p items address (.openSlot slot)
  | closeSlot {path start address name inner slot}
    (part : Placed items path start (.named name inner))
    (last : address + 1 = start + (Pattern.named name inner).size)
    (named : p.slot? name = some slot) : Carries p items address (.closeSlot slot)
  | backRef {path address name slot} (part : Placed items path address (.backRef name))
    (named : p.slot? name = some slot) : Carries p items address (.backRef slot)

/-- The names of a program are those that the items capture, its slots are their places, and its
instructions have the slots of the names that the parts have. -/
structure Slots (p : Program) (items : List Pattern) : Prop where
  distinct : p.names.Nodup
  captured : ∀ name, name ∈ p.names ↔ ∃ inner, (sequence items).Has (.named name inner)
  /-- Of two names, the first is captured before any capture of the second. -/
  ordered : p.names.Pairwise fun a b => ∀ path inner,
    (sequence items).part? path = some (.named b inner) → ∃ earlier inner',
      (sequence items).part? earlier = some (.named a inner') ∧ Before earlier path
  slot? : ∀ name slot, p.slot? name = some slot ↔ p.names[slot.index]? = some name
  /-- All parts have a place, and their code stands there. -/
  placed : ∀ path q, path ≠ [] →
    ((sequence items).part? path = some q ↔ ∃ address, Placed items path address q)
  emitted : ∀ path address q, Placed items path address q → ∃ test, p.PartAt address test q
  carried : ∀ address i slot, i.slot? = some slot →
    (p.code[address]? = some i ↔ Carries p items address i)

variable {p : Program} {items inner : List Pattern} {q : Pattern} {path : Path}
  {address test : Nat} {name : String}

/-- Where a part is placed, its code stands. -/
theorem partAt_of_placed (h : Placed items path address q) :
    ∃ test, (ofItems items).PartAt address test q := by
  induction h with
  | item here =>
    obtain ⟨test, part⟩ := (itemsAt_ofItems items).get here
    rw [Nat.zero_add] at part
    exact ⟨test, part⟩
  | inside _ inner ih =>
    obtain ⟨test, part⟩ := ih
    exact part.inside inner

/-- The two ends of a capture, whatever is inside it. -/
theorem PartAt.ends (h : p.PartAt address test (.named name inner)) :
    p.InstrAt address (.openSlot (slotOf p.names name)) ∧
      ∀ last, last + 1 = address + (Pattern.named name inner).size →
        p.InstrAt last (.closeSlot (slotOf p.names name)) := by
  cases inner with
  | nil =>
    obtain ⟨opens, -, closes⟩ := h.named_nil.named
    refine ⟨opens, fun last hl => ?_⟩
    rwa [show last = address + 1 + 1 from Nat.succ.inj hl]
  | cons q qs =>
    obtain ⟨opens, -, closes⟩ := h.named
    refine ⟨opens, fun last hl => ?_⟩
    have hsize : (Pattern.named name (q :: qs)).size = sizeOfItems (q :: qs) + 2 := rfl
    rwa [show last = address + 1 + sizeOfItems (q :: qs) by omega]

/-- All names written in the items have slots in the program. -/
def Knows (p : Program) (items : List Pattern) : Prop :=
  ∀ path address q name, Placed items path address q → q.written? = some name →
    p.slot? name = some (slotOf p.names name)

theorem knows_of_compileAll (h : compileAll items = .ok p) : p.Knows items := by
  intro path address q name hq hn
  obtain ⟨rfl, -, -⟩ := compileAll_ok h
  refine slot?_ofItems_of_mem ?_
  obtain ⟨⟨endAllowed, ready⟩, -⟩ := compiled_has h ⟨path, part?_of_placed hq⟩ (by
    rintro rfl
    cases hn)
  cases q with
  | named other inner =>
    obtain rfl := Option.some.inj hn
    exact ready.1
  | backRef other =>
    obtain rfl := Option.some.inj hn
    exact ready
  | sequence _ | choice _ | oneOrMore _ | literal _ | any | check _ _ | atEnd => cases hn

/-- An instruction of a part has its place in the program. -/
theorem Carries.instrAt {i : Instr} (known : (ofItems items).Knows items)
    (h : (ofItems items).Carries items address i) : (ofItems items).InstrAt address i := by
  have slotted : ∀ {path address q name slot}, Placed items path address q →
      q.written? = some name → (ofItems items).slot? name = some slot →
      slot = slotOf (ofItems items).names name := fun part hn named =>
    Option.some.inj (named.symm.trans (known _ _ _ _ part hn))
  cases h with
  | openSlot part named =>
    obtain ⟨test, code⟩ := partAt_of_placed part
    exact slotted part rfl named ▸ code.ends.1
  | closeSlot part last named =>
    obtain ⟨test, code⟩ := partAt_of_placed part
    exact slotted part rfl named ▸ code.ends.2 _ last
  | backRef part named =>
    obtain ⟨test, code⟩ := partAt_of_placed part
    exact slotted part rfl named ▸ instrAt_of_standsAt code.code

/-- If an instruction at an address has a slot, it is one of a part. -/
def Accounted (p : Program) (items : List Pattern) (address : Nat) (i : Instr) : Prop :=
  ∀ slot, i.slot? = some slot → p.Carries items address i

mutual

/-- The instructions with slots in the code of a part are its own or those of parts inside it. -/
theorem code_accounted (known : p.Knows items) : ∀ (q : Pattern) {path address test},
    Placed items path address q →
    AllFrom (p.Accounted items) address (Pattern.code p.names address test q)
  | .literal _, path, address, test, hq | .any, path, address, test, hq
  | .check _ _, path, address, test, hq | .atEnd, path, address, test, hq => .single nofun
  | .backRef name, path, address, test, hq =>
    .single fun _ _ => .backRef hq (known _ _ _ _ hq rfl)
  | .sequence inner, path, address, test, hq => by
    refine .append (.cons nofun (codeOfItems_accounted known inner fun i r hr => ?_))
      (.single nofun)
    rw [Nat.add_assoc]
    exact ⟨_, .inside (s := .item i) hq hr⟩
  | .named name [], path, address, test, hq => by
    have hslot := known _ _ _ _ hq rfl
    exact .cons (fun _ _ => .openSlot hq hslot)
      (.cons nofun (.single fun _ _ => .closeSlot hq rfl hslot))
  | .named name (r :: rs), path, address, test, hq => by
    have hslot := known _ _ _ _ hq rfl
    refine .append (.cons (fun _ _ => .openSlot hq hslot)
      (codeOfItems_accounted known (r :: rs) fun i r' hr => ?_))
      (.single fun _ _ => .closeSlot hq ?_ hslot)
    · rw [Nat.add_assoc]
      exact ⟨_, .inside (s := .item i) hq hr⟩
    · rw [List.length_cons, length_codeOfItems]
      rfl
  | .choice alternatives, path, address, test, hq =>
    codeOfAlternatives_accounted known alternatives fun i r hr =>
      ⟨_, .inside (s := .alternative i) hq hr⟩
  | .oneOrMore body, path, address, test, hq =>
    .append (code_accounted known body (.inside (s := .body) hq rfl)) (.single nofun)

theorem codeOfItems_accounted (known : p.Knows items) : ∀ (qs : List Pattern) {address test},
    (∀ (i : Nat) q, qs[i]? = some q →
      ∃ path, Placed items path (address + sizeOfItems (qs.take i)) q) →
    AllFrom (p.Accounted items) address (codeOfItems p.names address test qs)
  | [], address, test, placed => allFrom_nil
  | q :: qs, address, test, placed => by
    obtain ⟨path, hq⟩ := placed 0 q rfl
    refine .append (code_accounted known q hq) ?_
    rw [length_code]
    refine codeOfItems_accounted known qs fun i r hr => ?_
    rw [Nat.add_assoc]
    exact placed (i + 1) r hr

theorem codeOfAlternatives_accounted (known : p.Knows items) :
    ∀ (qs : List Pattern) {address test leave},
    (∀ (i : Nat) q, qs[i]? = some q →
      ∃ path, Placed items path (address + leadOfAlternative qs i) q) →
    AllFrom (p.Accounted items) address (codeOfAlternatives p.names address test leave qs)
  | [], address, test, leave, placed => allFrom_nil
  | [q], address, test, leave, placed => by
    obtain ⟨path, hq⟩ := placed 0 q rfl
    exact code_accounted known q hq
  | q :: r :: qs, address, test, leave, placed => by
    obtain ⟨path, hq⟩ := placed 0 q rfl
    refine .append (.cons nofun (code_accounted known q hq)) (.cons nofun ?_)
    rw [List.length_cons, length_code, show address + (q.size + 1) + 1 = address + q.size + 2 by
      omega]
    refine codeOfAlternatives_accounted known (r :: qs) fun i r' hr => ?_
    rw [Nat.add_assoc address, Nat.add_assoc address]
    exact placed (i + 1) r' hr

end

/-- Every instruction of the program that has a slot is one of a part. -/
theorem accounted_ofItems {i : Instr} (known : (ofItems items).Knows items)
    (hi : (ofItems items).InstrAt address i) : (ofItems items).Accounted items address i := by
  refine forall_instrAt (codeOfItems_accounted known items fun i q hq => ⟨[.item i], ?_⟩) nofun hi
  rw [Nat.zero_add]
  exact .item hq

/-- A compiled program has each name that its items capture once, in the order of the first
captures, where a part comes before what is inside it and what is inside goes from left to right.
The map leads from each name to its place in this order. The instructions with a slot are those that
begin a capture, end it or refer to one, each where the part stands that it is for, and the slot is
that of the name written in that part. -/
theorem slots_exact (h : compileAll items = .ok p) : p.Slots items := by
  have known := knows_of_compileAll h
  obtain ⟨rfl, -, -⟩ := compileAll_ok h
  have inStep := inStep_ofItems items
  exact {
    distinct := inStep.distinct
    captured := fun name => mem_names.trans (mem_captures (.sequence items))
    ordered := pairwise_names items
    slot? := inStep.slot?_eq_some_iff
    placed := fun path q hne => ⟨placed_of_part? hne, fun ⟨_, hq⟩ => part?_of_placed hq⟩
    emitted := fun path address q hq => partAt_of_placed hq
    carried := fun address i slot hs =>
      ⟨fun hi => accounted_ofItems known hi slot hs, fun hc => hc.instrAt known⟩ }

/-- Two alternatives capture one name, and another name is referred to before it is captured. -/
theorem slots_exact_shared :
    let items : List Pattern := [.backRef "y",
      .choice [.named "x" [], .sequence [.named "y" [.any], .named "x" []]]]
    let p := ofItems items
    compileAll items = .ok p ∧ p.Slots items ∧ p.names = ["x", "y"] ∧
      p.slots = [("y", ⟨1⟩), ("x", ⟨0⟩)] ∧
      p.code = #[.backRef ⟨1⟩, .split 2 6, .openSlot ⟨0⟩, .any, .closeSlot ⟨0⟩, .jump 14, .enter,
        .openSlot ⟨1⟩, .any, .closeSlot ⟨1⟩, .openSlot ⟨0⟩, .any, .closeSlot ⟨0⟩, .exit,
        .accept] := by
  intro items p
  have hcompiled : compileAll items = .ok p := by rfl
  exact ⟨hcompiled, slots_exact hcompiled, by decide, by decide, by decide⟩

end Program

end NestedRegex
