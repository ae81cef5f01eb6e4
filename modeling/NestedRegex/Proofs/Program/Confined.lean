import NestedRegex.Proofs.Pattern.Ready
import NestedRegex.Proofs.Program.Layout

namespace NestedRegex

namespace Instr

/-- The addresses where the machine can go on after an instruction at an address. -/
def targets (address : Nat) : Instr → List Nat
  | .jump target => [target]
  | .split first second => [first, second]
  | .accept => []
  | .scalar _ | .any | .enter | .exit | .atEnd | .openSlot _ | .closeSlot _ | .backRef _
  | .check _ => [address + 1]

def slot? : Instr → Option Slot
  | .openSlot slot | .closeSlot slot | .backRef slot => some slot
  | .scalar _ | .any | .enter | .exit | .atEnd | .check _ | .split _ _ | .jump _ | .accept => none

/-- The number of the test that an instruction asks. -/
def test? : Instr → Option Nat
  | .check index => some index
  | .scalar _ | .any | .enter | .exit | .atEnd | .openSlot _ | .closeSlot _ | .backRef _
  | .split _ _ | .jump _ | .accept => none

/-- An instruction at an address that stays below a bound, with one of so many slots and tests. -/
structure Confined (bound slots tests address : Nat) (i : Instr) : Prop where
  targets : ∀ target ∈ i.targets address, target < bound
  slot : ∀ slot, i.slot? = some slot → slot.index < slots
  test : ∀ index, i.test? = some index → index < tests

/-- All these instructions are confined where they stand. -/
def AllConfined (bound slots tests address : Nat) (is : List Instr) : Prop :=
  ∀ k i, is[k]? = some i → Confined bound slots tests (address + k) i

variable {bound slots tests address first second : Nat} {i : Instr} {is js : List Instr}

/-- An instruction that only goes on to the one behind it. -/
theorem Confined.straight (hn : i.targets address = [address + 1]) (h : address + 1 < bound)
    (hs : ∀ slot, i.slot? = some slot → slot.index < slots)
    (ht : ∀ index, i.test? = some index → index < tests) :
    Confined bound slots tests address i := by
  refine ⟨fun target hm => ?_, hs, ht⟩
  rw [hn, List.mem_singleton] at hm
  exact hm ▸ h

theorem Confined.ofSlot {slot : Slot} (hn : i.targets address = [address + 1])
    (hs : i.slot? = some slot) (ht : i.test? = none) (h : address + 1 < bound)
    (hslot : slot.index < slots) : Confined bound slots tests address i := by
  refine .straight hn h (fun other he => ?_) (fun index he => ?_)
  · exact Option.some.inj (hs.symm.trans he) ▸ hslot
  · rw [ht] at he
    cases he

theorem Confined.split (h : first < bound) (h' : second < bound) :
    Confined bound slots tests address (.split first second) :=
  ⟨by simp [Instr.targets, h, h'], nofun, nofun⟩

theorem Confined.jump (h : first < bound) : Confined bound slots tests address (.jump first) :=
  ⟨by simp [Instr.targets, h], nofun, nofun⟩

theorem Confined.accept : Confined bound slots tests address .accept :=
  ⟨nofun, nofun, nofun⟩

theorem allConfined_nil : AllConfined bound slots tests address [] :=
  allFrom_nil

theorem AllConfined.cons (h : Confined bound slots tests address i)
    (hs : AllConfined bound slots tests (address + 1) is) :
    AllConfined bound slots tests address (i :: is) :=
  AllFrom.cons h hs

theorem AllConfined.single (h : Confined bound slots tests address i) :
    AllConfined bound slots tests address [i] :=
  AllFrom.single h

theorem AllConfined.append (h : AllConfined bound slots tests address is)
    (hs : AllConfined bound slots tests (address + is.length) js) :
    AllConfined bound slots tests address (is ++ js) :=
  AllFrom.append h hs

end Instr

/-- Every instruction of the program is confined to the program. -/
def Program.Confined (p : Program) : Prop :=
  ∀ address i, p.code[address]? = some i →
    Instr.Confined p.size p.captureCount p.checks.length address i

namespace Pattern

open Instr

variable {names : List String} {bound tests : Nat} {name : String}

theorem slotOf_lt (h : name ∈ names) : (slotOf names name).index < names.length :=
  List.idxOf_lt_length_iff.2 h

mutual

/-- The code of a part is confined to any program that has room for it and for its tests. -/
theorem code_confined : ∀ (q : Pattern) {endAllowed address test}, Ready names q endAllowed →
    address + q.size < bound → test + q.checks.length ≤ tests →
    AllConfined bound names.length tests address (code names address test q)
  | .literal _, endAllowed, address, test, ready, hs, ht
  | .any, endAllowed, address, test, ready, hs, ht
  | .atEnd, endAllowed, address, test, ready, hs, ht => .single (.straight rfl hs nofun nofun)
  | .backRef name, endAllowed, address, test, ready, hs, ht =>
    .single (.ofSlot rfl rfl rfl hs (slotOf_lt ready))
  | .check _ _, endAllowed, address, test, ready, hs, ht =>
    .single (.straight rfl hs nofun fun _ he => Option.some.inj he ▸ ht)
  | .sequence items, endAllowed, address, test, ready, hs, ht => by
    rw [size] at hs
    rw [checks] at ht
    have hin := codeOfItems_confined items ready
      (show address + 1 + sizeOfItems items < bound by omega) ht
    refine .append (.cons (.straight rfl (by omega) nofun nofun) hin) (.single ?_)
    rw [List.length_cons, length_codeOfItems]
    exact .straight rfl (by omega) nofun nofun
  | .named name [], endAllowed, address, test, ready, hs, ht => by
    have hslot := slotOf_lt ready.1
    change address + 3 < bound at hs
    exact .cons (.ofSlot rfl rfl rfl (by omega) hslot)
      (.cons (.straight rfl (by omega) nofun nofun) (.single (.ofSlot rfl rfl rfl hs hslot)))
  | .named name (q :: qs), endAllowed, address, test, ready, hs, ht => by
    have hslot := slotOf_lt ready.1
    change address + (sizeOfItems (q :: qs) + 2) < bound at hs
    rw [checks] at ht
    have hin := codeOfItems_confined (q :: qs) ready.2.2
      (show address + 1 + sizeOfItems (q :: qs) < bound by omega) ht
    refine .append (.cons (.ofSlot rfl rfl rfl (by omega) hslot) hin) (.single ?_)
    rw [List.length_cons, length_codeOfItems]
    exact .ofSlot rfl rfl rfl (by omega) hslot
  | .choice alternatives, endAllowed, address, test, ready, hs, ht => by
    rw [size] at hs
    rw [checks] at ht
    exact codeOfAlternatives_confined alternatives ready.2 hs hs ht
  | .oneOrMore body, endAllowed, address, test, ready, hs, ht => by
    rw [size] at hs
    rw [checks] at ht
    have hin := code_confined body ready (show address + body.size < bound by omega) ht
    exact .append hin (.single (.split (by omega) (by omega)))

theorem codeOfItems_confined : ∀ (qs : List Pattern) {endAllowed address test},
    ReadyItems names qs endAllowed → address + sizeOfItems qs < bound →
    test + (checksOfItems qs).length ≤ tests →
    AllConfined bound names.length tests address (codeOfItems names address test qs)
  | [], endAllowed, address, test, ready, hs, ht => allConfined_nil
  | q :: qs, endAllowed, address, test, ready, hs, ht => by
    rw [sizeOfItems] at hs
    rw [checksOfItems, List.length_append] at ht
    have hq := code_confined q ready.1 (show address + q.size < bound by omega)
      (show test + q.checks.length ≤ tests by omega)
    have hqs := codeOfItems_confined qs ready.2
      (show address + q.size + sizeOfItems qs < bound by omega)
      (show test + q.checks.length + (checksOfItems qs).length ≤ tests by omega)
    rw [← length_code names q address test] at hqs
    rw [codeOfItems]
    exact .append hq (length_code names q address test ▸ hqs)

theorem codeOfAlternatives_confined : ∀ (qs : List Pattern) {address test leave},
    ReadyAlternatives names qs → address + sizeOfAlternatives qs < bound → leave < bound →
    test + (checksOfItems qs).length ≤ tests →
    AllConfined bound names.length tests address (codeOfAlternatives names address test leave qs)
  | [], address, test, leave, ready, hs, hl, ht => allConfined_nil
  | [q], address, test, leave, ready, hs, hl, ht => by
    rw [checksOfItems, List.length_append] at ht
    exact code_confined q ready.1 hs (show test + q.checks.length ≤ tests by omega)
  | q :: r :: qs, address, test, leave, ready, hs, hl, ht => by
    rw [sizeOfAlternatives] at hs
    rw [checksOfItems, List.length_append] at ht
    have hq := code_confined q ready.1 (show address + 1 + q.size < bound by omega)
      (show test + q.checks.length ≤ tests by omega)
    have hqs := codeOfAlternatives_confined (r :: qs) ready.2
      (show address + q.size + 2 + sizeOfAlternatives (r :: qs) < bound by omega) hl
      (show test + q.checks.length + (checksOfItems (r :: qs)).length ≤ tests by omega)
    refine .append (.cons (.split (by omega) (by omega)) hq) (.cons (.jump hl) ?_)
    rw [List.length_cons, length_code, show address + (q.size + 1) + 1 = address + q.size + 2 by
      omega]
    exact hqs

end

end Pattern

namespace Program

open Pattern

/-- The program of ready items is confined. -/
theorem confined_ofItems {items : List Pattern}
    (ready : ReadyItems (Pattern.names items) items true) : (ofItems items).Confined := by
  have hsize := size_ofItems items
  have hin := codeOfItems_confined items ready
    (show 0 + sizeOfItems items < (ofItems items).size by omega)
    (show 0 + (checksOfItems items).length ≤ (checksOfItems items).length by omega)
  exact fun address i hi => forall_instrAt hin .accept hi

end Program

end NestedRegex
