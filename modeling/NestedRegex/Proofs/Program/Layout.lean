import NestedRegex.Program.Compile
import NestedRegex.Proofs.Pattern.Placement
import NestedRegex.Proofs.Program.Lower
import NestedRegex.Proofs.Pattern.Parts

namespace NestedRegex

/-- One list stands in another from a place on. -/
def StandsAt (xs : List α) (i : Nat) (ys : List α) : Prop :=
  ys <+: xs.drop i

namespace StandsAt

variable {xs ys zs : List α} {i : Nat} {y : α}

theorem head (h : StandsAt xs i (y :: ys)) : xs[i]? = some y := by
  obtain ⟨rest, hr⟩ := h
  have hd : (xs.drop i)[0]? = some y := by rw [← hr]; rfl
  rwa [List.getElem?_drop, Nat.add_zero] at hd

theorem left (h : StandsAt xs i (ys ++ zs)) : StandsAt xs i ys :=
  (List.prefix_append ys zs).trans h

theorem right (h : StandsAt xs i (ys ++ zs)) : StandsAt xs (i + ys.length) zs := by
  obtain ⟨rest, hr⟩ := h
  refine ⟨rest, ?_⟩
  rw [← List.drop_drop, ← hr, List.append_assoc, List.drop_left]

theorem tail (h : StandsAt xs i (y :: ys)) : StandsAt xs (i + 1) ys := by
  have hc : StandsAt xs i ([y] ++ ys) := h
  exact hc.right

end StandsAt

/-- What is in a list is so, each in its place behind a start. -/
def AllFrom (P : Nat → α → Prop) (start : Nat) (xs : List α) : Prop :=
  ∀ (k : Nat) x, xs[k]? = some x → P (start + k) x

section AllFrom

variable {P : Nat → α → Prop} {start : Nat} {x : α} {xs ys : List α}

theorem allFrom_nil : AllFrom P start [] :=
  fun _ _ h => by simp at h

theorem AllFrom.cons (h : P start x) (hs : AllFrom P (start + 1) xs) :
    AllFrom P start (x :: xs) := by
  intro k y hy
  cases k with
  | zero => exact Option.some.inj hy ▸ h
  | succ k =>
    have hk := hs k y hy
    rwa [Nat.add_assoc, Nat.add_comm 1 k] at hk

theorem AllFrom.single (h : P start x) : AllFrom P start [x] :=
  .cons h allFrom_nil

theorem AllFrom.append (h : AllFrom P start xs) (hs : AllFrom P (start + xs.length) ys) :
    AllFrom P start (xs ++ ys) := by
  intro k y hy
  by_cases hk : k < xs.length
  · rw [List.getElem?_append_left hk] at hy
    exact h k y hy
  · rw [List.getElem?_append_right (Nat.not_lt.1 hk)] at hy
    have hc := hs _ y hy
    rwa [show start + xs.length + (k - xs.length) = start + k by omega] at hc

end AllFrom

namespace Pattern

/-- How far behind the start of the code of alternatives the code of one of them starts. Each but
the last has a split before it and a jump after it. -/
def leadOfAlternative : List Pattern → Nat → Nat
  | _ :: _ :: _, 0 => 1
  | p :: q :: ps, i + 1 => size p + 2 + leadOfAlternative (q :: ps) i
  | [_], _ | [], _ => 0

/-- How far behind the start of the code of a part the code starts of the part that a step leads
to. -/
def lead : Pattern → Step → Nat
  | .sequence items, .item i | .named _ items, .item i => 1 + sizeOfItems (items.take i)
  | .choice alternatives, .alternative i => leadOfAlternative alternatives i
  | _, _ => 0

end Pattern

namespace Program

open Pattern

/-- An instruction stands at an address. -/
def InstrAt (p : Program) (address : Nat) (i : Instr) : Prop :=
  p.code[address]? = some i

/-- The code of a part stands at an address, and its checks stand behind so many others. -/
structure PartAt (p : Program) (address test : Nat) (q : Pattern) : Prop where
  code : StandsAt p.code.toList address (Pattern.code p.names address test q)
  checks : StandsAt p.checks test q.checks

structure ItemsAt (p : Program) (address test : Nat) (qs : List Pattern) : Prop where
  code : StandsAt p.code.toList address (codeOfItems p.names address test qs)
  checks : StandsAt p.checks test (checksOfItems qs)

structure AlternativesAt (p : Program) (address test leave : Nat) (qs : List Pattern) : Prop where
  code : StandsAt p.code.toList address (codeOfAlternatives p.names address test leave qs)
  checks : StandsAt p.checks test (checksOfItems qs)

variable {p : Program} {address test leave : Nat} {q r body : Pattern} {qs : List Pattern}
  {i : Instr} {is : List Instr} {name : String}

theorem instrAt_of_standsAt (h : StandsAt p.code.toList address (i :: is)) :
    p.InstrAt address i := by
  have hh := h.head
  rwa [Array.getElem?_toList] at hh

theorem ItemsAt.head (h : p.ItemsAt address test (q :: qs)) : p.PartAt address test q :=
  ⟨h.code.left, h.checks.left⟩

theorem ItemsAt.tail (h : p.ItemsAt address test (q :: qs)) :
    p.ItemsAt (address + q.size) (test + q.checks.length) qs := by
  have hc := h.code.right
  rw [length_code] at hc
  exact ⟨hc, h.checks.right⟩

/-- The code of a nested sequence: its items between the way in and the way out. -/
theorem PartAt.sequence (h : p.PartAt address test (.sequence qs)) :
    p.InstrAt address .enter ∧ p.ItemsAt (address + 1) test qs ∧
      p.InstrAt (address + 1 + sizeOfItems qs) .exit := by
  have hc : StandsAt p.code.toList address
      (.enter :: (codeOfItems p.names (address + 1) test qs ++ [.exit])) := h.code
  have he := hc.tail.right
  rw [length_codeOfItems] at he
  exact ⟨instrAt_of_standsAt hc, ⟨hc.tail.left, h.checks⟩, instrAt_of_standsAt he⟩

/-- The code of a capture: its items between its two ends. -/
theorem PartAt.named (h : p.PartAt address test (.named name (q :: qs))) :
    p.InstrAt address (.openSlot (slotOf p.names name)) ∧
      p.ItemsAt (address + 1) test (q :: qs) ∧
      p.InstrAt (address + 1 + sizeOfItems (q :: qs)) (.closeSlot (slotOf p.names name)) := by
  have hc : StandsAt p.code.toList address (.openSlot (slotOf p.names name) ::
      (codeOfItems p.names (address + 1) test (q :: qs) ++
        [.closeSlot (slotOf p.names name)])) := h.code
  have he := hc.tail.right
  rw [length_codeOfItems] at he
  exact ⟨instrAt_of_standsAt hc, ⟨hc.tail.left, h.checks⟩, instrAt_of_standsAt he⟩

/-- No items stand for any one node. -/
theorem PartAt.named_nil (h : p.PartAt address test (.named name [])) :
    p.PartAt address test (.named name [.any]) :=
  ⟨h.code, h.checks⟩

theorem PartAt.choice (h : p.PartAt address test (.choice qs)) :
    p.AlternativesAt address test (address + sizeOfAlternatives qs) qs :=
  ⟨h.code, h.checks⟩

/-- The code of a repetition: its body, and a way back to it. -/
theorem PartAt.oneOrMore (h : p.PartAt address test (.oneOrMore body)) :
    p.PartAt address test body ∧
      p.InstrAt (address + body.size) (.split address (address + body.size + 1)) := by
  have he := h.code.right
  rw [length_code] at he
  exact ⟨⟨h.code.left, h.checks⟩, instrAt_of_standsAt he⟩

theorem AlternativesAt.single (h : p.AlternativesAt address test leave [q]) :
    p.PartAt address test q := by
  have hk : StandsAt p.checks test (q.checks ++ []) := h.checks
  exact ⟨h.code, hk.left⟩

/-- The code of two alternatives or more: a choice, the first of them with a way out, the rest. -/
theorem AlternativesAt.cons (h : p.AlternativesAt address test leave (q :: r :: qs)) :
    p.InstrAt address (.split (address + 1) (address + q.size + 2)) ∧
      p.PartAt (address + 1) test q ∧ p.InstrAt (address + 1 + q.size) (.jump leave) ∧
      p.AlternativesAt (address + q.size + 2) (test + q.checks.length) leave
        (r :: qs) := by
  have hc : StandsAt p.code.toList address (.split (address + 1) (address + q.size + 2) ::
      (Pattern.code p.names (address + 1) test q ++ .jump leave ::
        codeOfAlternatives p.names (address + q.size + 2) (test + q.checks.length) leave
          (r :: qs))) := h.code
  have hj := hc.tail.right
  rw [length_code] at hj
  have hr := hj.tail
  rw [show address + 1 + q.size + 1 = address + q.size + 2 by omega] at hr
  exact ⟨instrAt_of_standsAt hc, ⟨hc.tail.left, h.checks.left⟩, instrAt_of_standsAt hj,
    hr, h.checks.right⟩

theorem ItemsAt.get {i : Nat} (h : p.ItemsAt address test qs) (hi : qs[i]? = some q) :
    ∃ test, p.PartAt (address + sizeOfItems (qs.take i)) test q := by
  induction qs generalizing address test i with
  | nil => cases hi
  | cons r qs ih =>
    cases i with
    | zero =>
      obtain rfl := Option.some.inj hi
      exact ⟨test, h.head⟩
    | succ i =>
      obtain ⟨test, part⟩ := ih h.tail hi
      rw [Nat.add_assoc] at part
      exact ⟨test, part⟩

theorem AlternativesAt.get {i : Nat} (h : p.AlternativesAt address test leave qs)
    (hi : qs[i]? = some q) : ∃ test, p.PartAt (address + leadOfAlternative qs i) test q := by
  induction qs generalizing address test i with
  | nil => cases hi
  | cons r qs ih =>
    cases qs with
    | nil =>
      obtain rfl := List.mem_singleton.1 (List.mem_of_getElem? hi)
      exact ⟨test, h.single⟩
    | cons r' qs =>
      obtain ⟨-, first, -, rest⟩ := h.cons
      cases i with
      | zero =>
        obtain rfl := Option.some.inj hi
        exact ⟨test, first⟩
      | succ i =>
        obtain ⟨test, part⟩ := ih rest hi
        rw [Nat.add_assoc address, Nat.add_assoc address] at part
        exact ⟨test, part⟩

/-- The code of a part has the code of the parts inside it. -/
theorem PartAt.inside {s : Step} (h : p.PartAt address test q) (hs : q.step? s = some r) :
    ∃ test, p.PartAt (address + q.lead s) test r := by
  cases q with
  | sequence items =>
    cases s with
    | item i =>
      obtain ⟨test, part⟩ := h.sequence.2.1.get hs
      rw [Nat.add_assoc] at part
      exact ⟨test, part⟩
    | alternative _ | body => cases hs
  | named name items =>
    cases items with
    | nil => cases s <;> cases hs
    | cons q qs =>
      cases s with
      | item i =>
        obtain ⟨test, part⟩ := h.named.2.1.get hs
        rw [Nat.add_assoc] at part
        exact ⟨test, part⟩
      | alternative _ | body => cases hs
  | choice alternatives =>
    cases s with
    | alternative i => exact h.choice.get hs
    | item _ | body => cases hs
  | oneOrMore body =>
    cases s with
    | body =>
      obtain rfl := Option.some.inj hs
      exact ⟨test, h.oneOrMore.1⟩
    | item _ | alternative _ => cases hs
  | literal _ | any | backRef _ | check _ _ | atEnd => cases s <;> cases hs

theorem itemsAt_ofItems (items : List Pattern) : (ofItems items).ItemsAt 0 0 items := by
  refine ⟨?_, ?_⟩
  · exact ⟨[.accept], rfl⟩
  · exact ⟨[], List.append_nil _⟩

theorem accept_ofItems (items : List Pattern) :
    (ofItems items).InstrAt (sizeOfItems items) .accept := by
  have h : StandsAt (ofItems items).code.toList (sizeOfItems items) [.accept] := by
    have hall : StandsAt (ofItems items).code.toList 0
        (codeOfItems (Pattern.names items) 0 0 items ++ [.accept]) := ⟨[], List.append_nil _⟩
    have hr := hall.right
    rwa [length_codeOfItems, Nat.zero_add] at hr
  exact instrAt_of_standsAt h

/-- What is so of the code of all items and of the end of the program is so of each instruction. -/
theorem forall_instrAt {items : List Pattern} {P : Nat → Instr → Prop}
    (h : AllFrom P 0 (codeOfItems (Pattern.names items) 0 0 items))
    (accept : P (sizeOfItems items) .accept) (hi : (ofItems items).InstrAt address i) :
    P address i := by
  have hend : P (0 + (codeOfItems (Pattern.names items) 0 0 items).length) .accept := by
    rwa [length_codeOfItems, Nat.zero_add]
  have hall := (h.append (.single hend)) address i (by rw [← hi, ← Array.getElem?_toList]; rfl)
  rwa [Nat.zero_add] at hall

theorem size_ofItems (items : List Pattern) : (ofItems items).size = sizeOfItems items + 1 := by
  simp [size, ofItems, length_codeOfItems]

end Program

end NestedRegex
