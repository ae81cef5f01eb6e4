import Mathlib.Data.List.Forall2
import NestedRegex.Proofs.Machine.Answers

namespace NestedRegex

/-- The same error, or results that are related. -/
inductive Agree (R : α → β → Prop) : Except ε α → Except ε β → Prop
  | ok {a b} (h : R a b) : Agree R (.ok a) (.ok b)
  | error (e) : Agree R (.error e) (.error e)

/-- The answer of a test depends on nothing but the value of the node. -/
def AsksValue (test : Test) : Prop :=
  ∀ (f g : Forest) (n m : Node) (v : Value), f.read n = .ok v → g.read m = .ok v →
    test f n = test g m

/-- Two sequences, each of its own forest, that can be read and have the same value. -/
def Forest.SameSeq (f g : Forest) (a b : SeqName) : Prop :=
  ∃ v, f.readSeq a = .ok v ∧ g.readSeq b = .ok v

/-- Spans of the same places in sequences of the same value. -/
structure Span.Alike (f g : Forest) (s t : Span) : Prop where
  start : s.start = t.start
  length : s.length = t.length
  seq : f.SameSeq g s.seq t.seq

/-- Matches that differ in the names of sequences only. -/
structure Captures.Alike (f g : Forest) (b c : Captures) : Prop where
  whole : b.whole.Alike f g c.whole
  slots : List.Forall₂ (Option.Rel (Span.Alike f g)) b.slots c.slots

/-- Ways that have come equally far and have bound spans of the same places. -/
structure Way.Alike (f g : Forest) (w u : Way) : Prop where
  position : w.position = u.position
  bound : ∀ name, Option.Rel (Span.Alike f g) (w.bound name) (u.bound name)

/-- Nodes that carry the same scalar or name sequences of the same value. -/
inductive Node.Alike (f g : Forest) : Node → Node → Prop
  | scalar (s : Scalar) : Alike f g (.scalar s) (.scalar s)
  | seq {a b} (h : f.SameSeq g a b) : Alike f g (.seq a) (.seq b)

/-- The same errors and related answers, in the same order. -/
def Choices.Alike (R : α → β → Prop) : Choices α → Choices β → Prop :=
  List.Forall₂ (Agree R)

namespace Choices

variable {R : α → β → Prop} {S : γ → δ → Prop} {cs cs' : Choices α} {ds ds' : Choices β}

theorem Alike.nil : Alike R [] [] :=
  List.Forall₂.nil

theorem Alike.one {a : α} {b : β} (h : R a b) : Alike R [.ok a] [.ok b] :=
  .cons (.ok h) .nil

theorem Alike.append (h : Alike R cs ds) (h' : Alike R cs' ds') :
    Alike R (cs ++ cs') (ds ++ ds') :=
  List.rel_append h h'

theorem Alike.andThen {next : α → Choices γ} {next' : β → Choices δ} (h : Alike R cs ds)
    (hnext : ∀ {a b}, R a b → Alike S (next a) (next' b)) :
    Alike S (cs.andThen next) (ds.andThen next') := by
  refine List.rel_flatMap h fun c d hcd => ?_
  cases hcd with
  | ok hab => exact hnext hab
  | error e => exact .cons (.error e) .nil

theorem Alike.first (h : Alike R cs ds) : Agree (Option.Rel R) cs.first ds.first := by
  cases h with
  | nil => exact .ok .none
  | cons hcd _ =>
    cases hcd with
    | ok hab => exact .ok (.some hab)
    | error e => exact .error e

end Choices

theorem rel_getElem? {R : α → β → Prop} {xs : List α} {ys : List β} (h : List.Forall₂ R xs ys)
    (i : Nat) : Option.Rel R xs[i]? ys[i]? := by
  induction h generalizing i with
  | nil => exact .none
  | cons hab _ ih =>
    cases i with
    | zero => exact .some hab
    | succ i => exact ih i

variable {f g : Forest} {a b : SeqName} {n m : Node} {xs ys : List Node} {w u : Way}
  {s s' t t' : Span}

theorem Node.Alike.value (h : n.Alike f g m) : ∃ v, f.read n = .ok v ∧ g.read m = .ok v := by
  cases h with
  | scalar s => exact ⟨.scalar s, rfl, rfl⟩
  | seq h => exact h

theorem values_of_alike (h : List.Forall₂ (Node.Alike f g) xs ys) :
    xs.map f.value = ys.map g.value := by
  induction h with
  | nil => rfl
  | cons hn _ ih =>
    obtain ⟨v, hread, hread'⟩ := hn.value
    rw [List.map_cons, List.map_cons, ih, Forest.value, Forest.value, hread, hread']

namespace Forest

theorem contains_of_readSeq {v : Value} (h : f.readSeq a = .ok v) : f.contains a = true := by
  cases hc : f.children a with
  | error e =>
    rw [readSeq, read, readWithin, hc] at h
    cases h
  | ok nodes => exact (of_children_ok hc).1

theorem readSeq_ok (hf : f.Closed) (ha : f.Acyclic) (hc : f.contains a = true) :
    f.readSeq a = .ok (.seq ((f.nodesOf a).map f.value)) := by
  rw [readSeq, read_ok hf ha (holds_seq_iff.2 hc), value_seq hf ha (nodesOf_of_contains hc)]

end Forest

section Forests

variable (hf : f.Closed) (ha : f.Acyclic) (hg : g.Closed) (hb : g.Acyclic)
include hf ha hg hb

/-- Nodes of the same value are alike. -/
theorem Node.alike_of_value (hn : f.Holds [n]) (hm : g.Holds [m])
    (h : f.value n = g.value m) : n.Alike f g m := by
  cases n with
  | scalar s =>
    cases m with
    | scalar t =>
      simp only [Forest.value_scalar, Value.scalar.injEq] at h
      exact h ▸ .scalar s
    | seq b =>
      rw [Forest.value_seq hg hb (Forest.nodesOf_of_contains (Forest.holds_seq_iff.1 hm))] at h
      simp at h
  | seq a =>
    cases m with
    | scalar t =>
      rw [Forest.value_seq hf ha (Forest.nodesOf_of_contains (Forest.holds_seq_iff.1 hn))] at h
      simp at h
    | seq b => exact .seq ⟨_, Forest.read_ok hf ha hn, h ▸ Forest.read_ok hg hb hm⟩

namespace Forest

/-- Sequences of the same value have children that are alike one by one. -/
theorem SameSeq.nodes (h : f.SameSeq g a b) :
    List.Forall₂ (Node.Alike f g) (f.nodesOf a) (g.nodesOf b) := by
  obtain ⟨v, hread, hread'⟩ := h
  have hin := contains_of_readSeq hread
  have hin' := contains_of_readSeq hread'
  have hvalues : (f.nodesOf a).map f.value = (g.nodesOf b).map g.value := by
    rw [readSeq_ok hf ha hin] at hread
    rw [readSeq_ok hg hb hin', ← hread] at hread'
    exact (Value.seq.inj (Except.ok.inj hread')).symm
  rw [List.forall₂_iff_get]
  refine ⟨by simpa using congrArg List.length hvalues, fun i hi hi' => ?_⟩
  have hat := congrArg (fun vs => vs[i]?) hvalues
  exact Node.alike_of_value hf ha hg hb
    (hf.holds_of_mem (nodesOf_of_contains hin) (List.get_mem _ _))
    (hg.holds_of_mem (nodesOf_of_contains hin') (List.get_mem _ _)) (by simpa [hi, hi'] using hat)

theorem SameSeq.length (h : f.SameSeq g a b) :
    (f.nodesOf a).length = (g.nodesOf b).length :=
  (h.nodes hf ha hg hb).length_eq

theorem SameSeq.getElem? (h : f.SameSeq g a b) (i : Nat) :
    Option.Rel (Node.Alike f g) (f.nodesOf a)[i]? (g.nodesOf b)[i]? :=
  rel_getElem? (h.nodes hf ha hg hb) i

end Forest

/-- The nodes of alike spans, if the spans are there, are alike. -/
theorem Span.Alike.nodes (h : s.Alike f g t) :
    Option.Rel (List.Forall₂ (Node.Alike f g)) (f.nodes? s) (g.nodes? t) := by
  obtain ⟨v, hread, hread'⟩ := h.seq
  have hnodes := h.seq.nodes hf ha hg hb
  have hstop : s.stop = t.stop := by rw [Span.stop, Span.stop, h.start, h.length]
  rw [Forest.nodes?_eq, Forest.nodes?_eq,
    Forest.nodesOf_of_contains (Forest.contains_of_readSeq hread),
    Forest.nodesOf_of_contains (Forest.contains_of_readSeq hread'), Option.bind_some,
    Option.bind_some, hnodes.length_eq, hstop, h.start, h.length]
  split
  · exact .some (List.forall₂_take _ (List.forall₂_drop _ hnodes))
  · exact .none

/-- Two spans have the same content just when two spans that are like them do. -/
theorem Span.Alike.sameContent (h : s.Alike f g t) (h' : s'.Alike f g t') :
    f.sameContent s s' = g.sameContent t t' := by
  have hn := h.nodes hf ha hg hb
  have hn' := h'.nodes hf ha hg hb
  unfold Forest.sameContent
  generalize f.nodes? s = xs, g.nodes? t = ys, f.nodes? s' = xs', g.nodes? t' = ys' at hn hn' ⊢
  cases hn with
  | none => rfl
  | some hn =>
    cases hn' with
    | none => rfl
    | some hn' => simp only [values_of_alike hn, values_of_alike hn']

end Forests

theorem Way.Alike.past (h : w.Alike f g u) (count : Nat) :
    (w.past count).Alike f g (u.past count) :=
  ⟨congrArg (· + count) h.position, h.bound⟩

theorem Way.Alike.at (h : w.Alike f g u) (position : Nat) :
    Way.Alike f g { w with position } { u with position } :=
  ⟨rfl, h.bound⟩

theorem Way.Alike.bind (h : w.Alike f g u) (name : String) (hs : s.Alike f g t) :
    (w.bind name s).Alike f g (u.bind name t) := by
  refine ⟨h.position, fun other => ?_⟩
  by_cases e : other = name
  · simp only [Way.bind, if_pos e]
    exact .some hs
  · simp only [Way.bind, if_neg e]
    exact h.bound other

namespace Pattern

theorem turns_alike {body body' : Way → Choices Way}
    (hbody : ∀ {w u}, Way.Alike f g w u → Choices.Alike (Way.Alike f g) (body w) (body' u)) :
    ∀ (most : Nat) {w u}, Way.Alike f g w u →
      Choices.Alike (Way.Alike f g) (turns body most w) (turns body' most u)
  | 0, _, _, _ => .nil
  | most + 1, _, _, h =>
    (hbody h).andThen fun hv => (turns_alike hbody most hv).append (.one hv)

mutual

theorem ways_alike (hf : f.Closed) (ha : f.Acyclic) (hg : g.Closed) (hb : g.Acyclic) :
    ∀ (q : Pattern) {a b w u}, (∀ c ∈ checks q, AsksValue c.2) → f.SameSeq g a b →
      Way.Alike f g w u → Choices.Alike (Way.Alike f g) (ways f q a w) (ways g q b u)
  | .literal s, a, b, w, u, asks, h, hw => by
    have hn := h.getElem? hf ha hg hb w.position
    rw [ways, ways, ← hw.position]
    generalize (f.nodesOf a)[w.position]? = n, (g.nodesOf b)[w.position]? = m at hn ⊢
    cases hn with
    | none => exact .nil
    | some hn =>
      cases hn with
      | scalar t =>
        split
        · exact .one (hw.past 1)
        · exact .nil
      | seq _ =>
        rw [if_neg (by simp), if_neg (by simp)]
        exact .nil
  | .any, a, b, w, u, asks, h, hw => by
    rw [ways, ways, ← hw.position, h.length hf ha hg hb]
    split
    · exact .one (hw.past 1)
    · exact .nil
  | .sequence items, a, b, w, u, asks, h, hw => by
    have hn := h.getElem? hf ha hg hb w.position
    rw [ways, ways, ← hw.position]
    generalize (f.nodesOf a)[w.position]? = n, (g.nodesOf b)[w.position]? = m at hn ⊢
    cases hn with
    | none => exact .nil
    | some hn =>
      cases hn with
      | scalar t => exact .nil
      | seq inner =>
        refine (waysOfItems_alike hf ha hg hb items asks inner (hw.at 0)).andThen fun hv => ?_
        rw [hv.position, inner.length hf ha hg hb]
        split
        · exact .one (hv.at _)
        · exact .nil
  | .named name [], a, b, w, u, asks, h, hw => by
    rw [ways, ways, ← hw.position, h.length hf ha hg hb]
    split
    · exact .one ((hw.past 1).bind name ⟨rfl, rfl, h⟩)
    · exact .nil
  | .named name (p :: ps), a, b, w, u, asks, h, hw => by
    rw [ways, ways]
    refine (waysOfItems_alike hf ha hg hb (p :: ps) asks h hw).andThen fun hv => .one ?_
    exact hv.bind name ⟨hw.position, by rw [hv.position, hw.position], h⟩
  | .choice alternatives, a, b, w, u, asks, h, hw => by
    rw [ways, ways]
    exact waysOfAlternatives_alike hf ha hg hb alternatives asks h hw
  | .oneOrMore body, a, b, w, u, asks, h, hw => by
    rw [ways, ways, ← hw.position, h.length hf ha hg hb]
    exact turns_alike (fun hv => ways_alike hf ha hg hb body asks h hv) _ hw
  | .backRef name, a, b, w, u, asks, h, hw => by
    have hbound := hw.bound name
    rw [ways, ways]
    generalize w.bound name = s, u.bound name = t at hbound ⊢
    cases hbound with
    | none => exact .nil
    | @some s t hs =>
      have hhere : Span.Alike f g ⟨a, w.position, s.length⟩ ⟨b, u.position, t.length⟩ :=
        ⟨hw.position, hs.length, h⟩
      simp only [hs.sameContent hf ha hg hb hhere]
      split
      · exact .one (hs.length ▸ hw.past s.length)
      · exact .nil
  | .check name test, a, b, w, u, asks, h, hw => by
    have hn := h.getElem? hf ha hg hb w.position
    rw [ways, ways, ← hw.position]
    generalize (f.nodesOf a)[w.position]? = n, (g.nodesOf b)[w.position]? = m at hn ⊢
    cases hn with
    | none => exact .nil
    | @some n m hn =>
      obtain ⟨v, hread, hread'⟩ := hn.value
      have htest := asks (name, test) List.mem_cons_self f g n m v hread hread'
      simp only at htest
      simp only [htest]
      split
      · exact .one (hw.past 1)
      · exact .nil
      · exact .cons (.error _) .nil
  | .atEnd, a, b, w, u, asks, h, hw => by
    rw [ways, ways, ← hw.position, h.length hf ha hg hb]
    split
    · exact .one hw
    · exact .nil

theorem waysOfItems_alike (hf : f.Closed) (ha : f.Acyclic) (hg : g.Closed) (hb : g.Acyclic) :
    ∀ (qs : List Pattern) {a b w u}, (∀ c ∈ checksOfItems qs, AsksValue c.2) →
      f.SameSeq g a b → Way.Alike f g w u →
      Choices.Alike (Way.Alike f g) (waysOfItems f qs a w) (waysOfItems g qs b u)
  | [], _, _, _, _, _, _, hw => .one hw
  | q :: qs, _, _, _, _, asks, h, hw =>
    (ways_alike hf ha hg hb q (fun c hc => asks c (List.mem_append_left _ hc)) h hw).andThen
      (waysOfItems_alike hf ha hg hb qs (fun c hc => asks c (List.mem_append_right _ hc)) h)

theorem waysOfAlternatives_alike (hf : f.Closed) (ha : f.Acyclic) (hg : g.Closed)
    (hb : g.Acyclic) : ∀ (qs : List Pattern) {a b w u}, (∀ c ∈ checksOfItems qs, AsksValue c.2) →
      f.SameSeq g a b → Way.Alike f g w u →
      Choices.Alike (Way.Alike f g) (waysOfAlternatives f qs a w) (waysOfAlternatives g qs b u)
  | [], _, _, _, _, _, _, _ => .nil
  | q :: qs, _, _, _, _, asks, h, hw =>
    (ways_alike hf ha hg hb q (fun c hc => asks c (List.mem_append_left _ hc)) h hw).append
      (waysOfAlternatives_alike hf ha hg hb qs (fun c hc => asks c (List.mem_append_right _ hc)) h
        hw)

end

end Pattern

open Pattern

variable {items : List Pattern} {p : Program} {v : Value}

/-- At every position of two sequences of the same value a program ends with the same error, finds
nothing in either, or finds matches that differ in the names of sequences only. -/
theorem Program.match_agrees (hp : compileAll items = .ok p)
    (asks : ∀ c ∈ p.checks, AsksValue c.2) (hf : f.Closed) (ha : f.Acyclic) (hg : g.Closed)
    (hb : g.Acyclic) (hread : f.readSeq a = .ok v) (hread' : g.readSeq b = .ok v)
    (start : Nat) :
    Agree (Option.Rel (Captures.Alike f g)) (p.match? f a start) (p.match? g b start) := by
  rw [Machine.match?_eq hp hf ha (Forest.contains_of_readSeq hread),
    Machine.match?_eq hp hg hb (Forest.contains_of_readSeq hread')]
  obtain ⟨rfl, -, -⟩ := compileAll_ok hp
  have h : f.SameSeq g a b := ⟨v, hread, hread'⟩
  have hw : Way.Alike f g ⟨start, fun _ => none⟩ ⟨start, fun _ => none⟩ := ⟨rfl, fun _ => .none⟩
  refine ((waysOfItems_alike hf ha hg hb items asks h hw).andThen fun hv => .one ?_).first
  refine ⟨⟨rfl, congrArg (· - start) hv.position, h⟩, ?_⟩
  rw [List.forall₂_map_left_iff, List.forall₂_map_right_iff, List.forall₂_same]
  exact fun name _ => hv.bound name

/-- In the one forest both children are the same sequence, in the other the second one is a copy. -/
theorem Program.match_agrees_shared :
    let items : List Pattern := [.named "x" [.check "nested" fun f n =>
      (orFault (f.read n)).map fun v => v.items?.isSome], .backRef "x"]
    let p := Program.ofItems items
    let f := ((Forest.ofValue (.seq [.scalar .null])).alloc [.seq ⟨0⟩, .seq ⟨0⟩]).2
    let g := Forest.ofValue (.seq [.seq [.scalar .null], .seq [.scalar .null]])
    Agree (Option.Rel (Captures.Alike f g)) (p.match? f ⟨1⟩ 0) (p.match? g ⟨2⟩ 0) ∧
      p.match? f ⟨1⟩ 0 = .ok (some ⟨⟨⟨1⟩, 0, 2⟩, [some ⟨⟨1⟩, 0, 1⟩]⟩) := by
  intro items p f g
  have hcompiled : Program.compileAll items = .ok p := by rfl
  have hholds : (Forest.ofValue (.seq [.scalar .null])).Holds [.seq ⟨0⟩, .seq ⟨0⟩] := by
    intro id hid
    obtain rfl : id = ⟨0⟩ := by simpa using hid
    rfl
  have hclosed : f.Closed := (Forest.closed_ofValue _).alloc hholds
  have hacyclic : f.Acyclic := (Forest.acyclic_ofValue _).alloc (Forest.closed_ofValue _) hholds
  have asks : ∀ c ∈ p.checks, AsksValue c.2 := by
    intro c hc f g n m v hread hread'
    obtain rfl := List.mem_singleton.1 hc
    simp only [hread, hread']
  have hvalue : f.readSeq ⟨1⟩ = .ok (.seq [.seq [.scalar .null], .seq [.scalar .null]]) := by
    rfl
  have hvalue' : g.readSeq ⟨2⟩ = .ok (.seq [.seq [.scalar .null], .seq [.scalar .null]]) := by
    rfl
  have hmatch : p.match? f ⟨1⟩ 0 = .ok (some ⟨⟨⟨1⟩, 0, 2⟩, [some ⟨⟨1⟩, 0, 1⟩]⟩) := by
    rw [Machine.match?_eq hcompiled hclosed hacyclic rfl]
    decide
  exact ⟨Program.match_agrees hcompiled asks hclosed hacyclic (Forest.closed_ofValue _)
    (Forest.acyclic_ofValue _) hvalue hvalue' 0, hmatch⟩

end NestedRegex
