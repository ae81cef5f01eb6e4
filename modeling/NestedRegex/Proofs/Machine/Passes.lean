import NestedRegex.Proofs.Machine.Answers
import NestedRegex.Proofs.Machine.Order
import NestedRegex.Proofs.Pattern.Parts

namespace NestedRegex

namespace Pattern

variable {slots : List String} {endAllowed : Bool} {q r : Pattern} {qs : List Pattern}

theorem readyItems_mem (h : ReadyItems slots qs endAllowed) (hr : r ∈ qs) :
    ∃ endAllowed, Ready slots r endAllowed := by
  induction qs with
  | nil => cases hr
  | cons q qs ih =>
    rcases List.mem_cons.1 hr with rfl | hr
    · exact ⟨_, h.1⟩
    · exact ih h.2 hr

theorem readyAlternatives_mem (h : ReadyAlternatives slots qs) (hr : r ∈ qs) :
    Ready slots r false := by
  induction qs with
  | nil => cases hr
  | cons q qs ih =>
    rcases List.mem_cons.1 hr with rfl | hr
    · exact h.1
    · exact ih h.2 hr

/-- The parts of a ready part are ready. -/
theorem ready_inside (h : Ready slots q endAllowed) (hr : r ∈ q.inside) :
    ∃ endAllowed, Ready slots r endAllowed := by
  cases q with
  | sequence items => exact readyItems_mem h hr
  | named name items => exact readyItems_mem h.2.2 hr
  | choice alternatives => exact ⟨false, readyAlternatives_mem h.2 hr⟩
  | oneOrMore body =>
    obtain rfl := List.mem_singleton.1 hr
    exact ⟨false, h⟩
  | literal _ | any | backRef _ | check _ _ | atEnd => cases hr

end Pattern

namespace Program

open Pattern

variable {p : Program} {address test : Nat} {q r : Pattern}

/-- The code of a part has the code of the parts inside it. -/
theorem partAt_inside (h : p.PartAt address test q) (hr : r ∈ q.inside) :
    ∃ address test, p.PartAt address test r := by
  obtain ⟨s, hs⟩ := mem_inside.1 hr
  exact ⟨_, h.inside hs⟩

/-- A compiled pattern has ready parts only, and the code of each of them. -/
theorem compiled_has {items : List Pattern} (h : compileAll items = .ok p)
    (hr : (sequence items).Has r) (hne : r ≠ .sequence items) :
    (∃ endAllowed, Ready p.names r endAllowed) ∧ ∃ address test, p.PartAt address test r := by
  obtain ⟨rfl, -, ready⟩ := compileAll_ok h
  obtain ⟨q, hq, hqr⟩ := (has_iff.1 hr).resolve_left hne
  obtain ⟨i, hi⟩ := List.getElem?_of_mem hq
  refine hqr.transfer (P := fun q => (∃ e, Ready (ofItems items).names q e) ∧
    ∃ address test, (ofItems items).PartAt address test q)
    ⟨readyItems_mem ready hq, _, (itemsAt_ofItems items).get hi⟩ ?_
  rintro q r ⟨⟨e, hready⟩, address, test, part⟩ hr
  exact ⟨ready_inside hready hr, partAt_inside part hr⟩

end Program

namespace Machine

open Pattern

/-- The machine passes once through code: from one address to another, which it comes to for the
first time, and without going back to what was before. -/
structure Pass (f : Forest) (p : Program) (address stop : Nat) (m m' : Machine) : Prop where
  starts : m.address = address
  stops : m'.address = stop
  goes : ∃ count, Progress.steps (step f p) count m = .more m' ∧
    ∀ k n, Progress.steps (step f p) k m = .more n →
      (k ≤ count → m.trail <:+ n.trail) ∧ (k < count → n.address ≠ stop)

variable {f : Forest} {p : Program} {m m' : Machine} {seq : SeqName} {items : List Pattern}
  {body : Pattern} {address test start : Nat} {b : Captures}

/-- A machine in order stands where it is with what some way has bound. -/
theorem InOrder.stands (h : InOrder f p m) (hd : p.names.Nodup) :
    ∃ w, Stands f p m m.address m.seq w := by
  have bindings : m.bindings =
      p.names.map fun name => (m.bindings[p.names.idxOf name]?).join := by
    apply List.ext_getElem
    · rw [List.length_map]
      exact h.bindings
    · intro i hi hn
      have hlt : i < p.names.length := (List.length_map _).symm ▸ hn
      rw [List.getElem_map, hd.idxOf_getElem i hlt, List.getElem?_eq_getElem hi]
      rfl
  refine ⟨⟨m.position, _⟩, rfl, rfl, h.there, rfl, bindings, h.starts, fun n s hs => ?_⟩
  exact h.solid s (List.mem_of_getElem? (Option.join_eq_some_iff.1 hs))

theorem length_trail_unwind {trail : List TrailMark} (h : m.unwind trail = some m') :
    m'.trail.length < trail.length := by
  induction trail generalizing m with
  | nil => cases h
  | cons mark trail ih =>
    cases mark with
    | choice _ _ _ =>
      obtain rfl := Option.some.inj h
      exact Nat.lt_succ_self _
    | bound _ _ | started _ _ | entered | left _ => exact Nat.lt_succ_of_lt (ih h)

/-- A pass through the body of a repetition goes ahead in its sequence. -/
theorem Pass.lt (pass : Pass f p address (address + body.size) m m') (hf : f.Closed)
    (ha : f.Acyclic) (hd : p.names.Nodup) (ready : Ready p.names body false)
    (part : p.PartAt address test body) (hm : InOrder f p m) :
    m'.seq = m.seq ∧ m.position < m'.position ∧ m'.position ≤ (f.nodesOf m.seq).length := by
  obtain ⟨w, hw⟩ := hm.stands hd
  rw [pass.starts] at hw
  let Ahead (k : Machine) : Prop := k.address = address + body.size →
    k.seq = m.seq ∧ m.position < k.position ∧ k.position ≤ (f.nodesOf m.seq).length
  have timeless : Timeless Ahead := by
    intro k n hb h
    have address : k.address = n.address := (congrArg Machine.address hb :)
    have seqs : k.seq = n.seq := (congrArg Machine.seq hb :)
    have position : k.position = n.position := (congrArg Machine.position hb :)
    simpa only [Ahead, address, seqs, position] using h
  have covers := (composes_covers hf hd).of_part hf ha body m.seq ready part
  have onward : Always f p (· ≠ address + body.size) Ahead m := by
    refine covers.leads hw (fun k _ _ hlt he => absurd he (Nat.ne_of_lt hlt)) ?_
    intro v k hv hk _
    have advances := ways_advance ready hw.solid hv
    refine .mk (fun _ => ⟨hk.seq, ?_, ?_⟩) fun n hn => ?_
    · rw [hw.position, hk.position]
      exact advances.lt
    · rw [hk.position]
      exact advances.inside
    · cases hn with
      | obey goes _ _ _ | otherwise goes _ _ => exact absurd hk.address goes
  obtain ⟨count, hcount, hgoes⟩ := pass.goes
  have sure : Sure f p (· ≠ address + body.size) Ahead m.trail m :=
    .mk onward fun k hk hb =>
      absurd (length_trail_unwind hk) (Nat.not_lt.2 hb.length_le)
  exact (sure.run timeless hcount (fun k hk n hn => (hgoes k n hn).2 hk)
    fun k hk n hn => (hgoes k n hn).1 hk).here pass.stops

/-- A run without choices to go back to stops. -/
theorem Explores.stops {cs : Choices Captures} {depth : Nat} (h : Explores f p m cs depth)
    (ht : m.trail = []) :
    ∃ count outcome, count < 2 ^ depth ∧ Progress.steps (step f p) count m = .done outcome := by
  obtain ⟨count, hlt, found⟩ := h.finds rfl
  match cs, found with
  | [], ⟨steps, found⟩ =>
    simp only [backtrack, ht, unwind] at found
    obtain ⟨last, found⟩ := found
    exact ⟨count, _, hlt, found⟩
  | .ok b :: _, ⟨last, found⟩ => exact ⟨count, _, hlt, found⟩
  | .error e :: _, found => exact ⟨count, _, hlt, found⟩

/-- A run stops, and what it stops with is its outcome. -/
theorem steps_run (h : Program.compileAll items = .ok p) (hf : f.Closed) (ha : f.Acyclic)
    (hc : f.contains seq = true) (m : Machine) (start : Nat) :
    ∃ count, count < 2 ^ fullLevel f p ∧
      Progress.steps (step f p) count (m.start p seq start) = .done (m.run f p seq start) := by
  obtain ⟨count, outcome, hlt, hs⟩ := (explores_start h hf ha hc m start).stops rfl
  have hle : count ≤ Nat.pow 2 Progress.usualLevel + Nat.pow 2 (fullLevel f p) :=
    Nat.le_trans (Nat.le_of_lt hlt) (Nat.le_add_left (2 ^ fullLevel f p) _)
  have hrun : m.run f p seq start = outcome := by
    unfold run Machine.finish
    rw [Progress.finish_eq_steps, Progress.steps_done_mono hs hle]
  exact ⟨count, hlt, hrun ▸ hs⟩

/-- Where no test fails, a run has an answer. -/
theorem run_ok (h : Program.compileAll items = .ok p) (hf : f.Closed) (ha : f.Acyclic)
    (hc : f.contains seq = true)
    (passes : ∀ c ∈ p.checks, ∀ n, f.Holds [n] → ∃ passed, c.2 f n = .ok passed) (m : Machine)
    (start : Nat) : ∃ answer, m.run f p seq start = .ok answer := by
  obtain ⟨count, -, hs⟩ := steps_run h hf ha hc m start
  obtain ⟨k, last, hk, hlast⟩ := Progress.steps_done_last hs
  have order := inOrder_of_steps h hf ha hc hk
  cases hrun : m.run f p seq start with
  | ok answer => exact ⟨answer, rfl⟩
  | error e =>
    rw [hrun] at hlast
    obtain ⟨name, test, n, failure, hn, hcheck, hfails, -⟩ :=
      fromTestAt_of_step order (confined_of_compiled h) hf ha hlast
    have holds := hf.holds_of_mem (Forest.nodesOf_of_contains order.there) hn
    obtain ⟨passed, hpassed⟩ := passes (name, test) hcheck n holds
    cases hpassed.symm.trans hfails

/-- What a run finds is empty only where nothing but the end is required. -/
theorem whole_pos (h : Program.compileAll items = .ok p) (hi : items ≠ [.atEnd])
    (hb : .ok b ∈ matchings f items seq start) : 0 < b.whole.length := by
  obtain ⟨-, hne, ready⟩ := Program.compileAll_ok h
  obtain ⟨v, hv, hb⟩ := Choices.mem_andThen hb
  obtain rfl : b = ⟨⟨seq, start, v.position - start⟩, (names items).map v.bound⟩ := by
    simpa using hb
  have hsolid : Way.Solid ⟨start, fun _ => none⟩ := by exact nofun
  cases items with
  | nil => exact absurd rfl hne
  | cons q qs =>
    have hq : q ≠ .atEnd := by
      rintro rfl
      have hqs : qs.isEmpty = true := by simpa [Ready] using ready.1
      exact hi (by rw [List.isEmpty_iff.1 hqs])
    rw [waysOfItems] at hv
    obtain ⟨u, hu, hv⟩ := Choices.mem_andThen hv
    have advances := ways_advance (ready.1.of_ne_atEnd hq) hsolid hu
    have rest := (waysOfItems_follow qs ready.2 (advances.solid hsolid) hv).1
    exact Nat.sub_pos_of_lt (Nat.lt_of_lt_of_le advances.lt rest.le)

/-- A run stops, because it cannot go on without stepping over nodes: every pass through the body of
a repetition does, no machine of the run has an empty span bound, and a match is not empty unless
nothing but the end is required. -/
theorem run_stops_and_consumes (h : Program.compileAll items = .ok p) (hf : f.Closed)
    (ha : f.Acyclic) (hc : f.contains seq = true) (m : Machine) (start : Nat) :
    (∃ count, count < 2 ^ fullLevel f p ∧
      Progress.steps (step f p) count (m.start p seq start) = .done (m.run f p seq start)) ∧
    (∀ body, (sequence items).Has (.oneOrMore body) →
      (∃ address test, p.PartAt address test (.oneOrMore body)) ∧
      ∀ address test count m₁ m₂, p.PartAt address test (.oneOrMore body) →
        Progress.steps (step f p) count (m.start p seq start) = .more m₁ →
        Pass f p address (address + body.size) m₁ m₂ →
        m₂.seq = m₁.seq ∧ m₁.position < m₂.position ∧
          m₂.position ≤ (f.nodesOf m₁.seq).length) ∧
    (∀ count m', Progress.steps (step f p) count (m.start p seq start) = .more m' →
      ∀ s, some s ∈ m'.bindings → 0 < s.length) ∧
    (∀ b last, m.run f p seq start = .ok (some b, last) → items ≠ [.atEnd] →
      0 < b.whole.length) := by
  refine ⟨steps_run h hf ha hc m start, fun body hbody => ?_, fun count m' hs => ?_,
    fun b last hrun hi => ?_⟩
  · obtain ⟨⟨endAllowed, ready⟩, part⟩ := Program.compiled_has h hbody nofun
    have hd : p.names.Nodup := by
      obtain ⟨rfl, -, -⟩ := Program.compileAll_ok h
      exact nodup_names items
    refine ⟨part, fun address test count m₁ m₂ part hs pass => ?_⟩
    exact pass.lt hf ha hd ready part.oneOrMore.1 (inOrder_of_steps h hf ha hc hs)
  · exact (inOrder_of_steps h hf ha hc hs).solid
  · have hfirst := run_eq h hf ha hc m start
    rw [hrun] at hfirst
    exact whole_pos h hi (Choices.mem_of_first hfirst.symm)

/-- The second turn of a repetition, with a choice to go back to before it. -/
theorem run_stops_and_consumes_turn :
    let items : List Pattern := [.oneOrMore .any]
    let v : Value := .seq [.scalar (.int 1), .scalar (.int 2)]
    let f := Forest.ofValue v
    let p := Program.ofItems items
    let m₁ : Machine := ⟨0, f.root, 0, f.root, 1, [], [], [], [.choice 2 f.root 1], 2⟩
    let m₂ : Machine := ⟨1, f.root, 0, f.root, 2, [], [], [], [.choice 2 f.root 1], 3⟩
    Program.compileAll items = .ok p ∧
      Progress.steps (step f p) 2 (new.start p f.root 0) = .more m₁ ∧ Pass f p 0 1 m₁ m₂ ∧
      m₁.position < m₂.position ∧
      ∃ count, Progress.steps (step f p) count (new.start p f.root 0) =
        .done (new.run f p f.root 0) := by
  intro items v f p m₁ m₂
  have hcompiled : Program.compileAll items = .ok p := by rfl
  obtain ⟨⟨count, -, hrun⟩, passes, -, -⟩ := run_stops_and_consumes hcompiled
    (Forest.closed_ofValue v) (Forest.acyclic_ofValue v) (Forest.contains_root_ofValue v) new 0
  have hbody : (sequence items).Has (.oneOrMore .any) := ⟨[.item 0], rfl⟩
  have part : p.PartAt 0 0 (.oneOrMore .any) := ⟨⟨[.accept], rfl⟩, ⟨[], rfl⟩⟩
  have hs : Progress.steps (step f p) 2 (new.start p f.root 0) = .more m₁ := by rfl
  have pass : Pass f p 0 1 m₁ m₂ := by
    refine ⟨rfl, rfl, 1, rfl, fun k n hn => ⟨fun hk => ?_, fun hk => ?_⟩⟩
    · match k, hk with
      | 0, _ | 1, _ =>
        obtain rfl := Progress.more.inj hn
        exact List.suffix_refl _
    · obtain rfl : k = 0 := Nat.lt_one_iff.1 hk
      obtain rfl := Progress.more.inj hn
      exact Nat.zero_ne_one
  exact ⟨hcompiled, hs, pass,
    ((passes .any hbody).2 0 0 2 m₁ m₂ part hs pass).2.1, count, hrun⟩

end Machine

end NestedRegex
