import NestedRegex.Proofs.Machine.Parts

namespace NestedRegex.Machine

open Pattern

variable {f : Forest} {p : Program} {m m' : Machine} {address stop size test : Nat}
  {own : List String} {seq : SeqName} {w v : Way} {items : List Pattern} {q body : Pattern}
  {name : String}

theorem runs_sequence (hf : f.Closed) (enter : p.InstrAt address .enter)
    (exit : p.InstrAt stop .exit)
    (inside : ∀ inner, f.contains inner = true →
      Runs f p (address + 1) stop size own inner (waysOfItems f items inner)) :
    Runs f p address (stop + 1) (size + 2) own seq (ways f (.sequence items) seq) := by
  have enters : ∀ a b, Instr.enter ≠ .split a b := nofun
  have exits : ∀ a b, Instr.exit ≠ .split a b := nofun
  refine ⟨fun {m w depth next} hm follow => ?_⟩
  have hcode : p.code[m.address]? = some .enter := hm.address ▸ enter
  have hroom := room_add f size 2
  have htwo := le_room f 2
  by_cases hi : ∃ inner, (f.nodesOf seq)[w.position]? = some (.seq inner)
  · obtain ⟨inner, hi⟩ := hi
    have hmi : (f.nodesOf m.seq)[m.position]? = some (.seq inner) := by rw [hm.seq, hm.position, hi]
    have hinner : f.contains inner = true := hf.child (Forest.child_of_getElem? hi)
    have hs : Stands f p { m with
        address := m.address + 1, seq := inner, position := 0
        outers := ⟨m.seq, m.position + 1⟩ :: m.outers, trail := .entered :: m.trail }
        (address + 1) inner { w with position := 0 } :=
      ⟨congrArg (· + 1) hm.address, rfl, hinner, rfl, hm.bindings, hm.starts, hm.solid⟩
    rw [ways] at follow ⊢
    simp only [hi] at follow ⊢
    rw [Choices.andThen_assoc]
    refine Explores.mono (.next hcode enters (obey_enter hm.there hmi)
      ((inside inner hinner).leads hs fun u m' hu hm' hk => ?_))
      (show depth + 1 + room f size + 1 ≤ depth + room f (size + 2) by omega)
    have hout : p.code[m'.address]? = some .exit := hm'.address ▸ exit
    have hobey := obey_exit (f := f) (p := p) hm'.there hk.outers
    rw [hm'.seq, hm'.position] at hobey
    by_cases he : u.position = (f.nodesOf inner).length
    · rw [if_pos he] at hobey ⊢
      rw [Choices.andThen_ok, Choices.andThen_nil, List.append_nil]
      have hv : .ok { u with position := w.position + 1 } ∈
          (waysOfItems f items inner { w with position := 0 }).andThen fun v =>
            if v.position = (f.nodesOf inner).length then
              [.ok { v with position := w.position + 1 }]
            else [] :=
        Choices.mem_andThen_of_mem hu (by rw [if_pos he]; exact List.mem_cons_self)
      refine .next hout exits hobey (follow _ _ hv ?_ ⟨hk.home, hk.first, rfl, hk.starts⟩)
      exact ⟨congrArg (· + 1) hm'.address, hm.seq, hm.there, congrArg (· + 1) hm.position,
        hm'.bindings, hm'.starts, hm'.solid⟩
    · rw [if_neg he] at hobey ⊢
      exact .fail hout nofun hobey
  · have hnone : ∀ inner, (f.nodesOf m.seq)[m.position]? ≠ some (.seq inner) := by
      intro inner h
      exact hi ⟨inner, by rw [← hm.seq, ← hm.position, h]⟩
    have hfail : Explores f p m [] (depth + 1) :=
      .fail hcode nofun (obey_enter_none hm.there hnone)
    have hways : ways f (.sequence items) seq w = [] := by
      rw [ways]
      split
      · next inner h => exact absurd ⟨inner, h⟩ hi
      · rfl
    rw [hways]
    exact hfail.mono (show depth + 1 ≤ depth + room f (size + 2) by omega)

theorem runs_named (hd : p.names.Nodup) (hn : name ∈ p.names) (fresh : name ∉ own)
    (ready : ReadyItems p.names items false) (hne : items ≠ [])
    (opens : p.InstrAt address (.openSlot (slotOf p.names name)))
    (closes : p.InstrAt stop (.closeSlot (slotOf p.names name)))
    (inside : Runs f p (address + 1) stop size own seq (waysOfItems f items seq)) :
    Runs f p address (stop + 1) (size + 2) (name :: own) seq (ways f (.named name items) seq) := by
  refine ⟨fun {m w depth next} hm follow => ?_⟩
  have hcode : p.code[m.address]? = some (.openSlot (slotOf p.names name)) := hm.address ▸ opens
  have hroom := room_add f size 2
  have htwo := le_room f 2
  have hslot : (slotOf p.names name).index < p.names.length := List.idxOf_lt_length_iff.2 hn
  have hstart : (slotOf p.names name).index < m.starts.length := hm.starts ▸ hslot
  have hs : Stands f p { m with
      address := m.address + 1
      starts := m.starts.set (slotOf p.names name).index m.position
      trail := .started (slotOf p.names name) m.starts[(slotOf p.names name).index] :: m.trail }
      (address + 1) seq w :=
    ⟨congrArg (· + 1) hm.address, hm.seq, hm.there, hm.position, hm.bindings,
      (List.length_set ..).trans hm.starts, hm.solid⟩
  have hways : ways f (.named name items) seq w =
      (waysOfItems f items seq w).andThen fun v =>
        [.ok (v.bind name ⟨seq, w.position, v.position - w.position⟩)] := by
    cases items with
    | nil => exact absurd rfl hne
    | cons q qs => rw [ways]
  rw [hways] at follow ⊢
  rw [Choices.andThen_assoc]
  refine Explores.mono (.next hcode nofun (obey_openSlot (List.getElem?_eq_getElem hstart))
    (inside.leads hs fun u m' hu hm' hk => ?_))
    (show depth + 1 + room f size + 1 ≤ depth + room f (size + 2) by omega)
  rw [Choices.andThen_ok, Choices.andThen_nil, List.append_nil]
  have hout : p.code[m'.address]? = some (.closeSlot (slotOf p.names name)) := hm'.address ▸ closes
  have hq : m'.starts[(slotOf p.names name).index]? = some w.position := by
    rw [hk.starts name fresh, List.getElem?_set_self hstart, hm.position]
  have hb : m'.bindings[(slotOf p.names name).index]? = some (u.bound name) := by
    rw [hm'.bindings, bound_slotOf hn]
  have ha := (waysOfItems_follow items ready hm.solid hu).2.2 rfl hne
  refine .next hout nofun (obey_closeSlot hb hq)
    (follow _ _ (Choices.mem_andThen_of_mem hu List.mem_cons_self) ?_ ?_)
  · refine ⟨congrArg (· + 1) hm'.address, hm'.seq, hm'.there, hm'.position, ?_, hm'.starts, ?_⟩
    · rw [hm'.bindings, hm'.seq, hm'.position]
      exact set_slotOf hd hn _
    · exact (ha.toFollows.bind name ha.lt ha.inside).solid hm.solid
  · refine ⟨hk.home, hk.first, hk.outers, fun other ho => ?_⟩
    rw [List.mem_cons, not_or] at ho
    rw [hk.starts other ho.2]
    exact List.getElem?_set_ne (slotOf_ne hn ho.1)

/-- A repetition turns as often as there are nodes left, and fails on the next turn. -/
theorem runs_oneOrMore (ready : Ready p.names body false)
    (code : p.InstrAt stop (.split address (stop + 1)))
    (inside : Runs f p address stop size own seq (ways f body seq)) :
    Runs f p address (stop + 1) (size + 1) own seq (ways f (.oneOrMore body) seq) := by
  -- By induction on the number of nodes that are left.
  have turns : ∀ (left : Nat) {m w depth deep} {next : Way → Choices Captures},
      Stands f p m address seq w → (f.nodesOf seq).length ≤ w.position + left →
      (∀ v m', .ok v ∈ ways f (.oneOrMore body) seq w → Stands f p m' (stop + 1) seq v →
        Keeps p own m m' → Explores f p m' (next v) depth) →
      depth + (left + 1) * (room f size + 1) ≤ deep + 1 →
      Explores f p m ((ways f (.oneOrMore body) seq w).andThen next) deep := by
    intro left
    induction left with
    | zero =>
      intro m w depth deep next hm hl follow hd
      rw [ways_oneOrMore ready hm.solid, Choices.andThen_assoc]
      refine (inside.leads hm fun v m' hv hm' hk => ?_).mono
        (show depth + room f size ≤ deep by omega)
      have ha := ways_advance ready hm.solid hv
      have hlt := ha.lt
      have hin := ha.inside
      omega
    | succ left ih =>
      intro m w depth deep next hm hl follow hd
      rw [ways_oneOrMore ready hm.solid] at follow ⊢
      rw [Choices.andThen_assoc]
      rw [Nat.succ_mul] at hd
      have hpos : 0 < (left + 1) * (room f size + 1) := Nat.mul_pos (by omega) (by omega)
      obtain ⟨most, hmost⟩ : ∃ most, depth + (left + 1) * (room f size + 1) = most + 1 :=
        ⟨depth + (left + 1) * (room f size + 1) - 1, by omega⟩
      refine (inside.leads hm fun v m' hv hm' hk => ?_).mono
        (show most + 1 + room f size ≤ deep by omega)
      have hcode : p.code[m'.address]? = some (.split address (stop + 1)) := hm'.address ▸ code
      have moved : ∀ target, Stands f p { m' with address := target } target seq v := fun _ =>
        ⟨rfl, hm'.seq, hm'.there, hm'.position, hm'.bindings, hm'.starts, hm'.solid⟩
      have kept : ∀ target, Keeps p own m { m' with address := target } := fun _ =>
        ⟨hk.home, hk.first, hk.outers, hk.starts⟩
      have hlt := (ways_advance ready hm.solid hv).lt
      rw [Choices.andThen_append, Choices.andThen_ok, Choices.andThen_nil, List.append_nil]
      refine .split hcode ?_ ?_
      · refine ih (moved address) (by omega) (fun u n hu hn hkn => ?_) (Nat.le_of_eq hmost)
        exact follow u n (Choices.mem_andThen_of_mem hv (List.mem_append_left _ hu)) hn
          ((kept address).trans hkn)
      · refine (follow v _ (Choices.mem_andThen_of_mem hv (by simp)) (moved _) (kept _)).mono ?_
        omega
  refine ⟨fun {m w depth next} hm follow => ?_⟩
  refine turns _ hm (Nat.le_add_left _ _) follow ?_
  have hlen := length_le_longest f seq
  have hpow : room f (size + 1) + 1 = (f.longest + 2) * (room f size + 1) := by
    have pos : ∀ k, 0 < (f.longest + 2) ^ k := fun k => Nat.pow_pos (Nat.succ_pos _)
    rw [room, room, Nat.sub_add_cancel (pos _), Nat.sub_add_cancel (pos _), Nat.pow_succ,
      Nat.mul_comm]
  have hmul : ((f.nodesOf seq).length + 1) * (room f size + 1) ≤
      (f.longest + 2) * (room f size + 1) := Nat.mul_le_mul_right _ (by omega)
  omega

section Moves

variable (hm : Stands f p m address seq w)
include hm

theorem moves_literal (s : Scalar) : Moves f p m (.scalar s) w (ways f (.literal s) seq w) := by
  have hobey := obey_scalar (f := f) (p := p) hm.there s
  rw [hm.seq, hm.position] at hobey
  rw [ways]
  by_cases h : (f.nodesOf seq)[w.position]? = some (.scalar s)
  · rw [if_pos h] at hobey ⊢
    exact .pass 1 hobey
  · rw [if_neg h] at hobey ⊢
    exact .fail hobey

theorem moves_any : Moves f p m .any w (ways f .any seq w) := by
  have hobey := obey_any (f := f) (p := p) hm.there
  rw [hm.seq, hm.position] at hobey
  rw [ways]
  by_cases h : w.position < (f.nodesOf seq).length
  · rw [if_pos h] at hobey ⊢
    exact .pass 1 hobey
  · rw [if_neg h] at hobey ⊢
    exact .fail hobey

theorem moves_atEnd : Moves f p m .atEnd w (ways f .atEnd seq w) := by
  have hobey := obey_atEnd (f := f) (p := p) hm.there
  rw [hm.seq, hm.position] at hobey
  rw [ways]
  by_cases h : w.position = (f.nodesOf seq).length
  · rw [if_pos h] at hobey ⊢
    exact .pass 0 hobey
  · rw [if_neg h] at hobey ⊢
    exact .fail hobey

theorem moves_check {test : Test} {index : Nat} (hc : p.checks[index]? = some (name, test)) :
    Moves f p m (.check index) w (ways f (.check name test) seq w) := by
  rw [ways]
  cases hn : (f.nodesOf seq)[w.position]? with
  | none => exact .fail (obey_check_none hm.there (by rw [hm.seq, hm.position, hn]))
  | some n =>
    have hobey := obey_check (p := p) hm.there (by rw [hm.seq, hm.position, hn]) hc
    simp only
    cases ht : test f n with
    | error e =>
      rw [ht] at hobey
      exact .error hobey
    | ok passed =>
      rw [ht] at hobey
      cases passed with
      | true => exact .pass 1 hobey
      | false => exact .fail hobey

theorem moves_backRef (hf : f.Closed) (ha : f.Acyclic) (hn : name ∈ p.names) :
    Moves f p m (.backRef (slotOf p.names name)) w (ways f (.backRef name) seq w) := by
  have hb : m.bindings[(slotOf p.names name).index]? = some (w.bound name) := by
    rw [hm.bindings, bound_slotOf hn]
  rw [ways]
  cases hs : w.bound name with
  | none => exact .fail (obey_backRef_unbound (hs ▸ hb))
  | some s =>
    have hobey := obey_backRef (p := p) hm.there hf ha (hs ▸ hb)
    rw [hm.seq, hm.position] at hobey
    simp only
    by_cases h : f.sameContent s ⟨seq, w.position, s.length⟩ = true
    · rw [if_pos h] at hobey ⊢
      exact .pass s.length hobey
    · rw [if_neg h] at hobey ⊢
      exact .fail hobey

end Moves

theorem ways_named_nil : ways f (.named name []) seq = ways f (.named name [.any]) seq := by
  funext w
  rw [ways, ways, waysOfItems, ways]
  by_cases h : w.position < (f.nodesOf seq).length
  · rw [if_pos h, if_pos h]
    simp [waysOfItems, Way.past]
  · rw [if_neg h, if_neg h]
    rfl

theorem waysOfAlternatives_single (q : Pattern) :
    waysOfAlternatives f [q] seq = ways f q seq := by
  funext w
  rw [waysOfAlternatives, waysOfAlternatives, List.append_nil]

/-- An instruction that looks at the nodes here and may step over them. -/
def Plain : Instr → Prop
  | .scalar _ | .any | .atEnd | .backRef _ | .check _ => True
  | .enter | .exit | .openSlot _ | .closeSlot _ | .split _ _ | .jump _ | .accept => False

/-- What is so of code between two addresses, of its size, of the names that it captures and of its
ways in a sequence, if it is so of the pieces that the code is put together from. -/
structure Composes (f : Forest) (p : Program)
    (R : Nat → Nat → Nat → List String → SeqName → (Way → Choices Way) → Prop) : Prop where
  single : ∀ {address i own seq ways}, p.InstrAt address i → Plain i →
    (∀ {m w}, Stands f p m address seq w → Moves f p m i w (ways w)) →
    R address (address + 1) 1 own seq ways
  nil : ∀ {address own seq}, R address address 0 own seq fun w => [.ok w]
  mono : ∀ {address stop size own own' seq ways}, R address stop size own seq ways → own ⊆ own' →
    R address stop size own' seq ways
  append : ∀ {address stop stop' size size' own seq ways ways'},
    R address stop size own seq ways → R stop stop' size' own seq ways' →
    R address stop' (size + size') own seq fun w => (ways w).andThen ways'
  leave : ∀ {address stop target size own seq ways}, R address stop size own seq ways →
    p.InstrAt stop (.jump target) → stop < target → R address target (size + 1) own seq ways
  choose : ∀ {address preferred otherwise stop size size' own seq ways ways'},
    p.InstrAt address (.split preferred otherwise) → address < preferred → address < otherwise →
    R preferred stop size own seq ways → R otherwise stop size' own seq ways' →
    R address stop (size + size' + 1) own seq fun w => ways w ++ ways' w
  sequence : ∀ {address stop size own seq items}, p.InstrAt address .enter → p.InstrAt stop .exit →
    address < stop →
    (∀ inner, f.contains inner = true →
      R (address + 1) stop size own inner (waysOfItems f items inner)) →
    R address (stop + 1) (size + 2) own seq (ways f (.sequence items) seq)
  named : ∀ {address stop size own seq name items}, name ∈ p.names → name ∉ own →
    ReadyItems p.names items false → items ≠ [] →
    p.InstrAt address (.openSlot (slotOf p.names name)) →
    p.InstrAt stop (.closeSlot (slotOf p.names name)) →
    R (address + 1) stop size own seq (waysOfItems f items seq) →
    R address (stop + 1) (size + 2) (name :: own) seq (ways f (.named name items) seq)
  oneOrMore : ∀ {address stop size own seq body}, Ready p.names body false →
    p.InstrAt stop (.split address (stop + 1)) → R address stop size own seq (ways f body seq) →
    R address (stop + 1) (size + 1) own seq (ways f (.oneOrMore body) seq)

namespace Composes

variable {R : Nat → Nat → Nat → List String → SeqName → (Way → Choices Way) → Prop}

mutual

/-- It is so of the code of every part. -/
theorem of_part (h : Composes f p R) (hf : f.Closed) (ha : f.Acyclic) :
    ∀ (q : Pattern) (seq : SeqName) {endAllowed address test}, Ready p.names q endAllowed →
      p.PartAt address test q →
      R address (address + q.size) q.size (captures q) seq (ways f q seq)
  | .literal s, seq, endAllowed, address, test, ready, part =>
    h.single (Program.instrAt_of_standsAt part.code) trivial fun hm => moves_literal hm s
  | .any, seq, endAllowed, address, test, ready, part =>
    h.single (Program.instrAt_of_standsAt part.code) trivial moves_any
  | .atEnd, seq, endAllowed, address, test, ready, part =>
    h.single (Program.instrAt_of_standsAt part.code) trivial moves_atEnd
  | .check _ _, seq, endAllowed, address, test, ready, part =>
    h.single (Program.instrAt_of_standsAt part.code) trivial fun hm =>
      moves_check hm part.checks.head
  | .backRef _, seq, endAllowed, address, test, ready, part =>
    h.single (Program.instrAt_of_standsAt part.code) trivial fun hm =>
      moves_backRef hm hf ha ready
  | .sequence items, seq, endAllowed, address, test, ready, part => by
    obtain ⟨enter, inside, exit⟩ := part.sequence
    have hs : R address (address + 1 + sizeOfItems items + 1) (sizeOfItems items + 2)
        (capturesOfItems items) seq (ways f (.sequence items) seq) :=
      h.sequence enter exit (by omega) fun inner _ => h.of_items hf ha items inner ready inside
    have hstop : address + size (.sequence items) = address + 1 + sizeOfItems items + 1 := by
      simp only [size]
      omega
    rw [hstop]
    exact hs
  | .named name [], seq, endAllowed, address, test, ready, part => by
    obtain ⟨opens, inside, closes⟩ := part.named_nil.named
    have hi : R (address + 1) (address + 2) 1 [] seq (waysOfItems f [.any] seq) :=
      h.append (h.single (Program.instrAt_of_standsAt inside.code) trivial moves_any) h.nil
    rw [ways_named_nil]
    exact h.named ready.1 List.not_mem_nil ⟨trivial, trivial⟩ (by simp) opens closes hi
  | .named name (q :: qs), seq, endAllowed, address, test, ready, part => by
    obtain ⟨opens, inside, closes⟩ := part.named
    have hn := h.named ready.1 ready.2.1 ready.2.2 (by simp) opens closes
      (h.of_items hf ha (q :: qs) seq ready.2.2 inside)
    have hstop : address + size (.named name (q :: qs)) =
        address + 1 + sizeOfItems (q :: qs) + 1 := by
      simp only [size, List.isEmpty_cons]
      change address + (sizeOfItems (q :: qs) + 2) = _
      omega
    rw [hstop]
    exact hn
  | .choice alternatives, seq, endAllowed, address, test, ready, part => by
    have hways : ways f (.choice alternatives) seq = waysOfAlternatives f alternatives seq := by
      funext w
      rw [ways]
    rw [hways]
    exact h.of_alternatives hf ha alternatives seq ready.1 ready.2 part.choice rfl
  | .oneOrMore body, seq, endAllowed, address, test, ready, part => by
    obtain ⟨inside, code⟩ := part.oneOrMore
    exact h.oneOrMore ready code (h.of_part hf ha body seq ready inside)

theorem of_items (h : Composes f p R) (hf : f.Closed) (ha : f.Acyclic) :
    ∀ (qs : List Pattern) (seq : SeqName) {endAllowed address test},
      ReadyItems p.names qs endAllowed → p.ItemsAt address test qs →
      R address (address + sizeOfItems qs) (sizeOfItems qs) (capturesOfItems qs) seq
        (waysOfItems f qs seq)
  | [], seq, endAllowed, address, test, ready, part => h.nil
  | q :: qs, seq, endAllowed, address, test, ready, part => by
    have hq := h.mono (h.of_part hf ha q seq ready.1 part.head)
      (List.subset_append_left _ (capturesOfItems qs))
    have hqs := h.mono (h.of_items hf ha qs seq ready.2 part.tail)
      (List.subset_append_right (captures q) _)
    have hall := h.append hq hqs
    rw [Nat.add_assoc] at hall
    exact hall

theorem of_alternatives (h : Composes f p R) (hf : f.Closed) (ha : f.Acyclic) :
    ∀ (qs : List Pattern) (seq : SeqName) {address test leave}, qs ≠ [] →
      ReadyAlternatives p.names qs → p.AlternativesAt address test leave qs →
      leave = address + sizeOfAlternatives qs →
      R address leave (sizeOfAlternatives qs) (capturesOfItems qs) seq
        (waysOfAlternatives f qs seq)
  | [], seq, address, test, leave, hne, ready, part, hleave => absurd rfl hne
  | [q], seq, address, test, leave, hne, ready, part, hleave => by
    have hq := h.of_part hf ha q seq ready.1 part.single
    rw [waysOfAlternatives_single, hleave]
    exact h.mono hq (List.subset_append_left _ [])
  | q :: r :: qs, seq, address, test, leave, hne, ready, part, hleave => by
    obtain ⟨code, first, jump, rest⟩ := part.cons
    have hrest : leave = address + q.size + 2 + sizeOfAlternatives (r :: qs) := by
      rw [hleave, sizeOfAlternatives]
      omega
    have hq := h.mono (h.leave (h.of_part hf ha q seq ready.1 first) jump (by omega))
      (List.subset_append_left _ (capturesOfItems (r :: qs)))
    have hqs := h.mono (h.of_alternatives hf ha (r :: qs) seq (by simp) ready.2 rest hrest)
      (List.subset_append_right (captures q) _)
    have hall := h.choose code (by omega) (by omega) hq hqs
    have hsize : q.size + 1 + sizeOfAlternatives (r :: qs) + 1 =
        sizeOfAlternatives (q :: r :: qs) := by
      rw [sizeOfAlternatives]
      omega
    rw [hsize] at hall
    exact hall

end

end Composes

/-- Code that leads to what its ways lead to is put together from such code. -/
theorem composes_runs (hf : f.Closed) (hd : p.names.Nodup) : Composes f p (Runs f p) where
  single code plain moves :=
    .single code (by rintro rfl; exact plain) (by rintro _ _ rfl; exact plain) moves
  nil := .nil
  mono := .mono
  append := .append
  leave h code _ := h.leave code
  choose code _ _ h h' := h.choose code h'
  sequence enter exit _ inside := runs_sequence hf enter exit inside
  named hn fresh ready hne opens closes inside :=
    runs_named hd hn fresh ready hne opens closes inside
  oneOrMore := runs_oneOrMore

/-- The code of items leads to what the ways of the items lead to. -/
theorem runs_items (hf : f.Closed) (ha : f.Acyclic) (hd : p.names.Nodup) (qs : List Pattern)
    (seq : SeqName) {endAllowed : Bool} (ready : ReadyItems p.names qs endAllowed)
    (part : p.ItemsAt address test qs) :
    Runs f p address (address + sizeOfItems qs) (sizeOfItems qs) (capturesOfItems qs) seq
      (waysOfItems f qs seq) :=
  (composes_runs hf hd).of_items hf ha qs seq ready part

end NestedRegex.Machine
