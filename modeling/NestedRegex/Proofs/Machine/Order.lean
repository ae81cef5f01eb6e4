import NestedRegex.Proofs.Forest.Load
import NestedRegex.Proofs.Machine.Branches
import NestedRegex.Proofs.Machine.Forward

namespace NestedRegex.Machine

open Pattern

variable {f : Forest} {p : Program} {m m' n : Machine} {seq : SeqName} {items : List Pattern}
  {inner : Nat → Prop} {Q : Machine → Prop} {base : List TrailMark} {count : Nat}

/-- It holds of what does not depend on the past of a machine. -/
def Timeless (Q : Machine → Prop) : Prop :=
  ∀ m n : Machine, m.bare = n.bare → Q n → Q m

theorem timeless_inOrder : Timeless (InOrder f p) := by
  intro m n hb h
  have seqs : m.seq = n.seq := (congrArg Machine.seq hb :)
  have bindings : m.bindings = n.bindings := (congrArg Machine.bindings hb :)
  have starts : m.starts = n.starts := (congrArg Machine.starts hb :)
  obtain ⟨i, code, meets⟩ := h.code
  have address : m.address = n.address := (congrArg Machine.address hb :)
  have meets' : m.Meets i := by
    have outers : m.outers = n.outers := (congrArg Machine.outers hb :)
    have position : m.position = n.position := (congrArg Machine.position hb :)
    cases i <;> first | trivial | simpa only [Meets, outers, starts, position] using meets
  exact ⟨seqs ▸ h.there, bindings ▸ h.bindings, starts ▸ h.starts, bindings ▸ h.solid, i,
    address ▸ code, meets'⟩

theorem Always.of_bare (hQ : Timeless Q) (h : Always f p inner Q n) (hb : m.bare = n.bare) :
    Always f p inner Q m := by
  cases h with
  | mk here onward =>
    have address : m.address = n.address := (congrArg Machine.address hb :)
    refine .mk (hQ m n hb here) fun k hk => onward k ?_
    cases hk with
    | obey goes code obeyed same =>
      obtain ⟨n', hn, hb'⟩ := obey_some_congr hb.symm obeyed
      exact .obey (address ▸ goes) (address ▸ code) hn (same.trans hb'.symm)
    | @otherwise first second goes code same =>
      refine .otherwise (address ▸ goes) (address ▸ code) (same.trans ?_)
      exact congrArg (fun b : Machine => { b with address := second }) hb

/-- It holds of all that the machine leads to, and of all that the choices lead to which it can go
back to, down to a trail. -/
inductive Sure (f : Forest) (p : Program) (inner : Nat → Prop) (Q : Machine → Prop)
    (base : List TrailMark) : Machine → Prop
  | mk {k : Machine} (onward : Always f p inner Q k)
    (back : ∀ k', k.backtrack = some k' → base <:+ k'.trail → Sure f p inner Q base k') :
    Sure f p inner Q base k

theorem Sure.here (h : Sure f p inner Q base m) : Q m := by
  cases h with
  | mk onward _ =>
    cases onward with
    | mk here _ => exact here

theorem Sure.recount (hQ : Timeless Q) (h : Sure f p inner Q base m) (steps : Nat) :
    Sure f p inner Q base { m with steps } := by
  induction h with
  | mk onward back ih =>
    refine .mk (onward.of_bare hQ rfl) fun m' hm' hb => ?_
    rw [backtrack_steps] at hm'
    obtain ⟨k, hk, rfl⟩ := Option.map_eq_some_iff.1 hm'
    exact ih k hk hb

/-- One step: it goes on, or back to the latest choice. -/
theorem Sure.step (hQ : Timeless Q) (h : Sure f p inner Q base m) (goes : inner m.address)
    (hs : step f p m = .more m') (hb : base <:+ m'.trail) : Sure f p inner Q base m' := by
  obtain ⟨⟨here, onward⟩, back⟩ := h.recount hQ (m.steps + 1)
  cases stepped_of_step hs with
  | @onward i _ code obeyed =>
    refine .mk (onward m' (.obey goes code obeyed rfl)) fun j hj hbj => ?_
    by_cases hsplit : ∃ first second, i = .split first second
    · -- Going back leads to the other side of the choice.
      obtain ⟨first, second, rfl⟩ := hsplit
      obtain rfl := Option.some.inj (Except.ok.inj obeyed)
      obtain rfl := Option.some.inj hj
      refine .mk (onward _ (.otherwise goes code rfl)) fun j' hj' hbj' => back j' ?_ hbj'
      rw [← hj']
      exact (unwind_stand { m with steps := m.steps + 1 } _ _ _ _ _).symm
    · have hback := backtrack_obey obeyed fun first second e => hsplit ⟨first, second, e⟩
      exact back j (hback ▸ hj) hbj
  | back code stuck went => exact back m' went hb

/-- All the steps of a run that keeps to the addresses and does not go back too far. -/
theorem Sure.run (hQ : Timeless Q) (h : Sure f p inner Q base m)
    (hs : Progress.steps (Machine.step f p) count m = .more m')
    (goes : ∀ k < count, ∀ n, Progress.steps (Machine.step f p) k m = .more n → inner n.address)
    (hb : ∀ k ≤ count, ∀ n, Progress.steps (Machine.step f p) k m = .more n → base <:+ n.trail) :
    Sure f p inner Q base m' := by
  induction count generalizing m' with
  | zero =>
    obtain rfl := Progress.more.inj hs
    exact h
  | succ count ih =>
    obtain ⟨n, hn, hlast⟩ := Progress.steps_succ_last hs
    have hsure := ih hn (fun k hk => goes k (Nat.lt_succ_of_lt hk))
      fun k hk => hb k (Nat.le_succ_of_le hk)
    exact hsure.step hQ (goes count (Nat.lt_succ_self _) n hn) hlast (hb _ (Nat.le_refl _) m' hs)

/-- All machines that the start leads to are in order. -/
theorem always_start (h : Program.compileAll items = .ok p) (hf : f.Closed) (ha : f.Acyclic)
    (hc : f.contains seq = true) (m : Machine) (start : Nat) :
    Always f p inner (InOrder f p) (m.start p seq start) := by
  obtain ⟨rfl, -, ready⟩ := Program.compileAll_ok h
  have covers := (composes_covers hf (nodup_names items)).of_items hf ha items seq ready
    (Program.itemsAt_ofItems items)
  refine covers.leads (stands_start hc m start) (fun _ hm _ _ => hm) fun v m' _ hm' _ => ?_
  have code : (Program.ofItems items).InstrAt (0 + sizeOfItems items) .accept := by
    rw [Nat.zero_add]
    exact Program.accept_ofItems items
  have hcode : (Program.ofItems items).code[m'.address]? = some .accept := hm'.address ▸ code
  refine .next (hm'.inOrder code trivial) hcode nofun fun n k hn _ => ?_
  cases hn

theorem sure_start (h : Program.compileAll items = .ok p) (hf : f.Closed) (ha : f.Acyclic)
    (hc : f.contains seq = true) (m : Machine) (start : Nat) :
    Sure f p (fun _ => True) (InOrder f p) [] (m.start p seq start) :=
  .mk (always_start h hf ha hc m start) fun _ hm => by cases hm

/-- All machines of a run are in order. -/
theorem inOrder_of_steps (h : Program.compileAll items = .ok p) (hf : f.Closed) (ha : f.Acyclic)
    (hc : f.contains seq = true) {start : Nat}
    (hs : Progress.steps (Machine.step f p) count (m.start p seq start) = .more m') :
    InOrder f p m' :=
  ((sure_start h hf ha hc m start).run timeless_inOrder hs (fun _ _ _ _ => trivial)
    fun _ _ _ _ => List.nil_suffix).here

/-- A test of the program ended with the error. -/
def FromTest (f : Forest) (p : Program) (e : Failure TestError) : Prop :=
  ∃ name test n failure, (name, test) ∈ p.checks ∧ test f n = .error failure ∧
    e = failure.map fun message => ⟨name, message⟩

/-- A test of the program ended with the error when it was asked about a node of the sequence. -/
def FromTestAt (f : Forest) (p : Program) (seq : SeqName) (e : Failure TestError) : Prop :=
  ∃ name test n failure, n ∈ f.nodesOf seq ∧ (name, test) ∈ p.checks ∧ test f n = .error failure ∧
    e = failure.map fun message => ⟨name, message⟩

theorem FromTestAt.fromTest {e : Failure TestError} (h : FromTestAt f p seq e) :
    FromTest f p e := by
  obtain ⟨name, test, n, failure, -, h⟩ := h
  exact ⟨name, test, n, failure, h⟩

/-- Where the machine is in order, an instruction fails with an error only if a test does. -/
theorem fromTestAt_of_obey (hm : InOrder f p m) (hp : p.Confined) (hf : f.Closed) (ha : f.Acyclic)
    {i : Instr} {e : Failure TestError} (code : p.code[m.address]? = some i)
    (h : m.obey f p i = .error e) : FromTestAt f p m.seq e := by
  have confined := hp m.address i code
  cases i with
  | scalar s => rw [obey_scalar hm.there] at h; cases h
  | any => rw [obey_any hm.there] at h; cases h
  | atEnd => rw [obey_atEnd hm.there] at h; cases h
  | enter =>
    by_cases here : ∃ nested, (f.nodesOf m.seq)[m.position]? = some (.seq nested)
    · obtain ⟨nested, here⟩ := here
      rw [obey_enter hm.there here] at h
      cases h
    · rw [obey_enter_none hm.there fun nested hn => here ⟨nested, hn⟩] at h
      cases h
  | exit =>
    cases ho : m.outers with
    | nil => rw [obey, Forest.length_of_contains hm.there, ho] at h; cases h
    | cons outer outers => rw [obey_exit hm.there ho] at h; cases h
  | openSlot slot =>
    have hslot : slot.index < m.starts.length := hm.starts ▸ confined.slot slot rfl
    rw [obey_openSlot (List.getElem?_eq_getElem hslot)] at h
    cases h
  | closeSlot slot =>
    have hstart : slot.index < m.starts.length := hm.starts ▸ confined.slot slot rfl
    have hbound : slot.index < m.bindings.length := hm.bindings ▸ confined.slot slot rfl
    rw [obey_closeSlot (List.getElem?_eq_getElem hbound) (List.getElem?_eq_getElem hstart)] at h
    cases h
  | backRef slot =>
    have hbound : slot.index < m.bindings.length := hm.bindings ▸ confined.slot slot rfl
    cases hb : m.bindings[slot.index] with
    | none =>
      rw [obey_backRef_unbound (hb ▸ List.getElem?_eq_getElem hbound)] at h
      cases h
    | some s =>
      rw [obey_backRef hm.there hf ha (hb ▸ List.getElem?_eq_getElem hbound)] at h
      cases h
  | check index =>
    obtain ⟨⟨name, test⟩, hindex⟩ : ∃ c, p.checks[index]? = some c :=
      ⟨_, List.getElem?_eq_getElem (confined.test index rfl)⟩
    cases hn : (f.nodesOf m.seq)[m.position]? with
    | none => rw [obey_check_none hm.there hn] at h; cases h
    | some n =>
      rw [obey_check hm.there hn hindex] at h
      cases ht : test f n with
      | ok passed => rw [ht] at h; cases h
      | error failure =>
        rw [ht] at h
        exact ⟨name, test, n, failure, List.mem_of_getElem? hn, List.mem_of_getElem? hindex, ht,
          (Except.error.inj h).symm⟩
  | split first second => cases h
  | jump target => cases h
  | accept => cases h

/-- A step from a machine in order fails only where a test does. -/
theorem fromTestAt_of_step (hm : InOrder f p m) (hp : p.Confined) (hf : f.Closed) (ha : f.Acyclic)
    {e : Failure TestError} (h : step f p m = .done (.error e)) : FromTestAt f p m.seq e := by
  obtain ⟨i, code, -⟩ := hm.code
  unfold Machine.step at h
  simp only [code] at h
  split at h
  · next hc => cases hc
  · cases h
  · next hc =>
    obtain rfl := Option.some.inj hc
    split at h
    · next hobey =>
      obtain rfl := Except.error.inj (Progress.done.inj h)
      have hm' : InOrder f p { m with steps := m.steps + 1 } := timeless_inOrder _ m rfl hm
      exact fromTestAt_of_obey hm' hp hf ha code hobey
    · cases h
    · split at h <;> cases h

theorem confined_of_compiled (h : Program.compileAll items = .ok p) : p.Confined := by
  obtain ⟨rfl, -, ready⟩ := Program.compileAll_ok h
  exact Program.confined_ofItems ready

/-- No instruction of a run goes wrong. No instruction leads out of the program or names a slot or
test that is not there, every machine of the run finds what its instruction needs, and only tests
fail. -/
theorem run_in_order (h : Program.compileAll items = .ok p) (hf : f.Closed) (ha : f.Acyclic)
    (hc : f.contains seq = true) (m : Machine) (start : Nat) :
    p.Confined ∧
      ∀ count, match Progress.steps (step f p) count (m.start p seq start) with
        | .more m' => InOrder f p m'
        | .done (.ok _) => True
        | .done (.error e) => FromTest f p e := by
  have confined := confined_of_compiled h
  refine ⟨confined, fun count => ?_⟩
  split
  · next hs => exact inOrder_of_steps h hf ha hc hs
  · trivial
  · next hs =>
    obtain ⟨k, n, hn, hlast⟩ := Progress.steps_done_last hs
    exact (fromTestAt_of_step (inOrder_of_steps h hf ha hc hn) confined hf ha hlast).fromTest

/-- A third turn of the repetition fails, and the machine goes back to leave the nested sequence. -/
theorem run_in_order_nested :
    let items : List Pattern := [.named "x" [.sequence [.oneOrMore .any]], .atEnd]
    let v : Value := .seq [.seq [.scalar (.int 1), .scalar (.int 2)]]
    let f := Forest.ofValue v
    let p := Program.ofItems items
    Program.compileAll items = .ok p ∧ p.Confined ∧
      ∃ m', Progress.steps (step f p) 7 (new.start p f.root 0) = .more m' ∧
        p.code[m'.address]? = some .exit ∧ InOrder f p m' := by
  intro items v f p
  have hcompiled : Program.compileAll items = .ok p := by rfl
  have h := run_in_order hcompiled (Forest.closed_ofValue v) (Forest.acyclic_ofValue v)
    (Forest.contains_root_ofValue v) new 0
  obtain ⟨m', hs, hcode⟩ : ∃ m', Progress.steps (step f p) 7 (new.start p f.root 0) = .more m' ∧
      p.code[m'.address]? = some .exit := ⟨_, rfl, rfl⟩
  have hall := h.2 7
  rw [hs] at hall
  exact ⟨hcompiled, h.1, m', hs, hcode, hall⟩

end NestedRegex.Machine
